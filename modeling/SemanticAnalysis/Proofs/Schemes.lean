import SemanticAnalysis.Core.Context
import SemanticAnalysis.Proofs.Substitutions

/-!
Schemes and contexts under substitution. A scheme is read through an assignment
of its free variables: its instances are what the body becomes when the free
variables are replaced as assigned and the bound ones at will. Substituting in a
scheme captures nothing if the substitution does not touch a bound variable, and
then reads the free variables once more.
-/

namespace SemanticAnalysis

open Ty

namespace Scheme

def Free (σ : Scheme) (v : TyVar) : Prop := v ∈ σ.body.vars ∧ σ.bound.contains v = false

theorem contains_freeVars {σ : Scheme} {v : TyVar} : σ.freeVars.contains v ↔ σ.Free v := by
  simp [freeVars, Free, Ty.contains_freeVars, and_comm]

theorem free_mono {t : Ty} {v : TyVar} : (mono t).Free v ↔ v ∈ t.vars := by
  simp [Free, mono]

theorem bound_closed {t : Ty} {v : TyVar} : (closed t).bound.contains v = true ↔ v ∈ t.vars :=
  Ty.contains_freeVars

theorem not_free_closed (t : Ty) (v : TyVar) : ¬ (closed t).Free v := by
  intro h
  have hbound : (closed t).bound.contains v = true := bound_closed.2 h.1
  rw [h.2] at hbound
  cases hbound

theorem not_bound_of_isMono {σ : Scheme} (h : σ.isMono) (v : TyVar) :
    σ.bound.contains v = false := by
  by_contra hv
  obtain ⟨u, hu⟩ := OrderedMap.contains_iff.1 (by simpa using hv : σ.bound.contains v = true)
  have hmem := OrderedMap.mem_entries_iff.2 hu
  have hnil : σ.bound.entries = [] := List.isEmpty_iff.1 h
  simp [hnil] at hmem

section Instances

/-- An instance of a scheme: a type that agrees with the body once bound variables are
substituted. -/
def Instance (σ : Scheme) (t : Ty) : Prop :=
  ∃ θ : Subst, (∀ v, θ.contains v → σ.bound.contains v) ∧ Agrees (θ.apply σ.body) t

def InstanceUnder (φ : TyVar → Ty) (σ : Scheme) (t : Ty) : Prop :=
  ∃ f : TyVar → Ty, (∀ v, σ.Free v → Agrees (f v) (φ v)) ∧ Agrees (σ.body.replace f) t

/-- An instance is one read through the assignment that changes nothing. -/
theorem instance_iff {σ : Scheme} {t : Ty} : σ.Instance t ↔ σ.InstanceUnder Ty.var t := by
  constructor
  · intro h
    obtain ⟨θ, hdom, hag⟩ := h
    refine ⟨θ.read, fun v hv => ?_, by rwa [← Subst.apply_eq_replace]⟩
    have hnot : θ.contains v = false := by
      by_contra hc
      have hbound := hdom v (by simpa using hc)
      simp [hv.2] at hbound
    rw [Subst.read_of_not_contains hnot]
  · intro h
    obtain ⟨f, hfree, hag⟩ := h
    refine ⟨Subst.tabulate (OrderedSet.toList σ.bound) f, fun v hv => ?_, ?_⟩
    · obtain ⟨u, hu⟩ := OrderedMap.contains_iff.1 hv
      rw [Subst.get?_tabulate] at hu
      split at hu
      · exact OrderedSet.mem_toList_iff.1 ‹_›
      · simp at hu
    · refine Agrees.trans ?_ hag
      rw [Subst.apply_eq_replace]
      refine agrees_replace_congr fun v hv => ?_
      by_cases hb : v ∈ OrderedSet.toList σ.bound
      · rw [Subst.read_tabulate hb]
      · have hnot : σ.bound.contains v = false := by
          simpa [OrderedSet.mem_toList_iff] using hb
        have hread : (Subst.tabulate (OrderedSet.toList σ.bound) f).read v = .var v := by
          simp [Subst.read, Subst.get?_tabulate, hb]
        rw [hread]
        exact (hfree v ⟨hv, hnot⟩).symm

theorem instanceUnder_mono {φ : TyVar → Ty} {t u : Ty} :
    (mono t).InstanceUnder φ u ↔ Agrees (t.replace φ) u := by
  constructor
  · intro h
    obtain ⟨f, hfree, hag⟩ := h
    refine Agrees.trans (agrees_replace_congr fun v hv => ?_) hag
    exact (hfree v (free_mono.2 hv)).symm
  · intro h
    exact ⟨φ, fun v _ => Agrees.refl _, h⟩

theorem InstanceUnder.mono_of_agrees {φ ψ : TyVar → Ty} {i j t : Ty}
    (h : (mono j).InstanceUnder ψ t) (hij : Agrees (i.replace φ) (j.replace ψ)) :
    (mono i).InstanceUnder φ t :=
  instanceUnder_mono.2 (hij.trans (instanceUnder_mono.1 h))

theorem InstanceUnder.congr {φ ψ : TyVar → Ty} {σ : Scheme} {t : Ty}
    (h : ∀ v, σ.Free v → Agrees (φ v) (ψ v)) (ht : σ.InstanceUnder φ t) :
    σ.InstanceUnder ψ t := by
  obtain ⟨f, hfree, hag⟩ := ht
  exact ⟨f, fun v hv => (hfree v hv).trans (h v hv), hag⟩

end Instances

section Substitution

variable {σ : Scheme} {s r : Subst}

def Apart (σ : Scheme) (s : Subst) : Prop := ∀ v, σ.bound.contains v → ¬ s.Touches v

theorem apart_mono (t : Ty) (s : Subst) : (mono t).Apart s := by
  intro v hv
  simp [mono] at hv

theorem substitute_bound (σ : Scheme) (s : Subst) : (σ.substitute s).bound = σ.bound := rfl

theorem substitute_body (h : σ.Apart s) : (σ.substitute s).body = s.apply σ.body := by
  simp only [substitute, Subst.apply_eq_replace]
  refine replace_congr fun v _ => ?_
  rw [Subst.read_without]
  by_cases hv : σ.bound.contains v = true
  · rw [if_pos hv, Subst.read_of_not_touches (h v hv)]
  · rw [if_neg hv]

theorem substitute_mono (t : Ty) (s : Subst) : (mono t).substitute s = mono (s.apply t) := by
  have hbody := substitute_body (apart_mono t s)
  simp only [mono] at hbody ⊢
  simp only [substitute] at hbody ⊢
  rw [hbody]

/-- Reading a free variable of a scheme meets no bound variable. -/
theorem Apart.not_bound_of_read (h : σ.Apart s) {v w : TyVar} (hv : σ.bound.contains v = false)
    (hw : w ∈ (s.read v).vars) : σ.bound.contains w = false := by
  rcases Subst.touches_of_read hw with rfl | htouch
  · exact hv
  · by_contra hbound
    exact h w (by simpa using hbound) htouch

/-- What is free after a substitution is read from what was free before. A variable that is
captured is lost, so this holds of every substitution. -/
theorem exists_free_of_substitute {w : TyVar} (h : (σ.substitute s).Free w) :
    ∃ v, σ.Free v ∧ w ∈ (s.read v).vars := by
  obtain ⟨hw, hbound⟩ := h
  obtain ⟨v, hv, hread⟩ := Subst.mem_vars_apply.1 hw
  rw [Subst.read_without] at hread
  by_cases hvb : σ.bound.contains v = true
  · rw [if_pos hvb, mem_vars_var] at hread
    rw [hread, substitute_bound, hvb] at hbound
    simp at hbound
  · rw [if_neg hvb] at hread
    exact ⟨v, ⟨hv, by simpa using hvb⟩, hread⟩

theorem free_substitute (h : σ.Apart s) {w : TyVar} :
    (σ.substitute s).Free w ↔ ∃ v, σ.Free v ∧ w ∈ (s.read v).vars := by
  constructor
  · exact exists_free_of_substitute
  · intro hw
    obtain ⟨v, ⟨hv, hvb⟩, hread⟩ := hw
    refine ⟨?_, h.not_bound_of_read hvb hread⟩
    rw [substitute_body h]
    exact Subst.mem_vars_apply.2 ⟨v, hv, hread⟩

/-- Substituting twice. Only the second substitution has to keep apart from the scheme. -/
theorem substitute_compose (hs : σ.Apart s) :
    σ.substitute (s.compose r) = (σ.substitute r).substitute s := by
  have hs' : (σ.substitute r).Apart s := hs
  have hbody : (σ.substitute (s.compose r)).body = ((σ.substitute r).substitute s).body := by
    rw [substitute_body hs']
    simp only [substitute, Subst.apply_eq_replace, replace_replace]
    refine replace_congr fun v _ => ?_
    rw [Subst.read_without, Subst.read_without]
    by_cases hv : σ.bound.contains v = true
    · rw [if_pos hv, if_pos hv, replace_var, Subst.read_of_not_touches (hs v hv)]
    · rw [if_neg hv, if_neg hv, Subst.read_compose, Subst.apply_eq_replace]
  exact congrArg (Scheme.mk σ.bound) hbody

theorem substitute_empty (σ : Scheme) : σ.substitute Subst.empty = σ := by
  have happart : σ.Apart Subst.empty := fun v _ => Subst.not_touches_empty v
  have hbody := substitute_body happart
  rw [Subst.apply_empty] at hbody
  exact congrArg (Scheme.mk σ.bound) hbody

/-- Only what a substitution makes of the free variables counts. -/
theorem substitute_congr (h : ∀ v, σ.Free v → s.read v = r.read v) :
    σ.substitute s = σ.substitute r := by
  have hbody : (σ.substitute s).body = (σ.substitute r).body := by
    simp only [substitute, Subst.apply_eq_replace]
    refine replace_congr fun v hv => ?_
    rw [Subst.read_without, Subst.read_without]
    by_cases hbound : σ.bound.contains v = true
    · rw [if_pos hbound, if_pos hbound]
    · rw [if_neg hbound, if_neg hbound]
      exact h v ⟨hv, by simpa using hbound⟩
  exact congrArg (Scheme.mk σ.bound) hbody

/-- A substitution leaves a scheme as it is if it binds none of the free variables. -/
theorem substitute_of_unbound (h : ∀ v, σ.Free v → s.contains v = false) :
    σ.substitute s = σ := by
  refine (substitute_congr fun v hv => ?_).trans (substitute_empty σ)
  rw [Subst.read_of_not_contains (h v hv)]
  rfl

/-- What a scheme has as an instance it still has after substitution, if the assignment reads
the replacements as the free variables were read before. -/
theorem InstanceUnder.substitute {φ ψ : TyVar → Ty} {t : Ty} (happart : σ.Apart s)
    (h : ∀ v, σ.Free v → Agrees ((s.read v).replace ψ) (φ v)) (ht : σ.InstanceUnder φ t) :
    (σ.substitute s).InstanceUnder ψ t := by
  obtain ⟨f, hfree, hag⟩ := ht
  -- bound variables as chosen for the instance, all others as the assignment says
  refine ⟨fun v => if σ.bound.contains v then f v else ψ v, fun v hv => ?_, ?_⟩
  · have hnot : σ.bound.contains v = false := hv.2
    simp [hnot]
  · refine Agrees.trans ?_ hag
    rw [substitute_body happart, Subst.apply_eq_replace, replace_replace]
    refine agrees_replace_congr fun v hv => ?_
    by_cases hbound : σ.bound.contains v = true
    · rw [Subst.read_of_not_touches (happart v hbound), replace_var, if_pos hbound]
    · have hbound' : σ.bound.contains v = false := by simpa using hbound
      have hread : (s.read v).replace (fun w => if σ.bound.contains w then f w else ψ w) =
          (s.read v).replace ψ := by
        refine replace_congr fun w hw => ?_
        simp [happart.not_bound_of_read hbound' hw]
      rw [hread]
      exact (h v ⟨hv, hbound'⟩).trans (hfree v ⟨hv, hbound'⟩).symm

end Substitution

end Scheme

/-- Substitutions are a monoid under composition, with the empty one as its unit, and act on types
and, where they touch none of the bound variables, on schemes. -/
theorem substitutions_act :
    (∀ (s₁ s₂ : Subst) (t : Ty), (s₁.compose s₂).apply t = s₁.apply (s₂.apply t)) ∧
    (∀ s₁ s₂ s₃ : Subst, (s₁.compose s₂).compose s₃ = s₁.compose (s₂.compose s₃)) ∧
    (∀ s : Subst, Subst.empty.compose s = s ∧ s.compose Subst.empty = s) ∧
    (∀ t : Ty, Subst.empty.apply t = t) ∧
    ∀ (σ : Scheme) (s₁ s₂ : Subst),
      (∀ v, σ.bound.contains v → ¬ s₁.Touches v ∧ ¬ s₂.Touches v) →
      (σ.substitute s₂).substitute s₁ = σ.substitute (s₁.compose s₂) := by
  refine ⟨Subst.apply_compose, Subst.compose_assoc, fun s => ?_, Subst.apply_empty, ?_⟩
  · exact ⟨Subst.empty_compose s, Subst.compose_empty s⟩
  · intro σ s₁ s₂ h
    have happart : σ.Apart s₁ := fun v hv => (h v hv).1
    exact (Scheme.substitute_compose happart).symm

/-- What the first substitution puts in the place of a variable is rewritten by the second one,
below the variable that the scheme quantifies. -/
theorem substitutions_act_chained :
    let σ : Scheme := ⟨OrderedSet.ofList [⟨0⟩], .fn (.var ⟨0⟩) (.var ⟨1⟩)⟩
    let s₂ : Subst := Subst.single ⟨1⟩ (.fn (.var ⟨2⟩) (.var ⟨1⟩))
    let s₁ : Subst := Subst.single ⟨2⟩ number
    (σ.substitute s₂).substitute s₁ = σ.substitute (s₁.compose s₂) ∧
      (σ.substitute (s₁.compose s₂)).body = .fn (.var ⟨0⟩) (.fn number (.var ⟨1⟩)) := by
  intro σ s₂ s₁
  refine ⟨substitutions_act.2.2.2.2 σ s₁ s₂ fun v hv => ?_, rfl⟩
  obtain rfl : v = ⟨0⟩ := by simpa [σ] using hv
  constructor
  · intro htouch
    rcases Subst.touches_single htouch with h | h
    · simp at h
    · simp [number, vars] at h
  · intro htouch
    rcases Subst.touches_single htouch with h | h
    · simp at h
    · simp [vars] at h

namespace Context

def Free (Γ : Context) (v : TyVar) : Prop := ∃ x σ, Γ.get? x = some σ ∧ σ.Free v

def Apart (Γ : Context) (s : Subst) : Prop := ∀ x σ, Γ.get? x = some σ → σ.Apart s

theorem contains_freeVars {Γ : Context} {v : TyVar} : Γ.freeVars.contains v ↔ Γ.Free v := by
  simp only [freeVars, OrderedSet.contains_ofList, List.mem_flatMap, OrderedMap.mem_values_iff,
    OrderedSet.mem_toList_iff, Scheme.contains_freeVars, Free]
  constructor
  · intro h
    obtain ⟨σ, ⟨x, hx⟩, hv⟩ := h
    exact ⟨x, σ, hx, hv⟩
  · intro h
    obtain ⟨x, σ, hx, hv⟩ := h
    exact ⟨σ, ⟨x, hx⟩, hv⟩

section Entries

variable {Γ : Context} {x : CoreVar} {σ : Scheme} {s r : Subst} {v : TyVar}

theorem get?_substitute (Γ : Context) (s : Subst) (x : CoreVar) :
    (Γ.substitute s).get? x = (Γ.get? x).map fun σ => σ.substitute s := by
  simp [substitute]

theorem get?_substitute_eq_some {δ : Scheme} :
    (Γ.substitute s).get? x = some δ ↔ ∃ σ, Γ.get? x = some σ ∧ σ.substitute s = δ := by
  rw [get?_substitute, Option.map_eq_some_iff]

@[simp]
theorem contains_substitute (Γ : Context) (s : Subst) (x : CoreVar) :
    OrderedMap.contains (Γ.substitute s) x = Γ.contains x := by
  simp [substitute]

theorem substitute_insert (Γ : Context) (x : CoreVar) (σ : Scheme) (s : Subst) :
    substitute (Γ.insert x σ) s = (Γ.substitute s).insert x (σ.substitute s) := by
  apply OrderedMap.ext_get?
  intro y
  by_cases h : x = y <;> simp [get?_substitute, OrderedMap.get?_insert, h]

theorem erase_insert (Γ : Context) (x : CoreVar) (σ : Scheme) :
    (OrderedMap.erase Γ x).insert x σ = Γ.insert x σ := by
  apply OrderedMap.ext_get?
  intro y
  by_cases h : x = y
  · simp [OrderedMap.get?_insert, h]
  · have h' : y ≠ x := fun heq => h heq.symm
    simp [OrderedMap.get?_insert, OrderedMap.get?_erase, h, h']

theorem substitute_empty (Γ : Context) : Γ.substitute Subst.empty = Γ := by
  apply OrderedMap.ext_get?
  intro x
  simp [get?_substitute, Scheme.substitute_empty]

/-- A substitution leaves a context as it is if it binds none of the free variables. -/
theorem substitute_of_unbound (h : ∀ v, Γ.Free v → s.contains v = false) : Γ.substitute s = Γ := by
  apply OrderedMap.ext_get?
  intro x
  rw [get?_substitute]
  cases hx : Γ.get? x with
  | none => rfl
  | some σ =>
    have hσ : ∀ v, σ.Free v → s.contains v = false := fun v hv => h v ⟨x, σ, hx, hv⟩
    rw [Option.map_some, Scheme.substitute_of_unbound hσ]

theorem substitute_of_closed (h : ∀ v, ¬ Γ.Free v) : Γ.substitute s = Γ :=
  substitute_of_unbound fun v hv => absurd hv (h v)

theorem substitute_compose (hs : Γ.Apart s) :
    Γ.substitute (s.compose r) = (Γ.substitute r).substitute s := by
  apply OrderedMap.ext_get?
  intro x
  simp only [get?_substitute]
  cases h : Γ.get? x with
  | none => rfl
  | some σ => simp [Scheme.substitute_compose (hs x σ h)]

theorem apart_substitute : (Γ.substitute r).Apart s ↔ Γ.Apart s := by
  constructor
  · intro h x σ hσ
    exact h x (σ.substitute r) (by simp [get?_substitute, hσ])
  · intro h x δ hδ
    obtain ⟨σ, hσ, rfl⟩ := get?_substitute_eq_some.1 hδ
    exact h x σ hσ

theorem Apart.compose (hs : Γ.Apart s) (hr : Γ.Apart r) : Γ.Apart (s.compose r) := by
  intro x σ h v hv htouch
  rcases Subst.touches_compose htouch with htouch | htouch
  · exact hs x σ h v hv htouch
  · exact hr x σ h v hv htouch

theorem exists_free_of_substitute {w : TyVar} (h : (Γ.substitute s).Free w) :
    ∃ v, Γ.Free v ∧ w ∈ (s.read v).vars := by
  obtain ⟨x, δ, hx, hfree⟩ := h
  obtain ⟨σ, hσ, rfl⟩ := get?_substitute_eq_some.1 hx
  obtain ⟨v, hv, hread⟩ := Scheme.exists_free_of_substitute hfree
  exact ⟨v, ⟨x, σ, hσ, hv⟩, hread⟩

theorem free_substitute (h : Γ.Apart s) {w : TyVar} :
    (Γ.substitute s).Free w ↔ ∃ v, Γ.Free v ∧ w ∈ (s.read v).vars := by
  constructor
  · exact exists_free_of_substitute
  · intro hw
    obtain ⟨v, ⟨x, σ, hσ, hv⟩, hread⟩ := hw
    refine ⟨x, σ.substitute s, by simp [get?_substitute, hσ], ?_⟩
    exact (Scheme.free_substitute (h x σ hσ)).2 ⟨v, hv, hread⟩

theorem free_insert (h : Free (Γ.insert x σ) v) : σ.Free v ∨ Γ.Free v := by
  obtain ⟨y, δ, hy, hfree⟩ := h
  rcases OrderedMap.of_get?_insert hy with ⟨-, rfl⟩ | hy
  · exact Or.inl hfree
  · exact Or.inr ⟨y, δ, hy, hfree⟩

theorem free_of_erase (h : Free (OrderedMap.erase Γ x) v) : Γ.Free v := by
  obtain ⟨y, δ, hy, hfree⟩ := h
  exact ⟨y, δ, OrderedMap.of_get?_erase hy, hfree⟩

/-- Leaving an entry out loses no free variable that the entry does not have. -/
theorem free_erase_iff (h : ∀ σ, Γ.get? x = some σ → ¬ σ.Free v) :
    Free (OrderedMap.erase Γ x) v ↔ Γ.Free v := by
  constructor
  · exact free_of_erase
  · intro hv
    obtain ⟨y, δ, hy, hfree⟩ := hv
    have hne : y ≠ x := by
      intro heq
      rw [heq] at hy
      exact h δ hy hfree
    exact ⟨y, δ, by simp [OrderedMap.get?_erase, hne, hy], hfree⟩

theorem generalize_congr {Δ : Context} (h : ∀ v, Γ.Free v ↔ Δ.Free v) (t : Ty) :
    Γ.generalize t = Δ.generalize t := by
  have hfree : Γ.freeVars = Δ.freeVars := by
    apply OrderedSet.ext_contains
    intro v
    rw [contains_freeVars, contains_freeVars]
    exact h v
  rw [generalize, generalize, hfree]

theorem free_generalize {t : Ty} : (Γ.generalize t).Free v ↔ v ∈ t.vars ∧ Γ.Free v := by
  rw [← contains_freeVars]
  simp only [Scheme.Free, generalize, OrderedSet.contains_diff]
  constructor
  · intro h
    refine ⟨h.1, ?_⟩
    have hbound := h.2
    simpa [Ty.contains_freeVars.2 h.1] using hbound
  · intro h
    exact ⟨h.1, by simp [h.2]⟩

theorem bound_generalize {t : Ty} :
    (Γ.generalize t).bound.contains v ↔ v ∈ t.vars ∧ ¬ Γ.Free v := by
  rw [← contains_freeVars]
  simp [generalize, OrderedSet.contains_diff, Ty.contains_freeVars, and_comm]

end Entries

end Context

end SemanticAnalysis
