import SemanticAnalysis.Proofs.InferenceSoundness
import SemanticAnalysis.Proofs.MostGeneralUnifier

/-!
Inference finds principal types. A derivation is followed in a context that is at
least as general as its own when its free variables are read through an
assignment. At each term inference succeeds, and the assignment extends to the
variables issued on the way so that the type found is read as the type derived.
At a call the extended assignment is a unifier, which unification cannot miss.
-/

namespace SemanticAnalysis

open Ty

/-- Below a count of issued variables, what a substitution puts for a variable is read by one
assignment as the variable is by the other. -/
def ReadsAs (n : Nat) (s : Subst) (ψ φ : TyVar → Ty) : Prop :=
  ∀ v, v.index < n → Agrees ((s.read v).replace ψ) (φ v)

namespace ReadsAs

variable {n m : Nat} {s s₁ s₂ : Subst} {φ ψ ψ₁ ψ₂ : TyVar → Ty}

theorem apply (h : ReadsAs n s ψ φ) {u : Ty} (hu : ∀ v ∈ u.vars, v.index < n) :
    Agrees ((s.apply u).replace ψ) (u.replace φ) := by
  rw [Subst.apply_eq_replace, replace_replace]
  exact agrees_replace_congr fun v hv => h v (hu v hv)

theorem empty (h : ∀ v : TyVar, v.index < n → ψ v = φ v) : ReadsAs n Subst.empty ψ φ := by
  intro v hv
  rw [Subst.read_empty, replace_var, h v hv]

theorem compose (h₁ : ReadsAs n s₁ ψ₁ φ) (h₂ : ReadsAs m s₂ ψ₂ ψ₁)
    (hlt : ∀ v : TyVar, v.index < n → ∀ w ∈ (s₁.read v).vars, w.index < m) :
    ReadsAs n (s₂.compose s₁) ψ₂ φ := by
  intro v hv
  rw [Subst.read_compose]
  exact (h₂.apply (hlt v hv)).trans (h₁ v hv)

end ReadsAs

theorem replace_update {φ : TyVar → Ty} {w : TyVar} {t u : Ty}
    (hu : ∀ v ∈ u.vars, v.index < w.index) : u.replace (Function.update φ w t) = u.replace φ := by
  refine replace_congr fun v hv => ?_
  have hlt := hu v hv
  have hne : v ≠ w := by
    intro heq
    rw [heq] at hlt
    omega
  exact Function.update_of_ne hne t φ

/-- An instance of a scheme is what its instantiation is read as, with an assignment that was
not changed at variables issued before. -/
theorem Scheme.exists_reading {σ : Scheme} {supply : Supply} {φ : TyVar → Ty} {t : Ty}
    (hissued : ∀ v ∈ σ.body.vars, v.index < supply.issued) (ht : σ.InstanceUnder φ t) :
    ∃ ψ : TyVar → Ty, (∀ v, v.index < supply.issued → ψ v = φ v) ∧
      Agrees ((σ.instantiate supply).1.replace ψ) t := by
  obtain ⟨f, hfree, hag⟩ := ht
  -- an issued variable is read as the instance reads the bound variable it stands for
  refine ⟨fun v => if v.index < supply.issued then φ v else
    f ((OrderedSet.toList σ.bound).getD (v.index - supply.issued) v), ?_, ?_⟩
  · intro v hv
    simp [hv]
  · refine Agrees.trans ?_ hag
    rw [instantiate_eq, replace_replace]
    refine agrees_replace_congr fun v hv => ?_
    by_cases hbound : σ.bound.contains v = true
    · have hmem := OrderedSet.mem_toList_iff.2 hbound
      have hlt := List.idxOf_lt_length_iff.2 hmem
      have hget : (OrderedSet.toList σ.bound).getD ((OrderedSet.toList σ.bound).idxOf v)
          (σ.issuedFor supply.issued v) = v := by
        rw [List.getD_eq_getElem?_getD, List.getElem?_eq_getElem hlt, Option.getD_some,
          List.getElem_idxOf]
      have hnot : ¬ (σ.issuedFor supply.issued v).index < supply.issued := by
        have hbounds := issuedFor_bounds (n := supply.issued) hbound
        omega
      have hsub : (σ.issuedFor supply.issued v).index - supply.issued =
          (OrderedSet.toList σ.bound).idxOf v := by
        simp only [issuedFor]
        omega
      rw [if_pos hbound, replace_var, if_neg hnot, hsub, hget]
    · have hvfree : σ.Free v := ⟨hv, by simpa using hbound⟩
      rw [if_neg hbound, replace_var, if_pos (hissued v hv)]
      exact (hfree v hvfree).symm

namespace Context

/-- The context stands for another one: read through the assignment it is at least as general,
and inference can go on in it at the given count of issued variables. -/
structure StandsFor (Γ : Context) (φ : TyVar → Ty) (Δ : Context) (n : Nat) : Prop where
  general : Γ.MoreGeneral φ Δ Ty.var
  hygienic : Γ.Hygienic n
  unionsSealed : Γ.Sealed .unions

/-- A binder with a variable of its own stands for the same binder with any type. -/
theorem StandsFor.insert_next {Γ Δ : Context} {φ : TyVar → Ty} {n : Nat}
    (h : Γ.StandsFor φ Δ n) (x : CoreVar) (i : Ty) :
    StandsFor (Γ.insert x (Scheme.mono (.var ⟨n⟩))) (Function.update φ ⟨n⟩ i)
      (Δ.insert x (Scheme.mono i)) (n + 1) where
  general := by
    have hkept : ∀ v, Γ.Free v → Agrees (φ v) (Function.update φ ⟨n⟩ i v) := by
      intro v hv
      have hlt := h.hygienic.lt_of_free hv
      have hsame := replace_update (φ := φ) (w := ⟨n⟩) (t := i) (u := .var v) (by
        intro w hw
        rwa [mem_vars_var.1 hw])
      rw [replace_var, replace_var] at hsame
      rw [hsame]
    refine (h.general.congr_left hkept).insert_mono x ?_
    rw [replace_var, Function.update_self, replace_id]
  hygienic := by
    refine h.hygienic.insert_mono x (fun v hv => Or.inr ?_) (Nat.le_succ n)
    rw [mem_vars_var.1 hv]
    exact ⟨Nat.le_refl _, Nat.lt_succ_self _⟩
  unionsSealed := h.unionsSealed.insert x (sealed_var _)

end Context

namespace Inference

/-- An answer covers a typing of the term in a context that the present one stands for: the
answer is derivable, and the assignment reads it as the typing. -/
structure Covers (Γ : Context) (φ : TyVar → Ty) (e : Term) (τ : Ty) (n m : Nat) (s : Subst)
    (t : Ty) (ψ : TyVar → Ty) : Prop where
  mentions : Γ.Mentions n m s t
  substSealed : s.Sealed .unions
  typeSealed : t.Sealed .unions
  reads : ReadsAs n s ψ φ
  type : Agrees (t.replace ψ) τ
  derives : Derives (Γ.substitute s) e t

section Covers

variable {Γ Δ : Context} {φ ψ ψ₁ ψ₂ : TyVar → Ty} {e : Term} {τ : Ty} {n m k : Nat}
  {s s₁ s₂ : Subst} {t t₁ t₂ : Ty}

theorem Covers.apart (h : Covers Γ φ e τ n m s t ψ) (hΓ : Γ.Hygienic n) : Γ.Apart s :=
  hΓ.apart h.mentions.subst

theorem Covers.substitute (h : Covers Γ φ e τ n m s t ψ) (hΓ : Γ.StandsFor φ Δ n) :
    (Γ.substitute s).StandsFor ψ Δ m where
  general := by
    refine hΓ.general.substitute (h.apart hΓ.hygienic) fun v hv => ?_
    exact h.reads v (hΓ.hygienic.lt_of_free hv)
  hygienic := hΓ.hygienic.substitute h.mentions.subst h.mentions.le
  unionsSealed := hΓ.unionsSealed.substitute h.substSealed

theorem Covers.read_lt (h : Covers Γ φ e τ n m s t ψ) (hΓ : Γ.Hygienic n) (v : TyVar)
    (hv : v.index < n) (w : TyVar) (hw : w ∈ (s.read v).vars) : w.index < m :=
  h.mentions.read_lt hΓ (Nat.lt_of_lt_of_le hv h.mentions.le) hw

/-- The context of the usage of a let stands for the one that the rule has there. -/
theorem Covers.usage (h : Covers Γ φ e τ n m s t ψ) (hΓ : Γ.StandsFor φ Δ n) {x : CoreVar}
    (hx : Γ.bindsOpen x = false) :
    (usageContext Γ s x t).StandsFor ψ (Δ.insert x (Δ.generalize τ)) m where
  general := by
    have hgen := (h.substitute hΓ).general
    rw [usageContext_eq (h.apart hΓ.hygienic) hx]
    exact hgen.insert x fun u hu => hgen.generalize h.type hu
  hygienic := hygienic_usageContext hΓ.hygienic h.mentions
  unionsSealed := sealed_usageContext hΓ.unionsSealed h.substSealed h.typeSealed

theorem covers_no_items (Γ : Context) (φ : TyVar → Ty) (n : Nat) :
    Covers Γ φ (.tuple []) (.tuple []) n n Subst.empty (.tuple []) φ where
  mentions := Context.Mentions.empty (Nat.le_refl _) (by simp [vars])
  substSealed := Subst.sealed_empty
  typeSealed := sealed_of_ground rfl
  reads := ReadsAs.empty fun _ _ => rfl
  type := Agrees.refl _
  derives := .tuple rfl (by simp)

/-- An answer for a further item of a tuple extends the answer for the items before. -/
theorem Covers.append {done : List Term} {item : Term} {τs ts : List Ty}
    (h₁ : Covers Γ φ (.tuple done) (.tuple τs) n m s₁ (.tuple ts) ψ₁)
    (h₂ : Covers (Γ.substitute s₁) ψ₁ item τ m k s₂ t₂ ψ₂) (hΓ : Γ.StandsFor φ Δ n) :
    Covers Γ φ (.tuple (done ++ [item])) (.tuple (τs ++ [τ])) n k (s₂.compose s₁)
      (.tuple (ts.map s₂.apply ++ [t₂])) ψ₂ where
  mentions := by
    refine h₁.mentions.append (fun v hv => ?_) h₂.mentions
    exact Context.reaches_of_free_substitute h₁.mentions.subst hv
  substSealed := h₂.substSealed.compose h₁.substSealed
  typeSealed := by
    refine sealed_tuple_iff.2 ⟨fun hk => by simp at hk, fun u hu => ?_⟩
    rcases List.mem_append.1 hu with hu | hu
    · obtain ⟨u₀, hu₀, rfl⟩ := List.mem_map.1 hu
      exact h₂.substSealed.apply ((sealed_tuple_iff.1 h₁.typeSealed).2 u₀ hu₀)
    · rw [List.mem_singleton.1 hu]
      exact h₂.typeSealed
  reads := h₁.reads.compose h₂.reads (h₁.read_lt hΓ.hygienic)
  type := by
    have hold : Agrees ((s₂.apply (.tuple ts)).replace ψ₂) (.tuple τs) :=
      (h₂.reads.apply fun v hv => h₁.mentions.type_lt hΓ.hygienic hv).trans h₁.type
    rw [Subst.apply_tuple, replace_tuple] at hold
    rw [replace_tuple, List.map_append]
    refine agrees_tuple_iff.2 (List.rel_append (agrees_tuple_iff.1 hold) ?_)
    exact List.Forall₂.cons h₂.type .nil
  derives := by
    have ha₂ := h₂.apart (h₁.substitute hΓ).hygienic
    rw [Context.substitute_compose (Context.apart_substitute.1 ha₂)]
    have hdone := h₁.derives.substitute ha₂
    rw [Subst.apply_tuple] at hdone
    exact hdone.tuple_append h₂.derives

end Covers

/-- The term, which has the type in the context, is answered in every context that stands for
it, at every state, unless a binder rebinds a variable. -/
def Answered (Δ : Context) (e : Term) (τ : Ty) : Prop :=
  ∀ {Γ : Context} {φ : TyVar → Ty} {st : State} {taken : CoreVar → Bool},
    Γ.StandsFor φ Δ st.supply.issued → (∀ x, Γ.contains x → taken x) →
    e.rebindsNone .binders taken →
    ∃ fuel s t st' ψ, Yields (infer fuel Γ e) st (s, t) st' ∧
      Covers Γ φ e τ st.supply.issued st'.supply.issued s t ψ

section Answers

variable {Γ Δ : Context} {φ ψ ψ₁ ψ₂ : TyVar → Ty} {e : Term} {τ : Ty} {n m fuel : Nat}
  {st st' : State} {s s₁ s₂ : Subst} {t t₁ t₂ : Ty}

theorem yields_mono {fuel' : Nat} (h : Yields (infer fuel Γ e) st (s, t) st')
    (hle : fuel ≤ fuel') : Yields (infer fuel' Γ e) st (s, t) st' :=
  infer_goesOn hle e Γ st _ h

theorem get?_eq_none_of_not_taken {taken : CoreVar → Bool} (h : ∀ y, Γ.contains y → taken y)
    {x : CoreVar} (hx : taken x = false) : Γ.get? x = none := by
  rw [OrderedMap.get?_eq_none_iff]
  by_contra hc
  simp [h x (by simpa using hc)] at hx

theorem contains_insert_cases {x : CoreVar} {σ : Scheme} (y : CoreVar)
    (hy : OrderedMap.contains (Γ.insert x σ) y) : y = x ∨ Γ.contains y := by
  simp only [OrderedMap.contains_insert, Bool.or_eq_true, decide_eq_true_eq] at hy
  rcases hy with hy | hy
  · exact Or.inl hy.symm
  · exact Or.inr hy

theorem covers_of_yields (hΓ : Γ.StandsFor φ Δ st.supply.issued)
    (h : Yields (infer fuel Γ e) st (s, t) st') (hreads : ReadsAs st.supply.issued s ψ φ)
    (htype : Agrees (t.replace ψ) τ) (hderives : Derives (Γ.substitute s) e t) :
    Covers Γ φ e τ st.supply.issued st'.supply.issued s t ψ := by
  obtain ⟨hs, ht⟩ := infer_sealed hΓ.unionsSealed (fun hk => by simp at hk) h
  exact ⟨mentions_of_infer h, hs, ht, hreads, htype, hderives⟩

/-- At a call the assignment that reads the result as the type derived is a unifier, so
unification succeeds and the assignment absorbs what it finds. -/
theorem exists_call {arg func : Term} {i o : Ty} (origin : Option NodeId)
    (hΓ : Γ.StandsFor φ Δ n) (h₁ : Covers Γ φ func (.fn i o) n m s₁ t₁ ψ₁)
    (h₂ : Covers (Γ.substitute s₁) ψ₁ arg i m st.supply.issued s₂ t₂ ψ₂) :
    ∃ fuel s₃ ψ, (unify fuel (s₂.apply t₁) (.fn t₂ (.var st.next))).run = some (.ok s₃) ∧
      ReadsAs n ((s₃.compose s₂).compose s₁) ψ φ ∧
      Agrees ((s₃.apply (.var st.next)).replace ψ) o ∧
      Derives (Γ.substitute ((s₃.compose s₂).compose s₁)) (.app arg func origin)
        (s₃.apply (.var st.next)) := by
  have hΓ₁ := h₁.substitute hΓ
  let ψ := Function.update ψ₂ st.next o
  have hresult : ψ st.next = o := Function.update_self st.next o ψ₂
  have hψ : ∀ {u : Ty}, (∀ v ∈ u.vars, v.index < st.supply.issued) →
      u.replace ψ = u.replace ψ₂ := fun hu => replace_update hu
  have hthrough : ∀ {u : Ty}, (∀ v ∈ u.vars, v.index < m) →
      Agrees ((s₂.apply u).replace ψ) (u.replace ψ₁) := by
    intro u hu
    have hle := h₂.mentions.le
    have hlt : ∀ w ∈ (s₂.apply u).vars, w.index < st.supply.issued := by
      intro w hw
      refine h₂.mentions.apply_lt hΓ₁.hygienic (fun v hv => ?_) hw
      have := hu v hv
      omega
    rw [hψ hlt]
    exact h₂.reads.apply hu
  have ht₁ : ∀ v ∈ t₁.vars, v.index < m := fun v hv => h₁.mentions.type_lt hΓ.hygienic hv
  have hright : (Ty.fn t₂ (.var st.next)).replace ψ = .fn (t₂.replace ψ₂) o := by
    have ht₂ := hψ fun v hv => h₂.mentions.type_lt hΓ₁.hygienic hv
    rw [replace_fn, ht₂, replace_var, hresult]
  have hunifies : Unification.Unifies ψ (s₂.apply t₁) (.fn t₂ (.var st.next)) := by
    have hfn : Agrees (.fn (t₂.replace ψ₂) o) (.fn i o) :=
      agrees_fn_iff.2 ⟨h₂.type, Agrees.refl o⟩
    rw [Unification.Unifies, hright]
    exact ((hthrough ht₁).trans h₁.type).trans hfn.symm
  obtain ⟨s₃, hrun, habsorbs, hag⟩ := Unification.solvesBelow ψ _ _ _
    (h₂.substSealed.apply h₁.typeSealed) (sealed_fn_iff.2 ⟨h₂.typeSealed, sealed_var _⟩) hunifies
    (Nat.lt_succ_self _)
  refine ⟨_, s₃, ψ, hrun, fun v hv => ?_, ?_, ?_⟩
  · rw [Subst.read_compose, Subst.apply_compose]
    have hs₁ := h₁.read_lt hΓ.hygienic v hv
    exact ((habsorbs.apply _).trans (hthrough hs₁)).trans (h₁.reads v hv)
  · refine (habsorbs.apply _).trans ?_
    rw [replace_var, hresult]
  · obtain ⟨-, ha₂, ha₃⟩ := apart_of_call hΓ.hygienic h₁.mentions h₂.mentions hrun
    exact derives_app ha₂ ha₃ h₁.derives h₂.derives hag

/-- A variable is answered by an instance of its scheme. -/
theorem answered_var {x : CoreVar} {δ : Scheme} (hx : Δ.get? x = some δ) (ht : δ.Instance τ) :
    Answered Δ (.var x) τ := by
  intro Γ φ st taken hΓ _ _
  obtain ⟨σ, hσ, hinst⟩ := hΓ.general.instances x δ hx
  have hissued : ∀ v ∈ σ.body.vars, v.index < st.supply.issued :=
    fun v hv => hΓ.hygienic.issued x σ hσ v (Or.inl hv)
  obtain ⟨ψ, hkept, hag⟩ := Scheme.exists_reading hissued (hinst τ (Scheme.instance_iff.1 ht))
  have hinstantiate : Yields (instantiate σ) st (σ.instantiate st.supply).1
      { st with supply := (σ.instantiate st.supply).2 } := yields_instantiate.2 ⟨rfl, rfl⟩
  have hrun : Yields (infer 0 Γ (.var x)) st (Subst.empty, (σ.instantiate st.supply).1)
      { st with supply := (σ.instantiate st.supply).2 } :=
    yields_var.2 ⟨σ, hσ, rfl, hinstantiate⟩
  exact ⟨0, _, _, _, ψ, hrun, covers_of_yields hΓ hrun (ReadsAs.empty hkept) hag
    (derives_var hσ hinstantiate)⟩

/-- A call is answered if its function and its argument are: the assignments are joined by
unification. -/
theorem answered_app {arg func : Term} {origin : Option NodeId} {i o : Ty}
    (hfunc : Answered Δ func (.fn i o)) (harg : Answered Δ arg i) :
    Answered Δ (.app arg func origin) o := by
  intro Γ φ st taken hΓ htaken hbind
  simp only [Term.rebindsNone, Bool.and_eq_true] at hbind
  obtain ⟨fuel₁, s₁, t₁, st₁, ψ₁, hrun₁, h₁⟩ := hfunc hΓ htaken hbind.2
  have htaken₁ : ∀ x, OrderedMap.contains (Γ.substitute s₁) x → taken x := by
    simpa using htaken
  obtain ⟨fuel₂, s₂, t₂, st₂, ψ₂, hrun₂, h₂⟩ := harg (h₁.substitute hΓ) htaken₁ hbind.1
  obtain ⟨fuel₃, s₃, ψ, hrun₃, hreads, htype, hderives⟩ := exists_call origin hΓ h₁ h₂
  have hrun : Yields (infer (max fuel₁ (max fuel₂ fuel₃)) Γ (.app arg func origin)) st
      ((s₃.compose s₂).compose s₁, s₃.apply (.var st₂.next))
      (st₂.advanced.noted origin (s₃.apply (.var st₂.next))) := by
    refine yields_app.2 ⟨s₁, t₁, st₁, s₂, t₂, st₂, s₃, yields_mono hrun₁ (by omega),
      yields_mono hrun₂ (by omega), ?_, rfl, rfl, rfl⟩
    have hle : fuel₃ ≤ max fuel₁ (max fuel₂ fuel₃) := by omega
    exact Unification.unify_goesOn hle _ _ _ hrun₃
  exact ⟨_, _, _, _, ψ, hrun, covers_of_yields hΓ hrun hreads htype hderives⟩

/-- An abstraction is answered if its body is. -/
theorem answered_lam {x : CoreVar} {body : Term} {origin : Option NodeId} {i o : Ty}
    (hbody : Answered (Δ.insert x (Scheme.mono i)) body o) :
    Answered Δ (.lam x body origin) (.fn i o) := by
  intro Γ φ st taken hΓ htaken hbind
  simp only [Term.rebindsNone, Bool.and_eq_true, Bool.or_eq_true, Bool.not_eq_true'] at hbind
  have hx : Γ.get? x = none := get?_eq_none_of_not_taken htaken (by simpa using hbind.1)
  have hΓ' : Context.StandsFor (Γ.insert x (Scheme.mono (.var st.next)))
      (Function.update φ st.next i) (Δ.insert x (Scheme.mono i)) st.advanced.supply.issued :=
    hΓ.insert_next x i
  obtain ⟨fuel, s, t, st', ψ, hrun, h⟩ := hbody hΓ'
    (Term.taken_of_bound htaken contains_insert_cases) hbind.2
  have hrun' : Yields (infer fuel Γ (.lam x body origin)) st
      (s, .fn (s.apply (.var st.next)) t) (st'.noted origin (.fn (s.apply (.var st.next)) t)) :=
    yields_lam.2 ⟨_, _, t, st', yields_binderType_of_none hx, hrun, rfl, rfl⟩
  refine ⟨fuel, _, _, _, ψ, hrun', covers_of_yields hΓ hrun' ?_ ?_ (derives_lam h.derives)⟩
  · intro v hv
    have hne : v ≠ st.next := by
      intro heq
      rw [heq, next_index] at hv
      omega
    have hread := h.reads v (Nat.lt_succ_of_lt hv)
    rwa [Function.update_of_ne hne] at hread
  · have hread := h.reads st.next (Nat.lt_succ_self _)
    rw [Function.update_self] at hread
    rw [replace_fn, Subst.apply_var]
    exact agrees_fn_iff.2 ⟨hread, h.type⟩

/-- A let is answered if what it binds and its usage are. -/
theorem answered_letIn {binder usage : Term} {x : CoreVar} {b : Ty}
    (hbinder : Answered Δ binder b)
    (husage : Answered (Δ.insert x (Δ.generalize b)) usage τ) :
    Answered Δ (.letIn binder x usage) τ := by
  intro Γ φ st taken hΓ htaken hbind
  simp only [Term.rebindsNone, Bool.and_eq_true, Bool.not_eq_true'] at hbind
  have hx : Γ.get? x = none := get?_eq_none_of_not_taken htaken hbind.1.1
  have hclosed : Γ.bindsOpen x = false := by simp [Context.bindsOpen, hx]
  obtain ⟨fuel₁, s₁, t₁, st₁, ψ₁, hrun₁, h₁⟩ := hbinder hΓ htaken hbind.1.2
  have htaken₁ : ∀ y, OrderedMap.contains (usageContext Γ s₁ x t₁) y →
      (y = x || taken y) = true := by
    rw [usageContext_eq (h₁.apart hΓ.hygienic) hclosed]
    have htaken₀ : ∀ y, OrderedMap.contains (Γ.substitute s₁) y → taken y := by
      simpa using htaken
    exact Term.taken_of_bound htaken₀ contains_insert_cases
  obtain ⟨fuel₂, s₂, t₂, st₂, ψ₂, hrun₂, h₂⟩ := husage (h₁.usage hΓ hclosed) htaken₁ hbind.2
  have hrun : Yields (infer (max fuel₁ fuel₂) Γ (.letIn binder x usage)) st
      (s₂.compose s₁, t₂) st₂ := by
    refine yields_letIn.2 ⟨s₁, t₁, st₁, s₁, t₁, st₁, s₂, yields_mono hrun₁ (by omega), ?_,
      yields_mono hrun₂ (by omega), rfl⟩
    exact yields_meetAssumed_of_none hx
  refine ⟨_, _, _, _, ψ₂, hrun, covers_of_yields hΓ hrun ?_ h₂.type ?_⟩
  · exact h₁.reads.compose h₂.reads (h₁.read_lt hΓ.hygienic)
  · exact derives_letIn hΓ.hygienic hclosed h₁.mentions h₂.mentions h₁.derives h₂.derives

theorem answered_literal {c : Ty} (hrun : ∀ Γ st, Yields (infer 0 Γ e) st (Subst.empty, c) st)
    (hc : c.vars = []) (hderives : ∀ Γ, Derives Γ e c) : Answered Δ e c := by
  intro Γ φ st taken hΓ _ _
  refine ⟨0, _, _, _, φ, hrun Γ st, covers_of_yields hΓ (hrun Γ st) ?_ ?_ (hderives _)⟩
  · exact ReadsAs.empty fun _ _ => rfl
  · rw [replace_eq_self (by simp [hc])]

/-- The items of a tuple are answered one after the other. -/
theorem exists_items {items done : List Term} {τs τs₀ ts₀ : List Ty} {taken : CoreVar → Bool}
    {s₀ : Subst} {ψ₀ : TyVar → Ty} (hlen : items.length = τs.length)
    (hitems : ∀ p ∈ items.zip τs, Answered Δ p.1 p.2) (hΓ : Γ.StandsFor φ Δ n)
    (htaken : ∀ x, Γ.contains x → taken x) (hbind : ∀ e ∈ items, e.rebindsNone .binders taken)
    (h₀ : Covers Γ φ (.tuple done) (.tuple τs₀) n st.supply.issued s₀ (.tuple ts₀) ψ₀) :
    ∃ fuel s ts st' ψ, Yields (inferItems fuel Γ s₀ ts₀ items) st (s, ts) st' ∧
      Covers Γ φ (.tuple (done ++ items)) (.tuple (τs₀ ++ τs)) n st'.supply.issued s
        (.tuple ts) ψ := by
  induction items generalizing done τs τs₀ ts₀ s₀ ψ₀ st with
  | nil =>
    obtain rfl : τs = [] := List.eq_nil_of_length_eq_zero hlen.symm
    refine ⟨0, s₀, ts₀, st, ψ₀, yields_items_nil.2 ⟨rfl, rfl, rfl⟩, ?_⟩
    rwa [List.append_nil, List.append_nil]
  | cons item rest ih =>
    obtain ⟨τ, τs, rfl⟩ := List.exists_cons_of_length_eq_add_one hlen.symm
    have hitem : Answered Δ item τ := hitems (item, τ) (by simp)
    have htaken₀ : ∀ x, OrderedMap.contains (Γ.substitute s₀) x → taken x := by
      simpa using htaken
    obtain ⟨fuel₁, s₁, t₁, st₁, ψ₁, hrun₁, h₁⟩ :=
      hitem (h₀.substitute hΓ) htaken₀ (hbind item (List.mem_cons_self ..))
    obtain ⟨fuel₂, s, ts, st', ψ, hrun₂, h₂⟩ := ih (by simpa using hlen)
      (fun p hp => hitems p (List.mem_cons_of_mem _ hp))
      (fun e he => hbind e (List.mem_cons_of_mem _ he)) (h₀.append h₁ hΓ)
    rw [List.append_assoc, List.append_assoc] at h₂
    refine ⟨max fuel₁ fuel₂, s, ts, st', ψ, ?_, h₂⟩
    refine yields_items_cons.2 ⟨s₁, t₁, st₁, yields_mono hrun₁ (by omega), ?_⟩
    have hle : fuel₂ ≤ max fuel₁ fuel₂ := by omega
    exact inferItems_goesOn (fun e _ Γ => infer_goesOn hle e Γ) _ _ _ _ _ hrun₂

theorem answered_tuple {items : List Term} {τs : List Ty} (hlen : items.length = τs.length)
    (hitems : ∀ p ∈ items.zip τs, Answered Δ p.1 p.2) :
    Answered Δ (.tuple items) (.tuple τs) := by
  intro Γ φ st taken hΓ htaken hbind
  rw [Term.rebindsNone, Term.rebindNone_iff] at hbind
  obtain ⟨fuel, s, ts, st', ψ, hrun, h⟩ := exists_items hlen hitems hΓ htaken hbind
    (covers_no_items Γ φ _)
  exact ⟨fuel, s, _, st', ψ, yields_tuple.2 ⟨ts, hrun, rfl⟩, h⟩

/-- Whatever has a type is answered. -/
theorem answered_of_derives (h : Derives Δ e τ) : Answered Δ e τ := by
  induction h with
  | var hx ht => exact answered_var hx ht
  | app _ _ ihf iha => exact answered_app ihf iha
  | lam _ ih => exact answered_lam ih
  | letIn _ _ ihb ihu => exact answered_letIn ihb ihu
  | number text =>
    exact answered_literal (fun _ _ => yields_number.2 ⟨rfl, rfl, rfl⟩) rfl fun _ => .number text
  | floating text =>
    exact answered_literal (fun _ _ => yields_floating.2 ⟨rfl, rfl, rfl⟩) rfl
      fun _ => .floating text
  | tuple hlen _ ih => exact answered_tuple hlen ih
  | conv _ htu ih =>
    intro Γ φ st taken hΓ htaken hbind
    obtain ⟨fuel, s, t, st', ψ, hrun, h⟩ := ih hΓ htaken hbind
    exact ⟨fuel, s, t, st', ψ, hrun, { h with type := h.type.trans htu }⟩

end Answers

section Principal

variable {Γ : Context} {e : Term} {st : State}

/-- In a context with nothing free, a typing is an instance of the type inferred. -/
theorem exists_answer {τ : Ty} (hclosed : ∀ v, ¬ Γ.Free v) (hΓ : Γ.Hygienic st.supply.issued)
    (hunions : Γ.Sealed .unions) (hbind : e.rebindsNone .binders Γ.contains)
    (h : Derives Γ e τ) :
    ∃ s t st', Returns Γ e st (.ok (s, t), st') ∧ Derives Γ e t ∧
      ∃ θ : Subst, Agrees τ (θ.apply t) := by
  have hself : Γ.StandsFor Ty.var Γ st.supply.issued :=
    ⟨Context.MoreGeneral.refl Γ Ty.var, hΓ, hunions⟩
  obtain ⟨fuel, s, t, st', ψ, hrun, hc⟩ := answered_of_derives h hself (fun _ hx => hx) hbind
  have hderives := hc.derives
  rw [Context.substitute_of_closed hclosed] at hderives
  refine ⟨s, t, st', returns_of_run hrun, hderives, Subst.tabulate t.vars ψ, ?_⟩
  have hread : (Subst.tabulate t.vars ψ).apply t = t.replace ψ := by
    rw [Subst.apply_eq_replace]
    exact replace_congr fun v hv => Subst.read_tabulate hv
  rw [hread]
  exact hc.type.symm

/-- Principal types: a term that has a type is given one by inference, of which all its types
are instances. So inference fails only where there is no type. -/
theorem principal_types (hclosed : ∀ v, ¬ Γ.Free v) (hunions : Γ.Sealed .unions)
    (hbound : ∀ x σ, Γ.get? x = some σ → ∀ v, σ.bound.contains v → v.index < st.supply.issued)
    (hbind : e.rebindsNone .binders Γ.contains) :
    ((∃ τ, Derives Γ e τ) → ∃ s t st', Returns Γ e st (.ok (s, t), st') ∧ Derives Γ e t ∧
      ∀ τ, Derives Γ e τ → ∃ θ : Subst, Agrees τ (θ.apply t)) ∧
    ∀ fuel err st', (infer fuel Γ e).run.run st = some (.error err, st') →
      ∀ τ, ¬ Derives Γ e τ := by
  have hΓ := Context.hygienic_of_closed hclosed hbound
  constructor
  · intro htyped
    obtain ⟨τ₀, h₀⟩ := htyped
    obtain ⟨s, t, st', hreturns, hderives, _⟩ := exists_answer hclosed hΓ hunions hbind h₀
    refine ⟨s, t, st', hreturns, hderives, fun τ h => ?_⟩
    obtain ⟨s', t', st'', hreturns', _, θ, hθ⟩ := exists_answer hclosed hΓ hunions hbind h
    obtain ⟨⟨rfl, rfl⟩, rfl⟩ : (s = s' ∧ t = t') ∧ st' = st'' := by
      simpa using hreturns.unique hreturns'
    exact ⟨θ, hθ⟩
  · intro fuel err st' hrun τ h
    obtain ⟨s, t, st'', hreturns, _⟩ := exists_answer hclosed hΓ hunions hbind h
    have heq := hreturns.unique (returns_of_run hrun)
    simp at heq

def identityContext : Context :=
  OrderedMap.ofList [(.decl ⟨0⟩, Scheme.closed (.fn (.var ⟨1⟩) (.var ⟨1⟩)))]

/-- The function under another name, once applied and once as it is. -/
def usedTwice : Term :=
  .letIn (.var (.decl ⟨0⟩)) (.synthetic 0)
    (.tuple [.app (.number "1") (.var (.synthetic 0)) none, .var (.synthetic 0)])

theorem usedTwice_derives :
    Derives identityContext usedTwice (.tuple [number, .fn bool bool]) := by
  have hinst : ∀ t, (Scheme.closed (.fn (.var ⟨1⟩) (.var ⟨1⟩))).Instance (.fn t t) := by
    intro t
    refine ⟨Subst.single ⟨1⟩ t, fun v hv => ?_, ?_⟩
    · have hv' : v = ⟨1⟩ := by simpa [Subst.single, eq_comm] using hv
      rw [hv']
      rfl
    · change Agrees (Subst.apply _ (.fn (.var ⟨1⟩) (.var ⟨1⟩))) _
      rw [Subst.apply_fn, Subst.single_apply_var]
  have hname : ∀ t, Derives (identityContext.insert (.synthetic 0)
      (identityContext.generalize (.fn (.var ⟨1⟩) (.var ⟨1⟩)))) (.var (.synthetic 0)) (.fn t t) :=
    fun t => .var rfl (hinst t)
  refine .letIn (.var rfl (hinst (.var ⟨1⟩))) (.tuple rfl fun p hp => ?_)
  simp only [List.zip_cons_cons, List.zip_nil_right, List.mem_cons, List.not_mem_nil,
    or_false] at hp
  rcases hp with rfl | rfl
  · exact .app (hname number) (.number "1")
  · exact hname bool

theorem principal_types_identity :
    ∃ s t st', Returns identityContext usedTwice (State.start ⟨2⟩) (.ok (s, t), st') ∧
      Derives identityContext usedTwice t ∧
      ∃ θ : Subst, Agrees (.tuple [number, .fn bool bool]) (θ.apply t) := by
  have hclosed : ∀ v, ¬ identityContext.Free v := by
    intro v hv
    have hfree := Context.contains_freeVars.2 hv
    have hnone : identityContext.freeVars = OrderedMap.empty := rfl
    simp [hnone] at hfree
  have hbound : ∀ x σ, identityContext.get? x = some σ → ∀ v, σ.bound.contains v →
      v.index < (State.start ⟨2⟩).supply.issued := by
    intro x σ hx v hv
    have hΓ : identityContext.Hygienic 2 := by decide
    exact hΓ.issued x σ hx v (Or.inr hv)
  obtain ⟨s, t, st', hreturns, hderives, hprincipal⟩ :=
    (principal_types hclosed (by decide) hbound (by decide)).1 ⟨_, usedTwice_derives⟩
  exact ⟨s, t, st', hreturns, hderives, hprincipal _ usedTwice_derives⟩

end Principal

end Inference

end SemanticAnalysis
