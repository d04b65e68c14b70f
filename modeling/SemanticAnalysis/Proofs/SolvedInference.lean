import SemanticAnalysis.Declarations.Inference
import SemanticAnalysis.Proofs.InferenceSoundness

/-!
Inference returns solved forms where tuples and unions hold no variables. The
substitution found is idempotent and binds no variable of the type found, since
whatever is found later comes from a context in which the variables bound so far
no longer occur. So it does not matter that callers apply it more than once.
-/

namespace SemanticAnalysis

open Ty Declarations

def Ty.UnboundIn (t : Ty) (s : Subst) : Prop := ∀ v ∈ t.vars, s.contains v = false

namespace Subst

variable {s r : Subst} {t : Ty} {v : TyVar}

theorem contains_compose :
    (s.compose r).contains v = true ↔ s.contains v = true ∨ r.contains v = true := by
  simp only [OrderedMap.contains, get?_compose, Option.isSome_or, Option.isSome_map,
    Bool.or_eq_true]
  exact or_comm

theorem apply_of_unboundIn (h : t.UnboundIn s) : s.apply t = t := by
  rw [apply_eq_replace]
  exact replace_eq_self fun v hv => read_of_not_contains (h v hv)

theorem Idempotent.unboundIn_apply (hs : s.Idempotent) (t : Ty) : (s.apply t).UnboundIn s := by
  intro v hv
  by_contra hbound
  exact hs.not_mem_apply (by simpa using hbound) t hv

/-- An idempotent substitution composed with itself binds what it binds. -/
theorem Idempotent.compose_self (hs : s.Idempotent) : s.compose s = s := by
  apply OrderedMap.ext_get?
  intro v
  rw [get?_compose]
  cases hv : OrderedMap.get? s v with
  | none => rfl
  | some t =>
    have hclear : t.UnboundIn s := by
      intro w hw
      by_contra hbound
      exact hs w v t (by simpa using hbound) hv hw
    rw [Option.map_some, apply_of_unboundIn hclear, Option.some_or]

theorem Idempotent.unbound_of_read (hs : s.Idempotent) {w : TyVar} (hv : v ∈ (s.read w).vars) :
    s.contains v = false := by
  by_contra hbound
  exact hs.not_mem_read (by simpa using hbound) w hv

/-- Where a substitution was applied, putting another one after it adds only the other one. -/
theorem Idempotent.apply_again (hs : s.Idempotent) (q : Subst) (t : Ty) :
    (q.compose s).apply (s.apply t) = q.apply (s.apply t) := by
  rw [apply_compose, apply_of_unboundIn (hs.unboundIn_apply t)]

theorem Idempotent.substitute_again (hs : s.Idempotent) (q : Subst) (σ : Scheme) :
    (σ.substitute s).substitute (q.compose s) = (σ.substitute s).substitute q := by
  refine Scheme.substitute_congr fun v hv => ?_
  obtain ⟨w, -, hread⟩ := Scheme.exists_free_of_substitute hv
  rw [read_compose, read_of_not_contains (hs.unbound_of_read hread), apply_var]

/-- Types that were brought up to date with a solution take from the final pass only what was found
after it. -/
theorem Idempotent.settle_again (hs : s.Idempotent) (q : Subst) (found : DeclarationTypes) :
    settle (q.compose s) (settle s found) = settle q (settle s found) := by
  simp only [settle, OrderedMap.mapValues_mapValues, hs.apply_again,
    hs.substitute_again]

/-- What a type is replaced by is free of the variables bound before, if the type and the
substitution are. -/
theorem unboundIn_apply (ht : t.UnboundIn r) (hs : ∀ v, s.Touches v → r.contains v = false) :
    (s.apply t).UnboundIn r := by
  intro v hv
  rcases mem_or_touches_of_mem_apply hv with hv | htouch
  · exact ht v hv
  · exact hs v htouch

end Subst

theorem Ty.UnboundIn.compose {t : Ty} {s r : Subst} (hs : t.UnboundIn s) (hr : t.UnboundIn r) :
    t.UnboundIn (s.compose r) := by
  intro v hv
  by_contra hbound
  rcases Subst.contains_compose.1 (by simpa using hbound) with hbound | hbound
  · simp [hs v hv] at hbound
  · simp [hr v hv] at hbound

/-- A substitution that touches no variable bound before can be put after what bound them. -/
theorem Subst.Idempotent.solved_next {q r : Subst} (hq : q.Idempotent) (hr : r.Idempotent)
    (htouch : ∀ v, q.Touches v → r.contains v = false) :
    (q.compose r).Idempotent ∧ ∀ u : Ty, u.UnboundIn r → (q.apply u).UnboundIn (q.compose r) :=
  ⟨hq.compose hr htouch, fun u hu =>
    (hq.unboundIn_apply u).compose (Subst.unboundIn_apply hu htouch)⟩

/-- A unifier of types that are free of the variables bound before can be put after what bound
them. -/
theorem Unification.solved_next {fuel : Nat} {a b : Ty} {r q : Subst} (hr : r.Idempotent)
    (ha : a.Sealed .aggregates) (hb : b.Sealed .aggregates) (har : a.UnboundIn r)
    (hbr : b.UnboundIn r) (h : (unify fuel a b).run = some (.ok q)) :
    (q.compose r).Idempotent ∧ ∀ u : Ty, u.UnboundIn r → (q.apply u).UnboundIn (q.compose r) := by
  refine (unify_solves ha hb h).2.solved_next hr fun v hv => ?_
  rcases touches_of_unify h hv with hv | hv
  · exact har v hv
  · exact hbr v hv

namespace Context

variable {Γ Δ : Context} {n m k : Nat} {s r : Subst} {t : Ty} {v : TyVar}

/-- What an idempotent substitution binds is gone from a context it is put into. -/
theorem unbound_of_free_substitute (hs : s.Idempotent) (hv : (Γ.substitute s).Free v) :
    s.contains v = false := by
  obtain ⟨w, -, hread⟩ := exists_free_of_substitute hv
  exact hs.unbound_of_read hread

/-- A run in a context that is free of the variables bound before keeps clear of them. -/
theorem Mentions.unbound (h : Δ.Mentions m k s t) (hfree : ∀ v, Δ.Free v → r.contains v = false)
    (hissued : ∀ v, r.contains v = true → v.index < m) :
    (∀ v, s.Touches v → r.contains v = false) ∧ t.UnboundIn r := by
  have hreach : ∀ v, Δ.Reaches m k v → r.contains v = false := by
    intro v hv
    rcases hv with hv | ⟨hle, -⟩
    · exact hfree v hv
    · by_contra hbound
      have hlt := hissued v (by simpa using hbound)
      omega
  exact ⟨fun v hv => hreach v (h.subst v hv), fun v hv => hreach v (h.type v hv)⟩

theorem Mentions.issued (h : Γ.Mentions n m s t) (hΓ : Γ.FreeBelow n) (hv : s.contains v = true) :
    v.index < m :=
  (h.subst v (Or.inl hv)).lt hΓ h.le

/-- A run binds no variable that is issued after it. -/
theorem Mentions.unissued (h : Γ.Mentions n m s t) (hΓ : Γ.FreeBelow n) (hv : m ≤ v.index) :
    (Ty.var v).UnboundIn s := by
  intro w hw
  obtain rfl := mem_vars_var.1 hw
  by_contra hbound
  have hlt := h.issued hΓ (by simpa using hbound)
  omega

theorem FreeBelow.substitute (hΓ : Γ.FreeBelow n) (h : Γ.Mentions n m s t) :
    (Γ.substitute s).FreeBelow m :=
  fun _ hv => (reaches_of_free_substitute h.subst hv).lt hΓ h.le

theorem FreeBelow.insert_mono (hΓ : Γ.FreeBelow n) {x : CoreVar} {i : Ty}
    (hi : ∀ v ∈ i.vars, Γ.Reaches n m v) (hnm : n ≤ m) :
    FreeBelow (Γ.insert x (Scheme.mono i)) m :=
  fun _ hv => (reaches_of_free_insert_mono hi hv).lt hΓ hnm

end Context

namespace Inference

variable {fuel n m : Nat} {Γ : Context} {e : Term} {st st' : State} {s s₀ : Subst} {t t₀ : Ty}

theorem freeBelow_usageContext {x : CoreVar} (hΓ : Γ.FreeBelow n) (h : Γ.Mentions n m s t) :
    (usageContext Γ s x t).FreeBelow m :=
  fun _ hv => (reaches_of_free_usageContext h hv).lt hΓ h.le

/-- Meeting what is assumed keeps the substitution idempotent and its variables out of the type. -/
theorem meetAssumed_solved {x : CoreVar} (hsealed : Γ.Sealed .aggregates) (hΓ : Γ.FreeBelow n)
    (h₀ : Γ.Mentions n st.supply.issued s₀ t₀) (hs₀ : s₀.Sealed .aggregates)
    (ht₀ : t₀.Sealed .aggregates) (hidem : s₀.Idempotent) (hunbound : t₀.UnboundIn s₀)
    (h : Yields (meetAssumed fuel Γ x s₀ t₀) st (s, t) st') : s.Idempotent ∧ t.UnboundIn s := by
  rcases yields_meetAssumed h with ⟨rfl, rfl, -⟩ | ⟨σ, expected, r, hσ, hexpected, hr, rfl, rfl⟩
  · exact ⟨hidem, hunbound⟩
  · have hget : (Γ.substitute s₀).get? x = some (σ.substitute s₀) := by
      simp [Context.get?_substitute, hσ]
    have hclear : expected.UnboundIn s₀ := by
      intro v hv
      obtain ⟨rfl, -⟩ := yields_instantiate.1 hexpected
      rcases Scheme.mem_vars_instantiate hv with hfree | ⟨hle, -⟩
      · exact Context.unbound_of_free_substitute hidem ⟨x, _, hget, hfree⟩
      · by_contra hbound
        have hlt := h₀.issued hΓ (by simpa using hbound)
        omega
    have hbody : expected.Sealed .aggregates :=
      instantiate_sealed (hsealed.substitute hs₀ x _ hget) hexpected
    obtain ⟨hidem', hnext⟩ := Unification.solved_next hidem hbody ht₀ hclear hunbound hr
    exact ⟨hidem', hnext t₀ hunbound⟩

/-- Inference returns a solved form: an idempotent substitution that binds no variable of the
type. -/
theorem infer_solved (htuples : e.tuplesEmpty) (hsealed : Γ.Sealed .aggregates)
    (hΓ : Γ.FreeBelow st.supply.issued) (h : Yields (infer fuel Γ e) st (s, t) st') :
    s.Idempotent ∧ t.UnboundIn s := by
  induction e generalizing Γ st st' s t with
  | var x =>
    obtain ⟨σ, -, rfl, -⟩ := yields_var.1 h
    exact ⟨Subst.idempotent_empty, fun _ _ => rfl⟩
  | app arg func origin iharg ihfunc =>
    obtain ⟨s₁, t₁, st₁, s₂, t₂, st₂, s₃, h₁, h₂, h₃, rfl, rfl, rfl⟩ := yields_app.1 h
    simp only [Term.tuplesEmpty, Bool.and_eq_true] at htuples
    have m₁ := mentions_of_infer h₁
    have hΓ₁ := hΓ.substitute m₁
    have m₂ := mentions_of_infer h₂
    obtain ⟨hs₁, ht₁⟩ := infer_sealed hsealed (fun _ => htuples.2) h₁
    have hsealed₁ := hsealed.substitute hs₁
    obtain ⟨hs₂, ht₂⟩ := infer_sealed hsealed₁ (fun _ => htuples.1) h₂
    obtain ⟨hidem₁, hclear₁⟩ := ihfunc htuples.2 hsealed hΓ h₁
    obtain ⟨hidem₂, hclear₂⟩ := iharg htuples.1 hsealed₁ hΓ₁ h₂
    -- the argument is inferred where the variables bound by the function no longer occur
    obtain ⟨htouch, hclear⟩ := m₂.unbound (r := s₁)
      (fun v => Context.unbound_of_free_substitute hidem₁)
      fun v => m₁.issued hΓ
    obtain ⟨hidem, hfunc⟩ := hidem₂.solved_next hidem₁ htouch
    have hnext : (Ty.var st₂.next).UnboundIn (s₂.compose s₁) :=
      (m₂.unissued hΓ₁ (Nat.le_refl _)).compose (m₁.unissued hΓ m₂.le)
    have hcall : (Ty.fn t₂ (.var st₂.next)).UnboundIn (s₂.compose s₁) := by
      intro v hv
      rcases mem_vars_fn.1 hv with hv | hv
      · exact hclear₂.compose hclear v hv
      · exact hnext v hv
    have hright : (Ty.fn t₂ (.var st₂.next)).Sealed .aggregates :=
      sealed_fn_iff.2 ⟨ht₂, sealed_var _⟩
    obtain ⟨hall, hresult⟩ :=
      Unification.solved_next hidem (hs₂.apply ht₁) hright (hfunc t₁ hclear₁) hcall h₃
    rw [Subst.compose_assoc]
    exact ⟨hall, hresult _ hnext⟩
  | lam x body origin ih =>
    obtain ⟨i, st₁, o, st₂, hi, hbody, rfl, rfl⟩ := yields_lam.1 h
    obtain ⟨hle, hreach⟩ := binderType_reaches hi
    have hsealed' := hsealed.insert x (σ := Scheme.mono i) (binderType_sealed hsealed hi)
    obtain ⟨hidem, hclear⟩ := ih htuples hsealed' (hΓ.insert_mono hreach hle) hbody
    refine ⟨hidem, fun v hv => ?_⟩
    rcases mem_vars_fn.1 hv with hv | hv
    · exact hidem.unboundIn_apply i v hv
    · exact hclear v hv
  | letIn binder x usage ihbinder ihusage =>
    obtain ⟨s₀, t₀, st₀, s₁, t₁, st₁, s₂, h₀, h₁, h₂, rfl⟩ := yields_letIn.1 h
    simp only [Term.tuplesEmpty, Bool.and_eq_true] at htuples
    have m₀ := mentions_of_infer h₀
    have m₁ := mentions_of_meetAssumed m₀ h₁
    have hΓ₁ := freeBelow_usageContext (x := x) hΓ m₁
    obtain ⟨hs₀, ht₀⟩ := infer_sealed hsealed (fun _ => htuples.1) h₀
    obtain ⟨hs₁, ht₁⟩ := meetAssumed_sealed hsealed hs₀ ht₀ h₁
    obtain ⟨hidem₀, hclear₀⟩ := ihbinder htuples.1 hsealed hΓ h₀
    obtain ⟨hidem₁, -⟩ := meetAssumed_solved hsealed hΓ m₀ hs₀ ht₀ hidem₀ hclear₀ h₁
    obtain ⟨hidem₂, hclear₂⟩ :=
      ihusage htuples.2 (sealed_usageContext hsealed hs₁ ht₁) hΓ₁ h₂
    have hfree : ∀ v, (usageContext Γ s₁ x t₁).Free v → s₁.contains v = false :=
      fun v hv => Context.unbound_of_free_substitute hidem₁ (free_of_usageContext hv)
    obtain ⟨htouch, hclear⟩ := (mentions_of_infer h₂).unbound hfree fun v => m₁.issued hΓ
    exact ⟨hidem₂.compose hidem₁ htouch, hclear₂.compose hclear⟩
  | number text =>
    obtain ⟨rfl, -, -⟩ := yields_number.1 h
    exact ⟨Subst.idempotent_empty, fun _ _ => rfl⟩
  | floating text =>
    obtain ⟨rfl, -, -⟩ := yields_floating.1 h
    exact ⟨Subst.idempotent_empty, fun _ _ => rfl⟩
  | tuple items _ =>
    obtain ⟨ts, hitems, rfl⟩ := yields_tuple.1 h
    obtain rfl : items = [] := List.isEmpty_iff.1 htuples
    obtain ⟨rfl, -, -⟩ := yields_items_nil.1 hitems
    exact ⟨Subst.idempotent_empty, fun _ _ => rfl⟩

/-- A member of a group is typed as if what was found were applied to its type only once: the
solution so far and the substitution found leave the type alone. -/
theorem inferMember_eq {Δ : Context} {r : Subst} {member : LoweredFunction} (own : Ty)
    (h : Yields (infer fuel (Δ.substitute r) member.term) st (s, t) st')
    (hclear : t.UnboundIn (s.compose r)) :
    (inferMember fuel Δ r member own).run.run st = (do
      let s₁ ← solve fuel ((s.compose r).apply own) t
      let s₂ ← solve fuel ((s₁.compose (s.compose r)).apply member.signature) (s₁.apply t)
      return s₂.compose (s₁.compose (s.compose r)) : Infer Subst).run.run st' := by
  unfold inferMember
  rw [run_bind_of_yields h]
  simp only [Subst.apply_compose _ (s.compose r) t, Subst.apply_of_unboundIn hclear]

/-- Inference returns a solved pair: the substitution composed with itself is itself, it leaves the
type alone, and it binds nothing that is free in the context it was put into. So applying it again,
to a type or to the context, changes nothing. A caller that had rewritten the context by an earlier
solution may put the two together: what is applied to the type later on adds only what was found
later on, the final pass over types that are up to date with the two does no more either, and typing
a member of a group comes to what it would come to without the repetitions. -/
theorem inference_solved (htuples : e.tuplesEmpty) (hsealed : Γ.Sealed .aggregates)
    (hΓ : Γ.Issued st.supply.issued)
    (h : (infer fuel Γ e).run.run st = some (.ok (s, t), st')) :
    s.compose s = s ∧ s.apply t = t ∧
    (∀ v, s.contains v → (Γ.substitute s).freeVars.contains v = false) ∧
    (∀ u, s.apply (s.apply u) = s.apply u) ∧
    (Γ.substitute s).substitute s = Γ.substitute s ∧
    ∀ (Δ : Context) (r : Subst), Γ = Δ.substitute r → r.Idempotent →
      (∀ v, r.contains v → v.index < st.supply.issued) →
      (s.compose r).Idempotent ∧
      (∀ q : Subst, (q.compose (s.compose r)).apply t = q.apply t) ∧
      (∀ (q : Subst) (found : DeclarationTypes),
        settle (q.compose (s.compose r)) (settle (s.compose r) found) =
          settle q (settle (s.compose r) found)) ∧
      ∀ (member : LoweredFunction) (own : Ty), member.term = e →
        (inferMember fuel Δ r member own).run.run st = (do
          let s₁ ← solve fuel ((s.compose r).apply own) t
          let s₂ ← solve fuel ((s₁.compose (s.compose r)).apply member.signature) (s₁.apply t)
          return s₂.compose (s₁.compose (s.compose r)) : Infer Subst).run.run st' := by
  obtain ⟨hidem, hclear⟩ := infer_solved htuples hsealed hΓ.freeBelow h
  have hgone : ∀ v, (Γ.substitute s).Free v → s.contains v = false :=
    fun v => Context.unbound_of_free_substitute hidem
  refine ⟨hidem.compose_self, Subst.apply_of_unboundIn hclear, ?_, ?_, ?_, ?_⟩
  · intro v hv
    by_contra hfree
    have hnot := hgone v (Context.contains_freeVars.1 (by simpa using hfree))
    simp [hnot] at hv
  · intro u
    exact Subst.apply_of_unboundIn (hidem.unboundIn_apply u)
  · exact Context.substitute_of_unbound hgone
  · intro Δ r hΔ hridem hissued
    subst hΔ
    -- what the earlier solution binds is gone from the context, so the run keeps clear of it
    obtain ⟨htouch, hclear'⟩ := (mentions_of_infer h).unbound (r := r)
      (fun v => Context.unbound_of_free_substitute hridem) hissued
    have hboth : t.UnboundIn (s.compose r) := hclear.compose hclear'
    have hidem' : (s.compose r).Idempotent := hidem.compose hridem htouch
    refine ⟨hidem', fun q => ?_, hidem'.settle_again, ?_⟩
    · rw [Subst.apply_compose, Subst.apply_of_unboundIn hboth]
    · intro member own hmember
      subst hmember
      exact inferMember_eq own h hboth

/-- The first name quantifies a variable that the third one has free. -/
def sharedVariable : Context :=
  OrderedMap.ofList [(.synthetic 0, ⟨OrderedSet.ofList [⟨0⟩], .fn (.var ⟨0⟩) (.var ⟨1⟩)⟩),
    (.synthetic 1, Scheme.mono (.fn (.var ⟨1⟩) Ty.number)),
    (.synthetic 2, Scheme.mono (.var ⟨0⟩))]

/-- The second name is called with the third, which makes the two variables of the first one
equal. -/
def capturingCall : Term :=
  .app (.var (.synthetic 2)) (.var (.synthetic 1)) none

/-- The quantified variable captures the one that is bound to it, and the pair is solved all the
same. -/
theorem inference_solved_capturing :
    ∃ s st', (infer 3 sharedVariable capturingCall).run.run (State.start ⟨2⟩) =
        some (.ok (s, Ty.number), st') ∧ s.contains ⟨1⟩ ∧ s.compose s = s ∧
      (sharedVariable.substitute s).freeVars.contains ⟨1⟩ = false ∧
      (sharedVariable.substitute s).substitute s = sharedVariable.substitute s := by
  have hΓ : sharedVariable.Issued (State.start ⟨2⟩).supply.issued := by decide
  obtain ⟨s, st', hrun, hbound⟩ : ∃ s st', (infer 3 sharedVariable capturingCall).run.run
      (State.start ⟨2⟩) = some (.ok (s, Ty.number), st') ∧ s.contains ⟨1⟩ := by
    refine ⟨_, _, rfl, ?_⟩
    rfl
  obtain ⟨hself, -, hgone, -, hagain, -⟩ := inference_solved (by decide) (by decide) hΓ hrun
  exact ⟨s, st', hrun, hbound, hself, hgone _ hbound, hagain⟩

end Inference

end SemanticAnalysis
