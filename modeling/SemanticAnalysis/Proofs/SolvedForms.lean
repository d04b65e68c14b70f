import SemanticAnalysis.Proofs.UnificationRuns

/-!
Unification where variables stand below functions only. There the search for an
occurrence misses none, so a bound variable is gone from everything found later:
the substitution is idempotent and makes the two types agree, and every solved
part that binds something leaves fewer variables to the parts after it, which is
why the search always ends.
-/

namespace SemanticAnalysis

namespace Subst

def Idempotent (s : Subst) : Prop :=
  ∀ v w t, s.contains v → OrderedMap.get? s w = some t → v ∉ t.vars

theorem idempotent_empty : empty.Idempotent := by
  intro v w t hv _
  simp [empty] at hv

theorem idempotent_single {v : TyVar} {t : Ty} (h : v ∉ t.vars) : (single v t).Idempotent := by
  intro u w r hu hr
  have hvu : v = u := by simpa [single] using hu
  have hrt : t = r := by
    simp only [single, OrderedMap.get?_insert, OrderedMap.get?_empty] at hr
    split at hr
    · exact Option.some.inj hr
    · simp at hr
  rwa [← hvu, ← hrt]

/-- What an idempotent substitution binds is in nothing that it puts in. -/
theorem Idempotent.not_mem_read {s : Subst} (h : s.Idempotent) {v : TyVar} (hv : s.contains v)
    (w : TyVar) : v ∉ (s.read w).vars := by
  cases hw : OrderedMap.get? s w with
  | none =>
    have hnot := OrderedMap.get?_eq_none_iff.1 hw
    rw [read_of_not_contains hnot, Ty.mem_vars_var]
    intro heq
    rw [heq, hnot] at hv
    simp at hv
  | some t =>
    rw [read_of_get? hw]
    exact h v w t hv hw

/-- What an idempotent substitution binds is gone from every type it is applied to. -/
theorem Idempotent.not_mem_apply {s : Subst} (h : s.Idempotent) {v : TyVar} (hv : s.contains v)
    (t : Ty) : v ∉ (s.apply t).vars := by
  intro hmem
  obtain ⟨w, -, hw⟩ := mem_vars_apply.1 hmem
  exact h.not_mem_read hv w hw

/-- Idempotent substitutions compose if the later one touches nothing that the earlier one binds. -/
theorem Idempotent.compose {s r : Subst} (hs : s.Idempotent) (hr : r.Idempotent)
    (happart : ∀ v, s.Touches v → r.contains v = false) : (s.compose r).Idempotent := by
  intro v w t hv ht hmem
  have hread : v ∈ (s.apply (r.read w)).vars := by
    rw [← read_compose, read_of_get? ht]
    exact hmem
  obtain ⟨u, hu, hvu⟩ := mem_vars_apply.1 hread
  have hbound : r.contains v ∨ s.contains v := by
    simpa [OrderedMap.contains, get?_compose] using hv
  rcases hbound with hv | hv
  · rcases touches_of_read hvu with rfl | htouch
    · exact hr.not_mem_read hv w hu
    · simp [happart v htouch] at hv
  · exact hs.not_mem_read hv u hvu

theorem eq_empty_or_contains (s : Subst) : s = empty ∨ ∃ v, s.contains v := by
  by_cases h : ∃ v, s.contains v
  · exact Or.inr h
  · left
    apply OrderedMap.ext_get?
    intro v
    have hv : s.contains v = false := by simpa using fun hv => h ⟨v, hv⟩
    rw [OrderedMap.get?_eq_none_iff.2 hv]
    rfl

end Subst

namespace Unification

open Ty

section Soundness

/-- The step of solving pairs: the next solution touches nothing that was bound before. -/
theorem idempotent_next {n : Nat} {x y : Ty} {found next : Subst} (hfound : found.Idempotent)
    (hnext : next.Idempotent)
    (hrun : (unify n (found.apply x) (found.apply y)).run = some (.ok next)) :
    (next.compose found).Idempotent := by
  refine hnext.compose hfound fun v hv => ?_
  by_contra hbound
  have hbound' : found.contains v := by simpa using hbound
  rcases touches_of_unify hrun hv with hx | hy
  · exact hfound.not_mem_apply hbound' x hx
  · exact hfound.not_mem_apply hbound' y hy

theorem single_solves {v : TyVar} {t : Ty} (ht : t.Sealed .aggregates)
    (hoccurs : t.occurs v = false) :
    (Subst.single v t).Idempotent ∧
      (Subst.single v t).apply t = (Subst.single v t).apply (.var v) := by
  have hv : v ∉ t.vars := by
    rw [← occurs_iff_of_sealed ht, hoccurs]
    simp
  refine ⟨Subst.idempotent_single hv, ?_⟩
  rw [Subst.single_apply_var, Subst.single_apply_of_not_mem hv]

/-- On sealed types a unifier makes the types agree and is idempotent. -/
theorem unify_solves {n : Nat} {a b : Ty} {s : Subst} (ha : a.Sealed .aggregates)
    (hb : b.Sealed .aggregates) (h : (unify n a b).run = some (.ok s)) :
    Agrees (s.apply a) (s.apply b) ∧ s.Idempotent := by
  induction n generalizing a b s with
  | zero => exact absurd h (by simp [unify, ExceptT.run, ExceptT.mk])
  | succ n ih =>
    rcases unify_ok_cases h with ⟨hag, rfl⟩ | ⟨v, rfl, -, hoccurs, rfl⟩ |
      ⟨v, rfl, -, hoccurs, rfl⟩ | ⟨pairs, hp, -, hrun⟩
    · exact ⟨Subst.agrees_apply _ hag, Subst.idempotent_empty⟩
    · obtain ⟨hid, hself⟩ := single_solves hb hoccurs
      rw [hself]
      exact ⟨Agrees.refl _, hid⟩
    · obtain ⟨hid, hself⟩ := single_solves ha hoccurs
      rw [hself]
      exact ⟨Agrees.refl _, hid⟩
    · -- along the pairs: idempotent, of the class, and a solution of the pairs so far
      have hall := solvePairs_induct
        (I := fun solved found => found.Idempotent ∧ found.Sealed .aggregates ∧
          ∀ p ∈ solved, Agrees (found.apply p.1) (found.apply p.2))
        ?_ ⟨Subst.idempotent_empty, Subst.sealed_empty, by simp⟩ hrun
      · obtain ⟨hid, -, hsolved⟩ := hall
        exact ⟨(hp.agrees_apply_iff s).2 hsolved, hid⟩
      · intro solved x y found next hmem hfound hnext
        obtain ⟨hid, hsealed, hsolved⟩ := hfound
        obtain ⟨hx, hy⟩ := hp.sealed ha hb hmem
        obtain ⟨hag, hid'⟩ := ih (hsealed.apply hx) (hsealed.apply hy) hnext
        have hsealed' := sealed_of_unify (hsealed.apply hx) (hsealed.apply hy) hnext
        refine ⟨idempotent_next hid hid' hnext, hsealed'.compose hsealed, ?_⟩
        intro p hp
        rw [Subst.apply_compose, Subst.apply_compose]
        rcases List.mem_append.1 hp with hp | hp
        · exact Subst.agrees_apply next (hsolved p hp)
        · rw [List.mem_singleton.1 hp]
          exact hag

end Soundness

section Termination

/-- Unification comes to an answer on types of the class with variables from the list, the
first of them below the height. -/
def EndsWithin (vs : List TyVar) (h : Nat) : Prop :=
  ∀ a b : Ty, a.Sealed .aggregates → b.Sealed .aggregates →
    (∀ v, v ∈ a.vars ∨ v ∈ b.vars → v ∈ vs) → a.height < h → ∃ r, Returns a b r

/-- Solving pairs ends if solving one pair does: as long as nothing is bound the pairs are
as they were, and afterwards they have fewer variables. -/
theorem solvePairs_ends {vs : List TyVar} {h : Nat} (hlow : EndsWithin vs h)
    (hfewer : ∀ v ∈ vs, ∀ h', EndsWithin (vs.erase v) h') {pairs : List (Ty × Ty)}
    (hpairs : ∀ p ∈ pairs, p.1.Sealed .aggregates ∧ p.2.Sealed .aggregates ∧
      (∀ v, v ∈ p.1.vars ∨ v ∈ p.2.vars → v ∈ vs) ∧ p.1.height < h)
    {found : Subst} (hid : found.Idempotent) (hsealed : found.Sealed .aggregates)
    (htouch : ∀ v, found.Touches v → v ∈ vs) :
    ∃ r n, ∀ fuel, n ≤ fuel → (solvePairs (unify fuel) found pairs).run = some r := by
  induction pairs generalizing found with
  | nil => exact ⟨.ok found, 0, fun _ _ => rfl⟩
  | cons p rest ih =>
    obtain ⟨x, y⟩ := p
    obtain ⟨hx, hy, hvars, hheight⟩ := hpairs (x, y) (List.mem_cons_self ..)
    have hfound : ∀ v, v ∈ (found.apply x).vars ∨ v ∈ (found.apply y).vars → v ∈ vs := by
      intro v hv
      rcases hv with hv | hv
      · rcases Subst.mem_or_touches_of_mem_apply hv with hv | hv
        · exact hvars v (Or.inl hv)
        · exact htouch v hv
      · rcases Subst.mem_or_touches_of_mem_apply hv with hv | hv
        · exact hvars v (Or.inr hv)
        · exact htouch v hv
    have hfirst : ∃ r, Returns (found.apply x) (found.apply y) r := by
      rcases Subst.eq_empty_or_contains found with rfl | ⟨v, hv⟩
      · rw [Subst.apply_empty, Subst.apply_empty]
        exact hlow x y hx hy hvars hheight
      · refine hfewer v (htouch v (Or.inl hv)) _ _ _ (hsealed.apply hx) (hsealed.apply hy) ?_
          (Nat.lt_succ_self _)
        intro w hw
        have hne : w ≠ v := by
          intro heq
          subst w
          rcases hw with hw | hw
          · exact hid.not_mem_apply hv x hw
          · exact hid.not_mem_apply hv y hw
        exact (List.mem_erase_of_ne hne).2 (hfound w hw)
    obtain ⟨r, n, hn⟩ := hfirst
    cases r with
    | error e =>
      refine ⟨.error e, n, fun fuel hfuel => ?_⟩
      rw [solvePairs, ExceptT.run_bind, hn fuel hfuel]
      rfl
    | ok next =>
      have hnext := hn n (Nat.le_refl n)
      obtain ⟨-, hid'⟩ := unify_solves (hsealed.apply hx) (hsealed.apply hy) hnext
      have hsealed' := sealed_of_unify (hsealed.apply hx) (hsealed.apply hy) hnext
      have htouch' : ∀ v, (next.compose found).Touches v → v ∈ vs := by
        intro v hv
        rcases Subst.touches_compose hv with hv | hv
        · exact hfound v (touches_of_unify hnext hv)
        · exact htouch v hv
      obtain ⟨r, m, hm⟩ := ih (fun p hp => hpairs p (List.mem_cons_of_mem _ hp))
        (idempotent_next hid hid' hnext) (hsealed'.compose hsealed) htouch'
      refine ⟨r, max n m, fun fuel hfuel => ?_⟩
      rw [solvePairs, ExceptT.run_bind, hn fuel (by omega)]
      exact hm fuel (by omega)

theorem bindVar_ends (v : TyVar) (t : Ty) : ∃ r, (bindVar v t).run = some r := by
  unfold bindVar
  by_cases h : t.occurs v
  · exact ⟨.error (.infiniteType v t), by simp [h]⟩
  · exact ⟨.ok (Subst.single v t), by simp [h]⟩

/-- Only types that are solved by their parts can be without an answer. -/
theorem returns_or_parts (a b : Ty) :
    (∃ r, Returns a b r) ∨ ¬ Agrees a b ∧ ∃ pairs, Parts a b pairs := by
  cases meeting a b with
  | agree hag =>
    exact Or.inl ⟨.ok Subst.empty, returns_iff.2 ⟨1, by rw [unify_agree hag, run_pure]⟩⟩
  | @left v t hag =>
    obtain ⟨r, hr⟩ := bindVar_ends v b
    exact Or.inl ⟨r, returns_iff.2 ⟨1, by rw [unify_left hag, hr]⟩⟩
  | @right v t hag hvar =>
    obtain ⟨r, hr⟩ := bindVar_ends v a
    exact Or.inl ⟨r, returns_iff.2 ⟨1, by rw [unify_right hag hvar, hr]⟩⟩
  | @parts a b pairs hag hp => exact Or.inr ⟨hag, pairs, hp⟩
  | clash hag hc =>
    exact Or.inl ⟨.error (.cannotUnify a b),
      returns_iff.2 ⟨1, by rw [unify_clash hag hc, run_throw]⟩⟩

/-- Once a variable is bound, what remains has fewer variables. -/
theorem endsWithin_of_fewer {vs : List TyVar}
    (hfewer : ∀ v ∈ vs, ∀ h, EndsWithin (vs.erase v) h) (h : Nat) : EndsWithin vs h := by
  induction h with
  | zero =>
    intro a b _ _ _ hheight
    omega
  | succ h ih =>
    intro a b ha hb hvars hheight
    rcases returns_or_parts a b with hr | ⟨hag, pairs, hp⟩
    · exact hr
    · have hpairs : ∀ p ∈ pairs, p.1.Sealed .aggregates ∧ p.2.Sealed .aggregates ∧
          (∀ v, v ∈ p.1.vars ∨ v ∈ p.2.vars → v ∈ vs) ∧ p.1.height < h := by
        intro p hmem
        obtain ⟨hx, hy⟩ := hp.sealed ha hb hmem
        have hlt := hp.height_lt hmem
        exact ⟨hx, hy, fun v hv => hvars v (hp.mem_vars hmem hv), by omega⟩
      obtain ⟨r, n, hn⟩ := solvePairs_ends ih hfewer hpairs Subst.idempotent_empty
        Subst.sealed_empty fun v hv => absurd hv (Subst.not_touches_empty v)
      exact ⟨r, returns_iff.2 ⟨n + 1, by rw [unify_parts hag hp, hn n (Nat.le_refl n)]⟩⟩

/-- Unification ends on sealed types, by induction over the variables. -/
theorem endsWithin (vs : List TyVar) (h : Nat) : EndsWithin vs h := by
  -- on the number of variables; for each number on the height of the first type
  induction hlen : vs.length generalizing vs h with
  | zero =>
    refine endsWithin_of_fewer (fun v hv => ?_) h
    rw [List.eq_nil_of_length_eq_zero hlen] at hv
    simp at hv
  | succ k ih =>
    refine endsWithin_of_fewer (fun v hv h' => ih (vs.erase v) h' ?_) h
    rw [List.length_erase_of_mem hv, hlen]
    rfl

end Termination

/-- Where tuples and unions hold no variable, unification comes to an answer, and a substitution
it finds makes the types agree, is idempotent and touches only their variables. -/
theorem unification_solved_form {a b : Ty} (ha : a.Sealed .aggregates)
    (hb : b.Sealed .aggregates) :
    (∃ r, Returns a b r) ∧
      ∀ fuel s, (unify fuel a b).run = some (.ok s) →
        Agrees (s.apply a) (s.apply b) ∧ s.Idempotent ∧
          ∀ v, s.Touches v → v ∈ a.vars ∨ v ∈ b.vars := by
  constructor
  · exact endsWithin (a.vars ++ b.vars) (a.height + 1) a b ha hb
      (fun v hv => List.mem_append.2 hv) (Nat.lt_succ_self _)
  · intro fuel s hrun
    obtain ⟨hagree, hid⟩ := unify_solves ha hb hrun
    exact ⟨hagree, hid, fun v hv => touches_of_unify hrun hv⟩

/-- The second parts meet under `a := Number` and bind `b` in turn. -/
theorem unification_solved_form_chain :
    ∃ s, (unify 2 (.fn (.var ⟨0⟩) (.var ⟨1⟩)) (.fn number (.fn (.var ⟨0⟩) unit))).run =
        some (.ok s) ∧
      Agrees (s.apply (.fn (.var ⟨0⟩) (.var ⟨1⟩))) (s.apply (.fn number (.fn (.var ⟨0⟩) unit))) ∧
      s.Idempotent := by
  have h := unification_solved_form (a := .fn (.var ⟨0⟩) (.var ⟨1⟩))
    (b := .fn number (.fn (.var ⟨0⟩) unit)) (by decide) (by decide)
  refine ⟨_, rfl, ?_⟩
  obtain ⟨hagree, hid, -⟩ := h.2 2 _ rfl
  exact ⟨hagree, hid⟩

end Unification

end SemanticAnalysis
