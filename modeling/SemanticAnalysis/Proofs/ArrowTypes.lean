import SemanticAnalysis.Proofs.UnificationRuns

/-!
Function types arrow by arrow. Peeling arrows off a type gives its inputs and its
output, and unifying two function types makes their outputs agree; if one of the
outputs has no variables then the other one becomes that type.
-/

namespace SemanticAnalysis

namespace Ty

def peel : Nat → Ty → Option (List Ty × Ty)
  | 0, t => some ([], t)
  | k + 1, .fn i o => (peel k o).map fun r => (i :: r.1, r.2)
  | _ + 1, _ => none

variable {k : Nat} {t a b R out : Ty} {ins inputs : List Ty} {s : Subst}

theorem peel_succ : t.peel (k + 1) = some (ins, out) ↔
    ∃ i o rest, t = .fn i o ∧ ins = i :: rest ∧ o.peel k = some (rest, out) := by
  cases t with
  | fn i o =>
    simp only [peel, Option.map_eq_some_iff, Prod.exists, Prod.mk.injEq, fn.injEq]
    constructor
    · rintro ⟨rest, _, ho, rfl, rfl⟩
      exact ⟨i, o, rest, ⟨rfl, rfl⟩, rfl, ho⟩
    · rintro ⟨_, _, rest, ⟨rfl, rfl⟩, rfl, ho⟩
      exact ⟨rest, out, ho, rfl, rfl⟩
  | _ => simp [peel]

theorem peel_foldr (inputs : List Ty) (out : Ty) :
    (inputs.foldr .fn out).peel inputs.length = some (inputs, out) := by
  induction inputs with
  | nil => rfl
  | cons i rest ih => exact peel_succ.2 ⟨i, _, rest, rfl, rfl, ih⟩

theorem peel_apply (h : t.peel k = some (ins, out)) (s : Subst) :
    (s.apply t).peel k = some (ins.map s.apply, s.apply out) := by
  induction k generalizing t ins with
  | zero =>
    cases h
    rfl
  | succ k ih =>
    obtain ⟨i, o, rest, rfl, rfl, ho⟩ := peel_succ.1 h
    exact peel_succ.2 ⟨s.apply i, s.apply o, rest.map s.apply, Subst.apply_fn .., rfl, ih ho⟩

/-- Types that agree have outputs that agree after the same number of inputs. -/
theorem Agrees.peel (h : Agrees a b) (ha : a.peel k = some (ins, R))
    (hb : b.peel k = some (inputs, out)) : Agrees R out := by
  induction k generalizing a b ins inputs with
  | zero =>
    cases ha
    cases hb
    exact h
  | succ k ih =>
    obtain ⟨i, o, rest, rfl, rfl, ho⟩ := peel_succ.1 ha
    obtain ⟨i', o', rest', rfl, rfl, ho'⟩ := peel_succ.1 hb
    exact ih (agrees_fn_iff.1 h).2 ho ho'

end Ty

namespace Unification

open Ty (Agrees)

variable {fuel : Nat} {a b R out : Ty} {ins inputs : List Ty} {s : Subst}

/-- What is unified with a type without variables becomes that type. -/
theorem agrees_of_unify_closed (ha : a.vars = []) (h : (unify fuel a b).run = some (.ok s)) :
    Agrees a (s.apply b) := by
  induction fuel generalizing a b s with
  | zero => cases h
  | succ fuel ih =>
    rcases unify_ok_cases h with ⟨hag, rfl⟩ | ⟨v, rfl, -⟩ | ⟨v, rfl, -, -, rfl⟩ | ⟨pairs, hp, -, h⟩
    · rwa [Subst.apply_empty]
    · simp [Ty.vars] at ha
    · rw [Subst.single_apply_var]
    · have hpairs : ∀ p ∈ pairs, Agrees (s.apply p.1) (s.apply p.2) := by
        refine solvePairs_induct (I := fun solved found =>
          ∀ p ∈ solved, Agrees (found.apply p.1) (found.apply p.2)) ?_ (by simp) h
        intro solved x y found next hxy hsolved hnext p hp'
        have hx : x.vars = [] := List.eq_nil_iff_forall_not_mem.2 fun v hv => by
          simpa [ha] using hp.mem_vars_left hxy hv
        rw [Subst.apply_of_closed hx] at hnext
        rw [Subst.apply_compose, Subst.apply_compose]
        rcases List.mem_append.1 hp' with hp' | hp'
        · exact Subst.agrees_apply next (hsolved p hp')
        · rw [List.mem_singleton.1 hp', Subst.apply_of_closed hx, Subst.apply_of_closed hx]
          exact ih hx hnext
      rw [← hp.agrees_apply_iff s, Subst.apply_of_closed ha] at hpairs
      exact hpairs

/-- The output of a function type is unified with the output of the other one. -/
theorem agrees_of_unify_peel {k : Nat} (ha : a.peel k = some (ins, R))
    (hb : b.peel k = some (inputs, out)) (hR : R.vars = [])
    (h : (unify fuel a b).run = some (.ok s)) : Agrees R (s.apply out) := by
  induction k generalizing fuel a b ins inputs out s with
  | zero =>
    cases ha
    cases hb
    exact agrees_of_unify_closed hR h
  | succ k ih =>
    obtain ⟨i, o, rest, rfl, rfl, ho⟩ := Ty.peel_succ.1 ha
    obtain ⟨i', o', rest', rfl, rfl, ho'⟩ := Ty.peel_succ.1 hb
    cases fuel with
    | zero => cases h
    | succ fuel =>
      rcases unify_ok_cases h with ⟨hag, rfl⟩ | ⟨v, heq, -⟩ | ⟨v, heq, -⟩ | ⟨pairs, hp, -, h⟩
      · rw [Subst.apply_empty]
        exact hag.peel ha hb
      · cases heq
      · cases heq
      · cases hp
        simp only [solvePairs, run_bind_ok, run_pure] at h
        obtain ⟨first, -, second, hsecond, hs⟩ := h
        cases hs
        have ho₁ := Ty.peel_apply ho (first.compose Subst.empty)
        rw [Subst.apply_of_closed hR] at ho₁
        rw [Subst.apply_compose]
        exact ih ho₁ (Ty.peel_apply ho' _) hsecond

end Unification

end SemanticAnalysis
