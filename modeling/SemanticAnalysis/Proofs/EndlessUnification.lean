import Mathlib.Data.Finset.Card
import Mathlib.Data.List.Induction
import Mathlib.Data.Prod.Lex
import Mathlib.Logic.Relation
import Mathlib.Order.WellFounded
import SemanticAnalysis.Proofs.SolvedForms

/-!
When unification comes to an answer, for all types. A call on two types leads on
to calls on their parts, each under what was found for the parts before it, and
unification comes to an answer when no chain of such calls is endless. A call
whose parts no longer hold what was bound has fewer variables or lower types, so
along an endless chain the calls come back to a bound variable again and again.
That takes a knot: a variable set against another type that holds it only inside
tuples or unions, where the occurs check, which looks through functions, does not
see it.
-/

namespace SemanticAnalysis

namespace Unification

open Ty

section Pairs

variable {f : Ty → Ty → Search Subst} {found : Subst}

theorem solvePairs_append (before after : List (Ty × Ty)) :
    solvePairs f found (before ++ after) =
      solvePairs f found before >>= fun s => solvePairs f s after := by
  induction before generalizing found with
  | nil => simp [solvePairs]
  | cons p rest ih => simp [solvePairs, ih]

theorem solvePairs_concat_run_ok {before : List (Ty × Ty)} {x y : Ty} {s : Subst} :
    (solvePairs f found (before ++ [(x, y)])).run = some (.ok s) ↔
      ∃ r next, (solvePairs f found before).run = some (.ok r) ∧
        (f (r.apply x) (r.apply y)).run = some (.ok next) ∧ s = next.compose r := by
  simp only [solvePairs_append, run_bind_ok, solvePairs, run_pure, Option.some.injEq,
    Except.ok.injEq]
  grind

end Pairs

section Calls

/-- The first call leads on to the second one under what was found for the pairs of parts
before. -/
def CallsUnder (found : Subst) (p q : Ty × Ty) : Prop :=
  ¬ Agrees p.1 p.2 ∧ ∃ before x y after n, Parts p.1 p.2 (before ++ (x, y) :: after) ∧
    (solvePairs (unify n) Subst.empty before).run = some (.ok found) ∧
    q = (found.apply x, found.apply y)

def Calls (p q : Ty × Ty) : Prop := ∃ found, CallsUnder found p q

/-- The second call still holds a variable that was bound before it. -/
def Reenters (p q : Ty × Ty) : Prop :=
  ∃ found, CallsUnder found p q ∧ ∃ v, found.contains v ∧ (v ∈ q.1.vars ∨ v ∈ q.2.vars)

/-- A variable against another type that holds it where the occurs check does not see it. -/
def Knot (p : Ty × Ty) : Prop :=
  ∃ v t, (p = (.var v, t) ∨ p = (t, .var v)) ∧ t ≠ .var v ∧ v ∈ t.vars ∧ t.occurs v = false

def Endless (calls : Nat → Ty × Ty) : Prop := ∀ i, Calls (calls i) (calls (i + 1))

end Calls

section Answers

variable {a b : Ty}

/-- Two searches of one list of pairs that both have an answer have the same one. -/
theorem solvePairs_unique {n m : Nat} {pairs : List (Ty × Ty)} {r r' : Except UnifyError Subst}
    (h : (solvePairs (unify n) Subst.empty pairs).run = some r)
    (h' : (solvePairs (unify m) Subst.empty pairs).run = some r') : r = r' := by
  have hn := solvePairs_goesOn (fun x y => unify_goesOn (Nat.le_max_left n m) x y) _ _ _ h
  have hm := solvePairs_goesOn (fun x y => unify_goesOn (Nat.le_max_right n m) x y) _ _ _ h'
  exact Option.some.inj (hn.symm.trans hm)

/-- A call that comes to an answer has had one, with less fuel, from every call it led on to. -/
theorem run_of_calls {n : Nat} {r : Except UnifyError Subst} {q : Ty × Ty}
    (h : (unify (n + 1) a b).run = some r) (hq : Calls (a, b) q) :
    ∃ r', (unify n q.1 q.2).run = some r' := by
  obtain ⟨found, hne, before, x, y, after, m, hp, hfound, rfl⟩ := hq
  rw [unify_parts hne hp, solvePairs_append, ExceptT.run_bind] at h
  cases hbefore : (solvePairs (unify n) Subst.empty before).run with
  | none => simp [hbefore] at h
  | some r₀ =>
    rw [hbefore, solvePairs_unique hbefore hfound] at h
    cases hx : (unify n (found.apply x) (found.apply y)).run with
    | some r' => exact ⟨r', rfl⟩
    | none =>
      change (solvePairs (unify n) found ((x, y) :: after)).run = some r at h
      rw [solvePairs, ExceptT.run_bind, hx] at h
      simp at h

/-- Pairs are solved or found unsolvable if every call they lead to comes to an answer. -/
theorem solvePairs_returns {pairs : List (Ty × Ty)} (hne : ¬ Agrees a b) (hp : Parts a b pairs)
    (hcalls : ∀ q, Calls (a, b) q → ∃ r, Returns q.1 q.2 r) {before after : List (Ty × Ty)}
    (hpairs : before ++ after = pairs) {found : Subst} {m : Nat}
    (hfound : (solvePairs (unify m) Subst.empty before).run = some (.ok found)) :
    ∃ r n, (solvePairs (unify n) found after).run = some r := by
  induction after generalizing before found m with
  | nil => exact ⟨.ok found, 0, rfl⟩
  | cons p rest ih =>
    obtain ⟨x, y⟩ := p
    obtain ⟨r, n, hn⟩ := hcalls (found.apply x, found.apply y)
      ⟨found, hne, before, x, y, rest, m, hpairs ▸ hp, hfound, rfl⟩
    cases r with
    | error e =>
      refine ⟨.error e, n, ?_⟩
      rw [solvePairs, ExceptT.run_bind, hn n (Nat.le_refl n)]
      rfl
    | ok next =>
      have hsolved : (solvePairs (unify (max n m)) Subst.empty (before ++ [(x, y)])).run =
          some (.ok (next.compose found)) := by
        rw [solvePairs_concat_run_ok]
        refine ⟨found, next, ?_, hn _ (Nat.le_max_left n m), rfl⟩
        exact solvePairs_goesOn (fun x y => unify_goesOn (Nat.le_max_right n m) x y) _ _ _ hfound
      obtain ⟨r, k, hk⟩ := ih (by simpa using hpairs) hsolved
      refine ⟨r, max n k, ?_⟩
      rw [solvePairs, ExceptT.run_bind, hn _ (Nat.le_max_left n k)]
      exact solvePairs_goesOn (fun x y => unify_goesOn (Nat.le_max_right n k) x y) _ _ _ hk

theorem returns_of_all_calls (hcalls : ∀ q, Calls (a, b) q → ∃ r, Returns q.1 q.2 r) :
    ∃ r, Returns a b r := by
  rcases returns_or_parts a b with hr | ⟨hag, pairs, hp⟩
  · exact hr
  · obtain ⟨r, n, hn⟩ := solvePairs_returns hag hp hcalls (List.nil_append pairs) (m := 0)
      (run_pure Subst.empty)
    exact ⟨r, returns_iff.2 ⟨n + 1, by rw [unify_parts hag hp, hn]⟩⟩

/-- Unification comes to an answer exactly where the calls it leads to are well-founded. -/
theorem returns_iff_acc {p : Ty × Ty} :
    (∃ r, Returns p.1 p.2 r) ↔ Acc (fun q p => Calls p q) p := by
  constructor
  · -- on the fuel that the answer takes: the calls led on to take one less
    intro h
    obtain ⟨r, n, hn⟩ := h
    have hrun := hn n (Nat.le_refl n)
    clear hn
    induction n generalizing p r with
    | zero => exact absurd hrun (by simp [unify, ExceptT.run, ExceptT.mk])
    | succ n ih =>
      refine Acc.intro p fun q hq => ?_
      obtain ⟨r', hr'⟩ := run_of_calls hrun hq
      exact ih r' hr'
  · intro hacc
    induction hacc with
    | intro p _ ih => exact returns_of_all_calls ih

theorem returns_of_calls {p q : Ty × Ty} (h : ∃ r, Returns p.1 p.2 r) (hq : Calls p q) :
    ∃ r, Returns q.1 q.2 r :=
  returns_iff_acc.2 ((returns_iff_acc.1 h).inv hq)

/-- Unification comes to an answer when it makes no endless chain of calls. -/
theorem returns_iff_no_endless :
    (∃ r, Returns a b r) ↔ ¬ ∃ calls, calls 0 = (a, b) ∧ Endless calls := by
  have hchain := not_acc_iff_exists_descending_chain (r := fun q p => Calls p q) (x := (a, b))
  rw [← returns_iff_acc] at hchain
  exact (not_iff_comm.1 hchain).symm

end Answers

section Shrinking

variable {found : Subst} {p q : Ty × Ty}

def callVars (p : Ty × Ty) : Finset TyVar := (p.1.vars ++ p.2.vars).toFinset

theorem mem_callVars {v : TyVar} : v ∈ callVars p ↔ v ∈ p.1.vars ∨ v ∈ p.2.vars := by
  simp [callVars]

/-- What is found for some of the parts touches only variables of the two types. -/
theorem CallsUnder.mem_of_touches (h : CallsUnder found p q) {v : TyVar} (hv : found.Touches v) :
    v ∈ callVars p := by
  obtain ⟨-, before, x, y, after, n, hp, hfound, -⟩ := h
  rw [mem_callVars]
  exact touches_of_solvePairs touches_of_unify
    (fun r hmem v hv => hp.mem_vars (List.mem_append_left _ hmem) hv) hfound hv

/-- A call mentions no variables but those of the call that leads to it. -/
theorem CallsUnder.callVars_subset (h : CallsUnder found p q) : callVars q ⊆ callVars p := by
  intro v hv
  have htouch := h.mem_of_touches (v := v)
  obtain ⟨-, before, x, y, after, n, hp, -, rfl⟩ := h
  have hmem : (x, y) ∈ before ++ (x, y) :: after := by simp
  rcases mem_callVars.1 hv with hv | hv
  · rcases Subst.mem_or_touches_of_mem_apply hv with hv | hv
    · exact mem_callVars.2 (hp.mem_vars hmem (Or.inl hv))
    · exact htouch hv
  · rcases Subst.mem_or_touches_of_mem_apply hv with hv | hv
    · exact mem_callVars.2 (hp.mem_vars hmem (Or.inr hv))
    · exact htouch hv

/-- The number of variables, and after it the height of the first type. -/
def weight (p : Ty × Ty) : Nat ×ₗ Nat := toLex ((callVars p).card, p.1.height)

/-- A call that holds nothing that was bound weighs less than the one it comes from. -/
theorem weight_lt_of_calls (h : Calls p q) (hback : ¬ Reenters p q) : weight q < weight p := by
  obtain ⟨found, hcall⟩ := h
  have hsub := hcall.callVars_subset
  rcases Subst.eq_empty_or_contains found with rfl | ⟨v, hv⟩
  · -- nothing was found: the parts are as they were, and lower
    have hheight : q.1.height < p.1.height := by
      obtain ⟨-, before, x, y, after, n, hp, -, rfl⟩ := hcall
      rw [Subst.apply_empty]
      exact hp.height_lt (p := (x, y)) (by simp)
    rcases (Finset.card_le_card hsub).lt_or_eq with hlt | heq
    · exact Prod.Lex.toLex_lt_toLex.2 (Or.inl hlt)
    · exact Prod.Lex.toLex_lt_toLex.2 (Or.inr ⟨heq, hheight⟩)
  · -- a variable of the call was bound, and is gone from the parts
    have hp : v ∈ callVars p := hcall.mem_of_touches (Or.inl hv)
    have hq : v ∉ callVars q := fun hmem =>
      hback ⟨found, hcall, v, hv, mem_callVars.1 hmem⟩
    have hlt : (callVars q).card < (callVars p).card :=
      Finset.card_lt_card ⟨hsub, fun hsup => hq (hsup hp)⟩
    exact Prod.Lex.toLex_lt_toLex.2 (Or.inl hlt)

/-- An endless chain of calls comes back to what was bound again and again. -/
theorem Endless.reenters {calls : Nat → Ty × Ty} (h : Endless calls) (i : Nat) :
    ∃ j, i ≤ j ∧ Reenters (calls j) (calls (j + 1)) := by
  by_contra hnone
  push Not at hnone
  have hdescends : ∀ k, weight (calls (i + (k + 1))) < weight (calls (i + k)) := fun k =>
    weight_lt_of_calls (h (i + k)) (hnone (i + k) (Nat.le_add_right i k))
  exact (wellFounded_iff_isEmpty_descending_chain.1 wellFounded_lt).false
    ⟨fun k => weight (calls (i + k)), hdescends⟩

end Shrinking

section Knots

variable {a b : Ty} {p q : Ty × Ty}

def Untied (p : Ty × Ty) : Prop := ∀ q, Relation.ReflTransGen Calls p q → ¬ Knot q

theorem Endless.reaches {calls : Nat → Ty × Ty} (h : Endless calls) (i : Nat) :
    Relation.ReflTransGen Calls (calls 0) (calls i) := by
  induction i with
  | zero => exact Relation.ReflTransGen.refl
  | succ i ih => exact ih.tail (h i)

theorem Untied.calls (h : Untied p) (hq : Calls p q) : Untied q :=
  fun _ hrest => h _ (Relation.ReflTransGen.head hq hrest)

/-- A solution of parts is idempotent if the solutions of the calls for them are. -/
theorem idempotent_of_solved {n : Nat} {pairs : List (Ty × Ty)}
    (hsolve : ∀ {q s}, Calls (a, b) q → (unify n q.1 q.2).run = some (.ok s) → s.Idempotent)
    (hne : ¬ Agrees a b) (hp : Parts a b pairs) {before after : List (Ty × Ty)}
    (hpairs : before ++ after = pairs) {found : Subst}
    (hfound : (solvePairs (unify n) Subst.empty before).run = some (.ok found)) :
    found.Idempotent := by
  induction before using List.reverseRecOn generalizing after found with
  | nil =>
    simp only [solvePairs, run_pure, Option.some.injEq, Except.ok.injEq] at hfound
    exact hfound ▸ Subst.idempotent_empty
  | append_singleton before p ih =>
    obtain ⟨x, y⟩ := p
    obtain ⟨r, next, hr, hnext, rfl⟩ := solvePairs_concat_run_ok.1 hfound
    rw [List.append_assoc, List.singleton_append] at hpairs
    have hcall : Calls (a, b) (r.apply x, r.apply y) :=
      ⟨r, hne, before, x, y, after, n, hpairs ▸ hp, hr, rfl⟩
    exact idempotent_next (ih hpairs hr) (hsolve hcall hnext) hnext

/-- Without knots nothing that is bound is found in what it is bound to. -/
theorem Untied.idempotent {n : Nat} {s : Subst} (h : Untied (a, b))
    (hrun : (unify n a b).run = some (.ok s)) : s.Idempotent := by
  induction n generalizing a b s with
  | zero => exact absurd hrun (by simp [unify, ExceptT.run, ExceptT.mk])
  | succ n ih =>
    have hself := h (a, b) Relation.ReflTransGen.refl
    rcases unify_ok_cases hrun with ⟨-, rfl⟩ | ⟨v, rfl, hne, hoccurs, rfl⟩ |
      ⟨v, rfl, hne, hoccurs, rfl⟩ | ⟨pairs, hp, hne, hpairs⟩
    · exact Subst.idempotent_empty
    · refine Subst.idempotent_single fun hv => hself ⟨v, b, Or.inl rfl, ?_, hv, hoccurs⟩
      rintro rfl
      exact hne (Agrees.refl _)
    · refine Subst.idempotent_single fun hv => hself ⟨v, a, Or.inr rfl, ?_, hv, hoccurs⟩
      rintro rfl
      exact hne (Agrees.refl _)
    · exact idempotent_of_solved (fun hq hs => ih (h.calls hq) hs) hne hp
        (List.append_nil pairs) hpairs

theorem Untied.not_reenters (h : Untied p) : ¬ Reenters p q := by
  intro hback
  obtain ⟨found, ⟨hne, before, x, y, after, n, hp, hfound, rfl⟩, v, hv, hmem⟩ := hback
  have hid : found.Idempotent :=
    idempotent_of_solved (fun hq hs => (h.calls hq).idempotent hs) hne hp rfl hfound
  rcases hmem with hmem | hmem
  · exact hid.not_mem_apply hv x hmem
  · exact hid.not_mem_apply hv y hmem

/-- Along an endless chain some variable is set, again and again, against another type that holds it
where the occurs check does not see it. -/
theorem Endless.knots {calls : Nat → Ty × Ty} (h : Endless calls) (i : Nat) :
    ∃ j, i ≤ j ∧ Reenters (calls j) (calls (j + 1)) ∧
      ∃ q, Relation.ReflTransGen Calls (calls j) q ∧ Knot q := by
  obtain ⟨j, hij, hback⟩ := h.reenters i
  refine ⟨j, hij, hback, ?_⟩
  by_contra hnone
  exact Untied.not_reenters (fun q hq hk => hnone ⟨q, hq, hk⟩) hback

theorem Untied.returns (h : Untied (a, b)) : ∃ r, Returns a b r := by
  rw [returns_iff_no_endless]
  intro hendless
  obtain ⟨calls, hstart, hcalls⟩ := hendless
  obtain ⟨j, -, -, q, hq, hk⟩ := hcalls.knots 0
  exact h q (hstart ▸ (hcalls.reaches j).trans hq) hk

end Knots

section Twins

def twin (t : Ty) : Ty := .tuple [t, t]

/-- `((v, v), (v, v))` against `(v, v)`: the first parts bind `v` to `(v, v)`, under which the
second parts are the two types again. -/
theorem calls_twin (v : TyVar) :
    Calls (twin (twin (.var v)), twin (.var v)) (twin (twin (.var v)), twin (.var v)) := by
  have hne : ¬ Agrees (twin (.var v)) (.var v) := fun h => by simpa [twin] using agrees_tuple_left h
  refine ⟨Subst.single v (twin (.var v)), ?_, [(twin (.var v), .var v)], twin (.var v), .var v, [],
    1, Parts.tuple rfl, rfl, ?_⟩
  · simpa [twin] using hne
  · simp [twin, Subst.apply_tuple, Subst.single_apply_var]

theorem not_returns_twin (v : TyVar) :
    ¬ ∃ r, Returns (twin (twin (.var v))) (twin (.var v)) r := by
  rw [returns_iff_no_endless, not_not]
  exact ⟨fun _ => (twin (twin (.var v)), twin (.var v)), rfl, fun _ => calls_twin v⟩

end Twins

end Unification

end SemanticAnalysis
