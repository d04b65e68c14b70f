import SemanticAnalysis.Proofs.UnificationRuns

/-!
Unification finds a most general unifier of types whose unions hold no variable.
If some assignment unifies two types then the search ends, because the height of
the first type under that assignment falls with every step, and what it finds is
absorbed by the assignment: putting it first makes no difference.
-/

namespace SemanticAnalysis

namespace Unification

open Ty

def Unifies (θ : TyVar → Ty) (a b : Ty) : Prop := Agrees (a.replace θ) (b.replace θ)

/-- Under the assignment it makes no difference to substitute first. -/
def Absorbs (θ : TyVar → Ty) (s : Subst) : Prop := ∀ v, Agrees ((s.read v).replace θ) (θ v)

section Absorption

variable {θ : TyVar → Ty} {s r : Subst}

theorem absorbs_empty (θ : TyVar → Ty) : Absorbs θ Subst.empty := by
  intro v
  rw [Subst.read_empty, replace_var]

theorem absorbs_single {v : TyVar} {t : Ty} (h : Agrees (t.replace θ) (θ v)) :
    Absorbs θ (Subst.single v t) := by
  intro w
  rw [Subst.read_single]
  by_cases hw : v = w
  · subst w
    simpa using h
  · simp [hw]

theorem Absorbs.apply (h : Absorbs θ s) (t : Ty) :
    Agrees ((s.apply t).replace θ) (t.replace θ) := by
  rw [Subst.apply_eq_replace, replace_replace]
  exact agrees_replace_congr fun v _ => h v

theorem Absorbs.compose (hs : Absorbs θ s) (hr : Absorbs θ r) : Absorbs θ (s.compose r) := by
  intro v
  rw [Subst.read_compose]
  exact (hs.apply (r.read v)).trans (hr v)

theorem Absorbs.unifies_iff (h : Absorbs θ s) {a b : Ty} :
    Unifies θ (s.apply a) (s.apply b) ↔ Unifies θ a b := by
  have ha := h.apply a
  have hb := h.apply b
  exact ⟨fun hab => (ha.symm.trans hab).trans hb, fun hab => (ha.trans hab).trans hb.symm⟩

end Absorption

section Clashes

variable {θ : TyVar → Ty} {a b : Ty}

theorem isLeaf_of_replace (hb : ∀ v, b ≠ .var v) (h : (b.replace θ).isLeaf) : b.isLeaf := by
  cases b with
  | var v => exact absurd rfl (hb v)
  | tuple items => simp [isLeaf] at h
  | union items => simp [isLeaf] at h
  | fn input output => simp [isLeaf] at h
  | _ => rfl

/-- Types without common parts that some assignment unifies agree already. -/
theorem Clash.agrees_of_unifies (hc : Clash a b) (ha : a.Sealed .unions) (hb : b.Sealed .unions)
    (h : Unifies θ a b) : Agrees a b := by
  obtain ⟨hva, hvb, hparts⟩ := hc
  unfold Unifies at h
  induction a with
  | var v => exact absurd rfl (hva v)
  | leaf a hleaf =>
    rw [replace_leaf hleaf] at h
    have hleaf' : b.isLeaf := isLeaf_of_replace hvb (isLeaf_of_agrees hleaf h)
    rwa [replace_leaf hleaf'] at h
  | tuple xs _ =>
    cases b with
    | var w => exact absurd rfl (hvb w)
    | tuple ys =>
      have hlen : xs.length = ys.length := by
        rw [replace_tuple, replace_tuple, agrees_tuple_iff] at h
        simpa using h.length_eq
      exact absurd (Parts.tuple hlen) (hparts _)
    | _ => simp [Agrees, same, replace] at h
  | union xs _ =>
    cases b with
    | var w => exact absurd rfl (hvb w)
    | union ys =>
      have hxs := sealed_union_iff.1 ha
      have hys := sealed_union_iff.1 hb
      rwa [replace_eq_self (by simp [hxs]), replace_eq_self (by simp [hys])] at h
    | _ => simp [Agrees, same, replace] at h
  | fn i o _ _ =>
    cases b with
    | var w => exact absurd rfl (hvb w)
    | fn i' o' => exact absurd (Parts.fn i o i' o') (hparts _)
    | _ => simp [Agrees, same, replace] at h

/-- A variable that is unified with another type does not occur in it. -/
theorem not_mem_vars_of_unifies {v : TyVar} {t : Ty} (hne : ¬ Agrees (.var v) t)
    (h : Unifies θ (.var v) t) : v ∉ t.vars := by
  intro hv
  have hheight : (θ v).height = (t.replace θ).height := by
    simpa using h.height_eq
  rcases eq_var_or_height_lt_replace (f := θ) hv with rfl | hlt
  · exact hne (Agrees.refl _)
  · omega

theorem bindVar_of_unifies {v : TyVar} {t : Ty} (hne : ¬ Agrees (.var v) t)
    (h : Unifies θ (.var v) t) :
    (bindVar v t).run = some (.ok (Subst.single v t)) ∧ Absorbs θ (Subst.single v t) ∧
      (Subst.single v t).apply t = (Subst.single v t).apply (.var v) := by
  have hv := not_mem_vars_of_unifies hne h
  have hoccurs : t.occurs v = false := by
    simpa using fun ho => hv (mem_vars_of_occurs ho)
  refine ⟨bindVar_run_ok.2 ⟨hoccurs, rfl⟩, absorbs_single ?_, ?_⟩
  · simpa [Unifies] using h.symm
  · rw [Subst.single_apply_var, Subst.single_apply_of_not_mem hv]

end Clashes

section Search

variable {θ : TyVar → Ty} {n : Nat}

def SolvesBelow (θ : TyVar → Ty) (n : Nat) : Prop :=
  ∀ a b : Ty, a.Sealed .unions → b.Sealed .unions → Unifies θ a b → (a.replace θ).height < n →
    ∃ s, (unify n a b).run = some (.ok s) ∧ Absorbs θ s ∧ Agrees (s.apply a) (s.apply b)

/-- Pairs that the assignment unifies at lower height are solved one after the other;
what was solved before stays solved. -/
theorem solvePairs_of_unifies (hsolve : SolvesBelow θ n) {pairs : List (Ty × Ty)} {found : Subst}
    (hfound : found.Sealed .unions) (habsorb : Absorbs θ found)
    (hpairs : ∀ p ∈ pairs, p.1.Sealed .unions ∧ p.2.Sealed .unions ∧ Unifies θ p.1 p.2 ∧
      (p.1.replace θ).height < n) :
    ∃ s, (solvePairs (unify n) found pairs).run = some (.ok s) ∧ Absorbs θ s ∧
      (∃ r : Subst, ∀ t, s.apply t = r.apply (found.apply t)) ∧
      ∀ p ∈ pairs, Agrees (s.apply p.1) (s.apply p.2) := by
  induction pairs generalizing found with
  | nil =>
    exact ⟨found, rfl, habsorb, ⟨Subst.empty, fun t => (Subst.apply_empty _).symm⟩, by simp⟩
  | cons p rest ih =>
    obtain ⟨x, y⟩ := p
    obtain ⟨hx, hy, hxy, hheight⟩ := hpairs (x, y) (List.mem_cons_self ..)
    have hlow : ((found.apply x).replace θ).height < n := by
      rw [(habsorb.apply x).height_eq]
      exact hheight
    obtain ⟨next, hnext, habsorb', hagree⟩ := hsolve (found.apply x) (found.apply y)
      (hfound.apply hx) (hfound.apply hy) (habsorb.unifies_iff.2 hxy) hlow
    have hsealed : next.Sealed .unions :=
      sealed_of_unify (hfound.apply hx) (hfound.apply hy) hnext
    obtain ⟨s, hrun, hs, ⟨r, hr⟩, hrest⟩ := ih (hsealed.compose hfound)
      (habsorb'.compose habsorb) fun p hp => hpairs p (List.mem_cons_of_mem _ hp)
    refine ⟨s, ?_, hs, ⟨r.compose next, ?_⟩, ?_⟩
    · rw [solvePairs, run_bind_ok]
      exact ⟨next, hnext, hrun⟩
    · intro t
      rw [hr, Subst.apply_compose, Subst.apply_compose]
    · intro p hp
      rcases List.mem_cons.1 hp with rfl | hp
      · rw [hr, hr, Subst.apply_compose, Subst.apply_compose]
        exact Subst.agrees_apply r hagree
      · exact hrest p hp

/-- Unification solves what can be solved, by induction over the fuel and along the parts. -/
theorem solvesBelow (θ : TyVar → Ty) (n : Nat) : SolvesBelow θ n := by
  -- the height under the assignment bounds the nesting of the search
  induction n with
  | zero =>
    intro a b _ _ _ hheight
    omega
  | succ n ih =>
    intro a b ha hb h hheight
    cases meeting a b with
    | agree hag =>
      refine ⟨Subst.empty, by rw [unify_agree hag, run_pure], absorbs_empty θ, ?_⟩
      simpa only [Subst.apply_empty] using hag
    | @left v t hag =>
      obtain ⟨hrun, habsorb, hself⟩ := bindVar_of_unifies hag h
      refine ⟨Subst.single v b, by rw [unify_left hag, hrun], habsorb, ?_⟩
      rw [hself]
    | @right v t hag hvar =>
      have hag' : ¬ Agrees (.var v) a := fun hsym => hag hsym.symm
      obtain ⟨hrun, habsorb, hself⟩ := bindVar_of_unifies hag' h.symm
      refine ⟨Subst.single v a, by rw [unify_right hag hvar, hrun], habsorb, ?_⟩
      rw [hself]
    | @parts a b pairs hag hp =>
      have hpairs : ∀ p ∈ pairs, p.1.Sealed .unions ∧ p.2.Sealed .unions ∧ Unifies θ p.1 p.2 ∧
          (p.1.replace θ).height < n := by
        intro p hmem
        obtain ⟨hx, hy⟩ := hp.sealed ha hb hmem
        have hmem' := List.mem_map_of_mem (f := Prod.map (Ty.replace θ) (Ty.replace θ)) hmem
        have hxy : Unifies θ p.1 p.2 := (hp.replace θ).agrees_iff.1 h _ hmem'
        have hlt : (p.1.replace θ).height < (a.replace θ).height :=
          (hp.replace θ).height_lt hmem'
        exact ⟨hx, hy, hxy, by omega⟩
      obtain ⟨s, hrun, habsorb, -, hagree⟩ :=
        solvePairs_of_unifies ih Subst.sealed_empty (absorbs_empty θ) hpairs
      exact ⟨s, by rw [unify_parts hag hp, hrun], habsorb, (hp.agrees_apply_iff s).2 hagree⟩
    | clash hag hc => exact absurd (hc.agrees_of_unifies ha hb h) hag

end Search

/-- Types whose unions hold no variable and that have a unifier are unified by a most general
one; if unification fails there is none. -/
theorem most_general_unifier {a b : Ty} (ha : a.Sealed .unions) (hb : b.Sealed .unions) :
    ((∃ θ : Subst, Agrees (θ.apply a) (θ.apply b)) →
      ∃ s, Returns a b (.ok s) ∧ Agrees (s.apply a) (s.apply b) ∧
        ∀ θ : Subst, Agrees (θ.apply a) (θ.apply b) →
          ∀ t, Agrees (θ.apply (s.apply t)) (θ.apply t)) ∧
    ∀ fuel e, (unify fuel a b).run = some (.error e) →
      ∀ θ : Subst, ¬ Agrees (θ.apply a) (θ.apply b) := by
  have hfind : ∀ θ : Subst, Agrees (θ.apply a) (θ.apply b) →
      ∃ s, Returns a b (.ok s) ∧ Absorbs θ.read s ∧ Agrees (s.apply a) (s.apply b) := by
    intro θ hθ
    rw [Subst.apply_eq_replace, Subst.apply_eq_replace] at hθ
    obtain ⟨s, hrun, hs⟩ := solvesBelow θ.read _ a b ha hb hθ (Nat.lt_succ_self _)
    exact ⟨s, returns_iff.2 ⟨_, hrun⟩, hs⟩
  constructor
  · intro hunifier
    obtain ⟨θ₀, hθ₀⟩ := hunifier
    obtain ⟨s, hs, -, hagree⟩ := hfind θ₀ hθ₀
    refine ⟨s, hs, hagree, ?_⟩
    intro θ hθ t
    obtain ⟨r, hr, habsorb, -⟩ := hfind θ hθ
    have heq : r = s := Except.ok.inj (hr.unique hs)
    rw [Subst.apply_eq_replace, Subst.apply_eq_replace θ t]
    exact heq ▸ habsorb.apply t
  · intro fuel e hfail θ hθ
    obtain ⟨s, hs, -⟩ := hfind θ hθ
    have heq := hs.unique (returns_iff.2 ⟨fuel, hfail⟩)
    simp at heq

/-- Two functions with a tuple and a union on the way, unified by `a := Number`. -/
theorem most_general_unifier_function :
    ∃ s, Returns (.fn (.tuple [.var ⟨0⟩, .union [number, bool]]) (.var ⟨1⟩))
        (.fn (.tuple [.var ⟨1⟩, .union [bool, number]]) number) (.ok s) ∧
      ∀ θ : Subst, Agrees
          (θ.apply (.fn (.tuple [.var ⟨0⟩, .union [number, bool]]) (.var ⟨1⟩)))
          (θ.apply (.fn (.tuple [.var ⟨1⟩, .union [bool, number]]) number)) →
        ∀ t, Agrees (θ.apply (s.apply t)) (θ.apply t) := by
  obtain ⟨s, hs, -, hall⟩ := (most_general_unifier
    (a := .fn (.tuple [.var ⟨0⟩, .union [number, bool]]) (.var ⟨1⟩))
    (b := .fn (.tuple [.var ⟨1⟩, .union [bool, number]]) number)
    (by decide) (by decide)).1
    ⟨Subst.tabulate [⟨0⟩, ⟨1⟩] fun _ => number, by decide⟩
  exact ⟨s, hs, hall⟩

end Unification

end SemanticAnalysis
