import Mathlib.Data.List.Zip
import Mathlib.Logic.Equiv.Basic
import SemanticAnalysis.Proofs.UnificationRuns

/-!
Unification of two types in either order. The two searches meet the same parts in
the same order, and part ways only where a variable meets another one: one search
binds the first to the second, the other the second to the first. Renaming the
two variables into each other makes up for that, so a search and its mirror image
stay in step up to a renaming that grows along the way, and they end alike.
-/

namespace SemanticAnalysis

namespace Ty

def rename (ρ : Equiv.Perm TyVar) (t : Ty) : Ty := t.replace fun v => .var (ρ v)

variable (ρ : Equiv.Perm TyVar)

@[simp]
theorem rename_var (v : TyVar) : (Ty.var v).rename ρ = .var (ρ v) := replace_var v

@[simp]
theorem rename_fn (i o : Ty) : (Ty.fn i o).rename ρ = .fn (i.rename ρ) (o.rename ρ) :=
  replace_fn i o

@[simp]
theorem rename_tuple (items : List Ty) :
    (Ty.tuple items).rename ρ = .tuple (items.map (rename ρ)) :=
  replace_tuple items

@[simp]
theorem rename_refl (t : Ty) : t.rename (Equiv.refl TyVar) = t := replace_id t

@[simp]
theorem rename_symm_rename (t : Ty) : (t.rename ρ).rename ρ.symm = t := by
  unfold rename
  rw [replace_replace]
  exact replace_eq_self fun v _ => by simp

@[simp]
theorem rename_rename_symm (t : Ty) : (t.rename ρ.symm).rename ρ = t :=
  rename_symm_rename ρ.symm t

variable {ρ} {a b t : Ty} {v : TyVar}

theorem agrees_rename_iff : Agrees (a.rename ρ) (b.rename ρ) ↔ Agrees a b :=
  agrees_renamed_iff ρ.injective

theorem occurs_rename : (t.rename ρ).occurs (ρ v) = t.occurs v := occurs_renamed ρ.injective

theorem rename_ne_var (h : ∀ w, t ≠ .var w) (w : TyVar) : t.rename ρ ≠ .var w :=
  renamed_ne_var h w

end Ty

namespace Subst

/-- A substitution does to renamed types what another one does to the types themselves, up to a
renaming of the outcome. -/
def RenamedBy (ρ ρ' : Equiv.Perm TyVar) (s s' : Subst) : Prop :=
  ∀ t, s'.apply (t.rename ρ) = (s.apply t).rename ρ'

variable {ρ ρ' ρ'' : Equiv.Perm TyVar} {s s' r r' : Subst}

theorem renamedBy_of_read (h : ∀ v, s'.read (ρ v) = (s.read v).rename ρ') :
    RenamedBy ρ ρ' s s' := by
  intro t
  unfold Ty.rename
  rw [apply_eq_replace, apply_eq_replace, Ty.replace_replace, Ty.replace_replace]
  refine Ty.replace_congr fun v _ => ?_
  rw [Ty.replace_var]
  exact h v

theorem renamedBy_empty (ρ : Equiv.Perm TyVar) : RenamedBy ρ ρ empty empty := by
  intro t
  rw [apply_empty, apply_empty]

theorem RenamedBy.compose (h : RenamedBy ρ ρ' s s') (h' : RenamedBy ρ' ρ'' r r') :
    RenamedBy ρ ρ'' (r.compose s) (r'.compose s') := by
  intro t
  rw [apply_compose, apply_compose, h, h']

/-- Binding a variable and binding the renamed one do the same. -/
theorem renamedBy_single (v : TyVar) (t : Ty) :
    RenamedBy ρ ρ (single v t) (single (ρ v) (t.rename ρ)) := by
  refine renamedBy_of_read fun w => ?_
  by_cases h : v = w
  · simp [read_single, h]
  · simp [read_single, h]

/-- Which one of two variables is bound to the other makes no difference but their names. -/
theorem renamedBy_swap (v w : TyVar) :
    RenamedBy ρ ((Equiv.swap v w).trans ρ) (single v (.var w)) (single (ρ w) (.var (ρ v))) := by
  refine renamedBy_of_read fun u => ?_
  by_cases hv : v = u
  · subst hv
    by_cases hw : w = v
    · simp [read_single, hw]
    · simp [read_single, hw]
  · by_cases hw : w = u
    · subst hw
      simp [read_single, hv]
    · have hswap : Equiv.swap v w u = u := Equiv.swap_apply_of_ne_of_ne (Ne.symm hv) (Ne.symm hw)
      simp [read_single, hv, hw, hswap]

end Subst

namespace Unification

open Ty Subst

/-- Two searches end alike: both are cut short, both fail in the same way, or both find a
substitution, one of them up to names what the other one is. -/
inductive Alike (ρ : Equiv.Perm TyVar) :
    Option (Except UnifyError Subst) → Option (Except UnifyError Subst) → Prop
  | cut : Alike ρ none none
  | infinite (v w : TyVar) (t u : Ty) :
      Alike ρ (some (.error (.infiniteType v t))) (some (.error (.infiniteType w u)))
  | clash (a b c d : Ty) :
      Alike ρ (some (.error (.cannotUnify a b))) (some (.error (.cannotUnify c d)))
  | found {s s' : Subst} (ρ' : Equiv.Perm TyVar) (h : RenamedBy ρ ρ' s s') :
      Alike ρ (some (.ok s)) (some (.ok s'))

def mirror (ρ : Equiv.Perm TyVar) (p : Ty × Ty) : Ty × Ty := (p.2.rename ρ, p.1.rename ρ)

variable {ρ : Equiv.Perm TyVar} {a b : Ty}

theorem Parts.mirror {pairs : List (Ty × Ty)} (hp : Parts a b pairs) :
    Parts (b.rename ρ) (a.rename ρ) (pairs.map (mirror ρ)) := by
  cases hp with
  | fn i o i' o' => simpa [Unification.mirror] using Parts.fn ..
  | @tuple xs ys hlen =>
    have hlen' : (ys.map (rename ρ)).length = (xs.map (rename ρ)).length := by simp [hlen]
    have hzip : (ys.map (rename ρ)).zip (xs.map (rename ρ)) = (xs.zip ys).map (mirror ρ) := by
      rw [List.zip_map, ← List.zip_swap, List.map_map]
      rfl
    simpa [hzip] using Parts.tuple hlen'

theorem Clash.mirror (hc : Clash a b) : Clash (b.rename ρ) (a.rename ρ) := by
  obtain ⟨ha, hb, hparts⟩ := hc
  refine ⟨rename_ne_var hb, rename_ne_var ha, ?_⟩
  intro pairs hp
  have hback := hp.mirror (ρ := ρ.symm)
  rw [rename_symm_rename, rename_symm_rename] at hback
  exact hparts _ hback

theorem bindVar_alike (v : TyVar) (t : Ty) :
    Alike ρ (bindVar v t).run (bindVar (ρ v) (t.rename ρ)).run := by
  unfold bindVar
  rw [occurs_rename]
  split
  · exact .infinite ..
  · exact .found ρ (renamedBy_single v t)

theorem bindVar_alike_var {v w : TyVar} (h : v ≠ w) :
    Alike ρ (bindVar v (.var w)).run (bindVar (ρ w) (.var (ρ v))).run := by
  have hρ : ρ w ≠ ρ v := fun heq => h (ρ.injective heq).symm
  simp only [bindVar, occurs, h, hρ, decide_false, Bool.false_eq_true, if_false]
  exact .found _ (renamedBy_swap v w)

/-- Pairs and their mirror images are solved alike if every single pair is; the renaming between
the two solutions found so far is what carries the induction. -/
theorem solvePairs_alike {f : Ty → Ty → Search Subst}
    (hf : ∀ ρ x y, Alike ρ (f x y).run (f (y.rename ρ) (x.rename ρ)).run)
    {ρ' : Equiv.Perm TyVar} {found found' : Subst} (h : RenamedBy ρ ρ' found found')
    (pairs : List (Ty × Ty)) :
    Alike ρ (solvePairs f found pairs).run (solvePairs f found' (pairs.map (mirror ρ))).run := by
  induction pairs generalizing ρ' found found' with
  | nil => exact .found ρ' h
  | cons p rest ih =>
    obtain ⟨x, y⟩ := p
    have hpair := hf ρ' (found.apply x) (found.apply y)
    simp only [List.map_cons, mirror, solvePairs, ExceptT.run_bind, h x, h y]
    revert hpair
    generalize (f (found.apply x) (found.apply y)).run = first
    generalize (f ((found.apply y).rename ρ') ((found.apply x).rename ρ')).run = second
    intro hpair
    cases hpair with
    | cut => exact .cut
    | infinite v w t u => exact .infinite ..
    | clash a b c d => exact .clash ..
    | found ρ'' hnext => exact ih (h.compose hnext)

/-- A search and its mirror image end alike, with whatever fuel. -/
theorem unify_alike (n : Nat) (ρ : Equiv.Perm TyVar) (a b : Ty) :
    Alike ρ (unify n a b).run (unify n (b.rename ρ) (a.rename ρ)).run := by
  induction n generalizing ρ a b with
  | zero => exact .cut
  | succ n ih =>
    have hsame : Agrees (b.rename ρ) (a.rename ρ) ↔ Agrees a b := by
      rw [agrees_rename_iff]
      exact ⟨Agrees.symm, Agrees.symm⟩
    cases meeting a b with
    | agree h =>
      rw [unify_agree h, unify_agree (hsame.2 h)]
      exact .found ρ (renamedBy_empty ρ)
    | @left v _ h =>
      have h' := mt hsame.1 h
      rw [unify_left h]
      by_cases hb : ∃ w, b = .var w
      · obtain ⟨w, rfl⟩ := hb
        have hvw : v ≠ w := by
          intro heq
          exact h (heq ▸ Agrees.refl _)
        rw [rename_var, rename_var] at h' ⊢
        rw [unify_left h']
        exact bindVar_alike_var hvw
      · have hb' : ∀ w, b.rename ρ ≠ .var w := rename_ne_var fun w hw => hb ⟨w, hw⟩
        rw [rename_var] at h' ⊢
        rw [unify_right h' hb']
        exact bindVar_alike v b
    | @right v _ h ha =>
      have h' := mt hsame.1 h
      rw [rename_var] at h' ⊢
      rw [unify_right h ha, unify_left h']
      exact bindVar_alike v a
    | parts h hp =>
      rw [unify_parts h hp, unify_parts (mt hsame.1 h) hp.mirror]
      exact solvePairs_alike ih (renamedBy_empty ρ) _
    | clash h hc =>
      rw [unify_clash h hc, unify_clash (mt hsame.1 h) hc.mirror]
      exact .clash ..

/-- What unification comes to in one order it comes to in the other, up to names. -/
theorem Returns.swap {r : Except UnifyError Subst} (h : Returns a b r) :
    ∃ r', Returns b a r' ∧ Alike (Equiv.refl TyVar) (some r) (some r') := by
  obtain ⟨n, hn⟩ := returns_iff.1 h
  have halike := unify_alike n (Equiv.refl TyVar) a b
  rw [rename_refl, rename_refl, hn] at halike
  cases hr : (unify n b a).run with
  | none =>
    rw [hr] at halike
    cases halike
  | some r' =>
    rw [hr] at halike
    exact ⟨r', returns_iff.2 ⟨n, hr⟩, halike⟩

theorem exists_found_swap (h : ∃ s, Returns a b (.ok s)) : ∃ s, Returns b a (.ok s) := by
  obtain ⟨s, hs⟩ := h
  obtain ⟨r, hr, halike⟩ := hs.swap
  cases halike with
  | found => exact ⟨_, hr⟩

theorem exists_infinite_swap (h : ∃ v t, Returns a b (.error (.infiniteType v t))) :
    ∃ v t, Returns b a (.error (.infiniteType v t)) := by
  obtain ⟨v, t, hvt⟩ := h
  obtain ⟨r, hr, halike⟩ := hvt.swap
  cases halike with
  | infinite => exact ⟨_, _, hr⟩

theorem exists_clash_swap (h : ∃ x y, Returns a b (.error (.cannotUnify x y))) :
    ∃ x y, Returns b a (.error (.cannotUnify x y)) := by
  obtain ⟨x, y, hxy⟩ := h
  obtain ⟨r, hr, halike⟩ := hxy.swap
  cases halike with
  | clash => exact ⟨_, _, hr⟩

theorem endless_swap (h : ∀ r, ¬ Returns a b r) (r : Except UnifyError Subst) :
    ¬ Returns b a r := by
  intro hr
  obtain ⟨r', hr', -⟩ := hr.swap
  exact h r' hr'

/-- Two types unify in one order as they do in the other: a substitution is found in both or in
neither, the failures are of one kind, and the search has no end in both or in neither. The two
substitutions differ by a renaming of variables at most. -/
theorem unification_symmetric (a b : Ty) :
    ((∃ s, Returns a b (.ok s)) ↔ ∃ s, Returns b a (.ok s)) ∧
    ((∃ v t, Returns a b (.error (.infiniteType v t))) ↔
      ∃ v t, Returns b a (.error (.infiniteType v t))) ∧
    ((∃ x y, Returns a b (.error (.cannotUnify x y))) ↔
      ∃ x y, Returns b a (.error (.cannotUnify x y))) ∧
    ((∀ r, ¬ Returns a b r) ↔ ∀ r, ¬ Returns b a r) ∧
    ∀ s s', Returns a b (.ok s) → Returns b a (.ok s') →
      ∃ ρ : Equiv.Perm TyVar, ∀ t, s'.apply t = (s.apply t).rename ρ := by
  refine ⟨⟨exists_found_swap, exists_found_swap⟩, ⟨exists_infinite_swap, exists_infinite_swap⟩,
    ⟨exists_clash_swap, exists_clash_swap⟩, ⟨endless_swap, endless_swap⟩, ?_⟩
  intro s s' hs hs'
  obtain ⟨r, hr, halike⟩ := hs.swap
  rw [hr.unique hs'] at halike
  cases halike with
  | found ρ hρ =>
    refine ⟨ρ, fun t => ?_⟩
    have ht := hρ t
    rwa [rename_refl] at ht

def threeVars : Ty := .tuple [.var ⟨0⟩, .var ⟨1⟩, .var ⟨2⟩]

/-- The three variables moved by one place, with a pair around the one that comes last. -/
def movedVars : Ty := .tuple [.var ⟨1⟩, .var ⟨2⟩, .tuple [.var ⟨0⟩, number]]

/-- The variables are chained, and the one at the end of the chain is bound to a pair that it is
in; which one that is depends on the order. -/
theorem unification_symmetric_cyclic :
    ∃ s s', Returns threeVars movedVars (.ok s) ∧ Returns movedVars threeVars (.ok s') ∧
      s.apply (.var ⟨1⟩) = .tuple [.var ⟨2⟩, number] ∧
      s'.apply (.var ⟨1⟩) = .tuple [.var ⟨0⟩, number] ∧
      ∃ ρ : Equiv.Perm TyVar, ∀ t, s'.apply t = (s.apply t).rename ρ := by
  have hs : Returns threeVars movedVars _ := returns_iff.2 ⟨2, rfl⟩
  have hs' : Returns movedVars threeVars _ := returns_iff.2 ⟨2, rfl⟩
  exact ⟨_, _, hs, hs', rfl, rfl, (unification_symmetric threeVars movedVars).2.2.2.2 _ _ hs hs'⟩

end Unification

end SemanticAnalysis
