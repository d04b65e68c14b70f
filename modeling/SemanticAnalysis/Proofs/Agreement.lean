import Mathlib.Data.List.Forall2
import SemanticAnalysis.Proofs.Lookups
import SemanticAnalysis.Types.Basic

/-!
Agreement of types is an equivalence that sees the variables of a type and its
height. It does not see the order or the repetitions of a union, nor what a
nominal type holds, so the number of nodes of a type is no invariant of it; the
height is, and a type is strictly higher than its proper parts.
-/

namespace SemanticAnalysis

namespace Ty

/-- A type without parts that other types could take the place of. -/
def isLeaf : Ty → Bool
  | .var _ => false
  | .tuple _ => false
  | .union _ => false
  | .fn _ _ => false
  | _ => true

/-- Induction over types with all leaves in one case. -/
@[elab_as_elim, induction_eliminator]
theorem inductionOn {motive : Ty → Prop} (t : Ty) (var : ∀ v, motive (.var v))
    (leaf : ∀ t, t.isLeaf → motive t)
    (tuple : ∀ items, (∀ t ∈ items, motive t) → motive (.tuple items))
    (union : ∀ items, (∀ t ∈ items, motive t) → motive (.union items))
    (fn : ∀ input output, motive input → motive output → motive (.fn input output)) :
    motive t :=
  match t with
  | .var v => var v
  | .tuple items => tuple items fun t _ => inductionOn t var leaf tuple union fn
  | .union items => union items fun t _ => inductionOn t var leaf tuple union fn
  | .fn input output =>
    fn input output (inductionOn input var leaf tuple union fn)
      (inductionOn output var leaf tuple union fn)
  | .prim p => leaf (.prim p) rfl
  | .struct nominal => leaf (.struct nominal) rfl
  | .interface name => leaf (.interface name) rfl
  | .enum nominal tags => leaf (.enum nominal tags) rfl
  | .bottom => leaf .bottom rfl

def Agrees (a b : Ty) : Prop := a.same b = true

instance (a b : Ty) : Decidable (Agrees a b) := inferInstanceAs (Decidable (_ = _))

section Comparison

attribute [local simp] same sameEach eachAmong amongSame

theorem sameEach_iff {xs ys : List Ty} : sameEach xs ys ↔ List.Forall₂ Agrees xs ys := by
  induction xs generalizing ys with
  | nil => cases ys <;> simp
  | cons x xs ih =>
    cases ys with
    | nil => simp
    | cons y ys => simp [ih, Agrees]

theorem eachAmong_iff {xs ys : List Ty} :
    eachAmong xs ys ↔ ∀ x ∈ xs, ∃ y ∈ ys, Agrees x y := by
  induction xs with
  | nil => simp
  | cons x xs ih => simp [ih, Agrees]

theorem amongSame_iff {xs : List Ty} {y : Ty} : amongSame xs y ↔ ∃ x ∈ xs, Agrees x y := by
  induction xs with
  | nil => simp
  | cons x xs ih => simp [ih, Agrees]

@[simp]
theorem agrees_fn_iff {i o i' o' : Ty} :
    Agrees (.fn i o) (.fn i' o') ↔ Agrees i i' ∧ Agrees o o' := by
  simp [Agrees]

@[simp]
theorem agrees_tuple_iff {xs ys : List Ty} :
    Agrees (.tuple xs) (.tuple ys) ↔ List.Forall₂ Agrees xs ys := by
  simp [Agrees, sameEach_iff]

@[simp]
theorem agrees_union_iff {xs ys : List Ty} :
    Agrees (.union xs) (.union ys) ↔
      (∀ x ∈ xs, ∃ y ∈ ys, Agrees x y) ∧ ∀ y ∈ ys, ∃ x ∈ xs, Agrees x y := by
  simp [Agrees, eachAmong_iff, amongSame_iff]

@[simp]
theorem agrees_struct_iff {m n : Nominal} :
    Agrees (.struct m) (.struct n) ↔ m.name = n.name := by
  simp [Agrees]

@[simp]
theorem agrees_enum_iff {m n : Nominal} {ts us : List Ty} :
    Agrees (.enum m ts) (.enum n us) ↔ m.name = n.name := by
  simp [Agrees]

theorem agrees_var_left {v : TyVar} {b : Ty} : Agrees (.var v) b ↔ b = .var v := by
  cases b <;> simp [Agrees, eq_comm]

theorem agrees_fn_left {i o b : Ty} (h : Agrees (.fn i o) b) :
    ∃ i' o', b = .fn i' o' ∧ Agrees i i' ∧ Agrees o o' := by
  cases b with
  | fn i' o' => exact ⟨i', o', rfl, agrees_fn_iff.1 h⟩
  | _ => simp [Agrees] at h

theorem agrees_tuple_left {xs : List Ty} {b : Ty} (h : Agrees (.tuple xs) b) :
    ∃ ys, b = .tuple ys ∧ List.Forall₂ Agrees xs ys := by
  cases b with
  | tuple ys => exact ⟨ys, rfl, agrees_tuple_iff.1 h⟩
  | _ => simp [Agrees] at h

theorem agrees_union_left {xs : List Ty} {b : Ty} (h : Agrees (.union xs) b) :
    ∃ ys, b = .union ys ∧
      (∀ x ∈ xs, ∃ y ∈ ys, Agrees x y) ∧ ∀ y ∈ ys, ∃ x ∈ xs, Agrees x y := by
  cases b with
  | union ys => exact ⟨ys, rfl, agrees_union_iff.1 h⟩
  | _ => simp [Agrees] at h

theorem isLeaf_of_agrees {a b : Ty} (ha : a.isLeaf) (h : Agrees a b) : b.isLeaf := by
  cases a <;> cases b <;> simp_all [Agrees, isLeaf]

end Comparison

section Equivalence

/-- Pairing of lists is transitive if each item of the first one allows it. -/
private theorem forall₂_trans_of_mem {xs ys zs : List Ty}
    (hx : ∀ x ∈ xs, ∀ y z, Agrees x y → Agrees y z → Agrees x z)
    (hxy : List.Forall₂ Agrees xs ys) (hyz : List.Forall₂ Agrees ys zs) :
    List.Forall₂ Agrees xs zs := by
  induction hxy generalizing zs with
  | nil => exact hyz
  | cons hab _ ih =>
    rcases hyz with _ | ⟨hbc, hrest⟩
    refine .cons (hx _ (List.mem_cons_self ..) _ _ hab hbc) (ih ?_ hrest)
    exact fun x hmem => hx x (List.mem_cons_of_mem _ hmem)

private theorem forall₂_symm_of_mem {xs ys : List Ty}
    (hx : ∀ x ∈ xs, ∀ y, Agrees x y → Agrees y x) (hxy : List.Forall₂ Agrees xs ys) :
    List.Forall₂ Agrees ys xs := by
  induction hxy with
  | nil => exact .nil
  | cons hab _ ih =>
    refine .cons (hx _ (List.mem_cons_self ..) _ hab) (ih ?_)
    exact fun x hmem => hx x (List.mem_cons_of_mem _ hmem)

@[refl, simp]
theorem Agrees.refl (a : Ty) : Agrees a a := by
  induction a with
  | var v => exact agrees_var_left.2 rfl
  | leaf a ha => cases a <;> simp_all [Agrees, same, isLeaf]
  | tuple items ih => exact agrees_tuple_iff.2 (List.forall₂_same.2 ih)
  | union items ih =>
    refine agrees_union_iff.2 ⟨fun x hx => ⟨x, hx, ih x hx⟩, fun x hx => ⟨x, hx, ih x hx⟩⟩
  | fn input output ihi iho => exact agrees_fn_iff.2 ⟨ihi, iho⟩

@[symm]
theorem Agrees.symm {a b : Ty} (h : Agrees a b) : Agrees b a := by
  induction a generalizing b with
  | var v =>
    rw [agrees_var_left.1 h]
  | leaf a ha =>
    cases a <;> simp only [isLeaf, Bool.false_eq_true] at ha <;>
      cases b <;> simp_all [Agrees, same]
  | tuple items ih =>
    obtain ⟨ys, rfl, hys⟩ := agrees_tuple_left h
    exact agrees_tuple_iff.2 (forall₂_symm_of_mem (fun x hx _ => ih x hx) hys)
  | union items ih =>
    obtain ⟨ys, rfl, hsub, hsup⟩ := agrees_union_left h
    refine agrees_union_iff.2 ⟨fun y hy => ?_, fun x hx => ?_⟩
    · obtain ⟨x, hx, hxy⟩ := hsup y hy
      exact ⟨x, hx, ih x hx hxy⟩
    · obtain ⟨y, hy, hxy⟩ := hsub x hx
      exact ⟨y, hy, ih x hx hxy⟩
  | fn input output ihi iho =>
    obtain ⟨i', o', rfl, hi, ho⟩ := agrees_fn_left h
    exact agrees_fn_iff.2 ⟨ihi hi, iho ho⟩

/-- Agreement is transitive. In unions each item is passed on through an item of the middle one. -/
@[trans]
theorem Agrees.trans {a b c : Ty} (hab : Agrees a b) (hbc : Agrees b c) : Agrees a c := by
  induction a generalizing b c with
  | var v => rwa [agrees_var_left.1 hab] at hbc
  | leaf a ha =>
    -- the kind of the first leaf fixes the kind of the second, and that the kind of the third
    cases a <;> simp only [isLeaf, Bool.false_eq_true] at ha <;>
      cases b <;> simp only [Agrees, same, Bool.false_eq_true] at hab <;>
        cases c <;> simp_all [Agrees, same]
  | tuple items ih =>
    obtain ⟨ys, rfl, hys⟩ := agrees_tuple_left hab
    obtain ⟨zs, rfl, hzs⟩ := agrees_tuple_left hbc
    exact agrees_tuple_iff.2 (forall₂_trans_of_mem (fun x hx _ _ => ih x hx) hys hzs)
  | union items ih =>
    obtain ⟨ys, rfl, hsub, hsup⟩ := agrees_union_left hab
    obtain ⟨zs, rfl, hsub', hsup'⟩ := agrees_union_left hbc
    refine agrees_union_iff.2 ⟨fun x hx => ?_, fun z hz => ?_⟩
    · obtain ⟨y, hy, hxy⟩ := hsub x hx
      obtain ⟨z, hz, hyz⟩ := hsub' y hy
      exact ⟨z, hz, ih x hx hxy hyz⟩
    · obtain ⟨y, hy, hyz⟩ := hsup' z hz
      obtain ⟨x, hx, hxy⟩ := hsup y hy
      exact ⟨x, hx, ih x hx hxy hyz⟩
  | fn input output ihi iho =>
    obtain ⟨i', o', rfl, hi, ho⟩ := agrees_fn_left hab
    obtain ⟨i'', o'', rfl, hi', ho'⟩ := agrees_fn_left hbc
    exact agrees_fn_iff.2 ⟨ihi hi hi', iho ho ho'⟩

instance : Trans Agrees Agrees Agrees := ⟨Agrees.trans⟩

end Equivalence

section Variables

attribute [local simp] vars varsAll

@[simp]
theorem mem_varsAll {v : TyVar} {items : List Ty} :
    v ∈ varsAll items ↔ ∃ t ∈ items, v ∈ t.vars := by
  induction items with
  | nil => simp
  | cons t rest ih => simp [ih]

theorem mem_vars_var {v w : TyVar} : v ∈ (Ty.var w).vars ↔ v = w := by
  simp

theorem mem_vars_fn {v : TyVar} {i o : Ty} : v ∈ (Ty.fn i o).vars ↔ v ∈ i.vars ∨ v ∈ o.vars := by
  simp

theorem mem_vars_tuple {v : TyVar} {items : List Ty} :
    v ∈ (Ty.tuple items).vars ↔ ∃ t ∈ items, v ∈ t.vars := by
  simp

theorem mem_vars_union {v : TyVar} {items : List Ty} :
    v ∈ (Ty.union items).vars ↔ ∃ t ∈ items, v ∈ t.vars := by
  simp

theorem vars_leaf {t : Ty} (h : t.isLeaf) : t.vars = [] := by
  cases t <;> simp_all [isLeaf]

theorem contains_freeVars {v : TyVar} {t : Ty} : t.freeVars.contains v ↔ v ∈ t.vars := by
  simp [freeVars]

/-- Types that agree have the same variables. -/
theorem Agrees.mem_vars {a b : Ty} (h : Agrees a b) {v : TyVar} (hv : v ∈ a.vars) :
    v ∈ b.vars := by
  induction a generalizing b with
  | var w => rwa [agrees_var_left.1 h]
  | leaf a ha => simp [vars_leaf ha] at hv
  | tuple items ih =>
    obtain ⟨ys, rfl, hys⟩ := agrees_tuple_left h
    obtain ⟨x, hx, hvx⟩ := mem_vars_tuple.1 hv
    obtain ⟨i, hi, rfl⟩ := List.getElem_of_mem hx
    have hi' : i < ys.length := hys.length_eq ▸ hi
    exact mem_vars_tuple.2 ⟨ys[i], List.getElem_mem hi', ih _ hx (hys.get hi hi') hvx⟩
  | union items ih =>
    obtain ⟨ys, rfl, hsub, -⟩ := agrees_union_left h
    obtain ⟨x, hx, hvx⟩ := mem_vars_union.1 hv
    obtain ⟨y, hy, hxy⟩ := hsub x hx
    exact mem_vars_union.2 ⟨y, hy, ih x hx hxy hvx⟩
  | fn input output ihi iho =>
    obtain ⟨i', o', rfl, hi, ho⟩ := agrees_fn_left h
    rcases mem_vars_fn.1 hv with hv | hv
    · exact mem_vars_fn.2 (Or.inl (ihi hi hv))
    · exact mem_vars_fn.2 (Or.inr (iho ho hv))

theorem Agrees.freeVars_eq {a b : Ty} (h : Agrees a b) : a.freeVars = b.freeVars := by
  apply OrderedSet.ext_contains
  intro v
  rw [contains_freeVars, contains_freeVars]
  exact ⟨h.mem_vars, h.symm.mem_vars⟩

theorem occurs_leaf {t : Ty} (h : t.isLeaf) (v : TyVar) : t.occurs v = false := by
  cases t <;> simp_all [isLeaf, occurs]

/-- Types that agree have the same variables below functions. -/
theorem Agrees.occurs_eq {a b : Ty} (h : Agrees a b) (v : TyVar) : a.occurs v = b.occurs v := by
  induction a generalizing b with
  | var w => rw [agrees_var_left.1 h]
  | leaf a ha => rw [occurs_leaf ha, occurs_leaf (isLeaf_of_agrees ha h)]
  | tuple items _ =>
    obtain ⟨ys, rfl, -⟩ := agrees_tuple_left h
    rfl
  | union items _ =>
    obtain ⟨ys, rfl, -⟩ := agrees_union_left h
    rfl
  | fn input output ihi iho =>
    obtain ⟨i', o', rfl, hi, ho⟩ := agrees_fn_left h
    rw [occurs, occurs, ihi hi, iho ho]

end Variables

section Height

mutual

def height : Ty → Nat
  | .tuple items => heights items + 1
  | .union items => heights items + 1
  | .fn input output => max (height input) (height output) + 1
  | _ => 0

def heights : List Ty → Nat
  | [] => 0
  | t :: rest => max (height t) (heights rest)

end

theorem heights_le_iff {items : List Ty} {n : Nat} :
    heights items ≤ n ↔ ∀ t ∈ items, t.height ≤ n := by
  induction items with
  | nil => simp [heights]
  | cons t rest ih => rw [heights, Nat.max_le, ih, List.forall_mem_cons]

theorem height_le_heights {items : List Ty} {t : Ty} (h : t ∈ items) :
    t.height ≤ heights items := heights_le_iff.1 (Nat.le_refl _) t h

theorem height_leaf {t : Ty} (h : t.isLeaf) : t.height = 0 := by
  cases t <;> simp_all [height, isLeaf]

/-- A type is no higher than one it agrees with: the parts of each are matched by parts of the
other. -/
theorem Agrees.height_le {a b : Ty} (h : Agrees a b) : a.height ≤ b.height := by
  induction a generalizing b with
  | var v => exact Nat.le_of_eq (congrArg height (agrees_var_left.1 h).symm)
  | leaf a ha => simp [height_leaf ha]
  | tuple items ih =>
    obtain ⟨ys, rfl, hys⟩ := agrees_tuple_left h
    have hle : heights items ≤ heights ys := by
      refine heights_le_iff.2 fun x hx => ?_
      obtain ⟨i, hi, rfl⟩ := List.getElem_of_mem hx
      have hi' : i < ys.length := hys.length_eq ▸ hi
      exact Nat.le_trans (ih _ hx (hys.get hi hi')) (height_le_heights (List.getElem_mem hi'))
    simpa [height] using hle
  | union items ih =>
    obtain ⟨ys, rfl, hsub, -⟩ := agrees_union_left h
    have hle : heights items ≤ heights ys := by
      refine heights_le_iff.2 fun x hx => ?_
      obtain ⟨y, hy, hxy⟩ := hsub x hx
      exact Nat.le_trans (ih x hx hxy) (height_le_heights hy)
    simpa [height] using hle
  | fn input output ihi iho =>
    obtain ⟨i', o', rfl, hi, ho⟩ := agrees_fn_left h
    have := ihi hi
    have := iho ho
    simp only [height]
    omega

/-- Types that agree have the same height. -/
theorem Agrees.height_eq {a b : Ty} (h : Agrees a b) : a.height = b.height :=
  Nat.le_antisymm h.height_le h.symm.height_le

end Height

end Ty

end SemanticAnalysis
