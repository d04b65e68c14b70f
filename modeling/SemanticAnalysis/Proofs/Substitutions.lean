import SemanticAnalysis.Proofs.Agreement
import SemanticAnalysis.Types.Substitution

/-!
Replacement of variables by types. A substitution is a finite map, and applying
it is the replacement by what it reads at each variable; the laws are stated for
replacement by an arbitrary assignment and carried over. Replacement respects
agreement, both of the types it acts on and of the assignments.
-/

namespace SemanticAnalysis

namespace Ty

mutual

def replace (f : TyVar → Ty) : Ty → Ty
  | .var v => f v
  | .tuple items => .tuple (replaceAll f items)
  | .union items => .union (replaceAll f items)
  | .fn input output => .fn (replace f input) (replace f output)
  | t => t

def replaceAll (f : TyVar → Ty) : List Ty → List Ty
  | [] => []
  | t :: rest => replace f t :: replaceAll f rest

end

section Replacement

variable {f g : TyVar → Ty}

section Equations

attribute [local simp] replace replaceAll

theorem replaceAll_eq_map (f : TyVar → Ty) (items : List Ty) :
    replaceAll f items = items.map (replace f) := by
  induction items with
  | nil => rfl
  | cons t rest ih => simp [ih]

@[simp]
theorem replace_var (v : TyVar) : (Ty.var v).replace f = f v := by
  simp

@[simp]
theorem replace_tuple (items : List Ty) :
    (Ty.tuple items).replace f = .tuple (items.map (replace f)) := by
  simp [replaceAll_eq_map]

@[simp]
theorem replace_union (items : List Ty) :
    (Ty.union items).replace f = .union (items.map (replace f)) := by
  simp [replaceAll_eq_map]

@[simp]
theorem replace_fn (i o : Ty) : (Ty.fn i o).replace f = .fn (i.replace f) (o.replace f) := by
  simp

theorem replace_leaf {t : Ty} (h : t.isLeaf) : t.replace f = t := by
  cases t <;> simp_all [isLeaf]

end Equations

theorem replace_congr {t : Ty} (h : ∀ v ∈ t.vars, f v = g v) : t.replace f = t.replace g := by
  induction t with
  | var v => simpa using h v (mem_vars_var.2 rfl)
  | leaf t ht => rw [replace_leaf ht, replace_leaf ht]
  | tuple items ih =>
    simp only [replace_tuple, tuple.injEq, List.map_inj_left]
    exact fun t ht => ih t ht fun v hv => h v (mem_vars_tuple.2 ⟨t, ht, hv⟩)
  | union items ih =>
    simp only [replace_union, union.injEq, List.map_inj_left]
    exact fun t ht => ih t ht fun v hv => h v (mem_vars_union.2 ⟨t, ht, hv⟩)
  | fn input output ihi iho =>
    rw [replace_fn, replace_fn, ihi fun v hv => h v (mem_vars_fn.2 (Or.inl hv)),
      iho fun v hv => h v (mem_vars_fn.2 (Or.inr hv))]

@[simp]
theorem replace_id (t : Ty) : t.replace Ty.var = t := by
  induction t with
  | var v => simp
  | leaf t ht => exact replace_leaf ht
  | tuple items ih => rw [replace_tuple, List.map_congr_left ih, List.map_id']
  | union items ih => rw [replace_union, List.map_congr_left ih, List.map_id']
  | fn input output ihi iho => rw [replace_fn, ihi, iho]

theorem replace_eq_self {t : Ty} (h : ∀ v ∈ t.vars, f v = .var v) : t.replace f = t := by
  rw [replace_congr h, replace_id]

theorem replace_replace (f g : TyVar → Ty) (t : Ty) :
    (t.replace f).replace g = t.replace fun v => (f v).replace g := by
  induction t with
  | var v => simp
  | leaf t ht => simp [replace_leaf ht]
  | tuple items ih => simpa using ih
  | union items ih => simpa using ih
  | fn input output ihi iho => simp [ihi, iho]

/-- The variables after a replacement are those of what was put in. -/
theorem mem_vars_replace {t : Ty} {w : TyVar} :
    w ∈ (t.replace f).vars ↔ ∃ v ∈ t.vars, w ∈ (f v).vars := by
  induction t with
  | var v => simp [mem_vars_var]
  | leaf t ht => simp [replace_leaf ht, vars_leaf ht]
  | tuple items ih =>
    simp only [replace_tuple, mem_vars_tuple, List.mem_map]
    constructor
    · rintro ⟨_, ⟨t, ht, rfl⟩, hw⟩
      obtain ⟨v, hv, hwv⟩ := (ih t ht).1 hw
      exact ⟨v, ⟨t, ht, hv⟩, hwv⟩
    · rintro ⟨v, ⟨t, ht, hv⟩, hwv⟩
      exact ⟨_, ⟨t, ht, rfl⟩, (ih t ht).2 ⟨v, hv, hwv⟩⟩
  | union items ih =>
    simp only [replace_union, mem_vars_union, List.mem_map]
    constructor
    · rintro ⟨_, ⟨t, ht, rfl⟩, hw⟩
      obtain ⟨v, hv, hwv⟩ := (ih t ht).1 hw
      exact ⟨v, ⟨t, ht, hv⟩, hwv⟩
    · rintro ⟨v, ⟨t, ht, hv⟩, hwv⟩
      exact ⟨_, ⟨t, ht, rfl⟩, (ih t ht).2 ⟨v, hv, hwv⟩⟩
  | fn input output ihi iho =>
    simp only [replace_fn, mem_vars_fn, ihi, iho]
    constructor
    · rintro (⟨v, hv, hw⟩ | ⟨v, hv, hw⟩)
      · exact ⟨v, Or.inl hv, hw⟩
      · exact ⟨v, Or.inr hv, hw⟩
    · rintro ⟨v, hv | hv, hw⟩
      · exact Or.inl ⟨v, hv, hw⟩
      · exact Or.inr ⟨v, hv, hw⟩

end Replacement

section AgreementUnderReplacement

variable {f g : TyVar → Ty}

/-- Assignments that agree at the variables of a type replace it by types that agree. -/
theorem agrees_replace_congr {t : Ty} (h : ∀ v ∈ t.vars, Agrees (f v) (g v)) :
    Agrees (t.replace f) (t.replace g) := by
  induction t with
  | var v => simpa using h v (mem_vars_var.2 rfl)
  | leaf t ht => rw [replace_leaf ht, replace_leaf ht]
  | tuple items ih =>
    simp only [replace_tuple, agrees_tuple_iff, List.forall₂_map_left_iff,
      List.forall₂_map_right_iff]
    exact List.forall₂_same.2 fun t ht => ih t ht fun v hv => h v (mem_vars_tuple.2 ⟨t, ht, hv⟩)
  | union items ih =>
    have hitem : ∀ t ∈ items, Agrees (t.replace f) (t.replace g) :=
      fun t ht => ih t ht fun v hv => h v (mem_vars_union.2 ⟨t, ht, hv⟩)
    simp only [replace_union, agrees_union_iff, List.forall_mem_map]
    exact ⟨fun t ht => ⟨_, List.mem_map_of_mem ht, hitem t ht⟩,
      fun t ht => ⟨_, List.mem_map_of_mem ht, hitem t ht⟩⟩
  | fn input output ihi iho =>
    simp only [replace_fn, agrees_fn_iff]
    exact ⟨ihi fun v hv => h v (mem_vars_fn.2 (Or.inl hv)),
      iho fun v hv => h v (mem_vars_fn.2 (Or.inr hv))⟩

/-- Replacement in types that agree gives types that agree. -/
theorem Agrees.replace {a b : Ty} (h : Agrees a b) : Agrees (a.replace f) (b.replace f) := by
  induction a generalizing b with
  | var v => rw [agrees_var_left.1 h]
  | leaf a ha => rwa [replace_leaf ha, replace_leaf (isLeaf_of_agrees ha h)]
  | tuple items ih =>
    obtain ⟨ys, rfl, hys⟩ := agrees_tuple_left h
    simp only [replace_tuple, agrees_tuple_iff, List.forall₂_map_left_iff,
      List.forall₂_map_right_iff]
    rw [List.forall₂_iff_zip] at hys ⊢
    exact ⟨hys.1, fun hmem => ih _ (List.of_mem_zip hmem).1 (hys.2 hmem)⟩
  | union items ih =>
    obtain ⟨ys, rfl, hsub, hsup⟩ := agrees_union_left h
    simp only [replace_union, agrees_union_iff, List.forall_mem_map]
    constructor
    · intro x hx
      obtain ⟨y, hy, hxy⟩ := hsub x hx
      exact ⟨_, List.mem_map_of_mem hy, ih x hx hxy⟩
    · intro y hy
      obtain ⟨x, hx, hxy⟩ := hsup y hy
      exact ⟨_, List.mem_map_of_mem hx, ih x hx hxy⟩
  | fn input output ihi iho =>
    obtain ⟨i', o', rfl, hi, ho⟩ := agrees_fn_left h
    exact agrees_fn_iff.2 ⟨ihi hi, iho ho⟩

/-- A variable that occurs properly in a type is replaced by something lower. -/
theorem eq_var_or_height_lt_replace {t : Ty} {v : TyVar} (hv : v ∈ t.vars) :
    t = .var v ∨ (f v).height < (t.replace f).height := by
  induction t with
  | var w => exact Or.inl (congrArg Ty.var (mem_vars_var.1 hv).symm)
  | leaf t ht => simp [vars_leaf ht] at hv
  | tuple items ih =>
    right
    obtain ⟨t, ht, hvt⟩ := mem_vars_tuple.1 hv
    have hle := height_le_heights (List.mem_map_of_mem (f := replace f) ht)
    simp only [replace_tuple, height]
    rcases ih t ht hvt with rfl | hlt
    · rw [replace_var] at hle
      omega
    · omega
  | union items ih =>
    right
    obtain ⟨t, ht, hvt⟩ := mem_vars_union.1 hv
    have hle := height_le_heights (List.mem_map_of_mem (f := replace f) ht)
    simp only [replace_union, height]
    rcases ih t ht hvt with rfl | hlt
    · rw [replace_var] at hle
      omega
    · omega
  | fn input output ihi iho =>
    right
    simp only [replace_fn, height]
    rcases mem_vars_fn.1 hv with hv | hv
    · rcases ihi hv with rfl | hlt
      · rw [replace_var]
        omega
      · omega
    · rcases iho hv with rfl | hlt
      · rw [replace_var]
        omega
      · omega

end AgreementUnderReplacement

section Renaming

variable {f : TyVar → TyVar} {a b t : Ty} {v : TyVar}

/-- A renaming that keeps variables apart can be undone. -/
theorem exists_undo (hf : f.Injective) : ∃ g : TyVar → TyVar,
    ∀ t : Ty, (t.replace fun v => .var (f v)).replace (fun v => .var (g v)) = t := by
  obtain ⟨g, hg⟩ := hf.hasLeftInverse
  refine ⟨g, fun t => ?_⟩
  rw [replace_replace]
  exact replace_eq_self fun v _ => by rw [replace_var, hg v]

theorem agrees_renamed_iff (hf : f.Injective) :
    Agrees (a.replace fun v => .var (f v)) (b.replace fun v => .var (f v)) ↔ Agrees a b := by
  constructor
  · intro h
    obtain ⟨g, hg⟩ := exists_undo hf
    have hback := h.replace (f := fun v => .var (g v))
    rwa [hg, hg] at hback
  · exact Agrees.replace

theorem occurs_renamed (hf : f.Injective) :
    (t.replace fun v => .var (f v)).occurs (f v) = t.occurs v := by
  induction t with
  | var w => simp [occurs, hf.eq_iff]
  | leaf t ht => rw [replace_leaf ht, occurs_leaf ht, occurs_leaf ht]
  | tuple items => simp [occurs]
  | union items => simp [occurs]
  | fn input output ihi iho => simp [occurs, ihi, iho]

theorem renamed_ne_var (h : ∀ w, t ≠ .var w) (w : TyVar) :
    (t.replace fun v => .var (f v)) ≠ .var w := by
  cases t with
  | var v => exact absurd rfl (h v)
  | _ => simp [replace]

end Renaming

end Ty

namespace Subst

def read (s : Subst) (v : TyVar) : Ty := (OrderedMap.get? s v).getD (.var v)

/-- A substitution touches the variables it binds and those its replacements mention. -/
def Touches (s : Subst) (v : TyVar) : Prop :=
  s.contains v ∨ ∃ w t, OrderedMap.get? s w = some t ∧ v ∈ t.vars

theorem applyAll_eq_map (s : Subst) (items : List Ty) : applyAll s items = items.map s.apply := by
  induction items with
  | nil => rfl
  | cons t rest ih => simp [applyAll, ih]

/-- Applying a substitution is replacing each variable by what is read there. -/
theorem apply_eq_replace (s : Subst) (t : Ty) : s.apply t = t.replace s.read := by
  induction t with
  | var v => simp [apply, read]
  | leaf t ht => cases t <;> simp_all [apply, Ty.isLeaf, Ty.replace]
  | tuple items ih => simpa [apply, applyAll_eq_map] using ih
  | union items ih => simpa [apply, applyAll_eq_map] using ih
  | fn input output ihi iho => simp [apply, ihi, iho]

section Reading

theorem apply_var (s : Subst) (v : TyVar) : s.apply (.var v) = s.read v := by
  simp [apply_eq_replace]

theorem read_of_get? {s : Subst} {v : TyVar} {t : Ty} (h : OrderedMap.get? s v = some t) :
    s.read v = t := by
  simp [read, h]

theorem read_of_not_contains {s : Subst} {v : TyVar} (h : s.contains v = false) :
    s.read v = .var v := by
  simp [read, OrderedMap.get?_eq_none_iff.2 h]

theorem touches_of_read {s : Subst} {v w : TyVar} (hw : w ∈ (s.read v).vars) :
    w = v ∨ s.Touches w := by
  cases h : OrderedMap.get? s v with
  | none =>
    rw [read_of_not_contains (OrderedMap.get?_eq_none_iff.1 h)] at hw
    exact Or.inl (Ty.mem_vars_var.1 hw)
  | some t =>
    rw [read_of_get? h] at hw
    exact Or.inr (Or.inr ⟨v, t, h, hw⟩)

theorem read_of_not_touches {s : Subst} {v : TyVar} (h : ¬ s.Touches v) : s.read v = .var v :=
  read_of_not_contains (by simpa using fun hv => h (Or.inl hv))

theorem read_empty (v : TyVar) : empty.read v = .var v := rfl

theorem read_single (v w : TyVar) (t : Ty) :
    (single v t).read w = if v = w then t else .var w := by
  by_cases h : v = w <;> simp [read, single, OrderedMap.get?_insert, h]

theorem get?_compose (s r : Subst) (v : TyVar) :
    OrderedMap.get? (s.compose r) v =
      ((OrderedMap.get? r v).map s.apply).or (OrderedMap.get? s v) := by
  simp [compose, OrderedMap.get?_insertMissing]

theorem read_compose (s r : Subst) (v : TyVar) : (s.compose r).read v = s.apply (r.read v) := by
  cases h : OrderedMap.get? r v with
  | none =>
    have hr : r.read v = .var v := by simp [read, h]
    rw [hr, apply_var]
    simp [read, get?_compose, h]
  | some t => simp [read, get?_compose, h]

theorem get?_without (s : Subst) (drop : TyVar → Bool) (v : TyVar) :
    OrderedMap.get? (s.without drop) v = if drop v then none else OrderedMap.get? s v := by
  by_cases h : drop v <;> simp [without, OrderedMap.get?_filterKeys, h]

theorem read_without (s : Subst) (drop : TyVar → Bool) (v : TyVar) :
    (s.without drop).read v = if drop v then .var v else s.read v := by
  by_cases h : drop v <;> simp [read, get?_without, h]

def tabulate (vs : List TyVar) (f : TyVar → Ty) : Subst :=
  OrderedMap.ofList (vs.map fun v => (v, f v))

theorem get?_tabulate (vs : List TyVar) (f : TyVar → Ty) (v : TyVar) :
    OrderedMap.get? (tabulate vs f) v = if v ∈ vs then some (f v) else none := by
  by_cases hv : v ∈ vs
  · rw [if_pos hv]
    refine OrderedMap.get?_insertAll_of_mem (List.mem_map.2 ⟨v, hv, rfl⟩) ?_
    simp only [List.mem_map, Prod.mk.injEq]
    rintro other ⟨w, -, rfl, rfl⟩
    rfl
  · rw [if_neg hv]
    refine OrderedMap.get?_insertAll_of_not_mem ?_
    simp only [List.mem_map]
    rintro p ⟨w, hw, rfl⟩ rfl
    exact hv hw

theorem read_tabulate {vs : List TyVar} {f : TyVar → Ty} {v : TyVar} (hv : v ∈ vs) :
    (tabulate vs f).read v = f v := by
  simp [read, get?_tabulate, hv]

end Reading

section Application

theorem apply_empty (t : Ty) : empty.apply t = t := by
  rw [apply_eq_replace]
  exact Ty.replace_eq_self fun v _ => read_empty v

/-- A composition acts as its second part first and its first part second. -/
theorem apply_compose (s r : Subst) (t : Ty) : (s.compose r).apply t = s.apply (r.apply t) := by
  simp only [apply_eq_replace, Ty.replace_replace]
  refine Ty.replace_congr fun v _ => ?_
  rw [read_compose, apply_eq_replace]

theorem compose_assoc (s r q : Subst) : (s.compose r).compose q = s.compose (r.compose q) := by
  apply OrderedMap.ext_get?
  intro v
  rw [get?_compose, get?_compose, get?_compose, get?_compose]
  cases OrderedMap.get? q v with
  | none => rfl
  | some t => simp [apply_compose]

theorem compose_empty (s : Subst) : s.compose empty = s := by
  apply OrderedMap.ext_get?
  intro v
  simp [get?_compose, empty]

theorem empty_compose (s : Subst) : empty.compose s = s := by
  apply OrderedMap.ext_get?
  intro v
  rw [get?_compose]
  cases OrderedMap.get? s v with
  | none => rfl
  | some t => rw [Option.map_some, apply_empty, Option.some_or]

theorem agrees_apply (s : Subst) {a b : Ty} (h : Ty.Agrees a b) :
    Ty.Agrees (s.apply a) (s.apply b) := by
  simpa only [apply_eq_replace] using h.replace

theorem apply_of_closed {t : Ty} (h : t.vars = []) (s : Subst) : s.apply t = t := by
  rw [apply_eq_replace]
  exact Ty.replace_eq_self (by simp [h])

theorem apply_fn (s : Subst) (i o : Ty) : s.apply (.fn i o) = .fn (s.apply i) (s.apply o) := by
  simp [apply]

theorem apply_tuple (s : Subst) (items : List Ty) :
    s.apply (.tuple items) = .tuple (items.map s.apply) := by
  simp [apply, applyAll_eq_map]

theorem mem_vars_apply {s : Subst} {t : Ty} {w : TyVar} :
    w ∈ (s.apply t).vars ↔ ∃ v ∈ t.vars, w ∈ (s.read v).vars := by
  rw [apply_eq_replace, Ty.mem_vars_replace]

theorem single_apply_var (v : TyVar) (t : Ty) : (single v t).apply (.var v) = t := by
  simp [apply_var, read_single]

theorem single_apply_of_not_mem {v : TyVar} {t u : Ty} (hv : v ∉ u.vars) :
    (single v t).apply u = u := by
  rw [apply_eq_replace]
  refine Ty.replace_eq_self fun w hw => ?_
  have hvw : v ≠ w := by
    intro heq
    exact hv (heq ▸ hw)
  simp [read_single, hvw]

theorem mem_or_touches_of_mem_apply {s : Subst} {t : Ty} {w : TyVar}
    (h : w ∈ (s.apply t).vars) : w ∈ t.vars ∨ s.Touches w := by
  obtain ⟨v, hv, hw⟩ := mem_vars_apply.1 h
  rcases touches_of_read hw with rfl | ht
  · exact Or.inl hv
  · exact Or.inr ht

end Application

section Touching

theorem not_touches_empty (v : TyVar) : ¬ empty.Touches v := by
  simp [Touches, empty]

theorem touches_single {v w : TyVar} {t : Ty} (h : (single v t).Touches w) :
    w = v ∨ w ∈ t.vars := by
  rcases h with h | ⟨u, r, hr, hw⟩
  · simp only [single, OrderedMap.contains_insert, OrderedMap.contains_empty, Bool.or_false,
      decide_eq_true_eq] at h
    exact Or.inl h.symm
  · simp only [single, OrderedMap.get?_insert, OrderedMap.get?_empty] at hr
    split at hr
    · exact Or.inr (Option.some.inj hr ▸ hw)
    · simp at hr

/-- A composition touches what one of its parts touches. -/
theorem touches_compose {s r : Subst} {v : TyVar} (h : (s.compose r).Touches v) :
    s.Touches v ∨ r.Touches v := by
  have hget : ∀ {w t}, OrderedMap.get? (s.compose r) w = some t →
      (∃ u, OrderedMap.get? r w = some u ∧ s.apply u = t) ∨ OrderedMap.get? s w = some t := by
    intro w t ht
    rw [get?_compose, Option.or_eq_some_iff, Option.map_eq_some_iff] at ht
    exact ht.imp_right And.right
  rcases h with h | ⟨w, t, ht, hv⟩
  · obtain ⟨t, ht⟩ := OrderedMap.contains_iff.1 h
    rcases hget ht with ⟨u, hu, -⟩ | hs
    · exact Or.inr (Or.inl (OrderedMap.contains_iff.2 ⟨u, hu⟩))
    · exact Or.inl (Or.inl (OrderedMap.contains_iff.2 ⟨t, hs⟩))
  · rcases hget ht with ⟨u, hu, rfl⟩ | hs
    · rcases mem_or_touches_of_mem_apply hv with hv | hv
      · exact Or.inr (Or.inr ⟨w, u, hu, hv⟩)
      · exact Or.inl hv
    · exact Or.inl (Or.inr ⟨w, t, hs, hv⟩)

end Touching

end Subst

/-- Comparison of types is a congruence, although it takes unions as sets and nominal types by
name: it is an equivalence, and types that it finds the same stay so under every substitution and
have the same variables, free and below functions. -/
theorem comparison_congruence :
    Equivalence (fun a b : Ty => a.same b = true) ∧
    (∀ xs ys : List Ty, (Ty.union xs).same (.union ys) ↔
      (∀ x ∈ xs, ∃ y ∈ ys, y.same x) ∧ ∀ y ∈ ys, ∃ x ∈ xs, x.same y) ∧
    (∀ m n : Nominal, (Ty.struct m).same (.struct n) ↔ m.name = n.name) ∧
    (∀ (m n : Nominal) (ts us : List Ty), (Ty.enum m ts).same (.enum n us) ↔ m.name = n.name) ∧
    ∀ a b : Ty, a.same b → (∀ s : Subst, (s.apply a).same (s.apply b)) ∧
      a.freeVars = b.freeVars ∧ ∀ v, a.occurs v = b.occurs v := by
  refine ⟨⟨Ty.Agrees.refl, Ty.Agrees.symm, Ty.Agrees.trans⟩, fun xs ys => ?_,
    fun m n => Ty.agrees_struct_iff, fun m n ts us => Ty.agrees_enum_iff, fun a b h => ?_⟩
  · refine Ty.agrees_union_iff.trans (and_congr_left' ?_)
    exact forall₂_congr fun x _ => exists_congr fun y =>
      and_congr_right' ⟨Ty.Agrees.symm, Ty.Agrees.symm⟩
  · have hag : Ty.Agrees a b := h
    exact ⟨fun s => s.agrees_apply hag, hag.freeVars_eq, hag.occurs_eq⟩

/-- A function that returns a struct, which is known by its name wherever it is declared. -/
def returning (decl : NodeId) : Ty := .fn (.var ⟨0⟩) (.struct ⟨⟨0⟩, decl, none⟩)

theorem comparison_congruence_nested :
    let a : Ty := .union [.tuple [.union [returning ⟨1⟩, .bottom]], .var ⟨1⟩]
    let b : Ty := .union [.var ⟨1⟩, .tuple [.union [.bottom, returning ⟨2⟩, .bottom]], .var ⟨1⟩]
    a.same b ∧ (∀ s : Subst, (s.apply a).same (s.apply b)) ∧ a.freeVars = b.freeVars := by
  intro a b
  have hsame : a.same b := by decide
  obtain ⟨hsubst, hvars, -⟩ := comparison_congruence.2.2.2.2 a b hsame
  exact ⟨hsame, hsubst, hvars⟩

end SemanticAnalysis
