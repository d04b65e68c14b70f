import SemanticAnalysis.Declarations.DeclaredType
import SemanticAnalysis.Proofs.Agreement
import SemanticAnalysis.Proofs.Computations
import SemanticAnalysis.Proofs.LinkedTrees

/-!
The types that type expressions stand for. They hold no variables, and in a
linked tree every type expression stands for one, so that neither a declaration
nor its signature can fail to be read.
-/

namespace SemanticAnalysis

section Lists

variable {ε α β : Type} {g : α → Except ε β}

theorem exists_mapM_ok {xs : List α} (h : ∀ x ∈ xs, ∃ y, g x = .ok y) :
    ∃ ys, xs.mapM g = .ok ys := by
  induction xs with
  | nil => exact ⟨[], rfl⟩
  | cons x rest ih =>
    obtain ⟨y, hy⟩ := h x (List.mem_cons_self ..)
    obtain ⟨ys, hys⟩ := ih fun z hz => h z (List.mem_cons_of_mem x hz)
    exact ⟨y :: ys, by simp [List.mapM_cons, hy, hys]; rfl⟩

theorem forall_of_mapM_ok {P : β → Prop} {xs : List α} {ys : List β} (h : xs.mapM g = .ok ys)
    (hP : ∀ x ∈ xs, ∀ y, g x = .ok y → P y) : ∀ y ∈ ys, P y := by
  induction xs generalizing ys with
  | nil =>
    cases h
    simp
  | cons x rest ih =>
    rw [List.mapM_cons] at h
    cases hx : g x with
    | error e =>
      rw [hx] at h
      cases h
    | ok y =>
      cases hrest : rest.mapM g with
      | error e =>
        rw [hx, hrest] at h
        cases h
      | ok zs =>
        rw [hx, hrest] at h
        cases h
        intro z hz
        rcases List.mem_cons.1 hz with rfl | hz
        · exact hP x (List.mem_cons_self ..) z hx
        · exact ih hrest (fun w hw => hP w (List.mem_cons_of_mem x hw)) z hz

end Lists

section Equations

variable {f : Forest} {n : NodeId}

theorem declaredType_enumDecl {name : Symbol} {entries : List NodeId}
    (hk : f.kind? n = some (.enumDecl name entries)) :
    declaredType f n = (do
      let tags ← entries.mapM (declaredType f)
      return .enum ⟨name, n, none⟩ tags) := by
  rw [declaredType]
  split <;> simp_all

theorem evalType_tupleType {items : List NodeId} (hk : f.kind? n = some (.tupleType items)) :
    evalType f n = (do return .tuple (← items.mapM (evalType f))) := by
  rw [evalType]
  split <;> simp_all

theorem evalType_unionType {items : List NodeId} (hk : f.kind? n = some (.unionType items)) :
    evalType f n = (do return .union (← items.mapM (evalType f))) := by
  rw [evalType]
  split <;> simp_all

theorem evalType_resolvedType {r : Reference} {d : NodeId}
    (hk : f.kind? n = some (.resolvedType r d)) : evalType f n = declaredType f d := by
  rw [evalType]
  split <;> simp_all

end Equations

section Closed

variable {f : Forest} {n : NodeId} {A : Ty}

/-- A type that was declared has no variables. -/
theorem vars_of_declaredType (h : declaredType f n = .ok A) : A.vars = [] := by
  rw [declaredType] at h
  split at h
  case h_4 name entries hk =>
    cases htags : entries.attach.mapM fun e => declaredType f e.1 with
    | error e =>
      simp only [htags] at h
      cases h
    | ok tags =>
      simp only [htags] at h
      cases h
      rfl
  case h_6 => cases h
  all_goals
    cases h
    rfl

/-- What has been read as a type is a tuple or a union of such, or refers to a declaration. -/
theorem evalType_cases (h : evalType f n = .ok A) :
    (∃ items ts, f.kind? n = some (.tupleType items) ∧ items.mapM (evalType f) = .ok ts ∧
        A = .tuple ts) ∨
      (∃ items ts, f.kind? n = some (.unionType items) ∧ items.mapM (evalType f) = .ok ts ∧
        A = .union ts) ∨
      ∃ r d, f.kind? n = some (.resolvedType r d) ∧ declaredType f d = .ok A := by
  have hmap : ∀ {items : List NodeId} {build : List Ty → Ty},
      (do return build (← items.mapM (evalType f)) : Except TypeExprError Ty) = .ok A →
      ∃ ts, items.mapM (evalType f) = .ok ts ∧ A = build ts := by
    intro items build hdo
    cases hts : items.mapM (evalType f) with
    | error e =>
      rw [hts] at hdo
      cases hdo
    | ok ts =>
      rw [hts] at hdo
      cases hdo
      exact ⟨ts, rfl, rfl⟩
  have hcopy := h
  rw [evalType] at hcopy
  split at hcopy
  case h_1 items hk =>
    rw [evalType_tupleType hk] at h
    obtain ⟨ts, hts, hA⟩ := hmap h
    exact Or.inl ⟨items, ts, hk, hts, hA⟩
  case h_2 items hk =>
    rw [evalType_unionType hk] at h
    obtain ⟨ts, hts, hA⟩ := hmap h
    exact Or.inr (Or.inl ⟨items, ts, hk, hts, hA⟩)
  case h_3 r d hk =>
    rw [evalType_resolvedType hk] at h
    exact Or.inr (Or.inr ⟨r, d, hk, h⟩)
  all_goals cases hcopy

/-- A type expression stands for a type without variables. -/
theorem vars_of_evalType (h : evalType f n = .ok A) : A.vars = [] := by
  induction n using Forest.childInduction (f := f) generalizing A with
  | step n ih =>
    have hitems : ∀ {k : Kind} {ts : List Ty}, f.kind? n = some k →
        k.children.mapM (evalType f) = .ok ts → Ty.varsAll ts = [] := by
      intro k ts hk hts
      have hclosed := forall_of_mapM_ok hts fun c hc A hA =>
        ih c (Forest.mem_children_of_kind hk hc) hA
      rw [List.eq_nil_iff_forall_not_mem]
      intro v hv
      obtain ⟨t, ht, hv⟩ := Ty.mem_varsAll.1 hv
      simp [hclosed t ht] at hv
    rcases evalType_cases h with ⟨items, ts, hk, hts, rfl⟩ | ⟨items, ts, hk, hts, rfl⟩ |
      ⟨r, d, hk, hd⟩
    · exact hitems hk hts
    · exact hitems hk hts
    · exact vars_of_declaredType hd

end Closed

section Success

variable {t : Tree} {n : NodeId} {k : Kind}

/-- In a well-formed tree whatever names a type has one. -/
theorem declaredType_ok (ht : t.WellFormed) (hk : t.kind? n = some k)
    (hnames : k.namesType = true) : ∃ A, declaredType t.toForest n = .ok A := by
  cases k <;> simp [Kind.namesType, Kind.isTypeDecl] at hnames
  case enumDecl name entries =>
    have hentries : ∀ e ∈ entries, ∃ A, declaredType t.toForest e = .ok A := by
      intro e he
      obtain ⟨-, ke, hke, hadmits⟩ := ht.child_fits hk
        (Kind.entry_mem_places.2 ⟨name, entries, rfl, he⟩)
      cases ke <;> simp [Role.admits] at hadmits
      rw [declaredType]
      split <;> simp_all
    obtain ⟨tags, htags⟩ := exists_mapM_ok hentries
    rw [declaredType_enumDecl hk, htags]
    exact ⟨_, rfl⟩
  all_goals
    rw [declaredType]
    split <;> simp_all

/-- In a linked tree every type expression stands for a type. -/
theorem evalType_ok (ht : t.Linked) (hk : t.kind? n = some k) (htype : k.isTypeExpr = true) :
    ∃ A, evalType t.toForest n = .ok A := by
  induction n using Forest.childInduction (f := t.toForest) generalizing k with
  | step n ih =>
    have hitems : (∀ c ∈ k.children, (Role.typeExpr, c) ∈ k.places) →
        ∃ ts, k.children.mapM (evalType t.toForest) = .ok ts := by
      intro hplaces
      refine exists_mapM_ok fun c hc => ?_
      obtain ⟨-, kc, hkc, hadmits⟩ := ht.wellFormed.child_fits hk (hplaces c hc)
      exact ih c (Forest.mem_children_of_kind hk hc) hkc hadmits
    cases k <;> simp [Kind.isTypeExpr] at htype
    case typeReference r => simpa [Kind.isPending] using ht.complete n _ hk
    case resolvedType r d =>
      obtain ⟨kd, hkd, hnames⟩ := ht.types n r d hk
      rw [evalType_resolvedType hk]
      exact declaredType_ok ht.wellFormed hkd hnames
    case tupleType items =>
      obtain ⟨ts, hts⟩ := hitems (by simp [Kind.places, Kind.children])
      rw [evalType_tupleType hk]
      exact ⟨.tuple ts, by simp only [Kind.children] at hts; rw [hts]; rfl⟩
    case unionType items =>
      obtain ⟨ts, hts⟩ := hitems (by simp [Kind.places, Kind.children])
      rw [evalType_unionType hk]
      exact ⟨.union ts, by simp only [Kind.children] at hts; rw [hts]; rfl⟩

end Success

namespace TypeStore

def Certain {α : Type} (x : Reading α) : Prop :=
  ∀ store, Lands x store (fun _ _ => True) fun _ _ => False

variable {t : Tree}

theorem certain_bind {α β : Type} {x : Reading α} {g : α → Reading β} (hx : Certain x)
    (hg : ∀ a, Certain (g a)) : Certain (x >>= g) := by
  intro store
  rw [lands_bind]
  exact (hx store).imp_ok fun a store' _ => hg a store'

theorem certain_freshVar : Certain freshVar := by
  intro store
  simp [freshVar]

theorem certain_evalOrFresh (ht : t.Linked) {type : Option NodeId}
    (htype : ∀ n ∈ type, ∃ k, t.kind? n = some k ∧ k.isTypeExpr = true) :
    Certain (evalOrFresh t.toForest type) := by
  cases type with
  | none => exact certain_freshVar
  | some n =>
    obtain ⟨k, hk, hexpr⟩ := htype n rfl
    obtain ⟨A, hA⟩ := evalType_ok ht hk hexpr
    intro store
    simp [evalOrFresh, evalOrFresh.liftExcept, hA]

/-- The declared type of a parameter is a type expression. -/
theorem typeExpr_of_parameter (ht : t.WellFormed) {p : NodeId} {name : Symbol}
    {type : Option NodeId} (hk : t.kind? p = some (.parameter name type)) :
    ∀ n ∈ type, ∃ k, t.kind? n = some k ∧ k.isTypeExpr = true := by
  intro n hn
  obtain ⟨-, k, hkn, hadmits⟩ := ht.child_fits hk (c := n)
    (show (Role.typeExpr, n) ∈ _ by simpa [Kind.places] using hn)
  exact ⟨k, hkn, hadmits⟩

theorem certain_parameterType (ht : t.Linked) (p : NodeId) :
    Certain (parameterType t.toForest p) := by
  unfold parameterType
  split
  · rename_i hk
    exact certain_evalOrFresh ht (typeExpr_of_parameter ht.wellFormed hk)
  · exact certain_freshVar

theorem certain_mapM {α β : Type} {g : α → Reading β} (h : ∀ x, Certain (g x)) (xs : List α) :
    Certain (xs.mapM g) := fun _ =>
  lands_mapM (fun _ _ _ => True) trivial fun _ x _ _ _ st _ => h x st

theorem certain_fieldTypes (ht : t.Linked) (decl : NodeId) :
    Certain (fieldTypes t.toForest decl) := by
  intro store
  unfold fieldTypes
  simp only [lands_bind, lands_get]
  split
  · simp
  · split
    · simpa using certain_mapM (certain_parameterType ht) _ store
    · simp

theorem certain_fieldType (ht : t.Linked) (n : NodeId) : Certain (fieldType t.toForest n) := by
  intro store
  unfold fieldType
  split
  · simp
  · split
    · split
      · simp
      · simpa using certain_fieldTypes ht _ store
    · simp

theorem certain_constructorType (ht : t.Linked) {n : NodeId} {name : Symbol}
    {fields members : List NodeId} (hk : t.kind? n = some (.structDecl name fields members)) :
    Certain (constructorType t.toForest n) := by
  intro store
  obtain ⟨A, hA⟩ := declaredType_ok ht.wellFormed hk rfl
  unfold constructorType
  simpa [hA] using certain_fieldTypes ht n store

end TypeStore

end SemanticAnalysis
