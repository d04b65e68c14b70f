import SemanticAnalysis.Proofs.DeclaredTypes
import SemanticAnalysis.Proofs.Relabeling

/-!
The field types of a struct as a matter of how many variables have been issued. Every
field takes the next variable or has the type of its type expression, so the types are
those of a function of the fields and the count. Its variables ascend and lie between
the counts before and after, whether it succeeds depends on the type expressions alone,
and with another count it gives the same types renamed.
-/

namespace SemanticAnalysis

namespace Forest

def structFields (f : Forest) (d : NodeId) : List NodeId :=
  match f.kind? d with
  | some (.structDecl _ fields _) => fields
  | _ => []

def annotation? (f : Forest) (x : NodeId) : Option NodeId :=
  match f.kind? x with
  | some (.parameter _ type) => type
  | _ => none

def slot? (f : Forest) (x : NodeId) : Option (NodeId × Nat) :=
  (f.parent? x).bind fun d => ((f.structFields d).findIdx? (· = x)).map (d, ·)

def Readable (f : Forest) (d : NodeId) : Prop :=
  ∀ x ∈ f.structFields d, ∀ e ∈ f.annotation? x, ∃ A, evalType f e = .ok A

variable {f : Forest} {d x : NodeId}

theorem getElem?_of_slot? {i : Nat} (h : f.slot? x = some (d, i)) :
    (f.structFields d)[i]? = some x := by
  simp only [slot?, Option.bind_eq_some_iff, Option.map_eq_some_iff, Prod.mk.injEq] at h
  obtain ⟨_, -, _, hi, rfl, rfl⟩ := h
  obtain ⟨hlt, hx, -⟩ := List.findIdx?_eq_some_iff_getElem.1 hi
  rw [List.getElem?_eq_getElem hlt, of_decide_eq_true hx]

/-- A field that its struct lists once has the position where it is listed. -/
theorem slot?_eq {i : Nat} (hp : f.parent? x = some d)
    (hi : ∀ j, (f.structFields d)[j]? = some x ↔ j = i) : f.slot? x = some (d, i) := by
  obtain ⟨hlt, hx⟩ := List.getElem?_eq_some_iff.1 ((hi i).2 rfl)
  have hfirst : (f.structFields d).findIdx? (· = x) = some i := by
    refine List.findIdx?_eq_some_iff_getElem.2 ⟨hlt, by simpa using hx, fun j hji => ?_⟩
    intro hj
    have hji' := (hi j).1 (List.getElem?_eq_some_iff.2 ⟨_, of_decide_eq_true hj⟩)
    omega
  simp [slot?, hp, hfirst]

/-- A struct declaration names a type. -/
theorem declaredType_of_structFields (h : f.structFields d ≠ []) :
    ∃ A, declaredType f d = .ok A := by
  unfold structFields at h
  split at h
  · rename_i name fields members hk
    refine ⟨.struct ⟨name, d, none⟩, ?_⟩
    rw [declaredType]
    split <;> simp_all
  · exact absurd rfl h

end Forest

namespace TypeStore

section Counting

/-- The type of a field when a number of variables has been issued, and the number after it. -/
def fieldFrom (f : Forest) (x : NodeId) (n : Nat) : Except TypeExprError Ty × Nat :=
  match f.annotation? x with
  | none => (.ok (.var ⟨n⟩), n + 1)
  | some e => (evalType f e, n)

/-- The types of fields one after the other, up to one whose type expression fails. -/
def typesFrom (f : Forest) : List NodeId → Nat → Except TypeExprError (List Ty) × Nat
  | [], n => (.ok [], n)
  | x :: rest, n =>
    match fieldFrom f x n with
    | (.ok A, m) => ((typesFrom f rest m).1.map (A :: ·), (typesFrom f rest m).2)
    | (.error e, m) => (.error e, m)

variable {f : Forest} {x : NodeId} {xs : List NodeId} {n m : Nat} {A : Ty} {ts : List Ty}

theorem le_fieldFrom (f : Forest) (x : NodeId) (n : Nat) : n ≤ (fieldFrom f x n).2 := by
  unfold fieldFrom
  split
  · exact Nat.le_succ n
  · exact Nat.le_refl n

/-- Reading fields draws variables and gives none back. -/
theorem le_typesFrom (f : Forest) (xs : List NodeId) (n : Nat) : n ≤ (typesFrom f xs n).2 := by
  induction xs generalizing n with
  | nil => exact Nat.le_refl n
  | cons x rest ih =>
    have hx := le_fieldFrom f x n
    rw [typesFrom]
    split
    · rename_i A m hm
      rw [hm] at hx
      exact Nat.le_trans hx (ih m)
    · rename_i e m hm
      rw [hm] at hx
      exact hx

theorem vars_fieldFrom (h : fieldFrom f x n = (.ok A, m)) {v : TyVar} (hv : v ∈ A.vars) :
    v = ⟨n⟩ ∧ m = n + 1 := by
  unfold fieldFrom at h
  split at h
  · cases h
    exact ⟨Ty.mem_vars_var.1 hv, rfl⟩
  · rw [Prod.mk.injEq] at h
    rw [vars_of_evalType h.1] at hv
    cases hv

/-- The first field has its type, and the others theirs from the count that it leaves. -/
theorem typesFrom_cons (h : typesFrom f (x :: xs) n = (.ok ts, m)) :
    ∃ A k us, fieldFrom f x n = (.ok A, k) ∧ typesFrom f xs k = (.ok us, m) ∧ ts = A :: us := by
  rw [typesFrom] at h
  split at h
  · rename_i A k hk
    rw [Prod.mk.injEq] at h
    cases hus : (typesFrom f xs k).1 with
    | error e =>
      rw [hus] at h
      cases h.1
    | ok us =>
      rw [hus] at h
      cases h.1
      exact ⟨A, k, us, hk, Prod.ext hus h.2, rfl⟩
  · cases h

theorem length_typesFrom (h : typesFrom f xs n = (.ok ts, m)) : ts.length = xs.length := by
  induction xs generalizing n ts with
  | nil =>
    cases h
    rfl
  | cons x rest ih =>
    obtain ⟨A, k, us, -, hus, rfl⟩ := typesFrom_cons h
    simp [ih hus]

/-- The variables of field types are those that were drawn for them. -/
theorem vars_typesFrom (h : typesFrom f xs n = (.ok ts, m)) {t : Ty} (ht : t ∈ ts) {v : TyVar}
    (hv : v ∈ t.vars) : n ≤ v.index ∧ v.index < m := by
  induction xs generalizing n ts with
  | nil =>
    cases h
    cases ht
  | cons x rest ih =>
    obtain ⟨A, k, us, hA, hus, rfl⟩ := typesFrom_cons h
    have hnk := le_fieldFrom f x n
    have hkm := le_typesFrom f rest k
    rw [hA] at hnk
    rw [hus] at hkm
    rcases List.mem_cons.1 ht with rfl | ht
    · obtain ⟨rfl, rfl⟩ := vars_fieldFrom hA hv
      exact ⟨Nat.le_refl n, hkm⟩
    · obtain ⟨hlow, hhigh⟩ := ih hus ht
      exact ⟨Nat.le_trans hnk hlow, hhigh⟩

/-- The variables of a field come after those of the fields before it. -/
theorem ascending_typesFrom (h : typesFrom f xs n = (.ok ts, m)) :
    ts.Pairwise fun t u => ∀ v ∈ t.vars, ∀ w ∈ u.vars, v.index < w.index := by
  induction xs generalizing n ts with
  | nil =>
    cases h
    exact List.Pairwise.nil
  | cons x rest ih =>
    obtain ⟨A, k, us, hA, hus, rfl⟩ := typesFrom_cons h
    refine List.pairwise_cons.2 ⟨fun u hu v hv w hw => ?_, ih hus⟩
    obtain ⟨rfl, rfl⟩ := vars_fieldFrom hA hv
    exact (vars_typesFrom hus hu hw).1

/-- No two fields have the same variable. -/
theorem eq_of_typesFrom (h : typesFrom f xs n = (.ok ts, m)) {i j : Nat} {v : TyVar}
    (hi : ts[i]? = some (.var v)) (hj : ts[j]? = some (.var v)) : i = j := by
  have hascending := List.pairwise_iff_getElem.1 (ascending_typesFrom h)
  obtain ⟨hlti, hi⟩ := List.getElem?_eq_some_iff.1 hi
  obtain ⟨hltj, hj⟩ := List.getElem?_eq_some_iff.1 hj
  have hv : v ∈ (Ty.var v).vars := Ty.mem_vars_var.2 rfl
  rcases Nat.lt_trichotomy i j with hlt | heq | hlt
  · exact absurd (hascending i j hlti hltj hlt v (hi ▸ hv) v (hj ▸ hv)) (Nat.lt_irrefl _)
  · exact heq
  · exact absurd (hascending j i hltj hlti hlt v (hj ▸ hv) v (hi ▸ hv)) (Nat.lt_irrefl _)

/-- A field has the type of its type expression, or a variable of its own. -/
theorem getElem?_typesFrom (h : typesFrom f xs n = (.ok ts, m)) {i : Nat} (hx : xs[i]? = some x) :
    ∃ t, ts[i]? = some t ∧
      match f.annotation? x with
      | some e => evalType f e = .ok t
      | none => ∃ v : TyVar, t = .var v ∧ n ≤ v.index ∧ v.index < m := by
  induction xs generalizing n ts i with
  | nil => simp at hx
  | cons y rest ih =>
    obtain ⟨A, k, us, hA, hus, rfl⟩ := typesFrom_cons h
    have hnk := le_fieldFrom f y n
    have hkm := le_typesFrom f rest k
    rw [hA] at hnk
    rw [hus] at hkm
    cases i with
    | zero =>
      obtain rfl : y = x := by simpa using hx
      refine ⟨A, rfl, ?_⟩
      unfold fieldFrom at hA
      cases hann : f.annotation? y with
      | none =>
        rw [hann] at hA
        cases hA
        exact ⟨⟨n⟩, rfl, Nat.le_refl n, hkm⟩
      | some e =>
        rw [hann, Prod.mk.injEq] at hA
        exact hA.1
    | succ i =>
      obtain ⟨t, ht, hspec⟩ := ih hus (by simpa using hx)
      refine ⟨t, by simpa using ht, ?_⟩
      cases hann : f.annotation? x with
      | none =>
        rw [hann] at hspec
        obtain ⟨v, rfl, hlow, hhigh⟩ := hspec
        exact ⟨v, rfl, Nat.le_trans hnk hlow, hhigh⟩
      | some e => simpa only [hann] using hspec

/-- Whether the fields can be typed does not depend on the count. -/
theorem typesFrom_ok_iff (f : Forest) (xs : List NodeId) (n : Nat) :
    (∃ ts, (typesFrom f xs n).1 = .ok ts) ↔
      ∀ x ∈ xs, ∀ e ∈ f.annotation? x, ∃ A, evalType f e = .ok A := by
  have hfield : ∀ x n, (∃ A, (fieldFrom f x n).1 = .ok A) ↔
      ∀ e ∈ f.annotation? x, ∃ A, evalType f e = .ok A := by
    intro x n
    unfold fieldFrom
    cases f.annotation? x with
    | none => simp
    | some e => simp
  induction xs generalizing n with
  | nil => simp [typesFrom]
  | cons x rest ih =>
    rw [List.forall_mem_cons, ← hfield x n, typesFrom]
    rcases hx : fieldFrom f x n with ⟨_ | A, k⟩
    · simp
    · refine Iff.trans ?_ (and_congr_right fun _ => ih k)
      change (∃ ts, (typesFrom f rest k).1.map (A :: ·) = .ok ts) ↔ _
      cases (typesFrom f rest k).1 <;> simp [Except.map]

theorem readable_of_typesFrom {d : NodeId} (h : typesFrom f (f.structFields d) n = (.ok ts, m)) :
    f.Readable d :=
  (typesFrom_ok_iff f (f.structFields d) n).1 ⟨ts, congrArg Prod.fst h⟩

end Counting

section Renaming

variable {f : Forest} {ρ : Relabeling} {n : Nat}

theorem relabel_of_closed {A : Ty} (h : A.vars = []) : A.relabel ρ = A :=
  Ty.relabel_of_fixed fun v hv => by simp [h] at hv

/-- Reading a field from a renamed count gives the renamed type. -/
theorem fieldFrom_relabel (hρ : ρ.TranslatesFrom n) (x : NodeId) :
    fieldFrom f x (ρ ⟨n⟩).index =
      ((fieldFrom f x n).1.map (Ty.relabel ρ), (ρ ⟨(fieldFrom f x n).2⟩).index) := by
  unfold fieldFrom
  cases f.annotation? x with
  | none =>
    have hnext : (ρ ⟨n + 1⟩).index = (ρ ⟨n⟩).index + 1 := congrArg TyVar.index (hρ 1)
    simp [Except.map, hnext]
  | some e =>
    have hclosed : (evalType f e).map (Ty.relabel ρ) = evalType f e := by
      cases heval : evalType f e with
      | error e => rfl
      | ok A => exact congrArg Except.ok (relabel_of_closed (vars_of_evalType heval))
    simp [hclosed]

/-- From the renamed count the fields have the renamed types. -/
theorem typesFrom_relabel (hρ : ρ.TranslatesFrom n) (xs : List NodeId) :
    typesFrom f xs (ρ ⟨n⟩).index =
      ((typesFrom f xs n).1.map (List.map (Ty.relabel ρ)), (ρ ⟨(typesFrom f xs n).2⟩).index) := by
  induction xs generalizing n with
  | nil => rfl
  | cons x rest ih =>
    rw [typesFrom, typesFrom, fieldFrom_relabel hρ]
    have hle := le_fieldFrom f x n
    rcases hx : fieldFrom f x n with ⟨e | A, k⟩
    · rfl
    · rw [hx] at hle
      simp only [Except.map]
      rw [ih (hρ.mono hle)]
      cases (typesFrom f rest k).1 <;> rfl

end Renaming

section Running

variable {α β : Type} {f : Forest} {store store' : TypeStore}

theorem run_bind_ok {x : Reading α} {g : α → Reading β} {a : α}
    (h : x.run.run store = (.ok a, store')) :
    (x >>= g).run.run store = (g a).run.run store' := by
  rw [ExceptT.run_bind, StateT.run_bind, h]
  rfl

theorem run_bind_error {x : Reading α} {g : α → Reading β} {e : TypeExprError}
    (h : x.run.run store = (.error e, store')) :
    (x >>= g).run.run store = (.error e, store') := by
  rw [ExceptT.run_bind, StateT.run_bind, h]
  rfl

theorem parameterType_run (x : NodeId) (store : TypeStore) :
    (parameterType f x).run.run store = ((fieldFrom f x store.supply.issued).1,
      { store with supply := ⟨(fieldFrom f x store.supply.issued).2⟩ }) := by
  have heq : parameterType f x = evalOrFresh f (f.annotation? x) := by
    unfold parameterType Forest.annotation?
    rcases f.kind? x with _ | k
    · rfl
    · cases k <;> rfl
  rw [heq, fieldFrom]
  cases f.annotation? x <;> rfl

/-- The loop over the fields is the structural reading of their list. -/
theorem mapM_parameterType_run (xs : List NodeId) (store : TypeStore) :
    (xs.mapM (parameterType f)).run.run store = ((typesFrom f xs store.supply.issued).1,
      { store with supply := ⟨(typesFrom f xs store.supply.issued).2⟩ }) := by
  induction xs generalizing store with
  | nil => rfl
  | cons x rest ih =>
    have hfirst := parameterType_run (f := f) x store
    rw [List.mapM_cons, typesFrom]
    rcases hx : fieldFrom f x store.supply.issued with ⟨e | A, m⟩
    · rw [hx] at hfirst
      exact run_bind_error hfirst
    · rw [hx] at hfirst
      rw [run_bind_ok hfirst]
      change _ = ((typesFrom f rest m).1.map (A :: ·),
        { store with supply := ⟨(typesFrom f rest m).2⟩ })
      have hrest := ih { store with supply := ⟨m⟩ }
      rcases hus : typesFrom f rest m with ⟨e | us, k⟩
      · rw [hus] at hrest
        exact run_bind_error hrest
      · rw [hus] at hrest
        exact run_bind_ok hrest

/-- Field types are worked out on the first call and kept. -/
theorem fieldTypes_eq (f : Forest) (d : NodeId) : fieldTypes f d = (do
    match (← get).fields.get? d with
    | some ts => return ts
    | none =>
      let ts ← (f.structFields d).mapM (parameterType f)
      modify fun st => { st with fields := st.fields.insert d ts }
      return ts) := by
  unfold fieldTypes Forest.structFields
  rcases f.kind? d with _ | k
  · rfl
  · cases k <;> rfl

/-- The field types of a struct are those kept, or else worked out and then kept. -/
theorem fieldTypes_run (d : NodeId) (store : TypeStore) :
    (fieldTypes f d).run.run store =
      match store.fields.get? d with
      | some ts => (.ok ts, store)
      | none =>
        match typesFrom f (f.structFields d) store.supply.issued with
        | (.ok ts, n) => (.ok ts, ⟨⟨n⟩, store.fields.insert d ts⟩)
        | (.error e, n) => (.error e, ⟨⟨n⟩, store.fields⟩) := by
  have hget : (get : Reading TypeStore).run.run store = (.ok store, store) := rfl
  rw [fieldTypes_eq, run_bind_ok hget]
  cases store.fields.get? d with
  | some ts => rfl
  | none =>
    have hrun := mapM_parameterType_run (f := f) (f.structFields d) store
    rcases htypes : typesFrom f (f.structFields d) store.supply.issued with ⟨e | ts, n⟩
    · rw [htypes] at hrun
      exact run_bind_error hrun
    · rw [htypes] at hrun
      exact run_bind_ok hrun

end Running

end TypeStore

end SemanticAnalysis
