import SemanticAnalysis.Proofs.Substitutions

/-!
Types whose unions hold no variable, and types whose tuples hold none either.
Both classes are kept by every replacement by types of the class. In the second
one variables stand below functions only, where looking for an occurrence finds
every variable there is.
-/

namespace SemanticAnalysis

/-- Which types are to hold no variable: unions, or both tuples and unions. -/
inductive Seal where
  | unions
  | aggregates
deriving DecidableEq

namespace Ty

mutual

def subterms : Ty → List Ty
  | .tuple items => .tuple items :: subtermsAll items
  | .union items => .union items :: subtermsAll items
  | .fn input output => .fn input output :: (subterms input ++ subterms output)
  | t => [t]

def subtermsAll : List Ty → List Ty
  | [] => []
  | t :: rest => subterms t ++ subtermsAll rest

end

def isSealedKind (k : Seal) : Ty → Bool
  | .union _ => true
  | .tuple _ => k = .aggregates
  | _ => false

def Sealed (k : Seal) (t : Ty) : Prop :=
  ∀ u ∈ t.subterms, u.isSealedKind k → u.vars = []

instance (k : Seal) (t : Ty) : Decidable (t.Sealed k) :=
  inferInstanceAs (Decidable (∀ u ∈ t.subterms, u.isSealedKind k = true → u.vars = []))

variable {k : Seal}

attribute [local simp] subterms subtermsAll isSealedKind

theorem mem_subtermsAll {u : Ty} {items : List Ty} :
    u ∈ subtermsAll items ↔ ∃ t ∈ items, u ∈ t.subterms := by
  induction items with
  | nil => simp
  | cons t rest ih => simp [ih]

theorem subterms_leaf {t : Ty} (h : t.isLeaf) : t.subterms = [t] := by
  cases t <;> simp_all [isLeaf]

/-- The variables of a part are variables of the type. -/
theorem mem_vars_of_subterm {t u : Ty} (hu : u ∈ t.subterms) {v : TyVar} (hv : v ∈ u.vars) :
    v ∈ t.vars := by
  induction t with
  | var w =>
    obtain rfl : u = .var w := by simpa using hu
    exact hv
  | leaf t ht =>
    obtain rfl : u = t := by simpa [subterms_leaf ht] using hu
    exact hv
  | tuple items ih =>
    simp only [subterms, List.mem_cons, mem_subtermsAll] at hu
    rcases hu with rfl | ⟨t, ht, hu⟩
    · exact hv
    · exact mem_vars_tuple.2 ⟨t, ht, ih t ht hu⟩
  | union items ih =>
    simp only [subterms, List.mem_cons, mem_subtermsAll] at hu
    rcases hu with rfl | ⟨t, ht, hu⟩
    · exact hv
    · exact mem_vars_union.2 ⟨t, ht, ih t ht hu⟩
  | fn input output ihi iho =>
    simp only [subterms, List.mem_cons, List.mem_append] at hu
    rcases hu with rfl | hu | hu
    · exact hv
    · exact mem_vars_fn.2 (Or.inl (ihi hu))
    · exact mem_vars_fn.2 (Or.inr (iho hu))

theorem sealed_of_ground {t : Ty} (h : t.vars = []) : t.Sealed k := by
  intro u hu _
  refine List.eq_nil_iff_forall_not_mem.2 fun v hv => ?_
  have hvt := mem_vars_of_subterm hu hv
  simp [h] at hvt

@[simp]
theorem sealed_var (v : TyVar) : (Ty.var v).Sealed k := by
  simp [Sealed]

theorem sealed_leaf {t : Ty} (h : t.isLeaf) : t.Sealed k := sealed_of_ground (vars_leaf h)

@[simp]
theorem sealed_fn_iff {i o : Ty} : (Ty.fn i o).Sealed k ↔ i.Sealed k ∧ o.Sealed k := by
  simp only [Sealed, subterms, List.mem_cons, List.mem_append]
  constructor
  · exact fun h => ⟨fun u hu => h u (Or.inr (Or.inl hu)), fun u hu => h u (Or.inr (Or.inr hu))⟩
  · rintro ⟨hi, ho⟩ u (rfl | hu | hu) hkind
    · simp at hkind
    · exact hi u hu hkind
    · exact ho u hu hkind

theorem sealed_union_iff {items : List Ty} :
    (Ty.union items).Sealed k ↔ (Ty.union items).vars = [] :=
  ⟨fun h => h _ (by simp) rfl, sealed_of_ground⟩

theorem sealed_tuple_iff {items : List Ty} :
    (Ty.tuple items).Sealed k ↔
      (k = .aggregates → (Ty.tuple items).vars = []) ∧ ∀ t ∈ items, t.Sealed k := by
  simp only [Sealed, subterms, List.mem_cons, mem_subtermsAll]
  constructor
  · intro h
    refine ⟨fun hs => h _ (Or.inl rfl) ?_, fun t ht u hu => h u (Or.inr ⟨t, ht, hu⟩)⟩
    simp [hs]
  · rintro ⟨hself, hitems⟩ u (rfl | ⟨t, ht, hu⟩) hkind
    · exact hself (by simpa using hkind)
    · exact hitems t ht u hu hkind

/-- Both classes are kept by replacement. -/
theorem Sealed.replace {f : TyVar → Ty} {t : Ty} (ht : t.Sealed k)
    (hf : ∀ v ∈ t.vars, (f v).Sealed k) : (t.replace f).Sealed k := by
  induction t with
  | var v => simpa using hf v (mem_vars_var.2 rfl)
  | leaf t hleaf => rwa [replace_leaf hleaf]
  | tuple items ih =>
    obtain ⟨hself, hitems⟩ := sealed_tuple_iff.1 ht
    cases k with
    | aggregates =>
      rwa [replace_eq_self (by simp [hself rfl])]
    | unions =>
      rw [replace_tuple, sealed_tuple_iff]
      refine ⟨by simp, List.forall_mem_map.2 fun t hmem => ?_⟩
      exact ih t hmem (hitems t hmem) fun v hv => hf v (mem_vars_tuple.2 ⟨t, hmem, hv⟩)
  | union items _ =>
    rwa [replace_eq_self (by simp [sealed_union_iff.1 ht])]
  | fn input output ihi iho =>
    obtain ⟨hi, ho⟩ := sealed_fn_iff.1 ht
    rw [replace_fn, sealed_fn_iff]
    exact ⟨ihi hi fun v hv => hf v (mem_vars_fn.2 (Or.inl hv)),
      iho ho fun v hv => hf v (mem_vars_fn.2 (Or.inr hv))⟩

/-- Where tuples and unions hold no variable, looking below functions finds them all. -/
theorem occurs_iff_of_sealed {v : TyVar} {t : Ty} (h : t.Sealed .aggregates) :
    t.occurs v ↔ v ∈ t.vars := by
  induction t with
  | var w => simp [occurs, vars]
  | leaf t ht => simp [occurs_leaf ht, vars_leaf ht]
  | tuple items _ => simp [occurs, (sealed_tuple_iff.1 h).1 rfl]
  | union items _ => simp [occurs, sealed_union_iff.1 h]
  | fn input output ihi iho =>
    obtain ⟨hi, ho⟩ := sealed_fn_iff.1 h
    simp [occurs, mem_vars_fn, ihi hi, iho ho]

/-- An occurrence below functions is an occurrence. -/
theorem mem_vars_of_occurs {v : TyVar} {t : Ty} (h : t.occurs v) : v ∈ t.vars := by
  induction t with
  | var w => simpa [occurs, vars] using h
  | leaf t ht => simp [occurs_leaf ht] at h
  | tuple items _ => simp [occurs] at h
  | union items _ => simp [occurs] at h
  | fn input output ihi iho =>
    simp only [occurs, Bool.or_eq_true] at h
    exact mem_vars_fn.2 (h.imp ihi iho)

end Ty

namespace Subst

def Sealed (k : Seal) (s : Subst) : Prop := ∀ v, (s.read v).Sealed k

variable {k : Seal}

theorem sealed_empty : empty.Sealed k := fun v => by
  rw [read_empty]
  exact Ty.sealed_var v

theorem sealed_single {v : TyVar} {t : Ty} (h : t.Sealed k) :
    (single v t).Sealed k := by
  intro w
  rw [read_single]
  split
  · exact h
  · exact Ty.sealed_var w

theorem Sealed.apply {s : Subst} (hs : s.Sealed k) {t : Ty} (ht : t.Sealed k) :
    (s.apply t).Sealed k := by
  rw [apply_eq_replace]
  exact ht.replace fun v _ => hs v

theorem Sealed.compose {s r : Subst} (hs : s.Sealed k) (hr : r.Sealed k) :
    (s.compose r).Sealed k := by
  intro v
  rw [read_compose]
  exact hs.apply (hr v)

end Subst

end SemanticAnalysis
