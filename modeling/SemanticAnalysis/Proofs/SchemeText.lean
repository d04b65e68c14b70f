import Mathlib.Data.List.Induction
import Mathlib.Data.List.Nodup
import Mathlib.Data.List.Perm.Subperm
import Mathlib.Data.Set.Function
import SemanticAnalysis.Proofs.Schemes
import SemanticAnalysis.Proofs.VariableNames

/-!
How schemes are written. The bound variables of the body get ascending names that no
free variable has, in order of appearance, so different variables are written with
different names. A renaming of the bound variables changes neither the order in which
they appear nor the free variables, and so changes nothing that is written.
-/

namespace SemanticAnalysis

namespace Ty

variable {t : Ty} {names names' : Naming} {p : Position} {ρ : TyVar → TyVar}

theorem textsAt_eq_map (names : Naming) (p : Position) (items : List Ty) :
    textsAt names p items = items.map (textAt names p) := by
  induction items with
  | nil => simp [textsAt]
  | cons t rest ih => simp [textsAt, ih]

/-- A renamed type is written as the type is where the new names stand for the old ones. -/
theorem textAt_renamed (hsymbols : names'.symbols = names.symbols)
    (hnames : ∀ v ∈ t.vars, names'.variable (ρ v) = names.variable v) :
    (t.replace fun v => .var (ρ v)).textAt names' p = t.textAt names p := by
  have hitems : ∀ (p : Position) (items : List Ty),
      (∀ t ∈ items, ∀ p, (t.replace fun v => .var (ρ v)).textAt names' p = t.textAt names p) →
      (items.map (replace fun v => .var (ρ v))).map (textAt names' p) =
        items.map (textAt names p) := by
    intro p items h
    rw [List.map_map]
    exact List.map_congr_left fun t ht => h t ht p
  induction t generalizing p with
  | var v => simpa [textAt] using hnames v (mem_vars_var.2 rfl)
  | leaf t ht =>
    rw [replace_leaf ht]
    cases t <;> simp_all [isLeaf, textAt]
  | tuple items ih =>
    have htexts := hitems .outer items fun t ht p =>
      ih t ht fun v hv => hnames v (mem_vars_tuple.2 ⟨t, ht, hv⟩)
    simp only [replace_tuple, textAt, textsAt_eq_map, htexts, List.length_map]
  | union items ih =>
    have htexts := hitems .inner items fun t ht p =>
      ih t ht fun v hv => hnames v (mem_vars_union.2 ⟨t, ht, hv⟩)
    simp only [replace_union, textAt, textsAt_eq_map, htexts]
  | fn input output ihi iho =>
    simp only [replace_fn, textAt, ihi fun v hv => hnames v (mem_vars_fn.2 (Or.inl hv)),
      iho fun v hv => hnames v (mem_vars_fn.2 (Or.inr hv))]

theorem varsAll_eq_flatMap (items : List Ty) : varsAll items = items.flatMap vars := by
  induction items with
  | nil => simp [varsAll]
  | cons t rest ih => simp [varsAll, ih]

/-- The variables of a renamed type appear in the order of those of the type. -/
theorem vars_renamed (ρ : TyVar → TyVar) (t : Ty) :
    (t.replace fun v => .var (ρ v)).vars = t.vars.map ρ := by
  have hitems : ∀ items : List Ty,
      (∀ t ∈ items, (t.replace fun v => .var (ρ v)).vars = t.vars.map ρ) →
      varsAll (items.map (replace fun v => .var (ρ v))) = (varsAll items).map ρ := by
    intro items h
    rw [varsAll_eq_flatMap, varsAll_eq_flatMap, List.flatMap_map, List.map_flatMap]
    exact List.flatMap_congr h
  induction t with
  | var v => simp [vars]
  | leaf t ht => simp [replace_leaf ht, vars_leaf ht]
  | tuple items ih => simp only [replace_tuple, vars, hitems items ih]
  | union items ih => simp only [replace_union, vars, hitems items ih]
  | fn input output ihi iho => simp only [replace_fn, vars, ihi, iho, List.map_append]

end Ty

section Repetitions

variable {α β : Type} [DecidableEq α] [DecidableEq β]

theorem nodup_eraseDups (l : List α) : l.eraseDups.Nodup := by
  induction l using List.reverseRecOn with
  | nil => simp
  | append_singleton l x ih =>
    rw [eraseDups_concat]
    split
    · exact ih
    · rename_i hx
      exact List.nodup_append.2 ⟨ih, by simp, by simp; grind⟩

/-- Where no two items become one, repetitions are dropped before or after a change alike. -/
theorem eraseDups_map {f : α → β} (l : List α) (hf : Set.InjOn f {x | x ∈ l}) :
    (l.map f).eraseDups = l.eraseDups.map f := by
  induction l using List.reverseRecOn with
  | nil => rfl
  | append_singleton l x ih =>
    have hrest : Set.InjOn f {y | y ∈ l} := hf.mono fun y hy => List.mem_append_left _ hy
    have hiff : f x ∈ l.map f ↔ x ∈ l := by
      refine ⟨fun h => ?_, List.mem_map_of_mem⟩
      obtain ⟨y, hy, heq⟩ := List.mem_map.1 h
      have hxy : y = x := hf (List.mem_append_left _ hy) (by simp) heq
      exact hxy ▸ hy
    rw [List.map_append, List.map_singleton, eraseDups_concat,
      eraseDups_concat, ih hrest]
    by_cases hx : x ∈ l <;> simp [hiff, hx]

end Repetitions

namespace Scheme

section Names

variable {used vs : List TyVar} {start : Nat} {v : TyVar} {q : TyVar × TyVar}

/-- More candidates are tried than there are used variables, so one of them is not used. -/
theorem unusedIndex_spec (used : List TyVar) (start : Nat) :
    start ≤ unusedIndex used start ∧ ⟨unusedIndex used start⟩ ∉ used := by
  have hcandidate : ∃ i ∈ List.range' start (used.length + 1), ⟨i⟩ ∉ used := by
    by_contra hnone
    have hsub : (List.range' start (used.length + 1)).map TyVar.mk ⊆ used := by
      intro v hv
      obtain ⟨i, hi, rfl⟩ := List.mem_map.1 hv
      by_contra hnew
      exact hnone ⟨i, hi, hnew⟩
    have hnodup : ((List.range' start (used.length + 1)).map TyVar.mk).Nodup :=
      List.Nodup.map (fun i j h => congrArg TyVar.index h) List.nodup_range'
    have hlength := (hnodup.subperm hsub).length_le
    rw [List.length_map, List.length_range'] at hlength
    omega
  obtain ⟨i, hi, hnew⟩ := hcandidate
  cases hfind : (List.range' start (used.length + 1)).find? fun i => !used.contains ⟨i⟩ with
  | none => exact absurd hnew (by simpa using List.find?_eq_none.1 hfind i hi)
  | some j =>
    have hmem := List.mem_of_find?_eq_some hfind
    have hunused := List.find?_some hfind
    have hindex : unusedIndex used start = j := by
      dsimp only [unusedIndex]
      rw [hfind]
      rfl
    rw [hindex]
    exact ⟨(List.mem_range'_1.1 hmem).1, by simpa using hunused⟩

theorem map_fst_assignNames (used : List TyVar) (start : Nat) (vs : List TyVar) :
    (assignNames used start vs).map (·.1) = vs := by
  induction vs generalizing start with
  | nil => rfl
  | cons v rest ih => simp [assignNames, ih]

theorem assignNames_not_used (h : q ∈ assignNames used start vs) :
    start ≤ q.2.index ∧ q.2 ∉ used := by
  induction vs generalizing start with
  | nil => simp [assignNames] at h
  | cons v rest ih =>
    obtain ⟨hle, hnew⟩ := unusedIndex_spec used start
    rcases List.mem_cons.1 h with rfl | h
    · exact ⟨hle, hnew⟩
    · obtain ⟨hlater, hnew⟩ := ih h
      exact ⟨by omega, hnew⟩

/-- Names ascend in the order in which they are given, so none is given twice. -/
theorem nodup_assignNames (used : List TyVar) (start : Nat) (vs : List TyVar) :
    ((assignNames used start vs).map (·.2)).Nodup := by
  induction vs generalizing start with
  | nil => simp [assignNames]
  | cons v rest ih =>
    refine List.nodup_cons.2 ⟨fun h => ?_, ih _⟩
    obtain ⟨q, hq, heq⟩ := List.mem_map.1 h
    have hlater := (assignNames_not_used hq).1
    rw [heq] at hlater
    exact Nat.lt_irrefl _ hlater

/-- Which names are given does not depend on what they are given to. -/
theorem assignNames_map (ρ : TyVar → TyVar) (used : List TyVar) (start : Nat) (vs : List TyVar) :
    assignNames used start (vs.map ρ) =
      (assignNames used start vs).map fun p => (ρ p.1, p.2) := by
  induction vs generalizing start with
  | nil => rfl
  | cons v rest ih => simp [assignNames, ih]

end Names

variable {s r : Scheme} {v w : TyVar} {ρ : TyVar → TyVar}

def Binds (s : Scheme) (v : TyVar) : Prop := v ∈ s.body.vars ∧ s.bound.contains v = true

theorem free_or_binds (hv : v ∈ s.body.vars) : s.Free v ∨ s.Binds v := by
  cases h : s.bound.contains v with
  | false => exact Or.inl ⟨hv, h⟩
  | true => exact Or.inr ⟨hv, h⟩

theorem mem_appearing : v ∈ s.appearing ↔ s.Binds v := by
  simp [appearing, Binds, List.mem_eraseDups]

def shown (s : Scheme) (v : TyVar) : TyVar :=
  ((s.renames.find? fun p => p.1 = v).map (·.2)).getD v

section Distinctness

theorem map_fst_renames (s : Scheme) : s.renames.map (·.1) = s.appearing :=
  map_fst_assignNames _ _ _

theorem binds_of_mem_renames {p : TyVar × TyVar} (hp : p ∈ s.renames) : s.Binds p.1 := by
  rw [← mem_appearing, ← map_fst_renames]
  exact List.mem_map.2 ⟨p, hp, rfl⟩

theorem shown_of_mem_renames {p : TyVar × TyVar} (hp : p ∈ s.renames) : s.shown p.1 = p.2 := by
  cases hfind : s.renames.find? fun q => q.1 = p.1 with
  | none => simpa using List.find?_eq_none.1 hfind p hp
  | some q =>
    have hfirst : q.1 = p.1 := by simpa using List.find?_some hfind
    have hnodup : (s.renames.map (·.1)).Nodup := by
      rw [map_fst_renames]
      exact nodup_eraseDups _
    obtain rfl := List.inj_on_of_nodup_map hnodup (List.mem_of_find?_eq_some hfind) hp hfirst
    simp [shown, hfind]

theorem shown_of_free (h : s.Free v) : s.shown v = v := by
  have hnone : (s.renames.find? fun p => p.1 = v) = none := by
    rw [List.find?_eq_none]
    intro p hp hv
    obtain rfl : p.1 = v := by simpa using hv
    have hbound := (binds_of_mem_renames hp).2
    simp [h.2] at hbound
  simp [shown, hnone]

theorem shown_of_binds (h : s.Binds v) : (v, s.shown v) ∈ s.renames := by
  have hmem : v ∈ s.renames.map (·.1) := by
    rw [map_fst_renames]
    exact mem_appearing.2 h
  obtain ⟨p, hp, rfl⟩ := List.mem_map.1 hmem
  rwa [shown_of_mem_renames hp]

/-- No bound variable is written as a free one. -/
theorem not_free_shown (h : s.Binds v) : ¬ s.Free (s.shown v) := by
  have hnew := (assignNames_not_used (shown_of_binds h)).2
  rwa [OrderedSet.mem_toList_iff, contains_freeVars] at hnew

/-- Different variables of the body are written as different ones. -/
theorem shown_injOn (s : Scheme) : Set.InjOn s.shown {v | v ∈ s.body.vars} := by
  intro v hv w hw h
  rcases free_or_binds hv with hfree | hbinds
  · rcases free_or_binds hw with hfree' | hbinds'
    · rwa [shown_of_free hfree, shown_of_free hfree'] at h
    · rw [shown_of_free hfree] at h
      exact absurd (h ▸ hfree) (not_free_shown hbinds')
  · rcases free_or_binds hw with hfree' | hbinds'
    · rw [shown_of_free hfree'] at h
      exact absurd (h ▸ hfree') (not_free_shown hbinds)
    · have hnodup := nodup_assignNames (OrderedSet.toList s.freeVars) 0 s.appearing
      have heq := List.inj_on_of_nodup_map hnodup (shown_of_binds hbinds) (shown_of_binds hbinds') h
      exact congrArg Prod.fst heq

end Distinctness

section Renaming

/-- Two schemes differ by a renaming of bound variables. It leaves the free variables alone and
takes the bound variables of the body to different ones that are not free in it. The second scheme
has the renamed body, and of the variables in that it binds those that bound ones were taken to.
Bound variables that the bodies do not have play no part. -/
structure Renamed (ρ : TyVar → TyVar) (s r : Scheme) : Prop where
  body : r.body = s.body.replace fun v => .var (ρ v)
  free : ∀ v, s.Free v → ρ v = v
  injOn : Set.InjOn ρ {v | s.Binds v}
  apart : ∀ v, s.Binds v → ¬ s.Free (ρ v)
  bound : ∀ w ∈ r.body.vars, r.bound.contains w = true ↔ ∃ v, s.Binds v ∧ ρ v = w

theorem Renamed.vars_eq (h : Renamed ρ s r) : r.body.vars = s.body.vars.map ρ := by
  rw [h.body, Ty.vars_renamed]

theorem Renamed.contains_eq (h : Renamed ρ s r) (hv : v ∈ s.body.vars) :
    r.bound.contains (ρ v) = s.bound.contains v := by
  have hmem : ρ v ∈ r.body.vars := h.vars_eq ▸ List.mem_map_of_mem hv
  rw [Bool.eq_iff_iff, h.bound _ hmem]
  rcases free_or_binds hv with hfree | hbinds
  · refine ⟨fun hbound => ?_, fun hbound => by simp [hfree.2] at hbound⟩
    obtain ⟨u, hu, heq⟩ := hbound
    rw [h.free v hfree] at heq
    exact absurd (heq ▸ hfree) (h.apart u hu)
  · exact ⟨fun _ => hbinds.2, fun _ => ⟨v, hbinds, rfl⟩⟩

/-- A renaming of bound variables leaves the free ones as they are. -/
theorem Renamed.freeVars_eq (h : Renamed ρ s r) : r.freeVars = s.freeVars := by
  apply OrderedSet.ext_contains
  intro w
  rw [contains_freeVars, contains_freeVars]
  constructor
  · intro hfree
    obtain ⟨v, hv, rfl⟩ := List.mem_map.1 (h.vars_eq ▸ hfree.1)
    have hfree' : s.Free v := ⟨hv, (h.contains_eq hv).symm.trans hfree.2⟩
    rwa [h.free v hfree']
  · intro hfree
    have heq := h.free w hfree
    refine ⟨h.vars_eq ▸ List.mem_map.2 ⟨w, hfree.1, heq⟩, ?_⟩
    have hbound := h.contains_eq hfree.1
    rwa [heq, hfree.2] at hbound

/-- Bound variables appear in the order of those that they are renamed from. -/
theorem Renamed.appearing_eq (h : Renamed ρ s r) : r.appearing = s.appearing.map ρ := by
  unfold appearing
  rw [h.vars_eq, List.filter_map]
  have hsame : s.body.vars.filter (r.bound.contains ∘ ρ) =
      s.body.vars.filter s.bound.contains :=
    List.filter_congr fun v hv => h.contains_eq hv
  rw [hsame]
  exact eraseDups_map _ fun v hv w hw => h.injOn (List.mem_filter.1 hv) (List.mem_filter.1 hw)

theorem Renamed.renames_eq (h : Renamed ρ s r) :
    r.renames = s.renames.map fun p => (ρ p.1, p.2) := by
  rw [renames, h.freeVars_eq, h.appearing_eq, assignNames_map, renames]

/-- A renamed variable is written as the variable that it was renamed from. -/
theorem Renamed.shown_eq (h : Renamed ρ s r) (hv : v ∈ s.body.vars) :
    r.shown (ρ v) = s.shown v := by
  rcases free_or_binds hv with hfree | hbinds
  · have hfree' : r.Free v := by
      rw [← contains_freeVars, h.freeVars_eq, contains_freeVars]
      exact hfree
    rw [h.free v hfree, shown_of_free hfree, shown_of_free hfree']
  · have hbinds' : r.Binds (ρ v) :=
      ⟨h.vars_eq ▸ List.mem_map_of_mem hv, (h.contains_eq hv).trans hbinds.2⟩
    have hmem := shown_of_binds hbinds'
    rw [h.renames_eq] at hmem
    obtain ⟨p, hp, heq⟩ := List.mem_map.1 hmem
    obtain ⟨hfrom, hto⟩ := Prod.mk.inj heq
    obtain rfl : p.1 = v := h.injOn (binds_of_mem_renames hp) hbinds hfrom
    rw [← hto, shown_of_mem_renames hp]

end Renaming

section Texts

/-- The text of a scheme is the text of its body with each variable replaced by what it is shown as,
after a list of what the bound variables of the body are shown as, if there are any. -/
theorem text_eq (symbols : SymbolTable) (s : Scheme) :
    s.text symbols =
      (if s.appearing = [] then ""
        else "∀" ++ joinWith ", " (s.appearing.map fun v => (s.shown v).name) ++ ". ") ++
      (s.body.replace fun v => .var (s.shown v)).text symbols := by
  have hnames : s.renames.map (fun p => p.2.name) = s.appearing.map fun v => (s.shown v).name := by
    rw [← map_fst_renames, List.map_map]
    refine List.map_congr_left fun p hp => ?_
    rw [Function.comp_apply, shown_of_mem_renames hp]
  have hempty : s.renames.isEmpty = true ↔ s.appearing = [] := by
    rw [← map_fst_renames, List.map_eq_nil_iff, List.isEmpty_iff]
  have hbody : (s.body.replace fun v => .var (s.shown v)).text symbols =
      s.body.textAt ⟨symbols, s.renames⟩ .outer :=
    Ty.textAt_renamed rfl fun v _ => rfl
  simp only [text, hnames, hempty, hbody]

/-- Renamed schemes are written alike: their bound variables appear in the same order and get the
same names. -/
theorem Renamed.text_eq (symbols : SymbolTable) (h : Renamed ρ s r) :
    r.text symbols = s.text symbols := by
  have hquantified : r.appearing.map (fun v => (r.shown v).name) =
      s.appearing.map fun v => (s.shown v).name := by
    rw [h.appearing_eq, List.map_map]
    refine List.map_congr_left fun v hv => ?_
    rw [Function.comp_apply, h.shown_eq (mem_appearing.1 hv).1]
  have hempty : r.appearing = [] ↔ s.appearing = [] := by
    rw [h.appearing_eq, List.map_eq_nil_iff]
  have hbody : (r.body.replace fun v => .var (r.shown v)) =
      s.body.replace fun v => .var (s.shown v) := by
    rw [h.body, Ty.replace_replace]
    refine Ty.replace_congr fun v hv => ?_
    rw [Ty.replace_var, h.shown_eq hv]
  rw [Scheme.text_eq, Scheme.text_eq, hquantified, hbody]
  simp only [hempty]

/-- The text of a scheme is that of its body with each variable written under the name that it is
shown with. Different variables of the body are shown with different names, a free one with its own,
and a bound one never with the name of a free one. Two schemes that differ by a renaming of bound
variables have the same text. -/
theorem text_alpha_invariant (symbols : SymbolTable) (s : Scheme) :
    (s.text symbols =
      (if s.appearing = [] then ""
        else "∀" ++ joinWith ", " (s.appearing.map fun v => (s.shown v).name) ++ ". ") ++
      (s.body.replace fun v => .var (s.shown v)).text symbols) ∧
    (∀ v ∈ s.body.vars, ∀ w ∈ s.body.vars, (s.shown v).name = (s.shown w).name → v = w) ∧
    (∀ v, s.Free v → (s.shown v).name = v.name) ∧
    (∀ v w, s.Binds v → s.Free w → (s.shown v).name ≠ w.name) ∧
    ∀ ρ r, Renamed ρ s r → r.text symbols = s.text symbols := by
  refine ⟨s.text_eq symbols, fun v hv w hw h => ?_, fun v hv => ?_, fun v w hv hw h => ?_,
    fun ρ r h => h.text_eq symbols⟩
  · exact s.shown_injOn hv hw (TyVar.name_injective h)
  · rw [shown_of_free hv]
  · exact not_free_shown hv (TyVar.name_injective h ▸ hw)

/-- A pair of bound variables to a free one and the first of the pair, and a third variable bound
that does not occur. -/
def pairing (first second unused : Nat) : Scheme :=
  ⟨OrderedSet.ofList [⟨first⟩, ⟨second⟩, ⟨unused⟩],
    .fn (.tuple [.var ⟨first⟩, .var ⟨second⟩]) (.tuple [.var ⟨0⟩, .var ⟨first⟩])⟩

/-- The two bound variables trade places, and another one is bound in vain. -/
theorem text_alpha_invariant_swapped :
    let ρ : TyVar → TyVar := fun v => if v = ⟨1⟩ then ⟨5⟩ else if v = ⟨5⟩ then ⟨1⟩ else v
    Renamed ρ (pairing 5 1 9) (pairing 1 5 7) ∧
      (pairing 1 5 7).text .empty = (pairing 5 1 9).text .empty ∧
      (pairing 5 1 9).text .empty = "∀b, c. (b, c) -> (a, b)" ∧
      ((pairing 5 1 9).shown ⟨5⟩).name ≠ (⟨0⟩ : TyVar).name := by
  intro ρ
  have hrenamed : Renamed ρ (pairing 5 1 9) (pairing 1 5 7) := {
    body := by simp [pairing, ρ]
    free := by
      have hall : ∀ v ∈ (pairing 5 1 9).body.vars, (pairing 5 1 9).bound.contains v = false →
          ρ v = v := by decide
      exact fun v hv => hall v hv.1 hv.2
    injOn := by
      have hall : ∀ v ∈ (pairing 5 1 9).body.vars, ∀ w ∈ (pairing 5 1 9).body.vars,
          ρ v = ρ w → v = w := by decide
      exact fun v hv w hw h => hall v hv.1 w hw.1 h
    apart := by
      have hall : ∀ v ∈ (pairing 5 1 9).body.vars, (pairing 5 1 9).bound.contains v = true →
          (pairing 5 1 9).bound.contains (ρ v) = true := by decide
      intro v hv hfree
      have hunbound := hfree.2
      rw [hall v hv.1 hv.2] at hunbound
      cases hunbound
    bound := by
      have hall : ∀ w ∈ (pairing 1 5 7).body.vars, ((pairing 1 5 7).bound.contains w = true ↔
          ∃ v ∈ (pairing 5 1 9).body.vars, (pairing 5 1 9).bound.contains v = true ∧ ρ v = w) := by
        decide
      intro w hw
      rw [hall w hw]
      simp only [Binds, and_assoc] }
  obtain ⟨-, -, -, hapart, hsame⟩ := text_alpha_invariant .empty (pairing 5 1 9)
  refine ⟨hrenamed, hsame ρ _ hrenamed, by decide +kernel, hapart _ _ ?_ ?_⟩
  · exact ⟨by decide, by decide⟩
  · exact ⟨by decide, by decide⟩

end Texts

end Scheme

end SemanticAnalysis
