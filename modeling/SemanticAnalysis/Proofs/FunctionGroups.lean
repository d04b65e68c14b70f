import SemanticAnalysis.Declarations.Group
import SemanticAnalysis.Proofs.BlockOrder
import SemanticAnalysis.Proofs.Components
import SemanticAnalysis.Proofs.Lookups

/-!
Groups of functions. A function uses the functions that a reference inside it
refers to. If no function is listed twice, the groups are the classes of functions
that use each other in any number of steps, and each comes after those it uses.
Nothing else about the groups is used when functions are typed, so what is said of
that holds for every listing of these classes with dependencies first.
-/

namespace SemanticAnalysis.Declarations

open Relation

variable {f : Forest} {functions : List NodeId} {n m d : NodeId} {i j : Nat} {g : List NodeId}

theorem mem_topLevelFunctions {t : Tree} : n ∈ topLevelFunctions t ↔
    n ∈ t.walk ∧ isTopLevel t.toForest n = true := by
  simp [topLevelFunctions]

theorem topLevelFunctions_nodup {t : Tree} (ht : t.NamedOnce) : (topLevelFunctions t).Nodup :=
  (ht.walkFrom_nodup t.root).filter _

/-- A reference at a node or below it refers to one of the given functions. -/
def Uses (f : Forest) (functions : List NodeId) (n d : NodeId) : Prop :=
  d ∈ functions ∧ ∃ r ∈ f.walkFrom n, f.Refers r d

/-- What the code collects as uses are the uses. -/
theorem contains_usesOf : (usesOf f functions n).contains d = true ↔ Uses f functions n d := by
  simp only [Uses, usesOf, OrderedSet.contains_ofList, List.mem_filter, List.mem_filterMap,
    List.contains_iff_mem]
  rw [and_comm]
  refine and_congr_right fun _ => exists_congr fun r => and_congr_right fun _ => ?_
  unfold Forest.Refers
  split
  · rename_i target referral hk
    simp [hk]
  · rename_i hnot
    simp only [reduceCtorEq, false_iff, not_exists]
    exact fun target hk => hnot target d hk

/-- A function of the given ones that uses a function and is used by it, in any number of steps. -/
def Mutual (f : Forest) (functions : List NodeId) (n m : NodeId) : Prop :=
  m ∈ functions ∧ ReflTransGen (Uses f functions) n m ∧ ReflTransGen (Uses f functions) m n

/-- A listing of the strongly connected components of some functions in which each comes after those
it uses. -/
structure DependenciesFirst (f : Forest) (functions : List NodeId) (listing : List (List NodeId)) :
    Prop where
  covered : ∀ n ∈ functions, ∃ g ∈ listing, n ∈ g
  component : ∀ g ∈ listing, ∀ n ∈ g, ∀ m, m ∈ g ↔ Mutual f functions n m
  ordered : ∀ before g after, listing = before ++ g :: after → ∀ n ∈ g, ∀ d,
    Uses f functions n d → d ∈ g ∨ ∃ g' ∈ before, d ∈ g'
  disjoint : ∀ before g after, listing = before ++ g :: after → ∀ n ∈ g, ∀ g' ∈ before, n ∉ g'

theorem DependenciesFirst.mem_functions {listing : List (List NodeId)}
    (h : DependenciesFirst f functions listing) (hg : g ∈ listing) (hn : n ∈ g) : n ∈ functions :=
  ((h.component g hg n hn n).1 hn).1

section Places

/-- The last place of a function that is listed once is its place. -/
theorem lastPlace_eq (hf : functions.Nodup) (h : functions[i]? = some n) :
    lastPlace functions n = i := by
  obtain ⟨hi, hn⟩ := List.getElem?_eq_some_iff.1 h
  have hj : functions.length - 1 - i < functions.reverse.length := by simp; omega
  have hget : functions.reverse[functions.length - 1 - i] = n := by
    rw [List.getElem_reverse, ← hn]
    congr 1
    omega
  have hidx : functions.reverse.idxOf n = functions.length - 1 - i := by
    rw [← hget]
    exact (List.nodup_reverse.2 hf).idxOf_getElem _ hj
  unfold lastPlace
  omega

theorem exists_place (hn : n ∈ functions) : ∃ i : Nat, functions[i]? = some n :=
  List.mem_iff_getElem?.1 hn

theorem place_mem_range (h : functions[i]? = some n) : i ∈ List.range functions.length := by
  obtain ⟨hi, -⟩ := List.getElem?_eq_some_iff.1 h
  exact List.mem_range.2 hi

/-- The place of a function leads to the places of what it uses. -/
theorem step_place_iff (hf : functions.Nodup) (hn : functions[i]? = some n) :
    Graph.Step (List.range functions.length) (placesUsed f functions) i j ↔
      ∃ d, functions[j]? = some d ∧ Uses f functions n d := by
  have hused : j ∈ placesUsed f functions i ↔
      ∃ d, Uses f functions n d ∧ lastPlace functions d = j := by
    simp only [placesUsed, hn, lastPlace_eq hf hn, if_true, List.mem_map, List.mem_reverse,
      OrderedSet.mem_toList_iff, contains_usesOf]
  rw [Graph.Step, hused]
  constructor
  · rintro ⟨⟨d, hd, rfl⟩, -⟩
    obtain ⟨k, hk⟩ := exists_place hd.1
    rw [lastPlace_eq hf hk]
    exact ⟨d, hk, hd⟩
  · rintro ⟨d, hj, hd⟩
    exact ⟨⟨d, hd, lastPlace_eq hf hj⟩, place_mem_range hj⟩

/-- Ways between places are ways between the functions there. -/
theorem leads_place_iff (hf : functions.Nodup) (hn : functions[i]? = some n) :
    Graph.Leads (List.range functions.length) (placesUsed f functions) i j ↔
      ∃ d, functions[j]? = some d ∧ ReflTransGen (Uses f functions) n d := by
  constructor
  · intro h
    induction h with
    | refl => exact ⟨n, hn, .refl⟩
    | tail _ hstep ih =>
      obtain ⟨m, hm, hnm⟩ := ih
      obtain ⟨d, hd, hmd⟩ := (step_place_iff hf hm).1 hstep
      exact ⟨d, hd, hnm.tail hmd⟩
  · rintro ⟨d, hj, h⟩
    induction h generalizing j with
    | refl =>
      obtain rfl : i = j := (lastPlace_eq hf hn).symm.trans (lastPlace_eq hf hj)
      exact .refl
    | tail hnm hmd ih =>
      rename_i m d
      have hm : m ∈ functions := by
        cases hnm with
        | refl => exact List.mem_of_getElem? hn
        | tail _ h => exact h.1
      obtain ⟨k, hk⟩ := exists_place hm
      exact (ih hk).tail ((step_place_iff hf hk).2 ⟨d, hj, hmd⟩)

end Places

/-- The functions at some places, in ascending order. -/
theorem mem_functionsAt {places : List Nat} :
    n ∈ OrderedSet.toList (OrderedSet.ofList (places.filterMap fun i => functions[i]?)) ↔
      ∃ i ∈ places, functions[i]? = some n := by
  simp [OrderedSet.mem_toList_iff, List.mem_filterMap]

/-- Every function is in a group. -/
theorem exists_group (hn : n ∈ functions) : ∃ g ∈ groups f functions, n ∈ g := by
  obtain ⟨i, hi⟩ := exists_place hn
  obtain ⟨c, hc, hic⟩ : ∃ c ∈ Graph.components (List.range functions.length)
      (placesUsed f functions), i ∈ c := Graph.exists_component (place_mem_range hi)
  exact ⟨_, List.mem_map_of_mem hc, mem_functionsAt.2 ⟨i, hic, hi⟩⟩

/-- A group holds with a function those that use each other with it, and no others. -/
theorem mem_group_iff (hf : functions.Nodup) (hg : g ∈ groups f functions) (hn : n ∈ g) :
    m ∈ g ↔ Mutual f functions n m := by
  obtain ⟨c, hc, rfl⟩ := List.mem_map.1 hg
  obtain ⟨i, hic, hi⟩ := mem_functionsAt.1 hn
  rw [mem_functionsAt]
  have hmem := (Graph.mem_component_iff hc hic).2
  constructor
  · intro hm
    obtain ⟨j, hjc, hj⟩ := hm
    obtain ⟨-, hij, hji⟩ := (hmem j).1 hjc
    obtain ⟨m', hm', hnm⟩ := (leads_place_iff hf hi).1 hij
    obtain ⟨n', hn', hmn⟩ := (leads_place_iff hf hj).1 hji
    obtain rfl : m = m' := Option.some.inj (hj.symm.trans hm')
    obtain rfl : n = n' := Option.some.inj (hi.symm.trans hn')
    exact ⟨List.mem_of_getElem? hj, hnm, hmn⟩
  · intro hmutual
    obtain ⟨hm, hnm, hmn⟩ := hmutual
    obtain ⟨j, hj⟩ := exists_place hm
    exact ⟨j, (hmem j).2 ⟨place_mem_range hj, (leads_place_iff hf hi).2 ⟨m, hj, hnm⟩,
      (leads_place_iff hf hj).2 ⟨n, hi, hmn⟩⟩, hj⟩

/-- What a function uses is in its group or in one before it. -/
theorem group_after (hf : functions.Nodup) {before after : List (List NodeId)}
    (h : groups f functions = before ++ g :: after) (hn : n ∈ g) (hd : Uses f functions n d) :
    d ∈ g ∨ ∃ g' ∈ before, d ∈ g' := by
  obtain ⟨cs, cs', hcs, rfl, hafter⟩ := List.map_eq_append_iff.1 h
  obtain ⟨c, cs', rfl, rfl, -⟩ := List.map_eq_cons_iff.1 hafter
  obtain ⟨i, hic, hi⟩ := mem_functionsAt.1 hn
  obtain ⟨j, hj⟩ := exists_place hd.1
  have hlead := (leads_place_iff (f := f) hf hi).2 ⟨d, hj, .single hd⟩
  rcases Graph.component_after hcs hic hlead with hjc | ⟨c', hc', hjc⟩
  · exact Or.inl (mem_functionsAt.2 ⟨j, hjc, hj⟩)
  · exact Or.inr ⟨_, List.mem_map_of_mem hc', mem_functionsAt.2 ⟨j, hjc, hj⟩⟩

/-- No function is in two groups. -/
theorem group_disjoint (hf : functions.Nodup) {before after : List (List NodeId)}
    (h : groups f functions = before ++ g :: after) {g' : List NodeId} (hg' : g' ∈ before)
    (hn : n ∈ g) : n ∉ g' := by
  obtain ⟨cs, cs', hcs, rfl, hafter⟩ := List.map_eq_append_iff.1 h
  obtain ⟨c, cs', rfl, rfl, -⟩ := List.map_eq_cons_iff.1 hafter
  obtain ⟨c', hc', rfl⟩ := List.mem_map.1 hg'
  intro hn'
  obtain ⟨i, hic, hi⟩ := mem_functionsAt.1 hn
  obtain ⟨j, hjc, hj⟩ := mem_functionsAt.1 hn'
  obtain rfl : i = j := (lastPlace_eq hf hi).symm.trans (lastPlace_eq hf hj)
  exact Graph.component_disjoint hcs hc' hic hjc

theorem dependenciesFirst_groups (hf : functions.Nodup) :
    DependenciesFirst f functions (groups f functions) where
  covered _ hn := exists_group hn
  component _ hg _ hn _ := mem_group_iff hf hg hn
  ordered _ _ _ h _ hn _ hd := group_after hf h hn hd
  disjoint _ _ _ h _ hn _ hg' := group_disjoint hf h hg' hn

end SemanticAnalysis.Declarations
