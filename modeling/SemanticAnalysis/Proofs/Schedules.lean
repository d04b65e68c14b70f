import Mathlib.Algebra.BigOperators.Group.Finset.Basic
import Mathlib.Algebra.BigOperators.Group.Finset.Piecewise
import Mathlib.Algebra.Order.BigOperators.Group.Finset
import Mathlib.Data.Set.Finite.Basic
import SemanticAnalysis.Graph.Schedule
import SemanticAnalysis.Proofs.GraphLayers

/-!
Schedules of items and of all that they depend on. Expansion takes up each item of
the closure once and puts what it depends on in front of what is pending, so it ends
after as many steps as there are items listed and dependencies of the closure. The
graph that it leaves has the closure as its nodes and the dependencies as its edges.
Its layers, last first, are the schedule, and along a chain of dependencies the number
of the layer falls with each step.
-/

namespace SemanticAnalysis.Schedule

open Relation

variable {α : Type} {dependencies : α → List α} {items pending expanded : List α} {v w : α}

section Closures

def DependsOn (dependencies : α → List α) (v w : α) : Prop := w ∈ dependencies v

def closure (dependencies : α → List α) (items : List α) : Set α :=
  {v | ∃ item ∈ items, ReflTransGen (DependsOn dependencies) item v}

theorem mem_closure_of_mem (h : v ∈ items) : v ∈ closure dependencies items := ⟨v, h, .refl⟩

theorem mem_closure_of_dependsOn (hv : v ∈ closure dependencies items)
    (h : DependsOn dependencies v w) : w ∈ closure dependencies items := by
  obtain ⟨item, hitem, hreach⟩ := hv
  exact ⟨item, hitem, hreach.tail h⟩

/-- What holds the items and the dependencies of all that it holds has the closure in it. -/
theorem closure_subset {s : Set α} (hitems : ∀ v ∈ items, v ∈ s)
    (hclosed : ∀ v ∈ s, ∀ w ∈ dependencies v, w ∈ s) : closure dependencies items ⊆ s := by
  intro v hv
  obtain ⟨item, hitem, hreach⟩ := hv
  induction hreach with
  | refl => exact hitems item hitem
  | tail _ h ih => exact hclosed _ ih _ h

end Closures

section Progress

/-- What expansion comes to from some items: whatever is pending or was taken up is in the closure,
and the items and the dependencies of what was taken up are pending or were taken up too. -/
structure Expands (dependencies : α → List α) (items pending expanded : List α) : Prop where
  reached : ∀ v, v ∈ pending ∨ v ∈ expanded → v ∈ closure dependencies items
  listed : ∀ v ∈ items, v ∈ pending ∨ v ∈ expanded
  followed : ∀ v ∈ expanded, ∀ w ∈ dependencies v, w ∈ pending ∨ w ∈ expanded

theorem expands_start (dependencies : α → List α) (items : List α) :
    Expands dependencies items items [] where
  reached v hv := mem_closure_of_mem (by simpa using hv)
  listed v hv := Or.inl hv
  followed := by simp

/-- An item that was taken up before is passed over. -/
theorem Expands.skip (h : Expands dependencies items (v :: pending) expanded) (hv : v ∈ expanded) :
    Expands dependencies items pending expanded where
  reached w hw := h.reached w (hw.imp_left (List.mem_cons_of_mem v))
  listed w hw := by
    have hplace := h.listed w hw
    grind
  followed u hu w hw := by
    have hplace := h.followed u hu w hw
    grind

/-- An item is taken up, and what it depends on becomes pending. -/
theorem Expands.take (h : Expands dependencies items (v :: pending) expanded) :
    Expands dependencies items (dependencies v ++ pending) (v :: expanded) where
  reached w hw := by
    have hv : v ∈ closure dependencies items := h.reached v (Or.inl (List.mem_cons_self ..))
    have hold := h.reached w
    have hnew : w ∈ dependencies v → w ∈ closure dependencies items := mem_closure_of_dependsOn hv
    grind
  listed w hw := by
    have hplace := h.listed w hw
    grind
  followed u hu w hw := by
    have hplace := h.followed u
    grind

/-- When nothing is pending, the items taken up are those of the closure. -/
theorem Expands.mem_expanded_iff (h : Expands dependencies items [] expanded) :
    v ∈ expanded ↔ v ∈ closure dependencies items := by
  refine ⟨fun hv => h.reached v (Or.inr hv), fun hv => ?_⟩
  have hall : closure dependencies items ⊆ {v | v ∈ expanded} :=
    closure_subset (fun v hv => by simpa using h.listed v hv)
      fun v hv w hw => by simpa using h.followed v hv w hw
  exact hall hv

end Progress

variable [DecidableEq α] {g : Digraph α} {u : α} {i j n : Nat} {layers : List (List α)}
  {upper lower : List α}

section Expansion

def taken (dependencies : α → List α) (expanded : List α) : Digraph α :=
  Digraph.ofAdditions (expanded.reverse.map fun v => .children v (dependencies v))

theorem taken_cons (dependencies : α → List α) (expanded : List α) (v : α) :
    taken dependencies (v :: expanded) =
      (taken dependencies expanded).addChildren v (dependencies v) := by
  simp [taken, Digraph.ofAdditions, Digraph.extend]

theorem mem_nodes_taken : v ∈ (taken dependencies expanded).nodes ↔
    v ∈ expanded ∨ ∃ u ∈ expanded, v ∈ dependencies u := by
  rw [taken, (Digraph.ofAdditions_holds _).1, List.mem_eraseDups]
  simp only [List.mem_flatMap, List.mem_map, List.mem_reverse, exists_exists_and_eq_and,
    Digraph.Addition.mentions, List.mem_cons]
  grind

theorem edge_taken : (taken dependencies expanded).Edge v w ↔
    v ∈ expanded ∧ DependsOn dependencies v w := by
  rw [taken, (Digraph.ofAdditions_holds _).2]
  simp only [List.mem_map, List.mem_reverse, exists_exists_and_eq_and,
    Digraph.Addition.joins_children]
  grind [DependsOn]

structure IsGraphOf (dependencies : α → List α) (items : List α) (g : Digraph α) : Prop where
  nodes : ∀ v, v ∈ g.nodes ↔ v ∈ closure dependencies items
  edges : ∀ v w, g.Edge v w ↔ v ∈ closure dependencies items ∧ DependsOn dependencies v w

theorem Expands.isGraphOf (h : Expands dependencies items [] expanded) :
    IsGraphOf dependencies items (taken dependencies expanded) where
  nodes v := by
    rw [mem_nodes_taken, h.mem_expanded_iff]
    refine ⟨fun hv => hv.elim id fun hdep => ?_, Or.inl⟩
    obtain ⟨u, hu, hvu⟩ := hdep
    exact mem_closure_of_dependsOn (h.mem_expanded_iff.1 hu) hvu
  edges v w := by rw [edge_taken, h.mem_expanded_iff]

end Expansion

section Termination

variable (hfin : (closure dependencies items).Finite)

noncomputable def outstanding (hfin : (closure dependencies items).Finite) (expanded : List α) :
    Nat :=
  ∑ v ∈ hfin.toFinset \ expanded.toFinset, (dependencies v).length

/-- Taking up an item leaves its own dependencies outstanding no longer. -/
theorem outstanding_take (hv : v ∈ closure dependencies items) (hnew : v ∉ expanded) :
    outstanding hfin expanded = (dependencies v).length + outstanding hfin (v :: expanded) := by
  unfold outstanding
  have hmem : v ∈ hfin.toFinset \ expanded.toFinset := by simp [hv, hnew]
  have hrest : hfin.toFinset \ (v :: expanded).toFinset =
      (hfin.toFinset \ expanded.toFinset).erase v := by
    ext u
    simp
    tauto
  rw [hrest]
  exact (Finset.add_sum_erase _ (fun u => (dependencies u).length) hmem).symm

theorem Expands.outstanding_eq_zero (h : Expands dependencies items [] expanded) :
    outstanding hfin expanded = 0 := by
  unfold outstanding
  have hnone : hfin.toFinset \ expanded.toFinset = ∅ := by
    ext u
    simp [h.mem_expanded_iff]
  rw [hnone, Finset.sum_empty]

/-- Expansion comes to an end after as many steps as items are pending and dependencies are
outstanding, and leaves the graph of the closure. -/
theorem Expands.exists_graph (h : Expands dependencies items pending expanded) :
    ∃ g, IsGraphOf dependencies items g ∧ ∀ fuel,
      expand dependencies fuel pending expanded (taken dependencies expanded) =
        if pending.length + outstanding hfin expanded ≤ fuel then some g else none := by
  induction hsteps : pending.length + outstanding hfin expanded generalizing pending expanded with
  | zero =>
    obtain rfl : pending = [] := List.length_eq_zero_iff.1 (by omega)
    exact ⟨_, h.isGraphOf, fun fuel => by simp [expand]⟩
  | succ steps ih =>
    cases pending with
    | nil => simp [h.outstanding_eq_zero hfin] at hsteps
    | cons v pending =>
      -- Either way one step is made, and one less is left to make.
      obtain ⟨pending', expanded', h', hsteps', hnext⟩ : ∃ pending' expanded',
          Expands dependencies items pending' expanded' ∧
          pending'.length + outstanding hfin expanded' = steps ∧
          ∀ fuel, expand dependencies (fuel + 1) (v :: pending) expanded
              (taken dependencies expanded) =
            expand dependencies fuel pending' expanded' (taken dependencies expanded') := by
        by_cases hv : v ∈ expanded
        · refine ⟨pending, expanded, h.skip hv, ?_, fun fuel => by simp [expand, hv]⟩
          simp only [List.length_cons] at hsteps
          omega
        · refine ⟨_, _, h.take, ?_, fun fuel => by simp [expand, hv, taken_cons]⟩
          have hcount := outstanding_take hfin (h.reached v (Or.inl (List.mem_cons_self ..))) hv
          simp only [List.length_cons, List.length_append] at hsteps ⊢
          omega
      obtain ⟨g, hg, hrun⟩ := ih h' hsteps'
      refine ⟨g, hg, fun fuel => ?_⟩
      cases fuel with
      | zero => simp [expand]
      | succ fuel =>
        rw [hnext, hrun]
        simp

end Termination

section Layers

/-- From the end of a path on, edges make for longer paths. -/
theorem exists_longer_path (h : g.Path u n v) (hvw : TransGen g.Edge v w) :
    ∃ m, n < m ∧ g.Path u m w := by
  induction hvw with
  | single hedge => exact ⟨n + 1, Nat.lt_succ_self n, h.step hedge⟩
  | tail _ hedge ih =>
    obtain ⟨m, hm, hpath⟩ := ih
    exact ⟨m + 1, Nat.lt_succ_of_lt hm, hpath.step hedge⟩

/-- What an edge or several lead to stands in a later layer of the graph. -/
theorem lt_of_transGen (h : g.layers = .ok layers) (hi : layers[i]? = some upper)
    (hj : layers[j]? = some lower) (hv : v ∈ upper) (hw : w ∈ lower)
    (hvw : TransGen g.Edge v w) : i < j := by
  rw [Digraph.layers_eq] at h
  have hupper := ((Digraph.layersFrom_ok h).1 i upper hi).2
  have hlower := ((Digraph.layersFrom_ok h).1 j lower hj).2
  rw [Nat.zero_add] at hupper hlower
  obtain ⟨⟨u, hpath⟩, -⟩ := Digraph.mem_sources_remaining.1 (hupper ▸ hv)
  obtain ⟨m, hm, hlonger⟩ := exists_longer_path hpath hvw
  have hlongest := (Digraph.mem_sources_remaining.1 (hlower ▸ hw)).2 ⟨u, hlonger⟩
  exact Nat.lt_of_lt_of_le hm hlongest

/-- Ways along the edges of the graph are ways along the dependencies. -/
theorem IsGraphOf.transGen_iff (h : IsGraphOf dependencies items g)
    (hv : v ∈ closure dependencies items) :
    TransGen g.Edge v w ↔ TransGen (DependsOn dependencies) v w := by
  constructor
  · exact TransGen.mono (fun a b hedge => ((h.edges a b).1 hedge).2) v w
  · intro hvw
    -- Everything along the way is in the closure.
    suffices TransGen g.Edge v w ∧ w ∈ closure dependencies items from this.1
    induction hvw with
    | single hdep =>
      exact ⟨.single ((h.edges _ _).2 ⟨hv, hdep⟩), mem_closure_of_dependsOn hv hdep⟩
    | tail _ hdep ih =>
      exact ⟨ih.1.tail ((h.edges _ _).2 ⟨ih.2, hdep⟩), mem_closure_of_dependsOn ih.2 hdep⟩

theorem IsGraphOf.onCycle_iff (h : IsGraphOf dependencies items g) : g.OnCycle v ↔
    v ∈ closure dependencies items ∧ TransGen (DependsOn dependencies) v v := by
  constructor
  · intro hcycle
    have hv := (h.nodes v).1 hcycle.mem_nodes
    exact ⟨hv, (h.transGen_iff hv).1 hcycle⟩
  · intro hcycle
    exact (h.transGen_iff hcycle.1).2 hcycle.2

/-- In the schedule what an item depends on stands in an earlier layer. -/
theorem IsGraphOf.lt_of_dependsOn (h : IsGraphOf dependencies items g)
    (hlayers : g.layers = .ok layers) (hi : layers.reverse[i]? = some upper)
    (hj : layers.reverse[j]? = some lower) (hv : v ∈ upper) (hw : w ∈ lower)
    (hvw : TransGen (DependsOn dependencies) v w) : j < i := by
  obtain ⟨hilt, -⟩ := List.getElem?_eq_some_iff.1 hi
  obtain ⟨hjlt, -⟩ := List.getElem?_eq_some_iff.1 hj
  rw [List.length_reverse] at hilt hjlt
  rw [List.getElem?_reverse hilt] at hi
  rw [List.getElem?_reverse hjlt] at hj
  have hmem : v ∈ layers.flatten := List.mem_flatten.2 ⟨upper, List.mem_of_getElem? hi, hv⟩
  have hclosure := (h.nodes v).1 ((Digraph.flatten_layers_perm hlayers).mem_iff.1 hmem)
  have hlt := lt_of_transGen hlayers hi hj hv hw ((h.transGen_iff hclosure).2 hvw)
  omega

/-- With enough fuel the layers are those of the graph of the closure, last first. -/
theorem exists_layers (hfin : (closure dependencies items).Finite) :
    ∃ g, IsGraphOf dependencies items g ∧ ∀ fuel, Schedule.layers fuel dependencies items =
      if items.length + ∑ v ∈ hfin.toFinset, (dependencies v).length ≤ fuel
      then some (g.layers.map List.reverse) else none := by
  obtain ⟨g, hg, hrun⟩ := (expands_start dependencies items).exists_graph hfin
  refine ⟨g, hg, fun fuel => ?_⟩
  have hstart : expand dependencies fuel items [] Digraph.empty = _ := hrun fuel
  have hsum : outstanding hfin [] = ∑ v ∈ hfin.toFinset, (dependencies v).length := by
    simp [outstanding]
  rw [Schedule.layers, hstart, hsum]
  split <;> rfl

end Layers

section Tables

theorem tableLookup_concat (table : List (α × List α)) (key : α) (found : List α) (v : α) :
    tableLookup (table ++ [(key, found)]) v = if key = v then found else tableLookup table v := by
  unfold tableLookup
  rw [List.reverse_append, List.reverse_singleton, List.singleton_append, List.find?_cons]
  by_cases h : key = v <;> simp [h]

/-- All that items depend on by a table is listed in it at most once per entry. -/
theorem sum_tableLookup_le (table : List (α × List α)) (s : Finset α) :
    ∑ v ∈ s, (tableLookup table v).length ≤ (table.flatMap fun p => p.2).length := by
  induction table using List.reverseRecOn with
  | nil => simp [tableLookup]
  | append_singleton table p ih =>
    have hone : ∑ v ∈ s, (if p.1 = v then p.2.length else 0) ≤ p.2.length := by
      rw [Finset.sum_ite_eq]
      split <;> simp
    calc ∑ v ∈ s, (tableLookup (table ++ [p]) v).length
        ≤ ∑ v ∈ s, ((if p.1 = v then p.2.length else 0) + (tableLookup table v).length) := by
          refine Finset.sum_le_sum fun v _ => ?_
          rw [tableLookup_concat]
          split <;> simp
      _ = ∑ v ∈ s, (if p.1 = v then p.2.length else 0) +
          ∑ v ∈ s, (tableLookup table v).length := Finset.sum_add_distrib
      _ ≤ p.2.length + (table.flatMap fun p => p.2).length := Nat.add_le_add hone ih
      _ = ((table ++ [p]).flatMap fun p => p.2).length := by
          simp [Nat.add_comm]

theorem mem_of_mem_tableLookup {table : List (α × List α)} (h : w ∈ tableLookup table v) :
    w ∈ table.flatMap fun p => p.2 := by
  unfold tableLookup at h
  cases hfind : table.reverse.find? fun p => p.1 = v with
  | none => simp [hfind] at h
  | some p =>
    have hp : p ∈ table := List.mem_reverse.1 (List.mem_of_find?_eq_some hfind)
    exact List.mem_flatMap.2 ⟨p, hp, by simpa [hfind] using h⟩

theorem finite_closure_tableLookup (table : List (α × List α)) (items : List α) :
    (closure (tableLookup table) items).Finite := by
  refine (List.finite_toSet (items ++ table.flatMap fun p => p.2)).subset ?_
  exact closure_subset (fun v hv => List.mem_append_left _ hv)
    fun v _ w hw => List.mem_append_right _ (mem_of_mem_tableLookup hw)

/-- The fuel that a table is given is enough for any items. -/
theorem ofTable_eq {table : List (α × List α)} {hfin : (closure (tableLookup table) items).Finite}
    {result : Except (GraphError α) (List (List α))}
    (h : ∀ fuel, Schedule.layers fuel (tableLookup table) items =
      if items.length + ∑ v ∈ hfin.toFinset, (tableLookup table v).length ≤ fuel
      then some result else none) :
    ofTable table items = some result := by
  rw [ofTable, h, if_pos]
  exact Nat.add_le_add_left (sum_tableLookup_le table _) _

end Tables

section Results

/-- Items with a finite closure are scheduled after as many steps as there are items listed and
dependencies of the closure; with less fuel there is no answer. The answer is a schedule exactly if
nothing in the closure depends on itself, directly or not. A schedule holds exactly the closure,
each item once, every item in a later layer than all it depends on, so that no item depends on
another one of its layer. Otherwise the answer is an error that names what depends on itself. -/
theorem schedule_exact (hfin : (closure dependencies items).Finite) :
    ∃ result,
      (∀ fuel, Schedule.layers fuel dependencies items =
        if items.length + ∑ v ∈ hfin.toFinset, (dependencies v).length ≤ fuel
        then some result else none) ∧
      ((∃ schedule, result = .ok schedule) ↔
        ∀ v ∈ closure dependencies items, ¬ TransGen (DependsOn dependencies) v v) ∧
      (∀ schedule, result = .ok schedule → schedule.flatten.Nodup ∧
        (∀ v, v ∈ schedule.flatten ↔ v ∈ closure dependencies items) ∧
        (∀ (i j : Nat) upper lower, schedule[i]? = some upper → schedule[j]? = some lower →
          ∀ v ∈ upper, ∀ w ∈ lower, TransGen (DependsOn dependencies) v w → j < i) ∧
        ∀ layer ∈ schedule, ∀ v ∈ layer, ∀ w ∈ layer,
          ¬ TransGen (DependsOn dependencies) v w) ∧
      ∀ e, result = .error e → ∃ nodes, e = .cycle nodes ∧ ∀ v, v ∈ nodes ↔
        v ∈ closure dependencies items ∧ TransGen (DependsOn dependencies) v v := by
  obtain ⟨g, hg, hruns⟩ := exists_layers hfin
  refine ⟨g.layers.map List.reverse, hruns, ?_⟩
  cases hlayers : g.layers with
  | error e =>
    obtain ⟨v, hcycle⟩ := Digraph.exists_onCycle_of_error hlayers
    obtain ⟨hv, hself⟩ := hg.onCycle_iff.1 hcycle
    refine ⟨⟨fun h => ?_, fun hnone => absurd hself (hnone v hv)⟩, fun schedule h => ?_,
      fun e' he => ?_⟩
    · obtain ⟨schedule, h⟩ := h
      cases h
    · cases h
    · rw [Digraph.layers_eq] at hlayers
      cases he
      exact ⟨g.cyclicNodes, (Digraph.layersFrom_error hlayers).1,
        fun v => Digraph.mem_cyclicNodes.trans hg.onCycle_iff⟩
  | ok layers =>
    have hperm := Digraph.flatten_layers_perm hlayers
    have hflat : layers.reverse.flatten.Perm g.nodes :=
      ((List.reverse_perm layers).flatten).trans hperm
    have hlater : ∀ i j upper lower, layers.reverse[i]? = some upper →
        layers.reverse[j]? = some lower → ∀ v ∈ upper, ∀ w ∈ lower,
          TransGen (DependsOn dependencies) v w → j < i :=
      fun i j upper lower hi hj v hv w hw hvw => hg.lt_of_dependsOn hlayers hi hj hv hw hvw
    refine ⟨⟨fun _ v hv hself => ?_, fun _ => ⟨layers.reverse, rfl⟩⟩, fun schedule h => ?_,
      fun e he => by cases he⟩
    · exact Digraph.not_onCycle_of_ok hlayers v (hg.onCycle_iff.2 ⟨hv, hself⟩)
    · cases h
      refine ⟨hflat.nodup_iff.2 g.nodup, fun v => hflat.mem_iff.trans (hg.nodes v), hlater,
        fun layer hmem v hv w hw hvw => ?_⟩
      obtain ⟨i, hi⟩ := List.mem_iff_getElem?.1 hmem
      exact Nat.lt_irrefl i (hlater i i layer layer hi hi v hv w hw hvw)

/-- Four jobs of which the last two need the one before them, directly or not, more than once. -/
def jobs : List (Nat × List Nat) := [(3, [1, 2]), (2, [1]), (1, [0])]

theorem schedule_exact_jobs :
    (closure (tableLookup jobs) [2, 3, 2]).Finite ∧
      ofTable jobs [2, 3, 2] = some (.ok [[0], [1], [2], [3]]) ∧
      (∀ v, v ∈ [0, 1, 2, 3] ↔ v ∈ closure (tableLookup jobs) [2, 3, 2]) ∧
      ∀ v ∈ closure (tableLookup jobs) [2, 3, 2],
        ¬ TransGen (DependsOn (tableLookup jobs)) v v := by
  have hfin := finite_closure_tableLookup jobs [2, 3, 2]
  obtain ⟨result, hruns, hok, hschedule, -⟩ := schedule_exact hfin
  have hrun : ofTable jobs [2, 3, 2] = some result := ofTable_eq hruns
  have hany : (ofTable jobs [2, 3, 2]).any
      (fun r => r.toOption = some [[0], [1], [2], [3]]) = true := by decide +kernel
  obtain rfl : result = .ok [[0], [1], [2], [3]] := by
    cases result with
    | error e => simp [hrun, Except.toOption] at hany
    | ok schedule => simpa [hrun, Except.toOption] using hany
  exact ⟨hfin, hrun, (hschedule _ rfl).2.1, hok.1 ⟨_, rfl⟩⟩

end Results

end SemanticAnalysis.Schedule
