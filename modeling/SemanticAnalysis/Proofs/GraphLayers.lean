import Mathlib.Data.List.Nodup
import Mathlib.Data.List.Perm.Basic
import Mathlib.Order.Bounds.Basic
import SemanticAnalysis.Proofs.Digraphs

/-!
Layers of a graph. While layers are peeled off, a pending node is held back by as
many parents as are still there, so no count goes below zero. After some layers the
nodes that are left are the ends of paths of that many edges. So a node stands in the
layer whose number is the length of the longest path that ends in it, and peeling
gets stuck exactly if there is a cycle.
-/

namespace SemanticAnalysis.Digraph

variable {α : Type} [DecidableEq α] {g : Digraph α} {u v : α} {i n : Nat} {rest layer : List α}
  {layers : List (List α)}

section Pending

/-- What is pending while some nodes are left: each with the number of its parents among them. -/
def pendingOf (g : Digraph α) (rest : List α) : List (α × Nat) :=
  rest.map fun v => (v, rest.countP fun u => g.isEdge u v)

def sources (g : Digraph α) (rest : List α) : List α :=
  rest.filter fun v => !rest.any fun u => g.isEdge u v

theorem degrees_eq (g : Digraph α) : g.degrees = g.pendingOf g.nodes := by
  simp [degrees, pendingOf, parents, List.countP_eq_length_filter]

theorem mem_sources : v ∈ g.sources rest ↔ v ∈ rest ∧ ∀ u ∈ rest, ¬ g.Edge u v := by
  simp [sources, Edge]

theorem freeOf_pendingOf (g : Digraph α) (rest : List α) :
    freeOf (g.pendingOf rest) = g.sources rest := by
  have hzero : ∀ v, (rest.countP (fun u => g.isEdge u v) = 0) ↔
      (!rest.any fun u => g.isEdge u v) = true := by
    intro v
    simp [List.countP_eq_zero]
  simp only [freeOf, pendingOf, sources, List.filter_map, List.map_map, Function.comp_def, hzero,
    List.map_id', Bool.decide_eq_true]

/-- Taking a node off takes one from the count of each of its children. -/
theorem takeOff_pendingOf (hrest : rest.Nodup) (hu : u ∈ rest) :
    g.takeOff (g.pendingOf rest) u = g.pendingOf (rest.filter (· ≠ u)) := by
  have herase : rest.filter (· ≠ u) = rest.erase u := by
    rw [hrest.erase_eq_filter]
    exact List.filter_congr fun v _ => by simp [bne, beq_eq_decide]
  simp only [takeOff, pendingOf, List.filter_map, List.map_map, Function.comp_def, herase]
  apply List.map_congr_left
  intro v _
  rw [List.countP_erase]
  cases g.isEdge u v <;> simp [hu]

/-- What is still to be taken off after a node is left without it. -/
theorem subset_filter_of_cons (hu : u ∉ layer) (hsub : u :: layer ⊆ rest) :
    layer ⊆ rest.filter (· ≠ u) := by
  intro v hv
  refine List.mem_filter.2 ⟨hsub (List.mem_cons_of_mem u hv), ?_⟩
  exact decide_eq_true fun heq => hu (heq ▸ hv)

/-- After all nodes of a layer are taken off, each node has the number of its parents that are left.
-/
theorem foldl_takeOff_pendingOf (hrest : rest.Nodup) (hlayer : layer.Nodup) (hsub : layer ⊆ rest) :
    layer.foldl g.takeOff (g.pendingOf rest) = g.pendingOf (rest.filter (· ∉ layer)) := by
  induction layer generalizing rest with
  | nil => simp
  | cons u layer ih =>
    obtain ⟨hu, hlayer⟩ := List.nodup_cons.1 hlayer
    rw [List.foldl_cons, takeOff_pendingOf hrest (hsub (List.mem_cons_self ..)),
      ih (hrest.filter _) hlayer (subset_filter_of_cons hu hsub), List.filter_filter]
    congr 1
    apply List.filter_congr
    intro v _
    simp only [List.mem_cons, not_or, ne_eq, Bool.decide_and, Bool.and_comm]

/-- What peeling comes to: the pending nodes, and those of the layer at hand that are still to be
taken off. -/
inductive Peels (g : Digraph α) : List (α × Nat) → List α → Prop where
  | start : Peels g g.degrees []
  | next {pending : List (α × Nat)} (done : Peels g pending []) : Peels g pending (freeOf pending)
  | takeOff {pending : List (α × Nat)} {u : α} {layer : List α} (h : Peels g pending (u :: layer)) :
    Peels g (g.takeOff pending u) layer

/-- A pending node is held back by the parents that have not been taken off. -/
theorem Peels.exists_rest {pending : List (α × Nat)} (h : g.Peels pending layer) :
    ∃ rest, rest.Nodup ∧ pending = g.pendingOf rest ∧ layer.Nodup ∧ layer ⊆ rest := by
  induction h with
  | start => exact ⟨g.nodes, g.nodup, g.degrees_eq, List.nodup_nil, List.nil_subset _⟩
  | next _ ih =>
    obtain ⟨rest, hrest, rfl, -, -⟩ := ih
    rw [freeOf_pendingOf]
    exact ⟨rest, hrest, rfl, hrest.filter _, List.filter_subset_self _⟩
  | @takeOff pending u layer _ ih =>
    obtain ⟨rest, hrest, rfl, hlayer, hsub⟩ := ih
    obtain ⟨hu, hlayer⟩ := List.nodup_cons.1 hlayer
    exact ⟨rest.filter (· ≠ u), hrest.filter _,
      takeOff_pendingOf hrest (hsub (List.mem_cons_self ..)), hlayer,
      subset_filter_of_cons hu hsub⟩

/-- A node that is held back by a node about to be taken off has a count above zero. -/
theorem Peels.pos {pending : List (α × Nat)} (h : g.Peels pending (u :: layer)) {p : α × Nat}
    (hp : p ∈ pending) (hedge : g.Edge u p.1) : 0 < p.2 := by
  obtain ⟨rest, -, rfl, -, hsub⟩ := h.exists_rest
  obtain ⟨v, -, rfl⟩ := List.mem_map.1 hp
  exact List.countP_pos_iff.2 ⟨u, hsub (List.mem_cons_self ..), hedge⟩

end Pending

section Remaining

def remaining (g : Digraph α) : Nat → List α
  | 0 => g.nodes
  | i + 1 => (g.remaining i).filter (· ∉ g.sources (g.remaining i))

theorem remaining_nodup (g : Digraph α) (i : Nat) : (g.remaining i).Nodup := by
  induction i with
  | zero => exact g.nodup
  | succ i ih => exact ih.filter _

theorem mem_remaining_succ :
    v ∈ g.remaining (i + 1) ↔ v ∈ g.remaining i ∧ ∃ u ∈ g.remaining i, g.Edge u v := by
  simp only [remaining, List.mem_filter, mem_sources, decide_eq_true_eq]
  grind

/-- After some layers the ends of paths of that many edges are left. -/
theorem mem_remaining : v ∈ g.remaining i ↔ ∃ u, g.Path u i v := by
  induction i generalizing v with
  | zero =>
    refine ⟨fun hv => ⟨v, .start hv⟩, fun h => ?_⟩
    obtain ⟨u, hpath⟩ := h
    exact hpath.mem_nodes
  | succ i ih =>
    rw [mem_remaining_succ]
    constructor
    · intro h
      obtain ⟨-, u, hu, hedge⟩ := h
      obtain ⟨x, hpath⟩ := ih.1 hu
      exact ⟨x, hpath.step hedge⟩
    · intro h
      obtain ⟨x, hpath⟩ := h
      refine ⟨ih.2 hpath.shorten, ?_⟩
      cases hpath with
      | step before edge => exact ⟨_, ih.2 ⟨x, before⟩, edge⟩

/-- A layer holds the nodes for which its number is the length of the longest path to them. -/
theorem mem_sources_remaining :
    v ∈ g.sources (g.remaining i) ↔ IsGreatest {n | ∃ u, g.Path u n v} i := by
  rw [mem_sources, mem_remaining]
  constructor
  · intro h
    obtain ⟨hpath, hsource⟩ := h
    refine ⟨hpath, fun n hn => ?_⟩
    by_contra hlt
    obtain ⟨x, hx⟩ := hn
    have hlonger : v ∈ g.remaining (i + 1) := mem_remaining.2 (hx.of_le (by omega))
    obtain ⟨-, u, hu, hedge⟩ := mem_remaining_succ.1 hlonger
    exact hsource u hu hedge
  · intro h
    obtain ⟨hpath, hbound⟩ := h
    refine ⟨hpath, fun u hu hedge => ?_⟩
    obtain ⟨x, hx⟩ := mem_remaining.1 hu
    have hle : i + 1 ≤ i := hbound ⟨x, hx.step hedge⟩
    omega

/-- A node that is not left after some layers is in one of them. -/
theorem exists_layer_of_not_mem (hv : v ∈ g.nodes) (hn : v ∉ g.remaining n) :
    ∃ i < n, v ∈ g.sources (g.remaining i) := by
  induction n with
  | zero => exact absurd hv hn
  | succ n ih =>
    by_cases hleft : v ∈ g.remaining n
    · refine ⟨n, Nat.lt_succ_self n, ?_⟩
      by_contra hsource
      exact hn (List.mem_filter.2 ⟨hleft, decide_eq_true hsource⟩)
    · obtain ⟨i, hi, hmem⟩ := ih hleft
      exact ⟨i, Nat.lt_succ_of_lt hi, hmem⟩

end Remaining

section Peeling

/-- Peeling from where some layers have been taken off. -/
theorem layersFrom_remaining (g : Digraph α) (i : Nat) :
    g.layersFrom (g.pendingOf (g.remaining i)) =
      if g.remaining i = [] then .ok []
      else if g.sources (g.remaining i) = [] then .error (.cycle g.cyclicNodes)
      else (g.sources (g.remaining i) :: ·) <$>
        g.layersFrom (g.pendingOf (g.remaining (i + 1))) := by
  have hempty : (g.pendingOf (g.remaining i)).isEmpty = true ↔ g.remaining i = [] := by
    simp [pendingOf]
  have hnext : (g.sources (g.remaining i)).foldl g.takeOff (g.pendingOf (g.remaining i)) =
      g.pendingOf (g.remaining (i + 1)) :=
    foldl_takeOff_pendingOf (g.remaining_nodup i) ((g.remaining_nodup i).filter _)
      (List.filter_subset_self _)
  rw [layersFrom]
  simp only [hempty]
  split
  · rfl
  · split
    · rename_i hstuck
      rw [freeOf_pendingOf] at hstuck
      rw [if_pos (List.isEmpty_iff.1 hstuck)]
    · rename_i hfree
      rw [freeOf_pendingOf] at hfree
      rw [if_neg fun hnil => by simp [hnil] at hfree, freeOf_pendingOf, hnext]
      cases g.layersFrom (g.pendingOf (g.remaining (i + 1))) <;> rfl

/-- Layers that have been peeled off are the sources of what was left each time, and at the end
nothing is left. -/
theorem layersFrom_ok (h : g.layersFrom (g.pendingOf (g.remaining i)) = .ok layers) :
    (∀ j layer, layers[j]? = some layer →
      layer ≠ [] ∧ layer = g.sources (g.remaining (i + j))) ∧
      g.remaining (i + layers.length) = [] := by
  induction layers generalizing i with
  | nil =>
    rw [layersFrom_remaining] at h
    split at h
    · rename_i hnil
      exact ⟨by simp, hnil⟩
    · split at h
      · cases h
      · cases hrest : g.layersFrom (g.pendingOf (g.remaining (i + 1))) <;> simp [hrest] at h
  | cons first layers ih =>
    rw [layersFrom_remaining] at h
    split at h
    · cases h
    · split at h
      · cases h
      · rename_i hsources
        cases hrest : g.layersFrom (g.pendingOf (g.remaining (i + 1))) with
        | error e => simp [hrest] at h
        | ok tail =>
          simp only [hrest, Except.map_ok, Except.ok.injEq, List.cons.injEq] at h
          obtain ⟨rfl, rfl⟩ := h
          obtain ⟨hlayers, hend⟩ := ih hrest
          refine ⟨fun j layer hj => ?_, ?_⟩
          · cases j with
            | zero =>
              obtain rfl : g.sources (g.remaining i) = layer := by simpa using hj
              exact ⟨hsources, rfl⟩
            | succ j =>
              have hlayer := hlayers j layer (by simpa using hj)
              rwa [Nat.add_right_comm, Nat.add_assoc] at hlayer
          · rwa [Nat.add_right_comm, Nat.add_assoc] at hend

/-- Peeling that does not come to an end gets stuck at nodes that all hold each other back. -/
theorem layersFrom_error {e : GraphError α}
    (h : g.layersFrom (g.pendingOf (g.remaining i)) = .error e) :
    e = .cycle g.cyclicNodes ∧ ∃ j, g.remaining j ≠ [] ∧ g.sources (g.remaining j) = [] := by
  induction hlen : (g.remaining i).length using Nat.strongRecOn generalizing i with
  | ind len ih =>
    subst hlen
    rw [layersFrom_remaining] at h
    split at h
    · cases h
    · rename_i hleft
      split at h
      · rename_i hstuck
        cases h
        exact ⟨rfl, i, hleft, hstuck⟩
      · rename_i hsources
        obtain ⟨v, hv⟩ := List.exists_mem_of_ne_nil _ hsources
        have hless : (g.remaining (i + 1)).length < (g.remaining i).length := by
          apply List.length_filter_lt_length_iff_exists.2
          exact ⟨v, (mem_sources.1 hv).1, by simpa using hv⟩
        cases hrest : g.layersFrom (g.pendingOf (g.remaining (i + 1))) with
        | error e' =>
          simp only [hrest, Except.map_error, Except.error.injEq] at h
          exact ih _ hless (h ▸ hrest) rfl
        | ok tail => simp [hrest] at h

end Peeling

section Results

theorem layers_eq (g : Digraph α) : g.layers = g.layersFrom (g.pendingOf (g.remaining 0)) := by
  rw [layers, degrees_eq]
  rfl

theorem exists_onCycle_of_error {e : GraphError α} (h : g.layers = .error e) :
    ∃ v, g.OnCycle v := by
  rw [layers_eq] at h
  obtain ⟨-, j, hleft, hstuck⟩ := layersFrom_error h
  refine exists_onCycle hleft fun v hv => ?_
  have hnot : v ∉ g.sources (g.remaining j) := by simp [hstuck]
  rw [mem_sources] at hnot
  by_contra hnone
  exact hnot ⟨hv, fun u hu hedge => hnone ⟨u, hu, hedge⟩⟩

theorem not_onCycle_of_ok (h : g.layers = .ok layers) (v : α) : ¬ g.OnCycle v := by
  rw [layers_eq] at h
  intro hcycle
  have hleft := mem_remaining.2 (hcycle.exists_path (0 + layers.length))
  rw [(layersFrom_ok h).2] at hleft
  simp at hleft

/-- Every node is in one layer and there only once. -/
theorem flatten_layers_perm (h : g.layers = .ok layers) : layers.flatten.Perm g.nodes := by
  rw [layers_eq] at h
  obtain ⟨hlayers, hend⟩ := layersFrom_ok h
  simp only [Nat.zero_add] at hlayers hend
  have hlayer : ∀ i (hi : i < layers.length), layers[i] = g.sources (g.remaining i) :=
    fun i hi => (hlayers i _ (List.getElem?_eq_getElem hi)).2
  have hnodup : layers.flatten.Nodup := by
    rw [List.nodup_flatten]
    refine ⟨fun layer hmem => ?_, ?_⟩
    · obtain ⟨i, hi, rfl⟩ := List.mem_iff_getElem.1 hmem
      rw [hlayer i hi]
      exact (g.remaining_nodup i).filter _
    · rw [List.pairwise_iff_getElem]
      intro i j hi hj hij v hvi hvj
      rw [hlayer i hi, mem_sources_remaining] at hvi
      rw [hlayer j hj, mem_sources_remaining] at hvj
      have heq := hvi.unique hvj
      omega
  refine (List.perm_ext_iff_of_nodup hnodup g.nodup).2 fun v => ?_
  rw [List.mem_flatten]
  constructor
  · intro hmem
    obtain ⟨layer, hmem, hv⟩ := hmem
    obtain ⟨i, hi, rfl⟩ := List.mem_iff_getElem.1 hmem
    rw [hlayer i hi, mem_sources, mem_remaining] at hv
    obtain ⟨⟨u, hpath⟩, -⟩ := hv
    exact hpath.mem_nodes
  · intro hv
    have hgone : v ∉ g.remaining layers.length := by simp [hend]
    obtain ⟨i, hi, hmem⟩ := exists_layer_of_not_mem hv hgone
    exact ⟨layers[i], List.getElem_mem hi, by rwa [hlayer i hi]⟩

theorem remaining_sublist (g : Digraph α) (i : Nat) : (g.remaining i).Sublist g.nodes := by
  induction i with
  | zero => exact List.Sublist.refl _
  | succ i ih => exact List.filter_sublist.trans ih

theorem cyclicAmong_eq {components : List (List α)} (h : g.AreComponents components) :
    g.cyclicAmong components = g.cyclicNodes := by
  unfold cyclicNodes cyclicAmong
  apply List.filter_congr
  intro v hv
  rw [Bool.eq_iff_iff]
  have hleft := mem_cyclicAmong h (v := v)
  have hright := mem_cyclicAmong g.areComponents (v := v)
  simp only [cyclicAmong, List.mem_filter, hv, true_and] at hleft hright
  rw [hleft, hright]

/-- The graph that additions build holds their nodes, in the order in which they are first
mentioned, and their edges. It can be layered exactly if it has no cycle. Then every node is in one
layer, the number of the layer is the length of the longest path that ends in the node, and the
nodes of a layer stand in the order of the graph. Otherwise the answer is a cycle error with the
nodes that lie on some cycle, in the order of the graph, however the strongly connected components
are listed. Whenever a node is taken off, each pending child of it is still held back by at least
one parent. -/
theorem layers_exact (additions : List (Addition α)) :
    let g := ofAdditions additions
    (g.nodes = (additions.flatMap Addition.mentions).eraseDups ∧
      ∀ v w, g.Edge v w ↔ ∃ a ∈ additions, a.Joins v w) ∧
    ((∃ layers, g.layers = .ok layers) ↔ ∀ v, ¬ g.OnCycle v) ∧
    (∀ layers, g.layers = .ok layers → layers.flatten.Perm g.nodes ∧
      ∀ i layer, layers[i]? = some layer → layer ≠ [] ∧ layer.Sublist g.nodes ∧
        ∀ v ∈ layer, IsGreatest {n | ∃ u, g.Path u n v} i) ∧
    (∀ e, g.layers = .error e → ∃ nodes, e = .cycle nodes ∧ nodes.Sublist g.nodes ∧
      (∀ v, v ∈ nodes ↔ g.OnCycle v) ∧
      ∀ components, g.AreComponents components → g.cyclicAmong components = nodes) ∧
    ∀ pending u layer, g.Peels pending (u :: layer) → ∀ p ∈ pending, g.Edge u p.1 → 0 < p.2 := by
  intro g
  refine ⟨ofAdditions_holds additions, ⟨fun h v => ?_, fun hnone => ?_⟩, fun layers h =>
    ⟨flatten_layers_perm h, fun i layer hi => ?_⟩, fun e h => ?_,
    fun pending u layer h p hp hedge => h.pos hp hedge⟩
  · obtain ⟨layers, h⟩ := h
    exact not_onCycle_of_ok h v
  · cases h : g.layers with
    | ok layers => exact ⟨layers, rfl⟩
    | error e =>
      obtain ⟨v, hv⟩ := exists_onCycle_of_error h
      exact absurd hv (hnone v)
  · rw [layers_eq] at h
    obtain ⟨hne, heq⟩ := (layersFrom_ok h).1 i layer hi
    rw [Nat.zero_add] at heq
    refine ⟨hne, ?_, fun v hv => mem_sources_remaining.1 (heq ▸ hv)⟩
    rw [heq]
    exact List.filter_sublist.trans (g.remaining_sublist i)
  · rw [layers_eq] at h
    exact ⟨g.cyclicNodes, (layersFrom_error h).1, List.filter_sublist, fun v => mem_cyclicNodes,
      fun components hcomponents => cyclicAmong_eq hcomponents⟩

end Results

end SemanticAnalysis.Digraph
