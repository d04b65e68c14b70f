import Mathlib.Data.Fintype.Card
import Mathlib.Data.Fintype.EquivFin
import Mathlib.Data.Fintype.Sets
import Mathlib.Order.WellFounded
import SemanticAnalysis.Graph.Digraph
import SemanticAnalysis.Proofs.Components
import SemanticAnalysis.Proofs.Lookups

/-!
Graphs as they are built up, and the paths and cycles in them. A graph holds the
nodes that its additions mention, in the order in which they first do so, and an
edge for each child added to a parent. Where every node of a finite set has a parent
in it there is a cycle, and the nodes on cycles are those of the strongly connected
components that hold one.
-/

namespace SemanticAnalysis.Digraph

open Relation

variable {α : Type} [DecidableEq α] {g : Digraph α} {u v w x y : α} {m n : Nat}

def Edge (g : Digraph α) (v w : α) : Prop := g.isEdge v w = true

theorem Edge.mem_nodes (h : g.Edge v w) : v ∈ g.nodes ∧ w ∈ g.nodes :=
  g.closed (v, w) (List.contains_iff_mem.1 h)

theorem mem_children : w ∈ g.children v ↔ g.Edge v w := by
  simp only [children, List.mem_filter]
  exact ⟨fun h => h.2, fun h => ⟨h.mem_nodes.2, h⟩⟩

section Histories

inductive Addition (α : Type) where
  | node (v : α)
  | children (v : α) (ws : List α)

def Addition.mentions : Addition α → List α
  | .node v => [v]
  | .children v ws => v :: ws

def Addition.Joins (a : Addition α) (v w : α) : Prop := ∃ ws, a = .children v ws ∧ w ∈ ws

def extend (g : Digraph α) : Addition α → Digraph α
  | .node v => g.addNode v
  | .children v ws => g.addChildren v ws

def ofAdditions (additions : List (Addition α)) : Digraph α := additions.foldl extend empty

omit [DecidableEq α] in
theorem Addition.joins_node : ¬ (Addition.node x).Joins v w := by
  intro h
  obtain ⟨_, heq, -⟩ := h
  cases heq

omit [DecidableEq α] in
theorem Addition.joins_children {ws : List α} :
    (Addition.children x ws).Joins v w ↔ v = x ∧ w ∈ ws := by
  constructor
  · intro h
    obtain ⟨_, heq, hw⟩ := h
    cases heq
    exact ⟨rfl, hw⟩
  · intro h
    exact ⟨ws, by rw [h.1], h.2⟩

theorem edge_addNode : (g.addNode x).Edge v w ↔ g.Edge v w := by
  unfold addNode
  split <;> rfl

/-- An edge that is added comes on top of the edges there. -/
theorem edge_addEdge : (g.addEdge x y).Edge v w ↔ g.Edge v w ∨ (v = x ∧ w = y) := by
  have hends : ((g.addNode x).addNode y).Edge v w ↔ g.Edge v w :=
    edge_addNode.trans edge_addNode
  unfold addEdge
  dsimp only
  split
  · rename_i hedge
    refine hends.trans ⟨Or.inl, fun h => ?_⟩
    rcases h with h | ⟨hv, hw⟩
    · exact h
    · rw [hv, hw, ← edge_addNode, ← edge_addNode]
      exact hedge
  · rw [← hends]
    simp [Edge, isEdge]

def Lists (g : Digraph α) (mentioned : List α) : Prop := g.nodes = mentioned.eraseDups

theorem Lists.addNode {mentioned : List α} (h : g.Lists mentioned) (v : α) :
    (g.addNode v).Lists (mentioned ++ [v]) := by
  have hmem : v ∈ g.nodes ↔ v ∈ mentioned := by rw [h, List.mem_eraseDups]
  unfold Lists Digraph.addNode
  rw [eraseDups_concat, ← h]
  split <;> simp_all

/-- The end of an added edge is mentioned last. -/
theorem Lists.addEdge {mentioned : List α} (h : g.Lists mentioned) (hv : v ∈ mentioned) (w : α) :
    (g.addEdge v w).Lists (mentioned ++ [w]) := by
  have hsame : g.addNode v = g := by
    have hmem : v ∈ g.nodes := by rwa [h, List.mem_eraseDups]
    simp [Digraph.addNode, hmem]
  have hnodes : (g.addEdge v w).nodes = ((g.addNode v).addNode w).nodes := by
    unfold Digraph.addEdge
    dsimp only
    split <;> rfl
  rw [Lists, hnodes, hsame]
  exact h.addNode w

/-- A parent is added with its children one by one. -/
theorem lists_addChildren {mentioned : List α} (h : g.Lists mentioned) (v : α) (ws : List α) :
    (g.addChildren v ws).Lists (mentioned ++ v :: ws) ∧
      ∀ x y, (g.addChildren v ws).Edge x y ↔ g.Edge x y ∨ (x = v ∧ y ∈ ws) := by
  have hfold : ∀ (ws : List α) {g : Digraph α} {mentioned : List α}, g.Lists mentioned →
      v ∈ mentioned → (ws.foldl (fun g w => g.addEdge v w) g).Lists (mentioned ++ ws) ∧
        ∀ x y, (ws.foldl (fun g w => g.addEdge v w) g).Edge x y ↔
          g.Edge x y ∨ (x = v ∧ y ∈ ws) := by
    intro ws
    induction ws with
    | nil =>
      intro g mentioned h _
      simpa using h
    | cons w rest ih =>
      intro g mentioned h hv
      obtain ⟨hnodes, hedges⟩ := ih (h.addEdge hv w) (List.mem_append_left _ hv)
      refine ⟨by simpa using hnodes, fun x y => (hedges x y).trans ?_⟩
      rw [edge_addEdge, List.mem_cons]
      tauto
  obtain ⟨hnodes, hedges⟩ := hfold ws (h.addNode v) (by simp)
  refine ⟨by simpa [addChildren] using hnodes, fun x y => (hedges x y).trans ?_⟩
  rw [edge_addNode]

/-- An addition mentions its nodes after those before, and puts in its edges. -/
theorem lists_extend {mentioned : List α} (h : g.Lists mentioned) (a : Addition α) :
    (g.extend a).Lists (mentioned ++ a.mentions) ∧
      ∀ x y, (g.extend a).Edge x y ↔ g.Edge x y ∨ a.Joins x y := by
  cases a with
  | node v =>
    refine ⟨h.addNode v, fun x y => edge_addNode.trans ?_⟩
    simp [Addition.joins_node]
  | children v ws =>
    obtain ⟨hnodes, hedges⟩ := lists_addChildren h v ws
    refine ⟨hnodes, fun x y => (hedges x y).trans ?_⟩
    rw [Addition.joins_children]

/-- A graph holds exactly what its additions say: their nodes in the order in which they are first
mentioned, and their edges. -/
theorem ofAdditions_holds (additions : List (Addition α)) :
    (ofAdditions additions).nodes = (additions.flatMap Addition.mentions).eraseDups ∧
      ∀ v w, (ofAdditions additions).Edge v w ↔ ∃ a ∈ additions, a.Joins v w := by
  have hfold : ∀ (additions : List (Addition α)) {g : Digraph α} {mentioned : List α},
      g.Lists mentioned →
        (additions.foldl extend g).Lists (mentioned ++ additions.flatMap Addition.mentions) ∧
          ∀ v w, (additions.foldl extend g).Edge v w ↔
            g.Edge v w ∨ ∃ a ∈ additions, a.Joins v w := by
    intro additions
    induction additions with
    | nil =>
      intro g mentioned h
      simpa using h
    | cons a rest ih =>
      intro g mentioned h
      obtain ⟨hlists, hjoins⟩ := lists_extend h a
      obtain ⟨hnodes, hedges⟩ := ih hlists
      refine ⟨by simpa using hnodes, fun v w => (hedges v w).trans ?_⟩
      rw [hjoins]
      simp [or_assoc]
  have hempty : (empty : Digraph α).Lists [] := rfl
  obtain ⟨hnodes, hedges⟩ := hfold additions hempty
  rw [List.nil_append] at hnodes
  refine ⟨hnodes, fun v w => (hedges v w).trans ?_⟩
  simp [Edge, isEdge, empty]

end Histories

section Paths

inductive Path (g : Digraph α) (u : α) : Nat → α → Prop where
  | start (hu : u ∈ g.nodes) : Path g u 0 u
  | step {n : Nat} {v w : α} (before : Path g u n v) (edge : g.Edge v w) : Path g u (n + 1) w

def OnCycle (g : Digraph α) (v : α) : Prop := TransGen g.Edge v v

theorem Path.mem_nodes (h : g.Path u n v) : v ∈ g.nodes := by
  cases h with
  | start hu => exact hu
  | step _ edge => exact edge.mem_nodes.2

/-- The end of a path is the end of a shorter one too. -/
theorem Path.shorten (h : g.Path u (n + 1) v) : ∃ x, g.Path x n v := by
  induction n generalizing v with
  | zero => exact ⟨v, .start h.mem_nodes⟩
  | succ n ih =>
    cases h with
    | step before edge =>
      obtain ⟨x, hx⟩ := ih before
      exact ⟨x, hx.step edge⟩

theorem Path.of_le (h : g.Path u n v) (hm : m ≤ n) : ∃ x, g.Path x m v := by
  induction n generalizing u with
  | zero => exact ⟨u, Nat.le_zero.1 hm ▸ h⟩
  | succ n ih =>
    rcases Nat.lt_or_eq_of_le hm with hlt | rfl
    · obtain ⟨x, hx⟩ := h.shorten
      exact ih hx (Nat.le_of_lt_succ hlt)
    · exact ⟨u, h⟩

theorem OnCycle.mem_nodes (h : g.OnCycle v) : v ∈ g.nodes := by
  obtain ⟨w, hedge, -⟩ := TransGen.head'_iff.1 h
  exact hedge.mem_nodes.1

theorem OnCycle.exists_parent (h : g.OnCycle v) : ∃ u, g.Edge u v ∧ g.OnCycle u := by
  obtain ⟨u, hvu, hedge⟩ := TransGen.tail'_iff.1 h
  exact ⟨u, hedge, TransGen.head'_iff.2 ⟨v, hedge, hvu⟩⟩

/-- Paths of every length end in a node on a cycle. -/
theorem OnCycle.exists_path (h : g.OnCycle v) (n : Nat) : ∃ u, g.Path u n v := by
  induction n generalizing v with
  | zero => exact ⟨v, .start h.mem_nodes⟩
  | succ n ih =>
    obtain ⟨u, hedge, hu⟩ := h.exists_parent
    obtain ⟨x, hx⟩ := ih hu
    exact ⟨x, hx.step hedge⟩

/-- Finitely many nodes of which each has a parent among them cannot all lie on no cycle. -/
theorem exists_onCycle {rest : List α} (hne : rest ≠ [])
    (hparent : ∀ v ∈ rest, ∃ u ∈ rest, g.Edge u v) : ∃ v, g.OnCycle v := by
  by_contra hnone
  let before : { v // v ∈ rest } → { v // v ∈ rest } → Prop := fun u v => TransGen g.Edge u v
  have htrans : IsTrans _ before := ⟨fun _ _ _ => TransGen.trans⟩
  have hirrefl : Std.Irrefl before := ⟨fun v hv => hnone ⟨v, hv⟩⟩
  have hwf : WellFounded before := Finite.wellFounded_of_trans_of_irrefl before
  obtain ⟨v, hv⟩ := List.exists_mem_of_ne_nil rest hne
  obtain ⟨first, -, hfirst⟩ := hwf.has_min Set.univ ⟨⟨v, hv⟩, trivial⟩
  obtain ⟨u, hu, hedge⟩ := hparent first first.2
  exact hfirst ⟨u, hu⟩ trivial (TransGen.single hedge)

end Paths

section Cycles

theorem step_eq_edge (g : Digraph α) : Graph.Step g.nodes g.children = g.Edge := by
  funext v w
  rw [Graph.Step, mem_children]
  exact propext ⟨fun h => h.1, fun h => ⟨h, h.mem_nodes.2⟩⟩

/-- Lists of nodes that are the strongly connected components of a graph. -/
structure AreComponents (g : Digraph α) (components : List (List α)) : Prop where
  nodup : ∀ c ∈ components, c.Nodup
  classes : ∀ c ∈ components, ∀ v ∈ c, ∀ w, w ∈ c ↔ w ∈ g.nodes ∧
    ReflTransGen g.Edge v w ∧ ReflTransGen g.Edge w v
  covers : ∀ v ∈ g.nodes, ∃ c ∈ components, v ∈ c

theorem areComponents (g : Digraph α) : g.AreComponents (Graph.components g.nodes g.children) where
  nodup c hc := by
    obtain ⟨before, after, heq⟩ := List.append_of_mem hc
    obtain ⟨-, v, -, -, rfl, -⟩ :=
      Graph.componentsOf_split (fun _ hu => Graph.mem_finishAll_reverse.1 hu) heq
    exact g.nodup.filter _
  classes c hc v hv w := by
    rw [← step_eq_edge]
    exact (Graph.mem_component_iff hc hv).2 w
  covers _ hv := Graph.exists_component hv

theorem onCycle_of_mutual (hvw : ReflTransGen g.Edge v w) (hwv : ReflTransGen g.Edge w v)
    (hne : v ≠ w) : g.OnCycle v := by
  have hstep : TransGen g.Edge v w :=
    (reflTransGen_iff_eq_or_transGen.1 hvw).resolve_left fun h => hne h.symm
  exact hstep.trans_left hwv

/-- A component holds a cycle exactly if its nodes lie on one. -/
theorem holdsCycle_iff {components : List (List α)} (h : g.AreComponents components) {c : List α}
    (hc : c ∈ components) (hv : v ∈ c) : g.holdsCycle c = true ↔ g.OnCycle v := by
  have hclass := h.classes c hc v hv
  cases c with
  | nil => simp at hv
  | cons a rest =>
    cases rest with
    | nil =>
      obtain rfl := List.mem_singleton.1 hv
      refine ⟨fun hloop => TransGen.single hloop, fun hcycle => ?_⟩
      obtain ⟨w, hedge, hwv⟩ := TransGen.head'_iff.1 hcycle
      have hw : w ∈ [v] := (hclass w).2 ⟨hedge.mem_nodes.2, ReflTransGen.single hedge, hwv⟩
      exact List.mem_singleton.1 hw ▸ hedge
    | cons b rest =>
      refine ⟨fun _ => ?_, fun _ => rfl⟩
      have hab : a ≠ b := fun heq => (List.nodup_cons.1 (h.nodup _ hc)).1 (by simp [heq])
      obtain ⟨w, hw, hne⟩ : ∃ w ∈ a :: b :: rest, v ≠ w := by
        by_cases hva : v = a
        · exact ⟨b, by simp, hva ▸ hab⟩
        · exact ⟨a, by simp, hva⟩
      obtain ⟨-, hvw, hwv⟩ := (hclass w).1 hw
      exact onCycle_of_mutual hvw hwv hne

theorem mem_cyclicAmong {components : List (List α)} (h : g.AreComponents components) :
    v ∈ g.cyclicAmong components ↔ g.OnCycle v := by
  simp only [cyclicAmong, List.mem_filter, List.contains_iff_mem, List.mem_flatten]
  constructor
  · intro hmem
    obtain ⟨-, c, hc, hv⟩ := hmem
    exact (holdsCycle_iff h hc.1 hv).1 hc.2
  · intro hcycle
    obtain ⟨c, hc, hv⟩ := h.covers v hcycle.mem_nodes
    exact ⟨hcycle.mem_nodes, c, ⟨hc, (holdsCycle_iff h hc hv).2 hcycle⟩, hv⟩

theorem mem_cyclicNodes : v ∈ g.cyclicNodes ↔ g.OnCycle v := mem_cyclicAmong g.areComponents

end Cycles

end SemanticAnalysis.Digraph
