import SemanticAnalysis.Graph.Search

/-!
Directed graphs over values. A graph keeps its nodes in the order they were
added, and that order breaks ties: `topSort` lists the nodes below a node before
their children, and `layers` peels off the nodes without parents.
-/

namespace SemanticAnalysis

structure Digraph (α : Type) where
  nodes : List α
  edges : List (α × α)
  nodup : nodes.Nodup
  closed : ∀ e ∈ edges, e.1 ∈ nodes ∧ e.2 ∈ nodes

inductive GraphError (α : Type) where
  | cycle (nodes : List α)
  | notFound

def GraphError.message {α : Type} (write : List α → String) : GraphError α → String
  | .cycle nodes => "dependency cycle through " ++ write nodes
  | .notFound => "node is not part of the graph"

namespace Digraph

variable {α : Type} [DecidableEq α]

def empty : Digraph α := ⟨[], [], List.nodup_nil, by simp⟩

instance : Inhabited (Digraph α) := ⟨empty⟩

def size (g : Digraph α) : Nat := g.nodes.length

def contains (g : Digraph α) (v : α) : Bool := g.nodes.contains v

def isEdge (g : Digraph α) (v w : α) : Bool := g.edges.contains (v, w)

def position (g : Digraph α) (v : α) : Nat := g.nodes.idxOf v

def addNode (g : Digraph α) (v : α) : Digraph α :=
  if h : v ∈ g.nodes then g
  else
    { nodes := g.nodes ++ [v]
      edges := g.edges
      nodup := by
        refine List.nodup_append.2 ⟨g.nodup, by simp, ?_⟩
        intro a ha b hb
        rcases List.mem_singleton.1 hb with rfl
        exact fun hab => h (hab ▸ ha)
      closed := fun e he => ⟨by simp [(g.closed e he).1], by simp [(g.closed e he).2]⟩ }

theorem mem_addNode (g : Digraph α) (v : α) : v ∈ (g.addNode v).nodes := by
  unfold addNode
  split <;> simp_all

theorem mem_addNode_of_mem {g : Digraph α} {v w : α} (h : w ∈ g.nodes) :
    w ∈ (g.addNode v).nodes := by
  unfold addNode
  split <;> simp_all

def addEdge (g : Digraph α) (v w : α) : Digraph α :=
  let ends := (g.addNode v).addNode w
  if ends.isEdge v w then ends
  else
    { ends with
      edges := ends.edges ++ [(v, w)]
      closed := by
        intro e he
        rcases List.mem_append.1 he with he | he
        · exact ends.closed e he
        · rcases List.mem_singleton.1 he with rfl
          exact ⟨mem_addNode_of_mem (mem_addNode g v), mem_addNode _ w⟩ }

def addChildren (g : Digraph α) (v : α) (children : List α) : Digraph α :=
  children.foldl (fun g w => g.addEdge v w) (g.addNode v)

def ofNodes (children : α → List α) (nodes : List α) : Digraph α :=
  nodes.foldl (fun g v => g.addChildren v (children v)) empty

def children (g : Digraph α) (v : α) : List α := g.nodes.filter (g.isEdge v)

def parents (g : Digraph α) (v : α) : List α := g.nodes.filter fun u => g.isEdge u v

/-- The finished nodes, the last one first, after a visit to a node. Coming back
to a node on the path is an error, which names that node. -/
def visit (g : Digraph α) (path done : List α) (v : α) : Except α (List α) :=
  if v ∈ done then .ok done
  else if hp : v ∈ path then .error v
  else if hv : v ∈ g.nodes then do
    have : Graph.offPath g.nodes (v :: path) < Graph.offPath g.nodes path :=
      Graph.offPath_cons_lt hv hp
    let done ← (g.children v).foldlM (fun done w => visit g (v :: path) done w) done
    return v :: done
  else .ok done
termination_by Graph.offPath g.nodes path
decreasing_by assumption

/-- The nodes reachable from a node, each before its children. -/
def topSort (g : Digraph α) (start : α) : Except (GraphError α) (List α) :=
  if start ∈ g.nodes then
    match g.visit [] [] start with
    | .ok order => .ok order
    | .error v => .error (.cycle [v])
  else .error .notFound

/-- Whether a strongly connected component holds a cycle: it has several nodes, or
one with an edge to itself. -/
def holdsCycle (g : Digraph α) : List α → Bool
  | [] => false
  | [v] => g.isEdge v v
  | _ :: _ :: _ => true

def cyclicAmong (g : Digraph α) (components : List (List α)) : List α :=
  let cyclic := (components.filter g.holdsCycle).flatten
  g.nodes.filter cyclic.contains

def cyclicNodes (g : Digraph α) : List α := g.cyclicAmong (Graph.components g.nodes g.children)

def degrees (g : Digraph α) : List (α × Nat) := g.nodes.map fun v => (v, (g.parents v).length)

def freeOf (pending : List (α × Nat)) : List α := (pending.filter fun p => p.2 = 0).map (·.1)

/-- What is pending after a node is taken off: each child of it is held back by
one parent less. -/
def takeOff (g : Digraph α) (pending : List (α × Nat)) (u : α) : List (α × Nat) :=
  (pending.filter fun p => p.1 ≠ u).map fun p => if g.isEdge u p.1 then (p.1, p.2 - 1) else p

theorem length_takeOff (g : Digraph α) (pending : List (α × Nat)) (u : α) :
    (g.takeOff pending u).length = (pending.filter fun p => p.1 ≠ u).length := by
  simp [takeOff]

theorem length_foldl_takeOff_le (g : Digraph α) (layer : List α) (pending : List (α × Nat)) :
    (layer.foldl g.takeOff pending).length ≤ pending.length := by
  induction layer generalizing pending with
  | nil => exact Nat.le_refl _
  | cons u rest ih =>
    refine Nat.le_trans (ih _) ?_
    rw [length_takeOff]
    exact List.length_filter_le ..

/-- Fewer nodes are pending after those that are free have been taken off. -/
theorem length_foldl_takeOff_lt {g : Digraph α} {pending : List (α × Nat)}
    (h : (freeOf pending).isEmpty = false) :
    ((freeOf pending).foldl g.takeOff pending).length < pending.length := by
  cases hfree : freeOf pending with
  | nil => simp [hfree] at h
  | cons u rest =>
    obtain ⟨p, hp, rfl⟩ := List.mem_map.1 (hfree ▸ List.mem_cons_self .. : u ∈ freeOf pending)
    refine Nat.lt_of_le_of_lt (length_foldl_takeOff_le g rest _) ?_
    rw [length_takeOff]
    apply List.length_filter_lt_length_iff_exists.2
    exact ⟨p, (List.mem_filter.1 hp).1, by simp⟩

def layersFrom (g : Digraph α) (pending : List (α × Nat)) :
    Except (GraphError α) (List (List α)) :=
  if pending.isEmpty then .ok []
  else
    match h : (freeOf pending).isEmpty with
    | true => .error (.cycle g.cyclicNodes)
    | false => do
      have : ((freeOf pending).foldl g.takeOff pending).length < pending.length :=
        length_foldl_takeOff_lt h
      let rest ← layersFrom g ((freeOf pending).foldl g.takeOff pending)
      return freeOf pending :: rest
termination_by pending.length
decreasing_by assumption

/-- The nodes in layers: a node stands in the first layer after all its parents. -/
def layers (g : Digraph α) : Except (GraphError α) (List (List α)) := g.layersFrom g.degrees

end Digraph

end SemanticAnalysis
