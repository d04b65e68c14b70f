import SemanticAnalysis.Tree.Forest

/-!
Walks down a forest. A walk keeps a stack of nodes to go on from and puts the
children of every node it visits there. Children come before the nodes that name
them, so there is a listing in pre-order of what lies below a node, and what the
stack lists gets shorter by one with every node visited.
-/

namespace SemanticAnalysis.Forest

/-- A node and everything below it in pre-order, once per occurrence. -/
def preorder (f : Forest) (n : NodeId) : List NodeId :=
  n :: (f.children n).attach.flatMap fun c => f.preorder c.1
termination_by n.index
decreasing_by exact index_lt_of_mem_children c.2

theorem preorder_eq (f : Forest) (n : NodeId) :
    f.preorder n = n :: (f.children n).flatMap f.preorder := by
  rw [preorder]
  congr 1
  rw [← List.flatMap_map]
  simp

/-- A walk under way: the nodes visited so far, and those to go on from, the next one last. -/
structure Walk where
  order : Array NodeId
  stack : Array NodeId

namespace Walk

def ahead (f : Forest) (w : Walk) : Nat := (w.stack.toList.flatMap f.preorder).length

/-- Visits the node on top of the stack and puts its children there, the first on top. -/
def step (f : Forest) (w : Walk) : Walk :=
  match w.stack.back? with
  | none => w
  | some n => ⟨w.order.push n, w.stack.pop ++ (f.children n).reverse⟩

theorem step_eq {f : Forest} {w : Walk} {n : NodeId} (h : w.stack.back? = some n) :
    w.step f = ⟨w.order.push n, w.stack.pop ++ (f.children n).reverse⟩ := by
  rw [step, h]

theorem toList_stack {w : Walk} {n : NodeId} (h : w.stack.back? = some n) :
    w.stack.toList = w.stack.pop.toList ++ [n] := by
  obtain ⟨ys, hys⟩ := Array.back?_eq_some_iff.1 h
  simp [hys]

/-- The children put on the stack are listed after the node, and in place of it. -/
theorem ahead_step {f : Forest} {w : Walk} {n : NodeId} (h : w.stack.back? = some n) :
    (w.step f).ahead f + 1 = w.ahead f := by
  have hperm : ((f.children n).reverse.flatMap f.preorder).length =
      ((f.children n).flatMap f.preorder).length :=
    ((f.children n).reverse_perm.flatMap_right f.preorder).length_eq
  rw [ahead, ahead, toList_stack h, step_eq h, Array.toList_appendList, List.flatMap_append,
    List.flatMap_append, List.length_append, List.length_append, hperm, List.flatMap_singleton,
    preorder_eq f n, List.length_cons]
  omega

def run (f : Forest) (w : Walk) : Array NodeId :=
  match h : w.stack.back? with
  | none => w.order
  | some _ =>
    have : (w.step f).ahead f + 1 = w.ahead f := ahead_step h
    (w.step f).run f
termination_by w.ahead f
decreasing_by omega

end Walk

def walkFrom (f : Forest) (n : NodeId) : List NodeId := (Walk.run f ⟨#[], #[n]⟩).toList

end SemanticAnalysis.Forest
