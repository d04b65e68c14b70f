import SemanticAnalysis.OrderedMap

/-!
The identity of a node: its position in the order in which the nodes of a tree
were pushed.
-/

namespace SemanticAnalysis

@[ext]
structure NodeId where
  index : Nat
deriving DecidableEq, Inhabited

namespace NodeId

instance : Key NodeId where
  rank n := (0, n.index)
  rank_inj m n h := by
    cases m
    cases n
    simp_all

def text (n : NodeId) : String := "#" ++ Nat.repr n.index

def dump (n : NodeId) : String := "NodeId(" ++ Nat.repr n.index ++ ")"

end NodeId

end SemanticAnalysis
