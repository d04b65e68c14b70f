/-!
Depth-first search over a finite domain. A node has been met when it is on the
path that leads to the current node or when it is finished, so the path and the
finished nodes are all the search needs to know. Each step down the path uses up
a node of the domain.
-/

namespace SemanticAnalysis.Graph

variable {α : Type} [DecidableEq α]

def offPath (domain path : List α) : Nat := domain.countP fun v => v ∉ path

/-- A node that joins the path leaves fewer nodes off it. -/
theorem offPath_cons_lt {domain path : List α} {v : α} (hv : v ∈ domain) (hp : v ∉ path) :
    offPath domain (v :: path) < offPath domain path := by
  unfold offPath
  induction domain with
  | nil => simp at hv
  | cons u rest ih =>
    have hle : rest.countP (fun w => decide (w ∉ v :: path)) ≤
        rest.countP fun w => decide (w ∉ path) := by
      apply List.countP_mono_left
      intro w _ hw
      simp_all
    simp only [List.countP_cons]
    by_cases huv : u = v
    · subst huv
      have hu : decide (u ∉ u :: path) = false := by simp
      have hu' : decide (u ∉ path) = true := by simpa using hp
      rw [hu, hu']
      simp only [Bool.false_eq_true, if_false, if_true]
      omega
    · have hmem : v ∈ rest := by
        rcases List.mem_cons.1 hv with h | h
        · exact absurd h.symm huv
        · exact h
      have hlt := ih hmem
      have hu : (decide (u ∉ v :: path)) = decide (u ∉ path) := by simp [huv]
      rw [hu]
      omega

/-- The finished nodes, the last one first, after a search from a node. Nodes on
the path and finished ones are passed over. -/
def finishFrom (domain : List α) (next : α → List α) (path done : List α) (v : α) : List α :=
  if h : v ∈ domain ∧ v ∉ path ∧ v ∉ done then
    have : offPath domain (v :: path) < offPath domain path := offPath_cons_lt h.1 h.2.1
    v :: (next v).foldl (fun done w => finishFrom domain next (v :: path) done w) done
  else done
termination_by offPath domain path
decreasing_by assumption

def finishAll (domain : List α) (next : α → List α) (starts : List α) : List α :=
  starts.foldl (finishFrom domain next []) []

def reaches (domain : List α) (next : α → List α) (v w : α) : Bool :=
  (finishFrom domain next [] [] v).contains w

def connected (domain : List α) (next : α → List α) (v w : α) : Bool :=
  reaches domain next v w && reaches domain next w v

/-- The strongly connected components of nodes given in the order they were
finished. A component stands where the last of its nodes was finished. -/
def componentsOf (domain : List α) (next : α → List α) : List α → List (List α)
  | [] => []
  | v :: rest =>
    if rest.any (connected domain next v) then componentsOf domain next rest
    else domain.filter (connected domain next v) :: componentsOf domain next rest

/-- The strongly connected components of a domain, each after those that it
leads to. -/
def components (domain : List α) (next : α → List α) : List (List α) :=
  componentsOf domain next (finishAll domain next domain).reverse

end SemanticAnalysis.Graph
