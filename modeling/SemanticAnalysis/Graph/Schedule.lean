import SemanticAnalysis.Graph.Digraph

/-!
Schedules of items that must come after what they depend on. The items and
everything that they depend on, directly or not, form a graph whose layers, last
first, are the schedule.
-/

namespace SemanticAnalysis.Schedule

variable {α : Type} [DecidableEq α]

/-- Adds the pending items and what they depend on to a graph. The fuel bounds
the number of items taken up; `none` says that it ran out. -/
def expand (dependencies : α → List α) :
    Nat → List α → List α → Digraph α → Option (Digraph α)
  | _, [], _, g => some g
  | 0, _ :: _, _, _ => none
  | fuel + 1, item :: pending, expanded, g =>
    if item ∈ expanded then expand dependencies fuel pending expanded g
    else
      let wanted := dependencies item
      expand dependencies fuel (wanted ++ pending) (item :: expanded) (g.addChildren item wanted)

def layers (fuel : Nat) (dependencies : α → List α) (items : List α) :
    Option (Except (GraphError α) (List (List α))) :=
  (expand dependencies fuel items [] Digraph.empty).map fun g => g.layers.map List.reverse

/-- What the entries of a table say about an item; a later entry counts over an
earlier one, and an item without an entry has nothing. -/
def tableLookup (table : List (α × List α)) (item : α) : List α :=
  ((table.reverse.find? fun p => p.1 = item).map (·.2)).getD []

def ofTable (table : List (α × List α)) (items : List α) :
    Option (Except (GraphError α) (List (List α))) :=
  layers (items.length + (table.flatMap fun p => p.2).length) (tableLookup table) items

end SemanticAnalysis.Schedule
