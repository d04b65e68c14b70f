import SemanticAnalysis.Types.Basic

/-!
Substitutions: finite maps from type variables to types. Applying one is a
single pass that leaves the replacements alone and leaves nominal types
as they are. Composition is ordered so that `(s.compose r).apply t` is
`s.apply (r.apply t)`.
-/

namespace SemanticAnalysis

abbrev Subst := OrderedMap TyVar Ty

namespace Subst

def empty : Subst := OrderedMap.empty

def single (v : TyVar) (t : Ty) : Subst := OrderedMap.empty.insert v t

mutual

def apply (s : Subst) : Ty → Ty
  | .var v => (OrderedMap.get? s v).getD (.var v)
  | .tuple items => .tuple (applyAll s items)
  | .union items => .union (applyAll s items)
  | .fn input output => .fn (apply s input) (apply s output)
  | .prim p => .prim p
  | .struct nominal => .struct nominal
  | .interface name => .interface name
  | .enum nominal tags => .enum nominal tags
  | .bottom => .bottom

def applyAll (s : Subst) : List Ty → List Ty
  | [] => []
  | t :: rest => apply s t :: applyAll s rest

end

/-- The substitution that acts as `r` first and as `s` second. -/
def compose (s r : Subst) : Subst := (OrderedMap.mapValues r s.apply).insertMissing s

def without (s : Subst) (drop : TyVar → Bool) : Subst := OrderedMap.filterKeys s fun v => !drop v

def same (s r : Subst) : Bool :=
  OrderedMap.keys s = OrderedMap.keys r &&
    Ty.sameEach (OrderedMap.values s) (OrderedMap.values r)

end Subst

end SemanticAnalysis
