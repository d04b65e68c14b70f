import SemanticAnalysis.Symbol
import SemanticAnalysis.Tree.NodeId
import SemanticAnalysis.Types.Variable

/-!
Monomorphic types. A function has one input and one output, so functions of
several arguments are curried and a function of none takes the empty tuple.

Types are compared by `Ty.same`: nominal types by name alone, unions as sets,
everything else by structure. Struct and enum types are leaves: what they hold
is invisible to variables, substitution and comparison.
-/

namespace SemanticAnalysis

inductive Prim where
  | number
  | floating
  | bool
deriving DecidableEq, Inhabited

/-- A type known by its name. An enum tag inherits from the enum it belongs to. -/
structure Nominal where
  name : Symbol
  decl : NodeId
  inherits : Option NodeId
deriving DecidableEq, Inhabited

/-- A monomorphic type. The empty tuple is the unit type, `bottom` has no values. -/
inductive Ty where
  | var (v : TyVar)
  | prim (p : Prim)
  | tuple (items : List Ty)
  | union (items : List Ty)
  | fn (input output : Ty)
  | struct (nominal : Nominal)
  | interface (name : Symbol)
  | enum (nominal : Nominal) (tags : List Ty)
  | bottom
deriving Inhabited

namespace Ty

def number : Ty := .prim .number

def floating : Ty := .prim .floating

def bool : Ty := .prim .bool

def unit : Ty := .tuple []

def isUnit : Ty → Bool
  | .tuple [] => true
  | _ => false

/-- The curried function type of the inputs; without inputs it takes unit. -/
def curried : List Ty → Ty → Ty
  | [], output => .fn unit output
  | inputs, output => inputs.foldr .fn output

mutual

/-- Agreement of types: nominal types agree when their names do, unions when
each holds the items of the other, and other types when their parts do. -/
def same : Ty → Ty → Bool
  | .var v, .var w => v = w
  | .prim p, .prim q => p = q
  | .tuple xs, .tuple ys => sameEach xs ys
  | .union xs, .union ys => eachAmong xs ys && ys.all fun y => amongSame xs y
  | .fn i o, .fn i' o' => same i i' && same o o'
  | .struct m, .struct n => m.name = n.name
  | .interface a, .interface b => a = b
  | .enum m _, .enum n _ => m.name = n.name
  | .bottom, .bottom => true
  | _, _ => false
termination_by structural a => a

def sameEach : List Ty → List Ty → Bool
  | [], [] => true
  | x :: xs, y :: ys => same x y && sameEach xs ys
  | _, _ => false
termination_by structural xs => xs

def eachAmong : List Ty → List Ty → Bool
  | [], _ => true
  | x :: xs, ys => (ys.any fun y => same x y) && eachAmong xs ys
termination_by structural xs => xs

def amongSame : List Ty → Ty → Bool
  | [], _ => false
  | x :: xs, y => same x y || amongSame xs y
termination_by structural xs => xs

end

mutual

def vars : Ty → List TyVar
  | .var v => [v]
  | .tuple items => varsAll items
  | .union items => varsAll items
  | .fn input output => vars input ++ vars output
  | _ => []

def varsAll : List Ty → List TyVar
  | [] => []
  | t :: rest => vars t ++ varsAll rest

end

def freeVars (t : Ty) : OrderedSet TyVar := OrderedSet.ofList t.vars

/-- Whether a variable occurs in a type, looking through functions only. -/
def occurs (v : TyVar) : Ty → Bool
  | .var w => v = w
  | .fn input output => occurs v input || occurs v output
  | _ => false

end Ty

end SemanticAnalysis
