import SemanticAnalysis.Tree.NodeId
import SemanticAnalysis.Types.Text

/-!
The core language that types are inferred for: variables, application to one
argument, abstraction over one variable, let-binding, literals and tuples. Calls
and abstractions remember the node they stem from.
-/

namespace SemanticAnalysis

inductive Builtin where
  /-- The fixpoint of a recursive local binding. -/
  | fix
  /-- An assignment. -/
  | assign
  /-- A conditional with both branches. -/
  | conditional
  /-- A loop. -/
  | loop
deriving DecidableEq, Inhabited

namespace Builtin

def all : List Builtin := [.fix, .assign, .conditional, .loop]

def name : Builtin → String
  | .fix => "fix"
  | .assign => "assign"
  | .conditional => "if"
  | .loop => "while"

def position : Builtin → Nat
  | .fix => 0
  | .assign => 1
  | .conditional => 2
  | .loop => 3

def dump : Builtin → String
  | .fix => "Fix"
  | .assign => "Assign"
  | .conditional => "If"
  | .loop => "While"

end Builtin

/-- A variable of the core language: what a node declares, a binder made up
while lowering, or a builtin. -/
inductive CoreVar where
  | decl (node : NodeId)
  | synthetic (number : Nat)
  | builtin (b : Builtin)
deriving DecidableEq, Inhabited

namespace CoreVar

instance : Key CoreVar where
  rank
    | .decl node => (0, node.index)
    | .synthetic number => (1, number)
    | .builtin b => (2, b.position)
  rank_inj v w h := by
    cases v with
    | decl m => cases w <;> cases m <;> simp_all
    | synthetic m => cases w <;> simp_all
    | builtin b =>
      cases w with
      | builtin c => cases b <;> cases c <;> simp_all [Builtin.position]
      | _ => simp_all

def dump : CoreVar → String
  | .decl node => "Decl(" ++ node.dump ++ ")"
  | .synthetic number => "Synthetic(" ++ Nat.repr number ++ ")"
  | .builtin b => "Builtin(" ++ b.dump ++ ")"

def text (nameOf : NodeId → Option String) : CoreVar → String
  | .decl node => (nameOf node).getD "<anonymous>"
  | .synthetic number => "_" ++ Nat.repr number
  | .builtin b => b.name

end CoreVar

inductive Term where
  | var (v : CoreVar)
  | app (arg func : Term) (origin : Option NodeId)
  | lam (bind : CoreVar) (body : Term) (origin : Option NodeId)
  | letIn (binder : Term) (bind : CoreVar) (usage : Term)
  | number (text : String)
  | floating (text : String)
  | tuple (items : List Term)
deriving Inhabited

namespace Term

def unit : Term := .tuple []

def withOrigin (node : NodeId) : Term → Term
  | .app arg func _ => .app arg func (some node)
  | .lam bind body _ => .lam bind body (some node)
  | t => t

/-- Applies a function to its arguments in turn; without arguments to unit. -/
def call (args : List Term) (func : Term) : Term :=
  match args with
  | [] => .app unit func none
  | args => args.foldl (fun f arg => .app arg f none) func

def abstract (binds : List CoreVar) (body : Term) : Term :=
  binds.foldr (fun bind body => .lam bind body none) body

mutual

def text (nameOf : NodeId → Option String) : Term → String
  | .var v => v.text nameOf
  | .app arg func _ => text nameOf func ++ "(" ++ text nameOf arg ++ ")"
  | .lam bind body _ => "λ" ++ bind.text nameOf ++ ". " ++ text nameOf body
  | .letIn binder bind usage =>
    "let " ++ bind.text nameOf ++ " = " ++ text nameOf binder ++ " in " ++ text nameOf usage
  | .number s => s
  | .floating s => s
  | .tuple items => "(" ++ joinWith ", " (texts nameOf items) ++ ")"

def texts (nameOf : NodeId → Option String) : List Term → List String
  | [] => []
  | t :: rest => text nameOf t :: texts nameOf rest

end

end Term

end SemanticAnalysis
