import SemanticAnalysis.Types.Basic

/-!
How types are written for a reader: `(A, b)` for tuples, `A | B` for unions,
`A -> B` for functions. Functions and unions are put in parentheses where they
stand as an input of a function or as an item of a union.
-/

namespace SemanticAnalysis

def joinWith (separator : String) : List String → String
  | [] => ""
  | [s] => s
  | s :: rest => s ++ separator ++ joinWith separator rest

/-- What names a type is written with: those of symbols, and new names for
some of its variables. -/
structure Naming where
  symbols : SymbolTable
  renames : List (TyVar × TyVar)

def Naming.variable (names : Naming) (v : TyVar) : String :=
  (((names.renames.find? fun p => p.1 = v).map (·.2)).getD v).name

/-- Where a type stands: on its own, or where it must hold together. -/
inductive Position where
  | outer
  | inner
deriving DecidableEq

def Position.wrap (p : Position) (s : String) : String :=
  match p with
  | .outer => s
  | .inner => "(" ++ s ++ ")"

namespace Prim

def name : Prim → String
  | .number => "Number"
  | .floating => "Floating"
  | .bool => "Bool"

end Prim

namespace Ty

mutual

def textAt (names : Naming) (p : Position) : Ty → String
  | .var v => names.variable v
  | .prim q => q.name
  | .tuple items =>
    let close := if items.length = 1 then ",)" else ")"
    "(" ++ joinWith ", " (textsAt names .outer items) ++ close
  | .union items => p.wrap (joinWith " | " (textsAt names .inner items))
  | .fn input output =>
    p.wrap (textAt names .inner input ++ " -> " ++ textAt names .outer output)
  | .struct nominal => names.symbols.display nominal.name
  | .interface name => names.symbols.display name
  | .enum nominal _ => names.symbols.display nominal.name
  | .bottom => "!"

def textsAt (names : Naming) (p : Position) : List Ty → List String
  | [] => []
  | t :: rest => textAt names p t :: textsAt names p rest

end

def text (symbols : SymbolTable) (t : Ty) : String := textAt ⟨symbols, []⟩ .outer t

end Ty

end SemanticAnalysis
