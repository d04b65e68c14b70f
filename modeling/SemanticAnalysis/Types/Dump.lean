import SemanticAnalysis.Types.Text

/-!
Types spelled out constructor by constructor, as messages about the inside of
the checker show them. No symbol table is needed: symbols appear as numbers.
-/

namespace SemanticAnalysis

def dumpList (items : List String) : String := "[" ++ joinWith ", " items ++ "]"

def dumpOption : Option String → String
  | none => "None"
  | some s => "Some(" ++ s ++ ")"

def Nominal.dump (n : Nominal) : String :=
  "Nominal \x7b name: " ++ n.name.dump ++ ", decl: " ++ n.decl.dump ++ ", inherits: "
    ++ dumpOption (n.inherits.map NodeId.dump) ++ " \x7d"

namespace Ty

mutual

def dump : Ty → String
  | .var v => "Var(" ++ v.dump ++ ")"
  | .prim p => "Prim(" ++ p.name ++ ")"
  | .tuple items => "Tuple(" ++ dumpList (dumps items) ++ ")"
  | .union items => "Union(" ++ dumpList (dumps items) ++ ")"
  | .fn input output => "Fn(" ++ dump input ++ ", " ++ dump output ++ ")"
  | .struct nominal => "Struct(" ++ nominal.dump ++ ")"
  | .interface name => "Interface(" ++ name.dump ++ ")"
  | .enum nominal tags =>
    "Enum \x7b nominal: " ++ nominal.dump ++ ", tags: " ++ dumpList (dumps tags) ++ " \x7d"
  | .bottom => "Bottom"

def dumps : List Ty → List String
  | [] => []
  | t :: rest => dump t :: dumps rest

end

end Ty

end SemanticAnalysis
