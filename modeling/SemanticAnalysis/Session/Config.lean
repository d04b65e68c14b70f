import SemanticAnalysis.Quoted
import SemanticAnalysis.Session.Document
import SemanticAnalysis.Session.Pass
import SemanticAnalysis.Types.Dump

/-!
The configuration of a session. A document may set `warnings-as-errors` to a flag
and `disabled-passes` to a list of passes, and nothing else. A pass is written as
its name, or as a table with its name as the only key and nothing under it.
-/

namespace SemanticAnalysis.Session

structure Config where
  warningsAsErrors : Bool
  disabledPasses : List Pass
deriving DecidableEq

inductive ReadError where
  | missing
  | notText

def ReadError.message : ReadError → String
  | .missing => "No such file or directory (os error 2)"
  | .notText => "stream did not contain valid UTF-8"

inductive ConfigError where
  | unreadable (error : ReadError)
  | malformed

namespace Config

def default : Config := ⟨false, []⟩

instance : Inhabited Config := ⟨default⟩

def isDisabled (c : Config) (p : Pass) : Bool := c.disabledPasses.contains p

def flagName : String := "warnings-as-errors"

def passesName : String := "disabled-passes"

def isNothing : Value → Bool
  | .list [] | .table [] => true
  | _ => false

def passOf? : Value → Option Pass
  | .text name => Pass.named? name
  | .table [(name, value)] => if isNothing value then Pass.named? name else none
  | _ => none

def set? (c : Config) : String × Value → Option Config
  | (name, .flag isOn) => if name = flagName then some { c with warningsAsErrors := isOn } else none
  | (name, .list items) =>
    if name = passesName then (items.mapM passOf?).map fun ps => { c with disabledPasses := ps }
    else none
  | _ => none

def parse (text : String) : Except ConfigError Config :=
  match (Document.read? text).bind fun values => values.foldlM set? default with
  | some c => .ok c
  | none => .error .malformed

/-- The configuration in the contents of a file, if there is such a file. -/
def load (contents : Option ByteArray) : Except ConfigError Config :=
  match contents with
  | none => .error (.unreadable .missing)
  | some bytes =>
    match String.fromUTF8? bytes with
    | none => .error (.unreadable .notText)
    | some text => parse text

def text (c : Config) : String :=
  flagName ++ " = " ++ (if c.warningsAsErrors then "true" else "false") ++ "\n" ++
    passesName ++ " = " ++ dumpList (c.disabledPasses.map fun p => quoted p.name) ++ "\n"

end Config

end SemanticAnalysis.Session
