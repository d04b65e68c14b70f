import SemanticAnalysis.Session.Token

/-!
Session documents: settings by name, in the manner of TOML. A value is a flag, a
text, a list or a table. A list of tables may also be written as sections, one
headed `[[name]]` for each table and one headed `[name.key]` for an empty table
under a key of the last one. Values and keys that no setting could take, such as
numbers, dates and dotted keys, are refused.
-/

namespace SemanticAnalysis.Session

inductive Value where
  | flag (isOn : Bool)
  | text (s : String)
  | list (items : List Value)
  | table (entries : List (String × Value))

inductive Statement where
  /-- The setting of a key. -/
  | entry (key : String) (value : Value)
  /-- The head of another table of a list. -/
  | item (key : String)
  /-- The head of a table under a key of the last table of a list. -/
  | field (key inner : String)

namespace Document

abbrev Tokens := List Token

def key? : Token → Option String
  | .word text => some text
  | .quoted text false => some text
  | _ => none

def dropNewlines : Tokens → Tokens
  | .newline :: ts => dropNewlines ts
  | ts => ts

/-- Reads the items of a list up to its closing bracket. Items may stand on lines
of their own and a comma may follow the last one. -/
def readItems (item : Tokens → Option (Value × Tokens)) :
    Nat → Tokens → Option (List Value × Tokens)
  | 0, _ => none
  | fuel + 1, ts =>
    match dropNewlines ts with
    | .symbol ']' :: ts => some ([], ts)
    | ts => do
      let (value, ts) ← item ts
      match dropNewlines ts with
      | .symbol ']' :: ts => return ([value], ts)
      | .symbol ',' :: ts => do
        let (values, ts) ← readItems item fuel ts
        return (value :: values, ts)
      | _ => none

/-- Reads the entries of a table up to its closing brace, on one line. -/
def readEntries (item : Tokens → Option (Value × Tokens)) :
    Nat → Tokens → Option (List (String × Value) × Tokens)
  | 0, _ => none
  | _ + 1, [] => none
  | fuel + 1, head :: ts => do
    let key ← key? head
    match ts with
    | .symbol '=' :: ts =>
      let (value, ts) ← item ts
      match ts with
      | .symbol '\x7d' :: ts => return ([(key, value)], ts)
      | .symbol ',' :: ts =>
        let (entries, ts) ← readEntries item fuel ts
        if entries.any fun p => p.1 = key then none
        else return ((key, value) :: entries, ts)
      | _ => none
    | _ => none

/-- Reads a value. The fuel bounds its nesting and length. -/
def readValue : Nat → Tokens → Option (Value × Tokens)
  | 0, _ => none
  | _ + 1, .word "true" :: ts => some (.flag true, ts)
  | _ + 1, .word "false" :: ts => some (.flag false, ts)
  | _ + 1, .quoted text _ :: ts => some (.text text, ts)
  | fuel + 1, .symbol '[' :: ts =>
    (readItems (readValue fuel) (fuel + 1) ts).map fun p => (.list p.1, p.2)
  | _ + 1, .symbol '\x7b' :: .symbol '\x7d' :: ts => some (.table [], ts)
  | fuel + 1, .symbol '\x7b' :: ts =>
    (readEntries (readValue fuel) (fuel + 1) ts).map fun p => (.table p.1, p.2)
  | _ + 1, _ => none

def readStatement (fuel : Nat) : Tokens → Option (Statement × Tokens)
  | .openDouble :: head :: .closeDouble :: ts => (key? head).map fun key => (.item key, ts)
  | .symbol '[' :: head :: .symbol '.' :: inner :: .symbol ']' :: ts => do
    return (.field (← key? head) (← key? inner), ts)
  | head :: .symbol '=' :: ts => do
    let key ← key? head
    let (value, ts) ← readValue fuel ts
    return (.entry key value, ts)
  | _ => none

def readStatements : Nat → Tokens → Option (List Statement)
  | 0, _ => none
  | fuel + 1, ts =>
    match dropNewlines ts with
    | [] => some []
    | ts => do
      let (statement, ts) ← readStatement (fuel + 1) ts
      match ts with
      | [] => return [statement]
      | .newline :: ts =>
        let statements ← readStatements fuel ts
        return statement :: statements
      | _ => none

end Document

inductive Place where
  | top
  | inItem (key : String)
  | inField

/-- What the statements of a document have set so far: the settings, the lists
written as sections, and where the next entry goes. -/
structure Document where
  settings : List (String × Value)
  sections : List (String × List (List (String × Value)))
  place : Place

namespace Document

def empty : Document := ⟨[], [], .top⟩

def insertNew? (entries : List (String × Value)) (key : String) (value : Value) :
    Option (List (String × Value)) :=
  if entries.any fun p => p.1 = key then none else some (entries ++ [(key, value)])

/-- Adds an entry to the last table of a list that is written as sections. -/
def addToLast? (d : Document) (name key : String) (value : Value) : Option Document := do
  let tables ← d.sections.lookup name
  let last ← tables.getLast?
  let last ← insertNew? last key value
  let sections := d.sections.map fun p =>
    if p.1 = name then (name, tables.dropLast ++ [last]) else p
  return { d with sections }

def addTable? (d : Document) (name : String) : Option Document :=
  if d.settings.any fun p => p.1 = name then none
  else
    match d.sections.lookup name with
    | none => some { d with sections := d.sections ++ [(name, [[]])], place := .inItem name }
    | some tables =>
      let sections := d.sections.map fun p => if p.1 = name then (name, tables ++ [[]]) else p
      some { d with sections, place := .inItem name }

def add? (d : Document) : Statement → Option Document
  | .item key => d.addTable? key
  | .field key inner => do
    let d ← d.addToLast? key inner (.table [])
    return { d with place := .inField }
  | .entry key value =>
    match d.place with
    | .top => (insertNew? d.settings key value).map fun settings => { d with settings }
    | .inItem name => d.addToLast? name key value
    | .inField => none

def values (d : Document) : List (String × Value) :=
  d.settings ++ d.sections.map fun p => (p.1, .list (p.2.map .table))

def read? (text : String) : Option (List (String × Value)) := do
  let tokens ← Token.scan text
  let statements ← readStatements (tokens.length + 1) tokens
  let document ← statements.foldlM add? empty
  return document.values

end Document

end SemanticAnalysis.Session
