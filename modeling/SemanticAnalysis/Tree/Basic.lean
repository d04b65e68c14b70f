import SemanticAnalysis.Tree.Walk

/-!
A syntax tree: a forest with a root, the name of the file it was read from and
the symbol table of its names. A draft is a tree in the making; nodes pushed
without a span get one, the join of their children's or, without children, the
next free byte.
-/

namespace SemanticAnalysis

structure Tree extends Forest where
  file : String
  root : NodeId
  symbols : SymbolTable

namespace Tree

def nameOf (t : Tree) (n : NodeId) : Option String := (t.name? n).map t.symbols.display

def walk (t : Tree) : List NodeId := t.walkFrom t.root

def findDeclaration (t : Tree) (name : String) : Option NodeId :=
  match t.symbols.get? name with
  | none => none
  | some symbol => t.walk.find? fun n => t.name? n = some symbol

def resolveAll (t : Tree) (referrals : List (NodeId × NodeId)) : Tree :=
  { t with toForest := referrals.foldl (fun f p => f.resolveAt p.1 p.2) t.toForest }

end Tree

/-- A tree in the making, and the first byte that no node covers yet. -/
structure Draft where
  forest : Forest
  symbols : SymbolTable
  cursor : Nat
deriving Inhabited

namespace Draft

def empty : Draft := ⟨Forest.empty, SymbolTable.empty, 0⟩

def intern (d : Draft) (name : String) : Symbol × Draft :=
  let (symbol, symbols) := d.symbols.intern name
  (symbol, { d with symbols })

def pushAt? (d : Draft) (span : Span) (kind : Kind) : Option (NodeId × Draft) :=
  if h : ∀ c ∈ kind.children, c.index < d.forest.size then
    let id : NodeId := ⟨d.forest.size⟩
    some (id, { d with forest := d.forest.push kind span h, cursor := max d.cursor span.stop })
  else none

/-- Pushes a node with a synthetic span. One without children takes the byte at the cursor. -/
def push? (d : Draft) (kind : Kind) : Option (NodeId × Draft) :=
  match Span.hull (kind.children.map d.forest.span) with
  | some span => d.pushAt? span kind
  | none => { d with cursor := d.cursor + 1 }.pushAt? ⟨d.cursor, d.cursor + 1⟩ kind

def pushEntries? (d : Draft) : List String → Option (List NodeId × Draft)
  | [] => some ([], d)
  | name :: rest => do
    let (symbol, d) := d.intern name
    let (id, d) ← d.push? (.enumEntry symbol)
    let (ids, d) ← d.pushEntries? rest
    return (id :: ids, d)

/-- Pushes an enum after one entry per name. The names of the entries are
interned before its own. -/
def pushEnum? (d : Draft) (name : String) (entries : List String) : Option (NodeId × Draft) := do
  let (ids, d) ← d.pushEntries? entries
  let (symbol, d) := d.intern name
  d.push? (.enumDecl symbol ids)

def finish (d : Draft) (file : String) (root : NodeId) : Tree :=
  { d.forest with file, root, symbols := d.symbols }

end Draft

end SemanticAnalysis
