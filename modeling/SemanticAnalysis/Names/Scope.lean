import SemanticAnalysis.Tree.Basic

/-!
Lexical scopes. Each node that introduces a scope is its anchor; the scope
records the declarations bound directly inside it and the scope around it.
Scopes are numbered in pre-order, so a scope has a greater number than the scopes
around it and every way outwards ends.
-/

namespace SemanticAnalysis

/-- How a scope takes part in look-ups. -/
inductive ScopeKind where
  /-- A module. -/
  | global
  /-- A struct, a trait or an enum. -/
  | object
  /-- A function, which does not see the locals around it. -/
  | shielded
  /-- A block, a lambda or the initializer of a variable. -/
  | inner
deriving DecidableEq

def ScopeKind.of? : Kind → Option ScopeKind
  | .moduleDecl _ _ _ => some .global
  | .structDecl _ _ _ | .traitDecl _ _ | .enumDecl _ _ => some .object
  | .function _ _ _ _ | .abstractFunction _ _ _ | .foreignFunction _ _ _ _ => some .shielded
  | .block _ | .lambda _ _ | .varDecl _ _ _ _ => some .inner
  | _ => none

abbrev ScopeId := Nat

structure Scope where
  anchor : NodeId
  kind : ScopeKind
  parent : Option ScopeId
  declarations : List NodeId

def Forest.isLocalBinding (f : Forest) (n : NodeId) : Bool :=
  match f.kind? n with
  | some (.varDecl _ _ _ _) | some (.function _ _ _ _) => true
  | _ => false

def Forest.scopeDeclarations (f : Forest) : Kind → List NodeId
  | .moduleDecl _ _ items => items
  | .structDecl _ fields members => fields ++ members
  | .traitDecl _ members => members
  | .enumDecl _ entries => entries
  | .function _ params _ _ | .abstractFunction _ params _ | .foreignFunction _ params _ _
  | .lambda params _ => params
  | .block items => items.filter f.isLocalBinding
  | _ => []

structure ScopeTree where
  scopes : Array Scope

namespace ScopeTree

def empty : ScopeTree := ⟨#[]⟩

instance : Inhabited ScopeTree := ⟨empty⟩

def size (t : ScopeTree) : Nat := t.scopes.size

/-- Adds the scope that a node introduces, if any, and gives the scope around its children. -/
def enter (f : Forest) (t : ScopeTree) (n : NodeId) (around : Option ScopeId) :
    ScopeTree × Option ScopeId :=
  match (f.kind? n).bind fun k => (ScopeKind.of? k).map fun s => (k, s) with
  | some (k, kind) => (⟨t.scopes.push ⟨n, kind, around, f.scopeDeclarations k⟩⟩, some t.size)
  | none => (t, around)

/-- A walk under way: the scopes found so far, and the nodes to go on from, the next one last, each
with the scope around it. -/
structure Walk where
  found : ScopeTree
  stack : Array (NodeId × Option ScopeId)

namespace Walk

def ahead (f : Forest) (w : Walk) : Nat := Forest.Walk.ahead f ⟨#[], w.stack.map (·.1)⟩

/-- Enters the node on top of the stack and puts its children there, the first on top. -/
def step (f : Forest) (w : Walk) : Walk :=
  match w.stack.back? with
  | none => w
  | some (n, around) =>
    let (found, current) := w.found.enter f n around
    ⟨found, w.stack.pop ++ (f.children n).reverse.map fun c => (c, current)⟩

theorem step_eq {f : Forest} {w : Walk} {n : NodeId} {around : Option ScopeId}
    (h : w.stack.back? = some (n, around)) :
    w.step f = ⟨(w.found.enter f n around).1,
      w.stack.pop ++ (f.children n).reverse.map fun c => (c, (w.found.enter f n around).2)⟩ := by
  rw [step, h]

/-- The nodes on the stack are those of a walk that only lists them. -/
theorem ahead_step {f : Forest} {w : Walk} {n : NodeId} {around : Option ScopeId}
    (h : w.stack.back? = some (n, around)) : (w.step f).ahead f + 1 = w.ahead f := by
  have hback : (w.stack.map (·.1)).back? = some n := by simp [h]
  have hnodes := Forest.Walk.ahead_step (f := f) (w := ⟨#[], w.stack.map (·.1)⟩) hback
  rw [Forest.Walk.step_eq hback] at hnodes
  rw [ahead, ahead, ← hnodes, step_eq h]
  simp [Forest.Walk.ahead, Function.comp_def]

def run (f : Forest) (w : Walk) : ScopeTree :=
  match h : w.stack.back? with
  | none => w.found
  | some _ =>
    have : (w.step f).ahead f + 1 = w.ahead f := ahead_step h
    (w.step f).run f
termination_by w.ahead f
decreasing_by omega

end Walk

def build (t : Tree) : ScopeTree := Walk.run t.toForest ⟨empty, #[(t.root, none)]⟩

def anchoredAt (t : ScopeTree) (n : NodeId) : Option ScopeId :=
  (List.range t.size).reverse.find? fun i => (t.scopes[i]?).any fun s => s.anchor = n

def enclosing (t : ScopeTree) (f : Forest) (n : NodeId) : Option ScopeId :=
  (f.ancestors n).findSome? t.anchoredAt

def parent? (t : ScopeTree) (i : ScopeId) : Option ScopeId := (t.scopes[i]?).bind (·.parent)

def outward (t : ScopeTree) (i : ScopeId) : List ScopeId :=
  match t.parent? i with
  | none => []
  | some p => if p < i then p :: t.outward p else []
termination_by i

/-- The scope in which a look-up goes on that failed in the given one. Out of a
function it skips the locals around the function. -/
def escalate (t : ScopeTree) (i : ScopeId) : Option ScopeId :=
  match t.scopes[i]? with
  | none => none
  | some scope =>
    if scope.kind = .shielded then
      (t.outward i).find? fun j => (t.scopes[j]?).any fun s => s.kind = .global || s.kind = .object
    else scope.parent

/-- The scopes a look-up asks in turn that starts in the given one. -/
def route (t : ScopeTree) (i : ScopeId) : List ScopeId :=
  i :: match t.escalate i with
    | none => []
    | some j => if j < i then t.route j else []
termination_by i

end ScopeTree

end SemanticAnalysis
