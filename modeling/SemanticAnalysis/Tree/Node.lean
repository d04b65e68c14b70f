import SemanticAnalysis.Span
import SemanticAnalysis.Symbol
import SemanticAnalysis.Tree.NodeId

/-!
The kinds of node a syntax tree is made of. A node names its children; what a
resolved reference refers to is not a child of it.
-/

namespace SemanticAnalysis

/-- What stands before a name: the names leading to it, and whether they start
at the modules of the file. -/
structure Qualifier where
  fromRoot : Bool
  chain : List Symbol
deriving DecidableEq

structure Reference where
  name : Symbol
  qualifier : Option Qualifier
deriving DecidableEq

inductive Kind where
  | file (modules : List NodeId)
  | moduleDecl (name : Symbol) (isGlobal : Bool) (items : List NodeId)
  | structDecl (name : Symbol) (fields members : List NodeId)
  | foreignStruct (name : Symbol) (relatesTo : String)
  | traitDecl (name : Symbol) (members : List NodeId)
  | enumDecl (name : Symbol) (entries : List NodeId)
  | enumEntry (name : Symbol)
  | function (name : Symbol) (params : List NodeId) (returns : Option NodeId) (body : NodeId)
  | abstractFunction (name : Symbol) (params : List NodeId) (returns : Option NodeId)
  | foreignFunction (name : Symbol) (params : List NodeId) (returns : Option NodeId)
      (descriptor : String)
  | parameter (name : Symbol) (type : Option NodeId)
  | varDecl (name : Symbol) (isMutable : Bool) (type : Option NodeId) (value : NodeId)
  | block (items : List NodeId)
  | reference (target : Reference)
  | resolved (target : Reference) (referral : NodeId)
  | call (callee : NodeId) (args : List NodeId)
  | lambda (params : List NodeId) (body : NodeId)
  | number (text : String)
  | floating (text : String)
  | tuple (items : List NodeId)
  | assign (target value : NodeId)
  | loop (condition body : NodeId)
  | conditional (condition body : NodeId) (elifs : List (NodeId × NodeId))
      (otherwise : Option NodeId)
  | typeReference (target : Reference)
  | resolvedType (target : Reference) (referral : NodeId)
  | tupleType (items : List NodeId)
  | unionType (items : List NodeId)
deriving DecidableEq

namespace Kind

def children : Kind → List NodeId
  | .file modules => modules
  | .moduleDecl _ _ items => items
  | .structDecl _ fields members => fields ++ members
  | .traitDecl _ members => members
  | .enumDecl _ entries => entries
  | .function _ params returns body => params ++ returns.toList ++ [body]
  | .abstractFunction _ params returns => params ++ returns.toList
  | .foreignFunction _ params returns _ => params ++ returns.toList
  | .parameter _ type => type.toList
  | .varDecl _ _ type value => type.toList ++ [value]
  | .block items => items
  | .call callee args => callee :: args
  | .lambda params body => params ++ [body]
  | .tuple items => items
  | .assign target value => [target, value]
  | .loop condition body => [condition, body]
  | .conditional condition body elifs otherwise =>
    condition :: body :: elifs.flatMap (fun p => [p.1, p.2]) ++ otherwise.toList
  | .tupleType items => items
  | .unionType items => items
  | .foreignStruct _ _ | .enumEntry _ | .reference _ | .resolved _ _ | .number _ | .floating _
  | .typeReference _ | .resolvedType _ _ => []

def name? : Kind → Option Symbol
  | .moduleDecl name _ _ | .structDecl name _ _ | .foreignStruct name _ | .traitDecl name _
  | .enumDecl name _ | .enumEntry name | .function name _ _ _ | .abstractFunction name _ _
  | .foreignFunction name _ _ _ | .parameter name _ | .varDecl name _ _ _ => some name
  | _ => none

def isTypeDecl : Kind → Bool
  | .structDecl _ _ _ | .foreignStruct _ _ | .traitDecl _ _ | .enumDecl _ _ => true
  | _ => false

/-- Whether a node declares a function, with a body or without. -/
def isFunction : Kind → Bool
  | .function _ _ _ _ | .abstractFunction _ _ _ | .foreignFunction _ _ _ _ => true
  | _ => false

def params? : Kind → Option (List NodeId)
  | .function _ params _ _ | .abstractFunction _ params _ | .foreignFunction _ params _ _
  | .lambda params _ => some params
  | _ => none

def describe : Kind → String
  | .file _ => "file"
  | .moduleDecl _ _ _ => "module"
  | .structDecl _ _ _ => "struct"
  | .foreignStruct _ _ => "foreign type"
  | .traitDecl _ _ => "trait"
  | .enumDecl _ _ => "enum"
  | .enumEntry _ => "enum entry"
  | .function _ _ _ _ => "function"
  | .abstractFunction _ _ _ => "abstract function"
  | .foreignFunction _ _ _ _ => "foreign function"
  | .parameter _ _ => "parameter"
  | .varDecl _ _ _ _ => "variable"
  | .block _ => "block"
  | .reference _ | .resolved _ _ => "reference"
  | .call _ _ => "call"
  | .lambda _ _ => "lambda"
  | .number _ => "number"
  | .floating _ => "floating"
  | .tuple _ => "tuple"
  | .assign _ _ => "assignment"
  | .loop _ _ => "while loop"
  | .conditional _ _ _ _ => "if expression"
  | .typeReference _ | .resolvedType _ _ => "type reference"
  | .tupleType _ => "tuple type"
  | .unionType _ => "union type"

def withReferral (referral : NodeId) : Kind → Kind
  | .reference target => .resolved target referral
  | .typeReference target => .resolvedType target referral
  | k => k

@[simp]
theorem children_withReferral (referral : NodeId) (k : Kind) :
    (k.withReferral referral).children = k.children := by
  cases k <;> rfl

end Kind

/-- A kind at a place in the source, and the last node so far that names it as a child. -/
structure Node where
  kind : Kind
  span : Span
  parent : Option NodeId

end SemanticAnalysis
