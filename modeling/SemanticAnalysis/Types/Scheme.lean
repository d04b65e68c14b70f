import SemanticAnalysis.Types.Substitution
import SemanticAnalysis.Types.Text

/-!
Type schemes: types quantified over a set of variables. A scheme is written
with its bound variables renamed in order of appearance to the first names that
no free variable has, so schemes that differ by the choice of bound variables
are written alike.
-/

namespace SemanticAnalysis

structure Scheme where
  bound : OrderedSet TyVar
  body : Ty
deriving Inhabited

namespace Scheme

def mono (body : Ty) : Scheme := ⟨OrderedMap.empty, body⟩

def closed (body : Ty) : Scheme := ⟨body.freeVars, body⟩

def isMono (s : Scheme) : Bool := s.bound.isEmpty

def freeVars (s : Scheme) : OrderedSet TyVar := OrderedSet.diff s.body.freeVars s.bound

def same (s r : Scheme) : Bool := s.bound = r.bound && s.body.same r.body

def substitute (s : Scheme) (r : Subst) : Scheme :=
  { s with body := (r.without s.bound.contains).apply s.body }

/-- Replaces the bound variables, in ascending order, by fresh ones. -/
def instantiate (s : Scheme) (supply : Supply) : Ty × Supply :=
  let (vs, supply) := supply.freshList s.bound.size
  let fresh : Subst := OrderedMap.ofList ((OrderedSet.toList s.bound).zip (vs.map Ty.var))
  (fresh.apply s.body, supply)

def unusedIndex (used : List TyVar) (start : Nat) : Nat :=
  let candidates := List.range' start (used.length + 1)
  (candidates.find? fun i => !used.contains ⟨i⟩).getD (start + used.length)

def assignNames (used : List TyVar) (start : Nat) : List TyVar → List (TyVar × TyVar)
  | [] => []
  | v :: rest =>
    let i := unusedIndex used start
    (v, ⟨i⟩) :: assignNames used (i + 1) rest

def appearing (s : Scheme) : List TyVar :=
  (s.body.vars.filter s.bound.contains).eraseDups

def renames (s : Scheme) : List (TyVar × TyVar) :=
  assignNames (OrderedSet.toList s.freeVars) 0 s.appearing

/-- Writes a scheme as `∀a, b. body`, or only the body where nothing is bound in it. -/
def text (symbols : SymbolTable) (s : Scheme) : String :=
  let names := s.renames
  let quantifier :=
    if names.isEmpty then "" else "∀" ++ joinWith ", " (names.map fun p => p.2.name) ++ ". "
  quantifier ++ s.body.textAt ⟨symbols, names⟩ .outer

end Scheme

end SemanticAnalysis
