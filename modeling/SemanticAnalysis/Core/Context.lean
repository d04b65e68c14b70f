import SemanticAnalysis.Core.Term
import SemanticAnalysis.Types.Scheme

/-!
Typing contexts: the schemes that core variables are assumed to have.
-/

namespace SemanticAnalysis

abbrev Context := OrderedMap CoreVar Scheme

def Builtin.type (a : Ty) : Builtin → Ty
  | .fix => .fn (.fn a a) a
  | .assign => Ty.curried [a, a] Ty.unit
  | .conditional => Ty.curried [Ty.bool, a, a] a
  | .loop => Ty.curried [Ty.bool, a] Ty.unit

namespace Context

def empty : Context := OrderedMap.empty

def prelude (supply : Supply) : Context × Supply :=
  let (vs, supply) := supply.freshList Builtin.all.length
  let schemes := (Builtin.all.zip vs).map fun p =>
    (CoreVar.builtin p.1, Scheme.closed (p.1.type (.var p.2)))
  (OrderedMap.ofList schemes, supply)

/-- Both contexts together; where both bind a variable the second one wins. -/
def combine (Γ Δ : Context) : Context := OrderedMap.insertAll Γ Δ.entries

def substitute (Γ : Context) (s : Subst) : Context :=
  OrderedMap.mapValues Γ fun scheme => scheme.substitute s

def freeVars (Γ : Context) : OrderedSet TyVar :=
  OrderedSet.ofList ((OrderedMap.values Γ).flatMap fun scheme => OrderedSet.toList scheme.freeVars)

def generalize (Γ : Context) (t : Ty) : Scheme := ⟨OrderedSet.diff t.freeVars Γ.freeVars, t⟩

end Context

end SemanticAnalysis
