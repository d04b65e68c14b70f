import SemanticAnalysis.Tree.Basic
import SemanticAnalysis.Types.Basic

/-!
The types that declarations and type expressions stand for. A resolved type
reference stands for the nominal type it refers to, and tuples and unions are
read item by item. The field types of a struct are worked out when they are first
asked for and kept, so that a field without a type expression has one variable.
-/

namespace SemanticAnalysis

inductive TypeExprError where
  | unresolved (span : Span)
  | notAType (kind : String) (span : Span)

namespace TypeExprError

def span : TypeExprError → Span
  | .unresolved span => span
  | .notAType _ span => span

def message : TypeExprError → String
  | .unresolved span => "type reference at " ++ span.text ++ " was not resolved"
  | .notAType kind span => kind ++ " at " ++ span.text ++ " is not a type"

end TypeExprError

def declaredType (f : Forest) (n : NodeId) : Except TypeExprError Ty :=
  match h : f.kind? n with
  | some (.structDecl name _ _) => .ok (.struct ⟨name, n, none⟩)
  | some (.foreignStruct name _) => .ok (.struct ⟨name, n, none⟩)
  | some (.traitDecl name _) => .ok (.interface name)
  | some (.enumDecl name entries) => do
    let tags ← entries.attach.mapM fun ⟨entry, he⟩ =>
      have : entry.index < n.index := Forest.index_lt_of_kind h he
      declaredType f entry
    return .enum ⟨name, n, none⟩ tags
  | some (.enumEntry name) => .ok (.struct ⟨name, n, f.parent? n⟩)
  | _ => .error (.notAType (f.describe n) (f.span n))
termination_by n.index

def evalType (f : Forest) (n : NodeId) : Except TypeExprError Ty :=
  match h : f.kind? n with
  | some (.tupleType items) => do
    let ts ← items.attach.mapM fun ⟨item, hi⟩ =>
      have : item.index < n.index := Forest.index_lt_of_kind h hi
      evalType f item
    return .tuple ts
  | some (.unionType items) => do
    let ts ← items.attach.mapM fun ⟨item, hi⟩ =>
      have : item.index < n.index := Forest.index_lt_of_kind h hi
      evalType f item
    return .union ts
  | some (.resolvedType _ referral) => declaredType f referral
  | some (.typeReference _) => .error (.unresolved (f.span n))
  | _ => .error (.notAType (f.describe n) (f.span n))
termination_by n.index

/-- What is known about types while a unit is worked on: the variables issued
and the field types of the structs asked about. -/
structure TypeStore where
  supply : Supply
  fields : OrderedMap NodeId (List Ty)
deriving Inhabited

namespace TypeStore

def start (supply : Supply) : TypeStore := ⟨supply, OrderedMap.empty⟩

abbrev Reading := ExceptT TypeExprError (StateM TypeStore)

def freshVar : Reading Ty := do
  let st ← get
  let (v, supply) := st.supply.fresh
  set { st with supply }
  return .var v

def evalOrFresh (f : Forest) : Option NodeId → Reading Ty
  | none => freshVar
  | some n => liftExcept (evalType f n)
where
  liftExcept (r : Except TypeExprError Ty) : Reading Ty := ExceptT.mk (pure r)

def parameterType (f : Forest) (n : NodeId) : Reading Ty :=
  match f.kind? n with
  | some (.parameter _ type) => evalOrFresh f type
  | _ => freshVar

/-- The field types of a struct, which are worked out once. -/
def fieldTypes (f : Forest) (decl : NodeId) : Reading (List Ty) := do
  match (← get).fields.get? decl with
  | some ts => return ts
  | none =>
    let ts ← match f.kind? decl with
      | some (.structDecl _ fields _) => fields.mapM (parameterType f)
      | _ => pure []
    modify fun st => { st with fields := st.fields.insert decl ts }
    return ts

def fieldType (f : Forest) (n : NodeId) : Reading (Option Ty) := do
  match f.parent? n with
  | none => return none
  | some owner =>
    match f.kind? owner with
    | some (.structDecl _ fields _) =>
      match fields.findIdx? (· = n) with
      | none => return none
      | some i => return (← fieldTypes f owner)[i]?
    | _ => return none

def constructorType (f : Forest) (decl : NodeId) : Reading Ty := do
  let fields ← fieldTypes f decl
  let output ← ExceptT.mk (pure (declaredType f decl))
  return Ty.curried fields output

end TypeStore

end SemanticAnalysis
