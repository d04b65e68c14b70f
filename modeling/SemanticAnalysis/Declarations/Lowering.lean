import SemanticAnalysis.Core.Context
import SemanticAnalysis.Declarations.DeclaredType

/-!
Lowering of resolved expressions to core terms.

A block becomes a chain of lets: variables and functions bind their own
declaration, other items but the last bind a synthetic variable, and the last
item is the value, unit if it is a declaration. A reference to a binding that the
chain has not reached is an error.

A local binding that refers to itself goes through the fixpoint. Unless it is a
function, every reference to it in its own value is applied to unit, so that a
value that depends on itself has no finite type.

Along with the term, lowering collects the types that declarations fix.
-/

namespace SemanticAnalysis

inductive LowerError where
  | unresolved (node : NodeId)
  | notAValue (reference referral : NodeId) (kind : String)
  | usedBeforeBinding (reference referral : NodeId)
  | notAnExpression (node : NodeId) (kind : String)
  | notAType (error : TypeExprError)

def LowerError.message : LowerError → String
  | .unresolved node => "reference " ++ node.text ++ " was not resolved"
  | .notAValue _ referral kind => kind ++ " " ++ referral.text ++ " cannot be used as a value"
  | .usedBeforeBinding reference referral =>
    referral.text ++ " is used at " ++ reference.text ++ " before it is bound"
  | .notAnExpression node kind => kind ++ " " ++ node.text ++ " is not an expression"
  | .notAType error => error.message

/-- What lowering threads: the type store, the assumptions collected, the block
bindings reached and the number of synthetic variables made. -/
structure Lowering where
  store : TypeStore
  assumptions : Context
  bound : OrderedSet NodeId
  synthetics : Nat
deriving Inhabited

namespace Lowering

def start (store : TypeStore) : Lowering := ⟨store, Context.empty, OrderedMap.empty, 0⟩

abbrev Lower := ExceptT LowerError (StateM Lowering)

def reading {α : Type} (m : TypeStore.Reading α) : Lower α := do
  let st ← get
  let (r, store) := (m.run).run st.store
  set { st with store }
  match r with
  | .ok a => return a
  | .error e => throw (.notAType e)

def evaluate (f : Forest) (n : NodeId) : Lower Ty :=
  match evalType f n with
  | .ok t => return t
  | .error e => throw (.notAType e)

def assume (v : CoreVar) (scheme : Scheme) : Lower Unit :=
  modify fun st => { st with assumptions := st.assumptions.insert v scheme }

def isAssumed (v : CoreVar) : Lower Bool := return (← get).assumptions.contains v

def synthetic : Lower CoreVar := do
  let st ← get
  set { st with synthetics := st.synthetics + 1 }
  return .synthetic st.synthetics

def reach (n : NodeId) : Lower Unit :=
  modify fun st => { st with bound := st.bound.insert n () }

def assumeDeclared (f : Forest) (n : NodeId) : Option NodeId → Lower Unit
  | none => return ()
  | some type => do
    let t ← evaluate f type
    assume (.decl n) (Scheme.mono t)

def refersTo (f : Forest) (n target : NodeId) : Bool :=
  (f.walkFrom n).any fun m =>
    match f.kind? m with
    | some (.resolved _ referral) => referral = target
    | _ => false

def isBlock (f : Forest) (n : NodeId) : Bool :=
  match f.kind? n with
  | some (.block _) => true
  | _ => false

def isStruct (f : Forest) (n : NodeId) : Bool :=
  match f.kind? n with
  | some (.structDecl _ _ _) => true
  | _ => false

def isLambda (f : Forest) (n : NodeId) : Bool :=
  match f.kind? n with
  | some (.lambda _ _) => true
  | _ => false

def fixpoint (bind : NodeId) (term : Term) : Term :=
  .app (.lam (.decl bind) term none) (.var (.builtin .fix)) none

/-- The type of a function with the given parameters and output, whether it has a body or not. -/
def signatureOfParts (f : Forest) (params : List NodeId) (output : Lower Ty) : Lower Ty := do
  let inputs ← params.mapM fun p => reading (TypeStore.parameterType f p)
  return Ty.curried inputs (← output)

def assumeReferral (f : Forest) (n referral : NodeId) : Lower Unit := do
  let v := CoreVar.decl referral
  match f.kind? referral with
  | some (.varDecl _ _ _ _) | some (.function _ _ _ _) =>
    let inBlock := (f.parent? referral).any (isBlock f)
    if inBlock && !(← get).bound.contains referral then
      throw (.usedBeforeBinding n referral)
  | some (.parameter _ _) =>
    let isField := (f.parent? referral).any (isStruct f)
    if isField && !(← isAssumed v) then
      let t ← reading do
        match ← TypeStore.fieldType f referral with
        | some t => return t
        | none => TypeStore.freshVar
      assume v (Scheme.mono t)
  | some (.structDecl _ _ _) =>
    if !(← isAssumed v) then
      let t ← reading (TypeStore.constructorType f referral)
      assume v (Scheme.mono t)
  | some (.enumEntry _) =>
    match f.parent? referral with
    | none => return ()
    | some owner =>
      let t ← reading (ExceptT.mk (pure (declaredType f owner)))
      assume v (Scheme.mono t)
  | some (.abstractFunction _ params returns) | some (.foreignFunction _ params returns _) =>
    if !(← isAssumed v) then
      let output := match returns with
        | some type => evaluate f type
        | none => return Ty.unit
      let t ← signatureOfParts f params output
      assume v (Scheme.closed t)
  | _ => throw (.notAValue n referral (f.describe referral))

/-- The term of a reference. One to a variable whose own value is being lowered
is applied to unit. -/
def reference (f : Forest) (delayed : List NodeId) (n referral : NodeId) : Lower Term := do
  assumeReferral f n referral
  if delayed.contains referral then return .app Term.unit (.var (.decl referral)) none
  else return .var (.decl referral)

def abstraction (f : Forest) (origin : NodeId) (params : List NodeId) (body : Lower Term) :
    Lower Term := do
  params.forM fun p =>
    match f.kind? p with
    | some (.parameter _ type) => assumeDeclared f p type
    | _ => return ()
  let binds ←
    if params.isEmpty then List.singleton <$> synthetic else pure (params.map CoreVar.decl)
  let body ← body
  return (Term.abstract binds body).withOrigin origin

/-- What an item of a block comes to: a binding for the items after it, or the
value of the block. -/
inductive Item where
  | binding (binder : Term) (bind : CoreVar)
  | value (term : Term)

def chain : List Item → Term
  | [] => Term.unit
  | .value term :: _ => term
  | .binding binder bind :: rest => .letIn binder bind (chain rest)

def branch (condition body otherwise : Term) : Term :=
  Term.call [condition, body, otherwise] (.var (.builtin .conditional))

/-- Lowers an expression. References to the delayed variables are forced. -/
def expression (f : Forest) (delayed : List NodeId) (n : NodeId) : Lower Term :=
  match h : f.kind? n with
  | some (.number text) => return .number text
  | some (.floating text) => return .floating text
  | some (.tuple items) => do
    let terms ← items.attach.mapM fun ⟨item, hi⟩ =>
      have : item.index < n.index := Forest.index_lt_of_kind h hi
      expression f delayed item
    return .tuple terms
  | some (.resolved _ referral) => reference f delayed n referral
  | some (.reference _) => throw (.unresolved n)
  | some (.call callee args) => do
    have : callee.index < n.index := Forest.index_lt_of_kind h (by simp [Kind.children])
    let func ← expression f delayed callee
    let args ← args.attach.mapM fun ⟨arg, ha⟩ =>
      have : arg.index < n.index := Forest.index_lt_of_kind h (by simp [Kind.children, ha])
      expression f delayed arg
    return (Term.call args func).withOrigin n
  | some (.lambda params body) =>
    have : body.index < n.index := Forest.index_lt_of_kind h (by simp [Kind.children])
    abstraction f n params (expression f delayed body)
  | some (.block items) => do
    let lowered ← items.attach.zipIdx.mapM fun (⟨item, hi⟩, i) => do
      have hitem : item.index < n.index := Forest.index_lt_of_kind h hi
      match hk : f.kind? item with
      | some (.varDecl _ _ type value) =>
        have : value.index < n.index :=
          Nat.lt_trans (Forest.index_lt_of_kind hk (by simp [Kind.children])) hitem
        assumeDeclared f item type
        reach item
        let binder ←
          if refersTo f value item then
            let inside := if isLambda f value then delayed else item :: delayed
            fixpoint item <$> expression f inside value
          else expression f delayed value
        return Item.binding binder (.decl item)
      | some (.function _ params _ body) =>
        have : body.index < n.index :=
          Nat.lt_trans (Forest.index_lt_of_kind hk (by simp [Kind.children])) hitem
        reach item
        let function ← abstraction f item params (expression f delayed body)
        let binder := if refersTo f item item then fixpoint item function else function
        return Item.binding binder (.decl item)
      | _ =>
        let term ← expression f delayed item
        if i + 1 = items.length then return Item.value term
        else return Item.binding term (← synthetic)
    return chain lowered
  | some (.assign target value) => do
    have : target.index < n.index := Forest.index_lt_of_kind h (by simp [Kind.children])
    have : value.index < n.index := Forest.index_lt_of_kind h (by simp [Kind.children])
    let target ← expression f delayed target
    let value ← expression f delayed value
    return Term.call [target, value] (.var (.builtin .assign))
  | some (.loop condition body) => do
    have : condition.index < n.index := Forest.index_lt_of_kind h (by simp [Kind.children])
    have : body.index < n.index := Forest.index_lt_of_kind h (by simp [Kind.children])
    let condition ← expression f delayed condition
    let body ← expression f delayed body
    return Term.call [condition, body] (.var (.builtin .loop))
  | some (.conditional condition body elifs otherwise) => do
    have : condition.index < n.index := Forest.index_lt_of_kind h (by simp [Kind.children])
    have : body.index < n.index := Forest.index_lt_of_kind h (by simp [Kind.children])
    let last ← match ho : otherwise with
      | none => pure Term.unit
      | some other =>
        have : other.index < n.index := Forest.index_lt_of_kind h (by simp [Kind.children, ho])
        expression f delayed other
    let rest ← elifs.attach.reverse.foldlM (fun rest ⟨(c, b), he⟩ => do
      have : c.index < n.index := Forest.index_lt_of_kind h (by
        simp only [Kind.children, List.mem_append, List.mem_cons, List.mem_flatMap]
        exact Or.inl (Or.inr (Or.inr ⟨_, he, by simp⟩)))
      have : b.index < n.index := Forest.index_lt_of_kind h (by
        simp only [Kind.children, List.mem_append, List.mem_cons, List.mem_flatMap]
        exact Or.inl (Or.inr (Or.inr ⟨_, he, by simp⟩)))
      let c ← expression f delayed c
      let b ← expression f delayed b
      return branch c b rest) last
    let condition ← expression f delayed condition
    let body ← expression f delayed body
    return branch condition body rest
  | _ => throw (.notAnExpression n (f.describe n))
termination_by n.index

def function (f : Forest) (n : NodeId) : Lower Term :=
  match f.kind? n with
  | some (.function _ params _ body) => abstraction f n params (expression f [] body)
  | _ => throw (.notAnExpression n (f.describe n))

/-- The type that the declaration of a function promises, with fresh variables
where it says nothing. -/
def signature (f : Forest) (n : NodeId) : Lower Ty :=
  match f.kind? n with
  | some (.function _ params returns _) =>
    signatureOfParts f params (reading (TypeStore.evalOrFresh f returns))
  | _ => throw (.notAnExpression n (f.describe n))

end Lowering

end SemanticAnalysis
