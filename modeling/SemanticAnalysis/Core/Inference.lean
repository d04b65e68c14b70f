import SemanticAnalysis.Core.Context
import SemanticAnalysis.Types.Unification

/-!
Syntax-directed inference over core terms. Each step returns the substitution it
found and a type; the substitution is handed on explicitly. What is threaded as
state is the supply of variables and the types recorded for calls and
abstractions, and both survive a failure.
-/

namespace SemanticAnalysis

inductive InferError where
  | unknownVariable (v : CoreVar)
  | infiniteType (v : TyVar) (t : Ty)
  | cannotUnify (a b : Ty)

namespace InferError

def ofUnify : UnifyError → InferError
  | .cannotUnify a b => .cannotUnify a b
  | .infiniteType v t => .infiniteType v t

def message : InferError → String
  | .unknownVariable v => "unknown variable " ++ v.dump
  | .infiniteType v t => (UnifyError.infiniteType v t).message
  | .cannotUnify a b => (UnifyError.cannotUnify a b).message

end InferError

/-- The type recorded for the node that a call or an abstraction stems from. -/
abbrev Judgement := NodeId × Ty

namespace Inference

structure State where
  supply : Supply
  judgements : List Judgement
deriving Inhabited

/-- A computation that may fail, keeping its state, or be cut short. -/
abbrev Infer := ExceptT InferError (StateT State Option)

def State.start (supply : Supply) : State := ⟨supply, []⟩

def freshVar : Infer Ty := do
  let st ← get
  let (v, supply) := st.supply.fresh
  set { st with supply }
  return .var v

def instantiate (scheme : Scheme) : Infer Ty := do
  let st ← get
  let (t, supply) := scheme.instantiate st.supply
  set { st with supply }
  return t

def record (origin : Option NodeId) (t : Ty) : Infer Unit :=
  match origin with
  | none => return ()
  | some node => modify fun st => { st with judgements := st.judgements ++ [(node, t)] }

def solve (fuel : Nat) (a b : Ty) : Infer Subst :=
  match (unify fuel a b).run with
  | none => ExceptT.mk fun _ => none
  | some (.error e) => throw (.ofUnify e)
  | some (.ok s) => return s

/-- The type that a binder starts with: the type already assumed for a declared
variable, if it quantifies nothing, and otherwise a fresh variable. -/
def binderType (Γ : Context) (bind : CoreVar) : Infer Ty :=
  match bind, Γ.get? bind with
  | .decl _, some scheme => if scheme.isMono then return scheme.body else freshVar
  | _, _ => freshVar

/-- Makes the type of a let-bound declaration agree with what is assumed for it. -/
def meetAssumed (fuel : Nat) (Γ : Context) (bind : CoreVar) (s : Subst) (t : Ty) :
    Infer (Subst × Ty) :=
  match bind, Γ.get? bind with
  | .decl _, some assumed => do
    let expected ← instantiate (assumed.substitute s)
    let r ← solve fuel expected t
    return (r.compose s, r.apply t)
  | _, _ => return (s, t)

mutual

def infer (fuel : Nat) (Γ : Context) : Term → Infer (Subst × Ty)
  | .var v =>
    match Γ.get? v with
    | some scheme => return (Subst.empty, ← instantiate scheme)
    | none => throw (.unknownVariable v)
  | .app arg func origin => do
    let (s₁, t₁) ← infer fuel Γ func
    let (s₂, t₂) ← infer fuel (Γ.substitute s₁) arg
    let result ← freshVar
    let s₃ ← solve fuel (s₂.apply t₁) (.fn t₂ result)
    let t := s₃.apply result
    record origin t
    return ((s₃.compose s₂).compose s₁, t)
  | .lam bind body origin => do
    let input ← binderType Γ bind
    let (s, output) ← infer fuel (Γ.insert bind (Scheme.mono input)) body
    let t := Ty.fn (s.apply input) output
    record origin t
    return (s, t)
  | .letIn binder bind usage => do
    let (s, t) ← infer fuel Γ binder
    let (s₁, t₁) ← meetAssumed fuel Γ bind s t
    let rest : Context := (Γ.substitute s₁).erase bind
    let (s₂, t₂) ← infer fuel (rest.insert bind (rest.generalize t₁)) usage
    return (s₂.compose s₁, t₂)
  | .number _ => return (Subst.empty, Ty.number)
  | .floating _ => return (Subst.empty, Ty.floating)
  | .tuple items => do
    let (s, ts) ← inferItems fuel Γ Subst.empty [] items
    return (s, .tuple ts)

def inferItems (fuel : Nat) (Γ : Context) (s : Subst) (ts : List Ty) :
    List Term → Infer (Subst × List Ty)
  | [] => return (s, ts)
  | item :: rest => do
    let (s₁, t) ← infer fuel (Γ.substitute s) item
    inferItems fuel Γ (s₁.compose s) (Subst.applyAll s₁ ts ++ [t]) rest

end

end Inference

export Inference (infer)

end SemanticAnalysis
