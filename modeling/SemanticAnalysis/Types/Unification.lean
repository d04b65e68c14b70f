import SemanticAnalysis.Types.Dump
import SemanticAnalysis.Types.Substitution

/-!
Unification of types. Types that agree need no substitution; a variable is
bound to the other side unless it occurs there below functions; functions and
tuples of one length unify part by part, each part under the substitution found
so far; all else fails.

A variable may be bound to a tuple that holds it, since occurrence is looked for
below functions only, and then the search need not end: `((b, b), (b, b))`
against `(b, b)` comes back to itself. Fuel bounds the nesting of the search, and
`none` says that the bound was reached without an answer.
-/

namespace SemanticAnalysis

inductive UnifyError where
  | cannotUnify (a b : Ty)
  | infiniteType (v : TyVar) (t : Ty)

def UnifyError.message : UnifyError → String
  | .cannotUnify a b => "cannot unify " ++ a.dump ++ " with " ++ b.dump
  | .infiniteType v t => "type variable " ++ v.name ++ " occurs in " ++ t.dump

namespace Unification

/-- A search that may find that there is no solution, and may be cut short. -/
abbrev Search := ExceptT UnifyError Option

/-- Binds a variable to a type in which it does not occur below functions. -/
def bindVar (v : TyVar) (t : Ty) : Search Subst :=
  if t.occurs v then throw (.infiniteType v t) else pure (Subst.single v t)

/-- Solves the pairs from left to right, each under the solution of those before. -/
def solvePairs (solve : Ty → Ty → Search Subst) (found : Subst) : List (Ty × Ty) → Search Subst
  | [] => pure found
  | (x, y) :: rest => do
    let next ← solve (found.apply x) (found.apply y)
    solvePairs solve (next.compose found) rest

def unify : Nat → Ty → Ty → Search Subst
  | 0, _, _ => ExceptT.mk none
  | fuel + 1, a, b =>
    if a.same b then pure Subst.empty
    else
      match a, b with
      | .var v, t => bindVar v t
      | t, .var v => bindVar v t
      | .fn input output, .fn input' output' => do
        let inputs ← unify fuel input input'
        let outputs ← unify fuel (inputs.apply output) (inputs.apply output')
        pure (outputs.compose inputs)
      | .tuple xs, .tuple ys =>
        if xs.length = ys.length then solvePairs (unify fuel) Subst.empty (xs.zip ys)
        else throw (.cannotUnify a b)
      | _, _ => throw (.cannotUnify a b)

end Unification

export Unification (unify)

end SemanticAnalysis
