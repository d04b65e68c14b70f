import SemanticAnalysis.Declarations.Lowering
import SemanticAnalysis.Proofs.Computations

/-!
How lowering runs. Most expressions lower their operands in turn and put the
terms together; what is left are references, lambdas and blocks, whose items are
lowered one by one. There is one equation for each of these, and later modules
use the equations and never open the recursion.
-/

namespace SemanticAnalysis.Lowering

variable {f : Forest} {delayed : List NodeId} {n : NodeId} {k : Kind}

/-- What an expression is put together from, in the order in which it is lowered. References,
abstractions and blocks are not put together in this way. -/
def operands : Kind → Option (List NodeId)
  | .number _ | .floating _ => some []
  | .tuple items => some items
  | .call callee args => some (callee :: args)
  | .assign target value => some [target, value]
  | .loop condition body => some [condition, body]
  | .conditional condition body elifs otherwise =>
    some (otherwise.toList ++ (elifs.reverse ++ [(condition, body)]).flatMap fun p => [p.1, p.2])
  | _ => none

def branches (otherwise : Term) : List Term → Term
  | condition :: body :: rest => branches (branch condition body otherwise) rest
  | _ => otherwise

def assemble (n : NodeId) : Kind → List Term → Term
  | .number text, _ => .number text
  | .floating text, _ => .floating text
  | .tuple _, terms => .tuple terms
  | .call _ _, func :: args => (Term.call args func).withOrigin n
  | .assign _ _, terms => Term.call terms (.var (.builtin .assign))
  | .loop _ _, terms => Term.call terms (.var (.builtin .loop))
  | .conditional _ _ _ (some _), otherwise :: terms => branches otherwise terms
  | .conditional _ _ _ none, terms => branches Term.unit terms
  | _, _ => Term.unit

theorem operands_perm {cs : List NodeId} (h : operands k = some cs) : cs.Perm k.children := by
  cases k <;> simp only [operands, Option.some.injEq, reduceCtorEq] at h <;> subst h <;>
    try exact List.Perm.refl _
  case conditional condition body elifs otherwise =>
    have hpairs : ((elifs.reverse ++ [(condition, body)]).flatMap fun p => [p.1, p.2]).Perm
        (condition :: body :: elifs.flatMap fun p => [p.1, p.2]) := by
      have hperm : (elifs.reverse ++ [(condition, body)]).Perm ((condition, body) :: elifs) :=
        (List.perm_append_comm).trans (List.Perm.cons _ (List.reverse_perm elifs))
      simpa using hperm.flatMap_right fun p => [p.1, p.2]
    exact List.perm_append_comm.trans (hpairs.append_right _)

/-- The conditions and bodies of a conditional come in pairs. -/
theorem length_pairs (pairs : List (NodeId × NodeId)) :
    (pairs.flatMap fun p => [p.1, p.2]).length % 2 = 0 := by
  induction pairs with
  | nil => rfl
  | cons p rest ih =>
    simp only [List.flatMap_cons, List.length_append, List.length_cons, List.length_nil]
    omega

section Equations

theorem expression_conditional {condition body : NodeId} {elifs : List (NodeId × NodeId)}
    {otherwise : Option NodeId}
    (hk : f.kind? n = some (.conditional condition body elifs otherwise)) :
    expression f delayed n = (do
      let last ← match otherwise with
        | none => pure Term.unit
        | some other => expression f delayed other
      (elifs.reverse ++ [(condition, body)]).foldlM (fun rest p => do
        let c ← expression f delayed p.1
        let b ← expression f delayed p.2
        return branch c b rest) last) := by
  have hattach : elifs.reverse = elifs.attach.reverse.map Subtype.val := by
    rw [List.map_reverse, List.attach_map_subtype_val]
  rw [expression, hattach]
  simp only [List.foldlM_append, List.foldlM_map, List.foldlM_cons, List.foldlM_nil, bind_pure]
  split
  case h_11 heq =>
    cases Option.some.inj (hk.symm.trans heq)
    cases otherwise <;> rfl
  case h_12 hnot => exact absurd hk (hnot condition body elifs otherwise)
  all_goals simp_all

/-- The branches of a conditional are lowered operand by operand. -/
theorem foldlM_branches (e : NodeId → Lower Term) (pairs : List (NodeId × NodeId)) (last : Term) :
    pairs.foldlM (fun rest p => do
        let c ← e p.1
        let b ← e p.2
        return branch c b rest) last =
      branches last <$> (pairs.flatMap fun p => [p.1, p.2]).mapM e := by
  induction pairs generalizing last with
  | nil => simp [branches]
  | cons p rest ih =>
    simp only [List.foldlM_cons, bind_assoc, pure_bind, ih, List.flatMap_cons, List.cons_append,
      List.nil_append, List.mapM_cons]
    simp [branches]

/-- An expression lowers its operands in turn and puts their terms together. -/
theorem expression_operands {cs : List NodeId} (hk : f.kind? n = some k)
    (hcs : operands k = some cs) :
    expression f delayed n = assemble n k <$> cs.mapM (expression f delayed) := by
  cases k <;> simp only [operands, Option.some.injEq, reduceCtorEq] at hcs <;> subst hcs
  case conditional condition body elifs otherwise =>
    simp only [expression_conditional hk, foldlM_branches]
    cases otherwise with
    | none =>
      have hnone : assemble n (.conditional condition body elifs none) = branches Term.unit := rfl
      simp [hnone]
    | some other => simp [List.mapM_cons, assemble]
  case tuple items =>
    have htuple : assemble n (.tuple items) = Term.tuple := rfl
    rw [expression, htuple]
    split <;> simp_all
  all_goals
    rw [expression]
    split <;> simp_all [assemble]

theorem expression_resolved {r : Reference} {d : NodeId} (hk : f.kind? n = some (.resolved r d)) :
    expression f delayed n = reference f delayed n d := by
  rw [expression]
  split <;> simp_all

theorem expression_lambda {params : List NodeId} {body : NodeId}
    (hk : f.kind? n = some (.lambda params body)) :
    expression f delayed n = abstraction f n params (expression f delayed body) := by
  rw [expression]
  split <;> simp_all

def assumeParameter (f : Forest) (p : NodeId) : Lower Unit :=
  match f.kind? p with
  | some (.parameter _ type) => assumeDeclared f p type
  | _ => return ()

def assumeParameters (f : Forest) (params : List NodeId) : Lower Unit :=
  params.forM (assumeParameter f)

def binders (params : List NodeId) : Lower (List CoreVar) :=
  if params.isEmpty then List.singleton <$> synthetic else pure (params.map CoreVar.decl)

theorem abstraction_eq (f : Forest) (params : List NodeId) (body : Lower Term) :
    abstraction f n params body = (do
      assumeParameters f params
      let binds ← binders params
      let term ← body
      return (Term.abstract binds term).withOrigin n) := by
  unfold abstraction assumeParameters binders
  split <;> rfl

/-- Lowers an item of a block, the last one to the value of the block unless it binds a name. -/
def item (f : Forest) (delayed : List NodeId) (isLast : Bool) (n : NodeId) : Lower Item :=
  match f.kind? n with
  | some (.varDecl _ _ type value) => do
    assumeDeclared f n type
    reach n
    let binder ←
      if refersTo f value n then
        fixpoint n <$> expression f (if isLambda f value then delayed else n :: delayed) value
      else expression f delayed value
    return Item.binding binder (.decl n)
  | some (.function _ params _ body) => do
    reach n
    let function ← abstraction f n params (expression f delayed body)
    return Item.binding (if refersTo f n n then fixpoint n function else function) (.decl n)
  | _ => do
    let term ← expression f delayed n
    if isLast then return Item.value term
    else return Item.binding term (← synthetic)

/-- A block lowers its items in turn and chains what they come to. -/
theorem expression_block {items : List NodeId} (hk : f.kind? n = some (.block items)) :
    expression f delayed n =
      chain <$> items.zipIdx.mapM fun p => item f delayed (p.2 + 1 = items.length) p.1 := by
  have hattach : items.zipIdx = items.attach.zipIdx.map fun p => (p.1.1, p.2) := by
    conv_lhs => rw [← List.attach_map_subtype_val items, List.zipIdx_map]
    rfl
  rw [expression, hattach, List.mapM_map]
  split
  case h_8 heq =>
    cases Option.some.inj (hk.symm.trans heq)
    rw [map_eq_pure_bind]
    congr 2
    funext p
    obtain ⟨⟨x, hx⟩, i⟩ := p
    simp only [item]
    cases hkx : f.kind? x with
    | none => simp [hkx]
    | some k => cases k <;> simp [hkx]
  all_goals simp_all

inductive Form (f : Forest) (n : NodeId) : Prop
  | operands {k : Kind} {cs : List NodeId} (hk : f.kind? n = some k) (hops : operands k = some cs)
  | reference {r : Reference} {d : NodeId} (hk : f.kind? n = some (.resolved r d))
  | lambda {params : List NodeId} {body : NodeId} (hk : f.kind? n = some (.lambda params body))
  | block {items : List NodeId} (hk : f.kind? n = some (.block items))
  | refused (e : LowerError) (h : ∀ delayed, expression f delayed n = throw e)

/-- Every node is lowered as one of the forms. -/
theorem form (f : Forest) (n : NodeId) : Form f n := by
  cases hk : f.kind? n with
  | none =>
    refine .refused (.notAnExpression n (f.describe n)) fun delayed => ?_
    rw [expression]
    split <;> simp_all
  | some k =>
    cases hops : operands k with
    | some cs => exact .operands hk hops
    | none =>
      cases k
      case resolved r d => exact .reference hk
      case lambda params body => exact .lambda hk
      case block items => exact .block hk
      case reference r =>
        refine .refused (.unresolved n) fun delayed => ?_
        rw [expression]
        split <;> simp_all
      case number | floating | tuple | call | assign | loop | conditional =>
        simp [operands] at hops
      all_goals
        refine .refused (.notAnExpression n (f.describe n)) fun delayed => ?_
        rw [expression]
        split <;> simp_all

end Equations
end SemanticAnalysis.Lowering
