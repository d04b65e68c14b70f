import SemanticAnalysis.Names.Resolution
import SemanticAnalysis.Proofs.WellFormedTrees

/-!
Trees that differ only in what their references refer to. Forgetting the
referrals of a tree changes neither its shape nor the names it declares, so names
resolve alike in all such trees and well-formedness passes between them. Filling
in referrals is undone by forgetting them.
-/

namespace SemanticAnalysis

namespace Kind

def forget : Kind → Kind
  | .resolved target _ => .reference target
  | .resolvedType target _ => .typeReference target
  | k => k

section Forgetting

variable (k : Kind)

@[simp]
theorem children_forget : k.forget.children = k.children := by cases k <;> rfl

@[simp]
theorem places_forget : k.forget.places = k.places := by cases k <;> rfl

@[simp]
theorem name?_forget : k.forget.name? = k.name? := by cases k <;> rfl

@[simp]
theorem isTypeDecl_forget : k.forget.isTypeDecl = k.isTypeDecl := by cases k <;> rfl

@[simp]
theorem isFunction_forget : k.forget.isFunction = k.isFunction := by cases k <;> rfl

@[simp]
theorem isFile_forget : k.forget.isFile = k.isFile := by cases k <;> rfl

@[simp]
theorem forget_withReferral (d : NodeId) : (k.withReferral d).forget = k.forget := by
  cases k <;> rfl

@[simp]
theorem withReferral_withReferral (d e : NodeId) :
    (k.withReferral d).withReferral e = k.withReferral d := by
  cases k <;> rfl

end Forgetting

end Kind

@[simp]
theorem Role.admits_forget (role : Role) (k : Kind) : role.admits k.forget = role.admits k := by
  cases role <;> cases k <;> rfl

namespace Forest

def forget (f : Forest) : Forest :=
  f.exchange (f.nodes.map fun node => { node with kind := node.kind.forget }) fun i => by
    rw [Array.getElem?_map]
    cases f.nodes[i]? <;> simp [Node.links]

variable (f : Forest) (n : NodeId)

@[simp]
theorem kind?_forget : f.forget.kind? n = (f.kind? n).map Kind.forget := by
  simp [kind?, node?, forget, Function.comp_def]

@[simp]
theorem children_forget : f.forget.children n = f.children n := by
  simp [children, Function.comp_def]

@[simp]
theorem name?_forget : f.forget.name? n = f.name? n := by
  cases h : f.kind? n <;> simp [name?, h]

@[simp]
theorem span_forget : f.forget.span n = f.span n := by
  simp [span, node?, forget, Function.comp_def]

@[simp]
theorem ids_forget : f.forget.ids = f.ids := by
  simp [ids, size, forget]

@[simp]
theorem parent?_forget : f.forget.parent? n = f.parent? n := by
  rw [parent?, parent?, node?, forget, nodes_exchange, Array.getElem?_map, Option.bind_map]
  rfl

@[simp]
theorem ancestors_forget : f.forget.ancestors n = f.ancestors n := by
  induction n using parentInduction (f := f) with
  | top n hn => rw [ancestors_of_none hn, ancestors_of_none (by simpa using hn)]
  | step n p hn ih =>
    rw [ancestors_of_parent? hn, ancestors_of_parent? (f := f.forget) (by simpa using hn), ih]

@[simp]
theorem walkFrom_forget : f.forget.walkFrom n = f.walkFrom n := by
  induction n using childInduction (f := f) with
  | step n ih =>
    rw [walkFrom_eq, walkFrom_eq, children_forget]
    congr 1
    exact List.flatMap_congr ih

theorem namedOnce_forget : f.forget.NamedOnce ↔ f.NamedOnce := by
  have hchildren : f.forget.children = f.children := funext f.children_forget
  rw [NamedOnce, ids_forget, hchildren, NamedOnce]

theorem kind?_resolveAt (d m : NodeId) : (f.resolveAt n d).kind? m =
    if m = n then (f.kind? m).map (Kind.withReferral d) else f.kind? m := by
  by_cases h : m = n
  · subst h
    simp [kind?, node?, resolveAt, Array.getElem?_modify, Function.comp_def]
  · have hindex : n.index ≠ m.index := fun heq => h (NodeId.ext heq.symm)
    simp [kind?, node?, resolveAt, h, Array.getElem?_modify, hindex]

@[simp]
theorem forget_resolveAt (d : NodeId) : (f.resolveAt n d).forget = f.forget := by
  apply Forest.ext
  apply Array.ext_getElem?
  intro i
  rw [forget, forget, resolveAt, nodes_exchange, nodes_exchange, nodes_exchange,
    Array.getElem?_map, Array.getElem?_map, Array.getElem?_modify]
  split <;> simp [Function.comp_def]

end Forest

namespace Tree

def forget (t : Tree) : Tree := { t with toForest := t.toForest.forget }

@[simp]
theorem toForest_forget (t : Tree) : t.forget.toForest = t.toForest.forget := rfl

@[simp]
theorem root_forget (t : Tree) : t.forget.root = t.root := rfl

/-- An unresolved tree has no referrals to forget. -/
theorem forget_of_unresolved {t : Tree} (h : t.Unresolved) : t.forget = t := by
  have hnodes : t.nodes.map (fun node => { node with kind := node.kind.forget }) = t.nodes := by
    apply Array.ext_getElem?
    intro i
    rw [Array.getElem?_map]
    cases hi : t.nodes[i]? with
    | none => rfl
    | some node =>
      have hk : t.kind? ⟨i⟩ = some node.kind := by simp [Forest.kind?, Forest.node?, hi]
      have hforget : node.kind.forget = node.kind := by
        have hres := h _ _ hk
        cases hnode : node.kind <;> simp_all [Kind.forget, Kind.isResolved]
      simp [hforget]
  have hforest : t.toForest.forget = t.toForest := Forest.ext hnodes
  rw [forget, hforest]

theorem forget_resolveAll (t : Tree) (referrals : List (NodeId × NodeId)) :
    (t.resolveAll referrals).forget = t.forget := by
  have hfold : ∀ f : Forest,
      (referrals.foldl (fun f p => f.resolveAt p.1 p.2) f).forget = f.forget := by
    induction referrals with
    | nil => exact fun _ => rfl
    | cons p rest ih => exact fun f => (ih _).trans (f.forget_resolveAt p.1 p.2)
  simp [forget, resolveAll, hfold]

/-- Of several referrals for a node the first one counts. -/
theorem kind?_resolveAll (t : Tree) (referrals : List (NodeId × NodeId)) (n : NodeId) :
    (t.resolveAll referrals).kind? n =
      match referrals.find? fun p => p.1 = n with
      | none => t.kind? n
      | some p => (t.kind? n).map (Kind.withReferral p.2) := by
  have hfold : ∀ f : Forest, (referrals.foldl (fun f p => f.resolveAt p.1 p.2) f).kind? n =
      match referrals.find? fun p => p.1 = n with
      | none => f.kind? n
      | some p => (f.kind? n).map (Kind.withReferral p.2) := by
    induction referrals with
    | nil => exact fun _ => rfl
    | cons p rest ih =>
      intro f
      rw [List.foldl_cons, ih, List.find?_cons]
      by_cases hp : p.1 = n
      · subst hp
        simp only [decide_true, Forest.kind?_resolveAt, if_true]
        split <;> simp [Function.comp_def]
      · have hp' : n ≠ p.1 := fun h => hp h.symm
        simp only [hp, decide_false, Forest.kind?_resolveAt, hp', if_false]
  exact hfold t.toForest

section Kept

variable (t : Tree) (referrals : List (NodeId × NodeId)) (n : NodeId)

theorem toForest_forget_resolveAll :
    (t.resolveAll referrals).toForest.forget = t.toForest.forget :=
  congrArg Tree.toForest (forget_resolveAll t referrals)

@[simp]
theorem span_resolveAll : (t.resolveAll referrals).span n = t.span n := by
  rw [← Forest.span_forget, toForest_forget_resolveAll, Forest.span_forget]

@[simp]
theorem parent?_resolveAll : (t.resolveAll referrals).parent? n = t.parent? n := by
  rw [← Forest.parent?_forget, toForest_forget_resolveAll, Forest.parent?_forget]

@[simp]
theorem children_resolveAll : (t.resolveAll referrals).children n = t.children n := by
  rw [← Forest.children_forget, toForest_forget_resolveAll, Forest.children_forget]

@[simp]
theorem walk_resolveAll : (t.resolveAll referrals).walk = t.walk := by
  change (t.resolveAll referrals).walkFrom t.root = t.walkFrom t.root
  rw [← Forest.walkFrom_forget, toForest_forget_resolveAll, Forest.walkFrom_forget]

end Kept

theorem wellFormed_forget {t : Tree} : t.forget.WellFormed ↔ t.WellFormed := by
  rw [wellFormed_iff, wellFormed_iff]
  simp [Forest.namedOnce_forget, Option.any_map]

end Tree

section Names

open Resolution

variable (f : Forest) (name : Symbol)

@[simp]
theorem Resolution.named_forget (nodes : List NodeId) :
    named f.forget name nodes = named f name nodes := by
  simp [named]

@[simp]
theorem Resolution.namedTypes_forget (nodes : List NodeId) :
    namedTypes f.forget name nodes = namedTypes f name nodes := by
  simp [namedTypes, Option.any_map]

@[simp]
theorem Resolution.ask_forget (space : Namespace) (scope : Scope) :
    ask f.forget space name scope = ask f space name scope := by
  cases space with
  | values =>
    simp only [ask, askForValue, Forest.kind?_forget, named_forget]
    cases f.kind? scope.anchor with
    | none => rfl
    | some k => cases k <;> rfl
  | types =>
    simp only [ask, askForType, Forest.kind?_forget, named_forget, namedTypes_forget]
    cases f.kind? scope.anchor with
    | none => rfl
    | some k => cases k <;> simp [Kind.forget]

@[simp]
theorem Resolution.lookup_forget (scopes : ScopeTree) (space : Namespace) (site : NodeId) :
    lookup f.forget scopes space site name = lookup f scopes space site name := by
  have hfirst : ∀ route, firstAnswer f.forget scopes space name route =
      firstAnswer f scopes space name route := by
    intro route
    induction route with
    | nil => rfl
    | cons i rest ih =>
      have hask : ask f.forget space name = ask f space name := funext (ask_forget f name space)
      simp only [firstAnswer, hask, ih]
  simp [lookup, ScopeTree.enclosing, hfirst]

@[simp]
theorem Resolution.narrow_forget (container : NodeId) :
    narrow f.forget container name = narrow f container name := by
  simp only [narrow, Forest.kind?_forget, named_forget, namedTypes_forget]
  cases f.kind? container with
  | none => rfl
  | some k => cases k <;> rfl

@[simp]
theorem Resolution.narrowAll_forget (container : NodeId) (links : List Symbol) :
    narrowAll f.forget container links = narrowAll f container links := by
  induction links generalizing container with
  | nil => rfl
  | cons link rest ih => simp [narrowAll, ih]

@[simp]
theorem Resolution.member_forget (space : Namespace) (container : NodeId) :
    member f.forget space container name = member f space container name := by
  simp only [member, Forest.kind?_forget, named_forget, namedTypes_forget, narrow_forget]
  cases f.kind? container with
  | none => cases space <;> rfl
  | some k => cases k <;> cases space <;> rfl

@[simp]
theorem Resolution.resolveChain_forget (root : NodeId) (scopes : ScopeTree) (site : NodeId)
    (q : Qualifier) :
    resolveChain f.forget root scopes site q = resolveChain f root scopes site q := by
  have hmodule : enclosingModule f.forget site = enclosingModule f site := by
    simp only [enclosingModule, Forest.ancestors_forget]
    congr 2
    funext n
    rw [Forest.kind?_forget]
    cases f.kind? n with
    | none => rfl
    | some k => cases k <;> rfl
  have hnamed : ∀ head, moduleNamed f.forget root head = moduleNamed f root head := by
    intro head
    simp only [moduleNamed, Forest.kind?_forget, named_forget]
    cases f.kind? root with
    | none => rfl
    | some k => cases k <;> rfl
  simp [resolveChain, hmodule, hnamed]

/-- Names resolve alike whatever the references of a tree refer to. -/
@[simp]
theorem resolve_forget (t : Tree) (scopes : ScopeTree) (space : Namespace) (site : NodeId)
    (r : Reference) : resolve t.forget scopes space site r = resolve t scopes space site r := by
  simp [resolve]

@[simp]
theorem resolve_resolveAll (t : Tree) (referrals : List (NodeId × NodeId)) (scopes : ScopeTree)
    (space : Namespace) (site : NodeId) (r : Reference) :
    resolve (t.resolveAll referrals) scopes space site r = resolve t scopes space site r := by
  rw [← resolve_forget, Tree.forget_resolveAll, resolve_forget]

end Names

end SemanticAnalysis
