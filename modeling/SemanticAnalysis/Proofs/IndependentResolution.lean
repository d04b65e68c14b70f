import SemanticAnalysis.Proofs.LinkedTrees
import SemanticAnalysis.Session.Pipeline

/-!
Value names and type names are resolved independently. No look-up can tell a
reference from the same reference filled in, so it makes no difference whether
values come first, types come first, or both are resolved before anything is
filled in: the tree, the scopes and the errors are the same. Only the references
with an answer change, and nothing but their kind.
-/

namespace SemanticAnalysis

def Namespace.linked (space : Namespace) (r : Reference) (d : NodeId) : Kind :=
  match space with
  | .values => .resolved r d
  | .types => .resolvedType r d

section Pending

variable {space other : Namespace} {k : Kind} {r : Reference}

theorem Kind.withReferral_of_pending (h : k.pending? space = some r) (d : NodeId) :
    k.withReferral d = space.linked r d := by
  cases k <;> cases space <;> simp [pending?] at h <;> subst h <;> rfl

/-- A node is no reference of two namespaces. -/
theorem Kind.pending?_of_ne (h : k.pending? space = some r) (hne : other ≠ space) :
    k.pending? other = none := by
  cases k <;> cases space <;> cases other <;> simp_all [pending?]

end Pending

theorem Forest.ext_node? {f g : Forest} (h : ∀ n, f.node? n = g.node? n) : f = g :=
  Forest.ext (Array.ext_getElem? fun i => h ⟨i⟩)

namespace Tree

variable {t u : Tree} {n d : NodeId} {space other : Namespace} {S : ScopeTree}
  {xs ys : List (NodeId × NodeId)}

theorem resolveAll_append (t : Tree) (xs ys : List (NodeId × NodeId)) :
    t.resolveAll (xs ++ ys) = (t.resolveAll xs).resolveAll ys := by
  simp [resolveAll, List.foldl_append]

/-- Trees that differ in nothing but referrals, and not in those, are the same. -/
theorem eq_of_kind? (hforget : t.forget = u.forget) (hkind : ∀ n, t.kind? n = u.kind? n) :
    t = u := by
  have hforget' : t.toForest.forget = u.toForest.forget := congrArg Tree.toForest hforget
  have hspan : ∀ n, t.span n = u.span n := by
    intro n
    rw [← Forest.span_forget, hforget', Forest.span_forget]
  have hparent : ∀ n, t.parent? n = u.parent? n := by
    intro n
    rw [← Forest.parent?_forget, hforget', Forest.parent?_forget]
  have hforest : t.toForest = u.toForest := by
    refine Forest.ext_node? fun n => ?_
    have hk := hkind n
    have hs := hspan n
    have hp := hparent n
    simp only [Forest.kind?, Forest.span, Forest.parent?] at hk hs hp
    cases ht : t.node? n with
    | none => cases hu : u.node? n with
      | none => rfl
      | some b => simp [ht, hu] at hk
    | some a => cases hu : u.node? n with
      | none => simp [ht, hu] at hk
      | some b =>
        cases a
        cases b
        simp_all
  cases t
  cases u
  simp_all [forget]

/-- Referrals for different nodes may be filled in in any order. -/
theorem resolveAll_comm (h : ∀ p ∈ xs, ∀ q ∈ ys, p.1 ≠ q.1) :
    t.resolveAll (xs ++ ys) = t.resolveAll (ys ++ xs) := by
  refine eq_of_kind? (by simp [forget_resolveAll]) fun n => ?_
  rw [kind?_resolveAll, kind?_resolveAll, List.find?_append, List.find?_append]
  cases hx : xs.find? fun p => p.1 = n with
  | none => simp
  | some p =>
    have hy : (ys.find? fun q => q.1 = n) = none := by
      rw [List.find?_eq_none]
      intro q hq hqn
      have hpn : p.1 = n := by simpa using List.find?_some hx
      have hqn' : q.1 = n := by simpa using hqn
      exact h p (List.mem_of_find?_eq_some hx) q hq (hpn.trans hqn'.symm)
    simp [hy]

/-- Filling in other references leaves those of a namespace with their answers. -/
theorem resolveReferences_resolveAll
    (h : ∀ p ∈ xs, ∀ k, t.kind? p.1 = some k → k.pending? space = none) :
    resolveReferences (t.resolveAll xs) S space = resolveReferences t S space := by
  have hpending : ∀ n, ((t.resolveAll xs).kind? n).bind (Kind.pending? space) =
      (t.kind? n).bind (Kind.pending? space) := by
    intro n
    rw [kind?_resolveAll]
    cases hx : xs.find? fun p => p.1 = n with
    | none => rfl
    | some p =>
      obtain rfl : p.1 = n := by simpa using List.find?_some hx
      cases hk : t.kind? p.1 with
      | none => rfl
      | some k =>
        have hnone := h p (List.mem_of_find?_eq_some hx) k hk
        simp [hnone, Kind.pending?_withReferral hnone]
  simp only [resolveReferences, walk_resolveAll, hpending, resolve_resolveAll]

/-- What is filled in for a namespace are references of that namespace. -/
theorem pending?_of_mem_referrals {p : NodeId × NodeId} (hne : other ≠ space)
    (hp : p ∈ referrals (resolveReferences t S space)) {k : Kind} (hk : t.kind? p.1 = some k) :
    k.pending? other = none := by
  obtain ⟨-, r, hr, -⟩ := Answered.mem_referrals.1 hp
  exact Kind.pending?_of_ne (by simpa [hk] using hr) hne

/-- What is filled in for two namespaces are different nodes. -/
theorem referrals_disjoint (hne : other ≠ space) :
    ∀ p ∈ referrals (resolveReferences t S space), ∀ q ∈ referrals (resolveReferences t S other),
      p.1 ≠ q.1 := by
  intro p hp q hq heq
  obtain ⟨-, r, hr, -⟩ := Answered.mem_referrals.1 hq
  obtain ⟨k, hk, hr⟩ := Option.bind_eq_some_iff.1 hr
  simp [pending?_of_mem_referrals hne hp (heq ▸ hk)] at hr

/-- A namespace is resolved alike before and after another one is filled in. -/
theorem resolveReferences_filled (hne : other ≠ space) :
    resolveReferences (t.resolveAll (referrals (resolveReferences t S space))) S other =
      resolveReferences t S other :=
  resolveReferences_resolveAll fun _ hp _ hk => pending?_of_mem_referrals hne hp hk

/-- The second tree is the first one with the references of its walk filled in that have an answer:
nothing but the kinds of these nodes has changed. -/
structure Fills (t u : Tree) (S : ScopeTree) : Prop where
  span : ∀ n, u.span n = t.span n
  parent : ∀ n, u.parent? n = t.parent? n
  children : ∀ n, u.children n = t.children n
  answered : ∀ space n r d, n ∈ t.walk → (t.kind? n).bind (Kind.pending? space) = some r →
    resolve t S space n r = .ok d → u.kind? n = some (space.linked r d)
  others : ∀ n, (∀ space r d, n ∈ t.walk → (t.kind? n).bind (Kind.pending? space) = some r →
    resolve t S space n r ≠ .ok d) → u.kind? n = t.kind? n

def allReferrals (t : Tree) (S : ScopeTree) : List (NodeId × NodeId) :=
  referrals (resolveReferences t S .values) ++ referrals (resolveReferences t S .types)

theorem mem_allReferrals : (n, d) ∈ t.allReferrals S ↔ ∃ space, n ∈ t.walk ∧ ∃ r,
    (t.kind? n).bind (Kind.pending? space) = some r ∧ resolve t S space n r = .ok d := by
  rw [allReferrals, List.mem_append, Answered.mem_referrals, Answered.mem_referrals]
  constructor
  · exact fun h => h.elim (fun h => ⟨.values, h⟩) fun h => ⟨.types, h⟩
  · rintro ⟨space, h⟩
    cases space with
    | values => exact Or.inl h
    | types => exact Or.inr h

/-- Filling in all answers changes the references of the walk that have one, and nothing else. -/
theorem fills_resolveAll (t : Tree) (S : ScopeTree) :
    t.Fills (t.resolveAll (t.allReferrals S)) S where
  span n := by simp
  parent n := by simp
  children n := by simp
  answered space n r d hn hr hok := by
    have hmem : (n, d) ∈ t.allReferrals S := mem_allReferrals.2 ⟨space, hn, r, hr, hok⟩
    obtain ⟨k, hk, hpending⟩ := Option.bind_eq_some_iff.1 hr
    rw [kind?_resolveAll]
    cases hfind : (t.allReferrals S).find? fun p => p.1 = n with
    | none => simpa using List.find?_eq_none.1 hfind _ hmem
    | some p =>
      obtain rfl : p.1 = n := by simpa using List.find?_some hfind
      -- a node has one answer only, since it is a reference of one namespace only
      obtain ⟨space', -, r', hr', hok'⟩ := mem_allReferrals.1 (List.mem_of_find?_eq_some hfind)
      have hpending' : k.pending? space' = some r' := by simpa [hk] using hr'
      obtain rfl : space' = space := by
        by_contra hne
        simp [Kind.pending?_of_ne hpending hne] at hpending'
      obtain rfl : r = r' := Option.some.inj (hpending.symm.trans hpending')
      obtain rfl : d = p.2 := Except.ok.inj (hok.symm.trans hok')
      simp [hk, Kind.withReferral_of_pending hpending]
  others n hn := by
    rw [kind?_resolveAll]
    cases hfind : (t.allReferrals S).find? fun p => p.1 = n with
    | none => rfl
    | some p =>
      obtain rfl : p.1 = n := by simpa using List.find?_some hfind
      obtain ⟨space, hwalk, r, hr, hok⟩ := mem_allReferrals.1 (List.mem_of_find?_eq_some hfind)
      exact absurd hok (hn space r p.2 hwalk hr)

end Tree

namespace Session

variable {u : CompilationUnit} {space other : Namespace} {S : ScopeTree}

/-- What resolving a namespace of a unit leaves, given the scopes of the unit. -/
theorem resolvePass_unit (hS : u.scopes = some S) (space : Namespace) :
    (resolvePass space u).unit =
      { u with tree := u.tree.resolveAll (referrals (resolveReferences u.tree S space)) } := by
  simp [resolvePass, hS]

theorem unresolvedReport_resolveAll (t : Tree) (referrals : List (NodeId × NodeId)) :
    unresolvedReport (t.resolveAll referrals) = unresolvedReport t := by
  have hspan : (t.resolveAll referrals).span = t.span := funext (t.span_resolveAll referrals)
  funext n r e
  cases e <;> simp only [unresolvedReport, hspan] <;> rfl

/-- A namespace is reported on alike before and after another one is filled in. -/
theorem resolvePass_reports (hS : u.scopes = some S) (hne : other ≠ space) :
    (resolvePass other (resolvePass space u).unit).reports = (resolvePass other u).reports := by
  rw [resolvePass_unit hS space]
  simp only [resolvePass, hS, Tree.resolveReferences_filled hne, unresolvedReport_resolveAll]

/-- Resolving one namespace and then another one fills in both. -/
theorem resolvePass_resolvePass (hS : u.scopes = some S) (hne : other ≠ space) :
    (resolvePass other (resolvePass space u).unit).unit =
      { u with tree := u.tree.resolveAll (referrals (resolveReferences u.tree S space) ++
        referrals (resolveReferences u.tree S other)) } := by
  rw [resolvePass_unit (S := S) (by simp [resolvePass_unit hS, hS]) other, resolvePass_unit hS]
  simp only [Tree.resolveReferences_filled hne, Tree.resolveAll_append]

/-- Over a unit whose scopes have been built, the two resolutions may come in either order: the
second one finds and reports what it would have on the unmodified tree, and the tree in the end is
the one in which everything found there is filled in. Building the scopes again changes nothing,
and of the nodes only the references with an answer have changed, in nothing but their kind. -/
theorem resolution_passes_independent (u : CompilationUnit) :
    let S := ScopeTree.build u.tree
    let tagged := { u with scopes := some S }
    let linked := u.tree.resolveAll (u.tree.allReferrals S)
    (∀ first second, second ≠ first →
      (resolvePass second (resolvePass first tagged).unit).unit = { tagged with tree := linked } ∧
      (resolvePass second (resolvePass first tagged).unit).reports =
        (resolvePass second tagged).reports ∧
      resolveReferences (resolvePass first tagged).unit.tree S second =
        resolveReferences u.tree S second) ∧
    ScopeTree.build linked = S ∧ u.tree.Fills linked S := by
  intro S tagged linked
  have hS : tagged.scopes = some S := rfl
  refine ⟨fun first second hne => ⟨?_, resolvePass_reports hS hne, ?_⟩,
    ScopeTree.build_resolveAll _ _, Tree.fills_resolveAll _ _⟩
  · rw [resolvePass_resolvePass hS hne]
    -- values first is how the referrals of both are listed; types first is the other order
    cases first with
    | values => cases second with
      | values => exact absurd rfl hne
      | types => rfl
    | types => cases second with
      | types => exact absurd rfl hne
      | values =>
        rw [Tree.resolveAll_comm (Tree.referrals_disjoint hne)]
        rfl
  · rw [resolvePass_unit hS]
    exact Tree.resolveReferences_filled hne

/-- A function over a struct whose body names its parameter twice through one node, and something
undeclared. -/
def sharedReferences : Tree := Tree.ofKinds [
  .typeReference ⟨⟨1⟩, none⟩, .parameter ⟨2⟩ (some ⟨0⟩), .reference ⟨⟨2⟩, none⟩,
  .reference ⟨⟨3⟩, none⟩, .tuple [⟨2⟩, ⟨2⟩, ⟨3⟩], .function ⟨4⟩ [⟨1⟩] none ⟨4⟩,
  .structDecl ⟨1⟩ [] [], .moduleDecl ⟨5⟩ true [⟨6⟩, ⟨5⟩], .file [⟨7⟩]]

theorem resolution_passes_independent_shared :
    let S := ScopeTree.build sharedReferences
    let tagged := { CompilationUnit.ofTree sharedReferences with scopes := some S }
    let linked := (resolvePass .values (resolvePass .types tagged).unit).unit.tree
    linked = (resolvePass .types (resolvePass .values tagged).unit).unit.tree ∧
      linked.kind? ⟨0⟩ = some (.resolvedType ⟨⟨1⟩, none⟩ ⟨6⟩) ∧
      linked.kind? ⟨2⟩ = some (.resolved ⟨⟨2⟩, none⟩ ⟨1⟩) ∧
      linked.kind? ⟨3⟩ = some (.reference ⟨⟨3⟩, none⟩) := by
  intro S tagged linked
  obtain ⟨horders, -, hfills⟩ :=
    resolution_passes_independent (CompilationUnit.ofTree sharedReferences)
  have htypesFirst := congrArg CompilationUnit.tree (horders .types .values (by decide)).1
  have hvaluesFirst := congrArg CompilationUnit.tree (horders .values .types (by decide)).1
  have hmem : ∀ n ∈ [0, 2, 3], (⟨n⟩ : NodeId) ∈ sharedReferences.walk := by decide +kernel
  have hstruct : resolve sharedReferences S .types ⟨0⟩ ⟨⟨1⟩, none⟩ = .ok ⟨6⟩ := by decide +kernel
  have hparameter : resolve sharedReferences S .values ⟨2⟩ ⟨⟨2⟩, none⟩ = .ok ⟨1⟩ := by
    decide +kernel
  have hunknown : resolve sharedReferences S .values ⟨3⟩ ⟨⟨3⟩, none⟩ = .error .notFound := by
    decide +kernel
  refine ⟨htypesFirst.trans hvaluesFirst.symm, ?_, ?_, ?_⟩
  · exact (congrArg (fun t : Tree => t.kind? ⟨0⟩) htypesFirst).trans
      (hfills.answered .types ⟨0⟩ _ _ (hmem 0 (by decide)) rfl hstruct)
  · exact (congrArg (fun t : Tree => t.kind? ⟨2⟩) htypesFirst).trans
      (hfills.answered .values ⟨2⟩ _ _ (hmem 2 (by decide)) rfl hparameter)
  · refine (congrArg (fun t : Tree => t.kind? ⟨3⟩) htypesFirst).trans
      (hfills.others ⟨3⟩ fun space r d _ hr hok => ?_)
    cases space with
    | types => cases hr
    | values =>
      cases hr
      cases hunknown.symm.trans hok

end Session

end SemanticAnalysis
