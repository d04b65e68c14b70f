import SemanticAnalysis.Proofs.Referrals
import SemanticAnalysis.Proofs.ScopeTrees

/-!
What references refer to. A value name resolves to something that a node around
it binds, with no function in between, or to something declared in a module or a
type; a type name resolves to something that stands for a type. A tree in which
every reference says so is linked, and filling in the answers of resolution
links a well-formed tree.
-/

namespace SemanticAnalysis

namespace Kind

/-- Whether what stands in a node is declared for others to see. -/
def isContainer : Kind → Bool
  | .moduleDecl _ _ _ | .structDecl _ _ _ | .traitDecl _ _ | .enumDecl _ _ => true
  | _ => false

theorem isContainer_iff {k : Kind} {kind : ScopeKind} (h : ScopeKind.of? k = some kind) :
    k.isContainer = true ↔ kind = .global ∨ kind = .object := by
  cases k <;> simp only [ScopeKind.of?, Option.some.injEq, reduceCtorEq] at h <;> subst h <;>
    simp [isContainer]

def namesType : Kind → Bool
  | .enumEntry _ => true
  | k => k.isTypeDecl

theorem pending?_withReferral {k : Kind} {space : Namespace} (h : k.pending? space = none)
    (d : NodeId) : (k.withReferral d).pending? space = none := by
  cases k <;> simp_all [withReferral, pending?]

end Kind

namespace Forest

variable {f : Forest} {n a d : NodeId}

/-- What a node binds for the nodes inside it: a function itself and its parameters, a lambda its
parameters, a variable itself and a block its variables and functions. -/
def Binds (f : Forest) (a d : NodeId) : Prop :=
  match f.kind? a with
  | some (.function _ params _ _) | some (.abstractFunction _ params _)
  | some (.foreignFunction _ params _ _) => d = a ∨ d ∈ params
  | some (.lambda params _) => d ∈ params
  | some (.varDecl _ _ _ _) => d = a
  | some (.block items) => d ∈ items ∧ f.isLocalBinding d = true
  | _ => False

def Visible (f : Forest) (n d : NodeId) : Prop := ∃ a, f.Near n a ∧ f.Binds a d

def Declared (f : Forest) (d : NodeId) : Prop :=
  ∃ p k, f.parent? d = some p ∧ f.kind? p = some k ∧ k.isContainer = true

theorem NamedOnce.declared (hf : f.NamedOnce) {k : Kind} (hk : f.kind? a = some k)
    (hc : k.isContainer = true) (hd : d ∈ k.children) : f.Declared d :=
  ⟨a, k, hf.parent?_of_mem (mem_children_of_kind hk hd), hk, hc⟩

section Forgetting

@[simp]
theorem isFunction_forget (f : Forest) (n : NodeId) : f.forget.isFunction n = f.isFunction n := by
  simp [isFunction, Option.any_map]

@[simp]
theorem isLocalBinding_forget (f : Forest) (n : NodeId) :
    f.forget.isLocalBinding n = f.isLocalBinding n := by
  simp only [isLocalBinding, kind?_forget]
  cases f.kind? n with
  | none => rfl
  | some k => cases k <;> rfl

theorem near_forget : f.forget.Near n a ↔ f.Near n a := by
  constructor
  · intro h
    induction h with
    | parent h => exact .parent (by simpa using h)
    | step h hp _ ih => exact .step (by simpa using h) (by simpa using hp) ih
  · intro h
    induction h with
    | parent h => exact .parent (by simpa using h)
    | step h hp _ ih => exact .step (by simpa using h) (by simpa using hp) ih

theorem binds_forget : f.forget.Binds a d ↔ f.Binds a d := by
  simp only [Binds, kind?_forget, isLocalBinding_forget]
  cases f.kind? a with
  | none => rfl
  | some k => cases k <;> rfl

theorem visible_forget : f.forget.Visible n d ↔ f.Visible n d := by
  simp only [Visible, near_forget, binds_forget]

theorem declared_forget : f.forget.Declared d ↔ f.Declared d := by
  have hk : ∀ k : Kind, k.forget.isContainer = k.isContainer := by intro k; cases k <;> rfl
  simp [Declared, hk]

theorem scopeDeclarations_forget (f : Forest) (k : Kind) :
    f.forget.scopeDeclarations k.forget = f.scopeDeclarations k := by
  have hlocal : f.forget.isLocalBinding = f.isLocalBinding := funext f.isLocalBinding_forget
  cases k <;> simp only [scopeDeclarations, Kind.forget, hlocal]

end Forgetting

end Forest

namespace ScopeTree

/-- What a node introduces does not depend on what references refer to. -/
theorem enter_forget (f : Forest) (around : Option ScopeId) (S : ScopeTree) (n : NodeId) :
    S.enter f.forget n around = S.enter f n around := by
  have hof : ∀ k : Kind, ScopeKind.of? k.forget = ScopeKind.of? k := by intro k; cases k <;> rfl
  by_cases hintro : f.introduces n = true
  · obtain ⟨k, kind, hk, hkind⟩ := Forest.introduces_iff.1 hintro
    have hk' : f.forget.kind? n = some k.forget := by simp [hk]
    rw [enter_of_kind hk hkind, enter_of_kind hk' ((hof k).trans hkind),
      Forest.scopeDeclarations_forget]
  · have hnot : f.introduces n = false := by simpa using hintro
    have hnot' : f.forget.introduces n = false := by
      rw [← Bool.not_eq_true, Forest.introduces_iff] at hnot ⊢
      intro hscope
      obtain ⟨k, kind, hk, hkind⟩ := hscope
      obtain ⟨k', hk', rfl⟩ := Option.map_eq_some_iff.1 (Forest.kind?_forget f n ▸ hk)
      exact hnot ⟨k', kind, hk', (hof k').symm.trans hkind⟩
    rw [enter_of_not_introduces hnot, enter_of_not_introduces hnot']

theorem extend_forget (f : Forest) (around : Option ScopeId) (S : ScopeTree) (n : NodeId) :
    extend f.forget around S n = extend f around S n := by
  induction n using Forest.childInduction (f := f) generalizing S around with
  | step n ih =>
    rw [extend_eq, extend_eq, enter_forget, Forest.children_forget]
    exact List.foldl_ext _ _ _ fun S c hc => ih c hc _ S

theorem build_forget (t : Tree) : build t.forget = build t := by
  rw [build_eq_extend, build_eq_extend]
  exact extend_forget t.toForest none empty t.root

/-- Filling in referrals leaves the scopes as they are. -/
@[simp]
theorem build_resolveAll (t : Tree) (referrals : List (NodeId × NodeId)) :
    build (t.resolveAll referrals) = build t := by
  rw [← build_forget, Tree.forget_resolveAll, build_forget]

end ScopeTree

section Resolving

open Resolution

variable {t : Tree} {site d : NodeId} {name : Symbol}

theorem Resolution.mem_of_ofCandidates {otherwise : Answer} {candidates : List NodeId}
    (h : Answer.ofCandidates otherwise candidates = .found d) (ho : otherwise ≠ .found d) :
    d ∈ candidates := by
  match candidates with
  | [] => exact absurd h ho
  | [node] =>
    cases h
    exact List.mem_singleton_self _
  | _ :: _ :: _ => cases h

theorem Resolution.eq_found_of_outcome {answer : Answer} (h : answer.outcome = .ok d) :
    answer = .found d := by
  cases answer <;> simp_all [Answer.outcome]

theorem Resolution.mem_of_mem_named {f : Forest} {nodes : List NodeId}
    (h : d ∈ named f name nodes) : d ∈ nodes := (List.mem_filter.1 h).1

theorem Resolution.isTypeDecl_of_mem_namedTypes {f : Forest} {nodes : List NodeId}
    (h : d ∈ namedTypes f name nodes) : ∃ k, f.kind? d = some k ∧ k.isTypeDecl = true := by
  have hd := (List.mem_filter.1 h).2
  cases hk : f.kind? d with
  | none => simp [hk] at hd
  | some k =>
    simp only [hk, Option.any_some, Bool.and_eq_true] at hd
    exact ⟨k, rfl, hd.1⟩

/-- A look-up that finds something found it in a scope in sight of where it started. -/
theorem Resolution.exists_scope_of_lookup (ht : t.WellFormed) {space : Namespace}
    (h : lookup t.toForest (ScopeTree.build t) space site name = .found d) :
    ∃ s, (ScopeTree.build t).Describes t.toForest s ∧ ScopeTree.InSight t site s ∧
      ask t.toForest space name s = .found d := by
  have hfirst : ∀ route, firstAnswer t.toForest (ScopeTree.build t) space name route = .found d →
      ∃ j ∈ route, ∃ s, (ScopeTree.build t).scopes[j]? = some s ∧
        ask t.toForest space name s = .found d := by
    intro route hroute
    induction route with
    | nil => cases hroute
    | cons j rest ih =>
      cases hs : (ScopeTree.build t).scopes[j]? with
      | none => simp [firstAnswer, hs] at hroute
      | some s =>
        cases hask : ask t.toForest space name s with
        | askOutside =>
          obtain ⟨k, hk, hfound⟩ := ih (by simpa [firstAnswer, hs, hask] using hroute)
          exact ⟨k, List.mem_cons_of_mem j hk, hfound⟩
        | found node =>
          have hnode : node = d := by simpa [firstAnswer, hs, hask] using hroute
          exact ⟨j, List.mem_cons_self .., s, hs, hnode ▸ hask⟩
        | absent => simp [firstAnswer, hs, hask] at hroute
        | ambiguous candidates => simp [firstAnswer, hs, hask] at hroute
  unfold lookup at h
  cases hi : (ScopeTree.build t).enclosing t.toForest site with
  | none => simp [hi] at h
  | some i =>
    simp only [hi] at h
    obtain ⟨j, hj, s, hs, hask⟩ := hfirst _ h
    exact ⟨s, ScopeTree.build_describes ht.rooted hs, ScopeTree.inSight_of_enclosing ht hi hj hs,
      hask⟩

theorem Resolution.mem_of_own {own : Symbol} {anchor : NodeId} {params : List NodeId}
    {f : Forest} (h : (if own = name then Answer.found anchor
      else .ofCandidates .askOutside (named f name params)) = .found d) :
    d = anchor ∨ d ∈ params := by
  split at h
  · cases h
    exact Or.inl rfl
  · exact Or.inr (mem_of_mem_named (mem_of_ofCandidates h (by simp)))

/-- What a scope says a value name refers to: something its anchor binds, or something declared in
it. -/
theorem Resolution.binds_or_declared_of_ask (ht : t.WellFormed) {S : ScopeTree} {s : Scope}
    (hdesc : S.Describes t.toForest s) (h : ask t.toForest .values name s = .found d) :
    (t.Binds s.anchor d ∧ s.kind ≠ .global ∧ s.kind ≠ .object) ∨ t.Declared d := by
  obtain ⟨k, hk, hkind, hdecls⟩ := hdesc.introduced
  have hmem : ∀ {otherwise : Answer} {nodes : List NodeId}, otherwise ≠ .found d →
      Answer.ofCandidates otherwise (named t.toForest name nodes) = .found d → d ∈ nodes :=
    fun ho h => mem_of_mem_named (mem_of_ofCandidates h ho)
  by_cases hc : k.isContainer = true
  · refine Or.inr (ht.named_once.declared hk hc ?_)
    simp only [ask, askForValue, hk, hdecls] at h
    cases k <;> simp [Kind.isContainer] at hc <;> exact hmem (by simp) h
  · have hlocal : s.kind ≠ .global ∧ s.kind ≠ .object :=
      not_or.1 (mt (Kind.isContainer_iff hkind).2 hc)
    refine Or.inl ⟨?_, hlocal⟩
    simp only [ask, askForValue, hk, hdecls] at h
    simp only [Forest.Binds, hk]
    cases k <;> simp [ScopeKind.of?] at hkind <;> simp [Kind.isContainer] at hc <;>
      simp only [Forest.scopeDeclarations] at h ⊢
    case function => exact mem_of_own h
    case abstractFunction => exact mem_of_own h
    case foreignFunction => exact mem_of_own h
    case varDecl =>
      split at h
      · exact (Answer.found.inj h).symm
      · cases h
    case block => exact List.mem_filter.1 (hmem (by simp) h)
    case lambda => exact hmem (by simp) h

theorem Resolution.visible_or_declared_of_lookup (ht : t.WellFormed)
    (h : lookup t.toForest (ScopeTree.build t) .values site name = .found d) :
    t.Visible site d ∨ t.Declared d := by
  obtain ⟨s, hdesc, hsight, hask⟩ := exists_scope_of_lookup ht h
  rcases binds_or_declared_of_ask ht hdesc hask with ⟨hbinds, hglobal, hobject⟩ | hdeclared
  · rcases hsight with hg | ho | hnear
    · exact absurd hg hglobal
    · exact absurd ho hobject
    · exact Or.inl ⟨s.anchor, hnear, hbinds⟩
  · exact Or.inr hdeclared

/-- A member is declared for others to see. -/
theorem Resolution.declared_of_member (ht : t.WellFormed) {container : NodeId}
    (h : member t.toForest .values container name = .found d) : t.Declared d := by
  cases hk : t.kind? container with
  | none => simp [member, narrow, hk, Answer.ofCandidates] at h
  | some k =>
    have hmem : ∀ {nodes : List NodeId}, Answer.ofCandidates .absent nodes = .found d →
        d ∈ nodes := fun h => mem_of_ofCandidates h (by simp)
    simp only [member, narrow, hk] at h
    by_cases hc : k.isContainer = true
    · refine ht.named_once.declared hk hc ?_
      cases k <;> simp [Kind.isContainer] at hc
      case structDecl =>
        rw [Kind.children, List.mem_append]
        exact (List.mem_append.1 (hmem h)).imp mem_of_mem_named mem_of_mem_named
      all_goals exact mem_of_mem_named (hmem h)
    · cases k <;> simp [Answer.ofCandidates] at h <;> simp [Kind.isContainer] at hc

/-- A value name refers to something visible where it stands, or to something declared. -/
theorem visible_or_declared_of_resolve (ht : t.WellFormed) {r : Reference}
    (h : resolve t (ScopeTree.build t) .values site r = .ok d) :
    t.Visible site d ∨ t.Declared d := by
  have hfound := eq_found_of_outcome h
  split at hfound
  · exact visible_or_declared_of_lookup ht hfound
  · split at hfound
    · exact visible_or_declared_of_lookup ht hfound
    · split at hfound
      · exact Or.inr (declared_of_member ht hfound)
      · rename_i hnot
        exact absurd hfound (hnot d)

theorem Resolution.namesType_of_namedTypes {nodes : List NodeId} {otherwise : Answer}
    (h : Answer.ofCandidates otherwise (namedTypes t.toForest name nodes) = .found d)
    (ho : otherwise ≠ .found d) : ∃ k, t.kind? d = some k ∧ k.namesType = true := by
  obtain ⟨k, hk, htype⟩ := isTypeDecl_of_mem_namedTypes (mem_of_ofCandidates h ho)
  refine ⟨k, hk, ?_⟩
  cases k <;> simp_all [Kind.namesType, Kind.isTypeDecl]

/-- An entry of an enum stands for a type. -/
theorem Resolution.namesType_of_entry (ht : t.WellFormed) {a : NodeId} {owner : Symbol}
    {entries : List NodeId} {otherwise : Answer} (hk : t.kind? a = some (.enumDecl owner entries))
    (h : Answer.ofCandidates otherwise (named t.toForest name entries) = .found d)
    (ho : otherwise ≠ .found d) : ∃ k, t.kind? d = some k ∧ k.namesType = true := by
  have hd := mem_of_mem_named (mem_of_ofCandidates h ho)
  have hplace : (Role.entry, d) ∈ (Kind.enumDecl owner entries).places :=
    Kind.entry_mem_places.2 ⟨owner, entries, rfl, hd⟩
  obtain ⟨-, k, hkd, hadmits⟩ := ht.child_fits hk hplace
  refine ⟨k, hkd, ?_⟩
  cases k <;> simp [Role.admits] at hadmits
  rfl

/-- What is found in the scopes around a type name stands for a type. -/
theorem Resolution.namesType_of_lookup (ht : t.WellFormed)
    (h : lookup t.toForest (ScopeTree.build t) .types site name = .found d) :
    ∃ k, t.kind? d = some k ∧ k.namesType = true := by
  obtain ⟨s, -, -, hask⟩ := exists_scope_of_lookup ht h
  unfold ask askForType at hask
  dsimp only at hask
  split at hask
  · exact namesType_of_namedTypes hask (by simp)
  · rename_i hk
    exact namesType_of_entry ht hk hask (by simp)
  · rename_i hk
    split at hask <;> cases hask
    exact ⟨_, hk, rfl⟩
  · rename_i hk
    split at hask <;> cases hask
    exact ⟨_, hk, rfl⟩
  · cases hask

/-- A member that is found for a type name stands for a type. -/
theorem Resolution.namesType_of_member (ht : t.WellFormed) {container : NodeId}
    (h : member t.toForest .types container name = .found d) :
    ∃ k, t.kind? d = some k ∧ k.namesType = true := by
  unfold member at h
  split at h
  · exact namesType_of_namedTypes h (by simp)
  · cases ‹Namespace.types = Namespace.values›
  · rename_i hk
    exact namesType_of_entry ht hk h (by simp)
  · cases ‹Namespace.types = Namespace.values›
  · cases h

/-- A type name refers to something that stands for a type. -/
theorem namesType_of_resolve (ht : t.WellFormed) {r : Reference}
    (h : resolve t (ScopeTree.build t) .types site r = .ok d) :
    ∃ k, t.kind? d = some k ∧ k.namesType = true := by
  have hfound := eq_found_of_outcome h
  split at hfound
  · exact namesType_of_lookup ht hfound
  · split at hfound
    · exact namesType_of_lookup ht hfound
    · split at hfound
      · exact namesType_of_member ht hfound
      · rename_i hnot
        exact absurd hfound (hnot d)

end Resolving

namespace Tree

variable {t u : Tree} {n d : NodeId} {space : Namespace}

/-- Every reference of a well-formed tree says what it refers to, values to what is visible or
declared and types to what stands for a type. -/
structure Linked (t : Tree) : Prop where
  wellFormed : t.WellFormed
  complete : t.FullyResolved
  values : ∀ n r d, t.kind? n = some (.resolved r d) → t.Visible n d ∨ t.Declared d
  types : ∀ n r d, t.kind? n = some (.resolvedType r d) →
    ∃ k, t.kind? d = some k ∧ k.namesType = true

/-- The second tree is the first one with some references filled in as they resolve. -/
structure Answered (t u : Tree) : Prop where
  same : u.forget = t
  values : ∀ n r d, u.kind? n = some (.resolved r d) →
    resolve t (ScopeTree.build t) .values n r = .ok d
  types : ∀ n r d, u.kind? n = some (.resolvedType r d) →
    resolve t (ScopeTree.build t) .types n r = .ok d

namespace Answered

theorem refl (h : t.Unresolved) : t.Answered t where
  same := forget_of_unresolved h
  values n r d hk := by simpa [Kind.isResolved] using h n _ hk
  types n r d hk := by simpa [Kind.isResolved] using h n _ hk

theorem wellFormed (h : t.Answered u) (ht : t.WellFormed) : u.WellFormed := by
  rw [← wellFormed_forget, h.same]
  exact ht

/-- A tree whose references are all filled in as they resolve is linked. -/
theorem linked (h : t.Answered u) (ht : t.WellFormed) (hu : u.FullyResolved) : u.Linked where
  wellFormed := h.wellFormed ht
  complete := hu
  values n r d hk := by
    rcases visible_or_declared_of_resolve ht (h.values n r d hk) with hv | hd
    · rw [← h.same] at hv
      exact Or.inl (Forest.visible_forget.1 hv)
    · rw [← h.same] at hd
      exact Or.inr (Forest.declared_forget.1 hd)
  types n r d hk := by
    obtain ⟨k, hkd, hnames⟩ := namesType_of_resolve ht (h.types n r d hk)
    rw [← h.same, toForest_forget, Forest.kind?_forget] at hkd
    obtain ⟨k', hk', rfl⟩ := Option.map_eq_some_iff.1 hkd
    refine ⟨k', hk', ?_⟩
    cases k' <;> simp_all [Kind.namesType, Kind.forget, Kind.isTypeDecl]

/-- Referrals are the answers to the pending references of the walk. -/
theorem mem_referrals {S : ScopeTree} :
    (n, d) ∈ referrals (resolveReferences u S space) ↔
      n ∈ u.walk ∧ ∃ r, (u.kind? n).bind (Kind.pending? space) = some r ∧
        resolve u S space n r = .ok d := by
  simp only [referrals, resolveReferences, List.mem_filterMap, Option.map_eq_some_iff]
  constructor
  · rintro ⟨res, ⟨m, hm, r, hr, rfl⟩, hres⟩
    dsimp only at hres
    split at hres
    · rename_i hok
      cases hres
      exact ⟨hm, r, hr, hok⟩
    · cases hres
  · rintro ⟨hn, r, hr, hok⟩
    exact ⟨_, ⟨n, hn, r, hr, rfl⟩, by simp [hok]⟩

theorem resolve_eq (h : t.Answered u) (S : ScopeTree) (r : Reference) :
    resolve u S space n r = resolve t S space n r := by
  rw [← h.same, resolve_forget]

/-- Filling in what references resolve to answers them. -/
theorem resolveAll (h : t.Answered u) (space : Namespace) :
    t.Answered (u.resolveAll (referrals (resolveReferences u (ScopeTree.build t) space))) := by
  have hkind : ∀ n k, (u.resolveAll (referrals
      (resolveReferences u (ScopeTree.build t) space))).kind? n = some k →
      u.kind? n = some k ∨ ∃ k' r d, u.kind? n = some k' ∧ k'.pending? space = some r ∧
        k = k'.withReferral d ∧ resolve t (ScopeTree.build t) space n r = .ok d := by
    intro n k hk
    rw [kind?_resolveAll] at hk
    split at hk
    · exact Or.inl hk
    · rename_i p hp
      obtain rfl : p.1 = n := by simpa using List.find?_some hp
      obtain ⟨-, r, hr, hok⟩ := mem_referrals.1 (List.mem_of_find?_eq_some hp)
      obtain ⟨k', hk', hr⟩ := Option.bind_eq_some_iff.1 hr
      refine Or.inr ⟨k', r, p.2, hk', hr, ?_, ?_⟩
      · simpa [hk', eq_comm] using hk
      · rw [← h.resolve_eq]
        exact hok
  refine ⟨(forget_resolveAll u _).trans h.same, ?_, ?_⟩
  · intro n r d hk
    rcases hkind n _ hk with hk | ⟨k', r', d', -, hr, hk', hok⟩
    · exact h.values n r d hk
    · cases k' <;> cases space <;> simp_all [Kind.pending?, Kind.withReferral]
  · intro n r d hk
    rcases hkind n _ hk with hk | ⟨k', r', d', -, hr, hk', hok⟩
    · exact h.types n r d hk
    · cases k' <;> cases space <;> simp_all [Kind.pending?, Kind.withReferral]

end Answered

def Settled (t : Tree) (space : Namespace) : Prop :=
  ∀ n k, t.kind? n = some k → k.pending? space = none

/-- No reference of a namespace that the walk comes to is left to be resolved. -/
def Cleared (t : Tree) (space : Namespace) : Prop :=
  ∀ n ∈ t.walk, ∀ k, t.kind? n = some k → k.pending? space = none

theorem Settled.cleared (h : t.Settled space) : t.Cleared space := fun n _ => h n

theorem fullyResolved_of_settled (h : ∀ space, t.Settled space) : t.FullyResolved := by
  intro n k hk
  have hvalues := h .values n k hk
  have htypes := h .types n k hk
  cases k <;> simp_all [Kind.pending?, Kind.isPending]

/-- A node at which nothing is left to be resolved stays so. -/
theorem pending?_resolveAll {k : Kind} (h : ∀ k, t.kind? n = some k → k.pending? space = none)
    (referrals : List (NodeId × NodeId)) (hk : (t.resolveAll referrals).kind? n = some k) :
    k.pending? space = none := by
  rw [kind?_resolveAll] at hk
  split at hk
  · exact h k hk
  · obtain ⟨k', hk', rfl⟩ := Option.map_eq_some_iff.1 hk
    exact Kind.pending?_withReferral (h k' hk') _

/-- Filling in referrals unsettles nothing. -/
theorem Settled.resolveAll (h : t.Settled space) (referrals : List (NodeId × NodeId)) :
    (t.resolveAll referrals).Settled space :=
  fun n _ hk => pending?_resolveAll (h n) referrals hk

theorem Cleared.resolveAll (h : t.Cleared space) (referrals : List (NodeId × NodeId)) :
    (t.resolveAll referrals).Cleared space := by
  intro n hn k hk
  rw [walk_resolveAll] at hn
  exact pending?_resolveAll (h n hn) referrals hk

/-- If all references of a namespace resolve then filling in what they resolve to clears it. -/
theorem cleared_resolveAll {S : ScopeTree}
    (h : ∀ r ∈ resolveReferences u S space, ∃ d, r.result = .ok d) :
    (u.resolveAll (referrals (resolveReferences u S space))).Cleared space := by
  intro n hn k hk
  rw [walk_resolveAll] at hn
  rw [kind?_resolveAll] at hk
  split at hk
  · -- no referral is filled in here, so there was no reference
    rename_i hnone
    rw [Option.eq_none_iff_forall_not_mem]
    intro r hr
    have hpending : (u.kind? n).bind (Kind.pending? space) = some r := by simpa [hk] using hr
    have hmem : (⟨n, r, resolve u S space n r⟩ : Resolved) ∈ resolveReferences u S space :=
      List.mem_filterMap.2 ⟨n, hn, by simp [hpending]⟩
    obtain ⟨d, hd⟩ := h _ hmem
    have hreferral := Answered.mem_referrals.2 ⟨hn, r, hpending, hd⟩
    simpa using List.find?_eq_none.1 hnone _ hreferral
  · rename_i p hp
    obtain rfl : p.1 = n := by simpa using List.find?_some hp
    obtain ⟨-, r, hr, -⟩ := Answered.mem_referrals.1 (List.mem_of_find?_eq_some hp)
    obtain ⟨k', hk', hr⟩ := Option.bind_eq_some_iff.1 hr
    obtain rfl : k'.withReferral p.2 = k := by simpa [hk'] using hk
    cases k' <;> cases space <;> simp_all [Kind.pending?, Kind.withReferral]

theorem settled_resolveAll (ht : u.WellFormed) {S : ScopeTree}
    (h : ∀ r ∈ resolveReferences u S space, ∃ d, r.result = .ok d) :
    (u.resolveAll (referrals (resolveReferences u S space))).Settled space := by
  have hwf : (u.resolveAll (referrals (resolveReferences u S space))).WellFormed := by
    rw [← wellFormed_forget, forget_resolveAll, wellFormed_forget]
    exact ht
  exact fun n k hk => cleared_resolveAll h n (hwf.mem_walk hk) k hk

/-- The target of an assignment on the walk is no open value name once those are cleared. -/
theorem Cleared.assign_target (h : t.Cleared .values) (hn : n ∈ t.walk) {target value : NodeId}
    (hk : t.kind? n = some (.assign target value)) :
    ∀ k, t.kind? target = some k → k.pending? .values = none :=
  h target (Forest.mem_walkFrom_trans hn (Forest.mem_walkFrom_of_child
    (Forest.mem_children_of_kind hk (by simp [Kind.children])) (Forest.self_mem_walkFrom _ _)))

def resolveNames (t : Tree) : Tree :=
  let u := t.resolveAll (referrals (resolveReferences t (ScopeTree.build t) .values))
  u.resolveAll (referrals (resolveReferences u (ScopeTree.build t) .types))

theorem answered_resolveNames (h : t.Unresolved) : t.Answered t.resolveNames :=
  ((Answered.refl h).resolveAll .values).resolveAll .types

end Tree

end SemanticAnalysis
