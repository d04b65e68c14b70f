import Mathlib.Data.List.Perm.Subperm
import SemanticAnalysis.Diagnostics.Checks
import SemanticAnalysis.Proofs.LinkedTrees
import SemanticAnalysis.Proofs.ScopeAncestry

/-!
Every ambiguity is reported as a duplicate. Whatever a name is looked up in, a
scope, the file or a declaration that a qualifier leads to, several candidates
are declarations of one name directly inside one node that the walk comes to.
The uniqueness checks group the declarations of that node by name, so one report
points at all the candidates, unless a block binds the name both to a variable
and to a function, which are checked apart.
-/

namespace SemanticAnalysis

open Resolution Checks

def Forest.holdings (f : Forest) : Kind → List NodeId
  | .file modules => modules
  | k => f.scopeDeclarations k

theorem Forest.holdings_sublist_children (f : Forest) (k : Kind) :
    (f.holdings k).Sublist k.children := by
  cases k <;> simp [holdings, scopeDeclarations, Kind.children]

theorem Forest.holdings_of_not_file {f : Forest} {k : Kind} (h : k.isFile = false) :
    f.holdings k = f.scopeDeclarations k := by
  cases k <;> simp_all [holdings, Kind.isFile]

/-- Several declarations of one name held by one node, which is the root if it is a file. -/
structure Rivals (t : Tree) (name : Symbol) (a : NodeId) (k : Kind) (c : List NodeId) : Prop where
  kind : t.kind? a = some k
  reached : a ∈ t.walk
  file : k.isFile → a = t.root
  named : c.Sublist (named t.toForest name (t.holdings k))
  several : 2 ≤ c.length

namespace Rivals

variable {t : Tree} {name : Symbol} {a : NodeId} {k : Kind} {c : List NodeId}

theorem mem_holdings (h : Rivals t name a k c) {d : NodeId} (hd : d ∈ c) :
    d ∈ t.holdings k ∧ t.name? d = some name := by
  simpa [Resolution.named] using h.named.subset hd

theorem mem_children (h : Rivals t name a k c) {d : NodeId} (hd : d ∈ c) : d ∈ t.children a := by
  rw [Forest.children_of_kind h.kind]
  exact (t.holdings_sublist_children k).subset (h.mem_holdings hd).1

theorem nodup (ht : t.Rooted) (h : Rivals t name a k c) : c.Nodup := by
  have hsub : c.Sublist k.children :=
    h.named.trans ((List.filter_sublist).trans (t.holdings_sublist_children k))
  rw [← Forest.children_of_kind h.kind] at hsub
  exact hsub.nodup (ht.named_once.children_nodup a)

end Rivals

section Answers

variable {t : Tree} {name : Symbol} {a site d : NodeId} {k : Kind} {c : List NodeId}

def Resolution.Answer.Sound (t : Tree) : Answer → Prop
  | .found d => d ∈ t.walk
  | .ambiguous c => ∃ name a k, Rivals t name a k c
  | .absent | .askOutside => True

theorem mem_walk_of_children (ha : a ∈ t.walk) (hd : d ∈ t.children a) : d ∈ t.walk :=
  Forest.mem_walkFrom_trans ha (Forest.mem_walkFrom_of_child hd (Forest.self_mem_walkFrom _ d))

/-- Candidates among what a node holds are rivals as soon as there are several. -/
theorem sound_ofCandidates {otherwise : Answer} (hk : t.kind? a = some k) (ha : a ∈ t.walk)
    (hfile : k.isFile → a = t.root) (ho : otherwise.Sound t)
    (hc : c.Sublist (named t.toForest name (t.holdings k))) :
    (Answer.ofCandidates otherwise c).Sound t := by
  match c with
  | [] => exact ho
  | [d] =>
    have hd : d ∈ t.holdings k := mem_of_mem_named (hc.subset (List.mem_singleton.2 rfl))
    have hchild := (t.holdings_sublist_children k).subset hd
    rw [← Forest.children_of_kind hk] at hchild
    exact mem_walk_of_children ha hchild
  | d :: d' :: rest => exact ⟨name, a, k, hk, ha, hfile, hc, by simp⟩

theorem sound_held {otherwise : Answer} (hk : t.kind? a = some k) (ha : a ∈ t.walk)
    (hfile : k.isFile = false) (ho : otherwise.Sound t)
    (hc : c.Sublist (named t.toForest name (t.scopeDeclarations k))) :
    (Answer.ofCandidates otherwise c).Sound t := by
  rw [← Forest.holdings_of_not_file hfile] at hc
  exact sound_ofCandidates hk ha (by simp [hfile]) ho hc

theorem namedTypes_sublist (f : Forest) (name : Symbol) (nodes : List NodeId) :
    (namedTypes f name nodes).Sublist (named f name nodes) := by
  refine List.monotone_filter_right nodes fun n hn => ?_
  cases hk : f.kind? n with
  | none => simp [hk] at hn
  | some k => simp_all [Forest.name?]

/-- What a scope says comes from the node it belongs to. -/
theorem sound_ask (ht : t.Rooted) {s : Scope} {i : ScopeId} {space : Namespace}
    (hs : (ScopeTree.build t).scopes[i]? = some s) : (ask t.toForest space name s).Sound t := by
  obtain ⟨k, hk, hkind, hdecls⟩ := (ScopeTree.build_describes ht hs).introduced
  have hreached : s.anchor ∈ t.walk :=
    ScopeTree.mem_walk_of_anchor? ht (i := i) (by simp [ScopeTree.anchor?, hs])
  have hfile : k.isFile = false := by
    cases k <;> simp_all [ScopeKind.of?, Kind.isFile]
  have hall : ∀ {otherwise : Answer}, otherwise.Sound t →
      (Answer.ofCandidates otherwise (named t.toForest name s.declarations)).Sound t :=
    fun ho => sound_held hk hreached hfile ho (by rw [hdecls])
  have hown : ∀ {own : Symbol} {answer : Answer}, answer.Sound t →
      (if own = name then Answer.found s.anchor else answer).Sound t := by
    intro own answer hanswer
    split
    · exact hreached
    · exact hanswer
  cases space with
  | values =>
    unfold ask askForValue
    dsimp only
    split
    · exact hall trivial
    · exact hown (hall trivial)
    · exact hown (hall trivial)
    · exact hown (hall trivial)
    · exact hown trivial
    · exact hall trivial
  | types =>
    unfold ask askForType
    dsimp only
    rw [hk]
    split
    · rename_i hmodule
      cases hmodule
      exact sound_held hk hreached rfl trivial (namedTypes_sublist _ _ _)
    · rename_i henum
      cases henum
      exact sound_held hk hreached rfl trivial (List.Sublist.refl _)
    · exact hown trivial
    · exact hown trivial
    · trivial

/-- A look-up is answered by a scope or not at all. -/
theorem sound_lookup (ht : t.Rooted) {space : Namespace} :
    (lookup t.toForest (ScopeTree.build t) space site name).Sound t := by
  have hroute : ∀ route,
      (firstAnswer t.toForest (ScopeTree.build t) space name route).Sound t := by
    intro route
    induction route with
    | nil => trivial
    | cons i rest ih =>
      unfold firstAnswer
      cases hs : (ScopeTree.build t).scopes[i]? with
      | none => trivial
      | some s =>
        have hask : (ask t.toForest space name s).Sound t := sound_ask ht hs
        simp only [Option.map_some]
        split
        · trivial
        · exact ih
        · rename_i answer _ _ heq
          obtain rfl := Option.some.inj heq
          exact hask
  unfold lookup
  split
  · trivial
  · exact hroute _

/-- What a step of a path comes to is reached by the walk, and what it hesitates between are rivals.
-/
theorem sound_narrow (ha : a ∈ t.walk) : (narrow t.toForest a name).Sound t := by
  unfold narrow
  dsimp only
  split
  · rename_i hk
    exact sound_held hk ha rfl trivial (namedTypes_sublist _ _ _)
  · rename_i hk
    exact sound_held hk ha rfl trivial (List.Sublist.refl _)
  · rename_i fields members hk
    have happend : named t.toForest name fields ++ named t.toForest name members =
        named t.toForest name (fields ++ members) := (List.filter_append ..).symm
    rw [happend]
    exact sound_held hk ha rfl trivial (List.Sublist.refl _)
  · rename_i hk
    exact sound_held hk ha rfl trivial (List.Sublist.refl _)
  · trivial

/-- All steps of a path together come to a node of the walk or to rivals. -/
theorem sound_narrowAll (ha : a ∈ t.walk) (links : List Symbol) :
    (narrowAll t.toForest a links).Sound t := by
  induction links generalizing a with
  | nil => exact ha
  | cons link rest ih =>
    have hlink : (narrow t.toForest a link).Sound t := sound_narrow ha
    unfold narrowAll
    split
    · rename_i inner hinner
      rw [hinner] at hlink
      exact ih hlink
    · exact hlink

/-- The member that a path ends in is reached by the walk, and several members are rivals. -/
theorem sound_member (ha : a ∈ t.walk) {space : Namespace} :
    (member t.toForest space a name).Sound t := by
  unfold member
  split
  · rename_i hk
    exact sound_held hk ha rfl trivial (namedTypes_sublist _ _ _)
  · rename_i hk
    exact sound_held hk ha rfl trivial (List.Sublist.refl _)
  · rename_i hk
    exact sound_held hk ha rfl trivial (List.Sublist.refl _)
  · exact sound_narrow ha
  · trivial

theorem mem_walk_of_ancestor (ht : t.Rooted) (hsite : site ∈ t.walk) (ha : a ∈ t.ancestors site) :
    a ∈ t.walk := by
  induction site using Forest.parentInduction (f := t.toForest) with
  | top n hn => simp [Forest.ancestors_of_none hn] at ha
  | step n p hp ih =>
    have hparent := ht.parent_mem_walk hsite hp
    rw [Forest.ancestors_of_parent? hp, List.mem_cons] at ha
    rcases ha with rfl | ha
    · exact hparent
    · exact ih hparent ha

theorem sound_enclosingModule (ht : t.Rooted) (hsite : site ∈ t.walk) :
    (enclosingModule t.toForest site).Sound t := by
  unfold enclosingModule
  dsimp only
  split
  · rename_i m hm
    exact mem_walk_of_ancestor ht hsite (List.mem_of_find?_eq_some hm)
  · trivial

theorem sound_moduleNamed : (moduleNamed t.toForest t.root name).Sound t := by
  unfold moduleNamed
  split
  · rename_i modules hk
    exact sound_ofCandidates hk (Forest.self_mem_walkFrom _ _) (fun _ => rfl) trivial
      (List.Sublist.refl _)
  · trivial

/-- A qualifier leads to a node of the walk or to rivals. -/
theorem sound_resolveChain (ht : t.Rooted) (hsite : site ∈ t.walk) (q : Qualifier) :
    (resolveChain t.toForest t.root (ScopeTree.build t) site q).Sound t := by
  unfold resolveChain
  split
  · split
    · exact sound_enclosingModule ht hsite
    · trivial
  · rename_i head rest _
    have hfirst : (if q.fromRoot then moduleNamed t.toForest t.root head
        else lookup t.toForest (ScopeTree.build t) .types site head).Sound t := by
      split
      · exact sound_moduleNamed
      · exact sound_lookup ht
    dsimp only
    split
    · rename_i container hcontainer
      rw [hcontainer] at hfirst
      exact sound_narrowAll hfirst rest
    · exact hfirst

/-- Whatever the reference, several candidates are rivals. -/
theorem rivals_of_resolve (ht : t.Rooted) (hsite : site ∈ t.walk) {space : Namespace}
    {r : Reference} (h : resolve t (ScopeTree.build t) space site r = .error (.ambiguous c)) :
    ∃ name a k, Rivals t name a k c := by
  have houtcome : ∀ {answer : Answer}, answer.Sound t →
      answer.outcome = .error (.ambiguous c) → ∃ name a k, Rivals t name a k c := by
    intro answer hanswer hout
    cases answer with
    | ambiguous c' =>
      simp only [Answer.outcome, Except.error.injEq, ResolveError.ambiguous.injEq] at hout
      exact hout ▸ hanswer
    | _ => simp [Answer.outcome] at hout
  refine houtcome ?_ h
  split
  · exact sound_lookup ht
  · rename_i q _
    split
    · exact sound_lookup ht
    · have hchain := sound_resolveChain ht hsite q
      split
      · rename_i container hcontainer
        rw [hcontainer] at hchain
        exact sound_member hchain
      · exact hchain

end Answers

section Reports

variable {t : Tree} {name : Symbol} {a : NodeId} {k : Kind} {c declarations : List NodeId}

/-- The report says that a name is declared more than once, and points at the nodes. -/
def Accuses (t : Tree) (name : Symbol) (c : List NodeId) (r : Report) : Prop :=
  (r.message = .duplicatedModules (t.symbols.display name) ∨
    r.message = .duplicated (t.symbols.display name) ∨
    r.message = .duplicatedVariable (t.symbols.display name)) ∧
  ∀ d ∈ c, t.span d ∈ r.points

/-- Several declarations of one name among some are in one of the reports about those. -/
theorem exists_duplicate (message : String → Message) (hc : c.Nodup) (hseveral : 2 ≤ c.length)
    (hall : ∀ d ∈ c, d ∈ declarations ∧ t.name? d = some name) :
    ∃ r ∈ duplicates t message declarations,
      r.message = message (t.symbols.display name) ∧ ∀ d ∈ c, t.span d ∈ r.points := by
  have hgroup : ∀ d ∈ c, d ∈ declarations.filter fun n => t.name? n = some name := by
    intro d hd
    simpa using hall d hd
  have hmany : 1 < (declarations.filter fun n => t.name? n = some name).length := by
    have := (hc.subperm hgroup).length_le
    omega
  have hname : name ∈ (declarations.filterMap t.name?).eraseDups := by
    obtain ⟨d, hd⟩ := List.exists_mem_of_length_pos (l := c) (by omega)
    obtain ⟨hdecl, hd⟩ := hall d hd
    exact List.mem_eraseDups.2 (List.mem_filterMap.2 ⟨d, hdecl, hd⟩)
  have hsame : (name, declarations.filter fun n => t.name? n = some name) ∈
      sameNamed t.toForest declarations :=
    List.mem_filter.2 ⟨List.mem_map.2 ⟨name, hname, rfl⟩, by simpa using hmany⟩
  refine ⟨_, List.mem_map_of_mem hsame, rfl, fun d hd => ?_⟩
  exact List.mem_map_of_mem (hgroup d hd)

theorem mem_objectUniqueness (hk : t.kind? a = some k) (ha : a ∈ t.walk) {r : Report}
    (hr : r ∈ duplicatesIn t k) : r ∈ objectUniqueness t :=
  List.mem_flatMap.2 ⟨a, ha, by simpa [hk] using hr⟩

/-- Apart from the file and blocks, a node is checked for everything it holds at once. -/
theorem mem_duplicatesIn (hfile : k.isFile = false) (hblock : ∀ items, k ≠ .block items)
    {r : Report} (hr : r ∈ duplicates t .duplicated (t.holdings k)) : r ∈ duplicatesIn t k := by
  cases k with
  | file modules => simp [Kind.isFile] at hfile
  | block items => exact absurd rfl (hblock items)
  | _ => simp_all [Forest.holdings, Forest.scopeDeclarations, duplicatesIn, duplicates, sameNamed,
      Kind.params?]

/-- A block holds variables and functions only. -/
theorem isVariable_or_isFunction {f : Forest} {items : List NodeId} {d : NodeId}
    (hd : d ∈ f.holdings (.block items)) :
    d ∈ items.filter (isVariable f) ∨ d ∈ items.filter (isFunction f) := by
  obtain ⟨hmem, hbinds⟩ := List.mem_filter.1 hd
  simp only [List.mem_filter, hmem, true_and, isVariable, isFunction]
  unfold Forest.isLocalBinding at hbinds
  split at hbinds
  · simp_all
  · simp_all
  · simp at hbinds

/-- The functions and the variables of a block are checked apart, each as a whole. -/
theorem exists_report_of_block {items : List NodeId} (hc : c.Nodup) (hseveral : 2 ≤ c.length)
    (hall : ∀ d ∈ c, d ∈ t.holdings (.block items) ∧ t.name? d = some name)
    (hapart : (∀ d ∈ c, ¬ isVariable t.toForest d) ∨ ∀ d ∈ c, ¬ isFunction t.toForest d) :
    ∃ r ∈ duplicatesIn t (.block items), Accuses t name c r := by
  have hkinds : ∀ d ∈ c, d ∈ items.filter (isVariable t.toForest) ∨
      d ∈ items.filter (isFunction t.toForest) :=
    fun d hd => isVariable_or_isFunction (hall d hd).1
  rcases hapart with hnone | hnone
  · have hfunctions : ∀ d ∈ c, d ∈ items.filter (isFunction t.toForest) ∧ t.name? d = some name :=
      fun d hd => ⟨(hkinds d hd).resolve_left fun h => hnone d hd (List.mem_filter.1 h).2,
        (hall d hd).2⟩
    obtain ⟨r, hr, hmessage, hpoints⟩ := exists_duplicate .duplicated hc hseveral hfunctions
    exact ⟨r, by simp [duplicatesIn, hr], Or.inr (Or.inl hmessage), hpoints⟩
  · have hvariables : ∀ d ∈ c, d ∈ items.filter (isVariable t.toForest) ∧ t.name? d = some name :=
      fun d hd => ⟨(hkinds d hd).resolve_right fun h => hnone d hd (List.mem_filter.1 h).2,
        (hall d hd).2⟩
    obtain ⟨r, hr, hmessage, hpoints⟩ := exists_duplicate .duplicatedVariable hc hseveral hvariables
    exact ⟨r, by simp [duplicatesIn, hr], Or.inr (Or.inr hmessage), hpoints⟩

/-- Rivals are reported as duplicates, unless they are a variable and a function of one block, which
are checked apart. -/
theorem Rivals.reported (ht : t.Rooted) (h : Rivals t name a k c) :
    (∃ r ∈ moduleUniqueness t ++ objectUniqueness t, Accuses t name c r) ∨
      (∃ items, t.kind? a = some (.block items)) ∧ (∃ v ∈ c, isVariable t.toForest v) ∧
        ∃ g ∈ c, isFunction t.toForest g := by
  have hc := h.nodup ht
  have hall : ∀ d ∈ c, d ∈ t.holdings k ∧ t.name? d = some name := fun d => h.mem_holdings
  by_cases hblock : ∃ items, k = .block items
  · obtain ⟨items, rfl⟩ := hblock
    by_cases hapart : (∀ d ∈ c, ¬ isVariable t.toForest d) ∨ ∀ d ∈ c, ¬ isFunction t.toForest d
    · obtain ⟨r, hr, haccuses⟩ := exists_report_of_block hc h.several hall hapart
      exact Or.inl ⟨r, List.mem_append_right _ (mem_objectUniqueness h.kind h.reached hr), haccuses⟩
    · push Not at hapart
      exact Or.inr ⟨⟨items, h.kind⟩, hapart⟩
  · left
    by_cases hfile : k.isFile = true
    · obtain rfl := h.file hfile
      cases k with
      | file modules =>
        obtain ⟨r, hr, hmessage, hpoints⟩ := exists_duplicate .duplicatedModules hc h.several hall
        have hmodules : r ∈ moduleUniqueness t := by
          simp only [moduleUniqueness, h.kind]
          exact List.mem_append_left _ hr
        exact ⟨r, List.mem_append_left _ hmodules, Or.inl hmessage, hpoints⟩
      | _ => simp [Kind.isFile] at hfile
    · obtain ⟨r, hr, hmessage, hpoints⟩ := exists_duplicate .duplicated hc h.several hall
      have hin := mem_duplicatesIn (by simpa using hfile) (fun items heq => hblock ⟨items, heq⟩) hr
      exact ⟨r, List.mem_append_right _ (mem_objectUniqueness h.kind h.reached hin),
        Or.inr (Or.inl hmessage), hpoints⟩

end Reports

/-- Every ambiguity is reported as a duplicate: the candidates are at least two nodes that declare
one name directly inside one node, and one report of the uniqueness checks points at all of them,
unless they are a variable and a function of one block. -/
theorem ambiguities_reported {t : Tree} (ht : t.Rooted) {site : NodeId} (hsite : site ∈ t.walk)
    {space : Namespace} {r : Reference} {c : List NodeId}
    (h : resolve t (ScopeTree.build t) space site r = .error (.ambiguous c)) :
    2 ≤ c.length ∧ c.Nodup ∧
      ∃ name a, (∀ d ∈ c, t.name? d = some name ∧ d ∈ t.children a) ∧
        ((∃ report ∈ moduleUniqueness t ++ objectUniqueness t, Accuses t name c report) ∨
          (∃ items, t.kind? a = some (.block items)) ∧ (∃ v ∈ c, isVariable t.toForest v) ∧
            ∃ g ∈ c, isFunction t.toForest g) := by
  obtain ⟨name, a, k, hrivals⟩ := rivals_of_resolve ht hsite h
  refine ⟨hrivals.several, hrivals.nodup ht, name, a, fun d hd => ?_, hrivals.reported ht⟩
  exact ⟨(hrivals.mem_holdings hd).2, hrivals.mem_children hd⟩

/-- A struct with a field and a method of one name, and a reference that is led to it through the
module. -/
def fieldAndMethod : Tree := Tree.ofKinds [
  .parameter ⟨1⟩ none, .number "1", .function ⟨1⟩ [] none ⟨1⟩, .structDecl ⟨2⟩ [⟨0⟩] [⟨2⟩],
  .reference ⟨⟨1⟩, some ⟨true, [⟨4⟩, ⟨2⟩]⟩⟩, .function ⟨3⟩ [] none ⟨4⟩,
  .moduleDecl ⟨4⟩ true [⟨3⟩, ⟨5⟩], .file [⟨6⟩]]

theorem ambiguities_reported_qualified : fieldAndMethod.Rooted ∧ ⟨4⟩ ∈ fieldAndMethod.walk ∧
    resolve fieldAndMethod (ScopeTree.build fieldAndMethod) .values ⟨4⟩
      ⟨⟨1⟩, some ⟨true, [⟨4⟩, ⟨2⟩]⟩⟩ = .error (.ambiguous [⟨0⟩, ⟨2⟩]) ∧
    ∃ report ∈ moduleUniqueness fieldAndMethod ++ objectUniqueness fieldAndMethod,
      Accuses fieldAndMethod ⟨1⟩ [⟨0⟩, ⟨2⟩] report := by
  have ht : fieldAndMethod.Rooted := by decide +kernel
  have hsite : ⟨4⟩ ∈ fieldAndMethod.walk := by decide +kernel
  have hanswer : resolve fieldAndMethod (ScopeTree.build fieldAndMethod) .values ⟨4⟩
      ⟨⟨1⟩, some ⟨true, [⟨4⟩, ⟨2⟩]⟩⟩ = .error (.ambiguous [⟨0⟩, ⟨2⟩]) := by decide +kernel
  obtain ⟨-, -, name, a, hnamed, hreported⟩ := ambiguities_reported ht hsite hanswer
  have hname : fieldAndMethod.name? ⟨0⟩ = some name := (hnamed ⟨0⟩ (by simp)).1
  obtain rfl : ⟨1⟩ = name := Option.some.inj hname
  rcases hreported with hreport | ⟨-, hvariable, -⟩
  · exact ⟨ht, hsite, hanswer, hreport⟩
  · exact absurd hvariable (by decide +kernel)

end SemanticAnalysis
