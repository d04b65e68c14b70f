import SemanticAnalysis.Proofs.AmbiguousNames

/-!
Absolute paths. A path from the modules of the file names an item of a module, a field
or member of a struct or trait of a module, or an entry of an enum of a module. Where
no two declarations held by one file, module or type share a name, a path resolves to
the declaration that it names, wherever it stands, and to nothing if it names none.
-/

namespace SemanticAnalysis

open Resolution

namespace Kind

def isModule : Kind → Bool
  | .moduleDecl _ _ _ => true
  | _ => false

def hasMembers : Kind → Bool
  | .structDecl _ _ _ | .traitDecl _ _ => true
  | _ => false

def isEnum : Kind → Bool
  | .enumDecl _ _ => true
  | _ => false

/-- Whether paths lead through a node: the file, or a module or type of it. -/
def isPlace (k : Kind) : Bool := k.isFile || k.isModule || k.hasMembers || k.isEnum

end Kind

def Forest.Holds (f : Forest) (test : Kind → Bool) (a : NodeId) (name : Symbol) (d : NodeId) :
    Prop :=
  ∃ k, f.kind? a = some k ∧ test k = true ∧ d ∈ f.holdings k ∧ f.name? d = some name

def Forest.IsType (f : Forest) (n : NodeId) : Prop := (f.kind? n).any Kind.isTypeDecl = true

namespace Tree

/-- What a path of names from the file names: an item of a module, which is a type if a type is
asked for; a field or member of a struct or trait of a module, if a value is asked for; or an entry
of an enum of a module. -/
inductive PathTo (t : Tree) (space : Namespace) : List Symbol → Symbol → NodeId → Prop where
  | item {m d : NodeId} {moduleName name : Symbol}
      (hm : t.Holds Kind.isFile t.root moduleName m) (hd : t.Holds Kind.isModule m name d)
      (htype : space = .types → t.IsType d) : PathTo t space [moduleName] name d
  | member {m s d : NodeId} {moduleName typeName name : Symbol}
      (hm : t.Holds Kind.isFile t.root moduleName m) (hs : t.Holds Kind.isModule m typeName s)
      (hd : t.Holds Kind.hasMembers s name d) (hspace : space = .values) :
      PathTo t space [moduleName, typeName] name d
  | entry {m e d : NodeId} {moduleName enumName name : Symbol}
      (hm : t.Holds Kind.isFile t.root moduleName m) (he : t.Holds Kind.isModule m enumName e)
      (hd : t.Holds Kind.isEnum e name d) : PathTo t space [moduleName, enumName] name d

/-- No two declarations held by the file, a module, a struct, a trait or an enum share a name. -/
def NamesApart (t : Tree) : Prop :=
  ∀ n k, t.kind? n = some k → k.isPlace = true → ((t.holdings k).filterMap t.name?).Nodup

instance (t : Tree) : Decidable t.NamesApart := decidable_of_iff _ forall_kind_iff.symm

end Tree

section Answers

variable {f : Forest} {answer first : Answer} {P : NodeId → Prop} {Q : NodeId → NodeId → Prop}
  {a d : NodeId} {k : Kind} {name link : Symbol} {l c : List NodeId}

/-- An answer gives the one node that has a property, and nothing where there is none. -/
structure Resolution.Answer.Tells (answer : Answer) (P : NodeId → Prop) : Prop where
  found : ∀ d, P d → answer = .found d
  absent : (∀ d, ¬ P d) → answer = .absent

theorem Resolution.Answer.Tells.of_found (h : answer.Tells P) (hd : answer = .found d) : P d := by
  by_contra hnot
  by_cases hsome : ∃ c, P c
  · obtain ⟨c, hc⟩ := hsome
    have heq := hd.symm.trans (h.found c hc)
    cases heq
    exact hnot hc
  · have heq := hd.symm.trans (h.absent fun c hc => hsome ⟨c, hc⟩)
    cases heq

/-- An answer that goes on from another one. -/
theorem Resolution.Answer.Tells.bind (h : first.Tells P)
    (hfound : ∀ c, first = .found c → answer.Tells (Q c))
    (habsent : first = .absent → answer = .absent) : answer.Tells fun d => ∃ c, P c ∧ Q c d where
  found d hd := by
    obtain ⟨c, hc, hd⟩ := hd
    exact (hfound c (h.found c hc)).found d hd
  absent hnone := by
    by_cases hsome : ∃ c, P c
    · obtain ⟨c, hc⟩ := hsome
      exact (hfound c (h.found c hc)).absent fun d hd => hnone d ⟨c, hc, hd⟩
    · exact habsent (h.absent fun c hc => hsome ⟨c, hc⟩)

theorem Resolution.Answer.Tells.outcome (h : answer.Tells P) :
    (∀ d, answer.outcome = .ok d ↔ P d) ∧
      ((∀ d, ¬ P d) → answer.outcome = .error .notFound) := by
  refine ⟨fun d => ⟨fun hd => ?_, fun hd => by rw [h.found d hd]; rfl⟩, fun hnone => by
    rw [h.absent hnone]; rfl⟩
  cases answer with
  | found c =>
    cases hd
    exact h.of_found rfl
  | _ => cases hd

theorem tells_ofCandidates (hlen : c.length ≤ 1) (hP : ∀ d, d ∈ c ↔ P d) :
    (Answer.ofCandidates .absent c).Tells P := by
  rcases c with _ | ⟨x, _ | ⟨y, rest⟩⟩
  · refine ⟨fun d hd => ?_, fun _ => rfl⟩
    exact absurd ((hP d).2 hd) (by simp)
  · refine ⟨fun d hd => ?_, fun hnone => absurd ((hP x).1 (by simp)) (hnone x)⟩
    rw [List.mem_singleton.1 ((hP d).2 hd)]
    rfl
  · simp at hlen

theorem mem_named : d ∈ named f name l ↔ d ∈ l ∧ f.name? d = some name := by
  simp [named]

theorem mem_namedTypes :
    d ∈ namedTypes f name l ↔ (d ∈ l ∧ f.name? d = some name) ∧ f.IsType d := by
  simp only [namedTypes, List.mem_filter, Forest.IsType, Forest.name?]
  cases f.kind? d with
  | none => simp
  | some k =>
    simp only [Option.any_some, Option.bind_some, Bool.and_eq_true, decide_eq_true_eq]
    tauto

/-- Where names are apart, a name has at most one candidate. -/
theorem length_named_le (h : (l.filterMap f.name?).Nodup) : (named f name l).length ≤ 1 := by
  have hcount : (named f name l).length = (l.filterMap f.name?).count name := by
    rw [List.count_filterMap, named, ← List.countP_eq_length_filter]
    exact List.countP_congr fun n _ => by simp
  rw [hcount]
  exact List.nodup_iff_count_le_one.1 h name

theorem length_namedTypes_le (h : (l.filterMap f.name?).Nodup) :
    (namedTypes f name l).length ≤ 1 :=
  Nat.le_trans (namedTypes_sublist f name l).length_le (length_named_le h)

end Answers

section Steps

variable {t : Tree} {test : Kind → Bool} {a c d m : NodeId} {k : Kind} {name link : Symbol}
  {links : List Symbol} {space : Namespace}

theorem holds_iff (hk : t.kind? a = some k) : t.Holds test a name d ↔
    test k = true ∧ d ∈ t.holdings k ∧ t.name? d = some name := by
  constructor
  · intro h
    obtain ⟨k', hk', h⟩ := h
    cases hk.symm.trans hk'
    exact h
  · exact fun h => ⟨k, hk, h⟩

theorem not_holds (hk : t.kind? a = none) : ¬ t.Holds test a name d := by
  intro h
  obtain ⟨k, hk', -⟩ := h
  cases hk.symm.trans hk'

/-- A link of a path leads from a module to a type of it, and from a type to what it holds. -/
def Tree.LinksTo (t : Tree) (a : NodeId) (link : Symbol) (d : NodeId) : Prop :=
  (t.Holds Kind.isModule a link d ∧ t.IsType d) ∨ t.Holds Kind.hasMembers a link d ∨
    t.Holds Kind.isEnum a link d

/-- The last name of a path is that of an item of a module, of a type if a type is asked for, of an
entry, or of a field or member if a value is asked for. -/
def Tree.EndsIn (t : Tree) (space : Namespace) (a : NodeId) (name : Symbol) (d : NodeId) : Prop :=
  (t.Holds Kind.isModule a name d ∧ (space = .types → t.IsType d)) ∨ t.Holds Kind.isEnum a name d ∨
    (t.Holds Kind.hasMembers a name d ∧ space = .values)

def Tree.Follows (t : Tree) (a : NodeId) : List Symbol → NodeId → Prop
  | [], d => a = d
  | link :: rest, d => ∃ c, t.LinksTo a link c ∧ t.Follows c rest d

attribute [local simp] Tree.LinksTo Tree.EndsIn Kind.isModule Kind.hasMembers Kind.isEnum
  Kind.isFile Forest.holdings Forest.scopeDeclarations mem_named mem_namedTypes

/-- The module that a path starts with is the one of that name in the file. -/
theorem moduleNamed_tells (ht : t.NamesApart) (name : Symbol) :
    (moduleNamed t.toForest t.root name).Tells (t.Holds Kind.isFile t.root name) := by
  unfold moduleNamed
  cases hk : t.kind? t.root with
  | none => exact ⟨fun d hd => absurd hd (not_holds hk), fun _ => rfl⟩
  | some k =>
    have hapart := ht t.root k hk
    cases k with
    | file modules =>
      exact tells_ofCandidates (length_named_le (hapart rfl)) fun d => by simp [holds_iff hk]
    | _ => exact ⟨fun d hd => by simp [holds_iff hk] at hd, fun _ => rfl⟩

/-- Where names are apart, one step of a path comes to the one declaration it may lead to. -/
theorem narrow_tells (ht : t.NamesApart) (a : NodeId) (link : Symbol) :
    (narrow t.toForest a link).Tells (t.LinksTo a link) := by
  unfold narrow
  cases hk : t.kind? a with
  | none => exact tells_ofCandidates (Nat.zero_le _) fun d => by simp [not_holds hk]
  | some k =>
    have hapart := ht a k hk
    cases k with
    | moduleDecl _ _ items =>
      exact tells_ofCandidates (length_namedTypes_le (hapart rfl)) fun d => by simp [holds_iff hk]
    | structDecl _ fields members =>
      have hlen : (named t.toForest link fields ++ named t.toForest link members).length ≤ 1 := by
        have happend : named t.toForest link fields ++ named t.toForest link members =
            named t.toForest link (fields ++ members) := (List.filter_append ..).symm
        rw [happend]
        exact length_named_le (hapart rfl)
      refine tells_ofCandidates hlen fun d => ?_
      simp [holds_iff hk, or_and_right]
    | traitDecl _ members =>
      exact tells_ofCandidates (length_named_le (hapart rfl)) fun d => by simp [holds_iff hk]
    | enumDecl _ entries =>
      exact tells_ofCandidates (length_named_le (hapart rfl)) fun d => by simp [holds_iff hk]
    | _ => exact tells_ofCandidates (Nat.zero_le _) fun d => by simp [holds_iff hk]

theorem narrowAll_tells (ht : t.NamesApart) (a : NodeId) (links : List Symbol) :
    (narrowAll t.toForest a links).Tells (t.Follows a links) := by
  induction links generalizing a with
  | nil => exact ⟨fun d hd => congrArg _ hd, fun hnone => absurd rfl (hnone a)⟩
  | cons link rest ih =>
    refine (narrow_tells ht a link).bind (fun c hc => ?_) fun habsent => ?_
    · simpa only [narrowAll, hc] using ih c
    · simp only [narrowAll, habsent]

/-- The last name of a path is matched by the one declaration that it may end in. -/
theorem member_tells (ht : t.NamesApart) (space : Namespace) (a : NodeId) (name : Symbol) :
    (member t.toForest space a name).Tells (t.EndsIn space a name) := by
  have hnone : (∀ d, ¬ t.EndsIn space a name d) → Answer.absent.Tells (t.EndsIn space a name) :=
    fun hno => ⟨fun d hd => absurd hd (hno d), fun _ => rfl⟩
  have hlinks : ∀ {P : NodeId → Prop}, (∀ d, t.LinksTo a name d ↔ P d) →
      (narrow t.toForest a name).Tells P := by
    intro P hP
    have hnarrow := narrow_tells ht a name
    exact ⟨fun d hd => hnarrow.found d ((hP d).2 hd),
      fun hno => hnarrow.absent fun d hd => hno d ((hP d).1 hd)⟩
  unfold member
  cases hk : t.kind? a with
  | none =>
    cases space with
    | values => exact hlinks fun d => by simp [not_holds hk]
    | types => exact hnone fun d => by simp [not_holds hk]
  | some k =>
    have hapart := ht a k hk
    cases k with
    | moduleDecl _ _ items =>
      cases space with
      | values =>
        exact tells_ofCandidates (length_named_le (hapart rfl)) fun d => by simp [holds_iff hk]
      | types =>
        exact tells_ofCandidates (length_namedTypes_le (hapart rfl)) fun d => by simp [holds_iff hk]
    | enumDecl _ entries =>
      cases space <;>
        exact tells_ofCandidates (length_named_le (hapart rfl)) fun d => by simp [holds_iff hk]
    | _ =>
      cases space with
      | values => exact hlinks fun d => by simp [holds_iff hk]
      | types => exact hnone fun d => by simp [holds_iff hk]

/-- What an absolute path resolves to, link by link. -/
theorem resolve_tells (ht : t.NamesApart) (scopes : ScopeTree) (site : NodeId) (head : Symbol) :
    ∃ answer : Answer,
      resolve t scopes space site ⟨name, some ⟨true, head :: links⟩⟩ = answer.outcome ∧
      answer.Tells fun d => ∃ c, (∃ m, t.Holds Kind.isFile t.root head m ∧ t.Follows m links c) ∧
        t.EndsIn space c name d := by
  refine ⟨_, rfl, ?_⟩
  have hchain : (resolveChain t.toForest t.root scopes site ⟨true, head :: links⟩).Tells
      fun c => ∃ m, t.Holds Kind.isFile t.root head m ∧ t.Follows m links c := by
    refine (moduleNamed_tells ht head).bind (fun m hm => ?_) fun habsent => ?_
    · simpa only [resolveChain, if_true, hm] using narrowAll_tells ht m links
    · simp only [resolveChain, if_true, habsent]
  have hvacuous : isVacuous ⟨true, head :: links⟩ = false := rfl
  refine hchain.bind (fun c hc => ?_) fun habsent => ?_
  · simpa only [hvacuous, Bool.false_eq_true, if_false, hc] using member_tells ht space c name
  · simp only [hvacuous, Bool.false_eq_true, if_false, habsent]

end Steps

section Paths

variable {t : Tree} {test : Kind → Bool} {a c d m : NodeId} {k : Kind} {head name link : Symbol}
  {links : List Symbol} {space : Namespace}

/-- A file has modules in its places. -/
theorem Kind.isModule_of_place {kd : Kind} {role : Role} (hk : k.isFile = true)
    (hplace : (role, d) ∈ k.places) (hrole : role ∈ kd.roles) : kd.isModule = true := by
  cases k <;> simp [Kind.isFile] at hk
  obtain ⟨-, rfl⟩ : _ ∧ Role.fileItem = role := by simpa [Kind.places] using hplace
  cases kd <;> simp_all [Kind.roles, Kind.isTypeDecl, Kind.isTypeExpr, Kind.isModule]

/-- No path leads through what stands in the places of a type. -/
theorem Kind.not_isPlace_of_place {kd : Kind} {role : Role}
    (hk : k.hasMembers = true ∨ k.isEnum = true) (hplace : (role, d) ∈ k.places)
    (hrole : role ∈ kd.roles) : kd.isPlace = false := by
  have hroles : role = .parameter ∨ role = .member ∨ role = .entry := by
    cases k <;> simp [Kind.hasMembers, Kind.isEnum] at hk <;> simp [Kind.places] at hplace <;> grind
  cases kd <;> rcases hroles with rfl | rfl | rfl <;>
    simp_all [Kind.roles, Kind.isTypeDecl, Kind.isTypeExpr, Kind.isPlace, Kind.isFile,
      Kind.isModule, Kind.hasMembers, Kind.isEnum]

/-- What a node holds stands in one of its places. -/
theorem Tree.WellFormed.kind_of_holds (ht : t.WellFormed) (h : t.Holds test a name d) :
    ∃ k kd role, t.kind? a = some k ∧ test k = true ∧ (role, d) ∈ k.places ∧
      t.kind? d = some kd ∧ role ∈ kd.roles := by
  obtain ⟨k, hk, htest, hd, -⟩ := h
  obtain ⟨role, hplace⟩ :=
    Kind.exists_place_of_mem_children ((t.holdings_sublist_children k).subset hd)
  obtain ⟨-, kd, hkd, hadmits⟩ := ht.child_fits hk hplace
  exact ⟨k, kd, role, hk, htest, hplace, hkd, Role.admits_iff.1 hadmits⟩

theorem isType_of_holds (h : t.Holds Kind.hasMembers a name d ∨ t.Holds Kind.isEnum a name d) :
    t.IsType a := by
  rcases h with ⟨k, hk, htest, -⟩ | ⟨k, hk, htest, -⟩ <;>
    cases k <;> simp_all [Kind.hasMembers, Kind.isEnum, Forest.IsType, Kind.isTypeDecl]

theorem not_isType_of_holds (h : t.Holds Kind.isModule a name d) : ¬ t.IsType a := by
  obtain ⟨k, hk, htest, -⟩ := h
  cases k <;> simp_all [Kind.isModule, Forest.IsType, Kind.isTypeDecl]

/-- A module is not a type, so it holds items only. -/
theorem Tree.WellFormed.module_not_isType (ht : t.WellFormed)
    (hm : t.Holds Kind.isFile t.root head m) : ¬ t.IsType m := by
  obtain ⟨kf, km, role, -, hfile, hplace, hkm, hrole⟩ := ht.kind_of_holds hm
  have hmodule := Kind.isModule_of_place hfile hplace hrole
  cases km <;> simp_all [Kind.isModule, Forest.IsType, Kind.isTypeDecl]

/-- A path ends at what it comes to inside a type. -/
theorem Tree.WellFormed.no_path_below (ht : t.WellFormed)
    (h : t.Holds Kind.hasMembers a link c ∨ t.Holds Kind.isEnum a link c) :
    (∀ name d, ¬ t.LinksTo c name d) ∧ ∀ space name d, ¬ t.EndsIn space c name d := by
  obtain ⟨kc, hkc, hplace⟩ : ∃ kc, t.kind? c = some kc ∧ kc.isPlace = false := by
    rcases h with h | h
    · obtain ⟨k, kc, role, -, htest, hplace, hkc, hrole⟩ := ht.kind_of_holds h
      exact ⟨kc, hkc, Kind.not_isPlace_of_place (Or.inl htest) hplace hrole⟩
    · obtain ⟨k, kc, role, -, htest, hplace, hkc, hrole⟩ := ht.kind_of_holds h
      exact ⟨kc, hkc, Kind.not_isPlace_of_place (Or.inr htest) hplace hrole⟩
  simp only [Kind.isPlace, Bool.or_eq_false_iff] at hplace
  simp [Tree.LinksTo, Tree.EndsIn, holds_iff hkc, hplace]

/-- Links from a module lead to it itself or go on from a type of it. -/
theorem Tree.Follows.cases (h : t.Follows m links c) (hm : ¬ t.IsType m) :
    (links = [] ∧ m = c) ∨
      ∃ link s rest, links = link :: rest ∧ t.Holds Kind.isModule m link s ∧ t.IsType s ∧
        t.Follows s rest c := by
  cases links with
  | nil => exact Or.inl ⟨rfl, h⟩
  | cons link rest =>
    obtain ⟨s, ⟨hs, htype⟩ | hinside, hrest⟩ := h
    · exact Or.inr ⟨link, s, rest, rfl, hs, htype, hrest⟩
    · exact absurd (isType_of_holds hinside) hm

/-- A path names what its links lead to. -/
theorem Tree.WellFormed.pathTo_iff (ht : t.WellFormed) :
    t.PathTo space (head :: links) name d ↔
      ∃ c, (∃ m, t.Holds Kind.isFile t.root head m ∧ t.Follows m links c) ∧
        t.EndsIn space c name d := by
  constructor
  · intro h
    cases h with
    | @item m _ _ _ hm hd htype => exact ⟨m, ⟨m, hm, rfl⟩, Or.inl ⟨hd, htype⟩⟩
    | @member m s _ _ _ _ hm hs hd hspace =>
      have htype := isType_of_holds (Or.inl hd)
      exact ⟨s, ⟨m, hm, s, Or.inl ⟨hs, htype⟩, rfl⟩, Or.inr (Or.inr ⟨hd, hspace⟩)⟩
    | @entry m e _ _ _ _ hm he hd =>
      have htype := isType_of_holds (Or.inr hd)
      exact ⟨e, ⟨m, hm, e, Or.inl ⟨he, htype⟩, rfl⟩, Or.inr (Or.inl hd)⟩
  · intro h
    obtain ⟨c, ⟨m, hm, hfollows⟩, hends⟩ := h
    have hmodule := ht.module_not_isType hm
    rcases hfollows.cases hmodule with ⟨rfl, rfl⟩ | ⟨link, s, rest, rfl, hs, htype, hrest⟩
    · rcases hends with ⟨hd, htype⟩ | hd | ⟨hd, -⟩
      · exact .item hm hd htype
      · exact absurd (isType_of_holds (Or.inr hd)) hmodule
      · exact absurd (isType_of_holds (Or.inl hd)) hmodule
    · cases rest with
      | nil =>
        obtain rfl : s = c := hrest
        rcases hends with ⟨hd, -⟩ | hd | ⟨hd, hspace⟩
        · exact absurd htype (not_isType_of_holds hd)
        · exact .entry hm hs hd
        · exact .member hm hs hd hspace
      | cons next rest =>
        -- What a type holds leads nowhere, so neither a further link nor the last name goes on.
        obtain ⟨x, hnext, hrest⟩ := hrest
        have hinside := hnext.resolve_left fun hx => not_isType_of_holds hx.1 htype
        obtain ⟨hnolink, hnoend⟩ := ht.no_path_below hinside
        cases rest with
        | nil =>
          obtain rfl : x = c := hrest
          exact absurd hends (hnoend space name d)
        | cons last rest =>
          obtain ⟨y, hy, -⟩ := hrest
          exact absurd hy (hnolink last y)

/-- In a well-formed tree in which no two declarations held by the file, a module, a struct, a trait
or an enum share a name, a path from the modules of the file resolves to a node exactly if it names
it: an item of a module, a field or member of a struct or trait, or an entry of an enum, of which
only types and entries are found as types. Every other such path is not found. The place where the
path stands makes no difference. -/
theorem absolute_paths_resolve {t : Tree} (ht : t.WellFormed) (hnames : t.NamesApart)
    (scopes : ScopeTree) (space : Namespace) (site : NodeId) (head : Symbol) (links : List Symbol)
    (name : Symbol) :
    (∀ d, resolve t scopes space site ⟨name, some ⟨true, head :: links⟩⟩ = .ok d ↔
      t.PathTo space (head :: links) name d) ∧
    ((∀ d, ¬ t.PathTo space (head :: links) name d) →
      resolve t scopes space site ⟨name, some ⟨true, head :: links⟩⟩ = .error .notFound) ∧
    ∀ site', resolve t scopes space site' ⟨name, some ⟨true, head :: links⟩⟩ =
      resolve t scopes space site ⟨name, some ⟨true, head :: links⟩⟩ := by
  obtain ⟨answer, hanswer, htells⟩ := resolve_tells hnames scopes site head
  obtain ⟨hfound, hlost⟩ := htells.outcome
  rw [hanswer]
  refine ⟨fun d => (hfound d).trans ht.pathTo_iff.symm, fun hnone => hlost fun d hd => ?_,
    fun site' => ?_⟩
  · exact hnone d (ht.pathTo_iff.2 hd)
  · rw [← hanswer]
    rfl

/-- A module with a struct, which has a field and a method, and with an enum, and a second
module. -/
def twoModules : Tree := Tree.ofKinds [
  .parameter ⟨1⟩ none, .number "1", .function ⟨2⟩ [] none ⟨1⟩, .structDecl ⟨3⟩ [⟨0⟩] [⟨2⟩],
  .enumEntry ⟨4⟩, .enumDecl ⟨5⟩ [⟨4⟩], .moduleDecl ⟨6⟩ false [⟨3⟩, ⟨5⟩],
  .reference ⟨⟨2⟩, some ⟨true, [⟨6⟩, ⟨3⟩]⟩⟩, .function ⟨2⟩ [] none ⟨7⟩,
  .moduleDecl ⟨7⟩ false [⟨8⟩], .file [⟨6⟩, ⟨9⟩]]

theorem absolute_paths_resolve_twoModules : twoModules.WellFormed ∧ twoModules.NamesApart ∧
    (∀ scopes site,
      resolve twoModules scopes .values site ⟨⟨2⟩, some ⟨true, [⟨6⟩, ⟨3⟩]⟩⟩ = .ok ⟨2⟩) ∧
    (∀ scopes site,
      resolve twoModules scopes .types site ⟨⟨4⟩, some ⟨true, [⟨6⟩, ⟨5⟩]⟩⟩ = .ok ⟨4⟩) ∧
    ∀ d, ¬ twoModules.PathTo .types [⟨6⟩, ⟨3⟩] ⟨2⟩ d := by
  have ht : twoModules.WellFormed := by decide
  have hnames : twoModules.NamesApart := by decide
  have hmodule : twoModules.Holds Kind.isFile twoModules.root ⟨6⟩ ⟨6⟩ :=
    ⟨.file [⟨6⟩, ⟨9⟩], rfl, rfl, by decide, rfl⟩
  refine ⟨ht, hnames, fun scopes site => ?_, fun scopes site => ?_, fun d hd => ?_⟩
  · refine ((absolute_paths_resolve ht hnames scopes .values site _ _ _).1 _).2 ?_
    have hstruct : twoModules.Holds Kind.isModule ⟨6⟩ ⟨3⟩ ⟨3⟩ := ⟨_, rfl, rfl, by decide, rfl⟩
    exact .member hmodule hstruct ⟨_, rfl, rfl, by decide, rfl⟩ rfl
  · refine ((absolute_paths_resolve ht hnames scopes .types site _ _ _).1 _).2 ?_
    have henum : twoModules.Holds Kind.isModule ⟨6⟩ ⟨5⟩ ⟨5⟩ := ⟨_, rfl, rfl, by decide, rfl⟩
    exact .entry hmodule henum ⟨_, rfl, rfl, by decide, rfl⟩
  · have hok := ((absolute_paths_resolve ht hnames (ScopeTree.build twoModules) .types ⟨7⟩
      _ _ _).1 d).2 hd
    have hlost : resolve twoModules (ScopeTree.build twoModules) .types ⟨7⟩
        ⟨⟨2⟩, some ⟨true, [⟨6⟩, ⟨3⟩]⟩⟩ = .error .notFound := by decide +kernel
    rw [hlost] at hok
    cases hok

end Paths

end SemanticAnalysis
