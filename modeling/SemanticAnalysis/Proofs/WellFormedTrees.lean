import Mathlib.Tactic.ByContra
import SemanticAnalysis.Names.Scope
import SemanticAnalysis.Proofs.Walks

/-!
Well-formed trees: a file of modules in which every other node stands in exactly
one place, and every place holds a node of a kind that may stand there. What
stands above a node is then known from its kind, and the other way round.
-/

namespace SemanticAnalysis

namespace Kind

/-- The last of some nodes, numbered from `i` on, that names a node as a child. -/
def lastNaming (c : NodeId) (i : Nat) : List Kind → Option NodeId
  | [] => none
  | k :: rest => (lastNaming c (i + 1) rest).or (if c ∈ k.children then some ⟨i⟩ else none)

/-- The last node that names another one does name it. -/
theorem names_of_lastNaming {c p : NodeId} {i : Nat} {kinds : List Kind}
    (h : lastNaming c i kinds = some p) :
    ∃ j k, p.index = i + j ∧ kinds[j]? = some k ∧ c ∈ k.children := by
  induction kinds generalizing i with
  | nil => simp [lastNaming] at h
  | cons k rest ih =>
    rcases Option.or_eq_some_iff.1 h with h | ⟨-, h⟩
    · obtain ⟨j, m, hp, hm, hc⟩ := ih h
      exact ⟨j + 1, m, by omega, hm, hc⟩
    · obtain ⟨hc, rfl⟩ : c ∈ k.children ∧ ⟨i⟩ = p := by simpa using h
      exact ⟨0, k, rfl, rfl, hc⟩

/-- A node that some node names is named last by that node or a later one. -/
theorem le_lastNaming {c : NodeId} {i j : Nat} {k : Kind} {kinds : List Kind}
    (hk : kinds[j]? = some k) (hc : c ∈ k.children) :
    ∃ p, lastNaming c i kinds = some p ∧ i + j ≤ p.index := by
  induction kinds generalizing i j with
  | nil => simp at hk
  | cons m rest ih =>
    cases j with
    | zero =>
      obtain rfl : m = k := by simpa using hk
      cases hp : lastNaming c (i + 1) rest with
      | none => exact ⟨⟨i⟩, by simp [lastNaming, hp, hc], Nat.le_refl _⟩
      | some p =>
        obtain ⟨j, -, hp', -⟩ := names_of_lastNaming hp
        exact ⟨p, by simp [lastNaming, hp], by omega⟩
    | succ j =>
      obtain ⟨p, hp, hle⟩ := ih (i := i + 1) hk
      exact ⟨p, by simp [lastNaming, hp], by omega⟩

end Kind

def Node.ofKinds (kinds : List Kind) : Array Node :=
  (kinds.zipIdx.map fun p => ⟨p.1, ⟨p.2, p.2 + 1⟩, Kind.lastNaming ⟨p.2⟩ 0 kinds⟩).toArray

theorem Node.getElem?_ofKinds (kinds : List Kind) (i : Nat) : (ofKinds kinds)[i]? =
    kinds[i]?.map fun k => ⟨k, ⟨i, i + 1⟩, Kind.lastNaming ⟨i⟩ 0 kinds⟩ := by
  cases h : kinds[i]? <;> simp [ofKinds, List.getElem?_zipIdx, h]

theorem Node.names_ofKinds {kinds : List Kind} {p c : NodeId} :
    Names (ofKinds kinds) p c ↔ ∃ k, kinds[p.index]? = some k ∧ c ∈ k.children := by
  rw [Names, getElem?_ofKinds]
  cases kinds[p.index]? <;> simp

/-- The tree of some nodes of which each names only earlier ones, under the last of them. -/
def Tree.ofKinds (kinds : List Kind)
    (h : ∀ p ∈ kinds.zipIdx, ∀ c ∈ p.1.children, c.index < p.2 := by decide) : Tree where
  nodes := Node.ofKinds kinds
  child_lt i n hn c hc := by
    obtain ⟨k, hk, hc⟩ := Node.names_ofKinds.1 ⟨n, hn, hc⟩
    exact h (k, i) (List.mk_mem_zipIdx_iff_getElem?.2 hk) c hc
  parent_names i n p hn hp := by
    rw [Node.getElem?_ofKinds] at hn
    obtain ⟨k, -, rfl⟩ := Option.map_eq_some_iff.1 hn
    obtain ⟨j, m, hj, hm⟩ := Kind.names_of_lastNaming hp
    rw [Nat.zero_add] at hj
    exact Node.names_ofKinds.2 ⟨m, hj ▸ hm⟩
  parent_last i n p hn hp := by
    rw [Node.getElem?_ofKinds] at hn
    obtain ⟨k, -, rfl⟩ := Option.map_eq_some_iff.1 hn
    obtain ⟨m, hm, hc⟩ := Node.names_ofKinds.1 hp
    obtain ⟨q, hq, hle⟩ := Kind.le_lastNaming hm hc
    exact ⟨q, hq, by omega⟩
  file := "sample"
  root := ⟨kinds.length - 1⟩
  symbols := SymbolTable.empty

inductive Role where
  | fileItem
  | moduleItem
  | member
  | parameter
  | entry
  | typeExpr
  | expression
  | blockItem
deriving DecidableEq

namespace Kind

def isFile : Kind → Bool
  | .file _ => true
  | _ => false

def isExpression : Kind → Bool
  | .block _ | .reference _ | .resolved _ _ | .call _ _ | .lambda _ _ | .number _ | .floating _
  | .tuple _ | .assign _ _ | .loop _ _ | .conditional _ _ _ _ => true
  | _ => false

def isTypeExpr : Kind → Bool
  | .typeReference _ | .resolvedType _ _ | .tupleType _ | .unionType _ => true
  | _ => false

def isLocalBinding : Kind → Bool
  | .varDecl _ _ _ _ | .function _ _ _ _ => true
  | _ => false

def isPending : Kind → Bool
  | .reference _ | .typeReference _ => true
  | _ => false

def isResolved : Kind → Bool
  | .resolved _ _ | .resolvedType _ _ => true
  | _ => false

def places : Kind → List (Role × NodeId)
  | .file modules => modules.map (Role.fileItem, ·)
  | .moduleDecl _ _ items => items.map (Role.moduleItem, ·)
  | .structDecl _ fields members =>
    fields.map (Role.parameter, ·) ++ members.map (Role.member, ·)
  | .traitDecl _ members => members.map (Role.member, ·)
  | .enumDecl _ entries => entries.map (Role.entry, ·)
  | .function _ params returns body =>
    params.map (Role.parameter, ·) ++ returns.toList.map (Role.typeExpr, ·) ++
      [(Role.expression, body)]
  | .abstractFunction _ params returns | .foreignFunction _ params returns _ =>
    params.map (Role.parameter, ·) ++ returns.toList.map (Role.typeExpr, ·)
  | .parameter _ type => type.toList.map (Role.typeExpr, ·)
  | .varDecl _ _ type value => type.toList.map (Role.typeExpr, ·) ++ [(Role.expression, value)]
  | .block items => items.map (Role.blockItem, ·)
  | .lambda params body => params.map (Role.parameter, ·) ++ [(Role.expression, body)]
  | .tupleType items | .unionType items => items.map (Role.typeExpr, ·)
  | k => k.children.map (Role.expression, ·)

theorem map_snd_places (k : Kind) : k.places.map (·.2) = k.children := by
  cases k <;> simp [places, children, Function.comp_def]

theorem mem_children_of_mem_places {k : Kind} {role : Role} {c : NodeId}
    (h : (role, c) ∈ k.places) : c ∈ k.children := by
  rw [← map_snd_places]
  exact List.mem_map.2 ⟨(role, c), h, rfl⟩

theorem exists_place_of_mem_children {k : Kind} {c : NodeId} (h : c ∈ k.children) :
    ∃ role, (role, c) ∈ k.places := by
  rw [← map_snd_places] at h
  obtain ⟨p, hp, rfl⟩ := List.mem_map.1 h
  exact ⟨p.1, hp⟩

section Places

variable {k : Kind} {c : NodeId}

attribute [local simp] places children

theorem fileItem_mem_places : (Role.fileItem, c) ∈ k.places ↔
    ∃ modules, k = .file modules ∧ c ∈ modules := by
  cases k <;> simp

theorem moduleItem_mem_places : (Role.moduleItem, c) ∈ k.places ↔
    ∃ name isGlobal items, k = .moduleDecl name isGlobal items ∧ c ∈ items := by
  cases k <;> simp

theorem member_mem_places : (Role.member, c) ∈ k.places ↔
    (∃ name fields members, k = .structDecl name fields members ∧ c ∈ members) ∨
      ∃ name members, k = .traitDecl name members ∧ c ∈ members := by
  cases k <;> simp

theorem parameter_mem_places : (Role.parameter, c) ∈ k.places ↔
    (∃ name fields members, k = .structDecl name fields members ∧ c ∈ fields) ∨
      ∃ params, k.params? = some params ∧ c ∈ params := by
  cases k <;> simp [params?]

theorem entry_mem_places : (Role.entry, c) ∈ k.places ↔
    ∃ name entries, k = .enumDecl name entries ∧ c ∈ entries := by
  cases k <;> simp

theorem blockItem_mem_places : (Role.blockItem, c) ∈ k.places ↔
    ∃ items, k = .block items ∧ c ∈ items := by
  cases k <;> simp

end Places

end Kind

def Role.admits (k : Kind) : Role → Bool
  | .fileItem => match k with
    | .moduleDecl _ _ _ => true
    | _ => false
  | .moduleItem => k.isTypeDecl || k.isFunction
  | .member => k.isFunction
  | .parameter => match k with
    | .parameter _ _ => true
    | _ => false
  | .entry => match k with
    | .enumEntry _ => true
    | _ => false
  | .typeExpr => k.isTypeExpr
  | .expression => k.isExpression
  | .blockItem => k.isExpression || k.isLocalBinding

def Kind.roles (k : Kind) : List Role :=
  match k with
  | .file _ => []
  | .moduleDecl _ _ _ => [.fileItem]
  | .enumEntry _ => [.entry]
  | .parameter _ _ => [.parameter]
  | .varDecl _ _ _ _ => [.blockItem]
  | .function _ _ _ _ => [.moduleItem, .member, .blockItem]
  | .abstractFunction _ _ _ | .foreignFunction _ _ _ _ => [.moduleItem, .member]
  | k =>
    if k.isTypeDecl then [.moduleItem]
    else if k.isTypeExpr then [.typeExpr]
    else [.expression, .blockItem]

theorem Role.admits_iff {k : Kind} {role : Role} : role.admits k = true ↔ role ∈ k.roles := by
  have hroles : role.admits k = k.roles.contains role := by cases k <;> cases role <;> rfl
  rw [hroles, List.contains_iff_mem]

namespace Tree

structure Rooted (t : Tree) : Prop where
  named_once : t.NamedOnce
  root_top : t.parent? t.root = none

/-- A file of modules in which every node but the file stands in exactly one place, and every
place holds what may stand there. -/
structure WellFormed (t : Tree) : Prop where
  root_file : (t.kind? t.root).any Kind.isFile
  root_top : t.parent? t.root = none
  named_once : t.NamedOnce
  named : ∀ n k, t.kind? n = some k → n ≠ t.root → (t.parent? n).isSome
  fits : ∀ n k, t.kind? n = some k → ∀ p ∈ k.places, (t.kind? p.2).any fun c => p.1.admits c

def Unresolved (t : Tree) : Prop := ∀ n k, t.kind? n = some k → k.isResolved = false

def FullyResolved (t : Tree) : Prop := ∀ n k, t.kind? n = some k → k.isPending = false

section Checking

theorem forall_kind_iff {t : Tree} {P : NodeId → Kind → Prop} :
    (∀ n k, t.kind? n = some k → P n k) ↔ ∀ n ∈ t.ids, ∀ k ∈ (t.kind? n).toList, P n k := by
  constructor
  · intro h n _ k hk
    exact h n k (by simpa using hk)
  · intro h n k hk
    exact h n (Forest.mem_ids_of_kind hk) k (by simp [hk])

theorem wellFormed_iff {t : Tree} : t.WellFormed ↔
    ((t.kind? t.root).any Kind.isFile ∧ t.parent? t.root = none ∧ t.NamedOnce) ∧
      (∀ n ∈ t.ids, ∀ k ∈ (t.kind? n).toList, n ≠ t.root → (t.parent? n).isSome) ∧
      ∀ n ∈ t.ids, ∀ k ∈ (t.kind? n).toList, ∀ p ∈ k.places,
        (t.kind? p.2).any fun c => p.1.admits c := by
  rw [← forall_kind_iff (P := fun n _ => n ≠ t.root → (t.parent? n).isSome),
    ← forall_kind_iff (P := fun _ k => ∀ p ∈ k.places, (t.kind? p.2).any fun c => p.1.admits c)]
  exact ⟨fun h => ⟨⟨h.root_file, h.root_top, h.named_once⟩, h.named, h.fits⟩,
    fun h => ⟨h.1.1, h.1.2.1, h.1.2.2, h.2.1, h.2.2⟩⟩

instance (t : Tree) : Decidable t.Rooted :=
  decidable_of_iff (t.NamedOnce ∧ t.parent? t.root = none)
    ⟨fun h => ⟨h.1, h.2⟩, fun h => ⟨h.named_once, h.root_top⟩⟩

instance (t : Tree) : Decidable t.WellFormed := decidable_of_iff _ wellFormed_iff.symm

instance (t : Tree) : Decidable t.Unresolved := decidable_of_iff _ forall_kind_iff.symm

instance (t : Tree) : Decidable t.FullyResolved := decidable_of_iff _ forall_kind_iff.symm

end Checking

/-- The walk comes to the parent of every node it comes to. -/
theorem Rooted.parent_mem_walk {t : Tree} {n p : NodeId} (ht : t.Rooted) (hn : n ∈ t.walk)
    (hp : t.parent? n = some p) : p ∈ t.walk := by
  have hroot : n ≠ t.root := by
    rintro rfl
    simp [ht.root_top] at hp
  have hanc := (ht.named_once.mem_walkFrom_iff_ancestor.1 hn).resolve_left hroot
  rw [Forest.ancestors_of_parent? hp, List.mem_cons] at hanc
  exact ht.named_once.mem_walkFrom_iff_ancestor.2 (hanc.imp_left Eq.symm)

namespace WellFormed

variable {t : Tree} {n c : NodeId} {k : Kind}

theorem rooted (ht : t.WellFormed) : t.Rooted := ⟨ht.named_once, ht.root_top⟩

/-- What stands in a place of a node is of a kind that may stand there, and below that node. -/
theorem child_fits (ht : t.WellFormed) (hk : t.kind? n = some k) {role : Role}
    (hc : (role, c) ∈ k.places) :
    t.parent? c = some n ∧ ∃ kc, t.kind? c = some kc ∧ role.admits kc = true := by
  have hchild := Forest.mem_children_of_kind hk (Kind.mem_children_of_mem_places hc)
  refine ⟨ht.named_once.parent?_of_mem hchild, ?_⟩
  have hfits := ht.fits n k hk _ hc
  cases hkc : t.kind? c with
  | none => simp [hkc] at hfits
  | some kc => exact ⟨kc, rfl, by simpa [hkc] using hfits⟩

/-- Every node but the root stands in a place of its parent. -/
theorem exists_place_of_ne_root (ht : t.WellFormed) (hk : t.kind? n = some k)
    (hroot : n ≠ t.root) :
    ∃ p kp role, t.parent? n = some p ∧ t.kind? p = some kp ∧ (role, n) ∈ kp.places ∧
      role.admits k = true := by
  obtain ⟨p, hp⟩ := Option.isSome_iff_exists.1 (ht.named n k hk hroot)
  have hchild := Forest.mem_children_of_parent? hp
  cases hkp : t.kind? p with
  | none => simp [Forest.children, hkp] at hchild
  | some kp =>
    obtain ⟨role, hrole⟩ := Kind.exists_place_of_mem_children
      (by simpa [Forest.children, hkp] using hchild)
    obtain ⟨-, kc, hkc, hadmits⟩ := ht.child_fits hkp hrole
    rw [hk] at hkc
    cases hkc
    exact ⟨p, kp, role, hp, hkp, hrole, hadmits⟩

theorem exists_place (ht : t.WellFormed) (hk : t.kind? n = some k) (hfile : k.isFile = false) :
    ∃ p kp role, t.parent? n = some p ∧ t.kind? p = some kp ∧ (role, n) ∈ kp.places ∧
      role.admits k = true := by
  apply ht.exists_place_of_ne_root hk
  rintro rfl
  simpa [hk, hfile] using ht.root_file

/-- Only the root is a file. -/
theorem eq_root_of_file (ht : t.WellFormed) {modules} (hk : t.kind? n = some (.file modules)) :
    n = t.root := by
  by_contra hroot
  obtain ⟨p, kp, role, -, -, -, hadmits⟩ := ht.exists_place_of_ne_root hk hroot
  simp [Role.admits_iff, Kind.roles] at hadmits

/-- The walk from the root comes to every node. -/
theorem mem_walk (ht : t.WellFormed) (hk : t.kind? n = some k) : n ∈ t.walk := by
  induction n using Forest.parentInduction (f := t.toForest) generalizing k with
  | top n hn =>
    by_cases hroot : n = t.root
    · exact hroot ▸ Forest.self_mem_walkFrom t.toForest n
    · simpa [hn] using ht.named n k hk hroot
  | step n p hn ih =>
    have hchild := Forest.mem_children_of_parent? hn
    cases hkp : t.kind? p with
    | none => simp [Forest.children, hkp] at hchild
    | some kp =>
      have hself := Forest.mem_walkFrom_of_child hchild (Forest.self_mem_walkFrom _ n)
      exact Forest.mem_walkFrom_trans (ih hkp) hself

/-- Everything below a type expression is a type expression. -/
theorem isTypeExpr_below (ht : t.WellFormed) (hk : t.kind? n = some k) (htype : k.isTypeExpr = true)
    {m : NodeId} (hm : m ∈ t.walkFrom n) : ∃ km, t.kind? m = some km ∧ km.isTypeExpr = true := by
  induction n using Forest.childInduction (f := t.toForest) generalizing k with
  | step n ih =>
    rcases Forest.mem_walkFrom_iff.1 hm with rfl | ⟨c, hc, hm⟩
    · exact ⟨k, hk, htype⟩
    · have hck := hc
      rw [Forest.children_of_kind hk] at hck
      obtain ⟨role, hrole⟩ := Kind.exists_place_of_mem_children hck
      obtain ⟨-, kc, hkc, hadmits⟩ := ht.child_fits hk hrole
      have hexpr : role = .typeExpr := by
        cases k <;> simp [Kind.isTypeExpr] at htype <;> simp_all [Kind.places, Kind.children]
      subst hexpr
      exact ih c hc hkc hadmits hm

section Parents

theorem parent_moduleDecl (ht : t.WellFormed) {name isGlobal items}
    (hk : t.kind? n = some (.moduleDecl name isGlobal items)) :
    ∃ p modules, t.parent? n = some p ∧ t.kind? p = some (.file modules) := by
  obtain ⟨p, kp, role, hp, hkp, hrole, hadmits⟩ := ht.exists_place hk rfl
  obtain rfl : role = .fileItem := by simpa [Role.admits_iff, Kind.roles] using hadmits
  obtain ⟨modules, rfl, -⟩ := Kind.fileItem_mem_places.1 hrole
  exact ⟨p, modules, hp, hkp⟩

/-- A type declaration stands in a module. -/
theorem parent_typeDecl (ht : t.WellFormed) (hk : t.kind? n = some k)
    (htype : k.isTypeDecl = true) :
    ∃ p name isGlobal items, t.parent? n = some p ∧
      t.kind? p = some (.moduleDecl name isGlobal items) := by
  have hfile : k.isFile = false := by cases k <;> simp_all [Kind.isTypeDecl, Kind.isFile]
  obtain ⟨p, kp, role, hp, hkp, hrole, hadmits⟩ := ht.exists_place hk hfile
  rw [Role.admits_iff] at hadmits
  obtain rfl : role = .moduleItem := by
    cases k <;> simp_all [Kind.isTypeDecl, Kind.roles]
  obtain ⟨name, isGlobal, items, rfl, -⟩ := Kind.moduleItem_mem_places.1 hrole
  exact ⟨p, name, isGlobal, items, hp, hkp⟩

theorem parent_enumEntry (ht : t.WellFormed) {name} (hk : t.kind? n = some (.enumEntry name)) :
    ∃ p owner entries, t.parent? n = some p ∧ t.kind? p = some (.enumDecl owner entries) ∧
      n ∈ entries := by
  obtain ⟨p, kp, role, hp, hkp, hrole, hadmits⟩ := ht.exists_place hk rfl
  obtain rfl : role = .entry := by simpa [Role.admits_iff, Kind.roles] using hadmits
  obtain ⟨owner, entries, rfl, hmem⟩ := Kind.entry_mem_places.1 hrole
  exact ⟨p, owner, entries, hp, hkp, hmem⟩

theorem parent_varDecl (ht : t.WellFormed) {name isMutable type value}
    (hk : t.kind? n = some (.varDecl name isMutable type value)) :
    ∃ p items, t.parent? n = some p ∧ t.kind? p = some (.block items) ∧ n ∈ items := by
  obtain ⟨p, kp, role, hp, hkp, hrole, hadmits⟩ := ht.exists_place hk rfl
  obtain rfl : role = .blockItem := by simpa [Role.admits_iff, Kind.roles] using hadmits
  obtain ⟨items, rfl, hmem⟩ := Kind.blockItem_mem_places.1 hrole
  exact ⟨p, items, hp, hkp, hmem⟩

/-- A parameter is a field of a struct, or a parameter of a function or a lambda. -/
theorem parent_parameter (ht : t.WellFormed) {name type}
    (hk : t.kind? n = some (.parameter name type)) :
    ∃ p kp, t.parent? n = some p ∧ t.kind? p = some kp ∧
      ((∃ owner fields members, kp = .structDecl owner fields members ∧ n ∈ fields) ∨
        ∃ params, kp.params? = some params ∧ n ∈ params) := by
  obtain ⟨p, kp, role, hp, hkp, hrole, hadmits⟩ := ht.exists_place hk rfl
  obtain rfl : role = .parameter := by simpa [Role.admits_iff, Kind.roles] using hadmits
  exact ⟨p, kp, hp, hkp, Kind.parameter_mem_places.1 hrole⟩

/-- A function stands in a module, a struct, a trait or a block; in a block it has a body. -/
theorem parent_function (ht : t.WellFormed) (hk : t.kind? n = some k)
    (hfn : k.isFunction = true) :
    ∃ p kp, t.parent? n = some p ∧ t.kind? p = some kp ∧
      ((∃ name isGlobal items, kp = .moduleDecl name isGlobal items ∧ n ∈ items) ∨
        (∃ name fields members, kp = .structDecl name fields members ∧ n ∈ members) ∨
        (∃ name members, kp = .traitDecl name members ∧ n ∈ members) ∨
        ∃ items, kp = .block items ∧ n ∈ items ∧ k.isLocalBinding = true) := by
  have hfile : k.isFile = false := by cases k <;> simp_all [Kind.isFunction, Kind.isFile]
  obtain ⟨p, kp, role, hp, hkp, hrole, hadmits⟩ := ht.exists_place hk hfile
  rw [Role.admits_iff] at hadmits
  have hroles : role = .moduleItem ∨ role = .member ∨
      (role = .blockItem ∧ k.isLocalBinding = true) := by
    cases k <;> simp_all [Kind.isFunction, Kind.roles, Kind.isLocalBinding]
  refine ⟨p, kp, hp, hkp, ?_⟩
  rcases hroles with rfl | rfl | ⟨rfl, hlocal⟩
  · exact Or.inl (Kind.moduleItem_mem_places.1 hrole)
  · exact Or.inr ((Kind.member_mem_places.1 hrole).imp_right Or.inl)
  · obtain ⟨items, rfl, hmem⟩ := Kind.blockItem_mem_places.1 hrole
    exact Or.inr (Or.inr (Or.inr ⟨items, rfl, hmem, hlocal⟩))

end Parents

end WellFormed

end Tree

end SemanticAnalysis
