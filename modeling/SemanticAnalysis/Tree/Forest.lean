import SemanticAnalysis.Tree.Node

/-!
Nodes in the order they were pushed, children before the nodes that name them.
A node may be named as a child several times; its parent is the last node that
names it. Pushing a node makes it the parent of its children, whatever parent they
had before. Parents come after their children, so every climb towards the root ends.
-/

namespace SemanticAnalysis

namespace Node

def links (n : Node) : List NodeId × Option NodeId := (n.kind.children, n.parent)

def Names (nodes : Array Node) (p c : NodeId) : Prop :=
  ∃ n, nodes[p.index]? = some n ∧ c ∈ n.kind.children

/-- Nodes with the same links have the same children and the same parent. -/
theorem exists_of_links_eq {nodes others : Array Node} {i : Nat} {n : Node}
    (h : nodes[i]?.map links = others[i]?.map links) (hn : nodes[i]? = some n) :
    ∃ m, others[i]? = some m ∧ m.kind.children = n.kind.children ∧ m.parent = n.parent := by
  rw [hn] at h
  obtain ⟨m, hm, hlinks⟩ := Option.map_eq_some_iff.1 h.symm
  exact ⟨m, hm, congrArg Prod.fst hlinks, congrArg Prod.snd hlinks⟩

theorem Names.of_links_eq {nodes others : Array Node} {p c : NodeId} (hp : Names nodes p c)
    (h : ∀ i : Nat, nodes[i]?.map links = others[i]?.map links) : Names others p c := by
  obtain ⟨n, hn, hc⟩ := hp
  obtain ⟨m, hm, hchildren, -⟩ := exists_of_links_eq (h p.index) hn
  exact ⟨m, hm, hchildren ▸ hc⟩

end Node

/-- Nodes that name only earlier nodes as children, each with the last node that names it. -/
@[ext]
structure Forest where
  nodes : Array Node
  child_lt : ∀ (i : Nat) (n : Node), nodes[i]? = some n → ∀ c ∈ n.kind.children, c.index < i
  parent_names : ∀ (i : Nat) (n : Node) (p : NodeId), nodes[i]? = some n → n.parent = some p →
    Node.Names nodes p ⟨i⟩
  parent_last : ∀ (i : Nat) (n : Node) (p : NodeId), nodes[i]? = some n → Node.Names nodes p ⟨i⟩ →
    ∃ q, n.parent = some q ∧ p.index ≤ q.index

namespace Forest

def empty : Forest := ⟨#[], by simp, by simp, by simp⟩

instance : Inhabited Forest := ⟨empty⟩

def size (f : Forest) : Nat := f.nodes.size

def node? (f : Forest) (n : NodeId) : Option Node := f.nodes[n.index]?

def kind? (f : Forest) (n : NodeId) : Option Kind := (f.node? n).map (·.kind)

def span (f : Forest) (n : NodeId) : Span := ((f.node? n).map (·.span)).getD ⟨0, 0⟩

def children (f : Forest) (n : NodeId) : List NodeId := ((f.kind? n).map Kind.children).getD []

def name? (f : Forest) (n : NodeId) : Option Symbol := (f.kind? n).bind Kind.name?

def describe (f : Forest) (n : NodeId) : String := ((f.kind? n).map Kind.describe).getD "nothing"

def ids (f : Forest) : List NodeId := (List.range f.size).map NodeId.mk

theorem mem_children_of_kind {f : Forest} {n c : NodeId} {k : Kind} (hk : f.kind? n = some k)
    (hc : c ∈ k.children) : c ∈ f.children n := by
  simp [children, hk, hc]

theorem index_lt_of_mem_children {f : Forest} {n c : NodeId} (h : c ∈ f.children n) :
    c.index < n.index := by
  unfold children kind? node? at h
  cases hn : f.nodes[n.index]? with
  | none => simp [hn] at h
  | some node =>
    simp [hn] at h
    exact f.child_lt _ _ hn c h

theorem index_lt_of_kind {f : Forest} {n c : NodeId} {k : Kind} (hk : f.kind? n = some k)
    (hc : c ∈ k.children) : c.index < n.index :=
  index_lt_of_mem_children (mem_children_of_kind hk hc)

theorem names_iff {f : Forest} {p c : NodeId} : Node.Names f.nodes p c ↔ c ∈ f.children p := by
  unfold Node.Names children kind? node?
  cases f.nodes[p.index]? <;> simp

theorem index_lt_size_of_names {f : Forest} {p c : NodeId} (h : Node.Names f.nodes p c) :
    p.index < f.size := by
  obtain ⟨n, hn, -⟩ := h
  exact (Array.getElem?_eq_some_iff.1 hn).1

/-- The last node that names a node as a child. -/
def parent? (f : Forest) (n : NodeId) : Option NodeId := (f.node? n).bind (·.parent)

theorem mem_children_of_parent? {f : Forest} {n p : NodeId} (h : f.parent? n = some p) :
    n ∈ f.children p := by
  obtain ⟨node, hnode, hp⟩ := Option.bind_eq_some_iff.1 h
  exact names_iff.1 (f.parent_names n.index node p hnode hp)

theorem index_lt_parent {f : Forest} {n p : NodeId} (h : f.parent? n = some p) :
    n.index < p.index ∧ p.index < f.size := by
  have hn := mem_children_of_parent? h
  exact ⟨index_lt_of_mem_children hn, index_lt_size_of_names (names_iff.2 hn)⟩

def ancestors (f : Forest) (n : NodeId) : List NodeId :=
  match h : f.parent? n with
  | none => []
  | some p =>
    have : n.index < p.index ∧ p.index < f.size := index_lt_parent h
    p :: f.ancestors p
termination_by f.size - n.index
decreasing_by omega

def adopt (p : NodeId) (cs : List NodeId) (nodes : Array Node) : Array Node :=
  cs.foldl (fun nodes c => nodes.modify c.index fun node => { node with parent := some p }) nodes

theorem size_adopt (p : NodeId) (cs : List NodeId) (nodes : Array Node) :
    (adopt p cs nodes).size = nodes.size := by
  induction cs generalizing nodes with
  | nil => rfl
  | cons c rest ih => rw [adopt, List.foldl_cons, ← adopt, ih, Array.size_modify]

/-- Adoption sets the parent of the adopted nodes and leaves the others. -/
theorem getElem?_adopt (p : NodeId) (cs : List NodeId) (nodes : Array Node) (i : Nat) :
    (adopt p cs nodes)[i]? =
      nodes[i]?.map fun node => if ⟨i⟩ ∈ cs then { node with parent := some p } else node := by
  induction cs generalizing nodes with
  | nil => simp [adopt]
  | cons c rest ih =>
    have hc : c.index = i ↔ (⟨i⟩ : NodeId) = c := by
      rw [NodeId.ext_iff, eq_comm]
    rw [adopt, List.foldl_cons, ← adopt, ih, Array.getElem?_modify]
    by_cases h : c.index = i
    · simp [h, hc.1 h, Function.comp_def]
    · simp [h, mt hc.2 h]

def pushed (kind : Kind) (span : Span) (nodes : Array Node) : Array Node :=
  (adopt ⟨nodes.size⟩ kind.children nodes).push ⟨kind, span, none⟩

theorem getElem?_pushed (kind : Kind) (span : Span) (nodes : Array Node) (i : Nat) :
    (pushed kind span nodes)[i]? =
      if i = nodes.size then some ⟨kind, span, none⟩
      else nodes[i]?.map fun node =>
        if ⟨i⟩ ∈ kind.children then { node with parent := some ⟨nodes.size⟩ } else node := by
  rw [pushed, Array.getElem?_push, getElem?_adopt, size_adopt]

/-- The new node names its children, the others name those they named before. -/
theorem names_pushed {kind : Kind} {span : Span} {nodes : Array Node} {p c : NodeId} :
    Node.Names (pushed kind span nodes) p c ↔
      p.index = nodes.size ∧ c ∈ kind.children ∨ Node.Names nodes p c := by
  unfold Node.Names
  rw [getElem?_pushed]
  by_cases hp : p.index = nodes.size
  · simp [hp]
  · cases nodes[p.index]? with
    | none => simp [hp]
    | some n => by_cases hc : (⟨p.index⟩ : NodeId) ∈ kind.children <;> simp [hp, hc]

theorem index_lt_of_names_pushed {f : Forest} {kind : Kind} {span : Span} {p c : NodeId}
    (h : ∀ c ∈ kind.children, c.index < f.size) (hp : Node.Names (pushed kind span f.nodes) p c) :
    c.index < p.index ∧ p.index ≤ f.size := by
  rcases names_pushed.1 hp with ⟨hp, hc⟩ | hp
  · exact ⟨Nat.lt_of_lt_of_eq (h c hc) hp.symm, Nat.le_of_eq hp⟩
  · exact ⟨index_lt_of_mem_children (names_iff.1 hp), Nat.le_of_lt (index_lt_size_of_names hp)⟩

def push (f : Forest) (kind : Kind) (span : Span) (h : ∀ c ∈ kind.children, c.index < f.size) :
    Forest where
  nodes := pushed kind span f.nodes
  child_lt i n hn c hc := (index_lt_of_names_pushed h ⟨n, hn, hc⟩).1
  parent_names i n p hn hp := by
    rw [names_pushed]
    rw [getElem?_pushed] at hn
    split at hn
    · cases hn
      simp at hp
    · obtain ⟨m, hm, rfl⟩ := Option.map_eq_some_iff.1 hn
      by_cases hc : (⟨i⟩ : NodeId) ∈ kind.children
      · rw [if_pos hc] at hp
        cases hp
        exact Or.inl ⟨rfl, hc⟩
      · rw [if_neg hc] at hp
        exact Or.inr (f.parent_names i m p hm hp)
  parent_last i n p hn hp := by
    -- nodes are named by later ones only, so the new node by none
    obtain ⟨hlt, hle⟩ := index_lt_of_names_pushed h hp
    have hi : i ≠ f.nodes.size := Nat.ne_of_lt (Nat.lt_of_lt_of_le hlt hle)
    rw [getElem?_pushed, if_neg hi] at hn
    obtain ⟨m, hm, rfl⟩ := Option.map_eq_some_iff.1 hn
    by_cases hc : (⟨i⟩ : NodeId) ∈ kind.children
    · exact ⟨⟨f.nodes.size⟩, by simp [hc], hle⟩
    · have hold : Node.Names f.nodes p ⟨i⟩ :=
        (names_pushed.1 hp).resolve_left fun hnew => hc hnew.2
      simpa [hc] using f.parent_last i m p hm hold

/-- Exchanges nodes for others with the same children and the same parent. -/
def exchange (f : Forest) (nodes : Array Node)
    (h : ∀ i : Nat, nodes[i]?.map Node.links = f.nodes[i]?.map Node.links) : Forest where
  nodes
  child_lt i n hn c hc := by
    obtain ⟨m, hm, hchildren, -⟩ := Node.exists_of_links_eq (h i) hn
    exact f.child_lt i m hm c (hchildren ▸ hc)
  parent_names i n p hn hp := by
    obtain ⟨m, hm, -, hparent⟩ := Node.exists_of_links_eq (h i) hn
    exact (f.parent_names i m p hm (hparent.trans hp)).of_links_eq fun i => (h i).symm
  parent_last i n p hn hp := by
    obtain ⟨m, hm, -, hparent⟩ := Node.exists_of_links_eq (h i) hn
    obtain ⟨q, hq, hle⟩ := f.parent_last i m p hm (hp.of_links_eq h)
    exact ⟨q, hparent.symm.trans hq, hle⟩

@[simp]
theorem nodes_exchange (f : Forest) (nodes : Array Node)
    (h : ∀ i : Nat, nodes[i]?.map Node.links = f.nodes[i]?.map Node.links) :
    (f.exchange nodes h).nodes = nodes := rfl

def resolveAt (f : Forest) (n referral : NodeId) : Forest :=
  f.exchange
    (f.nodes.modify n.index fun node => { node with kind := node.kind.withReferral referral })
    fun i => by
      rw [Array.getElem?_modify]
      split
      · cases f.nodes[i]? <;> simp [Node.links]
      · rfl

end Forest

end SemanticAnalysis
