import SemanticAnalysis.Declarations.Group
import SemanticAnalysis.Proofs.LinkedTrees

/-!
The order of the items of blocks. For a node inside an item of a block, the
items after that one come after the node, and the bindings up to and including
it have been reached. What is visible from the node and stands in a block is one
or the other. Nothing above a top-level function is a block.
-/

namespace SemanticAnalysis

namespace Forest

variable {f : Forest} {n c d b x : NodeId} {pre post : List NodeId}

/-- A node lies in an item of a block, between the items before it and those after it. -/
def SitsIn (f : Forest) (n b : NodeId) (pre : List NodeId) (x : NodeId) (post : List NodeId) :
    Prop :=
  f.kind? b = some (.block (pre ++ x :: post)) ∧ n ∈ f.walkFrom x

def ComesAfter (f : Forest) (n d : NodeId) : Prop :=
  ∃ b pre x post, f.SitsIn n b pre x post ∧ d ∈ post

/-- A binding of a block around a node does not come after the item that the node is in. -/
def Reached (f : Forest) (n d : NodeId) : Prop :=
  ∃ b pre x post, f.SitsIn n b pre x post ∧ d ∈ pre ++ [x] ∧ f.isLocalBinding d = true

def Refers (f : Forest) (r d : NodeId) : Prop := ∃ target, f.kind? r = some (.resolved target d)

theorem children_block {items : List NodeId} (h : f.kind? n = some (.block items)) :
    f.children n = items :=
  children_of_kind h

theorem SitsIn.item_mem (h : f.SitsIn n b pre x post) : x ∈ f.children b :=
  mem_children_of_kind h.1 (by simp [Kind.children])

theorem SitsIn.after_mem (h : f.SitsIn n b pre x post) (hd : d ∈ post) : d ∈ f.children b :=
  mem_children_of_kind h.1 (by simp [Kind.children, hd])

/-- The items after the one a node is in are not below the node. -/
theorem SitsIn.not_mem_walkFrom (hf : f.NamedOnce) (h : f.SitsIn n b pre x post) (hd : d ∈ post) :
    d ∉ f.walkFrom n := by
  intro hdn
  have hx : x = d := hf.child_unique h.item_mem (h.after_mem hd) (mem_walkFrom_trans h.2 hdn)
    (self_mem_walkFrom f d)
  have hnodup : (pre ++ x :: post).Nodup := children_block h.1 ▸ hf.children_nodup b
  have hpost : x ∉ post := (List.nodup_cons.1 (List.nodup_append.1 hnodup).2.1).1
  exact hpost (hx ▸ hd)

theorem ComesAfter.not_mem_walkFrom (hf : f.NamedOnce) (h : f.ComesAfter n d) :
    d ∉ f.walkFrom n := by
  obtain ⟨b, pre, x, post, hs, hd⟩ := h
  exact hs.not_mem_walkFrom hf hd

/-- A child of a node is an item of a block itself or sits where the node sits. -/
theorem SitsIn.of_child (hf : f.NamedOnce) (hc : c ∈ f.children n)
    (h : f.SitsIn c b pre x post) : (n = b ∧ c = x) ∨ f.SitsIn n b pre x post := by
  rcases hf.mem_walkFrom_iff_ancestor.1 h.2 with rfl | hx
  · exact Or.inl ⟨hf.eq_of_mem_children hc h.item_mem, rfl⟩
  · rw [ancestors_of_parent? (hf.parent?_of_mem hc), List.mem_cons] at hx
    refine Or.inr ⟨h.1, ?_⟩
    rcases hx with rfl | hx
    · exact self_mem_walkFrom f x
    · exact mem_walkFrom_of_ancestor hx

section Children

variable {P : List NodeId → NodeId → List NodeId → Prop}

/-- What a node has before and after it in some block, a node above it that is no block has too. -/
theorem sitsIn_of_child (hf : f.NamedOnce) (hc : c ∈ f.children n)
    (hn : ∀ items, f.kind? n ≠ some (.block items))
    (h : ∃ b pre x post, f.SitsIn c b pre x post ∧ P pre x post) :
    ∃ b pre x post, f.SitsIn n b pre x post ∧ P pre x post := by
  obtain ⟨b, pre, x, post, hs, hP⟩ := h
  rcases hs.of_child hf hc with ⟨rfl, rfl⟩ | hs'
  · exact absurd hs.1 (hn _)
  · exact ⟨b, pre, x, post, hs', hP⟩

theorem ComesAfter.of_child (hf : f.NamedOnce) (hc : c ∈ f.children n)
    (hn : ∀ items, f.kind? n ≠ some (.block items)) (h : f.ComesAfter c d) : f.ComesAfter n d :=
  sitsIn_of_child (P := fun _ _ post => d ∈ post) hf hc hn h

theorem Reached.of_child (hf : f.NamedOnce) (hc : c ∈ f.children n)
    (hn : ∀ items, f.kind? n ≠ some (.block items)) (h : f.Reached c d) : f.Reached n d :=
  sitsIn_of_child (P := fun pre x _ => d ∈ pre ++ [x] ∧ f.isLocalBinding d = true) hf hc hn h

/-- An item of a block sits in that block where it stands, or where the block sits. -/
theorem SitsIn.of_item (hf : f.NamedOnce) {before after : List NodeId}
    (hk : f.kind? n = some (.block (before ++ c :: after))) (h : f.SitsIn c b pre x post) :
    (pre = before ∧ x = c ∧ post = after) ∨ f.SitsIn n b pre x post := by
  have hc : c ∈ f.children n := mem_children_of_kind hk (by simp [Kind.children])
  rcases h.of_child hf hc with ⟨rfl, rfl⟩ | hs
  · have heq : pre ++ c :: post = before ++ c :: after := by
      simpa using h.1.symm.trans hk
    have hnodup : (pre ++ c :: post).Nodup := children_block h.1 ▸ hf.children_nodup n
    obtain ⟨-, hcpost, hdisjoint⟩ := List.nodup_append.1 hnodup
    have hcpre : c ∉ pre := fun hmem => hdisjoint c hmem c (List.mem_cons_self ..) rfl
    have hsplit := (List.append_cons_inj_of_notMem hcpre (List.nodup_cons.1 hcpost).1).1 heq
    exact Or.inl ⟨hsplit.1, hsplit.2.1, hsplit.2.2⟩
  · exact Or.inr hs

/-- What an item of a block has before and after it in some block, the block has too, unless it is
the items of the block itself. -/
theorem sitsIn_of_item (hf : f.NamedOnce) (hk : f.kind? n = some (.block (pre ++ c :: post)))
    (h : ∃ b pre x post, f.SitsIn c b pre x post ∧ P pre x post) :
    (∃ b pre x post, f.SitsIn n b pre x post ∧ P pre x post) ∨ P pre c post := by
  obtain ⟨b, pre', x, post', hs, hP⟩ := h
  rcases hs.of_item hf hk with ⟨rfl, rfl, rfl⟩ | hs'
  · exact Or.inr hP
  · exact Or.inl ⟨b, pre', x, post', hs', hP⟩

theorem ComesAfter.of_item (hf : f.NamedOnce)
    (hk : f.kind? n = some (.block (pre ++ c :: post))) (h : f.ComesAfter c d) :
    f.ComesAfter n d ∨ d ∈ post :=
  sitsIn_of_item (P := fun _ _ post => d ∈ post) hf hk h

theorem Reached.of_item (hf : f.NamedOnce)
    (hk : f.kind? n = some (.block (pre ++ c :: post))) (h : f.Reached c d) :
    f.Reached n d ∨ (d ∈ pre ++ [c] ∧ f.isLocalBinding d = true) :=
  sitsIn_of_item (P := fun pre x _ => d ∈ pre ++ [x] ∧ f.isLocalBinding d = true) hf hk h

end Children

/-- What comes after a node stands in a block. -/
theorem ComesAfter.parent (hf : f.NamedOnce) (h : f.ComesAfter n d) :
    ∃ b items, f.parent? d = some b ∧ f.kind? b = some (.block items) := by
  obtain ⟨b, pre, x, post, hs, hd⟩ := h
  exact ⟨b, _, hf.parent?_of_mem (hs.after_mem hd), hs.1⟩

/-- A binding of a block that is visible from a node has been reached there or comes after it. -/
theorem Visible.reached_or_comesAfter (hf : f.NamedOnce) (h : f.Visible n d)
    (hd : f.isLocalBinding d = true) {items : List NodeId} (hp : f.parent? d = some b)
    (hb : f.kind? b = some (.block items)) : f.Reached n d ∨ f.ComesAfter n d := by
  obtain ⟨a, hnear, hbinds⟩ := h
  have hmem : d ∈ items := children_block hb ▸ mem_children_of_parent? hp
  have hself : d = a → f.Reached n d := by
    rintro rfl
    obtain ⟨pre, post, rfl⟩ := List.append_of_mem hmem
    exact ⟨b, pre, d, post, ⟨hb, mem_walkFrom_of_ancestor hnear.mem_ancestors⟩, by simp, hd⟩
  have hchild : ∀ {k : Kind}, f.kind? a = some k → d ∈ k.children → k = .block items := by
    intro k hk hdk
    have heq := hf.eq_of_mem_children (mem_children_of_kind hk hdk) (mem_children_of_parent? hp)
    rw [heq, hb] at hk
    exact (Option.some.inj hk).symm
  cases hk : f.kind? a with
  | none => simp [Binds, hk] at hbinds
  | some k =>
    by_cases hblock : k = .block items
    · subst hblock
      -- the node is below one of the items of the block that binds `d`
      have hwalk := mem_walkFrom_of_ancestor hnear.mem_ancestors
      rcases mem_walkFrom_iff.1 hwalk with rfl | ⟨x, hx, hnx⟩
      · exact absurd (index_lt_of_mem_ancestors hnear.mem_ancestors) (Nat.lt_irrefl _)
      · rw [children_block hk] at hx
        obtain ⟨pre, post, rfl⟩ := List.append_of_mem hx
        rw [List.append_cons, List.mem_append] at hmem
        exact hmem.imp (fun h => ⟨a, pre, x, post, ⟨hk, hnx⟩, h, hd⟩)
          fun h => ⟨a, pre, x, post, ⟨hk, hnx⟩, h⟩
    · left
      apply hself
      have hnot : d ∉ k.children := fun hdk => hblock (hchild hk hdk)
      simp only [Binds, hk] at hbinds
      cases k <;> simp_all [Kind.children]

end Forest

/-- A top-level function is a function with a body that a module, struct or trait holds. -/
theorem Declarations.isTopLevel_cases {f : Forest} {n : NodeId}
    (h : Declarations.isTopLevel f n = true) :
    ∃ name params returns body p k, f.kind? n = some (.function name params returns body) ∧
      f.parent? n = some p ∧ f.kind? p = some k ∧ k.isContainer = true := by
  unfold Declarations.isTopLevel at h
  split at h
  · rename_i name params returns body hk
    obtain ⟨p, hp, h⟩ := (Option.any_eq_true _ _).1 h
    obtain ⟨k, hkp, hholds⟩ := (Option.any_eq_true _ _).1 h
    refine ⟨name, params, returns, body, p, k, hk, hp, hkp, ?_⟩
    cases k <;> simp_all [Declarations.holdsFunctions, Kind.isContainer]
  · cases h

namespace Tree.WellFormed

variable {t : Tree} {n a b d x : NodeId} {k : Kind} {pre post : List NodeId}

/-- A module stands in the file and a type declaration in a module. -/
theorem parent_container (ht : t.WellFormed) (hk : t.kind? n = some k)
    (hc : k.isContainer = true) : ∃ p kp, t.parent? n = some p ∧ t.kind? p = some kp ∧
      (kp.isContainer = true ∨ p = t.root ∧ kp.isFile = true) := by
  by_cases htype : k.isTypeDecl = true
  · obtain ⟨p, name, isGlobal, items, hp, hkp⟩ := ht.parent_typeDecl hk htype
    exact ⟨p, _, hp, hkp, Or.inl rfl⟩
  · cases k <;> simp [Kind.isContainer] at hc <;> simp [Kind.isTypeDecl] at htype
    obtain ⟨p, modules, hp, hkp⟩ := ht.parent_moduleDecl hk
    exact ⟨p, _, hp, hkp, Or.inr ⟨ht.eq_root_of_file hkp, rfl⟩⟩

/-- Above a module or a declaration in one are only modules and declarations in them, and the
file. -/
theorem ancestor_of_container (ht : t.WellFormed) (hk : t.kind? n = some k)
    (hc : k.isContainer = true) (ha : a ∈ t.ancestors n) :
    ∃ ka, t.kind? a = some ka ∧ (ka.isContainer = true ∨ ka.isFile = true) := by
  induction n using Forest.parentInduction (f := t.toForest) generalizing k with
  | top n hn => simp [Forest.ancestors_of_none hn] at ha
  | step n p hp ih =>
    obtain ⟨p', kp, hp', hkp, hcases⟩ := ht.parent_container hk hc
    obtain rfl : p = p' := Option.some.inj (hp.symm.trans hp')
    rw [Forest.ancestors_of_parent? hp, List.mem_cons] at ha
    rcases ha with rfl | ha
    · exact ⟨kp, hkp, hcases.imp_right And.right⟩
    · rcases hcases with hc' | ⟨rfl, -⟩
      · exact ih hkp hc' ha
      · simp [Forest.ancestors_of_none ht.root_top] at ha

theorem ancestor_of_topLevel (ht : t.WellFormed)
    (hn : Declarations.isTopLevel t.toForest n = true) (ha : a ∈ t.ancestors n) :
    ∃ ka, t.kind? a = some ka ∧ (ka.isContainer = true ∨ ka.isFile = true) := by
  obtain ⟨_, _, _, _, p, kp, -, hp, hkp, hc⟩ := Declarations.isTopLevel_cases hn
  rw [Forest.ancestors_of_parent? hp, List.mem_cons] at ha
  rcases ha with rfl | ha
  · exact ⟨kp, hkp, Or.inl hc⟩
  · exact ht.ancestor_of_container hkp hc ha

/-- No block lies above a top-level function. -/
theorem not_sitsIn_topLevel (ht : t.WellFormed) (hn : Declarations.isTopLevel t.toForest n = true) :
    ¬ t.SitsIn n b pre x post := by
  intro hs
  have hx : b ∈ t.ancestors x := by
    simp [Forest.ancestors_of_parent? (ht.named_once.parent?_of_mem hs.item_mem)]
  have hb : b ∈ t.ancestors n := by
    rcases ht.named_once.mem_walkFrom_iff_ancestor.1 hs.2 with rfl | hxn
    · exact hx
    · exact Forest.ancestors_trans hx hxn
  obtain ⟨kb, hkb, hcases⟩ := ht.ancestor_of_topLevel hn hb
  rw [hs.1] at hkb
  cases hkb
  simp [Kind.isContainer, Kind.isFile] at hcases

/-- Nothing above a top-level function binds a local name. -/
theorem not_visible_topLevel (ht : t.WellFormed)
    (hn : Declarations.isTopLevel t.toForest n = true) : ¬ t.Visible n d := by
  rintro ⟨a, hnear, hbinds⟩
  obtain ⟨ka, hka, hcases⟩ := ht.ancestor_of_topLevel hn hnear.mem_ancestors
  simp only [Forest.Binds, hka] at hbinds
  cases ka <;> simp [Kind.isContainer, Kind.isFile] at hcases <;> exact hbinds

/-- A top-level function below another one is that function. -/
theorem eq_of_topLevel (ht : t.WellFormed) (hn : Declarations.isTopLevel t.toForest n = true)
    (ha : Declarations.isTopLevel t.toForest a = true) (h : n ∈ t.walkFrom a) : n = a := by
  refine (ht.named_once.mem_walkFrom_iff_ancestor.1 h).resolve_right fun hanc => ?_
  obtain ⟨ka, hka, hcases⟩ := ht.ancestor_of_topLevel hn hanc
  obtain ⟨_, _, _, _, _, _, hk, -⟩ := Declarations.isTopLevel_cases ha
  rw [hk] at hka
  cases hka
  simp [Kind.isContainer, Kind.isFile] at hcases

/-- No node is below two top-level functions. -/
theorem topLevel_unique (ht : t.WellFormed) (hn : Declarations.isTopLevel t.toForest n = true)
    (ha : Declarations.isTopLevel t.toForest a = true) (hdn : d ∈ t.walkFrom n)
    (hda : d ∈ t.walkFrom a) : n = a := by
  rcases ht.named_once.walks_nest hdn hda with h | h
  · exact ht.eq_of_topLevel hn ha h
  · exact (ht.eq_of_topLevel ha hn h).symm

end Tree.WellFormed

end SemanticAnalysis
