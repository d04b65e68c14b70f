import SemanticAnalysis.Proofs.ScopeTrees

/-!
Scopes and the climbs from nodes agree. Scopes are added on the way down a tree,
each inside the scope being worked on, while the scope that a look-up starts in is
found on the way up. In a rooted tree both come to the same: the scopes around a
node are those of its ancestors that introduce one, in the same order. In every
tree, even where nodes are shared, a scope lies in one with a smaller number, so
no way outwards is cut short.
-/

namespace SemanticAnalysis

namespace Forest

variable {f : Forest} {n a : NodeId}

theorem filter_ancestors_of_none (h : f.holder? n = none) :
    (f.ancestors n).filter f.introduces = [] := by
  rw [List.filter_eq_nil_iff]
  exact List.find?_eq_none.1 h

/-- Of the nodes around a node that introduce a scope, the innermost is followed by those around
that one. -/
theorem filter_ancestors_of_holder? (h : f.holder? n = some a) :
    (f.ancestors n).filter f.introduces = a :: (f.ancestors a).filter f.introduces := by
  induction n using parentInduction (f := f) with
  | top n hn => simp [holder?_of_none hn] at h
  | step n p hn ih =>
    rw [holder?_of_parent? hn] at h
    rw [ancestors_of_parent? hn]
    by_cases hp : f.introduces p = true
    · rw [if_pos hp] at h
      cases h
      exact List.filter_cons_of_pos hp
    · rw [if_neg hp] at h
      rw [List.filter_cons_of_neg hp]
      exact ih h

end Forest

namespace ScopeTree

variable {f : Forest} {S : ScopeTree} {n a : NodeId} {i j : ScopeId} {around : Option ScopeId}
  {holder : Option NodeId}

def scopesAround (S : ScopeTree) (f : Forest) (n : NodeId) : List ScopeId :=
  (S.enclosing f n).elim [] fun i => i :: S.outward i

def Ordered (S : ScopeTree) : Prop := ∀ i p, S.parent? i = some p → p < i

section Order

theorem ordered_empty : empty.Ordered := by
  intro i p h
  simp [parent?, empty] at h

/-- A scope is added inside one that is there already, and the children of its anchor inside it. -/
theorem Ordered.enter (h : S.Ordered) (ha : ∀ p ∈ around, p < S.size) :
    (S.enter f n around).1.Ordered ∧ S.size ≤ (S.enter f n around).1.size ∧
      ∀ p ∈ (S.enter f n around).2, p < (S.enter f n around).1.size := by
  by_cases hintro : f.introduces n = true
  · obtain ⟨k, kind, hk, hkind⟩ := Forest.introduces_iff.1 hintro
    rw [enter_of_kind hk hkind]
    have hsize : size ⟨S.scopes.push ⟨n, kind, around, f.scopeDeclarations k⟩⟩ = S.size + 1 :=
      Array.size_push ..
    refine ⟨fun i p hp => ?_, hsize ▸ Nat.le_succ _, fun p hp => ?_⟩
    · rw [parent?, Array.getElem?_push] at hp
      split at hp
      · rename_i hi
        exact hi ▸ ha p hp
      · exact h i p hp
    · cases hp
      exact hsize ▸ Nat.lt_succ_self _
  · rw [enter_of_not_introduces (by simpa using hintro)]
    exact ⟨h, Nat.le_refl _, ha⟩

/-- Adding the scopes of some nodes in turn inside one scope. -/
theorem Ordered.foldl {cs : List NodeId} (h : S.Ordered) (ha : ∀ p ∈ around, p < S.size)
    (step : ∀ c ∈ cs, ∀ S : ScopeTree, S.Ordered → (∀ p ∈ around, p < S.size) →
      (extend f around S c).Ordered ∧ S.size ≤ (extend f around S c).size) :
    (cs.foldl (extend f around) S).Ordered ∧ S.size ≤ (cs.foldl (extend f around) S).size := by
  induction cs generalizing S with
  | nil => exact ⟨h, Nat.le_refl _⟩
  | cons c rest ih =>
    obtain ⟨hc, hle⟩ := step c (List.mem_cons_self ..) S h ha
    have ha' : ∀ p ∈ around, p < (extend f around S c).size :=
      fun p hp => Nat.lt_of_lt_of_le (ha p hp) hle
    obtain ⟨hrest, hle'⟩ := ih hc ha' fun d hd => step d (List.mem_cons_of_mem c hd)
    exact ⟨hrest, Nat.le_trans hle hle'⟩

theorem Ordered.extend (h : S.Ordered) (ha : ∀ p ∈ around, p < S.size) :
    (extend f around S n).Ordered ∧ S.size ≤ (extend f around S n).size := by
  induction n using Forest.childInduction (f := f) generalizing S around with
  | step n ih =>
    obtain ⟨hentered, hgrown, hinner⟩ := h.enter (f := f) (n := n) ha
    rw [extend_eq]
    obtain ⟨hfold, hle⟩ := hentered.foldl hinner fun c hc S hS ha => ih c hc hS ha
    exact ⟨hfold, Nat.le_trans hgrown hle⟩

theorem ordered_build (t : Tree) : (build t).Ordered := by
  rw [build_eq_extend]
  exact (ordered_empty.extend fun p hp => by cases hp).1

theorem Ordered.outward_eq (h : S.Ordered) (i : ScopeId) :
    S.outward i = (S.parent? i).elim [] fun p => p :: S.outward p := by
  rw [outward]
  cases hp : S.parent? i with
  | none => rfl
  | some p => simp [h i p hp]

/-- The way outwards leads to smaller numbers. -/
theorem lt_of_mem_outward (h : j ∈ S.outward i) : j < i := by
  induction i using Nat.strongRecOn with
  | ind i ih =>
    rw [outward] at h
    cases hp : S.parent? i with
    | none => simp [hp] at h
    | some p =>
      simp only [hp] at h
      split at h
      · rename_i hlt
        rcases List.mem_cons.1 h with rfl | h
        · exact hlt
        · exact Nat.lt_trans (ih p hlt h) hlt
      · simp at h

/-- A look-up that goes on does so in a scope with a smaller number. -/
theorem Ordered.escalate_lt (h : S.Ordered) (hj : S.escalate i = some j) : j < i := by
  unfold escalate at hj
  cases hs : S.scopes[i]? with
  | none => simp [hs] at hj
  | some s =>
    simp only [hs] at hj
    split at hj
    · exact lt_of_mem_outward (List.mem_of_find?_eq_some hj)
    · exact h i j (by simp [parent?, hs, hj])

theorem Ordered.route_eq (h : S.Ordered) (i : ScopeId) :
    S.route i = i :: (S.escalate i).elim [] S.route := by
  rw [route]
  cases hj : S.escalate i with
  | none => rfl
  | some j => simp [h.escalate_lt hj]

/-- A look-up never goes on in a scope with a greater number. -/
theorem le_of_mem_route (h : j ∈ S.route i) : j ≤ i := by
  induction i using Nat.strongRecOn with
  | ind i ih =>
    rw [route] at h
    rcases List.mem_cons.1 h with rfl | h
    · exact Nat.le_refl _
    · cases he : S.escalate i with
      | none => simp [he] at h
      | some k =>
        simp only [he] at h
        split at h
        · rename_i hlt
          exact Nat.le_of_lt (Nat.lt_of_le_of_lt (ih k hlt h) hlt)
        · simp at h

/-- The scopes that a look-up asks have smaller and smaller numbers. -/
theorem Ordered.route_pairwise (h : S.Ordered) (i : ScopeId) : (S.route i).Pairwise (· > ·) := by
  induction i using Nat.strongRecOn with
  | ind i ih =>
    rw [h.route_eq i]
    cases hj : S.escalate i with
    | none => exact List.pairwise_singleton _ _
    | some j =>
      have hlt := h.escalate_lt hj
      exact List.pairwise_cons.2
        ⟨fun k hk => Nat.lt_of_le_of_lt (le_of_mem_route hk) hlt, ih j hlt⟩

end Order

section Anchors

theorem mem_anchors_of_anchor? (h : S.anchor? i = some n) : n ∈ S.anchors := by
  obtain ⟨s, hs, rfl⟩ := Option.map_eq_some_iff.1 h
  exact List.mem_map_of_mem (Array.mem_toList_iff.2 (Array.mem_of_getElem? hs))

theorem anchor?_eq_getElem? (S : ScopeTree) (i : ScopeId) : S.anchor? i = S.anchors[i]? := by
  simp [anchor?, anchors]

/-- Where every node anchors one scope at most, a scope is known by its anchor. -/
theorem eq_of_anchor? (hS : S.anchors.Nodup) (hi : S.anchor? i = some n)
    (hj : S.anchor? j = some n) : i = j := by
  rw [anchor?_eq_getElem?] at hi hj
  have hlt := (List.getElem?_eq_some_iff.1 hi).1
  exact (List.getElem?_inj hlt hS).1 (hi.trans hj.symm)

theorem anchoredAt_of_anchor? (hS : S.anchors.Nodup) (h : S.anchor? i = some n) :
    S.anchoredAt n = some i := by
  cases hj : S.anchoredAt n with
  | none => exact absurd (mem_anchors_of_anchor? h) (not_mem_anchors_of_anchoredAt hj)
  | some j => rw [eq_of_anchor? hS h (anchor?_of_anchoredAt hj)]

/-- A scope that stands where a node is given is the scope of that node. -/
theorem Stands.eq_bind (hS : S.anchors.Nodup) (h : S.Stands around holder) :
    around = holder.bind S.anchoredAt := by
  cases around with
  | none => simp [stands_none.1 h]
  | some i =>
    obtain ⟨a, rfl, ha⟩ := stands_some.1 h
    exact (anchoredAt_of_anchor? hS ha).symm

end Anchors

section Rooted

variable {t : Tree}

theorem anchors_build_nodup (ht : t.Rooted) : (build t).anchors.Nodup := by
  rw [anchors_build ht]
  exact (ht.named_once.walkFrom_nodup t.root).filter _

theorem mem_walk_of_anchor? (ht : t.Rooted) (hi : (build t).anchor? i = some n) : n ∈ t.walk := by
  have hmem := mem_anchors_of_anchor? hi
  rw [anchors_build ht] at hmem
  exact (List.mem_filter.1 hmem).1

/-- The scope that a scope lies in is anchored at the innermost holder around its anchor. -/
theorem stands_parent? (ht : t.Rooted) (hi : (build t).anchor? i = some n) :
    (build t).Stands ((build t).parent? i) (t.holder? n) := by
  obtain ⟨s, hs, rfl⟩ := Option.map_eq_some_iff.1 hi
  have hparent : (build t).parent? i = s.parent := by simp [parent?, hs]
  rw [hparent]
  exact (build_describes ht hs).held

/-- The scope of a node lies in the innermost scope around the node. -/
theorem parent?_eq_enclosing (ht : t.Rooted) (hi : (build t).anchor? i = some n) :
    (build t).parent? i = (build t).enclosing t.toForest n := by
  have hn := mem_walk_of_anchor? ht hi
  have hnodup := anchors_build_nodup ht
  rw [(stands_parent? ht hi).eq_bind hnodup, (stands_enclosing ht hn).eq_bind hnodup]

/-- The way outwards from where a holder stands, given the way outwards from there. -/
theorem map_anchor?_elim (h : S.Stands around (f.holder? n))
    (houter : ∀ i ∈ around, ∀ a, S.anchor? i = some a →
      (S.outward i).map S.anchor? = ((f.ancestors a).filter f.introduces).map some) :
    (around.elim [] fun i => i :: S.outward i).map S.anchor? =
      ((f.ancestors n).filter f.introduces).map some := by
  cases around with
  | none =>
    rw [Forest.filter_ancestors_of_none (stands_none.1 h)]
    rfl
  | some i =>
    obtain ⟨a, ha, hanchor⟩ := stands_some.1 h
    rw [Forest.filter_ancestors_of_holder? ha, List.map_cons, ← hanchor,
      ← houter i rfl a hanchor]
    rfl

/-- The scopes outwards of a scope are those of the nodes around its anchor. -/
theorem map_anchor?_outward (ht : t.Rooted) (hi : (build t).anchor? i = some a) :
    ((build t).outward i).map (build t).anchor? =
      ((t.ancestors a).filter t.introduces).map some := by
  induction i using Nat.strongRecOn generalizing a with
  | ind i ih =>
    rw [(ordered_build t).outward_eq i]
    exact map_anchor?_elim (stands_parent? ht hi) fun p hp b hb => ih p (ordered_build t i p hp) hb

/-- The scopes around a node are those of its ancestors that introduce one. -/
theorem map_anchor?_scopesAround (ht : t.Rooted) (hn : n ∈ t.walk) :
    ((build t).scopesAround t.toForest n).map (build t).anchor? =
      ((t.ancestors n).filter t.introduces).map some :=
  map_anchor?_elim (stands_enclosing ht hn) fun _ _ _ ha => map_anchor?_outward ht ha

/-- In a rooted tree the walk adds one scope for each node that introduces one, in its order; the
innermost scope around a node is that of its innermost ancestor with a scope, and the scope of a
node lies in just that one, so the scopes around a node are those of its ancestors. In every tree a
scope lies in, and a look-up goes on in, a scope with a smaller number, so that every way outwards
is followed to its end and a look-up asks no scope twice. -/
theorem scopes_follow_ancestors (t : Tree) :
    (t.Rooted →
      (build t).anchors = t.walk.filter t.introduces ∧ (build t).anchors.Nodup ∧
      ∀ n ∈ t.walk,
        (build t).enclosing t.toForest n = (t.holder? n).bind (build t).anchoredAt ∧
        (∀ a ∈ t.holder? n, ∃ i, (build t).anchoredAt a = some i) ∧
        (∀ i, (build t).anchoredAt n = some i →
          (build t).parent? i = (build t).enclosing t.toForest n) ∧
        ((build t).scopesAround t.toForest n).map (build t).anchor? =
          ((t.ancestors n).filter t.introduces).map some) ∧
    ∀ i,
      (∀ p, (build t).parent? i = some p → p < i) ∧
      (∀ j, (build t).escalate i = some j → j < i) ∧
      (build t).outward i = (((build t).parent? i).elim [] fun p => p :: (build t).outward p) ∧
      (build t).route i = i :: ((build t).escalate i).elim [] (build t).route ∧
      ((build t).route i).Pairwise (· > ·) := by
  refine ⟨fun ht => ⟨anchors_build ht, anchors_build_nodup ht, fun n hn => ?_⟩, fun i => ?_⟩
  · have hnodup := anchors_build_nodup ht
    have hstands := stands_enclosing ht hn
    refine ⟨hstands.eq_bind hnodup, fun a ha => ?_, fun i hi => ?_,
      map_anchor?_scopesAround ht hn⟩
    · cases hi : (build t).enclosing t.toForest n with
      | none => simp [stands_none.1 (hi ▸ hstands)] at ha
      | some i =>
        obtain ⟨b, hb, hanchor⟩ := stands_some.1 (hi ▸ hstands)
        obtain rfl : b = a := Option.some.inj (hb.symm.trans ha)
        exact ⟨i, anchoredAt_of_anchor? hnodup hanchor⟩
    · exact parent?_eq_enclosing ht (anchor?_of_anchoredAt hi)
  · have hordered := ordered_build t
    exact ⟨hordered i, fun j => hordered.escalate_lt, hordered.outward_eq i, hordered.route_eq i,
      hordered.route_pairwise i⟩

/-- A variable in a block of a member function, in a module that stands under a tuple. -/
def nestedScopes : Tree := Tree.ofKinds [
  .reference ⟨⟨1⟩, none⟩, .varDecl ⟨1⟩ false none ⟨0⟩, .block [⟨1⟩], .function ⟨2⟩ [] none ⟨2⟩,
  .structDecl ⟨3⟩ [] [⟨3⟩], .moduleDecl ⟨4⟩ true [⟨4⟩], .tuple [⟨5⟩]]

theorem scopes_follow_ancestors_nested : nestedScopes.Rooted ∧
    (build nestedScopes).anchors = [⟨5⟩, ⟨4⟩, ⟨3⟩, ⟨2⟩, ⟨1⟩] ∧
    ((build nestedScopes).scopesAround nestedScopes.toForest ⟨0⟩).map
      (build nestedScopes).anchor? = [some ⟨1⟩, some ⟨2⟩, some ⟨3⟩, some ⟨4⟩, some ⟨5⟩] := by
  have ht : nestedScopes.Rooted := by decide
  have hwalk : nestedScopes.walk.filter nestedScopes.introduces =
      [⟨5⟩, ⟨4⟩, ⟨3⟩, ⟨2⟩, ⟨1⟩] := by decide +kernel
  have hancestors : (nestedScopes.ancestors ⟨0⟩).filter nestedScopes.introduces =
      [⟨1⟩, ⟨2⟩, ⟨3⟩, ⟨4⟩, ⟨5⟩] := by decide +kernel
  have hmem : (⟨0⟩ : NodeId) ∈ nestedScopes.walk := by decide +kernel
  obtain ⟨hanchors, -, hnodes⟩ := (scopes_follow_ancestors nestedScopes).1 ht
  obtain ⟨-, -, -, haround⟩ := hnodes ⟨0⟩ hmem
  exact ⟨ht, hanchors.trans hwalk, by rw [haround, hancestors]; rfl⟩

end Rooted

end ScopeTree
end SemanticAnalysis
