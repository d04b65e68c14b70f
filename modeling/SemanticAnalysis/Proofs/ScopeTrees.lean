import SemanticAnalysis.Proofs.WellFormedTrees

/-!
What the scopes of a tree are. The scopes built for a tree are anchored at the
nodes of its walk that introduce one; each is what its anchor introduces, and the
scope around it is anchored at the innermost node around its anchor that
introduces a scope. A look-up that starts at a node therefore asks, apart from
modules and types, only scopes of nodes that no function separates from it.
-/

namespace SemanticAnalysis

namespace Forest

variable {f : Forest} {n m a p : NodeId}

def introduces (f : Forest) (n : NodeId) : Bool := ((f.kind? n).bind ScopeKind.of?).isSome

theorem introduces_iff : f.introduces n = true ↔
    ∃ k s, f.kind? n = some k ∧ ScopeKind.of? k = some s := by
  cases h : f.kind? n <;> simp [introduces, h, Option.isSome_iff_exists]

/-- The innermost node strictly around a node that introduces a scope. -/
def holder? (f : Forest) (n : NodeId) : Option NodeId := (f.ancestors n).find? f.introduces

theorem holder?_of_none (h : f.parent? n = none) : f.holder? n = none := by
  simp [holder?, ancestors_of_none h]

theorem holder?_of_parent? (h : f.parent? n = some p) :
    f.holder? n = if f.introduces p then some p else f.holder? p := by
  rw [holder?, ancestors_of_parent? h, List.find?_cons]
  cases f.introduces p <;> rfl

def isFunction (f : Forest) (n : NodeId) : Bool := (f.kind? n).any Kind.isFunction

/-- A node lies around another one, and no function lies between them. -/
inductive Near (f : Forest) : NodeId → NodeId → Prop
  | parent {n p : NodeId} (h : f.parent? n = some p) : Near f n p
  | step {n p a : NodeId} (h : f.parent? n = some p) (hp : f.isFunction p = false)
      (ha : Near f p a) : Near f n a

theorem Near.trans (hn : f.Near n m) (hm : f.isFunction m = false) (ha : f.Near m a) :
    f.Near n a := by
  induction hn with
  | parent h => exact .step h hm ha
  | step h hp _ ih => exact .step h hp (ih hm ha)

theorem Near.mem_ancestors (h : f.Near n a) : a ∈ f.ancestors n := by
  induction h with
  | parent h => simp [ancestors_of_parent? h]
  | step h _ _ ih =>
    rw [ancestors_of_parent? h]
    exact List.mem_cons_of_mem _ ih

theorem introduces_of_isFunction (h : f.isFunction n = true) : f.introduces n = true := by
  cases hk : f.kind? n with
  | none => simp [isFunction, hk] at h
  | some k =>
    simp only [isFunction, hk, Option.any_some] at h
    cases k <;> simp [Kind.isFunction] at h <;> simp [introduces, hk, ScopeKind.of?]

/-- Up to the innermost node that introduces a scope there is no function. -/
theorem near_of_holder? (h : f.holder? n = some a) : f.Near n a := by
  induction n using parentInduction (f := f) with
  | top n hn => simp [holder?_of_none hn] at h
  | step n p hn ih =>
    rw [holder?_of_parent? hn] at h
    by_cases hp : f.introduces p = true
    · rw [if_pos hp] at h
      cases h
      exact .parent hn
    · rw [if_neg hp] at h
      have hfn : f.isFunction p = false := by
        rw [← Bool.not_eq_true]
        exact fun hfn => hp (introduces_of_isFunction hfn)
      exact .step hn hfn (ih h)

end Forest

namespace ScopeTree

variable {f : Forest} {S S' : ScopeTree} {n : NodeId} {i : ScopeId} {around : Option ScopeId}
  {holder : Option NodeId} {nodes : List NodeId}

def anchor? (S : ScopeTree) (i : ScopeId) : Option NodeId := (S.scopes[i]?).map (·.anchor)

def anchors (S : ScopeTree) : List NodeId := S.scopes.toList.map (·.anchor)

/-- A scope given by number is anchored where a node is given, or neither is given. -/
def Stands (S : ScopeTree) (around : Option ScopeId) (holder : Option NodeId) : Prop :=
  around.map S.anchor? = holder.map some

/-- A scope is what its anchor introduces, inside the scope of the innermost node around the
anchor that introduces one. -/
structure Describes (S : ScopeTree) (f : Forest) (s : Scope) : Prop where
  introduced : ∃ k, f.kind? s.anchor = some k ∧ ScopeKind.of? k = some s.kind ∧
    s.declarations = f.scopeDeclarations k
  held : S.Stands s.parent (f.holder? s.anchor)

theorem stands_none : S.Stands none holder ↔ holder = none := by
  cases holder <;> simp [Stands]

theorem stands_some : S.Stands (some i) holder ↔ ∃ a, holder = some a ∧ S.anchor? i = some a := by
  cases holder <;> simp [Stands]

section Building

theorem Stands.kept (h : S.Stands around holder)
    (hkept : ∀ (i : ScopeId) (s : Scope), S.scopes[i]? = some s → S'.scopes[i]? = some s) :
    S'.Stands around holder := by
  cases around with
  | none => exact stands_none.2 (stands_none.1 h)
  | some i =>
    obtain ⟨a, rfl, ha⟩ := stands_some.1 h
    obtain ⟨s, hs, rfl⟩ := Option.map_eq_some_iff.1 ha
    exact stands_some.2 ⟨s.anchor, rfl, by simp [anchor?, hkept i s hs]⟩

/-- What adding scopes leaves: the scopes before, and described scopes anchored at those of some
nodes that introduce one. -/
structure Grown (f : Forest) (nodes : List NodeId) (S S' : ScopeTree) : Prop where
  kept : ∀ (i : ScopeId) (s : Scope), S.scopes[i]? = some s → S'.scopes[i]? = some s
  added : S'.anchors = S.anchors ++ nodes.filter f.introduces
  described : ∀ (i : ScopeId) (s : Scope), S'.scopes[i]? = some s →
    S.scopes[i]? = some s ∨ S'.Describes f s

theorem Grown.refl (f : Forest) (S : ScopeTree) : Grown f [] S S :=
  ⟨fun _ _ hs => hs, by simp, fun _ _ hs => Or.inl hs⟩

theorem Grown.trans {S₁ S₂ S₃ : ScopeTree} {ms ns : List NodeId} (h₁ : Grown f ms S₁ S₂)
    (h₂ : Grown f ns S₂ S₃) : Grown f (ms ++ ns) S₁ S₃ where
  kept i s hs := h₂.kept i s (h₁.kept i s hs)
  added := by rw [h₂.added, h₁.added, List.filter_append, List.append_assoc]
  described i s hs := by
    rcases h₂.described i s hs with hs | hs
    · rcases h₁.described i s hs with hs | hs
      · exact Or.inl hs
      · exact Or.inr ⟨hs.introduced, hs.held.kept h₂.kept⟩
    · exact Or.inr hs

theorem enter_of_kind {k : Kind} {kind : ScopeKind} (hk : f.kind? n = some k)
    (hkind : ScopeKind.of? k = some kind) :
    S.enter f n around =
      (⟨S.scopes.push ⟨n, kind, around, f.scopeDeclarations k⟩⟩, some S.size) := by
  simp only [enter, hk, hkind, Option.bind_some, Option.map_some]

theorem enter_of_not_introduces (h : f.introduces n = false) :
    S.enter f n around = (S, around) := by
  have hnone : ((f.kind? n).bind fun k => (ScopeKind.of? k).map fun s => (k, s)) = none := by
    cases hk : f.kind? n <;> simp_all [Forest.introduces]
  simp only [enter, hnone]

/-- Entering a node adds its scope, and its children stand in the scope of the innermost node
around them that introduces one. -/
theorem grown_enter (haround : S.Stands around (f.holder? n)) :
    Grown f [n] S (S.enter f n around).1 ∧
      (S.enter f n around).1.Stands (S.enter f n around).2
        (if f.introduces n then some n else f.holder? n) := by
  by_cases hintro : f.introduces n = true
  · obtain ⟨k, kind, hk, hkind⟩ := Forest.introduces_iff.1 hintro
    rw [enter_of_kind hk hkind, if_pos hintro]
    have hkept : ∀ (i : ScopeId) (s : Scope), S.scopes[i]? = some s →
        (S.scopes.push ⟨n, kind, around, f.scopeDeclarations k⟩)[i]? = some s := by
      intro i s hs
      have hi := (Array.getElem?_eq_some_iff.1 hs).1
      rw [Array.getElem?_push, if_neg (by omega), hs]
    refine ⟨⟨hkept, by simp [anchors, hintro], ?_⟩, by simp [Stands, anchor?, size]⟩
    intro i s hs
    rw [Array.getElem?_push] at hs
    split at hs
    · cases hs
      exact Or.inr ⟨⟨k, hk, hkind, rfl⟩, haround.kept hkept⟩
    · exact Or.inl hs
  · rw [enter_of_not_introduces (by simpa using hintro), if_neg hintro]
    exact ⟨⟨fun _ _ hs => hs, by simp [hintro], fun _ _ hs => Or.inl hs⟩, haround⟩

/-- The scopes of a node and of everything below it, added one child after the other. -/
def extend (f : Forest) (around : Option ScopeId) (S : ScopeTree) (n : NodeId) : ScopeTree :=
  (f.children n).attach.foldl (fun acc c => extend f (S.enter f n around).2 acc c.1)
    (S.enter f n around).1
termination_by n.index
decreasing_by exact Forest.index_lt_of_mem_children c.2

theorem extend_eq (f : Forest) (around : Option ScopeId) (S : ScopeTree) (n : NodeId) :
    extend f around S n =
      (f.children n).foldl (extend f (S.enter f n around).2) (S.enter f n around).1 := by
  rw [extend, List.foldl_attach (f := extend f (S.enter f n around).2)]

namespace Walk

variable {w : Walk}

theorem run_of_none (h : w.stack.back? = none) : w.run f = w.found := by
  rw [run]
  split
  · rfl
  · rename_i hsome
    simp [hsome] at h

theorem run_of_some {p : NodeId × Option ScopeId} (h : w.stack.back? = some p) :
    w.run f = (w.step f).run f := by
  rw [run]
  split
  · rename_i hnone
    simp [hnone] at h
  · rfl

/-- What a walk finds in all: each node on the stack, from the top on, adds what lies below it. -/
def result (f : Forest) (w : Walk) : ScopeTree :=
  w.stack.toList.reverse.foldl (fun S p => extend f p.2 S p.1) w.found

/-- The children take the place of their node on the stack, and add what it had still to add. -/
theorem result_step (w : Walk) : (w.step f).result f = w.result f := by
  cases h : w.stack.back? with
  | none => rw [step, h]
  | some p =>
    obtain ⟨n, around⟩ := p
    obtain ⟨rest, hrest⟩ := Array.back?_eq_some_iff.1 h
    rw [result, result, step_eq h, hrest]
    simp [extend_eq f around, List.foldl_map]

theorem run_eq_result (w : Walk) : w.run f = w.result f := by
  induction w using run.induct f with
  | case1 w h => simp [run_of_none h, result, Array.back?_eq_none_iff.1 h]
  | case2 w p h _ ih => rw [run_of_some h, ih, result_step]

end Walk

/-- The loop over the stack builds what the recursion over the children does. -/
theorem build_eq_extend (t : Tree) : build t = extend t.toForest none empty t.root := by
  rw [build, Walk.run_eq_result, Walk.result]
  simp

/-- Adding the scopes of some nodes in turn inside one scope. -/
theorem grown_foldl {cs : List NodeId} (hS : S.Stands around holder)
    (step : ∀ c ∈ cs, ∀ S : ScopeTree, S.Stands around holder →
      Grown f (f.walkFrom c) S (extend f around S c)) :
    Grown f (cs.flatMap f.walkFrom) S (cs.foldl (extend f around) S) := by
  induction cs generalizing S with
  | nil => exact Grown.refl f S
  | cons c rest ih =>
    have hc := step c (List.mem_cons_self ..) S hS
    have hrest := ih (hS.kept hc.kept) fun d hd => step d (List.mem_cons_of_mem c hd)
    exact hc.trans hrest

/-- The scopes added for a node are those of the nodes of its walk that introduce one. -/
theorem grown_extend (hf : f.NamedOnce) (hS : S.Stands around (f.holder? n)) :
    Grown f (f.walkFrom n) S (extend f around S n) := by
  induction n using Forest.childInduction (f := f) generalizing S around with
  | step n ih =>
    have hholder : ∀ c ∈ f.children n,
        f.holder? c = if f.introduces n then some n else f.holder? n :=
      fun c hc => Forest.holder?_of_parent? (hf.parent?_of_mem hc)
    obtain ⟨hentered, hinner⟩ := grown_enter hS
    rw [Forest.walkFrom_eq, extend_eq]
    refine hentered.trans (grown_foldl hinner ?_)
    intro c hc S' hS'
    exact ih c hc (by rwa [hholder c hc])

end Building

section Built

variable {t : Tree} {site : NodeId} {s : Scope}

theorem grown_build (ht : t.Rooted) : Grown t.toForest t.walk empty (build t) := by
  rw [build_eq_extend]
  exact grown_extend ht.named_once (by simp [Stands, Forest.holder?_of_none ht.root_top])

theorem build_describes (ht : t.Rooted) (hs : (build t).scopes[i]? = some s) :
    (build t).Describes t.toForest s := by
  rcases (grown_build ht).described i s hs with hs | hs
  · simp [empty] at hs
  · exact hs

/-- The scopes are those of the nodes that introduce one, in the order of the walk. -/
theorem anchors_build (ht : t.Rooted) : (build t).anchors = t.walk.filter t.introduces := by
  simpa [anchors, empty] using (grown_build ht).added

theorem anchor?_of_anchoredAt (h : S.anchoredAt n = some i) : S.anchor? i = some n := by
  have hi := List.find?_some h
  cases hs : S.scopes[i]? with
  | none => simp [hs] at hi
  | some s => simpa [anchor?, hs] using hi

theorem not_mem_anchors_of_anchoredAt (h : S.anchoredAt n = none) : n ∉ S.anchors := by
  intro hn
  obtain ⟨s, hs, rfl⟩ := List.mem_map.1 hn
  obtain ⟨i, hi⟩ := List.mem_iff_getElem?.1 hs
  rw [Array.getElem?_toList] at hi
  have hlt := (Array.getElem?_eq_some_iff.1 hi).1
  rw [anchoredAt, List.find?_eq_none] at h
  exact h i (by simpa [size] using hlt) (by simp [hi])

/-- The innermost scope around a node is anchored at its innermost holder. -/
theorem stands_enclosing (ht : t.Rooted) (hn : n ∈ t.walk) :
    (build t).Stands ((build t).enclosing t.toForest n) (t.holder? n) := by
  unfold enclosing
  induction n using Forest.parentInduction (f := t.toForest) with
  | top n htop => simp [Stands, Forest.ancestors_of_none htop, Forest.holder?_of_none htop]
  | step n p hp ih =>
    have hwalk := ht.parent_mem_walk hn hp
    rw [Forest.ancestors_of_parent? hp, List.findSome?_cons, Forest.holder?_of_parent? hp]
    cases hanchored : (build t).anchoredAt p with
    | some j =>
      have hanchor := anchor?_of_anchoredAt hanchored
      obtain ⟨s, hs, rfl⟩ := Option.map_eq_some_iff.1 hanchor
      obtain ⟨k, hk, hkind, -⟩ := (build_describes ht hs).introduced
      have hintro := Forest.introduces_iff.2 ⟨k, s.kind, hk, hkind⟩
      simpa [Stands, hintro] using hanchor
    | none =>
      have hnot : ¬ t.introduces p = true := fun hintro =>
        not_mem_anchors_of_anchoredAt hanchored
          (anchors_build ht ▸ List.mem_filter.2 ⟨hwalk, hintro⟩)
      rw [if_neg hnot]
      exact ih hwalk

/-- A node of a well-formed tree with a scope around it has a holder. -/
theorem exists_holder_of_enclosing (ht : t.WellFormed)
    (h : (build t).enclosing t.toForest site = some i) :
    ∃ a, t.holder? site = some a ∧ (build t).anchor? i = some a := by
  cases hp : t.parent? site with
  | none => simp [enclosing, Forest.ancestors_of_none hp] at h
  | some p =>
    have hchild := Forest.mem_children_of_parent? hp
    cases hkp : t.kind? p with
    | none => simp [Forest.children, hkp] at hchild
    | some kp =>
      have hsite : site ∈ t.walk := Forest.mem_walkFrom_trans (ht.mem_walk hkp)
        (Forest.mem_walkFrom_of_child hchild (Forest.self_mem_walkFrom _ site))
      have hstands := stands_enclosing ht.rooted hsite
      rw [h] at hstands
      exact stands_some.1 hstands

section Kinds

variable {k : Kind}

theorem of?_eq_global : ScopeKind.of? k = some .global ↔
    ∃ name isGlobal items, k = .moduleDecl name isGlobal items := by
  cases k <;> simp [ScopeKind.of?]

theorem isTypeDecl_of_object (h : ScopeKind.of? k = some .object) : k.isTypeDecl = true := by
  cases k <;> simp [ScopeKind.of?] at h <;> rfl

theorem not_isFunction_of_inner (h : ScopeKind.of? k = some .inner) : k.isFunction = false := by
  cases k <;> simp [ScopeKind.of?] at h <;> rfl

end Kinds

/-- No scope lies around a module. -/
theorem holder?_moduleDecl (ht : t.WellFormed) {name isGlobal items}
    (hk : t.kind? n = some (.moduleDecl name isGlobal items)) : t.holder? n = none := by
  obtain ⟨p, modules, hp, hkp⟩ := ht.parent_moduleDecl hk
  have hintro : ¬ t.introduces p = true := by simp [Forest.introduces, hkp, ScopeKind.of?]
  rw [Forest.holder?_of_parent? hp, if_neg hintro, ht.eq_root_of_file hkp]
  exact Forest.holder?_of_none ht.root_top

def InSight (t : Tree) (site : NodeId) (s : Scope) : Prop :=
  s.kind = .global ∨ s.kind = .object ∨ t.Near site s.anchor

/-- Look-ups go on in sight of where they start. -/
theorem inSight_escalate (ht : t.WellFormed) {j : ScopeId} {s' : Scope}
    (hs : (build t).scopes[i]? = some s) (hsight : InSight t site s)
    (hj : (build t).escalate i = some j) (hs' : (build t).scopes[j]? = some s') :
    InSight t site s' := by
  simp only [escalate, hs] at hj
  split at hj
  · have hwide := List.find?_some hj
    simp only [hs', Option.any_some, Bool.or_eq_true, decide_eq_true_eq] at hwide
    exact hwide.imp_right Or.inl
  · rename_i hshield
    have hdesc := build_describes ht.rooted hs
    obtain ⟨k, hk, hkind, -⟩ := hdesc.introduced
    -- the scope outwards is anchored at the holder of the anchor
    have hholder : t.holder? s.anchor = some s'.anchor := by
      obtain ⟨b, hb, hanchor⟩ := stands_some.1 (hj ▸ hdesc.held)
      rw [hb, ← hanchor, anchor?, hs', Option.map_some]
    cases hkd : s.kind with
    | shielded => exact absurd hkd hshield
    | global =>
      rw [hkd, of?_eq_global] at hkind
      obtain ⟨name, isGlobal, items, rfl⟩ := hkind
      rw [holder?_moduleDecl ht hk] at hholder
      cases hholder
    | object =>
      rw [hkd] at hkind
      obtain ⟨p, name, isGlobal, items, hp, hkp⟩ :=
        ht.parent_typeDecl hk (isTypeDecl_of_object hkind)
      have hintro : t.introduces p = true := Forest.introduces_iff.2 ⟨_, _, hkp, rfl⟩
      rw [Forest.holder?_of_parent? hp, if_pos hintro] at hholder
      cases hholder
      obtain ⟨k', hk', hkind', -⟩ := (build_describes ht.rooted hs').introduced
      rw [hkp] at hk'
      cases hk'
      exact Or.inl (Option.some.inj hkind').symm
    | inner =>
      rw [hkd] at hkind
      have hfn : t.isFunction s.anchor = false := by
        simp [Forest.isFunction, hk, not_isFunction_of_inner hkind]
      have hnear : t.Near site s.anchor := by simpa [InSight, hkd] using hsight
      exact Or.inr (Or.inr (hnear.trans hfn (Forest.near_of_holder? hholder)))

/-- A look-up stays in sight from scope to scope. -/
theorem inSight_route (ht : t.WellFormed) {j : ScopeId} {s' : Scope}
    (hsight : ∀ s, (build t).scopes[i]? = some s → InSight t site s)
    (hj : j ∈ (build t).route i) (hs' : (build t).scopes[j]? = some s') : InSight t site s' := by
  induction i using Nat.strongRecOn with
  | ind i ih =>
    rw [route] at hj
    rcases List.mem_cons.1 hj with rfl | hj
    · exact hsight s' hs'
    · cases he : (build t).escalate i with
      | none => simp [he] at hj
      | some k =>
        simp only [he] at hj
        split at hj
        · rename_i hlt
          refine ih k hlt ?_ hj
          intro s hs
          cases hi : (build t).scopes[i]? with
          | none => simp [escalate, hi] at he
          | some si => exact inSight_escalate ht hi (hsight si hi) he hs
        · simp at hj

/-- The scopes that a look-up from a node asks are all in sight of it. -/
theorem inSight_of_enclosing (ht : t.WellFormed) {j : ScopeId}
    (hi : (build t).enclosing t.toForest site = some i) (hj : j ∈ (build t).route i)
    (hs : (build t).scopes[j]? = some s) : InSight t site s := by
  refine inSight_route ht ?_ hj hs
  intro s hs
  obtain ⟨a, ha, hanchor⟩ := exists_holder_of_enclosing ht hi
  simp only [anchor?, hs, Option.map_some, Option.some.injEq] at hanchor
  exact Or.inr (Or.inr (hanchor ▸ Forest.near_of_holder? ha))

end Built

end ScopeTree
end SemanticAnalysis
