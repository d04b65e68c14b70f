import SemanticAnalysis.Declarations.Lowering
import SemanticAnalysis.Proofs.BlockOrder
import SemanticAnalysis.Proofs.Lookups

/-!
The bindings that lowering has reached. It goes down the tree, and before it comes
to a node the bindings around that node which may be referred to are bound, while
those after it and below it are not. This is kept from a node to its children, in
whatever order they are lowered, and from a block to its items in their order.
-/

namespace SemanticAnalysis

namespace Lowering

variable {f : Forest} {n c x d : NodeId} {cs ds pre post : List NodeId} {st st₁ st₂ : Lowering}

/-- Lowering went from one state to another: it forgot nothing, and the bindings it reached are
below the given nodes. -/
structure Advances (f : Forest) (cs : List NodeId) (st st' : Lowering) : Prop where
  assumed : ∀ v, st.assumptions.contains v = true → st'.assumptions.contains v = true
  bound : ∀ d, st.bound.contains d = true → st'.bound.contains d = true
  region : ∀ d, st'.bound.contains d = true → st.bound.contains d = true ∨
    ∃ c ∈ cs, d ∈ f.walkFrom c

theorem Advances.refl (f : Forest) (cs : List NodeId) (st : Lowering) : Advances f cs st st :=
  ⟨fun _ h => h, fun _ h => h, fun _ h => Or.inl h⟩

theorem Advances.trans (h₁ : Advances f cs st st₁) (h₂ : Advances f ds st₁ st₂) :
    Advances f (cs ++ ds) st st₂ where
  assumed v hv := h₂.assumed v (h₁.assumed v hv)
  bound d hd := h₂.bound d (h₁.bound d hd)
  region d hd := by
    rcases h₂.region d hd with hd | ⟨c, hc, hd⟩
    · rcases h₁.region d hd with hd | ⟨c, hc, hd⟩
      · exact Or.inl hd
      · exact Or.inr ⟨c, List.mem_append_left _ hc, hd⟩
    · exact Or.inr ⟨c, List.mem_append_right _ hc, hd⟩

theorem Advances.widen (h : Advances f cs st st₁)
    (hcs : ∀ c ∈ cs, ∃ e ∈ ds, c ∈ f.walkFrom e) : Advances f ds st st₁ where
  assumed := h.assumed
  bound := h.bound
  region d hd := by
    rcases h.region d hd with hd | ⟨c, hc, hd⟩
    · exact Or.inl hd
    · obtain ⟨e, he, hce⟩ := hcs c hc
      exact Or.inr ⟨e, he, Forest.mem_walkFrom_trans hce hd⟩

theorem Advances.not_bound (h : Advances f cs st st₁) (hd : st.bound.contains d = false)
    (hcs : ∀ c ∈ cs, d ∉ f.walkFrom c) : st₁.bound.contains d = false := by
  rw [← Bool.not_eq_true]
  intro hd'
  rcases h.region d hd' with hd' | ⟨c, hc, hd'⟩
  · simp [hd] at hd'
  · exact hcs c hc hd'

structure Entering (f : Forest) (n : NodeId) (st : Lowering) : Prop where
  fresh : ∀ c ∈ f.children n, ∀ d ∈ f.walkFrom c, st.bound.contains d = false
  after : ∀ d, f.ComesAfter n d → st.bound.contains d = false
  reached : ∀ d, f.Reached n d → d ≠ n → st.bound.contains d = true

/-- The bindings that a node may refer to have been reached, but none after it or below it. -/
structure Ready (f : Forest) (n : NodeId) (st : Lowering) : Prop extends Entering f n st where
  self : f.Reached n n → st.bound.contains n = true

theorem Ready.of_reached (h : Ready f n st) (hd : f.Reached n d) : st.bound.contains d = true := by
  by_cases hdn : d = n
  · subst hdn
    exact h.self hd
  · exact h.reached d hd hdn

theorem Entering.advance (h : Entering f n st) (hadv : Advances f [] st st₁) :
    Entering f n st₁ where
  fresh c hc d hd := hadv.not_bound (h.fresh c hc d hd) (by simp)
  after d hd := hadv.not_bound (h.after d hd) (by simp)
  reached d hd hne := hadv.bound d (h.reached d hd hne)

theorem Ready.advance (h : Ready f n st) (hadv : Advances f [] st st₁) : Ready f n st₁ where
  toEntering := h.toEntering.advance hadv
  self hd := hadv.bound n (h.self hd)

/-- A node that binds no name is ready as soon as lowering comes to it. -/
theorem Entering.ready (h : Entering f n st) (hn : f.isLocalBinding n = false) :
    Ready f n st where
  toEntering := h
  self hd := by
    obtain ⟨-, -, -, -, -, -, hlocal⟩ := hd
    simp [hn] at hlocal

/-- A node that binds a name is ready once it has been reached. -/
theorem Entering.reach (hf : f.NamedOnce) (h : Entering f n st) :
    Ready f n { st with bound := st.bound.insert n () } where
  fresh c hc d hd := by
    have hne : n ≠ d := by
      rintro rfl
      exact Forest.not_mem_walkFrom_child hc hd
    simp [hne, h.fresh c hc d hd]
  after d hd := by
    have hne : n ≠ d := by
      rintro rfl
      exact hd.not_mem_walkFrom hf (Forest.self_mem_walkFrom f n)
    simp [hne, h.after d hd]
  reached d hd hne := by simp [h.reached d hd hne]
  self _ := by simp

/-- Children of a node other than a block are lowered one after the other. -/
theorem Ready.child (hf : f.NamedOnce) (h : Ready f n st)
    (hn : ∀ items, f.kind? n ≠ some (.block items)) (hc : c ∈ f.children n)
    (hadv : Advances f cs st st₁) (hcs : ∀ x ∈ cs, x ∈ f.children n ∧ x ≠ c) : Ready f c st₁ where
  fresh e he d hd := by
    have hdc := Forest.mem_walkFrom_of_child he hd
    refine hadv.not_bound (h.fresh c hc d hdc) fun x hx hdx => ?_
    exact (hcs x hx).2 (hf.child_unique (hcs x hx).1 hc hdx hdc)
  after d hd := by
    have hn' := hd.of_child hf hc hn
    refine hadv.not_bound (h.after d hn') fun x hx hdx => ?_
    exact hn'.not_mem_walkFrom hf (Forest.mem_walkFrom_of_child (hcs x hx).1 hdx)
  reached d hd _ := hadv.bound d (h.of_reached (hd.of_child hf hc hn))
  self hd := hadv.bound c (h.of_reached (hd.of_child hf hc hn))

/-- Lowering comes to an item of a block after the items before it. -/
theorem Ready.item (hf : f.NamedOnce) (h : Ready f n st)
    (hk : f.kind? n = some (.block (pre ++ x :: post))) (hadv : Advances f pre st st₁)
    (hpre : ∀ d ∈ pre, f.isLocalBinding d = true → st₁.bound.contains d = true) :
    Entering f x st₁ := by
  have hchildren := Forest.children_block hk
  have hx : x ∈ f.children n := by simp [hchildren]
  have hnodup : (pre ++ x :: post).Nodup := hchildren ▸ hf.children_nodup n
  have hdisjoint : ∀ c ∈ pre, ∀ y ∈ x :: post, ∀ d ∈ f.walkFrom y, d ∉ f.walkFrom c := by
    intro c hc y hy d hdy hdc
    have heq := hf.child_unique (n := n) (by rw [hchildren]; simp [hc])
      (by rw [hchildren]; exact List.mem_append_right _ hy) hdc hdy
    exact (List.nodup_append.1 hnodup).2.2 c hc y hy heq
  refine ⟨?_, ?_, ?_⟩
  · intro c hc d hd
    have hdx := Forest.mem_walkFrom_of_child hc hd
    exact hadv.not_bound (h.fresh x hx d hdx) fun c hc => hdisjoint c hc x (by simp) d hdx
  · intro d hd
    rcases hd.of_item hf hk with hd | hd
    · refine hadv.not_bound (h.after d hd) fun c hc hdc => ?_
      have hcn : c ∈ f.children n := by rw [hchildren]; simp [hc]
      exact hd.not_mem_walkFrom hf (Forest.mem_walkFrom_of_child hcn hdc)
    · have hself := Forest.self_mem_walkFrom f d
      have hdn : d ∈ f.children n := by rw [hchildren]; simp [hd]
      exact hadv.not_bound (h.fresh d hdn d hself) fun c hc =>
        hdisjoint c hc d (by simp [hd]) d hself
  · intro d hd hne
    rcases hd.of_item hf hk with hd | ⟨hd, hlocal⟩
    · exact hadv.bound d (h.of_reached hd)
    · have hd' : d ∈ pre := by simpa [hne] using hd
      exact hpre d hd' hlocal

end Lowering

end SemanticAnalysis
