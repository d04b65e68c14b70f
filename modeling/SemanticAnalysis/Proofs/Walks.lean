import Mathlib.Data.List.Nodup
import Mathlib.Data.List.Pairwise
import Mathlib.Logic.Function.Iterate
import SemanticAnalysis.Tree.Basic

/-!
Walks down a forest and climbs towards its roots. What a walk has visited and what
lies below its stack make up the listing in pre-order at every step, so the walk is
the listing. Where no node is named as a child twice, the node that names a child is
its parent, so a walk from a node comes to exactly those nodes whose climb passes it,
and comes to each once. Of two walks that meet one starts on the other, so walks from
two children of one node never meet.
-/

namespace SemanticAnalysis.Forest

variable {f : Forest} {n m c d p : NodeId}

section Walks

namespace Walk

theorem run_of_none {w : Walk} (h : w.stack.back? = none) : w.run f = w.order := by
  rw [run]
  split
  · rfl
  · rename_i hsome
    simp [hsome] at h

theorem run_of_some {w : Walk} (h : w.stack.back? = some n) : w.run f = (w.step f).run f := by
  rw [run]
  split
  · rename_i hnone
    simp [hnone] at h
  · rfl

/-- What a walk lists in all: what it visited, then what lies below its stack, from the top on. -/
def listing (f : Forest) (w : Walk) : List NodeId :=
  w.order.toList ++ w.stack.toList.reverse.flatMap f.preorder

/-- The children take the place of their node on the stack, as they do in the listing. -/
theorem listing_step (w : Walk) : (w.step f).listing f = w.listing f := by
  cases h : w.stack.back? with
  | none => rw [step, h]
  | some n =>
    have hstack : w.stack.toList.reverse = n :: w.stack.pop.toList.reverse := by
      rw [toList_stack h]
      simp
    rw [listing, listing, step_eq h, hstack, List.flatMap_cons, preorder_eq f n]
    simp

theorem toList_run (w : Walk) : (w.run f).toList = w.listing f := by
  induction w using run.induct f with
  | case1 w h => simp [run_of_none h, listing, Array.back?_eq_none_iff.1 h]
  | case2 w n h _ ih => rw [run_of_some h, ih, listing_step]

theorem run_start (f : Forest) (n : NodeId) :
    run f ⟨#[], #[n]⟩ = (f.preorder n).toArray := by
  apply Array.toList_inj.1
  rw [toList_run, listing]
  simp

/-- The stack is empty after as many steps as there were nodes ahead. -/
theorem iterate_step (w : Walk) : (step f)^[w.ahead f] w = ⟨w.run f, #[]⟩ := by
  induction w using run.induct f with
  | case1 w h =>
    have hstack := Array.back?_eq_none_iff.1 h
    have hahead : w.ahead f = 0 := by simp [ahead, hstack]
    rw [hahead, Function.iterate_zero_apply, run_of_none h, ← hstack]
  | case2 w n h hahead ih => rw [← hahead, Function.iterate_succ_apply, ih, run_of_some h]

/-- A walk from a node takes a step for each node of the listing and ends with the listing. -/
theorem iterate_step_start (f : Forest) (n : NodeId) :
    (step f)^[(f.preorder n).length] ⟨#[], #[n]⟩ = ⟨(f.preorder n).toArray, #[]⟩ := by
  have hahead : ahead f ⟨#[], #[n]⟩ = (f.preorder n).length := by simp [ahead]
  rw [← hahead, iterate_step, run_start]

end Walk

theorem walkFrom_eq_preorder (f : Forest) (n : NodeId) : f.walkFrom n = f.preorder n := by
  rw [walkFrom, Walk.run_start]

theorem walkFrom_eq (f : Forest) (n : NodeId) :
    f.walkFrom n = n :: (f.children n).flatMap f.walkFrom := by
  rw [walkFrom_eq_preorder, preorder_eq, funext (walkFrom_eq_preorder f)]

theorem mem_walkFrom_iff : d ∈ f.walkFrom n ↔ d = n ∨ ∃ c ∈ f.children n, d ∈ f.walkFrom c := by
  rw [walkFrom_eq]
  simp

theorem self_mem_walkFrom (f : Forest) (n : NodeId) : n ∈ f.walkFrom n :=
  mem_walkFrom_iff.2 (Or.inl rfl)

theorem mem_walkFrom_of_child (hc : c ∈ f.children n) (hd : d ∈ f.walkFrom c) :
    d ∈ f.walkFrom n :=
  mem_walkFrom_iff.2 (Or.inr ⟨c, hc, hd⟩)

/-- Induction down the children of a node. -/
theorem childInduction {motive : NodeId → Prop} (n : NodeId)
    (step : ∀ n, (∀ c ∈ f.children n, motive c) → motive n) : motive n :=
  step n fun c hc =>
    have : c.index < n.index := index_lt_of_mem_children hc
    childInduction c step
termination_by n.index

theorem mem_walkFrom_trans (hm : m ∈ f.walkFrom n) (hd : d ∈ f.walkFrom m) : d ∈ f.walkFrom n := by
  induction n using childInduction (f := f) with
  | step n ih =>
    rcases mem_walkFrom_iff.1 hm with rfl | ⟨c, hc, hm⟩
    · exact hd
    · exact mem_walkFrom_of_child hc (ih c hc hm)

theorem index_le_of_mem_walkFrom (hd : d ∈ f.walkFrom n) : d.index ≤ n.index := by
  induction n using childInduction (f := f) with
  | step n ih =>
    rcases mem_walkFrom_iff.1 hd with rfl | ⟨c, hc, hd⟩
    · exact Nat.le_refl _
    · have hlt := index_lt_of_mem_children hc
      have hle := ih c hc hd
      omega

theorem not_mem_walkFrom_child (hc : c ∈ f.children n) : n ∉ f.walkFrom c := by
  intro hn
  have hlt := index_lt_of_mem_children hc
  have hle := index_le_of_mem_walkFrom hn
  omega

end Walks

section Climbs

theorem mem_ids_iff : n ∈ f.ids ↔ n.index < f.size := by
  simp only [ids, List.mem_map, List.mem_range]
  constructor
  · rintro ⟨i, hi, rfl⟩
    exact hi
  · intro h
    exact ⟨n.index, h, rfl⟩

theorem mem_ids_of_kind {k : Kind} (h : f.kind? n = some k) : n ∈ f.ids := by
  rw [mem_ids_iff]
  simp only [kind?, node?, Option.map_eq_some_iff] at h
  obtain ⟨node, hnode, -⟩ := h
  exact (Array.getElem?_eq_some_iff.1 hnode).1

theorem children_of_kind {k : Kind} (h : f.kind? n = some k) : f.children n = k.children := by
  simp [children, h]

theorem mem_ids_of_mem_children (h : c ∈ f.children n) : n ∈ f.ids := by
  cases hk : f.kind? n with
  | none => simp [children, hk] at h
  | some k => exact mem_ids_of_kind hk

/-- A child has a parent, which is not before any node that names it. -/
theorem exists_parent_of_mem (h : c ∈ f.children n) :
    ∃ p, f.parent? c = some p ∧ n.index ≤ p.index := by
  have hlt : c.index < f.size :=
    Nat.lt_trans (index_lt_of_mem_children h) (index_lt_size_of_names (names_iff.2 h))
  have hnode : f.node? c = some f.nodes[c.index] := Array.getElem?_eq_getElem hlt
  obtain ⟨p, hp, hle⟩ := f.parent_last c.index _ n hnode (names_iff.2 h)
  exact ⟨p, by rw [parent?, hnode, Option.bind_some, hp], hle⟩

theorem parent?_eq_none_iff : f.parent? c = none ↔ ∀ n, c ∉ f.children n := by
  constructor
  · intro h n hc
    obtain ⟨p, hp, -⟩ := exists_parent_of_mem hc
    simp [h] at hp
  · intro h
    rw [Option.eq_none_iff_forall_ne_some]
    exact fun p hp => h p (mem_children_of_parent? hp)

theorem ancestors_of_parent? (h : f.parent? n = some p) : f.ancestors n = p :: f.ancestors p := by
  rw [ancestors]
  split
  · rename_i hnone
    simp [hnone] at h
  · rename_i q hq
    obtain rfl := Option.some.inj (h.symm.trans hq)
    rfl

theorem ancestors_of_none (h : f.parent? n = none) : f.ancestors n = [] := by
  rw [ancestors]
  split
  · rfl
  · rename_i q hq
    simp [hq] at h

/-- Induction up the parents of a node. -/
theorem parentInduction {motive : NodeId → Prop} (n : NodeId)
    (top : ∀ n, f.parent? n = none → motive n)
    (step : ∀ n p, f.parent? n = some p → motive p → motive n) : motive n :=
  match h : f.parent? n with
  | none => top n h
  | some p =>
    have := index_lt_parent h
    step n p h (parentInduction p top step)
termination_by f.size - n.index
decreasing_by omega

theorem index_lt_of_mem_ancestors (h : p ∈ f.ancestors n) : n.index < p.index := by
  induction n using parentInduction (f := f) with
  | top n hn => simp [ancestors_of_none hn] at h
  | step n q hn ih =>
    have hlt := (index_lt_parent hn).1
    rw [ancestors_of_parent? hn] at h
    rcases List.mem_cons.1 h with rfl | h
    · exact hlt
    · have hle := ih h
      omega

theorem ancestors_trans (hp : p ∈ f.ancestors n) (hn : n ∈ f.ancestors d) : p ∈ f.ancestors d := by
  induction d using parentInduction (f := f) with
  | top d hd => simp [ancestors_of_none hd] at hn
  | step d q hq ih =>
    rw [ancestors_of_parent? hq] at hn ⊢
    rcases List.mem_cons.1 hn with rfl | hn
    · exact List.mem_cons_of_mem _ hp
    · exact List.mem_cons_of_mem _ (ih hn)

/-- A node is met on the walk from each of its ancestors. -/
theorem mem_walkFrom_of_ancestor (h : p ∈ f.ancestors n) : n ∈ f.walkFrom p := by
  induction n using parentInduction (f := f) with
  | top n hn => simp [ancestors_of_none hn] at h
  | step n q hn ih =>
    have hself := mem_walkFrom_of_child (mem_children_of_parent? hn) (self_mem_walkFrom f n)
    rw [ancestors_of_parent? hn] at h
    rcases List.mem_cons.1 h with rfl | h
    · exact hself
    · exact mem_walkFrom_trans (ih h) hself

end Climbs

/-- No node is named as a child twice, by one node or by several. -/
def NamedOnce (f : Forest) : Prop := (f.ids.flatMap f.children).Nodup

instance (f : Forest) : Decidable f.NamedOnce := inferInstanceAs (Decidable (List.Nodup _))

section Once

theorem NamedOnce.children_nodup (hf : f.NamedOnce) (n : NodeId) : (f.children n).Nodup := by
  by_cases hn : n ∈ f.ids
  · exact (List.nodup_flatMap.1 hf).1 n hn
  · have hnil : f.children n = [] := by
      rw [List.eq_nil_iff_forall_not_mem]
      exact fun c hc => hn (mem_ids_of_mem_children hc)
    simp [hnil]

theorem NamedOnce.eq_of_mem_children (hf : f.NamedOnce) (hn : c ∈ f.children n)
    (hp : c ∈ f.children p) : n = p := by
  by_contra hne
  have hsymm : Std.Symm (Function.onFun List.Disjoint f.children) := ⟨fun _ _ h _ hb ha => h ha hb⟩
  have hdisjoint := (List.nodup_flatMap.1 hf).2.forall (mem_ids_of_mem_children hn)
    (mem_ids_of_mem_children hp) hne
  exact hdisjoint hn hp

/-- The node that names a child is its parent. -/
theorem NamedOnce.parent?_of_mem (hf : f.NamedOnce) (hc : c ∈ f.children n) :
    f.parent? c = some n := by
  cases hp : f.parent? c with
  | none => exact absurd hc (parent?_eq_none_iff.1 hp n)
  | some p => rw [hf.eq_of_mem_children hc (mem_children_of_parent? hp)]

/-- A walk comes to a node exactly if the climb from there comes back. -/
theorem NamedOnce.mem_walkFrom_iff_ancestor (hf : f.NamedOnce) :
    d ∈ f.walkFrom n ↔ d = n ∨ n ∈ f.ancestors d := by
  constructor
  · intro hd
    induction n using childInduction (f := f) with
    | step n ih =>
      rcases mem_walkFrom_iff.1 hd with rfl | ⟨c, hc, hd⟩
      · exact Or.inl rfl
      · right
        have hparent : n ∈ f.ancestors c := by simp [ancestors_of_parent? (hf.parent?_of_mem hc)]
        rcases ih c hc hd with rfl | hanc
        · exact hparent
        · exact ancestors_trans hparent hanc
  · intro h
    rcases h with rfl | hanc
    · exact self_mem_walkFrom f d
    · exact mem_walkFrom_of_ancestor hanc

/-- If two walks come to one node then one of them starts on the other. -/
theorem NamedOnce.walks_nest (hf : f.NamedOnce) (hn : d ∈ f.walkFrom n) (hm : d ∈ f.walkFrom m) :
    n ∈ f.walkFrom m ∨ m ∈ f.walkFrom n := by
  induction d using parentInduction (f := f) with
  | top d hnone =>
    rw [hf.mem_walkFrom_iff_ancestor, ancestors_of_none hnone] at hn
    obtain rfl : d = n := by simpa using hn
    exact Or.inl hm
  | step d q hq ih =>
    rcases hf.mem_walkFrom_iff_ancestor.1 hn with rfl | hnd
    · exact Or.inl hm
    · rcases hf.mem_walkFrom_iff_ancestor.1 hm with rfl | hmd
      · exact Or.inr hn
      · rw [ancestors_of_parent? hq, List.mem_cons] at hnd hmd
        refine ih ?_ ?_
        · exact hf.mem_walkFrom_iff_ancestor.2 (hnd.imp_left Eq.symm)
        · exact hf.mem_walkFrom_iff_ancestor.2 (hmd.imp_left Eq.symm)

/-- Walks from two children of a node do not meet. -/
theorem NamedOnce.child_unique (hf : f.NamedOnce) (hc : c ∈ f.children n) (hm : m ∈ f.children n)
    (hdc : d ∈ f.walkFrom c) (hdm : d ∈ f.walkFrom m) : c = m := by
  have hbelow : ∀ c m, c ∈ f.children n → m ∈ f.children n → c ∈ f.walkFrom m → c = m := by
    intro c m hc hm hcm
    refine (hf.mem_walkFrom_iff_ancestor.1 hcm).resolve_right fun hanc => ?_
    have hlt := index_lt_of_mem_children hm
    rw [ancestors_of_parent? (hf.parent?_of_mem hc)] at hanc
    rcases List.mem_cons.1 hanc with rfl | hanc
    · exact absurd hlt (Nat.lt_irrefl _)
    · have habove := index_lt_of_mem_ancestors hanc
      omega
  rcases hf.walks_nest hdc hdm with h | h
  · exact hbelow c m hc hm h
  · exact (hbelow m c hm hc h).symm

/-- A walk comes to no node twice. -/
theorem NamedOnce.walkFrom_nodup (hf : f.NamedOnce) (n : NodeId) : (f.walkFrom n).Nodup := by
  induction n using childInduction (f := f) with
  | step n ih =>
    rw [walkFrom_eq, List.nodup_cons]
    refine ⟨?_, ?_⟩
    · rw [List.mem_flatMap]
      rintro ⟨c, hc, hn⟩
      exact not_mem_walkFrom_child hc hn
    · rw [List.nodup_flatMap]
      refine ⟨ih, (hf.children_nodup n).imp_of_mem ?_⟩
      intro c m hc hm hne d hdc hdm
      exact hne (hf.child_unique hc hm hdc hdm)

end Once

end SemanticAnalysis.Forest
