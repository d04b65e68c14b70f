import Mathlib.Data.List.Basic
import Mathlib.Logic.Relation
import Mathlib.Tactic.ByContra
import SemanticAnalysis.Graph.Search

/-!
What depth-first search finds. The nodes finished are closed under steps up to
the path that leads to the current node, and whatever a finished node leads to
was finished before it, unless it leads back to a node that is finished later.
So the strongly connected components, each placed where its last node is
finished, come after the components that they lead to.
-/

namespace SemanticAnalysis.Graph

open Relation

variable {α : Type} {domain : List α} {next : α → List α} {path done : List α} {v w x y : α}

def Step (domain : List α) (next : α → List α) (v w : α) : Prop := w ∈ next v ∧ w ∈ domain

abbrev Leads (domain : List α) (next : α → List α) : α → α → Prop := ReflTransGen (Step domain next)

def Mutual (domain : List α) (next : α → List α) (v w : α) : Prop :=
  Leads domain next v w ∧ Leads domain next w v

theorem Mutual.symm (h : Mutual domain next v w) : Mutual domain next w v := ⟨h.2, h.1⟩

theorem Mutual.trans (hvw : Mutual domain next v w) (hwx : Mutual domain next w x) :
    Mutual domain next v x :=
  ⟨hvw.1.trans hwx.1, hwx.2.trans hvw.2⟩

theorem Leads.mem_domain (h : Leads domain next v w) (hv : v ∈ domain) : w ∈ domain := by
  cases h with
  | refl => exact hv
  | tail _ hstep => exact hstep.2

section Searches

/-- A way out of a set that is closed up to the path passes a node of the path. -/
theorem leads_mem_or_path (hclosed : ∀ x ∈ done, ∀ y, Step domain next x y → y ∈ done ∨ y ∈ path)
    (hx : x ∈ done) (h : Leads domain next x y) :
    y ∈ done ∨ ∃ p ∈ path, p ∉ done ∧ Leads domain next x p := by
  induction h with
  | refl => exact Or.inl hx
  | @tail u y hxu hstep ih =>
    rcases ih with hu | hpath
    · by_cases hy : y ∈ done
      · exact Or.inl hy
      · have hyp := (hclosed u hu y hstep).resolve_left hy
        exact Or.inr ⟨y, hyp, hy, hxu.tail hstep⟩
    · exact Or.inr hpath

/-- What holds of the finished nodes, the last one first, while a path is followed. -/
structure Searched (domain : List α) (next : α → List α) (path done : List α) : Prop where
  inside : ∀ x ∈ done, x ∈ domain
  nodup : done.Nodup
  off_path : ∀ x ∈ done, x ∉ path
  closed : ∀ x ∈ done, ∀ y, Step domain next x y → y ∈ done ∨ y ∈ path
  settled : ∀ later x earlier, done = later ++ x :: earlier → ∀ y, Leads domain next x y →
    y ∈ x :: earlier ∨ ∃ z, z ∉ x :: earlier ∧ Mutual domain next x z

theorem Searched.nil : Searched domain next path [] where
  inside := by simp
  nodup := List.nodup_nil
  off_path := by simp
  closed := by simp
  settled := by simp

/-- A node that is not finished joins the path. -/
theorem Searched.enter (h : Searched domain next path done) (hv : v ∉ done) :
    Searched domain next (v :: path) done where
  inside := h.inside
  nodup := h.nodup
  off_path x hx := List.not_mem_cons_of_ne_of_not_mem (fun heq => hv (heq ▸ hx)) (h.off_path x hx)
  closed x hx y hy := (h.closed x hx y hy).imp_right (List.mem_cons_of_mem v)
  settled := h.settled

/-- A node whose steps lead to finished nodes or to the path is finished. -/
theorem Searched.leave (h : Searched domain next (v :: path) done) (hv : v ∈ domain)
    (hp : v ∉ path) (hpath : ∀ p ∈ path, Leads domain next p v)
    (hnext : ∀ w, Step domain next v w → w ∈ done ∨ w ∈ v :: path) :
    Searched domain next path (v :: done) := by
  have hclosed : ∀ x ∈ v :: done, ∀ y, Step domain next x y → y ∈ v :: done ∨ y ∈ path := by
    intro x hx y hy
    have hyor : y ∈ done ∨ y ∈ v :: path := by
      rcases List.mem_cons.1 hx with rfl | hx
      · exact hnext y hy
      · exact h.closed x hx y hy
    simp only [List.mem_cons] at hyor ⊢
    tauto
  have hvdone : v ∉ done := fun hmem => h.off_path v hmem (List.mem_cons_self ..)
  refine ⟨?_, List.nodup_cons.2 ⟨hvdone, h.nodup⟩, ?_, hclosed, ?_⟩
  · intro x hx
    rcases List.mem_cons.1 hx with rfl | hx
    · exact hv
    · exact h.inside x hx
  · intro x hx
    rcases List.mem_cons.1 hx with rfl | hx
    · exact hp
    · exact fun hmem => h.off_path x hx (List.mem_cons_of_mem v hmem)
  · intro later x earlier heq y hy
    cases later with
    | nil =>
      obtain ⟨rfl, rfl⟩ := List.cons.inj heq
      rcases leads_mem_or_path hclosed (List.mem_cons_self ..) hy with hy | ⟨p, hp, hnot, hvp⟩
      · exact Or.inl hy
      · exact Or.inr ⟨p, hnot, hvp, hpath p hp⟩
    | cons u later => exact h.settled later x earlier (List.cons.inj heq).2 y hy

variable [DecidableEq α]

theorem finishFrom_of_visit (hv : v ∈ domain) (hp : v ∉ path) (hd : v ∉ done) :
    finishFrom domain next path done v =
      v :: (next v).foldl (finishFrom domain next (v :: path)) done := by
  rw [finishFrom]
  simp [hv, hp, hd]

theorem finishFrom_of_pass (h : ¬ (v ∈ domain ∧ v ∉ path ∧ v ∉ done)) :
    finishFrom domain next path done v = done := by
  rw [finishFrom]
  simp [h]

/-- Induction along the paths that a search follows. -/
theorem pathInduction (domain : List α) {motive : List α → Prop} (path : List α)
    (step : ∀ path, (∀ v ∈ domain, v ∉ path → motive (v :: path)) → motive path) : motive path :=
  step path fun v hv hp =>
    have : offPath domain (v :: path) < offPath domain path := offPath_cons_lt hv hp
    pathInduction domain (v :: path) step
termination_by offPath domain path

/-- A search forgets no finished node. -/
theorem subset_finishFrom : done ⊆ finishFrom domain next path done v := by
  induction path using pathInduction domain generalizing done v with
  | step path ih =>
    by_cases hvisit : v ∈ domain ∧ v ∉ path ∧ v ∉ done
    · obtain ⟨hv, hp, hd⟩ := hvisit
      rw [finishFrom_of_visit hv hp hd]
      have hfold : ∀ (ws acc : List α),
          acc ⊆ ws.foldl (finishFrom domain next (v :: path)) acc := by
        intro ws
        induction ws with
        | nil => exact fun acc => List.Subset.refl acc
        | cons w ws ihws => exact fun acc => List.Subset.trans (ih v hv hp) (ihws _)
      exact List.Subset.trans (hfold (next v) done) (List.subset_cons_self ..)
    · rw [finishFrom_of_pass hvisit]
      exact List.Subset.refl done

theorem mem_finishFrom (hv : v ∈ domain) (hp : v ∉ path) :
    v ∈ finishFrom domain next path done v := by
  by_cases hd : v ∈ done
  · exact subset_finishFrom hd
  · rw [finishFrom_of_visit hv hp hd]
    exact List.mem_cons_self ..

/-- What a search keeps of a list of nodes, taken one after the other, it keeps of all. -/
theorem searched_foldl {ws : List α}
    (hstep : ∀ w ∈ ws, w ∈ domain → ∀ done, Searched domain next path done →
      Searched domain next path (finishFrom domain next path done w))
    (h : Searched domain next path done) :
    Searched domain next path (ws.foldl (finishFrom domain next path) done) ∧
      done ⊆ ws.foldl (finishFrom domain next path) done ∧
      ∀ w ∈ ws, w ∈ domain → w ∉ path → w ∈ ws.foldl (finishFrom domain next path) done := by
  induction ws generalizing done with
  | nil => exact ⟨h, List.Subset.refl done, by simp⟩
  | cons w ws ih =>
    have hw : Searched domain next path (finishFrom domain next path done w) := by
      by_cases hdom : w ∈ domain
      · exact hstep w (List.mem_cons_self ..) hdom done h
      · rw [finishFrom_of_pass fun hvisit => hdom hvisit.1]
        exact h
    obtain ⟨hall, hsub, hmem⟩ := ih (fun u hu => hstep u (List.mem_cons_of_mem w hu)) hw
    refine ⟨hall, List.Subset.trans subset_finishFrom hsub, ?_⟩
    intro u hu hdom hp
    rcases List.mem_cons.1 hu with rfl | hu
    · exact hsub (mem_finishFrom hdom hp)
    · exact hmem u hu hdom hp

/-- A search from a node keeps the finished nodes closed up to the path. -/
theorem searched_finishFrom (hpath : ∀ p ∈ path, Leads domain next p v)
    (h : Searched domain next path done) :
    Searched domain next path (finishFrom domain next path done v) := by
  induction path using pathInduction domain generalizing done v with
  | step path ih =>
    by_cases hvisit : v ∈ domain ∧ v ∉ path ∧ v ∉ done
    · obtain ⟨hv, hp, hd⟩ := hvisit
      rw [finishFrom_of_visit hv hp hd]
      have hchild : ∀ w ∈ next v, w ∈ domain → ∀ done, Searched domain next (v :: path) done →
          Searched domain next (v :: path) (finishFrom domain next (v :: path) done w) := by
        intro w hw hdom done hdone
        refine ih v hv hp (fun p hpmem => ?_) hdone
        have hstep : Step domain next v w := ⟨hw, hdom⟩
        rcases List.mem_cons.1 hpmem with rfl | hpmem
        · exact ReflTransGen.single hstep
        · exact (hpath p hpmem).tail hstep
      obtain ⟨hall, -, hmem⟩ := searched_foldl hchild (h.enter hd)
      refine hall.leave hv hp hpath fun w hw => ?_
      by_cases hwpath : w ∈ v :: path
      · exact Or.inr hwpath
      · exact Or.inl (hmem w hw.1 hw.2 hwpath)
    · rw [finishFrom_of_pass hvisit]
      exact h

theorem searched_finishAll (domain : List α) (next : α → List α) :
    Searched domain next [] (finishAll domain next domain) ∧
      ∀ v ∈ domain, v ∈ finishAll domain next domain := by
  have hstart : ∀ v ∈ domain, v ∈ domain → ∀ done, Searched domain next [] done →
      Searched domain next [] (finishFrom domain next [] done v) :=
    fun v _ _ done hdone => searched_finishFrom (by simp) hdone
  obtain ⟨hall, -, hmem⟩ := searched_foldl hstart Searched.nil
  exact ⟨hall, fun v hv => hmem v hv hv (by simp)⟩

/-- A search finishes only nodes that its start leads to. -/
theorem leads_of_mem_finishFrom (hx : x ∈ finishFrom domain next path done v) :
    x ∈ done ∨ Leads domain next v x := by
  induction path using pathInduction domain generalizing done v with
  | step path ih =>
    by_cases hvisit : v ∈ domain ∧ v ∉ path ∧ v ∉ done
    · obtain ⟨hv, hp, hd⟩ := hvisit
      rw [finishFrom_of_visit hv hp hd] at hx
      have hfold : ∀ (ws : List α), (∀ w ∈ ws, w ∈ next v) → ∀ acc : List α,
          x ∈ ws.foldl (finishFrom domain next (v :: path)) acc →
            x ∈ acc ∨ Leads domain next v x := by
        intro ws
        induction ws with
        | nil => exact fun _ acc hacc => Or.inl hacc
        | cons w ws ihws =>
          intro hws acc hacc
          refine (ihws (fun u hu => hws u (List.mem_cons_of_mem w hu)) _ hacc).elim ?_ Or.inr
          intro hmem
          by_cases hdom : w ∈ domain
          · refine (ih v hv hp hmem).imp_right fun hwx => ?_
            exact ReflTransGen.head ⟨hws w (List.mem_cons_self ..), hdom⟩ hwx
          · rw [finishFrom_of_pass fun hvisit => hdom hvisit.1] at hmem
            exact Or.inl hmem
      rcases List.mem_cons.1 hx with rfl | hx
      · exact Or.inr ReflTransGen.refl
      · exact hfold (next v) (fun _ hw => hw) done hx
    · rw [finishFrom_of_pass hvisit] at hx
      exact Or.inl hx

/-- A search meets exactly the nodes that can be reached from its start. -/
theorem reaches_iff : reaches domain next v w ↔ v ∈ domain ∧ Leads domain next v w := by
  simp only [reaches, List.contains_iff_mem]
  constructor
  · intro h
    have hv : v ∈ domain := by
      by_contra hnot
      simp [finishFrom_of_pass fun hvisit => hnot hvisit.1] at h
    exact ⟨hv, (leads_of_mem_finishFrom h).resolve_left (by simp)⟩
  · rintro ⟨hv, hvw⟩
    have hsearched : Searched domain next [] (finishFrom domain next [] [] v) :=
      searched_finishFrom (by simp) Searched.nil
    have hmem := leads_mem_or_path hsearched.closed (mem_finishFrom hv (by simp)) hvw
    exact hmem.resolve_right (by simp)

theorem connected_iff :
    connected domain next v w ↔ v ∈ domain ∧ w ∈ domain ∧ Mutual domain next v w := by
  simp only [connected, Bool.and_eq_true, reaches_iff, Mutual]
  tauto

end Searches

section Components

variable [DecidableEq α]

theorem mem_component {u : α} :
    u ∈ domain.filter (connected domain next v) ↔
      v ∈ domain ∧ u ∈ domain ∧ Mutual domain next v u := by
  simp only [List.mem_filter, connected_iff]
  tauto

/-- Each component is that of a node, and no node after it in the order is in it. A node before
it is in an earlier component, in this one, or shares its component with a node after it. -/
theorem componentsOf_split {order : List α} (horder : ∀ u ∈ order, u ∈ domain)
    {before after : List (List α)} {group : List α}
    (h : componentsOf domain next order = before ++ group :: after) :
    ∃ pre v suf, order = pre ++ v :: suf ∧ group = domain.filter (connected domain next v) ∧
      (∀ u ∈ suf, ¬ Mutual domain next v u) ∧
      (∀ u ∈ pre, (∃ g ∈ before, u ∈ g) ∨ u ∈ group ∨ ∃ x ∈ suf, Mutual domain next u x) ∧
      ∀ g ∈ before, ∃ u ∈ pre, g = domain.filter (connected domain next u) ∧
        ¬ Mutual domain next u v := by
  induction order generalizing before with
  | nil => simp [componentsOf] at h
  | cons u rest ih =>
    have hu : u ∈ domain := horder u (List.mem_cons_self ..)
    have hrest : ∀ u ∈ rest, u ∈ domain := fun x hx => horder x (List.mem_cons_of_mem u hx)
    rw [componentsOf] at h
    split at h
    · rename_i hany
      obtain ⟨pre, v, suf, rfl, rfl, hsuf, hpre, hbefore⟩ := ih hrest h
      refine ⟨u :: pre, v, suf, rfl, rfl, hsuf, ?_, ?_⟩
      · intro y hy
        rcases List.mem_cons.1 hy with rfl | hy
        · obtain ⟨x, hx, hyx⟩ := List.any_eq_true.1 hany
          obtain ⟨-, hxdom, hyx⟩ := connected_iff.1 hyx
          rcases List.mem_append.1 hx with hx | hx
          · rcases hpre x hx with ⟨g, hg, hxg⟩ | hxg | ⟨z, hz, hxz⟩
            · obtain ⟨a, ha, rfl, -⟩ := hbefore g hg
              rw [mem_component] at hxg
              exact Or.inl ⟨_, hg, mem_component.2 ⟨hxg.1, hu, hxg.2.2.trans hyx.symm⟩⟩
            · rw [mem_component] at hxg
              exact Or.inr (Or.inl (mem_component.2 ⟨hxg.1, hu, hxg.2.2.trans hyx.symm⟩))
            · exact Or.inr (Or.inr ⟨z, hz, hyx.trans hxz⟩)
          · rcases List.mem_cons.1 hx with rfl | hx
            · exact Or.inr (Or.inl (mem_component.2 ⟨hxdom, hu, hyx.symm⟩))
            · exact Or.inr (Or.inr ⟨x, hx, hyx⟩)
        · exact hpre y hy
      · intro g hg
        obtain ⟨a, ha, hgroup, hav⟩ := hbefore g hg
        exact ⟨a, List.mem_cons_of_mem u ha, hgroup, hav⟩
    · rename_i hnone
      have hlater : ∀ x ∈ rest, ¬ Mutual domain next u x := by
        intro x hx hux
        exact hnone (List.any_eq_true.2 ⟨x, hx, connected_iff.2 ⟨hu, hrest x hx, hux⟩⟩)
      cases before with
      | nil =>
        obtain ⟨rfl, rfl⟩ := List.cons.inj h
        exact ⟨[], u, rest, rfl, rfl, hlater, by simp, by simp⟩
      | cons g before =>
        obtain ⟨rfl, htail⟩ := List.cons.inj h
        obtain ⟨pre, v, suf, rfl, rfl, hsuf, hpre, hbefore⟩ := ih hrest htail
        refine ⟨u :: pre, v, suf, rfl, rfl, hsuf, ?_, ?_⟩
        · intro y hy
          rcases List.mem_cons.1 hy with rfl | hy
          · exact Or.inl ⟨_, List.mem_cons_self .., mem_component.2 ⟨hu, hu, .refl, .refl⟩⟩
          · refine (hpre y hy).imp_left ?_
            rintro ⟨g, hg, hyg⟩
            exact ⟨g, List.mem_cons_of_mem _ hg, hyg⟩
        · intro g hg
          rcases List.mem_cons.1 hg with rfl | hg
          · exact ⟨u, List.mem_cons_self .., rfl, hlater v (by simp)⟩
          · obtain ⟨a, ha, hgroup, hav⟩ := hbefore g hg
            exact ⟨a, List.mem_cons_of_mem u ha, hgroup, hav⟩

/-- Every node of an order is in one of the components made from it. -/
theorem exists_componentsOf {order : List α} (horder : ∀ u ∈ order, u ∈ domain) (hv : v ∈ order) :
    ∃ g ∈ componentsOf domain next order, v ∈ g := by
  induction order generalizing v with
  | nil => simp at hv
  | cons u rest ih =>
    have hrest : ∀ u ∈ rest, u ∈ domain := fun x hx => horder x (List.mem_cons_of_mem u hx)
    rw [componentsOf]
    split
    · rename_i hany
      rcases List.mem_cons.1 hv with rfl | hv
      · -- the component of `v` comes up at a later node of it
        obtain ⟨x, hx, hvx⟩ := List.any_eq_true.1 hany
        obtain ⟨g, hg, hxg⟩ := ih hrest hx
        refine ⟨g, hg, ?_⟩
        obtain ⟨before, after, heq⟩ := List.append_of_mem hg
        obtain ⟨-, y, -, -, rfl, -⟩ := componentsOf_split hrest heq
        obtain ⟨hvdom, -, hvx⟩ := connected_iff.1 hvx
        rw [mem_component] at hxg ⊢
        exact ⟨hxg.1, hvdom, hxg.2.2.trans hvx.symm⟩
      · exact ih hrest hv
    · rcases List.mem_cons.1 hv with rfl | hv
      · have hvdom := horder v (List.mem_cons_self ..)
        exact ⟨_, List.mem_cons_self .., mem_component.2 ⟨hvdom, hvdom, .refl, .refl⟩⟩
      · obtain ⟨g, hg, hvg⟩ := ih hrest hv
        exact ⟨g, List.mem_cons_of_mem _ hg, hvg⟩

theorem mem_finishAll_reverse : v ∈ (finishAll domain next domain).reverse ↔ v ∈ domain := by
  obtain ⟨hsearched, hmem⟩ := searched_finishAll domain next
  rw [List.mem_reverse]
  exact ⟨hsearched.inside v, hmem v⟩

/-- Every node of the domain is in a component. -/
theorem exists_component (hv : v ∈ domain) : ∃ g ∈ components domain next, v ∈ g :=
  exists_componentsOf (fun _ hu => mem_finishAll_reverse.1 hu) (mem_finishAll_reverse.2 hv)

/-- A component holds with a node all nodes that lead there and back, and no others. -/
theorem mem_component_iff {g : List α} (hg : g ∈ components domain next) (hv : v ∈ g) :
    v ∈ domain ∧ ∀ w, w ∈ g ↔ w ∈ domain ∧ Mutual domain next v w := by
  obtain ⟨before, after, heq⟩ := List.append_of_mem hg
  obtain ⟨-, x, -, -, rfl, -⟩ := componentsOf_split (fun _ hu => mem_finishAll_reverse.1 hu) heq
  rw [mem_component] at hv
  refine ⟨hv.2.1, fun w => ?_⟩
  rw [mem_component]
  constructor
  · rintro ⟨-, hw, hxw⟩
    exact ⟨hw, hv.2.2.symm.trans hxw⟩
  · rintro ⟨hw, hvw⟩
    exact ⟨hv.1, hw, hv.2.2.trans hvw⟩

/-- Whatever a node of a component leads to is in it or in an earlier component. -/
theorem component_after {before after : List (List α)} {g : List α}
    (h : components domain next = before ++ g :: after) (hv : v ∈ g)
    (hvw : Leads domain next v w) : w ∈ g ∨ ∃ g' ∈ before, w ∈ g' := by
  obtain ⟨hsearched, hall⟩ := searched_finishAll domain next
  obtain ⟨pre, x, suf, horder, rfl, hsuf, hpre, -⟩ :=
    componentsOf_split (fun _ hu => mem_finishAll_reverse.1 hu) h
  have hdone : finishAll domain next domain = suf.reverse ++ x :: pre.reverse := by
    rw [← List.reverse_reverse (finishAll domain next domain), horder]
    simp
  rw [mem_component] at hv
  -- the last node of the component was finished after all that it leads to
  have hearlier : ∀ y, Leads domain next x y → y ∈ x :: pre.reverse := by
    intro y hy
    refine (hsearched.settled _ _ _ hdone y hy).resolve_right ?_
    rintro ⟨z, hz, hxz⟩
    have hzall := hall z (hxz.1.mem_domain hv.1)
    rw [hdone, List.mem_append] at hzall
    exact hsuf z (List.mem_reverse.1 (hzall.resolve_right hz)) hxz
  have hxw : Leads domain next x w := hv.2.2.1.trans hvw
  have hw := hearlier w hxw
  rcases List.mem_cons.1 hw with rfl | hw
  · exact Or.inl (mem_component.2 ⟨hv.1, hv.1, .refl, .refl⟩)
  · rcases hpre w (List.mem_reverse.1 hw) with hbefore | hgroup | ⟨y, hy, hwy⟩
    · exact Or.inr hbefore
    · exact Or.inl hgroup
    · have hyearlier := hearlier y (hxw.trans hwy.1)
      have hnodup := hsearched.nodup
      rw [hdone, List.nodup_append] at hnodup
      exact absurd rfl (hnodup.2.2 y (List.mem_reverse.2 hy) y hyearlier)

/-- No node is in two components. -/
theorem component_disjoint {before after : List (List α)} {g g' : List α}
    (h : components domain next = before ++ g :: after) (hg' : g' ∈ before) (hv : v ∈ g) :
    v ∉ g' := by
  obtain ⟨pre, x, suf, -, rfl, -, -, hbefore⟩ :=
    componentsOf_split (fun _ hu => mem_finishAll_reverse.1 hu) h
  obtain ⟨u, -, rfl, hux⟩ := hbefore g' hg'
  rw [mem_component] at hv ⊢
  exact fun hu => hux (hu.2.2.trans hv.2.2.symm)

end Components

end SemanticAnalysis.Graph
