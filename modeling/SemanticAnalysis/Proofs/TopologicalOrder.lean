import Mathlib.Data.List.Nodup
import SemanticAnalysis.Proofs.Digraphs

/-!
Topological orders. A visit to a node finishes everything that the node leads to,
and puts each node before what has been finished until then. If a visit comes back to
a node on its path then that node lies on a cycle; if it never does, every node stands
before all its children, so none of the nodes lies on a cycle.
-/

namespace SemanticAnalysis.Digraph

open Relation

variable {α : Type} [DecidableEq α] {g : Digraph α} {u v w x y : α} {path done done' : List α}

section Visits

theorem visit_of_done (h : v ∈ done) : g.visit path done v = .ok done := by
  rw [visit]
  simp [h]

theorem visit_of_path (hd : v ∉ done) (hp : v ∈ path) : g.visit path done v = .error v := by
  rw [visit]
  simp [hd, hp]

theorem visit_of_new (hd : v ∉ done) (hp : v ∉ path) (hv : v ∈ g.nodes) :
    g.visit path done v = (v :: ·) <$> (g.children v).foldlM (g.visit (v :: path)) done := by
  rw [visit]
  simp only [hd, hp, hv, if_false, dif_neg, dif_pos, not_false_eq_true]
  rw [map_eq_pure_bind]

inductive Starts (g : Digraph α) : List α × α → List α × α → Prop where
  | child {path : List α} {v w : α} (hv : v ∈ g.nodes) (hp : v ∉ path) (edge : g.Edge v w) :
    Starts g (v :: path, w) (path, v)

/-- Visits do not nest without end. -/
theorem starts_wellFounded (g : Digraph α) : WellFounded g.Starts := by
  have hmeasure : WellFounded fun a b : List α × α =>
      Graph.offPath g.nodes a.1 < Graph.offPath g.nodes b.1 :=
    InvImage.wf (fun a : List α × α => Graph.offPath g.nodes a.1) Nat.lt_wfRel.wf
  refine Subrelation.wf (fun {a b} h => ?_) hmeasure
  cases h with
  | child hv hp _ => exact Graph.offPath_cons_lt hv hp

omit [DecidableEq α] in
/-- A loop over nodes that fails does so at one of them. -/
theorem exists_error_of_foldlM {visit : List α → α → Except α (List α)} {ws : List α} {e : α}
    (h : ws.foldlM visit done = .error e) : ∃ w ∈ ws, ∃ acc, visit acc w = .error e := by
  induction ws generalizing done with
  | nil => cases h
  | cons w ws ih =>
    rw [List.foldlM_cons] at h
    cases hw : visit done w with
    | error e' =>
      rw [hw] at h
      cases h
      exact ⟨w, List.mem_cons_self .., done, hw⟩
    | ok acc =>
      rw [hw] at h
      obtain ⟨x, hx, herror⟩ := ih h
      exact ⟨x, List.mem_cons_of_mem w hx, herror⟩

/-- A visit that fails has come back to a node of its path, which lies on a cycle. -/
theorem visit_error {e : α} (hpath : ∀ p ∈ path, TransGen g.Edge p v)
    (h : g.visit path done v = .error e) :
    g.OnCycle e ∧ (e ∈ path ∨ ReflTransGen g.Edge v e) := by
  induction path using Graph.pathInduction g.nodes generalizing done v with
  | step path ih =>
    by_cases hd : v ∈ done
    · rw [visit_of_done hd] at h
      cases h
    · by_cases hp : v ∈ path
      · rw [visit_of_path hd hp] at h
        cases h
        exact ⟨hpath _ hp, Or.inl hp⟩
      · by_cases hv : v ∈ g.nodes
        · rw [visit_of_new hd hp hv] at h
          cases hfold : (g.children v).foldlM (g.visit (v :: path)) done with
          | ok d => simp [hfold] at h
          | error e' =>
            simp only [hfold, Except.map_error, Except.error.injEq] at h
            subst h
            obtain ⟨w, hw, acc, herror⟩ := exists_error_of_foldlM hfold
            have hedge : g.Edge v w := mem_children.1 hw
            have hway : ∀ p ∈ v :: path, TransGen g.Edge p w := by
              intro p hp
              rcases List.mem_cons.1 hp with rfl | hp
              · exact TransGen.single hedge
              · exact (hpath p hp).tail hedge
            obtain ⟨hcycle, hreach⟩ := ih v hv hp hway herror
            refine ⟨hcycle, ?_⟩
            rcases hreach with hmem | hreach
            · rcases List.mem_cons.1 hmem with rfl | hmem
              · exact Or.inr ReflTransGen.refl
              · exact Or.inl hmem
            · exact Or.inr (ReflTransGen.head hedge hreach)
        · rw [visit] at h
          simp [hd, hp, hv] at h

end Visits

section Orders

/-- Finished nodes, the last one first: each of them once, off the path and before its children. -/
structure Arranged (g : Digraph α) (path done : List α) : Prop where
  nodup : done.Nodup
  off_path : ∀ x ∈ done, x ∉ path
  before : ∀ later x earlier, done = later ++ x :: earlier → ∀ y, g.Edge x y → y ∈ earlier

theorem Arranged.nil : g.Arranged path [] where
  nodup := List.nodup_nil
  off_path := by simp
  before := by simp

theorem Arranged.enter (h : g.Arranged path done) (hv : v ∉ done) :
    g.Arranged (v :: path) done where
  nodup := h.nodup
  off_path x hx := List.not_mem_cons_of_ne_of_not_mem (fun heq => hv (heq ▸ hx)) (h.off_path x hx)
  before := h.before

/-- A node whose children are finished is finished next. -/
theorem Arranged.leave (h : g.Arranged (v :: path) done) (hp : v ∉ path)
    (hchildren : ∀ w, g.Edge v w → w ∈ done) : g.Arranged path (v :: done) where
  nodup := List.nodup_cons.2 ⟨fun hv => h.off_path v hv (List.mem_cons_self ..), h.nodup⟩
  off_path x hx := by
    rcases List.mem_cons.1 hx with rfl | hx
    · exact hp
    · exact fun hmem => h.off_path x hx (List.mem_cons_of_mem v hmem)
  before later x earlier heq y hy := by
    cases later with
    | nil =>
      obtain ⟨rfl, rfl⟩ := List.cons.inj heq
      exact hchildren y hy
    | cons u later => exact h.before later x earlier (List.cons.inj heq).2 y hy

/-- Everything that a finished node leads to was finished before it. -/
theorem Arranged.mem_earlier (h : g.Arranged path done) {later earlier : List α}
    (heq : done = later ++ x :: earlier) (hxy : TransGen g.Edge x y) : y ∈ earlier := by
  induction hxy with
  | single hedge => exact h.before later x earlier heq _ hedge
  | tail _ hedge ih =>
    obtain ⟨middle, rest, rfl⟩ := List.append_of_mem ih
    have hrest := h.before (later ++ x :: middle) _ rest (by simp [heq]) _ hedge
    exact List.mem_append_right _ (List.mem_cons_of_mem _ hrest)

theorem Arranged.not_onCycle (h : g.Arranged path done) (hx : x ∈ done) : ¬ g.OnCycle x := by
  intro hcycle
  obtain ⟨later, earlier, heq⟩ := List.append_of_mem hx
  have hmem := h.mem_earlier heq hcycle
  have hnodup := h.nodup
  rw [heq, List.nodup_append] at hnodup
  exact (List.nodup_cons.1 hnodup.2.1).1 hmem

theorem Arranged.mem_of_leads (h : g.Arranged path done) (hx : x ∈ done)
    (hxy : ReflTransGen g.Edge x y) : y ∈ done := by
  rcases reflTransGen_iff_eq_or_transGen.1 hxy with rfl | hxy
  · exact hx
  · obtain ⟨later, earlier, rfl⟩ := List.append_of_mem hx
    exact List.mem_append_right _ (List.mem_cons_of_mem _ (h.mem_earlier rfl hxy))

/-- Edges go forward in the order. -/
theorem Arranged.idxOf_lt (h : g.Arranged path done) (hx : x ∈ done) (hedge : g.Edge x y) :
    done.idxOf x < done.idxOf y := by
  obtain ⟨later, earlier, heq⟩ := List.append_of_mem hx
  have hy := h.before later x earlier heq y hedge
  have hnodup := h.nodup
  rw [heq, List.nodup_append] at hnodup
  obtain ⟨-, hnodup, hapart⟩ := hnodup
  have hxlater : x ∉ later := fun hmem => hapart x hmem x (List.mem_cons_self ..) rfl
  have hylater : y ∉ later := fun hmem => hapart y hmem y (List.mem_cons_of_mem x hy) rfl
  have hne : x ≠ y := fun hxy => (List.nodup_cons.1 hnodup).1 (hxy ▸ hy)
  rw [heq, List.idxOf_append_of_notMem hxlater, List.idxOf_append_of_notMem hylater,
    List.idxOf_cons_self, List.idxOf_cons_ne _ hne]
  omega

structure Grown (g : Digraph α) (path done done' : List α) (v : α) : Prop where
  arranged : g.Arranged path done'
  subset : done ⊆ done'
  mem : v ∈ done'
  leads : ∀ x ∈ done', x ∈ done ∨ ReflTransGen g.Edge v x

/-- Visits to the children of a node in turn. -/
theorem foldlM_ok {ws : List α} (hws : ∀ w ∈ ws, g.Edge v w)
    (hstep : ∀ w ∈ ws, ∀ done done', g.Arranged path done → g.visit path done w = .ok done' →
      g.Grown path done done' w)
    (hdone : g.Arranged path done) (h : ws.foldlM (g.visit path) done = .ok done') :
    g.Arranged path done' ∧ done ⊆ done' ∧ (∀ w ∈ ws, w ∈ done') ∧
      ∀ x ∈ done', x ∈ done ∨ ReflTransGen g.Edge v x := by
  induction ws generalizing done with
  | nil =>
    cases h
    exact ⟨hdone, List.Subset.refl _, by simp, fun x hx => Or.inl hx⟩
  | cons w ws ih =>
    rw [List.foldlM_cons] at h
    cases hw : g.visit path done w with
    | error e =>
      rw [hw] at h
      cases h
    | ok acc =>
      rw [hw] at h
      have hgrown := hstep w (List.mem_cons_self ..) done acc hdone hw
      obtain ⟨harranged, hsub, hmem, hleads⟩ := ih (fun x hx => hws x (List.mem_cons_of_mem w hx))
        (fun x hx => hstep x (List.mem_cons_of_mem w hx)) hgrown.arranged h
      refine ⟨harranged, List.Subset.trans hgrown.subset hsub, fun x hx => ?_, fun x hx => ?_⟩
      · rcases List.mem_cons.1 hx with rfl | hx
        · exact hsub hgrown.mem
        · exact hmem x hx
      · rcases hleads x hx with hx | hx
        · exact (hgrown.leads x hx).imp_right fun hwx =>
            ReflTransGen.head (hws w (List.mem_cons_self ..)) hwx
        · exact Or.inr hx

/-- A visit that succeeds finishes everything that its node leads to. -/
theorem visit_ok (hv : v ∈ g.nodes) (hdone : g.Arranged path done)
    (h : g.visit path done v = .ok done') : g.Grown path done done' v := by
  induction path using Graph.pathInduction g.nodes generalizing done done' v with
  | step path ih =>
    by_cases hd : v ∈ done
    · rw [visit_of_done hd] at h
      cases h
      exact ⟨hdone, List.Subset.refl _, hd, fun x hx => Or.inl hx⟩
    · by_cases hp : v ∈ path
      · rw [visit_of_path hd hp] at h
        cases h
      · rw [visit_of_new hd hp hv] at h
        cases hfold : (g.children v).foldlM (g.visit (v :: path)) done with
        | error e => simp [hfold] at h
        | ok acc =>
          simp only [hfold, Except.map_ok, Except.ok.injEq] at h
          subst h
          obtain ⟨harranged, hsub, hmem, hleads⟩ := foldlM_ok (fun w hw => mem_children.1 hw)
            (fun w hw done done' hdone hvisit =>
              ih v hv hp (mem_children.1 hw).mem_nodes.2 hdone hvisit) (hdone.enter hd) hfold
          refine ⟨harranged.leave hp fun w hw => hmem w (mem_children.2 hw),
            List.Subset.trans hsub (List.subset_cons_self ..), List.mem_cons_self ..,
            fun x hx => ?_⟩
          rcases List.mem_cons.1 hx with rfl | hx
          · exact Or.inr ReflTransGen.refl
          · exact hleads x hx

theorem topSort_ok {order : List α} (h : g.topSort v = .ok order) :
    v ∈ g.nodes ∧ g.visit [] [] v = .ok order := by
  unfold topSort at h
  split at h
  · rename_i hv
    split at h
    · rename_i hvisit
      cases h
      exact ⟨hv, hvisit⟩
    · cases h
  · cases h

/-- A sort fails for a node that is not there or for a visit that comes back to its path. -/
theorem topSort_error {e : GraphError α} (h : g.topSort v = .error e) :
    (v ∉ g.nodes ∧ e = .notFound) ∨
      (v ∈ g.nodes ∧ ∃ x, e = .cycle [x] ∧ g.visit [] [] v = .error x) := by
  unfold topSort at h
  split at h
  · rename_i hv
    split at h
    · cases h
    · rename_i x hvisit
      cases h
      exact Or.inr ⟨hv, x, rfl, hvisit⟩
  · rename_i hv
    cases h
    exact Or.inl ⟨hv, rfl⟩

theorem head?_of_topSort {order : List α} (h : g.topSort v = .ok order) : order.head? = some v := by
  obtain ⟨hv, hvisit⟩ := topSort_ok h
  rw [visit_of_new (by simp) (by simp) hv] at hvisit
  cases hfold : (g.children v).foldlM (g.visit [v]) [] with
  | error e => simp [hfold] at hvisit
  | ok acc =>
    simp only [hfold, Except.map_ok, Except.ok.injEq] at hvisit
    simp [← hvisit]

/-- The graph that additions build holds their nodes, in the order in which they are first
mentioned, and their edges. A node that is not in it is not found. From one that is, there is an
order exactly if the node leads to no cycle. The order begins with the node and lists exactly what
it leads to, each node once, and every edge between listed nodes goes forward. Otherwise the error
names one node, which the first leads to and which lies on a cycle. Visits do not nest without
end. -/
theorem topological_order (additions : List (Addition α)) (start : α) :
    let g := ofAdditions additions
    (g.nodes = (additions.flatMap Addition.mentions).eraseDups ∧
      ∀ v w, g.Edge v w ↔ ∃ a ∈ additions, a.Joins v w) ∧
    (g.topSort start = .error .notFound ↔ start ∉ g.nodes) ∧
    (start ∈ g.nodes → ((∃ order, g.topSort start = .ok order) ↔
      ∀ v, ReflTransGen g.Edge start v → ¬ g.OnCycle v)) ∧
    (∀ order, g.topSort start = .ok order → order.head? = some start ∧ order.Nodup ∧
      (∀ v, v ∈ order ↔ ReflTransGen g.Edge start v) ∧
      ∀ u ∈ order, ∀ v ∈ order, g.Edge u v → order.idxOf u < order.idxOf v) ∧
    (∀ nodes, g.topSort start = .error (.cycle nodes) →
      ∃ v, nodes = [v] ∧ ReflTransGen g.Edge start v ∧ g.OnCycle v) ∧
    WellFounded g.Starts := by
  intro g
  have hfound : ∀ {order}, g.topSort start = .ok order → g.Grown [] [] order start := fun h =>
    visit_ok (topSort_ok h).1 .nil (topSort_ok h).2
  have hlost : ∀ {x}, g.visit [] [] start = .error x →
      ReflTransGen g.Edge start x ∧ g.OnCycle x := by
    intro x h
    obtain ⟨hcycle, hreach⟩ := visit_error (by simp) h
    exact ⟨hreach.resolve_left (by simp), hcycle⟩
  refine ⟨ofAdditions_holds additions, ⟨fun h => ?_, fun h => by simp [topSort, h]⟩,
    fun hstart => ⟨fun h v hv => ?_, fun hnone => ?_⟩, fun order h => ⟨head?_of_topSort h,
      (hfound h).arranged.nodup, fun v => ⟨fun hv => ?_, fun hv => ?_⟩, fun u hu v _ hedge =>
      (hfound h).arranged.idxOf_lt hu hedge⟩, fun nodes h => ?_, g.starts_wellFounded⟩
  · rcases topSort_error h with ⟨hnot, -⟩ | ⟨-, x, heq, -⟩
    · exact hnot
    · cases heq
  · obtain ⟨order, h⟩ := h
    have hgrown := hfound h
    exact hgrown.arranged.not_onCycle (hgrown.arranged.mem_of_leads hgrown.mem hv)
  · cases h : g.topSort start with
    | ok order => exact ⟨order, rfl⟩
    | error e =>
      rcases topSort_error h with ⟨hnot, -⟩ | ⟨-, x, -, hvisit⟩
      · exact absurd hstart hnot
      · exact absurd (hlost hvisit).2 (hnone x (hlost hvisit).1)
  · exact ((hfound h).leads v hv).resolve_left (by simp)
  · exact (hfound h).arranged.mem_of_leads (hfound h).mem hv
  · rcases topSort_error h with ⟨-, heq⟩ | ⟨-, x, heq, hvisit⟩
    · cases heq
    · cases heq
      exact ⟨x, rfl, hlost hvisit⟩

end Orders

end SemanticAnalysis.Digraph
