import SemanticAnalysis.Proofs.ContextUpdates
import SemanticAnalysis.Proofs.DeclarationRuns
import SemanticAnalysis.Proofs.LoweredBinders

/-!
The shared context once all functions of a unit are lowered. It is hygienic and
sealed, it leaves open only the types of structs and fields, and it knows no
top-level function. What the functions promise has variables that occur neither in
it nor in what another function promises.
-/

namespace SemanticAnalysis

open Ty

section Builtins

variable {a : Ty} {b : Builtin} {v : TyVar} {k : Seal}

theorem vars_unit : Ty.unit.vars = [] := by
  simp [Ty.unit, vars, varsAll]

theorem Builtin.mem_vars_type (h : v ∈ (b.type a).vars) : v ∈ a.vars := by
  have hbool : Ty.bool.vars = [] := vars_leaf rfl
  cases b <;> simpa [Builtin.type, Ty.curried, mem_vars_fn, hbool, vars_unit] using h

theorem Builtin.sealed_type (b : Builtin) (ha : a.Sealed k) : (b.type a).Sealed k := by
  have hbool : Ty.bool.Sealed k := sealed_leaf rfl
  have hunit : Ty.unit.Sealed k := sealed_of_ground vars_unit
  cases b <;> simp [Builtin.type, Ty.curried, hbool, hunit, ha]

/-- The prelude binds each builtin to a closed scheme over an issued variable. -/
theorem prelude_get? {supply : Supply} {x : CoreVar} {σ : Scheme}
    (h : (Context.prelude supply).1.get? x = some σ) : ∃ b v, x = .builtin b ∧
      σ = Scheme.closed (b.type (.var v)) ∧ v.index < (Context.prelude supply).2.issued := by
  simp only [Context.prelude, freshList_eq] at h ⊢
  rcases OrderedMap.of_get?_insertAll h with hmem | hnone
  · obtain ⟨⟨b, v⟩, hp, heq⟩ := List.mem_map.1 hmem
    obtain ⟨i, hi, rfl⟩ := List.mem_map.1 (List.of_mem_zip hp).2
    rw [List.mem_range'_1] at hi
    obtain ⟨rfl, rfl⟩ := Prod.mk.inj heq
    exact ⟨b, ⟨i⟩, rfl, rfl, hi.2⟩
  · cases hnone

end Builtins

namespace Declarations

open Lowering (Collected IsShared Region Under)

variable {t : Tree} {f : Forest} {n : NodeId} {st st' : Progress} {l : LoweredFunction}
  {lowering : Lowering}

structure WellLowered (f : Forest) (n : NodeId) (l : LoweredFunction) : Prop where
  binders : ∃ k, l.term.Scoped f (Region (Under f n) 0 k)
  sealed : l.signature.Sealed .aggregates

theorem lowerFunction_scoped (hf : f.NamedOnce) (n : NodeId) (S : TypeStore) :
    Lands (lowerFunction f n) (Lowering.start S)
      (fun l _ => ∃ k, l.term.Scoped f (Region (Under f n) 0 k)) fun _ _ => True := by
  simp only [lowerFunction, lands_bind, lands_pure]
  refine (Lowering.function_makes hf n (Lowering.start S)).imp_ok fun term st₁ hterm => ?_
  rw [lands_iff_run]
  split
  · exact ⟨_, hterm.2⟩
  · trivial

/-- The variable is issued, and the shared context neither leaves it free nor quantifies it. -/
def Progress.Aside (st : Progress) (v : TyVar) : Prop :=
  v.index < st.store.supply.issued ∧ ¬ st.base.Free v ∧ ¬ st.base.Quantifies v

structure Stocked (f : Forest) (st : Progress) : Prop where
  tidy : st.store.Tidy
  hygienic : st.base.Hygienic st.store.supply.issued
  sealed : st.base.Sealed .aggregates
  shared : ∀ v, st.store.Shares v → ¬ st.base.Quantifies v
  keys : ∀ d, st.base.contains (.decl d) = true → isTopLevel f d = false
  opens : ∀ x, st.base.bindsOpen x = true → ∃ d, x = .decl d ∧ IsShared f d
  lowered : ∀ n l, st.lowered.get? n = some l → WellLowered f n l
  own : ∀ n l, st.lowered.get? n = some l → ∀ v ∈ l.signature.vars,
    st.Aside v ∧ ¬ st.store.Shares v
  separate : ∀ n l m k, st.lowered.get? n = some l → st.lowered.get? m = some k → n ≠ m →
    ∀ v ∈ l.signature.vars, v ∉ k.signature.vars
  found : st.found = default
  solved : st.solved = Subst.empty

/-- The prelude is stocked: it is closed and assumes nothing about declarations. -/
theorem Stocked.start (f : Forest) (supply : Supply) : Stocked f (Progress.start supply) where
  tidy := by
    constructor
    · intro v hv
      obtain ⟨d, ts, hts, -⟩ := hv
      cases hts
    · intro d ts hts
      cases hts
  hygienic := by
    refine Context.hygienic_of_closed ?_ ?_
    · intro v hv
      obtain ⟨x, σ, hσ, hfree⟩ := hv
      obtain ⟨b, w, -, rfl, -⟩ := prelude_get? hσ
      exact Scheme.not_free_closed _ v hfree
    · intro x σ hσ v hv
      obtain ⟨b, w, -, rfl, hw⟩ := prelude_get? hσ
      have hmem := Builtin.mem_vars_type (Scheme.bound_closed.1 hv)
      rw [mem_vars_var.1 hmem]
      exact hw
  sealed := by
    intro x σ hσ
    obtain ⟨b, w, -, rfl, -⟩ := prelude_get? hσ
    exact Builtin.sealed_type b (sealed_var w)
  shared := by
    intro v hv
    obtain ⟨d, ts, hts, -⟩ := hv
    cases hts
  keys := by
    intro d hd
    obtain ⟨σ, hσ⟩ := OrderedMap.contains_iff.1 hd
    obtain ⟨b, w, hx, -⟩ := prelude_get? hσ
    cases hx
  opens := by
    intro x hx
    obtain ⟨σ, v, hσ, hfree⟩ := Context.bindsOpen_iff.1 hx
    obtain ⟨b, w, -, rfl, -⟩ := prelude_get? hσ
    exact absurd hfree (Scheme.not_free_closed _ v)
  lowered n l h := by simp [Progress.start] at h
  own n l h := by simp [Progress.start] at h
  separate n l m k h := by simp [Progress.start] at h
  found := rfl
  solved := rfl

/-- What lowering a function assumed is taken up, whether it succeeded or not. -/
theorem Stocked.afterLowering (h : Stocked f st) (hc : Collected f st.store lowering) :
    Stocked f (st.afterLowering lowering) where
  tidy := hc.store.tidy h.tidy
  hygienic := by
    refine (h.hygienic.mono hc.store.le).insertAll_entries hc.hygienic ?_ ?_
    · intro v hv hfree
      have hlow := (hc.bound v hv).1
      have hlt := h.hygienic.lt_of_free hfree
      omega
    · intro v hv hquant
      rcases hc.free v hv with hshared | hlow
      · exact h.shared v hshared hquant
      · have hlt := h.hygienic.lt_of_quantifies hquant
        omega
  sealed := by
    refine h.sealed.insertAll fun p hp => ?_
    exact hc.sealed p.1 p.2 (OrderedMap.mem_entries_iff.1 hp)
  shared := by
    intro v hv hquant
    rcases Context.quantifies_insertAll_entries hquant with hnew | hquant
    · exact (hc.bound v hnew).2 hv
    · rcases hc.store.shares v hv with hold | ⟨hlow, -⟩
      · exact h.shared v hold hquant
      · have hlt := h.hygienic.lt_of_quantifies hquant
        omega
  keys := by
    intro d hd
    rcases OrderedMap.contains_insertAll_entries.1 hd with hd | hd
    · obtain ⟨d', heq, htop⟩ := hc.keys _ hd
      rw [CoreVar.decl.inj heq]
      exact htop
    · exact h.keys d hd
  opens := by
    intro x hx
    rcases Context.bindsOpen_insertAll hx with ⟨σ, v, hmem, hfree⟩ | hx
    · have hσ := OrderedMap.mem_entries_iff.1 hmem
      obtain ⟨d, rfl, -⟩ := hc.keys x (OrderedMap.contains_iff.2 ⟨σ, hσ⟩)
      exact ⟨d, rfl, hc.shared d (Context.bindsOpen_iff.2 ⟨σ, v, hσ, hfree⟩)⟩
    · exact h.opens x hx
  lowered := h.lowered
  own := by
    intro n l hl v hv
    obtain ⟨⟨hlt, hfree, hquant⟩, hshared⟩ := h.own n l hl v hv
    refine ⟨⟨Nat.lt_of_lt_of_le hlt hc.store.le, fun hv => ?_, fun hv => ?_⟩, fun hv => ?_⟩
    · rcases Context.free_insertAll_entries hv with hnew | hold
      · rcases hc.free v hnew with hs | hlow
        · exact hshared hs
        · omega
      · exact hfree hold
    · rcases Context.quantifies_insertAll_entries hv with hnew | hold
      · have hlow := (hc.bound v hnew).1
        omega
      · exact hquant hold
    · rcases hc.store.shares v hv with hold | ⟨hlow, -⟩
      · exact hshared hold
      · omega
  separate := h.separate
  found := h.found
  solved := h.solved

/-- A function that lowers brings along variables that nothing before it mentions. -/
theorem Stocked.lower (h : Stocked f st) (hl : Introduces f st.store l lowering)
    (hscoped : ∃ k, l.term.Scoped f (Region (Under f n) 0 k)) :
    Stocked f { st.afterLowering lowering with lowered := st.lowered.insert n l } := by
  have hbase := h.afterLowering hl.collected
  have hnew : ∀ v ∈ l.signature.vars, st.store.supply.issued ≤ v.index :=
    fun v hv => (hl.vars v hv).1
  refine ⟨hbase.tidy, hbase.hygienic, hbase.sealed, hbase.shared, hbase.keys, hbase.opens,
    ?_, ?_, ?_, hbase.found, hbase.solved⟩
  · intro m k hk
    rcases OrderedMap.of_get?_insert hk with ⟨rfl, rfl⟩ | hk
    · exact ⟨hscoped, hl.sealed⟩
    · exact h.lowered m k hk
  · intro m k hk v hv
    rcases OrderedMap.of_get?_insert hk with ⟨rfl, rfl⟩ | hk
    · obtain ⟨hlow, hlt, hfree, hquant, hshared⟩ := hl.vars v hv
      refine ⟨⟨hlt, fun hv => ?_, fun hv => ?_⟩, hshared⟩
      · rcases Context.free_insertAll_entries hv with hnew | hold
        · exact hfree hnew
        · have hold := h.hygienic.lt_of_free hold
          omega
      · rcases Context.quantifies_insertAll_entries hv with hnew | hold
        · exact hquant hnew
        · have hold := h.hygienic.lt_of_quantifies hold
          omega
    · exact hbase.own m k hk v hv
  · intro m k m' k' hk hk' hne v hv hv'
    rcases OrderedMap.of_get?_insert hk with ⟨hm, rfl⟩ | hold
    · rcases OrderedMap.of_get?_insert hk' with ⟨hm', -⟩ | hold'
      · exact hne (hm.trans hm'.symm)
      · have hlow := hnew v hv
        have hlt := (h.own m' k' hold' v hv').1.1
        omega
    · rcases OrderedMap.of_get?_insert hk' with ⟨-, rfl⟩ | hold'
      · have hlow := hnew v hv'
        have hlt := (h.own m k hold v hv).1.1
        omega
      · exact h.separate m k m' k' hold hold' hne v hv hv'

/-- Preparing a function keeps the context stocked, also if it fails. -/
theorem Stocked.step (ht : t.NamedOnce) (h : Stocked t.toForest st)
    (hstep : Prepared t n st st') : Stocked t.toForest st' := by
  have hintroduces := lowerFunction_introduces (f := t.toForest) h.tidy n
  have hscoped := lowerFunction_scoped (f := t.toForest) ht n st.store
  rw [lands_iff_run] at hintroduces hscoped
  cases hstep with
  | lowered l lowering hrun =>
    rw [hrun] at hintroduces hscoped
    exact h.lower hintroduces hscoped
  | failed e lowering r hrun hreport =>
    rw [hrun] at hintroduces
    have hbase := h.afterLowering hintroduces
    exact ⟨hbase.tidy, hbase.hygienic, hbase.sealed, hbase.shared, hbase.keys, hbase.opens,
      hbase.lowered, hbase.own, hbase.separate, hbase.found, hbase.solved⟩

end Declarations

end SemanticAnalysis
