import SemanticAnalysis.Proofs.FunctionGroups
import SemanticAnalysis.Proofs.GroupSolutions
import SemanticAnalysis.Proofs.PreparedContexts

/-!
The shared context while the groups of a unit are typed. It follows each solution as
it is found, whereas what is reported of a function is kept as it was generalized and
follows the composition of all solutions in the end. Both come to the same scheme:
a variable that is solved once is gone from the context for good, and no later
solution touches what a scheme quantifies.
-/

namespace SemanticAnalysis

namespace Declarations

variable {fuel m : Nat} {t : Tree} {f : Forest} {n : NodeId} {st st' : Progress}
  {group functions : List NodeId} {types : TypedGroup} {after : Inference.State}
  {waiting later : NodeId → Prop} {taken : CoreVar → Bool} {v : TyVar}

/-- What would be reported of functions if this were the end. -/
def Progress.reported (st : Progress) : OrderedMap NodeId Scheme :=
  (settle st.solved st.found).declarations

/-- What holds while groups are typed: the context is up to date with the solutions so far, and
the functions that are still waiting promise types with variables of their own. -/
structure InStep (f : Forest) (waiting : NodeId → Prop) (st : Progress) : Prop where
  hygienic : st.base.Hygienic st.store.supply.issued
  sealed : st.base.Sealed .aggregates
  idempotent : st.solved.Idempotent
  issued : ∀ v, st.solved.contains v = true → v.index < st.store.supply.issued
  gone : ∀ v, st.base.Free v → st.solved.contains v = false
  reported : ∀ d σ, st.reported.get? d = some σ → st.base.get? (.decl d) = some σ
  lowered : ∀ n l, st.lowered.get? n = some l → WellLowered f n l
  own : ∀ n l, st.lowered.get? n = some l → waiting n → ∀ v ∈ l.signature.vars,
    st.Aside v ∧ st.solved.contains v = false
  separate : ∀ n l m k, st.lowered.get? n = some l → st.lowered.get? m = some k → n ≠ m →
    ∀ v ∈ l.signature.vars, v ∉ k.signature.vars

/-- Before the first group nothing is solved, so the context is in step. -/
theorem Stocked.inStep (h : Stocked f st) : InStep f waiting st where
  hygienic := h.hygienic
  sealed := h.sealed
  idempotent := by
    rw [h.solved]
    exact Subst.idempotent_empty
  issued v hv := by simp [h.solved, Subst.empty] at hv
  gone v _ := by simp [h.solved, Subst.empty]
  reported d σ hσ := by
    rw [Progress.reported, h.found] at hσ
    cases hσ
  lowered := h.lowered
  own n l hl _ v hv := ⟨(h.own n l hl v hv).1, by simp [h.solved, Subst.empty]⟩
  separate := h.separate

def Progress.Promised (st : Progress) (group : List NodeId) (v : TyVar) : Prop :=
  ∃ p ∈ st.members group, v ∈ p.2.signature.vars

theorem Progress.base_adopted (st : Progress) (after : Inference.State) (types : TypedGroup)
    (d : NodeId) : ((st.afterTyping after).adopted types).base.get? (.decl d) =
      ((OrderedMap.ofList types.schemes).get? d).or
        ((st.base.substitute types.solution).get? (.decl d)) := by
  have hbase := Context.get?_insertAll_declared (Γ := st.base.substitute types.solution)
    types.schemes id (.decl d)
  rw [Option.map_id] at hbase
  exact hbase

section Typing

theorem InStep.grounds (h : InStep f waiting st) (hgroup : ∀ n ∈ group, waiting n) :
    Grounds st.base (st.Promised group) st.store.supply.issued where
  hygienic := h.hygienic
  sealed := h.sealed
  issued := by
    intro v hv
    obtain ⟨p, hp, hv⟩ := hv
    obtain ⟨hn, hl⟩ := mem_members.1 hp
    obtain ⟨⟨hlt, -, hquant⟩, -⟩ := h.own p.1 p.2 hl (hgroup p.1 hn) v hv
    exact ⟨hlt, hquant⟩

/-- What typing a group gives under the solutions so far. -/
theorem InStep.typed (h : InStep f waiting st) (htuples : f.TuplesEmpty)
    (hgroup : ∀ n ∈ group, waiting n) (taken : CoreVar → Bool)
    (htaken : ∀ x, (st.base.bindsOpen x = true ∨ ∃ p ∈ st.members group, x = .decl p.1) →
      taken x = true)
    (hrun : (inferGroup fuel st.base (st.members group)).run
      (Inference.State.start st.store.supply) = some (.ok types, after)) :
    Typed st.base (st.Promised group) taken st.store.supply.issued after.supply.issued
      (st.members group) types := by
  refine (inferGroup_types (h.grounds hgroup) ?_ htaken).of_ok hrun
  intro p hp
  have hl := h.lowered p.1 p.2 (mem_members.1 hp).2
  obtain ⟨k, hscoped⟩ := hl.binders
  exact ⟨hscoped.tuples htuples, hl.sealed, fun v hv => ⟨p, hp, hv⟩⟩

/-- What a group may touch was not solved before. -/
theorem InStep.unsolved (h : InStep f waiting st) (hgroup : ∀ n ∈ group, waiting n)
    (hv : st.base.Reaches st.store.supply.issued m v ∨ st.Promised group v) :
    st.solved.contains v = false := by
  rcases hv with (hfree | ⟨hlow, -⟩) | ⟨p, hp, hv⟩
  · exact h.gone v hfree
  · by_contra hsolved
    have hlt := h.issued v (by simpa using hsolved)
    omega
  · obtain ⟨hn, hl⟩ := mem_members.1 hp
    exact (h.own p.1 p.2 hl (hgroup p.1 hn) v hv).2

/-- A group touches nothing that a function outside it promises. -/
theorem InStep.untouched (h : InStep f waiting st) {l : LoweredFunction}
    (hl : st.lowered.get? n = some l) (hwaiting : waiting n) (hn : n ∉ group)
    (hv : v ∈ l.signature.vars) :
    ¬ (st.base.Reaches st.store.supply.issued m v ∨ st.Promised group v) := by
  obtain ⟨⟨hlt, hfree, -⟩, -⟩ := h.own n l hl hwaiting v hv
  intro hreach
  rcases hreach with (hreach | ⟨hlow, -⟩) | ⟨p, hp, hvp⟩
  · exact hfree hreach
  · omega
  · obtain ⟨hp, hk⟩ := mem_members.1 hp
    have hne : n ≠ p.1 := fun heq => hn (heq ▸ hp)
    exact h.separate n l p.1 p.2 hl hk hne v hv hvp

theorem Typed.free_adopted {S : TyVar → Prop} {k : Nat}
    {members : List (NodeId × LoweredFunction)} (h : Typed st.base S taken k m members types)
    (hv : ((st.afterTyping after).adopted types).base.Free v) :
    (st.base.substitute types.solution).Free v := by
  rcases Context.free_insertAll hv with ⟨q, hq, hfree⟩ | hfree
  · obtain ⟨p, hp, rfl⟩ := List.mem_map.1 hq
    exact h.free_scheme hp hfree
  · exact hfree

variable (h : InStep f waiting st) (hgroup : ∀ n ∈ group, waiting n)
  (htyped : Typed st.base (st.Promised group) taken st.store.supply.issued after.supply.issued
    (st.members group) types)

include h hgroup htyped

theorem InStep.apart_solution : st.base.Apart types.solution :=
  (h.grounds hgroup).apart htyped.solving.touches

/-- A variable that is free in the new context is bound by no solution. -/
theorem InStep.gone_next (hv : (st.base.substitute types.solution).Free v) :
    (types.solution.compose st.solved).contains v = false := by
  have happart := h.apart_solution hgroup htyped
  by_contra hsolved
  rcases Subst.contains_compose.1 (by simpa using hsolved) with hsolved | hsolved
  · have hnot := Context.unbound_of_free_substitute htyped.solving.idempotent hv
    simp [hnot] at hsolved
  · rcases Context.free_or_touches happart hv with hold | htouch
    · simp [h.gone v hold] at hsolved
    · have hnot := h.unsolved hgroup (htyped.solving.touches v htouch)
      simp [hnot] at hsolved

theorem InStep.idempotent_next : (types.solution.compose st.solved).Idempotent :=
  htyped.solving.idempotent.compose h.idempotent fun v hv =>
    h.unsolved hgroup (htyped.solving.touches v hv)

/-- The context, which has followed the solution, takes up the schemes of the group. -/
theorem InStep.hygienic_next :
    ((st.afterTyping after).adopted types).base.Hygienic after.supply.issued := by
  have hbase := htyped.solving.hygienic (h.grounds hgroup)
  refine hbase.insertAll ?_ ?_ ?_
  · intro q hq v hv
    obtain ⟨p, hp, rfl⟩ := List.mem_map.1 hq
    have hmem : v ∈ p.2.body.vars := by
      refine hv.elim id fun hbound => ?_
      rw [htyped.generalized p hp] at hbound
      exact (Context.bound_generalize.1 hbound).1
    exact (h.grounds hgroup).lt htyped.solving.le (htyped.vars p hp v hmem)
  · intro q hq v hv
    obtain ⟨p, hp, rfl⟩ := List.mem_map.1 hq
    have hbound : p.2.bound.contains v = true := hv
    rw [htyped.generalized p hp] at hbound
    have hnot := (Context.bound_generalize.1 hbound).2
    refine ⟨hnot, fun q' hq' hfree => ?_⟩
    obtain ⟨p', hp', rfl⟩ := List.mem_map.1 hq'
    exact hnot (htyped.free_scheme hp' hfree)
  · intro q hq v hv
    obtain ⟨p, hp, rfl⟩ := List.mem_map.1 hq
    exact hbase.not_quantifies_of_free (htyped.free_scheme hp hv)

/-- A variable that the group does not reach stays out of the context. -/
theorem InStep.aside_next (hv : st.Aside v)
    (hout : ¬ (st.base.Reaches st.store.supply.issued after.supply.issued v ∨
      st.Promised group v)) : ((st.afterTyping after).adopted types).Aside v := by
  obtain ⟨hlt, hfree, hquant⟩ := hv
  refine ⟨Nat.lt_of_lt_of_le hlt htyped.solving.le, fun hv => ?_, fun hv => ?_⟩
  · have hnew := htyped.free_adopted hv
    rcases Context.free_or_touches (h.apart_solution hgroup htyped) hnew with hold | htouch
    · exact hfree hold
    · exact hout (htyped.solving.touches v htouch)
  · rcases Context.quantifies_insertAll hv with ⟨q, hq, hbound⟩ | hold
    · obtain ⟨p, hp, rfl⟩ := List.mem_map.1 hq
      have hbound' : p.2.bound.contains v = true := hbound
      rw [htyped.generalized p hp] at hbound'
      exact hout (htyped.vars p hp v (Context.bound_generalize.1 hbound').1)
    · exact hquant (Context.quantifies_substitute.1 hold)

/-- What will be reported goes on with the solution, and the schemes of the group, which are free
of all that was solved, are added as they are. -/
theorem InStep.reported_next (d : NodeId) :
    ((st.afterTyping after).adopted types).reported.get? d =
      ((OrderedMap.ofList types.schemes).get? d).or
        ((st.reported.get? d).map fun σ => σ.substitute types.solution) := by
  have hfound : ((st.afterTyping after).adopted types).reported.get? d =
      (((OrderedMap.ofList types.schemes).get? d).or (st.found.declarations.get? d)).map
        fun σ => σ.substitute (types.solution.compose st.solved) := by
    rw [← OrderedMap.get?_insertAll]
    exact OrderedMap.get?_mapValues _ _ _
  have hold : st.reported.get? d =
      (st.found.declarations.get? d).map fun σ => σ.substitute st.solved :=
    OrderedMap.get?_mapValues _ _ _
  rw [hfound, hold]
  cases hnew : (OrderedMap.ofList types.schemes).get? d with
  | some δ =>
    have hmem : (d, δ) ∈ types.schemes := by
      rcases OrderedMap.of_get?_insertAll hnew with hmem | hnone
      · exact hmem
      · cases hnone
    have hkept : δ.substitute (types.solution.compose st.solved) = δ :=
      Scheme.substitute_of_unbound fun v hv =>
        h.gone_next hgroup htyped (htyped.free_scheme hmem hv)
    rw [Option.some_or, Option.map_some, hkept, Option.some_or]
  | none =>
    rw [Option.none_or, Option.none_or]
    cases hσ : st.found.declarations.get? d with
    | none => rfl
    | some σ =>
      have hbase := h.reported d (σ.substitute st.solved) (by rw [hold, hσ, Option.map_some])
      have happart : (σ.substitute st.solved).Apart types.solution :=
        h.apart_solution hgroup htyped _ _ hbase
      rw [Option.map_some, Option.map_some, Option.map_some,
        Scheme.substitute_compose (σ := σ) happart]

/-- A group that is typed leaves the context in step: its solution touches no scheme and no promise
of others. -/
theorem InStep.adopt (hlater : ∀ n, later n → waiting n ∧ n ∉ group) :
    InStep f later ((st.afterTyping after).adopted types) where
  hygienic := h.hygienic_next hgroup htyped
  sealed := by
    refine (h.sealed.substitute htyped.solving.sealed).insertAll fun q hq => ?_
    obtain ⟨p, hp, rfl⟩ := List.mem_map.1 hq
    exact htyped.sealed p hp
  idempotent := h.idempotent_next hgroup htyped
  issued := by
    intro v hv
    rcases Subst.contains_compose.1 hv with hv | hv
    · exact (h.grounds hgroup).lt htyped.solving.le (htyped.solving.touches v (Or.inl hv))
    · exact Nat.lt_of_lt_of_le (h.issued v hv) htyped.solving.le
  gone v hv := h.gone_next hgroup htyped (htyped.free_adopted hv)
  reported := by
    intro d σ hσ
    rw [h.reported_next hgroup htyped] at hσ
    rw [Progress.base_adopted]
    cases hnew : (OrderedMap.ofList types.schemes).get? d with
    | some δ =>
      rw [hnew, Option.some_or] at hσ
      rw [Option.some_or, hσ]
    | none =>
      rw [hnew, Option.none_or, Option.map_eq_some_iff] at hσ
      obtain ⟨δ, hδ, rfl⟩ := hσ
      rw [Option.none_or, Context.get?_substitute, h.reported d δ hδ, Option.map_some]
  lowered := h.lowered
  own := by
    intro n l hl hn v hv
    obtain ⟨hwaiting, hout⟩ := hlater n hn
    obtain ⟨haside, hunsolved⟩ := h.own n l hl hwaiting v hv
    refine ⟨h.aside_next hgroup htyped haside (h.untouched hl hwaiting hout hv), ?_⟩
    show (types.solution.compose st.solved).contains v = false
    by_contra hsolved
    rcases Subst.contains_compose.1 (by simpa using hsolved) with hsolved | hsolved
    · exact h.untouched hl hwaiting hout hv (htyped.solving.touches v (Or.inl hsolved))
    · simp [hunsolved] at hsolved
  separate := h.separate

end Typing

/-- A group that is passed over or fails issues variables at most. -/
theorem InStep.refuse (h : InStep f waiting st) (hlater : ∀ n, later n → waiting n)
    (hsupply : st.store.supply.issued ≤ st'.store.supply.issued) (hbase : st'.base = st.base)
    (hlowered : st'.lowered = st.lowered) (hfound : st'.found = st.found)
    (hsolved : st'.solved = st.solved) : InStep f later st' where
  hygienic := hbase ▸ h.hygienic.mono hsupply
  sealed := hbase ▸ h.sealed
  idempotent := hsolved ▸ h.idempotent
  issued v hv := Nat.lt_of_lt_of_le (h.issued v (hsolved ▸ hv)) hsupply
  gone v hv := by
    rw [hbase] at hv
    rw [hsolved]
    exact h.gone v hv
  reported := by
    rw [Progress.reported, hfound, hbase, hsolved]
    exact h.reported
  lowered := hlowered ▸ h.lowered
  own n l hl hn v hv := by
    rw [hlowered] at hl
    obtain ⟨⟨hlt, hfree, hquant⟩, hunsolved⟩ := h.own n l hl (hlater n hn) v hv
    rw [hsolved, Progress.Aside, hbase]
    exact ⟨⟨Nat.lt_of_lt_of_le hlt hsupply, hfree, hquant⟩, hunsolved⟩
  separate := hlowered ▸ h.separate

/-- Checking a group keeps the context in step, however it ends. -/
theorem InStep.check (h : InStep f waiting st) (htuples : f.TuplesEmpty)
    (hgroup : ∀ n ∈ group, waiting n) (hlater : ∀ n, later n → waiting n ∧ n ∉ group)
    (hstep : Checked fuel t functions group st st') : InStep f later st' := by
  have hless : ∀ n, later n → waiting n := fun n hn => (hlater n hn).1
  cases hstep with
  | skipped d hdep => exact h.refuse hless (Nat.le_refl _) rfl rfl rfl rfl
  | spoiled hdep hany => exact h.refuse hless (Nat.le_refl _) rfl rfl rfl rfl
  | failed hdep hsound e after r hrun hreport =>
    have hgrows : st.store.supply.issued ≤ after.supply.issued :=
      (inferGroup_grows st.base (st.members group) _).of_error hrun
    exact h.refuse hless hgrows rfl rfl rfl rfl
  | typed hdep hsound types after hrun =>
    have htyped := h.typed htuples hgroup (fun _ => true) (fun _ _ => rfl) hrun
    exact h.adopt hgroup htyped hlater

def Untyped (done : List (List NodeId)) (n : NodeId) : Prop := ∀ g ∈ done, n ∉ g

theorem untyped_of_append {done : List (List NodeId)} (h : Untyped (done ++ [group]) n) :
    Untyped done n ∧ n ∉ group := by
  refine ⟨fun g hg => h g (List.mem_append_left _ hg), h group ?_⟩
  exact List.mem_append_right _ (List.mem_singleton_self _)

/-- The context is in step at the end of a run along a listing. -/
theorem checkListed_inStep (ht : t.NamedOnce) (htuples : t.toForest.TuplesEmpty)
    {listing : List (List NodeId)}
    (hlisting : DependenciesFirst t.toForest (topLevelFunctions t) listing) (fuel : Nat)
    (supply : Supply) : Lands (checkListed fuel t listing) (Progress.start supply)
      (fun _ st => InStep t.toForest (Untyped listing) st) fun _ _ => True := by
  refine checkListed_lands (fun _ st => Stocked t.toForest st)
    (fun done st => InStep t.toForest (Untyped done) st) (.start _ supply) ?_
    (fun st h => h.inStep) ?_
  · intro done n rest _ st _ h
    exact (prepare_lands t n st).imp (fun _ _ hstep => h.step ht hstep) fun _ _ _ => trivial
  · intro done g rest hsplit st _ h
    refine (checkGroup_lands fuel t _ g st).imp (fun _ st' hstep => ?_) fun _ _ _ => trivial
    exact h.check htuples (hlisting.disjoint done g rest hsplit)
      (fun _ hn => untyped_of_append hn) hstep

/-- What is reported of a function is what the shared context holds for it in the end, and nothing
that is reported mentions a variable that was solved. -/
theorem incremental_substitution_agrees {supply : Supply} {outcome : DeclarationOutcome}
    {types : DeclarationTypes} (ht : t.WellFormed) (htuples : t.toForest.TuplesEmpty)
    (h : inferDeclarations fuel t supply = some outcome) (hok : outcome.result = .ok types) :
    ∃ st, (checkAll fuel t).run (Progress.start supply) = some (.ok (), st) ∧
      types = settle st.solved st.found ∧
      (∀ m σ, types.declarations.get? m = some σ → st.base.get? (.decl m) = some σ ∧
        ∀ v, σ.Free v → st.solved.contains v = false) ∧
      ∀ n T, types.expressions.get? n = some T → T.UnboundIn st.solved := by
  obtain ⟨st, hrun, -, rfl⟩ := exists_run_of_ok h hok
  have hlisting := dependenciesFirst_groups (f := t.toForest)
    (topLevelFunctions_nodup ht.named_once)
  have hend := (checkListed_inStep ht.named_once htuples hlisting fuel supply).of_ok hrun
  refine ⟨st, hrun, rfl, fun m σ hσ => ?_, fun n T hT => ?_⟩
  · have hbase := hend.reported m σ hσ
    exact ⟨hbase, fun v hv => hend.gone v ⟨.decl m, σ, hbase, hv⟩⟩
  · obtain ⟨T', -, rfl⟩ : ∃ T', st.found.expressions.get? n = some T' ∧
        st.solved.apply T' = T := by
      simpa [settle] using hT
    exact hend.idempotent.unboundIn_apply T'

/-- A struct with a field of no declared type, a function that builds the struct from its
parameter, and a function that builds it from a number. -/
def fieldUnit : Tree := Tree.ofKinds [
  .parameter ⟨1⟩ none, .structDecl ⟨2⟩ [⟨0⟩] [],
  .parameter ⟨3⟩ none, .resolved ⟨⟨2⟩, none⟩ ⟨1⟩, .resolved ⟨⟨3⟩, none⟩ ⟨2⟩, .call ⟨3⟩ [⟨4⟩],
  .function ⟨4⟩ [⟨2⟩] none ⟨5⟩,
  .resolved ⟨⟨2⟩, none⟩ ⟨1⟩, .number "1", .call ⟨7⟩ [⟨8⟩], .function ⟨5⟩ [] none ⟨9⟩,
  .moduleDecl ⟨6⟩ false [⟨1⟩, ⟨6⟩, ⟨10⟩], .file [⟨11⟩]]

theorem incremental_substitution_agrees_field : fieldUnit.WellFormed ∧
    fieldUnit.toForest.TuplesEmpty ∧ ∃ outcome types st,
      inferDeclarations 9 fieldUnit Supply.empty = some outcome ∧ outcome.result = .ok types ∧
      (checkAll 9 fieldUnit).run (Progress.start Supply.empty) = some (.ok (), st) ∧
      ∃ σ δ, st.found.declarations.get? ⟨6⟩ = some σ ∧ σ.body.vars ≠ [] ∧
        types.declarations.get? ⟨6⟩ = some δ ∧ δ.body.vars = [] ∧
        st.base.get? (.decl ⟨6⟩) = some δ := by
  have ht : fieldUnit.WellFormed := by decide +kernel
  have htuples : fieldUnit.toForest.TuplesEmpty := by decide +kernel
  obtain ⟨st, outcome, hrun, h, hok, htest⟩ := exists_outcome_of_run 9 fieldUnit Supply.empty
    (fun st => (st.found.declarations.get? ⟨6⟩).any fun σ =>
      !σ.body.vars.isEmpty && (σ.substitute st.solved).body.vars.isEmpty) (by decide +kernel)
  obtain ⟨σ, hσ, hvars⟩ := (Option.any_eq_true _ _).1 htest
  obtain ⟨hopen, hclosed⟩ := Bool.and_eq_true_iff.1 hvars
  obtain ⟨st', hrun', -, hshared, -⟩ := incremental_substitution_agrees ht htuples h hok
  obtain rfl : st = st' := (Prod.mk.inj (Option.some.inj (hrun.symm.trans hrun'))).2
  have hδ : (settle st.solved st.found).declarations.get? ⟨6⟩ =
      some (σ.substitute st.solved) := by
    simp [settle, hσ]
  refine ⟨ht, htuples, outcome, _, st, h, hok, hrun, σ, _, hσ, ?_, hδ, ?_, (hshared _ _ hδ).1⟩
  · simpa using hopen
  · simpa using hclosed

end Declarations

end SemanticAnalysis
