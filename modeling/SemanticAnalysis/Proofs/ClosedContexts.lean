import SemanticAnalysis.Proofs.FailureIsolation
import SemanticAnalysis.Proofs.ScopeClosure

/-!
Contexts that cover what is typed in them. Over a linked tree every variable that
is free in a function of a group is bound in the context in which the group is
typed, by the prelude, by an assumption of lowering, by a group before it or by
the group itself. So typing a unit never stops with a crash.
-/

namespace SemanticAnalysis.Declarations

variable {fuel : Nat} {t : Tree} {supply : Supply} {n d : NodeId} {g : List NodeId}
  {listing done : List (List NodeId)} {st st' : Progress}

section Lowering

open Lowering (Refused Quiet TopAccounted quiet_reading quiet_signatureOfParts function_lowers)

/-- What keeps a function from being lowered is reported and is no crash. -/
theorem loweringReport_of_refused {e : LowerError} (h : Refused t n e) :
    ∃ r, loweringReport t e = .ok r := by
  rcases h with ⟨r, d, kind, rfl⟩ | ⟨r, d, rfl, -⟩ <;> exact ⟨_, rfl⟩

theorem quiet_signature (ht : t.Linked) (hn : isTopLevel t.toForest n = true) :
    Quiet t.toForest (Lowering.signature t.toForest n) := by
  obtain ⟨name, params, returns, body, -, -, hk, -⟩ := isTopLevel_cases hn
  simp only [Lowering.signature, hk]
  refine quiet_signatureOfParts ht params (quiet_reading (TypeStore.certain_evalOrFresh ht ?_))
  intro e he
  have hplace : (Role.typeExpr, e) ∈ (Kind.function name params returns body).places := by
    simpa [Kind.places] using he
  obtain ⟨-, k, hke, hadmits⟩ := ht.wellFormed.child_fits hk hplace
  exact ⟨k, hke, hadmits⟩

theorem lowerFunction_lands (ht : t.Linked) (hn : isTopLevel t.toForest n = true)
    (store : TypeStore) :
    Lands (lowerFunction t.toForest n) (Lowering.start store)
      (fun l st => ∀ v ∈ l.term.free, TopAccounted t n st v) fun e _ => Refused t n e := by
  simp only [lowerFunction, lands_bind, lands_pure]
  refine (function_lowers ht hn store).imp_ok fun term st h => ?_
  refine (quiet_signature ht hn st).imp ?_ fun _ _ h => h.elim
  intro signature st' hadv v hv
  exact (h.1 v hv).imp_right fun hv => hv.imp_left (hadv.assumed v)

end Lowering

section Inference

open Inference (Typing infer_lands solve_lands)

variable {base : Context} {members : List (NodeId × LoweredFunction)}

/-- A member whose free variables are bound fails only for its types. -/
theorem inferMember_lands {assumed : Context} {member : LoweredFunction}
    (h : ∀ v ∈ member.term.free, assumed.contains v = true) (solution : Subst) (own : Ty)
    (st : Inference.State) :
    Lands (inferMember fuel assumed solution member own) st (fun _ _ => True)
      fun e _ => Typing e := by
  simp only [inferMember, lands_bind, lands_pure]
  have hfree : ∀ v ∈ member.term.free, (assumed.substitute solution).contains v = true := by
    intro v hv
    simpa using h v hv
  refine (infer_lands hfree st).imp_ok fun r st₁ _ => ?_
  refine (solve_lands _ _ st₁).imp_ok fun s st₂ _ => ?_
  exact solve_lands _ _ st₂

/-- If the free variables of all members are bound then typing them fails only for their types. -/
theorem inferMembers_lands {assumed : Context} {pairs : List (LoweredFunction × Ty)}
    (h : ∀ p ∈ pairs, ∀ v ∈ p.1.term.free, assumed.contains v = true) (solution : Subst)
    (st : Inference.State) :
    Lands (inferMembers fuel assumed solution pairs) st (fun _ _ => True)
      fun e _ => Typing e.item := by
  induction pairs generalizing solution st with
  | nil => simp [inferMembers]
  | cons p rest ih =>
    obtain ⟨member, own⟩ := p
    simp only [inferMembers, lands_bind, lands_adapt]
    refine (inferMember_lands (h _ (List.mem_cons_self ..)) solution own st).imp_ok ?_
    intro solution st₁ _
    exact ih (fun p hp => h p (List.mem_cons_of_mem _ hp)) solution st₁

/-- A group whose free variables are bound by the context or by the group misses none. -/
theorem inferGroup_lands (h : ∀ p ∈ members, ∀ v ∈ p.2.term.free,
      base.contains v = true ∨ ∃ d ∈ members.map (·.1), v = .decl d) (st : Inference.State) :
    Lands (inferGroup fuel base members) st (fun _ _ => True) fun e _ => Typing e.item := by
  simp only [inferGroup, lands_bind, lands_get, lands_set, lands_pure]
  refine inferMembers_lands (fun p hp v hv => ?_) _ _
  obtain ⟨q, hq, hpq⟩ := List.mem_map.1 (List.of_mem_zip hp).1
  rw [Context.combine, OrderedMap.contains_insertAll_entries, OrderedMap.contains_ofList,
    List.map_map]
  refine (h q hq v (hpq ▸ hv)).symm.imp_left ?_
  rintro ⟨d, hd, rfl⟩
  have hfst : ((members.map (·.1)).zip ((st.supply.freshList members.length).1.map Ty.var)).map
      Prod.fst = members.map (·.1) := List.map_fst_zip (by simp [freshList_eq])
  rw [← hfst] at hd
  obtain ⟨p, hp, rfl⟩ := List.mem_map.1 hd
  exact List.mem_map.2 ⟨p, hp, rfl⟩

end Inference

structure Covered (t : Tree) (st : Progress) : Prop where
  builtins : ∀ b, st.base.contains (.builtin b) = true
  free : ∀ n l, st.lowered.get? n = some l → ∀ v ∈ l.term.free, st.base.contains v = true ∨
    ∃ d, v = .decl d ∧ Uses t.toForest (topLevelFunctions t) n d
  declared : ∀ d, st.found.declarations.contains d = true → st.base.contains (.decl d) = true
  harmless : ∀ r ∈ st.reports, r.severity ≠ .crash

theorem Covered.start (t : Tree) (supply : Supply) : Covered t (Progress.start supply) where
  builtins b := by
    have hkeys : ∀ b, CoreVar.builtin b ∈ (((Builtin.all.zip (supply.freshList 4).1).map fun p =>
        (CoreVar.builtin p.1, Scheme.closed (p.1.type (.var p.2)))).map (·.1)) := by
      intro b
      cases b <;> simp [Builtin.all, Supply.freshList, Supply.fresh]
    exact OrderedMap.contains_ofList.2 (hkeys b)
  free n l h := by simp [Progress.start] at h
  declared d h := (Bool.false_ne_true h).elim
  harmless := by simp [Progress.start]

/-- Lowering a function leaves what is free in it bound or a top-level function that it uses. -/
theorem Covered.prepare (ht : t.Linked) (hn : n ∈ topLevelFunctions t) (h : Covered t st)
    (hstep : Prepared t n st st') : Covered t st' := by
  have hlands := lowerFunction_lands ht (mem_topLevelFunctions.1 hn).2 st.store
  rw [lands_iff_run] at hlands
  have hbase : ∀ {lowering : Lowering} {v}, st.base.contains v = true →
      (OrderedMap.insertAll st.base lowering.assumptions.entries).contains v = true :=
    fun hv => OrderedMap.contains_insertAll_entries.2 (Or.inr hv)
  have hharmless : st'.Harmless := hstep.harmless h.harmless
  cases hstep with
  | lowered l lowering hrun =>
    refine ⟨fun b => hbase (h.builtins b), fun m l' hl v hv => ?_,
      fun d hd => hbase (h.declared d hd), hharmless⟩
    rcases OrderedMap.of_get?_insert hl with ⟨rfl, rfl⟩ | hl
    · simp only [hrun] at hlands
      rcases hlands v hv with ⟨b, rfl⟩ | hassumed | ⟨d, -, rfl, hd⟩
      · exact Or.inl (hbase (h.builtins b))
      · exact Or.inl (OrderedMap.contains_insertAll_entries.2 (Or.inl hassumed))
      · exact Or.inr ⟨d, rfl, contains_usesOf.1 hd⟩
    · exact (h.free m l' hl v hv).imp_left hbase
  | failed e lowering r hrun hreport =>
    refine ⟨fun b => hbase (h.builtins b), fun m l' hl v hv => (h.free m l' hl v hv).imp_left hbase,
      fun d hd => hbase (h.declared d hd), hharmless⟩

/-- Checking a group takes nothing out of the context. -/
theorem Covered.check {functions : List NodeId} (h : Covered t st)
    (hstep : Checked fuel t functions g st st') : Covered t st' := by
  have hharmless : st'.Harmless := hstep.harmless h.harmless
  cases hstep with
  | skipped d hdep => exact ⟨h.builtins, h.free, h.declared, hharmless⟩
  | spoiled hdep hany => exact ⟨h.builtins, h.free, h.declared, hharmless⟩
  | failed hdep hsound e after r hrun hreport =>
    exact ⟨h.builtins, h.free, h.declared, hharmless⟩
  | typed hdep hsound types after hrun =>
    have hbase : ∀ v, ((st.afterTyping after).adopted types).base.contains v = true ↔
        v ∈ types.schemes.map (fun p => CoreVar.decl p.1) ∨ st.base.contains v = true := by
      intro v
      refine OrderedMap.contains_insertAll.trans ?_
      simp [Progress.afterTyping, Function.comp_def]
    refine ⟨fun b => (hbase _).2 (Or.inr (h.builtins b)), fun n l hl v hv => ?_, fun d hd => ?_,
      h.harmless⟩
    · exact (h.free n l hl v hv).imp_left fun hv => (hbase v).2 (Or.inr hv)
    · rw [hbase]
      refine (OrderedMap.contains_insertAll.1 hd).imp (fun hd => ?_) (h.declared d)
      obtain ⟨p, hp, rfl⟩ := List.mem_map.1 hd
      exact List.mem_map.2 ⟨p, hp, rfl⟩

/-- What is free in the functions of a group is bound when the group is typed. -/
theorem Covered.bound_in_group (h : Covered t st)
    (hlisting : DependenciesFirst t.toForest (topLevelFunctions t) listing)
    {rest : List (List NodeId)} (hsplit : listing = done ++ g :: rest)
    (hiso : Isolated fuel t supply listing done st)
    (hdep : failedDependency t.toForest (topLevelFunctions t) g st.failed = none)
    (hsound : g.any st.failed.contains = false) :
    ∀ p ∈ st.members g, ∀ v ∈ p.2.term.free,
      st.base.contains v = true ∨ ∃ d ∈ (st.members g).map (·.1), v = .decl d := by
  have hfunctions : ∀ n ∈ g, n ∈ topLevelFunctions t := fun n hn =>
    hlisting.mem_functions (by simp [hsplit]) hn
  rw [map_fst_members (hiso.lowered_of_sound hfunctions hsound)]
  rintro ⟨n, l⟩ hp v hv
  obtain ⟨hn, hl⟩ := mem_members.1 hp
  rcases h.free n l hl v hv with hbase | ⟨d, rfl, hd⟩
  · exact Or.inl hbase
  · by_cases hdg : d ∈ g
    · exact Or.inr ⟨d, hdg, rfl⟩
    · have hbefore := (hlisting.ordered done g rest hsplit n hn d hd).resolve_left hdg
      obtain ⟨g', hg', hd'⟩ := hbefore
      have hnot := not_failed_of_failedDependency hdep hn hd hdg
      exact Or.inl (h.declared d ((hiso.settled g' hg' d hd').resolve_right (by simp [hnot])))

/-- An error that a group ends with is reported and is no crash. -/
theorem inferenceReport_of_typing {e : Located InferError} (h : Inference.Typing e.item) :
    ∃ r, inferenceReport t e = .ok r := by
  obtain ⟨item, span⟩ := e
  cases item with
  | unknownVariable v => exact absurd rfl (h v)
  | infiniteType v A => exact ⟨_, rfl⟩
  | cannotUnify A B => exact ⟨_, rfl⟩

/-- Typing the functions of a linked tree never stops with a crash, nor reports one. -/
theorem checkListed_harmless (ht : t.Linked)
    (hlisting : DependenciesFirst t.toForest (topLevelFunctions t) listing) (fuel : Nat)
    (supply : Supply) : Lands (checkListed fuel t listing) (Progress.start supply)
      (fun _ st => ∀ r ∈ st.reports, r.severity ≠ .crash) fun _ _ => False := by
  refine Lands.imp_ok (checkListed_lands
    (fun done st => Preparing t supply done st ∧ Covered t st)
    (fun done st => Isolated fuel t supply listing done st ∧ Covered t st)
    ⟨Preparing.start t supply, Covered.start t supply⟩ ?_ (fun st h => ⟨h.1.isolated, h.2⟩) ?_)
    fun _ _ h => h.2.harmless
  · intro done n rest hsplit st hreached hst
    obtain ⟨hprep, hcov⟩ := hst
    have hmem : n ∈ topLevelFunctions t := by simp [hsplit]
    refine (prepare_lands t n st).imp
      (fun _ _ hstep => ⟨hprep.step hsplit hreached hstep, hcov.prepare ht hmem hstep⟩) ?_
    intro crash _ hstop
    obtain ⟨-, e, lowering, hrun, hcrash⟩ := hstop
    have hlands := lowerFunction_lands ht (mem_topLevelFunctions.1 hmem).2 st.store
    rw [lands_iff_run] at hlands
    simp only [hrun] at hlands
    obtain ⟨r, hr⟩ := loweringReport_of_refused hlands
    simp [hr] at hcrash
  · intro done g rest hsplit st hreached hst
    obtain ⟨hiso, hcov⟩ := hst
    refine (checkGroup_lands fuel t _ g st).imp
      (fun _ _ hstep => ⟨hiso.step hlisting hsplit hreached hstep, hcov.check hstep⟩) ?_
    intro crash _ hstop
    obtain ⟨-, e, after, hdep, hsound, hrun, hcrash⟩ := hstop
    have htyping := (inferGroup_lands (hcov.bound_in_group hlisting hsplit hiso hdep hsound)
      _).of_error hrun
    obtain ⟨r, hr⟩ := inferenceReport_of_typing (t := t) htyping
    simp [hr] at hcrash

theorem inferDeclarations_harmless (ht : t.Linked) {outcome : DeclarationOutcome}
    (h : inferDeclarations fuel t supply = some outcome) :
    (∃ types, outcome.result = .ok types) ∧ ∀ r ∈ outcome.reports, r.severity ≠ .crash := by
  have hlands := checkListed_harmless ht
    (dependenciesFirst_groups (topLevelFunctions_nodup ht.wellFormed.named_once)) fuel supply
  obtain ⟨⟨result, st⟩, hrun, hout⟩ := Option.bind_eq_some_iff.1 h
  obtain rfl : _ = outcome := Option.some.inj hout
  cases result with
  | error crash => exact (hlands.of_error hrun).elim
  | ok u => exact ⟨⟨_, rfl⟩, hlands.of_ok hrun⟩

end SemanticAnalysis.Declarations
