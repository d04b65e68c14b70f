import SemanticAnalysis.Declarations.Inference
import SemanticAnalysis.Proofs.Computations
import SemanticAnalysis.Proofs.Freshness

/-!
How typing a unit runs. Preparing a function and checking a group each have a few
ways to go on, and a way to stop with a crash; later modules go through these and
never open the computations.
-/

namespace SemanticAnalysis.Declarations

variable {fuel : Nat} {t : Tree} {n : NodeId} {functions group : List NodeId} {st st' : Progress}
  {r : Report}

section Reports

/-- What is said about a function that does not lower, and at which places. -/
inductive LoweringMessage (t : Tree) : LowerError → List Span → Message → Prop where
  | notAValue (reference referral : NodeId) (kind : String) :
      LoweringMessage t (.notAValue reference referral kind) [t.span reference, t.span referral]
        (.notAValue kind ((t.nameOf referral).getD ""))
  | usedBeforeBinding (reference referral : NodeId) :
      LoweringMessage t (.usedBeforeBinding reference referral)
        [t.span reference, t.span referral] (.usedBeforeBinding ((t.nameOf referral).getD ""))

inductive InferenceMessage (t : Tree) : InferError → Message → Prop where
  | cannotUnify (A B : Ty) : InferenceMessage t (.cannotUnify A B)
      (.mismatchedTypes (A.text t.symbols) (B.text t.symbols))
  | infiniteType (v : TyVar) (A : Ty) : InferenceMessage t (.infiniteType v A)
      (.infiniteType v.name (A.text t.symbols))

/-- What is reported about a function that does not lower is an error. -/
theorem of_loweringReport {e : LowerError} (h : loweringReport t e = .ok r) :
    ∃ points message, LoweringMessage t e points message ∧
      r = ⟨t.file, points, .error, message⟩ := by
  cases e with
  | notAValue reference referral kind =>
    exact ⟨_, _, .notAValue reference referral kind, (Except.ok.inj h).symm⟩
  | usedBeforeBinding reference referral =>
    exact ⟨_, _, .usedBeforeBinding reference referral, (Except.ok.inj h).symm⟩
  | unresolved node => cases h
  | notAnExpression node what => cases h
  | notAType inner => cases h

/-- What is reported about a group that has no type is an error at the member being typed. -/
theorem of_inferenceReport {e : Located InferError} (h : inferenceReport t e = .ok r) :
    ∃ message, InferenceMessage t e.item message ∧ r = ⟨t.file, [e.span], .error, message⟩ := by
  obtain ⟨item, span⟩ := e
  cases item with
  | cannotUnify A B => exact ⟨_, .cannotUnify A B, (Except.ok.inj h).symm⟩
  | infiniteType v A => exact ⟨_, .infiniteType v A, (Except.ok.inj h).symm⟩
  | unknownVariable x => cases h

end Reports

def Progress.Harmless (st : Progress) : Prop := ∀ r ∈ st.reports, r.severity ≠ .crash

theorem Progress.Harmless.append (h : st.Harmless) {new : List Report}
    (hnew : ∀ r ∈ new, r.severity ≠ .crash) : ∀ r ∈ st.reports ++ new, r.severity ≠ .crash := by
  intro r hr
  exact (List.mem_append.1 hr).elim (h r) (hnew r)

def Progress.afterLowering (st : Progress) (lowering : Lowering) : Progress :=
  { st with
    store := lowering.store
    base := OrderedMap.insertAll st.base lowering.assumptions.entries }

/-- How preparing a function may go on. -/
inductive Prepared (t : Tree) (n : NodeId) (st : Progress) : Progress → Prop where
  | lowered (l : LoweredFunction) (lowering : Lowering)
      (run : (lowerFunction t.toForest n).run.run (Lowering.start st.store) = (.ok l, lowering)) :
      Prepared t n st
        { st.afterLowering lowering with lowered := st.lowered.insert n l }
  | failed (e : LowerError) (lowering : Lowering) (r : Report)
      (run : (lowerFunction t.toForest n).run.run (Lowering.start st.store) = (.error e, lowering))
      (reported : loweringReport t e = .ok r) :
      Prepared t n st
        { st.afterLowering lowering with
          reports := st.reports ++ [r]
          failed := OrderedSet.addAll st.failed [n] }

theorem Prepared.harmless (hstep : Prepared t n st st') (h : st.Harmless) : st'.Harmless := by
  cases hstep with
  | lowered l lowering hrun => exact h
  | failed e lowering r hrun hreport =>
    obtain ⟨points, message, -, rfl⟩ := of_loweringReport hreport
    exact h.append (by simp)

/-- Preparing a function goes on in one of two ways or stops with a crash that is not reported yet.
-/
theorem prepare_lands (t : Tree) (n : NodeId) (st : Progress) :
    Lands (prepare t n) st (fun _ st' => Prepared t n st st') fun crash st' =>
      st'.reports = st.reports ∧ ∃ e lowering,
        (lowerFunction t.toForest n).run.run (Lowering.start st.store) = (.error e, lowering) ∧
          loweringReport t e = .error crash := by
  unfold prepare
  simp only [lands_bind, lands_get]
  rcases hrun : (lowerFunction t.toForest n).run.run (Lowering.start st.store) with
    ⟨e | l, lowering⟩
  · cases hreport : loweringReport t e with
    | ok r =>
      simp only [reportOrCrash, hreport, report, fail, lands_bind, lands_set, lands_modify]
      exact .failed e lowering r hrun hreport
    | error crash =>
      simp only [reportOrCrash, hreport, lands_bind, lands_set, lands_throw]
      exact ⟨trivial, e, lowering, rfl, hreport⟩
  · simp only [lands_bind, lands_set, lands_modify]
    exact .lowered l lowering hrun

def Progress.members (st : Progress) (group : List NodeId) : List (NodeId × LoweredFunction) :=
  group.filterMap fun n => (st.lowered.get? n).map fun l => (n, l)

def Progress.afterTyping (st : Progress) (after : Inference.State) : Progress :=
  { st with store := { st.store with supply := after.supply } }

def Progress.adopted (st : Progress) (typed : TypedGroup) : Progress :=
  { st with
    base := OrderedMap.insertAll (st.base.substitute typed.solution)
      (typed.schemes.map fun p => (CoreVar.decl p.1, p.2))
    solved := typed.solution.compose st.solved
    found :=
      { declarations := st.found.declarations.insertAll typed.schemes
        expressions := st.found.expressions.insertAll typed.judgements } }

/-- How checking a group may go on. -/
inductive Checked (fuel : Nat) (t : Tree) (functions group : List NodeId) (st : Progress) :
    Progress → Prop where
  | skipped (d : NodeId)
      (dependency : failedDependency t.toForest functions group st.failed = some d) :
      Checked fuel t functions group st
        { st with
          reports := st.reports ++ group.map (skippedReport t d)
          failed := OrderedSet.addAll st.failed group }
  | spoiled (independent : failedDependency t.toForest functions group st.failed = none)
      (member : group.any st.failed.contains = true) :
      Checked fuel t functions group st { st with failed := OrderedSet.addAll st.failed group }
  | typed (independent : failedDependency t.toForest functions group st.failed = none)
      (sound : group.any st.failed.contains = false) (types : TypedGroup) (after : Inference.State)
      (run : (inferGroup fuel st.base (st.members group)).run
        (Inference.State.start st.store.supply) = some (.ok types, after)) :
      Checked fuel t functions group st ((st.afterTyping after).adopted types)
  | failed (independent : failedDependency t.toForest functions group st.failed = none)
      (sound : group.any st.failed.contains = false) (e : Located InferError)
      (after : Inference.State) (r : Report)
      (run : (inferGroup fuel st.base (st.members group)).run
        (Inference.State.start st.store.supply) = some (.error e, after))
      (reported : inferenceReport t e = .ok r) :
      Checked fuel t functions group st
        { st.afterTyping after with
          reports := st.reports ++ [r]
          failed := OrderedSet.addAll st.failed group }

theorem reportAll_lands {α : Type} (xs : List α) (f : α → Report) (st : Progress) :
    Lands (xs.forM fun x => report (f x)) st
      (fun _ st' => st' = { st with reports := st.reports ++ xs.map f }) fun _ _ => False := by
  have hstart : st = { st with reports := st.reports ++ ([] : List α).map f } := by simp
  refine lands_forM (fun done (st' : Progress) =>
    st' = { st with reports := st.reports ++ done.map f }) hstart ?_
  rintro done x rest - _ rfl
  simp [report]

/-- No way of checking a group reports a crash. -/
theorem Checked.harmless (hstep : Checked fuel t functions group st st') (h : st.Harmless) :
    st'.Harmless := by
  cases hstep with
  | skipped d hdep =>
    refine h.append fun r hr => ?_
    obtain ⟨n, -, rfl⟩ := List.mem_map.1 hr
    simp [skippedReport, Report.of, Message.severity]
  | spoiled hdep hany => exact h
  | typed hdep hsound types after hrun => exact h
  | failed hdep hsound e after r hrun hreport =>
    obtain ⟨message, -, rfl⟩ := of_inferenceReport hreport
    exact h.append (by simp)

/-- Checking a group goes on in one of four ways or stops with a crash that is not reported yet. -/
theorem checkGroup_lands (fuel : Nat) (t : Tree) (functions group : List NodeId) (st : Progress) :
    Lands (checkGroup fuel t functions group) st
      (fun _ st' => Checked fuel t functions group st st') fun crash st' =>
        st'.reports = st.reports ∧ ∃ e after,
          failedDependency t.toForest functions group st.failed = none ∧
          group.any st.failed.contains = false ∧
          (inferGroup fuel st.base (st.members group)).run
            (Inference.State.start st.store.supply) = some (.error e, after) ∧
          inferenceReport t e = .error crash := by
  unfold checkGroup
  simp only [lands_bind, lands_get]
  cases hdep : failedDependency t.toForest functions group st.failed with
  | some d =>
    simp only [lands_bind, fail, lands_modify]
    refine (reportAll_lands group (skippedReport t d) st).imp ?_ fun _ _ h => h.elim
    rintro _ _ rfl
    exact .skipped d hdep
  | none =>
    cases hany : group.any st.failed.contains with
    | true =>
      simp only [if_true, fail, lands_modify]
      exact .spoiled hdep hany
    | false =>
      simp only [Bool.false_eq_true, if_false, typeGroup, lands_bind, lands_get]
      rcases hrun : (inferGroup fuel st.base (group.filterMap fun n =>
          (st.lowered.get? n).map fun l => (n, l))).run
          (Inference.State.start st.store.supply) with _ | ⟨e | types, after⟩
      · rintro _ ⟨⟩
      · cases hreport : inferenceReport t e with
        | ok r =>
          simp only [lands_bind, lands_set, reportOrCrash, hreport, report, fail, lands_modify]
          exact .failed hdep hany e after r hrun hreport
        | error crash =>
          simp only [lands_bind, lands_set, reportOrCrash, hreport, lands_throw]
          exact ⟨trivial, e, after, trivial, trivial, hrun, hreport⟩
      · simp only [lands_bind, lands_set, adopt, lands_modify]
        exact .typed hdep hany types after hrun

section Runs

variable {supply : Supply} {listing : List (List NodeId)} {bad : Report → Progress → Prop}

def PreparesTo (t : Tree) (supply : Supply) (functions : List NodeId) (st : Progress) : Prop :=
  (functions.forM (prepare t)).run (Progress.start supply) = some (.ok ⟨⟩, st)

/-- Preparing all functions and checking some groups in turn comes to a progress. -/
def ChecksTo (fuel : Nat) (t : Tree) (supply : Supply) (listing : List (List NodeId))
    (st : Progress) : Prop :=
  (checkListed fuel t listing).run (Progress.start supply) = some (.ok (), st)

/-- What holds after all groups of a listing have been checked: the invariant of the first loop
turns into that of the second, and each step may use how the run came to it. -/
theorem checkListed_lands (ready : List NodeId → Progress → Prop)
    (inv : List (List NodeId) → Progress → Prop) (start : ready [] (Progress.start supply))
    (prepares : ∀ done n rest, topLevelFunctions t = done ++ n :: rest → ∀ st,
      PreparesTo t supply done st → ready done st →
      Lands (prepare t n) st (fun _ st' => ready (done ++ [n]) st') bad)
    (turn : ∀ st, ready (topLevelFunctions t) st → inv [] st)
    (checks : ∀ done g rest, listing = done ++ g :: rest → ∀ st,
      ChecksTo fuel t supply done st → inv done st →
      Lands (checkGroup fuel t (topLevelFunctions t) g) st
        (fun _ st' => inv (done ++ [g]) st') bad) :
    Lands (checkListed fuel t listing) (Progress.start supply) (fun _ st => inv listing st)
      bad := by
  rw [checkListed, lands_bind]
  refine (lands_forM_run ready start prepares).imp_ok fun _ st hst => ?_
  obtain ⟨hprepared, hready⟩ := hst
  refine Lands.imp_ok (lands_forM_run inv (turn st hready) ?_) fun _ st' hend => hend.2
  intro done g rest hlisting st' hrun hinv
  exact checks done g rest hlisting st' ((run_bind_of_ok hprepared).trans hrun) hinv

/-- A unit that does not crash ends with its progress, and reports what is settled then. -/
theorem exists_run_of_ok {check : Check Unit} {outcome : DeclarationOutcome}
    {types : DeclarationTypes} (h : outcomeOf check supply = some outcome)
    (hok : outcome.result = .ok types) :
    ∃ st, check.run (Progress.start supply) = some (.ok (), st) ∧ outcome.reports = st.reports ∧
      types = settle st.solved st.found := by
  obtain ⟨⟨result, st⟩, hrun, hout⟩ := Option.bind_eq_some_iff.1 h
  obtain rfl : _ = outcome := Option.some.inj hout
  cases result with
  | error crash => cases hok
  | ok u => exact ⟨st, hrun, rfl, (Except.ok.inj hok).symm⟩

/-- A progress at the end of a run that passes a test, with what is reported then. -/
theorem exists_outcome_of_run (fuel : Nat) (t : Tree) (supply : Supply) (test : Progress → Bool)
    (h : (((checkAll fuel t).run (Progress.start supply)).any fun last =>
      last.1.toOption.isSome && test last.2) = true) :
    ∃ st outcome, (checkAll fuel t).run (Progress.start supply) = some (.ok (), st) ∧
      inferDeclarations fuel t supply = some outcome ∧
      outcome.result = .ok (settle st.solved st.found) ∧ test st = true := by
  obtain ⟨⟨result, st⟩, hrun, hend⟩ := (Option.any_eq_true _ _).1 h
  obtain ⟨hresult, htest⟩ := Bool.and_eq_true_iff.1 hend
  cases result with
  | error crash => cases hresult
  | ok u =>
    exact ⟨st, _, hrun, Option.bind_eq_some_iff.2 ⟨_, hrun, rfl⟩, rfl, htest⟩

end Runs

section Members

/-- If all functions of a group have been lowered then all of them are typed. -/
theorem map_fst_members (h : ∀ n ∈ group, st.lowered.contains n = true) :
    (st.members group).map (·.1) = group := by
  induction group with
  | nil => rfl
  | cons n rest ih =>
    obtain ⟨l, hl⟩ := OrderedMap.contains_iff.1 (h n (List.mem_cons_self ..))
    have hrest := ih fun m hm => h m (List.mem_cons_of_mem n hm)
    simpa [Progress.members, hl] using hrest

theorem mem_members {l : LoweredFunction} :
    (n, l) ∈ st.members group ↔ n ∈ group ∧ st.lowered.get? n = some l := by
  simp only [Progress.members, List.mem_filterMap, Option.map_eq_some_iff, Prod.mk.injEq]
  constructor
  · rintro ⟨m, hm, l', hl, rfl, rfl⟩
    exact ⟨hm, hl⟩
  · rintro ⟨hn, hl⟩
    exact ⟨n, hn, l, hl, rfl, rfl⟩

/-- Typing a group gives a scheme to each of its members. -/
theorem map_fst_schemes {base : Context} {members : List (NodeId × LoweredFunction)}
    {start after : Inference.State} {types : TypedGroup}
    (h : (inferGroup fuel base members).run start = some (.ok types, after)) :
    types.schemes.map (·.1) = members.map (·.1) := by
  have hlands : Lands (inferGroup fuel base members) start
      (fun types _ => types.schemes.map (·.1) = members.map (·.1)) fun _ _ => True := by
    simp only [inferGroup, lands_bind, lands_get, lands_set, lands_pure]
    refine (lands_run _ _).imp (fun solution st₁ _ => ?_) fun _ _ _ => trivial
    simp only [List.map_map, freshList_eq, Function.comp_def]
    exact List.map_fst_zip (by simp)
  exact hlands.of_ok h

/-- An error that a group ends with is placed at one of its members. -/
theorem span_of_inferGroup {base : Context} {members : List (NodeId × LoweredFunction)}
    {start after : Inference.State} {e : Located InferError}
    (h : (inferGroup fuel base members).run start = some (.error e, after)) :
    ∃ p ∈ members, e.span = p.2.span := by
  have hmembers : ∀ (pairs : List (LoweredFunction × Ty)) assumed solution st,
      Lands (inferMembers fuel assumed solution pairs) st (fun _ _ => True)
        fun e _ => ∃ p ∈ pairs, e.span = p.1.span := by
    intro pairs assumed
    induction pairs with
    | nil => simp [inferMembers]
    | cons p rest ih =>
      intro solution st
      simp only [inferMembers, lands_bind, lands_adapt]
      refine (lands_run _ st).imp (fun next st' _ => ?_) fun e st' _ => ⟨p, by simp, rfl⟩
      refine (ih next st').imp (fun _ _ _ => trivial) fun e _ he => ?_
      obtain ⟨q, hq, hspan⟩ := he
      exact ⟨q, List.mem_cons_of_mem p hq, hspan⟩
  have hlands : Lands (inferGroup fuel base members) start (fun _ _ => True)
      fun e _ => ∃ p ∈ members, e.span = p.2.span := by
    simp only [inferGroup, lands_bind, lands_get, lands_set, lands_pure]
    refine (hmembers _ _ _ _).imp (fun _ _ _ => trivial) fun e _ he => ?_
    obtain ⟨p, hp, hspan⟩ := he
    obtain ⟨q, hq, hqp⟩ := List.mem_map.1 (List.of_mem_zip hp).1
    exact ⟨q, hq, hqp ▸ hspan⟩
  exact hlands.of_error h

end Members

end SemanticAnalysis.Declarations
