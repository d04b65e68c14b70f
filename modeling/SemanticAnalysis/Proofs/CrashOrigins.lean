import SemanticAnalysis.Proofs.CrashFreedom

/-!
Where crashes come from. Whatever the tree of a unit looks like, no pass before
type inference crashes: names are resolved only after scopes have been built, and
assignments are checked only after every value name that the walk comes to has
been resolved. Type inference comes last and stops at its first crash, so a crash
is the last report of a unit and aborts nothing.
-/

namespace SemanticAnalysis

namespace Declarations

/-- Typing the functions of any tree reports no crash before it ends or stops with one. -/
theorem checkListed_reports (fuel : Nat) (t : Tree) (listing : List (List NodeId))
    (supply : Supply) : Lands (checkListed fuel t listing) (Progress.start supply)
      (fun _ st => st.Harmless) fun _ st => st.Harmless := by
  refine checkListed_lands (fun _ => Progress.Harmless) (fun _ => Progress.Harmless)
    (by simp [Progress.Harmless, Progress.start]) ?_
    (fun _ h => h) ?_
  · intro done n rest _ st _ h
    refine (prepare_lands t n st).imp (fun _ _ hstep => hstep.harmless h) fun _ st' hstop => ?_
    rwa [Progress.Harmless, hstop.1]
  · intro done group rest _ st _ h
    refine (checkGroup_lands fuel t _ group st).imp (fun _ _ hstep => hstep.harmless h)
      fun _ st' hstop => ?_
    rwa [Progress.Harmless, hstop.1]

end Declarations

namespace Session

open Pipeline

variable {fuel : Nat} {config : Config} {u : CompilationUnit} {p : Pass} {result : PassResult}
  {done : List Pass} {r r' : Run}

/-- Type inference makes one crash report at most, its last one. -/
theorem inferencePass_reports (h : inferencePass fuel u = some result) :
    ∃ quiet last, result.reports = quiet ++ Option.toList last ∧
      ∀ r ∈ quiet, r.severity ≠ .crash := by
  obtain ⟨outcome, hout, hresult⟩ := Option.bind_eq_some_iff.1 h
  obtain ⟨⟨typed, st⟩, hrun, hst⟩ := Option.bind_eq_some_iff.1 hout
  obtain rfl : _ = outcome := Option.some.inj hst
  have hlands := Declarations.checkListed_reports fuel u.tree
    (Declarations.groups u.tree.toForest (Declarations.topLevelFunctions u.tree)) u.supply
  cases typed with
  | ok done =>
    cases hresult
    exact ⟨st.reports, none, by simp, hlands.of_ok hrun⟩
  | error crash =>
    cases hresult
    exact ⟨st.reports, some crash, rfl, hlands.of_error hrun⟩

structure PassOrderly (u : CompilationUnit) (p : Pass) (result : PassResult) : Prop where
  scopes : u.scopes = some (ScopeTree.build u.tree) ∨ p = .scopeTagging →
    result.unit.scopes = some (ScopeTree.build result.unit.tree)
  kept : u.tree.Cleared .values → result.unit.tree.Cleared .values
  clears : p = .referenceResolution → (∀ r ∈ result.reports, r.isFailure = false) →
    result.unit.tree.Cleared .values
  harmless : ∀ r ∈ result.reports, r.severity ≠ .crash

theorem passOrderly_of_reports
    (hp : p ∉ [.scopeTagging, .referenceResolution, .typeReferenceResolution])
    (hunit : result.unit = u) (hreports : ∀ r ∈ result.reports, r.severity ≠ .crash) :
    PassOrderly u p result where
  scopes hs := hunit ▸ hs.resolve_right fun heq => hp (by simp [heq])
  kept hc := hunit ▸ hc
  clears heq := absurd heq fun heq => hp (by simp [heq])
  harmless := hreports

/-- Resolving names keeps the scopes in step with the tree. -/
theorem resolvePass_orderly (hscopes : u.scopes = some (ScopeTree.build u.tree))
    (space : Namespace) : PassOrderly u (resolver space) (resolvePass space u) := by
  have hunit := resolvePass_unit hscopes space
  refine ⟨fun _ => ?_, fun hc => ?_, fun hp hreports => ?_, resolvePass_harmless hscopes space⟩
  · rw [hunit, ScopeTree.build_resolveAll]
    exact hscopes
  · rw [hunit]
    exact hc.resolveAll _
  · obtain rfl : space = .values := by cases space <;> simp_all [resolver]
    rw [hunit]
    exact Tree.cleared_resolveAll (exists_ok_of_resolvePass hscopes hreports)

structure Ready (u : CompilationUnit) (p : Pass) : Prop where
  scopes : ∀ space, p = resolver space → u.scopes = some (ScopeTree.build u.tree)
  cleared : p = .assignmentCheck → u.tree.Cleared .values

/-- A pass before type inference that finds what it needs does not crash. -/
theorem Ready.runPass (h : Ready u p) (hp : p ≠ .typeInference)
    (hrun : runPass fuel u p = some result) : PassOrderly u p result := by
  cases runPass_cases hrun with
  | tagged => exact ⟨fun _ => rfl, fun hc => hc, fun heq => absurd heq (by decide), by simp⟩
  | resolved space => exact resolvePass_orderly (h.scopes space rfl) space
  | checked hother hharmless => exact passOrderly_of_reports hother rfl (hharmless h.cleared)
  | inferred => exact absurd rfl hp

structure Orderly (done : List Pass) (r : Run) : Prop where
  ran : r.statuses.map (·.1) = done
  scopes : r.statuses.lookup .scopeTagging = some .succeeded →
    r.unit.scopes = some (ScopeTree.build r.unit.tree)
  cleared : r.statuses.lookup .referenceResolution = some .succeeded →
    r.unit.tree.Cleared .values
  harmless : ∀ report ∈ r.collector.reports, report.severity ≠ .crash
  going : r.isAborted = false
  unaborted : ∀ q ∈ r.statuses, q.2 ≠ .aborted

theorem Orderly.start (config : Config) (u : CompilationUnit) : Orderly [] (start config u) where
  ran := rfl
  scopes h := by cases h
  cleared h := by cases h
  harmless := by simp [Pipeline.start, Collector.start]
  going := rfl
  unaborted := by simp [Pipeline.start]

/-- A pass that is not barred finds what it needs. -/
theorem Orderly.ready (h : Orderly done r) (hdone : ∀ d ∈ p.dependencies, d ∈ done)
    (hfree : bar config r p = none) : Ready r.unit p := by
  have hneeds : ∀ d ∈ p.dependencies, r.statuses.lookup d = some .succeeded := fun d hd =>
    needed_of_bar hfree hd (by simpa [h.ran] using hdone d hd)
  refine ⟨fun space hp => h.scopes (hneeds _ ?_), fun hp => h.cleared (hneeds _ ?_)⟩
  · cases space <;> subst hp <;> decide
  · subst hp
    decide

/-- No pass is aborted in an orderly run. -/
theorem Orderly.unaborted_step (h : Orderly done r) (hstep : Stepped fuel config r p r') :
    ∀ q ∈ r'.statuses, q.2 ≠ .aborted := by
  have hlast : ∀ status, status ≠ .aborted → ∀ q ∈ r.statuses ++ [(p, status)], q.2 ≠ .aborted := by
    intro status hstatus q hq
    rcases List.mem_append.1 hq with hq | hq
    · exact h.unaborted q hq
    · rw [List.mem_singleton.1 hq]
      exact hstatus
  cases hstep with
  | barred status hheld =>
    refine hlast status ?_
    rcases bar_cases hheld with ⟨-, haborted⟩ | rfl | rfl
    · simp [h.going] at haborted
    · simp
    · simp
  | ran hfree result hrun =>
    refine hlast _ ?_
    split <;> simp

/-- Every pass before type inference keeps a run orderly. -/
theorem Orderly.step (h : Orderly done r) (hp : p ≠ .typeInference)
    (hdone : ∀ d ∈ p.dependencies, d ∈ done) (hstep : Stepped fuel config r p r') :
    Orderly (done ++ [p]) r' := by
  have hunaborted := h.unaborted_step hstep
  cases hstep with
  | barred status hheld =>
    have hold : ∀ {d}, (r.statuses ++ [(p, status)]).lookup d = some .succeeded →
        r.statuses.lookup d = some .succeeded := by
      intro d hlookup
      refine (lookup_append_status hlookup).resolve_right ?_
      rintro ⟨-, rfl⟩
      simpa using bar_cases hheld
    exact ⟨by simp [h.ran], fun hs => h.scopes (hold hs), fun hs => h.cleared (hold hs),
      h.harmless, h.going, hunaborted⟩
  | ran hfree result hrun =>
    have hpass := (h.ready hdone hfree).runPass hp hrun
    refine ⟨by simp [h.ran], fun hs => hpass.scopes ?_, fun hs => ?_,
      Collector.harmless_collectAll h.harmless hpass.harmless, ?_, hunaborted⟩
    · exact (lookup_append_status hs).imp h.scopes fun heq => heq.1.symm
    · rcases lookup_append_status hs with hs | ⟨heq, hstatus⟩
      · exact hpass.kept (h.cleared hs)
      · exact hpass.clears heq.symm (not_isFailure_of_succeeded hstatus)
    · simpa [Collector.severity_grade_eq_crash] using hpass.harmless

def earlierPasses : List Pass := passOrder.dropLast

theorem passOrder_eq : passOrder = earlierPasses ++ [.typeInference] := rfl

/-- A run that has not come to type inference is orderly. -/
theorem orderly_of_runPasses {rest : List Pass} (horder : passOrder = done ++ p :: rest)
    (h : runPasses fuel config u done = some r) : Orderly done r := by
  have hearlier : earlierPasses = done ++ (p :: rest).dropLast := by
    rw [earlierPasses, horder, List.dropLast_append_cons]
  refine runPasses_induction h (Orderly.start config u) ?_
  rintro before q after rfl r r' hr hstep
  refine hr.step ?_ ?_ hstep
  · rintro rfl
    have hmem : Pass.typeInference ∈ earlierPasses := by simp [hearlier]
    exact absurd hmem (by decide)
  · have hplace : passOrder = before ++ q :: (after ++ p :: rest) := by simpa using horder
    exact fun d hd => passOrder_after hplace hd

theorem Pipeline.Reaches.ready (h : Reaches fuel ⟨passOrder, config⟩ u p r) : Ready r.unit p := by
  obtain ⟨done, rest, horder, hrun⟩ := h.before
  exact (orderly_of_runPasses horder hrun).ready (fun d hd => passOrder_after horder hd) h.free

/-- The last step of a whole run is that of type inference. -/
theorem exists_last_step {outcome : UnitOutcome} {u' : CompilationUnit}
    (h : (⟨passOrder, config⟩ : Pipeline).run fuel u = some (outcome, u')) :
    ∃ r r', runPasses fuel config u earlierPasses = some r ∧
      Stepped fuel config r .typeInference r' ∧ outcome = ⟨r'.statuses, r'.collector.reports⟩ := by
  obtain ⟨r', hrun, hout⟩ := Option.bind_eq_some_iff.1 h
  cases hout
  rw [passOrder_eq, List.foldlM_append] at hrun
  obtain ⟨r, hr, hlast⟩ := Option.bind_eq_some_iff.1 hrun
  have hstep : Pipeline.step fuel config r .typeInference = some r' := by simpa using hlast
  exact ⟨r, r', hr, step_cases hstep, rfl⟩

/-- Only the end of a list can be a crash if what stands before it is none. -/
theorem eq_of_crash {quiet before after : List Report} {last : Option Report} {report : Report}
    (hquiet : ∀ r ∈ quiet, r.severity ≠ .crash)
    (h : quiet ++ last.toList = before ++ report :: after) (hcrash : report.severity = .crash) :
    before = quiet ∧ last = some report ∧ after = [] := by
  rcases List.append_eq_append_iff.1 h with ⟨front, rfl, hfront⟩ | ⟨back, rfl, hback⟩
  · cases last with
    | none => simp at hfront
    | some r =>
      cases front with
      | nil =>
        obtain ⟨rfl, rfl⟩ : report = r ∧ after = [] := by simpa [eq_comm] using hfront
        exact ⟨by simp, rfl, rfl⟩
      | cons r' front => simp at hfront
  · cases back with
    | nil =>
      cases last with
      | none => simp at hback
      | some r =>
        obtain ⟨rfl, rfl⟩ : report = r ∧ after = [] := by simpa using hback
        exact ⟨by simp, rfl, rfl⟩
    | cons r back =>
      obtain ⟨rfl, -⟩ : report = r ∧ _ := by simpa using hback
      exact absurd hcrash (hquiet report (by simp))

/-- A crash in an orderly run that comes to type inference is its last report, and one that type
inference made. -/
theorem Orderly.crash_of_inference (h : Orderly done r)
    (hstep : Stepped fuel config r .typeInference r') {before after : List Report} {report : Report}
    (hsplit : r'.collector.reports = before ++ report :: after)
    (hcrash : report.severity = .crash) :
    after = [] ∧ (∀ q ∈ before, q.severity ≠ .crash) ∧ bar config r .typeInference = none ∧
      ∃ result, runPass fuel r.unit .typeInference = some result ∧ report ∈ result.reports := by
  cases hstep with
  | barred status hheld =>
    have hreports : r.collector.reports = before ++ report :: after := hsplit
    exact absurd hcrash (h.harmless report (by simp [hreports]))
  | ran hfree result hrun =>
    obtain ⟨quiet, last, hreports, hquiet⟩ := inferencePass_reports hrun
    have hharmless := Collector.harmless_collectAll h.harmless hquiet
    have hgraded : (r.collector.collectAll quiet).reports ++
        (last.map r.collector.grade).toList = before ++ report :: after := by
      rw [← hsplit, Collector.reports_collectAll, Collector.reports_collectAll, hreports]
      cases last <;> simp
    obtain ⟨rfl, hlast, rfl⟩ := eq_of_crash hharmless hgraded hcrash
    obtain ⟨crash, rfl, rfl⟩ := Option.map_eq_some_iff.1 hlast
    refine ⟨rfl, hharmless, hfree, result, hrun, ?_⟩
    rw [Collector.grade_of_crash (Collector.severity_grade_eq_crash.1 hcrash), hreports]
    simp

/-- Every configuration has a pipeline. Over any unit it resolves names only with the scopes of the
tree at hand, checks assignments only when none of their targets is an open name, and no pass but
type inference makes a crash report. When it ends, no pass has been aborted, and a crash is the last
report and the only one, made by type inference. -/
theorem only_inference_crashes (config : Config) :
    ∃ pipeline, Pipeline.ofConfig config = some (.ok pipeline) ∧ ∀ fuel u,
      (∀ p r, pipeline.Reaches fuel u p r →
        (∀ space, p = resolver space → r.unit.scopes = some (ScopeTree.build r.unit.tree)) ∧
        (p = .assignmentCheck → ∀ n ∈ r.unit.tree.walk, ∀ target value,
          r.unit.tree.kind? n = some (.assign target value) →
          ∀ reference, r.unit.tree.kind? target ≠ some (.reference reference)) ∧
        ∀ result, runPass fuel r.unit p = some result → ∀ report ∈ result.reports,
          report.severity = .crash → p = .typeInference) ∧
      ∀ outcome u', pipeline.run fuel u = some (outcome, u') →
        (∀ q ∈ outcome.statuses, q.2 ≠ .aborted) ∧
        ∀ before report after, outcome.reports = before ++ report :: after →
          report.severity = .crash → after = [] ∧ (∀ r ∈ before, r.severity ≠ .crash) ∧
          ∃ r result, pipeline.Reaches fuel u .typeInference r ∧
            runPass fuel r.unit .typeInference = some result ∧ report ∈ result.reports := by
  refine ⟨_, Pipeline.ofConfig_eq config, fun fuel u => ⟨fun p r hreach => ?_, ?_⟩⟩
  · have hready := hreach.ready
    refine ⟨hready.scopes, ?_, ?_⟩
    · intro hp n hn target value hk reference htarget
      have hnone := (hready.cleared hp).assign_target hn hk _ htarget
      simp [Kind.pending?] at hnone
    · intro result hrun report hreport hcrash
      by_contra hp
      exact (hready.runPass hp hrun).harmless report hreport hcrash
  · intro outcome u' hrun
    obtain ⟨r, r', hearlier, hstep, rfl⟩ := exists_last_step hrun
    have horderly : Orderly earlierPasses r := orderly_of_runPasses passOrder_eq hearlier
    refine ⟨horderly.unaborted_step hstep, fun before report after hsplit hcrash => ?_⟩
    obtain ⟨hafter, hbefore, hfree, result, hpass, hmade⟩ :=
      horderly.crash_of_inference hstep hsplit hcrash
    exact ⟨hafter, hbefore, r, result, ⟨⟨earlierPasses, [], passOrder_eq, hearlier⟩, hfree⟩,
      hpass, hmade⟩

/-- A function with a parameter for its body. -/
def bodilessUnit : Tree := Tree.ofKinds [
  .parameter ⟨1⟩ none, .function ⟨2⟩ [] none ⟨0⟩, .moduleDecl ⟨3⟩ false [⟨1⟩], .file [⟨2⟩]]

theorem only_inference_crashes_bodiless : ∃ pipeline outcome unit before report,
    Pipeline.ofConfig Config.default = some (.ok pipeline) ∧
    pipeline.run 9 (CompilationUnit.ofTree bodilessUnit) = some (outcome, unit) ∧
    outcome.reports = before ++ [report] ∧ before ≠ [] ∧ report.severity = .crash ∧
    (∀ r ∈ before, r.severity ≠ .crash) ∧ ∀ q ∈ outcome.statuses, q.2 ≠ .aborted := by
  obtain ⟨pipeline, hpipeline, hsafe⟩ := only_inference_crashes Config.default
  obtain rfl : ⟨passOrder, Config.default⟩ = pipeline := by
    simpa [Pipeline.ofConfig_eq] using hpipeline
  have hrun : (((⟨passOrder, Config.default⟩ : Pipeline).run 9
      (CompilationUnit.ofTree bodilessUnit)).any fun p =>
        p.1.reports.map (·.severity) = [.warning, .crash]) = true := by decide +kernel
  obtain ⟨⟨outcome, unit⟩, hrun, hreports⟩ := (Option.any_eq_true _ _).1 hrun
  have hmap : outcome.reports.map (·.severity) = [.warning, .crash] := by simpa using hreports
  obtain ⟨warning, rest, hsplit, -, hrest⟩ := List.map_eq_cons_iff.1 hmap
  obtain ⟨crash, tail, rfl, hcrash, htail⟩ := List.map_eq_cons_iff.1 hrest
  obtain rfl := List.map_eq_nil_iff.1 htail
  obtain ⟨hstatuses, hlast⟩ := (hsafe 9 (CompilationUnit.ofTree bodilessUnit)).2 outcome unit hrun
  obtain ⟨-, hbefore, -⟩ := hlast [warning] crash [] hsplit hcrash
  exact ⟨_, outcome, unit, [warning], crash, hpipeline, hrun, hsplit, by simp, hcrash, hbefore,
    hstatuses⟩

end Session

end SemanticAnalysis
