import Mathlib.Data.List.Basic
import SemanticAnalysis.Session.Pipeline

/-!
How a pipeline runs. A pass is barred or runs on the unit that the passes before
it left, and runs only if all passes that it needs have succeeded. Passes come
after those they need, so what each of them preserves holds at the end.
-/

namespace SemanticAnalysis

namespace Collector

variable {c : Collector} {r : Report}

theorem severity_grade_eq_crash : (c.grade r).severity = .crash ↔ r.severity = .crash := by
  unfold grade
  split
  · rename_i h
    simp only [Bool.and_eq_true, decide_eq_true_eq] at h
    simp [h.2]
  · rfl

/-- A crash is kept as it is. -/
theorem grade_of_crash (h : r.severity = .crash) : c.grade r = r := by
  simp [grade, h]

/-- A report that fails its pass still does as it is kept. -/
theorem isFailure_grade (h : r.isFailure = true) : (c.grade r).isFailure = true := by
  unfold grade
  split
  · rfl
  · exact h

theorem reports_collectAll (c : Collector) (rs : List Report) :
    (c.collectAll rs).reports = c.reports ++ rs.map c.grade := by
  induction rs generalizing c with
  | nil => simp [collectAll]
  | cons r rest ih =>
    have hcons : c.collectAll (r :: rest) = (c.collect r).collectAll rest := rfl
    have hgrade : (c.collect r).grade = c.grade := rfl
    rw [hcons, ih, hgrade]
    simp [collect]

theorem harmless_collectAll {rs : List Report} (hc : ∀ r ∈ c.reports, r.severity ≠ .crash)
    (hrs : ∀ r ∈ rs, r.severity ≠ .crash) :
    ∀ r ∈ (c.collectAll rs).reports, r.severity ≠ .crash := by
  intro r hr
  rw [reports_collectAll] at hr
  rcases List.mem_append.1 hr with hr | hr
  · exact hc r hr
  · obtain ⟨r, hmem, rfl⟩ := List.mem_map.1 hr
    exact mt severity_grade_eq_crash.1 (hrs r hmem)

end Collector

namespace Session.Pipeline

variable {fuel : Nat} {config : Config} {r r' : Run} {p d : Pass}

/-- A pass that succeeded made no report that is a failure. -/
theorem not_isFailure_of_succeeded {c : Collector} {rs : List Report}
    (h : PassStatus.succeeded =
      if (rs.map c.grade).any Report.isFailure then .failed else .succeeded) :
    ∀ r ∈ rs, r.isFailure = false := by
  intro r hr
  rw [← Bool.not_eq_true]
  intro hfailure
  have hany : (rs.map c.grade).any Report.isFailure = true :=
    List.any_eq_true.2 ⟨_, List.mem_map_of_mem hr, Collector.isFailure_grade hfailure⟩
  simp [hany] at h

/-- How a run may go on with a pass. -/
inductive Stepped (fuel : Nat) (config : Config) (r : Run) (p : Pass) : Run → Prop where
  | barred (status : PassStatus) (held : bar config r p = some status) :
      Stepped fuel config r p { r with statuses := r.statuses ++ [(p, status)] }
  | ran (free : bar config r p = none) (result : PassResult)
      (run : runPass fuel r.unit p = some result) :
      Stepped fuel config r p
        { unit := result.unit
          collector := r.collector.collectAll result.reports
          statuses := r.statuses ++ [(p, if (result.reports.map r.collector.grade).any
            Report.isFailure then .failed else .succeeded)]
          isAborted := (result.reports.map r.collector.grade).any fun report =>
            report.severity = .crash }

/-- A pass is barred, or runs and is judged by the reports it adds. -/
theorem step_cases (h : step fuel config r p = some r') : Stepped fuel config r p r' := by
  unfold step at h
  cases hbar : bar config r p with
  | some status =>
    simp only [hbar, Option.some.injEq] at h
    subst h
    exact .barred status hbar
  | none =>
    simp only [hbar] at h
    obtain ⟨result, hrun, hr⟩ := Option.bind_eq_some_iff.1 h
    have hfresh : (r.collector.collectAll result.reports).reports.drop r.collector.size =
        result.reports.map r.collector.grade := by
      rw [Collector.reports_collectAll]
      exact List.drop_left
    simp only [hfresh, Option.pure_def, Option.some.injEq] at hr
    subst hr
    exact .ran hbar result hrun

/-- What may bar a pass: a crash before it, or a pass that it needs. -/
theorem bar_cases {status : PassStatus} (h : bar config r p = some status) :
    (status = .aborted ∧ r.isAborted = true) ∨ status = .disabled ∨ status = .skipped := by
  simp only [bar] at h
  split at h
  · rename_i haborted
    cases h
    exact Or.inl ⟨rfl, haborted⟩
  · split at h
    · cases h
      exact Or.inr (Or.inl rfl)
    · split at h
      · cases h
        exact Or.inr (Or.inr rfl)
      · cases h

/-- A pass runs only if the passes it needs have succeeded. -/
theorem needed_of_bar (h : bar config r p = none) (hd : d ∈ p.dependencies)
    (hran : d ∈ r.statuses.map (·.1)) : r.statuses.lookup d = some .succeeded := by
  have hall : ∀ s ∈ neededStatuses r p, s = .succeeded := by
    simp only [bar] at h
    split at h
    · cases h
    · split at h
      · cases h
      · split at h
        · cases h
        · rename_i hany
          simpa using hany
  obtain ⟨q, hq, rfl⟩ := List.mem_map.1 hran
  obtain ⟨s, hs⟩ : ∃ s, r.statuses.lookup q.1 = some s := by
    rw [← Option.isSome_iff_exists, List.lookup_isSome_iff]
    exact ⟨q, hq, by simp⟩
  rw [hs, hall s (List.mem_filterMap.2 ⟨q.1, hd, hs⟩)]

/-- How a pass ended that ran last or before. -/
theorem lookup_append_status {statuses : List (Pass × PassStatus)} {status s : PassStatus}
    (h : (statuses ++ [(p, status)]).lookup d = some s) :
    statuses.lookup d = some s ∨ (d = p ∧ s = status) := by
  rw [List.lookup_append, Option.or_eq_some_iff] at h
  refine h.imp_right fun h => ?_
  obtain ⟨-, h⟩ := h
  simp only [List.lookup_cons, List.lookup_nil] at h
  split at h
  · rename_i heq
    exact ⟨by simpa using heq, (Option.some.inj h).symm⟩
  · cases h

def start (config : Config) (u : CompilationUnit) : Run :=
  ⟨u, Collector.start config.warningsAsErrors, [], false⟩

def runPasses (fuel : Nat) (config : Config) (u : CompilationUnit) (passes : List Pass) :
    Option Run :=
  passes.foldlM (step fuel config) (start config u)

structure Reaches (fuel : Nat) (pipeline : Pipeline) (u : CompilationUnit) (p : Pass) (r : Run) :
    Prop where
  before : ∃ done rest, pipeline.order = done ++ p :: rest ∧
    runPasses fuel pipeline.config u done = some r
  free : bar pipeline.config r p = none

/-- What every pass preserves holds after some passes. -/
theorem runPasses_induction {inv : List Pass → Run → Prop} {u : CompilationUnit}
    {passes : List Pass} (h : runPasses fuel config u passes = some r)
    (first : inv [] (start config u))
    (next : ∀ done p rest, passes = done ++ p :: rest → ∀ r r', inv done r →
      Stepped fuel config r p r' → inv (done ++ [p]) r') : inv passes r := by
  have hloop : ∀ rest done r r', passes = done ++ rest → inv done r →
      rest.foldlM (step fuel config) r = some r' → inv passes r' := by
    intro rest
    induction rest with
    | nil =>
      intro done r r' hpasses hinv hrun
      cases hrun
      simpa [hpasses] using hinv
    | cons p rest ih =>
      intro done r r' hpasses hinv hrun
      rw [List.foldlM_cons] at hrun
      obtain ⟨r₁, hstep, hrun⟩ := Option.bind_eq_some_iff.1 hrun
      exact ih (done ++ [p]) r₁ r' (by simp [hpasses])
        (next done p rest hpasses r r₁ hinv (step_cases hstep)) hrun
  exact hloop passes [] _ r rfl first h

/-- What every pass preserves holds at the end of a run. -/
theorem run_induction {inv : List Pass → Run → Prop} {pipeline : Pipeline} {u : CompilationUnit}
    {outcome : UnitOutcome} {u' : CompilationUnit}
    (h : pipeline.run fuel u = some (outcome, u'))
    (first : inv [] (start pipeline.config u))
    (next : ∀ done p rest, pipeline.order = done ++ p :: rest → ∀ r r', inv done r →
      Stepped fuel pipeline.config r p r' → inv (done ++ [p]) r') :
    ∃ r, inv pipeline.order r ∧ outcome = ⟨r.statuses, r.collector.reports⟩ ∧ u' = r.unit := by
  obtain ⟨r, hrun, hout⟩ := Option.bind_eq_some_iff.1 h
  cases hout
  exact ⟨r, runPasses_induction hrun first next, rfl, rfl⟩

def passOrder : List Pass :=
  [.scopeTagging, .referenceResolution, .typeReferenceResolution, .moduleUniqueness,
    .objectUniqueness, .assignmentCheck, .typeInference]

/-- Every configuration has a pipeline, with the passes in their order. -/
theorem ofConfig_eq (config : Config) : ofConfig config = some (.ok ⟨passOrder, config⟩) := by
  have hany : Pass.order?.any (fun r => r.toOption = some passOrder) = true := by decide +kernel
  obtain ⟨r, hr, hlist⟩ := (Option.any_eq_true _ _).1 hany
  cases r with
  | error e => simp [Except.toOption] at hlist
  | ok order =>
    obtain rfl : order = passOrder := by simpa [Except.toOption] using hlist
    simp [ofConfig, hr]

/-- The passes that a pass needs come before it. -/
theorem passOrder_after {done rest : List Pass} (h : passOrder = done ++ p :: rest)
    (hd : d ∈ p.dependencies) : d ∈ done := by
  have hall : ∀ i < 7, ∀ p ∈ passOrder[i]?, ∀ d ∈ p.dependencies, d ∈ passOrder.take i := by
    decide
  have hlength : done.length < 7 := by
    have := congrArg List.length h
    simp only [passOrder, List.length_append, List.length_cons, List.length_nil] at this
    omega
  have hp : p ∈ passOrder[done.length]? := by simp [h]
  simpa [h] using hall done.length hlength p hp d hd

end Session.Pipeline

end SemanticAnalysis
