import SemanticAnalysis.Proofs.ClosedContexts
import SemanticAnalysis.Proofs.IndependentResolution
import SemanticAnalysis.Proofs.PipelineRuns

/-!
Pipelines do not crash. Over a well-formed tree no pass reports a crash: the
resolvers find the scopes of the tree, assignments are checked only when every
value name has been resolved, and types are inferred only over a linked tree.
-/

namespace SemanticAnalysis

open Declarations

section Checks

variable {t : Tree}

theorem Checks.duplicates_harmless {message : String → Message}
    (hm : ∀ name, (message name).severity ≠ .crash) (declarations : List NodeId) :
    ∀ r ∈ duplicates t message declarations, r.severity ≠ .crash := by
  intro r hr
  obtain ⟨g, -, rfl⟩ := List.mem_map.1 hr
  exact hm _

/-- Reports on modules are errors and warnings. -/
theorem Checks.moduleUniqueness_harmless (t : Tree) :
    ∀ r ∈ moduleUniqueness t, r.severity ≠ .crash := by
  unfold moduleUniqueness
  split
  · intro r hr
    rcases List.mem_append.1 hr with hr | hr
    · exact duplicates_harmless (fun _ => by simp [Message.severity]) _ r hr
    · split at hr
      · split at hr
        · rw [List.mem_singleton.1 hr]
          simp [Report.of, Message.severity]
        · simp at hr
      · simp at hr
  · simp

/-- Reports on declarations of one name are errors. -/
theorem Checks.objectUniqueness_harmless (t : Tree) :
    ∀ r ∈ objectUniqueness t, r.severity ≠ .crash := by
  have hsame : ∀ declarations, ∀ r ∈ duplicates t .duplicated declarations,
      r.severity ≠ .crash := duplicates_harmless fun _ => by simp [Message.severity]
  have hvariables : ∀ declarations, ∀ r ∈ duplicates t .duplicatedVariable declarations,
      r.severity ≠ .crash := duplicates_harmless fun _ => by simp [Message.severity]
  have hin : ∀ kind, ∀ r ∈ duplicatesIn t kind, r.severity ≠ .crash := by
    intro kind r hr
    unfold duplicatesIn at hr
    rcases List.mem_append.1 hr with hr | hr
    · split at hr
      · exact hsame _ r hr
      · exact hsame _ r hr
      · exact hsame _ r hr
      · exact hsame _ r hr
      · exact (List.mem_append.1 hr).elim (hsame _ r) (hvariables _ r)
      · simp at hr
    · cases hparams : kind.params? with
      | none => simp [hparams] at hr
      | some params => exact hsame params r (by simpa [hparams] using hr)
  intro r hr
  obtain ⟨n, -, hr⟩ := List.mem_flatMap.1 hr
  cases hk : t.kind? n with
  | none => simp [hk] at hr
  | some kind => exact hin kind r (by simpa [hk] using hr)

/-- An assignment to something that is no open value name does not crash the check. -/
theorem Checks.assignmentTo_harmless {target : NodeId}
    (h : ∀ k, t.kind? target = some k → k.pending? .values = none) :
    ∃ report, assignmentTo t target = .ok report ∧ ∀ r ∈ report, r.severity ≠ .crash := by
  unfold assignmentTo
  split
  · split
    · exact ⟨none, rfl, by simp⟩
    · exact ⟨_, rfl, by simp [Report.of, Message.severity]⟩
    · exact ⟨_, rfl, by simp [Report.of, Message.severity]⟩
  · rename_i reference hk
    simpa [Kind.pending?] using h _ hk
  · exact ⟨_, rfl, by simp [Report.of, Message.severity]⟩

/-- Once every value name of the walk is resolved no assignment crashes the check. -/
theorem Checks.assignmentCheck_harmless (ht : t.Cleared .values) :
    (assignmentCheck t).2 = none ∧ ∀ r ∈ (assignmentCheck t).1, r.severity ≠ .crash := by
  have hamong : ∀ nodes, (∀ n ∈ nodes, n ∈ t.walk) → (assignmentsAmong t nodes).2 = none ∧
      ∀ r ∈ (assignmentsAmong t nodes).1, r.severity ≠ .crash := by
    intro nodes hnodes
    induction nodes with
    | nil => simp [assignmentsAmong]
    | cons n rest ih =>
      have ih := ih fun m hm => hnodes m (List.mem_cons_of_mem n hm)
      unfold assignmentsAmong
      split
      · rename_i target value hk
        have htarget := ht.assign_target (hnodes n (List.mem_cons_self ..)) hk
        obtain ⟨report, hreport, hharmless⟩ := assignmentTo_harmless htarget
        simp only [hreport]
        refine ⟨ih.1, fun r hr => ?_⟩
        rcases List.mem_append.1 hr with hr | hr
        · exact hharmless r (by simpa using hr)
        · exact ih.2 r hr
      · exact ih
  exact hamong t.walk fun _ hn => hn

end Checks

namespace Session

variable {t : Tree} {fuel : Nat} {u : CompilationUnit} {p : Pass} {space : Namespace}
  {result : PassResult}

def resolver : Namespace → Pass
  | .values => .referenceResolution
  | .types => .typeReferenceResolution

/-- What a pass may do: build the scopes, resolve the names of a namespace, report on the unit as
it is, or infer types. -/
inductive Performed (fuel : Nat) (u : CompilationUnit) : Pass → PassResult → Prop where
  | tagged : Performed fuel u .scopeTagging
      ⟨{ u with scopes := some (ScopeTree.build u.tree) }, []⟩
  | resolved (space : Namespace) : Performed fuel u (resolver space) (resolvePass space u)
  | checked {p : Pass} {reports : List Report}
      (hp : p ∉ [.scopeTagging, .referenceResolution, .typeReferenceResolution])
      (harmless : (p = .assignmentCheck → u.tree.Cleared .values) →
        ∀ r ∈ reports, r.severity ≠ .crash) : Performed fuel u p ⟨u, reports⟩
  | inferred {result : PassResult} (run : inferencePass fuel u = some result) :
      Performed fuel u .typeInference result

/-- What a pass does, one case for each of its kinds. -/
theorem runPass_cases (h : runPass fuel u p = some result) : Performed fuel u p result := by
  cases p with
  | scopeTagging =>
    cases h
    exact .tagged
  | moduleUniqueness =>
    cases h
    exact .checked (by decide) fun _ => Checks.moduleUniqueness_harmless _
  | objectUniqueness =>
    cases h
    exact .checked (by decide) fun _ => Checks.objectUniqueness_harmless _
  | referenceResolution =>
    cases h
    exact .resolved .values
  | typeReferenceResolution =>
    cases h
    exact .resolved .types
  | assignmentCheck =>
    have hharmless : u.tree.Cleared .values → ∀ r ∈ (Checks.assignmentCheck u.tree).1 ++
        (Checks.assignmentCheck u.tree).2.toList, r.severity ≠ .crash := by
      intro hcleared
      obtain ⟨hcrash, hreports⟩ := Checks.assignmentCheck_harmless hcleared
      simpa [hcrash] using hreports
    cases h
    exact .checked (by decide) fun hcleared => hharmless (hcleared rfl)
  | typeInference => exact .inferred h

structure PassSafe (t : Tree) (u : CompilationUnit) (p : Pass) (result : PassResult) : Prop where
  answered : t.Answered result.unit.tree
  scopes : u.scopes = some (ScopeTree.build t) ∨ p = .scopeTagging →
    result.unit.scopes = some (ScopeTree.build t)
  kept : ∀ space, u.tree.Settled space → result.unit.tree.Settled space
  settles : ∀ space, p = resolver space → (∀ r ∈ result.reports, r.isFailure = false) →
    result.unit.tree.Settled space
  harmless : ∀ r ∈ result.reports, r.severity ≠ .crash

theorem scopeTagging_safe (h : t.Answered u.tree) :
    PassSafe t u .scopeTagging ⟨{ u with scopes := some (ScopeTree.build u.tree) }, []⟩ where
  answered := h
  scopes _ := by rw [← h.same, ScopeTree.build_forget]
  kept _ hs := hs
  settles space hp := by cases space <;> cases hp
  harmless := by simp

/-- A pass that leaves the tree and its scopes as they are and makes no crash report. -/
theorem passSafe_of_reports (h : t.Answered u.tree)
    (hp : p ∉ [.scopeTagging, .referenceResolution, .typeReferenceResolution])
    (htree : result.unit.tree = u.tree) (hscopes : result.unit.scopes = u.scopes)
    (hreports : ∀ r ∈ result.reports, r.severity ≠ .crash) : PassSafe t u p result where
  answered := htree ▸ h
  scopes hs := hscopes.trans (hs.resolve_right fun heq => hp (by simp [heq]))
  kept _ hs := htree ▸ hs
  settles space heq := by cases space <;> simp_all [resolver]
  harmless := hreports

theorem severity_unresolvedReport (t : Tree) (n : NodeId) (r : Reference) (e : ResolveError) :
    (unresolvedReport t n r e).severity = .error := by
  cases e <;> rfl

/-- Given the scopes of a unit, resolving its names reports no crash. -/
theorem resolvePass_harmless {S : ScopeTree} (hS : u.scopes = some S) (space : Namespace) :
    ∀ r ∈ (resolvePass space u).reports, r.severity ≠ .crash := by
  intro r hr
  simp only [resolvePass, hS] at hr
  obtain ⟨res, -, hres⟩ := List.mem_filterMap.1 hr
  split at hres
  · cases hres
  · cases hres
    simp [severity_unresolvedReport]

/-- Names none of which is reported all refer to something. -/
theorem exists_ok_of_resolvePass {S : ScopeTree} (hS : u.scopes = some S)
    (hreports : ∀ r ∈ (resolvePass space u).reports, r.isFailure = false) :
    ∀ r ∈ resolveReferences u.tree S space, ∃ d, r.result = .ok d := by
  intro r hr
  cases hresult : r.result with
  | ok d => exact ⟨d, rfl⟩
  | error e =>
    have hmem : unresolvedReport u.tree r.node r.reference e ∈ (resolvePass space u).reports := by
      simp only [resolvePass, hS]
      exact List.mem_filterMap.2 ⟨r, hr, by simp [hresult]⟩
    have hfailure := hreports _ hmem
    simp [Report.isFailure, severity_unresolvedReport, Severity.isFailure] at hfailure

/-- Resolving the names of a namespace fills references in as they resolve, and reports the others.
-/
theorem resolvePass_safe (ht : t.WellFormed) (h : t.Answered u.tree)
    (hscopes : u.scopes = some (ScopeTree.build t)) (space : Namespace) :
    PassSafe t u (resolver space) (resolvePass space u) := by
  have hunit := resolvePass_unit hscopes space
  refine ⟨?_, fun _ => ?_, fun space' hs => ?_, ?_, resolvePass_harmless hscopes space⟩
  · rw [hunit]
    exact h.resolveAll space
  · rw [hunit]
    exact hscopes
  · rw [hunit]
    exact hs.resolveAll _
  · intro space' hspace hreports
    obtain rfl : space' = space := by cases space <;> cases space' <;> simp_all [resolver]
    rw [hunit]
    exact Tree.settled_resolveAll (h.wellFormed ht) (exists_ok_of_resolvePass hscopes hreports)

theorem inferencePass_safe (ht : t.WellFormed) (h : t.Answered u.tree)
    (hsettled : ∀ space, u.tree.Settled space) (hrun : inferencePass fuel u = some result) :
    PassSafe t u .typeInference result := by
  have hlinked := h.linked ht (Tree.fullyResolved_of_settled hsettled)
  obtain ⟨outcome, hout, hresult⟩ := Option.bind_eq_some_iff.1 hrun
  obtain ⟨⟨types, htypes⟩, hharmless⟩ := inferDeclarations_harmless hlinked hout
  simp only [htypes, Option.pure_def, Option.some.injEq] at hresult
  subst hresult
  exact passSafe_of_reports h (by decide) rfl rfl hharmless

structure RunSafe (t : Tree) (done : List Pass) (r : Pipeline.Run) : Prop where
  ran : r.statuses.map (·.1) = done
  answered : t.Answered r.unit.tree
  scopes : r.statuses.lookup .scopeTagging = some .succeeded →
    r.unit.scopes = some (ScopeTree.build t)
  settled : ∀ space, r.statuses.lookup (resolver space) = some .succeeded →
    r.unit.tree.Settled space
  inferred : ∀ s, r.statuses.lookup .typeInference = some s → s = .succeeded ∨ s = .failed →
    ∀ space, r.unit.tree.Settled space
  harmless : ∀ report ∈ r.collector.reports, report.severity ≠ .crash

variable {config : Config} {done : List Pass} {r r' : Pipeline.Run}

/-- A pass whose needs have been met is safe. -/
theorem RunSafe.runPass (ht : t.WellFormed) (h : RunSafe t done r)
    (hneeds : ∀ d ∈ p.dependencies, r.statuses.lookup d = some .succeeded)
    (hrun : runPass fuel r.unit p = some result) : PassSafe t r.unit p result := by
  cases runPass_cases hrun with
  | tagged => exact scopeTagging_safe h.answered
  | resolved space =>
    have hscopes := h.scopes (hneeds .scopeTagging (by cases space <;> decide))
    exact resolvePass_safe ht h.answered hscopes space
  | checked hp hharmless =>
    refine passSafe_of_reports h.answered hp rfl rfl (hharmless ?_)
    rintro rfl
    exact (h.settled .values (hneeds _ (by decide))).cleared
  | inferred hrun =>
    refine inferencePass_safe ht h.answered (fun space => ?_) hrun
    cases space with
    | values => exact h.settled .values (hneeds _ (by decide))
    | types => exact h.settled .types (hneeds _ (by decide))

/-- A pass keeps a run safe if those it depends on came before it. -/
theorem RunSafe.step (ht : t.WellFormed) (h : RunSafe t done r)
    (hdone : ∀ d ∈ p.dependencies, d ∈ done) (hstep : Pipeline.Stepped fuel config r p r') :
    RunSafe t (done ++ [p]) r' := by
  cases hstep with
  | barred status hheld =>
    have hold : ∀ {d s}, (r.statuses ++ [(p, status)]).lookup d = some s →
        s = .succeeded ∨ s = .failed → r.statuses.lookup d = some s := by
      intro d s hlookup hs
      refine (Pipeline.lookup_append_status hlookup).resolve_right ?_
      rintro ⟨-, rfl⟩
      rcases Pipeline.bar_cases hheld with ⟨rfl, -⟩ | rfl | rfl <;> simp at hs
    exact ⟨by simp [h.ran], h.answered, fun hs => h.scopes (hold hs (Or.inl rfl)),
      fun space hs => h.settled space (hold hs (Or.inl rfl)),
      fun s hs hran => h.inferred s (hold hs hran) hran, h.harmless⟩
  | ran hfree result hrun =>
    have hneeds : ∀ d ∈ p.dependencies, r.statuses.lookup d = some .succeeded := fun d hd =>
      Pipeline.needed_of_bar hfree hd (by simpa [h.ran] using hdone d hd)
    have hsafe := h.runPass ht hneeds hrun
    refine ⟨by simp [h.ran], hsafe.answered, fun hs => hsafe.scopes ?_, fun space hs => ?_,
      fun s hs hran space => hsafe.kept space ?_,
      Collector.harmless_collectAll h.harmless hsafe.harmless⟩
    · exact (Pipeline.lookup_append_status hs).imp h.scopes fun heq => heq.1.symm
    · rcases Pipeline.lookup_append_status hs with hs | ⟨heq, hstatus⟩
      · exact hsafe.kept space (h.settled space hs)
      · exact hsafe.settles space heq.symm (Pipeline.not_isFailure_of_succeeded hstatus)
    · rcases Pipeline.lookup_append_status hs with hs | ⟨rfl, -⟩
      · exact h.inferred s hs hran space
      · cases space with
        | values => exact h.settled .values (hneeds _ (by decide))
        | types => exact h.settled .types (hneeds _ (by decide))

/-- Every configuration has a pipeline, and over a well-formed tree of which no reference is
resolved it reports no crash. If types were inferred, then functions of the resulting tree fail to
lower only at a reference to no value or to a binding that has not been reached, and inferring
their types does not stop with a crash. -/
theorem crash_free (ht : t.WellFormed) (hu : t.Unresolved) (config : Config) :
    ∃ pipeline, Pipeline.ofConfig config = some (.ok pipeline) ∧ ∀ fuel outcome unit,
      pipeline.run fuel (CompilationUnit.ofTree t) = some (outcome, unit) →
      (∀ r ∈ outcome.reports, r.severity ≠ .crash) ∧
      ∀ s, outcome.statuses.lookup .typeInference = some s → s = .succeeded ∨ s = .failed →
        (∀ g ∈ topLevelFunctions unit.tree, ∀ store e st,
          (lowerFunction unit.tree.toForest g).run.run (Lowering.start store) = (.error e, st) →
          (∃ r d kind, e = .notAValue r d kind) ∨ ∃ r d, e = .usedBeforeBinding r d) ∧
        ∀ supply result, inferDeclarations fuel unit.tree supply = some result →
          ∃ types, result.result = .ok types := by
  refine ⟨_, Pipeline.ofConfig_eq config, fun fuel outcome unit hrun => ?_⟩
  have hstart : RunSafe t [] ⟨CompilationUnit.ofTree t, Collector.start config.warningsAsErrors, [],
      false⟩ := ⟨rfl, .refl hu, by simp, by simp, by simp, by simp [Collector.start]⟩
  obtain ⟨r, hsafe, rfl, rfl⟩ := Pipeline.run_induction hrun hstart
    fun done p rest horder r r' h hstep =>
      h.step ht (fun d hd => Pipeline.passOrder_after horder hd) hstep
  refine ⟨hsafe.harmless, fun s hs hran => ?_⟩
  have hlinked := hsafe.answered.linked ht
    (Tree.fullyResolved_of_settled (hsafe.inferred s hs hran))
  refine ⟨fun g hg store e st hlower => ?_, fun supply result hinfer => ?_⟩
  · have hlands := lowerFunction_lands hlinked (mem_topLevelFunctions.1 hg).2 store
    rw [lands_iff_run] at hlands
    simp only [hlower] at hlands
    rcases hlands with hvalue | ⟨r, d, he, -⟩
    · exact Or.inl hvalue
    · exact Or.inr ⟨r, d, he⟩
  · exact (inferDeclarations_harmless hlinked hinfer).1

/-- A struct and a function over it that binds its argument to a variable and assigns to that. -/
def assigningUnit : Tree := Tree.ofKinds [
  .typeReference ⟨⟨1⟩, none⟩, .parameter ⟨2⟩ (some ⟨0⟩),
  .reference ⟨⟨2⟩, none⟩, .varDecl ⟨3⟩ true none ⟨2⟩,
  .reference ⟨⟨3⟩, none⟩, .reference ⟨⟨2⟩, none⟩, .assign ⟨4⟩ ⟨5⟩,
  .reference ⟨⟨3⟩, none⟩, .block [⟨3⟩, ⟨6⟩, ⟨7⟩],
  .typeReference ⟨⟨1⟩, none⟩, .function ⟨4⟩ [⟨1⟩] (some ⟨9⟩) ⟨8⟩,
  .structDecl ⟨1⟩ [] [], .moduleDecl ⟨5⟩ true [⟨11⟩, ⟨10⟩], .file [⟨12⟩]]

theorem crash_free_assigning : assigningUnit.WellFormed ∧ assigningUnit.Unresolved ∧
    ∃ pipeline outcome unit, Pipeline.ofConfig Config.default = some (.ok pipeline) ∧
      pipeline.run 9 (CompilationUnit.ofTree assigningUnit) = some (outcome, unit) ∧
      outcome.statuses.lookup .typeInference = some .succeeded ∧
      (∀ r ∈ outcome.reports, r.severity ≠ .crash) ∧
      ∀ supply result, inferDeclarations 9 unit.tree supply = some result →
        ∃ types, result.result = .ok types := by
  have ht : assigningUnit.WellFormed := by decide
  have hu : assigningUnit.Unresolved := by decide
  obtain ⟨pipeline, hpipeline, hsafe⟩ := crash_free ht hu Config.default
  obtain rfl : ⟨Pipeline.passOrder, Config.default⟩ = pipeline := by
    simpa [Pipeline.ofConfig_eq] using hpipeline
  have hrun : ((Pipeline.run 9 ⟨Pipeline.passOrder, Config.default⟩
      (CompilationUnit.ofTree assigningUnit)).any fun p =>
        p.1.statuses.lookup .typeInference = some .succeeded) = true := by decide +kernel
  obtain ⟨⟨outcome, unit⟩, hrun, hstatus⟩ := (Option.any_eq_true _ _).1 hrun
  obtain ⟨hreports, hinferred⟩ := hsafe 9 outcome unit hrun
  have hstatus : outcome.statuses.lookup .typeInference = some .succeeded := by simpa using hstatus
  exact ⟨ht, hu, _, outcome, unit, hpipeline, hrun, hstatus, hreports,
    (hinferred _ hstatus (Or.inl rfl)).2⟩

end Session

end SemanticAnalysis
