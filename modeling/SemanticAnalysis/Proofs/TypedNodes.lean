import SemanticAnalysis.Proofs.Annotations

/-!
Nodes that have a type. Typing a unit records a type for each call, lambda and
function inside the functions that have a scheme, and for no other node. So nothing
is recorded inside a function that failed or was passed over.
-/

namespace SemanticAnalysis.Declarations

variable {t : Tree} {st : Progress}

/-- What has been recorded stands below the top-level functions that have a scheme by then. -/
theorem Enforced.recorded_iff (ht : t.WellFormed) (h : Enforced t st) {m : NodeId} :
    st.found.expressions.contains m = true ↔ ∃ n ∈ topLevelFunctions t,
      st.found.declarations.contains n = true ∧ m ∈ t.walkFrom n ∧ t.isJudged m = true := by
  rw [h.covered m]
  constructor
  · intro hm
    obtain ⟨n, hn, hm⟩ := hm
    have htop := h.declared n hn
    obtain ⟨_, _, _, _, _, _, hk, -⟩ := isTopLevel_cases htop
    exact ⟨n, mem_topLevelFunctions.2 ⟨ht.mem_walk hk, htop⟩, hn, hm⟩
  · intro hm
    obtain ⟨n, -, hm⟩ := hm
    exact ⟨n, hm⟩

/-- If typing a unit ends without a crash then the nodes whose types are recorded are exactly the
calls, lambdas and functions below the top-level functions that have a scheme. None of them is below
a top-level function that has none. -/
theorem judged_nodes_typed (ht : t.WellFormed) {fuel : Nat} {supply : Supply}
    {outcome : DeclarationOutcome} (h : inferDeclarations fuel t supply = some outcome)
    {types : DeclarationTypes} (hok : outcome.result = .ok types) :
    (∀ m, m ∈ types.expressions.keys ↔ ∃ n ∈ topLevelFunctions t,
      n ∈ types.declarations.keys ∧ m ∈ t.walkFrom n ∧ t.isJudged m = true) ∧
    ∀ n ∈ topLevelFunctions t, n ∉ types.declarations.keys →
      ∀ m ∈ t.walkFrom n, m ∉ types.expressions.keys := by
  obtain ⟨st, hrun, -, rfl⟩ := exists_run_of_ok h hok
  have hst := (checkListed_enforced ht fuel _ supply).of_ok hrun
  simp only [settle, OrderedMap.mem_keys_iff, OrderedMap.contains_mapValues]
  refine ⟨fun m => hst.recorded_iff ht, fun n hn hnone m hm hrecorded => ?_⟩
  obtain ⟨a, ha, hdeclared, hma, -⟩ := (hst.recorded_iff ht).1 hrecorded
  have hsame : n = a :=
    ht.topLevel_unique (mem_topLevelFunctions.1 hn).2 (mem_topLevelFunctions.1 ha).2 hm hma
  exact hnone (hsame ▸ hdeclared)

/-- A function that passes a lambda to a local function, one that calls a number, and one that gives
a lambda around the latter. -/
def judgedUnit : Tree := Tree.ofKinds [
  .parameter ⟨1⟩ none, .resolved ⟨⟨1⟩, none⟩ ⟨0⟩, .function ⟨2⟩ [⟨0⟩] none ⟨1⟩,
  .resolved ⟨⟨2⟩, none⟩ ⟨2⟩, .parameter ⟨3⟩ none, .resolved ⟨⟨3⟩, none⟩ ⟨4⟩, .lambda [⟨4⟩] ⟨5⟩,
  .call ⟨3⟩ [⟨6⟩], .block [⟨2⟩, ⟨7⟩], .function ⟨4⟩ [] none ⟨8⟩,
  .number "1", .number "2", .call ⟨10⟩ [⟨11⟩], .function ⟨5⟩ [] none ⟨12⟩,
  .resolved ⟨⟨5⟩, none⟩ ⟨13⟩, .lambda [] ⟨14⟩, .function ⟨6⟩ [] none ⟨15⟩,
  .moduleDecl ⟨7⟩ false [⟨9⟩, ⟨13⟩, ⟨16⟩], .file [⟨17⟩]]

theorem judged_nodes_typed_mixed : judgedUnit.WellFormed ∧ ∃ outcome types,
    inferDeclarations 9 judgedUnit Supply.empty = some outcome ∧ outcome.result = .ok types ∧
      types.declarations.keys = [⟨9⟩] ∧
      (∀ m, m ∈ types.expressions.keys ↔ m ∈ ([⟨9⟩, ⟨2⟩, ⟨7⟩, ⟨6⟩] : List NodeId)) ∧
      ∀ n ∈ ([⟨13⟩, ⟨16⟩] : List NodeId), n ∈ topLevelFunctions judgedUnit ∧
        ∀ m ∈ judgedUnit.walkFrom n, m ∉ types.expressions.keys := by
  have ht : judgedUnit.WellFormed := by decide +kernel
  have hrun : ((inferDeclarations 9 judgedUnit Supply.empty).any fun outcome =>
      outcome.result.toOption.any fun types => types.declarations.keys == [⟨9⟩]) = true := by
    decide +kernel
  have hfunctions : topLevelFunctions judgedUnit = [⟨9⟩, ⟨13⟩, ⟨16⟩] := by decide +kernel
  have hjudged : (judgedUnit.walkFrom ⟨9⟩).filter judgedUnit.isJudged = [⟨9⟩, ⟨2⟩, ⟨7⟩, ⟨6⟩] := by
    decide +kernel
  obtain ⟨outcome, h, hresult⟩ := (Option.any_eq_true _ _).1 hrun
  obtain ⟨types, htypes, hkeys⟩ := (Option.any_eq_true _ _).1 hresult
  have hok : outcome.result = .ok types := by
    cases hr : outcome.result <;> simp_all [Except.toOption]
  obtain ⟨hexact, hnothing⟩ := judged_nodes_typed ht h hok
  rw [beq_iff_eq] at hkeys
  rw [hkeys] at hexact hnothing
  have hothers : ∀ n ∈ ([⟨13⟩, ⟨16⟩] : List NodeId), n ∈ topLevelFunctions judgedUnit ∧
      n ∉ ([⟨9⟩] : List NodeId) := by
    rw [hfunctions]
    decide
  refine ⟨ht, outcome, types, h, hok, hkeys, fun m => ?_, fun n hn => ?_⟩
  · rw [hexact, ← hjudged, List.mem_filter, hfunctions]
    simp
  · obtain ⟨hn, hnone⟩ := hothers n hn
    exact ⟨hn, hnothing n hn hnone⟩

end SemanticAnalysis.Declarations
