import SemanticAnalysis.Proofs.FunctionGroups
import SemanticAnalysis.Proofs.LoweringScopes

/-!
Closed scopes of top-level functions. The term that a top-level function lowers to
has no free variables but builtins, variables with an assumed type and the
top-level functions it uses, and a function that refers to a binding of a block
before that binding comes does not lower.
-/

namespace SemanticAnalysis

open Declarations

variable {t : Tree} {g d : NodeId} {v : CoreVar}

namespace Lowering

def TopAccounted (t : Tree) (g : NodeId) (st : Lowering) (v : CoreVar) : Prop :=
  (∃ b, v = .builtin b) ∨ st.assumptions.contains v = true ∨
    ∃ d ∈ topLevelFunctions t, v = .decl d ∧
      (usesOf t.toForest (topLevelFunctions t) g).contains d = true

theorem ready_topLevel (ht : t.WellFormed) (hg : isTopLevel t.toForest g = true)
    (store : TypeStore) : Ready t.toForest g (start store) where
  fresh _ _ _ _ := rfl
  after _ _ := rfl
  reached d hd _ := by
    obtain ⟨b, pre, x, post, hs, -⟩ := hd
    exact absurd hs (ht.not_sitsIn_topLevel hg)
  self hd := by
    obtain ⟨b, pre, x, post, hs, -⟩ := hd
    exact absurd hs (ht.not_sitsIn_topLevel hg)

/-- A top-level function lowers to a term that is closed but for builtins, assumptions and functions
it uses. -/
theorem function_lowers (ht : t.Linked) (hg : isTopLevel t.toForest g = true)
    (store : TypeStore) :
    Lands (function t.toForest g) (start store)
      (fun term st => (∀ v ∈ term.free, TopAccounted t g st v) ∧ Ordered t g)
      fun e _ => Refused t g e := by
  have hf := ht.wellFormed.named_once
  obtain ⟨name, params, returns, body, -, -, hk, -⟩ := isTopLevel_cases hg
  have habs : Abstracts (.function name params returns body) params body :=
    Or.inl ⟨name, returns, rfl⟩
  obtain ⟨-, kb, hkb, hexpr⟩ := ht.wellFormed.child_fits hk habs.body_place
  have hbody : body ∈ t.children g :=
    Forest.mem_children_of_kind hk (Kind.mem_children_of_mem_places habs.body_place)
  simp only [function, hk]
  refine (abstraction_lands ht hk habs (expression_lowers ht hkb hexpr)
    (ready_topLevel ht.wellFormed hg store)).imp_ok fun term st hl => ⟨fun v hv => ?_, hl.ordered⟩
  have htop : ∀ {d}, isTopLevel t.toForest d = true → (∃ r ∈ t.walkFrom g, t.Refers r d) →
      TopAccounted t g st (.decl d) := by
    intro d hd href
    obtain ⟨_, _, _, _, _, _, hkd, -⟩ := isTopLevel_cases hd
    have hmem := mem_topLevelFunctions.2 ⟨ht.wellFormed.mem_walk hkd, hd⟩
    exact Or.inr (Or.inr ⟨d, hmem, rfl, contains_usesOf.2 ⟨hmem, href⟩⟩)
  obtain ⟨hparams, hacc⟩ := hl.accounted v hv
  rcases hacc.of_child hf hbody with ⟨d, rfl, ⟨r, hr, href⟩, hb⟩ | hacc
  · simp only [Forest.Binds, hk] at hb
    rcases hb with rfl | hb
    · exact htop hg ⟨r, Forest.mem_walkFrom_of_child hbody hr, href⟩
    · exact absurd (List.mem_map_of_mem hb) hparams
  · rcases hacc with hb | ha | ⟨d, rfl, href, hd | hd⟩
    · exact Or.inl hb
    · exact Or.inr (Or.inl ha)
    · exact htop hd href
    · exact absurd hd (ht.wellFormed.not_visible_topLevel hg)

/-- The term of a top-level function of a well-formed tree in which every reference says what it
resolves to has no free variables but builtins, variables with an assumed type and top-level
functions that it uses. There is one only if no reference refers to a binding of a block that comes
after it. Lowering fails only at a reference to no value or at one to such a binding. -/
theorem lowering_scope_closed {t u : Tree} (ht : t.WellFormed) (h : t.Answered u)
    (hu : u.FullyResolved) (g : NodeId) (hg : g ∈ topLevelFunctions u) (store : TypeStore) :
    match (function u.toForest g).run.run (start store) with
    | (.ok term, st) =>
      (∀ v ∈ term.free, (∃ b, v = .builtin b) ∨ st.assumptions.contains v = true ∨
        ∃ d ∈ topLevelFunctions u, v = .decl d ∧
          (usesOf u.toForest (topLevelFunctions u) g).contains d = true) ∧
      ∀ r ∈ u.walkFrom g, ∀ d, u.Refers r d → ¬ u.ComesAfter r d
    | (.error e, _) => (∃ r d kind, e = .notAValue r d kind) ∨
      ∃ r d, e = .usedBeforeBinding r d ∧ r ∈ u.walkFrom g ∧ u.Refers r d ∧ u.ComesAfter r d := by
  have hlands := function_lowers (h.linked ht hu) (mem_topLevelFunctions.1 hg).2 store
  rw [lands_iff_run] at hlands
  rcases hrun : (function u.toForest g).run.run (start store) with ⟨e | term, st⟩
  · simp only [hrun] at hlands
    exact hlands
  · simp only [hrun] at hlands
    exact hlands

/-- A struct with a field, a function whose block calls a recursive function of its own and refers
to another top-level function, and that function, which refers to a variable before its turn. -/
def nestedBindings : Tree := Tree.ofKinds [
  .parameter ⟨1⟩ none, .structDecl ⟨2⟩ [⟨0⟩] [],
  .reference ⟨⟨2⟩, none⟩, .number "1", .call ⟨2⟩ [⟨3⟩], .varDecl ⟨3⟩ false none ⟨4⟩,
  .parameter ⟨4⟩ none, .reference ⟨⟨5⟩, none⟩, .reference ⟨⟨4⟩, none⟩, .call ⟨7⟩ [⟨8⟩],
  .function ⟨5⟩ [⟨6⟩] none ⟨9⟩,
  .reference ⟨⟨5⟩, none⟩, .reference ⟨⟨3⟩, none⟩, .call ⟨11⟩ [⟨12⟩], .reference ⟨⟨7⟩, none⟩,
  .block [⟨5⟩, ⟨10⟩, ⟨13⟩, ⟨14⟩], .function ⟨6⟩ [] none ⟨15⟩,
  .reference ⟨⟨3⟩, none⟩, .number "1", .varDecl ⟨3⟩ false none ⟨18⟩, .block [⟨17⟩, ⟨19⟩],
  .function ⟨7⟩ [] none ⟨20⟩,
  .moduleDecl ⟨8⟩ false [⟨1⟩, ⟨16⟩, ⟨21⟩], .file [⟨22⟩]]

def endsEarly (r : Except LowerError Term × Lowering) : Bool :=
  match r.1 with
  | .error (.usedBeforeBinding _ _) => true
  | _ => false

theorem lowering_scope_closed_nested :
    nestedBindings.WellFormed ∧ nestedBindings.resolveNames.FullyResolved ∧
      (∃ term st, (function nestedBindings.resolveNames.toForest ⟨16⟩).run.run
          (start (TypeStore.start Supply.empty)) = (.ok term, st) ∧
        ∀ v ∈ term.free, (∃ b, v = .builtin b) ∨ st.assumptions.contains v = true ∨
          ∃ d ∈ topLevelFunctions nestedBindings.resolveNames, v = .decl d ∧
            (usesOf nestedBindings.resolveNames.toForest
              (topLevelFunctions nestedBindings.resolveNames) ⟨16⟩).contains d = true) ∧
      ∃ r d st, (function nestedBindings.resolveNames.toForest ⟨21⟩).run.run
          (start (TypeStore.start Supply.empty)) = (.error (.usedBeforeBinding r d), st) ∧
        nestedBindings.resolveNames.ComesAfter r d := by
  have ht : nestedBindings.WellFormed := by decide
  have hu : nestedBindings.resolveNames.FullyResolved := by decide +kernel
  have hg : topLevelFunctions nestedBindings.resolveNames = [⟨16⟩, ⟨21⟩] := by decide +kernel
  have hclosed := fun g hg => lowering_scope_closed ht
    (Tree.answered_resolveNames (by decide)) hu g hg (TypeStore.start Supply.empty)
  refine ⟨ht, hu, ?_, ?_⟩
  · have hrun := hclosed ⟨16⟩ (by simp [hg])
    have hok : ((function nestedBindings.resolveNames.toForest ⟨16⟩).run.run
        (start (TypeStore.start Supply.empty))).1.isOk = true := by decide +kernel
    split at hrun
    · rename_i term st heq
      exact ⟨term, st, heq, hrun.1⟩
    · rename_i e st heq
      rw [heq] at hok
      cases hok
  · have hrun := hclosed ⟨21⟩ (by simp [hg])
    have herror : endsEarly ((function nestedBindings.resolveNames.toForest ⟨21⟩).run.run
        (start (TypeStore.start Supply.empty))) = true := by decide +kernel
    split at hrun
    · rename_i term st heq
      rw [heq] at herror
      cases herror
    · rename_i e st heq
      rw [heq] at herror
      rcases hrun with ⟨_, _, _, rfl⟩ | ⟨r, d, rfl, -, -, hafter⟩
      · cases herror
      · exact ⟨r, d, st, heq, hafter⟩

end Lowering

end SemanticAnalysis
