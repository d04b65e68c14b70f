import SemanticAnalysis.Proofs.Computations
import SemanticAnalysis.Proofs.InferenceRuns

/-!
The free variables of core terms. Inference looks up no other variables, so it
never misses one if the context has all free variables of the term.
-/

namespace SemanticAnalysis

namespace Term

mutual

def free : Term → List CoreVar
  | .var v => [v]
  | .app arg func _ => free arg ++ free func
  | .lam bind body _ => (free body).filter (· ≠ bind)
  | .letIn binder bind usage => free binder ++ (free usage).filter (· ≠ bind)
  | .number _ | .floating _ => []
  | .tuple items => freeAll items

def freeAll : List Term → List CoreVar
  | [] => []
  | e :: rest => free e ++ freeAll rest

end

section Occurrences

variable {v x : CoreVar}

attribute [local simp] free freeAll

theorem mem_freeAll {items : List Term} : v ∈ freeAll items ↔ ∃ e ∈ items, v ∈ e.free := by
  induction items with
  | nil => simp
  | cons e rest ih => simp [ih]

@[simp]
theorem mem_free_var : v ∈ (Term.var x).free ↔ v = x := by simp

@[simp]
theorem mem_free_app {arg func : Term} {origin : Option NodeId} :
    v ∈ (Term.app arg func origin).free ↔ v ∈ arg.free ∨ v ∈ func.free := by simp

@[simp]
theorem mem_free_lam {body : Term} {origin : Option NodeId} :
    v ∈ (Term.lam x body origin).free ↔ v ∈ body.free ∧ v ≠ x := by simp

@[simp]
theorem mem_free_letIn {binder usage : Term} :
    v ∈ (Term.letIn binder x usage).free ↔ v ∈ binder.free ∨ (v ∈ usage.free ∧ v ≠ x) := by
  simp

@[simp]
theorem mem_free_tuple {items : List Term} :
    v ∈ (Term.tuple items).free ↔ ∃ e ∈ items, v ∈ e.free := by
  rw [free, mem_freeAll]

@[simp]
theorem free_number (text : String) : (Term.number text).free = [] := by simp

@[simp]
theorem free_floating (text : String) : (Term.floating text).free = [] := by simp

@[simp]
theorem free_withOrigin (e : Term) (n : NodeId) : (e.withOrigin n).free = e.free := by
  cases e <;> simp [withOrigin]

/-- A call has free what its function and its arguments have free. -/
theorem mem_free_call {args : List Term} {func : Term} (h : v ∈ (call args func).free) :
    v ∈ func.free ∨ ∃ e ∈ args, v ∈ e.free := by
  have hfold : ∀ (args : List Term) (func : Term),
      v ∈ (args.foldl (fun f arg => .app arg f none) func).free →
        v ∈ func.free ∨ ∃ e ∈ args, v ∈ e.free := by
    intro args
    induction args with
    | nil => exact fun _ h => Or.inl h
    | cons arg rest ih =>
      intro func h
      rcases ih _ h with h | ⟨e, he, hv⟩
      · rcases mem_free_app.1 h with h | h
        · exact Or.inr ⟨arg, List.mem_cons_self .., h⟩
        · exact Or.inl h
      · exact Or.inr ⟨e, List.mem_cons_of_mem arg he, hv⟩
  cases args with
  | nil =>
    rw [call, mem_free_app, unit, mem_free_tuple] at h
    simpa using h
  | cons arg rest => exact hfold _ _ h

theorem mem_free_abstract {binds : List CoreVar} {body : Term} :
    v ∈ (Term.abstract binds body).free ↔ v ∈ body.free ∧ v ∉ binds := by
  induction binds with
  | nil => simp [Term.abstract]
  | cons bind rest ih =>
    have hcons : Term.abstract (bind :: rest) body = .lam bind (Term.abstract rest body) none := rfl
    rw [hcons, mem_free_lam, ih, List.mem_cons, not_or]
    tauto

end Occurrences

end Term

namespace Inference

variable {fuel : Nat} {st : State}

/-- An error other than a variable that the context lacks. -/
def Typing (e : InferError) : Prop := ∀ v, e ≠ .unknownVariable v

/-- Unification within inference fails only for the types. -/
theorem solve_lands (a b : Ty) (st : State) :
    Lands (solve fuel a b) st (fun _ _ => True) fun e _ => Typing e := by
  unfold solve
  split
  · intro r hr
    cases hr
  · rename_i e _
    rw [lands_throw]
    intro v
    cases e <;> simp [InferError.ofUnify]
  · simp

theorem instantiate_lands (scheme : Scheme) (st : State) :
    Lands (instantiate scheme) st (fun _ _ => True) fun e _ => Typing e := by
  simp [instantiate]

theorem freshVar_lands (st : State) :
    Lands freshVar st (fun _ _ => True) fun e _ => Typing e := by
  simp [freshVar]

theorem record_lands (origin : Option NodeId) (t : Ty) (st : State) :
    Lands (record origin t) st (fun _ _ => True) fun e _ => Typing e := by
  cases origin <;> simp [record]

theorem binderType_lands (Γ : Context) (x : CoreVar) (st : State) :
    Lands (binderType Γ x) st (fun _ _ => True) fun e _ => Typing e := by
  unfold binderType
  split
  · split
    · simp
    · exact freshVar_lands st
  · exact freshVar_lands st

theorem meetAssumed_lands (Γ : Context) (x : CoreVar) (s : Subst) (t : Ty) (st : State) :
    Lands (meetAssumed fuel Γ x s t) st (fun _ _ => True) fun e _ => Typing e := by
  unfold meetAssumed
  split
  · simp only [lands_bind, lands_pure]
    refine (instantiate_lands _ st).imp_ok fun _ st' _ => ?_
    exact solve_lands _ _ st'
  · simp

/-- Inference that finds all free variables in the context misses none. -/
theorem infer_lands {e : Term} {Γ : Context} (hfree : ∀ v ∈ e.free, Γ.contains v = true)
    (st : State) : Lands (infer fuel Γ e) st (fun _ _ => True) fun e _ => Typing e := by
  induction e generalizing Γ st with
  | var x =>
    obtain ⟨σ, hσ⟩ := OrderedMap.contains_iff.1 (hfree x (by simp))
    simp only [infer, hσ, lands_bind, lands_pure]
    exact instantiate_lands σ st
  | app arg func origin iharg ihfunc =>
    simp only [infer, lands_bind, lands_pure]
    refine (ihfunc (fun v hv => hfree v (by simp [hv])) st).imp_ok fun r₁ st₁ _ => ?_
    have harg : ∀ v ∈ arg.free, (Γ.substitute r₁.1).contains v = true := by
      intro v hv
      simpa using hfree v (by simp [hv])
    refine (iharg harg st₁).imp_ok fun r₂ st₂ _ => ?_
    refine (freshVar_lands st₂).imp_ok fun result st₃ _ => ?_
    refine (solve_lands _ _ st₃).imp_ok fun s₃ st₄ _ => ?_
    exact record_lands origin _ st₄
  | lam x body origin ih =>
    simp only [infer, lands_bind, lands_pure]
    refine (binderType_lands Γ x st).imp_ok fun input st₁ _ => ?_
    have hbody : ∀ v ∈ body.free, (Γ.insert x (Scheme.mono input)).contains v = true := by
      intro v hv
      by_cases hx : v = x
      · simp [hx]
      · simp [hfree v (by simp [hv, hx])]
    refine (ih hbody st₁).imp_ok fun r st₂ _ => ?_
    exact record_lands origin _ st₂
  | letIn binder x usage ihb ihu =>
    simp only [infer, lands_bind, lands_pure]
    refine (ihb (fun v hv => hfree v (by simp [hv])) st).imp_ok fun r st₁ _ => ?_
    refine (meetAssumed_lands Γ x r.1 r.2 st₁).imp_ok fun r₁ st₂ _ => ?_
    refine ihu ?_ st₂
    intro v hv
    by_cases hx : v = x
    · simp [hx]
    · have hΓ := hfree v (by simp [hv, hx])
      simp [OrderedMap.erase, hx, hΓ]
  | number text => simp [infer]
  | floating text => simp [infer]
  | tuple items ih =>
    have hitems : ∀ (items : List Term) (s : Subst) (ts : List Ty) (st : State),
        (∀ e ∈ items, ∀ {Γ : Context}, (∀ v ∈ e.free, Γ.contains v = true) → ∀ st,
          Lands (infer fuel Γ e) st (fun _ _ => True) fun e _ => Typing e) →
        (∀ e ∈ items, ∀ v ∈ e.free, Γ.contains v = true) →
        Lands (inferItems fuel Γ s ts items) st (fun _ _ => True) fun e _ => Typing e := by
      intro items
      induction items with
      | nil =>
        intro s ts st _ _
        simp [inferItems]
      | cons e rest ihrest =>
        intro s ts st ih hfree
        simp only [inferItems, lands_bind]
        have he : ∀ v ∈ e.free, (Γ.substitute s).contains v = true := by
          intro v hv
          simpa using hfree e (List.mem_cons_self ..) v hv
        refine (ih e (List.mem_cons_self ..) he st).imp_ok fun r st₁ _ => ?_
        exact ihrest _ _ st₁ (fun e he => ih e (List.mem_cons_of_mem _ he))
          fun e he => hfree e (List.mem_cons_of_mem _ he)
    simp only [infer, lands_bind, lands_pure]
    exact hitems items Subst.empty [] st ih fun e he v hv =>
      hfree v (Term.mem_free_tuple.2 ⟨e, he, hv⟩)

end Inference

end SemanticAnalysis
