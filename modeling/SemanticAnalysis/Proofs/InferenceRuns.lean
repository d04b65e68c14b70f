import SemanticAnalysis.Core.Inference
import SemanticAnalysis.Proofs.Schemes
import SemanticAnalysis.Proofs.UnificationRuns

/-!
How inference runs. For each kind of term there is one lemma that says when
inference yields a substitution and a type and in which state it ends; later
modules use these and never open the monad. More fuel keeps every answer.
-/

namespace SemanticAnalysis

open Ty

/-- Induction over terms with a hypothesis for each item of a tuple. -/
@[elab_as_elim, induction_eliminator]
theorem Term.inductionOn {motive : Term → Prop} (e : Term) (var : ∀ x, motive (.var x))
    (app : ∀ arg func origin, motive arg → motive func → motive (.app arg func origin))
    (lam : ∀ x body origin, motive body → motive (.lam x body origin))
    (letIn : ∀ binder x usage, motive binder → motive usage → motive (.letIn binder x usage))
    (number : ∀ text, motive (.number text)) (floating : ∀ text, motive (.floating text))
    (tuple : ∀ items, (∀ e ∈ items, motive e) → motive (.tuple items)) : motive e :=
  match e with
  | .var x => var x
  | .app arg func origin =>
    app arg func origin (inductionOn arg var app lam letIn number floating tuple)
      (inductionOn func var app lam letIn number floating tuple)
  | .lam x body origin =>
    lam x body origin (inductionOn body var app lam letIn number floating tuple)
  | .letIn binder x usage =>
    letIn binder x usage (inductionOn binder var app lam letIn number floating tuple)
      (inductionOn usage var app lam letIn number floating tuple)
  | .number text => number text
  | .floating text => floating text
  | .tuple items =>
    tuple items fun e _ => inductionOn e var app lam letIn number floating tuple

namespace Inference

/-- The computation succeeds with a value and takes one state to the other. -/
def Yields {α : Type} (x : Infer α) (st : State) (a : α) (st' : State) : Prop :=
  x.run.run st = some (.ok a, st')

section Steps

variable {α β : Type} {st st' : State}

theorem yields_pure {a b : α} : Yields (pure a : Infer α) st b st' ↔ b = a ∧ st' = st := by
  simp [Yields, eq_comm]

theorem yields_throw {e : InferError} {a : α} : ¬ Yields (throw e : Infer α) st a st' := by
  simp [Yields]

theorem yields_bind {x : Infer α} {f : α → Infer β} {b : β} :
    Yields (x >>= f) st b st' ↔ ∃ a st₁, Yields x st a st₁ ∧ Yields (f a) st₁ b st' := by
  simp only [Yields, ExceptT.run_bind, StateT.run_bind]
  cases h : x.run.run st with
  | none => simp
  | some r =>
    obtain ⟨r, st₁⟩ := r
    cases r with
    | error e => simp
    | ok a => simp

theorem Yields.unique {x : Infer α} {a a' : α} {st₁ st₂ : State} (h : Yields x st a st₁)
    (h' : Yields x st a' st₂) : a = a' ∧ st₁ = st₂ := by
  have heq := h.symm.trans h'
  simpa using heq

theorem run_bind_of_yields {x : Infer α} {f : α → Infer β} {a : α} {st₁ : State}
    (h : Yields x st a st₁) : (x >>= f).run.run st = (f a).run.run st₁ := by
  have hx : x.run.run st = some (.ok a, st₁) := h
  simp only [ExceptT.run_bind, StateT.run_bind, hx]
  rfl

def State.advanced (st : State) : State := { st with supply := ⟨st.supply.issued + 1⟩ }

def State.next (st : State) : TyVar := ⟨st.supply.issued⟩

def State.noted (st : State) (origin : Option NodeId) (t : Ty) : State :=
  match origin with
  | none => st
  | some node => { st with judgements := st.judgements ++ [(node, t)] }

@[simp]
theorem noted_supply (st : State) (origin : Option NodeId) (t : Ty) :
    (st.noted origin t).supply = st.supply := by
  cases origin <;> rfl

@[simp]
theorem advanced_issued (st : State) : st.advanced.supply.issued = st.supply.issued + 1 := rfl

@[simp]
theorem next_index (st : State) : st.next.index = st.supply.issued := rfl

theorem yields_freshVar {t : Ty} :
    Yields freshVar st t st' ↔ t = .var st.next ∧ st' = st.advanced := by
  have hrun : freshVar.run.run st = some (.ok (.var st.next), st.advanced) := rfl
  simp [Yields, hrun, eq_comm]

theorem yields_instantiate {σ : Scheme} {t : Ty} :
    Yields (instantiate σ) st t st' ↔
      t = (σ.instantiate st.supply).1 ∧
        st' = { st with supply := (σ.instantiate st.supply).2 } := by
  have hrun : (instantiate σ).run.run st =
    some (.ok (σ.instantiate st.supply).1, { st with supply := (σ.instantiate st.supply).2 }) := rfl
  simp [Yields, hrun, eq_comm]

theorem yields_record {origin : Option NodeId} {t : Ty} {u : Unit} :
    Yields (record origin t) st u st' ↔ st' = st.noted origin t := by
  have hrun : (record origin t).run.run st = some (.ok (), st.noted origin t) := by
    cases origin <;> rfl
  simp [Yields, hrun, eq_comm]

theorem yields_solve {fuel : Nat} {a b : Ty} {s : Subst} :
    Yields (solve fuel a b) st s st' ↔ (unify fuel a b).run = some (.ok s) ∧ st' = st := by
  unfold solve
  cases h : (unify fuel a b).run with
  | none => simp [Yields, ExceptT.run, ExceptT.mk, StateT.run]
  | some r =>
    cases r with
    | error e => simp [yields_throw]
    | ok r => simp [yields_pure, eq_comm]

end Steps

section Terms

variable {fuel : Nat} {Γ : Context} {st st' : State} {s : Subst} {t : Ty}

attribute [local simp] infer inferItems

/-- A binder takes the type assumed for it or the next variable. -/
theorem yields_binderType {x : CoreVar} (h : Yields (binderType Γ x) st t st') :
    (∃ σ, Γ.get? x = some σ ∧ σ.isMono ∧ t = σ.body ∧ st' = st) ∨
      (t = .var st.next ∧ st' = st.advanced) := by
  unfold binderType at h
  split at h
  · rename_i σ hσ
    split at h
    · rename_i hmono
      rw [yields_pure] at h
      exact Or.inl ⟨σ, hσ, hmono, h.1, h.2⟩
    · exact Or.inr (yields_freshVar.1 h)
  · exact Or.inr (yields_freshVar.1 h)

theorem yields_binderType_of_none {x : CoreVar} (hx : Γ.get? x = none) :
    Yields (binderType Γ x) st (.var st.next) st.advanced := by
  unfold binderType
  split
  · rename_i σ hσ
    simp [hx] at hσ
  · exact yields_freshVar.2 ⟨rfl, rfl⟩

/-- A let-bound declaration keeps its type or is unified with an instance of what is assumed for it.
-/
theorem yields_meetAssumed {x : CoreVar} {s₀ : Subst} {t₀ : Ty}
    (h : Yields (meetAssumed fuel Γ x s₀ t₀) st (s, t) st') :
    (s = s₀ ∧ t = t₀ ∧ st' = st) ∨
      ∃ σ expected r, Γ.get? x = some σ ∧
        Yields (instantiate (σ.substitute s₀)) st expected st' ∧
        (unify fuel expected t₀).run = some (.ok r) ∧ s = r.compose s₀ ∧ t = r.apply t₀ := by
  unfold meetAssumed at h
  split at h
  · rename_i σ hσ
    simp only [yields_bind, yields_solve, yields_pure, Prod.mk.injEq] at h
    obtain ⟨expected, st₁, hexpected, r, st₂, ⟨hr, rfl⟩, ⟨rfl, rfl⟩, rfl⟩ := h
    exact Or.inr ⟨σ, expected, r, hσ, hexpected, hr, rfl, rfl⟩
  · simp only [yields_pure, Prod.mk.injEq] at h
    exact Or.inl ⟨h.1.1, h.1.2, h.2⟩

theorem yields_meetAssumed_of_none {x : CoreVar} (hx : Γ.get? x = none) :
    Yields (meetAssumed fuel Γ x s t) st (s, t) st := by
  unfold meetAssumed
  split
  · rename_i σ hσ
    simp [hx] at hσ
  · exact yields_pure.2 ⟨rfl, rfl⟩

/-- A variable has an instance of its scheme. -/
theorem yields_var {x : CoreVar} :
    Yields (infer fuel Γ (.var x)) st (s, t) st' ↔
      ∃ σ, Γ.get? x = some σ ∧ s = Subst.empty ∧ Yields (instantiate σ) st t st' := by
  unfold infer
  cases h : Γ.get? x with
  | none => simp [yields_throw]
  | some σ =>
    simp only [yields_bind, yields_pure, Prod.mk.injEq, Option.some.injEq]
    constructor
    · intro hrun
      obtain ⟨u, st₁, hu, ⟨rfl, rfl⟩, rfl⟩ := hrun
      exact ⟨σ, rfl, rfl, hu⟩
    · intro hrun
      obtain ⟨σ', rfl, rfl, ht⟩ := hrun
      exact ⟨t, st', ht, ⟨rfl, rfl⟩, rfl⟩

/-- A call infers the function, then the argument, and unifies the two around the next variable. -/
theorem yields_app {arg func : Term} {origin : Option NodeId} :
    Yields (infer fuel Γ (.app arg func origin)) st (s, t) st' ↔
      ∃ s₁ t₁ st₁ s₂ t₂ st₂ s₃, Yields (infer fuel Γ func) st (s₁, t₁) st₁ ∧
        Yields (infer fuel (Γ.substitute s₁) arg) st₁ (s₂, t₂) st₂ ∧
        (unify fuel (s₂.apply t₁) (.fn t₂ (.var st₂.next))).run = some (.ok s₃) ∧
        s = (s₃.compose s₂).compose s₁ ∧ t = s₃.apply (.var st₂.next) ∧
        st' = st₂.advanced.noted origin t := by
  rw [infer]
  simp only [yields_bind, yields_freshVar, yields_solve, yields_record, yields_pure, Prod.exists,
    Prod.mk.injEq]
  constructor
  · intro h
    obtain ⟨s₁, t₁, st₁, h₁, s₂, t₂, st₂, h₂, b, st₃, ⟨rfl, rfl⟩, s₃, st₄, ⟨h₃, rfl⟩, -, st₅, rfl,
      ⟨rfl, rfl⟩, rfl⟩ := h
    exact ⟨s₁, t₁, st₁, s₂, t₂, st₂, s₃, h₁, h₂, h₃, rfl, rfl, rfl⟩
  · intro h
    obtain ⟨s₁, t₁, st₁, s₂, t₂, st₂, s₃, h₁, h₂, h₃, rfl, rfl, rfl⟩ := h
    exact ⟨s₁, t₁, st₁, h₁, s₂, t₂, st₂, h₂, _, _, ⟨rfl, rfl⟩, s₃, _, ⟨h₃, rfl⟩, (), _, rfl,
      ⟨rfl, rfl⟩, rfl⟩

/-- An abstraction infers its body with the binder bound to its type. -/
theorem yields_lam {x : CoreVar} {body : Term} {origin : Option NodeId} :
    Yields (infer fuel Γ (.lam x body origin)) st (s, t) st' ↔
      ∃ i st₁ o st₂, Yields (binderType Γ x) st i st₁ ∧
        Yields (infer fuel (Γ.insert x (Scheme.mono i)) body) st₁ (s, o) st₂ ∧
        t = .fn (s.apply i) o ∧ st' = st₂.noted origin t := by
  rw [infer]
  simp only [yields_bind, yields_record, yields_pure, Prod.exists, Prod.mk.injEq]
  constructor
  · intro h
    obtain ⟨i, st₁, hi, s₁, o, st₂, hbody, -, st₃, rfl, ⟨rfl, rfl⟩, rfl⟩ := h
    exact ⟨i, st₁, o, st₂, hi, hbody, rfl, rfl⟩
  · intro h
    obtain ⟨i, st₁, o, st₂, hi, hbody, rfl, rfl⟩ := h
    exact ⟨i, st₁, hi, s, o, st₂, hbody, (), _, rfl, ⟨rfl, rfl⟩, rfl⟩

def usageContext (Γ : Context) (s : Subst) (x : CoreVar) (t : Ty) : Context :=
  let rest : Context := (Γ.substitute s).erase x
  rest.insert x (rest.generalize t)

theorem infer_letIn (fuel : Nat) (Γ : Context) (binder : Term) (x : CoreVar) (usage : Term) :
    infer fuel Γ (.letIn binder x usage) = (do
      let r₀ ← infer fuel Γ binder
      let r₁ ← meetAssumed fuel Γ x r₀.1 r₀.2
      let r₂ ← infer fuel (usageContext Γ r₁.1 x r₁.2) usage
      return (r₂.1.compose r₁.1, r₂.2)) := by
  rw [infer]
  rfl

/-- A let infers what it binds, meets what is assumed, and infers the usage with the result
generalized. -/
theorem yields_letIn {binder usage : Term} {x : CoreVar} :
    Yields (infer fuel Γ (.letIn binder x usage)) st (s, t) st' ↔
      ∃ s₀ t₀ st₀ s₁ t₁ st₁ s₂, Yields (infer fuel Γ binder) st (s₀, t₀) st₀ ∧
        Yields (meetAssumed fuel Γ x s₀ t₀) st₀ (s₁, t₁) st₁ ∧
        Yields (infer fuel (usageContext Γ s₁ x t₁) usage) st₁ (s₂, t) st' ∧
        s = s₂.compose s₁ := by
  rw [infer_letIn]
  simp only [yields_bind, yields_pure, Prod.exists, Prod.mk.injEq]
  constructor
  · intro h
    obtain ⟨s₀, t₀, st₀, h₀, s₁, t₁, st₁, h₁, s₂, t₂, st₂, h₂, ⟨rfl, rfl⟩, rfl⟩ := h
    exact ⟨s₀, t₀, st₀, s₁, t₁, st₁, s₂, h₀, h₁, h₂, rfl⟩
  · intro h
    obtain ⟨s₀, t₀, st₀, s₁, t₁, st₁, s₂, h₀, h₁, h₂, rfl⟩ := h
    exact ⟨s₀, t₀, st₀, h₀, s₁, t₁, st₁, h₁, s₂, t, st', h₂, ⟨rfl, rfl⟩, rfl⟩

theorem yields_number {text : String} :
    Yields (infer fuel Γ (.number text)) st (s, t) st' ↔
      s = Subst.empty ∧ t = Ty.number ∧ st' = st := by
  simp [yields_pure, and_assoc]

theorem yields_floating {text : String} :
    Yields (infer fuel Γ (.floating text)) st (s, t) st' ↔
      s = Subst.empty ∧ t = Ty.floating ∧ st' = st := by
  simp [yields_pure, and_assoc]

/-- A tuple has the types of its items. -/
theorem yields_tuple {items : List Term} :
    Yields (infer fuel Γ (.tuple items)) st (s, t) st' ↔
      ∃ ts, Yields (inferItems fuel Γ Subst.empty [] items) st (s, ts) st' ∧ t = .tuple ts := by
  rw [infer]
  simp only [yields_bind, yields_pure, Prod.exists, Prod.mk.injEq]
  constructor
  · intro h
    obtain ⟨s₁, ts, st₁, h₁, ⟨rfl, rfl⟩, rfl⟩ := h
    exact ⟨ts, h₁, rfl⟩
  · intro h
    obtain ⟨ts, h₁, rfl⟩ := h
    exact ⟨s, ts, st', h₁, ⟨rfl, rfl⟩, rfl⟩

theorem yields_items_nil {s₀ : Subst} {ts₀ ts : List Ty} :
    Yields (inferItems fuel Γ s₀ ts₀ []) st (s, ts) st' ↔ s = s₀ ∧ ts = ts₀ ∧ st' = st := by
  simp [yields_pure, and_assoc]

theorem yields_items_cons {s₀ : Subst} {ts₀ ts : List Ty} {item : Term} {rest : List Term} :
    Yields (inferItems fuel Γ s₀ ts₀ (item :: rest)) st (s, ts) st' ↔
      ∃ s₁ t₁ st₁, Yields (infer fuel (Γ.substitute s₀) item) st (s₁, t₁) st₁ ∧
        Yields (inferItems fuel Γ (s₁.compose s₀) (ts₀.map s₁.apply ++ [t₁]) rest) st₁
          (s, ts) st' := by
  rw [inferItems]
  simp only [yields_bind, Prod.exists, Subst.applyAll_eq_map]

end Terms

section Fuel

variable {α β : Type}

def GoesOn (x y : Infer α) : Prop := ∀ st r, x.run.run st = some r → y.run.run st = some r

theorem GoesOn.refl (x : Infer α) : GoesOn x x := fun _ _ h => h

theorem GoesOn.bind {x y : Infer α} {f g : α → Infer β} (hxy : GoesOn x y)
    (hfg : ∀ a, GoesOn (f a) (g a)) : GoesOn (x >>= f) (y >>= g) := by
  intro st r hr
  simp only [ExceptT.run_bind, StateT.run_bind] at hr ⊢
  cases hx : x.run.run st with
  | none => simp [hx] at hr
  | some e =>
    rw [hxy st e hx]
    rw [hx] at hr
    obtain ⟨e, st₁⟩ := e
    cases e with
    | error e => exact hr
    | ok a => exact hfg a st₁ r hr

/-- With more fuel, unification within inference keeps its answer. -/
theorem solve_goesOn {n m : Nat} (h : n ≤ m) (a b : Ty) : GoesOn (solve n a b) (solve m a b) := by
  intro st r hr
  unfold solve at hr ⊢
  cases hn : (unify n a b).run with
  | none =>
    rw [hn] at hr
    simp [ExceptT.run, ExceptT.mk, StateT.run] at hr
  | some e =>
    rw [hn] at hr
    rw [Unification.unify_goesOn h a b e hn]
    exact hr

theorem meetAssumed_goesOn {n m : Nat} (h : n ≤ m) (Γ : Context) (x : CoreVar) (s : Subst)
    (t : Ty) : GoesOn (meetAssumed n Γ x s t) (meetAssumed m Γ x s t) := by
  unfold meetAssumed
  split
  · exact GoesOn.bind (GoesOn.refl _) fun expected =>
      GoesOn.bind (solve_goesOn h expected t) fun _ => GoesOn.refl _
  · exact GoesOn.refl _

theorem inferItems_goesOn {n m : Nat} {items : List Term}
    (h : ∀ e ∈ items, ∀ Γ, GoesOn (infer n Γ e) (infer m Γ e)) (Γ : Context) (s : Subst)
    (ts : List Ty) : GoesOn (inferItems n Γ s ts items) (inferItems m Γ s ts items) := by
  induction items generalizing s ts with
  | nil =>
    rw [inferItems, inferItems]
    exact GoesOn.refl _
  | cons item rest ih =>
    rw [inferItems, inferItems]
    refine GoesOn.bind (h item (List.mem_cons_self ..) _) fun _ => ?_
    exact ih (fun e he => h e (List.mem_cons_of_mem _ he)) _ _

/-- More fuel keeps an answer. -/
theorem infer_goesOn {n m : Nat} (h : n ≤ m) (e : Term) (Γ : Context) :
    GoesOn (infer n Γ e) (infer m Γ e) := by
  induction e generalizing Γ with
  | var x =>
    rw [infer, infer]
    exact GoesOn.refl _
  | app arg func origin iharg ihfunc =>
    rw [infer, infer]
    refine GoesOn.bind (ihfunc Γ) fun _ => GoesOn.bind (iharg _) fun _ => ?_
    refine GoesOn.bind (GoesOn.refl _) fun _ => GoesOn.bind (solve_goesOn h _ _) fun _ => ?_
    exact GoesOn.refl _
  | lam x body origin ih =>
    rw [infer, infer]
    refine GoesOn.bind (GoesOn.refl _) fun _ => GoesOn.bind (ih _) fun _ => ?_
    exact GoesOn.refl _
  | letIn binder x usage ihbinder ihusage =>
    rw [infer, infer]
    refine GoesOn.bind (ihbinder Γ) fun _ => GoesOn.bind (meetAssumed_goesOn h _ _ _ _) fun _ => ?_
    exact GoesOn.bind (ihusage _) fun _ => GoesOn.refl _
  | number text =>
    rw [infer, infer]
    exact GoesOn.refl _
  | floating text =>
    rw [infer, infer]
    exact GoesOn.refl _
  | tuple items ih =>
    rw [infer, infer]
    exact GoesOn.bind (inferItems_goesOn (fun e he Γ => ih e he Γ) Γ _ _) fun _ => GoesOn.refl _

def Returns (Γ : Context) (e : Term) (st : State) (r : Except InferError (Subst × Ty) × State) :
    Prop :=
  ∃ n, ∀ fuel, n ≤ fuel → (infer fuel Γ e).run.run st = some r

theorem returns_of_run {fuel : Nat} {Γ : Context} {e : Term} {st : State}
    {r : Except InferError (Subst × Ty) × State} (h : (infer fuel Γ e).run.run st = some r) :
    Returns Γ e st r :=
  ⟨fuel, fun _ hle => infer_goesOn hle e Γ st r h⟩

theorem Returns.unique {Γ : Context} {e : Term} {st : State}
    {r r' : Except InferError (Subst × Ty) × State} (h : Returns Γ e st r)
    (h' : Returns Γ e st r') : r = r' := by
  obtain ⟨n, hn⟩ := h
  obtain ⟨n', hn'⟩ := h'
  have heq := (hn (max n n') (by omega)).symm.trans (hn' (max n n') (by omega))
  exact Option.some.inj heq

end Fuel

end Inference

end SemanticAnalysis
