import SemanticAnalysis.Proofs.Relabeling

/-!
Inference does not depend on where the supply starts. A renaming that keeps the
order of variables and moves all those to be issued by the same distance takes a
run of inference to a run of inference, in the renamed context and from the
renamed state; what is found, recorded or complained about is renamed. Where the
variables of a context were issued before, moving only the later ones leaves the
context as it is, and the two runs differ by the start of the supply alone.
-/

namespace SemanticAnalysis

open Ty

namespace InferError

def relabel (ρ : Relabeling) : InferError → InferError
  | .unknownVariable x => .unknownVariable x
  | .infiniteType v t => .infiniteType (ρ v) (t.relabel ρ)
  | .cannotUnify a b => .cannotUnify (a.relabel ρ) (b.relabel ρ)

theorem relabel_ofUnify (ρ : Relabeling) (e : UnifyError) :
    (ofUnify e).relabel ρ = ofUnify (Unification.relabelError ρ e) := by
  cases e <;> rfl

end InferError

namespace Inference

section Following

def State.relabel (ρ : Relabeling) (st : State) : State :=
  ⟨⟨(ρ st.next).index⟩, st.judgements.map fun judgement => (judgement.1, judgement.2.relabel ρ)⟩

variable {α β γ δ : Type} {ρ : Relabeling} {n : Nat} {f : α → β} {g : γ → δ}

def relabelResult (ρ : Relabeling) (f : α → β) : Except InferError α → Except InferError β
  | .ok a => .ok (f a)
  | .error e => .error (e.relabel ρ)

def relabelOutcome (ρ : Relabeling) (f : α → β) (r : Except InferError α × State) :
    Except InferError β × State :=
  (relabelResult ρ f r.1, r.2.relabel ρ)

/-- A computation does from a renamed state what another one does from the state itself, once the
count of issued variables has reached a number. -/
def Follows (ρ : Relabeling) (n : Nat) (f : α → β) (x : Infer α) (y : Infer β) : Prop :=
  ∀ st, n ≤ st.supply.issued →
    y.run.run (st.relabel ρ) = (x.run.run st).map (relabelOutcome ρ f)

theorem follows_pure (a : α) : Follows ρ n f (pure a) (pure (f a)) := fun _ _ => rfl

theorem follows_throw (e : InferError) : Follows ρ n f (throw e) (throw (e.relabel ρ)) :=
  fun _ _ => rfl

/-- Computations in a row follow step by step, since the count never falls below the number. -/
theorem Follows.bind {x : Infer α} {y : Infer β} {k : α → Infer γ} {k' : β → Infer δ}
    (hx : Follows ρ n f x y) (hgrows : Grows x) (hk : ∀ a, Follows ρ n g (k a) (k' (f a))) :
    Follows ρ n g (x >>= k) (y >>= k') := by
  intro st hst
  simp only [ExceptT.run_bind, StateT.run_bind, hx st hst]
  cases hrun : x.run.run st with
  | none => rfl
  | some r =>
    obtain ⟨r, st₁⟩ := r
    cases r with
    | error e => rfl
    | ok a => exact hk a st₁ (Nat.le_trans hst (hgrows.of_run hrun))

def relabelPair (ρ : Relabeling) (r : Subst × Ty) : Subst × Ty := (r.1.relabel ρ, r.2.relabel ρ)

theorem follows_pair (s : Subst) (t : Ty) :
    Follows ρ n (relabelPair ρ) (pure (s, t)) (pure (s.relabel ρ, t.relabel ρ)) :=
  follows_pure (s, t)

end Following

section Steps

variable {ρ : Relabeling} {n fuel : Nat}

theorem freshVar_follows (hρ : ρ.TranslatesFrom n) :
    Follows ρ n (Ty.relabel ρ) freshVar freshVar := by
  intro st hst
  have hnext : (ρ ⟨st.supply.issued + 1⟩).index = (ρ ⟨st.supply.issued⟩).index + 1 :=
    congrArg TyVar.index (hρ.mono hst 1)
  have hstate : (st.relabel ρ).advanced = st.advanced.relabel ρ := by
    simp only [State.relabel, State.advanced, State.next, hnext]
  have hvar : Ty.var (st.relabel ρ).next = (Ty.var st.next).relabel ρ := by
    rw [relabel_var]
    rfl
  have hrun : freshVar.run.run (st.relabel ρ) =
    some (.ok (.var (st.relabel ρ).next), (st.relabel ρ).advanced) := rfl
  rw [hrun, hvar, hstate]
  rfl

theorem instantiate_follows (hρ : ρ.TranslatesFrom n) (σ : Scheme) :
    Follows ρ n (Ty.relabel ρ) (instantiate σ) (instantiate (σ.relabel ρ)) := by
  intro st hst
  have hσ := Scheme.instantiate_relabel (hρ.mono hst) σ
  have hrun : (instantiate (σ.relabel ρ)).run.run (st.relabel ρ) =
    some (.ok ((σ.relabel ρ).instantiate (st.relabel ρ).supply).1,
      { st.relabel ρ with supply := ((σ.relabel ρ).instantiate (st.relabel ρ).supply).2 }) := rfl
  have hsupply : (st.relabel ρ).supply = ⟨(ρ ⟨st.supply.issued⟩).index⟩ := rfl
  rw [hrun, hsupply, hσ]
  rfl

theorem record_follows (origin : Option NodeId) (t : Ty) :
    Follows ρ n id (record origin t) (record origin (t.relabel ρ)) := by
  intro st _
  cases origin with
  | none => rfl
  | some node =>
    have hnotes : (st.judgements ++ [(node, t)]).map
        (fun judgement => (judgement.1, judgement.2.relabel ρ)) =
          st.judgements.map (fun judgement => (judgement.1, judgement.2.relabel ρ)) ++
            [(node, t.relabel ρ)] := by simp
    have hstate : (st.relabel ρ).noted (some node) (t.relabel ρ) =
        (st.noted (some node) t).relabel ρ := by
      simp only [State.relabel, State.noted, hnotes, State.next]
    exact congrArg (fun st => some (Except.ok (), st)) hstate

theorem solve_follows (fuel : Nat) (a b : Ty) :
    Follows ρ n (Subst.relabel ρ) (solve fuel a b)
      (solve fuel (a.relabel ρ) (b.relabel ρ)) := by
  unfold solve
  rw [Unification.unify_relabel]
  rcases (unify fuel a b).run with _ | e | s
  · exact fun _ _ => rfl
  · have hthrow : Follows ρ n (Subst.relabel ρ) (throw (.ofUnify e)) _ := follows_throw (.ofUnify e)
    rwa [InferError.relabel_ofUnify] at hthrow
  · exact follows_pure s

/-- A binder takes the renamed type. -/
theorem binderType_follows (hρ : ρ.TranslatesFrom n) (Γ : Context) (x : CoreVar) :
    Follows ρ n (Ty.relabel ρ) (binderType Γ x) (binderType (Γ.relabel ρ) x) := by
  unfold binderType
  rw [Context.get?_relabel]
  cases x with
  | decl node =>
    cases Γ.get? (.decl node) with
    | none => exact freshVar_follows hρ
    | some σ =>
      simp only [Option.map_some, Scheme.isMono_relabel]
      split
      · exact follows_pure σ.body
      · exact freshVar_follows hρ
  | synthetic number => exact freshVar_follows hρ
  | builtin b => exact freshVar_follows hρ

/-- Meeting what is assumed gives the renamed substitution and type. -/
theorem meetAssumed_follows (hρ : ρ.TranslatesFrom n) (Γ : Context) (x : CoreVar) (s : Subst)
    (t : Ty) :
    Follows ρ n (relabelPair ρ) (meetAssumed fuel Γ x s t)
      (meetAssumed fuel (Γ.relabel ρ) x (s.relabel ρ) (t.relabel ρ)) := by
  unfold meetAssumed
  rw [Context.get?_relabel]
  cases x with
  | decl node =>
    cases Γ.get? (.decl node) with
    | none => exact follows_pair s t
    | some σ =>
      simp only [Option.map_some, Scheme.substitute_relabel]
      refine (instantiate_follows hρ _).bind (instantiate_grows _) fun expected => ?_
      refine (solve_follows fuel expected t).bind (solve_grows _ _) fun r => ?_
      have hpair := follows_pair (ρ := ρ) (n := n) (r.compose s) (r.apply t)
      rw [Subst.relabel_compose, ← Subst.apply_relabel] at hpair
      exact hpair
  | synthetic number => exact follows_pair s t
  | builtin b => exact follows_pair s t

theorem usageContext_relabel (Γ : Context) (s : Subst) (x : CoreVar) (t : Ty) :
    (usageContext Γ s x t).relabel ρ =
      usageContext (Γ.relabel ρ) (s.relabel ρ) x (t.relabel ρ) := by
  unfold usageContext
  rw [Context.relabel_insert, Context.relabel_generalize, Context.relabel_erase,
    Context.relabel_substitute]

end Steps

section Terms

variable {ρ : Relabeling} {n fuel : Nat}

/-- The items of a tuple, with the types found for earlier items renamed along. -/
theorem inferItems_follows {items : List Term}
    (hitems : ∀ e ∈ items, ∀ Γ,
      Follows ρ n (relabelPair ρ) (infer fuel Γ e) (infer fuel (Γ.relabel ρ) e))
    (Γ : Context) (s : Subst) (ts : List Ty) :
    Follows ρ n (Prod.map (Subst.relabel ρ) (List.map (Ty.relabel ρ)))
      (inferItems fuel Γ s ts items)
      (inferItems fuel (Γ.relabel ρ) (s.relabel ρ) (ts.map (Ty.relabel ρ)) items) := by
  induction items generalizing s ts with
  | nil =>
    rw [inferItems, inferItems]
    exact follows_pure (s, ts)
  | cons e rest ih =>
    rw [inferItems, inferItems]
    have he := hitems e (List.mem_cons_self ..) (Γ.substitute s)
    rw [Context.relabel_substitute] at he
    refine he.bind (infer_grows e _) fun r => ?_
    have hrest := ih (fun e he => hitems e (List.mem_cons_of_mem _ he)) (r.1.compose s)
      (Subst.applyAll r.1 ts ++ [r.2])
    have hts : (Subst.applyAll r.1 ts ++ [r.2]).map (Ty.relabel ρ) =
        Subst.applyAll (r.1.relabel ρ) (ts.map (Ty.relabel ρ)) ++ [r.2.relabel ρ] := by
      simp [Subst.applyAll_eq_map, Subst.apply_relabel]
    rw [Subst.relabel_compose, hts] at hrest
    exact hrest

/-- Inference in a renamed context follows inference in the context. -/
theorem infer_follows (hρ : ρ.TranslatesFrom n) (e : Term) (Γ : Context) :
    Follows ρ n (relabelPair ρ) (infer fuel Γ e) (infer fuel (Γ.relabel ρ) e) := by
  induction e generalizing Γ with
  | var x =>
    rw [infer, infer, Context.get?_relabel]
    cases Γ.get? x with
    | none => exact follows_throw (.unknownVariable x)
    | some σ =>
      refine (instantiate_follows hρ σ).bind (instantiate_grows σ) fun t => ?_
      exact follows_pair Subst.empty t
  | app arg func origin iharg ihfunc =>
    rw [infer, infer]
    refine (ihfunc Γ).bind (infer_grows func Γ) fun r₁ => ?_
    have harg := iharg (Γ.substitute r₁.1)
    rw [Context.relabel_substitute] at harg
    refine harg.bind (infer_grows arg _) fun r₂ => ?_
    refine (freshVar_follows hρ).bind freshVar_grows fun result => ?_
    have hsolve := solve_follows (ρ := ρ) (n := n) fuel (r₂.1.apply r₁.2) (.fn r₂.2 result)
    rw [← Subst.apply_relabel, relabel_fn] at hsolve
    refine hsolve.bind (solve_grows _ _) fun s₃ => ?_
    have hrecord := record_follows (ρ := ρ) (n := n) origin (s₃.apply result)
    rw [← Subst.apply_relabel] at hrecord
    refine hrecord.bind (record_grows origin _) fun _ => ?_
    have hpair := follows_pair (ρ := ρ) (n := n) ((s₃.compose r₂.1).compose r₁.1)
      (s₃.apply result)
    rw [Subst.relabel_compose, Subst.relabel_compose, ← Subst.apply_relabel] at hpair
    exact hpair
  | lam x body origin ih =>
    rw [infer, infer]
    refine (binderType_follows hρ Γ x).bind (binderType_grows Γ x) fun input => ?_
    have hbody := ih (Γ.insert x (Scheme.mono input))
    rw [Context.relabel_insert, Scheme.relabel_mono] at hbody
    refine hbody.bind (infer_grows body _) fun r => ?_
    have hrecord := record_follows (ρ := ρ) (n := n) origin (.fn (r.1.apply input) r.2)
    rw [relabel_fn, ← Subst.apply_relabel] at hrecord
    refine hrecord.bind (record_grows origin _) fun _ => ?_
    have hpair := follows_pair (ρ := ρ) (n := n) r.1 (.fn (r.1.apply input) r.2)
    rw [relabel_fn, ← Subst.apply_relabel] at hpair
    exact hpair
  | letIn binder x usage ihbinder ihusage =>
    rw [infer_letIn, infer_letIn]
    refine (ihbinder Γ).bind (infer_grows binder Γ) fun r₀ => ?_
    refine (meetAssumed_follows hρ Γ x r₀.1 r₀.2).bind (meetAssumed_grows Γ x _ _) fun r₁ => ?_
    have husage := ihusage (usageContext Γ r₁.1 x r₁.2)
    rw [usageContext_relabel] at husage
    refine husage.bind (infer_grows usage _) fun r₂ => ?_
    have hpair := follows_pair (ρ := ρ) (n := n) (r₂.1.compose r₁.1) r₂.2
    rw [Subst.relabel_compose] at hpair
    exact hpair
  | number text =>
    rw [infer, infer]
    exact follows_pair Subst.empty Ty.number
  | floating text =>
    rw [infer, infer]
    exact follows_pair Subst.empty Ty.floating
  | tuple items ih =>
    rw [infer, infer]
    refine (inferItems_follows ih Γ Subst.empty []).bind
      (inferItems_grows (fun e _ => infer_grows e) Γ _ _) fun r => ?_
    have hpair := follows_pair (ρ := ρ) (n := n) r.1 (.tuple r.2)
    rw [relabel_tuple] at hpair
    exact hpair

end Terms

section Shift

variable {n : Nat} {Γ : Context}

theorem relabel_of_issued (h : Γ.Issued n) (k : Nat) : Γ.relabel (.shift n k) = Γ :=
  Context.relabel_of_fixed fun x σ hx v hv => Relabeling.shift_of_lt (h x σ hx v hv)

def State.shift (n k : Nat) (st : State) : State :=
  ⟨⟨st.supply.issued + k⟩,
    st.judgements.map fun judgement => (judgement.1, judgement.2.relabel (.shift n k))⟩

theorem relabel_shift {st : State} (h : n ≤ st.supply.issued) (k : Nat) :
    st.relabel (.shift n k) = st.shift n k := by
  have hnext : Relabeling.shift n k st.next = ⟨st.supply.issued + k⟩ := Relabeling.shift_of_le h
  rw [State.relabel, hnext, State.shift]

/-- With the variables of a context issued before, a run from a later start of the supply is the
run from the first one, moved up. -/
theorem infer_start_shift (hΓ : Γ.Issued n) (fuel k : Nat) (e : Term) :
    (infer fuel Γ e).run.run (State.start ⟨n + k⟩) =
      ((infer fuel Γ e).run.run (State.start ⟨n⟩)).map
        (relabelOutcome (.shift n k) (relabelPair (.shift n k))) := by
  have hfollows : Follows (.shift n k) n (relabelPair (.shift n k)) (infer fuel Γ e)
      (infer fuel (Γ.relabel (.shift n k)) e) :=
    infer_follows (Relabeling.translatesFrom_shift n k) e Γ
  rw [relabel_of_issued hΓ] at hfollows
  have hrun := hfollows (State.start ⟨n⟩) (Nat.le_refl n)
  rw [relabel_shift (Nat.le_refl n)] at hrun
  exact hrun

/-- Where the variables of a context were issued before the supply's start, a later start gives
the same outcome up to the distance: a substitution and a type, or an error of the same kind, with
the variables from the start on moved up, as many variables drawn, and the judgements moved up. -/
theorem inference_supply_independent (hΓ : Γ.Issued n) (e : Term) (k : Nat)
    (r' : Except InferError (Subst × Ty)) (st' : State) :
    Returns Γ e (State.start ⟨n + k⟩) (r', st') ↔
      ∃ r st, Returns Γ e (State.start ⟨n⟩) (r, st) ∧
        r' = relabelResult (.shift n k) (relabelPair (.shift n k)) r ∧ st' = st.shift n k := by
  constructor
  · intro h
    obtain ⟨fuel, hfuel⟩ := h
    have hrun := hfuel fuel (Nat.le_refl fuel)
    rw [infer_start_shift hΓ, Option.map_eq_some_iff] at hrun
    obtain ⟨⟨r, st⟩, hrun, heq⟩ := hrun
    have hle : n ≤ st.supply.issued := (infer_grows e Γ).of_run hrun
    rw [relabelOutcome, relabel_shift hle, Prod.mk.injEq] at heq
    exact ⟨r, st, returns_of_run hrun, heq.1.symm, heq.2.symm⟩
  · intro h
    obtain ⟨r, st, ⟨fuel, hfuel⟩, hr, hst⟩ := h
    have hrun := hfuel fuel (Nat.le_refl fuel)
    have hle : n ≤ st.supply.issued := (infer_grows e Γ).of_run hrun
    have hlater : (infer fuel Γ e).run.run (State.start ⟨n + k⟩) = some (r', st') := by
      rw [infer_start_shift hΓ, hrun, Option.map_some, relabelOutcome, relabel_shift hle, hr, hst]
    exact returns_of_run hlater

/-- A name for a function from any type to what stands for one variable. -/
def constantly : Context :=
  OrderedMap.ofList [(.synthetic 0, ⟨OrderedSet.ofList [⟨0⟩], .fn (.var ⟨0⟩) (.var ⟨1⟩)⟩)]

/-- From the first variable after those of the context, and five later: a function that calls the
named one, and a function that calls its input with itself. -/
theorem inference_supply_independent_five :
    let x := Term.var (.synthetic 1)
    (∃ s, Returns constantly
        (.lam (.synthetic 1) (.app x (.var (.synthetic 0)) (some ⟨0⟩)) (some ⟨1⟩))
        (State.start ⟨2 + 5⟩)
        (.ok (s, .fn (.var ⟨7⟩) (.var ⟨9⟩)),
          ⟨⟨10⟩, [(⟨0⟩, .var ⟨9⟩), (⟨1⟩, .fn (.var ⟨7⟩) (.var ⟨9⟩))]⟩) ∧
      s.get? ⟨1⟩ = some (.var ⟨9⟩)) ∧
    Returns constantly (.lam (.synthetic 1) (.app x x none) none) (State.start ⟨2 + 5⟩)
      (.error (.infiniteType ⟨7⟩ (.fn (.var ⟨7⟩) (.var ⟨8⟩))), ⟨⟨9⟩, []⟩) := by
  intro x
  have hΓ : constantly.Issued 2 := by decide
  constructor
  · obtain ⟨s, hrun, hs⟩ : ∃ s, (infer 3 constantly
        (.lam (.synthetic 1) (.app x (.var (.synthetic 0)) (some ⟨0⟩)) (some ⟨1⟩))).run.run
        (State.start ⟨2⟩) = some (.ok (s, .fn (.var ⟨2⟩) (.var ⟨4⟩)),
          ⟨⟨5⟩, [(⟨0⟩, .var ⟨4⟩), (⟨1⟩, .fn (.var ⟨2⟩) (.var ⟨4⟩))]⟩) ∧
        s.get? ⟨1⟩ = some (.var ⟨4⟩) := by
      refine ⟨_, rfl, ?_⟩
      rfl
    refine ⟨s.relabel (.shift 2 5), (inference_supply_independent hΓ _ 5 _ _).2
      ⟨_, _, returns_of_run hrun, rfl, rfl⟩, ?_⟩
    have hget : (s.relabel (.shift 2 5)).get? (Relabeling.shift 2 5 ⟨1⟩) = _ :=
      OrderedMap.get?_relabel s ⟨1⟩
    rw [hs] at hget
    exact hget
  · have hrun : (infer 3 constantly (.lam (.synthetic 1) (.app x x none) none)).run.run
        (State.start ⟨2⟩) =
          some (.error (.infiniteType ⟨2⟩ (.fn (.var ⟨2⟩) (.var ⟨3⟩))), ⟨⟨4⟩, []⟩) := rfl
    exact (inference_supply_independent hΓ _ 5 _ _).2 ⟨_, _, returns_of_run hrun, rfl, rfl⟩

end Shift

end Inference

end SemanticAnalysis
