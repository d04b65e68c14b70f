import SemanticAnalysis.Proofs.InferenceSoundness
import SemanticAnalysis.Proofs.InferenceVisits

/-!
What a let quantifies. The variable is taken out of the context before the type
of what it is bound to is generalized, so its scheme quantifies what no other
entry has free. It leaves the whole context alone, the entry that the let hides
included, when every variable that this entry still has free is free in another
one as well. Under lets that bind no name again whose type is still open, this
holds of every let that inference comes to.
-/

namespace SemanticAnalysis

namespace Context

def FreeAt (Γ : Context) (x : CoreVar) (v : TyVar) : Prop := ∃ σ, Γ.get? x = some σ ∧ σ.Free v

def FreeBeside (Γ : Context) (x : CoreVar) (v : TyVar) : Prop :=
  ∃ y σ, y ≠ x ∧ Γ.get? y = some σ ∧ σ.Free v

variable {Γ : Context} {x : CoreVar} {v : TyVar}

/-- What is free in a context is free in the entry of a variable or in another one. -/
theorem free_iff_at_or_beside (x : CoreVar) : Γ.Free v ↔ Γ.FreeAt x v ∨ Γ.FreeBeside x v := by
  constructor
  · intro h
    obtain ⟨y, σ, hy, hv⟩ := h
    by_cases hyx : y = x
    · subst hyx
      exact Or.inl ⟨σ, hy, hv⟩
    · exact Or.inr ⟨y, σ, hyx, hy, hv⟩
  · intro h
    rcases h with ⟨σ, hx, hv⟩ | ⟨y, σ, -, hy, hv⟩
    · exact ⟨x, σ, hx, hv⟩
    · exact ⟨y, σ, hy, hv⟩

theorem free_erase_iff_beside : Free (OrderedMap.erase Γ x) v ↔ Γ.FreeBeside x v := by
  constructor
  · intro h
    obtain ⟨y, σ, hy, hv⟩ := h
    rw [OrderedMap.get?_erase] at hy
    by_cases hyx : y = x
    · simp [hyx] at hy
    · exact ⟨y, σ, hyx, by simpa [hyx] using hy, hv⟩
  · intro h
    obtain ⟨y, σ, hyx, hy, hv⟩ := h
    exact ⟨y, σ, by simp [OrderedMap.get?_erase, hyx, hy], hv⟩

end Context

/-- The scheme quantifies nothing that the context has free. -/
def Scheme.Respects (σ : Scheme) (Γ : Context) : Prop :=
  ∀ v, Γ.Free v → σ.bound.contains v = false

namespace Inference

section Schemes

variable {Γ : Context} {s : Subst} {x : CoreVar} {t : Ty}

def letScheme (Γ : Context) (s : Subst) (x : CoreVar) (t : Ty) : Scheme :=
  Context.generalize (OrderedMap.erase (Γ.substitute s) x) t

theorem usageContext_eq_insert :
    usageContext Γ s x t = (Γ.substitute s).insert x (letScheme Γ s x t) :=
  Context.erase_insert _ x _

theorem bound_letScheme {v : TyVar} :
    (letScheme Γ s x t).bound.contains v ↔ v ∈ t.vars ∧ ¬ (Γ.substitute s).FreeBeside x v := by
  rw [letScheme, Context.bound_generalize, Context.free_erase_iff_beside]

/-- A let quantifies too much exactly where it hides the one entry that has a variable free. -/
theorem respects_letScheme_iff :
    (letScheme Γ s x t).Respects (Γ.substitute s) ↔ ∀ v ∈ t.vars, (Γ.substitute s).FreeAt x v →
      (Γ.substitute s).FreeBeside x v := by
  constructor
  · intro h v hv hat
    by_contra hbeside
    have hbound := bound_letScheme.2 ⟨hv, hbeside⟩
    simp [h v ((Context.free_iff_at_or_beside x).2 (Or.inl hat))] at hbound
  · intro h v hfree
    by_contra hbound
    obtain ⟨hv, hbeside⟩ := bound_letScheme.1 (by simpa using hbound)
    rcases (Context.free_iff_at_or_beside x).1 hfree with hat | hbeside'
    · exact hbeside (h v hv hat)
    · exact hbeside hbeside'

end Schemes

section Guarding

/-- The context of the query is hygienic, and no let of its term binds again what the context
has open or what is bound around it. -/
structure Guarded (taken : CoreVar → Bool) (q : Query) : Prop where
  hygienic : q.context.Hygienic q.state.supply.issued
  open_taken : ∀ x, q.context.bindsOpen x → taken x
  lets : q.term.rebindsNone .lets taken

variable {taken : CoreVar → Bool} {q q' : Query} {Γ : Context} {st st' : State} {s : Subst} {t : Ty}

/-- What holds of the context holds of it under a substitution that inference found. -/
theorem Guarded.substitute {e : Term} (hΓ : Γ.Hygienic st.supply.issued)
    (hopen : ∀ x, Γ.bindsOpen x → taken x) (he : e.rebindsNone .lets taken)
    (h : Γ.Mentions st.supply.issued st'.supply.issued s t) :
    Guarded taken ⟨Γ.substitute s, e, st'⟩ where
  hygienic := hΓ.substitute h.subst h.le
  open_taken := taken_substitute hopen (hΓ.apart h.subst)
  lets := he

theorem Guarded.closed {binder usage : Term} {x : CoreVar}
    (h : Guarded taken ⟨Γ, .letIn binder x usage, st⟩) : Γ.bindsOpen x = false := by
  have hlets := h.lets
  simp only [Term.rebindsNone, Bool.and_eq_true, Bool.not_eq_true'] at hlets
  by_contra hopen
  simp [h.open_taken x (by simpa using hopen)] at hlets

/-- The step: what is entered is guarded too, with the binder that was passed. -/
theorem Guarded.enters (h : Guarded taken q) (hq : Enters q q') : ∃ taken', Guarded taken' q' := by
  obtain ⟨hΓ, hopen, hlets⟩ := h
  cases hq with
  | func =>
    simp only [Term.rebindsNone, Bool.and_eq_true] at hlets
    exact ⟨taken, hΓ, hopen, hlets.2⟩
  | arg hfunc =>
    obtain ⟨n, hn⟩ := hfunc
    simp only [Term.rebindsNone, Bool.and_eq_true] at hlets
    exact ⟨taken, .substitute hΓ hopen hlets.1 (mentions_of_infer hn)⟩
  | @body Γ x body origin st i st₁ hbind =>
    obtain ⟨hle, hreach⟩ := binderType_reaches hbind
    simp only [Term.rebindsNone, Bool.and_eq_true] at hlets
    exact ⟨fun y => y = x || taken y, hΓ.insert_mono x hreach hle,
      Term.taken_of_bound hopen fun _ => Context.bindsOpen_insert, hlets.2⟩
  | binder =>
    simp only [Term.rebindsNone, Bool.and_eq_true] at hlets
    exact ⟨taken, hΓ, hopen, hlets.1.2⟩
  | @usage Γ binder x usage st s₀ t₀ st₀ s t st₁ hbinder hmeet =>
    obtain ⟨n, hn⟩ := hbinder
    obtain ⟨m, hm⟩ := hmeet
    have hmentions := mentions_of_meetAssumed (mentions_of_infer hn) hm
    have hopen' := taken_substitute hopen (hΓ.apart hmentions.subst)
    simp only [Term.rebindsNone, Bool.and_eq_true] at hlets
    refine ⟨fun y => y = x || taken y, hygienic_usageContext hΓ hmentions, ?_, hlets.2⟩
    rw [usageContext_eq_insert]
    exact Term.taken_of_bound hopen' fun _ => Context.bindsOpen_insert
  | @item Γ before item after st s ts st₁ hbefore =>
    obtain ⟨n, hn⟩ := hbefore
    have hmentions := inferItems_mentions (fun _ _ _ _ _ _ _ h => mentions_of_infer h)
      (Context.Mentions.empty (Nat.le_refl _) (by simp [Ty.mem_vars_tuple])) hn
    simp only [Term.rebindsNone, Term.rebindNone_iff] at hlets
    exact ⟨taken, .substitute hΓ hopen (hlets item (by simp)) hmentions⟩

/-- The run: every query that inference comes to is guarded if the first one is. -/
theorem Guarded.visits (h : Guarded taken q) (hq : Visits q q') :
    ∃ taken', Guarded taken' q' := by
  induction hq with
  | refl => exact ⟨taken, h⟩
  | tail _ hstep ih =>
    obtain ⟨taken', h'⟩ := ih
    exact h'.enters hstep

theorem respects_of_guarded {binder usage : Term} {x : CoreVar}
    (h : Guarded taken ⟨Γ, .letIn binder x usage, st⟩) (hs : Γ.Apart s) :
    (letScheme Γ s x t).Respects (Γ.substitute s) := by
  refine respects_letScheme_iff.2 fun v _ hat => ?_
  obtain ⟨σ, hσ, hv⟩ := hat
  have hopen := Context.bindsOpen_of_substitute hs (Context.bindsOpen_iff.2 ⟨σ, v, hσ, hv⟩)
  simp [h.closed] at hopen

end Guarding

/-- The scheme that a let gives its variable quantifies the variables of the type that are free
in no entry but the hidden one. So it respects the whole context when the hidden entry has
nothing of the type free for itself, and it always does so, at every let that inference of a
term comes to, if no let of the term binds again a name whose type is still open. -/
theorem let_generalization {Γ₀ Γ : Context} {e binder usage : Term} {x : CoreVar} {fuel : Nat}
    {st₀ st st₁ st₂ : State} {s s₁ : Subst} {t t₁ : Ty}
    (hvisit : Visits ⟨Γ₀, e, st₀⟩ ⟨Γ, .letIn binder x usage, st⟩)
    (hbinder : Yields (infer fuel Γ binder) st (s, t) st₁)
    (hmeet : Yields (meetAssumed fuel Γ x s t) st₁ (s₁, t₁) st₂) :
    ∃ σ : Scheme, (infer fuel Γ (.letIn binder x usage)).run.run st =
        (do let r ← infer fuel ((Γ.substitute s₁).insert x σ) usage
            return (r.1.compose s₁, r.2) : Infer (Subst × Ty)).run.run st₂ ∧
      σ.body = t₁ ∧
      (∀ v, σ.bound.contains v ↔ v ∈ t₁.vars ∧ ¬ (Γ.substitute s₁).FreeBeside x v) ∧
      (σ.Respects (Γ.substitute s₁) ↔ ∀ v ∈ t₁.vars, (Γ.substitute s₁).FreeAt x v →
        (Γ.substitute s₁).FreeBeside x v) ∧
      (Γ₀.Hygienic st₀.supply.issued → e.rebindsNone .lets Γ₀.bindsOpen →
        σ.Respects (Γ.substitute s₁)) := by
  refine ⟨letScheme Γ s₁ x t₁, ?_, rfl, fun v => bound_letScheme, respects_letScheme_iff, ?_⟩
  · rw [infer_letIn, run_bind_of_yields hbinder, run_bind_of_yields hmeet, usageContext_eq_insert]
  · intro hΓ₀ he
    have hstart : Guarded Γ₀.bindsOpen ⟨Γ₀, e, st₀⟩ := ⟨hΓ₀, fun _ h => h, he⟩
    obtain ⟨taken, hlet⟩ := hstart.visits hvisit
    have hmentions := mentions_of_meetAssumed (mentions_of_infer hbinder) hmeet
    exact respects_of_guarded hlet (hlet.hygienic.apart hmentions.subst)

/-- A name with the scheme of the identity, around `x => let name = x in name`. -/
def declaredName : Context :=
  OrderedMap.ofList [(.synthetic 1, Scheme.closed (.fn (.var ⟨0⟩) (.var ⟨0⟩)))]

def hidingLet : Term :=
  .letIn (.var (.synthetic 0)) (.synthetic 1) (.var (.synthetic 1))

/-- The hidden entry is closed, so the name gets the type of `x` and quantifies nothing. -/
theorem let_generalization_hiding :
    let Γ : Context := declaredName.insert (.synthetic 0) (Scheme.mono (.var ⟨1⟩))
    Visits ⟨declaredName, .lam (.synthetic 0) hidingLet none, State.start ⟨1⟩⟩
        ⟨Γ, hidingLet, State.start ⟨2⟩⟩ ∧
      declaredName.Hygienic 1 ∧ Term.rebindsNone .lets declaredName.bindsOpen
        (.lam (.synthetic 0) hidingLet none) ∧
      ∃ σ : Scheme, σ.body = .var ⟨1⟩ ∧ σ.Respects (Γ.substitute Subst.empty) := by
  intro Γ
  have hvisit : Visits ⟨declaredName, .lam (.synthetic 0) hidingLet none, State.start ⟨1⟩⟩
      ⟨Γ, hidingLet, State.start ⟨2⟩⟩ :=
    .single (.body (yields_freshVar.2 ⟨rfl, rfl⟩))
  have hΓ : declaredName.Hygienic 1 := by decide
  have he : Term.rebindsNone .lets declaredName.bindsOpen (.lam (.synthetic 0) hidingLet none) := by
    decide
  have hbinder : Yields (infer 0 Γ (.var (.synthetic 0))) (State.start ⟨2⟩) (Subst.empty, .var ⟨1⟩)
      (State.start ⟨2⟩) := rfl
  have hmeet : Yields (meetAssumed 0 Γ (.synthetic 1) Subst.empty (.var ⟨1⟩)) (State.start ⟨2⟩)
      (Subst.empty, .var ⟨1⟩) (State.start ⟨2⟩) := rfl
  obtain ⟨σ, -, hbody, -, -, hrespects⟩ := let_generalization hvisit hbinder hmeet
  exact ⟨hvisit, hΓ, he, σ, hbody, hrespects hΓ he⟩

/-- In `x => let x = x in x` the parameter has the type `a`, which is free in the context, and
the let quantifies it: the term is given the type `a -> b`. -/
theorem rebinding_let_quantifies_context :
    let Γ : Context := OrderedMap.empty.insert (.synthetic 0) (Scheme.mono (.var ⟨0⟩))
    Yields (infer 0 Γ (.var (.synthetic 0))) (State.start ⟨1⟩) (Subst.empty, .var ⟨0⟩)
        (State.start ⟨1⟩) ∧
      (Γ.substitute Subst.empty).Free ⟨0⟩ ∧
      (letScheme Γ Subst.empty (.synthetic 0) (.var ⟨0⟩)).bound.contains ⟨0⟩ ∧
      ∃ s, Yields (infer 0 OrderedMap.empty (.lam (.synthetic 0)
          (.letIn (.var (.synthetic 0)) (.synthetic 0) (.var (.synthetic 0))) none))
        (State.start ⟨0⟩) (s, .fn (.var ⟨0⟩) (.var ⟨1⟩)) (State.start ⟨2⟩) := by
  refine ⟨rfl, ?_, by decide, Subst.empty, rfl⟩
  exact Context.contains_freeVars.1 (by decide)

end Inference

end SemanticAnalysis
