import SemanticAnalysis.Proofs.LoweringScopes

/-!
Types of parameters. Lowering assumes the declared types of the parameters of the
functions and lambdas that it comes to, and whether it succeeds or fails it assumes
nothing else about them.
-/

namespace SemanticAnalysis.Lowering

variable {t : Tree} {f : Forest} {n p : NodeId} {params : List NodeId} {Γ Δ : Context}
  {st st₁ st₂ : Lowering}

def AbstractsAt (f : Forest) (n : NodeId) (params : List NodeId) : Prop :=
  ∃ k body, f.kind? n = some k ∧ Abstracts k params body

def Declares (f : Forest) (p : NodeId) (A : Ty) : Prop :=
  ∃ n params name e, AbstractsAt f n params ∧ p ∈ params ∧
    f.kind? p = some (.parameter name (some e)) ∧ evalType f e = .ok A

theorem Declares.vars {A : Ty} (h : Declares f p A) : A.vars = [] := by
  obtain ⟨_, _, _, _, _, _, _, heval⟩ := h
  exact vars_of_evalType heval

/-- Lowering went from one state to another: it forgot nothing, and assumed nothing about a
parameter but the type that it is declared with. -/
structure Careful (f : Forest) (st st' : Lowering) : Prop where
  kept : ∀ v, st.assumptions.contains v = true → st'.assumptions.contains v = true
  declared : ∀ p A σ, Declares f p A → st'.assumptions.get? (.decl p) = some σ →
    st.assumptions.get? (.decl p) = some σ ∨ σ = Scheme.mono A

theorem Careful.of_eq (h : st₁.assumptions = st.assumptions) : Careful f st st₁ where
  kept v hv := by rwa [h]
  declared p A σ _ hσ := Or.inl (h ▸ hσ)

theorem Careful.trans (h₁ : Careful f st st₁) (h₂ : Careful f st₁ st₂) : Careful f st st₂ where
  kept v hv := h₂.kept v (h₁.kept v hv)
  declared p A σ hA hσ := (h₂.declared p A σ hA hσ).elim (h₁.declared p A σ hA) Or.inr

def Steady {α : Type} (f : Forest) (x : Lower α) : Prop :=
  ∀ st, Lands x st (fun _ st' => Careful f st st') fun _ st' => Careful f st st'

variable {α β : Type}

theorem steady_pure (a : α) : Steady f (pure a) := by
  intro st
  simpa using Careful.of_eq rfl

theorem steady_throw (e : LowerError) : Steady f (throw e : Lower α) := by
  intro st
  simpa using Careful.of_eq rfl

theorem steady_bind {x : Lower α} {g : α → Lower β} (hx : Steady f x) (hg : ∀ a, Steady f (g a)) :
    Steady f (x >>= g) := by
  intro st
  rw [lands_bind]
  refine (hx st).imp_ok fun a st₁ h₁ => ?_
  exact (hg a st₁).imp (fun _ _ h₂ => h₁.trans h₂) fun _ _ h₂ => h₁.trans h₂

theorem steady_get_bind {g : Lowering → Lower α} (hg : ∀ st, Steady f (g st)) :
    Steady f (get >>= g) := by
  intro st
  simpa using hg st st

theorem steady_mapM {g : α → Lower β} (xs : List α) (h : ∀ x ∈ xs, Steady f (g x)) :
    Steady f (xs.mapM g) := by
  induction xs with
  | nil => simpa using steady_pure []
  | cons x rest ih =>
    rw [List.mapM_cons]
    refine steady_bind (h x (List.mem_cons_self ..)) fun y => ?_
    exact steady_bind (ih fun x hx => h x (List.mem_cons_of_mem _ hx)) fun _ => steady_pure _

theorem steady_reading (m : TypeStore.Reading α) : Steady f (reading m) := by
  intro st
  rw [lands_reading, lands_iff_run]
  split <;> exact Careful.of_eq rfl

theorem steady_evaluate (n : NodeId) : Steady f (evaluate f n) := by
  unfold evaluate
  split
  · exact steady_pure _
  · exact steady_throw _

theorem steady_assume {v : CoreVar} {σ : Scheme}
    (h : ∀ p A, v = .decl p → Declares f p A → σ = Scheme.mono A) : Steady f (assume v σ) := by
  intro st
  simp only [assume, lands_modify]
  refine ⟨fun w hw => by simp [hw], fun p A τ hA hτ => ?_⟩
  rcases OrderedMap.of_get?_insert hτ with ⟨hv, rfl⟩ | hτ
  · exact Or.inr (h p A hv.symm hA)
  · exact Or.inl hτ

theorem steady_signatureOfParts (params : List NodeId) {output : Lower Ty} (h : Steady f output) :
    Steady f (signatureOfParts f params output) := by
  refine steady_bind (steady_mapM params fun p _ => steady_reading _) fun inputs => ?_
  exact steady_bind h fun _ => steady_pure _

/-- A parameter with a declared type is no field. -/
theorem Declares.not_field (ht : t.WellFormed) {A : Ty} (h : Declares t.toForest p A) :
    (t.parent? p).any (isStruct t.toForest) = false := by
  obtain ⟨n, params, name, e, ⟨k, body, hk, habs⟩, hp, -⟩ := h
  have hplace : (Role.parameter, p) ∈ k.places := by
    rcases habs with ⟨name, returns, rfl⟩ | rfl <;> simp [Kind.places, hp]
  rw [(ht.child_fits hk hplace).1]
  rcases habs with ⟨name, returns, rfl⟩ | rfl <;> simp [isStruct, hk]

theorem steady_isAssumed (v : CoreVar) : Steady f (isAssumed v) :=
  steady_get_bind fun _ => steady_pure _

theorem steady_when {test : Bool} {x : Lower PUnit} (h : test = true → Steady f x) :
    Steady f (if test = true then x else pure ⟨⟩) := by
  cases test with
  | true => exact h rfl
  | false => exact steady_pure _

/-- Looking at what a reference refers to assumes nothing about parameters of functions and lambdas.
-/
theorem steady_assumeReferral (ht : t.WellFormed) (n d : NodeId) :
    Steady t.toForest (assumeReferral t.toForest n d) := by
  have hother : ∀ {k : Kind} {σ : Scheme}, t.kind? d = some k →
      (∀ name type, k ≠ .parameter name type) → Steady t.toForest (assume (.decl d) σ) := by
    intro k σ hk hne
    refine steady_assume fun p A hd hA => ?_
    cases hd
    obtain ⟨_, _, name, e, _, _, hp, _⟩ := hA
    rw [hp] at hk
    cases hk
    exact absurd rfl (hne name (some e))
  unfold assumeReferral
  split
  case h_1 | h_2 => exact steady_get_bind fun _ => steady_when fun _ => steady_throw _
  case h_3 =>
    refine steady_bind (steady_isAssumed _) fun isKnown => steady_when fun htest => ?_
    refine steady_bind (steady_reading _) fun A => steady_assume fun p B hd hB => ?_
    cases hd
    simp [hB.not_field ht] at htest
  case h_4 hk =>
    refine steady_bind (steady_isAssumed _) fun isKnown => steady_when fun _ => ?_
    exact steady_bind (steady_reading _) fun A => hother hk nofun
  case h_5 hk =>
    split
    · exact steady_pure _
    · exact steady_bind (steady_reading _) fun A => hother hk nofun
  case h_6 hk | h_7 hk =>
    refine steady_bind (steady_isAssumed _) fun isKnown => steady_when fun _ => ?_
    refine steady_bind (steady_signatureOfParts _ ?_) fun A => hother hk nofun
    split
    · exact steady_evaluate _
    · exact steady_pure _
  case h_8 => exact steady_throw _

def Known (f : Forest) (Γ : Context) (p : NodeId) : Prop :=
  ∀ name e, f.kind? p = some (.parameter name (some e)) →
    (∃ A, evalType f e = .ok A) ∧ Γ.contains (.decl p) = true

theorem Known.mono (h : Known f Γ p) (hΓ : ∀ v, Γ.contains v = true → Δ.contains v = true) :
    Known f Δ p :=
  fun name e hk => ⟨(h name e hk).1, hΓ _ (h name e hk).2⟩

def Gives {α : Type} (f : Forest) (P : α → Context → Prop) (x : Lower α) : Prop := ∀ st, Lands x st
  (fun a st' => P a st'.assumptions ∧ Careful f st st') fun _ st' => Careful f st st'

/-- A parameter with a declared type is known after it has been assumed. -/
theorem assumeParameter_gives (f : Forest) (p : NodeId) :
    Gives f (fun _ Γ => Known f Γ p) (assumeParameter f p) := by
  intro st
  unfold assumeParameter
  split
  · rename_i name type hk
    cases type with
    | none => simp [assumeDeclared, Careful.of_eq, Known, hk]
    | some e =>
      simp only [assumeDeclared, evaluate, lands_bind]
      cases heval : evalType f e with
      | error err => simpa using Careful.of_eq rfl
      | ok A =>
        rw [lands_pure]
        have hassume : Steady f (assume (.decl p) (Scheme.mono A)) := by
          refine steady_assume fun q B hq hB => ?_
          cases hq
          obtain ⟨_, _, _, e', _, _, hk', heval'⟩ := hB
          rw [hk] at hk'
          cases hk'
          rw [heval] at heval'
          cases heval'
          rfl
        have hst := hassume st
        simp only [assume, lands_modify] at hst ⊢
        refine ⟨fun name' e' hk' => ?_, hst⟩
        rw [hk] at hk'
        cases hk'
        exact ⟨⟨A, heval⟩, by simp⟩
  · rename_i hnot
    simp only [lands_pure]
    exact ⟨fun name e hk => absurd hk (hnot name (some e)), Careful.of_eq rfl⟩

/-- Parameters with declared types are known after they have been assumed in turn. -/
theorem assumeParameters_gives (f : Forest) (params : List NodeId) :
    Gives f (fun _ Γ => ∀ p ∈ params, Known f Γ p) (assumeParameters f params) := by
  intro st
  refine lands_forM (fun done (st' : Lowering) =>
    (∀ p ∈ done, Known f st'.assumptions p) ∧ Careful f st st') ⟨by simp, Careful.of_eq rfl⟩ ?_
  rintro done p rest - st₁ ⟨hdone, h₁⟩
  refine (assumeParameter_gives f p st₁).imp ?_ fun _ _ h₂ => h₁.trans h₂
  rintro _ st₂ ⟨hp, h₂⟩
  refine ⟨fun q hq => ?_, h₁.trans h₂⟩
  rcases List.mem_append.1 hq with hq | hq
  · exact (hdone q hq).mono h₂.kept
  · exact List.mem_singleton.1 hq ▸ hp

end SemanticAnalysis.Lowering
