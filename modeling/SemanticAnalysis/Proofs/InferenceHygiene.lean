import SemanticAnalysis.Proofs.Computations
import SemanticAnalysis.Proofs.Freshness
import SemanticAnalysis.Proofs.RecordedTypes

/-!
Hygiene of whole runs of inference. Inference is watched: it logs every context it
is called in, with the number of variables issued by then, and every substitution
that it puts into a scheme of a context. Without the log it does what inference
does. Started in a hygienic context it is only called in hygienic ones, so no
substitution captures a variable, and what it records is in reach of the context.
-/

namespace SemanticAnalysis

open Ty

namespace Inference

inductive Event where
  | called (Γ : Context) (issued : Nat)
  | rewritten (σ : Scheme) (s : Subst)

abbrev Watch := ExceptT InferError (StateT (State × List Event) Option)

def quietly {α : Type} (x : Infer α) : Watch α :=
  ExceptT.mk fun w => (x.run.run w.1).map fun r => (r.1, (r.2, w.2))

def note (events : List Event) : Watch Unit := modify fun w => (w.1, w.2 ++ events)

def enter (Γ : Context) : Watch Unit := do
  let w ← get
  note [.called Γ w.1.supply.issued]

def rewrite (Γ : Context) (s : Subst) : Watch Context := do
  note (Γ.values.map fun σ => .rewritten σ s)
  return Γ.substitute s

def watchAssumed (fuel : Nat) (Γ : Context) (bind : CoreVar) (s : Subst) (t : Ty) :
    Watch (Subst × Ty) :=
  match bind, Γ.get? bind with
  | .decl _, some assumed => do
    note [.rewritten assumed s]
    quietly (meetAssumed fuel Γ bind s t)
  | _, _ => return (s, t)

mutual

/-- Inference with the log that it leaves. -/
def watch (fuel : Nat) (Γ : Context) : Term → Watch (Subst × Ty)
  | .app arg func origin => do
    enter Γ
    let (s₁, t₁) ← watch fuel Γ func
    let (s₂, t₂) ← watch fuel (← rewrite Γ s₁) arg
    quietly do
      let result ← freshVar
      let s₃ ← solve fuel (s₂.apply t₁) (.fn t₂ result)
      let t := s₃.apply result
      record origin t
      return ((s₃.compose s₂).compose s₁, t)
  | .lam bind body origin => do
    enter Γ
    let input ← quietly (binderType Γ bind)
    let (s, output) ← watch fuel (Γ.insert bind (Scheme.mono input)) body
    quietly do
      let t := Ty.fn (s.apply input) output
      record origin t
      return (s, t)
  | .letIn binder bind usage => do
    enter Γ
    let (s, t) ← watch fuel Γ binder
    let (s₁, t₁) ← watchAssumed fuel Γ bind s t
    let rest : Context := (← rewrite Γ s₁).erase bind
    let (s₂, t₂) ← watch fuel (rest.insert bind (rest.generalize t₁)) usage
    return (s₂.compose s₁, t₂)
  | .tuple items => do
    enter Γ
    let (s, ts) ← watchItems fuel Γ Subst.empty [] items
    return (s, .tuple ts)
  | .var v => do
    enter Γ
    quietly (infer fuel Γ (.var v))
  | .number text => do
    enter Γ
    quietly (infer fuel Γ (.number text))
  | .floating text => do
    enter Γ
    quietly (infer fuel Γ (.floating text))

def watchItems (fuel : Nat) (Γ : Context) (s : Subst) (ts : List Ty) :
    List Term → Watch (Subst × List Ty)
  | [] => return (s, ts)
  | item :: rest => do
    let (s₁, t) ← watch fuel (← rewrite Γ s) item
    watchItems fuel Γ (s₁.compose s) (Subst.applyAll s₁ ts ++ [t]) rest

end

section Erasure

variable {α β : Type} {fuel : Nat} {Γ : Context}

def Erases (x : Watch α) (y : Infer α) : Prop :=
  ∀ w, (x.run.run w).map (fun r => (r.1, r.2.1)) = y.run.run w.1

theorem erases_pure (a : α) : Erases (pure a) (pure a) := fun _ => rfl

theorem erases_quietly (y : Infer α) : Erases (quietly y) y := by
  intro w
  change ((y.run.run w.1).map _).map _ = _
  rw [Option.map_map]
  exact Option.map_id'

/-- The log of two computations in a row can be dropped part by part. -/
theorem Erases.bind {x : Watch α} {y : Infer α} {f : α → Watch β} {g : α → Infer β}
    (hxy : Erases x y) (hfg : ∀ a, Erases (f a) (g a)) : Erases (x >>= f) (y >>= g) := by
  intro w
  have hx := hxy w
  simp only [ExceptT.run_bind, StateT.run_bind]
  rw [← hx]
  cases x.run.run w with
  | none => rfl
  | some r =>
    obtain ⟨r, w₁⟩ := r
    cases r with
    | error e => rfl
    | ok a => exact hfg a w₁

theorem Erases.note {x : Watch α} {y : Infer α} (h : Erases x y) (events : List Event) :
    Erases (note events >>= fun _ => x) y :=
  fun w => h (w.1, w.2 ++ events)

theorem Erases.enter {x : Watch α} {y : Infer α} (h : Erases x y) (Γ : Context) :
    Erases (enter Γ >>= fun _ => x) y :=
  fun w => h (w.1, w.2 ++ [Event.called Γ w.1.supply.issued])

theorem Erases.rewrite {f : Context → Watch α} {y : Infer α} {s : Subst}
    (h : Erases (f (Γ.substitute s)) y) : Erases (rewrite Γ s >>= f) y :=
  fun w => h (w.1, w.2 ++ Γ.values.map fun σ => Event.rewritten σ s)

/-- Meeting what is assumed does the same with a log as without one. -/
theorem watchAssumed_erases (bind : CoreVar) (s : Subst) (t : Ty) :
    Erases (watchAssumed fuel Γ bind s t) (meetAssumed fuel Γ bind s t) := by
  unfold watchAssumed
  split
  · exact (erases_quietly _).note _
  · rename_i hnone
    unfold meetAssumed
    split
    · rename_i hsome
      exact absurd hsome (hnone _ _ rfl)
    · exact erases_pure _

/-- Inferring the items of a tuple does the same with a log as without one. -/
theorem watchItems_erases {items : List Term}
    (ih : ∀ e ∈ items, ∀ Γ, Erases (watch fuel Γ e) (infer fuel Γ e)) (s : Subst)
    (ts : List Ty) : Erases (watchItems fuel Γ s ts items) (inferItems fuel Γ s ts items) := by
  induction items generalizing s ts with
  | nil =>
    rw [watchItems, inferItems]
    exact erases_pure _
  | cons item rest ihrest =>
    rw [watchItems, inferItems]
    refine Erases.rewrite ((ih item (List.mem_cons_self ..) _).bind fun r => ?_)
    exact ihrest (fun e he => ih e (List.mem_cons_of_mem _ he)) _ _

/-- Watched inference is inference, but for its log. -/
theorem watch_erases (e : Term) (Γ : Context) : Erases (watch fuel Γ e) (infer fuel Γ e) := by
  induction e generalizing Γ with
  | var x =>
    rw [watch]
    exact (erases_quietly _).enter Γ
  | app arg func origin iharg ihfunc =>
    rw [watch, infer]
    refine Erases.enter ((ihfunc Γ).bind fun r₁ => ?_) Γ
    exact Erases.rewrite ((iharg _).bind fun r₂ => erases_quietly _)
  | lam x body origin ih =>
    rw [watch, infer]
    refine Erases.enter ((erases_quietly _).bind fun input => ?_) Γ
    exact (ih _).bind fun r => erases_quietly _
  | letIn binder x usage ihbinder ihusage =>
    rw [watch, infer]
    refine Erases.enter ((ihbinder Γ).bind fun r => ?_) Γ
    refine (watchAssumed_erases x r.1 r.2).bind fun r₁ => Erases.rewrite ?_
    exact (ihusage _).bind fun r₂ => erases_pure _
  | number text =>
    rw [watch]
    exact (erases_quietly _).enter Γ
  | floating text =>
    rw [watch]
    exact (erases_quietly _).enter Γ
  | tuple items ih =>
    rw [watch, infer]
    refine Erases.enter ((watchItems_erases ih _ _).bind fun r => ?_) Γ
    exact erases_pure _

end Erasure

section Cleanliness

variable {fuel : Nat} {Γ : Context} {w w' : State × List Event} {s s₀ : Subst} {t t₀ : Ty}

/-- Inference is called in hygienic contexts, and no substitution put into a scheme touches a
variable that the scheme binds. -/
def Event.Clean : Event → Prop
  | .called Γ issued => Γ.Hygienic issued
  | .rewritten σ s => σ.Apart s

def AllClean (w : State × List Event) : Prop := ∀ event ∈ w.2, event.Clean

/-- Where watched computations land, the others land as well. -/
theorem Erases.lands {α : Type} {x : Watch α} {y : Infer α} (h : Erases x y)
    {ok : α → State × List Event → Prop} {bad : InferError → State × List Event → Prop}
    (hx : Lands x w ok bad) :
    Lands x w (fun a w' => ok a w' ∧ Yields y w.1 a w'.1) bad := by
  rintro ⟨r, w'⟩ hrun
  have hland := hx _ hrun
  cases r with
  | error e => exact hland
  | ok a =>
    refine ⟨hland, ?_⟩
    have hy := h w
    rw [hrun] at hy
    exact hy.symm

theorem quietly_lands {α : Type} (y : Infer α) (hw : AllClean w) :
    Lands (quietly y) w (fun a w' => AllClean w' ∧ Yields y w.1 a w'.1)
      fun _ w' => AllClean w' := by
  refine (erases_quietly y).lands ?_
  rintro ⟨r, w'⟩ hrun
  obtain ⟨q, -, hq⟩ := Option.map_eq_some_iff.1 hrun
  cases hq
  cases q.1 <;> exact hw

theorem note_lands {events : List Event} (hw : AllClean w) (h : ∀ event ∈ events, event.Clean) :
    Lands (note events) w (fun _ w' => AllClean w' ∧ w'.1 = w.1) fun _ w' => AllClean w' := by
  simp only [note, lands_modify, and_true]
  intro event hevent
  rcases List.mem_append.1 hevent with hevent | hevent
  · exact hw event hevent
  · exact h event hevent

theorem enter_lands (hw : AllClean w) (hΓ : Γ.Hygienic w.1.supply.issued) :
    Lands (enter Γ) w (fun _ w' => AllClean w' ∧ w'.1 = w.1) fun _ w' => AllClean w' := by
  simp only [enter, lands_bind, lands_get]
  exact note_lands hw (by simpa [Event.Clean] using hΓ)

theorem rewrite_lands (hw : AllClean w) (hs : Γ.Apart s) :
    Lands (rewrite Γ s) w (fun Δ w' => AllClean w' ∧ w'.1 = w.1 ∧ Δ = Γ.substitute s)
      fun _ w' => AllClean w' := by
  simp only [rewrite, lands_bind, lands_pure, and_true]
  refine note_lands hw ?_
  intro event hevent
  obtain ⟨σ, hσ, rfl⟩ := List.mem_map.1 hevent
  obtain ⟨x, hx⟩ := OrderedMap.mem_values_iff.1 hσ
  exact hs x σ hx

/-- Meeting what is assumed keeps a clean log clean. -/
theorem watchAssumed_lands {x : CoreVar} (hw : AllClean w) (hs : Γ.Apart s) :
    Lands (watchAssumed fuel Γ x s t) w
      (fun a w' => AllClean w' ∧ Yields (meetAssumed fuel Γ x s t) w.1 a w'.1)
      fun _ w' => AllClean w' := by
  refine (watchAssumed_erases x s t).lands ?_
  unfold watchAssumed
  split
  · rename_i σ hσ
    rw [lands_bind]
    refine (note_lands hw ?_).imp_ok fun _ w₁ h₁ => ?_
    · simpa [Event.Clean] using hs _ σ hσ
    · exact (quietly_lands _ h₁.1).imp_ok fun _ _ h => h.1
  · simpa using hw

/-- Inference that makes no calls is clean if it is called in a hygienic context. -/
theorem enter_quietly_lands {α : Type} (y : Infer α) (hw : AllClean w)
    (hΓ : Γ.Hygienic w.1.supply.issued) :
    Lands (enter Γ >>= fun _ => quietly y) w (fun _ w' => AllClean w') fun _ w' => AllClean w' := by
  rw [lands_bind]
  refine (enter_lands hw hΓ).imp_ok fun _ w₁ h₁ => ?_
  exact (quietly_lands y h₁.1).imp_ok fun _ _ h => h.1

def Watched (fuel : Nat) (Γ : Context) (e : Term) (w : State × List Event) : Prop :=
  Lands (watch fuel Γ e) w (fun a w' => AllClean w' ∧ Yields (infer fuel Γ e) w.1 a w'.1)
    fun _ w' => AllClean w'

/-- Inferring the items of a tuple keeps a clean log clean: each item finds a hygienic context. -/
theorem watchItems_lands {items : List Term} {ts₀ : List Ty} {n : Nat}
    (ih : ∀ e ∈ items, ∀ {Γ : Context} {w : State × List Event}, AllClean w →
      Γ.Hygienic w.1.supply.issued → Watched fuel Γ e w)
    (hw : AllClean w) (hΓ : Γ.Hygienic n)
    (h₀ : Γ.Mentions n w.1.supply.issued s₀ (.tuple ts₀)) :
    Lands (watchItems fuel Γ s₀ ts₀ items) w (fun _ w' => AllClean w') fun _ w' => AllClean w' := by
  induction items generalizing s₀ ts₀ w with
  | nil =>
    rw [watchItems, lands_pure]
    exact hw
  | cons item rest ihrest =>
    simp only [watchItems, lands_bind]
    refine (rewrite_lands hw (hΓ.apart h₀.subst)).imp_ok ?_
    rintro Δ w₁ ⟨hw₁, hst, rfl⟩
    have hΔ : (Γ.substitute s₀).Hygienic w₁.1.supply.issued := by
      rw [hst]
      exact hΓ.substitute h₀.subst h₀.le
    refine (ih item (List.mem_cons_self ..) hw₁ hΔ).imp_ok ?_
    rintro ⟨s₁, t₁⟩ w₂ ⟨hw₂, h₁⟩
    have hfree : ∀ v, (Γ.substitute s₀).Free v → Γ.Reaches n w₁.1.supply.issued v := by
      rw [hst]
      exact fun v => Context.reaches_of_free_substitute h₀.subst
    rw [← hst] at h₀
    rw [Subst.applyAll_eq_map]
    exact ihrest (fun e he => ih e (List.mem_cons_of_mem _ he)) hw₂
      (h₀.append hfree (mentions_of_infer h₁))

/-- Started in a hygienic context, inference is only called in hygienic contexts and puts only
substitutions into them that capture nothing. -/
theorem watch_lands {e : Term} (hw : AllClean w) (hΓ : Γ.Hygienic w.1.supply.issued) :
    Watched fuel Γ e w := by
  refine (watch_erases e Γ).lands ?_
  induction e generalizing Γ w with
  | var x =>
    rw [watch]
    exact enter_quietly_lands _ hw hΓ
  | app arg func origin iharg ihfunc =>
    simp only [watch, lands_bind]
    refine (enter_lands hw hΓ).imp_ok fun _ w₁ h₁ => ?_
    rw [← h₁.2] at hΓ
    refine ((watch_erases func Γ).lands (ihfunc h₁.1 hΓ)).imp_ok ?_
    rintro ⟨s₁, t₁⟩ w₂ ⟨hw₂, hfunc⟩
    have m₁ := mentions_of_infer hfunc
    refine (rewrite_lands hw₂ (hΓ.apart m₁.subst)).imp_ok ?_
    rintro Δ w₃ ⟨hw₃, hst, rfl⟩
    have hΔ : (Γ.substitute s₁).Hygienic w₃.1.supply.issued := by
      rw [hst]
      exact hΓ.substitute m₁.subst m₁.le
    refine (iharg hw₃ hΔ).imp_ok fun r₂ w₄ hw₄ => ?_
    exact (quietly_lands _ hw₄).imp_ok fun _ _ h => h.1
  | lam x body origin ih =>
    simp only [watch, lands_bind]
    refine (enter_lands hw hΓ).imp_ok fun _ w₁ h₁ => ?_
    rw [← h₁.2] at hΓ
    refine (quietly_lands _ h₁.1).imp_ok ?_
    rintro i w₂ ⟨hw₂, hi⟩
    obtain ⟨hle, hreach⟩ := binderType_reaches hi
    refine (ih hw₂ (hΓ.insert_mono x hreach hle)).imp_ok fun r w₃ hw₃ => ?_
    exact (quietly_lands _ hw₃).imp_ok fun _ _ h => h.1
  | letIn binder x usage ihbinder ihusage =>
    simp only [watch, lands_bind, lands_pure]
    refine (enter_lands hw hΓ).imp_ok fun _ w₁ h₁ => ?_
    rw [← h₁.2] at hΓ
    refine ((watch_erases binder Γ).lands (ihbinder h₁.1 hΓ)).imp_ok ?_
    rintro ⟨s₀, t₀⟩ w₂ ⟨hw₂, hbinder⟩
    have m₀ := mentions_of_infer hbinder
    refine (watchAssumed_lands hw₂ (hΓ.apart m₀.subst)).imp_ok ?_
    rintro ⟨s₁, t₁⟩ w₃ ⟨hw₃, hmeet⟩
    have m₁ := mentions_of_meetAssumed m₀ hmeet
    refine (rewrite_lands hw₃ (hΓ.apart m₁.subst)).imp_ok ?_
    rintro Δ w₄ ⟨hw₄, hst, rfl⟩
    have hΔ : (usageContext Γ s₁ x t₁).Hygienic w₄.1.supply.issued := by
      rw [hst]
      exact hygienic_usageContext hΓ m₁
    exact ihusage hw₄ hΔ
  | number text =>
    rw [watch]
    exact enter_quietly_lands _ hw hΓ
  | floating text =>
    rw [watch]
    exact enter_quietly_lands _ hw hΓ
  | tuple items ih =>
    simp only [watch, lands_bind, lands_pure]
    refine (enter_lands hw hΓ).imp_ok fun _ w₁ h₁ => ?_
    rw [← h₁.2] at hΓ
    refine watchItems_lands (n := w₁.1.supply.issued) ?_ h₁.1 hΓ ?_
    · intro e he Γ w hw hΓ
      exact (watch_erases e Γ).lands (ih e he hw hΓ)
    · exact Context.Mentions.empty (Nat.le_refl _) (by simp [vars])

end Cleanliness

section Notes

variable {fuel : Nat} {Γ Δ : Context} {n m k : Nat} {st st₁ st' : State} {s s₀ : Subst} {t : Ty}

def NotesOnly (Γ : Context) (n m : Nat) (st st' : State) : Prop :=
  ∃ new, st'.judgements = st.judgements ++ new ∧
    ∀ judgement ∈ new, ∀ v ∈ judgement.2.vars, Γ.Reaches n m v

theorem notesOnly_of_eq (h : st'.judgements = st.judgements) : NotesOnly Γ n m st st' :=
  ⟨[], by simpa using h, by simp⟩

/-- Two runs in a row, the second one in a context reached by the first. -/
theorem NotesOnly.trans (h : NotesOnly Γ n m st st₁) (hfree : ∀ v, Δ.Free v → Γ.Reaches n m v)
    (h₁ : NotesOnly Δ m k st₁ st') (hnm : n ≤ m) (hmk : m ≤ k) : NotesOnly Γ n k st st' := by
  obtain ⟨new, hnew, hreach⟩ := h
  obtain ⟨new₁, hnew₁, hreach₁⟩ := h₁
  refine ⟨new ++ new₁, by rw [hnew₁, hnew, List.append_assoc], ?_⟩
  intro judgement hj v hv
  rcases List.mem_append.1 hj with hj | hj
  · exact (hreach judgement hj v hv).mono hmk
  · exact (hreach₁ judgement hj v hv).trans hfree hnm hmk

theorem NotesOnly.mono (h : NotesOnly Γ n m st st₁) (hmk : m ≤ k)
    (heq : st'.judgements = st₁.judgements) : NotesOnly Γ n k st st' := by
  obtain ⟨new, hnew, hreach⟩ := h
  exact ⟨new, by rw [heq, hnew], fun judgement hj v hv => (hreach judgement hj v hv).mono hmk⟩

/-- Recording a type in reach keeps the records in reach. -/
theorem NotesOnly.noted (h : NotesOnly Γ n m st st') (hmk : m ≤ k) (origin : Option NodeId)
    (ht : ∀ v ∈ t.vars, Γ.Reaches n k v) : NotesOnly Γ n k st (st'.noted origin t) := by
  cases origin with
  | none => exact h.mono hmk rfl
  | some node =>
    obtain ⟨new, hnew, hreach⟩ := h
    refine ⟨new ++ [(node, t)], by simp [State.noted, hnew], ?_⟩
    intro judgement hj v hv
    rcases List.mem_append.1 hj with hj | hj
    · exact (hreach judgement hj v hv).mono hmk
    · rw [List.mem_singleton.1 hj] at hv
      exact ht v hv

theorem issued_le_of_meetAssumed {x : CoreVar} {t₀ : Ty}
    (h : Yields (meetAssumed fuel Γ x s₀ t₀) st (s, t) st') :
    st.supply.issued ≤ st'.supply.issued := by
  rcases yields_meetAssumed h with ⟨-, -, rfl⟩ | ⟨σ, expected, r, -, hexpected, -⟩
  · exact Nat.le_refl _
  · rw [(yields_instantiate.1 hexpected).2, Scheme.instantiate_eq]
    exact Nat.le_add_right _ _

/-- The items of a tuple record types in reach, one after the other. -/
theorem inferItems_notes {items : List Term} {ts₀ ts : List Ty} {st₀ : State}
    (ih : ∀ e ∈ items, ∀ {Γ : Context} {st st' : State} {s : Subst} {t : Ty},
      Yields (infer fuel Γ e) st (s, t) st' →
        NotesOnly Γ st.supply.issued st'.supply.issued st st')
    (h₀ : Γ.Mentions n st.supply.issued s₀ (.tuple ts₀))
    (hnotes : NotesOnly Γ n st.supply.issued st₀ st)
    (h : Yields (inferItems fuel Γ s₀ ts₀ items) st (s, ts) st') :
    NotesOnly Γ n st'.supply.issued st₀ st' := by
  induction items generalizing s₀ ts₀ st with
  | nil =>
    obtain ⟨-, -, rfl⟩ := yields_items_nil.1 h
    exact hnotes
  | cons item rest ihrest =>
    obtain ⟨s₁, t₁, st₁, hitem, hrest⟩ := yields_items_cons.1 h
    have h₁ := mentions_of_infer hitem
    have hfree : ∀ v, (Γ.substitute s₀).Free v → Γ.Reaches n st.supply.issued v :=
      fun v => Context.reaches_of_free_substitute h₀.subst
    have hnext := ih item (List.mem_cons_self ..) hitem
    exact ihrest (fun e he => ih e (List.mem_cons_of_mem _ he)) (h₀.append hfree h₁)
      (hnotes.trans hfree hnext h₀.le h₁.le) hrest

/-- Inference records only types in reach of the context. -/
theorem notesOnly_of_infer {e : Term} (h : Yields (infer fuel Γ e) st (s, t) st') :
    NotesOnly Γ st.supply.issued st'.supply.issued st st' := by
  induction e generalizing Γ st st' s t with
  | var x =>
    obtain ⟨σ, -, -, ht⟩ := yields_var.1 h
    rw [(yields_instantiate.1 ht).2]
    exact notesOnly_of_eq rfl
  | app arg func origin iharg ihfunc =>
    have htype := (mentions_of_infer h).type
    obtain ⟨s₁, t₁, st₁, s₂, t₂, st₂, s₃, h₁, h₂, h₃, rfl, rfl, rfl⟩ := yields_app.1 h
    have m₁ := mentions_of_infer h₁
    have m₂ := mentions_of_infer h₂
    have hboth := (ihfunc h₁).trans
      (fun v => Context.reaches_of_free_substitute m₁.subst) (iharg h₂) m₁.le m₂.le
    rw [noted_supply] at htype ⊢
    have hdrawn : NotesOnly Γ st.supply.issued st₂.advanced.supply.issued st st₂.advanced :=
      hboth.mono (Nat.le_succ _) rfl
    exact hdrawn.noted (Nat.le_refl _) origin htype
  | lam x body origin ih =>
    have htype := (mentions_of_infer h).type
    obtain ⟨i, st₁, o, st₂, hi, hbody, rfl, rfl⟩ := yields_lam.1 h
    obtain ⟨hle, hreach⟩ := binderType_reaches hi
    have hstart : NotesOnly Γ st.supply.issued st₁.supply.issued st st₁ := by
      apply notesOnly_of_eq
      rcases yields_binderType hi with ⟨σ, -, -, -, rfl⟩ | ⟨-, rfl⟩ <;> rfl
    have hboth := hstart.trans (fun v => Context.reaches_of_free_insert_mono hreach)
      (ih hbody) hle (mentions_of_infer hbody).le
    rw [noted_supply] at htype ⊢
    exact hboth.noted (Nat.le_refl _) origin htype
  | letIn binder x usage ihbinder ihusage =>
    obtain ⟨s₀, t₀, st₀, s₁, t₁, st₁, s₂, h₀, h₁, h₂, rfl⟩ := yields_letIn.1 h
    have m₁ := mentions_of_meetAssumed (mentions_of_infer h₀) h₁
    have hmet : NotesOnly Γ st.supply.issued st₁.supply.issued st st₁ :=
      (ihbinder h₀).mono (issued_le_of_meetAssumed h₁) (judgements_of_meetAssumed h₁)
    exact hmet.trans (fun v => reaches_of_free_usageContext m₁) (ihusage h₂) m₁.le
      (mentions_of_infer h₂).le
  | number text =>
    obtain ⟨-, -, rfl⟩ := yields_number.1 h
    exact notesOnly_of_eq rfl
  | floating text =>
    obtain ⟨-, -, rfl⟩ := yields_floating.1 h
    exact notesOnly_of_eq rfl
  | tuple items ih =>
    obtain ⟨ts, hitems, rfl⟩ := yields_tuple.1 h
    refine inferItems_notes (fun e he => ih e he) ?_ (notesOnly_of_eq rfl) hitems
    exact Context.Mentions.empty (Nat.le_refl _) (by simp [vars])

/-- In a context whose variables were issued before and whose bound variables are not free in it,
inference finds a substitution and a type and records types that mention only free variables of the
context and variables issued meanwhile. It is only called in contexts of this kind, at the count
of variables issued by then, and no substitution that it puts into a scheme of a context touches
what the scheme binds. -/
theorem inference_hygienic (fuel : Nat) (Γ : Context) (e : Term) (st : State)
    (hΓ : Γ.Hygienic st.supply.issued) :
    (∀ s t st', Yields (infer fuel Γ e) st (s, t) st' →
      (∀ v, s.Touches v → Γ.Reaches st.supply.issued st'.supply.issued v) ∧
      (∀ v ∈ t.vars, Γ.Reaches st.supply.issued st'.supply.issued v) ∧
      ∃ new, st'.judgements = st.judgements ++ new ∧ ∀ judgement ∈ new,
        ∀ v ∈ judgement.2.vars, Γ.Reaches st.supply.issued st'.supply.issued v) ∧
    ∀ r st', (infer fuel Γ e).run.run st = some (r, st') →
      ∃ log, (watch fuel Γ e).run.run (st, []) = some (r, (st', log)) ∧
        (∀ Δ issued, .called Δ issued ∈ log → Δ.Hygienic issued) ∧
        ∀ σ s, .rewritten σ s ∈ log → ∀ v, s.Touches v → σ.bound.contains v = false := by
  constructor
  · intro s t st' h
    exact ⟨(mentions_of_infer h).subst, (mentions_of_infer h).type, notesOnly_of_infer h⟩
  · intro r st' h
    have herases : Erases (watch fuel Γ e) (infer fuel Γ e) := watch_erases e Γ
    obtain ⟨⟨r', st'', log⟩, hrun, heq⟩ := Option.map_eq_some_iff.1 ((herases (st, [])).trans h)
    obtain ⟨rfl, rfl⟩ := Prod.mk.inj heq
    have hclean : AllClean (st'', log) := by
      have hstart : AllClean (st, []) := by simp [AllClean]
      have hland : Watched fuel Γ e (st, []) := watch_lands hstart hΓ
      cases r' with
      | error e => exact hland.of_error hrun
      | ok a => exact (hland.of_ok hrun).1
    refine ⟨log, hrun, fun Δ issued hmem => hclean _ hmem, fun σ s hmem v htouch => ?_⟩
    by_contra hbound
    exact hclean _ hmem v (by simpa using hbound) htouch

/-- A parameter of an unknown type, and a function that gives its type whatever it is given. -/
def constantResult : Context :=
  OrderedMap.ofList [(.decl ⟨0⟩, Scheme.mono (.var ⟨0⟩)),
    (.decl ⟨1⟩, ⟨OrderedSet.ofList [⟨1⟩], .fn (.var ⟨1⟩) (.var ⟨0⟩)⟩)]

/-- The parameter is called, and the function is called with what comes of that. -/
def calledInTurn : Term :=
  .letIn (.app (.number "1") (.var (.decl ⟨0⟩)) (some ⟨2⟩)) (.synthetic 0)
    (.app (.var (.synthetic 0)) (.var (.decl ⟨1⟩)) (some ⟨3⟩))

theorem inference_hygienic_shared :
    constantResult.Hygienic 2 ∧
    ∃ s t st' log, (infer 9 constantResult calledInTurn).run.run (State.start ⟨2⟩) =
        some (.ok (s, t), st') ∧ st'.judgements.length = 2 ∧
      (∀ v, s.Touches v → constantResult.Reaches 2 st'.supply.issued v) ∧
      (∀ v ∈ t.vars, constantResult.Reaches 2 st'.supply.issued v) ∧
      (watch 9 constantResult calledInTurn).run.run (State.start ⟨2⟩, []) =
        some (.ok (s, t), (st', log)) ∧
      ∀ σ s, .rewritten σ s ∈ log → ∀ v, s.Touches v → σ.bound.contains v = false := by
  have hΓ : constantResult.Hygienic (State.start ⟨2⟩).supply.issued := by decide
  obtain ⟨s, t, st', hrun, hlen⟩ : ∃ s t st', (infer 9 constantResult calledInTurn).run.run
      (State.start ⟨2⟩) = some (.ok (s, t), st') ∧ st'.judgements.length = 2 := ⟨_, _, _, rfl, rfl⟩
  obtain ⟨hmentions, hwatched⟩ := inference_hygienic 9 constantResult calledInTurn _ hΓ
  obtain ⟨hs, ht, -⟩ := hmentions s t st' hrun
  obtain ⟨log, hlog, -, hrewritten⟩ := hwatched _ st' hrun
  exact ⟨hΓ, s, t, st', log, hrun, hlen, hs, ht, hlog, hrewritten⟩

end Notes

end Inference

end SemanticAnalysis
