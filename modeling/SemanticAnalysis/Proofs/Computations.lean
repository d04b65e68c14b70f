import SemanticAnalysis.Proofs.Lookups

/-!
Reasoning about computations that fail and thread a state. Where a computation
lands is said once for a value, an error and the state after it, and there is a
rule for each way in which computations are put together; a loop is described by
what holds after each part of its list. A computation may also be cut short and
then lands nowhere.
-/

namespace SemanticAnalysis

/-- A monad with at most one outcome, of which properties can be stated. -/
class Outcomes (m : Type → Type) [Monad m] where
  All : {α : Type} → m α → (α → Prop) → Prop
  all_pure : ∀ {α : Type} {a : α} {p : α → Prop}, All (pure a) p ↔ p a
  all_bind : ∀ {α β : Type} {x : m α} {f : α → m β} {p : β → Prop},
    All (x >>= f) p ↔ All x fun a => All (f a) p
  all_imp : ∀ {α : Type} {x : m α} {p q : α → Prop}, (∀ a, p a → q a) → All x p → All x q

instance : Outcomes Id where
  All x p := p x
  all_pure := Iff.rfl
  all_bind := Iff.rfl
  all_imp h hx := h _ hx

instance : Outcomes Option where
  All x p := ∀ a, x = some a → p a
  all_pure := by simp
  all_bind {_ _ x _ _} := by cases x <;> simp
  all_imp h hx := fun a ha => h a (hx a ha)

section Landing

variable {ε σ α β : Type} {m : Type → Type} [Monad m] [Outcomes m]
  {st : σ} {ok ok' : α → σ → Prop} {bad bad' : ε → σ → Prop}

/-- A computation ends with a value and a state that `ok` holds of, or with an error and a state
that `bad` holds of. -/
def Lands (x : ExceptT ε (StateT σ m) α) (st : σ) (ok : α → σ → Prop) (bad : ε → σ → Prop) : Prop :=
  Outcomes.All (x.run.run st) fun r =>
    match r.1 with
    | .ok a => ok a r.2
    | .error e => bad e r.2

theorem Lands.imp {x : ExceptT ε (StateT σ m) α} (h : Lands x st ok bad)
    (hok : ∀ a st', ok a st' → ok' a st') (hbad : ∀ e st', bad e st' → bad' e st') :
    Lands x st ok' bad' := by
  refine Outcomes.all_imp ?_ h
  rintro ⟨r, st'⟩ hr
  cases r with
  | ok a => exact hok a st' hr
  | error e => exact hbad e st' hr

/-- Where a computation that always ends lands is a matter of running it. -/
theorem lands_iff_run {x : ExceptT ε (StateM σ) α} : Lands x st ok bad ↔
    match x.run.run st with
    | (.ok a, st') => ok a st'
    | (.error e, st') => bad e st' := by
  rcases hrun : x.run.run st with ⟨r | a, st'⟩ <;> simp only [Lands, hrun] <;> rfl

theorem Lands.of_ok {x : ExceptT ε (StateT σ Option) α} {a : α} {st' : σ}
    (h : Lands x st ok bad) (hrun : x.run.run st = some (.ok a, st')) : ok a st' :=
  h _ hrun

theorem Lands.of_error {x : ExceptT ε (StateT σ Option) α} {e : ε} {st' : σ}
    (h : Lands x st ok bad) (hrun : x.run.run st = some (.error e, st')) : bad e st' :=
  h _ hrun

/-- A computation that may be cut short lands where it runs to. -/
theorem lands_run (x : ExceptT ε (StateT σ Option) α) (st : σ) :
    Lands x st (fun a st' => x.run.run st = some (.ok a, st'))
      fun e st' => x.run.run st = some (.error e, st') := by
  rintro ⟨r, st'⟩ hrun
  cases r <;> exact hrun

theorem run_bind_of_ok {x : ExceptT ε (StateT σ Option) β} {f : β → ExceptT ε (StateT σ Option) α}
    {b : β} {st' : σ} (h : x.run.run st = some (.ok b, st')) :
    (x >>= f).run.run st = (f b).run.run st' := by
  rw [ExceptT.run_bind, StateT.run_bind, h]
  rfl

theorem Lands.imp_ok {x : ExceptT ε (StateT σ m) α} (h : Lands x st ok bad)
    (hok : ∀ a st', ok a st' → ok' a st') : Lands x st ok' bad :=
  h.imp hok fun _ _ he => he

@[simp]
theorem lands_pure {a : α} : Lands (pure a : ExceptT ε (StateT σ m) α) st ok bad ↔ ok a st := by
  simp [Lands, Outcomes.all_pure]

@[simp]
theorem lands_throw {e : ε} : Lands (throw e : ExceptT ε (StateT σ m) α) st ok bad ↔ bad e st := by
  simp [Lands, Outcomes.all_pure]

@[simp]
theorem lands_mk_pure {r : Except ε α} :
    Lands (ExceptT.mk (pure r) : ExceptT ε (StateT σ m) α) st ok bad ↔
      match r with
      | .ok a => ok a st
      | .error e => bad e st := by
  cases r <;> simp [Lands, Outcomes.all_pure]

@[simp]
theorem lands_bind {x : ExceptT ε (StateT σ m) β} {f : β → ExceptT ε (StateT σ m) α} :
    Lands (x >>= f) st ok bad ↔ Lands x st (fun b st' => Lands (f b) st' ok bad) bad := by
  simp only [Lands, ExceptT.run_bind, StateT.run_bind, Outcomes.all_bind]
  refine ⟨Outcomes.all_imp ?_, Outcomes.all_imp ?_⟩
  · rintro ⟨r, st'⟩ hr
    cases r with
    | ok b => exact hr
    | error e => simpa [Outcomes.all_pure] using hr
  · rintro ⟨r, st'⟩ hr
    cases r with
    | ok b => exact hr
    | error e => simpa [Outcomes.all_pure] using hr

section Lawful

variable [LawfulMonad m]

@[simp]
theorem lands_map {x : ExceptT ε (StateT σ m) β} {f : β → α} :
    Lands (f <$> x) st ok bad ↔ Lands x st (fun b st' => ok (f b) st') bad := by
  rw [map_eq_pure_bind, lands_bind]
  simp

@[simp]
theorem lands_get {ok : σ → σ → Prop} :
    Lands (get : ExceptT ε (StateT σ m) σ) st ok bad ↔ ok st st := by
  have hrun : (get : ExceptT ε (StateT σ m) σ).run.run st = pure (.ok st, st) := by
    change (Except.ok <$> (get : StateT σ m σ)).run st = _
    simp
  rw [Lands, hrun, Outcomes.all_pure]

@[simp]
theorem lands_set {ok : PUnit → σ → Prop} {st' : σ} :
    Lands (set st' : ExceptT ε (StateT σ m) PUnit) st ok bad ↔ ok ⟨⟩ st' := by
  have hrun : (set st' : ExceptT ε (StateT σ m) PUnit).run.run st = pure (.ok ⟨⟩, st') := by
    change (Except.ok <$> (set st' : StateT σ m PUnit)).run st = _
    simp
  rw [Lands, hrun, Outcomes.all_pure]

@[simp]
theorem lands_modify {ok : PUnit → σ → Prop} {f : σ → σ} :
    Lands (modify f : ExceptT ε (StateT σ m) PUnit) st ok bad ↔ ok ⟨⟩ (f st) := by
  have hrun : (modify f : ExceptT ε (StateT σ m) PUnit).run.run st = pure (.ok ⟨⟩, f st) := by
    change (Except.ok <$> (modify f : StateT σ m PUnit)).run st = _
    simp
  rw [Lands, hrun, Outcomes.all_pure]

@[simp]
theorem lands_adapt {ε' : Type} {f : ε → ε'} {x : ExceptT ε (StateT σ m) α}
    {bad : ε' → σ → Prop} :
    Lands (ExceptT.adapt f x) st ok bad ↔ Lands x st ok fun e st' => bad (f e) st' := by
  have hrun : (ExceptT.adapt f x).run.run st =
      x.run.run st >>= fun r => pure (r.1.mapError f, r.2) := by
    change (Except.mapError f <$> x.run).run st = _
    rw [StateT.run_map, map_eq_pure_bind]
  simp only [Lands, hrun, Outcomes.all_bind, Outcomes.all_pure]
  refine ⟨Outcomes.all_imp ?_, Outcomes.all_imp ?_⟩ <;>
    · rintro ⟨r, st'⟩ hr
      cases r <;> exact hr

end Lawful

end Landing

section Loops

variable {ε σ α β : Type} {m : Type → Type} [Monad m] [Outcomes m] {st : σ} {bad : ε → σ → Prop}

/-- What holds after each part of a list that a loop has been through holds at its end. -/
theorem lands_forM {xs : List α} {g : α → ExceptT ε (StateT σ m) PUnit}
    (inv : List α → σ → Prop) (start : inv [] st)
    (step : ∀ done x rest, xs = done ++ x :: rest → ∀ st, inv done st →
      Lands (g x) st (fun _ st' => inv (done ++ [x]) st') bad) :
    Lands (xs.forM g) st (fun _ st' => inv xs st') bad := by
  have hloop : ∀ rest done st, xs = done ++ rest → inv done st →
      Lands (rest.forM g) st (fun _ st' => inv xs st') bad := by
    intro rest
    induction rest with
    | nil =>
      intro done st hxs hinv
      rw [List.append_nil] at hxs
      simpa [hxs] using hinv
    | cons x rest ih =>
      intro done st hxs hinv
      rw [List.forM, lands_bind]
      refine (step done x rest hxs st hinv).imp_ok fun _ st' hst => ?_
      exact ih (done ++ [x]) st' (by simp [hxs]) hst
  exact hloop xs [] st rfl start

/-- As `lands_forM`, where each step may use how the loop came to the state before it. -/
theorem lands_forM_run {xs : List α} {g : α → ExceptT ε (StateT σ Option) PUnit}
    (inv : List α → σ → Prop) (start : inv [] st)
    (step : ∀ done x rest, xs = done ++ x :: rest → ∀ st',
      (done.forM g).run.run st = some (.ok ⟨⟩, st') → inv done st' →
      Lands (g x) st' (fun _ st'' => inv (done ++ [x]) st'') bad) :
    Lands (xs.forM g) st
      (fun _ st' => (xs.forM g).run.run st = some (.ok ⟨⟩, st') ∧ inv xs st') bad := by
  refine lands_forM
    (fun done st' => (done.forM g).run.run st = some (.ok ⟨⟩, st') ∧ inv done st') ⟨rfl, start⟩ ?_
  intro done x rest hxs st' hst
  obtain ⟨hrun, hinv⟩ := hst
  rintro ⟨r, st''⟩ hnext
  have hstep := step done x rest hxs st' hrun hinv _ hnext
  cases r with
  | error e => exact hstep
  | ok u =>
    refine ⟨?_, hstep⟩
    have happend : (done ++ [x]).forM g = (do done.forM g; g x) := by simp
    rw [happend, run_bind_of_ok hrun, hnext]

variable [LawfulMonad m]

/-- What holds after each part of a list that has been mapped holds at the end. -/
theorem lands_mapM {xs : List α} {g : α → ExceptT ε (StateT σ m) β}
    (inv : List α → List β → σ → Prop) (start : inv [] [] st)
    (step : ∀ done x rest, xs = done ++ x :: rest → ∀ ys st, inv done ys st →
      Lands (g x) st (fun y st' => inv (done ++ [x]) (ys ++ [y]) st') bad) :
    Lands (xs.mapM g) st (fun ys st' => inv xs ys st') bad := by
  have hloop : ∀ rest done ys st, xs = done ++ rest → inv done ys st →
      Lands (rest.mapM g) st (fun zs st' => inv xs (ys ++ zs) st') bad := by
    intro rest
    induction rest with
    | nil =>
      intro done ys st hxs hinv
      rw [List.append_nil] at hxs
      simpa [hxs] using hinv
    | cons x rest ih =>
      intro done ys st hxs hinv
      rw [List.mapM_cons]
      simp only [lands_bind, lands_pure]
      refine (step done x rest hxs ys st hinv).imp_ok fun y st' hy => ?_
      refine (ih (done ++ [x]) (ys ++ [y]) st' (by simp [hxs]) hy).imp_ok fun zs st'' hzs => ?_
      simpa using hzs
  simpa using hloop xs [] [] st rfl start

theorem lands_mapM_zipIdx {xs : List α} {g : α × Nat → ExceptT ε (StateT σ m) β}
    (inv : List α → List β → σ → Prop) (start : inv [] [] st)
    (step : ∀ done x rest, xs = done ++ x :: rest → ∀ ys st, inv done ys st →
      Lands (g (x, done.length)) st (fun y st' => inv (done ++ [x]) (ys ++ [y]) st') bad) :
    Lands (xs.zipIdx.mapM g) st (fun ys st' => inv xs ys st') bad := by
  have hend : Lands (xs.zipIdx.mapM g) st (fun ys st' => inv (xs.zipIdx.map Prod.fst) ys st')
      bad := by
    refine lands_mapM (fun done ys st => inv (done.map Prod.fst) ys st) start ?_
    rintro done ⟨x, i⟩ rest hxs ys st hinv
    have hsplit : xs = done.map Prod.fst ++ x :: rest.map Prod.fst := by
      simpa using congrArg (List.map Prod.fst) hxs
    have hi : i = done.length := by
      have hget := congrArg (fun l => l[done.length]?) hxs
      simp only [List.getElem?_append_right (Nat.le_refl _), Nat.sub_self, List.getElem?_cons_zero,
        List.getElem?_zipIdx, Nat.zero_add, Option.map_eq_some_iff, Prod.mk.injEq] at hget
      obtain ⟨_, _, _, h⟩ := hget
      exact h.symm
    have hstep := step _ x _ hsplit ys st hinv
    rw [List.length_map] at hstep
    simpa [hi] using hstep
  simpa using hend

end Loops

end SemanticAnalysis
