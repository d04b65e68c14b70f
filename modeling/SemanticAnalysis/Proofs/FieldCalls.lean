import SemanticAnalysis.Proofs.FieldReadings

/-!
Calls on a store of field types, one after the other. A call asks for the fields of a
struct, for a field, for a constructor or for a type expression, or draws a variable for
something else. It leaves what is kept as it is and keeps at most what it has worked out
for the struct it is about, and whether it succeeds depends on the tree alone. Over a run
of calls later ones draw later variables, so that no variable is drawn twice.
-/

namespace SemanticAnalysis

namespace TypeStore

/-- What is asked of a store; `draw` takes a variable from its supply for something else. -/
inductive Call where
  | fields (d : NodeId)
  | field (x : NodeId)
  | construct (d : NodeId)
  | eval (e : NodeId)
  | draw

inductive Answer where
  | fields (ts : List Ty)
  | field (t : Option Ty)
  | construct (t : Ty)
  | eval (t : Ty)
  | drawn (t : Ty)

namespace Call

def perform (f : Forest) : Call → Reading Answer
  | .fields d => do return .fields (← fieldTypes f d)
  | .field x => do return .field (← fieldType f x)
  | .construct d => do return .construct (← constructorType f d)
  | .eval e => do return .eval (← evalOrFresh f (some e))
  | .draw => do return .drawn (← freshVar)

def subject (f : Forest) : Call → Option NodeId
  | .fields d => some d
  | .field x => (f.slot? x).map Prod.fst
  | .construct d => some d
  | .eval _ => none
  | .draw => none

def answerFrom (f : Forest) (types : NodeId → List Ty) (n : Nat) :
    Call → Except TypeExprError Answer
  | .fields d => .ok (.fields (types d))
  | .field x => .ok (.field ((f.slot? x).bind fun slot => (types slot.1)[slot.2]?))
  | .construct d => (declaredType f d).map fun output => .construct (Ty.curried (types d) output)
  | .eval e => (evalType f e).map .eval
  | .draw => .ok (.drawn (.var ⟨n⟩))

/-- The type expressions that a call depends on stand for types, and so does a declaration whose
constructor is asked for. -/
def Answerable (f : Forest) : Call → Prop
  | .fields d => f.Readable d
  | .field x => ∀ slot ∈ f.slot? x, f.Readable slot.1
  | .construct d => f.Readable d ∧ ∃ A, declaredType f d = .ok A
  | .eval e => ∃ A, evalType f e = .ok A
  | .draw => True

def spent : Call → Nat
  | .draw => 1
  | _ => 0

variable {f : Forest} {c : Call} {types types' : NodeId → List Ty} {n : Nat}

/-- The answer to a call depends only on the field types of its subject. -/
theorem answerFrom_congr (h : ∀ d, c.subject f = some d → types d = types' d) :
    c.answerFrom f types n = c.answerFrom f types' n := by
  cases c with
  | fields d => simp [answerFrom, h d rfl]
  | field x =>
    cases hx : f.slot? x with
    | none => simp [answerFrom, hx]
    | some slot => simp [answerFrom, hx, h slot.1 (by simp [subject, hx])]
  | construct d => simp [answerFrom, h d rfl]
  | eval e => rfl
  | draw => rfl

/-- With a struct that can be read, a call is answered if it can be. -/
theorem answerFrom_ok_iff (h : ∀ d, c.subject f = some d → f.Readable d) :
    (∃ a, c.answerFrom f types n = .ok a) ↔ c.Answerable f := by
  cases c with
  | fields d => simp [answerFrom, Answerable, h d rfl]
  | field x =>
    have hslot : ∀ slot ∈ f.slot? x, f.Readable slot.1 := fun slot hs =>
      h slot.1 (by simp [subject, Option.mem_def.1 hs])
    simpa [answerFrom, Answerable] using hslot
  | construct d =>
    cases hd : declaredType f d <;> simp [answerFrom, Answerable, h d rfl, hd, Except.map]
  | eval e => cases he : evalType f e <;> simp [answerFrom, Answerable, he, Except.map]
  | draw => simp [answerFrom, Answerable]

theorem eq_draw_of_answerFrom {t : Ty} (h : c.answerFrom f types n = .ok (.drawn t)) :
    c = .draw ∧ t = .var ⟨n⟩ := by
  cases c with
  | draw =>
    cases h
    exact ⟨rfl, rfl⟩
  | construct d => cases hd : declaredType f d <;> simp [answerFrom, hd, Except.map] at h
  | eval e => cases he : evalType f e <;> simp [answerFrom, he, Except.map] at h
  | fields d => cases h
  | field x => cases h

/-- If all fields of a struct have types then every call about it can be answered. -/
theorem answerable_of_readable {d : NodeId} (hc : c.subject f = some d)
    (hfields : f.structFields d ≠ []) (hd : f.Readable d) : c.Answerable f := by
  cases c with
  | fields d' =>
    cases hc
    exact hd
  | field x =>
    obtain ⟨slot, hslot, rfl⟩ := Option.map_eq_some_iff.1 hc
    intro slot' hslot'
    rw [hslot] at hslot'
    cases hslot'
    exact hd
  | construct d' =>
    cases hc
    exact ⟨hd, Forest.declaredType_of_structFields hfields⟩
  | eval e => cases hc
  | draw => cases hc

/-- A call that can be answered is about a struct all of whose fields have types. -/
theorem readable_of_answerable {d : NodeId} (hc : c.subject f = some d) (h : c.Answerable f) :
    f.Readable d := by
  cases c with
  | fields d' =>
    cases hc
    exact h
  | field x =>
    obtain ⟨slot, hslot, rfl⟩ := Option.map_eq_some_iff.1 hc
    exact h slot hslot
  | construct d' =>
    cases hc
    exact h.1
  | eval e => cases hc
  | draw => cases hc

end Call

section Steps

variable {f : Forest} {c : Call} {store store' : TypeStore} {answer : Except TypeExprError Answer}
  {d : NodeId} {ts : List Ty}

theorem fieldType_eq (f : Forest) (x : NodeId) : fieldType f x =
    match f.slot? x with
    | none => pure none
    | some slot => do return (← fieldTypes f slot.1)[slot.2]? := by
  unfold fieldType Forest.slot?
  cases f.parent? x with
  | none => rfl
  | some d =>
    simp only [Option.bind_some, Forest.structFields]
    rcases f.kind? d with _ | k
    · rfl
    · cases k with
      | structDecl name fields members =>
        cases hi : fields.findIdx? (· = x) <;> simp [hi]
      | _ => rfl

/-- A call about a struct reads its field types and goes on from them; one about none leaves the
field types alone. -/
theorem perform_run (f : Forest) (c : Call) (store : TypeStore) :
    (c.perform f).run.run store =
      match c.subject f with
      | some d =>
        match (fieldTypes f d).run.run store with
        | (.ok ts, store') => (c.answerFrom f (fun _ => ts) store.supply.issued, store')
        | (.error e, store') => (.error e, store')
      | none => (c.answerFrom f (fun _ => []) store.supply.issued,
          { store with supply := ⟨store.supply.issued + c.spent⟩ }) := by
  cases c with
  | fields d =>
    simp only [Call.perform, Call.subject]
    rcases hrun : (fieldTypes f d).run.run store with ⟨e | ts, store'⟩
    · exact run_bind_error hrun
    · exact run_bind_ok hrun
  | field x =>
    simp only [Call.perform, Call.subject, Call.answerFrom, fieldType_eq]
    cases f.slot? x with
    | none => rfl
    | some slot =>
      simp only [Option.map_some]
      rcases hrun : (fieldTypes f slot.1).run.run store with ⟨e | ts, store'⟩
      · exact run_bind_error (run_bind_error hrun)
      · exact run_bind_ok (run_bind_ok hrun)
  | construct d =>
    simp only [Call.perform, Call.subject, Call.answerFrom, constructorType]
    rcases hrun : (fieldTypes f d).run.run store with ⟨e | ts, store'⟩
    · exact run_bind_error (run_bind_error hrun)
    · cases declaredType f d with
      | error e => exact run_bind_error (run_bind_ok hrun)
      | ok A => exact run_bind_ok (run_bind_ok hrun)
  | eval e =>
    simp only [Call.perform, Call.subject, Call.answerFrom, evalOrFresh, evalOrFresh.liftExcept]
    cases evalType f e with
    | error e => rfl
    | ok A => rfl
  | draw => rfl

/-- What a call comes to: it finds field types that are kept, works them out and keeps them, fails
to, or is about no struct. -/
inductive Step (f : Forest) (c : Call) (store : TypeStore) :
    Except TypeExprError Answer → TypeStore → Prop
  | found (d : NodeId) (ts : List Ty) (hc : c.subject f = some d)
      (hd : store.fields.get? d = some ts) :
      Step f c store (c.answerFrom f (fun _ => ts) store.supply.issued) store
  | settled (d : NodeId) (ts : List Ty) (m : Nat) (hc : c.subject f = some d)
      (hd : store.fields.get? d = none)
      (h : typesFrom f (f.structFields d) store.supply.issued = (.ok ts, m)) :
      Step f c store (c.answerFrom f (fun _ => ts) store.supply.issued)
        ⟨⟨m⟩, store.fields.insert d ts⟩
  | failed (d : NodeId) (e : TypeExprError) (m : Nat) (hc : c.subject f = some d)
      (hd : store.fields.get? d = none)
      (h : typesFrom f (f.structFields d) store.supply.issued = (.error e, m)) :
      Step f c store (.error e) ⟨⟨m⟩, store.fields⟩
  | aside (hc : c.subject f = none) :
      Step f c store (c.answerFrom f (fun _ => []) store.supply.issued)
        { store with supply := ⟨store.supply.issued + c.spent⟩ }

/-- Each call comes to one of the steps. -/
theorem step_perform (f : Forest) (c : Call) (store : TypeStore) :
    Step f c store ((c.perform f).run.run store).1 ((c.perform f).run.run store).2 := by
  rw [perform_run]
  cases hc : c.subject f with
  | none => exact .aside hc
  | some d =>
    simp only [fieldTypes_run]
    cases hd : store.fields.get? d with
    | some ts => exact .found d ts hc hd
    | none =>
      rcases htypes : typesFrom f (f.structFields d) store.supply.issued with ⟨e | ts, m⟩
      · exact .failed d e m hc hd htypes
      · exact .settled d ts m hc hd htypes

def Sound (f : Forest) (store : TypeStore) : Prop := ∀ d ts, store.fields.get? d = some ts →
  ∃ n m, typesFrom f (f.structFields d) n = (.ok ts, m) ∧ m ≤ store.supply.issued

theorem Sound.readable (h : Sound f store) (hd : store.fields.get? d = some ts) :
    f.Readable d := by
  obtain ⟨n, m, hts, -⟩ := h d ts hd
  exact readable_of_typesFrom hts

theorem Sound.lt_issued (h : Sound f store) (hd : store.fields.get? d = some ts) {t : Ty}
    (ht : t ∈ ts) {v : TyVar} (hv : v ∈ t.vars) : v.index < store.supply.issued := by
  obtain ⟨n, m, hts, hm⟩ := h d ts hd
  have hlt := (vars_typesFrom hts ht hv).2
  omega

theorem sound_start (f : Forest) (supply : Supply) : Sound f (start supply) := by
  intro d ts hd
  cases hd

namespace Step

/-- A call gives no variable back. -/
theorem issued_le (h : Step f c store answer store') :
    store.supply.issued ≤ store'.supply.issued := by
  cases h with
  | found d ts hc hd => exact Nat.le_refl _
  | settled d ts m hc hd h =>
    have hle := le_typesFrom f (f.structFields d) store.supply.issued
    rwa [h] at hle
  | failed d e m hc hd h =>
    have hle := le_typesFrom f (f.structFields d) store.supply.issued
    rwa [h] at hle
  | aside hc => exact Nat.le_add_right _ _

theorem issued_draw (h : Step f .draw store answer store') :
    store'.supply.issued = store.supply.issued + 1 := by
  cases h with
  | found d ts hc hd => cases hc
  | settled d ts m hc hd h => cases hc
  | failed d e m hc hd h => cases hc
  | aside hc => rfl

/-- What is kept stays as it is. -/
theorem keeps (h : Step f c store answer store') (hd : store.fields.get? d = some ts) :
    store'.fields.get? d = some ts := by
  cases h with
  | found d' us hc hd' => exact hd
  | settled d' us m hc hnew h =>
    have hne : d' ≠ d := by
      intro heq
      rw [← heq, hnew] at hd
      cases hd
    simpa [OrderedMap.get?_insert, hne] using hd
  | failed d' e m hc hd' h => exact hd
  | aside hc => exact hd

/-- What is kept anew is what the call is about, and its variables are those the call draws. -/
theorem settles (h : Step f c store answer store') (hnew : store.fields.get? d = none)
    (hd : store'.fields.get? d = some ts) : c.subject f = some d ∧
      typesFrom f (f.structFields d) store.supply.issued = (.ok ts, store'.supply.issued) := by
  have hsame : store.fields.get? d ≠ some ts := by simp [hnew]
  cases h with
  | found d' us hc hd' => exact absurd hd hsame
  | settled d' us m hc hnew' h =>
    rcases OrderedMap.of_get?_insert hd with ⟨rfl, rfl⟩ | hd
    · exact ⟨hc, h⟩
    · exact absurd hd hsame
  | failed d' e m hc hd' h => exact absurd hd hsame
  | aside hc => exact absurd hd hsame

/-- After a call that succeeds the field types of the struct it is about are kept. -/
theorem kept (h : Step f c store answer store') (hc : c.subject f = some d)
    (ha : ∃ a, answer = .ok a) : ∃ ts, store'.fields.get? d = some ts := by
  cases h with
  | found d' ts hc' hd =>
    rw [hc, Option.some.injEq] at hc'
    exact ⟨ts, hc' ▸ hd⟩
  | settled d' ts m hc' hd h =>
    rw [hc, Option.some.injEq] at hc'
    exact ⟨ts, by simp [OrderedMap.get?_insert, hc']⟩
  | failed d' e m hc' hd h =>
    obtain ⟨a, ha⟩ := ha
    cases ha
  | aside hc' =>
    rw [hc] at hc'
    cases hc'

/-- What a call keeps was worked out, so the store stays sound. -/
theorem sound (h : Step f c store answer store') (hs : Sound f store) : Sound f store' := by
  intro d ts hd
  have hle := h.issued_le
  cases hold : store.fields.get? d with
  | none => exact ⟨_, _, (h.settles hold hd).2, Nat.le_refl _⟩
  | some us =>
    have hkept := h.keeps hold
    rw [hd] at hkept
    cases hkept
    obtain ⟨n, m, hts, hm⟩ := hs d ts hold
    exact ⟨n, m, hts, by omega⟩

/-- A call that succeeds is answered by every table with the field types that are kept after it. -/
theorem answered (h : Step f c store answer store') {types : NodeId → List Ty}
    (htypes : ∀ d ts, store'.fields.get? d = some ts → types d = ts) {a : Answer}
    (ha : answer = .ok a) : c.answerFrom f types store.supply.issued = .ok a := by
  rw [← ha]
  refine Eq.symm ?_
  cases h with
  | found d ts hc hd =>
    refine Call.answerFrom_congr fun d' hd' => ?_
    rw [hc, Option.some.injEq] at hd'
    exact (htypes d' ts (hd' ▸ hd)).symm
  | settled d ts m hc hd h =>
    refine Call.answerFrom_congr fun d' hd' => ?_
    rw [hc, Option.some.injEq] at hd'
    exact (htypes d' ts (by simp [OrderedMap.get?_insert, hd'])).symm
  | failed d e m hc hd h => cases ha
  | aside hc => exact Call.answerFrom_congr fun d' hd' => by simp [hc] at hd'

/-- Whether a call succeeds depends on the tree alone. -/
theorem succeeds_iff (h : Step f c store answer store') (hs : Sound f store) :
    (∃ a, answer = .ok a) ↔ c.Answerable f := by
  have hreadable : ∀ {d : NodeId}, c.subject f = some d → f.Readable d →
      ∀ d', c.subject f = some d' → f.Readable d' := by
    intro d hc hd d' hd'
    rw [hc, Option.some.injEq] at hd'
    exact hd' ▸ hd
  cases h with
  | found d ts hc hd => exact Call.answerFrom_ok_iff (hreadable hc (hs.readable hd))
  | settled d ts m hc hd h =>
    exact Call.answerFrom_ok_iff (hreadable hc (readable_of_typesFrom h))
  | failed d e m hc hd h =>
    have hd : ¬ f.Readable d := by
      intro hd
      obtain ⟨ts, hts⟩ := (typesFrom_ok_iff f _ store.supply.issued).2 hd
      rw [h] at hts
      cases hts
    simpa using fun hcan => hd (Call.readable_of_answerable hc hcan)
  | aside hc => exact Call.answerFrom_ok_iff fun d hd => by simp [hc] at hd

end Step

end Steps

section Runs

variable {f : Forest} {store : TypeStore} {calls : List Call} {d : NodeId} {ts : List Ty}

structure Record where
  call : Call
  answer : Except TypeExprError Answer
  first : Nat
  issued : Nat

namespace Record

def Succeeds (r : Record) : Prop := ∃ a, r.answer = .ok a

def Draws (r : Record) (v : TyVar) : Prop := r.first ≤ v.index ∧ v.index < r.issued

end Record

def after (f : Forest) (store : TypeStore) (c : Call) : TypeStore := ((c.perform f).run.run store).2

def record (f : Forest) (store : TypeStore) (c : Call) : Record :=
  ⟨c, ((c.perform f).run.run store).1, store.supply.issued, (after f store c).supply.issued⟩

def transcript (f : Forest) : TypeStore → List Call → List Record
  | _, [] => []
  | store, c :: rest => record f store c :: transcript f (after f store c) rest

def afterAll (f : Forest) (store : TypeStore) (calls : List Call) : TypeStore :=
  calls.foldl (after f) store

theorem step_record (f : Forest) (c : Call) (store : TypeStore) :
    Step f c store (record f store c).answer (after f store c) :=
  step_perform f c store

theorem afterAll_keeps (hd : store.fields.get? d = some ts) (calls : List Call) :
    (afterAll f store calls).fields.get? d = some ts := by
  induction calls generalizing store with
  | nil => exact hd
  | cons c rest ih => exact ih ((step_record f c store).keeps hd)

theorem afterAll_sound (hs : Sound f store) : Sound f (afterAll f store calls) := by
  induction calls generalizing store with
  | nil => exact hs
  | cons c rest ih => exact ih ((step_record f c store).sound hs)

/-- Every record is that of a step, and what is kept after the step is kept to the end. -/
theorem exists_step (hs : Sound f store) {r : Record} (hr : r ∈ transcript f store calls) :
    ∃ s s', Sound f s ∧ Step f r.call s r.answer s' ∧ r.first = s.supply.issued ∧
      r.issued = s'.supply.issued ∧
      ∀ d ts, s'.fields.get? d = some ts → (afterAll f store calls).fields.get? d = some ts := by
  induction calls generalizing store with
  | nil => cases hr
  | cons c rest ih =>
    rcases List.mem_cons.1 hr with rfl | hr
    · exact ⟨store, _, hs, step_record f c store, rfl, rfl, fun d ts hd => afterAll_keeps hd rest⟩
    · exact ih ((step_record f c store).sound hs) hr

theorem transcript_append (f : Forest) (store : TypeStore) (before rest : List Call) :
    transcript f store (before ++ rest) =
      transcript f store before ++ transcript f (afterAll f store before) rest := by
  induction before generalizing store with
  | nil => rfl
  | cons c before ih => exact congrArg (record f store c :: ·) (ih (after f store c))

theorem map_call_transcript (f : Forest) (store : TypeStore) (calls : List Call) :
    (transcript f store calls).map Record.call = calls := by
  induction calls generalizing store with
  | nil => rfl
  | cons c rest ih => exact congrArg (c :: ·) (ih (after f store c))

theorem issued_le_first {r : Record} (hr : r ∈ transcript f store calls) :
    store.supply.issued ≤ r.first := by
  induction calls generalizing store with
  | nil => cases hr
  | cons c rest ih =>
    rcases List.mem_cons.1 hr with rfl | hr
    · exact Nat.le_refl _
    · exact Nat.le_trans (step_record f c store).issued_le (ih hr)

/-- Later calls draw later variables. -/
theorem transcript_ascending (f : Forest) (store : TypeStore) (calls : List Call) :
    (transcript f store calls).Pairwise fun r r' => r.issued ≤ r'.first := by
  induction calls generalizing store with
  | nil => exact List.Pairwise.nil
  | cons c rest ih =>
    exact List.pairwise_cons.2 ⟨fun r hr => issued_le_first hr, ih (after f store c)⟩

/-- No variable is drawn by two calls. -/
theorem eq_of_draws {r r' : Record} (hr : r ∈ transcript f store calls)
    (hr' : r' ∈ transcript f store calls) {v : TyVar} (hv : r.Draws v) (hv' : r'.Draws v) :
    r = r' := by
  obtain ⟨i, hi, rfl⟩ := List.mem_iff_getElem.1 hr
  obtain ⟨j, hj, rfl⟩ := List.mem_iff_getElem.1 hr'
  have hascending := List.pairwise_iff_getElem.1 (transcript_ascending f store calls)
  obtain ⟨hlow, hhigh⟩ := hv
  obtain ⟨hlow', hhigh'⟩ := hv'
  rcases Nat.lt_trichotomy i j with hlt | rfl | hlt
  · have := hascending i j hi hj hlt
    omega
  · rfl
  · have := hascending j i hj hi hlt
    omega

/-- What is kept in the end and was not at the start has been worked out by a call about it. -/
theorem exists_settled (hnew : store.fields.get? d = none)
    (hd : (afterAll f store calls).fields.get? d = some ts) :
    ∃ r ∈ transcript f store calls, r.call.subject f = some d ∧
      typesFrom f (f.structFields d) r.first = (.ok ts, r.issued) := by
  induction calls generalizing store with
  | nil =>
    have hsame : store.fields.get? d = some ts := hd
    rw [hnew] at hsame
    cases hsame
  | cons c rest ih =>
    cases hnext : (after f store c).fields.get? d with
    | none =>
      obtain ⟨r, hr, hspec⟩ := ih hnext hd
      exact ⟨r, List.mem_cons_of_mem _ hr, hspec⟩
    | some us =>
      have hkept : (afterAll f store (c :: rest)).fields.get? d = some us :=
        afterAll_keeps hnext rest
      rw [hd] at hkept
      cases hkept
      obtain ⟨hc, htypes⟩ := (step_record f c store).settles hnew hnext
      exact ⟨record f store c, List.mem_cons_self .., hc, htypes⟩

end Runs

end TypeStore

end SemanticAnalysis
