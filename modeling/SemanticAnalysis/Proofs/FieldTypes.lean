import SemanticAnalysis.Proofs.ArrowTypes
import SemanticAnalysis.Proofs.FieldCalls

/-!
Field types over a run of calls. What is kept stays, so one table answers all calls that
succeed. The variables of a struct in it are those drawn by the call that worked the
struct out, and no other call draws them. A call that fails may use up variables; what
comes after it is answered as if it had not been made, with the variables drawn later
renumbered.
-/

namespace SemanticAnalysis

namespace TypeStore

section Tables

variable {f : Forest} {supply : Supply} {calls : List Call} {d : NodeId} {ts : List Ty}

def table (store : TypeStore) (d : NodeId) : List Ty := (store.fields.get? d).getD []

theorem table_eq {store : TypeStore} (hd : store.fields.get? d = some ts) :
    store.table d = ts := by
  simp [table, hd]

/-- In a run the types in the table have been worked out by a call that succeeded. -/
theorem exists_settled_table {i : Nat} {t : Ty}
    (ht : ((afterAll f (start supply) calls).table d)[i]? = some t) :
    ∃ r ∈ transcript f (start supply) calls, r.call.subject f = some d ∧ r.Succeeds ∧
      typesFrom f (f.structFields d) r.first =
        (.ok ((afterAll f (start supply) calls).table d), r.issued) := by
  cases hd : (afterAll f (start supply) calls).fields.get? d with
  | none => simp [table, hd] at ht
  | some ts =>
    rw [table_eq hd] at ht ⊢
    obtain ⟨r, hr, hc, htypes⟩ := exists_settled rfl hd
    obtain ⟨s, s', hs, hstep, -⟩ := exists_step (sound_start f supply) hr
    refine ⟨r, hr, hc, ?_, htypes⟩
    have hfields : f.structFields d ≠ [] := by
      obtain ⟨hlt, -⟩ := List.getElem?_eq_some_iff.1 ht
      rw [length_typesFrom htypes] at hlt
      exact List.ne_nil_of_length_pos (Nat.zero_lt_of_lt hlt)
    have hcan := Call.answerable_of_readable hc hfields (readable_of_typesFrom htypes)
    exact (hstep.succeeds_iff hs).2 hcan

/-- For a struct about which a call has succeeded the table has the types worked out in the run. -/
theorem exists_settled_subject {r : Record} (hr : r ∈ transcript f (start supply) calls)
    (hok : r.Succeeds) (hc : r.call.subject f = some d) :
    ∃ n m, typesFrom f (f.structFields d) n =
      (.ok ((afterAll f (start supply) calls).table d), m) := by
  obtain ⟨s, s', -, hstep, -, -, hkeeps⟩ := exists_step (sound_start f supply) hr
  obtain ⟨ts, hts⟩ := hstep.kept hc hok
  obtain ⟨r', -, -, htypes⟩ := exists_settled rfl (hkeeps d ts hts)
  rw [table_eq (hkeeps d ts hts)]
  exact ⟨r'.first, r'.issued, htypes⟩

theorem answered_by_table {r : Record} (hr : r ∈ transcript f (start supply) calls) {a : Answer}
    (ha : r.answer = .ok a) :
    r.call.answerFrom f (afterAll f (start supply) calls).table r.first = .ok a := by
  obtain ⟨s, s', -, hstep, hfirst, -, hkeeps⟩ := exists_step (sound_start f supply) hr
  rw [hfirst]
  exact hstep.answered (fun d ts hd => table_eq (hkeeps d ts hd)) ha

theorem draws_of_drawn {r : Record} (hr : r ∈ transcript f (start supply) calls) {v : TyVar}
    (hv : r.answer = .ok (.drawn (.var v))) : r.Draws v := by
  obtain ⟨s, s', -, hstep, hfirst, hissued, -⟩ := exists_step (sound_start f supply) hr
  obtain ⟨hcall, hvar⟩ := Call.eq_draw_of_answerFrom (answered_by_table hr hv)
  rw [hcall] at hstep
  cases hvar
  exact ⟨Nat.le_refl _, by rw [hfirst, hissued, hstep.issued_draw]; exact Nat.lt_succ_self _⟩

/-- Two fields in the table do not have the same variable. -/
theorem table_injective {d' : NodeId} {i i' : Nat} {v : TyVar}
    (h : ((afterAll f (start supply) calls).table d)[i]? = some (.var v))
    (h' : ((afterAll f (start supply) calls).table d')[i']? = some (.var v)) :
    d = d' ∧ i = i' := by
  have hv : v ∈ (Ty.var v).vars := Ty.mem_vars_var.2 rfl
  obtain ⟨r, hr, hc, -, htypes⟩ := exists_settled_table h
  obtain ⟨r', hr', hc', -, htypes'⟩ := exists_settled_table h'
  have hsame : r = r' := eq_of_draws hr hr' (vars_typesFrom htypes (List.mem_of_getElem? h) hv)
    (vars_typesFrom htypes' (List.mem_of_getElem? h') hv)
  subst hsame
  rw [hc, Option.some.injEq] at hc'
  subst hc'
  exact ⟨rfl, eq_of_typesFrom htypes h h'⟩

/-- The variable of a field is drawn by a call about its struct that succeeds, and by no other. -/
theorem draws_of_table {i : Nat} {v : TyVar}
    (h : ((afterAll f (start supply) calls).table d)[i]? = some (.var v)) :
    (∃ r ∈ transcript f (start supply) calls, r.Draws v) ∧
      ∀ r ∈ transcript f (start supply) calls, r.Draws v →
        r.call.subject f = some d ∧ r.Succeeds := by
  obtain ⟨r, hr, hc, hok, htypes⟩ := exists_settled_table h
  have hdraws : r.Draws v :=
    vars_typesFrom htypes (List.mem_of_getElem? h) (Ty.mem_vars_var.2 rfl)
  refine ⟨⟨r, hr, hdraws⟩, fun r' hr' hv => ?_⟩
  rw [eq_of_draws hr' hr hv hdraws]
  exact ⟨hc, hok⟩

/-- The answer about a field is the type at its position. -/
theorem field_answer {r : Record} {x : NodeId} {t : Option Ty}
    (hr : r ∈ transcript f (start supply) calls) (hx : r.call = .field x)
    (ht : r.answer = .ok (.field t)) :
    t = (f.slot? x).bind fun slot =>
      ((afterAll f (start supply) calls).table slot.1)[slot.2]? := by
  have hanswer := answered_by_table hr ht
  rw [hx] at hanswer
  simpa [Call.answerFrom] using hanswer.symm

/-- The answer about a constructor is a function from the types of the fields. -/
theorem construct_answer {r : Record} {T : Ty} (hr : r ∈ transcript f (start supply) calls)
    (hd : r.call = .construct d) (hT : r.answer = .ok (.construct T))
    (hne : f.structFields d ≠ []) :
    ∃ output, T.peel (f.structFields d).length =
      some ((afterAll f (start supply) calls).table d, output) := by
  obtain ⟨n, m, htypes⟩ := exists_settled_subject hr ⟨_, hT⟩ (by rw [hd, Call.subject])
  have hanswer := answered_by_table hr hT
  rw [hd, Call.answerFrom] at hanswer
  cases hout : declaredType f d with
  | error e =>
    rw [hout] at hanswer
    cases hanswer
  | ok output =>
    rw [hout] at hanswer
    cases hanswer
    have hlen := length_typesFrom htypes
    refine ⟨output, ?_⟩
    rw [← hlen]
    cases hts : (afterAll f (start supply) calls).table d with
    | nil =>
      rw [hts] at hlen
      exact absurd (List.eq_nil_of_length_eq_zero hlen.symm) hne
    | cons t ts => exact Ty.peel_foldr (t :: ts) output

end Tables

section Renaming

variable {f : Forest} {ρ : Relabeling} {n : Nat} {a b : TypeStore}

namespace Answer

def relabel (ρ : Relabeling) : Answer → Answer
  | .fields ts => .fields (ts.map (Ty.relabel ρ))
  | .field t => .field (t.map (Ty.relabel ρ))
  | .construct t => .construct (t.relabel ρ)
  | .eval t => .eval (t.relabel ρ)
  | .drawn t => .drawn (t.relabel ρ)

end Answer

theorem curried_relabel (ts : List Ty) (output : Ty) :
    (Ty.curried ts output).relabel ρ = Ty.curried (ts.map (Ty.relabel ρ)) (output.relabel ρ) := by
  have hfold : ∀ us : List Ty, (us.foldr .fn output).relabel ρ =
      (us.map (Ty.relabel ρ)).foldr .fn (output.relabel ρ) := by
    intro us
    induction us with
    | nil => rfl
    | cons u us ih => simp [ih]
  cases ts with
  | nil => simp [Ty.curried, Ty.unit]
  | cons t ts => exact hfold (t :: ts)

/-- An answer by renamed field types is the renamed answer. -/
theorem answerFrom_relabel (c : Call) (types : NodeId → List Ty) :
    c.answerFrom f (fun d => (types d).map (Ty.relabel ρ)) (ρ ⟨n⟩).index =
      (c.answerFrom f types n).map (Answer.relabel ρ) := by
  cases c with
  | fields d => rfl
  | field x => cases hx : f.slot? x <;> simp [Call.answerFrom, Except.map, Answer.relabel, hx]
  | construct d =>
    cases hd : declaredType f d with
    | error e => simp [Call.answerFrom, hd, Except.map]
    | ok A => simp [Call.answerFrom, hd, Except.map, Answer.relabel, curried_relabel,
        relabel_of_closed (vars_of_declaredType hd)]
  | eval e =>
    cases he : evalType f e with
    | error e' => simp [Call.answerFrom, he, Except.map]
    | ok A => simp [Call.answerFrom, he, Except.map, Answer.relabel,
        relabel_of_closed (vars_of_evalType he)]
  | draw => simp [Call.answerFrom, Except.map, Answer.relabel]

/-- The second store keeps what the first one does, renamed, and is about to issue what the next
variable is renamed to. What is kept for something without fields does not matter. -/
structure Matches (f : Forest) (ρ : Relabeling) (a b : TypeStore) : Prop where
  issued : b.supply.issued = (ρ ⟨a.supply.issued⟩).index
  fields : ∀ d, f.structFields d ≠ [] →
    b.fields.get? d = (a.fields.get? d).map (List.map (Ty.relabel ρ))

/-- Without fields there is nothing to work out. -/
theorem fieldTypes_run_nil {store : TypeStore} (hs : Sound f store) {d : NodeId}
    (hd : f.structFields d = []) : ∃ store', (fieldTypes f d).run.run store = (.ok [], store') ∧
      store'.supply = store.supply ∧
      ∀ d', d' ≠ d → store'.fields.get? d' = store.fields.get? d' := by
  rw [fieldTypes_run, hd]
  cases hkept : store.fields.get? d with
  | some ts =>
    obtain ⟨n, m, hts, -⟩ := hs d ts hkept
    rw [hd] at hts
    cases hts
    exact ⟨store, rfl, rfl, fun _ _ => rfl⟩
  | none => exact ⟨_, rfl, rfl, fun d' hne => by simp [OrderedMap.get?_insert, hne.symm]⟩

namespace Matches

/-- Asking matching stores for field types gives matching answers and leaves them matching. -/
theorem fieldTypes_matches (h : Matches f ρ a b) (hρ : ρ.TranslatesFrom a.supply.issued)
    (ha : Sound f a) (hb : Sound f b) (d : NodeId) :
    ((fieldTypes f d).run.run b).1 =
        ((fieldTypes f d).run.run a).1.map (List.map (Ty.relabel ρ)) ∧
      Matches f ρ ((fieldTypes f d).run.run a).2 ((fieldTypes f d).run.run b).2 := by
  -- Only one of the stores may keep an entry for something without fields, and it is empty.
  by_cases hd : f.structFields d = []
  · obtain ⟨a', hruna, hsupplya, hothersa⟩ := fieldTypes_run_nil ha hd
    obtain ⟨b', hrunb, hsupplyb, hothersb⟩ := fieldTypes_run_nil hb hd
    rw [hruna, hrunb]
    refine ⟨rfl, by rw [hsupplya, hsupplyb, h.issued], fun d' hd' => ?_⟩
    have hne : d' ≠ d := fun heq => hd' (heq ▸ hd)
    rw [hothersa d' hne, hothersb d' hne, h.fields d' hd']
  · rw [fieldTypes_run, fieldTypes_run, h.fields d hd]
    cases a.fields.get? d with
    | some ts => exact ⟨rfl, h⟩
    | none =>
      rw [h.issued]
      simp only [Option.map_none, typesFrom_relabel hρ]
      rcases typesFrom f (f.structFields d) a.supply.issued with ⟨e | ts, m⟩
      · exact ⟨rfl, rfl, h.fields⟩
      · refine ⟨rfl, rfl, fun d' hd' => ?_⟩
        simp only [Except.map]
        by_cases heq : d = d'
        · simp [OrderedMap.get?_insert, heq]
        · simp [OrderedMap.get?_insert, heq, h.fields d' hd']

/-- A call does the same to matching stores, up to the renaming. -/
theorem perform_matches (h : Matches f ρ a b) (hρ : ρ.TranslatesFrom a.supply.issued)
    (ha : Sound f a) (hb : Sound f b) (c : Call) :
    (record f b c).answer = (record f a c).answer.map (Answer.relabel ρ) ∧
      Matches f ρ (after f a c) (after f b c) := by
  simp only [record, after, perform_run, h.issued]
  cases c.subject f with
  | none =>
    have hnext := congrArg TyVar.index (hρ c.spent)
    exact ⟨answerFrom_relabel c fun _ => [], hnext.symm, h.fields⟩
  | some d =>
    obtain ⟨hresult, hmatch⟩ := h.fieldTypes_matches hρ ha hb d
    rcases hruna : (fieldTypes f d).run.run a with ⟨e | ts, a'⟩
    all_goals
      rcases hrunb : (fieldTypes f d).run.run b with ⟨e' | us, b'⟩
      all_goals
        rw [hruna, hrunb] at hresult hmatch
        cases hresult
    · simpa only [hruna, hrunb] using ⟨rfl, hmatch⟩
    · simpa only [hruna, hrunb] using ⟨answerFrom_relabel c fun _ => ts, hmatch⟩

/-- Runs from matching stores give the same answers up to the renaming. -/
theorem answers_eq (h : Matches f ρ a b) (hρ : ρ.TranslatesFrom a.supply.issued)
    (ha : Sound f a) (hb : Sound f b) (calls : List Call) :
    (transcript f b calls).map Record.answer =
      (transcript f a calls).map fun r => r.answer.map (Answer.relabel ρ) := by
  induction calls generalizing a b with
  | nil => rfl
  | cons c rest ih =>
    obtain ⟨hanswer, hmatch⟩ := h.perform_matches hρ ha hb c
    have hle := (step_record f c a).issued_le
    have hrest := ih hmatch (hρ.mono hle) ((step_record f c a).sound ha)
      ((step_record f c b).sound hb)
    simp only [transcript, List.map_cons, hanswer, hrest]

end Matches

/-- A call that fails leaves the store as it was, up to renaming the variables not yet issued. -/
theorem Step.matches_of_failed {c : Call} {store store' : TypeStore}
    {answer : Except TypeExprError Answer} (h : Step f c store answer store') (hs : Sound f store)
    (hfail : ¬ ∃ a, answer = .ok a) :
    Matches f (.shift store.supply.issued (store'.supply.issued - store.supply.issued)) store
      store' := by
  have hle := h.issued_le
  have hfixed : ∀ {d ts} (k : Nat), store.fields.get? d = some ts →
      ts.map (Ty.relabel (.shift store.supply.issued k)) = ts := by
    intro d ts k hd
    calc ts.map (Ty.relabel (.shift store.supply.issued k))
        = ts.map id := List.map_congr_left fun t ht => Ty.relabel_of_fixed fun v hv =>
          Relabeling.shift_of_lt (hs.lt_issued hd ht hv)
      _ = ts := List.map_id ts
  refine ⟨?_, fun d hfields => ?_⟩
  · have hmoved : Relabeling.shift store.supply.issued
        (store'.supply.issued - store.supply.issued) ⟨store.supply.issued⟩ =
          ⟨store.supply.issued + (store'.supply.issued - store.supply.issued)⟩ :=
      Relabeling.shift_of_le (Nat.le_refl _)
    rw [hmoved]
    exact (Nat.add_sub_of_le hle).symm
  · cases hd : store.fields.get? d with
    | some ts => simp [h.keeps hd, hfixed _ hd]
    | none =>
      cases hd' : store'.fields.get? d with
      | none => rfl
      | some ts =>
        -- A struct with fields that has been worked out has a constructor too.
        obtain ⟨hc, hts⟩ := h.settles hd hd'
        have hcan := Call.answerable_of_readable hc hfields (readable_of_typesFrom hts)
        exact absurd ((h.succeeds_iff hs).2 hcan) hfail

end Renaming

section Agreement

structure FixedOnce (f : Forest) (supply : Supply) (records : List Record)
    (types : NodeId → List Ty) : Prop where
  /-- Whether a call succeeds depends on the tree alone. -/
  succeeds : ∀ r ∈ records, r.Succeeds ↔ r.call.Answerable f
  /-- A call that succeeds is answered from the table. -/
  answers : ∀ r ∈ records, ∀ a, r.answer = .ok a → r.call.answerFrom f types r.first = .ok a
  /-- A field that is listed once has the type of the input of the constructor at its position. -/
  inputs : ∀ r ∈ records, ∀ r' ∈ records, ∀ (x d : NodeId) (i : Nat) (t : Option Ty) (T : Ty),
    r.call = .field x → r.answer = .ok (.field t) →
    r'.call = .construct d → r'.answer = .ok (.construct T) →
    f.parent? x = some d → (∀ j, (f.structFields d)[j]? = some x ↔ j = i) →
    ∃ ins output A, T.peel (f.structFields d).length = some (ins, output) ∧
      ins[i]? = some A ∧ t = some A
  /-- A field with a type expression has the type it stands for, which has no variables. -/
  annotated : ∀ r ∈ records, r.Succeeds → ∀ (d : NodeId) (i : Nat) (x e : NodeId),
    r.call.subject f = some d → (f.structFields d)[i]? = some x → f.annotation? x = some e →
    ∃ A, evalType f e = .ok A ∧ (types d)[i]? = some A ∧ A.vars = []
  /-- Any other field has a variable, which is drawn in the run, by a call about the struct that
  succeeds and by no other call. -/
  unannotated : ∀ r ∈ records, r.Succeeds → ∀ (d : NodeId) (i : Nat) (x : NodeId),
    r.call.subject f = some d → (f.structFields d)[i]? = some x → f.annotation? x = none →
    ∃ v, (types d)[i]? = some (.var v) ∧ supply.issued ≤ v.index ∧ (∃ r' ∈ records, r'.Draws v) ∧
      ∀ r' ∈ records, r'.Draws v → r'.call.subject f = some d ∧ r'.Succeeds
  /-- A variable drawn for something else is drawn in that call. -/
  drawn : ∀ r ∈ records, ∀ v, r.answer = .ok (.drawn (.var v)) → r.Draws v
  /-- No variable is that of two fields. -/
  distinct : ∀ (d d' : NodeId) (i i' : Nat) (v : TyVar),
    (types d)[i]? = some (.var v) → (types d')[i']? = some (.var v) → d = d' ∧ i = i'
  /-- Two nodes that are fields with the same variable are the same. -/
  apart : ∀ r ∈ records, ∀ r' ∈ records, ∀ x y v, r.call = .field x → r'.call = .field y →
    r.answer = .ok (.field (some (.var v))) → r'.answer = .ok (.field (some (.var v))) → x = y

/-- The field types that a store keeps in the end are behind all records of the run. -/
theorem fixedOnce_table (f : Forest) (supply : Supply) (calls : List Call) :
    FixedOnce f supply (transcript f (start supply) calls)
      (afterAll f (start supply) calls).table where
  succeeds r hr := by
    obtain ⟨s, s', hs, hstep, -⟩ := exists_step (sound_start f supply) hr
    exact hstep.succeeds_iff hs
  answers r hr a ha := answered_by_table hr ha
  inputs := by
    intro r hr r' hr' x d i t T hx ht hd hT hp hi
    have hlisted := (hi i).2 rfl
    have hne : f.structFields d ≠ [] := List.ne_nil_of_mem (List.mem_of_getElem? hlisted)
    obtain ⟨output, hpeel⟩ := construct_answer hr' hd hT hne
    obtain ⟨n, m, htypes⟩ := exists_settled_subject hr' ⟨_, hT⟩ (by rw [hd, Call.subject])
    obtain ⟨A, hA, -⟩ := getElem?_typesFrom htypes hlisted
    have ht := field_answer hr hx ht
    rw [Forest.slot?_eq hp hi, Option.bind_some, hA] at ht
    exact ⟨_, output, A, hpeel, hA, ht⟩
  annotated := by
    intro r hr hok d i x e hc hx he
    obtain ⟨n, m, htypes⟩ := exists_settled_subject hr hok hc
    obtain ⟨A, hA, hspec⟩ := getElem?_typesFrom htypes hx
    rw [he] at hspec
    exact ⟨A, hspec, hA, vars_of_evalType hspec⟩
  unannotated := by
    intro r hr hok d i x hc hx he
    obtain ⟨n, m, htypes⟩ := exists_settled_subject hr hok hc
    obtain ⟨A, hA, hspec⟩ := getElem?_typesFrom htypes hx
    rw [he] at hspec
    obtain ⟨v, rfl, -⟩ := hspec
    obtain ⟨⟨r', hr', hdraws⟩, honly⟩ := draws_of_table hA
    have hlow := issued_le_first hr'
    exact ⟨v, hA, Nat.le_trans hlow hdraws.1, ⟨r', hr', hdraws⟩, honly⟩
  drawn r hr v hv := draws_of_drawn hr hv
  distinct d d' i i' v h h' := table_injective h h'
  apart := by
    intro r hr r' hr' x y v hx hy ha ha'
    obtain ⟨slot, hslot, ht⟩ := Option.bind_eq_some_iff.1 (field_answer hr hx ha).symm
    obtain ⟨slot', hslot', ht'⟩ := Option.bind_eq_some_iff.1 (field_answer hr' hy ha').symm
    have hsame : slot = slot' := by
      obtain ⟨hd, hi⟩ := table_injective ht ht'
      exact Prod.ext hd hi
    have hxi := Forest.getElem?_of_slot? hslot
    have hyi := Forest.getElem?_of_slot? hslot'
    rw [← hsame, hxi, Option.some.injEq] at hyi
    exact hyi

/-- Field types are fixed once: all calls of a run that succeed are answered from one table, in
which fields without a type expression have variables of their own, and after a call that fails
the answers are those without the call, with the variables drawn later renumbered. -/
theorem field_types_fixed_once (f : Forest) (supply : Supply) (calls : List Call) :
    (∃ types, FixedOnce f supply (transcript f (start supply) calls) types) ∧
      ∀ before c rest, calls = before ++ c :: rest → ∃ done r later others,
        transcript f (start supply) calls = done ++ r :: later ∧
        transcript f (start supply) (before ++ rest) = done ++ others ∧
        done.map Record.call = before ∧ r.call = c ∧
        (¬ r.Succeeds → later.map Record.answer = others.map fun other =>
          other.answer.map (Answer.relabel (.shift r.first (r.issued - r.first)))) := by
  refine ⟨⟨_, fixedOnce_table f supply calls⟩, ?_⟩
  intro before c rest hcalls
  subst hcalls
  let store := afterAll f (start supply) before
  have hs : Sound f store := afterAll_sound (sound_start f supply)
  have hstep := step_record f c store
  refine ⟨_, record f store c, _, _, transcript_append f _ before (c :: rest),
    transcript_append f _ before rest, map_call_transcript f _ before, rfl, fun hfail => ?_⟩
  exact (hstep.matches_of_failed hs hfail).answers_eq (Relabeling.translatesFrom_shift _ _) hs
    (hstep.sound hs) rest

/-- A struct with two fields of no declared type, and one with such a field and a field whose type
is not resolved. -/
def openStructs : Forest := (Tree.ofKinds [
  .parameter ⟨1⟩ none, .parameter ⟨2⟩ none, .structDecl ⟨3⟩ [⟨0⟩, ⟨1⟩] [],
  .typeReference ⟨⟨3⟩, none⟩, .parameter ⟨4⟩ none, .parameter ⟨5⟩ (some ⟨3⟩),
  .structDecl ⟨6⟩ [⟨4⟩, ⟨5⟩] [],
  .moduleDecl ⟨7⟩ false [⟨2⟩, ⟨6⟩], .file [⟨7⟩]]).toForest

/-- The second struct cannot be read, which uses up a variable, and the first one then has the two
variables after it. -/
theorem field_types_fixed_once_open : ∃ r later,
    transcript openStructs (start Supply.empty) [.fields ⟨6⟩, .fields ⟨2⟩] = r :: later ∧
      ¬ r.Succeeds ∧ later.map Record.answer = [.ok (.fields [.var ⟨1⟩, .var ⟨2⟩])] := by
  obtain ⟨⟨types, hfixed⟩, hisolated⟩ :=
    field_types_fixed_once openStructs Supply.empty [.fields ⟨6⟩, .fields ⟨2⟩]
  obtain ⟨done, r, later, others, hwith, hwithout, hdone, hcall, hanswers⟩ :=
    hisolated [] (.fields ⟨6⟩) [.fields ⟨2⟩] rfl
  obtain rfl : done = [] := List.map_eq_nil_iff.1 hdone
  have hfail : ¬ r.Succeeds := by
    rw [hfixed.succeeds r (by simp [hwith]), hcall]
    intro hreadable
    obtain ⟨A, hA⟩ := hreadable ⟨5⟩ (by decide +kernel) ⟨3⟩ (by decide +kernel)
    rw [evalType] at hA
    cases hA
  have hr := (List.cons.inj hwith).1
  have hissued : r.first = 0 ∧ r.issued = 1 := by
    rw [← hr]
    exact ⟨rfl, by decide +kernel⟩
  have hothers : others.map Record.answer = [.ok (.fields [.var ⟨0⟩, .var ⟨1⟩])] := by
    have hrun : others = transcript openStructs (start Supply.empty) [.fields ⟨2⟩] := hwithout.symm
    rw [hrun]
    rfl
  refine ⟨r, later, hwith, hfail, ?_⟩
  calc later.map Record.answer
      = (others.map Record.answer).map (Except.map (Answer.relabel (.shift 0 1))) := by
        rw [hanswers hfail, hissued.1, hissued.2, List.map_map]
        rfl
    _ = [.ok (.fields [.var ⟨1⟩, .var ⟨2⟩])] := by
        rw [hothers]
        rfl

end Agreement

end TypeStore

end SemanticAnalysis
