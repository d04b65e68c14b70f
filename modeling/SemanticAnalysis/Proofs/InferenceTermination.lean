import SemanticAnalysis.Proofs.EndlessUnification
import SemanticAnalysis.Proofs.InferenceVisits

/-!
When inference comes to an answer. It follows the term, so it goes on without
end only in a unification: inference of a term ends when every unification that
it comes to does. Together with what endless unification takes this says when a
program is checked in finitely many steps.
-/

namespace SemanticAnalysis

namespace Inference

open Ty

section Halting

variable {α β : Type} {st : State}

def Halts (x : Nat → Infer α) (st : State) : Prop := ∃ n r, (x n).run.run st = some r

/-- A computation in two steps ends if the first one does, and the second one after it. -/
theorem halts_bind_iff {x : Nat → Infer α} {f : Nat → α → Infer β} (hx : Persistent x)
    (hf : ∀ a, Persistent (f · a)) :
    Halts (fun n => x n >>= f n) st ↔
      Halts x st ∧ ∀ a st₁, Finds x st a st₁ → Halts (f · a) st₁ := by
  constructor
  · intro h
    obtain ⟨n, r, hr⟩ := h
    constructor
    · cases hxr : (x n).run.run st with
      | none => simp [ExceptT.run_bind, StateT.run_bind, hxr] at hr
      | some r' => exact ⟨n, r', hxr⟩
    · intro a st₁ hfound
      obtain ⟨m, hm⟩ := hfound
      have hall := (hx.bind hf) n (max n m) (Nat.le_max_left n m) st r hr
      rw [run_bind_of_yields (hx m (max n m) (Nat.le_max_right n m) st _ hm)] at hall
      exact ⟨max n m, r, hall⟩
  · intro h
    obtain ⟨⟨n, ⟨r, st₁⟩, hr⟩, hrest⟩ := h
    cases r with
    | error e => exact ⟨n, (.error e, st₁), by simp [ExceptT.run_bind, StateT.run_bind, hr]⟩
    | ok a =>
      obtain ⟨m, r', hr'⟩ := hrest a st₁ ⟨n, hr⟩
      refine ⟨max n m, r', ?_⟩
      rw [run_bind_of_yields (hx n _ (Nat.le_max_left n m) st _ hr)]
      exact hf a m _ (Nat.le_max_right n m) st₁ r' hr'

theorem halts_pure (a : α) : Halts (fun _ => pure a) st := ⟨0, (.ok a, st), rfl⟩

theorem finds_pure_iff {a b : α} {st' : State} :
    Finds (fun _ => pure a) st b st' ↔ b = a ∧ st' = st := by
  simp [Finds, yields_pure]

theorem halts_record (origin : Option NodeId) (t : Ty) (a : α) :
    Halts (fun _ => do record origin t; return a) st := by
  refine ⟨0, (.ok a, st.noted origin t), ?_⟩
  cases origin <;> rfl

/-- What surely ends does not keep a computation that goes before it from ending. -/
theorem halts_bind_const_iff {x : Nat → Infer α} {f : α → Infer β}
    (hx : Persistent x) (hf : ∀ a st, Halts (fun _ => f a) st) :
    Halts (fun n => x n >>= f) st ↔ Halts x st := by
  rw [halts_bind_iff (f := fun _ => f) hx fun a => persistent_const (f a)]
  exact and_iff_left fun a st₁ _ => hf a st₁

theorem halts_bind_of_yields {x : Infer α} {f : Nat → α → Infer β} {a : α}
    {st₁ : State} (h : Yields x st a st₁) :
    Halts (fun n => x >>= f n) st ↔ Halts (f · a) st₁ := by
  simp only [Halts, run_bind_of_yields h]

/-- Unification within inference ends where unification comes to an answer. -/
theorem halts_solve_iff {a b : Ty} :
    Halts (solve · a b) st ↔ ∃ r, Unification.Returns a b r := by
  constructor
  · intro h
    obtain ⟨n, r, hr⟩ := h
    cases h : (unify n a b).run with
    | none =>
      simp only [solve, h] at hr
      simp [ExceptT.run, ExceptT.mk, StateT.run] at hr
    | some r' => exact ⟨r', Unification.returns_iff.2 ⟨n, h⟩⟩
  · intro h
    obtain ⟨r, hr⟩ := h
    obtain ⟨n, hn⟩ := Unification.returns_iff.1 hr
    cases r with
    | error e => exact ⟨n, (.error (.ofUnify e), st), by simp [solve, hn]⟩
    | ok s => exact ⟨n, (.ok s, st), by simp [solve, hn]⟩

theorem returns_iff_halts {Γ : Context} {e : Term} :
    (∃ r, Returns Γ e st r) ↔ Halts (infer · Γ e) st := by
  constructor
  · intro h
    obtain ⟨r, n, hn⟩ := h
    exact ⟨n, r, hn n (Nat.le_refl n)⟩
  · intro h
    obtain ⟨n, r, hr⟩ := h
    exact ⟨r, returns_of_run hr⟩

end Halting

section Forms

variable {Γ : Context} {st : State}

/-- A call ends if its function, its argument and the unification of the two do. -/
theorem halts_app_iff {arg func : Term} {origin : Option NodeId} :
    Halts (infer · Γ (.app arg func origin)) st ↔
      Halts (infer · Γ func) st ∧ ∀ r₁ st₁, Finds (infer · Γ func) st r₁ st₁ →
        Halts (infer · (Γ.substitute r₁.1) arg) st₁ ∧
        ∀ r₂ st₂, Finds (infer · (Γ.substitute r₁.1) arg) st₁ r₂ st₂ →
          ∃ r, Unification.Returns (r₂.1.apply r₁.2) (.fn r₂.2 (.var st₂.next)) r := by
  have hfinish : ∀ r₁ r₂ : Subst × Ty, Persistent fun n => do
      let b ← freshVar
      let s₃ ← solve n (r₂.1.apply r₁.2) (.fn r₂.2 b)
      record origin (s₃.apply b)
      return ((s₃.compose r₂.1).compose r₁.1, s₃.apply b) := fun r₁ r₂ =>
    (persistent_const freshVar).bind fun b =>
      (persistent_solve _ _).bind fun _ => persistent_const _
  simp only [infer]
  rw [halts_bind_iff (persistent_infer Γ func) fun r₁ =>
    (persistent_infer _ arg).bind (hfinish r₁)]
  refine and_congr_right fun _ => forall₂_congr fun r₁ st₁ => imp_congr_right fun _ => ?_
  rw [halts_bind_iff (persistent_infer _ arg) (hfinish r₁)]
  refine and_congr_right fun _ => forall₂_congr fun r₂ st₂ => imp_congr_right fun _ => ?_
  rw [halts_bind_of_yields (yields_freshVar.2 ⟨rfl, rfl⟩),
    halts_bind_const_iff (persistent_solve _ _) fun _ _ => halts_record _ _ _, halts_solve_iff]

theorem halts_lam_iff {x : CoreVar} {body : Term} {origin : Option NodeId} {i : Ty} {st₁ : State}
    (hbind : Yields (binderType Γ x) st i st₁) :
    Halts (infer · Γ (.lam x body origin)) st ↔
      Halts (infer · (Γ.insert x (Scheme.mono i)) body) st₁ := by
  simp only [infer]
  rw [halts_bind_of_yields hbind,
    halts_bind_const_iff (persistent_infer _ _) fun _ _ => halts_record _ _ _]

theorem exists_yields_binderType (Γ : Context) (x : CoreVar) (st : State) :
    ∃ i st₁, Yields (binderType Γ x) st i st₁ := by
  unfold binderType
  split
  · split
    · exact ⟨_, _, yields_pure.2 ⟨rfl, rfl⟩⟩
    · exact ⟨_, _, yields_freshVar.2 ⟨rfl, rfl⟩⟩
  · exact ⟨_, _, yields_freshVar.2 ⟨rfl, rfl⟩⟩

/-- A let-bound declaration meets what is assumed for it if unification with its instance ends. -/
theorem halts_meetAssumed_iff {x : CoreVar} {s : Subst} {t : Ty} :
    Halts (meetAssumed · Γ x s t) st ↔
      ∀ node σ expected st₁, x = .decl node → Γ.get? (.decl node) = some σ →
        Yields (instantiate (σ.substitute s)) st expected st₁ →
          ∃ r, Unification.Returns expected t r := by
  unfold meetAssumed
  split
  · rename_i node σ hσ
    have hexpected : Yields (instantiate (σ.substitute s)) st _ _ :=
      yields_instantiate.2 ⟨rfl, rfl⟩
    rw [halts_bind_of_yields hexpected,
      halts_bind_const_iff (persistent_solve _ _) fun _ _ => halts_pure _, halts_solve_iff]
    constructor
    · intro hr node' σ' expected st₁ heq hσ' hyields
      obtain rfl : node = node' := CoreVar.decl.inj heq
      obtain rfl : σ = σ' := Option.some.inj (hσ.symm.trans hσ')
      exact (hyields.unique hexpected).1 ▸ hr
    · intro h
      exact h node σ _ _ rfl hσ hexpected
  · rename_i hnone
    refine iff_of_true (halts_pure _) fun node σ _ _ heq hσ => ?_
    subst heq
    exact absurd hσ (hnone node σ rfl)

/-- A let ends if what it binds, the meeting and the usage do. -/
theorem halts_letIn_iff {binder usage : Term} {x : CoreVar} :
    Halts (infer · Γ (.letIn binder x usage)) st ↔
      Halts (infer · Γ binder) st ∧ ∀ r₀ st₀, Finds (infer · Γ binder) st r₀ st₀ →
        Halts (meetAssumed · Γ x r₀.1 r₀.2) st₀ ∧
        ∀ r₁ st₁, Finds (meetAssumed · Γ x r₀.1 r₀.2) st₀ r₁ st₁ →
          Halts (infer · (usageContext Γ r₁.1 x r₁.2) usage) st₁ := by
  have hfinish : ∀ r₁ : Subst × Ty, Persistent fun n => do
      let r₂ ← infer n (usageContext Γ r₁.1 x r₁.2) usage
      return (r₂.1.compose r₁.1, r₂.2) := fun r₁ =>
    (persistent_infer _ usage).bind fun _ => persistent_const _
  simp only [infer_letIn]
  rw [halts_bind_iff (persistent_infer Γ binder) fun r₀ =>
    (persistent_meetAssumed Γ x r₀.1 r₀.2).bind hfinish]
  refine and_congr_right fun _ => forall₂_congr fun r₀ st₀ => imp_congr_right fun _ => ?_
  rw [halts_bind_iff (persistent_meetAssumed Γ x r₀.1 r₀.2) hfinish]
  refine and_congr_right fun _ => forall₂_congr fun r₁ st₁ => imp_congr_right fun _ => ?_
  rw [halts_bind_const_iff (persistent_infer _ _) fun _ _ => halts_pure _]

/-- The rest of the items is inferred under what was found for the first one. -/
theorem finds_items_cons {s₀ : Subst} {ts₀ : List Ty} {e : Term} {rest : List Term}
    {r : Subst × List Ty} {st' : State} : Finds (inferItems · Γ s₀ ts₀ (e :: rest)) st r st' ↔
      ∃ a st₁, Finds (infer · (Γ.substitute s₀) e) st a st₁ ∧
        Finds (inferItems · Γ (a.1.compose s₀) (Subst.applyAll a.1 ts₀ ++ [a.2]) rest) st₁ r
          st' := by
  simp only [inferItems]
  exact finds_bind_iff (persistent_infer _ _) fun a => persistent_inferItems _ _ _ _

/-- Items are inferred in finitely many steps if each of them is, after the ones before it. -/
theorem halts_items_iff {s₀ : Subst} {ts₀ : List Ty} {items : List Term} :
    Halts (inferItems · Γ s₀ ts₀ items) st ↔
      ∀ before item after, items = before ++ item :: after → ∀ r st₁,
        Finds (inferItems · Γ s₀ ts₀ before) st r st₁ →
          Halts (infer · (Γ.substitute r.1) item) st₁ := by
  induction items generalizing s₀ ts₀ st with
  | nil =>
    refine iff_of_true ?_ fun before item after heq => by simp at heq
    simp only [inferItems]
    exact halts_pure _
  | cons e rest ih =>
    have hrest : ∀ r : Subst × Ty, Persistent
        (inferItems · Γ (r.1.compose s₀) (Subst.applyAll r.1 ts₀ ++ [r.2]) rest) :=
      fun r => persistent_inferItems _ _ _ _
    simp only [inferItems]
    rw [halts_bind_iff (persistent_infer _ _) hrest]
    constructor
    · intro h before item after heq r st₁ hbefore
      obtain ⟨hfirst, hnext⟩ := h
      cases before with
      | nil =>
        obtain ⟨rfl, rfl⟩ := finds_pure_iff.1 (by simpa only [inferItems] using hbefore)
        obtain ⟨rfl, -⟩ := List.cons.inj heq
        exact hfirst
      | cons e' before =>
        obtain ⟨rfl, htail⟩ := List.cons.inj heq
        obtain ⟨r', st₂, hr', hbefore⟩ := finds_items_cons.1 hbefore
        exact ih.1 (hnext r' st₂ hr') before item after htail r st₁ hbefore
    · intro h
      constructor
      · exact h [] e rest rfl (s₀, ts₀) st ⟨0, by simp [inferItems, yields_pure]⟩
      · intro r st₁ hr
        refine ih.2 fun before item after heq r' st₂ hbefore => ?_
        refine h (e :: before) item after (by rw [heq, List.cons_append]) r' st₂ ?_
        exact finds_items_cons.2 ⟨r, st₁, hr, hbefore⟩

theorem halts_tuple_iff {items : List Term} :
    Halts (infer · Γ (.tuple items)) st ↔ Halts (inferItems · Γ Subst.empty [] items) st := by
  simp only [infer]
  rw [halts_bind_const_iff (persistent_inferItems _ _ _ _) fun _ _ => halts_pure _]

end Forms

section Queries

variable {q : Query}

/-- The unifications that inference of a term calls for itself, besides those for its parts. -/
inductive Poses : Query → Ty → Ty → Prop
  | app {Γ arg func origin st s₁ t₁ st₁ s₂ t₂ st₂}
      (hfunc : Finds (infer · Γ func) st (s₁, t₁) st₁)
      (harg : Finds (infer · (Γ.substitute s₁) arg) st₁ (s₂, t₂) st₂) :
      Poses ⟨Γ, .app arg func origin, st⟩ (s₂.apply t₁) (.fn t₂ (.var st₂.next))
  | letIn {Γ binder node usage st s t st₁ σ expected st₂}
      (hbinder : Finds (infer · Γ binder) st (s, t) st₁) (hσ : Γ.get? (.decl node) = some σ)
      (hexpected : Yields (instantiate (σ.substitute s)) st₁ expected st₂) :
      Poses ⟨Γ, .letIn binder (.decl node) usage, st⟩ expected t

def Query.Ends (q : Query) : Prop := Halts (infer · q.context q.term) q.state

def Query.Follows (q : Query) : Prop :=
  q.Ends ↔ (∀ q', Enters q q' → q'.Ends) ∧
    ∀ a b, Poses q a b → ∃ r, Unification.Returns a b r

variable {Γ : Context} {st : State}

theorem follows_of_leaf (h : q.Ends) (hparts : ∀ q', ¬ Enters q q')
    (hposes : ∀ a b, ¬ Poses q a b) : q.Follows :=
  iff_of_true h ⟨fun q' hq' => absurd hq' (hparts q'), fun a b hab => absurd hab (hposes a b)⟩

theorem follows_var (x : CoreVar) : Query.Follows ⟨Γ, .var x, st⟩ := by
  refine follows_of_leaf ?_ (fun q' h => by cases h) fun a b h => by cases h
  cases hx : Γ.get? x with
  | none => exact ⟨0, (.error (.unknownVariable x), st), by simp [infer, hx]⟩
  | some σ => exact ⟨0, _, yields_var.2 ⟨σ, hx, rfl, yields_instantiate.2 ⟨rfl, rfl⟩⟩⟩

theorem follows_app (arg func : Term) (origin : Option NodeId) :
    Query.Follows ⟨Γ, .app arg func origin, st⟩ := by
  unfold Query.Follows Query.Ends
  rw [halts_app_iff]
  constructor
  · intro h
    refine ⟨fun q' hq' => ?_, fun a b hab => ?_⟩
    · cases hq' with
      | func => exact h.1
      | arg hfunc => exact (h.2 _ _ hfunc).1
    · cases hab with
      | app hfunc harg => exact (h.2 _ _ hfunc).2 _ _ harg
  · intro h
    refine ⟨h.1 _ .func, fun r₁ st₁ hfunc => ⟨h.1 _ (.arg hfunc), ?_⟩⟩
    exact fun r₂ st₂ harg => h.2 _ _ (.app hfunc harg)

theorem follows_lam (x : CoreVar) (body : Term) (origin : Option NodeId) :
    Query.Follows ⟨Γ, .lam x body origin, st⟩ := by
  obtain ⟨i, st₁, hbind⟩ := exists_yields_binderType Γ x st
  unfold Query.Follows Query.Ends
  rw [halts_lam_iff hbind]
  constructor
  · intro h
    refine ⟨fun q' hq' => ?_, fun a b hab => by cases hab⟩
    cases hq' with
    | body hbind' =>
      obtain ⟨rfl, rfl⟩ := hbind.unique hbind'
      exact h
  · intro h
    exact h.1 _ (.body hbind)

theorem follows_letIn (binder : Term) (x : CoreVar) (usage : Term) :
    Query.Follows ⟨Γ, .letIn binder x usage, st⟩ := by
  unfold Query.Follows Query.Ends
  rw [halts_letIn_iff]
  constructor
  · intro h
    refine ⟨fun q' hq' => ?_, fun a b hab => ?_⟩
    · cases hq' with
      | binder => exact h.1
      | @usage _ _ _ _ _ s₀ t₀ st₀ s₁ t₁ st₁ hbinder hmeet =>
        exact (h.2 (s₀, t₀) st₀ hbinder).2 (s₁, t₁) st₁ hmeet
    · cases hab with
      | letIn hbinder hσ hexpected =>
        exact halts_meetAssumed_iff.1 (h.2 _ _ hbinder).1 _ _ _ _ rfl hσ hexpected
  · intro h
    refine ⟨h.1 _ .binder, fun r₀ st₀ hbinder => ⟨?_, ?_⟩⟩
    · refine halts_meetAssumed_iff.2 fun node σ expected st₁ heq hσ hexpected => ?_
      subst heq
      exact h.2 _ _ (.letIn hbinder hσ hexpected)
    · exact fun r₁ st₁ hmeet => h.1 _ (.usage hbinder hmeet)

theorem follows_tuple (items : List Term) : Query.Follows ⟨Γ, .tuple items, st⟩ := by
  unfold Query.Follows Query.Ends
  rw [halts_tuple_iff, halts_items_iff]
  constructor
  · intro h
    refine ⟨fun q' hq' => ?_, fun a b hab => by cases hab⟩
    generalize heq : (⟨Γ, .tuple items, st⟩ : Query) = q at hq'
    cases hq' with
    | item hbefore =>
      obtain ⟨rfl, hitems, rfl⟩ := Query.mk.inj heq
      exact h _ _ _ (Term.tuple.inj hitems) _ _ hbefore
    | _ => cases heq
  · intro h before item after heq r st₁ hbefore
    subst heq
    exact h.1 _ (.item hbefore)

/-- Whatever the term, only its parts and its own unifications keep inference from ending. -/
theorem follows (q : Query) : q.Follows := by
  obtain ⟨Γ, e, st⟩ := q
  cases e with
  | var x => exact follows_var x
  | app arg func origin => exact follows_app arg func origin
  | lam x body origin => exact follows_lam x body origin
  | letIn binder x usage => exact follows_letIn binder x usage
  | number text =>
    refine follows_of_leaf ?_ (fun q' h => by cases h) fun a b h => by cases h
    simp only [Query.Ends, infer]
    exact halts_pure _
  | floating text =>
    refine follows_of_leaf ?_ (fun q' h => by cases h) fun a b h => by cases h
    simp only [Query.Ends, infer]
    exact halts_pure _
  | tuple items => exact follows_tuple items

/-- Inference of a term ends when every unification that it comes to does. -/
theorem ends_iff_visits :
    q.Ends ↔ ∀ q' a b, Visits q q' → Poses q' a b → ∃ r, Unification.Returns a b r := by
  induction hsize : sizeOf q.term using Nat.strong_induction_on generalizing q with
  | _ n ih =>
    have hparts : ∀ q₁, Enters q q₁ → (q₁.Ends ↔ ∀ q' a b, Visits q₁ q' → Poses q' a b →
        ∃ r, Unification.Returns a b r) := fun q₁ hq₁ => ih _ (hsize ▸ hq₁.sizeOf_lt) rfl
    refine (follows q).trans ⟨?_, ?_⟩
    · intro h q' a b hvisit hab
      rcases Relation.ReflTransGen.cases_head hvisit with rfl | ⟨q₁, hq₁, hrest⟩
      · exact h.2 a b hab
      · exact (hparts q₁ hq₁).1 (h.1 q₁ hq₁) q' a b hrest hab
    · intro h
      refine ⟨fun q₁ hq₁ => (hparts q₁ hq₁).2 fun q' a b hvisit => ?_, fun a b => ?_⟩
      · exact h q' a b (Relation.ReflTransGen.head hq₁ hvisit)
      · exact h q a b Relation.ReflTransGen.refl

end Queries

open Unification (Parts Calls Reenters Knot Endless twin)

/-- Unification comes to an answer on two types exactly if no chain of nested calls from them is
endless. There is none without a variable against another type that holds it where the occurs check
does not see it: an endless chain comes back again and again to a variable that was bound, each time
over one that is set so. Inference of a term, in any context and state, ends exactly if every
unification it comes to does. -/
theorem unification_termination (a b : Ty) :
    ((∃ r, Unification.Returns a b r) ↔ ¬ ∃ calls, calls 0 = (a, b) ∧ Endless calls) ∧
    (∀ calls, calls 0 = (a, b) → Endless calls → ∀ i, ∃ j, i ≤ j ∧
      Reenters (calls j) (calls (j + 1)) ∧
      ∃ q, Relation.ReflTransGen Calls (calls j) q ∧ Knot q) ∧
    ((∀ q, Relation.ReflTransGen Calls (a, b) q → ¬ Knot q) → ∃ r, Unification.Returns a b r) ∧
    ∀ Γ e st, (∃ r, Returns Γ e st r) ↔
      ∀ q x y, Visits ⟨Γ, e, st⟩ q → Poses q x y → ∃ r, Unification.Returns x y r := by
  refine ⟨Unification.returns_iff_no_endless, fun calls _ h => h.knots,
    Unification.Untied.returns, ?_⟩
  intro Γ e st
  rw [← ends_iff_visits, Query.Ends, returns_iff_halts]

/-- `x => k => (k ((x, x), (x, x)), k (x, x))` -/
def knottedTerm : Term :=
  let x := Term.var (.synthetic 0)
  let k := Term.var (.synthetic 1)
  .lam (.synthetic 0) (.lam (.synthetic 1)
    (.tuple [.app (.tuple [.tuple [x, x], .tuple [x, x]]) k none, .app (.tuple [x, x]) k none])
    none) none

/-- The first call makes `k` a function from `((a, a), (a, a))`, and the second one gives it
`(a, a)`. -/
theorem poses_knottedTerm :
    ∃ q, Visits ⟨OrderedMap.empty, knottedTerm, State.start ⟨0⟩⟩ q ∧
      Poses q (.fn (twin (twin (.var ⟨0⟩))) (.var ⟨2⟩)) (.fn (twin (.var ⟨0⟩)) (.var ⟨3⟩)) := by
  refine ⟨_, .head (.body (i := .var ⟨0⟩) (yields_freshVar.2 ⟨rfl, rfl⟩)) (.head (.body
    (i := .var ⟨1⟩) (yields_freshVar.2 ⟨rfl, rfl⟩)) (.single (@Enters.item _ [_] _ [] _ _ _ _
      ⟨1, rfl⟩))), ?_⟩
  exact @Poses.app _ _ _ _ _ Subst.empty (.fn (twin (twin (.var ⟨0⟩))) (.var ⟨2⟩)) ⟨⟨3⟩, []⟩
    Subst.empty (twin (.var ⟨0⟩)) ⟨⟨3⟩, []⟩ ⟨1, rfl⟩ ⟨1, rfl⟩

/-- `((b, b), (b, b))` and `(b, b)` are unified without end, and `knottedTerm` is checked
without end. -/
theorem unification_endless :
    (¬ ∃ r, Unification.Returns (twin (twin (.var ⟨1⟩))) (twin (.var ⟨1⟩)) r) ∧
      ¬ ∃ r, Returns OrderedMap.empty knottedTerm (State.start ⟨0⟩) r := by
  refine ⟨Unification.not_returns_twin ⟨1⟩, fun h => ?_⟩
  have hends := (ends_iff_visits (q := ⟨OrderedMap.empty, knottedTerm, State.start ⟨0⟩⟩)).1
    (returns_iff_halts.1 h)
  obtain ⟨q, hvisit, hposes⟩ := poses_knottedTerm
  have hinputs : Calls (.fn (twin (twin (.var ⟨0⟩))) (.var ⟨2⟩), .fn (twin (.var ⟨0⟩)) (.var ⟨3⟩))
      (twin (twin (.var ⟨0⟩)), twin (.var ⟨0⟩)) :=
    ⟨Subst.empty, by decide, [], _, _, _, 0, Parts.fn .., rfl, rfl⟩
  exact Unification.not_returns_twin ⟨0⟩
    (Unification.returns_of_calls (hends q _ _ hvisit hposes) hinputs)

end Inference

end SemanticAnalysis
