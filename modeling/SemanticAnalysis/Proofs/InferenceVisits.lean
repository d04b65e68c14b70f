import Mathlib.Logic.Relation
import SemanticAnalysis.Proofs.InferenceRuns

/-!
What inference comes to on its way. A query is a term to be inferred, with the
context and the state this starts from, and it leads on to the queries for the
parts of the term, each from where inference of the parts before it got to. The
queries that a term leads to, over any number of steps, are what a statement
about every let or every application that is met speaks of; runs that fail
later on are included.
-/

namespace SemanticAnalysis

namespace Inference

section Fuel

variable {α β : Type} {st : State}

def Finds (x : Nat → Infer α) (st : State) (a : α) (st' : State) : Prop :=
  ∃ n, Yields (x n) st a st'

def Persistent (x : Nat → Infer α) : Prop := ∀ n m, n ≤ m → GoesOn (x n) (x m)

theorem persistent_infer (Γ : Context) (e : Term) : Persistent (infer · Γ e) :=
  fun _ _ h => infer_goesOn h e Γ

theorem persistent_meetAssumed (Γ : Context) (x : CoreVar) (s : Subst) (t : Ty) :
    Persistent (meetAssumed · Γ x s t) :=
  fun _ _ h => meetAssumed_goesOn h Γ x s t

theorem persistent_inferItems (Γ : Context) (s : Subst) (ts : List Ty) (items : List Term) :
    Persistent (inferItems · Γ s ts items) :=
  fun _ _ h => inferItems_goesOn (fun e _ Γ => infer_goesOn h e Γ) Γ s ts

theorem persistent_solve (a b : Ty) : Persistent (solve · a b) := fun _ _ h => solve_goesOn h a b

theorem persistent_const (x : Infer α) : Persistent fun _ => x := fun _ _ _ => GoesOn.refl x

theorem Persistent.bind {x : Nat → Infer α} {f : Nat → α → Infer β} (hx : Persistent x)
    (hf : ∀ a, Persistent (f · a)) : Persistent fun n => x n >>= f n :=
  fun n m h => GoesOn.bind (hx n m h) fun a => hf a n m h

/-- What is found in two steps is found in the first and then in the second one, with fuel enough
for both. -/
theorem finds_bind_iff {x : Nat → Infer α} {f : Nat → α → Infer β} (hx : Persistent x)
    (hf : ∀ a, Persistent (f · a)) {b : β} {st' : State} :
    Finds (fun n => x n >>= f n) st b st' ↔
      ∃ a st₁, Finds x st a st₁ ∧ Finds (f · a) st₁ b st' := by
  constructor
  · intro h
    obtain ⟨n, hn⟩ := h
    obtain ⟨a, st₁, hx, hf⟩ := yields_bind.1 hn
    exact ⟨a, st₁, ⟨n, hx⟩, n, hf⟩
  · intro h
    obtain ⟨a, st₁, ⟨n, hn⟩, m, hm⟩ := h
    refine ⟨max n m, yields_bind.2 ⟨a, st₁, ?_, ?_⟩⟩
    · exact hx n _ (Nat.le_max_left n m) st _ hn
    · exact hf a m _ (Nat.le_max_right n m) st₁ _ hm

end Fuel

structure Query where
  context : Context
  term : Term
  state : State

/-- To infer the first term the second one is inferred. -/
inductive Enters : Query → Query → Prop
  | func {Γ arg func origin st} : Enters ⟨Γ, .app arg func origin, st⟩ ⟨Γ, func, st⟩
  | arg {Γ arg func origin st s t st₁} (hfunc : Finds (infer · Γ func) st (s, t) st₁) :
      Enters ⟨Γ, .app arg func origin, st⟩ ⟨Γ.substitute s, arg, st₁⟩
  | body {Γ x body origin st i st₁} (hbind : Yields (binderType Γ x) st i st₁) :
      Enters ⟨Γ, .lam x body origin, st⟩ ⟨Γ.insert x (Scheme.mono i), body, st₁⟩
  | binder {Γ binder x usage st} : Enters ⟨Γ, .letIn binder x usage, st⟩ ⟨Γ, binder, st⟩
  | usage {Γ binder x usage st s₀ t₀ st₀ s t st₁}
      (hbinder : Finds (infer · Γ binder) st (s₀, t₀) st₀)
      (hmeet : Finds (meetAssumed · Γ x s₀ t₀) st₀ (s, t) st₁) :
      Enters ⟨Γ, .letIn binder x usage, st⟩ ⟨usageContext Γ s x t, usage, st₁⟩
  | item {Γ before item after st s ts st₁}
      (hbefore : Finds (inferItems · Γ Subst.empty [] before) st (s, ts) st₁) :
      Enters ⟨Γ, .tuple (before ++ item :: after), st⟩ ⟨Γ.substitute s, item, st₁⟩

abbrev Visits : Query → Query → Prop := Relation.ReflTransGen Enters

theorem Enters.sizeOf_lt {q q' : Query} (h : Enters q q') : sizeOf q'.term < sizeOf q.term := by
  cases h with
  | @item Γ before item after =>
    have hmem : item ∈ before ++ item :: after := by simp
    have := List.sizeOf_lt_of_mem hmem
    simp only [Term.tuple.sizeOf_spec]
    omega
  | _ =>
    simp only [Term.app.sizeOf_spec, Term.lam.sizeOf_spec, Term.letIn.sizeOf_spec]
    omega

end Inference

end SemanticAnalysis
