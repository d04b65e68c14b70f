import SemanticAnalysis.Core.Term

/-!
Parts of core terms. A term is made of the terms inside it; what is put around
them when calls, abstractions and conditionals are built binds nothing by a let
and stems from at most one node.
-/

namespace SemanticAnalysis.Term

def origin? : Term → Option NodeId
  | .app _ _ origin | .lam _ _ origin => origin
  | _ => none

def subterms : Term → List Term
  | .app arg func _ => [func, arg]
  | .lam _ body _ => [body]
  | .letIn binder _ usage => [binder, usage]
  | .tuple items => items
  | _ => []

inductive Part : Term → Term → Prop where
  | self (e : Term) : Part e e
  | inside {e' c e : Term} (member : c ∈ e.subterms) (part : Part e' c) : Part e' e

theorem part_iff {e' e : Term} : Part e' e ↔ e' = e ∨ ∃ c ∈ e.subterms, Part e' c := by
  constructor
  · rintro (_ | ⟨hc, hpart⟩)
    · exact Or.inl rfl
    · exact Or.inr ⟨_, hc, hpart⟩
  · rintro (rfl | ⟨c, hc, hpart⟩)
    · exact .self e'
    · exact .inside hc hpart

theorem Part.trans {a b c : Term} (hab : Part a b) (hbc : Part b c) : Part a c := by
  induction hbc with
  | self => exact hab
  | inside hc _ ih => exact .inside hc ih

variable {P : Term → Prop} {es fs : List Term} {e e' : Term} {n : NodeId} {own : Option NodeId}

/-- A term is made of other terms and of parts of its own that a property holds of. -/
structure Wraps (P : Term → Prop) (es : List Term) (e : Term) : Prop where
  split : ∀ e', Part e' e → P e' ∨ ∃ c ∈ es, Part e' c
  whole : ∀ c ∈ es, Part c e

theorem wraps_self (P : Term → Prop) (e : Term) : Wraps P [e] e where
  split _ h := Or.inr ⟨e, List.mem_singleton_self e, h⟩
  whole _ hc := List.mem_singleton.1 hc ▸ .self e

theorem wraps_of_subterms (h : P e) : Wraps P e.subterms e where
  split e' h' := by
    rcases part_iff.1 h' with rfl | hsub
    · exact Or.inl h
    · exact Or.inr hsub
  whole c hc := .inside hc (.self c)

/-- The terms that a wrapped term is made of may be taken instead of it. -/
theorem Wraps.step (h : Wraps P (e' :: fs) e) (h' : Wraps P es e') : Wraps P (es ++ fs) e where
  split a ha := by
    rcases h.split a ha with ha | ⟨c, hc, ha⟩
    · exact Or.inl ha
    · rcases List.mem_cons.1 hc with rfl | hc
      · refine (h'.split a ha).imp_right ?_
        rintro ⟨c, hc, ha⟩
        exact ⟨c, List.mem_append_left _ hc, ha⟩
      · exact Or.inr ⟨c, List.mem_append_right _ hc, ha⟩
  whole c hc := by
    rcases List.mem_append.1 hc with hc | hc
    · exact (h'.whole c hc).trans (h.whole e' (List.mem_cons_self ..))
    · exact h.whole c (List.mem_cons_of_mem _ hc)

theorem Wraps.perm (h : Wraps P es e) (hperm : es.Perm fs) : Wraps P fs e where
  split a ha := by
    refine (h.split a ha).imp_right ?_
    rintro ⟨c, hc, ha⟩
    exact ⟨c, hperm.mem_iff.1 hc, ha⟩
  whole c hc := h.whole c (hperm.mem_iff.2 hc)

theorem Wraps.imp {Q : Term → Prop} (h : Wraps P es e) (hPQ : ∀ e, P e → Q e) : Wraps Q es e where
  split a ha := (h.split a ha).imp_left (hPQ a)
  whole := h.whole

def Plain (own : Option NodeId) (e : Term) : Prop :=
  (e.origin? = none ∨ e.origin? = own) ∧ ∀ binder x usage, e ≠ .letIn binder x usage

theorem wraps_plain (e : Term) (horigin : e.origin? = none ∨ e.origin? = own)
    (hlet : ∀ binder x usage, e ≠ .letIn binder x usage) : Wraps (Plain own) e.subterms e :=
  wraps_of_subterms ⟨horigin, hlet⟩

theorem wraps_var (own : Option NodeId) (x : CoreVar) : Wraps (Plain own) [] (.var x) :=
  wraps_plain (.var x) (Or.inl rfl) nofun

theorem wraps_unit (own : Option NodeId) : Wraps (Plain own) [] unit :=
  wraps_plain unit (Or.inl rfl) nofun

theorem wraps_app {arg func : Term} {origin : Option NodeId} (h : origin = none ∨ origin = own) :
    Wraps (Plain own) [func, arg] (.app arg func origin) :=
  wraps_plain (.app arg func origin) h nofun

/-- Arguments are put around a function one by one. -/
theorem wraps_foldl (args : List Term) (h : Wraps (Plain own) es e) :
    Wraps (Plain own) (es ++ args) (args.foldl (fun f arg => .app arg f none) e) := by
  induction args generalizing es e with
  | nil => simpa using h
  | cons arg rest ih =>
    have hfirst : Wraps (Plain own) (es ++ [arg]) (.app arg e none) :=
      (wraps_app (Or.inl rfl)).step h
    simpa using ih hfirst

theorem wraps_call (args : List Term) (h : Wraps (Plain own) es e) :
    Wraps (Plain own) (es ++ args) (call args e) := by
  cases args with
  | nil =>
    have hunit : Wraps (Plain own) [e] (.app unit e none) := by
      have happ : Wraps (Plain own) [e, unit] (.app unit e none) := wraps_app (Or.inl rfl)
      exact (happ.perm (List.Perm.swap ..)).step (wraps_unit _)
    simpa [call] using hunit.step h
  | cons arg rest => exact wraps_foldl (arg :: rest) h

theorem origin?_call_withOrigin (args : List Term) (func : Term) :
    ((call args func).withOrigin n).origin? = some n := by
  rcases List.eq_nil_or_concat args with rfl | ⟨init, last, rfl⟩
  · rfl
  · cases init <;> simp [call, withOrigin, origin?]

/-- A call is made of its function and its arguments, also if it stems from a node. -/
theorem wraps_call_withOrigin (args : List Term) (func : Term) :
    Wraps (Plain (some n)) (func :: args) ((call args func).withOrigin n) := by
  rcases List.eq_nil_or_concat args with rfl | ⟨init, last, hargs⟩
  · have happ : Wraps (Plain (some n)) [func, unit] (.app unit func (some n)) :=
      wraps_app (Or.inr rfl)
    exact (happ.perm (List.Perm.swap ..)).step (wraps_unit _)
  · have hcall : (call (init ++ [last]) func).withOrigin n =
        .app last (init.foldl (fun f arg => .app arg f none) func) (some n) := by
      cases init <;> simp [call, withOrigin]
    rw [hargs, List.concat_eq_append, hcall]
    exact (wraps_app (Or.inr rfl)).step (wraps_foldl init (wraps_self _ func))

/-- An abstraction is made of its body. -/
theorem wraps_abstract (own : Option NodeId) (binds : List CoreVar) (body : Term) :
    Wraps (Plain own) [body] (abstract binds body) := by
  induction binds with
  | nil => exact wraps_self _ body
  | cons x rest ih =>
    have hlam : Wraps (Plain own) [abstract rest body] (.lam x (abstract rest body) none) :=
      wraps_plain (.lam x (abstract rest body) none) (Or.inl rfl) nofun
    exact hlam.step ih

end SemanticAnalysis.Term
