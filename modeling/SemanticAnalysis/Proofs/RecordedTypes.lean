import SemanticAnalysis.Proofs.InferenceRuns
import SemanticAnalysis.Proofs.Schemes
import SemanticAnalysis.Proofs.TermParts

/-!
The types that inference records. Each part of a term that stems from a node is
recorded with its type, and the type of an abstraction has the declared types of
the variables it binds as inputs, whatever is found out about the term later.
-/

namespace SemanticAnalysis

namespace Term

/-- A type of a term that takes the declared types of the variables that the term abstracts over. -/
def Shape (D : NodeId → Ty → Prop) : Term → Ty → Prop
  | .lam x body _, t => ∃ i o, t = .fn i o ∧ (∀ p A, x = .decl p → D p A → i = A) ∧ Shape D body o
  | _, _ => True

variable {D : NodeId → Ty → Prop}

theorem shape_withOrigin (e : Term) (n : NodeId) (t : Ty) :
    Shape D (e.withOrigin n) t ↔ Shape D e t := by
  cases e <;> simp [withOrigin, Shape]

/-- The type of an abstraction has an input for each variable it binds. -/
theorem shape_abstract {binds : List CoreVar} {body : Term} {t : Ty}
    (h : Shape D (Term.abstract binds body) t) : ∃ (inputs : List Ty) (output : Ty),
      t = inputs.foldr .fn output ∧ inputs.length = binds.length ∧
      ∀ (i : Nat) p A, binds[i]? = some (.decl p) → D p A → inputs[i]? = some A := by
  induction binds generalizing t with
  | nil => exact ⟨[], t, rfl, rfl, by simp⟩
  | cons x rest ih =>
    obtain ⟨a, o, rfl, ha, hbody⟩ := h
    obtain ⟨inputs, output, rfl, hlen, hinputs⟩ := ih hbody
    refine ⟨a :: inputs, output, rfl, by simp [hlen], fun i p A hx hA => ?_⟩
    cases i with
    | zero => simpa using ha p A (by simpa using hx) hA
    | succ i => simpa using hinputs i p A (by simpa using hx) hA

end Term

namespace Inference

open Term (Part Shape)

variable {D : NodeId → Ty → Prop} {Γ : Context} {fuel : Nat} {st st₁ st₂ st' : State} {s : Subst}
  {e : Term} {es es' : List Term} {t : Ty}

section Contexts

/-- Later substitutions do not change what a term takes. -/
theorem shape_apply (hD : ∀ p A, D p A → A.vars = []) (h : Shape D e t) (s : Subst) :
    Shape D e (s.apply t) := by
  induction e generalizing t with
  | lam x body origin ih =>
    obtain ⟨i, o, rfl, hi, hbody⟩ := h
    refine ⟨s.apply i, s.apply o, Subst.apply_fn .., fun p A hx hA => ?_, ih hbody⟩
    rw [hi p A hx hA, Subst.apply_of_closed (hD p A hA)]
  | _ => trivial

def Respects (D : NodeId → Ty → Prop) (Γ : Context) : Prop :=
  ∀ p A, D p A → Γ.get? (.decl p) = some (Scheme.mono A)

theorem Respects.substitute (hD : ∀ p A, D p A → A.vars = []) (h : Respects D Γ) (s : Subst) :
    Respects D (Γ.substitute s) := by
  intro p A hA
  rw [Context.get?_substitute, h p A hA, Option.map_some, Scheme.substitute_mono,
    Subst.apply_of_closed (hD p A hA)]

/-- The type of a binder is its declared type, and a context with it is as good as before. -/
theorem Respects.binder {x : CoreVar} {i : Ty} (h : Respects D Γ)
    (hi : Yields (binderType Γ x) st i st') :
    (∀ p A, x = .decl p → D p A → i = A) ∧ Respects D (Γ.insert x (Scheme.mono i)) ∧
      st'.judgements = st.judgements := by
  have hown : ∀ p A, x = .decl p → D p A → i = A := by
    rintro p A rfl hA
    have hmono : (Scheme.mono A).isMono = true := rfl
    have hpure : binderType Γ (.decl p) = pure (Scheme.mono A).body := by
      simp [binderType, h p A hA, hmono]
    rw [hpure, yields_pure] at hi
    exact hi.1
  refine ⟨hown, fun p A hA => ?_, ?_⟩
  · rw [OrderedMap.get?_insert]
    split
    · rename_i hx
      rw [hown p A hx hA]
    · exact h p A hA
  · rcases yields_binderType hi with ⟨σ, -, -, -, rfl⟩ | ⟨-, rfl⟩ <;> rfl

theorem Respects.letIn (hD : ∀ p A, D p A → A.vars = []) {x : CoreVar} (h : Respects D Γ)
    (hx : ∀ p A, x = .decl p → ¬ D p A) (s : Subst) (t : Ty) :
    Respects D (usageContext Γ s x t) := by
  intro p A hA
  have hne : x ≠ .decl p := fun hxp => hx p A hxp hA
  have hΓ := h.substitute hD s p A hA
  rw [usageContext, OrderedMap.get?_insert, if_neg hne, OrderedMap.get?_erase, if_neg hne.symm]
  exact hΓ

end Contexts

section Records

/-- What inferring terms one after the other records: a type for each part that stems from a node,
which takes what the part abstracts over. -/
structure Records (D : NodeId → Ty → Prop) (es : List Term) (st st' : State) : Prop where
  kept : st.judgements ⊆ st'.judgements
  sound : ∀ n T, (n, T) ∈ st'.judgements → (n, T) ∈ st.judgements ∨
    ∃ e ∈ es, ∃ e', Part e' e ∧ e'.origin? = some n ∧ Shape D e' T
  complete : ∀ e ∈ es, ∀ e' n, Part e' e → e'.origin? = some n → ∃ T, (n, T) ∈ st'.judgements

theorem Records.of_eq (h : st'.judgements = st.judgements) : Records D [] st st' where
  kept := by rw [h]; exact List.Subset.refl _
  sound n T hT := Or.inl (h ▸ hT)
  complete := by simp

/-- What is recorded for terms one after the other. -/
theorem Records.trans (h₁ : Records D es st st₁) (h₂ : Records D es' st₁ st₂) :
    Records D (es ++ es') st st₂ where
  kept := List.Subset.trans h₁.kept h₂.kept
  sound n T hT := by
    rcases h₂.sound n T hT with hT | ⟨e, he, hpart⟩
    · rcases h₁.sound n T hT with hT | ⟨e, he, hpart⟩
      · exact Or.inl hT
      · exact Or.inr ⟨e, List.mem_append_left _ he, hpart⟩
    · exact Or.inr ⟨e, List.mem_append_right _ he, hpart⟩
  complete e he e' n hpart horigin := by
    rcases List.mem_append.1 he with he | he
    · obtain ⟨T, hT⟩ := h₁.complete e he e' n hpart horigin
      exact ⟨T, h₂.kept hT⟩
    · exact h₂.complete e he e' n hpart horigin

theorem mem_noted {origin : Option NodeId} {n : NodeId} {T : Ty} :
    (n, T) ∈ (st.noted origin t).judgements ↔ (n, T) ∈ st.judgements ∨ origin = some n ∧ T = t := by
  cases origin <;> simp [State.noted, eq_comm]

/-- A term is recorded after the terms it is made of. -/
theorem Records.note (h : Records D e.subterms st st₁) (ht : Shape D e t) :
    Records D [e] st (st₁.noted e.origin? t) where
  kept p hp := mem_noted.2 (Or.inl (h.kept hp))
  sound n T hT := by
    rcases mem_noted.1 hT with hT | ⟨horigin, rfl⟩
    · refine (h.sound n T hT).imp_right ?_
      rintro ⟨c, hc, e', hpart, hshape⟩
      exact ⟨e, List.mem_singleton_self e, e', .inside hc hpart, hshape⟩
    · exact Or.inr ⟨e, List.mem_singleton_self e, e, .self e, horigin, ht⟩
  complete c hc e' n hpart horigin := by
    obtain rfl := List.mem_singleton.1 hc
    rcases Term.part_iff.1 hpart with rfl | ⟨c, hc, hpart⟩
    · exact ⟨t, mem_noted.2 (Or.inr ⟨horigin, rfl⟩)⟩
    · obtain ⟨T, hT⟩ := h.complete c hc e' n hpart horigin
      exact ⟨T, mem_noted.2 (Or.inl hT)⟩

def LetsClear (D : NodeId → Ty → Prop) (e : Term) : Prop :=
  ∀ binder x usage, Part (.letIn binder x usage) e → ∀ p A, x = .decl p → ¬ D p A

theorem LetsClear.subterm {c : Term} (h : LetsClear D e) (hc : c ∈ e.subterms) : LetsClear D c :=
  fun binder x usage hlet => h binder x usage (.inside hc hlet)

theorem judgements_of_meetAssumed {x : CoreVar} {r : Subst × Ty}
    (h : Yields (meetAssumed fuel Γ x s t) st r st') : st'.judgements = st.judgements := by
  obtain ⟨s', t'⟩ := r
  rcases yields_meetAssumed h with ⟨-, -, rfl⟩ | ⟨σ, expected, r, -, hinst, -⟩
  · rfl
  · rw [(yields_instantiate.1 hinst).2]

/-- What inferring a term records: the terms it is made of, and then the term itself if it stems
from a node. The type of the term takes what the term abstracts over. -/
structure Recorded (D : NodeId → Ty → Prop) (e : Term) (st : State) (t : Ty) (st' : State) :
    Prop where
  shape : Shape D e t
  noted : ∃ st₁, Records D e.subterms st st₁ ∧ st' = st₁.noted e.origin? t

theorem Recorded.records (h : Recorded D e st t st') : Records D [e] st st' := by
  obtain ⟨hshape, st₁, hrec, rfl⟩ := h
  exact hrec.note hshape

/-- The items of a tuple are recorded one after the other. -/
theorem items_record {items : List Term} {s₀ : Subst} {ts₀ ts : List Ty}
    (hD : ∀ p A, D p A → A.vars = []) (hΓ : Respects D Γ)
    (ih : ∀ e ∈ items, ∀ {Γ : Context} {st st' : State} {s : Subst} {t : Ty},
      Respects D Γ → Yields (infer fuel Γ e) st (s, t) st' → Records D [e] st st')
    (h : Yields (inferItems fuel Γ s₀ ts₀ items) st (s, ts) st') : Records D items st st' := by
  induction items generalizing s₀ ts₀ st with
  | nil =>
    obtain ⟨-, -, rfl⟩ := yields_items_nil.1 h
    exact Records.of_eq rfl
  | cons e rest ihrest =>
    obtain ⟨s₁, t₁, st₁, he, hrest⟩ := yields_items_cons.1 h
    have hfirst := ih e (List.mem_cons_self ..) (hΓ.substitute hD s₀) he
    exact hfirst.trans (ihrest (fun e he => ih e (List.mem_cons_of_mem _ he)) hrest)

/-- Inference records each part of a term that stems from a node. -/
theorem infer_records (hD : ∀ p A, D p A → A.vars = []) (hΓ : Respects D Γ)
    (hlets : LetsClear D e) (h : Yields (infer fuel Γ e) st (s, t) st') :
    Recorded D e st t st' := by
  induction e generalizing Γ st st' s t with
  | var x =>
    obtain ⟨σ, -, -, hinst⟩ := yields_var.1 h
    refine ⟨trivial, st', Records.of_eq ?_, rfl⟩
    rw [(yields_instantiate.1 hinst).2]
  | app arg func origin iharg ihfunc =>
    obtain ⟨s₁, t₁, st₁, s₂, t₂, st₂, s₃, hfunc, harg, -, -, -, rfl⟩ := yields_app.1 h
    have h₁ := (ihfunc hΓ (hlets.subterm (by simp [Term.subterms])) hfunc).records
    have h₂ := (iharg (hΓ.substitute hD s₁) (hlets.subterm (by simp [Term.subterms])) harg).records
    have hadvanced : Records D [] st₂ st₂.advanced := Records.of_eq rfl
    exact ⟨trivial, _, (h₁.trans h₂).trans hadvanced, rfl⟩
  | lam x body origin ih =>
    obtain ⟨i, st₁, o, st₂, hi, hbody, rfl, rfl⟩ := yields_lam.1 h
    obtain ⟨hown, hΓ', hst⟩ := hΓ.binder hi
    have hrec := ih hΓ' (hlets.subterm (by simp [Term.subterms])) hbody
    refine ⟨⟨_, _, rfl, fun p A hx hA => ?_, hrec.shape⟩, st₂,
      (Records.of_eq hst).trans hrec.records, rfl⟩
    rw [hown p A hx hA, Subst.apply_of_closed (hD p A hA)]
  | letIn binder x usage ihb ihu =>
    obtain ⟨s₀, t₀, st₀, s₁, t₁, st₁, s₂, hbinder, hmeet, husage, -⟩ := yields_letIn.1 h
    have h₁ := (ihb hΓ (hlets.subterm (by simp [Term.subterms])) hbinder).records
    have hΓ' := hΓ.letIn hD (hlets binder x usage (.self _)) s₁ t₁
    have h₂ := (ihu hΓ' (hlets.subterm (by simp [Term.subterms])) husage).records
    have hmet : Records D [] st₀ st₁ := Records.of_eq (judgements_of_meetAssumed hmeet)
    exact ⟨trivial, _, (h₁.trans hmet).trans h₂, rfl⟩
  | number text =>
    obtain ⟨-, -, rfl⟩ := yields_number.1 h
    exact ⟨trivial, _, Records.of_eq rfl, rfl⟩
  | floating text =>
    obtain ⟨-, -, rfl⟩ := yields_floating.1 h
    exact ⟨trivial, _, Records.of_eq rfl, rfl⟩
  | tuple items ih =>
    obtain ⟨ts, hitems, rfl⟩ := yields_tuple.1 h
    refine ⟨trivial, _, items_record hD hΓ (fun e he Γ st st' s t hΓ h => ?_) hitems, rfl⟩
    exact (ih e he hΓ (hlets.subterm he) h).records

end Records

end Inference

end SemanticAnalysis
