import SemanticAnalysis.Proofs.Derivations
import SemanticAnalysis.Proofs.Freshness
import SemanticAnalysis.Proofs.SolvedForms

/-!
Inference is sound for the typing rules. What it returns is derivable in the
context under the substitution found, as long as unification answers with
unifiers and no let hides an assumption that still has free variables. The rule
for each kind of term is shown to survive the substitutions that come after it;
soundness is then an induction over the term.
-/

namespace SemanticAnalysis

open Ty

inductive Scoping where
  | lets
  | binders
deriving DecidableEq

namespace Term

def tuplesEmpty : Term → Bool
  | .app arg func _ => arg.tuplesEmpty && func.tuplesEmpty
  | .lam _ body _ => body.tuplesEmpty
  | .letIn binder _ usage => binder.tuplesEmpty && usage.tuplesEmpty
  | .tuple items => items.isEmpty
  | _ => true

mutual

/-- No binder of the given kind binds a variable that the context binds, as the test says, or
that a binder around it binds. The variable of a let is not in scope in what it is bound to. -/
def rebindsNone (k : Scoping) (taken : CoreVar → Bool) : Term → Bool
  | .app arg func _ => arg.rebindsNone k taken && func.rebindsNone k taken
  | .lam x body _ =>
    (k = .lets || !taken x) && body.rebindsNone k fun y => y = x || taken y
  | .letIn binder x usage =>
    !taken x && binder.rebindsNone k taken && usage.rebindsNone k fun y => y = x || taken y
  | .tuple items => rebindNone k taken items
  | _ => true

def rebindNone (k : Scoping) (taken : CoreVar → Bool) : List Term → Bool
  | [] => true
  | item :: rest => item.rebindsNone k taken && rebindNone k taken rest

end

/-- Passing a binder: what is bound inside is bound outside or by the binder. -/
theorem taken_of_bound {taken outside inside : CoreVar → Bool} {x : CoreVar}
    (h : ∀ y, outside y → taken y) (hinside : ∀ y, inside y → y = x ∨ outside y) (y : CoreVar)
    (hy : inside y) : (y = x || taken y) = true := by
  rcases hinside y hy with rfl | hy
  · simp
  · simp [h y hy]

theorem rebindNone_iff {k : Scoping} {taken : CoreVar → Bool} {items : List Term} :
    rebindNone k taken items ↔ ∀ e ∈ items, e.rebindsNone k taken := by
  induction items with
  | nil => simp [rebindNone]
  | cons item rest ih => simp [rebindNone, ih]

end Term

namespace Context

/-- The context binds the variable to a scheme with free type variables. -/
def bindsOpen (Γ : Context) (x : CoreVar) : Bool :=
  (Γ.get? x).any fun σ => !(OrderedSet.toList σ.freeVars).isEmpty

theorem bindsOpen_iff {Γ : Context} {x : CoreVar} :
    Γ.bindsOpen x ↔ ∃ σ v, Γ.get? x = some σ ∧ σ.Free v := by
  simp only [bindsOpen, Option.any_eq_true, Bool.not_eq_true', List.isEmpty_eq_false_iff_exists_mem,
    OrderedSet.mem_toList_iff, Scheme.contains_freeVars]
  constructor
  · intro h
    obtain ⟨σ, hσ, v, hv⟩ := h
    exact ⟨σ, v, hσ, hv⟩
  · intro h
    obtain ⟨σ, v, hσ, hv⟩ := h
    exact ⟨σ, hσ, v, hv⟩

theorem bindsOpen_of_substitute {Γ : Context} {s : Subst} {x : CoreVar} (hs : Γ.Apart s)
    (h : (Γ.substitute s).bindsOpen x) : Γ.bindsOpen x := by
  obtain ⟨δ, w, hδ, hw⟩ := bindsOpen_iff.1 h
  obtain ⟨σ, hσ, rfl⟩ := get?_substitute_eq_some.1 hδ
  obtain ⟨v, hv, _⟩ := (Scheme.free_substitute (hs x σ hσ)).1 hw
  exact bindsOpen_iff.2 ⟨σ, v, hσ, hv⟩

theorem bindsOpen_insert {Γ : Context} {x y : CoreVar} {σ : Scheme}
    (h : bindsOpen (Γ.insert x σ) y) : y = x ∨ Γ.bindsOpen y := by
  by_cases hxy : x = y
  · exact Or.inl hxy.symm
  · right
    simpa [bindsOpen, OrderedMap.get?_insert, hxy] using h

def Sealed (k : Seal) (Γ : Context) : Prop := ∀ x σ, Γ.get? x = some σ → σ.body.Sealed k

instance (k : Seal) (Γ : Context) : Decidable (Γ.Sealed k) :=
  decidable_of_iff _
    (OrderedMap.forall_get?_iff (m := Γ) (P := fun σ : Scheme => σ.body.Sealed k)).symm

section Sealed

variable {Γ : Context} {k : Seal}

theorem Sealed.substitute (hΓ : Γ.Sealed k) {s : Subst} (hs : s.Sealed k) :
    (Γ.substitute s).Sealed k := by
  intro x δ hδ
  obtain ⟨σ, hσ, rfl⟩ := get?_substitute_eq_some.1 hδ
  refine Subst.Sealed.apply (fun v => ?_) (hΓ x σ hσ)
  rw [Subst.read_without]
  split
  · exact sealed_var v
  · exact hs v

theorem Sealed.insert (hΓ : Γ.Sealed k) (x : CoreVar) {σ : Scheme} (hσ : σ.body.Sealed k) :
    Sealed k (Γ.insert x σ) := by
  intro y δ hδ
  rcases OrderedMap.of_get?_insert hδ with ⟨-, rfl⟩ | hδ
  · exact hσ
  · exact hΓ y δ hδ

theorem Sealed.erase (hΓ : Γ.Sealed k) (x : CoreVar) : Sealed k (OrderedMap.erase Γ x) := by
  intro y δ hδ
  exact hΓ y δ (OrderedMap.of_get?_erase hδ)

end Sealed

end Context

namespace Inference

section SealedRuns

variable {k : Seal} {fuel : Nat} {Γ : Context} {st st' : State} {s : Subst} {t : Ty}

theorem instantiate_sealed {σ : Scheme} (hσ : σ.body.Sealed k)
    (h : Yields (instantiate σ) st t st') : t.Sealed k := by
  obtain ⟨rfl, rfl⟩ := yields_instantiate.1 h
  rw [Scheme.instantiate_eq]
  refine hσ.replace fun v _ => ?_
  split
  · exact sealed_var _
  · exact sealed_var _

theorem binderType_sealed {x : CoreVar} (hΓ : Γ.Sealed k)
    (h : Yields (binderType Γ x) st t st') : t.Sealed k := by
  rcases yields_binderType h with ⟨σ, hσ, -, rfl, -⟩ | ⟨rfl, -⟩
  · exact hΓ x σ hσ
  · exact sealed_var _

theorem meetAssumed_sealed {x : CoreVar} {s₀ : Subst} {t₀ : Ty} (hΓ : Γ.Sealed k)
    (hs₀ : s₀.Sealed k) (ht₀ : t₀.Sealed k)
    (h : Yields (meetAssumed fuel Γ x s₀ t₀) st (s, t) st') : s.Sealed k ∧ t.Sealed k := by
  rcases yields_meetAssumed h with ⟨rfl, rfl, -⟩ | ⟨σ, expected, r, hσ, hexpected, hr, rfl, rfl⟩
  · exact ⟨hs₀, ht₀⟩
  · have hbody : (σ.substitute s₀).body.Sealed k :=
      hΓ.substitute hs₀ x _ (by simp [Context.get?_substitute, hσ])
    have hr' := Unification.sealed_of_unify (instantiate_sealed hbody hexpected) ht₀ hr
    exact ⟨hr'.compose hs₀, hr'.apply ht₀⟩

theorem sealed_usageContext {x : CoreVar} (hΓ : Γ.Sealed k) (hs : s.Sealed k)
    (ht : t.Sealed k) : (usageContext Γ s x t).Sealed k :=
  ((hΓ.substitute hs).erase x).insert x ht

/-- The items of a tuple have sealed types, found by sealed substitutions. -/
theorem inferItems_sealed {items : List Term} {s₀ : Subst} {ts₀ ts : List Ty}
    (ih : ∀ e ∈ items, ∀ {Γ : Context} {st st' : State} {s : Subst} {t : Ty}, Γ.Sealed k →
      Yields (infer fuel Γ e) st (s, t) st' → s.Sealed k ∧ t.Sealed k)
    (hΓ : Γ.Sealed k) (hs₀ : s₀.Sealed k) (hts₀ : ∀ t ∈ ts₀, t.Sealed k)
    (h : Yields (inferItems fuel Γ s₀ ts₀ items) st (s, ts) st') :
    s.Sealed k ∧ ∀ t ∈ ts, t.Sealed k := by
  induction items generalizing s₀ ts₀ st with
  | nil =>
    obtain ⟨rfl, rfl, -⟩ := yields_items_nil.1 h
    exact ⟨hs₀, hts₀⟩
  | cons item rest ihrest =>
    obtain ⟨s₁, t₁, st₁, hitem, hrest⟩ := yields_items_cons.1 h
    obtain ⟨hs₁, ht₁⟩ := ih item (List.mem_cons_self ..) (hΓ.substitute hs₀) hitem
    refine ihrest (fun e he => ih e (List.mem_cons_of_mem _ he)) (hs₁.compose hs₀) ?_ hrest
    intro u hu
    rcases List.mem_append.1 hu with hu | hu
    · obtain ⟨u₀, hu₀, rfl⟩ := List.mem_map.1 hu
      exact hs₁.apply (hts₀ u₀ hu₀)
    · rwa [List.mem_singleton.1 hu]

/-- In a sealed context inference finds sealed types. If tuples are to be sealed as well, then
only the empty one may be written. -/
theorem infer_sealed {e : Term} (hΓ : Γ.Sealed k) (he : k = .aggregates → e.tuplesEmpty)
    (h : Yields (infer fuel Γ e) st (s, t) st') : s.Sealed k ∧ t.Sealed k := by
  induction e generalizing Γ st st' s t with
  | var x =>
    obtain ⟨σ, hσ, rfl, ht⟩ := yields_var.1 h
    exact ⟨Subst.sealed_empty, instantiate_sealed (hΓ x σ hσ) ht⟩
  | app arg func origin iharg ihfunc =>
    obtain ⟨s₁, t₁, st₁, s₂, t₂, st₂, s₃, h₁, h₂, h₃, rfl, rfl, rfl⟩ := yields_app.1 h
    simp only [Term.tuplesEmpty, Bool.and_eq_true] at he
    obtain ⟨hs₁, ht₁⟩ := ihfunc hΓ (fun hk => (he hk).2) h₁
    obtain ⟨hs₂, ht₂⟩ := iharg (hΓ.substitute hs₁) (fun hk => (he hk).1) h₂
    have hright : (Ty.fn t₂ (.var st₂.next)).Sealed k := sealed_fn_iff.2 ⟨ht₂, sealed_var _⟩
    have hs₃ := Unification.sealed_of_unify (hs₂.apply ht₁) hright h₃
    exact ⟨(hs₃.compose hs₂).compose hs₁, hs₃.apply (sealed_var _)⟩
  | lam x body origin ih =>
    obtain ⟨i, st₁, o, st₂, hi, hbody, rfl, rfl⟩ := yields_lam.1 h
    have hi' := binderType_sealed hΓ hi
    obtain ⟨hs, ho⟩ := ih (hΓ.insert x (σ := Scheme.mono i) hi') he hbody
    exact ⟨hs, sealed_fn_iff.2 ⟨hs.apply hi', ho⟩⟩
  | letIn binder x usage ihbinder ihusage =>
    obtain ⟨s₀, t₀, st₀, s₁, t₁, st₁, s₂, h₀, h₁, h₂, rfl⟩ := yields_letIn.1 h
    simp only [Term.tuplesEmpty, Bool.and_eq_true] at he
    obtain ⟨hs₀, ht₀⟩ := ihbinder hΓ (fun hk => (he hk).1) h₀
    obtain ⟨hs₁, ht₁⟩ := meetAssumed_sealed hΓ hs₀ ht₀ h₁
    obtain ⟨hs₂, ht⟩ := ihusage (sealed_usageContext hΓ hs₁ ht₁) (fun hk => (he hk).2) h₂
    exact ⟨hs₂.compose hs₁, ht⟩
  | number text =>
    obtain ⟨rfl, rfl, -⟩ := yields_number.1 h
    exact ⟨Subst.sealed_empty, sealed_leaf rfl⟩
  | floating text =>
    obtain ⟨rfl, rfl, -⟩ := yields_floating.1 h
    exact ⟨Subst.sealed_empty, sealed_leaf rfl⟩
  | tuple items ih =>
    obtain ⟨ts, hitems, rfl⟩ := yields_tuple.1 h
    by_cases hk : k = .aggregates
    · obtain rfl : items = [] := List.isEmpty_iff.1 (he hk)
      obtain ⟨rfl, rfl, -⟩ := yields_items_nil.1 hitems
      exact ⟨Subst.sealed_empty, sealed_of_ground rfl⟩
    · have hempty : ∀ e : Term, k = .aggregates → e.tuplesEmpty := fun _ hk' => absurd hk' hk
      obtain ⟨hs, hts⟩ := inferItems_sealed (fun e hmem _ _ _ _ _ hΓ => ih e hmem hΓ (hempty e)) hΓ
        Subst.sealed_empty (by simp) hitems
      exact ⟨hs, sealed_tuple_iff.2 ⟨fun hk' => absurd hk' hk, hts⟩⟩

end SealedRuns

section Rules

variable {fuel n m : Nat} {Γ : Context} {st st' : State} {s s₁ s₂ s₃ : Subst} {t t₁ t₂ : Ty}

theorem derives_var {x : CoreVar} {σ : Scheme} (hσ : Γ.get? x = some σ)
    (h : Yields (instantiate σ) st t st') : Derives (Γ.substitute Subst.empty) (.var x) t := by
  rw [Context.substitute_empty]
  obtain ⟨rfl, -⟩ := yields_instantiate.1 h
  exact .var hσ (Scheme.instance_instantiate σ st.supply)

/-- The rule of calls under the substitution that inference finds. -/
theorem derives_app {arg func : Term} {origin : Option NodeId} {r : Ty} (ha₂ : Γ.Apart s₂)
    (ha₃ : Γ.Apart s₃) (hf : Derives (Γ.substitute s₁) func t₁)
    (ha : Derives ((Γ.substitute s₁).substitute s₂) arg t₂)
    (hag : Agrees (s₃.apply (s₂.apply t₁)) (s₃.apply (.fn t₂ r))) :
    Derives (Γ.substitute ((s₃.compose s₂).compose s₁)) (.app arg func origin) (s₃.apply r) := by
  have ha₂' : (Γ.substitute s₁).Apart s₂ := Context.apart_substitute.2 ha₂
  have ha₃' : (Γ.substitute s₁).Apart s₃ := Context.apart_substitute.2 ha₃
  rw [Context.substitute_compose (ha₃.compose ha₂), Context.substitute_compose ha₃']
  have hf' := (hf.substitute ha₂').substitute (Context.apart_substitute.2 ha₃')
  rw [Subst.apply_fn] at hag
  exact .app (.conv hf' hag) (ha.substitute (Context.apart_substitute.2 ha₃'))

theorem derives_lam {x : CoreVar} {body : Term} {origin : Option NodeId} {i o : Ty}
    (hb : Derives (Context.substitute (Γ.insert x (Scheme.mono i)) s) body o) :
    Derives (Γ.substitute s) (.lam x body origin) (.fn (s.apply i) o) := by
  rw [Context.substitute_insert, Scheme.substitute_mono] at hb
  exact .lam hb

/-- Where the variable of a let is not open in the context, hiding its entry changes nothing. -/
theorem usageContext_eq {x : CoreVar} (hs : Γ.Apart s) (hx : Γ.bindsOpen x = false) :
    usageContext Γ s x t = (Γ.substitute s).insert x ((Γ.substitute s).generalize t) := by
  have hclosed : ∀ v σ, (Γ.substitute s).get? x = some σ → ¬ σ.Free v := by
    intro v σ hσ hv
    have hopen := Context.bindsOpen_iff.2 ⟨σ, v, hσ, hv⟩
    simp [Context.bindsOpen_of_substitute hs hopen] at hx
  have hgen : Context.generalize (OrderedMap.erase (Γ.substitute s) x) t =
      (Γ.substitute s).generalize t :=
    Context.generalize_congr (fun v => Context.free_erase_iff (hclosed v)) t
  rw [usageContext, hgen]
  exact Context.erase_insert _ x _

/-- The rule for let. The usage was inferred in a context that lost the variable before the
type was generalized, which makes no difference if nothing was free in its scheme. -/
theorem derives_letIn {binder usage : Term} {x : CoreVar} {k : Nat} (hΓ : Γ.Hygienic n)
    (hx : Γ.bindsOpen x = false) (m₁ : Γ.Mentions n m s₁ t₁)
    (m₂ : (usageContext Γ s₁ x t₁).Mentions m k s₂ t)
    (hb : Derives (Γ.substitute s₁) binder t₁)
    (hu : Derives ((usageContext Γ s₁ x t₁).substitute s₂) usage t) :
    Derives (Γ.substitute (s₂.compose s₁)) (.letIn binder x usage) t := by
  have ha₁ := hΓ.apart m₁.subst
  have ha₂ : Γ.Apart s₂ := by
    refine hΓ.apart fun v hv => (m₂.subst v hv).trans ?_ m₁.le m₂.le
    exact fun w => reaches_of_free_usageContext m₁
  have husage := (hygienic_usageContext (x := x) hΓ m₁).apart m₂.subst
  rw [usageContext_eq ha₁ hx] at hu husage
  rw [Context.substitute_compose ha₂]
  refine hb.letIn_substitute (Context.apart_substitute.2 ha₂) ?_ hu
  exact husage x _ (by simp [OrderedMap.get?_insert])

/-- A let-bound declaration that meets what is assumed for it still has its type. -/
theorem derives_meetAssumed {x : CoreVar} {binder : Term} {s₀ : Subst} {t₀ : Ty}
    (hΓ : Γ.Hygienic n) (h₀ : Γ.Mentions n st.supply.issued s₀ t₀)
    (hb : Derives (Γ.substitute s₀) binder t₀)
    (h : Yields (meetAssumed fuel Γ x s₀ t₀) st (s, t) st') :
    Derives (Γ.substitute s) binder t := by
  rcases yields_meetAssumed h with ⟨rfl, rfl, -⟩ | ⟨σ, expected, r, hσ, hexpected, hr, rfl, rfl⟩
  · exact hb
  · obtain ⟨_, htouch⟩ := expected_reaches h₀ hσ hexpected hr
    have hr' := hΓ.apart htouch
    rw [Context.substitute_compose hr']
    exact hb.substitute (Context.apart_substitute.2 hr')

end Rules

section Soundness

variable {fuel : Nat} {Γ : Context} {e : Term} {st st' : State} {s : Subst} {t : Ty}

/-- What the call of a function needs of its unifier besides the agreement: it keeps apart from
the context. -/
theorem apart_of_call {n n₁ : Nat} {s₁ s₂ s₃ : Subst} {t₁ t₂ : Ty} (hΓ : Γ.Hygienic n)
    (m₁ : Γ.Mentions n n₁ s₁ t₁)
    (m₂ : (Γ.substitute s₁).Mentions n₁ st.supply.issued s₂ t₂)
    (h₃ : (unify fuel (s₂.apply t₁) (.fn t₂ (.var st.next))).run = some (.ok s₃)) :
    Γ.Apart s₁ ∧ Γ.Apart s₂ ∧ Γ.Apart s₃ := by
  have hΓ₁ := hΓ.substitute m₁.subst m₁.le
  have ha₂ := Context.apart_substitute.1 (hΓ₁.apart m₂.subst)
  exact ⟨hΓ.apart m₁.subst, ha₂, hΓ.apart (call_reaches m₁ m₂ h₃).2⟩

theorem taken_substitute {taken : CoreVar → Bool} (h : ∀ y, Γ.bindsOpen y → taken y)
    (hs : Γ.Apart s) (y : CoreVar) (hy : (Γ.substitute s).bindsOpen y) : taken y :=
  h y (Context.bindsOpen_of_substitute hs hy)

/-- Inference is sound: the type that is found follows by the rules from the context with the
substitution put in. -/
theorem infer_sound {taken : CoreVar → Bool} (htuples : e.tuplesEmpty)
    (hsealed : Γ.Sealed .aggregates) (hΓ : Γ.Hygienic st.supply.issued)
    (htaken : ∀ x, Γ.bindsOpen x → taken x) (hlets : e.rebindsNone .lets taken)
    (h : Yields (infer fuel Γ e) st (s, t) st') : Derives (Γ.substitute s) e t := by
  induction e generalizing Γ st st' s t taken with
  | var x =>
    obtain ⟨σ, hσ, rfl, ht⟩ := yields_var.1 h
    exact derives_var hσ ht
  | app arg func origin iharg ihfunc =>
    obtain ⟨s₁, t₁, st₁, s₂, t₂, st₂, s₃, h₁, h₂, h₃, rfl, rfl, rfl⟩ := yields_app.1 h
    simp only [Term.tuplesEmpty, Term.rebindsNone, Bool.and_eq_true] at htuples hlets
    have m₁ := mentions_of_infer h₁
    have hΓ₁ := hΓ.substitute m₁.subst m₁.le
    have m₂ := mentions_of_infer h₂
    obtain ⟨ha₁, ha₂, ha₃⟩ := apart_of_call hΓ m₁ m₂ h₃
    obtain ⟨hs₁, ht₁⟩ := infer_sealed hsealed (fun _ => htuples.2) h₁
    have hsealed₁ := hsealed.substitute hs₁
    obtain ⟨hs₂, ht₂⟩ := infer_sealed hsealed₁ (fun _ => htuples.1) h₂
    have hright : (Ty.fn t₂ (.var st₂.next)).Sealed .aggregates :=
      sealed_fn_iff.2 ⟨ht₂, sealed_var _⟩
    obtain ⟨hag, _⟩ := Unification.unify_solves (hs₂.apply ht₁) hright h₃
    have hf := ihfunc htuples.2 hsealed hΓ htaken hlets.2 h₁
    have ha := iharg htuples.1 hsealed₁ hΓ₁ (taken_substitute htaken ha₁) hlets.1 h₂
    exact derives_app ha₂ ha₃ hf ha hag
  | lam x body origin ih =>
    obtain ⟨i, st₁, o, st₂, hi, hbody, rfl, rfl⟩ := yields_lam.1 h
    simp only [Term.rebindsNone, Bool.and_eq_true] at hlets
    obtain ⟨hle, hreach⟩ := binderType_reaches hi
    have hsealed' := hsealed.insert x (σ := Scheme.mono i) (binderType_sealed hsealed hi)
    have hb := ih htuples hsealed' (hΓ.insert_mono x hreach hle)
      (Term.taken_of_bound htaken fun _ => Context.bindsOpen_insert) hlets.2 hbody
    exact derives_lam hb
  | letIn binder x usage ihbinder ihusage =>
    obtain ⟨s₀, t₀, st₀, s₁, t₁, st₁, s₂, h₀, h₁, h₂, rfl⟩ := yields_letIn.1 h
    simp only [Term.tuplesEmpty, Term.rebindsNone, Bool.and_eq_true,
      Bool.not_eq_true'] at htuples hlets
    obtain ⟨⟨hx, hlets₀⟩, hlets₂⟩ := hlets
    have hclosed : Γ.bindsOpen x = false := by
      by_contra hopen
      simp [htaken x (by simpa using hopen)] at hx
    have m₀ := mentions_of_infer h₀
    have m₁ := mentions_of_meetAssumed m₀ h₁
    have hΓ₁ := hygienic_usageContext (x := x) hΓ m₁
    have m₂ := mentions_of_infer h₂
    obtain ⟨hs₀, ht₀⟩ := infer_sealed hsealed (fun _ => htuples.1) h₀
    obtain ⟨hs₁, ht₁⟩ := meetAssumed_sealed hsealed hs₀ ht₀ h₁
    have hb := ihbinder htuples.1 hsealed hΓ htaken hlets₀ h₀
    have hb' := derives_meetAssumed hΓ m₀ hb h₁
    have htaken₁ : ∀ y, (usageContext Γ s₁ x t₁).bindsOpen y → (y = x || taken y) = true := by
      rw [usageContext_eq (hΓ.apart m₁.subst) hclosed]
      have htaken₀ := taken_substitute htaken (hΓ.apart m₁.subst)
      exact Term.taken_of_bound htaken₀ fun _ => Context.bindsOpen_insert
    have hu := ihusage htuples.2 (sealed_usageContext hsealed hs₁ ht₁) hΓ₁ htaken₁ hlets₂ h₂
    exact derives_letIn hΓ hclosed m₁ m₂ hb' hu
  | number text =>
    obtain ⟨rfl, rfl, -⟩ := yields_number.1 h
    exact .number text
  | floating text =>
    obtain ⟨rfl, rfl, -⟩ := yields_floating.1 h
    exact .floating text
  | tuple items _ =>
    obtain ⟨ts, hitems, rfl⟩ := yields_tuple.1 h
    obtain rfl : items = [] := List.isEmpty_iff.1 htuples
    obtain ⟨rfl, rfl, -⟩ := yields_items_nil.1 hitems
    exact .tuple rfl (by simp)

/-- Inference is sound: what it returns is derivable in the context under the substitution
found. -/
theorem inference_sound (htuples : e.tuplesEmpty) (hsealed : Γ.Sealed .aggregates)
    (hΓ : Γ.Hygienic st.supply.issued) (hlets : e.rebindsNone .lets Γ.bindsOpen)
    (h : (infer fuel Γ e).run.run st = some (.ok (s, t), st')) :
    Derives (Γ.substitute s) e t :=
  infer_sound htuples hsealed hΓ (fun _ hx => hx) hlets h

/-- A parameter of an unknown type and a function declared as the identity. -/
def declaredIdentity : Context :=
  OrderedMap.ofList [(.decl ⟨0⟩, Scheme.mono (.var ⟨0⟩)),
    (.decl ⟨1⟩, Scheme.closed (.fn (.var ⟨1⟩) (.var ⟨1⟩)))]

def appliedToItself : Term :=
  .letIn (.lam (.synthetic 0) (.var (.synthetic 0)) none) (.decl ⟨1⟩)
    (.app (.var (.decl ⟨0⟩)) (.app (.var (.decl ⟨1⟩)) (.var (.decl ⟨1⟩)) none) none)

theorem inference_sound_declared :
    ∃ s st', (infer 9 declaredIdentity appliedToItself).run.run (State.start ⟨2⟩) =
        some (.ok (s, .var ⟨7⟩), st') ∧
      Derives (declaredIdentity.substitute s) appliedToItself (.var ⟨7⟩) := by
  have hΓ : declaredIdentity.Hygienic (State.start ⟨2⟩).supply.issued := by decide
  obtain ⟨s, st', hrun⟩ : ∃ s st', (infer 9 declaredIdentity appliedToItself).run.run
      (State.start ⟨2⟩) = some (.ok (s, .var ⟨7⟩), st') := ⟨_, _, rfl⟩
  exact ⟨s, st', hrun, inference_sound (by decide) (by decide) hΓ (by decide) hrun⟩

end Soundness

end Inference

end SemanticAnalysis
