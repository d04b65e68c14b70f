import SemanticAnalysis.Proofs.Schemes

/-!
The declarative typing rules of core terms, up to agreement of types. A variable
has the instances of its scheme, a parameter is monomorphic, and a let-bound
variable gets the type of its binder generalized over the whole context.

Derivations are carried from a context to any context that offers as much,
reading free variables through an assignment on the way. Substitution in a
derivation, the exchange of a scheme for a more general one and the extension of
a context are the cases of this that inference needs.
-/

namespace SemanticAnalysis

open Ty

/-- The typing rules. -/
inductive Derives : Context → Term → Ty → Prop
  | var {Γ : Context} {x : CoreVar} {σ : Scheme} {t : Ty} (hx : Γ.get? x = some σ)
      (ht : σ.Instance t) : Derives Γ (.var x) t
  | app {Γ : Context} {arg func : Term} {origin : Option NodeId} {i o : Ty}
      (hf : Derives Γ func (.fn i o)) (ha : Derives Γ arg i) :
      Derives Γ (.app arg func origin) o
  | lam {Γ : Context} {x : CoreVar} {body : Term} {origin : Option NodeId} {i o : Ty}
      (hb : Derives (Γ.insert x (Scheme.mono i)) body o) :
      Derives Γ (.lam x body origin) (.fn i o)
  | letIn {Γ : Context} {binder usage : Term} {x : CoreVar} {b t : Ty}
      (hb : Derives Γ binder b) (hu : Derives (Γ.insert x (Γ.generalize b)) usage t) :
      Derives Γ (.letIn binder x usage) t
  | number {Γ : Context} (text : String) : Derives Γ (.number text) Ty.number
  | floating {Γ : Context} (text : String) : Derives Γ (.floating text) Ty.floating
  | tuple {Γ : Context} {items : List Term} {ts : List Ty} (hlen : items.length = ts.length)
      (hitems : ∀ p ∈ items.zip ts, Derives Γ p.1 p.2) : Derives Γ (.tuple items) (.tuple ts)
  | conv {Γ : Context} {e : Term} {t u : Ty} (ht : Derives Γ e t) (htu : Agrees t u) :
      Derives Γ e u

namespace Context

/-- The first context, read through its assignment, has at each variable every instance that
the second one has there. -/
structure Offers (Γ : Context) (φ : TyVar → Ty) (Δ : Context) (ψ : TyVar → Ty) : Prop where
  instances : ∀ x δ, Δ.get? x = some δ → ∃ σ, Γ.get? x = some σ ∧
    ∀ t, δ.InstanceUnder ψ t → σ.InstanceUnder φ t

namespace Offers

variable {Γ Δ : Context} {φ ψ : TyVar → Ty}

/-- A context offers what it was extended from. -/
theorem of_get? (h : ∀ x δ, Δ.get? x = some δ → Γ.get? x = some δ) (φ : TyVar → Ty) :
    Offers Γ φ Δ φ where
  instances x δ hδ := ⟨δ, h x δ hδ, fun _ ht => ht⟩

theorem congr_right (h : Offers Γ φ Δ ψ) {χ : TyVar → Ty}
    (hχ : ∀ v, Δ.Free v → Agrees (χ v) (ψ v)) : Offers Γ φ Δ χ where
  instances := by
    intro x δ hδ
    obtain ⟨σ, hσ, hinst⟩ := h.instances x δ hδ
    exact ⟨σ, hσ, fun t ht => hinst t (ht.congr fun v hv => hχ v ⟨x, δ, hδ, hv⟩)⟩

/-- Contexts that offer as much still do after a binding that offers as much. -/
theorem insert (h : Offers Γ φ Δ ψ) (x : CoreVar) {σ δ : Scheme}
    (hinst : ∀ t, δ.InstanceUnder ψ t → σ.InstanceUnder φ t) :
    Offers (Γ.insert x σ) φ (Δ.insert x δ) ψ where
  instances := by
    intro y ε hε
    simp only [OrderedMap.get?_insert] at hε ⊢
    split at hε
    · rename_i hxy
      obtain rfl := Option.some.inj hε
      exact ⟨σ, by simp [hxy], hinst⟩
    · rename_i hxy
      obtain ⟨τ, hτ, htinst⟩ := h.instances y ε hε
      exact ⟨τ, by simp [hxy, hτ], htinst⟩

theorem insert_mono (h : Offers Γ φ Δ ψ) (x : CoreVar) {i j : Ty}
    (hij : Agrees (i.replace φ) (j.replace ψ)) :
    Offers (Γ.insert x (Scheme.mono i)) φ (Δ.insert x (Scheme.mono j)) ψ :=
  h.insert x fun _ ht => ht.mono_of_agrees hij

end Offers

structure MoreGeneral (Γ : Context) (φ : TyVar → Ty) (Δ : Context) (ψ : TyVar → Ty) : Prop extends
    Offers Γ φ Δ ψ where
  domain : ∀ x, Γ.contains x → Δ.contains x

namespace MoreGeneral

variable {Γ Δ : Context} {φ ψ : TyVar → Ty}

theorem refl (Γ : Context) (φ : TyVar → Ty) : MoreGeneral Γ φ Γ φ where
  instances _ σ h := ⟨σ, h, fun _ ht => ht⟩
  domain _ h := h

theorem congr_left (h : MoreGeneral Γ φ Δ ψ) {χ : TyVar → Ty}
    (hχ : ∀ v, Γ.Free v → Agrees (φ v) (χ v)) : MoreGeneral Γ χ Δ ψ where
  instances := by
    intro x δ hδ
    obtain ⟨σ, hσ, hinst⟩ := h.instances x δ hδ
    exact ⟨σ, hσ, fun t ht => (hinst t ht).congr fun v hv => hχ v ⟨x, σ, hσ, hv⟩⟩
  domain := h.domain

theorem insert (h : MoreGeneral Γ φ Δ ψ) (x : CoreVar) {σ δ : Scheme}
    (hinst : ∀ t, δ.InstanceUnder ψ t → σ.InstanceUnder φ t) :
    MoreGeneral (Γ.insert x σ) φ (Δ.insert x δ) ψ where
  toOffers := h.toOffers.insert x hinst
  domain := by
    intro y hy
    simp only [OrderedMap.contains_insert, Bool.or_eq_true, decide_eq_true_eq] at hy ⊢
    exact hy.imp_right (h.domain y)

theorem insert_mono (h : MoreGeneral Γ φ Δ ψ) (x : CoreVar) {i j : Ty}
    (hij : Agrees (i.replace φ) (j.replace ψ)) :
    MoreGeneral (Γ.insert x (Scheme.mono i)) φ (Δ.insert x (Scheme.mono j)) ψ :=
  h.insert x fun _ ht => ht.mono_of_agrees hij

/-- Substituting in the more general context, if the assignment reads the replacements as the
free variables were read before. -/
theorem substitute (h : MoreGeneral Γ φ Δ ψ) {s : Subst} {χ : TyVar → Ty} (happart : Γ.Apart s)
    (hread : ∀ v, Γ.Free v → Agrees ((s.read v).replace χ) (φ v)) :
    MoreGeneral (Γ.substitute s) χ Δ ψ where
  instances := by
    intro x δ hδ
    obtain ⟨σ, hσ, hinst⟩ := h.instances x δ hδ
    refine ⟨σ.substitute s, by simp [get?_substitute, hσ], fun t ht => ?_⟩
    exact (hinst t ht).substitute (happart x σ hσ) fun v hv => hread v ⟨x, σ, hσ, hv⟩
  domain := by
    intro x hx
    exact h.domain x (by simpa using hx)

/-- What a free variable of the more general context is read as comes from free variables of
the other one: an instance with its bound variables out of the way shows it. -/
theorem free_of_read (h : MoreGeneral Γ φ Δ ψ) {v w : TyVar} (hv : Γ.Free v)
    (hw : w ∈ (φ v).vars) : ∃ u, Δ.Free u ∧ w ∈ (ψ u).vars := by
  obtain ⟨x, σ, hσ, hvσ⟩ := hv
  obtain ⟨δ, hδ⟩ := OrderedMap.contains_iff.1 (h.domain x (OrderedMap.contains_iff.2 ⟨σ, hσ⟩))
  obtain ⟨σ', hσ', hinst⟩ := h.instances x δ hδ
  obtain rfl : σ = σ' := Option.some.inj (hσ.symm.trans hσ')
  have hground : δ.InstanceUnder ψ
      (δ.body.replace fun u => if δ.bound.contains u then Ty.number else ψ u) := by
    refine ⟨_, fun u hu => ?_, Agrees.refl _⟩
    simp [hu.2]
  obtain ⟨f, hfree, hag⟩ := hinst _ hground
  have hwf : w ∈ (f v).vars := (hfree v hvσ).symm.mem_vars hw
  have hwt := hag.mem_vars (mem_vars_replace.2 ⟨v, hvσ.1, hwf⟩)
  obtain ⟨u, hu, hwu⟩ := mem_vars_replace.1 hwt
  by_cases hbound : δ.bound.contains u = true
  · simp [hbound, Ty.number, vars] at hwu
  · have hbound' : δ.bound.contains u = false := by simpa using hbound
    exact ⟨u, ⟨x, δ, hδ, hu, hbound'⟩, by simpa [hbound'] using hwu⟩

/-- Generalizing in the more general context. The instances of the other scheme keep the
variables free in its context, which are all that free variables here are read as. -/
theorem generalize (h : MoreGeneral Γ φ Δ Ty.var) {t b u : Ty} (htb : Agrees (t.replace φ) b)
    (hu : (Δ.generalize b).InstanceUnder Ty.var u) : (Γ.generalize t).InstanceUnder φ u := by
  obtain ⟨f, hfree, hag⟩ := hu
  refine ⟨fun v => (φ v).replace f, fun v hv => ?_, ?_⟩
  · obtain ⟨hvt, hvfree⟩ := free_generalize.1 hv
    have hkeep : ∀ w ∈ (φ v).vars, Agrees (f w) (.var w) := by
      intro w hw
      obtain ⟨x, hx, hwx⟩ := h.free_of_read hvfree hw
      rw [mem_vars_var.1 hwx]
      rw [mem_vars_var.1 hwx] at hw
      have hb : x ∈ b.vars := htb.mem_vars (mem_vars_replace.2 ⟨v, hvt, hw⟩)
      exact hfree x (free_generalize.2 ⟨hb, hx⟩)
    calc
      Agrees ((φ v).replace f) ((φ v).replace Ty.var) := agrees_replace_congr hkeep
      Agrees _ (φ v) := by rw [replace_id]
  · change Agrees (t.replace _) u
    rw [← replace_replace]
    exact htb.replace.trans hag

end MoreGeneral

end Context

/-- A tuple has a type only if its items have the types of the parts. -/
theorem Derives.tuple_items {Γ : Context} {items : List Term} {u : Ty}
    (h : Derives Γ (.tuple items) u) :
    ∃ ts, Agrees (.tuple ts) u ∧ items.length = ts.length ∧
      ∀ p ∈ items.zip ts, Derives Γ p.1 p.2 := by
  generalize he : Term.tuple items = e at h
  induction h with
  | tuple hlen hitems =>
    obtain rfl := Term.tuple.inj he
    exact ⟨_, Agrees.refl _, hlen, hitems⟩
  | conv _ htu ih =>
    obtain ⟨ts, hts, hlen, hitems⟩ := ih he
    exact ⟨ts, hts.trans htu, hlen, hitems⟩
  | _ => exact absurd he (by simp)

/-- A tuple with one more item. -/
theorem Derives.tuple_append {Γ : Context} {items : List Term} {item : Term} {ts : List Ty}
    {t : Ty} (h : Derives Γ (.tuple items) (.tuple ts)) (hitem : Derives Γ item t) :
    Derives Γ (.tuple (items ++ [item])) (.tuple (ts ++ [t])) := by
  obtain ⟨us, hag, hlen, hitems⟩ := h.tuple_items
  have hall : Derives Γ (.tuple (items ++ [item])) (.tuple (us ++ [t])) := by
    refine .tuple (by simp [hlen]) fun p hp => ?_
    rw [List.zip_append hlen] at hp
    rcases List.mem_append.1 hp with hp | hp
    · exact hitems p hp
    · obtain rfl : p = (item, t) := by simpa using hp
      exact hitem
  refine hall.conv (agrees_tuple_iff.2 ?_)
  exact List.rel_append (agrees_tuple_iff.1 hag) (List.Forall₂.cons (Agrees.refl t) .nil)

section Transfer

theorem exists_index_bound (vs : List TyVar) : ∃ n, ∀ v ∈ vs, v.index < n := by
  induction vs with
  | nil => exact ⟨0, by simp⟩
  | cons v rest ih =>
    obtain ⟨n, hn⟩ := ih
    refine ⟨max n (v.index + 1), fun w hw => ?_⟩
    rcases List.mem_cons.1 hw with rfl | hw
    · omega
    · have := hn w hw
      omega

/-- The bound variables of a generalized type can be moved out of the way of any context: the
moved type has at least the instances that the generalized one has under the assignment. -/
theorem exists_generalize_apart (Γ Δ : Context) (t : Ty) (ψ : TyVar → Ty) :
    ∃ χ : TyVar → Ty, (∀ v, Δ.Free v → χ v = ψ v) ∧
      ∀ u, (Δ.generalize t).InstanceUnder ψ u →
        (Γ.generalize (t.replace χ)).InstanceUnder Ty.var u := by
  obtain ⟨n, hn⟩ := exists_index_bound (OrderedSet.toList Γ.freeVars ++ (t.replace ψ).vars)
  refine ⟨fun v => if Δ.freeVars.contains v then ψ v else .var ⟨v.index + n⟩, ?_, ?_⟩
  · intro v hv
    simp [Context.contains_freeVars.2 hv]
  · intro u hu
    obtain ⟨g, hfree, hag⟩ := hu
    -- moved variables go where the instance sent them, the others stay
    refine ⟨fun w => if w.index < n then .var w else g ⟨w.index - n⟩, ?_, ?_⟩
    · intro w hw
      have hwfree := (Context.free_generalize.1 hw).2
      have hlt : w.index < n := by
        apply hn
        rw [List.mem_append, OrderedSet.mem_toList_iff, Context.contains_freeVars]
        exact Or.inl hwfree
      simp [hlt]
    · refine Agrees.trans ?_ hag
      change Agrees ((t.replace _).replace _) _
      rw [replace_replace]
      refine agrees_replace_congr fun v hv => ?_
      by_cases hvΔ : Δ.freeVars.contains v = true
      · have hstay : (ψ v).replace (fun w => if w.index < n then .var w else g ⟨w.index - n⟩) =
            ψ v := by
          refine replace_eq_self fun w hw => ?_
          have hlt : w.index < n := by
            apply hn
            exact List.mem_append.2 (Or.inr (mem_vars_replace.2 ⟨v, hv, hw⟩))
          simp [hlt]
        have hvfree := Context.free_generalize.2 ⟨hv, Context.contains_freeVars.1 hvΔ⟩
        rw [if_pos hvΔ, hstay]
        exact (hfree v hvfree).symm
      · have hmoved : ¬ v.index + n < n := by omega
        simp [hvΔ, hmoved]

/-- Derivations carry over to contexts that offer as much. -/
theorem Derives.transfer {Δ : Context} {e : Term} {t : Ty} (h : Derives Δ e t) {Γ : Context}
    {ψ : TyVar → Ty} (hgen : Context.Offers Γ Ty.var Δ ψ) : Derives Γ e (t.replace ψ) := by
  induction h generalizing Γ ψ with
  | @var Δ x δ t hx ht =>
    obtain ⟨σ, hσ, hinst⟩ := hgen.instances x δ hx
    obtain ⟨f, hfree, hag⟩ := Scheme.instance_iff.1 ht
    refine .var hσ (Scheme.instance_iff.2 (hinst _ ?_))
    refine ⟨fun v => (f v).replace ψ, fun v hv => ?_, ?_⟩
    · simpa using (hfree v hv).replace (f := ψ)
    · rw [← replace_replace]
      exact hag.replace
  | app _ _ ihf iha =>
    have hf := ihf hgen
    rw [replace_fn] at hf
    exact .app hf (iha hgen)
  | @lam Δ x body origin i o _ ih =>
    rw [replace_fn]
    refine .lam (ih (hgen.insert_mono x ?_))
    rw [replace_id]
  | @letIn Δ binder usage x b t _ _ ihb ihu =>
    obtain ⟨χ, hχ, hinst⟩ := exists_generalize_apart Γ Δ b ψ
    have hgen' : Context.Offers Γ Ty.var Δ χ :=
      hgen.congr_right fun v hv => by rw [hχ v hv]
    have hb := ihb hgen'
    exact .letIn hb (ihu (hgen.insert x hinst))
  | number text => exact .number text
  | floating text => exact .floating text
  | @tuple Δ items ts hlen _ ih =>
    rw [replace_tuple]
    refine .tuple (by simpa using hlen) fun p hp => ?_
    rw [List.zip_map_right] at hp
    obtain ⟨q, hq, rfl⟩ := List.mem_map.1 hp
    exact ih q hq hgen
  | conv _ htu ih => exact .conv (ih hgen) htu.replace

/-- Substituting in a derivation. -/
theorem Derives.substitute {Γ : Context} {e : Term} {t : Ty} (h : Derives Γ e t) {s : Subst}
    (happart : Γ.Apart s) : Derives (Γ.substitute s) e (s.apply t) := by
  rw [Subst.apply_eq_replace]
  refine h.transfer ((Context.MoreGeneral.refl Γ s.read).substitute happart fun v _ => ?_).toOffers
  rw [replace_id]

/-- Exchanging the context of a derivation for one that offers as much. -/
theorem Derives.of_offers {Γ Δ : Context} {e : Term} {t : Ty} (h : Derives Δ e t)
    (hgen : Context.Offers Γ Ty.var Δ Ty.var) : Derives Γ e t := by
  simpa using h.transfer hgen

/-- Quantifying before a substitution gives no instance that quantifying after it does not. -/
theorem generalize_substitute_instance {Γ : Context} {s : Subst} {b t : Ty} (hΓ : Γ.Apart s)
    (hb : (Γ.generalize b).Apart s)
    (ht : ((Γ.generalize b).substitute s).InstanceUnder Ty.var t) :
    ((Γ.substitute s).generalize (s.apply b)).InstanceUnder Ty.var t := by
  obtain ⟨f, hfree, hag⟩ := ht
  rw [Scheme.substitute_body hb] at hag
  refine ⟨f, fun w hw => hfree w ⟨?_, ?_⟩, hag⟩
  · rw [Scheme.substitute_body hb]
    exact hw.1
  · -- a variable that stays free is read from one that was free, so it was not quantified
    obtain ⟨v, hv, hread⟩ := (Context.free_substitute hΓ).1 (Context.free_generalize.1 hw).2
    refine hb.not_bound_of_read ?_ hread
    by_contra hbound
    have hbound' : (Γ.generalize b).bound.contains v := by simpa using hbound
    exact (Context.bound_generalize.1 hbound').2 hv

/-- The rule for let after a substitution. -/
theorem Derives.letIn_substitute {Γ : Context} {binder usage : Term} {x : CoreVar} {b t : Ty}
    {s : Subst} (hΓ : Γ.Apart s) (hgen : (Γ.generalize b).Apart s) (hb : Derives Γ binder b)
    (hu : Derives (Context.substitute (Γ.insert x (Γ.generalize b)) s) usage t) :
    Derives (Γ.substitute s) (.letIn binder x usage) t := by
  rw [Context.substitute_insert] at hu
  refine .letIn (hb.substitute hΓ) (hu.of_offers ?_)
  exact (Context.Offers.of_get? (fun _ _ h => h) _).insert x fun u hu =>
    generalize_substitute_instance hΓ hgen hu

end Transfer

end SemanticAnalysis
