import SemanticAnalysis.Proofs.Freshness

/-!
Renamings of variables that keep their order. Maps and sets of variables are
listed in ascending order, so such a renaming of a map has the renamed listing,
and a scheme and the renamed scheme are instantiated alike: the variables issued
for the bound ones correspond. Everything that types, substitutions, schemes and
contexts are made by commutes with the renaming, unification included.
-/

namespace SemanticAnalysis

open Ty

/-- A renaming of variables that keeps their order. -/
structure Relabeling where
  toFun : TyVar → TyVar
  ascends : ∀ v w : TyVar, v.index < w.index → (toFun v).index < (toFun w).index

namespace Relabeling

instance : CoeFun Relabeling fun _ => TyVar → TyVar := ⟨toFun⟩

variable (ρ : Relabeling) {v w : TyVar} {n m : Nat}

theorem precedes (h : Precedes v w) : Precedes (ρ v) (ρ w) := by
  have hlt : v.index < w.index := by simpa [Precedes, Key.rank] using h
  simpa [Precedes, Key.rank] using ρ.ascends v w hlt

theorem injective : Function.Injective ρ := by
  intro v w h
  by_contra hne
  rcases Nat.lt_or_gt_of_ne fun heq => hne (congrArg TyVar.mk heq) with hlt | hlt
  · have := ρ.ascends v w hlt
    rw [h] at this
    omega
  · have := ρ.ascends w v hlt
    rw [h] at this
    omega

def TranslatesFrom (n : Nat) : Prop := ∀ k, ρ ⟨n + k⟩ = ⟨(ρ ⟨n⟩).index + k⟩

variable {ρ}

theorem TranslatesFrom.mono (h : ρ.TranslatesFrom n) (hnm : n ≤ m) : ρ.TranslatesFrom m := by
  obtain ⟨d, rfl⟩ := Nat.exists_eq_add_of_le hnm
  intro k
  rw [Nat.add_assoc, h, h, Nat.add_assoc]

def shift (n k : Nat) : Relabeling where
  toFun v := if v.index < n then v else ⟨v.index + k⟩
  ascends v w h := by
    split
    · split
      · exact h
      · exact Nat.lt_add_right k h
    · split
      · omega
      · exact Nat.add_lt_add_right h k

theorem shift_of_lt {k : Nat} (h : v.index < n) : shift n k v = v := if_pos h

theorem shift_of_le {k : Nat} (h : n ≤ v.index) : shift n k v = ⟨v.index + k⟩ :=
  if_neg (Nat.not_lt.2 h)

theorem translatesFrom_shift (n k : Nat) : (shift n k).TranslatesFrom n := by
  intro d
  rw [shift_of_le (Nat.le_add_right n d), shift_of_le (Nat.le_refl n), TyVar.mk.injEq]
  exact Nat.add_right_comm n d k

end Relabeling

namespace OrderedMap

variable {ν μ : Type} {ρ : Relabeling} {f : ν → μ} {m : OrderedMap TyVar ν} {v w : TyVar}

def relabel (ρ : Relabeling) (f : ν → μ) (m : OrderedMap TyVar ν) : OrderedMap TyVar μ :=
  ⟨m.entries.map fun p => (ρ p.1, f p.2), by
    rw [List.pairwise_map]
    exact m.ascending.imp ρ.precedes⟩

theorem size_relabel : (m.relabel ρ f).size = m.size := List.length_map _

theorem keys_relabel : (m.relabel ρ f).keys = m.keys.map ρ := by
  simp [keys, relabel, Function.comp_def]

theorem get?_relabel (m : OrderedMap TyVar ν) (v : TyVar) :
    (m.relabel ρ f).get? (ρ v) = (m.get? v).map f := by
  simp [get?, relabel, List.find?_map, Function.comp_def, ρ.injective.eq_iff]

theorem contains_relabel (m : OrderedMap TyVar ν) (v : TyVar) :
    (m.relabel ρ f).contains (ρ v) = m.contains v := by
  simp [contains, get?_relabel]

/-- A renamed map binds renamed variables only. -/
theorem contains_relabel_iff :
    (m.relabel ρ f).contains w = true ↔ ∃ v, m.contains v = true ∧ ρ v = w := by
  rw [← mem_keys_iff, keys_relabel, List.mem_map]
  simp only [mem_keys_iff]

theorem get?_relabel_of_not_mem (h : ∀ v, ρ v ≠ w) : (m.relabel ρ f).get? w = none := by
  rw [get?_eq_none_iff]
  by_contra hw
  obtain ⟨v, -, hv⟩ := contains_relabel_iff.1 (by simpa using hw)
  exact h v hv

/-- A map that answers renamed variables as another one does the variables themselves, and no
others, is that one renamed. -/
theorem eq_relabel {n : OrderedMap TyVar μ} (hat : ∀ v, n.get? (ρ v) = (m.get? v).map f)
    (hout : ∀ w, (∀ v, ρ v ≠ w) → n.get? w = none) : n = m.relabel ρ f := by
  apply ext_get?
  intro w
  by_cases hw : ∃ v, ρ v = w
  · obtain ⟨v, rfl⟩ := hw
    rw [hat, get?_relabel]
  · have hw' : ∀ v, ρ v ≠ w := fun v hv => hw ⟨v, hv⟩
    rw [hout w hw', get?_relabel_of_not_mem hw']

end OrderedMap

namespace Ty

def relabel (ρ : Relabeling) (t : Ty) : Ty := t.replace fun v => .var (ρ v)

variable {ρ : Relabeling} {a b t : Ty} {v w : TyVar}

@[simp]
theorem relabel_var (v : TyVar) : (Ty.var v).relabel ρ = .var (ρ v) := replace_var v

@[simp]
theorem relabel_fn (i o : Ty) : (Ty.fn i o).relabel ρ = .fn (i.relabel ρ) (o.relabel ρ) :=
  replace_fn i o

@[simp]
theorem relabel_tuple (items : List Ty) :
    (Ty.tuple items).relabel ρ = .tuple (items.map (relabel ρ)) :=
  replace_tuple items

theorem relabel_replace (f : TyVar → Ty) (t : Ty) :
    (t.replace f).relabel ρ = t.replace fun v => (f v).relabel ρ :=
  replace_replace f _ t

theorem replace_relabel (f : TyVar → Ty) (t : Ty) :
    (t.relabel ρ).replace f = t.replace fun v => f (ρ v) := by
  unfold relabel
  rw [replace_replace]
  exact replace_congr fun v _ => replace_var (ρ v)

theorem relabel_of_fixed (h : ∀ v ∈ t.vars, ρ v = v) : t.relabel ρ = t :=
  replace_eq_self fun v hv => congrArg Ty.var (h v hv)

theorem mem_vars_relabel_iff : w ∈ (t.relabel ρ).vars ↔ ∃ v ∈ t.vars, ρ v = w := by
  unfold relabel
  simp only [mem_vars_replace, mem_vars_var, eq_comm]

theorem mem_vars_relabel : ρ v ∈ (t.relabel ρ).vars ↔ v ∈ t.vars := by
  rw [mem_vars_relabel_iff]
  constructor
  · intro h
    obtain ⟨w, hw, heq⟩ := h
    rwa [ρ.injective heq] at hw
  · intro hv
    exact ⟨v, hv, rfl⟩

end Ty

namespace Subst

def relabel (ρ : Relabeling) (s : Subst) : Subst := OrderedMap.relabel ρ (Ty.relabel ρ) s

variable {ρ : Relabeling} (s r : Subst) (t : Ty) (v : TyVar)

theorem read_relabel : (s.relabel ρ).read (ρ v) = (s.read v).relabel ρ := by
  unfold read relabel
  rw [OrderedMap.get?_relabel]
  cases OrderedMap.get? s v with
  | none => exact (Ty.relabel_var v).symm
  | some t => rfl

theorem apply_relabel : (s.relabel ρ).apply (t.relabel ρ) = (s.apply t).relabel ρ := by
  rw [apply_eq_replace, apply_eq_replace, replace_relabel, relabel_replace]
  exact replace_congr fun v _ => read_relabel s v

/-- Renaming goes through composition. -/
theorem relabel_compose : (s.compose r).relabel ρ = (s.relabel ρ).compose (r.relabel ρ) := by
  symm
  apply OrderedMap.eq_relabel
  · intro v
    simp only [get?_compose]
    unfold relabel
    rw [OrderedMap.get?_relabel, OrderedMap.get?_relabel]
    cases OrderedMap.get? r v with
    | none => rfl
    | some t => exact congrArg some (apply_relabel s t)
  · intro w hw
    unfold relabel
    rw [get?_compose, OrderedMap.get?_relabel_of_not_mem hw, OrderedMap.get?_relabel_of_not_mem hw]
    rfl

theorem relabel_without {drop drop' : TyVar → Bool} (h : ∀ v, drop' (ρ v) = drop v) :
    (s.without drop).relabel ρ = (s.relabel ρ).without drop' := by
  symm
  apply OrderedMap.eq_relabel
  · intro v
    unfold relabel
    rw [get?_without, get?_without, h, OrderedMap.get?_relabel]
    split <;> rfl
  · intro w hw
    unfold relabel
    rw [get?_without, OrderedMap.get?_relabel_of_not_mem hw, ite_self]

end Subst

namespace Scheme

def relabel (ρ : Relabeling) (σ : Scheme) : Scheme :=
  ⟨OrderedMap.relabel ρ id σ.bound, σ.body.relabel ρ⟩

variable {ρ : Relabeling} {σ : Scheme} {v : TyVar}

theorem bound_relabel (σ : Scheme) (v : TyVar) :
    (σ.relabel ρ).bound.contains (ρ v) = σ.bound.contains v :=
  OrderedMap.contains_relabel σ.bound v

theorem relabel_mono (t : Ty) : (mono t).relabel ρ = mono (t.relabel ρ) := rfl

theorem isMono_relabel (σ : Scheme) : (σ.relabel ρ).isMono = σ.isMono := by
  simp [isMono, relabel, OrderedMap.isEmpty, OrderedMap.relabel]

theorem free_relabel : (σ.relabel ρ).Free (ρ v) ↔ σ.Free v := by
  unfold Free
  rw [bound_relabel]
  exact and_congr_left' Ty.mem_vars_relabel

theorem substitute_relabel (σ : Scheme) (s : Subst) :
    (σ.relabel ρ).substitute (s.relabel ρ) = (σ.substitute s).relabel ρ := by
  unfold substitute
  rw [← Subst.relabel_without s (bound_relabel σ)]
  exact congrArg (Scheme.mk _) (Subst.apply_relabel _ _)

/-- A renaming that fixes the variables of a scheme leaves it as it is. -/
theorem relabel_of_fixed (hbody : ∀ v ∈ σ.body.vars, ρ v = v)
    (hbound : ∀ v, σ.bound.contains v → ρ v = v) : σ.relabel ρ = σ := by
  have hset : OrderedMap.relabel ρ id σ.bound = σ.bound := by
    apply OrderedSet.ext_contains
    intro w
    rw [OrderedMap.contains_relabel_iff]
    constructor
    · intro h
      obtain ⟨v, hv, rfl⟩ := h
      rwa [hbound v hv]
    · intro hw
      exact ⟨w, hw, hbound w hw⟩
  unfold relabel
  rw [hset, Ty.relabel_of_fixed hbody]

private theorem idxOf_map_relabel (ρ : Relabeling) (v : TyVar) (vs : List TyVar) :
    (vs.map ρ).idxOf (ρ v) = vs.idxOf v := by
  induction vs with
  | nil => rfl
  | cons w rest ih => simp [List.idxOf_cons, ih, ρ.injective.beq_eq]

/-- The variable issued for a renamed bound variable is the one issued for the bound variable,
renamed: both stand at the same place in the list of bound variables. -/
theorem issuedFor_relabel {n : Nat} (h : ρ.TranslatesFrom n) (σ : Scheme) (v : TyVar) :
    (σ.relabel ρ).issuedFor (ρ ⟨n⟩).index (ρ v) = ρ (σ.issuedFor n v) := by
  unfold issuedFor
  rw [h, relabel, OrderedSet.toList, OrderedMap.keys_relabel, idxOf_map_relabel]
  rfl

/-- Instantiation from a renamed count gives the renamed instance. -/
theorem instantiate_relabel {n : Nat} (h : ρ.TranslatesFrom n) (σ : Scheme) :
    (σ.relabel ρ).instantiate ⟨(ρ ⟨n⟩).index⟩ =
      ((σ.instantiate ⟨n⟩).1.relabel ρ, ⟨(ρ ⟨(σ.instantiate ⟨n⟩).2.issued⟩).index⟩) := by
  rw [instantiate_eq, instantiate_eq]
  have hsize : (σ.relabel ρ).bound.size = σ.bound.size := OrderedMap.size_relabel
  have hbody : (σ.relabel ρ).body = σ.body.relabel ρ := rfl
  rw [hsize, h, hbody, replace_relabel, relabel_replace]
  refine congrArg (·, _) (replace_congr fun v _ => ?_)
  rw [bound_relabel]
  split
  · rw [issuedFor_relabel h, relabel_var]
  · rw [relabel_var]

end Scheme

namespace Context

def relabel (ρ : Relabeling) (Γ : Context) : Context := OrderedMap.mapValues Γ (Scheme.relabel ρ)

variable {ρ : Relabeling} {Γ : Context} {v : TyVar}

theorem get?_relabel (Γ : Context) (x : CoreVar) :
    (Γ.relabel ρ).get? x = (Γ.get? x).map (Scheme.relabel ρ) :=
  OrderedMap.get?_mapValues Γ _ x

theorem relabel_substitute (Γ : Context) (s : Subst) :
    (Γ.substitute s).relabel ρ = (Γ.relabel ρ).substitute (s.relabel ρ) := by
  apply OrderedMap.ext_get?
  intro x
  rw [get?_relabel, get?_substitute, get?_substitute, get?_relabel, Option.map_map, Option.map_map]
  exact congrArg (Option.map · _) (funext fun σ => (Scheme.substitute_relabel σ s).symm)

theorem relabel_insert (Γ : Context) (x : CoreVar) (σ : Scheme) :
    relabel ρ (Γ.insert x σ) = (Γ.relabel ρ).insert x (σ.relabel ρ) := by
  apply OrderedMap.ext_get?
  intro y
  rw [get?_relabel, OrderedMap.get?_insert, OrderedMap.get?_insert, get?_relabel]
  split <;> rfl

theorem relabel_erase (Γ : Context) (x : CoreVar) :
    relabel ρ (OrderedMap.erase Γ x) = OrderedMap.erase (Γ.relabel ρ) x := by
  apply OrderedMap.ext_get?
  intro y
  rw [get?_relabel, OrderedMap.get?_erase, OrderedMap.get?_erase, get?_relabel]
  split <;> rfl

theorem free_relabel : (Γ.relabel ρ).Free (ρ v) ↔ Γ.Free v := by
  unfold Free
  simp only [get?_relabel, Option.map_eq_some_iff]
  constructor
  · intro h
    obtain ⟨x, _, ⟨σ, hσ, rfl⟩, hfree⟩ := h
    exact ⟨x, σ, hσ, Scheme.free_relabel.1 hfree⟩
  · intro h
    obtain ⟨x, σ, hσ, hfree⟩ := h
    exact ⟨x, _, ⟨σ, hσ, rfl⟩, Scheme.free_relabel.2 hfree⟩

/-- Renaming goes through generalization. -/
theorem relabel_generalize (Γ : Context) (t : Ty) :
    (Γ.generalize t).relabel ρ = (Γ.relabel ρ).generalize (t.relabel ρ) := by
  have hbound : ((Γ.generalize t).relabel ρ).bound =
      ((Γ.relabel ρ).generalize (t.relabel ρ)).bound := by
    apply OrderedSet.ext_contains
    intro w
    rw [bound_generalize, Ty.mem_vars_relabel_iff]
    refine OrderedMap.contains_relabel_iff.trans ?_
    constructor
    · intro h
      obtain ⟨v, hv, rfl⟩ := h
      obtain ⟨hmem, hfree⟩ := bound_generalize.1 hv
      exact ⟨⟨v, hmem, rfl⟩, fun h => hfree (free_relabel.1 h)⟩
    · intro h
      obtain ⟨⟨v, hmem, rfl⟩, hfree⟩ := h
      exact ⟨v, bound_generalize.2 ⟨hmem, fun h => hfree (free_relabel.2 h)⟩, rfl⟩
  exact congrArg (Scheme.mk · (t.relabel ρ)) hbound

theorem relabel_of_fixed (h : ∀ x σ, Γ.get? x = some σ →
    ∀ v, v ∈ σ.body.vars ∨ σ.bound.contains v → ρ v = v) : Γ.relabel ρ = Γ := by
  apply OrderedMap.ext_get?
  intro x
  rw [get?_relabel]
  cases hx : Γ.get? x with
  | none => rfl
  | some σ =>
    have hσ := h x σ hx
    rw [Option.map_some, Scheme.relabel_of_fixed (fun v hv => hσ v (Or.inl hv))
      fun v hv => hσ v (Or.inr hv)]

end Context

namespace Unification

def relabelError (ρ : Relabeling) : UnifyError → UnifyError
  | .cannotUnify a b => .cannotUnify (a.relabel ρ) (b.relabel ρ)
  | .infiniteType v t => .infiniteType (ρ v) (t.relabel ρ)

def relabelFound (ρ : Relabeling) : Except UnifyError Subst → Except UnifyError Subst
  | .ok s => .ok (s.relabel ρ)
  | .error e => .error (relabelError ρ e)

variable {ρ : Relabeling} {a b : Ty}

theorem Clash.relabel (hc : Clash a b) : Clash (a.relabel ρ) (b.relabel ρ) := by
  obtain ⟨ha, hb, hparts⟩ := hc
  refine ⟨renamed_ne_var ha, renamed_ne_var hb, fun pairs hp => ?_⟩
  obtain ⟨g, hg⟩ := exists_undo ρ.injective
  have hback := hp.replace fun v => .var (g v)
  unfold Ty.relabel at hback
  rw [hg, hg] at hback
  exact hparts _ hback

theorem bindVar_relabel (v : TyVar) (t : Ty) :
    (bindVar (ρ v) (t.relabel ρ)).run = (bindVar v t).run.map (relabelFound ρ) := by
  have hoccurs : (t.relabel ρ).occurs (ρ v) = t.occurs v := occurs_renamed ρ.injective
  unfold bindVar
  rw [hoccurs]
  split <;> rfl

/-- Pairs are solved alike before and after a renaming if single pairs are. -/
theorem solvePairs_relabel {f : Ty → Ty → Search Subst}
    (hf : ∀ x y, (f (x.relabel ρ) (y.relabel ρ)).run = (f x y).run.map (relabelFound ρ))
    (found : Subst) (pairs : List (Ty × Ty)) :
    (solvePairs f (found.relabel ρ) (pairs.map (Prod.map (Ty.relabel ρ) (Ty.relabel ρ)))).run =
      (solvePairs f found pairs).run.map (relabelFound ρ) := by
  induction pairs generalizing found with
  | nil => rfl
  | cons p rest ih =>
    obtain ⟨x, y⟩ := p
    simp only [List.map_cons, Prod.map, solvePairs, ExceptT.run_bind, Subst.apply_relabel, hf]
    rcases (f (found.apply x) (found.apply y)).run with _ | e | next
    · rfl
    · rfl
    · have hnext := ih (next.compose found)
      rw [Subst.relabel_compose] at hnext
      exact hnext

/-- Unification of renamed types comes to what unification of the types comes to, renamed. -/
theorem unify_relabel (n : Nat) (a b : Ty) :
    (unify n (a.relabel ρ) (b.relabel ρ)).run = (unify n a b).run.map (relabelFound ρ) := by
  induction n generalizing a b with
  | zero => rfl
  | succ n ih =>
    have hsame : Agrees (a.relabel ρ) (b.relabel ρ) ↔ Agrees a b :=
      agrees_renamed_iff ρ.injective
    cases meeting a b with
    | agree h =>
      rw [unify_agree h, unify_agree (hsame.2 h)]
      rfl
    | @left v _ h =>
      have h' := mt hsame.1 h
      rw [relabel_var] at h' ⊢
      rw [unify_left h, unify_left h']
      exact bindVar_relabel v b
    | @right v _ h ha =>
      have h' := mt hsame.1 h
      rw [relabel_var] at h' ⊢
      rw [unify_right h ha, unify_right h' (renamed_ne_var ha)]
      exact bindVar_relabel v a
    | parts h hp =>
      rw [unify_parts h hp, unify_parts (mt hsame.1 h) (hp.replace _)]
      exact solvePairs_relabel ih Subst.empty _
    | clash h hc =>
      rw [unify_clash h hc, unify_clash (mt hsame.1 h) hc.relabel]
      rfl

end Unification

end SemanticAnalysis
