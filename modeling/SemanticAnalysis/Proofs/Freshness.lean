import SemanticAnalysis.Proofs.Computations
import SemanticAnalysis.Proofs.InferenceRuns

/-!
Where the variables of an inferred type come from. Inference mentions only free
variables of the context and variables issued during the run. So in a context
whose variables were all issued before and whose bound variables are not free in
it, nothing is captured when the substitution found is applied to the context,
and the context stays of this kind.
-/

namespace SemanticAnalysis

open Ty

section Instantiation

theorem freshList_eq (supply : Supply) (k : Nat) :
    supply.freshList k =
      ((List.range' supply.issued k).map TyVar.mk, ⟨supply.issued + k⟩) := by
  induction k generalizing supply with
  | zero => rfl
  | succ k ih =>
    rw [Supply.freshList, Supply.fresh]
    simp only [ih, List.range'_succ, List.map_cons, Prod.mk.injEq, true_and]
    congr 1
    omega

namespace Scheme

def issuedFor (σ : Scheme) (n : Nat) (v : TyVar) : TyVar :=
  ⟨n + (OrderedSet.toList σ.bound).idxOf v⟩

variable {σ : Scheme} {n : Nat} {v w : TyVar}

theorem issuedFor_bounds (hv : σ.bound.contains v) :
    n ≤ (σ.issuedFor n v).index ∧ (σ.issuedFor n v).index < n + σ.bound.size := by
  have hmem := OrderedSet.mem_toList_iff.2 hv
  have hlt := List.idxOf_lt_length_iff.2 hmem
  have hlen := OrderedSet.length_toList σ.bound
  simp only [issuedFor]
  omega

/-- Instantiation puts for each bound variable the one issued for it. -/
theorem read_fresh (hv : σ.bound.contains v) :
    Subst.read (OrderedMap.ofList ((OrderedSet.toList σ.bound).zip
      (((List.range' n σ.bound.size).map TyVar.mk).map Ty.var))) v =
        .var (σ.issuedFor n v) := by
  have hmem := OrderedSet.mem_toList_iff.2 hv
  have hlt := List.idxOf_lt_length_iff.2 hmem
  have hlen := OrderedSet.length_toList σ.bound
  apply Subst.read_of_get?
  apply OrderedMap.get?_insertAll_of_mem
  · apply List.mem_iff_getElem.2
    refine ⟨(OrderedSet.toList σ.bound).idxOf v, ?_, ?_⟩
    · simp only [List.length_zip, List.length_map, List.length_range']
      omega
    · simp [issuedFor]
  · intro other hother
    obtain ⟨j, hj, heq⟩ := List.mem_iff_getElem.1 hother
    simp only [List.getElem_zip, List.getElem_map, List.getElem_range', Nat.one_mul,
      Prod.mk.injEq] at heq
    have hidx : (OrderedSet.toList σ.bound).idxOf v = j := by
      rw [← heq.1]
      exact (OrderedMap.keys_nodup σ.bound).idxOf_getElem j _
    rw [← heq.2, issuedFor, hidx]

/-- Instantiation puts an issued variable in the place of each bound one. -/
theorem instantiate_eq (σ : Scheme) (supply : Supply) :
    σ.instantiate supply =
      (σ.body.replace fun v =>
        if σ.bound.contains v then .var (σ.issuedFor supply.issued v) else .var v,
      ⟨supply.issued + σ.bound.size⟩) := by
  unfold instantiate
  rw [freshList_eq]
  simp only [Subst.apply_eq_replace, Prod.mk.injEq, and_true]
  refine replace_congr fun v _ => ?_
  by_cases hv : σ.bound.contains v = true
  · rw [if_pos hv, read_fresh hv]
  · rw [if_neg hv]
    apply Subst.read_of_not_contains
    rw [← OrderedMap.get?_eq_none_iff]
    apply OrderedMap.get?_insertAll_of_not_mem
    intro p hp heq
    apply hv
    rw [← heq]
    exact OrderedSet.mem_toList_iff.1 (List.of_mem_zip hp).1

theorem instance_instantiate (σ : Scheme) (supply : Supply) :
    σ.Instance (σ.instantiate supply).1 := by
  rw [instance_iff, instantiate_eq]
  refine ⟨_, fun v hv => ?_, Agrees.refl _⟩
  simp [hv.2]

/-- An instance mentions free variables of the scheme and variables issued for it. -/
theorem mem_vars_instantiate {supply : Supply} (h : v ∈ (σ.instantiate supply).1.vars) :
    σ.Free v ∨ supply.issued ≤ v.index ∧ v.index < (σ.instantiate supply).2.issued := by
  rw [instantiate_eq] at h ⊢
  obtain ⟨w, hw, hvw⟩ := mem_vars_replace.1 h
  by_cases hbound : σ.bound.contains w = true
  · rw [if_pos hbound, mem_vars_var] at hvw
    rw [hvw]
    exact Or.inr (issuedFor_bounds hbound)
  · rw [if_neg hbound, mem_vars_var] at hvw
    rw [hvw]
    exact Or.inl ⟨hw, by simpa using hbound⟩

end Scheme

end Instantiation

namespace Context

def Issued (Γ : Context) (n : Nat) : Prop :=
  ∀ x σ, Γ.get? x = some σ → ∀ v, v ∈ σ.body.vars ∨ σ.bound.contains v → v.index < n

theorem issued_iff {Γ : Context} {n : Nat} :
    Γ.Issued n ↔ ∀ p ∈ Γ.entries, ∀ v ∈ p.2.body.vars ++ OrderedSet.toList p.2.bound,
      v.index < n := by
  simp only [Issued, List.mem_append, OrderedSet.mem_toList_iff]
  exact OrderedMap.forall_get?_iff

instance (Γ : Context) (n : Nat) : Decidable (Γ.Issued n) := decidable_of_iff _ issued_iff.symm

/-- A context at a count of issued variables: its variables, free or bound, are issued, and
no variable that a scheme of it binds is free in it. -/
structure Hygienic (Γ : Context) (n : Nat) : Prop where
  issued : Γ.Issued n
  bound_not_free : ∀ x σ, Γ.get? x = some σ → ∀ v, σ.bound.contains v → ¬ Γ.Free v

/-- Hygiene can be tested entry by entry. -/
theorem hygienic_iff {Γ : Context} {n : Nat} :
    Γ.Hygienic n ↔ (∀ p ∈ Γ.entries, (∀ v ∈ p.2.body.vars, v.index < n) ∧
      ∀ v ∈ OrderedSet.toList p.2.bound, v.index < n ∧ Γ.freeVars.contains v = false) := by
  rw [← OrderedMap.forall_get?_iff (m := Γ) (P := fun σ : Scheme =>
    (∀ v ∈ σ.body.vars, v.index < n) ∧
      ∀ v ∈ OrderedSet.toList σ.bound, v.index < n ∧ Γ.freeVars.contains v = false)]
  simp only [OrderedSet.mem_toList_iff]
  constructor
  · intro h x σ hσ
    refine ⟨fun v hv => h.issued x σ hσ v (Or.inl hv), fun v hv => ⟨?_, ?_⟩⟩
    · exact h.issued x σ hσ v (Or.inr hv)
    · have hfree := h.bound_not_free x σ hσ v hv
      rw [← contains_freeVars] at hfree
      simpa using hfree
  · intro h
    refine ⟨fun x σ hσ v hv => ?_, fun x σ hσ v hv hfree => ?_⟩
    · rcases hv with hv | hv
      · exact (h x σ hσ).1 v hv
      · exact ((h x σ hσ).2 v hv).1
    · have hnot := ((h x σ hσ).2 v hv).2
      simp [contains_freeVars.2 hfree] at hnot

instance (Γ : Context) (n : Nat) : Decidable (Γ.Hygienic n) := decidable_of_iff _ hygienic_iff.symm

def FreeBelow (Γ : Context) (n : Nat) : Prop := ∀ v, Γ.Free v → v.index < n

/-- The variables free in a context and those issued between two counts. -/
def Reaches (Γ : Context) (n m : Nat) (v : TyVar) : Prop :=
  Γ.Free v ∨ n ≤ v.index ∧ v.index < m

section Hygiene

variable {Γ Δ : Context} {n m k : Nat} {v : TyVar} {s : Subst}

theorem Issued.freeBelow (h : Γ.Issued n) : Γ.FreeBelow n := by
  intro v hv
  obtain ⟨x, σ, hx, hfree⟩ := hv
  exact h x σ hx v (Or.inl hfree.1)

theorem Hygienic.freeBelow (h : Γ.Hygienic n) : Γ.FreeBelow n := h.issued.freeBelow

theorem Hygienic.lt_of_free (h : Γ.Hygienic n) (hv : Γ.Free v) : v.index < n := h.freeBelow v hv

/-- A closed context is hygienic once its bound variables are issued. -/
theorem hygienic_of_closed (hclosed : ∀ v, ¬ Γ.Free v)
    (hbound : ∀ x σ, Γ.get? x = some σ → ∀ v, σ.bound.contains v → v.index < n) :
    Γ.Hygienic n where
  issued := by
    intro x σ hx v hv
    rcases hv with hv | hv
    · refine hbound x σ hx v ?_
      by_contra hnot
      exact hclosed v ⟨x, σ, hx, hv, by simpa using hnot⟩
    · exact hbound x σ hx v hv
  bound_not_free _ _ _ v _ := hclosed v

theorem Hygienic.mono (h : Γ.Hygienic n) (hnm : n ≤ m) : Γ.Hygienic m where
  issued x σ hx v hv := Nat.lt_of_lt_of_le (h.issued x σ hx v hv) hnm
  bound_not_free := h.bound_not_free

theorem Reaches.mono (h : Γ.Reaches n m v) (hmk : m ≤ k) : Γ.Reaches n k v := by
  rcases h with hfree | ⟨hn, hm⟩
  · exact Or.inl hfree
  · exact Or.inr ⟨hn, by omega⟩

theorem Reaches.lt (h : Γ.Reaches n m v) (hΓ : Γ.FreeBelow n) (hnm : n ≤ m) : v.index < m := by
  rcases h with hfree | ⟨_, hm⟩
  · have := hΓ v hfree
    omega
  · exact hm

/-- What is reached from a later context is reached from the earlier one. -/
theorem Reaches.trans (h : Δ.Reaches m k v) (hfree : ∀ v, Δ.Free v → Γ.Reaches n m v)
    (hnm : n ≤ m) (hmk : m ≤ k) : Γ.Reaches n k v := by
  rcases h with hv | ⟨hm, hk⟩
  · exact (hfree v hv).mono hmk
  · exact Or.inr ⟨by omega, hk⟩

/-- Bound variables of a context are out of reach. -/
theorem Hygienic.not_reaches (hΓ : Γ.Hygienic n) {x : CoreVar} {σ : Scheme}
    (hx : Γ.get? x = some σ) (hv : σ.bound.contains v) : ¬ Γ.Reaches n m v := by
  intro h
  rcases h with hfree | ⟨hn, _⟩
  · exact hΓ.bound_not_free x σ hx v hv hfree
  · have := hΓ.issued x σ hx v (Or.inr hv)
    omega

theorem Hygienic.apart (hΓ : Γ.Hygienic n) (hs : ∀ v, s.Touches v → Γ.Reaches n m v) :
    Γ.Apart s := by
  intro x σ hx v hv htouch
  exact hΓ.not_reaches hx hv (hs v htouch)

theorem reaches_of_free_substitute (hs : ∀ v, s.Touches v → Γ.Reaches n m v)
    (hv : (Γ.substitute s).Free v) : Γ.Reaches n m v := by
  obtain ⟨w, hw, hvw⟩ := exists_free_of_substitute hv
  rcases Subst.touches_of_read hvw with rfl | htouch
  · exact Or.inl hw
  · exact hs v htouch

/-- A substitution in reach of a hygienic context leaves it hygienic. -/
theorem Hygienic.substitute (hΓ : Γ.Hygienic n) (hs : ∀ v, s.Touches v → Γ.Reaches n m v)
    (hnm : n ≤ m) : (Γ.substitute s).Hygienic m where
  issued := by
    intro x δ hx v hv
    obtain ⟨σ, hσ, rfl⟩ := get?_substitute_eq_some.1 hx
    rcases hv with hv | hv
    · rw [Scheme.substitute_body (hΓ.apart hs x σ hσ)] at hv
      rcases Subst.mem_or_touches_of_mem_apply hv with hv | htouch
      · have := hΓ.issued x σ hσ v (Or.inl hv)
        omega
      · exact (hs v htouch).lt hΓ.freeBelow hnm
    · have := hΓ.issued x σ hσ v (Or.inr hv)
      omega
  bound_not_free := by
    intro x δ hx v hv hfree
    obtain ⟨σ, hσ, rfl⟩ := get?_substitute_eq_some.1 hx
    exact hΓ.not_reaches hσ hv (reaches_of_free_substitute hs hfree)

theorem Hygienic.erase (hΓ : Γ.Hygienic n) (x : CoreVar) :
    Hygienic (OrderedMap.erase Γ x) n where
  issued y σ hy := hΓ.issued y σ (OrderedMap.of_get?_erase hy)
  bound_not_free y σ hy v hv hfree :=
    hΓ.bound_not_free y σ (OrderedMap.of_get?_erase hy) v hv (free_of_erase hfree)

/-- A scheme may join a context if its variables are issued, and neither it nor the context
binds a variable that is free in the other or in itself. -/
theorem Hygienic.insert (hΓ : Γ.Hygienic n) (x : CoreVar) {σ : Scheme}
    (hissued : ∀ v, v ∈ σ.body.vars ∨ σ.bound.contains v → v.index < n)
    (hbound : ∀ v, σ.bound.contains v → ¬ Γ.Free v)
    (hfree : ∀ v, σ.Free v → ∀ y δ, Γ.get? y = some δ → δ.bound.contains v = false) :
    Hygienic (Γ.insert x σ) n where
  issued := by
    intro y δ hy
    rcases OrderedMap.of_get?_insert hy with ⟨-, rfl⟩ | hy
    · exact hissued
    · exact hΓ.issued y δ hy
  bound_not_free := by
    intro y δ hy v hv hvfree
    rcases OrderedMap.of_get?_insert hy with ⟨-, rfl⟩ | hy
    · rcases free_insert hvfree with hself | hold
      · simp [hself.2] at hv
      · exact hbound v hv hold
    · rcases free_insert hvfree with hnew | hold
      · simp [hfree v hnew y δ hy] at hv
      · exact hΓ.bound_not_free y δ hy v hv hold

/-- Binding a variable to a type in reach keeps a context hygienic. -/
theorem Hygienic.insert_mono (hΓ : Γ.Hygienic n) (x : CoreVar) {i : Ty}
    (hi : ∀ v ∈ i.vars, Γ.Reaches n m v) (hnm : n ≤ m) :
    Hygienic (Γ.insert x (Scheme.mono i)) m := by
  refine (hΓ.mono hnm).insert x ?_ ?_ ?_
  · intro v hv
    have hmem : v ∈ i.vars := by simpa [Scheme.mono] using hv
    exact (hi v hmem).lt hΓ.freeBelow hnm
  · intro v hv
    simp [Scheme.mono] at hv
  · intro v hv y δ hy
    by_contra hbound
    exact hΓ.not_reaches hy (by simpa using hbound) (hi v (Scheme.free_mono.1 hv))

theorem reaches_of_free_insert_mono {x : CoreVar} {i : Ty}
    (hi : ∀ v ∈ i.vars, Γ.Reaches n m v) (hv : Free (Γ.insert x (Scheme.mono i)) v) :
    Γ.Reaches n m v := by
  rcases free_insert hv with hv | hv
  · exact hi v (Scheme.free_mono.1 hv)
  · exact Or.inl hv

end Hygiene

/-- A substitution and a type, found while the count of issued variables went from one number
to the other, mention only variables in reach of the context. -/
structure Mentions (Γ : Context) (n m : Nat) (s : Subst) (t : Ty) : Prop where
  le : n ≤ m
  subst : ∀ v, s.Touches v → Γ.Reaches n m v
  type : ∀ v ∈ t.vars, Γ.Reaches n m v

namespace Mentions

variable {Γ Δ : Context} {n m k : Nat} {s s₀ s₁ : Subst} {t t₀ t₁ : Ty}

theorem empty (hnm : n ≤ m) (ht : ∀ v ∈ t.vars, Γ.Reaches n m v) :
    Γ.Mentions n m Subst.empty t where
  le := hnm
  subst v hv := absurd hv (Subst.not_touches_empty v)
  type := ht

/-- Two runs in a row, the second one in a context reached by the first. -/
theorem compose (h₀ : Γ.Mentions n m s₀ t₀) (hfree : ∀ v, Δ.Free v → Γ.Reaches n m v)
    (h₁ : Δ.Mentions m k s₁ t₁) : Γ.Mentions n k (s₁.compose s₀) t₁ where
  le := Nat.le_trans h₀.le h₁.le
  subst := by
    intro v hv
    rcases Subst.touches_compose hv with hv | hv
    · exact (h₁.subst v hv).trans hfree h₀.le h₁.le
    · exact (h₀.subst v hv).mono h₁.le
  type v hv := (h₁.type v hv).trans hfree h₀.le h₁.le

theorem compose_apply (h₀ : Γ.Mentions n m s₀ t₀) (hfree : ∀ v, Δ.Free v → Γ.Reaches n m v)
    (h₁ : Δ.Mentions m k s₁ t₁) : Γ.Mentions n k (s₁.compose s₀) (s₁.apply t₀) where
  le := (h₀.compose hfree h₁).le
  subst := (h₀.compose hfree h₁).subst
  type := by
    intro v hv
    rcases Subst.mem_or_touches_of_mem_apply hv with hv | hv
    · exact (h₀.type v hv).mono h₁.le
    · exact (h₁.subst v hv).trans hfree h₀.le h₁.le

/-- The types of earlier items follow the substitution found for a later one. -/
theorem append {ts₀ : List Ty} (h₀ : Γ.Mentions n m s₀ (.tuple ts₀))
    (hfree : ∀ v, Δ.Free v → Γ.Reaches n m v) (h₁ : Δ.Mentions m k s₁ t₁) :
    Γ.Mentions n k (s₁.compose s₀) (.tuple (ts₀.map s₁.apply ++ [t₁])) where
  le := (h₀.compose hfree h₁).le
  subst := (h₀.compose hfree h₁).subst
  type := by
    intro v hv
    obtain ⟨u, hu, hvu⟩ := mem_vars_tuple.1 hv
    rcases List.mem_append.1 hu with hu | hu
    · apply (h₀.compose_apply hfree h₁).type v
      rw [Subst.apply_tuple]
      exact mem_vars_tuple.2 ⟨u, hu, hvu⟩
    · rw [List.mem_singleton.1 hu] at hvu
      exact (h₀.compose hfree h₁).type v hvu

theorem type_lt (h : Γ.Mentions n m s t) (hΓ : Γ.Hygienic n) {v : TyVar} (hv : v ∈ t.vars) :
    v.index < m :=
  (h.type v hv).lt hΓ.freeBelow h.le

theorem read_lt (h : Γ.Mentions n m s t) (hΓ : Γ.Hygienic n) {v w : TyVar} (hv : v.index < m)
    (hw : w ∈ (s.read v).vars) : w.index < m := by
  rcases Subst.touches_of_read hw with rfl | htouch
  · exact hv
  · exact (h.subst w htouch).lt hΓ.freeBelow h.le

theorem apply_lt (h : Γ.Mentions n m s t) (hΓ : Γ.Hygienic n) {u : Ty}
    (hu : ∀ v ∈ u.vars, v.index < m) {w : TyVar} (hw : w ∈ (s.apply u).vars) : w.index < m := by
  obtain ⟨v, hv, hwv⟩ := Subst.mem_vars_apply.1 hw
  exact h.read_lt hΓ (hu v hv) hwv

/-- A further substitution in reach, applied to a type in reach. -/
theorem extend (h : Γ.Mentions n m s₀ t₀) (hmk : m ≤ k) {u : Ty}
    (hs : ∀ v, s.Touches v → Γ.Reaches n k v) (hu : ∀ v ∈ u.vars, Γ.Reaches n k v) :
    Γ.Mentions n k (s.compose s₀) (s.apply u) where
  le := Nat.le_trans h.le hmk
  subst := by
    intro v hv
    rcases Subst.touches_compose hv with hv | hv
    · exact hs v hv
    · exact (h.subst v hv).mono hmk
  type := by
    intro v hv
    rcases Subst.mem_or_touches_of_mem_apply hv with hv | hv
    · exact hu v hv
    · exact hs v hv

end Mentions

end Context

namespace Inference

section Growth

variable {ε α β : Type} {fuel : Nat}

def Grows (x : ExceptT ε (StateT State Option) α) : Prop :=
  ∀ st, Lands x st (fun _ st' => st.supply.issued ≤ st'.supply.issued)
    fun _ st' => st.supply.issued ≤ st'.supply.issued

theorem Grows.of_run {x : ExceptT ε (StateT State Option) α} {r : Except ε α} {st st' : State}
    (h : Grows x) (hrun : x.run.run st = some (r, st')) :
    st.supply.issued ≤ st'.supply.issued := by
  cases r with
  | ok a => exact (h st).of_ok hrun
  | error e => exact (h st).of_error hrun

theorem grows_pure (a : α) : Grows (pure a : ExceptT ε (StateT State Option) α) := by
  intro st
  simp

theorem grows_throw (e : ε) : Grows (throw e : ExceptT ε (StateT State Option) α) := by
  intro st
  simp

/-- Two computations in a row give no variable back if neither does. -/
theorem grows_bind {x : ExceptT ε (StateT State Option) α}
    {f : α → ExceptT ε (StateT State Option) β} (hx : Grows x) (hf : ∀ a, Grows (f a)) :
    Grows (x >>= f) := by
  intro st
  rw [lands_bind]
  refine (hx st).imp_ok fun a st₁ hle => ?_
  refine (hf a st₁).imp ?_ ?_
  · intro b st₂ hle'
    omega
  · intro e st₂ hle'
    omega

theorem grows_adapt {ε' : Type} {g : ε → ε'} {x : ExceptT ε (StateT State Option) α}
    (hx : Grows x) : Grows (ExceptT.adapt g x) := by
  intro st
  rw [lands_adapt]
  exact hx st

theorem freshVar_grows : Grows freshVar := by
  intro st
  simp [freshVar, Supply.fresh]

theorem instantiate_grows (σ : Scheme) : Grows (instantiate σ) := by
  intro st
  simp [instantiate, Scheme.instantiate_eq]

theorem record_grows (origin : Option NodeId) (t : Ty) : Grows (record origin t) := by
  intro st
  cases origin <;> simp [record]

theorem solve_grows (a b : Ty) : Grows (solve fuel a b) := by
  unfold solve
  split
  · intro st r hr
    cases hr
  · exact grows_throw _
  · exact grows_pure _

theorem binderType_grows (Γ : Context) (x : CoreVar) : Grows (binderType Γ x) := by
  unfold binderType
  split
  · split
    · exact grows_pure _
    · exact freshVar_grows
  · exact freshVar_grows

theorem meetAssumed_grows (Γ : Context) (x : CoreVar) (s : Subst) (t : Ty) :
    Grows (meetAssumed fuel Γ x s t) := by
  unfold meetAssumed
  split
  · refine grows_bind (instantiate_grows _) fun expected => ?_
    exact grows_bind (solve_grows _ _) fun r => grows_pure _
  · exact grows_pure _

theorem inferItems_grows {items : List Term}
    (hitems : ∀ e ∈ items, ∀ Γ, Grows (infer fuel Γ e)) (Γ : Context) (s : Subst) (ts : List Ty) :
    Grows (inferItems fuel Γ s ts items) := by
  induction items generalizing s ts with
  | nil => simpa only [inferItems] using grows_pure _
  | cons e rest ih =>
    simp only [inferItems]
    refine grows_bind (hitems e (List.mem_cons_self ..) _) fun r => ?_
    exact ih (fun e he => hitems e (List.mem_cons_of_mem _ he)) _ _

/-- Inference gives no variable back. -/
theorem infer_grows (e : Term) (Γ : Context) : Grows (infer fuel Γ e) := by
  induction e generalizing Γ with
  | var x =>
    simp only [infer]
    split
    · exact grows_bind (instantiate_grows _) fun t => grows_pure _
    · exact grows_throw _
  | app arg func origin iharg ihfunc =>
    simp only [infer]
    refine grows_bind (ihfunc Γ) fun r₁ => ?_
    refine grows_bind (iharg _) fun r₂ => ?_
    refine grows_bind freshVar_grows fun result => ?_
    refine grows_bind (solve_grows _ _) fun s₃ => ?_
    exact grows_bind (record_grows origin _) fun _ => grows_pure _
  | lam x body origin ih =>
    simp only [infer]
    refine grows_bind (binderType_grows Γ x) fun input => ?_
    refine grows_bind (ih _) fun r => ?_
    exact grows_bind (record_grows origin _) fun _ => grows_pure _
  | letIn binder x usage ihbinder ihusage =>
    simp only [infer]
    refine grows_bind (ihbinder Γ) fun r => ?_
    refine grows_bind (meetAssumed_grows Γ x _ _) fun r₁ => ?_
    exact grows_bind (ihusage _) fun r₂ => grows_pure _
  | number text => simpa only [infer] using grows_pure _
  | floating text => simpa only [infer] using grows_pure _
  | tuple items ih =>
    simp only [infer]
    exact grows_bind (inferItems_grows ih Γ Subst.empty []) fun r => grows_pure _

end Growth

section Fresh

variable {fuel : Nat} {Γ : Context} {st st' : State} {s : Subst} {t : Ty} {n m : Nat}

/-- An instance of a scheme in reach is in reach. -/
theorem instantiate_reaches {σ : Scheme} (h : Yields (instantiate σ) st t st')
    (hσ : ∀ v, σ.Free v → Γ.Reaches n st.supply.issued v) (hn : n ≤ st.supply.issued) :
    st.supply.issued ≤ st'.supply.issued ∧ ∀ v ∈ t.vars, Γ.Reaches n st'.supply.issued v := by
  obtain ⟨rfl, rfl⟩ := yields_instantiate.1 h
  have hle : st.supply.issued ≤ (σ.instantiate st.supply).2.issued := by
    rw [Scheme.instantiate_eq]
    exact Nat.le_add_right _ _
  refine ⟨hle, fun v hv => ?_⟩
  rcases Scheme.mem_vars_instantiate hv with hfree | ⟨hlow, hhigh⟩
  · exact (hσ v hfree).mono hle
  · exact Or.inr ⟨by omega, hhigh⟩

theorem binderType_reaches {x : CoreVar} (h : Yields (binderType Γ x) st t st') :
    st.supply.issued ≤ st'.supply.issued ∧
      ∀ v ∈ t.vars, Γ.Reaches st.supply.issued st'.supply.issued v := by
  rcases yields_binderType h with ⟨σ, hσ, hmono, rfl, rfl⟩ | ⟨rfl, rfl⟩
  · refine ⟨Nat.le_refl _, fun v hv => Or.inl ⟨x, σ, hσ, hv, ?_⟩⟩
    exact Scheme.not_bound_of_isMono hmono v
  · refine ⟨Nat.le_succ _, fun v hv => Or.inr ?_⟩
    rw [mem_vars_var.1 hv]
    simp

/-- The usage of a let is inferred in a hygienic context. -/
theorem hygienic_usageContext {x : CoreVar} (hΓ : Γ.Hygienic n) (h : Γ.Mentions n m s t) :
    (usageContext Γ s x t).Hygienic m := by
  have hrest := (hΓ.substitute h.subst h.le).erase x
  refine hrest.insert x ?_ ?_ ?_
  · intro v hv
    have hmem : v ∈ t.vars := by
      rcases hv with hv | hv
      · exact hv
      · exact (Context.bound_generalize.1 hv).1
    exact (h.type v hmem).lt hΓ.freeBelow h.le
  · intro v hv
    exact (Context.bound_generalize.1 hv).2
  · intro v hv y δ hy
    by_contra hbound
    have hfree := (Context.free_generalize.1 hv).2
    exact hrest.bound_not_free y δ hy v (by simpa using hbound) hfree

theorem free_of_usageContext {x : CoreVar} {v : TyVar} (hv : (usageContext Γ s x t).Free v) :
    (Γ.substitute s).Free v := by
  rcases Context.free_insert hv with hv | hv
  · exact Context.free_of_erase (Context.free_generalize.1 hv).2
  · exact Context.free_of_erase hv

theorem reaches_of_free_usageContext {x : CoreVar} {v : TyVar} (h : Γ.Mentions n m s t)
    (hv : (usageContext Γ s x t).Free v) : Γ.Reaches n m v :=
  Context.reaches_of_free_substitute h.subst (free_of_usageContext hv)

/-- What is unified to meet an assumption is in reach. -/
theorem expected_reaches {x : CoreVar} {s₀ r : Subst} {t₀ expected : Ty} {σ : Scheme}
    (h₀ : Γ.Mentions n st.supply.issued s₀ t₀) (hσ : Γ.get? x = some σ)
    (hexpected : Yields (instantiate (σ.substitute s₀)) st expected st')
    (hr : (unify fuel expected t₀).run = some (.ok r)) :
    st.supply.issued ≤ st'.supply.issued ∧
      ∀ v, r.Touches v → Γ.Reaches n st'.supply.issued v := by
  have hfree : ∀ v, (σ.substitute s₀).Free v → Γ.Reaches n st.supply.issued v := by
    intro v hv
    apply Context.reaches_of_free_substitute h₀.subst
    exact ⟨x, σ.substitute s₀, by simp [Context.get?_substitute, hσ], hv⟩
  obtain ⟨hle, hreach⟩ := instantiate_reaches hexpected hfree h₀.le
  refine ⟨hle, fun v hv => ?_⟩
  rcases Unification.touches_of_unify hr hv with hv | hv
  · exact hreach v hv
  · exact (h₀.type v hv).mono hle

theorem mentions_of_meetAssumed {x : CoreVar} {s₀ : Subst} {t₀ : Ty}
    (h₀ : Γ.Mentions n st.supply.issued s₀ t₀)
    (h : Yields (meetAssumed fuel Γ x s₀ t₀) st (s, t) st') :
    Γ.Mentions n st'.supply.issued s t := by
  rcases yields_meetAssumed h with ⟨rfl, rfl, rfl⟩ |
    ⟨σ, expected, r, hσ, hexpected, hr, rfl, rfl⟩
  · exact h₀
  · obtain ⟨hle, htouch⟩ := expected_reaches h₀ hσ hexpected hr
    exact h₀.extend hle htouch fun v hv => (h₀.type v hv).mono hle

/-- What is unified at a call is in reach. -/
theorem call_reaches {s₁ s₂ s₃ : Subst} {t₁ t₂ : Ty} {n₁ : Nat} (m₁ : Γ.Mentions n n₁ s₁ t₁)
    (m₂ : (Γ.substitute s₁).Mentions n₁ st.supply.issued s₂ t₂)
    (h₃ : (unify fuel (s₂.apply t₁) (.fn t₂ (.var st.next))).run = some (.ok s₃)) :
    Γ.Reaches n st.advanced.supply.issued st.next ∧
      ∀ v, s₃.Touches v → Γ.Reaches n st.advanced.supply.issued v := by
  have hfree : ∀ v, (Γ.substitute s₁).Free v → Γ.Reaches n n₁ v :=
    fun v => Context.reaches_of_free_substitute m₁.subst
  have hle : st.supply.issued ≤ st.advanced.supply.issued := Nat.le_succ _
  have hnext : Γ.Reaches n st.advanced.supply.issued st.next := by
    have hn := m₁.le
    have hn₁ := m₂.le
    refine Or.inr ⟨?_, ?_⟩
    · simp only [next_index]
      omega
    · simp
  refine ⟨hnext, fun v hv => ?_⟩
  rcases Unification.touches_of_unify h₃ hv with hv | hv
  · exact ((m₁.compose_apply hfree m₂).type v hv).mono hle
  · rcases mem_vars_fn.1 hv with hv | hv
    · exact ((m₁.compose hfree m₂).type v hv).mono hle
    · rwa [mem_vars_var.1 hv]

/-- The items of a tuple mention what is in reach, each under what was found for those before. -/
theorem inferItems_mentions {items : List Term} {s₀ : Subst} {ts₀ ts : List Ty}
    (ih : ∀ e ∈ items, ∀ {Γ : Context} {st st' : State} {s : Subst} {t : Ty},
      Yields (infer fuel Γ e) st (s, t) st' → Γ.Mentions st.supply.issued st'.supply.issued s t)
    (h₀ : Γ.Mentions n st.supply.issued s₀ (.tuple ts₀))
    (h : Yields (inferItems fuel Γ s₀ ts₀ items) st (s, ts) st') :
    Γ.Mentions n st'.supply.issued s (.tuple ts) := by
  induction items generalizing s₀ ts₀ st with
  | nil =>
    obtain ⟨rfl, rfl, rfl⟩ := yields_items_nil.1 h
    exact h₀
  | cons item rest ihrest =>
    obtain ⟨s₁, t₁, st₁, hitem, hrest⟩ := yields_items_cons.1 h
    have h₁ := ih item (List.mem_cons_self ..) hitem
    have hfree : ∀ v, (Γ.substitute s₀).Free v → Γ.Reaches n st.supply.issued v :=
      fun v => Context.reaches_of_free_substitute h₀.subst
    exact ihrest (fun e he => ih e (List.mem_cons_of_mem _ he)) (h₀.append hfree h₁) hrest

/-- Inference mentions only what the context has free and what it issues itself. -/
theorem mentions_of_infer {e : Term} (h : Yields (infer fuel Γ e) st (s, t) st') :
    Γ.Mentions st.supply.issued st'.supply.issued s t := by
  induction e generalizing Γ st st' s t with
  | var x =>
    obtain ⟨σ, hσ, rfl, ht⟩ := yields_var.1 h
    have hfree : ∀ v, σ.Free v → Γ.Reaches st.supply.issued st.supply.issued v :=
      fun v hv => Or.inl ⟨x, σ, hσ, hv⟩
    obtain ⟨hle, hreach⟩ := instantiate_reaches ht hfree (Nat.le_refl _)
    exact Context.Mentions.empty hle hreach
  | app arg func origin iharg ihfunc =>
    obtain ⟨s₁, t₁, st₁, s₂, t₂, st₂, s₃, h₁, h₂, h₃, rfl, rfl, rfl⟩ := yields_app.1 h
    have m₁ := ihfunc h₁
    have m₂ := iharg h₂
    have hfree : ∀ v, (Γ.substitute s₁).Free v →
        Γ.Reaches st.supply.issued st₁.supply.issued v :=
      fun v => Context.reaches_of_free_substitute m₁.subst
    obtain ⟨hnext, htouch⟩ := call_reaches m₁ m₂ h₃
    rw [noted_supply, Subst.compose_assoc]
    refine (m₁.compose hfree m₂).extend (Nat.le_succ _) htouch fun v hv => ?_
    rwa [mem_vars_var.1 hv]
  | lam x body origin ih =>
    obtain ⟨i, st₁, o, st₂, hi, hbody, rfl, rfl⟩ := yields_lam.1 h
    obtain ⟨hle, hreach⟩ := binderType_reaches hi
    have hb := ih hbody
    have hstart : Γ.Mentions st.supply.issued st₁.supply.issued Subst.empty i :=
      Context.Mentions.empty hle hreach
    have hfree : ∀ v, Context.Free (Γ.insert x (Scheme.mono i)) v →
        Γ.Reaches st.supply.issued st₁.supply.issued v :=
      fun v => Context.reaches_of_free_insert_mono hreach
    have hinput := hstart.compose_apply hfree hb
    have houtput := hstart.compose hfree hb
    rw [Subst.compose_empty] at hinput houtput
    rw [noted_supply]
    refine ⟨houtput.le, houtput.subst, fun v hv => ?_⟩
    rcases mem_vars_fn.1 hv with hv | hv
    · exact hinput.type v hv
    · exact houtput.type v hv
  | letIn binder x usage ihbinder ihusage =>
    obtain ⟨s₀, t₀, st₀, s₁, t₁, st₁, s₂, h₀, h₁, h₂, rfl⟩ := yields_letIn.1 h
    have m₁ := mentions_of_meetAssumed (ihbinder h₀) h₁
    exact m₁.compose (fun v => reaches_of_free_usageContext m₁) (ihusage h₂)
  | number text =>
    obtain ⟨rfl, rfl, rfl⟩ := yields_number.1 h
    exact Context.Mentions.empty (Nat.le_refl _) (by simp [Ty.number, vars])
  | floating text =>
    obtain ⟨rfl, rfl, rfl⟩ := yields_floating.1 h
    exact Context.Mentions.empty (Nat.le_refl _) (by simp [Ty.floating, vars])
  | tuple items ih =>
    obtain ⟨ts, hitems, rfl⟩ := yields_tuple.1 h
    refine inferItems_mentions (fun e he => ih e he) ?_ hitems
    exact Context.Mentions.empty (Nat.le_refl _) (by simp [vars])

end Fresh

end Inference

end SemanticAnalysis
