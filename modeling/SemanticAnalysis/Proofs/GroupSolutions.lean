import SemanticAnalysis.Proofs.ContextUpdates
import SemanticAnalysis.Proofs.DeclarationRuns

/-!
What typing a group of functions finds out. The members are typed one after the
other under one solution, which stays idempotent and touches only variables of the
context, of the signatures and of its own. Under the solution that is found in the
end each member has its own type, where the other members are monomorphic, and
that type is the one its declaration promises.
-/

namespace SemanticAnalysis

open Ty

namespace Declarations

open Inference (Yields Grows)

variable {fuel n m : Nat} {Γ base : Context} {S : TyVar → Prop} {s r q s' : Subst}
  {l : LoweredFunction} {own a b t : Ty} {st st' : Inference.State} {taken : CoreVar → Bool}

section Solutions

/-- What a group is typed in: a hygienic context, and variables of signatures that the context
does not quantify. -/
structure Grounds (Γ : Context) (S : TyVar → Prop) (n : Nat) : Prop where
  hygienic : Γ.Hygienic n
  sealed : Γ.Sealed .aggregates
  issued : ∀ v, S v → v.index < n ∧ ¬ Γ.Quantifies v

structure Solving (Γ : Context) (S : TyVar → Prop) (n m : Nat) (s : Subst) : Prop where
  le : n ≤ m
  idempotent : s.Idempotent
  sealed : s.Sealed .aggregates
  touches : ∀ v, s.Touches v → Γ.Reaches n m v ∨ S v

theorem Grounds.not_quantifies (hg : Grounds Γ S n) {v : TyVar} (hv : Γ.Reaches n m v ∨ S v) :
    ¬ Γ.Quantifies v := by
  intro hquant
  rcases hv with (hfree | ⟨hle, -⟩) | hv
  · exact hg.hygienic.not_quantifies_of_free hfree hquant
  · have hlt := hg.hygienic.lt_of_quantifies hquant
    omega
  · exact (hg.issued v hv).2 hquant

theorem Grounds.lt (hg : Grounds Γ S n) (hnm : n ≤ m) {v : TyVar}
    (hv : Γ.Reaches n m v ∨ S v) : v.index < m := by
  rcases hv with hv | hv
  · exact hv.lt hg.hygienic.freeBelow hnm
  · have hlt := (hg.issued v hv).1
    omega

theorem Grounds.apart (hg : Grounds Γ S n) (h : ∀ v, s.Touches v → Γ.Reaches n m v ∨ S v) :
    Γ.Apart s :=
  Context.apart_iff.2 fun v hv => hg.not_quantifies (h v hv)

theorem Solving.start (Γ : Context) (S : TyVar → Prop) (n : Nat) : Solving Γ S n n Subst.empty where
  le := Nat.le_refl n
  idempotent := Subst.idempotent_empty
  sealed := Subst.sealed_empty
  touches v hv := absurd hv (Subst.not_touches_empty v)

/-- What the context of a group becomes under a solution. -/
theorem Solving.hygienic (h : Solving Γ S n m s) (hg : Grounds Γ S n) :
    (Γ.substitute s).Hygienic m :=
  (hg.hygienic.mono h.le).substitute_apart (hg.apart h.touches)
    fun v hv => hg.lt h.le (h.touches v hv)

theorem Solving.mem_vars_apply (h : Solving Γ S n m s)
    (ha : ∀ v ∈ a.vars, Γ.Reaches n m v ∨ S v) {v : TyVar} (hv : v ∈ (s.apply a).vars) :
    Γ.Reaches n m v ∨ S v := by
  rcases Subst.mem_or_touches_of_mem_apply hv with hv | hv
  · exact ha v hv
  · exact h.touches v hv

/-- What is reached from the context under a solution was in reach before. -/
theorem Solving.reaches (h : Solving Γ S n m s) (hg : Grounds Γ S n) {k : Nat} (hmk : m ≤ k)
    {v : TyVar} (hv : (Γ.substitute s).Reaches m k v) : Γ.Reaches n k v ∨ S v := by
  have hle := h.le
  rcases hv with hfree | ⟨hlow, hhigh⟩
  · rcases Context.free_or_touches (hg.apart h.touches) hfree with hold | htouch
    · exact Or.inl (Or.inl hold)
    · exact (h.touches v htouch).imp_left fun hv => hv.mono hmk
  · exact Or.inl (Or.inr ⟨by omega, hhigh⟩)

/-- A unifier of what two types have become is put after the solution. -/
theorem Solving.unify (h : Solving Γ S n m r) (ha : a.Sealed .aggregates)
    (hb : b.Sealed .aggregates) (hav : ∀ v ∈ a.vars, Γ.Reaches n m v ∨ S v)
    (hbv : ∀ v ∈ b.vars, Γ.Reaches n m v ∨ S v)
    (hq : (unify fuel (r.apply a) (r.apply b)).run = some (.ok q)) :
    Solving Γ S n m (q.compose r) ∧ (∀ v, q.Touches v → Γ.Reaches n m v ∨ S v) ∧
      Agrees ((q.compose r).apply a) ((q.compose r).apply b) := by
  have hra := h.sealed.apply ha
  have hrb := h.sealed.apply hb
  have hq_touches : ∀ v, q.Touches v → Γ.Reaches n m v ∨ S v := by
    intro v hv
    rcases Unification.touches_of_unify hq hv with hv | hv
    · exact h.mem_vars_apply hav hv
    · exact h.mem_vars_apply hbv hv
  refine ⟨⟨h.le, ?_, ?_, fun v hv => ?_⟩, hq_touches, ?_⟩
  · exact (Unification.solved_next h.idempotent hra hrb (h.idempotent.unboundIn_apply a)
      (h.idempotent.unboundIn_apply b) hq).1
  · exact (Unification.sealed_of_unify hra hrb hq).compose h.sealed
  · rcases Subst.touches_compose hv with hv | hv
    · exact hq_touches v hv
    · exact h.touches v hv
  · rw [Subst.apply_compose, Subst.apply_compose]
    exact (Unification.unify_solves hra hrb hq).1

/-- What inference finds in the context under a solution is put after the solution. -/
theorem Solving.infer (h : Solving Γ S n st.supply.issued s) (hg : Grounds Γ S n) {e : Term}
    (htuples : e.tuplesEmpty) (hrun : Yields (infer fuel (Γ.substitute s) e) st (r, t) st') :
    Solving Γ S n st'.supply.issued (r.compose s) ∧
      (∀ v, r.Touches v → Γ.Reaches n st'.supply.issued v ∨ S v) ∧
      t.Sealed .aggregates ∧ (∀ v ∈ t.vars, Γ.Reaches n st'.supply.issued v ∨ S v) ∧
      t.UnboundIn (r.compose s) := by
  have hsealed := hg.sealed.substitute h.sealed
  have hm := Inference.mentions_of_infer hrun
  obtain ⟨hr, ht⟩ := Inference.infer_sealed hsealed (fun _ => htuples) hrun
  obtain ⟨hidem, hclear⟩ := Inference.infer_solved htuples hsealed (h.hygienic hg).freeBelow hrun
  -- the run starts from a context in which the variables solved so far no longer occur
  obtain ⟨hkeep, hclear'⟩ := hm.unbound (r := s)
    (fun v => Context.unbound_of_free_substitute h.idempotent)
    fun v hv => hg.lt h.le (h.touches v (Or.inl hv))
  have hreach : ∀ v, (Γ.substitute s).Reaches st.supply.issued st'.supply.issued v →
      Γ.Reaches n st'.supply.issued v ∨ S v := fun v hv => h.reaches hg hm.le hv
  have hr_touches : ∀ v, r.Touches v → Γ.Reaches n st'.supply.issued v ∨ S v :=
    fun v hv => hreach v (hm.subst v hv)
  refine ⟨⟨Nat.le_trans h.le hm.le, hidem.compose h.idempotent hkeep, hr.compose h.sealed, ?_⟩,
    hr_touches, ht, fun v hv => hreach v (hm.type v hv), hclear.compose hclear'⟩
  intro v hv
  rcases Subst.touches_compose hv with hv | hv
  · exact hr_touches v hv
  · exact (h.touches v hv).imp_left fun hv => hv.mono hm.le

end Solutions

section Members

structure Placed (S : TyVar → Prop) (l : LoweredFunction) (own : Ty) : Prop where
  tuples : l.term.tuplesEmpty = true
  sealed : l.signature.Sealed .aggregates
  vars : ∀ v ∈ l.signature.vars, S v
  ownSealed : own.Sealed .aggregates
  ownVars : ∀ v ∈ own.vars, S v

/-- Under the solution the function has its own type, unless it rebinds a variable that is taken,
and that type is the promised one. -/
structure Settled (Γ : Context) (taken : CoreVar → Bool) (s : Subst) (l : LoweredFunction)
    (own : Ty) : Prop where
  derives : l.term.rebindsNone .lets taken = true → Derives (Γ.substitute s) l.term (s.apply own)
  promised : Agrees (s.apply own) (s.apply l.signature)

/-- What is settled stays settled under more of the solution. -/
theorem Settled.next (h : Settled Γ taken s l own) (happart : Γ.Apart r) :
    Settled Γ taken (r.compose s) l own where
  derives hlets := by
    rw [Context.substitute_compose happart, Subst.apply_compose]
    exact (h.derives hlets).substitute (Context.apart_substitute.2 happart)
  promised := by
    rw [Subst.apply_compose, Subst.apply_compose]
    exact Subst.agrees_apply r h.promised

theorem inferMember_cases (h : Yields (inferMember fuel Γ s l own) st s' st') :
    ∃ r t q₁ q₂, Yields (infer fuel (Γ.substitute s) l.term) st (r, t) st' ∧
      (unify fuel ((r.compose s).apply own) ((r.compose s).apply t)).run = some (.ok q₁) ∧
      (unify fuel ((q₁.compose (r.compose s)).apply l.signature)
        ((q₁.compose (r.compose s)).apply t)).run = some (.ok q₂) ∧
      s' = q₂.compose (q₁.compose (r.compose s)) := by
  simp only [inferMember, Inference.yields_bind, Inference.yields_solve,
    Inference.yields_pure] at h
  obtain ⟨⟨r, t⟩, st₁, hinfer, q₁, _, ⟨h₁, rfl⟩, q₂, _, ⟨h₂, rfl⟩, rfl, rfl⟩ := h
  exact ⟨r, t, q₁, q₂, hinfer, h₁, h₂, rfl⟩

/-- Typing one member goes on with the solution and settles the member, besides what is settled
already. -/
theorem inferMember_settles (hg : Grounds Γ S n) (htaken : ∀ x, Γ.bindsOpen x → taken x)
    (h : Solving Γ S n st.supply.issued s) (hl : Placed S l own)
    (hrun : Yields (inferMember fuel Γ s l own) st s' st') :
    Solving Γ S n st'.supply.issued s' ∧ Settled Γ taken s' l own ∧
      ∀ k own', Settled Γ taken s k own' → Settled Γ taken s' k own' := by
  obtain ⟨r, t, q₁, q₂, hinfer, hq₁, hq₂, rfl⟩ := inferMember_cases hrun
  obtain ⟨h₁, hr, ht, htvars, hclear⟩ := h.infer hg hl.tuples hinfer
  obtain ⟨h₂, hq₁', hown⟩ := h₁.unify hl.ownSealed ht
    (fun v hv => Or.inr (hl.ownVars v hv)) htvars hq₁
  obtain ⟨h₃, hq₂', hsignature⟩ := h₂.unify hl.sealed ht
    (fun v hv => Or.inr (hl.vars v hv)) htvars hq₂
  have happart : Γ.Apart (q₂.compose q₁) := (hg.apart hq₂').compose (hg.apart hq₁')
  -- the type found is not affected by the solution it was found with
  have hfixed : (r.compose s).apply t = t := Subst.apply_of_unboundIn hclear
  have hown' : Agrees ((q₂.compose (q₁.compose (r.compose s))).apply t)
      ((q₂.compose (q₁.compose (r.compose s))).apply own) := by
    rw [Subst.apply_compose, Subst.apply_compose (s := q₂)]
    exact Subst.agrees_apply q₂ hown.symm
  refine ⟨h₃, ⟨fun hlets => ?_, hown'.symm.trans hsignature.symm⟩, fun k own' hk => ?_⟩
  · have hderives := Inference.infer_sound hl.tuples (hg.sealed.substitute h.sealed)
      (h.hygienic hg) (Inference.taken_substitute htaken (hg.apart h.touches)) hlets hinfer
    rw [← Context.substitute_compose (hg.apart hr)] at hderives
    have hnext := hderives.substitute (Context.apart_substitute.2 happart)
    rw [← Context.substitute_compose happart, Subst.compose_assoc] at hnext
    refine hnext.conv (Agrees.trans ?_ hown')
    rw [← Subst.compose_assoc q₂, Subst.apply_compose (q₂.compose q₁) (r.compose s), hfixed]
  · rw [← Subst.compose_assoc, ← Subst.compose_assoc]
    exact hk.next (happart.compose (hg.apart hr))

/-- Members are settled one after the other, and settled ones stay so under later solutions. -/
theorem inferMembers_settle (hg : Grounds Γ S n) (htaken : ∀ x, Γ.bindsOpen x → taken x)
    {pairs : List (LoweredFunction × Ty)} (hpairs : ∀ p ∈ pairs, Placed S p.1 p.2)
    (h : Solving Γ S n st.supply.issued s) :
    Lands (inferMembers fuel Γ s pairs) st
      (fun s' st' => Solving Γ S n st'.supply.issued s' ∧
        (∀ p ∈ pairs, Settled Γ taken s' p.1 p.2) ∧
        ∀ k own, Settled Γ taken s k own → Settled Γ taken s' k own)
      fun _ _ => True := by
  induction pairs generalizing s st with
  | nil =>
    simp only [inferMembers, lands_pure]
    exact ⟨h, by simp, fun _ _ hk => hk⟩
  | cons p rest ih =>
    obtain ⟨l, own⟩ := p
    simp only [inferMembers, lands_bind, lands_adapt]
    refine (lands_run _ _).imp ?_ fun _ _ _ => trivial
    intro s₁ st₁ hrun
    obtain ⟨h₁, hsettled, hkeep₁⟩ :=
      inferMember_settles hg htaken h (hpairs _ (List.mem_cons_self ..)) hrun
    refine (ih (fun p hp => hpairs p (List.mem_cons_of_mem _ hp)) h₁).imp_ok ?_
    intro s₂ st₂ hend
    obtain ⟨h₂, hrest, hkeep₂⟩ := hend
    refine ⟨h₂, fun p hp => ?_, fun k own' hk => hkeep₂ k own' (hkeep₁ k own' hk)⟩
    rcases List.mem_cons.1 hp with rfl | hp
    · exact hkeep₂ l own hsettled
    · exact hrest p hp

theorem inferMembers_grows (Γ : Context) (s : Subst) (pairs : List (LoweredFunction × Ty)) :
    Grows (inferMembers fuel Γ s pairs) := by
  induction pairs generalizing s with
  | nil => exact Inference.grows_pure _
  | cons p rest ih =>
    refine Inference.grows_bind (Inference.grows_adapt ?_) fun s' => ih s'
    refine Inference.grows_bind (Inference.infer_grows _ _) fun r => ?_
    refine Inference.grows_bind (Inference.solve_grows _ _) fun q₁ => ?_
    exact Inference.grows_bind (Inference.solve_grows _ _) fun q₂ => Inference.grows_pure _

end Members

section Groups

variable {members : List (NodeId × LoweredFunction)} {types : TypedGroup}

structure Typed (base : Context) (S : TyVar → Prop) (taken : CoreVar → Bool) (n m : Nat)
    (members : List (NodeId × LoweredFunction)) (types : TypedGroup) : Prop where
  solving : Solving base S n m types.solution
  generalized : ∀ p ∈ types.schemes,
    p.2 = (base.substitute types.solution).generalize p.2.body
  sealed : ∀ p ∈ types.schemes, p.2.body.Sealed .aggregates
  vars : ∀ p ∈ types.schemes, ∀ v ∈ p.2.body.vars, base.Reaches n m v ∨ S v
  solved : ∀ p ∈ types.schemes, p.2.body.UnboundIn types.solution
  member : ∀ p ∈ types.schemes, ∃ l, (p.1, l) ∈ members ∧
    (l.term.rebindsNone .lets taken = true →
      Derives ((base.substitute types.solution).rebound (OrderedMap.ofList types.schemes)) l.term
        p.2.body) ∧
    Agrees p.2.body (types.solution.apply l.signature)

/-- The free variables of a new scheme are free in the context under the solution. -/
theorem Typed.free_scheme (h : Typed base S taken n m members types) {p : NodeId × Scheme}
    (hp : p ∈ types.schemes) {v : TyVar} (hv : p.2.Free v) :
    (base.substitute types.solution).Free v := by
  rw [h.generalized p hp] at hv
  exact (Context.free_generalize.1 hv).2

def seats (members : List (NodeId × LoweredFunction)) (n : Nat) :
    List ((NodeId × LoweredFunction) × Ty) :=
  members.zip (((List.range' n members.length).map TyVar.mk).map Ty.var)

def seated (base : Context) (members : List (NodeId × LoweredFunction)) (n : Nat) : Context :=
  OrderedMap.insertAll base
    ((seats members n).map fun c => (CoreVar.decl c.1.1, Scheme.mono c.2))

theorem mem_seats {c : (NodeId × LoweredFunction) × Ty} (hc : c ∈ seats members n) :
    c.1 ∈ members ∧ ∃ v : TyVar, c.2 = .var v ∧ n ≤ v.index ∧ v.index < n + members.length := by
  obtain ⟨hmember, hvar⟩ := List.of_mem_zip hc
  refine ⟨hmember, ?_⟩
  obtain ⟨v, hv, heq⟩ := List.mem_map.1 hvar
  obtain ⟨i, hi, rfl⟩ := List.mem_map.1 hv
  rw [List.mem_range'_1] at hi
  exact ⟨⟨i⟩, heq.symm, hi⟩

theorem reaches_of_free_seated {v : TyVar} (h : (seated base members n).Free v) :
    base.Reaches n (n + members.length) v := by
  rcases Context.free_insertAll h with ⟨p, hp, hfree⟩ | hfree
  · obtain ⟨c, hc, rfl⟩ := List.mem_map.1 hp
    obtain ⟨-, w, hw, hbounds⟩ := mem_seats hc
    rw [Scheme.free_mono, hw, mem_vars_var] at hfree
    rw [hfree]
    exact Or.inr hbounds
  · exact Or.inl hfree

theorem quantifies_of_seated {v : TyVar} (h : (seated base members n).Quantifies v) :
    base.Quantifies v := by
  rcases Context.quantifies_insertAll h with ⟨p, hp, hbound⟩ | hquant
  · obtain ⟨c, -, rfl⟩ := List.mem_map.1 hp
    simp [Scheme.mono] at hbound
  · exact hquant

def Introduced (S : TyVar → Prop) (n m : Nat) (v : TyVar) : Prop :=
  S v ∨ n ≤ v.index ∧ v.index < m

/-- The context with the members of a group in it is fit to type them. -/
theorem Grounds.seated (hg : Grounds base S n) :
    Grounds (seated base members n) (Introduced S n (n + members.length))
      (n + members.length) where
  hygienic := by
    refine (hg.hygienic.mono (Nat.le_add_right ..)).insertAll ?_ ?_ ?_
    · intro p hp v hv
      obtain ⟨c, hc, rfl⟩ := List.mem_map.1 hp
      obtain ⟨-, w, hw, -, hlt⟩ := mem_seats hc
      have hvw : v = w := by simpa [Scheme.mono, hw, mem_vars_var] using hv
      rw [hvw]
      exact hlt
    · intro p hp v hv
      obtain ⟨c, -, rfl⟩ := List.mem_map.1 hp
      simp [Scheme.mono] at hv
    · intro p hp v hv hquant
      obtain ⟨c, hc, rfl⟩ := List.mem_map.1 hp
      obtain ⟨-, w, hw, hle, -⟩ := mem_seats hc
      rw [Scheme.free_mono, hw, mem_vars_var] at hv
      have hlt := hg.hygienic.lt_of_quantifies hquant
      rw [hv] at hlt
      omega
  sealed := by
    refine hg.sealed.insertAll fun p hp => ?_
    obtain ⟨c, hc, rfl⟩ := List.mem_map.1 hp
    obtain ⟨-, w, hw, -⟩ := mem_seats hc
    show c.2.Sealed .aggregates
    rw [hw]
    exact sealed_var w
  issued := by
    intro v hv
    rcases hv with hv | ⟨hle, hlt⟩
    · obtain ⟨hlt, hquant⟩ := hg.issued v hv
      exact ⟨by omega, fun h => hquant (quantifies_of_seated h)⟩
    · refine ⟨hlt, fun h => ?_⟩
      have hold := hg.hygienic.lt_of_quantifies (quantifies_of_seated h)
      omega

/-- What solves the group with its members in the context solves it without them. -/
theorem Solving.unseat
    (h : Solving (seated base members n) (Introduced S n (n + members.length))
      (n + members.length) m s) : Solving base S n m s where
  le := Nat.le_trans (Nat.le_add_right ..) h.le
  idempotent := h.idempotent
  sealed := h.sealed
  touches := by
    intro v hv
    have hle := h.le
    rcases h.touches v hv with (hfree | ⟨hlow, hhigh⟩) | hv | ⟨hlow, hhigh⟩
    · exact Or.inl ((reaches_of_free_seated hfree).mono hle)
    · exact Or.inl (Or.inr ⟨by omega, hhigh⟩)
    · exact Or.inr hv
    · exact Or.inl (Or.inr ⟨hlow, by omega⟩)

structure Ready (S : TyVar → Prop) (l : LoweredFunction) : Prop where
  tuples : l.term.tuplesEmpty = true
  sealed : l.signature.Sealed .aggregates
  vars : ∀ v ∈ l.signature.vars, S v

theorem bindsOpen_seated {x : CoreVar} (h : (seated base members n).bindsOpen x) :
    base.bindsOpen x ∨ ∃ p ∈ members, x = .decl p.1 := by
  rcases Context.bindsOpen_insertAll h with ⟨σ, v, hmem, -⟩ | hopen
  · obtain ⟨c, hc, heq⟩ := List.mem_map.1 hmem
    exact Or.inr ⟨c.1, (mem_seats hc).1, (Prod.mk.inj heq).1.symm⟩
  · exact Or.inl hopen

def TypedGroup.of (base : Context) (members : List (NodeId × LoweredFunction)) (n : Nat)
    (judgements : List Judgement) (s : Subst) : TypedGroup where
  schemes := (seats members n).map fun c =>
    (c.1.1, (base.substitute s).generalize (s.apply c.2))
  judgements := judgements.map fun p => (p.1, s.apply p.2)
  solution := s

/-- Typing a group is typing its members in the context that seats them. -/
theorem lands_inferGroup {ok : TypedGroup → Inference.State → Prop}
    {bad : Located InferError → Inference.State → Prop} :
    Lands (inferGroup fuel base members) st ok bad ↔
      Lands (inferMembers fuel (seated base members st.supply.issued) Subst.empty
          ((seats members st.supply.issued).map fun c => (c.1.2, c.2)))
        (Inference.State.start ⟨st.supply.issued + members.length⟩)
        (fun s st' => ok (.of base members st.supply.issued st'.judgements s) st') bad := by
  have hids : (members.map (·.1)).zip
      (((List.range' st.supply.issued members.length).map TyVar.mk).map Ty.var) =
        (seats members st.supply.issued).map fun c => (c.1.1, c.2) := by
    rw [List.zip_map_left]
    rfl
  have hfunctions : (members.map (·.2)).zip
      (((List.range' st.supply.issued members.length).map TyVar.mk).map Ty.var) =
        (seats members st.supply.issued).map fun c => (c.1.2, c.2) := by
    rw [List.zip_map_left]
    rfl
  simp only [inferGroup, lands_bind, lands_get, lands_set, lands_pure, freshList_eq, hids,
    hfunctions, Context.combine, OrderedMap.insertAll_entries_ofList]
  simp only [List.map_map, Function.comp_def, seated, TypedGroup.of]

theorem inferGroup_grows (base : Context) (members : List (NodeId × LoweredFunction)) :
    Grows (inferGroup fuel base members) := by
  intro st
  rw [lands_inferGroup]
  refine (inferMembers_grows _ _ _ _).imp ?_ ?_
  · intro s st' hle
    exact Nat.le_trans (Nat.le_add_right ..) hle
  · intro e st' hle
    exact Nat.le_trans (Nat.le_add_right ..) hle

/-- Under the solution the members have the bodies of the schemes that the group is given. -/
theorem seated_substitute (base : Context) (members : List (NodeId × LoweredFunction)) (n : Nat)
    (judgements : List Judgement) (s : Subst) :
    (seated base members n).substitute s = (base.substitute s).rebound
      (OrderedMap.ofList (TypedGroup.of base members n judgements s).schemes) := by
  have hseats : (seated base members n).substitute s = OrderedMap.insertAll (base.substitute s)
      ((TypedGroup.of base members n judgements s).schemes.map fun p =>
        (.decl p.1, Scheme.mono p.2.body)) := by
    simp only [seated, TypedGroup.of, Context.substitute_insertAll, List.map_map,
      Function.comp_def, Scheme.substitute_mono, Context.generalize]
  apply OrderedMap.ext_get?
  intro x
  rw [hseats, Context.get?_rebound]
  exact Context.get?_insertAll_declared _ (fun σ : Scheme => Scheme.mono σ.body) x

/-- A member with the variable it is assumed to have is fit to be typed. -/
theorem placed_of_mem_seats {n : Nat} {c : (NodeId × LoweredFunction) × Ty}
    (hmembers : ∀ p ∈ members, Ready S p.2) (hc : c ∈ seats members n) :
    Placed (Introduced S n (n + members.length)) c.1.2 c.2 := by
  obtain ⟨hmember, v, hv, hbounds⟩ := mem_seats hc
  have hready := hmembers c.1 hmember
  refine ⟨hready.tuples, hready.sealed, fun w hw => Or.inl (hready.vars w hw), ?_, ?_⟩
  · rw [hv]
    exact sealed_var v
  · intro w hw
    rw [hv, mem_vars_var] at hw
    rw [hw]
    exact Or.inr hbounds

/-- Typing a group in a hygienic context gives a solution in solved form, and to each member a
type that it has under the solution and that its declaration promises. -/
theorem inferGroup_types (hg : Grounds base S st.supply.issued)
    (hmembers : ∀ p ∈ members, Ready S p.2)
    (htaken : ∀ x, (base.bindsOpen x = true ∨ ∃ p ∈ members, x = .decl p.1) → taken x = true) :
    Lands (inferGroup fuel base members) st
      (fun types st' => Typed base S taken st.supply.issued st'.supply.issued members types)
      fun _ _ => True := by
  rw [lands_inferGroup]
  refine (inferMembers_settle hg.seated (fun x hx => htaken x (bindsOpen_seated hx))
    (List.forall_mem_map.2 fun c => placed_of_mem_seats hmembers) (.start _ _ _)).imp_ok ?_
  intro s st' hend
  obtain ⟨hsolving, hsettled, -⟩ := hend
  have hbase := hsolving.unseat
  have hseat : ∀ p ∈ (TypedGroup.of base members st.supply.issued st'.judgements s).schemes,
      ∃ c ∈ seats members st.supply.issued,
        p = (c.1.1, (base.substitute s).generalize (s.apply c.2)) := by
    intro p hp
    obtain ⟨c, hc, rfl⟩ := List.mem_map.1 hp
    exact ⟨c, hc, rfl⟩
  refine ⟨hbase, ?_, ?_, ?_, ?_, ?_⟩
  · intro p hp
    obtain ⟨c, -, rfl⟩ := hseat p hp
    rfl
  · intro p hp
    obtain ⟨c, hc, rfl⟩ := hseat p hp
    obtain ⟨-, v, hv, -⟩ := mem_seats hc
    refine hbase.sealed.apply ?_
    rw [hv]
    exact sealed_var v
  · intro p hp w hw
    obtain ⟨c, hc, rfl⟩ := hseat p hp
    obtain ⟨-, v, hv, hlow, hhigh⟩ := mem_seats hc
    have hle : st.supply.issued + members.length ≤ st'.supply.issued := hsolving.le
    refine hbase.mem_vars_apply (a := c.2) (fun u hu => ?_) hw
    rw [hv, mem_vars_var] at hu
    rw [hu]
    exact Or.inl (Or.inr ⟨hlow, by omega⟩)
  · intro p hp
    obtain ⟨c, -, rfl⟩ := hseat p hp
    exact hbase.idempotent.unboundIn_apply c.2
  · intro p hp
    obtain ⟨c, hc, rfl⟩ := hseat p hp
    have hmember := hsettled (c.1.2, c.2) (List.mem_map.2 ⟨c, hc, rfl⟩)
    refine ⟨c.1.2, (mem_seats hc).1, fun hlets => ?_, hmember.promised⟩
    have hderives := hmember.derives hlets
    rw [seated_substitute base members _ st'.judgements] at hderives
    exact hderives

end Groups

end Declarations

end SemanticAnalysis
