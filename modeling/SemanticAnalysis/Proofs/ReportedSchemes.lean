import SemanticAnalysis.Proofs.FailureIsolation
import SemanticAnalysis.Proofs.SharedContext

/-!
Soundness of what is reported of functions. Where a group is typed, its members have
their types in the shared context with the group monomorphic. Later groups refine
these derivations by their solutions and extend the context by functions that it
did not know, so in the end each member has the body of its reported scheme as a
type in the final context, and that is what its declaration promises.
-/

namespace SemanticAnalysis

namespace Context

variable {Γ Δ : Context} {s : Subst} {schemes : OrderedMap NodeId Scheme}

theorem apart_rebound (h : Γ.Apart s) (schemes : OrderedMap NodeId Scheme) :
    (Γ.rebound schemes).Apart s := by
  intro x σ hx
  rcases OrderedMap.of_get?_insertAll hx with hmem | hx
  · obtain ⟨p, -, heq⟩ := List.mem_map.1 hmem
    rw [← (Prod.mk.inj heq).2]
    exact Scheme.apart_mono _ s
  · exact h x σ hx

/-- A substitution that keeps apart from the schemes can be put in before or after the bodies are
bound. -/
theorem substitute_rebound (h : ∀ d σ, schemes.get? d = some σ → σ.Apart s) :
    (Γ.rebound schemes).substitute s =
      (Γ.substitute s).rebound (schemes.mapValues fun σ => σ.substitute s) := by
  apply OrderedMap.ext_get?
  intro x
  rw [get?_substitute, get?_rebound, get?_rebound]
  cases x with
  | decl d =>
    simp only [get?_substitute, OrderedMap.get?_mapValues]
    cases hσ : schemes.get? d with
    | none => rfl
    | some σ =>
      simp only [Option.map_some, Option.some_or]
      rw [Scheme.substitute_mono, Scheme.substitute_body (h d σ hσ)]
  | synthetic i => rw [get?_substitute]
  | builtin b => rw [get?_substitute]

/-- Rebinding the same declarations in a context and in an extension of it. -/
theorem Offers.rebound (h : ∀ x δ, Δ.get? x = some δ → Γ.get? x = some δ)
    (schemes : OrderedMap NodeId Scheme) :
    Offers (Γ.rebound schemes) Ty.var (Δ.rebound schemes) Ty.var := by
  refine .of_get? (fun x δ hx => ?_) _
  rw [get?_rebound] at hx ⊢
  cases x with
  | decl d =>
    cases hσ : schemes.get? d with
    | none =>
      simp only [hσ, Option.map_none, Option.none_or] at hx ⊢
      exact h _ δ hx
    | some σ =>
      simp only [hσ, Option.map_some, Option.some_or] at hx ⊢
      exact hx
  | synthetic i => exact h _ δ hx
  | builtin b => exact h _ δ hx

end Context

namespace Declarations

open Lowering (IsShared Region Under)

variable {fuel : Nat} {t : Tree} {supply : Supply} {n : NodeId} {st st' : Progress}
  {g : List NodeId} {listing done : List (List NodeId)} {types : TypedGroup}
  {after : Inference.State}

section Binders

/-- No struct is a top-level function or lies below one. -/
theorem struct_not_below (ht : t.WellFormed) (hn : isTopLevel t.toForest n = true) {a : NodeId}
    (ha : Lowering.isStruct t.toForest a = true) : n ≠ a ∧ n ∉ t.ancestors a := by
  obtain ⟨_, _, _, _, _, _, hk, -⟩ := isTopLevel_cases hn
  unfold Lowering.isStruct at ha
  split at ha
  · rename_i hka
    refine ⟨fun heq => ?_, fun hanc => ?_⟩
    · rw [heq, hka] at hk
      cases hk
    · obtain ⟨kn, hkn, hcases⟩ := ht.ancestor_of_container hka rfl hanc
      rw [hk] at hkn
      cases hkn
      simp [Kind.isContainer, Kind.isFile] at hcases
  · cases ha

/-- What lies below a top-level function is no struct, no field and no top-level function. -/
theorem not_shared_below (ht : t.WellFormed) (hn : isTopLevel t.toForest n = true) {d : NodeId}
    (hd : Under t.toForest n d) : ¬ IsShared t.toForest d ∧ isTopLevel t.toForest d = false := by
  have hne : d ≠ n := by
    intro heq
    rw [heq] at hd
    exact Lowering.not_under_self _ n hd
  have hanc : n ∈ t.ancestors d :=
    (ht.named_once.mem_walkFrom_iff_ancestor.1 hd.mem_walkFrom).resolve_left hne
  refine ⟨fun hshared => ?_, ?_⟩
  · rcases hshared with hstruct | hfield
    · exact (struct_not_below ht hn hstruct).2 hanc
    · obtain ⟨p, hp, hstruct⟩ := (Option.any_eq_true _ _).1 hfield
      obtain ⟨hnp, hnot⟩ := struct_not_below ht hn hstruct
      rw [Forest.ancestors_of_parent? hp, List.mem_cons] at hanc
      exact hanc.elim hnp hnot
  · by_contra htop
    exact hne (ht.eq_of_topLevel (by simpa using htop) hn hd.mem_walkFrom)

end Binders

/-- A function of a group has the body of a scheme as a type in the shared context, where the group
is monomorphic, and that is what its declaration promises. -/
def Progress.Justifies (st : Progress) (g : List NodeId) (n : NodeId) (σ : Scheme) : Prop :=
  ∃ l, st.lowered.get? n = some l ∧
    Derives (st.base.rebound (st.reported.filterKeys fun m => decide (m ∈ g))) l.term σ.body ∧
    Ty.Agrees σ.body (st.solved.apply l.signature)

structure Justified (t : Tree) (done : List (List NodeId)) (st : Progress) : Prop where
  known : ∀ d, isTopLevel t.toForest d = true → st.base.contains (.decl d) = true →
    ∃ g ∈ done, d ∈ g
  opens : ∀ x, st.base.bindsOpen x = true →
    ∃ d, x = .decl d ∧ (IsShared t.toForest d ∨ isTopLevel t.toForest d = true)
  whole : ∀ g ∈ done, ∀ m ∈ g, ∀ n ∈ g, st.reported.contains m = true →
    st.reported.contains n = true
  justified : ∀ g ∈ done, ∀ n ∈ g, ∀ σ, st.reported.get? n = some σ → st.Justifies g n σ

theorem Stocked.justified (h : Stocked t.toForest st) : Justified t [] st where
  known d htop hd := by
    rw [h.keys d hd] at htop
    cases htop
  opens x hx := by
    obtain ⟨d, hd, hshared⟩ := h.opens x hx
    exact ⟨d, hd, Or.inl hshared⟩
  whole := by simp
  justified := by simp

/-- Nothing is reported yet of the functions of a group whose turn it is. -/
theorem Justified.unreported (hj : Justified t done st) (h : InStep t.toForest (Untyped done) st)
    (htop : isTopLevel t.toForest n = true) (hn : Untyped done n) :
    st.reported.contains n = false := by
  by_contra hreported
  obtain ⟨σ, hσ⟩ := OrderedMap.contains_iff.1 (by simpa using hreported)
  have hbase : st.base.contains (.decl n) = true :=
    OrderedMap.contains_iff.2 ⟨σ, h.reported n σ hσ⟩
  obtain ⟨g', hg', hn'⟩ := hj.known n htop hbase
  exact hn g' hg' hn'

/-- A group that is passed over or fails leaves the schemes as they are. -/
theorem Justified.refuse (hj : Justified t done st) (h : InStep t.toForest (Untyped done) st)
    (htop : ∀ n ∈ g, isTopLevel t.toForest n = true) (hwaiting : ∀ n ∈ g, Untyped done n)
    (hbase : st'.base = st.base) (hlowered : st'.lowered = st.lowered)
    (hfound : st'.found = st.found) (hsolved : st'.solved = st.solved) :
    Justified t (done ++ [g]) st' := by
  have hreported : st'.reported = st.reported := by
    rw [Progress.reported, hsolved, hfound]
    rfl
  have hnone : ∀ n ∈ g, st.reported.contains n = false := fun n hn =>
    hj.unreported h (htop n hn) (hwaiting n hn)
  refine ⟨fun d hd hcontains => ?_, hbase ▸ hj.opens, ?_, ?_⟩
  · rw [hbase] at hcontains
    obtain ⟨g', hg', hdg⟩ := hj.known d hd hcontains
    exact ⟨g', List.mem_append_left _ hg', hdg⟩
  · intro g' hg' m hm n hn hcontains
    rw [hreported] at hcontains ⊢
    rcases List.mem_append.1 hg' with hg' | hg'
    · exact hj.whole g' hg' m hm n hn hcontains
    · rw [List.mem_singleton.1 hg'] at hm
      simp [hnone m hm] at hcontains
  · intro g' hg' n hn σ hσ
    rw [hreported] at hσ
    rcases List.mem_append.1 hg' with hg' | hg'
    · obtain ⟨l, hl, hderives, hagrees⟩ := hj.justified g' hg' n hn σ hσ
      refine ⟨l, hlowered ▸ hl, ?_, hsolved ▸ hagrees⟩
      rw [hbase, hreported]
      exact hderives
    · rw [List.mem_singleton.1 hg'] at hn
      have hcontains := OrderedMap.contains_iff.2 ⟨σ, hσ⟩
      simp [hnone n hn] at hcontains

def Progress.takenFor (st : Progress) (g : List NodeId) (x : CoreVar) : Bool :=
  st.base.bindsOpen x || (st.members g).any fun p => decide (x = .decl p.1)

/-- The binders of a top-level function leave alone what the context holds open and what the group
assumes. -/
theorem Justified.rebinds_none (hj : Justified t done st) (ht : t.WellFormed)
    (htop : ∀ n ∈ g, isTopLevel t.toForest n = true) {l : LoweredFunction} (hn : n ∈ g)
    (hl : WellLowered t.toForest n l) : l.term.rebindsNone .lets (st.takenFor g) = true := by
  obtain ⟨k, hbinders⟩ := hl.binders
  refine hbinders.binds .lets _ fun x hx => ?_
  by_contra htaken
  have hcases : (∃ d, x = .decl d ∧ (IsShared t.toForest d ∨ isTopLevel t.toForest d = true)) := by
    rcases Bool.or_eq_true_iff.1 (by simpa using htaken : st.takenFor g x = true) with hopen | hany
    · exact hj.opens x hopen
    · obtain ⟨p, hp, hxp⟩ := List.any_eq_true.1 hany
      exact ⟨p.1, by simpa using hxp, Or.inr (htop p.1 (mem_members.1 hp).1)⟩
  obtain ⟨d, rfl, hd⟩ := hcases
  rcases hx with ⟨d', heq, hunder⟩ | ⟨i, heq, -⟩
  · rw [← CoreVar.decl.inj heq] at hunder
    obtain ⟨hshared, hother⟩ := not_shared_below ht (htop n hn) hunder
    rcases hd with hd | hd
    · exact hshared hd
    · rw [hother] at hd
      cases hd
  · cases heq

section Adoption

variable (h : InStep t.toForest (Untyped done) st) (hj : Justified t done st)
  (htop : ∀ n ∈ g, isTopLevel t.toForest n = true) (hwaiting : ∀ n ∈ g, Untyped done n)
  (htyped : Typed st.base (st.Promised g) (st.takenFor g) st.store.supply.issued
    after.supply.issued (st.members g) types)
  (hkeys : types.schemes.map (·.1) = g)

theorem lookup_schemes_iff (hkeys : types.schemes.map (·.1) = g) {d : NodeId} :
    (OrderedMap.ofList types.schemes).contains d = true ↔ d ∈ g := by
  rw [OrderedMap.contains_ofList, hkeys]

theorem lookup_schemes_none (hkeys : types.schemes.map (·.1) = g) {d : NodeId} (hd : d ∉ g) :
    (OrderedMap.ofList types.schemes).get? d = none := by
  rw [OrderedMap.get?_eq_none_iff, Bool.eq_false_iff]
  exact fun hcontains => hd ((lookup_schemes_iff hkeys).1 hcontains)

include h hwaiting htyped hkeys in
theorem reported_adopted_iff {d : NodeId} :
    ((st.afterTyping after).adopted types).reported.contains d = true ↔
      d ∈ g ∨ st.reported.contains d = true := by
  rw [← lookup_schemes_iff hkeys]
  simp only [OrderedMap.contains, h.reported_next hwaiting htyped, Option.isSome_or,
    Option.isSome_map, Bool.or_eq_true]

include hj htop hwaiting hkeys in
/-- What the context knew it still knows, since it knew none of the members. -/
theorem base_adopted_extends {x : CoreVar} {δ : Scheme}
    (hx : (st.base.substitute types.solution).get? x = some δ) :
    ((st.afterTyping after).adopted types).base.get? x = some δ := by
  have hnot : ∀ q ∈ types.schemes.map fun p => (CoreVar.decl p.1, p.2), q.1 ≠ x := by
    intro q hq heq
    obtain ⟨p, hp, rfl⟩ := List.mem_map.1 hq
    have hpg : p.1 ∈ g := by
      rw [← hkeys]
      exact List.mem_map_of_mem hp
    have hbase : st.base.contains (.decl p.1) = true := by
      rw [← Context.contains_substitute st.base types.solution, OrderedMap.contains_iff,
        show CoreVar.decl p.1 = x from heq]
      exact ⟨δ, hx⟩
    obtain ⟨g', hg', hp'⟩ := hj.known p.1 (htop _ hpg) hbase
    exact hwaiting _ hpg g' hg' hp'
  exact (OrderedMap.get?_insertAll_of_not_mem hnot).trans hx

include h hj htop hwaiting htyped hkeys in
/-- What justified a scheme before justifies what the solution makes of it. -/
theorem Progress.Justifies.adopted {g' : List NodeId} {σ : Scheme}
    (hold : st.Justifies g' n σ) (hσ : st.reported.get? n = some σ) (hg' : ∀ d ∈ g', d ∉ g) :
    ((st.afterTyping after).adopted types).Justifies g' n (σ.substitute types.solution) := by
  obtain ⟨l, hl, hderives, hagrees⟩ := hold
  have happart := h.apart_solution hwaiting htyped
  have hschemes : ∀ d δ, st.reported.get? d = some δ → δ.Apart types.solution := fun d δ hδ =>
    happart _ _ (h.reported d δ hδ)
  have hbody : (σ.substitute types.solution).body = types.solution.apply σ.body :=
    Scheme.substitute_body (hschemes n σ hσ)
  have hreported : (st.reported.filterKeys fun m => decide (m ∈ g')).mapValues
      (fun δ => δ.substitute types.solution) =
        ((st.afterTyping after).adopted types).reported.filterKeys fun m => decide (m ∈ g') := by
    apply OrderedMap.ext_get?
    intro d
    rw [OrderedMap.get?_mapValues, OrderedMap.get?_filterKeys, OrderedMap.get?_filterKeys,
      h.reported_next hwaiting htyped]
    by_cases hd : d ∈ g'
    · simp [hd, lookup_schemes_none hkeys (hg' d hd)]
    · simp [hd]
  refine ⟨l, hl, ?_, ?_⟩
  · have hnext := hderives.substitute (Context.apart_rebound happart _)
    rw [Context.substitute_rebound, hreported, ← hbody] at hnext
    · refine hnext.of_offers (.rebound (fun x δ hx => ?_) _)
      exact base_adopted_extends hj htop hwaiting hkeys hx
    · intro d δ hδ
      rw [OrderedMap.get?_filterKeys] at hδ
      split at hδ
      · exact hschemes d δ hδ
      · cases hδ
  · rw [hbody]
    show Ty.Agrees _ ((types.solution.compose st.solved).apply l.signature)
    rw [Subst.apply_compose]
    exact Subst.agrees_apply types.solution hagrees

include h hj htop hwaiting htyped hkeys in
/-- The group itself is justified by the derivations found for its members. -/
theorem Typed.justifies (ht : t.WellFormed) (hn : n ∈ g) {σ : Scheme}
    (hσ : ((st.afterTyping after).adopted types).reported.get? n = some σ) :
    ((st.afterTyping after).adopted types).Justifies g n σ := by
  have hlookup : (OrderedMap.ofList types.schemes).get? n = some σ := by
    obtain ⟨δ, hδ⟩ := OrderedMap.contains_iff.1 ((lookup_schemes_iff hkeys).2 hn)
    rw [h.reported_next hwaiting htyped, hδ, Option.some_or] at hσ
    rw [hδ, hσ]
  have hmem : (n, σ) ∈ types.schemes := by
    rcases OrderedMap.of_get?_insertAll hlookup with hmem | hnone
    · exact hmem
    · cases hnone
  obtain ⟨l, hl, hderives, hagrees⟩ := htyped.member (n, σ) hmem
  have hlowered := (mem_members.1 hl).2
  have hcontext : ((st.afterTyping after).adopted types).base.rebound
      (((st.afterTyping after).adopted types).reported.filterKeys fun m => decide (m ∈ g)) =
        (st.base.substitute types.solution).rebound (OrderedMap.ofList types.schemes) := by
    apply OrderedMap.ext_get?
    intro x
    rw [Context.get?_rebound, Context.get?_rebound]
    cases x with
    | decl d =>
      simp only [OrderedMap.get?_filterKeys, h.reported_next hwaiting htyped,
        Progress.base_adopted]
      by_cases hd : d ∈ g
      · obtain ⟨δ, hδ⟩ := OrderedMap.contains_iff.1 ((lookup_schemes_iff hkeys).2 hd)
        simp [hd, hδ]
      · simp [hd, lookup_schemes_none hkeys hd]
    | synthetic i => exact Context.get?_insertAll_declared types.schemes id (.synthetic i)
    | builtin b => exact Context.get?_insertAll_declared types.schemes id (.builtin b)
  refine ⟨l, hlowered, ?_, ?_⟩
  · rw [hcontext]
    exact hderives (hj.rebinds_none ht htop hn (h.lowered n l hlowered))
  · show Ty.Agrees σ.body ((types.solution.compose st.solved).apply l.signature)
    -- the solutions before bind nothing that the declaration promises
    have hfixed : st.solved.apply l.signature = l.signature :=
      Subst.apply_of_unboundIn fun v hv => (h.own n l hlowered (hwaiting n hn) v hv).2
    rw [Subst.apply_compose, hfixed]
    exact hagrees

include h hj htop hwaiting htyped hkeys in
/-- After a group is taken up, the schemes of the groups before it are justified as well as its own.
-/
theorem Justified.adopt (ht : t.WellFormed) :
    Justified t (done ++ [g]) ((st.afterTyping after).adopted types) where
  known := by
    intro d hd hcontains
    rcases OrderedMap.contains_insertAll.1 hcontains with hmem | hold
    · obtain ⟨q, hq, heq⟩ := List.mem_map.1 hmem
      obtain ⟨p, hp, rfl⟩ := List.mem_map.1 hq
      refine ⟨g, by simp, ?_⟩
      rw [← CoreVar.decl.inj heq, ← hkeys]
      exact List.mem_map_of_mem hp
    · rw [Context.contains_substitute] at hold
      obtain ⟨g', hg', hdg⟩ := hj.known d hd hold
      exact ⟨g', List.mem_append_left _ hg', hdg⟩
  opens := by
    intro x hx
    rcases Context.bindsOpen_insertAll hx with ⟨σ, v, hmem, -⟩ | hold
    · obtain ⟨p, hp, heq⟩ := List.mem_map.1 hmem
      have hpg : p.1 ∈ g := by
        rw [← hkeys]
        exact List.mem_map_of_mem hp
      exact ⟨p.1, (Prod.mk.inj heq).1.symm, Or.inr (htop _ hpg)⟩
    · exact hj.opens x (Context.bindsOpen_of_substitute (h.apart_solution hwaiting htyped) hold)
  whole := by
    intro g' hg' m hm n hn hcontains
    rw [reported_adopted_iff h hwaiting htyped hkeys] at hcontains ⊢
    rcases List.mem_append.1 hg' with hg' | hg'
    · have hmg : m ∉ g := fun hmg => hwaiting m hmg g' hg' hm
      exact Or.inr (hj.whole g' hg' m hm n hn (hcontains.resolve_left hmg))
    · rw [List.mem_singleton.1 hg'] at hn
      exact Or.inl hn
  justified := by
    intro g' hg' n hn σ hσ
    rcases List.mem_append.1 hg' with hg' | hg'
    · have hout : ∀ d ∈ g', d ∉ g := fun d hd hdg => hwaiting d hdg g' hg' hd
      rw [h.reported_next hwaiting htyped, lookup_schemes_none hkeys (hout n hn), Option.none_or,
        Option.map_eq_some_iff] at hσ
      obtain ⟨δ, hδ, rfl⟩ := hσ
      exact (hj.justified g' hg' n hn δ hδ).adopted h hj htop hwaiting htyped hkeys hδ hout
    · rw [List.mem_singleton.1 hg'] at hn ⊢
      exact htyped.justifies h hj htop hwaiting hkeys ht hn hσ

end Adoption

/-- Checking a group keeps the schemes justified. -/
theorem Justified.step (ht : t.WellFormed) (htuples : t.toForest.TuplesEmpty)
    (hlisting : DependenciesFirst t.toForest (topLevelFunctions t) listing)
    {rest : List (List NodeId)} (hsplit : listing = done ++ g :: rest)
    (hisolated : Isolated fuel t supply listing done st)
    (h : InStep t.toForest (Untyped done) st) (hj : Justified t done st)
    (hstep : Checked fuel t (topLevelFunctions t) g st st') : Justified t (done ++ [g]) st' := by
  have hfunctions : ∀ n ∈ g, n ∈ topLevelFunctions t := fun n hn =>
    hlisting.mem_functions (by simp [hsplit]) hn
  have htop : ∀ n ∈ g, isTopLevel t.toForest n = true := fun n hn =>
    (mem_topLevelFunctions.1 (hfunctions n hn)).2
  have hwaiting : ∀ n ∈ g, Untyped done n := hlisting.disjoint done g rest hsplit
  cases hstep with
  | skipped d hdep => exact hj.refuse h htop hwaiting rfl rfl rfl rfl
  | spoiled hdep hany => exact hj.refuse h htop hwaiting rfl rfl rfl rfl
  | failed hdep hsound e after r hrun hreport =>
    exact hj.refuse h htop hwaiting rfl rfl rfl rfl
  | typed hdep hsound types after hrun =>
    have hkeys : types.schemes.map (·.1) = g :=
      (map_fst_schemes hrun).trans
        (map_fst_members (hisolated.lowered_of_sound hfunctions hsound))
    have htaken : ∀ x, (st.base.bindsOpen x = true ∨ ∃ p ∈ st.members g, x = .decl p.1) →
        st.takenFor g x = true := by
      intro x hx
      simpa [Progress.takenFor] using hx
    have htyped := h.typed htuples hwaiting (st.takenFor g) htaken hrun
    exact hj.adopt h htop hwaiting htyped hkeys ht

/-- At the end of a run along a listing all schemes that would be reported are justified. -/
theorem checkListed_justified (ht : t.WellFormed) (htuples : t.toForest.TuplesEmpty)
    (hlisting : DependenciesFirst t.toForest (topLevelFunctions t) listing) (fuel : Nat)
    (supply : Supply) : Lands (checkListed fuel t listing) (Progress.start supply)
      (fun _ st => Isolated fuel t supply listing listing st ∧ Justified t listing st)
      fun _ _ => True := by
  refine Lands.imp_ok (checkListed_lands
    (fun done st => Preparing t supply done st ∧ Stocked t.toForest st)
    (fun done st => Isolated fuel t supply listing done st ∧
      InStep t.toForest (Untyped done) st ∧ Justified t done st)
    ⟨.start t supply, .start _ supply⟩ ?_
    (fun st hst => ⟨hst.1.isolated, hst.2.inStep, hst.2.justified⟩) ?_)
    fun _ st hend => ⟨hend.1, hend.2.2⟩
  · intro done n rest hsplit st hreached hst
    refine (prepare_lands t n st).imp (fun _ st' hstep => ?_) fun _ _ _ => trivial
    exact ⟨hst.1.step hsplit hreached hstep, hst.2.step ht.named_once hstep⟩
  · intro done g rest hsplit st hreached hst
    obtain ⟨hisolated, h, hj⟩ := hst
    refine (checkGroup_lands fuel t _ g st).imp (fun _ st' hstep => ?_) fun _ _ _ => trivial
    exact ⟨hisolated.step hlisting hsplit hreached hstep,
      h.check htuples (hlisting.disjoint done g rest hsplit)
        (fun _ hn => untyped_of_append hn) hstep,
      hj.step ht htuples hlisting hsplit hisolated h hstep⟩

/-- The schemes reported of a typed group are sound: in the final context, where each member of the
group is bound to the body of its scheme, the rules give each member that body as a type, and it is
what the declaration promises under all solutions. -/
theorem reported_schemes_sound {supply : Supply} {outcome : DeclarationOutcome}
    {types : DeclarationTypes} (ht : t.WellFormed) (htuples : t.toForest.TuplesEmpty)
    (h : inferDeclarations fuel t supply = some outcome) (hok : outcome.result = .ok types) :
    ∃ st, (checkAll fuel t).run (Progress.start supply) = some (.ok (), st) ∧
      types = settle st.solved st.found ∧
      ∀ g ∈ groups t.toForest (topLevelFunctions t),
        (∃ m ∈ g, types.declarations.contains m = true) → ∀ n ∈ g, ∃ l σ,
          st.lowered.get? n = some l ∧ LoweredTo t n l ∧ types.declarations.get? n = some σ ∧
          Derives (st.base.rebound (types.declarations.filterKeys fun m => decide (m ∈ g)))
            l.term σ.body ∧
          Ty.Agrees σ.body (st.solved.apply l.signature) := by
  obtain ⟨st, hrun, -, rfl⟩ := exists_run_of_ok h hok
  have hlisting := dependenciesFirst_groups (f := t.toForest)
    (topLevelFunctions_nodup ht.named_once)
  obtain ⟨hisolated, hj⟩ :=
    (checkListed_justified ht htuples hlisting fuel supply).of_ok hrun
  refine ⟨st, hrun, rfl, fun g hg htyped n hn => ?_⟩
  obtain ⟨m, hm, hcontains⟩ := htyped
  obtain ⟨σ, hσ⟩ := OrderedMap.contains_iff.1 (hj.whole g hg m hm n hn hcontains)
  obtain ⟨l, hl, hderives, hagrees⟩ := hj.justified g hg n hn σ hσ
  exact ⟨l, σ, hl, hisolated.genuine n l hl, hσ, hderives, hagrees⟩

/-- A struct with a field of no declared type, two functions that call each other and build the
struct from a parameter, and a function that builds it from a number. -/
def mutualUnit : Tree := Tree.ofKinds [
  .parameter ⟨1⟩ none, .structDecl ⟨2⟩ [⟨0⟩] [],
  .parameter ⟨3⟩ none, .resolved ⟨⟨5⟩, none⟩ ⟨15⟩, .resolved ⟨⟨3⟩, none⟩ ⟨2⟩, .call ⟨3⟩ [⟨4⟩],
  .function ⟨4⟩ [⟨2⟩] none ⟨5⟩,
  .parameter ⟨3⟩ none, .resolved ⟨⟨4⟩, none⟩ ⟨6⟩, .resolved ⟨⟨3⟩, none⟩ ⟨7⟩, .call ⟨8⟩ [⟨9⟩],
  .resolved ⟨⟨2⟩, none⟩ ⟨1⟩, .resolved ⟨⟨3⟩, none⟩ ⟨7⟩, .call ⟨11⟩ [⟨12⟩],
  .block [⟨10⟩, ⟨13⟩], .function ⟨5⟩ [⟨7⟩] none ⟨14⟩,
  .resolved ⟨⟨2⟩, none⟩ ⟨1⟩, .number "1", .call ⟨16⟩ [⟨17⟩], .function ⟨6⟩ [] none ⟨18⟩,
  .moduleDecl ⟨7⟩ false [⟨1⟩, ⟨6⟩, ⟨15⟩, ⟨19⟩], .file [⟨20⟩]]

theorem reported_schemes_sound_mutual : mutualUnit.WellFormed ∧
    mutualUnit.toForest.TuplesEmpty ∧ ∃ outcome types st,
      inferDeclarations 9 mutualUnit Supply.empty = some outcome ∧ outcome.result = .ok types ∧
      (checkAll 9 mutualUnit).run (Progress.start Supply.empty) = some (.ok (), st) ∧
      (∃ σ, st.found.declarations.get? ⟨6⟩ = some σ ∧ σ.body.vars ≠ []) ∧
      [⟨6⟩, ⟨15⟩] ∈ groups mutualUnit.toForest (topLevelFunctions mutualUnit) ∧
      ∀ n ∈ [⟨6⟩, ⟨15⟩], ∃ l σ, st.lowered.get? n = some l ∧
        types.declarations.get? n = some σ ∧
        Derives (st.base.rebound
          (types.declarations.filterKeys fun m => decide (m ∈ [⟨6⟩, ⟨15⟩]))) l.term σ.body ∧
        Ty.Agrees σ.body (st.solved.apply l.signature) := by
  have ht : mutualUnit.WellFormed := by decide +kernel
  have htuples : mutualUnit.toForest.TuplesEmpty := by decide +kernel
  have hgroup : [⟨6⟩, ⟨15⟩] ∈ groups mutualUnit.toForest (topLevelFunctions mutualUnit) := by
    decide +kernel
  obtain ⟨st, outcome, hrun, h, hok, htest⟩ := exists_outcome_of_run 9 mutualUnit Supply.empty
    (fun st => (st.found.declarations.get? ⟨6⟩).any fun σ => !σ.body.vars.isEmpty)
    (by decide +kernel)
  obtain ⟨σ, hσ, hopen⟩ := (Option.any_eq_true _ _).1 htest
  obtain ⟨st', hrun', -, hsound⟩ := reported_schemes_sound ht htuples h hok
  obtain rfl : st = st' := (Prod.mk.inj (Option.some.inj (hrun.symm.trans hrun'))).2
  have htyped : (settle st.solved st.found).declarations.contains ⟨6⟩ = true := by
    simp [settle, OrderedMap.contains, hσ]
  refine ⟨ht, htuples, outcome, _, st, h, hok, hrun, ⟨σ, hσ, by simpa using hopen⟩, hgroup, ?_⟩
  intro n hn
  obtain ⟨l, δ, hl, -, hδ, hderives, hagrees⟩ := hsound _ hgroup ⟨⟨6⟩, by simp, htyped⟩ n hn
  exact ⟨l, δ, hl, hδ, hderives, hagrees⟩

end Declarations

end SemanticAnalysis
