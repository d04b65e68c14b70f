import SemanticAnalysis.Proofs.CollectedAssumptions
import SemanticAnalysis.Proofs.SolvedInference

/-!
Contexts that many entries are added to at once, and contexts under a substitution
that touches none of the variables they quantify. Both ways to go on from a context
keep it hygienic and sealed, and say where the free and the quantified variables of
the new context come from.
-/

namespace SemanticAnalysis

namespace OrderedMap

variable {κ ν : Type} [Key κ] [DecidableEq κ]

/-- The last pair of a key answers, and the map where no pair does. -/
theorem get?_insertAll (m : OrderedMap κ ν) (pairs : List (κ × ν)) (key : κ) :
    (m.insertAll pairs).get? key = ((ofList pairs).get? key).or (m.get? key) := by
  induction pairs generalizing m with
  | nil => rfl
  | cons p rest ih =>
    have hcons : ∀ m : OrderedMap κ ν,
        m.insertAll (p :: rest) = (m.insert p.1 p.2).insertAll rest := fun _ => rfl
    rw [ofList, hcons, hcons, ih, ih (empty.insert p.1 p.2), Option.or_assoc]
    by_cases hkey : p.1 = key
    · simp [get?_insert, hkey]
    · simp [get?_insert, hkey]

/-- Adding the entries of a map puts it over the other one. -/
theorem get?_insertAll_entries (m n : OrderedMap κ ν) (key : κ) :
    (m.insertAll n.entries).get? key = (n.get? key).or (m.get? key) := by
  cases hn : n.get? key with
  | some value =>
    refine get?_insertAll_of_mem (mem_entries_iff.2 hn) fun other hother => ?_
    exact Option.some.inj ((mem_entries_iff.1 hother).symm.trans hn)
  | none =>
    rw [Option.none_or]
    refine get?_insertAll_of_not_mem fun p hp hkey => ?_
    have hsome : n.get? key = some p.2 := mem_entries_iff.1 (hkey ▸ hp)
    simp [hn] at hsome

theorem insertAll_entries_ofList (m : OrderedMap κ ν) (pairs : List (κ × ν)) :
    m.insertAll (ofList pairs).entries = m.insertAll pairs := by
  apply ext_get?
  intro key
  rw [get?_insertAll_entries, get?_insertAll]

/-- Pairs under other keys, which are different for different keys, and with other values. -/
theorem get?_ofList_map {κ' ν' : Type} [Key κ'] [DecidableEq κ'] {g : κ → κ'}
    (hg : Function.Injective g) (φ : ν → ν') (pairs : List (κ × ν)) (key : κ) :
    (ofList (pairs.map fun p => (g p.1, φ p.2))).get? (g key) =
      ((ofList pairs).get? key).map φ := by
  have hinsert : ∀ (m : OrderedMap κ ν) (m' : OrderedMap κ' ν'),
      m'.get? (g key) = (m.get? key).map φ →
        (m'.insertAll (pairs.map fun p => (g p.1, φ p.2))).get? (g key) =
          ((m.insertAll pairs).get? key).map φ := by
    induction pairs with
    | nil => exact fun _ _ h => h
    | cons p rest ih =>
      intro m m' h
      refine ih (m.insert p.1 p.2) (m'.insert (g p.1) (φ p.2)) ?_
      by_cases hkey : p.1 = key
      · simp [get?_insert, hkey]
      · have hkey' : g p.1 ≠ g key := fun heq => hkey (hg heq)
        simp [get?_insert, hkey, hkey', h]
  exact hinsert empty empty rfl

theorem ofList_entries (m : OrderedMap κ ν) : ofList m.entries = m := by
  apply ext_get?
  intro key
  rw [ofList, get?_insertAll_entries, get?_empty, Option.or_none]

end OrderedMap

namespace Context

variable {Γ Δ : Context} {pairs : List (CoreVar × Scheme)} {n m : Nat} {v : TyVar} {s : Subst}

section Entries

theorem free_insertAll (h : Free (Γ.insertAll pairs) v) :
    (∃ p ∈ pairs, p.2.Free v) ∨ Γ.Free v := by
  obtain ⟨x, σ, hx, hfree⟩ := h
  rcases OrderedMap.of_get?_insertAll hx with hx | hx
  · exact Or.inl ⟨(x, σ), hx, hfree⟩
  · exact Or.inr ⟨x, σ, hx, hfree⟩

theorem quantifies_insertAll (h : Quantifies (Γ.insertAll pairs) v) :
    (∃ p ∈ pairs, p.2.bound.contains v = true) ∨ Γ.Quantifies v := by
  obtain ⟨x, σ, hx, hbound⟩ := h
  rcases OrderedMap.of_get?_insertAll hx with hx | hx
  · exact Or.inl ⟨(x, σ), hx, hbound⟩
  · exact Or.inr ⟨x, σ, hx, hbound⟩

theorem bindsOpen_insertAll {x : CoreVar} (h : bindsOpen (Γ.insertAll pairs) x) :
    (∃ σ v, (x, σ) ∈ pairs ∧ σ.Free v) ∨ Γ.bindsOpen x := by
  obtain ⟨σ, v, hx, hfree⟩ := bindsOpen_iff.1 h
  rcases OrderedMap.of_get?_insertAll hx with hx | hx
  · exact Or.inl ⟨σ, v, hx, hfree⟩
  · exact Or.inr (bindsOpen_iff.2 ⟨σ, v, hx, hfree⟩)

theorem Sealed.insertAll {k : Seal} (hΓ : Γ.Sealed k) (h : ∀ p ∈ pairs, p.2.body.Sealed k) :
    Sealed k (Γ.insertAll pairs) := by
  intro x σ hx
  rcases OrderedMap.of_get?_insertAll hx with hx | hx
  · exact h (x, σ) hx
  · exact hΓ x σ hx

/-- Schemes may join a context together if their variables are issued, and neither they nor the
context bind a variable that is free in one of them or in the context. -/
theorem Hygienic.insertAll (hΓ : Γ.Hygienic n)
    (hissued : ∀ p ∈ pairs, ∀ v, v ∈ p.2.body.vars ∨ p.2.bound.contains v = true → v.index < n)
    (hbound : ∀ p ∈ pairs, ∀ v, p.2.bound.contains v = true →
      ¬ Γ.Free v ∧ ∀ q ∈ pairs, ¬ q.2.Free v)
    (hfree : ∀ p ∈ pairs, ∀ v, p.2.Free v → ¬ Γ.Quantifies v) :
    Hygienic (Γ.insertAll pairs) n where
  issued := by
    intro x σ hx
    rcases OrderedMap.of_get?_insertAll hx with hx | hx
    · exact hissued (x, σ) hx
    · exact hΓ.issued x σ hx
  bound_not_free := by
    intro x σ hx v hv hvfree
    rcases OrderedMap.of_get?_insertAll hx with hx | hx
    · rcases free_insertAll hvfree with ⟨q, hq, hnew⟩ | hold
      · exact (hbound (x, σ) hx v hv).2 q hq hnew
      · exact (hbound (x, σ) hx v hv).1 hold
    · rcases free_insertAll hvfree with ⟨q, hq, hnew⟩ | hold
      · exact hfree q hq v hnew ⟨x, σ, hx, hv⟩
      · exact hΓ.bound_not_free x σ hx v hv hold

theorem free_insertAll_entries (h : Free (Γ.insertAll Δ.entries) v) : Δ.Free v ∨ Γ.Free v := by
  rcases free_insertAll h with ⟨p, hp, hfree⟩ | hold
  · exact Or.inl ⟨p.1, p.2, OrderedMap.mem_entries_iff.1 hp, hfree⟩
  · exact Or.inr hold

theorem quantifies_insertAll_entries (h : Quantifies (Γ.insertAll Δ.entries) v) :
    Δ.Quantifies v ∨ Γ.Quantifies v := by
  rcases quantifies_insertAll h with ⟨p, hp, hbound⟩ | hold
  · exact Or.inl ⟨p.1, p.2, OrderedMap.mem_entries_iff.1 hp, hbound⟩
  · exact Or.inr hold

/-- Two contexts may be joined if neither quantifies a variable that is free in the other. -/
theorem Hygienic.insertAll_entries (hΓ : Γ.Hygienic n) (hΔ : Δ.Hygienic n)
    (hbound : ∀ v, Δ.Quantifies v → ¬ Γ.Free v) (hfree : ∀ v, Δ.Free v → ¬ Γ.Quantifies v) :
    Hygienic (Γ.insertAll Δ.entries) n := by
  have hget : ∀ p ∈ Δ.entries, Δ.get? p.1 = some p.2 := fun p => OrderedMap.mem_entries_iff.1
  refine hΓ.insertAll ?_ ?_ ?_
  · exact fun p hp => hΔ.issued p.1 p.2 (hget p hp)
  · intro p hp v hv
    refine ⟨hbound v ⟨p.1, p.2, hget p hp, hv⟩, fun q hq hvq => ?_⟩
    exact hΔ.bound_not_free p.1 p.2 (hget p hp) v hv ⟨q.1, q.2, hget q hq, hvq⟩
  · exact fun p hp v hv => hfree v ⟨p.1, p.2, hget p hp, hv⟩

theorem substitute_insertAll (Γ : Context) (pairs : List (CoreVar × Scheme)) (s : Subst) :
    substitute (Γ.insertAll pairs) s =
      (Γ.substitute s).insertAll (pairs.map fun p => (p.1, p.2.substitute s)) := by
  induction pairs generalizing Γ with
  | nil => rfl
  | cons p rest ih =>
    have hstep := ih (Γ.insert p.1 p.2)
    rw [substitute_insert] at hstep
    exact hstep

/-- Look-ups after schemes of declarations have been put into a context. -/
theorem get?_insertAll_declared {α : Type} (pairs : List (NodeId × α)) (φ : α → Scheme)
    (x : CoreVar) : OrderedMap.get? (Γ.insertAll (pairs.map fun p => (.decl p.1, φ p.2))) x =
      match x with
      | .decl d => (((OrderedMap.ofList pairs).get? d).map φ).or (Γ.get? x)
      | _ => Γ.get? x := by
  have hother : (∀ d, x ≠ .decl d) → OrderedMap.get?
      (Γ.insertAll (pairs.map fun p => (CoreVar.decl p.1, φ p.2))) x = Γ.get? x := by
    intro hx
    refine OrderedMap.get?_insertAll_of_not_mem fun q hq hkey => ?_
    obtain ⟨p, -, rfl⟩ := List.mem_map.1 hq
    exact hx p.1 hkey.symm
  cases x with
  | decl d =>
    have hinj : Function.Injective CoreVar.decl := fun _ _ h => CoreVar.decl.inj h
    rw [OrderedMap.get?_insertAll, OrderedMap.get?_ofList_map hinj]
  | synthetic i => exact hother (by simp)
  | builtin b => exact hother (by simp)

/-- A context in which declarations have the bodies of their schemes, monomorphically. -/
def rebound (Γ : Context) (schemes : OrderedMap NodeId Scheme) : Context :=
  Γ.insertAll (schemes.entries.map fun p => (.decl p.1, Scheme.mono p.2.body))

theorem get?_rebound (schemes : OrderedMap NodeId Scheme) (x : CoreVar) :
    OrderedMap.get? (Γ.rebound schemes) x =
      match x with
      | .decl d => ((schemes.get? d).map fun σ => Scheme.mono σ.body).or (Γ.get? x)
      | _ => Γ.get? x := by
  rw [rebound, get?_insertAll_declared schemes.entries fun σ => Scheme.mono σ.body,
    OrderedMap.ofList_entries]

end Entries

section Spared

theorem quantifies_substitute : (Γ.substitute s).Quantifies v ↔ Γ.Quantifies v := by
  constructor
  · intro h
    obtain ⟨x, δ, hδ, hv⟩ := h
    obtain ⟨σ, hσ, rfl⟩ := get?_substitute_eq_some.1 hδ
    exact ⟨x, σ, hσ, hv⟩
  · intro h
    obtain ⟨x, σ, hσ, hv⟩ := h
    exact ⟨x, σ.substitute s, get?_substitute_eq_some.2 ⟨σ, hσ, rfl⟩, hv⟩

/-- The substitution touches no variable that the context quantifies. -/
theorem apart_iff : Γ.Apart s ↔ ∀ v, s.Touches v → ¬ Γ.Quantifies v := by
  constructor
  · intro h v htouch hquant
    obtain ⟨x, σ, hσ, hv⟩ := hquant
    exact h x σ hσ v hv htouch
  · intro h x σ hσ v hv htouch
    exact h v htouch ⟨x, σ, hσ, hv⟩

theorem free_or_touches (happart : Γ.Apart s) (h : (Γ.substitute s).Free v) :
    Γ.Free v ∨ s.Touches v := by
  obtain ⟨w, hw, hread⟩ := (free_substitute happart).1 h
  rcases Subst.touches_of_read hread with rfl | htouch
  · exact Or.inl hw
  · exact Or.inr htouch

/-- A substitution that keeps apart from the schemes of a hygienic context leaves it hygienic. -/
theorem Hygienic.substitute_apart (hΓ : Γ.Hygienic n) (happart : Γ.Apart s)
    (hissued : ∀ v, s.Touches v → v.index < n) : (Γ.substitute s).Hygienic n where
  issued := by
    intro x δ hδ v hv
    obtain ⟨σ, hσ, rfl⟩ := get?_substitute_eq_some.1 hδ
    rcases hv with hv | hv
    · rw [Scheme.substitute_body (happart x σ hσ)] at hv
      rcases Subst.mem_or_touches_of_mem_apply hv with hv | htouch
      · exact hΓ.issued x σ hσ v (Or.inl hv)
      · exact hissued v htouch
    · exact hΓ.issued x σ hσ v (Or.inr hv)
  bound_not_free := by
    intro x δ hδ v hv hfree
    obtain ⟨σ, hσ, rfl⟩ := get?_substitute_eq_some.1 hδ
    rcases free_or_touches happart hfree with hold | htouch
    · exact hΓ.bound_not_free x σ hσ v hv hold
    · exact happart x σ hσ v hv htouch

theorem Hygienic.not_quantifies_of_free (hΓ : Γ.Hygienic n) (hv : Γ.Free v) : ¬ Γ.Quantifies v := by
  intro hquant
  obtain ⟨x, σ, hσ, hbound⟩ := hquant
  exact hΓ.bound_not_free x σ hσ v hbound hv

theorem Hygienic.lt_of_quantifies (hΓ : Γ.Hygienic n) (hv : Γ.Quantifies v) : v.index < n := by
  obtain ⟨x, σ, hσ, hbound⟩ := hv
  exact hΓ.issued x σ hσ v (Or.inr hbound)

end Spared

end Context

end SemanticAnalysis
