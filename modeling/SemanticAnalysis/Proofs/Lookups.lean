import Mathlib.Tactic.ByContra
import SemanticAnalysis.OrderedMap

/-!
Look-ups in finite maps and membership in finite sets. Every operation on maps
is described by what it answers to a look-up, and a map is determined by its
answers, so later modules never open the list of entries.
-/

namespace SemanticAnalysis

theorem Precedes.ne {κ : Type} [Key κ] {a b : κ} (h : Precedes a b) : a ≠ b := by
  rintro rfl
  exact not_precedes_self a h

namespace OrderedMap

variable {κ ν μ : Type} [Key κ]

theorem keys_nodup (m : OrderedMap κ ν) : m.keys.Nodup := by
  rw [keys, List.nodup_iff_pairwise_ne, List.pairwise_map]
  exact m.ascending.imp Precedes.ne

/-- Ascending lists with the same members are the same list. -/
theorem eq_of_mem_iff {l r : List (κ × ν)} (hl : l.Pairwise fun p q => Precedes p.1 q.1)
    (hr : r.Pairwise fun p q => Precedes p.1 q.1) (h : ∀ p, p ∈ l ↔ p ∈ r) : l = r := by
  refine List.Perm.eq_of_pairwise ?_ hl hr ?_
  · intro p q _ _ hpq hqp
    exact absurd (hpq.trans hqp) (not_precedes_self p.1)
  · have nodup : ∀ {l : List (κ × ν)}, l.Pairwise (fun p q => Precedes p.1 q.1) → l.Nodup :=
      fun hl => hl.imp fun hpq heq => hpq.ne (congrArg Prod.fst heq)
    exact (List.perm_ext_iff_of_nodup (nodup hl) (nodup hr)).2 h

variable [DecidableEq κ]

section Entries

/-- In a list that ascends in its keys a key is found with its own value. -/
theorem find?_eq_some_of_mem {l : List (κ × ν)} {p : κ × ν}
    (hl : l.Pairwise fun p q => Precedes p.1 q.1) (hp : p ∈ l) :
    (l.find? fun q => q.1 = p.1) = some p := by
  induction l with
  | nil => simp at hp
  | cons q rest ih =>
    obtain ⟨hq, hrest⟩ := List.pairwise_cons.1 hl
    rcases List.mem_cons.1 hp with rfl | hp
    · simp
    · have hne : q.1 ≠ p.1 := (hq p hp).ne
      simp [hne, ih hrest hp]

theorem mem_entries_iff {m : OrderedMap κ ν} {key : κ} {value : ν} :
    (key, value) ∈ m.entries ↔ m.get? key = some value := by
  constructor
  · intro h
    simp [get?, find?_eq_some_of_mem m.ascending h]
  · intro h
    obtain ⟨p, hp, rfl⟩ := Option.map_eq_some_iff.1 h
    have hkey : p.1 = key := by simpa using List.find?_some hp
    subst hkey
    exact List.mem_of_find?_eq_some hp

theorem forall_get?_iff {m : OrderedMap κ ν} {P : ν → Prop} :
    (∀ key value, m.get? key = some value → P value) ↔ ∀ p ∈ m.entries, P p.2 := by
  constructor
  · intro h p hp
    exact h p.1 p.2 (mem_entries_iff.1 hp)
  · intro h key value hget
    exact h (key, value) (mem_entries_iff.2 hget)

theorem mem_keys_iff {m : OrderedMap κ ν} {key : κ} : key ∈ m.keys ↔ m.contains key := by
  simp only [keys, List.mem_map, contains, Option.isSome_iff_exists]
  constructor
  · rintro ⟨p, hp, rfl⟩
    exact ⟨p.2, mem_entries_iff.1 hp⟩
  · rintro ⟨value, h⟩
    exact ⟨(key, value), mem_entries_iff.2 h, rfl⟩

/-- A map is determined by its answers. -/
theorem ext_get? {m n : OrderedMap κ ν} (h : ∀ key, m.get? key = n.get? key) : m = n := by
  apply ext_entries
  apply eq_of_mem_iff m.ascending n.ascending
  rintro ⟨key, value⟩
  rw [mem_entries_iff, mem_entries_iff, h]

end Entries

@[simp]
theorem contains_empty (key : κ) : (empty : OrderedMap κ ν).contains key = false := rfl

theorem contains_iff {m : OrderedMap κ ν} {key : κ} :
    m.contains key ↔ ∃ value, m.get? key = some value := by
  rw [contains, Option.isSome_iff_exists]

theorem get?_eq_none_iff {m : OrderedMap κ ν} {key : κ} :
    m.get? key = none ↔ m.contains key = false := by
  simp [contains]

@[simp]
theorem contains_insert (m : OrderedMap κ ν) (key other : κ) (value : ν) :
    (m.insert key value).contains other = (decide (key = other) || m.contains other) := by
  by_cases h : key = other <;> simp [contains, get?_insert, h]

theorem mapValues_mapValues {ξ : Type} (m : OrderedMap κ ν) (f : ν → μ) (g : μ → ξ) :
    (m.mapValues f).mapValues g = m.mapValues fun value => g (f value) := by
  apply ext_get?
  intro key
  simp [Function.comp_def]

@[simp]
theorem contains_mapValues (m : OrderedMap κ ν) (f : ν → μ) (key : κ) :
    (m.mapValues f).contains key = m.contains key := by
  simp [contains]

theorem get?_filterKeys (m : OrderedMap κ ν) (test : κ → Bool) (key : κ) :
    (m.filterKeys test).get? key = if test key then m.get? key else none := by
  simp only [get?, filterKeys, List.find?_filter]
  by_cases ht : test key = true
  · have hfun : (fun p : κ × ν => test p.1 && decide (p.1 = key)) =
        fun p => decide (p.1 = key) := by
      funext p
      by_cases hp : p.1 = key <;> simp [hp, ht]
    simp [hfun, ht]
  · have hnone : (m.entries.find? fun p => test p.1 && decide (p.1 = key)) = none := by
      rw [List.find?_eq_none]
      intro p _ hp
      simp only [Bool.and_eq_true, decide_eq_true_eq] at hp
      exact ht (hp.2 ▸ hp.1)
    simp [hnone, ht]

@[simp]
theorem contains_filterKeys (m : OrderedMap κ ν) (test : κ → Bool) (key : κ) :
    (m.filterKeys test).contains key = (test key && m.contains key) := by
  by_cases h : test key <;> simp [contains, get?_filterKeys, h]

theorem get?_erase (m : OrderedMap κ ν) (key other : κ) :
    (m.erase key).get? other = if other = key then none else m.get? other := by
  by_cases h : other = key <;> simp [erase, get?_filterKeys, h]

section InsertAll

theorem of_get?_insert {m : OrderedMap κ ν} {key other : κ} {value found : ν}
    (h : (m.insert key value).get? other = some found) :
    (other = key ∧ found = value) ∨ m.get? other = some found := by
  rw [get?_insert] at h
  split at h
  · rename_i heq
    exact Or.inl ⟨heq.symm, (Option.some.inj h).symm⟩
  · exact Or.inr h

theorem of_get?_erase {m : OrderedMap κ ν} {key other : κ} {found : ν}
    (h : (m.erase key).get? other = some found) : m.get? other = some found := by
  rw [get?_erase] at h
  split at h
  · simp at h
  · exact h

theorem get?_insertAll_of_not_mem {m : OrderedMap κ ν} {pairs : List (κ × ν)} {key : κ}
    (h : ∀ p ∈ pairs, p.1 ≠ key) : (m.insertAll pairs).get? key = m.get? key := by
  induction pairs generalizing m with
  | nil => rfl
  | cons p rest ih =>
    have hp : p.1 ≠ key := h p (List.mem_cons_self ..)
    calc ((m.insert p.1 p.2).insertAll rest).get? key
        = (m.insert p.1 p.2).get? key := ih fun q hq => h q (List.mem_cons_of_mem p hq)
      _ = m.get? key := by simp [get?_insert, hp]

/-- A key that the pairs give one value only is bound to that value. -/
theorem get?_insertAll_of_mem {m : OrderedMap κ ν} {pairs : List (κ × ν)} {key : κ} {value : ν}
    (hmem : (key, value) ∈ pairs) (honly : ∀ other, (key, other) ∈ pairs → other = value) :
    (m.insertAll pairs).get? key = some value := by
  induction pairs generalizing m with
  | nil => simp at hmem
  | cons p rest ih =>
    have honly' : ∀ other, (key, other) ∈ rest → other = value :=
      fun other ho => honly other (List.mem_cons_of_mem p ho)
    by_cases hrest : (key, value) ∈ rest
    · exact ih hrest honly'
    · have hfresh : ∀ q ∈ rest, q.1 ≠ key := by
        rintro ⟨k, v⟩ hq rfl
        exact hrest (honly' v hq ▸ hq)
      have hp : p = (key, value) := by
        rcases List.mem_cons.1 hmem with h | h
        · exact h.symm
        · exact absurd h hrest
      calc ((m.insert p.1 p.2).insertAll rest).get? key
          = (m.insert p.1 p.2).get? key := get?_insertAll_of_not_mem hfresh
        _ = some value := by simp [get?_insert, hp]

/-- What is found after insertions was inserted or was there before. -/
theorem of_get?_insertAll {m : OrderedMap κ ν} {pairs : List (κ × ν)} {key : κ} {found : ν}
    (h : (m.insertAll pairs).get? key = some found) :
    (key, found) ∈ pairs ∨ m.get? key = some found := by
  induction pairs generalizing m with
  | nil => exact Or.inr h
  | cons p rest ih =>
    rcases ih h with h | h
    · exact Or.inl (List.mem_cons_of_mem p h)
    · rcases of_get?_insert h with ⟨rfl, rfl⟩ | h
      · exact Or.inl (List.mem_cons_self ..)
      · exact Or.inr h

theorem contains_insertAll {m : OrderedMap κ ν} {pairs : List (κ × ν)} {key : κ} :
    (m.insertAll pairs).contains key = true ↔ key ∈ pairs.map (·.1) ∨ m.contains key = true := by
  induction pairs generalizing m with
  | nil => simp [insertAll]
  | cons p rest ih =>
    have hcons : m.insertAll (p :: rest) = (m.insert p.1 p.2).insertAll rest := rfl
    rw [hcons, ih, contains_insert, Bool.or_eq_true, decide_eq_true_eq, List.map_cons,
      List.mem_cons, or_assoc, eq_comm (a := key)]
    exact or_left_comm

theorem contains_insertAll_entries {m n : OrderedMap κ ν} {key : κ} :
    (m.insertAll n.entries).contains key = true ↔
      n.contains key = true ∨ m.contains key = true := by
  rw [contains_insertAll]
  exact or_congr_left mem_keys_iff

theorem contains_ofList {pairs : List (κ × ν)} {key : κ} :
    (ofList pairs).contains key = true ↔ key ∈ pairs.map (·.1) := by
  simp [ofList, contains_insertAll]

/-- The first map answers where it can and the second one elsewhere. -/
theorem get?_insertMissing (m n : OrderedMap κ ν) (key : κ) :
    (m.insertMissing n).get? key = (m.get? key).or (n.get? key) := by
  unfold insertMissing
  cases hm : m.get? key with
  | some value =>
    have hc : m.contains key := contains_iff.2 ⟨value, hm⟩
    rw [get?_insertAll_of_not_mem, hm, Option.some_or]
    rintro p hp rfl
    simp [hc] at hp
  | none =>
    have hc : m.contains key = false := get?_eq_none_iff.1 hm
    cases hn : n.get? key with
    | none =>
      rw [get?_insertAll_of_not_mem, hm, Option.none_or]
      rintro p hp rfl
      have hp' : (p.1, p.2) ∈ n.entries := (List.mem_filter.1 hp).1
      rw [mem_entries_iff, hn] at hp'
      simp at hp'
    | some value =>
      rw [Option.none_or]
      apply get?_insertAll_of_mem
      · exact List.mem_filter.2 ⟨mem_entries_iff.2 hn, by simp [hc]⟩
      · intro other ho
        have ho' := mem_entries_iff.1 (List.mem_filter.1 ho).1
        exact Option.some.inj (ho'.symm.trans hn)

end InsertAll

theorem mem_values_iff {m : OrderedMap κ ν} {value : ν} :
    value ∈ m.values ↔ ∃ key, m.get? key = some value := by
  simp only [values, List.mem_map]
  constructor
  · rintro ⟨p, hp, rfl⟩
    exact ⟨p.1, mem_entries_iff.1 hp⟩
  · rintro ⟨key, h⟩
    exact ⟨(key, value), mem_entries_iff.2 h, rfl⟩

end OrderedMap

namespace OrderedSet

variable {κ : Type} [Key κ]

theorem length_toList (s : OrderedSet κ) : (toList s).length = s.size := by
  simp [toList, OrderedMap.keys, OrderedMap.size]

variable [DecidableEq κ]

theorem mem_toList_iff {s : OrderedSet κ} {key : κ} : key ∈ toList s ↔ s.contains key :=
  OrderedMap.mem_keys_iff

/-- A set is determined by its members. -/
theorem ext_contains {s t : OrderedSet κ} (h : ∀ key, s.contains key ↔ t.contains key) : s = t := by
  apply OrderedMap.ext_get?
  intro key
  have hkey : s.contains key = t.contains key := Bool.eq_iff_iff.2 (h key)
  simp only [OrderedMap.contains] at hkey
  cases hs : s.get? key with
  | none => cases ht : t.get? key with
    | none => rfl
    | some u => simp [hs, ht] at hkey
  | some u => cases ht : t.get? key with
    | none => simp [hs, ht] at hkey
    | some w => rfl

@[simp]
theorem contains_ofList {items : List κ} {key : κ} : (ofList items).contains key ↔ key ∈ items := by
  constructor
  · intro h
    by_contra hnot
    have hnone : (ofList items).get? key = none := by
      apply OrderedMap.get?_insertAll_of_not_mem
      simp only [List.mem_map]
      rintro p ⟨k, hk, rfl⟩ rfl
      exact hnot hk
    rw [OrderedMap.get?_eq_none_iff.1 hnone] at h
    contradiction
  · intro h
    apply OrderedMap.contains_iff.2
    exact ⟨(), OrderedMap.get?_insertAll_of_mem (List.mem_map.2 ⟨key, h, rfl⟩) fun _ _ => rfl⟩

theorem contains_addAll {s : OrderedSet κ} {items : List κ} {key : κ} :
    (addAll s items).contains key = true ↔ key ∈ items ∨ s.contains key = true := by
  simp [addAll, OrderedMap.contains_insertAll]

@[simp]
theorem contains_diff (s t : OrderedSet κ) (key : κ) :
    (diff s t).contains key = (!t.contains key && s.contains key) := by
  simp [diff]

end OrderedSet

theorem eraseDups_concat {α : Type} [DecidableEq α] (l : List α) (v : α) :
    (l ++ [v]).eraseDups = if v ∈ l then l.eraseDups else l.eraseDups ++ [v] := by
  rw [List.eraseDups_append]
  split <;> simp_all [List.removeAll, List.eraseDups_cons]

end SemanticAnalysis
