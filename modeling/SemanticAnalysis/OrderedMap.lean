/-!
Finite maps and sets kept in ascending order of their keys. The order is part
of the type, so a listing is always ascending and two maps that answer every
look-up alike are equal.
-/

namespace SemanticAnalysis

/-- A type ordered by a pair of numbers, compared lexicographically, that
determines its values. -/
class Key (κ : Type) where
  rank : κ → Nat × Nat
  rank_inj : ∀ a b, rank a = rank b → a = b

def Precedes {κ : Type} [Key κ] (a b : κ) : Prop :=
  (Key.rank a).1 < (Key.rank b).1 ∨
    (Key.rank a).1 = (Key.rank b).1 ∧ (Key.rank a).2 < (Key.rank b).2

instance {κ : Type} [Key κ] (a b : κ) : Decidable (Precedes a b) :=
  inferInstanceAs (Decidable (_ ∨ _))

theorem Precedes.trans {κ : Type} [Key κ] {a b c : κ} (hab : Precedes a b) (hbc : Precedes b c) :
    Precedes a c := by
  unfold Precedes at *
  omega

theorem not_precedes_self {κ : Type} [Key κ] (a : κ) : ¬ Precedes a a := by
  unfold Precedes
  omega

theorem eq_of_not_precedes {κ : Type} [Key κ] {a b : κ} (hab : ¬ Precedes a b)
    (hba : ¬ Precedes b a) : a = b := by
  unfold Precedes at hab hba
  apply Key.rank_inj
  apply Prod.ext <;> omega

/-- A finite map whose entries ascend in their keys. -/
structure OrderedMap (κ ν : Type) [Key κ] where
  entries : List (κ × ν)
  ascending : entries.Pairwise fun p q => Precedes p.1 q.1
deriving DecidableEq

namespace OrderedMap

variable {κ ν μ : Type} [Key κ]

theorem ext_entries {m n : OrderedMap κ ν} (h : m.entries = n.entries) : m = n := by
  cases m
  cases n
  simp_all

def empty : OrderedMap κ ν := ⟨[], List.Pairwise.nil⟩

instance : Inhabited (OrderedMap κ ν) := ⟨empty⟩

def size (m : OrderedMap κ ν) : Nat := m.entries.length

def isEmpty (m : OrderedMap κ ν) : Bool := m.entries.isEmpty

def keys (m : OrderedMap κ ν) : List κ := m.entries.map (·.1)

def values (m : OrderedMap κ ν) : List ν := m.entries.map (·.2)

section Insertion

/-- Puts an entry at its place, taking the place of an entry with its key. -/
def insertEntry (key : κ) (value : ν) : List (κ × ν) → List (κ × ν)
  | [] => [(key, value)]
  | (k, v) :: rest =>
    if Precedes key k then (key, value) :: (k, v) :: rest
    else if Precedes k key then (k, v) :: insertEntry key value rest
    else (key, value) :: rest

theorem mem_insertEntry {key : κ} {value : ν} {l : List (κ × ν)} {p : κ × ν}
    (h : p ∈ insertEntry key value l) : p = (key, value) ∨ p ∈ l := by
  induction l with
  | nil => simpa [insertEntry] using h
  | cons q rest ih =>
    unfold insertEntry at h
    split at h
    · simpa using h
    · split at h
      · rcases List.mem_cons.1 h with rfl | h
        · simp
        · rcases ih h with rfl | h <;> simp_all
      · rcases List.mem_cons.1 h with rfl | h <;> simp_all

/-- Putting an entry at its place keeps the keys ascending. -/
theorem pairwise_insertEntry (key : κ) (value : ν) {l : List (κ × ν)}
    (h : l.Pairwise fun p q => Precedes p.1 q.1) :
    (insertEntry key value l).Pairwise fun p q => Precedes p.1 q.1 := by
  induction l with
  | nil => simp [insertEntry]
  | cons q rest ih =>
    obtain ⟨hq, hrest⟩ := List.pairwise_cons.1 h
    unfold insertEntry
    split
    · rename_i hk
      refine List.pairwise_cons.2 ⟨?_, h⟩
      intro p hp
      rcases List.mem_cons.1 hp with rfl | hp
      · exact hk
      · exact Precedes.trans hk (hq p hp)
    · split
      · rename_i hk
        refine List.pairwise_cons.2 ⟨?_, ih hrest⟩
        intro p hp
        rcases mem_insertEntry hp with rfl | hp
        · exact hk
        · exact hq p hp
      · rename_i hkq hqk
        have heq : key = q.1 := eq_of_not_precedes hkq hqk
        refine List.pairwise_cons.2 ⟨?_, hrest⟩
        intro p hp
        simpa [heq] using hq p hp

end Insertion

def insert (m : OrderedMap κ ν) (key : κ) (value : ν) : OrderedMap κ ν :=
  ⟨insertEntry key value m.entries, pairwise_insertEntry key value m.ascending⟩

/-- Binds every pair in turn; a later pair wins over an earlier one. -/
def insertAll (m : OrderedMap κ ν) (pairs : List (κ × ν)) : OrderedMap κ ν :=
  pairs.foldl (fun m p => m.insert p.1 p.2) m

def ofList (pairs : List (κ × ν)) : OrderedMap κ ν := empty.insertAll pairs

def filterKeys (m : OrderedMap κ ν) (test : κ → Bool) : OrderedMap κ ν :=
  ⟨m.entries.filter fun p => test p.1, m.ascending.filter _⟩

def mapValues (m : OrderedMap κ ν) (f : ν → μ) : OrderedMap κ μ :=
  ⟨m.entries.map fun p => (p.1, f p.2), by
    rw [List.pairwise_map]
    exact m.ascending⟩

variable [DecidableEq κ]

def get? (m : OrderedMap κ ν) (key : κ) : Option ν :=
  (m.entries.find? fun p => p.1 = key).map (·.2)

def contains (m : OrderedMap κ ν) (key : κ) : Bool := (m.get? key).isSome

def erase (m : OrderedMap κ ν) (key : κ) : OrderedMap κ ν := m.filterKeys fun k => k ≠ key

/-- Adds the entries of the second map for keys that the first does not bind. -/
def insertMissing (m n : OrderedMap κ ν) : OrderedMap κ ν :=
  m.insertAll (n.entries.filter fun p => !m.contains p.1)

@[simp]
theorem get?_empty (key : κ) : (empty : OrderedMap κ ν).get? key = none := rfl

@[simp]
theorem get?_mapValues (m : OrderedMap κ ν) (f : ν → μ) (key : κ) :
    (m.mapValues f).get? key = (m.get? key).map f := by
  simp [get?, mapValues, List.find?_map, Function.comp_def]

/-- A look-up after an insertion finds the new value at its key and the old entries elsewhere. -/
theorem find?_insertEntry (key other : κ) (value : ν) (l : List (κ × ν)) :
    ((insertEntry key value l).find? fun p => p.1 = other).map (·.2) =
      if key = other then some value else (l.find? fun p => p.1 = other).map (·.2) := by
  induction l with
  | nil => by_cases h : key = other <;> simp [insertEntry, h]
  | cons q rest ih =>
    unfold insertEntry
    split
    · by_cases h : key = other <;> simp [List.find?_cons, h]
    · split
      · rename_i hq
        have hne : q.1 ≠ key := fun heq => not_precedes_self key (heq ▸ hq)
        by_cases h : q.1 = other
        · have hko : key ≠ other := fun hk => hne (h.trans hk.symm)
          simp [h, hko]
        · simp [h, ih]
      · rename_i hkq hqk
        have heq : key = q.1 := eq_of_not_precedes hkq hqk
        by_cases h : key = other
        · simp [h]
        · have hq : q.1 ≠ other := fun hq => h (heq.trans hq)
          simp [h, hq]

theorem get?_insert (m : OrderedMap κ ν) (key other : κ) (value : ν) :
    (m.insert key value).get? other = if key = other then some value else m.get? other :=
  find?_insertEntry key other value m.entries

end OrderedMap

abbrev OrderedSet (κ : Type) [Key κ] := OrderedMap κ Unit

namespace OrderedSet

variable {κ : Type} [Key κ]

def ofList (items : List κ) : OrderedSet κ := OrderedMap.ofList (items.map fun k => (k, ()))

def toList (s : OrderedSet κ) : List κ := OrderedMap.keys s

def diff [DecidableEq κ] (s t : OrderedSet κ) : OrderedSet κ :=
  OrderedMap.filterKeys s fun k => !OrderedMap.contains t k

def addAll (s : OrderedSet κ) (items : List κ) : OrderedSet κ :=
  OrderedMap.insertAll s (items.map fun k => (k, ()))

end OrderedSet

end SemanticAnalysis
