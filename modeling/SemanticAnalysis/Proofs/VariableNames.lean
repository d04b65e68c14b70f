import Mathlib.Data.List.Induction
import Mathlib.Data.String.Basic
import Mathlib.Logic.Function.Basic
import Mathlib.Tactic.Ring
import SemanticAnalysis.Types.Variable

/-!
The names of type variables read as numbers. A name is made of small letters and is
not empty, and reading it in base 26 gives back the index of the variable, so different
variables have different names. A name has no more letters than its number needs digits,
so that names are ordered first by length and then alphabetically as the variables are.
-/

namespace SemanticAnalysis.TyVar

section Letters

theorem spell_of_lt {n : Nat} (h : n < 26) (digits : Array Char) :
    spell digits n = digits.push (letter n) := by
  rw [spell, if_pos (Nat.div_eq_of_lt h), Nat.mod_eq_of_lt h]

theorem spell_of_le {n : Nat} (h : 26 ≤ n) (digits : Array Char) :
    spell digits n = spell (digits.push (letter (n % 26))) (n / 26) := by
  rw [spell, if_neg (by omega)]

/-- Induction on the number of digits. -/
theorem digitInduction {motive : Nat → Prop} (n : Nat) (digit : ∀ n, n < 26 → motive n)
    (step : ∀ n, 26 ≤ n → motive (n / 26) → motive n) : motive n := by
  induction n using Nat.strongRecOn with
  | ind n ih =>
    by_cases h : n < 26
    · exact digit n h
    · exact step n (by omega) (ih (n / 26) (by omega))

/-- What stands before the letters does not matter to them. -/
theorem spell_eq_append (digits : Array Char) (n : Nat) :
    spell digits n = digits ++ spell #[] n := by
  induction n using digitInduction generalizing digits with
  | digit n h => simp [spell_of_lt h]
  | step n h ih =>
    rw [spell_of_le h, spell_of_le h, ih (digits.push _), ih (#[].push _)]
    simp

theorem letters_of_lt {n : Nat} (h : n < 26) : letters n = [letter n] := by
  simp [letters, spell_of_lt h]

theorem letters_of_le {n : Nat} (h : 26 ≤ n) :
    letters n = letters (n / 26) ++ [letter (n % 26)] := by
  rw [letters, spell_of_le h, spell_eq_append]
  simp [letters]

end Letters

def digit (c : Char) : Nat := c.toNat - 'a'.toNat

def reading (cs : List Char) : Nat := cs.foldl (fun n c => 26 * n + digit c) 0

theorem reading_concat (cs : List Char) (c : Char) :
    reading (cs ++ [c]) = 26 * reading cs + digit c := by
  simp [reading]

/-- The letters of the digits are the small letters, each for its own digit. -/
theorem letter_spec : ∀ d < 26, digit (letter d) = d ∧ (letter d).isLower = true := by
  decide

theorem reading_letters (n : Nat) : reading (letters n) = n := by
  induction n using digitInduction with
  | digit n h =>
    rw [letters_of_lt h]
    simp [reading, (letter_spec n h).1]
  | step n h ih =>
    rw [letters_of_le h, reading_concat, ih, (letter_spec _ (Nat.mod_lt n (by decide))).1]
    exact Nat.div_add_mod n 26

theorem isLower_of_mem_letters {n : Nat} {c : Char} (hc : c ∈ letters n) : c.isLower = true := by
  induction n using digitInduction with
  | digit n h =>
    rw [letters_of_lt h] at hc
    rw [List.mem_singleton.1 hc]
    exact (letter_spec n h).2
  | step n h ih =>
    rw [letters_of_le h] at hc
    rcases List.mem_append.1 hc with hc | hc
    · exact ih hc
    · rw [List.mem_singleton.1 hc]
      exact (letter_spec _ (Nat.mod_lt n (by decide))).2

theorem letters_ne_nil (n : Nat) : letters n ≠ [] := by
  by_cases h : n < 26
  · simp [letters_of_lt h]
  · simp [letters_of_le (Nat.le_of_not_lt h)]

/-- The number of letters of an index says between which powers of 26 it lies. -/
theorem length_letters_le_iff {n k : Nat} : (letters n).length ≤ k + 1 ↔ n < 26 ^ (k + 1) := by
  induction n using digitInduction generalizing k with
  | digit n h =>
    have hpow : 26 ^ 1 ≤ 26 ^ (k + 1) := Nat.pow_le_pow_right (by decide) (by omega)
    simp only [letters_of_lt h, List.length_singleton]
    omega
  | step n h ih =>
    rw [letters_of_le h, List.length_append, List.length_singleton, Nat.add_le_add_iff_right]
    cases k with
    | zero =>
      have hpos := List.length_pos_iff.2 (letters_ne_nil (n / 26))
      omega
    | succ k => rw [ih, Nat.div_lt_iff_lt_mul (by decide), Nat.pow_succ 26 (k + 1)]

theorem length_letters_mono {m n : Nat} (h : m ≤ n) :
    (letters m).length ≤ (letters n).length := by
  obtain ⟨k, hk⟩ := Nat.exists_eq_add_one.2 (List.length_pos_iff.2 (letters_ne_nil n))
  rw [hk, length_letters_le_iff]
  exact Nat.lt_of_le_of_lt h (length_letters_le_iff.1 (Nat.le_of_eq hk))

section Alphabet

theorem bounds_of_isLower {c : Char} (h : c.isLower = true) : 97 ≤ c.toNat ∧ c.toNat ≤ 122 := by
  have hval : (decide (c.val ≥ 'a'.val) && decide (c.val ≤ 'z'.val)) = true := h
  rw [Bool.and_eq_true_iff, decide_eq_true_iff, decide_eq_true_iff] at hval
  exact hval

variable {c d : Char} {cs ds : List Char}

theorem digit_eq (h : c.isLower = true) : digit c + 97 = c.toNat :=
  Nat.sub_add_cancel (bounds_of_isLower h).1

theorem digit_lt (h : c.isLower = true) : digit c < 26 := by
  have hbounds := bounds_of_isLower h
  have heq := digit_eq h
  omega

/-- The alphabet is in the order of the digits. -/
theorem lt_iff_digit_lt (hc : c.isLower = true) (hd : d.isLower = true) :
    c < d ↔ digit c < digit d := by
  have hlt : c < d ↔ c.toNat < d.toNat := UInt32.lt_iff_toNat_lt
  have hc' := digit_eq hc
  have hd' := digit_eq hd
  rw [hlt]
  omega

theorem eq_iff_digit_eq (hc : c.isLower = true) (hd : d.isLower = true) :
    c = d ↔ digit c = digit d := by
  have hc' := digit_eq hc
  have hd' := digit_eq hd
  rw [← Char.toNat_inj]
  omega

theorem reading_cons (c : Char) (cs : List Char) :
    reading (c :: cs) = digit c * 26 ^ cs.length + reading cs := by
  induction cs using List.reverseRecOn with
  | nil => simp [reading]
  | append_singleton cs x ih =>
    rw [← List.cons_append, reading_concat, reading_concat, ih, List.length_append,
      List.length_singleton]
    ring

theorem reading_cons_lt (h : reading cs < 26 ^ cs.length) :
    reading (c :: cs) < (digit c + 1) * 26 ^ cs.length := by
  rw [reading_cons, Nat.succ_mul]
  exact Nat.add_lt_add_left h _

theorem reading_lt_pow (h : ∀ c ∈ cs, c.isLower = true) : reading cs < 26 ^ cs.length := by
  induction cs with
  | nil => decide
  | cons c cs ih =>
    obtain ⟨hc, hcs⟩ := List.forall_mem_cons.1 h
    calc reading (c :: cs) < (digit c + 1) * 26 ^ cs.length := reading_cons_lt (ih hcs)
      _ ≤ 26 * 26 ^ cs.length := Nat.mul_le_mul_right _ (digit_lt hc)
      _ = 26 ^ (c :: cs).length := by rw [List.length_cons, Nat.pow_succ, Nat.mul_comm]

/-- A greater leading digit outweighs all that follow. -/
theorem reading_lt_of_digit_lt (hlen : cs.length = ds.length) (hcs : ∀ c ∈ cs, c.isLower = true)
    (h : digit c < digit d) : reading (c :: cs) < reading (d :: ds) := by
  calc reading (c :: cs) < (digit c + 1) * 26 ^ cs.length := reading_cons_lt (reading_lt_pow hcs)
    _ ≤ digit d * 26 ^ ds.length := hlen ▸ Nat.mul_le_mul_right _ h
    _ ≤ reading (d :: ds) := reading_cons d ds ▸ Nat.le_add_right _ _

/-- Words of one length are in the order of what they spell. -/
theorem lt_iff_reading_lt (hlen : cs.length = ds.length) (hcs : ∀ c ∈ cs, c.isLower = true)
    (hds : ∀ d ∈ ds, d.isLower = true) : cs < ds ↔ reading cs < reading ds := by
  induction cs generalizing ds with
  | nil =>
    obtain rfl : ds = [] := List.length_eq_zero_iff.1 hlen.symm
    simp
  | cons c cs ih =>
    obtain ⟨d, ds, rfl⟩ := List.exists_cons_of_length_eq_add_one hlen.symm
    obtain ⟨hc, hcs⟩ := List.forall_mem_cons.1 hcs
    obtain ⟨hd, hds⟩ := List.forall_mem_cons.1 hds
    have hlen := Nat.succ.inj hlen
    rw [List.cons_lt_cons_iff, lt_iff_digit_lt hc hd, eq_iff_digit_eq hc hd, ih hlen hcs hds]
    rcases Nat.lt_trichotomy (digit c) (digit d) with h | h | h
    · exact iff_of_true (Or.inl h) (reading_lt_of_digit_lt hlen hcs h)
    · simp [reading_cons, hlen, h]
    · have hgt := reading_lt_of_digit_lt hlen.symm hds h
      omega

end Alphabet

/-- Letters are in the order of length and then of the alphabet as their numbers are. -/
theorem lt_iff_letters_lt {m n : Nat} : m < n ↔ (letters m).length < (letters n).length ∨
    (letters m).length = (letters n).length ∧ letters m < letters n := by
  rcases Nat.lt_trichotomy (letters m).length (letters n).length with h | h | h
  · have hlt : m < n := Nat.lt_of_not_le fun hle => Nat.not_lt.2 (length_letters_mono hle) h
    exact iff_of_true hlt (Or.inl h)
  · have hlex := lt_iff_reading_lt h (fun _ => isLower_of_mem_letters)
      fun _ => isLower_of_mem_letters
    rw [reading_letters, reading_letters] at hlex
    simp [h, hlex]
  · have hle : n ≤ m := Nat.le_of_not_lt fun hlt =>
      Nat.not_lt.2 (length_letters_mono (Nat.le_of_lt hlt)) h
    omega

theorem toList_name (v : TyVar) : v.name.toList = letters v.index := String.toList_ofList

theorem name_injective : Function.Injective name := by
  intro v w h
  have hletters : letters v.index = letters w.index := by
    rw [← toList_name, ← toList_name, h]
  have hindex := congrArg reading hletters
  rw [reading_letters, reading_letters] at hindex
  exact congrArg TyVar.mk hindex

theorem length_name (v : TyVar) : v.name.length = (letters v.index).length := by
  rw [← String.length_toList, toList_name]

/-- Variables are numbered by their names. The names are in the order of length and then of the
alphabet as the indices are, no two variables share one, and a name is made of small letters that
give back the index when they are read in base 26. The loop that spells a name makes a round for
each letter, and `k + 1` rounds are enough exactly below `26 ^ (k + 1)`. -/
theorem names_number_variables (v w : TyVar) :
    (v.index < w.index ↔ v.name.length < w.name.length ∨
      v.name.length = w.name.length ∧ v.name < w.name) ∧
    (v.name = w.name ↔ v = w) ∧
    v.name.toList.all Char.isLower = true ∧ reading v.name.toList = v.index ∧
    ∀ k, v.name.length ≤ k + 1 ↔ v.index < 26 ^ (k + 1) := by
  refine ⟨?_, name_injective.eq_iff, ?_, ?_, ?_⟩
  · rw [length_name, length_name, String.lt_iff_toList_lt, toList_name, toList_name]
    exact lt_iff_letters_lt
  · rw [toList_name]
    exact List.all_eq_true.2 fun _ => isLower_of_mem_letters
  · rw [toList_name, reading_letters]
  · intro k
    rw [length_name]
    exact length_letters_le_iff

end SemanticAnalysis.TyVar
