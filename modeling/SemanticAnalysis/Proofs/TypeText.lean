import SemanticAnalysis.Proofs.SealedTypes
import SemanticAnalysis.Proofs.SchemeText

/-!
Types read back from their text. What a type looks like is its outline, in which every
nominal type is replaced by its name. A reader takes a text apart again: in an inner
position stands a word or something in parentheses, in an outer one what stands in an
inner one, perhaps followed by an arrow or by bars. Words are told apart by their
letters, and parentheses by the comma that only tuples have. The reader gives back the
outline, so types with the same text have the same outline.
-/

namespace SemanticAnalysis

inductive Outline where
  | var (v : TyVar)
  | prim (p : Prim)
  | tuple (items : List Outline)
  | union (items : List Outline)
  | fn (input output : Outline)
  | named (name : String)
  | bottom

namespace Ty

mutual

def outline (symbols : SymbolTable) : Ty → Outline
  | .var v => .var v
  | .prim p => .prim p
  | .tuple items => .tuple (outlines symbols items)
  | .union items => .union (outlines symbols items)
  | .fn input output => .fn (outline symbols input) (outline symbols output)
  | .struct nominal => .named (symbols.display nominal.name)
  | .interface name => .named (symbols.display name)
  | .enum nominal _ => .named (symbols.display nominal.name)
  | .bottom => .bottom

def outlines (symbols : SymbolTable) : List Ty → List Outline
  | [] => []
  | t :: rest => outline symbols t :: outlines symbols rest

end

end Ty

namespace Outline

section Words

def isWordChar (c : Char) : Bool := c ≠ ' ' && c ≠ ',' && c ≠ '(' && c ≠ ')'

def ofWord (w : List Char) : Outline :=
  if w = ['!'] then .bottom
  else
    match [Prim.number, Prim.floating, Prim.bool].find? fun p => p.name.toList = w with
    | some p => .prim p
    | none => if w.all Char.isLower then .var ⟨TyVar.reading w⟩ else .named (String.ofList w)

/-- A character of an identifier: a letter, a digit or an underscore, where every character beyond
ASCII counts as a letter. -/
def isIdentifierChar (c : Char) : Bool := c.isAlphanum || c = '_' || 127 < c.toNat

/-- A name for a nominal type: an identifier that neither a primitive type nor a variable has for
its name. -/
structure IsNominalName (name : String) : Prop where
  identifier : ∀ c ∈ name.toList, isIdentifierChar c = true
  noDigit : ∀ c ∈ name.toList.head?, c.isDigit = false
  notPrim : ∀ p : Prim, name ≠ p.name
  notLower : ∃ c ∈ name.toList, c.isLower = false

variable {w : List Char} {name : String}

theorem isWordChar_of_isIdentifierChar {c : Char} (h : isIdentifierChar c = true) :
    isWordChar c = true := by
  by_contra hc
  have hmark : c = ' ' ∨ c = ',' ∨ c = '(' ∨ c = ')' := by
    simp only [isWordChar, Bool.and_eq_true, decide_eq_true_eq] at hc
    tauto
  rcases hmark with rfl | rfl | rfl | rfl <;> revert h <;> decide

/-- The letters of a variable are read as the variable. -/
theorem ofWord_letters (n : Nat) : ofWord (TyVar.letters n) = .var ⟨n⟩ := by
  have hlower : (TyVar.letters n).all Char.isLower = true :=
    List.all_eq_true.2 fun c hc => TyVar.isLower_of_mem_letters hc
  have hother : ∀ w : List Char, w.all Char.isLower = false → TyVar.letters n ≠ w := by
    intro w hw heq
    rw [heq, hw] at hlower
    cases hlower
  have hprim : [Prim.number, Prim.floating, Prim.bool].find?
      (fun p => p.name.toList = TyVar.letters n) = none := by
    rw [List.find?_eq_none]
    intro p _ h
    have hp : p.name.toList.all Char.isLower = false := by cases p <;> decide
    exact hother _ hp (of_decide_eq_true h).symm
  rw [ofWord, if_neg (hother _ (by decide)), hprim]
  simp only [hlower, if_true, TyVar.reading_letters]

theorem ofWord_prim (p : Prim) : ofWord p.name.toList = .prim p := by
  cases p <;> rfl

/-- The name of a nominal type is read as such. -/
theorem ofWord_nominal (h : IsNominalName name) :
    ofWord name.toList = .named name := by
  have hbottom : name.toList ≠ ['!'] := by
    intro heq
    have hmark := h.identifier '!' (by simp [heq])
    revert hmark
    decide
  have hprim : [Prim.number, Prim.floating, Prim.bool].find?
      (fun p => p.name.toList = name.toList) = none := by
    rw [List.find?_eq_none]
    intro p _ heq
    exact h.notPrim p (String.toList_injective (of_decide_eq_true heq).symm)
  have hlower : name.toList.all Char.isLower = false := by
    obtain ⟨c, hc, hcl⟩ := h.notLower
    exact List.all_eq_false.2 ⟨c, hc, by simp [hcl]⟩
  rw [ofWord, if_neg hbottom, hprim]
  simp [hlower]

end Words

section Reader

def after (mark cs : List Char) : Option (List Char) :=
  if mark.isPrefixOf cs then some (cs.drop mark.length) else none

def readMany (mark : List Char) (item : List Char → Option (Outline × List Char)) :
    Nat → List Char → Option (List Outline × List Char)
  | 0, cs => some ([], cs)
  | n + 1, cs =>
    match after mark cs with
    | none => some ([], cs)
    | some cs => do
      let (t, cs) ← item cs
      let (ts, cs) ← readMany mark item n cs
      return (t :: ts, cs)

def readWord (cs : List Char) : Option (Outline × List Char) :=
  if (cs.takeWhile isWordChar).isEmpty then none
  else some (.ofWord (cs.takeWhile isWordChar), cs.dropWhile isWordChar)

/-- Reads what is in parentheses after the first part of it: nothing more, or the further elements
of a tuple, of which a lone first one is followed by a comma. -/
def readClosing (element : List Char → Option (Outline × List Char)) (n : Nat) (first : Outline) :
    List Char → Option (Outline × List Char)
  | ')' :: cs => some (first, cs)
  | ',' :: ')' :: cs => some (.tuple [first], cs)
  | cs => do
    let (others, cs) ← readMany [',', ' '] element n cs
    match cs with
    | ')' :: cs => return (.tuple (first :: others), cs)
    | _ => none

/-- Reads what may follow the first part in an outer position: an arrow and an output, or bars with
further items. -/
def readOpen (item output : List Char → Option (Outline × List Char)) (n : Nat) (first : Outline)
    (cs : List Char) : Option (Outline × List Char) :=
  match after [' ', '-', '>', ' '] cs with
  | some cs => do
    let (result, cs) ← output cs
    return (.fn first result, cs)
  | none => do
    let (others, cs) ← readMany [' ', '|', ' '] item n cs
    return (if others.isEmpty then first else .union (first :: others), cs)

def readAt : Nat → Position → List Char → Option (Outline × List Char)
  | 0, _, _ => none
  | n + 1, .outer, cs => do
    let (first, cs) ← readAt n .inner cs
    readOpen (readAt n .inner) (readAt n .outer) n first cs
  | n + 1, .inner, cs =>
    match cs with
    | '(' :: ')' :: cs => some (.tuple [], cs)
    | '(' :: cs => do
      let (first, cs) ← readAt n .outer cs
      readClosing (readAt n .outer) n first cs
    | cs => readWord cs

end Reader

section Marks

variable {m c : Char} {mark cs : List Char}

theorem after_append (mark cs : List Char) : after mark (mark ++ cs) = some cs := by
  simp [after]

theorem after_of_head (h : ∀ c ∈ cs.head?, c ≠ m) : after (m :: mark) cs = none := by
  cases cs with
  | nil => rfl
  | cons c cs =>
    have hc : (m == c) = false := by simpa using (h c rfl).symm
    simp [after, List.isPrefixOf, hc]

/-- What may come after a type in a position: something that a word does not go on with, and after
an outer one nothing that goes on with an arrow or a bar. -/
def Stops : Position → List Char → Prop
  | .outer, cs => ∀ c ∈ cs.head?, c = ',' ∨ c = ')'
  | .inner, cs => ∀ c ∈ cs.head?, isWordChar c = false

theorem stops_nil (p : Position) : Stops p [] := by
  cases p <;> simp [Stops]

theorem stops_closing (p : Position) (cs : List Char) : Stops p (')' :: cs) := by
  cases p <;> simp [Stops, isWordChar]

theorem stops_comma (p : Position) (cs : List Char) : Stops p (',' :: cs) := by
  cases p <;> simp [Stops, isWordChar]

theorem stops_blank (cs : List Char) : Stops .inner (' ' :: cs) := by
  simp [Stops, isWordChar]

theorem Stops.inner {p : Position} (h : Stops p cs) : Stops .inner cs := by
  cases p with
  | inner => exact h
  | outer =>
    intro c hc
    rcases h c hc with rfl | rfl <;> rfl

/-- No arrow and no bar comes after what stands in an outer position. -/
theorem Stops.after_eq_none (h : Stops .outer cs) (mark : List Char) :
    after (' ' :: mark) cs = none := by
  refine after_of_head fun c hc => ?_
  rcases h c hc with rfl | rfl <;> decide

end Marks

section Reading

variable {n : Nat} {p : Position} {w cs : List Char} {first : Outline}

/-- No type begins with a closing parenthesis. -/
theorem readAt_closing (n : Nat) (p : Position) (cs : List Char) :
    readAt n p (')' :: cs) = none := by
  induction n generalizing p with
  | zero => rfl
  | succ n ih =>
    cases p with
    | outer => simp [readAt, ih]
    | inner => rfl

/-- A word is read up to what stops it. -/
theorem readWord_append (hne : w ≠ []) (hw : ∀ c ∈ w, isWordChar c = true) (hcs : Stops .inner cs) :
    readWord (w ++ cs) = some (ofWord w, cs) := by
  have hnone : cs.takeWhile isWordChar = [] ∧ cs.dropWhile isWordChar = cs := by
    cases cs with
    | nil => exact ⟨rfl, rfl⟩
    | cons c cs =>
      have hc := hcs c rfl
      simp [hc]
  have htake : (w ++ cs).takeWhile isWordChar = w := by
    rw [List.takeWhile_append_of_pos hw, hnone.1, List.append_nil]
  have hdrop : (w ++ cs).dropWhile isWordChar = cs := by
    rw [List.dropWhile_append_of_pos hw, hnone.2]
  simp [readWord, htake, hdrop, hne]

theorem readAt_word (hne : w ≠ []) (hw : ∀ c ∈ w, isWordChar c = true) (hcs : Stops .inner cs) :
    readAt (n + 1) .inner (w ++ cs) = some (ofWord w, cs) := by
  rw [← readWord_append hne hw hcs]
  obtain ⟨c, rest, rfl⟩ := List.exists_cons_of_ne_nil hne
  have hc : c ≠ '(' := by
    intro hopen
    have hword := hw c (List.mem_cons_self ..)
    rw [hopen] at hword
    cases hword
  rw [List.cons_append, readAt]
  · exact fun _ heq => hc (List.cons.inj heq).1
  · exact fun _ heq => hc (List.cons.inj heq).1

theorem readAt_outer {text rest : List Char}
    (h : readAt n .inner (text ++ rest) = some (first, rest)) :
    readAt (n + 1) .outer (text ++ rest) =
      readOpen (readAt n .inner) (readAt n .outer) n first rest := by
  simp [readAt, h]

/-- After an opening parenthesis a type in an outer position is read, and what follows closes it. -/
theorem readAt_inner {text rest : List Char}
    (h : readAt n .outer (text ++ rest) = some (first, rest)) :
    readAt (n + 1) .inner ('(' :: (text ++ rest)) =
      readClosing (readAt n .outer) n first rest := by
  -- The text is not that of the empty tuple, for something has been read after the parenthesis.
  have hne : ∀ cs, text ++ rest ≠ ')' :: cs := by
    intro cs heq
    rw [heq, readAt_closing] at h
    cases h
  rw [readAt]
  · simp [h]
  · exact hne

variable {item element output : List Char → Option (Outline × List Char)} {result : Outline}
  {others : List Outline} {rest : List Char}

theorem readOpen_arrow (h : output cs = some (result, rest)) :
    readOpen item output n first ([' ', '-', '>', ' '] ++ cs) = some (.fn first result, rest) := by
  simp only [readOpen, after_append, h]
  rfl

theorem readOpen_bars (harrow : after [' ', '-', '>', ' '] cs = none)
    (h : readMany [' ', '|', ' '] item n cs = some (others, rest)) (hne : others ≠ []) :
    readOpen item output n first cs = some (.union (first :: others), rest) := by
  simp [readOpen, harrow, h, hne]

/-- What is followed by neither an arrow nor a bar stands alone. -/
theorem readOpen_of_stops (hcs : Stops .outer cs) :
    readOpen item output n first cs = some (first, cs) := by
  have hmany : readMany [' ', '|', ' '] item n cs = some ([], cs) := by
    cases n with
    | zero => rfl
    | succ n => simp [readMany, hcs.after_eq_none]
  simp [readOpen, hcs.after_eq_none, hmany]

theorem readClosing_elements
    (h : readMany [',', ' '] element n ([',', ' '] ++ cs) = some (others, ')' :: rest)) :
    readClosing element n first ([',', ' '] ++ cs) = some (.tuple (first :: others), rest) := by
  rw [List.cons_append, List.singleton_append] at h ⊢
  simp [readClosing, h]

end Reading

end Outline

namespace Ty

open Outline

variable {symbols : SymbolTable} {n m : Nat} {p : Position} {t i o : Ty} {items : List Ty}
  {cs : List Char}

def chars (symbols : SymbolTable) (p : Position) (t : Ty) : List Char :=
  (t.textAt ⟨symbols, []⟩ p).toList

section Characters

theorem toList_joinWith (separator s : String) (rest : List String) :
    (joinWith separator (s :: rest)).toList =
      s.toList ++ rest.flatMap fun s => separator.toList ++ s.toList := by
  induction rest generalizing s with
  | nil => simp [joinWith]
  | cons t rest ih => simp [joinWith, ih]

theorem chars_tuple_nil (p : Position) : chars symbols p (.tuple []) = ['(', ')'] := by
  simp [chars, textAt, textsAt, joinWith]

theorem chars_tuple_cons (p : Position) (t : Ty) (items : List Ty) :
    chars symbols p (.tuple (t :: items)) = '(' :: (chars symbols .outer t ++
      ((items.flatMap fun t => [',', ' '] ++ chars symbols .outer t) ++
        if items = [] then [',', ')'] else [')'])) := by
  cases items <;> simp [chars, textAt, textsAt, textsAt_eq_map, toList_joinWith, List.flatMap_map]

/-- In an inner position unions and functions stand in parentheses. -/
theorem chars_inner_union (items : List Ty) : chars symbols .inner (.union items) =
    '(' :: (chars symbols .outer (.union items) ++ [')']) := by
  simp [chars, textAt, Position.wrap]

theorem chars_inner_fn (i o : Ty) : chars symbols .inner (.fn i o) =
    '(' :: (chars symbols .outer (.fn i o) ++ [')']) := by
  simp [chars, textAt, Position.wrap]

theorem chars_outer_union (t : Ty) (items : List Ty) :
    chars symbols .outer (.union (t :: items)) = chars symbols .inner t ++
      items.flatMap fun t => [' ', '|', ' '] ++ chars symbols .inner t := by
  simp [chars, textAt, Position.wrap, textsAt_eq_map, toList_joinWith, List.flatMap_map]

theorem chars_outer_fn (i o : Ty) : chars symbols .outer (.fn i o) =
    chars symbols .inner i ++ ([' ', '-', '>', ' '] ++ chars symbols .outer o) := by
  simp [chars, textAt, Position.wrap]

end Characters

section Inversion

def ReadBack (symbols : SymbolTable) (n : Nat) (t : Ty) : Prop :=
  ∀ m, n ≤ m → ∀ p cs, Stops p cs →
    readAt m p (chars symbols p t ++ cs) = some (t.outline symbols, cs)

theorem ReadBack.mono (h : ReadBack symbols n t) (hnm : n ≤ m) : ReadBack symbols m t :=
  fun k hk => h k (Nat.le_trans hnm hk)

theorem exists_readBack_all (h : ∀ t ∈ items, ∃ n, ReadBack symbols n t) :
    ∃ n, ∀ t ∈ items, ReadBack symbols n t := by
  induction items with
  | nil => exact ⟨0, by simp⟩
  | cons t items ih =>
    obtain ⟨n, hn⟩ := h t (List.mem_cons_self ..)
    obtain ⟨m, hm⟩ := ih fun u hu => h u (List.mem_cons_of_mem t hu)
    refine ⟨max n m, fun u hu => ?_⟩
    rcases List.mem_cons.1 hu with rfl | hu
    · exact hn.mono (Nat.le_max_left n m)
    · exact (hm u hu).mono (Nat.le_max_right n m)

/-- Items with a mark before each are read one after the other. -/
theorem readMany_items (mark : List Char) (hitems : ∀ t ∈ items, ReadBack symbols n t) (hn : n ≤ m)
    (hmark : ∀ cs, Stops p (mark ++ cs)) (hcs : Stops p cs) (hend : after mark cs = none)
    {k : Nat} (hk : items.length ≤ k) :
    readMany mark (readAt m p) k ((items.flatMap fun t => mark ++ chars symbols p t) ++ cs) =
      some (outlines symbols items, cs) := by
  induction items generalizing k with
  | nil =>
    cases k with
    | zero => simp [readMany, outlines]
    | succ k => simp [readMany, hend, outlines]
  | cons t items ih =>
    cases k with
    | zero => simp at hk
    | succ k =>
      have hstop : Stops p ((items.flatMap fun t => mark ++ chars symbols p t) ++ cs) := by
        cases items with
        | nil => simpa using hcs
        | cons u items => simpa using hmark _
      have hfirst := hitems t (List.mem_cons_self ..) m hn p _ hstop
      have hrest := ih (fun u hu => hitems u (List.mem_cons_of_mem t hu)) (k := k)
        (by simpa using hk)
      simp [readMany, List.append_assoc, after_append, hfirst, hrest, outlines]

/-- A type that is written as one word is read back as what the word stands for. -/
theorem readBack_word {w : List Char} (hne : w ≠ []) (hw : ∀ c ∈ w, isWordChar c = true)
    (hchars : ∀ p, chars symbols p t = w) (houtline : ofWord w = t.outline symbols) :
    ReadBack symbols 2 t := by
  intro m hm p cs hcs
  obtain ⟨k, rfl⟩ : ∃ k, m = k + 2 := ⟨m - 2, by omega⟩
  rw [hchars, ← houtline]
  cases p with
  | inner => exact readAt_word hne hw hcs
  | outer => rw [readAt_outer (readAt_word hne hw hcs.inner), readOpen_of_stops hcs]

/-- A function is read back: its input ends at the arrow. -/
theorem readBack_fn (hi : ReadBack symbols n i) (ho : ReadBack symbols n o) :
    ReadBack symbols (n + 2) (.fn i o) := by
  have houter : ∀ m, n ≤ m → ∀ cs, Stops .outer cs →
      readAt (m + 1) .outer (chars symbols .outer (.fn i o) ++ cs) =
        some (outline symbols (.fn i o), cs) := by
    intro m hm cs hcs
    have hinput := hi m hm .inner ([' ', '-', '>', ' '] ++ (chars symbols .outer o ++ cs))
      (stops_blank _)
    have houtput := ho m hm .outer cs hcs
    rw [chars_outer_fn, List.append_assoc, List.append_assoc, readAt_outer hinput,
      readOpen_arrow houtput, outline]
  intro m hm p cs hcs
  obtain ⟨k, rfl⟩ : ∃ k, m = k + 2 := ⟨m - 2, by omega⟩
  cases p with
  | outer => exact houter (k + 1) (by omega) cs hcs
  | inner =>
    rw [chars_inner_fn, List.cons_append, List.append_assoc]
    have hinside := houter k (by omega) (')' :: cs) (stops_closing _ _)
    exact readAt_inner hinside

/-- A union is read back: each item ends at a bar, the last one where the union does. -/
theorem readBack_union (hitems : ∀ t ∈ items, ReadBack symbols n t) (htwo : 2 ≤ items.length) :
    ReadBack symbols (n + items.length + 2) (.union items) := by
  have houter : ∀ m, n + items.length ≤ m → ∀ cs, Stops .outer cs →
      readAt (m + 1) .outer (chars symbols .outer (.union items) ++ cs) =
        some (outline symbols (.union items), cs) := by
    intro m hm cs hcs
    obtain _ | ⟨t, _ | ⟨u, items⟩⟩ := items
    · simp at htwo
    · simp at htwo
    · let rest := ((u :: items).flatMap fun t => [' ', '|', ' '] ++ chars symbols .inner t) ++ cs
      have hfirst := hitems t (List.mem_cons_self ..) m (by omega) .inner rest (stops_blank _)
      have hothers := readMany_items [' ', '|', ' ']
        (fun u hu => hitems u (List.mem_cons_of_mem t hu)) (m := m) (by omega)
        (fun cs => stops_blank _) hcs.inner (hcs.after_eq_none _) (k := m)
        (by simp only [List.length_cons] at hm ⊢; omega)
      rw [chars_outer_union, List.append_assoc, readAt_outer hfirst,
        readOpen_bars rfl hothers (by simp [outlines])]
      simp only [outline, outlines]
  intro m hm p cs hcs
  obtain ⟨k, rfl⟩ : ∃ k, m = k + 2 := ⟨m - 2, by omega⟩
  cases p with
  | outer => exact houter (k + 1) (by omega) cs hcs
  | inner =>
    rw [chars_inner_union, List.cons_append, List.append_assoc]
    have hinside := houter k (by omega) (')' :: cs) (stops_closing _ _)
    exact readAt_inner hinside

/-- A tuple is read back, with the comma that marks a single element. -/
theorem readBack_tuple (hitems : ∀ t ∈ items, ReadBack symbols n t) :
    ReadBack symbols (n + items.length + 2) (.tuple items) := by
  -- A tuple brings its own parentheses and is written alike in both positions.
  have hinner : ∀ m, n + items.length ≤ m → ∀ p cs,
      readAt (m + 1) .inner (chars symbols p (.tuple items) ++ cs) =
        some (outline symbols (.tuple items), cs) := by
    intro m hm p cs
    obtain _ | ⟨t, items⟩ := items
    · simp [chars_tuple_nil, readAt, outline, outlines]
    · let rest := ((items.flatMap fun t => [',', ' '] ++ chars symbols .outer t) ++
        if items = [] then [',', ')'] else [')']) ++ cs
      have hstop : Stops .outer rest := by
        cases items <;> exact stops_comma _ _
      have hfirst := hitems t (List.mem_cons_self ..) m (by omega) .outer rest hstop
      rw [chars_tuple_cons, List.cons_append, List.append_assoc, readAt_inner hfirst]
      cases items with
      | nil => simp [rest, readClosing, outline, outlines]
      | cons u items =>
        have hothers := readMany_items [',', ' ']
          (fun u hu => hitems u (List.mem_cons_of_mem t hu)) (p := .outer) (m := m) (by omega)
          (fun cs => stops_comma _ _) (stops_closing _ cs) rfl (k := m)
          (by simp only [List.length_cons] at hm ⊢; omega)
        have hrest : rest = ((u :: items).flatMap fun t => [',', ' '] ++ chars symbols .outer t) ++
            ')' :: cs := by
          simp [rest]
        rw [hrest]
        exact (readClosing_elements hothers).trans (by simp only [outline, outlines])
  intro m hm p cs hcs
  obtain ⟨k, rfl⟩ : ∃ k, m = k + 2 := ⟨m - 2, by omega⟩
  cases p with
  | inner => exact hinner (k + 1) (by omega) _ cs
  | outer => rw [readAt_outer (hinner k (by omega) _ cs), readOpen_of_stops hcs]

end Inversion

section Legibility

def WellWritten (symbols : SymbolTable) : Ty → Prop
  | .union items => 2 ≤ items.length
  | .struct nominal => IsNominalName (symbols.display nominal.name)
  | .interface name => IsNominalName (symbols.display name)
  | .enum nominal _ => IsNominalName (symbols.display nominal.name)
  | _ => True

def Legible (symbols : SymbolTable) (t : Ty) : Prop :=
  ∀ u ∈ t.subterms, u.WellWritten symbols

theorem legible_leaf (hleaf : t.isLeaf) : t.Legible symbols ↔ t.WellWritten symbols := by
  simp [Legible, subterms_leaf hleaf]

theorem legible_tuple : (tuple items).Legible symbols ↔ ∀ t ∈ items, t.Legible symbols := by
  simp only [Legible, subterms, List.forall_mem_cons, WellWritten, true_and, mem_subtermsAll]
  exact ⟨fun h t ht u hu => h u ⟨t, ht, hu⟩, fun h u ⟨t, ht, hu⟩ => h t ht u hu⟩

theorem legible_union : (union items).Legible symbols ↔
    2 ≤ items.length ∧ ∀ t ∈ items, t.Legible symbols := by
  simp only [Legible, subterms, List.forall_mem_cons, WellWritten, mem_subtermsAll]
  refine and_congr_right fun _ => ?_
  exact ⟨fun h t ht u hu => h u ⟨t, ht, hu⟩, fun h u ⟨t, ht, hu⟩ => h t ht u hu⟩

theorem legible_fn : (fn i o).Legible symbols ↔ i.Legible symbols ∧ o.Legible symbols := by
  simp [Legible, subterms, WellWritten, or_imp, forall_and]

theorem readBack_nominal {name : String} (hname : IsNominalName name)
    (hchars : ∀ p, chars symbols p t = name.toList) (houtline : t.outline symbols = .named name) :
    ReadBack symbols 2 t := by
  have hne : name.toList ≠ [] := by
    obtain ⟨c, hc, _⟩ := hname.notLower
    exact List.ne_nil_of_mem hc
  have hword : ∀ c ∈ name.toList, isWordChar c = true := fun c hc =>
    isWordChar_of_isIdentifierChar (hname.identifier c hc)
  exact readBack_word hne hword hchars ((ofWord_nominal hname).trans houtline.symm)

theorem readBack_var (v : TyVar) : ReadBack symbols 2 (.var v) := by
  refine readBack_word (TyVar.letters_ne_nil v.index) (fun c hc => ?_) (fun p => ?_)
    (ofWord_letters v.index)
  · have halpha : c.isAlphanum = true := by
      change (c.isUpper || c.isLower || c.isDigit) = true
      simp [TyVar.isLower_of_mem_letters hc]
    exact isWordChar_of_isIdentifierChar (by simp [isIdentifierChar, halpha])
  · simp [chars, textAt, Naming.variable, TyVar.toList_name]

theorem readBack_prim (p : Prim) : ReadBack symbols 2 (.prim p) := by
  have hne : p.name.toList ≠ [] := by cases p <;> decide
  have hword : p.name.toList.all isWordChar = true := by cases p <;> decide
  exact readBack_word hne (List.all_eq_true.1 hword) (fun _ => by simp [chars, textAt])
    (ofWord_prim p)

theorem readBack_bottom : ReadBack symbols 2 .bottom :=
  readBack_word (w := ['!']) (by decide) (List.all_eq_true.1 (by decide))
    (fun _ => by simp [chars, textAt]) rfl

/-- A type without parts is read back as a word. -/
theorem readBack_leaf (hleaf : t.isLeaf) (h : t.WellWritten symbols) : ReadBack symbols 2 t := by
  cases t with
  | prim p => exact readBack_prim p
  | bottom => exact readBack_bottom
  | struct nominal => exact readBack_nominal h (fun _ => by simp [chars, textAt]) rfl
  | interface name => exact readBack_nominal h (fun _ => by simp [chars, textAt]) rfl
  | enum nominal tags => exact readBack_nominal h (fun _ => by simp [chars, textAt]) rfl
  | var v => cases hleaf
  | tuple items => cases hleaf
  | union items => cases hleaf
  | fn i o => cases hleaf

/-- Every legible type is read back from its text. -/
theorem exists_readBack (h : t.Legible symbols) : ∃ n, ReadBack symbols n t := by
  induction t with
  | var v => exact ⟨2, readBack_var v⟩
  | leaf t ht => exact ⟨2, readBack_leaf ht ((legible_leaf ht).1 h)⟩
  | tuple items ih =>
    obtain ⟨n, hn⟩ := exists_readBack_all fun t ht => ih t ht (legible_tuple.1 h t ht)
    exact ⟨_, readBack_tuple hn⟩
  | union items ih =>
    obtain ⟨htwo, hitems⟩ := legible_union.1 h
    obtain ⟨n, hn⟩ := exists_readBack_all fun t ht => ih t ht (hitems t ht)
    exact ⟨_, readBack_union hn htwo⟩
  | fn i o ihi iho =>
    obtain ⟨hinput, houtput⟩ := legible_fn.1 h
    obtain ⟨n, hn⟩ := ihi hinput
    obtain ⟨m, hm⟩ := iho houtput
    exact ⟨_, readBack_fn (hn.mono (Nat.le_max_left n m)) (hm.mono (Nat.le_max_right n m))⟩

end Legibility

/-- Types with the same text are the same once every nominal type is replaced by its name, as long
as their unions have two items and their names are neither those of primitive types nor those of
variables. -/
theorem text_unambiguous {a b : Ty} (symbols others : SymbolTable) (ha : a.Legible symbols)
    (hb : b.Legible others) (h : a.text symbols = b.text others) :
    a.outline symbols = b.outline others := by
  obtain ⟨n, hn⟩ := exists_readBack ha
  obtain ⟨m, hm⟩ := exists_readBack hb
  have hchars : chars symbols .outer a = chars others .outer b := congrArg String.toList h
  have hreada := hn (max n m) (Nat.le_max_left n m) .outer [] (stops_nil _)
  have hreadb := hm (max n m) (Nat.le_max_right n m) .outer [] (stops_nil _)
  rw [hchars, hreadb, Option.some.injEq, Prod.mk.injEq] at hreada
  exact hreada.1.symm

/-- Takes a point or a number to a one-tuple of points, for some type of points. -/
def lifted (point : Ty) : Ty := .fn (.union [point, .prim .number]) (.tuple [point])

def pointSymbols : SymbolTable := ⟨#["Point"]⟩

theorem isNominalName_point : IsNominalName (pointSymbols.display ⟨1⟩) := by
  have hname : (pointSymbols.display ⟨1⟩).toList = ['P', 'o', 'i', 'n', 't'] := by decide
  exact {
    identifier := by
      rw [hname]
      exact List.all_eq_true.1 (by decide)
    noDigit := by
      rw [hname]
      intro c hc
      cases hc
      decide
    notPrim := fun p => by cases p <;> decide
    notLower := ⟨'P', by simp [hname], by decide⟩ }

/-- Points declared as a structure and points declared as an interface are written alike, and are
the same by name. -/
theorem text_unambiguous_lifted :
    (lifted (.struct ⟨⟨1⟩, ⟨4⟩, none⟩)).text pointSymbols = "(Point | Number) -> (Point,)" ∧
      (lifted (.struct ⟨⟨1⟩, ⟨4⟩, none⟩)).outline pointSymbols =
        (lifted (.interface ⟨1⟩)).outline pointSymbols := by
  have hlegible : ∀ point : Ty, point.isLeaf → point.WellWritten pointSymbols →
      (lifted point).Legible pointSymbols := by
    intro point hleaf hpoint
    have hpart := (legible_leaf hleaf).2 hpoint
    have hnumber : (prim .number).Legible pointSymbols := (legible_leaf rfl).2 trivial
    simp [lifted, legible_fn, legible_union, legible_tuple, hpart, hnumber]
  refine ⟨by decide, text_unambiguous pointSymbols pointSymbols ?_ ?_ (by decide)⟩
  · exact hlegible _ rfl isNominalName_point
  · exact hlegible _ rfl isNominalName_point

end Ty

end SemanticAnalysis
