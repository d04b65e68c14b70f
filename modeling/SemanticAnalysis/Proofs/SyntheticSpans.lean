import SemanticAnalysis.Proofs.PushedForests

/-!
The spans of nodes that were pushed without one. The cursor of a draft stays at or
behind the end of every node, whatever spans were given to nodes in between. A node
without children is put at the cursor, after all nodes before it, and any other one
covers its children.
-/

namespace SemanticAnalysis

namespace Span

variable {a b c : Span} {spans : List Span}

def Overlaps (a b : Span) : Prop := ∃ i, (a.start ≤ i ∧ i < a.stop) ∧ b.start ≤ i ∧ i < b.stop

theorem contains_iff : a.contains b = true ↔ a.start ≤ b.start ∧ b.stop ≤ a.stop := by
  simp [contains]

theorem contains_refl (a : Span) : a.contains a = true := by
  simp [contains_iff]

theorem contains_trans (hab : a.contains b = true) (hbc : b.contains c = true) :
    a.contains c = true := by
  rw [contains_iff] at *
  omega

theorem contains_join_left (a b : Span) : (a.join b).contains a = true := by
  simp only [contains_iff, join]
  omega

theorem contains_join_right (a b : Span) : (a.join b).contains b = true := by
  simp only [contains_iff, join]
  omega

theorem contains_foldl_join (a : Span) (spans : List Span) :
    (spans.foldl join a).contains a = true ∧
      ∀ b ∈ spans, (spans.foldl join a).contains b = true := by
  induction spans generalizing a with
  | nil => exact ⟨contains_refl a, by simp⟩
  | cons b rest ih =>
    obtain ⟨hstart, hrest⟩ := ih (a.join b)
    rw [List.foldl_cons, List.forall_mem_cons]
    exact ⟨contains_trans hstart (contains_join_left a b),
      contains_trans hstart (contains_join_right a b), hrest⟩

theorem exists_hull (hb : b ∈ spans) : ∃ a, hull spans = some a := by
  cases spans with
  | nil => simp at hb
  | cons c rest => exact ⟨_, rfl⟩

/-- The hull of some spans contains each of them. -/
theorem contains_of_hull (h : hull spans = some a) (hb : b ∈ spans) : a.contains b = true := by
  cases spans with
  | nil => simp at hb
  | cons c rest =>
    obtain rfl := Option.some.inj h
    obtain ⟨hstart, hrest⟩ := contains_foldl_join c rest
    rcases List.mem_cons.1 hb with rfl | hb
    · exact hstart
    · exact hrest b hb

end Span

namespace Draft

variable {d d' : Draft} {call : Call} {calls : List Call} {e : Entry} {es : List Entry}
  {n m c : NodeId}

section SyntheticSpan

variable {kind : Kind}

theorem contains_syntheticSpan (hc : c ∈ kind.children) :
    (d.syntheticSpan kind).contains (d.forest.span c) = true := by
  have hmem : d.forest.span c ∈ kind.children.map d.forest.span := List.mem_map_of_mem hc
  obtain ⟨a, ha⟩ := Span.exists_hull hmem
  rw [syntheticSpan, ha, Option.getD_some]
  exact Span.contains_of_hull ha hmem

theorem syntheticSpan_of_childless (h : kind.children = []) :
    d.syntheticSpan kind = ⟨d.cursor, d.cursor + 1⟩ := by
  simp [syntheticSpan, h, Span.hull]

end SyntheticSpan

/-- The spans of nodes: as they were given, around the children, or after all nodes before. -/
structure Spanned (es : List Entry) (d : Draft) : Prop extends Holds es d where
  given : ∀ n k s, es[n.index]? = some ⟨k, some s⟩ → d.forest.span n = s
  around : ∀ n k, es[n.index]? = some ⟨k, none⟩ → ∀ c ∈ k.children,
    (d.forest.span n).contains (d.forest.span c) = true
  after : ∀ n k, es[n.index]? = some ⟨k, none⟩ → k.children = [] →
    (d.forest.span n).stop = (d.forest.span n).start + 1 ∧
      ∀ m, m.index < n.index → (d.forest.span m).stop ≤ (d.forest.span n).start
  stop_le : ∀ n, (d.forest.span n).stop ≤ d.cursor

theorem spanned_empty : Spanned [] empty where
  toHolds := holds_empty
  given := by simp
  around := by simp
  after := by simp
  stop_le n := by simp [empty, Forest.empty, Forest.span, Forest.node?]

/-- A push moves no other span, and the cursor not behind any. -/
theorem Spanned.after_push (hd : Spanned es d) {hc : ∀ c ∈ e.kind.children, c.index < d.forest.size}
    (hforest : d'.forest = d.forest.push e.kind (d.spanOf e) hc)
    (hcursor : d'.cursor = max d.cursor (d.spanOf e).stop) (hholds : Holds (es ++ [e]) d') :
    Spanned (es ++ [e]) d' := by
  have hnew : ∀ n : NodeId, n.index = es.length → d'.forest.span n = d.spanOf e := by
    intro n hn
    rw [hforest, Forest.span_push, if_pos (hn.trans hd.size.symm)]
  have hold : ∀ n : NodeId, n.index < es.length → d'.forest.span n = d.forest.span n := by
    intro n hn
    rw [hforest, Forest.span_push, if_neg (hd.size ▸ Nat.ne_of_lt hn)]
  refine { hholds with given := ?given, around := ?around, after := ?after, stop_le := ?stop_le }
  case given =>
    intro n k s hn
    rcases getElem?_concat_cases hn with ⟨hi, rfl⟩ | ⟨hlt, hn⟩
    · exact hnew n hi
    · exact (hold n hlt).trans (hd.given n k s hn)
  case around =>
    intro n k hn c hmem
    rcases getElem?_concat_cases hn with ⟨hi, rfl⟩ | ⟨hlt, hn⟩
    · rw [hnew n hi, hold c (hd.size ▸ hc c hmem)]
      exact contains_syntheticSpan hmem
    · have hk : d.forest.kind? n = some k := by rw [hd.kind, hn, Option.map_some]
      have hcn := Forest.index_lt_of_kind hk hmem
      rw [hold n hlt, hold c (Nat.lt_trans hcn hlt)]
      exact hd.around n k hn c hmem
  case after =>
    intro n k hn hk
    rcases getElem?_concat_cases hn with ⟨hi, rfl⟩ | ⟨hlt, hn⟩
    · -- the new node starts at the cursor, which no earlier node is beyond
      have hspan : d'.forest.span n = ⟨d.cursor, d.cursor + 1⟩ :=
        (hnew n hi).trans (syntheticSpan_of_childless hk)
      rw [hspan]
      refine ⟨rfl, fun m hm => ?_⟩
      rw [hold m (hi ▸ hm)]
      exact hd.stop_le m
    · obtain ⟨hlength, hbefore⟩ := hd.after n k hn hk
      rw [hold n hlt]
      refine ⟨hlength, fun m hm => ?_⟩
      rw [hold m (Nat.lt_trans hm hlt)]
      exact hbefore m hm
  case stop_le =>
    intro n
    rw [hcursor, hforest, Forest.span_push]
    split
    · exact Nat.le_max_right _ _
    · exact Nat.le_trans (hd.stop_le n) (Nat.le_max_left _ _)

theorem Spanned.after_call (hd : Spanned es d) (h : d.call? call = some d') :
    Spanned (es ++ call.entry?.toList) d' := by
  have hholds := hd.toHolds.after_call h
  rcases call?_cases h with ⟨he, hforest, hcursor⟩ | ⟨e, hc, he, hforest, hcursor⟩
  · rw [he, Option.toList_none, List.append_nil] at hholds ⊢
    exact ⟨hholds, hforest ▸ hd.given, hforest ▸ hd.around, hforest ▸ hd.after,
      hforest ▸ hcursor ▸ hd.stop_le⟩
  · rw [he, Option.toList_some] at hholds ⊢
    exact hd.after_push hforest hcursor hholds

theorem Spanned.after_calls (hd : Spanned es d) (h : d.calls? calls = some d') :
    Spanned (es ++ entries calls) d' :=
  calls_induction h hd fun _ _ _ _ => Spanned.after_call

section Nodes

def Synthetic (es : List Entry) (n : NodeId) : Prop := ∃ k, es[n.index]? = some ⟨k, none⟩

theorem Spanned.contains_child (hd : Spanned es d) (hn : Synthetic es n)
    (hc : c ∈ d.forest.children n) : (d.forest.span n).contains (d.forest.span c) = true := by
  obtain ⟨k, hk⟩ := hn
  exact hd.around n k hk c (by simpa [hd.children, hk] using hc)

theorem Spanned.contains_below (hd : Spanned es d)
    (h : ∀ m ∈ d.forest.walkFrom n, Synthetic es m) (hm : m ∈ d.forest.walkFrom n) :
    (d.forest.span n).contains (d.forest.span m) = true := by
  induction n using Forest.childInduction (f := d.forest) with
  | step n ih =>
    rcases Forest.mem_walkFrom_iff.1 hm with rfl | ⟨c, hc, hm⟩
    · exact Span.contains_refl _
    · have hbelow := ih c hc (fun m hm => h m (Forest.mem_walkFrom_of_child hc hm)) hm
      have hn := h n (Forest.self_mem_walkFrom _ n)
      exact Span.contains_trans (hd.contains_child hn hc) hbelow

theorem Spanned.follows (hd : Spanned es d) (hn : Synthetic es n)
    (hchildless : d.forest.children n = []) :
    (d.forest.span n).stop = (d.forest.span n).start + 1 ∧
      ∀ m, m.index < n.index → (d.forest.span m).stop ≤ (d.forest.span n).start := by
  obtain ⟨k, hk⟩ := hn
  exact hd.after n k hk (by simpa [hd.children, hk] using hchildless)

/-- Of two childless nodes that were pushed without a span the later one is after the other. -/
theorem Spanned.not_overlaps (hd : Spanned es d) (hne : m ≠ n) (hm : Synthetic es m)
    (hn : Synthetic es n) (hcm : d.forest.children m = []) (hcn : d.forest.children n = []) :
    ¬ (d.forest.span m).Overlaps (d.forest.span n) := by
  have hindex : m.index ≠ n.index := fun h => hne (NodeId.ext h)
  intro hoverlaps
  obtain ⟨i, hi, hi'⟩ := hoverlaps
  rcases Nat.lt_or_gt_of_ne hindex with h | h
  · have hle := (hd.follows hn hcn).2 m h
    omega
  · have hle := (hd.follows hm hcm).2 n h
    omega

end Nodes

/-- Synthetic spans nest and do not overlap. Calls go through if every entry names earlier ones
only. Whatever spans are given to nodes in between, a node pushed without one then contains its
children, and all nodes below it if none of those was given a span either. If it has no children
then it covers one byte, at or after the end of every node before it, so that two such nodes have no
byte in common. -/
theorem synthetic_spans_nest (calls : List Call) :
    ((∃ d, empty.calls? calls = some d) ↔ NamesEarlier (entries calls)) ∧
    ∀ d, empty.calls? calls = some d → Holds (entries calls) d ∧
      (∀ n k s, (entries calls)[n.index]? = some ⟨k, some s⟩ → d.forest.span n = s) ∧
      (∀ n, Synthetic (entries calls) n → ∀ c ∈ d.forest.children n,
        (d.forest.span n).contains (d.forest.span c) = true) ∧
      (∀ n, (∀ m ∈ d.forest.walkFrom n, Synthetic (entries calls) m) →
        ∀ m ∈ d.forest.walkFrom n, (d.forest.span n).contains (d.forest.span m) = true) ∧
      (∀ n, Synthetic (entries calls) n → d.forest.children n = [] →
        (d.forest.span n).stop = (d.forest.span n).start + 1 ∧
          ∀ m, m.index < n.index → (d.forest.span m).stop ≤ (d.forest.span n).start) ∧
      (∀ m n, m ≠ n → Synthetic (entries calls) m → Synthetic (entries calls) n →
        d.forest.children m = [] → d.forest.children n = [] →
        ¬ (d.forest.span m).Overlaps (d.forest.span n)) := by
  refine ⟨exists_calls_iff, fun d hd => ?_⟩
  have hspanned : Spanned (entries calls) d := spanned_empty.after_calls hd
  exact ⟨hspanned.toHolds, hspanned.given, fun _ hn _ hc => hspanned.contains_child hn hc,
    fun _ hn _ hm => hspanned.contains_below hn hm, fun _ hn hc => hspanned.follows hn hc,
    fun _ _ hne hm hn hcm hcn => hspanned.not_overlaps hne hm hn hcm hcn⟩

/-- Two numbers in a tuple in a block, with a number in between whose span ends before it starts. -/
def spacedCalls : List Call :=
  [.push (.number "1"), .pushAt ⟨9, 4⟩ (.number "2"), .push (.number "3"),
    .push (.tuple [⟨0⟩, ⟨2⟩]), .push (.block [⟨3⟩]), .push (.tuple [⟨1⟩, ⟨4⟩])]

theorem synthetic_spans_nest_spaced : NamesEarlier (entries spacedCalls) ∧
    ∃ d, empty.calls? spacedCalls = some d ∧
      d.forest.walkFrom ⟨4⟩ = [⟨4⟩, ⟨3⟩, ⟨0⟩, ⟨2⟩] ∧ d.forest.span ⟨1⟩ = ⟨9, 4⟩ ∧
      (d.forest.span ⟨4⟩).contains (d.forest.span ⟨2⟩) = true ∧
      (d.forest.span ⟨1⟩).stop ≤ (d.forest.span ⟨2⟩).start ∧
      ¬ (d.forest.span ⟨0⟩).Overlaps (d.forest.span ⟨2⟩) := by
  have hnames : NamesEarlier (entries spacedCalls) := by decide
  obtain ⟨hexists, hspans⟩ := synthetic_spans_nest spacedCalls
  obtain ⟨d, hd⟩ := hexists.2 hnames
  obtain ⟨hholds, hgiven, -, hbelow, hafter, hapart⟩ := hspans d hd
  have hwalk : (empty.calls? spacedCalls).map (fun d => d.forest.walkFrom ⟨4⟩) =
      some [⟨4⟩, ⟨3⟩, ⟨0⟩, ⟨2⟩] := by decide +kernel
  rw [hd, Option.map_some, Option.some.injEq] at hwalk
  have hsynthetic : ∀ m ∈ d.forest.walkFrom ⟨4⟩, Synthetic (entries spacedCalls) m := by
    rw [hwalk]
    simp [Synthetic, entries, spacedCalls, Call.entry?]
  have hleaf : d.forest.children ⟨0⟩ = [] ∧ d.forest.children ⟨2⟩ = [] := by
    rw [hholds.children, hholds.children]
    exact ⟨rfl, rfl⟩
  refine ⟨hnames, d, hd, hwalk, hgiven ⟨1⟩ _ _ rfl, ?_, ?_, ?_⟩
  · exact hbelow ⟨4⟩ hsynthetic ⟨2⟩ (by simp [hwalk])
  · exact (hafter ⟨2⟩ ⟨_, rfl⟩ hleaf.2).2 ⟨1⟩ (by decide)
  · exact hapart ⟨0⟩ ⟨2⟩ (by decide) ⟨_, rfl⟩ ⟨_, rfl⟩ hleaf.1 hleaf.2

end Draft

end SemanticAnalysis
