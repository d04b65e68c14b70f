import SemanticAnalysis.Proofs.Walks

/-!
Forests as they are pushed. A draft takes calls one after another, and the nodes of
its forest are the entries that were pushed, in order, each with the last entry that
names it for its parent. If every entry names earlier ones only then all calls go
through, and walks down the forest and climbs towards its roots end and match.
-/

namespace SemanticAnalysis

namespace Forest

variable {f : Forest} {kind : Kind} {span : Span} {h : ∀ c ∈ kind.children, c.index < f.size}
  {n c p : NodeId}

section Pushes

theorem size_push : (f.push kind span h).size = f.size + 1 := by
  simp [size, push, pushed, size_adopt]

/-- A push changes the kind and the span of no other node. -/
theorem map_node?_push {α : Type} (g : Kind → Span → α) (n : NodeId) :
    ((f.push kind span h).node? n).map (fun node => g node.kind node.span) =
      if n.index = f.size then some (g kind span)
      else (f.node? n).map fun node => g node.kind node.span := by
  rw [node?, push, getElem?_pushed, node?, size]
  by_cases hn : n.index = f.nodes.size
  · rw [if_pos hn, if_pos hn, Option.map_some]
  · rw [if_neg hn, if_neg hn]
    cases f.nodes[n.index]? with
    | none => rfl
    | some node => by_cases hc : (⟨n.index⟩ : NodeId) ∈ kind.children <;> simp [hc]

theorem kind?_push (n : NodeId) :
    (f.push kind span h).kind? n = if n.index = f.size then some kind else f.kind? n :=
  map_node?_push (fun k _ => k) n

theorem span_push (n : NodeId) :
    (f.push kind span h).span n = if n.index = f.size then span else f.span n := by
  rw [Forest.span, map_node?_push (fun _ s => s) n]
  by_cases hn : n.index = f.size
  · rw [if_pos hn, if_pos hn, Option.getD_some]
  · rw [if_neg hn, if_neg hn, Forest.span]

end Pushes

section Climbs

/-- The parent of a node is the last node that names it. -/
theorem parent?_eq_some_iff : f.parent? c = some p ↔
    c ∈ f.children p ∧ ∀ n, c ∈ f.children n → n.index ≤ p.index := by
  constructor
  · intro hp
    refine ⟨mem_children_of_parent? hp, fun n hn => ?_⟩
    obtain ⟨q, hq, hle⟩ := exists_parent_of_mem hn
    obtain rfl := Option.some.inj (hp.symm.trans hq)
    exact hle
  · intro hp
    obtain ⟨q, hq, hle⟩ := exists_parent_of_mem hp.1
    have hle' := hp.2 q (mem_children_of_parent? hq)
    rw [hq, NodeId.ext (Nat.le_antisymm hle' hle)]

def Climbs (f : Forest) (path : List NodeId) : Prop :=
  path.IsChain (fun c p => f.parent? c = some p) ∧ ∀ top ∈ path.getLast?, f.parent? top = none

theorem climbs_ancestors (f : Forest) (n : NodeId) : f.Climbs (n :: f.ancestors n) := by
  induction n using parentInduction (f := f) with
  | top n hn => simp [Climbs, ancestors_of_none hn, hn]
  | step n p hn ih =>
    rw [ancestors_of_parent? hn]
    exact ⟨List.isChain_cons_cons.2 ⟨hn, ih.1⟩, by simpa using ih.2⟩

end Climbs

end Forest

namespace Draft

structure Entry where
  kind : Kind
  span? : Option Span

inductive Call where
  | intern (name : String)
  | push (kind : Kind)
  | pushAt (span : Span) (kind : Kind)

def Call.entry? : Call → Option Entry
  | .intern _ => none
  | .push kind => some ⟨kind, none⟩
  | .pushAt span kind => some ⟨kind, some span⟩

def entries (calls : List Call) : List Entry := calls.filterMap Call.entry?

def call? (d : Draft) : Call → Option Draft
  | .intern name => some (d.intern name).2
  | .push kind => (d.push? kind).map Prod.snd
  | .pushAt span kind => (d.pushAt? span kind).map Prod.snd

def calls? (d : Draft) : List Call → Option Draft
  | [] => some d
  | call :: rest => (d.call? call).bind fun d' => d'.calls? rest

def syntheticSpan (d : Draft) (kind : Kind) : Span :=
  (Span.hull (kind.children.map d.forest.span)).getD ⟨d.cursor, d.cursor + 1⟩

def spanOf (d : Draft) (e : Entry) : Span := e.span?.getD (d.syntheticSpan e.kind)

variable {d d' : Draft} {call : Call} {calls : List Call} {e : Entry} {es : List Entry}

section Calls

/-- A byte that is taken before the node is pushed would be taken by pushing it. -/
theorem push?_eq_pushAt? (d : Draft) (kind : Kind) :
    d.push? kind = d.pushAt? (d.syntheticSpan kind) kind := by
  rw [push?, syntheticSpan]
  cases Span.hull (kind.children.map d.forest.span) with
  | some span => rfl
  | none => simp [pushAt?]

theorem eq_of_pushAt? {span : Span} {kind : Kind}
    (h : (d.pushAt? span kind).map Prod.snd = some d') :
    ∃ hc : ∀ c ∈ kind.children, c.index < d.forest.size,
      d'.forest = d.forest.push kind span hc ∧ d'.cursor = max d.cursor span.stop := by
  by_cases hc : ∀ c ∈ kind.children, c.index < d.forest.size
  · rw [pushAt?, dif_pos hc, Option.map_some] at h
    obtain rfl := Option.some.inj h
    exact ⟨hc, rfl, rfl⟩
  · simp [pushAt?, hc] at h

/-- A call pushes a node at the span it gets, or leaves the nodes and the cursor alone. -/
theorem call?_cases (h : d.call? call = some d') :
    (call.entry? = none ∧ d'.forest = d.forest ∧ d'.cursor = d.cursor) ∨
    ∃ e, ∃ hc : ∀ c ∈ e.kind.children, c.index < d.forest.size, call.entry? = some e ∧
      d'.forest = d.forest.push e.kind (d.spanOf e) hc ∧
      d'.cursor = max d.cursor (d.spanOf e).stop := by
  cases call with
  | intern name =>
    obtain rfl := Option.some.inj h
    exact Or.inl ⟨rfl, rfl, rfl⟩
  | push kind =>
    rw [call?, push?_eq_pushAt?] at h
    obtain ⟨hc, hd⟩ := eq_of_pushAt? h
    exact Or.inr ⟨⟨kind, none⟩, hc, rfl, hd⟩
  | pushAt span kind =>
    obtain ⟨hc, hd⟩ := eq_of_pushAt? h
    exact Or.inr ⟨⟨kind, some span⟩, hc, rfl, hd⟩

/-- A call goes through if the node it pushes names only nodes that are there. -/
theorem exists_call (h : ∀ e ∈ call.entry?, ∀ c ∈ e.kind.children, c.index < d.forest.size) :
    ∃ d', d.call? call = some d' := by
  cases call with
  | intern name => exact ⟨_, rfl⟩
  | push kind =>
    rw [call?, push?_eq_pushAt?, pushAt?, dif_pos (h _ rfl), Option.map_some]
    exact ⟨_, rfl⟩
  | pushAt span kind =>
    rw [call?, pushAt?, dif_pos (h _ rfl), Option.map_some]
    exact ⟨_, rfl⟩

theorem entries_cons (call : Call) (calls : List Call) :
    entries (call :: calls) = call.entry?.toList ++ entries calls := by
  cases h : call.entry? <;> simp [entries, h]

/-- What every call keeps, all calls keep. -/
theorem calls_induction {motive : List Entry → Draft → Prop} (h : d.calls? calls = some d')
    (start : motive es d)
    (step : ∀ es d call d', motive es d → d.call? call = some d' →
      motive (es ++ call.entry?.toList) d') : motive (es ++ entries calls) d' := by
  induction calls generalizing es d with
  | nil =>
    obtain rfl : d = d' := by simpa [calls?] using h
    simpa [entries] using start
  | cons call rest ih =>
    obtain ⟨d₁, hcall, hrest⟩ := Option.bind_eq_some_iff.1 h
    rw [entries_cons, ← List.append_assoc]
    exact ih hrest (step es d call d₁ start hcall)

end Calls

structure Holds (es : List Entry) (d : Draft) : Prop where
  size : d.forest.size = es.length
  kind : ∀ n, d.forest.kind? n = es[n.index]?.map Entry.kind

def NamesEarlier (es : List Entry) : Prop :=
  ∀ p ∈ es.zipIdx, ∀ c ∈ p.1.kind.children, c.index < p.2

instance (es : List Entry) : Decidable (NamesEarlier es) :=
  inferInstanceAs (Decidable (∀ p ∈ es.zipIdx, ∀ c ∈ p.1.kind.children, c.index < p.2))

section Entries

theorem NamesEarlier.index_lt (h : NamesEarlier es) {i : Nat} (he : es[i]? = some e) {c : NodeId}
    (hc : c ∈ e.kind.children) : c.index < i :=
  h (e, i) (List.mk_mem_zipIdx_iff_getElem?.2 he) c hc

theorem getElem?_concat (es : List Entry) (e : Entry) (i : Nat) :
    (es ++ [e])[i]? = if i = es.length then some e else es[i]? := by
  by_cases hi : i < es.length
  · rw [List.getElem?_append_left hi, if_neg (Nat.ne_of_lt hi)]
  · by_cases heq : i = es.length
    · simp [heq]
    · have hlen : (es ++ [e]).length ≤ i := by
        rw [List.length_append, List.length_singleton]
        omega
      rw [if_neg heq, List.getElem?_eq_none hlen, List.getElem?_eq_none (by omega)]

theorem getElem?_concat_cases {e' : Entry} {i : Nat} (h : (es ++ [e])[i]? = some e') :
    i = es.length ∧ e' = e ∨ i < es.length ∧ es[i]? = some e' := by
  rw [getElem?_concat] at h
  by_cases hi : i = es.length
  · rw [if_pos hi] at h
    exact Or.inl ⟨hi, (Option.some.inj h).symm⟩
  · rw [if_neg hi] at h
    exact Or.inr ⟨(List.getElem?_eq_some_iff.1 h).1, h⟩

theorem holds_empty : Holds [] empty where
  size := rfl
  kind n := by simp [empty, Forest.empty, Forest.kind?, Forest.node?]

theorem Holds.after_call (hd : Holds es d) (h : d.call? call = some d') :
    Holds (es ++ call.entry?.toList) d' := by
  rcases call?_cases h with ⟨he, hforest, -⟩ | ⟨e, hc, he, hforest, -⟩
  · rw [he, Option.toList_none, List.append_nil]
    exact ⟨hforest ▸ hd.size, hforest ▸ hd.kind⟩
  · rw [he, Option.toList_some]
    refine ⟨?_, fun n => ?_⟩
    · rw [hforest, Forest.size_push, hd.size, List.length_append, List.length_singleton]
    · rw [hforest, Forest.kind?_push, hd.kind, hd.size]
      rw [getElem?_concat, apply_ite (Option.map Entry.kind), Option.map_some]

theorem Holds.after_calls (hd : Holds es d) (h : d.calls? calls = some d') :
    Holds (es ++ entries calls) d' :=
  calls_induction h hd fun _ _ _ _ => Holds.after_call

/-- All calls go through if every entry names earlier ones only. -/
theorem Holds.exists_calls (hd : Holds es d) (h : NamesEarlier (es ++ entries calls)) :
    ∃ d', d.calls? calls = some d' := by
  induction calls generalizing es d with
  | nil => exact ⟨d, rfl⟩
  | cons call rest ih =>
    rw [entries_cons, ← List.append_assoc] at h
    have hcall : ∀ e ∈ call.entry?, ∀ c ∈ e.kind.children, c.index < d.forest.size := by
      intro e he c hc
      rw [hd.size]
      refine h.index_lt (e := e) ?_ hc
      rw [Option.mem_def.1 he]
      simp
    obtain ⟨d₁, hd₁⟩ := exists_call hcall
    obtain ⟨d', hd'⟩ := ih (hd.after_call hd₁) h
    exact ⟨d', by rw [calls?, hd₁, Option.bind_some, hd']⟩

theorem Holds.namesEarlier (hd : Holds es d) : NamesEarlier es := by
  intro p hp c hc
  have hk : d.forest.kind? ⟨p.2⟩ = some p.1.kind := by
    rw [hd.kind, List.mk_mem_zipIdx_iff_getElem?.1 hp, Option.map_some]
  exact Forest.index_lt_of_kind hk hc

theorem exists_calls_iff :
    (∃ d, empty.calls? calls = some d) ↔ NamesEarlier (entries calls) := by
  constructor
  · intro hd
    obtain ⟨d, hd⟩ := hd
    exact (holds_empty.after_calls hd).namesEarlier
  · exact holds_empty.exists_calls

theorem Holds.children (hd : Holds es d) (n : NodeId) :
    d.forest.children n = (es[n.index]?.map fun e => e.kind.children).getD [] := by
  rw [Forest.children, hd.kind, Option.map_map]
  rfl

/-- The children of all nodes are those that the entries name. -/
theorem Holds.flatMap_children (hd : Holds es d) :
    d.forest.ids.flatMap d.forest.children = es.flatMap fun e => e.kind.children := by
  have hlists : d.forest.ids.map d.forest.children = es.map fun e => e.kind.children := by
    apply List.ext_getElem?
    intro i
    by_cases hi : i < es.length
    · simp [Forest.ids, hd.size, hd.children, hi]
    · simp [Forest.ids, hd.size, hi]
  rw [List.flatMap_def, hlists, ← List.flatMap_def]

end Entries

/-- Walks and climbs are dual. Calls whose entries name earlier ones only go through, and in the
forest they make children come before the nodes that name them, each under the last node that names
it. So every climb ends at a node without a parent, and a walk empties its stack after one step for
each node of the recursive listing, which it has followed. If no entry is named twice then a walk
comes to each node once, and to exactly those whose climb passes its start. -/
theorem walks_dual_to_climbs (calls : List Call) (h : NamesEarlier (entries calls)) :
    ∃ d, empty.calls? calls = some d ∧ Holds (entries calls) d ∧
      (∀ n c, c ∈ d.forest.children n → c.index < n.index) ∧
      (∀ c p, d.forest.parent? c = some p ↔
        c ∈ d.forest.children p ∧ ∀ n, c ∈ d.forest.children n → n.index ≤ p.index) ∧
      (∀ n, d.forest.Climbs (n :: d.forest.ancestors n)) ∧
      (∀ n, (Forest.Walk.step d.forest)^[(d.forest.preorder n).length] ⟨#[], #[n]⟩ =
        ⟨(d.forest.preorder n).toArray, #[]⟩) ∧
      (∀ n, d.forest.walkFrom n = d.forest.preorder n) ∧
      (((entries calls).flatMap fun e => e.kind.children).Nodup →
        ∀ n, (d.forest.walkFrom n).Nodup ∧
          ∀ m, m ∈ d.forest.walkFrom n ↔ m = n ∨ n ∈ d.forest.ancestors m) := by
  obtain ⟨d, hd⟩ := exists_calls_iff.2 h
  have hholds := holds_empty.after_calls hd
  refine ⟨d, hd, hholds, fun n c => Forest.index_lt_of_mem_children,
    fun c p => Forest.parent?_eq_some_iff, d.forest.climbs_ancestors,
    Forest.Walk.iterate_step_start d.forest, d.forest.walkFrom_eq_preorder, ?_⟩
  intro hnodup n
  have honce : d.forest.NamedOnce := by
    rw [Forest.NamedOnce, hholds.flatMap_children]
    exact hnodup
  exact ⟨honce.walkFrom_nodup n, fun m => honce.mem_walkFrom_iff_ancestor⟩

/-- A tuple of two numbers in a block, followed by a third. -/
def nestedCalls : List Call :=
  [.push (.number "1"), .pushAt ⟨7, 3⟩ (.number "2"), .push (.tuple [⟨0⟩, ⟨1⟩]), .intern "x",
    .push (.number "3"), .push (.block [⟨2⟩, ⟨3⟩])]

theorem walks_dual_to_climbs_nested : NamesEarlier (entries nestedCalls) ∧
    ((entries nestedCalls).flatMap fun e => e.kind.children).Nodup ∧
    ∃ d, empty.calls? nestedCalls = some d ∧
      d.forest.walkFrom ⟨4⟩ = [⟨4⟩, ⟨2⟩, ⟨0⟩, ⟨1⟩, ⟨3⟩] ∧ ⟨4⟩ ∈ d.forest.ancestors ⟨1⟩ := by
  have hnames : NamesEarlier (entries nestedCalls) := by decide
  have hnodup : ((entries nestedCalls).flatMap fun e => e.kind.children).Nodup := by decide
  obtain ⟨d, hd, -, -, -, -, -, hpreorder, hdual⟩ := walks_dual_to_climbs nestedCalls hnames
  have hlisting : (empty.calls? nestedCalls).map (fun d => d.forest.preorder ⟨4⟩) =
      some [⟨4⟩, ⟨2⟩, ⟨0⟩, ⟨1⟩, ⟨3⟩] := by decide +kernel
  rw [hd, Option.map_some, Option.some.injEq, ← hpreorder] at hlisting
  have hmem : (⟨1⟩ : NodeId) ∈ d.forest.walkFrom ⟨4⟩ := by simp [hlisting]
  have hanc := (((hdual hnodup ⟨4⟩).2 ⟨1⟩).1 hmem).resolve_left (by decide)
  exact ⟨hnames, hnodup, d, hd, hlisting, hanc⟩

/-- A node that is named three times is visited three times, and the last node to name it is its
parent. -/
example : (empty.calls? [.push (.number "1"), .push (.tuple [⟨0⟩, ⟨0⟩]),
    .push (.block [⟨1⟩, ⟨0⟩])]).map (fun d => (d.forest.walkFrom ⟨2⟩, d.forest.ancestors ⟨0⟩)) =
    some ([⟨2⟩, ⟨1⟩, ⟨0⟩, ⟨0⟩, ⟨0⟩], [⟨2⟩]) := by decide +kernel

end Draft

end SemanticAnalysis
