import SemanticAnalysis.Proofs.LinkedTrees

/-!
Functions do not capture. Each local (a variable, a parameter, a function of a
block) belongs to the innermost function around it. A value name refers to a
local only from inside the function that the local belongs to, or to the function
around it itself, however blocks, lambdas and initializers are nested in between;
the locals of a function further out are out of reach.
-/

namespace SemanticAnalysis

def Kind.isInBody : Kind → Bool
  | .varDecl _ _ _ _ => true
  | k => k.isExpression

theorem Kind.isFile_of_isInBody {k : Kind} (h : k.isInBody = true) : k.isFile = false := by
  cases k <;> simp_all [isInBody, isExpression, isFile]

/-- Bodies are parts of functions and of what stands in bodies. -/
theorem Kind.isInBody_of_place {k kp : Kind} {n : NodeId} {role : Role} (hk : k.isInBody = true)
    (hadmits : role.admits k = true) (hplace : (role, n) ∈ kp.places) :
    kp.isFunction = true ∨ kp.isInBody = true := by
  rw [Role.admits_iff] at hadmits
  have hrole : role = .expression ∨ role = .blockItem := by
    cases k <;> simp_all [isInBody, isExpression, roles, isTypeDecl, isTypeExpr]
  rcases hrole with rfl | rfl
  · cases kp <;> simp_all [places, children, isFunction, isInBody, isExpression]
  · obtain ⟨items, rfl, -⟩ := blockItem_mem_places.1 hplace
    exact Or.inr rfl

namespace Forest

variable {f : Forest} {n a d p : NodeId}

def function? (f : Forest) (n : NodeId) : Option NodeId := (f.ancestors n).find? f.isFunction

theorem function?_of_parent? (h : f.parent? n = some p) :
    f.function? n = if f.isFunction p then some p else f.function? p := by
  rw [function?, ancestors_of_parent? h, List.find?_cons]
  cases f.isFunction p <;> rfl

/-- What lies around a node with no function in between has the same functions around it, or is the
innermost one itself. -/
theorem function?_of_near (h : f.Near n a) :
    f.function? n = if f.isFunction a then some a else f.function? a := by
  induction h with
  | parent h => exact function?_of_parent? h
  | step h hp _ ih => rw [function?_of_parent? h, hp, ← ih, if_neg Bool.false_ne_true]

/-- A variable, a parameter of a function or a lambda, or a function of a block. -/
inductive Local (f : Forest) (d : NodeId) : Prop where
  | var {name : Symbol} {isMutable : Bool} {type : Option NodeId} {value : NodeId}
      (hd : f.kind? d = some (.varDecl name isMutable type value))
  | param {a : NodeId} {k : Kind} {params : List NodeId} (ha : f.kind? a = some k)
      (hk : k.params? = some params) (hd : d ∈ params)
  | item {a : NodeId} {items : List NodeId} {name : Symbol} {params : List NodeId}
      {returns : Option NodeId} {body : NodeId} (ha : f.kind? a = some (.block items))
      (hitem : d ∈ items) (hd : f.kind? d = some (.function name params returns body))

/-- What a node binds for the nodes inside it is the node itself or one of its children. -/
theorem NamedOnce.parent_of_binds (hf : f.NamedOnce) (h : f.Binds a d) :
    d = a ∨ f.parent? d = some a := by
  have hchild : d = a ∨ d ∈ f.children a := by
    cases hk : f.kind? a with
    | none => simp [Binds, hk] at h
    | some k =>
      rw [children_of_kind hk]
      cases k <;> simp_all [Binds, Kind.children]
      all_goals exact h.imp_right Or.inl
  exact hchild.imp_right hf.parent?_of_mem

/-- What a node that is no function binds stands inside the same function as the node. -/
theorem function?_of_binds (hf : f.NamedOnce) (h : f.Binds a d) (ha : f.isFunction a = false) :
    f.function? d = f.function? a := by
  rcases hf.parent_of_binds h with rfl | hp
  · rfl
  · rw [function?_of_parent? hp, ha, if_neg Bool.false_ne_true]

end Forest

namespace Tree.WellFormed

variable {t : Tree} {n d : NodeId}

/-- Around everything in a body there is a function. -/
theorem exists_function (ht : t.WellFormed) {k : Kind} (hk : t.kind? n = some k)
    (hbody : k.isInBody = true) : ∃ F, t.function? n = some F := by
  induction n using Forest.parentInduction (f := t.toForest) generalizing k with
  | top n hn =>
    obtain ⟨p, -, -, hp, -⟩ := ht.exists_place hk (Kind.isFile_of_isInBody hbody)
    simp [hn] at hp
  | step n p hn ih =>
    obtain ⟨q, kp, role, hq, hkp, hplace, hadmits⟩ :=
      ht.exists_place hk (Kind.isFile_of_isInBody hbody)
    obtain rfl : q = p := Option.some.inj (hq.symm.trans hn)
    rw [Forest.function?_of_parent? hn]
    by_cases hfn : t.isFunction q = true
    · exact ⟨q, if_pos hfn⟩
    · have hkind : ¬ kp.isFunction = true := by simpa [Forest.isFunction, hkp] using hfn
      rw [if_neg hfn]
      exact ih hkp ((Kind.isInBody_of_place hbody hadmits hplace).resolve_left hkind)

/-- What binds a local is no module and no type. -/
theorem exists_parent_of_local (ht : t.WellFormed) (h : t.Local d) :
    ∃ p k, t.parent? d = some p ∧ t.kind? p = some k ∧ k.isContainer = false := by
  cases h with
  | var hd =>
    obtain ⟨b, items, hb, hkb, -⟩ := ht.parent_varDecl hd
    exact ⟨b, _, hb, hkb, rfl⟩
  | @param a k params ha hparams hd =>
    have hchild : d ∈ k.children ∧ k.isContainer = false := by
      cases k <;> simp_all [Kind.params?, Kind.children, Kind.isContainer]
    exact ⟨a, k, ht.named_once.parent?_of_mem (Forest.mem_children_of_kind ha hchild.1), ha,
      hchild.2⟩
  | @item a items _ _ _ _ ha hitem hd =>
    exact ⟨a, _, ht.named_once.parent?_of_mem (Forest.mem_children_of_kind ha hitem), ha, rfl⟩

theorem not_declared_of_local (ht : t.WellFormed) (h : t.Local d) : ¬ t.Declared d := by
  rintro ⟨q, kq, hq, hkq, hcontainer⟩
  obtain ⟨p, k, hp, hk, hlocal⟩ := ht.exists_parent_of_local h
  obtain rfl : q = p := Option.some.inj (hq.symm.trans hp)
  obtain rfl : kq = k := Option.some.inj (hkq.symm.trans hk)
  simp [hlocal] at hcontainer

/-- What is visible from a node belongs to the innermost function around the node, or is that
function. -/
theorem function?_of_visible (ht : t.WellFormed) (h : t.Visible n d) :
    ∃ F, t.function? n = some F ∧ (d = F ∨ t.function? d = some F) := by
  obtain ⟨a, hnear, hbinds⟩ := h
  rw [Forest.function?_of_near hnear]
  by_cases ha : t.isFunction a = true
  · refine ⟨a, if_pos ha, ?_⟩
    refine (ht.named_once.parent_of_binds hbinds).imp_right fun hp => ?_
    rw [Forest.function?_of_parent? hp, if_pos ha]
  · -- what binds is a block, a lambda or a variable, and so stands in a body
    have hbody : ∃ k, t.kind? a = some k ∧ k.isInBody = true := by
      cases hk : t.kind? a with
      | none => simp [Forest.Binds, hk] at hbinds
      | some k =>
        refine ⟨k, rfl, ?_⟩
        cases k <;> simp_all [Forest.Binds, Forest.isFunction, Kind.isFunction, Kind.isInBody,
          Kind.isExpression]
    obtain ⟨k, hk, hin⟩ := hbody
    obtain ⟨F, hF⟩ := ht.exists_function hk hin
    have hd := Forest.function?_of_binds ht.named_once hbinds (by simpa using ha)
    exact ⟨F, by rw [if_neg ha, hF], Or.inr (hd.trans hF)⟩

end Tree.WellFormed

/-- A value name that refers to a local of a well-formed tree stands in a function, and what it
refers to is that function or belongs to it; so it never refers to a local of a function further
out, unless that local is the function it stands in. -/
theorem locals_not_captured {t : Tree} (ht : t.WellFormed) {site d : NodeId} {r : Reference}
    (h : resolve t (ScopeTree.build t) .values site r = .ok d) (hd : t.Local d) :
    ∃ F, t.function? site = some F ∧ (d = F ∨ t.function? d = some F) ∧
      ∀ G ∈ t.ancestors F, t.function? d = some G → d = F := by
  have hvisible := (visible_or_declared_of_resolve ht h).resolve_right (ht.not_declared_of_local hd)
  obtain ⟨F, hF, hown⟩ := ht.function?_of_visible hvisible
  refine ⟨F, hF, hown, fun G hG hdG => hown.resolve_right fun hdF => ?_⟩
  obtain rfl : F = G := Option.some.inj (hdF.symm.trans hdG)
  exact absurd (Forest.index_lt_of_mem_ancestors hG) (Nat.lt_irrefl _)

/-- A function with a variable and, in its body, a function with a parameter of the same name that
a lambda in an initializer refers to. -/
def nestedFunctions : Tree := Tree.ofKinds [
  .parameter ⟨1⟩ none, .reference ⟨⟨1⟩, none⟩, .varDecl ⟨2⟩ false none ⟨1⟩,
  .parameter ⟨2⟩ none, .parameter ⟨3⟩ none, .reference ⟨⟨2⟩, none⟩, .lambda [⟨4⟩] ⟨5⟩,
  .varDecl ⟨4⟩ false none ⟨6⟩, .reference ⟨⟨4⟩, none⟩, .block [⟨7⟩, ⟨8⟩],
  .function ⟨5⟩ [⟨3⟩] none ⟨9⟩, .reference ⟨⟨5⟩, none⟩, .block [⟨2⟩, ⟨10⟩, ⟨11⟩],
  .function ⟨6⟩ [⟨0⟩] none ⟨12⟩, .moduleDecl ⟨7⟩ true [⟨13⟩], .file [⟨14⟩]]

theorem locals_not_captured_nested : nestedFunctions.WellFormed ∧
    nestedFunctions.function? ⟨2⟩ = some ⟨13⟩ ∧ nestedFunctions.function? ⟨5⟩ = some ⟨10⟩ ∧
    resolve nestedFunctions (ScopeTree.build nestedFunctions) .values ⟨5⟩ ⟨⟨2⟩, none⟩ = .ok ⟨3⟩ ∧
    nestedFunctions.Local ⟨3⟩ ∧ nestedFunctions.function? ⟨3⟩ = some ⟨10⟩ := by
  have ht : nestedFunctions.WellFormed := by decide
  have houter : nestedFunctions.function? ⟨2⟩ = some ⟨13⟩ := by decide +kernel
  have hsite : nestedFunctions.function? ⟨5⟩ = some ⟨10⟩ := by decide +kernel
  have hanswer : resolve nestedFunctions (ScopeTree.build nestedFunctions) .values ⟨5⟩ ⟨⟨2⟩, none⟩ =
      .ok ⟨3⟩ := by decide +kernel
  have hfunction : nestedFunctions.kind? ⟨10⟩ = some (.function ⟨5⟩ [⟨3⟩] none ⟨9⟩) := rfl
  have hlocal : nestedFunctions.Local ⟨3⟩ := .param hfunction rfl (List.mem_singleton_self _)
  obtain ⟨F, hF, hown, -⟩ := locals_not_captured ht hanswer hlocal
  obtain rfl : ⟨10⟩ = F := Option.some.inj (hsite.symm.trans hF)
  exact ⟨ht, houter, hsite, hanswer, hlocal, hown.resolve_left (by decide)⟩

end SemanticAnalysis
