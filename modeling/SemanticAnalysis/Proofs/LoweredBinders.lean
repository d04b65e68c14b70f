import SemanticAnalysis.Proofs.CollectedAssumptions

/-!
Binders of lowered terms. The term of a node binds nothing but declarations at the
node or below it and synthetic variables made on the way, and no binder binds what
one around it binds. It has a tuple with items only if the tree has one.
-/

namespace SemanticAnalysis

def Kind.isFilledTuple : Kind → Bool
  | .tuple items => !items.isEmpty
  | _ => false

def Forest.TuplesEmpty (f : Forest) : Prop := ∀ n k, f.kind? n = some k → k.isFilledTuple = false

instance (f : Forest) : Decidable f.TuplesEmpty :=
  decidable_of_iff (∀ n ∈ f.ids, ∀ k ∈ (f.kind? n).toList, k.isFilledTuple = false) <| by
    constructor
    · intro h n k hk
      exact h n (Forest.mem_ids_of_kind hk) k (by simp [hk])
    · intro h n _ k hk
      exact h n k (by simpa using hk)

/-- A node that a term may bind: a variable, a function with a body or a parameter that is no
field. -/
def Forest.isBinder (f : Forest) (n : NodeId) : Bool :=
  match f.kind? n with
  | some (.varDecl _ _ _ _) | some (.function _ _ _ _) => true
  | some (.parameter _ _) => !(f.parent? n).any (Lowering.isStruct f)
  | _ => false

namespace Term

/-- A term binds only variables of a set, and none twice on the way down to a variable. Its tuples
are empty if those of the tree are. -/
structure Scoped (f : Forest) (N : CoreVar → Prop) (e : Term) : Prop where
  binds : ∀ k taken, (∀ x, N x → taken x = false) → e.rebindsNone k taken = true
  tuples : f.TuplesEmpty → e.tuplesEmpty = true

section Scoping

variable {f : Forest} {N M : CoreVar → Prop} {e func arg binder usage : Term} {x : CoreVar}
  {origin : Option NodeId} {args : List Term}

theorem Scoped.mono (h : Scoped f N e) (hNM : ∀ x, N x → M x) : Scoped f M e where
  binds k taken htaken := h.binds k taken fun x hx => htaken x (hNM x hx)
  tuples := h.tuples

theorem scoped_var (f : Forest) (N : CoreVar → Prop) (x : CoreVar) : Scoped f N (.var x) :=
  ⟨fun _ _ _ => rfl, fun _ => rfl⟩

theorem scoped_unit (f : Forest) (N : CoreVar → Prop) : Scoped f N unit :=
  ⟨fun _ _ _ => rfl, fun _ => rfl⟩

theorem scoped_app (ha : Scoped f N arg) (hf : Scoped f N func) :
    Scoped f N (.app arg func origin) where
  binds k taken htaken := by
    simp only [rebindsNone, Bool.and_eq_true]
    exact ⟨ha.binds k taken htaken, hf.binds k taken htaken⟩
  tuples h := by
    simp only [tuplesEmpty, Bool.and_eq_true]
    exact ⟨ha.tuples h, hf.tuples h⟩

theorem scoped_lam (hx : M x) (hb : Scoped f N e) (hN : ∀ y, N y → M y ∧ y ≠ x) :
    Scoped f M (.lam x e origin) where
  binds k taken htaken := by
    have hbody := hb.binds k (fun y => y = x || taken y) fun y hy => by
      simp [(hN y hy).2, htaken y (hN y hy).1]
    simp [rebindsNone, htaken x hx, hbody]
  tuples h := hb.tuples h

theorem scoped_letIn (hx : M x) (hb : Scoped f M binder) (hu : Scoped f N usage)
    (hN : ∀ y, N y → M y ∧ y ≠ x) : Scoped f M (.letIn binder x usage) where
  binds k taken htaken := by
    have husage := hu.binds k (fun y => y = x || taken y) fun y hy => by
      simp [(hN y hy).2, htaken y (hN y hy).1]
    simp [rebindsNone, htaken x hx, hb.binds k taken htaken, husage]
  tuples h := by
    simp only [tuplesEmpty, Bool.and_eq_true]
    exact ⟨hb.tuples h, hu.tuples h⟩

theorem scoped_withOrigin (n : NodeId) (h : Scoped f N e) : Scoped f N (e.withOrigin n) where
  binds k taken htaken := by
    have heq : (e.withOrigin n).rebindsNone k taken = e.rebindsNone k taken := by cases e <;> rfl
    rw [heq]
    exact h.binds k taken htaken
  tuples htuples := by
    have heq : (e.withOrigin n).tuplesEmpty = e.tuplesEmpty := by cases e <;> rfl
    rw [heq]
    exact h.tuples htuples

/-- A call binds what its function and its arguments bind. -/
theorem scoped_call (hargs : ∀ arg ∈ args, Scoped f N arg) (hf : Scoped f N func) :
    Scoped f N (call args func) := by
  have hfold : ∀ {args : List Term} {func : Term}, (∀ arg ∈ args, Scoped f N arg) →
      Scoped f N func → Scoped f N (args.foldl (fun f arg => .app arg f none) func) := by
    intro args
    induction args with
    | nil => exact fun _ hf => hf
    | cons arg rest ih =>
      intro func hargs hf
      refine ih (fun a ha => hargs a (List.mem_cons_of_mem arg ha)) ?_
      exact scoped_app (hargs arg (List.mem_cons_self ..)) hf
  cases args with
  | nil => exact scoped_app (scoped_unit f N) hf
  | cons arg rest => exact hfold hargs hf

/-- Binders that are all different, around a body that binds none of them. -/
theorem scoped_abstract {binds : List CoreVar} (hnodup : binds.Nodup) (hM : ∀ x ∈ binds, M x)
    (hb : Scoped f N e) (hN : ∀ y, N y → M y ∧ y ∉ binds) : Scoped f M (abstract binds e) := by
  induction binds generalizing M with
  | nil => exact hb.mono fun y hy => (hN y hy).1
  | cons x rest ih =>
    obtain ⟨hx, hrest⟩ := List.nodup_cons.1 hnodup
    have hinner : Scoped f (fun y => N y ∨ y ∈ rest) (abstract rest e) := by
      refine ih hrest (fun y hy => Or.inr hy) fun y hy => ⟨Or.inl hy, fun hmem => ?_⟩
      exact (hN y hy).2 (List.mem_cons_of_mem x hmem)
    refine scoped_lam (hM x (List.mem_cons_self ..)) hinner fun y hy => ?_
    rcases hy with hy | hy
    · exact ⟨(hN y hy).1, fun heq => (hN y hy).2 (heq ▸ List.mem_cons_self ..)⟩
    · exact ⟨hM y (List.mem_cons_of_mem x hy), fun heq => hx (heq ▸ hy)⟩

end Scoping

end Term

namespace Lowering

open Term (Scoped)

variable {t : Tree} {f : Forest} {n c x body : NodeId} {k : Kind} {cs params delayed : List NodeId}
  {D E : NodeId → Prop} {a b : Nat} {e : Term} {es : List Term}

def Region (D : NodeId → Prop) (a b : Nat) (x : CoreVar) : Prop :=
  (∃ d, x = .decl d ∧ D d) ∨ ∃ i, x = .synthetic i ∧ a ≤ i ∧ i < b

theorem Region.mono {a' b' : Nat} {v : CoreVar} (h : Region D a b v) (hD : ∀ d, D d → E d)
    (ha : a' ≤ a) (hb : b ≤ b') : Region E a' b' v := by
  rcases h with ⟨d, hv, hd⟩ | ⟨i, hv, hlow, hhigh⟩
  · exact Or.inl ⟨d, hv, hD d hd⟩
  · exact Or.inr ⟨i, hv, by omega, by omega⟩

def Under (f : Forest) (n d : NodeId) : Prop := ∃ c ∈ f.children n, d ∈ f.walkFrom c

theorem Under.mem_walkFrom {d : NodeId} (h : Under f n d) : d ∈ f.walkFrom n := by
  obtain ⟨c, hc, hd⟩ := h
  exact Forest.mem_walkFrom_of_child hc hd

theorem not_under_self (f : Forest) (n : NodeId) : ¬ Under f n n := by
  rintro ⟨c, hc, hn⟩
  exact Forest.not_mem_walkFrom_child hc hn

section Assembly

theorem scoped_fixpoint {N M : CoreVar → Prop} (hx : M (.decl x)) (hb : Scoped f N e)
    (hN : ∀ y, N y → M y ∧ y ≠ .decl x) : Scoped f M (fixpoint x e) :=
  Term.scoped_app (Term.scoped_lam hx hb hN) (Term.scoped_var f M _)

theorem scoped_branches {N : CoreVar → Prop} {otherwise : Term} (ho : Scoped f N otherwise)
    (hes : ∀ e ∈ es, Scoped f N e) : Scoped f N (branches otherwise es) := by
  fun_induction branches otherwise es with
  | case1 otherwise condition body rest ih =>
    have hargs : ∀ e ∈ [condition, body, otherwise], Scoped f N e := by
      intro e he
      rcases List.mem_cons.1 he with rfl | he
      · exact hes e (by simp)
      · rcases List.mem_cons.1 he with rfl | he
        · exact hes e (by simp)
        · rwa [List.mem_singleton.1 he]
    exact ih (Term.scoped_call hargs (Term.scoped_var f N _)) fun e he => hes e (by simp [he])
  | case2 => exact ho

/-- A term that is put together binds what its operands bind. -/
theorem scoped_assemble {N : CoreVar → Prop} (hk : f.kind? n = some k)
    (hops : operands k = some cs) (hlen : es.length = cs.length) (hes : ∀ e ∈ es, Scoped f N e) :
    Scoped f N (assemble n k es) := by
  cases k <;> simp only [operands, Option.some.injEq, reduceCtorEq] at hops <;> subst hops
  case number text => exact ⟨fun _ _ _ => rfl, fun _ => rfl⟩
  case floating text => exact ⟨fun _ _ _ => rfl, fun _ => rfl⟩
  case tuple items =>
    refine ⟨fun k taken htaken => ?_, fun htuples => ?_⟩
    · exact Term.rebindNone_iff.2 fun e he => (hes e he).binds k taken htaken
    · have hitems : items = [] := by simpa [Kind.isFilledTuple] using htuples n _ hk
      rw [hitems] at hlen
      rw [List.eq_nil_of_length_eq_zero hlen]
      rfl
  case call callee args =>
    cases es with
    | nil => simp at hlen
    | cons func terms =>
      refine Term.scoped_withOrigin n (Term.scoped_call (fun e he => ?_) ?_)
      · exact hes e (List.mem_cons_of_mem func he)
      · exact hes func (List.mem_cons_self ..)
  case assign target value => exact Term.scoped_call hes (Term.scoped_var f N _)
  case loop condition body => exact Term.scoped_call hes (Term.scoped_var f N _)
  case conditional condition body elifs otherwise =>
    cases otherwise with
    | none => exact scoped_branches (Term.scoped_unit f N) hes
    | some other =>
      cases es with
      | nil => simp at hlen
      | cons last terms =>
        refine scoped_branches (hes last (List.mem_cons_self ..)) fun e he => ?_
        exact hes e (List.mem_cons_of_mem last he)

end Assembly

section Making

def Makes (f : Forest) (D : NodeId → Prop) (x : Lower Term) : Prop := ∀ st,
  Lands x st (fun e st' => st.synthetics ≤ st'.synthetics ∧
    Scoped f (Region D st.synthetics st'.synthetics) e) fun _ _ => True

/-- Looking at what a reference refers to assumes nothing about what a term may bind. -/
theorem preserves_referral {I : Lowering → Prop} {d : NodeId}
    (hread : ∀ st store, I st → I { st with store })
    (hassume : ∀ st σ, f.isBinder d = false → I st →
      I { st with assumptions := st.assumptions.insert (.decl d) σ }) (n : NodeId) :
    Preserves I (assumeReferral f n d) := by
  have hassumed : ∀ v, Preserves I (isAssumed v) := fun v =>
    preserves_get_bind fun _ => preserves_pure _
  have hreading : ∀ {α : Type} (m : TypeStore.Reading α), Preserves I (reading m) := by
    intro α m st h
    rw [lands_reading, lands_iff_run]
    split <;> exact hread st _ h
  have hscheme : ∀ {σ : Scheme}, f.isBinder d = false → Preserves I (assume (.decl d) σ) := by
    intro σ hd st h
    simpa [assume] using hassume st σ hd h
  have heval : ∀ e, Preserves I (evaluate f e) := fun e => evaluate_eq f e ▸ hreading _
  have hparts : ∀ params {output : Lower Ty}, Preserves I output →
      Preserves I (signatureOfParts f params output) := fun params output ho =>
    preserves_bind (preserves_mapM params fun p _ => hreading _) fun _ =>
      preserves_bind ho fun _ => preserves_pure _
  unfold assumeReferral
  split
  case h_1 | h_2 => exact preserves_get_bind fun _ => preserves_when fun _ => preserves_throw _
  case h_3 hk =>
    refine preserves_bind (hassumed _) fun _ => preserves_when fun htest => ?_
    have hfield := (Bool.and_eq_true_iff.1 htest).1
    exact preserves_bind (hreading _) fun _ => hscheme (by simp [Forest.isBinder, hk, hfield])
  case h_4 hk =>
    refine preserves_bind (hassumed _) fun _ => preserves_when fun _ => ?_
    exact preserves_bind (hreading _) fun _ => hscheme (by simp [Forest.isBinder, hk])
  case h_5 hk =>
    split
    · exact preserves_pure _
    · exact preserves_bind (hreading _) fun _ => hscheme (by simp [Forest.isBinder, hk])
  case h_6 hk | h_7 hk =>
    refine preserves_bind (hassumed _) fun _ => preserves_when fun _ => ?_
    refine preserves_bind (hparts _ ?_) fun _ => hscheme (by simp [Forest.isBinder, hk])
    split
    · exact heval _
    · exact preserves_pure _
  case h_8 => exact preserves_throw _

/-- A reference binds nothing, also one that is forced. -/
theorem resolved_makes {target : Reference} {d : NodeId}
    (hk : f.kind? n = some (.resolved target d)) :
    Makes f (· ∈ f.walkFrom n) (expression f delayed n) := by
  intro st
  rw [expression_resolved hk, reference, lands_bind]
  refine (preserves_referral (I := fun st' => st'.synthetics = st.synthetics)
    (fun _ _ h => h) (fun _ _ _ h => h) n st rfl).imp (fun _ st₁ hst => ?_) fun _ _ _ => trivial
  have hle : st.synthetics ≤ st₁.synthetics := Nat.le_of_eq hst.symm
  split
  · exact lands_pure.2 ⟨hle, Term.scoped_app (Term.scoped_unit f _) (Term.scoped_var f _ _)⟩
  · exact lands_pure.2 ⟨hle, Term.scoped_var f _ _⟩

/-- An expression put together from operands binds what they bind. -/
theorem operands_make (hk : f.kind? n = some k) (hops : operands k = some cs)
    (ih : ∀ c ∈ cs, Makes f (· ∈ f.walkFrom c) (expression f delayed c)) :
    Makes f (· ∈ f.walkFrom n) (expression f delayed n) := by
  intro st
  rw [expression_operands hk hops, lands_map]
  refine Lands.imp_ok (lands_mapM (fun done es st' => st.synthetics ≤ st'.synthetics ∧
    es.length = done.length ∧
    ∀ e ∈ es, Scoped f (Region (· ∈ f.walkFrom n) st.synthetics st'.synthetics) e)
    ⟨Nat.le_refl _, rfl, by simp⟩ ?_) ?_
  · rintro done c rest hcs es st₁ ⟨hle₁, hlen, hes⟩
    refine (ih c (by simp [hcs]) st₁).imp_ok ?_
    rintro e st₂ ⟨hle₂, he⟩
    have hchild : c ∈ f.children n :=
      Forest.mem_children_of_kind hk ((operands_perm hops).mem_iff.1 (by simp [hcs]))
    refine ⟨Nat.le_trans hle₁ hle₂, by simp [hlen], fun e' he' => ?_⟩
    rcases List.mem_append.1 he' with he' | he'
    · exact (hes e' he').mono fun v hv => hv.mono (fun _ h => h) (Nat.le_refl _) hle₂
    · rw [List.mem_singleton.1 he']
      exact he.mono fun v hv =>
        hv.mono (fun d hd => Forest.mem_walkFrom_of_child hchild hd) hle₁ (Nat.le_refl _)
  · rintro es st' ⟨hle, hlen, hes⟩
    exact ⟨hle, scoped_assemble hk hops hlen hes⟩

/-- The parameters of a function or a lambda and its body are different children. -/
theorem Abstracts.children_nodup (hf : f.NamedOnce) (hk : f.kind? n = some k)
    (h : Abstracts k params body) :
    (∀ c ∈ params ++ [body], c ∈ f.children n) ∧ (params ++ [body]).Nodup := by
  have hsub : (params ++ [body]).Sublist k.children := by
    rcases h with ⟨name, returns, rfl⟩ | rfl
    · exact (List.sublist_append_left ..).append (List.Sublist.refl _)
    · exact List.Sublist.refl _
  have hnodup := hf.children_nodup n
  rw [Forest.children_of_kind hk] at hnodup ⊢
  exact ⟨fun c hc => hsub.subset hc, hnodup.sublist hsub⟩

/-- The variables bound by an abstraction are different and not bound in its body. -/
theorem binders_lands_apart (hf : f.NamedOnce) (hk : f.kind? n = some k)
    (habs : Abstracts k params body) (st : Lowering) :
    Lands (binders params) st (fun binds st' => st.synthetics ≤ st'.synthetics ∧ binds.Nodup ∧
      (∀ v ∈ binds, Region (Under f n) st.synthetics st'.synthetics v) ∧
      ∀ b v, Region (· ∈ f.walkFrom body) st'.synthetics b v → v ∉ binds) fun _ _ => True := by
  obtain ⟨hchildren, hnodup⟩ := habs.children_nodup hf hk
  unfold binders
  split
  · simp only [lands_map, synthetic, lands_bind, lands_get, lands_set, lands_pure]
    refine ⟨Nat.le_succ _, List.nodup_singleton _, fun v hv => ?_, fun b v hv hmem => ?_⟩
    · exact Or.inr ⟨st.synthetics, List.mem_singleton.1 hv, Nat.le_refl _, Nat.lt_succ_self _⟩
    · rw [List.mem_singleton.1 hmem] at hv
      rcases hv with ⟨d, hd, -⟩ | ⟨i, hi, hlow, -⟩
      · cases hd
      · cases hi
        omega
  · rw [lands_pure]
    obtain ⟨hparams, -, hapart⟩ := List.nodup_append.1 hnodup
    refine ⟨Nat.le_refl _, hparams.map fun p q h => by simpa using h, fun v hv => ?_,
      fun b v hv hmem => ?_⟩
    · obtain ⟨p, hp, rfl⟩ := List.mem_map.1 hv
      refine Or.inl ⟨p, rfl, p, hchildren p (List.mem_append_left _ hp), ?_⟩
      exact Forest.self_mem_walkFrom f p
    · obtain ⟨p, hp, rfl⟩ := List.mem_map.1 hmem
      rcases hv with ⟨d, hd, hbelow⟩ | ⟨i, hi, -⟩
      · cases hd
        have heq : body = p := hf.child_unique (hchildren body (by simp))
          (hchildren p (List.mem_append_left _ hp)) hbelow (Forest.self_mem_walkFrom f p)
        exact hapart p hp body (by simp) heq.symm
      · cases hi

/-- An abstraction binds its parameters around what its body binds. -/
theorem abstraction_makes (hf : f.NamedOnce) (hk : f.kind? n = some k)
    (habs : Abstracts k params body) {x : Lower Term} (ih : Makes f (· ∈ f.walkFrom body) x) :
    Makes f (Under f n) (abstraction f n params x) := by
  have hbody : body ∈ f.children n := (habs.children_nodup hf hk).1 body (by simp)
  intro st
  rw [abstraction_eq]
  simp only [lands_bind, lands_pure]
  have hassume : Preserves (fun st' => st'.synthetics = st.synthetics)
      (assumeParameters f params) :=
    preserves_parameters params fun p _ type _ => preserves_declared (fun _ _ _ h => h) type
  refine (hassume st rfl).imp (fun _ st₁ h₁ => ?_) fun _ _ _ => trivial
  refine (binders_lands_apart hf hk habs st₁).imp_ok ?_
  rintro binds st₂ ⟨hle₂, hnodup, hbinds, hapart⟩
  refine (ih st₂).imp_ok ?_
  rintro e st₃ ⟨hle₃, he⟩
  have hle : st.synthetics ≤ st₂.synthetics := by omega
  refine ⟨by omega, Term.scoped_withOrigin n (Term.scoped_abstract hnodup (fun v hv => ?_) he
    fun v hv => ⟨?_, hapart _ v hv⟩)⟩
  · exact (hbinds v hv).mono (fun _ h => h) (Nat.le_of_eq h₁.symm) hle₃
  · exact hv.mono (fun d hd => ⟨body, hbody, hd⟩) hle (Nat.le_refl _)

/-- The fixpoint of a term in a variable that stands above everything that the term binds. -/
theorem scoped_fixpoint_under (h : Scoped f (Region (Under f x) a b) e) :
    Scoped f (Region (· ∈ f.walkFrom x) a b) (fixpoint x e) := by
  refine scoped_fixpoint (Or.inl ⟨x, rfl, Forest.self_mem_walkFrom f x⟩) h fun v hv => ⟨?_, ?_⟩
  · exact hv.mono (fun d hd => hd.mem_walkFrom) (Nat.le_refl _) (Nat.le_refl _)
  · rintro rfl
    rcases hv with ⟨d, hd, hunder⟩ | ⟨i, hi, -⟩
    · cases hd
      exact not_under_self f x hunder
    · cases hi

def ItemScoped (f : Forest) (x : NodeId) (a b : Nat) (it : Item) : Prop :=
  Scoped f (Region (· ∈ f.walkFrom x) a b) it.term ∧
    ∀ e v, it = .binding e v → Region (· ∈ f.walkFrom x) a b v

def ItemMakes (f : Forest) (x : NodeId) (y : Lower Item) : Prop := ∀ st,
  Lands y st (fun it st' => st.synthetics ≤ st'.synthetics ∧
    ItemScoped f x st.synthetics st'.synthetics it) fun _ _ => True

theorem itemScoped_decl (h : Scoped f (Region (· ∈ f.walkFrom x) a b) e) :
    ItemScoped f x a b (.binding e (.decl x)) := by
  refine ⟨h, fun e' v heq => ?_⟩
  cases heq
  exact Or.inl ⟨x, rfl, Forest.self_mem_walkFrom f x⟩

/-- An item of a block binds what stands below it. -/
theorem item_makes (hf : f.NamedOnce) {isLast : Bool}
    (ih : ∀ m, m.index ≤ x.index → ∀ delayed,
      Makes f (· ∈ f.walkFrom m) (expression f delayed m)) :
    ItemMakes f x (item f delayed isLast x) := by
  unfold item
  split
  · rename_i type value hk
    have hchild : value ∈ f.children x := Forest.mem_children_of_kind hk (by simp [Kind.children])
    have hvalue := ih value (Nat.le_of_lt (Forest.index_lt_of_mem_children hchild))
    have hunder : ∀ {a b : Nat} {e : Term}, Scoped f (Region (· ∈ f.walkFrom value) a b) e →
        Scoped f (Region (Under f x) a b) e := fun h => h.mono fun v hv =>
      hv.mono (fun d hd => ⟨value, hchild, hd⟩) (Nat.le_refl _) (Nat.le_refl _)
    intro st
    rw [lands_bind]
    refine (preserves_declared (I := fun st' => st'.synthetics = st.synthetics)
      (fun _ _ _ h => h) type st rfl).imp (fun _ st₁ h₁ => ?_) fun _ _ _ => trivial
    simp only [reach, lands_bind, lands_modify]
    rw [← h₁]
    split
    · simp only [lands_bind, lands_map, lands_pure]
      refine (hvalue _ _).imp_ok ?_
      rintro e st₂ ⟨hle, he⟩
      exact ⟨hle, itemScoped_decl (scoped_fixpoint_under (hunder he))⟩
    · simp only [lands_bind, lands_pure]
      refine (hvalue _ _).imp_ok ?_
      rintro e st₂ ⟨hle, he⟩
      refine ⟨hle, itemScoped_decl ((hunder he).mono fun v hv => ?_)⟩
      exact hv.mono (fun d hd => hd.mem_walkFrom) (Nat.le_refl _) (Nat.le_refl _)
  · rename_i name params returns body hk
    have hbody := ih body (Nat.le_of_lt (Forest.index_lt_of_kind hk (by simp [Kind.children])))
    intro st
    simp only [reach, lands_bind, lands_modify, lands_pure]
    refine (abstraction_makes hf hk (Or.inl ⟨name, returns, rfl⟩) (hbody _) _).imp_ok ?_
    rintro e st₂ ⟨hle, he⟩
    refine ⟨hle, itemScoped_decl ?_⟩
    split
    · exact scoped_fixpoint_under he
    · exact he.mono fun v hv =>
        hv.mono (fun d hd => hd.mem_walkFrom) (Nat.le_refl _) (Nat.le_refl _)
  · intro st
    rw [lands_bind]
    refine (ih x (Nat.le_refl _) _ st).imp_ok ?_
    rintro e st₁ ⟨hle, he⟩
    split
    · exact lands_pure.2 ⟨hle, he, by simp⟩
    · simp only [synthetic, lands_bind, lands_get, lands_set, lands_pure]
      refine ⟨by omega, he.mono fun v hv => ?_, fun e' v heq => ?_⟩
      · exact hv.mono (fun _ h => h) (Nat.le_refl _) (Nat.le_succ _)
      · cases heq
        exact Or.inr ⟨st₁.synthetics, rfl, hle, Nat.lt_succ_self _⟩

/-- Items of a block in turn: what one of them binds, those after it do not bind. -/
theorem items_make (hf : f.NamedOnce) {g : NodeId × Nat → Lower Item} {ps : List (NodeId × Nat)}
    (hnodup : (ps.map (·.1)).Nodup) (hchildren : ∀ p ∈ ps, p.1 ∈ f.children n)
    (ih : ∀ p ∈ ps, ItemMakes f p.1 (g p)) :
    Makes f (fun d => ∃ p ∈ ps, d ∈ f.walkFrom p.1) (chain <$> ps.mapM g) := by
  induction ps with
  | nil =>
    intro st
    simp only [List.mapM_nil, lands_map, lands_pure]
    exact ⟨Nat.le_refl _, Term.scoped_unit f _⟩
  | cons p rest ihrest =>
    obtain ⟨hp, hrest⟩ := List.nodup_cons.1 hnodup
    have hmem : p ∈ p :: rest := List.mem_cons_self ..
    intro st
    simp only [List.mapM_cons, lands_map, lands_bind, lands_pure]
    refine (ih p hmem st).imp_ok ?_
    rintro it st₁ ⟨hle₁, hit⟩
    have hothers := ihrest hrest (fun q hq => hchildren q (List.mem_cons_of_mem p hq))
      (fun q hq => ih q (List.mem_cons_of_mem p hq)) st₁
    rw [lands_map] at hothers
    refine hothers.imp_ok ?_
    rintro its st₂ ⟨hle₂, hchain⟩
    refine ⟨Nat.le_trans hle₁ hle₂, ?_⟩
    have hself : Scoped f (Region (fun d => ∃ q ∈ p :: rest, d ∈ f.walkFrom q.1) st.synthetics
        st₂.synthetics) it.term := hit.1.mono fun v hv =>
      hv.mono (fun d hd => ⟨p, hmem, hd⟩) (Nat.le_refl _) hle₂
    cases it with
    | value e => exact hself
    | binding e v =>
      have hv := hit.2 e v rfl
      refine Term.scoped_letIn (hv.mono (fun d hd => ⟨p, hmem, hd⟩) (Nat.le_refl _) hle₂) hself
        hchain fun w hw => ⟨hw.mono ?_ hle₁ (Nat.le_refl _), ?_⟩
      · rintro d ⟨q, hq, hd⟩
        exact ⟨q, List.mem_cons_of_mem p hq, hd⟩
      · rintro rfl
        rcases hv with ⟨d, rfl, hd⟩ | ⟨i, rfl, -, hhigh⟩
        · rcases hw with ⟨d', heq, q, hq, hd'⟩ | ⟨i, heq, -⟩
          · cases heq
            have hsame : p.1 = q.1 := hf.child_unique (hchildren p hmem)
              (hchildren q (List.mem_cons_of_mem p hq)) hd hd'
            exact hp (List.mem_map.2 ⟨q, hq, hsame.symm⟩)
          · cases heq
        · rcases hw with ⟨d', heq, -⟩ | ⟨j, heq, hlow, -⟩
          · cases heq
          · cases heq
            omega

/-- Lowering an expression gives a term that binds only what is declared there and below, and
nothing that is bound around it. -/
theorem expression_makes (hf : f.NamedOnce) (n : NodeId) (delayed : List NodeId) :
    Makes f (· ∈ f.walkFrom n) (expression f delayed n) := by
  induction hi : n.index using Nat.strongRecOn generalizing n delayed with
  | ind i ih =>
    subst hi
    have hbelow : ∀ {k : Kind}, f.kind? n = some k → ∀ c ∈ k.children, ∀ delayed,
        Makes f (· ∈ f.walkFrom c) (expression f delayed c) := fun hk c hc delayed =>
      ih c.index (Forest.index_lt_of_kind hk hc) c delayed rfl
    cases form f n with
    | operands hk hops =>
      exact operands_make hk hops fun c hc =>
        hbelow hk c ((operands_perm hops).mem_iff.1 hc) delayed
    | reference hk => exact resolved_makes hk
    | @lambda params body hk =>
      rw [expression_lambda hk]
      have hbody := hbelow hk body (by simp [Kind.children]) delayed
      refine fun st => (abstraction_makes hf hk (Or.inr rfl) hbody st).imp_ok ?_
      rintro e st' ⟨hle, he⟩
      refine ⟨hle, he.mono fun v hv => ?_⟩
      exact hv.mono (fun d hd => hd.mem_walkFrom) (Nat.le_refl _) (Nat.le_refl _)
    | @block items hk =>
      have hitems : items.zipIdx.map (·.1) = items := by simp
      have hchildren : ∀ p ∈ items.zipIdx, p.1 ∈ f.children n := fun p hp =>
        Forest.mem_children_of_kind hk (List.fst_mem_of_mem_zipIdx hp)
      have hnodup : (items.zipIdx.map (·.1)).Nodup := by
        have hchild := hf.children_nodup n
        rwa [Forest.children_of_kind hk, Kind.children, ← hitems] at hchild
      rw [expression_block hk]
      refine fun st => (items_make hf hnodup hchildren (fun p hp => item_makes hf
        fun m hm delayed => ?_) st).imp_ok ?_
      · have hlt := Forest.index_lt_of_mem_children (hchildren p hp)
        exact ih m.index (Nat.lt_of_le_of_lt hm hlt) m delayed rfl
      · rintro e st' ⟨hle, he⟩
        refine ⟨hle, he.mono fun v hv => hv.mono ?_ (Nat.le_refl _) (Nat.le_refl _)⟩
        rintro d ⟨p, hp, hd⟩
        exact Forest.mem_walkFrom_of_child (hchildren p hp) hd
    | refused e hthrow =>
      intro st
      rw [hthrow, lands_throw]
      trivial

theorem function_makes (hf : f.NamedOnce) (n : NodeId) : Makes f (Under f n) (function f n) := by
  intro st
  unfold function
  split
  · rename_i name params returns body hk
    have habs : Abstracts (.function name params returns body) params body :=
      Or.inl ⟨name, returns, rfl⟩
    exact abstraction_makes hf hk habs (expression_makes hf body []) st
  · exact lands_throw.2 trivial

end Making

end Lowering

end SemanticAnalysis
