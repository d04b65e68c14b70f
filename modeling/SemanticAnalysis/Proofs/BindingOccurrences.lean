import SemanticAnalysis.Proofs.LoweredBinders
import SemanticAnalysis.Proofs.TermParts

/-!
Occurrences of variables in lowered terms. A term reads variables and binds them, by
lambdas and lets. While a function is lowered every synthetic variable that is made is
bound once and read nowhere, whatever order the terms are put together in, and what
else is bound are declarations of variables, functions and parameters. So no binder
binds again what is bound around it, no builtin is bound, and a type that is assumed
for a bound declaration is one without variables.
-/

namespace SemanticAnalysis

inductive Occurrence where
  | bound (x : CoreVar)
  | read (x : CoreVar)
deriving DecidableEq

def Occurrence.readsBuiltin : Occurrence → Bool
  | .read (.builtin _) => true
  | _ => false

namespace Term

mutual

def occurrences : Term → List Occurrence
  | .var x => [.read x]
  | .app arg func _ => func.occurrences ++ arg.occurrences
  | .lam x body _ => .bound x :: body.occurrences
  | .letIn binder x usage => .bound x :: (binder.occurrences ++ usage.occurrences)
  | .number _ | .floating _ => []
  | .tuple items => occurrencesIn items

def occurrencesIn : List Term → List Occurrence
  | [] => []
  | item :: rest => item.occurrences ++ occurrencesIn rest

end

/-- What a lambda or a let binds is not bound again in its scope. -/
def BindsApart : Term → Prop
  | .lam x body _ => .bound x ∉ body.occurrences
  | .letIn _ x usage => .bound x ∉ usage.occurrences
  | _ => True

section Occurrences

variable {e : Term}

theorem occurrencesIn_eq (items : List Term) : occurrencesIn items = items.flatMap occurrences := by
  induction items with
  | nil => rfl
  | cons item rest ih => rw [occurrencesIn, ih, List.flatMap_cons]

@[simp]
theorem occurrences_withOrigin (e : Term) (n : NodeId) :
    (e.withOrigin n).occurrences = e.occurrences := by
  cases e <;> simp [withOrigin, occurrences]

@[simp]
theorem occurrences_call (args : List Term) (func : Term) :
    (call args func).occurrences = func.occurrences ++ args.flatMap occurrences := by
  have hfold : ∀ (args : List Term) (func : Term),
      (args.foldl (fun f arg => .app arg f none) func).occurrences =
        func.occurrences ++ args.flatMap occurrences := by
    intro args
    induction args with
    | nil => simp
    | cons arg rest ih =>
      intro func
      simp [ih, occurrences]
  cases args with
  | nil => simp [call, unit, occurrences, occurrencesIn]
  | cons arg rest => exact hfold (arg :: rest) func

@[simp]
theorem occurrences_abstract (binds : List CoreVar) (body : Term) :
    (abstract binds body).occurrences = binds.map .bound ++ body.occurrences := by
  induction binds with
  | nil => rfl
  | cons x rest ih =>
    have habstract : abstract (x :: rest) body = .lam x (abstract rest body) none := rfl
    rw [habstract, occurrences, ih]
    rfl

/-- Where no binder binds again what is bound around it, nothing that is taken is bound, and every
binder is apart from those in its scope. -/
theorem binds_apart_of_rebindsNone {taken : CoreVar → Bool}
    (h : e.rebindsNone .binders taken = true) :
    (∀ x, .bound x ∈ e.occurrences → taken x = false) ∧ ∀ e', Part e' e → e'.BindsApart := by
  have hparts : ∀ {e : Term}, e.BindsApart →
      (∀ c ∈ e.subterms, ∀ e', Part e' c → e'.BindsApart) → ∀ e', Part e' e → e'.BindsApart := by
    intro e hself hsub e' hpart
    rcases part_iff.1 hpart with rfl | ⟨c, hc, hpart⟩
    · exact hself
    · exact hsub c hc e' hpart
  induction e generalizing taken with
  | var x => exact ⟨by simp [occurrences], hparts trivial (by simp [subterms])⟩
  | number | floating => exact ⟨by simp [occurrences], hparts trivial (by simp [subterms])⟩
  | app arg func origin iharg ihfunc =>
    simp only [rebindsNone, Bool.and_eq_true] at h
    obtain ⟨harg, hargs⟩ := iharg h.1
    obtain ⟨hfunc, hfuncs⟩ := ihfunc h.2
    refine ⟨fun x hx => ?_, hparts trivial ?_⟩
    · rw [occurrences, List.mem_append] at hx
      exact hx.elim (hfunc x) (harg x)
    · simpa [subterms] using ⟨hfuncs, hargs⟩
  | lam x body origin ih =>
    simp only [rebindsNone, reduceCtorEq, decide_false, Bool.false_or, Bool.and_eq_true,
      Bool.not_eq_true'] at h
    obtain ⟨hbody, hbodies⟩ := ih h.2
    have hapart : ∀ y, .bound y ∈ body.occurrences → y ≠ x ∧ taken y = false := fun y hy => by
      simpa using hbody y hy
    refine ⟨fun y hy => ?_, hparts (fun hx => (hapart x hx).1 rfl) ?_⟩
    · simp only [occurrences, List.mem_cons, Occurrence.bound.injEq] at hy
      rcases hy with rfl | hy
      · exact h.1
      · exact (hapart y hy).2
    · simpa [subterms] using hbodies
  | letIn binder x usage ihbinder ihusage =>
    simp only [rebindsNone, Bool.and_eq_true, Bool.not_eq_true'] at h
    obtain ⟨hbinder, hbinders⟩ := ihbinder h.1.2
    obtain ⟨husage, husages⟩ := ihusage h.2
    have hapart : ∀ y, .bound y ∈ usage.occurrences → y ≠ x ∧ taken y = false := fun y hy => by
      simpa using husage y hy
    refine ⟨fun y hy => ?_, hparts (fun hx => (hapart x hx).1 rfl) ?_⟩
    · simp only [occurrences, List.mem_cons, List.mem_append, Occurrence.bound.injEq] at hy
      rcases hy with rfl | hy | hy
      · exact h.1.1
      · exact hbinder y hy
      · exact (hapart y hy).2
    · simpa [subterms] using ⟨hbinders, husages⟩
  | tuple items ih =>
    rw [rebindsNone, rebindNone_iff] at h
    refine ⟨fun x hx => ?_, hparts trivial fun c hc => (ih c hc (h c hc)).2⟩
    rw [occurrences, occurrencesIn_eq] at hx
    obtain ⟨c, hc, hx⟩ := List.mem_flatMap.1 hx
    exact (ih c hc (h c hc)).1 x hx

end Occurrences

end Term

namespace Lowering

variable {t : Tree} {f : Forest} {n x d body : NodeId} {k : Kind}
  {cs params delayed : List NodeId} {a b c : Nat} {e : Term} {es : List Term}
  {os os' : List Occurrence} {o : Occurrence}

section Assembly

theorem occurrences_fixpoint (x : NodeId) (e : Term) : (fixpoint x e).occurrences =
    .read (.builtin .fix) :: .bound (.decl x) :: e.occurrences := rfl

/-- Branches that are put together read builtins apart from what their parts bind and read. -/
theorem count_branches (ho : o.readsBuiltin = false) (otherwise : Term) (terms : List Term)
    (heven : terms.length % 2 = 0) : (branches otherwise terms).occurrences.count o =
      ((otherwise :: terms).flatMap Term.occurrences).count o := by
  have hread : List.count o [.read (.builtin .conditional)] = 0 := by
    rw [List.count_eq_zero, List.mem_singleton]
    intro heq
    rw [heq] at ho
    cases ho
  fun_induction branches otherwise terms with
  | case1 otherwise condition body rest ih =>
    simp only [List.length_cons] at heven
    rw [ih (by omega)]
    simp only [branch, Term.occurrences_call, Term.occurrences, List.flatMap_cons,
      List.flatMap_nil, List.count_append, List.count_nil, hread]
    omega
  | case2 terms otherwise hterms =>
    rcases terms with _ | ⟨condition, _ | ⟨body, rest⟩⟩
    · simp
    · simp at heven
    · exact (hterms condition body rest rfl).elim

theorem count_builtin (ho : o.readsBuiltin = false) (b : Builtin) (args : List Term) :
    (Term.call args (.var (.builtin b))).occurrences.count o =
      (args.flatMap Term.occurrences).count o := by
  have hread : o ≠ .read (.builtin b) := by
    intro heq
    rw [heq] at ho
    cases ho
  simp [Term.occurrences, hread.symm]

/-- A term that is put together binds what its operands bind, each as often, and reads builtins
apart from what they read. -/
theorem count_assemble (hops : operands k = some cs) (hlen : es.length = cs.length)
    (ho : o.readsBuiltin = false) :
    (assemble n k es).occurrences.count o = (es.flatMap Term.occurrences).count o := by
  cases k <;> simp only [operands, Option.some.injEq, reduceCtorEq] at hops <;> subst hops
  case number text | floating text =>
    rw [List.eq_nil_of_length_eq_zero hlen]
    rfl
  case tuple items => rw [assemble, Term.occurrences, Term.occurrencesIn_eq]
  case call callee args =>
    cases es with
    | nil => simp at hlen
    | cons func terms => simp [assemble]
  case assign target value => exact count_builtin ho .assign es
  case loop condition body => exact count_builtin ho .loop es
  case conditional condition body elifs otherwise =>
    have heven := length_pairs (elifs.reverse ++ [(condition, body)])
    rw [List.length_append] at hlen
    cases otherwise with
    | none =>
      have hbranches := count_branches ho Term.unit es (by simp [hlen])
      simpa [assemble, Term.unit, Term.occurrences, Term.occurrencesIn] using hbranches
    | some other =>
      cases es with
      | nil => simp at hlen
      | cons last terms =>
        refine count_branches ho last terms ?_
        simp only [Option.toList_some, List.length_cons, List.length_nil] at hlen
        omega

end Assembly

section Tallies

/-- Occurrences that bind each synthetic variable between two numbers once, no other variables but
those of binders, and read no synthetic variable. -/
structure Tally (f : Forest) (a b : Nat) (os : List Occurrence) : Prop where
  le : a ≤ b
  bound : ∀ x, .bound x ∈ os → Region (fun d => f.isBinder d = true) a b x
  once : ∀ i, a ≤ i → i < b → os.count (.bound (.synthetic i)) = 1
  unread : ∀ i, .read (.synthetic i) ∉ os

theorem Tally.count_eq_zero (h : Tally f a b os) {i : Nat} (hi : i < a ∨ b ≤ i) :
    os.count (.bound (.synthetic i)) = 0 := by
  rw [List.count_eq_zero]
  intro hmem
  rcases h.bound _ hmem with ⟨d, hd, -⟩ | ⟨j, hj, hlow, hhigh⟩
  · cases hd
  · cases hj
    omega

/-- Only what is not a read of a builtin counts. -/
theorem Tally.of_count (h : Tally f a b os)
    (hcount : ∀ o, o.readsBuiltin = false → os'.count o = os.count o) : Tally f a b os' := by
  have hmem : ∀ {o : Occurrence}, o.readsBuiltin = false → o ∈ os' → o ∈ os := by
    intro o ho hmem
    rw [← List.count_pos_iff] at hmem ⊢
    rwa [← hcount o ho]
  refine ⟨h.le, fun x hx => h.bound x (hmem rfl hx), fun i hlow hhigh => ?_, fun i hi => ?_⟩
  · rw [hcount _ rfl]
    exact h.once i hlow hhigh
  · exact h.unread i (hmem rfl hi)

theorem Tally.perm (h : Tally f a b os) (hperm : os.Perm os') : Tally f a b os' :=
  h.of_count fun o _ => (hperm.count_eq o).symm

/-- Occurrences that follow one another bind the synthetic variables of both ranges. -/
theorem Tally.append (h : Tally f a b os) (h' : Tally f b c os') : Tally f a c (os ++ os') where
  le := Nat.le_trans h.le h'.le
  bound x hx := by
    rcases List.mem_append.1 hx with hx | hx
    · exact (h.bound x hx).mono (fun _ hd => hd) (Nat.le_refl _) h'.le
    · exact (h'.bound x hx).mono (fun _ hd => hd) h.le (Nat.le_refl _)
  once i hlow hhigh := by
    rw [List.count_append]
    by_cases hi : i < b
    · rw [h.once i hlow hi, h'.count_eq_zero (Or.inl hi)]
    · have hge : b ≤ i := by omega
      rw [h.count_eq_zero (Or.inr hge), h'.once i hge hhigh]
  unread i hi := (List.mem_append.1 hi).elim (h.unread i) (h'.unread i)

theorem tally_nil (f : Forest) (a : Nat) : Tally f a a [] where
  le := Nat.le_refl _
  bound := by simp
  once i hlow hhigh := by omega
  unread := by simp

theorem tally_read {v : CoreVar} (hv : ∀ i, v ≠ .synthetic i) : Tally f a a [.read v] where
  le := Nat.le_refl _
  bound := by simp
  once i hlow hhigh := by omega
  unread i hi := hv i (by simpa [eq_comm] using hi)

theorem tally_decls {ds : List NodeId} (h : ∀ d ∈ ds, f.isBinder d = true) :
    Tally f a a ((ds.map CoreVar.decl).map .bound) where
  le := Nat.le_refl _
  bound v hv := by
    obtain ⟨d, hd, rfl⟩ : ∃ d ∈ ds, CoreVar.decl d = v := by simpa using hv
    exact Or.inl ⟨d, rfl, h d hd⟩
  once i hlow hhigh := by omega
  unread := by simp

theorem tally_synthetic (f : Forest) (a : Nat) : Tally f a (a + 1) [.bound (.synthetic a)] where
  le := Nat.le_succ a
  bound v hv := by
    obtain rfl : v = .synthetic a := by simpa using hv
    exact Or.inr ⟨a, rfl, Nat.le_refl a, Nat.lt_succ_self a⟩
  once i hlow hhigh := by
    obtain rfl : i = a := by omega
    simp
  unread := by simp

/-- A declaration may be bound around what is counted already. -/
theorem Tally.bind (h : Tally f a b os) (hd : f.isBinder d = true) :
    Tally f a b (.bound (.decl d) :: os) := by
  have hdecl : Tally f a a (([d].map CoreVar.decl).map .bound) := tally_decls (by simpa using hd)
  exact hdecl.append h

theorem Tally.fixpoint (h : Tally f a b e.occurrences) (hx : f.isBinder x = true) :
    Tally f a b (fixpoint x e).occurrences := by
  rw [occurrences_fixpoint]
  exact (tally_read (by simp)).append (h.bind hx)

end Tallies

section Lowered

def Tallies (f : Forest) (x : Lower Term) : Prop := ∀ st,
  Lands x st (fun e st' => Tally f st.synthetics st'.synthetics e.occurrences) fun _ _ => True

/-- A reference binds nothing. -/
theorem resolved_tallies {target : Reference} (hk : f.kind? n = some (.resolved target d)) :
    Tallies f (expression f delayed n) := by
  intro st
  rw [expression_resolved hk, reference, lands_bind]
  refine (preserves_referral (I := fun st' => st'.synthetics = st.synthetics)
    (fun _ _ h => h) (fun _ _ _ h => h) n st rfl).imp (fun _ st₁ hst => ?_) fun _ _ _ => trivial
  have hread : Tally f st.synthetics st.synthetics [.read (.decl d)] := tally_read (by simp)
  split
  · rw [lands_pure, hst]
    exact hread
  · rw [lands_pure, hst]
    exact hread

/-- An expression put together from operands binds what they bind. -/
theorem operands_tally (hk : f.kind? n = some k) (hops : operands k = some cs)
    (ih : ∀ c ∈ cs, Tallies f (expression f delayed c)) : Tallies f (expression f delayed n) := by
  intro st
  rw [expression_operands hk hops, lands_map]
  refine Lands.imp_ok (lands_mapM (fun done es st' => es.length = done.length ∧
    Tally f st.synthetics st'.synthetics (es.flatMap Term.occurrences))
    ⟨rfl, tally_nil _ _⟩ ?_) ?_
  · intro done c rest hcs es st₁ hdone
    obtain ⟨hlen, htally⟩ := hdone
    refine (ih c (by simp [hcs]) st₁).imp_ok fun e st₂ he => ⟨by simp [hlen], ?_⟩
    simpa using htally.append he
  · intro es st' hall
    obtain ⟨hlen, htally⟩ := hall
    exact htally.of_count fun o ho => count_assemble hops hlen ho

theorem binders_tally (hparams : ∀ p ∈ params, f.isBinder p = true) (st : Lowering) :
    Lands (binders params) st (fun binds st' =>
      Tally f st.synthetics st'.synthetics (binds.map .bound)) fun _ _ => True := by
  unfold binders
  split
  · simp only [lands_map, synthetic, lands_bind, lands_get, lands_set, lands_pure]
    exact tally_synthetic _ _
  · rw [lands_pure]
    exact tally_decls hparams

/-- An abstraction binds its parameters, or one synthetic variable that stands for none. -/
theorem abstraction_tallies (hparams : ∀ p ∈ params, f.isBinder p = true) {y : Lower Term}
    (ih : Tallies f y) : Tallies f (abstraction f n params y) := by
  intro st
  rw [abstraction_eq]
  simp only [lands_bind, lands_pure]
  have hassume : Preserves (fun st' => st'.synthetics = st.synthetics)
      (assumeParameters f params) :=
    preserves_parameters params fun p _ type _ => preserves_declared (fun _ _ _ h => h) type
  refine (hassume st rfl).imp (fun _ st₁ h₁ => ?_) fun _ _ _ => trivial
  refine (binders_tally hparams st₁).imp_ok fun binds st₂ hbinds => ?_
  refine (ih st₂).imp_ok fun e st₃ he => ?_
  rw [Term.occurrences_withOrigin, Term.occurrences_abstract, ← h₁]
  exact hbinds.append he

def Item.occurrences : Item → List Occurrence
  | .binding binder v => .bound v :: binder.occurrences
  | .value term => term.occurrences

def ItemTallies (f : Forest) (isLast : Bool) (y : Lower Item) : Prop := ∀ st,
  Lands y st (fun it st' => Tally f st.synthetics st'.synthetics it.occurrences ∧
    ∀ e, it = .value e → isLast = true) fun _ _ => True

/-- Parameters of functions and lambdas are no fields. -/
theorem Abstracts.isBinder (ht : t.WellFormed) (hk : t.kind? n = some k)
    (h : Abstracts k params body) : ∀ p ∈ params, t.isBinder p = true := by
  intro p hp
  have hplace : (Role.parameter, p) ∈ k.places := by
    rcases h with ⟨name, returns, rfl⟩ | rfl <;> simp [Kind.places, hp]
  obtain ⟨hparent, kp, hkp, hadmits⟩ := ht.child_fits hk hplace
  have hstruct : isStruct t.toForest n = false := by
    rcases h with ⟨name, returns, rfl⟩ | rfl <;> simp [isStruct, hk]
  cases kp <;> simp [Role.admits] at hadmits
  simp [Forest.isBinder, hkp, hparent, hstruct]

/-- An item of a block binds its own name or a synthetic variable, besides what its value binds. -/
theorem item_tallies (ht : t.WellFormed) {isLast : Bool}
    (ih : ∀ m, m.index ≤ x.index → ∀ delayed,
      Tallies t.toForest (expression t.toForest delayed m)) :
    ItemTallies t.toForest isLast (item t.toForest delayed isLast x) := by
  unfold item
  split
  · rename_i type value hk
    have hx : t.isBinder x = true := by simp [Forest.isBinder, hk]
    have hvalue := ih value (Nat.le_of_lt (Forest.index_lt_of_kind hk (by simp [Kind.children])))
    intro st
    rw [lands_bind]
    refine (preserves_declared (I := fun st' => st'.synthetics = st.synthetics)
      (fun _ _ _ h => h) type st rfl).imp (fun _ st₁ h₁ => ?_) fun _ _ _ => trivial
    simp only [reach, lands_bind, lands_modify]
    rw [← h₁]
    split
    · simp only [lands_bind, lands_map, lands_pure]
      refine (hvalue _ _).imp_ok fun e st₂ he => ⟨?_, by simp⟩
      exact (he.fixpoint hx).bind hx
    · simp only [lands_bind, lands_pure]
      exact (hvalue _ _).imp_ok fun e st₂ he => ⟨he.bind hx, by simp⟩
  · rename_i name params returns body hk
    have hx : t.isBinder x = true := by simp [Forest.isBinder, hk]
    have habs : Abstracts (.function name params returns body) params body :=
      Or.inl ⟨name, returns, rfl⟩
    have hbody := ih body (Nat.le_of_lt (Forest.index_lt_of_kind hk (by simp [Kind.children])))
    intro st
    simp only [reach, lands_bind, lands_modify, lands_pure]
    refine (abstraction_tallies (habs.isBinder ht hk) (hbody _) _).imp_ok fun e st₂ he => ?_
    refine ⟨Tally.bind ?_ hx, by simp⟩
    split
    · exact he.fixpoint hx
    · exact he
  · intro st
    rw [lands_bind]
    refine (ih x (Nat.le_refl _) _ st).imp_ok fun e st₁ he => ?_
    split
    · rename_i hlast
      exact lands_pure.2 ⟨he, fun _ _ => hlast⟩
    · -- the variable is made after the term that it is bound to
      simp only [synthetic, lands_bind, lands_get, lands_set, lands_pure]
      refine ⟨?_, by simp⟩
      exact (he.append (tally_synthetic _ st₁.synthetics)).perm List.perm_append_comm

/-- Items of a block in turn: the variables of one are made before those of the next. -/
theorem items_tally {items : List NodeId} {i count : Nat} (hcount : i + items.length = count)
    {g : Bool → NodeId → Lower Item}
    (ih : ∀ x ∈ items, ∀ isLast, ItemTallies f isLast (g isLast x)) :
    Tallies f (chain <$> (items.zipIdx i).mapM fun p => g (p.2 + 1 = count) p.1) := by
  induction items generalizing i with
  | nil =>
    intro st
    simp only [List.zipIdx_nil, List.mapM_nil, lands_map, lands_pure]
    exact tally_nil _ _
  | cons x rest ihrest =>
    intro st
    rw [List.length_cons] at hcount
    simp only [List.zipIdx_cons, List.mapM_cons, lands_map, lands_bind, lands_pure]
    refine (ih x (List.mem_cons_self ..) _ st).imp_ok fun it st₁ hit => ?_
    obtain ⟨htally, hlast⟩ := hit
    have hothers := ihrest (i := i + 1) (by omega)
      (fun y hy => ih y (List.mem_cons_of_mem x hy)) st₁
    rw [lands_map] at hothers
    cases it with
    | value e =>
      have hend : i + 1 = count := by simpa using hlast e rfl
      obtain rfl : rest = [] := List.eq_nil_of_length_eq_zero (by omega)
      simpa [chain, Item.occurrences] using htally
    | binding e v => exact hothers.imp_ok fun its st₂ hits => htally.append hits

/-- Lowering an expression of a well-formed tree binds once each synthetic variable that it makes,
and no declarations but of binders. -/
theorem expression_tallies (ht : t.WellFormed) (n : NodeId) (delayed : List NodeId) :
    Tallies t.toForest (expression t.toForest delayed n) := by
  induction hi : n.index using Nat.strongRecOn generalizing n delayed with
  | ind i ih =>
    subst hi
    have hbelow : ∀ {k : Kind}, t.kind? n = some k → ∀ c ∈ k.children, ∀ delayed,
        Tallies t.toForest (expression t.toForest delayed c) := fun hk c hc delayed =>
      ih c.index (Forest.index_lt_of_kind hk hc) c delayed rfl
    cases form t.toForest n with
    | operands hk hops =>
      exact operands_tally hk hops fun c hc =>
        hbelow hk c ((operands_perm hops).mem_iff.1 hc) delayed
    | reference hk => exact resolved_tallies hk
    | @lambda params body hk =>
      rw [expression_lambda hk]
      have habs : Abstracts (.lambda params body) params body := Or.inr rfl
      exact abstraction_tallies (habs.isBinder ht hk)
        (hbelow hk body (by simp [Kind.children]) delayed)
    | @block items hk =>
      rw [expression_block hk]
      refine items_tally (Nat.zero_add _) fun x hx isLast => item_tallies ht fun m hm delayed => ?_
      have hlt := Forest.index_lt_of_kind hk (by simpa [Kind.children] using hx)
      exact ih m.index (Nat.lt_of_le_of_lt hm hlt) m delayed rfl
    | refused e hthrow =>
      intro st
      rw [hthrow, lands_throw]
      trivial

theorem function_tallies (ht : t.WellFormed) (n : NodeId) :
    Tallies t.toForest (function t.toForest n) := by
  unfold function
  split
  · rename_i name params returns body hk
    have habs : Abstracts (.function name params returns body) params body :=
      Or.inl ⟨name, returns, rfl⟩
    exact abstraction_tallies (habs.isBinder ht hk) (expression_tallies ht body [])
  · exact fun st => lands_throw.2 trivial

end Lowered

section Assumed

/-- The types that are assumed for binders are fixed and have no variables. -/
def GroundBinders (f : Forest) (st : Lowering) : Prop :=
  ∀ d σ, f.isBinder d = true → st.assumptions.get? (.decl d) = some σ →
    σ.isMono = true ∧ σ.body.vars = []

theorem GroundBinders.assume {st : Lowering} {σ : Scheme} (h : GroundBinders f st)
    (hσ : f.isBinder d = true → σ.isMono = true ∧ σ.body.vars = []) :
    GroundBinders f { st with assumptions := st.assumptions.insert (.decl d) σ } := by
  intro p δ hp hδ
  rcases OrderedMap.of_get?_insert hδ with ⟨heq, rfl⟩ | hδ
  · cases heq
    exact hσ hp
  · exact h p δ hp hδ

theorem stable_groundBinders (f : Forest) : Stable f (GroundBinders f) where
  referral n d := by
    refine preserves_referral (fun st store h => h) (fun st σ hd h => h.assume fun hbinder => ?_) n
    simp [hd] at hbinder
  declared n k type _ _ := preserves_declared (fun st A hA h => h.assume fun _ => ⟨rfl, hA⟩) type
  silent st bound synthetics h := h

end Assumed

/-- The term that a function of a well-formed tree lowers to never binds again what is bound around
a binder. Each synthetic variable that was made is bound once and no synthetic variable is read, no
builtin is bound, and what is assumed for a declaration that is bound has no type variables. -/
theorem lowering_never_rebinds {t : Tree} (ht : t.WellFormed) (g : NodeId) (store : TypeStore)
    {term : Term} {st : Lowering}
    (h : (function t.toForest g).run.run (start store) = (.ok term, st)) :
    (∀ e, Term.Part e term → e.BindsApart) ∧
    (∀ i, term.occurrences.count (.bound (.synthetic i)) = (if i < st.synthetics then 1 else 0) ∧
      .read (.synthetic i) ∉ term.occurrences) ∧
    (∀ b, .bound (.builtin b) ∉ term.occurrences) ∧
    ∀ d σ, .bound (.decl d) ∈ term.occurrences → st.assumptions.get? (.decl d) = some σ →
      σ.isMono = true ∧ σ.body.vars = [] := by
  have hmakes := function_makes ht.named_once g (start store)
  have htallies := function_tallies ht g (start store)
  have hground := (stable_groundBinders t.toForest).function g (start store) fun d σ _ hσ => by
    cases hσ
  simp only [lands_iff_run, h] at hmakes htallies hground
  have hbinds := hmakes.2.binds .binders (fun _ => false) fun _ _ => rfl
  refine ⟨(Term.binds_apart_of_rebindsNone hbinds).2, fun i => ⟨?_, htallies.unread i⟩, ?_, ?_⟩
  · split
    · rename_i hi
      exact htallies.once i (Nat.zero_le i) hi
    · exact htallies.count_eq_zero (Or.inr (by omega))
  · intro b hb
    rcases htallies.bound _ hb with ⟨d, hd, -⟩ | ⟨i, hi, -⟩
    · cases hd
    · cases hi
  · intro d σ hd hσ
    rcases htallies.bound _ hd with ⟨d', heq, hbinder⟩ | ⟨i, hi, -⟩
    · cases heq
      exact hground d σ hbinder hσ
    · cases hi

/-- A function without parameters whose block has a variable with a declared type, a recursive
function with a declared parameter, a call of it and a value. -/
def recursiveBlock : Tree := Tree.ofKinds [
  .structDecl ⟨1⟩ [] [],
  .resolved ⟨⟨1⟩, none⟩ ⟨0⟩, .call ⟨1⟩ [], .resolvedType ⟨⟨1⟩, none⟩ ⟨0⟩,
  .varDecl ⟨2⟩ false (some ⟨3⟩) ⟨2⟩,
  .resolvedType ⟨⟨1⟩, none⟩ ⟨0⟩, .parameter ⟨3⟩ (some ⟨5⟩),
  .resolved ⟨⟨4⟩, none⟩ ⟨10⟩, .resolved ⟨⟨3⟩, none⟩ ⟨6⟩, .call ⟨7⟩ [⟨8⟩],
  .function ⟨4⟩ [⟨6⟩] none ⟨9⟩,
  .resolved ⟨⟨4⟩, none⟩ ⟨10⟩, .resolved ⟨⟨2⟩, none⟩ ⟨4⟩, .call ⟨11⟩ [⟨12⟩],
  .resolved ⟨⟨2⟩, none⟩ ⟨4⟩, .block [⟨4⟩, ⟨10⟩, ⟨13⟩, ⟨14⟩], .function ⟨5⟩ [] none ⟨15⟩,
  .moduleDecl ⟨6⟩ false [⟨0⟩, ⟨16⟩], .file [⟨17⟩]]

def recursiveBlockRun : Except LowerError Term × Lowering :=
  (function recursiveBlock.toForest ⟨16⟩).run.run (start (TypeStore.start Supply.empty))

theorem lowering_never_rebinds_recursive : recursiveBlock.WellFormed ∧
    recursiveBlock.FullyResolved ∧ ∃ term st σ, recursiveBlockRun = (.ok term, st) ∧
      (∀ e, Term.Part e term → e.BindsApart) ∧ st.synthetics = 2 ∧
      (∀ i < 2, term.occurrences.count (.bound (.synthetic i)) = 1) ∧
      .bound (.decl ⟨6⟩) ∈ term.occurrences ∧ st.assumptions.get? (.decl ⟨6⟩) = some σ ∧
      σ.isMono = true ∧ σ.body.vars = [] := by
  have ht : recursiveBlock.WellFormed := by decide +kernel
  have hok : (recursiveBlockRun.1.toOption.any fun term =>
      term.occurrences.contains (.bound (.decl ⟨6⟩))) = true := by decide +kernel
  have hmade : recursiveBlockRun.2.synthetics = 2 := by decide +kernel
  have hassumed : (recursiveBlockRun.2.assumptions.get? (.decl ⟨6⟩)).isSome = true := by
    decide +kernel
  rcases hrun : recursiveBlockRun with ⟨e | term, st⟩
  · simp [hrun, Except.toOption] at hok
  · rw [hrun] at hok hmade hassumed
    obtain ⟨σ, hσ⟩ := Option.isSome_iff_exists.1 hassumed
    have hmem : .bound (.decl ⟨6⟩) ∈ term.occurrences := by simpa [Except.toOption] using hok
    obtain ⟨hapart, honce, -, hground⟩ :=
      lowering_never_rebinds ht ⟨16⟩ (TypeStore.start Supply.empty) hrun
    refine ⟨ht, by decide +kernel, term, st, σ, rfl, hapart, hmade, fun i hi => ?_, hmem, hσ,
      hground ⟨6⟩ σ hmem hσ⟩
    have hcount := (honce i).1
    rwa [hmade, if_pos hi] at hcount

end Lowering

end SemanticAnalysis
