import SemanticAnalysis.Proofs.ParameterTypes
import SemanticAnalysis.Proofs.TermParts

/-!
Origins of lowered terms. The term of an expression has a part for each call,
function and lambda in it and for no other node. The part of a function or a lambda
abstracts over its parameters, and nothing but local bindings is bound by a let. The
declared types of those parameters are assumed, and nothing else is ever assumed
about them.
-/

namespace SemanticAnalysis

def Forest.isJudged (f : Forest) (n : NodeId) : Bool :=
  match f.kind? n with
  | some (.call _ _) | some (.lambda _ _) | some (.function _ _ _ _) => true
  | _ => false

namespace Lowering

open Term (Part Wraps Plain)

variable {t : Tree} {f : Forest} {n c x p : NodeId} {k : Kind} {cs params delayed : List NodeId}
  {own : Option NodeId} {Γ Δ : Context}
  {st st₁ st₂ : Lowering} {e : Term} {es : List Term}

section Wrapping

theorem wraps_fixpoint (own : Option NodeId) (x : NodeId) (e : Term) :
    Wraps (Plain own) [e] (fixpoint x e) := by
  have happ : Wraps (Plain own) [.var (.builtin .fix), .lam (.decl x) e none] (fixpoint x e) :=
    Term.wraps_app (Or.inl rfl)
  have hlam : Wraps (Plain own) [e] (.lam (.decl x) e none) :=
    Term.wraps_plain (.lam (.decl x) e none) (Or.inl rfl) nofun
  exact (happ.step (Term.wraps_var _ _)).step hlam

/-- A call of a builtin is made of its arguments. -/
theorem wraps_builtin (own : Option NodeId) (b : Builtin) (args : List Term) :
    Wraps (Plain own) args (Term.call args (.var (.builtin b))) := by
  simpa using Term.wraps_call args (Term.wraps_var _ (.builtin b))

/-- A conditional is made of its last branch and of the condition and the body of each other. -/
theorem wraps_branches (own : Option NodeId) (otherwise : Term) (terms : List Term)
    (h : terms.length % 2 = 0) :
    Wraps (Plain own) (otherwise :: terms) (branches otherwise terms) := by
  fun_induction branches otherwise terms with
  | case1 otherwise condition body rest ih =>
    have hperm : ([condition, body] ++ [otherwise]).Perm ([otherwise] ++ [condition, body]) :=
      List.perm_append_comm
    have hbranch : Wraps (Plain own) [otherwise, condition, body]
        (branch condition body otherwise) := (wraps_builtin _ .conditional _).perm hperm
    have heven : rest.length % 2 = 0 := by
      simp only [List.length_cons] at h
      omega
    exact (ih heven).step hbranch
  | case2 terms otherwise hterms =>
    cases terms with
    | nil => exact Term.wraps_self _ otherwise
    | cons c rest =>
      cases rest with
      | nil => simp at h
      | cons b rest => exact (hterms c b rest rfl).elim

/-- A term that is put together is made of the terms of its operands, and only a call stems from
its node. -/
theorem wraps_assemble (n : NodeId) (hops : operands k = some cs) (hlen : es.length = cs.length)
    (hown : ∀ callee args, k = .call callee args → own = some n) :
    Wraps (Plain own) es (assemble n k es) := by
  cases k <;> simp only [operands, Option.some.injEq, reduceCtorEq] at hops <;> subst hops
  case number text =>
    obtain rfl := List.eq_nil_of_length_eq_zero hlen
    exact Term.wraps_plain (.number text) (Or.inl rfl) (by simp)
  case floating text =>
    obtain rfl := List.eq_nil_of_length_eq_zero hlen
    exact Term.wraps_plain (.floating text) (Or.inl rfl) (by simp)
  case tuple items =>
    exact Term.wraps_plain (.tuple es) (Or.inl rfl) (by simp)
  case call callee args =>
    rw [hown callee args rfl]
    cases es with
    | nil => simp at hlen
    | cons func terms => exact Term.wraps_call_withOrigin terms func
  case assign target value => exact wraps_builtin _ .assign es
  case loop condition body => exact wraps_builtin _ .loop es
  case conditional condition body elifs otherwise =>
    have heven := length_pairs (elifs.reverse ++ [(condition, body)])
    rw [List.length_append] at hlen
    cases otherwise with
    | none =>
      have hnone := wraps_branches own Term.unit es (by simp [hlen])
      exact hnone.step (Term.wraps_unit _)
    | some other =>
      cases es with
      | nil => simp at hlen
      | cons last terms =>
        refine wraps_branches _ last terms ?_
        simp only [Option.toList_some, List.length_cons, List.length_nil] at hlen
        omega

end Wrapping

section Judged

theorem AbstractsAt.isJudged (h : AbstractsAt f n params) : f.isJudged n = true := by
  obtain ⟨k, body, hk, ⟨name, returns, rfl⟩ | rfl⟩ := h <;> simp [Forest.isJudged, hk]

theorem isJudged_of_typeExpr (hk : f.kind? n = some k) (htype : k.isTypeExpr = true) :
    f.isJudged n = false := by
  cases k <;> simp_all [Kind.isTypeExpr, Forest.isJudged]

/-- Of what is put together from operands only calls are recorded. -/
theorem isJudged_operands (hk : f.kind? n = some k) (hops : operands k = some cs) :
    f.isJudged n = true ↔ ∃ callee args, k = .call callee args := by
  cases k <;> simp_all [operands, Forest.isJudged]

theorem origin?_assemble (hk : f.kind? n = some k) (hops : operands k = some cs)
    (hlen : es.length = cs.length) (h : f.isJudged n = true) :
    (assemble n k es).origin? = some n := by
  obtain ⟨callee, args, rfl⟩ := (isJudged_operands hk hops).1 h
  cases es with
  | nil => simp [← Option.some.inj hops] at hlen
  | cons func terms => exact Term.origin?_call_withOrigin terms func

end Judged

section Rendering

def BindersOf (params : List NodeId) (binds : List CoreVar) : Prop :=
  (params = [] ∧ ∃ number, binds = [.synthetic number]) ∨
    (params ≠ [] ∧ binds = params.map CoreVar.decl)

/-- A part of the term of a node. It stems from no node but a call, a function or a lambda below
that node, from the latter only if it abstracts over its parameters, and it lets only local bindings
be bound. -/
structure Faithful (f : Forest) (n : NodeId) (e : Term) : Prop where
  below : ∀ m, e.origin? = some m → m ∈ f.walkFrom n
  judged : ∀ m, e.origin? = some m → f.isJudged m = true
  abstracts : ∀ m params, e.origin? = some m → AbstractsAt f m params →
    ∃ binds body, BindersOf params binds ∧ e = (Term.abstract binds body).withOrigin m
  lets : ∀ binder x usage, e = .letIn binder (.decl x) usage → f.isLocalBinding x = true

theorem Faithful.up (h : Faithful f c e) (hc : c ∈ f.children n) : Faithful f n e :=
  ⟨fun m hm => Forest.mem_walkFrom_of_child hc (h.below m hm), h.judged, h.abstracts, h.lets⟩

/-- A part that lowering made up is faithful if it stems from the node at hand or from none. -/
theorem faithful_of_plain (h : Plain own e)
    (hown : ∀ m, own = some m → m = n ∧ f.isJudged m = true ∧ ∀ params, ¬ AbstractsAt f m params) :
    Faithful f n e where
  below m hm := by
    have horigin : own = some m := by simpa [hm, eq_comm] using h.1
    rw [(hown m horigin).1]
    exact Forest.self_mem_walkFrom f n
  judged m hm := by
    have horigin : own = some m := by simpa [hm, eq_comm] using h.1
    exact (hown m horigin).2.1
  abstracts m params hm habs := by
    have horigin : own = some m := by simpa [hm, eq_comm] using h.1
    exact absurd habs ((hown m horigin).2.2 params)
  lets binder x usage he := absurd he (h.2 binder (.decl x) usage)

/-- The term of a node: its parts are faithful, each call, function and lambda below the node has
one, and the declared types of the parameters of those are assumed. -/
structure Rendered (f : Forest) (n : NodeId) (e : Term) (Γ : Context) : Prop where
  parts : ∀ e', Part e' e → Faithful f n e'
  covers : ∀ m ∈ f.walkFrom n, f.isJudged m = true → ∃ e', Part e' e ∧ e'.origin? = some m
  known : ∀ m ∈ f.walkFrom n, ∀ params, AbstractsAt f m params → ∀ p ∈ params, Known f Γ p

theorem Rendered.mono (h : Rendered f n e Γ) (hΓ : ∀ v, Γ.contains v = true → Δ.contains v = true) :
    Rendered f n e Δ :=
  ⟨h.parts, h.covers, fun m hm params habs p hp => (h.known m hm params habs p hp).mono hΓ⟩

structure RenderedAll (f : Forest) (cs : List NodeId) (es : List Term) (Γ : Context) : Prop where
  length : es.length = cs.length
  term : ∀ c ∈ cs, ∃ e ∈ es, Rendered f c e Γ
  node : ∀ e ∈ es, ∃ c ∈ cs, Rendered f c e Γ

theorem RenderedAll.nil (f : Forest) (Γ : Context) : RenderedAll f [] [] Γ :=
  ⟨rfl, by simp, by simp⟩

/-- Rendered nodes stay so with one more at the end. -/
theorem RenderedAll.snoc (h : RenderedAll f cs es Γ) (hc : Rendered f c e Γ) :
    RenderedAll f (cs ++ [c]) (es ++ [e]) Γ where
  length := by simp [h.length]
  term d hd := by
    rcases List.mem_append.1 hd with hd | hd
    · obtain ⟨a, ha, hr⟩ := h.term d hd
      exact ⟨a, List.mem_append_left _ ha, hr⟩
    · exact ⟨e, by simp, List.mem_singleton.1 hd ▸ hc⟩
  node a ha := by
    rcases List.mem_append.1 ha with ha | ha
    · obtain ⟨d, hd, hr⟩ := h.node a ha
      exact ⟨d, List.mem_append_left _ hd, hr⟩
    · exact ⟨c, by simp, List.mem_singleton.1 ha ▸ hc⟩

theorem RenderedAll.mono (h : RenderedAll f cs es Γ)
    (hΓ : ∀ v, Γ.contains v = true → Δ.contains v = true) : RenderedAll f cs es Δ where
  length := h.length
  term c hc := by
    obtain ⟨e, he, hr⟩ := h.term c hc
    exact ⟨e, he, hr.mono hΓ⟩
  node e he := by
    obtain ⟨c, hc, hr⟩ := h.node e he
    exact ⟨c, hc, hr.mono hΓ⟩

/-- A term that is made of the terms of children is rendered if no other call, function or lambda
is below the node, and it stems from the node if that is a call. -/
theorem RenderedAll.wrap (h : RenderedAll f cs es Γ) (hcs : ∀ c ∈ cs, c ∈ f.children n)
    (hnot : ∀ params, ¬ AbstractsAt f n params)
    (hown : f.isJudged n = true → e.origin? = some n)
    (hbelow : ∀ m ∈ f.walkFrom n, f.isJudged m = true → m = n ∨ ∃ c ∈ cs, m ∈ f.walkFrom c)
    (hw : Wraps (Faithful f n) es e) : Rendered f n e Γ where
  parts e' he' := by
    rcases hw.split e' he' with he' | ⟨a, ha, hpart⟩
    · exact he'
    · obtain ⟨c, hc, hr⟩ := h.node a ha
      exact (hr.parts e' hpart).up (hcs c hc)
  covers m hm hjudged := by
    rcases hbelow m hm hjudged with rfl | ⟨c, hc, hmc⟩
    · exact ⟨e, .self e, hown hjudged⟩
    · obtain ⟨a, ha, hr⟩ := h.term c hc
      obtain ⟨e', hpart, horigin⟩ := hr.covers m hmc hjudged
      exact ⟨e', hpart.trans (hw.whole a ha), horigin⟩
  known m hm params habs := by
    rcases hbelow m hm habs.isJudged with rfl | ⟨c, hc, hmc⟩
    · exact absurd habs (hnot params)
    · obtain ⟨a, ha, hr⟩ := h.term c hc
      exact hr.known m hmc params habs

/-- Only a function or a lambda is an abstraction. -/
theorem not_abstractsAt (hk : f.kind? n = some k) (h : ∀ body, ¬ Abstracts k params body) :
    ¬ AbstractsAt f n params := by
  rintro ⟨k', body, hk', habs⟩
  obtain rfl : k = k' := Option.some.inj (hk.symm.trans hk')
  exact h body habs

/-- What is put together from operands is rendered if the operands are. -/
theorem operands_give (hk : f.kind? n = some k) (hops : operands k = some cs)
    (ih : ∀ c ∈ cs, Gives f (Rendered f c) (expression f delayed c)) :
    Gives f (Rendered f n) (expression f delayed n) := by
  intro st
  have hnot : ∀ params, ¬ AbstractsAt f n params := fun params => by
    refine not_abstractsAt hk fun body habs => ?_
    rcases habs with ⟨name, returns, rfl⟩ | rfl <;> simp [operands] at hops
  have hchildren : ∀ c, c ∈ cs ↔ c ∈ f.children n := by
    intro c
    rw [Forest.children_of_kind hk]
    exact (operands_perm hops).mem_iff
  rw [expression_operands hk hops, lands_map]
  refine Lands.imp_ok (lands_mapM (fun done es st' =>
    RenderedAll f done es st'.assumptions ∧ Careful f st st') ⟨.nil f _, Careful.of_eq rfl⟩ ?_) ?_
  · rintro done c rest hcs es st₁ ⟨hdone, h₁⟩
    refine (ih c (by simp [hcs]) st₁).imp ?_ fun _ _ h₂ => h₁.trans h₂
    rintro e st₂ ⟨hr, h₂⟩
    exact ⟨(hdone.mono h₂.kept).snoc hr, h₁.trans h₂⟩
  · rintro es st' ⟨hes, hst⟩
    refine ⟨hes.wrap (fun c hc => (hchildren c).1 hc) hnot (origin?_assemble hk hops hes.length)
      (fun m hm _ => ?_) ?_, hst⟩
    · refine (Forest.mem_walkFrom_iff.1 hm).imp_right ?_
      rintro ⟨c, hc, hm⟩
      exact ⟨c, (hchildren c).2 hc, hm⟩
    · have hcall : ∀ callee args, k = .call callee args →
          (if f.isJudged n then some n else none) = some n := fun callee args hcall =>
        if_pos ((isJudged_operands hk hops).2 ⟨callee, args, hcall⟩)
      refine (wraps_assemble n hops hes.length hcall).imp fun e he => faithful_of_plain he ?_
      intro m hm
      obtain ⟨hjudged, ⟨⟩⟩ := Option.ite_none_right_eq_some.1 hm
      exact ⟨rfl, hjudged, hnot⟩

/-- A reference renders no node but itself. -/
theorem resolved_gives (ht : t.WellFormed) {target : Reference} {d : NodeId}
    (hk : t.kind? n = some (.resolved target d)) :
    Gives t.toForest (Rendered t.toForest n) (expression t.toForest delayed n) := by
  intro st
  have hbelow : ∀ m ∈ t.walkFrom n, t.isJudged m = true →
      m = n ∨ ∃ c ∈ ([] : List NodeId), m ∈ t.walkFrom c := by
    intro m hm _
    refine (Forest.mem_walkFrom_iff.1 hm).imp_right ?_
    rintro ⟨c, hc, -⟩
    simp [Forest.children_of_kind hk, Kind.children] at hc
  have hdone : ∀ {e : Term} {st₁ : Lowering}, Wraps (Plain none) [] e → Careful t.toForest st st₁ →
      Rendered t.toForest n e st₁.assumptions ∧ Careful t.toForest st st₁ := by
    intro e st₁ he hst
    refine ⟨(RenderedAll.nil _ _).wrap (by simp)
      (fun params => not_abstractsAt hk (by simp [Abstracts])) (by simp [Forest.isJudged, hk])
      hbelow ?_, hst⟩
    exact he.imp fun e he => faithful_of_plain he nofun
  rw [expression_resolved hk, reference, lands_bind]
  refine (steady_assumeReferral ht n d st).imp_ok fun _ st₁ h₁ => ?_
  split
  · rw [lands_pure]
    have happ : Wraps (Plain none) [.var (.decl d), Term.unit]
        (.app Term.unit (.var (.decl d)) none) := Term.wraps_app (Or.inl rfl)
    exact hdone ((happ.step (Term.wraps_var _ _)).step (Term.wraps_unit _)) h₁
  · rw [lands_pure]
    exact hdone (Term.wraps_var _ _) h₁

theorem binders_give (params : List NodeId) :
    Gives f (fun binds _ => BindersOf params binds) (binders params) := by
  intro st
  cases params with
  | nil =>
    simp only [binders, List.isEmpty_nil, if_true, lands_map, synthetic, lands_bind, lands_get,
      lands_set, lands_pure]
    exact ⟨Or.inl ⟨rfl, st.synthetics, rfl⟩, Careful.of_eq rfl⟩
  | cons p rest =>
    simp only [binders, List.isEmpty_cons, Bool.false_eq_true, if_false, lands_pure]
    exact ⟨Or.inr ⟨by simp, rfl⟩, Careful.of_eq rfl⟩

structure AbstractionRendered (f : Forest) (n : NodeId) (e : Term) (Γ : Context) : Prop extends
    Rendered f n e Γ where
  root : e.origin? = some n
  own : ∀ c ∈ e.subterms, ∀ e', Part e' c → e'.origin? ≠ some n

variable {body : NodeId}

theorem BindersOf.eq_cons {binds : List CoreVar} (h : BindersOf params binds) :
    ∃ x rest, binds = x :: rest := by
  rcases h with ⟨-, number, rfl⟩ | ⟨hne, rfl⟩
  · exact ⟨_, [], rfl⟩
  · cases params with
    | nil => exact absurd rfl hne
    | cons p rest => exact ⟨_, _, rfl⟩

theorem part_abstract {binds : List CoreVar} {b e' : Term} (h : Part e' (Term.abstract binds b)) :
    Plain none e' ∨ Part e' b := by
  simpa using (Term.wraps_abstract none binds b).split e' h

theorem Abstracts.params_unique {ps : List NodeId} (h : Abstracts k params body)
    (hk : f.kind? n = some k) (hps : AbstractsAt f n ps) : ps = params := by
  obtain ⟨k', b, hk', hps⟩ := hps
  obtain rfl : k = k' := Option.some.inj (hk.symm.trans hk')
  rcases h with ⟨name, returns, rfl⟩ | rfl <;> rcases hps with ⟨name', returns', h⟩ | h <;>
    cases h <;> rfl

/-- The calls, functions and lambdas below a function or a lambda are itself and those in its
body. -/
theorem Abstracts.isJudged_below (ht : t.WellFormed) (h : Abstracts k params body)
    (hk : t.kind? n = some k) {m : NodeId} (hm : m ∈ t.walkFrom n) (hjudged : t.isJudged m = true) :
    m = n ∨ m ∈ t.walkFrom body := by
  rcases h.below ht hk hm with rfl | hm | ⟨name, type, hp⟩ | ⟨km, hkm, htype⟩
  · exact Or.inl rfl
  · exact Or.inr hm
  · simp [Forest.isJudged, hp] at hjudged
  · simp [isJudged_of_typeExpr hkm htype] at hjudged

/-- An abstraction over the parameters of a function or a lambda is its term. -/
theorem AbstractionRendered.of_body (ht : t.WellFormed) (hk : t.kind? n = some k)
    (habs : Abstracts k params body) {binds : List CoreVar} {b : Term}
    (hbinds : BindersOf params binds) (hknown : ∀ p ∈ params, Known t.toForest Γ p)
    (hb : Rendered t.toForest body b Γ) :
    AbstractionRendered t.toForest n ((Term.abstract binds b).withOrigin n) Γ := by
  have hbody : body ∈ t.children n :=
    Forest.mem_children_of_kind hk (Kind.mem_children_of_mem_places habs.body_place)
  obtain ⟨x, rest, rfl⟩ := hbinds.eq_cons
  have hterm : (Term.abstract (x :: rest) b).withOrigin n =
      .lam x (Term.abstract rest b) (some n) := rfl
  rw [hterm]
  have hinner : Part b (.lam x (Term.abstract rest b) (some n)) :=
    .inside (List.mem_singleton_self _) ((Term.wraps_abstract none rest b).whole b (by simp))
  have hself : Faithful t.toForest n (.lam x (Term.abstract rest b) (some n)) := by
    refine ⟨?_, ?_, ?_, nofun⟩
    · rintro m ⟨⟩
      exact Forest.self_mem_walkFrom _ n
    · rintro m ⟨⟩
      exact AbstractsAt.isJudged ⟨k, body, hk, habs⟩
    · rintro m ps ⟨⟩ hps
      rw [habs.params_unique hk hps]
      exact ⟨x :: rest, b, hbinds, rfl⟩
  refine ⟨⟨fun e' hpart => ?_, fun m hm hjudged => ?_, fun m hm ps hps p hp => ?_⟩, rfl,
    fun c hc e' hpart horigin => ?_⟩
  · rcases Term.part_iff.1 hpart with rfl | ⟨c, hc, hpart⟩
    · exact hself
    · rw [List.mem_singleton.1 hc] at hpart
      rcases part_abstract hpart with hplain | hpart
      · exact faithful_of_plain hplain nofun
      · exact (hb.parts e' hpart).up hbody
  · rcases habs.isJudged_below ht hk hm hjudged with rfl | hm
    · exact ⟨_, .self _, rfl⟩
    · obtain ⟨e', hpart, horigin⟩ := hb.covers m hm hjudged
      exact ⟨e', hpart.trans hinner, horigin⟩
  · rcases habs.isJudged_below ht hk hm hps.isJudged with rfl | hm
    · exact hknown p (habs.params_unique hk hps ▸ hp)
    · exact hb.known m hm ps hps p hp
  · rw [List.mem_singleton.1 hc] at hpart
    rcases part_abstract hpart with hplain | hpart
    · simp [Plain, horigin] at hplain
    · exact absurd ((hb.parts e' hpart).below n horigin) (Forest.not_mem_walkFrom_child hbody)

/-- The term of a function or a lambda stems from it around the term of the body. -/
theorem abstraction_gives (ht : t.WellFormed) (hk : t.kind? n = some k)
    (habs : Abstracts k params body) {x : Lower Term}
    (ih : Gives t.toForest (Rendered t.toForest body) x) :
    Gives t.toForest (AbstractionRendered t.toForest n) (abstraction t.toForest n params x) := by
  intro st
  rw [abstraction_eq]
  simp only [lands_bind]
  refine (assumeParameters_gives t.toForest params st).imp_ok ?_
  rintro _ st₁ ⟨hknown, h₁⟩
  refine (binders_give params st₁).imp ?_ fun _ _ h₂ => h₁.trans h₂
  rintro binds st₂ ⟨hbinds, h₂⟩
  refine (ih st₂).imp ?_ fun _ _ h₃ => (h₁.trans h₂).trans h₃
  rintro b st₃ ⟨hb, h₃⟩
  rw [lands_pure]
  exact ⟨.of_body ht hk habs hbinds (fun p hp => (hknown p hp).mono (h₂.trans h₃).kept) hb,
    (h₁.trans h₂).trans h₃⟩

/-- The fixpoint of a term is rendered as the term is. -/
theorem Rendered.fixpoint (h : Rendered f n e Γ) (x : NodeId) :
    Rendered f n (fixpoint x e) Γ where
  parts e' hpart := by
    rcases (wraps_fixpoint none x e).split e' hpart with hplain | ⟨a, ha, hpart⟩
    · exact faithful_of_plain hplain nofun
    · exact h.parts e' (List.mem_singleton.1 ha ▸ hpart)
  covers m hm hjudged := by
    obtain ⟨e', hpart, horigin⟩ := h.covers m hm hjudged
    exact ⟨e', hpart.trans ((wraps_fixpoint none x e).whole e (by simp)), horigin⟩
  known := h.known

structure ItemRendered (f : Forest) (x : NodeId) (isLast : Bool) (it : Item) (Γ : Context) :
    Prop where
  term : Rendered f x it.term Γ
  last : ∀ e, it = .value e → isLast = true
  binds : ∀ e d, it = .binding e (.decl d) → f.isLocalBinding d = true

/-- The term of a variable is the term of its value. -/
theorem Rendered.of_value (ht : t.WellFormed) {name : Symbol} {isMutable : Bool}
    {type : Option NodeId} {value : NodeId}
    (hk : t.kind? x = some (.varDecl name isMutable type value))
    (h : Rendered t.toForest value e Γ) : Rendered t.toForest x e Γ := by
  have hvalue : value ∈ t.children x := Forest.mem_children_of_kind hk (by simp [Kind.children])
  have hall : RenderedAll t.toForest [value] [e] Γ := (RenderedAll.nil _ Γ).snoc h
  refine hall.wrap (by simpa using hvalue) (fun ps => not_abstractsAt hk (by simp [Abstracts]))
    (by simp [Forest.isJudged, hk]) ?_ (Term.wraps_self _ e)
  intro m hm hjudged
  rcases Forest.mem_walkFrom_iff.1 hm with rfl | ⟨c, hc, hm⟩
  · exact Or.inl rfl
  · rw [Forest.children_of_kind hk, Kind.children, List.mem_append, List.mem_singleton] at hc
    rcases hc with hc | rfl
    · have hplace : (Role.typeExpr, c) ∈ (Kind.varDecl name isMutable type value).places := by
        simpa [Kind.places] using hc
      obtain ⟨-, kc, hkc, hadmits⟩ := ht.child_fits hk hplace
      obtain ⟨km, hkm, htype⟩ := ht.isTypeExpr_below hkc hadmits hm
      simp [isJudged_of_typeExpr hkm htype] at hjudged
    · exact Or.inr ⟨c, List.mem_singleton_self c, hm⟩

theorem steady_assumeDeclared (hx : ∀ A, ¬ Declares f x A) (type : Option NodeId) :
    Steady f (assumeDeclared f x type) := by
  cases type with
  | none => exact steady_pure ()
  | some e =>
    refine steady_bind (steady_evaluate e) fun A => steady_assume fun p B hp hB => ?_
    cases hp
    exact absurd hB (hx B)

/-- The item of a variable has the value under its own name. -/
theorem varDecl_gives (ht : t.WellFormed) {name : Symbol} {isMutable isLast : Bool}
    {type : Option NodeId} {value : NodeId}
    (hk : t.kind? x = some (.varDecl name isMutable type value))
    (ih : ∀ delayed,
      Gives t.toForest (Rendered t.toForest value) (expression t.toForest delayed value)) :
    Gives t.toForest (ItemRendered t.toForest x isLast) (item t.toForest delayed isLast x) := by
  intro st
  have hx : ∀ A, ¬ Declares t.toForest x A := by
    rintro A ⟨_, _, _, _, _, _, hp, _⟩
    simp [hk] at hp
  have hdone : ∀ {e : Term} {st₁ st₂ : Lowering}, Rendered t.toForest value e st₂.assumptions →
      Careful t.toForest st st₁ → Careful t.toForest st₁ st₂ →
      ItemRendered t.toForest x isLast (.binding e (.decl x)) st₂.assumptions ∧
        Careful t.toForest st st₂ := by
    intro e st₁ st₂ hr h₁ h₂
    refine ⟨⟨hr.of_value ht hk, by simp, ?_⟩, h₁.trans h₂⟩
    rintro _ d ⟨⟩
    simp [Forest.isLocalBinding, hk]
  simp only [item, hk, lands_bind, reach, lands_modify]
  refine (steady_assumeDeclared hx type st).imp_ok fun _ st₁ h₁ => ?_
  have hreach : Careful t.toForest st { st₁ with bound := st₁.bound.insert x () } :=
    h₁.trans (Careful.of_eq rfl)
  split
  · simp only [lands_map, lands_bind, lands_pure]
    refine (ih _ _).imp ?_ fun _ _ h₂ => hreach.trans h₂
    rintro e st₂ ⟨hr, h₂⟩
    exact hdone (hr.fixpoint x) hreach h₂
  · simp only [lands_bind, lands_pure]
    refine (ih _ _).imp ?_ fun _ _ h₂ => hreach.trans h₂
    rintro e st₂ ⟨hr, h₂⟩
    exact hdone hr hreach h₂

/-- The item of a local function has its abstraction, or the fixpoint of that, under its own name.
-/
theorem functionItem_gives (ht : t.WellFormed) {name : Symbol} {isLast : Bool}
    {returns : Option NodeId} (hk : t.kind? x = some (.function name params returns body))
    (ih : Gives t.toForest (Rendered t.toForest body) (expression t.toForest delayed body)) :
    Gives t.toForest (ItemRendered t.toForest x isLast) (item t.toForest delayed isLast x) := by
  intro st
  have habs : Abstracts (.function name params returns body) params body :=
    Or.inl ⟨name, returns, rfl⟩
  have hreach : Careful t.toForest st { st with bound := st.bound.insert x () } := Careful.of_eq rfl
  simp only [item, hk, lands_bind, reach, lands_modify, lands_pure]
  refine (abstraction_gives ht hk habs ih _).imp ?_ fun _ _ h₂ => hreach.trans h₂
  rintro e st₂ ⟨hr, h₂⟩
  refine ⟨⟨?_, by simp, ?_⟩, hreach.trans h₂⟩
  · split
    · exact hr.toRendered.fixpoint x
    · exact hr.toRendered
  · intro _ d heq
    cases heq
    simp [Forest.isLocalBinding, hk]

/-- An item of a block is rendered, whichever of these it is. -/
theorem item_gives (ht : t.WellFormed) {isLast : Bool}
    (hexpr : Gives t.toForest (Rendered t.toForest x) (expression t.toForest delayed x))
    (ih : ∀ c ∈ t.children x, ∀ delayed,
      Gives t.toForest (Rendered t.toForest c) (expression t.toForest delayed c)) :
    Gives t.toForest (ItemRendered t.toForest x isLast) (item t.toForest delayed isLast x) := by
  have hother : item t.toForest delayed isLast x = (do
      let term ← expression t.toForest delayed x
      if isLast then return Item.value term
      else return Item.binding term (← synthetic)) →
      Gives t.toForest (ItemRendered t.toForest x isLast) (item t.toForest delayed isLast x) := by
    intro hitem st
    rw [hitem, lands_bind]
    refine (hexpr st).imp_ok ?_
    rintro e st₁ ⟨hr, h₁⟩
    cases isLast with
    | true =>
      simp only [if_true, lands_pure]
      exact ⟨⟨hr, fun _ _ => rfl, by simp⟩, h₁⟩
    | false =>
      simp only [Bool.false_eq_true, if_false, synthetic, lands_bind, lands_get, lands_set,
        lands_pure]
      exact ⟨⟨hr, by simp, by simp⟩, h₁.trans (Careful.of_eq rfl)⟩
  cases hk : t.kind? x with
  | none => exact hother (by simp [item, hk])
  | some k =>
    cases k
    case varDecl name isMutable type value =>
      exact varDecl_gives ht hk (ih value (by simp [Forest.children_of_kind hk, Kind.children]))
    case function name params returns body =>
      exact functionItem_gives ht hk
        (ih body (by simp [Forest.children_of_kind hk, Kind.children]) delayed)
    all_goals exact hother (by simp [item, hk])

/-- The chain of the items of a block is made of their terms. -/
theorem wraps_chain {its : List Item}
    (hlast : ∀ i e, its[i]? = some (.value e) → i + 1 = its.length)
    (hbinds : ∀ it ∈ its, ∀ e d, it = .binding e (.decl d) → f.isLocalBinding d = true) :
    Wraps (Faithful f n) (its.map Item.term) (chain its) := by
  induction its with
  | nil => exact (Term.wraps_unit none).imp fun e he => faithful_of_plain he nofun
  | cons it rest ih =>
    cases it with
    | value e =>
      have hrest : rest = [] := by simpa using hlast 0 e rfl
      rw [hrest]
      exact Term.wraps_self _ e
    | binding binder x =>
      have hself : Faithful f n (.letIn binder x (chain rest)) := by
        refine ⟨by simp [Term.origin?], by simp [Term.origin?], by simp [Term.origin?], ?_⟩
        rintro _ d _ ⟨⟩
        exact hbinds _ (List.mem_cons_self ..) binder d rfl
      have hrest := ih (fun i e h => by simpa using hlast (i + 1) e (by simpa using h))
        fun it hit => hbinds it (List.mem_cons_of_mem _ hit)
      have hlet : Wraps (Faithful f n) [chain rest, binder] (.letIn binder x (chain rest)) :=
        (Term.wraps_of_subterms hself).perm (List.Perm.swap ..)
      exact (hlet.step hrest).perm List.perm_append_comm

/-- A block is rendered if its items are. -/
theorem block_gives {items : List NodeId} (hk : f.kind? n = some (.block items))
    (ih : ∀ x ∈ items, ∀ isLast,
      Gives f (ItemRendered f x isLast) (item f delayed isLast x)) :
    Gives f (Rendered f n) (expression f delayed n) := by
  intro st
  rw [expression_block hk, lands_map]
  refine Lands.imp_ok (lands_mapM_zipIdx (fun done its st' =>
    RenderedAll f done (its.map Item.term) st'.assumptions ∧ Careful f st st' ∧
      (∀ i e, its[i]? = some (.value e) → i + 1 = items.length) ∧
      ∀ it ∈ its, ∀ e d, it = .binding e (.decl d) → f.isLocalBinding d = true)
    ⟨.nil f _, Careful.of_eq rfl, by simp, by simp⟩ ?_) ?_
  · rintro done x rest hitems its st₁ ⟨hall, h₁, hlast, hbinds⟩
    refine (ih x (by simp [hitems]) _ st₁).imp ?_ fun _ _ h₂ => h₁.trans h₂
    rintro it st₂ ⟨hit, h₂⟩
    refine ⟨by simpa using (hall.mono h₂.kept).snoc hit.term, h₁.trans h₂, ?_, ?_⟩
    · intro i e hi
      have hlen : its.length = done.length := by simpa using hall.length
      rcases Nat.lt_or_ge i its.length with hlt | hge
      · rw [List.getElem?_append_left hlt] at hi
        exact hlast i e hi
      · rw [List.getElem?_append_right hge, List.getElem?_singleton] at hi
        split at hi
        · have hlast' := hit.last e (Option.some.inj hi)
          have hitems' : done.length + 1 = items.length := by simpa using hlast'
          omega
        · cases hi
    · intro it' hit'
      rcases List.mem_append.1 hit' with hit' | hit'
      · exact hbinds it' hit'
      · rw [List.mem_singleton.1 hit']
        exact hit.binds
  · rintro its st' ⟨hall, hst, hlast, hbinds⟩
    have hchildren := Forest.children_block hk
    have hlen : its.length = items.length := by simpa using hall.length
    refine ⟨hall.wrap (fun c hc => hchildren ▸ hc)
      (fun ps => not_abstractsAt hk (by simp [Abstracts])) (by simp [Forest.isJudged, hk])
      (fun m hm _ => ?_) (wraps_chain (fun i e hi => hlen ▸ hlast i e hi) hbinds), hst⟩
    refine (Forest.mem_walkFrom_iff.1 hm).imp_right ?_
    rintro ⟨c, hc, hm⟩
    exact ⟨c, hchildren ▸ hc, hm⟩

/-- Lowering an expression of a well-formed tree gives its term or fails, and assumes nothing
about parameters but their declared types. -/
theorem expression_gives (ht : t.WellFormed) (n : NodeId) (delayed : List NodeId) :
    Gives t.toForest (Rendered t.toForest n) (expression t.toForest delayed n) := by
  -- items of a block are lowered through their children, so the induction looks two levels down
  suffices hboth : (∀ delayed,
        Gives t.toForest (Rendered t.toForest n) (expression t.toForest delayed n)) ∧
      ∀ c ∈ t.children n, ∀ delayed,
        Gives t.toForest (Rendered t.toForest c) (expression t.toForest delayed c) from
    hboth.1 delayed
  induction n using Forest.childInduction (f := t.toForest) with
  | step n ih =>
    refine ⟨fun delayed => ?_, fun c hc => (ih c hc).1⟩
    have hchild := fun {k : Kind} (hk : t.kind? n = some k) c (hc : c ∈ k.children) =>
      ih c (Forest.mem_children_of_kind hk hc)
    cases form t.toForest n with
    | operands hk hops =>
      exact operands_give hk hops fun c hc =>
        (hchild hk c ((operands_perm hops).mem_iff.1 hc)).1 delayed
    | reference hk => exact resolved_gives ht hk
    | @lambda params body hk =>
      have hbody := (hchild hk body (by simp [Kind.children])).1 delayed
      rw [expression_lambda hk]
      exact fun st => (abstraction_gives ht hk (Or.inr rfl) hbody st).imp_ok
        fun _ _ h => ⟨h.1.toRendered, h.2⟩
    | block hk =>
      refine block_gives hk fun x hx isLast => ?_
      have hx' := hchild hk x hx
      exact item_gives ht (hx'.1 delayed) hx'.2
    | refused e h =>
      intro st
      rw [h, lands_throw]
      exact Careful.of_eq rfl

/-- Lowering a function gives its term or fails. -/
theorem function_gives (ht : t.WellFormed) {name : Symbol} {returns : Option NodeId}
    (hk : t.kind? n = some (.function name params returns body)) :
    Gives t.toForest (AbstractionRendered t.toForest n) (function t.toForest n) := by
  simp only [function, hk]
  exact abstraction_gives ht hk (Or.inl ⟨name, returns, rfl⟩) (expression_gives ht body [])

end Rendering

end Lowering

end SemanticAnalysis
