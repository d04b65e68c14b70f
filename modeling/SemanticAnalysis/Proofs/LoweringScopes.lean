import SemanticAnalysis.Proofs.DeclaredTypes
import SemanticAnalysis.Proofs.FreeVariables
import SemanticAnalysis.Proofs.LoweringRuns
import SemanticAnalysis.Proofs.LoweringStates

/-!
Scopes of lowered terms. In a linked tree lowering fails only where a reference
names no value or a binding that comes after it, and a term that it gives has no
free variables but builtins, variables with an assumed type and top-level
functions that the function uses.
-/

namespace SemanticAnalysis

open Declarations (isTopLevel topLevelFunctions usesOf)

namespace Forest

variable {f : Forest} {n c d : NodeId}

/-- What is visible from a child is bound by the node itself or visible from it. -/
theorem Visible.of_child (hf : f.NamedOnce) (hc : c ∈ f.children n) (h : f.Visible c d) :
    f.Binds n d ∨ f.Visible n d := by
  obtain ⟨a, hnear, hbinds⟩ := h
  have hp := hf.parent?_of_mem hc
  cases hnear with
  | parent h =>
    rw [hp] at h
    cases h
    exact Or.inl hbinds
  | step h _ ha =>
    rw [hp] at h
    cases h
    exact Or.inr ⟨a, ha, hbinds⟩

end Forest

namespace Lowering

variable {t : Tree} {n c x d : NodeId} {k : Kind} {cs delayed : List NodeId}
  {st st₁ st₂ : Lowering} {v : CoreVar}

/-- A free variable of the term of a node is a builtin, has an assumed type, or is referred to
below the node and is a top-level function or bound around the node. -/
def Accounted (t : Tree) (n : NodeId) (st : Lowering) (v : CoreVar) : Prop :=
  (∃ b, v = .builtin b) ∨ st.assumptions.contains v = true ∨
    ∃ d, v = .decl d ∧ (∃ r ∈ t.walkFrom n, t.Refers r d) ∧
      (isTopLevel t.toForest d = true ∨ t.Visible n d)

def Ordered (t : Tree) (n : NodeId) : Prop :=
  ∀ r ∈ t.walkFrom n, ∀ d, t.Refers r d → ¬ t.ComesAfter r d

structure Lowered (t : Tree) (n : NodeId) (st : Lowering) (term : Term) (st' : Lowering) :
    Prop where
  advances : Advances t.toForest (t.children n) st st'
  accounted : ∀ v ∈ term.free, Accounted t n st' v
  ordered : Ordered t n

/-- How lowering a node may fail: a reference names no value, or what comes after it. -/
def Refused (t : Tree) (n : NodeId) (e : LowerError) : Prop :=
  (∃ r d kind, e = .notAValue r d kind) ∨
    ∃ r d, e = .usedBeforeBinding r d ∧ r ∈ t.walkFrom n ∧ t.Refers r d ∧ t.ComesAfter r d

def Lowers (t : Tree) (n : NodeId) : Prop := ∀ delayed st, Ready t.toForest n st →
  Lands (expression t.toForest delayed n) st (Lowered t n st) fun e _ => Refused t n e

theorem Accounted.advance (h : Accounted t n st v) (hadv : Advances t.toForest cs st st₁) :
    Accounted t n st₁ v :=
  h.imp_right fun h => h.imp_left (hadv.assumed v)

theorem Refused.of_child {e : LowerError} (hc : c ∈ t.children n) (h : Refused t c e) :
    Refused t n e := by
  refine h.imp_right ?_
  rintro ⟨r, d, he, hr, href⟩
  exact ⟨r, d, he, Forest.mem_walkFrom_of_child hc hr, href⟩

/-- A variable accounted for at a child is bound by the node or accounted for there. -/
theorem Accounted.of_child (hf : t.NamedOnce) (hc : c ∈ t.children n) (h : Accounted t c st v) :
    (∃ d, v = .decl d ∧ (∃ r ∈ t.walkFrom c, t.Refers r d) ∧ t.Binds n d) ∨ Accounted t n st v := by
  rcases h with hb | ha | ⟨d, hv, ⟨r, hr, href⟩, hd⟩
  · exact Or.inr (Or.inl hb)
  · exact Or.inr (Or.inr (Or.inl ha))
  · have hrn : ∃ r ∈ t.walkFrom n, t.Refers r d :=
      ⟨r, Forest.mem_walkFrom_of_child hc hr, href⟩
    rcases hd with htop | hvis
    · exact Or.inr (Or.inr (Or.inr ⟨d, hv, hrn, Or.inl htop⟩))
    · rcases hvis.of_child hf hc with hbinds | hvis
      · exact Or.inl ⟨d, hv, ⟨r, hr, href⟩, hbinds⟩
      · exact Or.inr (Or.inr (Or.inr ⟨d, hv, hrn, Or.inr hvis⟩))

section References

theorem lands_reading {α : Type} {m : TypeStore.Reading α} {ok : α → Lowering → Prop}
    {bad : LowerError → Lowering → Prop} : Lands (reading m) st ok bad ↔
      Lands m st.store (fun a store => ok a { st with store })
        fun e store => bad (.notAType e) { st with store } := by
  unfold reading
  simp only [lands_bind, lands_get]
  rw [lands_iff_run (x := m)]
  rcases m.run.run st.store with ⟨e | a, store⟩ <;> simp

def Quiet {α : Type} (f : Forest) (x : Lower α) : Prop :=
  ∀ st, Lands x st (fun _ st' => Advances f [] st st') fun _ _ => False

theorem quiet_pure {α : Type} {f : Forest} (a : α) : Quiet f (pure a : Lower α) := by
  intro st
  rw [lands_pure]
  exact Advances.refl f [] st

theorem quiet_bind {α β : Type} {f : Forest} {x : Lower α} {g : α → Lower β} (hx : Quiet f x)
    (hg : ∀ a, Quiet f (g a)) : Quiet f (x >>= g) := by
  intro st
  rw [lands_bind]
  refine (hx st).imp_ok fun a st₁ h₁ => ?_
  exact (hg a st₁).imp_ok fun b st₂ h₂ => h₁.trans h₂

theorem quiet_mapM {α β : Type} {f : Forest} {xs : List α} {g : α → Lower β}
    (hg : ∀ x ∈ xs, Quiet f (g x)) : Quiet f (xs.mapM g) := by
  intro st
  refine lands_mapM (fun _ _ st' => Advances f [] st st') (Advances.refl f [] st) ?_
  intro done x rest hxs _ st₁ h₁
  exact (hg x (by simp [hxs]) st₁).imp_ok fun _ st₂ h₂ => h₁.trans h₂

theorem quiet_reading {α : Type} {f : Forest} {m : TypeStore.Reading α}
    (hm : TypeStore.Certain m) : Quiet f (reading m) := by
  intro st
  rw [lands_reading]
  exact (hm st.store).imp_ok fun _ _ _ => ⟨fun _ h => h, fun _ h => h, fun _ h => Or.inl h⟩

theorem assume_advances (f : Forest) (v : CoreVar) (scheme : Scheme) (st : Lowering) :
    Advances f [] st { st with assumptions := st.assumptions.insert v scheme } where
  assumed w hw := by simp [hw]
  bound _ h := h
  region _ h := Or.inl h

theorem quiet_assume (f : Forest) (v : CoreVar) (scheme : Scheme) : Quiet f (assume v scheme) := by
  intro st
  simpa [assume] using assume_advances f v scheme st

/-- The type that a type expression of a linked tree stands for is found. -/
theorem quiet_evaluate (ht : t.Linked) (hk : t.kind? n = some k) (htype : k.isTypeExpr = true) :
    Quiet t.toForest (evaluate t.toForest n) := by
  obtain ⟨A, hA⟩ := evalType_ok ht hk htype
  simp only [evaluate, hA]
  exact quiet_pure A

theorem quiet_signatureOfParts (ht : t.Linked) (params : List NodeId) {output : Lower Ty}
    (ho : Quiet t.toForest output) :
    Quiet t.toForest (signatureOfParts t.toForest params output) := by
  refine quiet_bind (quiet_mapM fun p _ => quiet_reading ?_) fun inputs => ?_
  · exact TypeStore.certain_parameterType ht p
  · exact quiet_bind ho fun _ => quiet_pure _

theorem quiet_output (ht : t.Linked) (hk : t.kind? n = some k) {returns : Option NodeId}
    (hreturns : ∀ type ∈ returns, (Role.typeExpr, type) ∈ k.places) :
    Quiet t.toForest (match returns with
      | some type => evaluate t.toForest type
      | none => return Ty.unit) := by
  cases returns with
  | none => exact quiet_pure _
  | some type =>
    obtain ⟨-, kt, hkt, hadmits⟩ := ht.wellFormed.child_fits hk (hreturns type rfl)
    exact quiet_evaluate ht hkt hadmits

/-- A function without a body does not stand in a block. -/
theorem parent_bodiless (ht : t.WellFormed) (hk : t.kind? n = some k) (hfn : k.isFunction = true)
    (hlocal : k.isLocalBinding = false) :
    ∃ p kp, t.parent? n = some p ∧ t.kind? p = some kp ∧ ∀ items, kp ≠ .block items := by
  obtain ⟨p, kp, hp, hkp, hcases⟩ := ht.parent_function hk hfn
  refine ⟨p, kp, hp, hkp, ?_⟩
  rintro items rfl
  simp [hlocal] at hcases

/-- A type assumed for a variable unless there is one. -/
theorem assumed_lands {x : Lower Ty} {scheme : Ty → Scheme} (hx : Quiet t.toForest x)
    (st : Lowering) :
    Lands (do if !(← isAssumed v) then assume v (scheme (← x))) st
      (fun _ st' => Advances t.toForest [] st st' ∧ st'.assumptions.contains v = true)
      fun _ _ => False := by
  simp only [isAssumed, lands_bind, lands_get, lands_pure]
  split
  · simp only [lands_bind]
    refine (hx st).imp_ok fun A st₁ h₁ => ?_
    simp only [assume, lands_modify]
    exact ⟨h₁.trans (assume_advances t.toForest v _ st₁), by simp⟩
  · rename_i hv
    rw [lands_pure]
    exact ⟨Advances.refl _ [] st, by simpa using hv⟩

def Admitted (t : Tree) (n d : NodeId) (st st' : Lowering) : Prop :=
  Advances t.toForest [] st st' ∧ Accounted t n st' (.decl d) ∧ ¬ t.ComesAfter n d

theorem refused_notAValue (t : Tree) (n d : NodeId) (kind : String) :
    Refused t n (.notAValue n d kind) :=
  Or.inl ⟨n, d, kind, rfl⟩

/-- A reference to a binding of a block goes through exactly if the binding has been reached. -/
theorem localBinding_lands (ht : t.Linked) {target : Reference} {b : NodeId} {items : List NodeId}
    (hk : t.kind? n = some (.resolved target d)) (hready : Ready t.toForest n st)
    (hd : t.isLocalBinding d = true) (hp : t.parent? d = some b)
    (hb : t.kind? b = some (.block items)) :
    Lands (do if !(← get).bound.contains d then throw (.usedBeforeBinding n d) : Lower Unit) st
      (fun _ st' => Admitted t n d st st') fun e _ => Refused t n e := by
  have href : t.Refers n d := ⟨target, hk⟩
  have hself : n ∈ t.walkFrom n := Forest.self_mem_walkFrom t.toForest n
  have hvis : t.Visible n d := by
    rcases ht.values n target d hk with hvis | ⟨p, kp, hp', hkp, hc⟩
    · exact hvis
    · rw [hp] at hp'
      cases hp'
      rw [hb] at hkp
      cases hkp
      simp [Kind.isContainer] at hc
  have horder := hvis.reached_or_comesAfter ht.wellFormed.named_once hd hp hb
  simp only [lands_bind, lands_get]
  cases hbound : st.bound.contains d with
  | true =>
    simp only [Bool.not_true, Bool.false_eq_true, if_false, lands_pure]
    refine ⟨Advances.refl _ [] st, Or.inr (Or.inr ⟨d, rfl, ⟨n, hself, href⟩, Or.inr hvis⟩), ?_⟩
    intro hafter
    simp [hready.after d hafter] at hbound
  | false =>
    simp only [Bool.not_false, if_true, lands_throw]
    refine Or.inr ⟨n, d, rfl, hself, href, ?_⟩
    rcases horder with hreached | hafter
    · simp [hready.of_reached hreached] at hbound
    · exact hafter

/-- A reference of a linked tree is admitted or refused: what it refers to is declared, reached or
still to come. -/
theorem assumeReferral_lands (ht : t.Linked) {target : Reference}
    (hk : t.kind? n = some (.resolved target d)) (hready : Ready t.toForest n st) :
    Lands (assumeReferral t.toForest n d) st (fun _ st' => Admitted t n d st st')
      fun e _ => Refused t n e := by
  have href : ∃ r ∈ t.walkFrom n, t.Refers r d :=
    ⟨n, Forest.self_mem_walkFrom t.toForest n, target, hk⟩
  -- what does not stand in a block comes after nothing
  have hafter : ∀ {p kp}, t.parent? d = some p → t.kind? p = some kp →
      (∀ items, kp ≠ .block items) → ¬ t.ComesAfter n d := by
    intro p kp hp hkp hblock h
    obtain ⟨b, items, hb, hkb⟩ := h.parent ht.wellFormed.named_once
    rw [hp] at hb
    cases hb
    rw [hkp] at hkb
    exact hblock items (Option.some.inj hkb)
  have hassumed : ∀ {x : Lower Ty} {scheme : Ty → Scheme}, Quiet t.toForest x →
      ¬ t.ComesAfter n d →
      Lands (do if !(← isAssumed (.decl d)) then assume (.decl d) (scheme (← x))) st
        (fun _ st' => Admitted t n d st st') fun e _ => Refused t n e := by
    intro x scheme hx hnot
    refine (assumed_lands hx st).imp ?_ fun _ _ h => h.elim
    rintro _ st' ⟨hadv, hv⟩
    exact ⟨hadv, Or.inr (Or.inl hv), hnot⟩
  unfold assumeReferral
  cases hkd : t.kind? d with
  | none => simp [refused_notAValue]
  | some kd =>
    cases kd <;> try simp only [lands_throw, refused_notAValue]
    case varDecl =>
      obtain ⟨b, items, hp, hb, -⟩ := ht.wellFormed.parent_varDecl hkd
      have hin : (t.parent? d).any (isBlock t.toForest) = true := by simp [hp, isBlock, hb]
      simp only [hin, Bool.true_and]
      exact localBinding_lands ht hk hready (by simp [Forest.isLocalBinding, hkd]) hp hb
    case function =>
      obtain ⟨p, kp, hp, hkp, hcases⟩ := ht.wellFormed.parent_function hkd rfl
      by_cases hblock : ∃ items, kp = .block items
      · obtain ⟨items, rfl⟩ := hblock
        have hin : (t.parent? d).any (isBlock t.toForest) = true := by simp [hp, isBlock, hkp]
        simp only [hin, Bool.true_and]
        exact localBinding_lands ht hk hready (by simp [Forest.isLocalBinding, hkd]) hp hkp
      · have hholds : Declarations.holdsFunctions kp = true := by
          rcases hcases with ⟨_, _, _, rfl, -⟩ | ⟨_, _, _, rfl, -⟩ | ⟨_, _, rfl, -⟩ |
            ⟨items, rfl, -⟩
          · rfl
          · rfl
          · rfl
          · exact absurd ⟨items, rfl⟩ hblock
        have hin : (t.parent? d).any (isBlock t.toForest) = false := by
          cases kp <;> simp [Declarations.holdsFunctions] at hholds <;> simp [hp, isBlock, hkp]
        have htop : isTopLevel t.toForest d = true := by simp [isTopLevel, hkd, hp, hkp, hholds]
        simp only [hin, Bool.false_and, lands_bind, lands_get]
        simp only [Bool.false_eq_true, if_false, lands_pure]
        exact ⟨Advances.refl _ [] st, Or.inr (Or.inr ⟨d, rfl, href, Or.inl htop⟩),
          hafter hp hkp fun items h => hblock ⟨items, h⟩⟩
    case parameter =>
      obtain ⟨p, kp, hp, hkp, ⟨owner, fields, members, rfl, -⟩ | ⟨params, hparams, -⟩⟩ :=
        ht.wellFormed.parent_parameter hkd
      · have hfield : (t.parent? d).any (isStruct t.toForest) = true := by
          simp [hp, isStruct, hkp]
        simp only [hfield, Bool.true_and]
        refine hassumed (quiet_reading ?_) (hafter hp hkp (by simp))
        refine TypeStore.certain_bind (TypeStore.certain_fieldType ht d) fun type => ?_
        cases type with
        | none => exact TypeStore.certain_freshVar
        | some A => exact fun store => by simp
      · have hfield : (t.parent? d).any (isStruct t.toForest) = false := by
          cases kp <;> simp [Kind.params?] at hparams <;> simp [hp, isStruct, hkp]
        have hvis : t.Visible n d := by
          rcases ht.values n target d hk with hvis | ⟨p', kp', hp', hkp', hc⟩
          · exact hvis
          · rw [hp] at hp'
            cases hp'
            rw [hkp] at hkp'
            cases hkp'
            cases kp <;> simp [Kind.params?] at hparams <;> simp [Kind.isContainer] at hc
        simp only [hfield, Bool.false_and, lands_bind, isAssumed, lands_get, lands_pure]
        simp only [Bool.false_eq_true, if_false, lands_pure]
        refine ⟨Advances.refl _ [] st, Or.inr (Or.inr ⟨d, rfl, href, Or.inr hvis⟩), ?_⟩
        refine hafter hp hkp fun items h => ?_
        subst h
        simp [Kind.params?] at hparams
    case structDecl =>
      obtain ⟨p, _, _, _, hp, hkp⟩ := ht.wellFormed.parent_typeDecl hkd rfl
      exact hassumed (quiet_reading (TypeStore.certain_constructorType ht hkd))
        (hafter hp hkp (by simp))
    case enumEntry =>
      obtain ⟨p, owner, entries, hp, hkp, -⟩ := ht.wellFormed.parent_enumEntry hkd
      obtain ⟨A, hA⟩ := declaredType_ok ht.wellFormed hkp rfl
      have hquiet : Quiet t.toForest
          (reading (ExceptT.mk (pure (declaredType t.toForest p))) : Lower Ty) :=
        quiet_reading fun store => by simp [hA]
      simp only [hp, lands_bind]
      refine (hquiet st).imp ?_ fun _ _ h => h.elim
      intro A st₁ h₁
      simp only [assume, lands_modify]
      exact ⟨h₁.trans (assume_advances _ _ _ st₁), Or.inr (Or.inl (by simp)),
        hafter hp hkp (by simp)⟩
    case abstractFunction name params returns =>
      obtain ⟨p, kp, hp, hkp, hblock⟩ := parent_bodiless ht.wellFormed hkd rfl rfl
      exact hassumed (quiet_signatureOfParts ht params (quiet_output ht hkd
        fun type htype => by simpa [Kind.places] using htype)) (hafter hp hkp hblock)
    case foreignFunction name params returns descriptor =>
      obtain ⟨p, kp, hp, hkp, hblock⟩ := parent_bodiless ht.wellFormed hkd rfl rfl
      exact hassumed (quiet_signatureOfParts ht params (quiet_output ht hkd
        fun type htype => by simpa [Kind.places] using htype)) (hafter hp hkp hblock)

/-- A reference that is admitted is a scoped term. -/
theorem resolved_lowers (ht : t.Linked) {target : Reference}
    (hk : t.kind? n = some (.resolved target d)) : Lowers t n := by
  intro delayed st hready
  rw [expression_resolved hk, reference, lands_bind]
  refine (assumeReferral_lands ht hk hready).imp_ok ?_
  rintro _ st' ⟨hadv, hacc, hafter⟩
  have hchildren : t.children n = [] := Forest.children_of_kind hk
  have hordered : Ordered t n := by
    intro r hr e href
    rw [Forest.walkFrom_eq, hchildren] at hr
    obtain rfl : r = n := by simpa using hr
    obtain ⟨target', hk'⟩ := href
    rw [hk] at hk'
    cases hk'
    exact hafter
  have hlowered : ∀ term : Term, (∀ v ∈ term.free, v = .decl d) → Lowered t n st term st' :=
    fun term hfree => ⟨hchildren ▸ hadv, fun v hv => hfree v hv ▸ hacc, hordered⟩
  split
  · rw [lands_pure]
    exact hlowered _ fun v hv => by simpa [Term.unit] using hv
  · rw [lands_pure]
    exact hlowered _ fun v hv => by simpa using hv

end References

section Operands

theorem Ordered.of_children (hn : ∀ d, ¬ t.Refers n d) (hc : ∀ c ∈ t.children n, Ordered t c) :
    Ordered t n := by
  intro r hr d href
  rcases Forest.mem_walkFrom_iff.1 hr with rfl | ⟨c, hcn, hrc⟩
  · exact absurd href (hn d)
  · exact hc c hcn r hrc d href

theorem mem_free_branches {otherwise : Term} {terms : List Term}
    (h : v ∈ (branches otherwise terms).free) :
    (∃ b, v = .builtin b) ∨ v ∈ otherwise.free ∨ ∃ e ∈ terms, v ∈ e.free := by
  fun_induction branches otherwise terms with
  | case1 otherwise condition body rest ih =>
    rcases ih h with hb | hbranch | ⟨e, he, hv⟩
    · exact Or.inl hb
    · rcases Term.mem_free_call hbranch with hfunc | ⟨e, he, hv⟩
      · exact Or.inl ⟨.conditional, by simpa using hfunc⟩
      · simp only [List.mem_cons, List.not_mem_nil, or_false] at he
        rcases he with rfl | rfl | rfl
        · exact Or.inr (Or.inr ⟨_, by simp, hv⟩)
        · exact Or.inr (Or.inr ⟨_, by simp, hv⟩)
        · exact Or.inr (Or.inl hv)
    · exact Or.inr (Or.inr ⟨e, by simp [he], hv⟩)
  | case2 otherwise terms => exact Or.inr (Or.inl h)

/-- Putting terms together adds no free variables but builtins. -/
theorem mem_free_assemble {terms : List Term} (h : v ∈ (assemble n k terms).free) :
    (∃ b, v = .builtin b) ∨ ∃ e ∈ terms, v ∈ e.free := by
  have hbuiltin : ∀ {b : Builtin} {args : List Term},
      v ∈ (Term.call args (.var (.builtin b))).free →
        (∃ b, v = .builtin b) ∨ ∃ e ∈ args, v ∈ e.free := by
    intro b args hv
    exact (Term.mem_free_call hv).imp_left fun hv => ⟨b, by simpa using hv⟩
  unfold assemble at h
  split at h
  · simp at h
  · simp at h
  · exact Or.inr (Term.mem_free_tuple.1 h)
  · rw [Term.free_withOrigin] at h
    rcases Term.mem_free_call h with hv | ⟨e, he, hv⟩
    · exact Or.inr ⟨_, List.mem_cons_self .., hv⟩
    · exact Or.inr ⟨e, List.mem_cons_of_mem _ he, hv⟩
  · exact hbuiltin h
  · exact hbuiltin h
  · rcases mem_free_branches h with hb | hv | ⟨e, he, hv⟩
    · exact Or.inl hb
    · exact Or.inr ⟨_, List.mem_cons_self .., hv⟩
    · exact Or.inr ⟨e, List.mem_cons_of_mem _ he, hv⟩
  · rcases mem_free_branches h with hb | hv | he
    · exact Or.inl hb
    · simp [Term.unit] at hv
    · exact Or.inr he
  · simp [Term.unit] at h

structure OperandsLowered (t : Tree) (n : NodeId) (st : Lowering) (done : List NodeId)
    (terms : List Term) (st' : Lowering) : Prop where
  advances : Advances t.toForest done st st'
  accounted : ∀ e ∈ terms, ∀ v ∈ e.free, Accounted t n st' v
  ordered : ∀ c ∈ done, Ordered t c

/-- Operands that have been lowered in turn, with one more after them. -/
theorem OperandsLowered.next (hf : t.NamedOnce) {done : List NodeId} {terms : List Term}
    {term : Term} (hc : c ∈ t.children n) (hbinds : ∀ d, ¬ t.Binds n d)
    (h : OperandsLowered t n st done terms st₁) (hl : Lowered t c st₁ term st₂) :
    OperandsLowered t n st (done ++ [c]) (terms ++ [term]) st₂ where
  advances := by
    refine h.advances.trans (hl.advances.widen fun e he => ⟨c, List.mem_singleton_self c, ?_⟩)
    exact Forest.mem_walkFrom_of_child he (Forest.self_mem_walkFrom _ e)
  accounted e he v hv := by
    rcases List.mem_append.1 he with he | he
    · exact (h.accounted e he v hv).advance hl.advances
    · rw [List.mem_singleton.1 he] at hv
      rcases (hl.accounted v hv).of_child hf hc with ⟨d, -, -, hb⟩ | hacc
      · exact absurd hb (hbinds d)
      · exact hacc
  ordered e he := by
    rcases List.mem_append.1 he with he | he
    · exact h.ordered e he
    · rw [List.mem_singleton.1 he]
      exact hl.ordered

/-- What lowers operand by operand is scoped if its operands are. -/
theorem operands_lowers (ht : t.Linked) (hk : t.kind? n = some k) (hcs : operands k = some cs)
    (ih : ∀ c ∈ cs, Lowers t c) : Lowers t n := by
  intro delayed st hready
  have hf := ht.wellFormed.named_once
  have hperm : cs.Perm (t.children n) := Forest.children_of_kind hk ▸ operands_perm hcs
  have hblock : ∀ items, t.kind? n ≠ some (.block items) := by
    intro items hb
    rw [hk] at hb
    cases hb
    simp [operands] at hcs
  have hbinds : ∀ d, ¬ t.Binds n d := by
    intro d hb
    simp only [Forest.Binds, hk] at hb
    cases k <;> simp [operands] at hcs <;> exact hb
  have hrefers : ∀ d, ¬ t.Refers n d := by
    rintro d ⟨target, hr⟩
    rw [hk] at hr
    cases hr
    simp [operands] at hcs
  rw [expression_operands hk hcs, lands_map]
  refine Lands.imp_ok (lands_mapM (OperandsLowered t n st)
    ⟨Advances.refl _ [] st, by simp, by simp⟩ ?_) ?_
  · rintro done c rest rfl terms st₁ h
    have hc : c ∈ t.children n := hperm.mem_iff.1 (by simp)
    have hready' : Ready t.toForest c st₁ := by
      refine hready.child hf hblock hc h.advances fun x hx => ⟨hperm.mem_iff.1 (by simp [hx]), ?_⟩
      have hnodup := hperm.nodup_iff.2 (hf.children_nodup n)
      exact (List.nodup_append.1 hnodup).2.2 x hx c (List.mem_cons_self ..)
    exact (ih c (by simp) delayed st₁ hready').imp (fun _ _ hl => h.next hf hc hbinds hl)
      fun _ _ hr => hr.of_child hc
  · intro terms st' h
    refine ⟨h.advances.widen fun c hc => ?_, fun v hv => ?_, ?_⟩
    · exact ⟨c, hperm.mem_iff.1 hc, Forest.self_mem_walkFrom _ c⟩
    · rcases mem_free_assemble hv with hb | ⟨e, he, hv⟩
      · exact Or.inl hb
      · exact h.accounted e he v hv
    · exact Ordered.of_children hrefers fun c hc => h.ordered c (hperm.mem_iff.2 hc)

end Operands

section Abstractions

/-- Nothing below a type expression refers to a value. -/
theorem ordered_typeExpr (ht : t.WellFormed) (hk : t.kind? n = some k)
    (htype : k.isTypeExpr = true) : Ordered t n := by
  rintro r hr d ⟨target, href⟩
  obtain ⟨kr, hkr, hexpr⟩ := ht.isTypeExpr_below hk htype hr
  rw [href] at hkr
  cases hkr
  simp [Kind.isTypeExpr] at hexpr

theorem quiet_assumeDeclared (ht : t.Linked) (n : NodeId) {type : Option NodeId}
    (htype : ∀ e ∈ type, ∃ k, t.kind? e = some k ∧ k.isTypeExpr = true) :
    Quiet t.toForest (assumeDeclared t.toForest n type) := by
  cases type with
  | none => exact quiet_pure ()
  | some e =>
    obtain ⟨k, hk, hexpr⟩ := htype e rfl
    exact quiet_bind (quiet_evaluate ht hk hexpr) fun A => quiet_assume _ _ _

theorem quiet_assumeParameter (ht : t.Linked) (p : NodeId) :
    Quiet t.toForest (assumeParameter t.toForest p) := by
  unfold assumeParameter
  split
  · rename_i hk
    exact quiet_assumeDeclared ht p (TypeStore.typeExpr_of_parameter ht.wellFormed hk)
  · exact quiet_pure ()

theorem quiet_assumeParameters (ht : t.Linked) (params : List NodeId) :
    Quiet t.toForest (assumeParameters t.toForest params) := by
  intro st
  refine lands_forM (fun _ st' => Advances t.toForest [] st st') (Advances.refl _ [] st) ?_
  intro done p rest _ st₁ h₁
  exact (quiet_assumeParameter ht p st₁).imp_ok fun _ _ h₂ => h₁.trans h₂

/-- The binders of an abstraction are its parameters, or one that stands for none. -/
theorem binders_lands (f : Forest) (params : List NodeId) (st : Lowering) :
    Lands (binders params) st
      (fun binds st' => Advances f [] st st' ∧ ∀ v ∈ params.map CoreVar.decl, v ∈ binds)
      fun _ _ => False := by
  cases params with
  | nil =>
    simp only [binders, List.isEmpty_nil, if_true, lands_map, synthetic, lands_bind, lands_get,
      lands_set, lands_pure]
    exact ⟨⟨fun _ h => h, fun _ h => h, fun _ h => Or.inl h⟩, by simp⟩
  | cons p rest =>
    simp only [binders, List.isEmpty_cons, Bool.false_eq_true, if_false, lands_pure]
    exact ⟨Advances.refl f [] st, fun _ h => h⟩

def Abstracts (k : Kind) (params : List NodeId) (body : NodeId) : Prop :=
  (∃ name returns, k = .function name params returns body) ∨ k = .lambda params body

structure AbstractionLowered (t : Tree) (n : NodeId) (params : List NodeId) (body : NodeId)
    (st : Lowering) (term : Term) (st' : Lowering) : Prop where
  advances : Advances t.toForest (t.children n) st st'
  accounted : ∀ v ∈ term.free, v ∉ params.map CoreVar.decl ∧ Accounted t body st' v
  ordered : Ordered t n

variable {params : List NodeId} {body : NodeId}

theorem Abstracts.body_place (h : Abstracts k params body) :
    (Role.expression, body) ∈ k.places := by
  rcases h with ⟨name, returns, rfl⟩ | rfl <;> simp [Kind.places]

/-- Below an abstraction but not in its body are only parameters and type expressions. -/
theorem Abstracts.below (ht : t.WellFormed) (h : Abstracts k params body) (hk : t.kind? n = some k)
    {m : NodeId} (hm : m ∈ t.walkFrom n) : m = n ∨ m ∈ t.walkFrom body ∨
      (∃ name type, t.kind? m = some (.parameter name type)) ∨
      ∃ km, t.kind? m = some km ∧ km.isTypeExpr = true := by
  rcases Forest.mem_walkFrom_iff.1 hm with rfl | ⟨c, hc, hm⟩
  · exact Or.inl rfl
  · rw [Forest.children_of_kind hk] at hc
    obtain ⟨role, hrole⟩ := Kind.exists_place_of_mem_children hc
    obtain ⟨-, kc, hkc, hadmits⟩ := ht.child_fits hk hrole
    have hroles : role = .parameter ∨ role = .typeExpr ∨ c = body := by
      rcases h with ⟨name, returns, rfl⟩ | rfl <;> simp [Kind.places] at hrole <;> tauto
    rcases hroles with rfl | rfl | rfl
    · cases kc <;> simp [Role.admits] at hadmits
      case parameter name type =>
        rcases Forest.mem_walkFrom_iff.1 hm with rfl | ⟨e, he, hm⟩
        · exact Or.inr (Or.inr (Or.inl ⟨name, type, hkc⟩))
        · obtain ⟨ke, hke, htype⟩ := TypeStore.typeExpr_of_parameter ht hkc e
            (by simpa [Forest.children_of_kind hkc, Kind.children] using he)
          exact Or.inr (Or.inr (Or.inr (ht.isTypeExpr_below hke htype hm)))
    · exact Or.inr (Or.inr (Or.inr (ht.isTypeExpr_below hkc hadmits hm)))
    · exact Or.inr (Or.inl hm)

/-- References below an abstraction are in order if those below its body are. -/
theorem Abstracts.ordered (ht : t.WellFormed) (h : Abstracts k params body)
    (hk : t.kind? n = some k) (hbody : Ordered t body) : Ordered t n := by
  rintro r hr d ⟨target, href⟩
  rcases h.below ht hk hr with rfl | hr | ⟨name, type, hkr⟩ | ⟨kr, hkr, htype⟩
  · rw [href] at hk
    cases hk
    rcases h with ⟨name, returns, h⟩ | h <;> cases h
  · exact hbody r hr d ⟨target, href⟩
  · simp [href] at hkr
  · rw [href] at hkr
    cases hkr
    simp [Kind.isTypeExpr] at htype

/-- The parameters of an abstraction are not free in its term. -/
theorem abstraction_lands (ht : t.Linked) (hk : t.kind? n = some k)
    (h : Abstracts k params body) (ih : Lowers t body) (hready : Ready t.toForest n st) :
    Lands (abstraction t.toForest n params (expression t.toForest delayed body)) st
      (AbstractionLowered t n params body st) fun e _ => Refused t n e := by
  have hf := ht.wellFormed.named_once
  have hbody : body ∈ t.children n :=
    Forest.mem_children_of_kind hk (Kind.mem_children_of_mem_places h.body_place)
  have hblock : ∀ items, t.kind? n ≠ some (.block items) := by
    intro items hb
    rw [hk] at hb
    cases hb
    rcases h with ⟨name, returns, h⟩ | h <;> cases h
  rw [abstraction_eq]
  simp only [lands_bind]
  refine (quiet_assumeParameters ht params st).imp ?_ fun _ _ h => h.elim
  intro _ st₁ h₁
  refine (binders_lands t.toForest params st₁).imp ?_ fun _ _ h => h.elim
  rintro binds st₂ ⟨h₂, hbinds⟩
  have hadv : Advances t.toForest [] st st₂ := h₁.trans h₂
  have hready' := (hready.advance hadv).child hf hblock hbody (Advances.refl _ [] st₂) (by simp)
  refine (ih delayed st₂ hready').imp ?_ fun _ _ hr => hr.of_child hbody
  intro term st₃ hl
  rw [lands_pure]
  refine ⟨?_, fun v hv => ?_, h.ordered ht.wellFormed hk hl.ordered⟩
  · refine (hadv.trans hl.advances).widen fun c hc => ⟨body, hbody, ?_⟩
    exact Forest.mem_walkFrom_of_child hc (Forest.self_mem_walkFrom _ c)
  · rw [Term.free_withOrigin, Term.mem_free_abstract] at hv
    exact ⟨fun hp => hv.2 (hbinds v hp), hl.accounted v hv.1⟩

/-- A lambda is scoped if its body is. -/
theorem lambda_lowers (ht : t.Linked) (hk : t.kind? n = some (.lambda params body))
    (ih : Lowers t body) : Lowers t n := by
  intro delayed st hready
  have habs : Abstracts (.lambda params body) params body := Or.inr rfl
  have hbody : body ∈ t.children n :=
    Forest.mem_children_of_kind hk (Kind.mem_children_of_mem_places habs.body_place)
  rw [expression_lambda hk]
  refine (abstraction_lands ht hk habs ih hready).imp_ok fun term st' hl => ?_
  refine ⟨hl.advances, fun v hv => ?_, hl.ordered⟩
  obtain ⟨hparams, hacc⟩ := hl.accounted v hv
  rcases hacc.of_child ht.wellFormed.named_once hbody with ⟨d, rfl, -, hb⟩ | hacc
  · simp only [Forest.Binds, hk] at hb
    exact absurd (List.mem_map_of_mem hb) hparams
  · exact hacc

end Abstractions

section Blocks

theorem refersTo_iff {f : Forest} : refersTo f n d = true ↔ ∃ r ∈ f.walkFrom n, f.Refers r d := by
  simp only [refersTo, List.any_eq_true]
  refine exists_congr fun m => and_congr_right fun _ => ?_
  unfold Forest.Refers
  split
  · rename_i target referral hk
    simp [hk]
  · rename_i hnot
    simp only [Bool.false_eq_true, false_iff, not_exists]
    exact fun target hk => hnot target d hk

theorem mem_free_fixpoint {term : Term} : v ∈ (fixpoint x term).free ↔
    (v ∈ term.free ∧ v ≠ .decl x) ∨ v = .builtin .fix := by
  simp [fixpoint]

def Item.term : Item → Term
  | .binding binder _ => binder
  | .value term => term

/-- What an item of a block comes to: a binding of its own name if it has one, in which that name
is not free unless its type is assumed. -/
structure ItemLowered (t : Tree) (st : Lowering) (x : NodeId) (it : Item) : Prop where
  binds : t.isLocalBinding x = true → ∃ binder, it = .binding binder (.decl x)
  accounted : ∀ v ∈ it.term.free, Accounted t x st v
  own : t.isLocalBinding x = true → .decl x ∈ it.term.free →
    st.assumptions.contains (.decl x) = true
  ordered : Ordered t x

theorem ItemLowered.advance {it : Item} (h : ItemLowered t st x it)
    (hadv : Advances t.toForest cs st st₁) : ItemLowered t st₁ x it :=
  ⟨h.binds, fun v hv => (h.accounted v hv).advance hadv,
    fun hx hv => hadv.assumed _ (h.own hx hv), h.ordered⟩

/-- A binding of the term of a child, closed over what the item binds. -/
theorem itemLowered_binding (hf : t.NamedOnce) (hc : c ∈ t.children x) {binder : Term}
    (hacc : ∀ v ∈ binder.free, Accounted t c st v)
    (hbinds : ∀ d, t.Binds x d → .decl d ∈ binder.free → d = x)
    (hself : .decl x ∈ binder.free → ¬ ∃ r ∈ t.walkFrom c, t.Refers r x)
    (hordered : Ordered t x) : ItemLowered t st x (.binding binder (.decl x)) where
  binds _ := ⟨binder, rfl⟩
  accounted v hv := by
    rcases (hacc v hv).of_child hf hc with ⟨d, rfl, href, hb⟩ | hv'
    · obtain rfl := hbinds d hb hv
      exact absurd href (hself hv)
    · exact hv'
  own _ hv := by
    rcases hacc _ hv with ⟨b, hb⟩ | ha | ⟨d, hd, href, -⟩
    · cases hb
    · exact ha
    · cases hd
      exact absurd href (hself hv)
  ordered := hordered

def ItemDone (t : Tree) (x : NodeId) (st : Lowering) (it : Item) (st' : Lowering) : Prop :=
  Advances t.toForest [x] st st' ∧ (t.isLocalBinding x = true → st'.bound.contains x = true) ∧
    ItemLowered t st' x it

theorem reach_advances (f : Forest) (x : NodeId) (st : Lowering) :
    Advances f [x] st { st with bound := st.bound.insert x () } where
  assumed _ h := h
  bound d h := by simp [h]
  region d h := by
    simp only [OrderedMap.contains_insert, Bool.or_eq_true, decide_eq_true_eq] at h
    rcases h with rfl | h
    · exact Or.inr ⟨x, List.mem_singleton_self x, Forest.self_mem_walkFrom f x⟩
    · exact Or.inl h

/-- A variable of a block lowers to its binding or is refused for a reference in its value. -/
theorem varDecl_lands (ht : t.Linked) {name : Symbol} {isMutable isLast : Bool}
    {type : Option NodeId} {value : NodeId}
    (hk : t.kind? x = some (.varDecl name isMutable type value)) (ih : Lowers t value)
    (hent : Entering t.toForest x st) :
    Lands (item t.toForest delayed isLast x) st (ItemDone t x st) fun e _ => Refused t x e := by
  have hf := ht.wellFormed.named_once
  have hvalue : value ∈ t.children x := Forest.mem_children_of_kind hk (by simp [Kind.children])
  have htype : ∀ e ∈ type, ∃ k, t.kind? e = some k ∧ k.isTypeExpr = true := by
    intro e he
    have hplace : (Role.typeExpr, e) ∈ (Kind.varDecl name isMutable type value).places := by
      simpa [Kind.places] using he
    obtain ⟨-, k, hke, hadmits⟩ := ht.wellFormed.child_fits hk hplace
    exact ⟨k, hke, hadmits⟩
  have hblock : ∀ items, t.kind? x ≠ some (.block items) := by simp [hk]
  simp only [item, hk, lands_bind]
  refine (quiet_assumeDeclared ht x htype st).imp ?_ fun _ _ h => h.elim
  intro _ st₁ h₁
  simp only [reach, lands_modify]
  have hready := (hent.advance h₁).reach hf
  have hadv : Advances t.toForest [x] st { st₁ with bound := st₁.bound.insert x () } :=
    h₁.trans (reach_advances _ x st₁)
  have hlower := fun inside => ih inside _
    (hready.child hf hblock hvalue (Advances.refl _ [] _) (by simp))
  have hdone : ∀ {term binder : Term} {st₂ : Lowering},
      Lowered t value { st₁ with bound := st₁.bound.insert x () } term st₂ →
      (∀ v ∈ binder.free, v ∈ term.free ∨ v = .builtin .fix) →
      (.decl x ∈ binder.free → ¬ ∃ r ∈ t.walkFrom value, t.Refers r x) →
      ItemDone t x st (.binding binder (.decl x)) st₂ := by
    intro term binder st₂ hl hfree hself
    refine ⟨?_, fun _ => hl.advances.bound x (by simp), ?_⟩
    · refine (hadv.trans hl.advances).widen fun c hc => ⟨x, List.mem_singleton_self x, ?_⟩
      rcases List.mem_append.1 hc with hc | hc
      · rw [List.mem_singleton.1 hc]
        exact Forest.self_mem_walkFrom _ x
      · exact Forest.mem_walkFrom_of_child hvalue
          (Forest.mem_walkFrom_of_child hc (Forest.self_mem_walkFrom _ c))
    · refine itemLowered_binding hf hvalue (fun v hv => ?_) (fun d hd _ => ?_) hself ?_
      · rcases hfree v hv with hv | rfl
        · exact hl.accounted v hv
        · exact Or.inl ⟨.fix, rfl⟩
      · simpa [Forest.Binds, hk] using hd
      · refine Ordered.of_children ?_ fun c hc => ?_
        · rintro d ⟨target, hr⟩
          rw [hk] at hr
          cases hr
        · rw [Forest.children_of_kind hk, Kind.children, List.mem_append, List.mem_singleton] at hc
          rcases hc with hc | rfl
          · obtain ⟨kc, hkc, hexpr⟩ := htype c (by simpa using hc)
            exact ordered_typeExpr ht.wellFormed hkc hexpr
          · exact hl.ordered
  split
  · rename_i hrefers
    simp only [lands_bind, lands_map, lands_pure]
    refine (hlower _).imp (fun term st₂ hl => hdone hl ?_ ?_) fun _ _ hr => hr.of_child hvalue
    · intro v hv
      exact (mem_free_fixpoint.1 hv).imp_left And.left
    · intro hv
      simp [mem_free_fixpoint] at hv
  · rename_i hrefers
    simp only [lands_bind, lands_pure]
    refine (hlower _).imp (fun term st₂ hl => hdone hl (fun v hv => Or.inl hv) ?_)
      fun _ _ hr => hr.of_child hvalue
    exact fun _ href => hrefers (refersTo_iff.2 href)

/-- A function of a block lowers to its binding or is refused for a reference in its body. -/
theorem function_lands (ht : t.Linked) {name : Symbol} {isLast : Bool} {params : List NodeId}
    {returns : Option NodeId} {body : NodeId}
    (hk : t.kind? x = some (.function name params returns body)) (ih : Lowers t body)
    (hent : Entering t.toForest x st) :
    Lands (item t.toForest delayed isLast x) st (ItemDone t x st) fun e _ => Refused t x e := by
  have hf := ht.wellFormed.named_once
  have habs : Abstracts (.function name params returns body) params body :=
    Or.inl ⟨name, returns, rfl⟩
  have hbody : body ∈ t.children x :=
    Forest.mem_children_of_kind hk (Kind.mem_children_of_mem_places habs.body_place)
  simp only [item, hk, lands_bind, reach, lands_modify, lands_pure]
  have hready := hent.reach hf
  refine (abstraction_lands ht hk habs ih hready).imp_ok fun term st₁ hl => ?_
  refine ⟨?_, fun _ => hl.advances.bound x (by simp), ?_⟩
  · refine ((reach_advances _ x st).trans hl.advances).widen fun c hc =>
      ⟨x, List.mem_singleton_self x, ?_⟩
    rcases List.mem_append.1 hc with hc | hc
    · rw [List.mem_singleton.1 hc]
      exact Forest.self_mem_walkFrom _ x
    · exact Forest.mem_walkFrom_of_child hc (Forest.self_mem_walkFrom _ c)
  · have hbinds : ∀ d, t.Binds x d → .decl d ∈ term.free → d = x := by
      intro d hd hv
      simp only [Forest.Binds, hk] at hd
      rcases hd with hd | hd
      · exact hd
      · exact absurd (List.mem_map_of_mem hd) (hl.accounted _ hv).1
    split
    · refine itemLowered_binding hf hbody (fun v hv => ?_) (fun d hd hv => ?_) ?_ hl.ordered
      · rcases mem_free_fixpoint.1 hv with ⟨hv, -⟩ | rfl
        · exact (hl.accounted v hv).2
        · exact Or.inl ⟨.fix, rfl⟩
      · rcases mem_free_fixpoint.1 hv with ⟨hv, -⟩ | hv
        · exact hbinds d hd hv
        · cases hv
      · simp [mem_free_fixpoint]
    · rename_i hrefers
      refine itemLowered_binding hf hbody (fun v hv => (hl.accounted v hv).2) hbinds ?_ hl.ordered
      rintro - ⟨r, hr, href⟩
      exact hrefers (refersTo_iff.2 ⟨r, Forest.mem_walkFrom_of_child hbody hr, href⟩)

/-- An expression among the items of a block lowers to its term or is refused. -/
theorem expressionItem_lands (hk : t.kind? x = some k) (hexpr : k.isExpression = true)
    {isLast : Bool} (ih : Lowers t x) (hent : Entering t.toForest x st) :
    Lands (item t.toForest delayed isLast x) st (ItemDone t x st) fun e _ => Refused t x e := by
  have hlocal : t.isLocalBinding x = false := by
    cases k <;> simp [Kind.isExpression] at hexpr <;> simp [Forest.isLocalBinding, hk]
  have hitem : item t.toForest delayed isLast x = (do
      let term ← expression t.toForest delayed x
      if isLast then return Item.value term
      else return Item.binding term (← synthetic)) := by
    cases k <;> simp [Kind.isExpression] at hexpr <;> simp [item, hk]
  have hdone : ∀ {term : Term} {it : Item} {st₁ st₂ : Lowering}, it.term = term →
      Lowered t x st term st₁ → Advances t.toForest [] st₁ st₂ → ItemDone t x st it st₂ := by
    rintro _ it st₁ st₂ rfl hl hadv
    refine ⟨(hl.advances.trans hadv).widen fun c hc => ⟨x, List.mem_singleton_self x, ?_⟩,
      by simp [hlocal], by simp [hlocal], fun v hv => (hl.accounted v hv).advance hadv,
      by simp [hlocal], hl.ordered⟩
    rw [List.append_nil] at hc
    exact Forest.mem_walkFrom_of_child hc (Forest.self_mem_walkFrom _ c)
  rw [hitem, lands_bind]
  refine (ih delayed st (hent.ready hlocal)).imp_ok fun term st₁ hl => ?_
  cases isLast with
  | true =>
    simp only [if_true, lands_pure]
    exact hdone rfl hl (Advances.refl _ [] st₁)
  | false =>
    simp only [Bool.false_eq_true, if_false, synthetic, lands_bind, lands_get, lands_set,
      lands_pure]
    exact hdone rfl hl ⟨fun _ h => h, fun _ h => h, fun _ h => Or.inl h⟩

structure ItemsLowered (t : Tree) (st : Lowering) (done : List NodeId) (its : List Item)
    (st' : Lowering) : Prop where
  advances : Advances t.toForest done st st'
  bound : ∀ d ∈ done, t.isLocalBinding d = true → st'.bound.contains d = true
  items : List.Forall₂ (ItemLowered t st') done its
  ordered : ∀ d ∈ done, Ordered t d

/-- Items that have been lowered in turn, with one more after them. -/
theorem ItemsLowered.next {done : List NodeId} {its : List Item} {it : Item}
    (h : ItemsLowered t st done its st₁) (hdone : ItemDone t x st₁ it st₂) :
    ItemsLowered t st (done ++ [x]) (its ++ [it]) st₂ where
  advances := h.advances.trans hdone.1
  bound d hd hlocal := by
    rcases List.mem_append.1 hd with hd | hd
    · exact hdone.1.bound d (h.bound d hd hlocal)
    · obtain rfl := List.mem_singleton.1 hd
      exact hdone.2.1 hlocal
  items := by
    refine List.rel_append (h.items.imp fun _ _ hit => hit.advance hdone.1) ?_
    exact List.Forall₂.cons hdone.2.2 List.Forall₂.nil
  ordered d hd := by
    rcases List.mem_append.1 hd with hd | hd
    · exact h.ordered d hd
    · rw [List.mem_singleton.1 hd]
      exact hdone.2.2.ordered

/-- A variable is free in a chain if it is free in an item and no item before that binds it. -/
theorem mem_free_chain {P : NodeId → Item → Prop} {xs : List NodeId} {its : List Item}
    (hits : List.Forall₂ P xs its) (h : v ∈ (chain its).free) :
    ∃ pre x post it, xs = pre ++ x :: post ∧ P x it ∧ v ∈ it.term.free ∧
      ∀ y ∈ pre, ∃ it, P y it ∧ ∀ binder, it ≠ .binding binder v := by
  induction hits with
  | nil => simp [chain, Term.unit] at h
  | @cons x it xs its hx _ ih =>
    cases it with
    | value term => exact ⟨[], x, xs, .value term, rfl, hx, h, by simp⟩
    | binding binder bind =>
      rcases Term.mem_free_letIn.1 h with hv | ⟨hv, hne⟩
      · exact ⟨[], x, xs, .binding binder bind, rfl, hx, hv, by simp⟩
      · obtain ⟨pre, y, post, it, rfl, hy, hv, hpre⟩ := ih hv
        refine ⟨x :: pre, y, post, it, rfl, hy, hv, fun z hz => ?_⟩
        rcases List.mem_cons.1 hz with rfl | hz
        · refine ⟨_, hx, ?_⟩
          rintro binder' heq
          cases heq
          exact hne rfl
        · exact hpre z hz

/-- What is free in the chain of a block is not bound by the block. -/
theorem accounted_chain (hf : t.NamedOnce) {items : List NodeId} {its : List Item}
    (hk : t.kind? n = some (.block items)) (hits : List.Forall₂ (ItemLowered t st) items its)
    (h : v ∈ (chain its).free) : Accounted t n st v := by
  obtain ⟨pre, x, post, it, rfl, hx, hv, hpre⟩ := mem_free_chain hits h
  have hchild : x ∈ t.children n := Forest.mem_children_of_kind hk (by simp [Kind.children])
  rcases (hx.accounted v hv).of_child hf hchild with ⟨d, rfl, ⟨r, hr, href⟩, hb⟩ | hacc
  · -- the block binds the variable: before the item, as the item, or after it
    simp only [Forest.Binds, hk, List.mem_append, List.mem_cons] at hb
    obtain ⟨hd | rfl | hd, hlocal⟩ := hb
    · obtain ⟨it', hit', hne⟩ := hpre d hd
      obtain ⟨binder, rfl⟩ := hit'.binds hlocal
      exact absurd rfl (hne binder)
    · exact Or.inr (Or.inl (hx.own hlocal hv))
    · exact absurd ⟨n, pre, x, post, ⟨hk, hr⟩, hd⟩ (hx.ordered r hr d href)
  · exact hacc

/-- A block is scoped if the expressions and the values in it are. -/
theorem block_lowers (ht : t.Linked) {items : List NodeId}
    (hk : t.kind? n = some (.block items))
    (ih : ∀ x ∈ items, ∀ delayed isLast st, Entering t.toForest x st →
      Lands (item t.toForest delayed isLast x) st (ItemDone t x st) fun e _ => Refused t x e) :
    Lowers t n := by
  intro delayed st hready
  have hf := ht.wellFormed.named_once
  have hchildren := Forest.children_block hk
  rw [expression_block hk, lands_map]
  refine Lands.imp_ok (lands_mapM_zipIdx (ItemsLowered t st)
    ⟨Advances.refl _ [] st, by simp, List.Forall₂.nil, by simp⟩ ?_) ?_
  · rintro done x rest rfl its st₁ h
    have hent := hready.item hf hk h.advances h.bound
    have hx : x ∈ t.children n := by simp [hchildren]
    exact (ih x (by simp) delayed _ st₁ hent).imp (fun _ _ hdone => h.next hdone)
      fun _ _ hr => hr.of_child hx
  · intro its st' h
    refine ⟨hchildren ▸ h.advances, fun v hv => accounted_chain hf hk h.items hv, ?_⟩
    refine Ordered.of_children ?_ fun x hx => ?_
    · rintro d ⟨target, hr⟩
      rw [hk] at hr
      cases hr
    · exact h.ordered x (hchildren ▸ hx)

end Blocks

theorem operands_place (h : operands k = some cs) (hc : c ∈ cs) :
    (Role.expression, c) ∈ k.places := by
  have hplaces : k.places = k.children.map (Role.expression, ·) := by
    cases k <;> simp [operands] at h <;> rfl
  rw [hplaces]
  exact List.mem_map_of_mem ((operands_perm h).mem_iff.1 hc)

/-- An expression whose expressions and items are scoped is scoped. -/
theorem expression_lowers_of_places (ht : t.Linked) (hk : t.kind? n = some k)
    (hexpr : k.isExpression = true)
    (hplace : ∀ c, (Role.expression, c) ∈ k.places → Lowers t c)
    (hitem : ∀ x, (Role.blockItem, x) ∈ k.places → ∀ delayed isLast st,
      Entering t.toForest x st →
      Lands (item t.toForest delayed isLast x) st (ItemDone t x st) fun e _ => Refused t x e) :
    Lowers t n := by
  cases hops : operands k with
  | some cs => exact operands_lowers ht hk hops fun c hc => hplace c (operands_place hops hc)
  | none =>
    cases k <;> simp [Kind.isExpression] at hexpr <;> simp [operands] at hops
    case block items =>
      exact block_lowers ht hk fun x hx => hitem x (Kind.blockItem_mem_places.2 ⟨items, rfl, hx⟩)
    case reference r => simpa [Kind.isPending] using ht.complete n _ hk
    case resolved target d => exact resolved_lowers ht hk
    case lambda params body => exact lambda_lowers ht hk (hplace body (by simp [Kind.places]))

/-- Every expression of a linked tree lowers to a scoped term or fails for a reason, and so does
every item of a block. -/
theorem expression_and_item_lower (ht : t.Linked) (n : NodeId) :
    (∀ k, t.kind? n = some k → k.isExpression = true → Lowers t n) ∧
      ∀ k, t.kind? n = some k → Role.admits k .blockItem = true → ∀ delayed isLast st,
        Entering t.toForest n st →
        Lands (item t.toForest delayed isLast n) st (ItemDone t n st) fun e _ => Refused t n e := by
  induction n using Forest.childInduction (f := t.toForest) with
  | step n ih =>
    have hplace : ∀ {k}, t.kind? n = some k → ∀ c, (Role.expression, c) ∈ k.places →
        Lowers t c := by
      intro k hk c hc
      obtain ⟨-, kc, hkc, hadmits⟩ := ht.wellFormed.child_fits hk hc
      exact (ih c (Forest.mem_children_of_kind hk (Kind.mem_children_of_mem_places hc))).1
        kc hkc hadmits
    have hexpression : ∀ k, t.kind? n = some k → k.isExpression = true → Lowers t n := by
      intro k hk hexpr
      refine expression_lowers_of_places ht hk hexpr (hplace hk) fun x hx => ?_
      obtain ⟨-, kx, hkx, hadmits⟩ := ht.wellFormed.child_fits hk hx
      exact (ih x (Forest.mem_children_of_kind hk (Kind.mem_children_of_mem_places hx))).2
        kx hkx hadmits
    refine ⟨hexpression, fun k hk hadmits delayed isLast st hent => ?_⟩
    by_cases hexpr : k.isExpression = true
    · exact expressionItem_lands hk hexpr (hexpression k hk hexpr) hent
    · cases k <;> simp [Role.admits, Kind.isLocalBinding, Kind.isExpression] at hadmits hexpr
      case varDecl name isMutable type value =>
        exact varDecl_lands ht hk (hplace hk value (by simp [Kind.places])) hent
      case function name params returns body =>
        exact function_lands ht hk (hplace hk body (by simp [Kind.places])) hent

theorem expression_lowers (ht : t.Linked) (hk : t.kind? n = some k)
    (hexpr : k.isExpression = true) : Lowers t n :=
  (expression_and_item_lower ht n).1 k hk hexpr

end Lowering

end SemanticAnalysis
