import SemanticAnalysis.Declarations.Inference
import SemanticAnalysis.Proofs.InferenceSoundness
import SemanticAnalysis.Proofs.LoweringScopes

/-!
Type variables of what lowering assumes. A struct keeps the field types that are
worked out when it is first asked about, so their variables are shared between
functions. Whatever else is assumed while a function is lowered has variables of
its own, and quantifies none that is shared. Whether lowering succeeds or fails, it
leaves such assumptions.
-/

namespace SemanticAnalysis

def Context.Quantifies (Γ : Context) (v : TyVar) : Prop :=
  ∃ x σ, Γ.get? x = some σ ∧ σ.bound.contains v = true

section Curried

variable {inputs : List Ty} {output : Ty}

/-- The variables of a curried type are those of its inputs and its output. -/
theorem Ty.mem_vars_curried {v : TyVar} (h : v ∈ (Ty.curried inputs output).vars) :
    (∃ t ∈ inputs, v ∈ t.vars) ∨ v ∈ output.vars := by
  have hfold : ∀ {inputs : List Ty}, v ∈ (inputs.foldr Ty.fn output).vars →
      (∃ t ∈ inputs, v ∈ t.vars) ∨ v ∈ output.vars := by
    intro inputs hv
    induction inputs with
    | nil => exact Or.inr hv
    | cons t rest ih =>
      rcases Ty.mem_vars_fn.1 hv with hv | hv
      · exact Or.inl ⟨t, List.mem_cons_self .., hv⟩
      · refine (ih hv).imp_left ?_
        rintro ⟨u, hu, hv⟩
        exact ⟨u, List.mem_cons_of_mem t hu, hv⟩
  cases inputs with
  | nil =>
    have hfn : v ∈ (Ty.fn Ty.unit output).vars := h
    rcases Ty.mem_vars_fn.1 hfn with hv | hv
    · simp [Ty.unit, Ty.vars, Ty.varsAll] at hv
    · exact Or.inr hv
  | cons t rest => exact hfold h

theorem Ty.sealed_curried {k : Seal} (hi : ∀ t ∈ inputs, t.Sealed k) (ho : output.Sealed k) :
    (Ty.curried inputs output).Sealed k := by
  have hfold : ∀ {inputs : List Ty}, (∀ t ∈ inputs, t.Sealed k) →
      (inputs.foldr Ty.fn output).Sealed k := by
    intro inputs hi
    induction inputs with
    | nil => exact ho
    | cons t rest ih =>
      refine Ty.sealed_fn_iff.2 ⟨hi t (List.mem_cons_self ..), ih fun u hu => ?_⟩
      exact hi u (List.mem_cons_of_mem t hu)
  cases inputs with
  | nil => exact Ty.sealed_fn_iff.2 ⟨Ty.sealed_of_ground rfl, ho⟩
  | cons t rest => exact hfold hi

end Curried

namespace TypeStore

def Shares (S : TypeStore) (v : TyVar) : Prop :=
  ∃ d ts, S.fields.get? d = some ts ∧ ∃ t ∈ ts, v ∈ t.vars

/-- A store whose shared variables are issued and whose field types keep tuples and unions free of
variables. -/
structure Tidy (S : TypeStore) : Prop where
  issued : ∀ v, S.Shares v → v.index < S.supply.issued
  sealed : ∀ d ts, S.fields.get? d = some ts → ∀ t ∈ ts, t.Sealed .aggregates

def Since (S S' : TypeStore) (v : TyVar) : Prop :=
  S.supply.issued ≤ v.index ∧ v.index < S'.supply.issued

structure Extends (S S' : TypeStore) : Prop where
  le : S.supply.issued ≤ S'.supply.issued
  shares : ∀ v, S'.Shares v → S.Shares v ∨ S.Since S' v
  sealed : ∀ d ts, S'.fields.get? d = some ts → S.fields.get? d = some ts ∨
    ∀ t ∈ ts, t.Sealed .aggregates

variable {f : Forest} {S S₁ S₂ : TypeStore} {v : TyVar} {t : Ty}

theorem Extends.refl (S : TypeStore) : S.Extends S where
  le := Nat.le_refl _
  shares _ h := Or.inl h
  sealed _ _ h := Or.inl h

theorem Extends.of_fields (hle : S.supply.issued ≤ S₁.supply.issued)
    (hfields : S₁.fields = S.fields) : S.Extends S₁ where
  le := hle
  shares v hv := by
    unfold Shares at hv ⊢
    rw [hfields] at hv
    exact Or.inl hv
  sealed d ts h := Or.inl (hfields ▸ h)

/-- Stores that come one after the other form one stretch. -/
theorem Extends.trans (h₁ : S.Extends S₁) (h₂ : S₁.Extends S₂) : S.Extends S₂ where
  le := Nat.le_trans h₁.le h₂.le
  shares v hv := by
    have hle₁ := h₁.le
    have hle₂ := h₂.le
    rcases h₂.shares v hv with hv | ⟨hlow, hhigh⟩
    · rcases h₁.shares v hv with hv | ⟨hlow, hhigh⟩
      · exact Or.inl hv
      · exact Or.inr ⟨hlow, by omega⟩
    · exact Or.inr ⟨by omega, hhigh⟩
  sealed d ts h := (h₂.sealed d ts h).elim (h₁.sealed d ts) Or.inr

theorem Extends.tidy (h : S.Extends S₁) (hS : S.Tidy) : S₁.Tidy where
  issued v hv := by
    have hle := h.le
    rcases h.shares v hv with hv | ⟨_, hhigh⟩
    · have hlt := hS.issued v hv
      omega
    · exact hhigh
  sealed d ts hd := (h.sealed d ts hd).elim (hS.sealed d ts) id

section Readings

structure Fresh (S S' : TypeStore) (t : Ty) : Prop where
  sealed : t.Sealed .aggregates
  vars : ∀ v ∈ t.vars, S.Since S' v

theorem fresh_of_ground (h : t.vars = []) : S.Fresh S₁ t where
  sealed := Ty.sealed_of_ground h
  vars v hv := by simp [h] at hv

def Draws {α : Type} (x : Reading α) (P : TypeStore → TypeStore → α → Prop) : Prop := ∀ S,
  Lands x S (fun a S' => P S S' a ∧ S.supply.issued ≤ S'.supply.issued ∧ S'.fields = S.fields)
    fun _ S' => S.supply.issued ≤ S'.supply.issued ∧ S'.fields = S.fields

theorem freshVar_draws : Draws freshVar Fresh := by
  intro S
  simp only [freshVar, lands_bind, lands_get, lands_set, lands_pure]
  refine ⟨⟨Ty.sealed_var _, fun v hv => ?_⟩, Nat.le_succ _, trivial⟩
  rw [Ty.mem_vars_var.1 hv]
  exact ⟨Nat.le_refl _, Nat.lt_succ_self _⟩

theorem evalOrFresh_draws (f : Forest) (type : Option NodeId) :
    Draws (evalOrFresh f type) Fresh := by
  cases type with
  | none => exact freshVar_draws
  | some n =>
    intro S
    simp only [evalOrFresh, evalOrFresh.liftExcept, lands_mk_pure]
    cases heval : evalType f n with
    | error e => exact ⟨Nat.le_refl _, trivial⟩
    | ok A => exact ⟨fresh_of_ground (vars_of_evalType heval), Nat.le_refl _, trivial⟩

theorem parameterType_draws (f : Forest) (n : NodeId) : Draws (parameterType f n) Fresh := by
  unfold parameterType
  split
  · exact evalOrFresh_draws f _
  · exact freshVar_draws

/-- Readings one after the other draw fresh types, each from where the one before left the supply.
-/
theorem mapM_draws {α : Type} {g : α → Reading Ty} (hg : ∀ x, Draws (g x) Fresh) (xs : List α) :
    Draws (xs.mapM g) fun S S' ts => ∀ t ∈ ts, S.Fresh S' t := by
  intro S
  refine lands_mapM (fun _ ts S' => (∀ t ∈ ts, S.Fresh S' t) ∧
    S.supply.issued ≤ S'.supply.issued ∧ S'.fields = S.fields) ⟨by simp, Nat.le_refl _, rfl⟩ ?_
  rintro done x rest - ts S₁ ⟨hts, hle₁, hfields₁⟩
  refine (hg x S₁).imp ?_ fun _ S₂ h => ⟨Nat.le_trans hle₁ h.1, h.2.trans hfields₁⟩
  rintro t S₂ ⟨ht, hle₂, hfields₂⟩
  refine ⟨fun u hu => ?_, Nat.le_trans hle₁ hle₂, hfields₂.trans hfields₁⟩
  rcases List.mem_append.1 hu with hu | hu
  · refine ⟨(hts u hu).sealed, fun v hv => ?_⟩
    obtain ⟨hlow, hhigh⟩ := (hts u hu).vars v hv
    exact ⟨hlow, by omega⟩
  · rw [List.mem_singleton.1 hu]
    refine ⟨ht.sealed, fun v hv => ?_⟩
    obtain ⟨hlow, hhigh⟩ := ht.vars v hv
    exact ⟨by omega, hhigh⟩

structure Known (S S' : TypeStore) (t : Ty) : Prop where
  sealed : t.Sealed .aggregates
  vars : ∀ v ∈ t.vars, S'.Shares v ∨ S.Since S' v

/-- The field types of a struct are known: they were worked out before or are drawn now. -/
theorem fieldTypes_lands (hS : S.Tidy) (decl : NodeId) : Lands (fieldTypes f decl) S
    (fun ts S' => S.Extends S' ∧ ∀ t ∈ ts, S.Known S' t) fun _ S' => S.Extends S' := by
  have hworked : ∀ {ts : List Ty} {S₁ : TypeStore}, (∀ t ∈ ts, S.Fresh S₁ t) →
      S.supply.issued ≤ S₁.supply.issued → S₁.fields = S.fields →
      S.Extends { S₁ with fields := S₁.fields.insert decl ts } := by
    intro ts S₁ hts hle hfields
    refine ⟨hle, ?_, fun d us hd => ?_⟩
    · rintro v ⟨d, us, hd, t, ht, hv⟩
      rcases OrderedMap.of_get?_insert hd with ⟨-, rfl⟩ | hd
      · exact Or.inr ((hts t ht).vars v hv)
      · exact Or.inl ⟨d, us, hfields ▸ hd, t, ht, hv⟩
    · rcases OrderedMap.of_get?_insert hd with ⟨-, rfl⟩ | hd
      · exact Or.inr fun t ht => (hts t ht).sealed
      · exact Or.inl (hfields ▸ hd)
  unfold fieldTypes
  simp only [lands_bind, lands_get]
  split
  · rename_i ts hts
    rw [lands_pure]
    exact ⟨.refl S, fun t ht => ⟨hS.sealed decl ts hts t ht,
      fun v hv => Or.inl ⟨decl, ts, hts, t, ht, hv⟩⟩⟩
  · split
    · simp only [lands_bind, lands_modify, lands_pure]
      refine (mapM_draws (parameterType_draws f) _ S).imp ?_ fun _ S₁ h => .of_fields h.1 h.2
      rintro ts S₁ ⟨hts, hle, hfields⟩
      refine ⟨hworked hts hle hfields, fun t ht => ⟨(hts t ht).sealed, fun v hv => Or.inr ?_⟩⟩
      exact (hts t ht).vars v hv
    · simp only [lands_bind, lands_modify, lands_pure]
      exact ⟨hworked (by simp) (Nat.le_refl _) rfl, by simp⟩

/-- The type of a field was worked out before or is drawn now. -/
theorem fieldType_lands (hS : S.Tidy) (n : NodeId) : Lands (fieldType f n) S
    (fun type S' => S.Extends S' ∧ ∀ t ∈ type, S.Known S' t) fun _ S' => S.Extends S' := by
  have hnone : S.Extends S ∧ ∀ t ∈ (none : Option Ty), S.Known S t := ⟨.refl S, by simp⟩
  unfold fieldType
  split
  · exact lands_pure.2 hnone
  · split
    · split
      · exact lands_pure.2 hnone
      · simp only [lands_bind, lands_pure]
        refine (fieldTypes_lands hS _).imp_ok ?_
        rintro ts S₁ ⟨hext, hts⟩
        exact ⟨hext, fun t ht => hts t (List.mem_of_getElem? ht)⟩
    · exact lands_pure.2 hnone

/-- The type of a constructor mentions the variables of the fields only. -/
theorem constructorType_lands (hS : S.Tidy) (decl : NodeId) : Lands (constructorType f decl) S
    (fun t S' => S.Extends S' ∧ S.Known S' t) fun _ S' => S.Extends S' := by
  simp only [constructorType, lands_bind, lands_mk_pure]
  refine (fieldTypes_lands hS decl).imp_ok ?_
  rintro ts S₁ ⟨hext, hts⟩
  cases hout : declaredType f decl with
  | error e => exact hext
  | ok output =>
    simp only [lands_pure]
    have hground := vars_of_declaredType hout
    refine ⟨hext, Ty.sealed_curried (fun t ht => (hts t ht).sealed)
      (Ty.sealed_of_ground hground), fun v hv => ?_⟩
    rcases Ty.mem_vars_curried hv with ⟨t, ht, hv⟩ | hv
    · exact (hts t ht).vars v hv
    · simp [hground] at hv

/-- The type of a field, or a variable for what is no field. -/
theorem fieldOrFresh_lands (hS : S.Tidy) (n : NodeId) : Lands (do
      match ← fieldType f n with
      | some t => return t
      | none => freshVar) S
    (fun t S' => S.Extends S' ∧ S.Known S' t) fun _ S' => S.Extends S' := by
  rw [lands_bind]
  refine (fieldType_lands hS n).imp_ok ?_
  rintro type S₁ ⟨hext, htype⟩
  cases type with
  | some t => exact lands_pure.2 ⟨hext, htype t rfl⟩
  | none =>
    refine (freshVar_draws S₁).imp ?_ fun _ S₂ h => hext.trans (.of_fields h.1 h.2)
    rintro t S₂ ⟨ht, hle, hfields⟩
    refine ⟨hext.trans (.of_fields hle hfields), ht.sealed, fun v hv => Or.inr ?_⟩
    obtain ⟨hlow, hhigh⟩ := ht.vars v hv
    exact ⟨Nat.le_trans hext.le hlow, hhigh⟩

def signature (f : Forest) (params : List NodeId) (output : Reading Ty) : Reading Ty := do
  let inputs ← params.mapM (parameterType f)
  return Ty.curried inputs (← output)

/-- A signature draws fresh types in the place of what is not declared. -/
theorem signature_draws (f : Forest) (params : List NodeId) {output : Reading Ty}
    (ho : Draws output Fresh) : Draws (signature f params output) Fresh := by
  intro S
  simp only [signature, lands_bind, lands_pure]
  refine (mapM_draws (parameterType_draws f) params S).imp_ok ?_
  rintro inputs S₁ ⟨hinputs, hle₁, hfields₁⟩
  refine (ho S₁).imp ?_ fun _ S₂ h => ⟨Nat.le_trans hle₁ h.1, h.2.trans hfields₁⟩
  rintro output S₂ ⟨houtput, hle₂, hfields₂⟩
  refine ⟨⟨?_, fun v hv => ?_⟩, Nat.le_trans hle₁ hle₂, hfields₂.trans hfields₁⟩
  · exact Ty.sealed_curried (fun t ht => (hinputs t ht).sealed) houtput.sealed
  · rcases Ty.mem_vars_curried hv with ⟨t, ht, hv⟩ | hv
    · obtain ⟨hlow, hhigh⟩ := (hinputs t ht).vars v hv
      exact ⟨hlow, by omega⟩
    · obtain ⟨hlow, hhigh⟩ := houtput.vars v hv
      exact ⟨by omega, hhigh⟩

end Readings

end TypeStore

namespace Lowering

section Reading

variable {α β : Type}

theorem run_reading (x : TypeStore.Reading α) (st : Lowering) : (reading x).run.run st =
    ((x.run.run st.store).1.mapError .notAType, { st with store := (x.run.run st.store).2 }) := by
  have hget : (get : Lower Lowering).run.run st = pure (.ok st, st) := rfl
  unfold reading
  simp only [ExceptT.run_bind, StateT.run_bind, hget, pure_bind]
  rcases x.run.run st.store with ⟨e | a, store⟩ <;> rfl

theorem reading_pure (a : α) : reading (pure a) = pure a := rfl

theorem reading_bind (x : TypeStore.Reading α) (g : α → TypeStore.Reading β) :
    reading (x >>= g) = reading x >>= fun a => reading (g a) := by
  apply ExceptT.ext
  apply StateT.ext
  intro st
  simp only [run_reading, ExceptT.run_bind, StateT.run_bind]
  rcases hx : x.run.run st.store with ⟨e | a, store⟩
  · rfl
  · exact (run_reading (g a) { st with store }).symm

theorem reading_mapM (g : α → TypeStore.Reading β) (xs : List α) :
    reading (xs.mapM g) = xs.mapM fun x => reading (g x) := by
  induction xs with
  | nil => rfl
  | cons x rest ih => simp only [List.mapM_cons, reading_bind, reading_pure, ih]

theorem evaluate_eq (f : Forest) (n : NodeId) :
    evaluate f n = reading (TypeStore.evalOrFresh f (some n)) := by
  unfold evaluate
  cases heval : evalType f n with
  | ok A =>
    simp only [TypeStore.evalOrFresh, TypeStore.evalOrFresh.liftExcept, heval]
    rfl
  | error e =>
    simp only [TypeStore.evalOrFresh, TypeStore.evalOrFresh.liftExcept, heval]
    rfl

theorem signatureOfParts_eq (f : Forest) (params : List NodeId) (output : TypeStore.Reading Ty) :
    signatureOfParts f params (reading output) = reading (TypeStore.signature f params output) := by
  simp only [signatureOfParts, TypeStore.signature, reading_bind, reading_mapM, reading_pure]

end Reading

section Preservation

variable {α β : Type} {I : Lowering → Prop} {f : Forest} {n : NodeId}

def Preserves {α : Type} (I : Lowering → Prop) (x : Lower α) : Prop :=
  ∀ st, I st → Lands x st (fun _ st' => I st') fun _ st' => I st'

theorem preserves_pure (a : α) : Preserves I (pure a) := fun st h => by simpa using h

theorem preserves_throw (e : LowerError) : Preserves I (throw e : Lower α) :=
  fun st h => by simpa using h

theorem preserves_bind {x : Lower α} {g : α → Lower β} (hx : Preserves I x)
    (hg : ∀ a, Preserves I (g a)) : Preserves I (x >>= g) := by
  intro st h
  rw [lands_bind]
  exact (hx st h).imp_ok fun a st₁ h₁ => hg a st₁ h₁

theorem preserves_map {x : Lower α} {g : α → β} (hx : Preserves I x) : Preserves I (g <$> x) := by
  intro st h
  rw [lands_map]
  exact hx st h

theorem preserves_get_bind {g : Lowering → Lower α} (hg : ∀ st, Preserves I (g st)) :
    Preserves I (get >>= g) := by
  intro st h
  simpa using hg st st h

theorem preserves_mapM {g : α → Lower β} (xs : List α) (hg : ∀ x ∈ xs, Preserves I (g x)) :
    Preserves I (xs.mapM g) := by
  intro st h
  refine lands_mapM (fun _ _ st' => I st') h fun done x rest hxs ys st₁ h₁ => ?_
  exact hg x (by simp [hxs]) st₁ h₁

theorem preserves_forM {g : α → Lower PUnit} (xs : List α) (hg : ∀ x ∈ xs, Preserves I (g x)) :
    Preserves I (xs.forM g) := by
  intro st h
  refine lands_forM (fun _ st' => I st') h fun done x rest hxs st₁ h₁ => ?_
  exact hg x (by simp [hxs]) st₁ h₁

theorem preserves_when {test : Bool} {x : Lower PUnit} (h : test = true → Preserves I x) :
    Preserves I (if test = true then x else pure ⟨⟩) := by
  cases test with
  | true => exact h rfl
  | false => exact preserves_pure _

/-- What a declared type adds to the assumptions has no variables. -/
theorem preserves_declared (hassume : ∀ st A, A.vars = [] → I st →
      I { st with assumptions := st.assumptions.insert (.decl n) (Scheme.mono A) })
    (type : Option NodeId) : Preserves I (assumeDeclared f n type) := by
  cases type with
  | none => exact preserves_pure ()
  | some e =>
    intro st h
    simp only [assumeDeclared, evaluate, lands_bind]
    cases heval : evalType f e with
    | error err => exact lands_throw.2 h
    | ok A =>
      simp only [lands_pure, Lowering.assume, lands_modify]
      exact hassume st A (vars_of_evalType heval) h

theorem preserves_parameters (params : List NodeId) (h : ∀ p name type,
      f.kind? p = some (.parameter name type) → Preserves I (assumeDeclared f p type)) :
    Preserves I (assumeParameters f params) := by
  refine preserves_forM params fun p _ => ?_
  unfold assumeParameter
  split
  · rename_i name type hk
    exact h p name type hk
  · exact preserves_pure _

/-- A property of the state that assumptions keep, and that says nothing of the bindings reached
and of synthetic variables. -/
structure Stable (f : Forest) (I : Lowering → Prop) : Prop where
  referral : ∀ n d, Preserves I (assumeReferral f n d)
  declared : ∀ n k type, f.kind? n = some k → k.isFunction = false →
    Preserves I (assumeDeclared f n type)
  silent : ∀ st bound synthetics, I st → I { st with bound, synthetics }

theorem Stable.synthetic (h : Stable f I) : Preserves I synthetic := by
  intro st hst
  simpa [Lowering.synthetic] using h.silent st st.bound _ hst

theorem Stable.reach (h : Stable f I) (n : NodeId) : Preserves I (reach n) := by
  intro st hst
  simpa [Lowering.reach] using h.silent st _ st.synthetics hst

theorem Stable.abstraction (h : Stable f I) (params : List NodeId) {body : Lower Term}
    (hbody : Preserves I body) : Preserves I (abstraction f n params body) := by
  rw [abstraction_eq]
  refine preserves_bind (preserves_parameters params fun p name type hk => ?_) fun _ => ?_
  · exact h.declared p _ type hk rfl
  · refine preserves_bind ?_ fun binds => preserves_bind hbody fun _ => preserves_pure _
    unfold binders
    split
    · exact preserves_map h.synthetic
    · exact preserves_pure _

/-- An item of a block keeps a stable property if the expressions in it do. -/
theorem Stable.item (h : Stable f I) {delayed : List NodeId} {isLast : Bool}
    (ih : ∀ m, m.index ≤ n.index → ∀ delayed, Preserves I (expression f delayed m)) :
    Preserves I (item f delayed isLast n) := by
  unfold Lowering.item
  split
  · rename_i type value hk
    have hvalue := ih value (Nat.le_of_lt (Forest.index_lt_of_kind hk (by simp [Kind.children])))
    refine preserves_bind (h.declared n _ type hk rfl) fun _ => ?_
    refine preserves_bind (h.reach n) fun _ => ?_
    split
    · exact preserves_bind (preserves_map (hvalue _)) fun _ => preserves_pure _
    · exact preserves_bind (hvalue _) fun _ => preserves_pure _
  · rename_i params returns body hk
    have hbody := ih body (Nat.le_of_lt (Forest.index_lt_of_kind hk (by simp [Kind.children])))
    refine preserves_bind (h.reach n) fun _ => ?_
    exact preserves_bind (h.abstraction params (hbody _)) fun _ => preserves_pure _
  · refine preserves_bind (ih n (Nat.le_refl _) _) fun term => ?_
    split
    · exact preserves_pure _
    · exact preserves_bind h.synthetic fun _ => preserves_pure _

/-- Lowering an expression keeps a stable property. -/
theorem Stable.expression (h : Stable f I) (n : NodeId) (delayed : List NodeId) :
    Preserves I (expression f delayed n) := by
  induction hi : n.index using Nat.strongRecOn generalizing n delayed with
  | ind i ih =>
    subst hi
    have hbelow : ∀ {k : Kind}, f.kind? n = some k → ∀ c ∈ k.children, ∀ delayed,
        Preserves I (Lowering.expression f delayed c) := fun hk c hc delayed =>
      ih c.index (Forest.index_lt_of_kind hk hc) c delayed rfl
    cases form f n with
    | operands hk hops =>
      rw [expression_operands hk hops]
      exact preserves_map (preserves_mapM _ fun c hc =>
        hbelow hk c ((operands_perm hops).mem_iff.1 hc) delayed)
    | reference hk =>
      rw [expression_resolved hk, reference]
      refine preserves_bind (h.referral n _) fun _ => ?_
      split <;> exact preserves_pure _
    | @lambda params body hk =>
      rw [expression_lambda hk]
      exact h.abstraction params (hbelow hk body (by simp [Kind.children]) delayed)
    | block hk =>
      rw [expression_block hk]
      refine preserves_map (preserves_mapM _ fun p hp => h.item fun m hm delayed => ?_)
      have hlt := Forest.index_lt_of_kind hk (List.fst_mem_of_mem_zipIdx hp)
      exact ih m.index (Nat.lt_of_le_of_lt hm hlt) m delayed rfl
    | refused e hthrow =>
      rw [hthrow]
      exact preserves_throw e

theorem Stable.function (h : Stable f I) (n : NodeId) : Preserves I (function f n) := by
  unfold Lowering.function
  split
  · exact h.abstraction _ (h.expression _ [])
  · exact preserves_throw _

end Preservation

section Collection

variable {f : Forest} {S store : TypeStore} {st : Lowering} {d : NodeId} {σ : Scheme} {A : Ty}

/-- What the free variables of a scheme assumed for a node may belong to: a struct or a field. -/
def IsShared (f : Forest) (d : NodeId) : Prop :=
  isStruct f d = true ∨ (f.parent? d).any (isStruct f) = true

structure Collected (f : Forest) (S : TypeStore) (st : Lowering) : Prop where
  store : S.Extends st.store
  hygienic : st.assumptions.Hygienic st.store.supply.issued
  sealed : st.assumptions.Sealed .aggregates
  free : ∀ v, st.assumptions.Free v → S.Shares v ∨ S.supply.issued ≤ v.index
  bound : ∀ v, st.assumptions.Quantifies v → S.supply.issued ≤ v.index ∧ ¬ st.store.Shares v
  keys : ∀ x, st.assumptions.contains x = true →
    ∃ d, x = .decl d ∧ Declarations.isTopLevel f d = false
  shared : ∀ d, st.assumptions.bindsOpen (.decl d) = true → IsShared f d

theorem Collected.start (f : Forest) (S : TypeStore) : Collected f S (start S) := by
  have hnone : ∀ x σ, (Lowering.start S).assumptions.get? x = some σ → False := by
    intro x σ hσ
    cases hσ
  refine ⟨.refl S, ⟨fun x σ hσ => (hnone x σ hσ).elim, fun x σ hσ => (hnone x σ hσ).elim⟩,
    fun x σ hσ => (hnone x σ hσ).elim, ?_, ?_, (fun x hx => by cases hx), fun d hd => by cases hd⟩
  · rintro v ⟨x, σ, hσ, -⟩
    exact (hnone x σ hσ).elim
  · rintro v ⟨x, σ, hσ, -⟩
    exact (hnone x σ hσ).elim

theorem Collected.quantified_lt (h : Collected f S st) {v : TyVar}
    (hv : st.assumptions.Quantifies v) : v.index < st.store.supply.issued := by
  obtain ⟨x, σ, hσ, hv⟩ := hv
  exact h.hygienic.issued x σ hσ v (Or.inr hv)

/-- Work on the type store quantifies nothing and shares nothing that is quantified. -/
theorem Collected.read (h : Collected f S st) (hext : st.store.Extends store) :
    Collected f S { st with store } where
  store := h.store.trans hext
  hygienic := h.hygienic.mono hext.le
  sealed := h.sealed
  free := h.free
  bound v hv := by
    refine ⟨(h.bound v hv).1, fun hshared => ?_⟩
    rcases hext.shares v hshared with hold | ⟨hlow, -⟩
    · exact (h.bound v hv).2 hold
    · have hlt := h.quantified_lt hv
      omega
  keys := h.keys
  shared := h.shared

/-- A scheme may be assumed if its variables are issued, its free ones are shared or new and not
quantified, and its bound ones are new and neither shared nor free. -/
theorem Collected.assume (h : Collected f S st)
    (hkey : Declarations.isTopLevel f d = false) (hsealed : σ.body.Sealed .aggregates)
    (hissued : ∀ v, v ∈ σ.body.vars ∨ σ.bound.contains v = true →
      v.index < st.store.supply.issued)
    (hfree : ∀ v, σ.Free v → IsShared f d ∧ (S.Shares v ∨ S.supply.issued ≤ v.index) ∧
      ¬ st.assumptions.Quantifies v)
    (hbound : ∀ v, σ.bound.contains v = true → S.supply.issued ≤ v.index ∧ ¬ st.store.Shares v ∧
      ¬ st.assumptions.Free v) :
    Collected f S { st with assumptions := st.assumptions.insert (.decl d) σ } where
  store := h.store
  hygienic := by
    refine h.hygienic.insert (.decl d) hissued (fun v hv => (hbound v hv).2.2) ?_
    intro v hv y δ hy
    by_contra hquant
    exact (hfree v hv).2.2 ⟨y, δ, hy, by simpa using hquant⟩
  sealed := h.sealed.insert (.decl d) hsealed
  free v hv := (Context.free_insert hv).elim (fun hv => (hfree v hv).2.1) (h.free v)
  bound := by
    rintro v ⟨x, δ, hδ, hv⟩
    rcases OrderedMap.of_get?_insert hδ with ⟨-, rfl⟩ | hδ
    · exact ⟨(hbound v hv).1, (hbound v hv).2.1⟩
    · exact h.bound v ⟨x, δ, hδ, hv⟩
  keys x hx := by
    simp only [OrderedMap.contains_insert, Bool.or_eq_true, decide_eq_true_eq] at hx
    rcases hx with rfl | hx
    · exact ⟨d, rfl, hkey⟩
    · exact h.keys x hx
  shared e he := by
    obtain ⟨δ, v, hδ, hv⟩ := Context.bindsOpen_iff.1 he
    rcases OrderedMap.of_get?_insert hδ with ⟨heq, rfl⟩ | hδ
    · cases heq
      exact (hfree v hv).1
    · exact h.shared e (Context.bindsOpen_iff.2 ⟨δ, v, hδ, hv⟩)

theorem Collected.assume_ground (h : Collected f S st)
    (hkey : Declarations.isTopLevel f d = false) (hA : A.vars = []) :
    Collected f S { st with assumptions := st.assumptions.insert (.decl d) (Scheme.mono A) } := by
  have hvars : ∀ v, v ∉ A.vars := by simp [hA]
  refine h.assume hkey (Ty.sealed_of_ground hA) (fun v hv => ?_) (fun v hv => ?_) fun v hv => ?_
  · rcases hv with hv | hv
    · exact absurd hv (hvars v)
    · simp [Scheme.mono] at hv
  · exact absurd (Scheme.free_mono.1 hv) (hvars v)
  · simp [Scheme.mono] at hv

/-- A type that has just been read may be assumed for a struct or a field. -/
theorem Collected.assume_read (h : Collected f S st) (hS : S.Tidy)
    (hext : st.store.Extends store) (hA : st.store.Known store A)
    (hkey : Declarations.isTopLevel f d = false) (hshared : IsShared f d) :
    Collected f S { st with
      store, assumptions := st.assumptions.insert (.decl d) (Scheme.mono A) } := by
  have hread := h.read hext
  have htidy := hread.store.tidy hS
  refine hread.assume hkey hA.sealed (fun v hv => ?_) (fun v hv => ⟨hshared, ?_, ?_⟩)
    fun v hv => ?_
  · rcases hv with hv | hv
    · exact (hA.vars v hv).elim (htidy.issued v) fun hsince => hsince.2
    · simp [Scheme.mono] at hv
  · rcases hA.vars v (Scheme.free_mono.1 hv) with hv | hv
    · exact (hread.store.shares v hv).imp_right fun hsince => hsince.1
    · exact Or.inr (Nat.le_trans h.store.le hv.1)
  · intro hquant
    rcases hA.vars v (Scheme.free_mono.1 hv) with hv | hv
    · exact (hread.bound v hquant).2 hv
    · have hlt := h.quantified_lt hquant
      have hlow := hv.1
      omega
  · simp [Scheme.mono] at hv

/-- A type with variables of its own may be assumed with all of them quantified. -/
theorem Collected.assume_closed (h : Collected f S st) (hS : S.Tidy)
    (hext : st.store.Extends store) (hfields : store.fields = st.store.fields)
    (hA : st.store.Fresh store A) (hkey : Declarations.isTopLevel f d = false) :
    Collected f S { st with
      store, assumptions := st.assumptions.insert (.decl d) (Scheme.closed A) } := by
  have hread := h.read hext
  refine hread.assume hkey hA.sealed (fun v hv => ?_) (fun v hv => ?_) fun v hv => ⟨?_, ?_, ?_⟩
  · have hmem : v ∈ A.vars := hv.elim id Scheme.bound_closed.1
    exact (hA.vars v hmem).2
  · exact absurd hv (Scheme.not_free_closed A v)
  · exact Nat.le_trans h.store.le (hA.vars v (Scheme.bound_closed.1 hv)).1
  · rintro ⟨e, ts, hts, t, ht, hvt⟩
    have hlow := (hA.vars v (Scheme.bound_closed.1 hv)).1
    have hlt := (h.store.tidy hS).issued v ⟨e, ts, hfields ▸ hts, t, ht, hvt⟩
    omega
  · intro hfree
    have hlow := (hA.vars v (Scheme.bound_closed.1 hv)).1
    have hlt := h.hygienic.lt_of_free hfree
    omega

/-- Assuming a known type for a struct or a field keeps what is collected in order. -/
theorem preserves_assume_read (hS : S.Tidy) {x : TypeStore.Reading Ty}
    (hx : ∀ S : TypeStore, S.Tidy → Lands x S (fun t S' => S.Extends S' ∧ S.Known S' t)
      fun _ S' => S.Extends S')
    (hkey : Declarations.isTopLevel f d = false) (hshared : IsShared f d) :
    Preserves (Collected f S) (do
      let A ← reading x
      assume (.decl d) (Scheme.mono A)) := by
  intro st h
  rw [lands_bind, lands_reading]
  refine (hx st.store (h.store.tidy hS)).imp ?_ fun _ store hext => h.read hext
  rintro A store ⟨hext, hA⟩
  simp only [Lowering.assume, lands_modify]
  exact h.assume_read hS hext hA hkey hshared

/-- Assuming a scheme that closes over all its variables adds no free variable. -/
theorem preserves_assume_closed (hS : S.Tidy) {x : TypeStore.Reading Ty}
    (hx : TypeStore.Draws x TypeStore.Fresh) (hkey : Declarations.isTopLevel f d = false) :
    Preserves (Collected f S) (do
      let A ← reading x
      assume (.decl d) (Scheme.closed A)) := by
  intro st h
  rw [lands_bind, lands_reading]
  refine (hx st.store).imp ?_ fun _ store hend => h.read (.of_fields hend.1 hend.2)
  rintro A store ⟨hA, hle, hfields⟩
  simp only [Lowering.assume, lands_modify]
  exact h.assume_closed hS (.of_fields hle hfields) hfields hA hkey

/-- The type of a function that is declared without a body is read from its parts. -/
theorem preserves_assume_bodiless (hS : S.Tidy) (params : List NodeId) (returns : Option NodeId)
    (hkey : Declarations.isTopLevel f d = false) :
    Preserves (Collected f S) (do
      let A ← signatureOfParts f params (match returns with
        | some type => evaluate f type
        | none => return Ty.unit)
      assume (.decl d) (Scheme.closed A)) := by
  cases returns with
  | some type =>
    simp only [evaluate_eq, signatureOfParts_eq]
    have hdraws := TypeStore.evalOrFresh_draws f (some type)
    exact preserves_assume_closed hS (TypeStore.signature_draws f params hdraws) hkey
  | none =>
    have hdraws : TypeStore.Draws (pure Ty.unit) TypeStore.Fresh := fun S =>
      lands_pure.2 ⟨TypeStore.fresh_of_ground rfl, Nat.le_refl _, rfl⟩
    have heq := signatureOfParts_eq f params (pure Ty.unit)
    rw [reading_pure] at heq
    simp only [heq]
    exact preserves_assume_closed hS (TypeStore.signature_draws f params hdraws) hkey

/-- Whatever a reference assumes about what it refers to, what is collected stays in order. -/
theorem preserves_assumeReferral (hS : S.Tidy) (n d : NodeId) :
    Preserves (Collected f S) (assumeReferral f n d) := by
  have hassumed : ∀ v, Preserves (Collected f S) (isAssumed v) := fun v =>
    preserves_get_bind fun _ => preserves_pure _
  unfold assumeReferral
  split
  case h_1 | h_2 => exact preserves_get_bind fun _ => preserves_when fun _ => preserves_throw _
  case h_3 hk =>
    refine preserves_bind (hassumed _) fun isKnown => preserves_when fun htest => ?_
    refine preserves_assume_read hS (fun S hS => TypeStore.fieldOrFresh_lands hS d)
      (by simp [Declarations.isTopLevel, hk]) (Or.inr ?_)
    exact (Bool.and_eq_true_iff.1 htest).1
  case h_4 hk =>
    refine preserves_bind (hassumed _) fun isKnown => preserves_when fun _ => ?_
    exact preserves_assume_read hS (fun S hS => TypeStore.constructorType_lands hS d)
      (by simp [Declarations.isTopLevel, hk]) (Or.inl (by simp [isStruct, hk]))
  case h_5 hk =>
    have hkey : Declarations.isTopLevel f d = false := by simp [Declarations.isTopLevel, hk]
    split
    · exact preserves_pure _
    · rename_i owner _
      intro st h
      rw [lands_bind, lands_reading, lands_mk_pure]
      cases hA : declaredType f owner with
      | error e => exact h
      | ok A =>
        simp only [Lowering.assume, lands_modify]
        exact h.assume_ground hkey (vars_of_declaredType hA)
  case h_6 hk | h_7 hk =>
    refine preserves_bind (hassumed _) fun isKnown => preserves_when fun _ => ?_
    exact preserves_assume_bodiless hS _ _ (by simp [Declarations.isTopLevel, hk])
  case h_8 => exact preserves_throw _

theorem stable_collected (hS : S.Tidy) : Stable f (Collected f S) where
  referral := preserves_assumeReferral hS
  declared n k type hk hfn := by
    refine preserves_declared (fun st A hA h => h.assume_ground ?_ hA) type
    cases k <;> simp [Kind.isFunction] at hfn <;> simp [Declarations.isTopLevel, hk]
  silent st bound synthetics h :=
    ⟨h.store, h.hygienic, h.sealed, h.free, h.bound, h.keys, h.shared⟩

end Collection

end Lowering

namespace Declarations

open Lowering (Collected)

variable {f : Forest} {S : TypeStore} {st : Lowering}

/-- What a lowered function brings along: assumptions, and a signature with variables that occur
nowhere else. -/
structure Introduces (f : Forest) (S : TypeStore) (l : LoweredFunction) (st : Lowering) : Prop where
  collected : Collected f S st
  sealed : l.signature.Sealed .aggregates
  vars : ∀ v ∈ l.signature.vars, S.supply.issued ≤ v.index ∧ v.index < st.store.supply.issued ∧
    ¬ st.assumptions.Free v ∧ ¬ st.assumptions.Quantifies v ∧ ¬ st.store.Shares v

/-- A lowered signature has variables that nothing collected before mentions. -/
theorem signature_introduces (hS : S.Tidy) (n : NodeId) (term : Term) (span : Span)
    (h : Collected f S st) : Lands (Lowering.signature f n) st
      (fun signature st' => Introduces f S ⟨term, signature, span⟩ st')
      fun _ st' => Collected f S st' := by
  unfold Lowering.signature
  split
  · rename_i params returns body hk
    rw [Lowering.signatureOfParts_eq, Lowering.lands_reading]
    refine (TypeStore.signature_draws f params (TypeStore.evalOrFresh_draws f returns)
      st.store).imp ?_ fun _ store hend => h.read (.of_fields hend.1 hend.2)
    rintro A store ⟨hA, hle, hfields⟩
    refine ⟨h.read (.of_fields hle hfields), hA.sealed, fun v hv => ?_⟩
    obtain ⟨hlow, hhigh⟩ := hA.vars v hv
    refine ⟨Nat.le_trans h.store.le hlow, hhigh, fun hfree => ?_, fun hquant => ?_, ?_⟩
    · have hlt := h.hygienic.lt_of_free hfree
      omega
    · have hlt := h.quantified_lt hquant
      omega
    · rintro ⟨e, ts, hts, t, ht, hvt⟩
      have hlt := (h.store.tidy hS).issued v ⟨e, ts, hfields ▸ hts, t, ht, hvt⟩
      omega
  · exact lands_throw.2 h

/-- Lowering a function leaves what it has assumed, also if it fails. -/
theorem lowerFunction_introduces (hS : S.Tidy) (n : NodeId) :
    Lands (lowerFunction f n) (Lowering.start S) (fun l st => Introduces f S l st)
      fun _ st => Collected f S st := by
  simp only [lowerFunction, lands_bind, lands_pure]
  refine ((Lowering.stable_collected hS).function n _ (.start f S)).imp_ok fun term st h => ?_
  exact signature_introduces hS n term (f.span n) h

end Declarations

end SemanticAnalysis
