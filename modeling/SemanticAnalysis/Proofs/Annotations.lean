import SemanticAnalysis.Proofs.ArrowTypes
import SemanticAnalysis.Proofs.FailureIsolation
import SemanticAnalysis.Proofs.LoweredOrigins
import SemanticAnalysis.Proofs.RecordedTypes

/-!
Declared types of functions. A function that is typed takes the declared types of
its parameters, wherever it stands, and a top-level function gives its declared
type. The declared type of what a local function gives is not looked at.
-/

namespace SemanticAnalysis.Declarations

open Lowering (AbstractsAt Declares Known Careful Gives BindersOf AbstractionRendered)
open Term (Part Shape)
open Ty (Agrees)

variable {t : Tree} {f : Forest} {n m : NodeId} {params : List NodeId} {Γ : Context} {T : Ty}

section Types

/-- The number of inputs of a function: one for each parameter, and one if there are none. -/
def arity (params : List NodeId) : Nat := max 1 params.length

theorem length_of_bindersOf {binds : List CoreVar} (h : BindersOf params binds) :
    binds.length = arity params := by
  rcases h with ⟨rfl, number, rfl⟩ | ⟨hne, rfl⟩
  · rfl
  · have hpos := List.length_pos_iff.2 hne
    rw [List.length_map, arity]
    omega

/-- Inputs in the places of parameters are the declared types of the parameters. -/
def Fits (f : Forest) (params : List NodeId) (inputs : List Ty) : Prop :=
  ∀ (i : Nat) p name e, params[i]? = some p → f.kind? p = some (.parameter name (some e)) →
    ∃ A, evalType f e = .ok A ∧ inputs[i]? = some A

theorem Fits.apply {inputs : List Ty} (h : Fits f params inputs) (s : Subst) :
    Fits f params (inputs.map s.apply) := by
  intro i p name e hp hk
  obtain ⟨A, hA, hi⟩ := h i p name e hp hk
  exact ⟨A, hA, by simp [hi, Subst.apply_of_closed (vars_of_evalType hA)]⟩

/-- A type of a node that is as declared: a function or a lambda takes the declared types of its
parameters, and a top-level function gives its declared type. -/
structure Meets (t : Tree) (n : NodeId) (T : Ty) : Prop where
  takes : ∀ params, AbstractsAt t.toForest n params → ∃ inputs output,
    T.peel (arity params) = some (inputs, output) ∧ Fits t.toForest params inputs
  gives : ∀ name params e body, isTopLevel t.toForest n = true →
    t.kind? n = some (.function name params (some e) body) → ∃ inputs output A,
      T.peel (arity params) = some (inputs, output) ∧ evalType t.toForest e = .ok A ∧
      Agrees output A

theorem Meets.apply (h : Meets t n T) (s : Subst) : Meets t n (s.apply T) where
  takes params habs := by
    obtain ⟨inputs, output, hpeel, hfits⟩ := h.takes params habs
    exact ⟨_, _, Ty.peel_apply hpeel s, hfits.apply s⟩
  gives name params e body htop hk := by
    obtain ⟨inputs, output, A, hpeel, hA, hag⟩ := h.gives name params e body htop hk
    refine ⟨_, _, A, Ty.peel_apply hpeel s, hA, ?_⟩
    simpa [Subst.apply_of_closed (vars_of_evalType hA)] using Subst.agrees_apply s hag

def Assumed (f : Forest) (Γ : Context) (p : NodeId) (A : Ty) : Prop :=
  Declares f p A ∧ Γ.contains (.decl p) = true

theorem Assumed.vars {p : NodeId} {A : Ty} (h : Assumed f Γ p A) : A.vars = [] := h.1.vars

/-- The type of an abstraction over parameters takes their declared types. -/
theorem takes_of_shape {binds : List CoreVar} {b : Term} (hbinds : BindersOf params binds)
    (habs : AbstractsAt f n params) (hknown : ∀ p ∈ params, Known f Γ p)
    (h : Shape (Assumed f Γ) ((Term.abstract binds b).withOrigin n) T) :
    ∃ inputs output, T.peel (arity params) = some (inputs, output) ∧ Fits f params inputs := by
  rw [Term.shape_withOrigin] at h
  obtain ⟨inputs, output, rfl, hlen, hinputs⟩ := Term.shape_abstract h
  refine ⟨inputs, output, length_of_bindersOf hbinds ▸ hlen ▸ Ty.peel_foldr inputs output, ?_⟩
  intro i p name e hp hk
  have hmem := List.mem_of_getElem? hp
  obtain ⟨⟨A, hA⟩, hcontains⟩ := hknown p hmem name e hk
  refine ⟨A, hA, hinputs i p A ?_ ⟨⟨n, params, name, e, habs, hmem, hk, hA⟩, hcontains⟩⟩
  rcases hbinds with ⟨rfl, -⟩ | ⟨-, rfl⟩
  · simp at hp
  · simp [hp]

end Types

section Lowering

open Lowering (signature signatureOfParts function_gives steady_reading lands_reading)

def Promised (f : Forest) (params : List NodeId) (returns : Option NodeId) (T : Ty) : Prop :=
  ∃ inputs output, T.peel (arity params) = some (inputs, output) ∧
    ∀ e, returns = some e → evalType f e = .ok output

/-- The inputs of a curried type can be peeled off, one for unit if there are none. -/
theorem peel_curried {inputs : List Ty} (h : inputs.length = params.length) (output : Ty) :
    ∃ ins, (Ty.curried inputs output).peel (arity params) = some (ins, output) := by
  cases inputs with
  | nil =>
    obtain rfl := List.eq_nil_of_length_eq_zero h.symm
    exact ⟨[Ty.unit], rfl⟩
  | cons i rest =>
    refine ⟨i :: rest, ?_⟩
    have harity : arity params = (i :: rest).length := by
      rw [arity, h]
      have hpos : 0 < params.length := by simp [← h]
      omega
    rw [harity]
    exact Ty.peel_foldr (i :: rest) output

/-- The signature of a function gives the type that it declares. -/
theorem signature_gives {name : Symbol} {returns : Option NodeId} {body : NodeId}
    (hk : f.kind? n = some (.function name params returns body)) :
    Gives f (fun T _ => Promised f params returns T) (signature f n) := by
  intro st
  simp only [signature, hk, signatureOfParts, lands_bind, lands_pure]
  refine Lands.imp_ok (lands_mapM (fun done inputs st' =>
    inputs.length = done.length ∧ Careful f st st') ⟨rfl, Careful.of_eq rfl⟩ ?_) ?_
  · rintro done p rest - inputs st₁ ⟨hlen, h₁⟩
    refine (steady_reading _ st₁).imp ?_ fun _ _ h₂ => h₁.trans h₂
    exact fun A st₂ h₂ => ⟨by simp [hlen], h₁.trans h₂⟩
  · rintro inputs st₁ ⟨hlen, h₁⟩
    rw [lands_reading]
    cases returns with
    | none =>
      simp only [TypeStore.evalOrFresh, TypeStore.freshVar, lands_bind, lands_get, lands_set,
        lands_pure]
      obtain ⟨ins, hpeel⟩ := peel_curried hlen (.var (st₁.store.supply.fresh).1)
      exact ⟨⟨ins, _, hpeel, nofun⟩, h₁.trans (Careful.of_eq rfl)⟩
    | some e =>
      simp only [TypeStore.evalOrFresh, TypeStore.evalOrFresh.liftExcept, lands_mk_pure]
      cases hA : evalType f e with
      | error err => exact h₁.trans (Careful.of_eq rfl)
      | ok A =>
        obtain ⟨ins, hpeel⟩ := peel_curried hlen A
        refine ⟨⟨ins, A, hpeel, ?_⟩, h₁.trans (Careful.of_eq rfl)⟩
        rintro _ ⟨⟩
        exact hA

structure FunctionRendered (t : Tree) (n : NodeId) (l : LoweredFunction) (Γ : Context) : Prop where
  top : isTopLevel t.toForest n = true
  term : AbstractionRendered t.toForest n l.term Γ
  promised : ∀ name params returns body, t.kind? n = some (.function name params returns body) →
    Promised t.toForest params returns l.signature

theorem FunctionRendered.mono {l : LoweredFunction} {Δ : Context} (h : FunctionRendered t n l Γ)
    (hΓ : ∀ v, Γ.contains v = true → Δ.contains v = true) : FunctionRendered t n l Δ :=
  ⟨h.top, ⟨h.term.toRendered.mono hΓ, h.term.root, h.term.own⟩, h.promised⟩

/-- A top-level function lowers to a faithful term and to what its declaration promises. -/
theorem lowerFunction_gives (ht : t.WellFormed) (hn : isTopLevel t.toForest n = true) :
    Gives t.toForest (FunctionRendered t n) (lowerFunction t.toForest n) := by
  intro st
  obtain ⟨name, params, returns, body, -, -, hk, -⟩ := isTopLevel_cases hn
  simp only [lowerFunction, lands_bind, lands_pure]
  refine (function_gives ht hk st).imp_ok ?_
  rintro e st₁ ⟨he, h₁⟩
  refine (signature_gives hk st₁).imp ?_ fun _ _ h₂ => h₁.trans h₂
  rintro T st₂ ⟨hT, h₂⟩
  refine ⟨⟨hn, ⟨he.toRendered.mono h₂.kept, he.root, he.own⟩, ?_⟩, h₁.trans h₂⟩
  intro name' params' returns' body' hk'
  rw [hk] at hk'
  cases hk'
  exact hT

end Lowering

section Groups

open Inference (Respects LetsClear infer_records yields_solve shape_apply mem_noted)

/-- A type gives what another one without variables promises, after the same number of inputs. -/
def Keeps (k : Nat) (signature T : Ty) : Prop :=
  ∃ inputs output, T.peel k = some (inputs, output) ∧
    ∀ ins R, signature.peel k = some (ins, R) → R.vars = [] → Agrees R output

theorem Keeps.apply {k : Nat} {signature : Ty} (h : Keeps k signature T) (s : Subst) :
    Keeps k signature (s.apply T) := by
  obtain ⟨inputs, output, hpeel, hkeeps⟩ := h
  refine ⟨_, _, Ty.peel_apply hpeel s, fun ins R hsig hR => ?_⟩
  simpa [Subst.apply_of_closed hR] using Subst.agrees_apply s (hkeeps ins R hsig hR)

def AbstractsOver (k : Nat) (e : Term) : Prop :=
  ∃ binds b n, binds.length = k ∧ e = (Term.abstract binds b).withOrigin n

variable {fuel : Nat} {D : NodeId → Ty → Prop} {done : List LoweredFunction} {solution : Subst}
  {judgements : List Judgement}

theorem AbstractsOver.peel {k : Nat} {e : Term} (he : AbstractsOver k e) (h : Shape D e T) :
    ∃ inputs output, T.peel k = some (inputs, output) := by
  obtain ⟨binds, b, n, rfl, rfl⟩ := he
  rw [Term.shape_withOrigin] at h
  obtain ⟨inputs, output, rfl, hlen, -⟩ := Term.shape_abstract h
  exact ⟨inputs, output, hlen ▸ Ty.peel_foldr inputs output⟩

/-- What has been recorded for the members of a group: each part that stems from a node, and the
types of the members themselves keep what their declarations promise. -/
structure Traced (D : NodeId → Ty → Prop) (done : List LoweredFunction) (solution : Subst)
    (judgements : List Judgement) : Prop where
  sound : ∀ m T, (m, T) ∈ judgements → ∃ l ∈ done,
    (l.term.origin? = some m ∧ Shape D l.term T ∧
      ∀ k, AbstractsOver k l.term → Keeps k l.signature (solution.apply T)) ∨
    ∃ c ∈ l.term.subterms, ∃ e, Part e c ∧ e.origin? = some m ∧ Shape D e T
  complete : ∀ l ∈ done, ∀ e m, Part e l.term → e.origin? = some m → ∃ T, (m, T) ∈ judgements

theorem keeps_of_unify {k : Nat} {e : Term} {signature : Ty} {s₃ : Subst} (he : AbstractsOver k e)
    (hT : Shape D e T)
    (h : (unify fuel (solution.apply signature) (solution.apply T)).run = some (.ok s₃)) :
    Keeps k signature (s₃.apply (solution.apply T)) := by
  obtain ⟨inputs, output, hpeel⟩ := he.peel hT
  have hsolved := Ty.peel_apply hpeel solution
  refine ⟨_, _, Ty.peel_apply hsolved s₃, fun ins R hsig hR => ?_⟩
  have hsig' := Ty.peel_apply hsig solution
  rw [Subst.apply_of_closed hR] at hsig'
  exact Unification.agrees_of_unify_peel hsig' hsolved hR h

/-- A further solution changes nothing about what has been recorded. -/
theorem Traced.apply (h : Traced D done solution judgements) (s : Subst) :
    Traced D done (s.compose solution) judgements where
  sound m T hT := by
    obtain ⟨l, hl, ⟨horigin, hshape, hkeeps⟩ | hpart⟩ := h.sound m T hT
    · refine ⟨l, hl, Or.inl ⟨horigin, hshape, fun k hk => ?_⟩⟩
      rw [Subst.apply_compose]
      exact (hkeeps k hk).apply s
    · exact ⟨l, hl, Or.inr hpart⟩
  complete := h.complete

/-- What has been recorded stays traced when one more member has been inferred. -/
theorem Traced.next {member : LoweredFunction} {st st' : Inference.State}
    (h : Traced D done solution st.judgements) (hrec : Inference.Recorded D member.term st T st')
    (hkeeps : ∀ k, AbstractsOver k member.term → Keeps k member.signature (solution.apply T)) :
    Traced D (done ++ [member]) solution st'.judgements where
  sound m T' hT' := by
    obtain ⟨hshape, st₁, hrecords, rfl⟩ := hrec
    rcases mem_noted.1 hT' with hT' | ⟨horigin, rfl⟩
    · rcases hrecords.sound m T' hT' with hT' | hpart
      · obtain ⟨l, hl, hcases⟩ := h.sound m T' hT'
        exact ⟨l, List.mem_append_left _ hl, hcases⟩
      · exact ⟨member, by simp, Or.inr hpart⟩
    · exact ⟨member, by simp, Or.inl ⟨horigin, hshape, hkeeps⟩⟩
  complete l hl e m hpart horigin := by
    rcases List.mem_append.1 hl with hl | hl
    · obtain ⟨T', hT'⟩ := h.complete l hl e m hpart horigin
      exact ⟨T', hrec.records.kept hT'⟩
    · rw [List.mem_singleton.1 hl] at hpart
      exact hrec.records.complete _ (List.mem_singleton_self _) e m hpart horigin

/-- Inferring a member records types for its parts that are as declared. -/
theorem inferMember_traces (hD : ∀ p A, D p A → A.vars = []) {assumed : Context}
    (hΓ : Respects D assumed) {member : LoweredFunction} (hlets : LetsClear D member.term)
    (own : Ty) {st : Inference.State} (h : Traced D done solution st.judgements) :
    Lands (inferMember fuel assumed solution member own) st
      (fun solution st' => Traced D (done ++ [member]) solution st'.judgements)
      fun _ _ => True := by
  simp only [inferMember, lands_bind, lands_pure]
  refine (lands_run _ st).imp ?_ fun _ _ _ => trivial
  rintro ⟨s₁, T⟩ st₁ hinfer
  refine (lands_run _ st₁).imp ?_ fun _ _ _ => trivial
  intro s₂ st₂ hsolve₂
  refine (lands_run _ st₂).imp ?_ fun _ _ _ => trivial
  intro s₃ st₃ hsolve₃
  obtain ⟨-, rfl⟩ := yields_solve.1 hsolve₂
  obtain ⟨hunify, rfl⟩ := yields_solve.1 hsolve₃
  have hrec := infer_records hD (hΓ.substitute hD solution) hlets hinfer
  refine (((h.apply s₁).apply s₂).apply s₃).next hrec fun k hk => ?_
  rw [Subst.apply_compose]
  exact keeps_of_unify hk hrec.shape hunify

/-- By induction over the members, all that is recorded for a group is traced to its members. -/
theorem inferMembers_traces (hD : ∀ p A, D p A → A.vars = []) {assumed : Context}
    (hΓ : Respects D assumed) {pairs : List (LoweredFunction × Ty)}
    (hlets : ∀ p ∈ pairs, LetsClear D p.1.term) {st : Inference.State}
    (h : Traced D done solution st.judgements) :
    Lands (inferMembers fuel assumed solution pairs) st
      (fun solution st' => Traced D (done ++ pairs.map (·.1)) solution st'.judgements)
      fun _ _ => True := by
  induction pairs generalizing done solution st with
  | nil => simpa [inferMembers] using h
  | cons p rest ih =>
    obtain ⟨member, own⟩ := p
    simp only [inferMembers, lands_bind, lands_adapt]
    refine (inferMember_traces hD hΓ (hlets _ (List.mem_cons_self ..)) own h).imp_ok ?_
    intro solution' st₁ h₁
    simpa using ih (fun p hp => hlets p (List.mem_cons_of_mem _ hp)) h₁

variable {base : Context} {members : List (NodeId × LoweredFunction)} {l : LoweredFunction}

def Consistent (f : Forest) (Γ : Context) : Prop :=
  ∀ p A σ, Declares f p A → Γ.get? (.decl p) = some σ → σ = Scheme.mono A

theorem Consistent.respects (h : Consistent f Γ) : Respects (Assumed f Γ) Γ := by
  rintro p A ⟨hA, hp⟩
  obtain ⟨σ, hσ⟩ := OrderedMap.contains_iff.1 hp
  rw [hσ, h p A σ hA hσ]

/-- Assuming types for variables that are no parameters does not matter. -/
theorem Consistent.respects_combine (h : Consistent f Γ) {own : List (NodeId × Ty)}
    (hown : ∀ p ∈ own, ∀ A, ¬ Declares f p.1 A) : Respects (Assumed f Γ) (Γ.combine
      (OrderedMap.ofList (own.map fun p => (CoreVar.decl p.1, Scheme.mono p.2)))) := by
  intro p A hA
  rw [Context.combine, OrderedMap.get?_insertAll_of_not_mem, h.respects p A hA]
  rintro ⟨v, σ⟩ hmem rfl
  have hkey := OrderedMap.contains_ofList.1 (OrderedMap.mem_keys_iff.1 (List.mem_map_of_mem hmem))
  rw [List.map_map, List.mem_map] at hkey
  obtain ⟨q, hq, hqp⟩ := hkey
  obtain rfl : q.1 = p := CoreVar.decl.inj hqp
  exact hown q hq A hA.1

theorem FunctionRendered.not_declares (h : FunctionRendered t n l Γ) (A : Ty) :
    ¬ Declares t.toForest n A := by
  rintro ⟨_, _, _, _, _, _, hp, _⟩
  obtain ⟨_, _, _, _, _, _, hk, -⟩ := isTopLevel_cases h.top
  rw [hp] at hk
  cases hk

theorem FunctionRendered.letsClear (h : FunctionRendered t n l Γ) :
    LetsClear (Assumed t.toForest Γ) l.term := by
  rintro binder _ usage hpart p A rfl ⟨⟨_, _, _, _, _, _, hp, _⟩, -⟩
  have hlocal := (h.term.parts _ hpart).lets binder p usage rfl
  simp [Forest.isLocalBinding, hp] at hlocal

/-- A type that is recorded for a part of a function takes what the part abstracts over. -/
theorem FunctionRendered.takes (h : FunctionRendered t n l Γ) {e : Term} (hpart : Part e l.term)
    (horigin : e.origin? = some m) (hT : Shape (Assumed t.toForest Γ) e T)
    (habs : AbstractsAt t.toForest m params) : ∃ inputs output,
      T.peel (arity params) = some (inputs, output) ∧ Fits t.toForest params inputs := by
  have hfaithful := h.term.parts e hpart
  obtain ⟨binds, b, hbinds, rfl⟩ := hfaithful.abstracts m params horigin habs
  exact takes_of_shape hbinds habs (h.term.known m (hfaithful.below m horigin) params habs) hT

/-- The type of a function that keeps what its declaration promises gives the declared type. -/
theorem FunctionRendered.gives (h : FunctionRendered t n l Γ)
    (hkeeps : ∀ k, AbstractsOver k l.term → Keeps k l.signature T) {name : Symbol} {e body : NodeId}
    (hk : t.kind? n = some (.function name params (some e) body)) : ∃ inputs output A,
      T.peel (arity params) = some (inputs, output) ∧ evalType t.toForest e = .ok A ∧
      Agrees output A := by
  have habs : AbstractsAt t.toForest n params := ⟨_, body, hk, Or.inl ⟨name, some e, rfl⟩⟩
  obtain ⟨binds, b, hbinds, hterm⟩ := (h.term.parts _ (.self _)).abstracts n params h.term.root habs
  obtain ⟨inputs, output, hpeel, hagrees⟩ :=
    hkeeps (arity params) ⟨binds, b, n, length_of_bindersOf hbinds, hterm⟩
  obtain ⟨ins, A, hsig, hA⟩ := h.promised name params (some e) body hk
  have heval := hA e rfl
  exact ⟨inputs, output, A, hpeel, heval, (hagrees ins A hsig (vars_of_evalType heval)).symm⟩

/-- What is recorded for a group is as declared once the solution of the group has been put in. -/
theorem Traced.meets (ht : t.WellFormed)
    (h : Traced (Assumed t.toForest base) (members.map (·.2)) solution judgements)
    (hmembers : ∀ p ∈ members, FunctionRendered t p.1 p.2 base) (hT : (m, T) ∈ judgements) :
    Meets t m (solution.apply T) := by
  obtain ⟨l, hl, hcases⟩ := h.sound m T hT
  obtain ⟨⟨n, l⟩, hmem, rfl⟩ := List.mem_map.1 hl
  have hr := hmembers _ hmem
  rcases hcases with ⟨horigin, hshape, hkeeps⟩ | ⟨c, hc, e, hpart, horigin, hshape⟩
  · have hsolved := shape_apply (fun _ _ => Assumed.vars) hshape solution
    obtain rfl : n = m := Option.some.inj (hr.term.root.symm.trans horigin)
    exact ⟨fun params habs => hr.takes (.self _) horigin hsolved habs,
      fun name params e body _ hk => hr.gives hkeeps hk⟩
  · -- a part inside a function is no top-level function
    have hsolved := shape_apply (fun _ _ => Assumed.vars) hshape solution
    have hinside : Part e l.term := .inside hc hpart
    refine ⟨fun params habs => hr.takes hinside horigin hsolved habs, ?_⟩
    intro name params e' body htop
    obtain rfl := ht.eq_of_topLevel htop hr.top ((hr.term.parts e hinside).below m horigin)
    exact absurd horigin (hr.term.own c hc e hpart)

/-- What is recorded for a group are the calls, functions and lambdas in its members. -/
theorem Traced.covers (h : Traced D (members.map (·.2)) solution judgements)
    (hmembers : ∀ p ∈ members, FunctionRendered t p.1 p.2 base) : m ∈ judgements.map (·.1) ↔
      ∃ p ∈ members, m ∈ t.walkFrom p.1 ∧ t.isJudged m = true := by
  constructor
  · intro hm
    obtain ⟨⟨m, T⟩, hT, rfl⟩ := List.mem_map.1 hm
    obtain ⟨l, hl, hcases⟩ := h.sound m T hT
    obtain ⟨p, hp, rfl⟩ := List.mem_map.1 hl
    have hpart : ∃ e, Part e p.2.term ∧ e.origin? = some m := by
      rcases hcases with ⟨horigin, -⟩ | ⟨c, hc, e, hpart, horigin, -⟩
      · exact ⟨_, .self _, horigin⟩
      · exact ⟨e, .inside hc hpart, horigin⟩
    obtain ⟨e, hpart, horigin⟩ := hpart
    have hfaithful := (hmembers p hp).term.parts e hpart
    exact ⟨p, hp, hfaithful.below m horigin, hfaithful.judged m horigin⟩
  · intro hm
    obtain ⟨p, hp, hm, hjudged⟩ := hm
    obtain ⟨e, hpart, horigin⟩ := (hmembers p hp).term.covers m hm hjudged
    obtain ⟨T, hT⟩ := h.complete p.2 (List.mem_map_of_mem hp) e m hpart horigin
    exact List.mem_map_of_mem hT

/-- What typing a group records: types that are as declared, for the calls, functions and lambdas
in the members and for nothing else. -/
theorem inferGroup_meets (ht : t.WellFormed) (hbase : Consistent t.toForest base)
    (hmembers : ∀ p ∈ members, FunctionRendered t p.1 p.2 base) (st : Inference.State) :
    Lands (inferGroup fuel base members) st
      (fun types _ => (∀ m T, (m, T) ∈ types.judgements → Meets t m T) ∧
        ∀ m, m ∈ types.judgements.map (·.1) ↔
          ∃ p ∈ members, m ∈ t.walkFrom p.1 ∧ t.isJudged m = true)
      fun _ _ => True := by
  have hstart : Traced (Assumed t.toForest base) [] Subst.empty
      (Inference.State.start (st.supply.freshList members.length).2).judgements := ⟨nofun, nofun⟩
  simp only [inferGroup, lands_bind, lands_get, lands_set, lands_pure]
  refine (inferMembers_traces (fun _ _ => Assumed.vars) ?_ ?_ hstart).imp_ok ?_
  · refine hbase.respects_combine fun p hp => ?_
    obtain ⟨q, hq, hqp⟩ := List.mem_map.1 (List.of_mem_zip hp).1
    exact hqp ▸ (hmembers q hq).not_declares
  · intro p hp
    obtain ⟨q, hq, hqp⟩ := List.mem_map.1 (List.of_mem_zip hp).1
    exact hqp ▸ (hmembers q hq).letsClear
  · intro solution st' htraced
    rw [List.nil_append, List.map_fst_zip (by simp [freshList_eq])] at htraced
    constructor
    · intro m T hT
      obtain ⟨⟨m', T'⟩, hT', heq⟩ := List.mem_map.1 hT
      cases heq
      exact htraced.meets ht hmembers hT'
    · intro m
      rw [List.map_map]
      exact htraced.covers hmembers

end Groups

section Progress

variable {st st' : Progress} {group functions : List NodeId}

structure Enforced (t : Tree) (st : Progress) : Prop where
  consistent : Consistent t.toForest st.base
  lowered : ∀ n l, st.lowered.get? n = some l → FunctionRendered t n l st.base
  recorded : ∀ m T, st.found.expressions.get? m = some T → Meets t m T
  declared : ∀ n, st.found.declarations.contains n = true → isTopLevel t.toForest n = true
  covered : ∀ m, st.found.expressions.contains m = true ↔
    ∃ n, st.found.declarations.contains n = true ∧ m ∈ t.walkFrom n ∧ t.isJudged m = true

theorem Enforced.typed (h : Enforced t st) (n : NodeId)
    (hn : st.found.declarations.contains n = true) (m : NodeId) (hm : m ∈ t.walkFrom n)
    (params : List NodeId) (habs : AbstractsAt t.toForest m params) :
    st.found.expressions.contains m = true :=
  (h.covered m).2 ⟨n, hn, hm, habs.isJudged⟩

theorem Enforced.start (t : Tree) (supply : Supply) : Enforced t (Progress.start supply) where
  consistent p A σ hA hσ := by
    have hkey := OrderedMap.contains_ofList.1 (OrderedMap.contains_iff.2 ⟨σ, hσ⟩)
    simp at hkey
  lowered n l h := by simp [Progress.start] at h
  recorded m T h := nomatch (h : none = some T)
  declared n h := (Bool.false_ne_true h).elim
  covered m := ⟨fun h => (Bool.false_ne_true h).elim, fun ⟨_, h, _⟩ => (Bool.false_ne_true h).elim⟩

/-- Lowering a function keeps the declared types enforced. -/
theorem Enforced.prepare (ht : t.WellFormed) (hn : isTopLevel t.toForest n = true)
    (h : Enforced t st) (hstep : Prepared t n st st') : Enforced t st' := by
  have hlands := lowerFunction_gives ht hn (Lowering.start st.store)
  rw [lands_iff_run] at hlands
  have hconsistent : ∀ {lowering : Lowering},
      Careful t.toForest (Lowering.start st.store) lowering →
      Consistent t.toForest (OrderedMap.insertAll st.base lowering.assumptions.entries) := by
    intro lowering hcareful p A σ hA hσ
    rcases OrderedMap.of_get?_insertAll hσ with hσ | hσ
    · exact (hcareful.declared p A σ hA (OrderedMap.mem_entries_iff.1 hσ)).resolve_left nofun
    · exact h.consistent p A σ hA hσ
  have hkept : ∀ {lowering : Lowering} v, st.base.contains v = true →
      (OrderedMap.insertAll st.base lowering.assumptions.entries).contains v = true :=
    fun v hv => OrderedMap.contains_insertAll_entries.2 (Or.inr hv)
  cases hstep with
  | lowered l lowering hrun =>
    simp only [hrun] at hlands
    refine ⟨hconsistent hlands.2, fun m l' hl => ?_, h.recorded, h.declared, h.covered⟩
    rcases OrderedMap.of_get?_insert hl with ⟨rfl, rfl⟩ | hl
    · exact hlands.1.mono fun v hv => OrderedMap.contains_insertAll_entries.2 (Or.inl hv)
    · exact (h.lowered m l' hl).mono hkept
  | failed e lowering r hrun hreport =>
    simp only [hrun] at hlands
    exact ⟨hconsistent hlands, fun m l' hl => (h.lowered m l' hl).mono hkept, h.recorded,
      h.declared, h.covered⟩

/-- Checking a group keeps the declared types enforced, however it ends. -/
theorem Enforced.check (ht : t.WellFormed) (h : Enforced t st)
    (hstep : Checked fuel t functions group st st') : Enforced t st' := by
  cases hstep with
  | skipped d hdep => exact ⟨h.consistent, h.lowered, h.recorded, h.declared, h.covered⟩
  | spoiled hdep hany => exact ⟨h.consistent, h.lowered, h.recorded, h.declared, h.covered⟩
  | failed hdep hsound e after r hrun hreport =>
    exact ⟨h.consistent, h.lowered, h.recorded, h.declared, h.covered⟩
  | typed hdep hsound types after hrun =>
    have hmembers : ∀ p ∈ st.members group, FunctionRendered t p.1 p.2 st.base := fun p hp =>
      h.lowered p.1 p.2 (mem_members.1 hp).2
    have hschemes : ∀ n, n ∈ types.schemes.map (·.1) ↔ ∃ l, (n, l) ∈ st.members group := by
      intro n
      rw [map_fst_schemes hrun]
      simp
    have hdeclared : ∀ n, ((st.afterTyping after).adopted types).found.declarations.contains n =
        true ↔ (∃ l, (n, l) ∈ st.members group) ∨ st.found.declarations.contains n = true :=
      fun n => OrderedMap.contains_insertAll.trans (or_congr_left (hschemes n))
    obtain ⟨hmeets, hcovers⟩ := (inferGroup_meets ht h.consistent hmembers _).of_ok hrun
    refine ⟨fun p A σ hA hσ => ?_, fun n l hl => ?_, fun m T hT => ?_, fun n hn => ?_, fun m => ?_⟩
    · rcases OrderedMap.of_get?_insertAll hσ with hσ | hσ
      · obtain ⟨q, hq, heq⟩ := List.mem_map.1 hσ
        cases heq
        obtain ⟨l, hl⟩ := (hschemes q.1).1 (List.mem_map_of_mem hq)
        exact absurd hA ((hmembers _ hl).not_declares A)
      · obtain ⟨δ, hδ, rfl⟩ := Context.get?_substitute_eq_some.1 hσ
        rw [h.consistent p A δ hA hδ, Scheme.substitute_mono, Subst.apply_of_closed hA.vars]
    · refine (h.lowered n l hl).mono fun v hv => OrderedMap.contains_insertAll.2 (Or.inr ?_)
      rw [Context.contains_substitute]
      exact hv
    · exact (OrderedMap.of_get?_insertAll hT).elim (hmeets m T) (h.recorded m T)
    · rcases (hdeclared n).1 hn with ⟨l, hl⟩ | hn
      · exact (hmembers _ hl).top
      · exact h.declared n hn
    · have hexpressions := or_congr (hcovers m) (h.covered m)
      refine (OrderedMap.contains_insertAll.trans hexpressions).trans ⟨fun hm => ?_, fun hm => ?_⟩
      · rcases hm with ⟨p, hp, hm⟩ | ⟨n, hn, hm⟩
        · exact ⟨p.1, (hdeclared _).2 (Or.inl ⟨p.2, hp⟩), hm⟩
        · exact ⟨n, (hdeclared n).2 (Or.inr hn), hm⟩
      · obtain ⟨n, hn, hm⟩ := hm
        rcases (hdeclared n).1 hn with ⟨l, hl⟩ | hn
        · exact Or.inl ⟨_, hl, hm⟩
        · exact Or.inr ⟨n, hn, hm⟩

/-- The declared types are enforced at the end, along any listing of groups. -/
theorem checkListed_enforced (ht : t.WellFormed) (fuel : Nat) (listing : List (List NodeId))
    (supply : Supply) : Lands (checkListed fuel t listing) (Progress.start supply)
      (fun _ st => Enforced t st) fun _ _ => True := by
  refine checkListed_lands (fun _ st => Enforced t st) (fun _ st => Enforced t st)
    (Enforced.start t supply) ?_ (fun _ h => h) ?_
  · intro done n rest hn st _ h
    have hmem : n ∈ topLevelFunctions t := by simp [hn]
    exact (prepare_lands t n st).imp
      (fun _ _ hstep => h.prepare ht (mem_topLevelFunctions.1 hmem).2 hstep) fun _ _ _ => trivial
  · intro done g rest _ st _ h
    exact (checkGroup_lands fuel t _ g st).imp (fun _ _ hstep => h.check ht hstep)
      fun _ _ _ => trivial

end Progress

/-- A function that is typed, and every function in it, is recorded with a type that takes the
declared types of its parameters. The type of the function itself, which is top-level, also gives
its declared type. -/
theorem annotations_enforced (ht : t.WellFormed) {fuel : Nat} {supply : Supply}
    {outcome : DeclarationOutcome} (h : inferDeclarations fuel t supply = some outcome)
    {types : DeclarationTypes} (hok : outcome.result = .ok types)
    (hn : types.declarations.contains n = true) (hm : m ∈ t.walkFrom n) {name : Symbol}
    {returns : Option NodeId} {body : NodeId}
    (hk : t.kind? m = some (.function name params returns body)) :
    ∃ T inputs output, types.expressions.get? m = some T ∧
      T.peel (arity params) = some (inputs, output) ∧ Fits t.toForest params inputs ∧
      (isTopLevel t.toForest m = true → ∀ e, returns = some e →
        ∃ A, evalType t.toForest e = .ok A ∧ Agrees output A) := by
  obtain ⟨⟨result, st⟩, hrun, hout⟩ := Option.bind_eq_some_iff.1 h
  obtain rfl : _ = outcome := Option.some.inj hout
  cases result with
  | error crash => cases hok
  | ok u =>
    cases hok
    have hst := (checkListed_enforced ht fuel _ supply).of_ok hrun
    have habs : AbstractsAt t.toForest m params := ⟨_, body, hk, Or.inl ⟨name, returns, rfl⟩⟩
    have hfound : st.found.declarations.contains n = true := by simpa [settle] using hn
    obtain ⟨T, hT⟩ := OrderedMap.contains_iff.1 (hst.typed n hfound m hm params habs)
    have hmeets := (hst.recorded m T hT).apply st.solved
    obtain ⟨inputs, output, hpeel, hfits⟩ := hmeets.takes params habs
    refine ⟨_, inputs, output, by simp [settle, hT], hpeel, hfits, ?_⟩
    rintro htop e rfl
    obtain ⟨_, _, A, hpeel', hA, hag⟩ := hmeets.gives name params e body htop hk
    rw [hpeel] at hpeel'
    cases hpeel'
    exact ⟨A, hA, hag⟩

/-- A function with a declared parameter and a declared result, which passes its argument on to a
local function with a declared parameter. -/
def declaredUnit : Tree := Tree.ofKinds [
  .structDecl ⟨1⟩ [] [],
  .resolvedType ⟨⟨1⟩, none⟩ ⟨0⟩, .parameter ⟨2⟩ (some ⟨1⟩), .resolved ⟨⟨2⟩, none⟩ ⟨2⟩,
  .function ⟨3⟩ [⟨2⟩] none ⟨3⟩,
  .resolvedType ⟨⟨1⟩, none⟩ ⟨0⟩, .parameter ⟨4⟩ (some ⟨5⟩),
  .resolved ⟨⟨3⟩, none⟩ ⟨4⟩, .resolved ⟨⟨4⟩, none⟩ ⟨6⟩, .call ⟨7⟩ [⟨8⟩], .block [⟨4⟩, ⟨9⟩],
  .resolvedType ⟨⟨1⟩, none⟩ ⟨0⟩, .function ⟨5⟩ [⟨6⟩] (some ⟨11⟩) ⟨10⟩,
  .moduleDecl ⟨6⟩ false [⟨0⟩, ⟨12⟩], .file [⟨13⟩]]

theorem annotations_enforced_nested : declaredUnit.WellFormed ∧ ∃ outcome types,
    inferDeclarations 9 declaredUnit Supply.empty = some outcome ∧ outcome.result = .ok types ∧
      types.declarations.contains ⟨12⟩ = true ∧ ⟨4⟩ ∈ declaredUnit.walkFrom ⟨12⟩ ∧
      (∃ T inputs output, types.expressions.get? ⟨4⟩ = some T ∧
        T.peel (arity [⟨2⟩]) = some (inputs, output) ∧
        Fits declaredUnit.toForest [⟨2⟩] inputs) ∧
      ∃ T inputs output, types.expressions.get? ⟨12⟩ = some T ∧
        T.peel (arity [⟨6⟩]) = some (inputs, output) ∧
        Fits declaredUnit.toForest [⟨6⟩] inputs ∧
        ∃ A, evalType declaredUnit.toForest ⟨11⟩ = .ok A ∧ Agrees output A := by
  have ht : declaredUnit.WellFormed := by decide +kernel
  have hrun : ((inferDeclarations 9 declaredUnit Supply.empty).any fun outcome =>
      outcome.result.toOption.any fun types => types.declarations.contains ⟨12⟩) = true := by
    decide +kernel
  have hlocal : (⟨4⟩ : NodeId) ∈ declaredUnit.walkFrom ⟨12⟩ := by decide +kernel
  obtain ⟨outcome, h, hresult⟩ := (Option.any_eq_true _ _).1 hrun
  obtain ⟨types, htypes, hn⟩ := (Option.any_eq_true _ _).1 hresult
  have hok : outcome.result = .ok types := by
    cases hr : outcome.result <;> simp_all [Except.toOption]
  obtain ⟨T, inputs, output, hT, hpeel, hfits, -⟩ := annotations_enforced ht h hok hn hlocal rfl
  obtain ⟨T', inputs', output', hT', hpeel', hfits', hgives⟩ :=
    annotations_enforced ht h hok hn (Forest.self_mem_walkFrom _ _) rfl
  exact ⟨ht, outcome, types, h, hok, hn, hlocal, ⟨T, inputs, output, hT, hpeel, hfits⟩,
    T', inputs', output', hT', hpeel', hfits', hgives (by decide) ⟨11⟩ rfl⟩

/-- A local function that is declared to give a struct and gives its argument, whatever it is. -/
def looseUnit : Tree := Tree.ofKinds [
  .structDecl ⟨1⟩ [] [],
  .parameter ⟨2⟩ none, .resolvedType ⟨⟨1⟩, none⟩ ⟨0⟩, .resolved ⟨⟨2⟩, none⟩ ⟨1⟩,
  .function ⟨3⟩ [⟨1⟩] (some ⟨2⟩) ⟨3⟩, .resolved ⟨⟨3⟩, none⟩ ⟨4⟩, .block [⟨4⟩, ⟨5⟩],
  .function ⟨4⟩ [] none ⟨6⟩, .moduleDecl ⟨5⟩ false [⟨0⟩, ⟨7⟩], .file [⟨8⟩]]

/-- A local function may be typed with another output than the declared one. -/
theorem local_return_unenforced : looseUnit.WellFormed ∧ looseUnit.FullyResolved ∧
    ∃ outcome types T inputs output A,
      inferDeclarations 9 looseUnit Supply.empty = some outcome ∧ outcome.result = .ok types ∧
      types.declarations.contains ⟨7⟩ = true ∧ ⟨4⟩ ∈ looseUnit.walkFrom ⟨7⟩ ∧
      looseUnit.kind? ⟨4⟩ = some (.function ⟨3⟩ [⟨1⟩] (some ⟨2⟩) ⟨3⟩) ∧
      types.expressions.get? ⟨4⟩ = some T ∧ T.peel (arity [⟨1⟩]) = some (inputs, output) ∧
      evalType looseUnit.toForest ⟨2⟩ = .ok A ∧ ¬ Agrees output A := by
  have hrun : ((inferDeclarations 9 looseUnit Supply.empty).any fun outcome =>
      outcome.result.toOption.any fun types => types.declarations.contains ⟨7⟩ &&
        (types.expressions.get? ⟨4⟩).any fun T => (T.peel (arity [⟨1⟩])).any fun r =>
          (evalType looseUnit.toForest ⟨2⟩).toOption.any fun A => !r.2.same A) = true := by
    decide +kernel
  obtain ⟨outcome, h, hresult⟩ := (Option.any_eq_true _ _).1 hrun
  obtain ⟨types, htypes, hfound⟩ := (Option.any_eq_true _ _).1 hresult
  obtain ⟨hn, hexpr⟩ := Bool.and_eq_true_iff.1 hfound
  obtain ⟨T, hT, hpeels⟩ := (Option.any_eq_true _ _).1 hexpr
  obtain ⟨⟨inputs, output⟩, hpeel, heval⟩ := (Option.any_eq_true _ _).1 hpeels
  obtain ⟨A, hA, hne⟩ := (Option.any_eq_true _ _).1 heval
  have hok : outcome.result = .ok types := by
    cases hr : outcome.result <;> simp_all [Except.toOption]
  have hdeclared : evalType looseUnit.toForest ⟨2⟩ = .ok A := by
    cases hr : evalType looseUnit.toForest ⟨2⟩ <;> simp_all [Except.toOption]
  exact ⟨by decide +kernel, by decide +kernel, outcome, types, T, inputs, output, A, h, hok, hn,
    by decide +kernel, rfl, hT, hpeel, hdeclared, by simpa [Agrees] using hne⟩

end SemanticAnalysis.Declarations
