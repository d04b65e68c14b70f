import SemanticAnalysis.Proofs.SealedTypes
import SemanticAnalysis.Types.Unification

/-!
How unification runs. Two types meet in one of five ways, each with its own
next step, and functions and tuples are both solved as a list of pairs of parts.
An answer found with some fuel is found with any more, so it is the answer. The
substitution found touches only variables of the two types.
-/

namespace SemanticAnalysis

namespace Unification

open Ty

section Searching

variable {α β : Type}

theorem run_pure (a : α) : (pure a : Search α).run = some (.ok a) := rfl

theorem run_throw (e : UnifyError) : (throw e : Search α).run = some (.error e) := rfl

theorem run_bind_ok {x : Search α} {f : α → Search β} {b : β} :
    (x >>= f).run = some (.ok b) ↔
      ∃ a, x.run = some (.ok a) ∧ (f a).run = some (.ok b) := by
  rw [ExceptT.run_bind]
  cases x.run with
  | none => simp
  | some r => cases r <;> simp

def GoesOn (x y : Search α) : Prop := ∀ r, x.run = some r → y.run = some r

theorem GoesOn.refl (x : Search α) : GoesOn x x := fun _ h => h

theorem GoesOn.bind {x y : Search α} {f g : α → Search β} (hxy : GoesOn x y)
    (hfg : ∀ a, GoesOn (f a) (g a)) : GoesOn (x >>= f) (y >>= g) := by
  intro r hr
  rw [ExceptT.run_bind] at hr ⊢
  cases hx : x.run with
  | none => simp [hx] at hr
  | some e =>
    rw [hxy e hx]
    rw [hx] at hr
    cases e with
    | error e => exact hr
    | ok a => exact hfg a r hr

theorem solvePairs_goesOn {f g : Ty → Ty → Search Subst} (hfg : ∀ x y, GoesOn (f x y) (g x y))
    (found : Subst) (pairs : List (Ty × Ty)) :
    GoesOn (solvePairs f found pairs) (solvePairs g found pairs) := by
  induction pairs generalizing found with
  | nil => exact GoesOn.refl _
  | cons p rest ih => exact GoesOn.bind (hfg _ _) fun next => ih (next.compose found)

end Searching

section Meetings

inductive Parts : Ty → Ty → List (Ty × Ty) → Prop
  | fn (i o i' o' : Ty) : Parts (.fn i o) (.fn i' o') [(i, i'), (o, o')]
  | tuple {xs ys : List Ty} (h : xs.length = ys.length) :
      Parts (.tuple xs) (.tuple ys) (xs.zip ys)

def Clash (a b : Ty) : Prop :=
  (∀ v, a ≠ .var v) ∧ (∀ v, b ≠ .var v) ∧ ∀ pairs, ¬ Parts a b pairs

inductive Meeting : Ty → Ty → Prop
  | agree {a b : Ty} (h : Agrees a b) : Meeting a b
  | left {v : TyVar} {t : Ty} (h : ¬ Agrees (.var v) t) : Meeting (.var v) t
  | right {v : TyVar} {t : Ty} (h : ¬ Agrees t (.var v)) (ht : ∀ w, t ≠ .var w) :
      Meeting t (.var v)
  | parts {a b : Ty} {pairs : List (Ty × Ty)} (h : ¬ Agrees a b) (hp : Parts a b pairs) :
      Meeting a b
  | clash {a b : Ty} (h : ¬ Agrees a b) (hc : Clash a b) : Meeting a b

/-- Any two types meet in one of the ways. -/
theorem meeting (a b : Ty) : Meeting a b := by
  by_cases h : Agrees a b
  · exact .agree h
  · by_cases ha : ∃ v, a = .var v
    · obtain ⟨v, rfl⟩ := ha
      exact .left h
    · have ha' : ∀ v, a ≠ .var v := fun v hv => ha ⟨v, hv⟩
      by_cases hb : ∃ v, b = .var v
      · obtain ⟨v, rfl⟩ := hb
        exact .right h ha'
      · by_cases hp : ∃ pairs, Parts a b pairs
        · obtain ⟨pairs, hp⟩ := hp
          exact .parts h hp
        · exact .clash h ⟨ha', fun v hv => hb ⟨v, hv⟩, fun pairs hpairs => hp ⟨pairs, hpairs⟩⟩

variable {n : Nat} {a b : Ty}

attribute [local simp] unify

theorem unify_agree (h : Agrees a b) : unify (n + 1) a b = pure Subst.empty := by
  have hs : a.same b = true := h
  simp [hs]

theorem unify_left {v : TyVar} {t : Ty} (h : ¬ Agrees (.var v) t) :
    unify (n + 1) (.var v) t = bindVar v t := by
  have hs : (Ty.var v).same t = false := by simpa [Agrees] using h
  cases t <;> simp [hs]

theorem unify_right {v : TyVar} {t : Ty} (h : ¬ Agrees t (.var v)) (ht : ∀ w, t ≠ .var w) :
    unify (n + 1) t (.var v) = bindVar v t := by
  have hs : t.same (.var v) = false := by simpa [Agrees] using h
  cases t with
  | var w => exact absurd rfl (ht w)
  | _ => simp [hs]

theorem unify_parts {pairs : List (Ty × Ty)} (h : ¬ Agrees a b) (hp : Parts a b pairs) :
    unify (n + 1) a b = solvePairs (unify n) Subst.empty pairs := by
  have hs : a.same b = false := by simpa [Agrees] using h
  cases hp with
  | fn i o i' o' =>
    simp [hs, solvePairs, Subst.apply_empty, Subst.compose_empty]
  | tuple hlen => simp [hs, hlen]

theorem unify_clash (h : ¬ Agrees a b) (hc : Clash a b) :
    unify (n + 1) a b = throw (.cannotUnify a b) := by
  have hs : a.same b = false := by simpa [Agrees] using h
  obtain ⟨ha, hb, hp⟩ := hc
  unfold unify
  rw [hs]
  simp only [Bool.false_eq_true, if_false]
  split
  · exact absurd rfl (ha _)
  · exact absurd rfl (hb _)
  · exact absurd (Parts.fn ..) (hp _)
  · split
    · rename_i hlen
      exact absurd (Parts.tuple hlen) (hp _)
    · rfl
  · rfl

/-- Parts are parts, whatever is put in the place of variables. -/
theorem Parts.replace {pairs : List (Ty × Ty)} (hp : Parts a b pairs) (f : TyVar → Ty) :
    Parts (a.replace f) (b.replace f) (pairs.map (Prod.map (Ty.replace f) (Ty.replace f))) := by
  cases hp with
  | fn i o i' o' => simpa using Parts.fn ..
  | @tuple xs ys hlen =>
    have hlen' : (xs.map (Ty.replace f)).length = (ys.map (Ty.replace f)).length := by
      simpa using hlen
    simpa [List.zip_map] using Parts.tuple hlen'

/-- Types of one shape agree if their parts do. -/
theorem Parts.agrees_iff {pairs : List (Ty × Ty)} (hp : Parts a b pairs) :
    Agrees a b ↔ ∀ p ∈ pairs, Agrees p.1 p.2 := by
  cases hp with
  | fn i o i' o' => simp
  | @tuple xs ys hlen =>
    rw [agrees_tuple_iff, List.forall₂_iff_zip]
    constructor
    · intro h p hp
      exact h.2 hp
    · intro h
      exact ⟨hlen, fun hmem => h _ hmem⟩

/-- A substitution unifies two types of one shape when it unifies their parts. -/
theorem Parts.agrees_apply_iff {pairs : List (Ty × Ty)} (hp : Parts a b pairs) (s : Subst) :
    Agrees (s.apply a) (s.apply b) ↔ ∀ p ∈ pairs, Agrees (s.apply p.1) (s.apply p.2) := by
  simp only [Subst.apply_eq_replace, (hp.replace s.read).agrees_iff, List.forall_mem_map,
    Prod.map]

theorem Parts.mem_vars_left {pairs : List (Ty × Ty)} (hp : Parts a b pairs) {p : Ty × Ty}
    (hmem : p ∈ pairs) {v : TyVar} (hv : v ∈ p.1.vars) : v ∈ a.vars := by
  cases hp with
  | fn i o i' o' =>
    simp only [List.mem_cons, List.not_mem_nil, or_false] at hmem
    rcases hmem with rfl | rfl
    · exact mem_vars_fn.2 (Or.inl hv)
    · exact mem_vars_fn.2 (Or.inr hv)
  | tuple hlen => exact mem_vars_tuple.2 ⟨_, (List.of_mem_zip hmem).1, hv⟩

theorem Parts.mem_vars_right {pairs : List (Ty × Ty)} (hp : Parts a b pairs) {p : Ty × Ty}
    (hmem : p ∈ pairs) {v : TyVar} (hv : v ∈ p.2.vars) : v ∈ b.vars := by
  cases hp with
  | fn i o i' o' =>
    simp only [List.mem_cons, List.not_mem_nil, or_false] at hmem
    rcases hmem with rfl | rfl
    · exact mem_vars_fn.2 (Or.inl hv)
    · exact mem_vars_fn.2 (Or.inr hv)
  | tuple hlen => exact mem_vars_tuple.2 ⟨_, (List.of_mem_zip hmem).2, hv⟩

theorem Parts.mem_vars {pairs : List (Ty × Ty)} (hp : Parts a b pairs) {p : Ty × Ty}
    (hmem : p ∈ pairs) {v : TyVar} (hv : v ∈ p.1.vars ∨ v ∈ p.2.vars) :
    v ∈ a.vars ∨ v ∈ b.vars :=
  hv.imp (hp.mem_vars_left hmem) (hp.mem_vars_right hmem)

theorem Parts.sealed {k : Seal} {pairs : List (Ty × Ty)} (hp : Parts a b pairs)
    (ha : a.Sealed k) (hb : b.Sealed k) {p : Ty × Ty} (hmem : p ∈ pairs) :
    p.1.Sealed k ∧ p.2.Sealed k := by
  cases hp with
  | fn i o i' o' =>
    obtain ⟨hi, ho⟩ := sealed_fn_iff.1 ha
    obtain ⟨hi', ho'⟩ := sealed_fn_iff.1 hb
    simp only [List.mem_cons, List.not_mem_nil, or_false] at hmem
    rcases hmem with rfl | rfl
    · exact ⟨hi, hi'⟩
    · exact ⟨ho, ho'⟩
  | tuple hlen =>
    have hitem := List.of_mem_zip hmem
    exact ⟨(sealed_tuple_iff.1 ha).2 _ hitem.1, (sealed_tuple_iff.1 hb).2 _ hitem.2⟩

/-- Parts are lower than their types. -/
theorem Parts.height_lt {pairs : List (Ty × Ty)} (hp : Parts a b pairs) {p : Ty × Ty}
    (hmem : p ∈ pairs) : p.1.height < a.height := by
  cases hp with
  | fn i o i' o' =>
    have hp : p.1 = i ∨ p.1 = o := by
      simp only [List.mem_cons, List.not_mem_nil, or_false] at hmem
      exact hmem.imp (congrArg Prod.fst) (congrArg Prod.fst)
    simp only [height]
    rcases hp with hp | hp
    · rw [hp]
      omega
    · rw [hp]
      omega
  | tuple hlen =>
    have := height_le_heights (List.of_mem_zip hmem).1
    simp only [height]
    omega

end Meetings

section Answers

theorem unify_succ_goesOn {n m : Nat} (h : ∀ a b, GoesOn (unify n a b) (unify m a b)) (a b : Ty) :
    GoesOn (unify (n + 1) a b) (unify (m + 1) a b) := by
  cases meeting a b with
  | agree h => simpa only [unify_agree h] using GoesOn.refl _
  | left h => simpa only [unify_left h] using GoesOn.refl _
  | right h ht => simpa only [unify_right h ht] using GoesOn.refl _
  | parts hne hp =>
    simpa only [unify_parts hne hp] using solvePairs_goesOn h _ _
  | clash h hc => simpa only [unify_clash h hc] using GoesOn.refl _

/-- More fuel keeps an answer. -/
theorem unify_goesOn {n m : Nat} (h : n ≤ m) (a b : Ty) : GoesOn (unify n a b) (unify m a b) := by
  induction n generalizing m a b with
  | zero =>
    intro r hr
    exact absurd hr (by simp [unify, ExceptT.run, ExceptT.mk])
  | succ n ih =>
    obtain ⟨m, rfl⟩ : ∃ k, m = k + 1 := ⟨m - 1, by omega⟩
    exact unify_succ_goesOn (fun a b => ih (by omega) a b) a b

/-- Unification comes to an answer: with enough fuel it is found, whatever the fuel. -/
def Returns (a b : Ty) (r : Except UnifyError Subst) : Prop :=
  ∃ n, ∀ fuel, n ≤ fuel → (unify fuel a b).run = some r

theorem returns_iff {a b : Ty} {r : Except UnifyError Subst} :
    Returns a b r ↔ ∃ n, (unify n a b).run = some r := by
  constructor
  · intro h
    obtain ⟨n, hn⟩ := h
    exact ⟨n, hn n (Nat.le_refl n)⟩
  · intro h
    obtain ⟨n, hn⟩ := h
    exact ⟨n, fun fuel hfuel => unify_goesOn hfuel a b r hn⟩

theorem Returns.unique {a b : Ty} {r r' : Except UnifyError Subst} (h : Returns a b r)
    (h' : Returns a b r') : r = r' := by
  obtain ⟨n, hn⟩ := h
  obtain ⟨n', hn'⟩ := h'
  have hr := hn (max n n') (by omega)
  have hr' := hn' (max n n') (by omega)
  exact Option.some.inj (hr.symm.trans hr')

theorem bindVar_run_ok {v : TyVar} {t : Ty} {s : Subst} :
    (bindVar v t).run = some (.ok s) ↔ t.occurs v = false ∧ s = Subst.single v t := by
  unfold bindVar
  by_cases h : t.occurs v
  · simp [h]
  · simp [h, eq_comm]

/-- How a substitution can be found. -/
theorem unify_ok_cases {n : Nat} {a b : Ty} {s : Subst}
    (h : (unify (n + 1) a b).run = some (.ok s)) :
    (Agrees a b ∧ s = Subst.empty) ∨
    (∃ v, a = .var v ∧ ¬ Agrees a b ∧ b.occurs v = false ∧ s = Subst.single v b) ∨
    (∃ v, b = .var v ∧ ¬ Agrees a b ∧ a.occurs v = false ∧ s = Subst.single v a) ∨
    (∃ pairs, Parts a b pairs ∧ ¬ Agrees a b ∧
      (solvePairs (unify n) Subst.empty pairs).run = some (.ok s)) := by
  cases meeting a b with
  | agree hag =>
    rw [unify_agree hag, run_pure] at h
    simp only [Option.some.injEq, Except.ok.injEq] at h
    exact Or.inl ⟨hag, h.symm⟩
  | @left v t hag =>
    rw [unify_left hag, bindVar_run_ok] at h
    exact Or.inr (Or.inl ⟨v, rfl, hag, h⟩)
  | @right v t hag ht =>
    rw [unify_right hag ht, bindVar_run_ok] at h
    exact Or.inr (Or.inr (Or.inl ⟨v, rfl, hag, h⟩))
  | @parts a b pairs hag hp =>
    rw [unify_parts hag hp] at h
    exact Or.inr (Or.inr (Or.inr ⟨pairs, hp, hag, h⟩))
  | clash hag hc =>
    rw [unify_clash hag hc, run_throw] at h
    simp at h

/-- What each solved pair keeps holds once all pairs are solved. -/
theorem solvePairs_induct_from {f : Ty → Ty → Search Subst} {I : List (Ty × Ty) → Subst → Prop}
    {pairs : List (Ty × Ty)} {found s : Subst} (solved : List (Ty × Ty))
    (step : ∀ solved x y found next, (x, y) ∈ pairs → I solved found →
      (f (found.apply x) (found.apply y)).run = some (.ok next) →
      I (solved ++ [(x, y)]) (next.compose found))
    (start : I solved found) (h : (solvePairs f found pairs).run = some (.ok s)) :
    I (solved ++ pairs) s := by
  induction pairs generalizing solved found with
  | nil =>
    rw [solvePairs, run_pure] at h
    simp only [Option.some.injEq, Except.ok.injEq] at h
    simpa [← h] using start
  | cons p rest ih =>
    obtain ⟨x, y⟩ := p
    rw [solvePairs, run_bind_ok] at h
    obtain ⟨next, hnext, hrest⟩ := h
    have hstep := step solved x y found next (List.mem_cons_self ..) start hnext
    have hall := ih (solved ++ [(x, y)]) (fun solved x y found next hmem =>
      step solved x y found next (List.mem_cons_of_mem _ hmem)) hstep hrest
    simpa using hall

/-- What every solved pair keeps of the pairs solved before it, the whole list keeps. -/
theorem solvePairs_induct {f : Ty → Ty → Search Subst} {I : List (Ty × Ty) → Subst → Prop}
    {pairs : List (Ty × Ty)} {s : Subst}
    (step : ∀ solved x y found next, (x, y) ∈ pairs → I solved found →
      (f (found.apply x) (found.apply y)).run = some (.ok next) →
      I (solved ++ [(x, y)]) (next.compose found))
    (start : I [] Subst.empty) (h : (solvePairs f Subst.empty pairs).run = some (.ok s)) :
    I pairs s := by
  simpa using solvePairs_induct_from [] step start h

/-- Solving pairs touches only variables of the pairs, if solving one pair does. -/
theorem touches_of_solvePairs {f : Ty → Ty → Search Subst} {P : TyVar → Prop}
    (hf : ∀ {a b s}, (f a b).run = some (.ok s) → ∀ {v}, s.Touches v → v ∈ a.vars ∨ v ∈ b.vars)
    {pairs : List (Ty × Ty)} (hpairs : ∀ p ∈ pairs, ∀ v, v ∈ p.1.vars ∨ v ∈ p.2.vars → P v)
    {s : Subst} (h : (solvePairs f Subst.empty pairs).run = some (.ok s)) {v : TyVar}
    (hv : s.Touches v) : P v := by
  refine solvePairs_induct (I := fun _ found => ∀ v, found.Touches v → P v) ?_
    (fun v hv => absurd hv (Subst.not_touches_empty v)) h v hv
  intro _ x y found next hmem hfound hnext v hv
  rcases Subst.touches_compose hv with hv | hv
  · rcases hf hnext hv with hx | hy
    · rcases Subst.mem_or_touches_of_mem_apply hx with hx | ht
      · exact hpairs _ hmem v (Or.inl hx)
      · exact hfound v ht
    · rcases Subst.mem_or_touches_of_mem_apply hy with hy | ht
      · exact hpairs _ hmem v (Or.inr hy)
      · exact hfound v ht
  · exact hfound v hv

/-- The substitution found touches only variables of the two types. -/
theorem touches_of_unify {n : Nat} {a b : Ty} {s : Subst}
    (h : (unify n a b).run = some (.ok s)) {v : TyVar} (hv : s.Touches v) :
    v ∈ a.vars ∨ v ∈ b.vars := by
  induction n generalizing a b s v with
  | zero => exact absurd h (by simp [unify, ExceptT.run, ExceptT.mk])
  | succ n ih =>
    rcases unify_ok_cases h with ⟨-, rfl⟩ | ⟨w, rfl, -, -, rfl⟩ | ⟨w, rfl, -, -, rfl⟩ |
      ⟨pairs, hp, -, hrun⟩
    · exact absurd hv (Subst.not_touches_empty v)
    · exact (Subst.touches_single hv).imp_left mem_vars_var.2
    · exact (Subst.touches_single hv).symm.imp_right mem_vars_var.2
    · exact touches_of_solvePairs (fun h _ hv => ih h hv)
        (fun p hmem v hv => hp.mem_vars hmem hv) hrun hv

/-- Types of a sealed class are solved within the class. -/
theorem sealed_of_unify {k : Seal} {n : Nat} {a b : Ty} {s : Subst}
    (ha : a.Sealed k) (hb : b.Sealed k) (h : (unify n a b).run = some (.ok s)) :
    s.Sealed k := by
  induction n generalizing a b s with
  | zero => exact absurd h (by simp [unify, ExceptT.run, ExceptT.mk])
  | succ n ih =>
    rcases unify_ok_cases h with ⟨-, rfl⟩ | ⟨w, rfl, -, -, rfl⟩ | ⟨w, rfl, -, -, rfl⟩ |
      ⟨pairs, hp, -, hrun⟩
    · exact Subst.sealed_empty
    · exact Subst.sealed_single hb
    · exact Subst.sealed_single ha
    · refine solvePairs_induct (I := fun _ found => found.Sealed k) ?_
        Subst.sealed_empty hrun
      intro _ x y found next hmem hfound hnext
      obtain ⟨hx, hy⟩ := hp.sealed ha hb hmem
      exact (ih (hfound.apply hx) (hfound.apply hy) hnext).compose hfound

end Answers

end Unification

end SemanticAnalysis
