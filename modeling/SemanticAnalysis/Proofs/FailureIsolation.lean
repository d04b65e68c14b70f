import SemanticAnalysis.Proofs.DeclarationRuns
import SemanticAnalysis.Proofs.FunctionGroups

/-!
Failures of single functions when a unit is typed. A function that has a scheme
uses only functions that have one. One that has none was reported about: some
function of its strongly connected component does not lower when its turn comes,
the component has no type in the context that the groups before it left, or there
is a note that names the function and where something it needs stands. Whenever one
has none, an error was reported. The components may be listed in any order that
puts dependencies first.
-/

namespace SemanticAnalysis.Declarations

open Relation

variable {fuel : Nat} {t : Tree} {supply : Supply} {n m d : NodeId} {g : List NodeId}
  {listing done : List (List NodeId)} {st st' : Progress} {reports reports' : List Report}
  {lost lost' : NodeId → Prop}

section Reasons

def LoweredTo (t : Tree) (n : NodeId) (l : LoweredFunction) : Prop :=
  ∃ store lowering, (lowerFunction t.toForest n).run.run (Lowering.start store) = (.ok l, lowering)

/-- A lowered function knows where it stands. -/
theorem LoweredTo.span_eq {l : LoweredFunction} (h : LoweredTo t n l) : l.span = t.span n := by
  obtain ⟨store, lowering, hrun⟩ := h
  have hlands : Lands (lowerFunction t.toForest n) (Lowering.start store)
      (fun l _ => l.span = t.span n) fun _ _ => True := by
    simp only [lowerFunction, lands_bind, lands_pure]
    rw [lands_iff_run]
    split
    · rw [lands_iff_run]
      split <;> trivial
    · trivial
  rw [lands_iff_run, hrun] at hlands
  exact hlands

/-- A function does not lower after those before it have been prepared, and the error of that is
among the reports, at the reference in question and at what it refers to. -/
def LoweringReported (t : Tree) (supply : Supply) (reports : List Report) (n : NodeId) : Prop :=
  ∃ before after st e lowering points message, topLevelFunctions t = before ++ n :: after ∧
    PreparesTo t supply before st ∧
    (lowerFunction t.toForest n).run.run (Lowering.start st.store) = (.error e, lowering) ∧
    LoweringMessage t e points message ∧ ⟨t.file, points, .error, message⟩ ∈ reports

/-- The functions of a group have all been lowered and have no type together in the context that
the groups before it left, and the error of that is among the reports, at one of them. -/
def InferenceReported (fuel : Nat) (t : Tree) (supply : Supply) (listing : List (List NodeId))
    (reports : List Report) (g : List NodeId) : Prop :=
  ∃ before after st e last m message, listing = before ++ g :: after ∧
    ChecksTo fuel t supply before st ∧ (st.members g).map (·.1) = g ∧
    (inferGroup fuel st.base (st.members g)).run (Inference.State.start st.store.supply) =
      some (.error e, last) ∧
    m ∈ g ∧ InferenceMessage t e.item message ∧ ⟨t.file, [t.span m], .error, message⟩ ∈ reports

/-- A note names a function that was passed over, at the function and at a lost one outside its
group that the group uses. -/
def SkipReported (t : Tree) (lost : NodeId → Prop) (reports : List Report) (g : List NodeId)
    (n : NodeId) : Prop :=
  ∃ d name, d ∉ g ∧ (∃ m ∈ g, Uses t.toForest (topLevelFunctions t) m d) ∧ lost d ∧
    t.nameOf n = some name ∧
    ⟨t.file, [t.span n, t.span d], .note, .dependencyFailed name⟩ ∈ reports

def Excused (fuel : Nat) (t : Tree) (supply : Supply) (listing : List (List NodeId))
    (lost : NodeId → Prop) (reports : List Report) (g : List NodeId) (n : NodeId) : Prop :=
  (∃ m ∈ g, LoweringReported t supply reports m) ∨
    InferenceReported fuel t supply listing reports g ∨ SkipReported t lost reports g n

theorem LoweringReported.mono (h : LoweringReported t supply reports n) (hr : reports ⊆ reports') :
    LoweringReported t supply reports' n := by
  obtain ⟨before, after, st, e, lowering, points, message, hsplit, hst, hrun, hsaid, hmem⟩ := h
  exact ⟨before, after, st, e, lowering, points, message, hsplit, hst, hrun, hsaid, hr hmem⟩

theorem LoweringReported.error (h : LoweringReported t supply reports n) :
    ∃ r ∈ reports, r.severity = .error := by
  obtain ⟨_, _, _, _, _, _, _, -, -, -, -, hmem⟩ := h
  exact ⟨_, hmem, rfl⟩

theorem Excused.mono (h : Excused fuel t supply listing lost reports g n) (hr : reports ⊆ reports')
    (hlost : ∀ d, lost d → lost' d) : Excused fuel t supply listing lost' reports' g n := by
  rcases h with hlowering | hinference | hskip
  · obtain ⟨m, hm, hreported⟩ := hlowering
    exact Or.inl ⟨m, hm, hreported.mono hr⟩
  · obtain ⟨before, after, st, e, last, m, message, hsplit, hst, hall, hrun, hm, hsaid, hmem⟩ :=
      hinference
    exact Or.inr (Or.inl ⟨before, after, st, e, last, m, message, hsplit, hst, hall, hrun, hm,
      hsaid, hr hmem⟩)
  · obtain ⟨d, name, hout, huses, hd, hname, hmem⟩ := hskip
    exact Or.inr (Or.inr ⟨d, name, hout, huses, hlost d hd, hname, hr hmem⟩)

theorem exists_nameOf (hn : n ∈ topLevelFunctions t) : ∃ name, t.nameOf n = some name := by
  obtain ⟨name, _, _, _, _, _, hk, -⟩ := isTopLevel_cases (mem_topLevelFunctions.1 hn).2
  exact ⟨t.symbols.display name, by simp [Tree.nameOf, Forest.name?, hk, Kind.name?]⟩

end Reasons

structure Preparing (t : Tree) (supply : Supply) (done : List NodeId) (st : Progress) : Prop where
  prepared : ∀ n ∈ done, st.lowered.contains n = true ∨ st.failed.contains n = true
  genuine : ∀ n l, st.lowered.get? n = some l → LoweredTo t n l
  reasons : ∀ n, st.failed.contains n = true → LoweringReported t supply st.reports n
  untyped : ∀ n, st.found.declarations.contains n = false

theorem Preparing.start (t : Tree) (supply : Supply) :
    Preparing t supply [] (Progress.start supply) where
  prepared := by simp
  genuine n l h := by simp [Progress.start] at h
  reasons n h := by simp [Progress.start] at h
  untyped n := rfl

/-- Preparing a function lowers it or has a report about it. -/
theorem Preparing.step {done rest : List NodeId} (hsplit : topLevelFunctions t = done ++ n :: rest)
    (hreached : PreparesTo t supply done st) (h : Preparing t supply done st)
    (hstep : Prepared t n st st') : Preparing t supply (done ++ [n]) st' := by
  cases hstep with
  | lowered l lowering hrun =>
    refine ⟨fun m hm => ?_, fun m l' hl => ?_, h.reasons, h.untyped⟩
    · rcases List.mem_append.1 hm with hm | hm
      · exact (h.prepared m hm).imp_left fun hc => by simp [hc]
      · simp [List.mem_singleton.1 hm]
    · rcases OrderedMap.of_get?_insert hl with ⟨rfl, rfl⟩ | hl
      · exact ⟨_, _, hrun⟩
      · exact h.genuine m l' hl
  | failed e lowering r hrun hreport =>
    refine ⟨fun m hm => ?_, h.genuine, fun m hm => ?_, h.untyped⟩
    · rw [OrderedSet.contains_addAll]
      rcases List.mem_append.1 hm with hm | hm
      · exact (h.prepared m hm).imp_right Or.inr
      · exact Or.inr (Or.inl hm)
    · rw [OrderedSet.contains_addAll] at hm
      rcases hm with hm | hm
      · rw [List.mem_singleton.1 hm]
        obtain ⟨points, message, hsaid, rfl⟩ := of_loweringReport hreport
        exact ⟨done, rest, st, e, lowering, points, message, hsplit, hreached, hrun, hsaid,
          by simp⟩
      · exact (h.reasons m hm).mono (by simp)

structure Isolated (fuel : Nat) (t : Tree) (supply : Supply) (listing done : List (List NodeId))
    (st : Progress) : Prop where
  prepared : ∀ n ∈ topLevelFunctions t, st.lowered.contains n = true ∨ st.failed.contains n = true
  genuine : ∀ n l, st.lowered.get? n = some l → LoweredTo t n l
  settled : ∀ g ∈ done, ∀ n ∈ g,
    st.found.declarations.contains n = true ∨ st.failed.contains n = true
  placed : ∀ n, st.found.declarations.contains n = true → ∃ g ∈ done, n ∈ g
  apart : ∀ n, st.failed.contains n = true → st.found.declarations.contains n = false
  closed : ∀ n d, st.found.declarations.contains n = true →
    Uses t.toForest (topLevelFunctions t) n d → st.found.declarations.contains d = true
  reasons : ∀ n, st.failed.contains n = true → LoweringReported t supply st.reports n ∨
    ∃ g ∈ done, n ∈ g ∧
      Excused fuel t supply listing (st.failed.contains · = true) st.reports g n
  erred : ∀ n, st.failed.contains n = true → ∃ r ∈ st.reports, r.severity = .error

theorem Preparing.isolated (h : Preparing t supply (topLevelFunctions t) st) :
    Isolated fuel t supply listing [] st where
  prepared := h.prepared
  genuine := h.genuine
  settled := by simp
  placed n hn := by simp [h.untyped] at hn
  apart n _ := h.untyped n
  closed n d hn := by simp [h.untyped] at hn
  reasons n hn := Or.inl (h.reasons n hn)
  erred n hn := (h.reasons n hn).error

section Dependencies

variable {f : Forest} {functions : List NodeId} {failed : OrderedSet NodeId}

theorem not_failed_of_failedDependency (h : failedDependency f functions g failed = none)
    (hn : n ∈ g) (hd : Uses f functions n d) (hg : d ∉ g) : failed.contains d = false := by
  have hused : d ∈ g.flatMap fun n => OrderedSet.toList (usesOf f functions n) :=
    List.mem_flatMap.2 ⟨n, hn, OrderedSet.mem_toList_iff.2 (contains_usesOf.2 hd)⟩
  simpa [hg] using List.find?_eq_none.1 h d hused

theorem of_failedDependency (h : failedDependency f functions g failed = some d) :
    d ∉ g ∧ failed.contains d = true ∧ ∃ m ∈ g, Uses f functions m d := by
  have hd := List.find?_some h
  simp only [Bool.and_eq_true, Bool.not_eq_true', List.contains_eq_mem, decide_eq_false_iff_not]
    at hd
  obtain ⟨m, hm, hused⟩ := List.mem_flatMap.1 (List.mem_of_find?_eq_some h)
  exact ⟨hd.1, hd.2, m, hm, contains_usesOf.1 (OrderedSet.mem_toList_iff.1 hused)⟩

end Dependencies

section Steps

/-- A group fails with a reason for each of its functions. -/
theorem Isolated.refuse (h : Isolated fuel t supply listing done st)
    (hwaiting : ∀ n ∈ g, ∀ g' ∈ done, n ∉ g') (hlowered : st'.lowered = st.lowered)
    (hfound : st'.found = st.found) (hfailed : st'.failed = OrderedSet.addAll st.failed g)
    (hreports : st.reports ⊆ st'.reports)
    (hreason : ∀ n ∈ g,
      Excused fuel t supply listing (st.failed.contains · = true) st'.reports g n)
    (herror : ∃ r ∈ st'.reports, r.severity = .error) :
    Isolated fuel t supply listing (done ++ [g]) st' := by
  have hmore : ∀ d, st.failed.contains d = true → st'.failed.contains d = true := by
    intro d hd
    rw [hfailed, OrderedSet.contains_addAll]
    exact Or.inr hd
  refine ⟨fun n hn => ?_, hlowered ▸ h.genuine, fun g' hg' n hn => ?_, fun n hn => ?_,
    fun n hn => ?_, hfound ▸ h.closed, fun n hn => ?_, fun _ _ => herror⟩
  · rw [hlowered]
    exact (h.prepared n hn).imp_right (hmore n)
  · rw [hfound]
    rcases List.mem_append.1 hg' with hg' | hg'
    · exact (h.settled g' hg' n hn).imp_right (hmore n)
    · rw [List.mem_singleton.1 hg'] at hn
      rw [hfailed, OrderedSet.contains_addAll]
      exact Or.inr (Or.inl hn)
  · obtain ⟨g', hg', hn'⟩ := h.placed n (hfound ▸ hn)
    exact ⟨g', List.mem_append_left _ hg', hn'⟩
  · rw [hfailed, OrderedSet.contains_addAll] at hn
    rw [hfound]
    rcases hn with hn | hn
    · -- what has a scheme is in a group that was checked before
      by_contra htyped
      obtain ⟨g', hg', hn'⟩ := h.placed n (by simpa using htyped)
      exact hwaiting n hn g' hg' hn'
    · exact h.apart n hn
  · rw [hfailed, OrderedSet.contains_addAll] at hn
    rcases hn with hn | hn
    · exact Or.inr ⟨g, by simp, hn, (hreason n hn).mono (fun _ hr => hr) hmore⟩
    · refine (h.reasons n hn).imp (fun hr => hr.mono hreports) fun hbefore => ?_
      obtain ⟨g', hg', hn', hexcused⟩ := hbefore
      exact ⟨g', List.mem_append_left _ hg', hn', hexcused.mono hreports hmore⟩

/-- Every function of a group that is to be typed has been lowered. -/
theorem Isolated.lowered_of_sound (h : Isolated fuel t supply listing done st)
    (hg : ∀ n ∈ g, n ∈ topLevelFunctions t) (hsound : g.any st.failed.contains = false) :
    ∀ n ∈ g, st.lowered.contains n = true := by
  intro n hn
  refine (h.prepared n (hg n hn)).resolve_right fun hfailed => ?_
  simpa [hfailed] using List.any_eq_false.1 hsound n hn

/-- A group is typed, and so is everything it uses outside itself. -/
theorem Isolated.adopt (h : Isolated fuel t supply listing done st)
    (hsound : g.any st.failed.contains = false)
    (huses : ∀ n ∈ g, ∀ d, Uses t.toForest (topLevelFunctions t) n d →
      d ∈ g ∨ st.found.declarations.contains d = true)
    {types : TypedGroup} {after : Inference.State} (hkeys : types.schemes.map (·.1) = g) :
    Isolated fuel t supply listing (done ++ [g]) ((st.afterTyping after).adopted types) := by
  have hdeclared : ∀ n, ((st.afterTyping after).adopted types).found.declarations.contains n =
      true ↔ n ∈ g ∨ st.found.declarations.contains n = true := by
    intro n
    rw [← hkeys]
    exact OrderedMap.contains_insertAll
  refine ⟨h.prepared, h.genuine, fun g' hg' n hn => ?_, fun n hn => ?_, fun n hn => ?_,
    fun n d hn hd => ?_, fun n hn => ?_, h.erred⟩
  · refine Or.imp_left (hdeclared n).2 ?_
    rcases List.mem_append.1 hg' with hg' | hg'
    · exact (h.settled g' hg' n hn).imp_left Or.inr
    · rw [List.mem_singleton.1 hg'] at hn
      exact Or.inl (Or.inl hn)
  · rcases (hdeclared n).1 hn with hn | hn
    · exact ⟨g, by simp, hn⟩
    · obtain ⟨g', hg', hn'⟩ := h.placed n hn
      exact ⟨g', List.mem_append_left _ hg', hn'⟩
  · rw [← Bool.not_eq_true, hdeclared, not_or]
    exact ⟨fun hng => List.any_eq_false.1 hsound n hng hn, by simp [h.apart n hn]⟩
  · rw [hdeclared] at hn ⊢
    rcases hn with hn | hn
    · exact huses n hn d hd
    · exact Or.inr (h.closed n d hn hd)
  · refine (h.reasons n hn).imp_right fun hbefore => ?_
    obtain ⟨g', hg', hn', hexcused⟩ := hbefore
    exact ⟨g', List.mem_append_left _ hg', hn', hexcused⟩

/-- Checking a group of the listing keeps failures isolated: by then all that it uses is settled. -/
theorem Isolated.step (hlisting : DependenciesFirst t.toForest (topLevelFunctions t) listing)
    {rest : List (List NodeId)} (hsplit : listing = done ++ g :: rest)
    (hreached : ChecksTo fuel t supply done st) (h : Isolated fuel t supply listing done st)
    (hstep : Checked fuel t (topLevelFunctions t) g st st') :
    Isolated fuel t supply listing (done ++ [g]) st' := by
  have hfunctions : ∀ n ∈ g, n ∈ topLevelFunctions t := fun n hn =>
    hlisting.mem_functions (by simp [hsplit]) hn
  have hwaiting := hlisting.disjoint done g rest hsplit
  cases hstep with
  | skipped d hdep =>
    obtain ⟨hout, hfailed, huses⟩ := of_failedDependency hdep
    obtain ⟨r, hr, herror⟩ := h.erred d hfailed
    refine h.refuse hwaiting rfl rfl rfl (by simp) (fun n hn => Or.inr (Or.inr ?_))
      ⟨r, List.mem_append_left _ hr, herror⟩
    obtain ⟨name, hname⟩ := exists_nameOf (hfunctions n hn)
    refine ⟨d, name, hout, huses, hfailed, hname, List.mem_append_right _ ?_⟩
    exact List.mem_map.2 ⟨n, hn, by simp [skippedReport, Report.of, Message.severity, hname]⟩
  | spoiled hdep hany =>
    obtain ⟨m, hm, hfailed⟩ := List.any_eq_true.1 hany
    -- the groups before this one share no function with it, so the member did not lower
    have hreported : LoweringReported t supply st.reports m := by
      refine (h.reasons m hfailed).resolve_right fun hbefore => ?_
      obtain ⟨g', hg', hm', -⟩ := hbefore
      exact hwaiting m hm g' hg' hm'
    exact h.refuse hwaiting rfl rfl rfl (by simp) (fun n _ => Or.inl ⟨m, hm, hreported⟩)
      (h.erred m hfailed)
  | failed hdep hsound e last r hrun hreport =>
    obtain ⟨message, hsaid, rfl⟩ := of_inferenceReport hreport
    obtain ⟨p, hp, hspan⟩ := span_of_inferGroup hrun
    obtain ⟨hpg, hl⟩ := mem_members.1 hp
    rw [hspan, (h.genuine p.1 p.2 hl).span_eq]
    have hinference : InferenceReported fuel t supply listing
        (st.reports ++ [⟨t.file, [t.span p.1], .error, message⟩]) g :=
      ⟨done, rest, st, e, last, p.1, message, hsplit, hreached,
        map_fst_members (h.lowered_of_sound hfunctions hsound), hrun, hpg, hsaid, by simp⟩
    exact h.refuse hwaiting rfl rfl rfl (by simp) (fun n _ => Or.inr (Or.inl hinference))
      ⟨_, List.mem_append_right _ (List.mem_singleton_self _), rfl⟩
  | typed hdep hsound types after hrun =>
    refine h.adopt hsound (fun n hn d hd => ?_)
      ((map_fst_schemes hrun).trans (map_fst_members (h.lowered_of_sound hfunctions hsound)))
    -- what the group uses outside itself has been settled and has not failed
    rcases hlisting.ordered done g rest hsplit n hn d hd with hdg | ⟨g', hg', hdg⟩
    · exact Or.inl hdg
    · refine Or.inr ((h.settled g' hg' d hdg).resolve_right fun hfailed => ?_)
      have hout : d ∉ g := fun hin => hwaiting d hin g' hg' hdg
      simp [not_failed_of_failedDependency hdep hn hd hout] at hfailed

end Steps

/-- What holds after all groups of a listing have been checked. -/
theorem checkListed_isolated
    (hlisting : DependenciesFirst t.toForest (topLevelFunctions t) listing) (fuel : Nat)
    (supply : Supply) : Lands (checkListed fuel t listing) (Progress.start supply)
      (fun _ st => Isolated fuel t supply listing listing st) fun _ _ => True := by
  refine checkListed_lands (Preparing t supply) (Isolated fuel t supply listing)
    (Preparing.start t supply) ?_ (fun st h => h.isolated) ?_
  · intro done n rest hsplit st hreached h
    exact (prepare_lands t n st).imp (fun _ _ hstep => h.step hsplit hreached hstep)
      fun _ _ _ => trivial
  · intro done g rest hsplit st hreached h
    exact (checkGroup_lands fuel t _ g st).imp
      (fun _ _ hstep => h.step hlisting hsplit hreached hstep) fun _ _ _ => trivial

/-- If each node is named at most once, then the groups of a unit are its strongly connected
components with dependencies first. Let the functions be typed along any such listing without a
crash. Then a function with a scheme uses only functions with schemes, in any number of steps. If a
top-level function has no scheme then an error was reported, and its component is a group of which
some function does not lower in its turn, or that has no type in the context shared by then, each
with its error among the reports; or a note names the function, at the function and at one outside
the component that the component uses and that has no scheme either. -/
theorem failures_isolated (ht : t.NamedOnce) (fuel : Nat) (supply : Supply) :
    let functions := topLevelFunctions t
    DependenciesFirst t.toForest functions (groups t.toForest functions) ∧
    ∀ listing, DependenciesFirst t.toForest functions listing → ∀ outcome types,
      outcomeOf (checkListed fuel t listing) supply = some outcome → outcome.result = .ok types →
      (∀ n d, types.declarations.contains n = true → TransGen (Uses t.toForest functions) n d →
        types.declarations.contains d = true) ∧
      ∀ n ∈ functions, types.declarations.contains n = false →
        (∃ r ∈ outcome.reports, r.severity = .error) ∧
        ∃ g, (∀ m, m ∈ g ↔ Mutual t.toForest functions n m) ∧
          ((∃ m ∈ g, LoweringReported t supply outcome.reports m) ∨
            InferenceReported fuel t supply listing outcome.reports g ∨
            SkipReported t (types.declarations.contains · = false) outcome.reports g n) := by
  refine ⟨dependenciesFirst_groups (topLevelFunctions_nodup ht), ?_⟩
  intro listing hlisting outcome types h hok
  obtain ⟨st, hrun, hreports, rfl⟩ := exists_run_of_ok h hok
  have hend := (checkListed_isolated hlisting fuel supply).of_ok hrun
  simp only [settle, OrderedMap.contains_mapValues, hreports]
  refine ⟨fun n d hn hnd => ?_, fun n hn hnone => ?_⟩
  · induction hnd with
    | single hd => exact hend.closed n _ hn hd
    | tail _ hd ih => exact hend.closed _ _ ih hd
  · obtain ⟨g, hg, hng⟩ := hlisting.covered n hn
    have hfailed := (hend.settled g hg n hng).resolve_left (by simp [hnone])
    refine ⟨hend.erred n hfailed, ?_⟩
    rcases hend.reasons n hfailed with hreported | ⟨g', hg', hn', hexcused⟩
    · exact ⟨g, hlisting.component g hg n hng, Or.inl ⟨n, hng, hreported⟩⟩
    · exact ⟨g', hlisting.component g' hg' n hn', hexcused.mono (fun _ hr => hr) hend.apart⟩

/-- A function, one that uses it, one that refers to a variable before its turn, one that uses that
one, and one that calls a number. -/
def mixedUnit : Tree := Tree.ofKinds [
  .number "1", .function ⟨1⟩ [] none ⟨0⟩,
  .resolved ⟨⟨1⟩, none⟩ ⟨1⟩, .function ⟨2⟩ [] none ⟨2⟩,
  .resolved ⟨⟨3⟩, none⟩ ⟨6⟩, .number "1", .varDecl ⟨3⟩ false none ⟨5⟩, .block [⟨4⟩, ⟨6⟩],
  .function ⟨4⟩ [] none ⟨7⟩,
  .resolved ⟨⟨4⟩, none⟩ ⟨8⟩, .function ⟨5⟩ [] none ⟨9⟩,
  .number "1", .number "2", .call ⟨11⟩ [⟨12⟩], .function ⟨6⟩ [] none ⟨13⟩,
  .moduleDecl ⟨7⟩ false [⟨1⟩, ⟨3⟩, ⟨8⟩, ⟨10⟩, ⟨14⟩], .file [⟨15⟩]]

theorem failures_isolated_mixed :
    let functions := topLevelFunctions mixedUnit
    mixedUnit.NamedOnce ∧ ∃ outcome types,
      DependenciesFirst mixedUnit.toForest functions (groups mixedUnit.toForest functions) ∧
      inferDeclarations 9 mixedUnit Supply.empty = some outcome ∧ outcome.result = .ok types ∧
      (types.declarations.contains ⟨3⟩ = true ∧
        TransGen (Uses mixedUnit.toForest functions) ⟨3⟩ ⟨1⟩ ∧
        types.declarations.contains ⟨1⟩ = true) ∧
      ∀ n ∈ [⟨8⟩, ⟨10⟩, ⟨14⟩], n ∈ functions ∧ types.declarations.contains n = false ∧
        (∃ r ∈ outcome.reports, r.severity = .error) ∧
        ∃ g, (∀ m, m ∈ g ↔ Mutual mixedUnit.toForest functions n m) ∧
          ((∃ m ∈ g, LoweringReported mixedUnit Supply.empty outcome.reports m) ∨
            InferenceReported 9 mixedUnit Supply.empty (groups mixedUnit.toForest functions)
              outcome.reports g ∨
            SkipReported mixedUnit (types.declarations.contains · = false) outcome.reports g
              n) := by
  have ht : mixedUnit.NamedOnce := by decide
  have hrun : ((inferDeclarations 9 mixedUnit Supply.empty).any fun outcome =>
      outcome.result.toOption.any fun types => types.declarations.contains ⟨3⟩ &&
        [⟨8⟩, ⟨10⟩, ⟨14⟩].all fun n => !types.declarations.contains n) = true := by
    decide +kernel
  have huses : Uses mixedUnit.toForest (topLevelFunctions mixedUnit) ⟨3⟩ ⟨1⟩ :=
    contains_usesOf.1 (by decide +kernel)
  have hfunctions : ∀ n ∈ [⟨8⟩, ⟨10⟩, ⟨14⟩], n ∈ topLevelFunctions mixedUnit := by decide +kernel
  obtain ⟨outcome, h, hresult⟩ := (Option.any_eq_true _ _).1 hrun
  obtain ⟨types, htypes, hcontains⟩ := (Option.any_eq_true _ _).1 hresult
  have hok : outcome.result = .ok types := by
    cases hr : outcome.result <;> simp_all [Except.toOption]
  obtain ⟨hthree, hothers⟩ := Bool.and_eq_true_iff.1 hcontains
  obtain ⟨hgroups, hlistings⟩ := failures_isolated ht 9 Supply.empty
  obtain ⟨hclosed, hfailed⟩ := hlistings _ hgroups outcome types h hok
  refine ⟨ht, outcome, types, hgroups, h, hok,
    ⟨hthree, .single huses, hclosed _ _ hthree (.single huses)⟩, fun n hn => ?_⟩
  have hnone : types.declarations.contains n = false := by
    simpa using List.all_eq_true.1 hothers n hn
  exact ⟨hfunctions n hn, hnone, hfailed n (hfunctions n hn) hnone⟩

end SemanticAnalysis.Declarations
