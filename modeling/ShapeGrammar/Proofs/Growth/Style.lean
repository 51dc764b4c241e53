import ShapeGrammar.Proofs.Growth.Previews
import ShapeGrammar.Proofs.Growth.Soundness
import ShapeGrammar.Proofs.Search.Style

/-!
# Growth carries styles and does not look at them

Two growths that differ in the styles of their shapes at most (`Growth.Restyled`) answer commands
alike and go on to differ in styles at most, if the shapes that the commands bring differ in styles
at most as well.  There is one lemma for each command; they are put together in
`Growth.Restyled.perform`, and by induction this holds of any history.

What is drawn from the generators belongs to it: the two growths have the same generator at any
time.

The style of a shape is not lost either.  What is added when a production is applied are images of
some of its results, each in the style of its result.
-/

namespace ShapeGrammar

/-- The two scenes have the same productions and seeds but for styles. -/
structure Scene.Restyled (s s' : Scene) : Prop where
  productions : List.Forall₂ Production.Restyled s.productions s'.productions
  seeds : List.Forall₂ Shape.Restyled s.seeds s'.seeds

namespace Growth

/-- The two growths differ in the styles of their shapes at most. -/
structure Restyled (g g' : Growth) : Prop where
  store : g.store.Restyled g'.store
  productions : List.Forall₂ Production.Restyled g.productions g'.productions
  proposals : List.Forall₂ Proposal.Restyled g.proposals g'.proposals
  region_eq : g'.region = g.region
  generator_eq : g'.generator = g.generator
  phase_eq : g'.phase = g.phase
  policy_eq : g'.policy = g.policy
  limit_eq : g'.limit = g.limit
  showPreviews_eq : g'.showPreviews = g.showPreviews
  ticks_eq : g'.ticks = g.ticks

/-- The two commands are one command, for shapes that differ in styles at most. -/
inductive Command.Restyled : Command → Command → Prop
  | plant {s s' : Shape} (h : s.Restyled s') : Restyled (.plant s) (.plant s')
  | start (policy : Policy) : Restyled (.start policy) (.start policy)
  | stop : Restyled .stop .stop
  | tick : Restyled .tick .tick
  | applyAt (p : Point) : Restyled (.applyAt p) (.applyAt p)
  | refresh : Restyled .refresh .refresh
  | setShowPreviews (shown : Bool) : Restyled (.setShowPreviews shown) (.setShowPreviews shown)
  | setProductions {ps ps' : List Production} (h : List.Forall₂ Production.Restyled ps ps') :
      Restyled (.setProductions ps) (.setProductions ps')
  | reset : Restyled .reset .reset
  | install {s s' : Scene} (h : s.Restyled s') : Restyled (.install s) (.install s')

/-- The two commands are both about previews, or neither is. -/
lemma Command.Restyled.isPreview_eq {c c' : Command} (h : c.Restyled c') :
    c'.isPreview = c.isPreview := by
  cases h <;> rfl

/-- The same answer, with growths that differ in styles at most. -/
def SameAnswer {α : Type} (r r' : α × Growth) : Prop := r'.1 = r.1 ∧ r.2.Restyled r'.2

namespace Restyled

/-- New growths with the same productions but for styles differ in styles at most. -/
lemma new {ps ps' : List Production} (h : List.Forall₂ Production.Restyled ps ps')
    (region : Region) (seed : UInt64) (limit : Option ℕ) :
    (new region ps seed limit).Restyled (new region ps' seed limit) where
  store := .empty
  productions := h
  proposals := .nil
  region_eq := rfl
  generator_eq := rfl
  phase_eq := rfl
  policy_eq := rfl
  limit_eq := rfl
  showPreviews_eq := rfl
  ticks_eq := rfl

variable {g g' : Growth} (h : g.Restyled g')

include h

lemma isRunning_eq : g'.isRunning = g.isRunning := by
  unfold isRunning
  rw [h.phase_eq]

lemma previews : List.Forall₂ Proposal.Restyled g.previews g'.previews := by
  unfold Growth.previews
  rw [h.showPreviews_eq]
  split
  · exact h.proposals
  · exact .nil

/-- A search finds the same but for styles, and leaves the same generator. -/
lemma search (sampling : Sampling) (limit : Option ℕ) :
    List.Forall₂ Proposal.Restyled (g.search sampling limit).1 (g'.search sampling limit).1 ∧
      (g'.search sampling limit).2 = (g.search sampling limit).2 := by
  unfold Growth.search
  rw [h.region_eq, h.generator_eq]
  exact Search.restyled_run h.store g.region h.productions sampling limit g.generator

/-! ### One command -/

lemma plant {s s' : Shape} (hs : s.Restyled s') : SameAnswer (g.plant s) (g'.plant s') := by
  unfold Growth.plant
  rw [h.region_eq]
  obtain ⟨hid, hstore⟩ := h.store.insert hs g.region
  exact ⟨hid, { h with store := hstore, region_eq := rfl }⟩

lemma refresh : g.refresh.Restyled g'.refresh := by
  rw [refresh_eq, refresh_eq, h.limit_eq]
  exact { h with proposals := (h.search .exhaustive g.limit).1, limit_eq := rfl }

lemma setShowPreviews (shown : Bool) :
    (g.setShowPreviews shown).Restyled (g'.setShowPreviews shown) := by
  have hshown : Growth.Restyled { g with showPreviews := shown }
    { g' with showPreviews := shown } := { h with showPreviews_eq := rfl }
  cases shown with
  | false => exact hshown
  | true => exact hshown.refresh

lemma start (policy : Policy) : SameAnswer (g.start policy) (g'.start policy) := by
  unfold Growth.start
  rw [h.isRunning_eq]
  split
  · exact ⟨rfl, h⟩
  · exact ⟨rfl, { h with
      policy_eq := rfl, phase_eq := rfl, showPreviews_eq := rfl, proposals := .nil }⟩

lemma stop : g.stop.Restyled g'.stop := { h with phase_eq := rfl, proposals := .nil }

lemma apply {c c' : Proposal} (hc : c.Restyled c') : SameAnswer (g.apply c) (g'.apply c') := by
  unfold Growth.apply
  rw [h.region_eq]
  obtain ⟨hids, hstore⟩ := h.store.insertAll hc.additions g.region
  refine ⟨?_, { h with store := hstore, region_eq := rfl }⟩
  dsimp only
  rw [hids, hc.foundIds_eq, hc.production.id_eq]

/-- The choice of a tick is the same but for styles, and so is the generator behind it. -/
lemma choice : Option.Rel Proposal.Restyled g.choice.1 g'.choice.1 ∧ g'.choice.2 = g.choice.2 := by
  obtain ⟨hfound, hgenerator⟩ := h.search g.policy.sampling (g.policy.limit g.limit)
  have hchoose := Policy.choose_restyled hfound
  unfold Growth.choice
  rw [h.policy_eq, h.limit_eq]
  dsimp only
  rw [hgenerator, hchoose]
  refine ⟨?_, rfl⟩
  generalize (g.policy.choose _ _).1 = i
  cases i with
  | none => exact .none
  | some i => exact rel_getElem? hfound i

/-- The choice by pointing is the same but for styles. -/
lemma picked (p : Point) : Option.Rel Proposal.Restyled (g.picked p) (g'.picked p) := by
  have hfound := h.refresh.proposals
  unfold Growth.picked
  rw [Selection.under_restyled hfound]
  cases Selection.under g.refresh.proposals p with
  | none => exact .none
  | some i => exact rel_getElem? hfound i

lemma runningTick : SameAnswer g.runningTick g'.runningTick := by
  obtain ⟨hchoice, hgenerator⟩ := h.choice
  rw [runningTick_eq, runningTick_eq, hgenerator]
  generalize g.choice.1 = c, g'.choice.1 = c' at hchoice ⊢
  cases hchoice with
  | none => exact ⟨rfl, { h with generator_eq := rfl, phase_eq := rfl, proposals := .nil }⟩
  | some hc =>
    obtain ⟨hreport, hafter⟩ := h.apply hc
    exact ⟨congrArg Outcome.applied hreport,
      { hafter with generator_eq := rfl, ticks_eq := congrArg (· + 1) h.ticks_eq }⟩

lemma tick : SameAnswer g.tick g'.tick := by
  unfold Growth.tick
  rw [h.isRunning_eq]
  split
  · exact h.runningTick
  · exact ⟨rfl, h⟩

lemma applyAt (p : Point) : SameAnswer (g.applyAt p) (g'.applyAt p) := by
  by_cases hrun : g.isRunning = true
  · rw [Growth.applyAt, Growth.applyAt, h.isRunning_eq, if_pos hrun, if_pos hrun]
    exact ⟨rfl, h⟩
  · have hpicked := h.picked p
    rw [applyAt_eq hrun, applyAt_eq (h.isRunning_eq ▸ hrun)]
    generalize g.picked p = c, g'.picked p = c' at hpicked ⊢
    cases hpicked with
    | none => exact ⟨rfl, h.refresh⟩
    | some hc =>
      obtain ⟨hreport, hafter⟩ := h.refresh.apply hc
      exact ⟨congrArg some hreport, hafter.refresh⟩

lemma setProductions {ps ps' : List Production} (hps : List.Forall₂ Production.Restyled ps ps') :
    (g.setProductions ps).Restyled (g'.setProductions ps') := by
  have hset : Growth.Restyled { g.stop with productions := ps }
    { g'.stop with productions := ps' } := { h.stop with productions := hps }
  exact hset.refresh

lemma reset : g.reset.Restyled g'.reset := { h.stop with store := h.store.clear }

omit h in
lemma plantAll {shapes shapes' : List Shape} (hshapes : List.Forall₂ Shape.Restyled shapes shapes')
    (h : g.Restyled g') : SameAnswer (Scene.plantAll g shapes) (Scene.plantAll g' shapes') := by
  induction hshapes generalizing g g' with
  | nil => exact ⟨rfl, h⟩
  | cons hs _ ih =>
    obtain ⟨hid, hplanted⟩ := h.plant hs
    obtain ⟨hcount, hall⟩ := ih hplanted
    unfold Scene.plantAll
    dsimp only
    rw [hid, hcount]
    exact ⟨rfl, hall⟩

lemma install {s s' : Scene} (hs : s.Restyled s') : SameAnswer (s.install g) (s'.install g') := by
  obtain ⟨hcount, hplanted⟩ := plantAll hs.seeds h.reset
  exact ⟨hcount, hplanted.setProductions hs.productions⟩

/-- One command gets one answer and leaves growths that differ in styles at most. -/
lemma perform {c c' : Command} (hc : c.Restyled c') :
    g'.respond c' = g.respond c ∧ (g.perform c).Restyled (g'.perform c') := by
  cases hc with
  | plant hs => exact ⟨congrArg Answer.planted (h.plant hs).1, (h.plant hs).2⟩
  | start policy => exact ⟨congrArg Answer.started (h.start policy).1, (h.start policy).2⟩
  | tick => exact ⟨congrArg Answer.ticked h.tick.1, h.tick.2⟩
  | applyAt p => exact ⟨congrArg Answer.applied (h.applyAt p).1, (h.applyAt p).2⟩
  | install hs => exact ⟨congrArg Answer.installed (h.install hs).1, (h.install hs).2⟩
  | stop => exact ⟨rfl, h.stop⟩
  | refresh => exact ⟨rfl, h.refresh⟩
  | setShowPreviews shown => exact ⟨rfl, h.setShowPreviews shown⟩
  | setProductions hps => exact ⟨rfl, h.setProductions hps⟩
  | reset => exact ⟨rfl, h.reset⟩

/-! ### Histories -/

omit h in
/-- What holds of one command holds of a history. -/
lemma after {cs cs' : List Command} (hcs : List.Forall₂ Command.Restyled cs cs')
    (h : g.Restyled g') : g'.answers cs' = g.answers cs ∧ (g.after cs).Restyled (g'.after cs') := by
  induction hcs generalizing g g' with
  | nil => exact ⟨rfl, h⟩
  | cons hc _ ih =>
    obtain ⟨hanswer, hstep⟩ := h.perform hc
    obtain ⟨hanswers, hafter⟩ := ih hstep
    rw [answers, answers, hc.isPreview_eq, hanswer, hanswers]
    exact ⟨rfl, hafter⟩

end Restyled

/-! ### What is read, and what is added -/

/-- What can be read from the two growths differs in styles at most: the previews and the choice
among them by pointing, which polygons contain a point, which polygon is nearest to a shape, and
what any search finds and draws. -/
structure ReadsLike (g g' : Growth) : Prop where
  previews : List.Forall₂ Proposal.Restyled g.previews g'.previews
  under_eq : ∀ p, Selection.under g'.previews p = Selection.under g.previews p
  contains_eq : ∀ x y, (g'.store.toList.map fun q => (q.id, q.shape.contains x y)) =
    g.store.toList.map fun q => (q.id, q.shape.contains x y)
  nearest : ∀ shape shape' limit, shape.Restyled shape' →
    Option.Rel Polygon.Restyled (g.store.nearest shape limit) (g'.store.nearest shape' limit)
  search : ∀ sampling limit,
    List.Forall₂ Proposal.Restyled (g.search sampling limit).1 (g'.search sampling limit).1
  generator_eq : ∀ sampling limit, (g'.search sampling limit).2 = (g.search sampling limit).2

lemma Restyled.readsLike {g g' : Growth} (h : g.Restyled g') : g.ReadsLike g' where
  previews := h.previews
  under_eq := Selection.under_restyled h.previews
  contains_eq := fun x y => map_eq_map_of_rel h.store.polygons fun q q' hq => by
    rw [hq.id_eq, hq.shape.contains_eq]
  nearest := fun _ _ limit hshape => h.store.nearest hshape limit
  search := fun sampling limit => (h.search sampling limit).1
  generator_eq := fun sampling limit => (h.search sampling limit).2

/-- What an application adds are the images of some results of a production, in their order, each in
the style of its result. -/
lemma Reports.exists_results {g k : Growth} {report : Report} (h : g.Reports report k) :
    ∃ p ∈ g.productions, ∃ (t : Similarity) (added : List Polygon) (results : List Shape),
      report.production = p.id ∧ report.added = added.map Polygon.id ∧
      g.store.Extends added k.store ∧ results.Sublist p.result ∧
      added.map Polygon.shape = results.map (fun r => r.under t) ∧
      (added.map fun q => q.shape.style) = results.map Shape.style := by
  obtain ⟨p, hp, anchor, -, c, hpropose, rfl, hstore⟩ := h.exists_propose
  obtain ⟨rfl, -, -, hadd, -⟩ := Search.propose_eq_some_iff.mp hpropose
  obtain ⟨added, hext, hids, hsub, -⟩ :=
    g.store.exists_extends_insertAll_sublist g.region.admits c.additions
  have himages : (added.map Polygon.shape).Sublist
      (c.production.result.map fun r => r.under c.similarity) := by
    rw [← hadd] at hsub
    exact hsub.trans (Search.additions_sublist ..)
  obtain ⟨results, hresults, hshapes⟩ := List.sublist_map_iff.mp himages
  refine ⟨c.production, hp, c.similarity, added, results, rfl, hids, hstore ▸ hext, hresults,
    hshapes, ?_⟩
  calc (added.map fun q => q.shape.style) = (added.map Polygon.shape).map Shape.style :=
        (List.map_map ..).symm
    _ = (results.map fun r => r.under c.similarity).map Shape.style := by rw [hshapes]
    _ = results.map Shape.style := by
        rw [List.map_map]
        rfl

/-- Take two growths that are equal but for the styles of their shapes, and give them the same
commands, for shapes that are equal but for styles.  The answers are the same, with all numbers and
reports.  The growths stay equal but for styles, in their stores with the numbers handed out, in
productions and proposals, and have the same generators, phases, policies and counts of ticks; and
so does all that can be read from them.  Whenever one of them then reports an application, what was
added are the images of some results of the production, in their order, and each has the style of
the result that it is the image of. -/
theorem styles_are_carried_and_never_read {g g' : Growth} (h : g.Restyled g')
    {cs cs' : List Command} (hcs : List.Forall₂ Command.Restyled cs cs') :
    g'.answers cs' = g.answers cs ∧
      (g.after cs).Restyled (g'.after cs') ∧
      (g.after cs).ReadsLike (g'.after cs') ∧
      ∀ report k, (g.after cs).Reports report k →
        ∃ p ∈ (g.after cs).productions, ∃ (t : Similarity) (added : List Polygon)
            (results : List Shape),
          report.production = p.id ∧ report.added = added.map Polygon.id ∧
          (g.after cs).store.Extends added k.store ∧ results.Sublist p.result ∧
          added.map Polygon.shape = results.map (fun r => r.under t) ∧
          (added.map fun q => q.shape.style) = results.map Shape.style := by
  obtain ⟨hanswers, hafter⟩ := Restyled.after hcs h
  exact ⟨hanswers, hafter, hafter.readsLike, fun report k hreports => hreports.exists_results⟩

/-! ### A row of invisible squares -/

/-- The shape, with neither outline nor fill. -/
def invisible (s : Shape) : Shape := { s with style := ⟨none, none⟩ }

/-- The production that adds an invisible square beside an invisible one. -/
def invisibleBeside : Production := ⟨1, [invisible (square 0 0 1)], [invisible (square 1 0 1)]⟩

lemma invisibleBeside_restyled : invisibleBeside.Restyled (squareBeside 1 1 0) :=
  ⟨rfl, .cons rfl .nil, .cons rfl .nil⟩

/-- A row of invisible squares grows as a row of plain ones does, and what is added to it is
invisible. -/
theorem invisible_row_grows_invisibly :
    let g := new (.canvas 8 8) [invisibleBeside] 0 none
    let cs := [Command.plant (invisible (square 2 2 2)), .start .weighted]
    (new (.canvas 8 8) [squareBeside 1 1 0] 0 none).answers
        [.plant (square 2 2 2), .start .weighted, .tick] = g.answers (cs ++ [.tick]) ∧
      (g.after cs).Reports ⟨1, [1], [2]⟩ (g.after cs).tick.2 ∧
      ∃ added, (g.after cs).store.Extends added (g.after cs).tick.2.store ∧
        added.map (fun q => q.shape.style) = [⟨none, none⟩] := by
  intro g cs
  have hg : g.Restyled (new (.canvas 8 8) [squareBeside 1 1 0] 0 none) :=
    .new (.cons invisibleBeside_restyled .nil) _ _ _
  have hcs : List.Forall₂ Command.Restyled cs [.plant (square 2 2 2), .start .weighted] :=
    .cons (.plant rfl) (.cons (.start .weighted) .nil)
  have hall : List.Forall₂ Command.Restyled (cs ++ [.tick])
      [.plant (square 2 2 2), .start .weighted, .tick] :=
    .cons (.plant rfl) (.cons (.start .weighted) (.cons .tick .nil))
  have htick : (g.after cs).tick.1 = .applied ⟨1, [1], [2]⟩ := by decide +kernel
  have hreports := Reports.of_tick htick
  obtain ⟨-, -, -, hcarried⟩ := styles_are_carried_and_never_read hg hcs
  obtain ⟨p, hp, t, added, results, -, hids, hext, hsub, hshapes, hstyles⟩ := hcarried _ _ hreports
  refine ⟨(styles_are_carried_and_never_read hg hall).1, hreports, added, hext, ?_⟩
  have hproductions : (g.after cs).productions = [invisibleBeside] :=
    productions_after (by simp [cs, Command.KeepsProductions]) _
  rw [hproductions, List.mem_singleton] at hp
  subst hp
  have hlength : results.length = invisibleBeside.result.length := by
    have hmap := congrArg List.length hshapes
    have hadded := congrArg List.length hids
    simp only [List.length_map] at hmap hadded
    rw [← hmap, ← hadded]
    rfl
  rw [hstyles, hsub.eq_of_length hlength]
  rfl

end Growth

end ShapeGrammar
