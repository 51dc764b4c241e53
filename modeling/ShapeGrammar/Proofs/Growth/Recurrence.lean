import ShapeGrammar.Proofs.Growth.Soundness
import ShapeGrammar.Proofs.Search.Completeness

/-!
# No rewriting happens twice

When a proposal has been applied, all results of its production are in the store under its
similarity: those that were added, those that were kept, those that were there already, and those
that were passed over because another one has their key (`Growth.spent_apply`).  A production that
has nothing left to add under a similarity is not proposed under it (`Growth.Spent.not_proposed`).

Polygons leave the store only when it is cleared.  So, until a reset or the installation of a scene,
the production stays spent under that similarity, and as a polygon always yields the same similarity
it has nothing left to add at the same anchor either.
-/

namespace ShapeGrammar

namespace Growth

variable {g g' : Growth} {c c' : Proposal} {command : Command}

/-! ### What is applied -/

/-- The proposal that a command applies, if it applies one. -/
def applied (g : Growth) : Command → Option Proposal
  | .tick => if g.isRunning then g.choice.1 else none
  | .applyAt p => if g.isRunning then none else g.picked p
  | _ => none

/-- A tick that applies a proposal reports it. -/
lemma tick_of_applied (h : g.applied .tick = some c) :
    g.tick.1 = .applied (g.apply c).1 ∧ g.tick.2.store = (g.apply c).2.store := by
  obtain ⟨hrun, hchosen⟩ := Option.ite_none_right_eq_some.mp h
  rw [tick, if_pos hrun, runningTick_eq, hchosen]
  exact ⟨rfl, rfl⟩

/-- A pick by hand that applies a proposal reports it. -/
lemma applyAt_of_applied {p : Point} (h : g.applied (.applyAt p) = some c) :
    (g.applyAt p).1 = some (g.apply c).1 ∧ (g.applyAt p).2.store = (g.apply c).2.store := by
  obtain ⟨hidle, hpicked⟩ := Option.ite_none_left_eq_some.mp h
  rw [applyAt_eq hidle, hpicked]
  exact ⟨rfl, rfl⟩

/-- A command that applies a proposal reports it, and the store is as the proposal makes it. -/
lemma reports_of_applied (h : g.applied command = some c) :
    g.Reports (g.apply c).1 (g.perform command) ∧
      (g.perform command).store = (g.apply c).2.store := by
  cases command with
  | tick =>
    obtain ⟨hreport, hstore⟩ := tick_of_applied h
    exact ⟨.of_tick hreport, hstore⟩
  | applyAt p =>
    obtain ⟨hreport, hstore⟩ := applyAt_of_applied h
    exact ⟨Or.inr ⟨p, Prod.ext hreport rfl⟩, hstore⟩
  | _ => cases h

/-- What is applied was found by a search in the store as it was. -/
lemma exists_propose_of_applied (h : g.applied command = some c) :
    ∃ p ∈ g.productions, ∃ anchor ∈ g.store.toList,
      Search.propose g.store g.region.admits p anchor = some c := by
  cases command with
  | tick =>
    obtain ⟨-, hchosen⟩ := Option.ite_none_right_eq_some.mp h
    rcases g.choice_cases with ⟨-, hnone⟩ | ⟨c', hc', hsome⟩
    · rw [hchosen] at hnone
      cases hnone
    · obtain rfl : c = c' := Option.some.inj (hchosen.symm.trans hsome)
      exact exists_propose_of_mem_search hc'
  | applyAt p =>
    obtain ⟨-, hpicked⟩ := Option.ite_none_left_eq_some.mp h
    exact exists_propose_of_mem_search (mem_search_of_picked hpicked)
  | _ => cases h

/-- Whatever is reported, a command has applied it. -/
lemma Reports.exists_applied {report : Report} (h : g.Reports report g') :
    ∃ command c, g.applied command = some c ∧ report = (g.apply c).1 ∧ g' = g.perform command := by
  rcases h with h | ⟨p, h⟩
  · have hrun : g.isRunning = true := by
      by_contra hidle
      rw [tick, if_neg hidle] at h
      cases h
    cases hchosen : g.choice.1 with
    | none =>
      rw [tick, if_pos hrun, runningTick_eq, hchosen] at h
      cases h
    | some c =>
      have happlied : g.applied .tick = some c := Option.ite_none_right_eq_some.mpr ⟨hrun, hchosen⟩
      have hreport := (tick_of_applied happlied).1
      rw [h] at hreport
      exact ⟨.tick, c, happlied, Outcome.applied.inj hreport, congrArg Prod.snd h.symm⟩
  · have hidle : ¬ g.isRunning = true := by
      intro hrun
      rw [applyAt, if_pos hrun] at h
      cases h
    cases hpicked : g.picked p with
    | none =>
      rw [applyAt_eq hidle, hpicked] at h
      cases h
    | some c =>
      have happlied : g.applied (.applyAt p) = some c :=
        Option.ite_none_left_eq_some.mpr ⟨hidle, hpicked⟩
      have hreport := (applyAt_of_applied happlied).1
      rw [h] at hreport
      exact ⟨.applyAt p, c, happlied, Option.some.inj hreport, congrArg Prod.snd h.symm⟩

/-! ### Productions with nothing left to add -/

/-- All results of the production are in the store under the similarity. -/
def Spent (s : Store) (p : Production) (t : Similarity) : Prop :=
  ∀ r ∈ p.result, s.hasKey (r.under t).key = true

/-- A production that is spent under a similarity is not proposed under it. -/
lemma Spent.not_proposed {s : Store} {admits : Shape → Bool} {p p' : Production} {t : Similarity}
    (hspent : Spent s p t) {anchor : Polygon} (hc : Search.propose s admits p' anchor = some c) :
    ¬ (c.production = p ∧ c.similarity = t) := by
  rintro ⟨rfl, rfl⟩
  obtain ⟨rfl, -, -, -, hne⟩ := Search.propose_eq_some_iff.mp hc
  obtain ⟨shape, hshape⟩ := List.exists_mem_of_ne_nil _ hne
  obtain ⟨-, hfree, r, hr, rfl⟩ := Search.of_mem_additions hc hshape
  rw [hspent r hr] at hfree
  exact Bool.false_ne_true hfree.symm

/-- Polygons that are added do not undo that. -/
lemma Spent.mono {s s' : Store} {p : Production} {t : Similarity} (hspent : Spent s p t)
    {added : List Polygon} (hext : s.Extends added s') : Spent s' p t :=
  fun r hr => hext.hasKey_mono (hspent r hr)

/-- A proposal that was just searched for leaves its production spent under its similarity. -/
lemma spent_apply (hs : g.store.Consistent) {p : Production} {anchor : Polygon}
    (hc : Search.propose g.store g.region.admits p anchor = some c) :
    Spent (g.apply c).2.store c.production c.similarity := by
  obtain ⟨added, hext, -, -, -, htaken⟩ := exists_extends_apply hc
  have hdescribes := Search.describes_of_propose hs hc
  intro r hr
  rw [hdescribes.production] at hr
  by_cases hold : (r.under c.similarity).key ∈ g.store.keys
  · exact hext.hasKey_mono ((hs.hasKey_iff_mem_keys _).mpr hold)
  · refine htaken _ ?_
    rw [hdescribes.additions, List.mem_filter, decide_eq_true_iff]
    exact ⟨List.mem_map_of_mem hr, hold⟩

/-! ### Histories without a reset -/

/-- The command does not clear the store. -/
def Command.KeepsPolygons : Command → Prop
  | .reset => False
  | .install _ => False
  | _ => True

/-- A command that does not clear the store extends it. -/
lemma exists_extends_perform (hcommand : command.KeepsPolygons) (g : Growth) :
    ∃ added, g.store.Extends added (g.perform command).store := by
  cases command with
  | reset => exact hcommand.elim
  | install scene => exact hcommand.elim
  | plant shape => exact g.store.exists_extends_insert g.region.admits shape
  | tick =>
    rcases g.tick_cases with ⟨-, heq⟩ | ⟨-, generator, ⟨-, heq⟩ | ⟨c, -, heq⟩⟩ <;> rw [perform, heq]
    · exact ⟨[], .refl _⟩
    · exact ⟨[], .refl _⟩
    · exact g.extends_apply c
  | applyAt p =>
    rcases g.applyAt_cases p with ⟨-, heq⟩ | ⟨c, -, -, heq⟩ <;> rw [perform, heq]
    · exact ⟨[], .refl _⟩
    · exact g.extends_apply c
  | start policy =>
    rw [perform, store_start]
    exact ⟨[], .refl _⟩
  | setShowPreviews shown =>
    rw [perform, store_setShowPreviews]
    exact ⟨[], .refl _⟩
  | stop => exact ⟨[], .refl _⟩
  | refresh => exact ⟨[], .refl _⟩
  | setProductions productions => exact ⟨[], .refl _⟩

lemma exists_extends_after {cs : List Command} (hcs : ∀ d ∈ cs, d.KeepsPolygons) (g : Growth) :
    ∃ added, g.store.Extends added (g.after cs).store := by
  induction cs generalizing g with
  | nil => exact ⟨[], .refl _⟩
  | cons d cs ih =>
    obtain ⟨added, hext⟩ := exists_extends_perform (hcs d List.mem_cons_self) g
    obtain ⟨more, hmore⟩ := ih (fun d' hd' => hcs d' (List.mem_cons_of_mem _ hd')) (g.perform d)
    exact ⟨added ++ more, hext.trans hmore⟩

/-- The store of a growth with a history has a history. -/
lemma Reachable.store_reachable (h : g.Reachable) : g.store.Reachable := by
  obtain ⟨region, productions, seed, limit, cs, rfl⟩ := h
  exact leadsTo_after (new region productions seed limit) cs

lemma Reachable.after (h : g.Reachable) (cs : List Command) : (g.after cs).Reachable := by
  obtain ⟨region, productions, seed, limit, ds, rfl⟩ := h
  exact ⟨region, productions, seed, limit, ds ++ cs, after_append _ ds cs⟩

/-! ### Pairs of a production and an anchor -/

/-- Both proposals apply one production under one similarity. -/
def SameRewriting (c c' : Proposal) : Prop :=
  c'.production = c.production ∧ c'.similarity = c.similarity

/-- The production of the proposal yields the proposal at the anchor. -/
structure ProposedAt (g : Growth) (c : Proposal) (anchor : Polygon) : Prop where
  mem : anchor ∈ g.store.toList
  propose_eq : Search.propose g.store g.region.admits c.production anchor = some c

lemma exists_proposedAt_of_applied (h : g.applied command = some c) :
    ∃ anchor, g.ProposedAt c anchor := by
  obtain ⟨p, -, anchor, hanchor, hc⟩ := exists_propose_of_applied h
  obtain ⟨rfl, -⟩ := Search.propose_eq_some_iff.mp hc
  exact ⟨anchor, hanchor, hc⟩

/-- At one anchor, a production is proposed under one similarity only, as long as the anchor stays
in the store. -/
lemma sameRewriting_of_proposedAt (hg' : g'.store.Reachable) {added : List Polygon}
    (hext : g.store.Extends added g'.store) {anchor anchor' : Polygon}
    (h : g.ProposedAt c anchor) (h' : g'.ProposedAt c' anchor')
    (hproduction : c'.production = c.production) (hid : anchor'.id = anchor.id) :
    SameRewriting c c' := by
  have hstill : anchor ∈ g'.store.toList := hext.sublist.subset h.mem
  obtain rfl : anchor' = anchor := List.inj_on_of_nodup_map hg'.ids_nodup h'.mem hstill hid
  obtain ⟨-, halign, -⟩ := Search.propose_eq_some_iff.mp h.propose_eq
  obtain ⟨-, halign', -⟩ := Search.propose_eq_some_iff.mp h'.propose_eq
  rw [hproduction, halign] at halign'
  exact ⟨hproduction, (Option.some.inj halign').symm⟩

/-- Let a growth with any history carry out a command that applies a proposal, in a tick or by hand,
and then any commands but resets and installations of scenes.  From then on no search finds a
proposal of that production under that similarity, whatever pairs it tries, however many proposals
it keeps, whatever it draws and whatever the other productions are.  The production is proposed no
more at any anchor at which it was proposed so.  And whatever is reported as applied later is
another production, or the same one under another similarity. -/
theorem no_rewriting_happens_twice (hg : g.Reachable) (h : g.applied command = some c)
    {cs : List Command} (hcs : ∀ d ∈ cs, d.KeepsPolygons)
    (hlater : (g.perform command).after cs = g') :
    g.Reports (g.apply c).1 (g.perform command) ∧
      (∀ ps sampling limit generator,
        ∀ c' ∈ (Search.run g'.store ps g'.region.admits sampling limit generator).1,
          ¬ SameRewriting c c') ∧
      (∃ anchor, g.ProposedAt c anchor) ∧
      (∀ anchor, g.ProposedAt c anchor → ∀ c' anchor', g'.ProposedAt c' anchor' →
        ¬ (c'.production = c.production ∧ anchor'.id = anchor.id)) ∧
      ∀ report g'', g'.Reports report g'' →
        ∃ command' c', g'.applied command' = some c' ∧ report = (g'.apply c').1 ∧
          g'' = g'.perform command' ∧ ¬ SameRewriting c c' := by
  obtain ⟨hreports, hstore⟩ := reports_of_applied h
  obtain ⟨p, -, anchor, -, hc⟩ := exists_propose_of_applied h
  obtain ⟨added, happly, -⟩ := exists_extends_apply hc
  obtain ⟨more, hmore⟩ := exists_extends_after hcs (g.perform command)
  rw [hstore, hlater] at hmore
  have hspent : Spent g'.store c.production c.similarity :=
    (spent_apply hg.consistent hc).mono hmore
  have hreach : g'.store.Reachable := by
    rw [← hlater]
    exact (hg.after (command :: cs)).store_reachable
  refine ⟨hreports, ?_, exists_proposedAt_of_applied h, ?_, ?_⟩
  · intro ps sampling limit generator c' hc'
    obtain ⟨p', -, anchor', -, hpropose⟩ := Search.exists_propose_of_mem_run hc'
    exact hspent.not_proposed hpropose
  · rintro anchor hanchor c' anchor' hanchor' ⟨hproduction, hid⟩
    exact hspent.not_proposed hanchor'.propose_eq
      (sameRewriting_of_proposedAt hreach (happly.trans hmore) hanchor hanchor' hproduction hid)
  · intro report g'' hreport
    obtain ⟨command', c', happlied, heq, hafter⟩ := hreport.exists_applied
    obtain ⟨p', -, anchor', -, hpropose⟩ := exists_propose_of_applied happlied
    exact ⟨command', c', happlied, heq, hafter, hspent.not_proposed hpropose⟩

/-! ### A row of squares from a wasteful rule -/

/-- The production that keeps a square and adds its right neighbour, listing the neighbour twice. -/
def wasteful : Production := ⟨1, [square 0 0 1], [square 0 0 1, square 1 0 1, square 1 0 1]⟩

/-- Room for three squares, and the first of them. -/
def wastefulRow : Growth :=
  (new (.canvas 3 1) [wasteful] 0 none).after [.plant (square 0 0 1), .start .weighted]

theorem wastefulRow_does_not_repeat :
    wastefulRow.Reachable ∧ ∃ c, wastefulRow.applied .tick = some c ∧
      (∀ d ∈ [Command.stop, .refresh], d.KeepsPolygons) ∧
      c.additions.length = 2 ∧ (wastefulRow.apply c).1 = ⟨1, [1], [2]⟩ ∧
      ((wastefulRow.perform .tick).after [.stop, .refresh]).proposals.length = 1 ∧
      ∀ sampling limit generator,
        ∀ c' ∈ (Search.run ((wastefulRow.perform .tick).after [.stop, .refresh]).store [wasteful]
            ((wastefulRow.perform .tick).after [.stop, .refresh]).region.admits
            sampling limit generator).1,
          ¬ SameRewriting c c' := by
  have hreach : wastefulRow.Reachable := ⟨_, _, _, _, _, rfl⟩
  have hsome : (wastefulRow.applied .tick).isSome = true := by decide +kernel
  obtain ⟨c, hc⟩ := Option.isSome_iff_exists.mp hsome
  have hkeeps : ∀ d ∈ [Command.stop, .refresh], d.KeepsPolygons := by simp [Command.KeepsPolygons]
  have hadditions : (wastefulRow.applied .tick).map (·.additions.length) = some 2 := by
    decide +kernel
  have hreport : (wastefulRow.applied .tick).map (fun c => (wastefulRow.apply c).1) =
      some ⟨1, [1], [2]⟩ := by
    decide +kernel
  have hmore : ((wastefulRow.perform .tick).after [.stop, .refresh]).proposals.length = 1 := by
    decide +kernel
  rw [hc] at hadditions hreport
  obtain ⟨-, hsearch, -⟩ := no_rewriting_happens_twice hreach hc hkeeps rfl
  exact ⟨hreach, c, hc, hkeeps, Option.some.inj hadditions, Option.some.inj hreport, hmore,
    hsearch [wasteful]⟩

end Growth

end ShapeGrammar
