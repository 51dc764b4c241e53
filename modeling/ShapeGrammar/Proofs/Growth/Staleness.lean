import ShapeGrammar.Proofs.Growth.Previews
import ShapeGrammar.Proofs.Search.Persistence

/-!
# How old previews can be

A growth keeps the proposals of its last preview search.  They are current if there are none, or if
a search in the store as it is would give the same list.

Most commands renew the list: they drop it or search anew.  Planting a shape does not, and neither
does a tick that applies a proposal.  At the start of a run the list is dropped, so ticks find
nothing to make stale unless previews are switched on while the growth runs; but then a tick may add
the very shapes that are shown, and they are shown on.

So at any time the list is that of an earlier state, the last one at which it was renewed
(`Growth.lastRenewed_spec`), and the store has only grown since.  The list is as good as new if
nothing that it proposes has been taken and nothing else is proposed now.
-/

namespace ShapeGrammar

namespace Growth

variable {g h : Growth} {c : Command}

/-- The list of previews is empty, or what a preview search would find now. -/
def Current (g : Growth) : Prop :=
  g.proposals = [] ∨ g.proposals = (g.search .exhaustive g.limit).1

/-- The command drops the previews or searches for them anew. -/
def renews (g : Growth) : Command → Bool
  | .plant _ => false
  | .start _ => !g.isRunning
  | .tick => g.tick.1 == .exhausted
  | .applyAt _ => !g.isRunning
  | .setShowPreviews shown => shown
  | _ => true

/-- `g'` has the previews of `g`, and rules and limit of `g`, and its store extends that of `g`. -/
structure KeepsPreviews (g g' : Growth) : Prop extends SameRules g g' where
  proposals : g'.proposals = g.proposals
  limit : g'.limit = g.limit
  grows : ∃ added, g.store.Extends added g'.store

/-- The growth at which the previews were renewed last, after commands to `g`; before them, that was
`h`. -/
def lastRenewed (h g : Growth) : List Command → Growth
  | [] => h
  | c :: cs => lastRenewed (if g.renews c then g.perform c else h) (g.perform c) cs

/-! ### One command -/

lemma current_refresh (g : Growth) : g.refresh.Current := by
  rw [refresh_eq]
  exact Or.inr rfl

/-- After a command that renews them the previews are current. -/
lemma current_perform (hc : g.renews c = true) : (g.perform c).Current := by
  cases c with
  | plant shape => cases hc
  | start policy =>
    have hidle : ¬ g.isRunning = true := by simpa [renews] using hc
    rw [perform, start, if_neg hidle]
    exact Or.inl rfl
  | stop => exact Or.inl rfl
  | tick =>
    have hx : g.tick.1 = .exhausted := by simpa [renews] using hc
    rcases g.tick_cases with ⟨-, heq⟩ | ⟨-, generator, ⟨-, heq⟩ | ⟨c, -, heq⟩⟩
    · simp [heq] at hx
    · rw [perform, heq]
      exact Or.inl rfl
    · simp [heq] at hx
  | applyAt p =>
    have hidle : ¬ g.isRunning = true := by simpa [renews] using hc
    rw [perform, applyAt, if_neg hidle]
    dsimp only
    split
    · exact g.current_refresh
    · exact current_refresh _
  | refresh => exact g.current_refresh
  | setShowPreviews shown =>
    obtain rfl : shown = true := hc
    exact current_refresh _
  | setProductions productions => exact current_refresh _
  | reset => exact Or.inl rfl
  | install scene => exact current_refresh _

namespace KeepsPreviews

protected lemma refl (g : Growth) : g.KeepsPreviews g where
  region := rfl
  productions := rfl
  proposals := rfl
  limit := rfl
  grows := ⟨[], Store.Extends.refl _⟩

protected lemma trans {g' : Growth} (h₁ : h.KeepsPreviews g) (h₂ : g.KeepsPreviews g') :
    h.KeepsPreviews g' where
  region := h₂.region.trans h₁.region
  productions := h₂.productions.trans h₁.productions
  proposals := h₂.proposals.trans h₁.proposals
  limit := h₂.limit.trans h₁.limit
  grows := by
    obtain ⟨added, hadded⟩ := h₁.grows
    obtain ⟨more, hmore⟩ := h₂.grows
    exact ⟨added ++ more, hadded.trans hmore⟩

protected lemma plant (g : Growth) (shape : Shape) : g.KeepsPreviews (g.plant shape).2 where
  region := rfl
  productions := rfl
  proposals := rfl
  limit := rfl
  grows := g.store.exists_extends_insert g.region.admits shape

protected lemma tick (hx : g.tick.1 ≠ .exhausted) : g.KeepsPreviews g.tick.2 := by
  rcases g.tick_cases with ⟨-, heq⟩ | ⟨-, generator, ⟨-, heq⟩ | ⟨c, -, heq⟩⟩
  · rw [heq]
    exact .refl g
  · rw [heq] at hx
    exact absurd rfl hx
  · rw [heq]
    exact ⟨⟨rfl, rfl⟩, rfl, rfl, g.extends_apply c⟩

end KeepsPreviews

/-- A command that does not renew the previews keeps them, and adds to the store at most. -/
lemma keepsPreviews_perform (hc : g.renews c = false) : g.KeepsPreviews (g.perform c) := by
  cases c with
  | plant shape => exact .plant g shape
  | start policy =>
    have hrun : g.isRunning = true := by simpa [renews] using hc
    rw [perform, start, if_pos hrun]
    exact .refl g
  | tick => exact .tick (by simpa [renews] using hc)
  | applyAt p =>
    have hrun : g.isRunning = true := by simpa [renews] using hc
    rw [perform, applyAt, if_pos hrun]
    exact .refl g
  | setShowPreviews shown =>
    obtain rfl : shown = false := hc
    exact ⟨⟨rfl, rfl⟩, rfl, rfl, [], Store.Extends.refl _⟩
  | _ => cases hc

/-! ### Histories -/

/-- The last state with new previews is a state of the history, its previews were current, and the
growth has kept them since. -/
lemma lastRenewed_spec (hcurrent : h.Current) (hkeeps : h.KeepsPreviews g) (cs : List Command) :
    (h.lastRenewed g cs = h ∨ ∃ before, before <+: cs ∧ g.after before = h.lastRenewed g cs) ∧
      (h.lastRenewed g cs).Current ∧ (h.lastRenewed g cs).KeepsPreviews (g.after cs) := by
  induction cs generalizing g h with
  | nil => exact ⟨Or.inl rfl, hcurrent, hkeeps⟩
  | cons c cs ih =>
    by_cases hc : g.renews c = true
    · rw [lastRenewed, if_pos hc]
      obtain ⟨hwhen, hrest⟩ := ih (current_perform hc) (.refl (g.perform c))
      refine ⟨Or.inr ?_, hrest⟩
      rcases hwhen with hnow | ⟨before, hbefore, heq⟩
      · exact ⟨[c], ⟨cs, rfl⟩, hnow.symm⟩
      · exact ⟨c :: before, List.cons_prefix_cons.mpr ⟨rfl, hbefore⟩, heq⟩
    · have hkeeps' := hkeeps.trans (keepsPreviews_perform (Bool.eq_false_of_not_eq_true hc))
      rw [lastRenewed, if_neg hc]
      obtain ⟨hwhen, hrest⟩ := ih hcurrent hkeeps'
      refine ⟨hwhen.imp_right ?_, hrest⟩
      rintro ⟨before, hbefore, heq⟩
      exact ⟨c :: before, List.cons_prefix_cons.mpr ⟨rfl, hbefore⟩, heq⟩

/-! ### What makes previews stale -/

/-- Since `h`, whose previews `g` has, no key that they propose has been taken, and nothing that a
search would list now has come to be proposed. -/
structure Undisturbed (h g : Growth) : Prop where
  free : ∀ c ∈ g.proposals, ∀ shape ∈ c.additions, g.store.hasKey shape.key = false
  nothingNew : Search.NothingNew h.store g.store g.region.admits g.productions g.limit

/-- The preview search finds fewer proposals than it may keep. -/
def BelowLimit (g : Growth) : Prop :=
  ∀ n, g.limit = some n →
    (Search.allProposals g.store g.region.admits g.productions).length < n

lemma search_exhaustive (g : Growth) (limit : Option ℕ) :
    (g.search .exhaustive limit).1 =
      Search.cut limit (Search.allProposals g.store g.region.admits g.productions) := by
  rw [search, Search.run_exhaustive]

/-- A search would be under the rules and the limit of the last one. -/
lemma KeepsPreviews.search_eq (hkeeps : h.KeepsPreviews g) :
    (g.search .exhaustive g.limit).1 =
      Search.cut h.limit (Search.allProposals g.store h.region.admits h.productions) := by
  rw [search_exhaustive, hkeeps.limit, hkeeps.productions, hkeeps.region]

/-- Previews that nothing has disturbed are current. -/
lemma Undisturbed.current (hu : h.Undisturbed g) (hs : h.store.Consistent) (hcurrent : h.Current)
    (hkeeps : h.KeepsPreviews g) : g.Current := by
  obtain ⟨added, hext⟩ := hkeeps.grows
  obtain ⟨hfree, hnew⟩ := hu
  rcases hcurrent with hnil | hlist
  · exact Or.inl (hkeeps.proposals.trans hnil)
  · right
    rw [search_exhaustive] at hlist
    rw [hkeeps.proposals, hlist] at hfree
    rw [hkeeps.productions, hkeeps.region, hkeeps.limit] at hnew
    rw [hkeeps.proposals, hlist, hkeeps.search_eq]
    exact Search.cut_allProposals_eq hext hs hfree hnew

/-- Previews that are current have not been disturbed, if they were all that was proposed. -/
lemma undisturbed_of_current (hs : h.store.Consistent) (hcurrent : h.Current)
    (hkeeps : h.KeepsPreviews g) (hbelow : h.BelowLimit) (hg : g.Current)
    (hne : g.proposals ≠ []) : h.Undisturbed g := by
  obtain ⟨added, hext⟩ := hkeeps.grows
  have hthen : g.proposals = Search.allProposals h.store h.region.admits h.productions := by
    have hlist := hcurrent.resolve_left (hkeeps.proposals ▸ hne)
    rw [hkeeps.proposals, hlist, search_exhaustive]
    refine Search.cut_eq_self fun n hn => ?_
    exact (Search.cut_sublist _ _).length_le.trans_lt (hbelow n hn)
  have hnow : g.proposals = Search.allProposals g.store h.region.admits h.productions := by
    have hlist := (hg.resolve_left hne).trans hkeeps.search_eq
    rw [hlist]
    refine Search.cut_eq_self fun n hn => ?_
    rw [← hlist, hthen]
    exact hbelow n hn
  obtain ⟨hfree, hnew⟩ := (Search.allProposals_eq_iff hext hs).mp (hthen.symm.trans hnow)
  refine ⟨?_, ?_⟩
  · rw [hthen]
    exact hfree
  · rw [hkeeps.productions, hkeeps.region]
    exact hnew.cut g.limit

/-- What the previews propose is still free exactly if no polygon that was added since has a key
that they propose. -/
lemma free_iff_not_added (hs : h.store.Consistent) (hcurrent : h.Current)
    (hkeeps : h.KeepsPreviews g) :
    (∀ c ∈ g.proposals, ∀ shape ∈ c.additions, g.store.hasKey shape.key = false) ↔
      ∀ q ∈ g.store.toList, q ∉ h.store.toList →
        ∀ c ∈ g.proposals, ∀ shape ∈ c.additions, shape.key ≠ q.key := by
  obtain ⟨added, hext⟩ := hkeeps.grows
  have hbefore : ∀ c ∈ g.proposals, ∀ shape ∈ c.additions, h.store.hasKey shape.key = false := by
    intro c hc shape hshape
    rw [hkeeps.proposals] at hc
    rcases hcurrent with hnil | hlist
    · rw [hnil] at hc
      exact absurd hc List.not_mem_nil
    · rw [hlist] at hc
      obtain ⟨p, -, anchor, -, hpropose⟩ := exists_propose_of_mem_search hc
      exact (Search.of_mem_additions hpropose hshape).2.1
  constructor
  · intro hfree q hq hnew c hc shape hshape hkey
    have htaken : g.store.hasKey shape.key = true :=
      (hext.hasKey_iff_or _).mpr (Or.inr ⟨q, (hext.mem_added_iff hs).mpr ⟨hq, hnew⟩, hkey.symm⟩)
    rw [hfree c hc shape hshape] at htaken
    exact Bool.false_ne_true htaken
  · intro hnone c hc shape hshape
    by_contra htaken
    rcases (hext.hasKey_iff_or _).mp (Bool.eq_true_of_not_eq_false htaken) with hold | ⟨q, hq, hkey⟩
    · rw [hbefore c hc shape hshape] at hold
      exact Bool.false_ne_true hold
    · obtain ⟨hmem, hnew⟩ := (hext.mem_added_iff hs).mp hq
      exact hnone q hmem hnew c hc shape hshape hkey.symm

/-- Take any history, and the state of it in which the previews were renewed last.  The previews
were current then, they are the same now, and the store has only been added to since.  They are
current still if nothing has disturbed them; and if there are any, and the limit has left none out,
only then.  No preview proposes a shape whose key is taken exactly if no polygon that was added
since has the key of a shape that is proposed. -/
theorem previews_current_as_long_as_undisturbed (region : Region) (productions : List Production)
    (seed : UInt64) (limit : Option ℕ) (cs : List Command) :
    let start := new region productions seed limit
    let h := start.lastRenewed start cs
    let g := start.after cs
    (∃ before, before <+: cs ∧ start.after before = h) ∧ h.Current ∧ h.KeepsPreviews g ∧
      (h.Undisturbed g → g.Current) ∧
      (h.BelowLimit → (g.Current ↔ g.proposals = [] ∨ h.Undisturbed g)) ∧
      ((∀ c ∈ g.proposals, ∀ shape ∈ c.additions, g.store.hasKey shape.key = false) ↔
        ∀ q ∈ g.store.toList, q ∉ h.store.toList →
          ∀ c ∈ g.proposals, ∀ shape ∈ c.additions, shape.key ≠ q.key) := by
  intro start h g
  obtain ⟨hwhen, hcurrent, hkeeps⟩ :=
    lastRenewed_spec (Or.inl rfl : start.Current) (.refl start) cs
  have hbefore : ∃ before, before <+: cs ∧ start.after before = h := by
    rcases hwhen with hstart | hlater
    · exact ⟨[], List.nil_prefix, hstart.symm⟩
    · exact hlater
  have hs : h.store.Consistent := by
    obtain ⟨before, -, heq⟩ := hbefore
    exact Reachable.consistent ⟨region, productions, seed, limit, before, heq⟩
  refine ⟨hbefore, hcurrent, hkeeps, fun hu => hu.current hs hcurrent hkeeps, ?_,
    free_iff_not_added hs hcurrent hkeeps⟩
  intro hbelow
  constructor
  · intro hg
    by_cases hnil : g.proposals = []
    · exact Or.inl hnil
    · exact Or.inr (undisturbed_of_current hs hcurrent hkeeps hbelow hg hnil)
  · rintro (hnil | hu)
    · exact Or.inl hnil
    · exact hu.current hs hcurrent hkeeps

/-! ### Squares in a row -/

/-- A growth of squares to the right, on a canvas as high as a square. -/
def row (width : Float) : Growth :=
  new (.canvas width 1) [squareBeside 1 1 0] 0 (some defaultLimit)

/-- A square at the left end, a preview search, and then a square at the right end, with room for
one more between them. -/
def plantEnds : List Command := [.plant (square 0 0 1), .refresh, .plant (square 2 0 1)]

theorem previews_between_ends_are_current :
    let h := (row 3).lastRenewed (row 3) plantEnds
    let g := (row 3).after plantEnds
    h.BelowLimit ∧ h.Undisturbed g ∧ g.Current ∧ g.previews.length = 1 ∧
      h.store.size = 1 ∧ g.store.size = 2 := by
  intro h g
  have hrow :
      (Search.allProposals h.store h.region.admits h.productions).length < defaultLimit ∧
      (Search.allProposals h.store h.region.admits h.productions).length =
        (Search.allProposals g.store h.region.admits h.productions).length ∧
      (∀ c ∈ Search.allProposals h.store h.region.admits h.productions,
        ∀ shape ∈ c.additions, g.store.hasKey shape.key = false) ∧
      (∀ c ∈ g.proposals, ∀ shape ∈ c.additions, g.store.hasKey shape.key = false) ∧
      g.previews.length = 1 ∧ h.store.size = 1 ∧ g.store.size = 2 := by
    decide +kernel
  obtain ⟨hless, hlength, hall, hfree, hsizes⟩ := hrow
  have hbelow : h.BelowLimit := by
    intro n hn
    obtain rfl : defaultLimit = n := Option.some.inj hn
    exact hless
  obtain ⟨⟨before, -, hbefore⟩, -, hkept, hstill, -, -⟩ :=
    previews_current_as_long_as_undisturbed (.canvas 3 1) [squareBeside 1 1 0] 0
      (some defaultLimit) plantEnds
  have hkeeps : h.KeepsPreviews g := hkept
  have hs : h.store.Consistent := Reachable.consistent ⟨_, _, _, _, before, hbefore⟩
  obtain ⟨added, hext⟩ := hkeeps.grows
  have hsame : Search.allProposals h.store h.region.admits h.productions =
      Search.allProposals g.store h.region.admits h.productions :=
    (Search.allProposals_sublist hext hall).eq_of_length hlength
  have hu : h.Undisturbed g := by
    obtain ⟨-, hnew⟩ := (Search.allProposals_eq_iff hext hs).mp hsame
    refine ⟨hfree, ?_⟩
    rw [hkeeps.region, hkeeps.productions]
    exact hnew.cut g.limit
  exact ⟨hbelow, hu, hstill hu, hsizes⟩

/-- A run with previews switched on, up to the tick that fills a row for two. -/
def watchedRun : List Command :=
  [.plant (square 0 0 1), .start .first, .setShowPreviews true, .tick]

/-- A row for two filled by hand, after a preview search. -/
def plantBoth : List Command := [.plant (square 0 0 1), .refresh, .plant (square 1 0 1)]

/-- A growth that previews something, and would find nothing now, is not current. -/
lemma not_current (hsome : g.proposals.length ≠ 0)
    (hnone : (g.search .exhaustive g.limit).1.length = 0) : ¬ g.Current := by
  rintro (hnil | hlist)
  · rw [hnil] at hsome
    exact hsome rfl
  · rw [hlist] at hsome
    exact hsome hnone

theorem previews_of_full_rows_are_stale :
    (((row 2).after watchedRun).Reachable ∧ ¬ ((row 2).after watchedRun).Current ∧
      ∃ c ∈ ((row 2).after watchedRun).previews, ∃ shape ∈ c.additions,
        ((row 2).after watchedRun).store.hasKey shape.key = true) ∧
    ((row 2).after plantBoth).Reachable ∧ ¬ ((row 2).after plantBoth).Current ∧
      ∃ c ∈ ((row 2).after plantBoth).previews, ∃ shape ∈ c.additions,
        ((row 2).after plantBoth).store.hasKey shape.key = true := by
  have hrun : ((row 2).after watchedRun).proposals.length ≠ 0 ∧
      (((row 2).after watchedRun).search .exhaustive
        ((row 2).after watchedRun).limit).1.length = 0 ∧
      ∃ c ∈ ((row 2).after watchedRun).previews, ∃ shape ∈ c.additions,
        ((row 2).after watchedRun).store.hasKey shape.key = true := by
    decide +kernel
  have hboth : ((row 2).after plantBoth).proposals.length ≠ 0 ∧
      (((row 2).after plantBoth).search .exhaustive
        ((row 2).after plantBoth).limit).1.length = 0 ∧
      ∃ c ∈ ((row 2).after plantBoth).previews, ∃ shape ∈ c.additions,
        ((row 2).after plantBoth).store.hasKey shape.key = true := by
    decide +kernel
  obtain ⟨hrunSome, hrunNone, hrunTaken⟩ := hrun
  obtain ⟨hbothSome, hbothNone, hbothTaken⟩ := hboth
  exact ⟨⟨⟨_, _, _, _, watchedRun, rfl⟩, not_current hrunSome hrunNone, hrunTaken⟩,
    ⟨_, _, _, _, plantBoth, rfl⟩, not_current hbothSome hbothNone, hbothTaken⟩

end Growth

end ShapeGrammar
