import ShapeGrammar.Proofs.Growth.History

/-!
# Growth is sound

Whenever a growth reports that it applied a production, whether in a tick or by hand, it did what a
production says: the pattern was there under one similarity, and images of results under the same
similarity were added, and nothing else happened to the store.  New polygons get numbers above all
that were handed out before.
-/

namespace ShapeGrammar

namespace Growth

variable {g g' : Growth} {c : Proposal} {report : Report}

/-- The two ways in which a growth can report an application: in a tick, or by hand. -/
def Reports (g : Growth) (report : Report) (g' : Growth) : Prop :=
  g.tick = (.applied report, g') ∨ ∃ point, g.applyAt point = (some report, g')

lemma Reports.of_tick (h : g.tick.1 = .applied report) : g.Reports report g.tick.2 :=
  Or.inl (Prod.ext h rfl)

/-- Behind every report there is a proposal of a production at an anchor, for the store as it was
before, and it has been applied. -/
lemma Reports.exists_propose (h : g.Reports report g') :
    ∃ p ∈ g.productions, ∃ anchor ∈ g.store.toList, ∃ c,
      Search.propose g.store g.region.admits p anchor = some c ∧
        report = (g.apply c).1 ∧ g'.store = (g.apply c).2.store := by
  have hproposal : ∃ sampling limit, ∃ c ∈ (g.search sampling limit).1,
      report = (g.apply c).1 ∧ g'.store = (g.apply c).2.store := by
    rcases h with h | ⟨point, h⟩
    · rcases g.tick_cases with ⟨-, heq⟩ | ⟨-, generator, ⟨-, heq⟩ | ⟨c, hc, heq⟩⟩
      · rw [heq] at h
        cases h
      · rw [heq] at h
        cases h
      · rw [heq] at h
        obtain ⟨hreport, rfl⟩ := Prod.mk.inj h
        exact ⟨_, _, c, hc, (Outcome.applied.inj hreport).symm, rfl⟩
    · rcases g.applyAt_cases point with ⟨hnone, -⟩ | ⟨c, hc, hsome, hstore⟩
      · rw [h] at hnone
        cases hnone
      · rw [h] at hsome hstore
        exact ⟨_, _, c, hc, Option.some.inj hsome, hstore⟩
  obtain ⟨sampling, limit, c, hc, hreport, hstore⟩ := hproposal
  obtain ⟨p, hp, anchor, hanchor, hpropose⟩ := exists_propose_of_mem_search hc
  exact ⟨p, hp, anchor, hanchor, c, hpropose, hreport, hstore⟩

/-- Let a growth with any history report the application of a production.  The production is one of
its current ones.  There is one similarity, of finite scale above zero, under which the polygons
found have the keys of the pattern, shape by shape, and under which every polygon added is the image
of a result.  At least one polygon is added; the numbers of those added follow each other, above
those of all polygons that were there in any earlier state.  The store afterwards is the store
before, with all its polygons in their order, and the polygons added. -/
theorem reports_describe_applications {region : Region} {productions : List Production}
    {seed : UInt64} {limit : Option ℕ} {cs : List Command}
    (hg : (new region productions seed limit).after cs = g) (h : g.Reports report g') :
    ∃ p ∈ g.productions, ∃ (t : Similarity) (found added : List Polygon),
      report = ⟨p.id, found.map Polygon.id, added.map Polygon.id⟩ ∧
      t.scale.isFinite = true ∧ 0 < t.scale ∧
      List.Forall₂ (fun m q => q ∈ g.store.toList ∧ q.key = m.keyUnder t) p.pattern found ∧
      (∀ q ∈ added, ∃ r ∈ p.result, q.shape = r.under t) ∧
      added ≠ [] ∧
      (∃ first, added.map Polygon.id = List.range' first added.length ∧
        ∀ n, ∀ q ∈ ((new region productions seed limit).after (cs.take n)).store.toList,
          q.id < first) ∧
      g'.store.toList.Perm (g.store.toList ++ added) ∧ g.store.toList.Sublist g'.store.toList ∧
      ∀ k q, g'.store.lookup k = some q ↔ g.store.lookup k = some q ∨ q ∈ added ∧ q.key = k := by
  have hreach : ∀ ds, ((new region productions seed limit).after ds).store.Consistent :=
    fun ds => Reachable.consistent ⟨region, productions, seed, limit, ds, rfl⟩
  have hs : g.store.Consistent := hg ▸ hreach cs
  obtain ⟨p, hp, anchor, -, c, hpropose, rfl, hstore⟩ := h.exists_propose
  obtain ⟨-, halign, hfound, -, -⟩ := Search.propose_eq_some_iff.mp hpropose
  obtain ⟨hfin, hpos⟩ := Search.scale_of_alignment halign
  obtain ⟨added, hext, hreport, hne, hshapes, -⟩ := exists_extends_apply hpropose
  rw [hstore]
  refine ⟨p, hp, c.similarity, c.found, added, hreport, hfin, hpos,
    Search.forall₂_of_findAll hs hfound, ?_, hne, ⟨g.store.nextId, hext.ids, ?_⟩, hext.perm,
    hext.sublist, hext.lookup_iff⟩
  · intro q hq
    exact (Search.of_mem_additions hpropose (hshapes q hq)).2.2
  · intro n q hq
    have hle := nextId_after_take_le (hreach []) cs n
    rw [after_nil, hg] at hle
    exact Nat.lt_of_lt_of_le ((hreach (cs.take n)).id_lt q hq) hle

/-! ### A row of squares -/

/-- A growth that was reset once and then started, with a square of side two. -/
def rowOfSquares : Growth :=
  (new (.canvas 8 8) [squareBeside 1 1 0] 0 none).after
    [.plant (square 0 0 1), .reset, .plant (square 2 2 2), .start .weighted]

theorem report_on_rowOfSquares :
    rowOfSquares.Reports ⟨1, [2], [3]⟩ rowOfSquares.tick.2 ∧
    ∃ (t : Similarity) (added : List Polygon), 0 < t.scale ∧ added.map Polygon.id = [3] ∧
      (∀ q ∈ added, q.shape = (square 1 0 1).under t) ∧
      rowOfSquares.tick.2.store.toList.Perm (rowOfSquares.store.toList ++ added) := by
  have htick : rowOfSquares.tick.1 = .applied ⟨1, [2], [3]⟩ := by decide +kernel
  have hreports := Reports.of_tick htick
  obtain ⟨p, hp, t, found, added, hreport, -, hpos, -, hshapes, -, -, hperm, -⟩ :=
    reports_describe_applications (g := rowOfSquares) rfl hreports
  have hproductions : rowOfSquares.productions = [squareBeside 1 1 0] :=
    productions_after (by simp [Command.KeepsProductions]) _
  rw [hproductions, List.mem_singleton] at hp
  refine ⟨hreports, t, added, hpos, (Report.mk.inj hreport).2.2.symm, ?_, hperm⟩
  intro q hq
  obtain ⟨r, hr, heq⟩ := hshapes q hq
  rw [hp] at hr
  rw [heq, List.mem_singleton.mp hr]

end Growth

end ShapeGrammar
