import ShapeGrammar.Proofs.Enumeration.Proposals
import ShapeGrammar.Proofs.Shape.Exact

/-!
# Enumeration and search

Where all first edges have one length, a search moves patterns without a change of scale, just as an
enumeration does.  If the coordinates are exact as well (`Enumeration.Exact`), the two place the
shapes of a production alike, and differ in one respect only.  A search takes any polygon of the
store as anchor and may find a polygon for several shapes of the pattern.  An enumeration tries
subsets of the store, led by one of their members: it comes upon a proposal exactly if the polygons
found are distinct and one of them starts where the pattern starts (`Proposal.Led`).
-/

namespace ShapeGrammar

/-! ### Moving without a change of scale -/

namespace Similarity

/-- The similarity moves by `d` and does not scale. -/
structure MovesBy (t : Similarity) (d : ℚ × ℚ) : Prop where
  scale : t.scale = 1
  displacement : (Point.mk t.dx t.dy).HasValue d

variable {t t' : Similarity} {d d' : ℚ × ℚ} {s : Shape}

/-- Similarities that move alike give the same key. -/
lemma MovesBy.keyUnder_eq (ht : t.MovesBy d) (ht' : t'.MovesBy d) (hs : s.MovesOnGrid d) :
    s.keyUnder t = s.keyUnder t' := by
  unfold Shape.keyUnder
  rw [ht.scale, ht'.scale]
  exact Shape.keyAt_congr hs ht.displacement ht'.displacement

/-- Similarities that give the same key move alike. -/
lemma MovesBy.unique (ht : t.MovesBy d) (ht' : t'.MovesBy d') (hs : s.MovesOnGrid d)
    (hs' : s.MovesOnGrid d') (h : s.keyUnder t = s.keyUnder t') : d = d' := by
  unfold Shape.keyUnder at h
  rw [ht.scale, ht'.scale] at h
  exact Shape.displacement_unique hs hs' ht.displacement ht'.displacement h

/-- A shape that is moved onto the grid has the key of the shape moved with no regard to it. -/
lemma MovesBy.key_under_eq (ht : t.MovesBy d) (ht' : t'.MovesBy d) (hs : s.MovesOnGrid d) :
    (s.under t).key = (s.shifted t'.dx t'.dy).key := by
  unfold Shape.under
  rw [ht.scale]
  exact (Shape.hasValues_placed hs ht.displacement).key_eq
    (Shape.hasValues_shifted hs ht'.displacement)

/-- A region admits both or none of the two. -/
lemma MovesBy.admits_under_eq (ht : t.MovesBy d) (ht' : t'.MovesBy d) (hs : s.MovesOnGrid d)
    (r : Region) : r.admits (s.under t) = r.admits (s.shifted t'.dx t'.dy) := by
  unfold Shape.under
  rw [ht.scale]
  exact (Shape.hasValues_placed hs ht.displacement).admits_eq
    (Shape.hasValues_shifted hs ht'.displacement) r

/-- The image of a vertex is where it was moved. -/
lemma MovesBy.apply (ht : t.MovesBy d) (hs : s.MovesOnGrid d) {p : Point} (hp : p ∈ s.vertices) :
    (t.apply p).HasValue (p.value + d) := by
  obtain ⟨hfinite, hgrid⟩ := hs p hp
  unfold Similarity.apply
  rw [ht.scale]
  exact (Point.hasValue_value hfinite).scaleShift_one ht.displacement hgrid

end Similarity

/-- The first vertex is a vertex. -/
lemma Shape.origin_mem (s : Shape) : s.origin ∈ s.vertices := List.get_mem _ _

namespace Enumeration

/-- Nothing is rounded off when the production is moved, without a change of scale, from the first
vertex of its pattern to that of a polygon in the store: the displacement is on the grid, and so are
the images of all vertices. -/
structure Exact (store : Store) (p : Production) : Prop where
  anchors : ∀ q ∈ store.toList, q.shape.origin.isFinite = true
  displacements : ∀ m ∈ p.pattern.head?, ∀ q ∈ store.toList,
    OnGridPoint (q.shape.origin.value - m.origin.value)
  images : ∀ m ∈ p.pattern.head?, ∀ q ∈ store.toList, ∀ s ∈ p.pattern ++ p.result,
    s.MovesOnGrid (q.shape.origin.value - m.origin.value)

/-- Nothing is rounded off where all coordinates are moderate. -/
lemma exact_of_moderate {store : Store} {p : Production}
    (hstore : ∀ q ∈ store.toList, q.shape.origin.Moderate)
    (hrule : ∀ s ∈ p.pattern ++ p.result, ∀ v ∈ s.vertices, v.Moderate) : Exact store p := by
  have horigin : ∀ m ∈ p.pattern.head?, m.origin.Moderate := by
    intro m hm
    exact hrule m (List.mem_append_left _ (List.mem_of_mem_head? hm)) m.origin m.origin_mem
  refine ⟨fun q hq => (hstore q hq).isFinite, fun m hm q hq => ?_, fun m hm q hq s hs v hv => ?_⟩
  · obtain ⟨hx, hy⟩ := hstore q hq
    obtain ⟨hx', hy'⟩ := horigin m hm
    exact ⟨(onGrid_of_moderate hx hx hx').1, (onGrid_of_moderate hy hy hy').1⟩
  · obtain ⟨hx, hy⟩ := hstore q hq
    obtain ⟨hx', hy'⟩ := horigin m hm
    have hvertex := hrule s hs v hv
    exact ⟨hvertex.isFinite, (onGrid_of_moderate hvertex.1 hx hx').2,
      (onGrid_of_moderate hvertex.2 hy hy').2⟩

/-- All first edges that a search compares have this length, which is finite and not zero. -/
structure OneLength (store : Store) (ps : List Production) (length : Float) : Prop where
  isFinite : length.isFinite = true
  pos : 0 < length
  stored : ∀ q ∈ store.toList, q.shape.referenceEdge = length
  ruled : ∀ p ∈ ps, ∀ m ∈ p.pattern.head?, m.referenceEdge = length

section Aligned

variable {store : Store} {ps : List Production} {length : Float} {p : Production} {m : Shape}
  {q : Polygon} (hexact : Exact store p) (hm : m ∈ p.pattern.head?) (hq : q ∈ store.toList)

include hexact hm hq

lemma hasValue_origins : q.shape.origin.HasValue q.shape.origin.value ∧
    m.origin.HasValue m.origin.value := by
  have hmem : m ∈ p.pattern := List.mem_of_mem_head? hm
  have hmoves := hexact.images m hm q hq m (List.mem_append_left _ hmem)
  exact ⟨Point.hasValue_value (hexact.anchors q hq),
    Point.hasValue_value (hmoves m.origin m.origin_mem).1⟩

/-- The enumeration moves by the difference of the first vertices. -/
lemma movesBy_shiftTo : (shiftTo m q).MovesBy (q.shape.origin.value - m.origin.value) := by
  obtain ⟨hanchor, hpattern⟩ := hasValue_origins hexact hm hq
  exact ⟨rfl, hanchor.sub hpattern (hexact.displacements m hm q hq)⟩

/-- The search does so as well. -/
lemma movesBy_fitting (hL : OneLength store ps length) (hp : p ∈ ps) :
    (Search.fitting m q.shape).MovesBy (q.shape.origin.value - m.origin.value) := by
  obtain ⟨hanchor, hpattern⟩ := hasValue_origins hexact hm hq
  have hscale : q.shape.referenceEdge / m.referenceEdge = 1 := by
    rw [hL.stored q hq, hL.ruled p hp m hm]
    have hvalue : Number.HasValue length (Number.value length) := ⟨hL.isFinite, rfl⟩
    exact hvalue.div_self_eq_one (Number.value_ne_zero_of_pos hL.isFinite hL.pos)
  refine ⟨hscale, ?_⟩
  unfold Search.fitting
  rw [hscale]
  have hgrid := hexact.displacements m hm q hq
  have hscaled : (Point.mk (m.origin.x * 1) (m.origin.y * 1)).HasValue m.origin.value :=
    ⟨hpattern.x.times_one, hpattern.y.times_one⟩
  exact (hanchor.sub hscaled hgrid).snapped hgrid

/-- The first pattern shape can be taken to every anchor. -/
lemma fits_of_oneLength (hL : OneLength store ps length) (hp : p ∈ ps) :
    Search.Fits m q.shape := by
  have hscale := (movesBy_fitting hexact hm hq hL hp).scale
  have hpos : (0 : Float) < 1 := by decide +kernel
  refine ⟨hL.ruled p hp m hm ▸ hL.pos, ?_, hscale ▸ rfl, hscale ▸ hpos⟩
  rw [hL.stored q hq, Bool.eq_false_iff]
  intro hzero
  have hvalue := Number.hasValue_zero.of_beq hzero
  exact Number.value_ne_zero_of_pos hL.isFinite hL.pos hvalue.value_eq

end Aligned

end Enumeration

/-! ### What is compared -/

namespace Proposal

/-- The polygons found are distinct, and one of them starts where the first vertex of the pattern
comes to lie. -/
def Led (c : Proposal) : Prop :=
  (c.found.map Polygon.key).Nodup ∧ ∃ m ∈ c.production.pattern.head?, ∃ q ∈ c.found,
    q.shape.origin.Equal (c.similarity.apply m.origin)

instance : DecidablePred Led := fun c =>
  inferInstanceAs (Decidable ((c.found.map Polygon.key).Nodup ∧
    ∃ m ∈ c.production.pattern.head?, ∃ q ∈ c.found,
      q.shape.origin.Equal (c.similarity.apply m.origin)))

end Proposal

namespace Enumeration

/-- The proposals of a search, as far as they are compared. -/
def searched (store : Store) (ps : List Production) (admits : Shape → Bool) (g : Generator) :
    Finset Proposal.Summary :=
  ((Search.run store ps admits .exhaustive none g).1.map Proposal.summary).toFinset

/-- The proposals of an enumeration, as far as they are compared. -/
def enumerated (store : Store) (ps : List Production) (admits : Shape → Bool) :
    Finset Proposal.Summary :=
  ((run store ps admits).map Proposal.summary).toFinset

lemma mem_searched_iff {store : Store} {ps : List Production} {admits : Shape → Bool}
    {g : Generator} {x : Proposal.Summary} : x ∈ searched store ps admits g ↔
      ∃ c ∈ (Search.run store ps admits .exhaustive none g).1, c.summary = x := by
  rw [searched, List.mem_toFinset, List.mem_map]

lemma mem_enumerated_iff {store : Store} {ps : List Production} {admits : Shape → Bool}
    {x : Proposal.Summary} : x ∈ enumerated store ps admits ↔
      ∃ c ∈ run store ps admits, c.summary = x := by
  rw [enumerated, List.mem_toFinset, List.mem_map]

section Agreement

variable {store : Store} {ps : List Production} {length : Float} {p : Production} {m : Shape}
  {q : Polygon} {region : Region} {c : Proposal} (hexact : Exact store p)
  (hL : OneLength store ps length) (hp : p ∈ ps) (hm : m ∈ p.pattern.head?) (hq : q ∈ store.toList)

include hexact hL hp hm hq

/-- The first vertex of the pattern is taken to that of the anchor. -/
lemma hasValue_apply_fitting :
    ((Search.fitting m q.shape).apply m.origin).HasValue q.shape.origin.value := by
  have hmem : m ∈ p.pattern := List.mem_of_mem_head? hm
  have hmoves := hexact.images m hm q hq m (List.mem_append_left _ hmem)
  have happly := (movesBy_fitting hexact hm hq hL hp).apply hmoves m.origin_mem
  rwa [add_sub_cancel] at happly

/-- What an enumeration finds with a leader, a search finds with the leader as anchor. -/
lemma exists_led_counterpart (hlead : q ∈ c.found) (hnodup : (c.found.map Polygon.key).Nodup)
    (hc : c.Realizes store region.admits p (shiftTo m q) (shiftImage m q)) :
    ∃ c' : Proposal, c'.Realizes store region.admits p (Search.fitting m q.shape)
      (fun r => r.under (Search.fitting m q.shape)) ∧ c'.Led ∧ c'.summary = c.summary := by
  have hmoves := hexact.images m hm q hq
  have ht := movesBy_fitting hexact hm hq hL hp
  have ht' := movesBy_shiftTo hexact hm hq
  obtain ⟨c', hc', hfound, hsummary⟩ := hc.exists_counterpart
    (fun r => r.under (Search.fitting m q.shape))
    (fun s hs => ht'.keyUnder_eq ht (hmoves s (List.mem_append_left _ hs)))
    (fun s hs => (ht.key_under_eq ht' (hmoves s (List.mem_append_right _ hs))).symm)
    (fun s hs => (ht.admits_under_eq ht' (hmoves s (List.mem_append_right _ hs)) region).symm)
  refine ⟨c', hc', ⟨hfound ▸ hnodup, m, hc'.production ▸ hm, q, hfound ▸ hlead, ?_⟩, hsummary⟩
  rw [hc'.similarity]
  exact (hasValue_origins hexact hm hq).1.equal (hasValue_apply_fitting hexact hL hp hm hq)

/-- What a search finds and a polygon leads, an enumeration finds with that polygon as leader. -/
lemma exists_leader_counterpart (hled : c.Led)
    (hc : c.Realizes store region.admits p (Search.fitting m q.shape)
      fun r => r.under (Search.fitting m q.shape)) :
    ∃ leader, ∃ c' : Proposal, leader ∈ c'.found ∧ (c'.found.map Polygon.key).Nodup ∧
      c'.Realizes store region.admits p (shiftTo m leader) (shiftImage m leader) ∧
      c'.summary = c.summary := by
  obtain ⟨hnodup, m', hm', leader, hlead, hstart⟩ := hled
  obtain rfl : m = m' := by
    rw [hc.production] at hm'
    exact Option.mem_unique hm hm'
  have hleader : leader ∈ store.toList := Search.mem_of_forall₂ hc.found hlead
  -- The leader starts where the anchor starts.
  have hvalue : leader.shape.origin.value = q.shape.origin.value := by
    rw [hc.similarity] at hstart
    exact ((hasValue_apply_fitting hexact hL hp hm hq).of_equal hstart).value_eq
  have hmoves := hexact.images m hm q hq
  have ht := movesBy_fitting hexact hm hq hL hp
  have ht' := movesBy_shiftTo hexact hm hleader
  rw [hvalue] at ht'
  obtain ⟨c', hc', hfound, hsummary⟩ := hc.exists_counterpart
    (shiftImage m leader)
    (fun s hs => ht.keyUnder_eq ht' (hmoves s (List.mem_append_left _ hs)))
    (fun s hs => ht.key_under_eq ht' (hmoves s (List.mem_append_right _ hs)))
    (fun s hs => ht.admits_under_eq ht' (hmoves s (List.mem_append_right _ hs)) region)
  exact ⟨leader, c', hfound ▸ hlead, hfound ▸ hnodup, hc', hsummary⟩

/-- Of two proposals of one production that find the same keys, both are led or none. -/
lemma led_of_summary_eq (hs : store.Consistent) {anchor : Polygon} {c' : Proposal}
    (hanchor : anchor ∈ store.toList)
    (hc : c.Realizes store region.admits p (Search.fitting m q.shape)
      fun r => r.under (Search.fitting m q.shape))
    (hc' : c'.Realizes store region.admits p (Search.fitting m anchor.shape)
      fun r => r.under (Search.fitting m anchor.shape))
    (h : c'.summary = c.summary) (hled : c'.Led) : c.Led := by
  obtain ⟨hnodup, m', hm', leader, hlead, hstart⟩ := hled
  obtain rfl : m = m' := by
    rw [hc'.production] at hm'
    exact Option.mem_unique hm hm'
  have hmem : m ∈ p.pattern := List.mem_of_mem_head? hm
  have hkeys : c'.found.map Polygon.key = c.found.map Polygon.key := congrArg (fun x => x.2.1) h
  -- The key of the first pattern shape tells how far both have moved it.
  have hvalue : anchor.shape.origin.value = q.shape.origin.value := by
    have hpattern := hkeys
    rw [Search.map_key_of_forall₂ hc.found, Search.map_key_of_forall₂ hc'.found,
      List.map_inj_left] at hpattern
    have hdisplacement := (movesBy_fitting hexact hm hanchor hL hp).unique
      (movesBy_fitting hexact hm hq hL hp)
      (hexact.images m hm anchor hanchor m (List.mem_append_left _ hmem))
      (hexact.images m hm q hq m (List.mem_append_left _ hmem)) (hpattern m hmem)
    exact sub_left_injective hdisplacement
  refine ⟨hkeys ▸ hnodup, m, hc.production ▸ hm, leader, ?_, ?_⟩
  · have hkey : leader.key ∈ c.found.map Polygon.key := hkeys ▸ List.mem_map_of_mem hlead
    obtain ⟨q', hq', heq⟩ := List.mem_map.mp hkey
    rwa [hs.eq_of_key_eq (Search.mem_of_forall₂ hc'.found hlead)
      (Search.mem_of_forall₂ hc.found hq') heq.symm]
  · rw [hc'.similarity] at hstart
    have hleader := (hasValue_apply_fitting hexact hL hp hm hanchor).of_equal hstart
    rw [hvalue] at hleader
    rw [hc.similarity]
    exact hleader.equal (hasValue_apply_fitting hexact hL hp hm hq)

end Agreement

/-- Let all first edges of a store and of the patterns have one length, and let nothing be rounded
off when patterns and results are moved from one to the other.  Then an enumeration finds, up to
what is compared, those proposals of an exhaustive search in which the polygons found are distinct
and one of them starts where the first vertex of the pattern comes to lie.  If the productions have
different numbers, enumeration and search agree exactly if all proposals of the search are of this
kind. -/
theorem enumeration_finds_what_is_led {store : Store} (h : store.Reachable) {ps : List Production}
    {length : Float} (hL : OneLength store ps length) (hexact : ∀ p ∈ ps, Exact store p)
    (region : Region) (g : Generator) :
    (∀ x, x ∈ enumerated store ps region.admits ↔
      ∃ c ∈ (Search.run store ps region.admits .exhaustive none g).1, c.Led ∧ c.summary = x) ∧
    ((ps.map Production.id).Nodup →
      (searched store ps region.admits g = enumerated store ps region.admits ↔
        ∀ c ∈ (Search.run store ps region.admits .exhaustive none g).1, c.Led)) := by
  have hs : store.Consistent := h.consistent
  have henumerated : ∀ x, x ∈ enumerated store ps region.admits ↔
      ∃ c ∈ (Search.run store ps region.admits .exhaustive none g).1, c.Led ∧ c.summary = x := by
    intro x
    rw [mem_enumerated_iff]
    constructor
    · rintro ⟨e, he, rfl⟩
      obtain ⟨p, hp, m, hm, q, hlead, hnodup, hrealizes⟩ := (mem_run_iff hs).mp he
      have hq : q ∈ store.toList := Search.mem_of_forall₂ hrealizes.found hlead
      obtain ⟨c, hc, hled, hsummary⟩ :=
        exists_led_counterpart (hexact p hp) hL hp hm hq hlead hnodup hrealizes
      have hfits := fits_of_oneLength (hexact p hp) hm hq hL hp
      exact ⟨c, (Search.mem_run_exhaustive_iff hs).mpr ⟨p, hp, m, hm, q, hq, hfits, hc⟩, hled,
        hsummary⟩
    · rintro ⟨c, hc, hled, rfl⟩
      obtain ⟨p, hp, m, hm, anchor, hanchor, -, hrealizes⟩ :=
        (Search.mem_run_exhaustive_iff hs).mp hc
      obtain ⟨q, e, hlead, hnodup, he, hsummary⟩ :=
        exists_leader_counterpart (hexact p hp) hL hp hm hanchor hled hrealizes
      exact ⟨e, (mem_run_iff hs).mpr ⟨p, hp, m, hm, q, hlead, hnodup, he⟩, hsummary⟩
  refine ⟨henumerated, fun hids => ⟨fun hagree c hc => ?_, fun hall => ?_⟩⟩
  · have hmem : c.summary ∈ enumerated store ps region.admits := by
      rw [← hagree, mem_searched_iff]
      exact ⟨c, hc, rfl⟩
    obtain ⟨c', hc', hled, hsummary⟩ := (henumerated c.summary).mp hmem
    obtain ⟨p, hp, m, hm, anchor, hanchor, -, hrealizes⟩ :=
      (Search.mem_run_exhaustive_iff hs).mp hc
    obtain ⟨p', hp', m', hm', anchor', hanchor', -, hrealizes'⟩ :=
      (Search.mem_run_exhaustive_iff hs).mp hc'
    obtain rfl : p' = p := by
      have hid : c'.production.id = c.production.id := congrArg Prod.fst hsummary
      rw [hrealizes'.production, hrealizes.production] at hid
      exact List.inj_on_of_nodup_map hids hp' hp hid
    obtain rfl : m' = m := Option.mem_unique hm' hm
    exact led_of_summary_eq (hexact _ hp) hL hp hm hanchor hs hanchor' hrealizes hrealizes'
      hsummary hled
  · ext x
    rw [mem_searched_iff, henumerated]
    constructor
    · rintro ⟨c, hc, hx⟩
      exact ⟨c, hc, hall c hc, hx⟩
    · rintro ⟨c, hc, -, hx⟩
      exact ⟨c, hc, hx⟩

/-! ### Agreement and disagreement -/

/-- Two right triangles side by side. -/
def pair : Store :=
  Store.after [.insert (fun _ => true) (Search.triangle 0 0 1),
    .insert (fun _ => true) (Search.triangle 1 0 1)]

/-- On two triangles side by side, a third one is put. -/
def pairRule : Production :=
  ⟨1, [Search.triangle 0 0 1, Search.triangle 1 0 1], [Search.triangle 0 1 1]⟩

theorem enumeration_finds_pair :
    pair.Reachable ∧ OneLength pair [pairRule] 1 ∧ (∀ p ∈ [pairRule], Exact pair p) ∧
      ∀ g, searched pair [pairRule] (Region.canvas 8 8).admits g =
        enumerated pair [pairRule] (Region.canvas 8 8).admits := by
  have hreach : pair.Reachable := ⟨_, rfl⟩
  have hL : OneLength pair [pairRule] 1 := by
    refine ⟨rfl, ?_, ?_, ?_⟩ <;> decide +kernel
  have hexact : ∀ p ∈ [pairRule], Exact pair p := by
    intro p hp
    obtain rfl := List.mem_singleton.mp hp
    refine exact_of_moderate ?_ ?_ <;> decide +kernel
  have hled : ∀ c ∈ Search.allProposals pair (Region.canvas 8 8).admits [pairRule], c.Led := by
    decide +kernel
  refine ⟨hreach, hL, hexact, fun g => ?_⟩
  have hagree := (enumeration_finds_what_is_led hreach hL hexact (Region.canvas 8 8) g).2
    (List.nodup_singleton 1)
  rw [Search.run_exhaustive, Search.cut] at hagree
  dsimp only at hagree
  exact hagree.mpr hled

/-- A square that starts at its upper right corner, and a triangle that starts at the lower left
corner of the square. -/
def stray : Store :=
  Store.after [
    .insert (fun _ => true) ⟨[⟨1, 1⟩, ⟨1, 0⟩, ⟨0, 0⟩, ⟨0, 1⟩], .plain, by decide⟩,
    .insert (fun _ => true) ⟨[⟨0, 0⟩, ⟨0, 1⟩, ⟨-1, 1⟩], .plain, by decide⟩]

/-- To a square, its right neighbour is added. -/
def strayRule : Production where
  id := 1
  pattern := [⟨[⟨0, 0⟩, ⟨0, 1⟩, ⟨1, 1⟩, ⟨1, 0⟩], .plain, by decide⟩]
  result := [⟨[⟨1, 0⟩, ⟨1, 1⟩, ⟨2, 1⟩, ⟨2, 0⟩], .plain, by decide⟩]

/-- The search finds the square with the triangle as anchor.  The enumeration does not, as the
triangle is no part of the match and the square starts at another corner than the pattern. -/
theorem enumeration_misses_stray_anchor :
    stray.Reachable ∧ OneLength stray [strayRule] 1 ∧ (∀ p ∈ [strayRule], Exact stray p) ∧
      ∀ g, searched stray [strayRule] (Region.canvas 8 8).admits g ≠
        enumerated stray [strayRule] (Region.canvas 8 8).admits := by
  have hne : ((Search.allProposals stray (Region.canvas 8 8).admits [strayRule]).map
      Proposal.summary).toFinset ≠ enumerated stray [strayRule] (Region.canvas 8 8).admits := by
    decide +kernel
  refine ⟨⟨_, rfl⟩, ?_, ?_, fun g => ?_⟩
  · refine ⟨rfl, ?_, ?_, ?_⟩ <;> decide +kernel
  · intro p hp
    obtain rfl := List.mem_singleton.mp hp
    refine exact_of_moderate ?_ ?_ <;> decide +kernel
  · rw [searched, Search.run_exhaustive, Search.cut]
    dsimp only
    exact hne

end Enumeration

end ShapeGrammar
