import ShapeGrammar.Proofs.Search.Realization
import ShapeGrammar.Proofs.Shape.Identity

/-!
# Outlines that start at another vertex

A store knows its polygons by keys, and a key does not tell at which vertex the outline of a polygon
starts.  Accordingly, a search finds the same things in a store where one outline is started at
another vertex: what a production gives under a similarity does not change
(`Search.propose_eq_map`).

But the similarity is read off the first vertex and the first edge of the anchor.  So what does
change are the proposals that have the restarted polygon as anchor
(`Search.restart_changes_only_the_anchor`), and these may be lost: a rectangle that is started at
the end of its long edge no longer leads to itself (`Search.rectangle_restarted_finds_nothing`).
-/

namespace ShapeGrammar

/-- The polygon itself starts `n` vertices later; every other one stays as it is. -/
def Polygon.restart (q : Polygon) (n : ℕ) (a : Polygon) : Polygon :=
  if a.id = q.id then { a with shape := a.shape.rotate n } else a

@[simp] lemma Polygon.key_restart (q : Polygon) (n : ℕ) (a : Polygon) :
    (q.restart n a).key = a.key := by
  unfold Polygon.restart
  split <;> rfl

/-- The polygons found are replaced. -/
def Proposal.mapFound (f : Polygon → Polygon) (c : Proposal) : Proposal :=
  { c with found := c.found.map f }

namespace Search

/-! ### Stores with the same keys -/

section Relisted

variable {s s' : Store} (hs : s.Consistent) (hs' : s'.Consistent) {f : Polygon → Polygon}
  (hf : ∀ a, (f a).key = a.key) (hlist : s'.toList.Perm (s.toList.map f))

include hf

lemma summary_mapFound (c : Proposal) : (c.mapFound f).summary = c.summary := by
  have hkeys : (c.found.map f).map Polygon.key = c.found.map Polygon.key := by
    rw [List.map_map]
    exact List.map_congr_left fun a _ => hf a
  unfold Proposal.summary Proposal.mapFound
  rw [hkeys]

include hs hs' hlist

/-- A key leads to the image of the polygon that it led to. -/
lemma lookup_eq_map (k : Key) : s'.lookup k = (s.lookup k).map f := by
  refine Option.ext fun a => ?_
  rw [hs'.lookup_iff, hlist.mem_iff, List.mem_map, Option.map_eq_some_iff]
  constructor
  · rintro ⟨⟨b, hb, rfl⟩, hkey⟩
    exact ⟨b, (hs.lookup_iff k b).mpr ⟨hb, (hf b).symm.trans hkey⟩, rfl⟩
  · rintro ⟨b, hb, rfl⟩
    obtain ⟨hmem, hkey⟩ := (hs.lookup_iff k b).mp hb
    exact ⟨⟨b, hmem, rfl⟩, (hf b).trans hkey⟩

lemma hasKey_eq (k : Key) : s'.hasKey k = s.hasKey k := by
  rw [Bool.eq_iff_iff, s'.hasKey_iff, s.hasKey_iff, lookup_eq_map hs hs' hf hlist]
  cases s.lookup k <;> simp

lemma findAll_eq_map (t : Similarity) (ms : List Shape) :
    findAll s' t ms = (findAll s t ms).map (List.map f) := by
  induction ms with
  | nil => rfl
  | cons m ms ih =>
    rw [findAll, findAll, lookup_eq_map hs hs' hf hlist]
    cases s.lookup (m.keyUnder t) with
    | none => rfl
    | some q =>
      rw [Option.map_some]
      dsimp only
      rw [ih, Option.map_map, Option.map_map]
      rfl

lemma additions_eq_map (p : Production) (admits : Shape → Bool) (t : Similarity)
    (found : List Polygon) :
    additions s' p admits t (found.map f) = additions s p admits t found := by
  have hkeys : (found.map f).map Polygon.key = found.map Polygon.key := by
    rw [List.map_map]
    exact List.map_congr_left fun a _ => hf a
  simp only [additions_eq, hkeys, hasKey_eq hs hs' hf hlist]

/-- At one and the same anchor, the same is proposed. -/
lemma propose_eq_map (admits : Shape → Bool) (p : Production) (anchor : Polygon) :
    propose s' admits p anchor = (propose s admits p anchor).map (Proposal.mapFound f) := by
  rw [propose_eq_bind, propose_eq_bind, Option.map_bind]
  congr 1
  funext t
  rw [findAll_eq_map hs hs' hf hlist, Option.bind_map, Function.comp_apply, Option.map_bind]
  congr 1
  funext found
  simp only [Function.comp_apply, additions_eq_map hs hs' hf hlist]
  cases additions s p admits t found <;> rfl

/-- What an exhaustive search proposes is what the images of the anchors give in the store as it
was. -/
lemma mem_run_map_summary_iff (ps : List Production) (admits : Shape → Bool) (g : Generator)
    (x : Proposal.Summary) :
    x ∈ (run s' ps admits .exhaustive none g).1.map Proposal.summary ↔
      ∃ p ∈ ps, ∃ a ∈ s.toList, ∃ c, propose s admits p (f a) = some c ∧ c.summary = x := by
  rw [run_exhaustive, cut, List.mem_map]
  simp only [mem_allProposals_iff, hlist.mem_iff, List.mem_map,
    propose_eq_map hs hs' hf hlist, Option.map_eq_some_iff]
  constructor
  · rintro ⟨_, ⟨p, hp, _, ⟨a, ha, rfl⟩, c, hc, rfl⟩, rfl⟩
    exact ⟨p, hp, a, ha, c, hc, (summary_mapFound hf c).symm⟩
  · rintro ⟨p, hp, a, ha, c, hc, rfl⟩
    exact ⟨c.mapFound f, ⟨p, hp, f a, ⟨a, ha, rfl⟩, c, hc, rfl⟩, summary_mapFound hf c⟩

end Relisted

/-! ### One outline started elsewhere -/

/-- What is proposed depends on the anchor only through the alignment. -/
lemma propose_congr {store : Store} {admits : Shape → Bool} {p : Production} {a b : Polygon}
    (h : alignment p a.shape = alignment p b.shape) :
    propose store admits p a = propose store admits p b := by
  rw [propose_eq_bind, propose_eq_bind, h]

/-- In a store with other polygons of the same shapes and keys, in the same order, the same is
proposed in the same order. -/
lemma allProposals_eq_map {s s' : Store} (hs : s.Consistent) (hs' : s'.Consistent)
    {f : Polygon → Polygon} (hkey : ∀ a, (f a).key = a.key) (hshape : ∀ a, (f a).shape = a.shape)
    (hlist : s'.toList = s.toList.map f) (admits : Shape → Bool) (ps : List Production) :
    allProposals s' admits ps = (allProposals s admits ps).map (Proposal.mapFound f) := by
  have hperm : s'.toList.Perm (s.toList.map f) := .of_eq hlist
  unfold allProposals
  rw [hlist, List.map_flatMap]
  congr 1
  funext p
  rw [List.filterMap_map, List.map_filterMap]
  congr 1
  funext a
  have halign : alignment p (f a).shape = alignment p a.shape := by rw [hshape]
  rw [Function.comp_apply, propose_congr halign, propose_eq_map hs hs' hkey hperm]

/-- Let one polygon `q` of a store be replaced by one that has the same number and the same key and
starts `n` vertices later, wherever it then is in painter's order.  A key leads to the same polygon
as before, restarted if it is `q`.  What an exhaustive search proposes is what it would propose in
the store as it was, with the restarted polygon in place of `q` as an anchor, and nowhere else.  So
the search proposes the same as before if every production is aligned alike with both. -/
theorem restart_changes_only_the_anchor {s s' : Store} (h : s.Reachable) (hs' : s'.Consistent)
    {q : Polygon} (hq : q ∈ s.toList) (n : ℕ) (hlist : s'.toList.Perm (s.toList.map (q.restart n)))
    (ps : List Production) (admits : Shape → Bool) (g : Generator) :
    (∀ k, s'.lookup k = (s.lookup k).map (q.restart n)) ∧
    (∀ x, x ∈ (run s' ps admits .exhaustive none g).1.map Proposal.summary ↔
      ∃ p ∈ ps, ∃ a ∈ s.toList, ∃ c, propose s admits p (q.restart n a) = some c ∧ c.summary = x) ∧
    ((∀ p ∈ ps, alignment p (q.shape.rotate n) = alignment p q.shape) →
      ∀ x, x ∈ (run s' ps admits .exhaustive none g).1.map Proposal.summary ↔
        x ∈ (run s ps admits .exhaustive none g).1.map Proposal.summary) := by
  have hs : s.Consistent := h.consistent
  have hmem := mem_run_map_summary_iff hs hs' (q.key_restart n) hlist ps admits g
  refine ⟨lookup_eq_map hs hs' (q.key_restart n) hlist, hmem, fun halign x => ?_⟩
  have hself : s.toList.Perm (s.toList.map id) := by rw [List.map_id]
  rw [hmem, mem_run_map_summary_iff hs hs (fun _ => rfl) hself]
  refine exists_congr fun p => and_congr_right fun hp => exists_congr fun a =>
    and_congr_right fun ha => ?_
  have hsame : alignment p (q.restart n a).shape = alignment p a.shape := by
    unfold Polygon.restart
    split
    · next hid =>
      obtain rfl : a = q := List.inj_on_of_nodup_map h.ids_nodup ha hq hid
      exact halign p hp
    · rfl
  rw [propose_congr hsame]

/-- There and back along a segment, from its middle. -/
def fromTheMiddle : Shape := ⟨[⟨1, 0⟩, ⟨2, 0⟩, ⟨1, 0⟩, ⟨0, 0⟩], .plain, by decide⟩

/-- To a segment there and back, one above it is added. -/
def liftRule : Production where
  id := 1
  pattern := [fromTheMiddle]
  result := [fromTheMiddle.shifted 0 1]

theorem restarting_fromTheMiddle :
    (Store.single fromTheMiddle).Reachable ∧ (Store.single (fromTheMiddle.rotate 2)).Consistent ∧
      fromTheMiddle.rotate 2 ≠ fromTheMiddle ∧
      ∀ g x, x ∈ (run (Store.single (fromTheMiddle.rotate 2)) [liftRule] (fun _ => true) .exhaustive
          none g).1.map Proposal.summary ↔
        x ∈ (run (Store.single fromTheMiddle) [liftRule] (fun _ => true) .exhaustive
          none g).1.map Proposal.summary := by
  have hreach := Store.reachable_single fromTheMiddle
  have hreach' := Store.reachable_single (fromTheMiddle.rotate 2)
  have hkey : (fromTheMiddle.rotate 2).key = fromTheMiddle.key := by decide +kernel
  have hmem : Polygon.ofShape 1 fromTheMiddle ∈ (Store.single fromTheMiddle).toList := by
    rw [Store.toList_single]
    exact List.mem_cons_self
  have hlist : (Store.single (fromTheMiddle.rotate 2)).toList.Perm
      ((Store.single fromTheMiddle).toList.map ((Polygon.ofShape 1 fromTheMiddle).restart 2)) := by
    rw [Store.toList_single, Store.toList_single, Polygon.ofShape, hkey]
    exact .refl _
  have halign : ∀ p ∈ [liftRule], alignment p (fromTheMiddle.rotate 2) =
      alignment p fromTheMiddle := by
    decide +kernel
  refine ⟨hreach, hreach'.consistent, ?_, fun g => ?_⟩
  · intro heq
    have hvertices := congrArg Shape.vertices heq
    revert hvertices
    decide +kernel
  · exact (restart_changes_only_the_anchor hreach hreach'.consistent hmem 2 hlist [liftRule]
      (fun _ => true) g).2.2 halign

/-- A rectangle, twice as high as wide, that starts along its long edge. -/
def rectangle : Shape := ⟨[⟨0, 0⟩, ⟨0, 2⟩, ⟨1, 2⟩, ⟨1, 0⟩], .plain, by decide⟩

/-- To a rectangle, its right neighbour is added. -/
def rectangleRule : Production where
  id := 1
  pattern := [rectangle]
  result := [⟨[⟨1, 0⟩, ⟨1, 2⟩, ⟨2, 2⟩, ⟨2, 0⟩], .plain, by decide⟩]

/-- Started at the next vertex, along its short edge, the rectangle has the same key, but it is
taken for one of half the size and not found. -/
theorem rectangle_restarted_finds_nothing :
    (Store.single rectangle).Reachable ∧ (Store.single (rectangle.rotate 1)).Reachable ∧
      (rectangle.rotate 1).key = rectangle.key ∧
      (Store.single (rectangle.rotate 1)).toList =
        (Store.single rectangle).toList.map ((Polygon.ofShape 1 rectangle).restart 1) ∧
      ∀ g, ¬ ∀ x, x ∈ (run (Store.single (rectangle.rotate 1)) [rectangleRule] (fun _ => true)
          .exhaustive none g).1.map Proposal.summary ↔
        x ∈ (run (Store.single rectangle) [rectangleRule] (fun _ => true) .exhaustive
          none g).1.map Proposal.summary := by
  have hkey : (rectangle.rotate 1).key = rectangle.key := by decide +kernel
  have hlist : (Store.single (rectangle.rotate 1)).toList =
      (Store.single rectangle).toList.map ((Polygon.ofShape 1 rectangle).restart 1) := by
    rw [Store.toList_single, Store.toList_single, Polygon.ofShape, hkey]
    rfl
  refine ⟨Store.reachable_single _, Store.reachable_single _, hkey, hlist, fun g hsame => ?_⟩
  have hnone : (allProposals (Store.single (rectangle.rotate 1)) (fun _ => true)
      [rectangleRule]).length = 0 := by
    decide +kernel
  have hone : (allProposals (Store.single rectangle) (fun _ => true) [rectangleRule]).length =
      1 := by
    decide +kernel
  obtain ⟨c, hc⟩ := List.length_eq_one_iff.mp hone
  rw [run_exhaustive, run_exhaustive, cut, cut, List.length_eq_zero_iff.mp hnone, hc] at hsame
  exact List.not_mem_nil ((hsame c.summary).mpr (List.mem_singleton.mpr rfl))

end Search

end ShapeGrammar
