import Mathlib
import ShapeGrammar.Proofs.Search.Completeness

/-!
# Proposals, whoever makes them

A proposal rests on a similarity, under which its polygons were found, and on a way to move results,
with which the shapes to add were made.  `Proposal.Realizes` says so without saying how the polygons
were looked for, so that proposals of different origin can be compared: if two similarities give the
same keys, and two ways to move results give shapes of the same keys that are admitted alike, then
every proposal for one pair has a counterpart for the other
(`Proposal.Realizes.exists_counterpart`).  What the two have in common is their `Proposal.summary`.
-/

namespace ShapeGrammar

namespace Production

/-- The images of the results that can be added where polygons with the keys `kept` were found. -/
def addable (image : Shape → Shape) (kept : List Key) (admits : Shape → Bool) (taken : Key → Bool)
    (results : List Shape) : List Shape :=
  let fresh := (results.map image).filter fun s => !kept.contains s.key
  if fresh.all admits then fresh.filter fun s => !taken s.key else []

/-- It does not matter in which order the polygons were found. -/
lemma addable_congr_kept {kept kept' : List Key} (h : kept.Perm kept') (image : Shape → Shape)
    (admits : Shape → Bool) (taken : Key → Bool) (results : List Shape) :
    addable image kept admits taken results = addable image kept' admits taken results := by
  have hcontains (k : Key) : kept.contains k = kept'.contains k := by
    rw [Bool.eq_iff_iff, List.contains_iff_mem, List.contains_iff_mem, h.mem_iff]
  unfold addable
  simp only [hcontains]

/-- Images with the same keys that are admitted alike are added alike. -/
lemma map_key_addable_congr {image image' : Shape → Shape} {admits : Shape → Bool}
    {results : List Shape} (hkey : ∀ r ∈ results, (image r).key = (image' r).key)
    (hadmits : ∀ r ∈ results, admits (image r) = admits (image' r)) (kept : List Key)
    (taken : Key → Bool) :
    (addable image kept admits taken results).map Shape.key =
      (addable image' kept admits taken results).map Shape.key := by
  have hfresh : (results.filter fun r => !kept.contains (image r).key) =
      results.filter fun r => !kept.contains (image' r).key :=
    List.filter_congr fun r hr => by rw [hkey r hr]
  unfold addable
  simp only [List.filter_map, List.all_map, Function.comp_def, hfresh]
  have hsub : ∀ r ∈ results.filter fun r => !kept.contains (image' r).key, r ∈ results :=
    fun r hr => List.mem_of_mem_filter hr
  generalize (results.filter fun r => !kept.contains (image' r).key) = rs at hsub
  have hall : (rs.all fun r => admits (image r)) = rs.all fun r => admits (image' r) := by
    rw [Bool.eq_iff_iff, List.all_eq_true, List.all_eq_true]
    exact forall₂_congr fun r hr => by rw [hadmits r (hsub r hr)]
  have hfree : (rs.filter fun r => !taken (image r).key) =
      rs.filter fun r => !taken (image' r).key :=
    List.filter_congr fun r hr => by rw [hkey r (hsub r hr)]
  rw [hall, hfree]
  split
  · rw [List.map_map, List.map_map]
    exact List.map_congr_left fun r hr => hkey r (hsub r (List.mem_of_mem_filter hr))
  · rfl

end Production

namespace Proposal

/-- The number of a production, the keys found, in the order of its pattern, and the set of the keys
to add. -/
abbrev Summary : Type := ℕ × List Key × Finset Key

/-- What is compared of proposals. -/
def summary (c : Proposal) : Summary :=
  (c.production.id, c.found.map Polygon.key, (c.additions.map Shape.key).toFinset)

/-- The proposal is one for the production under the similarity `t`, with results moved by `image`:
polygons of the store with the keys of the pattern were found, what can be added is to be added, and
there is something to add. -/
structure Realizes (c : Proposal) (store : Store) (admits : Shape → Bool) (p : Production)
    (t : Similarity) (image : Shape → Shape) : Prop where
  production : c.production = p
  similarity : c.similarity = t
  found : List.Forall₂ (fun m q => q ∈ store.toList ∧ q.key = m.keyUnder t) p.pattern c.found
  additions : c.additions =
    Production.addable image (c.found.map Polygon.key) admits store.hasKey p.result
  new : c.additions ≠ []

/-- A proposal has a counterpart for another similarity, and another way to move results, if these
place the shapes of the production alike. -/
lemma Realizes.exists_counterpart {c : Proposal} {store : Store} {admits : Shape → Bool}
    {p : Production} {t t' : Similarity} {image : Shape → Shape} (image' : Shape → Shape)
    (h : c.Realizes store admits p t image)
    (hpattern : ∀ m ∈ p.pattern, m.keyUnder t = m.keyUnder t')
    (hkey : ∀ r ∈ p.result, (image r).key = (image' r).key)
    (hadmits : ∀ r ∈ p.result, admits (image r) = admits (image' r)) :
    ∃ c' : Proposal, c'.Realizes store admits p t' image' ∧ c'.found = c.found ∧
      c'.summary = c.summary := by
  have hadd := Production.map_key_addable_congr hkey hadmits (c.found.map Polygon.key) store.hasKey
  rw [← h.additions] at hadd
  have hfound := h.found
  generalize hshapes : Production.addable image' (c.found.map Polygon.key) admits store.hasKey
    p.result = shapes at hadd
  refine ⟨⟨p, c.found, shapes, t'⟩, ⟨rfl, rfl, ?_, hshapes.symm, ?_⟩, rfl, ?_⟩
  · obtain ⟨hlen, hzip⟩ := List.forall₂_iff_zip.mp hfound
    refine List.forall₂_iff_zip.mpr ⟨hlen, fun {m q} hmem => ?_⟩
    obtain ⟨hm, -⟩ := List.of_mem_zip hmem
    obtain ⟨hq, hqkey⟩ := hzip hmem
    exact ⟨hq, hqkey.trans (hpattern m hm)⟩
  · rintro rfl
    rw [List.map_nil, List.map_eq_nil_iff] at hadd
    exact h.new hadd
  · rw [summary, summary, hadd, h.production]

end Proposal

namespace Search

/-- The proposals of an exhaustive search are those under the similarities that fit the pattern of a
production to an anchor. -/
lemma mem_run_exhaustive_iff {store : Store} (hs : store.Consistent) {admits : Shape → Bool}
    {ps : List Production} {g : Generator} {c : Proposal} :
    c ∈ (run store ps admits .exhaustive none g).1 ↔
      ∃ p ∈ ps, ∃ m ∈ p.pattern.head?, ∃ anchor ∈ store.toList, Fits m anchor.shape ∧
        c.Realizes store admits p (fitting m anchor.shape)
          fun r => r.under (fitting m anchor.shape) := by
  rw [run_exhaustive, cut, mem_allProposals_iff]
  refine exists_congr fun p => and_congr_right fun _ => ?_
  constructor
  · rintro ⟨anchor, hanchor, hc⟩
    obtain ⟨hp, halign, hfound, hadd, hnew⟩ := propose_eq_some_iff.mp hc
    obtain ⟨m, hm, hfits, ht⟩ := alignment_eq_some_iff.mp halign
    rw [ht] at hfound hadd
    exact ⟨m, hm, anchor, hanchor, hfits, hp, ht, forall₂_of_findAll hs hfound, hadd.symm, hnew⟩
  · rintro ⟨m, hm, anchor, hanchor, hfits, h⟩
    refine ⟨anchor, hanchor, propose_eq_some_iff.mpr ⟨h.production, ?_, ?_, ?_, h.new⟩⟩
    · exact alignment_eq_some_iff.mpr ⟨m, hm, hfits, h.similarity⟩
    · rw [h.similarity]
      exact (findAll_iff_forall₂ hs).mpr h.found
    · rw [h.similarity]
      exact h.additions.symm

end Search

end ShapeGrammar
