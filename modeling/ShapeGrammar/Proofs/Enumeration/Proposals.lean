import Mathlib
import ShapeGrammar.Enumeration
import ShapeGrammar.Proofs.Search.Realization
import ShapeGrammar.Proofs.Subsets

/-!
# What an enumeration proposes

An enumeration tries the members of every subset of the store as leaders, and compares key sets.
`Enumeration.mem_run_iff` describes what comes out of that without subsets: proposals for which
distinct polygons were found, under a displacement that takes the first vertex of the pattern to
that of one of them.

From left to right, a subset with the keys of the pattern has each of them once, so that the pattern
finds its polygons there.  From right to left, the polygons found are a subset of the store, in
another order.
-/

namespace ShapeGrammar

/-- In a consistent store a polygon is determined by its key. -/
lemma Store.Consistent.eq_of_key_eq {s : Store} (hs : s.Consistent) {p q : Polygon}
    (hp : p ∈ s.toList) (hq : q ∈ s.toList) (h : p.key = q.key) : p = q :=
  List.inj_on_of_nodup_map hs.keys_nodup hp hq h

namespace Production

/-- A list without repetitions has none to erase. -/
lemma eraseDups_of_nodup {ks : List Key} (h : ks.Nodup) : ks.eraseDups = ks := by
  induction ks with
  | nil => rfl
  | cons k ks ih =>
    obtain ⟨hk, hks⟩ := List.nodup_cons.mp h
    have hfilter : (ks.filter fun b => !b == k) = ks := by
      rw [List.filter_eq_self]
      intro b hb
      have hne : b ≠ k := fun heq => hk (heq ▸ hb)
      simpa using hne
    rw [List.eraseDups_cons, hfilter, ih hks]

/-- For lists of one length, of which the second has no repetitions, to hold the same keys is to
hold them in another order. -/
lemma sameKeys_iff_perm {ks ls : List Key} (hls : ls.Nodup) (hlen : ls.length = ks.length) :
    sameKeys ks ls = true ↔ ls.Perm ks := by
  unfold sameKeys
  rw [Bool.and_eq_true, List.all_eq_true, beq_iff_eq]
  constructor
  · rintro ⟨-, hall⟩
    have hsub : ls ⊆ ks := fun l hl => List.contains_iff_mem.mp (hall l hl)
    exact (List.subperm_of_subset hls hsub).perm_of_length_le hlen.ge
  · intro hperm
    rw [eraseDups_of_nodup hls, eraseDups_of_nodup (hperm.nodup_iff.mp hls)]
    exact ⟨hlen.symm, fun l hl => List.contains_iff_mem.mpr (hperm.mem_iff.mp hl)⟩

end Production

namespace Enumeration

/-- The similarity that takes the first vertex of the pattern shape to that of the polygon, without
a change of scale. -/
def shiftTo (m : Shape) (q : Polygon) : Similarity :=
  ⟨1, q.shape.origin.x - m.origin.x, q.shape.origin.y - m.origin.y⟩

/-- A shape moved in this way, with no regard to the grid. -/
def shiftImage (m : Shape) (q : Polygon) (r : Shape) : Shape :=
  r.shifted (shiftTo m q).dx (shiftTo m q).dy

/-! ### Leaders -/

/-- Making an element the first of a list changes its order only. -/
lemma perm_of_mem_leaders {α : Type} {xs ys : List α} (h : ys ∈ leaders xs) : ys.Perm xs := by
  obtain ⟨⟨x, i⟩, hx, rfl⟩ := List.mem_map.mp h
  obtain ⟨hi, hget⟩ := List.getElem?_eq_some_iff.mp (List.mem_zipIdx_iff_getElem?.mp hx)
  have hperm := List.getElem_cons_eraseIdx_perm hi
  rwa [hget] at hperm

/-- Every element of a list is made its first once. -/
lemma exists_mem_leaders {α : Type} {xs : List α} {x : α} (h : x ∈ xs) :
    ∃ rest, x :: rest ∈ leaders xs := by
  obtain ⟨i, hi, rfl⟩ := List.getElem_of_mem h
  refine ⟨xs.eraseIdx i, List.mem_map.mpr ⟨(xs[i], i), ?_, rfl⟩⟩
  exact List.mem_zipIdx_iff_getElem?.mpr (List.getElem?_eq_getElem hi)

/-! ### One leader -/

/-- The polygons in the order of the pattern are those found by the keys of the pattern. -/
lemma inPatternOrder_eq_some_iff {found ordered : List Polygon} {t : Similarity}
    {ms : List Shape} :
    inPatternOrder found t ms = some ordered ↔
      List.Forall₂ (fun m q => found.find? (fun q => q.key == m.keyUnder t) = some q) ms
        ordered := by
  induction ms generalizing ordered with
  | nil =>
    rw [inPatternOrder, List.forall₂_nil_left_iff, Option.some_inj]
    exact eq_comm
  | cons m ms ih =>
    rw [inPatternOrder, List.forall₂_cons_left_iff]
    constructor
    · intro h
      split at h
      · exact absurd h.symm (Option.some_ne_none ordered)
      · next q hq =>
        obtain ⟨rest, hrest, rfl⟩ := Option.map_eq_some_iff.mp h
        exact ⟨q, rest, hq, ih.mp hrest, rfl⟩
    · rintro ⟨q, rest, hq, hrest, rfl⟩
      rw [hq]
      exact Option.map_eq_some_iff.mpr ⟨rest, ih.mpr hrest, rfl⟩

/-- A key finds the one polygon that has it. -/
lemma find?_key_eq_some_iff {found : List Polygon} (hnodup : (found.map Polygon.key).Nodup)
    {k : Key} {q : Polygon} :
    found.find? (fun q => q.key == k) = some q ↔ q ∈ found ∧ q.key = k := by
  constructor
  · intro h
    have hkey : (q.key == k) = true := List.find?_some (p := fun q : Polygon => q.key == k) h
    exact ⟨List.mem_of_find?_eq_some h, beq_iff_eq.mp hkey⟩
  · rintro ⟨hq, rfl⟩
    have hsome : (found.find? fun q' => q'.key == q.key).isSome = true :=
      List.find?_isSome.mpr ⟨q, hq, beq_self_eq_true q.key⟩
    obtain ⟨q', hq'⟩ := Option.isSome_iff_exists.mp hsome
    have hkey : (q'.key == q.key) = true :=
      List.find?_some (p := fun q' : Polygon => q'.key == q.key) hq'
    rw [hq', List.inj_on_of_nodup_map hnodup (List.mem_of_find?_eq_some hq') hq
      (beq_iff_eq.mp hkey)]

section Leader

variable {store : Store} {admits : Shape → Bool} {p : Production} {m : Shape} {ms : List Shape}
  {q : Polygon} {rest : List Polygon} {c : Proposal} (hp : p.pattern = m :: ms)

include hp

/-- The polygons fit exactly if they are as many as the pattern asks for and have the keys of the
pattern, moved to the first of them. -/
lemma fits_iff (hnodup : ((q :: rest).map Polygon.key).Nodup) :
    p.fits (q :: rest) = true ↔ (q :: rest).length = p.pattern.length ∧
      ((q :: rest).map Polygon.key).Perm (p.pattern.map fun m' => m'.keyUnder (shiftTo m q)) := by
  have hkeys : (p.pattern.map fun m' => m'.keyUnder (shiftTo m q)).length = p.pattern.length :=
    List.length_map _
  have hfits : p.fits (q :: rest) = ((q :: rest).length == p.pattern.length &&
      Production.sameKeys (p.pattern.map fun m' => m'.keyUnder (shiftTo m q))
        ((q :: rest).map Polygon.key)) := by
    obtain ⟨id, pattern, result⟩ := p
    obtain rfl : pattern = m :: ms := hp
    rfl
  rw [hfits, Bool.and_eq_true, beq_iff_eq]
  refine and_congr_right fun hlen => ?_
  exact Production.sameKeys_iff_perm hnodup (by rw [List.length_map, hkeys, hlen])

/-- The polygons found are reached by moving the pattern to the leader. -/
lemma offset_eq : p.offset (q :: rest) = some ((shiftTo m q).dx, (shiftTo m q).dy) := by
  obtain ⟨id, pattern, result⟩ := p
  obtain rfl : pattern = m :: ms := hp
  rfl

/-- The preview takes the results along with the pattern, which is moved to the leader. -/
lemma preview_eq_addable (admits : Shape → Bool) (taken : Key → Bool) :
    p.preview (q :: rest) admits taken =
      Production.addable (shiftImage m q) ((q :: rest).map Polygon.key) admits taken p.result := by
  unfold Production.preview
  rw [offset_eq hp]
  rfl

/-- What is proposed for polygons that fit. -/
lemma propose_eq_some_iff :
    propose store admits p (q :: rest) = some c ↔
      p.fits (q :: rest) = true ∧ c.production = p ∧ c.similarity = shiftTo m q ∧
        inPatternOrder (q :: rest) (shiftTo m q) p.pattern = some c.found ∧
        c.additions = Production.addable (shiftImage m q) ((q :: rest).map Polygon.key) admits
          store.hasKey p.result ∧ c.additions ≠ [] := by
  rw [propose, preview_eq_addable hp, offset_eq hp]
  generalize Production.addable _ _ _ _ _ = shapes
  obtain ⟨production, found, additions, similarity⟩ := c
  cases p.fits (q :: rest) with
  | false => simp
  | true =>
    cases shapes with
    | nil => simp
    | cons shape shapes =>
      have hsim : (⟨1, (shiftTo m q).dx, (shiftTo m q).dy⟩ : Similarity) = shiftTo m q := rfl
      simp only [Bool.not_true, Bool.false_eq_true, if_false, hsim, Option.map_eq_some_iff,
        Proposal.mk.injEq, true_and]
      constructor
      · rintro ⟨ordered, hordered, rfl, rfl, rfl, rfl⟩
        exact ⟨rfl, rfl, hordered, rfl, List.cons_ne_nil shape shapes⟩
      · rintro ⟨rfl, rfl, hordered, rfl, -⟩
        exact ⟨found, hordered, rfl, rfl, rfl, rfl⟩

/-- What was found by distinct keys is proposed for any order of it that starts with the leader. -/
lemma propose_of_realizes (h : c.Realizes store admits p (shiftTo m q) (shiftImage m q))
    (hnodup : (c.found.map Polygon.key).Nodup) (hperm : (q :: rest).Perm c.found) :
    propose store admits p (q :: rest) = some c := by
  have hkeys := hperm.map Polygon.key
  have hnodup' := hkeys.nodup_iff.mpr hnodup
  refine (propose_eq_some_iff hp).mpr ⟨?_, h.production, h.similarity, ?_, ?_, h.new⟩
  · refine (fits_iff hp hnodup').mpr ⟨?_, ?_⟩
    · rw [hperm.length_eq, h.found.length_eq]
    · rw [← Search.map_key_of_forall₂ h.found]
      exact hkeys
  · obtain ⟨hlen, hzip⟩ := List.forall₂_iff_zip.mp h.found
    refine inPatternOrder_eq_some_iff.mpr (List.forall₂_iff_zip.mpr ⟨hlen, fun {m' q'} hmem => ?_⟩)
    obtain ⟨-, hq'⟩ := List.of_mem_zip hmem
    rw [find?_key_eq_some_iff hnodup', hperm.mem_iff]
    exact ⟨hq', (hzip hmem).2⟩
  · rw [h.additions, Production.addable_congr_kept hkeys]

end Leader

/-! ### All subsets -/

lemma mem_ofProduction_iff {store : Store} {admits : Shape → Bool} {p : Production}
    {c : Proposal} :
    c ∈ ofProduction store admits p ↔ p.pattern ≠ [] ∧
      ∃ subset : List Polygon, (subset.Sublist store.toList ∧ subset.length = p.pattern.length) ∧
        ∃ found ∈ leaders subset, propose store admits p found = some c := by
  unfold ofProduction Production.arity
  split
  · next hnil => simp [List.length_eq_zero_iff.mp hnil]
  · next hne =>
    simp only [List.mem_flatMap, List.mem_filterMap, mem_choose_iff, ne_eq,
      ← List.length_eq_zero_iff, hne, not_false_eq_true, true_and]

section Consistent

variable {store : Store} {admits : Shape → Bool} {p : Production} {m : Shape} {ms : List Shape}
  {q : Polygon} {rest found : List Polygon} {c : Proposal} (hs : store.Consistent)

include hs

/-- What is proposed for a leader and its followers was found under the displacement to the leader,
who is among the polygons found. -/
lemma realizes_of_propose (hp : p.pattern = m :: ms) (hsub : (q :: rest) ⊆ store.toList)
    (hnodup : ((q :: rest).map Polygon.key).Nodup)
    (h : propose store admits p (q :: rest) = some c) :
    q ∈ c.found ∧ (c.found.map Polygon.key).Nodup ∧
      c.Realizes store admits p (shiftTo m q) (shiftImage m q) := by
  obtain ⟨hfits, hproduction, hsim, horder, hadd, hnew⟩ := (propose_eq_some_iff hp).mp h
  obtain ⟨-, hperm⟩ := (fits_iff hp hnodup).mp hfits
  have hfound : List.Forall₂ (fun m' q' => q' ∈ store.toList ∧ q'.key = m'.keyUnder (shiftTo m q))
      p.pattern c.found := by
    refine (inPatternOrder_eq_some_iff.mp horder).imp fun m' q' hq' => ?_
    obtain ⟨hmem, hkey⟩ := (find?_key_eq_some_iff hnodup).mp hq'
    exact ⟨hsub hmem, hkey⟩
  rw [← Search.map_key_of_forall₂ hfound] at hperm
  rw [Production.addable_congr_kept hperm] at hadd
  refine ⟨?_, hperm.nodup_iff.mp hnodup, hproduction, hsim, hfound, hadd, hnew⟩
  -- The leader has the key of one of the polygons found, and so it is that polygon.
  have hkey : q.key ∈ c.found.map Polygon.key :=
    hperm.mem_iff.mp (List.mem_map_of_mem List.mem_cons_self)
  obtain ⟨q', hq', heq⟩ := List.mem_map.mp hkey
  have hmem : q' ∈ store.toList := Search.mem_of_forall₂ hfound hq'
  rwa [← hs.eq_of_key_eq hmem (hsub List.mem_cons_self) heq]

/-- Distinct polygons of a store are one of its subsets, in some order. -/
lemma exists_sublist_perm (hsub : found ⊆ store.toList) (hnodup : (found.map Polygon.key).Nodup) :
    ∃ subset : List Polygon, subset.Sublist store.toList ∧ subset.Perm found := by
  have hfilter : (store.toList.filter fun q => decide (q.key ∈ found.map Polygon.key)).Sublist
      store.toList := List.filter_sublist
  refine ⟨_, hfilter, ?_⟩
  have hfiltered := ((hfilter.map Polygon.key).nodup hs.keys_nodup).of_map
  rw [List.perm_ext_iff_of_nodup hfiltered hnodup.of_map]
  intro q
  rw [List.mem_filter, decide_eq_true_iff]
  constructor
  · rintro ⟨hq, hkey⟩
    obtain ⟨q', hq', heq⟩ := List.mem_map.mp hkey
    rwa [← hs.eq_of_key_eq (hsub hq') hq heq]
  · intro hq
    exact ⟨hsub hq, List.mem_map_of_mem hq⟩

/-- The proposals of an enumeration are those for which distinct polygons were found under the
displacement to one of them. -/
lemma mem_run_iff {ps : List Production} :
    c ∈ run store ps admits ↔ ∃ p ∈ ps, ∃ m ∈ p.pattern.head?, ∃ q ∈ c.found,
      (c.found.map Polygon.key).Nodup ∧
        c.Realizes store admits p (shiftTo m q) (shiftImage m q) := by
  simp only [run, List.mem_flatMap, mem_ofProduction_iff]
  refine exists_congr fun p => and_congr_right fun _ => ?_
  constructor
  · rintro ⟨hne, subset, ⟨hsub, hlen⟩, found, hlead, hpropose⟩
    obtain ⟨m, ms, hp⟩ := List.exists_cons_of_ne_nil hne
    have hperm := perm_of_mem_leaders hlead
    obtain ⟨q, rest, rfl⟩ : ∃ q rest, found = q :: rest := by
      refine List.exists_cons_of_ne_nil fun hnil => hne ?_
      rw [← List.length_eq_zero_iff, ← hlen, ← hperm.length_eq, hnil]
      rfl
    have hnodup : ((q :: rest).map Polygon.key).Nodup :=
      (hperm.map Polygon.key).nodup_iff.mpr ((hsub.map Polygon.key).nodup hs.keys_nodup)
    have hmem : (q :: rest) ⊆ store.toList := fun x hx => hsub.subset (hperm.subset hx)
    exact ⟨m, by rw [hp]; rfl, q, realizes_of_propose hs hp hmem hnodup hpropose⟩
  · rintro ⟨m, hm, q, hq, hnodup, h⟩
    obtain ⟨ms, hp⟩ : ∃ ms, p.pattern = m :: ms := List.head?_eq_some_iff.mp hm
    obtain ⟨subset, hsub, hperm⟩ :=
      exists_sublist_perm hs (fun x hx => Search.mem_of_forall₂ h.found hx) hnodup
    obtain ⟨rest, hlead⟩ := exists_mem_leaders (hperm.mem_iff.mpr hq)
    refine ⟨by rw [hp]; exact List.cons_ne_nil m ms, subset, ⟨hsub, ?_⟩, q :: rest, hlead, ?_⟩
    · rw [hperm.length_eq, h.found.length_eq]
    · exact propose_of_realizes hp h hnodup ((perm_of_mem_leaders hlead).trans hperm)

end Consistent

end Enumeration

end ShapeGrammar
