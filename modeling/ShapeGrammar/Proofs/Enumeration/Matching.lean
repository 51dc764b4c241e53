import ShapeGrammar.Proofs.Enumeration.Agreement
import ShapeGrammar.Proofs.Store.Painting

/-!
# Trials and matchings

What an enumeration tries is a `Trial`: a production, a subset of the store, and a member of the
subset as anchor.  There is a proposal exactly if the shapes of the pattern, moved to the anchor, can
be matched one to one with the polygons of the subset (`Trial.Matching`) and there is something to
add; it then holds the polygons as they are matched.

The program compares sets of keys instead.  As no two polygons of a store share a key, a subset that
has as many polygons as the pattern has shapes, and only keys of the pattern, has each of these keys
once, even where two shapes of the pattern could have had the same key.  Both ways of comparing come
down to one permutation of keys (`fits_iff`).
-/

namespace ShapeGrammar

namespace Enumeration

/-- A production, polygons of a store and one of these as anchor. -/
structure Trial where
  production : Production
  subset : List Polygon
  anchor : Polygon

/-- All trials: for each production the subsets with as many polygons as its pattern has shapes, in
lexicographic order, and for each subset its members in turn. -/
def trials (store : Store) (ps : List Production) : List Trial :=
  ps.flatMap fun p => (choose p.arity store.toList).flatMap fun subset =>
    subset.map fun anchor => ⟨p, subset, anchor⟩

namespace Trial

/-- The polygons of the trial, the anchor first. -/
def led (t : Trial) : List Polygon := t.anchor :: t.subset.filter fun q => q.key != t.anchor.key

/-- The shapes that the production would add. -/
def additions (t : Trial) (store : Store) (admits : Shape → Bool) : List Shape :=
  t.production.preview t.led admits store.hasKey

/-- What is proposed after the trial. -/
def outcome (store : Store) (admits : Shape → Bool) (t : Trial) : Option Proposal :=
  propose store admits t.production t.led

/-- The shapes of the pattern are matched one to one with the polygons of the subset, so that every
polygon has the key of its shape under the similarity. -/
structure Matching (t : Trial) (s : Similarity) where
  polygon : Fin t.production.pattern.length ≃ {q // q ∈ t.subset}
  key_eq : ∀ i, (polygon i).1.key = (t.production.pattern.get i).keyUnder s

/-- The polygons matched, in the order of the pattern. -/
def Matching.found {t : Trial} {s : Similarity} (f : t.Matching s) : List Polygon :=
  List.ofFn fun i => (f.polygon i).1

end Trial

lemma mem_trials_iff {store : Store} {ps : List Production} {t : Trial} :
    t ∈ trials store ps ↔ t.production ∈ ps ∧ (t.subset.Sublist store.toList ∧
      t.subset.length = t.production.pattern.length) ∧ t.anchor ∈ t.subset := by
  obtain ⟨p, subset, anchor⟩ := t
  simp only [trials, List.mem_flatMap, mem_choose_iff, List.mem_map, Trial.mk.injEq,
    Production.arity]
  constructor
  · rintro ⟨_, hp, _, hsub, _, hanchor, rfl, rfl, rfl⟩
    exact ⟨hp, hsub, hanchor⟩
  · rintro ⟨hp, hsub, hanchor⟩
    exact ⟨p, hp, subset, hsub, anchor, hanchor, rfl, rfl, rfl⟩

/-! ### Leaders -/

/-- Without a polygon, the others remain. -/
lemma eraseIdx_eq_filter {qs : List Polygon} (h : (qs.map Polygon.key).Nodup) {i : ℕ}
    {q : Polygon} (hq : qs[i]? = some q) : qs.eraseIdx i = qs.filter fun q' => q'.key != q.key := by
  induction qs generalizing i with
  | nil => cases hq
  | cons x xs ih =>
    rw [List.map_cons, List.nodup_cons] at h
    cases i with
    | zero =>
      obtain rfl : x = q := Option.some.inj hq
      have hself : ¬ (x.key != x.key) = true := fun h => bne_iff_ne.mp h rfl
      have hothers : ∀ q' ∈ xs, (q'.key != x.key) = true := fun q' hq' =>
        bne_iff_ne.mpr fun heq => h.1 (heq ▸ List.mem_map_of_mem hq')
      rw [List.eraseIdx_zero, List.tail_cons, List.filter_cons, if_neg hself,
        List.filter_eq_self.mpr hothers]
    | succ i =>
      rw [List.getElem?_cons_succ] at hq
      have hother : (x.key != q.key) = true :=
        bne_iff_ne.mpr fun heq => h.1 (heq ▸ List.mem_map_of_mem (List.mem_of_getElem? hq))
      rw [List.eraseIdx_cons_succ, ih h.2 hq, List.filter_cons, if_pos hother]

/-- Each polygon in turn is put first. -/
lemma leaders_eq_map {qs : List Polygon} (h : (qs.map Polygon.key).Nodup) :
    leaders qs = qs.map fun q => q :: qs.filter fun q' => q'.key != q.key := by
  have hzip : (qs.map fun q => q :: qs.filter fun q' => q'.key != q.key) =
      qs.zipIdx.map fun x => x.1 :: qs.filter fun q' => q'.key != x.1.key := by
    conv_lhs => rw [← List.zipIdx_map_fst 0 qs, List.map_map]
    rw [List.zipIdx_map_fst]
    rfl
  rw [hzip, leaders]
  refine List.map_congr_left fun ⟨q, i⟩ hmem => ?_
  exact congrArg (q :: ·) (eraseIdx_eq_filter h (List.mem_zipIdx_iff_getElem?.mp hmem))

/-- An enumeration goes through all trials. -/
lemma run_eq_filterMap {store : Store} (hs : store.Consistent) (ps : List Production)
    (admits : Shape → Bool) :
    run store ps admits = (trials store ps).filterMap (Trial.outcome store admits) := by
  rw [run, trials, List.filterMap_flatMap]
  refine List.flatMap_congr fun p _ => ?_
  rw [List.filterMap_flatMap, ofProduction]
  split
  · next hzero => rw [hzero, choose]; rfl
  · refine List.flatMap_congr fun subset hsubset => ?_
    have hnodup := ((mem_choose_iff.mp hsubset).1.map Polygon.key).nodup hs.keys_nodup
    rw [leaders_eq_map hnodup, List.filterMap_map, List.filterMap_map]
    rfl

/-! ### Matchings -/

namespace Trial

variable {t : Trial} {s : Similarity}

/-- Putting the anchor first changes the order only. -/
lemma led_perm (hnodup : (t.subset.map Polygon.key).Nodup) (hanchor : t.anchor ∈ t.subset) :
    t.led.Perm t.subset := by
  refine perm_of_mem_leaders ?_
  rw [leaders_eq_map hnodup]
  exact List.mem_map.mpr ⟨t.anchor, hanchor, rfl⟩

/-- No two shapes are matched with one polygon, and no polygon is left. -/
lemma Matching.found_perm (f : t.Matching s) (hnodup : t.subset.Nodup) :
    f.found.Perm t.subset := by
  have hfound : f.found.Nodup :=
    List.nodup_ofFn.mpr (Subtype.val_injective.comp f.polygon.injective)
  rw [List.perm_ext_iff_of_nodup hfound hnodup]
  intro q
  rw [Matching.found, List.mem_ofFn]
  constructor
  · rintro ⟨i, rfl⟩
    exact (f.polygon i).2
  · intro hq
    exact ⟨f.polygon.symm ⟨q, hq⟩, by rw [Equiv.apply_symm_apply]⟩

/-- The polygons matched have the keys of the pattern. -/
lemma Matching.map_key_found (f : t.Matching s) :
    f.found.map Polygon.key = t.production.pattern.map fun m => m.keyUnder s := by
  calc f.found.map Polygon.key
      = List.ofFn fun i => (f.polygon i).1.key := List.map_ofFn
    _ = List.ofFn fun i => (t.production.pattern.get i).keyUnder s := by simp only [f.key_eq]
    _ = (List.ofFn t.production.pattern.get).map fun m => m.keyUnder s := by
      rw [List.map_ofFn]
      rfl
    _ = t.production.pattern.map fun m => m.keyUnder s := by rw [List.ofFn_get]

/-- The polygons of the subset, in an order in which they have the keys of the pattern, are a
matching. -/
lemma exists_matching {ordered : List Polygon} (hnodup : t.subset.Nodup)
    (hperm : ordered.Perm t.subset)
    (hkeys : ordered.map Polygon.key = t.production.pattern.map fun m => m.keyUnder s) :
    ∃ f : t.Matching s, f.found = ordered := by
  classical
  have hlength : t.production.pattern.length = ordered.length := by
    simpa only [List.length_map] using (congrArg List.length hkeys).symm
  have hordered : ordered.Nodup := hperm.nodup_iff.mpr hnodup
  let polygon : Fin t.production.pattern.length ≃ {q // q ∈ t.subset} :=
    ((finCongr hlength).trans (hordered.getEquiv ordered)).trans
      (Equiv.subtypeEquivRight fun _ => hperm.mem_iff)
  have hpolygon : ∀ i, (polygon i).1 = ordered.get (i.cast hlength) := fun _ => rfl
  refine ⟨⟨polygon, fun i => ?_⟩, ?_⟩
  · have hkey := List.getElem_of_eq hkeys (by rw [List.length_map, ← hlength]; exact i.isLt)
    rwa [List.getElem_map, List.getElem_map] at hkey
  · rw [Matching.found]
    simp only [hpolygon]
    refine List.ext_get (by rw [List.length_ofFn, hlength]) fun i hi hi' => ?_
    rw [List.get_ofFn]
    rfl

section Consistent

variable {store : Store} {m : Shape} (hnodup : (t.subset.map Polygon.key).Nodup)
  (hanchor : t.anchor ∈ t.subset)

include hnodup

/-- There is at most one matching. -/
lemma subsingleton_matching : Subsingleton (t.Matching s) := by
  refine ⟨fun ⟨polygon, hkey⟩ ⟨polygon', hkey'⟩ => ?_⟩
  have heq : polygon = polygon' := by
    refine Equiv.ext fun i => Subtype.ext ?_
    exact List.inj_on_of_nodup_map hnodup (polygon i).2 (polygon' i).2
      ((hkey i).trans (hkey' i).symm)
  subst heq
  rfl

include hanchor

/-- The polygons of a matching are found by the keys of the pattern. -/
lemma Matching.inPatternOrder_eq (f : t.Matching s) :
    inPatternOrder t.led s t.production.pattern = some f.found := by
  have hperm := led_perm hnodup hanchor
  have hled := (hperm.map Polygon.key).nodup_iff.mpr hnodup
  refine inPatternOrder_eq_some_iff.mpr (List.forall₂_iff_get.mpr ?_)
  refine ⟨(List.length_ofFn).symm, fun i hi hi' => ?_⟩
  have hget : f.found.get ⟨i, hi'⟩ = (f.polygon ⟨i, hi⟩).1 := List.getElem_ofFn _
  rw [hget, find?_key_eq_some_iff hled, hperm.mem_iff]
  exact ⟨(f.polygon ⟨i, hi⟩).2, f.key_eq ⟨i, hi⟩⟩

/-- The sets of keys agree exactly if there is a matching. -/
lemma fits_iff_nonempty_matching (hm : m ∈ t.production.pattern.head?)
    (hlength : t.subset.length = t.production.pattern.length) :
    t.production.fits t.led = true ↔ Nonempty (t.Matching (shiftTo m t.anchor)) := by
  obtain ⟨ms, hp⟩ := List.head?_eq_some_iff.mp hm
  have hperm := led_perm hnodup hanchor
  have hfits := fits_iff hp ((hperm.map Polygon.key).nodup_iff.mpr hnodup)
  rw [← led, and_iff_right (hperm.length_eq.trans hlength)] at hfits
  rw [hfits]
  constructor
  · intro hkeys
    -- The pattern has the keys of the subset in its own order, and so orders the subset.
    have hsubset : List.Forall₂ (fun (k : Key) (q : Polygon) => k = q.key)
        (t.subset.map Polygon.key) t.subset :=
      List.forall₂_map_left_iff.mpr (List.forall₂_same.mpr fun _ _ => rfl)
    obtain ⟨ordered, hordered, hperm'⟩ :=
      List.perm_comp_forall₂ (hkeys.symm.trans (hperm.map Polygon.key)) hsubset
    rw [← List.forall₂_map_right_iff, List.forall₂_eq_eq_eq] at hordered
    obtain ⟨f, -⟩ := exists_matching hnodup.of_map hperm' hordered.symm
    exact ⟨f⟩
  · rintro ⟨f⟩
    rw [← f.map_key_found]
    exact (hperm.trans (f.found_perm hnodup.of_map).symm).map Polygon.key

/-- Either there is no matching or it makes the one proposal of the trial, unless nothing is to be
added. -/
lemma outcome_eq_some_iff {admits : Shape → Bool} {c : Proposal}
    (hm : m ∈ t.production.pattern.head?)
    (hlength : t.subset.length = t.production.pattern.length) :
    t.outcome store admits = some c ↔ t.additions store admits ≠ [] ∧
      ∃ f : t.Matching (shiftTo m t.anchor),
        c = ⟨t.production, f.found, t.additions store admits, shiftTo m t.anchor⟩ := by
  obtain ⟨ms, hp⟩ := List.head?_eq_some_iff.mp hm
  have hfits := fits_iff_nonempty_matching hnodup hanchor hm hlength
  rw [outcome, led, propose_eq_some_iff hp, ← preview_eq_addable hp, ← led, hfits]
  rw [← additions]
  obtain ⟨production, found, shapes, similarity⟩ := c
  constructor
  · rintro ⟨⟨f⟩, rfl, rfl, horder, rfl, hnew⟩
    obtain rfl := Option.some.inj ((f.inPatternOrder_eq hnodup hanchor).symm.trans horder)
    exact ⟨hnew, f, rfl⟩
  · rintro ⟨hnew, f, hc⟩
    cases hc
    exact ⟨⟨f⟩, rfl, rfl, f.inPatternOrder_eq hnodup hanchor, rfl, hnew⟩

end Consistent

end Trial

/-- On every store that can be reached, an enumeration goes through all trials and keeps what comes
out of them, in order.  The subsets that are tried are all subsets with as many polygons as the
pattern has shapes, in the lexicographic order that comes from painter's order, and a walk from one
subset to the next hands out the same.  There is a proposal exactly if there is something to add and
the pattern, moved to the anchor, has a matching with the subset.  The matching is then unique, and
the proposal holds the polygons as they are matched; the search for them in the order of the pattern
never fails once the sets of keys agree. -/
theorem enumeration_finds_every_matching {store : Store} (h : store.Reachable)
    (ps : List Production) (admits : Shape → Bool) :
    run store ps admits = (trials store ps).filterMap (Trial.outcome store admits) ∧
    store.InOrder ∧
    (∀ k, ListsSubsets k store.toList (choose k store.toList) ∧
      (Subsets.ofSize store.toList k).remaining.1 = choose k store.toList) ∧
    ∀ t ∈ trials store ps, ∃ m ∈ t.production.pattern.head?,
      (∀ c, t.outcome store admits = some c ↔ t.additions store admits ≠ [] ∧
        ∃ f : t.Matching (shiftTo m t.anchor),
          c = ⟨t.production, f.found, t.additions store admits, shiftTo m t.anchor⟩) ∧
      Subsingleton (t.Matching (shiftTo m t.anchor)) ∧
      (t.production.fits t.led = true →
        inPatternOrder t.led (shiftTo m t.anchor) t.production.pattern ≠ none) := by
  have hs : store.Consistent := h.consistent
  refine ⟨run_eq_filterMap hs ps admits, h.inOrder, fun k => ?_, fun t ht => ?_⟩
  · exact ⟨listsSubsets_choose k store.toList, Subsets.remaining_ofSize store.toList k⟩
  · obtain ⟨-, ⟨hsub, hlength⟩, hanchor⟩ := mem_trials_iff.mp ht
    have hnodup := (hsub.map Polygon.key).nodup hs.keys_nodup
    have hne : t.production.pattern ≠ [] := by
      rw [← List.length_pos_iff, ← hlength]
      exact List.length_pos_of_mem hanchor
    obtain ⟨m, ms, hp⟩ := List.exists_cons_of_ne_nil hne
    have hm : m ∈ t.production.pattern.head? := List.head?_eq_some_iff.mpr ⟨ms, hp⟩
    refine ⟨m, hm, fun c => Trial.outcome_eq_some_iff hnodup hanchor hm hlength,
      Trial.subsingleton_matching hnodup, fun hfits => ?_⟩
    obtain ⟨f⟩ := (Trial.fits_iff_nonempty_matching hnodup hanchor hm hlength).mp hfits
    rw [f.inPatternOrder_eq hnodup hanchor]
    exact Option.some_ne_none f.found

/-- Of the two trials with a pair of triangles, the one with the left triangle as anchor is a match.
-/
theorem pair_is_matched :
    pair.Reachable ∧ (trials pair [pairRule]).length = 2 ∧
    ∃ t ∈ trials pair [pairRule], ∃ c, t.outcome pair (fun _ => true) = some c ∧
      c.found.map Polygon.id = [1, 2] := by
  have hreach : pair.Reachable := ⟨_, rfl⟩
  obtain ⟨t, ht, hids, hcodes, hnew⟩ : ∃ t ∈ trials pair [pairRule],
      t.subset.reverse.map Polygon.id = [1, 2] ∧
      (t.subset.reverse.map fun q => q.key.code) = (t.production.pattern.map fun m' =>
        (m'.keyUnder (shiftTo (Search.triangle 0 0 1) t.anchor)).code) ∧
      t.additions pair (fun _ => true) ≠ [] := by
    decide +kernel
  obtain ⟨-, -, -, hall⟩ := enumeration_finds_every_matching hreach [pairRule] fun _ => true
  obtain ⟨m, hm, hiff, -⟩ := hall t ht
  obtain ⟨hp, ⟨hsub, -⟩, -⟩ := mem_trials_iff.mp ht
  rw [List.mem_singleton.mp hp] at hm
  obtain rfl : Search.triangle 0 0 1 = m := Option.some.inj hm
  have hkeys : t.subset.reverse.map Polygon.key = t.production.pattern.map fun m' =>
      m'.keyUnder (shiftTo (Search.triangle 0 0 1) t.anchor) := by
    refine (List.map_injective_iff.mpr fun _ _ => Key.code_injective) ?_
    rw [List.map_map, List.map_map]
    exact hcodes
  have hnodup := ((hsub.map Polygon.key).nodup hreach.consistent.keys_nodup).of_map
  obtain ⟨f, hf⟩ := Trial.exists_matching hnodup (List.reverse_perm t.subset) hkeys
  exact ⟨hreach, by decide +kernel, t, ht, _, (hiff _).mpr ⟨hnew, f, rfl⟩, hf ▸ hids⟩

end Enumeration

end ShapeGrammar
