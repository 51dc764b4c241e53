import Mathlib.Data.List.ProdSigma
import ShapeGrammar.Proofs.Search.Proposals
import ShapeGrammar.Proofs.Store.History

/-!
# An exhaustive search finds exactly what applies

`Search.Applies` says, without going through the search, when a production applies to a store at an
anchor: the similarity `Search.fitting` that takes the first edge and the first vertex of the
pattern to those of the anchor has a finite scale above zero, everything the pattern asks for is
present under it, nothing outside the region would be added, and something new would be.
`Search.Describes` says what the proposal for such a pair is.

For one pair there is a proposal exactly if the production applies (`Search.exists_propose_iff`), and
it is the one described (`Search.describes_of_propose`).  As a search goes through all pairs in
order, its result is then the list of the pairs at which a production applies, each with its one
proposal.
-/

namespace ShapeGrammar

/-- The keys of the polygons, in painter's order. -/
def Store.keys (s : Store) : List Key := s.toList.map Polygon.key

/-- A key is taken exactly when a polygon of the store has it. -/
lemma Store.Consistent.hasKey_iff_mem_keys {s : Store} (hs : s.Consistent) (k : Key) :
    s.hasKey k = true ↔ k ∈ s.keys := by
  rw [hs.hasKey_iff_mem, Store.keys, List.mem_map]

/-- A key is free exactly when no polygon of the store has it. -/
lemma Store.Consistent.not_hasKey_eq_decide {s : Store} (hs : s.Consistent) (k : Key) :
    (!s.hasKey k) = decide (k ∉ s.keys) := by
  by_cases hk : k ∈ s.keys
  · simp [hk, (hs.hasKey_iff_mem_keys k).mpr hk]
  · have hfree : s.hasKey k = false := by
      rw [Bool.eq_false_iff]
      exact fun htaken => hk ((hs.hasKey_iff_mem_keys k).mp htaken)
    simp [hk, hfree]

namespace Search

/-! ### Where a production applies -/

/-- The similarity whose scale takes the first edge of `m` to that of `anchor`, and whose
displacement, on the coordinate grid, takes the first vertex of `m` to that of `anchor`. -/
def fitting (m anchor : Shape) : Similarity where
  scale := anchor.referenceEdge / m.referenceEdge
  dx := snap (anchor.origin.x - m.origin.x * (anchor.referenceEdge / m.referenceEdge))
  dy := snap (anchor.origin.y - m.origin.y * (anchor.referenceEdge / m.referenceEdge))

/-- The production can be applied under a similarity: every shape of its pattern is in the store,
every result that is not one of them is admitted, and some result is new to the store. -/
@[mk_iff]
structure AppliesUnder (store : Store) (admits : Shape → Bool) (p : Production) (t : Similarity) :
    Prop where
  present : ∀ m ∈ p.pattern, m.keyUnder t ∈ store.keys
  admitted : ∀ r ∈ p.result,
    (r.under t).key ∉ p.pattern.map (fun m => m.keyUnder t) → admits (r.under t) = true
  new : ∃ r ∈ p.result, (r.under t).key ∉ store.keys

/-- The first pattern shape `m` can be taken to the anchor: neither has a first edge without length,
and the scale between the two is finite and above zero. -/
@[mk_iff]
structure Fits (m anchor : Shape) : Prop where
  edge_pos : 0 < m.referenceEdge
  anchor_edge : (anchor.referenceEdge == 0) = false
  scale_finite : (fitting m anchor).scale.isFinite = true
  scale_pos : 0 < (fitting m anchor).scale

/-- The production applies to the store at the anchor. -/
def Applies (store : Store) (admits : Shape → Bool) (p : Production) (anchor : Shape) : Prop :=
  ∃ m ∈ p.pattern.head?, Fits m anchor ∧ AppliesUnder store admits p (fitting m anchor)

instance (store : Store) (admits : Shape → Bool) (p : Production) (t : Similarity) :
    Decidable (AppliesUnder store admits p t) :=
  decidable_of_iff' _ (appliesUnder_iff store admits p t)

instance (m anchor : Shape) : Decidable (Fits m anchor) :=
  decidable_of_iff' _ (fits_iff m anchor)

instance (store : Store) (admits : Shape → Bool) (p : Production) (anchor : Shape) :
    Decidable (Applies store admits p anchor) :=
  inferInstanceAs
    (Decidable (∃ m ∈ p.pattern.head?, Fits m anchor ∧ AppliesUnder store admits p (fitting m anchor)))

/-- What the proposal of a production at an anchor is: the similarity fits the pattern to the
anchor, the polygons found are those of the store with the keys of the pattern, in its order, and
the shapes to add are the images of the results that are new to the store, in the order of the
results. -/
structure Describes (store : Store) (pair : Production × Polygon) (c : Proposal) : Prop where
  production : c.production = pair.1
  similarity : ∃ m ∈ pair.1.pattern.head?, c.similarity = fitting m pair.2.shape
  found : List.Forall₂ (fun m q => q ∈ store.toList ∧ q.key = m.keyUnder c.similarity)
    pair.1.pattern c.found
  additions : c.additions =
    (pair.1.result.map fun r => r.under c.similarity).filter fun s => decide (s.key ∉ store.keys)

/-! ### One pair -/

/-- The first pattern shape is aligned with an anchor by the fitting similarity, unless the anchor
has a first edge without length or the scale is not a finite number above zero. -/
lemma align_eq_some_iff {m anchor : Shape} {t : Similarity} :
    align m m.referenceEdge anchor = some t ↔
      ((anchor.referenceEdge == 0) = false ∧ (fitting m anchor).scale.isFinite = true ∧
        0 < (fitting m anchor).scale) ∧ t = fitting m anchor := by
  have heq : align m m.referenceEdge anchor =
      if anchor.referenceEdge == 0 || !(fitting m anchor).scale.isFinite ||
        decide ((fitting m anchor).scale ≤ 0) then none else some (fitting m anchor) := rfl
  rw [heq]
  split
  · next hskip =>
    refine ⟨fun h => absurd h.symm (Option.some_ne_none t), ?_⟩
    rintro ⟨⟨hedge, hfin, hpos⟩, -⟩
    have hle : ¬ (fitting m anchor).scale ≤ 0 := (Number.pos_iff_of_isFinite hfin).mp hpos
    simp [hedge, hfin, hle] at hskip
  · next hgo =>
    simp only [Bool.or_eq_true, Bool.not_eq_true', decide_eq_true_iff, not_or,
      Bool.not_eq_false, Bool.not_eq_true] at hgo
    obtain ⟨⟨hedge, hfin⟩, hle⟩ := hgo
    rw [Option.some_inj]
    have hpos : 0 < (fitting m anchor).scale := (Number.pos_iff_of_isFinite hfin).mpr hle
    exact ⟨fun h => ⟨⟨hedge, hfin, hpos⟩, h.symm⟩, fun h => h.2.symm⟩

/-- An anchor has an alignment exactly if the pattern fits it, and then the alignment is the fitting
similarity. -/
lemma alignment_eq_some_iff {p : Production} {anchor : Shape} {t : Similarity} :
    alignment p anchor = some t ↔ ∃ m ∈ p.pattern.head?, Fits m anchor ∧ t = fitting m anchor := by
  unfold alignment patternEdge
  cases p.pattern with
  | nil => simp
  | cons m ms =>
    simp only [List.head?_cons, Option.mem_some_iff, exists_eq_left', fits_iff]
    by_cases hpos : 0 < m.referenceEdge
    · rw [if_pos hpos]
      simp only [align_eq_some_iff, hpos, true_and]
    · rw [if_neg hpos]
      simp only [hpos, false_and, reduceCtorEq]

section Additions

variable {store : Store} {admits : Shape → Bool} {p : Production} {t : Similarity}
  {found : List Polygon} (hs : store.Consistent) (hfound : findAll store t p.pattern = some found)

include hs hfound

/-- Results that are kept are in the store, so that leaving out what the store has leaves them out
as well. -/
lemma filter_fresh :
    ((fresh p t (found.map Polygon.key)).filter fun s => !store.hasKey s.key) =
      (p.result.map fun r => r.under t).filter fun s => decide (s.key ∉ store.keys) := by
  rw [fresh, List.filter_filter, map_key_of_findAll hs hfound]
  refine List.filter_congr fun s _ => ?_
  rw [hs.not_hasKey_eq_decide, Bool.and_eq_left_iff_imp, decide_eq_true_iff, Bool.not_eq_true',
    ← Bool.not_eq_true, List.contains_iff_mem]
  intro hnew hkept
  obtain ⟨m, hm, hkey⟩ := List.mem_map.mp hkept
  have htaken : store.hasKey (m.keyUnder t) = true := exists_findAll_iff.mp ⟨found, hfound⟩ m hm
  rw [hs.hasKey_iff_mem_keys, hkey] at htaken
  exact hnew htaken

/-- What is not kept is admitted as a whole exactly if every result with a key outside the pattern
is. -/
lemma all_fresh_iff :
    (fresh p t (found.map Polygon.key)).all admits = true ↔
      ∀ r ∈ p.result,
        (r.under t).key ∉ p.pattern.map (fun m => m.keyUnder t) → admits (r.under t) = true := by
  rw [fresh, map_key_of_findAll hs hfound, List.all_eq_true]
  simp only [List.mem_filter, List.mem_map, Bool.not_eq_true', ← Bool.not_eq_true,
    List.contains_iff_mem]
  constructor
  · intro h r hr hnew
    exact h _ ⟨⟨r, hr, rfl⟩, by simpa using hnew⟩
  · rintro h _ ⟨⟨r, hr, rfl⟩, hnew⟩
    exact h r hr (by simpa using hnew)

/-- If anything is added, it is all the results that are new to the store. -/
lemma additions_eq_filter (hne : additions store p admits t found ≠ []) :
    additions store p admits t found =
      (p.result.map fun r => r.under t).filter fun s => decide (s.key ∉ store.keys) := by
  rw [additions_eq, filter_fresh hs hfound] at hne ⊢
  split at hne
  · next hall => rw [if_pos hall]
  · exact absurd rfl hne

/-- Where the pattern is found, something is added exactly if the production can be applied. -/
lemma additions_ne_nil_iff :
    additions store p admits t found ≠ [] ↔ AppliesUnder store admits p t := by
  have hpresent : ∀ m ∈ p.pattern, m.keyUnder t ∈ store.keys := by
    intro m hm
    rw [← hs.hasKey_iff_mem_keys]
    exact exists_findAll_iff.mp ⟨found, hfound⟩ m hm
  have hnew : ((p.result.map fun r => r.under t).filter fun s => decide (s.key ∉ store.keys)) ≠ [] ↔
      ∃ r ∈ p.result, (r.under t).key ∉ store.keys := by
    simp [List.filter_eq_nil_iff]
  rw [additions_eq, filter_fresh hs hfound]
  by_cases hall : (fresh p t (found.map Polygon.key)).all admits = true
  · rw [if_pos hall, hnew]
    exact ⟨fun h => ⟨hpresent, (all_fresh_iff hs hfound).mp hall, h⟩, fun h => h.new⟩
  · rw [if_neg hall]
    refine ⟨fun h => absurd rfl h, fun h => ?_⟩
    exact absurd ((all_fresh_iff hs hfound).mpr h.admitted) hall

end Additions

/-- A proposal is there exactly if the production applies at the anchor. -/
lemma exists_propose_iff {store : Store} (hs : store.Consistent) {admits : Shape → Bool}
    {p : Production} {anchor : Polygon} :
    (∃ c, propose store admits p anchor = some c) ↔ Applies store admits p anchor.shape := by
  constructor
  · rintro ⟨c, hc⟩
    obtain ⟨-, halign, hfound, hadd, hne⟩ := propose_eq_some_iff.mp hc
    obtain ⟨m, hm, hfits, ht⟩ := alignment_eq_some_iff.mp halign
    rw [← hadd, additions_ne_nil_iff hs hfound, ht] at hne
    exact ⟨m, hm, hfits, hne⟩
  · rintro ⟨m, hm, hfits, happlies⟩
    have halign : alignment p anchor.shape = some (fitting m anchor.shape) :=
      alignment_eq_some_iff.mpr ⟨m, hm, hfits, rfl⟩
    obtain ⟨found, hfound⟩ := exists_findAll_iff.mpr fun m' hm' =>
      (hs.hasKey_iff_mem_keys _).mpr (happlies.present m' hm')
    have hne := (additions_ne_nil_iff hs hfound).mpr happlies
    exact ⟨⟨p, found, _, fitting m anchor.shape⟩,
      propose_eq_some_iff.mpr ⟨rfl, halign, hfound, rfl, hne⟩⟩

/-- A proposal is what the production, the anchor and the store determine. -/
lemma describes_of_propose {store : Store} (hs : store.Consistent) {admits : Shape → Bool}
    {p : Production} {anchor : Polygon} {c : Proposal} (hc : propose store admits p anchor = some c) :
    Describes store (p, anchor) c := by
  obtain ⟨hp, halign, hfound, hadd, hne⟩ := propose_eq_some_iff.mp hc
  obtain ⟨m, hm, -, ht⟩ := alignment_eq_some_iff.mp halign
  refine ⟨hp, ⟨m, hm, ht⟩, forall₂_of_findAll hs hfound, ?_⟩
  rw [← hadd] at hne ⊢
  exact additions_eq_filter hs hfound hne

/-! ### All pairs -/

/-- If `f` has a result exactly where `p` holds, and the result is related to its argument, then the
results along a list are related, one by one, to the members that satisfy `p`. -/
lemma forall₂_filter_filterMap {α β : Type} {p : α → Prop} [DecidablePred p] {f : α → Option β}
    {R : α → β → Prop} {xs : List α} (hsome : ∀ x ∈ xs, (∃ y, f x = some y) ↔ p x)
    (hR : ∀ x y, f x = some y → R x y) :
    List.Forall₂ R (xs.filter fun x => decide (p x)) (xs.filterMap f) := by
  induction xs with
  | nil => exact .nil
  | cons x xs ih =>
    have hrest := ih fun y hy => hsome y (List.mem_cons_of_mem _ hy)
    have hx := hsome x List.mem_cons_self
    cases hf : f x with
    | none =>
      have hno : ¬ p x := by
        rw [← hx, hf]
        rintro ⟨y, hy⟩
        exact absurd hy.symm (Option.some_ne_none y)
      rw [List.filterMap_cons_none hf, List.filter_cons_of_neg (by simpa using hno)]
      exact hrest
    | some y =>
      have hyes : p x := hx.mp ⟨y, hf⟩
      rw [List.filterMap_cons_some hf, List.filter_cons_of_pos (by simpa using hyes)]
      exact .cons (hR x y hf) hrest

/-- Going through all pairs is going through the second list for each entry of the first. -/
lemma filterMap_product {α β γ : Type} (f : α × β → Option γ) (xs : List α) (ys : List β) :
    (xs ×ˢ ys).filterMap f = xs.flatMap fun x => ys.filterMap fun y => f (x, y) := by
  induction xs with
  | nil => rfl
  | cons x xs ih =>
    rw [List.product_cons, List.filterMap_append, List.filterMap_map, ih]
    rfl

/-- The list of all proposals goes through the pairs of a production and an anchor, productions
outermost. -/
lemma allProposals_eq_filterMap (store : Store) (admits : Shape → Bool) (ps : List Production) :
    allProposals store admits ps =
      (ps ×ˢ store.toList).filterMap fun pair => propose store admits pair.1 pair.2 :=
  (filterMap_product (fun pair => propose store admits pair.1 pair.2) ps store.toList).symm

/-- A production has a proposal exactly if it applies at some anchor. -/
lemma exists_mem_allProposals_iff {store : Store} (hs : store.Consistent) {admits : Shape → Bool}
    {ps : List Production} {p : Production} :
    (∃ c ∈ allProposals store admits ps, c.production = p) ↔
      p ∈ ps ∧ ∃ anchor ∈ store.toList, Applies store admits p anchor.shape := by
  constructor
  · rintro ⟨c, hc, rfl⟩
    obtain ⟨p, hp, anchor, hanchor, hpropose⟩ := mem_allProposals_iff.mp hc
    obtain rfl := (describes_of_propose hs hpropose).production
    exact ⟨hp, anchor, hanchor, (exists_propose_iff hs).mp ⟨c, hpropose⟩⟩
  · rintro ⟨hp, anchor, hanchor, happlies⟩
    obtain ⟨c, hpropose⟩ := (exists_propose_iff hs).mpr happlies
    exact ⟨c, mem_allProposals_iff.mpr ⟨p, hp, anchor, hanchor, hpropose⟩,
      (describes_of_propose hs hpropose).production⟩

/-- On every store with a history, for every list of productions and every condition of admission,
an exhaustive search without a limit draws nothing and gives one proposal for each pair of a
production and an anchor at which the production applies, in the order of the pairs, productions
outermost, and nothing else; and each proposal is the one that its pair describes. -/
theorem exhaustive_search_finds_exactly_what_applies {store : Store} (h : store.Reachable)
    (ps : List Production) (admits : Shape → Bool) (g : Generator) :
    (run store ps admits .exhaustive none g).2 = g ∧
      List.Forall₂ (Describes store)
        ((ps ×ˢ store.toList).filter fun pair => decide (Applies store admits pair.1 pair.2.shape))
        (run store ps admits .exhaustive none g).1 := by
  rw [run_exhaustive, cut, allProposals_eq_filterMap]
  refine ⟨rfl, forall₂_filter_filterMap ?_ ?_⟩
  · exact fun pair _ => exists_propose_iff h.consistent
  · exact fun pair c hc => describes_of_propose h.consistent hc

/-! ### Right triangles -/

/-- The right triangle with its corner at `(x, y)` and legs along the axes. -/
def triangle (x y leg : Float) : Shape where
  vertices := [⟨x, y⟩, ⟨x + leg, y⟩, ⟨x, y + leg⟩]
  style := .plain
  three_le := Nat.le_refl 3

/-- Two triangles side by side, a larger one, and one without extent. -/
def triangles : Store :=
  Store.after [.insert (fun _ => true) (triangle 0 0 1), .insert (fun _ => true) (triangle 1 0 1),
    .insert (fun _ => true) (triangle 4 4 2), .insert (fun _ => true) (triangle 8 8 0)]

/-- A production whose pattern has no first edge, and one that keeps a triangle and adds its right
neighbour. -/
def triangleRules : List Production :=
  [⟨1, [triangle 0 0 0], [triangle 1 0 1]⟩,
    ⟨2, [triangle 0 0 1], [triangle 0 0 1, triangle 1 0 1]⟩]

theorem exhaustive_search_of_triangles :
    triangles.Reachable ∧
    (∀ g, ((run triangles triangleRules (fun _ => true) .exhaustive none g).1.map
      fun c => (c.production.id, c.found.map Polygon.id, c.additions.length)) =
        [(2, [3], 1), (2, [2], 1)]) ∧
    ∀ g, List.Forall₂ (Describes triangles)
      ((triangleRules ×ˢ triangles.toList).filter
        fun pair => decide (Applies triangles (fun _ => true) pair.1 pair.2.shape))
      (run triangles triangleRules (fun _ => true) .exhaustive none g).1 := by
  have hreach : triangles.Reachable := ⟨_, rfl⟩
  have hlist : (allProposals triangles (fun _ => true) triangleRules).map
      (fun c => (c.production.id, c.found.map Polygon.id, c.additions.length)) =
        [(2, [3], 1), (2, [2], 1)] := by
    decide +kernel
  refine ⟨hreach, ?_, ?_⟩
  · intro g
    simp only [run_exhaustive, cut, hlist]
  · exact fun g =>
      (exhaustive_search_finds_exactly_what_applies hreach triangleRules (fun _ => true) g).2

end Search

end ShapeGrammar
