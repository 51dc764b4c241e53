import Mathlib.Data.List.Pairwise
import ShapeGrammar.Proofs.Search.Completeness

/-!
# Proposals that are found more than once

A search looks at every anchor once, but the anchor is not recorded in a proposal: two anchors from
which the same similarity is read give the same proposal twice (`Proposal.Repeats`).

What a proposal says is determined by the keys that its similarity gives.  So two anchors of one
production give the same proposal exactly if their similarities have the same effect
(`Search.SameEffect`), and a search repeats nothing exactly if no production has two such anchors.
This is so in particular if each anchor is the polygon that the first pattern shape finds.
-/

namespace ShapeGrammar

/-- The two proposals have productions of one number, found the same polygons in the same order, and
add shapes of the same keys. -/
def Proposal.Repeats (c c' : Proposal) : Prop :=
  c.production.id = c'.production.id ∧ c.foundIds = c'.foundIds ∧
    ∀ k, k ∈ c.additions.map Shape.key ↔ k ∈ c'.additions.map Shape.key

lemma Proposal.Repeats.symm {c c' : Proposal} (h : c.Repeats c') : c'.Repeats c :=
  ⟨h.1.symm, h.2.1.symm, fun k => (h.2.2 k).symm⟩

/-- If a function tells the members of a list apart, it tells lists of members apart. -/
lemma map_eq_map_iff_of_nodup {α β : Type} {f : α → β} {xs ys zs : List α}
    (hf : (xs.map f).Nodup) (hys : ys ⊆ xs) (hzs : zs ⊆ xs) : ys.map f = zs.map f ↔ ys = zs := by
  refine ⟨fun h => ?_, congrArg _⟩
  induction ys generalizing zs with
  | nil => exact (List.map_eq_nil_iff.mp h.symm).symm
  | cons y ys ih =>
    cases zs with
    | nil => exact absurd h (List.cons_ne_nil _ _)
    | cons z zs =>
      obtain ⟨hy, hys⟩ := List.cons_subset.mp hys
      obtain ⟨hz, hzs⟩ := List.cons_subset.mp hzs
      obtain ⟨hhead, htail⟩ := List.cons.inj h
      rw [List.inj_on_of_nodup_map hf hy hz hhead, ih hys hzs htail]

namespace Search

/-- Under both similarities the pattern asks for the same polygons, and the same keys are new to the
store. -/
structure SameEffect (store : Store) (p : Production) (t t' : Similarity) : Prop where
  pattern : ∀ m ∈ p.pattern, m.keyUnder t = m.keyUnder t'
  result : ∀ k, k ∉ store.keys →
    ((∃ r ∈ p.result, (r.under t).key = k) ↔ ∃ r ∈ p.result, (r.under t').key = k)

/-- The shapes to add have the keys of the results that are new to the store. -/
lemma Describes.mem_map_key_additions_iff {store : Store} {pair : Production × Polygon}
    {c : Proposal} (h : Describes store pair c) {k : Key} :
    k ∈ c.additions.map Shape.key ↔
      k ∉ store.keys ∧ ∃ r ∈ pair.1.result, (r.under c.similarity).key = k := by
  rw [h.additions]
  simp only [List.mem_map, List.mem_filter, decide_eq_true_iff]
  constructor
  · rintro ⟨_, ⟨⟨r, hr, rfl⟩, hnew⟩, rfl⟩
    exact ⟨hnew, r, hr, rfl⟩
  · rintro ⟨hnew, r, hr, rfl⟩
    exact ⟨r.under c.similarity, ⟨⟨r, hr, rfl⟩, hnew⟩, rfl⟩

section Anchors

variable {store : Store} (h : store.Reachable) {p : Production} {a b : Polygon} {c c' : Proposal}
  (hc : Describes store (p, a) c) (hc' : Describes store (p, b) c')

include h hc hc'

/-- The same polygons were found exactly if the pattern asks for the same keys. -/
lemma foundIds_eq_iff : c.foundIds = c'.foundIds ↔
    ∀ m ∈ p.pattern, m.keyUnder c.similarity = m.keyUnder c'.similarity := by
  have hfound : c.found ⊆ store.toList := fun _ hq => mem_of_forall₂ hc.found hq
  have hfound' : c'.found ⊆ store.toList := fun _ hq => mem_of_forall₂ hc'.found hq
  have hids : c.foundIds = c'.foundIds ↔ c.found = c'.found :=
    map_eq_map_iff_of_nodup h.ids_nodup hfound hfound'
  have hkeys : c.found.map Polygon.key = c'.found.map Polygon.key ↔ c.found = c'.found :=
    map_eq_map_iff_of_nodup h.consistent.keys_nodup hfound hfound'
  rw [hids, ← hkeys, map_key_of_forall₂ hc.found, map_key_of_forall₂ hc'.found, List.map_inj_left]

/-- Two anchors of one production give the same proposal exactly if their similarities have the same
effect. -/
lemma repeats_iff_sameEffect : c.Repeats c' ↔ SameEffect store p c.similarity c'.similarity := by
  have hid : c.production.id = c'.production.id := by rw [hc.production, hc'.production]
  have hadd : (∀ k, k ∈ c.additions.map Shape.key ↔ k ∈ c'.additions.map Shape.key) ↔
      ∀ k, k ∉ store.keys → ((∃ r ∈ p.result, (r.under c.similarity).key = k) ↔
        ∃ r ∈ p.result, (r.under c'.similarity).key = k) := by
    simp only [hc.mem_map_key_additions_iff, hc'.mem_map_key_additions_iff, and_congr_right_iff]
  unfold Proposal.Repeats
  rw [foundIds_eq_iff h hc hc', hadd]
  exact ⟨fun hrep => ⟨hrep.2.1, hrep.2.2⟩, fun hsame => ⟨hid, hsame.pattern, hsame.result⟩⟩

end Anchors

/-! ### Whole searches -/

/-- No production has two different anchors at which it applies with the same effect. -/
def AnchorsDiffer (store : Store) (ps : List Production) (admits : Shape → Bool) : Prop :=
  ∀ p ∈ ps, ∀ m ∈ p.pattern.head?, ∀ a ∈ store.toList, ∀ b ∈ store.toList, a.id ≠ b.id →
    Applies store admits p a.shape → Applies store admits p b.shape →
      ¬ SameEffect store p (fitting m a.shape) (fitting m b.shape)

/-- Wherever a production applies, its first pattern shape finds the anchor. -/
def FindsAnchors (store : Store) (ps : List Production) (admits : Shape → Bool) : Prop :=
  ∀ p ∈ ps, ∀ m ∈ p.pattern.head?, ∀ a ∈ store.toList,
    Applies store admits p a.shape → m.keyUnder (fitting m a.shape) = a.key

section Pair

variable {store : Store} {admits : Shape → Bool} {p : Production} {anchor : Polygon} {c : Proposal}

lemma production_of_propose (hc : propose store admits p anchor = some c) : c.production = p :=
  (propose_eq_some_iff.mp hc).1

lemma similarity_of_propose (hs : store.Consistent) {m : Shape} (hm : m ∈ p.pattern.head?)
    (hc : propose store admits p anchor = some c) : c.similarity = fitting m anchor.shape := by
  obtain ⟨m', hm', ht⟩ := (describes_of_propose hs hc).similarity
  rw [ht, Option.mem_unique hm' hm]

end Pair

section Proposals

variable {store : Store} (h : store.Reachable) {admits : Shape → Bool} {p : Production}
  {a b : Polygon} {c c' : Proposal} (hc : propose store admits p a = some c)
  (hc' : propose store admits p b = some c')

include h hc hc'

/-- Whether two anchors of one production give the same proposal can be read off the anchors. -/
lemma repeats_iff_sameEffect_fitting {m : Shape} (hm : m ∈ p.pattern.head?) :
    c.Repeats c' ↔ SameEffect store p (fitting m a.shape) (fitting m b.shape) := by
  have hs := h.consistent
  rw [repeats_iff_sameEffect h (describes_of_propose hs hc) (describes_of_propose hs hc'),
    similarity_of_propose hs hm hc, similarity_of_propose hs hm hc']

/-- Different anchors that are found by the first pattern shape are found in different proposals. -/
lemma foundIds_ne_of_findsAnchors {ps : List Production} (hfinds : FindsAnchors store ps admits)
    (hp : p ∈ ps) (ha : a ∈ store.toList) (hb : b ∈ store.toList) (hne : a.id ≠ b.id) :
    c.foundIds ≠ c'.foundIds := by
  intro hfound
  have hs := h.consistent
  obtain ⟨m, hm, -⟩ := (describes_of_propose hs hc).similarity
  rw [foundIds_eq_iff h (describes_of_propose hs hc) (describes_of_propose hs hc'),
    similarity_of_propose hs hm hc, similarity_of_propose hs hm hc'] at hfound
  have hkey : a.key = b.key := by
    rw [← hfinds p hp m hm a ha ((exists_propose_iff hs).mp ⟨c, hc⟩),
      ← hfinds p hp m hm b hb ((exists_propose_iff hs).mp ⟨c', hc'⟩)]
    exact hfound m (List.mem_of_mem_head? hm)
  exact hne (congrArg Polygon.id (List.inj_on_of_nodup_map hs.keys_nodup ha hb hkey))

end Proposals

/-- No two proposals of a search that have productions of one number are related by `R`, if those of
one production at two different anchors never are. -/
lemma pairwise_allProposals {store : Store} (h : store.Reachable) {ps : List Production}
    (hids : (ps.map Production.id).Nodup) {admits : Shape → Bool} {R : Proposal → Proposal → Prop}
    (hR : ∀ p ∈ ps, ∀ a ∈ store.toList, ∀ b ∈ store.toList, a.id ≠ b.id →
      ∀ c, propose store admits p a = some c → ∀ c', propose store admits p b = some c' →
        ¬ R c c') :
    (allProposals store admits ps).Pairwise fun c c' =>
      c.production.id = c'.production.id → ¬ R c c' := by
  rw [allProposals_eq_filterMap, List.pairwise_filterMap]
  have hpairs : (ps ×ˢ store.toList).Nodup := (hids.of_map _).product (h.ids_nodup.of_map _)
  refine hpairs.pairwise_of_forall_ne fun x hx y hy hne c hc c' hc' hid => ?_
  obtain ⟨p, a⟩ := x
  obtain ⟨p', b⟩ := y
  obtain ⟨hp, ha⟩ := List.mem_product.mp hx
  obtain ⟨hp', hb⟩ := List.mem_product.mp hy
  rw [production_of_propose hc, production_of_propose hc'] at hid
  obtain rfl : p = p' := List.inj_on_of_nodup_map hids hp hp' hid
  refine hR p hp a ha b hb (fun heq => hne ?_) c hc c' hc'
  rw [List.inj_on_of_nodup_map h.ids_nodup ha hb heq]

/-- Let the productions have different numbers.  An exhaustive search repeats nothing, under any
limit, exactly if no production has two different anchors at which it applies with the same effect.
If wherever a production applies its first pattern shape finds the anchor, then no two proposals
even agree in the number of the production and in the polygons found. -/
theorem nothing_is_repeated_iff_anchors_differ {store : Store} (h : store.Reachable)
    {ps : List Production} (hids : (ps.map Production.id).Nodup) (admits : Shape → Bool)
    (g : Generator) :
    ((∀ limit, (run store ps admits .exhaustive limit g).1.Pairwise fun c c' => ¬ c.Repeats c') ↔
      AnchorsDiffer store ps admits) ∧
    (FindsAnchors store ps admits → ∀ limit,
      (run store ps admits .exhaustive limit g).1.Pairwise fun c c' =>
        c.production.id = c'.production.id → c.foundIds ≠ c'.foundIds) := by
  have hs : store.Consistent := h.consistent
  simp only [run_exhaustive]
  refine ⟨⟨fun hnone => ?_, fun hdiffer limit => ?_⟩, fun hfinds limit => ?_⟩
  · -- Without a limit both proposals are in the list, at different pairs.
    intro p hp m hm a ha b hb hne happlies happlies' hsame
    obtain ⟨c, hc⟩ := (exists_propose_iff hs).mpr happlies
    obtain ⟨c', hc'⟩ := (exists_propose_iff hs).mpr happlies'
    have hrepeats := (repeats_iff_sameEffect_fitting h hc hc' hm).mpr hsame
    have hpairs := hnone none
    rw [cut, allProposals_eq_filterMap, List.pairwise_filterMap] at hpairs
    have hsymm : Std.Symm fun x y : Production × Polygon =>
        ∀ d, propose store admits x.1 x.2 = some d → ∀ d', propose store admits y.1 y.2 = some d' →
          ¬ d.Repeats d' := ⟨fun x y hxy d hd d' hd' hrep => hxy d' hd' d hd hrep.symm⟩
    have hpair : (p, a) ≠ (p, b) := fun heq => hne (congrArg Polygon.id (Prod.mk.inj heq).2)
    exact hpairs.forall (List.mem_product.mpr ⟨hp, ha⟩) (List.mem_product.mpr ⟨hp, hb⟩) hpair
      c hc c' hc' hrepeats
  · have hpairwise : (allProposals store admits ps).Pairwise fun c c' =>
        c.production.id = c'.production.id → ¬ c.Repeats c' := by
      refine pairwise_allProposals h hids ?_
      intro p hp a ha b hb hne c hc c' hc' hrepeats
      obtain ⟨m, hm, -⟩ := (describes_of_propose hs hc).similarity
      exact hdiffer p hp m hm a ha b hb hne ((exists_propose_iff hs).mp ⟨c, hc⟩)
        ((exists_propose_iff hs).mp ⟨c', hc'⟩)
        ((repeats_iff_sameEffect_fitting h hc hc' hm).mp hrepeats)
    exact (hpairwise.sublist (cut_sublist limit _)).imp fun himp hrep => himp hrep.1 hrep
  · refine (pairwise_allProposals (R := fun c c' => c.foundIds = c'.foundIds) h hids ?_).sublist
      (cut_sublist limit _)
    intro p hp a ha b hb hne c hc c' hc'
    exact foundIds_ne_of_findsAnchors h hc hc' hfinds hp ha hb hne

theorem triangles_are_not_repeated :
    triangles.Reachable ∧ (triangleRules.map Production.id).Nodup ∧
      FindsAnchors triangles triangleRules (fun _ => true) ∧ ∀ g limit,
        (run triangles triangleRules (fun _ => true) .exhaustive limit g).1.Pairwise fun c c' =>
          c.production.id = c'.production.id → c.foundIds ≠ c'.foundIds := by
  have hreach : triangles.Reachable := ⟨_, rfl⟩
  have hids : (triangleRules.map Production.id).Nodup := by decide
  have hfinds : FindsAnchors triangles triangleRules (fun _ => true) := by
    have hproposed : ∀ p ∈ triangleRules, ∀ a ∈ triangles.toList,
        (propose triangles (fun _ => true) p a).isSome →
          ∀ m ∈ p.pattern.head?, m.keyUnder (fitting m a.shape) = a.key := by
      decide +kernel
    intro p hp m hm a ha happlies
    obtain ⟨c, hc⟩ := (exists_propose_iff hreach.consistent).mpr happlies
    exact hproposed p hp a ha (Option.isSome_of_eq_some hc) m hm
  refine ⟨hreach, hids, hfinds, fun g limit => ?_⟩
  exact (nothing_is_repeated_iff_anchors_differ hreach hids _ g).2 hfinds limit

/-- A square, and a triangle with the first edge of the square. -/
def sharedEdge : Store :=
  Store.after [
    .insert (fun _ => true) ⟨[⟨0, 0⟩, ⟨0, 2⟩, ⟨2, 2⟩, ⟨2, 0⟩], .plain, by decide⟩,
    .insert (fun _ => true) ⟨[⟨0, 0⟩, ⟨0, 2⟩, ⟨-1, 2⟩], .plain, by decide⟩]

/-- To a square, its right neighbour is added. -/
def neighbourRule : Production where
  id := 1
  pattern := [⟨[⟨0, 0⟩, ⟨0, 2⟩, ⟨2, 2⟩, ⟨2, 0⟩], .plain, by decide⟩]
  result := [⟨[⟨2, 0⟩, ⟨2, 2⟩, ⟨4, 2⟩, ⟨4, 0⟩], .plain, by decide⟩]

/-- The triangle leads to the square as much as the square itself does, so that the neighbour of the
square is proposed twice. -/
theorem neighbour_is_proposed_twice :
    sharedEdge.Reachable ∧ ([neighbourRule].map Production.id).Nodup ∧
      ∀ g, ¬ (run sharedEdge [neighbourRule] (fun _ => true) .exhaustive none g).1.Pairwise
        fun c c' => ¬ c.Repeats c' := by
  have htwice : ¬ ((allProposals sharedEdge (fun _ => true) [neighbourRule]).map fun c =>
      (c.production.id, c.foundIds, c.additions.map Shape.key)).Nodup := by
    decide +kernel
  refine ⟨⟨_, rfl⟩, List.nodup_singleton 1, fun g hnone => htwice ?_⟩
  rw [run_exhaustive] at hnone
  dsimp only [cut] at hnone
  rw [List.Nodup, List.pairwise_map]
  refine hnone.imp fun {c c'} hne heq => hne ?_
  rw [Prod.mk.injEq, Prod.mk.injEq] at heq
  obtain ⟨hid, hfound, hadd⟩ := heq
  exact ⟨hid, hfound, fun k => by rw [hadd]⟩

end Search

end ShapeGrammar
