import ShapeGrammar.Proofs.Plane.Grid
import ShapeGrammar.Proofs.Search.Proposals

/-!
# Rewriting a store

A rewriting of a store applies one proposal for it (`Store.Rewrites`).  It keeps every polygon, and
what it adds lies on the grid.  A store that cannot be rewritten is closed (`Store.Closed`).

Whether a proposal stays in the region does not depend on what else is stored.  So a rewriting of
one store can be transferred to a closed store that has all its keys, and finds everything there
already (`Store.hasKey_of_rewrites`).  The anchors must have the same vertices in both stores,
because the similarity is read off them.  By induction, a closed store has all keys that can be
reached by rewriting any store whose keys it has (`Store.hasKey_of_rewritings`).
-/

namespace ShapeGrammar

open Relation (ReflTransGen)

/-- The vertices lie on the grid. -/
def Shape.OnGrid (s : Shape) : Prop := ∃ ps : List Point, s.vertices = ps.map Point.snapped

/-- The image of a shape under a similarity lies on the grid. -/
lemma Shape.onGrid_under (s : Shape) (t : Similarity) : (s.under t).OnGrid := by
  refine ⟨s.vertices.map t.apply, ?_⟩
  rw [List.map_map]
  rfl

namespace Store

variable {admits : Shape → Bool} {ps ps' : List Production} {s s' s₀ A : Store}

/-- `s'` is `s` after a proposal for it has been applied. -/
def Rewrites (admits : Shape → Bool) (ps : List Production) (s s' : Store) : Prop :=
  ∃ p ∈ ps, ∃ anchor ∈ s.toList, ∃ c,
    Search.propose s admits p anchor = some c ∧ (s.insertAll admits c.additions).2 = s'

/-- No production applies anywhere in the store. -/
def Closed (admits : Shape → Bool) (ps : List Production) (s : Store) : Prop :=
  ∀ p ∈ ps, ∀ anchor ∈ s.toList, Search.propose s admits p anchor = none

lemma Closed.mono (h : Closed admits ps s) (hps : ∀ p ∈ ps', p ∈ ps) :
    Closed admits ps' s :=
  fun p hp => h p (hps p hp)

/-! ### One rewriting -/

/-- A rewriting extends the store by shapes that its proposal adds. -/
lemma Rewrites.exists_extends (h : Rewrites admits ps s s') :
    ∃ new, s.Extends new s' ∧ ∃ p ∈ ps, ∃ anchor ∈ s.toList, ∃ c,
      Search.propose s admits p anchor = some c ∧ ∀ q ∈ new, q.shape ∈ c.additions := by
  obtain ⟨p, hp, anchor, hanchor, c, hc, rfl⟩ := h
  obtain ⟨new, hext, -, hnew, -⟩ := s.exists_extends_insertAll admits c.additions
  exact ⟨new, hext, p, hp, anchor, hanchor, c, hc, fun q hq => (hnew q hq).1⟩

/-- What a proposal adds lies on the grid. -/
lemma onGrid_of_propose {p : Production} {anchor : Polygon} {c : Proposal} {shape : Shape}
    (hc : Search.propose s admits p anchor = some c) (h : shape ∈ c.additions) :
    shape.OnGrid := by
  obtain ⟨-, -, r, -, rfl⟩ := Search.of_mem_additions hc h
  exact r.onGrid_under c.similarity

/-- A rewriting adds nothing new to a closed store that has all keys of the store, provided that
polygons of one key have the same vertices in both. -/
lemma hasKey_of_rewrites (hA : A.Consistent) (hs : s.Consistent) (hclosed : Closed admits ps A)
    (hsub : ∀ k, s.hasKey k = true → A.hasKey k = true)
    (hrep : ∀ k p q, A.lookup k = some p → s.lookup k = some q →
      p.shape.vertices = q.shape.vertices)
    (h : Rewrites admits ps s s') {k : Key} (hk : s'.hasKey k = true) : A.hasKey k = true := by
  obtain ⟨new, hext, p, hp, anchor, hanchor, c, hc, hnew⟩ := h.exists_extends
  obtain ⟨-, halign, hfound, hadd, -⟩ := Search.propose_eq_some_iff.mp hc
  -- The closed store has an anchor with the same alignment, and the whole pattern.
  have hlook : s.lookup anchor.key = some anchor := hs.lookup_key hanchor
  obtain ⟨anchor', hlook'⟩ :=
    (hasKey_iff A _).mp (hsub _ ((hasKey_iff s _).mpr ⟨anchor, hlook⟩))
  have halign' : Search.alignment p anchor'.shape = some c.similarity := by
    rw [Search.alignment_congr p (hrep _ _ _ hlook' hlook)]
    exact halign
  have hpattern : ∀ m ∈ p.pattern, s.hasKey (m.keyUnder c.similarity) = true :=
    Search.exists_findAll_iff.mp ⟨c.found, hfound⟩
  obtain ⟨found', hfound'⟩ := Search.exists_findAll_iff.mpr fun m hm => hsub _ (hpattern m hm)
  have hkept : found'.map Polygon.key = c.found.map Polygon.key := by
    rw [Search.map_key_of_findAll hA hfound', Search.map_key_of_findAll hs hfound]
  have hnil : Search.additions A p admits c.similarity found' = [] :=
    Search.additions_eq_nil (hclosed p hp anchor' ((hA.lookup_iff _ _).mp hlook').1) halign' hfound'
  -- So what the rewriting adds is there already.
  rcases (hext.hasKey_iff_or k).mp hk with hold | ⟨q, hq, rfl⟩
  · exact hsub k hold
  · have hmem : q.shape ∈ Search.additions s p admits c.similarity c.found := by
      rw [hadd]
      exact hnew q hq
    obtain ⟨hadmits, hfresh, -⟩ := Search.mem_additions_iff.mp hmem
    rw [← hkept] at hadmits hfresh
    by_contra hfree
    have hmem' : q.shape ∈ Search.additions A p admits c.similarity found' := by
      refine Search.mem_additions_iff.mpr ⟨hadmits, hfresh, ?_⟩
      rw [← hext.key_eq q hq]
      exact Bool.eq_false_iff.mpr hfree
    rw [hnil] at hmem'
    exact List.not_mem_nil hmem'

/-! ### Many rewritings -/

section Run

variable (h : ReflTransGen (Rewrites admits ps) s₀ s)

include h

/-- Rewriting keeps a store consistent. -/
lemma consistent_of_rewritings (hs : s₀.Consistent) : s.Consistent := by
  induction h with
  | refl => exact hs
  | tail _ hstep ih =>
    obtain ⟨new, hext, -⟩ := hstep.exists_extends
    exact ih.of_extends hext

/-- Rewriting keeps every polygon. -/
lemma lookup_of_rewritings {k : Key} {p : Polygon} (hp : s₀.lookup k = some p) :
    s.lookup k = some p := by
  induction h with
  | refl => exact hp
  | tail _ hstep ih =>
    obtain ⟨new, hext, -⟩ := hstep.exists_extends
    exact (hext.lookup_iff k p).mpr (Or.inl ih)

/-- Rewriting keeps every key. -/
lemma hasKey_of_rewritings_mono {k : Key} (hk : s₀.hasKey k = true) : s.hasKey k = true := by
  obtain ⟨p, hp⟩ := (hasKey_iff s₀ k).mp hk
  exact (hasKey_iff s k).mpr ⟨p, lookup_of_rewritings h hp⟩

/-- Every polygon was there in the beginning, or its key was free then and its shape lies on the
grid. -/
lemma lookup_or_onGrid {k : Key} {p : Polygon} (hp : s.lookup k = some p) :
    s₀.lookup k = some p ∨ s₀.hasKey k = false ∧ p.shape.OnGrid := by
  induction h with
  | refl => exact Or.inl hp
  | @tail s s' hrun hstep ih =>
    obtain ⟨new, hext, q, -, anchor, -, c, hc, hnew⟩ := hstep.exists_extends
    rcases (hext.lookup_iff k p).mp hp with hold | ⟨hmem, rfl⟩
    · exact ih hold
    · right
      refine ⟨?_, onGrid_of_propose hc (hnew p hmem)⟩
      rw [hasKey_eq_false_iff, Option.eq_none_iff_forall_ne_some]
      intro q hq
      have htaken := hasKey_of_rewritings_mono hrun ((hasKey_iff s₀ _).mpr ⟨q, hq⟩)
      rw [hext.keys_fresh p hmem] at htaken
      exact Bool.false_ne_true htaken

/-- A closed store with all keys of `s₀` has all keys of every store that `s₀` can be rewritten to,
provided that polygons of one key have the same vertices in both. -/
lemma hasKey_of_rewritings (hA : A.Consistent) (hs : s₀.Consistent) (hclosed : Closed admits ps A)
    (hsub : ∀ k, s₀.hasKey k = true → A.hasKey k = true)
    (hrep : ∀ k p q, A.lookup k = some p → s.lookup k = some q →
      p.shape.vertices = q.shape.vertices) :
    ∀ k, s.hasKey k = true → A.hasKey k = true := by
  induction h with
  | refl => exact hsub
  | @tail s s' hrun hstep ih =>
    intro k hk
    have hrep' : ∀ k p q, A.lookup k = some p → s.lookup k = some q →
        p.shape.vertices = q.shape.vertices := by
      intro k p q hp hq
      exact hrep k p q hp (lookup_of_rewritings (.single hstep) hq)
    exact hasKey_of_rewrites hA (consistent_of_rewritings hrun hs) hclosed (ih hrep') hrep' hstep hk

end Run

/-! ### Rewriting from the same shapes -/

/-- The two stores hold the same shapes, possibly under other numbers. -/
def SameShapes (s s' : Store) : Prop :=
  ∀ shape, shape ∈ s.toList.map Polygon.shape ↔ shape ∈ s'.toList.map Polygon.shape

namespace SameShapes

lemma symm (h : s.SameShapes s') : s'.SameShapes s := fun shape => (h shape).symm

/-- Stores with the same shapes have the same keys, for the same shapes. -/
lemma exists_lookup (h : s.SameShapes s') (hs : s.Consistent) (hs' : s'.Consistent) {k : Key}
    {p : Polygon} (hp : s.lookup k = some p) : ∃ q, s'.lookup k = some q ∧ q.shape = p.shape := by
  obtain ⟨hmem, rfl⟩ := (hs.lookup_iff k p).mp hp
  obtain ⟨q, hq, hshape⟩ := List.mem_map.mp ((h p.shape).mp (List.mem_map_of_mem hmem))
  refine ⟨q, (hs'.lookup_iff _ q).mpr ⟨hq, ?_⟩, hshape⟩
  rw [hs'.key_eq q hq, hshape, hs.key_eq p hmem]

lemma hasKey (h : s.SameShapes s') (hs : s.Consistent) (hs' : s'.Consistent) {k : Key}
    (hk : s.hasKey k = true) : s'.hasKey k = true := by
  obtain ⟨p, hp⟩ := (hasKey_iff s k).mp hk
  obtain ⟨q, hq, -⟩ := h.exists_lookup hs hs' hp
  exact (hasKey_iff s' k).mpr ⟨q, hq⟩

end SameShapes

/-- Let two stores be rewritten from the same shapes.  If polygons of one key have equal
coordinates, their vertices are the same: either the shape was there in the beginning, or both
polygons were added and lie on the grid. -/
lemma vertices_eq_of_rewritings {s₁ s₂ : Store} (hs₀ : s₀.Consistent) (hs₁ : s₁.Consistent)
    (hshapes : s₀.SameShapes s₁) (h : ReflTransGen (Rewrites admits ps) s₀ s)
    (h' : ReflTransGen (Rewrites admits ps') s₁ s₂) {k : Key} {p q : Polygon}
    (hp : s.lookup k = some p) (hq : s₂.lookup k = some q)
    (hequal : List.Forall₂ Point.Equal p.shape.vertices q.shape.vertices) :
    p.shape.vertices = q.shape.vertices := by
  rcases lookup_or_onGrid h hp with hold | ⟨-, vs, hvs⟩
  · obtain ⟨q', hq', hshape⟩ := hshapes.exists_lookup hs₀ hs₁ hold
    have heq := lookup_of_rewritings h' hq'
    rw [hq] at heq
    rw [Option.some.inj heq, hshape]
  · rcases lookup_or_onGrid h' hq with hold | ⟨-, ws, hws⟩
    · obtain ⟨p', hp', hshape⟩ := hshapes.symm.exists_lookup hs₁ hs₀ hold
      have heq := lookup_of_rewritings h hp'
      rw [hp] at heq
      rw [Option.some.inj heq, hshape]
    · rw [hvs, hws] at hequal ⊢
      exact Point.map_snapped_eq_of_forall₂ hequal

end Store

end ShapeGrammar
