import ShapeGrammar.Proofs.Plane.Exact
import ShapeGrammar.Proofs.Shape.Rotation
import ShapeGrammar.Region

/-!
# Shapes that are moved exactly

A shape that is moved by whole grid steps can be moved in several ways: with or without a scale of
one, before or after going onto the grid, by a displacement with or without a negative zero.  As
long as nothing is rounded off, all of these give vertices of the same values (`Shape.HasValues`),
and then the same key and the same answer of a region.

The displacement can be read off the key (`Shape.displacement_unique`): a key lists the vertices
from another one on, but their sum tells how far they were moved.
-/

namespace ShapeGrammar

/-- Whether a region holds a point depends on the value of the point only. -/
lemma Region.holds_eq {p q : Point} {v : ℚ × ℚ} (hp : p.HasValue v) (hq : q.HasValue v)
    (r : Region) : r.holds p = r.holds q := by
  unfold Region.holds
  simp only [hp.x.le_congr_right hq.x, hp.y.le_congr_right hq.y, hp.x.le_congr_left hq.x,
    hp.y.le_congr_left hq.y]

namespace Shape

variable {s s' : Shape} {vs : List (ℚ × ℚ)} {d d' : ℚ × ℚ} {dx dy dx' dy' : Float}

/-- The vertices are finite and have these values. -/
def HasValues (s : Shape) (vs : List (ℚ × ℚ)) : Prop := List.Forall₂ Point.HasValue s.vertices vs

/-- Shapes with vertices of the same values have the same vertices on the grid. -/
lemma HasValues.map_snapped_eq (hs : s.HasValues vs) (hs' : s'.HasValues vs) :
    s.vertices.map Point.snapped = s'.vertices.map Point.snapped := by
  unfold HasValues at hs hs'
  generalize s.vertices = ps at hs
  generalize s'.vertices = qs at hs'
  induction hs generalizing qs with
  | nil => rw [List.forall₂_nil_right_iff.mp hs']
  | cons hp _ ih =>
    obtain ⟨q, qs, hq, hrest, rfl⟩ := List.forall₂_cons_right_iff.mp hs'
    rw [List.map_cons, List.map_cons, hp.snapped_eq hq, ih qs hrest]

/-- Shapes with vertices of the same values have the same key. -/
lemma HasValues.key_eq (hs : s.HasValues vs) (hs' : s'.HasValues vs) : s.key = s'.key := by
  unfold key
  rw [hs.map_snapped_eq hs']

/-- The values of the vertices are determined by the vertices. -/
lemma HasValues.map_value_eq (hs : s.HasValues vs) : s.vertices.map Point.value = vs := by
  unfold HasValues at hs
  generalize s.vertices = ps at hs
  induction hs with
  | nil => rfl
  | cons hp _ ih => rw [List.map_cons, hp.value_eq, ih]

/-- A region admits both or none of two shapes with vertices of the same values. -/
lemma HasValues.admits_eq (hs : s.HasValues vs) (hs' : s'.HasValues vs) (r : Region) :
    r.admits s = r.admits s' := by
  unfold Region.admits
  unfold HasValues at hs hs'
  generalize s.vertices = ps at hs
  generalize s'.vertices = qs at hs'
  induction hs generalizing qs with
  | nil => rw [List.forall₂_nil_right_iff.mp hs']
  | cons hp _ ih =>
    obtain ⟨q, qs, hq, hrest, rfl⟩ := List.forall₂_cons_right_iff.mp hs'
    rw [List.all_cons, List.all_cons, Region.holds_eq hp hq, ih qs hrest]

/-! ### Moving -/

/-- The vertices are finite, and they come to lie on the grid when they are moved by `d`. -/
def MovesOnGrid (s : Shape) (d : ℚ × ℚ) : Prop :=
  ∀ p ∈ s.vertices, p.isFinite = true ∧ OnGridPoint (p.value + d)

/-- The values of the vertices after they were moved. -/
def movedValues (s : Shape) (d : ℚ × ℚ) : List (ℚ × ℚ) := s.vertices.map fun p => p.value + d

section Moved

variable (hs : s.MovesOnGrid d) (hd : (Point.mk dx dy).HasValue d)

include hs hd

/-- A shape that is moved is moved exactly. -/
lemma hasValues_shifted : (s.shifted dx dy).HasValues (s.movedValues d) := by
  unfold HasValues shifted movedValues
  rw [List.forall₂_map_left_iff, List.forall₂_map_right_iff, List.forall₂_same]
  intro p hp
  obtain ⟨hfinite, hgrid⟩ := hs p hp
  exact (Point.hasValue_value hfinite).shift hd hgrid

/-- A shape that is moved at scale one and put on the grid is moved exactly. -/
lemma hasValues_placed : (s.placed 1 dx dy).HasValues (s.movedValues d) := by
  unfold HasValues placed movedValues
  rw [List.forall₂_map_left_iff, List.forall₂_map_right_iff, List.forall₂_same]
  intro p hp
  obtain ⟨hfinite, hgrid⟩ := hs p hp
  exact ((Point.hasValue_value hfinite).scaleShift_one hd hgrid).snapped hgrid

/-- The key of a shape that is moved is that of the shape moved. -/
lemma keyAt_eq_key_shifted : s.keyAt 1 dx dy = (s.shifted dx dy).key := by
  unfold keyAt key shifted
  rw [List.map_map]
  congr 1
  refine List.map_congr_left fun p hp => ?_
  obtain ⟨hfinite, hgrid⟩ := hs p hp
  have hval := Point.hasValue_value hfinite
  exact (hval.scaleShift_one hd hgrid).snapped_eq (hval.shift hd hgrid)

/-- The vertices of the key have the values of the vertices moved, in another order. -/
lemma map_value_keyAt_perm :
    ((s.keyAt 1 dx dy).vertices.map Point.value).Perm (s.movedValues d) := by
  have hvalues : (s.placed 1 dx dy).vertices.map Point.value = s.movedValues d :=
    (hasValues_placed hs hd).map_value_eq
  rw [← hvalues]
  exact (Key.ofSnapped_perm _).map Point.value

end Moved

/-- The key depends on the values of the displacement only. -/
lemma keyAt_congr (hs : s.MovesOnGrid d) (hd : (Point.mk dx dy).HasValue d)
    (hd' : (Point.mk dx' dy').HasValue d) : s.keyAt 1 dx dy = s.keyAt 1 dx' dy' := by
  rw [keyAt_eq_key_shifted hs hd, keyAt_eq_key_shifted hs hd']
  exact (hasValues_shifted hs hd).key_eq (hasValues_shifted hs hd')

/-- When all vertices are moved, their sum is moved as many times. -/
lemma sum_movedValues (s : Shape) (d : ℚ × ℚ) :
    (s.movedValues d).sum = (s.vertices.map Point.value).sum + s.vertices.length • d := by
  rw [movedValues, List.sum_map_add, List.map_const', List.sum_replicate]

/-- Displacements that give one key are the same. -/
lemma displacement_unique (hs : s.MovesOnGrid d) (hs' : s.MovesOnGrid d')
    (hd : (Point.mk dx dy).HasValue d) (hd' : (Point.mk dx' dy').HasValue d')
    (h : s.keyAt 1 dx dy = s.keyAt 1 dx' dy') : d = d' := by
  have hperm := map_value_keyAt_perm hs hd
  rw [h] at hperm
  have hsum := (hperm.symm.trans (map_value_keyAt_perm hs' hd')).sum_eq
  rw [sum_movedValues, sum_movedValues] at hsum
  have hlen : s.vertices.length ≠ 0 := by
    have hthree := s.three_le
    omega
  exact smul_right_injective (ℚ × ℚ) hlen (add_left_cancel hsum)

end Shape

end ShapeGrammar
