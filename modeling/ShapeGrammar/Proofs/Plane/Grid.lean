import ShapeGrammar.Plane
import ShapeGrammar.Proofs.Number.Order
import ShapeGrammar.Proofs.Number.Special

/-!
# Points on the coordinate grid

Moving a coordinate onto the grid keeps it a number if it was one, although it may become infinite.
It never gives a negative zero, so that coordinates on the grid are equal only if they are the same.
Among points whose coordinates are numbers, coming before is the strict part of a linear order,
`Point.level`: by height first, then from left to right.
-/

namespace ShapeGrammar

/-- The grid step is the double with mantissa `2 ^ 52` and exponent `-72`. -/
lemma unpack_gridStep :
    gridStep.toModel.unpack = .finite .positive (2 ^ 52) (-72) (by decide) := rfl

/-- A coordinate on the grid is a number exactly when it was one before. -/
lemma isNaN_snap (v : Float) : (snap v).isNaN = v.isNaN := by
  rw [snap, Number.isNaN_add_zero, Number.isNaN_mul _ unpack_gridStep,
    Number.isNaN_roundHalfAway, Number.isNaN_div _ unpack_gridStep]

/-- Coordinates on the grid are equal only if they are the same. -/
lemma snap_eq_of_beq {v w : Float} (h : (snap v == snap w) = true) : snap v = snap w :=
  Number.eq_of_add_zero_beq h

namespace Point

/-- Both coordinates are numbers, finite or not. -/
def IsNumber (p : Point) : Prop := p.x.isNaN = false ∧ p.y.isNaN = false

/-- The place of a point in the order by height, then from left to right. -/
def level (p : Point) : Number.Level ×ₗ Number.Level := toLex (Number.level p.y, Number.level p.x)

/-- A finite point stays a point of numbers on the grid. -/
lemma isNumber_snapped {p : Point} (h : p.isFinite = true) : p.snapped.IsNumber := by
  obtain ⟨hx, hy⟩ := Bool.and_eq_true_iff.mp h
  constructor
  · exact (isNaN_snap p.x).trans (Number.isNaN_of_isFinite hx)
  · exact (isNaN_snap p.y).trans (Number.isNaN_of_isFinite hy)

/-- Coming before is being strictly lower in the order of points. -/
lemma before_iff {p q : Point} (hp : p.IsNumber) (hq : q.IsNumber) :
    p.before q = true ↔ p.level < q.level := by
  unfold before level
  rw [Prod.Lex.toLex_lt_toLex, Bool.or_eq_true, Bool.and_eq_true, decide_eq_true_iff,
    decide_eq_true_iff, Number.lt_iff hp.2 hq.2, Number.beq_iff hp.2 hq.2,
    Number.lt_iff hp.1 hq.1]

/-- Not coming before is being at least as high in the order of points. -/
lemma before_eq_false_iff {p q : Point} (hp : p.IsNumber) (hq : q.IsNumber) :
    p.before q = false ↔ q.level ≤ p.level := by
  rw [← Bool.not_eq_true, before_iff hp hq, not_lt]

/-- The coordinates of two points are equal, a negative zero being equal to zero. -/
def Equal (p q : Point) : Prop := (p.x == q.x) = true ∧ (p.y == q.y) = true

instance : DecidableRel Equal := fun p q =>
  inferInstanceAs (Decidable ((p.x == q.x) = true ∧ (p.y == q.y) = true))

/-- Points on the grid with equal coordinates are the same. -/
lemma snapped_eq_of_equal {p q : Point} (h : p.snapped.Equal q.snapped) :
    p.snapped = q.snapped := by
  unfold snapped
  rw [snap_eq_of_beq h.1, snap_eq_of_beq h.2]

/-- Points of numbers on the grid at the same place are the same. -/
lemma snapped_eq_of_level_eq {p q : Point} (hp : p.snapped.IsNumber) (hq : q.snapped.IsNumber)
    (h : p.snapped.level = q.snapped.level) : p.snapped = q.snapped := by
  obtain ⟨hy, hx⟩ := Prod.mk.inj (toLex.injective h)
  refine snapped_eq_of_equal ⟨?_, ?_⟩
  · exact (Number.beq_iff hp.1 hq.1).mpr hx
  · exact (Number.beq_iff hp.2 hq.2).mpr hy

/-- Two lists of points on the grid with equal coordinates are the same. -/
lemma map_snapped_eq_of_forall₂ {ps qs : List Point}
    (h : List.Forall₂ Equal (ps.map snapped) (qs.map snapped)) :
    ps.map snapped = qs.map snapped := by
  rw [List.forall₂_map_left_iff, List.forall₂_map_right_iff] at h
  induction h with
  | nil => rfl
  | cons hp _ ih => rw [List.map_cons, List.map_cons, snapped_eq_of_equal hp, ih]

end Point

end ShapeGrammar
