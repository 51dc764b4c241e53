import ShapeGrammar.Proofs.Number.Value
import ShapeGrammar.Proofs.Plane.Grid

/-!
# Coordinates that nothing is rounded off

A number is on the coordinate grid (`OnGrid`) if it is a whole multiple of the grid step and both it
and the multiplicity have a double.  Moving a double of such a value onto the grid changes nothing
but a negative zero (`hasValue_snap`).

A point has a pair of rational numbers for a value, and so has a sum of points, as long as it is
exact.  Points of one value may differ in the sign of a zero; on the grid they are the same
(`Point.HasValue.snapped_eq`).
-/

namespace ShapeGrammar

/-! ### Numbers on the grid -/

/-- The number is a whole multiple of the grid step, and there are doubles for it and for the
multiplicity. -/
def OnGrid (r : ℚ) : Prop :=
  Number.Representable r ∧ ∃ n : ℤ, Number.Representable n ∧ r = n * 2 ^ (-20 : ℤ)

lemma hasValue_gridStep : Number.HasValue gridStep (2 ^ (-20 : ℤ)) := by
  refine ⟨rfl, ?_⟩
  rw [Number.value, unpack_gridStep, Number.unpackedValue, Number.withSign, Number.scaled]
  norm_num

/-- A whole number of grid steps is computed exactly. -/
lemma hasValue_steps {x : Float} {n : ℤ} (hx : Number.HasValue x n)
    (h : Number.Representable (n * 2 ^ (-20 : ℤ))) :
    Number.HasValue (x * gridStep + 0) (n * 2 ^ (-20 : ℤ)) := by
  have hprod := hx.mul hasValue_gridStep h
  have hsum := hprod.add Number.hasValue_zero ((add_zero (n * 2 ^ (-20 : ℤ) : ℚ)).symm ▸ h)
  rwa [add_zero] at hsum

/-- A double on the grid stays where it is. -/
lemma hasValue_snap {x : Float} {r : ℚ} (hx : Number.HasValue x r) (hr : OnGrid r) :
    Number.HasValue (snap x) r := by
  obtain ⟨hrep, n, hn, heq⟩ := hr
  have hstep : (2 : ℚ) ^ (-20 : ℤ) ≠ 0 := zpow_ne_zero _ two_ne_zero
  have hcount : r / 2 ^ (-20 : ℤ) = n := (div_eq_iff hstep).mpr heq
  have hquot : Number.HasValue (x / gridStep) n := by
    rw [← hcount] at hn ⊢
    exact hx.div hasValue_gridStep hstep hn
  rw [snap, hquot.roundHalfAway_eq]
  rw [heq] at hrep ⊢
  exact hasValue_steps hquot hrep

/-- Every number of grid steps below `2 ^ 53` is on the grid. -/
lemma onGrid_of_natAbs_lt {n : ℤ} (hn : n.natAbs < 2 ^ 53) : OnGrid (n * 2 ^ (-20 : ℤ)) := by
  have hcount := Number.representable_of_natAbs_lt (e := 0) hn (by decide) (by decide)
  rw [zpow_zero, mul_one] at hcount
  exact ⟨Number.representable_of_natAbs_lt hn (by decide) (by decide), n, hcount, rfl⟩

/-- The double is finite and a whole multiple of the grid step, at most `2 ^ 31` in size. -/
def Moderate (x : Float) : Prop :=
  x.isFinite = true ∧ (Number.value x * 2 ^ 20).isInt = true ∧ |Number.value x| ≤ 2 ^ 31

instance : DecidablePred Moderate := fun x =>
  inferInstanceAs (Decidable (x.isFinite = true ∧ (Number.value x * 2 ^ 20).isInt = true ∧
    |Number.value x| ≤ 2 ^ 31))

/-- The number of grid steps of a moderate double. -/
lemma Moderate.exists_int {x : Float} (h : Moderate x) :
    ∃ n : ℤ, Number.value x = n * 2 ^ (-20 : ℤ) ∧ n.natAbs ≤ 2 ^ 51 := by
  obtain ⟨-, hint, hsize⟩ := h
  have hnum := Rat.eq_num_of_isInt hint
  refine ⟨(Number.value x * 2 ^ 20).num, ?_, ?_⟩
  · rw [← hnum, mul_assoc]
    norm_num
  · have habs : ((Number.value x * 2 ^ 20).num.natAbs : ℚ) ≤ 2 ^ 51 := by
      rw [Nat.cast_natAbs, Int.cast_abs, ← hnum, abs_mul]
      have hpow : |(2 : ℚ) ^ 20| = 2 ^ 20 := abs_of_pos (by positivity)
      rw [hpow]
      linarith
    exact_mod_cast habs

/-- Sums and differences of moderate doubles are on the grid. -/
lemma onGrid_of_moderate {x y z : Float} (hx : Moderate x) (hy : Moderate y) (hz : Moderate z) :
    OnGrid (Number.value y - Number.value z) ∧
      OnGrid (Number.value x + (Number.value y - Number.value z)) := by
  obtain ⟨a, ha, ha'⟩ := hx.exists_int
  obtain ⟨b, hb, hb'⟩ := hy.exists_int
  obtain ⟨c, hc, hc'⟩ := hz.exists_int
  have hdiff : Number.value y - Number.value z = ((b - c : ℤ) : ℚ) * 2 ^ (-20 : ℤ) := by
    rw [hb, hc, Int.cast_sub, sub_mul]
  have hsum : Number.value x + (Number.value y - Number.value z) =
      ((a + (b - c) : ℤ) : ℚ) * 2 ^ (-20 : ℤ) := by
    rw [hdiff, ha, Int.cast_add, add_mul]
  rw [hsum, hdiff]
  exact ⟨onGrid_of_natAbs_lt (by omega), onGrid_of_natAbs_lt (by omega)⟩

/-- Both zeros go to zero. -/
lemma snap_of_unpack_eq_zero {x : Float} {s : Float.Model.UnpackedFloat.Sign}
    (h : x.toModel.unpack = .zero s) : snap x = 0 := by
  rw [← Number.ofModel_pack_unpack x, h]
  cases s <;> decide +kernel

/-- Doubles of one value are the same on the grid. -/
lemma snap_eq_of_hasValue {x y : Float} {r : ℚ} (hx : Number.HasValue x r)
    (hy : Number.HasValue y r) : snap x = snap y := by
  rcases hx.unique hy with rfl | ⟨⟨s, hs⟩, ⟨t, ht⟩⟩
  · rfl
  · rw [snap_of_unpack_eq_zero hs, snap_of_unpack_eq_zero ht]

/-! ### Points -/

/-- Both numbers are on the grid. -/
def OnGridPoint (v : ℚ × ℚ) : Prop := OnGrid v.1 ∧ OnGrid v.2

namespace Point

/-- The values of both coordinates. -/
def value (p : Point) : ℚ × ℚ := (Number.value p.x, Number.value p.y)

/-- The point is finite and stands for the pair of numbers. -/
structure HasValue (p : Point) (v : ℚ × ℚ) : Prop where
  x : Number.HasValue p.x v.1
  y : Number.HasValue p.y v.2

lemma hasValue_value {p : Point} (h : p.isFinite = true) : p.HasValue p.value := by
  obtain ⟨hx, hy⟩ := Bool.and_eq_true_iff.mp h
  exact ⟨⟨hx, rfl⟩, ⟨hy, rfl⟩⟩

/-- Both coordinates are finite and whole multiples of the grid step, at most `2 ^ 31` in size. -/
def Moderate (p : Point) : Prop := ShapeGrammar.Moderate p.x ∧ ShapeGrammar.Moderate p.y

instance : DecidablePred Moderate := fun p =>
  inferInstanceAs (Decidable (ShapeGrammar.Moderate p.x ∧ ShapeGrammar.Moderate p.y))

lemma Moderate.isFinite {p : Point} (h : p.Moderate) : p.isFinite = true :=
  Bool.and_eq_true_iff.mpr ⟨h.1.1, h.2.1⟩

namespace HasValue

variable {p q : Point} {v w : ℚ × ℚ} {dx dy : Float}

lemma value_eq (hp : p.HasValue v) : p.value = v := Prod.ext hp.x.value_eq hp.y.value_eq

/-- A point on the grid stays where it is. -/
lemma snapped (hp : p.HasValue v) (hv : OnGridPoint v) : p.snapped.HasValue v :=
  ⟨hasValue_snap hp.x hv.1, hasValue_snap hp.y hv.2⟩

/-- Points of one value are the same on the grid. -/
lemma snapped_eq (hp : p.HasValue v) (hq : q.HasValue v) : p.snapped = q.snapped := by
  unfold Point.snapped
  rw [snap_eq_of_hasValue hp.x hq.x, snap_eq_of_hasValue hp.y hq.y]

/-- Points of one value have equal coordinates. -/
lemma equal (hp : p.HasValue v) (hq : q.HasValue v) : p.Equal q :=
  ⟨hp.x.beq hq.x, hp.y.beq hq.y⟩

/-- A point with the coordinates of another one has its value. -/
lemma of_equal (hq : q.HasValue v) (h : p.Equal q) : p.HasValue v :=
  ⟨hq.x.of_beq h.1, hq.y.of_beq h.2⟩

/-- A difference of points on the grid is computed exactly. -/
lemma sub (hp : p.HasValue v) (hq : q.HasValue w) (h : OnGridPoint (v - w)) :
    (Point.mk (p.x - q.x) (p.y - q.y)).HasValue (v - w) :=
  ⟨hp.x.sub hq.x h.1.1, hp.y.sub hq.y h.2.1⟩

/-- A point that is moved on the grid is moved exactly. -/
lemma shift (hp : p.HasValue v) (hd : (Point.mk dx dy).HasValue w) (h : OnGridPoint (v + w)) :
    (p.shift dx dy).HasValue (v + w) :=
  ⟨hp.x.add hd.x h.1.1, hp.y.add hd.y h.2.1⟩

/-- Scaling by one changes no value. -/
lemma scaleShift_one (hp : p.HasValue v) (hd : (Point.mk dx dy).HasValue w)
    (h : OnGridPoint (v + w)) : (p.scaleShift 1 dx dy).HasValue (v + w) :=
  ⟨hp.x.times_one.add hd.x h.1.1, hp.y.times_one.add hd.y h.2.1⟩

end HasValue

end Point

end ShapeGrammar
