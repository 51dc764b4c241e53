import ShapeGrammar.Proofs.Plane.Nearest
import ShapeGrammar.Proofs.Region
import ShapeGrammar.Proofs.Shape.Edge
import ShapeGrammar.Settings

/-!
# Canvases and their middle

The sides of a canvas that has a size in pixels are finite, at least one and at most `2 ^ 15`
(`Settings.isSide_of_canvasSize`).  Scenes are built around the middle of the canvas, so coordinates
are half a side plus or minus some length.  On the grid, such a coordinate is the nearest whole
number of grid steps, up to a small error of rounding (`IsSide.exists_snap_add`).
-/

namespace ShapeGrammar

open Number (HasValue real value)

/-! ### Sides -/

/-- The double is finite and no less than its ceiling says. -/
lemma Number.le_of_ceiling? {x : Float} {n : ℤ} (h : ceiling? x = some n) :
    x.isFinite = true ∧ value x ≤ n := by
  unfold ceiling? at h
  unfold value
  split at h
  · next s m k hm hunpack =>
    refine ⟨congrArg Float.Model.UnpackedFloat.isFinite hunpack, le_of_eq ?_⟩
    obtain rfl := Option.some.inj h
    rw [hunpack, unpackedValue, cast_apply, scaled, Nat.shiftLeft_eq, Nat.cast_mul, Nat.cast_pow]
    rfl
  · next s m k hm hunpack =>
    refine ⟨congrArg Float.Model.UnpackedFloat.isFinite hunpack, ?_⟩
    obtain rfl := Option.some.inj h
    have hpow : (0 : ℚ) < 2 ^ (k + 1) := by positivity
    have hscaled : scaled m (.negSucc k) = m / 2 ^ (k + 1) := by
      rw [scaled, zpow_negSucc, div_eq_mul_inv]
    have hfloor : ∀ z : ℤ, ((z >>> (k + 1) : ℤ) : ℚ) ≤ z / 2 ^ (k + 1) := by
      intro z
      rw [Int.shiftRight_eq_div_pow, le_div_iff₀ hpow]
      exact_mod_cast Int.ediv_mul_le z (by positivity)
    have hbound := hfloor (s.apply (-(m : ℤ)))
    rw [hunpack, unpackedValue, hscaled]
    push_cast
    cases s with
    | positive =>
      simp only [Float.Model.UnpackedFloat.Sign.apply, withSign] at hbound ⊢
      push_cast at hbound
      rw [neg_div] at hbound
      linarith
    | negative =>
      simp only [Float.Model.UnpackedFloat.Sign.apply, withSign, neg_neg] at hbound ⊢
      push_cast at hbound
      linarith
  · next s hunpack =>
    obtain rfl := Option.some.inj h
    refine ⟨congrArg Float.Model.UnpackedFloat.isFinite hunpack, le_of_eq ?_⟩
    rw [hunpack, Int.cast_zero]
    rfl
  · cases h

/-- The double can be the side of a canvas. -/
structure IsSide (x : Float) : Prop where
  isFinite : x.isFinite = true
  one_le : 1 ≤ real x
  le : real x ≤ 2 ^ 15

namespace Settings

/-- A side in pixels is no shorter than the side itself, which is at least one. -/
lemma of_pixels {side : CanvasSide} {x : Float} {n : ℕ} (h : pixels side x = .ok n) :
    x.isFinite = true ∧ 1 ≤ value x ∧ value x ≤ n ∧ n ≤ maxCanvasSide := by
  unfold pixels at h
  split at h
  · next m hm =>
    split at h
    · next hbounds =>
      obtain rfl := Except.ok.inj h
      obtain ⟨hfinite, hceil⟩ := Number.le_of_ceiling? hm
      rw [Bool.and_eq_true, decide_eq_true_iff, decide_eq_true_iff,
        Number.hasValue_one.le_iff (Number.hasValue_value hfinite)] at hbounds
      have hpos : (0 : ℚ) ≤ m := zero_le_one.trans (hbounds.1.trans hceil)
      have hm' : ((m.toNat : ℕ) : ℤ) = m := Int.toNat_of_nonneg (by exact_mod_cast hpos)
      refine ⟨hfinite, hbounds.1, ?_, Int.toNat_le.mpr hbounds.2⟩
      rwa [← Int.cast_natCast, hm']
    · cases h
  · cases h

lemma isSide_of_pixels {side : CanvasSide} {x : Float} {n : ℕ} (h : pixels side x = .ok n) :
    IsSide x := by
  obtain ⟨hfinite, hone, hle, hmax⟩ := of_pixels h
  have hmax' : (n : ℚ) ≤ 2 ^ 15 := by exact_mod_cast hmax
  refine ⟨hfinite, ?_, ?_⟩
  · unfold real
    exact_mod_cast hone
  · unfold real
    exact_mod_cast hle.trans hmax'

/-- A side in pixels has at least one, and at most `maxCanvasSide`. -/
lemma range_of_pixels {side : CanvasSide} {x : Float} {n : ℕ} (h : pixels side x = .ok n) :
    1 ≤ n ∧ n ≤ maxCanvasSide := by
  obtain ⟨-, hone, hle, hmax⟩ := of_pixels h
  exact ⟨by exact_mod_cast hone.trans hle, hmax⟩

lemma canvasSize_eq_ok_iff {s : Settings} {size : ℕ × ℕ} :
    s.canvasSize = .ok size ↔
      pixels .width s.canvasWidth = .ok size.1 ∧ pixels .height s.canvasHeight = .ok size.2 := by
  constructor
  · intro h
    unfold canvasSize at h
    cases hwidth : pixels .width s.canvasWidth with
    | error failure =>
      rw [hwidth] at h
      cases h
    | ok width =>
      cases hheight : pixels .height s.canvasHeight with
      | error failure =>
        rw [hwidth, hheight] at h
        cases h
      | ok height =>
        rw [hwidth, hheight] at h
        obtain rfl := Except.ok.inj h
        exact ⟨rfl, rfl⟩
  · rintro ⟨hwidth, hheight⟩
    rw [canvasSize, hwidth, hheight]
    rfl

/-- A canvas with a size in pixels has two sides. -/
lemma isSide_of_canvasSize {s : Settings} {size : ℕ × ℕ} (h : s.canvasSize = .ok size) :
    IsSide s.canvasWidth ∧ IsSide s.canvasHeight := by
  obtain ⟨hwidth, hheight⟩ := canvasSize_eq_ok_iff.mp h
  exact ⟨isSide_of_pixels hwidth, isSide_of_pixels hheight⟩

end Settings

/-! ### Coordinates around the middle -/

/-- A double that is almost `r` is, on the grid, the nearest whole number of grid steps to `r`, or
almost so. -/
lemma exists_snap_near {z : Float} {r : ℝ} (hz : z.isFinite = true)
    (hnear : |real z - r| ≤ 2 ^ (-35 : ℤ)) (hr : |r| ≤ 2 ^ 16) :
    ∃ n : ℤ, HasValue (snap z) (n * 2 ^ (-20 : ℤ)) ∧ |n - r * 2 ^ 20| ≤ 1 / 2 + 2 ^ (-15 : ℤ) := by
  have hlarge : |real z| ≤ 2 ^ (900 : ℤ) := by
    have hpow : (2 : ℝ) ^ (17 : ℤ) ≤ 2 ^ (900 : ℤ) := zpow_le_zpow_right₀ one_le_two (by decide)
    refine le_trans ?_ hpow
    have hup := (abs_sub_abs_le_abs_sub _ _).trans hnear
    norm_num at hup hr ⊢
    linarith
  obtain ⟨n, hn, hround⟩ := exists_near_snap hz hlarge
  refine ⟨n, hn, ?_⟩
  have hround' := abs_le.mp hround
  have hnear' := abs_le.mp hnear
  norm_num at hround' hnear'
  rw [abs_le]
  constructor <;> norm_num <;> linarith

namespace IsSide

variable {x d : Float} (hx : IsSide x)

include hx

lemma middle_near : (x / 2).isFinite = true ∧ |real (x / 2) - real x / 2| ≤ 2 ^ (-37 : ℤ) := by
  have htwo : real 2 = 2 := by
    have hval : value 2 = 2 := by decide +kernel
    rw [real, hval, Rat.cast_ofNat]
  have hone := hx.one_le
  have hle := hx.le
  have hhalf : |real x / real 2| ≤ 2 ^ 14 := by
    rw [htwo, abs_le]
    norm_num at hle ⊢
    constructor <;> linarith
  obtain ⟨hfinite, -, hnear⟩ := Number.near_of_le_two_pow (by decide) hhalf
    (Number.approximates_div hx.isFinite rfl (by rw [htwo]; norm_num))
  rw [htwo] at hnear
  refine ⟨hfinite, hnear.trans_eq ?_⟩
  norm_num

section Offset

variable {z : Float} {r : ℝ} (hr : |r| ≤ 2 ^ 9)

include hr

/-- What is computed from the middle and some length is almost exact. -/
lemma offset_near
    (h : |real (x / 2) + r| ≤ 2 ^ (1000 : ℤ) → Number.Approximates z (real (x / 2) + r)) :
    z.isFinite = true ∧ |real z - (real x / 2 + r)| ≤ 2 ^ (-35 : ℤ) := by
  have hmiddle := abs_le.mp hx.middle_near.2
  have hone := hx.one_le
  have hle := hx.le
  have hr' := abs_le.mp hr
  norm_num at hle hmiddle hr'
  have hsum : |real (x / 2) + r| ≤ 2 ^ 15 := by
    rw [abs_le]
    constructor <;> linarith
  obtain ⟨hfinite, -, hnear⟩ := Number.near_of_le_two_pow (by decide) hsum h
  refine ⟨hfinite, ?_⟩
  have hnear' := abs_le.mp hnear
  norm_num at hnear'
  rw [abs_le]
  constructor <;> norm_num <;> linarith

/-- The place on the grid, in grid steps. -/
lemma exists_snap_of_near
    (hz : z.isFinite = true ∧ |real z - (real x / 2 + r)| ≤ 2 ^ (-35 : ℤ)) :
    ∃ n : ℤ, HasValue (snap z) (n * 2 ^ (-20 : ℤ)) ∧
      |n - (real x / 2 + r) * 2 ^ 20| ≤ 1 / 2 + 2 ^ (-15 : ℤ) := by
  refine exists_snap_near hz.1 hz.2 ?_
  have hone := hx.one_le
  have hle := hx.le
  have hr' := abs_le.mp hr
  norm_num at hle hr'
  rw [abs_le]
  constructor <;> linarith

end Offset

variable (hd : d.isFinite = true) (hsize : |real d| ≤ 2 ^ 9)

include hd hsize

lemma middle_add_near : (x / 2 + d).isFinite = true ∧
    |real (x / 2 + d) - (real x / 2 + real d)| ≤ 2 ^ (-35 : ℤ) :=
  hx.offset_near hsize (Number.approximates_add hx.middle_near.1 hd)

lemma middle_sub_near : (x / 2 - d).isFinite = true ∧
    |real (x / 2 - d) - (real x / 2 - real d)| ≤ 2 ^ (-35 : ℤ) := by
  have happroximates := Number.approximates_sub hx.middle_near.1 hd
  rw [sub_eq_add_neg] at happroximates ⊢
  rw [← abs_neg] at hsize
  exact hx.offset_near hsize happroximates

lemma exists_snap_add : ∃ n : ℤ, HasValue (snap (x / 2 + d)) (n * 2 ^ (-20 : ℤ)) ∧
    |n - (real x / 2 + real d) * 2 ^ 20| ≤ 1 / 2 + 2 ^ (-15 : ℤ) :=
  hx.exists_snap_of_near hsize (hx.middle_add_near hd hsize)

lemma exists_snap_sub : ∃ n : ℤ, HasValue (snap (x / 2 - d)) (n * 2 ^ (-20 : ℤ)) ∧
    |n - (real x / 2 - real d) * 2 ^ 20| ≤ 1 / 2 + 2 ^ (-15 : ℤ) := by
  have hnear := hx.middle_sub_near hd hsize
  rw [sub_eq_add_neg (real x / 2)] at hnear ⊢
  rw [← abs_neg] at hsize
  exact hx.exists_snap_of_near hsize hnear

omit hd hsize in
lemma exists_snap_middle : ∃ n : ℤ, HasValue (snap (x / 2)) (n * 2 ^ (-20 : ℤ)) ∧
    |n - real x / 2 * 2 ^ 20| ≤ 1 / 2 + 2 ^ (-15 : ℤ) := by
  obtain ⟨hfinite, hnear⟩ := hx.middle_near
  have hulp : (2 : ℝ) ^ (-37 : ℤ) ≤ 2 ^ (-35 : ℤ) := zpow_le_zpow_right₀ one_le_two (by decide)
  have hnear' := hnear.trans hulp
  rw [← add_zero (real x / 2)] at hnear' ⊢
  exact hx.exists_snap_of_near (by norm_num) ⟨hfinite, hnear'⟩

end IsSide

/-! ### Edges -/

lemma steps_mono {m n : ℤ} (h : m ≤ n) : (m * 2 ^ (-20 : ℤ) : ℚ) ≤ n * 2 ^ (-20 : ℤ) :=
  mul_le_mul_of_nonneg_right (Int.cast_le.mpr h) (by positivity)

lemma cast_steps (n : ℤ) : ((n * 2 ^ (-20 : ℤ) : ℚ) : ℝ) = n / 2 ^ 20 := by
  rw [Rat.cast_mul, Rat.cast_intCast, Rat.cast_zpow, Rat.cast_ofNat, zpow_neg, ← div_eq_mul_inv]
  rfl

/-- A value is at most so many grid steps. -/
lemma value_le_steps_iff {x : Float} {n : ℤ} :
    value x ≤ n * 2 ^ (-20 : ℤ) ↔ real x * 2 ^ 20 ≤ n := by
  rw [← Rat.cast_le (K := ℝ), cast_steps, le_div_iff₀ (by positivity), real]

/-- A value is at least so many grid steps. -/
lemma steps_le_value_iff {x : Float} {n : ℤ} :
    n * 2 ^ (-20 : ℤ) ≤ value x ↔ n ≤ real x * 2 ^ 20 := by
  rw [← Rat.cast_le (K := ℝ), cast_steps, div_le_iff₀ (by positivity), real]

/-- The slack is a little more than one grid step. -/
lemma slack_steps : |real Region.defaultSlack * 2 ^ 20 - 1.048576| ≤ 2 ^ (-20 : ℤ) := by
  have hslack : |value Region.defaultSlack * 2 ^ 20 - 1.048576| ≤ 2 ^ (-20 : ℤ) := by
    decide +kernel
  rw [← Rat.cast_le (K := ℝ)] at hslack
  push_cast at hslack
  exact hslack

/-- The near edges of a canvas, in grid steps. -/
lemma near_edge : (0 - Region.defaultSlack).isFinite = true ∧
    |real (0 - Region.defaultSlack) * 2 ^ 20 + 1.048576| ≤ 2 ^ (-14 : ℤ) := by
  have hneg : value (0 - Region.defaultSlack) = -value Region.defaultSlack := by decide +kernel
  refine ⟨by decide +kernel, ?_⟩
  have hslack := abs_le.mp slack_steps
  rw [real, hneg, Rat.cast_neg, ← real, abs_le]
  norm_num at hslack ⊢
  constructor <;> linarith

/-- The far edges of a canvas, in grid steps. -/
lemma IsSide.far_edge {x : Float} (hx : IsSide x) : (x + Region.defaultSlack).isFinite = true ∧
    |real (x + Region.defaultSlack) * 2 ^ 20 - (real x * 2 ^ 20 + 1.048576)| ≤ 2 ^ (-14 : ℤ) := by
  have hone := hx.one_le
  have hle := hx.le
  have hslack := abs_le.mp slack_steps
  norm_num at hle hslack
  have hsum : |real x + real Region.defaultSlack| ≤ 2 ^ 16 := by
    rw [abs_le]
    constructor <;> linarith
  obtain ⟨hfinite, -, hnear⟩ := Number.near_of_le_two_pow (by decide) hsum
    (Number.approximates_add hx.isFinite (by decide +kernel))
  refine ⟨hfinite, ?_⟩
  have hnear' := abs_le.mp hnear
  norm_num at hnear'
  rw [abs_le]
  constructor <;> norm_num <;> linarith

/-- The region of a canvas that allows for rounding. -/
lemma Settings.hasEdges_region {s : Settings} (hwidth : IsSide s.canvasWidth)
    (hheight : IsSide s.canvasHeight) (hslack : s.slack = Region.defaultSlack) :
    s.region.HasEdges (value (0 - Region.defaultSlack)) (value (0 - Region.defaultSlack))
      (value (s.canvasWidth + Region.defaultSlack))
      (value (s.canvasHeight + Region.defaultSlack)) := by
  unfold region
  rw [hslack]
  exact ⟨Number.hasValue_value near_edge.1, Number.hasValue_value near_edge.1,
    Number.hasValue_value hwidth.far_edge.1, Number.hasValue_value hheight.far_edge.1⟩

/-- The region of a canvas holds a point on the grid that is hardly more than one grid step outside
the canvas. -/
lemma Settings.holds_of_steps {s : Settings} (hwidth : IsSide s.canvasWidth)
    (hheight : IsSide s.canvasHeight) (hslack : s.slack = Region.defaultSlack) {p : Point} {m n : ℤ}
    (hp : p.HasValue (m * 2 ^ (-20 : ℤ), n * 2 ^ (-20 : ℤ)))
    (hlow : (-1.04 : ℝ) ≤ m ∧ (-1.04 : ℝ) ≤ n)
    (hhigh : m ≤ real s.canvasWidth * 2 ^ 20 + 1.04 ∧ n ≤ real s.canvasHeight * 2 ^ 20 + 1.04) :
    s.region.holds p = true := by
  have hnear := abs_le.mp near_edge.2
  have hright := abs_le.mp hwidth.far_edge.2
  have hbottom := abs_le.mp hheight.far_edge.2
  norm_num at hnear hright hbottom hlow hhigh
  rw [(hasEdges_region hwidth hheight hslack).holds_iff hp]
  refine ⟨⟨value_le_steps_iff.mpr ?_, value_le_steps_iff.mpr ?_⟩, steps_le_value_iff.mpr ?_,
    steps_le_value_iff.mpr ?_⟩ <;> norm_num <;> linarith

end ShapeGrammar
