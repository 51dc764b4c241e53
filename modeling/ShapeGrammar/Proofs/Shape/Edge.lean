import ShapeGrammar.Proofs.Number.Error
import ShapeGrammar.Proofs.Plane.Exact
import ShapeGrammar.Shape

/-!
# The length of a first edge

The length of the first edge of a shape is computed from two differences and a hypotenuse, each
rounded once (`Shape.referenceEdge`).  It misses the exact length, the real number
`Shape.firstEdge`, by a factor of no more than `2 ^ (-49)` (`Shape.Measurable.referenceEdge_near`),
and the quotient of two such lengths the exact ratio by no more than `2 ^ (-47)`
(`Shape.scale_near`).
-/

namespace ShapeGrammar

namespace Number

/-- One unit in the last place, twice as large as for normal doubles, so that it holds for all
numbers that are not extremely small. -/
lemma Approximates.near_of_le {x : Float} {r A : ℝ} (h : Approximates x r) (hr : |r| ≤ A)
    (hA : 2 ^ (-1022 : ℤ) ≤ A) : |real x - r| ≤ 2 ^ (-51 : ℤ) * A := by
  have hsmall : (2 : ℝ) ^ (-1074 : ℤ) = 2 ^ (-52 : ℤ) * 2 ^ (-1022 : ℤ) := by
    rw [← zpow_add₀ two_ne_zero]
    norm_num
  have hulp : (2 : ℝ) ^ (-51 : ℤ) = 2 * 2 ^ (-52 : ℤ) := by norm_num
  refine h.near.trans ?_
  unfold roundoff
  rw [hsmall, hulp]
  have hrel := mul_le_mul_of_nonneg_left hr (by positivity : (0 : ℝ) ≤ 2 ^ (-52 : ℤ))
  have habs := mul_le_mul_of_nonneg_left hA (by positivity : (0 : ℝ) ≤ 2 ^ (-52 : ℤ))
  linarith

/-- An operation that approximates all results that are not too large is almost exact on moderate
ones. -/
lemma near_of_le_two_pow {x : Float} {r : ℝ} {n : ℕ} (hn : n ≤ 800) (hr : |r| ≤ 2 ^ n)
    (h : |r| ≤ 2 ^ (1000 : ℤ) → Approximates x r) :
    x.isFinite = true ∧ |real x| ≤ 2 ^ (900 : ℤ) ∧ |real x - r| ≤ 2 ^ (-51 : ℤ) * 2 ^ n := by
  have hlow : (2 : ℝ) ^ (-1022 : ℤ) ≤ 2 ^ n :=
    (zpow_le_one_of_nonpos₀ one_le_two (by decide)).trans (one_le_pow₀ one_le_two)
  have hhigh : 2 * (2 : ℝ) ^ n ≤ 2 ^ (900 : ℤ) := by
    rw [← pow_succ']
    exact_mod_cast pow_le_pow_right₀ one_le_two (by omega : n + 1 ≤ 900)
  have hone : (1 : ℝ) ≤ 2 ^ n := one_le_pow₀ one_le_two
  have hlarge : (2 : ℝ) ^ (900 : ℤ) ≤ 2 ^ (1000 : ℤ) := zpow_le_zpow_right₀ one_le_two (by decide)
  have happrox := h (hr.trans (le_trans (by linarith) (hhigh.trans hlarge)))
  have hnear := happrox.near_of_le hr hlow
  refine ⟨happrox.isFinite, le_trans ?_ hhigh, hnear⟩
  have hup := (abs_sub_abs_le_abs_sub _ _).trans hnear
  norm_num at hup
  linarith

/-- A finite double is above zero exactly if its value is. -/
lemma real_pos_iff {x : Float} (hx : x.isFinite = true) : 0 < real x ↔ 0 < x := by
  rw [(hasValue_value hx).pos_iff, real, Rat.cast_pos]

/-- Hypotenuses differ by no more than their sides. -/
lemma abs_sqrt_sub_sqrt_le (a b c d : ℝ) :
    |√(a ^ 2 + b ^ 2) - √(c ^ 2 + d ^ 2)| ≤ |a - c| + |b - d| := by
  have hdiff : (a + b * Complex.I) - (c + d * Complex.I) =
      ((a - c : ℝ) : ℂ) + ((b - d : ℝ) : ℂ) * Complex.I := by
    push_cast
    ring
  have hnorm := abs_norm_sub_norm_le ((a : ℂ) + b * Complex.I) (c + d * Complex.I)
  rw [hdiff, Complex.norm_add_mul_I, Complex.norm_add_mul_I] at hnorm
  refine hnorm.trans ((norm_add_le _ _).trans_eq ?_)
  rw [norm_mul, Complex.norm_I, mul_one, Complex.norm_real, Complex.norm_real, Real.norm_eq_abs,
    Real.norm_eq_abs]

lemma abs_le_sqrt_add_left (a b : ℝ) : |a| ≤ √(a ^ 2 + b ^ 2) :=
  Real.abs_le_sqrt (le_add_of_nonneg_right (sq_nonneg b))

lemma abs_le_sqrt_add_right (a b : ℝ) : |b| ≤ √(a ^ 2 + b ^ 2) :=
  Real.abs_le_sqrt (le_add_of_nonneg_left (sq_nonneg a))

/-- The distance of two points, computed from rounded differences, is almost exact. -/
lemma hypot_near {x₀ y₀ x₁ y₁ : Float} {E : ℝ} (hx₀ : x₀.isFinite = true) (hy₀ : y₀.isFinite = true)
    (hx₁ : x₁.isFinite = true) (hy₁ : y₁.isFinite = true)
    (hE : E = √((real x₁ - real x₀) ^ 2 + (real y₁ - real y₀) ^ 2))
    (hlow : 2 ^ (-1022 : ℤ) ≤ E) (hhigh : E ≤ 2 ^ (900 : ℤ)) :
    (hypot (x₁ - x₀) (y₁ - y₀)).isFinite = true ∧
      |real (hypot (x₁ - x₀) (y₁ - y₀)) - E| ≤ 2 ^ (-49 : ℤ) * E := by
  have hEpos : 0 < E := lt_of_lt_of_le (by positivity) hlow
  have hsize : (2 : ℝ) ^ (900 : ℤ) ≤ 2 ^ (1000 : ℤ) := zpow_le_zpow_right₀ one_le_two (by decide)
  have hxE : |real x₁ - real x₀| ≤ E := hE ▸ abs_le_sqrt_add_left _ _
  have hyE : |real y₁ - real y₀| ≤ E := hE ▸ abs_le_sqrt_add_right _ _
  have hx := approximates_sub hx₁ hx₀ ((hxE.trans hhigh).trans hsize)
  have hy := approximates_sub hy₁ hy₀ ((hyE.trans hhigh).trans hsize)
  have hx' := hx.near_of_le hxE hlow
  have hy' := hy.near_of_le hyE hlow
  generalize x₁ - x₀ = a at hx hx' ⊢
  generalize y₁ - y₀ = b at hy hy' ⊢
  have hdouble : (2 : ℝ) * 2 ^ (900 : ℤ) ≤ 2 ^ (1000 : ℤ) := by
    rw [← zpow_one_add₀ two_ne_zero]
    exact zpow_le_zpow_right₀ one_le_two (by decide)
  have hsides : |√(real a ^ 2 + real b ^ 2) - E| ≤ 2 * (2 ^ (-51 : ℤ) * E) := by
    rw [hE]
    rw [hE] at hx' hy'
    exact (abs_sqrt_sub_sqrt_le _ _ _ _).trans (by linarith)
  have hroot : √(real a ^ 2 + real b ^ 2) ≤ 2 * E := by
    have hup := (abs_le.mp hsides).2
    have hulp : (2 : ℝ) * 2 ^ (-51 : ℤ) ≤ 1 := by norm_num
    nlinarith
  have hlen := (approximates_hypot hx.isFinite hy.isFinite
    (hroot.trans ((mul_le_mul_of_nonneg_left hhigh two_pos.le).trans hdouble)))
  have hbound : |√(real a ^ 2 + real b ^ 2)| ≤ 2 * E := by
    rwa [abs_of_nonneg (Real.sqrt_nonneg _)]
  have hlen' := hlen.near_of_le hbound (hlow.trans (by linarith only [hEpos]))
  refine ⟨hlen.isFinite, ?_⟩
  have hulp : (2 : ℝ) ^ (-49 : ℤ) = 4 * 2 ^ (-51 : ℤ) := by norm_num
  rw [hulp]
  calc |real (hypot a b) - E|
      ≤ |real (hypot a b) - √(real a ^ 2 + real b ^ 2)| + |√(real a ^ 2 + real b ^ 2) - E| :=
        abs_sub_le _ _ _
    _ ≤ 2 ^ (-51 : ℤ) * (2 * E) + 2 * (2 ^ (-51 : ℤ) * E) := add_le_add hlen' hsides
    _ = 4 * 2 ^ (-51 : ℤ) * E := by ring

/-- A quotient of numbers that are almost exact is almost exact. -/
lemma abs_div_sub_div_le {h k E F ε : ℝ} (hE : 0 < E) (hF : 0 < F) (hε : ε ≤ 1 / 4)
    (hh : |h - E| ≤ ε * E) (hk : |k - F| ≤ ε * F) :
    0 < k ∧ |h / k - E / F| ≤ 3 * ε * (E / F) := by
  have hk' : 3 / 4 * F ≤ k := by
    have hlow := (abs_le.mp hk).1
    nlinarith
  have hpos : 0 < k := by linarith
  have hcross : |h * F - k * E| ≤ 2 * ε * (E * F) := by
    have hsplit : h * F - k * E = (h - E) * F - (k - F) * E := by ring
    rw [hsplit]
    calc |(h - E) * F - (k - F) * E| ≤ |(h - E) * F| + |(k - F) * E| := abs_sub _ _
      _ = |h - E| * F + |k - F| * E := by rw [abs_mul, abs_mul, abs_of_pos hE, abs_of_pos hF]
      _ ≤ ε * E * F + ε * F * E := by gcongr
      _ = 2 * ε * (E * F) := by ring
  have hε' : 0 ≤ ε * E := (abs_nonneg _).trans hh
  refine ⟨hpos, ?_⟩
  rw [div_sub_div _ _ hpos.ne' hF.ne', abs_div, abs_of_pos (mul_pos hpos hF),
    div_le_iff₀ (mul_pos hpos hF)]
  calc |h * F - k * E| ≤ 2 * ε * (E * F) := hcross
    _ = ε * E * (2 * F) := by ring
    _ ≤ ε * E * (3 * k) := mul_le_mul_of_nonneg_left (by linarith) hε'
    _ = 3 * ε * (E / F) * (k * F) := by
      field_simp

end Number

namespace Shape

variable {s m q : Shape}

/-- The second vertex. -/
def second (s : Shape) : Point :=
  s.vertices.get ⟨1, Nat.lt_of_lt_of_le (by decide) s.three_le⟩

/-- The exact length of the first edge. -/
noncomputable def firstEdge (s : Shape) : ℝ :=
  √((Number.real s.second.x - Number.real s.origin.x) ^ 2 +
    (Number.real s.second.y - Number.real s.origin.y) ^ 2)

lemma referenceEdge_eq (s : Shape) :
    s.referenceEdge = Number.hypot (s.second.x - s.origin.x) (s.second.y - s.origin.y) := by
  have hlen := s.three_le
  unfold referenceEdge Outline.edgeLength second origin
  rw [List.getElem?_eq_getElem (by omega), List.getElem?_eq_getElem (by omega)]
  rfl

lemma second_mem (s : Shape) : s.second ∈ s.vertices := List.get_mem _ _

/-- The vertices are finite, and the first edge is neither extremely short nor extremely long. -/
structure Measurable (s : Shape) : Prop where
  isFinite : ∀ p ∈ s.vertices, p.isFinite = true
  low : 2 ^ (-400 : ℤ) ≤ s.firstEdge
  high : s.firstEdge ≤ 2 ^ (400 : ℤ)

lemma Measurable.firstEdge_pos (h : s.Measurable) : 0 < s.firstEdge :=
  lt_of_lt_of_le (by positivity) h.low

/-- The computed length of the first edge is almost exact. -/
lemma Measurable.referenceEdge_near (h : s.Measurable) :
    s.referenceEdge.isFinite = true ∧
      |Number.real s.referenceEdge - s.firstEdge| ≤ 2 ^ (-49 : ℤ) * s.firstEdge := by
  obtain ⟨hx₀, hy₀⟩ := Bool.and_eq_true_iff.mp (h.isFinite _ (List.get_mem _ _))
  obtain ⟨hx₁, hy₁⟩ := Bool.and_eq_true_iff.mp (h.isFinite _ s.second_mem)
  have hlow : (2 : ℝ) ^ (-1022 : ℤ) ≤ s.firstEdge :=
    (zpow_le_zpow_right₀ one_le_two (by decide)).trans h.low
  have hhigh : s.firstEdge ≤ 2 ^ (900 : ℤ) :=
    h.high.trans (zpow_le_zpow_right₀ one_le_two (by decide))
  rw [referenceEdge_eq]
  exact Number.hypot_near hx₀ hy₀ hx₁ hy₁ rfl hlow hhigh

/-- The computed length of the first edge is above zero. -/
lemma Measurable.real_referenceEdge_pos (h : s.Measurable) : 0 < Number.real s.referenceEdge := by
  have hlow := (abs_le.mp h.referenceEdge_near.2).1
  have hpos := h.firstEdge_pos
  norm_num at hlow
  linarith

/-- The exact ratio of the first edges. -/
noncomputable def ratio (m q : Shape) : ℝ := q.firstEdge / m.firstEdge

section Ratio

variable (hm : m.Measurable) (hq : q.Measurable)

include hm hq

lemma ratio_pos : 0 < ratio m q := div_pos hq.firstEdge_pos hm.firstEdge_pos

lemma le_ratio : 2 ^ (-800 : ℤ) ≤ ratio m q := by
  have hsplit : (2 : ℝ) ^ (-800 : ℤ) * 2 ^ (400 : ℤ) = 2 ^ (-400 : ℤ) := by
    rw [← zpow_add₀ two_ne_zero]
    norm_num
  refine (le_div_iff₀ hm.firstEdge_pos).mpr (le_trans ?_ hq.low)
  exact (mul_le_mul_of_nonneg_left hm.high (by positivity)).trans_eq hsplit

lemma ratio_le : ratio m q ≤ 2 ^ (800 : ℤ) := by
  have hsplit : (2 : ℝ) ^ (400 : ℤ) = 2 ^ (800 : ℤ) * 2 ^ (-400 : ℤ) := by
    rw [← zpow_add₀ two_ne_zero]
    norm_num
  refine (div_le_iff₀ hm.firstEdge_pos).mpr (hq.high.trans ?_)
  rw [hsplit]
  exact mul_le_mul_of_nonneg_left hm.low (by positivity)

/-- The scale that is computed from two first edges is almost exact. -/
lemma scale_near :
    (q.referenceEdge / m.referenceEdge).isFinite = true ∧
      |Number.real (q.referenceEdge / m.referenceEdge) - ratio m q| ≤
        2 ^ (-47 : ℤ) * ratio m q := by
  have hσ := ratio_pos hm hq
  obtain ⟨hmfin, hmnear⟩ := hm.referenceEdge_near
  obtain ⟨hqfin, hqnear⟩ := hq.referenceEdge_near
  obtain ⟨hpos, hratio⟩ := Number.abs_div_sub_div_le hq.firstEdge_pos hm.firstEdge_pos
    (by norm_num) hqnear hmnear
  change |_ - ratio m q| ≤ 3 * 2 ^ (-49 : ℤ) * ratio m q at hratio
  have hdouble : |Number.real q.referenceEdge / Number.real m.referenceEdge| ≤ 2 * ratio m q := by
    have hup := (abs_sub_abs_le_abs_sub _ _).trans hratio
    rw [abs_of_pos hσ] at hup
    have hulp : 3 * (2 : ℝ) ^ (-49 : ℤ) ≤ 1 := by norm_num
    linarith [mul_le_mul_of_nonneg_right hulp hσ.le]
  have hlow : 2 ^ (-1022 : ℤ) ≤ 2 * ratio m q := by
    have hbelow : (2 : ℝ) ^ (-1022 : ℤ) ≤ ratio m q :=
      (zpow_le_zpow_right₀ one_le_two (by decide)).trans (le_ratio hm hq)
    exact hbelow.trans (le_mul_of_one_le_left hσ.le one_le_two)
  have hhigh : 2 * ratio m q ≤ 2 ^ (1000 : ℤ) := by
    refine (mul_le_mul_of_nonneg_left (ratio_le hm hq) two_pos.le).trans ?_
    rw [← zpow_one_add₀ two_ne_zero]
    exact zpow_le_zpow_right₀ one_le_two (by decide)
  have hdiv := Number.approximates_div hqfin hmfin hpos.ne' (hdouble.trans hhigh)
  have hround := hdiv.near_of_le hdouble hlow
  refine ⟨hdiv.isFinite, ?_⟩
  have hulp : (2 : ℝ) ^ (-51 : ℤ) * 2 + 3 * 2 ^ (-49 : ℤ) ≤ 2 ^ (-47 : ℤ) := by norm_num
  calc |Number.real (q.referenceEdge / m.referenceEdge) - ratio m q|
      ≤ _ := abs_sub_le _ (Number.real q.referenceEdge / Number.real m.referenceEdge) _
    _ ≤ 2 ^ (-51 : ℤ) * (2 * ratio m q) + 3 * 2 ^ (-49 : ℤ) * ratio m q := add_le_add hround hratio
    _ = (2 ^ (-51 : ℤ) * 2 + 3 * 2 ^ (-49 : ℤ)) * ratio m q := by ring
    _ ≤ 2 ^ (-47 : ℤ) * ratio m q := mul_le_mul_of_nonneg_right hulp hσ.le

/-- The computed scale is above zero. -/
lemma real_scale_pos : 0 < Number.real (q.referenceEdge / m.referenceEdge) := by
  have hlow := (abs_le.mp (scale_near hm hq).2).1
  have hpos := ratio_pos hm hq
  norm_num at hlow
  linarith

end Ratio

end Shape

end ShapeGrammar
