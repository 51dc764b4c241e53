import ShapeGrammar.Proofs.Plane.Nearest
import ShapeGrammar.Proofs.Search.Completeness
import ShapeGrammar.Proofs.Search.Rewriting
import ShapeGrammar.Proofs.Shape.Edge
import ShapeGrammar.Proofs.Shape.Rotation

/-!
# Placed shapes as anchors

A shape that was scaled, moved and put on the grid is a candidate for being scaled and moved once
more, with itself as an anchor.  For this, the search has to recover how it was placed.

It takes the scale from the first edge, whose end points were rounded, and the displacement from the
first vertex.  The scale is almost exactly the ratio of the first edges (`Shape.scale_near`), and
the displacement is a whole number of grid steps.  So whether a vertex is taken to the one in its
place is decided by the exact ratio: it has to land less than half a grid step away from it
(`LandsNear`).  Rounding blurs this limit by less than the thousandth part of a grid step.
-/

namespace ShapeGrammar

open Number (HasValue real)

/-! ### One coordinate -/

/-- The value of a whole number of grid steps, counted in grid steps. -/
lemma real_mul_two_pow {x : Float} {n : ℤ} (h : HasValue x (n * 2 ^ (-20 : ℤ))) :
    real x * 2 ^ 20 = n := by
  rw [h.real_eq, Rat.cast_mul, Rat.cast_intCast, Rat.cast_zpow, Rat.cast_ofNat, mul_assoc]
  norm_num

/-- A double on the grid that is not large stays where it is. -/
lemma hasValue_snap_of_steps {x : Float} {n : ℤ} (h : HasValue x (n * 2 ^ (-20 : ℤ)))
    (hx : |real x| ≤ 2 ^ 16) : HasValue (snap x) (n * 2 ^ (-20 : ℤ)) := by
  have hlarge : (2 : ℝ) ^ 16 ≤ 2 ^ (900 : ℤ) := by
    exact_mod_cast pow_le_pow_right₀ one_le_two (by decide : 16 ≤ 900)
  refine hasValue_snap_of_near h.isFinite (hx.trans hlarge) ?_
  rw [real_mul_two_pow h, sub_self, abs_zero]
  exact one_half_pos

/-- The coordinate `x`, scaled by `s` and displaced by `i` grid steps, is at most `ε` grid steps
away from the coordinate `v`. -/
structure LandsNear (ε s : ℝ) (i : ℤ) (x v : Float) : Prop where
  near : |s * real x * 2 ^ 20 + i - real v * 2 ^ 20| ≤ ε

/-- Two coordinates that land at most `ε` away have a difference that is at most twice as much
off. -/
lemma LandsNear.abs_sub_le {ε s : ℝ} {i : ℤ} {x v x' v' : Float} (h : LandsNear ε s i x v)
    (h' : LandsNear ε s i x' v') :
    |real v' - real v - s * (real x' - real x)| ≤ 2 * ε / 2 ^ 20 := by
  have hnear := abs_le.mp h.near
  have hnear' := abs_le.mp h'.near
  rw [le_div_iff₀ (by positivity), ← abs_of_pos (by positivity : (0 : ℝ) < 2 ^ 20), ← abs_mul,
    abs_le]
  constructor <;> linarith

section Coordinate

variable {τ x : Float} {σ : ℝ} (hτ : τ.isFinite = true)
  (hσ : |real τ - σ| ≤ 2 ^ (-47 : ℤ) * σ) (hx : x.isFinite = true) (hsize : |σ * real x| ≤ 2 ^ 16)

include hτ hσ hx hsize

/-- The product with the scale is almost exact. -/
lemma mul_near :
    (x * τ).isFinite = true ∧ |real (x * τ) - σ * real x| ≤ 9 * 2 ^ (-34 : ℤ) := by
  have hscale : |real x * real τ - σ * real x| ≤ 2 ^ (-31 : ℤ) := by
    have hsplit : real x * real τ - σ * real x = real x * (real τ - σ) := by ring
    have hpos : 0 ≤ σ := by
      have hnonneg := (abs_nonneg _).trans hσ
      have hulp : (0 : ℝ) < 2 ^ (-47 : ℤ) := by positivity
      nlinarith
    rw [hsplit, abs_mul]
    calc |real x| * |real τ - σ| ≤ |real x| * (2 ^ (-47 : ℤ) * σ) :=
          mul_le_mul_of_nonneg_left hσ (abs_nonneg _)
      _ = 2 ^ (-47 : ℤ) * |σ * real x| := by
        rw [abs_mul, abs_of_nonneg hpos]
        ring
      _ ≤ 2 ^ (-47 : ℤ) * 2 ^ 16 := mul_le_mul_of_nonneg_left hsize (by positivity)
      _ = 2 ^ (-31 : ℤ) := by norm_num
  have hprod : |real x * real τ| ≤ 2 ^ 17 := by
    have hup := (abs_sub_abs_le_abs_sub _ _).trans hscale
    norm_num at hup hsize ⊢
    linarith
  obtain ⟨hfinite, -, hround⟩ :=
    Number.near_of_le_two_pow (by decide) hprod (Number.approximates_mul hx hτ)
  refine ⟨hfinite, ?_⟩
  calc |real (x * τ) - σ * real x|
      ≤ |real (x * τ) - real x * real τ| + |real x * real τ - σ * real x| := abs_sub_le _ _ _
    _ ≤ 2 ^ (-51 : ℤ) * 2 ^ 17 + 2 ^ (-31 : ℤ) := add_le_add hround hscale
    _ = 9 * 2 ^ (-34 : ℤ) := by norm_num

/-- The displacement that is read off is a whole number of grid steps, the only one with which the
scaled coordinate can land near its target. -/
lemma exists_displacement {v : Float} (hv : v.isFinite = true) (hv' : |real v| ≤ 2 ^ 16) :
    ∃ i : ℤ, HasValue (snap (v - x * τ)) (i * 2 ^ (-20 : ℤ)) ∧ |(i : ℝ)| ≤ 2 ^ 38 ∧
      ∀ j : ℤ, LandsNear (511 / 1024) σ j x v → j = i := by
  obtain ⟨hfinite, hmul⟩ := mul_near hτ hσ hx hsize
  have hprod := abs_le.mp hmul
  have hscaled := abs_le.mp hsize
  have htarget := abs_le.mp hv'
  norm_num at hprod hscaled htarget
  have hdiff : |real v - real (x * τ)| ≤ 2 ^ 18 := by
    rw [abs_le]
    constructor <;> linarith
  obtain ⟨hfinite', hlarge, hround⟩ :=
    Number.near_of_le_two_pow (by decide) hdiff (Number.approximates_sub hv hfinite)
  generalize v - x * τ = z at hfinite' hlarge hround ⊢
  obtain ⟨i, hi, hnear⟩ := exists_near_snap hfinite' hlarge
  have hstep := abs_le.mp hnear
  have hsub := abs_le.mp hround
  norm_num at hsub
  refine ⟨i, hi, ?_, fun j hj => ?_⟩
  · rw [abs_le]
    constructor <;> linarith
  · have hland := abs_le.mp hj.near
    have hlt : |((j - i : ℤ) : ℝ)| < 1 := by
      rw [Int.cast_sub, abs_lt]
      constructor <;> linarith
    exact sub_eq_zero.mp (Int.abs_lt_one_iff.mp (by exact_mod_cast hlt))

section Image

variable {d : Float} {i : ℤ} (hd : HasValue d (i * 2 ^ (-20 : ℤ))) (hi : |(i : ℝ)| ≤ 2 ^ 38)

include hd hi

/-- The image of the coordinate, before it is put on the grid, is almost exact. -/
lemma image_near :
    (x * τ + d).isFinite = true ∧ |real (x * τ + d)| ≤ 2 ^ (900 : ℤ) ∧
      |real (x * τ + d) * 2 ^ 20 - (σ * real x * 2 ^ 20 + i)| < 1 / 1024 := by
  obtain ⟨hfinite, hmul⟩ := mul_near hτ hσ hx hsize
  have hprod := abs_le.mp hmul
  have hscaled := abs_le.mp hsize
  have hsteps := abs_le.mp hi
  have hdreal := real_mul_two_pow hd
  norm_num at hprod hscaled hsteps
  have hsum : |real (x * τ) + real d| ≤ 2 ^ 19 := by
    rw [abs_le]
    constructor <;> linarith
  obtain ⟨hfinite', hlarge, hround⟩ :=
    Number.near_of_le_two_pow (by decide) hsum (Number.approximates_add hfinite hd.isFinite)
  refine ⟨hfinite', hlarge, ?_⟩
  have hadd := abs_le.mp hround
  norm_num at hadd
  rw [abs_lt]
  constructor <;> linarith

variable {v : Float} {n : ℤ} (hv : HasValue v (n * 2 ^ (-20 : ℤ)))

include hv

/-- A coordinate that lands near its target is taken to it. -/
lemma LandsNear.hasValue_image (h : LandsNear (511 / 1024) σ i x v) :
    HasValue (snap (x * τ + d)) (n * 2 ^ (-20 : ℤ)) := by
  obtain ⟨hfinite, hlarge, himage⟩ := image_near hτ hσ hx hsize hd hi
  refine hasValue_snap_of_near hfinite hlarge ?_
  have hland := abs_le.mp h.near
  have himage' := abs_lt.mp himage
  rw [real_mul_two_pow hv] at hland
  rw [abs_lt]
  constructor <;> linarith

/-- A coordinate that is taken to its target lands near it. -/
lemma landsNear_of_hasValue_image (h : HasValue (snap (x * τ + d)) (n * 2 ^ (-20 : ℤ))) :
    LandsNear (513 / 1024) σ i x v := by
  obtain ⟨hfinite, hlarge, himage⟩ := image_near hτ hσ hx hsize hd hi
  have hsnap := abs_le.mp (abs_sub_le_of_hasValue_snap hfinite hlarge h)
  have himage' := abs_lt.mp himage
  constructor
  rw [real_mul_two_pow hv, abs_le]
  constructor <;> linarith

end Image

end Coordinate

/-! ### Shapes -/

/-- The points `ps`, scaled by `s` and displaced by some whole numbers of grid steps, are at most
`ε` grid steps away from the points `vs` in their places, in each coordinate. -/
def LandsOn (ε s : ℝ) (ps vs : List Point) : Prop :=
  ∃ i j : ℤ, List.Forall₂
    (fun p v => LandsNear ε s i p.x v.x ∧ LandsNear ε s j p.y v.y) ps vs

namespace Shape

variable {s m q : Shape}

/-- No coordinate of `q` is large, nor any of `m` when it is scaled to the size of `q`. -/
structure InRange (m q : Shape) : Prop where
  scaled_le : ∀ p ∈ m.vertices, |ratio m q * real p.x| ≤ 2 ^ 16 ∧ |ratio m q * real p.y| ≤ 2 ^ 16
  target_le : ∀ v ∈ q.vertices, |real v.x| ≤ 2 ^ 16 ∧ |real v.y| ≤ 2 ^ 16

/-- What is placed lies on the grid. -/
lemma onGrid_placed (s : Shape) (scale dx dy : Float) : (s.placed scale dx dy).OnGrid := by
  refine ⟨s.vertices.map fun p => p.scaleShift scale dx dy, ?_⟩
  rw [List.map_map]
  rfl

/-- Finite vertices on the grid are whole numbers of grid steps. -/
lemma OnGrid.exists_int (h : s.OnGrid) {p : Point} (hp : p ∈ s.vertices)
    (hfinite : p.isFinite = true) :
    ∃ a b : ℤ, HasValue p.x (a * 2 ^ (-20 : ℤ)) ∧ HasValue p.y (b * 2 ^ (-20 : ℤ)) := by
  obtain ⟨ps, hps⟩ := h
  rw [hps] at hp
  obtain ⟨w, -, rfl⟩ := List.mem_map.mp hp
  obtain ⟨hx, hy⟩ := Bool.and_eq_true_iff.mp hfinite
  obtain ⟨a, ha, -⟩ := exists_int_snap hx
  obtain ⟨b, hb, -⟩ := exists_int_snap hy
  exact ⟨a, b, ha, hb⟩

/-- A first edge on the grid that is not without length is at least one grid step long. -/
lemma OnGrid.le_firstEdge (h : s.OnGrid) (hfinite : ∀ p ∈ s.vertices, p.isFinite = true)
    (hpos : 0 < s.firstEdge) : 2 ^ (-20 : ℤ) ≤ s.firstEdge := by
  obtain ⟨a, b, ha, hb⟩ := h.exists_int s.second_mem (hfinite _ s.second_mem)
  obtain ⟨c, d, hc, hd⟩ := h.exists_int (List.get_mem _ _) (hfinite _ (List.get_mem _ _))
  have hval : s.firstEdge = 2 ^ (-20 : ℤ) * √(((a - c : ℤ) : ℝ) ^ 2 + ((b - d : ℤ) : ℝ) ^ 2) := by
    have hsquares : (real s.second.x - real s.origin.x) ^ 2 +
        (real s.second.y - real s.origin.y) ^ 2 =
          (2 ^ (-20 : ℤ)) ^ 2 * (((a - c : ℤ) : ℝ) ^ 2 + ((b - d : ℤ) : ℝ) ^ 2) := by
      rw [ha.real_eq, hb.real_eq, origin, hc.real_eq, hd.real_eq]
      push_cast
      ring
    rw [firstEdge, hsquares, Real.sqrt_mul (by positivity), Real.sqrt_sq (by positivity)]
  have hone : 1 ≤ (a - c) ^ 2 + (b - d) ^ 2 := by
    by_contra hlt
    have hzero : (a - c) ^ 2 + (b - d) ^ 2 = 0 := by
      have hnonneg := add_nonneg (sq_nonneg (a - c)) (sq_nonneg (b - d))
      omega
    have hcast : ((a - c : ℤ) : ℝ) ^ 2 + ((b - d : ℤ) : ℝ) ^ 2 = 0 := by exact_mod_cast hzero
    rw [hval, hcast, Real.sqrt_zero, mul_zero] at hpos
    exact lt_irrefl _ hpos
  rw [hval]
  refine le_mul_of_one_le_right (by positivity) (Real.one_le_sqrt.mpr ?_)
  exact_mod_cast hone

/-- A pattern can be scaled to an anchor if the first edges of both are neither extremely short nor
extremely long. -/
lemma Measurable.fits (hm : m.Measurable) (hq : q.Measurable) : Search.Fits m q := by
  have hscale := (scale_near hm hq).1
  refine ⟨(Number.real_pos_iff hm.referenceEdge_near.1).mp hm.real_referenceEdge_pos, ?_, hscale,
    (Number.real_pos_iff hscale).mp (real_scale_pos hm hq)⟩
  rw [Bool.eq_false_iff]
  intro hzero
  have hval := Number.hasValue_zero.of_beq hzero
  have hreal := hq.real_referenceEdge_pos
  rw [hval.real_eq, Rat.cast_zero] at hreal
  exact lt_irrefl _ hreal

section Anchor

variable (hm : m.Measurable) (hgrid : q.OnGrid) (hfinite : ∀ p ∈ q.vertices, p.isFinite = true)
  (hpos : 0 < q.firstEdge) (hrange : m.InRange q)

include hgrid hfinite hpos hrange

/-- Finite vertices on the grid that are not far away have a first edge that is neither extremely
short nor extremely long. -/
lemma InRange.measurable : q.Measurable := by
  obtain ⟨hx₀, hy₀⟩ := hrange.target_le _ (List.get_mem q.vertices _)
  obtain ⟨hx₁, hy₁⟩ := hrange.target_le _ q.second_mem
  refine ⟨hfinite, ?_, ?_⟩
  · exact (zpow_le_zpow_right₀ one_le_two (by decide)).trans (hgrid.le_firstEdge hfinite hpos)
  · have hsides := (le_abs_self _).trans (Number.abs_sqrt_sub_sqrt_le
      (real q.second.x - real q.origin.x) (real q.second.y - real q.origin.y) 0 0)
    have hx := (abs_sub _ _).trans (add_le_add hx₁ hx₀)
    have hy := (abs_sub _ _).trans (add_le_add hy₁ hy₀)
    have hzero : √((0 : ℝ) ^ 2 + 0 ^ 2) = 0 := by norm_num
    rw [hzero, sub_zero, sub_zero, sub_zero] at hsides
    have hlarge : (2 : ℝ) ^ (20 : ℤ) ≤ 2 ^ (400 : ℤ) := zpow_le_zpow_right₀ one_le_two (by decide)
    exact ((hsides.trans (add_le_add hx hy)).trans (by norm_num)).trans hlarge

include hm

/-- The pattern can be scaled to the anchor. -/
lemma InRange.fits : Search.Fits m q :=
  hm.fits (hrange.measurable hgrid hfinite hpos)

/-- The displacements that are read off are whole numbers of grid steps, the only ones with which
the first vertex can land near its target. -/
lemma InRange.exists_displacements :
    ∃ i j : ℤ, HasValue (Search.fitting m q).dx (i * 2 ^ (-20 : ℤ)) ∧
      HasValue (Search.fitting m q).dy (j * 2 ^ (-20 : ℤ)) ∧
      |(i : ℝ)| ≤ 2 ^ 38 ∧ |(j : ℝ)| ≤ 2 ^ 38 ∧
      ∀ i' j' : ℤ, LandsNear (511 / 1024) (ratio m q) i' m.origin.x q.origin.x →
        LandsNear (511 / 1024) (ratio m q) j' m.origin.y q.origin.y → i' = i ∧ j' = j := by
  obtain ⟨hτ, hσ⟩ := scale_near hm (hrange.measurable hgrid hfinite hpos)
  obtain ⟨hmx, hmy⟩ := Bool.and_eq_true_iff.mp (hm.isFinite _ (List.get_mem _ _))
  obtain ⟨hqx, hqy⟩ := Bool.and_eq_true_iff.mp (hfinite _ (List.get_mem _ _))
  obtain ⟨hsx, hsy⟩ := hrange.scaled_le _ (List.get_mem _ _)
  obtain ⟨htx, hty⟩ := hrange.target_le _ (List.get_mem _ _)
  obtain ⟨i, hdx, hi, huniq⟩ := exists_displacement hτ hσ hmx hsx hqx htx
  obtain ⟨j, hdy, hj, huniq'⟩ := exists_displacement hτ hσ hmy hsy hqy hty
  exact ⟨i, j, hdx, hdy, hi, hj, fun i' j' hx hy => ⟨huniq i' hx, huniq' j' hy⟩⟩

section Vertex

variable {i j : ℤ} (hdx : HasValue (Search.fitting m q).dx (i * 2 ^ (-20 : ℤ)))
  (hdy : HasValue (Search.fitting m q).dy (j * 2 ^ (-20 : ℤ))) (hi : |(i : ℝ)| ≤ 2 ^ 38)
  (hj : |(j : ℝ)| ≤ 2 ^ 38) {p v : Point} (hp : p ∈ m.vertices) (hv : v ∈ q.vertices)

include hdx hdy hi hj hp hv

/-- A vertex that lands near its target is taken to it. -/
lemma InRange.snapped_eq (hx : LandsNear (511 / 1024) (ratio m q) i p.x v.x)
    (hy : LandsNear (511 / 1024) (ratio m q) j p.y v.y) :
    ((Search.fitting m q).apply p).snapped = v.snapped := by
  obtain ⟨hτ, hσ⟩ := scale_near hm (hrange.measurable hgrid hfinite hpos)
  obtain ⟨hpx, hpy⟩ := Bool.and_eq_true_iff.mp (hm.isFinite p hp)
  obtain ⟨hsx, hsy⟩ := hrange.scaled_le p hp
  obtain ⟨htx, hty⟩ := hrange.target_le v hv
  obtain ⟨a, b, ha, hb⟩ := hgrid.exists_int hv (hfinite v hv)
  have himage : (((Search.fitting m q).apply p).snapped).HasValue
      (a * 2 ^ (-20 : ℤ), b * 2 ^ (-20 : ℤ)) :=
    ⟨hx.hasValue_image hτ hσ hpx hsx hdx hi ha, hy.hasValue_image hτ hσ hpy hsy hdy hj hb⟩
  have hself : v.snapped.HasValue (a * 2 ^ (-20 : ℤ), b * 2 ^ (-20 : ℤ)) :=
    ⟨hasValue_snap_of_steps ha htx, hasValue_snap_of_steps hb hty⟩
  exact Point.snapped_eq_of_equal (himage.equal hself)

/-- A vertex that is taken to its target lands near it. -/
lemma InRange.landsNear_of_snapped_eq (h : ((Search.fitting m q).apply p).snapped = v.snapped) :
    LandsNear (513 / 1024) (ratio m q) i p.x v.x ∧
      LandsNear (513 / 1024) (ratio m q) j p.y v.y := by
  obtain ⟨hτ, hσ⟩ := scale_near hm (hrange.measurable hgrid hfinite hpos)
  obtain ⟨hpx, hpy⟩ := Bool.and_eq_true_iff.mp (hm.isFinite p hp)
  obtain ⟨hsx, hsy⟩ := hrange.scaled_le p hp
  obtain ⟨htx, hty⟩ := hrange.target_le v hv
  obtain ⟨a, b, ha, hb⟩ := hgrid.exists_int hv (hfinite v hv)
  have hx : snap (p.x * (Search.fitting m q).scale + (Search.fitting m q).dx) = snap v.x :=
    congrArg Point.x h
  have hy : snap (p.y * (Search.fitting m q).scale + (Search.fitting m q).dy) = snap v.y :=
    congrArg Point.y h
  constructor
  · exact landsNear_of_hasValue_image hτ hσ hpx hsx hdx hi ha (hx ▸ hasValue_snap_of_steps ha htx)
  · exact landsNear_of_hasValue_image hτ hσ hpy hsy hdy hj hb (hy ▸ hasValue_snap_of_steps hb hty)

end Vertex

/-- A pattern that lands on the anchor is taken to its key. -/
lemma InRange.keyUnder_eq (h : LandsOn (511 / 1024) (ratio m q) m.vertices q.vertices) :
    m.keyUnder (Search.fitting m q) = q.key := by
  obtain ⟨i, j, hdx, hdy, hi, hj, huniq⟩ := hrange.exists_displacements hm hgrid hfinite hpos
  obtain ⟨i', j', hvertices⟩ := h
  have hlen := m.three_le
  have hlen' := q.three_le
  obtain ⟨hx₀, hy₀⟩ := hvertices.get (i := 0) (by omega) (by omega)
  obtain ⟨rfl, rfl⟩ := huniq i' j' hx₀ hy₀
  have hsame : (m.vertices.map fun p => ((Search.fitting m q).apply p).snapped) =
      q.vertices.map Point.snapped := by
    rw [← List.forall₂_eq_eq_eq, List.forall₂_map_left_iff, List.forall₂_map_right_iff]
    obtain ⟨hcount, hzip⟩ := List.forall₂_iff_zip.mp hvertices
    refine List.forall₂_iff_zip.mpr ⟨hcount, fun {p v} hmem => ?_⟩
    obtain ⟨hp, hv⟩ := List.of_mem_zip hmem
    obtain ⟨hx, hy⟩ := hzip hmem
    exact hrange.snapped_eq hm hgrid hfinite hpos hdx hdy hi hj hp hv hx hy
  unfold keyUnder keyAt key
  rw [← hsame]
  rfl

/-- A pattern that is taken to the key of the anchor lands on it, started at some vertex. -/
lemma InRange.exists_landsOn (h : m.keyUnder (Search.fitting m q) = q.key) :
    ∃ n, LandsOn (513 / 1024) (ratio m q) m.vertices (q.vertices.rotate n) := by
  obtain ⟨i, j, hdx, hdy, hi, hj, -⟩ := hrange.exists_displacements hm hgrid hfinite hpos
  obtain ⟨n, hn⟩ := (Key.isRotated_of_ofSnapped_eq h.symm)
  rw [← List.map_rotate] at hn
  refine ⟨n, i, j, ?_⟩
  have heq : List.Forall₂ Eq (m.vertices.map fun p => ((Search.fitting m q).apply p).snapped)
      ((q.vertices.rotate n).map Point.snapped) := by
    rw [List.forall₂_eq_eq_eq]
    exact hn.symm
  have hall := List.forall₂_map_right_iff.mp (List.forall₂_map_left_iff.mp heq)
  obtain ⟨hcount, hzip⟩ := List.forall₂_iff_zip.mp hall
  refine List.forall₂_iff_zip.mpr ⟨hcount, fun {p v} hmem => ?_⟩
  obtain ⟨hp, hv⟩ := List.of_mem_zip hmem
  exact hrange.landsNear_of_snapped_eq hm hgrid hfinite hpos hdx hdy hi hj hp
    (List.mem_rotate.mp hv) (hzip hmem)

end Anchor

/-! ### Slips -/

/-- Slips of `η` grid steps are small against the proportions of the shape: each coordinate is so
many times as large as the first edge that an error of the first edge does not carry it too far. -/
def Tolerates (m : Shape) (η : ℝ) : Prop :=
  ∀ p ∈ m.vertices, η * (m.firstEdge + 4 * |real p.x|) ≤ 511 / 1024 * m.firstEdge ∧
    η * (m.firstEdge + 4 * |real p.y|) ≤ 511 / 1024 * m.firstEdge

/-- If the vertices slip by at most `η` grid steps, the exact ratio of the first edges differs
little from the scale. -/
lemma abs_ratio_sub_le {η s : ℝ} (h : LandsOn η s m.vertices q.vertices) (hs : 0 < s)
    (hE : 0 < m.firstEdge) : |ratio m q - s| * 2 ^ 20 * m.firstEdge ≤ 4 * η := by
  obtain ⟨i, j, hvertices⟩ := h
  have hlen := m.three_le
  have hlen' := q.three_le
  obtain ⟨hx₀, hy₀⟩ := hvertices.get (i := 0) (by omega) (by omega)
  obtain ⟨hx₁, hy₁⟩ := hvertices.get (i := 1) (by omega) (by omega)
  have hscaled : s * m.firstEdge =
      √((s * (real m.second.x - real m.origin.x)) ^ 2 +
        (s * (real m.second.y - real m.origin.y)) ^ 2) := by
    rw [mul_pow, mul_pow, ← mul_add, Real.sqrt_mul (by positivity), Real.sqrt_sq hs.le]
    rfl
  have hedges : |q.firstEdge - s * m.firstEdge| ≤ 2 * η / 2 ^ 20 + 2 * η / 2 ^ 20 := by
    rw [hscaled]
    exact (Number.abs_sqrt_sub_sqrt_le _ _ _ _).trans
      (add_le_add (hx₀.abs_sub_le hx₁) (hy₀.abs_sub_le hy₁))
  have hratio : |ratio m q - s| * m.firstEdge = |q.firstEdge - s * m.firstEdge| := by
    rw [← abs_of_pos hE, ← abs_mul, abs_of_pos hE, ratio, sub_mul, div_mul_cancel₀ _ hE.ne']
  rw [mul_right_comm, hratio]
  linarith

/-- Slips that the shape tolerates leave the anchor within reach of the exact ratio. -/
lemma Tolerates.landsOn {η s : ℝ} (hη : m.Tolerates η) (h : LandsOn η s m.vertices q.vertices)
    (hs : 0 < s) (hE : 0 < m.firstEdge) :
    LandsOn (511 / 1024) (ratio m q) m.vertices q.vertices := by
  have hratio := abs_ratio_sub_le h hs hE
  have hlands : ∀ {k : ℤ} {x v : Float}, LandsNear η s k x v →
      η * (m.firstEdge + 4 * |real x|) ≤ 511 / 1024 * m.firstEdge →
        LandsNear (511 / 1024) (ratio m q) k x v := by
    intro k x v hslip hproportion
    have hmove : |ratio m q * real x - s * real x| * 2 ^ 20 + η ≤ 511 / 1024 := by
      refine le_of_mul_le_mul_right ?_ hE
      calc (|ratio m q * real x - s * real x| * 2 ^ 20 + η) * m.firstEdge
          = |ratio m q - s| * 2 ^ 20 * m.firstEdge * |real x| + η * m.firstEdge := by
            rw [← sub_mul, abs_mul]
            ring
        _ ≤ 4 * η * |real x| + η * m.firstEdge := by
            have hscaled := mul_le_mul_of_nonneg_right hratio (abs_nonneg (real x))
            linarith
        _ = η * (m.firstEdge + 4 * |real x|) := by ring
        _ ≤ 511 / 1024 * m.firstEdge := hproportion
    have hsplit : ratio m q * real x * 2 ^ 20 + k - real v * 2 ^ 20 =
        (s * real x * 2 ^ 20 + k - real v * 2 ^ 20) +
          (ratio m q * real x - s * real x) * 2 ^ 20 := by ring
    constructor
    rw [hsplit]
    refine (abs_add_le _ _).trans ?_
    rw [abs_mul, abs_of_pos (by positivity : (0 : ℝ) < 2 ^ 20), add_comm]
    exact (add_le_add_right hslip.near _).trans hmove
  obtain ⟨i, j, hvertices⟩ := h
  obtain ⟨hcount, hzip⟩ := List.forall₂_iff_zip.mp hvertices
  refine ⟨i, j, List.forall₂_iff_zip.mpr ⟨hcount, fun {p v} hmem => ?_⟩⟩
  obtain ⟨hx, hy⟩ := hη p (List.of_mem_zip hmem).1
  exact ⟨hlands (hzip hmem).1 hx, hlands (hzip hmem).2 hy⟩

end Shape

/-! ### Anchors that find themselves -/

namespace Search

open Shape (ratio)

/-- With this anchor, a pattern of one shape is aligned with the anchor and finds it. -/
structure FindsItself (store : Store) (p : Production) (m : Shape) (anchor : Polygon) : Prop where
  aligned : alignment p anchor.shape = some (fitting m anchor.shape)
  key : m.keyUnder (fitting m anchor.shape) = anchor.key
  found : findAll store (fitting m anchor.shape) p.pattern = some [anchor]

/-- Let the pattern of a production be one shape `m`, let a polygon of a store be `m` scaled, moved
and put on the grid, finite and with a first edge that is not without length, and let `m` itself be
finite with a first edge that is neither extremely short nor extremely long, no coordinate being
large at the scale of the polygon.

* The polygon, as an anchor, finds itself if the exact ratio of the first edges, with some
  displacement by whole grid steps, takes the vertices of `m` to within half a grid step of those of
  the polygon, less a small margin for rounding.
* It does not find itself unless this is so with the margin on the other side, and with the polygon
  started at any vertex.
* In particular, the polygon finds itself if placing `m` has moved no vertex by more than `η` grid
  steps and `m` tolerates such slips. -/
theorem placed_shape_finds_itself {store : Store} (h : store.Reachable) {p : Production} {m : Shape}
    (hp : p.pattern = [m]) {scale dx dy : Float} {q : Polygon} (hq : q ∈ store.toList)
    (hshape : q.shape = m.placed scale dx dy) (hm : m.Measurable)
    (hfinite : ∀ v ∈ q.shape.vertices, v.isFinite = true) (hedge : 0 < q.shape.firstEdge)
    (hrange : m.InRange q.shape) :
    (LandsOn (511 / 1024) (ratio m q.shape) m.vertices q.shape.vertices →
      FindsItself store p m q) ∧
    (FindsItself store p m q →
      ∃ n, LandsOn (513 / 1024) (ratio m q.shape) m.vertices (q.shape.vertices.rotate n)) ∧
    ∀ η, 0 < scale → scale.isFinite = true → m.Tolerates η →
      LandsOn η (real scale) m.vertices q.shape.vertices → FindsItself store p m q := by
  have hgrid : q.shape.OnGrid := hshape ▸ m.onGrid_placed scale dx dy
  have hkeys := h.consistent.key_eq q hq
  have hlands : LandsOn (511 / 1024) (ratio m q.shape) m.vertices q.shape.vertices →
      FindsItself store p m q := by
    intro hlands
    have hkey : m.keyUnder (fitting m q.shape) = q.key :=
      (hrange.keyUnder_eq hm hgrid hfinite hedge hlands).trans hkeys.symm
    refine ⟨?_, hkey, ?_⟩
    · exact alignment_eq_some_iff.mpr
        ⟨m, hp ▸ Option.mem_some_self m, hrange.fits hm hgrid hfinite hedge, rfl⟩
    · rw [hp, findAll_iff_forall₂ h.consistent]
      exact .cons ⟨hq, hkey.symm⟩ .nil
  refine ⟨hlands, fun hself => ?_, fun η hpos hscale hη hslips => hlands ?_⟩
  · exact hrange.exists_landsOn hm hgrid hfinite hedge (hself.key.trans hkeys)
  · exact hη.landsOn hslips ((Number.real_pos_iff hscale).mpr hpos) hm.firstEdge_pos

/-- A flat right triangle with its corner at the origin. -/
def wedge : Shape := ⟨[⟨0, 0⟩, ⟨3, 0⟩, ⟨0, 1⟩], .plain, by decide⟩

/-- The flat triangle at scale `0.3`, which moves two of its vertices. -/
def placedWedge : Shape := wedge.placed 0.3 5 2

/-- To a flat triangle, one above it is added. -/
def wedgeRule : Production := ⟨1, [wedge], [wedge.shifted 0 1]⟩

/-- The coordinates of the flat triangle. -/
lemma real_wedge : real 0 = 0 ∧ real 1 = 1 ∧ real 3 = 3 := by
  have h0 : Number.value 0 = 0 := by decide +kernel
  have h1 : Number.value 1 = 1 := by decide +kernel
  have h3 : Number.value 3 = 3 := by decide +kernel
  simp only [real, h0, h1, h3]
  norm_num

/-- The coordinates of the placed triangle.  Those that `0.3` goes into are rounded. -/
lemma real_placedWedge : real (snap (0 * 0.3 + 5)) = 5 ∧ real (snap (0 * 0.3 + 2)) = 2 ∧
    real (snap (3 * 0.3 + 5)) = 6186598 / 2 ^ 20 ∧
    real (snap (1 * 0.3 + 2)) = 2411725 / 2 ^ 20 := by
  have hleft : Number.value (snap (0 * 0.3 + 5)) = 5 := by decide +kernel
  have hlow : Number.value (snap (0 * 0.3 + 2)) = 2 := by decide +kernel
  have hright : Number.value (snap (3 * 0.3 + 5)) = 6186598 / 2 ^ 20 := by decide +kernel
  have hhigh : Number.value (snap (1 * 0.3 + 2)) = 2411725 / 2 ^ 20 := by decide +kernel
  simp only [real, hleft, hlow, hright, hhigh]
  norm_num

lemma firstEdge_wedge : wedge.firstEdge = 3 := by
  obtain ⟨h0, -, h3⟩ := real_wedge
  change √((real 3 - real 0) ^ 2 + (real 0 - real 0) ^ 2) = 3
  rw [h0, h3]
  norm_num

lemma firstEdge_placedWedge : placedWedge.firstEdge = 943718 / 2 ^ 20 := by
  obtain ⟨hleft, hlow, hright, -⟩ := real_placedWedge
  change √((real (snap (3 * 0.3 + 5)) - real (snap (0 * 0.3 + 5))) ^ 2 +
    (real (snap (0 * 0.3 + 2)) - real (snap (0 * 0.3 + 2))) ^ 2) = _
  rw [hleft, hright, hlow, sub_self, zero_pow two_ne_zero, add_zero, Real.sqrt_sq (by norm_num)]
  norm_num

lemma ratio_wedge : ratio wedge placedWedge = 943718 / 2 ^ 20 / 3 := by
  rw [ratio, firstEdge_wedge, firstEdge_placedWedge]

lemma measurable_wedge : wedge.Measurable := by
  refine ⟨by decide +kernel, ?_, ?_⟩
  · rw [firstEdge_wedge]
    exact (zpow_le_one_of_nonpos₀ one_le_two (by decide)).trans (by norm_num)
  · rw [firstEdge_wedge]
    have hlarge : (2 : ℝ) ^ (2 : ℤ) ≤ 2 ^ (400 : ℤ) := zpow_le_zpow_right₀ one_le_two (by decide)
    exact le_trans (by norm_num) hlarge

lemma inRange_wedge : wedge.InRange placedWedge := by
  obtain ⟨h0, h1, h3⟩ := real_wedge
  obtain ⟨hleft, hlow, hright, hhigh⟩ := real_placedWedge
  refine ⟨?_, ?_⟩
  · rw [ratio_wedge]
    refine List.forall_mem_cons.mpr ⟨⟨?_, ?_⟩, List.forall_mem_cons.mpr ⟨⟨?_, ?_⟩,
      List.forall_mem_singleton.mpr ⟨?_, ?_⟩⟩⟩
    all_goals
      simp only [h0, h1, h3]
      norm_num [abs_le]
  · refine List.forall_mem_cons.mpr ⟨⟨?_, ?_⟩, List.forall_mem_cons.mpr ⟨⟨?_, ?_⟩,
      List.forall_mem_singleton.mpr ⟨?_, ?_⟩⟩⟩
    all_goals
      dsimp only [Point.snapped, Point.scaleShift]
      simp only [hleft, hright, hlow, hhigh]
      norm_num [abs_le]

/-- The vertices land within a third of a grid step. -/
lemma landsOn_wedge :
    LandsOn (511 / 1024) (ratio wedge placedWedge) wedge.vertices placedWedge.vertices := by
  obtain ⟨h0, h1, h3⟩ := real_wedge
  obtain ⟨hleft, hlow, hright, hhigh⟩ := real_placedWedge
  refine ⟨5 * 2 ^ 20, 2 * 2 ^ 20, ?_⟩
  rw [ratio_wedge]
  refine .cons ⟨⟨?_⟩, ⟨?_⟩⟩ (.cons ⟨⟨?_⟩, ⟨?_⟩⟩ (.cons ⟨⟨?_⟩, ⟨?_⟩⟩ .nil))
  all_goals
    dsimp only [Point.snapped, Point.scaleShift]
    simp only [h0, h1, h3, hleft, hright, hlow, hhigh]
    norm_num [abs_le]

theorem placedWedge_finds_itself :
    (Store.single placedWedge).Reachable ∧ wedgeRule.pattern = [wedge] ∧ wedge.Measurable ∧
      (∀ v ∈ placedWedge.vertices, v.isFinite = true) ∧ 0 < placedWedge.firstEdge ∧
      wedge.InRange placedWedge ∧
      LandsOn (511 / 1024) (ratio wedge placedWedge) wedge.vertices placedWedge.vertices ∧
      FindsItself (Store.single placedWedge) wedgeRule wedge (.ofShape 1 placedWedge) := by
  have hreach := Store.reachable_single placedWedge
  have hmem : Polygon.ofShape 1 placedWedge ∈ (Store.single placedWedge).toList := by
    rw [Store.toList_single]
    exact List.mem_cons_self
  have hfinite : ∀ v ∈ placedWedge.vertices, v.isFinite = true := by decide +kernel
  have hpos : 0 < placedWedge.firstEdge := by
    rw [firstEdge_placedWedge]
    norm_num
  refine ⟨hreach, rfl, measurable_wedge, hfinite, hpos, inRange_wedge, landsOn_wedge, ?_⟩
  exact (placed_shape_finds_itself hreach rfl hmem rfl measurable_wedge hfinite hpos
    inRange_wedge).1 landsOn_wedge

/-- A right triangle three times as high as wide. -/
def steep : Shape := ⟨[⟨0, 0⟩, ⟨1, 0⟩, ⟨0, 3⟩], .plain, by decide⟩

/-- The steep triangle at a third of its size.  Its first edge is a third of a grid step shorter
than a third, and its height is one. -/
def placedSteep : Shape := steep.placed (1 / 3) 0 0

/-- The steep triangle at a third of its size does not find itself: three times the first edge
misses the height by one grid step. -/
theorem placedSteep_does_not_find_itself :
    (Store.single placedSteep).Reachable ∧
      (1 / 3 : Float).isFinite = true ∧ 0 < (1 / 3 : Float) ∧ 0 < steep.referenceEdge ∧
      (∀ v ∈ placedSteep.vertices, v.isFinite = true) ∧ 0 < placedSteep.referenceEdge ∧
      steep.keyUnder (fitting steep placedSteep) ≠ placedSteep.key ∧
      findAll (Store.single placedSteep) (fitting steep placedSteep) [steep] = none := by
  have hkey : steep.keyUnder (fitting steep placedSteep) ≠ placedSteep.key := by decide +kernel
  have hnone : (findAll (Store.single placedSteep) (fitting steep placedSteep) [steep]).isNone := by
    decide +kernel
  refine ⟨Store.reachable_single _, ?_, ?_, ?_, ?_, ?_, hkey, Option.isNone_iff_eq_none.mp hnone⟩
  all_goals decide +kernel

end Search

end ShapeGrammar
