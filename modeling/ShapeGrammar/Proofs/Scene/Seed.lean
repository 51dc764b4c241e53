import ShapeGrammar.Proofs.Scene.Canvas
import ShapeGrammar.Proofs.Search.Recovery
import ShapeGrammar.Proofs.Shape.Identity
import ShapeGrammar.Scene

/-!
# The seed of the triangle scene

The rules of the triangle scene look for a triangle with a base of length one hundred and add one of
its corners.  The seed is that triangle, scaled by `5.12` and put in the middle of the canvas.

Where a shape lies on the grid (`Shape.LiesAt`) determines its key.  The corners of the seed go to
the grid points nearest to them, but for a small error (`Scene.Corners`).  The similarity that takes
the pattern to the seed has almost exactly the scale `5.12` (`Scene.ratio_near`), and it moves by
whole grid steps; so shapes that are almost on the grid at this scale go there, counted from the
left corner of the seed (`Scene.Corners.hasValues_under`).
-/

namespace ShapeGrammar

open Number (HasValue real value)

/-! ### Places on the grid -/

/-- The point of the grid with these coordinates, counted in grid steps. -/
def gridPoint (v : ℤ × ℤ) : ℚ × ℚ := (v.1 * 2 ^ (-20 : ℤ), v.2 * 2 ^ (-20 : ℤ))

lemma gridPoint_injective : Function.Injective gridPoint := by
  intro v w h
  have hstep : (2 : ℚ) ^ (-20 : ℤ) ≠ 0 := zpow_ne_zero _ two_ne_zero
  rw [gridPoint, gridPoint, Prod.ext_iff, mul_left_inj' hstep, mul_left_inj' hstep,
    Int.cast_inj, Int.cast_inj] at h
  exact Prod.ext h.1 h.2

namespace Shape

/-- On the grid, the vertices are at these places, in grid steps. -/
def LiesAt (s : Shape) (vs : List (ℤ × ℤ)) : Prop :=
  List.Forall₂ (fun p v => p.snapped.HasValue (gridPoint v)) s.vertices vs

variable {s s' : Shape} {vs ws : List (ℤ × ℤ)}

/-- What is placed is on the grid already. -/
lemma liesAt_placed {scale dx dy : Float}
    (h : (s.placed scale dx dy).HasValues (vs.map gridPoint)) :
    (s.placed scale dx dy).LiesAt vs := by
  have hsnapped : List.Forall₂ (fun p v => p.HasValue (gridPoint v))
      ((s.placed scale dx dy).vertices.map Point.snapped) vs := by
    rw [map_snapped_placed]
    exact List.forall₂_map_right_iff.mp h
  exact List.forall₂_map_left_iff.mp hsnapped

lemma LiesAt.map_value_snapped (h : s.LiesAt vs) :
    (s.vertices.map Point.snapped).map Point.value = vs.map gridPoint := by
  rw [List.map_map, ← List.forall₂_eq_eq_eq, List.forall₂_map_left_iff, List.forall₂_map_right_iff]
  exact h.imp fun p v hp => hp.value_eq

/-- A shape lies at one list of places. -/
lemma LiesAt.unique (h : s.LiesAt vs) (h' : s.LiesAt ws) : vs = ws :=
  gridPoint_injective.list_map (h.map_value_snapped.symm.trans h'.map_value_snapped)

/-- Shapes at the same places have one key. -/
lemma LiesAt.key_eq (h : s.LiesAt vs) (h' : s'.LiesAt vs) : s.key = s'.key := by
  unfold key
  congr 1
  unfold LiesAt at h h'
  generalize s.vertices = ps at h
  generalize s'.vertices = qs at h'
  induction h generalizing qs with
  | nil => rw [List.forall₂_nil_right_iff.mp h']
  | cons hp _ ih =>
    obtain ⟨q, qs, hq, hrest, rfl⟩ := List.forall₂_cons_right_iff.mp h'
    rw [List.map_cons, List.map_cons, Point.snapped_eq_of_equal (hp.equal hq), ih qs hrest]

/-- Shapes of one key lie at the same places, in the same cyclic order. -/
lemma LiesAt.isRotated (h : s.LiesAt vs) (h' : s'.LiesAt ws) (hkey : s.key = s'.key) :
    vs ~r ws := by
  obtain ⟨n, hn⟩ := (isRotated_of_key_eq hkey).map Point.value
  rw [h.map_value_snapped, h'.map_value_snapped, ← List.map_rotate] at hn
  exact ⟨n, gridPoint_injective.list_map hn⟩

end Shape

namespace Scene

open Shape (ratio)

/-! ### The scene -/

/-- The triangle that the rules look for. -/
def whole : Shape := ⟨[⟨0, 0⟩, ⟨50, -100 * triangleHeight⟩, ⟨100, 0⟩], .plain, by decide⟩

/-- Its left corner. -/
def leftPart : Shape := ⟨[⟨0, 0⟩, ⟨25, -50 * triangleHeight⟩, ⟨50, 0⟩], .plain, by decide⟩

/-- Its top. -/
def topPart : Shape :=
  ⟨[⟨25, -50 * triangleHeight⟩, ⟨50, -100 * triangleHeight⟩, ⟨75, -50 * triangleHeight⟩], .plain,
    by decide⟩

/-- Its right corner. -/
def rightPart : Shape := ⟨[⟨50, 0⟩, ⟨75, -50 * triangleHeight⟩, ⟨100, 0⟩], .plain, by decide⟩

/-- The triangle in the middle of a canvas. -/
def seed (width height : Float) : Shape where
  vertices := [⟨width / 2 - 512 / 2, height / 2 + 512 * triangleHeight / 2⟩,
    ⟨width / 2, height / 2 - 512 * triangleHeight / 2⟩,
    ⟨width / 2 + 512 / 2, height / 2 + 512 * triangleHeight / 2⟩]
  style := .plain
  three_le := le_rfl

/-- The rules add one of the corners each. -/
def cornerRules : List Production :=
  grammar [([whole], [leftPart]), ([whole], [topPart]), ([whole], [rightPart])]

/-- The triangle scene. -/
def triangleScene (width height : Float) : Scene :=
  ⟨"Sierpinski Triangle", cornerRules, [seed width height]⟩

/-- Half the height of the seed in whole grid steps. -/
def halfRise : ℤ := 232471924

/-- What half the height of the seed is more than whole grid steps. -/
def excess : ℚ := 5782843 / 33554432

lemma excess_bounds : 0.1723 + 2 ^ (-15 : ℤ) < excess ∧ excess + 2 ^ (-15 : ℤ) < 0.1724 := by
  constructor <;> decide +kernel

/-- Half the width of the seed, and half its height, as doubles. -/
lemma halfSide_values : (512 / 2 : Float).isFinite = true ∧ real (512 / 2) = 256 ∧
    (512 * triangleHeight / 2).isFinite = true ∧
    real (512 * triangleHeight / 2) * 2 ^ 20 = halfRise + excess := by
  have hside : value (512 / 2) = 256 := by decide +kernel
  have hrise : value (512 * triangleHeight / 2) * 2 ^ 20 = halfRise + excess := by decide +kernel
  refine ⟨by decide +kernel, ?_, by decide +kernel, ?_⟩
  · rw [real, hside, Rat.cast_ofNat]
  · have hcast := congrArg (Rat.cast (K := ℝ)) hrise
    push_cast at hcast
    exact hcast

lemma halfSide_bounds : |real (512 / 2)| ≤ 2 ^ 9 ∧ |real (512 * triangleHeight / 2)| ≤ 2 ^ 9 := by
  obtain ⟨-, hside, -, hrise⟩ := halfSide_values
  rw [hside, abs_le, abs_le]
  norm_num [halfRise, excess] at hrise ⊢
  constructor <;> linarith

/-- The corners of the pattern; at the size of the seed, it is as high as the seed. -/
lemma whole_values : real 0 = 0 ∧ real 50 = 50 ∧
    |128 / 25 * real (-100 * triangleHeight) + 2 * real (512 * triangleHeight / 2)| ≤
      2 ^ (-40 : ℤ) := by
  have hzero : value 0 = 0 := by decide +kernel
  have hfifty : value 50 = 50 := by decide +kernel
  have hrise : |128 / 25 * value (-100 * triangleHeight) + 2 * value (512 * triangleHeight / 2)| ≤
      2 ^ (-40 : ℤ) := by
    decide +kernel
  refine ⟨by rw [real, hzero, Rat.cast_zero], by rw [real, hfifty, Rat.cast_ofNat], ?_⟩
  rw [← Rat.cast_le (K := ℝ)] at hrise
  push_cast at hrise
  exact hrise

/-- The first edge of the pattern. -/
lemma firstEdge_whole : whole.firstEdge = √(50 ^ 2 + real (-100 * triangleHeight) ^ 2) := by
  obtain ⟨hzero, hfifty, -⟩ := whole_values
  change √((real 50 - real 0) ^ 2 + (real (-100 * triangleHeight) - real 0) ^ 2) = _
  rw [hzero, hfifty, sub_zero, sub_zero]

lemma firstEdge_whole_bounds : 50 ≤ whole.firstEdge ∧ whole.firstEdge ≤ 2 ^ 9 := by
  obtain ⟨-, -, hrise⟩ := whole_values
  obtain ⟨-, hhalf⟩ := halfSide_bounds
  constructor
  · rw [firstEdge_whole]
    exact (le_abs_self _).trans (Number.abs_le_sqrt_add_left _ _)
  · have hsides := (le_abs_self _).trans
      (Number.abs_sqrt_sub_sqrt_le 50 (real (-100 * triangleHeight)) 0 0)
    have hzeros : √((0 : ℝ) ^ 2 + 0 ^ 2) = 0 := by norm_num
    rw [hzeros, sub_zero, sub_zero, sub_zero, ← firstEdge_whole] at hsides
    have hrise' := abs_le.mp hrise
    have hhalf' := abs_le.mp hhalf
    norm_num at hrise' hhalf'
    have hheight : |real (-100 * triangleHeight)| ≤ 2 ^ 8 := by
      rw [abs_le]
      norm_num
      constructor <;> linarith
    norm_num at hsides hheight ⊢
    linarith

lemma measurable_whole : whole.Measurable := by
  obtain ⟨hlow, hhigh⟩ := firstEdge_whole_bounds
  have hsmall : (2 : ℝ) ^ (-400 : ℤ) ≤ 2 ^ (0 : ℤ) := zpow_le_zpow_right₀ one_le_two (by decide)
  have hlarge : (2 : ℝ) ^ (9 : ℤ) ≤ 2 ^ (400 : ℤ) := zpow_le_zpow_right₀ one_le_two (by decide)
  refine ⟨by decide +kernel, hsmall.trans (le_trans (by norm_num) hlow), hhigh.trans ?_⟩
  exact_mod_cast hlarge

lemma outline_eq_ok {ps : List (Float × Float)} {s : Shape}
    (hvertices : s.vertices = ps.map fun p => ⟨p.1, p.2⟩) (hstyle : s.style = .plain)
    (hfinite : ∀ p ∈ s.vertices, p.isFinite = true) : outline ps = .ok s := by
  unfold outline
  exact Shape.ofPoints_eq_ok_iff.mpr ⟨hvertices, hstyle, hvertices ▸ hfinite⟩

/-- Every rule looks for the same triangle. -/
lemma triangleRule_eq_ok {ps : List (Float × Float)} {part : Shape} (h : outline ps = .ok part) :
    triangleRule ps = .ok ([whole], [part]) := by
  have hwhole : outline [(0, 0), (50, -100 * triangleHeight), (100, 0)] = .ok whole :=
    outline_eq_ok rfl rfl (by decide +kernel)
  unfold triangleRule
  rw [hwhole, h]
  rfl

/-! ### Grid steps at the size of the seed -/

/-- At the size of the seed, the coordinate is `k` grid steps, or almost so. -/
def AtStep (x : Float) (k : ℤ) : Prop :=
  x.isFinite = true ∧ |value x| ≤ 100 ∧ |128 / 25 * value x * 2 ^ 20 - k| ≤ 2 / 5

instance (x : Float) (k : ℤ) : Decidable (AtStep x k) :=
  inferInstanceAs (Decidable (_ ∧ _ ∧ _))

/-- At the size of the seed, the vertices are at these places, in grid steps. -/
def AtSteps (s : Shape) (ks : List (ℤ × ℤ)) : Prop :=
  List.Forall₂ (fun p k => AtStep p.x k.1 ∧ AtStep p.y k.2) s.vertices ks

lemma atSteps_whole : AtSteps whole [(0, 0), (2 ^ 28, -(2 * halfRise)), (2 ^ 29, 0)] := by
  refine .cons ⟨?_, ?_⟩ (.cons ⟨?_, ?_⟩ (.cons ⟨?_, ?_⟩ .nil)) <;> decide +kernel

lemma atSteps_leftPart : AtSteps leftPart [(0, 0), (2 ^ 27, -halfRise), (2 ^ 28, 0)] := by
  refine .cons ⟨?_, ?_⟩ (.cons ⟨?_, ?_⟩ (.cons ⟨?_, ?_⟩ .nil)) <;> decide +kernel

lemma atSteps_topPart :
    AtSteps topPart [(2 ^ 27, -halfRise), (2 ^ 28, -(2 * halfRise)), (3 * 2 ^ 27, -halfRise)] := by
  refine .cons ⟨?_, ?_⟩ (.cons ⟨?_, ?_⟩ (.cons ⟨?_, ?_⟩ .nil)) <;> decide +kernel

lemma atSteps_rightPart :
    AtSteps rightPart [(2 ^ 28, 0), (3 * 2 ^ 27, -halfRise), (2 ^ 29, 0)] := by
  refine .cons ⟨?_, ?_⟩ (.cons ⟨?_, ?_⟩ (.cons ⟨?_, ?_⟩ .nil)) <;> decide +kernel

/-- The similarity that takes the pattern to the seed. -/
def placing (W H : Float) : Similarity := Search.fitting whole (seed W H)

section Canvas

variable {W H : Float} (hW : IsSide W) (hH : IsSide H)

include hW hH

lemma isFinite_seed : ∀ p ∈ (seed W H).vertices, p.isFinite = true := by
  obtain ⟨hside, -, hrise, -⟩ := halfSide_values
  obtain ⟨hside', hrise'⟩ := halfSide_bounds
  refine List.forall_mem_cons.mpr ⟨?_, List.forall_mem_cons.mpr
    ⟨?_, List.forall_mem_singleton.mpr ?_⟩⟩
  · exact Bool.and_eq_true_iff.mpr
      ⟨(hW.middle_sub_near hside hside').1, (hH.middle_add_near hrise hrise').1⟩
  · exact Bool.and_eq_true_iff.mpr ⟨hW.middle_near.1, (hH.middle_sub_near hrise hrise').1⟩
  · exact Bool.and_eq_true_iff.mpr
      ⟨(hW.middle_add_near hside hside').1, (hH.middle_add_near hrise hrise').1⟩

/-- The scene can be made for every canvas. -/
lemma load_triangle : load "tri" W H = .ok (triangleScene W H) := by
  have hleft : triangleRule [(0, 0), (25, -50 * triangleHeight), (50, 0)] =
      .ok ([whole], [leftPart]) :=
    triangleRule_eq_ok (outline_eq_ok rfl rfl (by decide +kernel))
  have htop : triangleRule [(25, -50 * triangleHeight), (50, -100 * triangleHeight),
      (75, -50 * triangleHeight)] = .ok ([whole], [topPart]) :=
    triangleRule_eq_ok (outline_eq_ok rfl rfl (by decide +kernel))
  have hright : triangleRule [(50, 0), (75, -50 * triangleHeight), (100, 0)] =
      .ok ([whole], [rightPart]) :=
    triangleRule_eq_ok (outline_eq_ok rfl rfl (by decide +kernel))
  have hseed : outline [
      (W / 2 - 512 / 2, H / 2 + 512 * triangleHeight / 2),
      (W / 2, H / 2 - 512 * triangleHeight / 2),
      (W / 2 + 512 / 2, H / 2 + 512 * triangleHeight / 2)] = .ok (seed W H) :=
    outline_eq_ok rfl rfl (isFinite_seed hW hH)
  change triangle (W / 2) (H / 2) = _
  unfold triangle
  dsimp only
  rw [List.mapM_cons, List.mapM_cons, List.mapM_cons, List.mapM_nil, hleft, htop, hright]
  dsimp only [bind, Except.bind, pure, Except.pure]
  rw [hseed]
  rfl

/-! ### The corners of the seed -/

/-- The corners of the seed on the grid: `(i, j)` on the left, `(b, k)` at the top and `(c, j)` on
the right, in grid steps. -/
structure Corners (W H : Float) (i b c j k : ℤ) : Prop where
  left : HasValue (snap (W / 2 - 512 / 2)) (i * 2 ^ (-20 : ℤ))
  middle : HasValue (snap (W / 2)) (b * 2 ^ (-20 : ℤ))
  right : HasValue (snap (W / 2 + 512 / 2)) (c * 2 ^ (-20 : ℤ))
  base : HasValue (snap (H / 2 + 512 * triangleHeight / 2)) (j * 2 ^ (-20 : ℤ))
  top : HasValue (snap (H / 2 - 512 * triangleHeight / 2)) (k * 2 ^ (-20 : ℤ))
  left_near : |i - (real W / 2 - real (512 / 2)) * 2 ^ 20| ≤ 1 / 2 + 2 ^ (-15 : ℤ)
  middle_near : |b - real W / 2 * 2 ^ 20| ≤ 1 / 2 + 2 ^ (-15 : ℤ)
  right_near : |c - (real W / 2 + real (512 / 2)) * 2 ^ 20| ≤ 1 / 2 + 2 ^ (-15 : ℤ)
  base_near : |j - (real H / 2 + real (512 * triangleHeight / 2)) * 2 ^ 20| ≤
    1 / 2 + 2 ^ (-15 : ℤ)
  top_near : |k - (real H / 2 - real (512 * triangleHeight / 2)) * 2 ^ 20| ≤
    1 / 2 + 2 ^ (-15 : ℤ)

omit hW hH in
lemma Corners.liesAt_seed {i b c j k : ℤ} (h : Corners W H i b c j k) :
    (seed W H).LiesAt [(i, j), (b, k), (c, j)] :=
  .cons ⟨h.left, h.base⟩ (.cons ⟨h.middle, h.top⟩ (.cons ⟨h.right, h.base⟩ .nil))

lemma exists_corners : ∃ i b c j k, Corners W H i b c j k := by
  obtain ⟨hside, -, hrise, -⟩ := halfSide_values
  obtain ⟨hside', hrise'⟩ := halfSide_bounds
  obtain ⟨i, hleft, hleft'⟩ := hW.exists_snap_sub hside hside'
  obtain ⟨b, hmiddle, hmiddle'⟩ := hW.exists_snap_middle
  obtain ⟨c, hright, hright'⟩ := hW.exists_snap_add hside hside'
  obtain ⟨j, hbase, hbase'⟩ := hH.exists_snap_add hrise hrise'
  obtain ⟨k, htop, htop'⟩ := hH.exists_snap_sub hrise hrise'
  exact ⟨i, b, c, j, k, hleft, hmiddle, hright, hbase, htop, hleft', hmiddle', hright', hbase',
    htop'⟩

/-! ### The scale -/

/-- The edge of the seed is almost that of the pattern, scaled by `5.12`. -/
lemma firstEdge_near :
    |(seed W H).firstEdge - 128 / 25 * whole.firstEdge| ≤ 2 ^ (-32 : ℤ) := by
  obtain ⟨-, -, hrise⟩ := whole_values
  obtain ⟨hside, hside', hhalf, -⟩ := halfSide_values
  obtain ⟨hside'', hhalf'⟩ := halfSide_bounds
  have hscaled : 128 / 25 * whole.firstEdge =
      √(256 ^ 2 + (128 / 25 * real (-100 * triangleHeight)) ^ 2) := by
    have hsquares : (256 : ℝ) ^ 2 + (128 / 25 * real (-100 * triangleHeight)) ^ 2 =
        (128 / 25) ^ 2 * (50 ^ 2 + real (-100 * triangleHeight) ^ 2) := by ring
    rw [firstEdge_whole, hsquares, Real.sqrt_mul (by positivity), Real.sqrt_sq (by norm_num)]
  rw [hscaled]
  refine (Number.abs_sqrt_sub_sqrt_le _ _ _ _).trans ?_
  have hrise' := abs_le.mp hrise
  have hleft := abs_le.mp (hW.middle_sub_near hside hside'').2
  have hmiddle := abs_le.mp hW.middle_near.2
  have hbase := abs_le.mp (hH.middle_add_near hhalf hhalf').2
  have htop := abs_le.mp (hH.middle_sub_near hhalf hhalf').2
  rw [hside'] at hleft
  norm_num at hrise' hleft hmiddle hbase htop
  have hwide : |real (W / 2) - real (W / 2 - 512 / 2) - 256| ≤ 2 ^ (-34 : ℤ) := by
    rw [abs_le]
    norm_num
    constructor <;> linarith
  have htall : |real (H / 2 - 512 * triangleHeight / 2) -
      real (H / 2 + 512 * triangleHeight / 2) - 128 / 25 * real (-100 * triangleHeight)| ≤
        2 ^ (-33 : ℤ) := by
    rw [abs_le]
    norm_num
    constructor <;> linarith
  exact (add_le_add hwide htall).trans (by norm_num)

lemma measurable_seed : (seed W H).Measurable := by
  obtain ⟨hlow, hhigh⟩ := firstEdge_whole_bounds
  have hsmall : (2 : ℝ) ^ (-400 : ℤ) ≤ 2 ^ (0 : ℤ) := zpow_le_zpow_right₀ one_le_two (by decide)
  have hlarge : (2 : ℝ) ^ (12 : ℤ) ≤ 2 ^ (400 : ℤ) := zpow_le_zpow_right₀ one_le_two (by decide)
  have hnear := abs_le.mp (firstEdge_near hW hH)
  norm_num at hnear hhigh
  refine ⟨isFinite_seed hW hH, hsmall.trans ?_, le_trans ?_ hlarge⟩
  · norm_num
    linarith
  · norm_num
    linarith

/-- The seed is the pattern at almost exactly `5.12` times its size. -/
lemma ratio_near : |ratio whole (seed W H) - 128 / 25| ≤ 2 ^ (-37 : ℤ) := by
  obtain ⟨hlow, -⟩ := firstEdge_whole_bounds
  have hpos : 0 < whole.firstEdge := lt_of_lt_of_le (by norm_num) hlow
  have hsplit : (seed W H).firstEdge / whole.firstEdge - 128 / 25 =
      ((seed W H).firstEdge - 128 / 25 * whole.firstEdge) / whole.firstEdge := by
    field_simp
  rw [ratio, hsplit, abs_div, abs_of_pos hpos, div_le_iff₀ hpos]
  refine (firstEdge_near hW hH).trans ?_
  norm_num
  linarith

/-! ### Images on the grid -/

section Images

variable {i b c j k : ℤ} (hcorners : Corners W H i b c j k)

include hcorners

/-- The pattern is moved to the left corner of the seed, put on the grid. -/
lemma Corners.displacement :
    HasValue (placing W H).dx (i * 2 ^ (-20 : ℤ)) ∧
      HasValue (placing W H).dy (j * 2 ^ (-20 : ℤ)) := by
  obtain ⟨hτ, -⟩ := Shape.scale_near measurable_whole (measurable_seed hW hH)
  obtain ⟨hx, hy⟩ := Bool.and_eq_true_iff.mp (isFinite_seed hW hH _ List.mem_cons_self)
  have hstay : ∀ {a : Float}, a.isFinite = true →
      snap (a - 0 * (placing W H).scale) = snap a := by
    intro a ha
    have ha' := Number.hasValue_value ha
    have hprod := Number.hasValue_zero.mul (Number.hasValue_value hτ)
      (by rw [zero_mul]; exact Number.representable_zero)
    rw [zero_mul] at hprod
    have hdiff := ha'.sub hprod (by rw [sub_zero]; exact ha'.representable)
    rw [sub_zero] at hdiff
    exact snap_eq_of_hasValue hdiff ha'
  have hdx : (placing W H).dx = snap (W / 2 - 512 / 2) := hstay hx
  have hdy : (placing W H).dy = snap (H / 2 + 512 * triangleHeight / 2) := hstay hy
  exact ⟨hdx ▸ hcorners.left, hdy ▸ hcorners.base⟩

lemma Corners.displacement_le : |(i : ℝ)| ≤ 2 ^ 38 ∧ |(j : ℝ)| ≤ 2 ^ 38 := by
  obtain ⟨hside, hrise⟩ := halfSide_bounds
  have hside' := abs_le.mp hside
  have hrise' := abs_le.mp hrise
  have hleft := abs_le.mp hcorners.left_near
  have hbase := abs_le.mp hcorners.base_near
  have hW₁ := hW.one_le
  have hW₂ := hW.le
  have hH₁ := hH.one_le
  have hH₂ := hH.le
  norm_num at hside' hrise' hleft hbase hW₂ hH₂
  constructor
  · rw [abs_le]
    norm_num
    constructor <;> linarith
  · rw [abs_le]
    norm_num
    constructor <;> linarith

omit hcorners in
/-- A coordinate that is almost at a grid step goes there. -/
lemma AtStep.hasValue_image {x d : Float} {n m : ℤ} (hx : AtStep x n)
    (hd : HasValue d (m * 2 ^ (-20 : ℤ))) (hm : |(m : ℝ)| ≤ 2 ^ 38) :
    HasValue (snap (x * (placing W H).scale + d)) ((m + n : ℤ) * 2 ^ (-20 : ℤ)) := by
  obtain ⟨hfinite, hle, hstep⟩ := hx
  obtain ⟨hτ, hσ⟩ := Shape.scale_near measurable_whole (measurable_seed hW hH)
  have hle' : |real x| ≤ 100 := by
    unfold real
    exact_mod_cast hle
  have hstep' : |128 / 25 * real x * 2 ^ 20 - n| ≤ 2 / 5 := by
    rw [← Rat.cast_le (K := ℝ)] at hstep
    push_cast at hstep
    exact hstep
  have hratio : |ratio whole (seed W H) * real x - 128 / 25 * real x| ≤ 2 ^ (-37 : ℤ) * 100 := by
    rw [← sub_mul, abs_mul]
    exact mul_le_mul (ratio_near hW hH) hle' (abs_nonneg _) (by positivity)
  have hstep'' := abs_le.mp hstep'
  have hratio' := abs_le.mp hratio
  have hx' := abs_le.mp hle'
  norm_num at hratio'
  have hsize : |ratio whole (seed W H) * real x| ≤ 2 ^ 16 := by
    rw [abs_le]
    constructor <;> linarith
  obtain ⟨hfinite', hlarge, hnear⟩ := image_near hτ hσ hfinite hsize hd hm
  refine hasValue_snap_of_near hfinite' hlarge ?_
  have hnear' := abs_lt.mp hnear
  rw [Int.cast_add, abs_lt]
  constructor <;> linarith

/-- A shape goes to its places, counted from the left corner of the seed. -/
lemma Corners.hasValues_under {r : Shape} {ks : List (ℤ × ℤ)} (hr : AtSteps r ks) :
    (r.under (placing W H)).HasValues ((ks.map fun k => (i + k.1, j + k.2)).map gridPoint) := by
  obtain ⟨hdx, hdy⟩ := hcorners.displacement hW hH
  obtain ⟨hi, hj⟩ := hcorners.displacement_le hW hH
  unfold Shape.HasValues Shape.under Shape.placed
  rw [List.map_map, List.forall₂_map_left_iff, List.forall₂_map_right_iff]
  refine hr.imp fun p k hp => ⟨?_, ?_⟩
  · exact hp.1.hasValue_image hW hH hdx hi
  · exact hp.2.hasValue_image hW hH hdy hj

lemma Corners.liesAt_under {r : Shape} {ks : List (ℤ × ℤ)} (hr : AtSteps r ks) :
    (r.under (placing W H)).LiesAt (ks.map fun k => (i + k.1, j + k.2)) :=
  Shape.liesAt_placed (hcorners.hasValues_under hW hH hr)

end Images

end Canvas

end Scene

end ShapeGrammar
