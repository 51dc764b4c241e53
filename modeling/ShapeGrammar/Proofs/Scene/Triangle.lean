import ShapeGrammar.Proofs.Growth.Installation
import ShapeGrammar.Proofs.Scene.Seed
import ShapeGrammar.Proofs.Shape.Identity

/-!
# Where the triangle scene can grow

The seed of the triangle scene is not put on the grid, whereas the search puts first the
displacement and then the vertices of the pattern there.  So the base of the seed and its top may be
rounded in different directions, and then the pattern, rounded as a whole, is one grid step off.

The scene can grow exactly if the corners of the seed are those of the pattern on the grid
(`Scene.OnPattern`) and still lie in the region there.  Half the height of the seed is about
`0.17234` grid steps more than a whole number of them, so this depends on how far the middle of the
canvas is from the middle between two grid points (`Scene.clearance`): the scene grows if it is more
than `0.1724` steps, as on canvases with a whole number of pixels, and it is exhausted at once if it
is less than `0.1723` steps (`Scene.triangle_grows_iff`).
-/

namespace ShapeGrammar

open Number (HasValue real value)

namespace Scene

/-! ### The pattern and its parts -/

/-- The corners of the pattern in grid steps, with the left one at `(i, j)`. -/
def patternAt (i j : ℤ) : List (ℤ × ℤ) := [(i, j), (i + 2 ^ 28, j - 2 * halfRise), (i + 2 ^ 29, j)]

/-- The pattern is moved from the origin. -/
lemma patternAt_eq_map (i j : ℤ) :
    patternAt i j = (patternAt 0 0).map fun k => (i + k.1, j + k.2) := by
  simp only [patternAt, List.map_cons, List.map_nil, zero_add, add_zero, sub_eq_add_neg]

/-- On the grid, the corners of the shape are those of the pattern. -/
def OnPattern (s : Shape) : Prop := ∃ i j : ℤ, s.LiesAt (patternAt i j)

/-- The corners of the pattern that the rules add, with their places. -/
def parts : List (Shape × List (ℤ × ℤ)) :=
  [(leftPart, [(0, 0), (2 ^ 27, -halfRise), (2 ^ 28, 0)]),
    (topPart, [(2 ^ 27, -halfRise), (2 ^ 28, -(2 * halfRise)), (3 * 2 ^ 27, -halfRise)]),
    (rightPart, [(2 ^ 28, 0), (3 * 2 ^ 27, -halfRise), (2 ^ 29, 0)])]

/-- Every corner of the pattern is a corner of a part. -/
lemma exists_mem_parts : ∀ k ∈ patternAt 0 0, ∃ r ∈ parts, k ∈ r.2 := by decide

lemma atSteps_parts : ∀ r ∈ parts, AtSteps r.1 r.2 :=
  List.forall_mem_cons.mpr ⟨atSteps_leftPart, List.forall_mem_cons.mpr
    ⟨atSteps_topPart, List.forall_mem_singleton.mpr atSteps_rightPart⟩⟩

/-- Every part has a vertex in the middle of the height. -/
lemma exists_mem_parts_middle : ∀ r ∈ parts, ∃ k ∈ r.2, k.2 = -halfRise := by decide

/-- The parts lie in the box around the pattern. -/
lemma parts_mem_box : ∀ r ∈ parts, ∀ k ∈ r.2,
    (0 ≤ k.1 ∧ -(2 * halfRise) ≤ k.2) ∧ k.1 ≤ 2 ^ 29 ∧ k.2 ≤ 0 := by decide

/-- The rules look for the pattern and add one of its parts. -/
lemma rules_eq {p : Production} (hp : p ∈ cornerRules) :
    p.pattern = [whole] ∧ ∃ r ∈ parts, p.result = [r.1] := by
  simp only [cornerRules, grammar, List.zipIdx_cons, List.zipIdx_nil, List.map_cons, List.map_nil,
    List.mem_cons, List.not_mem_nil, or_false] at hp
  rcases hp with rfl | rfl | rfl
  · exact ⟨rfl, _, List.mem_cons_self, rfl⟩
  · exact ⟨rfl, _, List.mem_cons_of_mem _ List.mem_cons_self, rfl⟩
  · exact ⟨rfl, _, List.mem_cons_of_mem _ (List.mem_cons_of_mem _ List.mem_cons_self), rfl⟩

/-- Every part is added by a rule. -/
lemma exists_rule {r : Shape × List (ℤ × ℤ)} (hr : r ∈ parts) :
    ∃ p ∈ cornerRules, p.pattern = [whole] ∧ p.result = [r.1] := by
  simp only [parts, List.mem_cons, List.not_mem_nil, or_false] at hr
  rcases hr with rfl | rfl | rfl
  · exact ⟨_, List.mem_cons_self, rfl, rfl⟩
  · exact ⟨_, List.mem_cons_of_mem _ List.mem_cons_self, rfl, rfl⟩
  · exact ⟨_, List.mem_cons_of_mem _ (List.mem_cons_of_mem _ List.mem_cons_self), rfl, rfl⟩

/-! ### The seed on the grid -/

section Canvas

variable {W H : Float} {i b c j k : ℤ} (hcorners : Corners W H i b c j k)

include hcorners

lemma Corners.onPattern_iff :
    OnPattern (seed W H) ↔ b = i + 2 ^ 28 ∧ c = i + 2 ^ 29 ∧ k = j - 2 * halfRise := by
  constructor
  · rintro ⟨i', j', hpattern⟩
    have hsame := hcorners.liesAt_seed.unique hpattern
    simp only [patternAt, List.cons.injEq, Prod.mk.injEq] at hsame
    obtain ⟨⟨rfl, rfl⟩, ⟨hb, hk⟩, ⟨hc, -⟩, -⟩ := hsame
    exact ⟨hb, hc, hk⟩
  · rintro ⟨rfl, rfl, rfl⟩
    exact ⟨i, j, hcorners.liesAt_seed⟩

variable (hW : IsSide W) (hH : IsSide H)

include hW hH

/-- The places of the pattern. -/
lemma Corners.liesAt_whole : (whole.under (placing W H)).LiesAt (patternAt i j) := by
  have hplaces := hcorners.liesAt_under hW hH atSteps_whole
  simp only [List.map_cons, List.map_nil, add_zero, ← sub_eq_add_neg] at hplaces
  exact hplaces

/-- The search finds the seed exactly if its corners are those of the pattern. -/
lemma Corners.keyUnder_eq_iff :
    whole.keyUnder (placing W H) = (seed W H).key ↔ OnPattern (seed W H) := by
  have hkey : whole.keyUnder (placing W H) = (whole.under (placing W H)).key :=
    (Shape.key_placed _ _ _ _).symm
  have hwhole := hcorners.liesAt_whole hW hH
  rw [hkey, hcorners.onPattern_iff]
  constructor
  · intro h
    obtain ⟨n, hn, hrotate⟩ :=
      List.isRotated_iff_mod.mp (hwhole.isRotated hcorners.liesAt_seed h)
    rw [patternAt] at hn hrotate
    -- The left corner of the seed is not another corner of the pattern.
    have hstart : n = 0 ∨ n = 3 := by
      simp only [List.length_cons, List.length_nil] at hn
      interval_cases n
      · exact Or.inl rfl
      · have hfirst := congrArg Prod.fst (List.cons.inj hrotate).1
        dsimp only at hfirst
        omega
      · have hfirst := congrArg Prod.fst (List.cons.inj hrotate).1
        dsimp only at hfirst
        omega
      · exact Or.inr rfl
    have hsame : [(i, j), (i + 2 ^ 28, j - 2 * halfRise), (i + 2 ^ 29, j)] =
        [(i, j), (b, k), (c, j)] := by
      rcases hstart with rfl | rfl
      · exact hrotate
      · exact (List.rotate_length _).symm.trans hrotate
    simp only [List.cons.injEq, Prod.mk.injEq] at hsame
    obtain ⟨-, ⟨hb, hk⟩, ⟨hc, -⟩, -⟩ := hsame
    exact ⟨hb.symm, hc.symm, hk.symm⟩
  · rintro ⟨rfl, rfl, rfl⟩
    exact hwhole.key_eq hcorners.liesAt_seed

/-- No part is the seed. -/
lemma Corners.key_ne {r : Shape × List (ℤ × ℤ)} (hr : r ∈ parts) (h : OnPattern (seed W H)) :
    (r.1.under (placing W H)).key ≠ (seed W H).key := by
  intro hkey
  obtain ⟨rfl, rfl, rfl⟩ := hcorners.onPattern_iff.mp h
  obtain ⟨k, hk, hmiddle⟩ := exists_mem_parts_middle r hr
  have hplaces := hcorners.liesAt_under hW hH (atSteps_parts r hr)
  have hmem := (hplaces.isRotated hcorners.liesAt_seed hkey).mem_iff.mp (List.mem_map_of_mem hk)
  simp only [List.mem_cons, List.not_mem_nil, or_false, Prod.mk.injEq, hmiddle, halfRise] at hmem
  omega

/-- Where the seed is the only polygon, a rule applies exactly if the seed has the corners of the
pattern and the part is admitted. -/
lemma Corners.applies_iff {store : Store} {admits : Shape → Bool} {p : Production}
    {r : Shape × List (ℤ × ℤ)} (hkeys : store.keys = [(seed W H).key])
    (hpattern : p.pattern = [whole]) (hresult : p.result = [r.1]) (hr : r ∈ parts) :
    Search.Applies store admits p (seed W H) ↔
      OnPattern (seed W H) ∧ admits (r.1.under (placing W H)) = true := by
  have hkey := hcorners.keyUnder_eq_iff hW hH
  constructor
  · rintro ⟨m, hm, -, happlies⟩
    rw [hpattern] at hm
    obtain rfl := Option.some.inj hm
    have hpresent := happlies.present whole (hpattern ▸ List.mem_singleton_self whole)
    rw [hkeys, List.mem_singleton] at hpresent
    have hseed := hkey.mp hpresent
    refine ⟨hseed, happlies.admitted r.1 (hresult ▸ List.mem_singleton_self r.1) ?_⟩
    rw [hpattern, List.map_singleton, List.mem_singleton]
    exact fun hsame => hcorners.key_ne hW hH hr hseed (hsame.trans hpresent)
  · rintro ⟨hseed, hadmits⟩
    refine ⟨whole, hpattern ▸ rfl, measurable_whole.fits (measurable_seed hW hH), ?_, ?_, ?_⟩
    · rw [hpattern, hkeys]
      exact List.forall_mem_singleton.mpr (List.mem_singleton.mpr (hkey.mpr hseed))
    · rw [hresult]
      exact List.forall_mem_singleton.mpr fun _ => hadmits
    · rw [hresult, hkeys]
      exact ⟨r.1, List.mem_singleton_self r.1,
        fun hmem => hcorners.key_ne hW hH hr hseed (List.mem_singleton.mp hmem)⟩

/-- A region admits all parts exactly if it holds the corners of the seed on the grid. -/
lemma Corners.admits_parts_iff {region : Region} {left low right high : ℚ}
    (hedges : region.HasEdges left low right high) (h : OnPattern (seed W H)) :
    (∀ r ∈ parts, region.admits (r.1.under (placing W H)) = true) ↔
      ∀ v ∈ (seed W H).vertices, region.holds v.snapped = true := by
  obtain ⟨rfl, rfl, rfl⟩ := hcorners.onPattern_iff.mp h
  have hvalues := fun r hr => hcorners.hasValues_under hW hH (atSteps_parts r hr)
  constructor
  · intro hadmits v hv
    obtain ⟨w, hw, hplace⟩ := exists_of_forall₂ hcorners.liesAt_seed hv
    change w ∈ patternAt i j at hw
    rw [patternAt_eq_map] at hw
    obtain ⟨k, hk, rfl⟩ := List.mem_map.mp hw
    obtain ⟨r, hr, hkr⟩ := exists_mem_parts k hk
    obtain ⟨p, hp, hvalue⟩ := exists_of_forall₂ (hvalues r hr).flip
      (List.mem_map_of_mem (List.mem_map_of_mem hkr))
    rw [Region.holds_eq hplace hvalue]
    exact List.all_eq_true.mp (hadmits r hr) p hp
  · intro hholds r hr
    obtain ⟨hleft, hrest⟩ := List.forall_mem_cons.mp hholds
    obtain ⟨htop, hrest⟩ := List.forall_mem_cons.mp hrest
    have hright := List.forall_mem_singleton.mp hrest
    cases hcorners.liesAt_seed with | cons hplace hplaces
    cases hplaces with | cons hplace' hplaces
    cases hplaces with | cons hplace'' _
    obtain ⟨⟨hnear, -⟩, -, hbase⟩ := (hedges.holds_iff hplace).mp hleft
    obtain ⟨⟨-, hpeak⟩, -⟩ := (hedges.holds_iff hplace').mp htop
    obtain ⟨-, hfar, -⟩ := (hedges.holds_iff hplace'').mp hright
    refine hedges.admits_of_mem_box (hvalues r hr) ⟨hnear, hpeak⟩ ⟨hfar, hbase⟩ ?_
    rintro v hv
    obtain ⟨w, hw, rfl⟩ := List.mem_map.mp hv
    obtain ⟨k, hk, rfl⟩ := List.mem_map.mp hw
    obtain ⟨⟨hx, hy⟩, hx', hy'⟩ := parts_mem_box r hr k hk
    refine ⟨⟨steps_mono ?_, steps_mono ?_⟩, steps_mono ?_, steps_mono ?_⟩ <;> dsimp only <;> omega

end Canvas

/-! ### The middle of the canvas -/

/-- How far the middle of a side is from the middle between two grid points, in grid steps. -/
def clearance (side : Float) : ℚ := |Int.fract (value side / 2 * 2 ^ 20) - 1 / 2|

lemma cast_clearance (side : Float) :
    (clearance side : ℝ) = |Int.fract (real side / 2 * 2 ^ 20) - 1 / 2| := by
  rw [clearance, real]
  push_cast
  rfl

/-- The middle of a side with a whole number of pixels lies on the grid. -/
lemma clearance_of_pixels {side : Float} {n : ℤ} (h : HasValue side n) :
    clearance side = 1 / 2 := by
  have hmiddle : value side / 2 * 2 ^ 20 = ((n * 2 ^ 19 : ℤ) : ℚ) := by
    rw [h.value_eq]
    push_cast
    ring
  rw [clearance, hmiddle, Int.fract_intCast]
  norm_num [abs_of_neg]

/-- What is nearest to a number near `y` is nearest to `y`, if there is enough room. -/
lemma eq_round_of_near {n : ℤ} {y a : ℝ} (hn : |n - (y + a)| ≤ 1 / 2 + 2 ^ (-15 : ℤ))
    (hroom : |a| + 2 ^ (-15 : ℤ) < |Int.fract y - 1 / 2|) : n = round y := by
  have hnear := abs_le.mp hn
  have hfloor := Int.floor_add_fract y
  have hnonneg := Int.fract_nonneg y
  have hlt := Int.fract_lt_one y
  have hle := le_abs_self a
  have hge := neg_abs_le a
  rw [round_eq, eq_comm, Int.floor_eq_iff]
  rcases le_or_gt (1 / 2) (Int.fract y) with hhigh | hlow
  · rw [abs_of_nonneg (sub_nonneg.mpr hhigh)] at hroom
    have hupper : n ≤ ⌊y⌋ + 1 := by
      have hlt' : (n : ℝ) < ⌊y⌋ + 1 + 1 := by linarith
      exact Int.lt_add_one_iff.mp (by exact_mod_cast hlt')
    have hlower : ⌊y⌋ + 1 ≤ n := by
      have hlt' : (⌊y⌋ : ℝ) < n := by linarith
      exact Int.add_one_le_of_lt (by exact_mod_cast hlt')
    obtain rfl := le_antisymm hupper hlower
    push_cast
    constructor <;> linarith
  · rw [abs_of_neg (sub_neg.mpr hlow)] at hroom
    have hupper : n ≤ ⌊y⌋ := by
      have hlt' : (n : ℝ) < ⌊y⌋ + 1 := by linarith
      exact Int.lt_add_one_iff.mp (by exact_mod_cast hlt')
    have hlower : ⌊y⌋ ≤ n := by
      have hlt' : (⌊y⌋ : ℝ) < n + 1 := by linarith
      exact Int.lt_add_one_iff.mp (by exact_mod_cast hlt')
    obtain rfl := le_antisymm hupper hlower
    constructor <;> linarith

/-- Above and below the middle between two grid points, different grid points are nearest. -/
lemma lt_of_near {n m : ℤ} {y a : ℝ} (hn : |n - (y - a)| ≤ 1 / 2 + 2 ^ (-15 : ℤ))
    (hm : |m - (y + a)| ≤ 1 / 2 + 2 ^ (-15 : ℤ))
    (hroom : |Int.fract y - 1 / 2| + 2 ^ (-15 : ℤ) < a) : n < m := by
  have hnear := abs_le.mp hn
  have hnear' := abs_le.mp hm
  have hfloor := Int.floor_add_fract y
  have hle := le_abs_self (Int.fract y - 1 / 2)
  have hge := neg_abs_le (Int.fract y - 1 / 2)
  have hupper : n < ⌊y⌋ + 1 := by
    have hlt : (n : ℝ) < ⌊y⌋ + 1 := by linarith
    exact_mod_cast hlt
  have hlower : ⌊y⌋ < m := by
    have hlt : (⌊y⌋ : ℝ) < m := by linarith
    exact_mod_cast hlt
  omega

section Canvas

variable {W H : Float} {i b c j k : ℤ} (hcorners : Corners W H i b c j k)

include hcorners

/-- The corners, counted from the middle of the canvas. -/
lemma Corners.near_middle :
    |((i + 2 ^ 28 : ℤ) : ℝ) - (real W / 2 * 2 ^ 20 + 0)| ≤ 1 / 2 + 2 ^ (-15 : ℤ) ∧
    |(b : ℝ) - (real W / 2 * 2 ^ 20 + 0)| ≤ 1 / 2 + 2 ^ (-15 : ℤ) ∧
    |((c - 2 ^ 28 : ℤ) : ℝ) - (real W / 2 * 2 ^ 20 + 0)| ≤ 1 / 2 + 2 ^ (-15 : ℤ) ∧
    |((j - halfRise : ℤ) : ℝ) - (real H / 2 * 2 ^ 20 + excess)| ≤
      1 / 2 + 2 ^ (-15 : ℤ) ∧
    |((k + halfRise : ℤ) : ℝ) - (real H / 2 * 2 ^ 20 - excess)| ≤
      1 / 2 + 2 ^ (-15 : ℤ) := by
  obtain ⟨-, hside, -, hrise⟩ := halfSide_values
  have hleft := hcorners.left_near
  have hmiddle := hcorners.middle_near
  have hright := hcorners.right_near
  have hbase := hcorners.base_near
  have htop := hcorners.top_near
  rw [hside] at hleft hright
  rw [add_mul, hrise] at hbase
  rw [sub_mul, hrise] at htop
  refine ⟨?_, ?_, ?_, ?_, ?_⟩
  · convert hleft using 2
    push_cast
    ring
  · convert hmiddle using 2
    ring
  · convert hright using 2
    push_cast
    ring
  · convert hbase using 2
    push_cast
    ring
  · convert htop using 2
    push_cast
    ring

/-- With enough room in both directions, the seed has the corners of the pattern. -/
lemma Corners.onPattern_of_clearance (hwide : 1 / 1024 ≤ clearance W)
    (hhigh : 0.1724 ≤ clearance H) : OnPattern (seed W H) := by
  obtain ⟨hleft, hmiddle, hright, hbase, htop⟩ := hcorners.near_middle
  rw [← Rat.cast_le (K := ℝ), cast_clearance] at hwide hhigh
  push_cast at hwide hhigh
  have hroom := lt_of_lt_of_le (by norm_num : |(0 : ℝ)| + 2 ^ (-15 : ℤ) < 1 / 1024) hwide
  have hexcess := excess_bounds.2
  rw [← abs_of_nonneg (by decide +kernel : 0 ≤ excess), ← Rat.cast_lt (K := ℝ)] at hexcess
  push_cast at hexcess
  have hroom' := hexcess.trans_le hhigh
  have hroom'' := hroom'
  rw [← abs_neg] at hroom''
  have hi := eq_round_of_near hleft hroom
  have hb := eq_round_of_near hmiddle hroom
  have hc := eq_round_of_near hright hroom
  have hj := eq_round_of_near hbase hroom'
  have hk := eq_round_of_near (sub_eq_add_neg (_ : ℝ) _ ▸ htop) hroom''
  rw [hcorners.onPattern_iff]
  omega

/-- With too little room, the base of the seed is one grid step too far away from its top. -/
lemma Corners.not_onPattern_of_clearance (hhigh : clearance H ≤ 0.1723) :
    ¬ OnPattern (seed W H) := by
  obtain ⟨-, -, -, hbase, htop⟩ := hcorners.near_middle
  rw [← Rat.cast_le (K := ℝ), cast_clearance] at hhigh
  push_cast at hhigh
  have hexcess := excess_bounds.1
  rw [← Rat.cast_lt (K := ℝ)] at hexcess
  push_cast at hexcess
  have hroom := (add_le_add_left hhigh _).trans_lt hexcess
  have hlt := lt_of_near htop hbase hroom
  rw [hcorners.onPattern_iff]
  omega

/-- On a canvas that is as wide as the seed, the corners lie between the sides. -/
lemma Corners.between_sides (hwide : 512 ≤ value W) :
    -0.51 ≤ (i : ℝ) ∧ (c : ℝ) ≤ real W * 2 ^ 20 + 0.51 := by
  obtain ⟨hleft, -, hright, -⟩ := hcorners.near_middle
  have hwide' : (512 : ℝ) ≤ real W := by
    unfold real
    exact_mod_cast hwide
  have hleft' := abs_le.mp hleft
  have hright' := abs_le.mp hright
  push_cast at hleft' hright'
  norm_num at hleft' hright' ⊢
  constructor <;> linarith

/-- If the top of the seed is hardly above the canvas, then so it is on the grid, and the base is
hardly below the canvas. -/
lemma Corners.between_top_and_bottom
    (htop : -1.0487 ≤ (real H / 2 - real (512 * triangleHeight / 2)) * 2 ^ 20)
    (hk : k = j - 2 * halfRise) : -1 ≤ k ∧ (j : ℝ) ≤ real H * 2 ^ 20 + 1.01 := by
  obtain ⟨-, -, -, hrise⟩ := halfSide_values
  obtain ⟨-, -, -, hbase, hpeak⟩ := hcorners.near_middle
  have hbase' := abs_le.mp hbase
  have hpeak' := abs_le.mp hpeak
  have hpattern : (k : ℝ) = j - 2 * halfRise := by exact_mod_cast hk
  have hexcess := excess_bounds
  rw [← Rat.cast_lt (K := ℝ), ← Rat.cast_lt (K := ℝ)] at hexcess
  rw [sub_mul, hrise] at htop
  push_cast at hexcess hbase' hpeak'
  norm_num at htop hexcess hbase' hpeak' ⊢
  have hlow : -2 < k := by
    have hlow' : (-2 : ℝ) < k := by linarith
    exact_mod_cast hlow'
  refine ⟨by omega, ?_⟩
  rcases (by omega : k = -1 ∨ 0 ≤ k) with hedge | hinside
  · have hedge' : (k : ℝ) = -1 := by exact_mod_cast hedge
    linarith
  · have hinside' : (0 : ℝ) ≤ k := by exact_mod_cast hinside
    linarith

end Canvas

/-! ### Growing -/

section Growing

variable {s : Settings} (hW : IsSide s.canvasWidth) (hH : IsSide s.canvasHeight)
  (hslack : s.slack = Region.defaultSlack)

include hW hH hslack

/-- Where the seed is the only polygon, every rule has a proposal exactly if the seed has the
corners of the pattern and the region holds them on the grid.  Without these corners, no rule has
one. -/
lemma proposals_of_seed {store : Store} {n : ℕ} (hs : store.Consistent)
    (hlist : store.toList = [.ofShape n (seed s.canvasWidth s.canvasHeight)]) :
    ((∀ p ∈ cornerRules, ∃ c ∈ Search.allProposals store s.region.admits cornerRules,
        c.production = p) ↔
      OnPattern (seed s.canvasWidth s.canvasHeight) ∧
        ∀ v ∈ (seed s.canvasWidth s.canvasHeight).vertices, s.region.holds v.snapped = true) ∧
    (¬ OnPattern (seed s.canvasWidth s.canvasHeight) →
      Search.allProposals store s.region.admits cornerRules = []) := by
  obtain ⟨i, b, c, j, k, hcorners⟩ := exists_corners hW hH
  have hkeys : store.keys = [(seed s.canvasWidth s.canvasHeight).key] := by
    rw [Store.keys, hlist]
    rfl
  have happlies : ∀ {p : Production} {r : Shape × List (ℤ × ℤ)}, p ∈ cornerRules →
      p.pattern = [whole] → p.result = [r.1] → r ∈ parts →
        ((∃ c ∈ Search.allProposals store s.region.admits cornerRules, c.production = p) ↔
          OnPattern (seed s.canvasWidth s.canvasHeight) ∧
            s.region.admits (r.1.under (placing s.canvasWidth s.canvasHeight)) = true) := by
    intro p r hp hpattern hresult hr
    rw [Search.exists_mem_allProposals_iff hs, hlist, and_iff_right hp]
    simp only [List.mem_singleton, exists_eq_left]
    exact hcorners.applies_iff hW hH hkeys hpattern hresult hr
  constructor
  · constructor
    · intro hall
      have hparts : ∀ r ∈ parts, OnPattern (seed s.canvasWidth s.canvasHeight) ∧
          s.region.admits (r.1.under (placing s.canvasWidth s.canvasHeight)) = true := by
        intro r hr
        obtain ⟨p, hp, hpattern, hresult⟩ := exists_rule hr
        exact (happlies hp hpattern hresult hr).mp (hall p hp)
      have hseed := (hparts _ List.mem_cons_self).1
      exact ⟨hseed, (hcorners.admits_parts_iff hW hH (Settings.hasEdges_region hW hH hslack)
        hseed).mp fun r hr => (hparts r hr).2⟩
    · rintro ⟨hseed, hholds⟩ p hp
      obtain ⟨hpattern, r, hr, hresult⟩ := rules_eq hp
      exact (happlies hp hpattern hresult hr).mpr ⟨hseed, (hcorners.admits_parts_iff hW hH
        (Settings.hasEdges_region hW hH hslack) hseed).mpr hholds r hr⟩
  · intro hseed
    rw [List.eq_nil_iff_forall_not_mem]
    intro c hc
    obtain ⟨hp, -⟩ := (Search.exists_mem_allProposals_iff hs).mp ⟨c, hc, rfl⟩
    obtain ⟨hpattern, r, hr, hresult⟩ := rules_eq hp
    exact hseed ((happlies hp hpattern hresult hr).mp ⟨c, hc, rfl⟩).1

/-- A planted seed is hardly above the canvas. -/
lemma top_of_planted (hadmits : s.region.admits (seed s.canvasWidth s.canvasHeight) = true) :
    -1.0487 ≤ (real s.canvasHeight / 2 - real (512 * triangleHeight / 2)) * 2 ^ 20 := by
  obtain ⟨-, -, hrise, -⟩ := halfSide_values
  obtain ⟨-, hrise'⟩ := halfSide_bounds
  have htop := (seed s.canvasWidth s.canvasHeight).second_mem
  have hvalue := Point.hasValue_value (isFinite_seed hW hH _ htop)
  have hholds := List.all_eq_true.mp hadmits _ htop
  obtain ⟨⟨-, hedge⟩, -⟩ := ((Settings.hasEdges_region hW hH hslack).holds_iff hvalue).mp hholds
  have hedge' : real (0 - Region.defaultSlack) ≤
      real (s.canvasHeight / 2 - 512 * triangleHeight / 2) := Rat.cast_le.mpr hedge
  have hnear := abs_le.mp near_edge.2
  have hpeak := abs_le.mp (hH.middle_sub_near hrise hrise').2
  norm_num at hnear hpeak ⊢
  linarith

/-- The region of a canvas that is as wide as the seed holds the corners of the pattern on the grid,
if the seed was planted. -/
lemma holds_corners (hadmits : s.region.admits (seed s.canvasWidth s.canvasHeight) = true)
    (hwide : 512 ≤ value s.canvasWidth) (hseed : OnPattern (seed s.canvasWidth s.canvasHeight)) :
    ∀ v ∈ (seed s.canvasWidth s.canvasHeight).vertices, s.region.holds v.snapped = true := by
  obtain ⟨i, b, c, j, k, hcorners⟩ := exists_corners hW hH
  obtain ⟨hb, hc, hk⟩ := hcorners.onPattern_iff.mp hseed
  obtain ⟨hleft, hright⟩ := hcorners.between_sides hwide
  obtain ⟨htop, hbottom⟩ :=
    hcorners.between_top_and_bottom (top_of_planted hW hH hslack hadmits) hk
  have hbox : ∀ w ∈ [(i, j), (b, k), (c, j)], (i ≤ w.1 ∧ k ≤ w.2) ∧ w.1 ≤ c ∧ w.2 ≤ j := by
    simp only [List.forall_mem_cons, List.not_mem_nil, false_implies, implies_true, and_true,
      halfRise] at hk ⊢
    omega
  intro v hv
  obtain ⟨w, hw, hplace⟩ := exists_of_forall₂ hcorners.liesAt_seed hv
  obtain ⟨⟨hx, hy⟩, hx', hy'⟩ := hbox w hw
  have hx₁ : (i : ℝ) ≤ w.1 := Int.cast_le.mpr hx
  have hy₁ : (-1 : ℝ) ≤ w.2 := by exact_mod_cast htop.trans hy
  have hx₂ : (w.1 : ℝ) ≤ c := Int.cast_le.mpr hx'
  have hy₂ : (w.2 : ℝ) ≤ j := Int.cast_le.mpr hy'
  norm_num at hleft hright hbottom
  refine Settings.holds_of_steps hW hH hslack hplace ⟨?_, ?_⟩ ⟨?_, ?_⟩ <;> norm_num <;> linarith

end Growing

/-- Let the settings have a canvas with a size in pixels and the slack that allows for rounding, and
let the triangle scene for this canvas be installed in a growth with the region of the canvas.  If
the seed is planted, an exhaustive search finds proposals for all three productions exactly if the
corners of the seed on the grid are those of the pattern and the region holds them; and if they are
not those of the pattern, it finds nothing.

On a canvas that is at least as wide as the seed, all three are found if the middle of the canvas is
far enough from the middle between two grid points: by `1 / 1024` grid steps across and by `0.1724`
upright.  If it is at most `0.1723` grid steps away upright, nothing is found. -/
theorem triangle_grows_iff {s : Settings} {size : ℕ × ℕ} (hsize : s.canvasSize = .ok size)
    (hslack : s.slack = Region.defaultSlack) :
    let shape := seed s.canvasWidth s.canvasHeight
    let scene := triangleScene s.canvasWidth s.canvasHeight
    load "tri" s.canvasWidth s.canvasHeight = .ok scene ∧ scene.seeds = [shape] ∧
    scene.productions.length = 3 ∧
    ∀ g : Growth, g.region = s.region → (scene.install g).1 = 1 → ∀ gen : Generator,
      let begun := (scene.install g).2
      let found :=
        (Search.run begun.store begun.productions begun.region.admits .exhaustive none gen).1
      ((∀ p ∈ scene.productions, ∃ c ∈ found, c.production = p) ↔
        OnPattern shape ∧ ∀ v ∈ shape.vertices, s.region.holds v.snapped = true) ∧
      (¬ OnPattern shape → found = []) ∧
      (512 ≤ value s.canvasWidth → 1 / 1024 ≤ clearance s.canvasWidth →
        0.1724 ≤ clearance s.canvasHeight →
          ∀ p ∈ scene.productions, ∃ c ∈ found, c.production = p) ∧
      (clearance s.canvasHeight ≤ 0.1723 → found = []) := by
  intro shape scene
  obtain ⟨hW, hH⟩ := Settings.isSide_of_canvasSize hsize
  refine ⟨load_triangle hW hH, rfl, rfl, fun g hregion hplanted gen => ?_⟩
  intro begun found
  obtain ⟨hadmits, hlist⟩ := scene.storeAfter_of_seed g rfl hplanted
  have hfound :
      found = Search.allProposals (scene.storeAfter g) s.region.admits cornerRules := by
    dsimp only [found, begun]
    rw [scene.install_eq, Search.run_exhaustive, Search.cut, hregion]
    rfl
  obtain ⟨hall, hnone⟩ :=
    proposals_of_seed hW hH hslack (scene.consistent_storeAfter g) hlist
  obtain ⟨i, b, c, j, k, hcorners⟩ := exists_corners hW hH
  rw [← hfound] at hall hnone
  rw [hregion] at hadmits
  refine ⟨hall, hnone, fun hwide hclear hclear' => ?_, fun hclear => ?_⟩
  · have hseed := hcorners.onPattern_of_clearance hclear hclear'
    exact hall.mpr ⟨hseed, holds_corners hW hH hslack hadmits hwide hseed⟩
  · exact hnone (hcorners.not_onPattern_of_clearance hclear)

theorem triangle_grows_on_default_canvas :
    let s := Settings.default
    let scene := triangleScene s.canvasWidth s.canvasHeight
    let begun := (scene.install (.new s.region [] 0 none)).2
    s.canvasSize = .ok (1024, 768) ∧ s.slack = Region.defaultSlack ∧
    load "tri" s.canvasWidth s.canvasHeight = .ok scene ∧
    (scene.install (.new s.region [] 0 none)).1 = 1 ∧
    ∀ gen, ∀ p ∈ scene.productions,
      ∃ c ∈ (Search.run begun.store begun.productions begun.region.admits .exhaustive none gen).1,
        c.production = p := by
  intro s scene begun
  have hsize : s.canvasSize = .ok (1024, 768) := by decide +kernel
  have hplanted : (scene.install (.new s.region [] 0 none)).1 = 1 := by decide +kernel
  have hwidth : HasValue s.canvasWidth (1024 : ℤ) := ⟨by decide +kernel, by decide +kernel⟩
  have hheight : HasValue s.canvasHeight (768 : ℤ) := ⟨by decide +kernel, by decide +kernel⟩
  obtain ⟨hload, -, -, hsearch⟩ := triangle_grows_iff hsize rfl
  refine ⟨hsize, rfl, hload, hplanted, fun gen => ?_⟩
  obtain ⟨-, -, hgrows, -⟩ := hsearch _ rfl hplanted gen
  refine hgrows ?_ ?_ ?_
  · rw [hwidth.value_eq]
    norm_num
  · rw [clearance_of_pixels hwidth]
    norm_num
  · rw [clearance_of_pixels hheight]
    norm_num

/-- Settings with a canvas that is a fifth of a pixel higher than by default. -/
def oddCanvas : Settings := { Settings.default with canvasHeight := 768.2 }

/-- On this canvas the seed is planted, and nothing can be applied to it. -/
theorem triangle_does_not_grow_on_oddCanvas :
    let scene := triangleScene oddCanvas.canvasWidth oddCanvas.canvasHeight
    let begun := (scene.install (.new oddCanvas.region [] 0 none)).2
    oddCanvas.canvasSize = .ok (1024, 769) ∧ oddCanvas.slack = Region.defaultSlack ∧
    load "tri" oddCanvas.canvasWidth oddCanvas.canvasHeight = .ok scene ∧
    (scene.install (.new oddCanvas.region [] 0 none)).1 = 1 ∧ begun.phase = .idle ∧
    ∀ gen, (Search.run begun.store begun.productions begun.region.admits .exhaustive none
      gen).1 = [] := by
  intro scene begun
  have hsize : oddCanvas.canvasSize = .ok (1024, 769) := by decide +kernel
  obtain ⟨hW, hH⟩ := Settings.isSide_of_canvasSize hsize
  have hnone : (Search.allProposals begun.store begun.region.admits begun.productions).isEmpty := by
    decide +kernel
  refine ⟨hsize, rfl, load_triangle hW hH, by decide +kernel, rfl, fun gen => ?_⟩
  rw [Search.run_exhaustive, Search.cut]
  exact List.isEmpty_iff.mp hnone

end Scene

end ShapeGrammar
