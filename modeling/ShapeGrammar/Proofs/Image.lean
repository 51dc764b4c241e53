import ShapeGrammar.Image
import ShapeGrammar.Proofs.Plane.EvenOdd
import ShapeGrammar.Proofs.Region

/-!
# What an image shows

The colour of a pixel is made by the layers that cover its centre, one after the other from the
bottom to the top (`Image.painted`).  A layer that is elsewhere makes no difference, and neither does
one without opacity, while a layer of full opacity hides whatever is below it.  So a polygon with an
opaque fill gives its colour to all pixels that it covers, unless a polygon after it in painter's
order covers them as well (`Image.pixel?_of_solid`), and every other colour than the background
comes from a polygon (`Image.exists_layer_of_pixel?`).

The pixels of an image are counted row by row (`Image.pixel?_eq`, `Image.pixel?_add_width`), and the
first bytes of its file say how many there are (`Image.size_of_pngHead`).
-/

namespace ShapeGrammar

open Float.Model (UnpackedFloat)
open Number (HasValue value)

/-! ### Paint -/

namespace Pixel

lemma channelByte_one : channelByte 1 = 255 := by decide +kernel

/-- Nothing of what is below shows through paint of full opacity. -/
lemma blendChannel_one (below : UInt8) (c : Float32) :
    blendChannel below c 1 = channelByte (c * 1) := by
  have hnothing : (below.toNat * (255 - (channelByte 1).toNat) + 255) / 256 = 0 := by
    rw [channelByte_one]
    change (below.toNat * (255 - 255) + 255) / 256 = 0
    rw [Nat.sub_self, Nat.mul_zero]
  rw [blendChannel, hnothing]
  exact UInt8.add_zero _

/-- Nothing of a channel from zero to one is left without opacity. -/
lemma channelByte_mul_zero {c : Float32} (hlow : 0 ≤ c) (hhigh : c ≤ 1) :
    channelByte (c * 0) = 0 := by
  have hnothing : ∀ s, channelByte ⟨.pack (.zero s)⟩ = 0
    | .positive => by decide +kernel
    | .negative => by decide +kernel
  have hzero : (0 : Float32).toModel.unpack = .zero .positive := rfl
  obtain ⟨m, e, hm, hone⟩ : ∃ m e hm, (1 : Float32).toModel.unpack = .finite .positive m e hm :=
    ⟨_, _, _, rfl⟩
  have hge : (0 : Float32).toModel.unpack.le c.toModel.unpack = true := of_decide_eq_true hlow
  have hle : c.toModel.unpack.le (1 : Float32).toModel.unpack = true := of_decide_eq_true hhigh
  rw [hzero] at hge
  rw [hone] at hle
  have hmul : c * 0 = ⟨.pack (.mul .binary32 c.toModel.unpack (.zero .positive))⟩ := by
    rw [← hzero]
    rfl
  rw [hmul]
  -- A product with zero is a zero, unless the other factor is infinite or not a number.
  cases hc : c.toModel.unpack with
  | zero s => exact hnothing _
  | finite s m e hm => exact hnothing _
  | infinity s =>
    rw [hc] at hge hle
    cases s with
    | positive => cases hle
    | negative => cases hge
  | notANumber =>
    rw [hc] at hle
    cases hle

/-- Paint without opacity leaves all of what is below. -/
lemma blendChannel_zero {c : Float32} (hlow : 0 ≤ c) (hhigh : c ≤ 1) (below : UInt8) :
    blendChannel below c 0 = below := by
  have hzero : channelByte 0 = 0 := by decide +kernel
  have hall : (below.toNat * (255 - (channelByte 0).toNat) + 255) / 256 = below.toNat := by
    have hbyte : below.toNat < 256 := below.toNat_lt
    rw [hzero]
    change (below.toNat * 255 + 255) / 256 = below.toNat
    omega
  rw [blendChannel, hall, channelByte_mul_zero hlow hhigh, UInt8.zero_add]
  exact UInt8.ofNat_toNat

/-- Paint of full opacity hides what is below. -/
lemma under_of_solid {paint : Color} (h : paint.alpha = 1) (p q : Pixel) :
    p.under paint = q.under paint := by
  simp only [under, h, blendChannel_one]

/-- Drawable paint without opacity changes nothing. -/
lemma under_of_transparent {paint : Color} (hdrawable : paint.drawable = true)
    (h : paint.alpha = 0) (p : Pixel) : p.under paint = p := by
  simp only [Color.drawable, Color.channels, List.all_cons, List.all_nil, Bool.and_true,
    Bool.and_eq_true, decide_eq_true_iff] at hdrawable
  obtain ⟨hred, hgreen, hblue, -⟩ := hdrawable
  rw [under, h, blendChannel_zero hred.1 hred.2, blendChannel_zero hgreen.1 hgreen.2,
    blendChannel_zero hblue.1 hblue.2]

end Pixel

namespace Image

variable {i : Image} {width height x y : ℕ} {l : Layer} {below above : List Layer}

/-! ### Layers -/

lemma layer?_eq_some_iff {s : Shape} :
    layer? s = some l ↔ ∃ paint, s.style.fill = some paint ∧ paint.drawable = true ∧
      (∀ p ∈ s.vertices, (coarse p).isFinite = true) ∧ l = ⟨s.vertices.map coarse, paint⟩ := by
  unfold layer?
  cases s.style.fill with
  | none => simp
  | some paint =>
    simp only [Option.ite_none_right_eq_some, Bool.and_eq_true, List.all_map, List.all_eq_true,
      Function.comp_apply, Option.some.injEq]
    constructor
    · rintro ⟨⟨hpaint, hfinite⟩, rfl⟩
      exact ⟨paint, rfl, hpaint, hfinite, rfl⟩
    · rintro ⟨_, rfl, hpaint, hfinite, rfl⟩
      exact ⟨⟨hpaint, hfinite⟩, rfl⟩

/-- The centre of a pixel is at an exact double. -/
lemma hasValue_centre {n : ℕ} (hn : n < 2 ^ 52) :
    HasValue (Number.nearest .positive (2 * n + 1) (-1)) (n + 1 / 2) := by
  have hvalue := Number.hasValue_nearest_of_pos (s := .positive) (n := 2 * n + 1) (e := -1)
    (Nat.succ_pos _) (by omega) (by decide) (by decide)
  have heq : Number.withSign .positive (Number.scaled (2 * n + 1) (-1)) = n + 1 / 2 := by
    rw [Number.withSign, Number.scaled, zpow_neg_one]
    push_cast
    ring
  rwa [heq] at hvalue

/-- A layer covers pixels only in the rows between its lowest and its highest vertex. -/
lemma exists_vertices_of_covers (hfinite : ∀ p ∈ l.vertices, p.isFinite = true) (hy : y < 2 ^ 52)
    (h : l.covers x y = true) :
    (∃ p ∈ l.vertices, value p.y ≤ y + 1 / 2) ∧ ∃ p ∈ l.vertices, y + 1 / 2 < value p.y := by
  have hcentre := hasValue_centre hy
  have hvalue : ∀ p ∈ l.vertices, HasValue p.y (value p.y) := fun p hp =>
    Number.hasValue_value (Bool.and_eq_true_iff.mp (hfinite p hp)).2
  constructor
  · by_contra! hlow
    have hbelow : ∀ p ∈ l.vertices, Number.nearest .positive (2 * y + 1) (-1) < p.y :=
      fun p hp => (hcentre.lt_iff (hvalue p hp)).mpr (hlow p hp)
    rw [Layer.covers, Outline.contains_eq_false_of_forall_lt hbelow] at h
    cases h
  · by_contra! hhigh
    have habove : ∀ p ∈ l.vertices, p.y ≤ Number.nearest .positive (2 * y + 1) (-1) :=
      fun p hp => ((hvalue p hp).le_iff hcentre).mpr (hhigh p hp)
    rw [Layer.covers, Outline.contains_eq_false_of_forall_le habove] at h
    cases h

/-! ### Pixels -/

/-- A pixel after the layers that cover it, from the bottom to the top. -/
def painted (p : Pixel) (ls : List Layer) (x y : ℕ) : Pixel :=
  (ls.filter fun l => l.covers x y).foldl (fun below l => below.under l.paint) p

lemma pixelAt_eq_painted (i : Image) (x y : ℕ) :
    i.pixelAt x y = painted .background i.layers x y := rfl

lemma painted_append (p : Pixel) (ls ls' : List Layer) (x y : ℕ) :
    painted p (ls ++ ls') x y = painted (painted p ls x y) ls' x y := by
  rw [painted, List.filter_append, List.foldl_append]
  rfl

lemma painted_cons_of_covers (h : l.covers x y = true) (p : Pixel) (ls : List Layer) :
    painted p (l :: ls) x y = painted (p.under l.paint) ls x y := by
  simp only [painted, List.filter_cons, h, if_true, List.foldl_cons]

lemma painted_cons_of_not_covers (h : l.covers x y = false) (p : Pixel) (ls : List Layer) :
    painted p (l :: ls) x y = painted p ls x y := by
  simp only [painted, List.filter_cons, h, Bool.false_eq_true, if_false]

/-- Layers that are elsewhere or have no opacity leave a pixel as it is. -/
lemma painted_of_forall {ls : List Layer}
    (h : ∀ l ∈ ls, l.covers x y = true → l.paint.drawable = true ∧ l.paint.alpha = 0) (p : Pixel) :
    painted p ls x y = p := by
  induction ls with
  | nil => rfl
  | cons l ls ih =>
    have hrest := ih fun l' hl' => h l' (List.mem_cons_of_mem l hl')
    cases hcovers : l.covers x y with
    | false => rw [painted_cons_of_not_covers hcovers, hrest]
    | true =>
      obtain ⟨hdrawable, htransparent⟩ := h l List.mem_cons_self hcovers
      rw [painted_cons_of_covers hcovers, Pixel.under_of_transparent hdrawable htransparent, hrest]

/-- An opaque layer hides all layers below it. -/
lemma pixelAt_of_solid (hlayers : i.layers = below ++ l :: above) (hsolid : l.paint.alpha = 1)
    (hcovers : l.covers x y = true) (habove : ∀ l' ∈ above, l'.covers x y = false) :
    i.pixelAt x y = Pixel.background.under l.paint := by
  have hnone : ∀ l' ∈ above, l'.covers x y = true →
      l'.paint.drawable = true ∧ l'.paint.alpha = 0 := by
    intro l' hl' hcovers'
    rw [habove l' hl'] at hcovers'
    cases hcovers'
  rw [pixelAt_eq_painted, hlayers, painted_append, painted_cons_of_covers hcovers,
    painted_of_forall hnone]
  exact Pixel.under_of_solid hsolid _ _

/-! ### Whole images -/

/-- There is an image of any polygons if there are pixels, and not too many in a row; it has the
fills of the polygons in their order. -/
lemma ofPolygons_eq_ok_iff {polygons : List Polygon} :
    ofPolygons polygons width height = .ok i ↔
      0 < width ∧ 0 < height ∧ width ≤ maxRowPixels ∧
        i = ⟨width, height, polygons.filterMap fun p => layer? p.shape⟩ := by
  unfold ofPolygons
  split
  · next h =>
    simp only [Bool.or_eq_true, decide_eq_true_iff] at h
    simp only [reduceCtorEq, false_iff]
    omega
  · next h =>
    simp only [Bool.or_eq_true, decide_eq_true_iff, not_or] at h
    rw [Except.ok.injEq]
    constructor
    · rintro rfl
      exact ⟨by omega, by omega, by omega, rfl⟩
    · rintro ⟨-, -, -, rfl⟩
      rfl

/-- What an image has as layers are fills of its polygons, drawable and with finite vertices. -/
lemma of_mem_layers {polygons : List Polygon} (hi : ofPolygons polygons width height = .ok i)
    (hl : l ∈ i.layers) :
    (∃ p ∈ polygons, layer? p.shape = some l) ∧ l.paint.drawable = true ∧
      ∀ p ∈ l.vertices, p.isFinite = true := by
  obtain ⟨-, -, -, rfl⟩ := ofPolygons_eq_ok_iff.mp hi
  obtain ⟨p, hp, hlayer⟩ := List.mem_filterMap.mp hl
  obtain ⟨paint, -, hdrawable, hfinite, rfl⟩ := layer?_eq_some_iff.mp hlayer
  exact ⟨⟨p, hp, hlayer⟩, hdrawable, List.forall_mem_map.mpr hfinite⟩

/-- Within a row, places are columns. -/
lemma pixel?_eq (hx : x < i.width) (y : ℕ) :
    i.pixel? x y = if y < i.height then some (i.pixelAt x y) else none := by
  have hplace : i.width * y + x < i.width * i.height ↔ y < i.height := by
    constructor
    · intro h
      by_contra hge
      have hle := Nat.mul_le_mul_left i.width (Nat.le_of_not_lt hge)
      omega
    · intro h
      have hle := Nat.mul_le_mul_left i.width (Nat.succ_le_of_lt h)
      rw [Nat.mul_succ] at hle
      omega
  have hcolumn : (i.width * y + x) % i.width = x := by
    rw [Nat.mul_add_mod, Nat.mod_eq_of_lt hx]
  have hrow : (i.width * y + x) / i.width = y := by
    rw [Nat.mul_add_div (Nat.zero_lt_of_lt hx), Nat.div_eq_of_lt hx, Nat.add_zero]
  simp only [pixel?, hplace, hcolumn, hrow]

/-- After the last place of a row comes the first of the next one. -/
lemma pixel?_add_width (i : Image) (x y : ℕ) : i.pixel? (x + i.width) y = i.pixel? x (y + 1) := by
  have hplace : i.width * y + (x + i.width) = i.width * (y + 1) + x := by
    rw [Nat.mul_succ]
    omega
  simp only [pixel?, hplace]

/-- A polygon with an opaque fill gives its colour to every pixel of the image that it covers, unless
the fill of a polygon after it in painter's order covers the pixel as well. -/
theorem pixel?_of_solid {before after : List Polygon} {p : Polygon}
    (hi : ofPolygons (before ++ p :: after) width height = .ok i) (hl : layer? p.shape = some l)
    (hsolid : l.paint.alpha = 1) (hx : x < width) (hy : y < height)
    (hcovers : l.covers x y = true)
    (hafter : ∀ q ∈ after, ∀ l' ∈ layer? q.shape, l'.covers x y = false) :
    i.pixel? x y = some (Pixel.background.under l.paint) := by
  obtain ⟨-, -, -, rfl⟩ := ofPolygons_eq_ok_iff.mp hi
  have hlayers : (before ++ p :: after).filterMap (fun q => layer? q.shape) =
      (before.filterMap fun q => layer? q.shape) ++ l :: after.filterMap fun q => layer? q.shape := by
    simp only [List.filterMap_append, List.filterMap_cons, hl]
  have habove : ∀ l' ∈ after.filterMap fun q => layer? q.shape, l'.covers x y = false := by
    intro l' hl'
    obtain ⟨q, hq, hlayer⟩ := List.mem_filterMap.mp hl'
    exact hafter q hq l' hlayer
  rw [pixel?_eq hx, if_pos hy, pixelAt_of_solid hlayers hsolid hcovers habove]

/-- A pixel of another colour than the background is covered by the fill of a polygon with some
opacity, and lies in a row between the lowest and the highest vertex of that fill. -/
theorem exists_layer_of_pixel? {polygons : List Polygon} {c : Pixel}
    (hi : ofPolygons polygons width height = .ok i) (hx : x < width) (hy : y < 2 ^ 52)
    (hpixel : i.pixel? x y = some c) (hc : c ≠ .background) :
    ∃ p ∈ polygons, ∃ l, layer? p.shape = some l ∧ l.covers x y = true ∧ l.paint.alpha ≠ 0 ∧
      (∃ v ∈ l.vertices, value v.y ≤ y + 1 / 2) ∧ ∃ v ∈ l.vertices, y + 1 / 2 < value v.y := by
  obtain ⟨l, hl, hcovers, hvisible⟩ :
      ∃ l ∈ i.layers, l.covers x y = true ∧ l.paint.alpha ≠ 0 := by
    by_contra! hnone
    have hbackground := painted_of_forall (p := .background) fun l hl hcovers =>
      ⟨(of_mem_layers hi hl).2.1, hnone l hl hcovers⟩
    have hwidth : i.width = width := by
      obtain ⟨-, -, -, rfl⟩ := ofPolygons_eq_ok_iff.mp hi
      rfl
    rw [pixel?_eq (hwidth ▸ hx), pixelAt_eq_painted, hbackground] at hpixel
    obtain ⟨-, heq⟩ := Option.ite_none_right_eq_some.mp hpixel
    exact hc (Option.some.inj heq).symm
  obtain ⟨⟨p, hp, hlayer⟩, -, hfinite⟩ := of_mem_layers hi hl
  exact ⟨p, hp, l, hlayer, hcovers, hvisible, exists_vertices_of_covers hfinite hy hcovers⟩

/-- A square with a fill and no outline. -/
def filledSquare (id : ℕ) (paint : Color) : Polygon :=
  .ofShape id ⟨[⟨8, 8⟩, ⟨8, 40⟩, ⟨40, 40⟩, ⟨40, 8⟩], ⟨none, some paint⟩, by simp⟩

-- Blue paint without opacity leaves the red below it as it is.
example :
    (ofPolygons [filledSquare 1 ⟨1, 0, 0, 1⟩, filledSquare 2 ⟨0, 0, 1, 0⟩] 64 48).toOption.map
      (fun i => (i.pixel? 20 20, i.pixel? 60 44)) = some (some ⟨255, 0, 0⟩, some .background) := by
  decide +kernel

/-! ### Files -/

/-- The number that bytes say, the most significant first. -/
def ofBigEndian (bytes : List UInt8) : ℕ := bytes.foldl (fun n b => 256 * n + b.toNat) 0

lemma ofBigEndian_bigEndian {n : ℕ} (h : n < 2 ^ 32) : ofBigEndian (bigEndian n) = n := by
  simp only [ofBigEndian, bigEndian, List.foldl_cons, List.foldl_nil, Nat.toUInt8,
    UInt8.toNat_ofNat', Nat.shiftRight_eq_div_pow]
  omega

/-- The size of an image is read off the first bytes of its file. -/
lemma size_of_pngHead (hwidth : i.width < 2 ^ 32) (hheight : i.height < 2 ^ 32) :
    i.pngHead.length = 24 ∧ ofBigEndian ((i.pngHead.drop 16).take 4) = i.width ∧
      ofBigEndian ((i.pngHead.drop 20).take 4) = i.height :=
  ⟨rfl, ofBigEndian_bigEndian hwidth, ofBigEndian_bigEndian hheight⟩

end Image

end ShapeGrammar
