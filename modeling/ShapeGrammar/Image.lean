import ShapeGrammar.Store

/-!
# Images of a scene

An image shows the fills of polygons in painter's order, one unit of the plane to a pixel.  Vertices
are taken in the 32-bit format, and a pixel belongs to a polygon if its centre does, by the even-odd
rule.  `Image.pixelAt` gives the colour of a pixel away from all outlines; outlines themselves are
no part of this description.
-/

namespace ShapeGrammar

/-- The colour of an opaque pixel. -/
structure Pixel where
  red : UInt8
  green : UInt8
  blue : UInt8
deriving DecidableEq

namespace Pixel

/-- The colour behind everything. -/
def background : Pixel := ⟨231, 215, 193⟩

/-- A channel as a byte: `255` times the channel, rounded to the nearest byte, a half upwards.  The
product and the sum are rounded to the 32-bit format. -/
def channelByte (c : Float32) : UInt8 := (c * 255 + 0.5).toUInt8

/-- One channel of a pixel under paint with channel `c` and opacity `a`: the paint in proportion to
its opacity, and of what is below the rest. -/
def blendChannel (below : UInt8) (c a : Float32) : UInt8 :=
  channelByte (c * a) + ((below.toNat * (255 - (channelByte a).toNat) + 255) / 256).toUInt8

/-- A pixel under a layer of paint. -/
def under (below : Pixel) (paint : Color) : Pixel :=
  ⟨blendChannel below.red paint.red paint.alpha, blendChannel below.green paint.green paint.alpha,
    blendChannel below.blue paint.blue paint.alpha⟩

end Pixel

/-- All channels run from zero to one; paint of any other colour is not drawn. -/
def Color.drawable (c : Color) : Bool := c.channels.all fun v => 0 ≤ v && v ≤ 1

namespace Image

/-- A filled outline. -/
structure Layer where
  vertices : List Point
  paint : Color

/-- A point in the 32-bit format. -/
def coarse (p : Point) : Point :=
  ⟨Number.widen (Number.narrow p.x), Number.widen (Number.narrow p.y)⟩

/-- The fill of a shape; nothing for a shape without a drawable fill, and nothing for one whose
vertices are too large for the 32-bit format. -/
def layer? (s : Shape) : Option Layer :=
  match s.style.fill with
  | none => none
  | some paint =>
    let vertices := s.vertices.map coarse
    if paint.drawable && vertices.all Point.isFinite then some ⟨vertices, paint⟩ else none

/-- The layer covers the centre of the pixel in column `x` and row `y`. -/
def Layer.covers (l : Layer) (x y : Nat) : Bool :=
  Outline.contains l.vertices (Number.nearest .positive (2 * x + 1) (-1))
    (Number.nearest .positive (2 * y + 1) (-1))

end Image

/-- An image: its size, and its layers from the bottom to the top. -/
structure Image where
  width : Nat
  height : Nat
  layers : List Image.Layer

namespace Image

/-- The most pixels in a row: their bytes, four to a pixel, are counted with a signed 32-bit
number. -/
def maxRowPixels : Nat := 0x1fffffff

/-- The image of polygons in painter's order.  It must have pixels, and no more than `maxRowPixels`
in a row. -/
def ofPolygons (polygons : List Polygon) (width height : Nat) : Except Failure Image :=
  if width = 0 || height = 0 || maxRowPixels < width then .error (.imageSize width height)
  else .ok ⟨width, height, polygons.filterMap fun p => layer? p.shape⟩

/-- The colour of the pixel in column `x` and row `y`. -/
def pixelAt (i : Image) (x y : Nat) : Pixel :=
  (i.layers.filter fun l => l.covers x y).foldl (fun below l => below.under l.paint) .background

/-- The colour of the pixel `x` places after the start of row `y`, if there is one.  Rows follow
each other without a gap, so that places past the end of a row are in the rows below it. -/
def pixel? (i : Image) (x y : Nat) : Option Pixel :=
  let place := i.width * y + x
  if place < i.width * i.height then some (i.pixelAt (place % i.width) (place / i.width)) else none

/-- A number below `2 ^ 32` in four bytes, the most significant first. -/
def bigEndian (n : Nat) : List UInt8 :=
  [(n >>> 24).toUInt8, (n >>> 16).toUInt8, (n >>> 8).toUInt8, n.toUInt8]

/-- The first bytes of the image as a PNG file: the signature, and the start of the header chunk
with the size of the image. -/
def pngHead (i : Image) : List UInt8 :=
  [137, 80, 78, 71, 13, 10, 26, 10] ++ bigEndian 13 ++ [73, 72, 68, 82]
    ++ bigEndian i.width ++ bigEndian i.height

end Image

end ShapeGrammar
