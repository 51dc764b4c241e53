import ShapeGrammar.Proofs.Decimal.Plain
import ShapeGrammar.Proofs.Plane.Nearest
import ShapeGrammar.Proofs.Shape.Rotation

/-!
# The text of a key

Comparing keys is comparing their texts: commas and bars stand for nothing else, and different
doubles have different texts (`Key.text_injective`).  And a key, read from any vertex on, is the
cycle it was made of.  So the text of a key determines the closed outline on the grid, with its
number of vertices and its winding direction.
-/

namespace ShapeGrammar

/-- Pieces without the separator can be told from the text that they are joined to. -/
lemma intercalate_inj {α : Type} [BEq α] [LawfulBEq α] {c : α} {xs ys : List (List α)}
    (hxs : ∀ x ∈ xs, c ∉ x) (hys : ∀ y ∈ ys, c ∉ y) (hx : xs ≠ []) (hy : ys ≠ [])
    (h : [c].intercalate xs = [c].intercalate ys) : xs = ys := by
  rw [← List.splitOn_intercalate c hxs hx, h, List.splitOn_intercalate c hys hy]

namespace Key

/-! ### The text of a vertex -/

/-- The text of a vertex: its coordinates with a comma in between. -/
def vertexText (p : Point) : List Char :=
  [','].intercalate [(Number.plain p.x).toList, (Number.plain p.y).toList]

/-- The text of a key is the texts of its vertices with bars in between. -/
lemma toList_text (k : Key) : k.text.toList = ['|'].intercalate (k.vertices.map vertexText) := by
  rw [text, String.toList_intercalate, List.map_map]
  congr 1
  refine List.map_congr_left fun p _ => ?_
  simp [vertexText]

/-- Neither a comma nor a bar occurs in the text of a double. -/
lemma separators_notMem_plain (x : Float) :
    ',' ∉ (Number.plain x).toList ∧ '|' ∉ (Number.plain x).toList := by
  constructor
  all_goals
    intro h
    rcases Number.mem_plain h with hdigit | hmark
    · exact absurd hdigit (by decide)
    · simp [Number.textMarks] at hmark

lemma bar_notMem_vertexText (p : Point) : '|' ∉ vertexText p := by
  simp [vertexText, (separators_notMem_plain p.x).2, (separators_notMem_plain p.y).2]

/-- The text of a vertex has at least its comma. -/
lemma vertexText_ne_nil (p : Point) : vertexText p ≠ [] := by
  simp [vertexText]

/-- Different points have different texts. -/
lemma vertexText_injective : Function.Injective vertexText := by
  intro p q h
  have hpieces : ∀ r : Point, ∀ cs ∈ [(Number.plain r.x).toList, (Number.plain r.y).toList],
      ',' ∉ cs := by
    intro r cs hcs
    rcases List.mem_pair.mp hcs with rfl | rfl
    · exact (separators_notMem_plain r.x).1
    · exact (separators_notMem_plain r.y).1
  have heq := intercalate_inj (hpieces p) (hpieces q) (List.cons_ne_nil _ _) (List.cons_ne_nil _ _) h
  obtain ⟨hx, hrest⟩ := List.cons.inj heq
  obtain ⟨hy, -⟩ := List.cons.inj hrest
  obtain ⟨x, y⟩ := p
  obtain ⟨x', y'⟩ := q
  obtain rfl : x = x' := Number.plain_injective (String.toList_inj.mp hx)
  obtain rfl : y = y' := Number.plain_injective (String.toList_inj.mp hy)
  rfl

/-! ### The text of a key -/

/-- Only the key without vertices has the empty text. -/
lemma intercalate_vertexText_eq_nil_iff (ps : List Point) :
    ['|'].intercalate (ps.map vertexText) = [] ↔ ps = [] := by
  cases ps with
  | nil => simp
  | cons p ps =>
    cases ps with
    | nil => simp [vertexText_ne_nil]
    | cons q ps => simp [vertexText_ne_nil]

/-- Different keys have different texts. -/
lemma text_injective : Function.Injective text := by
  rintro ⟨ps⟩ ⟨qs⟩ h
  have htext := congrArg String.toList h
  rw [toList_text, toList_text] at htext
  congr 1
  by_cases hps : ps = []
  · subst hps
    exact ((intercalate_vertexText_eq_nil_iff qs).mp htext.symm).symm
  · have hqs : qs ≠ [] := by
      rintro rfl
      exact hps ((intercalate_vertexText_eq_nil_iff ps).mp htext)
    refine vertexText_injective.list_map (intercalate_inj ?_ ?_ ?_ ?_ htext)
    · exact List.forall_mem_map.mpr fun p _ => bar_notMem_vertexText p
    · exact List.forall_mem_map.mpr fun p _ => bar_notMem_vertexText p
    · exact mt List.map_eq_nil_iff.mp hps
    · exact mt List.map_eq_nil_iff.mp hqs

end Key

namespace Shape

/-- The shape with the other winding direction. -/
def reverse (s : Shape) : Shape where
  vertices := s.vertices.reverse
  style := s.style
  three_le := by
    rw [List.length_reverse]
    exact s.three_le

/-- Shapes of one key have the same cycle of vertices on the grid. -/
lemma isRotated_of_key_eq {s s' : Shape} (h : s.key = s'.key) :
    s.vertices.map Point.snapped ~r s'.vertices.map Point.snapped := by
  exact Key.isRotated_of_ofSnapped_eq h

/-- A shape that was moved onto the grid stays where it is. -/
lemma map_snapped_placed (s : Shape) (scale dx dy : Float) :
    (s.placed scale dx dy).vertices.map Point.snapped = (s.placed scale dx dy).vertices := by
  simp only [placed, List.map_map]
  exact List.map_congr_left fun p _ => Point.snapped_snapped _

/-- The key of a shape that is scaled and moved is the key of the shape so placed. -/
lemma key_placed (s : Shape) (scale dx dy : Float) :
    (s.placed scale dx dy).key = s.keyAt scale dx dy := by
  rw [key, map_snapped_placed]
  rfl

/-- Shapes that were moved onto the grid are rotations of each other if they have one key. -/
lemma isRotated_of_key_placed_eq {s s' : Shape} {scale dx dy scale' dx' dy' : Float}
    (h : (s.placed scale dx dy).key = (s'.placed scale' dx' dy').key) :
    (s.placed scale dx dy).vertices ~r (s'.placed scale' dx' dy').vertices := by
  have hrot := isRotated_of_key_eq h
  rwa [map_snapped_placed, map_snapped_placed] at hrot

/-- The texts of two keys are equal exactly if the keys are.  Shapes for which they are equal have
as many vertices, and on the grid the vertices of the one are a rotation of those of the other.  In
particular, a shape shares the text of its key with its reversal only if the reversed list of its
vertices on the grid is a rotation of that list. -/
theorem key_text_determines_cycle (s s' : Shape) :
    (s.key.text = s'.key.text ↔ s.key = s'.key) ∧
    (s.key.text = s'.key.text → s.vertices.length = s'.vertices.length ∧
      s.vertices.map Point.snapped ~r s'.vertices.map Point.snapped) ∧
    (s.reverse.key.text = s.key.text →
      (s.vertices.map Point.snapped).reverse ~r s.vertices.map Point.snapped) := by
  have hiff : ∀ t t' : Shape, t.key.text = t'.key.text ↔ t.key = t'.key := fun t t' =>
    Key.text_injective.eq_iff
  refine ⟨hiff s s', fun h => ?_, fun h => ?_⟩
  · have hrot := isRotated_of_key_eq ((hiff s s').mp h)
    have hlen := hrot.perm.length_eq
    rw [List.length_map, List.length_map] at hlen
    exact ⟨hlen, hrot⟩
  · have hrot := isRotated_of_key_eq ((hiff s.reverse s).mp h)
    have hreverse : s.reverse.vertices.map Point.snapped =
        (s.vertices.map Point.snapped).reverse := List.map_reverse
    rwa [hreverse] at hrot

/-- An outline without area, which runs to its other end and back. -/
def thereAndBack : Shape := ⟨[⟨0, 0⟩, ⟨1, 0⟩, ⟨2, 0⟩, ⟨1, 0⟩], .plain, by decide⟩

/-- The unit square. -/
def unitSquare : Shape := ⟨[⟨0, 0⟩, ⟨1, 0⟩, ⟨1, 1⟩, ⟨0, 1⟩], .plain, by decide⟩

/-- The way there and back shares its key with a rotation and with its reversal; a square does not
share its key with its reversal. -/
theorem key_text_of_thereAndBack :
    ((thereAndBack.rotate 2).key.text = thereAndBack.key.text ∧
      (thereAndBack.rotate 2).vertices.map Point.snapped ~r
        thereAndBack.vertices.map Point.snapped) ∧
    (thereAndBack.reverse.key.text = thereAndBack.key.text ∧
      (thereAndBack.vertices.map Point.snapped).reverse ~r
        thereAndBack.vertices.map Point.snapped) ∧
    unitSquare.reverse.key.text ≠ unitSquare.key.text := by
  have hrotate : (thereAndBack.rotate 2).key.text = thereAndBack.key.text :=
    (key_text_determines_cycle _ _).1.mpr (by decide +kernel)
  have hreverse : thereAndBack.reverse.key.text = thereAndBack.key.text :=
    (key_text_determines_cycle _ _).1.mpr (by decide +kernel)
  refine ⟨⟨hrotate, ?_⟩, ⟨hreverse, ?_⟩, fun h => ?_⟩
  · exact ((key_text_determines_cycle _ _).2.1 hrotate).2
  · exact (key_text_determines_cycle thereAndBack thereAndBack).2.2 hreverse
  · have hsquare : ¬ (unitSquare.vertices.map Point.snapped).reverse ~r
        unitSquare.vertices.map Point.snapped := by decide +kernel
    exact hsquare ((key_text_determines_cycle unitSquare unitSquare).2.2 h)

end Shape

end ShapeGrammar
