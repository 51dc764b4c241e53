import ShapeGrammar.Proofs.Json.Object
import ShapeGrammar.Proofs.Json.Record
import ShapeGrammar.Proofs.Shape.Rotation
import ShapeGrammar.Shape.Text

/-!
# Shapes are read as they are written

A shape is written with its style, and read through an outline that has not been checked yet.
`Json.Tree.outline?` says which outline a JSON text stands for: an object with `points` and `style`
in any order among other members, or the list of the two, of which the style may be missing.

A text is read as a shape exactly if its outline passes the checks of `Shape.ofPoints`, so that no
text gets around them.  The text of a shape says the vertices and the style of that shape, a colour
that is none as `null`, but for numbers that are not read back from their texts; so the shape is
read back exactly if all its numbers are (`Shape.texts_are_read_as_checked_outlines`).
-/

namespace ShapeGrammar

open Json

/-! ### What a text says -/

namespace Json.Tree

/-- A point: both coordinates. -/
def point? (t : Tree) : Option Point :=
  (t.record? ["x", "y"]).bind fun record =>
    (member? record.2 "x" double? none).bind fun x =>
      (member? record.2 "y" double? none).map fun y => ⟨x, y⟩

/-- A colour: a list of four channels. -/
def color? : Tree → Option Color
  | .list [red, green, blue, alpha] => do
    return ⟨← red.single?, ← green.single?, ← blue.single?, ← alpha.single?⟩
  | _ => none

/-- What a missing colour means: none in an object, and nothing in a list. -/
def missingColor : RecordForm → Option (Option Color)
  | .named => some none
  | .listed => none

/-- A style: both colours, each of which can be `null`. -/
def style? (t : Tree) : Option Style :=
  (t.record? ["stroke", "fill"]).bind fun record =>
    (member? record.2 "stroke" (optional? color?) (missingColor record.1)).bind fun stroke =>
      (member? record.2 "fill" (optional? color?) (missingColor record.1)).map fun fill =>
        ⟨stroke, fill⟩

/-- An outline with its style, which is plain if it is missing. -/
def outline? (t : Tree) : Option (List Point × Style) :=
  (t.record? ["points", "style"]).bind fun record =>
    (member? record.2 "points" (list? point?) none).bind fun points =>
      (member? record.2 "style" style? (some .plain)).map fun style => (points, style)

end Json.Tree

/-! ### Reading -/

/-- A point that has been read in part is what has been read of it. -/
def PartialPoint.equiv : PartialPoint ≃ Option Float × Option Float where
  toFun p := (p.x, p.y)
  invFun p := ⟨p.1, p.2⟩
  left_inv _ := rfl
  right_inv _ := rfl

/-- A style that has been read in part is what has been read of it. -/
def PartialStyle.equiv : PartialStyle ≃ Option (Option Color) × Option (Option Color) where
  toFun s := (s.stroke, s.fill)
  invFun s := ⟨s.1, s.2⟩
  left_inv _ := rfl
  right_inv _ := rfl

/-- An outline that has been read in part is what has been read of it. -/
def PartialShape.equiv : PartialShape ≃ Option (List Point) × Option Style where
  toFun s := (s.points, s.style)
  invFun s := ⟨s.1, s.2⟩
  left_inv _ := rfl
  right_inv _ := rfl

lemma reads_point : Reads readPoint Tree.point? := by
  refine reads_pair PartialPoint.equiv (fun _ => none) (fun _ => none) Point.mk (by decide)
    reads_float reads_float (fun _ => rfl) (fun _ => rfl) (fun n hx hy r => ?_) fun form x y => ?_
  · split
    · exact absurd rfl hx
    · exact absurd rfl hy
    · rfl
  · cases x <;> cases y <;> rfl

/-- A colour is read from its four channels. -/
lemma reads_color : Reads readColor Tree.color? where
  reads := by
    intro t c h rest
    unfold Tree.color? at h
    split at h
    · next red green blue alpha =>
      obtain ⟨r, hr, h⟩ := Option.bind_eq_some_iff.mp h
      obtain ⟨g, hg, h⟩ := Option.bind_eq_some_iff.mp h
      obtain ⟨b, hb, h⟩ := Option.bind_eq_some_iff.mp h
      obtain ⟨a, ha, h⟩ := Option.bind_eq_some_iff.mp h
      cases h
      rw [Tree.tokens_list_append, readColor, readElement_item reads_single hr]
      dsimp only [bind, Except.bind]
      rw [readElement_item reads_single hg]
      dsimp only
      rw [readElement_item reads_single hb]
      dsimp only
      rw [readElement_item reads_single ha]
      rfl
    · cases h
  exists_tree := by
    intro ts c rest h
    unfold readColor at h
    split at h
    · cases h
    · next ts =>
      obtain ⟨⟨r, ts₁⟩, hr, h⟩ := exists_of_bind_eq_ok h
      obtain ⟨⟨g, ts₂⟩, hg, h⟩ := exists_of_bind_eq_ok h
      obtain ⟨⟨b, ts₃⟩, hb, h⟩ := exists_of_bind_eq_ok h
      obtain ⟨⟨a, ts₄⟩, ha, h⟩ := exists_of_bind_eq_ok h
      obtain ⟨ts₅, hclose, h⟩ := exists_of_bind_eq_ok h
      cases h
      obtain ⟨red, hred, rfl⟩ := of_readElement reads_single hr
      obtain ⟨green, hgreen, rfl⟩ := of_readElement reads_single hg
      obtain ⟨blue, hblue, rfl⟩ := of_readElement reads_single hb
      obtain ⟨alpha, halpha, rfl⟩ := of_readElement reads_single ha
      obtain rfl := of_takeCloseList hclose
      refine ⟨.list [red, green, blue, alpha], ?_, ?_⟩
      · rw [Tree.tokens_list_append]
        simp [separated]
      · simp [Tree.color?, hred, hgreen, hblue, halpha]
    · cases h

lemma reads_style : Reads readStyle Tree.style? := by
  refine reads_pair PartialStyle.equiv Tree.missingColor Tree.missingColor Style.mk (by decide)
    reads_color.option reads_color.option (fun _ => rfl) (fun _ => rfl)
    (fun n hstroke hfill r => ?_) fun form stroke fill => ?_
  · split
    · exact absurd rfl hstroke
    · exact absurd rfl hfill
    · rfl
  · cases form <;> cases stroke <;> cases fill <;> rfl

lemma reads_outline : Reads readOutline Tree.outline? := by
  refine reads_pair PartialShape.equiv (fun _ => none) (fun _ => some .plain) Prod.mk (by decide)
    reads_point.list reads_style (fun _ => rfl) (fun _ => rfl) (fun n hpoints hstyle r => ?_)
    fun form points style => ?_
  · split
    · exact absurd rfl hpoints
    · exact absurd rfl hstyle
    · rfl
  · cases points <;> cases style <;> rfl

/-! ### Texts -/

namespace Shape

/-- A text is read as a shape exactly if it says an outline that passes the checks. -/
lemma ofText_eq_ok_iff {text : String} {s : Shape} :
    ofText text = .ok s ↔ ∃ (t : Tree) (points : List Point) (style : Style),
      Says text.toList t ∧ t.outline? = some (points, style) ∧ ofPoints points style = .ok s := by
  unfold ofText
  constructor
  · intro h
    obtain ⟨⟨⟨points, style⟩, rest⟩, hread, h⟩ := exists_of_bind_eq_ok h
    obtain ⟨s', hcheck, h⟩ := exists_of_bind_eq_ok h
    obtain ⟨⟨⟩, hend, h⟩ := exists_of_bind_eq_ok h
    cases h
    cases hresult : readOutline (tokens text.toList) with
    | error fault =>
      rw [hresult] at hread
      cases hread
    | ok result =>
      rw [hresult] at hread
      cases hread
      obtain ⟨t, htokens, ht⟩ := reads_outline.exists_tree hresult
      cases rest with
      | nil =>
        exact ⟨t, points, style, says_iff.mpr (htokens.trans (List.append_nil _)), ht, hcheck⟩
      | cons u us => cases hend
  · rintro ⟨t, points, style, hsaid, ht, hcheck⟩
    have hread := reads_outline.reads ht []
    rw [List.append_nil] at hread
    rw [says_iff.mp hsaid, hread]
    dsimp only [Except.mapError, bind, Except.bind]
    rw [hcheck]
    rfl

end Shape

/-! ### Written values -/

/-- All channels of the colour are read back from their texts. -/
def Color.ReadsBack (c : Color) : Prop := ∀ x ∈ c.channels, SingleReadsBack x

/-- All numbers of the shape are read back from their texts. -/
structure Shape.ReadsBack (s : Shape) : Prop where
  vertices : ∀ p ∈ s.vertices, Json.ReadsBack p.x ∧ Json.ReadsBack p.y
  stroke : ∀ c ∈ s.style.stroke, c.ReadsBack
  fill : ∀ c ∈ s.style.fill, c.ReadsBack

lemma point?_tree_iff {p : Point} :
    p.toJson.tree.point? = some p ↔ Json.ReadsBack p.x ∧ Json.ReadsBack p.y := by
  rw [readsBack_iff, readsBack_iff]
  exact Tree.pair_eq_some_iff "x" "y" (by decide) (fun _ => none) (fun _ => none) Point.mk.inj

lemma color?_tree_iff {c : Color} : c.toJson.tree.color? = some c ↔ c.ReadsBack := by
  have hchannels : c.ReadsBack ↔
      (Value.single c.red).tree.single? = some c.red ∧
        (Value.single c.green).tree.single? = some c.green ∧
        (Value.single c.blue).tree.single? = some c.blue ∧
        (Value.single c.alpha).tree.single? = some c.alpha := by
    simp only [Color.ReadsBack, Color.channels, List.forall_mem_cons, List.not_mem_nil,
      singleReadsBack_iff, false_imp_iff, implies_true, and_true]
  rw [hchannels]
  change ((Value.single c.red).tree.single? >>= fun r =>
    (Value.single c.green).tree.single? >>= fun g =>
    (Value.single c.blue).tree.single? >>= fun b =>
    (Value.single c.alpha).tree.single? >>= fun a => some (Color.mk r g b a)) = some c ↔ _
  constructor
  · intro h
    obtain ⟨r, hr, h⟩ := Option.bind_eq_some_iff.mp h
    obtain ⟨g, hg, h⟩ := Option.bind_eq_some_iff.mp h
    obtain ⟨b, hb, h⟩ := Option.bind_eq_some_iff.mp h
    obtain ⟨a, ha, h⟩ := Option.bind_eq_some_iff.mp h
    obtain rfl := Option.some.inj h
    exact ⟨hr, hg, hb, ha⟩
  · rintro ⟨hr, hg, hb, ha⟩
    rw [hr, hg, hb, ha]
    rfl

/-- A colour that is none is written as `null`. -/
lemma optional?_tree_iff {c : Option Color} :
    (Value.optional (c.map Color.toJson)).tree.optional? Tree.color? = some c ↔
      ∀ d ∈ c, d.ReadsBack := by
  cases c with
  | none => simp [Value.optional, Value.tree, Tree.optional?]
  | some c =>
    have hlist : (Value.optional ((some c).map Color.toJson)).tree.optional? Tree.color? =
        (c.toJson.tree.color?).map some := rfl
    rw [hlist]
    constructor
    · rintro h d ⟨⟩
      obtain ⟨d, hd, heq⟩ := Option.map_eq_some_iff.mp h
      obtain rfl := Option.some.inj heq
      exact color?_tree_iff.mp hd
    · intro h
      rw [color?_tree_iff.mpr (h c rfl)]
      rfl

lemma style?_tree_iff {s : Style} :
    s.toJson.tree.style? = some s ↔
      (∀ c ∈ s.stroke, c.ReadsBack) ∧ ∀ c ∈ s.fill, c.ReadsBack := by
  rw [← optional?_tree_iff, ← optional?_tree_iff]
  exact Tree.pair_eq_some_iff "stroke" "fill" (by decide) Tree.missingColor Tree.missingColor
    Style.mk.inj

namespace Shape

/-- The text of a shape says the shape exactly if all its numbers are read back. -/
lemma outline?_tree_iff {s : Shape} :
    s.toJson.tree.outline? = some (s.vertices, s.style) ↔ s.ReadsBack := by
  have hpoints : (Value.list (s.vertices.map Point.toJson)).tree.list? Tree.point? =
      some s.vertices ↔ ∀ p ∈ s.vertices, Json.ReadsBack p.x ∧ Json.ReadsBack p.y := by
    rw [Value.tree, treesOfItems_eq_map, List.map_map]
    refine Tree.mapM_map_eq_some_iff.trans (forall₂_congr fun p _ => point?_tree_iff)
  have hpair : s.toJson.tree.outline? = some (s.vertices, s.style) ↔
      (Value.list (s.vertices.map Point.toJson)).tree.list? Tree.point? = some s.vertices ∧
        s.style.toJson.tree.style? = some s.style :=
    Tree.pair_eq_some_iff "points" "style" (by decide) (fun _ => none) (fun _ => some .plain) Prod.mk.inj
  rw [hpair, hpoints, style?_tree_iff]
  exact ⟨fun h => ⟨h.1, h.2.1, h.2.2⟩, fun h => ⟨h.vertices, h.stroke, h.fill⟩⟩

/-- Reading the text of a shape gives the shape exactly if all its numbers are read back. -/
lemma ofText_toText_iff {s : Shape} : ofText s.toText = .ok s ↔ s.ReadsBack := by
  rw [ofText_eq_ok_iff, ← outline?_tree_iff]
  constructor
  · rintro ⟨t, points, style, hsaid, ht, hcheck⟩
    obtain ⟨rfl, rfl, -⟩ := ofPoints_eq_ok_iff.mp hcheck
    rwa [hsaid.unique (says_compact s.toJson)] at ht
  · intro h
    have hfinite : ∀ p ∈ s.vertices, p.isFinite = true := by
      intro p hp
      obtain ⟨hx, hy⟩ := (outline?_tree_iff.mp h).vertices p hp
      exact Bool.and_eq_true_iff.mpr ⟨isFinite_of_readsBack hx, isFinite_of_readsBack hy⟩
    exact ⟨s.toJson.tree, s.vertices, s.style, says_compact s.toJson, h,
      ofPoints_eq_ok_iff.mpr ⟨rfl, rfl, hfinite⟩⟩

/-- A text is read as a shape exactly if it says an outline, in one of the two forms, that passes
the checks: at least three vertices, all of them finite.  The shape then has these vertices and this
style.  The text of a shape is read as that shape exactly if each of its numbers is read back from
its own text; order, number of vertices and missing colours never change. -/
theorem texts_are_read_as_checked_outlines :
    (∀ s : Shape, ofText s.toText = .ok s ↔ s.ReadsBack) ∧
      (∀ (text : String) (s : Shape), ofText text = .ok s ↔
        ∃ (t : Tree) (points : List Point) (style : Style), Says text.toList t ∧
          t.outline? = some (points, style) ∧ ofPoints points style = .ok s) ∧
      ∀ (points : List Point) (style : Style) (s : Shape), ofPoints points style = .ok s ↔
        s.vertices = points ∧ s.style = style ∧ 3 ≤ points.length ∧
          ∀ p ∈ points, p.isFinite = true := by
  refine ⟨fun _ => ofText_toText_iff, fun _ _ => ofText_eq_ok_iff, fun points style s => ?_⟩
  rw [ofPoints_eq_ok_iff]
  constructor
  · rintro ⟨rfl, rfl, hfinite⟩
    exact ⟨rfl, rfl, s.three_le, hfinite⟩
  · rintro ⟨hpoints, hstyle, -, hfinite⟩
    exact ⟨hpoints, hstyle, hfinite⟩

-- Both forms in one text, a member that is not known, and no style.
example : (ofText "[[[0, -1], \x7b\"y\": 1, \"z\": [], \"x\": 0.5\x7d, [1e3, 0]]]").toOption.map
    (fun s => (s.vertices, s.style == .plain)) = some ([⟨0, -1⟩, ⟨0.5, 1⟩, ⟨1000, 0⟩], true) := by
  decide +kernel

end Shape

end ShapeGrammar
