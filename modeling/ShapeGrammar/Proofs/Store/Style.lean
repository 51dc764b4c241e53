import Mathlib.Data.List.Forall2
import ShapeGrammar.Proofs.Store.Insertion

/-!
# Stores that differ in styles

Two shapes with the same vertices differ in style at most (`Shape.Restyled`).  They have one key,
one place in painter's order, one area, and one answer to every question about points and regions.

Two stores whose polygons differ in styles at most (`Store.Restyled`) therefore take the same
shapes, give them the same numbers and put them at the same places: the insertions of restyled
shapes leave restyled stores (`Store.Restyled.insertAll`).
-/

namespace ShapeGrammar

/-! ### Shapes and polygons -/

/-- The two shapes have the same vertices, so that they differ in style at most. -/
def Shape.Restyled (s s' : Shape) : Prop := s'.vertices = s.vertices

namespace Shape.Restyled

variable {s s' a a' : Shape}

/-- The second shape is the first one in another style. -/
lemma eq_with_style (h : s.Restyled s') : s' = { s with style := s'.style } := by
  obtain ⟨ps, style, hs⟩ := s
  obtain ⟨qs, style', hs'⟩ := s'
  obtain rfl : qs = ps := h
  rfl

lemma key_eq (h : s.Restyled s') : s'.key = s.key := by
  rw [h.eq_with_style]
  rfl

lemma admits_eq (h : s.Restyled s') (r : Region) : r.admits s' = r.admits s := by
  rw [h.eq_with_style]
  rfl

lemma contains_eq (h : s.Restyled s') (x y : Float) : s'.contains x y = s.contains x y := by
  rw [h.eq_with_style]
  rfl

lemma centroid_eq (h : s.Restyled s') : s'.centroid = s.centroid := by
  rw [h.eq_with_style]
  rfl

end Shape.Restyled

/-- The two polygons have one number and one key, and their shapes differ in style at most. -/
structure Polygon.Restyled (p p' : Polygon) : Prop where
  id_eq : p'.id = p.id
  key_eq : p'.key = p.key
  nans_eq : p'.nans = p.nans
  shape : p.shape.Restyled p'.shape

lemma Polygon.restyled_ofShape {s s' : Shape} (h : s.Restyled s') (id : Nat)
    (nans : Point.NaNs := .invalid) : (ofShape id s nans).Restyled (ofShape id s' nans) :=
  ⟨rfl, h.key_eq, rfl, h⟩

lemma Polygon.Restyled.paintOrder_eq {p p' q q' : Polygon} (h : p.Restyled p')
    (hq : q.Restyled q') : p'.paintOrder q' = p.paintOrder q := by
  unfold Polygon.paintOrder Polygon.centroidX Polygon.centroidY
  rw [h.shape.centroid_eq, hq.shape.centroid_eq, h.nans_eq, hq.nans_eq]

/-! ### Lists -/

section Lists

variable {α β : Type} {R : α → β → Prop} {xs : List α} {ys : List β}

/-- Entries at one index are related. -/
lemma rel_getElem? (h : List.Forall₂ R xs ys) (i : Nat) : Option.Rel R xs[i]? ys[i]? := by
  induction h generalizing i with
  | nil => exact .none
  | cons hhead _ ih =>
    cases i with
    | zero => exact .some hhead
    | succ i => exact ih i

/-- Related entries put at one index leave related lists. -/
lemma rel_insertIdx (h : List.Forall₂ R xs ys) {x : α} {y : β} (hxy : R x y) (i : Nat) :
    List.Forall₂ R (xs.insertIdx i x) (ys.insertIdx i y) := by
  induction h generalizing i with
  | nil =>
    cases i with
    | zero => exact .cons hxy .nil
    | succ i => exact .nil
  | cons hhead htail ih =>
    cases i with
    | zero => exact .cons hxy (.cons hhead htail)
    | succ i => exact .cons hhead (ih i)

/-- Related lists have one image under functions that agree on related entries. -/
lemma map_eq_map_of_rel {γ : Type} {f : α → γ} {g : β → γ} (h : List.Forall₂ R xs ys)
    (hfg : ∀ x y, R x y → g y = f x) : ys.map g = xs.map f := by
  induction h with
  | nil => rfl
  | cons hhead _ ih => rw [List.map_cons, List.map_cons, hfg _ _ hhead, ih]

/-- All members satisfy a condition if all those of a related list do. -/
lemma all_eq_all_of_rel {p : α → Bool} {q : β → Bool} (h : List.Forall₂ R xs ys)
    (hpq : ∀ x y, R x y → q y = p x) : ys.all q = xs.all p := by
  induction h with
  | nil => rfl
  | cons hhead _ ih => rw [List.all_cons, List.all_cons, hpq _ _ hhead, ih]

end Lists

/-- Bisection sees the answers at the indices only. -/
lemma bisect_congr {α β : Type} {p : α → Bool} {q : β → Bool} {xs : Array α} {ys : Array β}
    (hpq : ∀ i (hi : i < xs.size) (hi' : i < ys.size), q ys[i] = p xs[i]) {lo hi : Nat}
    (h : hi ≤ xs.size) (h' : hi ≤ ys.size) : bisect q ys lo hi h' = bisect p xs lo hi h := by
  fun_induction bisect p xs lo hi h with
  | case1 lo hi h hlt mid hmid hsize hp ih =>
    rw [bisect, dif_pos hlt, if_pos ((hpq _ hsize (by omega)).trans hp)]
    exact ih h'
  | case2 lo hi h hlt mid hmid hsize hp ih =>
    rw [bisect, dif_pos hlt, if_neg (by rw [hpq _ hsize (by omega)]; exact hp)]
    exact ih (by omega)
  | case3 lo hi h hlt => rw [bisect, dif_neg hlt]

namespace Store

/-! ### Stores -/

/-- The two stores hold the same polygons but for their styles, in one order, under the same keys,
and have handed out the same numbers. -/
structure Restyled (s s' : Store) : Prop where
  polygons : List.Forall₂ Polygon.Restyled s.toList s'.toList
  lookup : ∀ k, Option.Rel Polygon.Restyled (s.lookup k) (s'.lookup k)
  nextId_eq : s'.nextId = s.nextId

namespace Restyled

variable {s s' : Store} {shape shape' : Shape} {shapes shapes' : List Shape}

protected lemma empty : Store.empty.Restyled Store.empty where
  polygons := .nil
  lookup := fun k => by
    rw [lookup_empty]
    exact .none
  nextId_eq := rfl

lemma size_eq (h : s.Restyled s') : s'.polygons.size = s.polygons.size :=
  h.polygons.length_eq.symm

lemma isEmpty_eq (h : s.Restyled s') : s'.isEmpty = s.isEmpty := by
  have hsize := h.size_eq
  unfold isEmpty Array.isEmpty
  rw [hsize]

/-- The same keys are taken. -/
lemma hasKey_eq (h : s.Restyled s') (k : Key) : s'.hasKey k = s.hasKey k := by
  have hlook := h.lookup k
  have hsome : ∀ s : Store, s.hasKey k = (s.lookup k).isSome :=
    fun s => Std.TreeMap.contains_eq_isSome_getElem?
  rw [hsome, hsome]
  generalize s.lookup k = found, s'.lookup k = found' at hlook ⊢
  cases hlook <;> rfl

lemma clear (h : s.Restyled s') : s.clear.Restyled s'.clear where
  polygons := .nil
  lookup := fun k => by
    rw [lookup_clear, lookup_clear]
    exact .none
  nextId_eq := h.nextId_eq

/-- Polygons with the same vertices have one place. -/
lemma place_eq (h : s.Restyled s') {q q' : Polygon} (hq : q.Restyled q') :
    s'.place q' = s.place q := by
  unfold place
  have hsize := h.size_eq
  simp only [hsize]
  refine bisect_congr (fun i hi hi' => ?_) _ _
  have hrel := rel_getElem? h.polygons i
  rw [toList, toList, Array.getElem?_toList, Array.getElem?_toList, Array.getElem?_eq_getElem hi,
    Array.getElem?_eq_getElem hi'] at hrel
  cases hrel with
  | some hpolygon => rw [hpolygon.paintOrder_eq hq]

lemma push (h : s.Restyled s') (hshape : shape.Restyled shape') :
    (s.push shape).Restyled (s'.push shape') where
  polygons := by
    rw [toList_push, toList_push, h.nextId_eq,
      h.place_eq (Polygon.restyled_ofShape hshape s.nextId)]
    exact rel_insertIdx h.polygons (Polygon.restyled_ofShape hshape s.nextId) _
  lookup := fun k => by
    rw [lookup_push, lookup_push, hshape.key_eq, h.nextId_eq]
    split
    · exact .some (Polygon.restyled_ofShape hshape s.nextId)
    · exact h.lookup k
  nextId_eq := congrArg (· + 1) h.nextId_eq

/-- Shapes with the same vertices are both refused, or get one number. -/
lemma insert (h : s.Restyled s') (hshape : shape.Restyled shape') (r : Region) :
    (s'.insert r.admits shape').1 = (s.insert r.admits shape).1 ∧
      (s.insert r.admits shape).2.Restyled (s'.insert r.admits shape').2 := by
  have hadmits := hshape.admits_eq r
  have htaken : s'.hasKey shape'.key = s.hasKey shape.key := by rw [hshape.key_eq, h.hasKey_eq]
  have heq : ∀ (s : Store) (shape : Shape), s.insert r.admits shape =
      if !r.admits shape || s.hasKey shape.key then (none, s)
      else (some s.nextId, s.push shape) := fun _ _ => rfl
  rw [heq, heq, hadmits, htaken]
  split
  · exact ⟨rfl, h⟩
  · exact ⟨congrArg some h.nextId_eq, h.push hshape⟩

/-- Inserting shapes with the same vertices one after the other gives the same numbers. -/
lemma insertAll (h : s.Restyled s') (hshapes : List.Forall₂ Shape.Restyled shapes shapes')
    (r : Region) :
    (s'.insertAll r.admits shapes').1 = (s.insertAll r.admits shapes).1 ∧
      (s.insertAll r.admits shapes).2.Restyled (s'.insertAll r.admits shapes').2 := by
  induction hshapes generalizing s s' with
  | nil => exact ⟨rfl, h⟩
  | cons hshape _ ih =>
    obtain ⟨hid, hone⟩ := h.insert hshape r
    obtain ⟨hids, hrest⟩ := ih hone
    exact ⟨congrArg₂ List.cons hid hids, hrest⟩

/-- The best polygon so far is the same, with the same error. -/
def SameBest : Option (Polygon × Float) → Option (Polygon × Float) → Prop :=
  Option.Rel fun best best' => best.1.Restyled best'.1 ∧ best'.2 = best.2

lemma SameBest.nearer {target : List Point} {limit : Float} {best best' : Option (Polygon × Float)}
    (hbest : SameBest best best') {q q' : Polygon} (hq : q.Restyled q') :
    SameBest (Store.nearer target limit best q) (Store.nearer target limit best' q') := by
  have hvertices : q'.shape.vertices = q.shape.vertices := hq.shape
  have hall : ∀ p : Float → Bool, best'.all (fun b => p b.2) = best.all (fun b => p b.2) := by
    intro p
    cases hbest with
    | none => rfl
    | some h => exact congrArg p h.2
  unfold Store.nearer
  rw [hvertices]
  split
  · exact hbest
  · dsimp only
    rw [hall (fun least => decide (squaredError q.shape.vertices target < least))]
    split
    · exact .some ⟨hq, rfl⟩
    · exact hbest

/-- The nearest polygon is the same. -/
lemma nearest (h : s.Restyled s') (hshape : shape.Restyled shape') (limit : Float) :
    Option.Rel Polygon.Restyled (s.nearest shape limit) (s'.nearest shape' limit) := by
  have hvertices : shape'.vertices = shape.vertices := hshape
  have hstep : Relator.LiftFun SameBest (Relator.LiftFun Polygon.Restyled SameBest)
      (Store.nearer shape.vertices limit) (Store.nearer shape.vertices limit) :=
    fun _ _ hbest _ _ hq => hbest.nearer hq
  have hfold := List.rel_foldl hstep .none h.polygons
  unfold Store.nearest
  rw [hvertices]
  generalize s.toList.foldl _ none = best, s'.toList.foldl _ none = best' at hfold ⊢
  cases hfold with
  | none => exact .none
  | some hbest => exact .some hbest.1

end Restyled

end Store

end ShapeGrammar
