import ShapeGrammar.Proofs.Store.Style

/-!
# Stores that differ in numbers

A store that was cleared goes on with its numbers, so that what is inserted afterwards gets other
numbers than it would get in an empty store.  That is the only trace of the past: the store differs
from the one that had been empty by a fixed amount in every number and in nothing else
(`Store.Raised.insertAll`).
-/

namespace ShapeGrammar

/-- The same polygon under a number that is larger by `d`. -/
def Polygon.raise (d : ℕ) (p : Polygon) : Polygon := { p with id := p.id + d }

namespace Polygon

@[simp] lemma id_raise (d : ℕ) (p : Polygon) : (p.raise d).id = p.id + d := rfl

@[simp] lemma key_raise (d : ℕ) (p : Polygon) : (p.raise d).key = p.key := rfl

@[simp] lemma shape_raise (d : ℕ) (p : Polygon) : (p.raise d).shape = p.shape := rfl

lemma raise_ofShape (d id : ℕ) (s : Shape) : (ofShape id s).raise d = ofShape (id + d) s := rfl

/-- Painter's order does not look at numbers. -/
lemma paintOrder_raise (d : ℕ) (p q : Polygon) :
    (p.raise d).paintOrder (q.raise d) = p.paintOrder q := rfl

lemma raise_raise (d e : ℕ) (p : Polygon) : (p.raise d).raise e = p.raise (d + e) := by
  unfold raise
  rw [Nat.add_assoc]

end Polygon

namespace Store

/-- The second store holds the polygons of the first one in the same order and under the same keys,
but every number in it, the next one included, is larger by `d`. -/
structure Raised (d : ℕ) (s s' : Store) : Prop where
  toList_eq : s'.toList = s.toList.map (.raise d)
  lookup_eq : ∀ k, s'.lookup k = (s.lookup k).map (.raise d)
  nextId_eq : s'.nextId = s.nextId + d

namespace Raised

variable {d : ℕ} {s s' : Store}

/-- A store that was cleared is an empty one with larger numbers. -/
protected lemma clear (h : 1 ≤ s.nextId) : empty.Raised (s.nextId - 1) s.clear where
  toList_eq := rfl
  lookup_eq := fun k => by rw [lookup_clear, lookup_empty, Option.map_none]
  nextId_eq := (Nat.add_sub_cancel' h).symm

lemma size_eq (h : s.Raised d s') : s'.polygons.size = s.polygons.size := by
  rw [← Array.length_toList, ← Array.length_toList]
  exact (congrArg List.length h.toList_eq).trans (List.length_map _)

lemma hasKey_eq (h : s.Raised d s') (k : Key) : s'.hasKey k = s.hasKey k := by
  rw [Bool.eq_iff_iff, hasKey_iff, hasKey_iff, h.lookup_eq]
  cases s.lookup k <;> simp

/-- A polygon has the same place in both stores. -/
lemma place_eq (h : s.Raised d s') (q : Polygon) : s'.place (q.raise d) = s.place q := by
  unfold place
  have hsize := h.size_eq
  simp only [hsize]
  refine bisect_congr (fun i hi hi' => ?_) _ _
  have hentry : s'.polygons[i]? = (s.polygons[i]?).map (.raise d) := by
    have hlist := congrArg (fun l : List Polygon => l[i]?) h.toList_eq
    simpa only [toList, List.getElem?_map, Array.getElem?_toList] using hlist
  rw [Array.getElem?_eq_getElem hi, Array.getElem?_eq_getElem hi', Option.map_some,
    Option.some.injEq] at hentry
  rw [hentry, Polygon.paintOrder_raise]

lemma push (h : s.Raised d s') (shape : Shape) : (s.push shape).Raised d (s'.push shape) where
  toList_eq := by
    rw [toList_push, toList_push, h.nextId_eq, ← Polygon.raise_ofShape, h.place_eq, h.toList_eq,
      List.map_insertIdx]
  lookup_eq := fun k => by
    rw [lookup_push, lookup_push, h.lookup_eq, h.nextId_eq]
    split <;> rfl
  nextId_eq := by
    have hnext := h.nextId_eq
    simp only [Store.push]
    omega

/-- Both stores take the shape or neither does, and the numbers differ by `d`. -/
lemma insert (h : s.Raised d s') (admits : Shape → Bool) (shape : Shape) :
    (s'.insert admits shape).1 = (s.insert admits shape).1.map (· + d) ∧
      (s.insert admits shape).2.Raised d (s'.insert admits shape).2 := by
  rcases s.insert_cases admits shape with ⟨hno | htaken, heq⟩ | ⟨hadmits, hfree, heq⟩
  · rcases s'.insert_cases admits shape with ⟨-, heq'⟩ | ⟨hadmits, -⟩
    · rw [heq, heq']
      exact ⟨rfl, h⟩
    · exact absurd (hadmits.symm.trans hno) (by decide)
  · rw [heq, insert_of_taken ((h.hasKey_eq _).trans htaken)]
    exact ⟨rfl, h⟩
  · rw [heq, insert_of_free hadmits ((h.hasKey_eq _).trans hfree)]
    exact ⟨congrArg some h.nextId_eq, h.push shape⟩

/-- Shapes that are inserted one after the other get numbers that differ by `d`. -/
lemma insertAll (h : s.Raised d s') (admits : Shape → Bool) (shapes : List Shape) :
    (s'.insertAll admits shapes).1 = (s.insertAll admits shapes).1.map (Option.map (· + d)) ∧
      (s.insertAll admits shapes).2.Raised d (s'.insertAll admits shapes).2 := by
  induction shapes generalizing s s' with
  | nil => exact ⟨rfl, h⟩
  | cons shape shapes ih =>
    obtain ⟨hid, hone⟩ := h.insert admits shape
    obtain ⟨hids, hrest⟩ := ih hone
    exact ⟨congrArg₂ List.cons hid hids, hrest⟩

end Raised

end Store

end ShapeGrammar
