import ShapeGrammar.Proofs.Plane.Grid
import ShapeGrammar.Proofs.Store.History

/-!
# Keys and the starting vertex

A key lists the vertices on the grid from the first lowest one on.  If the lowest grid point occurs
several times, the first occurrence depends on where the outline starts, and so may the key.

`Shape.UniqueStart` says that it makes no difference at which lowest vertex the list is started.
This is the exact condition under which a shape keeps its key when it is started at another vertex
(`Key.ofSnapped_rotate_iff`).  The proof needs little of the search for the lowest vertex: the index
that it finds belongs to a lowest vertex (`Key.isLowest_lowestIndex`), and a list that starts with a
lowest vertex is left as it is (`Key.lowestIndex_eq_zero`).
-/

namespace ShapeGrammar

namespace Key

/-- There is a vertex at index `i`, and no vertex comes before it. -/
def IsLowest (ps : List Point) (i : ℕ) : Prop := ∃ p, ps[i]? = some p ∧ ∀ q ∈ ps, q.before p = false

/-- The list read from any of its lowest vertices on is the same. -/
def UniqueStart (ps : List Point) : Prop :=
  ∀ i j, IsLowest ps i → IsLowest ps j → ps.rotate i = ps.rotate j

instance (ps : List Point) (i : ℕ) : Decidable (IsLowest ps i) :=
  decidable_of_iff (ps[i]?.any fun p => ps.all fun q => !q.before p) (by
    cases h : ps[i]? <;> simp [IsLowest, h])

/-- There is a vertex at the index of a lowest one. -/
lemma IsLowest.lt_length {ps : List Point} {i : ℕ} (h : IsLowest ps i) : i < ps.length := by
  obtain ⟨p, hp, -⟩ := h
  exact (List.getElem?_eq_some_iff.mp hp).1

instance (ps : List Point) : Decidable (UniqueStart ps) :=
  decidable_of_iff (∀ i < ps.length, ∀ j < ps.length, IsLowest ps i → IsLowest ps j →
      ps.rotate i = ps.rotate j)
    ⟨fun h i j hi hj => h i hi.lt_length j hj.lt_length hi hj, fun h i _ j _ => h i j⟩

/-! ### The search for the lowest vertex -/

/-- The search goes on correctly: if `best` is lowest among the vertices `pre` seen so far, then the
index found at the end is that of a lowest vertex. -/
lemma isLowest_lowestFrom {best : Point} {bestIndex : ℕ} (pre rest : List Point)
    (hnum : ∀ p ∈ pre ++ rest, p.IsNumber) (hat : pre[bestIndex]? = some best)
    (hlow : ∀ q ∈ pre, q.before best = false) :
    IsLowest (pre ++ rest) (lowestFrom best bestIndex pre.length rest) := by
  induction rest generalizing best bestIndex pre with
  | nil =>
    rw [List.append_nil]
    exact ⟨best, hat, hlow⟩
  | cons p rest ih =>
    have hsplit : pre ++ p :: rest = (pre ++ [p]) ++ rest := by simp
    have hlen : pre.length + 1 = (pre ++ [p]).length := by simp
    have hbest : best.IsNumber :=
      hnum best (List.mem_append_left _ (List.mem_of_getElem? hat))
    have hp : p.IsNumber := hnum p (by simp)
    rw [lowestFrom, hlen, hsplit]
    rw [hsplit] at hnum
    by_cases hbefore : p.before best = true
    · rw [if_pos hbefore]
      refine ih (pre ++ [p]) hnum (by simp) ?_
      have hlt : p.level < best.level := (Point.before_iff hp hbest).mp hbefore
      intro q hq
      have hqnum : q.IsNumber := hnum q (List.mem_append_left _ hq)
      rw [Point.before_eq_false_iff hqnum hp]
      rcases List.mem_append.mp hq with hq | hq
      · have hle := (Point.before_eq_false_iff hqnum hbest).mp (hlow q hq)
        exact hlt.le.trans hle
      · rw [List.mem_singleton.mp hq]
    · rw [if_neg hbefore]
      refine ih (pre ++ [p]) hnum ?_ ?_
      · rw [List.getElem?_append_left (List.getElem?_eq_some_iff.mp hat).1]
        exact hat
      · intro q hq
        rcases List.mem_append.mp hq with hq | hq
        · exact hlow q hq
        · rw [List.mem_singleton.mp hq]
          exact Bool.eq_false_iff.mpr hbefore

/-- The index found is that of a lowest vertex. -/
lemma isLowest_lowestIndex {ps : List Point} (hne : ps ≠ []) (hnum : ∀ p ∈ ps, p.IsNumber) :
    IsLowest ps (lowestIndex ps) := by
  cases ps with
  | nil => exact absurd rfl hne
  | cons p ps =>
    have hp : p.IsNumber := hnum p List.mem_cons_self
    refine isLowest_lowestFrom [p] ps hnum rfl ?_
    intro q hq
    rw [List.mem_singleton.mp hq, Point.before_eq_false_iff hp hp]

/-- The search keeps its first vertex if no other comes before it. -/
lemma lowestFrom_eq {best : Point} {rest : List Point} (h : ∀ q ∈ rest, q.before best = false)
    (bestIndex i : ℕ) : lowestFrom best bestIndex i rest = bestIndex := by
  induction rest generalizing i with
  | nil => rfl
  | cons p rest ih =>
    rw [lowestFrom, if_neg (by simp [h p List.mem_cons_self])]
    exact ih (fun q hq => h q (List.mem_cons_of_mem _ hq)) (i + 1)

/-- A list that starts with a lowest vertex is left as it is. -/
lemma lowestIndex_eq_zero {ps : List Point} (h : IsLowest ps 0) : lowestIndex ps = 0 := by
  obtain ⟨p, hp, hlow⟩ := h
  cases ps with
  | nil => rfl
  | cons q ps =>
    obtain rfl : q = p := Option.some.inj hp
    exact lowestFrom_eq (fun r hr => hlow r (List.mem_cons_of_mem _ hr)) 0 1

/-! ### Rotating -/

/-- A key lists the vertices of its outline in another order. -/
lemma ofSnapped_perm (ps : List Point) : (ofSnapped ps).vertices.Perm ps := by
  have hsplit := List.take_append_drop (lowestIndex ps) ps
  exact List.perm_append_comm.trans (List.Perm.of_eq hsplit)

/-- A key is its outline, read from another vertex on. -/
lemma ofSnapped_isRotated (ps : List Point) : (ofSnapped ps).vertices ~r ps := by
  have hrot : (ps.drop (lowestIndex ps) ++ ps.take (lowestIndex ps)) ~r
      (ps.take (lowestIndex ps) ++ ps.drop (lowestIndex ps)) := List.isRotated_append
  rwa [List.take_append_drop] at hrot

/-- Lists of one key are rotations of each other. -/
lemma isRotated_of_ofSnapped_eq {ps qs : List Point} (h : ofSnapped ps = ofSnapped qs) :
    ps ~r qs := by
  have hps := ofSnapped_isRotated ps
  rw [h] at hps
  exact hps.symm.trans (ofSnapped_isRotated qs)

/-- A key is the list rotated to the vertex found. -/
lemma ofSnapped_eq_rotate {ps : List Point} (h : IsLowest ps (lowestIndex ps)) :
    ofSnapped ps = ⟨ps.rotate (lowestIndex ps)⟩ := by
  rw [ofSnapped, List.rotate_eq_drop_append_take h.lt_length.le]

/-- The lowest vertices of a rotated list are those of the list. -/
lemma isLowest_rotate_iff {ps : List Point} {r i : ℕ} (hi : i < ps.length) :
    IsLowest (ps.rotate r) i ↔ IsLowest ps ((r + i) % ps.length) := by
  unfold IsLowest
  rw [List.getElem?_rotate hi, Nat.add_comm r i]
  simp only [List.mem_rotate]

/-- Started at a lowest vertex, a list is its own key. -/
lemma ofSnapped_rotate_of_isLowest {ps : List Point} {i : ℕ} (h : IsLowest ps i) :
    ofSnapped (ps.rotate i) = ⟨ps.rotate i⟩ := by
  have hpos : 0 < ps.length := Nat.zero_lt_of_lt h.lt_length
  have hzero : IsLowest (ps.rotate i) 0 := by
    rw [isLowest_rotate_iff hpos, Nat.add_zero, Nat.mod_eq_of_lt h.lt_length]
    exact h
  have hindex : lowestIndex (ps.rotate i) = 0 := lowestIndex_eq_zero hzero
  rw [ofSnapped_eq_rotate (hindex.symm ▸ hzero), hindex, List.rotate_zero]

/-- The key of a list, wherever the list is started, is the list read from one of its lowest
vertices on. -/
lemma exists_isLowest_ofSnapped_rotate {ps : List Point} (hne : ps ≠ [])
    (hnum : ∀ p ∈ ps, p.IsNumber) (r : ℕ) :
    ∃ i, IsLowest ps i ∧ ofSnapped (ps.rotate r) = ⟨ps.rotate i⟩ := by
  have hlow : IsLowest (ps.rotate r) (lowestIndex (ps.rotate r)) := by
    refine isLowest_lowestIndex (fun h => hne (List.rotate_eq_nil_iff.mp h)) ?_
    exact fun p hp => hnum p (List.mem_rotate.mp hp)
  have hlt : lowestIndex (ps.rotate r) < ps.length := by
    rw [← List.length_rotate ps r]
    exact hlow.lt_length
  refine ⟨(r + lowestIndex (ps.rotate r)) % ps.length, (isLowest_rotate_iff hlt).mp hlow, ?_⟩
  rw [ofSnapped_eq_rotate hlow, List.rotate_rotate, List.rotate_mod]

/-- All rotations of a list have one key exactly when it makes no difference at which lowest vertex
the list is started. -/
lemma ofSnapped_rotate_iff {ps : List Point} (hne : ps ≠ []) (hnum : ∀ p ∈ ps, p.IsNumber) :
    (∀ r, ofSnapped (ps.rotate r) = ofSnapped ps) ↔ UniqueStart ps := by
  constructor
  · intro h i j hi hj
    have hij : ofSnapped (ps.rotate i) = ofSnapped (ps.rotate j) := (h i).trans (h j).symm
    rw [ofSnapped_rotate_of_isLowest hi, ofSnapped_rotate_of_isLowest hj] at hij
    exact Key.mk.inj hij
  · intro h r
    obtain ⟨i, hi, hkey⟩ := exists_isLowest_ofSnapped_rotate hne hnum r
    obtain ⟨j, hj, hkey'⟩ := exists_isLowest_ofSnapped_rotate hne hnum 0
    rw [List.rotate_zero] at hkey'
    rw [hkey, hkey', h i j hi hj]

end Key

namespace Shape

/-- The shape started at another vertex, `r` places further on. -/
def rotate (s : Shape) (r : ℕ) : Shape where
  vertices := s.vertices.rotate r
  style := s.style
  three_le := by
    rw [List.length_rotate]
    exact s.three_le

/-- On the grid, it makes no difference at which lowest vertex the outline is started. -/
def UniqueStart (s : Shape) : Prop := Key.UniqueStart (s.vertices.map Point.snapped)

instance (s : Shape) : Decidable s.UniqueStart :=
  inferInstanceAs (Decidable (Key.UniqueStart (s.vertices.map Point.snapped)))

/-- A shape is made of the points given, if they are finite. -/
lemma ofPoints_eq_ok_iff {ps : List Point} {style : Style} {s : Shape} :
    ofPoints ps style = .ok s ↔
      s.vertices = ps ∧ s.style = style ∧ ∀ p ∈ ps, p.isFinite = true := by
  unfold ofPoints
  constructor
  · intro h
    split at h
    · split at h
      · cases h
      · next hnone =>
        obtain rfl := Except.ok.inj h
        refine ⟨rfl, rfl, ?_⟩
        intro p hp
        simpa using List.findIdx?_eq_none_iff.mp hnone p hp
    · cases h
  · rintro ⟨rfl, rfl, hfin⟩
    have hnone : s.vertices.findIdx? (fun p => !p.isFinite) = none := by
      rw [List.findIdx?_eq_none_iff]
      intro p hp
      rw [hfin p hp]
      rfl
    rw [dif_pos s.three_le, hnone]

/-- Starting an outline at another vertex starts its image on the grid there. -/
lemma snapped_rotate (s : Shape) (r : ℕ) :
    (s.rotate r).vertices.map Point.snapped = (s.vertices.map Point.snapped).rotate r :=
  List.map_rotate _ _ _

section Finite

variable {s : Shape} (hfin : ∀ p ∈ s.vertices, p.isFinite = true)

include hfin

/-- Finite vertices stay numbers on the grid. -/
lemma isNumber_of_mem_snapped : ∀ p ∈ s.vertices.map Point.snapped, p.IsNumber := by
  intro p hp
  obtain ⟨q, hq, rfl⟩ := List.mem_map.mp hp
  exact Point.isNumber_snapped (hfin q hq)

/-- A shape keeps its key under every change of the starting vertex exactly when its start is
unique on the grid. -/
lemma key_rotate_iff : (∀ r, (s.rotate r).key = s.key) ↔ s.UniqueStart := by
  have hne : s.vertices.map Point.snapped ≠ [] := by
    intro h
    have hnil : s.vertices = [] := List.map_eq_nil_iff.mp h
    have hlen := s.three_le
    rw [hnil] at hlen
    exact absurd hlen (by decide)
  unfold key UniqueStart
  simp only [snapped_rotate]
  exact Key.ofSnapped_rotate_iff hne (isNumber_of_mem_snapped hfin)

/-- If no two vertices fall onto one grid point, the start is unique. -/
lemma uniqueStart_of_nodup (h : (s.vertices.map Point.snapped).Nodup) : s.UniqueStart := by
  rintro i j ⟨p, hp, hlow⟩ ⟨q, hq, hlow'⟩
  have hpmem := List.mem_of_getElem? hp
  have hqmem := List.mem_of_getElem? hq
  have hpnum := isNumber_of_mem_snapped hfin p hpmem
  have hqnum := isNumber_of_mem_snapped hfin q hqmem
  have hle := (Point.before_eq_false_iff hqnum hpnum).mp (hlow q hqmem)
  have hge := (Point.before_eq_false_iff hpnum hqnum).mp (hlow' p hpmem)
  obtain ⟨v, -, rfl⟩ := List.mem_map.mp hpmem
  obtain ⟨w, -, rfl⟩ := List.mem_map.mp hqmem
  have heq := Point.snapped_eq_of_level_eq hpnum hqnum (le_antisymm hle hge)
  have hlt := (List.getElem?_eq_some_iff.mp hp).1
  rw [(List.getElem?_inj hlt h).mp (hp.trans (heq ▸ hq.symm))]

end Finite

end Shape

/-! ### Starting vertices and stores -/

namespace Store

variable {s : Store} {q : Polygon} {shape : Shape}

/-- If a store holds a shape, it refuses every shape of the same key. -/
lemma Consistent.insert_eq_of_key_eq (hs : s.Consistent) (hq : q ∈ s.toList)
    (hkey : shape.key = q.shape.key) (admits : Shape → Bool) :
    s.insert admits shape = (none, s) := by
  have htaken : s.hasKey shape.key = true := by
    rw [hs.hasKey_iff_mem]
    exact ⟨q, hq, (hs.key_eq q hq).trans hkey.symm⟩
  exact insert_of_taken htaken admits

/-- The store with one shape. -/
def single (shape : Shape) : Store := empty.push shape

/-- The store with one shape has a history. -/
lemma reachable_single (shape : Shape) : (single shape).Reachable := by
  refine ⟨[.insert (fun _ => true) shape], ?_⟩
  have hfree : empty.hasKey shape.key = false :=
    (hasKey_eq_false_iff _ _).mpr (lookup_empty _)
  have hinsert : empty.insert (fun _ => true) shape = (some 1, single shape) :=
    insert_of_free rfl hfree
  exact congrArg Prod.snd hinsert

/-- The store with one shape holds one polygon. -/
lemma toList_single (shape : Shape) : (single shape).toList = [.ofShape 1 shape] := by
  have hplace : empty.place (.ofShape empty.nextId shape) = 0 := Nat.le_zero.mp (empty.place_le _)
  rw [single, toList_push, hplace]
  rfl

/-- The store with one shape takes any shape of another key, under the next number. -/
lemma insert_single {shape other : Shape} (h : other.key ≠ shape.key) :
    ((single shape).insert (fun _ => true) other).1 = some 2 := by
  have hfree : (single shape).hasKey other.key = false := by
    rw [hasKey_eq_false_iff, single, lookup_push, if_neg h.symm]
    exact lookup_empty _
  have hinsert : (single shape).insert (fun _ => true) other =
      (some 2, (single shape).push other) := insert_of_free rfl hfree
  rw [hinsert]

/-- Let a shape be made of finite points.  Starting the points at another vertex makes the rotated
shape.  That keeps the key for all rotations exactly if the start of the shape is unique on the
grid, as it is if the vertices are distinct there.  This is also exactly the condition under which
every store that holds the shape finds it by the key of any rotation, and under which all such
stores refuse all rotations. -/
theorem rotations_are_duplicates_iff_uniqueStart {ps : List Point} {style : Style} {s : Shape}
    (h : Shape.ofPoints ps style = .ok s) :
    (∀ r, Shape.ofPoints (ps.rotate r) style = .ok (s.rotate r)) ∧
    ((∀ r, (s.rotate r).key = s.key) ↔ s.UniqueStart) ∧
    ((s.vertices.map Point.snapped).Nodup → s.UniqueStart) ∧
    (∀ store : Store, store.Reachable → ∀ q ∈ store.toList, q.shape = s →
      ((∀ r, store.lookup (s.rotate r).key = some q) ↔ s.UniqueStart)) ∧
    ((∀ store : Store, store.Reachable → ∀ q ∈ store.toList, q.shape = s →
      ∀ r admits, store.insert admits (s.rotate r) = (none, store)) ↔ s.UniqueStart) := by
  obtain ⟨rfl, rfl, hfin⟩ := Shape.ofPoints_eq_ok_iff.mp h
  have hkey : (∀ r, (s.rotate r).key = s.key) ↔ s.UniqueStart := Shape.key_rotate_iff hfin
  refine ⟨?_, hkey, Shape.uniqueStart_of_nodup hfin, ?_, ?_⟩
  · intro r
    refine Shape.ofPoints_eq_ok_iff.mpr ⟨rfl, rfl, ?_⟩
    intro p hp
    exact hfin p (List.mem_rotate.mp hp)
  · rintro store hreach q hq rfl
    have hs : store.Consistent := hreach.consistent
    rw [← hkey]
    refine forall_congr' fun r => ?_
    rw [hs.lookup_iff, hs.key_eq q hq]
    exact ⟨fun h => h.2.symm, fun h => ⟨hq, h.symm⟩⟩
  · rw [← hkey]
    constructor
    · intro hrefuse r
      by_contra hne
      have hnone := hrefuse (single s) (reachable_single s) (.ofShape 1 s)
        (by rw [toList_single]; exact List.mem_singleton.mpr rfl) rfl r (fun _ => true)
      have hsome := insert_single hne
      rw [hnone] at hsome
      exact absurd hsome.symm (Option.some_ne_none 2)
    · rintro hrot store hreach q hq rfl r admits
      exact hreach.consistent.insert_eq_of_key_eq hq (hrot r) admits

/-- A triangle that is run through twice: its lowest vertex occurs twice, and both occurrences are
followed by the same vertices. -/
def doubledTriangle : Shape :=
  ⟨[⟨0, 0⟩, ⟨2, 1⟩, ⟨1, 2⟩, ⟨0, 0⟩, ⟨2, 1⟩, ⟨1, 2⟩], .plain, by decide⟩

theorem rotations_of_doubledTriangle_are_duplicates :
    Shape.ofPoints doubledTriangle.vertices .plain = .ok doubledTriangle ∧
    ∀ r, (doubledTriangle.rotate r).key = doubledTriangle.key := by
  have h : Shape.ofPoints doubledTriangle.vertices .plain = .ok doubledTriangle := rfl
  have hunique : doubledTriangle.UniqueStart := by decide +kernel
  exact ⟨h, (rotations_are_duplicates_iff_uniqueStart h).2.1.mpr hunique⟩

/-- Two triangles that touch in their common lowest vertex, as one outline. -/
def touchingTriangles : Shape :=
  ⟨[⟨0, 0⟩, ⟨2, 1⟩, ⟨1, 2⟩, ⟨0, 0⟩, ⟨-1, 2⟩, ⟨-2, 1⟩], .plain, by decide⟩

/-- The outline of two touching triangles gets another key when it is started at the second
occurrence of its lowest vertex, and a store that holds it takes it once more. -/
theorem rotation_of_touchingTriangles_is_no_duplicate :
    Shape.ofPoints touchingTriangles.vertices .plain = .ok touchingTriangles ∧
    Shape.ofPoints (touchingTriangles.vertices.rotate 3) .plain =
      .ok (touchingTriangles.rotate 3) ∧
    (touchingTriangles.rotate 3).key ≠ touchingTriangles.key ∧
    (single touchingTriangles).toList = [.ofShape 1 touchingTriangles] ∧
    (single touchingTriangles).lookup (touchingTriangles.rotate 3).key = none ∧
    ((single touchingTriangles).insert (fun _ => true) (touchingTriangles.rotate 3)).1 =
      some 2 := by
  have hne : (touchingTriangles.rotate 3).key ≠ touchingTriangles.key := by decide +kernel
  refine ⟨rfl, rfl, hne, toList_single _, ?_, insert_single hne⟩
  rw [single, lookup_push, if_neg hne.symm]
  exact lookup_empty _

end Store

end ShapeGrammar
