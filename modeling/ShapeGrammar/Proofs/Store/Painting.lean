import Mathlib
import ShapeGrammar.Proofs.Number.TotalOrder
import ShapeGrammar.Proofs.Store.History

/-!
# Painter's order over the history of a store

Painter's order compares two polygons by one pair of whole numbers, `Polygon.depth`, and their own
numbers tell apart what it leaves undecided.  Together they put all polygons of a store in one line,
`Polygon.PaintedBefore`, which goes by the total order of bit patterns; infinite coordinates and
not-a-numbers of either sign have their place in it like all others.

In a list that is in this order, the polygons that do not come after a new one stand in front of
those that do, so that bisection finds the border between them (`Store.InOrder.depth_place`), and the
new polygon belongs there, as its number is the largest.  An action therefore keeps the order
(`Store.InOrder.act`), and by induction every history leaves the polygons that have survived it as a
stable sort leaves them.
-/

namespace ShapeGrammar

/-! ### Bisection, insertion and sorting -/

section Lists

variable {α : Type}

/-- Where the entries that satisfy `p` come first, bisection finds the border: it is behind all that
satisfy `p` and before all that do not. -/
lemma bisect_separates (p : α → Bool) (xs : Array α) (lo hi : ℕ) (h : hi ≤ xs.size) (hle : lo ≤ hi)
    (hfirst : ∀ i j (_ : i < xs.size) (_ : j < xs.size), i ≤ j → p xs[j] = true → p xs[i] = true)
    (hlow : ∀ i (_ : i < xs.size), i < lo → p xs[i] = true)
    (hhigh : ∀ i (_ : i < xs.size), hi ≤ i → p xs[i] = false) :
    (∀ i (_ : i < xs.size), i < bisect p xs lo hi h → p xs[i] = true) ∧
      ∀ i (_ : i < xs.size), bisect p xs lo hi h ≤ i → p xs[i] = false := by
  fun_induction bisect p xs lo hi h with
  | case1 lo hi h hlt mid hmid hsize hp ih =>
    refine ih (by omega) ?_ hhigh
    intro i hi' hmid'
    exact hfirst i mid hi' hsize (by omega) hp
  | case2 lo hi h hlt mid hmid hsize hp ih =>
    refine ih (by omega) hlow ?_
    intro i hi' hmid'
    rw [Bool.eq_false_iff]
    exact fun hpi => hp (hfirst mid i hsize hi' hmid' hpi)
  | case3 lo hi h hlt =>
    exact ⟨hlow, fun i hi' hle' => hhigh i hi' (by omega)⟩

/-- An entry put between those that belong before it and those that belong after it keeps a list in
order. -/
lemma pairwise_insertIdx {r : α → α → Prop} {xs : List α} {k : ℕ} {a : α} (hxs : xs.Pairwise r)
    (hk : k ≤ xs.length) (hbefore : ∀ x ∈ xs.take k, r x a) (hafter : ∀ x ∈ xs.drop k, r a x) :
    (xs.insertIdx k a).Pairwise r := by
  induction xs generalizing k with
  | nil =>
    obtain rfl : k = 0 := Nat.le_zero.mp hk
    exact List.pairwise_singleton r a
  | cons x xs ih =>
    cases k with
    | zero => exact List.pairwise_cons.mpr ⟨hafter, hxs⟩
    | succ k =>
      obtain ⟨hx, hrest⟩ := List.pairwise_cons.mp hxs
      have hk' : k ≤ xs.length := Nat.le_of_succ_le_succ hk
      rw [List.insertIdx_succ_cons, List.pairwise_cons]
      refine ⟨?_, ih hrest hk' (fun y hy => hbefore y (List.mem_cons_of_mem _ hy)) hafter⟩
      intro y hy
      rcases (List.mem_insertIdx hk').mp hy with rfl | hy
      · exact hbefore x List.mem_cons_self
      · exact hx y hy

/-- A merge sort leaves entries that compare as equal in the order in which they were. -/
lemma pairwise_mergeSort_stable {le : α → α → Bool} {r : α → α → Prop}
    (htrans : ∀ a b c, le a b = true → le b c = true → le a c = true)
    (htotal : ∀ a b, (le a b || le b a) = true) {xs : List α} (hxs : xs.Pairwise r) :
    (xs.mergeSort le).Pairwise fun a b => le a b = true ∧ (le b a = true → r a b) := by
  induction xs with
  | nil => simp
  | cons a xs ih =>
    obtain ⟨ha, hrest⟩ := List.pairwise_cons.mp hxs
    obtain ⟨front, back, heq, hsplit, hfront⟩ := List.mergeSort_cons htrans htotal a xs
    have hsorted := List.pairwise_mergeSort htrans htotal (a :: xs)
    have hmem : ∀ b ∈ back, b ∈ xs := by
      intro b hb
      have hsort : b ∈ xs.mergeSort le := by
        rw [hsplit]
        exact List.mem_append_right front hb
      exact List.mem_mergeSort.mp hsort
    have hih := ih hrest
    rw [hsplit, List.pairwise_append] at hih
    rw [heq, List.pairwise_append, List.pairwise_cons] at hsorted
    obtain ⟨hpfront, hpback, hacross⟩ := hih
    obtain ⟨-, ⟨haback, -⟩, -⟩ := hsorted
    rw [heq, List.pairwise_append, List.pairwise_cons]
    refine ⟨hpfront, ⟨fun b hb => ⟨haback b hb, fun _ => ha b (hmem b hb)⟩, hpback⟩, ?_⟩
    intro b hb c hc
    rcases List.mem_cons.mp hc with rfl | hc
    · have hno : le c b = false := by simpa using hfront b hb
      have hyes := htotal c b
      rw [hno, Bool.false_or] at hyes
      exact ⟨hyes, fun htie => absurd (hno.symm.trans htie) Bool.false_ne_true⟩
    · exact hacross b hb c hc

end Lists

/-! ### The order of polygons -/

namespace Polygon

/-- How far in front painter's order puts a polygon. -/
def depth (p : Polygon) : ℤ ×ₗ ℤ := toLex (-Number.rank p.centroidY, -Number.rank p.centroidX)

/-- Painter's order compares depths. -/
lemma paintOrder_eq_compare (p q : Polygon) : p.paintOrder q = compare p.depth q.depth := by
  have hneg : ∀ m n : ℤ, compare (-m) (-n) = compare n m := by
    intro m n
    rw [Number.compare_neg_neg]
    exact Std.OrientedOrd.eq_swap.symm
  unfold paintOrder depth
  simp only [Prod.Lex.compare_def, compareLex, compareOn, ofLex_toLex, hneg]

/-- A polygon does not come after another exactly if its depth is at most that of the other. -/
lemma paintOrder_bne_gt (p q : Polygon) : (p.paintOrder q != .gt) = true ↔ p.depth ≤ q.depth := by
  rw [paintOrder_eq_compare, bne_iff_ne]
  exact compare_le_iff_le

/-- The polygon `p` is painted before `q`: its centroid is higher up, or as high and further to the
right, or at the same place and `p` has the smaller number. -/
def PaintedBefore (p q : Polygon) : Prop :=
  Number.Precedes q.centroidY p.centroidY ∨
    q.centroidY = p.centroidY ∧
      (Number.Precedes q.centroidX p.centroidX ∨ q.centroidX = p.centroidX ∧ p.id < q.id)

instance : DecidableRel PaintedBefore := fun p q =>
  inferInstanceAs (Decidable (Number.Precedes q.centroidY p.centroidY ∨
    q.centroidY = p.centroidY ∧
      (Number.Precedes q.centroidX p.centroidX ∨ q.centroidX = p.centroidX ∧ p.id < q.id)))

/-- Polygons are painted in the order of their depths, and of their numbers where these agree. -/
lemma paintedBefore_iff (p q : Polygon) :
    p.PaintedBefore q ↔ p.depth < q.depth ∨ p.depth = q.depth ∧ p.id < q.id := by
  unfold PaintedBefore depth
  rw [← Number.rank_lt_iff, ← Number.rank_lt_iff, ← Number.rank_inj, ← Number.rank_inj,
    Prod.Lex.toLex_lt_toLex, toLex_inj, Prod.mk.injEq]
  dsimp only
  omega

/-- Of two polygons at most one is painted before the other. -/
lemma PaintedBefore.asymm {p q : Polygon} (h : p.PaintedBefore q) : ¬ q.PaintedBefore p := by
  rw [paintedBefore_iff] at h ⊢
  rintro (hlt | ⟨heq, hid⟩)
  · rcases h with hlt' | ⟨heq', -⟩
    · exact hlt.asymm hlt'
    · exact hlt.ne heq'.symm
  · rcases h with hlt' | ⟨-, hid'⟩
    · exact hlt'.ne heq.symm
    · exact hid.asymm hid'

end Polygon

namespace Store

variable {s : Store} {ps : List Polygon}

/-! ### One action -/

/-- The polygons of the store stand in painter's order, those at one place by number. -/
def InOrder (s : Store) : Prop := s.toList.Pairwise Polygon.PaintedBefore

/-- In a store in order, depths do not fall along the list. -/
lemma InOrder.depth_le (hs : s.InOrder) {i j : ℕ} (hi : i < s.polygons.size)
    (hj : j < s.polygons.size) (hle : i ≤ j) :
    s.polygons[i].depth ≤ s.polygons[j].depth := by
  rcases Nat.eq_or_lt_of_le hle with rfl | hlt
  · exact le_refl _
  · have hbefore := List.pairwise_iff_getElem.mp hs i j hi hj hlt
    rcases (Polygon.paintedBefore_iff _ _).mp hbefore with hdepth | ⟨hdepth, -⟩
    · exact hdepth.le
    · exact hdepth.le

/-- In front of the place for a polygon stand those that do not come after it, and behind it those
that do. -/
lemma InOrder.depth_place (hs : s.InOrder) (q : Polygon) :
    (∀ p ∈ s.toList.take (s.place q), p.depth ≤ q.depth) ∧
      ∀ p ∈ s.toList.drop (s.place q), q.depth < p.depth := by
  have hfirst : ∀ i j (_ : i < s.polygons.size) (_ : j < s.polygons.size), i ≤ j →
      (s.polygons[j].paintOrder q != .gt) = true →
      (s.polygons[i].paintOrder q != .gt) = true := by
    intro i j hi hj hle hpj
    rw [Polygon.paintOrder_bne_gt] at hpj ⊢
    exact (hs.depth_le hi hj hle).trans hpj
  obtain ⟨hbefore, hafter⟩ := bisect_separates
    (fun p : Polygon => p.paintOrder q != .gt) s.polygons 0 s.polygons.size (Nat.le_refl _)
    (Nat.zero_le _) hfirst (fun i _ hlt => absurd hlt (Nat.not_lt_zero i))
    (fun i hi hle => absurd hi (Nat.not_lt.mpr hle))
  constructor
  · intro p hp
    obtain ⟨i, hi, rfl⟩ := List.mem_take_iff_getElem.mp hp
    obtain ⟨hplace, hsize⟩ := Nat.lt_min.mp hi
    have hnear : s.polygons[i].depth ≤ q.depth :=
      (Polygon.paintOrder_bne_gt _ _).mp (hbefore i hsize hplace)
    exact hnear
  · intro p hp
    obtain ⟨i, hi, rfl⟩ := List.mem_drop_iff_getElem.mp hp
    have hfar := hafter (i + s.place q) hi (Nat.le_add_left _ _)
    rw [Bool.eq_false_iff, Ne, Polygon.paintOrder_bne_gt, not_le] at hfar
    have hmem : q.depth < s.toList[i + s.place q].depth := hfar
    simpa only [Nat.add_comm] using hmem

/-- A new polygon leaves the store in order. -/
lemma InOrder.push (hs : s.InOrder) (hcons : s.Consistent) (shape : Shape) (nans : Point.NaNs) :
    (s.push shape nans).InOrder := by
  obtain ⟨hbefore, hafter⟩ := hs.depth_place (.ofShape s.nextId shape nans)
  unfold InOrder
  rw [toList_push]
  refine pairwise_insertIdx hs (s.place_le _) ?_ ?_
  · intro p hp
    have hid : p.id < s.nextId := hcons.id_lt p (List.mem_of_mem_take hp)
    rw [Polygon.paintedBefore_iff]
    rcases (hbefore p hp).lt_or_eq with hlt | heq
    · exact Or.inl hlt
    · exact Or.inr ⟨heq, hid⟩
  · intro p hp
    rw [Polygon.paintedBefore_iff]
    exact Or.inl (hafter p hp)

/-! ### The polygons that survive -/

/-- The polygons that survive an action with this answer, the oldest first, if `ps` were there
before. -/
def outlive (ps : List Polygon) : Action → Option ℕ → List Polygon
  | .insert _ shape nans, some id => ps ++ [.ofShape id shape nans]
  | .insert _ _ _, none => ps
  | .clear, _ => []

/-- The polygons that survive actions with these answers. -/
def outliveAll (ps : List Polygon) (steps : List (Action × Option ℕ)) : List Polygon :=
  steps.foldl (fun ps step => outlive ps step.1 step.2) ps

/-- The polygons that survive a history, the oldest first: one for every insertion since the last
clearing that was answered with a number. -/
def survivors (as : List Action) : List Polygon := outliveAll [] (as.zip (empty.perform as).1)

/-- The store holds the polygons `ps`, listed in the order of their insertion, and has them in
painter's order. -/
structure Paints (s : Store) (ps : List Polygon) : Prop where
  consistent : s.Consistent
  perm : s.toList.Perm ps
  inOrder : s.InOrder
  rising : ps.Pairwise fun p q => p.id < q.id

/-- What one action does to the polygons that survive. -/
lemma Paints.act (h : s.Paints ps) (a : Action) :
    (s.act a).2.Paints (outlive ps a (s.act a).1) := by
  cases a with
  | clear => exact ⟨Consistent.clear s, List.Perm.refl _, List.Pairwise.nil, List.Pairwise.nil⟩
  | insert admits shape nans =>
    simp only [Store.act]
    rcases s.insert_cases admits shape nans with ⟨-, heq⟩ | ⟨-, hfree, heq⟩
    · rw [heq]
      exact h
    · rw [heq]
      have hext := extends_push hfree nans
      refine ⟨h.consistent.of_extends hext, hext.perm.trans (h.perm.append_right _),
        h.inOrder.push h.consistent shape nans, ?_⟩
      rw [outlive, List.pairwise_append]
      refine ⟨h.rising, List.pairwise_singleton _ _, ?_⟩
      intro p hp q hq
      rw [List.mem_singleton.mp hq]
      exact h.consistent.id_lt p (h.perm.mem_iff.mpr hp)

/-- What a run does to the polygons that survive. -/
lemma Paints.perform (h : s.Paints ps) (as : List Action) :
    (s.perform as).2.Paints (outliveAll ps (as.zip (s.perform as).1)) := by
  induction as generalizing s ps with
  | nil => exact h
  | cons a as ih => exact ih (h.act a)

/-- A history leaves the polygons that have survived it, in painter's order. -/
lemma paints_after (as : List Action) : (after as).Paints (survivors as) := by
  have hempty : empty.Paints [] :=
    ⟨Consistent.empty, List.Perm.refl _, List.Pairwise.nil, List.Pairwise.nil⟩
  exact hempty.perform as

lemma Reachable.inOrder (h : s.Reachable) : s.InOrder := by
  obtain ⟨as, rfl⟩ := h
  exact (paints_after as).inOrder

/-- The polygons of a store are those that it has kept, as a stable sort by painter's order leaves
them. -/
lemma Paints.toList_eq (h : s.Paints ps) :
    s.toList = ps.mergeSort fun p q => p.paintOrder q != .gt := by
  have hsorted : (ps.mergeSort fun p q => p.paintOrder q != .gt).Pairwise
      Polygon.PaintedBefore := by
    have hstable : (ps.mergeSort fun p q => p.paintOrder q != .gt).Pairwise fun p q =>
        (p.paintOrder q != .gt) = true ∧ ((q.paintOrder p != .gt) = true → p.id < q.id) := by
      refine pairwise_mergeSort_stable ?_ ?_ h.rising
      · intro p q r hpq hqr
        rw [Polygon.paintOrder_bne_gt] at *
        exact hpq.trans hqr
      · intro p q
        rw [Bool.or_eq_true, Polygon.paintOrder_bne_gt, Polygon.paintOrder_bne_gt]
        exact le_total _ _
    refine hstable.imp ?_
    rintro p q ⟨hle, hties⟩
    rw [Polygon.paintOrder_bne_gt] at hle hties
    rw [Polygon.paintedBefore_iff]
    rcases hle.lt_or_eq with hlt | heq
    · exact Or.inl hlt
    · exact Or.inr ⟨heq, hties heq.ge⟩
  exact List.Perm.eq_of_pairwise (fun p q _ _ hpq hqp => absurd hqp hpq.asymm) h.inOrder hsorted
    (h.perm.trans (List.mergeSort_perm ps _).symm)

/-- After any history the list consists of the polygons that have survived it, in painter's order:
by falling `y` of the centroid, then by falling `x`, then by rising number, where the coordinates
are in the total order of bit patterns.  So bisection puts every new polygon where a stable sort of
the polygons in the order of their insertion would leave it, whatever bits the centroids have. -/
theorem history_keeps_painters_order (as : List Action) :
    (after as).toList.Perm (survivors as) ∧
    (survivors as).Pairwise (fun p q => p.id < q.id) ∧
    (after as).toList.Pairwise Polygon.PaintedBefore ∧
    (after as).toList = (survivors as).mergeSort fun p q => p.paintOrder q != .gt := by
  have h := paints_after as
  exact ⟨h.perm, h.rising, h.inOrder, h.toList_eq⟩

/-- Three vertices at one point. -/
def dot (x y : Float) : Shape := ⟨[⟨x, y⟩, ⟨x, y⟩, ⟨x, y⟩], .plain, by simp⟩

/-- A positive not-a-number. -/
def positiveNaN : Number.NaN := ⟨0x7ff8000000000000, by decide +kernel⟩

/-- Points with infinite coordinates and with not-a-numbers of either sign, and a line through a
point that is there already, all after something that is cleared. -/
def extremes : List Action :=
  [.insert (fun _ => true) (dot 3 3), .clear,
    .insert (fun _ => true) (dot 1 Number.notANumber),
    .insert (fun _ => true) (dot 2 Number.notANumber) ⟨positiveNaN, positiveNaN⟩,
    .insert (fun _ => true) (dot 0 Number.infinity),
    .insert (fun _ => true) (dot 0 (-Number.infinity)),
    .insert (fun _ => true) (dot 0 7),
    .insert (fun _ => true) (dot Number.notANumber 7) ⟨positiveNaN, positiveNaN⟩,
    .insert (fun _ => true) ⟨[⟨-1, 7⟩, ⟨0, 7⟩, ⟨1, 7⟩], .plain, by decide⟩]

/-- Where `y` is a positive not-a-number stands in front of infinity, where it is a negative one
behind negative infinity; a positive `x` that is not a number is further to the right than all
others; and the line comes after the point in its middle. -/
theorem painters_order_of_extremes :
    (survivors extremes).map Polygon.id = [2, 3, 4, 5, 6, 7, 8] ∧
    (after extremes).toList.map Polygon.id = [3, 4, 7, 6, 8, 5, 2] ∧
    (after extremes).toList.Pairwise Polygon.PaintedBefore ∧
    ((survivors extremes).mergeSort fun p q => p.paintOrder q != .gt).map Polygon.id =
      [3, 4, 7, 6, 8, 5, 2] := by
  obtain ⟨-, -, horder, hsort⟩ := history_keeps_painters_order extremes
  have hids : (after extremes).toList.map Polygon.id = [3, 4, 7, 6, 8, 5, 2] := by decide +kernel
  exact ⟨by decide +kernel, hids, horder, hsort ▸ hids⟩

end Store

end ShapeGrammar
