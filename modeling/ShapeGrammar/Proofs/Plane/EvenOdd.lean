import Mathlib
import ShapeGrammar.Plane
import ShapeGrammar.Proofs.Number.Order

/-!
# The even-odd rule

A point lies inside an outline if a ray from it to the right meets an odd number of sides.  Where
the outline starts makes no difference to this (`Outline.contains_of_isRotated`), as the sides are
the same ones, listed from another one on.
The number itself is not needed: a flag that is turned over at every side met along the outline says
in the end whether it is odd (`Outline.contains_append_singleton`).

Who follows a closed outline is back at the height where he started, so that he has passed any
height an even number of times, up or down.  This is so however the outline crosses itself, and also
for a height at which there are vertices or whole sides, since a vertex at this height counts as not
above it (`Outline.even_countP_straddles`).  So a ray to the left meets an odd number of sides
exactly if the one to the right does (`Outline.contains_iff_odd_meetsBehind`).
-/

namespace ShapeGrammar

namespace Outline

/-! ### Sides -/

/-- The sides of an outline that starts at another vertex are the same, started elsewhere. -/
lemma sides_rotate (ps : List Point) (r : ℕ) : sides (ps.rotate r) = (sides ps).rotate r := by
  have hsides : ∀ qs : List Point, sides qs = List.zipWith Prod.mk qs (qs.rotate 1) := by
    intro qs
    cases qs with
    | nil => rfl
    | cons q qs =>
      rw [List.rotate_eq_drop_append_take (Nat.succ_le_succ (Nat.zero_le _))]
      rfl
  have hcomm : (ps.rotate r).rotate 1 = (ps.rotate 1).rotate r := by
    rw [List.rotate_rotate, List.rotate_rotate, Nat.add_comm]
  rw [hsides, hsides, hcomm, List.zipWith_rotate_distrib _ _ _ _ (List.length_rotate _ _).symm]

/-- Which points lie inside an outline does not depend on where it starts. -/
lemma contains_of_isRotated {ps qs : List Point} (h : ps ~r qs) (x y : Float) :
    contains ps x y = contains qs x y := by
  obtain ⟨r, rfl⟩ := h
  unfold contains
  rw [List.length_rotate, sides_rotate, (List.rotate_perm (sides ps) r).countP_eq]

/-- A flag that is turned over at every entry of one kind is up in the end if there is an odd number of
them. -/
lemma foldl_xor_eq {α : Type} (p : α → Bool) (xs : List α) (flag : Bool) :
    xs.foldl (fun flag x => flag ^^ p x) flag = (flag ^^ (xs.countP p % 2 == 1)) := by
  induction xs generalizing flag with
  | nil => simp
  | cons x xs ih =>
    rw [List.foldl_cons, ih, List.countP_cons]
    cases hp : p x with
    | false => simp
    | true =>
      rcases Nat.mod_two_eq_zero_or_one (xs.countP p) with hparity | hparity
      · simp [Nat.add_mod, hparity]
      · simp [Nat.add_mod, hparity]

/-- Who walks along the outline, from the side that returns to the first vertex on, and turns a flag
over at every side that the ray meets, has it up in the end exactly if the point lies inside. -/
lemma contains_append_singleton (ps : List Point) (last : Point) (x y : Float) :
    contains (ps ++ [last]) x y =
      (decide (3 ≤ (ps ++ [last]).length) &&
        ((last :: ps).zip (ps ++ [last])).foldl (fun inside (a, b) => inside ^^ meets x y a b)
          false) := by
  have hrot : ps ++ [last] ~r last :: ps := List.isRotated_append
  rw [contains_of_isRotated hrot, hrot.perm.length_eq, contains]
  refine congrArg _ ?_
  rw [foldl_xor_eq (fun side : Point × Point => meets x y side.1 side.2), Bool.false_xor]
  rfl

/-- Both ends of a side are vertices. -/
lemma mem_of_mem_sides {ps : List Point} {a b : Point} (h : (a, b) ∈ sides ps) :
    a ∈ ps ∧ b ∈ ps := by
  obtain ⟨ha, hb⟩ := List.of_mem_zip h
  refine ⟨ha, ?_⟩
  rcases List.mem_append.mp hb with hb | hb
  · exact List.mem_of_mem_drop hb
  · exact List.mem_of_mem_take hb

/-! ### Following the outline -/

/-- Along a chain of points, a label changes an odd number of times exactly if the labels at both
ends are different. -/
lemma odd_countP_changes (above : Point → Bool) (p last : Point) (ps : List Point) :
    Odd (((p :: ps).zip (ps ++ [last])).countP fun (a, b) => above b != above a) ↔
      above p ≠ above last := by
  induction ps generalizing p with
  | nil =>
    by_cases hsame : above p = above last
    · simp [hsame]
    · simp [hsame, Ne.symm hsame]
  | cons q ps ih =>
    rw [List.cons_append, List.zip_cons_cons, List.countP_cons]
    -- The label changes from `p` to `q` or not, and the rest of the chain starts at `q`.
    by_cases hsame : above p = above q
    · rw [if_neg (by simp [hsame]), add_zero, ih q, hsame]
    · have hflip : above p = !above q := Bool.eq_not.mpr hsame
      rw [if_pos (by simpa using Ne.symm hsame), Nat.odd_add_one, ih q, not_not, hflip]
      simp

/-- The number of sides that pass a height is even. -/
lemma even_countP_straddles (ps : List Point) (y : Float) :
    Even ((sides ps).countP fun (a, b) => straddles y a b) := by
  cases ps with
  | nil => exact Even.zero
  | cons p ps =>
    rw [← Nat.not_odd_iff_even]
    exact fun hodd => (odd_countP_changes (fun q => decide (y < q.y)) p p ps).mp hodd rfl

/-- A ray from `(x, y)` to the left meets the side from `a` to `b`, the end of the ray included. -/
def meetsBehind (x y : Float) (a b : Point) : Bool := straddles y a b && !decide (x < crossing y a b)

/-- A side that passes the height is met by the ray to the right or by the one to the left. -/
lemma countP_meets_add (ps : List Point) (x y : Float) :
    (sides ps).countP (fun (a, b) => meets x y a b) +
        (sides ps).countP (fun (a, b) => meetsBehind x y a b) =
      (sides ps).countP fun (a, b) => straddles y a b := by
  rw [List.countP_eq_countP_filter_add (sides ps) (fun (a, b) => straddles y a b)
    fun (a, b) => decide (x < crossing y a b), List.countP_filter, List.countP_filter]
  rfl

/-- A point lies inside exactly if a ray to the left meets an odd number of sides. -/
lemma contains_iff_odd_meetsBehind (ps : List Point) (x y : Float) :
    contains ps x y = true ↔
      3 ≤ ps.length ∧ Odd ((sides ps).countP fun (a, b) => meetsBehind x y a b) := by
  have hsum := countP_meets_add ps x y
  obtain ⟨n, hn⟩ := even_countP_straddles ps y
  change (_ && (sides ps).countP (fun (a, b) => meets x y a b) % 2 == 1) = true ↔ _
  rw [Bool.and_eq_true, decide_eq_true_iff, beq_iff_eq, Nat.odd_iff]
  refine and_congr_right fun _ => ?_
  omega

/-- Nothing lies inside at a height that no side passes. -/
lemma contains_eq_false_of_not_straddles {ps : List Point} {y : Float}
    (h : ∀ a b, (a, b) ∈ sides ps → straddles y a b = false) (x : Float) :
    contains ps x y = false := by
  have hzero : (sides ps).countP (fun (a, b) => meets x y a b) = 0 := by
    rw [List.countP_eq_zero]
    rintro ⟨a, b⟩ hmem
    simp [meets, h a b hmem]
  rw [contains, hzero, Bool.and_eq_false_iff]
  exact Or.inr rfl

/-- Nothing lies inside below all vertices. -/
lemma contains_eq_false_of_forall_lt {ps : List Point} {y : Float} (h : ∀ p ∈ ps, y < p.y)
    (x : Float) : contains ps x y = false := by
  refine contains_eq_false_of_not_straddles (fun a b hmem => ?_) x
  obtain ⟨ha, hb⟩ := mem_of_mem_sides hmem
  simp [straddles, h a ha, h b hb]

/-- Nothing lies inside at the height of the highest vertex or above it. -/
lemma contains_eq_false_of_forall_le {ps : List Point} {y : Float} (h : ∀ p ∈ ps, p.y ≤ y)
    (x : Float) : contains ps x y = false := by
  refine contains_eq_false_of_not_straddles (fun a b hmem => ?_) x
  obtain ⟨ha, hb⟩ := mem_of_mem_sides hmem
  simp [straddles, Number.not_lt_of_le (h a ha), Number.not_lt_of_le (h b hb)]

/-- Which points lie inside an outline depends on the closed chain of its sides only: the answer is
the same wherever the list of vertices starts.  Every height is passed by an even number of sides, so
that it makes no difference either whether the sides to the right of the point are counted or those
to the left.  Nothing lies inside below all vertices, nor at the height of the highest vertex or above
it, and a point lies outside if it is to the left of the places at which the sides pass its height.
This holds for outlines of any length that may cross themselves, and for all doubles. -/
theorem contains_depends_on_outline_only (ps : List Point) (x y : Float) :
    (∀ qs, ps ~r qs → contains qs x y = contains ps x y) ∧
    Even ((sides ps).countP fun (a, b) => straddles y a b) ∧
    (contains ps x y = true ↔
      3 ≤ ps.length ∧ Odd ((sides ps).countP fun (a, b) => meetsBehind x y a b)) ∧
    ((∀ p ∈ ps, y < p.y) → contains ps x y = false) ∧
    ((∀ p ∈ ps, p.y ≤ y) → contains ps x y = false) ∧
    ((∀ a b, (a, b) ∈ sides ps → straddles y a b = true → x < crossing y a b) →
      contains ps x y = false) := by
  refine ⟨fun qs h => contains_of_isRotated h.symm x y, even_countP_straddles ps y,
    contains_iff_odd_meetsBehind ps x y, fun hbelow => contains_eq_false_of_forall_lt hbelow x,
    fun habove => contains_eq_false_of_forall_le habove x, fun hleft => ?_⟩
  · have hzero : (sides ps).countP (fun (a, b) => meetsBehind x y a b) = 0 := by
      rw [List.countP_eq_zero]
      rintro ⟨a, b⟩ hmem
      simpa [meetsBehind] using hleft a b hmem
    rw [Bool.eq_false_iff, Ne, contains_iff_odd_meetsBehind, hzero]
    exact fun h => Nat.not_odd_zero h.2

/-- An outline that crosses itself in the middle, with two sides that run along one height. -/
def hourglass : List Point := [⟨0, 0⟩, ⟨4, 0⟩, ⟨0, 4⟩, ⟨4, 4⟩]

theorem contains_hourglass :
    (hourglass ~r hourglass.rotate 3 ∧ contains hourglass 1 0 = true ∧
      contains (hourglass.rotate 3) 1 0 = true) ∧
    ((∀ p ∈ hourglass, -1 < p.y) ∧ contains hourglass 2 (-1) = false) ∧
    ((∀ p ∈ hourglass, p.y ≤ 4) ∧ contains hourglass 1 4 = false) ∧
    ((∀ a b, (a, b) ∈ sides hourglass → straddles 0 a b = true → -1 < crossing 0 a b) ∧
      (sides hourglass).countP (fun (a, b) => straddles 0 a b) = 2 ∧
      contains hourglass (-1) 0 = false) := by
  have hrot : hourglass ~r hourglass.rotate 3 := ⟨3, rfl⟩
  have hinside : contains hourglass 1 0 = true := by decide +kernel
  have hbelow : ∀ p ∈ hourglass, -1 < p.y := by decide +kernel
  have habove : ∀ p ∈ hourglass, p.y ≤ 4 := by decide +kernel
  have hleft : ∀ side ∈ sides hourglass,
      straddles 0 side.1 side.2 = true → -1 < crossing 0 side.1 side.2 := by
    decide +kernel
  have hleft' : ∀ a b, (a, b) ∈ sides hourglass → straddles 0 a b = true → -1 < crossing 0 a b :=
    fun a b hmem => hleft (a, b) hmem
  refine ⟨⟨hrot, hinside, ?_⟩, ⟨hbelow, ?_⟩, ⟨habove, ?_⟩, hleft', by decide +kernel, ?_⟩
  · exact ((contains_depends_on_outline_only hourglass 1 0).1 _ hrot).trans hinside
  · exact (contains_depends_on_outline_only hourglass 2 (-1)).2.2.2.1 hbelow
  · exact (contains_depends_on_outline_only hourglass 1 4).2.2.2.2.1 habove
  · exact (contains_depends_on_outline_only hourglass (-1) 0).2.2.2.2.2 hleft'

end Outline

end ShapeGrammar
