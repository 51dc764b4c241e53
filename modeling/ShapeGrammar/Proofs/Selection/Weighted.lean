import ShapeGrammar.Proofs.Number.Monotone
import ShapeGrammar.Proofs.Selection

/-!
# What a weighted choice picks

A weighted choice walks through the scores and stops where the number that it has drawn is used up.
A score of zero uses nothing up, so that the walk does not stop there, with two exceptions: it stops
at the first score if there was nothing to use up, and at the last one if rounding has left
something over (`Selection.exists_walk`).

If something is left over by any draw, it is left over by the largest one, since rounding keeps the
order of remainders (`Selection.UsesUp.of_le`).
-/

namespace ShapeGrammar

/-! ### Scores -/

namespace Number

/-- Only finite doubles have a finite total. -/
lemma isFinite_of_foldl {a : Float} {xs : List Float}
    (h : (xs.foldl (· + ·) a).isFinite = true) :
    a.isFinite = true ∧ ∀ x ∈ xs, x.isFinite = true := by
  induction xs generalizing a with
  | nil => exact ⟨h, fun x hx => absurd hx List.not_mem_nil⟩
  | cons x xs ih =>
    obtain ⟨hsum, hxs⟩ := ih h
    obtain ⟨ha, hx⟩ := isFinite_of_add hsum
    exact ⟨ha, List.forall_mem_cons.mpr ⟨hx, hxs⟩⟩

/-- The double is finite and not below zero. -/
structure IsWeight (x : Float) : Prop where
  isFinite : x.isFinite = true
  nonneg : 0 ≤ value x

lemma IsWeight.hasValue {x : Float} (h : IsWeight x) : HasValue x (value x) :=
  hasValue_value h.isFinite

lemma IsWeight.add {x y : Float} (hx : IsWeight x) (hy : IsWeight y)
    (h : (x + y).isFinite = true) : IsWeight (x + y) := by
  obtain ⟨w, hw, hval⟩ := hx.hasValue.exists_add hy.hasValue h
  exact ⟨h, hval.value_eq ▸ hw.nonneg (add_nonneg hx.nonneg hy.nonneg)⟩

lemma IsWeight.mul {x y : Float} (hx : IsWeight x) (hy : IsWeight y)
    (h : (x * y).isFinite = true) : IsWeight (x * y) := by
  obtain ⟨w, hw, hval⟩ := hx.hasValue.exists_mul hy.hasValue h
  exact ⟨h, hval.value_eq ▸ hw.nonneg (mul_nonneg hx.nonneg hy.nonneg)⟩

lemma IsWeight.of_pos {x : Float} (hfinite : x.isFinite = true) (hpos : 0 < x) : IsWeight x :=
  ⟨hfinite, ((hasValue_value hfinite).pos_iff.mp hpos).le⟩

lemma isWeight_zero : IsWeight 0 := ⟨rfl, le_rfl⟩

lemma isWeight_neg_zero : IsWeight (-0.0) := ⟨rfl, le_rfl⟩

/-- To add the same to less gives less. -/
lemma IsWeight.add_mono {x y z : Float} (hx : IsWeight x) (hy : IsWeight y) (hz : IsWeight z)
    (hle : value x ≤ value y) (h : (y + z).isFinite = true) :
    IsWeight (x + z) ∧ value (x + z) ≤ value (y + z) := by
  obtain ⟨w, hw, hval⟩ := hy.hasValue.exists_add hz.hasValue h
  obtain ⟨v, hv, hden⟩ :=
    (hasValue_iff_denotes.mp hx.hasValue).exists_rounds_add (hasValue_iff_denotes.mp hz.hasValue)
  have hnonneg : 0 ≤ v := hv.nonneg (add_nonneg hx.nonneg hz.nonneg)
  have hvw : v ≤ w := hv.mono hw (add_le_add_left hle _)
  have hsum : HasValue (x + z) v :=
    .of_denotes hden (hden.representable_of_le representable_zero hval.representable hnonneg hvw)
  rw [hval.value_eq, hsum.value_eq]
  exact ⟨⟨hsum.isFinite, hsum.value_eq ▸ hnonneg⟩, hvw⟩

lemma isWeight_foldl {a : Float} {xs : List Float} (ha : IsWeight a)
    (hxs : ∀ x ∈ xs, x.isFinite = true → IsWeight x)
    (h : (xs.foldl (· + ·) a).isFinite = true) : IsWeight (xs.foldl (· + ·) a) := by
  induction xs generalizing a with
  | nil => exact ha
  | cons x xs ih =>
    obtain ⟨hx, hxs⟩ := List.forall_mem_cons.mp hxs
    rw [List.foldl_cons] at h ⊢
    obtain ⟨hsum, -⟩ := isFinite_of_foldl h
    exact ih (ha.add (hx (isFinite_of_add hsum).2) hsum) hxs h

/-- To leave out some weights makes a sum no larger. -/
lemma foldl_le_of_sublist {a b : Float} {xs ys : List Float} (hsub : xs.Sublist ys)
    (ha : IsWeight a) (hb : IsWeight b) (hle : value a ≤ value b)
    (hys : ∀ y ∈ ys, y.isFinite = true → IsWeight y) (h : (ys.foldl (· + ·) b).isFinite = true) :
    (xs.foldl (· + ·) a).isFinite = true ∧
      value (xs.foldl (· + ·) a) ≤ value (ys.foldl (· + ·) b) := by
  induction hsub generalizing a b with
  | slnil => exact ⟨ha.isFinite, hle⟩
  | @cons xs ys y hsub ih =>
    obtain ⟨hy, hys⟩ := List.forall_mem_cons.mp hys
    rw [List.foldl_cons] at h ⊢
    obtain ⟨hsum, -⟩ := isFinite_of_foldl h
    have hweight := hy (isFinite_of_add hsum).2
    obtain ⟨w, hw, hval⟩ := hb.hasValue.exists_add hweight.hasValue hsum
    have hbw : value b ≤ w :=
      hb.hasValue.representable.rounds.mono hw (le_add_of_nonneg_right hweight.nonneg)
    exact ih ha (hb.add hweight hsum) (hle.trans (hbw.trans_eq hval.value_eq.symm)) hys h
  | @cons_cons xs ys y hsub ih =>
    obtain ⟨hy, hys⟩ := List.forall_mem_cons.mp hys
    rw [List.foldl_cons] at h ⊢
    obtain ⟨hsum, -⟩ := isFinite_of_foldl h
    have hweight := hy (isFinite_of_add hsum).2
    obtain ⟨hsum', hle'⟩ := ha.add_mono hb hweight hle hsum
    exact ih hsum' (hb.add hweight hsum) hle' hys h

end Number

namespace Proposal

/-- The area of a box is not below zero. -/
lemma isWeight_boxArea {ps : List Point} (h : (Outline.boxArea ps).isFinite = true) :
    Number.IsWeight (Outline.boxArea ps) := by
  have hextent : ∀ vs : List Float, (Outline.extent vs).isFinite = true →
      Number.IsWeight (Outline.extent vs) := by
    intro vs hfinite
    unfold Outline.extent at hfinite ⊢
    dsimp only at hfinite ⊢
    split at hfinite
    · next hpos =>
      rw [if_pos hpos]
      exact .of_pos hfinite hpos
    · next hpos =>
      rw [if_neg hpos]
      exact Number.isWeight_zero
  unfold Outline.boxArea at h ⊢
  split at h
  · next hnil =>
    rw [if_pos hnil]
    exact Number.isWeight_zero
  · next hcons =>
    rw [if_neg hcons]
    obtain ⟨hx, hy⟩ := Number.isFinite_of_mul h
    exact (hextent _ hx).mul (hextent _ hy) h

/-- What a shape counts is not below zero, unless it is not finite. -/
lemma isWeight_weight {s : Shape} (h : (weight s).isFinite = true) : Number.IsWeight (weight s) := by
  unfold weight at h ⊢
  split at h
  · next hpos =>
    rw [if_pos hpos]
    exact .of_pos h hpos
  · next hpos =>
    rw [if_neg hpos]
    exact isWeight_boxArea h

/-- The same holds of all that a list of shapes counts. -/
lemma isWeight_of_mem_map_weight {shapes : List Shape} {x : Float} (hx : x ∈ shapes.map weight)
    (h : x.isFinite = true) : Number.IsWeight x := by
  obtain ⟨s, -, rfl⟩ := List.mem_map.mp hx
  exact isWeight_weight h

/-- A score is not below zero, unless it is not finite. -/
lemma isWeight_score {c : Proposal} (h : c.score.isFinite = true) : Number.IsWeight c.score :=
  Number.isWeight_foldl Number.isWeight_neg_zero (fun _ => isWeight_of_mem_map_weight) h

/-- Some of the shapes to add count no more than all of them. -/
lemma value_total_le_value_score {c : Proposal} {shapes : List Shape}
    (hsub : shapes.Sublist c.additions) (h : c.score.isFinite = true) :
    Number.value (total (shapes.map weight)) ≤ Number.value c.score :=
  (Number.foldl_le_of_sublist (hsub.map weight) Number.isWeight_neg_zero Number.isWeight_neg_zero
    le_rfl (fun _ => isWeight_of_mem_map_weight) h).2

end Proposal

/-! ### The draw -/

namespace Generator

/-- The bits of the number that is drawn below one. -/
def drawn (g : Generator) : ℕ :=
  (((g.word.2.word.1.toUInt64 <<< 32) ||| g.word.1.toUInt64) >>> 11).toNat

/-- The largest number that is drawn. -/
def largest : Float := Number.nearest .positive (2 ^ 53 - 1) (-53)

lemma unit_fst (g : Generator) : g.unit.1 = Number.nearest .positive g.drawn (-53) := rfl

lemma drawn_lt (g : Generator) : g.drawn < 2 ^ 53 := by
  unfold drawn
  generalize (g.word.2.word.1.toUInt64 <<< 32) ||| g.word.1.toUInt64 = w
  have hw := w.toNat_lt
  rw [UInt64.toNat_shiftRight, Nat.shiftRight_eq_div_pow]
  change w.toNat / 2 ^ 11 < 2 ^ 53
  omega

/-- The bits are a number of 53 places behind the point. -/
lemma hasValue_nearest {n : ℕ} (hn : n < 2 ^ 53) :
    Number.HasValue (Number.nearest .positive n (-53)) (n / 2 ^ 53) := by
  have hval : (n / 2 ^ 53 : ℚ) = Number.withSign .positive (Number.scaled n (-53)) := by
    rw [Number.withSign, Number.scaled, zpow_neg, div_eq_mul_inv]
    norm_cast
  rw [hval]
  rcases Nat.eq_zero_or_pos n with rfl | hpos
  · rw [Number.withSign, Number.scaled, Nat.cast_zero, zero_mul]
    exact ⟨rfl, rfl⟩
  · exact Number.hasValue_nearest_of_pos hpos hn (by decide) (by decide)

end Generator

/-! ### The walk -/

namespace Selection

open Number (IsWeight HasValue Rounds)

/-- What is left of `rest` after each of the weights. -/
def remainders (rest : Float) : List Float → List Float
  | [] => []
  | w :: ws => (rest - w) :: remainders (rest - w) ws

/-- The weights use up `rest`: after one of them nothing is left. -/
def UsesUp (rest : Float) (ws : List Float) : Prop := ∃ r ∈ remainders rest ws, r ≤ 0

instance (rest : Float) (ws : List Float) : Decidable (UsesUp rest ws) :=
  inferInstanceAs (Decidable (∃ r ∈ remainders rest ws, r ≤ 0))

variable {rest rest' w : Float} {ws : List Float} {r r' : ℚ}

lemma not_usesUp_nil (rest : Float) : ¬ UsesUp rest [] := by
  rintro ⟨q, hq, -⟩
  exact List.not_mem_nil hq

lemma usesUp_cons : UsesUp rest (w :: ws) ↔ rest - w ≤ 0 ∨ UsesUp (rest - w) ws := by
  simp only [UsesUp, remainders, List.mem_cons, exists_eq_or_imp]

/-- A weight is subtracted from what is left with one rounding. -/
lemma exists_remainder (hr : HasValue rest r) (hnonneg : 0 ≤ r) (hw : IsWeight w) :
    ∃ q, Rounds (r - Number.value w) q ∧ HasValue (rest - w) q := by
  have hw0 := hw.nonneg
  exact hr.exists_sub hw.hasValue hw.hasValue.representable.neg hr.representable (by linarith)
    (by linarith)

/-- What uses up a number uses up every smaller one. -/
lemma UsesUp.of_le (hr : HasValue rest r) (hr' : HasValue rest' r') (hnonneg : 0 ≤ r)
    (hle : r ≤ r') (hws : ∀ w ∈ ws, IsWeight w) (h : UsesUp rest' ws) : UsesUp rest ws := by
  induction ws generalizing rest rest' r r' with
  | nil => exact absurd h (not_usesUp_nil rest')
  | cons w ws ih =>
    obtain ⟨hw, hws⟩ := List.forall_mem_cons.mp hws
    obtain ⟨q, hq, hval⟩ := exists_remainder hr hnonneg hw
    obtain ⟨q', hq', hval'⟩ := exists_remainder hr' (hnonneg.trans hle) hw
    have hqq : q ≤ q' := hq.mono hq' (sub_le_sub_right hle _)
    rw [usesUp_cons, hval.nonpos_iff]
    rw [usesUp_cons, hval'.nonpos_iff] at h
    rcases le_or_gt q 0 with hused | hleft
    · exact Or.inl hused
    · exact Or.inr (ih hval hval' hleft.le hqq hws (h.resolve_left (hleft.trans_le hqq).not_ge))

/-- Zero uses nothing up. -/
lemma pos_of_remainder_nonpos (hr : HasValue rest r) (hpos : 0 < r) (hw : IsWeight w)
    (h : rest - w ≤ 0) : 0 < w := by
  obtain ⟨q, hq, hval⟩ := exists_remainder hr hpos.le hw
  rw [hw.hasValue.pos_iff]
  refine hw.nonneg.lt_of_ne fun hzero => ?_
  rw [← hzero, sub_zero] at hq
  obtain rfl : q = r := hq.unique hr.representable.rounds
  exact (hval.nonpos_iff.mp h).not_gt hpos

/-- A walk stops at a weight.  It is above zero unless it is the first one and there is nothing to
use up, or the last one and something is left over. -/
lemma exists_walk (hr : HasValue rest r) (hnonneg : 0 ≤ r) (hws : ∀ v ∈ w :: ws, IsWeight v)
    (i : ℕ) :
    ∃ j v, walk rest i (w :: ws) = i + j ∧ (w :: ws)[j]? = some v ∧
      (0 < v ↔ (0 < r ∨ 0 < w) ∧
        (UsesUp rest (w :: ws) ∨ ∃ last ∈ (w :: ws).getLast?, 0 < last)) := by
  induction ws generalizing rest r w i with
  | nil =>
    have hw := (List.forall_mem_cons.mp hws).1
    refine ⟨0, w, ?_, rfl, ?_⟩
    · simp [walk]
    · rw [usesUp_cons, or_iff_left (not_usesUp_nil _)]
      simp only [List.getLast?_singleton, Option.mem_some_iff, exists_eq_left']
      constructor
      · exact fun h => ⟨Or.inr h, Or.inr h⟩
      · rintro ⟨hr0 | hw0, hused | hlast⟩
        · exact pos_of_remainder_nonpos hr hr0 hw hused
        · exact hlast
        · exact hw0
        · exact hlast
  | cons w' ws ih =>
    obtain ⟨hw, hws⟩ := List.forall_mem_cons.mp hws
    rw [walk, usesUp_cons, List.getLast?_cons_cons]
    by_cases hstop : rest - w ≤ 0
    · refine ⟨0, w, if_pos hstop, rfl, fun h => ⟨Or.inr h, Or.inl (Or.inl hstop)⟩, ?_⟩
      rintro ⟨hr0 | hw0, -⟩
      · exact pos_of_remainder_nonpos hr hr0 hw hstop
      · exact hw0
    · -- Something is left, so that the rest of the walk starts with something to use up.
      obtain ⟨q, hq, hval⟩ := exists_remainder hr hnonneg hw
      have hleft : 0 < q := not_le.mp (mt hval.nonpos_iff.mpr hstop)
      have hr0 : 0 < r := by
        have hw0 := hw.nonneg
        by_contra hneg
        exact hleft.not_ge (hq.nonpos (by linarith))
      obtain ⟨j, v, hwalk, hv, hiff⟩ := ih hval hleft.le hws (i + 1)
      refine ⟨j + 1, v, ?_, hv, ?_⟩
      · rw [if_neg hstop, hwalk]
        omega
      · rw [hiff, or_iff_right hstop]
        simp only [hleft, hr0, true_or, true_and]

/-- With a proper total, a weighted choice is a walk. -/
lemma weighted_eq_walk (hfinite : (total ws).isFinite = true) (hpos : 0 < total ws)
    (g : Generator) : (weighted ws g).1 = some (walk (g.unit.1 * total ws) 0 ws) := by
  have hne : ¬ ws.isEmpty = true := by
    intro hnil
    rw [List.isEmpty_iff.mp hnil] at hpos
    exact absurd hpos (by decide)
  have hle : ¬ total ws ≤ 0 := (Number.pos_iff_of_isFinite hfinite).mp hpos
  unfold weighted
  rw [if_neg hne]
  dsimp only
  rw [if_neg (by simp [hfinite, hle])]

/-! ### The pick -/

/-- The proposal that a weighted choice picks. -/
def pick (cs : List Proposal) (g : Generator) : Option Proposal :=
  (weighted (cs.map Proposal.score) g).1.bind fun i => cs[i]?

/-- Under a finite total, all scores are weights. -/
lemma isWeight_of_mem {cs : List Proposal}
    (hfinite : (total (cs.map Proposal.score)).isFinite = true) :
    ∀ w ∈ cs.map Proposal.score, IsWeight w := by
  intro w hw
  obtain ⟨c, -, rfl⟩ := List.mem_map.mp hw
  exact Proposal.isWeight_score ((Number.isFinite_of_foldl hfinite).2 _ hw)

section Pick

variable {cs : List Proposal} (hfinite : (total (cs.map Proposal.score)).isFinite = true)
  (hpos : 0 < total (cs.map Proposal.score))

include hfinite hpos

/-- What is drawn is a part of the total. -/
lemma exists_share {n : ℕ} (hn : n < 2 ^ 53) :
    ∃ r, 0 ≤ r ∧ Rounds (n / 2 ^ 53 * Number.value (total (cs.map Proposal.score))) r ∧
      HasValue (Number.nearest .positive n (-53) * total (cs.map Proposal.score)) r := by
  have htotal := Number.hasValue_value hfinite
  have hsum := htotal.pos_iff.mp hpos
  have hle : (n / 2 ^ 53 : ℚ) ≤ 1 := by
    rw [div_le_one (by positivity)]
    exact_mod_cast hn.le
  have hnonneg : 0 ≤ n / 2 ^ 53 * Number.value (total (cs.map Proposal.score)) := by positivity
  obtain ⟨r, hr, hval⟩ := (Generator.hasValue_nearest hn).exists_mul_of_le htotal
    Number.representable_zero htotal.representable hnonneg (mul_le_of_le_one_left hsum.le hle)
  exact ⟨r, hr.nonneg hnonneg, hr, hval⟩

/-- A weighted choice picks a proposal.  Its score is above zero unless the walk stops at once, with
nothing to use up, or goes to the end, with something left over. -/
lemma exists_pick (g : Generator) :
    ∃ c, pick cs g = some c ∧ (0 < c.score ↔
      (0 < g.unit.1 * total (cs.map Proposal.score) ∨ ∃ first ∈ cs.head?, 0 < first.score) ∧
      (UsesUp (g.unit.1 * total (cs.map Proposal.score)) (cs.map Proposal.score) ∨
        ∃ last ∈ cs.getLast?, 0 < last.score)) := by
  obtain ⟨r, hnonneg, -, hshare⟩ := exists_share hfinite hpos g.drawn_lt
  have hr : HasValue (g.unit.1 * total (cs.map Proposal.score)) r := hshare
  have hweights := isWeight_of_mem hfinite
  cases cs with
  | nil => exact absurd hpos (by decide)
  | cons first rest =>
    obtain ⟨j, v, hwalk, hv, hiff⟩ := exists_walk hr hnonneg hweights 0
    rw [← List.map_cons, Nat.zero_add] at hwalk
    rw [← List.map_cons, List.getElem?_map, Option.map_eq_some_iff] at hv
    rw [← List.map_cons, List.getLast?_map] at hiff
    obtain ⟨c, hc, rfl⟩ := hv
    refine ⟨c, ?_, ?_⟩
    · rw [pick, weighted_eq_walk hfinite hpos, hwalk]
      exact hc
    · rw [hiff, hr.pos_iff]
      simp

/-- Something with a score above zero is picked exactly under this condition. -/
lemma exists_worth_iff (g : Generator) :
    (∃ c, pick cs g = some c ∧ 0 < c.score) ↔
      (0 < g.unit.1 * total (cs.map Proposal.score) ∨ ∃ first ∈ cs.head?, 0 < first.score) ∧
      (UsesUp (g.unit.1 * total (cs.map Proposal.score)) (cs.map Proposal.score) ∨
        ∃ last ∈ cs.getLast?, 0 < last.score) := by
  obtain ⟨c, hc, hiff⟩ := exists_pick hfinite hpos g
  rw [hc, ← hiff]
  simp only [Option.some_inj, exists_eq_left']

/-- A draw of zero leaves nothing to use up. -/
lemma share_of_drawn_eq_zero {g : Generator} (hg : g.drawn = 0) :
    ¬ 0 < g.unit.1 * total (cs.map Proposal.score) := by
  obtain ⟨r, -, hr, hval⟩ := exists_share hfinite hpos (by decide : 0 < 2 ^ 53)
  rw [Nat.cast_zero, zero_div, zero_mul] at hr
  rw [Generator.unit_fst, hg, hval.pos_iff]
  exact (hr.nonpos le_rfl).not_gt

/-- What is used up with the largest draw is used up with every draw. -/
lemma usesUp_of_usesUp_largest
    (h : UsesUp (Generator.largest * total (cs.map Proposal.score)) (cs.map Proposal.score))
    (g : Generator) :
    UsesUp (g.unit.1 * total (cs.map Proposal.score)) (cs.map Proposal.score) := by
  obtain ⟨r, hnonneg, hr, hval⟩ := exists_share hfinite hpos g.drawn_lt
  obtain ⟨r', -, hr', hval'⟩ := exists_share hfinite hpos (by decide : 2 ^ 53 - 1 < 2 ^ 53)
  have hsum := (Number.hasValue_value hfinite).pos_iff.mp hpos
  have hdrawn : (g.drawn : ℚ) ≤ (2 ^ 53 - 1 : ℕ) := Nat.cast_le.mpr (Nat.le_pred_of_lt g.drawn_lt)
  have hle : r ≤ r' := hr.mono hr' (by gcongr)
  exact h.of_le hval hval' hnonneg hle (isWeight_of_mem hfinite)

end Pick

/-- Let the scores have a finite total above zero.  Then a weighted choice picks a proposal for
every draw.  Its score is above zero exactly if the number that was drawn, times the total, is above
zero or the first score is, and if this product is used up by the scores or the last score is above
zero.

So all picks have a score above zero exactly if the first proposal has one, and the scores use up
the largest product that can come up or the last proposal has a score above zero as well. -/
theorem pick_is_worth_something_iff {cs : List Proposal}
    (hfinite : (total (cs.map Proposal.score)).isFinite = true)
    (hpos : 0 < total (cs.map Proposal.score)) :
    (∀ g, ∃ c, pick cs g = some c ∧ (0 < c.score ↔
      (0 < g.unit.1 * total (cs.map Proposal.score) ∨ ∃ first ∈ cs.head?, 0 < first.score) ∧
      (UsesUp (g.unit.1 * total (cs.map Proposal.score)) (cs.map Proposal.score) ∨
        ∃ last ∈ cs.getLast?, 0 < last.score))) ∧
    ((∀ g, ∃ c, pick cs g = some c ∧ 0 < c.score) ↔
      (∃ first ∈ cs.head?, 0 < first.score) ∧
      (UsesUp (Generator.largest * total (cs.map Proposal.score)) (cs.map Proposal.score) ∨
        ∃ last ∈ cs.getLast?, 0 < last.score)) := by
  refine ⟨exists_pick hfinite hpos, ⟨fun hall => ⟨?_, ?_⟩, fun ⟨hfirst, hend⟩ g => ?_⟩⟩
  · have hzero : (⟨0, 1⟩ : Generator).drawn = 0 := by decide +kernel
    obtain ⟨hstart, -⟩ := (exists_worth_iff hfinite hpos ⟨0, 1⟩).mp (hall ⟨0, 1⟩)
    exact hstart.resolve_left (share_of_drawn_eq_zero hfinite hpos hzero)
  · obtain ⟨g, hg⟩ : ∃ g : Generator, g.drawn = 2 ^ 53 - 1 :=
      ⟨⟨0x7fffe0000000000, 14627225396769193985⟩, by decide +kernel⟩
    obtain ⟨-, hend⟩ := (exists_worth_iff hfinite hpos g).mp (hall g)
    rwa [Generator.unit_fst, hg] at hend
  · refine (exists_worth_iff hfinite hpos g).mpr ⟨Or.inr hfirst, ?_⟩
    exact hend.imp_left fun hused => usesUp_of_usesUp_largest hfinite hpos hused g

/-! ### Worthless picks -/

/-- The proposal of one outline of three or more vertices. -/
def outlining (p q r : Point) (more : List Point) : Proposal :=
  ⟨⟨1, [], []⟩, [], [⟨p :: q :: r :: more, .plain, Nat.le_add_left 3 more.length⟩], ⟨1, 0, 0⟩⟩

/-- A square of area one. -/
def square : Proposal := outlining ⟨0, 0⟩ ⟨1, 0⟩ ⟨1, 1⟩ [⟨0, 1⟩]

/-- An outline without area, and with a box without area. -/
def line : Proposal := outlining ⟨0, 0⟩ ⟨1, 0⟩ ⟨2, 0⟩ []

/-- A triangle whose area is the smallest double above zero. -/
def sliver : Proposal := outlining ⟨0, 0⟩ ⟨1, 0⟩ ⟨0, 1e-323⟩ []

/-- A triangle whose area is three quarters of the distance from one to the next double. -/
def shard : Proposal := outlining ⟨0, 0⟩ ⟨1, 0⟩ ⟨0, 3.3306690738754696e-16⟩ []

/-- The square is picked by every draw. -/
theorem pick_of_square_and_line :
    (total ([square, line].map Proposal.score)).isFinite = true ∧
    0 < total ([square, line].map Proposal.score) ∧
    ∀ g, ∃ c, pick [square, line] g = some c ∧ 0 < c.score := by
  have hfinite : (total ([square, line].map Proposal.score)).isFinite = true := by decide +kernel
  have hpos : 0 < total ([square, line].map Proposal.score) := by decide +kernel
  refine ⟨hfinite, hpos, (pick_is_worth_something_iff hfinite hpos).2.mpr ⟨?_, Or.inl ?_⟩⟩
  · exact ⟨square, rfl, by decide +kernel⟩
  · decide +kernel

/-- The total of the scores is finite and above zero, and what is picked has no score above zero. -/
def PicksWorthless (cs : List Proposal) (g : Generator) : Prop :=
  (total (cs.map Proposal.score)).isFinite = true ∧ 0 < total (cs.map Proposal.score) ∧
    ∃ c ∈ pick cs g, ¬ 0 < c.score

instance (cs : List Proposal) (g : Generator) : Decidable (PicksWorthless cs g) :=
  inferInstanceAs (Decidable (_ ∧ _ ∧ ∃ c ∈ pick cs g, ¬ 0 < c.score))

/-- The line is picked, though its score is zero: by a product that is rounded to zero, by a draw of
zero, and by a remainder that is due to rounding. -/
theorem line_is_picked :
    PicksWorthless [line, sliver] (.ofSeed 1) ∧
    PicksWorthless [line, square] ⟨0, 1⟩ ∧
    PicksWorthless (square :: List.replicate 5 shard ++ [line])
      ⟨0x7fffe0000000000, 14627225396769193985⟩ := by
  decide +kernel

end Selection

end ShapeGrammar
