import Mathlib
import ShapeGrammar.Subsets

/-!
# Subsets in lexicographic order

`choose k xs` is what `ListsSubsets` describes: one sublist of `xs` for each strictly increasing
list of `k` positions, in the lexicographic order of these lists.

`Subsets` walks through the same lists.  `Subsets.Follows` says which lists of positions a walk goes
on to from its current one, one successor at a time; from the first `k` positions on these are all
others (`Subsets.exists_follows`).
-/

namespace ShapeGrammar

variable {α : Type}

/-! ### All subsets -/

/-- The sublists of `k` elements are all listed. -/
lemma mem_choose_iff {k : ℕ} {xs ys : List α} :
    ys ∈ choose k xs ↔ ys.Sublist xs ∧ ys.length = k := by
  fun_induction choose k xs generalizing ys with
  | case1 xs =>
    rw [List.mem_singleton, List.length_eq_zero_iff]
    exact ⟨fun h => ⟨h ▸ List.nil_sublist xs, h⟩, And.right⟩
  | case2 k =>
    rw [List.sublist_nil]
    refine ⟨fun h => absurd h List.not_mem_nil, ?_⟩
    rintro ⟨rfl, hlen⟩
    exact absurd hlen.symm (Nat.succ_ne_zero k)
  | case3 k x xs ih₁ ih₂ =>
    rw [List.mem_append, List.mem_map, List.sublist_cons_iff, ih₂]
    constructor
    · rintro (⟨zs, hzs, rfl⟩ | ⟨hsub, hlen⟩)
      · obtain ⟨hsub, hlen⟩ := ih₁.mp hzs
        exact ⟨Or.inr ⟨zs, rfl, hsub⟩, congrArg Nat.succ hlen⟩
      · exact ⟨Or.inl hsub, hlen⟩
    · rintro ⟨hsub | ⟨zs, rfl, hsub⟩, hlen⟩
      · exact Or.inr ⟨hsub, hlen⟩
      · exact Or.inl ⟨zs, ih₁.mpr ⟨hsub, Nat.succ.inj hlen⟩, rfl⟩

/-- The items of a list at some positions. -/
def itemsAt (xs : List α) (positions : List ℕ) : List α := positions.filterMap fun i => xs[i]?

/-- The lists are the subsets of `k` items of `xs`: each is taken from strictly increasing
positions, they come in the lexicographic order of their positions, and all positions occur. -/
def ListsSubsets (k : ℕ) (xs : List α) (subsets : List (List α)) : Prop :=
  ∃ positions : List (List ℕ), subsets = positions.map (itemsAt xs) ∧
    positions.Pairwise (· < ·) ∧
    ∀ is, is ∈ positions ↔ is.Pairwise (· < ·) ∧ is.length = k ∧ ∀ i ∈ is, i < xs.length

/-- Subsets of images are images of subsets. -/
lemma choose_map {β : Type} (f : α → β) (k : ℕ) (xs : List α) :
    choose k (xs.map f) = (choose k xs).map (List.map f) := by
  fun_induction choose k xs with
  | case1 xs =>
    rw [choose]
    rfl
  | case2 k => rfl
  | case3 k x xs ih₁ ih₂ =>
    rw [List.map_cons, choose, ih₁, ih₂, List.map_append, List.map_map, List.map_map]
    rfl

/-- Subsets of an increasing list come in lexicographic order. -/
lemma pairwise_choose {k : ℕ} {xs : List ℕ} (h : xs.Pairwise (· < ·)) :
    (choose k xs).Pairwise (· < ·) := by
  fun_induction choose k xs with
  | case1 xs => exact List.pairwise_singleton _ _
  | case2 k => exact List.Pairwise.nil
  | case3 k x xs ih₁ ih₂ =>
    obtain ⟨hx, hxs⟩ := List.pairwise_cons.mp h
    rw [List.pairwise_append, List.pairwise_map]
    refine ⟨(ih₁ hxs).imp fun hlt => List.cons_lt_cons_iff.mpr (Or.inr ⟨rfl, hlt⟩), ih₂ hxs, ?_⟩
    -- A subset with the first item comes before one without it.
    intro ys hys zs hzs
    obtain ⟨ys, -, rfl⟩ := List.mem_map.mp hys
    obtain ⟨hsub, hlength⟩ := mem_choose_iff.mp hzs
    obtain ⟨z, zs, rfl⟩ := List.exists_cons_of_length_eq_add_one hlength
    exact List.cons_lt_cons_iff.mpr (Or.inl (hx z (hsub.subset List.mem_cons_self)))

/-- The subsets of `k` of the positions below `n`. -/
lemma mem_choose_range_iff {k n : ℕ} {is : List ℕ} :
    is ∈ choose k (List.range n) ↔ is.Pairwise (· < ·) ∧ is.length = k ∧ ∀ i ∈ is, i < n := by
  rw [mem_choose_iff]
  constructor
  · rintro ⟨hsub, hlength⟩
    exact ⟨List.pairwise_lt_range.sublist hsub, hlength,
      fun i hi => List.mem_range.mp (hsub.subset hi)⟩
  · rintro ⟨hincreasing, hlength, hlt⟩
    refine ⟨?_, hlength⟩
    have hnodup : is.Nodup := hincreasing.imp Nat.ne_of_lt
    have hsub : is ⊆ List.range n := fun i hi => List.mem_range.mpr (hlt i hi)
    exact List.sublist_of_subperm_of_pairwise (hnodup.subperm hsub) hincreasing
      List.pairwise_lt_range

/-- The subsets of a list are the items at the subsets of its positions. -/
lemma choose_eq_map_itemsAt (k : ℕ) (xs : List α) :
    choose k xs = (choose k (List.range xs.length)).map (itemsAt xs) := by
  have hitems : ∀ is : List (Fin xs.length), itemsAt xs (is.map Fin.val) = is.map xs.get := by
    intro is
    rw [itemsAt, List.filterMap_map, ← List.filterMap_eq_map]
    congr 1
    funext i
    exact List.getElem?_eq_getElem i.isLt
  conv_lhs => rw [← List.map_get_finRange xs]
  rw [← List.map_coe_finRange_eq_range, choose_map, choose_map, List.map_map]
  exact List.map_congr_left fun is _ => (hitems is).symm

lemma listsSubsets_choose (k : ℕ) (xs : List α) : ListsSubsets k xs (choose k xs) :=
  ⟨choose k (List.range xs.length), choose_eq_map_itemsAt k xs,
    pairwise_choose List.pairwise_lt_range, fun _ => mem_choose_range_iff⟩

/-- The number of subsets is a binomial coefficient. -/
lemma length_choose (k : ℕ) (xs : List α) : (choose k xs).length = xs.length.choose k := by
  fun_induction choose k xs with
  | case1 xs => exact (Nat.choose_zero_right _).symm
  | case2 k => exact (Nat.choose_zero_succ k).symm
  | case3 k x xs ih₁ ih₂ =>
    rw [List.length_append, List.length_map, List.length_cons, ih₁, ih₂, Nat.choose_succ_succ]

lemma choose_eq_nil {k : ℕ} {xs : List α} (h : xs.length < k) : choose k xs = [] := by
  rw [List.eq_nil_iff_forall_not_mem]
  intro ys hys
  obtain ⟨hsub, hlength⟩ := mem_choose_iff.mp hys
  exact absurd hsub.length_le (by omega)

/-! ### The walk -/

namespace Subsets

/-- From the first list of positions below `n`, a walk goes on to those of the second argument, one
after the other, and then ends. -/
inductive Follows (n : ℕ) : List ℕ → List (List ℕ) → Prop
  | last {is : List ℕ} (h : successor n is = none) : Follows n is []
  | step {is js : List ℕ} {later : List (List ℕ)} (h : successor n is = some js)
      (hlater : Follows n js later) : Follows n is (js :: later)

@[simp] lemma length_run (i k : ℕ) : (run i k).length = k := by
  rw [run, List.length_map, List.length_range]

lemma run_succ (i k : ℕ) : run i (k + 1) = i :: run (i + 1) k := by
  rw [run, List.range_succ_eq_map, List.map_cons, List.map_map, run]
  congr 1
  refine List.map_congr_left fun j _ => ?_
  change i + (j + 1) = i + 1 + j
  omega

/-- A successor has as many positions. -/
lemma length_successor {n : ℕ} {is js : List ℕ} (h : successor n is = some js) :
    js.length = is.length := by
  fun_induction successor n is generalizing js with
  | case1 => cases h
  | case2 i is ks hks ih =>
    obtain rfl := Option.some.inj h
    exact congrArg Nat.succ (ih hks)
  | case3 i is hnone hroom ih =>
    obtain rfl := Option.some.inj h
    exact length_run _ _
  | case4 i is hnone hroom ih => cases h

/-- With another position in front, a walk goes on in the same way until there is no successor any
more.  Then the front position moves, if there is room. -/
lemma Follows.cons {n i : ℕ} {is : List ℕ} {later more : List (List ℕ)} (h : Follows n is later)
    (hroom : i + is.length + 1 < n → ∃ rest, more = run (i + 1) (is.length + 1) :: rest ∧
      Follows n (run (i + 1) (is.length + 1)) rest)
    (hfull : ¬ i + is.length + 1 < n → more = []) :
    Follows n (i :: is) (later.map (i :: ·) ++ more) := by
  induction h with
  | @last is hnone =>
    have hstep : successor n (i :: is) =
        if i + is.length + 1 < n then some (run (i + 1) (is.length + 1)) else none := by
      rw [successor, hnone]
    rw [List.map_nil, List.nil_append]
    by_cases hlt : i + is.length + 1 < n
    · obtain ⟨rest, rfl, hrest⟩ := hroom hlt
      exact .step (hstep.trans (if_pos hlt)) hrest
    · rw [hfull hlt]
      exact .last (hstep.trans (if_neg hlt))
  | @step is js later hsome hlater ih =>
    have hstep : successor n (i :: is) = some (i :: js) := by
      rw [successor, hsome]
    rw [← length_successor hsome] at hroom hfull
    exact .step hstep (ih hroom hfull)

/-- From the first `k` of `d` positions on, a walk goes through all other subsets of `k` of them. -/
lemma exists_follows {k d : ℕ} (hk : k ≤ d) (i : ℕ) :
    ∃ later, choose k (List.range' i d) = run i k :: later ∧ Follows (i + d) (run i k) later := by
  induction d generalizing k i with
  | zero =>
    obtain rfl := Nat.le_zero.mp hk
    exact ⟨[], rfl, .last rfl⟩
  | succ d ih =>
    cases k with
    | zero => exact ⟨[], rfl, .last rfl⟩
    | succ k =>
      obtain ⟨later, hchoose, hlater⟩ := ih (Nat.le_of_succ_le_succ hk) (i + 1)
      have hend : i + 1 + d = i + (d + 1) := by omega
      rw [hend] at hlater
      refine ⟨later.map (i :: ·) ++ choose (k + 1) (List.range' (i + 1) d), ?_, ?_⟩
      · rw [List.range'_succ, choose, hchoose, run_succ]
        rfl
      · rw [run_succ]
        refine hlater.cons ?_ ?_ <;> rw [length_run]
        · intro hroom
          have hrest := ih (k := k + 1) (by omega) (i + 1)
          rwa [hend] at hrest
        · intro hfull
          refine choose_eq_nil ?_
          rw [List.length_range']
          omega

/-! ### The states of a walk -/

/-- The walk after some more steps. -/
def after (s : Subsets α) : ℕ → Subsets α
  | 0 => s
  | j + 1 => s.next.2.after j

lemma after_after (s : Subsets α) (i j : ℕ) : (s.after i).after j = s.after (i + j) := by
  induction i generalizing s with
  | zero => rw [after, Nat.zero_add]
  | succ i ih => rw [after, ih, Nat.succ_add, after]

/-- A step changes neither the items nor the number of positions, and so not the beginning. -/
lemma restart_next (s : Subsets α) : s.next.2.restart = s.restart := by
  unfold next
  split
  · rfl
  · split
    · rfl
    · split
      · next js hsome =>
        simp only [restart, length_successor hsome]
      · rfl

lemma restart_after (s : Subsets α) (j : ℕ) : (s.after j).restart = s.restart := by
  induction j generalizing s with
  | zero => rfl
  | succ j ih => exact (ih s.next.2).trans s.restart_next

/-- A walk that is sent back is as good as new. -/
lemma restart_after_ofSize (items : List α) (k j : ℕ) :
    ((ofSize items k).after j).restart = ofSize items k := by
  have hlength : (ofSize items k).positions.length = k := List.length_range
  rw [restart_after, restart, hlength]
  rfl

/-- The walk through `items` that has just handed out the subset at these positions. -/
def standing (items : List α) (is : List ℕ) : Subsets α := ⟨items, is, true, false⟩

lemma next_of_done {s : Subsets α} (h : s.done = true) : s.next = (none, s) := by
  rw [next, if_pos h]

/-- A walk that has ended stays at its end. -/
lemma after_of_done {s : Subsets α} (h : s.done = true) (j : ℕ) : s.after j = s := by
  induction j with
  | zero => rfl
  | succ j ih => rw [after, next_of_done h, ih]

/-- The first step does not move. -/
lemma next_ofSize {items : List α} {k : ℕ} (hk : k ≤ items.length) :
    (ofSize items k).next = (some (itemsAt items (run 0 k)), standing items (run 0 k)) := by
  have hdone : decide (items.length < k) = false := decide_eq_false (Nat.not_lt.mpr hk)
  have hrun : List.range k = run 0 k := by simp [run]
  simp only [next, ofSize, hdone, Bool.false_eq_true, if_false, Bool.not_false, if_true, hrun]
  rfl

section Standing

variable {items : List α} {is js : List ℕ}

lemma next_standing_of_eq_some (h : successor items.length is = some js) :
    (standing items is).next = (some (itemsAt items js), standing items js) := by
  simp only [next, standing, h, Bool.false_eq_true, if_false, Bool.not_true]
  rfl

lemma next_standing_of_eq_none (h : successor items.length is = none) :
    (standing items is).next = (none, { standing items is with done := true }) := by
  simp only [next, standing, h, Bool.false_eq_true, if_false, Bool.not_true]

/-- A walk hands out the subsets at all positions that it goes on to.  As long as it has not ended,
it stands at one of them. -/
lemma Follows.after_standing {later : List (List ℕ)} (h : Follows items.length is later) (j : ℕ) :
    ((standing items is).after j).next.1 = (later.map (itemsAt items))[j]? ∧
      (((standing items is).after j).done = false →
        ((standing items is).after j).positions ∈ is :: later) := by
  induction h generalizing j with
  | @last is hnone =>
    have hnext := next_standing_of_eq_none hnone
    cases j with
    | zero => exact ⟨congrArg Prod.fst hnext, fun _ => List.mem_singleton.mpr rfl⟩
    | succ j =>
      rw [after, hnext, after_of_done rfl, next_of_done rfl]
      exact ⟨rfl, fun h => absurd h.symm Bool.false_ne_true⟩
  | @step is js later hsome hlater ih =>
    have hnext := next_standing_of_eq_some hsome
    cases j with
    | zero => exact ⟨congrArg Prod.fst hnext, fun _ => List.mem_cons_self⟩
    | succ j =>
      obtain ⟨hanswer, hplace⟩ := ih j
      rw [after, hnext]
      exact ⟨hanswer, fun h => List.mem_cons_of_mem _ (hplace h)⟩

end Standing

/-- The walk from its beginning on hands out all subsets, in lexicographic order, and nothing after
them.  As long as it has not ended, its positions are those of a subset. -/
lemma after_ofSize (items : List α) (k j : ℕ) :
    ((ofSize items k).after j).next.1 = (choose k items)[j]? ∧
      (((ofSize items k).after j).done = false →
        ((ofSize items k).after j).positions ∈ choose k (List.range items.length)) := by
  rcases Nat.lt_or_ge items.length k with hlt | hge
  · have hdone : (ofSize items k).done = true := decide_eq_true hlt
    rw [after_of_done hdone, next_of_done hdone, choose_eq_nil hlt, hdone]
    exact ⟨rfl, fun h => absurd h.symm Bool.false_ne_true⟩
  · obtain ⟨later, hchoose, hlater⟩ := exists_follows hge 0
    rw [← List.range_eq_range'] at hchoose
    rw [Nat.zero_add] at hlater
    have hnext := next_ofSize hge
    rw [choose_eq_map_itemsAt, hchoose, List.map_cons]
    cases j with
    | zero =>
      refine ⟨congrArg Prod.fst hnext, fun _ => List.mem_cons.mpr (Or.inl ?_)⟩
      simp [after, ofSize, run]
    | succ j =>
      rw [after, hnext]
      exact hlater.after_standing j

/-- Collecting goes on to the end of what a walk hands out. -/
lemma collect_fst {s : Subsets α} {subsets : List (List α)} {fuel : ℕ}
    (h : ∀ j, (s.after j).next.1 = subsets[j]?) (hfuel : subsets.length < fuel) :
    (collect fuel s).1 = subsets := by
  induction subsets generalizing s fuel with
  | nil =>
    obtain ⟨fuel, rfl⟩ := Nat.exists_eq_add_one_of_ne_zero (Nat.ne_zero_of_lt hfuel)
    have hnext : s.next.1 = none := h 0
    rw [collect]
    split
    · rfl
    · next heq => simp [heq] at hnext
  | cons ys subsets ih =>
    obtain ⟨fuel, rfl⟩ := Nat.exists_eq_add_one_of_ne_zero (Nat.ne_zero_of_lt hfuel)
    have hnext : s.next.1 = some ys := h 0
    rw [collect]
    split
    · next heq => simp [heq] at hnext
    · next zs s' heq =>
      have hrest : ∀ j, (s'.after j).next.1 = subsets[j]? := fun j => by
        have hj := h (j + 1)
        rwa [after, heq] at hj
      rw [heq] at hnext
      obtain rfl := Option.some.inj hnext
      exact congrArg (zs :: ·) (ih hrest (Nat.lt_of_succ_lt_succ hfuel))

/-- Collecting after some steps gives the subsets that they have left. -/
lemma remaining_after_ofSize (xs : List α) (k j : ℕ) :
    ((ofSize xs k).after j).remaining.1 = (choose k xs).drop j := by
  have hitems : ((ofSize xs k).after j).items = xs :=
    congrArg Subsets.items (restart_after_ofSize xs k j)
  rw [remaining, hitems]
  refine collect_fst (fun i => ?_) ?_
  · rw [after_after, List.getElem?_drop]
    exact (after_ofSize xs k (j + i)).1
  · have hle := Nat.choose_le_two_pow xs.length k
    rw [List.length_drop, length_choose, Nat.shiftLeft_eq, Nat.one_mul]
    omega

/-- The walk from its beginning hands out all subsets, in lexicographic order. -/
lemma remaining_ofSize (xs : List α) (k : ℕ) : (ofSize xs k).remaining.1 = choose k xs :=
  remaining_after_ofSize xs k 0

example : (ofSize [1, 2, 3, 4] 2).remaining.1 =
    [[1, 2], [1, 3], [1, 4], [2, 3], [2, 4], [3, 4]] := by decide

end Subsets

end ShapeGrammar
