import ShapeGrammar.Proofs.Subsets

/-!
# Walks that are restarted and copied

Any number of walks through the subsets of one list can be under way at a time: each can be asked
for its next subset, sent back to its beginning, or copied as it stands.  `Source` says what such
commands do to things of any kind that hand out items one by one.

A walk that has been sent back is as good as new (`Subsets.restart_after_ofSize`), and a copy of it
is a walk that has gone as many steps.  So a family of walks answers as counters do that point into one
list, the list of all subsets (`Source.answers_map`).

A step moves the rightmost position that has room by one and sets the positions behind it right
after it (`Subsets.successor_eq_of_hasRoom`); where none has room, the walk is over.
-/

namespace ShapeGrammar

/-! ### Families of things that hand out items -/

/-- A way to hand out items one by one and to go back to the beginning. -/
structure Source (σ β : Type) where
  next : σ → Option β × σ
  restart : σ → σ

namespace Source

/-- What can be done with the members of a family, which are numbered from zero. -/
inductive Command where
  | next (i : ℕ)
  | restart (i : ℕ)
  /-- Put a copy behind all others. -/
  | copy (i : ℕ)

variable {σ τ β : Type}

/-- The family after a command. -/
def perform (w : Source σ β) (family : List σ) : Command → List σ
  | .next i => family.modify i fun s => (w.next s).2
  | .restart i => family.modify i w.restart
  | .copy i => family ++ family[i]?.toList

/-- The family after commands one after the other. -/
def after (w : Source σ β) (family : List σ) (cs : List Command) : List σ :=
  cs.foldl w.perform family

/-- The item that a command is answered with. -/
def answer (w : Source σ β) (family : List σ) : Command → Option β
  | .next i => family[i]?.bind fun s => (w.next s).1
  | _ => none

/-- The answers to commands one after the other. -/
def answers (w : Source σ β) (family : List σ) : List Command → List (Option β)
  | [] => []
  | c :: cs => w.answer family c :: w.answers (w.perform family c) cs

/-- Counters that point into a list. -/
def counting (xs : List β) : Source ℕ β where
  next n := (xs[n]?, n + 1)
  restart _ := 0

/-- To change the images is to take the images of what was changed. -/
lemma modify_map (f : τ → σ) {change : τ → τ} {change' : σ → σ}
    (h : ∀ t, change' (f t) = f (change t)) (family : List τ) (i : ℕ) :
    (family.map f).modify i change' = (family.modify i change).map f := by
  refine List.ext_getElem? fun j => ?_
  rw [List.getElem?_modify, List.getElem?_map, List.getElem?_map, List.getElem?_modify]
  by_cases hj : i = j
  · subst hj
    cases family[i]? with
    | none => rfl
    | some t => simp [h]
  · simp [hj]

section Map

variable {w : Source σ β} {v : Source τ β} {f : τ → σ}
  (hnext : ∀ t, w.next (f t) = ((v.next t).1, f (v.next t).2))
  (hrestart : ∀ t, w.restart (f t) = f (v.restart t))

include hnext

lemma answer_map (family : List τ) (c : Command) :
    w.answer (family.map f) c = v.answer family c := by
  cases c with
  | next i =>
    rw [answer, answer, List.getElem?_map, Option.bind_map]
    exact congrArg _ (funext fun t => congrArg Prod.fst (hnext t))
  | _ => rfl

include hrestart

lemma perform_map (family : List τ) (c : Command) :
    w.perform (family.map f) c = (v.perform family c).map f := by
  cases c with
  | next i => exact modify_map f (fun t => congrArg Prod.snd (hnext t)) family i
  | restart i => exact modify_map f hrestart family i
  | copy i => rw [perform, perform, List.getElem?_map, Option.toList_map, List.map_append]

lemma after_map (family : List τ) (cs : List Command) :
    w.after (family.map f) cs = (v.after family cs).map f := by
  induction cs generalizing family with
  | nil => rfl
  | cons c cs ih =>
    rw [after, List.foldl_cons, perform_map hnext hrestart]
    exact ih (v.perform family c)

/-- If things hand out what other things hand out, a family of the former answers as the latter
do. -/
lemma answers_map (family : List τ) (cs : List Command) :
    w.answers (family.map f) cs = v.answers family cs := by
  induction cs generalizing family with
  | nil => rfl
  | cons c cs ih => rw [answers, answers, answer_map hnext, perform_map hnext hrestart, ih]

end Map

end Source

namespace Subsets

variable {α : Type}

/-! ### The step of a walk -/

/-- The position at index `i` of the list has room to move: it and those after it do not yet take up
the last places below `n`. -/
def HasRoom (n : ℕ) (is : List ℕ) (i : ℕ) : Prop := ∃ p, is[i]? = some p ∧ p < n - is.length + i

section Successor

variable {n x : ℕ} {is js : List ℕ}

lemma not_hasRoom_nil (n i : ℕ) : ¬ HasRoom n [] i := by
  rintro ⟨p, hp, -⟩
  cases hp

/-- The first position has room if it can move on with those after it close behind. -/
lemma hasRoom_cons_zero (h : is.length < n) :
    HasRoom n (x :: is) 0 ↔ x + is.length + 1 < n := by
  simp only [HasRoom, List.getElem?_cons_zero, Option.some_inj, exists_eq_left', List.length_cons]
  omega

lemma hasRoom_cons_succ (h : is.length < n) (i : ℕ) :
    HasRoom n (x :: is) (i + 1) ↔ HasRoom n is i := by
  have hplaces : n - (is.length + 1) + (i + 1) = n - is.length + i := by omega
  simp only [HasRoom, List.getElem?_cons_succ, List.length_cons, hplaces]

/-- There is no successor exactly if no position has room. -/
lemma successor_eq_none_iff (h : is.length ≤ n) :
    successor n is = none ↔ ∀ i, ¬ HasRoom n is i := by
  induction is with
  | nil => exact iff_of_true rfl (not_hasRoom_nil n)
  | cons x is ih =>
    have hlater : (∀ i, ¬ HasRoom n (x :: is) i) ↔
        ¬ x + is.length + 1 < n ∧ ∀ i, ¬ HasRoom n is i := by
      rw [← hasRoom_cons_zero h, ← forall_congr' fun i => not_congr (hasRoom_cons_succ (x := x) h i)]
      exact ⟨fun hno => ⟨hno 0, fun i => hno (i + 1)⟩, fun hno i => Nat.casesOn i hno.1 hno.2⟩
    rw [hlater, ← ih (Nat.le_of_succ_le h), successor]
    cases successor n is with
    | some ks => simp
    | none => simp

/-- The successor leaves the positions before the last one with room as they are, moves that one by
one place, and puts those after it close behind. -/
lemma successor_eq_of_hasRoom {i p : ℕ} (h : is.length ≤ n) (hp : is[i]? = some p)
    (hroom : HasRoom n is i) (hlast : ∀ j, i < j → ¬ HasRoom n is j) :
    successor n is = some (is.take i ++ run (p + 1) (is.length - i)) := by
  induction is generalizing i with
  | nil => exact absurd hroom (not_hasRoom_nil n i)
  | cons x is ih =>
    have hle : is.length ≤ n := Nat.le_of_succ_le h
    rw [successor]
    cases i with
    | zero =>
      obtain rfl : x = p := Option.some.inj hp
      have hnone : successor n is = none := by
        rw [successor_eq_none_iff hle]
        exact fun j hj => hlast (j + 1) j.succ_pos ((hasRoom_cons_succ h j).mpr hj)
      rw [hnone]
      exact if_pos ((hasRoom_cons_zero h).mp hroom)
    | succ i =>
      have hsome := ih hle hp ((hasRoom_cons_succ h i).mp hroom) fun j hj hroom' =>
        hlast (j + 1) (Nat.succ_lt_succ hj) ((hasRoom_cons_succ h j).mpr hroom')
      rw [hsome, List.take_succ_cons, List.length_cons, Nat.succ_sub_succ]
      rfl

end Successor

/-- From these positions a step moves the last one that has room, and there is a step unless none
has. -/
structure MovesLast (n : ℕ) (is : List ℕ) : Prop where
  none_iff : successor n is = none ↔ ∀ i, ¬ HasRoom n is i
  eq_some : ∀ i p, is[i]? = some p → HasRoom n is i → (∀ j, i < j → ¬ HasRoom n is j) →
    successor n is = some (is.take i ++ run (p + 1) (is.length - i))

lemma movesLast {n : ℕ} {is : List ℕ} (h : is.length ≤ n) : MovesLast n is :=
  ⟨successor_eq_none_iff h, fun _ _ hp => successor_eq_of_hasRoom h hp⟩

/-! ### Families of walks -/

/-- Walks hand out subsets. -/
def walking : Source (Subsets α) (List α) := ⟨next, restart⟩

section Family

variable (items : List α) (k : ℕ)

/-- A walk that has gone `j` steps hands out what a counter at `j` points to. -/
lemma next_after_ofSize (j : ℕ) :
    (walking (α := α)).next ((ofSize items k).after j) =
      (((Source.counting (choose k items)).next j).1,
        (ofSize items k).after ((Source.counting (choose k items)).next j).2) :=
  Prod.ext (after_ofSize items k j).1 (after_after _ j 1)

/-- The walks of a family are the first one as it was new, each some steps further on. -/
lemma after_walking (cs : List Source.Command) :
    walking.after [ofSize items k] cs =
      ((Source.counting (choose k items)).after [0] cs).map (ofSize items k).after :=
  Source.after_map (next_after_ofSize items k) (restart_after_ofSize items k) [0] cs

/-- The sublists of `k` of the items are listed once each, in the lexicographic order of their
positions, and their number is a binomial coefficient.  Let one walk through them be given any
commands, and its copies, and theirs.  They answer as counters into this list do: a counter that is
asked moves on by one, and gives nothing behind the end; a counter that is sent back is at zero; and
a copy is at the same place, whatever becomes of the other one.  At any time, to collect what is
left of a walk is to go through the list from its counter on.

As long as a walk has not ended, there are at least `k` items, all its `k` positions are places of
items, and a step moves the last position with room. -/
theorem walks_hand_out_all_subsets :
    ListsSubsets k items (choose k items) ∧
    (choose k items).length = items.length.choose k ∧
    (∀ cs, walking.answers [ofSize items k] cs =
        (Source.counting (choose k items)).answers [0] cs ∧
      (walking.after [ofSize items k] cs).map (fun s => s.remaining.1) =
        ((Source.counting (choose k items)).after [0] cs).map fun j => (choose k items).drop j) ∧
    ∀ cs, ∀ s ∈ walking.after [ofSize items k] cs, s.done = false →
      s.positions.Pairwise (· < ·) ∧ s.positions.length = k ∧ k ≤ items.length ∧
      (∀ i ∈ s.positions, i < items.length) ∧ MovesLast items.length s.positions := by
  refine ⟨listsSubsets_choose k items, length_choose k items, fun cs => ⟨?_, ?_⟩, ?_⟩
  · exact Source.answers_map (f := (ofSize items k).after) (next_after_ofSize items k)
      (restart_after_ofSize items k) [0] cs
  · rw [after_walking, List.map_map]
    exact List.map_congr_left fun j _ => remaining_after_ofSize items k j
  · intro cs s hs hdone
    rw [after_walking] at hs
    obtain ⟨j, -, rfl⟩ := List.mem_map.mp hs
    have hplaces := (after_ofSize items k j).2 hdone
    obtain ⟨hincreasing, hlength, hlt⟩ := mem_choose_range_iff.mp hplaces
    have hle : k ≤ items.length := by
      have hsub := (mem_choose_iff.mp hplaces).1.length_le
      rwa [hlength, List.length_range] at hsub
    exact ⟨hincreasing, hlength, hle, hlt, movesLast (hlength.trans_le hle)⟩

end Family

example : walking.answers [ofSize [1, 2, 3] 2]
      [.next 0, .copy 0, .next 0, .next 0, .next 0, .next 1, .restart 0, .next 0] =
    [some [1, 2], none, some [1, 3], some [2, 3], none, some [1, 3], none, some [1, 2]] := by
  decide

end Subsets

end ShapeGrammar
