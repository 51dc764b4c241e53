import Mathlib.Data.List.InsertIdx
import Mathlib.Data.List.Nodup
import Mathlib.Tactic.Lemma
import ShapeGrammar.Store

/-!
# What an insertion does to a store

A store keeps its polygons twice, in painter's order and by key, and counts the numbers it has
handed out.  `Store.Consistent` says that the three agree.  `Store.Extends s new s'` says that `s'`
is `s` with the polygons `new` and nothing else: the list, the index and the counter have all gained
exactly these.

An insertion is refused and leaves the store as it is, or it extends the store by one polygon
(`Store.insert_cases`, `Store.extends_push`).  Extensions compose, so that a list of insertions is
one extension, and they keep a consistent store consistent.
-/

namespace ShapeGrammar

/-- Bisection does not leave the interval it was started on. -/
lemma bisect_le {α : Type} (p : α → Bool) (xs : Array α) (lo hi : Nat) (h : hi ≤ xs.size)
    (hle : lo ≤ hi) : bisect p xs lo hi h ≤ hi := by
  fun_induction bisect p xs lo hi h with
  | case1 lo hi h hlt mid hmid hsize hp ih => exact ih (by omega)
  | case2 lo hi h hlt mid hmid hsize hp ih => exact Nat.le_trans (ih (by omega)) (by omega)
  | case3 lo hi h hlt => exact hle

/-! ### Shapes of one key -/

namespace Shape

/-- The shapes of a list that have another key than all shapes before them. -/
def firstOfEachKey : List Shape → List Shape
  | [] => []
  | shape :: shapes => shape :: (firstOfEachKey shapes).filter fun s => s.key ≠ shape.key

/-- Whole classes of keys can be left out before or afterwards. -/
lemma firstOfEachKey_filter (p : Key → Bool) (shapes : List Shape) :
    firstOfEachKey (shapes.filter fun s => p s.key) =
      (firstOfEachKey shapes).filter fun s => p s.key := by
  induction shapes with
  | nil => rfl
  | cons shape shapes ih =>
    rw [firstOfEachKey]
    by_cases hp : p shape.key = true
    · rw [List.filter_cons, if_pos hp, List.filter_cons, if_pos hp, firstOfEachKey, ih,
        List.filter_comm]
    · rw [List.filter_cons, if_neg hp, List.filter_cons, if_neg hp, ih, List.filter_filter]
      refine List.filter_congr fun s _ => ?_
      rw [Bool.eq_self_and, decide_eq_true_iff]
      rintro hs heq
      exact hp (heq ▸ hs)

lemma firstOfEachKey_sublist (shapes : List Shape) :
    (firstOfEachKey shapes).Sublist shapes := by
  induction shapes with
  | nil => exact .slnil
  | cons shape shapes ih => exact (List.filter_sublist.trans ih).cons_cons shape

/-- Every key of a list has a first shape. -/
lemma exists_mem_firstOfEachKey {shapes : List Shape} {s : Shape} (hs : s ∈ shapes) :
    ∃ first ∈ firstOfEachKey shapes, first.key = s.key := by
  induction shapes with
  | nil => exact absurd hs List.not_mem_nil
  | cons shape shapes ih =>
    by_cases hkey : shape.key = s.key
    · exact ⟨shape, List.mem_cons_self, hkey⟩
    · have hrest : s ∈ shapes := by
        rcases List.mem_cons.mp hs with rfl | hrest
        · exact absurd rfl hkey
        · exact hrest
      obtain ⟨first, hfirst, heq⟩ := ih hrest
      refine ⟨first, List.mem_cons_of_mem _ (List.mem_filter.mpr ⟨hfirst, ?_⟩), heq⟩
      rw [heq]
      exact decide_eq_true (Ne.symm hkey)

/-- Nothing is left out exactly if all keys are different. -/
lemma firstOfEachKey_eq_self_iff {shapes : List Shape} :
    firstOfEachKey shapes = shapes ↔ (shapes.map key).Nodup := by
  induction shapes with
  | nil => exact iff_of_true rfl List.nodup_nil
  | cons shape shapes ih =>
    rw [firstOfEachKey, List.cons_inj_right, List.map_cons, List.nodup_cons, ← ih]
    constructor
    · intro h
      have hself : firstOfEachKey shapes = shapes := by
        refine (firstOfEachKey_sublist shapes).eq_of_length_le ?_
        conv_lhs => rw [← h]
        exact List.length_filter_le _ _
      refine ⟨?_, hself⟩
      rw [hself, List.filter_eq_self] at h
      rintro hmem
      obtain ⟨s, hs, heq⟩ := List.mem_map.mp hmem
      exact of_decide_eq_true (h s hs) heq
    · rintro ⟨hnew, hself⟩
      rw [hself, List.filter_eq_self]
      intro s hs
      exact decide_eq_true fun heq => hnew (heq ▸ List.mem_map_of_mem hs)

end Shape

namespace Store

/-! ### Looking up -/

/-- A key is taken exactly when looking it up finds a polygon. -/
lemma hasKey_iff (s : Store) (k : Key) : s.hasKey k = true ↔ ∃ p, s.lookup k = some p := by
  unfold hasKey lookup
  rw [Std.TreeMap.contains_eq_isSome_getElem?, Option.isSome_iff_exists]

/-- A key is free exactly when looking it up finds nothing. -/
lemma hasKey_eq_false_iff (s : Store) (k : Key) :
    s.hasKey k = false ↔ s.lookup k = none := by
  unfold hasKey lookup
  rw [Std.TreeMap.contains_eq_isSome_getElem?, Option.isSome_eq_false_iff,
    Option.isNone_iff_eq_none]

@[simp] lemma toList_empty : empty.toList = [] := rfl

@[simp] lemma lookup_empty (k : Key) : empty.lookup k = none := by
  simp [lookup, empty]

@[simp] lemma toList_clear (s : Store) : s.clear.toList = [] := rfl

@[simp] lemma lookup_clear (s : Store) (k : Key) : s.clear.lookup k = none := lookup_empty k

@[simp] lemma nextId_clear (s : Store) : s.clear.nextId = s.nextId := rfl

/-! ### One insertion -/

/-- The store with one more polygon, whether or not its key is free. -/
def push (s : Store) (shape : Shape) (nans : Point.NaNs := .invalid) : Store where
  polygons := s.polygons.insertIdxIfInBounds (s.place (.ofShape s.nextId shape nans))
    (.ofShape s.nextId shape nans)
  index := s.index.insert shape.key (.ofShape s.nextId shape nans)
  nextId := s.nextId + 1

/-- The place of a new polygon lies within the list or right behind it. -/
lemma place_le (s : Store) (polygon : Polygon) : s.place polygon ≤ s.toList.length :=
  bisect_le _ _ _ _ _ (Nat.zero_le _)

/-- The new polygon stands at its place, and the others keep their order. -/
lemma toList_push (s : Store) (shape : Shape) (nans : Point.NaNs) :
    (s.push shape nans).toList = s.toList.insertIdx (s.place (.ofShape s.nextId shape nans))
      (.ofShape s.nextId shape nans) := by
  have hle : s.place (.ofShape s.nextId shape nans) ≤ s.polygons.size := s.place_le _
  simp only [toList, push, Array.insertIdxIfInBounds]
  rw [dif_pos hle, Array.toList_insertIdx]

/-- The new polygon is found under its key, and under other keys nothing changes. -/
lemma lookup_push (s : Store) (shape : Shape) (nans : Point.NaNs) (k : Key) :
    (s.push shape nans).lookup k =
      if shape.key = k then some (.ofShape s.nextId shape nans) else s.lookup k := by
  simp only [lookup, push, Std.TreeMap.getElem?_insert]
  by_cases hk : shape.key = k
  · subst hk
    rw [if_pos Std.ReflOrd.compare_self, if_pos rfl]
  · rw [if_neg hk, if_neg fun he => hk (Std.LawfulEqOrd.eq_of_compare he)]

/-- The new polygon takes its key. -/
lemma hasKey_push (s : Store) (shape : Shape) (nans : Point.NaNs) (k : Key) :
    (s.push shape nans).hasKey k = (decide (shape.key = k) || s.hasKey k) := by
  rw [Bool.eq_iff_iff, Bool.or_eq_true, decide_eq_true_iff, hasKey_iff, hasKey_iff, lookup_push]
  by_cases hk : shape.key = k
  · simp [hk]
  · simp [hk]

/-- An insertion is refused, because the shape is not admitted or its key is taken, and changes
nothing; or neither is the case, and the shape gets the next number. -/
lemma insert_cases (s : Store) (admits : Shape → Bool) (shape : Shape)
    (nans : Point.NaNs := .invalid) :
    ((admits shape = false ∨ s.hasKey shape.key = true) ∧
        s.insert admits shape nans = (none, s)) ∨
      (admits shape = true ∧ s.hasKey shape.key = false ∧
        s.insert admits shape nans = (some s.nextId, s.push shape nans)) := by
  have heq : s.insert admits shape nans =
      if !admits shape || s.hasKey shape.key then (none, s)
      else (some s.nextId, s.push shape nans) := rfl
  rw [heq]
  cases admits shape <;> cases s.hasKey shape.key <;> simp

/-- A shape is refused if its key is taken. -/
lemma insert_of_taken {s : Store} {shape : Shape} (h : s.hasKey shape.key = true)
    (admits : Shape → Bool) (nans : Point.NaNs := .invalid) :
    s.insert admits shape nans = (none, s) := by
  rcases s.insert_cases admits shape nans with ⟨-, heq⟩ | ⟨-, hfree, -⟩
  · exact heq
  · rw [h] at hfree
    exact absurd hfree.symm Bool.false_ne_true

/-- An admitted shape gets the next number if its key is free. -/
lemma insert_of_free {s : Store} {admits : Shape → Bool} {shape : Shape}
    (hadmits : admits shape = true) (hfree : s.hasKey shape.key = false)
    (nans : Point.NaNs := .invalid) :
    s.insert admits shape nans = (some s.nextId, s.push shape nans) := by
  rcases s.insert_cases admits shape nans with ⟨hno | htaken, -⟩ | ⟨-, -, heq⟩
  · rw [hadmits] at hno
    exact absurd hno.symm Bool.false_ne_true
  · rw [hfree] at htaken
    exact absurd htaken Bool.false_ne_true
  · exact heq

/-! ### Extending a store -/

/-- `s'` is `s` with the polygons `new` added to its list and its index, under the numbers that
follow those of `s`. -/
structure Extends (s : Store) (new : List Polygon) (s' : Store) : Prop where
  perm : s'.toList.Perm (s.toList ++ new)
  sublist : s.toList.Sublist s'.toList
  lookup_iff : ∀ k p, s'.lookup k = some p ↔ s.lookup k = some p ∨ p ∈ new ∧ p.key = k
  ids : new.map Polygon.id = List.range' s.nextId new.length
  nextId : s'.nextId = s.nextId + new.length
  keys_nodup : (new.map Polygon.key).Nodup
  keys_fresh : ∀ p ∈ new, s.hasKey p.key = false
  key_eq : ∀ p ∈ new, p.key = p.shape.key

namespace Extends

variable {s s' s'' : Store} {new more : List Polygon}

/-- A store extends itself by nothing. -/
protected lemma refl (s : Store) : s.Extends [] s where
  perm := by simp
  sublist := List.Sublist.refl _
  lookup_iff := by simp
  ids := rfl
  nextId := rfl
  keys_nodup := List.nodup_nil
  keys_fresh := by simp
  key_eq := by simp

/-- A taken key stays taken. -/
lemma hasKey_mono (h : s.Extends new s') {k : Key} (hk : s.hasKey k = true) :
    s'.hasKey k = true := by
  obtain ⟨p, hp⟩ := (hasKey_iff s k).mp hk
  exact (hasKey_iff s' k).mpr ⟨p, (h.lookup_iff k p).mpr (Or.inl hp)⟩

/-- The keys taken afterwards are those taken before and those of the new polygons. -/
lemma hasKey_iff_or (h : s.Extends new s') (k : Key) :
    s'.hasKey k = true ↔ s.hasKey k = true ∨ ∃ p ∈ new, p.key = k := by
  constructor
  · intro hk
    obtain ⟨p, hp⟩ := (hasKey_iff s' k).mp hk
    rcases (h.lookup_iff k p).mp hp with hold | ⟨hmem, hkey⟩
    · exact Or.inl ((hasKey_iff s k).mpr ⟨p, hold⟩)
    · exact Or.inr ⟨p, hmem, hkey⟩
  · rintro (hold | ⟨p, hmem, hkey⟩)
    · exact h.hasKey_mono hold
    · exact (hasKey_iff s' k).mpr ⟨p, (h.lookup_iff k p).mpr (Or.inr ⟨hmem, hkey⟩)⟩

/-- If the first shapes of each key are added, there is a new polygon for every key. -/
lemma exists_key_eq {shapes : List Shape} (h : s.Extends new s')
    (hnew : new.map Polygon.shape = Shape.firstOfEachKey shapes) {shape : Shape}
    (hshape : shape ∈ shapes) : ∃ p ∈ new, p.shape ∈ shapes ∧ p.key = shape.key := by
  obtain ⟨first, hfirst, hkey⟩ := Shape.exists_mem_firstOfEachKey hshape
  have hmem := (Shape.firstOfEachKey_sublist shapes).subset hfirst
  rw [← hnew] at hfirst
  obtain ⟨p, hp, rfl⟩ := List.mem_map.mp hfirst
  exact ⟨p, hp, hmem, (h.key_eq p hp).trans hkey⟩

/-- Extending twice is extending once by both lists. -/
protected lemma trans (h : s.Extends new s') (h' : s'.Extends more s'') :
    s.Extends (new ++ more) s'' where
  perm := by
    rw [← List.append_assoc]
    exact h'.perm.trans (h.perm.append_right more)
  sublist := h.sublist.trans h'.sublist
  lookup_iff := by
    intro k p
    rw [h'.lookup_iff, h.lookup_iff, List.mem_append, or_and_right, or_assoc]
  ids := by
    rw [List.map_append, h.ids, h'.ids, h.nextId, List.length_append, List.range'_append_1]
  nextId := by
    rw [h'.nextId, h.nextId, List.length_append, Nat.add_assoc]
  keys_nodup := by
    rw [List.map_append, List.nodup_append]
    refine ⟨h.keys_nodup, h'.keys_nodup, ?_⟩
    rintro a ha b hb rfl
    obtain ⟨p, hp, rfl⟩ := List.mem_map.mp ha
    obtain ⟨q, hq, hqk⟩ := List.mem_map.mp hb
    have htaken : s'.hasKey q.key = true := by
      rw [hqk]
      exact (h.hasKey_iff_or _).mpr (Or.inr ⟨p, hp, rfl⟩)
    rw [h'.keys_fresh q hq] at htaken
    exact Bool.false_ne_true htaken
  keys_fresh := by
    intro p hp
    rcases List.mem_append.mp hp with hp | hp
    · exact h.keys_fresh p hp
    · have hfree := h'.keys_fresh p hp
      by_contra hne
      rw [h.hasKey_mono (Bool.not_eq_false _ ▸ hne)] at hfree
      exact Bool.false_ne_true hfree.symm
  key_eq := by
    intro p hp
    rcases List.mem_append.mp hp with hp | hp
    · exact h.key_eq p hp
    · exact h'.key_eq p hp

end Extends

/-- A shape with a free key extends the store by one polygon. -/
lemma extends_push {s : Store} {shape : Shape} (hfree : s.hasKey shape.key = false)
    (nans : Point.NaNs := .invalid) :
    s.Extends [.ofShape s.nextId shape nans] (s.push shape nans) where
  perm := by
    rw [toList_push]
    exact (List.perm_insertIdx _ _ (s.place_le _)).trans (List.perm_append_singleton _ _).symm
  sublist := by
    rw [toList_push]
    exact List.sublist_insertIdx _ _ _
  lookup_iff := by
    intro k p
    rw [lookup_push, List.mem_singleton]
    by_cases hk : shape.key = k
    · subst hk
      rw [if_pos rfl, (hasKey_eq_false_iff s shape.key).mp hfree, Option.some_inj]
      constructor
      · rintro rfl
        exact Or.inr ⟨rfl, rfl⟩
      · rintro (hn | ⟨rfl, -⟩)
        · exact absurd hn (Option.some_ne_none p).symm
        · rfl
    · rw [if_neg hk]
      constructor
      · exact Or.inl
      · rintro (hold | ⟨rfl, hkey⟩)
        · exact hold
        · exact absurd hkey hk
  ids := rfl
  nextId := rfl
  keys_nodup := List.nodup_singleton _
  keys_fresh := by
    intro p hp
    rw [List.mem_singleton.mp hp]
    exact hfree
  key_eq := by
    intro p hp
    rw [List.mem_singleton.mp hp]
    rfl

/-- An insertion extends the store by one polygon, or by none. -/
lemma exists_extends_insert (s : Store) (admits : Shape → Bool) (shape : Shape)
    (nans : Point.NaNs := .invalid) : ∃ new, s.Extends new (s.insert admits shape nans).2 := by
  rcases s.insert_cases admits shape nans with ⟨-, heq⟩ | ⟨-, hfree, heq⟩
  · rw [heq]
    exact ⟨[], Extends.refl s⟩
  · rw [heq]
    exact ⟨_, extends_push hfree nans⟩

/-- Inserting shapes one after the other extends the store, under numbers that are the answers, by
the first of each key among those that are admitted and whose key is free. -/
lemma exists_extends_insertAll_firstOfEachKey (s : Store) (admits : Shape → Bool)
    (shapes : List Shape) :
    ∃ new, s.Extends new (s.insertAll admits shapes).2 ∧
      (s.insertAll admits shapes).1.filterMap id = new.map Polygon.id ∧
      new.map Polygon.shape =
        Shape.firstOfEachKey (shapes.filter fun q => admits q && !s.hasKey q.key) := by
  induction shapes generalizing s with
  | nil => exact ⟨[], Extends.refl s, rfl, rfl⟩
  | cons shape shapes ih =>
    simp only [insertAll]
    rcases s.insert_cases admits shape with ⟨hrefused, heq⟩ | ⟨hadmits, hfree, heq⟩
    · rw [heq]
      obtain ⟨new, hext, hids, hnew⟩ := ih s
      refine ⟨new, hext, hids, ?_⟩
      rw [hnew, List.filter_cons_of_neg]
      rcases hrefused with hno | htaken
      · simp [hno]
      · simp [htaken]
    · rw [heq]
      obtain ⟨new, hext, hids, hnew⟩ := ih (s.push shape)
      refine ⟨.ofShape s.nextId shape :: new, (extends_push hfree).trans hext, ?_, ?_⟩
      · rw [List.filterMap_cons_some (f := id) rfl, hids]
        rfl
      · rw [List.map_cons, hnew, List.filter_cons_of_pos (by simp [hadmits, hfree]),
          Shape.firstOfEachKey,
          ← Shape.firstOfEachKey_filter (fun k => decide (k ≠ shape.key)), List.filter_filter]
        refine congrArg (fun rest => shape :: Shape.firstOfEachKey rest) ?_
        refine List.filter_congr fun q _ => ?_
        rw [hasKey_push]
        cases admits q <;> cases s.hasKey q.key <;> simp [eq_comm]

/-- Inserting shapes one after the other extends the store by admitted ones among them, in their
order, whose numbers are the answers, and leaves no admitted shape without a polygon of its key. -/
lemma exists_extends_insertAll_sublist (s : Store) (admits : Shape → Bool) (shapes : List Shape) :
    ∃ new, s.Extends new (s.insertAll admits shapes).2 ∧
      (s.insertAll admits shapes).1.filterMap id = new.map Polygon.id ∧
      (new.map Polygon.shape).Sublist shapes ∧ (∀ p ∈ new, admits p.shape = true) ∧
      ∀ shape ∈ shapes, admits shape = true →
        (s.insertAll admits shapes).2.hasKey shape.key = true := by
  obtain ⟨new, hext, hids, hnew⟩ := s.exists_extends_insertAll_firstOfEachKey admits shapes
  have hsub := Shape.firstOfEachKey_sublist (shapes.filter fun q => admits q && !s.hasKey q.key)
  rw [← hnew] at hsub
  refine ⟨new, hext, hids, hsub.trans List.filter_sublist, fun p hp => ?_, ?_⟩
  · have hfilter := (List.mem_filter.mp (hsub.subset (List.mem_map_of_mem hp))).2
    exact (Bool.and_eq_true_iff.mp hfilter).1
  · intro shape hshape hadmits
    by_cases htaken : s.hasKey shape.key = true
    · exact hext.hasKey_mono htaken
    · have hfilter : shape ∈ shapes.filter fun q => admits q && !s.hasKey q.key :=
        List.mem_filter.mpr ⟨hshape, by simp [hadmits, htaken]⟩
      obtain ⟨p, hp, -, hkey⟩ := hext.exists_key_eq hnew hfilter
      exact (hext.hasKey_iff_or _).mpr (Or.inr ⟨p, hp, hkey⟩)

/-- Inserting shapes one after the other extends the store by admitted ones among them, whose
numbers are the answers, and leaves no admitted shape without a polygon of its key. -/
lemma exists_extends_insertAll (s : Store) (admits : Shape → Bool) (shapes : List Shape) :
    ∃ new, s.Extends new (s.insertAll admits shapes).2 ∧
      (s.insertAll admits shapes).1.filterMap id = new.map Polygon.id ∧
      (∀ p ∈ new, p.shape ∈ shapes ∧ admits p.shape = true) ∧
      ∀ shape ∈ shapes, admits shape = true →
        (s.insertAll admits shapes).2.hasKey shape.key = true := by
  obtain ⟨new, hext, hids, hsub, hnew, hall⟩ := s.exists_extends_insertAll_sublist admits shapes
  refine ⟨new, hext, hids, fun p hp => ⟨?_, hnew p hp⟩, hall⟩
  exact hsub.subset (List.mem_map_of_mem hp)

/-! ### Consistency -/

/-- The list and the index hold the same polygons, each under the key of its shape, and every
number in use has been handed out. -/
structure Consistent (s : Store) : Prop where
  keys_nodup : (s.toList.map Polygon.key).Nodup
  lookup_iff : ∀ k p, s.lookup k = some p ↔ p ∈ s.toList ∧ p.key = k
  key_eq : ∀ p ∈ s.toList, p.key = p.shape.key
  id_lt : ∀ p ∈ s.toList, p.id < s.nextId

namespace Consistent

variable {s s' : Store} {new : List Polygon}

/-- A store without polygons is consistent. -/
lemma empty : Store.empty.Consistent where
  keys_nodup := List.nodup_nil
  lookup_iff := by simp
  key_eq := by simp
  id_lt := by simp

/-- Clearing a store leaves a consistent one. -/
lemma clear (s : Store) : s.clear.Consistent where
  keys_nodup := List.nodup_nil
  lookup_iff := by simp
  key_eq := by simp
  id_lt := by simp

/-- A key is taken exactly when a polygon in the list has it. -/
lemma hasKey_iff_mem (hs : s.Consistent) (k : Key) :
    s.hasKey k = true ↔ ∃ p ∈ s.toList, p.key = k := by
  rw [hasKey_iff]
  exact exists_congr fun p => hs.lookup_iff k p

/-- A polygon of the list is found under its key. -/
lemma lookup_key (hs : s.Consistent) {p : Polygon} (hp : p ∈ s.toList) :
    s.lookup p.key = some p :=
  (hs.lookup_iff p.key p).mpr ⟨hp, rfl⟩

/-- Extending a consistent store leaves a consistent one. -/
lemma of_extends (hs : s.Consistent) (h : s.Extends new s') : s'.Consistent where
  keys_nodup := by
    rw [(h.perm.map Polygon.key).nodup_iff, List.map_append, List.nodup_append]
    refine ⟨hs.keys_nodup, h.keys_nodup, ?_⟩
    rintro a ha b hb rfl
    obtain ⟨p, hp, rfl⟩ := List.mem_map.mp ha
    obtain ⟨q, hq, hqk⟩ := List.mem_map.mp hb
    have htaken : s.hasKey q.key = true := (hs.hasKey_iff_mem _).mpr ⟨p, hp, hqk.symm⟩
    rw [h.keys_fresh q hq] at htaken
    exact Bool.false_ne_true htaken
  lookup_iff := by
    intro k p
    rw [h.lookup_iff, hs.lookup_iff, h.perm.mem_iff, List.mem_append, or_and_right]
  key_eq := by
    intro p hp
    rcases List.mem_append.mp (h.perm.mem_iff.mp hp) with hp | hp
    · exact hs.key_eq p hp
    · exact h.key_eq p hp
  id_lt := by
    intro p hp
    rw [h.nextId]
    rcases List.mem_append.mp (h.perm.mem_iff.mp hp) with hp | hp
    · exact Nat.lt_add_right _ (hs.id_lt p hp)
    · have hid : p.id ∈ List.range' s.nextId new.length := by
        rw [← h.ids]
        exact List.mem_map_of_mem hp
      exact (List.mem_range'_1.mp hid).2

/-- An insertion leaves a consistent store, whether it is refused or not. -/
lemma insert (hs : s.Consistent) (admits : Shape → Bool) (shape : Shape)
    (nans : Point.NaNs := .invalid) : (s.insert admits shape nans).2.Consistent := by
  rcases s.insert_cases admits shape nans with ⟨-, heq⟩ | ⟨-, hfree, heq⟩
  · rw [heq]
    exact hs
  · rw [heq]
    exact hs.of_extends (extends_push hfree nans)

end Consistent

end Store

end ShapeGrammar
