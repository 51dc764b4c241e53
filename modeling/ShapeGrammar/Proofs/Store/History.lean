import ShapeGrammar.Proofs.Store.Insertion

/-!
# Histories of a store

A history is any sequence of insertions, each with its own condition of admission, and clearings,
carried out on the empty store.  `Store.perform` is the run, with the answer of every action.

Every store with a history is consistent (`Store.Reachable.consistent`), and the numbers handed out
in it are `1, 2, 3, …` without a gap and without a repetition, whatever was refused or cleared in
between (`Store.perform_ids`).  Both follow from one step (`Store.act_step`) by induction on the
history.
-/

namespace ShapeGrammar

namespace Store

/-- An action on a store. -/
inductive Action where
  | insert (admits : Shape → Bool) (shape : Shape) (nans : Point.NaNs := .invalid)
  | clear

/-- The answer to an action, which is the number handed out by it if there is one, and the store
afterwards. -/
def act (s : Store) : Action → Option Nat × Store
  | .insert admits shape nans => s.insert admits shape nans
  | .clear => (none, s.clear)

/-- The answers to actions one after the other, and the store afterwards. -/
def perform (s : Store) : List Action → List (Option Nat) × Store
  | [] => ([], s)
  | a :: as =>
    let (id, s) := s.act a
    let (ids, s) := s.perform as
    (id :: ids, s)

/-- The store that a history ends in. -/
def after (as : List Action) : Store := (empty.perform as).2

/-- The numbers handed out in a history, in order. -/
def issued (as : List Action) : List Nat := (empty.perform as).1.filterMap id

/-- The store has a history. -/
def Reachable (s : Store) : Prop := ∃ as, after as = s

lemma perform_cons_fst (s : Store) (a : Action) (as : List Action) :
    (s.perform (a :: as)).1 = (s.act a).1 :: ((s.act a).2.perform as).1 := rfl

lemma perform_cons_snd (s : Store) (a : Action) (as : List Action) :
    (s.perform (a :: as)).2 = ((s.act a).2.perform as).2 := rfl

/-- An action keeps a store consistent, and either it hands out the next number or the counter
stays. -/
lemma act_step {s : Store} (hs : s.Consistent) (a : Action) :
    (s.act a).2.Consistent ∧
      (((s.act a).1 = some s.nextId ∧ (s.act a).2.nextId = s.nextId + 1) ∨
        ((s.act a).1 = none ∧ (s.act a).2.nextId = s.nextId)) := by
  cases a with
  | insert admits shape nans =>
    refine ⟨hs.insert admits shape nans, ?_⟩
    simp only [act]
    rcases s.insert_cases admits shape nans with ⟨-, heq⟩ | ⟨-, -, heq⟩
    · rw [heq]
      exact Or.inr ⟨rfl, rfl⟩
    · rw [heq]
      exact Or.inl ⟨rfl, rfl⟩
  | clear => exact ⟨Consistent.clear s, Or.inr ⟨rfl, rfl⟩⟩

/-- A run from a consistent store ends in one. -/
lemma consistent_perform {s : Store} (hs : s.Consistent) (as : List Action) :
    (s.perform as).2.Consistent := by
  induction as generalizing s with
  | nil => exact hs
  | cons a as ih =>
    rw [perform_cons_snd]
    exact ih (act_step hs a).1

/-- The numbers handed out in a run follow each other, starting with the next number of the
store. -/
lemma perform_ids {s : Store} (hs : s.Consistent) (as : List Action) :
    (s.perform as).1.filterMap id =
      List.range' s.nextId ((s.perform as).1.filterMap id).length := by
  induction as generalizing s with
  | nil => rfl
  | cons a as ih =>
    obtain ⟨hcons, hanswer⟩ := act_step hs a
    have hrest := ih hcons
    rw [perform_cons_fst]
    rcases hanswer with ⟨hsome, hnext⟩ | ⟨hnone, hnext⟩
    · rw [hnext] at hrest
      rw [hsome, List.filterMap_cons_some (f := id) rfl, List.length_cons, List.range'_succ,
        ← hrest]
    · rw [hnext] at hrest
      rw [hnone, List.filterMap_cons_none (f := id) rfl]
      exact hrest

/-- A run without a clearing extends the store. -/
lemma exists_extends_perform (s : Store) {as : List Action} (has : .clear ∉ as) :
    ∃ new, s.Extends new (s.perform as).2 := by
  induction as generalizing s with
  | nil => exact ⟨[], Extends.refl s⟩
  | cons a as ih =>
    obtain ⟨hfirst, hrest⟩ := List.ne_and_not_mem_of_not_mem_cons has
    rw [perform_cons_snd]
    cases a with
    | clear => exact absurd rfl hfirst
    | insert admits shape nans =>
      obtain ⟨new, hnew⟩ := s.exists_extends_insert admits shape nans
      obtain ⟨more, hmore⟩ := ih (s.insert admits shape nans).2 hrest
      exact ⟨new ++ more, hnew.trans hmore⟩

/-! ### What becomes of a store -/

/-- `s'` is the store after some actions on `s`. -/
def LeadsTo (s s' : Store) : Prop := ∃ as, (s.perform as).2 = s'

namespace LeadsTo

variable {s s' s'' : Store}

protected lemma refl (s : Store) : s.LeadsTo s := ⟨[], rfl⟩

protected lemma trans (h : s.LeadsTo s') (h' : s'.LeadsTo s'') : s.LeadsTo s'' := by
  obtain ⟨as, rfl⟩ := h
  obtain ⟨bs, rfl⟩ := h'
  refine ⟨as ++ bs, ?_⟩
  induction as generalizing s with
  | nil => rfl
  | cons a as ih =>
    rw [List.cons_append, perform_cons_snd, perform_cons_snd, ih]

/-- An action leads from one store to the next. -/
lemma act (s : Store) (a : Action) : s.LeadsTo (s.act a).2 := ⟨[a], rfl⟩

/-- Insertions one after the other lead from one store to the next. -/
lemma insertAll (s : Store) (admits : Shape → Bool) (shapes : List Shape) :
    s.LeadsTo (s.insertAll admits shapes).2 := by
  induction shapes generalizing s with
  | nil => exact LeadsTo.refl s
  | cons shape shapes ih => exact (act s (.insert admits shape)).trans (ih _)

lemma consistent (h : s.LeadsTo s') (hs : s.Consistent) : s'.Consistent := by
  obtain ⟨as, rfl⟩ := h
  exact consistent_perform hs as

/-- The counter never goes back. -/
lemma nextId_le (h : s.LeadsTo s') (hs : s.Consistent) : s.nextId ≤ s'.nextId := by
  obtain ⟨as, rfl⟩ := h
  induction as generalizing s with
  | nil => exact Nat.le_refl _
  | cons a as ih =>
    obtain ⟨hcons, hanswer⟩ := act_step hs a
    have hstep : s.nextId ≤ (s.act a).2.nextId := by
      rcases hanswer with ⟨-, hnext⟩ | ⟨-, hnext⟩ <;> omega
    exact Nat.le_trans hstep (ih hcons)

end LeadsTo

/-- A store with a history is consistent. -/
lemma Reachable.consistent {s : Store} (h : s.Reachable) : s.Consistent := by
  obtain ⟨as, rfl⟩ := h
  exact consistent_perform Consistent.empty as

/-- Extending a store by polygons with the numbers that follow gives no number twice. -/
lemma Extends.ids_nodup {s s' : Store} {new : List Polygon} (h : s.Extends new s')
    (hs : s.Consistent) (hids : (s.toList.map Polygon.id).Nodup) :
    (s'.toList.map Polygon.id).Nodup := by
  rw [(h.perm.map Polygon.id).nodup_iff, List.map_append, h.ids, List.nodup_append]
  refine ⟨hids, List.nodup_range', ?_⟩
  rintro _ hold _ hnew rfl
  obtain ⟨p, hp, hid⟩ := List.mem_map.mp hold
  exact absurd (hid ▸ hs.id_lt p hp) (Nat.not_lt.mpr (List.mem_range'_1.mp hnew).1)

/-- An action gives no number twice. -/
lemma ids_nodup_act {s : Store} (hs : s.Consistent) (hids : (s.toList.map Polygon.id).Nodup)
    (a : Action) : ((s.act a).2.toList.map Polygon.id).Nodup := by
  cases a with
  | insert admits shape nans =>
    simp only [act]
    rcases s.insert_cases admits shape nans with ⟨-, heq⟩ | ⟨-, hfree, heq⟩
    · rw [heq]
      exact hids
    · rw [heq]
      exact (extends_push hfree nans).ids_nodup hs hids
  | clear => exact List.nodup_nil

/-- In a store with a history no two polygons have one number. -/
lemma Reachable.ids_nodup {s : Store} (h : s.Reachable) : (s.toList.map Polygon.id).Nodup := by
  obtain ⟨as, rfl⟩ := h
  have hrun : ∀ (as : List Action) (s : Store), s.Consistent → (s.toList.map Polygon.id).Nodup →
      ((s.perform as).2.toList.map Polygon.id).Nodup := by
    intro as
    induction as with
    | nil => exact fun s _ hids => hids
    | cons a as ih => exact fun s hs hids => ih _ (act_step hs a).1 (ids_nodup_act hs hids a)
  exact hrun as empty Consistent.empty List.nodup_nil

/-- After any history the list has no two polygons of one key, the index finds exactly the polygons
of the list under their keys, and every key is that of its shape; the numbers handed out so far are
`1, 2, 3, …`.  One more insertion is refused exactly when the shape is not admitted or its key is
taken, and then nothing has changed; otherwise the list gains one polygon for the shape. -/
theorem history_keeps_list_and_index_in_step (as : List Action) :
    ((after as).toList.map Polygon.key).Nodup ∧
    (∀ k p, (after as).lookup k = some p ↔ p ∈ (after as).toList ∧ p.key = k) ∧
    (∀ p ∈ (after as).toList, p.key = p.shape.key) ∧
    (∀ n number, (issued as)[n]? = some number → number = n + 1) ∧
    ∀ admits shape nans,
      (((after as).insert admits shape nans).1 = none ↔
        admits shape = false ∨ ∃ p ∈ (after as).toList, p.key = shape.key) ∧
      (((after as).insert admits shape nans).1 = none →
        ((after as).insert admits shape nans).2 = after as) ∧
      ∀ number, ((after as).insert admits shape nans).1 = some number →
        ((after as).insert admits shape nans).2.toList.Perm
          ((after as).toList ++ [⟨number, shape.key, shape, nans⟩]) := by
  have hs : (after as).Consistent := consistent_perform Consistent.empty as
  refine ⟨hs.keys_nodup, hs.lookup_iff, hs.key_eq, ?_, ?_⟩
  · intro n number h
    rw [issued, perform_ids Consistent.empty as] at h
    obtain ⟨hlt, hget⟩ := List.getElem?_eq_some_iff.mp h
    rw [List.getElem_range'] at hget
    have hfirst : empty.nextId = 1 := rfl
    omega
  · intro admits shape nans
    rw [← hs.hasKey_iff_mem]
    rcases (after as).insert_cases admits shape nans with ⟨hrefused, heq⟩ | ⟨hadmits, hfree, heq⟩
    · rw [heq]
      exact ⟨⟨fun _ => hrefused, fun _ => rfl⟩, fun _ => rfl, fun number h => by simp at h⟩
    · rw [heq]
      refine ⟨⟨fun h => by simp at h, ?_⟩, fun h => by simp at h, ?_⟩
      · rintro (hno | htaken)
        · rw [hno] at hadmits
          exact absurd hadmits Bool.false_ne_true
        · rw [htaken] at hfree
          exact absurd hfree.symm Bool.false_ne_true
      · intro number h
        obtain rfl := Option.some.inj h
        exact (extends_push hfree nans).perm

end Store

end ShapeGrammar
