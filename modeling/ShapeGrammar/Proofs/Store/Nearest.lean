import ShapeGrammar.Proofs.Store.Painting

/-!
# The nearest polygon

The search for the polygon nearest to a target walks once through the list and keeps the best
polygon so far with its error.  Polygons with another number of vertices are passed over, and so are
those whose error is not below the limit (`Polygon.Qualifies`).  Not-a-number is below nothing, and
nothing is below it.  So the errors that count are numbers, whatever the coordinates and the limit
are, and to compare them is to compare their places on one line (`Number.level`).

The best polygon so far is the first of those with the least error (`Store.BestOf`).  One step keeps
this (`Store.BestOf.nearer`), and by induction it holds at the end of the list, which is in painter's
order.
-/

namespace ShapeGrammar

namespace Polygon

/-- The sum of the squared distances of the vertices from those of the target. -/
def errorFrom (target : Shape) (p : Polygon) : Float :=
  Store.squaredError p.shape.vertices target.vertices

/-- The polygon has as many vertices as the target, and its error is below the limit. -/
def Qualifies (target : Shape) (limit : Float) (p : Polygon) : Prop :=
  p.shape.vertices.length = target.vertices.length ∧ p.errorFrom target < limit

instance (target : Shape) (limit : Float) : DecidablePred (Qualifies target limit) := fun p =>
  inferInstanceAs (Decidable (p.shape.vertices.length = target.vertices.length ∧
    p.errorFrom target < limit))

variable {target : Shape} {limit : Float} {p q : Polygon}

/-- The error of a polygon that qualifies is a number. -/
lemma Qualifies.isNaN (hp : p.Qualifies target limit) : (p.errorFrom target).isNaN = false :=
  (Number.isNaN_of_lt hp.2).1

/-- Errors of polygons that qualify are compared by their places on the line. -/
lemma Qualifies.lt_iff (hp : p.Qualifies target limit) (hq : q.Qualifies target limit) :
    p.errorFrom target < q.errorFrom target ↔
      Number.level (p.errorFrom target) < Number.level (q.errorFrom target) :=
  Number.lt_iff hp.isNaN hq.isNaN

lemma Qualifies.beq_iff (hp : p.Qualifies target limit) (hq : q.Qualifies target limit) :
    (p.errorFrom target == q.errorFrom target) = true ↔
      Number.level (p.errorFrom target) = Number.level (q.errorFrom target) :=
  Number.beq_iff hp.isNaN hq.isNaN

/-- The polygon has a smaller error than `q`, or the same error and is painted before `q`. -/
def NearerThan (target : Shape) (p q : Polygon) : Prop :=
  p.errorFrom target < q.errorFrom target ∨
    (p.errorFrom target == q.errorFrom target) = true ∧ p.PaintedBefore q

/-- If a polygon is nearer than another one, then the other one does not have a smaller error. -/
lemma NearerThan.not_lt (hp : p.Qualifies target limit) (hq : q.Qualifies target limit)
    (h : p.NearerThan target q) : ¬ q.errorFrom target < p.errorFrom target := by
  rw [hq.lt_iff hp]
  rcases h with hlt | ⟨heq, -⟩
  · exact ((hp.lt_iff hq).mp hlt).asymm
  · exact ((hp.beq_iff hq).mp heq).not_gt

/-- Of two polygons that qualify, at most one is nearer than the other. -/
lemma NearerThan.asymm (hp : p.Qualifies target limit) (hq : q.Qualifies target limit)
    (h : p.NearerThan target q) : ¬ q.NearerThan target p := by
  rintro (hlt | ⟨heq, hbefore⟩)
  · exact h.not_lt hp hq hlt
  · rcases h with hlt | ⟨-, hbefore'⟩
    · exact NearerThan.not_lt hq hp (Or.inr ⟨heq, hbefore⟩) hlt
    · exact hbefore.asymm hbefore'

end Polygon

namespace Store

variable {s : Store} {target : Shape} {limit : Float} {seen rest : List Polygon}
  {best : Option (Polygon × Float)} {p b : Polygon}

/-! ### One step -/

/-- A polygon that does not qualify is passed over. -/
lemma nearer_of_not_qualifies (hp : ¬ p.Qualifies target limit) (best : Option (Polygon × Float)) :
    nearer target.vertices limit best p = best := by
  unfold nearer
  split
  · rfl
  · next hlength =>
    rw [bne_iff_ne, not_not] at hlength
    have herror : ¬ squaredError p.shape.vertices target.vertices < limit :=
      fun hlt => hp ⟨hlength, hlt⟩
    simp [herror]

/-- A polygon that qualifies is compared with the best one so far. -/
lemma nearer_of_qualifies (hp : p.Qualifies target limit) (best : Option (Polygon × Float)) :
    nearer target.vertices limit best p =
      if best.all fun b => p.errorFrom target < b.2 then some (p, p.errorFrom target)
      else best := by
  obtain ⟨hlength, herror⟩ := hp
  have herror' : squaredError p.shape.vertices target.vertices < limit := herror
  unfold nearer Polygon.errorFrom
  rw [if_neg (by simp [hlength])]
  simp only [herror', decide_true, Bool.true_and]

/-- The best of the polygons seen, with its error: the polygon that qualifies and is nearer than all
others that do; nothing if none qualifies. -/
def BestOf (target : Shape) (limit : Float) (seen : List Polygon) :
    Option (Polygon × Float) → Prop
  | none => ∀ q ∈ seen, ¬ q.Qualifies target limit
  | some (p, error) =>
    error = p.errorFrom target ∧ p ∈ seen ∧ p.Qualifies target limit ∧
      ∀ q ∈ seen, q.Qualifies target limit → q ≠ p → p.NearerThan target q

namespace BestOf

/-- A polygon that does not qualify makes no difference. -/
lemma pass (h : BestOf target limit seen best) (hp : ¬ p.Qualifies target limit) :
    BestOf target limit (seen ++ [p]) best := by
  cases best with
  | none => exact List.forall_mem_append.mpr ⟨h, List.forall_mem_singleton.mpr hp⟩
  | some b =>
    obtain ⟨herror, hmem, hb, hall⟩ := h
    refine ⟨herror, List.mem_append_left _ hmem, hb, List.forall_mem_append.mpr ⟨hall, ?_⟩⟩
    exact List.forall_mem_singleton.mpr fun hqual => absurd hqual hp

/-- A polygon with a smaller error than the best one so far takes its place. -/
lemma replace (h : BestOf target limit seen best) (hp : p.Qualifies target limit)
    (hlt : ∀ b ∈ best, p.errorFrom target < b.2) :
    BestOf target limit (seen ++ [p]) (some (p, p.errorFrom target)) := by
  refine ⟨rfl, by simp, hp, List.forall_mem_append.mpr ⟨fun q hq hqual _ => ?_, ?_⟩⟩
  · cases best with
    | none => exact absurd hqual (h q hq)
    | some b =>
      obtain ⟨b, error⟩ := b
      obtain ⟨rfl, -, hb, hall⟩ := h
      have hless : p.errorFrom target < b.errorFrom target :=
        hlt (b, b.errorFrom target) (Option.mem_some_self _)
      rw [hp.lt_iff hb] at hless
      refine Or.inl ((hp.lt_iff hqual).mpr ?_)
      -- The error of `b` lies in between, also if `q` only ties with `b`.
      by_cases hqb : q = b
      · rwa [hqb]
      · rcases hall q hq hqual hqb with hless' | ⟨heq, -⟩
        · exact hless.trans ((hb.lt_iff hqual).mp hless')
        · rwa [← (hb.beq_iff hqual).mp heq]
  · exact List.forall_mem_singleton.mpr fun _ hne => absurd rfl hne

/-- The best polygon so far stays if a later one does not have a smaller error. -/
lemma keep (h : BestOf target limit seen (some (b, b.errorFrom target)))
    (hp : p.Qualifies target limit) (hbefore : b.PaintedBefore p)
    (hnot : ¬ p.errorFrom target < b.errorFrom target) :
    BestOf target limit (seen ++ [p]) (some (b, b.errorFrom target)) := by
  obtain ⟨-, hmem, hb, hall⟩ := h
  refine ⟨rfl, List.mem_append_left _ hmem, hb, List.forall_mem_append.mpr ⟨hall, ?_⟩⟩
  refine List.forall_mem_singleton.mpr fun _ _ => ?_
  rw [hp.lt_iff hb, not_lt] at hnot
  rcases hnot.lt_or_eq with hlt | heq
  · exact Or.inl ((hb.lt_iff hp).mpr hlt)
  · exact Or.inr ⟨(hb.beq_iff hp).mpr heq, hbefore⟩

/-- One step finds the best of the polygons seen, if they are painted before the next one. -/
lemma step (h : BestOf target limit seen best) (hbefore : ∀ q ∈ seen, q.PaintedBefore p) :
    BestOf target limit (seen ++ [p]) (nearer target.vertices limit best p) := by
  by_cases hp : p.Qualifies target limit
  · rw [nearer_of_qualifies hp]
    split
    · next hall => exact h.replace hp (by simpa [Option.all_eq_true] using hall)
    · next hnot =>
      cases best with
      | none => exact absurd rfl hnot
      | some b =>
        obtain ⟨b, error⟩ := b
        obtain ⟨rfl, hmem, -⟩ := id h
        exact h.keep hp (hbefore b hmem) (by simpa using hnot)
  · rw [nearer_of_not_qualifies hp]
    exact h.pass hp

/-- The walk finds the best of a list in painter's order. -/
lemma walk (h : BestOf target limit seen best)
    (horder : (seen ++ rest).Pairwise Polygon.PaintedBefore) :
    BestOf target limit (seen ++ rest) (rest.foldl (nearer target.vertices limit) best) := by
  induction rest generalizing seen best with
  | nil => rwa [List.append_nil]
  | cons p rest ih =>
    have hbefore : ∀ q ∈ seen, q.PaintedBefore p := fun q hq =>
      (List.pairwise_append.mp horder).2.2 q hq p List.mem_cons_self
    rw [List.append_cons] at horder ⊢
    exact ih (h.step hbefore) horder

end BestOf

/-! ### The whole list -/

/-- The search finds the best polygon of a store in painter's order. -/
lemma InOrder.bestOf (hs : s.InOrder) (target : Shape) (limit : Float) :
    BestOf target limit s.toList (s.toList.foldl (nearer target.vertices limit) none) := by
  have hnone : BestOf target limit [] none := fun _ hq => absurd hq List.not_mem_nil
  exact hnone.walk hs

/-- What is found qualifies and is nearer than everything else that does. -/
lemma InOrder.nearest_spec (hs : s.InOrder) (h : s.nearest target limit = some p) :
    p ∈ s.toList ∧ p.Qualifies target limit ∧
      ∀ q ∈ s.toList, q.Qualifies target limit → q ≠ p → p.NearerThan target q := by
  have hbest := hs.bestOf target limit
  obtain ⟨b, hb, rfl⟩ := Option.map_eq_some_iff.mp h
  rw [hb] at hbest
  exact hbest.2

/-- Something is found exactly if a polygon qualifies. -/
lemma InOrder.exists_nearest_iff (hs : s.InOrder) (target : Shape) (limit : Float) :
    (∃ p, s.nearest target limit = some p) ↔ ∃ p ∈ s.toList, p.Qualifies target limit := by
  constructor
  · rintro ⟨p, hp⟩
    obtain ⟨hmem, hqual, -⟩ := hs.nearest_spec hp
    exact ⟨p, hmem, hqual⟩
  · rintro ⟨p, hmem, hqual⟩
    have hbest := hs.bestOf target limit
    unfold nearest
    cases hfound : s.toList.foldl (nearer target.vertices limit) none with
    | none =>
      rw [hfound] at hbest
      exact absurd hqual (hbest p hmem)
    | some b => exact ⟨b.1, rfl⟩

/-- Exactly one polygon is nearer than all others that qualify. -/
lemma InOrder.nearest_eq_some_iff (hs : s.InOrder) :
    s.nearest target limit = some p ↔
      p ∈ s.toList ∧ p.Qualifies target limit ∧
        ∀ q ∈ s.toList, q.Qualifies target limit → q ≠ p → p.NearerThan target q := by
  refine ⟨hs.nearest_spec, ?_⟩
  rintro ⟨hmem, hqual, hall⟩
  obtain ⟨b, hb⟩ := (hs.exists_nearest_iff target limit).mpr ⟨p, hmem, hqual⟩
  obtain ⟨hbmem, hbqual, hball⟩ := hs.nearest_spec hb
  rw [hb, Option.some_inj]
  by_contra hne
  exact (hall b hbmem hbqual hne).asymm hqual hbqual (hball p hmem hqual (Ne.symm hne))

/-- Polygons that do not qualify make no difference. -/
lemma nearest_congr {s' : Store}
    (h : s'.toList.filter (fun p => p.Qualifies target limit) =
      s.toList.filter fun p => p.Qualifies target limit) :
    s'.nearest target limit = s.nearest target limit := by
  have hfilter : ∀ (ps : List Polygon) (best : Option (Polygon × Float)),
      ps.foldl (nearer target.vertices limit) best =
        (ps.filter fun p => p.Qualifies target limit).foldl (nearer target.vertices limit) best := by
    intro ps
    induction ps with
    | nil => exact fun _ => rfl
    | cons p ps ih =>
      intro best
      rw [List.foldl_cons, ih]
      by_cases hp : p.Qualifies target limit
      · rw [List.filter_cons_of_pos (by simpa using hp), List.foldl_cons]
      · rw [List.filter_cons_of_neg (by simpa using hp), nearer_of_not_qualifies hp]
  unfold nearest
  rw [hfilter s'.toList, hfilter s.toList, h]

/-- Look for the polygon nearest to any target in a store with any history, under any limit.  One is
found exactly if a polygon has as many vertices as the target and an error below the limit.  The one
found is the only such polygon whose error is smaller than that of every other one, or as large and
in front of it in painter's order.  Its error is a number, and no such polygon has a smaller error.
Polygons whose error is not a number make no difference: a store without them gives the same
answer. -/
theorem nearest_is_first_of_least_error (hs : s.Reachable) (target : Shape) (limit : Float) :
    ((∃ p, s.nearest target limit = some p) ↔ ∃ p ∈ s.toList, p.Qualifies target limit) ∧
    (∀ p, s.nearest target limit = some p ↔
      p ∈ s.toList ∧ p.Qualifies target limit ∧
        ∀ q ∈ s.toList, q.Qualifies target limit → q ≠ p → p.NearerThan target q) ∧
    (∀ p, s.nearest target limit = some p →
      (p.errorFrom target).isNaN = false ∧
        ∀ q ∈ s.toList, q.Qualifies target limit →
          ¬ q.errorFrom target < p.errorFrom target) ∧
    ∀ s' : Store, s'.toList = s.toList.filter (fun p => !(p.errorFrom target).isNaN) →
      s'.nearest target limit = s.nearest target limit := by
  have horder := hs.inOrder
  refine ⟨horder.exists_nearest_iff target limit, fun p => horder.nearest_eq_some_iff,
    fun p hp => ?_, fun s' hs' => nearest_congr ?_⟩
  · obtain ⟨-, hqual, hall⟩ := horder.nearest_spec hp
    refine ⟨hqual.isNaN, fun q hq hqqual hlt => ?_⟩
    by_cases hqp : q = p
    · rw [hqp, hqual.lt_iff hqual] at hlt
      exact lt_irrefl _ hlt
    · exact (hall q hq hqqual hqp).not_lt hqual hqqual hlt
  · rw [hs', List.filter_filter]
    refine List.filter_congr fun p _ => ?_
    rw [Bool.and_eq_left_iff_imp, decide_eq_true_iff]
    intro hp
    rw [hp.isNaN]
    rfl

/-! ### Two triangles at one distance -/

/-- A right triangle with its corner at `(x, y)`. -/
def cornerAt (x y : Float) : Shape := ⟨[⟨x, y⟩, ⟨x + 1, y⟩, ⟨x, y + 1⟩], .plain, by simp⟩

/-- A triangle to the left of the origin and one to the right.  In front of them stand a triangle
at infinity, one with coordinates that are not numbers, and the triangle at the origin with its last
vertex repeated. -/
def twoCorners : Store :=
  after ([cornerAt (-1) 0, cornerAt 1 0, cornerAt Number.notANumber 8,
    ⟨[⟨0, 0⟩, ⟨1, 0⟩, ⟨0, 1⟩, ⟨0, 1⟩], .plain, by decide⟩, cornerAt 0 Number.infinity].map
      (.insert fun _ => true))

/-- Of the two triangles at the same distance the right one is found, which is in front of the other
in painter's order although it was inserted later.  Nothing is found below their distance, or under
a limit that is not a number. -/
theorem nearest_of_twoCorners :
    twoCorners.Reachable ∧
    twoCorners.toList.map Polygon.id = [5, 3, 4, 2, 1] ∧
    (twoCorners.toList.map fun p => (p.errorFrom (cornerAt 0 0)).isNaN) =
      [false, true, false, false, false] ∧
    (∃ p, twoCorners.nearest (cornerAt 0 0) Number.infinity = some p ∧ p.id = 2 ∧
      p.errorFrom (cornerAt 0 0) = 3 ∧
      ∀ q ∈ twoCorners.toList, q.Qualifies (cornerAt 0 0) Number.infinity → q ≠ p →
        p.NearerThan (cornerAt 0 0) q) ∧
    (¬ ∃ p, twoCorners.nearest (cornerAt 0 0) 3 = some p) ∧
    ¬ ∃ p, twoCorners.nearest (cornerAt 0 0) Number.notANumber = some p := by
  have hreach : twoCorners.Reachable := ⟨_, rfl⟩
  have hfound : (twoCorners.nearest (cornerAt 0 0) Number.infinity).map
      (fun p => (p.id, p.errorFrom (cornerAt 0 0))) = some (2, 3) := by
    decide +kernel
  obtain ⟨p, hp, hpair⟩ := Option.map_eq_some_iff.mp hfound
  obtain ⟨hid, herror⟩ := Prod.mk.inj hpair
  obtain ⟨-, hspec, -⟩ := nearest_is_first_of_least_error hreach (cornerAt 0 0) Number.infinity
  refine ⟨hreach, by decide +kernel, by decide +kernel,
    ⟨p, hp, hid, herror, ((hspec p).mp hp).2.2⟩, ?_, ?_⟩
  · rw [(nearest_is_first_of_least_error hreach (cornerAt 0 0) 3).1]
    decide +kernel
  · rw [(nearest_is_first_of_least_error hreach (cornerAt 0 0) Number.notANumber).1]
    decide +kernel

end Store

end ShapeGrammar
