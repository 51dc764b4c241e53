import ShapeGrammar.Proofs.Growth.Previews
import ShapeGrammar.Proofs.Number.Value

/-!
# Growth stays in its region

Images of shapes are not checked when they are made: scaling and moving may overflow, and then the
image has infinite vertices or vertices that are not numbers.  What keeps these out of the store is
`Region.admits` alone.  Its comparisons fail for what is not a number, and between finite ends they
fail for what is infinite (`Region.encloses_of_admits`).

Every way into the store and into the list of proposals asks the region (`Growth.Confined`).  So
this is an invariant: each command keeps it (`Growth.confined_perform`), and it holds after every
history.
-/

namespace ShapeGrammar

/-! ### Regions with finite ends -/

namespace Number

open Float.Model (UnpackedFloat)

/-- Nothing finite is at most negative infinity, positive infinity is at most nothing finite, and
nothing is at most not-a-number. -/
lemma unpacked_le_eq_false {u : UnpackedFloat} (hu : u.isFinite = true) :
    u.le (.infinity .negative) = false ∧ (UnpackedFloat.infinity .positive).le u = false ∧
      u.le .notANumber = false := by
  rcases u with _ | _ | _ | ⟨_ | _, m, e, hm⟩
  · cases hu
  · cases hu
  · exact ⟨rfl, rfl, rfl⟩
  · exact ⟨rfl, rfl, rfl⟩
  · exact ⟨rfl, rfl, rfl⟩

/-- A double between two finite doubles is finite. -/
lemma isFinite_of_le_of_le {a b x : Float} (ha : a.isFinite = true) (hb : b.isFinite = true)
    (hax : a ≤ x) (hxb : x ≤ b) : x.isFinite = true := by
  obtain ⟨hbelow, -, hno⟩ := unpacked_le_eq_false (u := a.toModel.unpack) ha
  obtain ⟨-, habove, -⟩ := unpacked_le_eq_false (u := b.toModel.unpack) hb
  rw [le_iff_unpack] at hax hxb
  change x.toModel.unpack.isFinite = true
  cases hx : x.toModel.unpack with
  | zero s => rfl
  | finite s m e hm => rfl
  | notANumber =>
    rw [hx, hno] at hax
    exact absurd hax Bool.false_ne_true
  | infinity s =>
    cases s with
    | negative =>
      rw [hx, hbelow] at hax
      exact absurd hax Bool.false_ne_true
    | positive =>
      rw [hx, habove] at hxb
      exact absurd hxb Bool.false_ne_true

end Number

namespace Region

/-- The rectangle with its slack has finite ends. -/
structure Bounded (r : Region) : Prop where
  left : (r.minX - r.slack).isFinite = true
  bottom : (r.minY - r.slack).isFinite = true
  right : (r.maxX + r.slack).isFinite = true
  top : (r.maxY + r.slack).isFinite = true

/-- The point has finite coordinates, and it lies in the rectangle with its slack. -/
structure Covers (r : Region) (p : Point) : Prop where
  isFinite : p.isFinite = true
  left : r.minX - r.slack ≤ p.x
  bottom : r.minY - r.slack ≤ p.y
  right : p.x ≤ r.maxX + r.slack
  top : p.y ≤ r.maxY + r.slack

/-- The shape can be drawn in the region: it has three vertices at least, and all of them are finite
points of the rectangle with its slack. -/
structure Encloses (r : Region) (s : Shape) : Prop where
  three_le : 3 ≤ s.vertices.length
  covers : ∀ p ∈ s.vertices, r.Covers p

/-- In a region with finite ends, a point that lies in it is finite. -/
lemma covers_of_holds {r : Region} (hr : r.Bounded) {p : Point} (h : r.holds p = true) :
    r.Covers p := by
  simp only [holds, Bool.and_eq_true, decide_eq_true_iff] at h
  obtain ⟨⟨⟨hleft, hbottom⟩, hright⟩, htop⟩ := h
  have hx := Number.isFinite_of_le_of_le hr.left hr.right hleft hright
  have hy := Number.isFinite_of_le_of_le hr.bottom hr.top hbottom htop
  exact ⟨Bool.and_eq_true_iff.mpr ⟨hx, hy⟩, hleft, hbottom, hright, htop⟩

/-- In a region with finite ends, a shape that is admitted can be drawn. -/
lemma encloses_of_admits {r : Region} (hr : r.Bounded) {s : Shape} (h : r.admits s = true) :
    r.Encloses s :=
  ⟨s.three_le, fun p hp => covers_of_holds hr (List.all_eq_true.mp h p hp)⟩

end Region

namespace Growth

/-! ### What the region admits -/

variable {g : Growth}

/-- All shapes to be added by the proposals are admitted. -/
def Admitted (r : Region) (cs : List Proposal) : Prop :=
  ∀ c ∈ cs, ∀ s ∈ c.additions, r.admits s = true

/-- Everything that is stored and everything that is proposed is admitted. -/
structure Confined (g : Growth) : Prop where
  stored : ∀ q ∈ g.store.toList, g.region.admits q.shape = true
  proposed : Admitted g.region g.proposals

/-- A search proposes only what is admitted, whatever pairs it tries. -/
lemma admitted_run (store : Store) (ps : List Production) (r : Region) (sampling : Sampling)
    (limit : Option ℕ) (generator : Generator) :
    Admitted r (Search.run store ps r.admits sampling limit generator).1 := by
  intro c hc s hs
  obtain ⟨p, -, anchor, -, hpropose⟩ := Search.exists_propose_of_mem_run hc
  exact (Search.of_mem_additions hpropose hs).1

lemma admitted_nil (r : Region) : Admitted r [] := fun _ hc => absurd hc List.not_mem_nil

/-! ### One command -/

/-- Insertions one after the other bring in only what is admitted. -/
lemma admits_of_mem_insertAll {r : Region} {s : Store}
    (h : ∀ q ∈ s.toList, r.admits q.shape = true) (shapes : List Shape) :
    ∀ q ∈ (s.insertAll r.admits shapes).2.toList, r.admits q.shape = true := by
  obtain ⟨new, hext, -, hnew, -⟩ := s.exists_extends_insertAll r.admits shapes
  intro q hq
  rcases List.mem_append.mp (hext.perm.mem_iff.mp hq) with hold | hadded
  · exact h q hold
  · exact (hnew q hadded).2

namespace Confined

/-- Dropping the proposals keeps a growth confined. -/
lemma drop (h : g.Confined) (phase : Phase) (generator : Generator) :
    { g with generator := generator, phase := phase, proposals := [] }.Confined :=
  ⟨h.stored, admitted_nil g.region⟩

lemma refresh (h : g.Confined) : g.refresh.Confined :=
  ⟨h.stored, admitted_run g.store g.productions g.region .exhaustive g.limit g.generator⟩

lemma apply (h : g.Confined) (c : Proposal) : (g.apply c).2.Confined :=
  ⟨admits_of_mem_insertAll h.stored c.additions, h.proposed⟩

lemma plant (h : g.Confined) (shape : Shape) : (g.plant shape).2.Confined := by
  have heq : (g.plant shape).2.store = (g.store.insertAll g.region.admits [shape]).2 := rfl
  refine ⟨?_, h.proposed⟩
  rw [heq]
  exact admits_of_mem_insertAll h.stored [shape]

lemma plantAll (h : g.Confined) (shapes : List Shape) : (Scene.plantAll g shapes).2.Confined := by
  induction shapes generalizing g with
  | nil => exact h
  | cons shape shapes ih => exact ih (h.plant shape)

lemma start (h : g.Confined) (policy : Policy) : (g.start policy).2.Confined := by
  unfold Growth.start
  split
  · exact h
  · exact ⟨h.stored, admitted_nil g.region⟩

lemma tick (h : g.Confined) : g.tick.2.Confined := by
  rcases g.tick_cases with ⟨-, heq⟩ | ⟨-, generator, ⟨-, heq⟩ | ⟨c, -, heq⟩⟩ <;> rw [heq]
  · exact h
  · exact h.drop .idle generator
  · exact ⟨(h.apply c).stored, h.proposed⟩

lemma applyAt (h : g.Confined) (p : Point) : (g.applyAt p).2.Confined := by
  unfold Growth.applyAt
  split
  · exact h
  · dsimp only
    split
    · exact h.refresh
    · exact (h.refresh.apply _).refresh

lemma setShowPreviews (h : g.Confined) (shown : Bool) : (g.setShowPreviews shown).Confined := by
  have hshown : { g with showPreviews := shown }.Confined := ⟨h.stored, h.proposed⟩
  cases shown with
  | false => exact hshown
  | true => exact hshown.refresh

lemma setProductions (h : g.Confined) (productions : List Production) :
    (g.setProductions productions).Confined := by
  have hstopped : { g.stop with productions := productions }.Confined :=
    ⟨h.stored, admitted_nil g.region⟩
  exact hstopped.refresh

lemma reset (g : Growth) : g.reset.Confined :=
  ⟨fun _ hq => absurd hq List.not_mem_nil, admitted_nil g.region⟩

end Confined

/-- Whatever the command, a confined growth stays so. -/
lemma confined_perform (h : g.Confined) (c : Command) : (g.perform c).Confined := by
  cases c with
  | plant shape => exact h.plant shape
  | start policy => exact h.start policy
  | stop => exact h.drop .idle g.generator
  | tick => exact h.tick
  | applyAt p => exact h.applyAt p
  | refresh => exact h.refresh
  | setShowPreviews shown => exact h.setShowPreviews shown
  | setProductions productions => exact h.setProductions productions
  | reset => exact .reset g
  | install scene =>
    have hplanted := (Confined.reset g).plantAll scene.seeds
    exact hplanted.setProductions scene.productions

/-! ### Histories -/

lemma confined_after (h : g.Confined) (cs : List Command) : (g.after cs).Confined := by
  induction cs generalizing g with
  | nil => exact h
  | cons c cs ih => exact ih (confined_perform h c)

/-- A growth with a history is confined. -/
lemma Reachable.confined (h : g.Reachable) : g.Confined := by
  obtain ⟨region, productions, seed, limit, cs, rfl⟩ := h
  have hnew : (new region productions seed limit).Confined :=
    ⟨fun _ hq => absurd hq List.not_mem_nil, admitted_nil region⟩
  exact confined_after hnew cs

/-- Let a growth with any history have a region whose ends, moved out by the slack, are finite.
Every polygon that is stored can be drawn there: it has three vertices at least, all finite and
within these ends.  So can every shape that a proposal would add, whether the proposal is kept for
previews or comes from any search of the store as it is. -/
theorem everything_can_be_drawn (h : g.Reachable) (hregion : g.region.Bounded) :
    (∀ q ∈ g.store.toList, g.region.Encloses q.shape) ∧
      (∀ c ∈ g.proposals, ∀ s ∈ c.additions, g.region.Encloses s) ∧
      ∀ sampling limit generator,
        ∀ c ∈ (Search.run g.store g.productions g.region.admits sampling limit generator).1,
          ∀ s ∈ c.additions, g.region.Encloses s := by
  have hdraw : ∀ cs, Admitted g.region cs →
      ∀ c ∈ cs, ∀ s ∈ c.additions, g.region.Encloses s :=
    fun cs hcs c hc s hs => Region.encloses_of_admits hregion (hcs c hc s hs)
  refine ⟨?_, hdraw _ h.confined.proposed, ?_⟩
  · exact fun q hq => Region.encloses_of_admits hregion (h.confined.stored q hq)
  · exact fun sampling limit generator => hdraw _ (admitted_run _ _ _ sampling limit generator)

/-! ### A rule that leads beyond all bounds -/

/-- A square, and two rules: one adds the square to its right, and the other adds a square so far
away that its image overflows at this size. -/
def besideAndBeyond : Growth :=
  (new (.canvas 4 4) [squareBeside 1 1 0, squareBeside 2 1e308 0] 0 none).after
    [.plant (square 0 0 2), .start .weighted, .tick, .stop, .refresh]

theorem besideAndBeyond_can_be_drawn :
    besideAndBeyond.Reachable ∧ besideAndBeyond.region.Bounded ∧ besideAndBeyond.store.size = 2 ∧
      ∀ q ∈ besideAndBeyond.store.toList, besideAndBeyond.region.Encloses q.shape := by
  have hreach : besideAndBeyond.Reachable := ⟨_, _, _, _, _, rfl⟩
  have hregion : besideAndBeyond.region.Bounded := by
    constructor <;> decide +kernel
  have hsize : besideAndBeyond.store.size = 2 := by decide +kernel
  exact ⟨hreach, hregion, hsize, (everything_can_be_drawn hreach hregion).1⟩

end Growth

end ShapeGrammar
