import ShapeGrammar.Proofs.Growth.History
import ShapeGrammar.Worker

/-!
# What the owner of a worker hears

The worker and the owner of a growth take turns under one lock, so that everything that can happen
between them is a list of steps, `Shared.Step`, in any order.  The queue between them has two
writers, the worker and `stop`, and one reader.

Without the queue and the lock, a step is a function on growths (`Step.effect`), and some steps are
worth an update (`Step.news`): a wake-up in which the worker ticks, and a stop.  Whatever the order
of the steps, the growth is what these functions make of it, and what the owner has received,
followed by what is still queued, is the news of the steps in their order (`Shared.perform_spec`).
What is known about growths then carries over: an idle growth stays idle, and the worker silent,
until a step of the owner starts it.
-/

namespace ShapeGrammar

namespace Shared

/-! ### Steps -/

/-- A step of the worker or of the owner, taken under the lock. -/
inductive Step where
  /-- The worker wakes up. -/
  | wake
  | start (policy : Policy)
  | stop
  /-- The owner asks whether the growth runs. -/
  | isRunning
  /-- The owner does something else with the growth. -/
  | withGrowth (f : Growth → Growth)
  | drain
  | receiveExhausted

/-- The updates that the owner receives in a step, and the state afterwards. -/
def act (s : Shared) : Step → List Update × Shared
  | .wake => ([], s.wake)
  | .start policy => ([], (s.start policy).2)
  | .stop => ([], s.stop)
  | .isRunning => ([], s)
  | .withGrowth f => ([], (s.withGrowth fun g => ((), f g)).2)
  | .drain => s.drain
  | .receiveExhausted => s.receiveExhausted.getD ([], s)

/-- The updates that the owner receives in steps one after the other, and the state afterwards. -/
def perform (s : Shared) : List Step → List Update × Shared
  | [] => ([], s)
  | step :: steps =>
    let (received, s) := s.act step
    let (more, s) := s.perform steps
    (received ++ more, s)

namespace Step

/-- The growth after a step: a tick in a wake-up, and otherwise what the owner does. -/
def effect (g : Growth) : Step → Growth
  | wake => g.tick.2
  | start policy => (g.start policy).2
  | stop => g.stop
  | withGrowth f => f g
  | _ => g

/-- The growth after steps one after the other. -/
def effects (g : Growth) (steps : List Step) : Growth := steps.foldl effect g

/-- The update that a step is worth, with the state right after the step: there is one for a tick of
a growth that runs, and one for every stop. -/
def news (g : Growth) : Step → Option Update
  | wake =>
    if g.isRunning then
      some ⟨g.tick.1, g.tick.2.store.size, g.tick.2.ticks, g.tick.2.phase⟩
    else none
  | stop => some ⟨.idle, g.store.size, g.ticks, .idle⟩
  | _ => none

/-- The updates that steps one after the other are worth. -/
def allNews (g : Growth) : List Step → List Update
  | [] => []
  | step :: steps => (step.news g).toList ++ allNews (step.effect g) steps

/-- In this step the owner starts the growth. -/
def Starts (g : Growth) : Step → Prop
  | start _ => g.isRunning = false
  | withGrowth f => g.isRunning = false ∧ (f g).isRunning = true
  | _ => False

/-- In one of these steps the owner starts the growth. -/
def SomeStarts (g : Growth) : List Step → Prop
  | [] => False
  | step :: steps => step.Starts g ∨ SomeStarts (step.effect g) steps

end Step

open Step (effects allNews SomeStarts)

variable {g : Growth} {s : Shared} {step : Step} {steps : List Step}

lemma effects_append (g : Growth) (steps more : List Step) :
    effects g (steps ++ more) = effects (effects g steps) more :=
  List.foldl_append

/-! ### The growth and the queue -/

/-- A step has its effect on the growth and sends its news to the end of the queue, out of which the
owner receives from the front. -/
lemma act_spec (hs : s.alive = true) (step : Step) :
    (s.act step).2.alive = true ∧ (s.act step).2.growth = step.effect s.growth ∧
      (s.act step).1 ++ (s.act step).2.updates = s.updates ++ (step.news s.growth).toList := by
  cases step with
  | wake =>
    cases hrun : s.growth.isRunning with
    | false =>
      have hidle : s.growth.tick = (.idle, s.growth) := by simp [Growth.tick, hrun]
      simp [act, wake, Step.effect, Step.news, hs, hrun, hidle]
    | true => simp [act, wake, Step.effect, Step.news, Update.ofGrowth, hs, hrun]
  | stop => simp [act, stop, Step.effect, Step.news, Update.ofGrowth, Growth.stop, hs]
  | receiveExhausted =>
    simp only [act, receiveExhausted]
    split
    · simp [Step.effect, Step.news, hs]
    · simp [Step.effect, Step.news, hs]
  | start policy => simp [act, Shared.start, Shared.withGrowth, Step.effect, Step.news, hs]
  | withGrowth f => simp [act, Shared.withGrowth, Step.effect, Step.news, hs]
  | isRunning => simp [act, Step.effect, Step.news, hs]
  | drain => simp [act, drain, Step.effect, Step.news, hs]

/-- What holds of one step holds of all: the growth is what the steps make of it, and nothing of
their news is lost, doubled or out of order. -/
lemma perform_spec (hs : s.alive = true) (steps : List Step) :
    (s.perform steps).2.alive = true ∧ (s.perform steps).2.growth = effects s.growth steps ∧
      (s.perform steps).1 ++ (s.perform steps).2.updates =
        s.updates ++ allNews s.growth steps := by
  induction steps generalizing s with
  | nil => simp [perform, effects, allNews, hs]
  | cons step steps ih =>
    obtain ⟨halive, hgrowth, hqueue⟩ := s.act_spec hs step
    obtain ⟨halive', hgrowth', hqueue'⟩ := ih halive
    refine ⟨halive', ?_, ?_⟩
    · rw [hgrowth] at hgrowth'
      exact hgrowth'
    · rw [hgrowth] at hqueue'
      calc (s.perform (step :: steps)).1 ++ (s.perform (step :: steps)).2.updates
          = (s.act step).1 ++ (((s.act step).2.perform steps).1 ++
              ((s.act step).2.perform steps).2.updates) := List.append_assoc _ _ _
        _ = s.updates ++ allNews s.growth (step :: steps) := by
            rw [hqueue', ← List.append_assoc, hqueue, List.append_assoc]
            rfl

/-! ### Idle growths -/

/-- The worker does nothing with an idle growth. -/
lemma wake_of_idle (hidle : s.growth.isRunning = false) : s.wake = s := by
  simp [wake, hidle]

/-- An idle growth stays idle in a step that does not start it, and the step is worth no update but
that of a stop. -/
lemma idle_of_not_starts (hidle : g.isRunning = false) (h : ¬ step.Starts g) :
    (step.effect g).isRunning = false ∧ ∀ u ∈ step.news g, u.outcome = .idle := by
  cases step with
  | wake =>
    have htick : g.tick = (.idle, g) := by simp [Growth.tick, hidle]
    simp [Step.effect, Step.news, htick, hidle]
  | start policy => exact absurd hidle h
  | withGrowth f => simpa [Step.effect, Step.news, Step.Starts, hidle] using h
  | stop => simp [Step.effect, Step.news, Growth.stop, Growth.isRunning]
  | isRunning => simpa [Step.effect, Step.news] using hidle
  | drain => simpa [Step.effect, Step.news] using hidle
  | receiveExhausted => simpa [Step.effect, Step.news] using hidle

/-- An idle growth stays idle as long as nothing starts it. -/
lemma idle_effects (hidle : g.isRunning = false) (h : ¬ SomeStarts g steps) :
    (effects g steps).isRunning = false := by
  induction steps generalizing g with
  | nil => exact hidle
  | cons step steps ih =>
    rw [SomeStarts, not_or] at h
    exact ih (idle_of_not_starts hidle h.1).1 h.2

/-- If the news of an idle growth tell of an application, the growth was started before that. -/
lemma exists_start_of_applied (hidle : g.isRunning = false) {j : ℕ} {v : Update} {report : Report}
    (hj : (allNews g steps)[j]? = some v) (hv : v.outcome = .applied report) :
    ∃ before step after, steps = before ++ step :: after ∧ step.Starts (effects g before) ∧
      (allNews g before).length ≤ j := by
  induction steps generalizing g j with
  | nil => simp [allNews] at hj
  | cons step steps ih =>
    by_cases hstart : step.Starts g
    · exact ⟨[], step, steps, rfl, hstart, Nat.zero_le j⟩
    · obtain ⟨hidle', hnews⟩ := idle_of_not_starts hidle hstart
      have hlate : (step.news g).toList.length ≤ j := by
        by_contra hlt
        rw [allNews, List.getElem?_append_left (Nat.lt_of_not_le hlt)] at hj
        have hmem : v ∈ step.news g := by simpa using List.mem_of_getElem? hj
        rw [hnews v hmem] at hv
        cases hv
      rw [allNews, List.getElem?_append_right hlate] at hj
      obtain ⟨before, start, after, rfl, hstarts, hle⟩ := ih hidle' hj
      refine ⟨step :: before, start, after, rfl, hstarts, ?_⟩
      rw [allNews, List.length_append]
      omega

/-- Every update tells of a step: it is the news of that step, behind those of all steps before. -/
lemma exists_step_of_news {i : ℕ} {u : Update} (hi : (allNews g steps)[i]? = some u) :
    ∃ before step after, steps = before ++ step :: after ∧
      step.news (effects g before) = some u ∧ (allNews g before).length = i := by
  induction steps generalizing g i with
  | nil => simp [allNews] at hi
  | cons step steps ih =>
    rw [allNews] at hi
    cases hnews : step.news g with
    | none =>
      rw [hnews] at hi
      obtain ⟨before, step', after, rfl, hu, hlength⟩ := ih hi
      exact ⟨step :: before, step', after, rfl, hu, by simpa [allNews, hnews] using hlength⟩
    | some u' =>
      rw [hnews] at hi
      cases i with
      | zero => exact ⟨[], step, steps, rfl, by simpa [effects, hnews] using hi, rfl⟩
      | succ i =>
        obtain ⟨before, step', after, rfl, hu, hlength⟩ := ih hi
        exact ⟨step :: before, step', after, rfl, hu, by simp [allNews, hnews, hlength]⟩

/-- The news of steps are those of the first ones, and then those of the others. -/
lemma allNews_append (g : Growth) (steps more : List Step) :
    allNews g (steps ++ more) = allNews g steps ++ allNews (effects g steps) more := by
  induction steps generalizing g with
  | nil => rfl
  | cons step steps ih => simp [allNews, effects, ih]

/-- A step with the news that nothing can be applied any more leaves the growth idle. -/
lemma idle_of_exhausted {u : Update} (hnews : step.news g = some u) (hu : u.outcome = .exhausted) :
    (step.effect g).isRunning = false := by
  cases step with
  | wake =>
    simp only [Step.news] at hnews
    split at hnews
    · obtain rfl := Option.some.inj hnews
      rcases g.tick_cases with ⟨-, heq⟩ | ⟨-, generator, ⟨-, heq⟩ | ⟨c, -, heq⟩⟩
      · simp [heq] at hu
      · simp [Step.effect, heq, Growth.isRunning]
      · simp [heq] at hu
    · cases hnews
  | stop =>
    obtain rfl := Option.some.inj hnews
    cases hu
  | _ => cases hnews

/-- All updates that were ever sent, in order: those the owner has received and those that are
queued. -/
def sent (g : Growth) (steps : List Step) : List Update :=
  ((spawn g).perform steps).1 ++ ((spawn g).perform steps).2.updates

/-- Nothing but the news of the steps is sent. -/
lemma sent_eq (g : Growth) (steps : List Step) : sent g steps = allNews g steps :=
  ((spawn g).perform_spec rfl steps).2.2

/-- Let a worker be started for a growth, and let it and its owner take any steps in any order.

The growth is what the steps make of it.  All updates sent are, in the order of the steps, one for
every wake-up in which the growth ran and one for every stop, each with the outcome of the tick, or
`idle`, and with the number of polygons, the number of ticks and the phase right after the step.

After a stop, and until the owner starts the growth again, a wake-up of the worker changes neither
the growth nor the queue.

Between an update that nothing can be applied any more and a later one that something was applied,
the owner has started the growth. -/
theorem updates_tell_of_ticks_and_stops (g : Growth) (steps : List Step) :
    ((spawn g).perform steps).2.growth = effects g steps ∧
    sent g steps = allNews g steps ∧
    (∀ before after, steps = before ++ .stop :: after →
      ¬ SomeStarts (effects g before).stop after →
      ((spawn g).perform steps).2.wake = ((spawn g).perform steps).2) ∧
    ∀ i j u v report, i < j →
      (sent g steps)[i]? = some u → u.outcome = .exhausted →
      (sent g steps)[j]? = some v → v.outcome = .applied report →
      ∃ before step after, steps = before ++ step :: after ∧ step.Starts (effects g before) ∧
        i < (sent g before).length ∧ (sent g before).length ≤ j := by
  obtain ⟨-, hgrowth, -⟩ := (spawn g).perform_spec rfl steps
  refine ⟨hgrowth, sent_eq g steps, ?_, ?_⟩
  · rintro before after rfl hquiet
    have hidle : (effects g (before ++ .stop :: after)).isRunning = false := by
      rw [effects_append]
      exact idle_effects (g := (effects g before).stop) rfl hquiet
    refine wake_of_idle ?_
    rw [hgrowth]
    exact hidle
  · intro i j u v report hij hi hu hj hv
    simp only [sent_eq] at hi hj ⊢
    obtain ⟨before, step, after, rfl, hnews, hlength⟩ := exists_step_of_news hi
    have hsplit : allNews g (before ++ step :: after) =
        allNews g (before ++ [step]) ++ allNews (effects g (before ++ [step])) after := by
      rw [← allNews_append, List.append_assoc, List.singleton_append]
    have hfirst : (allNews g (before ++ [step])).length = i + 1 := by
      simp [allNews_append, allNews, hnews, hlength]
    have hidle : (effects g (before ++ [step])).isRunning = false := by
      rw [effects_append]
      exact idle_of_exhausted hnews hu
    rw [hsplit, List.getElem?_append_right (by omega), hfirst] at hj
    obtain ⟨between, start, later, rfl, hstarts, hle⟩ := exists_start_of_applied hidle hj hv
    rw [← effects_append] at hstarts
    refine ⟨before ++ [step] ++ between, start, later, by simp, hstarts, ?_, ?_⟩ <;>
      rw [allNews_append, List.length_append, hfirst] <;> omega

/-! ### A worker at a row of two squares -/

/-- A square on a canvas for two. -/
def halfRow : Growth :=
  ((Growth.new (.canvas 2 1) [Growth.squareBeside 1 1 0] 3 none).plant (Growth.square 0 0 1)).2

/-- The worker fills the row, and finds that it is full; the owner stops it, and a wake-up later
clears the row and starts the growth from inside. -/
def busyDay : List Step :=
  [.start .first, .wake, .wake, .drain, .wake, .stop, .wake,
    .withGrowth fun g => ((g.reset.plant (Growth.square 0 0 1)).2.start .weighted).2, .wake]

theorem updates_of_busyDay :
    sent halfRow busyDay =
      [⟨.applied ⟨1, [1], [2]⟩, 2, 1, .running⟩, ⟨.exhausted, 2, 1, .idle⟩, ⟨.idle, 2, 1, .idle⟩,
        ⟨.applied ⟨1, [3], [4]⟩, 2, 2, .running⟩] ∧
    ((spawn halfRow).perform (busyDay.take 6)).2.wake =
      ((spawn halfRow).perform (busyDay.take 6)).2 ∧
    ∃ before step after, busyDay = before ++ step :: after ∧
      step.Starts (effects halfRow before) ∧ 1 < (sent halfRow before).length ∧
      (sent halfRow before).length ≤ 3 := by
  have hsent : sent halfRow busyDay =
      [⟨.applied ⟨1, [1], [2]⟩, 2, 1, .running⟩, ⟨.exhausted, 2, 1, .idle⟩, ⟨.idle, 2, 1, .idle⟩,
        ⟨.applied ⟨1, [3], [4]⟩, 2, 2, .running⟩] := by
    decide +kernel
  obtain ⟨-, -, hquiet, -⟩ := updates_tell_of_ticks_and_stops halfRow (busyDay.take 6)
  obtain ⟨-, -, -, hstart⟩ := updates_tell_of_ticks_and_stops halfRow busyDay
  refine ⟨hsent, hquiet (busyDay.take 5) [] rfl not_false, ?_⟩
  exact hstart 1 3 _ _ _ (by decide) (by rw [hsent]; rfl) rfl (by rw [hsent]; rfl) rfl

end Shared

end ShapeGrammar
