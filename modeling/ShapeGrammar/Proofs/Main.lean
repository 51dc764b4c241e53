import ShapeGrammar.Main
import ShapeGrammar.Proofs.Growth.Installation
import ShapeGrammar.Proofs.Growth.Recurrence
import ShapeGrammar.Proofs.Image
import ShapeGrammar.Proofs.Scene.Loading

/-!
# What the program makes of settings

Settings ask for a growth that there is exactly if their canvas has a size in pixels and their scene
is one of the four (`Settings.exists_prepare_iff`).

The program then waits for the worker.  What it waits for is a run, with a tick for every wake-up
(`exists_grown`).  Afterwards the growth is idle, and it has either made as many ticks as it may or
found nothing in its last one (`program_ends`).
-/

namespace ShapeGrammar

/-! ### Preparing a growth -/

namespace Settings

/-- What settings ask for, where the canvas has a size and the scene can be made. -/
lemma prepare_eq_ok_iff {s : Settings} {growth : Growth} :
    s.prepare = .ok growth ↔ (∃ size, s.canvasSize = .ok size) ∧
      ∃ scene, Scene.load s.scene s.canvasWidth s.canvasHeight = .ok scene ∧
        growth = (scene.install (.new s.region [] (UInt64.ofNat s.seed) s.limit)).2 := by
  unfold prepare
  cases s.canvasSize with
  | error failure =>
    constructor
    · intro h
      cases h
    · rintro ⟨⟨size, hsize⟩, -⟩
      cases hsize
  | ok size =>
    cases Scene.load s.scene s.canvasWidth s.canvasHeight with
    | error failure =>
      constructor
      · intro h
        cases h
      · rintro ⟨-, scene, hscene, -⟩
        cases hscene
    | ok scene =>
      constructor
      · intro h
        exact ⟨⟨size, rfl⟩, scene, rfl, (Except.ok.inj h).symm⟩
      · rintro ⟨-, scene', hscene, rfl⟩
        obtain rfl := Except.ok.inj hscene
        rfl

/-- Settings ask for a growth if their canvas has a size in pixels and their scene is ready-made. -/
theorem exists_prepare_iff (s : Settings) :
    (∃ growth, s.prepare = .ok growth) ↔
      (∃ size, s.canvasSize = .ok size) ∧ s.scene ∈ Scene.keys := by
  simp only [prepare_eq_ok_iff, exists_and_left]
  refine and_congr_right ?_
  rintro ⟨size, hsize⟩
  obtain ⟨hwidth, hheight⟩ := isSide_of_canvasSize hsize
  rw [← Scene.exists_load_iff hwidth hheight]
  constructor
  · rintro ⟨growth, scene, hscene, -⟩
    exact ⟨scene, hscene⟩
  · rintro ⟨scene, hscene⟩
    exact ⟨_, scene, hscene, rfl⟩

theorem exists_prepare_default : ∃ growth, default.prepare = .ok growth :=
  (exists_prepare_iff default).mpr ⟨⟨(1024, 768), by decide +kernel⟩, by decide⟩

/-- The growth that settings ask for is idle, with a history, and has not ticked yet. -/
lemma of_prepare {s : Settings} {growth : Growth} (h : s.prepare = .ok growth) :
    growth.Reachable ∧ growth.phase = .idle ∧ growth.ticks = 0 := by
  obtain ⟨-, scene, -, rfl⟩ := prepare_eq_ok_iff.mp h
  refine ⟨⟨s.region, [], UInt64.ofNat s.seed, s.limit, [.install scene], rfl⟩, ?_⟩
  rw [Scene.install_eq]
  exact ⟨rfl, rfl⟩

/-- A canvas with a size in pixels has room for an image. -/
lemma exists_image {s : Settings} {size : ℕ × ℕ} (hsize : s.canvasSize = .ok size)
    (polygons : List Polygon) : ∃ image, Image.ofPolygons polygons size.1 size.2 = .ok image := by
  obtain ⟨hwidth, hheight⟩ := canvasSize_eq_ok_iff.mp hsize
  have hmax : maxCanvasSide ≤ Image.maxRowPixels := by decide
  refine ⟨_, Image.ofPolygons_eq_ok_iff.mpr ⟨?_, ?_, ?_, rfl⟩⟩
  · exact (range_of_pixels hwidth).1
  · exact (range_of_pixels hheight).1
  · exact (range_of_pixels hwidth).2.trans hmax

end Settings

/-! ### Growing it -/

namespace Growth

variable {g : Growth} {report : Report}

/-- A tick that applies something is counted. -/
lemma ticks_of_applied (h : g.tick.1 = .applied report) : g.tick.2.ticks = g.ticks + 1 := by
  rcases g.tick_cases with ⟨-, heq⟩ | ⟨-, generator, ⟨-, heq⟩ | ⟨c, -, heq⟩⟩
  · rw [heq] at h
    cases h
  · rw [heq] at h
    cases h
  · rw [heq]

/-- A tick that finds nothing is not counted, and leaves nothing for a stop to do. -/
lemma of_exhausted (h : g.tick.1 = .exhausted) :
    g.tick.2.ticks = g.ticks ∧ g.tick.2.stop = g.tick.2 := by
  rcases g.tick_cases with ⟨-, heq⟩ | ⟨-, generator, ⟨-, heq⟩ | ⟨c, -, heq⟩⟩
  · rw [heq] at h
    cases h
  · rw [heq]
    exact ⟨rfl, rfl⟩
  · rw [heq] at h
    cases h

/-- An idle growth can be started. -/
lemma start_of_idle (hidle : g.phase = .idle) (policy : Policy) :
    (g.start policy).2.phase = .running ∧ (g.start policy).2.ticks = g.ticks := by
  have hnot : ¬ g.isRunning = true := by
    rw [isRunning, hidle]
    decide
  rw [start, if_neg hnot]
  exact ⟨rfl, rfl⟩

/-- A run is a number of ticks. -/
lemma exists_run_eq_after (g : Growth) (n : ℕ) :
    ∃ k, (g.run n).2 = g.after (List.replicate k .tick) := by
  induction n generalizing g with
  | zero => exact ⟨0, rfl⟩
  | succ n ih =>
    cases houtcome : g.tick.1 with
    | applied report =>
      obtain ⟨k, hk⟩ := ih g.tick.2
      refine ⟨k + 1, ?_⟩
      rw [run_succ_of_applied houtcome]
      exact hk
    | exhausted =>
      refine ⟨1, ?_⟩
      rw [run_succ_of_exhausted houtcome]
      rfl
    | idle =>
      have htick : g.tick = (.idle, g.tick.2) := Prod.ext houtcome rfl
      refine ⟨1, ?_⟩
      rw [run, htick]
      rfl

/-- In a run that found nothing in the end, there was a tick that did. -/
lemma exists_tick_of_run {g' : Growth} {n : ℕ} {outcomes : List Outcome}
    (h : g.run n = (outcomes ++ [.exhausted], g')) :
    ∃ k, (g.after (List.replicate k .tick)).tick = (.exhausted, g') := by
  induction n generalizing g outcomes with
  | zero =>
    obtain ⟨hnil, -⟩ := Prod.mk.inj h
    exact absurd hnil.symm (List.concat_ne_nil _ _)
  | succ n ih =>
    cases houtcome : g.tick.1 with
    | applied report =>
      rw [run_succ_of_applied houtcome] at h
      obtain ⟨houtcomes, hfinal⟩ := Prod.mk.inj h
      cases outcomes with
      | nil => cases houtcomes
      | cons outcome outcomes =>
        obtain ⟨k, hk⟩ := ih (Prod.ext (List.cons.inj houtcomes).2 hfinal)
        exact ⟨k + 1, hk⟩
    | exhausted =>
      rw [run_succ_of_exhausted houtcome] at h
      exact ⟨0, Prod.ext houtcome (Prod.mk.inj h).2⟩
    | idle =>
      have htick : g.tick = (.idle, g.tick.2) := Prod.ext houtcome rfl
      rw [run, htick] at h
      obtain ⟨houtcomes, -⟩ := Prod.mk.inj h
      cases outcomes with
      | nil => cases houtcomes
      | cons outcome outcomes =>
        have hnil := (List.cons.inj houtcomes).2
        exact absurd hnil.symm (List.concat_ne_nil _ _)

end Growth

section Growing

variable {s : Shared}

lemma grow_of_idle (hidle : s.isRunning = false) (maxSteps : Option ℕ) : grow maxSteps s = s := by
  rw [grow, if_neg (by rw [hidle, Bool.and_false]; decide)]

lemma grow_of_running (h : (s.alive && s.isRunning) = true) (maxSteps : Option ℕ) :
    grow maxSteps s =
      if maxSteps.any (· ≤ s.wake.growth.ticks) then s.wake.stop else grow maxSteps s.wake := by
  rw [grow, if_pos h]

/-- What the growth of a worker has become, and the ticks that led there: each of them applied
something, and then either one more tick found nothing, or the growth was stopped as it had made as
many ticks as it may.  A stop would not change it any more. -/
structure Grown (maxSteps : Option ℕ) (g : Growth) (reports : List Report) (g' : Growth) : Prop where
  stop_eq : g'.stop = g'
  ticks_eq : g'.ticks = g.ticks + reports.length
  ticks_le : ∀ n ∈ maxSteps, g'.ticks ≤ max n (g.ticks + 1)
  run_eq : g.run (reports.length + 1) = (reports.map .applied ++ [.exhausted], g') ∨
    (∃ n ∈ maxSteps, n ≤ g'.ticks) ∧
      ∃ last, g.run reports.length = (reports.map .applied, last) ∧ g' = last.stop

/-- Another tick before them, after which the growth may go on. -/
lemma Grown.cons {maxSteps : Option ℕ} {g g' : Growth} {report : Report} {reports : List Report}
    (happlied : g.tick.1 = .applied report) (hmay : ∀ n ∈ maxSteps, g.tick.2.ticks < n)
    (h : Grown maxSteps g.tick.2 reports g') : Grown maxSteps g (report :: reports) g' where
  stop_eq := h.stop_eq
  ticks_eq := by
    rw [h.ticks_eq, Growth.ticks_of_applied happlied, List.length_cons]
    omega
  ticks_le n hn := by
    have hle := h.ticks_le n hn
    have hlt := hmay n hn
    omega
  run_eq := by
    rw [List.length_cons, Growth.run_succ_of_applied happlied,
      Growth.run_succ_of_applied happlied]
    rcases h.run_eq with hrun | ⟨henough, last, hrun, heq⟩
    · rw [hrun]
      exact Or.inl rfl
    · rw [hrun]
      exact Or.inr ⟨henough, last, rfl, heq⟩

/-- A single tick, after which the growth is stopped. -/
lemma Grown.stopped {maxSteps : Option ℕ} {g : Growth} {report : Report}
    (happlied : g.tick.1 = .applied report) (hmay : ∃ n ∈ maxSteps, n ≤ g.tick.2.ticks) :
    Grown maxSteps g [report] g.tick.2.stop where
  stop_eq := rfl
  ticks_eq := Growth.ticks_of_applied happlied
  ticks_le n _ := (Growth.ticks_of_applied happlied).le.trans (le_max_right n _)
  run_eq := Or.inr ⟨hmay, g.tick.2, Growth.run_succ_of_applied happlied 0, rfl⟩

/-- A tick that finds nothing. -/
lemma Grown.exhausted (maxSteps : Option ℕ) {g : Growth} (hexhausted : g.tick.1 = .exhausted) :
    Grown maxSteps g [] g.tick.2 where
  stop_eq := (Growth.of_exhausted hexhausted).2
  ticks_eq := (Growth.of_exhausted hexhausted).1
  ticks_le n _ := by
    rw [(Growth.of_exhausted hexhausted).1]
    exact (Nat.le_succ _).trans (le_max_right n _)
  run_eq := Or.inl (Growth.run_succ_of_exhausted hexhausted 0)

/-- Nothing but ticks and a stop has happened to the growth. -/
lemma Grown.exists_commands {maxSteps : Option ℕ} {g g' : Growth} {reports : List Report}
    (h : Grown maxSteps g reports g') : ∃ cs, g' = g.after cs := by
  rcases h.run_eq with heq | ⟨-, last, heq, rfl⟩
  · obtain ⟨k, hk⟩ := g.exists_run_eq_after (reports.length + 1)
    exact ⟨_, (congrArg Prod.snd heq).symm.trans hk⟩
  · obtain ⟨k, hk⟩ := g.exists_run_eq_after reports.length
    rw [heq] at hk
    refine ⟨List.replicate k .tick ++ [.stop], ?_⟩
    rw [Growth.after_append, ← hk]
    rfl

/-- A growth that might have made more ticks found nothing in its last one. -/
lemma Grown.exists_last_tick {maxSteps : Option ℕ} {g g' : Growth} {reports : List Report}
    (h : Grown maxSteps g reports g') (hmay : ∀ n ∈ maxSteps, g'.ticks < n) :
    ∃ k, (g.after (List.replicate k .tick)).tick = (.exhausted, g') := by
  rcases h.run_eq with heq | ⟨⟨n, hn, hle⟩, -⟩
  · exact Growth.exists_tick_of_run heq
  · exact absurd (hmay n hn) (Nat.not_lt.mpr hle)

/-- However often the worker has to be woken, the waiting comes to an end. -/
theorem exists_grown (maxSteps : Option ℕ) (halive : s.alive = true)
    (hrun : s.growth.phase = .running) :
    ∃ reports, reports.length ≤ s.growth.room ∧
      Grown maxSteps s.growth reports (grow maxSteps s).growth := by
  induction hroom : s.growth.room using Nat.strong_induction_on generalizing s with
  | _ room ih =>
    have hboth : (s.alive && s.isRunning) = true :=
      Bool.and_eq_true_iff.mpr ⟨halive, decide_eq_true hrun⟩
    obtain ⟨halive', hwake⟩ := Shared.wake_of_running hboth
    rw [grow_of_running hboth, hwake]
    rcases Growth.tick_of_running hrun with ⟨report, happlied, hrun'⟩ | ⟨hexhausted, hidle⟩
    · have hless : s.growth.tick.2.room < room := hroom ▸ Growth.room_tick_lt happlied
      split
      · next hstop =>
        have hstopped : s.wake.stop.growth = s.growth.tick.2.stop := congrArg Growth.stop hwake
        refine ⟨[report], Nat.one_le_of_lt hless, ?_⟩
        rw [hstopped]
        refine .stopped happlied ?_
        simpa [Option.any_eq_true] using hstop
      · next hmay =>
        rw [← hwake] at hless hrun'
        obtain ⟨reports, hlength, hgrown⟩ := ih _ hless halive' hrun' rfl
        rw [hwake] at hgrown
        refine ⟨report :: reports, Nat.succ_le_of_lt (hlength.trans_lt hless), ?_⟩
        refine hgrown.cons happlied ?_
        simpa [Option.any_eq_true] using hmay
    · have hsame : ∀ s', s' = s.wake.stop ∨ s' = s.wake → s'.growth = s.growth.tick.2 := by
        rintro _ (rfl | rfl)
        · exact (congrArg Growth.stop hwake).trans (Growth.of_exhausted hexhausted).2
        · exact hwake
      have hover : grow maxSteps s.wake = s.wake :=
        grow_of_idle (by rw [Shared.isRunning, Growth.isRunning, hwake, hidle]; rfl) maxSteps
      refine ⟨[], Nat.zero_le _, ?_⟩
      rw [hover, hsame _ (ite_eq_or_eq _ _ _)]
      exact .exhausted maxSteps hexhausted

end Growing

/-! ### The whole program -/

/-- What the program makes of settings that ask for a growth is an idle growth with a history, and an
image of it can be made.  It has made no more ticks than it may, though it always tries one; and
unless it has made all of these, its last tick found nothing any more. -/
theorem program_ends {s : Settings} {growth : Growth} (h : s.prepare = .ok growth) :
    (s.grown growth).Reachable ∧ (s.grown growth).phase = .idle ∧
      (∀ n ∈ s.maxSteps, (s.grown growth).ticks ≤ max n 1) ∧
      ((∀ n ∈ s.maxSteps, (s.grown growth).ticks < n) →
        ∃ last : Growth, last.Reachable ∧ last.tick = (.exhausted, s.grown growth)) ∧
      ∃ size image, s.canvasSize = .ok size ∧
        Image.ofPolygons (s.grown growth).store.toList size.1 size.2 = .ok image := by
  obtain ⟨⟨size, hsize⟩, -⟩ := Settings.prepare_eq_ok_iff.mp h
  obtain ⟨hreach, hidle, hticks⟩ := Settings.of_prepare h
  obtain ⟨hrun, hsame⟩ := Growth.start_of_idle hidle s.policy
  have hreach' : (growth.start s.policy).2.Reachable := hreach.after [.start s.policy]
  obtain ⟨reports, -, hgrown⟩ :=
    exists_grown (s := ((Shared.spawn growth).start s.policy).2) s.maxSteps rfl hrun
  have heq : s.grown growth = (grow s.maxSteps ((Shared.spawn growth).start s.policy).2).growth :=
    hgrown.stop_eq
  rw [← heq] at hgrown
  obtain ⟨image, himage⟩ := Settings.exists_image hsize (s.grown growth).store.toList
  refine ⟨?_, ?_, fun n hn => ?_, fun hmay => ?_, size, image, hsize, himage⟩
  · obtain ⟨cs, hcs⟩ := hgrown.exists_commands
    exact hcs ▸ hreach'.after cs
  · exact congrArg Growth.phase hgrown.stop_eq.symm
  · have hle := hgrown.ticks_le n hn
    have hzero : ((Shared.spawn growth).start s.policy).2.growth.ticks = 0 := hsame.trans hticks
    rwa [hzero] at hle
  · obtain ⟨k, hk⟩ := hgrown.exists_last_tick hmay
    exact ⟨_, hreach'.after _, hk⟩

end ShapeGrammar
