import ShapeGrammar.Proofs.Growth.History
import ShapeGrammar.Proofs.Search.Proposals

/-!
# Previews change nothing but previews

The list of previews and the flag that shows it are fields of the growth, preview searches are given
the generator of the growth, and a pick by hand chooses from the very list that is previewed.  None
of this is felt elsewhere.  A preview search is exhaustive, so it draws nothing
(`Growth.refresh_eq`), and a pick by hand searches anew before it chooses.

So what a command answers, and what it makes of the growth, can be read from the growth without its
previews (`Growth.respond_withoutPreviews`, `Growth.withoutPreviews_perform`), and the commands
about previews leave that growth alone.  By induction they can be dropped from any history.
-/

namespace ShapeGrammar

namespace Growth

/-! ### Answers -/

/-- What a command answers. -/
inductive Answer where
  | done
  /-- The number of the new polygon, if the shape took root. -/
  | planted (id : Option ℕ)
  /-- Whether a run has begun. -/
  | started (begun : Bool)
  | ticked (outcome : Outcome)
  | applied (report : Option Report)
  /-- How many seeds took root. -/
  | installed (planted : ℕ)
deriving DecidableEq

/-- The answer to a command. -/
def respond (g : Growth) : Command → Answer
  | .plant shape => .planted (g.plant shape).1
  | .start policy => .started (g.start policy).1
  | .tick => .ticked g.tick.1
  | .applyAt p => .applied (g.applyAt p).1
  | .install scene => .installed (scene.install g).1
  | .stop => .done
  | .refresh => .done
  | .setShowPreviews _ => .done
  | .setProductions _ => .done
  | .reset => .done

/-- The command is about previews only. -/
def Command.isPreview : Command → Bool
  | .refresh => true
  | .setShowPreviews _ => true
  | _ => false

/-- The answers to commands one after the other, but for those about previews. -/
def answers (g : Growth) : List Command → List Answer
  | [] => []
  | c :: cs => (if c.isPreview then [] else [g.respond c]) ++ (g.perform c).answers cs

/-! ### A growth without its previews -/

/-- The growth with the previews of a new one. -/
def withoutPreviews (g : Growth) : Growth := { g with proposals := [], showPreviews := true }

variable (g : Growth)

@[simp] lemma isRunning_withoutPreviews : g.withoutPreviews.isRunning = g.isRunning := rfl

/-- A preview search draws nothing. -/
lemma refresh_eq : g.refresh = { g with proposals := (g.search .exhaustive g.limit).1 } := by
  have hgenerator : (g.search .exhaustive g.limit).2 = g.generator := by
    rw [search, Search.run_exhaustive]
  unfold refresh
  rw [← hgenerator]

@[simp] lemma withoutPreviews_refresh : g.refresh.withoutPreviews = g.withoutPreviews := by
  rw [refresh_eq]
  rfl

lemma withoutPreviews_setShowPreviews (shown : Bool) :
    (g.setShowPreviews shown).withoutPreviews = g.withoutPreviews := by
  cases shown with
  | false => rfl
  | true => exact withoutPreviews_refresh _

/-- Commands about previews leave everything else alone. -/
lemma withoutPreviews_perform_of_isPreview {c : Command} (h : c.isPreview = true) :
    (g.perform c).withoutPreviews = g.withoutPreviews := by
  cases c with
  | refresh => exact g.withoutPreviews_refresh
  | setShowPreviews shown => exact g.withoutPreviews_setShowPreviews shown
  | _ => cases h

/-! ### The other commands

Each operation answers without the previews what it answers with them, and makes the same of the
growth but for the previews.  Planting, stopping and resetting do not read the previews, so for them
this holds by definition. -/

lemma start_withoutPreviews (policy : Policy) :
    Prod.map id withoutPreviews (g.withoutPreviews.start policy) =
      Prod.map id withoutPreviews (g.start policy) := by
  unfold start
  rw [isRunning_withoutPreviews]
  by_cases h : g.isRunning = true
  · rw [if_pos h, if_pos h]
    rfl
  · rw [if_neg h, if_neg h]
    rfl

lemma runningTick_withoutPreviews :
    g.withoutPreviews.runningTick = Prod.map id withoutPreviews g.runningTick := by
  unfold runningTick
  dsimp only [search, withoutPreviews]
  split <;> rfl

lemma tick_withoutPreviews :
    g.withoutPreviews.tick = Prod.map id withoutPreviews g.tick := by
  unfold tick
  rw [isRunning_withoutPreviews]
  by_cases h : g.isRunning = true
  · rw [if_pos h, if_pos h]
    exact g.runningTick_withoutPreviews
  · rw [if_neg h, if_neg h]
    rfl

/-- A pick by hand chooses from a search of its own, whatever was previewed. -/
lemma applyAt_withoutPreviews (p : Point) :
    Prod.map id withoutPreviews (g.withoutPreviews.applyAt p) =
      Prod.map id withoutPreviews (g.applyAt p) := by
  have hrefresh : g.withoutPreviews.refresh = { g.refresh with showPreviews := true } := rfl
  unfold applyAt
  rw [isRunning_withoutPreviews, hrefresh]
  by_cases h : g.isRunning = true
  · rw [if_pos h, if_pos h]
    rfl
  · rw [if_neg h, if_neg h]
    dsimp only
    split
    · rfl
    · simp only [Prod.map_apply, withoutPreviews_refresh]
      rfl

lemma plantAll_withoutPreviews (shapes : List Shape) :
    Scene.plantAll g.withoutPreviews shapes =
      Prod.map id withoutPreviews (Scene.plantAll g shapes) := by
  induction shapes generalizing g with
  | nil => rfl
  | cons shape shapes ih =>
    have hrest := ih (g.plant shape).2
    unfold Scene.plantAll
    rw [show g.withoutPreviews.plant shape =
      Prod.map id withoutPreviews (g.plant shape) from rfl]
    simp only [Prod.map_fst, Prod.map_snd, id, hrest]
    rfl

lemma setProductions_withoutPreviews (productions : List Production) :
    (g.withoutPreviews.setProductions productions).withoutPreviews =
      (g.setProductions productions).withoutPreviews := by
  simp only [setProductions, withoutPreviews_refresh]
  rfl

lemma install_withoutPreviews (scene : Scene) :
    Prod.map id withoutPreviews (scene.install g.withoutPreviews) =
      Prod.map id withoutPreviews (scene.install g) := by
  unfold Scene.install
  rw [show g.withoutPreviews.reset = g.reset.withoutPreviews from rfl, plantAll_withoutPreviews]
  simp only [Prod.map_apply, Prod.map_fst, Prod.map_snd, id, setProductions_withoutPreviews]

/-- The answer to a command can be read from the growth without its previews. -/
lemma respond_withoutPreviews (c : Command) : g.withoutPreviews.respond c = g.respond c := by
  cases c with
  | start policy => exact congrArg (Answer.started ·.1) (g.start_withoutPreviews policy)
  | tick => exact congrArg (Answer.ticked ·.1) g.tick_withoutPreviews
  | applyAt p => exact congrArg (Answer.applied ·.1) (g.applyAt_withoutPreviews p)
  | install scene => exact congrArg (Answer.installed ·.1) (g.install_withoutPreviews scene)
  | _ => rfl

/-- What a command makes of the growth, but for its previews, can be read from the growth without
its previews. -/
lemma withoutPreviews_perform (c : Command) :
    (g.withoutPreviews.perform c).withoutPreviews = (g.perform c).withoutPreviews := by
  by_cases hpreview : c.isPreview = true
  · rw [withoutPreviews_perform_of_isPreview _ hpreview,
      withoutPreviews_perform_of_isPreview _ hpreview]
    rfl
  · cases c with
    | refresh => exact absurd rfl hpreview
    | setShowPreviews shown => exact absurd rfl hpreview
    | start policy => exact congrArg Prod.snd (g.start_withoutPreviews policy)
    | tick => exact congrArg (·.2.withoutPreviews) g.tick_withoutPreviews
    | applyAt p => exact congrArg Prod.snd (g.applyAt_withoutPreviews p)
    | install scene => exact congrArg Prod.snd (g.install_withoutPreviews scene)
    | setProductions productions => exact g.setProductions_withoutPreviews productions
    | _ => rfl

variable {g : Growth} {g' : Growth}

/-- Growths that differ in their previews only answer alike and go on to differ in their previews
only. -/
lemma perform_congr (h : g.withoutPreviews = g'.withoutPreviews) (c : Command) :
    g.respond c = g'.respond c ∧
      (g.perform c).withoutPreviews = (g'.perform c).withoutPreviews := by
  constructor
  · rw [← respond_withoutPreviews g, h, respond_withoutPreviews]
  · rw [← withoutPreviews_perform g, h, withoutPreviews_perform]

/-! ### Histories -/

/-- Of two growths that differ in their previews only, let one leave out the commands about
previews. -/
lemma after_filter_congr (h : g.withoutPreviews = g'.withoutPreviews) (cs : List Command) :
    g.answers (cs.filter (!·.isPreview)) = g'.answers cs ∧
      (g.after (cs.filter (!·.isPreview))).withoutPreviews = (g'.after cs).withoutPreviews := by
  induction cs generalizing g g' with
  | nil => exact ⟨rfl, h⟩
  | cons c cs ih =>
    by_cases hpreview : c.isPreview = true
    · have hsame : g.withoutPreviews = (g'.perform c).withoutPreviews := by
        rw [withoutPreviews_perform_of_isPreview _ hpreview, h]
      rw [List.filter_cons_of_neg (by rw [hpreview]; decide), answers, if_pos hpreview]
      exact ih hsame
    · obtain ⟨hanswer, hsame⟩ := perform_congr h c
      obtain ⟨hanswers, hafter⟩ := ih hsame
      rw [List.filter_cons_of_pos (by simpa using hpreview), answers, answers, if_neg hpreview,
        if_neg hpreview, hanswer, hanswers]
      exact ⟨rfl, hafter⟩

/-- Whatever a growth is and whatever happens to it, leave out every search for previews and every
command to show or hide them.  The other commands are answered as before, and in the end the growth
is the same in everything but the list of previews and whether it is shown: the store with its
numbers, the productions, the generator, the phase, the policy and the count of ticks. -/
theorem previews_change_nothing_else (g : Growth) (cs : List Command) :
    g.answers (cs.filter (!·.isPreview)) = g.answers cs ∧
      { g.after (cs.filter (!·.isPreview)) with
        proposals := (g.after cs).proposals
        showPreviews := (g.after cs).showPreviews } = g.after cs := by
  obtain ⟨hanswers, hafter⟩ := after_filter_congr (rfl : g.withoutPreviews = _) cs
  refine ⟨hanswers, ?_⟩
  exact congrArg (fun h : Growth =>
    { h with
      proposals := (g.after cs).proposals
      showPreviews := (g.after cs).showPreviews }) hafter

end Growth

end ShapeGrammar
