import ShapeGrammar.Proofs.Growth.Application
import ShapeGrammar.Proofs.Store.History
import ShapeGrammar.Scene

/-!
# Histories of a growth

A history is any sequence of commands to a growth: planting, starting and stopping runs, ticks,
applications by hand, everything about previews, new productions, resets, and scenes.

Whatever the command, all that happens to the store is a sequence of insertions and clearings
(`Growth.leadsTo_perform`).  So the store of a growth with a history has a history as a store, is
consistent, and its counter never goes back (`Growth.nextId_after_take_le`).
-/

namespace ShapeGrammar

namespace Growth

/-- A command to a growth. -/
inductive Command where
  | plant (shape : Shape)
  | start (policy : Policy)
  | stop
  | tick
  | applyAt (p : Point)
  | refresh
  | setShowPreviews (shown : Bool)
  | setProductions (productions : List Production)
  | reset
  | install (scene : Scene)

/-- The growth after a command. -/
def perform (g : Growth) : Command → Growth
  | .plant shape => (g.plant shape).2
  | .start policy => (g.start policy).2
  | .stop => g.stop
  | .tick => g.tick.2
  | .applyAt p => (g.applyAt p).2
  | .refresh => g.refresh
  | .setShowPreviews shown => g.setShowPreviews shown
  | .setProductions productions => g.setProductions productions
  | .reset => g.reset
  | .install scene => (scene.install g).2

/-- The growth after commands one after the other. -/
def after (g : Growth) (cs : List Command) : Growth := cs.foldl perform g

/-- The growth has a history. -/
def Reachable (g : Growth) : Prop :=
  ∃ region productions seed limit cs, (new region productions seed limit).after cs = g

@[simp] lemma after_nil (g : Growth) : g.after [] = g := rfl

lemma after_append (g : Growth) (cs ds : List Command) :
    g.after (cs ++ ds) = (g.after cs).after ds :=
  List.foldl_append

/-! ### What commands leave alone -/

/-- The command brings no other productions. -/
def Command.KeepsProductions : Command → Prop
  | .setProductions _ => False
  | .install _ => False
  | _ => True

/-- The two growths have one region and the same productions. -/
structure SameRules (g g' : Growth) : Prop where
  region : g'.region = g.region
  productions : g'.productions = g.productions

lemma sameRules_tick (g : Growth) : g.SameRules g.tick.2 := by
  rcases g.tick_cases with ⟨-, heq⟩ | ⟨-, generator, ⟨-, heq⟩ | ⟨c, -, heq⟩⟩ <;> rw [heq] <;>
    exact ⟨rfl, rfl⟩

lemma sameRules_applyAt (g : Growth) (p : Point) : g.SameRules (g.applyAt p).2 := by
  unfold applyAt
  split
  · exact ⟨rfl, rfl⟩
  · dsimp only
    split <;> exact ⟨rfl, rfl⟩

lemma sameRules_start (g : Growth) (policy : Policy) : g.SameRules (g.start policy).2 := by
  unfold start
  split <;> exact ⟨rfl, rfl⟩

lemma sameRules_setShowPreviews (g : Growth) (shown : Bool) :
    g.SameRules (g.setShowPreviews shown) := by
  unfold setShowPreviews
  split <;> exact ⟨rfl, rfl⟩

/-- A command that brings no other productions leaves the rules alone. -/
lemma sameRules_perform {c : Command} (h : c.KeepsProductions) (g : Growth) :
    g.SameRules (g.perform c) := by
  cases c with
  | setProductions productions => exact absurd h not_false
  | install scene => exact absurd h not_false
  | tick => exact g.sameRules_tick
  | applyAt p => exact g.sameRules_applyAt p
  | start policy => exact g.sameRules_start policy
  | setShowPreviews shown => exact g.sameRules_setShowPreviews shown
  | _ => exact ⟨rfl, rfl⟩

lemma region_plantAll (g : Growth) (shapes : List Shape) :
    (Scene.plantAll g shapes).2.region = g.region := by
  induction shapes generalizing g with
  | nil => rfl
  | cons shape shapes ih => exact ih (g.plant shape).2

/-- A growth stays in its region, whatever the command. -/
lemma region_perform (g : Growth) (c : Command) : (g.perform c).region = g.region := by
  cases c with
  | setProductions productions => rfl
  | install scene => exact g.reset.region_plantAll scene.seeds
  | _ => exact (sameRules_perform (by trivial) g).region

lemma region_after (g : Growth) (cs : List Command) : (g.after cs).region = g.region := by
  induction cs generalizing g with
  | nil => rfl
  | cons c cs ih => exact (ih (g.perform c)).trans (g.region_perform c)

lemma limit_tick (g : Growth) : g.tick.2.limit = g.limit := by
  rcases g.tick_cases with ⟨-, heq⟩ | ⟨-, generator, ⟨-, heq⟩ | ⟨c, -, heq⟩⟩ <;>
    exact congrArg (fun result => result.2.limit) heq

lemma limit_applyAt (g : Growth) (p : Point) : (g.applyAt p).2.limit = g.limit := by
  unfold applyAt
  split
  · rfl
  · dsimp only
    split <;> rfl

lemma limit_start (g : Growth) (policy : Policy) : (g.start policy).2.limit = g.limit := by
  unfold start
  split <;> rfl

lemma limit_setShowPreviews (g : Growth) (shown : Bool) :
    (g.setShowPreviews shown).limit = g.limit := by
  unfold setShowPreviews
  split <;> rfl

lemma limit_plantAll (g : Growth) (shapes : List Shape) :
    (Scene.plantAll g shapes).2.limit = g.limit := by
  induction shapes generalizing g with
  | nil => rfl
  | cons shape shapes ih => exact ih (g.plant shape).2

/-- A growth keeps its limit, whatever the command. -/
lemma limit_perform (g : Growth) (c : Command) : (g.perform c).limit = g.limit := by
  cases c with
  | tick => exact g.limit_tick
  | applyAt p => exact g.limit_applyAt p
  | start policy => exact g.limit_start policy
  | setShowPreviews shown => exact g.limit_setShowPreviews shown
  | install scene => exact g.reset.limit_plantAll scene.seeds
  | _ => rfl

lemma limit_after (g : Growth) (cs : List Command) : (g.after cs).limit = g.limit := by
  induction cs generalizing g with
  | nil => rfl
  | cons c cs ih => exact (ih (g.perform c)).trans (g.limit_perform c)

lemma productions_after {cs : List Command} (h : ∀ c ∈ cs, c.KeepsProductions) (g : Growth) :
    (g.after cs).productions = g.productions := by
  induction cs generalizing g with
  | nil => rfl
  | cons c cs ih =>
    have hrest := ih (fun d hd => h d (List.mem_cons_of_mem _ hd)) (g.perform c)
    exact hrest.trans (sameRules_perform (h c List.mem_cons_self) g).productions

/-! ### What commands do to the store -/

lemma store_start (g : Growth) (policy : Policy) : (g.start policy).2.store = g.store := by
  unfold start
  split <;> rfl

lemma store_setShowPreviews (g : Growth) (shown : Bool) :
    (g.setShowPreviews shown).store = g.store := by
  unfold setShowPreviews
  split <;> rfl

/-- Applying a proposal leads from one store to the next. -/
lemma leadsTo_apply (g : Growth) (c : Proposal) : g.store.LeadsTo (g.apply c).2.store :=
  Store.LeadsTo.insertAll g.store g.region.admits c.additions

lemma leadsTo_tick (g : Growth) : g.store.LeadsTo g.tick.2.store := by
  rcases g.tick_cases with ⟨-, heq⟩ | ⟨-, generator, ⟨-, heq⟩ | ⟨c, -, heq⟩⟩
  · rw [heq]
    exact Store.LeadsTo.refl _
  · rw [heq]
    exact Store.LeadsTo.refl _
  · rw [heq]
    exact g.leadsTo_apply c

lemma leadsTo_applyAt (g : Growth) (p : Point) : g.store.LeadsTo (g.applyAt p).2.store := by
  rcases g.applyAt_cases p with ⟨-, heq⟩ | ⟨c, -, -, heq⟩
  · rw [heq]
    exact Store.LeadsTo.refl _
  · rw [heq]
    exact g.leadsTo_apply c

lemma leadsTo_plantAll (g : Growth) (shapes : List Shape) :
    g.store.LeadsTo (Scene.plantAll g shapes).2.store := by
  induction shapes generalizing g with
  | nil => exact Store.LeadsTo.refl _
  | cons shape shapes ih =>
    exact (Store.LeadsTo.act g.store (.insert g.region.admits shape)).trans (ih (g.plant shape).2)

/-- Whatever the command, the store only sees insertions and clearings. -/
lemma leadsTo_perform (g : Growth) (c : Command) : g.store.LeadsTo (g.perform c).store := by
  cases c with
  | plant shape => exact Store.LeadsTo.act g.store (.insert g.region.admits shape)
  | tick => exact g.leadsTo_tick
  | applyAt p => exact g.leadsTo_applyAt p
  | reset => exact Store.LeadsTo.act g.store .clear
  | install scene =>
    exact (Store.LeadsTo.act g.store .clear).trans (g.reset.leadsTo_plantAll scene.seeds)
  | start policy =>
    rw [perform, store_start]
    exact Store.LeadsTo.refl _
  | setShowPreviews shown =>
    rw [perform, store_setShowPreviews]
    exact Store.LeadsTo.refl _
  | stop => exact Store.LeadsTo.refl _
  | refresh => exact Store.LeadsTo.refl _
  | setProductions productions => exact Store.LeadsTo.refl _

/-- What holds of one command holds of a history. -/
lemma leadsTo_after (g : Growth) (cs : List Command) : g.store.LeadsTo (g.after cs).store := by
  induction cs generalizing g with
  | nil => exact Store.LeadsTo.refl _
  | cons c cs ih => exact (g.leadsTo_perform c).trans (ih (g.perform c))

/-- The store of a growth with a history is consistent. -/
lemma Reachable.consistent {g : Growth} (h : g.Reachable) : g.store.Consistent := by
  obtain ⟨region, productions, seed, limit, cs, rfl⟩ := h
  exact (leadsTo_after _ cs).consistent Store.Consistent.empty

/-- The counter of the store has not gone back since any earlier state of a history. -/
lemma nextId_after_take_le {g : Growth} (hs : g.store.Consistent) (cs : List Command) (n : ℕ) :
    (g.after (cs.take n)).store.nextId ≤ (g.after cs).store.nextId := by
  have hlead : (g.after (cs.take n)).store.LeadsTo (g.after cs).store := by
    conv_rhs => rw [← List.take_append_drop n cs, after_append]
    exact leadsTo_after _ _
  exact hlead.nextId_le ((leadsTo_after g _).consistent hs)

/-! ### Squares to grow -/

/-- The upright square with lower corner `(x, y)`. -/
def square (x y side : Float) : Shape where
  vertices := [⟨x, y⟩, ⟨x, y + side⟩, ⟨x + side, y + side⟩, ⟨x + side, y⟩]
  style := .plain
  three_le := Nat.le_succ 3

/-- The production that adds a square beside a square, at `(dx, dy)` if the side has length one. -/
def squareBeside (id : ℕ) (dx dy : Float) : Production := ⟨id, [square 0 0 1], [square dx dy 1]⟩

end Growth

end ShapeGrammar
