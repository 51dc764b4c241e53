import ShapeGrammar.Proofs.Growth.Previews
import ShapeGrammar.Proofs.Search.Reindexing
import ShapeGrammar.Proofs.Store.Renumbering

/-!
# Installing a scene

To install a scene in a growth means to end its run, to empty its store, to plant the seeds, to take
the productions of the scene and to search for previews.  All that is left of what the growth did
before is the counter of its store: `Growth.Begins scene d g` says that the growth is at the
beginning of the scene, but with numbers that are larger by `d` than those in a new growth.

So after any history the scene begins (`Growth.installing_erases_history`), and two growths in one
region and with one limit differ by their numbers only.
-/

namespace ShapeGrammar

lemma Proposal.mapFound_mapFound (f f' : Polygon → Polygon) (c : Proposal) :
    (c.mapFound f).mapFound f' = c.mapFound (f' ∘ f) := by
  unfold mapFound
  rw [List.map_map]

namespace Scene

/-- What the seeds of a scene make of an empty store. -/
def firstStore (scene : Scene) (region : Region) : Store :=
  (Store.empty.insertAll region.admits scene.seeds).2

/-- Planting shapes inserts them into the store, and nothing else. -/
lemma plantAll_eq (g : Growth) (shapes : List Shape) :
    plantAll g shapes =
      (((g.store.insertAll g.region.admits shapes).1.filterMap id).length,
        { g with store := (g.store.insertAll g.region.admits shapes).2 }) := by
  induction shapes generalizing g with
  | nil => rfl
  | cons shape shapes ih =>
    have hcount : ∀ (id? : Option ℕ) (ids : List (Option ℕ)),
        (if id?.isSome then 1 else 0) + (ids.filterMap id).length =
          ((id? :: ids).filterMap id).length := by
      rintro (_ | id') ids
      · exact Nat.zero_add _
      · exact Nat.add_comm 1 _
    unfold plantAll
    dsimp only
    rw [ih]
    exact Prod.ext (hcount _ _) rfl

/-- The store of a growth after a scene was installed. -/
def storeAfter (scene : Scene) (g : Growth) : Store :=
  (g.store.clear.insertAll g.region.admits scene.seeds).2

variable (scene : Scene) (g : Growth)

lemma consistent_storeAfter : (scene.storeAfter g).Consistent :=
  (Store.LeadsTo.insertAll _ g.region.admits scene.seeds).consistent (Store.Consistent.clear _)

lemma consistent_firstStore (region : Region) : (scene.firstStore region).Consistent :=
  (Store.LeadsTo.insertAll _ region.admits scene.seeds).consistent Store.Consistent.empty

/-- The proposals of a growth after a scene was installed. -/
def proposalsAfter : List Proposal :=
  Search.cut g.limit (Search.allProposals (scene.storeAfter g) g.region.admits scene.productions)

/-- The growth with the scene: only the store, the phase, the productions and the previews are
other than before. -/
lemma install_eq :
    (scene.install g).2 = { g with
      store := scene.storeAfter g, phase := .idle, productions := scene.productions,
      proposals := scene.proposalsAfter g } := by
  unfold install
  rw [plantAll_eq]
  dsimp only [Growth.setProductions]
  rw [Growth.refresh_eq, Growth.search, Search.run_exhaustive]
  rfl

/-- As many seeds are counted as there are polygons. -/
lemma install_fst : (scene.install g).1 = (scene.storeAfter g).size := by
  unfold install
  rw [plantAll_eq]
  obtain ⟨new, hext, hids, -⟩ :=
    g.store.clear.exists_extends_insertAll g.region.admits scene.seeds
  have hlist : (scene.storeAfter g).toList.length = new.length := hext.perm.length_eq
  rw [Store.size, ← Array.length_toList]
  change ((g.store.clear.insertAll g.region.admits scene.seeds).1.filterMap id).length = _
  rw [hids, List.length_map]
  exact hlist.symm

/-- If the only seed of a scene is planted, it is admitted, and it is the only polygon. -/
lemma storeAfter_of_seed {shape : Shape} (hseeds : scene.seeds = [shape])
    (hplanted : (scene.install g).1 = 1) :
    g.region.admits shape = true ∧
      (scene.storeAfter g).toList = [.ofShape g.store.nextId shape] := by
  have hstore : scene.storeAfter g = (g.store.clear.insert g.region.admits shape).2 := by
    rw [storeAfter, hseeds]
    rfl
  rw [scene.install_fst, hstore] at hplanted
  rw [hstore]
  rcases g.store.clear.insert_cases g.region.admits shape with ⟨-, heq⟩ | ⟨hadmits, -, heq⟩
  · rw [heq] at hplanted
    cases hplanted
  · have hplace : g.store.clear.place (.ofShape g.store.clear.nextId shape) = 0 :=
      Nat.le_zero.mp (g.store.clear.place_le _)
    refine ⟨hadmits, ?_⟩
    rw [heq, Store.toList_push, hplace]
    rfl

/-- The polygons of the scene have numbers that were not yet handed out. -/
lemma nextId_le_of_mem {q : Polygon} (hq : q ∈ (scene.storeAfter g).toList) :
    g.store.nextId ≤ q.id := by
  obtain ⟨new, hext, -⟩ := g.store.clear.exists_extends_insertAll g.region.admits scene.seeds
  have hnew : q ∈ new := hext.perm.mem_iff.mp hq
  have hid : q.id ∈ List.range' g.store.nextId new.length := by
    rw [← g.store.nextId_clear, ← hext.ids]
    exact List.mem_map_of_mem hnew
  exact (List.mem_range'_1.mp hid).1

variable {g}

/-- The store after the installation is the one that had been empty, in larger numbers. -/
lemma raised_storeAfter (h : 1 ≤ g.store.nextId) :
    (scene.firstStore g.region).Raised (g.store.nextId - 1) (scene.storeAfter g) :=
  ((Store.Raised.clear h).insertAll g.region.admits scene.seeds).2

end Scene

namespace Growth

/-- The growth is idle and at the beginning of the scene, as if the seeds had been planted in an
empty store, but every number is larger by `d`. -/
structure Begins (scene : Scene) (d : ℕ) (g : Growth) : Prop where
  phase_eq : g.phase = .idle
  productions_eq : g.productions = scene.productions
  /-- The polygons, in painter's order. -/
  toList_eq : g.store.toList = (scene.firstStore g.region).toList.map (.raise d)
  lookup_eq : ∀ k, g.store.lookup k = ((scene.firstStore g.region).lookup k).map (.raise d)
  proposals_eq : g.proposals =
    (Search.run (scene.firstStore g.region) scene.productions g.region.admits .exhaustive g.limit
      g.generator).1.map (.mapFound (.raise d))

/-- Installing a scene begins it. -/
lemma begins_install (scene : Scene) {g : Growth} (h : 1 ≤ g.store.nextId) :
    (scene.install g).2.Begins scene (g.store.nextId - 1) := by
  have hraised := scene.raised_storeAfter h
  rw [scene.install_eq]
  refine ⟨rfl, rfl, hraised.toList_eq, hraised.lookup_eq, ?_⟩
  have hall := Search.allProposals_eq_map (scene.consistent_firstStore g.region)
    (scene.consistent_storeAfter g) (Polygon.key_raise _) (Polygon.shape_raise _)
    hraised.toList_eq g.region.admits scene.productions
  dsimp only [Scene.proposalsAfter]
  rw [hall, Search.run_exhaustive, Search.cut_map]

/-- Where a scene begins in two growths, they hold the same in the same order, but for numbers. -/
lemma Begins.raise_eq {scene : Scene} {d d' : ℕ} {g g' : Growth} (h : g.Begins scene d)
    (h' : g'.Begins scene d') (hregion : g'.region = g.region) (hlimit : g'.limit = g.limit) :
    g'.store.toList.map (Polygon.raise d) = g.store.toList.map (Polygon.raise d') ∧
      g'.proposals.map (Proposal.mapFound (.raise d)) =
        g.proposals.map (Proposal.mapFound (.raise d')) := by
  have hswap : Polygon.raise d ∘ Polygon.raise d' = Polygon.raise d' ∘ Polygon.raise d := by
    funext p
    rw [Function.comp_apply, Function.comp_apply, Polygon.raise_raise, Polygon.raise_raise,
      Nat.add_comm]
  constructor
  · rw [h.toList_eq, h'.toList_eq, hregion, List.map_map, List.map_map, hswap]
  · have hmap : Proposal.mapFound (.raise d) ∘ Proposal.mapFound (.raise d') =
        Proposal.mapFound (.raise d') ∘ Proposal.mapFound (.raise d) := by
      funext c
      rw [Function.comp_apply, Function.comp_apply, Proposal.mapFound_mapFound,
        Proposal.mapFound_mapFound, hswap]
    rw [h.proposals_eq, h'.proposals_eq, hregion, hlimit, Search.run_exhaustive,
      Search.run_exhaustive, List.map_map, List.map_map, hmap]

/-- Let a scene be installed after any history.  As many seeds are counted as there are polygons
then.  The scene begins, with numbers that are larger than those of all polygons at any earlier
time, and nothing else has changed.  So the same scene, installed after another history in the same
region and with the same limit, gives the same shapes in the same order and the same proposals, up
to a difference in the numbers. -/
theorem installing_erases_history (scene : Scene) (region : Region) (limit : Option ℕ)
    (ps : List Production) (seed : UInt64) (cs : List Command) :
    let origin := new region ps seed limit
    let g := origin.after cs
    let begun := (scene.install g).2
    (scene.install g).1 = begun.store.size ∧
    begun.Begins scene (g.store.nextId - 1) ∧
    (∀ n, ∀ old ∈ (origin.after (cs.take n)).store.toList, old.id < g.store.nextId) ∧
    (∀ q ∈ begun.store.toList, g.store.nextId ≤ q.id) ∧
    begun = { g with
      store := begun.store, phase := .idle, productions := scene.productions,
      proposals := begun.proposals } ∧
    ∀ ps' seed' cs',
      let g' := (new region ps' seed' limit).after cs'
      let begun' := (scene.install g').2
      let d := g.store.nextId - 1
      let d' := g'.store.nextId - 1
      begun'.store.toList.map Polygon.shape = begun.store.toList.map Polygon.shape ∧
      begun'.store.toList.map (Polygon.raise d) = begun.store.toList.map (Polygon.raise d') ∧
      begun'.proposals.map (Proposal.mapFound (.raise d)) =
        begun.proposals.map (Proposal.mapFound (.raise d')) := by
  intro origin g begun
  have hfirst : ∀ ps seed cs, 1 ≤ ((new region ps seed limit).after cs).store.nextId :=
    fun ps seed cs =>
      (leadsTo_after (new region ps seed limit) cs).nextId_le Store.Consistent.empty
  have hstore : begun.store = scene.storeAfter g := congrArg store (scene.install_eq g)
  refine ⟨?_, begins_install scene (hfirst ps seed cs), ?_, ?_, ?_, ?_⟩
  · rw [hstore]
    exact scene.install_fst g
  · intro n old hold
    have hconsistent : (origin.after (cs.take n)).store.Consistent :=
      (leadsTo_after origin _).consistent Store.Consistent.empty
    have hempty : origin.store.Consistent := Store.Consistent.empty
    exact Nat.lt_of_lt_of_le (hconsistent.id_lt old hold) (nextId_after_take_le hempty cs n)
  · intro q hq
    rw [hstore] at hq
    exact scene.nextId_le_of_mem g hq
  · rw [hstore, congrArg proposals (scene.install_eq g)]
    exact scene.install_eq g
  · intro ps' seed' cs' g' begun' d d'
    have hregion : g'.region = g.region :=
      (region_after _ cs').trans (region_after origin cs).symm
    have hlimit : g'.limit = g.limit := (limit_after _ cs').trans (limit_after origin cs).symm
    have hbegins := begins_install scene (hfirst ps seed cs)
    have hbegins' := begins_install scene (hfirst ps' seed' cs')
    obtain ⟨hlists, hproposals⟩ := hbegins.raise_eq hbegins'
      (by rw [scene.install_eq, scene.install_eq]; exact hregion)
      (by rw [scene.install_eq, scene.install_eq]; exact hlimit)
    refine ⟨?_, hlists, hproposals⟩
    have hshapes := congrArg (List.map Polygon.shape) hlists
    rwa [List.map_map, List.map_map] at hshapes

end Growth

end ShapeGrammar
