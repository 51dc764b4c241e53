import ShapeGrammar.Proofs.Number.Value
import ShapeGrammar.Proofs.Store.Insertion
import ShapeGrammar.Search

/-!
# What a search proposes

`Search.alignment` is the similarity that an anchor determines for a production; it depends on the
vertices of the anchor only.  A proposal is there exactly when the anchor has an alignment, the
store has all that the pattern asks for under it, and something is left to add
(`Search.propose_eq_some_iff`).

An exhaustive search gives the list of all proposals, cut at its limit (`Search.run_exhaustive`).
Every search, sampled or not, gives only proposals of its productions at anchors of its store
(`Search.exists_propose_of_mem_run`).
-/

namespace ShapeGrammar

namespace Search

/-! ### Similarities -/

/-- The similarity that takes the first pattern shape of a production to an anchor. -/
def alignment (p : Production) (anchor : Shape) : Option Similarity :=
  match p.pattern, patternEdge p with
  | m :: _, some edge => align m edge anchor
  | _, _ => none

/-- The alignment is determined by the vertices of the anchor. -/
lemma alignment_congr (p : Production) {s s' : Shape} (h : s.vertices = s'.vertices) :
    alignment p s = alignment p s' := by
  obtain ⟨ps, style, hs⟩ := s
  obtain ⟨qs, style', hs'⟩ := s'
  obtain rfl : ps = qs := h
  rfl

/-- An alignment has a finite scale above zero. -/
lemma scale_of_alignment {p : Production} {anchor : Shape} {t : Similarity}
    (h : alignment p anchor = some t) : t.scale.isFinite = true ∧ 0 < t.scale := by
  unfold alignment at h
  split at h
  · next m ms edge hpattern hedge =>
    unfold align at h
    dsimp only at h
    split at h
    · exact absurd h.symm (Option.some_ne_none t)
    · next hno =>
      obtain rfl := Option.some.inj h
      simp only [Bool.or_eq_true, Bool.not_eq_true', decide_eq_true_iff, not_or,
        Bool.not_eq_false] at hno
      obtain ⟨⟨-, hfin⟩, hpos⟩ := hno
      exact ⟨hfin, (Number.pos_iff_of_isFinite hfin).mpr hpos⟩
  · exact absurd h.symm (Option.some_ne_none t)

/-! ### What is found -/

/-- The polygons found are those that the pattern asks for, shape by shape. -/
lemma findAll_eq_some_iff {store : Store} {t : Similarity} {ms : List Shape}
    {found : List Polygon} :
    findAll store t ms = some found ↔
      List.Forall₂ (fun m q => store.lookup (m.keyUnder t) = some q) ms found := by
  induction ms generalizing found with
  | nil =>
    rw [findAll, List.forall₂_nil_left_iff]
    exact ⟨fun h => (Option.some.inj h).symm, fun h => h ▸ rfl⟩
  | cons m ms ih =>
    rw [findAll, List.forall₂_cons_left_iff]
    constructor
    · intro h
      split at h
      · exact absurd h.symm (Option.some_ne_none found)
      · next q hq =>
        obtain ⟨rest, hrest, rfl⟩ := Option.map_eq_some_iff.mp h
        exact ⟨q, rest, hq, ih.mp hrest, rfl⟩
    · rintro ⟨q, rest, hq, hrest, rfl⟩
      rw [hq]
      exact Option.map_eq_some_iff.mpr ⟨rest, ih.mpr hrest, rfl⟩

/-- The polygons found are those of the store with the keys of the pattern shapes. -/
lemma findAll_iff_forall₂ {store : Store} (hs : store.Consistent) {t : Similarity}
    {ms : List Shape} {found : List Polygon} :
    findAll store t ms = some found ↔
      List.Forall₂ (fun m q => q ∈ store.toList ∧ q.key = m.keyUnder t) ms found := by
  simp only [findAll_eq_some_iff, hs.lookup_iff]

/-- The polygons found are in the store, under the keys of the pattern shapes. -/
lemma forall₂_of_findAll {store : Store} (hs : store.Consistent) {t : Similarity}
    {ms : List Shape} {found : List Polygon} (h : findAll store t ms = some found) :
    List.Forall₂ (fun m q => q ∈ store.toList ∧ q.key = m.keyUnder t) ms found :=
  (findAll_iff_forall₂ hs).mp h

/-- Polygons that have the keys of the pattern shapes, one by one, have their list of keys. -/
lemma map_key_of_forall₂ {store : Store} {t : Similarity} {ms : List Shape} {found : List Polygon}
    (h : List.Forall₂ (fun m q => q ∈ store.toList ∧ q.key = m.keyUnder t) ms found) :
    found.map Polygon.key = ms.map fun m => m.keyUnder t := by
  induction h with
  | nil => rfl
  | cons hq _ ih => rw [List.map_cons, List.map_cons, hq.2, ih]

/-- Polygons that have the keys of the pattern shapes, one by one, are polygons of the store. -/
lemma mem_of_forall₂ {store : Store} {t : Similarity} {ms : List Shape} {found : List Polygon}
    (h : List.Forall₂ (fun m q => q ∈ store.toList ∧ q.key = m.keyUnder t) ms found)
    {q : Polygon} (hq : q ∈ found) : q ∈ store.toList := by
  induction h with
  | nil => exact absurd hq List.not_mem_nil
  | cons hhead _ ih =>
    rcases List.mem_cons.mp hq with rfl | hrest
    · exact hhead.1
    · exact ih hrest

/-- The keys of the polygons found are those of the pattern shapes. -/
lemma map_key_of_findAll {store : Store} (hs : store.Consistent) {t : Similarity}
    {ms : List Shape} {found : List Polygon} (h : findAll store t ms = some found) :
    found.map Polygon.key = ms.map fun m => m.keyUnder t :=
  map_key_of_forall₂ (forall₂_of_findAll hs h)

/-- The polygons of the pattern are found exactly if the keys of all pattern shapes are taken. -/
lemma exists_findAll_iff {store : Store} {t : Similarity} {ms : List Shape} :
    (∃ found, findAll store t ms = some found) ↔
      ∀ m ∈ ms, store.hasKey (m.keyUnder t) = true := by
  constructor
  · rintro ⟨found, hfound⟩
    induction findAll_eq_some_iff.mp hfound with
    | nil => simp
    | cons hq hrest ih =>
      intro m hm
      rcases List.mem_cons.mp hm with rfl | hm
      · exact (store.hasKey_iff _).mpr ⟨_, hq⟩
      · exact ih (findAll_eq_some_iff.mpr hrest) m hm
  · intro h
    induction ms with
    | nil => exact ⟨[], rfl⟩
    | cons m ms ih =>
      obtain ⟨q, hq⟩ := (store.hasKey_iff _).mp (h m List.mem_cons_self)
      obtain ⟨found, hfound⟩ := ih fun m hm => h m (List.mem_cons_of_mem _ hm)
      exact ⟨q :: found, findAll_eq_some_iff.mpr (.cons hq (findAll_eq_some_iff.mp hfound))⟩

/-! ### What is added -/

/-- The images of the results that are not kept. -/
def fresh (p : Production) (t : Similarity) (kept : List Key) : List Shape :=
  (p.result.map fun r => r.under t).filter fun s => !kept.contains s.key

/-- Something is added only if everything that is not kept is admitted. -/
lemma additions_eq (store : Store) (p : Production) (admits : Shape → Bool) (t : Similarity)
    (found : List Polygon) :
    additions store p admits t found =
      if (fresh p t (found.map Polygon.key)).all admits then
        (fresh p t (found.map Polygon.key)).filter fun s => !store.hasKey s.key
      else [] := rfl

/-- The shapes that are not kept are images of results. -/
lemma exists_result_of_mem_fresh {p : Production} {t : Similarity} {kept : List Key} {s : Shape}
    (h : s ∈ fresh p t kept) : ∃ r ∈ p.result, s = r.under t := by
  obtain ⟨r, hr, rfl⟩ := List.mem_map.mp (List.mem_filter.mp h).1
  exact ⟨r, hr, rfl⟩

/-- A shape is added exactly if all that is not kept is admitted, and it is among that, and its key
is free. -/
lemma mem_additions_iff {store : Store} {p : Production} {admits : Shape → Bool} {t : Similarity}
    {found : List Polygon} {s : Shape} :
    s ∈ additions store p admits t found ↔
      (∀ s' ∈ fresh p t (found.map Polygon.key), admits s' = true) ∧
        s ∈ fresh p t (found.map Polygon.key) ∧ store.hasKey s.key = false := by
  rw [additions_eq]
  by_cases hall : (fresh p t (found.map Polygon.key)).all admits = true
  · rw [if_pos hall, List.mem_filter, Bool.not_eq_true']
    exact ⟨fun h => ⟨List.all_eq_true.mp hall, h⟩, fun h => h.2⟩
  · rw [if_neg hall]
    refine ⟨fun h => absurd h List.not_mem_nil, fun h => ?_⟩
    exact absurd (List.all_eq_true.mpr h.1) hall

/-! ### One pair of a production and an anchor -/

/-- A proposal needs an alignment, then the polygons of the pattern, then something to add. -/
lemma propose_eq_bind (store : Store) (admits : Shape → Bool) (p : Production) (anchor : Polygon) :
    propose store admits p anchor =
      (alignment p anchor.shape).bind fun t => (findAll store t p.pattern).bind fun found =>
        match additions store p admits t found with
        | [] => none
        | shapes => some ⟨p, found, shapes, t⟩ := by
  unfold propose alignment
  cases hpattern : p.pattern with
  | nil => rfl
  | cons m ms =>
    cases patternEdge p with
    | none => rfl
    | some edge =>
      dsimp only
      cases align m edge anchor.shape with
      | none => rfl
      | some t =>
        dsimp only [Option.bind_some]
        cases findAll store t (m :: ms) <;> rfl

/-- A proposal is there exactly if the anchor has an alignment, the polygons of the pattern are
found under it, and something is left to add. -/
lemma propose_eq_some_iff {store : Store} {admits : Shape → Bool} {p : Production}
    {anchor : Polygon} {c : Proposal} :
    propose store admits p anchor = some c ↔
      c.production = p ∧ alignment p anchor.shape = some c.similarity ∧
        findAll store c.similarity p.pattern = some c.found ∧
        additions store p admits c.similarity c.found = c.additions ∧ c.additions ≠ [] := by
  rw [propose_eq_bind, Option.bind_eq_some_iff]
  constructor
  · rintro ⟨t, ht, h⟩
    obtain ⟨found, hfound, h⟩ := Option.bind_eq_some_iff.mp h
    split at h
    · exact absurd h.symm (Option.some_ne_none c)
    · next shapes hne =>
      obtain rfl := Option.some.inj h
      exact ⟨rfl, ht, hfound, rfl, hne⟩
  · rintro ⟨rfl, ht, hfound, hadd, hne⟩
    refine ⟨c.similarity, ht, Option.bind_eq_some_iff.mpr ⟨c.found, hfound, ?_⟩⟩
    rw [hadd]
    split
    · next h => exact absurd h hne
    · rfl

/-- Every shape that a proposal adds is admitted, has a free key, and is the image of a result. -/
lemma of_mem_additions {store : Store} {admits : Shape → Bool} {p : Production} {anchor : Polygon}
    {c : Proposal} {s : Shape} (hc : propose store admits p anchor = some c)
    (hs : s ∈ c.additions) :
    admits s = true ∧ store.hasKey s.key = false ∧ ∃ r ∈ p.result, s = r.under c.similarity := by
  obtain ⟨-, -, -, hadd, -⟩ := propose_eq_some_iff.mp hc
  rw [← hadd] at hs
  obtain ⟨hadmits, hfresh, hfree⟩ := mem_additions_iff.mp hs
  exact ⟨hadmits s hfresh, hfree, exists_result_of_mem_fresh hfresh⟩

/-- Where the pattern is found and still nothing is proposed, there is nothing to add. -/
lemma additions_eq_nil {store : Store} {admits : Shape → Bool} {p : Production} {anchor : Polygon}
    {t : Similarity} {found : List Polygon} (h : propose store admits p anchor = none)
    (ht : alignment p anchor.shape = some t) (hfound : findAll store t p.pattern = some found) :
    additions store p admits t found = [] := by
  by_contra hne
  have hsome : propose store admits p anchor =
      some ⟨p, found, additions store p admits t found, t⟩ :=
    propose_eq_some_iff.mpr ⟨rfl, ht, hfound, rfl, hne⟩
  rw [h] at hsome
  exact absurd hsome.symm (Option.some_ne_none _)

/-! ### Whole searches -/

/-- The front of a list, as long as a limit allows. -/
def cut {α : Type} : Option ℕ → List α → List α
  | none, xs => xs
  | some n, xs => xs.take n

/-- The front of a list is empty if the list is, and otherwise only under a limit of zero. -/
lemma cut_eq_nil_iff {α : Type} {limit : Option ℕ} {xs : List α} :
    cut limit xs = [] ↔ limit = some 0 ∨ xs = [] := by
  cases limit with
  | none => simp [cut]
  | some n => simp [cut]

/-- A limit above zero leaves the first entry. -/
lemma cut_cons {α : Type} {limit : Option ℕ} (h : limit ≠ some 0) (x : α) (xs : List α) :
    cut limit (x :: xs) = x :: cut (limit.map (· - 1)) xs := by
  rcases limit with _ | _ | n
  · rfl
  · exact absurd rfl h
  · rfl

lemma mem_of_mem_cut {α : Type} {limit : Option ℕ} {xs : List α} {x : α} (h : x ∈ cut limit xs) :
    x ∈ xs := by
  cases limit with
  | none => exact h
  | some n => exact List.mem_of_mem_take h

lemma cut_sublist {α : Type} (limit : Option ℕ) (xs : List α) : (cut limit xs).Sublist xs := by
  cases limit with
  | none => exact .refl xs
  | some n => exact List.take_sublist n xs

lemma cut_map {α β : Type} (f : α → β) (limit : Option ℕ) (xs : List α) :
    cut limit (xs.map f) = (cut limit xs).map f := by
  cases limit with
  | none => rfl
  | some n => exact List.map_take.symm

/-- Cutting a concatenation leaves for the second list what the first does not use up. -/
lemma cut_append {α : Type} (limit : Option ℕ) (xs ys : List α) :
    cut limit (xs ++ ys) = cut limit xs ++ cut (limit.map (· - (cut limit xs).length)) ys := by
  cases limit with
  | none => rfl
  | some n =>
    simp only [cut, Option.map_some, List.take_append, List.length_take]
    rcases Nat.le_total n xs.length with h | h
    · rw [Nat.min_eq_left h, Nat.sub_eq_zero_of_le h, Nat.sub_self]
    · rw [Nat.min_eq_right h]

/-- The first results along a list are the front of the list of all results. -/
lemma firstResults_eq_cut {α β : Type} (f : α → Option β) (limit : Option ℕ) (xs : List α) :
    firstResults f limit xs = cut limit (xs.filterMap f) := by
  fun_induction firstResults f limit xs with
  | case1 xs => rfl
  | case2 limit => cases limit <;> simp [cut]
  | case3 limit x xs hlimit hf ih => rw [List.filterMap_cons_none hf, ih]
  | case4 limit x xs hlimit y hf ih =>
    rw [List.filterMap_cons_some hf, ih]
    rcases limit with _ | _ | n
    · rfl
    · exact absurd rfl hlimit
    · rfl

/-- The proposals of all productions at all anchors, productions outermost. -/
def allProposals (store : Store) (admits : Shape → Bool) (ps : List Production) : List Proposal :=
  ps.flatMap fun p => store.toList.filterMap (propose store admits p)

lemma mem_allProposals_iff {store : Store} {admits : Shape → Bool} {ps : List Production}
    {c : Proposal} :
    c ∈ allProposals store admits ps ↔
      ∃ p ∈ ps, ∃ anchor ∈ store.toList, propose store admits p anchor = some c := by
  simp only [allProposals, List.mem_flatMap, List.mem_filterMap]

/-- An exhaustive search gives the front of the list of all proposals. -/
lemma exhaustive_eq_cut (store : Store) (admits : Shape → Bool) (limit : Option ℕ)
    (ps : List Production) :
    exhaustive store admits limit ps = cut limit (allProposals store admits ps) := by
  induction ps generalizing limit with
  | nil => cases limit <;> simp [exhaustive, allProposals, cut]
  | cons p ps ih =>
    rw [exhaustive, ih, firstResults_eq_cut]
    exact (cut_append limit _ _).symm

/-- A search that tries everything gives the front of the list of all proposals, and draws
nothing. -/
lemma run_exhaustive (store : Store) (ps : List Production) (admits : Shape → Bool)
    (limit : Option ℕ) (g : Generator) {sampler : Sampler} :
    run store ps admits .exhaustive limit g sampler =
      (cut limit (allProposals store admits ps), g) := by
  unfold run
  dsimp only
  split
  · next hempty =>
    have hnone : allProposals store admits ps = [] := by
      rw [List.eq_nil_iff_forall_not_mem]
      intro c hc
      obtain ⟨p, hp, anchor, hanchor, -⟩ := mem_allProposals_iff.mp hc
      rcases Bool.or_eq_true_iff.mp hempty with hstore | hps
      · have hnil : store.toList = [] := congrArg Array.toList (Array.isEmpty_iff.mp hstore)
        rw [hnil] at hanchor
        exact List.not_mem_nil hanchor
      · rw [List.isEmpty_iff.mp hps] at hp
        exact List.not_mem_nil hp
    rw [hnone, cut_eq_nil_iff.mpr (Or.inr rfl)]
  · rw [exhaustive_eq_cut]

/-- The step of a sampled search that wants more. -/
lemma sampled_succ (tryPair : ℕ × ℕ → Option Proposal) (wanted : ℕ) {limit : Option ℕ}
    (h : limit ≠ some 0) (productions anchors : Cycle) (g : Generator) :
    sampled tryPair (wanted + 1) limit productions anchors g =
      match drawPair productions anchors (wanted + 1) g with
      | (none, g) => ([], g)
      | (some (pair, productions, anchors), g) =>
        match tryPair pair with
        | none => sampled tryPair wanted limit productions anchors g
        | some proposal =>
          let rest := sampled tryPair wanted (limit.map (· - 1)) productions anchors g
          (proposal :: rest.1, rest.2) := by
  rcases limit with _ | _ | n
  · rfl
  · exact absurd rfl h
  · rfl

/-- What a sampled search gives was proposed at some pair. -/
lemma exists_pair_of_mem_sampled {tryPair : ℕ × ℕ → Option Proposal} {wanted : ℕ}
    {limit : Option ℕ} {productions anchors : Cycle} {g : Generator} {c : Proposal}
    (h : c ∈ (sampled tryPair wanted limit productions anchors g).1) :
    ∃ pair, tryPair pair = some c := by
  fun_induction sampled tryPair wanted limit productions anchors g with
  | case1 => exact absurd h List.not_mem_nil
  | case2 => exact absurd h List.not_mem_nil
  | case3 => exact absurd h List.not_mem_nil
  | case4 wanted limit productions anchors g hlimit pair productions' anchors' g' hdraw hpair ih =>
    exact ih h
  | case5 wanted limit productions anchors g hlimit pair productions' anchors' g' hdraw c' hpair cs
      g'' hrest ih =>
    rcases List.mem_cons.mp h with rfl | hmem
    · exact ⟨pair, hpair⟩
    · rw [hrest] at ih
      exact ih hmem

/-- What a search gives was proposed by one of its productions at an anchor of its store. -/
lemma exists_propose_of_mem_run {store : Store} {ps : List Production} {admits : Shape → Bool}
    {sampling : Sampling} {limit : Option ℕ} {g : Generator} {sampler : Sampler} {c : Proposal}
    (h : c ∈ (run store ps admits sampling limit g sampler).1) :
    ∃ p ∈ ps, ∃ anchor ∈ store.toList, propose store admits p anchor = some c := by
  cases sampling with
  | exhaustive =>
    rw [run_exhaustive] at h
    exact mem_allProposals_iff.mp (mem_of_mem_cut h)
  | sampled count =>
    unfold run at h
    dsimp only at h
    split at h
    · exact absurd h List.not_mem_nil
    · obtain ⟨⟨i, j⟩, hpair⟩ := exists_pair_of_mem_sampled h
      unfold proposeAt at hpair
      dsimp only at hpair
      split at hpair
      · next p anchor hp hanchor =>
        refine ⟨p, List.mem_of_getElem? hp, anchor, ?_, hpair⟩
        exact Array.mem_toList_iff.mpr (Array.mem_of_getElem? hanchor)
      · exact absurd hpair.symm (Option.some_ne_none c)

end Search

end ShapeGrammar
