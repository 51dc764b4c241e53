import ShapeGrammar.Proofs.Search.Completeness

/-!
# Proposals while the store grows

A store is searched, and then it is extended.  What was proposed is proposed still, less the shapes
whose keys have been taken (`Search.propose_eq_outstanding`), and it is proposed unchanged if none
has been.  Besides, something may be proposed that was not, at a new anchor or because a pattern is
complete now.  A second search gives the same list as the first if neither has happened, and, when
no limit cuts the list, only then (`Search.allProposals_eq_iff`).

Both searches go through the same pairs of a production and an anchor, as the anchors of the first
are those of the second with a number below the old counter (`Store.Extends.toList_eq_filter`).
-/

namespace ShapeGrammar

/-! ### Old and new polygons -/

namespace Store.Extends

variable {s s' : Store} {added : List Polygon}

/-- The polygons that were there before are those with an old number. -/
lemma toList_eq_filter (h : s.Extends added s') (hs : s.Consistent) :
    s.toList = s'.toList.filter fun q => q.id < s.nextId := by
  have hold : s.toList.filter (fun q => q.id < s.nextId) = s.toList :=
    List.filter_eq_self.mpr fun q hq => decide_eq_true (hs.id_lt q hq)
  have hnew : added.filter (fun q => q.id < s.nextId) = [] := by
    rw [List.filter_eq_nil_iff]
    intro q hq
    have hid : q.id ∈ List.range' s.nextId added.length := by
      rw [← h.ids]
      exact List.mem_map_of_mem hq
    have hge := (List.mem_range'_1.mp hid).1
    rw [decide_eq_true_iff]
    exact Nat.not_lt.mpr hge
  have hsub : s.toList.Sublist (s'.toList.filter fun q => q.id < s.nextId) := by
    rw [← hold]
    exact h.sublist.filter _
  refine hsub.eq_of_length ?_
  rw [(h.perm.filter _).length_eq, List.filter_append, hold, hnew, List.append_nil]

/-- The new polygons are those that were not there before. -/
lemma mem_added_iff (h : s.Extends added s') (hs : s.Consistent) {q : Polygon} :
    q ∈ added ↔ q ∈ s'.toList ∧ q ∉ s.toList := by
  rw [h.perm.mem_iff, List.mem_append]
  constructor
  · intro hq
    refine ⟨Or.inr hq, fun hold => ?_⟩
    have htaken : s.hasKey q.key = true := (hs.hasKey_iff_mem _).mpr ⟨q, hold, rfl⟩
    rw [h.keys_fresh q hq] at htaken
    exact Bool.false_ne_true htaken
  · rintro ⟨hold | hnew, hno⟩
    · exact absurd hold hno
    · exact hnew

end Store.Extends

namespace Search

/-! ### Fronts of lists, and two functions along one list -/

/-- A front that is shorter than it may be is the whole list. -/
lemma cut_eq_self {α : Type} {limit : Option ℕ} {xs : List α}
    (h : ∀ n, limit = some n → (cut limit xs).length < n) : cut limit xs = xs := by
  cases limit with
  | none => rfl
  | some n =>
    have hlt := h n rfl
    rw [cut, List.length_take] at hlt
    exact List.take_of_length_le (by omega)

section Results

variable {α β : Type} {f g : α → Option β} {xs : List α}

/-- A function that finds more than another finds what that one finds, in the same order. -/
lemma filterMap_sublist (hfg : ∀ x ∈ xs, ∀ y, f x = some y → g x = some y) :
    (xs.filterMap f).Sublist (xs.filterMap g) := by
  induction xs with
  | nil => exact List.Sublist.refl _
  | cons a xs ih =>
    have hrest := ih fun x hx => hfg x (List.mem_cons_of_mem _ hx)
    cases hf : f a with
    | some b =>
      rw [List.filterMap_cons_some hf, List.filterMap_cons_some (hfg a List.mem_cons_self b hf)]
      exact hrest.cons_cons b
    | none =>
      rw [List.filterMap_cons_none hf]
      cases hg : g a with
      | none =>
        rw [List.filterMap_cons_none hg]
        exact hrest
      | some b =>
        rw [List.filterMap_cons_some hg]
        exact hrest.cons b

/-- If such a function finds no longer a list, it does not find anything else anywhere. -/
lemma eq_some_of_filterMap_eq (hfg : ∀ x ∈ xs, ∀ y, f x = some y → g x = some y)
    (heq : xs.filterMap f = xs.filterMap g) {x : α} (hx : x ∈ xs) {y : β} (hy : g x = some y) :
    f x = some y := by
  induction xs with
  | nil => exact absurd hx List.not_mem_nil
  | cons a xs ih =>
    have hrest : ∀ x ∈ xs, ∀ y, f x = some y → g x = some y :=
      fun x hx => hfg x (List.mem_cons_of_mem _ hx)
    have hsame : f a = g a ∧ xs.filterMap f = xs.filterMap g := by
      cases hf : f a with
      | some b =>
        have hg := hfg a List.mem_cons_self b hf
        rw [List.filterMap_cons_some hf, List.filterMap_cons_some hg] at heq
        exact ⟨hg.symm, (List.cons.inj heq).2⟩
      | none =>
        rw [List.filterMap_cons_none hf] at heq
        cases hg : g a with
        | none =>
          rw [List.filterMap_cons_none hg] at heq
          exact ⟨rfl, heq⟩
        | some b =>
          rw [List.filterMap_cons_some hg] at heq
          have hle := (filterMap_sublist hrest).length_le
          rw [heq, List.length_cons] at hle
          exact absurd hle (Nat.not_succ_le_self _)
    rcases List.mem_cons.mp hx with rfl | hmem
    · rw [hsame.1, hy]
    · exact ih hrest hsame.2 hmem

/-- Two functions have the same front if each finds what is in the front of the other. -/
lemma cut_filterMap_congr {limit : Option ℕ}
    (hfg : ∀ x ∈ xs, ∀ y ∈ cut limit (xs.filterMap f), f x = some y → g x = some y)
    (hgf : ∀ x ∈ xs, ∀ y ∈ cut limit (xs.filterMap g), g x = some y → f x = some y) :
    cut limit (xs.filterMap f) = cut limit (xs.filterMap g) := by
  induction xs generalizing limit with
  | nil => rfl
  | cons a xs ih =>
    by_cases hlimit : limit = some 0
    · rw [cut_eq_nil_iff.mpr (Or.inl hlimit), cut_eq_nil_iff.mpr (Or.inl hlimit)]
    · have hhead : f a = g a := by
        cases hf : f a with
        | some b =>
          rw [List.filterMap_cons_some hf, cut_cons hlimit] at hfg
          exact (hfg a List.mem_cons_self b List.mem_cons_self hf).symm
        | none =>
          cases hg : g a with
          | none => rfl
          | some b =>
            rw [List.filterMap_cons_some hg, cut_cons hlimit] at hgf
            exact hf.symm.trans (hgf a List.mem_cons_self b List.mem_cons_self hg)
      cases hg : g a with
      | none =>
        rw [List.filterMap_cons_none (hhead.trans hg)] at hfg ⊢
        rw [List.filterMap_cons_none hg] at hgf ⊢
        exact ih (fun x hx => hfg x (List.mem_cons_of_mem _ hx))
          (fun x hx => hgf x (List.mem_cons_of_mem _ hx))
      | some b =>
        rw [List.filterMap_cons_some (hhead.trans hg), cut_cons hlimit] at hfg ⊢
        rw [List.filterMap_cons_some hg, cut_cons hlimit] at hgf ⊢
        refine congrArg (b :: ·) (ih (fun x hx y hy => ?_) (fun x hx y hy => ?_))
        · exact hfg x (List.mem_cons_of_mem _ hx) y (List.mem_cons_of_mem _ hy)
        · exact hgf x (List.mem_cons_of_mem _ hx) y (List.mem_cons_of_mem _ hy)

end Results

/-! ### One pair of a production and an anchor -/

variable {s s' : Store} {added : List Polygon} {admits : Shape → Bool} {ps : List Production}

/-- What a pattern asks for is found again. -/
lemma findAll_of_extends (h : s.Extends added s') {t : Similarity} {ms : List Shape}
    {found : List Polygon} (hfound : findAll s t ms = some found) :
    findAll s' t ms = some found := by
  rw [findAll_eq_some_iff] at hfound ⊢
  exact hfound.imp fun m q hq => (h.lookup_iff _ q).mpr (Or.inl hq)

/-- Of the shapes to add, those are left whose keys are still free. -/
lemma additions_of_extends (h : s.Extends added s') (p : Production) (t : Similarity)
    (found : List Polygon) :
    additions s' p admits t found =
      (additions s p admits t found).filter fun shape => !s'.hasKey shape.key := by
  rw [additions_eq, additions_eq]
  by_cases hall : (fresh p t (found.map Polygon.key)).all admits = true
  · rw [if_pos hall, if_pos hall, List.filter_filter]
    refine List.filter_congr fun shape _ => ?_
    cases hold : s.hasKey shape.key with
    | false => simp
    | true => simp [h.hasKey_mono hold]
  · rw [if_neg hall, if_neg hall, List.filter_nil]

/-- What is left of a proposal in a store: the shapes to add whose keys are free there, and nothing
if there are none. -/
def outstanding (s : Store) (c : Proposal) : Option Proposal :=
  if c.additions.all fun shape => s.hasKey shape.key then none
  else some { c with additions := c.additions.filter fun shape => !s.hasKey shape.key }

lemma outstanding_eq_none_iff {c : Proposal} :
    outstanding s c = none ↔ ∀ shape ∈ c.additions, s.hasKey shape.key = true := by
  rw [outstanding, ite_eq_left_iff, ← List.all_eq_true]
  simp

/-- Nothing is lost of a proposal whose keys are free. -/
lemma outstanding_of_free {c : Proposal} (hne : c.additions ≠ [])
    (hfree : ∀ shape ∈ c.additions, s.hasKey shape.key = false) : outstanding s c = some c := by
  have hsome : ¬ (c.additions.all fun shape => s.hasKey shape.key) = true := by
    obtain ⟨shape, hshape⟩ := List.exists_mem_of_ne_nil _ hne
    intro hall
    have htaken := List.all_eq_true.mp hall shape hshape
    rw [hfree shape hshape] at htaken
    exact Bool.false_ne_true htaken
  have hself : (c.additions.filter fun shape => !s.hasKey shape.key) = c.additions :=
    List.filter_eq_self.mpr fun shape hshape => by rw [hfree shape hshape]; rfl
  rw [outstanding, if_neg hsome, hself]

/-- At the same anchor, what is left of a proposal is proposed. -/
lemma propose_eq_outstanding (h : s.Extends added s') {p : Production} {anchor : Polygon}
    {c : Proposal} (hc : propose s admits p anchor = some c) :
    propose s' admits p anchor = outstanding s' c := by
  obtain ⟨rfl, ht, hfound, hadd, -⟩ := propose_eq_some_iff.mp hc
  rw [propose_eq_bind, ht, Option.bind_some, findAll_of_extends h hfound, Option.bind_some,
    additions_of_extends h, hadd, outstanding]
  by_cases hall : (c.additions.all fun shape => s'.hasKey shape.key) = true
  · have hnil : (c.additions.filter fun shape => !s'.hasKey shape.key) = [] := by
      rw [List.filter_eq_nil_iff]
      intro shape hshape
      rw [List.all_eq_true.mp hall shape hshape]
      exact Bool.false_ne_true
    rw [if_pos hall, hnil]
  · have hsome : (c.additions.filter fun shape => !s'.hasKey shape.key) ≠ [] := by
      rw [Ne, List.filter_eq_nil_iff]
      intro hnone
      refine hall (List.all_eq_true.mpr fun shape hshape => ?_)
      simpa using hnone shape hshape
    rw [if_neg hall]
    split
    · next hnil => exact absurd hnil hsome
    · rfl

/-- What was proposed is proposed still, if its keys are still free. -/
lemma propose_of_extends (h : s.Extends added s') {p : Production} {anchor : Polygon}
    {c : Proposal} (hc : propose s admits p anchor = some c)
    (hfree : ∀ shape ∈ c.additions, s'.hasKey shape.key = false) :
    propose s' admits p anchor = some c := by
  obtain ⟨-, -, -, -, hne⟩ := propose_eq_some_iff.mp hc
  rw [propose_eq_outstanding h hc, outstanding_of_free hne hfree]

/-! ### All pairs -/

/-- Of what a search of the second store lists, nothing is proposed that was not proposed in the
first store, at the same anchor. -/
def NothingNew (s s' : Store) (admits : Shape → Bool) (ps : List Production)
    (limit : Option ℕ) : Prop :=
  ∀ p ∈ ps, ∀ anchor ∈ s'.toList, ∀ c ∈ cut limit (allProposals s' admits ps),
    propose s' admits p anchor = some c →
      anchor ∈ s.toList ∧ propose s admits p anchor = some c

/-- If nothing new is proposed at all, nothing is among what a limit leaves. -/
lemma NothingNew.cut (h : NothingNew s s' admits ps none) (limit : Option ℕ) :
    NothingNew s s' admits ps limit :=
  fun p hp anchor hanchor c hc => h p hp anchor hanchor c (mem_of_mem_cut hc)

/-- The proposal of a production at an anchor that was there before. -/
def proposeOld (s : Store) (admits : Shape → Bool) (pair : Production × Polygon) :
    Option Proposal :=
  if pair.2.id < s.nextId then propose s admits pair.1 pair.2 else none

lemma proposeOld_eq_some_iff (h : s.Extends added s') (hs : s.Consistent) {p : Production}
    {anchor : Polygon} (hanchor : anchor ∈ s'.toList) {c : Proposal} :
    proposeOld s admits (p, anchor) = some c ↔
      anchor ∈ s.toList ∧ propose s admits p anchor = some c := by
  have hold : anchor ∈ s.toList ↔ anchor.id < s.nextId := by
    rw [h.toList_eq_filter hs, List.mem_filter, decide_eq_true_iff]
    exact and_iff_right hanchor
  rw [proposeOld, Option.ite_none_right_eq_some, hold]

/-- The earlier search goes through the pairs of the later one. -/
lemma allProposals_eq_filterMap_proposeOld (h : s.Extends added s') (hs : s.Consistent)
    (admits : Shape → Bool) (ps : List Production) :
    allProposals s admits ps = (ps ×ˢ s'.toList).filterMap (proposeOld s admits) := by
  have hold : ∀ p, s.toList.filterMap (propose s admits p) =
      s'.toList.filterMap fun anchor => proposeOld s admits (p, anchor) := by
    intro p
    rw [h.toList_eq_filter hs, List.filterMap_filter]
    simp only [decide_eq_true_iff, proposeOld]
  rw [allProposals, filterMap_product, funext hold]

/-- At every pair the later search finds what the earlier one has found, if its keys are still
free. -/
lemma propose_of_proposeOld (h : s.Extends added s') (hs : s.Consistent)
    (hfree : ∀ c ∈ allProposals s admits ps, ∀ shape ∈ c.additions,
      s'.hasKey shape.key = false) :
    ∀ pair ∈ ps ×ˢ s'.toList, ∀ c, proposeOld s admits pair = some c →
      propose s' admits pair.1 pair.2 = some c := by
  rintro ⟨p, anchor⟩ hpair c hc
  obtain ⟨hp, hanchor⟩ := List.mem_product.mp hpair
  obtain ⟨hthere, hold⟩ := (proposeOld_eq_some_iff h hs hanchor).mp hc
  exact propose_of_extends h hold (hfree c (mem_allProposals_iff.mpr ⟨p, hp, anchor, hthere, hold⟩))

/-- What is left of all proposals is proposed, in the same order. -/
lemma outstanding_sublist (h : s.Extends added s') (admits : Shape → Bool)
    (ps : List Production) :
    ((allProposals s admits ps).filterMap (outstanding s')).Sublist (allProposals s' admits ps) := by
  induction ps with
  | nil => exact List.Sublist.refl _
  | cons p ps ih =>
    have hhere : ((s.toList.filterMap (propose s admits p)).filterMap (outstanding s')).Sublist
        (s'.toList.filterMap (propose s' admits p)) := by
      rw [List.filterMap_filterMap]
      refine (filterMap_sublist ?_).trans (h.sublist.filterMap _)
      intro anchor _ c' hc'
      obtain ⟨c, hc, hleft⟩ := Option.bind_eq_some_iff.mp hc'
      exact (propose_eq_outstanding h hc).trans hleft
    simp only [allProposals, List.flatMap_cons, List.filterMap_append] at ih ⊢
    exact hhere.append ih

/-- What was proposed is proposed still, in the same order, if its keys are still free. -/
lemma allProposals_sublist (h : s.Extends added s')
    (hfree : ∀ c ∈ allProposals s admits ps, ∀ shape ∈ c.additions,
      s'.hasKey shape.key = false) :
    (allProposals s admits ps).Sublist (allProposals s' admits ps) := by
  have hall : (allProposals s admits ps).filterMap (outstanding s') = allProposals s admits ps := by
    rw [List.filterMap_congr (g := some), List.filterMap_some]
    intro c hc
    obtain ⟨p, -, anchor, -, hpropose⟩ := mem_allProposals_iff.mp hc
    obtain ⟨-, -, -, -, hne⟩ := propose_eq_some_iff.mp hpropose
    exact outstanding_of_free hne (hfree c hc)
  have hsub := outstanding_sublist h admits ps
  rwa [hall] at hsub

/-- If nothing new is proposed, and no key of what was listed has been taken, a second search lists
the same. -/
lemma cut_allProposals_eq (h : s.Extends added s') (hs : s.Consistent) {limit : Option ℕ}
    (hfree : ∀ c ∈ cut limit (allProposals s admits ps), ∀ shape ∈ c.additions,
      s'.hasKey shape.key = false)
    (hnew : NothingNew s s' admits ps limit) :
    cut limit (allProposals s admits ps) = cut limit (allProposals s' admits ps) := by
  unfold NothingNew at hnew
  rw [allProposals_eq_filterMap_proposeOld h hs] at hfree ⊢
  rw [allProposals_eq_filterMap] at hnew ⊢
  refine cut_filterMap_congr ?_ ?_
  · rintro ⟨p, anchor⟩ hpair c hlisted hc
    obtain ⟨hp, hanchor⟩ := List.mem_product.mp hpair
    obtain ⟨-, hold⟩ := (proposeOld_eq_some_iff h hs hanchor).mp hc
    exact propose_of_extends h hold (hfree c hlisted)
  · rintro ⟨p, anchor⟩ hpair c hlisted hc
    obtain ⟨hp, hanchor⟩ := List.mem_product.mp hpair
    exact (proposeOld_eq_some_iff h hs hanchor).mpr (hnew p hp anchor hanchor c hlisted hc)

/-- Two searches without a limit list the same exactly if nothing new is proposed and no key of what
was proposed has been taken. -/
lemma allProposals_eq_iff (h : s.Extends added s') (hs : s.Consistent) :
    allProposals s admits ps = allProposals s' admits ps ↔
      (∀ c ∈ allProposals s admits ps, ∀ shape ∈ c.additions, s'.hasKey shape.key = false) ∧
        NothingNew s s' admits ps none := by
  constructor
  · intro heq
    have hfree : ∀ c ∈ allProposals s admits ps, ∀ shape ∈ c.additions,
        s'.hasKey shape.key = false := by
      intro c hc shape hshape
      rw [heq] at hc
      obtain ⟨p, -, anchor, -, hpropose⟩ := mem_allProposals_iff.mp hc
      exact (of_mem_additions hpropose hshape).2.1
    have hsame : (ps ×ˢ s'.toList).filterMap (proposeOld s admits) =
        (ps ×ˢ s'.toList).filterMap fun pair => propose s' admits pair.1 pair.2 := by
      rw [← allProposals_eq_filterMap_proposeOld h hs, heq, allProposals_eq_filterMap]
    refine ⟨hfree, fun p hp anchor hanchor c _ hc => ?_⟩
    have hpair : (p, anchor) ∈ ps ×ˢ s'.toList := List.mem_product.mpr ⟨hp, hanchor⟩
    exact (proposeOld_eq_some_iff h hs hanchor).mp
      (eq_some_of_filterMap_eq (propose_of_proposeOld h hs hfree) hsame hpair hc)
  · rintro ⟨hfree, hnew⟩
    have hlisted : ∀ c ∈ cut none (allProposals s admits ps), ∀ shape ∈ c.additions,
        s'.hasKey shape.key = false := hfree
    exact cut_allProposals_eq h hs hlisted hnew

/-! ### Insertions -/

/-- Insert any shapes into any store, each under a condition of admission of its own.  All polygons
are still there.  If a production proposed something at one of them, it finds the same polygons
under the same similarity now, and proposes, in their order, those of its additions whose keys are
still free; it proposes nothing exactly if all of them are taken.  So the next search lists what is
left of the proposals of the last one, in the order in which they were listed. -/
theorem proposals_persist_under_insertion (s : Store) (as : List Store.Action)
    (has : .clear ∉ as) (admits : Shape → Bool) :
    let s' := (s.perform as).2
    (∀ anchor ∈ s.toList, anchor ∈ s'.toList ∧
      ∀ p c, propose s admits p anchor = some c →
        propose s' admits p anchor = outstanding s' c ∧
        (propose s' admits p anchor = none ↔
          ∀ shape ∈ c.additions, s'.hasKey shape.key = true)) ∧
    ∀ ps g, ((run s ps admits .exhaustive none g).1.filterMap (outstanding s')).Sublist
      (run s' ps admits .exhaustive none g).1 := by
  intro s'
  obtain ⟨added, hext⟩ : ∃ added, s.Extends added s' := s.exists_extends_perform has
  refine ⟨fun anchor hanchor => ⟨hext.sublist.subset hanchor, fun p c hc => ?_⟩, fun ps g => ?_⟩
  · have heq := propose_eq_outstanding hext hc
    refine ⟨heq, ?_⟩
    rw [heq]
    exact outstanding_eq_none_iff
  · rw [run_exhaustive, run_exhaustive]
    exact outstanding_sublist hext admits ps

/-- A production that adds the right neighbour of a triangle and the triangle below it. -/
def triangleSpread : Production := ⟨1, [triangle 0 0 1], [triangle 1 0 1, triangle 0 (-1) 1]⟩

/-- The insertion of a triangle, whatever it is. -/
def insertTriangle (x y : Float) : Store.Action := .insert (fun _ => true) (triangle x y 1)

theorem triangle_spread_persists :
    let s := Store.after [insertTriangle 0 0]
    let right := (s.perform [insertTriangle 5 5, insertTriangle 1 0]).2
    let both := (s.perform [insertTriangle 5 5, insertTriangle 1 0, insertTriangle 0 (-1)]).2
    ∃ anchor ∈ s.toList, ∃ c, propose s (fun _ => true) triangleSpread anchor = some c ∧
      c.additions.map Shape.key = [(triangle 1 0 1).key, (triangle 0 (-1) 1).key] ∧
      propose right (fun _ => true) triangleSpread anchor = outstanding right c ∧
      (outstanding right c).map (fun left => left.additions.map Shape.key) =
        some [(triangle 0 (-1) 1).key] ∧
      propose both (fun _ => true) triangleSpread anchor = none := by
  intro s right both
  have hrun : s.toList[0]?.map (fun anchor =>
      (propose s (fun _ => true) triangleSpread anchor).map fun c =>
        (c.additions.map Shape.key,
          (outstanding right c).map fun left => left.additions.map Shape.key,
          c.additions.all fun shape => both.hasKey shape.key)) =
      some (some ([(triangle 1 0 1).key, (triangle 0 (-1) 1).key],
        some [(triangle 0 (-1) 1).key], true)) := by
    decide +kernel
  obtain ⟨anchor, hfirst, hrun⟩ := Option.map_eq_some_iff.mp hrun
  obtain ⟨c, hc, hrun⟩ := Option.map_eq_some_iff.mp hrun
  simp only [Prod.mk.injEq, List.all_eq_true] at hrun
  obtain ⟨hkeys, hleft, htaken⟩ := hrun
  have hanchor : anchor ∈ s.toList := List.mem_of_getElem? hfirst
  have hright := (proposals_persist_under_insertion s [insertTriangle 5 5, insertTriangle 1 0]
    (by simp [insertTriangle]) (fun _ => true)).1 anchor hanchor
  have hboth := (proposals_persist_under_insertion s
    [insertTriangle 5 5, insertTriangle 1 0, insertTriangle 0 (-1)] (by simp [insertTriangle])
    (fun _ => true)).1 anchor hanchor
  exact ⟨anchor, hanchor, c, hc, hkeys, (hright.2 triangleSpread c hc).1, hleft,
    (hboth.2 triangleSpread c hc).2.mpr htaken⟩

end Search

end ShapeGrammar
