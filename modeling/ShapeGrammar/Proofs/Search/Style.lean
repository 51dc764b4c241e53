import ShapeGrammar.Growth
import ShapeGrammar.Proofs.Search.Proposals
import ShapeGrammar.Proofs.Store.Style

/-!
# Searches do not look at styles

Let the shapes of a store and of the productions be given other styles.  A search then draws the
same, and its proposals differ in styles at most (`Search.restyled_run`): alignments, look-ups, the
region and the keys of results see vertices only, one pair of a production and an anchor after the
other.  Scores and pointing see vertices only as well, so the same proposal is chosen.
-/

namespace ShapeGrammar

namespace Shape.Restyled

variable {s s' : Shape}

lemma keyUnder_eq (h : s.Restyled s') (t : Similarity) : s'.keyUnder t = s.keyUnder t := by
  rw [h.eq_with_style]
  rfl

lemma under (h : s.Restyled s') (t : Similarity) : (s.under t).Restyled (s'.under t) := by
  rw [h.eq_with_style]
  rfl

lemma referenceEdge_eq (h : s.Restyled s') : s'.referenceEdge = s.referenceEdge := by
  rw [h.eq_with_style]
  rfl

lemma weight_eq (h : s.Restyled s') : Proposal.weight s' = Proposal.weight s := by
  rw [h.eq_with_style]
  rfl

end Shape.Restyled

/-- The two productions have one number, and their shapes differ in styles at most. -/
structure Production.Restyled (p p' : Production) : Prop where
  id_eq : p'.id = p.id
  pattern : List.Forall₂ Shape.Restyled p.pattern p'.pattern
  result : List.Forall₂ Shape.Restyled p.result p'.result

/-- The two proposals differ in styles at most. -/
structure Proposal.Restyled (c c' : Proposal) : Prop where
  production : c.production.Restyled c'.production
  found : List.Forall₂ Polygon.Restyled c.found c'.found
  additions : List.Forall₂ Shape.Restyled c.additions c'.additions
  similarity_eq : c'.similarity = c.similarity

namespace Proposal.Restyled

variable {c c' : Proposal} {cs cs' : List Proposal}

lemma foundIds_eq (h : c.Restyled c') : c'.foundIds = c.foundIds :=
  map_eq_map_of_rel h.found fun _ _ hq => hq.id_eq

lemma score_eq (h : c.Restyled c') : c'.score = c.score := by
  unfold score
  rw [map_eq_map_of_rel h.additions fun _ _ hs => hs.weight_eq]

/-- Both would add something at a point, or neither. -/
lemma covers_eq (h : c.Restyled c') (x y : Float) : c'.covers x y = c.covers x y := by
  have hmap := map_eq_map_of_rel h.additions fun _ _ hs => hs.contains_eq x y
  have hany : ∀ c : Proposal, c.covers x y = (c.additions.map fun s => s.contains x y).any id :=
    fun c => by
      rw [List.any_map]
      rfl
  rw [hany, hany, hmap]

end Proposal.Restyled

/-! ### Choosing -/

section Choosing

variable {cs cs' : List Proposal}

/-- The choice by pointing is the same. -/
lemma Selection.under_restyled (h : List.Forall₂ Proposal.Restyled cs cs') (p : Point) :
    under cs' p = under cs p := by
  have hmap := map_eq_map_of_rel h fun _ _ hc => hc.covers_eq p.x p.y
  have hfind : ∀ cs, under cs p = (cs.map fun c => c.covers p.x p.y).findIdx? id := fun cs => by
    rw [List.findIdx?_map]
    rfl
  rw [hfind, hfind, hmap]

/-- A tick chooses the same, and draws the same for it. -/
lemma Policy.choose_restyled (h : List.Forall₂ Proposal.Restyled cs cs') (g : Generator)
    (policy : Policy) : policy.choose cs' g = policy.choose cs g := by
  cases policy with
  | weighted =>
    exact congrArg (Selection.weighted · g) (map_eq_map_of_rel h fun _ _ hc => hc.score_eq)
  | first => cases h <;> rfl
  | stochastic count => exact congrArg (Selection.uniform · g) h.length_eq.symm

end Choosing

namespace Search

/-! ### One pair of a production and an anchor -/

variable {s s' : Store} {p p' : Production} {ps ps' : List Production} {t : Similarity}

lemma restyled_align {m m' a a' : Shape} (hm : m.Restyled m') (edge : Float) (ha : a.Restyled a') :
    align m' edge a' = align m edge a := by
  rw [hm.eq_with_style, ha.eq_with_style]
  rfl

/-- One similarity takes the pattern to the anchor. -/
lemma restyled_alignment (hp : p.Restyled p') {a a' : Shape} (ha : a.Restyled a') :
    alignment p' a' = alignment p a := by
  obtain ⟨id, ms, rs⟩ := p
  obtain ⟨id', ms', rs'⟩ := p'
  have hpattern : List.Forall₂ Shape.Restyled ms ms' := hp.pattern
  cases hpattern with
  | nil => rfl
  | @cons m m' ms ms' hm _ =>
    have hedge : patternEdge ⟨id', m' :: ms', rs'⟩ = patternEdge ⟨id, m :: ms, rs⟩ := by
      unfold patternEdge
      dsimp only
      rw [hm.referenceEdge_eq]
    unfold alignment
    rw [hedge]
    cases patternEdge ⟨id, m :: ms, rs⟩ with
    | none => rfl
    | some edge => exact restyled_align hm edge ha

/-- The same polygons are found. -/
lemma restyled_findAll (h : s.Restyled s') (t : Similarity) {ms ms' : List Shape}
    (hms : List.Forall₂ Shape.Restyled ms ms') :
    Option.Rel (List.Forall₂ Polygon.Restyled) (findAll s t ms) (findAll s' t ms') := by
  induction hms with
  | nil => exact .some .nil
  | @cons m m' ms ms' hm _ ih =>
    unfold findAll
    rw [hm.keyUnder_eq]
    have hlook := h.lookup (m.keyUnder t)
    generalize s.lookup (m.keyUnder t) = found, s'.lookup (m.keyUnder t) = found' at hlook ⊢
    cases hlook with
    | none => exact .none
    | some hq =>
      generalize findAll s t ms = rest, findAll s' t ms' = rest' at ih ⊢
      cases ih with
      | none => exact .none
      | some hrest => exact .some (.cons hq hrest)

/-- The same results are kept. -/
lemma restyled_fresh (hp : p.Restyled p') (t : Similarity) (kept : List Key) :
    List.Forall₂ Shape.Restyled (fresh p t kept) (fresh p' t kept) := by
  refine List.rel_filter (fun r r' hr => ?_) (List.rel_map (fun r r' hr => hr.under t) hp.result)
  simp only [hr.key_eq]

/-- The same shapes are left to add. -/
lemma restyled_additions (h : s.Restyled s') (hp : p.Restyled p') (r : Region) (t : Similarity)
    {found found' : List Polygon} (hfound : List.Forall₂ Polygon.Restyled found found') :
    List.Forall₂ Shape.Restyled (additions s p r.admits t found)
      (additions s' p' r.admits t found') := by
  have hkept := map_eq_map_of_rel hfound fun _ _ hq => hq.key_eq
  have hfresh := restyled_fresh hp t (found.map Polygon.key)
  have hall := all_eq_all_of_rel hfresh fun _ _ hs => hs.admits_eq r
  rw [additions_eq, additions_eq, hkept, hall]
  split
  · refine List.rel_filter (fun r r' hr => ?_) hfresh
    simp only [hr.key_eq, h.hasKey_eq]
  · exact .nil

/-- What is added are images of some results, in their order. -/
lemma additions_sublist (s : Store) (p : Production) (admits : Shape → Bool) (t : Similarity)
    (found : List Polygon) :
    (additions s p admits t found).Sublist (p.result.map fun r => r.under t) := by
  rw [additions_eq]
  split
  · exact List.filter_sublist.trans List.filter_sublist
  · exact List.nil_sublist _

/-- The proposals of restyled productions at restyled anchors are both there, or neither is. -/
lemma restyled_propose (h : s.Restyled s') (hp : p.Restyled p') (r : Region) {a a' : Polygon}
    (ha : a.Restyled a') :
    Option.Rel Proposal.Restyled (propose s r.admits p a) (propose s' r.admits p' a') := by
  rw [propose_eq_bind, propose_eq_bind, restyled_alignment hp ha.shape]
  cases alignment p a.shape with
  | none => exact .none
  | some t =>
    dsimp only [Option.bind_some]
    have hfound := restyled_findAll h t hp.pattern
    generalize findAll s t p.pattern = found, findAll s' t p'.pattern = found' at hfound ⊢
    cases hfound with
    | none => exact .none
    | @some found found' hfound =>
      dsimp only [Option.bind_some]
      have hadditions := restyled_additions h hp r t hfound
      generalize additions s p r.admits t found = shapes,
        additions s' p' r.admits t found' = shapes' at hadditions ⊢
      cases hadditions with
      | nil => exact .none
      | cons hs hrest => exact .some ⟨hp, hfound, .cons hs hrest, rfl⟩

/-! ### Whole searches -/

lemma restyled_allProposals (h : s.Restyled s') (r : Region)
    (hps : List.Forall₂ Production.Restyled ps ps') :
    List.Forall₂ Proposal.Restyled (allProposals s r.admits ps) (allProposals s' r.admits ps') :=
  List.rel_flatMap hps fun _ _ hp =>
    List.rel_filterMap (fun _ _ ha => restyled_propose h hp r ha) h.polygons

lemma rel_cut {α β : Type} {R : α → β → Prop} {xs : List α} {ys : List β} (h : List.Forall₂ R xs ys)
    (limit : Option ℕ) : List.Forall₂ R (cut limit xs) (cut limit ys) := by
  cases limit with
  | none => exact h
  | some n => exact List.forall₂_take n h

/-- Whether a pair gives a proposal decides how a sampled search goes on; what the proposal is does
not matter. -/
lemma restyled_sampled {tryPair tryPair' : ℕ × ℕ → Option Proposal}
    (h : ∀ pair, Option.Rel Proposal.Restyled (tryPair pair) (tryPair' pair)) (wanted : ℕ)
    (limit : Option ℕ) (productions anchors : Cycle) (g : Generator) :
    List.Forall₂ Proposal.Restyled (sampled tryPair wanted limit productions anchors g).1
        (sampled tryPair' wanted limit productions anchors g).1 ∧
      (sampled tryPair' wanted limit productions anchors g).2 =
        (sampled tryPair wanted limit productions anchors g).2 := by
  induction wanted generalizing limit productions anchors g with
  | zero => exact ⟨.nil, rfl⟩
  | succ wanted ih =>
    by_cases hlimit : limit = some 0
    · subst hlimit
      exact ⟨.nil, rfl⟩
    · rw [sampled_succ tryPair wanted hlimit, sampled_succ tryPair' wanted hlimit]
      rcases drawPair productions anchors (wanted + 1) g with ⟨_ | ⟨pair, productions, anchors⟩, g⟩
      · exact ⟨.nil, rfl⟩
      · dsimp only
        have hpair := h pair
        generalize tryPair pair = c, tryPair' pair = c' at hpair ⊢
        cases hpair with
        | none => exact ih limit productions anchors g
        | some hc =>
          obtain ⟨hrest, hgenerator⟩ := ih (limit.map (· - 1)) productions anchors g
          exact ⟨.cons hc hrest, hgenerator⟩

lemma restyled_proposeAt (h : s.Restyled s') (r : Region)
    (hps : List.Forall₂ Production.Restyled ps ps') (pair : ℕ × ℕ) :
    Option.Rel Proposal.Restyled (proposeAt s ps r.admits pair)
      (proposeAt s' ps' r.admits pair) := by
  have hproduction := rel_getElem? hps pair.1
  have hanchor := rel_getElem? h.polygons pair.2
  rw [Store.toList, Store.toList, Array.getElem?_toList, Array.getElem?_toList] at hanchor
  unfold proposeAt
  dsimp only
  generalize ps[pair.1]? = p, ps'[pair.1]? = p' at hproduction ⊢
  cases hproduction with
  | none => exact .none
  | some hp =>
    generalize s.polygons[pair.2]? = a, s'.polygons[pair.2]? = a' at hanchor ⊢
    cases hanchor with
    | none => exact .none
    | some ha => exact restyled_propose h hp r ha

/-- A search finds the same but for styles, and draws the same for it. -/
lemma restyled_run (h : s.Restyled s') (r : Region) (hps : List.Forall₂ Production.Restyled ps ps')
    (sampling : Sampling) (limit : Option ℕ) (g : Generator) :
    List.Forall₂ Proposal.Restyled (run s ps r.admits sampling limit g).1
        (run s' ps' r.admits sampling limit g).1 ∧
      (run s' ps' r.admits sampling limit g).2 = (run s ps r.admits sampling limit g).2 := by
  cases sampling with
  | exhaustive =>
    rw [run_exhaustive, run_exhaustive]
    exact ⟨rel_cut (restyled_allProposals h r hps) limit, rfl⟩
  | sampled count =>
    have hnone : ps'.isEmpty = ps.isEmpty := by cases hps <;> rfl
    have hsize : s'.size = s.size := h.size_eq
    unfold run
    rw [h.isEmpty_eq, hnone, hsize, ← hps.length_eq]
    split
    · exact ⟨.nil, rfl⟩
    · exact restyled_sampled (restyled_proposeAt h r hps) _ _ _ _ _

end Search

end ShapeGrammar
