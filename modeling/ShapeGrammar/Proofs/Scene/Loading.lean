import ShapeGrammar.Proofs.Scene.Seed

/-!
# Which scenes can be made

There are four ready-made scenes.  Their rules have fixed coordinates, and the coordinates of their
seeds are half a side of the canvas plus or minus some short length (`IsSide.isFinite_add`).  So each
of the four can be made for every canvas that has a size in pixels, and there are no others
(`Scene.exists_load_iff`).
-/

namespace ShapeGrammar

open Number (real value)

/-- A length of at most `2 ^ 9`. -/
def Number.Short (d : Float) : Prop := d.isFinite = true ∧ |value d| ≤ 2 ^ 9

namespace Number

instance (d : Float) : Decidable (Short d) := inferInstanceAs (Decidable (_ ∧ _))

lemma Short.abs_real_le {d : Float} (h : Short d) : |real d| ≤ 2 ^ 9 := by
  have hvalue := h.2
  rw [← Rat.cast_le (K := ℝ)] at hvalue
  push_cast at hvalue
  exact hvalue

end Number

namespace IsSide

variable {x d e : Float} (hx : IsSide x) (hd : Number.Short d)

include hx hd

lemma isFinite_add : (x / 2 + d).isFinite = true := (hx.middle_add_near hd.1 hd.abs_real_le).1

lemma isFinite_sub : (x / 2 - d).isFinite = true := (hx.middle_sub_near hd.1 hd.abs_real_le).1

omit hd in
/-- Another short length may be added to what is near the middle. -/
lemma isFinite_add_of_near (he : Number.Short e) {z : Float} {r : ℝ} (hr : |r| ≤ 2 ^ 9)
    (hz : z.isFinite = true ∧ |real z - (real x / 2 + r)| ≤ 2 ^ (-35 : ℤ)) :
    (z + e).isFinite = true := by
  have hsum : |real z + real e| ≤ 2 ^ 16 := by
    have hone := hx.one_le
    have hle := hx.le
    have hr' := abs_le.mp hr
    have he' := abs_le.mp he.abs_real_le
    have hnear := abs_le.mp hz.2
    norm_num at hle hr' he' hnear
    rw [abs_le]
    constructor <;> norm_num <;> linarith
  exact (Number.near_of_le_two_pow (by decide) hsum (Number.approximates_add hz.1 he.1)).1

lemma isFinite_add_add (he : Number.Short e) : (x / 2 + d + e).isFinite = true :=
  hx.isFinite_add_of_near he hd.abs_real_le (hx.middle_add_near hd.1 hd.abs_real_le)

lemma isFinite_sub_add (he : Number.Short e) : (x / 2 - d + e).isFinite = true := by
  have hnear := hx.middle_sub_near hd.1 hd.abs_real_le
  have hneg := hd.abs_real_le
  rw [sub_eq_add_neg (real x / 2)] at hnear
  rw [← abs_neg] at hneg
  exact hx.isFinite_add_of_near he hneg hnear

end IsSide

namespace Scene

/-- The keys of the scenes. -/
def keys : List String := ["tri", "sponge", "halfrect", "tiles"]

/-! ### Outlines and rules -/

/-- An outline can be made of three finite points or more. -/
lemma exists_outline {ps : List (Float × Float)} (hlength : 3 ≤ ps.length)
    (hfinite : ∀ p ∈ ps, p.1.isFinite = true ∧ p.2.isFinite = true) :
    ∃ s, outline ps = .ok s := by
  refine ⟨⟨ps.map fun p => ⟨p.1, p.2⟩, .plain, by rwa [List.length_map]⟩, outline_eq_ok rfl rfl ?_⟩
  exact List.forall_mem_map.mpr fun p hp => Bool.and_eq_true_iff.mpr (hfinite p hp)

/-- A quad can be made of finite corners. -/
lemma exists_quad {x₀ y₀ x₁ y₁ : Float} (hx₀ : x₀.isFinite = true) (hy₀ : y₀.isFinite = true)
    (hx₁ : x₁.isFinite = true) (hy₁ : y₁.isFinite = true) : ∃ s, quad x₀ y₀ x₁ y₁ = .ok s :=
  exists_outline (Nat.le_succ 3) (by simp [hx₀, hy₀, hx₁, hy₁])

/-- The corners of the quad are finite. -/
def FiniteQuad (q : Float × Float × Float × Float) : Prop :=
  q.1.isFinite = true ∧ q.2.1.isFinite = true ∧ q.2.2.1.isFinite = true ∧ q.2.2.2.isFinite = true

instance (q : Float × Float × Float × Float) : Decidable (FiniteQuad q) :=
  inferInstanceAs (Decidable (_ ∧ _ ∧ _ ∧ _))

/-- What can be done with every member of a list can be done with the list. -/
lemma exists_mapM {α β : Type} {f : α → Except Failure β} {as : List α}
    (h : ∀ a ∈ as, ∃ b, f a = .ok b) : ∃ bs, as.mapM f = .ok bs := by
  induction as with
  | nil => exact ⟨[], rfl⟩
  | cons a as ih =>
    obtain ⟨b, hb⟩ := h a List.mem_cons_self
    obtain ⟨bs, hbs⟩ := ih fun a' ha' => h a' (List.mem_cons_of_mem a ha')
    refine ⟨b :: bs, ?_⟩
    rw [List.mapM_cons, hb, hbs]
    rfl

/-- A rule can be made of quads with finite corners. -/
lemma exists_quadRule {base : Float × Float × Float × Float}
    {added : List (Float × Float × Float × Float)} (hbase : FiniteQuad base)
    (hadded : ∀ q ∈ added, FiniteQuad q) : ∃ rule, quadRule base added = .ok rule := by
  obtain ⟨pattern, hpattern⟩ := exists_quad hbase.1 hbase.2.1 hbase.2.2.1 hbase.2.2.2
  obtain ⟨result, hresult⟩ :
      ∃ result, added.mapM (fun q => quad q.1 q.2.1 q.2.2.1 q.2.2.2) = .ok result :=
    exists_mapM fun q hq => by
      obtain ⟨h₁, h₂, h₃, h₄⟩ := hadded q hq
      exact exists_quad h₁ h₂ h₃ h₄
  refine ⟨([pattern], result), ?_⟩
  change (quad base.1 base.2.1 base.2.2.1 base.2.2.2 >>= fun pattern =>
    added.mapM (fun q => quad q.1 q.2.1 q.2.2.1 q.2.2.2) >>= fun result =>
      Except.ok ([pattern], result)) = _
  rw [hpattern, hresult]
  rfl

/-! ### Scenes -/

section Canvas

variable {W H : Float} (hW : IsSide W) (hH : IsSide H)

include hW hH

lemma exists_sponge : ∃ scene, sponge (W / 2) (H / 2) = .ok scene := by
  have hhalf : Number.Short (512 / 2) := by decide +kernel
  have hsixth : Number.Short (512 / 6) := by decide +kernel
  have hone : Number.Short 1 := by decide +kernel
  obtain ⟨rule, hrule⟩ : ∃ rule, quadRule (0, 0, 3, 3) [
      (-2, 4, -1, 5), (-2, -2, -1, -1), (4, -2, 5, -1), (4, 4, 5, 5),
      (1, -2, 2, -1), (1, 4, 2, 5), (-2, 1, -1, 2), (4, 1, 5, 2)] = .ok rule :=
    exists_quadRule (by decide +kernel) (by decide +kernel)
  obtain ⟨frame, hframe⟩ : ∃ frame, outline [
      (W / 2 - 512 / 2, H / 2 - 512 / 2), (W / 2 - 512 / 2, H / 2 + 512 / 2),
      (W / 2 + 512 / 2, H / 2 + 512 / 2 + 1), (W / 2 + 512 / 2, H / 2 - 512 / 2 + 1)] =
        .ok frame := by
    refine exists_outline (Nat.le_succ 3) ?_
    simp [hW.isFinite_sub hhalf, hW.isFinite_add hhalf, hH.isFinite_sub hhalf,
      hH.isFinite_add hhalf, hH.isFinite_add_add hhalf hone, hH.isFinite_sub_add hhalf hone]
  obtain ⟨core, hcore⟩ := exists_quad (hW.isFinite_sub hsixth) (hH.isFinite_sub hsixth)
    (hW.isFinite_add hsixth) (hH.isFinite_add hsixth)
  refine ⟨⟨"Menger Sponge", grammar [rule], [frame, core]⟩, ?_⟩
  unfold sponge
  dsimp only
  rw [hrule]
  dsimp only [bind, Except.bind, pure, Except.pure]
  rw [hframe]
  dsimp only
  rw [hcore]

lemma exists_halfSquares : ∃ scene, halfSquares (W / 2) (H / 2) = .ok scene := by
  have hhalf : Number.Short (256 / 2) := by decide +kernel
  obtain ⟨rules, hrules⟩ : ∃ rules, [
      (64, 0, 96, 32), (-32, 32, 0, 64), (32, 64, 64, 96), (0, -32, 32, 0)].mapM
        (fun q => quadRule (0, 0, 64, 64) [q]) = .ok rules := by
    have hfinite : ∀ q ∈ [((64, 0, 96, 32) : Float × Float × Float × Float), (-32, 32, 0, 64),
        (32, 64, 64, 96), (0, -32, 32, 0)], FiniteQuad q := by
      decide +kernel
    exact exists_mapM fun q hq =>
      exists_quadRule (by decide +kernel) (List.forall_mem_singleton.mpr (hfinite q hq))
  obtain ⟨seed, hseed⟩ := exists_quad (hW.isFinite_sub hhalf) (hH.isFinite_sub hhalf)
    (hW.isFinite_add hhalf) (hH.isFinite_add hhalf)
  refine ⟨⟨"Half Cubes", grammar rules, [seed]⟩, ?_⟩
  unfold halfSquares
  dsimp only
  rw [hrules]
  dsimp only [bind, Except.bind, pure, Except.pure]
  rw [hseed]

lemma exists_tiles : ∃ scene, tiles (W / 2) (H / 2) = .ok scene := by
  have hwide : Number.Short 16 := by decide +kernel
  have hflat : Number.Short 8 := by decide +kernel
  obtain ⟨rules, hrules⟩ : ∃ rules, [
      ((0, 0, 16, 32), (16, 0, 48, 16)), ((0, 0, 32, 16), (0, 16, 16, 48)),
      ((0, 0, 16, 32), (-32, 16, 0, 32)), ((0, 0, 32, 16), (16, -32, 32, 0))].mapM
        (fun rule => quadRule rule.1 [rule.2]) = .ok rules := by
    have hfinite : ∀ rule ∈ [
        (((0, 0, 16, 32), (16, 0, 48, 16)) :
          (Float × Float × Float × Float) × (Float × Float × Float × Float)),
        ((0, 0, 32, 16), (0, 16, 16, 48)), ((0, 0, 16, 32), (-32, 16, 0, 32)),
        ((0, 0, 32, 16), (16, -32, 32, 0))], FiniteQuad rule.1 ∧ FiniteQuad rule.2 := by
      decide +kernel
    exact exists_mapM fun rule hrule =>
      exists_quadRule (hfinite rule hrule).1 (List.forall_mem_singleton.mpr (hfinite rule hrule).2)
  obtain ⟨seed, hseed⟩ := exists_quad (hW.isFinite_sub hwide) (hH.isFinite_sub hflat)
    (hW.isFinite_add hwide) (hH.isFinite_add hflat)
  refine ⟨⟨"Tiles", grammar rules, [seed]⟩, ?_⟩
  change (_ >>= fun rules => quad (W / 2 - 16) (H / 2 - 8) (W / 2 + 16) (H / 2 + 8) >>= fun seed =>
    Except.ok (Scene.mk "Tiles" (grammar rules) [seed])) = _
  rw [hrules, hseed]
  rfl

/-- For a canvas with a size in pixels, the scenes that can be made are the four ready-made ones. -/
theorem exists_load_iff (key : String) : (∃ scene, load key W H = .ok scene) ↔ key ∈ keys := by
  constructor
  · rintro ⟨scene, hscene⟩
    unfold load at hscene
    dsimp only at hscene
    split at hscene
    · decide
    · decide
    · decide
    · decide
    · cases hscene
  · intro hkey
    simp only [keys, List.mem_cons, List.not_mem_nil, or_false] at hkey
    rcases hkey with rfl | rfl | rfl | rfl
    · exact ⟨_, load_triangle hW hH⟩
    · exact exists_sponge hW hH
    · exact exists_halfSquares hW hH
    · exact exists_tiles hW hH

end Canvas

end Scene

end ShapeGrammar
