import ShapeGrammar.Proofs.Json.Object
import ShapeGrammar.Settings

/-!
# Saved settings are loaded again

The text of a settings file is an object with the settings in their order, and every setting is
read back from it: the two strings whatever characters they have, the policy by its name or as an
object, whole numbers of 64 bits, `null` for what is missing.  Only doubles can change on the way.
So loading what was saved gives the settings back exactly if each of the three doubles is read back
from its text (`Settings.saved_settings_are_loaded_iff`).
-/

namespace ShapeGrammar

open Json

/-! ### Policies -/

/-- The number of pairs that a policy tries has 64 bits. -/
def Policy.Fits : Policy → Prop
  | .weighted => True
  | .first => True
  | .stochastic count => count < UInt64.size

namespace Settings

lemma readCount_tokens {count : ℕ} (h : count < UInt64.size) (rest : List Token) :
    readCount ((Value.object [("count", .natural count)]).tokens ++ rest) = .ok (count, rest) := by
  unfold readCount
  rw [readRecord_object (.cons rfl (fun rest => ?_) (.nil (some count)))]
  · rfl
  · rw [readNatural_tokens h]
    rfl

lemma readPolicy_tokens {policy : Policy} (h : policy.Fits) (rest : List Token) :
    readPolicy ((policyJson policy).tokens ++ rest) = .ok (policy, rest) := by
  cases policy with
  | weighted => rfl
  | first => rfl
  | stochastic count =>
    have htokens : (policyJson (.stochastic count)).tokens ++ rest =
        .openObject :: .text (some "Stochastic") :: .colon ::
          ((Value.object [("count", .natural count)]).tokens ++ .closeObject :: rest) := by
      simp [policyJson, Value.tokens, memberTokens, separated]
    have hcount := readCount_tokens h (.closeObject :: rest)
    rw [htokens]
    change ((readCount _ >>= fun x => .ok (Policy.stochastic x.1, x.2)) >>=
      fun x => takeCloseObject x.2 >>= fun ts => .ok (x.1, ts)) = _
    rw [hcount]
    rfl

/-! ### Drafts -/

section Drafts

variable {α : Type} {d : Draft} {name : String} {item : Reader α} {set : α → Settings} {v : Value}
  {ms : List (String × Value)}

/-- A setting that is read. -/
lemma collects_field (hmember : member d name = d.field name item set)
    (hnew : d.seen.contains name = false) {a : α}
    (hitem : ∀ rest, item (v.tokens ++ rest) = .ok (a, rest)) {r : Except TextFault Draft}
    (hrest : Collects member ⟨set a, name :: d.seen⟩ ms r) :
    Collects member d ((name, v) :: ms) r := by
  refine .cons (hmember.trans (if_neg (ne_true_of_eq_false hnew))) (fun rest => ?_) hrest
  rw [hitem]
  rfl

/-- A setting that is a double. -/
lemma collects_double {set : Float → Settings}
    (hmember : member d name = d.field name readFloat set)
    (hnew : d.seen.contains name = false) {x : Float} {r : Float → Except TextFault Draft}
    (hrest : ∀ y, Collects member ⟨set y, name :: d.seen⟩ ms (r y)) :
    Collects member d ((name, .double x) :: ms) (Json.reread x >>= r) := by
  cases hx : Json.reread x with
  | error fault =>
    refine .fault (hmember.trans (if_neg (ne_true_of_eq_false hnew))) (fun rest => ?_)
    rw [readFloat_tokens, hx]
    rfl
  | ok y =>
    refine collects_field hmember hnew (fun rest => ?_) (hrest y)
    rw [readFloat_tokens, hx]
    rfl

end Drafts

/-- All whole numbers of the settings have 64 bits. -/
structure Fits (s : Settings) : Prop where
  policy : s.policy.Fits
  tickInterval : s.tickInterval < UInt64.size
  limit : ∀ n ∈ s.limit, n < UInt64.size
  seed : s.seed < UInt64.size
  maxSteps : ∀ n ∈ s.maxSteps, n < UInt64.size

/-- The settings with their doubles as they are read from a file. -/
def reread (s : Settings) : Except TextFault Settings := do
  let width ← Json.reread s.canvasWidth
  let height ← Json.reread s.canvasHeight
  let slack ← Json.reread s.slack
  return { s with canvasWidth := width, canvasHeight := height, slack := slack }

/-- The settings, one by one, as they are written. -/
def members (s : Settings) : List (String × Value) :=
  match s.toJson with
  | .object ms => ms
  | _ => []

/-- What the members of a settings file are collected to. -/
lemma collects_members {s : Settings} (h : s.Fits) :
    Collects member ⟨default, []⟩ s.members (s.reread >>= fun s => .ok ⟨s, names.reverse⟩) := by
  unfold reread
  simp only [bind_assoc, pure_bind]
  refine collects_double (by rw [member]) rfl fun width => ?_
  refine collects_double (by rw [member]) rfl fun height => ?_
  refine collects_double (by rw [member]) rfl fun slack => ?_
  refine collects_field (by rw [member]) rfl (readString_tokens s.scene) ?_
  -- The draft is brought to a normal form after each step; otherwise its updates pile up.
  dsimp only
  refine collects_field (by rw [member]) rfl (readPolicy_tokens h.policy) ?_
  dsimp only
  refine collects_field (by rw [member]) rfl (readNatural_tokens h.tickInterval) ?_
  dsimp only
  refine collects_field (by rw [member]) rfl (readOption_tokens h.limit) ?_
  dsimp only
  refine collects_field (by rw [member]) rfl (readNatural_tokens h.seed) ?_
  dsimp only
  refine collects_field (by rw [member]) rfl (readOption_tokens h.maxSteps) ?_
  dsimp only
  refine collects_field (by rw [member]) rfl (readString_tokens s.image) ?_
  dsimp only
  refine collects_field (by rw [member]) rfl (readBool_tokens s.showPreviews) ?_
  exact .nil _

/-! ### Files -/

/-- Reading the text of settings gives them with their doubles reread. -/
lemma ofText_toText {s : Settings} (h : s.Fits) : ofText s.toText = s.reread := by
  have htokens : tokens s.toText.toList = (Value.object s.members).tokens ++ [] := by
    have hwrites := writes_write separates_pretty s.toJson 0
    rw [toText, Value.pretty, String.toList_ofList, hwrites.tokens_eq, List.append_nil]
    rfl
  unfold ofText
  rw [htokens, read, readRecord_object (collects_members h)]
  cases s.reread <;> rfl

/-- A text is recovered from its bytes. -/
lemma fromUTF8?_toUTF8 (s : String) : String.fromUTF8? s.toUTF8 = some s := by
  simp only [String.fromUTF8?, String.toUTF8_eq_toByteArray, dif_pos s.isValidUTF8]
  rfl

/-- Loading saved settings gives them with their doubles reread, or the defaults if one of these
cannot be read. -/
lemma load_toText {s : Settings} (h : s.Fits) :
    load (some s.toText.toUTF8) = s.reread.toOption.getD default := by
  unfold load
  rw [Option.bind_some, fromUTF8?_toUTF8]
  dsimp only
  rw [ofText_toText h]
  cases s.reread <;> rfl

/-- The three doubles of the settings are read back from their texts. -/
def ReadsBack (s : Settings) : Prop :=
  Json.ReadsBack s.canvasWidth ∧ Json.ReadsBack s.canvasHeight ∧ Json.ReadsBack s.slack

instance : DecidablePred ReadsBack := fun _ => inferInstanceAs (Decidable (_ ∧ _ ∧ _))

lemma reread_eq_ok_iff {s : Settings} : s.reread = .ok s ↔ s.ReadsBack := by
  unfold reread ReadsBack Json.ReadsBack
  constructor
  · intro h
    obtain ⟨width, hwidth, h⟩ := exists_of_bind_eq_ok h
    obtain ⟨height, hheight, h⟩ := exists_of_bind_eq_ok h
    obtain ⟨slack, hslack, h⟩ := exists_of_bind_eq_ok h
    have heq := Except.ok.inj h
    exact ⟨hwidth.trans (congrArg (Except.ok ·.canvasWidth) heq),
      hheight.trans (congrArg (Except.ok ·.canvasHeight) heq),
      hslack.trans (congrArg (Except.ok ·.slack) heq)⟩
  · rintro ⟨hwidth, hheight, hslack⟩
    rw [hwidth, hheight, hslack]
    rfl

lemma default_readsBack : default.ReadsBack := by
  decide +kernel

/-- Take any settings, with any strings and any policy, whose whole numbers have 64 bits.  Saving
and loading them gives the settings back exactly if each of the three doubles is read back from the
text that is written for it; of everything else nothing is lost. -/
theorem saved_settings_are_loaded_iff {s : Settings} (h : s.Fits) :
    load (some s.toText.toUTF8) = s ↔ s.ReadsBack := by
  rw [load_toText h, ← reread_eq_ok_iff]
  constructor
  · intro hload
    cases hreread : s.reread with
    | ok t =>
      rw [hreread] at hload
      exact congrArg Except.ok hload
    | error fault =>
      -- Then the defaults are loaded, and these are read back.
      rw [hreread] at hload
      obtain rfl : default = s := hload
      exact hreread.symm.trans (reread_eq_ok_iff.mpr default_readsBack)
  · intro hreread
    rw [hreread]
    rfl

/-- Settings with a quote, a backslash, control characters and a character outside the basic plane
in their strings, the largest count, and a missing limit. -/
def oddSettings : Settings :=
  { default with
    canvasWidth := 320.5
    scene := "say \"tri\" \\ \x01\t\x1f"
    policy := .stochastic 18446744073709551615
    limit := none
    seed := 18446744073709551615
    maxSteps := some 0
    image := "𝒳/é\n.png" }

theorem oddSettings_are_loaded :
    oddSettings.Fits ∧ oddSettings.ReadsBack ∧
      load (some oddSettings.toText.toUTF8) = oddSettings := by
  have hcount : 18446744073709551615 < UInt64.size := by decide
  have hfits : oddSettings.Fits := ⟨hcount, by decide, by decide, by decide, by decide⟩
  have hreads : oddSettings.ReadsBack := by decide +kernel
  exact ⟨hfits, hreads, (saved_settings_are_loaded_iff hfits).mpr hreads⟩

end Settings

end ShapeGrammar
