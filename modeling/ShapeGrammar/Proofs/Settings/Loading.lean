import ShapeGrammar.Proofs.Json.Record
import ShapeGrammar.Proofs.Settings

/-!
# What a settings file says

`Settings.ofMembers` is what the members of a settings file say: under each of the eleven names the
value that comes there, or the default if the name does not come.  Where a name comes repeatedly or
with a value of another kind, the members say nothing at all.  The order of the members does not
matter, and neither do members under other names.
-/

namespace ShapeGrammar

open Json

/-! ### Policies -/

namespace Json.Tree

/-- The number of pairs, as the only member of a record. -/
def count? (t : Tree) : Option ℕ :=
  (t.record? ["count"]).bind fun record => member? record.2 "count" natural? none

/-- A policy by its name alone, or by its name and what belongs to it. -/
def policy? : Tree → Option Policy
  | .text (some "Weighted") => some .weighted
  | .text (some "First") => some .first
  | .object [(some "Weighted", .null)] => some .weighted
  | .object [(some "First", .null)] => some .first
  | .object [(some "Stochastic", t)] => t.count?.map .stochastic
  | _ => none

end Json.Tree

namespace Settings

/-- The place of the number of pairs. -/
def countSlot : Slot (Option ℕ) where
  name := "count"
  item := readNatural
  meaning := Tree.natural?
  taken := Option.isSome
  put _ n := some n
  get := id

lemma slots_count : Slots [countSlot] where
  nodup := List.nodup_singleton _
  reads := by
    intro s hs
    rw [List.mem_singleton.mp hs]
    exact reads_natural
  taken_put := by
    intro s hs
    rw [List.mem_singleton.mp hs]
    exact fun _ _ => rfl
  get_put := by
    intro s hs
    rw [List.mem_singleton.mp hs]
    exact fun _ _ => rfl
  frame := by
    intro s hs s' hs' hne
    rw [List.mem_singleton.mp hs, List.mem_singleton.mp hs'] at hne
    exact absurd rfl hne

lemma reads_count : Reads readCount Tree.count? := by
  refine reads_record slots_count ⟨?_, ?_⟩ rfl fun t n => ?_
  · intro s hs r
    rw [List.mem_singleton.mp hs]
    rfl
  · intro name hname r
    have hne := hname countSlot List.mem_cons_self
    split
    · exact absurd rfl hne
    · rfl
  · have hcount : countSlot ∈ [countSlot] := List.mem_cons_self
    unfold Tree.count?
    rw [Option.bind_eq_some_iff]
    constructor
    · rintro ⟨⟨form, ms⟩, hrecord, hn⟩
      obtain ⟨r, hr⟩ := exists_collected slots_count none ms fun s hs => by
        rw [List.mem_singleton.mp hs]
        exact ⟨Slot.accepts_of_member? hn, fun h => by cases h⟩
      have hget : some n = r := hn.symm.trans (hr.filled slots_count hcount).member?_eq
      exact ⟨form, ms, r, hrecord, hr, by rw [← hget]; rfl⟩
    · rintro ⟨form, ms, r, hrecord, hr, hfinish⟩
      have hget := (hr.filled slots_count hcount).member?_eq
      refine ⟨(form, ms), hrecord, hget.trans ?_⟩
      cases r with
      | none => cases hfinish
      | some k =>
        cases hfinish
        rfl

lemma of_readNull {ts rest : List Token} (h : readNull ts = .ok ((), rest)) :
    ts = .null :: rest := by
  unfold readNull at h
  split at h
  · cases h
  · cases h
    rfl
  · cases h

/-- What was read as the rest of a policy that is written as an object. -/
lemma of_readPolicyBody {name : String} {ts rest : List Token} {policy : Policy}
    (h : readPolicyBody name ts = .ok (policy, rest)) :
    ∃ t : Tree, ts = .colon :: (t.tokens ++ rest) ∧
      (Tree.object [(some name, t)]).policy? = some policy := by
  unfold readPolicyBody at h
  split at h
  · obtain ⟨us, hcolon, hnull⟩ := exists_of_bind_eq_ok h
    obtain ⟨⟨⟨⟩, vs⟩, hnull, hpolicy⟩ := exists_of_bind_eq_ok hnull
    clear h
    cases hpolicy
    obtain rfl := of_takeColon hcolon
    obtain rfl := of_readNull hnull
    exact ⟨.null, rfl, rfl⟩
  · obtain ⟨us, hcolon, hnull⟩ := exists_of_bind_eq_ok h
    obtain ⟨⟨⟨⟩, vs⟩, hnull, hpolicy⟩ := exists_of_bind_eq_ok hnull
    clear h
    cases hpolicy
    obtain rfl := of_takeColon hcolon
    obtain rfl := of_readNull hnull
    exact ⟨.null, rfl, rfl⟩
  · obtain ⟨us, hcolon, hcount⟩ := exists_of_bind_eq_ok h
    obtain ⟨⟨n, vs⟩, hcount, hpolicy⟩ := exists_of_bind_eq_ok hcount
    clear h
    cases hpolicy
    obtain rfl := of_takeColon hcolon
    obtain ⟨t, rfl, ht⟩ := reads_count.exists_tree hcount
    exact ⟨t, rfl, congrArg (Option.map Policy.stochastic) ht⟩
  · cases h

lemma of_takeCloseObject {ts rest : List Token} (h : takeCloseObject ts = .ok rest) :
    ts = .closeObject :: rest := by
  unfold takeCloseObject at h
  split at h
  · cases h
  · cases h
    rfl
  · cases h

lemma of_readString {ts rest : List Token} {s : String} (h : readString ts = .ok (s, rest)) :
    ts = .text (some s) :: rest := by
  unfold readString at h
  split at h
  · cases h
  · cases h
    rfl
  · cases h

lemma reads_policy : Reads readPolicy Tree.policy? where
  reads := by
    intro t policy h rest
    unfold Tree.policy? at h
    split at h
    · cases h
      rfl
    · cases h
      rfl
    · cases h
      rfl
    · cases h
      rfl
    · next t =>
      obtain ⟨n, hn, rfl⟩ := Option.map_eq_some_iff.mp h
      have htokens : (Tree.object [(some "Stochastic", t)]).tokens ++ rest =
          .openObject :: .text (some "Stochastic") :: .colon ::
            (t.tokens ++ .closeObject :: rest) := by
        simp [Tree.tokens, Tree.tokensOfMembers, separated]
      rw [htokens]
      change ((readCount _ >>= fun x => .ok (Policy.stochastic x.1, x.2)) >>=
        fun x => takeCloseObject x.2 >>= fun ts => .ok (x.1, ts)) = _
      rw [reads_count.reads hn]
      rfl
    · cases h
  exists_tree := by
    intro ts policy rest h
    unfold readPolicy at h
    split at h
    · cases h
    · cases h
      exact ⟨.text (some "Weighted"), rfl, rfl⟩
    · cases h
      exact ⟨.text (some "First"), rfl, rfl⟩
    · cases h
    · cases h
    · obtain ⟨⟨name, us⟩, hname, hbody⟩ := exists_of_bind_eq_ok h
      obtain ⟨⟨policy', vs⟩, hbody, hclose⟩ := exists_of_bind_eq_ok hbody
      obtain ⟨ws, hclose, hpolicy⟩ := exists_of_bind_eq_ok hclose
      clear h
      cases hpolicy
      obtain rfl := of_readString hname
      obtain ⟨t, rfl, ht⟩ := of_readPolicyBody hbody
      obtain rfl := of_takeCloseObject hclose
      exact ⟨_, by simp [Tree.tokens, Tree.tokensOfMembers, separated], ht⟩
    · cases h

/-! ### Settings -/

/-- What the members of a settings file say, if every name comes once at most and with a value of
its kind. -/
def ofMembers (ms : List (String × Tree)) : Option Settings := do
  let canvasWidth ← Tree.member? ms "canvas_width" Tree.double? (some default.canvasWidth)
  let canvasHeight ← Tree.member? ms "canvas_height" Tree.double? (some default.canvasHeight)
  let slack ← Tree.member? ms "bounds_tolerance" Tree.double? (some default.slack)
  let scene ← Tree.member? ms "preset" Tree.string? (some default.scene)
  let policy ← Tree.member? ms "policy" Tree.policy? (some default.policy)
  let tickInterval ← Tree.member? ms "tick_interval_ms" Tree.natural? (some default.tickInterval)
  let limit ← Tree.member? ms "candidate_limit" (Tree.optional? Tree.natural?) (some default.limit)
  let seed ← Tree.member? ms "rng_seed" Tree.natural? (some default.seed)
  let maxSteps ← Tree.member? ms "max_steps" (Tree.optional? Tree.natural?) (some default.maxSteps)
  let image ← Tree.member? ms "output_png" Tree.string? (some default.image)
  let showPreviews ← Tree.member? ms "draw_previews" Tree.boolean? (some default.showPreviews)
  return ⟨canvasWidth, canvasHeight, slack, scene, policy, tickInterval, limit, seed, maxSteps,
    image, showPreviews⟩

/-- What a value says as the settings of a file. -/
def ofTree (t : Tree) : Option Settings :=
  (t.record? names).bind fun record => ofMembers record.2

/-- The place of a setting in a draft. -/
def slot {α : Type} (name : String) (item : Reader α) (meaning : Tree → Option α)
    (get : Settings → α) (set : Settings → α → Settings) : Slot Draft where
  name := name
  item := item
  meaning := meaning
  taken d := d.seen.contains name
  put d a := ⟨set d.settings a, name :: d.seen⟩
  get d := some (get d.settings)

/-- The places of all settings. -/
def slots : List (Slot Draft) := [
  slot "canvas_width" readFloat Tree.double? canvasWidth fun s v => { s with canvasWidth := v },
  slot "canvas_height" readFloat Tree.double? canvasHeight fun s v => { s with canvasHeight := v },
  slot "bounds_tolerance" readFloat Tree.double? slack fun s v => { s with slack := v },
  slot "preset" readString Tree.string? scene fun s v => { s with scene := v },
  slot "policy" readPolicy Tree.policy? policy fun s v => { s with policy := v },
  slot "tick_interval_ms" readNatural Tree.natural? tickInterval
    fun s v => { s with tickInterval := v },
  slot "candidate_limit" (readOption readNatural) (Tree.optional? Tree.natural?) limit
    fun s v => { s with limit := v },
  slot "rng_seed" readNatural Tree.natural? seed fun s v => { s with seed := v },
  slot "max_steps" (readOption readNatural) (Tree.optional? Tree.natural?) maxSteps
    fun s v => { s with maxSteps := v },
  slot "output_png" readString Tree.string? image fun s v => { s with image := v },
  slot "draw_previews" readBool Tree.boolean? showPreviews fun s v => { s with showPreviews := v }]

/-- What holds of the place of any setting that is read as it is meant holds of all places. -/
lemma forall_slots {P : Slot Draft → Prop}
    (h : ∀ {α : Type} (name : String) (item : Reader α) (meaning : Tree → Option α)
      (get : Settings → α) (set : Settings → α → Settings), Reads item meaning →
      (∀ s a, get (set s a) = a) → (∀ d, member d name = d.field name item (set d.settings)) →
      P (slot name item meaning get set)) : ∀ s ∈ slots, P s := by
  simp only [slots, List.forall_mem_cons, List.not_mem_nil, false_imp_iff, implies_true, and_true]
  exact ⟨h _ _ _ _ _ reads_float (fun _ _ => rfl) (fun _ => rfl),
    h _ _ _ _ _ reads_float (fun _ _ => rfl) (fun _ => rfl),
    h _ _ _ _ _ reads_float (fun _ _ => rfl) (fun _ => rfl),
    h _ _ _ _ _ reads_string (fun _ _ => rfl) (fun _ => rfl),
    h _ _ _ _ _ reads_policy (fun _ _ => rfl) (fun _ => rfl),
    h _ _ _ _ _ reads_natural (fun _ _ => rfl) (fun _ => rfl),
    h _ _ _ _ _ reads_natural.option (fun _ _ => rfl) (fun _ => rfl),
    h _ _ _ _ _ reads_natural (fun _ _ => rfl) (fun _ => rfl),
    h _ _ _ _ _ reads_natural.option (fun _ _ => rfl) (fun _ => rfl),
    h _ _ _ _ _ reads_string (fun _ _ => rfl) (fun _ => rfl),
    h _ _ _ _ _ reads_bool (fun _ _ => rfl) (fun _ => rfl)⟩

/-- Putting a setting into a draft leaves the others alone. -/
lemma get_put_of_ne {s s' : Slot Draft} (hs : s ∈ slots) (hs' : s' ∈ slots)
    (hne : s'.name ≠ s.name) (d : Draft) (a : s.α) : s'.get (s.put d a) = s'.get d := by
  simp only [slots, List.mem_cons, List.not_mem_nil, or_false] at hs hs'
  rcases hs with rfl | rfl | rfl | rfl | rfl | rfl | rfl | rfl | rfl | rfl | rfl <;>
    rcases hs' with rfl | rfl | rfl | rfl | rfl | rfl | rfl | rfl | rfl | rfl | rfl <;>
      first | rfl | exact absurd rfl hne

lemma slots_settings : Slots slots where
  nodup := by decide
  reads := forall_slots fun _ _ _ _ _ hreads _ _ => hreads
  taken_put := forall_slots fun name _ _ _ _ _ _ _ d a => by
    simp [slot]
  get_put := forall_slots fun _ _ _ _ _ _ hget _ d a => congrArg some (hget d.settings a)
  frame := by
    intro s hs s' hs' hne d a
    have htaken : ∀ s ∈ slots, ∀ d, s.taken d = d.seen.contains s.name :=
      forall_slots fun _ _ _ _ _ _ _ _ _ => rfl
    have hseen : (s.put d a).seen = s.name :: d.seen :=
      forall_slots (P := fun s => ∀ d a, (s.put d a).seen = s.name :: d.seen)
        (fun _ _ _ _ _ _ _ _ _ _ => rfl) s hs d a
    refine ⟨?_, get_put_of_ne hs hs' hne d a⟩
    rw [htaken s' hs', htaken s' hs', hseen, List.contains_cons, beq_false_of_ne hne,
      Bool.false_or]

lemma describes_settings : Describes slots member where
  known := forall_slots fun _ _ _ _ _ _ _ hmember d => hmember d
  unknown := by
    intro name hname d
    have hnames : name ∉ names := by
      intro hmem
      obtain ⟨s, hs, heq⟩ := List.mem_map.mp (show name ∈ slots.map Slot.name from hmem)
      exact hname s hs heq
    unfold member
    split
    all_goals first | rfl | exact absurd (by decide) hnames

/-! ### Drafts and members -/

/-- The members say these settings exactly if they say each of them under its name, or its default
where the name does not come. -/
lemma ofMembers_eq_some_iff {ms : List (String × Tree)} {s : Settings} :
    ofMembers ms = some s ↔ ∀ slot ∈ slots,
      Tree.member? ms slot.name slot.meaning (slot.get ⟨default, []⟩) = slot.get ⟨s, []⟩ := by
  simp only [slots, List.forall_mem_cons, List.not_mem_nil, false_imp_iff, implies_true, and_true]
  constructor
  · intro h
    obtain ⟨_, hwidth, h⟩ := Option.bind_eq_some_iff.mp h
    obtain ⟨_, hheight, h⟩ := Option.bind_eq_some_iff.mp h
    obtain ⟨_, hslack, h⟩ := Option.bind_eq_some_iff.mp h
    obtain ⟨_, hscene, h⟩ := Option.bind_eq_some_iff.mp h
    obtain ⟨_, hpolicy, h⟩ := Option.bind_eq_some_iff.mp h
    obtain ⟨_, htick, h⟩ := Option.bind_eq_some_iff.mp h
    obtain ⟨_, hlimit, h⟩ := Option.bind_eq_some_iff.mp h
    obtain ⟨_, hseed, h⟩ := Option.bind_eq_some_iff.mp h
    obtain ⟨_, hsteps, h⟩ := Option.bind_eq_some_iff.mp h
    obtain ⟨_, himage, h⟩ := Option.bind_eq_some_iff.mp h
    obtain ⟨_, hshow, h⟩ := Option.bind_eq_some_iff.mp h
    cases h
    exact ⟨hwidth, hheight, hslack, hscene, hpolicy, htick, hlimit, hseed, hsteps, himage, hshow⟩
  · rintro ⟨hwidth, hheight, hslack, hscene, hpolicy, htick, hlimit, hseed, hsteps, himage, hshow⟩
    dsimp only [slot] at hwidth hheight hslack hscene hpolicy htick hlimit hseed hsteps himage hshow
    unfold ofMembers
    rw [hwidth, hheight, hslack, hscene, hpolicy, htick, hlimit, hseed, hsteps, himage, hshow]
    rfl

/-- A setting whose name does not come has its default. -/
lemma get_eq_of_missing {ms : List (String × Tree)} {s : Settings} (h : ofMembers ms = some s)
    {slot : Slot Draft} (hslot : slot ∈ slots) (hmissing : ∀ t, (slot.name, t) ∉ ms) :
    slot.get ⟨s, []⟩ = slot.get ⟨default, []⟩ := by
  rw [← ofMembers_eq_some_iff.mp h slot hslot, Tree.member?_of_missing hmissing]

/-- A setting whose name comes has the meaning of the value there. -/
lemma get_eq_of_mem {ms : List (String × Tree)} {s : Settings} (h : ofMembers ms = some s)
    {slot : Slot Draft} (hslot : slot ∈ slots) {t : Tree} (ht : (slot.name, t) ∈ ms) :
    slot.get ⟨s, []⟩ = slot.meaning t := by
  have hmember := ofMembers_eq_some_iff.mp h slot hslot
  obtain ⟨a, ha⟩ : ∃ a, slot.get ⟨s, []⟩ = some a :=
    forall_slots (P := fun slot => ∃ a, slot.get ⟨s, []⟩ = some a)
      (fun _ _ _ _ _ _ _ _ => ⟨_, rfl⟩) slot hslot
  rw [ha] at hmember ⊢
  exact (Tree.member?_of_mem ht hmember).symm

/-- A limit has its default if it is missing, and there is none if it is null. -/
lemma limit_of_ofMembers {ms : List (String × Tree)} {s : Settings} (h : ofMembers ms = some s)
    {name : String} {get : Settings → Option ℕ} {set : Settings → Option ℕ → Settings}
    (hslot : slot name (readOption readNatural) (Tree.optional? Tree.natural?) get set ∈ slots) :
    ((∀ t, (name, t) ∉ ms) → get s = get default) ∧ ((name, .null) ∈ ms → get s = none) :=
  ⟨fun hmissing => Option.some.inj (get_eq_of_missing h hslot hmissing),
    fun hnull => Option.some.inj (get_eq_of_mem h hslot hnull)⟩

/-- Members are collected in a new draft exactly if they say settings, and then the draft has these
settings. -/
lemma exists_collected_iff {ms : List (String × Tree)} {s : Settings} :
    (∃ d, Collected slots ⟨default, []⟩ ms d ∧ d.settings = s) ↔ ofMembers ms = some s := by
  have hget : ∀ slot ∈ slots, ∀ s seen, slot.get ⟨s, seen⟩ = slot.get ⟨s, []⟩ :=
    forall_slots fun _ _ _ _ _ _ _ _ _ _ => rfl
  rw [ofMembers_eq_some_iff]
  constructor
  · rintro ⟨d, hd, rfl⟩ slot hslot
    exact (hd.filled slots_settings hslot).member?_eq.trans (hget slot hslot d.settings d.seen)
  · intro h
    have hsome : ∀ slot ∈ slots, ∃ a, slot.get ⟨s, []⟩ = some a :=
      forall_slots fun _ _ _ _ _ _ _ _ => ⟨_, rfl⟩
    have htaken : ∀ slot ∈ slots, slot.taken ⟨default, []⟩ = false :=
      forall_slots fun _ _ _ _ _ _ _ _ => rfl
    obtain ⟨d, hd⟩ := exists_collected slots_settings ⟨default, []⟩ ms
      fun slot hslot => by
        obtain ⟨a, ha⟩ := hsome slot hslot
        refine ⟨Slot.accepts_of_member? ((h slot hslot).trans ha), fun htrue => ?_⟩
        rw [htaken slot hslot] at htrue
        cases htrue
    have hsame : ofMembers ms = some d.settings := ofMembers_eq_some_iff.mpr fun slot hslot =>
      (hd.filled slots_settings hslot).member?_eq.trans (hget slot hslot d.settings d.seen)
    have hs := ofMembers_eq_some_iff.mpr h
    exact ⟨d, hd, Option.some.inj (hsame.symm.trans hs)⟩

lemma reads_settings : Reads read ofTree := by
  refine reads_record slots_settings describes_settings rfl fun t s => ?_
  unfold ofTree
  rw [Option.bind_eq_some_iff]
  constructor
  · rintro ⟨⟨form, ms⟩, hrecord, hms⟩
    obtain ⟨d, hd, rfl⟩ := exists_collected_iff.mpr hms
    exact ⟨form, ms, d, hrecord, hd, rfl⟩
  · rintro ⟨form, ms, d, hrecord, hd, hfinish⟩
    exact ⟨(form, ms), hrecord, exists_collected_iff.mp ⟨d, hd, Except.ok.inj hfinish⟩⟩

/-! ### Files -/

/-- A text is read as what its tree says. -/
lemma ofText_eq_ok_iff {text : String} {s : Settings} :
    ofText text = .ok s ↔ ∃ t, Says text.toList t ∧ ofTree t = some s := by
  unfold ofText
  constructor
  · intro h
    obtain ⟨⟨s', rest⟩, hread, hmore⟩ := exists_of_bind_eq_ok h
    obtain ⟨⟨⟩, hend, hs⟩ := exists_of_bind_eq_ok hmore
    clear h hmore
    cases hs
    obtain ⟨t, htokens, ht⟩ := reads_settings.exists_tree hread
    cases rest with
    | nil => exact ⟨t, says_iff.mpr (htokens.trans (List.append_nil _)), ht⟩
    | cons u us => cases hend
  · rintro ⟨t, hsaid, ht⟩
    have hread := reads_settings.reads ht []
    rw [List.append_nil] at hread
    rw [says_iff.mp hsaid, hread]
    rfl

/-- Loading a text gives what its tree says, or the defaults if it says no tree or the tree says no
settings. -/
lemma load_of_text {bytes : ByteArray} {text : String} (h : String.fromUTF8? bytes = some text) :
    load (some bytes) = (ofText text).toOption.getD default := by
  unfold load
  rw [Option.bind_some, h]
  dsimp only
  cases ofText text <;> rfl

/-- Only the members under the names of settings count, and their order does not. -/
lemma ofMembers_congr {ms ms' : List (String × Tree)}
    (h : (ms.filter fun m => m.1 ∈ names).Perm (ms'.filter fun m => m.1 ∈ names)) :
    ofMembers ms = ofMembers ms' := by
  have hvalues : ∀ name ∈ names, (valuesOf name ms).Perm (valuesOf name ms') := by
    intro name hname
    have hfilter : ∀ ms : List (String × Tree),
        valuesOf name (ms.filter fun m => m.1 ∈ names) = valuesOf name ms := by
      intro ms
      unfold valuesOf
      rw [List.filter_filter]
      refine congrArg (List.map Prod.snd) (List.filter_congr fun m _ => ?_)
      by_cases heq : m.1 = name <;> simp [heq, hname]
    rw [← hfilter ms, ← hfilter ms']
    exact (h.filter _).map _
  have hmember : ∀ name ∈ names, ∀ {α : Type} (meaning : Tree → Option α) (missing : Option α),
      Tree.member? ms name meaning missing = Tree.member? ms' name meaning missing := by
    intro name hname α meaning missing
    exact Tree.member?_congr (hvalues name hname) meaning missing
  unfold ofMembers
  rw [hmember _ (by decide), hmember _ (by decide), hmember _ (by decide), hmember _ (by decide),
    hmember _ (by decide), hmember _ (by decide), hmember _ (by decide), hmember _ (by decide),
    hmember _ (by decide), hmember _ (by decide), hmember _ (by decide)]

/-- Loading gives all that a file says, or the defaults in everything.  It gives the defaults if the
file is missing, is not a text, or is a text that says no tree; and of a tree, it gives the settings
that the tree says, or the defaults if it says none.  An object says what its members say, under
each name the value that comes there once, or the default where none comes; in which order they
come, and what comes under other names, does not matter.  Among the defaults are limits of 500
proposals and of 5000 steps: a limit that is missing is there, and only null takes it away. -/
theorem load_gives_all_or_nothing :
    load none = default ∧
    (∀ bytes, String.fromUTF8? bytes = none → load (some bytes) = default) ∧
    (∀ bytes text, String.fromUTF8? bytes = some text →
      (∀ t, Says text.toList t → load (some bytes) = (ofTree t).getD default) ∧
      ((¬ ∃ t, Says text.toList t) → load (some bytes) = default)) ∧
    (∀ ms, ofTree (.object (ms.map Tree.named)) = ofMembers ms) ∧
    (∀ ms ms' : List (String × Tree),
      (ms.filter fun m => m.1 ∈ names).Perm (ms'.filter fun m => m.1 ∈ names) →
        ofMembers ms = ofMembers ms') ∧
    default = {
      canvasWidth := 1024, canvasHeight := 768, slack := 1e-6, scene := "tri", policy := .weighted,
      tickInterval := 1, limit := some 500, seed := 0xdeadbeef, maxSteps := some 5000,
      image := "polygrow.png", showPreviews := false } ∧
    ∀ ms s, ofMembers ms = some s →
      (((∀ t, ("candidate_limit", t) ∉ ms) → s.limit = some 500) ∧
        (("candidate_limit", .null) ∈ ms → s.limit = none)) ∧
      ((∀ t, ("max_steps", t) ∉ ms) → s.maxSteps = some 5000) ∧
        (("max_steps", .null) ∈ ms → s.maxSteps = none) := by
  refine ⟨rfl, fun bytes h => ?_, fun bytes text h => ⟨fun t ht => ?_, fun hno => ?_⟩,
    fun ms => ?_, fun ms ms' h => ofMembers_congr h, rfl,
    fun ms s h => ⟨?_, ?_⟩⟩
  · unfold load
    rw [Option.bind_some, h]
  · rw [load_of_text h]
    cases hs : ofTree t with
    | some s =>
      rw [ofText_eq_ok_iff.mpr ⟨t, ht, hs⟩]
      rfl
    | none =>
      cases htext : ofText text with
      | error fault => rfl
      | ok s =>
        obtain ⟨t', ht', hs'⟩ := ofText_eq_ok_iff.mp htext
        rw [ht.unique ht', hs'] at hs
        cases hs
  · rw [load_of_text h]
    cases htext : ofText text with
    | error fault => rfl
    | ok s =>
      obtain ⟨t, ht, -⟩ := ofText_eq_ok_iff.mp htext
      exact absurd ⟨t, ht⟩ hno
  · unfold ofTree
    rw [Tree.record?_object]
    rfl
  · have hslot : slot "candidate_limit" _ _ limit _ ∈ slots := List.mem_of_getElem? (i := 6) rfl
    exact limit_of_ofMembers h hslot
  · have hslot : slot "max_steps" _ _ maxSteps _ ∈ slots := List.mem_of_getElem? (i := 8) rfl
    exact limit_of_ofMembers h hslot

/-- A file with null for one setting, a value for another, and something else. -/
def partialFile (name : String) : String :=
  "\x7b\"" ++ name ++ "\": null,\n\"note\": [1E400, \x7b\"\\ud800\": \"\\ud800\"\x7d], " ++
    "\"rng_seed\":7\x7d\n"

theorem partialFile_is_loaded :
    load (some (partialFile "max_steps").toUTF8) =
      { default with seed := 7, limit := some 500, maxSteps := none } ∧
    load (some (partialFile "candidate_limit").toUTF8) =
      { default with seed := 7, limit := none, maxSteps := some 5000 } := by
  let other : Tree := .list [.number ⟨false, [1], [], 400, false⟩, .object [(none, .text none)]]
  let ms (name : String) : List (String × Tree) :=
    [(name, .null), ("note", other), ("rng_seed", .number ⟨false, [7], [], 0, true⟩)]
  have hload : ∀ name, Says (partialFile name).toList (.object ((ms name).map Tree.named)) →
      load (some (partialFile name).toUTF8) = (ofMembers (ms name)).getD default := by
    intro name hsaid
    have htext := fromUTF8?_toUTF8 (partialFile name)
    rw [(load_gives_all_or_nothing.2.2.1 _ _ htext).1 _ hsaid, load_gives_all_or_nothing.2.2.2.1]
  exact ⟨(hload "max_steps" (says_iff.mpr (by decide +kernel))).trans rfl,
    (hload "candidate_limit" (says_iff.mpr (by decide +kernel))).trans rfl⟩

end Settings

end ShapeGrammar
