import Whaleshares.Database
import Whaleshares.FixedStrings
import Whaleshares.RangeMap

/-!
# The ranges of tracked accounts

The account history and the private messages are kept for accounts in configured ranges of
names. Both plugins look a name up in a map of ranges by its lower bound. The history steps
back to the range in front where the name does not begin a range; the messages do not, and
miss the names inside a range.
-/

namespace Whaleshares.TrackedRanges

open Fc Protocol Objects Database FixedStrings RangeMap

section Tests

/-- `flat_map< account_name_type, account_name_type >` -/
abbrev AccountRanges := List (AccountName × AccountName)

/-- `flat_map< string, string >` -/
abbrev TextRanges := List (Bytes × Bytes)

/-- The order of names. -/
def lessName (a b : AccountName) : Bool := a.packed < b.packed

/-- The order of strings. -/
def lessText (a b : Bytes) : Bool := a < b

/-- Whether a name lies between the bounds of a range. -/
def between (lower upper name : AccountName) : Bool :=
  lower.packed ≤ name.packed && name.packed ≤ upper.packed

/-- The iterator at which `on_operation` looks: the lower bound, or the entry before it. -/
def rangeIterator (tracked : AccountRanges) (item : AccountName) : ℕ :=
  let itr := lowerBound lessName tracked item
  if itr ≠ 0 ∧ (itr ≠ tracked.length ∧ tracked[itr]?.map (·.1) ≠ some item ∨
      itr = tracked.length)
  then itr - 1 else itr

/-- The test of `account_history_plugin_impl::on_operation` -/
def tracksAccount (tracked : AccountRanges) (item : AccountName) : Bool :=
  tracked.isEmpty || tracked[rangeIterator tracked item]?.any fun r => between r.1 r.2 item

/-- The test of `private_message_evaluator::do_apply` on one end of a message. The map is
searched for the text of the name, and the bounds that are found are compared as names. -/
def tracksMessageEnd (tracked : TextRanges) (name : AccountName) : Bool :=
  tracked[lowerBound lessText tracked name.toBytes]?.any fun r =>
    between (.ofBytes r.1) (.ofBytes r.2) name

/-- The test of `private_message_evaluator::do_apply` -/
def tracksMessage (tracked : TextRanges) (target source : AccountName) : Bool :=
  tracked.isEmpty || tracksMessageEnd tracked target || tracksMessageEnd tracked source

/-- `private_message_operation` -/
structure PrivateMessageOperation where
  source : AccountName
  target : AccountName
  fromMemoKey : PublicKey
  toMemoKey : PublicKey
  sentTime : ℕ
  checksum : ℕ
  encryptedMessage : Bytes

/-- `message_object` -/
structure MessageObject where
  id : ℕ
  source : AccountName
  target : AccountName
  fromMemoKey : PublicKey
  toMemoKey : PublicKey
  sentTime : ℕ
  receiveTime : TimePointSec
  checksum : ℕ
  encryptedMessage : Bytes

/-- `private_message_evaluator::do_apply` at a head time -/
def applyPrivateMessage (tracked : TextRanges) (now : TimePointSec) (pm : PrivateMessageOperation)
    (messages : Table MessageObject) : Except Exc (Table MessageObject) := do
  fcAssert (pm.source ≠ pm.target) ""
  fcAssert (pm.fromMemoKey ≠ pm.toMemoKey) ""
  fcAssert (pm.sentTime ≠ 0) ""
  fcAssert (32 ≤ pm.encryptedMessage.length) ""
  if tracksMessage tracked pm.target pm.source then
    messages.create couldNotInsert (fun _ _ => false) fun id => .ok
      ⟨id, pm.source, pm.target, pm.fromMemoKey, pm.toMemoKey, pm.sentTime, now, pm.checksum,
        pm.encryptedMessage⟩
  else .ok messages

end Tests

section Names

/-- The text of an account name. -/
structure NameText where
  bytes : Bytes
  nulFree : NulFree bytes
  short : bytes.length ≤ 16

/-- The name with a text. -/
def NameText.name (t : NameText) : AccountName := .ofBytes t.bytes

/-- The order of names is that of their texts. -/
theorem lessText_iff (s t : NameText) : lessText s.bytes t.bytes = lessName s.name t.name := by
  have hbehaves := behavesAsString uint128_lawful
  have hless : s.bytes < t.bytes ↔ s.name.packed < t.name.packed :=
    ((hbehaves.less_iff s.bytes t.bytes s.nulFree t.nulFree s.short t.short).symm).trans
      (less_iff_packed s.bytes t.bytes)
  exact decide_eq_decide.mpr hless

/-- A name converts back to its text. -/
theorem NameText.toBytes_name (t : NameText) : t.name.toBytes = t.bytes := by
  have hbehaves := behavesAsString uint128_lawful
  exact (toString_eq_toBytes t.bytes).symm.trans (hbehaves.round_trip t.bytes t.nulFree t.short)

/-- The rank of a text of a name. -/
def rank (t : NameText) : ℕ := t.name.packed

end Names

section Ranges

/-- A closed range of account names. -/
structure NameRange where
  lower : NameText
  upper : NameText
  /-- The bounds are in order. -/
  ordered : rank lower ≤ rank upper

/-- A name lies in a range. -/
def NameRange.Contains (r : NameRange) (name : NameText) : Prop :=
  rank r.lower ≤ rank name ∧ rank name ≤ rank r.upper

/-- No name lies in both ranges. -/
def NameRange.Disjoint (q r : NameRange) : Prop := ∀ name, ¬ (q.Contains name ∧ r.Contains name)

/-- `_tracked_accounts` of the account history for configured ranges -/
def trackedAccounts (ranges : List NameRange) : AccountRanges :=
  ofEntries lessName (ranges.map fun r => (r.lower.name, r.upper.name))

/-- `_tracked_accounts` of the private messages for configured ranges. The plugin loads them from
the option `pm-accounts`, which it does not register, so that a node of the source has none. -/
def trackedTexts (ranges : List NameRange) : TextRanges :=
  ofEntries lessText (ranges.map fun r => (r.lower.bytes, r.upper.bytes))

/-- The account is to be tracked. -/
def Tracked (ranges : List NameRange) (name : NameText) : Prop :=
  ranges = [] ∨ ∃ r ∈ ranges, r.Contains name

/-- The bounds of a range. -/
def ends (r : NameRange) : NameText × NameText := (r.lower, r.upper)

/-- The ranges by their texts, in the order of the names. -/
def textMap (ranges : List NameRange) : List (NameText × NameText) :=
  ofEntries (byRank rank) (ranges.map ends)

end Ranges

section Lookup

variable {ranges : List NameRange} {name : NameText}

/-- The names are those of the map of texts. -/
theorem trackedAccounts_eq (ranges : List NameRange) :
    trackedAccounts ranges = (textMap ranges).map (mapEnds NameText.name) := by
  have hmap : ranges.map (fun r => (r.lower.name, r.upper.name)) =
      (ranges.map ends).map (mapEnds NameText.name) := by
    rw [List.map_map]
    rfl
  unfold trackedAccounts textMap
  rw [hmap]
  exact ofEntries_map (fun _ _ => rfl) _

/-- The texts are those of the map of texts. -/
theorem trackedTexts_eq (ranges : List NameRange) :
    trackedTexts ranges = (textMap ranges).map (mapEnds NameText.bytes) := by
  have hmap : ranges.map (fun r => (r.lower.bytes, r.upper.bytes)) =
      (ranges.map ends).map (mapEnds NameText.bytes) := by
    rw [List.map_map]
    rfl
  unfold trackedTexts textMap
  rw [hmap]
  exact ofEntries_map lessText_iff _

/-- The map of disjoint ranges: it ascends, its ranges are those that are configured, their
bounds are in order and they do not overlap. -/
structure Sorted (ranges : List NameRange) : Prop where
  ascending : Ascending rank (textMap ranges)
  mem : ∀ r, r ∈ textMap ranges ↔ ∃ q ∈ ranges, ends q = r
  ordered : ∀ r ∈ textMap ranges, rank r.1 ≤ rank r.2
  apart : (textMap ranges).Pairwise (Apart rank)

/-- Disjoint ranges stand in the map in their order. -/
theorem sorted_textMap (hdisjoint : ranges.Pairwise NameRange.Disjoint) : Sorted ranges := by
  have hordered : ∀ r ∈ ranges.map ends, rank r.1 ≤ rank r.2 := by
    intro r hr
    obtain ⟨q, -, rfl⟩ := List.mem_map.mp hr
    exact q.ordered
  have hapart : (ranges.map ends).Pairwise (Apart rank) := List.pairwise_map.mpr hdisjoint
  obtain ⟨hascending, hmem⟩ := ofEntries_spec hordered hapart
  refine ⟨hascending, fun r => ?_, fun r hr => hordered r ((hmem r).mp hr),
    apart_of_mem hascending (fun r => (hmem r).mp) hapart⟩
  rw [← List.mem_map]
  exact hmem r

/-- Texts have the same name exactly if they have the same rank. -/
theorem name_eq_iff (s t : NameText) : s.name = t.name ↔ rank s = rank t := by
  refine ⟨congrArg AccountName.packed, fun h => ?_⟩
  have hs : s.name = ⟨rank s⟩ := rfl
  rw [hs, h]
  rfl

/-- A name lies in a range of the map exactly if it lies in a configured one. -/
theorem Sorted.holds_iff (h : Sorted ranges) (name : NameText) :
    (∃ r ∈ textMap ranges, Holds rank r name) ↔ ∃ r ∈ ranges, r.Contains name := by
  constructor
  · rintro ⟨r, hr, hholds⟩
    obtain ⟨q, hq, rfl⟩ := (h.mem r).mp hr
    exact ⟨q, hq, hholds⟩
  · rintro ⟨q, hq, hcontains⟩
    exact ⟨ends q, (h.mem _).mpr ⟨q, hq, rfl⟩, hcontains⟩

/-- The map is empty exactly if no range is configured. -/
theorem Sorted.isEmpty_iff (h : Sorted ranges) : textMap ranges = [] ↔ ranges = [] := by
  constructor
  · intro hempty
    rw [List.eq_nil_iff_forall_not_mem]
    intro q hq
    have hmem := (h.mem (ends q)).mpr ⟨q, hq, rfl⟩
    rw [hempty] at hmem
    cases hmem
  · rintro rfl
    rfl

/-- The test on a range that the lookup finds. -/
theorem any_between (m : List (NameText × NameText)) (i : ℕ) (name : NameText) :
    (((m.map (mapEnds NameText.name))[i]?).any fun r => between r.1 r.2 name.name) = true ↔
      ∃ r, m[i]? = some r ∧ Holds rank r name := by
  rw [List.getElem?_map, Option.any_map, Option.any_eq_true]
  refine exists_congr fun r => and_congr_right fun _ => ?_
  unfold Holds
  simp only [mapEnds, between, Bool.and_eq_true]
  exact and_congr decide_eq_true_iff decide_eq_true_iff

/-- The iterator of the history stands at a range that begins with the name, and in front of
the lower bound where there is none. -/
theorem rangeIterator_eq (m : List (NameText × NameText)) (hm : Ascending rank m)
    (name : NameText) :
    ((∃ r ∈ m, rank r.1 = rank name) →
      rangeIterator (m.map (mapEnds NameText.name)) name.name = lowerBound (byRank rank) m name) ∧
    (¬ (∃ r ∈ m, rank r.1 = rank name) →
      rangeIterator (m.map (mapEnds NameText.name)) name.name =
        lowerBound (byRank rank) m name - 1) := by
  have hbound : lowerBound lessName (m.map (mapEnds NameText.name)) name.name =
      lowerBound (byRank rank) m name := lowerBound_map (fun _ _ => rfl) m name
  have hkey : (∃ r ∈ m, rank r.1 = rank name) ↔
      ((m.map (mapEnds NameText.name))[lowerBound (byRank rank) m name]?.map (·.1)) =
        some name.name := by
    rw [← begins_at_lowerBound hm, List.getElem?_map, Option.map_map, Option.map_eq_some_iff]
    exact exists_congr fun r => and_congr_right fun _ => (name_eq_iff r.1 name).symm
  unfold rangeIterator
  rw [hbound]
  constructor
  · intro hbegin
    have hsame := hkey.mp hbegin
    refine if_neg fun hstep => ?_
    obtain ⟨-, ⟨-, hother⟩ | hend⟩ := hstep
    · exact hother hsame
    · rw [List.getElem?_eq_none (by rw [hend])] at hsame
      cases hsame
  · intro hnone
    have hother := mt hkey.mpr hnone
    by_cases hzero : lowerBound (byRank rank) m name = 0
    · rw [if_neg fun hstep => hstep.1 hzero, hzero]
    · refine if_pos ⟨hzero, ?_⟩
      by_cases hend : lowerBound (byRank rank) m name = (m.map (mapEnds NameText.name)).length
      · exact .inr hend
      · exact .inl ⟨hend, hother⟩

/-- The history tracks exactly the accounts that are to be tracked. -/
theorem tracksAccount_iff (hdisjoint : ranges.Pairwise NameRange.Disjoint) (name : NameText) :
    tracksAccount (trackedAccounts ranges) name.name = true ↔ Tracked ranges name := by
  have hsorted := sorted_textMap hdisjoint
  unfold tracksAccount Tracked
  rw [trackedAccounts_eq, Bool.or_eq_true, any_between, List.isEmpty_iff, List.map_eq_nil_iff,
    hsorted.isEmpty_iff, ← hsorted.holds_iff]
  refine or_congr_right' fun hne => ?_
  obtain ⟨hbegins, hinside⟩ := rangeIterator_eq (textMap ranges) hsorted.ascending name
  by_cases hbegin : ∃ r ∈ textMap ranges, rank r.1 = rank name
  · rw [hbegins hbegin, holds_at_lowerBound hsorted.ascending hsorted.ordered]
    refine ⟨fun _ => ?_, fun _ => hbegin⟩
    obtain ⟨r, hr, hsame⟩ := hbegin
    exact ⟨r, hr, hsame.le, hsame.symm.le.trans (hsorted.ordered r hr)⟩
  · rw [hinside hbegin]
    have hnone : ∀ r ∈ textMap ranges, rank r.1 ≠ rank name := fun r hr hsame =>
      hbegin ⟨r, hr, hsame⟩
    exact holds_before_lowerBound hsorted.ascending hsorted.apart hsorted.ordered hnone

/-- The messages track exactly the accounts with which a range begins. -/
theorem tracksMessageEnd_iff (hdisjoint : ranges.Pairwise NameRange.Disjoint) (name : NameText) :
    tracksMessageEnd (trackedTexts ranges) name.name = true ↔
      ∃ r ∈ ranges, rank r.lower = rank name := by
  have hsorted := sorted_textMap hdisjoint
  have hbound : lowerBound lessText ((textMap ranges).map (mapEnds NameText.bytes)) name.bytes =
      lowerBound (byRank rank) (textMap ranges) name := lowerBound_map lessText_iff _ name
  have hbegins : (∃ r ∈ textMap ranges, rank r.1 = rank name) ↔
      ∃ r ∈ ranges, rank r.lower = rank name := by
    constructor
    · rintro ⟨r, hr, hsame⟩
      obtain ⟨q, hq, rfl⟩ := (hsorted.mem r).mp hr
      exact ⟨q, hq, hsame⟩
    · rintro ⟨q, hq, hsame⟩
      exact ⟨ends q, (hsorted.mem _).mpr ⟨q, hq, rfl⟩, hsame⟩
  have hnames := any_between (textMap ranges) (lowerBound (byRank rank) (textMap ranges) name) name
  rw [holds_at_lowerBound hsorted.ascending hsorted.ordered, hbegins] at hnames
  rw [← hnames]
  unfold tracksMessageEnd
  rw [trackedTexts_eq, name.toBytes_name, hbound, List.getElem?_map, List.getElem?_map,
    Option.any_map, Option.any_map]
  rfl

/-- A name lies inside a range if it is not the one with which the range begins. -/
def Inside (ranges : List NameRange) (name : NameText) : Prop :=
  ∃ r ∈ ranges, r.Contains name ∧ rank r.lower ≠ rank name

/-- The test of the messages on one end, where the other end does not count. -/
def acceptsEnd (tracked : TextRanges) (name : AccountName) : Bool :=
  tracked.isEmpty || tracksMessageEnd tracked name

/-- A message is stored exactly if one of its ends is accepted. -/
theorem tracksMessage_eq (tracked : TextRanges) (target source : AccountName) :
    tracksMessage tracked target source =
      (acceptsEnd tracked target || acceptsEnd tracked source) := by
  unfold tracksMessage acceptsEnd
  cases tracked.isEmpty <;> simp

/-- The tests of both plugins accept the accounts that are to be tracked. -/
structure TestsFit (ranges : List NameRange) (name : NameText) : Prop where
  history : tracksAccount (trackedAccounts ranges) name.name = true ↔ Tracked ranges name
  messages : acceptsEnd (trackedTexts ranges) name.name = true ↔ Tracked ranges name

/-- The test of the end accepts the names in a range, or all without ranges. -/
theorem acceptsEnd_iff (hdisjoint : ranges.Pairwise NameRange.Disjoint) (name : NameText) :
    acceptsEnd (trackedTexts ranges) name.name = true ↔
      ranges = [] ∨ ∃ r ∈ ranges, rank r.lower = rank name := by
  unfold acceptsEnd
  rw [Bool.or_eq_true, tracksMessageEnd_iff hdisjoint, List.isEmpty_iff, trackedTexts_eq,
    List.map_eq_nil_iff, (sorted_textMap hdisjoint).isEmpty_iff]

/-- For every list of disjoint ranges and every account name, the tests of both plugins fit
exactly if the name does not lie inside a range. -/
theorem tests_fit_iff (hdisjoint : ranges.Pairwise NameRange.Disjoint) (name : NameText) :
    TestsFit ranges name ↔ ¬ Inside ranges name := by
  have haccepts := acceptsEnd_iff hdisjoint name
  constructor
  · rintro ⟨-, hmessages⟩ ⟨r, hr, hcontains, hne⟩
    have htracked : Tracked ranges name := .inr ⟨r, hr, hcontains⟩
    rcases haccepts.mp (hmessages.mpr htracked) with hnil | ⟨q, hq, hsame⟩
    · rw [hnil] at hr
      cases hr
    · -- two ranges would hold the name
      have hother : q.Contains name := ⟨hsame.le, hsame.symm.le.trans q.ordered⟩
      have hqr : q ≠ r := fun h => hne (h ▸ hsame)
      have hsymm : Std.Symm NameRange.Disjoint := ⟨fun _ _ h x hx => h x ⟨hx.2, hx.1⟩⟩
      exact hdisjoint.forall hq hr hqr name ⟨hother, hcontains⟩
  · intro houtside
    refine ⟨tracksAccount_iff hdisjoint name, haccepts.trans (or_congr_right ?_)⟩
    constructor
    · rintro ⟨r, hr, hsame⟩
      exact ⟨r, hr, hsame.le, hsame.symm.le.trans r.ordered⟩
    · rintro ⟨r, hr, hcontains⟩
      exact ⟨r, hr, not_not.mp fun hne => houtside ⟨r, hr, hcontains, hne⟩⟩

end Lookup

section Sample

/-- Bytes without a zero are free of it. -/
theorem nulFree_of {bytes : Bytes} (h : bytes.all (fun b => b ≠ 0) = true) : NulFree bytes :=
  fun b hb => of_decide_eq_true (List.all_eq_true.mp h b hb)

/-- The name of one letter. -/
def letterName (letter : UInt8) (h : letter ≠ 0) : NameText :=
  ⟨[letter], nulFree_of (by simpa using h), Nat.succ_le_succ (Nat.zero_le 15)⟩

/-- A name inside the first range. -/
def bobName : NameText := ⟨[98, 111, 98], nulFree_of (by decide), by decide⟩

/-- The ranges from `a` to `c` and from `g` to `i`. -/
def sampleRanges : List NameRange :=
  [⟨letterName 97 (by decide), letterName 99 (by decide), by decide +kernel⟩,
    ⟨letterName 103 (by decide), letterName 105 (by decide), by decide +kernel⟩]

/-- The sample ranges are disjoint. -/
theorem sampleRanges_disjoint : sampleRanges.Pairwise NameRange.Disjoint := by
  refine List.pairwise_pair.mpr fun name h => ?_
  have hbounds : rank (letterName 99 (by decide)) < rank (letterName 103 (by decide)) := by
    decide +kernel
  have hupper : rank name ≤ rank (letterName 99 (by decide)) := h.1.2
  have hlower : rank (letterName 103 (by decide)) ≤ rank name := h.2.1
  omega

/-- For a name at the lower end of a range both tests accept. -/
theorem tests_fit_iff_lower : TestsFit sampleRanges (letterName 103 (by decide)) := by
  refine (tests_fit_iff sampleRanges_disjoint _).mpr ?_
  rintro ⟨r, hr, hcontains, hne⟩
  simp only [sampleRanges, List.mem_cons, List.not_mem_nil, or_false] at hr
  rcases hr with rfl | rfl
  · have hupper : ¬ rank (letterName 103 (by decide)) ≤ rank (letterName 99 (by decide)) := by
      decide +kernel
    exact hupper hcontains.2
  · exact hne rfl

/-- A name inside a range is tracked by the history, and its messages are not stored. -/
theorem inside_name_missed :
    sampleRanges.Pairwise NameRange.Disjoint ∧ Tracked sampleRanges bobName ∧
      tracksAccount (trackedAccounts sampleRanges) bobName.name = true ∧
      tracksMessage (trackedTexts sampleRanges) bobName.name
        (letterName 120 (by decide)).name = false ∧ ¬ TestsFit sampleRanges bobName := by
  have htracked : Tracked sampleRanges bobName :=
    .inr ⟨_, List.mem_cons_self, by decide +kernel, by decide +kernel⟩
  have hmissed : acceptsEnd (trackedTexts sampleRanges) bobName.name = false := by decide +kernel
  refine ⟨sampleRanges_disjoint, htracked, by decide +kernel, by decide +kernel, fun hfit => ?_⟩
  rw [hfit.messages.mpr htracked] at hmissed
  cases hmissed

end Sample

end Whaleshares.TrackedRanges
