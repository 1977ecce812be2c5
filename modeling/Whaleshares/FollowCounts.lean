import Whaleshares.Decimals
import Whaleshares.FixedStrings
import Whaleshares.Follows
import Whaleshares.Objects

/-!
# What the counters of followers show after a run

A run starts with empty tables and takes follow operations; one that fails changes nothing.
The counters have 32 bits. They show the numbers of the rows for as long as no account
follows, and none is followed by, more accounts than they can count.
-/

namespace Whaleshares.FollowCounts

open Fc Program Database LabelledRun Follows Objects

section Steps

/-- The operation is validated and applied. -/
def evaluate (o : FollowOperation) (s : State) : Except Exc State := do
  o.validate
  applyFollow o s

/-- The steps of a run; a failed operation is undone. -/
def Step (o : FollowOperation) (s t : State) : Prop :=
  evaluate o s = .ok t ∨ ((∃ e, evaluate o s = .error e) ∧ t = s)

/-- The counters show how many accounts each account follows and how many follow it, and no
row says both to follow and to ignore. -/
structure WellCounted (s : State) : Prop where
  unique : (listed s.counts).Nodup
  following : ∀ c ∈ s.counts.rows, c.followingCount.toNat = followingNumber s c.account
  followers : ∀ c ∈ s.counts.rows, c.followerCount.toNat = followerNumber s c.account
  unlisted : ∀ a, a ∉ listed s.counts → followingNumber s a = 0 ∧ followerNumber s a = 0
  apart : ∀ f ∈ s.follows.rows, ¬ (f.follows ∧ f.ignores)

/-- A step takes nothing from a counter that is zero. -/
def NoUnderflow (m : Moment State FollowOperation) : Prop :=
  wasFollowed m.before m.event → ∀ c ∈ m.before.counts.rows,
    (c.account = m.event.follower → 0 < c.followingCount.toNat) ∧
    (c.account = m.event.following → 0 < c.followerCount.toNat)

/-- An operation that is valid and makes an account follow another finds room for one more in
both numbers. -/
def Room (m : Moment State FollowOperation) : Prop :=
  m.event.follower ≠ m.event.following → (wanted m.event).2 → (wanted m.event).1 &&& ignoreBit = 0 →
    ¬ wasFollowed m.before m.event →
      followingNumber m.before m.event.follower + 1 < 2 ^ 32 ∧
      followerNumber m.before m.event.following + 1 < 2 ^ 32

end Steps

section Invariant

/-- What every run keeps: the counters show the numbers as far as they can count. -/
structure Counted (s : State) : Prop where
  pairs : (s.follows.rows.map pair).Nodup
  unique : (listed s.counts).Nodup
  known : ∀ f ∈ s.follows.rows, f.follower ∈ listed s.counts ∧ f.following ∈ listed s.counts
  shows : Shows s.counts (followingNumber s) (followerNumber s)
  apart : ∀ f ∈ s.follows.rows, ¬ (f.follows ∧ f.ignores)

variable {o : FollowOperation} {s t : State}

/-- Nothing is counted before the first step. -/
theorem counted_empty : Counted .empty where
  pairs := List.nodup_nil
  unique := List.nodup_nil
  known := by
    intro f hf
    cases hf
  shows := by
    intro c hc
    cases hc
  apart := by
    intro f hf
    cases hf

/-- An account without counters has no number. -/
theorem Counted.unlisted (hs : Counted s) {a : AccountName} (ha : a ∉ listed s.counts) :
    followingNumber s a = 0 ∧ followerNumber s a = 0 := by
  constructor
  · refine List.countP_eq_zero.mpr fun f hf hfollows => ha ?_
    rw [Bool.and_eq_true, decide_eq_true_eq] at hfollows
    rw [← hfollows.1]
    exact (hs.known f hf).1
  · refine List.countP_eq_zero.mpr fun f hf hfollows => ha ?_
    rw [Bool.and_eq_true, decide_eq_true_eq] at hfollows
    rw [← hfollows.1]
    exact (hs.known f hf).2

/-- The parts of an operation that is applied. -/
theorem evaluate_eq_ok (h : evaluate o s = .ok t) : o.follower ≠ o.following ∧
    ((wanted o).1 &&& ignoreBit ≠ 0 → (wanted o).1 &&& blogBit = 0) ∧
    setFollow o (wanted o).1 (s.follows.find (isPair o.follower o.following)) s.follows =
      .ok t.follows ∧
    count o (wasFollowed s o) (wanted o).2 s.counts = .ok t.counts := by
  unfold evaluate at h
  obtain ⟨_, hvalid, h⟩ := bind_eq_ok h
  unfold applyFollow at h
  obtain ⟨_, hapart, h⟩ := bind_eq_ok h
  obtain ⟨follows, hfollows, h⟩ := bind_eq_ok h
  obtain ⟨counts, hcounts, h⟩ := bind_eq_ok h
  obtain rfl := Except.ok.inj h
  unfold FollowOperation.validate at hvalid
  refine ⟨of_decide_eq_true (fcAssert_eq_ok hvalid), fun hignore => ?_, hfollows, hcounts⟩
  unfold assertApart at hapart
  rw [if_pos hignore] at hapart
  exact of_decide_eq_true (fcAssert_eq_ok hapart)

/-- What an operation does to the numbers. -/
structure Moved (o : FollowOperation) (s t : State) : Prop where
  following : ∀ a, followingNumber t a +
      (if decide (o.follower = a) && wasFollowed s o then 1 else 0) =
    followingNumber s a + (if decide (o.follower = a) && (wanted o).2 then 1 else 0)
  followers : ∀ a, followerNumber t a +
      (if decide (o.following = a) && wasFollowed s o then 1 else 0) =
    followerNumber s a + (if decide (o.following = a) && (wanted o).2 then 1 else 0)

/-- The numbers of accounts that the operation does not name in the place stay. -/
theorem Moved.following_of_ne (h : Moved o s t) {a : AccountName} (ha : a ≠ o.follower) :
    followingNumber t a = followingNumber s a := by
  have hmoved := h.following a
  rw [decide_eq_false ha.symm] at hmoved
  exact hmoved

/-- The followers of the others stay. -/
theorem Moved.followers_of_ne (h : Moved o s t) {a : AccountName} (ha : a ≠ o.following) :
    followerNumber t a = followerNumber s a := by
  have hmoved := h.followers a
  rw [decide_eq_false ha.symm] at hmoved
  exact hmoved

/-- The numbers of the two accounts change together. -/
theorem Moved.following_self (h : Moved o s t) : followingNumber t o.follower +
    (if wasFollowed s o then 1 else 0) =
      followingNumber s o.follower + (if (wanted o).2 then 1 else 0) := by
  have hmoved := h.following o.follower
  rw [decide_eq_true rfl, Bool.true_and, Bool.true_and] at hmoved
  exact hmoved

/-- The followers of the followed account change by the two flags. -/
theorem Moved.followers_self (h : Moved o s t) : followerNumber t o.following +
    (if wasFollowed s o then 1 else 0) =
      followerNumber s o.following + (if (wanted o).2 then 1 else 0) := by
  have hmoved := h.followers o.following
  rw [decide_eq_true rfl, Bool.true_and, Bool.true_and] at hmoved
  exact hmoved

/-- Who follows somebody has at least one followed account. -/
theorem following_pos (h : wasFollowed s o = true) : 0 < followingNumber s o.follower :=
  numberOf_pos (decide_eq_true rfl) h

/-- Whom somebody follows has at least one follower. -/
theorem followers_pos (h : wasFollowed s o = true) : 0 < followerNumber s o.following :=
  numberOf_pos (decide_eq_true rfl) h

/-- The first counter of an account, from the number it had. -/
theorem ofNat_first {was isNow : Bool} {n m : ℕ} (hn : n = 0) (hwas : was = true → 0 < n)
    (h : m + (if was then 1 else 0) = n + (if isNow then 1 else 0)) :
    (if isNow then 1 else 0) = UInt32.ofNat m := by
  have hnot : was = false := by
    rw [Bool.eq_false_iff]
    intro htrue
    have hpos := hwas htrue
    omega
  rw [hnot, hn] at h
  cases isNow with
  | false =>
    rw [show m = 0 from h]
    rfl
  | true =>
    rw [show m = 1 from h]
    rfl

/-- The counters of one account, from one state of the numbers to another. -/
theorem shows_adjust {account : AccountName} {first : ℕ → FollowCountObject}
    {change : FollowCountObject → FollowCountObject} {counts counts' : Table FollowCountObject}
    {following follower following' follower' : AccountName → ℕ}
    (hs : Shows counts following follower)
    (h : adjustCounts account first change counts = .ok counts')
    (hlisted : (listed counts).Nodup) (hfirst : ∀ id, (first id).account = account)
    (hchange : ∀ c, (change c).account = c.account)
    (hothers : ∀ a, a ≠ account → following' a = following a ∧ follower' a = follower a)
    (hchanged : ∀ c, c.followingCount = UInt32.ofNat (following account) →
      c.followerCount = UInt32.ofNat (follower account) →
      (change c).followingCount = UInt32.ofNat (following' account) ∧
        (change c).followerCount = UInt32.ofNat (follower' account))
    (hnew : account ∉ listed counts → ∀ id,
      (first id).followingCount = UInt32.ofNat (following' account) ∧
        (first id).followerCount = UInt32.ofNat (follower' account)) :
    Shows counts' following' follower' := by
  obtain ⟨-, -, hrows⟩ := adjustCounts_spec h hlisted hfirst hchange
  intro c hc
  obtain ⟨hold, hne⟩ | ⟨old, hold, haccount, rfl⟩ | ⟨hnot, id, rfl⟩ := hrows c hc
  · rw [(hothers _ hne).1, (hothers _ hne).2]
    exact hs c hold
  · obtain ⟨hfollowing, hfollower⟩ := hs old hold
    rw [haccount] at hfollowing hfollower
    rw [hchange, haccount]
    exact hchanged old hfollowing hfollower
  · rw [hfirst]
    exact hnew hnot id

/-- An operation keeps what every run keeps, and moves the numbers. -/
theorem Counted.evaluate (hs : Counted s) (h : evaluate o s = .ok t) : Counted t ∧ Moved o s t := by
  obtain ⟨hne, hapart, hfollows, hcounts⟩ := evaluate_eq_ok h
  obtain ⟨hpairs, hrows, hnumbers⟩ := setFollow_spec hfollows hs.pairs
  rw [wanted_flag] at hnumbers
  have hmoved : Moved o s t := ⟨fun a => hnumbers fun follower _ => follower = a,
    fun a => hnumbers fun _ following => following = a⟩
  refine ⟨?_, hmoved⟩
  unfold count at hcounts
  obtain ⟨middle, hfirst, hsecond⟩ := bind_eq_ok hcounts
  obtain ⟨hunique, hmiddle, -⟩ := adjustCounts_spec hfirst hs.unique (fun _ => rfl) fun _ => rfl
  obtain ⟨hunique', hlisted, -⟩ := adjustCounts_spec hsecond hunique (fun _ => rfl) fun _ => rfl
  have hlisted : ∀ a, a ∈ listed t.counts ↔
      (a ∈ listed s.counts ∨ a = o.follower) ∨ a = o.following := by
    intro a
    rw [hlisted, hmiddle]
  have hshows : Shows middle (followingNumber t) (followerNumber s) := by
    refine shows_adjust hs.shows hfirst hs.unique (fun _ => rfl) (fun _ => rfl)
      (fun a ha => ⟨hmoved.following_of_ne ha, rfl⟩) ?_ ?_
    · intro c hfollowing hfollower
      refine ⟨?_, hfollower⟩
      rw [← adjust_ofNat hmoved.following_self, ← hfollowing]
    · intro hnot id
      obtain ⟨hfollowing, hfollower⟩ := hs.unlisted hnot
      refine ⟨ofNat_first hfollowing following_pos hmoved.following_self, ?_⟩
      rw [hfollower]
      rfl
  have hshows' : Shows t.counts (followingNumber t) (followerNumber t) := by
    refine shows_adjust hshows hsecond hunique (fun _ => rfl) (fun _ => rfl)
      (fun a ha => ⟨rfl, hmoved.followers_of_ne ha⟩) ?_ ?_
    · intro c hfollowing hfollower
      refine ⟨hfollowing, ?_⟩
      rw [← adjust_ofNat hmoved.followers_self, ← hfollower]
    · intro hnot id
      rw [hmiddle, not_or] at hnot
      obtain ⟨hfollowing, hfollower⟩ := hs.unlisted hnot.1
      refine ⟨?_, ofNat_first hfollower followers_pos hmoved.followers_self⟩
      rw [hmoved.following_of_ne hne.symm, hfollowing]
      rfl
  refine ⟨hpairs, hunique', ?_, hshows', ?_⟩
  · intro f hf
    rw [hlisted, hlisted]
    obtain hold | ⟨hfollower, hfollowing, -⟩ := hrows f hf
    · obtain ⟨hfollower, hfollowing⟩ := hs.known f hold
      exact ⟨.inl (.inl hfollower), .inl (.inl hfollowing)⟩
    · exact ⟨.inl (.inr hfollower), .inr hfollowing⟩
  · intro f hf
    obtain hold | ⟨-, -, hwhat⟩ := hrows f hf
    · exact hs.apart f hold
    · rintro ⟨hblog, hignore⟩
      unfold FollowObject.follows hasBlog at hblog
      unfold FollowObject.ignores at hignore
      rw [hwhat, decide_eq_true_eq] at hblog hignore
      exact hblog (hapart hignore)

end Invariant

section Run

variable {s t : State} {m : Moment State FollowOperation} {run : List (Moment State FollowOperation)}

/-- The numbers of all accounts can be counted. -/
def Fits (s : State) : Prop := ∀ a, followingNumber s a < 2 ^ 32 ∧ followerNumber s a < 2 ^ 32

/-- Where all numbers can be counted, the counters show them. -/
theorem Counted.wellCounted (hs : Counted s) (hfits : Fits s) : WellCounted s where
  unique := hs.unique
  following := by
    intro c hc
    rw [(hs.shows c hc).1, UInt32.toNat_ofNat']
    exact Nat.mod_eq_of_lt (hfits c.account).1
  followers := by
    intro c hc
    rw [(hs.shows c hc).2, UInt32.toNat_ofNat']
    exact Nat.mod_eq_of_lt (hfits c.account).2
  unlisted := fun _ ha => hs.unlisted ha
  apart := hs.apart

/-- A step keeps what every run keeps. -/
theorem Counted.step {o : FollowOperation} (hs : Counted s) (h : Step o s t) : Counted t := by
  obtain h | ⟨-, rfl⟩ := h
  · exact (hs.evaluate h).1
  · exact hs

/-- A step with room keeps the numbers countable. -/
theorem Counted.fits (hs : Counted m.before) (hfits : Fits m.before)
    (h : Step m.event m.before m.after) (hroom : Room m) : Fits m.after := by
  obtain h | ⟨-, hsame⟩ := h
  swap
  · rwa [hsame]
  obtain ⟨hne, hapart, -⟩ := evaluate_eq_ok h
  obtain ⟨-, hmoved⟩ := hs.evaluate h
  -- a number grows only where the relation is new
  have hgrow : ∀ {n n' : ℕ}, n' + (if wasFollowed m.before m.event then 1 else 0) =
      n + (if (wanted m.event).2 then 1 else 0) → n < 2 ^ 32 →
      ((wanted m.event).2 → ¬ wasFollowed m.before m.event → n + 1 < 2 ^ 32) → n' < 2 ^ 32 := by
    intro n n' hsum hn hspace
    cases hwas : wasFollowed m.before m.event with
    | true =>
      rw [hwas, if_pos rfl] at hsum
      split at hsum <;> omega
    | false =>
      rw [hwas] at hsum
      cases hwants : (wanted m.event).2 with
      | false =>
        rw [hwants] at hsum
        simp only [Bool.false_eq_true, if_false] at hsum
        omega
      | true =>
        have hlimit := hspace hwants (by simp [hwas])
        rw [hwants] at hsum
        simp only [Bool.false_eq_true, if_false, if_true] at hsum
        omega
  have hignore : (wanted m.event).2 = true → (wanted m.event).1 &&& ignoreBit = 0 := by
    intro hwants
    by_contra hboth
    have hblog := hapart hboth
    rw [← wanted_flag, hasBlog, decide_eq_true_eq] at hwants
    exact hwants hblog
  intro a
  constructor
  · by_cases ha : a = m.event.follower
    · subst ha
      exact hgrow hmoved.following_self (hfits _).1
        fun hwants hnot => (hroom hne hwants (hignore hwants) hnot).1
    · rw [hmoved.following_of_ne ha]
      exact (hfits a).1
  · by_cases ha : a = m.event.following
    · subst ha
      exact hgrow hmoved.followers_self (hfits _).2
        fun hwants hnot => (hroom hne hwants (hignore hwants) hnot).2
    · rw [hmoved.followers_of_ne ha]
      exact (hfits a).2

/-- A step from a state whose counters show the numbers takes nothing from zero. -/
theorem WellCounted.noUnderflow (hs : WellCounted m.before) : NoUnderflow m := by
  intro hwas c hc
  constructor
  · intro haccount
    rw [hs.following c hc, haccount]
    exact following_pos hwas
  · intro haccount
    rw [hs.followers c hc, haccount]
    exact followers_pos hwas

/-- In every run whose operations find room the counters show the numbers in the end, and
nothing is ever taken from a counter that is zero. -/
theorem counters_show_numbers (h : Path Step .empty run s) (hroom : ∀ m ∈ run, Room m) :
    WellCounted s ∧ ∀ m ∈ run, WellCounted m.before ∧ NoUnderflow m := by
  have hfits : Fits .empty := fun _ => ⟨Nat.two_pow_pos 32, Nat.two_pow_pos 32⟩
  have hend : ∀ {run' : List (Moment State FollowOperation)} {t : State},
      Path Step .empty run' t → (∀ m ∈ run', Room m) → WellCounted t := by
    intro run' t hpath hroom'
    obtain ⟨hcounted, hfit⟩ := hpath.invariant (P := fun t => Counted t ∧ Fits t)
      ⟨counted_empty, hfits⟩ fun m hm hstep hbefore =>
        ⟨hbefore.1.step hstep, hbefore.1.fits hbefore.2 hstep (hroom' m hm)⟩
    exact hcounted.wellCounted hfit
  refine ⟨hend h hroom, fun m hm => ?_⟩
  obtain ⟨earlier, later, rfl, hearlier, -, -⟩ := h.moment hm
  have hbefore := hend hearlier fun m' hm' => hroom m' (List.mem_append_left _ hm')
  exact ⟨hbefore, hbefore.noUnderflow⟩

/-- One account follows another. -/
def sampleFollow : FollowOperation := ⟨nameOf "alice", nameOf "bob", [bytesOf "blog"]⟩

/-- It ignores it instead. -/
def sampleIgnore : FollowOperation := ⟨nameOf "alice", nameOf "bob", [bytesOf "ignore"]⟩

/-- The tables after the first contact. -/
def sampleFollowed : State :=
  ⟨⟨[⟨0, nameOf "alice", nameOf "bob", 2⟩], 1⟩,
    ⟨[⟨0, nameOf "alice", 0, 1⟩, ⟨1, nameOf "bob", 1, 0⟩], 2⟩⟩

def sampleIgnored : State :=
  ⟨⟨[⟨0, nameOf "alice", nameOf "bob", 4⟩], 1⟩,
    ⟨[⟨0, nameOf "alice", 0, 0⟩, ⟨1, nameOf "bob", 0, 0⟩], 2⟩⟩

def sampleRun : List (Moment State FollowOperation) :=
  [⟨.empty, sampleFollow, sampleFollowed⟩, ⟨sampleFollowed, sampleIgnore, sampleIgnored⟩]

/-- The sample run is a path of the plugin. -/
theorem sampleRun_path : Path Step .empty sampleRun sampleIgnored :=
  ⟨rfl, .inl rfl, rfl, .inl rfl, rfl⟩

/-- Along the sample run the counters show the numbers. -/
theorem counters_show_numbers_sample : WellCounted sampleIgnored ∧
    ∀ m ∈ sampleRun, WellCounted m.before ∧ NoUnderflow m := by
  refine counters_show_numbers sampleRun_path fun m hm => ?_
  unfold sampleRun at hm
  rw [List.mem_cons, List.mem_singleton] at hm
  obtain rfl | rfl := hm
  · intro _ _ _ _
    exact ⟨by decide, by decide⟩
  · intro _ hwants
    cases hwants

end Run

section Totality

variable {o : FollowOperation} {s : State}

/-- A relation can always be set. -/
theorem exists_setFollow (o : FollowOperation) (what : ℕ) (follows : Table FollowObject) :
    ∃ follows', setFollow o what (follows.find (isPair o.follower o.following)) follows =
      .ok follows' := by
  unfold setFollow
  cases hfind : follows.find (isPair o.follower o.following) with
  | none =>
    refine ⟨_, Table.create_of rfl fun old hold => ?_⟩
    unfold Table.find at hfind
    have hnone := List.find?_eq_none.mp hfind old hold
    rw [Bool.not_eq_true] at hnone
    unfold isPair at hnone
    simp only [eq_comm (a := o.follower), eq_comm (a := o.following)]
    exact hnone
  | some old => exact Table.exists_modify _ hfind rfl

/-- The counters of an account can always be adjusted. -/
theorem exists_adjustCounts {account : AccountName} {first : ℕ → FollowCountObject}
    {change : FollowCountObject → FollowCountObject} (hfirst : ∀ id, (first id).account = account)
    (counts : Table FollowCountObject) :
    ∃ counts', adjustCounts account first change counts = .ok counts' := by
  unfold adjustCounts
  cases hfind : counts.find fun c => c.account = account with
  | none =>
    refine ⟨_, Table.create_of rfl fun old hold => ?_⟩
    unfold Table.find at hfind
    have hnone := List.find?_eq_none.mp hfind old hold
    rw [decide_eq_true_eq] at hnone
    rw [hfirst]
    exact decide_eq_false fun haccount => hnone haccount.symm
  | some old => exact Table.exists_modify _ hfind rfl

/-- An operation between two accounts that asks for one thing is applied. -/
theorem exists_evaluate (s : State) (hne : o.follower ≠ o.following)
    (hapart : (wanted o).1 &&& ignoreBit = 0) : ∃ t, evaluate o s = .ok t := by
  obtain ⟨follows, hfollows⟩ := exists_setFollow o (wanted o).1 s.follows
  obtain ⟨middle, hmiddle⟩ : ∃ middle, adjustCounts o.follower
      (fun id => ⟨id, o.follower, 0, if (wanted o).2 then 1 else 0⟩)
      (fun c => { c with followingCount := adjust (wasFollowed s o) (wanted o).2 c.followingCount })
      s.counts = .ok middle := by
    refine exists_adjustCounts ?_ s.counts
    intro id
    rfl
  obtain ⟨counts, hcounts⟩ : ∃ counts, adjustCounts o.following
      (fun id => ⟨id, o.following, if (wanted o).2 then 1 else 0, 0⟩)
      (fun c => { c with followerCount := adjust (wasFollowed s o) (wanted o).2 c.followerCount })
      middle = .ok counts := by
    refine exists_adjustCounts ?_ middle
    intro id
    rfl
  refine ⟨⟨follows, counts⟩, ?_⟩
  unfold evaluate applyFollow FollowOperation.validate assertApart count
  rw [fcAssert_of (decide_eq_true hne), if_neg (not_not.mpr hapart), hfollows, hmiddle]
  exact congrArg (fun r : Except Exc (Table FollowCountObject) => r >>= fun counts =>
    (pure ⟨follows, counts⟩ : Except Exc State)) hcounts

end Totality

section Wrapping

variable {s t : State} {k : ℕ}

/-- The text of the name of a user. -/
def userText (i : ℕ) : Bytes := bytesOf "user" ++ Decimals.fixed 10 i

/-- The name of a user. -/
def userName (i : ℕ) : AccountName := .ofBytes (userText i)

/-- An account follows a user. -/
def followUser (i : ℕ) : FollowOperation := ⟨nameOf "alice", userName i, [bytesOf "blog"]⟩

/-- Every name is the one of its text. -/
theorem toBytes_userName (i : ℕ) : (userName i).toBytes = userText i := by
  have hnul : FixedStrings.NulFree (userText i) := by
    intro b hb
    obtain hb | hb := List.mem_append.mp hb
    · have hletters : (bytesOf "user").all (fun b => b ≠ 0) = true := by decide
      exact of_decide_eq_true (List.all_eq_true.mp hletters b hb)
    · have hdigit := Decimals.fixed_allDigits 10 i b hb
      rintro rfl
      have hlow : 48 ≤ (0 : UInt8).toNat := hdigit.1
      revert hlow
      decide
  have hlength : (userText i).length ≤ FixedStrings.uint128.size := by
    have hsize : FixedStrings.uint128.size = 16 := rfl
    have hword : (bytesOf "user").length = 4 := rfl
    rw [userText, List.length_append, Decimals.fixed_length, hword, hsize]
    omega
  rw [userName, ← FixedStrings.toString_eq_toBytes]
  exact FixedStrings.toString_ofString FixedStrings.uint128_lawful hnul hlength

/-- Different users have different names. -/
theorem userName_inj {i j : ℕ} (hi : i < 10 ^ 10) (hj : j < 10 ^ 10)
    (h : userName i = userName j) : i = j := by
  have htext : userText i = userText j := by rw [← toBytes_userName, h, toBytes_userName]
  have hdigits : Decimals.fixed 10 i = Decimals.fixed 10 j := List.append_cancel_left htext
  rw [← Decimals.value_fixed hi, hdigits, Decimals.value_fixed hj]

/-- A user is not the account that follows. -/
theorem userName_ne (i : ℕ) : nameOf "alice" ≠ userName i := by
  intro h
  have hbytes : (nameOf "alice").toBytes = userText i := by rw [h, toBytes_userName]
  have hfirst : (nameOf "alice").toBytes.head? = some 97 := by decide
  rw [hbytes] at hfirst
  revert hfirst
  exact fun h => absurd (Option.some.inj h) (by decide)

/-- The tables after an account has followed so many users. -/
structure Followed (k : ℕ) (s : State) : Prop where
  counted : Counted s
  number : followingNumber s (nameOf "alice") = k
  users : ∀ f ∈ s.follows.rows, ∃ i < k, f.following = userName i
  listed : 0 < k → nameOf "alice" ∈ listed s.counts

/-- The account follows one more user. -/
theorem Followed.next (hs : Followed k s) (hk : k < 10 ^ 10) :
    ∃ t, Step (followUser k) s t ∧ Followed (k + 1) t := by
  have hwanted : wanted (followUser k) = (2, true) := by
    change [bytesOf "blog"].foldl addTarget (0, false) = (2, true)
    decide
  have hapart : (wanted (followUser k)).1 &&& ignoreBit = 0 := by
    rw [hwanted]
    rfl
  obtain ⟨t, ht⟩ := exists_evaluate s (o := followUser k) (userName_ne k) hapart
  obtain ⟨hcounted, hmoved⟩ := hs.counted.evaluate ht
  obtain ⟨-, -, hfollows, -⟩ := evaluate_eq_ok ht
  obtain ⟨-, hrows, -⟩ := setFollow_spec hfollows hs.counted.pairs
  have hnot : wasFollowed s (followUser k) = false := by
    unfold wasFollowed
    have hnone : s.follows.find (isPair (followUser k).follower (followUser k).following) = none := by
      refine List.find?_eq_none.mpr fun f hf hpair => ?_
      unfold isPair at hpair
      rw [Bool.and_eq_true, decide_eq_true_eq, decide_eq_true_eq] at hpair
      obtain ⟨i, hi, hname⟩ := hs.users f hf
      have hsame := userName_inj (hi.trans hk) hk (hname.symm.trans hpair.2)
      omega
    rw [hnone]
    rfl
  have hnumber := hmoved.following_self
  rw [hnot, hwanted] at hnumber
  have hnumber : followingNumber t (nameOf "alice") = followingNumber s (nameOf "alice") + 1 := hnumber
  have hpos : 0 < followingNumber t (nameOf "alice") := by omega
  refine ⟨t, .inl ht, hcounted, ?_, ?_, ?_⟩
  · rw [hnumber, hs.number]
  · intro f hf
    obtain hold | ⟨-, hname, -⟩ := hrows f hf
    · obtain ⟨i, hi, hname⟩ := hs.users f hold
      exact ⟨i, hi.trans (Nat.lt_succ_self k), hname⟩
    · exact ⟨k, Nat.lt_succ_self k, hname⟩
  · intro _
    by_contra hunlisted
    have hzero := (hcounted.unlisted hunlisted).1
    omega

/-- An account follows as many users as there are names for. -/
theorem path_followUsers (k : ℕ) (hk : k ≤ 10 ^ 10) : ∃ run s, Path Step .empty run s ∧
    run.map (·.event) = (List.range k).map followUser ∧ Followed k s := by
  induction k with
  | zero =>
    refine ⟨[], .empty, rfl, rfl, counted_empty, rfl, ?_, ?_⟩
    · intro f hf
      cases hf
    · intro hpos
      cases hpos
  | succ k ih =>
    obtain ⟨run, s, hrun, hevents, hs⟩ := ih (by omega)
    obtain ⟨t, hstep, ht⟩ := hs.next (by omega)
    refine ⟨_, t, hrun.append (.single hstep), ?_, ht⟩
    rw [List.map_append, hevents, List.range_succ, List.map_append]
    rfl

/-- An account that follows 2^32 others is shown to follow none. -/
theorem counter_wraps_to_zero : ∃ run s c, Path Step .empty run s ∧
    run.map (·.event) = (List.range (2 ^ 32)).map followUser ∧
    c ∈ s.counts.rows ∧ c.account = nameOf "alice" ∧ c.followingCount = 0 ∧
    followingNumber s (nameOf "alice") = 2 ^ 32 ∧ ¬ WellCounted s := by
  obtain ⟨run, s, hrun, hevents, hs⟩ := path_followUsers (2 ^ 32) (by omega)
  obtain ⟨c, hc, haccount⟩ := List.mem_map.mp (hs.listed (Nat.two_pow_pos 32))
  have hcount := (hs.counted.shows c hc).1
  rw [haccount, hs.number] at hcount
  have hzero : c.followingCount = 0 := hcount
  refine ⟨run, s, c, hrun, hevents, hc, haccount, hzero, hs.number, fun hwell => ?_⟩
  have hshown := hwell.following c hc
  rw [haccount, hs.number, hzero] at hshown
  cases hshown

end Wrapping

end Whaleshares.FollowCounts
