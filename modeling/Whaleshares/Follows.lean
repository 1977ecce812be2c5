import Whaleshares.Database
import Whaleshares.LabelledRun

/-!
# Who follows whom

The follow operation of the plugin `follow` (`follow_operations.cpp`,
`follow_evaluators.cpp`). A row for each pair of accounts says with two bits what the
first wants of the second; two counters of 32 bits for each account, made when an
operation first names it, count the rows that have the blog bit.
-/

namespace Whaleshares.Follows

open Fc Database

/-- `follow_type` -/
inductive FollowType where
  | undefined
  | blog
  | ignore
  deriving DecidableEq

/-- `1 << blog` -/
def blogBit : ℕ := 2

/-- `1 << ignore` -/
def ignoreBit : ℕ := 4

/-- `follow_object` -/
structure FollowObject where
  id : ℕ
  follower : AccountName
  following : AccountName
  what : ℕ
  deriving DecidableEq

/-- `follow_count_object` -/
structure FollowCountObject where
  id : ℕ
  account : AccountName
  followerCount : UInt32
  followingCount : UInt32
  deriving DecidableEq

/-- The two tables. -/
structure State where
  follows : Table FollowObject
  counts : Table FollowCountObject

/-- The tables before any operation. -/
def State.empty : State := ⟨.empty, .empty⟩

/-- `follow_operation` -/
structure FollowOperation where
  follower : AccountName
  following : AccountName
  what : List Bytes

/-- `validate` -/
def FollowOperation.validate (o : FollowOperation) : Except Exc Unit :=
  fcAssert (o.follower ≠ o.following) "You cannot follow yourself"

/-- `follow_type_map`, which takes unknown texts for `undefined`. -/
def followTypeOf (target : Bytes) : FollowType :=
  if target = bytesOf "blog" then .blog
  else if target = bytesOf "ignore" then .ignore
  else .undefined

/-- The loop over `what`: the bits, and whether the account is to be followed. -/
def addTarget (acc : ℕ × Bool) (target : Bytes) : ℕ × Bool :=
  match followTypeOf target with
  | .blog => (acc.1 ||| blogBit, true)
  | .ignore => (acc.1 ||| ignoreBit, acc.2)
  | .undefined => acc

/-- Whether bits have the blog bit. -/
def hasBlog (what : ℕ) : Bool := what &&& blogBit ≠ 0

/-- Whether a row has the blog bit. -/
def FollowObject.follows (f : FollowObject) : Bool := hasBlog f.what

/-- Whether a row has the ignore bit. -/
def FollowObject.ignores (f : FollowObject) : Bool := f.what &&& ignoreBit ≠ 0

/-- The key of the rows, `by_follower_following`. -/
def isPair (follower following : AccountName) (f : FollowObject) : Bool :=
  f.follower = follower && f.following = following

/-- A counter after an operation. -/
def adjust (was isNow : Bool) (count : UInt32) : UInt32 :=
  let count := if was then count - 1 else count
  if isNow then count + 1 else count

/-- The counters of one account after an operation; `first` are those of an account that
has none yet. -/
def adjustCounts (account : AccountName) (first : ℕ → FollowCountObject)
    (change : FollowCountObject → FollowCountObject) (counts : Table FollowCountObject) :
    Except Exc (Table FollowCountObject) :=
  match counts.find fun c => c.account = account with
  | none => counts.create couldNotInsert (fun a b => a.account = b.account) fun id => .ok (first id)
  | some _ => counts.modify unknownKey (fun c => c.account = account) fun c => .ok (change c)

/-- The relation between the accounts after an operation. -/
def setFollow (o : FollowOperation) (what : ℕ) (found : Option FollowObject)
    (follows : Table FollowObject) : Except Exc (Table FollowObject) :=
  match found with
  | none => follows.create couldNotInsert
      (fun a b => a.follower = b.follower && a.following = b.following)
      fun id => .ok ⟨id, o.follower, o.following, what⟩
  | some _ => follows.modify unknownKey (isPair o.follower o.following) fun f =>
      .ok { f with what := what }

/-- The counters after the relation was set. -/
def count (o : FollowOperation) (was isNow : Bool) (counts : Table FollowCountObject) :
    Except Exc (Table FollowCountObject) := do
  let counts ← adjustCounts o.follower
    (fun id => ⟨id, o.follower, 0, if isNow then 1 else 0⟩)
    (fun c => { c with followingCount := adjust was isNow c.followingCount }) counts
  adjustCounts o.following
    (fun id => ⟨id, o.following, if isNow then 1 else 0, 0⟩)
    (fun c => { c with followerCount := adjust was isNow c.followerCount }) counts

/-- The bits that an operation asks for, and whether it asks to follow. -/
def wanted (o : FollowOperation) : ℕ × Bool := o.what.foldl addTarget (0, false)

/-- Whether the first account follows the second. -/
def wasFollowed (s : State) (o : FollowOperation) : Bool :=
  (s.follows.find (isPair o.follower o.following)).any FollowObject.follows

/-- The assertion on the bits. -/
def assertApart (what : ℕ) : Except Exc Unit :=
  if what &&& ignoreBit ≠ 0 then
    fcAssert (what &&& blogBit = 0) "Cannot follow blog and ignore author at the same time"
  else .ok ()

/-- `follow_evaluator::do_apply` -/
def applyFollow (o : FollowOperation) (s : State) : Except Exc State := do
  assertApart (wanted o).1
  let follows ← setFollow o (wanted o).1 (s.follows.find (isPair o.follower o.following)) s.follows
  let counts ← count o (wasFollowed s o) (wanted o).2 s.counts
  pure ⟨follows, counts⟩

section Bits

/-- The bits that an operation asks for agree with the flag. -/
theorem addTarget_flag (targets : List Bytes) {acc : ℕ × Bool}
    (hacc : acc.1 &&& blogBit ≠ 0 ↔ acc.2 = true) :
    (targets.foldl addTarget acc).1 &&& blogBit ≠ 0 ↔ (targets.foldl addTarget acc).2 = true := by
  induction targets generalizing acc with
  | nil => exact hacc
  | cons target rest ih =>
    refine ih ?_
    unfold addTarget
    cases followTypeOf target with
    | undefined => exact hacc
    | blog =>
      have hbit : (acc.1 ||| blogBit) &&& blogBit = blogBit := by
        rw [Nat.and_comm, Nat.and_or_distrib_left, Nat.and_self]
        refine Nat.eq_of_testBit_eq fun i => ?_
        rw [Nat.testBit_or, Nat.testBit_and]
        cases blogBit.testBit i
        · rfl
        · exact Bool.or_true _
      simp only [hbit]
      decide
    | ignore =>
      have hbit : (acc.1 ||| ignoreBit) &&& blogBit = acc.1 &&& blogBit := by
        have hapart : blogBit &&& ignoreBit = 0 := by decide
        rw [Nat.and_comm, Nat.and_or_distrib_left, hapart, Nat.or_zero, Nat.and_comm]
      simp only [hbit]
      exact hacc

/-- The bit for the blog is set exactly if the operation asks to follow. -/
theorem wanted_flag (o : FollowOperation) : hasBlog (wanted o).1 = (wanted o).2 := by
  unfold hasBlog
  rw [Bool.eq_iff_iff, decide_eq_true_eq]
  exact addTarget_flag o.what (by decide)

end Bits

section Relation

/-- The pair that a row is about. -/
def pair (f : FollowObject) : AccountName × AccountName := (f.follower, f.following)

/-- The number of rows that have the blog bit and a pair of some kind. -/
def numberOf (q : AccountName → AccountName → Bool) (follows : Table FollowObject) : ℕ :=
  follows.rows.countP fun f => q f.follower f.following && f.follows

/-- The number of accounts that an account follows. -/
def followingNumber (s : State) (a : AccountName) : ℕ :=
  numberOf (fun follower _ => follower = a) s.follows

/-- The number of accounts that follow an account. -/
def followerNumber (s : State) (a : AccountName) : ℕ :=
  numberOf (fun _ following => following = a) s.follows

variable {o : FollowOperation} {what : ℕ} {follows follows' : Table FollowObject}

/-- What an operation does to the relation: the row of its pair is there after it, with the
bits asked for, and the others stay. -/
theorem setFollow_spec
    (h : setFollow o what (follows.find (isPair o.follower o.following)) follows = .ok follows')
    (hpairs : (follows.rows.map pair).Nodup) :
    (follows'.rows.map pair).Nodup ∧
      (∀ f ∈ follows'.rows, f ∈ follows.rows ∨
        (f.follower = o.follower ∧ f.following = o.following ∧ f.what = what)) ∧
      ∀ q : AccountName → AccountName → Bool,
        numberOf q follows' + (if q o.follower o.following &&
            (follows.find (isPair o.follower o.following)).any FollowObject.follows then 1 else 0) =
          numberOf q follows +
            (if q o.follower o.following && hasBlog what then 1 else 0) := by
  unfold setFollow at h
  cases hfind : follows.find (isPair o.follower o.following) with
  | none =>
    rw [hfind] at h
    obtain ⟨row, hrow, hfree, hrows, -⟩ := Table.create_rows h
    obtain rfl := Except.ok.inj hrow
    refine ⟨?_, ?_, ?_⟩
    · rw [hrows, List.map_append, List.map_singleton]
      refine List.nodup_append'.mpr ⟨hpairs, List.nodup_singleton _, ?_⟩
      rw [List.disjoint_singleton]
      intro hmem
      obtain ⟨old, hold, hpair⟩ := List.mem_map.mp hmem
      have hclash := hfree old hold
      have hpair : (old.follower, old.following) = (o.follower, o.following) := hpair
      rw [Prod.mk.injEq] at hpair
      simp [hpair.1, hpair.2] at hclash
    · intro f hf
      rw [hrows] at hf
      obtain hf | hf := List.mem_append.mp hf
      · exact .inl hf
      · rw [List.mem_singleton.mp hf]
        exact .inr ⟨rfl, rfl, rfl⟩
    · intro q
      unfold numberOf
      rw [hrows, List.countP_append, List.countP_singleton]
      simp [FollowObject.follows]
  | some old =>
    rw [hfind] at h
    obtain ⟨before, row, after, hrows, hrows', hrow⟩ := Table.modify_found h hfind
    have hold : isPair o.follower o.following old = true := by
      unfold Table.find at hfind
      exact List.find?_some hfind
    unfold isPair at hold
    rw [Bool.and_eq_true, decide_eq_true_eq, decide_eq_true_eq] at hold
    obtain ⟨hfollower, hfollowing⟩ := hold
    have hnew : row.follower = o.follower ∧ row.following = o.following ∧ row.what = what := by
      rw [← Except.ok.inj hrow]
      exact ⟨hfollower, hfollowing, rfl⟩
    refine ⟨?_, ?_, ?_⟩
    · have hpair : pair row = pair old := by
        unfold pair
        rw [hnew.1, hnew.2.1, hfollower, hfollowing]
      rw [hrows, List.map_append, List.map_cons] at hpairs
      rw [hrows', List.map_append, List.map_cons, hpair]
      exact hpairs
    · intro f hf
      rw [hrows'] at hf
      rw [hrows]
      obtain hf | hf := List.mem_append.mp hf
      · exact .inl (List.mem_append_left _ hf)
      · obtain rfl | hf := List.mem_cons.mp hf
        · exact .inr hnew
        · exact .inl (List.mem_append_right _ (List.mem_cons_of_mem _ hf))
    · intro q
      unfold numberOf
      rw [hrows, hrows', List.countP_append, List.countP_append, List.countP_cons,
        List.countP_cons, hfollower, hfollowing, hnew.1, hnew.2.1]
      unfold FollowObject.follows
      rw [hnew.2.2, Option.any_some]
      omega

/-- An account that follows one is counted. -/
theorem numberOf_pos {q : AccountName → AccountName → Bool} (hq : q o.follower o.following = true)
    (h : (follows.find (isPair o.follower o.following)).any FollowObject.follows = true) :
    0 < numberOf q follows := by
  cases hfind : follows.find (isPair o.follower o.following) with
  | none =>
    rw [hfind] at h
    cases h
  | some old =>
    rw [hfind] at h
    unfold Table.find at hfind
    have hold := List.find?_some hfind
    unfold isPair at hold
    rw [Bool.and_eq_true, decide_eq_true_eq, decide_eq_true_eq] at hold
    unfold numberOf
    rw [List.countP_pos_iff]
    refine ⟨old, List.mem_of_find?_eq_some hfind, ?_⟩
    rw [hold.1, hold.2, hq]
    exact h

end Relation

section Counters

variable {account : AccountName} {first : ℕ → FollowCountObject}
  {change : FollowCountObject → FollowCountObject} {counts counts' : Table FollowCountObject}

/-- The accounts that have counters. -/
def listed (counts : Table FollowCountObject) : List AccountName := counts.rows.map (·.account)

/-- What an operation does to the counters of an account. -/
theorem adjustCounts_spec (h : adjustCounts account first change counts = .ok counts')
    (hlisted : (listed counts).Nodup) (hfirst : ∀ id, (first id).account = account)
    (hchange : ∀ c, (change c).account = c.account) :
    (listed counts').Nodup ∧ (∀ a, a ∈ listed counts' ↔ a ∈ listed counts ∨ a = account) ∧
      ∀ c ∈ counts'.rows, (c ∈ counts.rows ∧ c.account ≠ account) ∨
        (∃ old ∈ counts.rows, old.account = account ∧ c = change old) ∨
        (account ∉ listed counts ∧ ∃ id, c = first id) := by
  unfold adjustCounts at h
  unfold listed at hlisted ⊢
  cases hfind : counts.find fun c => c.account = account with
  | none =>
    rw [hfind] at h
    obtain ⟨row, hrow, -, hrows, -⟩ := Table.create_rows h
    obtain rfl := Except.ok.inj hrow
    have hnot : account ∉ counts.rows.map (·.account) := by
      intro hmem
      obtain ⟨old, hold, haccount⟩ := List.mem_map.mp hmem
      unfold Table.find at hfind
      have hnone := List.find?_eq_none.mp hfind old hold
      exact hnone (decide_eq_true haccount)
    rw [hrows, List.map_append, List.map_singleton, hfirst]
    refine ⟨?_, ?_, ?_⟩
    · exact List.nodup_append'.mpr ⟨hlisted, List.nodup_singleton _, List.disjoint_singleton.mpr hnot⟩
    · intro a
      rw [List.mem_append, List.mem_singleton]
    · intro c hc
      obtain hc | hc := List.mem_append.mp hc
      · refine .inl ⟨hc, fun haccount => hnot ?_⟩
        exact List.mem_map.mpr ⟨c, hc, haccount⟩
      · exact .inr (.inr ⟨hnot, counts.nextId, List.mem_singleton.mp hc⟩)
  | some old =>
    rw [hfind] at h
    have hkept : ∀ a b, (Except.ok (change a) : Except Exc FollowCountObject) = .ok b →
        b.account = a.account := by
      intro a b hab
      rw [← Except.ok.inj hab]
      exact hchange a
    obtain ⟨a, b, -, ha, haccount, hab, hrows, -⟩ :=
      Table.modify_amend (·.account) h hlisted hkept
    obtain rfl := Except.ok.inj hab
    have haccount : a.account = account := of_decide_eq_true haccount
    have haccounts : counts'.rows.map (·.account) = counts.rows.map (·.account) := by
      rw [hrows]
      exact Table.amend_keys _
    rw [haccounts]
    refine ⟨hlisted, ?_, ?_⟩
    · intro x
      constructor
      · exact .inl
      · rintro (hx | rfl)
        · exact hx
        · exact List.mem_map.mpr ⟨a, ha, haccount⟩
    · intro c hc
      rw [hrows] at hc
      obtain rfl | ⟨hc, hne⟩ := Table.mem_amend hc
      · exact .inr (.inl ⟨a, ha, haccount, rfl⟩)
      · rw [hchange, haccount] at hne
        exact .inl ⟨hc, hne⟩

/-- A counter follows its number, as far as it can count. -/
theorem adjust_ofNat {was isNow : Bool} {n m : ℕ}
    (h : m + (if was then 1 else 0) = n + (if isNow then 1 else 0)) :
    adjust was isNow (UInt32.ofNat n) = UInt32.ofNat m := by
  unfold adjust
  cases was with
  | false =>
    cases isNow with
    | false =>
      rw [show m = n from h]
      rfl
    | true =>
      rw [show m = n + 1 from h, UInt32.ofNat_add]
      rfl
  | true =>
    cases isNow with
    | false =>
      rw [show n = m + 1 from h.symm, UInt32.ofNat_add]
      exact UInt32.add_sub_cancel _ _
    | true =>
      rw [show n = m from (Nat.succ.inj h).symm]
      exact UInt32.sub_add_cancel _ _

/-- The counters show numbers, as far as they can count. -/
def Shows (counts : Table FollowCountObject) (following follower : AccountName → ℕ) : Prop :=
  ∀ c ∈ counts.rows, c.followingCount = UInt32.ofNat (following c.account) ∧
    c.followerCount = UInt32.ofNat (follower c.account)

end Counters

end Whaleshares.Follows
