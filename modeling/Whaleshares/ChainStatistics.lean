import Mathlib
import Whaleshares.Fc
import Whaleshares.IndexWalk

/-!
# The statistics of the chain

The plugin `chain_stats` (`blockchain_statistics_plugin.cpp`) counts the blocks, the transactions
and their bytes in buckets of several sizes. The block that opens a bucket prunes the old ones of
its size with the iterator that is used for the numbers of the block, so these go to the oldest
bucket that is left, or nowhere. As long as every block that opens a bucket finds no older one
left, or has no transactions, the buckets are right.
-/

namespace Whaleshares.ChainStatistics

open Fc IndexWalk

section Objects

/-- `bucket_object`, without the numbers that the operations change -/
structure BucketObject where
  id : ℕ
  /-- `open` -/
  openTime : TimePointSec
  seconds : ℕ
  blocks : UInt32 := 0
  bandwidth : UInt32 := 0
  transactions : UInt32 := 0
  deriving DecidableEq

/-- The options of the plugin. -/
structure Settings where
  /-- `_tracked_buckets` -/
  trackedBuckets : List ℕ
  /-- The sizes form a sorted set. -/
  ascending : trackedBuckets.Pairwise (· < ·)
  /-- `_maximum_history_per_bucket_size` -/
  maximumHistory : ℕ

/-- The state of the plugin. -/
structure Statistics where
  /-- `bucket_index` -/
  buckets : Table BucketObject
  /-- `_current_buckets` -/
  currentBuckets : List ℕ

/-- The state before any block. -/
def Statistics.empty : Statistics := ⟨.empty, []⟩

/-- What `on_block` reads of a block and of the database after it. -/
structure BlockNotice where
  blockNum : ℕ
  timestamp : TimePointSec
  /-- `head_block_time()` -/
  headBlockTime : TimePointSec
  /-- The packed sizes of the transactions. -/
  trxSizes : List ℕ

/-- What keeps `on_block` from its end. The first two are undefined. -/
inductive Fault where
  /-- The end of the index is read. -/
  | endIterator
  | divisionByZero
  /-- An exception of the database. -/
  | thrown
  deriving DecidableEq

end Objects

section Plugin

/-- `trx_size` -/
def BlockNotice.trxSize (n : BlockNotice) : UInt32 :=
  n.trxSizes.foldl (fun size trx => size + UInt32.ofNat trx) 0

/-- `num_trx` -/
def BlockNotice.numTrx (n : BlockNotice) : UInt32 := UInt32.ofNat n.trxSizes.length

/-- A change of the bucket with an id. -/
def modifyBucket (id : ℕ) (f : BucketObject → BucketObject) (buckets : Table BucketObject) :
    Table BucketObject :=
  ⟨buckets.rows.map fun b => if b.id = id then f b else b, buckets.nextId⟩

/-- A new bucket; sizes and times are unique. -/
def createBucket (f : ℕ → BucketObject) (buckets : Table BucketObject) :
    Except Fault (Table BucketObject) :=
  buckets.create .thrown (fun a b => a.seconds = b.seconds && a.openTime = b.openTime)
    fun id => .ok (f id)

/-- One more block. -/
def addBlock (b : BucketObject) : BucketObject := { b with blocks := b.blocks + 1 }

/-- The transactions of a block and their bytes. -/
def addTransactions (n : BlockNotice) (b : BucketObject) : BucketObject :=
  { b with transactions := b.transactions + n.numTrx, bandwidth := b.bandwidth + n.trxSize }

/-- The bucket of the whole chain, which has the id 0 and the size 0. -/
def countBlock (n : BlockNotice) (s : Statistics) : Except Fault Statistics :=
  if n.blockNum = 1 then
    (createBucket (fun id => ⟨id, n.timestamp, 0, 1, 0, 0⟩) s.buckets).map (⟨·, [0]⟩)
  else
    match s.buckets.find fun b => b.id = 0 with
    | none => .error .thrown
    | some _ => .ok ⟨modifyBucket 0 addBlock s.buckets, [0]⟩

/-- The time before which buckets go. What `safe` throws is caught. -/
def cutoffOf (now bucket maximumHistory : ℕ) : Option ℕ :=
  if 2 ^ 32 ≤ bucket * maximumHistory then none
  else if now < bucket * maximumHistory then none
  else some (now - bucket * maximumHistory)

/-- The order of `by_bucket`. -/
def bucketOrder (a b : BucketObject) : Bool :=
  a.seconds < b.seconds || (a.seconds = b.seconds && a.openTime ≤ b.openTime)

/-- The buckets from the lower bound of a size on. -/
def bucketsFrom (bucket : ℕ) (buckets : Table BucketObject) : List BucketObject :=
  buckets.select (fun b => bucket ≤ b.seconds) bucketOrder

/-- The test of the loop that removes buckets. -/
def isOld (bucket cutoff : ℕ) (b : BucketObject) : Bool :=
  b.seconds = bucket && b.openTime < cutoff

/-- The loop that removes the old buckets of a size, with the bucket where it stops. -/
def removeOld (bucket cutoff : ℕ) :
    List BucketObject → Table BucketObject → Except Fault (BucketObject × Table BucketObject)
  | [], _ => .error .endIterator
  | itr :: rest, buckets =>
    if isOld bucket cutoff itr then removeOld bucket cutoff rest (buckets.remove (·.id = itr.id))
    else .ok (itr, buckets)

/-- The branch for a bucket that is not there. Without a walk the iterator is still at the end,
where the numbers of the block are to be added. -/
def openBucket (cfg : Settings) (now bucket openTime : ℕ) (s : Statistics) :
    Except Fault (BucketObject × Statistics) := do
  let buckets ← createBucket (fun id => ⟨id, openTime, bucket, 1, 0, 0⟩) s.buckets
  if 0 < cfg.maximumHistory then
    match cutoffOf now bucket cfg.maximumHistory with
    | none => .error .endIterator
    | some cutoff =>
      let (itr, left) ← removeOld bucket cutoff (bucketsFrom bucket buckets) buckets
      .ok (itr, ⟨left, s.buckets.nextId :: s.currentBuckets⟩)
  else
    .error .endIterator

/-- The key of `by_bucket`. -/
def hasKey (bucket openTime : ℕ) (b : BucketObject) : Bool :=
  b.seconds = bucket && b.openTime = openTime

/-- One round of the loop over the sizes. -/
def countInBucket (cfg : Settings) (n : BlockNotice) (s : Statistics) (bucket : ℕ) :
    Except Fault Statistics := do
  if bucket = 0 then
    .error .divisionByZero
  else
    let openTime := n.headBlockTime / bucket * bucket
    let (itr, s) ← match s.buckets.find (hasKey bucket openTime) with
      | none => openBucket cfg n.headBlockTime bucket openTime s
      | some b => .ok (b, ⟨modifyBucket b.id addBlock s.buckets, b.id :: s.currentBuckets⟩)
    .ok { s with buckets := modifyBucket itr.id (addTransactions n) s.buckets }

/-- `on_block` -/
def onBlock (cfg : Settings) (n : BlockNotice) (s : Statistics) : Except Fault Statistics := do
  let s ← countBlock n s
  cfg.trackedBuckets.foldlM (countInBucket cfg n) s

/-- The state after some blocks. -/
def after (cfg : Settings) (blocks : List BlockNotice) : Except Fault Statistics :=
  blocks.foldlM (fun s n => onBlock cfg n s) .empty

end Plugin

section Spec

/-- Whether the head time of a block is in a bucket. -/
def within (b : BucketObject) (n : BlockNotice) : Bool :=
  b.openTime ≤ n.headBlockTime && n.headBlockTime < b.openTime + b.seconds

/-- The numbers of a bucket are those of the blocks in it. -/
structure Counted (history : List BlockNotice) (b : BucketObject) : Prop where
  blocks : b.blocks.toNat = (history.filter (within b)).length
  transactions : b.transactions.toNat =
    ((history.filter (within b)).map fun n => n.trxSizes.length).sum
  bandwidth : b.bandwidth.toNat = ((history.filter (within b)).map fun n => n.trxSizes.sum).sum

/-- All buckets of the tracked sizes are right. -/
def AllCounted (cfg : Settings) (history : List BlockNotice) (s : Statistics) : Prop :=
  ∀ b ∈ s.buckets.rows, b.seconds ∈ cfg.trackedBuckets → Counted history b

/-- The blocks of a chain. -/
structure Chained (blocks : List BlockNotice) : Prop where
  numbers : blocks.map (·.blockNum) = List.range' 1 blocks.length
  times : blocks.Pairwise fun a b => a.headBlockTime < b.headBlockTime

/-- A block adds to a bucket that is there without a wrap. -/
structure Adds (n : BlockNotice) (b : BucketObject) : Prop where
  blocks : b.blocks.toNat + 1 < 2 ^ 32
  transactions : b.transactions.toNat + n.trxSizes.length < 2 ^ 32
  bandwidth : b.bandwidth.toNat + n.trxSizes.sum < 2 ^ 32

/-- A block opens a bucket of a size: the walk can be made, the numbers fit, and they are none or
no older bucket of the size is left. -/
structure Opens (cfg : Settings) (n : BlockNotice) (bucket : ℕ) (buckets : Table BucketObject) :
    Prop where
  history : 0 < cfg.maximumHistory
  product : bucket * cfg.maximumHistory < 2 ^ 32
  cutoff : bucket * cfg.maximumHistory ≤ n.headBlockTime
  transactions : n.trxSizes.length < 2 ^ 32
  bandwidth : n.trxSizes.sum < 2 ^ 32
  oldest : n.trxSizes = [] ∨ ∀ b ∈ buckets.rows, b.seconds = bucket →
    b.openTime < n.headBlockTime - bucket * cfg.maximumHistory

/-- The condition on a block for one size. -/
structure SizeFits (cfg : Settings) (n : BlockNotice) (bucket : ℕ)
    (buckets : Table BucketObject) : Prop where
  nonzero : bucket ≠ 0
  found : ∀ b ∈ buckets.rows, hasKey bucket (n.headBlockTime / bucket * bucket) b = true → Adds n b
  opened : (∀ b ∈ buckets.rows, hasKey bucket (n.headBlockTime / bucket * bucket) b = false) →
    Opens cfg n bucket buckets

/-- Every block of a run meets the condition for every size. -/
def EachFits (cfg : Settings) (blocks : List BlockNotice) : Prop :=
  ∀ done n rest, blocks = done ++ n :: rest → ∀ s, after cfg done = .ok s →
    ∀ bucket ∈ cfg.trackedBuckets, SizeFits cfg n bucket s.buckets

end Spec

section Keys

variable {n : BlockNotice} {buckets buckets' : Table BucketObject} {id bucket : ℕ}
  {f : BucketObject → BucketObject}

/-- Ids and keys are unique. -/
structure Keyed (buckets : Table BucketObject) : Prop where
  below : ∀ b ∈ buckets.rows, b.id < buckets.nextId
  ids : ∀ a ∈ buckets.rows, ∀ b ∈ buckets.rows, a.id = b.id → a = b
  keys : ∀ a ∈ buckets.rows, ∀ b ∈ buckets.rows, a.seconds = b.seconds →
    a.openTime = b.openTime → a = b

/-- A change keeps what identifies a bucket. -/
def KeepsKey (f : BucketObject → BucketObject) : Prop :=
  ∀ b, (f b).id = b.id ∧ (f b).seconds = b.seconds ∧ (f b).openTime = b.openTime

/-- Counting a block keeps the key of the bucket. -/
theorem addBlock_keepsKey : KeepsKey addBlock := fun _ => ⟨rfl, rfl, rfl⟩

/-- Counting transactions keeps the key of the bucket. -/
theorem addTransactions_keepsKey (n : BlockNotice) : KeepsKey (addTransactions n) :=
  fun _ => ⟨rfl, rfl, rfl⟩

/-- The buckets after a change are the old ones with the change at one id. -/
theorem mem_modifyBucket {b : BucketObject} :
    b ∈ (modifyBucket id f buckets).rows ↔
      ∃ a ∈ buckets.rows, (if a.id = id then f a else a) = b := List.mem_map

/-- A change that keeps keys keeps the buckets keyed. -/
theorem Keyed.modify (h : Keyed buckets) (hf : KeepsKey f) : Keyed (modifyBucket id f buckets) := by
  have hkeeps (a : BucketObject) : (if a.id = id then f a else a).id = a.id ∧
      (if a.id = id then f a else a).seconds = a.seconds ∧
      (if a.id = id then f a else a).openTime = a.openTime := by
    split
    · exact hf a
    · exact ⟨rfl, rfl, rfl⟩
  refine ⟨fun b hb => ?_, fun b hb c hc hid => ?_, fun b hb c hc hseconds hopen => ?_⟩
  · obtain ⟨a, ha, rfl⟩ := mem_modifyBucket.mp hb
    rw [(hkeeps a).1]
    exact h.below a ha
  · obtain ⟨a, ha, rfl⟩ := mem_modifyBucket.mp hb
    obtain ⟨a', ha', rfl⟩ := mem_modifyBucket.mp hc
    rw [(hkeeps a).1, (hkeeps a').1] at hid
    rw [h.ids a ha a' ha' hid]
  · obtain ⟨a, ha, rfl⟩ := mem_modifyBucket.mp hb
    obtain ⟨a', ha', rfl⟩ := mem_modifyBucket.mp hc
    rw [(hkeeps a).2.1, (hkeeps a').2.1] at hseconds
    rw [(hkeeps a).2.2, (hkeeps a').2.2] at hopen
    rw [h.keys a ha a' ha' hseconds hopen]

/-- Buckets of one size are not touched by the change of a bucket of another size. -/
theorem modifyBucket_others (h : Keyed buckets) (hf : KeepsKey f) {b : BucketObject}
    (hb : b ∈ buckets.rows) {c : BucketObject} (hc : c.seconds ≠ b.seconds) :
    c ∈ (modifyBucket b.id f buckets).rows ↔ c ∈ buckets.rows := by
  rw [mem_modifyBucket]
  constructor
  · rintro ⟨a, ha, rfl⟩
    by_cases hid : a.id = b.id
    · rw [if_pos hid, (hf a).2.1, h.ids a ha b hb hid] at hc
      exact absurd rfl hc
    · rwa [if_neg hid]
  · intro hmem
    have hid : c.id ≠ b.id := fun hid => hc (congrArg _ (h.ids c hmem b hb hid))
    exact ⟨c, hmem, if_neg hid⟩

/-- What is in the table after the change of a bucket. -/
theorem mem_modifyBucket_iff (h : Keyed buckets) {b c : BucketObject} (hb : b ∈ buckets.rows) :
    c ∈ (modifyBucket b.id f buckets).rows ↔ c = f b ∨ (c ∈ buckets.rows ∧ c ≠ b) := by
  rw [mem_modifyBucket]
  constructor
  · rintro ⟨a, ha, rfl⟩
    by_cases hid : a.id = b.id
    · rw [if_pos hid, h.ids a ha b hb hid]
      exact .inl rfl
    · rw [if_neg hid]
      exact .inr ⟨ha, fun hab => hid (congrArg _ hab)⟩
  · rintro (rfl | ⟨hc, hne⟩)
    · exact ⟨b, hb, if_pos rfl⟩
    · exact ⟨c, hc, if_neg fun hid => hne (h.ids c hc b hb hid)⟩

/-- Fewer buckets are still keyed. -/
theorem Keyed.sub (h : Keyed buckets) (hnext : buckets'.nextId = buckets.nextId)
    (hsub : ∀ b ∈ buckets'.rows, b ∈ buckets.rows) : Keyed buckets' where
  below := fun b hb => hnext ▸ h.below b (hsub b hb)
  ids := fun a ha b hb => h.ids a (hsub a ha) b (hsub b hb)
  keys := fun a ha b hb => h.keys a (hsub a ha) b (hsub b hb)

/-- A bucket with a new key is created. -/
theorem Keyed.create (h : Keyed buckets) (make : ℕ → BucketObject)
    (hid : (make buckets.nextId).id = buckets.nextId)
    (hnew : ∀ b ∈ buckets.rows, (make buckets.nextId).seconds = b.seconds →
      (make buckets.nextId).openTime ≠ b.openTime) :
    ∃ buckets', createBucket make buckets = .ok buckets' ∧ Keyed buckets' ∧
      buckets'.nextId = buckets.nextId + 1 ∧
      ∀ b, b ∈ buckets'.rows ↔ b ∈ buckets.rows ∨ b = make buckets.nextId := by
  have hfree : (buckets.rows.any fun b => (make buckets.nextId).seconds = b.seconds &&
      (make buckets.nextId).openTime = b.openTime) = false := by
    rw [List.any_eq_false]
    intro b hb hclash
    simp only [Bool.and_eq_true, decide_eq_true_eq] at hclash
    exact hnew b hb hclash.1 hclash.2
  generalize hmake : make buckets.nextId = new at hid hnew hfree
  have hcreate : createBucket make buckets = .ok ⟨buckets.rows ++ [new], buckets.nextId + 1⟩ := by
    unfold createBucket Table.create
    simp only [hmake, Except.bind, hfree, Bool.false_eq_true, if_false]
  have hmem : ∀ b, b ∈ buckets.rows ++ [new] ↔ b ∈ buckets.rows ∨ b = new := fun b => by
    rw [List.mem_append, List.mem_singleton]
  refine ⟨_, hcreate, ⟨fun b hb => ?_, fun a ha b hb hab => ?_, fun a ha b hb hs ho => ?_⟩, rfl,
    hmem⟩
  · obtain hb | rfl := (hmem b).mp hb
    · exact (h.below b hb).trans (Nat.lt_succ_self _)
    · exact hid ▸ Nat.lt_succ_self _
  · obtain ha' | rfl := (hmem a).mp ha
    · obtain hb' | rfl := (hmem b).mp hb
      · exact h.ids a ha' b hb' hab
      · exact absurd (h.below a ha') (by omega)
    · obtain hb' | rfl := (hmem b).mp hb
      · exact absurd (h.below b hb') (by omega)
      · rfl
  · obtain ha' | rfl := (hmem a).mp ha
    · obtain hb' | rfl := (hmem b).mp hb
      · exact h.keys a ha' b hb' hs ho
      · exact absurd ho.symm (hnew a ha' hs.symm)
    · obtain hb' | rfl := (hmem b).mp hb
      · exact absurd ho (hnew b hb' hs)
      · rfl

end Keys

section Counts

variable {history : List BlockNotice} {n : BlockNotice} {b : BucketObject} {bucket t : ℕ}

/-- The multiple at or below a time is the greatest one. -/
theorem multiple_le (hbucket : bucket ≠ 0) {a : ℕ} (hdvd : bucket ∣ a) (hle : a ≤ t) :
    a = t / bucket * bucket ∨ a + bucket ≤ t / bucket * bucket := by
  obtain ⟨k, rfl⟩ := hdvd
  have hk : k ≤ t / bucket :=
    (Nat.le_div_iff_mul_le (Nat.pos_of_ne_zero hbucket)).mpr (by rwa [Nat.mul_comm])
  obtain rfl | hlt := hk.eq_or_lt
  · exact .inl (Nat.mul_comm _ _)
  · refine .inr ?_
    calc bucket * k + bucket = (k + 1) * bucket := by rw [Nat.add_mul, Nat.one_mul, Nat.mul_comm]
      _ ≤ t / bucket * bucket := Nat.mul_le_mul_right _ hlt

/-- A time lies before the end of its bucket. -/
theorem lt_multiple_add (hbucket : bucket ≠ 0) : t < t / bucket * bucket + bucket := by
  have hmod := Nat.mod_lt t (Nat.pos_of_ne_zero hbucket)
  have hdiv := Nat.div_add_mod' t bucket
  omega

/-- A time is in the bucket that opens at the multiple at or below it. -/
theorem within_iff (hbucket : bucket ≠ 0) (hseconds : b.seconds = bucket)
    (hdvd : bucket ∣ b.openTime) :
    within b n = true ↔ b.openTime = n.headBlockTime / bucket * bucket := by
  unfold within
  rw [Bool.and_eq_true, decide_eq_true_eq, decide_eq_true_eq, hseconds]
  constructor
  · rintro ⟨hle, hlt⟩
    obtain heq | hgap := multiple_le hbucket hdvd hle
    · exact heq
    · exact absurd (hgap.trans (Nat.div_mul_le_self _ _)) (not_le_of_gt hlt)
  · intro heq
    rw [heq]
    exact ⟨Nat.div_mul_le_self _ _, lt_multiple_add hbucket⟩

/-- The size of the transactions is counted in 32 bits. -/
theorem trxSize_toNat (n : BlockNotice) : n.trxSize.toNat = n.trxSizes.sum % 2 ^ 32 := by
  have hfold : ∀ (sizes : List ℕ) (start : UInt32),
      (sizes.foldl (fun size trx => size + UInt32.ofNat trx) start).toNat =
        (start.toNat + sizes.sum) % 2 ^ 32 := by
    intro sizes
    induction sizes with
    | nil => exact fun start => (Nat.mod_eq_of_lt start.toNat_lt).symm
    | cons size rest ih =>
      intro start
      rw [List.foldl_cons, ih, UInt32.toNat_add, UInt32.toNat_ofNat', List.sum_cons]
      omega
  have hstart := hfold n.trxSizes 0
  rwa [UInt32.toNat_zero, Nat.zero_add] at hstart

/-- The transactions are counted in 32 bits. -/
theorem numTrx_toNat (n : BlockNotice) : n.numTrx.toNat = n.trxSizes.length % 2 ^ 32 :=
  UInt32.toNat_ofNat'

/-- A block outside of a bucket does not count. -/
theorem Counted.skip (h : Counted history b) (hn : within b n = false) :
    Counted (history ++ [n]) b := by
  have hfilter : (history ++ [n]).filter (within b) = history.filter (within b) := by
    rw [List.filter_append, List.filter_singleton, hn]
    exact List.append_nil _
  refine ⟨?_, ?_, ?_⟩ <;> rw [hfilter]
  · exact h.blocks
  · exact h.transactions
  · exact h.bandwidth

/-- A block in a bucket counts. -/
theorem Counted.add (h : Counted history b) (hn : within b n = true) (hadds : Adds n b) :
    Counted (history ++ [n]) (addTransactions n (addBlock b)) := by
  have hwithin : within (addTransactions n (addBlock b)) = within b := rfl
  have hfilter : (history ++ [n]).filter (within b) = history.filter (within b) ++ [n] := by
    rw [List.filter_append, List.filter_singleton, hn]
    rfl
  have hblocks := hadds.blocks
  have htransactions := hadds.transactions
  have hbandwidth := hadds.bandwidth
  refine ⟨?_, ?_, ?_⟩ <;> rw [hwithin, hfilter]
  · rw [List.length_append, ← h.blocks]
    change (b.blocks + 1).toNat = b.blocks.toNat + 1
    rw [UInt32.toNat_add, UInt32.toNat_one, Nat.mod_eq_of_lt hblocks]
  · rw [List.map_append, List.sum_append, ← h.transactions]
    change (b.transactions + n.numTrx).toNat = b.transactions.toNat + (n.trxSizes.length + 0)
    rw [UInt32.toNat_add, numTrx_toNat]
    omega
  · rw [List.map_append, List.sum_append, ← h.bandwidth]
    change (b.bandwidth + n.trxSize).toNat = b.bandwidth.toNat + (n.trxSizes.sum + 0)
    rw [UInt32.toNat_add, trxSize_toNat]
    omega

/-- A new bucket counts nothing before the blocks that are in it. -/
theorem counted_new {id openTime : ℕ}
    (hbefore : ∀ m ∈ history, m.headBlockTime < openTime) :
    Counted history ⟨id, openTime, bucket, 0, 0, 0⟩ := by
  have hfilter : history.filter (within ⟨id, openTime, bucket, 0, 0, 0⟩) = [] := by
    rw [List.filter_eq_nil_iff]
    intro m hm hwithin
    unfold within at hwithin
    rw [Bool.and_eq_true, decide_eq_true_eq] at hwithin
    exact absurd (hbefore m hm) (not_lt_of_ge hwithin.1)
  exact ⟨by rw [hfilter]; rfl, by rw [hfilter]; rfl, by rw [hfilter]; rfl⟩

end Counts

section Rounds

variable {cfg : Settings} {history : List BlockNotice} {n : BlockNotice} {s s' : Statistics}
  {buckets : Table BucketObject} {bucket cutoff : ℕ}

/-- The buckets of one size are right, and one of them is newer than all other times. -/
structure SizeExact (history : List BlockNotice) (bucket : ℕ) (rows : List BucketObject) :
    Prop where
  counted : ∀ b ∈ rows, b.seconds = bucket → bucket ∣ b.openTime ∧ Counted history b
  current : history ≠ [] → ∃ b ∈ rows, b.seconds = bucket ∧
    (∃ m ∈ history, b.openTime ≤ m.headBlockTime) ∧
    ∀ m ∈ history, m.headBlockTime < b.openTime + bucket

/-- What is known of the buckets of a size only depends on these. -/
theorem SizeExact.congr {rows rows' : List BucketObject} (h : SizeExact history bucket rows)
    (hsame : ∀ b, b.seconds = bucket → (b ∈ rows' ↔ b ∈ rows)) :
    SizeExact history bucket rows' where
  counted := fun b hb hseconds => h.counted b ((hsame b hseconds).mp hb) hseconds
  current := fun hne => by
    obtain ⟨b, hb, hseconds, hrest⟩ := h.current hne
    exact ⟨b, (hsame b hseconds).mpr hb, hseconds, hrest⟩

/-- The order of the buckets compares the sizes, then the opening times. -/
theorem bucketOrder_iff {a b : BucketObject} : bucketOrder a b = true ↔
    a.seconds < b.seconds ∨ a.seconds = b.seconds ∧ a.openTime ≤ b.openTime := by
  unfold bucketOrder
  simp only [Bool.or_eq_true, Bool.and_eq_true, decide_eq_true_eq]

/-- Any two buckets are in order one way or the other. -/
theorem bucketOrder_total (a b : BucketObject) :
    bucketOrder a b = true ∨ bucketOrder b a = true := by
  rw [bucketOrder_iff, bucketOrder_iff]
  obtain hlt | heq | hgt := Nat.lt_trichotomy a.seconds b.seconds
  · exact .inl (.inl hlt)
  · exact (Nat.le_total a.openTime b.openTime).imp (fun h => .inr ⟨heq, h⟩)
      fun h => .inr ⟨heq.symm, h⟩
  · exact .inr (.inl hgt)

/-- The order of the buckets is transitive. -/
theorem bucketOrder_trans (a b c : BucketObject) (hab : bucketOrder a b = true)
    (hbc : bucketOrder b c = true) : bucketOrder a c = true := by
  rw [bucketOrder_iff] at hab hbc ⊢
  obtain hab | ⟨hab, hopen⟩ := hab
  · obtain hbc | ⟨hbc, -⟩ := hbc
    · exact .inl (hab.trans hbc)
    · exact .inl (hbc ▸ hab)
  · obtain hbc | ⟨hbc, hopen'⟩ := hbc
    · exact .inl (hab ▸ hbc)
    · exact .inr ⟨hab.trans hbc, Nat.le_trans hopen hopen'⟩

/-- A bucket is old if it has the size and opened before the cutoff. -/
theorem isOld_iff {b : BucketObject} :
    isOld bucket cutoff b = true ↔ b.seconds = bucket ∧ b.openTime < cutoff := by
  unfold isOld
  simp only [Bool.and_eq_true, decide_eq_true_eq]

/-- The loop removes the buckets that it walks over. -/
theorem removeOld_eq {rows walked : List BucketObject} {stop : BucketObject}
    (hwalk : walk (isOld bucket cutoff) rows = some (walked, stop)) (buckets : Table BucketObject) :
    ∃ left, removeOld bucket cutoff rows buckets = .ok (stop, left) ∧
      left.nextId = buckets.nextId ∧
      ∀ b, b ∈ left.rows ↔ b ∈ buckets.rows ∧ ∀ w ∈ walked, b.id ≠ w.id := by
  induction rows generalizing walked buckets with
  | nil => cases hwalk
  | cons row rest ih =>
    unfold removeOld
    cases hold : isOld bucket cutoff row with
    | true =>
      rw [walk_cons_of_pos hold] at hwalk
      obtain ⟨⟨walked', stop'⟩, hrest, hpair⟩ := Option.map_eq_some_iff.mp hwalk
      obtain ⟨rfl, rfl⟩ := Prod.mk.inj hpair
      obtain ⟨left, hleft, hnext, hmem⟩ := ih hrest (buckets.remove (·.id = row.id))
      refine ⟨left, hleft, hnext, fun b => ?_⟩
      rw [hmem, List.forall_mem_cons]
      unfold Table.remove
      rw [List.mem_filter, and_assoc]
      simp
    | false =>
      rw [walk_cons_of_neg hold] at hwalk
      obtain ⟨rfl, rfl⟩ := Prod.mk.inj (Option.some.inj hwalk)
      exact ⟨buckets, rfl, rfl, fun b => by simp⟩

/-- Pruning from a new bucket on: it stops at a bucket of the size that is not old, and all that
go are old ones of the size. -/
theorem removeOld_stops {new : BucketObject} (hkeyed : Keyed buckets) (hnew : new ∈ buckets.rows)
    (hseconds : new.seconds = bucket) (hfresh : ¬ new.openTime < cutoff) :
    ∃ stop left, removeOld bucket cutoff (bucketsFrom bucket buckets) buckets = .ok (stop, left) ∧
      stop ∈ left.rows ∧ stop.seconds = bucket ∧ ¬ stop.openTime < cutoff ∧ Keyed left ∧
      (∀ b ∈ left.rows, b ∈ buckets.rows) ∧ new ∈ left.rows ∧
      ∀ b ∈ buckets.rows, b.seconds ≠ bucket → b ∈ left.rows := by
  have hmemNew : new ∈ bucketsFrom bucket buckets :=
    mem_select.mpr ⟨hnew, decide_eq_true hseconds.ge⟩
  have hnot : isOld bucket cutoff new = false := by
    rw [← Bool.not_eq_true, isOld_iff]
    exact fun hold => hfresh hold.2
  obtain ⟨walked, stop, hwalk, hstop, hstopOld, hwalked, hleft⟩ :=
    walk_stops (pairwise_select bucketOrder_total bucketOrder_trans) hmemNew hnot
  obtain ⟨left, hremove, hnext, hmem⟩ := removeOld_eq hwalk buckets
  obtain ⟨hstopRow, hstopFrom⟩ := mem_select.mp hstop
  have hstopSize : stop.seconds = bucket := by
    refine le_antisymm ?_ (of_decide_eq_true hstopFrom)
    obtain hin | rfl | hle := hleft new hmemNew
    · rw [(hwalked new hin).2] at hnot
      cases hnot
    · exact hseconds.le
    · obtain hlt | ⟨heq, -⟩ := bucketOrder_iff.mp hle
      · exact hseconds ▸ hlt.le
      · exact (heq.trans hseconds).le
  have hkept : ∀ b ∈ buckets.rows, isOld bucket cutoff b = false → b ∈ left.rows := by
    intro b hb hnotOld
    refine (hmem b).mpr ⟨hb, fun w hw hid => ?_⟩
    obtain ⟨hwFrom, hwOld⟩ := hwalked w hw
    rw [hkeyed.ids b hb w (mem_select.mp hwFrom).1 hid, hwOld] at hnotOld
    cases hnotOld
  refine ⟨stop, left, hremove, hkept stop hstopRow hstopOld, hstopSize, fun hlt => ?_,
    hkeyed.sub hnext fun b hb => ((hmem b).mp hb).1, fun b hb => ((hmem b).mp hb).1,
    hkept new hnew hnot, fun b hb hsize => hkept b hb ?_⟩
  · rw [isOld_iff.mpr ⟨hstopSize, hlt⟩] at hstopOld
    cases hstopOld
  · rw [← Bool.not_eq_true, isOld_iff]
    exact fun hold => hsize hold.1

/-- The bucket that a block opens, before the numbers of the block. -/
def newBucket (id bucket openTime : ℕ) : BucketObject := ⟨id, openTime, bucket, 1, 0, 0⟩

/-- The buckets of a size are right after a block if its bucket is and all others are old ones. -/
theorem SizeExact.next {rows rows' : List BucketObject} (h : SizeExact history bucket rows)
    (hbucket : bucket ≠ 0) (hbefore : ∀ m ∈ history, m.headBlockTime < n.headBlockTime)
    {final : BucketObject} (hfinal : final ∈ rows')
    (hkey : final.seconds = bucket ∧ final.openTime = n.headBlockTime / bucket * bucket)
    (hcounted : Counted (history ++ [n]) final)
    (hothers : ∀ b ∈ rows', b.seconds = bucket → b = final ∨
      b ∈ rows ∧ b.openTime ≠ n.headBlockTime / bucket * bucket) :
    SizeExact (history ++ [n]) bucket rows' := by
  refine ⟨fun b hb hseconds => ?_, fun _ => ⟨final, hfinal, hkey.1, ⟨n, ?_, ?_⟩, fun m hm => ?_⟩⟩
  · obtain rfl | ⟨hold, hne⟩ := hothers b hb hseconds
    · exact ⟨hkey.2 ▸ Nat.dvd_mul_left _ _, hcounted⟩
    · obtain ⟨hdvd, hbcounted⟩ := h.counted b hold hseconds
      refine ⟨hdvd, hbcounted.skip ?_⟩
      rw [← Bool.not_eq_true, within_iff hbucket hseconds hdvd]
      exact hne
  · exact List.mem_append_right _ (List.mem_singleton_self n)
  · rw [hkey.2]
    exact Nat.div_mul_le_self _ _
  · have hend : n.headBlockTime < final.openTime + bucket := hkey.2 ▸ lt_multiple_add hbucket
    rcases List.mem_append.mp hm with hm | hm
    · exact (hbefore m hm).trans hend
    · rwa [List.mem_singleton.mp hm]

/-- Where no bucket is found, all blocks before it are before the new bucket. -/
theorem SizeExact.before_new {rows : List BucketObject} (h : SizeExact history bucket rows)
    (hbucket : bucket ≠ 0) (hbefore : ∀ m ∈ history, m.headBlockTime < n.headBlockTime)
    (hnone : ∀ b ∈ rows, hasKey bucket (n.headBlockTime / bucket * bucket) b = false) :
    ∀ m ∈ history, m.headBlockTime < n.headBlockTime / bucket * bucket := by
  intro m hm
  obtain ⟨b, hb, hseconds, ⟨m', hm', hopen⟩, hend⟩ := h.current (List.ne_nil_of_mem hm)
  have hle : b.openTime ≤ n.headBlockTime := Nat.le_trans hopen (hbefore m' hm').le
  obtain heq | hgap := multiple_le hbucket (h.counted b hb hseconds).1 hle
  · have hkey := hnone b hb
    unfold hasKey at hkey
    rw [decide_eq_true hseconds, decide_eq_true heq] at hkey
    cases hkey
  · exact lt_of_lt_of_le (hend m hm) hgap

/-- A round that finds its bucket. -/
theorem countFound_exact (hkeyed : Keyed s.buckets)
    (hexact : SizeExact history bucket s.buckets.rows) (hbucket : bucket ≠ 0)
    (hbefore : ∀ m ∈ history, m.headBlockTime < n.headBlockTime) {b : BucketObject}
    (hb : b ∈ s.buckets.rows)
    (hkey : b.seconds = bucket ∧ b.openTime = n.headBlockTime / bucket * bucket)
    (hadds : Adds n b) :
    let counted := modifyBucket b.id (addTransactions n) (modifyBucket b.id addBlock s.buckets)
    Keyed counted ∧ SizeExact (history ++ [n]) bucket counted.rows ∧
      ∀ c, c.seconds ≠ bucket → (c ∈ counted.rows ↔ c ∈ s.buckets.rows) := by
  have hmiddle : Keyed (modifyBucket b.id addBlock s.buckets) := hkeyed.modify addBlock_keepsKey
  have hadded : addBlock b ∈ (modifyBucket b.id addBlock s.buckets).rows :=
    (mem_modifyBucket_iff hkeyed hb).mpr (.inl rfl)
  have hmem (c : BucketObject) : c ∈ (modifyBucket b.id (addTransactions n)
      (modifyBucket b.id addBlock s.buckets)).rows ↔
        c = addTransactions n (addBlock b) ∨
          c ∈ (modifyBucket b.id addBlock s.buckets).rows ∧ c ≠ addBlock b :=
    mem_modifyBucket_iff hmiddle hadded
  obtain ⟨hdvd, hcounted⟩ := hexact.counted b hb hkey.1
  refine ⟨hmiddle.modify (addTransactions_keepsKey n), ?_, fun c hc => ?_⟩
  · refine hexact.next hbucket hbefore ((hmem _).mpr (.inl rfl)) hkey
      (hcounted.add ((within_iff hbucket hkey.1 hdvd).mpr hkey.2) hadds) fun c hc hseconds => ?_
    obtain rfl | ⟨hc, hne⟩ := (hmem c).mp hc
    · exact .inl rfl
    · obtain rfl | ⟨hold, hneb⟩ := (mem_modifyBucket_iff hkeyed hb).mp hc
      · exact absurd rfl hne
      · refine .inr ⟨hold, fun hopen => hneb ?_⟩
        exact hkeyed.keys c hold b hb (hseconds.trans hkey.1.symm) (hopen.trans hkey.2.symm)
  · rw [← hkey.1] at hc
    exact (modifyBucket_others hmiddle (addTransactions_keepsKey n) hadded hc).trans
      (modifyBucket_others hkeyed addBlock_keepsKey hb hc)

/-- Without transactions there is nothing to be added. -/
theorem addTransactions_of_nil (hnil : n.trxSizes = []) (b : BucketObject) :
    addTransactions n b = b := by
  have hnum : n.numTrx = 0 := by
    unfold BlockNotice.numTrx
    rw [hnil]
    rfl
  have hsize : n.trxSize = 0 := by
    unfold BlockNotice.trxSize
    rw [hnil]
    rfl
  unfold addTransactions
  rw [hnum, hsize, UInt32.add_zero, UInt32.add_zero]

/-- The numbers of a block that opens a bucket go to it, if there are any. -/
theorem openBucket_adds (hkeyed : Keyed s.buckets) (hbucket : bucket ≠ 0)
    (hnone : ∀ b ∈ s.buckets.rows, hasKey bucket (n.headBlockTime / bucket * bucket) b = false)
    (hopens : Opens cfg n bucket s.buckets) :
    ∃ itr s', openBucket cfg n.headBlockTime bucket (n.headBlockTime / bucket * bucket) s =
        .ok (itr, s') ∧ Keyed (modifyBucket itr.id (addTransactions n) s'.buckets) ∧
      addTransactions n (newBucket s.buckets.nextId bucket (n.headBlockTime / bucket * bucket)) ∈
        (modifyBucket itr.id (addTransactions n) s'.buckets).rows ∧
      (∀ c ∈ (modifyBucket itr.id (addTransactions n) s'.buckets).rows, c = addTransactions n
        (newBucket s.buckets.nextId bucket (n.headBlockTime / bucket * bucket)) ∨
          c ∈ s.buckets.rows) ∧
      ∀ c ∈ s.buckets.rows, c.seconds ≠ bucket →
        c ∈ (modifyBucket itr.id (addTransactions n) s'.buckets).rows := by
  generalize hopen : n.headBlockTime / bucket * bucket = openTime at hnone
  have hlt : n.headBlockTime < openTime + bucket := hopen ▸ lt_multiple_add hbucket
  obtain ⟨created, hcreate, hkeyed₁, -, hmem₁⟩ :=
    hkeyed.create (fun id => newBucket id bucket openTime) rfl fun b hb hseconds hsame => by
      have hkey := hnone b hb
      unfold hasKey at hkey
      rw [← hseconds, ← hsame] at hkey
      simp [newBucket] at hkey
  have hfresh : ¬ openTime < n.headBlockTime - bucket * cfg.maximumHistory := by
    have hle : bucket * 1 ≤ bucket * cfg.maximumHistory := Nat.mul_le_mul_left _ hopens.history
    rw [Nat.mul_one] at hle
    exact not_lt_of_ge (Nat.sub_le_of_le_add (hlt.le.trans (Nat.add_le_add_left hle _)))
  have hnewSize : (newBucket s.buckets.nextId bucket openTime).seconds = bucket := rfl
  obtain ⟨stop, left, hremove, hstop, hsize, hstays, hkeyed', hsub, hnew, hothers⟩ :=
    removeOld_stops hkeyed₁ ((hmem₁ _).mpr (.inr rfl)) hnewSize hfresh
  have hcutoff : cutoffOf n.headBlockTime bucket cfg.maximumHistory =
      some (n.headBlockTime - bucket * cfg.maximumHistory) := by
    unfold cutoffOf
    rw [if_neg (not_le_of_gt hopens.product), if_neg (not_lt_of_ge hopens.cutoff)]
  -- without transactions nothing changes, and otherwise the walk stops at the new bucket
  have hstopNew : n.trxSizes = [] ∨ stop = newBucket s.buckets.nextId bucket openTime := by
    refine hopens.oldest.imp_right fun hold => ?_
    obtain hin | hstopNew := (hmem₁ stop).mp (hsub stop hstop)
    · exact absurd (hold stop hin hsize) hstays
    · exact hstopNew
  have hrows (c : BucketObject) : c ∈ (modifyBucket stop.id (addTransactions n) left).rows ↔
      c = addTransactions n stop ∨ c ∈ left.rows ∧ c ≠ stop := mem_modifyBucket_iff hkeyed' hstop
  refine ⟨stop, ⟨left, s.buckets.nextId :: s.currentBuckets⟩, ?_,
    hkeyed'.modify (addTransactions_keepsKey n), (hrows _).mpr ?_, fun c hc => ?_,
    fun c hc hseconds => (hrows c).mpr (.inr ⟨hothers c ((hmem₁ c).mpr (.inl hc)) hseconds, ?_⟩)⟩
  · unfold openBucket
    change createBucket (fun id => newBucket id bucket openTime) s.buckets >>= _ = _
    rw [hcreate]
    change (if 0 < cfg.maximumHistory then _ else _) = _
    rw [if_pos hopens.history, hcutoff]
    change removeOld bucket _ (bucketsFrom bucket created) created >>= _ = _
    rw [hremove]
    rfl
  · obtain hnil | rfl := hstopNew
    · rw [addTransactions_of_nil hnil, addTransactions_of_nil hnil]
      exact (eq_or_ne _ _).imp_right fun hne => ⟨hnew, hne⟩
    · exact .inl rfl
  · have hleft : ∀ b ∈ left.rows,
        b = newBucket s.buckets.nextId bucket openTime ∨ b ∈ s.buckets.rows :=
      fun b hb => ((hmem₁ b).mp (hsub b hb)).symm
    obtain hnil | rfl := hstopNew
    · rw [addTransactions_of_nil hnil]
      rw [hrows, addTransactions_of_nil hnil] at hc
      obtain rfl | ⟨hc, -⟩ := hc
      · exact hleft c hstop
      · exact hleft c hc
    · obtain rfl | ⟨hc, hne⟩ := (hrows c).mp hc
      · exact .inl rfl
      · exact .inr ((hleft c hc).resolve_left hne)
  · rintro rfl
    exact hseconds hsize

/-- One round of the loop makes the buckets of its size right and leaves the others. -/
theorem countInBucket_exact (hkeyed : Keyed s.buckets)
    (hexact : SizeExact history bucket s.buckets.rows)
    (hbefore : ∀ m ∈ history, m.headBlockTime < n.headBlockTime)
    (hfits : SizeFits cfg n bucket s.buckets) :
    ∃ s', countInBucket cfg n s bucket = .ok s' ∧ Keyed s'.buckets ∧
      SizeExact (history ++ [n]) bucket s'.buckets.rows ∧
      ∀ b, b.seconds ≠ bucket → (b ∈ s'.buckets.rows ↔ b ∈ s.buckets.rows) := by
  have hbucket := hfits.nonzero
  unfold countInBucket
  rw [if_neg hbucket]
  cases hfind : s.buckets.find (hasKey bucket (n.headBlockTime / bucket * bucket)) with
  | some b =>
    have hb : b ∈ s.buckets.rows := List.mem_of_find?_eq_some hfind
    have hfound := List.find?_some hfind
    have hkey : b.seconds = bucket ∧ b.openTime = n.headBlockTime / bucket * bucket := by
      unfold hasKey at hfound
      simpa using hfound
    obtain ⟨hkeyed', hexact', hothers⟩ :=
      countFound_exact hkeyed hexact hbucket hbefore hb hkey (hfits.found b hb hfound)
    exact ⟨⟨modifyBucket b.id (addTransactions n) (modifyBucket b.id addBlock s.buckets),
      b.id :: s.currentBuckets⟩, by simp only [hfind]; rfl, hkeyed', hexact', hothers⟩
  | none =>
    have hnone : ∀ b ∈ s.buckets.rows,
        hasKey bucket (n.headBlockTime / bucket * bucket) b = false := by
      intro b hb
      rw [← Bool.not_eq_true]
      exact List.find?_eq_none.mp hfind b hb
    have hopens := hfits.opened hnone
    obtain ⟨itr, s', hopen, hkeyed', hfinal, hrows, hothers⟩ :=
      openBucket_adds hkeyed hbucket hnone hopens
    generalize hid : s.buckets.nextId = id at hfinal hrows
    have hcounted : Counted (history ++ [n])
        (addTransactions n (newBucket id bucket (n.headBlockTime / bucket * bucket))) := by
      have hempty : Counted history ⟨id, n.headBlockTime / bucket * bucket, bucket, 0, 0, 0⟩ :=
        counted_new (hexact.before_new hbucket hbefore hnone)
      refine hempty.add ?_ ⟨(by decide : (0 : UInt32).toNat + 1 < 2 ^ 32), ?_, ?_⟩
      · exact (within_iff hbucket rfl (Nat.dvd_mul_left _ _)).mpr rfl
      · exact (Nat.zero_add _).symm ▸ hopens.transactions
      · exact (Nat.zero_add _).symm ▸ hopens.bandwidth
    refine ⟨{ s' with buckets := modifyBucket itr.id (addTransactions n) s'.buckets }, ?_, hkeyed',
      hexact.next hbucket hbefore hfinal ⟨rfl, rfl⟩ hcounted fun b hb hseconds => ?_,
      fun b hseconds => ⟨fun hb => ?_, fun hb => hothers b hb hseconds⟩⟩
    · simp only [hfind]
      rw [hopen]
      rfl
    · refine (hrows b hb).imp_right fun hold => ⟨hold, fun hopenTime => ?_⟩
      have hkey := hnone b hold
      unfold hasKey at hkey
      rw [decide_eq_true hseconds, decide_eq_true hopenTime] at hkey
      cases hkey
    · obtain rfl | hold := hrows b hb
      · exact absurd rfl hseconds
      · exact hold

end Rounds

section Run

variable {cfg : Settings} {history : List BlockNotice} {n : BlockNotice} {s : Statistics}
  {bucket : ℕ}

/-- What holds after every block. -/
structure Sound (cfg : Settings) (history : List BlockNotice) (s : Statistics) : Prop where
  keyed : Keyed s.buckets
  empty : history = [] → s = .empty
  total : history ≠ [] → ∃ b ∈ s.buckets.rows, b.id = 0 ∧ b.seconds = 0
  sizes : ∀ bucket ∈ cfg.trackedBuckets, SizeExact history bucket s.buckets.rows

/-- Before the first block the counts are sound. -/
theorem sound_empty (cfg : Settings) : Sound cfg [] .empty where
  keyed := ⟨fun _ hb => absurd hb List.not_mem_nil, fun _ hb => absurd hb List.not_mem_nil,
    fun _ hb => absurd hb List.not_mem_nil⟩
  empty := fun _ => rfl
  total := fun hne => absurd rfl hne
  sizes := fun _ _ => ⟨fun _ hb => absurd hb List.not_mem_nil, fun hne => absurd rfl hne⟩

/-- The bucket of the whole chain is there after a block, and the others stay. -/
theorem countBlock_exact (h : Sound cfg history s) (hnum : n.blockNum = 1 ↔ history = []) :
    ∃ s', countBlock n s = .ok s' ∧ Keyed s'.buckets ∧
      (∃ b ∈ s'.buckets.rows, b.id = 0 ∧ b.seconds = 0) ∧
      ∀ b, b.seconds ≠ 0 → (b ∈ s'.buckets.rows ↔ b ∈ s.buckets.rows) := by
  unfold countBlock
  by_cases hempty : history = []
  · rw [if_pos (hnum.mpr hempty), h.empty hempty]
    obtain ⟨created, hcreate, hkeyed, -, hmem⟩ := (h.empty hempty ▸ h.keyed).create
      (fun id => ⟨id, n.timestamp, 0, 1, 0, 0⟩) rfl fun b hb => by cases hb
    refine ⟨⟨created, [0]⟩, ?_, hkeyed, ⟨_, (hmem _).mpr (.inr rfl), rfl, rfl⟩,
      fun b hb => (hmem b).trans ?_⟩
    · rw [hcreate]
      rfl
    · exact or_iff_left fun hnew => hb (by rw [hnew])
  · rw [if_neg (hnum.not.mpr hempty)]
    obtain ⟨z, hz, hid, hseconds⟩ := h.total hempty
    have hothers (b : BucketObject) (hb : b.seconds ≠ 0) :
        b ∈ (modifyBucket 0 addBlock s.buckets).rows ↔ b ∈ s.buckets.rows := by
      rw [← hid]
      exact modifyBucket_others h.keyed addBlock_keepsKey hz (hseconds ▸ hb)
    have hadded : addBlock z ∈ (modifyBucket 0 addBlock s.buckets).rows := by
      rw [← hid]
      exact (mem_modifyBucket_iff h.keyed hz).mpr (.inl rfl)
    cases hfind : s.buckets.find fun b => decide (b.id = 0) with
    | none => exact absurd (decide_eq_true hid) (List.find?_eq_none.mp hfind z hz)
    | some b =>
      exact ⟨⟨modifyBucket 0 addBlock s.buckets, [0]⟩, rfl, h.keyed.modify addBlock_keepsKey,
        ⟨addBlock z, hadded, hid, hseconds⟩, hothers⟩

/-- The condition for a size only looks at the buckets of the size. -/
theorem SizeFits.congr {buckets buckets' : Table BucketObject} (h : SizeFits cfg n bucket buckets)
    (hsame : ∀ b, b.seconds = bucket → (b ∈ buckets'.rows ↔ b ∈ buckets.rows)) :
    SizeFits cfg n bucket buckets' := by
  have hsize {b : BucketObject} {t : ℕ} (hkey : hasKey bucket t b = true) : b.seconds = bucket := by
    unfold hasKey at hkey
    rw [Bool.and_eq_true] at hkey
    exact of_decide_eq_true hkey.1
  refine ⟨h.nonzero, fun b hb hkey => h.found b ((hsame b (hsize hkey)).mp hb) hkey,
    fun hnone => ?_⟩
  have hopens := h.opened fun b hb => by
    by_contra hkey
    rw [Bool.not_eq_false] at hkey
    exact absurd hkey (Bool.not_eq_true _ ▸ hnone b ((hsame b (hsize hkey)).mpr hb))
  refine { hopens with oldest := hopens.oldest.imp_right fun hold b hb hseconds => ?_ }
  exact hold b ((hsame b hseconds).mp hb) hseconds

/-- The loop over the sizes: each round leaves the sizes of the others. -/
theorem countSizes_exact {sizes : List ℕ} (hnodup : sizes.Nodup) (hkeyed : Keyed s.buckets)
    (hbefore : ∀ m ∈ history, m.headBlockTime < n.headBlockTime)
    (hexact : ∀ bucket ∈ sizes, SizeExact history bucket s.buckets.rows)
    (hfits : ∀ bucket ∈ sizes, SizeFits cfg n bucket s.buckets) :
    ∃ s', sizes.foldlM (countInBucket cfg n) s = .ok s' ∧ Keyed s'.buckets ∧
      (∀ bucket ∈ sizes, SizeExact (history ++ [n]) bucket s'.buckets.rows) ∧
      ∀ b, b.seconds ∉ sizes → (b ∈ s'.buckets.rows ↔ b ∈ s.buckets.rows) := by
  induction sizes generalizing s with
  | nil => exact ⟨s, rfl, hkeyed, fun _ hb => absurd hb List.not_mem_nil, fun _ _ => Iff.rfl⟩
  | cons size rest ih =>
    obtain ⟨hnot, hnodup⟩ := List.nodup_cons.mp hnodup
    obtain ⟨s₁, hround, hkeyed₁, hexact₁, hothers₁⟩ := countInBucket_exact hkeyed
      (hexact size List.mem_cons_self) hbefore (hfits size List.mem_cons_self)
    have hsame (bucket : ℕ) (hbucket : bucket ∈ rest) (b : BucketObject)
        (hseconds : b.seconds = bucket) : b ∈ s₁.buckets.rows ↔ b ∈ s.buckets.rows :=
      hothers₁ b fun heq => hnot (heq ▸ hseconds ▸ hbucket)
    obtain ⟨s', hrest, hkeyed', hexact', hothers'⟩ := ih hnodup hkeyed₁
      (fun bucket hb => (hexact bucket (List.mem_cons_of_mem _ hb)).congr (hsame bucket hb))
      (fun bucket hb => (hfits bucket (List.mem_cons_of_mem _ hb)).congr (hsame bucket hb))
    refine ⟨s', ?_, hkeyed', fun bucket hb => ?_, fun b hb => ?_⟩
    · rw [List.foldlM_cons, hround]
      exact hrest
    · obtain rfl | hb := List.mem_cons.mp hb
      · exact hexact₁.congr fun b hseconds => hothers' b (hseconds ▸ hnot)
      · exact hexact' bucket hb
    · rw [List.mem_cons, not_or] at hb
      exact (hothers' b hb.2).trans (hothers₁ b hb.1)

/-- A block that meets the condition for all sizes leaves all buckets right. -/
theorem Sound.block (h : Sound cfg history s) (hnum : n.blockNum = 1 ↔ history = [])
    (hbefore : ∀ m ∈ history, m.headBlockTime < n.headBlockTime)
    (hfits : ∀ bucket ∈ cfg.trackedBuckets, SizeFits cfg n bucket s.buckets) :
    ∃ s', onBlock cfg n s = .ok s' ∧ Sound cfg (history ++ [n]) s' := by
  obtain ⟨s₁, hcount, hkeyed₁, ⟨z, hz, hid, hseconds⟩, hothers₁⟩ := countBlock_exact h hnum
  have hsame (bucket : ℕ) (hbucket : bucket ∈ cfg.trackedBuckets) (b : BucketObject)
      (hb : b.seconds = bucket) : b ∈ s₁.buckets.rows ↔ b ∈ s.buckets.rows :=
    hothers₁ b (hb ▸ (hfits bucket hbucket).nonzero)
  obtain ⟨s', hrest, hkeyed', hexact', hothers'⟩ := countSizes_exact
    (cfg.ascending.imp fun hlt => hlt.ne) hkeyed₁ hbefore
    (fun bucket hb => (h.sizes bucket hb).congr (hsame bucket hb))
    (fun bucket hb => (hfits bucket hb).congr (hsame bucket hb))
  have hzero : z.seconds ∉ cfg.trackedBuckets :=
    fun hmem => (hfits z.seconds hmem).nonzero hseconds
  refine ⟨s', ?_, hkeyed', fun hnil => ?_, fun _ => ⟨z, (hothers' z hzero).mpr hz, hid, hseconds⟩,
    hexact'⟩
  · unfold onBlock
    rw [hcount]
    exact hrest
  · exact absurd hnil (List.append_ne_nil_of_right_ne_nil _ (List.cons_ne_nil _ _))

/-- A further block is counted after the others. -/
theorem after_append (cfg : Settings) (blocks : List BlockNotice) (n : BlockNotice) :
    after cfg (blocks ++ [n]) = after cfg blocks >>= onBlock cfg n := by
  unfold after
  rw [List.foldlM_append]
  refine bind_congr fun s => ?_
  rw [List.foldlM_cons]
  exact bind_pure _

/-- In every run whose blocks all meet the condition the buckets are right. -/
theorem after_sound {blocks : List BlockNotice} (hchain : Chained blocks)
    (hfits : EachFits cfg blocks) : ∃ s, after cfg blocks = .ok s ∧ Sound cfg blocks s := by
  induction blocks using List.reverseRecOn with
  | nil => exact ⟨.empty, rfl, sound_empty cfg⟩
  | append_singleton done n ih =>
    obtain ⟨hdone, -, hbefore⟩ := List.pairwise_append.mp hchain.times
    have hnumbers := hchain.numbers
    rw [List.map_append, List.length_append, List.length_singleton, List.range'_concat] at hnumbers
    obtain ⟨hfront, hlast⟩ := List.append_inj' hnumbers rfl
    obtain ⟨s, hafter, hsound⟩ := ih ⟨hfront, hdone⟩ fun before m rest hsplit =>
      hfits before m (rest ++ [n]) (by rw [hsplit, List.append_assoc, List.cons_append])
    have hnum : n.blockNum = 1 ↔ done = [] := by
      have hblockNum : n.blockNum = 1 + 1 * done.length := List.singleton_injective hlast
      rw [hblockNum, ← List.length_eq_zero_iff]
      omega
    obtain ⟨s', hblock, hsound'⟩ := hsound.block hnum
      (fun m hm => hbefore m hm n (List.mem_singleton_self n)) (hfits done n [] rfl s hafter)
    refine ⟨s', ?_, hsound'⟩
    rw [after_append, hafter]
    exact hblock

/-- If every block that opens a bucket fits, the buckets count the blocks. -/
theorem buckets_counted (cfg : Settings) (blocks : List BlockNotice) (hchain : Chained blocks)
    (hfits : EachFits cfg blocks) :
    ∃ s, after cfg blocks = .ok s ∧ AllCounted cfg blocks s := by
  obtain ⟨s, hafter, hsound⟩ := after_sound hchain hfits
  exact ⟨s, hafter, fun b hb htracked => ((hsound.sizes b.seconds htracked).counted b hb rfl).2⟩

/-- Without blocks each of them fits. -/
theorem eachFits_nil (cfg : Settings) : EachFits cfg [] :=
  fun _ _ _ h => absurd h.symm (List.append_ne_nil_of_right_ne_nil _ (List.cons_ne_nil _ _))

/-- A further block that fits comes after blocks that do. -/
theorem EachFits.append {blocks : List BlockNotice} (h : EachFits cfg blocks)
    (hn : ∀ s, after cfg blocks = .ok s →
      ∀ bucket ∈ cfg.trackedBuckets, SizeFits cfg n bucket s.buckets) :
    EachFits cfg (blocks ++ [n]) := by
  intro done m rest hsplit s hafter
  obtain rfl | ⟨front, last, rfl⟩ := List.eq_nil_or_concat rest
  · obtain ⟨rfl, hm⟩ := List.append_inj' hsplit rfl
    rw [← List.singleton_injective hm]
    exact hn s hafter
  · rw [List.concat_eq_append, ← List.cons_append, ← List.append_assoc] at hsplit
    exact h done m front (List.append_inj' hsplit rfl).1 s hafter

end Run

section Sample

/-- The rows of a run that comes to its end. -/
theorem rows_of_after {cfg : Settings} {blocks : List BlockNotice} {rows : List BucketObject}
    (hrows : (after cfg blocks).map (·.buckets.rows) = .ok rows) {s : Statistics}
    (hafter : after cfg blocks = .ok s) : s.buckets.rows = rows := by
  rw [hafter] at hrows
  exact Except.ok.inj hrows

/-- Minutes, of which one is kept. -/
def minutes : Settings := ⟨[60], List.pairwise_singleton _ _, 1⟩

/-- Two blocks of one minute and one that opens a later minute. -/
def sampleBlocks : List BlockNotice :=
  [⟨1, 120, 120, [200]⟩, ⟨2, 123, 123, [100, 150]⟩, ⟨3, 243, 243, [300]⟩]

/-- The condition on a block, from the rows before it. -/
theorem sizeFits_minutes {n : BlockNotice} {rows : List BucketObject}
    (hfound : ∀ b ∈ rows, hasKey 60 (n.headBlockTime / 60 * 60) b = true → Adds n b)
    (hopened : (∀ b ∈ rows, hasKey 60 (n.headBlockTime / 60 * 60) b = false) →
      Opens minutes n 60 ⟨rows, 0⟩) {s : Statistics} (hrows : s.buckets.rows = rows) :
    ∀ bucket ∈ minutes.trackedBuckets, SizeFits minutes n bucket s.buckets := by
  intro bucket hbucket
  obtain rfl := List.mem_singleton.mp hbucket
  have hfits : SizeFits minutes n 60 ⟨rows, 0⟩ := ⟨by decide, hfound, hopened⟩
  exact hfits.congr fun b _ => by rw [hrows]

/-- The sample blocks are counted in buckets of a minute. -/
theorem buckets_counted_minutes :
    ∃ s, after minutes sampleBlocks = .ok s ∧ AllCounted minutes sampleBlocks s := by
  have hrows₁ : (after minutes [⟨1, 120, 120, [200]⟩]).map (·.buckets.rows) =
      .ok [⟨0, 120, 0, 1, 0, 0⟩, ⟨1, 120, 60, 1, 200, 1⟩] := by decide +kernel
  have hrows₂ : (after minutes [⟨1, 120, 120, [200]⟩, ⟨2, 123, 123, [100, 150]⟩]).map
      (·.buckets.rows) = .ok [⟨0, 120, 0, 2, 0, 0⟩, ⟨1, 120, 60, 2, 450, 3⟩] := by decide +kernel
  have hfits₁ : EachFits minutes ([] ++ [⟨1, 120, 120, [200]⟩]) := by
    refine (eachFits_nil _).append fun s hafter => ?_
    refine sizeFits_minutes (fun b hb => absurd hb List.not_mem_nil) (fun _ => ?_)
      (rows_of_after rfl hafter)
    exact ⟨by decide, by decide, by decide, by decide, by decide,
      .inr fun b hb => absurd hb List.not_mem_nil⟩
  have hfits₂ : EachFits minutes ([⟨1, 120, 120, [200]⟩] ++ [⟨2, 123, 123, [100, 150]⟩]) := by
    refine hfits₁.append fun s hafter => ?_
    refine sizeFits_minutes (fun b hb hkey => ?_) (fun hnone => ?_) (rows_of_after hrows₁ hafter)
    · obtain rfl | hb := List.mem_cons.mp hb
      · exact absurd hkey (by decide)
      · rw [List.mem_singleton.mp hb]
        exact ⟨by decide, by decide, by decide⟩
    · exact absurd (hnone _ (List.mem_cons_of_mem _ List.mem_cons_self)) (by decide)
  refine buckets_counted minutes sampleBlocks ⟨by decide, by decide⟩ ?_
  refine hfits₂.append fun s hafter => ?_
  refine sizeFits_minutes (fun b hb hkey => ?_) (fun _ => ?_) (rows_of_after hrows₂ hafter)
  · obtain rfl | hb := List.mem_cons.mp hb
    · exact absurd hkey (by decide)
    · rw [List.mem_singleton.mp hb] at hkey
      exact absurd hkey (by decide)
  · refine ⟨by decide, by decide, by decide, by decide, by decide, .inr fun b hb hseconds => ?_⟩
    obtain rfl | hb := List.mem_cons.mp hb
    · exact absurd hseconds (by decide)
    · rw [List.mem_singleton.mp hb]
      decide

/-- The default options. -/
def defaultSettings : Settings := ⟨[60, 3600, 21600, 86400, 604800, 2592000], by decide, 100⟩

/-- A block, and a block of the next minute with a transaction. -/
def secondMinute : List BlockNotice :=
  [⟨1, 1534070003, 1534070003, []⟩, ⟨2, 1534070043, 1534070043, [200]⟩]

/-- The transaction of the block that opens the second minute is counted in the first one. -/
theorem opening_block_lost :
    Chained secondMinute ∧ ∃ s, after defaultSettings secondMinute = .ok s ∧
      (⟨1, 1534069980, 60, 1, 200, 1⟩ : BucketObject) ∈ s.buckets.rows ∧
      (⟨7, 1534070040, 60, 1, 0, 0⟩ : BucketObject) ∈ s.buckets.rows ∧
      ¬ AllCounted defaultSettings secondMinute s := by
  have hrows : (after defaultSettings secondMinute).map
      (fun s => s.buckets.rows.filter fun b => b.seconds = 60) =
        .ok [⟨1, 1534069980, 60, 1, 200, 1⟩, ⟨7, 1534070040, 60, 1, 0, 0⟩] := by decide +kernel
  cases hafter : after defaultSettings secondMinute with
  | error e =>
    rw [hafter] at hrows
    cases hrows
  | ok s =>
    rw [hafter] at hrows
    have hfilter := Except.ok.inj hrows
    have hfirst : (⟨1, 1534069980, 60, 1, 200, 1⟩ : BucketObject) ∈ s.buckets.rows :=
      List.mem_of_mem_filter (hfilter ▸ List.mem_cons_self)
    have hsecond : (⟨7, 1534070040, 60, 1, 0, 0⟩ : BucketObject) ∈ s.buckets.rows :=
      List.mem_of_mem_filter (hfilter ▸ List.mem_cons_of_mem _ List.mem_cons_self)
    refine ⟨⟨by decide, by decide⟩, s, rfl, hfirst, hsecond, fun hcounted => ?_⟩
    have htransactions := (hcounted _ hfirst List.mem_cons_self).transactions
    exact absurd htransactions (by decide +kernel)

end Sample

end Whaleshares.ChainStatistics
