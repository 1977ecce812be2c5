import Whaleshares.BlockLookup

/-!
# The handshake of two nodes

How a node tells a peer which blocks it has, and how the peer answers, from
`app/application.cpp`. The synopsis of a chain starts at the last irreversible block and halves
the distance to the head with every id, in unsigned arithmetic of 32 bits. The peer scans the
synopsis from its end for a block that it knows and that is on its own main chain, and answers
with the ids of its main chain from that block on.

A loop of the source that goes on after more rounds than its variables have values never ends.
-/

namespace Whaleshares.SyncHandshake

open Config Fc Protocol Objects Program Database ApplyBlock Genesis ChainRun ChainTip Footprint
  LastIrreversible Irreversibility BlockLookup Node Process

section Synopsis

variable (env : Env)

/-- `is_included_block` -/
def isIncludedBlock (id : BlockId) (n : Node) : Except Exc Bool := do
  let preferred ← getBlockIdForNum env n id.num
  pure (id = preferred)

/-- The exception for a value that the source reads from an empty vector. -/
def present {α : Type} (value : Option α) (text : String) : Except Exc α :=
  match value with
  | some a => .ok a
  | none => .error ⟨.undefinedBehaviour, text⟩

/-- `get_block_ids_on_fork` -/
def getBlockIdsOnFork (headOfFork : BlockId) (n : Node) : Except Exc (List BlockId) := do
  let branches ← n.forkDb.fetchBranchFrom n.headBlockId headOfFork
  let last ← present branches.1.getLast? "branches.first.back()"
  pure (branches.2.map (·.id) ++ [last.data.header.previous])

/-- `last_non_undoable_block_num` -/
def lastNonUndoableBlockNum (n : Node) : ℕ := n.state.dgp.lastIrreversibleBlockNum

/-- The blocks that a synopsis describes. -/
structure Span where
  /-- `low_block_num` -/
  low : ℕ
  /-- `non_fork_high_block_num` -/
  nonForkHigh : ℕ
  /-- `high_block_num` -/
  high : ℕ
  /-- `fork_history`, the oldest id first. -/
  forkHistory : List BlockId

/-- The blocks up to a reference point on the main chain. -/
def mainSpan (reference : BlockId) (n : Node) : Span where
  low := if reference.num < lastNonUndoableBlockNum n then reference.num
    else lastNonUndoableBlockNum n
  nonForkHigh := reference.num
  high := reference.num
  forkHistory := []

/-- The blocks up to a reference point on a fork. -/
def forkSpan (reference : BlockId) (n : Node) : Except Exc Span := do
  let history ← getBlockIdsOnFork reference n
  let ancestor ← present history.getLast? "fork_history.back()"
  let forkHistory := history.dropLast.reverse
  if ancestor.num < lastNonUndoableBlockNum n then
    .error ⟨.blockOlderThanUndoHistory, "Peer is are on a fork I'm unable to switch to"⟩
  else
    pure ⟨lastNonUndoableBlockNum n, ancestor.num, (ancestor.num + forkHistory.length) % 2 ^ 32,
      forkHistory⟩

/-- The blocks that a synopsis describes, if there are any. -/
def describedSpan (reference : BlockId) (n : Node) : Except Exc (Option Span) :=
  if reference ≠ .null then do
    let included ← isIncludedBlock env reference n
    if included then pure (some (mainSpan reference n))
    else do
      let span ← forkSpan reference n
      pure (some span)
  else if n.headNum = 0 then pure none
  else pure (some ⟨lastNonUndoableBlockNum n, n.headNum, n.headNum, []⟩)

/-- The id of the synopsis for a block number. -/
def idAt (n : Node) (span : Span) (num : ℕ) : Except Exc BlockId :=
  if num ≤ span.nonForkHigh then getBlockIdForNum env n num
  else present span.forkHistory[num - span.nonForkHigh - 1]?
    "fork_history[low_block_num - non_fork_high_block_num - 1]"

/-- The block number after `low` in a synopsis. -/
def nextLow (trueHigh low : ℕ) : ℕ :=
  (low + (trueHigh + (2 ^ 32 - low) + 2) % 2 ^ 32 / 2) % 2 ^ 32

/-- The do-while loop of `get_blockchain_synopsis`. -/
def collect (n : Node) (span : Span) (trueHigh : ℕ) : ℕ → ℕ → Except Exc (List BlockId)
  | 0, _ => .error ⟨.undefinedBehaviour, "while( low_block_num <= high_block_num )"⟩
  | rounds + 1, low => do
    let id ← idAt env n span low
    if nextLow trueHigh low ≤ span.high then do
      let rest ← collect n span trueHigh rounds (nextLow trueHigh low)
      pure (id :: rest)
    else pure [id]

/-- `get_blockchain_synopsis` -/
def getBlockchainSynopsis (reference : BlockId) (blocksAfterReference : ℕ) (n : Node) :
    Except Exc (List BlockId) := do
  match ← describedSpan env reference n with
  | none => pure []
  | some span =>
    let low := if span.low = 0 then 1 else span.low
    collect env n span ((span.high + blocksAfterReference) % 2 ^ 32) (2 ^ 32) low

end Synopsis

section Answer

variable (env : Env)

/-- Whether `get_block_ids` takes an id of the synopsis as the last known block. -/
def isLastKnown (id : BlockId) (n : Node) : Except Exc Bool :=
  if id = .null then pure true
  else if isKnownBlock env id n then isIncludedBlock env id n
  else pure false

/-- The scan of `get_block_ids` over the synopsis, the last id first. -/
def findLastKnown (n : Node) : List BlockId → Except Exc BlockId
  | [] => .error ⟨.peerIsOnAnUnreachableFork,
      "Unable to provide a list of blocks starting at any of the blocks in peer's synopsis"⟩
  | id :: rest => do
    if ← isLastKnown env id n then pure id else findLastKnown n rest

/-- The loop of `get_block_ids` that lists ids, with room for `room` of them. -/
def listIds (n : Node) : ℕ → ℕ → ℕ → Except Exc (List BlockId)
  | 0, _, _ => .error ⟨.undefinedBehaviour, "++num"⟩
  | rounds + 1, room, num =>
    if num ≤ n.headNum ∧ 0 < room then
      if 0 < num then do
        let id ← getBlockIdForNum env n num
        let rest ← listIds n rounds (room - 1) ((num + 1) % 2 ^ 32)
        pure (id :: rest)
      else listIds n rounds room ((num + 1) % 2 ^ 32)
    else pure []

/-- `remaining_item_count` -/
def remainingItemCount (n : Node) (result : List BlockId) : ℕ :=
  match result.getLast? with
  | some last => if last.num < n.headNum then n.headNum - last.num else 0
  | none => 0

/-- `get_block_ids`, with the number of remaining items. -/
def getBlockIds (synopsis : List BlockId) (limit : ℕ) (n : Node) :
    Except Exc (List BlockId × ℕ) := do
  if n.headNum = 0 then pure ([], 0)
  else do
    let lastKnown ←
      if synopsis = [] ∨ synopsis = [.null] then pure .null
      else findLastKnown env n synopsis.reverse
    let result ← listIds env n (2 ^ 33) limit lastKnown.num
    pure (result, remainingItemCount n result)

end Answer

section Halving

variable {high low rounds : ℕ}

/-- The heights from `low` to `high` that halve the distance to `high`, in so many rounds. -/
def heightsFrom (high : ℕ) : ℕ → ℕ → List ℕ
  | 0, _ => []
  | rounds + 1, low =>
    low :: if low < high then heightsFrom high rounds (low + (high - low + 2) / 2) else []

/-- The heights of a synopsis. -/
def synopsisHeights (low high : ℕ) : List ℕ := heightsFrom high (high - low + 1) low

/-- No height is below the lowest. -/
theorem le_of_mem_heightsFrom {k : ℕ} (h : k ∈ heightsFrom high rounds low) : low ≤ k := by
  induction rounds generalizing low with
  | zero => cases h
  | succ rounds ih =>
    unfold heightsFrom at h
    rcases List.mem_cons.mp h with rfl | h
    · exact le_rfl
    · split at h
      · have hle := ih h
        omega
      · cases h

/-- No height is above the highest. -/
theorem mem_heightsFrom_le {k : ℕ} (hlow : low ≤ high) (h : k ∈ heightsFrom high rounds low) :
    k ≤ high := by
  induction rounds generalizing low with
  | zero => cases h
  | succ rounds ih =>
    unfold heightsFrom at h
    rcases List.mem_cons.mp h with rfl | h
    · exact hlow
    · split at h
      · exact ih (by omega) h
      · cases h

/-- The heights rise. -/
theorem heightsFrom_rising : (heightsFrom high rounds low).Pairwise (· < ·) := by
  induction rounds generalizing low with
  | zero => exact .nil
  | succ rounds ih =>
    unfold heightsFrom
    refine List.pairwise_cons.mpr ⟨fun k hk => ?_, ?_⟩
    · split at hk
      · have hle := le_of_mem_heightsFrom hk
        omega
      · cases hk
    · split
      · exact ih
      · exact .nil

/-- The halving meets the end of the way: the distance `d` becomes `(d + 1) / 2 - 1`, and only
the distance zero leads beyond. -/
theorem heightsFrom_getLast? (hlow : low ≤ high) (hrounds : high - low < rounds) :
    (heightsFrom high rounds low).getLast? = some high := by
  induction rounds generalizing low with
  | zero => omega
  | succ rounds ih =>
    unfold heightsFrom
    by_cases hlt : low < high
    · rw [if_pos hlt]
      have hrest : (heightsFrom high rounds (low + (high - low + 2) / 2)).getLast? = some high :=
        ih (by omega) (by omega)
      rw [List.getLast?_cons, hrest]
      rfl
    · have heq : low = high := by omega
      rw [if_neg hlt, heq]
      rfl

/-- The unsigned arithmetic of the source does not wrap. -/
theorem nextLow_eq (hlow : low ≤ high) (hhigh : high + 1 < 2 ^ 32) (hpos : 1 ≤ low) :
    nextLow high low = low + (high - low + 2) / 2 := by
  have hsum : high + (2 ^ 32 - low) + 2 = high - low + 2 + 2 ^ 32 := by omega
  unfold nextLow
  rw [hsum, Nat.add_mod_right, Nat.mod_eq_of_lt (a := high - low + 2) (by omega),
    Nat.mod_eq_of_lt (by omega)]

end Halving

section Nodes

variable {env : Env} {initSupply : ℕ} {chain chain' : List BlockCall} {n r : Node} {k : ℕ}

/-- A node whose main chain is the given one, and whose lookups by number find it. -/
structure OnChain (env : Env) (initSupply : ℕ) (chain : List BlockCall) (n : Node) : Prop where
  ancestry : Ancestry env initSupply chain n
  lookup : ∀ k, findBlockIdForNum env n k = mainId env chain k
  stamps : ∀ call ∈ chain, call.block.header.timestamp < 2 ^ 32

/-- The number of the head is the length of the chain. -/
theorem OnChain.headNum (h : OnChain env initSupply chain n) : n.headNum = chain.length := by
  obtain ⟨s, hs, htip⟩ := h.ancestry
  have hnum : n.headNum = s.dgp.headBlockNumber := congrArg (fun x => x.2.1) htip
  rw [hnum, (Reaches.tip hs).2.1]

/-- The last irreversible number is within the chain. -/
theorem OnChain.irreversible (h : OnChain env initSupply chain n) :
    lastNonUndoableBlockNum n ≤ chain.length := by
  obtain ⟨s, hs, htip⟩ := h.ancestry
  have hlib : lastNonUndoableBlockNum n = s.dgp.lastIrreversibleBlockNum :=
    congrArg (fun x => x.2.2) htip
  rw [hlib]
  exact (Reaches.trailing hs).low.below.trans (Nat.sub_le _ _)

/-- The length of a chain fits into 32 bits. -/
theorem OnChain.length_lt (h : OnChain env initSupply chain n) : chain.length + 1 < 2 ^ 32 := by
  obtain ⟨s, hs, -⟩ := h.ancestry
  have hlt := BlockLookup.length_lt hs h.stamps
  have hgenesis : 1 ≤ wlsGenesisTime := by decide
  exact lt_of_le_of_lt (Nat.add_le_add_left hgenesis _) hlt

/-- A main-chain id has its number in it. -/
theorem OnChain.num_mainId (h : OnChain env initSupply chain n) (hpos : 1 ≤ k)
    (hk : k ≤ chain.length) : (mainId env chain k).num = k := by
  obtain ⟨s, hs, -⟩ := h.ancestry
  exact BlockLookup.num_mainId hs hpos hk

/-- A main-chain id is not the null id. -/
theorem OnChain.mainId_ne_null (h : OnChain env initSupply chain n) (hpos : 1 ≤ k)
    (hk : k ≤ chain.length) : mainId env chain k ≠ .null := by
  obtain ⟨s, hs, -⟩ := h.ancestry
  exact BlockLookup.mainId_ne_null hs hpos hk

/-- The id for a number of the chain is its main-chain id. -/
theorem OnChain.getBlockIdForNum (h : OnChain env initSupply chain n) (hpos : 1 ≤ k)
    (hk : k ≤ chain.length) : getBlockIdForNum env n k = .ok (mainId env chain k) := by
  have hne := h.mainId_ne_null hpos hk
  rw [← h.lookup k] at hne ⊢
  exact getBlockIdForNum_of_ne hne

/-- The lookup of an id above the chain fails its assertion. -/
theorem OnChain.getBlockIdForNum_above (h : OnChain env initSupply chain n)
    (hk : chain.length < k) :
    BlockLookup.getBlockIdForNum env n k = .error (failed "bid != block_id_type()") := by
  refine getBlockIdForNum_of_null ?_
  rw [h.lookup k, mainId_above hk]

/-- The synopsis names blocks of the chain at strictly increasing heights, from the first one
to the head. -/
structure Summarizes (env : Env) (chain : List BlockCall) (first : ℕ) (heights : List ℕ)
    (synopsis : List BlockId) : Prop where
  ids : synopsis = heights.map (mainId env chain)
  rising : heights.Pairwise (· < ·)
  starts : heights.head? = some first
  ends : heights.getLast? = some chain.length

/-- The height at which the synopsis of a node starts. -/
def firstHeight (n : Node) : ℕ := max 1 (lastNonUndoableBlockNum n)

/-- The first height is within the chain. -/
theorem OnChain.firstHeight_le (h : OnChain env initSupply chain n) (hne : chain ≠ []) :
    firstHeight n ≤ chain.length :=
  max_le (List.length_pos_iff.mpr hne) h.irreversible

/-- The ids at the heights of a synopsis summarize the chain. -/
theorem synopsisHeights_summarizes (env : Env) (chain : List BlockCall) {first : ℕ}
    (h : first ≤ chain.length) :
    Summarizes env chain first (synopsisHeights first chain.length)
      ((synopsisHeights first chain.length).map (mainId env chain)) where
  ids := rfl
  rising := heightsFrom_rising
  starts := rfl
  ends := heightsFrom_getLast? h (Nat.lt_succ_self _)

/-- The loop of the synopsis follows the heights, however many rounds it is given beyond
those that it needs. -/
theorem collect_eq (h : OnChain env initSupply chain n) (start more : ℕ) {low rounds : ℕ}
    (hpos : 1 ≤ low) (hlow : low ≤ chain.length) (hrounds : chain.length - low < rounds) :
    collect env n ⟨start, chain.length, chain.length, []⟩ chain.length (rounds + more) low =
      .ok ((heightsFrom chain.length rounds low).map (mainId env chain)) := by
  induction rounds generalizing low with
  | zero => omega
  | succ rounds ih =>
    have hnext := nextLow_eq hlow h.length_lt hpos
    have hid : idAt env n ⟨start, chain.length, chain.length, []⟩ low =
        .ok (mainId env chain low) := by
      unfold idAt
      rw [if_pos hlow]
      exact h.getBlockIdForNum hpos hlow
    rw [Nat.add_right_comm, collect, heightsFrom, hid, hnext]
    by_cases hlt : low < chain.length
    · have hle : low + (chain.length - low + 2) / 2 ≤ chain.length := by omega
      have hrest := ih (Nat.le_add_right_of_le hpos) hle (by omega)
      rw [if_pos hlt]
      change (if _ ≤ chain.length then _ else _) = _
      rw [if_pos hle, hrest]
      rfl
    · have hbeyond : ¬ low + (chain.length - low + 2) / 2 ≤ chain.length := by omega
      rw [if_neg hlt]
      change (if _ ≤ chain.length then _ else _) = _
      rw [if_neg hbeyond]
      rfl

/-- The synopsis of a whole chain. -/
theorem getBlockchainSynopsis_eq (h : OnChain env initSupply chain n) (hne : chain ≠ []) :
    getBlockchainSynopsis env .null 0 n =
      .ok ((synopsisHeights (firstHeight n) chain.length).map (mainId env chain)) := by
  have hhead := h.headNum
  have hlength : 0 < chain.length := List.length_pos_iff.mpr hne
  have hlt := h.length_lt
  have hfirst := h.firstHeight_le hne
  have hpos : 1 ≤ firstHeight n := le_max_left _ _
  have hspan : describedSpan env .null n =
      .ok (some ⟨lastNonUndoableBlockNum n, chain.length, chain.length, []⟩) := by
    unfold describedSpan
    rw [if_neg (by simp), hhead, if_neg (by omega)]
    rfl
  have hlow : (if lastNonUndoableBlockNum n = 0 then 1 else lastNonUndoableBlockNum n) =
      firstHeight n := by
    unfold firstHeight
    split <;> omega
  have hrounds : chain.length - firstHeight n + 1 + (2 ^ 32 - (chain.length - firstHeight n + 1)) =
      2 ^ 32 := by omega
  have hhigh : (chain.length + 0) % 2 ^ 32 = chain.length := Nat.mod_eq_of_lt (by omega)
  simp only [getBlockchainSynopsis, hspan, bind, Except.bind, hlow, hhigh]
  rw [← hrounds]
  exact collect_eq h _ _ hpos hfirst (Nat.lt_succ_self _)

end Nodes

section Answers

variable {env : Env} {initSupply : ℕ} {chain chain' : List BlockCall} {n r : Node} {k : ℕ}

/-- The ids go on from the highest block of the synopsis that is on the main chain, and the
count is that of the blocks after the last id. -/
structure Answers (env : Env) (chain : List BlockCall) (synopsis : List BlockId) (limit k : ℕ)
    (answer : List BlockId × ℕ) : Prop where
  positive : 1 ≤ k
  inside : k ≤ chain.length
  named : mainId env chain k ∈ synopsis
  highest : ∀ j ≤ chain.length, k < j → mainId env chain j ∉ synopsis
  ids : answer.1 = (List.range' k (min limit (chain.length + 1 - k))).map (mainId env chain)
  remaining : answer.2 = chain.length + 1 - (k + answer.1.length)

/-- The listing gives the main-chain ids from a number on, as many as there is room for. -/
theorem listIds_eq (h : OnChain env initSupply chain n) (room more : ℕ) {rounds num : ℕ}
    (hpos : 1 ≤ num) (hnum : num ≤ chain.length + 1)
    (hrounds : chain.length + 1 - num < rounds) :
    listIds env n (rounds + more) room num =
      .ok ((List.range' num (min room (chain.length + 1 - num))).map (mainId env chain)) := by
  have hhead := h.headNum
  have hlt := h.length_lt
  induction rounds generalizing room num with
  | zero => omega
  | succ rounds ih =>
    rw [Nat.add_right_comm, listIds, hhead]
    by_cases hmore : num ≤ chain.length ∧ 0 < room
    · have hcount : min room (chain.length + 1 - num) =
          min (room - 1) (chain.length + 1 - (num + 1)) + 1 := by omega
      have hrest := ih (room - 1) (Nat.le_succ_of_le hpos) (by omega) (by omega)
      rw [if_pos hmore, if_pos (by omega), h.getBlockIdForNum hpos hmore.1,
        Nat.mod_eq_of_lt (by omega), hrest, hcount, List.range'_succ]
      rfl
    · have hcount : min room (chain.length + 1 - num) = 0 := by omega
      rw [if_neg hmore, hcount]
      rfl

/-- With enough rounds the listing gives as many ids as the limit allows. -/
theorem listIds_limit (h : OnChain env initSupply chain n) {limit : ℕ} (hpos : 1 ≤ k)
    (hk : k ≤ chain.length) :
    listIds env n (2 ^ 33) limit k =
      .ok ((List.range' k (min limit (chain.length + 1 - k))).map (mainId env chain)) := by
  have hlt := h.length_lt
  have hrounds : chain.length + 2 - k + (2 ^ 33 - (chain.length + 2 - k)) = 2 ^ 33 := by omega
  rw [← hrounds]
  exact listIds_eq h _ _ hpos (Nat.le_succ_of_le hk) (by omega)

/-- What the answering node lists from a block of its main chain on. -/
theorem listed (h : OnChain env initSupply chain n) {limit : ℕ} (hpos : 1 ≤ k)
    (hk : k ≤ chain.length) (hlimit : 1 ≤ limit) {synopsis : List BlockId}
    (hnamed : mainId env chain k ∈ synopsis)
    (hhighest : ∀ j ≤ chain.length, k < j → mainId env chain j ∉ synopsis) :
    ∃ result, listIds env n (2 ^ 33) limit k = .ok result ∧
      Answers env chain synopsis limit k (result, remainingItemCount n result) := by
  refine ⟨_, listIds_limit h hpos hk, hpos, hk, hnamed, hhighest, rfl, ?_⟩
  obtain ⟨count, hcount⟩ : ∃ count, min limit (chain.length + 1 - k) = count + 1 :=
    ⟨min limit (chain.length + 1 - k) - 1, by omega⟩
  have hlast : ((List.range' k (count + 1)).map (mainId env chain)).getLast? =
      some (mainId env chain (k + count)) := by
    rw [List.range'_concat, List.map_append]
    simp
  have hnum : (mainId env chain (k + count)).num = k + count :=
    h.num_mainId (by omega) (by omega)
  rw [hcount]
  unfold remainingItemCount
  rw [hlast, h.headNum]
  simp only [hnum, List.length_map, List.length_range']
  split <;> omega

/-- The answering node knows the highest block of the synopsis that is on its main chain, and
knows none above its head. -/
structure Recognizes (env : Env) (chain chain' : List BlockCall) (heights : List ℕ) (n : Node) :
    Prop where
  highest : ∀ k ∈ heights, mainId env chain' k = mainId env chain k →
    (∀ j ∈ heights, k < j → mainId env chain' j ≠ mainId env chain j) →
    isKnownBlock env (mainId env chain k) n = true
  above : ∀ k ∈ heights, chain'.length < k → isKnownBlock env (mainId env chain k) n = false

/-- An unknown id is not the last known one. -/
theorem isLastKnown_unknown {id : BlockId} (hne : id ≠ .null)
    (hknown : isKnownBlock env id n = false) : isLastKnown env id n = .ok false := by
  unfold isLastKnown
  rw [if_neg hne, hknown]
  rfl

/-- A known id within the chain is the last known one exactly if it is on the main chain. -/
theorem isLastKnown_inside (hn : OnChain env initSupply chain' n) {id : BlockId} (hne : id ≠ .null)
    (hpos : 1 ≤ id.num) (hinside : id.num ≤ chain'.length)
    (hknown : isKnownBlock env id n = true) :
    isLastKnown env id n = .ok (decide (id = mainId env chain' id.num)) := by
  unfold isLastKnown isIncludedBlock
  rw [if_neg hne, hknown, hn.getBlockIdForNum hpos hinside]
  rfl

/-- A known id above the chain fails the assertion of the lookup. -/
theorem isLastKnown_above (hn : OnChain env initSupply chain' n) {id : BlockId} (hne : id ≠ .null)
    (habove : chain'.length < id.num) (hknown : isKnownBlock env id n = true) :
    isLastKnown env id n = .error (failed "bid != block_id_type()") := by
  unfold isLastKnown isIncludedBlock
  rw [if_neg hne, hknown, hn.getBlockIdForNum_above habove]
  rfl

/-- A block of one chain that is on the other chain is not above its head. -/
theorem le_of_shared (hr : OnChain env initSupply chain r) (hpos : 1 ≤ k) (hk : k ≤ chain.length)
    (hshared : mainId env chain' k = mainId env chain k) : k ≤ chain'.length := by
  by_contra habove
  rw [mainId_above (Nat.lt_of_not_le habove)] at hshared
  exact hr.mainId_ne_null hpos hk hshared.symm

/-- The scan of a synopsis that the node recognizes ends at the highest block that is on the
main chain. -/
theorem findLastKnown_of_recognizes (hr : OnChain env initSupply chain r)
    (hn : OnChain env initSupply chain' n) {heights : List ℕ} (hfalling : heights.Pairwise (· > ·))
    (hinside : ∀ k ∈ heights, 1 ≤ k ∧ k ≤ chain.length)
    (hrecognizes : Recognizes env chain chain' heights n)
    (hshared : ∃ k ∈ heights, mainId env chain' k = mainId env chain k) :
    ∃ k ∈ heights, mainId env chain' k = mainId env chain k ∧
      (∀ j ∈ heights, k < j → mainId env chain' j ≠ mainId env chain j) ∧
      findLastKnown env n (heights.map (mainId env chain)) = .ok (mainId env chain k) := by
  induction heights with
  | nil =>
    obtain ⟨k, hk, -⟩ := hshared
    cases hk
  | cons a rest ih =>
    obtain ⟨hpos, ha⟩ := hinside a List.mem_cons_self
    obtain ⟨hfirst, hrest⟩ := List.pairwise_cons.mp hfalling
    have hne := hr.mainId_ne_null hpos ha
    have hnum := hr.num_mainId hpos ha
    have hknown := hrecognizes.highest a List.mem_cons_self
    by_cases hsame : mainId env chain' a = mainId env chain a
    · have hnone : ∀ j ∈ a :: rest, a < j → mainId env chain' j ≠ mainId env chain j := by
        intro j hj hlt
        rcases List.mem_cons.mp hj with rfl | hj
        · exact absurd hlt (lt_irrefl _)
        · exact absurd hlt (Nat.lt_asymm (hfirst j hj))
      refine ⟨a, List.mem_cons_self, hsame, hnone, ?_⟩
      have hlast := isLastKnown_inside hn hne (by omega)
        (by rw [hnum]; exact le_of_shared hr hpos ha hsame) (hknown hsame hnone)
      rw [hnum, hsame, decide_eq_true rfl] at hlast
      rw [List.map_cons, findLastKnown, hlast]
      rfl
    · have hskip : isLastKnown env (mainId env chain a) n = .ok false := by
        cases hfound : isKnownBlock env (mainId env chain a) n with
        | false => exact isLastKnown_unknown hne hfound
        | true =>
          have hle : a ≤ chain'.length := by
            by_contra habove
            have hunknown := hrecognizes.above a List.mem_cons_self (Nat.lt_of_not_le habove)
            rw [hfound] at hunknown
            cases hunknown
          have hlast := isLastKnown_inside hn hne (by omega) (by rw [hnum]; exact hle) hfound
          rw [hnum, decide_eq_false fun heq => hsame heq.symm] at hlast
          exact hlast
      have hrecognizes' : Recognizes env chain chain' rest n := by
        refine ⟨fun k hk hsame' hnone => ?_, fun k hk => hrecognizes.above k (.tail _ hk)⟩
        refine hrecognizes.highest k (.tail _ hk) hsame' fun j hj hlt => ?_
        rcases List.mem_cons.mp hj with rfl | hj
        · exact hsame
        · exact hnone j hj hlt
      have hshared' : ∃ k ∈ rest, mainId env chain' k = mainId env chain k := by
        obtain ⟨k, hk, hsame'⟩ := hshared
        rcases List.mem_cons.mp hk with rfl | hk
        · exact absurd hsame' hsame
        · exact ⟨k, hk, hsame'⟩
      obtain ⟨k, hk, hsame', hnone, hscan⟩ :=
        ih hrest (fun k hk => hinside k (.tail _ hk)) hrecognizes' hshared'
      refine ⟨k, .tail _ hk, hsame', fun j hj hlt => ?_, ?_⟩
      · rcases List.mem_cons.mp hj with rfl | hj
        · exact hsame
        · exact hnone j hj hlt
      · rw [List.map_cons, findLastKnown, hskip]
        exact hscan

/-- A scan that ends at a block passed over all higher ones. -/
theorem findLastKnown_ok {heights : List ℕ} (hfalling : heights.Pairwise (· > ·)) {id : BlockId}
    (h : findLastKnown env n (heights.map (mainId env chain)) = .ok id) :
    ∃ k ∈ heights, id = mainId env chain k ∧ isLastKnown env (mainId env chain k) n = .ok true ∧
      ∀ j ∈ heights, k < j → isLastKnown env (mainId env chain j) n = .ok false := by
  induction heights with
  | nil => cases h
  | cons a rest ih =>
    obtain ⟨hfirst, hrest⟩ := List.pairwise_cons.mp hfalling
    rw [List.map_cons, findLastKnown] at h
    obtain ⟨found, hfound, h⟩ := bind_eq_ok h
    cases found with
    | true =>
      have hid : mainId env chain a = id := Except.ok.inj h
      refine ⟨a, List.mem_cons_self, hid.symm, hfound, fun j hj hlt => ?_⟩
      rcases List.mem_cons.mp hj with rfl | hj
      · exact absurd hlt (lt_irrefl _)
      · exact absurd hlt (Nat.lt_asymm (hfirst j hj))
    | false =>
      obtain ⟨k, hk, hid, hlast, hhigher⟩ := ih hrest h
      refine ⟨k, .tail _ hk, hid, hlast, fun j hj hlt => ?_⟩
      rcases List.mem_cons.mp hj with rfl | hj
      · exact hfound
      · exact hhigher j hj hlt

/-- The answer to a synopsis is right. -/
def AnswersWell (env : Env) (chain : List BlockCall) (synopsis : List BlockId) (limit : ℕ)
    (n : Node) : Prop :=
  ∃ answer k, getBlockIds env synopsis limit n = .ok answer ∧
    Answers env chain synopsis limit k answer

/-- The answer to a synopsis of heights is the scan and the listing. -/
theorem getBlockIds_eq (hr : OnChain env initSupply chain r) {heights : List ℕ} {limit : ℕ}
    (hinside : ∀ k ∈ heights, 1 ≤ k ∧ k ≤ chain.length) (hne : heights ≠ [])
    (hhead : n.headNum ≠ 0) :
    getBlockIds env (heights.map (mainId env chain)) limit n = (do
      let lastKnown ← findLastKnown env n (heights.reverse.map (mainId env chain))
      let result ← listIds env n (2 ^ 33) limit lastKnown.num
      pure (result, remainingItemCount n result)) := by
  have hsynopsis : ¬ (heights.map (mainId env chain) = [] ∨
      heights.map (mainId env chain) = [.null]) := by
    rintro (hnil | hnull)
    · exact hne (List.map_eq_nil_iff.mp hnil)
    · obtain ⟨k, hk, hid⟩ : ∃ k ∈ heights, mainId env chain k = .null :=
        List.mem_map.mp (hnull ▸ List.mem_singleton_self _)
      exact hr.mainId_ne_null (hinside k hk).1 (hinside k hk).2 hid
  unfold getBlockIds
  rw [if_neg hhead, if_neg hsynopsis, List.map_reverse]

/-- The first id of an answer tells where it starts. -/
theorem answer_start (hn : OnChain env initSupply chain' n) {k l limit : ℕ} (hlimit : 1 ≤ limit)
    (hk : 1 ≤ k ∧ k ≤ chain'.length) (hl : 1 ≤ l ∧ l ≤ chain'.length)
    (heq : (List.range' k (min limit (chain'.length + 1 - k))).map (mainId env chain') =
      (List.range' l (min limit (chain'.length + 1 - l))).map (mainId env chain')) : k = l := by
  have hfirst : ∀ i, 1 ≤ i ∧ i ≤ chain'.length →
      ((List.range' i (min limit (chain'.length + 1 - i))).map (mainId env chain')).head? =
        some (mainId env chain' i) := by
    intro i hi
    obtain ⟨count, hcount⟩ : ∃ count, min limit (chain'.length + 1 - i) = count + 1 :=
      ⟨min limit (chain'.length + 1 - i) - 1, by omega⟩
    rw [hcount, List.range'_succ]
    rfl
  have hids := hfirst k hk
  rw [heq, hfirst l hl] at hids
  have hnum := congrArg BlockId.num (Option.some.inj hids)
  rw [hn.num_mainId hl.1 hl.2, hn.num_mainId hk.1 hk.2] at hnum
  exact hnum.symm

/-- If the peer recognizes an id of the synopsis, it answers well. -/
theorem answersWell_of_recognizes (hr : OnChain env initSupply chain r)
    (hn : OnChain env initSupply chain' n) {heights : List ℕ} (hrising : heights.Pairwise (· < ·))
    (hinside : ∀ k ∈ heights, 1 ≤ k ∧ k ≤ chain.length)
    (hshared : ∃ k ∈ heights, mainId env chain' k = mainId env chain k) {limit : ℕ}
    (hlimit : 1 ≤ limit) (hrecognizes : Recognizes env chain chain' heights n) :
    AnswersWell env chain' (heights.map (mainId env chain)) limit n := by
  have hreverse : Recognizes env chain chain' heights.reverse n := by
    refine ⟨fun k hk hsame hnone => ?_, fun k hk => hrecognizes.above k (List.mem_reverse.mp hk)⟩
    exact hrecognizes.highest k (List.mem_reverse.mp hk) hsame fun j hj =>
      hnone j (List.mem_reverse.mpr hj)
  obtain ⟨k, hk, hsame, hnone, hscan⟩ := findLastKnown_of_recognizes hr hn
    (List.pairwise_reverse.mpr hrising) (fun k hk => hinside k (List.mem_reverse.mp hk)) hreverse
    (by simpa using hshared)
  have hk : k ∈ heights := List.mem_reverse.mp hk
  obtain ⟨hpos, hle⟩ := hinside k hk
  have hle' := le_of_shared hr hpos hle hsame
  have hnum := hr.num_mainId hpos hle
  have hhighest : ∀ j ≤ chain'.length, k < j →
      mainId env chain' j ∉ heights.map (mainId env chain) := by
    intro j hj hlt hmem
    obtain ⟨i, hi, hid⟩ := List.mem_map.mp hmem
    have heq : i = j := by
      have hnums := congrArg BlockId.num hid
      rwa [hr.num_mainId (hinside i hi).1 (hinside i hi).2, hn.num_mainId (by omega) hj] at hnums
    rw [heq] at hi hid
    exact hnone j (List.mem_reverse.mpr hi) hlt hid.symm
  have hnamed : mainId env chain' k ∈ heights.map (mainId env chain) :=
    List.mem_map.mpr ⟨k, hk, hsame.symm⟩
  obtain ⟨result, hresult, hanswers⟩ := listed hn hpos hle' hlimit hnamed hhighest
  refine ⟨_, k, ?_, hanswers⟩
  rw [getBlockIds_eq hr hinside (List.ne_nil_of_mem hk) (by rw [hn.headNum]; omega), hscan]
  change (listIds env n (2 ^ 33) limit (mainId env chain k).num >>= _) = _
  rw [hnum, hresult]
  rfl

/-- If the peer answers well, it recognizes an id of the synopsis. -/
theorem recognizes_of_answersWell (hr : OnChain env initSupply chain r)
    (hn : OnChain env initSupply chain' n) {heights : List ℕ} (hrising : heights.Pairwise (· < ·))
    (hinside : ∀ k ∈ heights, 1 ≤ k ∧ k ≤ chain.length) (hne : heights ≠ []) {limit : ℕ}
    (hlimit : 1 ≤ limit)
    (hanswers : AnswersWell env chain' (heights.map (mainId env chain)) limit n) :
    Recognizes env chain chain' heights n := by
  obtain ⟨answer, l, hanswer, hright⟩ := hanswers
  have hpos' := hright.positive
  have hinside' := hright.inside
  rw [getBlockIds_eq hr hinside hne (by rw [hn.headNum]; omega)] at hanswer
  obtain ⟨id, hscan, hanswer⟩ := bind_eq_ok hanswer
  obtain ⟨result, hresult, hpure⟩ := bind_eq_ok hanswer
  have hpair : (result, remainingItemCount n result) = answer := Except.ok.inj hpure
  obtain ⟨k, hk, hid, hlast, hhigher⟩ := findLastKnown_ok (List.pairwise_reverse.mpr hrising) hscan
  have hk : k ∈ heights := List.mem_reverse.mp hk
  obtain ⟨hpos, hle⟩ := hinside k hk
  have hnull := hr.mainId_ne_null hpos hle
  have hnum := hr.num_mainId hpos hle
  have hknown : isKnownBlock env (mainId env chain k) n = true := by
    cases hfound : isKnownBlock env (mainId env chain k) n with
    | true => rfl
    | false =>
      rw [isLastKnown_unknown hnull hfound] at hlast
      cases hlast
  have hle' : k ≤ chain'.length := by
    by_contra habove
    rw [isLastKnown_above hn hnull (by rw [hnum]; omega) hknown] at hlast
    cases hlast
  have hsame : mainId env chain' k = mainId env chain k := by
    rw [isLastKnown_inside hn hnull (by omega) (by rw [hnum]; exact hle') hknown, hnum] at hlast
    exact (of_decide_eq_true (Except.ok.inj hlast)).symm
  have hstart : k = l := by
    refine answer_start hn hlimit ⟨hpos, hle'⟩ ⟨hpos', hinside'⟩ ?_
    rw [← hright.ids, ← hpair]
    rw [hid, hnum, listIds_limit hn hpos hle'] at hresult
    exact Except.ok.inj hresult
  refine ⟨fun j hj hsame' hnone => ?_, fun j hj habove => ?_⟩
  · obtain ⟨hpos'', hle''⟩ := hinside j hj
    have heq : j = k := by
      by_contra hother
      rcases Nat.lt_or_gt_of_ne hother with hlt | hgt
      · exact hnone k hk hlt hsame
      · refine hright.highest j (le_of_shared hr hpos'' hle'' hsame') (by omega) ?_
        exact List.mem_map.mpr ⟨j, hj, hsame'.symm⟩
    rw [heq]
    exact hknown
  · obtain ⟨hpos'', hle''⟩ := hinside j hj
    have hpassed := hhigher j (List.mem_reverse.mpr hj) (by omega)
    cases hfound : isKnownBlock env (mainId env chain j) n with
    | false => rfl
    | true =>
      rw [isLastKnown_above hn (hr.mainId_ne_null hpos'' hle'')
        (by rw [hr.num_mainId hpos'' hle'']; exact habove) hfound] at hpassed
      cases hpassed

/-- The synopsis of a node with blocks goes from the last irreversible block, or the first one,
to the head, over blocks of the main chain at strictly increasing heights. A node whose main
chain has the first block of the synopsis answers it right if and only if it knows the highest
block of the synopsis that is on its main chain, and knows none above its head. -/
theorem handshake_iff_recognizes (hr : OnChain env initSupply chain r)
    (hn : OnChain env initSupply chain' n) (hne : chain ≠ []) :
    ∃ synopsis, getBlockchainSynopsis env .null 0 r = .ok synopsis ∧
      (∃ heights, Summarizes env chain (firstHeight r) heights synopsis) ∧
      (mainId env chain' (firstHeight r) = mainId env chain (firstHeight r) →
        ∀ limit, 1 ≤ limit → (AnswersWell env chain' synopsis limit n ↔
          Recognizes env chain chain' (synopsisHeights (firstHeight r) chain.length) n)) := by
  have hfirst := hr.firstHeight_le hne
  have hsummarizes := synopsisHeights_summarizes env chain hfirst
  have hinside : ∀ k ∈ synopsisHeights (firstHeight r) chain.length, 1 ≤ k ∧ k ≤ chain.length := by
    intro k hk
    have hlow : 1 ≤ firstHeight r := le_max_left _ _
    exact ⟨hlow.trans (le_of_mem_heightsFrom hk), mem_heightsFrom_le hfirst hk⟩
  have hmem : firstHeight r ∈ synopsisHeights (firstHeight r) chain.length := List.mem_cons_self
  refine ⟨_, getBlockchainSynopsis_eq hr hne, ⟨_, hsummarizes⟩, fun hshared limit hlimit => ?_⟩
  constructor
  · exact recognizes_of_answersWell hr hn hsummarizes.rising hinside (List.ne_nil_of_mem hmem) hlimit
  · exact answersWell_of_recognizes hr hn hsummarizes.rising hinside ⟨_, hmem, hshared⟩ hlimit

end Answers

section Samples

/-- A node of a run without pending transactions, whose lookups are right up to its head. -/
theorem onChain_of_run {env : Env} {initSupply : ℕ} {pushes chain : List BlockCall} {n : Node}
    {s : ChainState} (hrun : (pushAll env pushes (genesis env initSupply)).2 = n)
    (hreaches : Reaches env initSupply chain s) (htip : SameTip s n.state)
    (hidle : n.pendingSession = false)
    (hlookup : ∀ k ∈ List.range (chain.length + 1), findBlockIdForNum env n k = mainId env chain k)
    (hlog : n.blockLog.length ≤ chain.length)
    (hforks : ∀ x ∈ n.forkDb.index, x.num ≤ chain.length)
    (hstamps : ∀ call ∈ chain, call.block.header.timestamp < 2 ^ 32) :
    OnChain env initSupply chain n := by
  refine ⟨⟨s, hreaches, htip⟩, fun k => ?_, hstamps⟩
  rcases Nat.lt_or_ge chain.length k with habove | hle
  · obtain ⟨chain₀, floor, hheld⟩ := pushAll_held env initSupply pushes
    rw [hrun] at hheld
    have hnum : n.headNum = s.dgp.headBlockNumber := congrArg (fun x => x.2.1) htip
    have hlength : chain₀.length = chain.length := by
      rw [← hheld.headNum, hnum, (Reaches.tip hreaches).2.1]
    have hring := (held_ring hheld hidle).below
    rw [hlength] at hring
    rw [mainId_above habove]
    exact findBlockIdForNum_above hring hlog hforks habove
  · exact hlookup k (List.mem_range.mpr (Nat.lt_succ_of_le hle))

/-- Two blocks. -/
def sampleTwo : List BlockCall := [sampleChain [] 0, sampleChain [] 1].map sampleCall

/-- The two blocks, a block on them that is refused for its timestamp, and the second block
again. -/
def sampleForgotten : List BlockCall :=
  sampleTwo ++ [sampleBlock ((sampleChain [] 1).id sampleEnv) 0 (initMinerName 0) [],
    sampleChain [] 1].map sampleCall

/-- The node after a run of the small instance. -/
def sampleNode (pushes : List BlockCall) : Node :=
  (pushAll sampleEnv pushes (genesis sampleEnv 1000000)).2

/-- The small node is on its chain. -/
theorem sampleNode_onChain {pushes : List BlockCall}
    (htip : endsIn (runBlocks sampleEnv sampleTwo) (initGenesis sampleEnv 1000000)
      (fun _ s => tip (sampleNode pushes).state.dgp = tip s.dgp) = true)
    (hidle : (sampleNode pushes).pendingSession = false)
    (hlookup : ∀ k ∈ List.range 3,
      findBlockIdForNum sampleEnv (sampleNode pushes) k = mainId sampleEnv sampleTwo k)
    (hlog : (sampleNode pushes).blockLog.length ≤ 2)
    (hforks : ∀ x ∈ (sampleNode pushes).forkDb.index, x.num ≤ 2) :
    OnChain sampleEnv 1000000 sampleTwo (sampleNode pushes) := by
  obtain ⟨_, s, hreaches, hends⟩ := returns_of_endsIn htip
  have hsame : tip (sampleNode pushes).state.dgp = tip s.dgp := of_decide_eq_true hends
  exact onChain_of_run rfl hreaches hsame hidle hlookup hlog hforks
    (by decide +kernel)

/-- A node answers its own synopsis with its head. -/
theorem handshake_iff_recognizes_sampleTwo :
    ∃ synopsis, getBlockchainSynopsis sampleEnv .null 0 (sampleNode sampleTwo) = .ok synopsis ∧
      (∃ heights, Summarizes sampleEnv sampleTwo (firstHeight (sampleNode sampleTwo)) heights
        synopsis) ∧ AnswersWell sampleEnv sampleTwo synopsis 10 (sampleNode sampleTwo) := by
  have honChain : OnChain sampleEnv 1000000 sampleTwo (sampleNode sampleTwo) :=
    sampleNode_onChain (by decide +kernel) (by decide +kernel) (by decide +kernel)
      (by decide +kernel) (by decide +kernel)
  obtain ⟨synopsis, hsynopsis, hsummarizes, hanswer⟩ :=
    handshake_iff_recognizes honChain honChain (by decide)
  refine ⟨synopsis, hsynopsis, hsummarizes, (hanswer rfl 10 (by decide)).mpr ⟨?_, ?_⟩⟩
  · decide +kernel
  · decide +kernel

/-- The node that got the second block again does not know it any more, and answers from the
first one. -/
theorem answer_starts_low_sampleForgotten :
    ¬ ∀ (env : Env) (initSupply : ℕ) (pushes pushes' chain chain' : List BlockCall) (r n : Node)
      (limit : ℕ), (pushAll env pushes (genesis env initSupply)).2 = r →
      (pushAll env pushes' (genesis env initSupply)).2 = n → OnChain env initSupply chain r →
      OnChain env initSupply chain' n → chain ≠ [] →
      mainId env chain' (firstHeight r) = mainId env chain (firstHeight r) → 1 ≤ limit →
      ∃ synopsis, getBlockchainSynopsis env .null 0 r = .ok synopsis ∧
        AnswersWell env chain' synopsis limit n := by
  intro hall
  have hr : OnChain sampleEnv 1000000 sampleTwo (sampleNode sampleTwo) :=
    sampleNode_onChain (by decide +kernel) (by decide +kernel) (by decide +kernel)
      (by decide +kernel) (by decide +kernel)
  have hn : OnChain sampleEnv 1000000 sampleTwo (sampleNode sampleForgotten) :=
    sampleNode_onChain (by decide +kernel) (by decide +kernel) (by decide +kernel)
      (by decide +kernel) (by decide +kernel)
  obtain ⟨synopsis, hsynopsis, answer, k, hanswer, hright⟩ := hall sampleEnv 1000000 sampleTwo
    sampleForgotten sampleTwo sampleTwo _ _ 10 rfl rfl hr hn (by decide) rfl (by decide)
  have hids : [1, 2].map (mainId sampleEnv sampleTwo) = synopsis := by
    have hcomputed : getBlockchainSynopsis sampleEnv .null 0 (sampleNode sampleTwo) =
        .ok ([1, 2].map (mainId sampleEnv sampleTwo)) := by decide +kernel
    exact Except.ok.inj (hcomputed.symm.trans hsynopsis)
  rw [← hids] at hanswer hright
  have hfirst : answer.1.head? = some (mainId sampleEnv sampleTwo 1) := by
    have hcomputed : getBlockIds sampleEnv ([1, 2].map (mainId sampleEnv sampleTwo)) 10
        (sampleNode sampleForgotten) = .ok ([1, 2].map (mainId sampleEnv sampleTwo), 0) := by
      decide +kernel
    rw [← Except.ok.inj (hcomputed.symm.trans hanswer)]
    rfl
  have hpos := hright.positive
  have hinside : k ≤ 2 := hright.inside
  have hcases : k = 1 ∨ k = 2 := by omega
  rcases hcases with rfl | rfl
  · exact hright.highest 2 (by decide) (by decide) (by decide +kernel)
  · rw [hright.ids] at hfirst
    exact absurd hfirst (by decide +kernel)

end Samples

end Whaleshares.SyncHandshake
