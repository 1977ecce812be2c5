import Mathlib
import Whaleshares.Irreversibility
import Whaleshares.SlotClock

/-!
# The lookup of blocks

The ways in which `chain/database.cpp` finds a block of the main chain by its number: the ring
of the last 65536 block ids, which is part of the object database and is undone with it, the
block log of the irreversible blocks, and the fork database. In every state that a run of
blocks reaches the ring holds the ids of the last 65536 blocks of the run.
-/

namespace Whaleshares.BlockLookup

open Config Fc Protocol Objects Program Database ApplyBlock Genesis ChainRun ChainTip Footprint
  SlotClock Node

section Lookup

variable (env : Env)

/-- `block_log::read_block_by_num` -/
def readBlockByNum (n : Node) (num : ℕ) : Option SignedBlock :=
  if num = 0 then none else n.blockLog[num - 1]?

/-- What `find_block_id_for_num` asks after the ring of block ids. -/
def findStoredId (n : Node) (num : ℕ) : BlockId :=
  match readBlockByNum n num with
  | some b => b.id env
  | none =>
    match n.forkDb.fetchBlockOnMainBranchByNumber num with
    | some item => item.id
    | none => .null

/-- `find_block_id_for_num` -/
def findBlockIdForNum (n : Node) (num : ℕ) : BlockId :=
  if num = 0 then .null
  else if (n.state.blockSummaries (num % 2 ^ 16)).num = num then
    n.state.blockSummaries (num % 2 ^ 16)
  else findStoredId env n num

/-- `get_block_id_for_num` -/
def getBlockIdForNum (n : Node) (num : ℕ) : Except Exc BlockId := do
  fcAssert (findBlockIdForNum env n num ≠ .null) "bid != block_id_type()"
  pure (findBlockIdForNum env n num)

/-- `is_known_block` -/
def isKnownBlock (id : BlockId) (n : Node) : Bool := (fetchBlockById env id n).isSome

/-- `fetch_block_by_number` -/
def fetchBlockByNumber (n : Node) (num : ℕ) : Option SignedBlock :=
  match n.forkDb.fetchBlockByNumber num with
  | [item] => some item.data
  | _ => readBlockByNum n num

/-- The id of the block of a number on a chain. -/
def mainId (chain : List BlockCall) (num : ℕ) : BlockId :=
  if num = 0 then .null
  else match chain[num - 1]? with
    | some call => call.block.id env
    | none => .null

variable {env}

/-- An id that is found and is not null is returned. -/
theorem getBlockIdForNum_of_ne {n : Node} {num : ℕ} (h : findBlockIdForNum env n num ≠ .null) :
    getBlockIdForNum env n num = .ok (findBlockIdForNum env n num) := by
  simp [getBlockIdForNum, fcAssert, h]

/-- If none is found the assertion fails. -/
theorem getBlockIdForNum_of_null {n : Node} {num : ℕ} (h : findBlockIdForNum env n num = .null) :
    getBlockIdForNum env n num = .error (failed "bid != block_id_type()") := by
  simp [getBlockIdForNum, fcAssert, h]

end Lookup

section Numbers

variable {env : Env} {initSupply : ℕ} {chain : List BlockCall} {call : BlockCall} {s t : ChainState}
  {k : ℕ}

/-- Above the chain there is no main-chain id. -/
theorem mainId_above (h : chain.length < k) : mainId env chain k = .null := by
  unfold mainId
  have hnone : chain[k - 1]? = none := List.getElem?_eq_none (by omega)
  rw [if_neg (by omega), hnone]

/-- A further block keeps the main-chain ids below it. -/
theorem mainId_append_of_le (h : k ≤ chain.length) :
    mainId env (chain ++ [call]) k = mainId env chain k := by
  unfold mainId
  by_cases hzero : k = 0
  · rw [if_pos hzero, if_pos hzero]
  · have hsame : (chain ++ [call])[k - 1]? = chain[k - 1]? :=
      List.getElem?_append_left (by omega)
    rw [if_neg hzero, if_neg hzero, hsame]

/-- The id of the last block is that of its number. -/
theorem mainId_last (env : Env) (chain : List BlockCall) (call : BlockCall) :
    mainId env (chain ++ [call]) (chain.length + 1) = call.block.id env := by
  simp [mainId]

/-- The id of a block of a run carries the number of the block. -/
theorem num_mainId (h : Reaches env initSupply chain s) (hpos : 1 ≤ k) (hk : k ≤ chain.length) :
    (mainId env chain k).num = k := by
  induction chain using List.reverseRecOn generalizing s with
  | nil =>
    have hzero : k ≤ 0 := hk
    omega
  | append_singleton chain call ih =>
    obtain ⟨u, hu, hcall⟩ := reaches_append.mp h
    rw [List.length_append, List.length_singleton] at hk
    rcases Nat.lt_or_ge chain.length k with hlast | hlower
    · have heq : k = chain.length + 1 := by omega
      rw [heq, mainId_last]
      exact LastIrreversible.blockNum_eq hu (applyBlock_head hcall).1
    · rw [mainId_append_of_le hlower]
      exact ih hu hlower

/-- A main-chain id of a reachable state is not null. -/
theorem mainId_ne_null (h : Reaches env initSupply chain s) (hpos : 1 ≤ k) (hk : k ≤ chain.length) :
    mainId env chain k ≠ .null := by
  intro hnull
  have hnum := num_mainId h hpos hk
  rw [hnull] at hnum
  have hzero : 0 = k := hnum
  omega

/-- Timestamps have 32 bits and grow from block to block, so a chain has less than `2 ^ 32 - 1`
blocks. -/
theorem length_lt (h : Reaches env initSupply chain s)
    (hstamps : ∀ call ∈ chain, call.block.header.timestamp < 2 ^ 32) :
    chain.length + wlsGenesisTime < 2 ^ 32 := by
  have hrun : chain.length + wlsGenesisTime ≤ s.dgp.time ∧ s.dgp.time < 2 ^ 32 := by
    induction chain using List.reverseRecOn generalizing s with
    | nil =>
      obtain ⟨-, rfl⟩ := Returns.pure h
      change 0 + wlsGenesisTime ≤ wlsGenesisTime ∧ wlsGenesisTime < 2 ^ 32
      decide
    | append_singleton chain call ih =>
      obtain ⟨u, hu, hcall⟩ := reaches_append.mp h
      obtain ⟨hlow, -⟩ := ih hu fun c hc => hstamps c (List.mem_append_left _ hc)
      obtain ⟨hchecked, hclock⟩ := applyBlock_clock hcall
      have htime : s.dgp.time = call.block.header.timestamp := congrArg (fun x => x.2.1) hclock
      have hlater : u.dgp.time < s.dgp.time := by
        rw [htime]
        exact hchecked.later
      rw [List.length_append, List.length_singleton]
      refine ⟨?_, ?_⟩
      · have hstep : chain.length + wlsGenesisTime + 1 ≤ s.dgp.time := Nat.lt_of_le_of_lt hlow hlater
        calc chain.length + 1 + wlsGenesisTime = chain.length + wlsGenesisTime + 1 := by omega
          _ ≤ s.dgp.time := hstep
      · rw [htime]
        exact hstamps call (List.mem_append_right _ (List.mem_singleton_self call))
  exact Nat.lt_of_le_of_lt hrun.1 hrun.2

end Numbers

section Ring

variable {ctx : Context} {b : SignedBlock} {s t : ChainState}

/-- The states have the same ring of block ids. -/
def SameSummaries (s t : ChainState) : Prop := t.blockSummaries = s.blockSummaries

instance : IsPreorder ChainState SameSummaries where
  refl _ := rfl
  trans _ _ _ hst htu := Eq.trans htu hst

/-- The routines of money keep the ring. -/
theorem sameSummaries_moneyFrame : MoneyFrame SameSummaries where
  accounts _ _ _ := rfl
  accountAuthorities _ _ := rfl
  comments _ _ := rfl
  commentVotes _ _ := rfl
  witnessVotes _ _ := rfl
  withdrawVestingRoutes _ _ := rfl
  transactions _ _ := rfl
  witnesses _ _ _ _ := rfl
  newWitness _ _ _ _ _ _ _ := rfl
  anyAccounts _ _ := rfl
  rewardFunds _ _ := rfl
  totals _ _ _ := rfl

/-- The turns of the witnesses keep the ring. -/
theorem sameSummaries_turnFrame : TurnFrame SameSummaries where
  turns _ _ _ _ := rfl
  blockSize _ _ := rfl
  wso _ _ _ := rfl
  hardforks _ _ := rfl

/-- A change of the global properties keeps the ring. -/
theorem modifyDgp_sameSummaries
    (f : DynamicGlobalPropertyObject → Except Exc DynamicGlobalPropertyObject) :
    Keeps SameSummaries (modifyDgp f) := by
  refine .update fun u v huv => ?_
  obtain ⟨d, -, rfl⟩ := map_eq_ok huv
  exact rfl

/-- The front of a block keeps the ring. -/
theorem applyBlockFront_sameSummaries (h : Returns (applyBlockFront ctx b) s () t) :
    SameSummaries s t := by
  have hframe := sameSummaries_moneyFrame.toFrame.toQuietFrame
  have hbody : Keeps SameSummaries (applyBody ctx b) := by
    refine .bind (.gets _) fun _ => .bind (.lift _) fun _ =>
      .bind (modifyDgp_sameSummaries _) fun _ =>
      .bind (processHeaderExtensions_keeps hframe b) fun _ => .bind (lookup_keeps _ _) fun _ =>
      .bind (.gets _) fun _ => .bind (.lift _) fun _ => .forEach (fun trx => ?_) _
    exact applyTransaction_keeps ctx (sameSummaries_moneyFrame.toOperationFrame _) trx
  have hdata : Keeps SameSummaries (updateGlobalDynamicData ctx b) :=
    .bind (.gets _) fun _ => .bind (missSlots_keeps hframe b _ _) fun _ =>
      .bind (modifyDgp_sameSummaries _) fun _ => .bind (.gets _) fun _ => .lift _
  have hsigning : ∀ name, Keeps SameSummaries (updateSigningWitness name b) := by
    intro name
    refine .bind (.gets _) fun _ => .update fun u v huv => ?_
    obtain ⟨x, -, rfl⟩ := map_eq_ok huv
    exact rfl
  have hirreversible : Keeps SameSummaries updateLastIrreversibleBlock :=
    .bind (.gets _) fun _ => .ite (modifyDgp_sameSummaries _)
      (.bind scheduledWitnesses_keeps fun _ => .bind (.lift _) fun _ => modifyDgp_sameSummaries _)
  have hfront : Keeps SameSummaries (applyBlockFront ctx b) := by
    rw [applyBlockFront_eq]
    exact .bind (.lift _) fun _ => .bind (validateBlockHeader_keeps ctx b) fun _ =>
      .bind hbody fun _ => .bind hdata fun _ => .bind (hsigning _) fun _ => hirreversible
  exact hfront.rel s () t h

/-- A block replaces one id of the ring by its own. -/
theorem applyBlock_summaries (h : Returns (applyBlock ctx b) s () t) :
    t.blockSummaries = summarize ctx b s.blockSummaries := by
  obtain ⟨_, front, hfront, hback⟩ := h.bind
  obtain ⟨_, u, hu, hrest⟩ := hback.bind
  have hsummary : u.blockSummaries = summarize ctx b front.blockSummaries := by
    rw [← Except.ok.inj hu.update]
  have hmoney := sameSummaries_moneyFrame.toOperationFrame ctx.env.toFcLib
  have hkeeps := Keeps.bind (clearExpiredTransactions_keeps hmoney.toQuietFrame) fun _ =>
    Keeps.bind (updateWitnessSchedule_keeps sameSummaries_turnFrame) fun _ =>
    afterSchedule_keeps ctx hmoney.toStakeFrame
  have hlater : t.blockSummaries = u.blockSummaries := hkeeps.rel u () t hrest
  rw [hlater, hsummary, applyBlockFront_sameSummaries hfront]

end Ring

section Runs

variable {env : Env} {initSupply : ℕ} {chain : List BlockCall} {call : BlockCall} {s t : ChainState}

/-- A ring of block ids that holds the last blocks of a chain. -/
structure Ring (env : Env) (chain : List BlockCall) (ring : ℕ → BlockId) : Prop where
  below : ∀ i, (ring i).num ≤ chain.length
  recent : ∀ k, 1 ≤ k → k ≤ chain.length → chain.length < k + 2 ^ 16 →
    ring (k % 2 ^ 16) = mainId env chain k

/-- A block enters its id into the ring. -/
theorem Ring.step (hs : Reaches env initSupply chain s) (hring : Ring env chain s.blockSummaries)
    (hcall : Returns (call.run env) s () t) :
    Ring env (chain ++ [call]) t.blockSummaries := by
  have hnum := LastIrreversible.blockNum_eq hs (applyBlock_head hcall).1
  have hid : (call.block.id env).num = chain.length + 1 := hnum
  have hsummaries : t.blockSummaries = fun i =>
      if i = (chain.length + 1) % 2 ^ 16 then call.block.id env else s.blockSummaries i := by
    rw [applyBlock_summaries hcall, ← hnum]
    rfl
  rw [hsummaries]
  refine ⟨fun i => ?_, fun k hpos hk hrecent => ?_⟩
  · rw [List.length_append, List.length_singleton]
    by_cases hi : i = (chain.length + 1) % 2 ^ 16
    · rw [if_pos hi, hid]
    · rw [if_neg hi]
      exact (hring.below i).trans (Nat.le_succ _)
  · rw [List.length_append, List.length_singleton] at hk hrecent
    by_cases hlast : k = chain.length + 1
    · rw [hlast, if_pos rfl, mainId_last]
    · -- two numbers less than 65536 apart have different places in the ring
      have hplace : k % 2 ^ 16 ≠ (chain.length + 1) % 2 ^ 16 := by omega
      rw [if_neg hplace, mainId_append_of_le (by omega)]
      exact hring.recent k hpos (by omega) (by omega)

/-- In every reachable state the ring holds the last ids. -/
theorem Reaches.ring (h : Reaches env initSupply chain s) : Ring env chain s.blockSummaries := by
  induction chain using List.reverseRecOn generalizing s with
  | nil =>
    obtain ⟨-, rfl⟩ := Returns.pure h
    refine ⟨fun _ => le_rfl, fun k hpos hk => ?_⟩
    have hzero : k ≤ 0 := hk
    omega
  | append_singleton chain call ih =>
    obtain ⟨u, hu, hcall⟩ := reaches_append.mp h
    exact (ih hu).step hu hcall

/-- Nothing is found above the head. -/
theorem findBlockIdForNum_above {n : Node} {head k : ℕ}
    (hring : ∀ i, (n.state.blockSummaries i).num ≤ head) (hlog : n.blockLog.length ≤ head)
    (hforks : ∀ x ∈ n.forkDb.index, x.num ≤ head) (hk : head < k) :
    findBlockIdForNum env n k = .null := by
  have hread : readBlockByNum n k = none := by
    unfold readBlockByNum
    rw [if_neg (by omega)]
    exact List.getElem?_eq_none (by omega)
  have hindex : n.forkDb.fetchBlockByNumber k = [] := by
    refine List.filter_eq_nil_iff.mpr fun x hx => ?_
    have hle := hforks x hx
    simp only [decide_eq_true_eq]
    omega
  have hsummary := hring (k % 2 ^ 16)
  unfold findBlockIdForNum findStoredId
  rw [if_neg (by omega), if_neg (by omega), hread]
  unfold ForkDatabase.fetchBlockOnMainBranchByNumber
  rw [hindex]

/-- A node that holds a chain without a pending session has its ring. -/
theorem held_ring {floor : ℕ} {n : Node} (h : Irreversibility.Held env initSupply chain floor n)
    (hidle : n.pendingSession = false) : Ring env chain n.state.blockSummaries := by
  obtain ⟨base, htop, hperch⟩ := h
  have hdb := htop.db
  rw [hidle] at hdb
  have hdb : n.db = base := hdb
  unfold Node.state
  rw [hdb]
  exact Reaches.ring hperch.ladder.current

end Runs

end Whaleshares.BlockLookup
