import Mathlib
import Whaleshares.ChainRun
import Whaleshares.Footprint

/-!
# The tip of the chain

A block builds on the head block and becomes the head block; what follows the update of
the last irreversible block, and every transaction, leaves the head and the last
irreversible block alone. So the head of a state that a run reaches is the last block of
the run, and runs that end with the same head went through the same blocks, as far as
different blocks have different ids.
-/

namespace Whaleshares.ChainTip

open Config Fc Protocol Objects Program Database ApplyBlock Genesis ChainRun Footprint Ledger

section Routines

variable {ctx : Context} {b : SignedBlock} {s t : ChainState}

/-- The states have the same tip. -/
def SameTip (s t : ChainState) : Prop := tip t.dgp = tip s.dgp

instance : IsPreorder ChainState SameTip where
  refl _ := rfl
  trans _ _ _ hst htu := Eq.trans htu hst

/-- The update of the schedule keeps the tip. -/
theorem sameTip_scheduleFrame : ScheduleFrame SameTip where
  accounts _ _ _ := rfl
  accountAuthorities _ _ := rfl
  comments _ _ := rfl
  commentVotes _ _ := rfl
  witnessVotes _ _ := rfl
  withdrawVestingRoutes _ _ := rfl
  transactions _ _ := rfl
  witnesses _ _ _ _ := rfl
  properties _ _ _ htip := htip
  wso _ _ _ := rfl
  hardforks _ _ := rfl
  blockSummaries _ _ := rfl

/-- The routines of money keep the tip. -/
theorem sameTip_moneyFrame : MoneyFrame SameTip where
  toFrame := sameTip_scheduleFrame.toFrame
  newWitness _ _ _ _ _ _ _ := rfl
  anyAccounts _ _ := rfl
  rewardFunds _ _ := rfl
  totals s d hhead := by
    have htip : tip (head d) = tip (head s.dgp) := congrArg tip hhead
    exact htip

/-- A transaction keeps the tip. -/
theorem applyTransaction_sameTip {trx : SignedTransaction}
    (h : Returns (applyTransaction ctx trx) s () t) : SameTip s t :=
  (applyTransaction_keeps ctx (sameTip_moneyFrame.toOperationFrame _) trx).rel s () t h

/-- The back of a block keeps the tip. -/
theorem applyBlockBack_sameTip (h : Returns (applyBlockBack ctx b) s () t) : SameTip s t :=
  (applyBlockBack_keeps ctx sameTip_scheduleFrame.toRoundFrame sameTip_moneyFrame b).rel s () t h

/-- A valid header extends the head. -/
theorem validateBlockHeader_previous {w : WitnessObject}
    (h : Returns (validateBlockHeader ctx b) s w t) : s.dgp.headBlockId = b.header.previous := by
  obtain ⟨_, hprevious, -⟩ := h.gets_bind.lift_bind
  simpa using fcAssert_eq_ok hprevious

/-- The new head is the block. -/
theorem updateGlobalDynamicData_head {u : Unit}
    (h : Returns (updateGlobalDynamicData ctx b) s u t) :
    t.dgp.headBlockId = b.id ctx.env ∧ t.dgp.headBlockNumber = b.blockNum := by
  obtain ⟨_, v, -, h⟩ := h.gets_bind.bind
  obtain ⟨_, w, hw, h⟩ := h.bind
  obtain ⟨-, rfl⟩ := h.gets_bind.lift
  obtain ⟨d, hd, rfl⟩ := map_eq_ok hw.update
  rw [← Except.ok.inj hd]
  exact ⟨rfl, rfl⟩

/-- The update of the signing witness keeps the global properties. -/
theorem updateSigningWitness_dgp {name : AccountName} {u : Unit}
    (h : Returns (updateSigningWitness name b) s u t) : t.dgp = s.dgp := by
  obtain ⟨x, -, rfl⟩ := map_eq_ok h.gets_bind.update
  rfl

/-- The new last irreversible block keeps the head. -/
theorem updateLastIrreversibleBlock_head {u : Unit}
    (h : Returns updateLastIrreversibleBlock s u t) :
    t.dgp.headBlockId = s.dgp.headBlockId ∧ t.dgp.headBlockNumber = s.dgp.headBlockNumber := by
  have h := h.gets_bind
  split at h
  · obtain ⟨d, hd, rfl⟩ := map_eq_ok h.update
    rw [← Except.ok.inj hd]
    exact ⟨rfl, rfl⟩
  · obtain ⟨witnesses, v, hv, h⟩ := h.bind
    obtain ⟨num, -, h⟩ := h.lift_bind
    obtain ⟨d, hd, rfl⟩ := map_eq_ok h.update
    have hsame : SameTip s v := scheduledWitnesses_keeps.rel s witnesses v hv
    have hid : v.dgp.headBlockId = s.dgp.headBlockId := congrArg Prod.fst hsame
    have hnum : v.dgp.headBlockNumber = s.dgp.headBlockNumber :=
      congrArg (fun x => x.2.1) hsame
    rw [← Except.ok.inj hd]
    exact ⟨hid, hnum⟩

/-- The first part of a block builds on the head and makes the block the head. -/
theorem applyBlockFront_head (h : Returns (applyBlockFront ctx b) s () t) :
    s.dgp.headBlockId = b.header.previous ∧ t.dgp.headBlockId = b.id ctx.env ∧
      t.dgp.headBlockNumber = b.blockNum := by
  obtain ⟨_, -, h⟩ := h.lift_bind
  obtain ⟨w, v, hv, h⟩ := h.bind
  obtain ⟨_, -, h⟩ := h.gets_bind.lift_bind
  obtain ⟨_, s₁, -, h⟩ := h.bind
  obtain ⟨_, s₂, -, h⟩ := h.bind
  obtain ⟨_, -, h⟩ := lookup_bind h
  obtain ⟨_, -, h⟩ := h.gets_bind.lift_bind
  obtain ⟨_, s₃, -, h⟩ := h.bind
  obtain ⟨_, s₄, h₄, h⟩ := h.bind
  obtain ⟨_, s₅, h₅, h⟩ := h.bind
  have hhead := updateGlobalDynamicData_head h₄
  have hsigning := updateSigningWitness_dgp h₅
  have hirreversible := updateLastIrreversibleBlock_head h
  rw [hsigning] at hirreversible
  exact ⟨validateBlockHeader_previous hv, hirreversible.1.trans hhead.1,
    hirreversible.2.trans hhead.2⟩

/-- A block builds on the head and becomes the head. -/
theorem applyBlock_head (h : Returns (applyBlock ctx b) s () t) :
    s.dgp.headBlockId = b.header.previous ∧ t.dgp.headBlockId = b.id ctx.env ∧
      t.dgp.headBlockNumber = b.blockNum := by
  obtain ⟨_, u, hu, h⟩ := h.bind
  obtain ⟨hprevious, hid, hnum⟩ := applyBlockFront_head hu
  have hsame := applyBlockBack_sameTip h
  have hid' : t.dgp.headBlockId = u.dgp.headBlockId := congrArg Prod.fst hsame
  have hnum' : t.dgp.headBlockNumber = u.dgp.headBlockNumber := congrArg (fun x => x.2.1) hsame
  exact ⟨hprevious, hid'.trans hid, hnum'.trans hnum⟩

end Routines

section Runs

variable {env : Env} {initSupply : ℕ} {calls calls' : List BlockCall} {call : BlockCall}
  {s t : ChainState}

/-- A state is reachable by one call more exactly if it comes from a reachable one. -/
theorem reaches_append : Reaches env initSupply (calls ++ [call]) t ↔
    ∃ s, Reaches env initSupply calls s ∧ Returns (call.run env) s () t := by
  constructor
  · intro h
    obtain ⟨s, hs, ht⟩ := Returns.forEach_append h
    obtain ⟨_, u, hu, hnil⟩ := Returns.bind ht
    obtain ⟨-, rfl⟩ := Returns.pure hnil
    exact ⟨s, hs, hu⟩
  · intro h
    obtain ⟨s, hs, ht⟩ := h
    exact Returns.intro_forEach_append hs (Returns.intro_bind ht rfl)

/-- The id of the last block of a run. -/
def lastId (env : Env) (calls : List BlockCall) : BlockId :=
  match calls.getLast? with
  | some call => call.block.id env
  | none => .null

/-- The last id is that of the last block. -/
@[simp] theorem lastId_append (env : Env) (calls : List BlockCall) (call : BlockCall) :
    lastId env (calls ++ [call]) = call.block.id env := by
  simp [lastId]

/-- The head of a state that a run reaches is the last block of the run. -/
theorem Reaches.tip (h : Reaches env initSupply calls s) :
    s.dgp.headBlockId = lastId env calls ∧ s.dgp.headBlockNumber = calls.length ∧
      s.dgp.headBlockId.num = calls.length := by
  induction calls using List.reverseRecOn generalizing s with
  | nil =>
    obtain ⟨-, rfl⟩ := Returns.pure h
    exact ⟨rfl, rfl, rfl⟩
  | append_singleton calls call ih =>
    obtain ⟨u, hu, hcall⟩ := reaches_append.mp h
    obtain ⟨hid, hnum, hidNum⟩ := ih hu
    obtain ⟨hprevious, hid', hnum'⟩ := applyBlock_head hcall
    have hblockNum : call.block.blockNum = calls.length + 1 := by
      unfold SignedBlock.blockNum
      rw [← hprevious, hidNum]
    refine ⟨?_, ?_, ?_⟩
    · rw [lastId_append]
      exact hid'
    · rw [hnum', hblockNum, List.length_append, List.length_singleton]
    · rw [hid', List.length_append, List.length_singleton]
      exact hblockNum

/-- Calls reach at most one state. -/
theorem Reaches.unique (h : Reaches env initSupply calls s) (h' : Reaches env initSupply calls t) :
    s = t :=
  congrArg Prod.snd (Except.ok.inj (h.symm.trans h'))

/-- Different blocks of a list have different ids. -/
def NoCollision (env : Env) (blocks : List SignedBlock) : Prop :=
  ∀ b ∈ blocks, ∀ c ∈ blocks, b.id env = c.id env → b = c

/-- Runs with the same head went through the same blocks. -/
theorem blocks_eq_of_head_eq {known : List SignedBlock} (hcollision : NoCollision env known)
    (hcalls : ∀ call ∈ calls, call.block ∈ known) (hcalls' : ∀ call ∈ calls', call.block ∈ known)
    (h : Reaches env initSupply calls s) (h' : Reaches env initSupply calls' t)
    (hhead : s.dgp.headBlockId = t.dgp.headBlockId) :
    calls.map (·.block) = calls'.map (·.block) := by
  induction calls using List.reverseRecOn generalizing calls' s t with
  | nil =>
    have hlength := (Reaches.tip h).2.2
    have hlength' := (Reaches.tip h').2.2
    rw [hhead] at hlength
    have hnil : calls'.length = 0 := by simpa using hlength'.symm.trans hlength
    rw [List.length_eq_zero_iff.mp hnil]
  | append_singleton calls call ih =>
    induction calls' using List.reverseRecOn with
    | nil =>
      have hlength := (Reaches.tip h).2.2
      have hlength' := (Reaches.tip h').2.2
      rw [hhead, hlength'] at hlength
      simp at hlength
    | append_singleton calls' call' =>
      have hid := (Reaches.tip h).1
      have hid' := (Reaches.tip h').1
      rw [lastId_append] at hid hid'
      obtain ⟨u, hu, hcall⟩ := reaches_append.mp h
      obtain ⟨v, hv, hcall'⟩ := reaches_append.mp h'
      have hsame : call.block = call'.block := by
        refine hcollision _ (hcalls call (by simp)) _ (hcalls' call' (by simp)) ?_
        rw [← hid, ← hid', hhead]
      have hprevious := (applyBlock_head hcall).1
      have hprevious' := (applyBlock_head hcall').1
      have hheads : u.dgp.headBlockId = v.dgp.headBlockId := by
        rw [hprevious, hprevious', hsame]
      have hinit := ih (fun c hc => hcalls c (List.mem_append_left _ hc))
        (fun c hc => hcalls' c (List.mem_append_left _ hc)) hu hv hheads
      simp [hinit, hsame]

end Runs

end Whaleshares.ChainTip
