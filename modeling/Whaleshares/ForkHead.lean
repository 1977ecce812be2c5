import Whaleshares.PathIndependence

/-!
# The head of the fork database

A push that builds on the head block, or that is not higher than it, leaves the fork
database's head at the head block. A switch of forks does not: while the blocks of the old
branch are popped, the head of the fork database walks down the new branch, and applying the
new branch does not take it up again.
-/

namespace Whaleshares.ForkHead

open Fc Protocol Objects Program Database ApplyBlock Genesis ChainRun ChainTip Process NodeRoutines
  PendingSession PathIndependence Node ForkDatabase

variable {env : Env} {ctx : Context} {b : SignedBlock} {item : ForkItem} {n m : Node}

section Agreement

/-- The item is the one of the node's head block. -/
structure HeadItem (env : Env) (n : Node) (item : ForkItem) : Prop where
  id : item.id = n.headBlockId
  num : item.num = n.headNum
  made : item.id = item.data.id env
  counted : item.num = item.data.blockNum

/-- The fork database is empty before the first block, and its head is the head block
afterwards. -/
def Agrees (env : Env) (n : Node) : Prop :=
  (n.forkDb.head = none ∧ n.headBlockId = .null ∧ n.headNum = 0) ∨
    ∃ item, n.forkDb.head = some item ∧ HeadItem env n item

/-- The block builds on the head block or is not higher than it. -/
def NoSwitch (n : Node) (b : SignedBlock) : Prop :=
  b.header.previous = n.headBlockId ∨ b.blockNum ≤ n.headNum

instance (n : Node) (b : SignedBlock) : Decidable (NoSwitch n b) :=
  inferInstanceAs (Decidable (_ ∨ _))

/-- The number of the head is that of its id. -/
theorem HeadItem.headNum (h : HeadItem env n item) : n.headBlockId.num = n.headNum := by
  rw [← h.id, ← h.num, h.counted, h.made]
  rfl

/-- The number of the head is that of its id where the two heads agree. -/
theorem Agrees.headNum (h : Agrees env n) : n.headBlockId.num = n.headNum := by
  rcases h with ⟨-, hid, hnum⟩ | ⟨item, -, hitem⟩
  · rw [hid, hnum]
    rfl
  · exact hitem.headNum

/-- The head item does not build on itself. -/
theorem HeadItem.previous_ne (h : HeadItem env n item) :
    item.data.header.previous ≠ n.headBlockId := by
  intro hsame
  have hnum : item.data.blockNum = n.headBlockId.num + 1 := by
    rw [← hsame]
    rfl
  have hcounted := h.counted
  have hheadNum := h.headNum
  have hitemNum := h.num
  omega

/-- A block that is applied on the head becomes the head, and the fork database keeps its
head. -/
theorem extendHead_ok {u : Unit} (h : extendHead ctx b n = (.ok u, m)) :
    m.headBlockId = b.id ctx.env ∧ m.headNum = b.blockNum ∧ m.forkDb.head = n.forkDb.head ∧
      m.pendingSession = n.pendingSession := by
  obtain ⟨outcome, k, hk, h⟩ := ok_of_bind h
  have hk := attempt_ok hk
  cases outcome with
  | error e =>
    obtain ⟨_, _, _, h⟩ := ok_of_bind h
    have hnone := (ok_of_ofExcept h).1
    cases hnone
  | ok v =>
    have hm : k = m := congrArg Prod.snd h
    obtain ⟨front, back, log, hfront, hback, -, hkn⟩ := applyInSession_ok hk
    obtain ⟨-, hid, hnum⟩ := applyBlock_head (hfront.intro_bind hback)
    rw [← hm, hkn]
    exact ⟨hid, hnum, setMaxSize_head _, rfl⟩

/-- A push that builds on the head makes the new block the head of both. -/
theorem pushBlockCore_extends (ctx : Context) {switched : Bool} (hn : Agrees ctx.env n)
    (hskip : ctx.skip.forkDb = false) (hprevious : b.header.previous = n.headBlockId)
    (h : pushBlockCore ctx b n = (.ok switched, m)) :
    (∃ item, m.forkDb.head = some item ∧ HeadItem ctx.env m item) ∧
      m.pendingSession = n.pendingSession := by
  unfold pushBlockCore at h
  rw [if_neg (by simp [hskip])] at h
  obtain ⟨newHead, k, hk, h⟩ := ok_of_bind h
  obtain ⟨f, hpush, hkn⟩ := pushToForkDb_ok hk
  obtain ⟨-, parent, -, hnewHead, hf⟩ := pushBlock_eq_ok hpush
  obtain ⟨k', k'', hread, h⟩ := ok_of_bind h
  have hkk' : k = k' := Except.ok.inj (congrArg Prod.fst hread)
  have hkk'' : k = k'' := congrArg Prod.snd hread
  have hnum : b.blockNum = n.headNum + 1 := by
    rw [← hn.headNum, ← hprevious]
    rfl
  have hhigher : newHead = n.forkDb.newItem ctx.env b parent := by
    rw [hnewHead]
    unfold higher
    rcases hn with ⟨hnone, -⟩ | ⟨item, hsome, hitem⟩
    · rw [hnone]
    · have hlt : item.num < (n.forkDb.newItem ctx.env b parent).num := by
        change item.num < b.blockNum
        rw [hitem.num]
        omega
      rw [hsome]
      exact if_pos hlt
  have hsame : newHead.data.header.previous = k'.headBlockId := by
    rw [hhigher, ← hkk', hkn]
    exact hprevious
  rw [if_neg (not_not.mpr hsame)] at h
  obtain ⟨_, k₁, h₁, h⟩ := ok_of_bind h
  have hm : k₁ = m := congrArg Prod.snd h
  obtain ⟨hid, hheadNum, hhead, hsession⟩ := extendHead_ok h₁
  rw [← hkk'', hkn] at hhead hsession
  rw [← hm]
  refine ⟨⟨newHead, ?_, ?_, ?_, ?_, ?_⟩, hsession⟩
  · rw [hhead, hf, hnewHead]
  · rw [hid, hhigher]
    rfl
  · rw [hheadNum, hhigher]
    rfl
  · rw [hhigher]
    rfl
  · rw [hhigher]
    rfl

/-- A push that is not higher than the head leaves the heads of both. -/
theorem pushBlockCore_lower (ctx : Context) {switched : Bool} (hn : Agrees ctx.env n)
    (hskip : ctx.skip.forkDb = false) (hlower : b.blockNum ≤ n.headNum)
    (h : pushBlockCore ctx b n = (.ok switched, m)) :
    (∃ item, m.forkDb.head = some item ∧ HeadItem ctx.env m item) ∧
      m.pendingSession = n.pendingSession := by
  unfold pushBlockCore at h
  rw [if_neg (by simp [hskip])] at h
  obtain ⟨newHead, k, hk, h⟩ := ok_of_bind h
  obtain ⟨f, hpush, hkn⟩ := pushToForkDb_ok hk
  obtain ⟨-, parent, -, hnewHead, hf⟩ := pushBlock_eq_ok hpush
  obtain ⟨k', k'', hread, h⟩ := ok_of_bind h
  have hkk' : k = k' := Except.ok.inj (congrArg Prod.fst hread)
  have hkk'' : k = k'' := congrArg Prod.snd hread
  have hpos : 0 < b.blockNum := Nat.succ_pos _
  rcases hn with ⟨-, -, hzero⟩ | ⟨item, hsome, hitem⟩
  · omega
  have hhigher : newHead = item := by
    have hnot : ¬ item.num < (n.forkDb.newItem ctx.env b parent).num := by
      change ¬ item.num < b.blockNum
      rw [hitem.num]
      omega
    rw [hnewHead]
    unfold higher
    rw [hsome]
    exact if_neg hnot
  have hother : newHead.data.header.previous ≠ k'.headBlockId := by
    rw [hhigher, ← hkk', hkn]
    exact hitem.previous_ne
  have hnotHigher : ¬ k'.headNum < newHead.num := by
    rw [hhigher, ← hkk', hkn, hitem.num]
    exact lt_irrefl _
  rw [if_pos hother, if_neg hnotHigher] at h
  have hm : k'' = m := congrArg Prod.snd h
  rw [← hm, ← hkk'', hkn]
  refine ⟨⟨item, ?_, hitem.id, hitem.num, hitem.made, hitem.counted⟩, rfl⟩
  rw [hf, ← hnewHead, hhigher]

end Agreement

section Runs

variable {initSupply : ℕ} {pushes : List BlockCall}

/-- Every push of a run uses the fork database and builds on the head block of its time or is
not higher than it. -/
def NeverSwitches (env : Env) (initSupply : ℕ) (pushes : List BlockCall) : Prop :=
  ∀ earlier call, earlier ++ [call] <+: pushes → call.skip.forkDb = false ∧
    ∀ k, pushBlocks env earlier (genesis env initSupply) = (.ok (), k) → NoSwitch k call.block

/-- The last push of a list comes after the others. -/
theorem pushBlocks_append {earlier : List BlockCall} {call : BlockCall} {u : Unit}
    (h : pushBlocks env (earlier ++ [call]) n = (.ok u, m)) :
    ∃ k switched, pushBlocks env earlier n = (.ok (), k) ∧
      Node.pushBlock (call.context env) call.block k = (.ok switched, m) := by
  obtain ⟨k, hk, h⟩ := ok_of_each_append h
  obtain ⟨_, m₁, h, hdone⟩ := ok_of_bind h
  obtain ⟨switched, m₂, h, hpure⟩ := ok_of_bind h
  have hm₁ : m₁ = m := congrArg Prod.snd hdone
  have hm₂ : m₂ = m₁ := congrArg Prod.snd hpure
  refine ⟨k, switched, hk, ?_⟩
  rw [h, hm₂, hm₁]

/-- If no push switches, the two heads agree. -/
theorem pushBlocks_agrees (hclean : NeverSwitches env initSupply pushes)
    (hrun : pushBlocks env pushes (genesis env initSupply) = (.ok (), n)) :
    Agrees env n ∧ (pushes ≠ [] → ∃ item, n.forkDb.head = some item ∧ HeadItem env n item) := by
  induction pushes using List.reverseRecOn generalizing n with
  | nil =>
    have hn : genesis env initSupply = n := congrArg Prod.snd hrun
    refine ⟨.inl ?_, fun hne => absurd rfl hne⟩
    rw [← hn]
    exact ⟨rfl, rfl, rfl⟩
  | append_singleton earlier call ih =>
    obtain ⟨k, switched, hk, hpush⟩ := pushBlocks_append hrun
    have hearlier : NeverSwitches env initSupply earlier := fun early c hc =>
      hclean early c (hc.trans (List.prefix_append _ _))
    obtain ⟨hskip, hnoSwitch⟩ := hclean earlier call List.prefix_rfl
    have hagrees := (ih hearlier hk).1
    obtain ⟨base, htop, hstanding⟩ := pushBlocks_anchored hk
    obtain ⟨m, hcore, hrestored⟩ := pushBlock_ok htop hpush
    have hid := htop.headBlockId
    have hnum : k.headNum = base.current.dgp.headBlockNumber :=
      congrArg (fun x => x.2.1) htop.sameTip
    have hbase : Agrees env
        { k with db := base, pendingTx := [], pendingSession := false } := by
      rcases hagrees with ⟨hnone, hnull, hzero⟩ | ⟨item, hsome, hitem⟩
      · exact .inl ⟨hnone, hid.symm.trans hnull, hnum.symm.trans hzero⟩
      · exact .inr ⟨item, hsome, hitem.id.trans hid, hitem.num.trans hnum, hitem.made,
          hitem.counted⟩
    have hstep : (∃ item, m.forkDb.head = some item ∧ HeadItem env m item) ∧
        m.pendingSession = false := by
      rcases hnoSwitch k hk with hprevious | hlower
      · have hbuilds : call.block.header.previous = base.current.dgp.headBlockId :=
          hprevious.trans hid
        exact pushBlockCore_extends (call.context env) hbase hskip hbuilds hcore
      · have hnotHigher : call.block.blockNum ≤ base.current.dgp.headBlockNumber := by
          rw [← hnum]
          exact hlower
        exact pushBlockCore_lower (call.context env) hbase hskip hnotHigher hcore
    obtain ⟨⟨item, hsome, hitem⟩, hidle⟩ := hstep
    have hm := hrestored hidle
    have hfinal : HeadItem env n item :=
      ⟨hitem.id.trans hm.headBlockId.symm,
        hitem.num.trans (congrArg (fun x => x.2.1) hm.sameTip).symm, hitem.made, hitem.counted⟩
    rw [← hm.sameForks] at hsome
    exact ⟨.inr ⟨item, hsome, hfinal⟩, fun _ => ⟨item, hsome, hfinal⟩⟩

/-- After a run of pushes that return, in which every block builds on the head block of its
time or is not higher than it, the heads of the fork database and of the object database are
the same block. -/
theorem fork_head_eq_head_block (hne : pushes ≠ []) (hclean : NeverSwitches env initSupply pushes)
    (hrun : pushBlocks env pushes (genesis env initSupply) = (.ok (), n)) :
    ∃ item, n.forkDb.head = some item ∧ item.id = n.headBlockId := by
  obtain ⟨item, hsome, hitem⟩ := (pushBlocks_agrees hclean hrun).2 hne
  exact ⟨item, hsome, hitem.id⟩

/-- A block, the block of a fork at the same height, and a second block on the first. -/
def sampleSideBlock : List BlockCall :=
  [sampleChain [] 0, sampleFork 0, sampleChain [] 1].map sampleCall

/-- After a block beside the head the two heads of the instance agree. -/
theorem fork_head_eq_head_block_sideBlock :
    ∃ n item, pushBlocks sampleEnv sampleSideBlock (genesis sampleEnv 1000000) = (.ok (), n) ∧
      n.forkDb.head = some item ∧ item.id = n.headBlockId := by
  have hall : ∀ i ∈ List.range sampleSideBlock.length, ∀ call ∈ sampleSideBlock[i]?,
      call.skip.forkDb = false ∧ NoSwitch (pushBlocks sampleEnv (sampleSideBlock.take i)
        (genesis sampleEnv 1000000)).2 call.block := by
    decide +kernel
  have hclean : NeverSwitches sampleEnv 1000000 sampleSideBlock := by
    rintro earlier call ⟨rest, hcalls⟩
    have hget : sampleSideBlock[earlier.length]? = some call := by simp [← hcalls]
    have htake : sampleSideBlock.take earlier.length = earlier := by simp [← hcalls]
    have hlength : earlier.length ∈ List.range sampleSideBlock.length := by
      simp [← hcalls]
    obtain ⟨hskip, hnoSwitch⟩ := hall _ hlength call hget
    refine ⟨hskip, fun k hk => ?_⟩
    rwa [htake, hk] at hnoSwitch
  have hrun := ok_of_isOk (m := pushBlocks sampleEnv sampleSideBlock)
    (s := genesis sampleEnv 1000000) (by decide +kernel)
  obtain ⟨item, hhead, hid⟩ := fork_head_eq_head_block (by decide) hclean hrun
  exact ⟨_, item, hrun, hhead, hid⟩

/-- A node that switches to a fork of two blocks ends with the first of them as the head of
the fork database, and the second as the head block. -/
theorem fork_head_ne_head_block_switch :
    ¬ ∀ (env : Env) (initSupply : ℕ) (pushes : List BlockCall) (n : Node), pushes ≠ [] →
      (∀ call ∈ pushes, call.skip.forkDb = false) →
      pushBlocks env pushes (genesis env initSupply) = (.ok (), n) →
      ∃ item, n.forkDb.head = some item ∧ item.id = n.headBlockId := by
  intro hall
  obtain ⟨item, hhead, hid⟩ := hall sampleEnv 1000000
    ([sampleChain [] 0, sampleFork 0, sampleFork 1].map sampleCall) _ (by decide)
    (by simp [sampleCall]) (ok_of_isOk (by decide +kernel))
  have hother : (pushBlocks sampleEnv
      ([sampleChain [] 0, sampleFork 0, sampleFork 1].map sampleCall)
      (genesis sampleEnv 1000000)).2.forkDb.head.map (·.id) ≠
      some (pushBlocks sampleEnv ([sampleChain [] 0, sampleFork 0, sampleFork 1].map sampleCall)
        (genesis sampleEnv 1000000)).2.headBlockId := by
    decide +kernel
  refine hother ?_
  rw [hhead]
  exact congrArg some hid

end Runs

end Whaleshares.ForkHead
