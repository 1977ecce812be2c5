import Whaleshares.BlockLookup
import Whaleshares.PendingState

/-!
# Fetching blocks by number

`fetch_block_by_number` takes the answer of the fork database where it is the only block of
its height and asks the log of the irreversible blocks otherwise. As long as no push adds a
rival to a block that is still reversible, the two together have every block of the chain. A
single rival hides the block: the fork database has two answers and the log has none.
-/

namespace Whaleshares.BlockFetch

open Config Fc Protocol Objects Program Database ApplyBlock Genesis ChainRun ChainTip Footprint
  Process NodeRoutines ChainLadder PendingSession PathIndependence PendingState LastIrreversible
  Irreversibility BlockLookup Node

open ForkDatabase hiding fetchBlockByNumber

section Filing

variable {env : Env} {blocks log : List SignedBlock} {index : List ForkItem} {item : ForkItem}
  {b : SignedBlock} {k : ℕ}

/-- The block of a number. -/
def blockAt (blocks : List SignedBlock) (k : ℕ) : Option SignedBlock := blocks[k - 1]?

/-- The blocks of a chain, filed in the log and in the index of the fork database. -/
structure Filed (env : Env) (blocks log : List SignedBlock) (index : List ForkItem) : Prop where
  ids : (index.map (·.id)).Nodup
  made : ∀ x ∈ index, x.id = x.data.id env ∧ x.num = x.data.blockNum
  /-- The log has the first blocks of the chain. -/
  logged : log <+: blocks
  /-- Above the log the index has no other blocks than those of the chain. -/
  main : ∀ x ∈ index, log.length < x.num → x.num ≤ blocks.length → blockAt blocks x.num = some x.data
  /-- Every block of the chain is in the index, or in the log with nothing of its height in
  the index. -/
  whole : ∀ k, 1 ≤ k → k ≤ blocks.length →
    (∃ x ∈ index, x.num = k ∧ blockAt blocks k = some x.data) ∨
      k ≤ log.length ∧ ∀ x ∈ index, x.num ≠ k

/-- The number of a filed item is that of its id. -/
theorem Filed.num_eq (h : Filed env blocks log index) (hitem : item ∈ index) :
    item.num = item.id.num := by
  obtain ⟨hid, hnum⟩ := h.made item hitem
  rw [hid, hnum]
  rfl

/-- Filed items with one id are one item. -/
theorem Filed.unique (h : Filed env blocks log index) {x y : ForkItem} (hx : x ∈ index)
    (hy : y ∈ index) (hid : x.id = y.id) : x = y :=
  List.inj_on_of_nodup_map h.ids hx hy hid

/-- The only element of a list that passes a test is what the filter leaves. -/
theorem filter_eq_singleton {α : Type} {l : List α} {p : α → Bool} {a : α} (hnodup : l.Nodup)
    (ha : a ∈ l) (hp : p a = true) (hunique : ∀ x ∈ l, p x = true → x = a) : l.filter p = [a] := by
  have hmem : ∀ x, x ∈ l.filter p ↔ x ∈ [a] := by
    intro x
    rw [List.mem_filter, List.mem_singleton]
    refine ⟨fun hx => hunique x hx.1 hx.2, ?_⟩
    rintro rfl
    exact ⟨ha, hp⟩
  have hperm : (l.filter p).Perm [a] :=
    (List.perm_ext_iff_of_nodup (hnodup.filter p) (List.nodup_singleton a)).mpr hmem
  exact List.perm_singleton.mp hperm

/-- Above the log the index has exactly one block of every height of the chain. -/
theorem Filed.single (h : Filed env blocks log index) (hlow : log.length < k)
    (hk : k ≤ blocks.length) :
    ∃ x, index.filter (fun y => y.num = k) = [x] ∧ x.num = k ∧ blockAt blocks k = some x.data ∧
      x ∈ index := by
  obtain ⟨x, hx, hnum, hdata⟩ := (h.whole k (by omega) hk).resolve_right fun hlogged => by omega
  refine ⟨x, filter_eq_singleton (List.Nodup.of_map _ h.ids) hx (by simp [hnum]) ?_, hnum, hdata, hx⟩
  intro y hy hynum
  have hynum : y.num = k := by simpa using hynum
  have hydata := h.main y hy (by omega) (by omega)
  rw [hynum, hdata] at hydata
  refine h.unique hy hx ?_
  rw [(h.made y hy).1, (h.made x hx).1, Option.some.inj hydata]

/-- The lookup finds the block of the chain. -/
theorem Filed.fetch {n : Node} (h : Filed env blocks n.blockLog n.forkDb.index) (hpos : 1 ≤ k)
    (hk : k ≤ blocks.length) : fetchBlockByNumber n k = blockAt blocks k := by
  have hread : k ≤ n.blockLog.length → readBlockByNum n k = blockAt blocks k := by
    intro hlow
    unfold readBlockByNum blockAt
    rw [if_neg (by omega)]
    obtain ⟨rest, hrest⟩ := h.logged
    rw [← hrest, List.getElem?_append_left (by omega)]
  unfold fetchBlockByNumber ForkDatabase.fetchBlockByNumber
  rcases Nat.lt_or_ge n.blockLog.length k with hhigh | hlow
  · obtain ⟨x, hfilter, -, hdata, -⟩ := h.single hhigh hk
    rw [hfilter, hdata]
  · split
    next x hfilter =>
      have hx : x ∈ n.forkDb.index.filter fun y => y.num = k := by
        rw [hfilter]
        exact List.mem_singleton_self x
      obtain ⟨hmem, hnum⟩ := List.mem_filter.mp hx
      have hnum : x.num = k := by simpa using hnum
      rcases h.whole k hpos hk with ⟨y, hy, hynum, hydata⟩ | ⟨-, hnone⟩
      · have hyx : y ∈ [x] := by
          rw [← hfilter]
          exact List.mem_filter.mpr ⟨hy, by simp [hynum]⟩
        rw [hydata, List.mem_singleton.mp hyx]
      · exact absurd hnum (hnone x hmem)
    next => exact hread hlow

/-- A longer log of the same chain keeps the items filed. -/
theorem Filed.extend_log (h : Filed env blocks log index) {log' : List SignedBlock}
    (hmore : log <+: log') (hlog' : log' <+: blocks) : Filed env blocks log' index := by
  have hlength := hmore.length_le
  refine ⟨h.ids, h.made, hlog', fun x hx hlow => h.main x hx (by omega), fun k hpos hk => ?_⟩
  exact (h.whole k hpos hk).imp_right fun hlogged => ⟨by omega, hlogged.2⟩

/-- The blocks of the lowest heights, which are logged, leave the index. -/
theorem Filed.evict (h : Filed env blocks log index) {bound : ℕ} (hbound : bound ≤ log.length + 1) :
    Filed env blocks log (index.filter fun x => bound ≤ x.num) := by
  refine ⟨h.ids.sublist (List.filter_sublist.map _), fun x hx => h.made x (List.mem_filter.mp hx).1,
    h.logged, fun x hx => h.main x (List.mem_filter.mp hx).1, fun k hpos hk => ?_⟩
  rcases h.whole k hpos hk with ⟨x, hx, hnum, hdata⟩ | ⟨hlow, hnone⟩
  · by_cases hkept : bound ≤ k
    · exact .inl ⟨x, List.mem_filter.mpr ⟨hx, by simp [hnum, hkept]⟩, hnum, hdata⟩
    · refine .inr ⟨by omega, fun y hy hynum => hkept ?_⟩
      have hy := (List.mem_filter.mp hy).2
      simp only [decide_eq_true_eq] at hy
      omega
  · exact .inr ⟨hlow, fun y hy => hnone y (List.mem_filter.mp hy).1⟩

/-- A block that is not of the chain leaves the index. -/
theorem Filed.remove (h : Filed env blocks log index) {id : BlockId}
    (hid : ∀ x ∈ index, x.id = id → blocks.length < x.num) :
    Filed env blocks log (index.filter fun x => x.id ≠ id) := by
  refine ⟨h.ids.sublist (List.filter_sublist.map _), fun x hx => h.made x (List.mem_filter.mp hx).1,
    h.logged, fun x hx => h.main x (List.mem_filter.mp hx).1, fun k hpos hk => ?_⟩
  rcases h.whole k hpos hk with ⟨x, hx, hnum, hdata⟩ | ⟨hlow, hnone⟩
  · refine .inl ⟨x, List.mem_filter.mpr ⟨hx, ?_⟩, hnum, hdata⟩
    have hne : x.id ≠ id := fun hsame => by
      have habove := hid x hx hsame
      omega
    simpa using hne
  · exact .inr ⟨hlow, fun y hy => hnone y (List.mem_filter.mp hy).1⟩

/-- A new block above the chain, or of a logged height that the index has already. -/
theorem Filed.insert (h : Filed env blocks log index)
    (hmade : item.id = item.data.id env ∧ item.num = item.data.blockNum)
    (hfresh : ∀ x ∈ index, x.id ≠ item.id)
    (hplace : blocks.length < item.num ∨ item.num ≤ log.length ∧ ∃ x ∈ index, x.num = item.num) :
    Filed env blocks log (index ++ [item]) := by
  have hlength := h.logged.length_le
  refine ⟨?_, fun x hx => ?_, h.logged, fun x hx hlow hhigh => ?_, fun k hpos hk => ?_⟩
  · rw [List.map_append]
    refine h.ids.append (List.nodup_singleton _) ?_
    rw [List.map_singleton, List.disjoint_singleton]
    intro hmem
    obtain ⟨x, hx, hsame⟩ := List.mem_map.mp hmem
    exact hfresh x hx hsame
  · rcases List.mem_append.mp hx with hx | hx
    · exact h.made x hx
    · rw [List.mem_singleton.mp hx]
      exact hmade
  · rcases List.mem_append.mp hx with hx | hx
    · exact h.main x hx hlow hhigh
    · rw [List.mem_singleton.mp hx] at hlow hhigh
      omega
  · rcases h.whole k hpos hk with ⟨x, hx, hnum, hdata⟩ | ⟨hlow, hnone⟩
    · exact .inl ⟨x, List.mem_append_left _ hx, hnum, hdata⟩
    · refine .inr ⟨hlow, fun y hy hynum => ?_⟩
      rcases List.mem_append.mp hy with hy | hy
      · exact hnone y hy hynum
      · rw [List.mem_singleton.mp hy] at hynum
        rcases hplace with habove | ⟨-, x, hx, hsame⟩
        · omega
        · exact hnone x hx (hsame.trans hynum)

/-- The chain grows by a block that the index has. -/
theorem Filed.grow (h : Filed env blocks log index) (hitem : item ∈ index)
    (hnum : item.num = blocks.length + 1) (honly : ∀ x ∈ index, x.num = blocks.length + 1 → x = item) :
    Filed env (blocks ++ [item.data]) log index := by
  have hlength := h.logged.length_le
  have hold : ∀ k, k ≤ blocks.length → 1 ≤ k →
      blockAt (blocks ++ [item.data]) k = blockAt blocks k := by
    intro k hk hpos
    exact List.getElem?_append_left (by omega)
  have hnew : blockAt (blocks ++ [item.data]) (blocks.length + 1) = some item.data := by
    simp [blockAt]
  refine ⟨h.ids, h.made, h.logged.trans (List.prefix_append _ _), fun x hx hlow hhigh => ?_,
    fun k hpos hk => ?_⟩
  · rw [List.length_append, List.length_singleton] at hhigh
    by_cases hlast : x.num = blocks.length + 1
    · rw [hlast, honly x hx hlast]
      exact hnew
    · rw [hold x.num (by omega) (by omega)]
      exact h.main x hx hlow (by omega)
  · rw [List.length_append, List.length_singleton] at hk
    by_cases hlast : k = blocks.length + 1
    · rw [hlast]
      exact .inl ⟨item, hitem, hnum, hnew⟩
    · rw [hold k (by omega) hpos]
      exact h.whole k hpos (by omega)

end Filing

section Appending

variable {ctx : Context} {blocks : List SignedBlock} {n : Node}

/-- The loop appends the next blocks of the chain. -/
theorem appendBlocks_filed {left : ℕ} (h : Filed ctx.env blocks n.blockLog n.forkDb.index)
    (hleft : n.blockLog.length + left ≤ blocks.length) :
    appendBlocks left n.blockLog.length n =
      (.ok (), { n with blockLog := blocks.take (n.blockLog.length + left) }) := by
  induction left generalizing n with
  | zero =>
    have hlog : blocks.take n.blockLog.length = n.blockLog :=
      (List.prefix_iff_eq_take.mp h.logged).symm
    rw [Nat.add_zero, hlog]
    rfl
  | succ left ih =>
    obtain ⟨x, hfilter, hnum, hdata, hx⟩ := h.single (Nat.lt_add_one n.blockLog.length) (by omega)
    have hfound : n.forkDb.fetchBlockOnMainBranchByNumber (n.blockLog.length + 1) = some x := by
      unfold fetchBlockOnMainBranchByNumber ForkDatabase.fetchBlockByNumber
      rw [hfilter]
    have happend : append x.data n = (.ok (), { n with blockLog := n.blockLog ++ [x.data] }) := by
      have hnumber : x.data.blockNum = n.blockLog.length + 1 := by
        rw [← hnum]
        exact (h.made x hx).2.symm
      unfold append
      rw [if_pos (by omega)]
    have hmore : n.blockLog ++ [x.data] = blocks.take (n.blockLog.length + 1) := by
      rw [List.take_add_one, ← List.prefix_iff_eq_take.mp h.logged]
      have hget : blocks[n.blockLog.length]? = some x.data := hdata
      rw [hget]
      rfl
    have hfiled : Filed ctx.env blocks (n.blockLog ++ [x.data]) n.forkDb.index := by
      refine h.extend_log (List.prefix_append _ _) ?_
      rw [hmore]
      exact List.take_prefix _ _
    unfold appendBlocks
    rw [read_bind, hfound]
    change (append x.data >>= fun _ => appendBlocks left (n.blockLog.length + 1)) n = _
    rw [bind_of_ok happend]
    have hrest := ih (n := { n with blockLog := n.blockLog ++ [x.data] }) hfiled (by simp; omega)
    simp only [List.length_append, List.length_singleton] at hrest
    rw [hrest, Nat.add_assoc, Nat.add_comm 1 left]

/-- A log that is the beginning of a chain is numbered. -/
theorem logNumbered_of_prefix {env : Env} {initSupply : ℕ} {chain : List BlockCall} {s : ChainState}
    (hs : Reaches env initSupply chain s) (hlog : n.blockLog <+: chain.map (·.block)) :
    LogNumbered n := by
  have hlength := hlog.length_le
  rw [List.length_map] at hlength
  unfold LogNumbered logHeadNum
  cases hlast : n.blockLog.getLast? with
  | none => simp [List.getLast?_eq_none_iff.mp hlast]
  | some b =>
    have hne : n.blockLog ≠ [] := by
      intro hnil
      rw [hnil] at hlast
      cases hlast
    have hpos : 1 ≤ n.blockLog.length := List.length_pos_iff.mpr hne
    have hget : n.blockLog[n.blockLog.length - 1]? = some b := by
      rw [← List.getLast?_eq_getElem?]
      exact hlast
    obtain ⟨rest, hrest⟩ := hlog
    have hchain : (chain.map (·.block))[n.blockLog.length - 1]? = some b := by
      rw [← hrest, List.getElem?_append_left (by omega)]
      exact hget
    rw [List.getElem?_map, Option.map_eq_some_iff] at hchain
    obtain ⟨call, hcall, hblock⟩ := hchain
    have hnum := num_mainId hs hpos hlength
    unfold mainId at hnum
    rw [if_neg (by omega), hcall] at hnum
    change b.blockNum = n.blockLog.length
    rw [← hblock]
    exact hnum

/-- The fork database is not higher than the head, and the last irreversible block is one of
the chain. -/
structure Settled (blocks : List SignedBlock) (f : ForkDatabase)
    (dpo : DynamicGlobalPropertyObject) : Prop where
  irreversible : dpo.lastIrreversibleBlockNum ≤ blocks.length
  higher : blocks.length ≤ dpo.headBlockNumber
  head : ∀ h ∈ f.head, h.num ≤ dpo.headBlockNumber

/-- A smaller size keeps the items that are high enough. -/
theorem setMaxSize_index (f : ForkDatabase) (size : ℕ) :
    (f.setMaxSize size).index =
      f.index.filter fun x => (f.head.map fun h => h.num - size).getD 0 ≤ x.num := by
  unfold setMaxSize
  cases f.head with
  | none => simp
  | some h => rfl

/-- The update of the irreversible block moves blocks of the chain to the log and takes only
logged heights out of the index. -/
theorem commitIrreversible_filed (ctx : Context) (hskip : ctx.skip.blockLog = false)
    (h : Filed ctx.env blocks n.blockLog n.forkDb.index) (hnumbered : LogNumbered n)
    (hsettled : Settled blocks n.forkDb n.state.dgp) :
    ∃ log, commitIrreversible ctx n = (.ok (), { n with
        db := n.db.commit n.state.dgp.lastIrreversibleBlockNum
        blockLog := log
        forkDb := n.forkDb.setMaxSize (cacheSize n.state.dgp) }) ∧
      Filed ctx.env blocks log (n.forkDb.setMaxSize (cacheSize n.state.dgp)).index := by
  have hlow := hsettled.irreversible
  have hlength := h.logged.length_le
  let left := n.state.dgp.lastIrreversibleBlockNum - n.blockLog.length
  have hleft : n.blockLog.length + left ≤ blocks.length := by omega
  have hupdate : updateBlockLog ctx n.state.dgp.lastIrreversibleBlockNum
      { n with db := n.db.commit n.state.dgp.lastIrreversibleBlockNum } =
      (.ok (), { n with
        db := n.db.commit n.state.dgp.lastIrreversibleBlockNum
        blockLog := blocks.take (n.blockLog.length + left) }) := by
    have hlogHead : logHeadNum { n with db := n.db.commit n.state.dgp.lastIrreversibleBlockNum } =
        n.blockLog.length := hnumbered
    unfold updateBlockLog
    rw [if_neg (by simp [hskip]), read_bind, hlogHead]
    exact appendBlocks_filed (n := { n with db := n.db.commit n.state.dgp.lastIrreversibleBlockNum })
      h hleft
  refine ⟨blocks.take (n.blockLog.length + left), ?_, ?_⟩
  · unfold commitIrreversible
    rw [read_bind, change_bind, bind_of_ok hupdate]
    rfl
  · have hmore : n.blockLog <+: blocks.take (n.blockLog.length + left) := by
      rw [List.prefix_iff_eq_take.mp h.logged, List.length_take, Nat.min_eq_left hlength]
      exact List.take_prefix_take_left (by omega)
    rw [setMaxSize_index]
    refine (h.extend_log hmore (List.take_prefix _ _)).evict ?_
    rw [List.length_take, Nat.min_eq_left hleft]
    cases hhead : n.forkDb.head with
    | none => exact Nat.zero_le _
    | some head =>
      have hle := hsettled.head head (by rw [hhead]; rfl)
      have hhigher := hsettled.higher
      change head.num - cacheSize n.state.dgp ≤ n.blockLog.length + left + 1
      unfold cacheSize
      omega

/-- Whatever becomes of a block, the blocks of the chain below it stay filed. -/
theorem applyInSession_filed (ctx : Context) {b : SignedBlock} (hskip : ctx.skip.blockLog = false)
    (h : Filed ctx.env blocks n.blockLog n.forkDb.index) (hnumbered : LogNumbered n)
    (hsettled : ∀ front, Returns (applyBlockFront ctx b) n.db.current () front →
      Settled blocks n.forkDb front.dgp) :
    Filed ctx.env blocks (applyInSession ctx b n).2.blockLog
      (applyInSession ctx b n).2.forkDb.index := by
  have hsame : ∀ {α : Type} (p : Chain α) (m : Node),
      (onState p m).2.blockLog = m.blockLog ∧ (onState p m).2.forkDb = m.forkDb := by
    intro α p m
    unfold onState
    split
    · exact ⟨rfl, rfl⟩
    · exact ⟨rfl, rfl⟩
  have hbody : Filed ctx.env blocks (Node.applyBlock ctx b { n with db := n.db.start }).2.blockLog
      (Node.applyBlock ctx b { n with db := n.db.start }).2.forkDb.index := by
    unfold Node.applyBlock
    rw [bind_apply]
    cases hfront : onState (applyBlockFront ctx b) { n with db := n.db.start } with
    | mk r k =>
      cases r with
      | error e =>
        rw [onState_error hfront]
        exact h
      | ok u =>
        obtain ⟨front, hreturns, rfl⟩ := onState_ok hfront
        obtain ⟨log, hcommit, hfiled⟩ := commitIrreversible_filed ctx
          (n := { n with db := n.db.start.write front }) hskip h hnumbered (hsettled front hreturns)
        change Filed ctx.env blocks
          ((commitIrreversible ctx >>= fun _ => onState (applyBlockBack ctx b))
            { n with db := n.db.start.write front }).2.blockLog
          ((commitIrreversible ctx >>= fun _ => onState (applyBlockBack ctx b))
            { n with db := n.db.start.write front }).2.forkDb.index
        rw [bind_of_ok hcommit, (hsame _ _).1, (hsame _ _).2]
        exact hfiled
  unfold applyInSession
  rw [inSession_eq]
  cases hrun : Node.applyBlock ctx b { n with db := n.db.start } with
  | mk r m =>
    rw [hrun] at hbody
    cases r with
    | ok u => exact hbody
    | error e => exact hbody

end Appending

section Steps

variable {env : Env} {initSupply : ℕ} {chain : List BlockCall} {floor : ℕ} {p : BlockCall}
  {n m : Node}

/-- The head of the fork database builds on the head block: it is a block whose push failed. -/
def LeftBehind (n : Node) : Prop :=
  ∃ h ∈ n.forkDb.head, h.data.header.previous = n.headBlockId

/-- The index of the fork database has a block of the id. -/
def Indexed (env : Env) (n : Node) (b : SignedBlock) : Prop :=
  ∃ x ∈ n.forkDb.index, x.id = b.id env

/-- The push of a block gives no block of the chain a rival at a height above the log: the
fork database refuses the block, or it builds on the head block, or the fork database knows it
already, or it is of a logged height that the fork database has already. After a push that
failed on the head block, only a new block of a logged height is sure to be refused again. -/
inductive NoRival (env : Env) (n : Node) (b : SignedBlock) : Prop
  | refused (h : (n.forkDb.pushBlock env b).isOk = false)
  | next (h : b.header.previous = n.headBlockId)
  | known (hhead : ¬ LeftBehind n) (h : Indexed env n b)
  | logged (hhead : ¬ LeftBehind n) (h : b.blockNum ≤ n.blockLog.length)
      (hheight : ∃ x ∈ n.forkDb.index, x.num = b.blockNum)
  | undone (hhead : LeftBehind n) (h : b.blockNum ≤ n.blockLog.length) (hnew : ¬ Indexed env n b)

/-- A node without pending transactions whose blocks are filed. -/
structure Serving (env : Env) (initSupply : ℕ) (chain : List BlockCall) (floor : ℕ) (n : Node) :
    Prop where
  idle : n.pendingSession = false
  perch : Perch env initSupply chain floor n.db
  filed : Filed env (chain.map (·.block)) n.blockLog n.forkDb.index
  above : ∀ x ∈ n.forkDb.index, x.num ≤ chain.length
  head : ∀ h ∈ n.forkDb.head, h.num ≤ chain.length ∨
    h.num = chain.length + 1 ∧ h.data.header.previous = n.headBlockId
  counted : ∀ h ∈ n.forkDb.head, h.num = h.data.blockNum

/-- The head of such a node is the last block of its chain. -/
theorem Serving.tip (h : Serving env initSupply chain floor n) :
    n.headNum = chain.length ∧ n.headBlockId.num = chain.length :=
  (Reaches.tip h.perch.ladder.current).2

/-- The settings of a block on the chain. -/
theorem Serving.settled (h : Serving env initSupply chain floor n) {f : ForkDatabase}
    {b : SignedBlock} {front : ChainState} (hhead : ∀ x ∈ f.head, x.num ≤ chain.length + 1)
    (hfront : Returns (applyBlockFront (p.context env) b) n.db.current () front) :
    Settled (chain.map (·.block)) f front.dgp ∧ front.dgp.headBlockNumber = chain.length + 1 := by
  obtain ⟨hprevious, -, hnum⟩ := applyBlockFront_head hfront
  have hlib := (Reaches.front_lib { p with block := b } h.perch.ladder.current hfront).2
  have hcall : ({ p with block := b } : BlockCall).block.blockNum = chain.length + 1 :=
    LastIrreversible.blockNum_eq h.perch.ladder.current hprevious
  have hblockNum : b.blockNum = chain.length + 1 := hcall
  rw [hblockNum] at hnum
  refine ⟨⟨?_, ?_, fun x hx => ?_⟩, hnum⟩
  · rw [List.length_map]
    exact hlib
  · rw [List.length_map, hnum]
    exact Nat.le_succ _
  · rw [hnum]
    exact hhead x hx

/-- The log of such a node is numbered. -/
theorem Serving.numbered (h : Serving env initSupply chain floor n) : LogNumbered n :=
  logNumbered_of_prefix h.perch.ladder.current h.filed.logged

/-- A block that builds on the head block is new to the fork database. -/
theorem Serving.next_new (hn : Serving env initSupply chain floor n) {b : SignedBlock}
    (hnext : b.header.previous = n.headBlockId) :
    b.blockNum = chain.length + 1 ∧ ∀ x ∈ n.forkDb.index, x.id ≠ b.id env := by
  have hnum : b.blockNum = chain.length + 1 := by
    unfold SignedBlock.blockNum
    rw [hnext, hn.tip.2]
  refine ⟨hnum, fun x hx hid => ?_⟩
  have habove := hn.above x hx
  have hxnum := hn.filed.num_eq hx
  rw [hid] at hxnum
  change x.num = b.blockNum at hxnum
  omega

/-- Extending the head leaves what its session leaves. -/
theorem extendHead_state (ctx : Context) (b : SignedBlock) (k : Node) :
    (extendHead ctx b k).2 = match applyInSession ctx b k with
      | (.ok _, m) => m
      | (.error _, m) => { m with forkDb := m.forkDb.remove (b.id ctx.env) } := by
  unfold extendHead
  cases hrun : applyInSession ctx b k with
  | mk r m =>
    rw [bind_of_ok (attempt_of hrun)]
    cases r with
    | ok u => rfl
    | error e => rfl

/-- The push of a block on the head block serves, whether the block is applied or removed
again. -/
theorem extendHead_serving (hskip : p.skip.blockLog = false)
    (hn : Serving env initSupply chain floor n) {b : SignedBlock} {f : ForkDatabase}
    {item top : ForkItem} (hnext : b.header.previous = n.headBlockId)
    (hindex : f.index = n.forkDb.index ++ [item]) (hid : item.id = b.id env)
    (hnum : item.num = b.blockNum) (hdata : item.data = b) (hhead : f.head = some top)
    (htop : top.num = chain.length + 1) (htopNext : top.data.header.previous = n.headBlockId)
    (hcounted : top.num = top.data.blockNum) :
    ∃ chain' floor', Serving env initSupply chain' floor'
      (extendHead (p.context env) b { n with forkDb := f }).2 := by
  obtain ⟨hblockNum, hnew⟩ := hn.next_new hnext
  have hlength : (chain.map (·.block)).length = chain.length := List.length_map _
  have hfiled : Filed env (chain.map (·.block)) n.blockLog f.index := by
    rw [hindex]
    refine hn.filed.insert ⟨by rw [hid, hdata], by rw [hnum, hdata]⟩ ?_ (.inl ?_)
    · rw [hid]
      exact hnew
    · rw [hnum, hblockNum, hlength]
      exact Nat.lt_succ_self _
  have hsettled : ∀ front, Returns (applyBlockFront (p.context env) b) n.db.current () front →
      Settled (chain.map (·.block)) f front.dgp ∧
        front.dgp.headBlockNumber = chain.length + 1 := by
    intro front hfront
    refine hn.settled (fun x hx => ?_) hfront
    rw [hhead] at hx
    rw [← Option.some.inj hx, htop]
  have hkept := applyInSession_filed (p.context env) (n := { n with forkDb := f }) hskip
    hfiled hn.numbered fun front hfront => (hsettled front hfront).1
  have hmem : ∀ x ∈ f.index, x.num ≤ chain.length ∨ x = item := by
    intro x hx
    rw [hindex] at hx
    exact (List.mem_append.mp hx).imp (hn.above x) List.mem_singleton.mp
  rw [extendHead_state]
  cases hrun : applyInSession (p.context env) b { n with forkDb := f } with
  | mk r m =>
    rw [hrun] at hkept
    cases r with
    | ok u =>
      obtain ⟨front, back, log, hfront, hback, -, hm⟩ := applyInSession_ok hrun
      obtain ⟨hperch, -⟩ := hn.perch.step { p with block := b } hfront hback
      have hheadNum := (hsettled front hfront).2
      have hforks : m.forkDb = f.setMaxSize (cacheSize front.dgp) := by
        rw [hm]
        rfl
      have hkeptItem : item ∈ m.forkDb.index := by
        rw [hforks]
        refine mem_setMaxSize_index.mpr ⟨?_, fun h hh => ?_⟩
        · rw [hindex]
          exact List.mem_append_right _ (List.mem_singleton_self item)
        · rw [hhead] at hh
          rw [← Option.some.inj hh, htop, hnum, hblockNum]
          exact Nat.sub_le _ _
      refine ⟨_, _, ⟨?_, by rw [hm]; exact hperch, ?_, fun x hx => ?_, fun h hh => ?_,
        fun h hh => ?_⟩⟩
      · rw [hm]
        exact hn.idle
      · rw [List.map_append]
        have hgrow := hkept.grow hkeptItem (by rw [hlength, hnum, hblockNum]) fun x hx hxnum => by
          rw [hforks] at hx
          refine (hmem x (mem_setMaxSize_index.mp hx).1).resolve_left fun hle => ?_
          rw [hlength] at hxnum
          omega
        rw [hdata] at hgrow
        exact hgrow
      · rw [hforks] at hx
        rw [List.length_append, List.length_singleton]
        rcases hmem x (mem_setMaxSize_index.mp hx).1 with hle | rfl
        · omega
        · omega
      · rw [hforks, setMaxSize_head, hhead] at hh
        rw [List.length_append, List.length_singleton, ← Option.some.inj hh]
        exact .inl htop.le
      · rw [hforks, setMaxSize_head, hhead] at hh
        rw [← Option.some.inj hh]
        exact hcounted
    | error e =>
      have hopen : ∀ front, Returns (applyBlockFront (p.context env) b) n.db.current () front →
          (front.dgp.lastIrreversibleBlockNum : ℤ) ≤ n.db.revision := by
        intro front hfront
        have hlib := (Reaches.front_lib { p with block := b } hn.perch.ladder.current hfront).2
        rw [hn.perch.ladder.revision]
        omega
      have hafter : m.pendingSession = false ∧ (∃ floor', Perch env initSupply chain floor' m.db) ∧
          m.headBlockId = n.headBlockId ∧ m.forkDb.head = f.head ∧
          ∀ x ∈ m.forkDb.index, x ∈ f.index := by
        rcases applyInSession_error hrun hopen with rfl | ⟨front, log, g, hfront, hg, rfl⟩
        · exact ⟨hn.idle, ⟨floor, hn.perch⟩, rfl, rfl, fun x hx => hx⟩
        · have hlib := (Reaches.front_lib { p with block := b } hn.perch.ladder.current hfront).2
          refine ⟨hn.idle, ⟨_, (hn.perch.commit hlib).1⟩, rfl, ?_, fun x hx => ?_⟩
          · rcases hg with rfl | rfl
            · rfl
            · exact setMaxSize_head _
          · rcases hg with rfl | rfl
            · exact hx
            · exact (mem_setMaxSize_index.mp hx).1
      obtain ⟨hidle, ⟨floor', hperch⟩, hsameHead, hsameTop, hfewer⟩ := hafter
      refine ⟨chain, floor', ⟨hidle, hperch, ?_, fun x hx => ?_, fun h hh => ?_, fun h hh => ?_⟩⟩
      · refine hkept.remove fun x hx hxid => ?_
        rcases hmem x (hfewer x hx) with hle | rfl
        · have hxnum := hkept.num_eq hx
          rw [hxid] at hxnum
          change x.num = b.blockNum at hxnum
          omega
        · rw [hlength, hnum, hblockNum]
          exact Nat.lt_succ_self _
      · obtain ⟨hx, hne⟩ := List.mem_filter.mp hx
        have hne : x.id ≠ b.id env := of_decide_eq_true hne
        refine (hmem x (hfewer x hx)).resolve_right ?_
        rintro rfl
        exact hne hid
      · change m.forkDb.head = some h at hh
        rw [hsameTop, hhead] at hh
        rw [← Option.some.inj hh]
        exact .inr ⟨htop, htopNext.trans hsameHead.symm⟩
      · change m.forkDb.head = some h at hh
        rw [hsameTop, hhead] at hh
        rw [← Option.some.inj hh]
        exact hcounted

/-- A push that the fork database takes in without a switch. -/
theorem pushBlockCore_stays (ctx : Context) {b : SignedBlock} {top : ForkItem} {f : ForkDatabase}
    (hskip : ctx.skip.forkDb = false) (hpush : n.forkDb.pushBlock ctx.env b = .ok (top, f))
    (hother : top.data.header.previous ≠ n.headBlockId) (hlow : top.num ≤ n.headNum) :
    (pushBlockCore ctx b n).2 = { n with forkDb := f } := by
  have htop : pushToForkDb ctx b n = (.ok top, { n with forkDb := f }) := by
    unfold pushToForkDb
    rw [hpush]
  have hnot : ¬ n.headNum < top.num := Nat.not_lt.mpr hlow
  unfold pushBlockCore
  rw [if_neg (by simp [hskip]), bind_of_ok htop, read_bind]
  split
  · split
    next hhigher => exact absurd hhigher hnot
    next => rfl
  next hnext => exact absurd hother hnext

/-- A push whose new fork head builds on the head block. -/
theorem pushBlockCore_next (ctx : Context) {b : SignedBlock} {top : ForkItem} {f : ForkDatabase}
    (hskip : ctx.skip.forkDb = false) (hpush : n.forkDb.pushBlock ctx.env b = .ok (top, f))
    (hnext : top.data.header.previous = n.headBlockId) :
    (pushBlockCore ctx b n).2 = (extendHead ctx b { n with forkDb := f }).2 := by
  have htop : pushToForkDb ctx b n = (.ok top, { n with forkDb := f }) := by
    unfold pushToForkDb
    rw [hpush]
  unfold pushBlockCore
  rw [if_neg (by simp [hskip]), bind_of_ok htop, read_bind]
  split
  next hother => exact absurd hnext hother
  · rw [bind_apply]
    cases hrun : extendHead ctx b { n with forkDb := f } with
    | mk r m =>
      cases r with
      | ok u => rfl
      | error e => rfl

/-- A block that the fork database refuses changes nothing. -/
theorem pushBlockCore_refused (ctx : Context) {b : SignedBlock} (hskip : ctx.skip.forkDb = false)
    (hpush : (n.forkDb.pushBlock ctx.env b).isOk = false) : (pushBlockCore ctx b n).2 = n := by
  cases hresult : n.forkDb.pushBlock ctx.env b with
  | ok pair =>
    rw [hresult] at hpush
    cases hpush
  | error e =>
    have htop : pushToForkDb ctx b n = (.error e, n) := by
      unfold pushToForkDb
      rw [hresult]
    unfold pushBlockCore
    rw [if_neg (by simp [hskip]), bind_of_error htop]

/-- The fork database keeps its index, or gets a new block. -/
theorem insert_eq (f : ForkDatabase) (item : ForkItem) :
    (f.insert item = f.index ∧ ∃ x ∈ f.index, x.id = item.id) ∨
      f.insert item = f.index ++ [item] ∧ ∀ x ∈ f.index, x.id ≠ item.id := by
  unfold ForkDatabase.insert findById
  cases hfind : f.index.find? fun x => x.id = item.id with
  | some x =>
    refine .inl ⟨by simp, x, List.mem_of_find?_eq_some hfind, ?_⟩
    simpa using List.find?_some hfind
  | none =>
    refine .inr ⟨by simp, fun x hx => ?_⟩
    simpa using List.find?_eq_none.mp hfind x hx

/-- The new head of the fork database, as the number of its block has it. -/
theorem Serving.higher_counted (hn : Serving env initSupply chain floor n) (b : SignedBlock)
    (parent : Option ForkItem) :
    (n.forkDb.higher (n.forkDb.newItem env b parent)).num =
      (n.forkDb.higher (n.forkDb.newItem env b parent)).data.blockNum := by
  rcases higher_eq (f := n.forkDb) (n.forkDb.newItem env b parent) with hitem | hold
  · rw [hitem]
    rfl
  · exact hn.counted _ hold

/-- A push without a rival, while the head of the fork database is no block that failed. -/
theorem pushBlockCore_taken (hskip : p.skip.forkDb = false)
    (hn : Serving env initSupply chain floor n) (hhead : ¬ LeftBehind n)
    (hknown : Indexed env n p.block ∨
      p.block.blockNum ≤ n.blockLog.length ∧ ∃ x ∈ n.forkDb.index, x.num = p.block.blockNum) :
    Serving env initSupply chain floor (pushBlockCore (p.context env) p.block n).2 := by
  cases hresult : n.forkDb.pushBlock env p.block with
  | error e =>
    rw [pushBlockCore_refused (p.context env) hskip (by
      change (n.forkDb.pushBlock env p.block).isOk = false
      rw [hresult]
      rfl)]
    exact hn
  | ok pair =>
    obtain ⟨top, f⟩ := pair
    obtain ⟨-, parent, -, htop, hf⟩ := pushBlock_eq_ok hresult
    have hlogged := hn.filed.logged.length_le
    rw [List.length_map] at hlogged
    have hnum : p.block.blockNum ≤ chain.length := by
      rcases hknown with ⟨x, hx, hid⟩ | ⟨hlow, -⟩
      · have hxnum := hn.filed.num_eq hx
        rw [hid] at hxnum
        have habove := hn.above x hx
        change x.num = p.block.blockNum at hxnum
        omega
      · omega
    have hnotNext : p.block.header.previous ≠ n.headBlockId := fun hnext => by
      have hnextNum := (hn.next_new hnext).1
      omega
    have htopLow : top.num ≤ chain.length ∧ top.data.header.previous ≠ n.headBlockId := by
      rcases higher_eq (f := n.forkDb) (n.forkDb.newItem env p.block parent) with hnew | hold
      · rw [htop, hnew]
        exact ⟨hnum, hnotNext⟩
      · rw [← htop] at hold
        have hother : top.data.header.previous ≠ n.headBlockId := fun hnext =>
          hhead ⟨top, hold, hnext⟩
        exact ⟨(hn.head top hold).resolve_right fun hbehind => hother hbehind.2, hother⟩
    rw [pushBlockCore_stays (p.context env) hskip hresult htopLow.2
      (by rw [hn.tip.1]; exact htopLow.1)]
    have hindex : f.index = n.forkDb.insert (n.forkDb.newItem env p.block parent) := by
      rw [hf]
    have hfhead : f.head = some top := by
      rw [hf, htop]
    refine ⟨hn.idle, hn.perch, ?_, ?_, fun h hh => ?_, fun h hh => ?_⟩
    · change Filed env (chain.map (·.block)) n.blockLog f.index
      rw [hindex]
      rcases insert_eq n.forkDb (n.forkDb.newItem env p.block parent) with
        ⟨hsame, -⟩ | ⟨hmore, hfresh⟩
      · rw [hsame]
        exact hn.filed
      · rw [hmore]
        refine hn.filed.insert ⟨rfl, rfl⟩ hfresh (.inr ?_)
        rcases hknown with ⟨x, hx, hid⟩ | hlogged
        · exact absurd hid (hfresh x hx)
        · exact hlogged
    · intro x hx
      change x ∈ f.index at hx
      rw [hindex] at hx
      rcases insert_mem hx with hx | rfl
      · exact hn.above x hx
      · exact hnum
    · change f.head = some h at hh
      rw [hfhead] at hh
      rw [← Option.some.inj hh]
      exact .inl htopLow.1
    · change f.head = some h at hh
      rw [hfhead] at hh
      rw [← Option.some.inj hh, htop]
      exact hn.higher_counted p.block parent

/-- A push on the head block. -/
theorem pushBlockCore_extended (hforkDb : p.skip.forkDb = false) (hlog : p.skip.blockLog = false)
    (hn : Serving env initSupply chain floor n) (hnext : p.block.header.previous = n.headBlockId) :
    ∃ chain' floor', Serving env initSupply chain' floor'
      (pushBlockCore (p.context env) p.block n).2 := by
  cases hresult : n.forkDb.pushBlock env p.block with
  | error e =>
    rw [pushBlockCore_refused (p.context env) hforkDb (by
      change (n.forkDb.pushBlock env p.block).isOk = false
      rw [hresult]
      rfl)]
    exact ⟨chain, floor, hn⟩
  | ok pair =>
    obtain ⟨top, f⟩ := pair
    obtain ⟨-, parent, -, htop, hf⟩ := pushBlock_eq_ok hresult
    obtain ⟨hnum, hnew⟩ := hn.next_new hnext
    have hindex : f.index = n.forkDb.index ++ [n.forkDb.newItem env p.block parent] := by
      rw [hf]
      rcases insert_eq n.forkDb (n.forkDb.newItem env p.block parent) with
        ⟨-, x, hx, hid⟩ | ⟨hmore, -⟩
      · exact absurd hid (hnew x hx)
      · exact hmore
    have htopNext : top.num = chain.length + 1 ∧ top.data.header.previous = n.headBlockId := by
      rcases higher_eq (f := n.forkDb) (n.forkDb.newItem env p.block parent) with hitem | hold
      · rw [htop, hitem]
        exact ⟨hnum, hnext⟩
      · have hnot : ¬ top.num < p.block.blockNum := by
          intro hlt
          have hhigher : n.forkDb.higher (n.forkDb.newItem env p.block parent) =
              n.forkDb.newItem env p.block parent := by
            rw [← htop] at hold
            unfold higher
            rw [hold]
            exact if_pos hlt
          rw [htop, hhigher] at hlt
          exact lt_irrefl _ hlt
        rw [← htop] at hold
        rcases hn.head top hold with hle | hbehind
        · omega
        · exact hbehind
    rw [pushBlockCore_next (p.context env) hforkDb hresult htopNext.2]
    exact extendHead_serving hlog hn hnext hindex rfl rfl rfl (by rw [hf, htop]) htopNext.1
      htopNext.2 (by rw [htop]; exact hn.higher_counted p.block parent)

/-- A push that cannot build on the head, while the head of the fork database does: the block
is refused and removed again. -/
theorem pushBlockCore_removed (hskip : p.skip.forkDb = false)
    (hn : Serving env initSupply chain floor n) (hbehind : LeftBehind n)
    (hlow : p.block.blockNum ≤ n.blockLog.length) (hnew : ¬ Indexed env n p.block) :
    Serving env initSupply chain floor (pushBlockCore (p.context env) p.block n).2 := by
  cases hresult : n.forkDb.pushBlock env p.block with
  | error e =>
    rw [pushBlockCore_refused (p.context env) hskip (by
      change (n.forkDb.pushBlock env p.block).isOk = false
      rw [hresult]
      rfl)]
    exact hn
  | ok pair =>
    obtain ⟨top, f⟩ := pair
    obtain ⟨-, parent, -, htop, hf⟩ := pushBlock_eq_ok hresult
    obtain ⟨h, hh, hhnext⟩ := hbehind
    have hlogged := hn.filed.logged.length_le
    rw [List.length_map] at hlogged
    have hhnum : h.num = chain.length + 1 := by
      rw [hn.counted h hh, SignedBlock.blockNum, hhnext, hn.tip.2]
    have htopOld : n.forkDb.head = some top ∧ top = h := by
      have hsome : n.forkDb.head = some h := hh
      have hhigher : n.forkDb.higher (n.forkDb.newItem env p.block parent) = h := by
        unfold higher
        rw [hsome]
        refine if_neg ?_
        change ¬ h.num < p.block.blockNum
        omega
      rw [htop, hhigher]
      exact ⟨hsome, rfl⟩
    have hindex : f.index = n.forkDb.index ++ [n.forkDb.newItem env p.block parent] := by
      rw [hf]
      rcases insert_eq n.forkDb (n.forkDb.newItem env p.block parent) with
        ⟨-, x, hx, hid⟩ | ⟨hmore, -⟩
      · exact absurd ⟨x, hx, hid⟩ hnew
      · exact hmore
    rw [pushBlockCore_next (p.context env) hskip hresult (by rw [htopOld.2]; exact hhnext)]
    have hrefused : ∃ e, applyInSession (p.context env) p.block { n with forkDb := f } =
        (.error e, { n with forkDb := f }) := by
      cases hrun : applyInSession (p.context env) p.block { n with forkDb := f } with
      | mk r m =>
        have hnoFront : ∀ front,
            ¬ Returns (applyBlockFront (p.context env) p.block) n.db.current () front := by
          intro front hfront
          have hnum : p.block.blockNum = chain.length + 1 :=
            LastIrreversible.blockNum_eq hn.perch.ladder.current (applyBlockFront_head hfront).1
          omega
        cases r with
        | ok u =>
          obtain ⟨front, _, _, hfront, -⟩ := applyInSession_ok hrun
          exact absurd hfront (hnoFront front)
        | error e =>
          rcases applyInSession_error hrun fun front hfront => absurd hfront (hnoFront front) with
            rfl | ⟨front, _, _, hfront, -⟩
          · exact ⟨e, rfl⟩
          · exact absurd hfront (hnoFront front)
    obtain ⟨e, hrun⟩ := hrefused
    have hremoved : (f.remove (p.block.id env)).index = n.forkDb.index := by
      unfold remove
      rw [hindex, List.filter_append]
      have hkept : n.forkDb.index.filter (fun x => x.id ≠ p.block.id env) = n.forkDb.index :=
        List.filter_eq_self.mpr fun x hx => decide_eq_true fun hid => hnew ⟨x, hx, hid⟩
      rw [hkept]
      simp [newItem]
    rw [extendHead_state, hrun]
    refine ⟨hn.idle, hn.perch, ?_, fun x hx => ?_, fun y hy => ?_, fun y hy => ?_⟩
    · change Filed env (chain.map (·.block)) n.blockLog (f.remove (p.block.id env)).index
      rw [hremoved]
      exact hn.filed
    · change x ∈ (f.remove (p.block.id env)).index at hx
      rw [hremoved] at hx
      exact hn.above x hx
    · have hsame : f.head = n.forkDb.head := by
        rw [hf, htopOld.1, htop]
      exact hn.head y (hsame ▸ hy)
    · have hsame : f.head = n.forkDb.head := by
        rw [hf, htopOld.1, htop]
      exact hn.counted y (hsame ▸ hy)

/-- A push that gives no block of the chain a rival. -/
theorem pushBlockCore_serving (hforkDb : p.skip.forkDb = false) (hlog : p.skip.blockLog = false)
    (hn : Serving env initSupply chain floor n) (hrival : NoRival env n p.block) :
    ∃ chain' floor', Serving env initSupply chain' floor'
      (pushBlockCore (p.context env) p.block n).2 := by
  cases hrival with
  | refused h =>
    rw [pushBlockCore_refused (p.context env) hforkDb h]
    exact ⟨chain, floor, hn⟩
  | next h => exact pushBlockCore_extended hforkDb hlog hn h
  | known hhead h => exact ⟨chain, floor, pushBlockCore_taken hforkDb hn hhead (.inl h)⟩
  | logged hhead h hheight =>
    exact ⟨chain, floor, pushBlockCore_taken hforkDb hn hhead (.inr ⟨h, hheight⟩)⟩
  | undone hhead h hnew => exact ⟨chain, floor, pushBlockCore_removed hforkDb hn hhead h hnew⟩

end Steps

section Runs

variable {packSize : SignedTransaction → ℕ} {env : Env} {initSupply : ℕ} {ctx : Context}
  {base : SnapshotStack ChainState} {forkDb : ForkDatabase} {log : List SignedBlock} {n m : Node}

/-- The node has the log, and pending transactions on top of its blocks. -/
def Logged (base : SnapshotStack ChainState) (forkDb : ForkDatabase) (log : List SignedBlock)
    (n : Node) : Prop :=
  OnTop base forkDb n ∧ n.blockLog = log

/-- Opening the database keeps the log. -/
theorem opened_blockLog (n : Node) : (opened n).blockLog = n.blockLog := by
  unfold opened
  split
  · rfl
  · rfl

/-- A pushed transaction keeps the log and the fork database. -/
theorem pushTransaction_logged (ctx : Context) (trx : SignedTransaction) :
    Always (Preserves (Logged base forkDb log)) (pushTransaction ctx trx) := by
  constructor
  intro n hn
  refine ⟨(pushTransaction_onTop ctx trx).rel n hn.1, ?_⟩
  rw [pushTransaction_eq ctx trx hn.1]
  cases applyTransaction ctx trx n.db.current with
  | error e => exact (opened_blockLog n).trans hn.2
  | ok pair => exact (opened_blockLog n).trans hn.2

/-- Bringing the pending transactions back keeps the log and the fork database. -/
theorem restorePending_logged (ctx : Context) (pending : List SignedTransaction) :
    Always (Preserves (Logged base forkDb log)) (restorePending ctx pending) := by
  have hrestore : ∀ trx, Always (Preserves (Logged base forkDb log)) (restoreTransaction ctx trx) :=
    fun trx => .bind (.read _) fun _ =>
      .ite (.done ()) (.bind (pushTransaction_logged ctx trx).attempt fun _ => .done ())
  exact .bind (.read _) fun _ => .bind (.each fun trx _ => hrestore trx) fun _ =>
    .bind (.change fun _ hn => ⟨hn.1.poppedTx [], hn.2⟩) fun _ => .each fun trx _ => hrestore trx

/-- The node without its pending transactions. -/
def cleared (base : SnapshotStack ChainState) (n : Node) : Node :=
  { n with db := base, pendingTx := [], pendingSession := false }

/-- What `push_block` leaves is what `_push_block` leaves, with the pending transactions. -/
theorem pushBlock_state (ctx : Context) (b : SignedBlock) (hn : OnTop base forkDb n) :
    (Node.pushBlock ctx b n).2 =
      (restorePending ctx n.pendingTx (pushBlockCore ctx b (cleared base n)).2).2 := by
  unfold Node.pushBlock
  rw [read_bind, bind_of_ok (clearPending_eq hn)]
  change (((pushBlockCore ctx b).attempt >>= _) (cleared base n)).2 = _
  cases hcore : pushBlockCore ctx b (cleared base n) with
  | mk r t =>
    obtain ⟨m, hm⟩ := restorePending_returns ctx n.pendingTx t
    rw [bind_of_ok (attempt_of hcore), bind_of_ok hm, hm]
    rfl

/-- The blocks of a node are filed, below its pending transactions. -/
def Served (env : Env) (initSupply : ℕ) (n : Node) : Prop :=
  ∃ chain floor base, OnTop base n.forkDb n ∧ Serving env initSupply chain floor (cleared base n)

/-- The lookup by number finds every block of the chain of the head block. -/
def FetchesMain (env : Env) (initSupply : ℕ) (n : Node) : Prop :=
  ∃ chain, Ancestry env initSupply chain n ∧ ∀ k, 1 ≤ k → k ≤ n.headNum →
    ∃ call, chain[k - 1]? = some call ∧ fetchBlockByNumber n k = some call.block

/-- A node that serves its chain fetches each block of it. -/
theorem Served.fetchesMain (h : Served env initSupply n) : FetchesMain env initSupply n := by
  obtain ⟨chain, floor, base, htop, hserving⟩ := h
  have hheld : Held env initSupply chain floor n := ⟨base, htop, hserving.perch⟩
  refine ⟨chain, hheld.ancestry, fun k hpos hk => ?_⟩
  rw [hheld.headNum] at hk
  have hget : chain[k - 1]? = some chain[k - 1] := List.getElem?_eq_getElem (by omega)
  refine ⟨chain[k - 1], hget, ?_⟩
  have hfetch := Filed.fetch (n := n) hserving.filed hpos (by rw [List.length_map]; exact hk)
  rw [hfetch, blockAt, List.getElem?_map, hget]
  rfl

/-- A node serves its chain at genesis. -/
theorem genesis_served (env : Env) (initSupply : ℕ) : Served env initSupply (genesis env initSupply) := by
  refine ⟨[], 0, _, .idle rfl, rfl, ⟨.genesis env initSupply, rfl, le_rfl⟩, ?_, ?_, ?_, ?_⟩
  · refine ⟨List.nodup_nil, ?_, List.prefix_rfl, ?_, fun k hpos hk => ?_⟩
    · intro x hx
      cases hx
    · intro x hx
      cases hx
    · have hzero : k ≤ 0 := hk
      omega
  · intro x hx
    cases hx
  · intro h hh
    cases hh
  · intro h hh
    cases hh

/-- A call that gives no block of the chain a rival. -/
def Unrivalled (env : Env) (n : Node) : NodeCall → Prop
  | .transaction _ => True
  | .block call =>
    call.skip.forkDb = false ∧ call.skip.blockLog = false ∧ NoRival env n call.block

/-- A submitted transaction keeps the log and the fork database. -/
theorem submitTransaction_logged (packSize : SignedTransaction → ℕ) (ctx : Context)
    (trx : SignedTransaction) :
    Always (Preserves (Logged base forkDb log)) (submitTransaction packSize ctx trx) :=
  .bind (.read _) fun _ => .bind (.ofExcept _) fun _ => pushTransaction_logged ctx trx

/-- A node with the log and the fork database of one that serves its chain serves it too. -/
theorem Served.of_logged {chain : List BlockCall} {floor : ℕ} (hm : Logged base forkDb log m)
    (hserving : Serving env initSupply chain floor
      { db := base, forkDb := forkDb, blockLog := log }) : Served env initSupply m := by
  obtain ⟨htop, hlog⟩ := hm
  refine ⟨chain, floor, base, ?_, ⟨rfl, hserving.perch, ?_, ?_, ?_, ?_⟩⟩
  · rw [htop.sameForks]
    exact htop
  · change Filed env _ m.blockLog m.forkDb.index
    rw [hlog, htop.sameForks]
    exact hserving.filed
  · change ∀ x ∈ m.forkDb.index, _
    rw [htop.sameForks]
    exact hserving.above
  · change ∀ x ∈ m.forkDb.head, _
    rw [htop.sameForks]
    exact hserving.head
  · change ∀ x ∈ m.forkDb.head, _
    rw [htop.sameForks]
    exact hserving.counted

/-- A call that adds no rival leaves a node that serves its chain. -/
theorem run_served {call : NodeCall} (hn : Served env initSupply n)
    (hcall : Unrivalled env n call) : Served env initSupply (call.run packSize env n).2 := by
  obtain ⟨chain, floor, base, htop, hserving⟩ := hn
  cases call with
  | transaction push =>
    have hlogged := (submitTransaction_logged packSize ((NodeCall.transaction push).context env)
      push.trx).rel n ⟨htop, rfl⟩
    exact Served.of_logged hlogged
      ⟨rfl, hserving.perch, hserving.filed, hserving.above, hserving.head, hserving.counted⟩
  | block push =>
    obtain ⟨hforkDb, hlog, hrival⟩ := hcall
    have hhead : (cleared base n).headBlockId = n.headBlockId := htop.headBlockId.symm
    have hrival' : NoRival env (cleared base n) push.block := by
      cases hrival with
      | refused h => exact .refused h
      | next h => exact .next (h.trans hhead.symm)
      | known hbehind h =>
        exact .known (fun hleft => hbehind (by unfold LeftBehind at hleft ⊢; rwa [hhead] at hleft)) h
      | logged hbehind h hheight =>
        exact .logged (fun hleft => hbehind (by unfold LeftBehind at hleft ⊢; rwa [hhead] at hleft)) h
          hheight
      | undone hbehind h hnew =>
        exact .undone (by unfold LeftBehind at hbehind ⊢; rwa [hhead]) h hnew
    obtain ⟨chain', floor', hcore⟩ := pushBlockCore_serving hforkDb hlog hserving hrival'
    have hrun : ((NodeCall.block push).run packSize env n).2 =
        (Node.pushBlock (push.context env) push.block n).2 := rfl
    rw [hrun, pushBlock_state (push.context env) push.block htop]
    have hlogged := (restorePending_logged (push.context env) n.pendingTx).rel _
      ⟨OnTop.idle hcore.idle, rfl⟩
    exact Served.of_logged hlogged
      ⟨rfl, hcore.perch, hcore.filed, hcore.above, hcore.head, hcore.counted⟩

/-- No push of a run gives a block of the chain of its time a rival above the log. -/
def NeverRivalled (packSize : SignedTransaction → ℕ) (env : Env) (initSupply : ℕ)
    (calls : List NodeCall) : Prop :=
  ∀ earlier call, earlier ++ [call] <+: calls →
    Unrivalled env (nodeAfter packSize env initSupply earlier) call

/-- Every call of a node returns. -/
theorem run_returns (packSize : SignedTransaction → ℕ) (env : Env) (call : NodeCall) (n : Node) :
    ∃ m, call.run packSize env n = (.ok (), m) := by
  cases call with
  | transaction push => exact ⟨_, rfl⟩
  | block push => exact ⟨_, rfl⟩

/-- A further call comes after the others. -/
theorem nodeAfter_append (packSize : SignedTransaction → ℕ) (env : Env) (initSupply : ℕ)
    (calls : List NodeCall) (call : NodeCall) :
    nodeAfter packSize env initSupply (calls ++ [call]) =
      (call.run packSize env (nodeAfter packSize env initSupply calls)).2 := by
  unfold nodeAfter
  rw [Process.each_append (run_returns packSize env)]
  cases call with
  | transaction push => rfl
  | block push => rfl

/-- If no call adds a rival, the node serves its chain after all of them. -/
theorem nodeAfter_served {calls : List NodeCall}
    (hcalls : NeverRivalled packSize env initSupply calls) :
    Served env initSupply (nodeAfter packSize env initSupply calls) := by
  induction calls using List.reverseRecOn with
  | nil => exact genesis_served env initSupply
  | append_singleton earlier call ih =>
    have hearlier : NeverRivalled packSize env initSupply earlier := fun early c hc =>
      hcalls early c (hc.trans (List.prefix_append _ _))
    rw [nodeAfter_append]
    exact run_served (ih hearlier) (hcalls earlier call List.prefix_rfl)

/-- In a run of `push_block` and `push_transaction` calls, returning or throwing, in which no
push gives a block of the chain a rival above the log of irreversible blocks, the lookup by
number finds every block of the chain after every call. -/
theorem fetch_finds_main_chain {calls : List NodeCall}
    (hcalls : NeverRivalled packSize env initSupply calls) :
    ∀ earlier, earlier <+: calls →
      FetchesMain env initSupply (nodeAfter packSize env initSupply earlier) :=
  fun _ hearlier => (nodeAfter_served fun early c hc => hcalls early c (hc.trans hearlier)).fetchesMain

/-- A block, the same block again, and a block on it. -/
def sampleAgain : List NodeCall :=
  [sampleChain [] 0, sampleChain [] 0, sampleChain [] 1].map fun b => .block (sampleCall b)

/-- The node before a call of the sample. -/
def beforeAgain (i : ℕ) : Node :=
  nodeAfter (fun _ => 100) sampleEnv 1000000 (sampleAgain.take i)

/-- Calls that add no rival one by one never add one. -/
theorem neverRivalled_of_get {calls : List NodeCall}
    (h : ∀ i call, calls[i]? = some call →
      Unrivalled env (nodeAfter packSize env initSupply (calls.take i)) call) :
    NeverRivalled packSize env initSupply calls := by
  rintro earlier call ⟨rest, rfl⟩
  have hcall := h earlier.length call (by simp)
  have htake : (earlier ++ [call] ++ rest).take earlier.length = earlier := by simp
  rwa [htake] at hcall

/-- The second push is of a known block, the others are of blocks on the head. -/
theorem fetch_finds_main_chain_sampleAgain :
    FetchesMain sampleEnv 1000000 (nodeAfter (fun _ => 100) sampleEnv 1000000 sampleAgain) := by
  have hfirst : (sampleChain [] 0).header.previous = (beforeAgain 0).headBlockId := by
    decide +kernel
  have hbehind : ¬ LeftBehind (beforeAgain 1) := by
    unfold LeftBehind
    decide +kernel
  have hknown : Indexed sampleEnv (beforeAgain 1) (sampleChain [] 0) := by
    unfold Indexed
    decide +kernel
  have hlast : (sampleChain [] 1).header.previous = (beforeAgain 2).headBlockId := by
    decide +kernel
  refine fetch_finds_main_chain (neverRivalled_of_get fun i call hcall => ?_) sampleAgain
    List.prefix_rfl
  match i, hcall with
  | 0, hcall =>
    rw [← Option.some.inj hcall]
    exact ⟨rfl, rfl, .next hfirst⟩
  | 1, hcall =>
    rw [← Option.some.inj hcall]
    exact ⟨rfl, rfl, .known hbehind hknown⟩
  | 2, hcall =>
    rw [← Option.some.inj hcall]
    exact ⟨rfl, rfl, .next hlast⟩

/-- A block and its sibling: the first is the head, and neither is irreversible. -/
def sampleSiblings : List NodeCall :=
  [sampleChain [] 0, sampleFork 0].map fun b => .block (sampleCall b)

/-- With a sibling of the head in the fork database the lookup does not find the head. -/
theorem fetch_misses_head_sampleSiblings :
    ¬ ∀ (packSize : SignedTransaction → ℕ) (env : Env) (initSupply : ℕ) (calls : List NodeCall),
      (∀ push, .block push ∈ calls → push.skip = {}) →
      FetchesMain env initSupply (nodeAfter packSize env initSupply calls) := by
  intro hall
  obtain ⟨chain, -, hfetch⟩ := hall (fun _ => 100) sampleEnv 1000000 sampleSiblings
    (by simp [sampleSiblings, sampleCall])
  have hhead : (nodeAfter (fun _ => 100) sampleEnv 1000000 sampleSiblings).headNum = 1 := by
    decide +kernel
  obtain ⟨call, -, hfound⟩ := hfetch 1 le_rfl hhead.ge
  have hnone : fetchBlockByNumber (nodeAfter (fun _ => 100) sampleEnv 1000000 sampleSiblings) 1 =
      none := by
    decide +kernel
  rw [hnone] at hfound
  cases hfound

end Runs

end Whaleshares.BlockFetch
