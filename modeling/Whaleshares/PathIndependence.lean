import Whaleshares.ChainLadder
import Whaleshares.PendingSession

/-!
# Path independence

Whatever forks a node saw and switched to, its objects are those of the blocks of its main
chain, applied in order to the objects of `init_genesis`: every successful push keeps the
ladder. Pending transactions stand on top of it, in a session of their own, which the next
push removes before anything else.
-/

namespace Whaleshares.PathIndependence

open Fc Protocol Objects Program Database ApplyBlock Genesis ChainRun ChainTip Footprint Process
  NodeRoutines ChainLadder PendingSession Node ForkDatabase

variable {env : Env} {initSupply : ℕ} {pushes : List BlockCall} {n m : Node}

section Standing

/-- The call applies a block of the pushes with the settings of one of them. -/
def Allowed (pushes : List BlockCall) (call : BlockCall) : Prop :=
  ∃ p ∈ pushes, ∃ q ∈ pushes, call = { p with block := q.block }

/-- The block was pushed. -/
def Pushed (pushes : List BlockCall) (b : SignedBlock) : Prop := ∃ q ∈ pushes, b = q.block

/-- A node without pending transactions stands on the ladder of blocks that were pushed. -/
structure Standing (env : Env) (initSupply : ℕ) (pushes : List BlockCall) (n : Node) : Prop where
  idle : n.pendingSession = false
  ladder : ∃ calls, Ladder env initSupply calls n.db ∧ ∀ call ∈ calls, Allowed pushes call
  known : ∀ item ∈ n.forkDb.alive, Pushed pushes item.data

/-- The node keeps its standing with other pushed items in the fork database. -/
theorem Standing.forkDb {f : ForkDatabase} (h : Standing env initSupply pushes n)
    (hf : ∀ item ∈ f.alive, Pushed pushes item.data) :
    Standing env initSupply pushes { n with forkDb := f } :=
  ⟨h.idle, h.ladder, hf⟩

/-- Applying a pushed block in a session keeps the standing. -/
theorem applyInSession_standing {p : BlockCall} {b : SignedBlock} (hp : p ∈ pushes)
    (hb : Pushed pushes b) :
    Sustains (Preserves (Standing env initSupply pushes)) (applyInSession (p.context env) b) := by
  constructor
  intro n _ m h hn
  obtain ⟨q, hq, hbq⟩ := hb
  obtain ⟨front, back, log, hfront, hback, -, hm⟩ := applyInSession_ok h
  obtain ⟨calls, hladder, hallowed⟩ := hn.ladder
  rw [hbq] at hfront hback
  have hstep : Ladder env initSupply (calls ++ [{ p with block := q.block }])
      (((n.db.start.write front).commit front.dgp.lastIrreversibleBlockNum).write back) :=
    hladder.step { p with block := q.block } hfront hback
  rw [hm]
  refine ⟨hn.idle, ⟨_, hstep, fun call hcall => ?_⟩, fun item hitem => ?_⟩
  · rcases List.mem_append.mp hcall with hcall | hcall
    · exact hallowed call hcall
    · rw [List.mem_singleton.mp hcall]
      exact ⟨p, hp, q, hq, rfl⟩
  · exact hn.known item (setMaxSize_alive item hitem)

/-- Popping a block keeps the standing. -/
theorem popBlock_standing (e : Env) :
    Sustains (Preserves (Standing env initSupply pushes)) (Node.popBlock e) := by
  constructor
  intro n _ m h hn
  obtain ⟨head, prev, _, hhead, hlock, -, rfl⟩ := popBlock_ok hn.idle h
  obtain ⟨calls, hladder, hallowed⟩ := hn.ladder
  refine ⟨hn.idle, ?_, ?_⟩
  · rcases hladder.undo with ⟨-, hsame⟩ | ⟨init, call, hcalls, hinit⟩
    · exact ⟨calls, by rw [hsame]; exact hladder, hallowed⟩
    · refine ⟨init, hinit, fun c hc => hallowed c ?_⟩
      rw [hcalls]
      exact List.mem_append_left _ hc
  · intro item hitem
    refine hn.known item (alive_of_subset (f := n.forkDb) (fun x hx => ?_) (fun x hx => ?_)
      (fun x hx => ?_) item hitem)
    · exact index_subset_alive hx
    · have hx : prev = x := by simpa using hx
      rw [← hx]
      exact lock_mem hlock
    · exact pinned_subset_alive hx

/-- The loop over the blocks to pop keeps the standing. -/
theorem popUntil_standing (e : Env) (id : BlockId) (rounds : ℕ) :
    Sustains (Preserves (Standing env initSupply pushes)) (popUntil e id rounds) := by
  induction rounds with
  | zero => exact .bind (.read _) fun _ => .ite (.done ()) (.ofExcept _)
  | succ rounds ih =>
    exact .bind (.read _) fun _ => .ite (.done ()) (.bind (popBlock_standing e) fun _ => ih)

/-- The way back to a block keeps the standing. -/
theorem popTo_standing (e : Env) (id : BlockId) :
    Sustains (Preserves (Standing env initSupply pushes)) (popTo e id) :=
  .bind (.read _) fun _ => popUntil_standing e id _

/-- Pushing a branch of pushed blocks keeps the standing. -/
theorem pushBranch_standing {p : BlockCall} (hp : p ∈ pushes) (old : List ForkItem)
    {new : List ForkItem} (hnew : ∀ x ∈ new, Pushed pushes x.data) :
    Sustains (Preserves (Standing env initSupply pushes)) (pushBranch (p.context env) old new) := by
  induction new with
  | nil => exact .done ()
  | cons item rest ih =>
    constructor
    intro n _ m h hn
    obtain ⟨outcome, k, hk, h⟩ := ok_of_bind h
    have hk := attempt_ok hk
    cases outcome with
    | error e =>
      obtain ⟨_, _, _, h⟩ := ok_of_bind h
      have hnone := (ok_of_ofExcept h).1
      cases hnone
    | ok u =>
      have hstep := (applyInSession_standing hp (hnew item List.mem_cons_self)).rel n u k hk hn
      exact (ih fun x hx => hnew x (List.mem_cons_of_mem _ hx)).rel k _ m h hstep

/-- Switching to a branch of pushed blocks keeps the standing. -/
theorem switchTo_standing {p : BlockCall} (hp : p ∈ pushes) (old : List ForkItem)
    {new : List ForkItem} (hnew : ∀ x ∈ new, Pushed pushes x.data) :
    Sustains (Preserves (Standing env initSupply pushes)) (switchTo (p.context env) new old) :=
  .bind (.ofExcept _) fun _ => .bind (popTo_standing _ _) fun _ =>
    pushBranch_standing hp old fun x hx => hnew x (List.mem_reverse.mp hx)

/-- Holding items of pushed blocks keeps the standing. -/
theorem owning_standing {items : List ForkItem} {q : NodeM Unit}
    (hitems : ∀ x ∈ items, Pushed pushes x.data)
    (hq : Sustains (Preserves (Standing env initSupply pushes)) q) :
    Sustains (Preserves (Standing env initSupply pushes)) (owning items q) := by
  constructor
  intro n _ m h hn
  obtain ⟨_, k₁, h₁, h⟩ := ok_of_bind h
  obtain ⟨outcome, k₂, h₂, h⟩ := ok_of_bind h
  obtain ⟨_, k₃, h₃, h⟩ := ok_of_bind h
  have hk₁ : { n with forkDb := { n.forkDb with pinned := items } } = k₁ := congrArg Prod.snd h₁
  have hk₃ : { k₂ with forkDb := { k₂.forkDb with pinned := [] } } = k₃ := congrArg Prod.snd h₃
  obtain ⟨houtcome, hm⟩ := ok_of_ofExcept h
  have h₂ := attempt_ok h₂
  rw [houtcome] at h₂
  have hs₁ : Standing env initSupply pushes k₁ := by
    rw [← hk₁]
    refine hn.forkDb fun x hx => ?_
    rcases List.mem_append.mp hx with hx | hx
    · exact hn.known x (List.mem_append_left _ hx)
    · exact hitems x hx
  have hs₂ := hq.rel _ _ _ h₂ hs₁
  rw [hm, ← hk₃]
  refine hs₂.forkDb fun x hx => hs₂.known x ?_
  rcases List.mem_append.mp hx with hx | hx
  · exact List.mem_append_left _ hx
  · cases hx

/-- Extending the head with a pushed block keeps the standing. -/
theorem extendHead_standing {p : BlockCall} {b : SignedBlock} (hp : p ∈ pushes)
    (hb : Pushed pushes b) :
    Sustains (Preserves (Standing env initSupply pushes)) (extendHead (p.context env) b) := by
  constructor
  intro n _ m h hn
  obtain ⟨outcome, k, hk, h⟩ := ok_of_bind h
  have hk := attempt_ok hk
  cases outcome with
  | error e =>
    obtain ⟨_, _, _, h⟩ := ok_of_bind h
    have hnone := (ok_of_ofExcept h).1
    cases hnone
  | ok u =>
    have hm : k = m := congrArg Prod.snd h
    rw [← hm]
    exact (applyInSession_standing hp hb).rel n u k hk hn

/-- A successful push to the fork database changes it alone. -/
theorem pushToForkDb_ok {ctx : Context} {b : SignedBlock} {head : ForkItem}
    (h : pushToForkDb ctx b n = (.ok head, m)) :
    ∃ f, n.forkDb.pushBlock ctx.env b = .ok (head, f) ∧ m = { n with forkDb := f } := by
  unfold pushToForkDb at h
  cases hpush : n.forkDb.pushBlock ctx.env b with
  | error e =>
    rw [hpush] at h
    cases h
  | ok pair =>
    rw [hpush] at h
    have hhead : pair.1 = head := Except.ok.inj (congrArg Prod.fst h)
    refine ⟨pair.2, ?_, (congrArg Prod.snd h).symm⟩
    rw [← hhead]

/-- A successful `_push_block` keeps a node on the ladder. -/
theorem pushBlockCore_standing {p : BlockCall} (hp : p ∈ pushes) :
    Sustains (Preserves (Standing env initSupply pushes))
      (pushBlockCore (p.context env) p.block) := by
  have hblock : Pushed pushes p.block := ⟨p, hp, rfl⟩
  constructor
  intro n r m h hn
  unfold pushBlockCore at h
  split at h
  · exact (Sustains.bind (extendHead_standing hp hblock) fun _ => .done false).rel n r m h hn
  · obtain ⟨newHead, k, hk, h⟩ := ok_of_bind h
    obtain ⟨f, hpush, hkn⟩ := pushToForkDb_ok hk
    have hk' : Standing env initSupply pushes k := by
      obtain ⟨parent, -, halive⟩ := pushBlock_alive hpush
      rw [hkn]
      refine hn.forkDb fun x hx => ?_
      rcases halive x hx with hx | hx
      · exact hn.known x hx
      · rw [hx]
        exact hblock
    have hnewHead : newHead ∈ k.forkDb.alive := by
      obtain ⟨-, parent, -, hhead, hf⟩ := pushBlock_eq_ok hpush
      refine head_mem_alive ?_
      rw [hkn, hf, hhead]
    obtain ⟨k', k'', hread, h⟩ := ok_of_bind h
    have hkk' : k = k' := Except.ok.inj (congrArg Prod.fst hread)
    have hkk'' : k = k'' := congrArg Prod.snd hread
    rw [← hkk', ← hkk''] at h
    split at h
    · split at h
      · obtain ⟨⟨new, old⟩, k₁, h₁, h⟩ := ok_of_bind h
        obtain ⟨hfetch, hk₁⟩ := ok_of_ofExcept h₁
        rw [hk₁] at h
        obtain ⟨first, second, hfirst, hsecond, ⟨hbranches⟩⟩ := fetchBranchFrom_eq_ok hfetch
        obtain ⟨hnew, hold⟩ := hbranches.mem (index_subset_alive (findById_mem hfirst))
          (index_subset_alive (findById_mem hsecond))
        have hnewPushed : ∀ x ∈ new, Pushed pushes x.data := fun x hx => hk'.known x (hnew x hx)
        have hitems : ∀ x ∈ newHead :: new ++ old, Pushed pushes x.data := by
          intro x hx
          rcases List.mem_append.mp hx with hx | hx
          · rcases List.mem_cons.mp hx with hx | hx
            · rw [hx]
              exact hk'.known newHead hnewHead
            · exact hnewPushed x hx
          · exact hk'.known x (hold x hx)
        exact (Sustains.bind (owning_standing hitems (switchTo_standing hp old hnewPushed))
          fun _ => .done true).rel k r m h hk'
      · have hm : k = m := congrArg Prod.snd h
        rw [← hm]
        exact hk'
    · exact (Sustains.bind (extendHead_standing hp hblock) fun _ => .done false).rel k r m h hk'

end Standing

section Runs

/-- The calls of `push_block`, in order; the run ends with the first one that throws. -/
def pushBlocks (env : Env) (pushes : List BlockCall) : NodeM Unit :=
  .each (fun call => do
    let _ ← Node.pushBlock (call.context env) call.block
    pure ()) pushes

/-- The node stands on the ladder, with its pending transactions on top. -/
def Anchored (env : Env) (initSupply : ℕ) (pushes : List BlockCall) (n : Node) : Prop :=
  ∃ base, OnTop base n.forkDb n ∧
    Standing env initSupply pushes { n with db := base, pendingTx := [], pendingSession := false }

/-- The node is anchored at genesis. -/
theorem genesis_anchored (env : Env) (initSupply : ℕ) (pushes : List BlockCall) :
    Anchored env initSupply pushes (genesis env initSupply) := by
  refine ⟨(genesis env initSupply).db, .idle rfl, rfl, ⟨[], .genesis env initSupply, ?_⟩, ?_⟩
  · intro call hcall
    cases hcall
  · intro item hitem
    cases hitem

/-- A push keeps the node anchored. -/
theorem pushBlock_anchored {p : BlockCall} (hp : p ∈ pushes) :
    Sustains (Preserves (Anchored env initSupply pushes))
      (Node.pushBlock (p.context env) p.block) := by
  constructor
  intro n switched m h hn
  obtain ⟨base, htop, hstanding⟩ := hn
  obtain ⟨k, hcore, hrestored⟩ := pushBlock_ok htop h
  have hk := (pushBlockCore_standing hp).rel _ _ k hcore hstanding
  have hm := hrestored hk.idle
  refine ⟨k.db, ?_, rfl, hk.ladder, ?_⟩
  · rw [hm.sameForks]
    exact hm
  · change ∀ item ∈ m.forkDb.alive, Pushed pushes item.data
    rw [hm.sameForks]
    exact hk.known

/-- Every run of calls that return leads from genesis to a node on the ladder. -/
theorem pushBlocks_anchored {u : Unit}
    (h : pushBlocks env pushes (genesis env initSupply) = (.ok u, n)) :
    Anchored env initSupply pushes n := by
  have hsustains : Sustains (Preserves (Anchored env initSupply pushes)) (pushBlocks env pushes) :=
    .each fun call hcall => .bind (pushBlock_anchored hcall) fun _ => .done ()
  exact hsustains.rel _ u n h (genesis_anchored env initSupply pushes)

/-- Without pending transactions the objects are those of the main chain, applied in order
to the objects of `init_genesis`. -/
theorem reaches_of_pushBlocks {u : Unit}
    (h : pushBlocks env pushes (genesis env initSupply) = (.ok u, n)) (hnone : n.pendingTx = []) :
    ∃ chain, Reaches env initSupply chain n.state ∧ lastId env chain = n.headBlockId ∧
      ∀ call ∈ chain, Allowed pushes call := by
  obtain ⟨base, htop, hstanding⟩ := pushBlocks_anchored h
  obtain ⟨chain, hladder, hallowed⟩ := hstanding.ladder
  have hreaches : Reaches env initSupply chain n.state := by
    unfold Node.state
    rw [htop.nothing hnone]
    exact hladder.current
  exact ⟨chain, hreaches, (Reaches.tip hreaches).1.symm, hallowed⟩

end Runs

section Agreement

variable {ctx : Context} {calls : List BlockCall}

/-- The merkle check of `_apply_block` lets the block through. -/
def PassesMerkle (ctx : Context) (b : SignedBlock) : Bool :=
  ctx.skip.merkleCheck || b.header.transactionMerkleRoot = b.calculateMerkleRoot ctx.env

/-- The pushed blocks that the merkle check lets through. -/
def applicable (ctx : Context) (pushes : List BlockCall) : List SignedBlock :=
  (pushes.map (·.block)).filter (PassesMerkle ctx)

/-- A block that is applied passes its Merkle check. -/
theorem run_passesMerkle {call : BlockCall} {s t : ChainState}
    (h : Returns (call.run env) s () t) : PassesMerkle (call.context env) call.block = true := by
  obtain ⟨_, u, hfront, -⟩ := h.bind
  obtain ⟨_, hmerkle, -⟩ := hfront.lift_bind
  exact fcAssert_eq_ok hmerkle

/-- Every block of a reachable state passes its Merkle check. -/
theorem reaches_passesMerkle {s : ChainState} (h : Reaches env initSupply calls s) :
    ∀ call ∈ calls, PassesMerkle (call.context env) call.block = true := by
  induction calls using List.reverseRecOn generalizing s with
  | nil => simp
  | append_singleton calls call ih =>
    obtain ⟨u, hu, hcall⟩ := reaches_append.mp h
    intro c hc
    rcases List.mem_append.mp hc with hc | hc
    · exact ih hu c hc
    · rw [List.mem_singleton.mp hc]
      exact run_passesMerkle hcall

/-- What some pushes allow more of them allow. -/
theorem Allowed.mono {pushes' : List BlockCall} {call : BlockCall} (h : Allowed pushes call)
    (hmore : ∀ p ∈ pushes, p ∈ pushes') : Allowed pushes' call := by
  obtain ⟨p, hp, q, hq, heq⟩ := h
  exact ⟨p, hmore p hp, q, hmore q hq, heq⟩

/-- The calls of a chain whose pushes all had the settings of `ctx`. -/
theorem allowed_settings {call : BlockCall} (hctx : ∀ p ∈ pushes, p.context env = ctx)
    (h : Allowed pushes call) : call.context env = ctx := by
  obtain ⟨p, hp, q, -, rfl⟩ := h
  exact hctx p hp

/-- An allowed call with a right Merkle root has an applicable block. -/
theorem allowed_applicable {call : BlockCall} (hctx : ∀ p ∈ pushes, p.context env = ctx)
    (h : Allowed pushes call) (hmerkle : PassesMerkle (call.context env) call.block = true) :
    call.block ∈ applicable ctx pushes := by
  rw [allowed_settings hctx h] at hmerkle
  obtain ⟨p, -, q, hq, rfl⟩ := h
  exact List.mem_filter.mpr ⟨List.mem_map.mpr ⟨q, hq, rfl⟩, hmerkle⟩

/-- The calls with the settings of `ctx`. -/
theorem calls_of_blocks (h : ∀ call ∈ calls, call.context env = ctx) :
    (calls.map (·.block)).map (fun b => ⟨ctx.skip, ctx.producing, ctx.maxUndo, b⟩) = calls := by
  rw [List.map_map]
  refine (List.map_congr_left fun call hcall => ?_).trans (List.map_id calls)
  rw [← h call hcall]
  rfl

/-- After any run of calls of `push_block` that all return, over any tree of blocks, and
without pending transactions, the objects are those that the blocks of the main chain, the
one that ends with the head block, give when they are applied in order to the objects of
`init_genesis`. So two such runs with the same settings and the same head block lead to the
same objects. -/
theorem objects_determined_by_main_chain (env : Env) (initSupply : ℕ) (pushes : List BlockCall)
    (n : Node) (hrun : pushBlocks env pushes (genesis env initSupply) = (.ok (), n))
    (hnone : n.pendingTx = []) :
    (∃ chain, Reaches env initSupply chain n.state ∧ lastId env chain = n.headBlockId ∧
      ∀ call ∈ chain, Allowed pushes call) ∧
    ∀ (ctx : Context) (pushes' : List BlockCall) (n' : Node),
      pushBlocks env pushes' (genesis env initSupply) = (.ok (), n') → n'.pendingTx = [] →
      (∀ p ∈ pushes ++ pushes', p.context env = ctx) →
      NoCollision env (applicable ctx (pushes ++ pushes')) →
      n.headBlockId = n'.headBlockId → n.state = n'.state := by
  have hchain := reaches_of_pushBlocks hrun hnone
  refine ⟨hchain, ?_⟩
  intro ctx pushes' n' hrun' hnone' hctx hcollision hhead
  obtain ⟨chain, hreaches, -, hallowed⟩ := hchain
  obtain ⟨chain', hreaches', -, hallowed'⟩ := reaches_of_pushBlocks hrun' hnone'
  have hpushes : ∀ call ∈ chain, Allowed (pushes ++ pushes') call := fun call hcall =>
    (hallowed call hcall).mono fun _ hp => List.mem_append_left _ hp
  have hpushes' : ∀ call ∈ chain', Allowed (pushes ++ pushes') call := fun call hcall =>
    (hallowed' call hcall).mono fun _ hp => List.mem_append_right _ hp
  have hblocks : chain.map (·.block) = chain'.map (·.block) :=
    blocks_eq_of_head_eq hcollision
      (fun call hcall => allowed_applicable hctx (hpushes call hcall)
        (reaches_passesMerkle hreaches call hcall))
      (fun call hcall => allowed_applicable hctx (hpushes' call hcall)
        (reaches_passesMerkle hreaches' call hcall))
      hreaches hreaches' hhead
  have hcalls : chain = chain' := by
    rw [← calls_of_blocks fun call hcall => allowed_settings hctx (hpushes call hcall), hblocks,
      calls_of_blocks fun call hcall => allowed_settings hctx (hpushes' call hcall)]
  rw [← hcalls] at hreaches'
  exact Reaches.unique hreaches hreaches'

/-- A node that switches to a fork, and one that sees nothing but the fork. -/
theorem objects_determined_by_main_chain_fork :
    ∃ n n', pushBlocks sampleEnv ([sampleChain [] 0, sampleFork 0, sampleFork 1].map sampleCall)
        (genesis sampleEnv 1000000) = (.ok (), n) ∧
      pushBlocks sampleEnv ([sampleFork 0, sampleFork 1].map sampleCall)
        (genesis sampleEnv 1000000) = (.ok (), n') ∧
      n.headBlockId = (sampleFork 1).id sampleEnv ∧ n.state = n'.state := by
  refine ⟨_, _, ok_of_isOk (by decide +kernel), ok_of_isOk (by decide +kernel),
    by decide +kernel, ?_⟩
  refine (objects_determined_by_main_chain sampleEnv 1000000 _ _ (ok_of_isOk (by decide +kernel))
    (by decide +kernel)).2 ⟨sampleEnv, {}, false, 10000⟩ _ _ (ok_of_isOk (by decide +kernel))
    (by decide +kernel) (fun p hp => ?_) (by unfold NoCollision; decide +kernel)
    (by decide +kernel)
  rw [← List.map_append] at hp
  obtain ⟨b, -, rfl⟩ := List.mem_map.mp hp
  rfl

end Agreement

end Whaleshares.PathIndependence
