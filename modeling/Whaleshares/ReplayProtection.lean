import Whaleshares.ChainRun
import Whaleshares.Footprint
import Whaleshares.Records

/-!
# No transaction is applied twice

A transaction is recorded when it is applied, and its record is dropped once the time of the
head block is past its expiration. The check for duplicates and the check of the expiration
together refuse it ever after: what the records forget has expired, from the first block on.
-/

namespace Whaleshares.ReplayProtection

open Config Fc Protocol Objects Program Database ApplyBlock Genesis ChainRun Footprint Records Unseen
  SignState

section Clock

/-- The states have the same head time and the same head number. -/
def SameClock (s t : ChainState) : Prop :=
  t.dgp.time = s.dgp.time ∧ t.dgp.headBlockNumber = s.dgp.headBlockNumber

instance : IsPreorder ChainState SameClock where
  refl _ := ⟨rfl, rfl⟩
  trans _ _ _ hst htu := ⟨htu.1.trans hst.1, htu.2.trans hst.2⟩

/-- The routines of a round keep the clock and the records. -/
theorem sameClock_roundFrame : RoundFrame SameClock where
  accounts _ _ _ := ⟨rfl, rfl⟩
  accountAuthorities _ _ := ⟨rfl, rfl⟩
  comments _ _ := ⟨rfl, rfl⟩
  commentVotes _ _ := ⟨rfl, rfl⟩
  witnessVotes _ _ := ⟨rfl, rfl⟩
  withdrawVestingRoutes _ _ := ⟨rfl, rfl⟩
  transactions _ _ := ⟨rfl, rfl⟩
  witnesses _ _ _ _ := ⟨rfl, rfl⟩
  blockSize _ _ := ⟨rfl, rfl⟩
  wso _ _ _ := ⟨rfl, rfl⟩
  hardforks _ _ := ⟨rfl, rfl⟩
  blockSummaries _ _ := ⟨rfl, rfl⟩

/-- The routines of money keep the clock and the records. -/
theorem sameClock_moneyFrame : MoneyFrame SameClock where
  toFrame := sameClock_roundFrame.toFrame
  newWitness _ _ _ _ _ _ _ := ⟨rfl, rfl⟩
  anyAccounts _ _ := ⟨rfl, rfl⟩
  rewardFunds _ _ := ⟨rfl, rfl⟩
  totals s d hhead := by
    have htime : (head d).time = (head s.dgp).time := by rw [hhead]
    have hnum : (head d).headBlockNumber = (head s.dgp).headBlockNumber := by rw [hhead]
    exact ⟨htime, hnum⟩

variable {ctx : Context} {b : SignedBlock} {s t : ChainState}

/-- What comes before the transactions keeps the clock and the records. -/
theorem beforeTransactions_sameClock {w : WitnessObject}
    (h : Returns (beforeTransactions ctx b) s w t) : SameClock s t := by
  have hkeeps : Keeps SameClock (beforeTransactions ctx b) := by
    refine .bind (.lift _) fun _ => .bind (validateBlockHeader_keeps ctx b) fun _ =>
      .bind (.gets _) fun _ => .bind (.lift _) fun _ => .bind ?_ fun _ =>
      .bind (processHeaderExtensions_keeps sameClock_roundFrame.toQuietFrame b) fun _ =>
      .bind (lookup_keeps _ _) fun _ => .bind (.gets _) fun _ => .bind (.lift _) fun _ => .pure _
    refine replace_keeps fun s d hd => ?_
    rw [← Except.ok.inj hd]
    exact ⟨rfl, rfl⟩
  exact hkeeps.rel s w t h

/-- What comes after the expired records are cleared keeps the clock and the records. -/
theorem afterClearing_sameClock (h : Returns (afterClearing ctx) s () t) : SameClock s t := by
  have hkeeps : Keeps SameClock (afterClearing ctx) :=
    .bind (updateWitnessSchedule_keeps sameClock_roundFrame.toTurnFrame) fun _ =>
      afterSchedule_keeps ctx (sameClock_moneyFrame.toOperationFrame _).toStakeFrame
  exact hkeeps.rel s () t h

/-- A block is later than the head. -/
theorem beforeTransactions_later {w : WitnessObject}
    (h : Returns (beforeTransactions ctx b) s w t) : s.dgp.time < b.header.timestamp := by
  obtain ⟨_, -, h⟩ := h.lift_bind
  obtain ⟨_, u, hu, -⟩ := h.bind
  obtain ⟨_, -, hu⟩ := hu.gets_bind.lift_bind
  obtain ⟨_, hlater, -⟩ := hu.lift_bind
  simpa using fcAssert_eq_ok hlater

/-- The new global properties have the time and the number of the block. -/
theorem updateGlobalDynamicData_time {u : Unit}
    (h : Returns (updateGlobalDynamicData ctx b) s u t) :
    t.dgp.time = b.header.timestamp ∧ 0 < t.dgp.headBlockNumber := by
  obtain ⟨_, v, -, h⟩ := h.gets_bind.bind
  obtain ⟨_, w, hw, h⟩ := h.bind
  obtain ⟨-, rfl⟩ := h.gets_bind.lift
  obtain ⟨d, hd, rfl⟩ := map_eq_ok hw.update
  rw [← Except.ok.inj hd]
  exact ⟨rfl, Nat.succ_pos _⟩

/-- The new last irreversible block keeps the clock and the records. -/
theorem updateLastIrreversibleBlock_sameClock :
    Keeps SameClock updateLastIrreversibleBlock := by
  have hset : ∀ f : DynamicGlobalPropertyObject → DynamicGlobalPropertyObject,
      (∀ d, (f d).time = d.time ∧ (f d).headBlockNumber = d.headBlockNumber) →
      Keeps SameClock (modifyDgp fun d => .ok (f d)) := by
    intro f hf
    refine replace_keeps fun s d hd => ?_
    rw [← Except.ok.inj hd]
    exact hf s.dgp
  refine .bind (.gets _) fun _ => .ite ?_ (.bind scheduledWitnesses_keeps fun _ =>
    .bind (.lift _) fun _ => ?_)
  · exact hset _ fun _ => ⟨rfl, rfl⟩
  · exact hset _ fun _ => ⟨rfl, rfl⟩

/-- The block is the head after its transactions are applied. -/
theorem afterTransactions_clock {w : WitnessObject}
    (h : Returns (afterTransactions ctx b w) s () t) :
    t.dgp.time = b.header.timestamp ∧ 0 < t.dgp.headBlockNumber := by
  obtain ⟨_, u, hu, h⟩ := h.bind
  obtain ⟨htime, hnum⟩ := updateGlobalDynamicData_time hu
  have hrest : Keeps SameClock (do
      updateSigningWitness w.owner b
      updateLastIrreversibleBlock
      createBlockSummary ctx b) :=
    .bind (.bind (.gets _) fun _ => replace_keeps fun _ _ _ => ⟨rfl, rfl⟩) fun _ =>
      .bind updateLastIrreversibleBlock_sameClock fun _ =>
      createBlockSummary_keeps ctx sameClock_roundFrame.blockSummaries b
  obtain ⟨htime', hnum'⟩ := hrest.rel u () t h
  rw [htime', hnum']
  exact ⟨htime, hnum⟩

end Clock

section Transactions

variable {ctx : Context} {trx : SignedTransaction} {s t : ChainState}

/-- What the check for duplicates and the check of the expiration let through. -/
structure Fresh (ctx : Context) (trx : SignedTransaction) (s : ChainState) : Prop where
  unrecorded : ∀ r ∈ s.transactions.rows, r.trxId ≠ ctx.env.transactionId trx
  unexpired : 0 < s.dgp.headBlockNumber → s.dgp.time < trx.expiration

/-- After the first block a transaction that passes has not expired. -/
theorem checkExpiration_unexpired {u : Unit} (h : checkExpiration ctx trx s = .ok u)
    (hnum : 0 < s.dgp.headBlockNumber) : s.dgp.time < trx.expiration := by
  unfold checkExpiration at h
  rw [if_pos hnum] at h
  obtain ⟨_, -, h⟩ := bind_eq_ok h
  obtain ⟨_, -, h⟩ := bind_eq_ok h
  obtain ⟨_, hlater, -⟩ := bind_eq_ok h
  unfold wlsAssert at hlater
  split at hlater
  next hlt => simpa using hlt
  next => cases hlater

/-- A transaction that is applied is fresh, and is recorded with its expiration. -/
theorem applyTransaction_records (hdupe : ctx.skip.transactionDupeCheck = false)
    (h : Returns (applyTransaction ctx trx) s () t) :
    Fresh ctx trx s ∧ SameClock s t ∧ ∃ r : TransactionObject,
      r.trxId = ctx.env.transactionId trx ∧ r.expiration = trx.expiration ∧
      t.transactions.rows = s.transactions.rows ++ [r] := by
  have hclock : SameClock s t := (applyTransaction_keeps ctx (sameClock_moneyFrame.toOperationFrame _) trx).rel s () t h
  obtain ⟨_, -, h⟩ := h.lift_bind
  obtain ⟨_, hfree, h⟩ := h.gets_bind.lift_bind
  obtain ⟨_, -, h⟩ := h.lift_bind
  obtain ⟨_, hexpiration, h⟩ := h.lift_bind
  obtain ⟨_, u, hu, hops⟩ := h.bind
  have hfree := fcAssert_eq_ok hfree
  rw [hdupe, Bool.false_or, Option.isNone_iff_eq_none] at hfree
  have hsame : t.transactions = u.transactions :=
    transactions_eq (fun _ => .forEach (fun op => applyOperation_blind (fun _ =>
    rfl) ctx op) _) hops
  rcases hu.whenever with ⟨-, hu⟩ | ⟨hno, -⟩
  · obtain ⟨table, htable, rfl⟩ := map_eq_ok hu.update
    obtain ⟨r, hr, -, hrows, -⟩ := Table.create_rows htable
    have hr := Except.ok.inj hr
    refine ⟨⟨fun old hold => ?_, checkExpiration_unexpired hexpiration⟩, hclock, r, ?_, ?_, ?_⟩
    · simpa using List.find?_eq_none.mp hfree old hold
    · rw [← hr]
    · rw [← hr]
    · rw [hsame]
      exact hrows
  · exact absurd hdupe hno

end Transactions

section Memory

variable {env : Env} {ctx : Context} {seen : List SignedTransaction} {trx : SignedTransaction}
  {b : SignedBlock} {s t : ChainState}

/-- The transactions that were applied have different ids, and each is recorded or has
expired. -/
structure Remembered (env : Env) (seen : List SignedTransaction) (s : ChainState) : Prop where
  distinct : (seen.map env.transactionId).Nodup
  recorded : ∀ r ∈ s.transactions.rows, ∃ trx ∈ seen,
    r.trxId = env.transactionId trx ∧ r.expiration = trx.expiration
  kept : ∀ trx ∈ seen, (∃ r ∈ s.transactions.rows, r.trxId = env.transactionId trx) ∨
    0 < s.dgp.headBlockNumber ∧ trx.expiration < s.dgp.time

/-- Transactions with the same id have the same expiration. -/
def SameExpiration (env : Env) (trxs : List SignedTransaction) : Prop :=
  ∀ x ∈ trxs, ∀ y ∈ trxs, env.transactionId x = env.transactionId y → x.expiration = y.expiration

/-- A transaction that is remembered is not fresh. -/
theorem Remembered.not_fresh (h : Remembered ctx.env seen s) (hmem : trx ∈ seen) :
    ¬ Fresh ctx trx s := by
  intro hfresh
  rcases h.kept trx hmem with ⟨r, hr, hid⟩ | ⟨hnum, hexpired⟩
  · exact hfresh.unrecorded r hr hid
  · exact lt_asymm (hfresh.unexpired hnum) hexpired

/-- A fresh transaction has a new id. -/
theorem Remembered.new_id (h : Remembered ctx.env seen s) (hfresh : Fresh ctx trx s)
    (hsame : ∀ old ∈ seen, ctx.env.transactionId old = ctx.env.transactionId trx →
      old.expiration = trx.expiration) :
    ctx.env.transactionId trx ∉ seen.map ctx.env.transactionId := by
  intro hmem
  obtain ⟨old, hold, hid⟩ := List.mem_map.mp hmem
  refine h.not_fresh hold ⟨fun r hr => ?_, fun hnum => ?_⟩
  · rw [hid]
    exact hfresh.unrecorded r hr
  · rw [hsame old hold hid]
    exact hfresh.unexpired hnum

/-- An applied transaction is remembered. -/
theorem applyTransaction_remembered (hdupe : ctx.skip.transactionDupeCheck = false)
    (hs : Remembered ctx.env seen s) (hsame : SameExpiration ctx.env (seen ++ [trx]))
    (h : Returns (applyTransaction ctx trx) s () t) : Remembered ctx.env (seen ++ [trx]) t := by
  obtain ⟨hfresh, hclock, r, hid, hexpiration, hrows⟩ := applyTransaction_records hdupe h
  have hnew := hs.new_id hfresh fun old hold =>
    hsame old (List.mem_append_left _ hold) trx (by simp)
  refine ⟨?_, fun old hold => ?_, fun old hold => ?_⟩
  · rw [List.map_append]
    refine List.Nodup.append hs.distinct (List.nodup_singleton _) ?_
    simpa using hnew
  · rw [hrows] at hold
    rcases List.mem_append.mp hold with hold | hold
    · obtain ⟨x, hx, hxid⟩ := hs.recorded old hold
      exact ⟨x, List.mem_append_left _ hx, hxid⟩
    · rw [List.mem_singleton.mp hold]
      exact ⟨trx, by simp, hid, hexpiration⟩
  · rw [hrows, hclock.1, hclock.2]
    rcases List.mem_append.mp hold with hold | hold
    · rcases hs.kept old hold with ⟨x, hx, hxid⟩ | hexpired
      · exact .inl ⟨x, List.mem_append_left _ hx, hxid⟩
      · exact .inr hexpired
    · rw [List.mem_singleton.mp hold]
      exact .inl ⟨r, by simp, hid⟩

/-- The applied transactions of a block are remembered. -/
theorem applyTransactions_remembered {trxs : List SignedTransaction}
    (hdupe : ctx.skip.transactionDupeCheck = false) (hs : Remembered ctx.env seen s)
    (hsame : SameExpiration ctx.env (seen ++ trxs))
    (h : Returns (forEach (applyTransaction ctx) trxs) s () t) :
    Remembered ctx.env (seen ++ trxs) t := by
  induction trxs generalizing seen s with
  | nil =>
    obtain ⟨-, ht⟩ := Returns.pure h
    rw [List.append_nil, ht]
    exact hs
  | cons trx rest ih =>
    have happend : seen ++ trx :: rest = seen ++ [trx] ++ rest := by simp
    rw [happend] at hsame ⊢
    obtain ⟨_, u, hu, h⟩ := Returns.bind h
    refine ih (applyTransaction_remembered hdupe hs ?_ hu) hsame h
    intro x hx y hy
    exact hsame x (List.mem_append_left _ hx) y (List.mem_append_left _ hy)

/-- Records and a clock that has not gone back remember as much. -/
theorem Remembered.move (h : Remembered env seen s) (hrecords : t.transactions = s.transactions)
    (htime : s.dgp.time ≤ t.dgp.time) (hnum : 0 < s.dgp.headBlockNumber → 0 < t.dgp.headBlockNumber) :
    Remembered env seen t := by
  refine ⟨h.distinct, ?_, ?_⟩
  · rw [hrecords]
    exact h.recorded
  · rw [hrecords]
    intro trx htrx
    rcases h.kept trx htrx with hrecord | ⟨hpos, hexpired⟩
    · exact .inl hrecord
    · exact .inr ⟨hnum hpos, lt_of_lt_of_le hexpired htime⟩

/-- The records that are cleared belong to expired transactions. -/
theorem clearExpiredTransactions_remembered (hs : Remembered env seen s)
    (hnum : 0 < s.dgp.headBlockNumber) (h : Returns clearExpiredTransactions s () t) :
    Remembered env seen t ∧ SameClock s t := by
  have ht := Except.ok.inj h.update
  rw [← ht]
  refine ⟨⟨hs.distinct, fun r hr => ?_, fun trx htrx => ?_⟩, rfl, rfl⟩
  · exact hs.recorded r (List.mem_filter.mp hr).1
  · rcases hs.kept trx htrx with ⟨r, hr, hid⟩ | hexpired
    · by_cases hold : r.expiration < s.dgp.time
      · obtain ⟨x, hx, hxid, hxexpiration⟩ := hs.recorded r hr
        have hsame : x = trx :=
          List.inj_on_of_nodup_map hs.distinct hx htrx (hxid.symm.trans hid)
        refine .inr ⟨hnum, ?_⟩
        rw [← hsame, ← hxexpiration]
        exact hold
      · exact .inl ⟨r, List.mem_filter.mpr ⟨hr, by simpa using hold⟩, hid⟩
    · exact .inr hexpired

/-- A block is remembered with all that was before it. -/
theorem applyBlock_remembered (ctx : Context) (hdupe : ctx.skip.transactionDupeCheck = false)
    (hs : Remembered ctx.env seen s) (hsame : SameExpiration ctx.env (seen ++ b.transactions))
    (h : Returns (applyBlock ctx b) s () t) : Remembered ctx.env (seen ++ b.transactions) t := by
  rw [applyBlock_parts] at h
  obtain ⟨w, s₁, h₁, h⟩ := h.bind
  obtain ⟨_, s₂, h₂, h⟩ := h.bind
  obtain ⟨_, s₃, h₃, h⟩ := h.bind
  obtain ⟨_, s₄, h₄, h⟩ := h.bind
  have hclock₁ := beforeTransactions_sameClock h₁
  have hlater := beforeTransactions_later h₁
  obtain ⟨htime₃, hnum₃⟩ := afterTransactions_clock h₃
  have hs₁ : Remembered ctx.env seen s₁ := by
    refine hs.move (transactions_eq (fun _ => beforeTransactions_blind ctx b) h₁) ?_ ?_
    · rw [hclock₁.1]
    · rw [hclock₁.2]
      exact id
  have hs₂ := applyTransactions_remembered hdupe hs₁ hsame h₂
  have hclock₂ : SameClock s₁ s₂ := by
    have hkeeps : Keeps SameClock (forEach (applyTransaction ctx) b.transactions) :=
      .forEach (fun trx => applyTransaction_keeps ctx (sameClock_moneyFrame.toOperationFrame _) trx) _
    exact hkeeps.rel s₁ () s₂ h₂
  have hs₃ : Remembered ctx.env (seen ++ b.transactions) s₃ := by
    refine hs₂.move (transactions_eq (fun _ => afterTransactions_blind ctx b w) h₃) ?_
      fun _ => hnum₃
    rw [htime₃, hclock₂.1, hclock₁.1]
    exact le_of_lt hlater
  obtain ⟨hs₄, -⟩ := clearExpiredTransactions_remembered hs₃ hnum₃ h₄
  have hclock := afterClearing_sameClock h
  refine hs₄.move (transactions_eq (fun _ => afterClearing_blind ctx) h) ?_ ?_
  · rw [hclock.1]
  · rw [hclock.2]
    exact id

end Memory

section Runs

open Assets Vesting

variable {env : Env} {initSupply : ℕ} {calls : List BlockCall} {s : ChainState}

/-- The transactions of the blocks of a run. -/
def transactionsOf (calls : List BlockCall) : List SignedTransaction :=
  calls.flatMap fun call => call.block.transactions

/-- In every reachable state the transactions of its blocks are remembered. -/
theorem reaches_remembered (hdupe : ∀ call ∈ calls, call.skip.transactionDupeCheck = false)
    (hsame : SameExpiration env (transactionsOf calls)) (h : Reaches env initSupply calls s) :
    Remembered env (transactionsOf calls) s := by
  have hrun : ∀ (rest : List BlockCall) (seen : List SignedTransaction) (u : ChainState),
      Remembered env seen u → (∀ call ∈ rest, call.skip.transactionDupeCheck = false) →
      SameExpiration env (seen ++ transactionsOf rest) → Returns (runBlocks env rest) u () s →
      Remembered env (seen ++ transactionsOf rest) s := by
    intro rest
    induction rest with
    | nil =>
      intro seen u hu _ _ h
      obtain ⟨-, hsu⟩ := Returns.pure h
      rw [hsu]
      simpa [transactionsOf] using hu
    | cons call rest ih =>
      intro seen u hu hdupe hsame h
      have happend : seen ++ transactionsOf (call :: rest) =
          seen ++ call.block.transactions ++ transactionsOf rest := by
        simp [transactionsOf]
      rw [happend] at hsame ⊢
      obtain ⟨_, v, hv, h⟩ := Returns.bind h
      refine ih _ v ?_ (fun c hc => hdupe c (List.mem_cons_of_mem _ hc)) hsame h
      refine applyBlock_remembered (call.context env) (hdupe call List.mem_cons_self) hu ?_ hv
      intro x hx y hy
      exact hsame x (List.mem_append_left _ hx) y (List.mem_append_left _ hy)
  refine hrun calls [] _ ⟨by simp, fun r hr => ?_, by simp⟩ hdupe hsame h
  cases hr

/-- Over all blocks of a run no transaction id occurs twice, and no transaction of the
run would be applied once more, whatever the times and expirations. -/
theorem no_transaction_replayed (hdupe : ∀ call ∈ calls, call.skip.transactionDupeCheck = false)
    (hsame : SameExpiration env (transactionsOf calls)) (h : Reaches env initSupply calls s) :
    ((transactionsOf calls).map env.transactionId).Nodup ∧
      ∀ trx ∈ transactionsOf calls, ∀ ctx : Context, ctx.env = env →
        ctx.skip.transactionDupeCheck = false → ∀ t,
        ¬ Returns (applyTransaction ctx trx) s () t := by
  have hmemory := reaches_remembered hdupe hsame h
  refine ⟨hmemory.distinct, fun trx htrx ctx henv hctx t hreturns => ?_⟩
  rw [← henv] at hmemory
  exact hmemory.not_fresh htrx (applyTransaction_records hctx hreturns).1

/-- The first miner sends tokens away. -/
def sampleTransfer : SignedTransaction where
  refBlockNum := 0
  refBlockPrefix := 0
  expiration := wlsGenesisTime + 5
  operations :=
    [.transfer { source := initMinerName 0, target := nullAccount, amount := wls 100, memo := [] }]
  signatures := [⟨0⟩]

/-- The transfer of the instance is refused after its record has been dropped. -/
theorem no_transaction_replayed_sampleTransfer :
    ∃ s, Reaches sampleEnv 1000000
        ((List.range 3).map fun n => sampleCall (sampleChain [sampleTransfer] n)) s ∧
      s.transactions.rows = [] ∧
      ∀ t, ¬ Returns (applyTransaction ((sampleCall (sampleChain [] 0)).context sampleEnv)
        sampleTransfer) s () t := by
  have hends : endsIn (runBlocks sampleEnv
      ((List.range 3).map fun n => sampleCall (sampleChain [sampleTransfer] n)))
      (initGenesis sampleEnv 1000000) (fun _ s => s.transactions.rows.isEmpty) = true := by
    decide +kernel
  obtain ⟨_, s, hs, hrows⟩ := returns_of_endsIn hends
  have hdupe : ∀ call ∈ (List.range 3).map fun n => sampleCall (sampleChain [sampleTransfer] n),
      call.skip.transactionDupeCheck = false := by
    intro call hcall
    obtain ⟨n, -, rfl⟩ := List.mem_map.mp hcall
    rfl
  have htrxs : transactionsOf
      ((List.range 3).map fun n => sampleCall (sampleChain [sampleTransfer] n)) =
      [sampleTransfer] := rfl
  have hsame : SameExpiration sampleEnv (transactionsOf
      ((List.range 3).map fun n => sampleCall (sampleChain [sampleTransfer] n))) := by
    rw [htrxs]
    intro x hx y hy _
    rw [List.mem_singleton.mp hx, List.mem_singleton.mp hy]
  refine ⟨s, hs, List.isEmpty_iff.mp hrows, ?_⟩
  refine (no_transaction_replayed hdupe hsame hs).2 sampleTransfer ?_ _ rfl rfl
  rw [htrxs]
  exact List.mem_cons_self

end Runs

end Whaleshares.ReplayProtection
