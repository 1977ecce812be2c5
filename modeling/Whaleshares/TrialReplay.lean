import Whaleshares.BlockFit
import Whaleshares.Unseen

/-!
# Blocks replayed after their trial

The producer applies every pending transaction in a session on top of those before it and
keeps those that succeed; the block is then applied to the same objects, with the witness of
the block and its report recorded first. The transactions that were dropped have left nothing
behind, and no transaction sees what is recorded, so those of the block succeed again and
give the same objects.
-/

namespace Whaleshares.TrialReplay

open Config Fc Assets Protocol Objects Program Database ApplyBlock Genesis ChainRun Footprint
  PendingSession PendingState GenerateBlock BlockFit Records Unseen Node

section Transactions

variable {C : AccountName → AccountName → Prop} {V : Report → Report → Prop}

/-- Recording a transaction is blind to what is hidden. -/
theorem createTransaction_blind (f : ℕ → Except Exc TransactionObject) :
    Blind (Alike C V Eq) (createTransaction f) := by
  refine .update fun s s' t h ht => ?_
  obtain ⟨table, htable, rfl⟩ := map_eq_ok ht
  refine ⟨{ s' with transactions := table }, ?_, ?_, h.currentWitness, h.witnesses, rfl⟩
  · rw [← h.records, htable]
    rfl
  · exact congrArg (fun u : ChainState => { u with transactions := table }) h.rest

/-- The check of the authorities does not see what is hidden. -/
theorem checkAuthorities_masked (ctx : Context) (trx : SignedTransaction) (m : Hidden)
    (s : ChainState) : checkAuthorities ctx trx (masked m s) = checkAuthorities ctx trx s := rfl

/-- The check of the expiration does not see what is hidden. -/
theorem checkExpiration_masked (ctx : Context) (trx : SignedTransaction) (m : Hidden)
    (s : ChainState) : checkExpiration ctx trx (masked m s) = checkExpiration ctx trx s := rfl

/-- No transaction sees the current witness or the reports of the witnesses. -/
theorem applyTransaction_blind (hV : ∀ r, V r r) (ctx : Context) (trx : SignedTransaction) :
    Blind (Alike C V Eq) (applyTransaction ctx trx) := by
  refine .bind (.lift _) fun _ => .gets_bind (fun s s' h => ?_) fun _ => .bind (.lift _) fun _ =>
    .bind (.lift _) fun _ => .bind (.lift _) fun _ =>
    .bind (.whenever (createTransaction_blind _)) fun _ =>
    .forEach (applyOperation_blind hV ctx) trx.operations
  have hauthority : checkAuthorities ctx trx s' = checkAuthorities ctx trx s := by
    rw [h.rest, checkAuthorities_masked]
  have hexpiration : checkExpiration ctx trx s' = checkExpiration ctx trx s := by
    rw [h.rest, checkExpiration_masked]
  simp only [hauthority, hexpiration, ← h.records]

end Transactions

section Ledger

/-- The states have the same objects but for the witness of the current block and the reports
of the witnesses. -/
structure SameLedger (s t : ChainState) : Prop where
  accounts : t.accounts = s.accounts
  accountAuthorities : t.accountAuthorities = s.accountAuthorities
  comments : t.comments = s.comments
  commentVotes : t.commentVotes = s.commentVotes
  witnessVotes : t.witnessVotes = s.witnessVotes
  withdrawVestingRoutes : t.withdrawVestingRoutes = s.withdrawVestingRoutes
  rewardFunds : t.rewardFunds = s.rewardFunds
  transactions : t.transactions = s.transactions
  witnesses : s.witnesses.Related (SameWitness fun _ _ => True) t.witnesses
  dgp : t.dgp = { s.dgp with currentWitness := t.dgp.currentWitness }
  wso : t.wso = s.wso
  hardforks : t.hardforks = s.hardforks
  blockSummaries : t.blockSummaries = s.blockSummaries

/-- The states are alike, whatever their current witness and the reports are. -/
def AlikeLedger : ChainState → ChainState → Prop := Alike (fun _ _ => True) (fun _ _ => True) Eq

variable {s t u : ChainState}

/-- Alike ledgers are the same ledger. -/
theorem AlikeLedger.sameLedger (h : AlikeLedger s t) : SameLedger s t where
  accounts := (congrArg ChainState.accounts h.rest :)
  accountAuthorities := (congrArg ChainState.accountAuthorities h.rest :)
  comments := (congrArg ChainState.comments h.rest :)
  commentVotes := (congrArg ChainState.commentVotes h.rest :)
  witnessVotes := (congrArg ChainState.witnessVotes h.rest :)
  withdrawVestingRoutes := (congrArg ChainState.withdrawVestingRoutes h.rest :)
  rewardFunds := (congrArg ChainState.rewardFunds h.rest :)
  transactions := h.records.symm
  witnesses := h.witnesses
  dgp := (congrArg ChainState.dgp h.rest :)
  wso := (congrArg ChainState.wso h.rest :)
  hardforks := (congrArg ChainState.hardforks h.rest :)
  blockSummaries := (congrArg ChainState.blockSummaries h.rest :)

/-- Ledgers that are alike twice are alike. -/
theorem AlikeLedger.trans (hst : AlikeLedger s t) (htu : AlikeLedger t u) : AlikeLedger s u := by
  refine ⟨?_, trivial, hst.witnesses.trans ?_ htu.witnesses, hst.records.trans htu.records⟩
  · exact htu.rest.trans (congrArg (masked (hiddenPart u)) hst.rest :)
  · intro a b c hab hbc
    refine ⟨?_, trivial⟩
    exact hbc.rest.trans (congrArg (reporting (report c)) hab.rest :)

end Ledger

section Announcement

variable {b : SignedBlock} {s u : ChainState}

/-- The part of `_apply_block` that records the witness of the block and its report. -/
def announce (b : SignedBlock) : Chain Unit := do
  modifyDgp fun dgp => .ok { dgp with currentWitness := b.witness }
  processHeaderExtensions b

/-- A report keeps the rest of the witness. -/
theorem reportedBy_sameWitness (extension : HeaderExtension) (w : WitnessObject) :
    SameWitness (fun _ _ => True) w (reportedBy extension w) := by
  cases extension <;> exact ⟨rfl, trivial⟩

/-- A reported witness keeps the ledger alike. -/
theorem reportWitness_alike {p : WitnessObject → Bool} {extension : HeaderExtension} {r : Unit}
    (h : Returns (modifyWitness p fun w => .ok (reportedBy extension w)) s r u) :
    AlikeLedger s u := by
  obtain ⟨table, htable, rfl⟩ := map_eq_ok h.update
  obtain ⟨before, w, w', after, hrows, hrows', -, -, hw⟩ := Table.modify_rows htable
  have hsame := reportedBy_sameWitness extension w
  rw [Except.ok.inj hw] at hsame
  refine ⟨rfl, trivial, ⟨?_, (Table.modify_eq_ok htable).2⟩, rfl⟩
  have hside : ∀ rows : List WitnessObject,
      List.Forall₂ (SameWitness fun _ _ => True) rows rows :=
    fun rows => List.forall₂_same.mpr fun w _ => .refl (fun _ => trivial) w
  rw [hrows, hrows']
  exact List.rel_append (hside before) (.cons hsame (hside after))

/-- The announcements of a header keep the ledger alike. -/
theorem announce_alike {r : Unit} (h : Returns (announce b) s r u) : AlikeLedger s u := by
  obtain ⟨_, v, hv, h⟩ := h.bind
  obtain ⟨dgp, hdgp, rfl⟩ := map_eq_ok hv.update
  have hstart : AlikeLedger s { s with dgp := dgp } := by
    rw [← Except.ok.inj hdgp]
    exact ⟨rfl, trivial, .refl (SameWitness.refl fun _ => trivial) _, rfl⟩
  refine h.forEach (P := AlikeLedger s) hstart fun extension _ v w hv hw => ?_
  exact hv.trans (reportWitness_alike hw)

/-- The witness and its report are recorded where the witness is found. -/
theorem announce_returns {w : WitnessObject} (hfind : s.witnesses.find (ownedBy b.witness) = some w) :
    ∃ u, Returns (announce b) s () u := by
  have hloop : ∀ (l : List HeaderExtension) (v : ChainState),
      (v.witnesses.find (ownedBy b.witness)).isSome → ∃ u, Returns (forEach (fun extension =>
        modifyWitness (ownedBy b.witness) fun wo => .ok (reportedBy extension wo)) l) v () u := by
    intro l
    induction l with
    | nil => exact fun v _ => ⟨v, rfl⟩
    | cons extension rest ih =>
      intro v hv
      obtain ⟨x, hx⟩ := Option.isSome_iff_exists.mp hv
      obtain ⟨table, htable⟩ := Table.exists_modify unknownKey hx
        (f := fun wo => .ok (reportedBy extension wo)) rfl
      have hstep : Returns (modifyWitness (ownedBy b.witness) fun wo =>
          .ok (reportedBy extension wo)) v () { v with witnesses := table } := by
        refine Returns.intro_update ?_
        rw [htable]
        rfl
      have hfound := (reportWitness_alike hstep).witnesses.find_isSome
        (p := ownedBy b.witness) fun _ _ hw => hw.condition fun _ _ => rfl
      rw [hv] at hfound
      obtain ⟨u, hu⟩ := ih _ hfound
      exact ⟨u, hstep.intro_bind hu⟩
  obtain ⟨u, hu⟩ := hloop (b.header.extensions.filter (· ≠ .voidT))
    { s with dgp := { s.dgp with currentWitness := b.witness } } (by rw [hfind]; rfl)
  exact ⟨u, Returns.intro_bind (Returns.intro_update rfl) hu⟩

/-- The checks of `_apply_block` around it change nothing. -/
theorem beforeTransactions_announces {ctx : Context} {w : WitnessObject}
    (h : Returns (beforeTransactions ctx b) s w u) : Returns (announce b) s () u := by
  obtain ⟨_, -, h⟩ := h.lift_bind
  obtain ⟨_, v, hv, h⟩ := h.bind
  have hsame : s = v := (validateBlockHeader_keeps (R := Eq) ctx b).rel s _ v hv
  rw [← hsame] at h
  obtain ⟨_, -, h⟩ := h.gets_bind.lift_bind
  obtain ⟨_, s₁, h₁, h⟩ := h.bind
  obtain ⟨_, s₂, h₂, h⟩ := h.bind
  obtain ⟨_, -, h⟩ := lookup_bind h
  obtain ⟨_, -, h⟩ := h.gets_bind.lift_bind
  rw [(Returns.pure h).2]
  exact h₁.intro_bind h₂

end Announcement

section Replay

variable {ctx : Context} {trxSize : SignedTransaction → ℕ} {when : TimePointSec} {limit : ℕ}
  {witnessOwner : AccountName} {key : SigningKey} {n m : Node} {b : SignedBlock}
  {s u : ChainState}

/-- The transactions of the draft give the state of the trial: what was dropped has left
nothing behind. -/
theorem trial_returns (pending : List SignedTransaction) {draft : Draft} {s₀ : ChainState}
    (h : Returns (forEach (applyTransaction ctx) draft.transactions) s₀ () s) :
    Returns (forEach (applyTransaction ctx)
        (trial ctx trxSize when limit pending draft s).1.transactions) s₀ ()
      (trial ctx trxSize when limit pending draft s).2 := by
  induction pending generalizing draft s with
  | nil => exact h
  | cons tx rest ih =>
    unfold trial
    split
    · exact ih h
    · cases hrun : applyTransaction ctx tx s with
      | error e => exact ih h
      | ok pair =>
        refine ih (Returns.intro_forEach_append h ?_)
        exact Returns.intro_bind (t := pair.2) (a := ()) hrun rfl

/-- The block that the producer assembles applies to the objects of the head as its trial did:
the part before the transactions records the witness and its report, every transaction
succeeds, and the objects after them are those that the trial had before it was discarded. -/
theorem assembled_block_replays
    (h : assembleBlock ctx trxSize when witnessOwner key n = (.ok b, m)) :
    (AccountName.ofBytes witnessOwner.toBytes = witnessOwner →
      ∃ u, Returns (announce b) m.state () u) ∧
    (∀ w u, Returns (beforeTransactions ctx b) m.state w u → Returns (announce b) m.state () u) ∧
    ∀ u, Returns (announce b) m.state () u →
      ∃ t, Returns (forEach (applyTransaction ctx) b.transactions) u () t ∧
        SameLedger (headTrial ctx trxSize when n.state.dgp.maximumBlockSize n).2 t := by
  obtain ⟨hm, hassembled⟩ := assembleBlock_ok h
  have hstate : m.state = (headStack n).current := by
    rw [hm]
    rfl
  rw [hstate]
  refine ⟨fun hname => ?_, fun w u hu => beforeTransactions_announces hu, fun u hu => ?_⟩
  · obtain ⟨w, vote, hfound, -, -⟩ := hassembled.extensions
    refine announce_returns (w := w) ?_
    unfold SignedBlock.witness
    rw [hassembled.witness, hname]
    exact hfound
  · have htrial : Returns (forEach (applyTransaction ctx)
        (headTrial ctx trxSize when n.state.dgp.maximumBlockSize n).1.transactions)
        (headStack n).current ()
        (headTrial ctx trxSize when n.state.dgp.maximumBlockSize n).2 :=
      trial_returns n.pendingTx rfl
    have hblind : Blind AlikeLedger (forEach (applyTransaction ctx)
        (headTrial ctx trxSize when n.state.dgp.maximumBlockSize n).1.transactions) :=
      .forEach (applyTransaction_blind (fun _ => trivial) ctx) _
    rw [hassembled.transactions]
    obtain ⟨t, ht, hafter⟩ := hblind.sim _ u () _ (announce_alike hu) htrial
    exact ⟨t, ht, AlikeLedger.sameLedger hafter⟩

end Replay

section Samples

/-- A payment of the small instance. -/
def samplePayment (expiration : TimePointSec) (source target : AccountName) : SignedTransaction :=
  ⟨1, 0, expiration, [.transfer ⟨source, target, wls 1, []⟩], [⟨0⟩]⟩

/-- A payment that expires before the next slot, one out of what it pays, and a third one. -/
def dependentPending : List SignedTransaction :=
  [samplePayment (wlsGenesisTime + 64) (initMinerName 0) (initMinerName 1),
    samplePayment (wlsGenesisTime + 100) (initMinerName 1) (initMinerName 0),
    samplePayment (wlsGenesisTime + 101) (initMinerName 0) (initMinerName 1)]

/-- Only the third payment is in the block: the first one expires too early, and the trial of
the second one fails without it. -/
theorem assembled_block_replays_dependentPending :
    ∃ b m u t, assembledAfter dependentPending = (.ok b, m) ∧
      b.transactions.map (·.expiration) = [wlsGenesisTime + 101] ∧
      Returns (announce b) m.state () u ∧
      Returns (forEach (applyTransaction ⟨packingEnv, {}, false, 10000⟩) b.transactions) u () t ∧
      SameLedger (headTrial ⟨packingEnv, {}, false, 10000⟩ sampleTrxSize nextSlot
        (nodeAfter sampleTrxSize packingEnv 1000000
          (roundAnd dependentPending)).state.dgp.maximumBlockSize
        (nodeAfter sampleTrxSize packingEnv 1000000 (roundAnd dependentPending))).2 t := by
  have hcomputed : (assembledAfter dependentPending).1.toOption.map
      (fun b => b.transactions.map (·.expiration)) = some [wlsGenesisTime + 101] := by
    decide +kernel
  have hname : AccountName.ofBytes nextWitness.toBytes = nextWitness := by decide
  cases hrun : assembledAfter dependentPending with
  | mk r m =>
    rw [hrun] at hcomputed
    cases r with
    | error e => cases hcomputed
    | ok b =>
      obtain ⟨hannounced, -, hreplayed⟩ := assembled_block_replays hrun
      obtain ⟨u, hu⟩ := hannounced hname
      obtain ⟨t, ht, hsame⟩ := hreplayed u hu
      exact ⟨b, m, u, t, rfl, Option.some.inj hcomputed, hu, ht, hsame⟩

end Samples

end Whaleshares.TrialReplay
