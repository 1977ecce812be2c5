import Mathlib
import Whaleshares.ChainTip

/-!
# Slots and the absolute clock

A block is counted in slots relative to the head. Along a chain whose blocks pass the check
of the witness schedule, these relative counts add up to one absolute clock: the slot of a
block is the interval in which its timestamp lies. Without that check a block can lie in the
interval of the head, and the count of missed slots then wraps.

Timestamps are 32-bit numbers in the source; the results take this as a bound.
-/

namespace Whaleshares.SlotClock

open Config Fc Assets Protocol Objects Program Database ApplyBlock Genesis ChainRun ChainTip
  Footprint Ledger

section Counting

variable {dgp dgp' : DynamicGlobalPropertyObject} {b : SignedBlock}

/-- What slots are counted from. -/
def clock (dgp : DynamicGlobalPropertyObject) : ℕ × TimePointSec × ℕ :=
  (dgp.headBlockNumber, dgp.time, dgp.currentAslot)

/-- The number of a block interval since the epoch. -/
def interval (time : TimePointSec) : ℕ := time / wlsBlockInterval

/-- The timestamp lies in a later interval than the head. Before the first block, it is at
least one interval after the time of the genesis. -/
def InLaterSlot (dgp : DynamicGlobalPropertyObject) (timestamp : TimePointSec) : Prop :=
  if dgp.headBlockNumber = 0 then TimePointSec.plus dgp.time wlsBlockInterval ≤ timestamp
  else interval dgp.time < interval timestamp

/-- The slot of a time depends on the clock of the head alone. -/
theorem slotAtTime_congr (h : clock dgp' = clock dgp) (time : TimePointSec) :
    slotAtTime dgp' time = slotAtTime dgp time := by
  have hnum : dgp'.headBlockNumber = dgp.headBlockNumber := congrArg Prod.fst h
  have htime : dgp'.time = dgp.time := congrArg (fun x => x.2.1) h
  unfold slotAtTime slotTime
  rw [hnum, htime]

/-- The missed blocks depend on the clock of the head alone. -/
theorem missedBlocks_congr (h : clock dgp' = clock dgp) (b : SignedBlock) :
    missedBlocks dgp' b = missedBlocks dgp b := by
  have htime : dgp'.time = dgp.time := congrArg (fun x => x.2.1) h
  unfold missedBlocks
  rw [slotAtTime_congr h, htime]

/-- The first slot after the genesis. -/
theorem slotTime_genesis (hnum : dgp.headBlockNumber = 0) :
    slotTime dgp 1 = TimePointSec.plus dgp.time wlsBlockInterval := by
  unfold slotTime
  rw [if_neg (by omega), if_pos hnum]
  rfl

/-- Three seconds after the start of an interval, the next one starts, and the clock does
not wrap there if a later time exists. -/
theorem next_interval {head time : ℕ} (hlt : head < time) (htime : time < 2 ^ 32) :
    (head / 3 * 3 + 3) % 2 ^ 32 = head / 3 * 3 + 3 := by
  omega

/-- The number of slots that begin after the interval of the head. -/
theorem slots_between {head time : ℕ} (htime : time < 2 ^ 32) :
    (if time < head / 3 * 3 + 3 then 0
      else ((time - (head / 3 * 3 + 3)) / 3 + 1) % 2 ^ 32) = time / 3 - head / 3 := by
  split <;> omega

/-- The slots that begin at a time or later. -/
theorem slots_from {first time : ℕ} (htime : time < 2 ^ 32) :
    0 < (if time < first then 0 else ((time - first) / 3 + 1) % 2 ^ 32) ↔ first ≤ time := by
  split <;> omega

/-- The slots that begin after the genesis. -/
theorem slots_since_genesis {genesis time : ℕ} (hge : genesis + 3 ≤ time) (htime : time < 2 ^ 32) :
    ((time - (genesis + 3)) / 3 + 1) % 2 ^ 32 = (time - genesis) / 3 := by
  omega

/-- An absolute slot that is not ahead of its interval fits 32 bits. -/
theorem aslot_bound {aslot first genesis time : ℕ} (htime : time < 2 ^ 32)
    (hoffset : aslot + first / 3 = time / 3 + (first - genesis) / 3) : aslot < 2 ^ 32 := by
  omega

/-- The slot of a timestamp after a block is the number of intervals between them. -/
theorem slotAtTime_block {time : TimePointSec} (hnum : dgp.headBlockNumber ≠ 0)
    (hlt : dgp.time < time) (htime : time < 2 ^ 32) :
    slotAtTime dgp time = interval time - interval dgp.time := by
  have hfirst : slotTime dgp 1 = dgp.time / 3 * 3 + 3 := by
    unfold slotTime
    rw [if_neg (by omega), if_neg hnum]
    exact next_interval hlt htime
  unfold slotAtTime
  rw [hfirst]
  exact slots_between htime

/-- A timestamp has a slot of its own exactly if it lies in a later interval. -/
theorem slotAtTime_pos_iff {time : TimePointSec} (hlt : dgp.time < time) (htime : time < 2 ^ 32) :
    0 < slotAtTime dgp time ↔ InLaterSlot dgp time := by
  unfold InLaterSlot
  by_cases hnum : dgp.headBlockNumber = 0
  · rw [if_pos hnum]
    unfold slotAtTime
    rw [slotTime_genesis hnum]
    exact slots_from htime
  · rw [if_neg hnum, slotAtTime_block hnum hlt htime]
    exact Nat.sub_pos_iff_lt

/-- The slot of a time after the genesis. -/
theorem slotAtTime_genesis {time : TimePointSec} (hnum : dgp.headBlockNumber = 0)
    (hstart : dgp.time = wlsGenesisTime) (hlater : InLaterSlot dgp time) (htime : time < 2 ^ 32) :
    slotAtTime dgp time = (time - wlsGenesisTime) / wlsBlockInterval := by
  unfold InLaterSlot at hlater
  rw [if_pos hnum, hstart] at hlater
  have hge : wlsGenesisTime + 3 ≤ time := hlater
  have hfirst : slotTime dgp 1 = wlsGenesisTime + 3 := by
    rw [slotTime_genesis hnum, hstart]
    rfl
  unfold slotAtTime
  rw [hfirst, if_neg (Nat.not_lt.mpr hge)]
  exact slots_since_genesis hge htime

/-- A slot fits into 32 bits. -/
theorem slotAtTime_lt (dgp : DynamicGlobalPropertyObject) (time : TimePointSec) :
    slotAtTime dgp time < 2 ^ 32 := by
  unfold slotAtTime
  split
  · omega
  · exact Nat.mod_lt _ (by omega)

/-- A slot of its own is preceded by one missed slot less. -/
theorem missedBlocks_of_pos (htime : dgp.time ≠ 0) (hslot : 0 < slotAtTime dgp b.header.timestamp) :
    missedBlocks dgp b + 1 = slotAtTime dgp b.header.timestamp := by
  have hlt := slotAtTime_lt dgp b.header.timestamp
  unfold missedBlocks
  rw [if_neg htime]
  omega

end Counting

section Inverses

variable {dgp : DynamicGlobalPropertyObject} {M N : ℕ} {time : TimePointSec}

/-- The time that slots are counted from: that of the genesis, or the start of the interval of
the head. -/
def slotZero (dgp : DynamicGlobalPropertyObject) : ℕ :=
  if dgp.headBlockNumber = 0 then dgp.time else dgp.time / wlsBlockInterval * wlsBlockInterval

/-- The time of a slot is a number of 32 bits. -/
def Representable (dgp : DynamicGlobalPropertyObject) (N : ℕ) : Prop :=
  slotZero dgp + N * wlsBlockInterval < 2 ^ 32

/-- The slots before a representable one are representable. -/
theorem Representable.of_le (hN : Representable dgp N) (h : M ≤ N) : Representable dgp M := by
  have hmul : M * wlsBlockInterval ≤ N * wlsBlockInterval := Nat.mul_le_mul_right _ h
  unfold Representable at *
  omega

/-- Slots follow one another in intervals. -/
theorem slotTime_eq (hpos : 1 ≤ N) (hN : Representable dgp N) :
    slotTime dgp N = slotZero dgp + N * wlsBlockInterval := by
  unfold Representable slotZero at *
  unfold slotTime TimePointSec.plus
  rw [if_neg (by omega)]
  split at hN
  next hnum =>
    have hmul : N * wlsBlockInterval % 2 ^ 32 = N * wlsBlockInterval := Nat.mod_eq_of_lt (by omega)
    rw [if_pos hnum, if_pos hnum, hmul, Nat.mod_eq_of_lt hN]
  next hnum =>
    have hmul : N * wlsBlockInterval % 2 ^ 32 = N * wlsBlockInterval := Nat.mod_eq_of_lt (by omega)
    rw [if_neg hnum, if_neg hnum, hmul, Nat.mod_eq_of_lt hN]

/-- The slot of a time, counted from the start of the slots. -/
def slotFrom (start time : ℕ) : ℕ :=
  if time < start + 3 then 0 else ((time - (start + 3)) / 3 + 1) % 2 ^ 32

/-- A slot has begun exactly if it is at most the slot of the time. -/
theorem slotFrom_le_iff {start time N : ℕ} (htime : time < 2 ^ 32) (hpos : 1 ≤ N) :
    start + N * 3 ≤ time ↔ N ≤ slotFrom start time := by
  unfold slotFrom
  split
  next hlt => constructor <;> (intro h; omega)
  next hge =>
    have hword : ((time - (start + 3)) / 3 + 1) % 2 ^ 32 = (time - (start + 3)) / 3 + 1 := by
      omega
    rw [hword]
    omega

/-- The beginning of the slot of a time fits into 32 bits. -/
theorem slotFrom_fits {start time : ℕ} (htime : time < 2 ^ 32) (hpos : 1 ≤ slotFrom start time) :
    start + slotFrom start time * 3 < 2 ^ 32 :=
  Nat.lt_of_le_of_lt ((slotFrom_le_iff htime hpos).mpr (Nat.le_refl _)) htime

/-- The slot of a time counts the intervals from slot zero. -/
theorem slotAtTime_eq (hfirst : Representable dgp 1) :
    slotAtTime dgp time = slotFrom (slotZero dgp) time := by
  have heq : slotTime dgp 1 = slotZero dgp + 3 := slotTime_eq (Nat.le_refl 1) hfirst
  unfold slotAtTime slotFrom
  rw [heq]
  rfl

/-- A slot begins at a time or before it exactly if it is not after the slot at that time. -/
theorem slotTime_le_iff (htime : time < 2 ^ 32) (hpos : 1 ≤ N) (hN : Representable dgp N) :
    slotTime dgp N ≤ time ↔ N ≤ slotAtTime dgp time := by
  rw [slotTime_eq hpos hN, slotAtTime_eq (hN.of_le hpos)]
  exact slotFrom_le_iff htime hpos

/-- The slot at a time begins at that time or before it. -/
theorem slotAtTime_representable (htime : time < 2 ^ 32) (hfirst : Representable dgp 1)
    (hpos : 1 ≤ slotAtTime dgp time) : Representable dgp (slotAtTime dgp time) := by
  rw [slotAtTime_eq hfirst] at hpos ⊢
  exact slotFrom_fits htime hpos

/-- Later slots begin later, as far as they are representable. -/
theorem slotTime_strictMono (hpos : 1 ≤ M) (h : M < N) (hN : Representable dgp N) :
    slotTime dgp M < slotTime dgp N := by
  have hmul : M * wlsBlockInterval < N * wlsBlockInterval := Nat.mul_lt_mul_of_pos_right h (by decide)
  rw [slotTime_eq hpos (hN.of_le h.le), slotTime_eq (hpos.trans h.le) hN]
  exact Nat.add_lt_add_left hmul _

/-- The first slot begins after the head. -/
theorem time_lt_slotTime (hfirst : Representable dgp 1) : dgp.time < slotTime dgp 1 := by
  have heq : slotTime dgp 1 = slotZero dgp + 3 := slotTime_eq (Nat.le_refl 1) hfirst
  have hafter : ∀ head : ℕ, head < head / 3 * 3 + 3 := fun head => by omega
  rw [heq]
  unfold slotZero
  split
  · exact Nat.lt_add_of_pos_right (by decide)
  · exact hafter dgp.time

/-- Where no time overflows, the slot at a time is the greatest one that begins at that time or
before it, or zero if there is none; later slots begin later, and the first one after the
head. -/
theorem slot_at_time_greatest (dgp : DynamicGlobalPropertyObject) (time : TimePointSec)
    (htime : time < 2 ^ 32) (hfirst : Representable dgp 1) :
    (∀ N, 1 ≤ N → Representable dgp N → (slotTime dgp N ≤ time ↔ N ≤ slotAtTime dgp time)) ∧
      (IsGreatest {N | 1 ≤ N ∧ Representable dgp N ∧ slotTime dgp N ≤ time}
          (slotAtTime dgp time) ∨
        slotAtTime dgp time = 0 ∧
          ∀ N, 1 ≤ N → Representable dgp N → ¬ slotTime dgp N ≤ time) ∧
      (∀ M N, 1 ≤ M → M < N → Representable dgp N → slotTime dgp M < slotTime dgp N) ∧
      dgp.time < slotTime dgp 1 := by
  refine ⟨fun N hpos hN => slotTime_le_iff htime hpos hN, ?_,
    fun M N hpos h hN => slotTime_strictMono hpos h hN, time_lt_slotTime hfirst⟩
  rcases Nat.eq_zero_or_pos (slotAtTime dgp time) with hzero | hpos
  · refine .inr ⟨hzero, fun N hN hrep hle => ?_⟩
    have hlast := (slotTime_le_iff htime hN hrep).mp hle
    omega
  · have hrep := slotAtTime_representable htime hfirst hpos
    refine .inl ⟨⟨hpos, hrep, (slotTime_le_iff htime hpos hrep).mpr (Nat.le_refl _)⟩, ?_⟩
    rintro N ⟨hN, hNrep, hle⟩
    exact (slotTime_le_iff htime hN hNrep).mp hle

/-- A head in the middle of an interval. -/
def unalignedHead : DynamicGlobalPropertyObject := { headBlockNumber := 7, time := 100 }

/-- Between the beginnings of two slots the earlier one is the slot of the time. -/
theorem slot_at_time_greatest_unaligned :
    IsGreatest {N | 1 ≤ N ∧ Representable unalignedHead N ∧ slotTime unalignedHead N ≤ 107}
      (slotAtTime unalignedHead 107) ∧ slotAtTime unalignedHead 107 = 2 := by
  have hfirst : Representable unalignedHead 1 := by
    unfold Representable
    decide
  obtain ⟨-, hgreatest | ⟨hzero, -⟩, -, -⟩ :=
    slot_at_time_greatest unalignedHead 107 (by decide) hfirst
  · exact ⟨hgreatest, by decide⟩
  · exact absurd hzero (by decide)

end Inverses

section Blocks

variable {ctx : Context} {b : SignedBlock} {s t : ChainState}

/-- The part of `_apply_block` between the check of the header and
`update_global_dynamic_data`. -/
def applyBody (ctx : Context) (b : SignedBlock) : Chain Unit := do
  let gprops ← gets (·.dgp)
  lift (fcAssert (ctx.env.packSize b ≤ gprops.maximumBlockSize) "Block Size is too Big")
  modifyDgp fun dgp => .ok { dgp with currentWitness := b.witness }
  processHeaderExtensions b
  let witness ← getWitness b.witness
  let hardforkState ← gets (·.hardforks)
  lift (fcAssert (hardforkState.currentHardforkVersion.vNum ≤ witness.runningVersion.vNum)
    "Block produced by witness that is not running current hardfork")
  forEach (applyTransaction ctx) b.transactions

/-- The front of a block is its Merkle check, its header, its body and the new global properties. -/
theorem applyBlockFront_eq (ctx : Context) (b : SignedBlock) :
    applyBlockFront ctx b = (do
      lift (fcAssert (ctx.skip.merkleCheck ||
        b.header.transactionMerkleRoot = b.calculateMerkleRoot ctx.env) "Merkle check failed")
      let signingWitness ← validateBlockHeader ctx b
      applyBody ctx b
      updateGlobalDynamicData ctx b
      updateSigningWitness signingWitness.owner b
      updateLastIrreversibleBlock) := by
  simp only [applyBlockFront, applyBody, bind_assoc]

/-- A part of the global properties that only `update_global_dynamic_data` changes. -/
structure HeadView {β : Type} (f : DynamicGlobalPropertyObject → β) : Prop where
  totals : ∀ d, f (head d) = f d
  blockSize : ∀ d n, f { d with maximumBlockSize := n } = f d
  currentWitness : ∀ d w, f { d with currentWitness := w } = f d
  lastIrreversible : ∀ d n, f { d with lastIrreversibleBlockNum := n } = f d

/-- The states show the same part of the global properties. -/
def SameView {β : Type} (f : DynamicGlobalPropertyObject → β) (s t : ChainState) : Prop :=
  f t.dgp = f s.dgp

instance {β : Type} (f : DynamicGlobalPropertyObject → β) :
    IsPreorder ChainState (SameView f) where
  refl _ := rfl
  trans _ _ _ hst htu := Eq.trans htu hst

section Views

variable {β : Type} {f : DynamicGlobalPropertyObject → β}

/-- Changes beside the global properties keep what is seen of them. -/
theorem sameView_frame (f : DynamicGlobalPropertyObject → β) : Frame (SameView f) where
  accounts _ _ _ := rfl
  accountAuthorities _ _ := rfl
  comments _ _ := rfl
  commentVotes _ _ := rfl
  witnessVotes _ _ := rfl
  withdrawVestingRoutes _ _ := rfl
  transactions _ _ := rfl
  witnesses _ _ _ _ := rfl

/-- The routines of a round keep what is seen of the head. -/
theorem HeadView.roundFrame (hf : HeadView f) : RoundFrame (SameView f) where
  toFrame := sameView_frame f
  blockSize s n := hf.blockSize s.dgp n
  wso _ _ _ := rfl
  hardforks _ _ := rfl
  blockSummaries _ _ := rfl

/-- The routines of money keep what is seen of the head. -/
theorem HeadView.moneyFrame (hf : HeadView f) : MoneyFrame (SameView f) where
  toFrame := sameView_frame f
  newWitness _ _ _ _ _ _ _ := rfl
  anyAccounts _ _ := rfl
  rewardFunds _ _ := rfl
  totals s d hhead := by
    have hsame : f (head d) = f (head s.dgp) := congrArg f hhead
    rwa [hf.totals, hf.totals] at hsame

/-- A change of the global properties beside what is seen keeps it. -/
theorem setDgp_sameView {g : DynamicGlobalPropertyObject → DynamicGlobalPropertyObject}
    (hg : ∀ d, f (g d) = f d) :
    Keeps (SameView f) (modifyDgp fun dgp => .ok (g dgp)) := by
  refine .update fun u v huv => ?_
  obtain ⟨d, hd, rfl⟩ := map_eq_ok huv
  rw [← Except.ok.inj hd]
  exact hg u.dgp

/-- The body of a block keeps what is seen of the head. -/
theorem applyBody_sameView (hf : HeadView f) (h : Returns (applyBody ctx b) s () t) :
    SameView f s t := by
  have hkeeps : Keeps (SameView f) (applyBody ctx b) := by
    refine .bind (.gets _) fun _ => .bind (.lift _) fun _ => .bind ?_ fun _ =>
      .bind (processHeaderExtensions_keeps hf.roundFrame.toQuietFrame b) fun _ =>
      .bind (lookup_keeps _ _) fun _ => .bind (.gets _) fun _ => .bind (.lift _) fun _ =>
      .forEach (fun trx => ?_) _
    · exact setDgp_sameView fun d => hf.currentWitness d b.witness
    · exact applyTransaction_keeps ctx (hf.moneyFrame.toOperationFrame _) trx
  exact hkeeps.rel s () t h

/-- The new last irreversible block keeps what is seen of the head. -/
theorem updateLastIrreversibleBlock_sameView {u : Unit} (hf : HeadView f)
    (h : Returns updateLastIrreversibleBlock s u t) : SameView f s t := by
  have hset : ∀ n : DynamicGlobalPropertyObject → ℕ, Keeps (SameView f)
      (modifyDgp fun dpo => .ok { dpo with lastIrreversibleBlockNum := n dpo }) :=
    fun n => setDgp_sameView fun d => hf.lastIrreversible d (n d)
  have h := h.gets_bind
  split at h
  · exact (hset _).rel _ _ _ h
  · obtain ⟨witnesses, v, hv, h⟩ := h.bind
    obtain ⟨num, -, h⟩ := h.lift_bind
    have hsame : SameView f s v := scheduledWitnesses_keeps.rel s witnesses v hv
    exact Trans.trans hsame ((hset _).rel _ _ _ h)

end Views

/-- The states have the same clock. -/
def SameClock (s t : ChainState) : Prop := clock t.dgp = clock s.dgp

instance : IsPreorder ChainState SameClock where
  refl _ := rfl
  trans _ _ _ hst htu := Eq.trans htu hst

/-- The clock is changed by `update_global_dynamic_data` only. -/
theorem headView_clock : HeadView clock := ⟨fun _ => rfl, fun _ _ => rfl, fun _ _ => rfl,
  fun _ _ => rfl⟩

/-- Changes beside the global properties keep the clock. -/
theorem sameClock_frame : Frame SameClock := sameView_frame clock

/-- The routines of a round keep the clock. -/
theorem sameClock_roundFrame : RoundFrame SameClock := headView_clock.roundFrame

/-- The routines of money keep the clock. -/
theorem sameClock_moneyFrame : MoneyFrame SameClock := headView_clock.moneyFrame

/-- The body of a block keeps the clock. -/
theorem applyBody_sameClock (h : Returns (applyBody ctx b) s () t) : SameClock s t :=
  applyBody_sameView headView_clock h

/-- What the header of an accepted block was checked for. -/
structure HeaderChecked (ctx : Context) (b : SignedBlock) (s : ChainState) : Prop where
  later : s.dgp.time < b.header.timestamp
  slot : ctx.skip.witnessScheduleCheck = false → 0 < slotAtTime s.dgp b.header.timestamp
  scheduled : ctx.skip.witnessScheduleCheck = false →
    Returns (getScheduledWitness (slotAtTime s.dgp b.header.timestamp)) s b.witness s
  signed : ctx.skip.witnessSignature = false →
    ∃ w, s.witnesses.find (ownedBy b.witness) = some w ∧ ctx.env.signee b.header = some w.signingKey

/-- The validation of a header changes nothing and makes its checks. -/
theorem validateBlockHeader_checked {w : WitnessObject}
    (h : Returns (validateBlockHeader ctx b) s w t) : t = s ∧ HeaderChecked ctx b s := by
  obtain ⟨_, -, h⟩ := h.gets_bind.lift_bind
  obtain ⟨_, hlater, h⟩ := h.lift_bind
  obtain ⟨v, hv, h⟩ := lookup_bind h
  obtain ⟨_, hsignee, h⟩ := h.lift_bind
  obtain ⟨name, u, hname, h⟩ := h.bind
  have hu : u = s := (Returns.pure hname.gets_bind.gets_bind).2
  rw [hu] at hname h
  obtain ⟨_, hslot, h⟩ := h.lift_bind
  obtain ⟨_, hscheduled, h⟩ := h.lift_bind
  have howner : v.owner = b.witness := by
    have hown : ownedBy b.witness v = true := List.find?_some hv
    simpa [ownedBy] using hown
  refine ⟨(Returns.pure h).2, ⟨?_, fun hcheck => ?_, fun hcheck => ?_, fun hcheck => ?_⟩⟩
  · simpa using fcAssert_eq_ok hlater
  · have hpos := fcAssert_eq_ok hslot
    rw [hcheck] at hpos
    simpa using hpos
  · have heq := fcAssert_eq_ok hscheduled
    rw [hcheck] at heq
    have hown : v.owner = name := by simpa using heq
    rw [← howner, hown]
    exact hname
  · have heq := fcAssert_eq_ok hsignee
    rw [hcheck] at heq
    exact ⟨v, hv, by simpa using heq⟩

/-- `update_global_dynamic_data` leaves what is shown, after the missed slots, to the new head. -/
theorem updateGlobalDynamicData_head {β : Type} (f : DynamicGlobalPropertyObject → β) {u : Unit}
    (h : Returns (updateGlobalDynamicData ctx b) s u t) : ∃ v, SameView f s v ∧
      t = { v with dgp := advanceHead ctx b (missedBlocks s.dgp b) v.dgp } := by
  obtain ⟨_, v, hv, h⟩ := h.gets_bind.bind
  obtain ⟨_, w, hw, h⟩ := h.bind
  obtain ⟨-, rfl⟩ := h.gets_bind.lift
  obtain ⟨d, hd, rfl⟩ := map_eq_ok hw.update
  rw [← Except.ok.inj hd]
  exact ⟨v, (missSlots_keeps (sameView_frame f).toQuietFrame b _ _).rel s () v hv, rfl⟩

/-- An accepted block has a checked header, and what it shows at its end is what the new head
shows. -/
theorem applyBlock_view {β : Type} {f : DynamicGlobalPropertyObject → β} (hf : HeadView f)
    (h : Returns (applyBlock ctx b) s () t) : HeaderChecked ctx b s ∧
      ∃ v, SameClock s v ∧ SameView f s v ∧
        f t.dgp = f (advanceHead ctx b (missedBlocks s.dgp b) v.dgp) := by
  obtain ⟨_, front, hfront, hback⟩ := h.bind
  rw [applyBlockFront_eq] at hfront
  obtain ⟨_, -, h₁⟩ := hfront.lift_bind
  obtain ⟨w, s₁, hheader, h₂⟩ := h₁.bind
  obtain ⟨hs₁, hchecked⟩ := validateBlockHeader_checked hheader
  rw [hs₁] at h₂
  obtain ⟨_, s₂, hbody, h₃⟩ := h₂.bind
  obtain ⟨_, s₃, hdata, h₄⟩ := h₃.bind
  obtain ⟨_, s₄, hsigning, hirreversible⟩ := h₄.bind
  obtain ⟨v, hv, hs₃⟩ := updateGlobalDynamicData_head (fun d => (clock d, f d)) hdata
  have hloop : SameClock s₂ v := congrArg Prod.fst hv
  have hloop' : SameView f s₂ v := congrArg Prod.snd hv
  have hclock : SameClock s v := Trans.trans (applyBody_sameClock hbody) hloop
  have hshown : SameView f s v := Trans.trans (applyBody_sameView hf hbody) hloop'
  refine ⟨hchecked, v, hclock, hshown, ?_⟩
  calc f t.dgp = f front.dgp :=
      (applyBlockBack_keeps ctx hf.roundFrame hf.moneyFrame b).rel front () t hback
    _ = f s₄.dgp := updateLastIrreversibleBlock_sameView hf hirreversible
    _ = f s₃.dgp := by rw [updateSigningWitness_dgp hsigning]
    _ = _ := by rw [hs₃, missedBlocks_congr (applyBody_sameClock hbody)]

/-- `update_global_dynamic_data` moves the clock to the block. -/
theorem updateGlobalDynamicData_clock {u : Unit}
    (h : Returns (updateGlobalDynamicData ctx b) s u t) :
    clock t.dgp = (b.blockNum, b.header.timestamp,
      (s.dgp.currentAslot + (missedBlocks s.dgp b + 1) % 2 ^ 32) % 2 ^ 64) := by
  obtain ⟨v, hv, rfl⟩ := updateGlobalDynamicData_head clock h
  have haslot : v.dgp.currentAslot = s.dgp.currentAslot := congrArg (fun x => x.2.2) hv
  change (b.blockNum, b.header.timestamp,
    (v.dgp.currentAslot + (missedBlocks s.dgp b + 1) % 2 ^ 32) % 2 ^ 64) = _
  rw [haslot]

/-- The new last irreversible block keeps the clock. -/
theorem updateLastIrreversibleBlock_sameClock {u : Unit}
    (h : Returns updateLastIrreversibleBlock s u t) : SameClock s t :=
  updateLastIrreversibleBlock_sameView headView_clock h

/-- An accepted block has a checked header and moves the clock to its timestamp. -/
theorem applyBlock_clock (h : Returns (applyBlock ctx b) s () t) :
    HeaderChecked ctx b s ∧ clock t.dgp = (b.blockNum, b.header.timestamp,
      (s.dgp.currentAslot + (missedBlocks s.dgp b + 1) % 2 ^ 32) % 2 ^ 64) := by
  obtain ⟨hchecked, v, hclock, -, hshown⟩ := applyBlock_view headView_clock h
  have haslot : v.dgp.currentAslot = s.dgp.currentAslot := congrArg (fun x => x.2.2) hclock
  refine ⟨hchecked, hshown.trans ?_⟩
  change (b.blockNum, b.header.timestamp,
    (v.dgp.currentAslot + (missedBlocks s.dgp b + 1) % 2 ^ 32) % 2 ^ 64) = _
  rw [haslot]

end Blocks

section Runs

variable {env : Env} {initSupply : ℕ} {calls : List BlockCall} {call : BlockCall} {s t : ChainState}

/-- The slots without a block between a block and the one before it, or the genesis. -/
def emptySlots (previous : Option SignedBlock) (b : SignedBlock) : ℕ :=
  match previous with
  | none => (b.header.timestamp - wlsGenesisTime) / wlsBlockInterval - 1
  | some p => interval b.header.timestamp - interval p.header.timestamp - 1

/-- The slots without a block up to the last block of a chain. -/
def totalEmptySlots : Option SignedBlock → List SignedBlock → ℕ
  | _, [] => 0
  | previous, b :: rest => emptySlots previous b + totalEmptySlots (some b) rest

/-- A further block adds its empty slots. -/
theorem totalEmptySlots_append (previous : Option SignedBlock) (blocks : List SignedBlock)
    (b : SignedBlock) :
    totalEmptySlots previous (blocks ++ [b]) =
      totalEmptySlots previous blocks + emptySlots (blocks.getLast?.or previous) b := by
  induction blocks generalizing previous with
  | nil => simp [totalEmptySlots]
  | cons c rest ih =>
    simp only [List.cons_append, totalEmptySlots, ih]
    rw [Nat.add_assoc]
    congr 2
    cases rest with
    | nil => rfl
    | cons d rest => simp [List.getLast?_cons]

/-- The slots of a run whose last state has the given clock. -/
structure Ticking (calls : List BlockCall) (clock : ℕ × TimePointSec × ℕ) : Prop where
  number : clock.1 = calls.length
  time : ∀ last ∈ calls.getLast?, clock.2.1 = last.block.header.timestamp
  start : calls = [] → clock.2.1 = wlsGenesisTime
  late : wlsGenesisTime ≤ clock.2.1
  aslot : clock.2.2 = calls.length + totalEmptySlots none (calls.map (·.block))
  offset : ∀ first ∈ calls.head?, clock.2.2 + interval first.block.header.timestamp =
    interval clock.2.1 + (first.block.header.timestamp - wlsGenesisTime) / wlsBlockInterval
  bound : clock.2.2 < 2 ^ 32

/-- The clock of genesis ticks before the first block. -/
theorem ticking_initGenesis (env : Env) (initSupply : ℕ) :
    Ticking [] (clock (initGenesis env initSupply).dgp) where
  number := rfl
  time _ h := by cases h
  start _ := rfl
  late := Nat.le_refl _
  aslot := rfl
  offset _ h := by cases h
  bound := by
    change 0 < 2 ^ 32
    omega

/-- The slot of the first block. -/
theorem Ticking.slot_first (hs : Ticking [] (clock s.dgp)) {ctx : Context} {b : SignedBlock}
    (hchecked : HeaderChecked ctx b s) (hschedule : ctx.skip.witnessScheduleCheck = false)
    (hstamp : b.header.timestamp < 2 ^ 32) :
    slotAtTime s.dgp b.header.timestamp =
      (b.header.timestamp - wlsGenesisTime) / wlsBlockInterval := by
  have htime : s.dgp.time = wlsGenesisTime := hs.start rfl
  have hzero : s.dgp.headBlockNumber = 0 := hs.number
  have hlater := (slotAtTime_pos_iff hchecked.later hstamp).mp (hchecked.slot hschedule)
  exact slotAtTime_genesis hzero htime hlater hstamp

/-- The slot of a block after another one. -/
theorem Ticking.slot_next (hs : Ticking calls (clock s.dgp)) {last : BlockCall}
    (hlast : calls.getLast? = some last) {ctx : Context} {b : SignedBlock}
    (hchecked : HeaderChecked ctx b s) (hstamp : b.header.timestamp < 2 ^ 32) :
    slotAtTime s.dgp b.header.timestamp =
      interval b.header.timestamp - interval last.block.header.timestamp := by
  have hnum : s.dgp.headBlockNumber = calls.length := hs.number
  have hne : s.dgp.headBlockNumber ≠ 0 := by
    rw [hnum]
    intro hzero
    rw [List.length_eq_zero_iff.mp hzero] at hlast
    cases hlast
  have htime : s.dgp.time = last.block.header.timestamp := hs.time last hlast
  rw [slotAtTime_block hne hchecked.later hstamp, htime]

/-- The slot of the next block is the number of its empty slots and one more. -/
theorem Ticking.slot (hs : Ticking calls (clock s.dgp)) {ctx : Context} {b : SignedBlock}
    (hchecked : HeaderChecked ctx b s) (hschedule : ctx.skip.witnessScheduleCheck = false)
    (hstamp : b.header.timestamp < 2 ^ 32) :
    slotAtTime s.dgp b.header.timestamp =
      emptySlots ((calls.map (·.block)).getLast?) b + 1 := by
  have hpos := hchecked.slot hschedule
  cases hlast : calls.getLast? with
  | none =>
    have hnil : calls = [] := List.getLast?_eq_none_iff.mp hlast
    subst hnil
    have hslot := hs.slot_first hchecked hschedule hstamp
    change _ = (b.header.timestamp - wlsGenesisTime) / wlsBlockInterval - 1 + 1
    rw [hslot] at hpos ⊢
    exact (Nat.sub_add_cancel hpos).symm
  | some last =>
    have hslot := hs.slot_next hlast hchecked hstamp
    rw [List.getLast?_map, hlast]
    change _ = interval b.header.timestamp - interval last.block.header.timestamp - 1 + 1
    rw [hslot] at hpos ⊢
    exact (Nat.sub_add_cancel hpos).symm

/-- A block moves the absolute slot on by its own slot. -/
theorem applyBlock_aslot (htime : s.dgp.time ≠ 0) (h : Returns (applyBlock ctx b) s () t) :
    t.dgp.currentAslot = (s.dgp.currentAslot + slotAtTime s.dgp b.header.timestamp) % 2 ^ 64 := by
  have haslot : t.dgp.currentAslot =
      (s.dgp.currentAslot + (missedBlocks s.dgp b + 1) % 2 ^ 32) % 2 ^ 64 :=
    congrArg (fun x => x.2.2) (applyBlock_clock h).2
  have hlt := slotAtTime_lt s.dgp b.header.timestamp
  have hmissed : (missedBlocks s.dgp b + 1) % 2 ^ 32 = slotAtTime s.dgp b.header.timestamp := by
    unfold missedBlocks
    rw [if_neg htime]
    omega
  rw [haslot, hmissed]

/-- What a block adds to the absolute slot. -/
theorem Ticking.advance (hs : Ticking calls (clock s.dgp)) (h : Returns (call.run env) s () t) :
    t.dgp.currentAslot = s.dgp.currentAslot + slotAtTime s.dgp call.block.header.timestamp := by
  have hlate : wlsGenesisTime ≤ s.dgp.time := hs.late
  have htime : s.dgp.time ≠ 0 := Nat.pos_iff_ne_zero.mp (Nat.lt_of_lt_of_le (by decide) hlate)
  have hlt := slotAtTime_lt s.dgp call.block.header.timestamp
  have hbound : s.dgp.currentAslot < 2 ^ 32 := hs.bound
  rw [applyBlock_aslot htime h]
  exact Nat.mod_eq_of_lt (by omega)

/-- The distance between the absolute slot and the interval of the head stays the same. -/
theorem Ticking.advance_offset (hs : Ticking calls (clock s.dgp))
    (hschedule : call.skip.witnessScheduleCheck = false)
    (hstamp : call.block.header.timestamp < 2 ^ 32) (h : Returns (call.run env) s () t) :
    ∀ first ∈ (calls ++ [call]).head?,
      t.dgp.currentAslot + interval first.block.header.timestamp =
        interval call.block.header.timestamp +
          (first.block.header.timestamp - wlsGenesisTime) / wlsBlockInterval := by
  intro first hfirst
  have hchecked := (applyBlock_clock h).1
  rw [hs.advance h]
  cases hlast : calls.getLast? with
  | none =>
    have hnil : calls = [] := List.getLast?_eq_none_iff.mp hlast
    subst hnil
    have hsame : call = first := Option.some.inj hfirst
    have hzero : s.dgp.currentAslot = 0 := hs.aslot
    rw [← hsame, hs.slot_first hchecked hschedule hstamp, hzero]
    omega
  | some last =>
    have hslot := hs.slot_next hlast hchecked hstamp
    have hpos := hchecked.slot hschedule
    have htime : s.dgp.time = last.block.header.timestamp := hs.time last hlast
    have hmem : first ∈ calls.head? := by
      cases calls with
      | nil => cases hlast
      | cons head rest => exact hfirst
    have hold : s.dgp.currentAslot + interval first.block.header.timestamp =
        interval s.dgp.time +
          (first.block.header.timestamp - wlsGenesisTime) / wlsBlockInterval := hs.offset first hmem
    rw [htime] at hold
    omega

/-- The clock of a run moves on with an accepted block. -/
theorem Ticking.step (hs : Ticking calls (clock s.dgp))
    (hschedule : call.skip.witnessScheduleCheck = false)
    (hstamp : call.block.header.timestamp < 2 ^ 32)
    (hnumber : call.block.blockNum = calls.length + 1) (h : Returns (call.run env) s () t) :
    Ticking (calls ++ [call]) (clock t.dgp) := by
  obtain ⟨hchecked, hclock⟩ := applyBlock_clock h
  have hslot := hs.slot hchecked hschedule hstamp
  have hadvance := hs.advance h
  have hoffset := hs.advance_offset hschedule hstamp h
  have htime : t.dgp.time = call.block.header.timestamp := congrArg (fun x => x.2.1) hclock
  have haslot : s.dgp.currentAslot = calls.length + totalEmptySlots none (calls.map (·.block)) :=
    hs.aslot
  refine ⟨?_, ?_, ?_, ?_, ?_, ?_, ?_⟩
  · rw [hclock, List.length_append]
    exact hnumber
  · intro last hlast
    rw [List.getLast?_append_of_ne_nil _ (List.cons_ne_nil _ _)] at hlast
    have hsame : call = last := Option.some.inj hlast
    rw [hclock, hsame]
  · intro hnil
    simp at hnil
  · rw [hclock]
    exact Nat.le_of_lt (Nat.lt_of_le_of_lt hs.late hchecked.later)
  · change t.dgp.currentAslot = _
    rw [hadvance, hslot, haslot, List.map_append, List.map_singleton, totalEmptySlots_append,
      List.length_append, List.length_singleton, Option.or_none]
    omega
  · change ∀ first ∈ (calls ++ [call]).head?,
      t.dgp.currentAslot + interval first.block.header.timestamp = interval t.dgp.time + _
    rw [htime]
    exact hoffset
  · obtain ⟨first, hfirst⟩ : ∃ first, (calls ++ [call]).head? = some first := by
      cases calls with
      | nil => exact ⟨call, rfl⟩
      | cons head rest => exact ⟨head, rfl⟩
    exact aslot_bound hstamp (hoffset first hfirst)

/-- The clock of every state that a run reaches. -/
theorem Reaches.ticking (hschedule : ∀ call ∈ calls, call.skip.witnessScheduleCheck = false)
    (hstamps : ∀ call ∈ calls, call.block.header.timestamp < 2 ^ 32)
    (h : Reaches env initSupply calls s) : Ticking calls (clock s.dgp) := by
  induction calls using List.reverseRecOn generalizing s with
  | nil =>
    obtain ⟨-, rfl⟩ := Returns.pure h
    exact ticking_initGenesis env initSupply
  | append_singleton calls call ih =>
    obtain ⟨u, hu, hcall⟩ := reaches_append.mp h
    have hticking := ih (fun c hc => hschedule c (List.mem_append_left _ hc))
      (fun c hc => hstamps c (List.mem_append_left _ hc)) hu
    have hnumber : call.block.blockNum = calls.length + 1 := by
      unfold SignedBlock.blockNum
      rw [← (applyBlock_head hcall).1, (Reaches.tip hu).2.2]
    exact hticking.step (hschedule call (by simp)) (hstamps call (by simp)) hnumber hcall

/-- The slots of a run follow one absolute clock. -/
structure OneClock (env : Env) (initSupply : ℕ) (calls : List BlockCall) (s : ChainState) :
    Prop where
  /-- From the first block on, the absolute slot and the interval of the head move together. -/
  constant : ∀ earlier later u, calls = earlier ++ later → earlier ≠ [] →
    Reaches env initSupply earlier u →
    (s.dgp.currentAslot : ℤ) - interval s.dgp.time = u.dgp.currentAslot - interval u.dgp.time
  /-- The absolute slot counts the blocks and the empty slots. -/
  counted : s.dgp.currentAslot =
    s.dgp.headBlockNumber + totalEmptySlots none (calls.map (·.block))
  /-- No two blocks share an interval. -/
  increasing : (calls.map fun call => interval call.block.header.timestamp).Pairwise (· < ·)
  /-- A block is made and signed by the witness of its absolute slot. -/
  scheduled : ∀ earlier call later u v, calls = earlier ++ call :: later →
    Reaches env initSupply earlier u → Reaches env initSupply (earlier ++ [call]) v →
    Returns (getScheduledWitness (slotAtTime u.dgp call.block.header.timestamp)) u
      call.block.witness u ∧
    call.block.witness = u.wso.currentShuffledWitnesses.getD
      (v.dgp.currentAslot % u.wso.numScheduledWitnesses) .empty ∧
    (call.skip.witnessSignature = false →
      ∃ w, u.witnesses.find (ownedBy call.block.witness) = some w ∧
        env.signee call.block.header = some w.signingKey)

/-- The head keeps its distance to the absolute clock from any earlier block on. -/
theorem head_offset {earlier later : List BlockCall} {u : ChainState} (hne : earlier ≠ [])
    (hs : Ticking (earlier ++ later) (clock s.dgp)) (hu : Ticking earlier (clock u.dgp)) :
    (s.dgp.currentAslot : ℤ) - interval s.dgp.time = u.dgp.currentAslot - interval u.dgp.time := by
  cases earlier with
  | nil => exact absurd rfl hne
  | cons first rest =>
    have hlong : s.dgp.currentAslot + interval first.block.header.timestamp =
        interval s.dgp.time +
          (first.block.header.timestamp - wlsGenesisTime) / wlsBlockInterval := hs.offset first rfl
    have hshort : u.dgp.currentAslot + interval first.block.header.timestamp =
        interval u.dgp.time +
          (first.block.header.timestamp - wlsGenesisTime) / wlsBlockInterval := hu.offset first rfl
    omega

/-- The intervals of the blocks of a run increase. -/
theorem Reaches.intervals (hschedule : ∀ call ∈ calls, call.skip.witnessScheduleCheck = false)
    (hstamps : ∀ call ∈ calls, call.block.header.timestamp < 2 ^ 32)
    (h : Reaches env initSupply calls s) :
    (calls.map fun call => interval call.block.header.timestamp).Pairwise (· < ·) := by
  induction calls using List.reverseRecOn generalizing s with
  | nil => exact List.Pairwise.nil
  | append_singleton calls call ih =>
    obtain ⟨u, hu, hcall⟩ := reaches_append.mp h
    have hold : ∀ c ∈ calls, c.skip.witnessScheduleCheck = false := fun c hc =>
      hschedule c (List.mem_append_left _ hc)
    have hstamps' : ∀ c ∈ calls, c.block.header.timestamp < 2 ^ 32 := fun c hc =>
      hstamps c (List.mem_append_left _ hc)
    have hpairs := ih hold hstamps' hu
    have hticking := Reaches.ticking hold hstamps' hu
    have hchecked := (applyBlock_clock hcall).1
    rw [List.map_append, List.map_singleton, List.pairwise_append]
    refine ⟨hpairs, List.pairwise_singleton _ _, fun x hx y hy => ?_⟩
    rw [List.mem_singleton.mp hy]
    cases hlast : calls.getLast? with
    | none =>
      rw [List.getLast?_eq_none_iff.mp hlast] at hx
      cases hx
    | some last =>
      have hslot := hticking.slot_next hlast hchecked (hstamps call (by simp))
      have hpos := hchecked.slot (hschedule call (by simp))
      have hle : x ≤ interval last.block.header.timestamp := by
        obtain ⟨front, rfl⟩ := List.getLast?_eq_some_iff.mp hlast
        rw [List.map_append, List.map_singleton] at hx hpairs
        rcases List.mem_append.mp hx with hx | hx
        · exact Nat.le_of_lt ((List.pairwise_append.mp hpairs).2.2 x hx _ (by simp))
        · rw [List.mem_singleton.mp hx]
      rw [hslot] at hpos
      omega

/-- A block of a run is made by the witness of the absolute slot that it takes. -/
theorem Ticking.scheduled (hs : Ticking calls (clock s.dgp))
    (hschedule : call.skip.witnessScheduleCheck = false) (h : Returns (call.run env) s () t) :
    call.block.witness = s.wso.currentShuffledWitnesses.getD
      (t.dgp.currentAslot % s.wso.numScheduledWitnesses) .empty := by
  have hchecked := (applyBlock_clock h).1
  have hname := (Returns.pure (hchecked.scheduled hschedule).gets_bind.gets_bind).1
  have hbound : s.dgp.currentAslot < 2 ^ 32 := hs.bound
  have hlt := slotAtTime_lt s.dgp call.block.header.timestamp
  have hmod : (s.dgp.currentAslot + slotAtTime s.dgp call.block.header.timestamp) % 2 ^ 64 =
      s.dgp.currentAslot + slotAtTime s.dgp call.block.header.timestamp :=
    Nat.mod_eq_of_lt (by omega)
  rw [hmod, ← hs.advance h] at hname
  exact hname

/-- Along every chain of blocks applied with the check of the witness schedule, slots follow
one absolute clock. -/
theorem slots_follow_one_clock
    (hschedule : ∀ call ∈ calls, call.skip.witnessScheduleCheck = false)
    (hstamps : ∀ call ∈ calls, call.block.header.timestamp < 2 ^ 32)
    (h : Reaches env initSupply calls s) : OneClock env initSupply calls s where
  constant earlier later u hcalls hne hu := by
    subst hcalls
    have hticking := Reaches.ticking hschedule hstamps h
    refine head_offset hne hticking (Reaches.ticking (fun c hc => ?_) (fun c hc => ?_) hu)
    · exact hschedule c (List.mem_append_left _ hc)
    · exact hstamps c (List.mem_append_left _ hc)
  counted := by
    rw [(Reaches.tip h).2.1]
    exact (Reaches.ticking hschedule hstamps h).aslot
  increasing := Reaches.intervals hschedule hstamps h
  scheduled earlier call later u v hcalls hu hv := by
    subst hcalls
    obtain ⟨u', hu', hcall⟩ := reaches_append.mp hv
    have hsame := Reaches.unique hu' hu
    rw [hsame] at hcall
    have hmem : call ∈ earlier ++ call :: later := by simp
    have hchecked := (applyBlock_clock hcall).1
    have hticking := Reaches.ticking (fun c hc => hschedule c (List.mem_append_left _ hc))
      (fun c hc => hstamps c (List.mem_append_left _ hc)) hu
    exact ⟨hchecked.scheduled (hschedule call hmem), hticking.scheduled (hschedule call hmem) hcall,
      hchecked.signed⟩

/-- The second slot is missed, and the timestamps are not multiples of the interval. -/
def sampleGap : List BlockCall :=
  [sampleCall (sampleBlock .null (wlsGenesisTime + 4) (initMinerName 0) []),
    sampleCall (sampleBlock ((sampleBlock .null (wlsGenesisTime + 4) (initMinerName 0) []).id sampleEnv)
      (wlsGenesisTime + 10) (initMinerName 0) [])]

/-- A chain with a missed slot follows the clock. -/
theorem slots_follow_one_clock_gap :
    ∃ s, Reaches sampleEnv 1000000 sampleGap s ∧ s.dgp.currentAslot = 3 ∧
      OneClock sampleEnv 1000000 sampleGap s := by
  have hends : endsIn (runBlocks sampleEnv sampleGap) (initGenesis sampleEnv 1000000)
      (fun _ s => decide (s.dgp.currentAslot = 3)) = true := by
    decide +kernel
  obtain ⟨_, s, hs, haslot⟩ := returns_of_endsIn hends
  have hschedule : ∀ call ∈ sampleGap, call.skip.witnessScheduleCheck = false := by decide
  have hstamps : ∀ call ∈ sampleGap, call.block.header.timestamp < 2 ^ 32 := by decide
  exact ⟨s, hs, of_decide_eq_true haslot, slots_follow_one_clock hschedule hstamps hs⟩

end Runs

section Checkpoints

/-- `_checkpoints`, ordered by block number. -/
abbrev Checkpoints := List (ℕ × BlockId)

/-- The flags that `apply_block` sets itself below the last checkpoint. -/
def checkpointFlags : SkipFlags where
  witnessSignature := true
  transactionSignatures := true
  transactionDupeCheck := true
  forkDb := true
  blockSizeCheck := true
  taposCheck := true
  authorityCheck := true
  undoHistoryCheck := true
  witnessScheduleCheck := true
  validate := true
  validateInvariants := true

/-- The block is not above the last checkpoint, whose id is known. -/
def BelowCheckpoint (checkpoints : Checkpoints) (b : SignedBlock) : Prop :=
  match checkpoints.getLast? with
  | some last => last.2 ≠ .null ∧ b.blockNum ≤ last.1
  | none => False

instance (checkpoints : Checkpoints) (b : SignedBlock) : Decidable (BelowCheckpoint checkpoints b) := by
  unfold BelowCheckpoint
  split <;> infer_instance

/-- The check of a block against the checkpoint of its number. -/
def matchCheckpoint (env : Env) (checkpoints : Checkpoints) (b : SignedBlock) : Except Exc Unit :=
  match checkpoints.lookup b.blockNum with
  | some id => fcAssert (b.id env = id) "Block did not match checkpoint"
  | none => .ok ()

/-- The flags with which `apply_block` calls `_apply_block`, given its own. -/
def applyBlockFlags (env : Env) (checkpoints : Checkpoints) (skip : SkipFlags) (b : SignedBlock) :
    Except Exc SkipFlags :=
  match checkpoints.getLast? with
  | none => .ok skip
  | some last =>
    if last.2 = .null then .ok skip
    else do
      matchCheckpoint env checkpoints b
      .ok (if b.blockNum ≤ last.1 then checkpointFlags else skip)

/-- The check of the witness schedule is skipped if the caller says so or the block is below
the last checkpoint. -/
theorem applyBlockFlags_schedule {env : Env} {checkpoints : Checkpoints} {given skip : SkipFlags}
    {b : SignedBlock} (h : applyBlockFlags env checkpoints given b = .ok skip) :
    skip.witnessScheduleCheck = true ↔
      given.witnessScheduleCheck = true ∨ BelowCheckpoint checkpoints b := by
  unfold applyBlockFlags at h
  unfold BelowCheckpoint
  cases hlast : checkpoints.getLast? with
  | none =>
    rw [hlast] at h
    rw [Except.ok.inj h]
    simp
  | some last =>
    rw [hlast] at h
    simp only at h
    by_cases hnull : last.2 = .null
    · rw [if_pos hnull] at h
      rw [Except.ok.inj h]
      simp [hnull]
    · rw [if_neg hnull] at h
      obtain ⟨_, -, h⟩ := bind_eq_ok h
      rw [← Except.ok.inj h]
      by_cases hbelow : b.blockNum ≤ last.1
      · rw [if_pos hbelow]
        simp [checkpointFlags, hnull, hbelow]
      · rw [if_neg hbelow]
        simp [hbelow]

/-- `update_global_dynamic_data` finds a slot for the block, its decrement does not wrap, and
its loops make one round for each missed slot, the second loop one more for the block. -/
structure CountsMissed (dgp : DynamicGlobalPropertyObject) (b : SignedBlock) : Prop where
  slot : 1 ≤ slotAtTime dgp b.header.timestamp
  missed : missedBlocks dgp b = slotAtTime dgp b.header.timestamp - 1
  rounds : (missedBlocks dgp b + 1) % 2 ^ 32 = missedBlocks dgp b + 1

/-- The missed blocks are counted exactly behind the interval of the head. -/
theorem countsMissed_iff {dgp : DynamicGlobalPropertyObject} {b : SignedBlock}
    (htime : dgp.time ≠ 0) :
    CountsMissed dgp b ↔ 0 < slotAtTime dgp b.header.timestamp := by
  refine ⟨fun h => h.slot, fun hslot => ?_⟩
  have hmissed := missedBlocks_of_pos (b := b) htime hslot
  have hlt := slotAtTime_lt dgp b.header.timestamp
  refine ⟨hslot, by omega, ?_⟩
  rw [hmissed]
  exact Nat.mod_eq_of_lt hlt

/-- For a block whose header is accepted, under any flags that `apply_block` can use, the
missed slots are counted without a wrap exactly if the check of the witness schedule is made
or the block lies in a later slot than the head. -/
theorem missed_slots_counted_iff {env : Env} {checkpoints : Checkpoints} {given skip : SkipFlags}
    {producing : Bool} {maxUndo : ℕ} {b : SignedBlock} {s t u : ChainState} {w : WitnessObject}
    (hflags : applyBlockFlags env checkpoints given b = .ok skip)
    (hheader : Returns (validateBlockHeader ⟨env, skip, producing, maxUndo⟩ b) s w t)
    (hbody : Returns (applyBody ⟨env, skip, producing, maxUndo⟩ b) t () u)
    (htime : s.dgp.time ≠ 0) (hstamp : b.header.timestamp < 2 ^ 32) :
    CountsMissed u.dgp b ↔
      ¬ (given.witnessScheduleCheck = true ∨ BelowCheckpoint checkpoints b) ∨
        InLaterSlot s.dgp b.header.timestamp := by
  obtain ⟨rfl, hchecked⟩ := validateBlockHeader_checked hheader
  have hsame := applyBody_sameClock hbody
  have htimes : u.dgp.time = t.dgp.time := congrArg (fun x => x.2.1) hsame
  rw [countsMissed_iff (htimes ▸ htime), slotAtTime_congr hsame,
    slotAtTime_pos_iff hchecked.later hstamp, ← applyBlockFlags_schedule hflags]
  constructor
  · exact .inr
  · intro h
    rcases h with hcheck | hlater
    · exact (slotAtTime_pos_iff hchecked.later hstamp).mp (hchecked.slot (by simpa using hcheck))
    · exact hlater

/-- A block that leaves the rest of its interval to the next one. -/
def earlyBlock : SignedBlock :=
  sampleBlock .null (wlsGenesisTime + 4) (initMinerName 0) []

/-- A block a given number of seconds after it. -/
def closeBlock (seconds : ℕ) : SignedBlock :=
  sampleBlock (earlyBlock.id sampleEnv) (wlsGenesisTime + 4 + seconds) (initMinerName 0) []

/-- A checkpoint above both blocks. -/
def sampleCheckpoints : Checkpoints := [(100, ⟨100, 1⟩)]

/-- The close block up to the count of missed slots, below the checkpoint. -/
def untilCount (seconds : ℕ) : Chain Unit := do
  runBlocks sampleEnv [sampleCall earlyBlock]
  let _ ← validateBlockHeader ⟨sampleEnv, checkpointFlags, false, 10000⟩ (closeBlock seconds)
  applyBody ⟨sampleEnv, checkpointFlags, false, 10000⟩ (closeBlock seconds)

/-- The two blocks of the instance reach the count from genesis. -/
theorem untilCount_parts {seconds : ℕ} {u : ChainState}
    (h : Returns (untilCount seconds) (initGenesis sampleEnv 1000000) () u) :
    ∃ s w t, Reaches sampleEnv 1000000 [sampleCall earlyBlock] s ∧
      Returns (validateBlockHeader ⟨sampleEnv, checkpointFlags, false, 10000⟩ (closeBlock seconds))
        s w t ∧
      Returns (applyBody ⟨sampleEnv, checkpointFlags, false, 10000⟩ (closeBlock seconds)) t () u := by
  obtain ⟨_, s, hs, h⟩ := h.bind
  obtain ⟨w, t, ht, h⟩ := h.bind
  exact ⟨s, w, t, hs, ht, h⟩

/-- The count of a block in the next slot is exact. -/
theorem missed_slots_counted_iff_nextSlot :
    ∃ s w t u, applyBlockFlags sampleEnv sampleCheckpoints {} (closeBlock 6) = .ok checkpointFlags ∧
      Returns (validateBlockHeader ⟨sampleEnv, checkpointFlags, false, 10000⟩ (closeBlock 6)) s w t ∧
      Returns (applyBody ⟨sampleEnv, checkpointFlags, false, 10000⟩ (closeBlock 6)) t () u ∧
      InLaterSlot s.dgp (closeBlock 6).header.timestamp ∧ CountsMissed u.dgp (closeBlock 6) := by
  have hends : endsIn (untilCount 6) (initGenesis sampleEnv 1000000)
      (fun _ u => decide (clock u.dgp = (1, wlsGenesisTime + 4, 1))) = true := by
    decide +kernel
  obtain ⟨_, u, hu, hclock⟩ := returns_of_endsIn hends
  obtain ⟨s, w, t, -, ht, hbody⟩ := untilCount_parts hu
  have hflags : applyBlockFlags sampleEnv sampleCheckpoints {} (closeBlock 6) = .ok checkpointFlags := by
    decide +kernel
  have hsame : clock s.dgp = (1, wlsGenesisTime + 4, 1) := by
    rw [← (validateBlockHeader_checked ht).1, ← applyBody_sameClock hbody]
    exact of_decide_eq_true hclock
  have hnum : s.dgp.headBlockNumber = 1 := congrArg Prod.fst hsame
  have htime : s.dgp.time = wlsGenesisTime + 4 := congrArg (fun x => x.2.1) hsame
  have hlater : InLaterSlot s.dgp (closeBlock 6).header.timestamp := by
    unfold InLaterSlot
    rw [hnum, htime]
    decide
  have hne : s.dgp.time ≠ 0 := by
    rw [htime]
    decide
  exact ⟨s, w, t, u, hflags, ht, hbody, hlater,
    (missed_slots_counted_iff hflags ht hbody hne (by decide)).mpr (.inr hlater)⟩

/-- Below a checkpoint, a block in the interval of the head passes the check of its header,
and the count of missed slots wraps. -/
theorem missed_slots_wrap_closeBlock :
    ∃ s w t u, Reaches sampleEnv 1000000 [sampleCall earlyBlock] s ∧
      applyBlockFlags sampleEnv sampleCheckpoints {} (closeBlock 1) = .ok checkpointFlags ∧
      Returns (validateBlockHeader ⟨sampleEnv, checkpointFlags, false, 10000⟩ (closeBlock 1)) s w t ∧
      Returns (applyBody ⟨sampleEnv, checkpointFlags, false, 10000⟩ (closeBlock 1)) t () u ∧
      slotAtTime u.dgp (closeBlock 1).header.timestamp = 0 ∧
      missedBlocks u.dgp (closeBlock 1) = 2 ^ 32 - 1 ∧ ¬ CountsMissed u.dgp (closeBlock 1) := by
  have hends : endsIn (untilCount 1) (initGenesis sampleEnv 1000000)
      (fun _ u => decide (slotAtTime u.dgp (closeBlock 1).header.timestamp = 0 ∧
        missedBlocks u.dgp (closeBlock 1) = 2 ^ 32 - 1)) = true := by
    decide +kernel
  obtain ⟨_, u, hu, hcount⟩ := returns_of_endsIn hends
  obtain ⟨hslot, hmissed⟩ := of_decide_eq_true hcount
  obtain ⟨s, w, t, hs, ht, hbody⟩ := untilCount_parts hu
  refine ⟨s, w, t, u, hs, by decide +kernel, ht, hbody, hslot, hmissed, fun h => ?_⟩
  have hpos := h.slot
  omega

end Checkpoints

end Whaleshares.SlotClock
