import Mathlib
import Whaleshares.SlotClock

/-!
# The participation bits

The global properties hold one bit for each of the last 128 slots and the number of the bits
that are set. A block shifts in a one and a zero for each slot missed before it, and the
number follows each bit that comes in and each that goes out. The number is right in every
run. The bits show the blocks and their missed slots as long as every block has a slot after
that of its predecessor; below a checkpoint nothing checks that, and a block without such a
slot leaves no bit.
-/

namespace Whaleshares.Participation

open Config Fc Protocol Objects Program Database ApplyBlock Genesis ChainRun ChainTip Footprint
  SlotClock

section Bits

variable {width n : ℕ}

/-- The number of the one bits among the lowest bits of a number. -/
def onesBelow (width n : ℕ) : ℕ := (List.range width).countP fun i => n.testBit i

/-- A further bit is counted if it is set. -/
theorem onesBelow_succ (width n : ℕ) :
    onesBelow (width + 1) n = onesBelow width n + (n.testBit width).toNat := by
  unfold onesBelow
  rw [List.range_succ, List.countP_append, List.countP_singleton]
  cases n.testBit width <;> rfl

/-- A bit that is shifted in counts, and the others stay. -/
theorem onesBelow_shift (width n : ℕ) (entering : Bool) :
    onesBelow (width + 1) (2 * n + entering.toNat) = onesBelow width n + entering.toNat := by
  have hhalf : (2 * n + entering.toNat) / 2 = n := by
    have hle := entering.toNat_le
    omega
  have hlow : (2 * n + entering.toNat).testBit 0 = entering := by
    rw [Nat.testBit_zero]
    cases entering <;> simp
  unfold onesBelow
  rw [List.range_succ_eq_map, List.countP_cons, List.countP_map, hlow]
  have hrest : (fun i => (2 * n + entering.toNat).testBit i) ∘ Nat.succ = fun i => n.testBit i := by
    funext i
    change (2 * n + entering.toNat).testBit (i + 1) = n.testBit i
    rw [Nat.testBit_succ, hhalf]
  rw [hrest]
  cases entering <;> rfl

/-- Bits above the counted ones do not count. -/
theorem onesBelow_mod (width n : ℕ) : onesBelow width (n % 2 ^ width) = onesBelow width n := by
  unfold onesBelow
  refine List.countP_congr fun i hi => ?_
  rw [Nat.testBit_mod_two_pow, decide_eq_true (List.mem_range.mp hi), Bool.true_and]

/-- There are at most as many ones as bits. -/
theorem onesBelow_le (width n : ℕ) : onesBelow width n ≤ width := by
  unfold onesBelow
  have hle := List.countP_le_length (p := fun i => n.testBit i) (l := List.range width)
  rwa [List.length_range] at hle

/-- If all bits are set, all are counted. -/
theorem onesBelow_full (width : ℕ) : onesBelow width (2 ^ width - 1) = width := by
  unfold onesBelow
  rw [List.countP_eq_length.mpr, List.length_range]
  intro i hi
  rw [Nat.testBit_two_pow_sub_one]
  exact decide_eq_true (List.mem_range.mp hi)

/-- A shift of a window: the highest bit goes, a new one comes in. -/
theorem onesBelow_window (width n : ℕ) (entering : Bool) :
    onesBelow (width + 1) ((2 * n + entering.toNat) % 2 ^ (width + 1)) +
      (n.testBit width).toNat = onesBelow (width + 1) n + entering.toNat := by
  rw [onesBelow_mod, onesBelow_shift, onesBelow_succ]
  omega

end Bits

section Rounds

variable {dgp dgp' : DynamicGlobalPropertyObject} {filled : Bool} {missed : ℕ}

/-- The bits of the slots and their count. -/
def slotBits (dgp : DynamicGlobalPropertyObject) : ℕ × ℕ :=
  (dgp.recentSlotsFilled, dgp.participationCount)

/-- The count is the number of the bits that are set. -/
def Tallied (dgp : DynamicGlobalPropertyObject) : Prop :=
  dgp.participationCount = onesBelow 128 dgp.recentSlotsFilled

/-- One round neither takes more from the count than there is nor leaves the 8 bits. -/
structure RoundExact (filled : Bool) (dgp : DynamicGlobalPropertyObject) : Prop where
  leaving : dgp.recentSlotsFilled / 2 ^ 127 % 2 ≤ dgp.participationCount
  entering : dgp.participationCount - dgp.recentSlotsFilled / 2 ^ 127 % 2 + filled.toNat < 2 ^ 8

/-- No round for a missed slot wraps. -/
def MissedExact : ℕ → DynamicGlobalPropertyObject → Prop
  | 0, _ => True
  | missed + 1, dgp => RoundExact false dgp ∧ MissedExact missed (shiftSlot false dgp)

/-- No round of the loop of a block wraps. -/
def LoopExact (missed : ℕ) (dgp : DynamicGlobalPropertyObject) : Prop :=
  (missed + 1) % 2 ^ 32 ≠ 0 → RoundExact true dgp ∧ MissedExact missed (shiftSlot true dgp)

/-- A slot shifts its bit in and the highest one out. -/
theorem shiftSlot_bits (filled : Bool) (dgp : DynamicGlobalPropertyObject) :
    (shiftSlot filled dgp).recentSlotsFilled =
      (2 * dgp.recentSlotsFilled + filled.toNat) % 2 ^ 128 := by
  rw [Nat.mul_comm]
  cases filled <;> rfl

/-- The count follows the bit that comes in and the one that goes out. -/
theorem shiftSlot_count (filled : Bool) (dgp : DynamicGlobalPropertyObject) :
    (shiftSlot filled dgp).participationCount =
      (dgp.participationCount + (2 ^ 8 - dgp.recentSlotsFilled / 2 ^ 127 % 2) + filled.toNat) %
        2 ^ 8 := by
  cases filled <;> rfl

/-- One round keeps the count right and does not wrap. -/
theorem Tallied.round (h : Tallied dgp) (filled : Bool) :
    RoundExact filled dgp ∧ Tallied (shiftSlot filled dgp) := by
  have hcount : dgp.participationCount = onesBelow 128 dgp.recentSlotsFilled := h
  have hleaving : (dgp.recentSlotsFilled.testBit 127).toNat =
      dgp.recentSlotsFilled / 2 ^ 127 % 2 := Nat.toNat_testBit _ _
  have hwindow : onesBelow 128 ((2 * dgp.recentSlotsFilled + filled.toNat) % 2 ^ 128) +
      (dgp.recentSlotsFilled.testBit 127).toNat = onesBelow 128 dgp.recentSlotsFilled +
        filled.toNat := onesBelow_window 127 dgp.recentSlotsFilled filled
  have hsucc : onesBelow 128 dgp.recentSlotsFilled = onesBelow 127 dgp.recentSlotsFilled +
      (dgp.recentSlotsFilled.testBit 127).toNat := onesBelow_succ 127 dgp.recentSlotsFilled
  rw [hleaving] at hwindow hsucc
  have hrest := onesBelow_le 127 dgp.recentSlotsFilled
  have hfilled := filled.toNat_le
  have hone : dgp.recentSlotsFilled / 2 ^ 127 % 2 < 2 := Nat.mod_lt _ (by omega)
  have hnext : (shiftSlot filled dgp).participationCount = onesBelow 128
      (shiftSlot filled dgp).recentSlotsFilled := by
    rw [shiftSlot_bits, shiftSlot_count]
    generalize dgp.recentSlotsFilled / 2 ^ 127 % 2 = leaving at *
    generalize onesBelow 128 ((2 * dgp.recentSlotsFilled + filled.toNat) % 2 ^ 128) = ones at *
    omega
  refine ⟨⟨?_, ?_⟩, hnext⟩
  all_goals
    generalize dgp.recentSlotsFilled / 2 ^ 127 % 2 = leaving at *
    omega

/-- Missed slots keep the count that of the bits. -/
theorem Tallied.missedRounds (h : Tallied dgp) (missed : ℕ) :
    MissedExact missed dgp ∧ Tallied (shiftMissed missed dgp) := by
  induction missed generalizing dgp with
  | zero => exact ⟨trivial, h⟩
  | succ missed ih =>
    obtain ⟨hround, htallied⟩ := h.round false
    obtain ⟨hexact, hrest⟩ := ih htallied
    exact ⟨⟨hround, hexact⟩, hrest⟩

/-- The loop of a block keeps the count right and does not wrap. -/
theorem Tallied.rounds (h : Tallied dgp) (missed : ℕ) :
    LoopExact missed dgp ∧ Tallied (shiftSlots missed dgp) := by
  obtain ⟨hround, htallied⟩ := h.round true
  obtain ⟨hexact, hrest⟩ := htallied.missedRounds missed
  refine ⟨fun _ => ⟨hround, hexact⟩, ?_⟩
  unfold shiftSlots
  by_cases hwraps : (missed + 1) % 2 ^ 32 = 0
  · rwa [if_pos hwraps]
  · rwa [if_neg hwraps]

/-- A shift of the bits depends on them alone. -/
theorem shiftSlot_congr (h : slotBits dgp' = slotBits dgp) (filled : Bool) :
    slotBits (shiftSlot filled dgp') = slotBits (shiftSlot filled dgp) := by
  have hbits : dgp'.recentSlotsFilled = dgp.recentSlotsFilled := congrArg Prod.fst h
  have hcount : dgp'.participationCount = dgp.participationCount := congrArg Prod.snd h
  unfold slotBits
  rw [shiftSlot_bits, shiftSlot_bits, shiftSlot_count, shiftSlot_count, hbits, hcount]

/-- The shifts of missed slots depend on the bits alone. -/
theorem shiftMissed_congr (h : slotBits dgp' = slotBits dgp) (missed : ℕ) :
    slotBits (shiftMissed missed dgp') = slotBits (shiftMissed missed dgp) := by
  induction missed generalizing dgp dgp' with
  | zero => exact h
  | succ missed ih => exact ih (shiftSlot_congr h false)

/-- The shifts of a block depend on the bits alone. -/
theorem shiftSlots_congr (h : slotBits dgp' = slotBits dgp) (missed : ℕ) :
    slotBits (shiftSlots missed dgp') = slotBits (shiftSlots missed dgp) := by
  unfold shiftSlots
  split
  · exact h
  · exact shiftMissed_congr (shiftSlot_congr h true) missed

/-- The missed slots shift in zeros. -/
theorem shiftMissed_bits (missed : ℕ) (dgp : DynamicGlobalPropertyObject) :
    (shiftMissed missed dgp).recentSlotsFilled % 2 ^ 128 =
      dgp.recentSlotsFilled * 2 ^ missed % 2 ^ 128 := by
  induction missed generalizing dgp with
  | zero => rw [Nat.pow_zero, Nat.mul_one]; rfl
  | succ missed ih =>
    calc (shiftMissed missed (shiftSlot false dgp)).recentSlotsFilled % 2 ^ 128 =
        (2 * dgp.recentSlotsFilled + 0) % 2 ^ 128 * 2 ^ missed % 2 ^ 128 := by
          rw [ih, shiftSlot_bits]
          rfl
      _ = dgp.recentSlotsFilled * 2 ^ (missed + 1) % 2 ^ 128 := by
          rw [Nat.mod_mul_mod, Nat.add_zero, Nat.pow_succ]
          congr 1
          ring

/-- The bits of a block: a one, and a zero for each missed slot. -/
theorem shiftSlots_bits (hrounds : missed + 1 < 2 ^ 32) (dgp : DynamicGlobalPropertyObject) :
    (shiftSlots missed dgp).recentSlotsFilled % 2 ^ 128 =
      (2 * dgp.recentSlotsFilled + 1) * 2 ^ missed % 2 ^ 128 := by
  have hnowrap : (missed + 1) % 2 ^ 32 ≠ 0 := by omega
  unfold shiftSlots
  rw [if_neg hnowrap, shiftMissed_bits, shiftSlot_bits, Nat.mod_mul_mod]
  rfl

/-- The bits stay within 128 after missed slots. -/
theorem shiftMissed_lt (h : dgp.recentSlotsFilled < 2 ^ 128) (missed : ℕ) :
    (shiftMissed missed dgp).recentSlotsFilled < 2 ^ 128 := by
  induction missed generalizing dgp with
  | zero => exact h
  | succ missed ih =>
    refine ih ?_
    rw [shiftSlot_bits]
    exact Nat.mod_lt _ (Nat.two_pow_pos 128)

/-- The bits stay within 128 after a block. -/
theorem shiftSlots_lt (h : dgp.recentSlotsFilled < 2 ^ 128) (missed : ℕ) :
    (shiftSlots missed dgp).recentSlotsFilled < 2 ^ 128 := by
  unfold shiftSlots
  split
  · exact h
  · refine shiftMissed_lt ?_ missed
    rw [shiftSlot_bits]
    exact Nat.mod_lt _ (Nat.two_pow_pos 128)

/-- The count stays within its 8 bits. -/
theorem shiftMissed_count_lt (h : dgp.participationCount < 2 ^ 8) (missed : ℕ) :
    (shiftMissed missed dgp).participationCount < 2 ^ 8 := by
  induction missed generalizing dgp with
  | zero => exact h
  | succ missed ih =>
    refine ih ?_
    rw [shiftSlot_count]
    exact Nat.mod_lt _ (Nat.two_pow_pos 8)

/-- Missed slots that follow on each other. -/
theorem shiftMissed_add (missed later : ℕ) (dgp : DynamicGlobalPropertyObject) :
    shiftMissed (missed + later) dgp = shiftMissed later (shiftMissed missed dgp) := by
  induction missed generalizing dgp with
  | zero => rw [Nat.zero_add]; rfl
  | succ missed ih =>
    rw [Nat.succ_add]
    exact ih (shiftSlot false dgp)

/-- Where no bit is set, a missed slot changes nothing. -/
theorem shiftMissed_none (hbits : dgp.recentSlotsFilled = 0) (hcount : dgp.participationCount < 2 ^ 8)
    (missed : ℕ) : shiftMissed missed dgp = dgp := by
  induction missed with
  | zero => rfl
  | succ missed ih =>
    have hsame : shiftSlot false dgp = dgp := by
      have hleft : (dgp.participationCount + 2 ^ 8) % 2 ^ 8 = dgp.participationCount := by
        rw [Nat.add_mod_right, Nat.mod_eq_of_lt hcount]
      unfold shiftSlot
      simp only [hbits, Nat.zero_div, Nat.zero_mod, Nat.sub_zero, Nat.zero_mul, Nat.add_zero,
        Bool.false_eq_true, if_false, hleft]
      rw [← hbits]
    unfold shiftMissed
    rw [hsame, ih]

/-- After a pause of 128 slots no bit is set, and more missed slots change nothing. -/
theorem shiftSlots_pause (hpause : 128 ≤ missed) (hrounds : missed + 1 < 2 ^ 32)
    (dgp : DynamicGlobalPropertyObject) : shiftSlots missed dgp = shiftSlots 128 dgp := by
  have hnowrap : (missed + 1) % 2 ^ 32 ≠ 0 := by omega
  obtain ⟨more, rfl⟩ := Nat.exists_eq_add_of_le hpause
  unfold shiftSlots
  rw [if_neg hnowrap, if_neg (by decide), shiftMissed_add]
  have hbits := shiftMissed_bits 128 (shiftSlot true dgp)
  have hlt : (shiftMissed 128 (shiftSlot true dgp)).recentSlotsFilled < 2 ^ 128 := by
    refine shiftMissed_lt ?_ 128
    rw [shiftSlot_bits]
    exact Nat.mod_lt _ (Nat.two_pow_pos 128)
  rw [Nat.mod_eq_of_lt hlt, Nat.mul_mod_left] at hbits
  refine shiftMissed_none hbits (shiftMissed_count_lt ?_ 128) more
  rw [shiftSlot_count]
  exact Nat.mod_lt _ (Nat.two_pow_pos 8)

end Rounds

section Blocks

variable {ctx : Context} {b : SignedBlock} {s t : ChainState}

/-- The bits belong to the head. -/
theorem headView_slotBits : HeadView slotBits :=
  ⟨fun _ => rfl, fun _ _ => rfl, fun _ _ => rfl, fun _ _ => rfl⟩

/-- A block changes the bits by its loop over the slots only. -/
theorem applyBlock_slotBits (h : Returns (applyBlock ctx b) s () t) :
    slotBits t.dgp = slotBits (shiftSlots (missedBlocks s.dgp b) s.dgp) := by
  obtain ⟨-, v, -, hbits, hhead⟩ := applyBlock_view headView_slotBits h
  exact hhead.trans (shiftSlots_congr hbits _)

end Blocks

section Runs

variable {env : Env} {initSupply : ℕ} {calls : List BlockCall} {call : BlockCall} {s t : ChainState}

/-- The bits of the genesis, followed by those of each block: a one and a zero for each slot
missed before it. -/
def slotPattern : Option SignedBlock → ℕ → List SignedBlock → ℕ
  | _, pattern, [] => pattern
  | previous, pattern, b :: rest =>
    slotPattern (some b) ((2 * pattern + 1) * 2 ^ emptySlots previous b) rest

/-- A further block appends its missed slots and its own to the pattern. -/
theorem slotPattern_append (previous : Option SignedBlock) (pattern : ℕ)
    (blocks : List SignedBlock) (b : SignedBlock) :
    slotPattern previous pattern (blocks ++ [b]) =
      (2 * slotPattern previous pattern blocks + 1) *
        2 ^ emptySlots (blocks.getLast?.or previous) b := by
  induction blocks generalizing previous pattern with
  | nil => rfl
  | cons c rest ih =>
    rw [List.cons_append, slotPattern, slotPattern, ih]
    congr 3
    cases rest with
    | nil => rfl
    | cons d rest => simp [List.getLast?_cons]

/-- Every block is checked against the schedule or has a slot after that of the head. -/
def SlotsFollow (env : Env) (initSupply : ℕ) (calls : List BlockCall) : Prop :=
  ∀ earlier call later u, calls = earlier ++ call :: later → Reaches env initSupply earlier u →
    call.skip.witnessScheduleCheck = false ∨ InLaterSlot u.dgp call.block.header.timestamp

/-- In a state that a run reaches, the count is that of the bits, and no round of any of its
blocks wrapped. -/
structure Counted (env : Env) (initSupply : ℕ) (calls : List BlockCall) (s : ChainState) :
    Prop where
  /-- The count is the number of the bits that are set. -/
  counted : s.dgp.participationCount = onesBelow 128 s.dgp.recentSlotsFilled
  /-- There are 128 bits. -/
  window : s.dgp.recentSlotsFilled < 2 ^ 128
  bounded : s.dgp.participationCount ≤ 128
  /-- The 8 bits of the count suffice in every round. -/
  exact : ∀ earlier call later u, calls = earlier ++ call :: later →
    Reaches env initSupply earlier u → LoopExact (missedBlocks u.dgp call.block) u.dgp

/-- The slot of an accepted block that is checked or has a later slot. -/
theorem slot_pos (hchecked : HeaderChecked (call.context env) call.block s)
    (hstamp : call.block.header.timestamp < 2 ^ 32)
    (hfollows : call.skip.witnessScheduleCheck = false ∨
      InLaterSlot s.dgp call.block.header.timestamp) :
    0 < slotAtTime s.dgp call.block.header.timestamp := by
  rcases hfollows with hschedule | hlater
  · exact hchecked.slot hschedule
  · exact (slotAtTime_pos_iff hchecked.later hstamp).mpr hlater

/-- The time of a head is not that of the epoch. -/
theorem Reaches.time_pos (h : Reaches env initSupply calls s) : s.dgp.time ≠ 0 := by
  refine Nat.pos_iff_ne_zero.mp (Reaches.induction (P := fun u => 0 < u.dgp.time) h ?_ ?_)
  · change 0 < wlsGenesisTime
    decide
  · intro c _ u v hu hcall
    obtain ⟨hchecked, hclock⟩ := applyBlock_clock hcall
    have htime : v.dgp.time = c.block.header.timestamp := congrArg (fun x => x.2.1) hclock
    rw [htime]
    exact Nat.lt_of_le_of_lt (Nat.zero_le _) hchecked.later

/-- The head of a run carries the time of the last block, or of the genesis. -/
theorem Reaches.head_time (h : Reaches env initSupply calls s) :
    s.dgp.time = ((calls.map (·.block)).getLast?.map (·.header.timestamp)).getD wlsGenesisTime := by
  cases calls using List.reverseRecOn with
  | nil =>
    rw [(Returns.pure h).2]
    rfl
  | append_singleton calls call =>
    obtain ⟨u, -, hcall⟩ := reaches_append.mp h
    have htime : s.dgp.time = call.block.header.timestamp :=
      congrArg (fun x => x.2.1) (applyBlock_clock hcall).2
    rw [htime, List.map_append, List.map_singleton, List.getLast?_append]
    rfl

/-- The missed slots that the code counts are the empty ones. -/
theorem Reaches.missed (h : Reaches env initSupply calls s)
    (hchecked : HeaderChecked (call.context env) call.block s)
    (hstamp : call.block.header.timestamp < 2 ^ 32)
    (hfollows : call.skip.witnessScheduleCheck = false ∨
      InLaterSlot s.dgp call.block.header.timestamp) :
    missedBlocks s.dgp call.block + 1 < 2 ^ 32 ∧
      missedBlocks s.dgp call.block = emptySlots ((calls.map (·.block)).getLast?) call.block := by
  have hpos := slot_pos hchecked hstamp hfollows
  have hmissed := missedBlocks_of_pos (b := call.block) (Reaches.time_pos h) hpos
  have hlt := slotAtTime_lt s.dgp call.block.header.timestamp
  have hnum : s.dgp.headBlockNumber = calls.length := (Reaches.tip h).2.1
  have htime := Reaches.head_time h
  refine ⟨by omega, ?_⟩
  cases hlast : (calls.map (·.block)).getLast? with
  | none =>
    rw [hlast] at htime
    have hnil : calls = [] := List.map_eq_nil_iff.mp (List.getLast?_eq_none_iff.mp hlast)
    rw [hnil] at hnum
    have hlater := (slotAtTime_pos_iff hchecked.later hstamp).mp hpos
    rw [slotAtTime_genesis hnum htime hlater hstamp] at hmissed
    exact Nat.eq_sub_of_add_eq hmissed
  | some last =>
    rw [hlast] at htime
    have hhead : s.dgp.time = last.header.timestamp := htime
    have hne : s.dgp.headBlockNumber ≠ 0 := by
      rw [hnum]
      intro hzero
      rw [List.length_eq_zero_iff.mp hzero] at hlast
      cases hlast
    rw [slotAtTime_block hne hchecked.later hstamp, hhead] at hmissed
    exact Nat.eq_sub_of_add_eq hmissed

/-- The count of genesis is that of its bits. -/
theorem tallied_initGenesis (env : Env) (initSupply : ℕ) :
    Tallied (initGenesis env initSupply).dgp := (onesBelow_full 128).symm

/-- The count is right in every state that a run reaches. -/
theorem Reaches.tallied (h : Reaches env initSupply calls s) : Tallied s.dgp := by
  refine Reaches.induction (P := fun u => Tallied u.dgp) h (tallied_initGenesis env initSupply) ?_
  intro c _ u v hu hcall
  have hbits := applyBlock_slotBits hcall
  have htallied : Tallied (shiftSlots (missedBlocks u.dgp c.block) u.dgp) := (hu.rounds _).2
  have hcount : v.dgp.participationCount = _ := congrArg Prod.snd hbits
  have hfilled : v.dgp.recentSlotsFilled = _ := congrArg Prod.fst hbits
  unfold Tallied at htallied ⊢
  rw [hcount, hfilled]
  exact htallied

/-- The bits fit their 128 bits. -/
theorem Reaches.window (h : Reaches env initSupply calls s) :
    s.dgp.recentSlotsFilled < 2 ^ 128 := by
  refine Reaches.induction (P := fun u => u.dgp.recentSlotsFilled < 2 ^ 128) h ?_ ?_
  · change 2 ^ 128 - 1 < 2 ^ 128
    omega
  · intro c _ u v hu hcall
    have hfilled : v.dgp.recentSlotsFilled =
        (shiftSlots (missedBlocks u.dgp c.block) u.dgp).recentSlotsFilled :=
      congrArg Prod.fst (applyBlock_slotBits hcall)
    rw [hfilled]
    exact shiftSlots_lt hu _

/-- Every state that a run reaches has the right count. -/
theorem Reaches.counted (h : Reaches env initSupply calls s) :
    Counted env initSupply calls s where
  counted := Reaches.tallied h
  window := Reaches.window h
  bounded := by
    have hcount : s.dgp.participationCount = onesBelow 128 s.dgp.recentSlotsFilled := Reaches.tallied h
    rw [hcount]
    exact onesBelow_le 128 _
  exact _ call _ u _ hu := ((Reaches.tallied hu).rounds (missedBlocks u.dgp call.block)).1

/-- Where every block has its slot, the bits are those of the slots. -/
theorem Reaches.pattern (hstamps : ∀ call ∈ calls, call.block.header.timestamp < 2 ^ 32)
    (hfollow : SlotsFollow env initSupply calls) (h : Reaches env initSupply calls s) :
    s.dgp.recentSlotsFilled % 2 ^ 128 =
      slotPattern none (2 ^ 128 - 1) (calls.map (·.block)) % 2 ^ 128 := by
  induction calls using List.reverseRecOn generalizing s with
  | nil =>
    rw [(Returns.pure h).2]
    rfl
  | append_singleton calls call ih =>
    obtain ⟨u, hu, hcall⟩ := reaches_append.mp h
    have hold := ih (fun c hc => hstamps c (List.mem_append_left _ hc))
      (fun earlier c later v hcalls hv =>
        hfollow earlier c (later ++ [call]) v (by simp [hcalls]) hv) hu
    have hchecked := (applyBlock_clock hcall).1
    obtain ⟨hrounds, hmissed⟩ := Reaches.missed hu hchecked (hstamps call (by simp))
      (hfollow calls call [] u rfl hu)
    have hfilled : s.dgp.recentSlotsFilled =
        (shiftSlots (missedBlocks u.dgp call.block) u.dgp).recentSlotsFilled :=
      congrArg Prod.fst (applyBlock_slotBits hcall)
    rw [hfilled, shiftSlots_bits hrounds, hmissed, List.map_append, List.map_singleton,
      slotPattern_append, Option.or_none]
    have hsame : Nat.ModEq (2 ^ 128) u.dgp.recentSlotsFilled
        (slotPattern none (2 ^ 128 - 1) (calls.map (·.block))) := hold
    exact ((hsame.mul_left 2).add_right 1).mul_right _

/-- The participation bits of every run: the count is right, is at most 128 and never wraps;
and as long as every block has a slot after that of the head, the bits show the blocks and
their missed slots. -/
theorem participation_bits (hstamps : ∀ call ∈ calls, call.block.header.timestamp < 2 ^ 32)
    (h : Reaches env initSupply calls s) :
    Counted env initSupply calls s ∧ (SlotsFollow env initSupply calls →
      s.dgp.recentSlotsFilled =
        slotPattern none (2 ^ 128 - 1) (calls.map (·.block)) % 2 ^ 128) := by
  refine ⟨Reaches.counted h, fun hfollow => ?_⟩
  rw [← Reaches.pattern hstamps hfollow h, Nat.mod_eq_of_lt (Reaches.window h)]

/-- A chain with a missed slot has the bits of its slots. -/
theorem participation_bits_gap : ∃ s, Reaches sampleEnv 1000000 sampleGap s ∧
    Counted sampleEnv 1000000 sampleGap s ∧
    s.dgp.recentSlotsFilled =
      slotPattern none (2 ^ 128 - 1) (sampleGap.map (·.block)) % 2 ^ 128 := by
  have hends : endsIn (runBlocks sampleEnv sampleGap) (initGenesis sampleEnv 1000000)
      (fun _ _ => true) = true := by
    decide +kernel
  obtain ⟨_, s, h, -⟩ := returns_of_endsIn hends
  have hchecks : ∀ call ∈ sampleGap, call.skip.witnessScheduleCheck = false := by decide
  obtain ⟨hcounted, hbits⟩ := participation_bits (by decide) h
  refine ⟨s, h, hcounted, hbits fun earlier call later u hcalls _ => .inl (hchecks call ?_)⟩
  rw [hcalls]
  exact List.mem_append_right _ List.mem_cons_self

end Runs

section Shared

variable {ctx : Context} {b : SignedBlock} {s t : ChainState}

/-- A block up to the count of its slots. -/
def untilSlots (ctx : Context) (b : SignedBlock) : Chain WitnessObject := do
  lift (fcAssert (ctx.skip.merkleCheck ||
    b.header.transactionMerkleRoot = b.calculateMerkleRoot ctx.env) "Merkle check failed")
  let signingWitness ← validateBlockHeader ctx b
  applyBody ctx b
  pure signingWitness

/-- A block from the new head on. -/
def fromHead (ctx : Context) (b : SignedBlock) (missed : ℕ) (signingWitness : WitnessObject) :
    Chain Unit := do
  modifyDgp fun dgp => .ok (advanceHead ctx b missed dgp)
  let dgp ← gets (·.dgp)
  lift (SignState.wlsAssert (ctx.skip.undoHistoryCheck ||
      (dgp.headBlockNumber + (2 ^ 32 - dgp.lastIrreversibleBlockNum)) % 2 ^ 32 < ctx.maxUndo)
    .undoDatabase
    "The database does not have enough undo history to support a blockchain with so many missed blocks. Please add a checkpoint if you would like to continue applying blocks beyond this point.")
  updateSigningWitness signingWitness.owner b
  updateLastIrreversibleBlock
  applyBlockBack ctx b

/-- A producer that is alone in the schedule misses no slot of its own. -/
theorem missSlots_alone {w : WitnessObject} (hone : s.wso.numScheduledWitnesses = 1)
    (hname : s.wso.currentShuffledWitnesses.getD 0 .empty = b.witness)
    (hw : s.witnesses.find (ownedBy b.witness) = some w) (left slot : ℕ) :
    Returns (missSlots b left slot) s () s := by
  have hname' : ∀ slot, Returns (getScheduledWitness slot) s b.witness s := by
    intro slot
    unfold getScheduledWitness
    have hzero : (s.dgp.currentAslot + slot) % 2 ^ 64 % s.wso.numScheduledWitnesses = 0 := by
      rw [hone, Nat.mod_one]
    refine Returns.intro_bind (a := s.dgp.currentAslot) rfl (Returns.intro_bind (a := s.wso) rfl ?_)
    change Returns (pure (s.wso.currentShuffledWitnesses.getD
      ((s.dgp.currentAslot + slot) % 2 ^ 64 % s.wso.numScheduledWitnesses) .empty)) s b.witness s
    rw [hzero, hname]
    rfl
  have hfound : Returns (getWitness b.witness) s w s := by
    refine Returns.intro_bind (a := s.witnesses.find (ownedBy b.witness)) rfl ?_
    rw [hw]
    rfl
  have howner : w.owner = b.witness := by
    have hown : ownedBy b.witness w = true := List.find?_some hw
    simpa [ownedBy] using hown
  induction left generalizing slot with
  | zero => rfl
  | succ left ih =>
    refine (hname' slot).intro_bind (hfound.intro_bind ?_)
    refine Returns.intro_bind (a := s.dgp.headBlockNumber) rfl ?_
    refine Returns.intro_bind (a := ()) (u := s) ?_ (ih (slot + 1))
    unfold whenever
    rw [if_neg (not_not_intro howner)]
    rfl

/-- A block is what comes before the count of its slots, the loop over those that are missed,
and what comes after. -/
theorem applyBlock_slots (ctx : Context) (b : SignedBlock) :
    applyBlock ctx b = (do
      let signingWitness ← untilSlots ctx b
      let dgp ← gets (·.dgp)
      missSlots b (missedBlocks dgp b) 1
      fromHead ctx b (missedBlocks dgp b) signingWitness) := by
  unfold applyBlock
  rw [applyBlockFront_eq]
  simp only [untilSlots, fromHead, updateGlobalDynamicData, bind_assoc, pure_bind]

/-- A block whose producer is alone in the schedule. -/
theorem applyBlock_alone {w v : WitnessObject} {u : ChainState}
    (hbefore : Returns (untilSlots ctx b) s w t) (hone : t.wso.numScheduledWitnesses = 1)
    (hname : t.wso.currentShuffledWitnesses.getD 0 .empty = b.witness)
    (hv : t.witnesses.find (ownedBy b.witness) = some v)
    (hafter : Returns (fromHead ctx b (missedBlocks t.dgp b) w) t () u) :
    Returns (applyBlock ctx b) s () u := by
  rw [applyBlock_slots]
  exact hbefore.intro_bind (Returns.intro_bind (a := t.dgp) rfl
    ((missSlots_alone hone hname hv _ _).intro_bind hafter))

/-- A block that leaves its interval to another one, with the first slot missed. -/
def lateBlock : SignedBlock := sampleBlock .null (wlsGenesisTime + 7) (initMinerName 0) []

/-- The other block of that interval. -/
def sharingBlock : SignedBlock :=
  sampleBlock (lateBlock.id sampleEnv) (wlsGenesisTime + 8) (initMinerName 0) []

/-- A call below a checkpoint. -/
def checkpointCall (b : SignedBlock) : BlockCall := ⟨checkpointFlags, false, 10000, b⟩

/-- The flags of a block in a shared slot below a checkpoint. -/
theorem sharingBlock_flags :
    applyBlockFlags sampleEnv sampleCheckpoints {} sharingBlock = .ok checkpointFlags := by
  decide +kernel

/-- The pattern of two blocks that share a slot. -/
theorem sharedPattern :
    slotPattern none (2 ^ 128 - 1) [lateBlock, sharingBlock] % 2 ^ 128 = 2 ^ 128 - 3 := by
  decide +kernel

/-- Below a checkpoint, a block in the interval of the head leaves no bit. -/
theorem shared_slot_leaves_no_bit :
    applyBlockFlags sampleEnv sampleCheckpoints {} sharingBlock = .ok checkpointFlags ∧
      ∃ s, Reaches sampleEnv 1000000 [sampleCall lateBlock, checkpointCall sharingBlock] s ∧
        s.dgp.recentSlotsFilled = 2 ^ 128 - 2 ∧
        slotPattern none (2 ^ 128 - 1) [lateBlock, sharingBlock] % 2 ^ 128 = 2 ^ 128 - 3 := by
  have hends : endsIn (runBlocks sampleEnv [sampleCall lateBlock]) (initGenesis sampleEnv 1000000)
      (fun _ s => endsIn (untilSlots ((checkpointCall sharingBlock).context sampleEnv) sharingBlock) s
        fun w t => decide (t.wso.numScheduledWitnesses = 1) &&
          decide (t.wso.currentShuffledWitnesses.getD 0 .empty = sharingBlock.witness) &&
          (t.witnesses.find (ownedBy sharingBlock.witness)).isSome &&
          endsIn (fromHead ((checkpointCall sharingBlock).context sampleEnv) sharingBlock
            (missedBlocks t.dgp sharingBlock) w) t
            fun _ u => decide (u.dgp.recentSlotsFilled = 2 ^ 128 - 2)) = true := by
    decide +kernel
  obtain ⟨_, s, hs, hends⟩ := returns_of_endsIn hends
  obtain ⟨w, t, ht, hends⟩ := returns_of_endsIn hends
  simp only [Bool.and_eq_true, decide_eq_true_eq, Option.isSome_iff_exists] at hends
  obtain ⟨⟨⟨hone, hname⟩, v, hv⟩, hends⟩ := hends
  obtain ⟨_, u, hu, hbits⟩ := returns_of_endsIn hends
  have hcall : Returns (BlockCall.run sampleEnv (checkpointCall sharingBlock)) s () u :=
    applyBlock_alone ht hone hname hv hu
  have hreaches : Reaches sampleEnv 1000000
      ([sampleCall lateBlock] ++ [checkpointCall sharingBlock]) u :=
    ChainTip.reaches_append.mpr ⟨s, hs, hcall⟩
  exact ⟨sharingBlock_flags, u, hreaches, of_decide_eq_true hbits, sharedPattern⟩

end Shared

end Whaleshares.Participation
