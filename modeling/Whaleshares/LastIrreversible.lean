import Mathlib
import Whaleshares.ChainTip
import Whaleshares.ScheduleSafety

/-!
# The last irreversible block

From the first round update on the schedule has different witnesses, and only one of them
has confirmed the newest block. So the number that three quarters of them have confirmed is
below the head, and it never decreases along a chain of blocks.
-/

namespace Whaleshares.LastIrreversible

open Config Fc Assets Protocol Objects Program Database Vesting Rewards ApplyBlock WitnessSchedule
  Genesis ChainRun ChainTip Footprint Ledger ScheduleSafety

section Median

/-- An element of a sorted list reaches a bound exactly if it and all elements after it do, that
is, if so many elements of the list do. -/
theorem sorted_get_iff {m : List ℕ} {bound i v : ℕ} (hsorted : m.Pairwise (· ≤ ·))
    (hv : m[i]? = some v) : bound ≤ v ↔ m.length ≤ i + m.countP (bound ≤ ·) := by
  induction m generalizing i with
  | nil => cases hv
  | cons x rest ih =>
    obtain ⟨hfirst, hrest⟩ := List.pairwise_cons.mp hsorted
    rw [List.countP_cons, List.length_cons]
    cases i with
    | zero =>
      have hx : x = v := Option.some.inj hv
      subst hx
      by_cases hle : bound ≤ x
      · have hall : rest.countP (bound ≤ ·) = rest.length :=
          List.countP_eq_length.mpr fun y hy => by simpa using hle.trans (hfirst y hy)
        simp [hle, hall]
      · have hcount := List.countP_le_length (p := fun y => decide (bound ≤ y)) (l := rest)
        simp only [hle, decide_false, Bool.false_eq_true, if_false, false_iff]
        omega
    | succ i =>
      have hiff := ih hrest hv
      by_cases hle : bound ≤ x
      · have hv' : bound ≤ v := hle.trans (hfirst v (List.mem_of_getElem? hv))
        have hcount := hiff.mp hv'
        simp only [hv', hle, decide_true, if_true, true_iff]
        omega
      · simp only [hle, decide_false, Bool.false_eq_true, if_false, hiff]
        omega

/-- The element at an index of the sorted list is the greatest bound that all but so many
elements reach. -/
theorem sorted_get_isGreatest {l : List ℕ} {i v : ℕ}
    (hv : (l.insertionSort (· ≤ ·))[i]? = some v) :
    IsGreatest {bound | l.length - i ≤ l.countP (bound ≤ ·)} v := by
  have hperm : (l.insertionSort (· ≤ ·)).Perm l := List.perm_insertionSort _ _
  have hiff : ∀ bound, bound ≤ v ↔ l.length - i ≤ l.countP (bound ≤ ·) := by
    intro bound
    rw [sorted_get_iff (List.pairwise_insertionSort _ _) hv, hperm.length_eq, hperm.countP_eq]
    omega
  exact ⟨(hiff v).mp le_rfl, fun bound hbound => (hiff bound).mpr hbound⟩

/-- If at most one element of a list reaches a bound, every element of the sorted list but
the last is below it. -/
theorem sorted_get_lt {l : List ℕ} {bound i v : ℕ} (hcount : l.countP (bound ≤ ·) ≤ 1)
    (hi : i + 1 < l.length) (hv : (l.insertionSort (· ≤ ·))[i]? = some v) : v < bound := by
  obtain ⟨hreached, -⟩ := sorted_get_isGreatest hv
  by_contra hge
  have hle : l.countP (v ≤ ·) ≤ l.countP (bound ≤ ·) :=
    List.countP_mono_left fun x _ hx => by simp only [decide_eq_true_eq] at hx ⊢; omega
  have hreached : l.length - i ≤ l.countP (v ≤ ·) := hreached
  omega

end Median

section Attestation

/-- The owners of the witnesses are different, none of them has confirmed a block above `h`,
and after `k` blocks the schedule, if it has been updated, has different names. -/
structure Attested (h k : ℕ) (s : ChainState) : Prop where
  owners : (s.witnesses.rows.map (·.owner)).Nodup
  confirmed : ∀ w ∈ s.witnesses.rows, w.lastConfirmedBlockNum ≤ h
  scheduled : wlsMaxWitnesses ≤ k →
    (s.wso.currentShuffledWitnesses.take s.wso.numScheduledWitnesses).Nodup ∧
    (s.wso.currentShuffledWitnesses.take s.wso.numScheduledWitnesses).length = wlsMaxWitnesses

variable {h k : ℕ} {s t : ChainState}

/-- Who attested what depends on the signers alone. -/
theorem Attested.of_signers (hs : Attested h k s) {x : Table WitnessObject}
    (hx : x.rows.map signer = s.witnesses.rows.map signer) :
    Attested h k { s with witnesses := x } := by
  refine ⟨?_, fun w hw => ?_, hs.scheduled⟩
  · have howners : x.rows.map (·.owner) = s.witnesses.rows.map (·.owner) :=
      map_eq_of_map_eq (fun r => r.2.1) (fun _ => rfl) hx
    change (x.rows.map (·.owner)).Nodup
    rw [howners]
    exact hs.owners
  · have hmem : signer w ∈ s.witnesses.rows.map signer := by
      rw [← hx]
      exact List.mem_map_of_mem hw
    obtain ⟨v, hv, hsame⟩ := List.mem_map.mp hmem
    have hnum : v.lastConfirmedBlockNum = w.lastConfirmedBlockNum :=
      congrArg (fun r => r.2.2) hsame
    rw [← hnum]
    exact hs.confirmed v hv

/-- Who attested what does not depend on the global properties. -/
theorem Attested.dgp (hs : Attested h k s) (d : DynamicGlobalPropertyObject) :
    Attested h k { s with dgp := d } :=
  ⟨hs.owners, hs.confirmed, hs.scheduled⟩

/-- The quiet routines keep what is attested. -/
theorem attested_quietFrame : QuietFrame (Preserves (Attested h k)) where
  quietAccounts _ _ _ _ hs := ⟨hs.owners, hs.confirmed, hs.scheduled⟩
  comments _ _ hs := ⟨hs.owners, hs.confirmed, hs.scheduled⟩
  commentVotes _ _ hs := ⟨hs.owners, hs.confirmed, hs.scheduled⟩
  withdrawVestingRoutes _ _ hs := ⟨hs.owners, hs.confirmed, hs.scheduled⟩
  transactions _ _ hs := ⟨hs.owners, hs.confirmed, hs.scheduled⟩
  quietWitnesses _ _ hx _ hs := hs.of_signers (map_eq_of_map_eq Prod.fst (fun _ => rfl) hx)

/-- Operations keep what is attested. -/
theorem attested_operationFrame (fc : FcLib) :
    OperationFrame fc (Preserves (Attested h k)) where
  toQuietFrame := attested_quietFrame
  rewardAccounts _ _ _ _ hs := ⟨hs.owners, hs.confirmed, hs.scheduled⟩
  rewardFunds _ _ hs := ⟨hs.owners, hs.confirmed, hs.scheduled⟩
  rewardTotals _ d _ _ hs := hs.dgp d
  accountAuthorities _ _ hs := ⟨hs.owners, hs.confirmed, hs.scheduled⟩
  ballots _ _ _ hs := ⟨hs.owners, hs.confirmed, hs.scheduled⟩
  witnessVotes _ _ hs := ⟨hs.owners, hs.confirmed, hs.scheduled⟩
  tallies _ _ _ _ hx hs :=
    hs.of_signers (Table.modify_map_eq hx fun _ _ hw => changeWitnessVote_signer fc hw)
  newcomer s x w hx howner _ hw _ hs := by
    refine ⟨?_, fun v hv => ?_, hs.scheduled⟩
    · change (x.rows.map (·.owner)).Nodup
      rw [hx, List.map_append]
      refine hs.owners.append (List.nodup_singleton _) ?_
      rw [List.map_singleton, List.disjoint_singleton]
      intro hmem
      obtain ⟨old, hold, hsame⟩ := List.mem_map.mp hmem
      exact howner old hold hsame.symm
    · change v ∈ x.rows at hv
      rw [hx] at hv
      rcases List.mem_append.mp hv with hv | hv
      · exact hs.confirmed v hv
      · rw [List.mem_singleton.mp hv, hw.lastConfirmedBlockNum]
        exact Nat.zero_le _
  anyAccounts _ _ hs := ⟨hs.owners, hs.confirmed, hs.scheduled⟩
  totals _ d _ hs := hs.dgp d

/-- A change of the global properties keeps what is attested. -/
theorem modifyDgp_attested
    (f : DynamicGlobalPropertyObject → Except Exc DynamicGlobalPropertyObject) :
    Keeps (Preserves (Attested h k)) (modifyDgp f) :=
  replace_keeps fun _ d _ hs => hs.dgp d

/-- The scheduled witnesses are rows of the table, under the names of the schedule. -/
theorem scheduledWitnesses_ok {ws : List WitnessObject} (hreturns : Returns scheduledWitnesses s ws t) :
    t = s ∧ ws.map (·.owner) = s.wso.currentShuffledWitnesses.take s.wso.numScheduledWitnesses ∧
      ∀ w ∈ ws, w ∈ s.witnesses.rows := by
  obtain ⟨found, hfound, hresult⟩ := bind_eq_ok hreturns
  have hpair : (found, s) = (ws, t) := Except.ok.inj hresult
  obtain ⟨rfl, rfl⟩ := Prod.mk.inj hpair
  refine ⟨rfl, ?_⟩
  generalize s.wso.currentShuffledWitnesses.take s.wso.numScheduledWitnesses = names at hfound
  clear hreturns hresult hpair
  induction names generalizing found with
  | nil =>
    rw [← Except.ok.inj hfound]
    simp
  | cons name rest ih =>
    rw [List.mapM_cons] at hfound
    obtain ⟨w, hw, hfound⟩ := bind_eq_ok hfound
    obtain ⟨ws, hws, hfound⟩ := bind_eq_ok hfound
    obtain ⟨howners, hmem⟩ := ih ws hws
    have hfind : s.witnesses.find (ownedBy name) = some w := by
      unfold orUnknown at hw
      split at hw
      next a ha => rw [ha, Except.ok.inj hw]
      next => cases hw
    have howner : w.owner = name := by
      simpa [ownedBy] using List.find?_some hfind
    rw [← Except.ok.inj hfound]
    refine ⟨by simp [howner, howners], fun v hv => ?_⟩
    rcases List.mem_cons.mp hv with rfl | hv
    · exact List.mem_of_find?_eq_some hfind
    · exact hmem v hv

end Attestation

section Front

variable {ctx : Context} {b : SignedBlock} {h : ℕ} {s t : ChainState}

/-- The last irreversible block stays. -/
def SameLib (s t : ChainState) : Prop :=
  t.dgp.lastIrreversibleBlockNum = s.dgp.lastIrreversibleBlockNum

instance : IsPreorder ChainState SameLib where
  refl _ := rfl
  trans _ _ _ hst htu := Eq.trans htu hst

/-- What the witnesses have confirmed after the newest block: only its witness has confirmed
it. -/
structure Signed (h : ℕ) (name : AccountName) (s : ChainState) : Prop where
  owners : (s.witnesses.rows.map (·.owner)).Nodup
  confirmed : ∀ w ∈ s.witnesses.rows, w.lastConfirmedBlockNum ≤ h ∨
    w.owner = name ∧ w.lastConfirmedBlockNum = h + 1
  scheduled : wlsMaxWitnesses ≤ h →
    (s.wso.currentShuffledWitnesses.take s.wso.numScheduledWitnesses).Nodup ∧
    (s.wso.currentShuffledWitnesses.take s.wso.numScheduledWitnesses).length = wlsMaxWitnesses

/-- What is signed at the next height is attested there. -/
theorem Signed.attested {name : AccountName} (hs : Signed h name s) : Attested (h + 1) h s := by
  refine ⟨hs.owners, fun w hw => ?_, hs.scheduled⟩
  rcases hs.confirmed w hw with hle | ⟨-, heq⟩
  · omega
  · omega

/-- The update of the signing witness signs the block. -/
theorem updateSigningWitness_signed {name : AccountName} {u : Unit} (hs : Attested h h s)
    (hnum : b.blockNum = h + 1) (hreturns : Returns (updateSigningWitness name b) s u t) :
    Signed h name t := by
  obtain ⟨x, hx, rfl⟩ := map_eq_ok hreturns.gets_bind.update
  obtain ⟨before, old, new, after, hrows, hrows', -, hold, hnew⟩ := Table.modify_rows hx
  have hnew := (Except.ok.inj hnew).symm
  have howner : old.owner = name := by simpa [ownedBy] using hold
  have howners : x.rows.map (·.owner) = s.witnesses.rows.map (·.owner) := by
    rw [hrows, hrows', hnew]
    simp
  refine ⟨?_, fun w hw => ?_, hs.scheduled⟩
  · change (x.rows.map (·.owner)).Nodup
    rw [howners]
    exact hs.owners
  · have hkept : ∀ v ∈ before ++ after, v.lastConfirmedBlockNum ≤ h := by
      intro v hv
      refine hs.confirmed v ?_
      rw [hrows]
      rcases List.mem_append.mp hv with hv | hv <;> simp [hv]
    change w ∈ x.rows at hw
    rw [hrows', List.mem_append, List.mem_cons] at hw
    rcases hw with hw | rfl | hw
    · exact .inl (hkept w (List.mem_append_left _ hw))
    · refine .inr ?_
      rw [hnew]
      exact ⟨howner, hnum⟩
    · exact .inl (hkept w (List.mem_append_right _ hw))

/-- Three quarters of the witnesses have not confirmed the newest block. -/
theorem confirmedBlockNum_lt {name : AccountName} {ws : List WitnessObject} {num : ℕ}
    (hs : Signed h name s) (hstart : wlsMaxWitnesses ≤ h)
    (hws : Returns scheduledWitnesses s ws t) (hnum : confirmedBlockNum ws = .ok num) :
    num ≤ h := by
  obtain ⟨-, howners, hmem⟩ := scheduledWitnesses_ok hws
  obtain ⟨hnodup, hlength⟩ := hs.scheduled hstart
  rw [← howners] at hnodup hlength
  rw [List.length_map] at hlength
  have hcount : (ws.map (·.lastConfirmedBlockNum)).countP (h + 1 ≤ ·) ≤ 1 := by
    rw [List.countP_map]
    have hle : ws.countP ((fun n => decide (h + 1 ≤ n)) ∘ fun w => w.lastConfirmedBlockNum) ≤
        ws.countP fun w => w.owner = name := by
      refine List.countP_mono_left fun w hw hge => ?_
      have hge : h + 1 ≤ w.lastConfirmedBlockNum := of_decide_eq_true hge
      rcases hs.confirmed w (hmem w hw) with hlow | ⟨howner, -⟩
      · omega
      · simpa using howner
    have hone : ws.countP (fun w => w.owner = name) ≤ 1 := by
      have hcounts := List.nodup_iff_count_le_one.mp hnodup name
      rw [List.count, List.countP_map] at hcounts
      refine le_trans (List.countP_mono_left fun w _ howner => ?_) hcounts
      simpa using howner
    exact le_trans hle hone
  unfold confirmedBlockNum at hnum
  simp only [hlength] at hnum
  split at hnum
  next v hv =>
    have hlt : v < h + 1 := by
      refine sorted_get_lt hcount ?_ hv
      rw [List.length_map, hlength]
      decide
    have hmod : v % 2 ^ 32 = num := Except.ok.inj hnum
    have hle := Nat.mod_le v (2 ^ 32)
    omega
  next => cases hnum

/-- Where the last irreversible block of a state with head number `h` is. -/
structure Low (h lib : ℕ) : Prop where
  below : lib ≤ h - 1
  early : h < wlsStartMinerVotingBlock → lib = h - wlsMaxWitnesses

/-- The new last irreversible block is below the head and at least the old one. -/
theorem updateLastIrreversibleBlock_lib {name : AccountName} (hs : Signed h name s)
    (hnum : s.dgp.headBlockNumber = h + 1) (hlow : Low h s.dgp.lastIrreversibleBlockNum)
    (hreturns : Returns updateLastIrreversibleBlock s () t) :
    Attested (h + 1) h t ∧ s.dgp.lastIrreversibleBlockNum ≤ t.dgp.lastIrreversibleBlockNum ∧
      Low (h + 1) t.dgp.lastIrreversibleBlockNum := by
  have hbelow := hlow.below
  have hearly := hlow.early
  have hreturns := hreturns.gets_bind
  rw [hnum] at hreturns
  split at hreturns
  next hstart =>
    obtain ⟨d, hd, rfl⟩ := map_eq_ok hreturns.update
    have hlib : d.lastIrreversibleBlockNum = if wlsMaxWitnesses < h + 1 then h + 1 - wlsMaxWitnesses
        else s.dgp.lastIrreversibleBlockNum := by
      rw [← Except.ok.inj hd]
    have hmoved : d.lastIrreversibleBlockNum = h + 1 - 21 := by
      have hsame := hearly (by omega)
      by_cases hmax : wlsMaxWitnesses < h + 1
      · rw [hlib, if_pos hmax, wlsMaxWitnesses]
      · rw [hlib, if_neg hmax, hsame]
        simp only [wlsMaxWitnesses] at hmax ⊢
        omega
    refine ⟨hs.attested.dgp d, ?_, ?_, fun _ => hmoved⟩
    · change _ ≤ d.lastIrreversibleBlockNum
      have hsame := hearly (by omega)
      rw [hsame, hmoved, wlsMaxWitnesses]
      omega
    · change d.lastIrreversibleBlockNum ≤ _
      omega
  next hstart =>
    obtain ⟨ws, v, hws, hreturns⟩ := hreturns.bind
    obtain ⟨num, hconfirmed, hreturns⟩ := hreturns.lift_bind
    obtain ⟨d, hd, rfl⟩ := map_eq_ok hreturns.update
    obtain ⟨rfl, -, -⟩ := scheduledWitnesses_ok hws
    have hlib : d.lastIrreversibleBlockNum = max num v.dgp.lastIrreversibleBlockNum := by
      rw [← Except.ok.inj hd]
    have hle : num ≤ h := by
      refine confirmedBlockNum_lt hs ?_ hws hconfirmed
      simp only [wlsMaxWitnesses, wlsStartMinerVotingBlock] at hstart ⊢
      omega
    refine ⟨hs.attested.dgp d, ?_, ?_, fun hnot => absurd hnot hstart⟩
    · change _ ≤ d.lastIrreversibleBlockNum
      omega
    · change d.lastIrreversibleBlockNum ≤ _
      omega

/-- The new global properties keep the last irreversible block. -/
theorem updateGlobalDynamicData_sameLib (ctx : Context) (b : SignedBlock) :
    Keeps SameLib (updateGlobalDynamicData ctx b) := by
  have hshift : ∀ (missed : ℕ) (d : DynamicGlobalPropertyObject),
      (shiftMissed missed d).lastIrreversibleBlockNum = d.lastIrreversibleBlockNum := by
    intro missed
    induction missed with
    | zero => exact fun _ => rfl
    | succ missed ih => exact fun d => ih (shiftSlot false d)
  have hslots : ∀ (missed : ℕ) (d : DynamicGlobalPropertyObject),
      (shiftSlots missed d).lastIrreversibleBlockNum = d.lastIrreversibleBlockNum := by
    intro missed d
    unfold shiftSlots
    split
    · rfl
    · exact hshift missed (shiftSlot true d)
  have htip : QuietFrame SameLib := {
    quietAccounts := fun _ _ _ _ => rfl
    comments := fun _ _ => rfl
    commentVotes := fun _ _ => rfl
    withdrawVestingRoutes := fun _ _ => rfl
    transactions := fun _ _ => rfl
    quietWitnesses := fun _ _ _ _ => rfl }
  refine .bind (.gets _) fun _ => .bind (missSlots_keeps htip b _ _) fun _ =>
    .bind ?_ fun _ => .bind (.gets _) fun _ => .lift _
  refine replace_keeps fun s d hd => ?_
  rw [← Except.ok.inj hd]
  exact hslots _ s.dgp

/-- A block moves the last irreversible block forward, and leaves it below itself. -/
theorem applyBlockFront_lib (hs : Attested h h s) (hlow : Low h s.dgp.lastIrreversibleBlockNum)
    (hnum : b.blockNum = h + 1) (hreturns : Returns (applyBlockFront ctx b) s () t) :
    Attested (h + 1) h t ∧ s.dgp.lastIrreversibleBlockNum ≤ t.dgp.lastIrreversibleBlockNum ∧
      Low (h + 1) t.dgp.lastIrreversibleBlockNum := by
  obtain ⟨_, -, hreturns⟩ := hreturns.lift_bind
  obtain ⟨w, s₁, h₁, hreturns⟩ := hreturns.bind
  obtain ⟨_, -, hreturns⟩ := hreturns.gets_bind.lift_bind
  obtain ⟨_, s₂, h₂, hreturns⟩ := hreturns.bind
  obtain ⟨_, s₃, h₃, hreturns⟩ := hreturns.bind
  obtain ⟨_, -, hreturns⟩ := lookup_bind hreturns
  obtain ⟨_, -, hreturns⟩ := hreturns.gets_bind.lift_bind
  obtain ⟨_, s₄, h₄, hreturns⟩ := hreturns.bind
  obtain ⟨_, s₅, h₅, hreturns⟩ := hreturns.bind
  obtain ⟨_, s₆, h₆, hreturns⟩ := hreturns.bind
  have hforEach : Keeps (Preserves (Attested h h)) (forEach (applyTransaction ctx) b.transactions) :=
    .forEach (fun trx => applyTransaction_keeps ctx (attested_operationFrame _) trx) _
  have hglobal : Keeps (Preserves (Attested h h)) (updateGlobalDynamicData ctx b) :=
    .bind (.gets _) fun _ => .bind (missSlots_keeps attested_quietFrame b _ _) fun _ =>
      .bind (modifyDgp_attested _) fun _ => .bind (.gets _) fun _ => .lift _
  have hheader : Keeps (Preserves (Attested h h)) (validateBlockHeader ctx b) :=
    validateBlockHeader_keeps ctx b
  have ha₁ := hheader.rel s w s₁ h₁ hs
  have ha₂ := (modifyDgp_attested _).rel s₁ () s₂ h₂ ha₁
  have ha₃ := (processHeaderExtensions_keeps attested_quietFrame b).rel s₂ () s₃ h₃ ha₂
  have ha₄ := hforEach.rel s₃ () s₄ h₄ ha₃
  have ha₅ := hglobal.rel s₄ () s₅ h₅ ha₄
  have ha₆ := updateSigningWitness_signed ha₅ hnum h₆
  have hdgp₆ := updateSigningWitness_dgp h₆
  have hhead : s₆.dgp.headBlockNumber = h + 1 := by
    rw [hdgp₆, (updateGlobalDynamicData_head h₅).2, hnum]
  have hlib : s₆.dgp.lastIrreversibleBlockNum = s.dgp.lastIrreversibleBlockNum := by
    have hsame₁ : SameTip s s₁ := (validateBlockHeader_keeps ctx b).rel s w s₁ h₁
    have hsame₂ : SameLib s₁ s₂ := by
      obtain ⟨d, hd, rfl⟩ := map_eq_ok h₂.update
      rw [← Except.ok.inj hd]
      rfl
    have hsame₃ : SameTip s₂ s₃ :=
      (processHeaderExtensions_keeps sameTip_scheduleFrame.toQuietFrame b).rel s₂ () s₃ h₃
    have hsame₄ : SameTip s₃ s₄ := by
      have hkeeps : Keeps SameTip (forEach (applyTransaction ctx) b.transactions) :=
        .forEach (fun trx => applyTransaction_keeps ctx (sameTip_moneyFrame.toOperationFrame _) trx) _
      exact hkeeps.rel s₃ () s₄ h₄
    have hsame₅ : SameLib s₄ s₅ := (updateGlobalDynamicData_sameLib ctx b).rel s₄ () s₅ h₅
    have hlib : ∀ {u v : ChainState}, SameTip u v → SameLib u v := by
      intro u v hsame
      have htip : tip v.dgp = tip u.dgp := hsame
      exact congrArg (fun x => x.2.2) htip
    rw [hdgp₆]
    exact hsame₅.trans ((hlib hsame₄).trans ((hlib hsame₃).trans (hsame₂.trans (hlib hsame₁))))
  rw [← hlib] at hlow ⊢
  exact updateLastIrreversibleBlock_lib ha₆ hhead hlow hreturns

end Front

section Schedule

variable {h : ℕ} {s t : ChainState}

/-- A swap of two names is a permutation. -/
theorem swapAt_perm {names : List AccountName} {i j : ℕ} (hi : i < names.length)
    (hj : j < names.length) : (swapAt names i j).Perm names := by
  have hswap := List.set_set_perm hi hj
  unfold swapAt
  simpa [hi, hj] using hswap

/-- The shuffle only reorders the names. -/
theorem shuffleFrom_perm (time : TimePointSec) (left i : ℕ) (names : List AccountName)
    (hlength : i + left ≤ names.length) : (shuffleFrom time left i names).Perm names := by
  induction left generalizing i names with
  | zero => exact List.Perm.refl _
  | succ left ih =>
    have hrandom : shuffleRandom time i % (left + 1) < left + 1 := Nat.mod_lt _ (Nat.succ_pos left)
    have hswap := swapAt_perm (show i < names.length by omega)
      (show i + shuffleRandom time i % (left + 1) < names.length by omega)
    have hrest := ih (i + 1) (swapAt names i (i + shuffleRandom time i % (left + 1)))
      (by rw [hswap.length_eq]; omega)
    exact hrest.trans hswap

/-- The selected runners stand in the order that they were visited in. -/
theorem runWitnesses_selected_sublist (elected : List WitnessObject) (count time : ℕ)
    (order : List WitnessObject) :
    (runWitnesses elected count time order).selected.Sublist (order.filter (isRunner elected)) := by
  induction order generalizing count time with
  | nil => exact List.Sublist.refl _
  | cons w rest ih =>
    unfold runWitnesses
    split
    · split
      next hrunner =>
        rw [List.filter_cons_of_pos hrunner]
        exact (ih (count + 1) w.virtualScheduledTime).cons_cons w
      next hrunner =>
        rw [List.filter_cons_of_neg hrunner]
        exact ih count w.virtualScheduledTime
    · exact List.nil_sublist _

/-- Different witnesses are selected. -/
theorem selectWitnesses_active_nodup (howners : (s.witnesses.rows.map (·.owner)).Nodup) :
    (selectWitnesses s).active.Nodup := by
  have hvotes := select_all_perm s.witnesses WitnessObject.byVoteName
  have htimes := select_all_perm s.witnesses WitnessObject.byScheduleTime
  have helected : (selectWitnesses s).elected.Sublist
      (s.witnesses.select (fun _ => true) WitnessObject.byVoteName) :=
    (List.take_sublist _ _).trans List.filter_sublist
  have hselected : (selectWitnesses s).runners.selected.Sublist
      ((s.witnesses.select (fun _ => true) WitnessObject.byScheduleTime).filter
        (isRunner (selectWitnesses s).elected)) := runWitnesses_selected_sublist _ _ _ _
  have hfirst : ((selectWitnesses s).elected.map (·.owner)).Nodup :=
    ((hvotes.map (·.owner)).nodup_iff.mpr howners).sublist (helected.map _)
  have hsecond : ((selectWitnesses s).runners.selected.map (·.owner)).Nodup :=
    ((htimes.map (·.owner)).nodup_iff.mpr howners).sublist
      ((hselected.trans List.filter_sublist).map _)
  unfold Selection.active
  rw [List.map_append]
  refine hfirst.append hsecond fun name hname hname' => ?_
  obtain ⟨e, he, rfl⟩ := List.mem_map.mp hname
  obtain ⟨r, hr, hsame⟩ := List.mem_map.mp hname'
  have hrunner := List.mem_filter.mp (hselected.subset hr)
  have heq : r = e := List.inj_on_of_nodup_map howners (htimes.mem_iff.mp hrunner.1)
    (hvotes.mem_iff.mp (helected.subset he)) hsame
  have hmem : (selectWitnesses s).elected.any (fun e => e.id = r.id) = true :=
    List.any_eq_true.mpr ⟨e, he, by simp [heq]⟩
  have hnot := hrunner.2
  simp [isRunner, hmem] at hnot

/-- The update writes the selected witnesses, shuffled, to the schedule, and has checked how
many they are. -/
theorem updateWitnessSchedule4_schedule (hreturns : Returns updateWitnessSchedule4 s () t) :
    (selectWitnesses s).active.length = expectedActiveWitnesses s ∧
      ∃ time headNum virtualTime majority wso,
        t.wso.currentShuffledWitnesses = (writeSchedule time headNum virtualTime majority
          (selectWitnesses s) wso).currentShuffledWitnesses ∧
        t.wso.numScheduledWitnesses = (writeSchedule time headNum virtualTime majority
          (selectWitnesses s) wso).numScheduledWitnesses := by
  obtain ⟨virtualTime, s₁, h₁, hreturns⟩ := hreturns.gets_bind.bind
  obtain ⟨_, s₂, h₂, hreturns⟩ := hreturns.bind
  obtain ⟨majority, s₃, h₃, hreturns⟩ := hreturns.bind
  obtain ⟨_, s₄, h₄, hreturns⟩ := hreturns.gets_bind.gets_bind.bind
  obtain ⟨_, s₅, h₅, hreturns⟩ := hreturns.bind
  obtain ⟨_, -, hreturns⟩ := hreturns.lift_bind
  obtain ⟨_, -, hreturns⟩ := hreturns.lift_bind
  obtain ⟨_, s₆, h₆, hreturns⟩ := hreturns.bind
  constructor
  · have hnumber : s₁.witnesses.rows.length = s.witnesses.rows.length :=
      (advanceSchedule_keeps sameNumber_stepFrame.toScheduleFrame.toRoundFrame.toTurnFrame
        (selectWitnesses s)).rel s virtualTime s₁ h₁
    obtain ⟨hassert, -⟩ := h₂.gets_bind.lift
    have hlength := fcAssert_eq_ok hassert
    rw [expectedActiveWitnesses, ← hnumber]
    exact of_decide_eq_true hlength
  · have hs₄ := Except.ok.inj h₄.update
    have hs₅ := (scheduledWitnesses_ok h₅).1
    have hs₆ := Except.ok.inj h₆.update
    obtain ⟨d, -, rfl⟩ := map_eq_ok hreturns.update
    rw [← hs₆, hs₅, ← hs₄]
    exact ⟨s₃.dgp.time, s₃.dgp.headBlockNumber, virtualTime, majority, s₃.wso, rfl, rfl⟩

/-- After an update the schedule has `WLS_MAX_WITNESSES` different names. -/
theorem updateWitnessSchedule4_scheduled (howners : (s.witnesses.rows.map (·.owner)).Nodup)
    (hstaffed : Staffed s) (hreturns : Returns updateWitnessSchedule4 s () t) :
    (t.wso.currentShuffledWitnesses.take t.wso.numScheduledWitnesses).Nodup ∧
    (t.wso.currentShuffledWitnesses.take t.wso.numScheduledWitnesses).length = wlsMaxWitnesses := by
  obtain ⟨hexpected, time, headNum, virtualTime, majority, wso, hnames, hnum⟩ :=
    updateWitnessSchedule4_schedule hreturns
  have hlength : (selectWitnesses s).active.length = 21 := by
    rw [hexpected, expectedActiveWitnesses]
    exact min_eq_left hstaffed.enough
  have hnum : t.wso.numScheduledWitnesses = 21 := by
    rw [hnum]
    simp only [writeSchedule, hlength]
    rfl
  have hperm : t.wso.currentShuffledWitnesses.Perm (selectWitnesses s).active := by
    rw [hnames]
    simp only [writeSchedule, hlength]
    have hpadded : (selectWitnesses s).active ++
        List.replicate (wlsMaxWitnesses - 21) AccountName.empty = (selectWitnesses s).active :=
      List.append_nil _
    rw [hpadded]
    exact shuffleFrom_perm _ _ _ _ (by rw [hlength]; decide)
  have hall : t.wso.currentShuffledWitnesses.length = 21 := hperm.length_eq.trans hlength
  rw [hnum, List.take_of_length_le hall.le]
  exact ⟨hperm.nodup_iff.mpr (selectWitnesses_active_nodup howners), hall⟩

/-- The schedule does not matter before the first update. -/
theorem attested_turnFrame {k : ℕ} (hk : k < wlsMaxWitnesses) :
    TurnFrame (Preserves (Attested h k)) where
  turns _ _ hx _ hs := hs.of_signers (map_eq_of_map_eq Prod.fst (fun _ => rfl) hx)
  blockSize _ _ hs := hs.dgp _
  wso _ _ _ hs := ⟨hs.owners, hs.confirmed, fun hle => absurd hle (Nat.not_le.mpr hk)⟩
  hardforks _ _ hs := ⟨hs.owners, hs.confirmed, hs.scheduled⟩

/-- A new schedule has different names, and so the block is attested under it as well. -/
theorem updateWitnessSchedule_attested (hs : Attested (h + 1) h s) (hstaffed : Staffed s)
    (hnum : s.dgp.headBlockNumber = h + 1) (hreturns : Returns updateWitnessSchedule s () t) :
    Attested (h + 1) (h + 1) t := by
  have hreturns := hreturns.gets_bind
  rw [hnum] at hreturns
  by_cases hround : (h + 1) % wlsMaxWitnesses = 0
  · have hreturns : Returns updateWitnessSchedule4 s () t := by
      simpa [whenever, hround] using hreturns
    have hstart : Attested (h + 1) 0 s :=
      ⟨hs.owners, hs.confirmed, fun hle => absurd hle (by decide)⟩
    have hkept : Attested (h + 1) 0 t :=
      (updateWitnessSchedule4_keeps (attested_turnFrame (by decide))).rel s () t hreturns hstart
    exact ⟨hkept.owners, hkept.confirmed, fun _ =>
      updateWitnessSchedule4_scheduled hs.owners hstaffed hreturns⟩
  · have hsame : t = s := by
      have hreturns : Returns (pure () : Chain Unit) s () t := by
        simpa [whenever, hround] using hreturns
      exact hreturns.pure.2
    rw [hsame]
    refine ⟨hs.owners, hs.confirmed, fun hle => hs.scheduled ?_⟩
    by_contra hlt
    have hfirst : h + 1 = wlsMaxWitnesses := by omega
    exact hround (by rw [hfirst]; decide)

end Schedule

section Runs

variable {env : Env} {initSupply : ℕ} {calls : List BlockCall} {call : BlockCall}
  {s t front : ChainState}

/-- The part of a block before the schedule is updated, after the last irreversible block
is. -/
theorem applyBlockBack_attested {ctx : Context} {b : SignedBlock} {h : ℕ}
    (hs : Attested (h + 1) h s) (hstaffed : Staffed s) (hnum : s.dgp.headBlockNumber = h + 1)
    (hreturns : Returns (applyBlockBack ctx b) s () t) : Attested (h + 1) (h + 1) t := by
  obtain ⟨_, s₁, h₁, hreturns⟩ := hreturns.bind
  obtain ⟨_, s₂, h₂, hreturns⟩ := hreturns.bind
  obtain ⟨_, s₃, h₃, hreturns⟩ := hreturns.bind
  have hbefore : ∀ {P : ChainState → Prop}, (∀ u f, P u → P { u with blockSummaries := f }) →
      QuietFrame (Preserves P) → P s → P s₂ := by
    intro P hP hquiet hPs
    have hP₁ := (createBlockSummary_keeps (R := Preserves P) ctx hP b).rel s () s₁ h₁ hPs
    exact (clearExpiredTransactions_keeps hquiet).rel s₁ () s₂ h₂ hP₁
  have hs₂ : Attested (h + 1) h s₂ :=
    hbefore (fun _ _ hu => ⟨hu.owners, hu.confirmed, hu.scheduled⟩) attested_quietFrame hs
  have hstaffed₂ : Staffed s₂ :=
    hbefore staffed_stepFrame.blockSummaries staffed_stepFrame.toQuietFrame hstaffed
  have hnum₂ : s₂.dgp.headBlockNumber = h + 1 := by
    have hframe := sameTip_scheduleFrame
    have hsame₁ := (createBlockSummary_keeps ctx hframe.blockSummaries b).rel s () s₁ h₁
    have hsame₂ := (clearExpiredTransactions_keeps hframe.toQuietFrame).rel s₁ () s₂ h₂
    have htip : tip s₂.dgp = tip s.dgp := Eq.trans hsame₂ hsame₁
    rw [← hnum]
    exact congrArg (fun x => x.2.1) htip
  have hs₃ := updateWitnessSchedule_attested hs₂ hstaffed₂ hnum₂ h₃
  have hframe : OperationFrame ctx.env.toFcLib (Preserves (Attested (h + 1) (h + 1))) :=
    attested_operationFrame _
  exact (afterSchedule_keeps ctx hframe.toStakeFrame).rel s₃ () t hreturns hs₃

/-- What holds of the confirmations and the last irreversible block in every state that a
run reaches. -/
structure Trailing (n : ℕ) (s : ChainState) : Prop where
  attested : Attested n n s
  low : Low n s.dgp.lastIrreversibleBlockNum

/-- The genesis state trails at height zero. -/
theorem trailing_initGenesis : Trailing 0 (initGenesis env initSupply) := by
  refine ⟨⟨?_, fun w hw => ?_, fun hle => absurd hle (by decide)⟩, ?_⟩
  · change ((genesisWitnesses env).map (·.owner)).Nodup
    have howners : (genesisWitnesses env).map (·.owner) =
        (List.range wlsMaxWitnesses).map initMinerName := by
      unfold genesisWitnesses
      rw [List.map_map]
      rfl
    rw [howners]
    decide +kernel
  · change w ∈ genesisWitnesses env at hw
    obtain ⟨i, -, rfl⟩ := List.mem_map.mp hw
    exact le_rfl
  · exact ⟨le_rfl, fun _ => rfl⟩

/-- A block keeps the last irreversible block trailing. -/
theorem applyBlock_trailing {ctx : Context} {b : SignedBlock} {n : ℕ} (hs : Trailing n s)
    (hstaffed : Staffed s) (hnum : b.blockNum = n + 1) (hreturns : Returns (applyBlock ctx b) s () t) :
    Trailing (n + 1) t := by
  obtain ⟨_, front, hfront, hback⟩ := hreturns.bind
  obtain ⟨hattested, -, hlow⟩ := applyBlockFront_lib hs.attested hs.low hnum hfront
  have hstaffedFront : Staffed front :=
    (applyBlockFront_keeps ctx staffed_stepFrame.toHeaderFrame b fun trx _ =>
      applyTransaction_keeps ctx (staffed_moneyFrame.toOperationFrame _) trx).rel s () front hfront hstaffed
  have hhead : front.dgp.headBlockNumber = n + 1 := (applyBlockFront_head hfront).2.2.trans hnum
  refine ⟨applyBlockBack_attested hattested hstaffedFront hhead hback, ?_⟩
  have htip : tip t.dgp = tip front.dgp := applyBlockBack_sameTip hback
  have hlib : t.dgp.lastIrreversibleBlockNum = front.dgp.lastIrreversibleBlockNum :=
    congrArg (fun x => x.2.2) htip
  rw [hlib]
  exact hlow

/-- The block that extends a chain has the next number. -/
theorem blockNum_eq (hreaches : Reaches env initSupply calls s)
    (hprevious : s.dgp.headBlockId = call.block.header.previous) :
    call.block.blockNum = calls.length + 1 := by
  unfold SignedBlock.blockNum
  rw [← hprevious, (Reaches.tip hreaches).2.2]

/-- In every reachable state the last irreversible block trails. -/
theorem Reaches.trailing (hreaches : Reaches env initSupply calls s) : Trailing calls.length s := by
  induction calls using List.reverseRecOn generalizing s with
  | nil =>
    rw [(Returns.pure hreaches).2]
    exact trailing_initGenesis
  | append_singleton calls call ih =>
    obtain ⟨u, hu, hcall⟩ := reaches_append.mp hreaches
    rw [List.length_append, List.length_singleton]
    exact applyBlock_trailing (ih hu) (Reaches.staffed hu)
      (blockNum_eq hu (applyBlock_head hcall).1) hcall

/-- The block that a reachable state takes leaves the last irreversible block at an earlier
one, and never moves it back. -/
theorem Reaches.front_lib (call : BlockCall) (hreaches : Reaches env initSupply calls s)
    (hfront : Returns (applyBlockFront (call.context env) call.block) s () front) :
    s.dgp.lastIrreversibleBlockNum ≤ front.dgp.lastIrreversibleBlockNum ∧
      front.dgp.lastIrreversibleBlockNum ≤ calls.length := by
  have htrailing := Reaches.trailing hreaches
  obtain ⟨-, hle, hlow⟩ := applyBlockFront_lib htrailing.attested htrailing.low
    (blockNum_eq hreaches (applyBlockFront_head hfront).1) hfront
  exact ⟨hle, hlow.below⟩

/-- The witnesses that the schedule names, in its order. -/
def Scheduled (s : ChainState) (ws : List WitnessObject) : Prop :=
  (s.wso.currentShuffledWitnesses.take s.wso.numScheduledWitnesses).map
    (fun name => s.witnesses.find (ownedBy name)) = ws.map some

/-- The lookup of the scheduled witnesses returns them. -/
theorem Scheduled.returns {ws : List WitnessObject} (h : Scheduled s ws) :
    Returns scheduledWitnesses s ws s := by
  have hfound : (s.wso.currentShuffledWitnesses.take s.wso.numScheduledWitnesses).mapM
      (fun name => orUnknown (s.witnesses.find (ownedBy name))) = .ok ws := by
    unfold Scheduled at h
    generalize s.wso.currentShuffledWitnesses.take s.wso.numScheduledWitnesses = names at h
    induction names generalizing ws with
    | nil =>
      cases ws with
      | nil => rfl
      | cons w ws => cases h
    | cons name names ih =>
      cases ws with
      | nil => cases h
      | cons w ws =>
        obtain ⟨hfirst, hrest⟩ := List.cons.inj h
        have hfirst : s.witnesses.find (ownedBy name) = some w := hfirst
        rw [List.mapM_cons, hfirst, ih hrest]
        rfl
  unfold Returns scheduledWitnesses
  rw [hfound]
  rfl

/-- The block numbers that all but a quarter of the witnesses have confirmed. -/
def confirmedByMost (ws : List WitnessObject) : Set ℕ :=
  {b | ws.length - ws.length / 4 ≤ ws.countP (b ≤ ·.lastConfirmedBlockNum)}

/-- The confirmed number is the greatest that most witnesses have confirmed. -/
theorem confirmedBlockNum_isGreatest {ws : List WitnessObject} (hne : ws ≠ [])
    (hwords : ∀ w ∈ ws, w.lastConfirmedBlockNum < 2 ^ 32) :
    ∃ num, confirmedBlockNum ws = .ok num ∧ IsGreatest (confirmedByMost ws) num := by
  have hpos : 0 < ws.length := List.length_pos_of_ne_nil hne
  have hoffset : (wls100Percent - wlsIrreversibleThreshold) * ws.length / wls100Percent =
      ws.length / 4 := by
    simp only [wls100Percent, wlsIrreversibleThreshold]
    omega
  generalize hl : ws.map (·.lastConfirmedBlockNum) = l
  have hlength : l.length = ws.length := by rw [← hl, List.length_map]
  have hlt : ws.length / 4 < (l.insertionSort (· ≤ ·)).length := by
    rw [List.length_insertionSort, hlength]
    omega
  have hget := List.getElem?_eq_getElem hlt
  generalize hv : (l.insertionSort (· ≤ ·))[ws.length / 4] = v at hget
  have hword : v < 2 ^ 32 := by
    have hmem : v ∈ l := (List.perm_insertionSort (· ≤ ·) l).mem_iff.mp (List.mem_of_getElem? hget)
    rw [← hl] at hmem
    obtain ⟨w, hw, rfl⟩ := List.mem_map.mp hmem
    exact hwords w hw
  refine ⟨v, ?_, ?_⟩
  · unfold confirmedBlockNum
    simp only [hoffset, hl, hget]
    rw [Nat.mod_eq_of_lt hword]
  · have hgreatest := sorted_get_isGreatest hget
    have hsame : {b | l.length - ws.length / 4 ≤ l.countP (b ≤ ·)} = confirmedByMost ws := by
      ext b
      change l.length - ws.length / 4 ≤ l.countP (b ≤ ·) ↔ b ∈ confirmedByMost ws
      rw [hlength, ← hl, List.countP_map]
      rfl
    rwa [hsame] at hgreatest

/-- Once the witnesses vote, the update moves the last irreversible block up to the number that
enough of them have confirmed, and changes nothing else. -/
theorem updateLastIrreversibleBlock_voted {ws : List WitnessObject}
    (hstart : wlsStartMinerVotingBlock ≤ s.dgp.headBlockNumber) (hws : Scheduled s ws)
    (hne : ws ≠ []) (hwords : ∀ w ∈ ws, w.lastConfirmedBlockNum < 2 ^ 32) :
    ∃ num, IsGreatest (confirmedByMost ws) num ∧
      Returns updateLastIrreversibleBlock s ()
        { s with dgp := { s.dgp with
            lastIrreversibleBlockNum := max num s.dgp.lastIrreversibleBlockNum } } := by
  obtain ⟨num, hnum, hgreatest⟩ := confirmedBlockNum_isGreatest hne hwords
  refine ⟨num, hgreatest, ?_⟩
  have hfound := hws.returns
  unfold Returns at hfound
  have hnot : ¬ s.dgp.headBlockNumber < wlsStartMinerVotingBlock := Nat.not_lt.mpr hstart
  unfold Returns updateLastIrreversibleBlock
  change (if s.dgp.headBlockNumber < wlsStartMinerVotingBlock then _ else _ : Chain Unit) s = _
  rw [if_neg hnot]
  change (scheduledWitnesses s >>= _) = _
  rw [hfound]
  change ((lift (confirmedBlockNum ws) : Chain ℕ) s >>= _) = _
  rw [hnum]
  rfl

/-- A block moves the last irreversible block forward, and leaves it below the head. -/
theorem applyBlock_lib (hreaches : Reaches env initSupply calls s)
    (hcall : Returns (call.run env) s () t) :
    s.dgp.lastIrreversibleBlockNum ≤ t.dgp.lastIrreversibleBlockNum := by
  obtain ⟨_, front, hfront, hback⟩ := Returns.bind hcall
  have htip : tip t.dgp = tip front.dgp := applyBlockBack_sameTip hback
  have hlib : t.dgp.lastIrreversibleBlockNum = front.dgp.lastIrreversibleBlockNum :=
    congrArg (fun x => x.2.2) htip
  rw [hlib]
  exact (Reaches.front_lib call hreaches hfront).1

/-- Along a chain the last irreversible block never decreases. -/
theorem Reaches.lib_mono {more : List BlockCall} (hs : Reaches env initSupply calls s)
    (ht : Reaches env initSupply (calls ++ more) t) :
    s.dgp.lastIrreversibleBlockNum ≤ t.dgp.lastIrreversibleBlockNum := by
  induction more using List.reverseRecOn generalizing t with
  | nil =>
    rw [List.append_nil] at ht
    rw [Returns.state_unique ht hs]
  | append_singleton more call ih =>
    rw [← List.append_assoc] at ht
    obtain ⟨u, hu, hcall⟩ := reaches_append.mp ht
    exact (ih hu).trans (applyBlock_lib hu hcall)

/-- Once the witnesses vote, the last irreversible block is the greatest one that all but a
quarter of the scheduled witnesses have confirmed, unless it was later already; and along a
chain it never moves back or past the head. -/
theorem irreversible_block_rule :
    (∀ (s : ChainState) (ws : List WitnessObject),
      wlsStartMinerVotingBlock ≤ s.dgp.headBlockNumber → Scheduled s ws → ws ≠ [] →
      (∀ w ∈ ws, w.lastConfirmedBlockNum < 2 ^ 32) →
      ∃ num, IsGreatest (confirmedByMost ws) num ∧
        Returns updateLastIrreversibleBlock s ()
          { s with dgp := { s.dgp with
              lastIrreversibleBlockNum := max num s.dgp.lastIrreversibleBlockNum } }) ∧
    (∀ (env : Env) (initSupply : ℕ) (calls more : List BlockCall) (s t : ChainState),
      Reaches env initSupply calls s → Reaches env initSupply (calls ++ more) t →
      s.dgp.lastIrreversibleBlockNum ≤ t.dgp.lastIrreversibleBlockNum ∧
        t.dgp.lastIrreversibleBlockNum ≤ t.dgp.headBlockNumber) := by
  refine ⟨fun s ws hstart hws hne hwords =>
    updateLastIrreversibleBlock_voted hstart hws hne hwords, fun env initSupply calls more s t hs ht => ?_⟩
  have hbelow := (Reaches.trailing ht).low.below
  have hhead := (Reaches.tip ht).2.1
  exact ⟨Reaches.lib_mono hs ht, by omega⟩

/-- Four witnesses have confirmed blocks up to these numbers. -/
def voters : List WitnessObject :=
  [40, 38, 10, 35].mapIdx fun i num =>
    { id := i, owner := initMinerName i, signingKey := sampleEnv.initPublicKey,
      lastConfirmedBlockNum := num }

/-- A state at block 40 whose schedule has these witnesses. -/
def votingHead : ChainState :=
  { initGenesis sampleEnv 1000000 with
    dgp := { headBlockNumber := 40, lastIrreversibleBlockNum := 20 }
    witnesses := { rows := voters, nextId := 4 }
    wso := { currentShuffledWitnesses := (List.range 4).map initMinerName
             numScheduledWitnesses := 4 } }

/-- The rule finds the greatest confirmed number of the voters. -/
theorem irreversible_block_rule_votingHead :
    (∃ num, IsGreatest (confirmedByMost voters) num ∧
      Returns updateLastIrreversibleBlock votingHead ()
        { votingHead with dgp := { votingHead.dgp with
            lastIrreversibleBlockNum := max num 20 } }) ∧
    ∃ s t, Reaches sampleEnv 1000000 [sampleCall (sampleChain [] 0)] s ∧
      Reaches sampleEnv 1000000 [sampleCall (sampleChain [] 0), sampleCall (sampleChain [] 1)] t ∧
      s.dgp.lastIrreversibleBlockNum ≤ t.dgp.lastIrreversibleBlockNum ∧
        t.dgp.lastIrreversibleBlockNum ≤ t.dgp.headBlockNumber := by
  constructor
  · refine irreversible_block_rule.1 votingHead voters (by decide) (by rfl)
      (by decide) fun w hw => ?_
    have hall : ∀ w ∈ voters, w.lastConfirmedBlockNum < 2 ^ 32 := by decide
    exact hall w hw
  · have hfirst : endsIn (runBlocks sampleEnv [sampleCall (sampleChain [] 0)])
        (initGenesis sampleEnv 1000000) (fun _ _ => true) = true := by decide +kernel
    have hsecond : endsIn (runBlocks sampleEnv
        [sampleCall (sampleChain [] 0), sampleCall (sampleChain [] 1)])
        (initGenesis sampleEnv 1000000) (fun _ _ => true) = true := by decide +kernel
    obtain ⟨_, s, hs, -⟩ := returns_of_endsIn hfirst
    obtain ⟨_, t, ht, -⟩ := returns_of_endsIn hsecond
    exact ⟨s, t, hs, ht, irreversible_block_rule.2 sampleEnv 1000000 [sampleCall (sampleChain [] 0)]
      [sampleCall (sampleChain [] 1)] s t hs ht⟩

end Runs

end Whaleshares.LastIrreversible
