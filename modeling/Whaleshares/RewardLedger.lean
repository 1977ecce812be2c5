import Whaleshares.VestingLedger

/-!
# Rewards in the books

What the inflation of a block and the payout of comments do to the books of the chain.
The rewards of a comment are claimed from its fund only after all due comments were
paid, so the tokens that are not held anywhere go below zero in between by the sum of
what the funds have awarded.
-/

namespace Whaleshares.RewardLedger

open Config Fc Assets Protocol Objects Program Database Vesting Rewards Ledger Footprint
  VestingLedger

variable {fc : FcLib} {s t : ChainState} {tokens shares : ℤ}

section Inflation

/-- A change of the balance of a fund changes the tokens that are held nowhere. -/
theorem modifyRewardFund_balanced {id : ℕ} {f : RewardFundObject → Except Exc RewardFundObject}
    {delta : ℤ} {u : Unit} (h : Returns (modifyRewardFund id f) s u t)
    (hf : ∀ a b, f a = .ok b → b.rewardBalance = a.rewardBalance + delta)
    (hs : Balanced tokens shares (books s)) : Balanced (tokens - delta) shares (books t) := by
  obtain ⟨x, hx, rfl⟩ := map_eq_ok h.update
  have hsum : (x.rows.map (·.rewardBalance)).sum =
      (s.rewardFunds.rows.map (·.rewardBalance)).sum + delta := Table.modify_sum hx hf
  refine hs.refund ?_
  change tokens - delta = tokens - ((x.rows.map (·.rewardBalance)).sum -
    (s.rewardFunds.rows.map (·.rewardBalance)).sum)
  omega

/-- Paying into the funds takes the tokens from those that are held nowhere. -/
theorem payRewardFunds_balanced (hexact : fc.SafeExact) {reward used r : ℤ}
    {funds : List RewardFundObject} (h : Returns (payRewardFunds fc reward used funds) s r t)
    (hs : Balanced tokens shares (books s)) :
    Balanced (tokens - (r - used)) shares (books t) := by
  induction funds generalizing used s tokens with
  | nil =>
    obtain ⟨rfl, rfl⟩ := h.pure
    have hzero : tokens - (r - r) = tokens := by omega
    rwa [hzero]
  | cons rf rest ih =>
    obtain ⟨product, -, h⟩ := h.lift_bind
    obtain ⟨share, -, h⟩ := h.lift_bind
    obtain ⟨_, u, hu, h⟩ := h.bind
    obtain ⟨sum, hsum, h⟩ := h.lift_bind
    obtain ⟨_, -, h⟩ := h.lift_bind
    have hsum := (hexact.checked hsum).1
    have hstep : Balanced (tokens - share) shares (books u) := by
      refine modifyRewardFund_balanced hu (fun a b hab => ?_) hs
      obtain ⟨balance, hbalance, hab⟩ := bind_eq_ok hab
      rw [← Except.ok.inj hab]
      exact (increase_eq_ok hexact hbalance).1
    have htokens : tokens - (r - used) = tokens - share - (r - sum) := by omega
    rw [htokens]
    exact ih h hstep

/-- A deposit of tokens takes them from those that are held nowhere. -/
theorem depositBalance_balanced (hexact : fc.SafeExact) {p : AccountObject → Bool} {amount : ℤ}
    {u : Unit} (h : Returns (modifyAccount p (depositBalance fc (wls amount))) s u t)
    (hs : Balanced tokens shares (books s)) : Balanced (tokens - amount) shares (books t) := by
  obtain ⟨a, b, -, hab, hm⟩ := modifyAccount_moves h
  obtain ⟨balance, hbalance, hab⟩ := bind_eq_ok hab
  have hbalance : balance = a.balance + amount := (increase_eq_ok hexact hbalance).1
  rw [← Except.ok.inj hab] at hm
  have hsound := hs.sound _ hm.purses.mem
  refine hm.balanced hs ⟨hsound.1, hsound.2, hsound.3, hsound.4, hsound.5⟩ rfl rfl ?_ ?_
  all_goals
    simp only [purse]
    omega

/-- The tokens that a block creates go to the funds, the witness and the developers. -/
theorem processFunds_balanced (hexact : fc.SafeExact) {u : Unit}
    (h : Returns (processFunds fc) s u t) (hs : Balanced tokens shares (books s)) :
    Balanced tokens shares (books t) := by
  obtain ⟨_, -, h⟩ := h.gets_bind.gets_bind.lift_bind
  obtain ⟨_, -, h⟩ := h.lift_bind
  obtain ⟨content, -, h⟩ := h.lift_bind
  obtain ⟨paid, s₁, h₁, h⟩ := h.gets_bind.bind
  obtain ⟨dev, -, h⟩ := h.lift_bind
  obtain ⟨_, -, h⟩ := h.lift_bind
  obtain ⟨_, -, h⟩ := h.lift_bind
  obtain ⟨cwit, -, h⟩ := lookup_bind h
  obtain ⟨witness, -, h⟩ := h.lift_bind
  obtain ⟨both, hboth, h⟩ := h.lift_bind
  obtain ⟨created, hcreated, h⟩ := h.lift_bind
  obtain ⟨_, s₂, h₂, h⟩ := h.bind
  obtain ⟨_, s₃, h₃, h⟩ := h.bind
  have hboth := (hexact.checked hboth).1
  have hcreated := (hexact.checked hcreated).1
  have hb₁ := payRewardFunds_balanced hexact h₁ hs
  have hb₂ : Balanced (tokens - (paid - 0) + created) shares (books s₂) := by
    obtain ⟨d, hd, rfl⟩ := modifyDgp_totals h₂
    obtain ⟨supply, hsupply, hd⟩ := bind_eq_ok hd
    have hsupply : supply = s₁.dgp.currentSupply + created := (increase_eq_ok hexact hsupply).1
    rw [← Except.ok.inj hd]
    refine hb₁.retotal (t := totals { s₁.dgp with currentSupply := supply }) ?_ ?_ rfl rfl rfl
      hb₁.shares_lt hb₁.fund_lt
    all_goals
      simp only [totals, books]
      omega
  have hb₃ := createVesting_balanced hexact h₃ hb₂
  have hb₄ := depositBalance_balanced hexact h hb₃
  have htokens : tokens = tokens - (paid - 0) + created - (wls witness).amount - dev := by
    simp only [wls]
    omega
  rw [htokens]
  exact hb₄

end Inflation

section Payout

/-- The loop over the curators takes what it pays from the tokens that are held nowhere. -/
theorem payCuratorLoop_balanced (hexact : fc.SafeExact) {maxRewards unclaimed r : ℤ}
    {totalWeight : ℕ} {votes : List CommentVoteObject}
    (h : Returns (payCuratorLoop fc maxRewards totalWeight unclaimed votes) s r t)
    (hs : Balanced tokens 0 (books s)) : Balanced (tokens - (unclaimed - r)) 0 (books t) := by
  induction votes generalizing unclaimed s tokens with
  | nil =>
    obtain ⟨rfl, rfl⟩ := h.pure
    have hzero : tokens - (r - r) = tokens := by omega
    rwa [hzero]
  | cons vote rest ih =>
    obtain ⟨claim, -, h⟩ := h.lift_bind
    obtain ⟨small, -, h⟩ := h.lift_bind
    split at h
    · obtain ⟨amount, hamount, h⟩ := h.lift_bind
      obtain ⟨left, hleft, h⟩ := h.lift_bind
      obtain ⟨voter, -, h⟩ := lookup_bind h
      obtain ⟨_, u, hu, h⟩ := h.bind
      obtain ⟨_, v, hv, h⟩ := h.bind
      have hamount := (hexact.stored hamount).2.1
      have hleft := (hexact.checked hleft).1
      have hstep := createVesting_reward_balanced hexact hamount hu hs
      have hbooks : SameBooks u v := by
        refine (modifyAccount_keeps (sameBooks_stepFrame.toVoteFrame fc) fun a b hab => ?_).rel _ _ _ hv
        obtain ⟨rewards, -, hab⟩ := bind_eq_ok hab
        rw [← Except.ok.inj hab]
        rfl
      have htokens : tokens - (unclaimed - r) = tokens - amount - (left - r) := by omega
      rw [htokens]
      exact ih h (hbooks.balanced hstep)
    · exact ih h hs

/-- The curators take what they are paid from the tokens that are held nowhere. -/
theorem payCurators_balanced (hexact : fc.SafeExact) {c : CommentObject} {maxRewards : ℤ}
    {r : ℤ × ℤ} (h : Returns (payCurators fc c maxRewards) s r t)
    (hs : Balanced tokens 0 (books s)) : Balanced (tokens - r.2) 0 (books t) := by
  unfold payCurators at h
  split at h
  · obtain ⟨rfl, rfl⟩ := h.pure
    have hzero : tokens - ((0 : ℤ), (0 : ℤ)).2 = tokens := by simp
    rwa [hzero]
  · split at h
    · obtain ⟨unclaimed, u, hu, h⟩ := h.gets_bind.bind
      obtain ⟨paid, hpaid, h⟩ := h.lift_bind
      obtain ⟨rfl, rfl⟩ := h.pure
      have hpaid : paid = maxRewards - unclaimed := (hexact.checked hpaid).1
      have hloop := payCuratorLoop_balanced hexact hu hs
      rw [hpaid]
      exact hloop
    · obtain ⟨paid, hpaid, h⟩ := h.lift_bind
      obtain ⟨rfl, rfl⟩ := h.pure
      have hpaid : paid = maxRewards - maxRewards := (hexact.checked hpaid).1
      have hzero : tokens - (maxRewards, paid).2 = tokens := by
        change tokens - paid = tokens
        omega
      rwa [hzero]

/-- A percentage is not below the least 64-bit number. -/
theorem percentOf_range (hexact : fc.SafeExact) {amount w : ℤ} {percent : ℕ}
    (h : percentOf fc amount percent = .ok w) : -2 ^ 63 ≤ w := by
  obtain ⟨product, -, h⟩ := bind_eq_ok h
  exact (hexact.div h).1

/-- The beneficiaries take what they are paid from the tokens that are held nowhere. -/
theorem payBeneficiaries_balanced (hexact : fc.SafeExact) {authorTokens total r : ℤ}
    {routes : List BeneficiaryRoute} (h : Returns (payBeneficiaries fc authorTokens total routes) s r t)
    (hs : Balanced tokens 0 (books s)) : Balanced (tokens - (r - total)) 0 (books t) := by
  induction routes generalizing total s tokens with
  | nil =>
    obtain ⟨rfl, rfl⟩ := h.pure
    have hzero : tokens - (r - r) = tokens := by omega
    rwa [hzero]
  | cons route rest ih =>
    obtain ⟨share, hshare, h⟩ := h.lift_bind
    obtain ⟨account, -, h⟩ := lookup_bind h
    obtain ⟨_, u, hu, h⟩ := h.bind
    obtain ⟨sum, hsum, h⟩ := h.lift_bind
    have hsum := (hexact.checked hsum).1
    have hstep := createVesting_reward_balanced hexact (percentOf_range hexact hshare) hu hs
    have htokens : tokens - (r - total) = tokens - share - (r - sum) := by omega
    rw [htokens]
    exact ih h hstep

/-- The curators, the beneficiaries and the author of a comment get what is claimed. -/
theorem payComment_balanced (hexact : fc.SafeExact) {comment : CommentObject}
    {percentCuration reward : ℕ} {r : ℤ} (h : Returns (payComment fc comment percentCuration reward) s r t)
    (hs : Balanced tokens 0 (books s)) : Balanced (tokens - r) 0 (books t) := by
  obtain ⟨_, -, h⟩ := h.lift_bind
  obtain ⟨_, -, h⟩ := h.lift_bind
  obtain ⟨curation, -, h⟩ := h.lift_bind
  obtain ⟨_, -, h⟩ := h.lift_bind
  obtain ⟨author₁, -, h⟩ := h.lift_bind
  obtain ⟨⟨unclaimed, paid⟩, s₁, h₁, h⟩ := h.bind
  obtain ⟨author₂, -, h⟩ := h.lift_bind
  obtain ⟨claimed, hclaimed, h⟩ := h.lift_bind
  obtain ⟨beneficiary, s₂, h₂, h⟩ := h.bind
  obtain ⟨author₃, hauthor, h⟩ := h.lift_bind
  obtain ⟨account, -, h⟩ := lookup_bind h
  obtain ⟨_, s₃, h₃, h⟩ := h.bind
  obtain ⟨_, s₄, h₄, h⟩ := h.bind
  obtain ⟨_, s₅, h₅, h⟩ := h.bind
  obtain ⟨_, s₆, h₆, h⟩ := h.bind
  obtain ⟨rfl, rfl⟩ := h.pure
  have hclaimed := (hexact.checked hclaimed).1
  have hauthor := hexact.checked hauthor
  have hb₁ : Balanced (tokens - paid) 0 (books s₁) := payCurators_balanced hexact h₁ hs
  have hb₂ := payBeneficiaries_balanced hexact h₂ hb₁
  have hb₃ := createVesting_reward_balanced hexact hauthor.2.1 h₃ hb₂
  have hframe := sameBooks_stepFrame.toQuietFrame
  have hbooks₄ : SameBooks s₃ s₄ := (modifyComment_keeps hframe _ _).rel _ _ _ h₄
  have hbooks₅ : SameBooks s₄ s₅ := (modifyComment_keeps hframe _ _).rel _ _ _ h₅
  have hbooks₆ : SameBooks s₅ t := by
    refine (modifyAccount_keeps (sameBooks_stepFrame.toVoteFrame fc) fun a b hab => ?_).rel _ _ _ h₆
    obtain ⟨rewards, -, hab⟩ := bind_eq_ok hab
    rw [← Except.ok.inj hab]
    rfl
  have htokens : tokens - r = tokens - paid - (beneficiary - 0) - author₃ := by omega
  rw [htokens]
  exact hbooks₆.balanced (hbooks₅.balanced (hbooks₄.balanced hb₃))

/-- The reward of a comment takes its tokens from those that are held nowhere. -/
theorem rewardComment_balanced (hexact : fc.SafeExact) {fund : RewardFundContext}
    {comment : CommentObject} {r : ℤ} (h : Returns (rewardComment fc fund comment) s r t)
    (hs : Balanced tokens 0 (books s)) : Balanced (tokens - r) 0 (books t) := by
  have hnothing : ∀ {u : ChainState}, Balanced tokens 0 (books u) →
      Returns (Pure.pure 0 : Chain ℤ) u r t → Balanced (tokens - r) 0 (books t) := by
    intro u hu hpure
    obtain ⟨rfl, rfl⟩ := hpure.pure
    have hzero : tokens - 0 = tokens := by omega
    rwa [hzero]
  unfold rewardComment at h
  split at h
  · obtain ⟨rf, -, h⟩ := lookup_bind h
    obtain ⟨reward, -, h⟩ := h.lift_bind
    split at h
    · exact payComment_balanced hexact h hs
    · exact hnothing hs h
  · exact hnothing hs h

/-- The payout of a comment takes its tokens from those that are held nowhere. -/
theorem cashoutCommentHelper_balanced (hexact : fc.SafeExact) {fund : RewardFundContext}
    {comment : CommentObject} {r : ℤ} (h : Returns (cashoutCommentHelper fc fund comment) s r t)
    (hs : Balanced tokens 0 (books s)) : Balanced (tokens - r) 0 (books t) := by
  obtain ⟨claimed, u, hu, h⟩ := h.bind
  have hstep := rewardComment_balanced hexact hu hs
  have h := h.gets_bind
  obtain ⟨_, v, hv, h⟩ := h.bind
  obtain ⟨c, -, h⟩ := lookup_bind h
  obtain ⟨_, w, hw, h⟩ := h.bind
  obtain ⟨rfl, rfl⟩ := h.pure
  have hframe := sameBooks_stepFrame.toQuietFrame
  have hbooks : SameBooks u v := (modifyComment_keeps hframe _ _).rel _ _ _ hv
  have hbooks' : SameBooks v t := by
    rcases hw.whenever with ⟨-, hw⟩ | ⟨-, rfl⟩
    · have hkeeps : ∀ votes : List CommentVoteObject, Keeps SameBooks
          (forEach (fun v => modifyCommentVote v.id fun cvo =>
            .ok { cvo with numChanges := -1 }) votes) :=
        .forEach fun v => modifyCommentVote_keeps hframe _ _
      exact (hkeeps _).rel _ _ _ hw.gets_bind
    · rfl
  exact hbooks'.balanced (hbooks.balanced hstep)

/-- What the funds of a payout round have awarded. -/
def awarded (funds : List RewardFundContext) : ℤ := (funds.map (·.steemAwarded)).sum

/-- A changed fund changes what is awarded by its own difference. -/
theorem awarded_set {funds : List RewardFundContext} {id : ℕ} {fund : RewardFundContext}
    (h : fundAt funds id = .ok fund) (new : RewardFundContext) :
    awarded (funds.set id new) = awarded funds + (new.steemAwarded - fund.steemAwarded) := by
  induction funds generalizing id with
  | nil => cases h
  | cons first rest ih =>
    cases id with
    | zero =>
      have hfirst : first = fund := Except.ok.inj h
      simp only [awarded, List.set_cons_zero, List.map_cons, List.sum_cons, hfirst]
      omega
    | succ id =>
      have hrest := ih h
      simp only [awarded, List.set_cons_succ, List.map_cons, List.sum_cons] at *
      omega

/-- The decay of the funds keeps the books and awards nothing. -/
theorem decayFunds_balanced {now : TimePointSec} {rows : List RewardFundObject}
    {r : List RewardFundContext} (h : Returns (decayFunds now rows) s r t)
    (hs : Balanced tokens shares (books s)) :
    awarded r = 0 ∧ Balanced tokens shares (books t) := by
  induction rows generalizing s r with
  | nil =>
    obtain ⟨rfl, rfl⟩ := h.pure
    exact ⟨rfl, hs⟩
  | cons rf rest ih =>
    obtain ⟨_, u, hu, h⟩ := h.bind
    obtain ⟨found, -, h⟩ := lookup_bind h
    obtain ⟨funds, v, hv, h⟩ := h.bind
    obtain ⟨rfl, rfl⟩ := h.pure
    have hstep : Balanced (tokens - 0) shares (books u) := by
      refine modifyRewardFund_balanced hu (fun a b hab => ?_) hs
      unfold decayed at hab
      dsimp only at hab
      split at hab
      · obtain ⟨decay, -, hab⟩ := bind_eq_ok hab
        rw [← Except.ok.inj hab]
        simp
      · rw [← Except.ok.inj hab]
        simp
    rw [Int.sub_zero] at hstep
    obtain ⟨hzero, hbalanced⟩ := ih hv hstep
    refine ⟨?_, hbalanced⟩
    simpa [awarded] using hzero

/-- Adding up the claims keeps what is awarded and the state. -/
theorem addClaims_awarded {funds r : List RewardFundContext} {due : List CommentObject}
    (h : Returns (addClaims funds due) s r t) : awarded r = awarded funds ∧ t = s := by
  induction due generalizing funds with
  | nil =>
    obtain ⟨rfl, rfl⟩ := h.pure
    exact ⟨rfl, rfl⟩
  | cons comment rest ih =>
    unfold addClaims at h
    split at h
    · obtain ⟨rf, -, h⟩ := lookup_bind h
      obtain ⟨fund, hfund, h⟩ := h.lift_bind
      obtain ⟨claim, -, h⟩ := h.lift_bind
      obtain ⟨hrest, ht⟩ := ih h
      have hset := awarded_set hfund
        { fund with recentClaims := uint128Add fund.recentClaims claim }
      refine ⟨?_, ht⟩
      rw [hrest, hset]
      simp
    · exact ih h

/-- Looking for a due comment keeps the state. -/
theorem dueComment_same {r : Option CommentObject} (h : Returns dueComment s r t) : t = s :=
  (Returns.pure h.gets_bind.gets_bind).2

/-- The loop of the payouts takes what it awards from the tokens that are held nowhere. -/
theorem payDueComments_balanced (hexact : fc.SafeExact) {rounds : ℕ}
    {funds r : List RewardFundContext} (h : Returns (payDueComments fc rounds funds) s r t)
    (hs : Balanced tokens 0 (books s)) :
    Balanced (tokens - (awarded r - awarded funds)) 0 (books t) := by
  have hdone : ∀ {funds : List RewardFundContext} {u : ChainState} {tokens : ℤ},
      Balanced tokens 0 (books u) → Returns (Pure.pure funds : Chain _) u r t →
        Balanced (tokens - (awarded r - awarded funds)) 0 (books t) := by
    intro funds u tokens hu hpure
    obtain ⟨rfl, rfl⟩ := hpure.pure
    have hzero : tokens - (awarded r - awarded r) = tokens := by omega
    rwa [hzero]
  induction rounds generalizing s funds tokens with
  | zero =>
    obtain ⟨current, u, hu, h⟩ := h.bind
    rw [dueComment_same hu] at h
    cases current with
    | none => exact hdone hs h
    | some comment => cases h
  | succ rounds ih =>
    obtain ⟨current, u, hu, h⟩ := h.bind
    rw [dueComment_same hu] at h
    cases current with
    | none => exact hdone hs h
    | some comment =>
      obtain ⟨rf, -, h⟩ := lookup_bind h
      obtain ⟨fund, hfund, h⟩ := h.lift_bind
      obtain ⟨claimed, v, hv, h⟩ := h.bind
      obtain ⟨sum, hsum, h⟩ := h.lift_bind
      have hsum := (hexact.checked hsum).1
      have hstep := cashoutCommentHelper_balanced hexact hv hs
      have hset := awarded_set hfund { fund with steemAwarded := sum }
      have hrest := ih h hstep
      have htokens : tokens - (awarded r - awarded funds) = tokens - claimed -
          (awarded r - awarded (funds.set rf.id { fund with steemAwarded := sum })) := by
        rw [hset]
        change _ = tokens - claimed - (awarded r - (awarded funds + (sum - fund.steemAwarded)))
        omega
      rw [htokens]
      exact hrest

/-- Writing the funds settles what was awarded. -/
theorem writeFunds_balanced (hexact : fc.SafeExact) {id : ℕ} {funds : List RewardFundContext}
    {u : Unit} (h : Returns (writeFunds fc id funds) s u t) (hs : Balanced tokens shares (books s)) :
    Balanced (tokens + awarded funds) shares (books t) := by
  induction funds generalizing id s tokens with
  | nil =>
    obtain ⟨-, rfl⟩ := Returns.pure h
    simpa [awarded] using hs
  | cons fund rest ih =>
    obtain ⟨_, v, hv, h⟩ := h.bind
    have hstep : Balanced (tokens - -fund.steemAwarded) shares (books v) := by
      refine modifyRewardFund_balanced hv (fun a b hab => ?_) hs
      obtain ⟨balance, hbalance, hab⟩ := bind_eq_ok hab
      have hbalance : balance = a.rewardBalance - fund.steemAwarded :=
        (decrease_eq_ok hexact hbalance).1
      rw [← Except.ok.inj hab]
      change balance = a.rewardBalance + -fund.steemAwarded
      omega
    have hrest := ih h hstep
    have htokens : tokens + awarded (fund :: rest) =
        tokens - -fund.steemAwarded + awarded rest := by
      simp only [awarded, List.map_cons, List.sum_cons]
      omega
    rw [htokens]
    exact hrest

/-- The payout of the due comments takes from the funds what it pays. -/
theorem processCommentCashout_balanced (hexact : fc.SafeExact) {u : Unit}
    (h : Returns (processCommentCashout fc) s u t) (hs : Balanced tokens 0 (books s)) :
    Balanced tokens 0 (books t) := by
  have h := h.gets_bind
  obtain ⟨funds₁, s₁, h₁, h⟩ := h.gets_bind.bind
  obtain ⟨funds₂, s₂, h₂, h⟩ := h.gets_bind.bind
  obtain ⟨funds₃, s₃, h₃, h⟩ := h.bind
  obtain ⟨hzero, hb₁⟩ := decayFunds_balanced h₁ hs
  obtain ⟨hsame, hstate⟩ := addClaims_awarded h₂
  rw [hstate] at h₃
  have hb₃ := payDueComments_balanced hexact h₃ hb₁
  have hb₄ := writeFunds_balanced hexact h hb₃
  have htokens : tokens = tokens - (awarded funds₃ - awarded funds₂) + awarded funds₃ := by omega
  rw [htokens]
  exact hb₄

end Payout

end Whaleshares.RewardLedger
