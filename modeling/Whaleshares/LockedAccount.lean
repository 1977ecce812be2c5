import Whaleshares.AuthorityCheck
import Whaleshares.Footprint
import Whaleshares.Genesis

/-!
# The null account acts for nobody

The active and the owner authority of the null account need a weight that no key and no
account can give, so no transaction that passes its authority check acts for it. Only the
account itself could change its authorities, so they stay as they are.
-/

namespace Whaleshares.LockedAccount

open Config Fc Protocol Objects Program Database SignState AuthorityDerivation AuthorityCheck
  Vesting Evaluators CommentEvaluators ApplyBlock Genesis Footprint

section Search

/-- An authority that nothing meets. -/
structure Unmeetable (auth : Authority) : Prop where
  keyAuths : auth.keyAuths = []
  accountAuths : auth.accountAuths = []
  weightThreshold : 0 < auth.weightThreshold

variable {getter : AuthorityGetter} {availableKeys : List PublicKey} {depth : ℕ}
  {auth : Authority} {name : AccountName} {s t : State} {approved : Bool}

/-- Nothing in the state of a search says that the account approves. -/
def Barred (name : AccountName) (s : State) : Prop := name ∉ s.approvedBy

/-- An authority that cannot be met is not. -/
theorem checkAuthority_unmeetable (h : Unmeetable auth) (s : State) :
    checkAuthority getter availableKeys depth auth s = .ok (false, s) := by
  have hthreshold : ¬auth.weightThreshold ≤ 0 := by
    have := h.weightThreshold
    omega
  cases depth <;>
    simp [checkAuthority, h.keyAuths, h.accountAuths, checkKeys, checkAccounts, hthreshold]

/-- The scan of the keys approves no account. -/
theorem checkKeys_approvedBy (availableKeys : List PublicKey) (threshold total : ℕ)
    (entries : List (PublicKey × ℕ)) (s : State) :
    (checkKeys availableKeys threshold total entries s).2.approvedBy = s.approvedBy := by
  induction entries generalizing total s with
  | nil => rfl
  | cons entry rest ih =>
    obtain ⟨key, w⟩ := entry
    obtain ⟨-, happroved, -⟩ := signedBy_spec availableKeys key s
    unfold checkKeys
    cases hsigned : signedBy availableKeys key s with
    | mk signs s' =>
      rw [hsigned] at happroved
      cases signs with
      | true =>
        simp only
        split
        next => exact happroved
        next => exact (ih _ s').trans happroved
      | false => exact (ih _ s').trans happroved

/-- A check after which the account is still barred and whose authority can be met. -/
def BarringCheck (name : AccountName) (check : Check) : Prop :=
  ∀ auth s approved t, Barred name s → check auth s = .ok (approved, t) →
    Barred name t ∧ (approved = true → ¬Unmeetable auth)

/-- The scan of the accounts keeps the account out of the approved ones. -/
theorem checkAccounts_barred {check : Option Check} {threshold total : ℕ}
    {entries : List (AccountName × ℕ)} (hgetter : ∀ auth, getter name = .ok auth → Unmeetable auth)
    (hcheck : ∀ c ∈ check, BarringCheck name c) (hs : Barred name s)
    (h : checkAccounts getter check threshold total entries s = .ok (approved, t)) :
    Barred name t := by
  induction entries generalizing total s with
  | nil =>
    have hpair : (decide (threshold ≤ total), s) = (approved, t) := Except.ok.inj h
    cases hpair
    exact hs
  | cons entry rest ih =>
    obtain ⟨account, w⟩ := entry
    have hadd : ∀ s', Barred name s' →
        (if threshold ≤ (total + w) % 2 ^ 32 then .ok (true, s')
          else checkAccounts getter check threshold ((total + w) % 2 ^ 32) rest s') =
          .ok (approved, t) → Barred name t := by
      intro s' hs' h
      split at h
      next =>
        have hpair : (true, s') = (approved, t) := Except.ok.inj h
        cases hpair
        exact hs'
      next => exact ih hs' h
    unfold checkAccounts at h
    split at h
    next => exact hadd s hs h
    next =>
      cases check with
      | none => exact ih hs h
      | some c =>
        obtain ⟨auth, hauth, h⟩ := bind_eq_ok h
        obtain ⟨⟨passed, s'⟩, hpair, h⟩ := bind_eq_ok h
        obtain ⟨hs', hmet⟩ := hcheck c rfl auth s passed s' hs hpair
        cases passed with
        | true =>
          refine hadd _ ?_ h
          intro hmem
          rcases List.mem_append.mp hmem with hmem | hmem
          · exact hs' hmem
          · rw [← List.mem_singleton.mp hmem] at hauth
            exact hmet rfl (hgetter auth hauth)
        | false => exact ih hs' h

/-- A search keeps the account out of the approved ones. -/
theorem searchWith_barred {below : Option Check}
    (hgetter : ∀ auth, getter name = .ok auth → Unmeetable auth)
    (hbelow : ∀ c ∈ below, BarringCheck name c) (hs : Barred name s)
    (h : searchWith getter availableKeys below auth s = .ok (approved, t)) : Barred name t := by
  have hkeys := checkKeys_approvedBy availableKeys auth.weightThreshold 0 auth.keyAuths s
  unfold searchWith at h
  split at h
  next s' heq =>
    rw [heq] at hkeys
    have hpair : (true, s') = (approved, t) := Except.ok.inj h
    cases hpair
    unfold Barred
    rwa [hkeys]
  next total s' heq =>
    rw [heq] at hkeys
    refine checkAccounts_barred hgetter hbelow (s := s') ?_ h
    unfold Barred
    rwa [hkeys]

/-- The search never finds that an account approves whose authority nothing meets. -/
theorem checkAuthority_barred (hgetter : ∀ auth, getter name = .ok auth → Unmeetable auth)
    (depth : ℕ) : BarringCheck name (checkAuthority getter availableKeys depth) := by
  induction depth with
  | zero =>
    intro auth s approved t hs h
    refine ⟨?_, fun happroved hlocked => ?_⟩
    · rw [checkAuthority_zero] at h
      exact searchWith_barred hgetter (by simp) hs h
    · rw [checkAuthority_unmeetable hlocked] at h
      cases h
      cases happroved
  | succ depth ih =>
    intro auth s approved t hs h
    refine ⟨?_, fun happroved hlocked => ?_⟩
    · rw [checkAuthority_succ] at h
      exact searchWith_barred hgetter (by simpa using ih) hs h
    · rw [checkAuthority_unmeetable hlocked] at h
      cases h
      cases happroved

end Search

section Tests

variable {getActive getOwner getPosting : AuthorityGetter} {name id : AccountName} {depth : ℕ}

/-- The check of an authority keeps the account out and passes only what can be met. -/
theorem checkAuthorityOf_barred {source : Except Exc Authority}
    (hgetter : ∀ auth, getActive name = .ok auth → Unmeetable auth) :
    Passes (Barred name) (∃ auth, source = .ok auth ∧ ¬Unmeetable auth)
      (checkAuthorityOf getActive [] depth source) := by
  intro s approved t hs h
  obtain ⟨auth, hauth, h⟩ := h.lift_bind
  obtain ⟨ht, hmet⟩ := checkAuthority_barred hgetter depth auth s approved t hs h
  exact ⟨ht, fun happroved => ⟨auth, hauth, hmet happroved⟩⟩

/-- The check of an account keeps the other out and passes only different ones. -/
theorem checkAccount_barred (hgetter : ∀ auth, getActive name = .ok auth → Unmeetable auth) :
    Passes (Barred name) (id ≠ name) (checkAccount getActive [] depth id) := by
  intro s approved t hs h
  unfold Returns checkAccount at h
  split at h
  next hcached =>
    have hpair : (true, s) = (approved, t) := Except.ok.inj h
    cases hpair
    refine ⟨hs, fun _ hid => hs ?_⟩
    rw [← hid]
    simpa using hcached
  next =>
    obtain ⟨ht, hmet⟩ := checkAuthorityOf_barred hgetter s approved t hs h
    refine ⟨ht, fun happroved hid => ?_⟩
    obtain ⟨auth, hauth, hcan⟩ := hmet happroved
    exact hcan (hgetter auth (hid ▸ hauth))

/-- A transaction whose check returns does not act for an account that is locked. -/
theorem verifyAuthority_barred {ops : List Operation} {sigs : List PublicKey}
    (hname : name ≠ tempName) (hactive : ∀ auth, getActive name = .ok auth → Unmeetable auth)
    (howner : ∀ auth, getOwner name = .ok auth → Unmeetable auth)
    (h : verifyAuthority getActive getOwner getPosting ops sigs = .ok ()) :
    ∀ op ∈ ops, name ∉ op.requiredAuthorities.active ∧ name ∉ op.requiredAuthorities.owner := by
  intro op hop
  unfold verifyAuthority at h
  simp only at h
  split at h
  next =>
    obtain ⟨_, hactiveNil, h⟩ := bind_eq_ok h
    obtain ⟨_, hownerNil, h⟩ := bind_eq_ok h
    have hactiveNil := of_decide_eq_true (fcAssert_eq_ok hactiveNil)
    have hownerNil := of_decide_eq_true (fcAssert_eq_ok hownerNil)
    refine ⟨fun hmem => ?_, fun hmem => ?_⟩
    · have hmem := mem_requiredOf (f := (·.active)) hop hmem
      rw [hactiveNil] at hmem
      cases hmem
    · have hmem := mem_requiredOf (f := (·.owner)) hop hmem
      rw [hownerNil] at hmem
      cases hmem
  next =>
    obtain ⟨pair, hpair, -⟩ := bind_eq_ok h
    obtain ⟨_, s₁, h₁, hpair⟩ := Returns.bind hpair
    obtain ⟨_, s₂, h₂, hpair⟩ := Returns.bind hpair
    have hinit : Barred name (.init sigs) := by
      intro hmem
      exact hname (List.mem_singleton.mp hmem)
    have hbyOwner : ∀ id, Passes (Barred name) (id ≠ name)
        (checkAuthorityOf getActive [] wlsMaxSigCheckDepth (getOwner id)) := fun id =>
      (checkAuthorityOf_barred hactive).imp fun ⟨auth, hauth, hcan⟩ hid =>
        hcan (howner auth (hid ▸ hauth))
    obtain ⟨hs₁, -⟩ := forEach_passes hinit (fun _ _ => checkAuthorityOf_barred hactive) h₁
    obtain ⟨hs₂, hactives⟩ := forEach_passes (Q := (· ≠ name)) hs₁ (fun id _ => by
      refine anyOf_passes fun test htest => ?_
      simp only [List.mem_cons, List.not_mem_nil, or_false] at htest
      rcases htest with rfl | rfl
      · exact checkAccount_barred hactive
      · exact hbyOwner id) h₂
    obtain ⟨-, howners⟩ := forEach_passes (Q := (· ≠ name)) hs₂ (fun id _ => hbyOwner id) hpair
    exact ⟨fun hmem => hactives name (mem_requiredOf hop hmem) rfl,
      fun hmem => howners name (mem_requiredOf hop hmem) rfl⟩

end Tests

section Chain

variable {s t : ChainState} {ctx : Context} {u : Unit}

/-- Nobody can act for the null account. -/
def Locked (s : ChainState) : Prop :=
  ∃ auth, s.accountAuthorities.find (fun auth => auth.account = nullAccount) = some auth ∧
    Unmeetable auth.active ∧ Unmeetable auth.owner

/-- A transaction that passes its checks requires no authority of the null account. -/
theorem checkAuthorities_null {trx : SignedTransaction} (hs : Locked s)
    (h : checkAuthorities ctx trx s = .ok ()) : ∀ op ∈ trx.operations,
      nullAccount ∉ op.requiredAuthorities.active ∧ nullAccount ∉ op.requiredAuthorities.owner := by
  obtain ⟨auth, hauth, hactive, howner⟩ := hs
  obtain ⟨_, -, h⟩ := bind_eq_ok h
  have hgetter : ∀ (f : AccountAuthorityObject → Authority), Unmeetable (f auth) →
      ∀ a, authorityOf s f nullAccount = .ok a → Unmeetable a := by
    intro f hf a ha
    unfold authorityOf at ha
    rw [hauth] at ha
    have ha : f auth = a := Except.ok.inj ha
    rwa [← ha]
  refine verifyAuthority_barred ?_ (hgetter (·.active) hactive) (hgetter (·.owner) howner) h
  decide

/-- The authorities of all accounts are the same. -/
def SameAuthorities (s t : ChainState) : Prop := t.accountAuthorities = s.accountAuthorities

instance : IsPreorder ChainState SameAuthorities where
  refl _ := rfl
  trans _ _ _ hst htu := Eq.trans htu hst

/-- With the same authorities the account stays locked. -/
theorem SameAuthorities.locked (h : SameAuthorities s t) (hs : Locked s) : Locked t := by
  unfold Locked
  rw [show t.accountAuthorities = s.accountAuthorities from h]
  exact hs

/-- The quiet routines keep the authorities. -/
theorem sameAuthorities_quietFrame : QuietFrame SameAuthorities where
  quietAccounts _ _ _ _ := rfl
  comments _ _ := rfl
  commentVotes _ _ := rfl
  withdrawVestingRoutes _ _ := rfl
  transactions _ _ := rfl
  quietWitnesses _ _ _ _ := rfl

/-- Operations on stakes keep the authorities. -/
theorem sameAuthorities_stakeFrame (fc : FcLib) : StakeFrame fc SameAuthorities where
  toQuietFrame := sameAuthorities_quietFrame
  rewardAccounts _ _ _ _ := rfl
  rewardFunds _ _ := rfl
  rewardTotals _ _ _ _ := rfl
  ballots _ _ _ := rfl
  witnessVotes _ _ := rfl
  tallies _ _ _ _ _ := rfl
  anyAccounts _ _ := rfl
  totals _ _ _ := rfl

/-- The routines before the schedule keep the authorities. -/
theorem sameAuthorities_headerFrame : HeaderFrame SameAuthorities where
  toQuietFrame := sameAuthorities_quietFrame
  header _ _ _ := rfl
  signed _ _ _ _ := rfl
  blockSummaries _ _ := rfl

/-- The turns of the witnesses keep the authorities. -/
theorem sameAuthorities_turnFrame : TurnFrame SameAuthorities where
  turns _ _ _ _ := rfl
  blockSize _ _ := rfl
  wso _ _ _ := rfl
  hardforks _ _ := rfl

/-- A change of the authorities of another account. -/
theorem modifyAccountAuthority_locked {account : AccountName}
    {f : AccountAuthorityObject → AccountAuthorityObject} (haccount : account ≠ nullAccount)
    (hf : ∀ auth, (f auth).account = auth.account)
    (h : Returns (modifyAccountAuthority account fun auth => .ok (f auth)) s u t)
    (hs : Locked s) : Locked t := by
  obtain ⟨x, hx, rfl⟩ := map_eq_ok h.update
  obtain ⟨before, a, b, after, hrows, hrows', -, ha, hab⟩ := Table.modify_rows hx
  have hfind : x.find (fun auth => auth.account = nullAccount) =
      s.accountAuthorities.find fun auth => auth.account = nullAccount := by
    have ha : a.account = account := by simpa using ha
    have hb : b.account = account := by rw [← Except.ok.inj hab, hf, ha]
    unfold Table.find
    rw [hrows, hrows', List.find?_append, List.find?_append]
    simp [ha, hb, haccount]
  obtain ⟨auth, hauth, hlocked⟩ := hs
  exact ⟨auth, hfind.trans hauth, hlocked⟩

/-- The authorities of a new account leave the null account locked. -/
theorem createAccountAuthority_locked {f : ℕ → Except Exc AccountAuthorityObject}
    (h : Returns (createAccountAuthority f) s u t) (hs : Locked s) : Locked t := by
  obtain ⟨x, hx, rfl⟩ := map_eq_ok h.update
  obtain ⟨row, -, -, hrows, -⟩ := Table.create_rows hx
  obtain ⟨auth, hauth, hlocked⟩ := hs
  refine ⟨auth, ?_, hlocked⟩
  unfold Table.find at hauth ⊢
  rw [hrows, List.find?_append, hauth]
  rfl

/-- `account_update` of another account leaves the null account locked. -/
theorem applyAccountUpdate_locked {o : AccountUpdateOperation} (hnull : o.account ≠ nullAccount)
    (h : Returns (applyAccountUpdate o) s u t) (hs : Locked s) : Locked t := by
  obtain ⟨_, -, h⟩ := h.lift_bind
  obtain ⟨_, -, h⟩ := h.lift_bind
  obtain ⟨_, -, h⟩ := lookup_bind h
  obtain ⟨_, -, h⟩ := lookup_bind h
  obtain ⟨_, s₁, h₁, h⟩ := h.bind
  obtain ⟨_, s₂, h₂, h⟩ := h.bind
  obtain ⟨_, s₃, h₃, h⟩ := h.bind
  obtain ⟨_, s₄, h₄, h⟩ := h.gets_bind.bind
  have hs₁ : Locked s₁ := by
    refine h₁.forEach hs fun owner _ x y hx hy => ?_
    obtain ⟨_, -, hy⟩ := lookup_bind hy
    obtain ⟨_, -, hy⟩ := hy.gets_bind.lift_bind
    obtain ⟨_, v, hv, hy⟩ := hy.bind
    have hsame : SameAuthorities x v := (checkAccountAuths_keeps _).rel _ _ _ hv
    exact modifyAccountAuthority_locked hnull (by intro; rfl) hy.gets_bind (hsame.locked hx)
  have hsame₂ : SameAuthorities s₁ s₂ := (Keeps.forEach checkAccountAuths_keeps _).rel _ _ _ h₂
  have hsame₃ : SameAuthorities s₂ s₃ := (Keeps.forEach checkAccountAuths_keeps _).rel _ _ _ h₃
  have hsame₄ : SameAuthorities s₃ s₄ :=
    (setAccount_keeps sameAuthorities_quietFrame fun _ => by rfl).rel _ _ _ h₄
  have hs₄ := hsame₄.locked (hsame₃.locked (hsame₂.locked hs₁))
  rcases h.whenever with ⟨-, h⟩ | ⟨-, rfl⟩
  · exact modifyAccountAuthority_locked hnull (by intro; rfl) h hs₄
  · exact hs₄

/-- `account_create` leaves the null account locked. -/
theorem applyAccountCreate_locked {o : AccountCreateOperation}
    (h : Returns (applyAccountCreate ctx o) s u t) (hs : Locked s) : Locked t := by
  have hR := sameAuthorities_stakeFrame ctx.env.toFcLib
  obtain ⟨s₁, s₂, s₃, hpays, hcreates, hauthorizes, hvests⟩ := applyAccountCreate_parts h
  have hsame₁ : SameAuthorities s s₁ := (modifyAnyAccount_keeps hR _ _).rel _ _ _ hpays
  have hsame₂ : SameAuthorities s₁ s₂ := (createAccount_keeps hR _).rel _ _ _ hcreates
  have hs₃ := createAccountAuthority_locked hauthorizes (hsame₂.locked (hsame₁.locked hs))
  rcases hvests with ⟨-, _, h⟩ | ⟨-, rfl⟩
  · have hsame₃ : SameAuthorities s₃ t := (createVesting_keeps _ hR _ _ _).rel _ _ _ h
    exact hsame₃.locked hs₃
  · exact hs₃

/-- Operations that neither create nor update an account leave all authorities as they are. -/
theorem applyOperation_authorities {op : Operation} (hcreate : ∀ o, op ≠ .accountCreate o)
    (hupdate : ∀ o, op ≠ .accountUpdate o) : Keeps SameAuthorities (applyOperation ctx op) := by
  have hstake := sameAuthorities_stakeFrame ctx.env.toFcLib
  have hquiet := hstake.toQuietFrame
  have hvote := hstake.toVoteFrame
  have hwitness : AllowsNewcomer SameAuthorities := fun _ _ _ _ _ _ _ _ => rfl
  by_cases hplain : isPlain op = true
  · exact applyOperation_plain hquiet hplain
  cases op with
  | transfer o => exact applyTransfer_keeps hstake o
  | transferToVesting o => exact applyTransferToVesting_keeps hstake o
  | accountCreate o => exact absurd rfl (hcreate o)
  | accountUpdate o => exact absurd rfl (hupdate o)
  | witnessUpdate o => exact applyWitnessUpdate_keeps hquiet hwitness ctx o
  | accountWitnessVote o => exact applyAccountWitnessVote_keeps hvote o
  | accountWitnessProxy o => exact applyAccountWitnessProxy_keeps hvote o
  | claimRewardBalance o => exact applyClaimRewardBalance_keeps hstake o
  | _ => exact absurd rfl hplain

/-- An operation that does not act for the null account leaves it locked. -/
theorem applyOperation_locked {op : Operation} (hactive : nullAccount ∉ op.requiredAuthorities.active)
    (howner : nullAccount ∉ op.requiredAuthorities.owner) (h : Returns (applyOperation ctx op) s u t)
    (hs : Locked s) : Locked t := by
  by_cases hcreate : ∃ o, op = .accountCreate o
  · obtain ⟨o, rfl⟩ := hcreate
    exact applyAccountCreate_locked h hs
  by_cases hupdate : ∃ o, op = .accountUpdate o
  · obtain ⟨o, rfl⟩ := hupdate
    refine applyAccountUpdate_locked (fun haccount => ?_) h hs
    simp only [Operation.requiredAuthorities] at hactive howner
    split at hactive
    next hsome =>
      rw [if_pos hsome] at howner
      exact howner (List.mem_singleton.mpr haccount.symm)
    next => exact hactive (List.mem_singleton.mpr haccount.symm)
  · have hkeeps : Keeps SameAuthorities (applyOperation ctx op) :=
      applyOperation_authorities (fun o heq => hcreate ⟨o, heq⟩) fun o heq => hupdate ⟨o, heq⟩
    exact SameAuthorities.locked (hkeeps.rel _ _ _ h) hs

/-- What a block does after its transactions leaves all authorities as they are. -/
theorem applyBlockBack_authorities (b : SignedBlock) :
    Keeps SameAuthorities (applyBlockBack ctx b) := by
  have hstake := sameAuthorities_stakeFrame ctx.env.toFcLib
  exact .bind (createBlockSummary_keeps ctx sameAuthorities_headerFrame.blockSummaries b) fun _ =>
    .bind (clearExpiredTransactions_keeps hstake.toQuietFrame) fun _ =>
    .bind (updateWitnessSchedule_keeps sameAuthorities_turnFrame) fun _ =>
    afterSchedule_keeps ctx hstake

/-- The null account of genesis is locked. -/
theorem locked_initGenesis (env : Env) (initSupply : ℕ) : Locked (initGenesis env initSupply) := by
  have hminer : minerAccount ≠ nullAccount := by decide
  refine ⟨systemAuthorities 1 nullAccount 1, ?_, ⟨rfl, rfl, Nat.one_pos⟩, ⟨rfl, rfl, Nat.one_pos⟩⟩
  simp [Table.find, initGenesis, genesisAuthorities, systemAuthorities, hminer]

end Chain

end Whaleshares.LockedAccount
