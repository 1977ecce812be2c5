import Whaleshares.ElectionRun

/-!
# The accounts behind a proxy

In a state with counted votes the proxied votes of an account are, level by level, the
shares of the accounts whose chain of proxies reaches it in so many steps, and the weights
of the accounts without a proxy make up the total of the shares, but for what is more
levels below than an account keeps.
-/

namespace Whaleshares.ProxyAccounting

open Config Fc Assets Protocol Objects Program Database Vesting Evaluators ApplyBlock Genesis
  ChainRun Ledger Conservation Forest ElectoralRoll Tally VoteLedger ElectionRun

section Sums

variable {s : ChainState}

/-- The names of the accounts. -/
def names (s : ChainState) : Finset AccountName := (s.accounts.rows.map (·.name)).toFinset

/-- The names are those of the accounts. -/
theorem mem_names {name : AccountName} :
    name ∈ names s ↔ ∃ a ∈ s.accounts.rows, a.name = name := by
  simp [names]

/-- A sum over accounts is a sum over their names. -/
theorem sum_rows (hnames : (s.accounts.rows.map (·.name)).Nodup) (f : AccountName → ℤ) :
    (s.accounts.rows.map fun a => f a.name).sum = ∑ n ∈ names s, f n := by
  rw [names, List.sum_toFinset f hnames, List.map_map]
  rfl

/-- A sum over some rows is the sum with zero for the others. -/
theorem sum_filter_rows {α : Type} (rows : List α) (p : α → Prop) [DecidablePred p] (f : α → ℤ) :
    ((rows.filter fun a => p a).map f).sum = (rows.map fun a => if p a then f a else 0).sum := by
  induction rows with
  | nil => rfl
  | cons a rest ih =>
    by_cases ha : p a
    · simp [ha, ih]
    · simp [ha, ih]

/-- A sum over some accounts is a sum over their names. -/
theorem sum_some_rows (hnames : (s.accounts.rows.map (·.name)).Nodup) {f : AccountObject → ℤ}
    {g : AccountName → ℤ} {p : AccountObject → Prop} {q : AccountName → Prop} [DecidablePred p]
    [DecidablePred q] (hpq : ∀ a ∈ s.accounts.rows, p a ↔ q a.name)
    (hfg : ∀ a ∈ s.accounts.rows, f a = g a.name) :
    ((s.accounts.rows.filter fun a => p a).map f).sum = ∑ n ∈ names s with q n, g n := by
  rw [sum_filter_rows, Finset.sum_filter, ← sum_rows hnames]
  refine congrArg List.sum (List.map_congr_left fun a ha => ?_)
  rw [hfg a ha]
  exact if_congr (hpq a ha) rfl rfl

/-- The proxy of an account is the one that it has set. -/
theorem proxyOf_account (hvalid : (roll s).Valid) {a : AccountObject} (ha : a ∈ s.accounts.rows) :
    (roll s).proxyOf a.name = if a.proxy = .empty then none else some a.proxy :=
  Roll.proxyOf_of_mem hvalid.names (mem_entries ha)

/-- The proxies of accounts are accounts. -/
theorem closed_names (hvalid : (roll s).Valid) : Closed (names s) (roll s).proxyOf := by
  intro n _ m hm
  obtain ⟨e, he, -, hproxy, hne⟩ := Roll.proxyOf_eq_some hm
  obtain ⟨p, hp, hpname⟩ := hvalid.proxies e he (hproxy ▸ hne)
  obtain ⟨a, ha, rfl⟩ := List.mem_map.mp hp
  exact mem_names.mpr ⟨a, ha, hpname.trans hproxy⟩

end Sums

section Levels

variable {s : ChainState} {a : AccountObject}

/-- With counted votes, the amounts that accounts pass on collect along the proxies. -/
theorem counted_collects (hs : Counted s) :
    ∃ amount : ℕ → AccountName → ℤ,
      Collects (names s) (roll s).proxyOf wlsMaxProxyRecursionDepth amount ∧
      ∀ a ∈ s.accounts.rows, ∀ level ≤ wlsMaxProxyRecursionDepth,
        amount level a.name = passed a level := by
  obtain ⟨told, hsettled, htold⟩ := hs.owes
  have hpassed : ∀ a ∈ s.accounts.rows, ∀ level ≤ wlsMaxProxyRecursionDepth,
      told a.name level = passed a level := by
    intro a ha level hlevel
    have hlevel := htold a ha level hlevel
    simp only [Pi.zero_apply, add_zero] at hlevel
    exact hlevel.symm
  refine ⟨fun level n => told n level, fun n hn level hlevel => ?_, hpassed⟩
  obtain ⟨a, ha, rfl⟩ := mem_names.mp hn
  have hnext : passed a (level + 1) = inflow told (roll s) a.name level := by
    change a.proxiedVsfVotes.getD level 0 = _
    rw [hsettled.proxied a ha, List.getD_eq_getElem?_getD, List.getElem?_map,
      List.getElem?_range hlevel]
    rfl
  have hinflow : inflow told (roll s) a.name level =
      (s.accounts.rows.map fun c => if c.proxy = a.name then told c.name level else 0).sum := by
    unfold inflow
    change ((s.accounts.rows.map entry).map _).sum = _
    rw [List.map_map]
    rfl
  change told a.name (level + 1) = ∑ m ∈ names s with _, told m level
  rw [hpassed a ha (level + 1) hlevel, hnext, hinflow, ← sum_filter_rows]
  refine sum_some_rows (accounts_names hs.valid) (fun c hc => ?_) fun _ _ => rfl
  have hname := name_ne_empty hs.valid ha
  rw [proxyOf_account hs.valid hc]
  by_cases hproxy : c.proxy = .empty
  · simp [hproxy, Ne.symm hname]
  · simp [hproxy]

/-- The proxied votes of an account, by level. -/
theorem counted_proxied (hs : Counted s) (ha : a ∈ s.accounts.rows) {level : ℕ}
    (hlevel : level < wlsMaxProxyRecursionDepth) :
    a.proxiedVsfVotes.getD level 0 = ((s.accounts.rows.filter fun b =>
      climb (roll s).proxyOf (level + 1) b.name = some a.name).map (·.vestingShares)).sum := by
  obtain ⟨amount, hcollects, hamount⟩ := counted_collects hs
  have hname : a.name ∈ names s := mem_names.mpr ⟨a, ha, rfl⟩
  have hsum := hcollects.level (closed_names hs.valid) hname (show level + 1 ≤ _ from hlevel)
  rw [hamount a ha (level + 1) hlevel] at hsum
  refine hsum.trans (sum_some_rows (accounts_names hs.valid) (fun _ _ => Iff.rfl) ?_).symm
  intro b hb
  rw [hamount b hb 0 (Nat.zero_le _)]
  rfl

/-- The shares of all accounts are the weights of those without a proxy and the last level
of the others. -/
theorem counted_shares (hs : Counted s) :
    (s.accounts.rows.map (·.vestingShares)).sum =
      ((s.accounts.rows.filter fun a => a.proxy = .empty).map voteWeight).sum +
      ((s.accounts.rows.filter fun a => a.proxy ≠ .empty).map fun a =>
        a.proxiedVsfVotes.getD (wlsMaxProxyRecursionDepth - 1) 0).sum := by
  obtain ⟨amount, hcollects, hamount⟩ := counted_collects hs
  have hnames := accounts_names hs.valid
  have htotal := hcollects.total (closed_names hs.valid)
  have hproxy : ∀ a ∈ s.accounts.rows, a.proxy = .empty ↔ (roll s).proxyOf a.name = none := by
    intro a ha
    rw [proxyOf_account hs.valid ha]
    by_cases hempty : a.proxy = .empty <;> simp [hempty]
  have hroots : ((s.accounts.rows.filter fun a => a.proxy = .empty).map voteWeight).sum =
      ∑ n ∈ names s with (roll s).proxyOf n = none,
        ∑ level ∈ Finset.range (wlsMaxProxyRecursionDepth + 1), amount level n := by
    refine sum_some_rows hnames hproxy fun a ha => ?_
    obtain ⟨told, hsettled, -⟩ := hs.owes
    rw [← total_passed (hsettled.length ha)]
    exact total_congr fun level hlevel => (hamount a ha level hlevel).symm
  have hothers : ((s.accounts.rows.filter fun a => a.proxy ≠ .empty).map fun a =>
      a.proxiedVsfVotes.getD (wlsMaxProxyRecursionDepth - 1) 0).sum =
      ∑ n ∈ names s with (roll s).proxyOf n ≠ none, amount wlsMaxProxyRecursionDepth n := by
    refine sum_some_rows hnames (fun a ha => not_congr (hproxy a ha)) fun a ha => ?_
    rw [hamount a ha _ le_rfl]
    rfl
  have hall : (s.accounts.rows.map (·.vestingShares)).sum = ∑ n ∈ names s, amount 0 n := by
    rw [← sum_rows hnames]
    refine congrArg List.sum (List.map_congr_left fun a ha => ?_)
    rw [hamount a ha 0 (Nat.zero_le _)]
    rfl
  rw [hall, hroots, hothers, htotal]

end Levels

section Runs

/-- In a balanced state the total is the sum of all shares. -/
theorem inBalance_shares {s : ChainState} (hs : InBalance s) :
    s.dgp.totalVestingShares = (s.accounts.rows.map (·.vestingShares)).sum := by
  have hshares := hs.totalVestingShares
  simp only [Books.sum, books, totals, List.map_map] at hshares
  have hsame : (s.accounts.rows.map ((·.vestingShares) ∘ purse)).sum =
      (s.accounts.rows.map (·.vestingShares)).sum := rfl
  omega

/-- In every state that accepted blocks reach from `init_genesis`, if every proxy without a
size that an operation sets is the empty one: the proxies have no cycle, the proxied votes
of an account are by level the shares of the accounts whose proxies reach it in one step
more, and the total that `validate_invariants` adds up is that of the shares. -/
theorem proxied_votes_of_reaches {env : Env} {initSupply : ℕ} {calls : List BlockCall}
    {s : ChainState} (hexact : env.SafeExact) (hnamed : Named calls)
    (h : Reaches env initSupply calls s) :
    (∀ name steps, climb (roll s).proxyOf (steps + 1) name ≠ some name) ∧
    (∀ a ∈ s.accounts.rows, a.proxiedVsfVotes =
      (List.range wlsMaxProxyRecursionDepth).map fun i =>
        ((s.accounts.rows.filter fun b =>
          climb (roll s).proxyOf (i + 1) b.name = some a.name).map (·.vestingShares)).sum) ∧
    s.dgp.totalVestingShares =
      ((s.accounts.rows.filter fun a => a.proxy = .empty).map voteWeight).sum +
      ((s.accounts.rows.filter fun a => a.proxy ≠ .empty).map fun a =>
        a.proxiedVsfVotes.getD (wlsMaxProxyRecursionDepth - 1) 0).sum := by
  have hcounted : Counted s := (Reaches.voting hexact hnamed h).counted
  have hbalance : InBalance s :=
    Reaches.inBalance hexact (fun call hcall => (hnamed.checked call hcall).validate) h
  refine ⟨fun name steps => hcounted.valid.grounded.acyclic name steps, fun a ha => ?_, ?_⟩
  · obtain ⟨told, hsettled, -⟩ := hcounted.owes
    exact eq_map_range (hsettled.length ha) fun level hlevel => counted_proxied hcounted ha hlevel
  · rw [inBalance_shares hbalance]
    exact counted_shares hcounted

/-- The account `wls` turns tokens into shares, sets a proxy and votes for a witness if it
still can. -/
def vestAndFollow (proxy : AccountName) (votes : List AccountName) : SignedTransaction where
  refBlockNum := 0
  refBlockPrefix := 0
  expiration := wlsGenesisTime + 60
  operations :=
    [.transferToVesting { source := whaleshareAccount, target := .empty, amount := wls 200 },
      .accountWitnessProxy { account := whaleshareAccount, proxy := proxy }] ++
    votes.map fun witness =>
      .accountWitnessVote { account := whaleshareAccount, witness := witness, approve := true }
  signatures := [⟨0⟩]

/-- The call of the first block, with a transaction of `wls`. -/
def followCall (proxy : AccountName) (votes : List AccountName) : BlockCall :=
  sampleCall (sampleChain [vestAndFollow proxy votes] 0)

/-- A proxy that begins with a zero byte: it has no size and is not empty. -/
def hollowProxy : AccountName := .ofBytes [0, 97]

/-- A call with a proxy that has a size is named. -/
theorem followCall_named {proxy : AccountName} (hproxy : proxy.size ≠ 0) :
    Named [followCall proxy []] := by
  constructor
  · intro call hcall
    rw [List.mem_singleton.mp hcall]
    exact ⟨rfl, rfl, rfl⟩
  · intro call hcall trx htrx op hop o ho hsize
    rw [List.mem_singleton.mp hcall] at htrx
    have htrx : trx = vestAndFollow proxy [] := List.mem_singleton.mp htrx
    rw [htrx] at hop
    simp only [vestAndFollow, List.map_nil, List.append_nil, List.mem_cons, List.not_mem_nil,
      or_false] at hop
    rcases hop with rfl | rfl
    · cases ho
    · cases ho
      exact absurd hsize hproxy

/-- After a proxy is set the instance has its proxied votes. -/
theorem proxied_votes_of_reaches_follow :
    ∃ s, Reaches sampleEnv 1000000 [followCall (initMinerName 0) []] s ∧
      (∃ a ∈ s.accounts.rows, a.name = initMinerName 0 ∧ 0 < a.proxiedVsfVotes.getD 0 0) ∧
      ∀ name steps, climb (roll s).proxyOf (steps + 1) name ≠ some name := by
  have hends : endsIn (runBlocks sampleEnv [followCall (initMinerName 0) []])
      (initGenesis sampleEnv 1000000) (fun _ s => s.accounts.rows.any fun a =>
        a.name = initMinerName 0 && 0 < a.proxiedVsfVotes.getD 0 0) = true := by
    decide +kernel
  obtain ⟨_, s, hs, hvotes⟩ := returns_of_endsIn hends
  have hsize : (initMinerName 0).size ≠ 0 := by decide
  refine ⟨s, hs, by simpa using hvotes,
    (proxied_votes_of_reaches sampleEnv_safeExact (followCall_named hsize) hs).1⟩

/-- A proxy that begins with a zero byte is set although no account has its name, and the
shares of the account are counted nowhere. -/
theorem hollow_proxy_loses_shares :
    ∃ s, Reaches sampleEnv 1000000 [followCall hollowProxy []] s ∧
      Checked (followCall hollowProxy []).skip ∧
      s.dgp.totalVestingShares ≠
        ((s.accounts.rows.filter fun a => a.proxy = .empty).map voteWeight).sum +
        ((s.accounts.rows.filter fun a => a.proxy ≠ .empty).map fun a =>
          a.proxiedVsfVotes.getD (wlsMaxProxyRecursionDepth - 1) 0).sum := by
  have hends : endsIn (runBlocks sampleEnv [followCall hollowProxy []])
      (initGenesis sampleEnv 1000000) (fun _ s => decide (s.dgp.totalVestingShares ≠
        ((s.accounts.rows.filter fun a => a.proxy = .empty).map voteWeight).sum +
        ((s.accounts.rows.filter fun a => a.proxy ≠ .empty).map fun a =>
          a.proxiedVsfVotes.getD (wlsMaxProxyRecursionDepth - 1) 0).sum)) = true := by
    decide +kernel
  obtain ⟨_, s, hs, hlost⟩ := returns_of_endsIn hends
  exact ⟨s, hs, ⟨rfl, rfl, rfl⟩, of_decide_eq_true hlost⟩

end Runs

end Whaleshares.ProxyAccounting
