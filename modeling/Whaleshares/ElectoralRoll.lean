import Mathlib
import Whaleshares.Footprint
import Whaleshares.Forest

/-!
# The electoral roll

Who votes for witnesses and through whom: the accounts with their proxies and the number
of their votes, the witnesses, and the votes that were cast. The amounts behind the votes
are left out. Each change that the chain makes to the roll keeps it valid: names, ids and
votes are unique, proxies exist and form no cycle, an account with a proxy casts no vote,
and the counters agree with the votes.
-/

namespace Whaleshares.ElectoralRoll

open Config Fc Objects Forest

section Roll

/-- An account on the roll. -/
structure Entry where
  id : ℕ
  name : AccountName
  proxy : AccountName
  votedFor : ℕ

/-- The entry of an account. -/
def entry (a : AccountObject) : Entry := ⟨a.id, a.name, a.proxy, a.witnessesVotedFor⟩

/-- The roll: accounts, witnesses, votes, and the ids that are next. -/
structure Roll where
  entries : List Entry
  witnesses : List ℕ
  ballots : List WitnessVoteObject
  nextEntry : ℕ
  nextWitness : ℕ
  nextBallot : ℕ

/-- The roll of a state. -/
def roll (s : ChainState) : Roll :=
  ⟨s.accounts.rows.map entry, s.witnesses.rows.map (·.id), s.witnessVotes.rows,
    s.accounts.nextId, s.witnesses.nextId, s.witnessVotes.nextId⟩

/-- The proxy of an entry, if it has one. -/
def Entry.link (e : Entry) : Option AccountName := if e.proxy = .empty then none else some e.proxy

/-- The proxy of an account. -/
def Roll.proxyOf (r : Roll) (name : AccountName) : Option AccountName :=
  (r.entries.find? fun e => e.name = name).bind Entry.link

/-- Whether an account has voted for a witness. -/
def Roll.backs (r : Roll) (account witness : ℕ) : Bool :=
  r.ballots.any fun b => b.account = account && b.witness = witness

/-- The number of votes of an account. -/
def Roll.count (r : Roll) (account : ℕ) : ℕ := r.ballots.countP fun b => b.account = account

/-- What holds of the roll in every state of a chain. -/
structure Roll.Valid (r : Roll) : Prop where
  names : (r.entries.map (·.name)).Nodup
  ids : (r.entries.map (·.id)).Nodup
  id_lt : ∀ e ∈ r.entries, e.id < r.nextEntry
  sized : ∀ e ∈ r.entries, e.name.size ≠ 0
  proxies : ∀ e ∈ r.entries, e.proxy ≠ .empty → ∃ p ∈ r.entries, p.name = e.proxy
  grounded : Grounded r.proxyOf
  witnesses : r.witnesses.Nodup
  witness_lt : ∀ w ∈ r.witnesses, w < r.nextWitness
  ballotIds : (r.ballots.map (·.id)).Nodup
  ballot_lt : ∀ b ∈ r.ballots, b.id < r.nextBallot
  pairs : (r.ballots.map fun b => (b.account, b.witness)).Nodup
  voter : ∀ b ∈ r.ballots, ∃ e ∈ r.entries, e.id = b.account ∧ e.proxy = .empty
  candidate : ∀ b ∈ r.ballots, b.witness ∈ r.witnesses
  votedFor : ∀ e ∈ r.entries, e.votedFor = r.count e.id
  limit : ∀ e ∈ r.entries, e.votedFor ≤ wlsMaxAccountWitnessVotes

/-- An account neither has a proxy nor has voted. -/
def Roll.Idle (r : Roll) (name : AccountName) : Prop :=
  ∀ e ∈ r.entries, e.name = name → e.proxy = .empty ∧ e.votedFor = 0

variable {r : Roll} {e : Entry}

/-- The empty name has no size. -/
theorem size_empty : AccountName.empty.size = 0 := by decide

/-- The proxy of an account is that of its entry. -/
theorem Roll.proxyOf_of_mem (hnames : (r.entries.map (·.name)).Nodup) (he : e ∈ r.entries) :
    r.proxyOf e.name = e.link := by
  unfold Roll.proxyOf
  rw [(Table.find_key Entry.name hnames).mpr ⟨he, rfl⟩]
  rfl

/-- Only accounts on the roll have a proxy. -/
theorem Roll.proxyOf_eq_some {name proxy : AccountName} (h : r.proxyOf name = some proxy) :
    ∃ e ∈ r.entries, e.name = name ∧ e.proxy = proxy ∧ proxy ≠ .empty := by
  unfold Roll.proxyOf at h
  cases hfind : r.entries.find? (fun e => e.name = name) with
  | none =>
    rw [hfind] at h
    cases h
  | some e =>
    rw [hfind] at h
    change e.link = some proxy at h
    unfold Entry.link at h
    split at h
    next => cases h
    next hproxy =>
      have hsame : e.proxy = proxy := Option.some.inj h
      refine ⟨e, List.mem_of_find?_eq_some hfind, by simpa using List.find?_some hfind, hsame, ?_⟩
      rwa [← hsame]

/-- An account backs a witness if there is a ballot of both. -/
theorem Roll.backs_iff {account witness : ℕ} :
    r.backs account witness = true ↔
      ∃ b ∈ r.ballots, b.account = account ∧ b.witness = witness := by
  simp [Roll.backs]

/-- An account without ballots counts none. -/
theorem Roll.count_eq_zero {account : ℕ} :
    r.count account = 0 ↔ ∀ b ∈ r.ballots, b.account ≠ account := by
  simp [Roll.count, List.countP_eq_zero]

/-- An account that has a proxy has not voted. -/
theorem Roll.Valid.no_ballots (h : r.Valid) (he : e ∈ r.entries) (hproxy : e.proxy ≠ .empty) :
    ∀ b ∈ r.ballots, b.account ≠ e.id := by
  intro b hb hid
  obtain ⟨v, hv, hvid, hvproxy⟩ := h.voter b hb
  have hsame : v = e := Table.eq_of_key_eq Entry.id h.ids hv he (hvid.trans hid)
  exact hproxy (hsame ▸ hvproxy)

/-- A proxy without a name of its own is no proxy. -/
theorem Roll.Valid.proxy_size (h : r.Valid) (he : e ∈ r.entries) :
    e.proxy.size = 0 ↔ e.proxy = .empty := by
  constructor
  · intro hsize
    by_contra hne
    obtain ⟨p, hp, hname⟩ := h.proxies e he hne
    exact h.sized p hp (hname ▸ hsize)
  · intro hempty
    rw [hempty]
    exact size_empty

end Roll

section Changes

variable {r : Roll} {e : Entry}

/-- The roll with a new account. -/
def Roll.enroll (r : Roll) (name : AccountName) : Roll :=
  { r with entries := r.entries ++ [⟨r.nextEntry, name, .empty, 0⟩], nextEntry := r.nextEntry + 1 }

/-- The roll with a new witness. -/
def Roll.stand (r : Roll) : Roll :=
  { r with witnesses := r.witnesses ++ [r.nextWitness], nextWitness := r.nextWitness + 1 }

/-- The roll without the votes of an account. -/
def Roll.abstain (r : Roll) (e : Entry) : Roll :=
  { r with
    entries := Table.amend Entry.name { e with votedFor := 0 } r.entries
    ballots := r.ballots.filter fun b => !decide (b.account = e.id) }

/-- The roll with another proxy of an account. -/
def Roll.follow (r : Roll) (e : Entry) (proxy : AccountName) : Roll :=
  { r with entries := Table.amend Entry.name { e with proxy := proxy } r.entries }

/-- The roll with one more vote of an account. -/
def Roll.vote (r : Roll) (e : Entry) (witness : ℕ) : Roll :=
  { r with
    entries := Table.amend Entry.name { e with votedFor := e.votedFor + 1 } r.entries
    ballots := r.ballots ++ [⟨r.nextBallot, witness, e.id⟩]
    nextBallot := r.nextBallot + 1 }

/-- The roll without one vote of an account. -/
def Roll.retract (r : Roll) (e : Entry) (vote : WitnessVoteObject) : Roll :=
  { r with
    entries := Table.amend Entry.name { e with votedFor := e.votedFor - 1 } r.entries
    ballots := r.ballots.filter fun b => !decide (b.id = vote.id) }

/-- A new name keeps the roll valid. -/
theorem Roll.Valid.enroll {name : AccountName} (h : r.Valid) (hsize : name.size ≠ 0)
    (hname : ∀ e ∈ r.entries, e.name ≠ name) : (r.enroll name).Valid := by
  have hnew : ∀ b ∈ r.ballots, b.account ≠ r.nextEntry := by
    intro b hb hid
    obtain ⟨v, hv, hvid, -⟩ := h.voter b hb
    have hlt := h.id_lt v hv
    omega
  have hproxyOf : ∀ m, m ≠ name → (r.enroll name).proxyOf m = r.proxyOf m := by
    intro m hm
    unfold Roll.proxyOf Roll.enroll
    rw [List.find?_append]
    simp [Ne.symm hm]
  have hself : (r.enroll name).proxyOf name = none := by
    unfold Roll.proxyOf Roll.enroll
    rw [List.find?_append, List.find?_eq_none.mpr (by simpa using hname)]
    simp [Entry.link]
  refine
    { h with
      names := ?_, ids := ?_, id_lt := ?_, sized := ?_, proxies := ?_, grounded := ?_
      voter := ?_, votedFor := ?_, limit := ?_ }
  · simp only [Roll.enroll, List.map_append, List.map_cons, List.map_nil]
    refine List.nodup_append'.mpr ⟨h.names, List.nodup_singleton _, ?_⟩
    intro n hn hn'
    obtain ⟨e, he, heq⟩ := List.mem_map.mp hn
    exact hname e he (heq.trans (List.mem_singleton.mp hn'))
  · simp only [Roll.enroll, List.map_append, List.map_cons, List.map_nil]
    refine List.nodup_append'.mpr ⟨h.ids, List.nodup_singleton _, ?_⟩
    intro n hn hn'
    obtain ⟨e, he, heq⟩ := List.mem_map.mp hn
    have hlt := h.id_lt e he
    have hnext := List.mem_singleton.mp hn'
    omega
  · intro e he
    simp only [Roll.enroll]
    rcases List.mem_append.mp he with he | he
    · exact Nat.lt_succ_of_lt (h.id_lt e he)
    · rw [List.mem_singleton.mp he]
      exact Nat.lt_succ_self _
  · intro e he
    rcases List.mem_append.mp he with he | he
    · exact h.sized e he
    · rw [List.mem_singleton.mp he]
      exact hsize
  · intro e he hproxy
    rcases List.mem_append.mp he with he | he
    · obtain ⟨p, hp, hpname⟩ := h.proxies e he hproxy
      exact ⟨p, List.mem_append_left _ hp, hpname⟩
    · rw [List.mem_singleton.mp he] at hproxy
      exact absurd rfl hproxy
  · refine h.grounded.update hproxyOf ⟨1, ?_⟩
    change ((r.enroll name).proxyOf name).bind some = none
    rw [hself]
    rfl
  · intro b hb
    obtain ⟨v, hv, hvid⟩ := h.voter b hb
    exact ⟨v, List.mem_append_left _ hv, hvid⟩
  · intro e he
    rcases List.mem_append.mp he with he | he
    · exact h.votedFor e he
    · rw [List.mem_singleton.mp he]
      exact (Roll.count_eq_zero.mpr hnew).symm
  · intro e he
    rcases List.mem_append.mp he with he | he
    · exact h.limit e he
    · rw [List.mem_singleton.mp he]
      exact Nat.zero_le _

/-- A new witness keeps the roll valid. -/
theorem Roll.Valid.stand (h : r.Valid) : r.stand.Valid := by
  refine { h with witnesses := ?_, witness_lt := ?_, candidate := ?_ }
  · refine List.nodup_append'.mpr ⟨h.witnesses, List.nodup_singleton _, ?_⟩
    intro w hw hw'
    have hlt := h.witness_lt w hw
    have hnext := List.mem_singleton.mp hw'
    omega
  · intro w hw
    simp only [Roll.stand]
    rcases List.mem_append.mp hw with hw | hw
    · exact Nat.lt_succ_of_lt (h.witness_lt w hw)
    · rw [List.mem_singleton.mp hw]
      exact Nat.lt_succ_self _
  · intro b hb
    exact List.mem_append_left _ (h.candidate b hb)

/-- The proxies of the other accounts stay when one entry is amended. -/
theorem Roll.proxyOf_amend_of_ne (e' : Entry) {ballots : List WitnessVoteObject} {next : ℕ}
    {m : AccountName} (hm : m ≠ e'.name) :
    Roll.proxyOf { r with
      entries := Table.amend Entry.name e' r.entries
      ballots := ballots
      nextBallot := next } m = r.proxyOf m := by
  unfold Roll.proxyOf
  exact congrArg (Option.bind · Entry.link) (Table.find_amend_of_ne hm)

/-- What an amended entry and new votes must satisfy for the roll to stay valid. -/
structure Roll.Fits (r : Roll) (e e' : Entry) (ballots : List WitnessVoteObject) (next : ℕ) :
    Prop where
  id : e'.id = e.id
  name : e'.name = e.name
  proxy : e'.proxy ≠ .empty → ∃ p ∈ r.entries, p.name = e'.proxy
  ballotIds : (ballots.map (·.id)).Nodup
  ballot_lt : ∀ b ∈ ballots, b.id < next
  pairs : (ballots.map fun b => (b.account, b.witness)).Nodup
  voter : ∀ b ∈ ballots, (b.account = e.id ∧ e'.proxy = .empty) ∨ (b.account ≠ e.id ∧ b ∈ r.ballots)
  candidate : ∀ b ∈ ballots, b.witness ∈ r.witnesses
  votedFor : e'.votedFor = ballots.countP fun b => b.account = e.id
  others : ∀ account, account ≠ e.id →
    (ballots.countP fun b => b.account = account) = r.count account
  limit : e'.votedFor ≤ wlsMaxAccountWitnessVotes

/-- An amended entry that fits keeps the roll valid. -/
theorem Roll.Valid.amend {ballots : List WitnessVoteObject} {next : ℕ} (h : r.Valid)
    (he : e ∈ r.entries) (e' : Entry) (hfits : r.Fits e e' ballots next)
    (hgrounded : Grounded (Roll.proxyOf { r with
      entries := Table.amend Entry.name e' r.entries, ballots := ballots, nextBallot := next })) :
    Roll.Valid { r with
      entries := Table.amend Entry.name e' r.entries, ballots := ballots, nextBallot := next } := by
  have hold : ∀ old ∈ r.entries, old.name = e'.name → old = e := fun old hmem hname =>
    Table.eq_of_key_eq Entry.name h.names hmem he (hname.trans hfits.name)
  have hself : e' ∈ Table.amend Entry.name e' r.entries :=
    Table.mem_amend_self _ he hfits.name.symm
  -- every entry is still there, amended or not
  have hkept : ∀ p ∈ r.entries, ∃ q ∈ Table.amend Entry.name e' r.entries,
      q.name = p.name ∧ q.id = p.id ∧ (p.id ≠ e.id → q = p) := by
    intro p hp
    by_cases hname : p.name = e'.name
    · rw [hold p hp hname]
      exact ⟨e', hself, hfits.name, hfits.id, fun hne => absurd rfl hne⟩
    · exact ⟨p, Table.mem_amend_of_ne hp hname, rfl, rfl, fun _ => rfl⟩
  refine
    { h with
      names := ?_, ids := ?_, id_lt := ?_, sized := ?_, proxies := ?_, grounded := hgrounded
      ballotIds := hfits.ballotIds, ballot_lt := hfits.ballot_lt, pairs := hfits.pairs
      voter := ?_, candidate := hfits.candidate, votedFor := ?_, limit := ?_ }
  · have hkeys : (Table.amend Entry.name e' r.entries).map (·.name) = r.entries.map (·.name) :=
      Table.amend_keys e'
    rw [hkeys]
    exact h.names
  · have hids : (Table.amend Entry.name e' r.entries).map (·.id) = r.entries.map (·.id) := by
      refine Table.amend_map_eq fun old hmem hname => ?_
      rw [hold old hmem hname]
      exact hfits.id
    rw [hids]
    exact h.ids
  · intro c hc
    rcases Table.mem_amend hc with hc | ⟨hc, -⟩
    · rw [hc, hfits.id]
      exact h.id_lt e he
    · exact h.id_lt c hc
  · intro c hc
    rcases Table.mem_amend hc with hc | ⟨hc, -⟩
    · rw [hc, hfits.name]
      exact h.sized e he
    · exact h.sized c hc
  · intro c hc hproxy
    have hexists : ∃ p ∈ r.entries, p.name = c.proxy := by
      rcases Table.mem_amend hc with hc | ⟨hc, -⟩
      · rw [hc] at hproxy ⊢
        exact hfits.proxy hproxy
      · exact h.proxies c hc hproxy
    obtain ⟨p, hp, hpname⟩ := hexists
    obtain ⟨q, hq, hqname, -⟩ := hkept p hp
    exact ⟨q, hq, hqname.trans hpname⟩
  · intro b hb
    rcases hfits.voter b hb with ⟨haccount, hempty⟩ | ⟨hother, hb⟩
    · exact ⟨e', hself, hfits.id.trans haccount.symm, hempty⟩
    · obtain ⟨v, hv, hvid, hvproxy⟩ := h.voter b hb
      obtain ⟨q, hq, -, -, hsame⟩ := hkept v hv
      have hqv : q = v := hsame (by rw [hvid]; exact hother)
      exact ⟨v, hqv ▸ hq, hvid, hvproxy⟩
  · intro c hc
    rcases Table.mem_amend hc with hc | ⟨hc, hne⟩
    · rw [hc, hfits.id]
      exact hfits.votedFor
    · rw [h.votedFor c hc]
      refine (hfits.others c.id fun hid => hne ?_).symm
      rw [Table.eq_of_key_eq Entry.id h.ids hc he hid, hfits.name]
  · intro c hc
    rcases Table.mem_amend hc with hc | ⟨hc, -⟩
    · rw [hc]
      exact hfits.limit
    · exact h.limit c hc

/-- An amended entry with its old proxy leaves all chains of proxies as they are. -/
theorem Roll.proxyOf_amend (e' : Entry) {ballots : List WitnessVoteObject} {next : ℕ}
    (h : r.Valid) (he : e ∈ r.entries) (hname : e'.name = e.name) (hproxy : e'.proxy = e.proxy) :
    Roll.proxyOf { r with
      entries := Table.amend Entry.name e' r.entries
      ballots := ballots
      nextBallot := next } = r.proxyOf := by
  funext m
  by_cases hm : m = e'.name
  · have hkeys : ((Table.amend Entry.name e' r.entries).map Entry.name).Nodup := by
      rw [Table.amend_keys]
      exact h.names
    rw [hm, Roll.proxyOf_of_mem hkeys (Table.mem_amend_self _ he hname.symm), hname,
      Roll.proxyOf_of_mem h.names he]
    simp only [Entry.link, hproxy]
  · exact Roll.proxyOf_amend_of_ne e' hm

/-- An account that takes its votes back keeps the roll valid. -/
theorem Roll.Valid.abstain (h : r.Valid) (he : e ∈ r.entries) : (r.abstain e).Valid := by
  refine h.amend he { e with votedFor := 0 }
    { id := rfl, name := rfl, proxy := h.proxies e he, ballotIds := ?_, ballot_lt := ?_,
      pairs := ?_, voter := ?_, candidate := ?_, votedFor := ?_, others := ?_, limit := ?_ } ?_
  · exact h.ballotIds.sublist (List.filter_sublist.map _)
  · exact fun b hb => h.ballot_lt b (List.mem_filter.mp hb).1
  · exact h.pairs.sublist (List.filter_sublist.map _)
  · intro b hb
    obtain ⟨hb, hne⟩ := List.mem_filter.mp hb
    exact .inr ⟨by simpa using hne, hb⟩
  · exact fun b hb => h.candidate b (List.mem_filter.mp hb).1
  · rw [List.countP_filter, eq_comm, List.countP_eq_zero]
    simp
  · intro account haccount
    rw [List.countP_filter]
    refine List.countP_congr fun b _ => ?_
    simp only [Bool.and_eq_true, decide_eq_true_eq, Bool.not_eq_true', decide_eq_false_iff_not]
    constructor
    · exact fun hb => hb.1
    · exact fun hb => ⟨hb, fun hid => haccount (hb.symm.trans hid)⟩
  · exact Nat.zero_le _
  · rw [Roll.proxyOf_amend { e with votedFor := 0 } h he rfl rfl]
    exact h.grounded

/-- An account can take a proxy when it has no votes and does not stand above that proxy. -/
theorem Roll.Valid.follow {p : Entry} (h : r.Valid) (he : e ∈ r.entries) (hp : p ∈ r.entries)
    (hnone : ∀ b ∈ r.ballots, b.account ≠ e.id)
    (hfree : ∀ steps, climb r.proxyOf steps p.name ≠ some e.name) : (r.follow e p.name).Valid := by
  have hpname : p.name ≠ .empty := fun hempty => h.sized p hp (hempty ▸ size_empty)
  have hkeys : ((Table.amend Entry.name { e with proxy := p.name } r.entries).map
      Entry.name).Nodup := by
    rw [Table.amend_keys]
    exact h.names
  have hothers : ∀ m, m ≠ e.name → (r.follow e p.name).proxyOf m = r.proxyOf m := fun m hm =>
    Roll.proxyOf_amend_of_ne { e with proxy := p.name } hm
  have hself : (r.follow e p.name).proxyOf e.name = some p.name := by
    have hmem : { e with proxy := p.name } ∈ (r.follow e p.name).entries :=
      Table.mem_amend_self { e with proxy := p.name } he rfl
    refine (Roll.proxyOf_of_mem hkeys hmem).trans ?_
    simp [Entry.link, hpname]
  refine h.amend he { e with proxy := p.name }
    { id := rfl, name := rfl, proxy := fun _ => ⟨p, hp, rfl⟩, ballotIds := h.ballotIds,
      ballot_lt := h.ballot_lt, pairs := h.pairs, voter := fun b hb => .inr ⟨hnone b hb, hb⟩,
      candidate := h.candidate, votedFor := h.votedFor e he, others := fun _ _ => rfl,
      limit := h.limit e he } ?_
  refine h.grounded.update hothers ?_
  obtain ⟨steps, hsteps⟩ := h.grounded p.name
  refine ⟨steps + 1, ?_⟩
  change ((r.follow e p.name).proxyOf e.name).bind _ = none
  rw [hself]
  change climb (r.follow e p.name).proxyOf steps p.name = none
  rw [climb_congr hothers fun lower _ => hfree lower, hsteps]

/-- An account can give up its proxy. -/
theorem Roll.Valid.follow_nobody (h : r.Valid) (he : e ∈ r.entries) :
    (r.follow e .empty).Valid := by
  have hkeys : ((Table.amend Entry.name { e with proxy := AccountName.empty } r.entries).map
      Entry.name).Nodup := by
    rw [Table.amend_keys]
    exact h.names
  refine h.amend he { e with proxy := .empty }
    { id := rfl, name := rfl, proxy := fun hne => absurd rfl hne, ballotIds := h.ballotIds,
      ballot_lt := h.ballot_lt, pairs := h.pairs, voter := fun b hb => ?_,
      candidate := h.candidate, votedFor := h.votedFor e he, others := fun _ _ => rfl,
      limit := h.limit e he } ?_
  · by_cases haccount : b.account = e.id
    · exact .inl ⟨haccount, rfl⟩
    · exact .inr ⟨haccount, hb⟩
  · refine h.grounded.update (x := e.name) (fun m hm => Roll.proxyOf_amend_of_ne
      { e with proxy := .empty } hm) ⟨1, ?_⟩
    have hmem : { e with proxy := .empty } ∈ (r.follow e .empty).entries :=
      Table.mem_amend_self { e with proxy := .empty } he rfl
    have hself : (r.follow e .empty).proxyOf e.name = none := Roll.proxyOf_of_mem hkeys hmem
    change ((r.follow e .empty).proxyOf e.name).bind some = none
    rw [hself]
    rfl

/-- A new ballot keeps the roll valid. -/
theorem Roll.Valid.vote {witness : ℕ} (h : r.Valid) (he : e ∈ r.entries) (hproxy : e.proxy = .empty)
    (hwitness : witness ∈ r.witnesses) (hnew : r.backs e.id witness = false)
    (hlimit : e.votedFor < wlsMaxAccountWitnessVotes) : (r.vote e witness).Valid := by
  refine h.amend he { e with votedFor := e.votedFor + 1 }
    { id := rfl, name := rfl, proxy := h.proxies e he, ballotIds := ?_, ballot_lt := ?_,
      pairs := ?_, voter := ?_, candidate := ?_, votedFor := ?_, others := ?_, limit := hlimit } ?_
  · rw [List.map_append]
    refine List.nodup_append'.mpr ⟨h.ballotIds, List.nodup_singleton _, ?_⟩
    intro n hn hn'
    obtain ⟨b, hb, hid⟩ := List.mem_map.mp hn
    have hlt := h.ballot_lt b hb
    have hnext : n = r.nextBallot := List.mem_singleton.mp hn'
    have hid : b.id = n := hid
    omega
  · intro b hb
    rcases List.mem_append.mp hb with hb | hb
    · exact Nat.lt_succ_of_lt (h.ballot_lt b hb)
    · rw [List.mem_singleton.mp hb]
      exact Nat.lt_succ_self _
  · rw [List.map_append]
    refine List.nodup_append'.mpr ⟨h.pairs, List.nodup_singleton _, ?_⟩
    intro n hn hn'
    obtain ⟨b, hb, hpair⟩ := List.mem_map.mp hn
    have hsame : (b.account, b.witness) = (e.id, witness) :=
      hpair.trans (List.mem_singleton.mp hn')
    have hbacks : r.backs e.id witness = true :=
      Roll.backs_iff.mpr ⟨b, hb, congrArg Prod.fst hsame, congrArg Prod.snd hsame⟩
    rw [hnew] at hbacks
    cases hbacks
  · intro b hb
    by_cases haccount : b.account = e.id
    · exact .inl ⟨haccount, hproxy⟩
    · rcases List.mem_append.mp hb with hb | hb
      · exact .inr ⟨haccount, hb⟩
      · rw [List.mem_singleton.mp hb] at haccount
        exact absurd rfl haccount
  · intro b hb
    rcases List.mem_append.mp hb with hb | hb
    · exact h.candidate b hb
    · rw [List.mem_singleton.mp hb]
      exact hwitness
  · rw [List.countP_append, ← Roll.count, ← h.votedFor e he]
    simp
  · intro account haccount
    rw [List.countP_append]
    simp [Roll.count, Ne.symm haccount]
  · rw [Roll.proxyOf_amend { e with votedFor := e.votedFor + 1 } h he rfl rfl]
    exact h.grounded

/-- A ballot that is taken back keeps the roll valid. -/
theorem Roll.Valid.retract {vote : WitnessVoteObject} (h : r.Valid) (he : e ∈ r.entries)
    (hvote : vote ∈ r.ballots) (haccount : vote.account = e.id) : (r.retract e vote).Valid := by
  have hone : ∀ b ∈ r.ballots, b.id = vote.id → b = vote := fun b hb hid =>
    Table.eq_of_key_eq WitnessVoteObject.id h.ballotIds hb hvote hid
  -- the votes of an account are those that stay and the one that goes
  have hcount : ∀ account, r.count account =
      (r.ballots.filter fun b => !decide (b.id = vote.id)).countP (fun b => b.account = account) +
        (if vote.account = account then 1 else 0) := by
    intro account
    have hperm : r.ballots.Perm (vote :: r.ballots.filter fun b => !decide (b.id = vote.id)) := by
      refine (List.perm_ext_iff_of_nodup h.ballotIds.of_map ?_).mpr fun b => ?_
      · refine List.nodup_cons.mpr ⟨by simp, h.ballotIds.of_map.filter _⟩
      · simp only [List.mem_cons, List.mem_filter, Bool.not_eq_true', decide_eq_false_iff_not]
        constructor
        · intro hb
          by_cases hid : b.id = vote.id
          · exact .inl (hone b hb hid)
          · exact .inr ⟨hb, hid⟩
        · rintro (hb | hb)
          · rw [hb]
            exact hvote
          · exact hb.1
    rw [Roll.count, hperm.countP_eq, List.countP_cons]
    simp
  have hpos : 0 < e.votedFor := by
    rw [h.votedFor e he, hcount e.id, if_pos haccount]
    omega
  refine h.amend he { e with votedFor := e.votedFor - 1 }
    { id := rfl, name := rfl, proxy := h.proxies e he, ballotIds := ?_, ballot_lt := ?_,
      pairs := ?_, voter := ?_, candidate := ?_, votedFor := ?_, others := ?_, limit := ?_ } ?_
  · exact h.ballotIds.sublist (List.filter_sublist.map _)
  · exact fun b hb => h.ballot_lt b (List.mem_filter.mp hb).1
  · exact h.pairs.sublist (List.filter_sublist.map _)
  · intro b hb
    have hb := (List.mem_filter.mp hb).1
    by_cases hown : b.account = e.id
    · obtain ⟨v, hv, hvid, hvproxy⟩ := h.voter b hb
      rw [Table.eq_of_key_eq Entry.id h.ids hv he (hvid.trans hown)] at hvproxy
      exact .inl ⟨hown, hvproxy⟩
    · exact .inr ⟨hown, hb⟩
  · exact fun b hb => h.candidate b (List.mem_filter.mp hb).1
  · have hown := hcount e.id
    have hall := h.votedFor e he
    rw [if_pos haccount] at hown
    simp only
    omega
  · intro account hne
    have hother := hcount account
    rw [if_neg fun heq => hne (heq.symm.trans haccount)] at hother
    omega
  · have hle := h.limit e he
    simp only
    omega
  · rw [Roll.proxyOf_amend { e with votedFor := e.votedFor - 1 } h he rfl rfl]
    exact h.grounded

/-- A new ballot backs its witness and no other. -/
theorem Roll.backs_vote {witness account w : ℕ} : (r.vote e witness).backs account w =
    (r.backs account w || (decide (e.id = account) && decide (witness = w))) := by
  simp [Roll.backs, Roll.vote]

/-- A vote that is taken back is the only one of its account for its witness. -/
theorem Roll.backs_retract {vote : WitnessVoteObject} {account w : ℕ} (h : r.Valid)
    (hvote : vote ∈ r.ballots) : (r.retract e vote).backs account w =
      (r.backs account w && !(decide (vote.account = account) && decide (vote.witness = w))) := by
  rw [Bool.eq_iff_iff, Roll.backs_iff, Bool.and_eq_true, Roll.backs_iff]
  simp only [Roll.retract, List.mem_filter, Bool.not_eq_true', decide_eq_false_iff_not,
    Bool.and_eq_false_iff]
  constructor
  · rintro ⟨b, ⟨hb, hne⟩, haccount, hwitness⟩
    refine ⟨⟨b, hb, haccount, hwitness⟩, ?_⟩
    by_contra hboth
    push Not at hboth
    refine hne (congrArg _ (List.inj_on_of_nodup_map h.pairs hb hvote ?_))
    rw [haccount, hwitness, hboth.1, hboth.2]
  · rintro ⟨⟨b, hb, haccount, hwitness⟩, hother⟩
    refine ⟨b, ⟨hb, fun hid => ?_⟩, haccount, hwitness⟩
    have hsame := Table.eq_of_key_eq WitnessVoteObject.id h.ballotIds hb hvote hid
    rw [← hsame] at hother
    rcases hother with hother | hother
    · exact hother haccount
    · exact hother hwitness

end Changes

end Whaleshares.ElectoralRoll
