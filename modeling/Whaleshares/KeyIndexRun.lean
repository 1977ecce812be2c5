import Whaleshares.AccountByKey
import Whaleshares.ChainRun

/-!
# What the index of keys says after a run

A run starts with the first state, which has accounts with keys and an index without
records. It applies operations, each seen by the plugin before and after it; between them
the chain does other work, and an operation that fails leaves nothing behind but the cache
of the plugin.

The keys of an account that were cached and are still there are taken to have records. An
account of the first state has none, so its first update must not keep a key.
-/

namespace Whaleshares.KeyIndexRun

open Config Fc Protocol Objects Program Database Evaluators CommentEvaluators Genesis Footprint
  LockedAccount LabelledRun ChainRun AccountByKey

section Steps

/-- The chain with the plugin. -/
structure Observed where
  chain : ChainState
  plugin : Plugin

/-- What happens in a run. -/
inductive Event where
  /-- An operation is applied. -/
  | applied (ctx : Context) (op : Operation)
  /-- The chain does what is no operation. -/
  | work
  /-- An operation fails, and its changes are undone. -/
  | abandoned

/-- The steps of a run. -/
def Step : Event → Observed → Observed → Prop
  | .applied ctx op, s, t =>
    Returns (applyOperation ctx op) s.chain () t.chain ∧
      postOperation t.chain op (preOperation s.chain op s.plugin) = .ok t.plugin
  | .work, s, t => SameAuthorities s.chain t.chain ∧ t.plugin = s.plugin
  | .abandoned, s, t => t.chain = s.chain ∧ t.plugin.keyLookups = s.plugin.keyLookups

/-- The operation creates or updates the account. -/
def Touches (account : AccountName) : Event → Prop
  | .applied _ (.accountCreate o) => o.newAccountName = account
  | .applied _ (.accountUpdate o) => o.account = account
  | _ => False

/-- The records of an account are its keys, one record for each. -/
def Exact (s : Observed) (account : AccountName) : Prop :=
  ∃ auth, findAuthority s.chain account = some auth ∧
    (∀ key, Recorded s.plugin account key ↔ key ∈ keyAuthsOf auth) ∧
    ((s.plugin.keyLookups.rows.filter fun o => o.account = account).map (·.key)).Nodup

/-- Every record is one of a key that its account has, and there are no two of one key. -/
structure Sound (s : Observed) : Prop where
  held : ∀ account key, Recorded s.plugin account key →
    ∃ auth, findAuthority s.chain account = some auth ∧ key ∈ keyAuthsOf auth
  unique : KeysUnique s.plugin

/-- An update keeps no key of the account that has no record. -/
def KeepsRecorded (m : Moment Observed Event) : Prop :=
  match m.event with
  | .applied _ (.accountUpdate o) =>
    ∀ auth, findAuthority m.before.chain o.account = some auth →
      ∀ key ∈ keyAuthsOf auth, key ∈ keyAuthsOf (updatedAuthority o auth) →
        Recorded m.before.plugin o.account key
  | _ => True

end Steps

section Kept

variable {s t : Observed} {account name : AccountName} {e : Event}

/-- No two records of one account are of the same key. -/
theorem Sound.keys_nodup (hs : Sound s) (account : AccountName) :
    ((s.plugin.keyLookups.rows.filter fun o => o.account = account).map (·.key)).Nodup := by
  have hunique := hs.unique
  unfold KeysUnique at hunique
  have hpairs : ((s.plugin.keyLookups.rows.filter fun o => o.account = account).map
      fun o => (o.account, o.key)).Nodup := hunique.sublist (List.filter_sublist.map _)
  refine List.Nodup.of_map (fun key => (account, key)) ?_
  rw [List.map_map]
  refine (List.map_congr_left fun o ho => ?_) ▸ hpairs
  rw [of_decide_eq_true (List.mem_filter.mp ho).2]
  rfl

/-- The records are exact if the account has authorities and their keys are those recorded. -/
theorem exact_iff (hs : Sound s) : Exact s account ↔ ∃ auth,
    findAuthority s.chain account = some auth ∧
      ∀ key, Recorded s.plugin account key ↔ key ∈ keyAuthsOf auth := by
  constructor
  · rintro ⟨auth, hauth, hkeys, -⟩
    exact ⟨auth, hauth, hkeys⟩
  · rintro ⟨auth, hauth, hkeys⟩
    exact ⟨auth, hauth, hkeys, hs.keys_nodup account⟩

/-- A step that leaves authorities and records alone keeps what they say. -/
theorem quiet_step (hfind : ∀ account, findAuthority t.chain account = findAuthority s.chain account)
    (hrows : t.plugin.keyLookups = s.plugin.keyLookups) :
    (Sound s → Sound t) ∧ ∀ account, Exact s account → Exact t account := by
  have hrecorded : ∀ account key,
      Recorded t.plugin account key ↔ Recorded s.plugin account key := by
    intro account key
    unfold Recorded
    rw [hrows]
  constructor
  · rintro ⟨hheld, hunique⟩
    constructor
    · intro account key h
      rw [hrecorded] at h
      rw [hfind]
      exact hheld account key h
    · unfold KeysUnique at hunique ⊢
      rwa [hrows]
  · rintro account ⟨auth, hauth, hkeys, hnodup⟩
    refine ⟨auth, (hfind account).trans hauth, fun key => ?_, ?_⟩
    · rw [hrecorded, hkeys]
    · rwa [hrows]

/-- An update of the index for one account: the records stay sound, those of the account
are its keys where all cached keys that it still has were recorded, and those of other
accounts stay. -/
theorem update_step {cached : List PublicKey} {auth : AccountAuthorityObject} (hs : Sound s)
    (hauth : findAuthority t.chain name = some auth)
    (hcall : updateKeyLookup auth ⟨s.plugin.keyLookups, cached⟩ = .ok t.plugin)
    (hothers : ∀ other, other ≠ name → findAuthority t.chain other = findAuthority s.chain other)
    (hheld : ∀ key, Recorded s.plugin name key → key ∈ keyAuthsOf auth ∨ key ∈ cached) :
    Sound t ∧
      (Exact t name ↔ ∀ key ∈ cached, key ∈ keyAuthsOf auth → Recorded s.plugin name key) ∧
      ∀ other, other ≠ name → Exact s other → Exact t other := by
  have hname := findAuthority_account hauth
  obtain ⟨q, hq, hrest, hrecorded, hunique⟩ := updateKeyLookup_spec auth ⟨s.plugin.keyLookups, cached⟩
  obtain rfl : q = t.plugin := Except.ok.inj (hq.symm.trans hcall)
  rw [hname] at hrest hrecorded
  have hsame : ∀ other key, Recorded ⟨s.plugin.keyLookups, cached⟩ other key ↔
      Recorded s.plugin other key := fun _ _ => Iff.rfl
  have hsound : Sound t := by
    refine ⟨fun account key h => ?_, hunique hs.unique⟩
    by_cases haccount : account = name
    · subst haccount
      refine ⟨auth, hauth, ?_⟩
      obtain ⟨hnew, -⟩ | ⟨hold, hnew | hgone⟩ := (hrecorded key).mp h
      · exact hnew
      · exact hnew
      · exact (hheld key hold).resolve_right hgone
    · rw [hrest account key haccount, hsame] at h
      rw [hothers account haccount]
      exact hs.held account key h
  refine ⟨hsound, ?_, ?_⟩
  · rw [exact_iff hsound]
    constructor
    · rintro ⟨auth', hauth', hkeys⟩ key hcached hnew
      obtain rfl : auth = auth' := Option.some.inj (hauth.symm.trans hauth')
      obtain ⟨-, hmissing⟩ | ⟨hold, -⟩ := (hrecorded key).mp ((hkeys key).mpr hnew)
      · exact absurd hcached hmissing
      · exact hold
    · intro hkept
      refine ⟨auth, hauth, fun key => ?_⟩
      constructor
      · intro h
        obtain ⟨auth', hauth', hkey⟩ := hsound.held name key h
        rwa [Option.some.inj (hauth.symm.trans hauth')]
      · intro hnew
        rw [hrecorded]
        by_cases hcached : key ∈ cached
        · exact .inr ⟨hkept key hcached hnew, .inl hnew⟩
        · exact .inl ⟨hnew, hcached⟩
  · intro other hother hexact
    obtain ⟨auth', hauth', hkeys, -⟩ := hexact
    rw [exact_iff hsound]
    refine ⟨auth', (hothers other hother).trans hauth', fun key => ?_⟩
    rw [hrest other key hother, hsame, hkeys]

/-- What a step does: it keeps the records sound, it makes them exact for the account it
touches where it keeps no key without a record, and it keeps them exact for the others. -/
theorem step_exact {m : Moment Observed Event} (hstep : Step m.event m.before m.after)
    (hs : Sound m.before) :
    Sound m.after ∧
      (∀ account, Touches account m.event → (Exact m.after account ↔ KeepsRecorded m)) ∧
      ∀ account, ¬ Touches account m.event → Exact m.before account → Exact m.after account := by
  obtain ⟨s, e, t⟩ := m
  cases e with
  | work =>
    obtain ⟨hsame, hplugin⟩ := hstep
    obtain ⟨hsound, hexact⟩ := quiet_step (findAuthority_congr hsame) (congrArg _ hplugin)
    exact ⟨hsound hs, fun _ htouched => htouched.elim, fun account _ => hexact account⟩
  | abandoned =>
    obtain ⟨hchain, hrows⟩ := hstep
    obtain ⟨hsound, hexact⟩ := quiet_step (fun account => by rw [hchain]) hrows
    exact ⟨hsound hs, fun _ htouched => htouched.elim, fun account _ => hexact account⟩
  | applied ctx op =>
    obtain ⟨hop, hpost⟩ := hstep
    by_cases hcreate : ∃ o, op = .accountCreate o
    · obtain ⟨o, rfl⟩ := hcreate
      obtain ⟨⟨auth, hauth⟩, hkept, hothers⟩ := applyAccountCreate_find hop
      simp only [postOperation, preOperation, updateAccount, hauth] at hpost
      have hheld : ∀ key, Recorded s.plugin o.newAccountName key →
          key ∈ keyAuthsOf auth ∨ key ∈ [] := by
        intro key hkey
        obtain ⟨old, hold, hin⟩ := hs.held _ _ hkey
        rw [hkept _ _ hold, Option.some.injEq] at hauth
        rw [← hauth]
        exact .inl hin
      obtain ⟨hsound, hexact, hrest⟩ := update_step hs hauth hpost hothers hheld
      refine ⟨hsound, ?_, fun account htouched => hrest account (Ne.symm htouched)⟩
      rintro _ rfl
      exact hexact.trans ⟨fun _ => trivial, fun _ => nofun⟩
    by_cases hupdate : ∃ o, op = .accountUpdate o
    · obtain ⟨o, rfl⟩ := hupdate
      obtain ⟨old, auth, hold, hauth, -, hparts, hothers⟩ := applyAccountUpdate_find hop
      simp only [postOperation, preOperation, updateAccount, cacheAccount, hauth, hold] at hpost
      have hcached : ∀ key, key ∈ (keyAuthsOf old).foldl insertKey [] ↔ key ∈ keyAuthsOf old := by
        intro key
        simp [mem_insertKeys]
      have hheld : ∀ key, Recorded s.plugin o.account key →
          key ∈ keyAuthsOf auth ∨ key ∈ (keyAuthsOf old).foldl insertKey [] := by
        intro key hkey
        obtain ⟨old', hold', hin⟩ := hs.held _ _ hkey
        obtain rfl : old = old' := Option.some.inj (hold.symm.trans hold')
        exact .inr ((hcached key).mpr hin)
      obtain ⟨hsound, hexact, hrest⟩ := update_step hs hauth hpost hothers hheld
      refine ⟨hsound, ?_, fun account htouched => hrest account (Ne.symm htouched)⟩
      rintro _ rfl
      rw [hexact]
      have hnew : keyAuthsOf auth = keyAuthsOf (updatedAuthority o old) := keyAuthsOf_congr hparts
      rw [hnew]
      constructor
      · intro h old' hold' key hkey
        obtain rfl : old = old' := Option.some.inj (hold.symm.trans hold')
        exact h key ((hcached key).mpr hkey)
      · intro h key hkey
        exact h old hold key ((hcached key).mp hkey)
    -- operations that the plugin does not look at, and two that the chain refuses
    · have hsame : SameAuthorities s.chain t.chain :=
        (applyOperation_authorities (fun o heq => hcreate ⟨o, heq⟩)
          fun o heq => hupdate ⟨o, heq⟩).rel _ _ _ hop
      have hplugin : t.plugin.keyLookups = s.plugin.keyLookups := by
        cases op with
        | accountCreate o => exact absurd ⟨o, rfl⟩ hcreate
        | accountUpdate o => exact absurd ⟨o, rfl⟩ hupdate
        | accountForsale o => cases hop
        | accountBuying o => cases hop
        | _ => rw [← Except.ok.inj hpost]; rfl
      have htouches : ∀ account, ¬ Touches account (.applied ctx op) := by
        intro account htouched
        cases op with
        | accountCreate o => exact hcreate ⟨o, rfl⟩
        | accountUpdate o => exact hupdate ⟨o, rfl⟩
        | _ => exact htouched
      obtain ⟨hsound, hexact⟩ := quiet_step (findAuthority_congr hsame) hplugin
      exact ⟨hsound hs, fun account htouched => absurd htouched (htouches account),
        fun account _ => hexact account⟩

end Kept

section Runs

variable {env : Env} {supply : ℕ} {run : List (Moment Observed Event)} {s t : Observed}
  {account : AccountName}

/-- The chain before any operation, with an index without records. -/
def genesis (env : Env) (supply : ℕ) : Observed := ⟨initGenesis env supply, .empty⟩

/-- The chain at genesis is sound. -/
theorem sound_genesis : Sound (genesis env supply) := by
  refine ⟨?_, List.nodup_nil⟩
  rintro account key ⟨o, ho, -⟩
  cases ho

/-- A run keeps the chain sound. -/
theorem sound_run (hrun : Path Step s run t) (hs : Sound s) : Sound t :=
  hrun.invariant hs fun _ _ hstep h => (step_exact hstep h).1

/-- In a run whose updates keep no key without a record, the records of every account that
it touched are the keys of that account. -/
theorem records_exact (hrun : Path Step (genesis env supply) run t)
    (hkeeps : ∀ m ∈ run, KeepsRecorded m) (htouched : ∃ m ∈ run, Touches account m.event) :
    Exact t account := by
  obtain ⟨m, hm, htouches⟩ := htouched
  obtain ⟨earlier, later, hsplit, hearlier, hstep, hlater⟩ := hrun.moment hm
  obtain ⟨hsound, hexact, -⟩ := step_exact hstep (sound_run hearlier sound_genesis)
  have hkept := (hexact account htouches).mpr (hkeeps m hm)
  -- from the moment that touches the account on, its records stay its keys
  have hend : Sound t ∧ Exact t account := by
    refine hlater.invariant (P := fun s => Sound s ∧ Exact s account) ⟨hsound, hkept⟩ ?_
    rintro m' hm' hstep' ⟨hsound', hexact'⟩
    obtain ⟨hsound'', htouch, hother⟩ := step_exact hstep' hsound'
    refine ⟨hsound'', ?_⟩
    by_cases htouches' : Touches account m'.event
    · have hmem : m' ∈ run := by
        rw [hsplit]
        simp [hm']
      exact (htouch account htouches').mpr (hkeeps m' hmem)
    · exact hother account htouches' hexact'
  exact hend.2

/-- The context of the small instance. -/
def indexContext : Context := ⟨sampleEnv, {}, false, 10000⟩

/-- A miner of the first state changes its memo key. -/
def newMemoKey : AccountUpdateOperation := ⟨initMinerName 0, none, none, none, ⟨2⟩, []⟩

/-- A miner of the first state replaces all its keys. -/
def newKeys : AccountUpdateOperation :=
  ⟨initMinerName 0, some (keyAuthority ⟨2⟩), some (keyAuthority ⟨2⟩), some (keyAuthority ⟨2⟩),
    ⟨2⟩, []⟩

/-- What the plugin has and the keys of the miner are after one update in the first state. -/
def afterUpdate (o : AccountUpdateOperation) (s : ChainState) :
    Option (List KeyLookupObject × List PublicKey) :=
  match postOperation s (.accountUpdate o)
      (preOperation (initGenesis sampleEnv 1000000) (.accountUpdate o) .empty) with
  | .ok p => (findAuthority s o.account).map fun auth => (p.keyLookups.rows, keyAuthsOf auth)
  | .error _ => none

/-- One update in the first state. -/
theorem one_update {o : AccountUpdateOperation} {found : List KeyLookupObject × List PublicKey}
    (h : endsIn (applyOperation indexContext (.accountUpdate o)) (initGenesis sampleEnv 1000000)
      (fun _ s => afterUpdate o s = some found) = true) :
    ∃ t, Path Step (genesis sampleEnv 1000000)
        [⟨genesis sampleEnv 1000000, .applied indexContext (.accountUpdate o), t⟩] t ∧
      t.plugin.keyLookups.rows = found.1 ∧
      ∃ auth, findAuthority t.chain o.account = some auth ∧ keyAuthsOf auth = found.2 := by
  obtain ⟨_, s, hs, hfound⟩ := returns_of_endsIn h
  have hfound := of_decide_eq_true hfound
  unfold afterUpdate at hfound
  split at hfound
  · next p hp =>
    obtain ⟨auth, hauth, rfl⟩ := Option.map_eq_some_iff.mp hfound
    exact ⟨⟨s, p⟩, Path.single ⟨hs, hp⟩, rfl, auth, hauth, rfl⟩
  · cases hfound

/-- After new keys the records of the instance are exact. -/
theorem records_exact_newKeys : ∃ run t, Path Step (genesis sampleEnv 1000000) run t ∧
    (∃ m ∈ run, Touches (initMinerName 0) m.event) ∧ Exact t (initMinerName 0) := by
  have hends : endsIn (applyOperation indexContext (.accountUpdate newKeys))
      (initGenesis sampleEnv 1000000)
      (fun _ s => afterUpdate newKeys s =
        some ([⟨0, ⟨2⟩, initMinerName 0⟩], [⟨2⟩, ⟨2⟩, ⟨2⟩])) = true := by decide +kernel
  obtain ⟨t, hrun, -⟩ := one_update hends
  refine ⟨_, t, hrun, ⟨_, List.mem_singleton_self _, rfl⟩, records_exact hrun ?_
    ⟨_, List.mem_singleton_self _, rfl⟩⟩
  intro m hm
  rw [List.mem_singleton.mp hm]
  -- the new keys are none of the old ones
  have hold : (findAuthority (initGenesis sampleEnv 1000000) (initMinerName 0)).all
      (fun auth => (keyAuthsOf auth).all fun key =>
        key ∉ keyAuthsOf (updatedAuthority newKeys auth)) = true := by decide +kernel
  intro auth hauth key hkey hnew
  have hauth' : findAuthority (initGenesis sampleEnv 1000000) (initMinerName 0) = some auth := hauth
  rw [hauth'] at hold
  have hnone := List.all_eq_true.mp hold key hkey
  exact absurd hnew (of_decide_eq_true hnone)

/-- An update that keeps the keys of an account of the first state leaves the account
without records. -/
theorem records_not_exact : ¬ ∀ run t, Path Step (genesis sampleEnv 1000000) run t →
    ∀ account, (∃ m ∈ run, Touches account m.event) → Exact t account := by
  intro hall
  have hends : endsIn (applyOperation indexContext (.accountUpdate newMemoKey))
      (initGenesis sampleEnv 1000000)
      (fun _ s => afterUpdate newMemoKey s =
        some ([], [sampleKey, sampleKey, sampleKey])) = true := by decide +kernel
  obtain ⟨t, hrun, hrows, auth, hauth, hkeys⟩ := one_update hends
  obtain ⟨auth', hauth', hexact, -⟩ :=
    hall _ t hrun (initMinerName 0) ⟨_, List.mem_singleton_self _, rfl⟩
  obtain rfl : auth = auth' := Option.some.inj (hauth.symm.trans hauth')
  have hkey : sampleKey ∈ keyAuthsOf auth := by
    rw [hkeys]
    exact List.mem_cons_self ..
  obtain ⟨o, ho, -⟩ := (hexact sampleKey).mpr hkey
  rw [hrows] at ho
  cases ho

end Runs

end Whaleshares.KeyIndexRun
