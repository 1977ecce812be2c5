import Whaleshares.LabelledRun
import Whaleshares.LockedAccount

/-!
# The index of accounts by their keys

The plugin `account_by_key` (`account_by_key_plugin.cpp`) keeps a record for every key of
an account. It sees every operation twice: before it is applied it fills a cache with the
keys that the account has, and after it the cache decides which of the keys that the
account has now get a record and which records go.

The operations are applied by the chain. Signals catch what a plugin throws; nothing is
thrown here.
-/

namespace Whaleshares.AccountByKey

open Fc Protocol Objects Program Database Evaluators CommentEvaluators Genesis Footprint
  LockedAccount LabelledRun

section Plugin

/-- `key_lookup_object` -/
structure KeyLookupObject where
  id : ℕ
  key : PublicKey
  account : AccountName
  deriving DecidableEq

/-- The index and the memory of the plugin. -/
structure Plugin where
  /-- `key_lookup_index` -/
  keyLookups : Table KeyLookupObject
  /-- `cached_keys` -/
  cachedKeys : List PublicKey

/-- The plugin of a chain without operations. -/
def Plugin.empty : Plugin := ⟨.empty, []⟩

/-- `insert` into a `flat_set` of keys. -/
def insertKey (keys : List PublicKey) (key : PublicKey) : List PublicKey :=
  if key ∈ keys then keys else keys.orderedInsert (fun a b => a.data ≤ b.data) key

/-- The keys of an account in the order of the source. -/
def keyAuthsOf (a : AccountAuthorityObject) : List PublicKey :=
  (a.owner.keyAuths ++ a.active.keyAuths ++ a.posting.keyAuths).map Prod.fst

/-- `clear_cache` -/
def clearCache (p : Plugin) : Plugin := { p with cachedKeys := [] }

/-- `cache_auths` -/
def cacheAuths (a : AccountAuthorityObject) (p : Plugin) : Plugin :=
  { p with cachedKeys := (keyAuthsOf a).foldl insertKey p.cachedKeys }

/-- `find< key_lookup_object, by_key >( std::make_tuple( key, account ) )` -/
def isLookup (key : PublicKey) (account : AccountName) (o : KeyLookupObject) : Bool :=
  o.key = key && o.account = account

/-- What `update_key_lookup` does for a key that the account has now. -/
def keepKey (account : AccountName) (p : Plugin) (key : PublicKey) : Except Exc Plugin :=
  if key ∉ p.cachedKeys then
    match p.keyLookups.find (isLookup key account) with
    | none => do
      let lookups ← p.keyLookups.create couldNotInsert
        (fun a b => a.key = b.key && a.account = b.account) fun id => .ok ⟨id, key, account⟩
      pure { p with keyLookups := lookups }
    | some _ => pure p
  -- the key was in the authorities before
  else pure { p with cachedKeys := p.cachedKeys.filter (· ≠ key) }

/-- What `update_key_lookup` does for a key that the account had. -/
def dropKey (account : AccountName) (lookups : Table KeyLookupObject) (key : PublicKey) :
    Table KeyLookupObject :=
  lookups.remove (isLookup key account)

/-- `update_key_lookup` -/
def updateKeyLookup (a : AccountAuthorityObject) (p : Plugin) : Except Exc Plugin := do
  let newKeys := (keyAuthsOf a).foldl insertKey []
  let p ← newKeys.foldlM (keepKey a.account) p
  pure ⟨p.cachedKeys.foldl (dropKey a.account) p.keyLookups, []⟩

/-- `find< account_authority_object, by_account >` -/
def findAuthority (s : ChainState) (account : AccountName) : Option AccountAuthorityObject :=
  s.accountAuthorities.find fun auth => auth.account = account

/-- The cache of the keys of an account, if there is one of the name. -/
def cacheAccount (s : ChainState) (account : AccountName) (p : Plugin) : Plugin :=
  match findAuthority s account with
  | some a => cacheAuths a (clearCache p)
  | none => clearCache p

/-- The update of the records of an account, if there is one of the name. -/
def updateAccount (s : ChainState) (account : AccountName) (p : Plugin) : Except Exc Plugin :=
  match findAuthority s account with
  | some a => updateKeyLookup a p
  | none => .ok p

/-- `pre_operation` -/
def preOperation (s : ChainState) (op : Operation) (p : Plugin) : Plugin :=
  match op with
  | .accountCreate _ => clearCache p
  | .accountUpdate o => cacheAccount s o.account p
  | .accountForsale _ => clearCache p
  | .accountBuying o => cacheAccount s o.accountBuy p
  | _ => p

/-- `post_operation` -/
def postOperation (s : ChainState) (op : Operation) (p : Plugin) : Except Exc Plugin :=
  match op with
  | .accountCreate o => updateAccount s o.newAccountName p
  | .accountUpdate o => updateAccount s o.account p
  | .accountBuying o => updateAccount s o.accountBuy p
  | _ => .ok p

end Plugin

section Sets

/-- An inserted key is among the keys. -/
theorem mem_insertKey {keys : List PublicKey} {key k : PublicKey} :
    k ∈ insertKey keys key ↔ k = key ∨ k ∈ keys := by
  unfold insertKey
  split
  · next hmem =>
    constructor
    · exact .inr
    · rintro (rfl | hk)
      · exact hmem
      · exact hk
  · rw [List.mem_orderedInsert]

/-- Inserted keys are among the keys. -/
theorem mem_insertKeys {more keys : List PublicKey} {k : PublicKey} :
    k ∈ more.foldl insertKey keys ↔ k ∈ more ∨ k ∈ keys := by
  induction more generalizing keys with
  | nil => simp
  | cons key rest ih =>
    rw [List.foldl_cons, ih, mem_insertKey, List.mem_cons]
    tauto

/-- An insertion keeps the keys different. -/
theorem nodup_insertKey {keys : List PublicKey} (key : PublicKey) (h : keys.Nodup) :
    (insertKey keys key).Nodup := by
  unfold insertKey
  split
  · exact h
  · next hmem =>
    exact (List.perm_orderedInsert _ key keys).nodup_iff.mpr (List.nodup_cons.mpr ⟨hmem, h⟩)

/-- Insertions keep the keys different. -/
theorem nodup_insertKeys (more : List PublicKey) {keys : List PublicKey} (h : keys.Nodup) :
    (more.foldl insertKey keys).Nodup := by
  induction more generalizing keys with
  | nil => exact h
  | cons key rest ih => exact ih (nodup_insertKey key h)

end Sets

section Update

/-- The index has a record of a key of an account. -/
def Recorded (p : Plugin) (account : AccountName) (key : PublicKey) : Prop :=
  ∃ o ∈ p.keyLookups.rows, o.key = key ∧ o.account = account

/-- The index has at most one record of a key of an account. -/
def KeysUnique (p : Plugin) : Prop := (p.keyLookups.rows.map fun o => (o.account, o.key)).Nodup

variable {account other : AccountName} {key k : PublicKey} {p q : Plugin}

/-- A lookup is found exactly if it is recorded. -/
theorem find_isLookup_isSome :
    (p.keyLookups.find (isLookup key account)).isSome ↔ Recorded p account key := by
  unfold Table.find Recorded isLookup
  rw [List.find?_isSome]
  simp

/-- What a key that the account has now changes: without a place in the cache it gets a
record, with one it leaves the cache. -/
theorem keepKey_spec (account : AccountName) (p : Plugin) (key : PublicKey) :
    ∃ q, keepKey account p key = .ok q ∧
      (∀ other k, Recorded q other k ↔
        Recorded p other k ∨ (other = account ∧ k = key ∧ key ∉ p.cachedKeys)) ∧
      q.cachedKeys = p.cachedKeys.filter (· ≠ key) ∧ (KeysUnique p → KeysUnique q) := by
  have hsame : key ∉ p.cachedKeys → p.cachedKeys.filter (· ≠ key) = p.cachedKeys := by
    intro hmem
    rw [List.filter_eq_self]
    intro k hk
    have hne : k ≠ key := by
      rintro rfl
      exact hmem hk
    simpa using hne
  unfold keepKey
  by_cases hmem : key ∈ p.cachedKeys
  · rw [if_neg (not_not.mpr hmem)]
    refine ⟨_, rfl, ?_, rfl, id⟩
    intro other k
    simp [Recorded, hmem]
  · rw [if_pos hmem]
    cases hfind : p.keyLookups.find (isLookup key account) with
    | some row =>
      have hrecorded : Recorded p account key := by
        rw [← find_isLookup_isSome, hfind]
        rfl
      refine ⟨p, rfl, ?_, (hsame hmem).symm, id⟩
      intro other k
      constructor
      · exact .inl
      · rintro (h | ⟨rfl, rfl, -⟩)
        · exact h
        · exact hrecorded
    | none =>
      have habsent : ¬ Recorded p account key := by
        rw [← find_isLookup_isSome, hfind]
        nofun
      have hcreate : p.keyLookups.create couldNotInsert
          (fun a b => a.key = b.key && a.account = b.account) (fun id => .ok ⟨id, key, account⟩) =
          .ok ⟨p.keyLookups.rows ++ [⟨p.keyLookups.nextId, key, account⟩],
            p.keyLookups.nextId + 1⟩ := by
        refine Table.create_of rfl fun o ho => Bool.eq_false_iff.mpr fun hboth => ?_
        simp only [Bool.and_eq_true, decide_eq_true_eq] at hboth
        exact habsent ⟨o, ho, hboth.1.symm, hboth.2.symm⟩
      rw [hcreate]
      refine ⟨_, rfl, ?_, (hsame hmem).symm, ?_⟩
      · intro other k
        simp only [Recorded, List.mem_append, List.mem_singleton]
        constructor
        · rintro ⟨o, ho | rfl, hkey, haccount⟩
          · exact .inl ⟨o, ho, hkey, haccount⟩
          · exact .inr ⟨haccount.symm, hkey.symm, hmem⟩
        · rintro (⟨o, ho, hboth⟩ | ⟨rfl, rfl, -⟩)
          · exact ⟨o, .inl ho, hboth⟩
          · exact ⟨_, .inr rfl, rfl, rfl⟩
      · intro hunique
        unfold KeysUnique at hunique ⊢
        rw [List.map_append, List.nodup_append]
        refine ⟨hunique, List.nodup_singleton _, ?_⟩
        rintro x hx y hy rfl
        obtain ⟨o, ho, heq⟩ := List.mem_map.mp hx
        rw [List.map_singleton, List.mem_singleton] at hy
        rw [hy, Prod.mk.injEq] at heq
        exact habsent ⟨o, ho, heq.2, heq.1⟩

/-- What all keys of the account change. -/
theorem keepKeys_spec (account : AccountName) (keys : List PublicKey) (hkeys : keys.Nodup)
    (p : Plugin) :
    ∃ q, keys.foldlM (keepKey account) p = .ok q ∧
      (∀ other k, Recorded q other k ↔
        Recorded p other k ∨ (other = account ∧ k ∈ keys ∧ k ∉ p.cachedKeys)) ∧
      (∀ k, k ∈ q.cachedKeys ↔ k ∈ p.cachedKeys ∧ k ∉ keys) ∧ (KeysUnique p → KeysUnique q) := by
  induction keys generalizing p with
  | nil => exact ⟨p, rfl, by simp, by simp, id⟩
  | cons key rest ih =>
    obtain ⟨hnew, hrest⟩ := List.nodup_cons.mp hkeys
    obtain ⟨p₁, hfirst, hrecorded₁, hcached₁, hunique₁⟩ := keepKey_spec account p key
    obtain ⟨q, hlater, hrecorded, hcached, hunique⟩ := ih hrest p₁
    have hmem : ∀ k, k ∈ p₁.cachedKeys ↔ k ∈ p.cachedKeys ∧ k ≠ key := by
      intro k
      rw [hcached₁, List.mem_filter]
      simp
    refine ⟨q, ?_, ?_, ?_, fun h => hunique (hunique₁ h)⟩
    · rw [List.foldlM_cons, hfirst]
      exact hlater
    · intro other k
      have hne : k ∈ rest → k ≠ key := by
        rintro hk rfl
        exact hnew hk
      rw [hrecorded, hrecorded₁, hmem, List.mem_cons]
      constructor
      · rintro ((h | ⟨rfl, rfl, h⟩) | ⟨rfl, hk, h⟩)
        · exact .inl h
        · exact .inr ⟨rfl, .inl rfl, h⟩
        · exact .inr ⟨rfl, .inr hk, fun hin => h ⟨hin, hne hk⟩⟩
      · rintro (h | ⟨rfl, rfl | hk, h⟩)
        · exact .inl (.inl h)
        · exact .inl (.inr ⟨rfl, rfl, h⟩)
        · exact .inr ⟨rfl, hk, fun hin => h hin.1⟩
    · intro k
      rw [hcached, hmem, List.mem_cons]
      tauto

/-- What the keys that the account lost change. -/
theorem dropKeys_spec (account : AccountName) (keys cached : List PublicKey)
    (lookups : Table KeyLookupObject) :
    (∀ other k, Recorded ⟨keys.foldl (dropKey account) lookups, cached⟩ other k ↔
        Recorded ⟨lookups, cached⟩ other k ∧ ¬ (other = account ∧ k ∈ keys)) ∧
      (KeysUnique ⟨lookups, cached⟩ → KeysUnique ⟨keys.foldl (dropKey account) lookups, cached⟩) := by
  induction keys generalizing lookups with
  | nil => simp
  | cons key rest ih =>
    obtain ⟨hrecorded, hunique⟩ := ih (dropKey account lookups key)
    constructor
    · intro other k
      rw [List.foldl_cons, hrecorded]
      have hdrop : Recorded ⟨dropKey account lookups key, cached⟩ other k ↔
          Recorded ⟨lookups, cached⟩ other k ∧ ¬ (other = account ∧ k = key) := by
        unfold Recorded dropKey Table.remove isLookup
        simp only [List.mem_filter]
        constructor
        · rintro ⟨o, ⟨ho, hkept⟩, rfl, rfl⟩
          refine ⟨⟨o, ho, rfl, rfl⟩, ?_⟩
          rintro ⟨haccount, hkey⟩
          simp [haccount, hkey] at hkept
        · rintro ⟨⟨o, ho, rfl, rfl⟩, hkept⟩
          refine ⟨o, ⟨ho, ?_⟩, rfl, rfl⟩
          simp only [Bool.not_eq_true', Bool.and_eq_false_iff, decide_eq_false_iff_not]
          by_cases haccount : o.account = account
          · exact .inl fun hkey => hkept ⟨haccount, hkey⟩
          · exact .inr haccount
      rw [hdrop, List.mem_cons]
      tauto
    · intro h
      refine hunique ?_
      unfold KeysUnique dropKey Table.remove at *
      exact h.sublist (List.filter_sublist.map _)

/-- What `update_key_lookup` changes: nothing for other accounts; for the account, its new
keys that are not cached get a record, and its cached keys that it lost have none left. -/
theorem updateKeyLookup_spec (a : AccountAuthorityObject) (p : Plugin) :
    ∃ q, updateKeyLookup a p = .ok q ∧
      (∀ other k, other ≠ a.account → (Recorded q other k ↔ Recorded p other k)) ∧
      (∀ k, Recorded q a.account k ↔
        (k ∈ keyAuthsOf a ∧ k ∉ p.cachedKeys) ∨
          (Recorded p a.account k ∧ (k ∈ keyAuthsOf a ∨ k ∉ p.cachedKeys))) ∧
      (KeysUnique p → KeysUnique q) := by
  obtain ⟨q, hq, hrecorded, hcached, hunique⟩ := keepKeys_spec a.account
    ((keyAuthsOf a).foldl insertKey []) (nodup_insertKeys _ List.nodup_nil) p
  have hmem : ∀ k, k ∈ (keyAuthsOf a).foldl insertKey [] ↔ k ∈ keyAuthsOf a := by
    intro k
    simp [mem_insertKeys]
  obtain ⟨hdropped, hkept⟩ := dropKeys_spec a.account q.cachedKeys [] q.keyLookups
  have hrow : ∀ other k, Recorded ⟨q.keyLookups, []⟩ other k ↔ Recorded q other k :=
    fun _ _ => Iff.rfl
  refine ⟨⟨q.cachedKeys.foldl (dropKey a.account) q.keyLookups, []⟩, ?_, ?_, ?_, ?_⟩
  · unfold updateKeyLookup
    simp only [hq]
    rfl
  · intro other k hother
    rw [hdropped, hrow, hrecorded]
    simp [hother]
  · intro k
    rw [hdropped, hrow, hrecorded, hcached, hmem]
    tauto
  · intro h
    exact hkept (hunique h)

end Update

section Chain

variable {s t : ChainState} {ctx : Context} {u : Unit} {account other : AccountName}

/-- Three authorities of an account. -/
def authorities (a : AccountAuthorityObject) : Authority × Authority × Authority :=
  (a.owner, a.active, a.posting)

/-- The keys of an account depend on its authorities alone. -/
theorem keyAuthsOf_congr {a b : AccountAuthorityObject} (h : authorities a = authorities b) :
    keyAuthsOf a = keyAuthsOf b := by
  unfold authorities at h
  unfold keyAuthsOf
  simp only [Prod.mk.injEq] at h
  rw [h.1, h.2.1, h.2.2]

/-- Authorities that are found are those of the account. -/
theorem findAuthority_account {auth : AccountAuthorityObject}
    (h : findAuthority s account = some auth) : auth.account = account := by
  have hp := List.find?_some h
  simpa using hp

/-- What a change of the authorities of one account does to the authorities that are found. -/
theorem modifyAccountAuthority_find {f : AccountAuthorityObject → AccountAuthorityObject}
    (hf : ∀ auth, (f auth).account = auth.account)
    (h : Returns (modifyAccountAuthority account fun auth => .ok (f auth)) s u t) :
    ∃ auth, findAuthority s account = some auth ∧ findAuthority t account = some (f auth) ∧
      ∀ other, other ≠ account → findAuthority t other = findAuthority s other := by
  obtain ⟨x, hx, rfl⟩ := map_eq_ok h.update
  obtain ⟨before, a, b, after, hrows, hrows', hbefore, ha, hab⟩ := Table.modify_rows hx
  have hb : f a = b := Except.ok.inj hab
  have haccount : a.account = account := of_decide_eq_true ha
  have hnone : before.find? (fun auth => decide (auth.account = account)) = none :=
    List.find?_eq_none.mpr fun auth hauth => by simp [hbefore auth hauth]
  refine ⟨a, ?_, ?_, ?_⟩
  · unfold findAuthority Table.find
    rw [hrows, List.find?_append, hnone]
    simp [haccount]
  · unfold findAuthority Table.find
    rw [hrows', List.find?_append, hnone, ← hb]
    simp [hf, haccount]
  · intro other hother
    unfold findAuthority Table.find
    rw [hrows, hrows', List.find?_append, List.find?_append, ← hb]
    simp [hf, haccount, Ne.symm hother]

/-- The authorities of an account after an update of it. -/
def updatedAuthority (o : AccountUpdateOperation) (auth : AccountAuthorityObject) :
    AccountAuthorityObject :=
  { auth with
    owner := o.owner.getD auth.owner, active := o.active.getD auth.active
    posting := o.posting.getD auth.posting }

/-- The same authorities are found for every account. -/
theorem findAuthority_congr (h : SameAuthorities s t) (account : AccountName) :
    findAuthority t account = findAuthority s account := by
  unfold findAuthority
  rw [show t.accountAuthorities = s.accountAuthorities from h]

/-- What an update of an account does to the authorities that are found. -/
theorem applyAccountUpdate_find {o : AccountUpdateOperation}
    (h : Returns (applyAccountUpdate o) s u t) :
    ∃ auth auth', findAuthority s o.account = some auth ∧ findAuthority t o.account = some auth' ∧
      auth'.account = o.account ∧ authorities auth' = authorities (updatedAuthority o auth) ∧
      ∀ other, other ≠ o.account → findAuthority t other = findAuthority s other := by
  obtain ⟨_, -, h⟩ := h.lift_bind
  obtain ⟨_, -, h⟩ := h.lift_bind
  obtain ⟨_, -, h⟩ := lookup_bind h
  obtain ⟨auth, hauth, h⟩ := lookup_bind h
  obtain ⟨_, s₁, h₁, h⟩ := h.bind
  obtain ⟨_, s₂, h₂, h⟩ := h.bind
  obtain ⟨_, s₃, h₃, h⟩ := h.bind
  obtain ⟨_, s₄, h₄, h⟩ := h.gets_bind.bind
  have haccount : auth.account = o.account := findAuthority_account hauth
  -- the owner authority first
  have howner : ∃ auth₁, findAuthority s₁ o.account = some auth₁ ∧ auth₁.account = o.account ∧
      authorities auth₁ = (o.owner.getD auth.owner, auth.active, auth.posting) ∧
      ∀ other, other ≠ o.account → findAuthority s₁ other = findAuthority s other := by
    cases hnew : o.owner with
    | none =>
      rw [hnew] at h₁
      obtain ⟨-, rfl⟩ := h₁.pure
      exact ⟨auth, hauth, haccount, rfl, fun _ _ => rfl⟩
    | some owner =>
      rw [hnew] at h₁
      obtain ⟨_, s₀, h₀, hend⟩ := h₁.bind
      obtain ⟨-, rfl⟩ := hend.pure
      obtain ⟨_, -, h₀⟩ := lookup_bind h₀
      obtain ⟨_, -, h₀⟩ := h₀.gets_bind.lift_bind
      obtain ⟨_, v, hv, h₀⟩ := h₀.bind
      have hsame : SameAuthorities s v := (checkAccountAuths_keeps _).rel _ _ _ hv
      obtain ⟨old, hold, hnew', hothers⟩ :=
        modifyAccountAuthority_find (by intro; rfl) h₀.gets_bind
      have hfound : findAuthority s o.account = some auth := hauth
      rw [findAuthority_congr hsame, hfound, Option.some.injEq] at hold
      subst hold
      refine ⟨_, hnew', haccount, rfl, fun other hother => ?_⟩
      rw [hothers other hother, findAuthority_congr hsame]
  have hsame₂ : SameAuthorities s₁ s₂ := (Keeps.forEach checkAccountAuths_keeps _).rel _ _ _ h₂
  have hsame₃ : SameAuthorities s₂ s₃ := (Keeps.forEach checkAccountAuths_keeps _).rel _ _ _ h₃
  have hsame₄ : SameAuthorities s₃ s₄ :=
    (setAccount_keeps sameAuthorities_quietFrame fun _ => by rfl).rel _ _ _ h₄
  have hsame : ∀ other, findAuthority s₄ other = findAuthority s₁ other := by
    intro other
    rw [findAuthority_congr hsame₄, findAuthority_congr hsame₃, findAuthority_congr hsame₂]
  obtain ⟨auth₁, hfound₁, haccount₁, hparts₁, hothers₁⟩ := howner
  have hfields := hparts₁
  unfold authorities at hfields
  simp only [Prod.mk.injEq] at hfields
  obtain ⟨howner₁, hactive₁, hposting₁⟩ := hfields
  -- then the two others, where there are any
  rcases h.whenever with ⟨-, h⟩ | ⟨hnone, rfl⟩
  · obtain ⟨old, hold, hnew, hothers⟩ := modifyAccountAuthority_find (by intro; rfl) h
    rw [hsame, hfound₁, Option.some.injEq] at hold
    subst hold
    refine ⟨auth, _, hauth, hnew, haccount₁, ?_, fun other hother => ?_⟩
    · simp [authorities, updatedAuthority, howner₁, hactive₁, hposting₁]
    · rw [hothers other hother, hsame, hothers₁ other hother]
  · have hactive : o.active = none := by
      cases ho : o.active with
      | none => rfl
      | some a => simp [ho] at hnone
    have hposting : o.posting = none := by
      cases ho : o.posting with
      | none => rfl
      | some a => simp [ho] at hnone
    refine ⟨auth, auth₁, hauth, (hsame _).trans hfound₁, haccount₁, ?_, fun other hother => ?_⟩
    · rw [hparts₁]
      simp [authorities, updatedAuthority, hactive, hposting]
    · rw [hsame, hothers₁ other hother]

/-- What the creation of an account does to the authorities that are found: those of other
accounts stay, and so do those of an account of the same name. -/
theorem applyAccountCreate_find {o : AccountCreateOperation}
    (h : Returns (applyAccountCreate ctx o) s u t) :
    (∃ auth, findAuthority t o.newAccountName = some auth) ∧
      (∀ account auth, findAuthority s account = some auth →
        findAuthority t account = some auth) ∧
      ∀ other, other ≠ o.newAccountName → findAuthority t other = findAuthority s other := by
  have hR := sameAuthorities_stakeFrame ctx.env.toFcLib
  obtain ⟨s₁, s₂, s₃, hpays, hcreates, hauthorizes, hvests⟩ := applyAccountCreate_parts h
  have hsame₁ : SameAuthorities s s₁ := (modifyAnyAccount_keeps hR _ _).rel _ _ _ hpays
  have hsame₂ : SameAuthorities s₁ s₂ := (createAccount_keeps hR _).rel _ _ _ hcreates
  have hbefore : ∀ account, findAuthority s₂ account = findAuthority s account := by
    intro account
    rw [findAuthority_congr hsame₂, findAuthority_congr hsame₁]
  have hafter : SameAuthorities s₃ t := by
    rcases hvests with ⟨-, _, h⟩ | ⟨-, rfl⟩
    · exact (createVesting_keeps _ hR _ _ _).rel _ _ _ h
    · exact rfl
  obtain ⟨x, hx, rfl⟩ := map_eq_ok hauthorizes.update
  obtain ⟨row, hrow, -, hrows, -⟩ := Table.create_rows hx
  have hname : row.account = o.newAccountName := by rw [← Except.ok.inj hrow]
  have hfind : ∀ account, findAuthority t account =
      (findAuthority s account).or (if row.account = account then some row else none) := by
    intro account
    rw [findAuthority_congr hafter, ← hbefore]
    unfold findAuthority Table.find
    rw [hrows, List.find?_append]
    by_cases hsame : row.account = account
    · simp [hsame]
    · simp [hsame]
  refine ⟨?_, ?_, ?_⟩
  · rw [hfind, if_pos hname]
    cases findAuthority s o.newAccountName with
    | none => exact ⟨row, rfl⟩
    | some auth => exact ⟨auth, rfl⟩
  · intro account auth hauth
    rw [hfind, hauth]
    rfl
  · intro other hother
    rw [hfind, if_neg (by rw [hname]; exact hother.symm), Option.or_none]

end Chain

end Whaleshares.AccountByKey
