import Mathlib
import Whaleshares.IndexWalk
import Whaleshares.TrackedRanges

/-!
# The history of accounts

The plugin `account_history` (`account_history_plugin.cpp`) numbers the operations of every
tracked account and can drop those that are both far back and old. The loop that drops them is
right, but the option that is to disable it switches it on: with it set the old entries go, and
without it they stay. So the history is as the option says only while there is nothing to drop.
-/

namespace Whaleshares.AccountHistory

open Fc TrackedRanges IndexWalk

section Objects

/-- `operation_object` -/
structure OperationObject where
  id : ℕ
  trxId : ℕ
  block : ℕ
  trxInBlock : ℕ
  opInTrx : ℕ
  virtualOp : ℕ
  timestamp : TimePointSec
  serializedOp : Bytes
  deriving DecidableEq

/-- `account_history_object` -/
structure AccountHistoryObject where
  id : ℕ
  account : AccountName
  sequence : UInt32
  op : ℕ
  deriving DecidableEq

/-- The tables of the plugin. -/
structure History where
  /-- `operation_index` -/
  operations : Table OperationObject
  /-- `account_history_index` -/
  entries : Table AccountHistoryObject

/-- The tables before any operation. -/
def History.empty : History := ⟨.empty, .empty⟩

/-- `operation_notification`, with what the plugin asks of the operation. -/
structure OperationNotification where
  trxId : ℕ
  block : ℕ
  trxInBlock : ℕ
  opInTrx : ℕ
  virtualOp : ℕ
  /-- `fc::raw::pack( op )` -/
  packed : Bytes
  /-- `fc::get_typename< T >::name()` -/
  typeName : Bytes
  /-- The set that `operation_get_impacted_accounts` fills. -/
  impacted : List AccountName
  distinct : impacted.Nodup

/-- What keeps a recording from its end. -/
inductive Fault where
  /-- A step back from the begin of the index, which is undefined. -/
  | beginIterator
  /-- An exception of the database. -/
  | thrown
  deriving DecidableEq

end Objects

section Options

/-- The options of the plugin. -/
structure Options where
  /-- `track-account-range`, parsed -/
  trackAccountRange : AccountRanges := []
  /-- `history-whitelist-ops` -/
  historyWhitelistOps : Option (List Bytes) := none
  /-- `history-blacklist-ops` -/
  historyBlacklistOps : Option (List Bytes) := none
  /-- `history-disable-pruning`; there is always a value. -/
  historyDisablePruning : Bool := false

/-- The members that the options set. -/
structure Settings where
  /-- `_tracked_accounts` -/
  trackedAccounts : AccountRanges := []
  /-- `_filter_content` -/
  filterContent : Bool := false
  /-- `_blacklist` -/
  blacklist : Bool := false
  /-- `_op_list` -/
  opList : List Bytes := []
  /-- `_prune` -/
  prune : Bool := true

/-- `boost::split` of an argument at blanks, tabs and commas. -/
def splitOps (arg : Bytes) : List Bytes := arg.splitOnP fun b => b = 32 || b = 9 || b = 44

/-- The operations of a list of arguments. -/
def opNames (args : List Bytes) : List Bytes :=
  ((args.flatMap splitOps).filter fun op => 0 < op.length).map (bytesOf "wls::protocol::" ++ ·)

/-- `plugin_initialize` -/
def pluginInitialize (o : Options) : Settings :=
  let cfg : Settings := { trackedAccounts := o.trackAccountRange }
  let cfg := match o.historyWhitelistOps, o.historyBlacklistOps with
    | some args, _ => { cfg with filterContent := true, blacklist := false, opList := opNames args }
    | none, some args =>
      { cfg with filterContent := true, blacklist := true, opList := opNames args }
    | none, none => cfg
  { cfg with prune := o.historyDisablePruning }

end Options

section Plugin

/-- The order of `by_account`: the accounts ascend, the numbers of one account descend. -/
def accountOrder (a b : AccountHistoryObject) : Bool :=
  a.account.packed < b.account.packed || (a.account = b.account && b.sequence ≤ a.sequence)

/-- The entries from the lower bound of an account and the greatest number on. -/
def entriesFrom (item : AccountName) (entries : Table AccountHistoryObject) :
    List AccountHistoryObject :=
  entries.select (fun e => item.packed ≤ e.account.packed) accountOrder

/-- The entries in front of the lower bound of an account and zero, backwards. -/
def entriesBefore (item : AccountName) (entries : Table AccountHistoryObject) :
    List AccountHistoryObject :=
  entries.select (fun e => e.account.packed < item.packed || (e.account = item && 0 < e.sequence))
    fun a b => accountOrder b a

/-- The number of the next entry of an account. -/
def nextSequence (item : AccountName) (entries : Table AccountHistoryObject) : UInt32 :=
  match (entriesFrom item entries).head? with
  | some e => if e.account = item then e.sequence + 1 else 1
  | none => 1

/-- Thirty days. -/
def thirtyDays : ℕ := 60 * 60 * 24 * 30

/-- The loop that collects what is to go. The time is that of the operation of the entry. -/
def collectOld (operations : Table OperationObject) (item : AccountName) (sequence : UInt32)
    (now : TimePointSec) : List AccountHistoryObject → Except Fault (List AccountHistoryObject)
  | [] => .error .beginIterator
  | e :: rest =>
    if e.account = item && 30 < sequence - e.sequence then
      match operations.find fun o => o.id = e.op with
      | none => .error .thrown
      | some o =>
        if o.timestamp + thirtyDays < now then
          (collectOld operations item sequence now rest).map (e :: ·)
        else .ok []
    else .ok []

/-- The entries without those that have been collected. -/
def removeAll (old : List AccountHistoryObject) (entries : Table AccountHistoryObject) :
    Table AccountHistoryObject :=
  old.foldl (fun entries e => entries.remove (·.id = e.id)) entries

/-- The part of the visitor that drops old entries. -/
def pruneOld (operations : Table OperationObject) (item : AccountName) (sequence : UInt32)
    (now : TimePointSec) (entries : Table AccountHistoryObject) :
    Except Fault (Table AccountHistoryObject) :=
  match entriesBefore item entries with
  | [] => .ok entries
  | before => (collectOld operations item sequence now before).map (removeAll · entries)

/-- The object of an operation. -/
def OperationNotification.object (note : OperationNotification) (now : TimePointSec) (id : ℕ) :
    OperationObject :=
  ⟨id, note.trxId, note.block, note.trxInBlock, note.opInTrx, note.virtualOp, now, note.packed⟩

/-- The object of the operation: the first recording creates it. -/
def operationFor (now : TimePointSec) (note : OperationNotification) (newObj : Option ℕ)
    (operations : Table OperationObject) : Except Fault (Table OperationObject × ℕ) :=
  match newObj with
  | some id => .ok (operations, id)
  | none =>
    (operations.create .thrown (fun _ _ => false) fun id => .ok (note.object now id)).map
      (·, operations.nextId)

/-- A new entry; accounts and numbers are unique. -/
def createEntry (item : AccountName) (sequence : UInt32) (op : ℕ)
    (entries : Table AccountHistoryObject) : Except Fault (Table AccountHistoryObject) :=
  entries.create .thrown (fun a b => a.account = b.account && a.sequence = b.sequence)
    fun id => .ok ⟨id, item, sequence, op⟩

/-- `operation_visitor::operator()` -/
def record (prune : Bool) (now : TimePointSec) (note : OperationNotification)
    (st : History × Option ℕ) (item : AccountName) : Except Fault (History × Option ℕ) := do
  let (operations, op) ← operationFor now note st.2 st.1.operations
  let sequence := nextSequence item st.1.entries
  let entries ← createEntry item sequence op st.1.entries
  let entries ← if prune then pruneOld operations item sequence now entries else .ok entries
  .ok (⟨operations, entries⟩, some op)

/-- The filter of the visitors. -/
def passesFilter (cfg : Settings) (note : OperationNotification) : Bool :=
  if cfg.filterContent then
    if cfg.opList.contains note.typeName then !cfg.blacklist else cfg.blacklist
  else true

/-- Whether an operation is recorded for an account that it impacts. -/
def isRecorded (cfg : Settings) (note : OperationNotification) (item : AccountName) : Bool :=
  tracksAccount cfg.trackedAccounts item && passesFilter cfg note

/-- `on_operation` -/
def onOperation (cfg : Settings) (now : TimePointSec) (note : OperationNotification)
    (s : History) : Except Fault History :=
  (note.impacted.foldlM (fun st item =>
    if isRecorded cfg note item then record cfg.prune now note st item else .ok st)
      (s, none)).map (·.1)

end Plugin

section Spec

/-- An entry is among the last 31 numbers or its operation is at most thirty days old. -/
def Recent (operations : Table OperationObject) (now : TimePointSec) (sequence : ℕ)
    (e : AccountHistoryObject) : Prop :=
  sequence ≤ e.sequence.toNat + 30 ∨
    ∀ o ∈ operations.rows, o.id = e.op → now ≤ o.timestamp + thirtyDays

/-- The entries of an account have consecutive numbers that end at a number. -/
def Numbered (entries : Table AccountHistoryObject) (account : AccountName) (count : ℕ) : Prop :=
  ∃ first ≤ count, (first = count → count = 0) ∧ ∀ i,
    (∃ e ∈ entries.rows, e.account = account ∧ e.sequence.toNat = i) ↔ first < i ∧ i ≤ count

/-- After an operation with a number, an account has the new entry and of the ones before it
those that are to be retained. -/
def Retains (retained : AccountHistoryObject → Prop) (sequence : ℕ) (account : AccountName)
    (before after : Table AccountHistoryObject) : Prop :=
  ∃ new : AccountHistoryObject, new.account = account ∧ new.sequence.toNat = sequence ∧
    new ∉ before.rows ∧ ∀ e, e.account = account →
      (e ∈ after.rows ↔ e = new ∨ e ∈ before.rows ∧ retained e)

/-- The entries of an account are the same. -/
def SameEntries (account : AccountName) (before after : Table AccountHistoryObject) : Prop :=
  ∀ e, e.account = account → (e ∈ after.rows ↔ e ∈ before.rows)

/-- An operation at a time. -/
structure Event where
  now : TimePointSec
  note : OperationNotification

/-- Whether an event is recorded for an account. -/
def Event.records (cfg : Settings) (ev : Event) (account : AccountName) : Bool :=
  decide (account ∈ ev.note.impacted) && isRecorded cfg ev.note account

/-- The number of operations that were recorded for an account. -/
def recordedCount (cfg : Settings) (done : List Event) (account : AccountName) : ℕ :=
  done.countP (·.records cfg account)

/-- The entries that are to stay: all of them, or the recent ones. -/
def ToStay (disabled : Bool) (operations : Table OperationObject) (now : TimePointSec)
    (sequence : ℕ) (e : AccountHistoryObject) : Prop :=
  disabled = true ∨ Recent operations now sequence e

/-- What an operation is to leave: consecutive numbers that end at the number of the recorded
operations, and for each account it is recorded for, the entries that are to stay. -/
structure Kept (o : Options) (done : List Event) (s : History) (ev : Event) (s' : History) :
    Prop where
  numbered : ∀ a, Numbered s'.entries a (recordedCount (pluginInitialize o) (done ++ [ev]) a)
  retained : ∀ a, ev.records (pluginInitialize o) a = true →
    Retains (ToStay o.historyDisablePruning s.operations ev.now
      (recordedCount (pluginInitialize o) done a + 1))
      (recordedCount (pluginInitialize o) done a + 1) a s.entries s'.entries
  others : ∀ a, ev.records (pluginInitialize o) a = false → SameEntries a s.entries s'.entries

/-- The operation is recorded as it is to be. -/
def Right (o : Options) (done : List Event) (s : History) (ev : Event) : Prop :=
  ∃ s', onOperation (pluginInitialize o) ev.now ev.note s = .ok s' ∧ Kept o done s ev s'

/-- There is nothing to be dropped, and the next number fits. -/
def NothingOld (o : Options) (done : List Event) (s : History) (ev : Event) : Prop :=
  ∀ a, ev.records (pluginInitialize o) a = true →
    recordedCount (pluginInitialize o) done a + 1 < 2 ^ 32 ∧
      ∀ e ∈ s.entries.rows, e.account = a →
        Recent s.operations ev.now (recordedCount (pluginInitialize o) done a + 1) e

/-- A property of each step of a run. -/
def EachStep (P : List Event → History → Event → Prop) (cfg : Settings) :
    List Event → History → List Event → Prop
  | _, _, [] => True
  | done, s, ev :: rest => P done s ev ∧ ∀ s', onOperation cfg ev.now ev.note s = .ok s' →
      EachStep P cfg (done ++ [ev]) s' rest

end Spec

section Tables

variable {s : History} {now now' : TimePointSec} {item a : AccountName} {count : ℕ}
  {entries entries' : Table AccountHistoryObject} {operations : Table OperationObject}

/-- The tables fit together: ids and keys are unique, every entry has its operation, and later
entries of an account have later operations. -/
structure Wellformed (s : History) (now : TimePointSec) : Prop where
  entryBelow : ∀ e ∈ s.entries.rows, e.id < s.entries.nextId
  entryIds : ∀ e ∈ s.entries.rows, ∀ e' ∈ s.entries.rows, e.id = e'.id → e = e'
  operationBelow : ∀ o ∈ s.operations.rows, o.id < s.operations.nextId
  operationIds : ∀ o ∈ s.operations.rows, ∀ o' ∈ s.operations.rows, o.id = o'.id → o = o'
  known : ∀ e ∈ s.entries.rows, ∃ o ∈ s.operations.rows, o.id = e.op
  past : ∀ o ∈ s.operations.rows, o.timestamp ≤ now
  ordered : ∀ e ∈ s.entries.rows, ∀ e' ∈ s.entries.rows, e.account = e'.account →
    e.sequence.toNat ≤ e'.sequence.toNat → ∀ o ∈ s.operations.rows, ∀ o' ∈ s.operations.rows,
      o.id = e.op → o'.id = e'.op → o.timestamp ≤ o'.timestamp

/-- The empty history is well formed. -/
theorem wellformed_empty : Wellformed .empty now where
  entryBelow := fun _ he => absurd he List.not_mem_nil
  entryIds := fun _ he => absurd he List.not_mem_nil
  operationBelow := fun _ ho => absurd ho List.not_mem_nil
  operationIds := fun _ ho => absurd ho List.not_mem_nil
  known := fun _ he => absurd he List.not_mem_nil
  past := fun _ ho => absurd ho List.not_mem_nil
  ordered := fun _ he => absurd he List.not_mem_nil

/-- A well-formed history is so at a later time. -/
theorem Wellformed.later (h : Wellformed s now) (hle : now ≤ now') : Wellformed s now' :=
  { h with past := fun o ho => le_trans (h.past o ho) hle }

/-- A later entry of an account is recent where an earlier one is. -/
theorem Wellformed.recent_later (h : Wellformed s now) {e e' : AccountHistoryObject}
    (he : e ∈ s.entries.rows) (he' : e' ∈ s.entries.rows) (haccount : e.account = e'.account)
    (hle : e.sequence.toNat ≤ e'.sequence.toNat) (hrecent : Recent s.operations now count e) :
    Recent s.operations now count e' := by
  obtain hclose | hyoung := hrecent
  · exact .inl (by omega)
  · refine .inr fun o' ho' hid' => ?_
    obtain ⟨o, ho, hid⟩ := h.known e he
    have hafter := h.ordered e he e' he' haccount hle o ho o' ho' hid hid'
    exact le_trans (hyoung o ho hid) (Nat.add_le_add_right hafter _)

/-- The numbers of an account only depend on its entries. -/
theorem Numbered.congr (h : Numbered entries a count) (hsame : SameEntries a entries entries') :
    Numbered entries' a count := by
  obtain ⟨first, hle, hnonempty, hiff⟩ := h
  refine ⟨first, hle, hnonempty, fun i => (exists_congr fun e => ?_).trans (hiff i)⟩
  constructor
  · rintro ⟨he, haccount, hi⟩
    exact ⟨(hsame e haccount).mp he, haccount, hi⟩
  · rintro ⟨he, haccount, hi⟩
    exact ⟨(hsame e haccount).mpr he, haccount, hi⟩

/-- The number of an entry is within those given to its account. -/
theorem Numbered.le (h : Numbered entries a count) {e : AccountHistoryObject}
    (he : e ∈ entries.rows) (haccount : e.account = a) :
    0 < e.sequence.toNat ∧ e.sequence.toNat ≤ count := by
  obtain ⟨first, -, -, hiff⟩ := h
  have hbounds := (hiff e.sequence.toNat).mp ⟨e, he, haccount, rfl⟩
  omega

/-- The order compares the accounts, then the sequence numbers. -/
theorem accountOrder_iff {b c : AccountHistoryObject} : accountOrder b c = true ↔
    b.account.packed < c.account.packed ∨
      b.account = c.account ∧ c.sequence.toNat ≤ b.sequence.toNat := by
  unfold accountOrder
  simp only [Bool.or_eq_true, Bool.and_eq_true, decide_eq_true_eq, UInt32.le_iff_toNat_le]

/-- An account is determined by its packed name. -/
theorem account_ext {b c : AccountName} (h : b.packed = c.packed) : b = c := by
  cases b
  cases c
  exact congrArg AccountName.mk h

/-- Any two entries are in order one way or the other. -/
theorem accountOrder_total (b c : AccountHistoryObject) :
    accountOrder b c = true ∨ accountOrder c b = true := by
  rw [accountOrder_iff, accountOrder_iff]
  obtain hlt | heq | hgt := Nat.lt_trichotomy b.account.packed c.account.packed
  · exact .inl (.inl hlt)
  · have hsame := account_ext heq
    exact (Nat.le_total c.sequence.toNat b.sequence.toNat).imp (fun h => .inr ⟨hsame, h⟩)
      fun h => .inr ⟨hsame.symm, h⟩
  · exact .inr (.inl hgt)

/-- The order of the entries is transitive. -/
theorem accountOrder_trans (b c d : AccountHistoryObject) (hbc : accountOrder b c = true)
    (hcd : accountOrder c d = true) : accountOrder b d = true := by
  rw [accountOrder_iff] at hbc hcd ⊢
  obtain hbc | ⟨hbc, hle⟩ := hbc
  · obtain hcd | ⟨hcd, -⟩ := hcd
    · exact .inl (hbc.trans hcd)
    · exact .inl (hcd ▸ hbc)
  · obtain hcd | ⟨hcd, hle'⟩ := hcd
    · exact .inl (hbc ▸ hcd)
    · exact .inr ⟨hbc.trans hcd, hle'.trans hle⟩

/-- The next number is the one after the number of recorded operations. -/
theorem nextSequence_toNat (h : Numbered entries item count) (hfits : count + 1 < 2 ^ 32) :
    (nextSequence item entries).toNat = count + 1 := by
  have hsorted : (entriesFrom item entries).Pairwise fun b c => accountOrder b c = true :=
    pairwise_select accountOrder_total accountOrder_trans
  have hmem (e : AccountHistoryObject) : e ∈ entriesFrom item entries ↔
      e ∈ entries.rows ∧ item.packed ≤ e.account.packed :=
    mem_select.trans (and_congr_right fun _ => decide_eq_true_iff)
  obtain ⟨first, hle, hnonempty, hiff⟩ := h
  unfold nextSequence
  cases hfrom : entriesFrom item entries with
  | nil =>
    have hzero : count = 0 := by
      by_contra hne
      obtain ⟨e, he, haccount, -⟩ := (hiff count).mpr ⟨by omega, le_rfl⟩
      have hin := (hmem e).mpr ⟨he, haccount ▸ le_rfl⟩
      rw [hfrom] at hin
      cases hin
    rw [hzero]
    rfl
  | cons head rest =>
    rw [hfrom] at hsorted
    obtain ⟨hhead, -⟩ := List.pairwise_cons.mp hsorted
    obtain ⟨hrow, hfromItem⟩ := (hmem head).mp (hfrom ▸ List.mem_cons_self)
    -- every entry of the account comes after the head
    have hafter : ∀ e ∈ entries.rows, e.account = item → e = head ∨ accountOrder head e = true := by
      intro e he haccount
      have hin := (hmem e).mpr ⟨he, haccount ▸ le_rfl⟩
      rw [hfrom] at hin
      exact (List.mem_cons.mp hin).imp_right (hhead e)
    simp only [List.head?_cons]
    by_cases haccount : head.account = item
    · rw [if_pos haccount]
      have hbounds := (hiff head.sequence.toNat).mp ⟨head, hrow, haccount, rfl⟩
      obtain ⟨e, he, heaccount, hcount⟩ := (hiff count).mpr ⟨by omega, le_rfl⟩
      have hlast : head.sequence.toNat = count := by
        obtain rfl | horder := hafter e he heaccount
        · exact hcount
        · obtain hlt | ⟨-, hge⟩ := accountOrder_iff.mp horder
          · rw [heaccount, haccount] at hlt
            exact absurd hlt (lt_irrefl _)
          · omega
      rw [UInt32.toNat_add, UInt32.toNat_one, hlast, Nat.mod_eq_of_lt hfits]
    · rw [if_neg haccount]
      have hzero : count = 0 := by
        by_contra hne
        obtain ⟨e, he, heaccount, -⟩ := (hiff count).mpr ⟨by omega, le_rfl⟩
        obtain rfl | horder := hafter e he heaccount
        · exact haccount heaccount
        · obtain hlt | ⟨hsame, -⟩ := accountOrder_iff.mp horder
          · rw [heaccount] at hlt
            exact absurd hfromItem (not_le_of_gt hlt)
          · exact haccount (hsame.trans heaccount)
      rw [hzero]
      rfl

end Tables

section Pruning

variable {s : History} {now : TimePointSec} {item : AccountName} {sequence : UInt32}
  {entries : Table AccountHistoryObject} {operations : Table OperationObject}

/-- The test of the loop that collects what is to go. -/
def isStale (operations : Table OperationObject) (item : AccountName) (sequence : UInt32)
    (now : TimePointSec) (e : AccountHistoryObject) : Bool :=
  decide (e.account = item) && decide (30 < sequence - e.sequence) &&
    (operations.find fun o => o.id = e.op).any fun o => o.timestamp + thirtyDays < now

/-- The loop collects what it walks over. -/
theorem collectOld_eq {rows walked : List AccountHistoryObject} {stop : AccountHistoryObject}
    (hknown : ∀ e ∈ rows, ∃ o ∈ operations.rows, o.id = e.op)
    (hwalk : walk (isStale operations item sequence now) rows = some (walked, stop)) :
    collectOld operations item sequence now rows = .ok walked := by
  induction rows generalizing walked with
  | nil => cases hwalk
  | cons e rest ih =>
    obtain ⟨o, ho, hid⟩ := hknown e List.mem_cons_self
    have hfound : ∃ o', (operations.find fun o => decide (o.id = e.op)) = some o' :=
      Option.isSome_iff_exists.mp (List.find?_isSome.mpr ⟨o, ho, decide_eq_true hid⟩)
    obtain ⟨o', hfind⟩ := hfound
    unfold collectOld
    rw [hfind]
    have htest : isStale operations item sequence now e =
        ((decide (e.account = item) && decide (30 < sequence - e.sequence)) &&
          decide (o'.timestamp + thirtyDays < now)) := by
      unfold isStale
      rw [hfind, Option.any_some]
    cases hfar : decide (e.account = item) && decide (30 < sequence - e.sequence) with
    | false =>
      rw [hfar, Bool.false_and] at htest
      rw [walk_cons_of_neg htest] at hwalk
      obtain ⟨rfl, -⟩ := Prod.mk.inj (Option.some.inj hwalk)
      rfl
    | true =>
      rw [hfar, Bool.true_and] at htest
      simp only [if_true]
      by_cases hage : o'.timestamp + thirtyDays < now
      · rw [if_pos hage]
        rw [walk_cons_of_pos (htest.trans (decide_eq_true hage))] at hwalk
        obtain ⟨⟨walked', stop'⟩, hrest, hpair⟩ := Option.map_eq_some_iff.mp hwalk
        obtain ⟨rfl, rfl⟩ := Prod.mk.inj hpair
        rw [ih (fun b hb => hknown b (List.mem_cons_of_mem _ hb)) hrest]
        rfl
      · rw [if_neg hage]
        rw [walk_cons_of_neg (htest.trans (decide_eq_false hage))] at hwalk
        obtain ⟨rfl, -⟩ := Prod.mk.inj (Option.some.inj hwalk)
        rfl

/-- The entries without some are those with other ids. -/
theorem mem_removeAll {old : List AccountHistoryObject} {e : AccountHistoryObject} :
    e ∈ (removeAll old entries).rows ↔ e ∈ entries.rows ∧ ∀ w ∈ old, e.id ≠ w.id := by
  unfold removeAll
  induction old generalizing entries with
  | nil => simp
  | cons w rest ih =>
    rw [List.foldl_cons, ih, List.forall_mem_cons]
    unfold Table.remove
    rw [List.mem_filter, and_assoc]
    simp

/-- Removing entries keeps the next id. -/
theorem removeAll_nextId (old : List AccountHistoryObject) (entries : Table AccountHistoryObject) :
    (removeAll old entries).nextId = entries.nextId := by
  unfold removeAll
  induction old generalizing entries with
  | nil => rfl
  | cons w rest ih =>
    rw [List.foldl_cons, ih]
    rfl

/-- The loop drops an entry of the account exactly if it is not recent. -/
theorem isStale_iff (h : Wellformed s now) {e : AccountHistoryObject} (he : e ∈ s.entries.rows)
    (hle : e.sequence.toNat ≤ sequence.toNat) :
    isStale s.operations item sequence now e = true ↔
      e.account = item ∧ ¬ Recent s.operations now sequence.toNat e := by
  obtain ⟨o, ho, hid⟩ := h.known e he
  have hfind : s.operations.find (fun o => decide (o.id = e.op)) = some o := by
    have hsome : (s.operations.find fun o => decide (o.id = e.op)).isSome :=
      List.find?_isSome.mpr ⟨o, ho, decide_eq_true hid⟩
    obtain ⟨o', hfind⟩ := Option.isSome_iff_exists.mp hsome
    have hid' := List.find?_some hfind
    rw [decide_eq_true_eq] at hid'
    have hsame : o' = o := h.operationIds o' (List.mem_of_find?_eq_some hfind) o ho
      (hid'.trans hid.symm)
    exact hsame ▸ hfind
  have hfar : 30 < sequence - e.sequence ↔ ¬ sequence.toNat ≤ e.sequence.toNat + 30 := by
    have hsub : (sequence - e.sequence).toNat = sequence.toNat - e.sequence.toNat :=
      UInt32.toNat_sub_of_le _ _ (UInt32.le_iff_toNat_le.mpr hle)
    rw [UInt32.lt_iff_toNat_lt, hsub]
    change 30 < _ ↔ _
    omega
  have hage : o.timestamp + thirtyDays < now ↔
      ¬ ∀ o' ∈ s.operations.rows, o'.id = e.op → now ≤ o'.timestamp + thirtyDays := by
    constructor
    · exact fun hold hyoung => absurd (hyoung o ho hid) (not_le_of_gt hold)
    · intro hnot
      by_contra hyoung
      refine hnot fun o' ho' hid' => ?_
      rw [h.operationIds o' ho' o ho (hid'.trans hid.symm)]
      exact not_lt.mp hyoung
  unfold isStale Recent
  rw [hfind, not_or, ← hfar, ← hage]
  rw [Option.any_some, Bool.and_eq_true, Bool.and_eq_true, decide_eq_true_eq, decide_eq_true_eq,
    decide_eq_true_eq, and_assoc]

/-- Pruning after a new entry leaves the recent ones of the account and all of the others. -/
theorem pruneOld_exact (h : Wellformed s now) {new : AccountHistoryObject}
    (hnew : new ∈ s.entries.rows) (haccount : new.account = item)
    (hlast : new.sequence = sequence) (hbounds : ∀ e ∈ s.entries.rows, e.account = item →
      0 < e.sequence.toNat ∧ e.sequence.toNat ≤ sequence.toNat) :
    ∃ left, pruneOld s.operations item sequence now s.entries = .ok left ∧
      left.nextId = s.entries.nextId ∧
      ∀ e, e ∈ left.rows ↔ e ∈ s.entries.rows ∧
        (e.account = item → Recent s.operations now sequence.toNat e) := by
  have hmem (e : AccountHistoryObject) : e ∈ entriesBefore item s.entries ↔
      e ∈ s.entries.rows ∧ (e.account.packed < item.packed ∨ e.account = item ∧ 0 < e.sequence) := by
    refine mem_select.trans (and_congr_right fun _ => ?_)
    rw [Bool.or_eq_true, Bool.and_eq_true, decide_eq_true_eq, decide_eq_true_eq, decide_eq_true_eq]
  have hpositive {e : AccountHistoryObject} (he : e ∈ s.entries.rows) (hitem : e.account = item) :
      0 < e.sequence := UInt32.lt_iff_toNat_lt.mpr (hbounds e he hitem).1
  have hsorted : (entriesBefore item s.entries).Pairwise fun b c => accountOrder c b = true :=
    pairwise_select (fun b c => accountOrder_total c b)
      fun b c d hcb hdc => accountOrder_trans d c b hdc hcb
  have hstale {e : AccountHistoryObject} (he : e ∈ s.entries.rows) (hitem : e.account = item) :
      isStale s.operations item sequence now e = true ↔
        ¬ Recent s.operations now sequence.toNat e := by
    rw [isStale_iff h he (hbounds e he hitem).2]
    exact and_iff_right hitem
  have hother {e : AccountHistoryObject} (hitem : e.account ≠ item) :
      isStale s.operations item sequence now e = false := by
    unfold isStale
    rw [decide_eq_false hitem, Bool.false_and, Bool.false_and]
  have hnewBefore := (hmem new).mpr ⟨hnew, .inr ⟨haccount, hpositive hnew haccount⟩⟩
  have hnewFresh : isStale s.operations item sequence now new = false := by
    rw [← Bool.not_eq_true, hstale hnew haccount, not_not]
    exact .inl (by rw [hlast]; omega)
  -- an entry that is not stale has only such entries behind
  have hupward : ∀ b ∈ entriesBefore item s.entries, ∀ c ∈ entriesBefore item s.entries,
      accountOrder c b = true → isStale s.operations item sequence now b = false →
        isStale s.operations item sequence now c = false := by
    intro b hb c hc horder hfresh
    by_cases hitem : c.account = item
    · obtain ⟨hbRow, hbPlace⟩ := (hmem b).mp hb
      have hcRow := ((hmem c).mp hc).1
      obtain hlt | ⟨hsame, hle⟩ := accountOrder_iff.mp horder
      · obtain hbefore | ⟨hbItem, -⟩ := hbPlace
        · exact absurd (hitem ▸ hlt) (not_lt_of_gt hbefore)
        · exact absurd (hitem ▸ hbItem ▸ hlt) (lt_irrefl _)
      · have hbItem : b.account = item := hsame.symm.trans hitem
        rw [← Bool.not_eq_true, hstale hbRow hbItem, not_not] at hfresh
        rw [← Bool.not_eq_true, hstale hcRow hitem, not_not]
        exact h.recent_later hbRow hcRow hsame.symm hle hfresh
    · exact hother hitem
  obtain ⟨walked, stop, hwalk, hwalked⟩ := walk_collects hsorted hupward hnewBefore hnewFresh
  have hcollect : collectOld s.operations item sequence now (entriesBefore item s.entries) =
      .ok walked := collectOld_eq (fun e he => h.known e ((hmem e).mp he).1) hwalk
  refine ⟨removeAll walked s.entries, ?_, removeAll_nextId _ _, fun e => ?_⟩
  · unfold pruneOld
    cases hbefore : entriesBefore item s.entries with
    | nil =>
      rw [hbefore] at hnewBefore
      cases hnewBefore
    | cons b rest =>
      rw [hbefore] at hcollect
      simp only [hcollect]
      rfl
  · rw [mem_removeAll]
    refine and_congr_right fun he => ?_
    constructor
    · intro hkept hitem
      by_contra hold
      refine hkept e ((hwalked e).mpr ⟨(hmem e).mpr ⟨he, .inr ⟨hitem, hpositive he hitem⟩⟩, ?_⟩) rfl
      exact (hstale he hitem).mpr hold
    · intro hrecent w hw hid
      obtain ⟨hwBefore, hwStale⟩ := (hwalked w).mp hw
      have hsame : e = w := h.entryIds e he w ((hmem w).mp hwBefore).1 hid
      by_cases hitem : e.account = item
      · rw [← hsame, hstale he hitem] at hwStale
        exact hwStale (hrecent hitem)
      · rw [← hsame, hother hitem] at hwStale
        cases hwStale

end Pruning

section Recording

variable {s : History} {now : TimePointSec} {item a : AccountName} {count : ℕ}
  {before after : Table AccountHistoryObject} {operations : Table OperationObject}
  {note : OperationNotification} {newObj : Option ℕ}

/-- What holds from some number on in an interval begins somewhere. -/
theorem exists_threshold {first : ℕ} (hle : first ≤ count) (P : ℕ → Prop)
    (hup : ∀ i j, first < i → i ≤ j → j ≤ count → P i → P j) :
    ∃ k, first ≤ k ∧ k ≤ count ∧ ∀ i, first < i → i ≤ count → (P i ↔ k < i) := by
  classical
  by_cases hany : ∃ i, first < i ∧ i ≤ count ∧ P i
  · obtain ⟨hlow, hhigh, hholds⟩ := Nat.find_spec hany
    refine ⟨Nat.find hany - 1, by omega, by omega, fun i hi hic => ⟨fun hP => ?_, fun hlt => ?_⟩⟩
    · have hmin := Nat.find_min' hany ⟨hi, hic, hP⟩
      omega
    · exact hup _ i hlow (by omega) hic hholds
  · refine ⟨count, hle, le_rfl, fun i hi hic => ⟨fun hP => ?_, fun hlt => ?_⟩⟩
    · exact absurd ⟨i, hi, hic, hP⟩ hany
    · exact absurd hic (not_le_of_gt hlt)

/-- A new entry with the next number, and all entries from some number on, are consecutive. -/
theorem Numbered.next (h : Numbered before item count) {keep : AccountHistoryObject → Prop}
    (hup : ∀ e ∈ before.rows, ∀ e' ∈ before.rows, e.account = item → e'.account = item →
      e.sequence.toNat ≤ e'.sequence.toNat → keep e → keep e')
    (hretains : Retains keep (count + 1) item before after) :
    Numbered after item (count + 1) := by
  obtain ⟨first, hle, hnonempty, hiff⟩ := h
  obtain ⟨new, haccount, hlast, -, hmem⟩ := hretains
  have hentry {i : ℕ} (hi : first < i) (hic : i ≤ count) := (hiff i).mpr ⟨hi, hic⟩
  obtain ⟨k, hfirst, hk, hthreshold⟩ := exists_threshold hle
    (fun i => ∃ e ∈ before.rows, e.account = item ∧ e.sequence.toNat = i ∧ keep e) (by
      rintro i j hi hij hj ⟨e, he, hitem, rfl, hkeep⟩
      obtain ⟨e', he', hitem', rfl⟩ := hentry (by omega) hj
      exact ⟨e', he', hitem', rfl, hup e he e' he' hitem hitem' hij hkeep⟩)
  refine ⟨k, by omega, fun heq => by omega, fun i => ⟨?_, fun ⟨hlow, hhigh⟩ => ?_⟩⟩
  · rintro ⟨e, he, hitem, rfl⟩
    obtain rfl | ⟨hbefore, hkeep⟩ := (hmem e hitem).mp he
    · omega
    · obtain ⟨hlow, hhigh⟩ := (hiff _).mp ⟨e, hbefore, hitem, rfl⟩
      have hkept := (hthreshold _ hlow hhigh).mp ⟨e, hbefore, hitem, rfl, hkeep⟩
      omega
  · by_cases hi : i = count + 1
    · exact ⟨new, (hmem new haccount).mpr (.inl rfl), haccount, hlast.trans hi.symm⟩
    · obtain ⟨e, he, hitem, rfl, hkeep⟩ := (hthreshold i (by omega) (by omega)).mpr hlow
      exact ⟨e, (hmem e hitem).mpr (.inr ⟨he, hkeep⟩), hitem, rfl⟩

/-- More operations do not change which of the entries are recent. -/
theorem Wellformed.recent_congr (h : Wellformed s now)
    (hids : ∀ o ∈ operations.rows, ∀ o' ∈ operations.rows, o.id = o'.id → o = o')
    (hkept : ∀ o ∈ s.operations.rows, o ∈ operations.rows) {e : AccountHistoryObject}
    (he : e ∈ s.entries.rows) : Recent operations now count e ↔ Recent s.operations now count e := by
  obtain ⟨o, ho, hid⟩ := h.known e he
  refine or_congr_right ⟨fun hyoung o' ho' hid' => hyoung o' (hkept o' ho') hid',
    fun hyoung o' ho' hid' => ?_⟩
  rw [hids o' ho' o (hkept o ho) (hid'.trans hid.symm)]
  exact hyoung o ho hid

/-- The object of the operation is there, and it has the time of the operation. -/
theorem operationFor_exact (note : OperationNotification) (h : Wellformed s now)
    (hobject : ∀ id ∈ newObj, ∃ o ∈ s.operations.rows, o.id = id ∧ o.timestamp = now) :
    ∃ operations op, operationFor now note newObj s.operations = .ok (operations, op) ∧
      Wellformed ⟨operations, s.entries⟩ now ∧
      (∃ o ∈ operations.rows, o.id = op ∧ o.timestamp = now) ∧
      ∀ o ∈ s.operations.rows, o ∈ operations.rows := by
  cases newObj with
  | some id => exact ⟨s.operations, id, rfl, h, hobject id rfl, fun _ ho => ho⟩
  | none =>
    let new := note.object now s.operations.nextId
    let operations : Table OperationObject := ⟨s.operations.rows ++ [new], s.operations.nextId + 1⟩
    have hmem (o : OperationObject) : o ∈ operations.rows ↔ o ∈ s.operations.rows ∨ o = new := by
      rw [List.mem_append, List.mem_singleton]
    have hcreate : s.operations.create Fault.thrown (fun _ _ => false)
        (fun id => .ok (note.object now id)) = .ok operations := by
      unfold Table.create
      simp [Except.bind, operations, new]
    have hids : ∀ o ∈ operations.rows, ∀ o' ∈ operations.rows, o.id = o'.id → o = o' := by
      intro o ho o' ho' hid
      obtain ho | rfl := (hmem o).mp ho
      · obtain ho' | rfl := (hmem o').mp ho'
        · exact h.operationIds o ho o' ho' hid
        · exact absurd hid (h.operationBelow o ho).ne
      · obtain ho' | rfl := (hmem o').mp ho'
        · exact absurd hid (h.operationBelow o' ho').ne'
        · rfl
    -- the operations of the entries are those that were there
    have hold {e : AccountHistoryObject} (he : e ∈ s.entries.rows) {o : OperationObject}
        (ho : o ∈ operations.rows) (hid : o.id = e.op) : o ∈ s.operations.rows := by
      obtain ⟨o', ho', hid'⟩ := h.known e he
      rw [hids o ho o' ((hmem o').mpr (.inl ho')) (hid.trans hid'.symm)]
      exact ho'
    refine ⟨operations, s.operations.nextId, ?_,
      ⟨h.entryBelow, h.entryIds, fun o ho => ?_, hids, fun e he => ?_, fun o ho => ?_,
        fun e he e' he' haccount hle o ho o' ho' hid hid' => ?_⟩,
      ⟨new, (hmem new).mpr (.inr rfl), rfl, rfl⟩, fun o ho => (hmem o).mpr (.inl ho)⟩
    · unfold operationFor
      simp only [hcreate]
      rfl
    · obtain ho | rfl := (hmem o).mp ho
      · exact (h.operationBelow o ho).trans (Nat.lt_succ_self _)
      · exact Nat.lt_succ_self _
    · obtain ⟨o, ho, hid⟩ := h.known e he
      exact ⟨o, (hmem o).mpr (.inl ho), hid⟩
    · obtain ho | rfl := (hmem o).mp ho
      · exact h.past o ho
      · exact le_rfl
    · exact h.ordered e he e' he' haccount hle o (hold he ho hid) o' (hold he' ho' hid') hid hid'

/-- The next entry of an account is created. -/
theorem createEntry_exact (h : Wellformed s now) (hnumbered : Numbered s.entries item count)
    {sequence : UInt32} (hsequence : sequence.toNat = count + 1) {op : ℕ}
    (hop : ∃ o ∈ s.operations.rows, o.id = op ∧ o.timestamp = now) :
    ∃ entries new, createEntry item sequence op s.entries = .ok entries ∧
      Wellformed ⟨s.operations, entries⟩ now ∧ new.account = item ∧ new.sequence = sequence ∧
      new ∉ s.entries.rows ∧ ∀ e, e ∈ entries.rows ↔ e ∈ s.entries.rows ∨ e = new := by
  let new : AccountHistoryObject := ⟨s.entries.nextId, item, sequence, op⟩
  let entries : Table AccountHistoryObject := ⟨s.entries.rows ++ [new], s.entries.nextId + 1⟩
  have hmem (e : AccountHistoryObject) : e ∈ entries.rows ↔ e ∈ s.entries.rows ∨ e = new := by
    rw [List.mem_append, List.mem_singleton]
  have hbelow {e : AccountHistoryObject} (he : e ∈ s.entries.rows) (hitem : e.account = item) :
      e.sequence.toNat < sequence.toNat := by
    have hle := (hnumbered.le he hitem).2
    omega
  have hfree : (s.entries.rows.any fun e => decide (item = e.account) &&
      decide (sequence = e.sequence)) = false := by
    rw [List.any_eq_false]
    intro e he hclash
    rw [Bool.and_eq_true, decide_eq_true_eq, decide_eq_true_eq] at hclash
    exact absurd (congrArg UInt32.toNat hclash.2).symm (hbelow he hclash.1.symm).ne
  obtain ⟨o, ho, hid, htime⟩ := hop
  refine ⟨entries, new, ?_, ⟨fun e he => ?_, fun e he e' he' hsame => ?_, h.operationBelow,
    h.operationIds, fun e he => ?_, h.past,
      fun e he e' he' haccount hle p hp q hq hpid hqid => ?_⟩, rfl, rfl, fun hin => ?_, hmem⟩
  · unfold createEntry Table.create
    simp only [Except.bind, hfree, Bool.false_eq_true, if_false]
    rfl
  · obtain he | rfl := (hmem e).mp he
    · exact (h.entryBelow e he).trans (Nat.lt_succ_self _)
    · exact Nat.lt_succ_self _
  · obtain hin | rfl := (hmem e).mp he
    · obtain hin' | rfl := (hmem e').mp he'
      · exact h.entryIds e hin e' hin' hsame
      · exact absurd hsame (h.entryBelow e hin).ne
    · obtain hin' | rfl := (hmem e').mp he'
      · exact absurd hsame (h.entryBelow e' hin').ne'
      · rfl
  · obtain he | rfl := (hmem e).mp he
    · exact h.known e he
    · exact ⟨o, ho, hid⟩
  · obtain hin' | rfl := (hmem e').mp he'
    · obtain hin | rfl := (hmem e).mp he
      · exact h.ordered e hin e' hin' haccount hle p hp q hq hpid hqid
      · exact absurd hle (not_le_of_gt (hbelow hin' haccount.symm))
    · -- the new entry has the time of the operation
      rw [h.operationIds q hq o ho (hqid.trans hid.symm), htime]
      exact h.past p hp
  · exact absurd rfl (h.entryBelow new hin).ne

/-- Fewer entries still fit together. -/
theorem Wellformed.sub (h : Wellformed s now) {entries : Table AccountHistoryObject}
    (hnext : entries.nextId = s.entries.nextId)
    (hsub : ∀ e ∈ entries.rows, e ∈ s.entries.rows) : Wellformed ⟨s.operations, entries⟩ now where
  entryBelow := fun e he => hnext ▸ h.entryBelow e (hsub e he)
  entryIds := fun e he e' he' => h.entryIds e (hsub e he) e' (hsub e' he')
  operationBelow := h.operationBelow
  operationIds := h.operationIds
  known := fun e he => h.known e (hsub e he)
  past := h.past
  ordered := fun e he e' he' => h.ordered e (hsub e he) e' (hsub e' he')

/-- What a recording keeps: the new entry, and the recent ones where it prunes. -/
def Pruned (prune : Bool) (operations : Table OperationObject) (now : TimePointSec)
    (sequence : ℕ) (e : AccountHistoryObject) : Prop :=
  prune = true → Recent operations now sequence e

/-- A recording adds the next entry of its account. -/
theorem record_exact (prune : Bool) (note : OperationNotification) (h : Wellformed s now)
    (hnumbered : Numbered s.entries item count) (hfits : count + 1 < 2 ^ 32)
    (hobject : ∀ id ∈ newObj, ∃ o ∈ s.operations.rows, o.id = id ∧ o.timestamp = now) :
    ∃ s' op, record prune now note (s, newObj) item = .ok (s', some op) ∧ Wellformed s' now ∧
      (∃ o ∈ s'.operations.rows, o.id = op ∧ o.timestamp = now) ∧
      (∀ o ∈ s.operations.rows, o ∈ s'.operations.rows) ∧
      Numbered s'.entries item (count + 1) ∧
      Retains (Pruned prune s.operations now (count + 1)) (count + 1) item s.entries s'.entries ∧
      ∀ a, a ≠ item → SameEntries a s.entries s'.entries := by
  obtain ⟨operations, op, hoperation, hwell₁, hop, hkept⟩ := operationFor_exact note h hobject
  have hsequence := nextSequence_toNat hnumbered hfits
  obtain ⟨entries, new, hcreate, hwell₂, haccount, hlast, hnew, hmem⟩ :=
    createEntry_exact hwell₁ hnumbered hsequence hop
  have hrecent {e : AccountHistoryObject} (he : e ∈ s.entries.rows) :
      Recent operations now (count + 1) e ↔ Recent s.operations now (count + 1) e :=
    h.recent_congr hwell₁.operationIds hkept he
  have hnewRecent : Recent operations now (count + 1) new :=
    .inl (by rw [hlast, hsequence]; omega)
  obtain ⟨left, hleft, hnext, hrows⟩ : ∃ left, (if prune then
      pruneOld operations item (nextSequence item s.entries) now entries else .ok entries) =
        .ok left ∧ left.nextId = entries.nextId ∧ ∀ e, e ∈ left.rows ↔ e ∈ entries.rows ∧
          (e.account = item → Pruned prune operations now (count + 1) e) := by
    cases prune with
    | false => exact ⟨entries, rfl, rfl, fun e => (and_iff_left fun _ hprune => by cases hprune).symm⟩
    | true =>
      obtain ⟨left, hprune, hnext, hrows⟩ := pruneOld_exact hwell₂ ((hmem new).mpr (.inr rfl))
        haccount hlast fun e he hitem => by
          obtain he | rfl := (hmem e).mp he
          · have hbounds := hnumbered.le he hitem
            omega
          · rw [hlast]
            omega
      rw [hsequence] at hrows
      refine ⟨left, hprune, hnext, fun e => (hrows e).trans (and_congr_right fun _ => ?_)⟩
      exact forall_congr' fun _ => ⟨fun hrecent _ => hrecent, fun hrecent => hrecent rfl⟩
  have hretains : Retains (Pruned prune s.operations now (count + 1)) (count + 1) item s.entries
      left := by
    refine ⟨new, haccount, hlast ▸ hsequence, hnew, fun e hitem => ?_⟩
    rw [hrows, hmem]
    constructor
    · rintro ⟨he | rfl, hpruned⟩
      · exact .inr ⟨he, fun hprune => (hrecent he).mp (hpruned hitem hprune)⟩
      · exact .inl rfl
    · rintro (rfl | ⟨he, hpruned⟩)
      · exact ⟨.inr rfl, fun _ _ => hnewRecent⟩
      · exact ⟨.inl he, fun _ hprune => (hrecent he).mpr (hpruned hprune)⟩
  refine ⟨⟨operations, left⟩, op, ?_, hwell₂.sub hnext fun e he => ((hrows e).mp he).1, hop,
    hkept, hnumbered.next (fun e he e' he' hitem hitem' hle hkeep hprune => ?_) hretains,
    hretains, fun a ha e hea => ?_⟩
  · unfold record
    simp only [hoperation, bind, Except.bind]
    rw [hcreate]
    cases prune with
    | false =>
      obtain rfl : entries = left := Except.ok.inj hleft
      rfl
    | true =>
      simp only [if_true] at hleft ⊢
      rw [hleft]
  · exact h.recent_later he he' (hitem.trans hitem'.symm) hle (hkeep hprune)
  · rw [hrows, hmem]
    constructor
    · rintro ⟨he | rfl, -⟩
      · exact he
      · exact absurd (hea.symm.trans haccount) ha
    · exact fun he => ⟨.inl he, fun hitem => absurd (hea.symm.trans hitem) ha⟩

/-- The loop over the impacted accounts: each recording only changes its own account. -/
theorem recordAll_exact (cfg : Settings) (counts : AccountName → ℕ) {items : List AccountName}
    (hnodup : items.Nodup) (h : Wellformed s now)
    (hobject : ∀ id ∈ newObj, ∃ o ∈ s.operations.rows, o.id = id ∧ o.timestamp = now)
    (hcounts : ∀ item ∈ items, isRecorded cfg note item = true →
      Numbered s.entries item (counts item) ∧ counts item + 1 < 2 ^ 32) :
    ∃ s' newObj', items.foldlM (fun st item => if isRecorded cfg note item
        then record cfg.prune now note st item else .ok st) (s, newObj) = .ok (s', newObj') ∧
      Wellformed s' now ∧ (∀ o ∈ s.operations.rows, o ∈ s'.operations.rows) ∧
      (∀ item ∈ items, isRecorded cfg note item = true →
        Numbered s'.entries item (counts item + 1) ∧
        Retains (Pruned cfg.prune s.operations now (counts item + 1)) (counts item + 1) item
          s.entries s'.entries) ∧
      ∀ a, ¬ (a ∈ items ∧ isRecorded cfg note a = true) → SameEntries a s.entries s'.entries := by
  induction items generalizing s newObj with
  | nil => exact ⟨s, newObj, rfl, h, fun _ ho => ho, fun _ hin => absurd hin List.not_mem_nil,
      fun _ _ _ _ => Iff.rfl⟩
  | cons first rest ih =>
    obtain ⟨hnot, hnodup⟩ := List.nodup_cons.mp hnodup
    rw [List.foldlM_cons]
    cases hrecorded : isRecorded cfg note first with
    | false =>
      obtain ⟨s', newObj', hrest, hwell, hkept, hretains, hothers⟩ := ih hnodup h hobject
        fun item hin => hcounts item (List.mem_cons_of_mem _ hin)
      refine ⟨s', newObj', hrest, hwell, hkept, fun item hin hitem => ?_, fun a ha => ?_⟩
      · obtain rfl | hin := List.mem_cons.mp hin
        · rw [hrecorded] at hitem
          cases hitem
        · exact hretains item hin hitem
      · exact hothers a fun hrec => ha ⟨List.mem_cons_of_mem _ hrec.1, hrec.2⟩
    | true =>
      obtain ⟨hnumbered, hfits⟩ := hcounts first List.mem_cons_self hrecorded
      obtain ⟨s₁, op, hrecord, hwell₁, hop, hkept₁, hnumbered₁, hretains₁, hsame₁⟩ :=
        record_exact cfg.prune note h hnumbered hfits hobject
      have hrestSame (item : AccountName) (hin : item ∈ rest) :
          SameEntries item s.entries s₁.entries := hsame₁ item fun heq => hnot (heq ▸ hin)
      obtain ⟨s', newObj', hrest, hwell, hkept, hretains, hothers⟩ := ih hnodup hwell₁
        (fun id hid => Option.some.inj hid ▸ hop) fun item hin hitem => by
          obtain ⟨hnum, hlt⟩ := hcounts item (List.mem_cons_of_mem _ hin) hitem
          exact ⟨hnum.congr (hrestSame item hin), hlt⟩
      refine ⟨s', newObj', ?_, hwell, fun o ho => hkept o (hkept₁ o ho), fun item hin hitem => ?_,
        fun a ha => ?_⟩
      · simp only [if_true, hrecord]
        exact hrest
      · obtain rfl | hin := List.mem_cons.mp hin
        · have hstays := hothers item fun hrec => hnot hrec.1
          refine ⟨hnumbered₁.congr hstays, ?_⟩
          obtain ⟨new, haccount, hlast, hnew, hmem⟩ := hretains₁
          exact ⟨new, haccount, hlast, hnew, fun e hea => (hstays e hea).trans (hmem e hea)⟩
        · obtain ⟨hnum, new, haccount, hlast, hnew, hmem⟩ := hretains item hin hitem
          have hbefore := hrestSame item hin
          refine ⟨hnum, new, haccount, hlast, fun hin' => hnew ((hbefore new haccount).mpr hin'),
            fun e hea => (hmem e hea).trans (or_congr_right ?_)⟩
          rw [hbefore e hea]
          exact and_congr_right fun he => forall_congr' fun _ =>
            h.recent_congr hwell₁.operationIds hkept₁ he
      · have hne : a ≠ first := fun heq => ha ⟨heq ▸ List.mem_cons_self, heq ▸ hrecorded⟩
        have hafter := hothers a fun hrec => ha ⟨List.mem_cons_of_mem _ hrec.1, hrec.2⟩
        exact fun e hea => (hafter e hea).trans (hsame₁ a hne e hea)

end Recording

section Run

variable {o : Options} {cfg : Settings} {done : List Event} {s s' : History} {ev : Event}
  {now : TimePointSec} {a : AccountName}

/-- What holds between two operations. -/
structure Sound (cfg : Settings) (done : List Event) (s : History) (now : TimePointSec) :
    Prop where
  wellformed : Wellformed s now
  numbered : ∀ a, Numbered s.entries a (recordedCount cfg done a)

/-- The empty history is sound. -/
theorem sound_empty (cfg : Settings) (now : TimePointSec) : Sound cfg [] .empty now where
  wellformed := wellformed_empty
  numbered := fun a => by
    refine ⟨0, le_rfl, fun _ => rfl, fun i => ⟨?_, fun h => absurd h.2 (not_le_of_gt h.1)⟩⟩
    rintro ⟨e, he, -⟩
    cases he

/-- The option that is to disable the pruning enables it. -/
theorem pluginInitialize_prune (o : Options) :
    (pluginInitialize o).prune = o.historyDisablePruning := rfl

/-- A further event is counted if it records. -/
theorem recordedCount_append (cfg : Settings) (done : List Event) (ev : Event) (a : AccountName) :
    recordedCount cfg (done ++ [ev]) a =
      recordedCount cfg done a + if ev.records cfg a = true then 1 else 0 := by
  unfold recordedCount
  rw [List.countP_append, List.countP_singleton]

/-- An event records for an account that it touches and that is tracked. -/
theorem Event.records_iff : ev.records cfg a = true ↔
    a ∈ ev.note.impacted ∧ isRecorded cfg ev.note a = true := by
  unfold Event.records
  rw [Bool.and_eq_true, decide_eq_true_eq]

/-- What an operation does while the numbers fit. -/
theorem onOperation_exact (h : Sound cfg done s now) (hle : now ≤ ev.now)
    (hfits : ∀ a, ev.records cfg a = true → recordedCount cfg done a + 1 < 2 ^ 32) :
    ∃ s', onOperation cfg ev.now ev.note s = .ok s' ∧ Sound cfg (done ++ [ev]) s' ev.now ∧
      (∀ a, ev.records cfg a = true →
        Retains (Pruned cfg.prune s.operations ev.now (recordedCount cfg done a + 1))
          (recordedCount cfg done a + 1) a s.entries s'.entries) ∧
      ∀ a, ev.records cfg a = false → SameEntries a s.entries s'.entries := by
  have hnone : ∀ id ∈ (none : Option ℕ), ∃ o ∈ s.operations.rows, o.id = id ∧
      o.timestamp = ev.now := fun _ hid => by cases hid
  obtain ⟨s', newObj, hrun, hwell, -, hretains, hothers⟩ := recordAll_exact cfg
    (recordedCount cfg done) ev.note.distinct (h.wellformed.later hle) hnone
    fun item hin hrecorded =>
      ⟨h.numbered item, hfits item (Event.records_iff.mpr ⟨hin, hrecorded⟩)⟩
  have hsame (a : AccountName) (ha : ev.records cfg a = false) :
      SameEntries a s.entries s'.entries := by
    refine hothers a fun hrecorded => ?_
    rw [Event.records_iff.mpr hrecorded] at ha
    cases ha
  refine ⟨s', ?_, ⟨hwell, fun a => ?_⟩, fun a ha => ?_, hsame⟩
  · unfold onOperation
    rw [hrun]
    rfl
  · rw [recordedCount_append]
    cases ha : ev.records cfg a with
    | false => exact (h.numbered a).congr (hsame a ha)
    | true =>
      obtain ⟨hin, hrecorded⟩ := Event.records_iff.mp ha
      exact (hretains a hin hrecorded).1
  · obtain ⟨hin, hrecorded⟩ := Event.records_iff.mp ha
    exact (hretains a hin hrecorded).2

/-- The condition on what is retained can be replaced by one that agrees on the entries before. -/
theorem Retains.congr {keep keep' : AccountHistoryObject → Prop} {sequence : ℕ}
    {before after : Table AccountHistoryObject} (h : Retains keep sequence a before after)
    (hkeep : ∀ e ∈ before.rows, e.account = a → (keep e ↔ keep' e)) :
    Retains keep' sequence a before after := by
  obtain ⟨new, haccount, hlast, hnew, hmem⟩ := h
  exact ⟨new, haccount, hlast, hnew, fun e hea => (hmem e hea).trans
    (or_congr_right (and_congr_right fun he => hkeep e he hea))⟩

/-- Of the earlier entries those are retained that are to be kept. -/
theorem Retains.keep_iff {keep : AccountHistoryObject → Prop} {sequence : ℕ}
    {before after : Table AccountHistoryObject} (h : Retains keep sequence a before after)
    {e : AccountHistoryObject} (he : e ∈ before.rows) (hea : e.account = a) :
    keep e ↔ e ∈ after.rows := by
  obtain ⟨new, -, -, hnew, hmem⟩ := h
  rw [hmem e hea]
  constructor
  · exact fun hkeep => .inr ⟨he, hkeep⟩
  · rintro (rfl | ⟨-, hkeep⟩)
    · exact absurd he hnew
    · exact hkeep

/-- An operation is recorded as it is to be exactly if there is nothing to be dropped. -/
theorem right_iff (h : Sound (pluginInitialize o) done s now) (hle : now ≤ ev.now) :
    (Right o done s ev ↔ NothingOld o done s ev) ∧ (NothingOld o done s ev →
      ∀ s', onOperation (pluginInitialize o) ev.now ev.note s = .ok s' →
        Sound (pluginInitialize o) (done ++ [ev]) s' ev.now) := by
  constructor
  · constructor
    · rintro ⟨s', hrun, hkept⟩
      have hfits (a : AccountName) (ha : ev.records (pluginInitialize o) a = true) :
          recordedCount (pluginInitialize o) done a + 1 < 2 ^ 32 := by
        obtain ⟨new, -, hlast, -⟩ := hkept.retained a ha
        exact hlast ▸ new.sequence.toNat_lt
      obtain ⟨t, hrun', -, hretains, -⟩ := onOperation_exact h hle hfits
      have hsame : t = s' := Except.ok.inj (hrun'.symm.trans hrun)
      subst hsame
      refine fun a ha => ⟨hfits a ha, fun e he hea => ?_⟩
      have hagree := ((hretains a ha).keep_iff he hea).trans
        ((hkept.retained a ha).keep_iff he hea).symm
      unfold Pruned ToStay at hagree
      rw [pluginInitialize_prune] at hagree
      -- one of the two keeps the entry in any case
      cases hoption : o.historyDisablePruning with
      | false =>
        rw [hoption] at hagree
        exact (hagree.mp fun hfalse => by cases hfalse).resolve_left Bool.false_ne_true
      | true =>
        rw [hoption] at hagree
        exact hagree.mpr (.inl rfl) rfl
    · intro hnothing
      obtain ⟨s', hrun, hsound, hretains, hothers⟩ :=
        onOperation_exact h hle fun a ha => (hnothing a ha).1
      refine ⟨s', hrun, hsound.numbered, fun a ha => ?_, hothers⟩
      refine (hretains a ha).congr fun e he hea => ?_
      have hrecent := (hnothing a ha).2 e he hea
      exact iff_of_true (fun _ => hrecent) (.inr hrecent)
  · intro hnothing s' hrun
    obtain ⟨t, hrun', hsound, -⟩ := onOperation_exact h hle fun a ha => (hnothing a ha).1
    exact Except.ok.inj (hrun'.symm.trans hrun) ▸ hsound

/-- The same for all operations of a run. -/
theorem eachStep_iff {events : List Event} (h : Sound (pluginInitialize o) done s now)
    (hlater : ∀ ev ∈ events, now ≤ ev.now)
    (htimes : events.Pairwise fun ev ev' => ev.now ≤ ev'.now) :
    EachStep (Right o) (pluginInitialize o) done s events ↔
      EachStep (NothingOld o) (pluginInitialize o) done s events := by
  induction events generalizing done s now with
  | nil => exact Iff.rfl
  | cons ev rest ih =>
    obtain ⟨hfirst, hrest⟩ := List.pairwise_cons.mp htimes
    obtain ⟨hright, hsound⟩ := right_iff h (hlater ev List.mem_cons_self)
    unfold EachStep
    rw [hright]
    exact and_congr_right fun hnothing => forall_congr' fun s' => forall_congr' fun hrun =>
      ih (hsound hnothing s' hrun) hfirst hrest

/-- For every value of the options and every run of operations at times that do not decrease,
the history is right after each operation exactly if there is never anything to be dropped and
the numbers fit in 32 bits. -/
theorem history_right_iff (o : Options) (events : List Event)
    (htimes : events.Pairwise fun ev ev' => ev.now ≤ ev'.now) :
    EachStep (Right o) (pluginInitialize o) [] .empty events ↔
      EachStep (NothingOld o) (pluginInitialize o) [] .empty events :=
  eachStep_iff (sound_empty _ 0) (fun _ _ => Nat.zero_le _) htimes

/-- A property of each step holds of a step in the middle. -/
theorem EachStep.at_step {P : List Event → History → Event → Prop} {front rest : List Event}
    (h : EachStep P cfg done s (front ++ ev :: rest))
    (hfront : front.foldlM (fun s ev => onOperation cfg ev.now ev.note s) s = .ok s') :
    P (done ++ front) s' ev := by
  induction front generalizing done s with
  | nil =>
    obtain rfl : s = s' := Except.ok.inj hfront
    rw [List.append_nil]
    exact h.1
  | cons first front ih =>
    rw [List.foldlM_cons] at hfront
    cases hstep : onOperation cfg first.now first.note s with
    | error e =>
      rw [hstep] at hfront
      cases hfront
    | ok t =>
      rw [hstep] at hfront
      have hlast := ih (h.2 t hstep) hfront
      rwa [List.append_assoc] at hlast

end Run

section Sample

/-- The account `alice`. -/
def alice : AccountName := .ofBytes [97, 108, 105, 99, 101]

/-- An operation that impacts one account. -/
def sampleNote : OperationNotification :=
  ⟨0, 0, 0, 0, 0, [], bytesOf "wls::protocol::transfer_operation", [alice],
    List.nodup_singleton _⟩

/-- Operations at time zero. -/
def firstDay : List Event := List.replicate 31 ⟨0, sampleNote⟩

/-- An operation more than thirty days later. -/
def lateEvent : Event := ⟨2592001, sampleNote⟩

/-- The options with a value for the pruning. -/
def pruningOptions (disabled : Bool) : Options := { historyDisablePruning := disabled }

/-- In the first thirty days there is nothing to be dropped. -/
theorem nothingOld_of_early {o : Options} {done events : List Event} {s : History}
    (hfew : done.length + events.length < 2 ^ 32) (hearly : ∀ ev ∈ events, ev.now ≤ thirtyDays) :
    EachStep (NothingOld o) (pluginInitialize o) done s events := by
  induction events generalizing done s with
  | nil => trivial
  | cons ev rest ih =>
    rw [List.length_cons] at hfew
    refine ⟨fun a _ => ⟨?_, fun e _ _ => .inr fun op _ _ => ?_⟩, fun s' _ => ?_⟩
    · have hcount : recordedCount (pluginInitialize o) done a ≤ done.length :=
        List.countP_le_length
      omega
    · exact (hearly ev List.mem_cons_self).trans (Nat.le_add_left _ _)
    · refine ih ?_ fun ev' hev' => hearly ev' (List.mem_cons_of_mem _ hev')
      rw [List.length_append, List.length_singleton]
      omega

/-- Operations on the first and on the thirtieth day: when the last one comes, 31 entries are
retained, and the first of them, no longer among the last numbers, is just thirty days old. -/
def thirtyDaysRun : List Event := firstDay ++ [⟨thirtyDays, sampleNote⟩]

/-- The history of these days is right with and without pruning: all of the entries stay. -/
theorem history_right_iff_thirtyDays :
    EachStep (Right (pruningOptions true)) (pluginInitialize (pruningOptions true)) [] .empty
        thirtyDaysRun ∧
      EachStep (Right (pruningOptions false)) (pluginInitialize (pruningOptions false)) [] .empty
        thirtyDaysRun ∧
      (thirtyDaysRun.foldlM (fun s ev => onOperation (pluginInitialize (pruningOptions true))
        ev.now ev.note s) .empty).map (fun s => s.entries.rows.map fun e => e.sequence.toNat) =
          .ok (List.range' 1 32) := by
  have htimes : thirtyDaysRun.Pairwise fun ev ev' => ev.now ≤ ev'.now := by
    decide +kernel
  have hnothing : ∀ o, EachStep (NothingOld o) (pluginInitialize o) [] .empty thirtyDaysRun :=
    fun o => nothingOld_of_early (by decide) (by decide +kernel)
  refine ⟨(history_right_iff _ _ htimes).mpr (hnothing _),
    (history_right_iff _ _ htimes).mpr (hnothing _), ?_⟩
  decide +kernel

/-- The first entry and the first operation after the operations of the first day. -/
theorem firstDay_run (disabled : Bool) :
    ∃ s, firstDay.foldlM (fun s ev => onOperation (pluginInitialize (pruningOptions disabled))
        ev.now ev.note s) .empty = .ok s ∧
      (⟨0, alice, 1, 0⟩ : AccountHistoryObject) ∈ s.entries.rows ∧
      (⟨0, 0, 0, 0, 0, 0, 0, []⟩ : OperationObject) ∈ s.operations.rows := by
  have hrows : (firstDay.foldlM (fun s ev => onOperation (pluginInitialize
      (pruningOptions disabled)) ev.now ev.note s) .empty).map
        (fun s => (s.entries.rows.head?, s.operations.rows.head?)) =
      .ok (some ⟨0, alice, 1, 0⟩, some ⟨0, 0, 0, 0, 0, 0, 0, []⟩) := by
    cases disabled <;> decide +kernel
  generalize firstDay.foldlM (fun s ev => onOperation (pluginInitialize
    (pruningOptions disabled)) ev.now ev.note s) .empty = result at hrows
  cases result with
  | error e => cases hrows
  | ok s =>
    obtain ⟨hentry, hoperation⟩ := Prod.mk.inj (Except.ok.inj hrows)
    exact ⟨s, rfl, List.mem_of_mem_head? hentry, List.mem_of_mem_head? hoperation⟩

/-- Neither setting of the option keeps the history of the first day right. -/
theorem firstDay_not_right (disabled : Bool) :
    ¬ EachStep (Right (pruningOptions disabled)) (pluginInitialize (pruningOptions disabled)) []
      .empty (firstDay ++ [lateEvent]) := by
  intro hright
  have htimes : (firstDay ++ [lateEvent]).Pairwise fun ev ev' => ev.now ≤ ev'.now := by
    decide +kernel
  have hnothing := (eachStep_iff (sound_empty _ 0) (fun _ _ => Nat.zero_le _) htimes).mp hright
  have hrecords : lateEvent.records (pluginInitialize (pruningOptions disabled)) alice = true := by
    cases disabled <;> decide +kernel
  have hcount : recordedCount (pluginInitialize (pruningOptions disabled)) ([] ++ firstDay) alice =
      31 := by
    cases disabled <;> decide +kernel
  obtain ⟨s, hrun, hentry, hoperation⟩ := firstDay_run disabled
  obtain ⟨-, hrecent⟩ := hnothing.at_step hrun _ hrecords
  obtain hclose | hyoung := hrecent _ hentry rfl
  · rw [hcount] at hclose
    exact absurd hclose (by decide)
  · exact absurd (hyoung _ hoperation rfl) (by decide)

/-- The numbers of the entries after the late operation. -/
theorem lateEvent_run (disabled : Bool) :
    ((firstDay ++ [lateEvent]).foldlM (fun s ev => onOperation (pluginInitialize
      (pruningOptions disabled)) ev.now ev.note s) .empty).map
        (fun s => s.entries.rows.map fun e => e.sequence.toNat) =
      .ok (if disabled then List.range' 2 31 else List.range' 1 32) := by
  cases disabled <;> decide +kernel

/-- Of 32 operations the first one is old: with the option set it goes, and without it stays. -/
theorem option_inverted :
    ((firstDay ++ [lateEvent]).foldlM (fun s ev => onOperation (pluginInitialize
        (pruningOptions true)) ev.now ev.note s) .empty).map
          (fun s => s.entries.rows.map fun e => e.sequence.toNat) = .ok (List.range' 2 31) ∧
      ((firstDay ++ [lateEvent]).foldlM (fun s ev => onOperation (pluginInitialize
        (pruningOptions false)) ev.now ev.note s) .empty).map
          (fun s => s.entries.rows.map fun e => e.sequence.toNat) = .ok (List.range' 1 32) ∧
      ∀ disabled, ¬ EachStep (Right (pruningOptions disabled))
        (pluginInitialize (pruningOptions disabled)) [] .empty (firstDay ++ [lateEvent]) :=
  ⟨lateEvent_run true, lateEvent_run false, firstDay_not_right⟩

end Sample

end Whaleshares.AccountHistory
