import Whaleshares.NetworkSteps

/-!
# The runs of the peer-to-peer node

The handlers of messages, the closing of connections and the loops of the node make only the
changes of the list, so that every step of a run of the node, whichever tasks give way to each
other, is a sequence of such changes.
-/

namespace Whaleshares.NetworkRuns

open Config Fc Protocol MessageCache Peers Cooperation SyncTasks InventoryTasks NetworkTasks
  NetworkSteps

section ItemIds

variable {env : NetEnv} {i : TaskName} {n : NetNode}

/-- An answer without new ids keeps to the terms of every task. -/
theorem nothingNew_steady (itemType total : ℕ) (ids : List ItemHash) :
    (nothingNew itemType total ids).Steady (terms i) := by
  refine .ite (.done false) ?_
  cases ids with
  | nil => exact .done true
  | cons id rest =>
    cases rest with
    | nil => exact steady_call _
    | cons second later => exact .done false

/-- A call in the section of a task: the others keep to the contract before it returns. -/
theorem call_meets {α : Type} {q : Query} {k : q.Result → NetTask α}
    {post : Except NetExc α → NetNode → NetNode → Prop} {b s : NetNode} (hs : Orderly s)
    (hguar : Changes i b s) (hreturn : ∀ a t, KeptEmpty i s t → Orderly t →
      (k a).Meets (terms i) post t t)
    (hthrow : ∀ e t, Orderly t → post (.error e) t t) :
    (call q >>= k).Meets (terms i) post b s := by
  refine ⟨⟨hs, hguar⟩, fun answer t hrely ht => ?_⟩
  cases answer with
  | ok a => exact hreturn a t hrely ht
  | error e => exact hthrow e t ht

/-- What the ids of an answer are where they are added to those of the peer. -/
def Merged (p : PeerId) (r : Except NetExc (List ItemHash)) (b s : NetNode) : Prop :=
  (Orderly s ∧ Changes (.reader p) b s) ∧ ∀ ids, r = .ok ids → Continues (s.peers p) ids

/-- Where the merge ends in an exception, nothing is asked of the ids. -/
theorem Merged.error {p : PeerId} (e : NetExc) {t : NetNode} (ht : Orderly t) :
    Merged p (.error e) t t :=
  ⟨⟨ht, .refl⟩, nofun⟩

/-- To a peer that offers nothing any consecutive ids may be added. -/
theorem Merged.ok {p : PeerId} {ids : List ItemHash} {b s : NetNode} (hs : Orderly s)
    (hguar : Changes (.reader p) b s) (hids : Numbered ids)
    (hempty : (s.peers p).idsOfItemsToGet = []) : Merged p (.ok ids) b s := by
  refine ⟨⟨hs, hguar⟩, fun received hreceived => ?_⟩
  cases hreceived
  refine ⟨hids, fun last hlast => ?_⟩
  rw [hempty] at hlast
  cases hlast

/-- The record of the last block that the client has seen, between two calls of the client. -/
theorem changes_lastBlock (p : PeerId) (id : ItemHash) :
    Changes i n (n.onPeer p fun c => { c with lastBlockDelegateHasSeen := id }) :=
  changes_peer p fun _ => .of_requested rfl rfl rfl rfl

/-- The record of the last block that a client has seen is a change of the list. -/
theorem changes_lastTime (p : PeerId) (time : TimePointSec) :
    Changes i n (n.onPeer p fun c => { c with lastBlockTimeDelegateHasSeen := time }) :=
  changes_peer p fun _ => .of_requested rfl rfl rfl rfl

/-- A peer without ids has none after a change that only takes from what it holds. -/
theorem empty_onPeer {p : PeerId} {f : PeerConnection → PeerConnection}
    (hf : ∀ c, Relieved c (f c)) (h : (n.peers p).idsOfItemsToGet = []) :
    ((n.onPeer p f).peers p).idsOfItemsToGet = [] := by
  rw [NetNode.onPeer_self]
  exact (hf _).idsToGet.trans h

/-- The task waits for the time of a block and records it. -/
theorem noteTime_meets {p : PeerId} {id : ItemHash} (rest : NetTask (List ItemHash))
    {b s : NetNode} (hs : Orderly s) (hguar : Changes (.reader p) b s)
    (hempty : (s.peers p).idsOfItemsToGet = [])
    (hrest : ∀ b s, Orderly s → Changes (.reader p) b s → (s.peers p).idsOfItemsToGet = [] →
      rest.Meets (terms (.reader p)) (Merged p) b s) :
    (do
      onPeer p fun c => { c with lastBlockDelegateHasSeen := id }
      let time ← call (.getBlockTime id)
      onPeer p fun c => { c with lastBlockTimeDelegateHasSeen := time }
      rest : NetTask (List ItemHash)).Meets (terms (.reader p)) (Merged p) b s := by
  have hnoted := changes_lastBlock (i := .reader p) (n := s) p id
  refine call_meets (hnoted.orderly hs) (hguar.trans hnoted) (fun time t hrely ht => ?_)
    fun e t ht => .error e ht
  have htime := changes_lastTime (i := .reader p) (n := t) p time
  have hstill := hrely p rfl (empty_onPeer (fun _ => .of_requested rfl rfl rfl rfl) hempty)
  exact hrest t _ (htime.orderly ht) htime
    (empty_onPeer (fun _ => .of_requested rfl rfl rfl rfl) hstill)

/-- Throwing out what is already known meets the terms and leaves ids that continue the list. -/
theorem flushKnown_meets {p : PeerId} (itemType : ℕ) {ids : List ItemHash} {b s : NetNode}
    (hids : Numbered ids) (hs : Orderly s) (hguar : Changes (.reader p) b s)
    (hempty : (s.peers p).idsOfItemsToGet = []) :
    (flushKnown p itemType ids).Meets (terms (.reader p)) (Merged p) b s := by
  induction ids generalizing b s with
  | nil => exact .ok hs hguar hids hempty
  | cons id rest ih =>
    refine call_meets hs hguar (fun known t hrely ht => ?_) fun e t ht => .error e ht
    have hstill := hrely p rfl hempty
    cases known with
    | false => exact .ok ht .refl hids hstill
    | true =>
      exact noteTime_meets (flushKnown p itemType rest) ht .refl hstill
        fun _ _ hs hguar hempty => ih hids.tail hs hguar hempty

/-- If the list goes back to an id that it holds, that id is its last. -/
theorem getLast_popBackTo {id last : ItemHash} {c : PeerConnection}
    (h : last ∈ (popBackTo id c).idsOfItemsToGet.getLast?) : last = id := by
  unfold popBackTo at h
  rw [List.getLast?_reverse] at h
  have hlast := List.head?_dropWhile_not (fun x => decide (x ≠ id)) c.idsOfItemsToGet.reverse
  rw [h] at hlast
  simpa using hlast

/-- The ids of an answer follow those of the peer once the ones that it repeats are dropped. -/
theorem continues_dropLast {c : PeerConnection} {first : ItemHash} {rest : List ItemHash}
    (hids : Numbered (first :: rest)) (hc : Numbered c.idsOfItemsToGet)
    (hlast : ∀ last ∈ c.idsOfItemsToGet.getLast?, last = first) :
    Continues { c with idsOfItemsToGet := c.idsOfItemsToGet.dropLast } (first :: rest) := by
  refine ⟨hids, fun last hmem head hhead => ?_⟩
  cases hhead
  have hne : c.idsOfItemsToGet ≠ [] := by
    intro hnil
    rw [hnil] at hmem
    cases hmem
  have hsplit := List.dropLast_append_getLast hne
  rw [hlast _ (List.getLast?_eq_some_getLast hne)] at hsplit
  rw [← hsplit] at hc
  exact (List.isChain_append.mp hc).2.2 last hmem first rfl

/-- Adding an answer to the ids of the peer meets the terms and leaves ids that continue the
list. -/
theorem mergeIds_meets {p : PeerId} (itemType : ℕ) {ids : List ItemHash} {b s : NetNode}
    (hids : Numbered ids) (hs : Orderly s) (hguar : Changes (.reader p) b s) :
    (mergeIds p itemType ids).Meets (terms (.reader p)) (Merged p) b s := by
  cases ids with
  | nil =>
    refine ⟨⟨hs, hguar⟩, fun received hreceived => ?_⟩
    cases hreceived
    exact ⟨List.isChain_nil, nofun⟩
  | cons first rest =>
    change Task.Meets _ _ (if (s.peers p).idsOfItemsToGet = [] then _ else _) b s
    by_cases hempty : (s.peers p).idsOfItemsToGet = []
    · rw [if_pos hempty]
      change Task.Meets _ _ (if isFirstForOther s p first = true then _ else _) b s
      by_cases hfirst : isFirstForOther s p first = true
      · rw [if_pos hfirst]
        exact .ok hs hguar hids hempty
      · rw [if_neg hfirst]
        exact flushKnown_meets itemType hids hs hguar hempty
    · rw [if_neg hempty]
      let popped := s.onPeer p (popBackTo first)
      have hpop : Change (.reader p) s popped := .popBack p first
      have hpopped := hpop.orderly hs
      change Task.Meets _ _ (if (popped.peers p).idsOfItemsToGet = [] then _ else _) b popped
      by_cases hnone : (popped.peers p).idsOfItemsToGet = []
      · rw [if_pos hnone]
        exact noteTime_meets (.done rest) hpopped (hguar.tail hpop) hnone
          fun _ _ hs hguar hempty => Merged.ok hs hguar hids.tail hempty
      · rw [if_neg hnone]
        have hdrop : Change (.reader p) popped (popped.onPeer p fun c =>
            { c with idsOfItemsToGet := c.idsOfItemsToGet.dropLast }) := .dropLast p
        refine ⟨⟨hdrop.orderly hpopped, (hguar.tail hpop).tail hdrop⟩, fun received hreceived => ?_⟩
        cases hreceived
        rw [NetNode.onPeer_self]
        refine continues_dropLast hids (hpopped.numbered p).right_of_append fun last hlast => ?_
        rw [NetNode.onPeer_self] at hlast
        exact getLast_popBackTo hlast

/-- What follows the merge of the ids keeps to the terms of every task. -/
theorem afterItemIds_steady (p : PeerId) (itemType total : ℕ) :
    (afterItemIds env p itemType total).Steady (terms i) := by
  refine .bind (.read _) fun n => .ite (disconnectFromPeer_steady p _ _) ?_
  refine .bind (.whenever (steady_call _)) fun _ => ?_
  refine .bind (steady_change fun n => changes_total _) fun _ => .bind (.read _) fun c => ?_
  exact .whenever (fetchNextBatchOfItemIdsFromPeer_steady p)

/-- Ids that the test of the node finds sequential are numbered one by one. -/
theorem numbered_of_isSequential {ids : List ItemHash} (h : isSequential ids = true) :
    Numbered ids := by
  cases ids with
  | nil => exact List.isChain_nil
  | cons first rest =>
    have hnum : ∀ j (hj : j < (first :: rest).length),
        ((first :: rest)[j]).num % 2 ^ 32 = (first.num + j) % 2 ^ 32 ∧
          (j ≠ 0 → ((first :: rest)[j]).num = (first.num + j) % 2 ^ 32) := by
      intro j hj
      have hmem : ((first :: rest)[j], j) ∈ (first :: rest).zipIdx :=
        List.mk_mem_zipIdx_iff_getElem?.mpr (List.getElem?_eq_getElem hj)
      have hentry := List.all_eq_true.mp h _ hmem
      simp only [Bool.or_eq_true, decide_eq_true_eq] at hentry
      rcases hentry with hentry | hentry
      · exact ⟨by rw [hentry, Nat.mod_mod], fun _ => hentry⟩
      · subst hentry
        exact ⟨rfl, fun h => absurd rfl h⟩
    refine List.isChain_iff_getElem.mpr fun j hj => ?_
    have hhere := (hnum j (Nat.lt_of_succ_lt hj)).1
    have hnext := (hnum (j + 1) hj).2 (Nat.succ_ne_zero j)
    unfold Follows
    rw [hnext]
    omega

/-- The ids are added in the section in which they were found to follow those of the peer. -/
theorem addOffered_steady (p : PeerId) (itemType total : ℕ) {ids : List ItemHash}
    (hids : Numbered ids) : (addOffered p itemType total ids).Steady (terms (.reader p)) := by
  refine ⟨fun b s hs hguar => (Task.Meets.mono ?_ (mergeIds_meets itemType hids hs hguar)).andThen⟩
  intro r b s hmerged
  obtain ⟨⟨hs, hguar⟩, hcontinues⟩ := hmerged
  cases r with
  | error e => exact ⟨hs, hguar⟩
  | ok received =>
    have hextend : Change (.reader p) s (s.onPeer p (extendIds received total)) :=
      .extend p received total (hcontinues received rfl)
    exact ⟨hextend.orderly hs, hguar.tail hextend⟩

/-- An answer with consecutive ids is considered within the terms of the reader. -/
theorem considerItemIds_steady (p : PeerId) (itemType total : ℕ) {ids : List ItemHash}
    (hids : Numbered ids) :
    (considerItemIds env p itemType total ids).Steady (terms (.reader p)) := by
  refine .bind (nothingNew_steady itemType total ids) fun nothing => .bind (.read _) fun c => ?_
  refine .ite ?_ ?_
  · refine .bind (steady_onPeer p fun _ => .of_requested rfl rfl rfl rfl) fun _ => ?_
    refine .bind (.read _) fun count => ?_
    exact .bind (steady_change fun n => changes_total _) fun _ => .whenever (steady_call _)
  · refine .bind (steady_onPeer p fun _ => .of_requested rfl rfl rfl rfl) fun _ => ?_
    exact .bind (addOffered_steady p itemType total hids) fun _ =>
      afterItemIds_steady p itemType total

/-- The handler of an answer with ids keeps to the terms of the reader, whatever the peer sends. -/
theorem onBlockchainItemIdsInventory_steady (p : PeerId) (itemType total : ℕ)
    (ids : List ItemHash) :
    (onBlockchainItemIdsInventory env p itemType total ids).Steady (terms (.reader p)) := by
  refine .bind (.read _) fun c => ?_
  cases hrequest : c.itemIdsRequestedFromPeer with
  | none => exact .done ()
  | some request =>
    obtain ⟨synopsis, time⟩ := request
    dsimp only
    by_cases hvalid : isValidResponse synopsis ids = true
    · rw [if_pos hvalid]
      have hids : Numbered ids := by
        cases ids with
        | nil => exact List.isChain_nil
        | cons first rest =>
          simp only [isValidResponse, Bool.and_eq_true] at hvalid
          exact numbered_of_isSequential hvalid.1
      refine .bind (steady_onPeer p fun _ => .of_requested rfl rfl rfl rfl) fun _ => ?_
      exact .bind (considerItemIds_steady p itemType total hids).attempt fun _ => .done ()
    · rw [if_neg hvalid]
      exact disconnectFromPeer_steady p _ _

end ItemIds

section Service

variable {env : NetEnv} {i : TaskName} {n : NetNode}

/-- The ids behind a synopsis are gathered within the terms of every task. -/
theorem blockIdsFor_steady (synopsis : List ItemHash) :
    (blockIdsFor synopsis).Steady (terms i) := by
  refine .bind (steady_call _).attempt fun r => ?_
  cases r with
  | ok reply => exact .done _
  | error e => exact .ite (.done _) (.fail e)

/-- Starting to sync with a peer that is ahead keeps to the terms of every task. -/
theorem resyncIfBehind_steady (p : PeerId) (itemType : ℕ) (synopsis : List ItemHash) :
    (resyncIfBehind env p itemType synopsis).Steady (terms i) := by
  refine .bind (.read _) fun c => ?_
  cases hlast : synopsis.getLast? with
  | none => exact .done ()
  | some last =>
    refine .ite (.done ()) (.bind (steady_call _) fun known => ?_)
    exact .ite (.done ()) (startSynchronizingWithPeer_steady p)

/-- The handler of a request for ids keeps to the terms of every task. -/
theorem onFetchBlockchainItemIds_steady (p : PeerId) (itemType : ℕ) (synopsis : List ItemHash) :
    (onFetchBlockchainItemIds env p itemType synopsis).Steady (terms i) := by
  refine .bind (blockIdsFor_steady synopsis) fun reply => .bind (.read _) fun c => ?_
  refine .bind (steady_onPeer p fun _ => .of_requested rfl rfl rfl rfl) fun _ => ?_
  refine .bind (resyncIfBehind_steady p itemType synopsis) fun _ => ?_
  refine .bind (steady_change fun n => changes_send p _) fun _ => ?_
  refine .ite (disconnectFromPeer_steady p _ _) (.bind (.read _) fun n => ?_)
  exact .whenever (joinActive_steady p)

/-- The replies to a request for items are gathered within the terms of every task. -/
theorem gatherReplies_steady (itemType : ℕ) (items : List ItemHash) :
    (gatherReplies itemType items).Steady (terms i) := by
  induction items with
  | nil => exact .done []
  | cons hash rest ih =>
    refine .bind (.read _) fun n => ?_
    cases n.messageCache.getMessage hash with
    | ok m => exact .bind ih fun more => .done _
    | error _ =>
      refine .bind (steady_call _).attempt fun r => ?_
      cases r with
      | ok m => exact .bind ih fun more => .done _
      | error e => exact .ite (.bind ih fun more => .done _) (.fail e)

/-- Noting the last block sent to a peer keeps to the terms of every task. -/
theorem noteLastBlock_steady (p : PeerId) (m : Option Message) :
    (noteLastBlock p m).Steady (terms i) := by
  cases m with
  | none => exact .done ()
  | some m =>
    cases m with
    | block b =>
      refine .bind (steady_onPeer p fun _ => .of_requested rfl rfl rfl rfl) fun _ => ?_
      refine .bind (steady_call _) fun time => ?_
      exact steady_onPeer p fun _ => .of_requested rfl rfl rfl rfl
    | _ => exact .fail _

/-- The handler of a request for items keeps to the terms of every task. -/
theorem onFetchItems_steady (p : PeerId) (itemType : ℕ) (items : List ItemHash) :
    (onFetchItems p itemType items).Steady (terms i) := by
  refine .bind (gatherReplies_steady itemType items) fun replies => ?_
  refine .bind (noteLastBlock_steady p _) fun _ => ?_
  exact steady_change fun n => changes_foldl (fun n reply => changes_send p _) _

/-- The handler of a closing message keeps to the terms of every task. -/
theorem onClosingConnection_steady (p : PeerId) (reason : String) (dueToError : Bool) :
    (onClosingConnection env p reason dueToError).Steady (terms i) := by
  refine .bind (steady_onPeer p fun _ => .of_requested rfl rfl rfl rfl) fun _ => ?_
  refine .bind (.whenever (steady_call _)) fun _ => .bind (.read _) fun c => ?_
  exact .whenever (steady_change fun n => changes_closeConnection p)

/-- Only the ids that a peer offers need the task that reads its messages. -/
theorem onMessage_steady (p : PeerId) (m : Message) :
    (onMessage env p m).Steady (terms (.reader p)) := by
  cases m with
  | trx trx => exact processOrdinaryMessage_steady p _
  | block b => exact processBlockMessage_steady p b
  | ordinary msgType data => exact .ite (processOrdinaryMessage_steady p _) (.done ())
  | itemIdsInventory itemType hashes =>
    exact steady_change fun n => changes_onItemIdsInventory p itemType hashes
  | blockchainItemIdsInventory total itemType ids =>
    exact onBlockchainItemIdsInventory_steady p itemType total ids
  | fetchBlockchainItemIds itemType synopsis =>
    exact onFetchBlockchainItemIds_steady p itemType synopsis
  | fetchItems itemType items => exact onFetchItems_steady p itemType items
  | itemNotAvailable item => exact onItemNotAvailable_steady p item
  | closingConnection reason dueToError => exact onClosingConnection_steady p reason dueToError
  | currentTimeRequest => exact .done ()

end Service

section Closing

variable {env : NetEnv} {i : TaskName} {n : NetNode}

/-- The items that a closed connection leaves to the others. -/
def refetch (items : List (ItemId × TimePoint)) (n : NetNode) : NetNode :=
  items.foldl (fun n e => if n.isItemInAnyPeersInventory e.1 then addToFetch e.1 n else n) n

/-- Putting the items of a closed peer back is a change of the list. -/
theorem changes_refetch (items : List (ItemId × TimePoint)) : Changes i n (refetch items n) := by
  refine changes_foldl (fun n e => ?_) items
  split
  · exact changes_addToFetch e.1
  · exact .refl

/-- Putting items back leaves the peers and the active sync requests. -/
theorem peers_refetch (items : List (ItemId × TimePoint)) (n : NetNode) :
    (refetch items n).peers = n.peers ∧
      (refetch items n).activeSyncRequests = n.activeSyncRequests := by
  induction items generalizing n with
  | nil => exact ⟨rfl, rfl⟩
  | cons e rest ih =>
    unfold refetch
    rw [List.foldl_cons]
    split
    · exact ih (addToFetch e.1 n)
    · exact ih n

/-- The items to fetch do not depend on the requests for sync blocks. -/
theorem refetch_release (items : List (ItemId × TimePoint)) (n : NetNode)
    (requests : Finset ItemHash) :
    refetch items { n with activeSyncRequests := requests } =
      { refetch items n with activeSyncRequests := requests } := by
  induction items generalizing n with
  | nil => rfl
  | cons e rest ih =>
    unfold refetch
    rw [List.foldl_cons, List.foldl_cons]
    have hsame : ({ n with activeSyncRequests := requests } : NetNode).isItemInAnyPeersInventory
        e.1 = n.isItemInAnyPeersInventory e.1 := rfl
    rw [hsame]
    split
    · exact ih (addToFetch e.1 n)
    · exact ih n

/-- What a closed peer was asked for is put back before the peer retires. -/
theorem rescheduleItems_eq_retire (p : PeerId) (n : NetNode) :
    rescheduleItems p n = retire p (refetch (n.peers p).itemsRequestedFromPeer n) := by
  obtain ⟨hpeers, hrequests⟩ := peers_refetch (n.peers p).itemsRequestedFromPeer n
  have hretire : retire p (refetch (n.peers p).itemsRequestedFromPeer n) =
      deletePeer p { refetch (n.peers p).itemsRequestedFromPeer n with
        activeSyncRequests := n.activeSyncRequests \ (n.peers p).syncItemsRequestedFromPeer } := by
    unfold retire
    rw [hrequests, congrFun hpeers p]
  rw [hretire, ← refetch_release]
  rfl

/-- The closing of a connection keeps to the terms of every task. -/
theorem onConnectionClosed_steady (p : PeerId) :
    (onConnectionClosed p).Steady (terms i) := by
  refine .bind (steady_change fun n => .single (.leave p)) fun _ => ?_
  refine .bind reportConnections_steady fun _ => steady_change fun n => ?_
  rw [rescheduleItems_eq_retire]
  exact (changes_refetch _).tail (.retire p)

/-- What follows a handler keeps to the terms that the handler keeps to. -/
theorem concludeMessage_steady (p : PeerId) {handler : NetTask Unit}
    (h : handler.Steady (terms i)) : (concludeMessage p handler).Steady (terms i) := by
  refine .bind h.attempt fun r => ?_
  refine .bind (steady_onPeer p fun _ => .of_requested rfl rfl rfl rfl) fun _ => ?_
  cases r with
  | ok u => exact .done ()
  | error e => exact onConnectionClosed_steady p

/-- Every message is handled within the terms of the reader of its peer. -/
theorem handleMessage_steady (p : PeerId) (m : Message) :
    (handleMessage env p m).Steady (terms (.reader p)) := by
  refine .bind (steady_change fun n => changes_peer p fun _ => .of_requested rfl rfl rfl rfl)
    fun _ => ?_
  exact concludeMessage_steady p (onMessage_steady p m)

/-- The check of the inactive connections is a change of the list. -/
theorem changes_terminateInactiveConnections :
    Changes i n (terminateInactiveConnections env n) := by
  refine Relation.ReflTransGen.trans ?_ (changes_foldl (fun n p => changes_send p _) _)
  refine Relation.ReflTransGen.trans ?_
    (changes_foldl (fun n p => changes_startDisconnecting p _ _) _)
  refine Relation.ReflTransGen.trans ?_ (changes_foldl (fun n p => ?_) _)
  · exact changes_foldl (fun n p => .single (.terminate p)) _
  · exact (Relation.ReflTransGen.single (.force p)).trans (changes_closeConnection p)

end Closing

section System

variable {env : NetEnv} {i : TaskName} {n : NetNode}

/-- A new status of a call is a change of the list. -/
theorem changes_setStatus (number : ℕ) (status : CallStatus) :
    Changes i n (setStatus number status n) :=
  changes_aside (by constructor <;> rfl)

/-- A call of the client keeps to the terms of every task. -/
theorem runCall_steady (number : ℕ) (m : BlockMessage) :
    (runCall env number m).Steady (terms i) := by
  refine .bind (steady_change fun n => changes_setStatus number .running) fun _ => ?_
  refine .bind (sendSyncBlockToNodeDelegate_steady m).attempt fun _ => ?_
  exact steady_change fun n => changes_setStatus number .ready

/-- Every task of the node makes only the changes of its list. -/
theorem begins_owed {m : NetTask Unit} (h : Begins env i n m) (hn : Orderly n) :
    contract.Owed i m n := by
  cases h with
  | message p m h => exact (handleMessage_steady p m).owed hn
  | connectionClosed p h => exact (onConnectionClosed_steady p).owed hn
  | handshakeDone p h => exact (joinActive_steady p).owed hn
  | backlog => exact processBacklogOfSyncBlocks_steady.owed hn
  | handleCall c h hstatus => exact (runCall_steady c.number c.message).owed hn
  | fetchSyncItems => exact (steady_change fun n => .single .fetchSync).owed hn
  | fetchItems => exact (steady_orderly fun n hn => changes_fetchItems hn).owed hn
  | advertiseInventory => exact (steady_change fun n => changes_advertiseInventory).owed hn
  | terminateInactiveConnections =>
    exact (steady_change fun n => changes_terminateInactiveConnections).owed hn
  | pruneFailedItems => exact (steady_change fun n => changes_pruneFailedItems).owed hn
  | broadcast m => exact (steady_change fun n => changes_broadcast m _).owed hn
  | syncFrom head hardForks =>
    exact (steady_change fun n => changes_aside (by constructor <;> rfl)).owed hn
  | connect inbound nodeId fork hnew =>
    have hstep := Change.connect (i := .outside) inbound nodeId fork hnew
    exact ⟨hstep.orderly hn, .single hstep⟩
  | tick now h =>
    exact (steady_change fun n => changes_aside (by constructor <;> rfl)).owed hn
  | reorder hreorder =>
    have hstep := Change.reorder (i := .outside) hreorder
    exact ⟨hstep.orderly hn, .single hstep⟩

/-- Whatever a task may begin keeps to its terms. -/
theorem begins_binds : contract.Binds (Begins env) :=
  fun _ _ _ hn hm => begins_owed hm hn

/-- The networks that a node that has just started reaches. -/
def Reachable (env : NetEnv) (w : Network) : Prop :=
  ∃ config nodeId now, Runs (Begins env) (Network.initial config nodeId now) w

variable {w v : Network}

/-- The node starts in order. -/
theorem orderly_initial (config : NodeConfiguration) (nodeId : ℕ) (now : TimePoint) :
    Orderly (.initial config nodeId now) :=
  ⟨List.nodup_nil, fun _ => List.isChain_nil⟩

/-- Every reachable world has the contract kept. -/
theorem Reachable.kept (h : Reachable env w) : contract.Kept w := by
  obtain ⟨config, nodeId, now, hruns⟩ := h
  exact (Contract.Kept.of_idle (orderly_initial config nodeId now)).runs begins_binds hruns

/-- From a reachable world, a task that does not wait may begin what it runs. -/
theorem Reachable.begin {m : NetTask Unit} (h : Reachable env w) (hfree : w.waiting i = none)
    (hm : Begins env i w.state m) : Reachable env (w.run i m) := by
  obtain ⟨config, nodeId, now, hruns⟩ := h
  exact ⟨config, nodeId, now, hruns.tail (.begin w i m hfree hm)⟩

/-- The induction rule for the states that a node reaches. -/
theorem Reachable.invariant {P : NetNode → Prop} (h : Reachable env w)
    (hinitial : ∀ config nodeId now, P (.initial config nodeId now))
    (hstep : ∀ i n m, Change i n m → P n → P m) : P w.state := by
  obtain ⟨config, nodeId, now, hruns⟩ := h
  have hkept : contract.Kept (Network.initial config nodeId now) :=
    .of_idle (orderly_initial config nodeId now)
  refine hkept.invariant begins_binds (fun i n m hchanges hn => ?_) (hinitial _ _ _) hruns
  exact Changes.invariant hchanges (hstep i) hn

/-- The induction rule for what stays true from a reachable network on. -/
theorem Reachable.stable {P : NetNode → Prop} (h : Reachable env w)
    (hstep : ∀ i n m, Change i n m → P n → P m) (hruns : Runs (Begins env) w v)
    (hw : P w.state) : P v.state :=
  h.kept.invariant begins_binds (fun i _ _ hchanges => Changes.invariant hchanges (hstep i)) hw
    hruns

end System

section Clients

/-- A client that gives the same answers always. -/
abbrev Client := (q : Query) → q.Answer

/-- The task that waits under a name goes on with the answer of a client. -/
def resume (client : Client) (i : TaskName) (w : Network) : Network :=
  match w.waiting i with
  | some waiting => w.run i (waiting.resume (client waiting.query))
  | none => w

variable {env : NetEnv} {w : Network}

/-- From a reachable world, a task may go on with an answer of the client. -/
theorem Reachable.resume (h : Reachable env w) (client : Client) (i : TaskName) :
    Reachable env (resume client i w) := by
  obtain ⟨config, nodeId, now, hruns⟩ := h
  unfold NetworkRuns.resume
  split
  next waiting hwaiting =>
    exact ⟨config, nodeId, now, hruns.tail (.answer w i waiting hwaiting _)⟩
  next => exact ⟨config, nodeId, now, hruns⟩

/-- From a reachable world, a task may go on any number of times. -/
theorem Reachable.iterate (h : Reachable env w) (client : Client) (i : TaskName) (k : ℕ) :
    Reachable env ((NetworkRuns.resume client i)^[k] w) := by
  induction k generalizing w with
  | zero => exact h
  | succ k ih => exact ih (h.resume client i)

/-- A client without a block. -/
def newClient : Client
  | .hasItem _ => Except.ok false
  | .handleBlock .. => Except.ok ([] : List ItemHash)
  | .handleTransaction _ => Except.ok ()
  | .handleMessage _ => Except.ok ()
  | .getBlockIds _ => Except.ok (([], 0) : List ItemHash × ℕ)
  | .getItem _ => (Except.error ⟨.keyNotFound, ""⟩ : Except NetExc Message)
  | .getBlockchainSynopsis .. => Except.ok ([] : List ItemHash)
  | .syncStatus .. => Except.ok ()
  | .connectionCountChanged _ => Except.ok ()
  | .getBlockTime _ => Except.ok (0 : ℕ)
  | .errorEncountered _ => Except.ok ()

/-- Messages without ids. -/
def plainEnv : NetEnv := ⟨fun _ => .null, fun _ => .null, -2 ^ 63⟩

/-- A node without a block that has just connected to a peer. -/
def joined : Network :=
  let connected := (Network.initial .initial 7 0).run .outside (Task.change (connect false 8 0))
  (NetworkRuns.resume newClient (.reader 0))^[3]
    (connected.run (.reader 0) (joinActive plainEnv 0))

/-- The peer offers the first two blocks of its chain. -/
def offered : Network :=
  (NetworkRuns.resume newClient (.reader 0))^[3] (joined.run (.reader 0)
    (handleMessage plainEnv 0 (.blockchainItemIdsInventory 0 1001 [⟨1, 5⟩, ⟨2, 6⟩])))

/-- The peer is asked for the two blocks. -/
def asked : Network := offered.run .fetchSyncItemsLoop (Task.change fetchSyncItems)

/-- What the steps of the node find: the new connection, and tasks that have come to their end. -/
theorem sample_steps :
    0 ∈ (((Network.initial .initial 7 0).run .outside
      (Task.change (connect false 8 0))).state.handshakingConnections) ∧
    (joined.waiting (.reader 0)).isNone ∧ 0 ∈ joined.state.activeConnections ∧
    (offered.waiting .fetchSyncItemsLoop).isNone ∧
    offeredIds offered.state 0 = [⟨1, 5⟩, ⟨2, 6⟩] := by
  decide +kernel

/-- The small world with one peer is reachable. -/
theorem joined_reachable : Reachable plainEnv joined := by
  have hnew : ¬ connected (Network.initial .initial 7 0).state 0 := by
    simp [connected, Network.initial, NetNode.initial]
  refine Reachable.iterate
    (.begin (.begin ⟨_, _, _, .refl⟩ rfl (.connect false 8 0 hnew)) rfl ?_) ..
  exact .handshakeDone 0 sample_steps.1

/-- The reader of the peer does not wait there. -/
theorem joined_free : joined.waiting (.reader 0) = none :=
  Option.isNone_iff_eq_none.mp sample_steps.2.1

/-- The world in which the peer has offered its ids is reachable. -/
theorem offered_reachable : Reachable plainEnv offered :=
  (joined_reachable.begin joined_free (.message 0 _ (.inl sample_steps.2.2.1))).iterate ..

/-- The world in which the peer was asked for its ids is reachable. -/
theorem asked_reachable : Reachable plainEnv asked :=
  offered_reachable.begin (Option.isNone_iff_eq_none.mp sample_steps.2.2.2.1) .fetchSyncItems

end Clients

/-- In every network that a node reaches no connection stands twice in the lists, and the ids that
a peer has offered since its list was last begun have consecutive block numbers. So the node can
tell from its place in the list which block an id is of, however the tasks of its peers took
turns. -/
theorem offers_consecutive {env : NetEnv} {w : Network} (h : Reachable env w) :
    (connections w.state).Nodup ∧ ∀ p, Numbered (offeredIds w.state p) :=
  ⟨h.kept.inv.lists, h.kept.inv.numbered⟩

/-- The peer has offered the blocks 5 and 6. -/
theorem offers_consecutive_offered :
    offeredIds offered.state 0 = [⟨1, 5⟩, ⟨2, 6⟩] ∧
      ((connections offered.state).Nodup ∧ ∀ p, Numbered (offeredIds offered.state p)) :=
  ⟨sample_steps.2.2.2.2, offers_consecutive offered_reachable⟩

end Whaleshares.NetworkRuns
