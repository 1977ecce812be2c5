import Whaleshares.NetworkTasks

/-!
# The changes that the tasks of the node make

Every section of every task of the peer-to-peer node is a sequence of changes from one list.
The list says what a change does to the requests, to the ids that peers offer, to the received
sync blocks, to the items to fetch and to the lists of connections. Only the task that reads the
messages of a peer adds ids to those that the peer offers, and they are the ids of consecutive
blocks. The properties of the runs of a node are proved from this list.
-/

namespace Whaleshares.NetworkSteps

open Config Fc Protocol MessageCache Peers Cooperation SyncTasks InventoryTasks NetworkTasks

section Changes

/-- The block of the second id has the next number. -/
def Follows (a b : ItemHash) : Prop := b.num = (a.num + 1) % 2 ^ 32

/-- The ids of consecutive blocks. -/
abbrev Numbered (ids : List ItemHash) : Prop := ids.IsChain Follows

/-- Ids that may be added to those that a peer offers. -/
structure Continues (c : PeerConnection) (ids : List ItemHash) : Prop where
  numbered : Numbered ids
  junction : ∀ last ∈ c.idsOfItemsToGet.getLast?, ∀ first ∈ ids.head?, Follows last first

/-- The ids that a peer offers and the sync blocks that we have requested from it are the same,
and no other items are requested from it. -/
structure Relieved (c d : PeerConnection) : Prop where
  idsToGet : d.idsOfItemsToGet = c.idsOfItemsToGet
  started : d.startedIds = c.startedIds
  syncRequested : d.syncItemsRequestedFromPeer = c.syncItemsRequestedFromPeer
  requested : d.itemsRequestedFromPeer.Sublist c.itemsRequestedFromPeer

/-- The fields that the list of changes is about are the same. -/
structure SameCore (n m : NetNode) : Prop where
  config : m.config = n.config
  peers : m.peers = n.peers
  nextPeer : m.nextPeer = n.nextPeer
  handshaking : m.handshakingConnections = n.handshakingConnections
  active : m.activeConnections = n.activeConnections
  closing : m.closingConnections = n.closingConnections
  terminating : m.terminatingConnections = n.terminatingConnections
  requests : m.activeSyncRequests = n.activeSyncRequests
  newReceived : m.newReceivedSyncItems = n.newReceivedSyncItems
  received : m.receivedSyncItems = n.receivedSyncItems
  itemsToFetch : m.itemsToFetch = n.itemsToFetch
  counter : m.itemsToFetchSequenceCounter = n.itemsToFetchSequenceCounter

/-- What the order of the items to fetch depends on. -/
def rank (e : PrioritizedItemId) : ItemId × ℕ := (e.item, e.sequenceNumber)

/-- The sync blocks that have come. -/
def receivedBlocks (n : NetNode) : List BlockMessage :=
  n.receivedSyncItems ++ n.newReceivedSyncItems

/-- What was requested from a peer is released, and the connection is deleted. -/
def retire (p : PeerId) (n : NetNode) : NetNode :=
  deletePeer p { n with
    activeSyncRequests := n.activeSyncRequests \ (n.peers p).syncItemsRequestedFromPeer }

/-- A terminating connection is deleted. -/
def terminate (p : PeerId) (n : NetNode) : NetNode :=
  deletePeer p { n with terminatingConnections := n.terminatingConnections.filter (· ≠ p) }

/-- A sync block that was requested is not available. -/
def loseItem (p : PeerId) (id : ItemHash) (n : NetNode) : NetNode :=
  n.onPeer p fun c =>
    { c with syncItemsRequestedFromPeer := c.syncItemsRequestedFromPeer.erase id }

/-- The changes that a task makes. -/
inductive Change : TaskName → NetNode → NetNode → Prop
  /-- A change of what is known about a peer, apart from what it offers. -/
  | peer {i : TaskName} {n : NetNode} (p : PeerId) (f : PeerConnection → PeerConnection)
      (h : ∀ c, Relieved c (f c)) : Change i n (n.onPeer p f)
  /-- A change of other fields. -/
  | aside {i : TaskName} {n m : NetNode} (h : SameCore n m) : Change i n m
  | restart {i : TaskName} {n : NetNode} (p : PeerId) : Change i n (n.onPeer p restart)
  /-- The next block of a peer goes to the client. -/
  | start {i : TaskName} {n : NetNode} (p : PeerId) (id : ItemHash)
      (h : isFirstFor n id p = true) : Change i n (n.onPeer p (startItem id))
  | popBack {n : NetNode} (p : PeerId) (id : ItemHash) :
    Change (.reader p) n (n.onPeer p (popBackTo id))
  | dropLast {n : NetNode} (p : PeerId) : Change (.reader p) n
      (n.onPeer p fun c => { c with idsOfItemsToGet := c.idsOfItemsToGet.dropLast })
  | extend {n : NetNode} (p : PeerId) (ids : List ItemHash) (total : ℕ)
      (h : Continues (n.peers p) ids) : Change (.reader p) n (n.onPeer p (extendIds ids total))
  | fetchSync {i : TaskName} {n : NetNode} : Change i n (fetchSyncItems n)
  | receive {i : TaskName} {n : NetNode} (p : PeerId) (m : BlockMessage)
      (h : m.blockId ∈ (n.peers p).syncItemsRequestedFromPeer) :
    Change i n (receiveSyncBlock p m n)
  | lose {i : TaskName} {n : NetNode} (p : PeerId) (id : ItemHash) : Change i n (loseItem p id n)
  | retire {i : TaskName} {n : NetNode} (p : PeerId) : Change i n (retire p n)
  | terminate {i : TaskName} {n : NetNode} (p : PeerId) : Change i n (terminate p n)
  /-- The received sync blocks are put elsewhere or taken away. -/
  | store {i : TaskName} {n : NetNode} (received newReceived : List BlockMessage)
      (h : ∀ b ∈ received ++ newReceived, b ∈ receivedBlocks n) :
    Change i n { n with receivedSyncItems := received, newReceivedSyncItems := newReceived }
  | request {i : TaskName} {n : NetNode} (p : PeerId) (item : ItemId)
      (h : (n.peers p).idle = true) : Change i n (n.onPeer p (requestItem item n.now))
  | enqueue {i : TaskName} {n : NetNode} (item : ItemId) : Change i n (addToFetch item n)
  /-- Items leave the items to fetch, or get another timestamp. -/
  | dequeue {i : TaskName} {n : NetNode} (l : List PrioritizedItemId)
      (h : (l.map rank).Sublist (n.itemsToFetch.map rank)) :
    Change i n { n with itemsToFetch := l }
  | activate {i : TaskName} {n : NetNode} (p : PeerId) : Change i n (n.movePeerToActiveList p)
  | close {i : TaskName} {n : NetNode} (p : PeerId) : Change i n (n.movePeerToClosingList p)
  | force {i : TaskName} {n : NetNode} (p : PeerId) : Change i n (n.movePeerToTerminatingList p)
  | leave {i : TaskName} {n : NetNode} (p : PeerId) : Change i n (leaveLists p n)
  | connect {i : TaskName} {n : NetNode} (inbound : Bool) (nodeId fork : ℕ)
      (h : ¬ connected n n.nextPeer) : Change i n (connect inbound nodeId fork n)
  | reorder {i : TaskName} {n m : NetNode} (h : Reordered n m) : Change i n m

/-- A sequence of changes. -/
abbrev Changes (i : TaskName) : NetNode → NetNode → Prop := Relation.ReflTransGen (Change i)

variable {i : TaskName} {n m : NetNode}

/-- The ids that a peer has offered since its list was last begun: those taken from the list, and
those still in it. -/
def offeredIds (n : NetNode) (p : PeerId) : List ItemHash :=
  (n.peers p).startedIds ++ (n.peers p).idsOfItemsToGet

/-- The lists of connections, one after the other. -/
def connections (n : NetNode) : List PeerId :=
  n.activeConnections ++ n.handshakingConnections ++ n.closingConnections ++
    n.terminatingConnections

/-- No connection is twice in the lists, and the ids of every peer since its list was last begun are
of consecutive blocks. -/
structure Orderly (n : NetNode) : Prop where
  lists : (connections n).Nodup
  numbered : ∀ p, Numbered (offeredIds n p)

/-- No connection is active twice. -/
theorem Orderly.active (hn : Orderly n) : n.activeConnections.Nodup := by
  have hlists := hn.lists
  unfold connections at hlists
  rw [List.append_assoc, List.append_assoc] at hlists
  exact hlists.of_append_left

/-- The lists hold the connections of the node. -/
theorem mem_connections {p : PeerId} : p ∈ connections n ↔ connected n p := by
  simp [connections, connected]

/-- A connection that is in one of two lists is put into the first one. -/
theorem nodup_move {p : PeerId} {l rest : List PeerId} (h : (l ++ rest).Nodup) :
    (insertNew p l ++ rest.filter (· ≠ p)).Nodup := by
  have hsub : (l ++ rest.filter (· ≠ p)).Nodup := h.sublist (List.filter_sublist.append_left l)
  unfold insertNew
  split
  next => exact hsub
  next hp =>
    refine List.nodup_cons.mpr ⟨fun hmem => ?_, hsub⟩
    rcases List.mem_append.mp hmem with hmem | hmem
    · exact hp hmem
    · simpa using (List.mem_filter.mp hmem).2

/-- A move to the active list puts no connection twice. -/
theorem nodup_activate (p : PeerId) (h : (connections n).Nodup) :
    (connections (n.movePeerToActiveList p)).Nodup := by
  unfold connections at h ⊢
  rw [List.append_assoc, List.append_assoc] at h
  have hmoved := nodup_move (p := p) h
  rwa [List.filter_append, List.filter_append, ← List.append_assoc, ← List.append_assoc] at hmoved

/-- A move to the closing list puts no connection twice. -/
theorem nodup_close (p : PeerId) (h : (connections n).Nodup) :
    (connections (n.movePeerToClosingList p)).Nodup := by
  have hfirst : ∀ a b c d : List PeerId, (a ++ b ++ c ++ d).Perm (c ++ (a ++ b ++ d)) := by
    intro a b c d
    rw [← List.append_assoc]
    exact List.perm_append_comm.append_right d
  have hmoved := nodup_move (p := p) ((hfirst _ _ _ _).nodup_iff.mp h)
  rw [List.filter_append, List.filter_append] at hmoved
  exact (hfirst _ _ _ _).nodup_iff.mpr hmoved

/-- A move to the terminating list puts no connection twice. -/
theorem nodup_force (p : PeerId) (h : (connections n).Nodup) :
    (connections (n.movePeerToTerminatingList p)).Nodup := by
  have hfirst : ∀ a d : List PeerId, (a ++ d).Perm (d ++ a) := fun _ _ => List.perm_append_comm
  have hmoved := nodup_move (p := p) ((hfirst _ _).nodup_iff.mp h)
  rw [List.filter_append, List.filter_append] at hmoved
  exact (hfirst _ _).nodup_iff.mpr hmoved

/-- Leaving the lists puts no connection twice. -/
theorem nodup_leave (p : PeerId) (h : (connections n).Nodup) :
    (connections (leaveLists p n)).Nodup := by
  refine h.sublist ?_
  unfold connections leaveLists
  exact ((List.filter_sublist.append List.filter_sublist).append List.filter_sublist).append
    List.filter_sublist

/-- A new connection is in none of the lists before. -/
theorem nodup_connect {inbound : Bool} {nodeId fork : ℕ} (hnew : ¬ connected n n.nextPeer)
    (h : (connections n).Nodup) :
    (connections (NetworkTasks.connect inbound nodeId fork n)).Nodup := by
  have hperm : (connections (NetworkTasks.connect inbound nodeId fork n)).Perm
      (n.nextPeer :: connections n) :=
    (List.perm_middle.append_right _).append_right _
  exact hperm.nodup_iff.mpr (List.nodup_cons.mpr ⟨fun hmem => hnew (mem_connections.mp hmem), h⟩)

/-- Reordered lists have the same connections. -/
theorem perm_connections (h : Reordered n m) : (connections n).Perm (connections m) :=
  ((h.active.append h.handshaking).append h.closing).append h.terminating

/-- A change that leaves the peers alone keeps the order if it keeps the lists. -/
theorem Orderly.of_peers (hn : Orderly n) (hpeers : m.peers = n.peers)
    (hlists : (connections m).Nodup) : Orderly m := by
  refine ⟨hlists, fun p => ?_⟩
  unfold offeredIds
  rw [hpeers]
  exact hn.numbered p

/-- What is known about one peer has changed. -/
theorem Orderly.atPeer (hn : Orderly n) (p : PeerId) (hlists : (connections m).Nodup)
    (hothers : ∀ q, q ≠ p → m.peers q = n.peers q) (h : Numbered (offeredIds m p)) :
    Orderly m := by
  refine ⟨hlists, fun q => ?_⟩
  by_cases hq : q = p
  · rwa [hq]
  · unfold offeredIds
    rw [hothers q hq]
    exact hn.numbered q

/-- A change of one connection keeps the order if its ids stay consecutive. -/
theorem Orderly.onPeer (hn : Orderly n) (p : PeerId) {f : PeerConnection → PeerConnection}
    (h : Numbered ((f (n.peers p)).startedIds ++ (f (n.peers p)).idsOfItemsToGet)) :
    Orderly (n.onPeer p f) := by
  refine hn.atPeer p hn.lists (fun q hq => NetNode.onPeer_of_ne n hq f) ?_
  unfold offeredIds
  rwa [NetNode.onPeer_self]

/-- The connections whose ids are what they were. -/
structure SameIds (n m : NetNode) : Prop where
  lists : connections m = connections n
  toGet : ∀ p, (m.peers p).idsOfItemsToGet = (n.peers p).idsOfItemsToGet
  started : ∀ p, (m.peers p).startedIds = (n.peers p).startedIds

/-- What is known about one peer has changed, apart from its ids. -/
theorem SameIds.atPeer (p : PeerId) (hlists : connections m = connections n)
    (hothers : ∀ q, q ≠ p → m.peers q = n.peers q)
    (htoGet : (m.peers p).idsOfItemsToGet = (n.peers p).idsOfItemsToGet)
    (hstarted : (m.peers p).startedIds = (n.peers p).startedIds) : SameIds n m := by
  refine ⟨hlists, fun q => ?_, fun q => ?_⟩
  · by_cases hq : q = p
    · rwa [hq]
    · rw [hothers q hq]
  · by_cases hq : q = p
    · rwa [hq]
    · rw [hothers q hq]

/-- Changes that leave the ids alone leave them alone together. -/
theorem SameIds.trans {k : NetNode} (h : SameIds n m) (h' : SameIds m k) : SameIds n k :=
  ⟨h'.lists.trans h.lists, fun p => (h'.toGet p).trans (h.toGet p),
    fun p => (h'.started p).trans (h.started p)⟩

/-- A change of one connection leaves the ids alone if it leaves those of the connection. -/
theorem SameIds.onPeer (p : PeerId) {f : PeerConnection → PeerConnection}
    (htoGet : (f (n.peers p)).idsOfItemsToGet = (n.peers p).idsOfItemsToGet)
    (hstarted : (f (n.peers p)).startedIds = (n.peers p).startedIds) :
    SameIds n (n.onPeer p f) := by
  refine .atPeer p rfl (fun q hq => NetNode.onPeer_of_ne n hq f) ?_ ?_
  · rwa [NetNode.onPeer_self]
  · rwa [NetNode.onPeer_self]

/-- A change that leaves the ids alone keeps the order. -/
theorem SameIds.orderly (h : SameIds n m) (hn : Orderly n) : Orderly m := by
  refine ⟨h.lists ▸ hn.lists, fun p => ?_⟩
  unfold offeredIds
  rw [h.toGet, h.started]
  exact hn.numbered p

/-- A request for sync blocks leaves the ids alone. -/
theorem sameIds_request (n : NetNode) (p : PeerId) (ids : List ItemHash) :
    SameIds n (requestSyncItemsFromPeer n p ids) := by
  refine .atPeer p rfl (fun q hq => ?_) ?_ ?_
  · simp [requestSyncItemsFromPeer, NetNode.send, NetNode.onPeer, hq]
  · simp [requestSyncItemsFromPeer, NetNode.send, NetNode.onPeer]
  · simp [requestSyncItemsFromPeer, NetNode.send, NetNode.onPeer]

/-- The arrival of a sync block leaves the ids alone. -/
theorem sameIds_receive (n : NetNode) (p : PeerId) (b : BlockMessage) :
    SameIds n (receiveSyncBlock p b n) := by
  refine .atPeer p rfl (fun q hq => ?_) ?_ ?_
  · simp [receiveSyncBlock, NetNode.onPeer, hq]
  · simp [receiveSyncBlock, NetNode.onPeer]
  · simp [receiveSyncBlock, NetNode.onPeer]

/-- The loop that fetches sync blocks leaves the ids alone. -/
theorem sameIds_fetchSyncItems (n : NetNode) : SameIds n (fetchSyncItems n) := by
  unfold fetchSyncItems
  split
  · exact ⟨rfl, fun _ => rfl, fun _ => rfl⟩
  · generalize scheduleRequests n n.activeConnections ∅ [] = requests
    clear * -
    induction requests generalizing n with
    | nil => exact ⟨rfl, fun _ => rfl, fun _ => rfl⟩
    | cons r rest ih => exact (sameIds_request n r.1 r.2).trans (ih _)

/-- A deleted peer is as new. -/
theorem deletePeer_self (p : PeerId) (n : NetNode) : (deletePeer p n).peers p = .initial :=
  NetNode.onPeer_self ..

/-- The deletion of a peer leaves the others alone. -/
theorem deletePeer_of_ne {p q : PeerId} (h : q ≠ p) (n : NetNode) :
    (deletePeer p n).peers q = n.peers q :=
  NetNode.onPeer_of_ne n h _

/-- A peer that has left is as new. -/
theorem retire_self (p : PeerId) (n : NetNode) : (retire p n).peers p = .initial := by
  unfold retire
  rw [deletePeer_self]

/-- A peer that leaves does not change the others. -/
theorem retire_of_ne {p q : PeerId} (h : q ≠ p) : (retire p n).peers q = n.peers q := by
  unfold retire
  rw [deletePeer_of_ne h]

/-- A peer that was forced to leave is as new. -/
theorem terminate_self (p : PeerId) (n : NetNode) : (terminate p n).peers p = .initial := by
  unfold terminate
  rw [deletePeer_self]

/-- A peer that is forced to leave does not change the others. -/
theorem terminate_of_ne {p q : PeerId} (h : q ≠ p) : (terminate p n).peers q = n.peers q := by
  unfold terminate
  rw [deletePeer_of_ne h]

/-- A new connection does not change the others. -/
theorem connect_of_ne {q : PeerId} (h : q ≠ n.nextPeer) (inbound : Bool) (nodeId fork : ℕ) :
    (NetworkTasks.connect inbound nodeId fork n).peers q = n.peers q := by
  simp [NetworkTasks.connect, NetNode.onPeer, h]

/-- A new connection offers nothing and is asked for nothing. -/
theorem connect_self (inbound : Bool) (nodeId fork : ℕ) (n : NetNode) :
    (NetworkTasks.connect inbound nodeId fork n).peers n.nextPeer =
      { PeerConnection.initial with
        inbound := inbound
        nodeId := nodeId
        lastKnownForkBlockNumber := fork
        connectionInitiationTime := n.now } := by
  simp [NetworkTasks.connect, NetNode.onPeer]

/-- Popping ids off the end leaves a first part of the list. -/
theorem popBackTo_shortens (id : ItemHash) (c : PeerConnection) :
    (popBackTo id c).idsOfItemsToGet <+: c.idsOfItemsToGet := by
  refine List.reverse_suffix.mp ?_
  unfold popBackTo
  rw [List.reverse_reverse]
  exact List.dropWhile_suffix _

/-- Ids that continue the list keep it consecutive. -/
theorem numbered_extend {c : PeerConnection} {ids : List ItemHash} (total : ℕ)
    (h : Continues c ids) (hc : Numbered (c.startedIds ++ c.idsOfItemsToGet)) :
    Numbered ((extendIds ids total c).startedIds ++ (extendIds ids total c).idsOfItemsToGet) := by
  unfold extendIds
  dsimp only
  split
  next hempty =>
    rw [hempty]
    exact h.numbered
  next hne =>
    rw [← List.append_assoc]
    refine hc.append h.numbered fun last hlast => h.junction last ?_
    rwa [List.getLast?_append_of_ne_nil _ hne] at hlast

/-- A shorter list of ids is consecutive too. -/
theorem numbered_shortened {started ids fewer : List ItemHash} (hle : fewer <+: ids)
    (h : Numbered (started ++ ids)) : Numbered (started ++ fewer) := by
  obtain ⟨rest, rfl⟩ := hle
  rw [← List.append_assoc] at h
  exact h.left_of_append

/-- The first id of the list moves to the ids that were started. -/
theorem numbered_start {c : PeerConnection} {id : ItemHash}
    (hfirst : c.idsOfItemsToGet.head? = some id)
    (hc : Numbered (c.startedIds ++ c.idsOfItemsToGet)) :
    Numbered ((startItem id c).startedIds ++ (startItem id c).idsOfItemsToGet) := by
  obtain ⟨rest, hrest⟩ := List.head?_eq_some_iff.mp hfirst
  unfold startItem
  rw [hrest] at hc ⊢
  rwa [List.tail_cons, List.append_assoc, List.singleton_append]

/-- The step lemma: every change keeps the order of the node. -/
theorem Change.orderly (h : Change i n m) (hn : Orderly n) : Orderly m := by
  cases h with
  | peer p f hf =>
    refine (SameIds.onPeer p ?_ ?_).orderly hn
    · exact (hf _).idsToGet
    · exact (hf _).started
  | aside hcore =>
    refine hn.of_peers hcore.peers ?_
    unfold connections
    rw [hcore.active, hcore.handshaking, hcore.closing, hcore.terminating]
    exact hn.lists
  | restart p => exact hn.onPeer p List.isChain_nil
  | start p id hfirst =>
    exact hn.onPeer p (numbered_start (of_decide_eq_true hfirst) (hn.numbered p))
  | popBack p id =>
    exact hn.onPeer p (numbered_shortened (popBackTo_shortens id _) (hn.numbered p))
  | dropLast p =>
    exact hn.onPeer p (numbered_shortened (List.dropLast_prefix _) (hn.numbered p))
  | extend p ids total hids => exact hn.onPeer p (numbered_extend total hids (hn.numbered p))
  | fetchSync => exact (sameIds_fetchSyncItems n).orderly hn
  | receive p b hb => exact (sameIds_receive n p b).orderly hn
  | lose p id => exact (SameIds.onPeer p rfl rfl).orderly hn
  | retire p =>
    refine hn.atPeer p hn.lists (fun q hq => retire_of_ne hq) ?_
    unfold offeredIds
    rw [retire_self]
    exact List.isChain_nil
  | terminate p =>
    refine hn.atPeer p (hn.lists.sublist (List.filter_sublist.append_left _))
      (fun q hq => terminate_of_ne hq) ?_
    unfold offeredIds
    rw [terminate_self]
    exact List.isChain_nil
  | store received newReceived hsub => exact hn.of_peers rfl hn.lists
  | request p item hidle => exact (SameIds.onPeer p rfl rfl).orderly hn
  | enqueue item => exact hn.of_peers rfl hn.lists
  | dequeue l hl => exact hn.of_peers rfl hn.lists
  | activate p => exact hn.of_peers rfl (nodup_activate p hn.lists)
  | close p => exact hn.of_peers rfl (nodup_close p hn.lists)
  | force p => exact hn.of_peers rfl (nodup_force p hn.lists)
  | leave p => exact hn.of_peers rfl (nodup_leave p hn.lists)
  | connect inbound nodeId fork hnew =>
    refine hn.atPeer n.nextPeer (nodup_connect hnew hn.lists)
      (fun q hq => connect_of_ne hq inbound nodeId fork) ?_
    unfold offeredIds
    rw [connect_self]
    exact List.isChain_nil
  | reorder hreorder =>
    refine hn.of_peers ?_ ((perm_connections hreorder).nodup_iff.mp hn.lists)
    rw [hreorder.rest]

/-- What every change keeps is kept by a sequence of changes. -/
theorem Changes.invariant {P : NetNode → Prop} (h : Changes i n m)
    (hstep : ∀ n m, Change i n m → P n → P m) (hn : P n) : P m := by
  induction h with
  | refl => exact hn
  | tail _ hchange ih => exact hstep _ _ hchange ih

/-- The run lemma: a sequence of changes keeps the order of the node. -/
theorem Changes.orderly (h : Changes i n m) (hn : Orderly n) : Orderly m :=
  h.invariant (fun _ _ hchange => hchange.orderly) hn

/-- While the task that reads the messages of a peer waits, the others add no ids to those that
the peer offers. -/
def KeptEmpty (i : TaskName) (n m : NetNode) : Prop :=
  ∀ p, i = .reader p → (n.peers p).idsOfItemsToGet = [] → (m.peers p).idsOfItemsToGet = []

/-- A change of a connection that leaves an empty list empty lets no list fill up. -/
theorem keptEmpty_onPeer (i : TaskName) (q : PeerId) {f : PeerConnection → PeerConnection}
    (h : ∀ c, c.idsOfItemsToGet = [] → (f c).idsOfItemsToGet = []) :
    KeptEmpty i n (n.onPeer q f) := by
  intro p _ hempty
  by_cases hp : p = q
  · subst hp
    rw [NetNode.onPeer_self]
    exact h _ hempty
  · rwa [NetNode.onPeer_of_ne n hp]

/-- A connection that begins anew with an empty list lets no list fill up. -/
theorem keptEmpty_reset (i : TaskName) (q : PeerId) (hothers : ∀ p, p ≠ q → m.peers p = n.peers p)
    (h : (m.peers q).idsOfItemsToGet = []) : KeptEmpty i n m := by
  intro p _ hempty
  by_cases hp : p = q
  · rwa [hp]
  · rwa [hothers p hp]

/-- A change that leaves the ids alone lets no list fill up. -/
theorem SameIds.keptEmpty (i : TaskName) (h : SameIds n m) : KeptEmpty i n m :=
  fun p _ hempty => (h.toGet p).trans hempty

/-- A change that leaves the peers alone lets no list fill up. -/
theorem keptEmpty_of_peers (i : TaskName) (h : m.peers = n.peers) : KeptEmpty i n m := by
  intro p _ hempty
  rwa [h]

/-- Only the own task of a peer fills an empty list of ids. -/
theorem Change.keptEmpty {j : TaskName} (hne : j ≠ i) (h : Change j n m) : KeptEmpty i n m := by
  cases h with
  | peer p f hf => exact keptEmpty_onPeer i p fun c hc => (hf c).idsToGet.trans hc
  | aside hcore => exact keptEmpty_of_peers i hcore.peers
  | restart p => exact keptEmpty_onPeer i p fun _ _ => rfl
  | start p id hfirst =>
    refine keptEmpty_onPeer i p fun c hc => ?_
    unfold startItem
    rw [hc]
    rfl
  | popBack p id =>
    refine keptEmpty_onPeer i p fun c hc => List.prefix_nil.mp ?_
    rw [← hc]
    exact popBackTo_shortens id c
  | dropLast p =>
    refine keptEmpty_onPeer i p fun c hc => ?_
    dsimp only
    rw [hc]
    rfl
  | extend p ids total hids =>
    -- only the task that reads the messages of the peer itself does this
    intro q hq _
    by_cases hqp : q = p
    · subst hqp
      exact absurd hq.symm hne
    · rwa [NetNode.onPeer_of_ne n hqp]
  | fetchSync => exact (sameIds_fetchSyncItems n).keptEmpty i
  | receive p b hb => exact (sameIds_receive n p b).keptEmpty i
  | lose p id => exact keptEmpty_onPeer i p fun _ hc => hc
  | retire p => exact keptEmpty_reset i p (fun q hq => retire_of_ne hq) (by rw [retire_self]; rfl)
  | terminate p =>
    exact keptEmpty_reset i p (fun q hq => terminate_of_ne hq) (by rw [terminate_self]; rfl)
  | store received newReceived hsub => exact keptEmpty_of_peers i rfl
  | request p item hidle => exact keptEmpty_onPeer i p fun _ hc => hc
  | enqueue item => exact keptEmpty_of_peers i rfl
  | dequeue l hl => exact keptEmpty_of_peers i rfl
  | activate p => exact keptEmpty_of_peers i rfl
  | close p => exact keptEmpty_of_peers i rfl
  | force p => exact keptEmpty_of_peers i rfl
  | leave p => exact keptEmpty_of_peers i rfl
  | connect inbound nodeId fork hnew =>
    refine keptEmpty_reset i n.nextPeer (fun q hq => connect_of_ne hq inbound nodeId fork) ?_
    rw [connect_self]
    rfl
  | reorder hreorder =>
    refine keptEmpty_of_peers i ?_
    rw [hreorder.rest]

/-- The contract between the tasks of the node. -/
def contract : Contract TaskName NetNode :=
  .making Orderly Change KeptEmpty (fun _ _ _ _ h => h)
    (fun _ _ _ _ h h' p hp hempty => h' p hp (h p hp hempty)) fun _ _ _ _ hne h => h.keptEmpty hne

/-- The terms for a task that makes the changes of its list. -/
abbrev terms (i : TaskName) : Terms NetNode := contract.terms i

/-- A connection that keeps its ids and its requests is relieved of nothing. -/
theorem Relieved.of_requested {c d : PeerConnection} (h : d.idsOfItemsToGet = c.idsOfItemsToGet)
    (hstarted : d.startedIds = c.startedIds)
    (hsync : d.syncItemsRequestedFromPeer = c.syncItemsRequestedFromPeer)
    (hitems : d.itemsRequestedFromPeer = c.itemsRequestedFromPeer) : Relieved c d :=
  ⟨h, hstarted, hsync, hitems ▸ List.Sublist.refl _⟩

/-- A change of one connection that only relieves it is a change of the node. -/
theorem changes_peer (p : PeerId) {f : PeerConnection → PeerConnection}
    (h : ∀ c, Relieved c (f c)) : Changes i n (n.onPeer p f) := .single (.peer p f h)

/-- A change beside the core of the node is a change of the node. -/
theorem changes_aside (h : SameCore n m) : Changes i n m := .single (.aside h)

/-- A loop whose rounds are changes makes a sequence of changes. -/
theorem changes_foldl {β : Type} {f : NetNode → β → NetNode} (h : ∀ n x, Changes i n (f n x))
    (l : List β) : Changes i n (l.foldl f n) := by
  induction l generalizing n with
  | nil => exact .refl
  | cons x rest ih => exact (h n x).trans ih

/-- A section that makes changes of an orderly node is steady. -/
theorem steady_orderly {f : NetNode → NetNode} (h : ∀ n, Orderly n → Changes i n (f n)) :
    (Task.change f : NetTask Unit).Steady (terms i) :=
  Task.Steady.change fun n hn => ⟨(h n hn).orderly hn, h n hn⟩

/-- A section that makes changes is steady. -/
theorem steady_change {f : NetNode → NetNode} (h : ∀ n, Changes i n (f n)) :
    (Task.change f : NetTask Unit).Steady (terms i) :=
  steady_orderly fun n _ => h n

/-- A section that only relieves a connection is steady. -/
theorem steady_onPeer (p : PeerId) {f : PeerConnection → PeerConnection}
    (h : ∀ c, Relieved c (f c)) : (onPeer p f).Steady (terms i) :=
  steady_change fun _ => changes_peer p h

/-- A question to the client is steady. -/
theorem steady_call (q : Query) : (call q).Steady (terms i) :=
  Task.Steady.bind (.question q) fun r => .ofExcept r

/-- A message that is sent is a change beside the core. -/
theorem changes_send (p : PeerId) (message : Message) : Changes i n (n.send p message) := by
  have hpeer : Changes i n (n.onPeer p fun c => { c with lastMessageSentTime := n.now }) :=
    changes_peer p fun _ => .of_requested rfl rfl rfl rfl
  exact hpeer.trans (changes_aside (by constructor <;> rfl))

/-- A change of a connection, and then a message to it. -/
theorem changes_onPeer_send (p : PeerId) {f : PeerConnection → PeerConnection}
    (h : ∀ c, Relieved c (f c)) (message : Message) :
    Changes i n ((n.onPeer p f).send p message) :=
  (changes_peer p h).trans (changes_send p message)

/-- The number of ids left is a change beside the core. -/
theorem changes_total (total : ℕ) :
    Changes i n { n with totalNumberOfUnfetchedItems := total } :=
  changes_aside (by constructor <;> rfl)

/-- An accepted block is recorded beside the core. -/
theorem changes_pushAccepted (id : ItemHash) : Changes i n (n.pushAccepted id) := by
  refine changes_aside ?_
  unfold NetNode.pushAccepted
  constructor <;> rfl

end Changes

section Requests

variable {env : NetEnv} {i : TaskName} {n : NetNode}

/-- Closing a connection is a change. -/
theorem changes_closeConnection (p : PeerId) : Changes i n (closeConnection env p n) := by
  refine changes_peer p fun c => ?_
  split
  · exact .of_requested rfl rfl rfl rfl
  · exact .of_requested rfl rfl rfl rfl

/-- The start of a disconnection makes changes. -/
theorem changes_startDisconnecting (p : PeerId) (reason : String) (dueToError : Bool) :
    Changes i n (startDisconnecting env p reason dueToError n) := by
  have hclose : Changes i n (n.movePeerToClosingList p) := .single (.close p)
  unfold startDisconnecting
  split
  · exact hclose.trans (changes_closeConnection p)
  · refine hclose.trans (changes_onPeer_send p (fun _ => ?_) _)
    exact .of_requested rfl rfl rfl rfl

/-- `disconnect_from_peer` is steady. -/
theorem disconnectFromPeer_steady (p : PeerId) (reason : String) (dueToError : Bool) :
    (disconnectFromPeer env p reason dueToError).Steady (terms i) :=
  .bind (steady_change fun _ => changes_startDisconnecting p reason dueToError) fun _ =>
    .whenever (steady_call _)

/-- The request for the next ids is steady. -/
theorem requestNextBatch_steady (p : PeerId) : (requestNextBatch p).Steady (terms i) := by
  refine .bind ?_ fun synopsis => steady_change fun n => ?_
  · exact .bind (.read _) fun _ => .bind (steady_call _) fun _ => .ofExcept _
  · refine changes_onPeer_send p (fun _ => ?_) _
    exact .of_requested rfl rfl rfl rfl

/-- `fetch_next_batch_of_item_ids_from_peer` is steady. -/
theorem fetchNextBatchOfItemIdsFromPeer_steady (p : PeerId) :
    (fetchNextBatchOfItemIdsFromPeer env p).Steady (terms i) := by
  refine .bind (requestNextBatch_steady p).attempt fun r => ?_
  cases r with
  | ok u => exact .done ()
  | error e => exact .ite (disconnectFromPeer_steady p _ _) (.fail e)

/-- `start_synchronizing_with_peer` is steady. -/
theorem startSynchronizingWithPeer_steady (p : PeerId) :
    (startSynchronizingWithPeer env p).Steady (terms i) := by
  refine .bind (steady_change fun n => .single (.restart p)) fun _ => ?_
  refine .bind (steady_call _) fun time => ?_
  refine .bind (steady_onPeer p fun _ => .of_requested rfl rfl rfl rfl) fun _ => ?_
  exact fetchNextBatchOfItemIdsFromPeer_steady p

/-- The report of the number of connections is steady. -/
theorem reportConnections_steady : reportConnections.Steady (terms i) := by
  refine .bind (.read _) fun n => .whenever ?_
  refine .bind (steady_change fun n => changes_aside ?_) fun _ => steady_call _
  constructor <;> rfl

/-- `new_peer_just_added` is steady. -/
theorem newPeerJustAdded_steady (p : PeerId) : (newPeerJustAdded env p).Steady (terms i) := by
  refine .bind (steady_change fun n => changes_send p _) fun _ => ?_
  exact .bind (startSynchronizingWithPeer_steady p) fun _ => reportConnections_steady

/-- A peer that becomes active is a steady task. -/
theorem joinActive_steady (p : PeerId) : (joinActive env p).Steady (terms i) :=
  .bind (steady_change fun _ => .single (.activate p)) fun _ => newPeerJustAdded_steady p

end Requests

section Blocks

variable {env : NetEnv} {i : TaskName} {n : NetNode}

/-- What the node notes of an accepted sync block is a change. -/
theorem changes_acceptedBlock (m : BlockMessage) (peers : List PeerId) (todo : FollowUp) :
    Changes i n (acceptedBlock m peers (n, todo)).1 := by
  induction peers generalizing n todo with
  | nil => exact .refl
  | cons p rest ih =>
    unfold acceptedBlock
    dsimp only
    split
    · exact ih _
    · split
      · split
        · exact ih _
        · exact ih _
      · split
        · have hpeer : Changes i n (n.onPeer p fun c => finishItem m.blockId
              { c with
                lastBlockDelegateHasSeen := m.blockId
                lastBlockTimeDelegateHasSeen := m.block.header.timestamp }) :=
            changes_peer p fun _ => .of_requested rfl rfl rfl rfl
          exact hpeer.trans (ih _)
        · exact ih _

/-- What the node notes of a refused sync block is a change. -/
theorem changes_rejectedBlock (m : BlockMessage) (discontinue : Bool) (peers : List PeerId)
    (todo : FollowUp) : Changes i n (rejectedBlock m discontinue peers (n, todo)).1 := by
  induction peers generalizing n todo with
  | nil => exact .refl
  | cons p rest ih =>
    unfold rejectedBlock
    split
    · split
      · refine Relation.ReflTransGen.trans (changes_peer p fun _ => ?_) (ih _)
        exact .of_requested rfl rfl rfl rfl
      · exact ih _
    · exact ih _

/-- What the answer of the client to a sync block leads to is a change. -/
theorem changes_concludeBlock (m : BlockMessage) (answer : Except NetExc (List ItemHash)) :
    Changes i n (concludeBlock m answer n).1 := by
  unfold concludeBlock
  cases answer with
  | ok ids =>
    refine Relation.ReflTransGen.trans ?_ (changes_acceptedBlock m n.activeConnections _)
    exact (changes_pushAccepted m.blockId).trans (changes_total _)
  | error e => exact changes_rejectedBlock m _ n.activeConnections _

/-- `send_sync_block_to_node_delegate` is steady. -/
theorem sendSyncBlockToNodeDelegate_steady (m : BlockMessage) :
    (sendSyncBlockToNodeDelegate env m).Steady (terms i) := by
  refine .bind (steady_call _).attempt fun answer => ?_
  refine .bind (.read _) fun todo => ?_
  refine .bind (steady_change fun n => changes_concludeBlock m answer) fun _ => ?_
  refine .bind (.each fun item _ => disconnectFromPeer_steady item.1 item.2 true) fun _ => ?_
  refine .bind (.each fun p _ => fetchNextBatchOfItemIdsFromPeer_steady p) fun _ => ?_
  exact .each fun p _ => startSynchronizingWithPeer_steady p

/-- The peers of the loop are different, so that each has the block first when its turn comes. -/
theorem changes_startItems (id : ItemHash) {peers : List PeerId} (hnodup : peers.Nodup)
    (hfirst : ∀ p ∈ peers, isFirstFor n id p = true) :
    Changes i n (peers.foldl (fun n p => n.onPeer p (startItem id)) n) := by
  induction peers generalizing n with
  | nil => exact .refl
  | cons p rest ih =>
    obtain ⟨hp, hrest⟩ := List.nodup_cons.mp hnodup
    have hstart : Change i n (n.onPeer p (startItem id)) :=
      .start p id (hfirst p List.mem_cons_self)
    refine Relation.ReflTransGen.head hstart (ih hrest fun q hq => ?_)
    have hne : q ≠ p := fun h => hp (h ▸ hq)
    have hq' := hfirst q (List.mem_cons_of_mem _ hq)
    unfold isFirstFor at hq' ⊢
    rwa [NetNode.onPeer_of_ne n hne]

/-- A block that is handed over leaves the lists of ids. -/
theorem changes_startBlock (id : ItemHash) (hn : Orderly n) : Changes i n (startBlock id n) :=
  changes_startItems id (hn.active.filter _) fun _ hp => (List.mem_filter.mp hp).2

/-- An accepted block that comes again is dropped by a change. -/
theorem changes_dropAccepted (id : ItemHash) : Changes i n (dropAccepted id n).1 := by
  refine changes_foldl (fun n p => changes_peer p fun _ => ?_) _
  exact .of_requested rfl rfl rfl rfl

/-- The received blocks of a round: the new ones join the others. -/
theorem changes_join : Changes i n { n with
    receivedSyncItems := n.newReceivedSyncItems.reverse ++ n.receivedSyncItems
    newReceivedSyncItems := [] } := by
  refine .single (.store _ _ fun b hb => ?_)
  simp only [receivedBlocks, List.mem_append, List.mem_reverse, List.not_mem_nil, or_false]
    at hb ⊢
  exact hb.symm

/-- A scheduled call takes its block from the received ones. -/
theorem changes_scheduleCall (m : BlockMessage) : Changes i n { n with
    receivedSyncItems := n.receivedSyncItems.erase m
    handleMessageCallsInProgress := n.handleMessageCallsInProgress ++
      [⟨n.nextCall, m, .scheduled⟩]
    nextCall := n.nextCall + 1 } := by
  have hstore : Changes i n { n with
      receivedSyncItems := n.receivedSyncItems.erase m
      newReceivedSyncItems := n.newReceivedSyncItems } := by
    refine .single (.store _ _ fun b hb => ?_)
    rcases List.mem_append.mp hb with hb | hb
    · exact List.mem_append_left _ (List.mem_of_mem_erase hb)
    · exact List.mem_append_right _ hb
  exact hstore.trans (changes_aside (by constructor <;> rfl))

/-- A round over the backlog makes changes. -/
theorem changes_backlogRound (hn : Orderly n) : Changes i n (backlogRound n).1 := by
  unfold backlogRound
  dsimp only
  split
  · exact changes_join
  · next m hm =>
    have hjoined := changes_join (i := i) (n := n)
    have hstarted := hjoined.trans (changes_startBlock m.blockId (hjoined.orderly hn))
    split
    · exact hstarted.trans (changes_dropAccepted m.blockId)
    · exact hstarted.trans (changes_scheduleCall m)

/-- The loop over the backlog makes changes. -/
theorem changes_handOver (rounds : ℕ) (hn : Orderly n) : Changes i n (handOver rounds n).1 := by
  induction rounds generalizing n with
  | zero => exact .refl
  | succ rounds ih =>
    have hround := changes_backlogRound (i := i) hn
    unfold handOver
    dsimp only
    split
    · split
      · exact hround
      · exact hround.trans (ih (hround.orderly hn))
    · exact hround

/-- The start of the processing of the backlog makes changes. -/
theorem changes_startBacklog (hn : Orderly n) : Changes i n (startBacklog n).1 := by
  have hcollect : Changes i n (collectCalls n) := changes_aside (by constructor <;> rfl)
  unfold startBacklog
  dsimp only
  split
  · exact hcollect
  · have hresume : Changes i n { collectCalls n with suspendFetchingSyncBlocks := false } :=
      hcollect.trans (changes_aside (by constructor <;> rfl))
    exact hresume.trans (changes_handOver _ (hresume.orderly hn))

/-- At the limit of unprocessed blocks the node makes a change beside the core. -/
theorem changes_suspendAtLimit : Changes i n (suspendAtLimit n) := by
  unfold suspendAtLimit
  split
  · exact changes_aside (by constructor <;> rfl)
  · exact .refl

/-- Asking for the next ids after a round is steady. -/
theorem askForNext_steady (round : Round) : (askForNext env round).Steady (terms i) := by
  cases round with
  | nothing => exact .done ()
  | handed => exact .done ()
  | accepted peers => exact .each fun p _ => fetchNextBatchOfItemIdsFromPeer_steady p

/-- `process_backlog_of_sync_blocks` is steady. -/
theorem processBacklogOfSyncBlocks_steady : (processBacklogOfSyncBlocks env).Steady (terms i) := by
  refine .bind (.read _) fun waits => .bind (.read _) fun round => ?_
  refine .bind (steady_orderly fun n hn => changes_startBacklog hn) fun _ => ?_
  refine .whenever (.bind (askForNext_steady round) fun _ => ?_)
  exact steady_change fun n => changes_suspendAtLimit

end Blocks

section Items

variable {env : NetEnv} {i : TaskName} {n : NetNode}

/-- An item that is to be fetched is a change. -/
theorem changes_addToFetch (item : ItemId) : Changes i n (addToFetch item n) :=
  .single (.enqueue item)

/-- An item that has come leaves the requests of its peer. -/
theorem changes_takeRequested (p : PeerId) (item : ItemId) :
    Changes i n (n.onPeer p (takeRequested item)) :=
  changes_peer p fun _ => ⟨rfl, rfl, rfl, List.filter_sublist⟩

/-- Forgetting old inventory relieves a connection of nothing else. -/
theorem changes_clearOldInventory (p : PeerId) (now : TimePoint) :
    Changes i n (n.onPeer p (PeerConnection.clearOldInventory now)) :=
  changes_peer p fun _ => .of_requested rfl rfl rfl rfl

/-- An item that the node wants is a change. -/
theorem changes_wantItem (item : ItemId) : Changes i n (wantItem item n) := by
  unfold wantItem
  split
  · exact .refl
  · split
    · refine .single (.dequeue _ ?_)
      have hranks : (n.itemsToFetch.map fun e =>
          if e.item = item then { e with timestamp := n.now } else e).map rank =
            n.itemsToFetch.map rank := by
        rw [List.map_map]
        refine List.map_congr_left fun e _ => ?_
        dsimp only [Function.comp_apply]
        split <;> rfl
      rw [hranks]
    · exact changes_addToFetch item

/-- Considering what a peer advertises makes changes. -/
theorem changes_considerInventory (p : PeerId) (itemType : ℕ) (hashes : List ItemHash) :
    Changes i n (considerInventory p itemType hashes n) := by
  induction hashes generalizing n with
  | nil => exact .refl
  | cons hash rest ih =>
    unfold considerInventory
    dsimp only
    split
    · exact ih
    · split
      · exact .refl
      · have hlisted : Changes i n (n.onPeer p fun c =>
            { c with
              inventoryPeerAdvertisedToUs :=
                c.inventoryPeerAdvertisedToUs.insert ⟨itemType, hash⟩ (toSec n.now) }) :=
          changes_peer p fun _ => .of_requested rfl rfl rfl rfl
        split
        · exact hlisted.trans ih
        · exact (hlisted.trans (changes_wantItem _)).trans ih

/-- `on_item_ids_inventory_message` makes changes. -/
theorem changes_onItemIdsInventory (p : PeerId) (itemType : ℕ) (hashes : List ItemHash) :
    Changes i n (onItemIdsInventory p itemType hashes n) :=
  (changes_clearOldInventory p n.now).trans (changes_considerInventory p itemType hashes)

/-- The answer that an item is not available makes changes. -/
theorem changes_itemNotAvailable (p : PeerId) (item : ItemId) :
    Changes i n (itemNotAvailable p item n) := by
  unfold itemNotAvailable
  dsimp only
  split
  · have hdropped : Changes i n (n.onPeer p fun c =>
        { c with
          itemsRequestedFromPeer := c.itemsRequestedFromPeer.filter fun e => e.1 ≠ item
          inventoryPeerAdvertisedToUs := c.inventoryPeerAdvertisedToUs.remove item }) :=
      changes_peer p fun _ => ⟨rfl, rfl, rfl, List.filter_sublist⟩
    split
    · exact hdropped.trans (changes_addToFetch item)
    · exact hdropped
  · split
    · have hinhibit : Changes i (loseItem p item.itemHash n) ((loseItem p item.itemHash n).onPeer p
          fun c => { c with
            inhibitFetchingSyncBlocks :=
              if c.peerNeedsSyncItemsFromUs then true else c.inhibitFetchingSyncBlocks }) :=
        changes_peer p fun _ => .of_requested rfl rfl rfl rfl
      have hlost : Changes i n (loseItem p item.itemHash n) := .single (.lose p item.itemHash)
      have hboth := hlost.trans hinhibit
      unfold loseItem NetNode.onPeer at hboth
      unfold NetNode.onPeer
      simpa only [Function.update_self, Function.update_idem] using hboth
    · exact .refl

/-- `on_item_not_available_message` is steady. -/
theorem onItemNotAvailable_steady (p : PeerId) (item : ItemId) :
    (onItemNotAvailable env p item).Steady (terms i) := by
  refine .bind (.read _) fun lacks => ?_
  refine .bind (steady_change fun n => changes_itemNotAvailable p item) fun _ => ?_
  exact .whenever (disconnectFromPeer_steady p _ _)

/-- A message that is announced is a change beside the core. -/
theorem changes_announce (cache : BlockchainTiedMessageCache Message MessagePropagationData)
    (inventory : List ItemId) :
    Changes i n { n with messageCache := cache, newInventory := inventory } :=
  changes_aside (by constructor <;> rfl)

/-- `broadcast` makes a change beside the core. -/
theorem changes_broadcast (m : Message) (data : MessagePropagationData) :
    Changes i n (broadcast env m data n) := by
  unfold broadcast
  cases m with
  | block b => exact (changes_pushAccepted b.blockId).trans (changes_announce _ _)
  | _ => exact changes_announce _ _

/-- Handing an ordinary message to the client is steady. -/
theorem handOrdinary_steady (m : Message) : (handOrdinary m).Steady (terms i) := by
  cases m with
  | trx trx => exact steady_call _
  | _ => exact steady_call _

/-- `process_ordinary_message` is steady. -/
theorem processOrdinaryMessage_steady (p : PeerId) (m : Message) :
    (processOrdinaryMessage env p m).Steady (terms i) := by
  refine .bind (.read _) fun n => .ite ?_ (disconnectFromPeer_steady p _ _)
  refine .bind (steady_change fun n => changes_takeRequested p _) fun _ => ?_
  refine .bind (handOrdinary_steady m).attempt fun r => ?_
  cases r with
  | ok u => exact steady_change fun t => changes_broadcast m _
  | error e => exact steady_change fun t => changes_aside (by constructor <;> rfl)

/-- The messages in process are noted beside the core. -/
theorem changes_processing (hashes : Finset ItemHash) :
    Changes i n { n with messageIdsCurrentlyBeingProcessed := hashes } :=
  changes_aside (by constructor <;> rfl)

/-- Items may be taken from the list of those to fetch. -/
theorem changes_dequeue {l : List PrioritizedItemId} (h : l.Sublist n.itemsToFetch) :
    Changes i n { n with itemsToFetch := l } :=
  .single (.dequeue l (h.map rank))

/-- An accepted block of normal operation makes changes. -/
theorem changes_acceptBlock (hash : ItemHash) (m : BlockMessage) (transactions : List ItemHash) :
    Changes i n (acceptBlock hash m transactions n) := by
  have hrest : ∀ (k : NetNode) (hashes : Finset ItemHash) (l : List PrioritizedItemId),
      l.Sublist k.itemsToFetch →
        Changes i k { k with messageIdsCurrentlyBeingProcessed := hashes, itemsToFetch := l } := by
    intro k hashes l hl
    have hprocessing : Changes i k { k with messageIdsCurrentlyBeingProcessed := hashes } :=
      changes_processing hashes
    refine hprocessing.trans (changes_dequeue ?_)
    exact hl
  exact (changes_pushAccepted m.blockId).trans (hrest _ _ _ List.filter_sublist)

/-- The peers that have offered a block are noted by changes. -/
theorem changes_noteOffers (item : ItemId) (m : BlockMessage) :
    Changes i n (noteOffers item m n) := by
  refine changes_foldl (fun n p => changes_peer p fun c => ?_) _
  split
  · exact .of_requested rfl rfl rfl rfl
  · exact .of_requested rfl rfl rfl rfl

/-- An accepted block is announced by changes. -/
theorem changes_announceBlock (p : PeerId) (hash : ItemHash) (m : BlockMessage)
    (received validated : TimePoint) :
    Changes i n (announceBlock env p hash m received validated n) :=
  ((changes_noteOffers ⟨blockMessageType, hash⟩ m).trans (changes_broadcast (.block m) _)).trans
    (changes_announce _ _)

/-- The validation of a block by the client is steady. -/
theorem validateBlock_steady (hash : ItemHash) (m : BlockMessage) :
    (validateBlock hash m).Steady (terms i) := by
  refine .bind (.read _) fun n => .ite (.done 0) ?_
  refine .bind (steady_change fun n => changes_processing _) fun _ => ?_
  refine .bind (steady_call _) fun transactions => .bind (.read _) fun time => ?_
  exact .bind (steady_change fun n => changes_acceptBlock hash m transactions) fun _ => .done time

/-- `process_block_during_normal_operation` is steady. -/
theorem processBlockDuringNormalOperation_steady (p : PeerId) (m : BlockMessage)
    (hash : ItemHash) : (processBlockDuringNormalOperation env p m hash).Steady (terms i) := by
  refine .bind (.read _) fun received => .bind (validateBlock_steady hash m).attempt fun r => ?_
  cases r with
  | ok validated =>
    refine .bind (steady_change fun n => changes_announceBlock p hash m received validated)
      fun _ => .bind (.read _) fun old => ?_
    exact .each fun q _ => disconnectFromPeer_steady q _ _
  | error e =>
    refine .ite (startSynchronizingWithPeer_steady p) (.bind (.read _) fun offerers => ?_)
    exact .each fun q _ => disconnectFromPeer_steady q _ _

/-- What follows the arrival of a sync block is steady. -/
theorem afterSyncBlock_steady (p : PeerId) : (afterSyncBlock env p).Steady (terms i) :=
  .bind (.read _) fun _ => .whenever (fetchNextBatchOfItemIdsFromPeer_steady p)

/-- The block is taken in the section in which it was found to be requested. -/
theorem processBlockMessage_steady (p : PeerId) (m : BlockMessage) :
    (processBlockMessage env p m).Steady (terms i) := by
  refine Task.Steady.read_bind fun b s hs hguar => ?_
  dsimp only [id]
  by_cases hitem : (s.peers p).hasRequested ⟨blockMessageType, env.messageId (.block m)⟩ = true
  · rw [if_pos hitem]
    refine (Task.Steady.bind (steady_change fun n => changes_takeRequested p _)
      fun _ => ?_).meets b s hs hguar
    exact processBlockDuringNormalOperation_steady p m _
  · rw [if_neg hitem]
    by_cases hsync : m.blockId ∈ (s.peers p).syncItemsRequestedFromPeer
    · rw [if_pos hsync]
      have hstep : Change i s (receiveSyncBlock p m s) := .receive p m hsync
      refine (Task.Steady.bind (afterSyncBlock_steady p).attempt fun r => ?_).meets b
        (receiveSyncBlock p m s) (hstep.orderly hs) (hguar.tail hstep)
      cases r with
      | ok u => exact .done ()
      | error e => exact disconnectFromPeer_steady p _ _
    · rw [if_neg hsync]
      exact (disconnectFromPeer_steady p _ _).meets b s hs hguar

end Items

section Loops

variable {env : NetEnv} {i : TaskName} {n : NetNode}

/-- A peer that gets an item keeps those that it has, and the others keep theirs. -/
theorem giveItem_spec {p : PeerId} (item : ItemId) {byPeer : List (PeerId × List ItemId)}
    (hp : p ∈ byPeer.map Prod.fst) : ∃ before items later,
      byPeer = before ++ (p, items) :: later ∧
        (giveItem p item byPeer).Perm ((p, items ++ [item]) :: (before ++ later)) := by
  have hsplit := List.takeWhile_append_dropWhile (p := fun entry => decide (entry.1 ≠ p))
    (l := byPeer)
  unfold giveItem
  cases hdrop : byPeer.dropWhile fun entry => decide (entry.1 ≠ p) with
  | nil =>
    obtain ⟨entry, hentry, rfl⟩ := List.mem_map.mp hp
    have hne := List.dropWhile_eq_nil_iff.mp hdrop entry hentry
    simp at hne
  | cons entry later =>
    obtain ⟨q, items⟩ := entry
    have hne : byPeer.dropWhile (fun entry => decide (entry.1 ≠ p)) ≠ [] := by
      rw [hdrop]
      exact List.cons_ne_nil _ _
    have hhead : (byPeer.dropWhile fun entry => decide (entry.1 ≠ p)).head hne = (q, items) := by
      simp only [hdrop, List.head_cons]
    have hq := List.head_dropWhile_not (fun entry : PeerId × List ItemId =>
      decide (entry.1 ≠ p)) hne
    rw [hhead] at hq
    obtain rfl : q = p := by simpa using hq
    refine ⟨byPeer.takeWhile fun entry => decide (entry.1 ≠ q), items, later, ?_, ?_⟩
    · rw [← hdrop, hsplit]
    · dsimp only
      split
      · exact List.perm_middle
      · refine List.perm_middle.trans (List.Perm.cons _ ?_)
        rw [List.takeWhile_append_dropWhile]

/-- In a round of the loop every peer stands once, and a peer without an item is idle. -/
structure Planned (r : FetchRound) : Prop where
  once : (r.itemsByPeer.map Prod.fst).Nodup
  idle : ∀ entry ∈ r.itemsByPeer, entry.2.length < maxItemsPerPeer →
    (r.node.peers entry.1).idle = true

/-- An item that is given to a peer keeps the plan. -/
theorem Planned.give {r : FetchRound} (h : Planned r) {p : PeerId} (item : ItemId)
    (hp : p ∈ r.itemsByPeer.map Prod.fst) (f : PeerConnection → PeerConnection) :
    Planned { r with
      node := r.node.onPeer p f
      itemsByPeer := giveItem p item r.itemsByPeer } := by
  obtain ⟨before, items, later, hl, hperm⟩ := giveItem_spec item hp
  have honce : p ∉ (before ++ later).map Prod.fst ∧ ((before ++ later).map Prod.fst).Nodup := by
    have hnodup := h.once
    rw [hl] at hnodup
    have hmiddle : ((before ++ (p, items) :: later).map Prod.fst).Perm
        (p :: (before ++ later).map Prod.fst) := List.perm_middle.map Prod.fst
    exact List.nodup_cons.mp (hmiddle.nodup_iff.mp hnodup)
  constructor
  · exact (hperm.map Prod.fst).nodup_iff.mpr (List.nodup_cons.mpr honce)
  · intro entry hentry hfew
    rcases List.mem_cons.mp (hperm.mem_iff.mp hentry) with rfl | hrest
    · simp [maxItemsPerPeer] at hfew
    · have hne : entry.1 ≠ p := fun heq => honce.1 (heq ▸ List.mem_map_of_mem hrest)
      have hold : entry ∈ r.itemsByPeer := by
        rw [hl]
        exact List.perm_middle.mem_iff.mpr (List.mem_cons_of_mem _ hrest)
      change ((r.node.onPeer p f).peers entry.1).idle = true
      rw [NetNode.onPeer_of_ne r.node hne]
      exact h.idle entry hold hfew

/-- One item in a round: it is stale, or a peer is asked for it, or it is kept. -/
theorem consider_cases (r : FetchRound) (e : PrioritizedItemId) :
    r.consider e = r ∨
      (∃ entry, r.itemsByPeer.find? (mayFetch r.node e.item) = some entry ∧
        r.consider e = { r with
          node := r.node.onPeer entry.1 (requestItem e.item r.node.now)
          itemsByPeer := giveItem entry.1 e.item r.itemsByPeer }) ∨
      r.consider e = { r with kept := r.kept ++ [e] } := by
  unfold FetchRound.consider
  by_cases hstale : e.timestamp < oldestTimestampToFetch r.node
  · rw [if_pos hstale]
    exact .inl rfl
  · rw [if_neg hstale]
    cases hfound : r.itemsByPeer.find? (mayFetch r.node e.item) with
    | some entry => exact .inr (.inl ⟨entry, rfl, rfl⟩)
    | none => exact .inr (.inr rfl)

/-- A round over one item keeps the plan and makes changes. -/
theorem Planned.consider {r : FetchRound} (h : Planned r) (e : PrioritizedItemId) :
    Planned (r.consider e) ∧ Changes i r.node (r.consider e).node := by
  rcases consider_cases r e with hr | ⟨entry, hfound, hr⟩ | hr
  · rw [hr]
    exact ⟨h, .refl⟩
  · have hmem := List.mem_of_find?_eq_some hfound
    have hmay := List.find?_some hfound
    simp only [mayFetch, Bool.and_eq_true, decide_eq_true_eq] at hmay
    rw [hr]
    refine ⟨h.give e.item (List.mem_map_of_mem hmem) _, .single (.request entry.1 e.item ?_)⟩
    exact h.idle entry hmem hmay.1.1
  · rw [hr]
    exact ⟨⟨h.once, h.idle⟩, .refl⟩

/-- The items that a round keeps are among those that it has considered, in the same order. -/
theorem kept_sublist (r : FetchRound) (l : List PrioritizedItemId) :
    (l.foldl FetchRound.consider r).kept.Sublist (r.kept ++ l) := by
  induction l generalizing r with
  | nil => simp
  | cons e rest ih =>
    have hhere : (r.consider e).kept.Sublist (r.kept ++ [e]) := by
      rcases consider_cases r e with hr | ⟨entry, -, hr⟩ | hr
      · rw [hr]
        exact List.sublist_append_left _ _
      · rw [hr]
        exact List.sublist_append_left _ _
      · rw [hr]
    have hrest := (ih (r.consider e)).trans (hhere.append_right rest)
    rwa [List.append_assoc, List.singleton_append] at hrest

/-- The loop over the items makes changes. -/
theorem Planned.round {r : FetchRound} (h : Planned r) (l : List PrioritizedItemId) :
    Changes i r.node (l.foldl FetchRound.consider r).node := by
  induction l generalizing r with
  | nil => exact .refl
  | cons e rest ih =>
    obtain ⟨hnext, hchange⟩ := h.consider (i := i) e
    exact hchange.trans (ih hnext)

/-- The loop over the items leaves the list of items alone. -/
theorem itemsToFetch_round (r : FetchRound) (l : List PrioritizedItemId) :
    (l.foldl FetchRound.consider r).node.itemsToFetch = r.node.itemsToFetch := by
  induction l generalizing r with
  | nil => rfl
  | cons e rest ih =>
    have hhere : (r.consider e).node.itemsToFetch = r.node.itemsToFetch := by
      rcases consider_cases r e with hr | ⟨entry, -, hr⟩ | hr
      · rw [hr]
      · rw [hr]
        rfl
      · rw [hr]
    exact (ih (r.consider e)).trans hhere

/-- A round of the loop that fetches items makes changes. -/
theorem changes_fetchItems (hn : Orderly n) : Changes i n (fetchItems n) := by
  have hplanned : Planned ⟨n, (n.activeConnections.filter fun p => (n.peers p).idle).map
      fun p => (p, []), []⟩ := by
    constructor
    · rw [List.map_map]
      exact (hn.active.filter _).map fun _ _ h => h
    · intro entry hentry _
      obtain ⟨p, hp, rfl⟩ := List.mem_map.mp hentry
      exact (List.mem_filter.mp hp).2
  have hround : Changes i n (planFetches n).node := hplanned.round n.itemsToFetch
  have hkept : (planFetches n).kept.Sublist (planFetches n).node.itemsToFetch := by
    have hitems : (planFetches n).node.itemsToFetch = n.itemsToFetch :=
      itemsToFetch_round _ n.itemsToFetch
    rw [hitems]
    exact kept_sublist _ n.itemsToFetch
  refine (hround.trans (changes_dequeue hkept)).trans ?_
  refine changes_foldl (fun n entry => ?_) _
  exact changes_foldl (fun n group => changes_send _ _) _

/-- Advertising to one peer makes changes. -/
theorem changes_advertiseTo (inventory : List ItemId) (p : PeerId) :
    Changes i n (advertiseTo inventory n p) := by
  unfold advertiseTo
  refine Relation.ReflTransGen.trans (changes_peer p fun c => ?_)
    (changes_foldl (fun n group => changes_send p _) _)
  exact .of_requested rfl rfl rfl rfl

/-- A round of the loop that advertises items makes changes. -/
theorem changes_advertiseInventory : Changes i n (advertiseInventory n) := by
  have hempty : Changes i n { n with newInventory := [] } := changes_announce n.messageCache []
  exact hempty.trans (changes_foldl (fun n p => changes_advertiseTo _ p) _)

/-- Forgetting failed items is a change beside the core. -/
theorem changes_pruneFailedItems : Changes i n (pruneFailedItems n) :=
  changes_aside (by constructor <;> rfl)

end Loops

end Whaleshares.NetworkSteps
