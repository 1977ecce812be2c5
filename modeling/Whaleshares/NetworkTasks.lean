import Whaleshares.InventoryTasks

/-!
# The tasks of the peer-to-peer node

The handlers of the messages of a peer, the closing of connections and the loops of `node_impl`
in `net/node.cpp`, and the system of all tasks: a task for each connection that reads its
messages, the backlog of sync blocks, the calls that hand blocks to the client, the loops, and
the client and the world outside. Every message may come at any time from any connection.

The exchange of hello messages is left out: a connection that handshakes may complete its
handshake at any time. The connection object of a peer that is deleted becomes a new one.
-/

namespace Whaleshares.NetworkTasks

open Config Fc Protocol MessageCache Peers Cooperation SyncTasks InventoryTasks

variable (env : NetEnv)

section ItemIds

/-- Whether the ids of a list have consecutive block numbers, after the first one. -/
def isSequential (ids : List ItemHash) : Bool :=
  match ids with
  | [] => true
  | first :: _ => ids.zipIdx.all fun entry => entry.1.num = (first.num + entry.2) % 2 ^ 32 ||
      entry.2 = 0

/-- Whether a list of ids answers a request with this synopsis. -/
def isValidResponse (synopsis ids : List ItemHash) : Bool :=
  match ids with
  | [] => true
  | first :: _ => isSequential ids &&
      if synopsis = [] then decide (first.num = 1) else decide (first ∈ synopsis)

/-- The reason for which a peer with an invalid answer is disconnected. -/
def invalidResponseReason : String :=
  "You gave an invalid response to my request for sync blocks"

/-- Whether the peer has no items after those that we have, as far as its answer tells. -/
def nothingNew (itemType total : ℕ) (ids : List ItemHash) : NetTask Bool :=
  if total ≠ 0 then Task.done false
  else
    match ids with
    | [] => Task.done true
    | [id] => call (.hasItem ⟨itemType, id⟩)
    | _ => Task.done false

/-- Whether the first id is the next one to get from another active peer. -/
def isFirstForOther (n : NetNode) (p : PeerId) (id : ItemHash) : Bool :=
  n.activeConnections.any fun q => decide (q ≠ p) && isFirstFor n id q

/-- The loop that flushes the items that the client has already. -/
def flushKnown (p : PeerId) (itemType : ℕ) : List ItemHash → NetTask (List ItemHash)
  | [] => Task.done []
  | id :: rest => do
    let known : Bool ← call (.hasItem ⟨itemType, id⟩)
    if known then do
      onPeer p fun c => { c with lastBlockDelegateHasSeen := id }
      let time ← call (.getBlockTime id)
      onPeer p fun c => { c with lastBlockTimeDelegateHasSeen := time }
      flushKnown p itemType rest
    else Task.done (id :: rest)

/-- The loop that pops ids off the back up to the first id of the answer. -/
def popBackTo (id : ItemHash) (c : PeerConnection) : PeerConnection :=
  { c with idsOfItemsToGet := (c.idsOfItemsToGet.reverse.dropWhile (· ≠ id)).reverse }

/-- The ids of an answer that are added to the ids of the peer. -/
def mergeIds (p : PeerId) (itemType : ℕ) (ids : List ItemHash) : NetTask (List ItemHash) := do
  let n ← Task.read id
  match ids with
  | [] => Task.done []
  | first :: rest =>
    if (n.peers p).idsOfItemsToGet = [] then
      if isFirstForOther n p first then Task.done ids else flushKnown p itemType ids
    else do
      onPeer p (popBackTo first)
      let c ← peer p
      if c.idsOfItemsToGet = [] then do
        onPeer p fun c => { c with lastBlockDelegateHasSeen := first }
        let time ← call (.getBlockTime first)
        onPeer p fun c => { c with lastBlockTimeDelegateHasSeen := time }
        Task.done rest
      else do
        onPeer p fun c => { c with idsOfItemsToGet := c.idsOfItemsToGet.dropLast }
        Task.done ids

/-- The ids of an answer are added to the ids of the peer. -/
def extendIds (received : List ItemHash) (total : ℕ) (c : PeerConnection) : PeerConnection :=
  { c with
    idsOfItemsToGet := c.idsOfItemsToGet ++ received
    startedIds := if c.idsOfItemsToGet = [] then [] else c.startedIds
    numberOfUnfetchedItemIds := total }

/-- The ids of an answer join those that the peer offers. -/
def addOffered (p : PeerId) (itemType total : ℕ) (ids : List ItemHash) : NetTask Unit := do
  let received ← mergeIds p itemType ids
  onPeer p (extendIds received total)

/-- `GRAPHENE_NET_FUTURE_SYNC_BLOCKS_GRACE_PERIOD_SEC` -/
def futureSyncBlocksGracePeriodSec : ℕ := 60 * 60

/-- Whether a peer offers more blocks than there can be. -/
def offersTooMany (n : NetNode) (p : PeerId) : Bool :=
  (toSec n.now + futureSyncBlocksGracePeriodSec) % 2 ^ 32 <
    ((n.peers p).lastBlockTimeDelegateHasSeen +
      (n.peers p).numberOfUnfetchedItemIds * wlsBlockInterval % 2 ^ 32) % 2 ^ 32

/-- The reason for which a peer that offers too many blocks is disconnected. -/
def tooManyReason : String :=
  "You offered me a list of more sync blocks than could possibly exist"

/-- The end of `on_blockchain_item_ids_inventory_message`, when the ids are in place. -/
def afterItemIds (p : PeerId) (itemType total : ℕ) : NetTask Unit := do
  let n ← Task.read id
  if offersTooMany n p then disconnectFromPeer env p tooManyReason true
  else do
    let count := n.calculateUnsyncedBlockCountFromAllPeers
    Task.whenever (count ≠ n.totalNumberOfUnfetchedItems) (call (.syncStatus itemType count))
    Task.change fun n => { n with totalNumberOfUnfetchedItems := count }
    let c ← peer p
    Task.whenever (if total ≠ 0 then c.idsOfItemsToGet.length ≤ minBlockIdsToPrefetch
      else c.idsOfItemsToGet = []) (fetchNextBatchOfItemIdsFromPeer env p)

/-- The try block of `on_blockchain_item_ids_inventory_message`. -/
def considerItemIds (p : PeerId) (itemType total : ℕ) (ids : List ItemHash) : NetTask Unit := do
  let nothing ← nothingNew itemType total ids
  let c ← peer p
  if nothing = true ∧ c.idsOfItemsToGet = [] ∧ c.numberOfUnfetchedItemIds = 0 then do
    onPeer p fun c => { c with weNeedSyncItemsFromPeer := false }
    let count ← Task.read NetNode.calculateUnsyncedBlockCountFromAllPeers
    Task.change fun n => { n with totalNumberOfUnfetchedItems := count }
    Task.whenever (count = 0) (call (.syncStatus itemType 0))
  else do
    onPeer p fun c => { c with numberOfUnfetchedItemIds := total }
    addOffered p itemType total ids
    afterItemIds env p itemType total

/-- `on_blockchain_item_ids_inventory_message` -/
def onBlockchainItemIdsInventory (p : PeerId) (itemType total : ℕ) (ids : List ItemHash) :
    NetTask Unit := do
  let c ← peer p
  match c.itemIdsRequestedFromPeer with
  | none => Task.done ()
  | some (synopsis, _) =>
    if isValidResponse synopsis ids then do
      onPeer p fun c => { c with itemIdsRequestedFromPeer := none }
      let _ ← Task.attempt (considerItemIds env p itemType total ids)
      Task.done ()
    else disconnectFromPeer env p invalidResponseReason true

end ItemIds

section Service

/-- The answer of the client to a request for ids; an unreachable fork has none. -/
def blockIdsFor (synopsis : List ItemHash) : NetTask (List ItemHash × ℕ) := do
  match ← Task.attempt (call (.getBlockIds synopsis)) with
  | .ok reply => Task.done reply
  | .error e => if e.kind = .peerIsOnAnUnreachableFork then Task.done ([], 0) else Task.fail e

/-- Whether an answer tells a peer that it has all of our items. -/
def tellsNothingNew (synopsis available : List ItemHash) : Bool :=
  match available with
  | [] => true
  | [id] => decide (id ∈ synopsis)
  | _ => false

/-- A round of synchronization with a peer whose last item we do not have. -/
def resyncIfBehind (p : PeerId) (itemType : ℕ) (synopsis : List ItemHash) : NetTask Unit := do
  let c ← peer p
  match synopsis.getLast? with
  | none => Task.done ()
  | some last =>
    if c.weNeedSyncItemsFromPeer then Task.done ()
    else do
      let known : Bool ← call (.hasItem ⟨itemType, last⟩)
      if known then Task.done () else startSynchronizingWithPeer env p

/-- A connection joins the active ones. -/
def joinActive (p : PeerId) : NetTask Unit := do
  Task.change (NetNode.movePeerToActiveList p)
  newPeerJustAdded env p

/-- `on_fetch_blockchain_item_ids_message` -/
def onFetchBlockchainItemIds (p : PeerId) (itemType : ℕ) (synopsis : List ItemHash) :
    NetTask Unit := do
  let reply ← blockIdsFor synopsis
  let c ← peer p
  let leave := tellsNothingNew synopsis reply.1 && ! reply.1.isEmpty && c.inhibitFetchingSyncBlocks
  onPeer p fun c => { c with peerNeedsSyncItemsFromUs := ! tellsNothingNew synopsis reply.1 }
  resyncIfBehind env p itemType synopsis
  Task.change fun n => n.send p (.blockchainItemIdsInventory reply.2 itemType reply.1)
  if leave then disconnectFromPeer env p "you are on a fork that I'm unable to switch to" false
  else do
    let n ← Task.read id
    Task.whenever ((n.peers p).inbound = true ∧ p ∈ n.handshakingConnections) (joinActive env p)

/-- The replies of `on_fetch_items_message`, and which of them are the items asked for. -/
def gatherReplies (itemType : ℕ) : List ItemHash → NetTask (List (Message × Bool))
  | [] => Task.done []
  | hash :: rest => do
    let n ← Task.read id
    match n.messageCache.getMessage hash with
    | .ok m => do
      let more ← gatherReplies itemType rest
      Task.done ((m, true) :: more)
    | .error _ =>
      match ← Task.attempt (call (.getItem ⟨itemType, hash⟩)) with
      | .ok m => do
        let more ← gatherReplies itemType rest
        Task.done ((m, true) :: more)
      | .error e =>
        if e.kind = .keyNotFound then do
          let more ← gatherReplies itemType rest
          Task.done ((.itemNotAvailable ⟨itemType, hash⟩, false) :: more)
        else Task.fail e

/-- `last_block_message_sent` -/
def lastBlockMessage (itemType : ℕ) (replies : List (Message × Bool)) : Option Message :=
  if itemType = blockMessageType then
    ((replies.filter fun reply => reply.2).getLast?).map Prod.fst
  else none

/-- The record of the last block that a peer has seen, when we have sent it one. -/
def noteLastBlock (p : PeerId) : Option Message → NetTask Unit
  | none => Task.done ()
  | some (.block b) => do
    onPeer p fun c => { c with lastBlockDelegateHasSeen := b.blockId }
    let time ← call (.getBlockTime b.blockId)
    onPeer p fun c => { c with lastBlockTimeDelegateHasSeen := time }
  | some _ => Task.fail ⟨.other, "as<block_message>"⟩

/-- `on_fetch_items_message`; a block is recorded as sent when it is put into the queue. -/
def onFetchItems (p : PeerId) (itemType : ℕ) (items : List ItemHash) : NetTask Unit := do
  let replies ← gatherReplies itemType items
  noteLastBlock p (lastBlockMessage itemType replies)
  Task.change fun n => replies.foldl (fun n reply => n.send p reply.1) n

/-- `on_closing_connection_message` -/
def onClosingConnection (p : PeerId) (reason : String) (dueToError : Bool) : NetTask Unit := do
  onPeer p fun c => { c with theyHaveRequestedClose := true }
  Task.whenever (dueToError = true) (call (.errorEncountered reason))
  let c ← peer p
  Task.whenever (c.weHaveRequestedClose = true) (Task.change (closeConnection env p))

/-- `on_message`. The reply to a request for the current time is left out: no task reads it. -/
def onMessage (p : PeerId) (m : Message) : NetTask Unit :=
  match m with
  | .trx _ => processOrdinaryMessage env p m
  | .block b => processBlockMessage env p b
  | .ordinary msgType _ =>
    if msgType < 5000 ∨ 5099 < msgType then processOrdinaryMessage env p m else Task.done ()
  | .itemIdsInventory itemType hashes => Task.change (onItemIdsInventory p itemType hashes)
  | .blockchainItemIdsInventory total itemType ids =>
    onBlockchainItemIdsInventory env p itemType total ids
  | .fetchBlockchainItemIds itemType synopsis => onFetchBlockchainItemIds env p itemType synopsis
  | .fetchItems itemType items => onFetchItems p itemType items
  | .itemNotAvailable item => onItemNotAvailable env p item
  | .closingConnection reason dueToError => onClosingConnection env p reason dueToError
  | .currentTimeRequest => Task.done ()

end Service

section Closing

/-- A connection leaves the lists of connections. -/
def leaveLists (p : PeerId) (n : NetNode) : NetNode :=
  { n with
    closingConnections := n.closingConnections.filter (· ≠ p)
    handshakingConnections := n.handshakingConnections.filter (· ≠ p)
    terminatingConnections := n.terminatingConnections.filter (· ≠ p)
    activeConnections := n.activeConnections.filter (· ≠ p) }

/-- `schedule_peer_for_deletion` -/
def deletePeer (p : PeerId) (n : NetNode) : NetNode := n.onPeer p fun _ => .initial

/-- The end of `on_connection_closed`: what was requested from the peer is fetched from others. -/
def rescheduleItems (p : PeerId) (n : NetNode) : NetNode :=
  let released := { n with
    activeSyncRequests := n.activeSyncRequests \ (n.peers p).syncItemsRequestedFromPeer }
  deletePeer p ((n.peers p).itemsRequestedFromPeer.foldl (fun n e =>
    if n.isItemInAnyPeersInventory e.1 then addToFetch e.1 n else n) released)

/-- `on_connection_closed` -/
def onConnectionClosed (p : PeerId) : NetTask Unit := do
  Task.change (leaveLists p)
  reportConnections
  Task.change (rescheduleItems p)

/-- An exception of the handler of a message closes the connection. -/
def concludeMessage (p : PeerId) (handler : NetTask Unit) : NetTask Unit := do
  let r ← Task.attempt handler
  onPeer p fun c => { c with currentlyHandlingMessage := false }
  match r with
  | .ok _ => Task.done ()
  | .error _ => onConnectionClosed p

/-- What `read_loop` does with one message. -/
def handleMessage (p : PeerId) (m : Message) : NetTask Unit := do
  Task.change fun n => n.onPeer p fun c =>
    { c with lastMessageReceivedTime := n.now, currentlyHandlingMessage := true }
  concludeMessage p (onMessage env p m)

/-- `GRAPHENE_NET_PEER_DISCONNECT_TIMEOUT` -/
def peerDisconnectTimeout : ℤ := 20

/-- What `terminate_inactive_connections_loop` finds out about an active peer. -/
inductive Verdict where
  /-- The `break` of the loop over the active peers. -/
  | leaveLoop
  | disconnectGently
  | disconnectForcibly
  | sendKeepAlive
  | nothing
  deriving DecidableEq

/-- The time before which a request counts as ignored. -/
def ignoredRequestThreshold (n : NetNode) : TimePoint :=
  n.now - n.config.activeIgnoredRequestTimeoutMicroseconds

/-- Whether a peer has ignored a request for ids or for an item. -/
def hasIgnored (n : NetNode) (c : PeerConnection) : Bool :=
  (match c.itemIdsRequestedFromPeer with
    | some (_, time) => decide (time < ignoredRequestThreshold n)
    | none => false) ||
  c.itemsRequestedFromPeer.any fun e => e.2 < ignoredRequestThreshold n

/-- The loop of `terminate_inactive_connections_loop` over the active peers, for one of them. -/
def inspect (n : NetNode) (c : PeerConnection) : Verdict :=
  let disconnectThreshold := n.now - seconds (10 * wlsBlockInterval)
  let keepAliveThreshold := n.now - seconds (10 * wlsBlockInterval / 2)
  if c.connectionInitiationTime < disconnectThreshold ∧
      c.lastMessageReceivedTime < disconnectThreshold then .disconnectGently
  else if c.syncItemsRequestedFromPeer ≠ ∅ ∧
      c.lastSyncItemReceivedTime < ignoredRequestThreshold n then .leaveLoop
  else if hasIgnored n c then .disconnectForcibly
  else if c.connectionInitiationTime < keepAliveThreshold ∧
      c.lastMessageReceivedTime < keepAliveThreshold then .sendKeepAlive
  else if c.weNeedSyncItemsFromPeer = true ∧ c.currentlyHandlingMessage = false ∧
      c.itemIdsRequestedFromPeer = none ∧ c.idsOfItemsToGet = [] then .disconnectForcibly
  else .nothing

/-- The active peers that the loop reaches, with what it finds out about them. -/
def inspected (n : NetNode) : List (PeerId × Verdict) :=
  (n.activeConnections.map fun p => (p, inspect n (n.peers p))).takeWhile
    fun entry => entry.2 ≠ .leaveLoop

/-- The active peers that the loop reaches and puts on the list for a verdict. -/
def judged (n : NetNode) (v : Verdict) : List PeerId :=
  ((inspected n).filter fun entry => entry.2 = v).map Prod.fst

/-- The handshaking peers that are disconnected. -/
def stalledHandshakes (n : NetNode) : List PeerId :=
  let threshold := n.now - seconds n.config.peerInactivityTimeout
  n.handshakingConnections.filter fun p =>
    decide ((n.peers p).connectionInitiationTime < threshold) &&
      decide ((n.peers p).lastMessageReceivedTime < threshold) &&
      decide ((n.peers p).lastMessageSentTime < threshold)

/-- The closing peers that have not closed their connection in time. -/
def lateClosers (n : NetNode) : List PeerId :=
  n.closingConnections.filter fun p =>
    (n.peers p).connectionClosedTime < n.now - seconds peerDisconnectTimeout

/-- The terminating peers that are deleted. -/
def failedTerminations (n : NetNode) : List PeerId :=
  n.terminatingConnections.filter fun p =>
    decide ((n.peers p).connectionTerminatedTime ≠ env.timePointMin) &&
      decide ((n.peers p).connectionTerminatedTime < n.now - seconds 120)

/-- `terminate_inactive_connections_loop`, which gives way nowhere. -/
def terminateInactiveConnections (n : NetNode) : NetNode :=
  let terminated := (failedTerminations env n).foldl (fun n p =>
    deletePeer p { n with terminatingConnections := n.terminatingConnections.filter (· ≠ p) }) n
  let forced := (stalledHandshakes n ++ judged n .disconnectForcibly ++ lateClosers n).foldl
    (fun n p => closeConnection env p (n.movePeerToTerminatingList p)) terminated
  let gentle := (judged n .disconnectGently).foldl
    (fun n p => startDisconnecting env p "Disconnecting due to inactivity" false n) forced
  (judged n .sendKeepAlive).foldl (fun n p => n.send p .currentTimeRequest) gentle

end Closing

section System

/-- The names of the tasks. -/
inductive TaskName where
  /-- The read loop of a connection. -/
  | reader (p : PeerId)
  | backlog
  /-- A call of `send_sync_block_to_node_delegate`. -/
  | handleCall (number : ℕ)
  | fetchSyncItemsLoop
  | fetchItemsLoop
  | advertiseInventoryLoop
  | terminateInactiveConnectionsLoop
  | fetchUpdatedPeerListsLoop
  /-- The client and the world outside. -/
  | outside
  deriving DecidableEq

/-- A connection that the node has. -/
def connected (n : NetNode) (p : PeerId) : Prop :=
  p ∈ n.activeConnections ∨ p ∈ n.handshakingConnections ∨ p ∈ n.closingConnections ∨
    p ∈ n.terminatingConnections

/-- A connection that is made. -/
def connect (inbound : Bool) (nodeId lastKnownForkBlockNumber : ℕ) (n : NetNode) : NetNode :=
  { n.onPeer n.nextPeer fun _ =>
      { PeerConnection.initial with
        inbound := inbound
        nodeId := nodeId
        lastKnownForkBlockNumber := lastKnownForkBlockNumber
        connectionInitiationTime := n.now } with
    nextPeer := n.nextPeer + 1
    handshakingConnections := n.nextPeer :: n.handshakingConnections }

/-- A call gets a new state. -/
def setStatus (number : ℕ) (status : CallStatus) (n : NetNode) : NetNode :=
  { n with
    handleMessageCallsInProgress := n.handleMessageCallsInProgress.map fun call =>
      if call.number = number then { call with status := status } else call }

/-- The call that hands a block to the client. -/
def runCall (number : ℕ) (m : BlockMessage) : NetTask Unit := do
  Task.change (setStatus number .running)
  let _ ← Task.attempt (sendSyncBlockToNodeDelegate env m)
  Task.change (setStatus number .ready)

/-- `sync_from` -/
def syncFrom (currentHeadBlock : ItemId) (hardForkBlockNumbers : List ℕ) (n : NetNode) : NetNode :=
  { n with
    mostRecentBlocksAccepted := [currentHeadBlock.itemHash]
    syncItemType := currentHeadBlock.itemType
    hardForkBlockNumbers := hardForkBlockNumbers }

/-- Another order of the unordered sets of connections. -/
structure Reordered (n m : NetNode) : Prop where
  active : n.activeConnections.Perm m.activeConnections
  handshaking : n.handshakingConnections.Perm m.handshakingConnections
  closing : n.closingConnections.Perm m.closingConnections
  terminating : n.terminatingConnections.Perm m.terminatingConnections
  rest : m = { n with
    activeConnections := m.activeConnections
    handshakingConnections := m.handshakingConnections
    closingConnections := m.closingConnections
    terminatingConnections := m.terminatingConnections }

/-- The tasks that may begin in a state of the node. -/
inductive Begins : TaskName → NetNode → NetTask Unit → Prop
  /-- A message has come. -/
  | message {n : NetNode} (p : PeerId) (m : Message) (h : connected n p) :
    Begins (.reader p) n (handleMessage env p m)
  /-- The connection has ended. -/
  | connectionClosed {n : NetNode} (p : PeerId) (h : connected n p) :
    Begins (.reader p) n (onConnectionClosed p)
  /-- The handshake is complete. -/
  | handshakeDone {n : NetNode} (p : PeerId) (h : p ∈ n.handshakingConnections) :
    Begins (.reader p) n (joinActive env p)
  | backlog {n : NetNode} : Begins .backlog n (processBacklogOfSyncBlocks env)
  | handleCall {n : NetNode} (c : HandleMessageCall) (h : c ∈ n.handleMessageCallsInProgress)
      (hstatus : c.status = .scheduled) :
    Begins (.handleCall c.number) n (runCall env c.number c.message)
  | fetchSyncItems {n : NetNode} : Begins .fetchSyncItemsLoop n (Task.change fetchSyncItems)
  | fetchItems {n : NetNode} : Begins .fetchItemsLoop n (Task.change fetchItems)
  | advertiseInventory {n : NetNode} :
    Begins .advertiseInventoryLoop n (Task.change advertiseInventory)
  | terminateInactiveConnections {n : NetNode} :
    Begins .terminateInactiveConnectionsLoop n (Task.change (terminateInactiveConnections env))
  | pruneFailedItems {n : NetNode} :
    Begins .fetchUpdatedPeerListsLoop n (Task.change pruneFailedItems)
  /-- The client broadcasts a message. -/
  | broadcast {n : NetNode} (m : Message) :
    Begins .outside n (Task.change fun n => broadcast env m ⟨n.now, n.now, n.nodeId⟩ n)
  /-- The client tells its head block. -/
  | syncFrom {n : NetNode} (head : ItemId) (hardForks : List ℕ) :
    Begins .outside n (Task.change (syncFrom head hardForks))
  /-- A connection is made; it is none of those that the node has. -/
  | connect {n : NetNode} (inbound : Bool) (nodeId fork : ℕ) (h : ¬ connected n n.nextPeer) :
    Begins .outside n (Task.change (connect inbound nodeId fork))
  /-- Time passes. -/
  | tick {n : NetNode} (now : TimePoint) (h : n.now ≤ now) :
    Begins .outside n (Task.change fun n => { n with now := now })
  /-- The sets of connections are rehashed. -/
  | reorder {n m : NetNode} (h : Reordered n m) : Begins .outside n (Task.put m (Task.done ()))

/-- The node and its tasks. -/
abbrev Network := Pool TaskName NetNode Query Query.Answer NetExc

/-- A node that has just started. -/
def Network.initial (config : NodeConfiguration) (nodeId : ℕ) (now : TimePoint) : Network :=
  ⟨.initial config nodeId now, fun _ => none⟩

end System

end Whaleshares.NetworkTasks
