import Whaleshares.Cooperation
import Whaleshares.Peers
import Whaleshares.SyncHandshake

/-!
# How a node synchronizes with its peers

The synchronization code of `node_impl` in `net/node.cpp`: the requests for the ids of blocks
and for blocks, the answers to them, and the hand-over of the blocks to the client in order.

The node runs its routines as tasks of one thread. A task gives way where it calls the client,
apart from `get_block_number` and `get_blockchain_now`, and nowhere else: `send_message` puts a
message into a queue. The answers of the client may be any. The clock stands still while no task
gives way, assertions are off, and a trigger of a loop is left out, since the loops may run at any
time.
-/

namespace Whaleshares.SyncTasks

open Config Fc Protocol MessageCache Peers Cooperation

section Client

/-- The exceptions that the network code tells apart. -/
inductive NetExcKind where
  | keyNotFound
  | blockOlderThanUndoHistory
  | peerIsOnAnUnreachableFork
  | unlinkableBlock
  | undefinedBehaviour
  | other
  deriving DecidableEq

/-- A thrown exception. -/
structure NetExc where
  kind : NetExcKind
  message : String
  deriving DecidableEq

/-- The calls of `node_delegate` at which a task gives way. -/
inductive Query where
  | hasItem (item : ItemId)
  | handleBlock (message : BlockMessage) (syncMode : Bool)
  | handleTransaction (trx : SignedTransaction)
  | handleMessage (message : Message)
  | getBlockIds (blockchainSynopsis : List ItemHash)
  | getItem (item : ItemId)
  | getBlockchainSynopsis (referencePoint : ItemHash) (numberOfBlocksAfterReferencePoint : ℕ)
  | syncStatus (itemType itemCount : ℕ)
  | connectionCountChanged (count : ℕ)
  | getBlockTime (id : ItemHash)
  | errorEncountered (message : String)

/-- What a call returns. -/
def Query.Result : Query → Type
  | .hasItem _ => Bool
  | .handleBlock .. => List ItemHash
  | .handleTransaction _ => Unit
  | .handleMessage _ => Unit
  | .getBlockIds _ => List ItemHash × ℕ
  | .getItem _ => Message
  | .getBlockchainSynopsis .. => List ItemHash
  | .syncStatus .. => Unit
  | .connectionCountChanged _ => Unit
  | .getBlockTime _ => TimePointSec
  | .errorEncountered _ => Unit

/-- A call returns or throws. -/
def Query.Answer (q : Query) : Type := Except NetExc q.Result

/-- The tasks of a node. -/
abbrev NetTask := Task NetNode Query Query.Answer NetExc

/-- A call of the client. -/
def call (q : Query) : NetTask q.Result := do
  let r ← Task.question q
  Task.ofExcept r

/-- What the node knows about a connection. -/
def peer (p : PeerId) : NetTask PeerConnection := Task.read fun n => n.peers p

/-- A change of what the node knows about a connection. -/
def onPeer (p : PeerId) (f : PeerConnection → PeerConnection) : NetTask Unit :=
  Task.change fun n => n.onPeer p f

end Client

section Requests

variable (env : NetEnv)

/-- `close_connection`, as far as the node sees it. -/
def closeConnection (p : PeerId) (n : NetNode) : NetNode :=
  n.onPeer p fun c =>
    if c.connectionTerminatedTime ≠ env.timePointMin then
      { c with connectionTerminatedTime := n.now }
    else c

/-- The part of `disconnect_from_peer` before it tells the client. -/
def startDisconnecting (p : PeerId) (reason : String) (causedByError : Bool) (n : NetNode) :
    NetNode :=
  let moved := n.movePeerToClosingList p
  if (n.peers p).theyHaveRequestedClose then closeConnection env p moved
  else
    (moved.onPeer p fun c =>
      { c with weHaveRequestedClose := true, connectionClosedTime := n.now }).send p
        (.closingConnection reason causedByError)

/-- `disconnect_from_peer` -/
def disconnectFromPeer (p : PeerId) (reason : String) (causedByError : Bool) : NetTask Unit := do
  Task.change (startDisconnecting env p reason causedByError)
  Task.whenever (causedByError = true) (call (.errorEncountered reason))

/-- The id that a round of `create_blockchain_synopsis_for_peer` adds. -/
def missingId (ids : List ItemHash) (first low : ℕ) : Except NetExc (List ItemHash) :=
  if first ≤ low then
    match ids[low - first]? with
    | some id => .ok [id]
    | none => .error ⟨.undefinedBehaviour,
        "original_ids_of_items_to_get[low_block_num - first_block_num_in_ids_to_get]"⟩
  else .ok []

/-- The do-while loop of `create_blockchain_synopsis_for_peer`. -/
def addMissing (ids : List ItemHash) (first trueHigh : ℕ) : ℕ → ℕ → Except NetExc (List ItemHash)
  | 0, _ => .error ⟨.undefinedBehaviour, "while ( low_block_num <= true_high_block_num )"⟩
  | rounds + 1, low => do
    let here ← missingId ids first low
    if SyncHandshake.nextLow trueHigh low ≤ trueHigh then do
      let rest ← addMissing ids first trueHigh rounds (SyncHandshake.nextLow trueHigh low)
      pure (here ++ rest)
    else pure here

/-- The number of the first block of a synopsis. -/
def lowBlockNum (synopsis : List ItemHash) : ℕ :=
  match synopsis with
  | [] => 1
  | id :: _ => id.num

/-- The part of `create_blockchain_synopsis_for_peer` after the client has answered. -/
def completeSynopsis (synopsis ids : List ItemHash) : Except NetExc (List ItemHash) :=
  match ids with
  | [] => .ok synopsis
  | front :: _ =>
    if ids.length % 2 ^ 32 = 0 then .ok synopsis
    else do
      let missing ← addMissing ids front.num ((front.num + ids.length - 1) % 2 ^ 32) (2 ^ 32)
        (lowBlockNum synopsis)
      pure (synopsis ++ missing)

/-- `create_blockchain_synopsis_for_peer` -/
def createBlockchainSynopsisForPeer (p : PeerId) : NetTask (List ItemHash) := do
  let c ← peer p
  let synopsis ← call (.getBlockchainSynopsis c.lastBlockDelegateHasSeen
    (c.idsOfItemsToGet.length % 2 ^ 32))
  Task.ofExcept (completeSynopsis synopsis c.idsOfItemsToGet)

/-- A request for the ids that follow a synopsis. -/
def requestItemIds (p : PeerId) (synopsis : List ItemHash) (n : NetNode) : NetNode :=
  (n.onPeer p fun c => { c with itemIdsRequestedFromPeer := some (synopsis, n.now) }).send p
    (.fetchBlockchainItemIds n.syncItemType synopsis)

/-- The try block of `fetch_next_batch_of_item_ids_from_peer`. -/
def requestNextBatch (p : PeerId) : NetTask Unit := do
  let synopsis ← createBlockchainSynopsisForPeer p
  Task.change (requestItemIds p synopsis)

/-- `fetch_next_batch_of_item_ids_from_peer` -/
def fetchNextBatchOfItemIdsFromPeer (p : PeerId) : NetTask Unit := do
  match ← Task.attempt (requestNextBatch p) with
  | .ok _ => Task.done ()
  | .error e =>
    if e.kind = .blockOlderThanUndoHistory then
      disconnectFromPeer env p "You are on a fork I'm unable to switch to" false
    else Task.fail e

/-- The start of `start_synchronizing_with_peer`. -/
def restart (c : PeerConnection) : PeerConnection :=
  { c with
    idsOfItemsToGet := []
    startedIds := []
    numberOfUnfetchedItemIds := 0
    weNeedSyncItemsFromPeer := true
    lastBlockDelegateHasSeen := .null }

/-- `start_synchronizing_with_peer` -/
def startSynchronizingWithPeer (p : PeerId) : NetTask Unit := do
  onPeer p restart
  let time ← call (.getBlockTime .null)
  onPeer p fun c =>
    { c with lastBlockTimeDelegateHasSeen := time, inhibitFetchingSyncBlocks := false }
  fetchNextBatchOfItemIdsFromPeer env p

/-- The client is told the number of active connections when it has changed. -/
def reportConnections : NetTask Unit := do
  let n ← Task.read id
  Task.whenever (n.activeConnections.length ≠ n.lastReportedNumberOfConnections) do
    Task.change fun n => { n with lastReportedNumberOfConnections := n.activeConnections.length }
    call (.connectionCountChanged n.activeConnections.length)

/-- `new_peer_just_added` -/
def newPeerJustAdded (p : PeerId) : NetTask Unit := do
  Task.change fun n => n.send p .currentTimeRequest
  startSynchronizingWithPeer env p
  reportConnections

end Requests

section Blocks

/-- The items of one peer that the loop schedules: those that are neither received nor taken nor
requested, and as many as the limit says, but at least one. -/
def itemsToRequest (n : NetNode) (taken : Finset ItemHash) : List ItemHash → List ItemHash →
    List ItemHash
  | [], chosen => chosen
  | id :: rest, chosen =>
    if n.haveAlreadyReceivedSyncItem id = false ∧ id ∉ taken ∧ id ∉ chosen ∧
        id ∉ n.activeSyncRequests then
      if n.config.maximumBlocksPerPeerDuringSyncing ≤ chosen.length + 1 then chosen ++ [id]
      else itemsToRequest n taken rest (chosen ++ [id])
    else itemsToRequest n taken rest chosen

/-- Whether the loop asks a peer for blocks. -/
def maySync (n : NetNode) (p : PeerId) : Bool :=
  (n.peers p).weNeedSyncItemsFromPeer && (n.peers p).idle &&
    ! (n.peers p).inhibitFetchingSyncBlocks

/-- The requests that the loop schedules: `sync_item_requests_to_send`. -/
def scheduleRequests (n : NetNode) : List PeerId → Finset ItemHash →
    List (PeerId × List ItemHash) → List (PeerId × List ItemHash)
  | [], _, requests => requests
  | p :: rest, taken, requests =>
    if maySync n p = true ∧ p ∉ requests.map Prod.fst then
      let items := itemsToRequest n taken (n.peers p).idsOfItemsToGet []
      if items = [] then scheduleRequests n rest taken requests
      else scheduleRequests n rest (taken ∪ items.toFinset) (requests ++ [(p, items)])
    else scheduleRequests n rest taken requests

/-- `request_sync_items_from_peer` -/
def requestSyncItemsFromPeer (n : NetNode) (p : PeerId) (items : List ItemHash) : NetNode :=
  ({ n with activeSyncRequests := n.activeSyncRequests ∪ items.toFinset }.onPeer p fun c =>
    { c with
      lastSyncItemReceivedTime := if items = [] then c.lastSyncItemReceivedTime else n.now
      syncItemsRequestedFromPeer := c.syncItemsRequestedFromPeer ∪ items.toFinset }).send p
        (.fetchItems blockMessageType items)

/-- One round of `fetch_sync_items_loop`. -/
def fetchSyncItems (n : NetNode) : NetNode :=
  if n.suspendFetchingSyncBlocks then n
  else (scheduleRequests n n.activeConnections ∅ []).foldl
    (fun n request => requestSyncItemsFromPeer n request.1 request.2) n

variable (env : NetEnv)

/-- The part of `process_block_message` for a block that was requested during sync. -/
def receiveSyncBlock (p : PeerId) (m : BlockMessage) (n : NetNode) : NetNode :=
  { n.onPeer p fun c =>
      { c with
        syncItemsRequestedFromPeer := c.syncItemsRequestedFromPeer.erase m.blockId
        lastSyncItemReceivedTime := n.now } with
    activeSyncRequests := n.activeSyncRequests.erase m.blockId
    newReceivedSyncItems := m :: n.newReceivedSyncItems }

/-- What is left to do once the client has answered about a sync block. -/
structure FollowUp where
  /-- `peers_to_disconnect`, with the reasons. -/
  toDisconnect : List (PeerId × String)
  /-- `peers_with_newly_empty_item_lists` -/
  newlyEmpty : List PeerId
  /-- `peers_we_need_to_sync_to` -/
  toSyncTo : List PeerId

/-- The reason for which a peer with an old client is disconnected. -/
def upgradeReason (blockNumber : ℕ) : String :=
  "You need to upgrade your client due to hard fork at block " ++ toString blockNumber

/-- Whether a peer runs a client that will not follow a hard fork block. -/
def tooOldFor (n : NetNode) (p : PeerId) (blockNumber : ℕ) : Bool :=
  let next := n.getNextKnownHardForkBlockNumber (n.peers p).lastKnownForkBlockNumber
  n.isHardForkBlock blockNumber && decide ((n.peers p).lastKnownForkBlockNumber ≠ 0) &&
    decide (next ≠ 0) && decide (next ≤ blockNumber)

/-- A block leaves the blocks of a peer that are being processed. -/
def finishItem (id : ItemHash) (c : PeerConnection) : PeerConnection :=
  { c with idsOfItemsBeingProcessed := c.idsOfItemsBeingProcessed.erase id }

/-- Whether nothing that a peer offers is left to get or to process. -/
def finished (c : PeerConnection) : Bool :=
  c.idsOfItemsToGet.isEmpty && decide (c.numberOfUnfetchedItemIds = 0) &&
    decide (c.idsOfItemsBeingProcessed = ∅)

/-- The loop of `send_sync_block_to_node_delegate` over the active peers, after the client has
accepted a block. -/
def acceptedBlock (m : BlockMessage) : List PeerId → NetNode × FollowUp → NetNode × FollowUp
  | [], r => r
  | p :: rest, (n, todo) =>
    let c := n.peers p
    if tooOldFor n p m.block.blockNum then
      acceptedBlock m rest
        (n, { todo with
          toDisconnect := todo.toDisconnect ++ [(p, upgradeReason m.block.blockNum)] })
    else if c.idsOfItemsToGet = [] ∧ c.idsOfItemsBeingProcessed = ∅ then
      if c.peerNeedsSyncItemsFromUs = false ∧ c.weNeedSyncItemsFromPeer = false then
        acceptedBlock m rest (n, { todo with toSyncTo := todo.toSyncTo ++ [p] })
      else acceptedBlock m rest (n, todo)
    else if m.blockId ∈ c.idsOfItemsBeingProcessed then
      let c' := finishItem m.blockId
        { c with
          lastBlockDelegateHasSeen := m.blockId
          lastBlockTimeDelegateHasSeen := m.block.header.timestamp }
      acceptedBlock m rest (n.onPeer p fun _ => c',
        if finished c' then { todo with newlyEmpty := todo.newlyEmpty ++ [p] } else todo)
    else acceptedBlock m rest (n, todo)

/-- The loop of `send_sync_block_to_node_delegate` over the active peers, after the client has
rejected a block. -/
def rejectedBlock (m : BlockMessage) (discontinue : Bool) : List PeerId → NetNode × FollowUp →
    NetNode × FollowUp
  | [], r => r
  | p :: rest, (n, todo) =>
    if m.blockId ∈ (n.peers p).idsOfItemsBeingProcessed then
      if discontinue then
        rejectedBlock m discontinue rest
          (n.onPeer p fun c => { c with inhibitFetchingSyncBlocks := true }, todo)
      else
        rejectedBlock m discontinue rest (n, { todo with
          toDisconnect := todo.toDisconnect ++
            [(p, "You offered us a block that we reject as invalid")] })
    else rejectedBlock m discontinue rest (n, todo)

/-- What `send_sync_block_to_node_delegate` does before its potentially blocking operations. -/
def concludeBlock (m : BlockMessage) (answer : Except NetExc (List ItemHash))
    (n : NetNode) : NetNode × FollowUp :=
  match answer with
  | .ok _ =>
    acceptedBlock m n.activeConnections
      ({ n.pushAccepted m.blockId with
        totalNumberOfUnfetchedItems := (n.totalNumberOfUnfetchedItems + 2 ^ 32 - 1) % 2 ^ 32 },
        ⟨[], [], []⟩)
  | .error e =>
    rejectedBlock m (e.kind = .blockOlderThanUndoHistory) n.activeConnections (n, ⟨[], [], []⟩)

/-- `send_sync_block_to_node_delegate` -/
def sendSyncBlockToNodeDelegate (m : BlockMessage) : NetTask Unit := do
  let answer ← Task.attempt (call (.handleBlock m true))
  let todo ← Task.read fun n => (concludeBlock m answer n).2
  Task.change fun n => (concludeBlock m answer n).1
  Task.each (fun item => disconnectFromPeer env item.1 item.2 true) todo.toDisconnect
  Task.each (fetchNextBatchOfItemIdsFromPeer env) todo.newlyEmpty
  Task.each (startSynchronizingWithPeer env) todo.toSyncTo

/-- The peers whose next block is this one. -/
def isFirstFor (n : NetNode) (id : ItemHash) (p : PeerId) : Bool :=
  (n.peers p).idsOfItemsToGet.head? = some id

/-- A block goes from the blocks to get to the blocks being processed. -/
def startItem (id : ItemHash) (c : PeerConnection) : PeerConnection :=
  { c with
    idsOfItemsToGet := c.idsOfItemsToGet.tail
    startedIds := c.startedIds ++ [id]
    idsOfItemsBeingProcessed := insert id c.idsOfItemsBeingProcessed }

/-- The loop of `process_backlog_of_sync_blocks` over the peers whose next block has come. -/
def startBlock (id : ItemHash) (n : NetNode) : NetNode :=
  (n.activeConnections.filter (isFirstFor n id)).foldl
    (fun n p => n.onPeer p (startItem id)) n

/-- How a round over the received sync items ends. -/
inductive Round where
  /-- No received block is the next block of a peer. -/
  | nothing
  /-- A block goes to the client. -/
  | handed
  /-- The block was accepted before; these peers need the next ids. -/
  | accepted (needingNextBatch : List PeerId)

/-- The loop of `process_backlog_of_sync_blocks` over the peers that a block accepted before came
from. -/
def dropAccepted (id : ItemHash) (n : NetNode) : NetNode × List PeerId :=
  let holders := n.activeConnections.filter fun p => id ∈ (n.peers p).idsOfItemsBeingProcessed
  let n' := holders.foldl (fun n p => n.onPeer p (finishItem id)) n
  (n', holders.filter fun p => finished (n'.peers p))

/-- A round of `process_backlog_of_sync_blocks` over the received sync items. -/
def backlogRound (n : NetNode) : NetNode × Round :=
  let n := { n with
    receivedSyncItems := n.newReceivedSyncItems.reverse ++ n.receivedSyncItems
    newReceivedSyncItems := [] }
  match n.receivedSyncItems.find? fun m => n.activeConnections.any (isFirstFor n m.blockId) with
  | none => (n, .nothing)
  | some m =>
    let n := startBlock m.blockId n
    if m.blockId ∈ n.mostRecentBlocksAccepted then
      let r := dropAccepted m.blockId n
      (r.1, .accepted r.2)
    else
      ({ n with
        receivedSyncItems := n.receivedSyncItems.erase m
        handleMessageCallsInProgress := n.handleMessageCallsInProgress ++
          [⟨n.nextCall, m, .scheduled⟩]
        nextCall := n.nextCall + 1 }, .handed)

/-- Whether the client has as many blocks to handle as it may have at one time. -/
def atLimit (n : NetNode) : Bool :=
  n.config.maximumNumberOfBlocksToHandleAtOneTime ≤ n.handleMessageCallsInProgress.length

/-- The rounds of `process_backlog_of_sync_blocks` that hand a block to the client, and the one
after them. -/
def handOver : ℕ → NetNode → NetNode × Round
  | 0, n => (n, .nothing)
  | rounds + 1, n =>
    let r := backlogRound n
    match r.2 with
    | .handed => if atLimit r.1 then r else handOver rounds r.1
    | _ => r

/-- The calls that have ended leave the list. -/
def collectCalls (n : NetNode) : NetNode :=
  { n with
    handleMessageCallsInProgress :=
      n.handleMessageCallsInProgress.filter fun call => call.status ≠ .ready }

/-- Fetching sync blocks is suspended when the client and the backlog have too many. -/
def suspendAtLimit (n : NetNode) : NetNode :=
  if atLimit n = true ∧
      n.config.maximumNumberOfSyncBlocksToPrefetch ≤ n.receivedSyncItems.length then
    { n with suspendFetchingSyncBlocks := true }
  else n

/-- What `process_backlog_of_sync_blocks` does before it may give way. -/
def startBacklog (n : NetNode) : NetNode × Round :=
  let n := collectCalls n
  if atLimit n then (n, .nothing)
  else
    handOver (n.receivedSyncItems.length + n.newReceivedSyncItems.length + 1)
      { n with suspendFetchingSyncBlocks := false }

/-- Whether `process_backlog_of_sync_blocks` returns at once. -/
def backlogWaits (n : NetNode) : Bool := atLimit (collectCalls n)

/-- The peers whose blocks were all accepted before are asked for the next ids. -/
def askForNext : Round → NetTask Unit
  | .accepted peers => Task.each (fetchNextBatchOfItemIdsFromPeer env) peers
  | _ => Task.done ()

/-- `process_backlog_of_sync_blocks` -/
def processBacklogOfSyncBlocks : NetTask Unit := do
  let waits ← Task.read backlogWaits
  let round ← Task.read fun n => (startBacklog n).2
  Task.change fun n => (startBacklog n).1
  Task.whenever (waits = false) do
    askForNext env round
    Task.change suspendAtLimit

end Blocks

end Whaleshares.SyncTasks
