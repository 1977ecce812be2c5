import Whaleshares.SyncTasks

/-!
# How a node advertises and fetches items

The code of `node_impl` in `net/node.cpp` for normal operation: the inventories that peers and
the node advertise, the requests for items and the answers to them, and the messages that the
client accepts and the node broadcasts.
-/

namespace Whaleshares.InventoryTasks

open Config Fc Protocol MessageCache Peers Cooperation SyncTasks

section Order

/-- The difference of two `unsigned` values, as a `signed` value, is positive. -/
def ahead (a b : ℕ) : Bool :=
  let difference := (b + 2 ^ 32 - a) % 2 ^ 32
  0 < difference && difference < 2 ^ 31

/-- `prioritized_item_id::operator<` -/
def PrioritizedItemId.less (a b : PrioritizedItemId) : Bool :=
  if a.item.itemType ≠ b.item.itemType then b.item.itemType < a.item.itemType
  else ahead a.sequenceNumber b.sequenceNumber

/-- `insert` into the items to fetch, at the lower bound of the index by priority. -/
def insertByPriority (a : PrioritizedItemId) : List PrioritizedItemId → List PrioritizedItemId
  | [] => [a]
  | b :: rest =>
    if PrioritizedItemId.less b a then b :: insertByPriority a rest
    else if PrioritizedItemId.less a b then a :: b :: rest
    else b :: rest

/-- Whether an item is to be fetched. -/
def toBeFetched (n : NetNode) (item : ItemId) : Bool := n.itemsToFetch.any fun e => e.item = item

/-- `_items_to_fetch.insert( prioritized_item_id( item, _items_to_fetch_sequence_counter++ ) )` -/
def addToFetch (item : ItemId) (n : NetNode) : NetNode :=
  { n with
    itemsToFetch :=
      if toBeFetched n item then n.itemsToFetch
      else insertByPriority ⟨item, n.itemsToFetchSequenceCounter, n.now⟩ n.itemsToFetch
    itemsToFetchSequenceCounter := (n.itemsToFetchSequenceCounter + 1) % 2 ^ 32 }

end Order

section Loops

/-- `GRAPHENE_NET_MAX_ITEMS_PER_PEER_DURING_NORMAL_OPERATION` -/
def maxItemsPerPeer : ℕ := 1

/-- A round of `fetch_items_loop` at work. -/
structure FetchRound where
  node : NetNode
  /-- `items_by_peer`, in the order of the index by the number of items. -/
  itemsByPeer : List (PeerId × List ItemId)
  /-- The items that stay in `_items_to_fetch`. -/
  kept : List PrioritizedItemId

/-- Whether the loop may fetch an item from a peer. -/
def mayFetch (n : NetNode) (item : ItemId) (entry : PeerId × List ItemId) : Bool :=
  decide (entry.2.length < maxItemsPerPeer) &&
    (n.peers entry.1).inventoryPeerAdvertisedToUs.has item &&
    ! (decide (item.itemType = trxMessageType) &&
      (n.peers entry.1).isTransactionFetchingInhibited n.now)

/-- A peer gets an item. It keeps its place in the index by the number of items where the order
allows, and else goes behind the peers that have no more items than it. -/
def giveItem (p : PeerId) (item : ItemId) (byPeer : List (PeerId × List ItemId)) :
    List (PeerId × List ItemId) :=
  let before := byPeer.takeWhile fun entry => entry.1 ≠ p
  match byPeer.dropWhile fun entry => entry.1 ≠ p with
  | [] => byPeer
  | (_, items) :: later =>
    let given := (p, items ++ [item])
    if later.head?.all fun entry => given.2.length ≤ entry.2.length then before ++ given :: later
    else
      (before ++ later).takeWhile (fun entry => entry.2.length ≤ given.2.length) ++
        given :: (before ++ later).dropWhile fun entry => entry.2.length ≤ given.2.length

/-- `items_requested_from_peer.insert` -/
def requestItem (item : ItemId) (now : TimePoint) (c : PeerConnection) : PeerConnection :=
  { c with
    itemsRequestedFromPeer :=
      if c.hasRequested item then c.itemsRequestedFromPeer
      else (item, now) :: c.itemsRequestedFromPeer }

/-- `oldest_timestamp_to_fetch`, with the block interval that the node caches. -/
def oldestTimestampToFetch (n : NetNode) : TimePoint :=
  n.now - seconds (wlsBlockInterval * cacheDurationInBlocks)

/-- One item in a round of `fetch_items_loop`. -/
def FetchRound.consider (r : FetchRound) (e : PrioritizedItemId) : FetchRound :=
  if e.timestamp < oldestTimestampToFetch r.node then r
  else
    match r.itemsByPeer.find? (mayFetch r.node e.item) with
    | some entry =>
      { r with
        node := r.node.onPeer entry.1 (requestItem e.item r.node.now)
        itemsByPeer := giveItem entry.1 e.item r.itemsByPeer }
    | none => { r with kept := r.kept ++ [e] }

/-- Items in groups of one type, the types in ascending order. -/
def groupByType (items : List ItemId) : List (ℕ × List ItemHash) :=
  ((items.map (·.itemType)).dedup.insertionSort (· ≤ ·)).map fun itemType =>
    (itemType, (items.filter fun item => item.itemType = itemType).map (·.itemHash))

/-- The messages that a round of `fetch_items_loop` sends. -/
def sendFetches (byPeer : List (PeerId × List ItemId)) (n : NetNode) : NetNode :=
  byPeer.foldl (fun n entry =>
    (groupByType entry.2).foldl (fun n group => n.send entry.1 (.fetchItems group.1 group.2)) n) n

/-- A round of `fetch_items_loop` before it sends its messages. -/
def planFetches (n : NetNode) : FetchRound :=
  let idle := n.activeConnections.filter fun p => (n.peers p).idle
  n.itemsToFetch.foldl FetchRound.consider ⟨n, idle.map fun p => (p, []), []⟩

/-- One round of `fetch_items_loop`. -/
def fetchItems (n : NetNode) : NetNode :=
  let r := planFetches n
  sendFetches r.itemsByPeer { r.node with itemsToFetch := r.kept }

/-- The items that are advertised to a peer: neither side has advertised them to the other. -/
def itemsToAdvertise (c : PeerConnection) (inventory : List ItemId) : List ItemId :=
  inventory.filter fun item =>
    ! c.inventoryAdvertisedToPeer.has item && ! c.inventoryPeerAdvertisedToUs.has item

/-- What `advertise_inventory_loop` does for one active peer. -/
def advertiseTo (inventory : List ItemId) (n : NetNode) (p : PeerId) : NetNode :=
  let items := if (n.peers p).peerNeedsSyncItemsFromUs then [] else
    itemsToAdvertise (n.peers p) inventory
  let advertised := n.onPeer p fun c => PeerConnection.clearOldInventory n.now
    { c with
      inventoryAdvertisedToPeer := items.foldl (fun known item => known.insert item (toSec n.now))
        c.inventoryAdvertisedToPeer }
  (groupByType items).foldl (fun n group => n.send p (.itemIdsInventory group.1 group.2)) advertised

/-- One round of `advertise_inventory_loop`. -/
def advertiseInventory (n : NetNode) : NetNode :=
  n.activeConnections.foldl (advertiseTo n.newInventory) { n with newInventory := [] }

/-- The part of `fetch_updated_peer_lists_loop` that prunes the failed items. -/
def pruneFailedItems (n : NetNode) : NetNode :=
  { n with
    recentlyFailedItems := n.recentlyFailedItems.expire (toSec (n.now - seconds (15 * 60))) }

end Loops

section Answers

variable (env : NetEnv)

/-- Whether we have advertised an item to an active peer. -/
def weAdvertised (n : NetNode) (item : ItemId) : Bool :=
  n.activeConnections.any fun p => (n.peers p).inventoryAdvertisedToPeer.has item

/-- Whether we have requested an item from an active peer. -/
def weRequested (n : NetNode) (item : ItemId) : Bool :=
  n.activeConnections.any fun p => (n.peers p).hasRequested item

/-- An item that a peer has advertised and nobody was asked for. -/
def wantItem (item : ItemId) (n : NetNode) : NetNode :=
  if n.recentlyFailedItems.has item then n
  else if toBeFetched n item then
    { n with
      itemsToFetch := n.itemsToFetch.map fun e =>
        if e.item = item then { e with timestamp := n.now } else e }
  else addToFetch item n

/-- The loop of `on_item_ids_inventory_message`. -/
def considerInventory (p : PeerId) (itemType : ℕ) : List ItemHash → NetNode → NetNode
  | [], n => n
  | hash :: rest, n =>
    let item : ItemId := ⟨itemType, hash⟩
    if hash ∈ n.messageIdsCurrentlyBeingProcessed ∨ item ∈ n.newInventory ∨
        weAdvertised n item = true then
      considerInventory p itemType rest n
    else if (itemType = trxMessageType ∧ (n.peers p).isListFullForTransactions = true) ∨
        (n.peers p).isListFull = true then n
    else
      let listed := n.onPeer p fun c =>
        { c with
          inventoryPeerAdvertisedToUs :=
            c.inventoryPeerAdvertisedToUs.insert item (toSec n.now) }
      considerInventory p itemType rest
        (if weRequested n item then listed else wantItem item listed)

/-- `on_item_ids_inventory_message` -/
def onItemIdsInventory (p : PeerId) (itemType : ℕ) (hashes : List ItemHash) (n : NetNode) :
    NetNode :=
  considerInventory p itemType hashes (n.onPeer p (PeerConnection.clearOldInventory n.now))

/-- The part of `on_item_not_available_message` before it may disconnect the peer. -/
def itemNotAvailable (p : PeerId) (item : ItemId) (n : NetNode) : NetNode :=
  let c := n.peers p
  if c.hasRequested item then
    let dropped := n.onPeer p fun c =>
      { c with
        itemsRequestedFromPeer := c.itemsRequestedFromPeer.filter fun e => e.1 ≠ item
        inventoryPeerAdvertisedToUs := c.inventoryPeerAdvertisedToUs.remove item }
    if dropped.isItemInAnyPeersInventory item then addToFetch item dropped else dropped
  else if item.itemHash ∈ c.syncItemsRequestedFromPeer then
    n.onPeer p fun c =>
      { c with
        syncItemsRequestedFromPeer := c.syncItemsRequestedFromPeer.erase item.itemHash
        inhibitFetchingSyncBlocks :=
          if c.peerNeedsSyncItemsFromUs then true else c.inhibitFetchingSyncBlocks }
  else n

/-- Whether `on_item_not_available_message` disconnects the peer. -/
def lacksItem (p : PeerId) (item : ItemId) (n : NetNode) : Bool :=
  let c := n.peers p
  ! c.hasRequested item && decide (item.itemHash ∈ c.syncItemsRequestedFromPeer) &&
    ! c.peerNeedsSyncItemsFromUs

/-- The reason for which a peer without a sync item is disconnected. -/
def missingItemReason : String :=
  "You are missing a sync item you claim to have, your database is probably corrupted. " ++
    "Try --rebuild-index."

/-- `on_item_not_available_message` -/
def onItemNotAvailable (p : PeerId) (item : ItemId) : NetTask Unit := do
  let lacks ← Task.read (lacksItem p item)
  Task.change (itemNotAvailable p item)
  Task.whenever (lacks = true) (disconnectFromPeer env p missingItemReason true)

/-- The hash of the contents of a message, for debugging. -/
def contentsHash (m : Message) : ItemHash :=
  match m with
  | .block b => b.blockId
  | .trx trx => env.transactionId trx
  | _ => .null

/-- `broadcast` -/
def broadcast (m : Message) (data : MessagePropagationData) (n : NetNode) : NetNode :=
  let n := match m with
    | .block b => n.pushAccepted b.blockId
    | _ => n
  let item : ItemId := ⟨m.msgType, env.messageId m⟩
  { n with
    messageCache := n.messageCache.cacheMessage m (env.messageId m) data (contentsHash env m)
    newInventory := if item ∈ n.newInventory then n.newInventory else item :: n.newInventory }

/-- An item is no longer awaited from a peer. -/
def takeRequested (item : ItemId) (c : PeerConnection) : PeerConnection :=
  { c with itemsRequestedFromPeer := c.itemsRequestedFromPeer.filter fun e => e.1 ≠ item }

/-- The call of the client in `process_ordinary_message`. -/
def handOrdinary (m : Message) : NetTask Unit :=
  match m with
  | .trx trx => call (.handleTransaction trx)
  | m => call (.handleMessage m)

/-- `process_ordinary_message` -/
def processOrdinaryMessage (p : PeerId) (m : Message) : NetTask Unit := do
  let n ← Task.read id
  let item : ItemId := ⟨m.msgType, env.messageId m⟩
  if (n.peers p).hasRequested item then do
    onPeer p (takeRequested item)
    match ← Task.attempt (handOrdinary m) with
    | .ok _ => Task.change fun t => broadcast env m ⟨n.now, t.now, (t.peers p).nodeId⟩ t
    | .error _ => Task.change fun t =>
        { t with recentlyFailedItems := t.recentlyFailedItems.insert item (toSec t.now) }
  else disconnectFromPeer env p "You sent me a message that I didn't request" true

/-- What `process_block_during_normal_operation` does when the client has accepted a block. -/
def acceptBlock (hash : ItemHash) (m : BlockMessage) (transactions : List ItemHash) (n : NetNode) :
    NetNode :=
  let n := n.pushAccepted m.blockId
  { n with
    messageIdsCurrentlyBeingProcessed := n.messageIdsCurrentlyBeingProcessed.erase hash
    itemsToFetch := n.itemsToFetch.filter fun e =>
      ! transactions.any fun id => e.item = ⟨trxMessageType, id⟩ }

/-- The loop of `process_block_during_normal_operation` over the peers that offered a block. -/
def noteOffers (item : ItemId) (m : BlockMessage) (n : NetNode) : NetNode :=
  n.activeConnections.foldl (fun n p => n.onPeer p fun c => PeerConnection.clearOldInventory n.now
    (if c.inventoryPeerAdvertisedToUs.has item then
      { c with
        lastBlockDelegateHasSeen := m.blockId
        lastBlockTimeDelegateHasSeen := m.block.header.timestamp }
    else c)) n

/-- What `process_block_during_normal_operation` does once a block is known to be accepted. -/
def announceBlock (p : PeerId) (hash : ItemHash) (m : BlockMessage)
    (received validated : TimePoint) (n : NetNode) : NetNode :=
  let noted := noteOffers ⟨blockMessageType, hash⟩ m n
  let sent := broadcast env (.block m) ⟨received, validated, (noted.peers p).nodeId⟩ noted
  { sent with messageCache := sent.messageCache.blockAccepted }

/-- The peers whose clients will not follow a hard fork block. -/
def peersTooOldFor (n : NetNode) (blockNumber : ℕ) : List PeerId :=
  n.activeConnections.filter fun p => tooOldFor n p blockNumber

/-- The peers that offered a block that the client has rejected. -/
def offerersOf (n : NetNode) (p : PeerId) (id : ItemHash) : List PeerId :=
  p :: n.activeConnections.filter fun q => isFirstFor n id q && decide (q ≠ p)

/-- The reason for which the peers that offered a rejected block are disconnected. -/
def invalidBlockReason : String := "You offered me a block that I have deemed to be invalid"

/-- The calls of the client in `process_block_during_normal_operation`: whether the block is new,
and the time at which it was validated. -/
def validateBlock (hash : ItemHash) (m : BlockMessage) : NetTask TimePoint := do
  let n ← Task.read id
  if m.blockId ∈ n.mostRecentBlocksAccepted then Task.done 0
  else do
    Task.change fun n =>
      { n with
        messageIdsCurrentlyBeingProcessed := insert hash n.messageIdsCurrentlyBeingProcessed }
    let transactions ← call (.handleBlock m false)
    let time ← Task.read fun n => n.now
    Task.change (acceptBlock hash m transactions)
    Task.done time

/-- `process_block_during_normal_operation` -/
def processBlockDuringNormalOperation (p : PeerId) (m : BlockMessage) (hash : ItemHash) :
    NetTask Unit := do
  let received ← Task.read fun n => n.now
  match ← Task.attempt (validateBlock hash m) with
  | .ok validated => do
    Task.change (announceBlock env p hash m received validated)
    let old ← Task.read fun n => peersTooOldFor n m.block.blockNum
    Task.each (fun q => disconnectFromPeer env q (upgradeReason m.block.blockNum) true) old
  | .error e =>
    if e.kind = .unlinkableBlock then startSynchronizingWithPeer env p
    else do
      let offerers ← Task.read fun n => offerersOf n p m.blockId
      Task.each (fun q => disconnectFromPeer env q invalidBlockReason true) offerers

/-- The number of ids that are prefetched, `GRAPHENE_NET_MIN_BLOCK_IDS_TO_PREFETCH`. -/
def minBlockIdsToPrefetch : ℕ := 10000

/-- The end of `process_block_message` for a block that was requested during sync. -/
def afterSyncBlock (p : PeerId) : NetTask Unit := do
  let c ← peer p
  Task.whenever (c.idle = true ∧ 0 < c.numberOfUnfetchedItemIds ∧
    c.idsOfItemsToGet.length < minBlockIdsToPrefetch) (fetchNextBatchOfItemIdsFromPeer env p)

/-- `process_block_message` -/
def processBlockMessage (p : PeerId) (m : BlockMessage) : NetTask Unit := do
  let hash := env.messageId (.block m)
  let n ← Task.read id
  if (n.peers p).hasRequested ⟨blockMessageType, hash⟩ then do
    onPeer p (takeRequested ⟨blockMessageType, hash⟩)
    processBlockDuringNormalOperation env p m hash
  else if m.blockId ∈ (n.peers p).syncItemsRequestedFromPeer then do
    Task.change (receiveSyncBlock p m)
    match ← Task.attempt (afterSyncBlock env p) with
    | .ok _ => Task.done ()
    | .error _ => disconnectFromPeer env p "You sent me a block that I didn't ask for" true
  else disconnectFromPeer env p "You sent me a block that I didn't ask for" true

end Answers

end Whaleshares.InventoryTasks
