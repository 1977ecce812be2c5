import Whaleshares.MessageCache

/-!
# Peers and their messages

The data of the peer-to-peer node, from `net/core_messages.hpp`, `net/peer_connection.hpp`,
`net/peer_connection.cpp` and the members of `node_impl` in `net/node.cpp`: items and messages,
what the node knows about each connection, the lists of connections, and what the node asks for
and has received.

An item hash, a message hash and a block id have one type, as in the source. A message carries
its contents, and its hash is a parameter. Times are microseconds. The order of an unordered set
is the order of a list, and nothing depends on it. The exchange of hello messages, the database
of potential peers, the firewall checks and the bandwidth counters are left out.
-/

namespace Whaleshares.Peers

open Config Fc Protocol MessageCache

section Messages

/-- `peer_connection_ptr`: the connections are numbered in the order in which they are made. -/
abbrev PeerId := ℕ

/-- `fc::time_point` -/
abbrev TimePoint := ℤ

/-- `fc::seconds` -/
def seconds (s : ℤ) : ℤ := s * 1000000

/-- `fc::time_point_sec( t )` -/
def toSec (t : TimePoint) : TimePointSec := (t / 1000000).toNat % 2 ^ 32

/-- `item_id` -/
structure ItemId where
  itemType : ℕ
  itemHash : ItemHash
  deriving DecidableEq

/-- `trx_message_type` -/
def trxMessageType : ℕ := 1000

/-- `block_message_type` -/
def blockMessageType : ℕ := 1001

/-- `block_message`: the id comes with the block and is not checked. -/
structure BlockMessage where
  block : SignedBlock
  blockId : BlockId
  deriving DecidableEq

/-- `message` -/
inductive Message where
  /-- `trx_message` -/
  | trx (trx : SignedTransaction)
  /-- `block_message` -/
  | block (message : BlockMessage)
  /-- A message that the node only hands on to the client. -/
  | ordinary (msgType : ℕ) (data : Bytes)
  /-- `item_ids_inventory_message` -/
  | itemIdsInventory (itemType : ℕ) (itemHashesAvailable : List ItemHash)
  /-- `blockchain_item_ids_inventory_message` -/
  | blockchainItemIdsInventory (totalRemainingItemCount itemType : ℕ)
      (itemHashesAvailable : List ItemHash)
  /-- `fetch_blockchain_item_ids_message` -/
  | fetchBlockchainItemIds (itemType : ℕ) (blockchainSynopsis : List ItemHash)
  /-- `fetch_items_message` -/
  | fetchItems (itemType : ℕ) (itemsToFetch : List ItemHash)
  /-- `item_not_available_message` -/
  | itemNotAvailable (requestedItem : ItemId)
  /-- `closing_connection_message` -/
  | closingConnection (reasonForClosing : String) (closingDueToError : Bool)
  /-- `current_time_request_message` -/
  | currentTimeRequest
  deriving DecidableEq

/-- `msg_type` -/
def Message.msgType : Message → ℕ
  | .trx _ => trxMessageType
  | .block _ => blockMessageType
  | .ordinary msgType _ => msgType
  | .itemIdsInventory .. => 5001
  | .blockchainItemIdsInventory .. => 5002
  | .fetchBlockchainItemIds .. => 5003
  | .fetchItems .. => 5004
  | .itemNotAvailable _ => 5005
  | .closingConnection .. => 5011
  | .currentTimeRequest => 5012

/-- What the network code uses of other libraries. -/
structure NetEnv where
  /-- `message::id` -/
  messageId : Message → ItemHash
  /-- `signed_transaction::id`, as the hash of the contents of a message. -/
  transactionId : SignedTransaction → ItemHash
  /-- `fc::time_point::min` -/
  timePointMin : TimePoint

/-- `message_propagation_data` -/
structure MessagePropagationData where
  receivedTime : TimePoint
  validatedTime : TimePoint
  originatingPeer : ℕ

end Messages

section Inventories

/-- `timestamped_item_id` -/
structure TimestampedItemId where
  item : ItemId
  timestamp : TimePointSec
  deriving DecidableEq

/-- `timestamped_items_set_type` -/
abbrev TimestampedItems := List TimestampedItemId

/-- `find( item ) != end()` -/
def TimestampedItems.has (items : TimestampedItems) (item : ItemId) : Bool :=
  items.any fun entry => entry.item = item

/-- `insert`: an item that is there already keeps its timestamp. -/
def TimestampedItems.insert (items : TimestampedItems) (item : ItemId) (timestamp : TimePointSec) :
    TimestampedItems :=
  if items.has item then items else ⟨item, timestamp⟩ :: items

/-- `erase( item )` -/
def TimestampedItems.remove (items : TimestampedItems) (item : ItemId) : TimestampedItems :=
  items.filter fun entry => entry.item ≠ item

/-- `erase( begin(), lower_bound( oldest ) )` of the index by time. -/
def TimestampedItems.expire (items : TimestampedItems) (oldest : TimePointSec) : TimestampedItems :=
  items.filter fun entry => decide (¬ entry.timestamp < oldest)

end Inventories

section Connections

/-- `peer_connection` -/
structure PeerConnection where
  inbound : Bool
  nodeId : ℕ
  connectionInitiationTime : TimePoint
  connectionClosedTime : TimePoint
  connectionTerminatedTime : TimePoint
  lastMessageReceivedTime : TimePoint
  lastMessageSentTime : TimePoint
  theyHaveRequestedClose : Bool
  weHaveRequestedClose : Bool
  /-- The ids of blocks that the peer has told us about. -/
  idsOfItemsToGet : List ItemHash
  /-- The ids that have left `idsOfItemsToGet` for the client since the list was last begun; the
  source keeps no such record. -/
  startedIds : List ItemHash
  /-- The ids of blocks of the peer that the client is handling. -/
  idsOfItemsBeingProcessed : Finset ItemHash
  numberOfUnfetchedItemIds : ℕ
  peerNeedsSyncItemsFromUs : Bool
  weNeedSyncItemsFromPeer : Bool
  /-- The synopsis that we have asked for ids with, and when. -/
  itemIdsRequestedFromPeer : Option (List ItemHash × TimePoint)
  lastSyncItemReceivedTime : TimePoint
  /-- The ids of blocks that we have requested during sync. -/
  syncItemsRequestedFromPeer : Finset ItemHash
  lastBlockDelegateHasSeen : ItemHash
  lastBlockTimeDelegateHasSeen : TimePointSec
  inhibitFetchingSyncBlocks : Bool
  inventoryPeerAdvertisedToUs : TimestampedItems
  inventoryAdvertisedToPeer : TimestampedItems
  /-- The items that we have requested during normal operation, and when. -/
  itemsRequestedFromPeer : List (ItemId × TimePoint)
  transactionFetchingInhibitedUntil : TimePoint
  lastKnownForkBlockNumber : ℕ
  currentlyHandlingMessage : Bool

/-- A connection as the constructor leaves it. -/
def PeerConnection.initial : PeerConnection where
  inbound := false
  nodeId := 0
  connectionInitiationTime := 0
  connectionClosedTime := 0
  connectionTerminatedTime := 0
  lastMessageReceivedTime := 0
  lastMessageSentTime := 0
  theyHaveRequestedClose := false
  weHaveRequestedClose := false
  idsOfItemsToGet := []
  startedIds := []
  idsOfItemsBeingProcessed := ∅
  numberOfUnfetchedItemIds := 0
  peerNeedsSyncItemsFromUs := true
  weNeedSyncItemsFromPeer := true
  itemIdsRequestedFromPeer := none
  lastSyncItemReceivedTime := 0
  syncItemsRequestedFromPeer := ∅
  lastBlockDelegateHasSeen := .null
  lastBlockTimeDelegateHasSeen := 0
  inhibitFetchingSyncBlocks := false
  inventoryPeerAdvertisedToUs := []
  inventoryAdvertisedToPeer := []
  itemsRequestedFromPeer := []
  transactionFetchingInhibitedUntil := 0
  lastKnownForkBlockNumber := 0
  currentlyHandlingMessage := false

/-- Whether an item is among those requested during normal operation. -/
def PeerConnection.hasRequested (c : PeerConnection) (item : ItemId) : Bool :=
  c.itemsRequestedFromPeer.any fun entry => entry.1 = item

/-- `busy` -/
def PeerConnection.busy (c : PeerConnection) : Bool :=
  ! c.itemsRequestedFromPeer.isEmpty || decide (c.syncItemsRequestedFromPeer ≠ ∅) ||
    c.itemIdsRequestedFromPeer.isSome

/-- `idle` -/
def PeerConnection.idle (c : PeerConnection) : Bool := ! c.busy

/-- `is_transaction_fetching_inhibited` -/
def PeerConnection.isTransactionFetchingInhibited (c : PeerConnection) (now : TimePoint) : Bool :=
  now < c.transactionFetchingInhibitedUntil

/-- `GRAPHENE_NET_MAX_INVENTORY_SIZE_IN_MINUTES` -/
def maxInventorySizeInMinutes : ℕ := 2

/-- `GRAPHENE_NET_MAX_TRX_PER_SECOND` -/
def maxTrxPerSecond : ℕ := 1000

/-- `clear_old_inventory` -/
def PeerConnection.clearOldInventory (now : TimePoint) (c : PeerConnection) : PeerConnection :=
  let oldest := toSec (now - seconds (maxInventorySizeInMinutes * 60))
  { c with
    inventoryAdvertisedToPeer := c.inventoryAdvertisedToPeer.expire oldest
    inventoryPeerAdvertisedToUs := c.inventoryPeerAdvertisedToUs.expire oldest }

/-- `is_inventory_advertised_to_us_list_full_for_transactions` -/
def PeerConnection.isListFullForTransactions (c : PeerConnection) : Bool :=
  maxInventorySizeInMinutes * maxTrxPerSecond * 60 < c.inventoryPeerAdvertisedToUs.length

/-- `is_inventory_advertised_to_us_list_full` -/
def PeerConnection.isListFull (c : PeerConnection) : Bool :=
  maxInventorySizeInMinutes * maxTrxPerSecond * 60 +
      (maxInventorySizeInMinutes + 1) * 60 / wlsBlockInterval <
    c.inventoryPeerAdvertisedToUs.length

end Connections

section Nodes

/-- `prioritized_item_id` -/
structure PrioritizedItemId where
  item : ItemId
  sequenceNumber : ℕ
  /-- When an inventory message last named the item. -/
  timestamp : TimePoint
  deriving DecidableEq

/-- The state of a call of `send_sync_block_to_node_delegate`. -/
inductive CallStatus where
  | scheduled
  | running
  | ready
  deriving DecidableEq

/-- An element of `_handle_message_calls_in_progress`. -/
structure HandleMessageCall where
  number : ℕ
  message : BlockMessage
  status : CallStatus
  deriving DecidableEq

/-- What the node uses of `node_configuration`. -/
structure NodeConfiguration where
  peerInactivityTimeout : ℕ
  maximumNumberOfBlocksToHandleAtOneTime : ℕ
  maximumNumberOfSyncBlocksToPrefetch : ℕ
  maximumBlocksPerPeerDuringSyncing : ℕ
  activeIgnoredRequestTimeoutMicroseconds : ℤ

/-- `node_configuration()` -/
def NodeConfiguration.initial : NodeConfiguration := ⟨5, 200, 2000, 200, 6000000⟩

/-- `node_impl` -/
structure NetNode where
  config : NodeConfiguration
  /-- The clock of the node. -/
  now : TimePoint
  nodeId : ℕ
  /-- What the node knows about a connection. -/
  peers : PeerId → PeerConnection
  /-- The number of the next connection. -/
  nextPeer : PeerId
  handshakingConnections : List PeerId
  activeConnections : List PeerId
  closingConnections : List PeerId
  terminatingConnections : List PeerId
  /-- The ids of sync blocks that are requested and have not come. -/
  activeSyncRequests : Finset ItemHash
  /-- Sync blocks that have just come. -/
  newReceivedSyncItems : List BlockMessage
  /-- Sync blocks that have come and cannot be processed yet. -/
  receivedSyncItems : List BlockMessage
  suspendFetchingSyncBlocks : Bool
  itemsToFetch : List PrioritizedItemId
  itemsToFetchSequenceCounter : ℕ
  /-- Items that the client has rejected. -/
  recentlyFailedItems : TimestampedItems
  /-- Items that we have and have not advertised. -/
  newInventory : List ItemId
  /-- The newest blocks that the client has accepted, the newest last. -/
  mostRecentBlocksAccepted : List ItemHash
  syncItemType : ℕ
  totalNumberOfUnfetchedItems : ℕ
  hardForkBlockNumbers : List ℕ
  messageCache : BlockchainTiedMessageCache Message MessagePropagationData
  lastReportedNumberOfConnections : ℕ
  handleMessageCallsInProgress : List HandleMessageCall
  /-- The number of the next call. -/
  nextCall : ℕ
  messageIdsCurrentlyBeingProcessed : Finset ItemHash
  /-- The messages that the node has sent, in order. -/
  sent : List (PeerId × Message)

/-- A node without connections. -/
def NetNode.initial (config : NodeConfiguration) (nodeId : ℕ) (now : TimePoint) : NetNode where
  config := config
  now := now
  nodeId := nodeId
  peers _ := .initial
  nextPeer := 0
  handshakingConnections := []
  activeConnections := []
  closingConnections := []
  terminatingConnections := []
  activeSyncRequests := ∅
  newReceivedSyncItems := []
  receivedSyncItems := []
  suspendFetchingSyncBlocks := false
  itemsToFetch := []
  itemsToFetchSequenceCounter := 0
  recentlyFailedItems := []
  newInventory := []
  mostRecentBlocksAccepted := []
  syncItemType := 0
  totalNumberOfUnfetchedItems := 0
  hardForkBlockNumbers := []
  messageCache := .empty
  lastReportedNumberOfConnections := 0
  handleMessageCallsInProgress := []
  nextCall := 0
  messageIdsCurrentlyBeingProcessed := ∅
  sent := []

/-- A change of what the node knows about one connection. -/
def NetNode.onPeer (n : NetNode) (p : PeerId) (f : PeerConnection → PeerConnection) : NetNode :=
  { n with peers := Function.update n.peers p (f (n.peers p)) }

/-- A change of a peer changes it. -/
theorem NetNode.onPeer_self (n : NetNode) (p : PeerId) (f : PeerConnection → PeerConnection) :
    (n.onPeer p f).peers p = f (n.peers p) :=
  Function.update_self ..

/-- A change of a peer leaves the others. -/
theorem NetNode.onPeer_of_ne (n : NetNode) {p q : PeerId} (h : q ≠ p)
    (f : PeerConnection → PeerConnection) : (n.onPeer p f).peers q = n.peers q :=
  Function.update_of_ne h ..

/-- `send_message` -/
def NetNode.send (n : NetNode) (p : PeerId) (m : Message) : NetNode :=
  { n.onPeer p fun c => { c with lastMessageSentTime := n.now } with sent := n.sent ++ [(p, m)] }

/-- The capacity of `_most_recent_blocks_accepted`, `GRAPHENE_NET_DEFAULT_MAX_CONNECTIONS`. -/
def recentBlocksCapacity : ℕ := 200

/-- `_most_recent_blocks_accepted.push_back` -/
def NetNode.pushAccepted (n : NetNode) (id : ItemHash) : NetNode :=
  { n with
    mostRecentBlocksAccepted :=
      let ids := n.mostRecentBlocksAccepted ++ [id]
      ids.drop (ids.length - recentBlocksCapacity) }

/-- `have_already_received_sync_item` -/
def NetNode.haveAlreadyReceivedSyncItem (n : NetNode) (id : ItemHash) : Bool :=
  n.receivedSyncItems.any (fun m => m.blockId = id) ||
    n.newReceivedSyncItems.any (fun m => m.blockId = id)

/-- `unordered_set::insert` -/
def insertNew (p : PeerId) (l : List PeerId) : List PeerId := if p ∈ l then l else p :: l

/-- `move_peer_to_active_list` -/
def NetNode.movePeerToActiveList (p : PeerId) (n : NetNode) : NetNode :=
  { n with
    activeConnections := insertNew p n.activeConnections
    handshakingConnections := n.handshakingConnections.filter (· ≠ p)
    closingConnections := n.closingConnections.filter (· ≠ p)
    terminatingConnections := n.terminatingConnections.filter (· ≠ p) }

/-- `move_peer_to_closing_list` -/
def NetNode.movePeerToClosingList (p : PeerId) (n : NetNode) : NetNode :=
  { n with
    activeConnections := n.activeConnections.filter (· ≠ p)
    handshakingConnections := n.handshakingConnections.filter (· ≠ p)
    closingConnections := insertNew p n.closingConnections
    terminatingConnections := n.terminatingConnections.filter (· ≠ p) }

/-- `move_peer_to_terminating_list` -/
def NetNode.movePeerToTerminatingList (p : PeerId) (n : NetNode) : NetNode :=
  { n with
    activeConnections := n.activeConnections.filter (· ≠ p)
    handshakingConnections := n.handshakingConnections.filter (· ≠ p)
    closingConnections := n.closingConnections.filter (· ≠ p)
    terminatingConnections := insertNew p n.terminatingConnections }

/-- `is_hard_fork_block` -/
def NetNode.isHardForkBlock (n : NetNode) (blockNumber : ℕ) : Bool :=
  blockNumber ∈ n.hardForkBlockNumbers

/-- `get_next_known_hard_fork_block_number`, of numbers in ascending order. -/
def NetNode.getNextKnownHardForkBlockNumber (n : NetNode) (blockNumber : ℕ) : ℕ :=
  (n.hardForkBlockNumbers.find? fun number => blockNumber < number).getD 0

/-- `calculate_unsynced_block_count_from_all_peers` -/
def NetNode.calculateUnsyncedBlockCountFromAllPeers (n : NetNode) : ℕ :=
  n.activeConnections.foldl (fun most p => max most
    (((n.peers p).idsOfItemsToGet.length + (n.peers p).numberOfUnfetchedItemIds) % 2 ^ 32)) 0

/-- `is_item_in_any_peers_inventory` -/
def NetNode.isItemInAnyPeersInventory (n : NetNode) (item : ItemId) : Bool :=
  n.activeConnections.any fun p => (n.peers p).inventoryPeerAdvertisedToUs.has item

end Nodes

end Whaleshares.Peers
