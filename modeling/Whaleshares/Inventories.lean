import Whaleshares.NetworkRuns

/-!
# What the node advertises and fetches

A round of the loop that advertises items tells every active peer that is in sync with the node
about exactly the new items that neither side has told the other about. A round of the loop that
fetches items asks an idle peer for an item that the peer has advertised, the items in the order of
their priority, so that an item is left over only when every peer that could give it has been asked
for an item of higher priority.
-/

namespace Whaleshares.Inventories

open Config Fc Protocol MessageCache Peers Cooperation SyncTasks InventoryTasks NetworkTasks
  NetworkSteps NetworkRuns

section Groups

variable {items : List ItemId}

/-- The items are grouped by their types, each group in their order. -/
theorem mem_groupByType {group : ℕ × List ItemHash} : group ∈ groupByType items ↔
    (∃ item ∈ items, item.itemType = group.1) ∧
      group.2 = (items.filter fun item => item.itemType = group.1).map (·.itemHash) := by
  unfold groupByType
  simp only [List.mem_map, List.mem_insertionSort, List.mem_dedup]
  constructor
  · rintro ⟨itemType, ⟨item, hitem, rfl⟩, rfl⟩
    exact ⟨⟨item, hitem, rfl⟩, rfl⟩
  · rintro ⟨⟨item, hitem, htype⟩, hhashes⟩
    exact ⟨group.1, ⟨item, hitem, htype⟩, Prod.ext rfl hhashes.symm⟩

/-- The groups hold the items that were put into groups. -/
theorem exists_group_iff (item : ItemId) :
    (∃ hashes, (item.itemType, hashes) ∈ groupByType items ∧ item.itemHash ∈ hashes) ↔
      item ∈ items := by
  constructor
  · rintro ⟨hashes, hgroup, hhash⟩
    have hhashes := (mem_groupByType.mp hgroup).2
    dsimp only at hhashes
    rw [hhashes] at hhash
    obtain ⟨other, hother, hsame⟩ := List.mem_map.mp hhash
    obtain ⟨hmem, htype⟩ := List.mem_filter.mp hother
    have heq : other = item := by
      cases other
      cases item
      simp_all
    exact heq ▸ hmem
  · intro hitem
    refine ⟨(items.filter fun other => other.itemType = item.itemType).map (·.itemHash),
      mem_groupByType.mpr ⟨⟨item, hitem, rfl⟩, rfl⟩, ?_⟩
    exact List.mem_map.mpr ⟨item, List.mem_filter.mpr ⟨hitem, by simp⟩, rfl⟩

/-- A loop that sends to one peer sends one message for each element. -/
theorem sent_foldl_send (p : PeerId) {α : Type} (message : α → Message) (l : List α)
    (n : NetNode) : (l.foldl (fun n x => n.send p (message x)) n).sent =
      n.sent ++ l.map fun x => (p, message x) := by
  induction l generalizing n with
  | nil => simp
  | cons x rest ih =>
    rw [List.foldl_cons, ih, List.map_cons]
    simp [NetNode.send]

/-- A loop that sends to one peer leaves the others. -/
theorem peers_foldl_send {p q : PeerId} (h : q ≠ p) {α : Type} (message : α → Message)
    (l : List α) (n : NetNode) :
    (l.foldl (fun n x => n.send p (message x)) n).peers q = n.peers q := by
  induction l generalizing n with
  | nil => rfl
  | cons x rest ih =>
    rw [List.foldl_cons, ih]
    simp [NetNode.send, NetNode.onPeer, h]

end Groups

section Advertising

variable {env : NetEnv} {n : NetNode} {p : PeerId} {item : ItemId}

/-- The items that a round advertises to an active peer. -/
def newsFor (c : PeerConnection) (inventory : List ItemId) : List ItemId :=
  if c.peerNeedsSyncItemsFromUs then [] else itemsToAdvertise c inventory

/-- The messages that a round sends to an active peer. -/
def inventoryMessages (c : PeerConnection) (inventory : List ItemId) (p : PeerId) :
    List (PeerId × Message) :=
  (groupByType (newsFor c inventory)).map fun group => (p, .itemIdsInventory group.1 group.2)

/-- Advertising to a peer sends it the messages with its news. -/
theorem sent_advertiseTo (inventory : List ItemId) (n : NetNode) (p : PeerId) :
    (advertiseTo inventory n p).sent = n.sent ++ inventoryMessages (n.peers p) inventory p := by
  unfold advertiseTo
  rw [sent_foldl_send]
  rfl

/-- Advertising to a peer leaves the others. -/
theorem peers_advertiseTo {q : PeerId} (h : q ≠ p) (inventory : List ItemId) (n : NetNode) :
    (advertiseTo inventory n p).peers q = n.peers q := by
  unfold advertiseTo
  rw [peers_foldl_send h, NetNode.onPeer_of_ne n h]

/-- The peers of the loop are different, so that each is told what is new to it. -/
theorem sent_advertise (inventory : List ItemId) {peers : List PeerId} (hnodup : peers.Nodup)
    (n : NetNode) : (peers.foldl (advertiseTo inventory) n).sent =
      n.sent ++ peers.flatMap fun p => inventoryMessages (n.peers p) inventory p := by
  induction peers generalizing n with
  | nil => simp
  | cons p rest ih =>
    obtain ⟨hp, hrest⟩ := List.nodup_cons.mp hnodup
    have hothers : (rest.flatMap fun q =>
        inventoryMessages ((advertiseTo inventory n p).peers q) inventory q) =
          rest.flatMap fun q => inventoryMessages (n.peers q) inventory q := by
      refine List.flatMap_congr fun q hq => ?_
      have hne : q ≠ p := fun heq => hp (heq ▸ hq)
      rw [peers_advertiseTo hne]
    rw [List.foldl_cons, ih hrest, sent_advertiseTo, hothers, List.flatMap_cons, List.append_assoc]

/-- The news for a peer are the new items that neither side has told the other about. -/
theorem mem_newsFor {c : PeerConnection} {inventory : List ItemId} :
    item ∈ newsFor c inventory ↔ c.peerNeedsSyncItemsFromUs = false ∧ item ∈ inventory ∧
      c.inventoryAdvertisedToPeer.has item = false ∧
      c.inventoryPeerAdvertisedToUs.has item = false := by
  unfold newsFor itemsToAdvertise
  split
  next hsync => simp [hsync]
  next hsync => simp [hsync, List.mem_filter]

variable {w : Network}

/-- A round of the loop that advertises items sends inventory messages only. It tells a peer about
an item if and only if the peer is active and in sync, the item is new, and neither side has told
the other about it. -/
theorem advertised_iff (h : Reachable env w) :
    ∃ messages, (advertiseInventory w.state).sent = w.state.sent ++ messages ∧
      (∀ p m, (p, m) ∈ messages → ∃ itemType hashes, m = .itemIdsInventory itemType hashes) ∧
      ∀ p item, (∃ hashes, (p, .itemIdsInventory item.itemType hashes) ∈ messages ∧
        item.itemHash ∈ hashes) ↔
          p ∈ w.state.activeConnections ∧ (w.state.peers p).peerNeedsSyncItemsFromUs = false ∧
            item ∈ w.state.newInventory ∧
            (w.state.peers p).inventoryAdvertisedToPeer.has item = false ∧
            (w.state.peers p).inventoryPeerAdvertisedToUs.has item = false := by
  refine ⟨w.state.activeConnections.flatMap fun p =>
    inventoryMessages (w.state.peers p) w.state.newInventory p, ?_, fun p m hm => ?_,
    fun p item => ?_⟩
  · exact sent_advertise w.state.newInventory h.kept.inv.active { w.state with newInventory := [] }
  · obtain ⟨q, -, hq⟩ := List.mem_flatMap.mp hm
    obtain ⟨group, -, heq⟩ := List.mem_map.mp hq
    exact ⟨group.1, group.2, (congrArg Prod.snd heq).symm⟩
  · rw [← mem_newsFor, ← exists_group_iff]
    constructor
    · rintro ⟨hashes, hmem, hhash⟩
      obtain ⟨q, hq, hmem⟩ := List.mem_flatMap.mp hmem
      obtain ⟨group, hgroup, heq⟩ := List.mem_map.mp hmem
      obtain ⟨rfl, hmessage⟩ := Prod.mk.inj heq
      obtain ⟨htype, hhashes⟩ := Message.itemIdsInventory.inj hmessage
      refine ⟨hq, hashes, ?_, hhash⟩
      rw [← htype, ← hhashes]
      exact hgroup
    · rintro ⟨hp, hashes, hgroup, hhash⟩
      refine ⟨hashes, List.mem_flatMap.mpr ⟨p, hp, ?_⟩, hhash⟩
      exact List.mem_map.mpr ⟨_, hgroup, rfl⟩

/-- The peer has asked for the blocks of a node that has none. -/
def inSync : Network :=
  NetworkRuns.resume newClient (.reader 0) (joined.run (.reader 0)
    (handleMessage plainEnv 0 (.fetchBlockchainItemIds blockMessageType [])))

/-- The client broadcasts a message. -/
def withNews : Network :=
  inSync.run .outside (Task.change fun n =>
    broadcast plainEnv (.ordinary 7 []) ⟨n.now, n.now, n.nodeId⟩ n)

/-- What the steps find: an active peer in sync, and nobody has told about the message. -/
theorem withNews_finds :
    0 ∈ joined.state.activeConnections ∧ (inSync.waiting .outside).isNone ∧
      0 ∈ withNews.state.activeConnections ∧
      (withNews.state.peers 0).peerNeedsSyncItemsFromUs = false ∧
      ⟨7, .null⟩ ∈ withNews.state.newInventory ∧
      (withNews.state.peers 0).inventoryAdvertisedToPeer.has ⟨7, .null⟩ = false ∧
      (withNews.state.peers 0).inventoryPeerAdvertisedToUs.has ⟨7, .null⟩ = false := by
  decide +kernel

/-- The small world with news is reachable. -/
theorem withNews_reachable : Reachable plainEnv withNews := by
  obtain ⟨hjoined, hfree, -⟩ := withNews_finds
  have hinSync : Reachable plainEnv inSync :=
    (joined_reachable.begin joined_free (.message 0 _ (.inl hjoined))).resume ..
  exact hinSync.begin (Option.isNone_iff_eq_none.mp hfree) (.broadcast (.ordinary 7 []))

/-- The peer is told about the message. -/
theorem advertised_iff_withNews :
    ∃ messages, (advertiseInventory withNews.state).sent = withNews.state.sent ++ messages ∧
      ∃ hashes, (0, .itemIdsInventory 7 hashes) ∈ messages ∧ (.null : ItemHash) ∈ hashes := by
  obtain ⟨messages, hsent, -, hiff⟩ := advertised_iff withNews_reachable
  obtain ⟨-, -, hnews⟩ := withNews_finds
  exact ⟨messages, hsent, (hiff 0 ⟨7, .null⟩).mpr hnews⟩

end Advertising

section Fetching

variable {env : NetEnv} {n : NetNode} {r : FetchRound} {p : PeerId} {e : PrioritizedItemId}
  {l earlier : List PrioritizedItemId}

/-- An item that nobody has named for so long that it is given up. -/
def Stale (n : NetNode) (e : PrioritizedItemId) : Prop := e.timestamp < oldestTimestampToFetch n

/-- A peer that could give an item. -/
def Offers (n : NetNode) (item : ItemId) (p : PeerId) : Prop :=
  (n.peers p).inventoryPeerAdvertisedToUs.has item = true ∧
    ¬ (item.itemType = trxMessageType ∧
      (n.peers p).isTransactionFetchingInhibited n.now = true)

/-- A peer that may be asked for an item. -/
def Idle (n : NetNode) (p : PeerId) : Prop :=
  p ∈ n.activeConnections ∧ (n.peers p).idle = true

/-- What a round of the loop has done with the items up to one of them. -/
structure Progress (n : NetNode) (earlier : List PrioritizedItemId) (r : FetchRound) : Prop where
  now : r.node.now = n.now
  sent : r.node.sent = n.sent
  inventory : ∀ p, (r.node.peers p).inventoryPeerAdvertisedToUs =
    (n.peers p).inventoryPeerAdvertisedToUs
  inhibited : ∀ p, (r.node.peers p).transactionFetchingInhibitedUntil =
    (n.peers p).transactionFetchingInhibitedUntil
  idle : ∀ p, p ∈ r.itemsByPeer.map Prod.fst ↔ Idle n p
  once : (r.itemsByPeer.map Prod.fst).Nodup
  /-- A peer is asked for nothing, or for one of the items. -/
  given : ∀ entry ∈ r.itemsByPeer, entry.2 = [] ∨
    ∃ e ∈ earlier, entry.2 = [e.item] ∧ ¬ Stale n e ∧ Offers n e.item entry.1
  kept : ∀ e ∈ r.kept, e ∈ earlier

/-- A peer may be asked if it was not yet and offers the item. -/
theorem mayFetch_iff (h : Progress n earlier r) {item : ItemId} {entry : PeerId × List ItemId} :
    mayFetch r.node item entry = true ↔ entry.2 = [] ∧ Offers n item entry.1 := by
  unfold mayFetch Offers PeerConnection.isTransactionFetchingInhibited
  rw [h.now, h.inventory, h.inhibited]
  simp only [maxItemsPerPeer, Nat.lt_one_iff, List.length_eq_zero_iff, Bool.and_eq_true,
    decide_eq_true_eq, Bool.not_eq_true', Bool.and_eq_false_iff, decide_eq_false_iff_not]
  tauto

/-- A round starts with the idle peers, and none of them asked. -/
theorem Progress.initial (hn : Orderly n) : Progress n []
    ⟨n, (n.activeConnections.filter fun p => (n.peers p).idle).map fun p => (p, []), []⟩ := by
  refine ⟨rfl, rfl, fun _ => rfl, fun _ => rfl, fun p => ?_, ?_, fun entry hentry => ?_, nofun⟩
  · simp [Idle]
  · rw [List.map_map]
    exact (hn.active.filter _).map fun _ _ h => h
  · obtain ⟨p, -, rfl⟩ := List.mem_map.mp hentry
    exact .inl rfl

/-- The entry of the peer that is asked for an item. -/
theorem giveItem_perm (h : Progress n earlier r) {entry : PeerId × List ItemId}
    (hentry : entry ∈ r.itemsByPeer) (hempty : entry.2 = []) (item : ItemId) :
    ∃ others, r.itemsByPeer.Perm (entry :: others) ∧
      (giveItem entry.1 item r.itemsByPeer).Perm ((entry.1, [item]) :: others) := by
  obtain ⟨before, items, later, hl, hperm⟩ := giveItem_spec item (List.mem_map_of_mem hentry)
  have hitems : (entry.1, items) = entry := by
    have hmem : (entry.1, items) ∈ r.itemsByPeer := by
      rw [hl]
      exact List.mem_append_right _ List.mem_cons_self
    exact List.inj_on_of_nodup_map h.once hmem hentry rfl
  have hnone : items = [] := by
    rw [← hitems] at hempty
    exact hempty
  rw [hnone] at hperm
  refine ⟨before ++ later, ?_, hperm⟩
  rw [hl, hitems]
  exact List.perm_middle

/-- A further item keeps the progress. -/
theorem Progress.weaken (h : Progress n earlier r) (e : PrioritizedItemId) :
    Progress n (earlier ++ [e]) r := by
  refine ⟨h.now, h.sent, h.inventory, h.inhibited, h.idle, h.once, fun entry hentry => ?_,
    fun x hx => List.mem_append_left _ (h.kept x hx)⟩
  refine (h.given entry hentry).imp_right fun hgiven => ?_
  obtain ⟨x, hx, hrest⟩ := hgiven
  exact ⟨x, List.mem_append_left _ hx, hrest⟩

/-- An item that is given to a peer with nothing keeps the progress. -/
theorem Progress.give (h : Progress n earlier r) (hfresh : ¬ Stale n e)
    {entry : PeerId × List ItemId} (hentry : entry ∈ r.itemsByPeer) (hempty : entry.2 = [])
    (hoffers : Offers n e.item entry.1) : Progress n (earlier ++ [e]) { r with
      node := r.node.onPeer entry.1 (requestItem e.item r.node.now)
      itemsByPeer := giveItem entry.1 e.item r.itemsByPeer } := by
  obtain ⟨others, hold, hnew⟩ := giveItem_perm h hentry hempty e.item
  have hkeys : ((giveItem entry.1 e.item r.itemsByPeer).map Prod.fst).Perm
      (r.itemsByPeer.map Prod.fst) := (hnew.map Prod.fst).trans (hold.map Prod.fst).symm
  have hpeer : ∀ q, ((r.node.onPeer entry.1 (requestItem e.item r.node.now)).peers q) =
      if q = entry.1 then requestItem e.item r.node.now (r.node.peers q) else r.node.peers q := by
    intro q
    split
    next hq => rw [hq, NetNode.onPeer_self]
    next hq => rw [NetNode.onPeer_of_ne _ hq]
  refine ⟨h.now, h.sent, fun q => ?_, fun q => ?_, fun q => ?_, hkeys.nodup_iff.mpr h.once,
    fun x hx => ?_, fun x hx => List.mem_append_left _ (h.kept x hx)⟩
  · rw [hpeer q, ← h.inventory q]
    split <;> rfl
  · rw [hpeer q, ← h.inhibited q]
    split <;> rfl
  · rw [hkeys.mem_iff]
    exact h.idle q
  · rcases List.mem_cons.mp (hnew.mem_iff.mp hx) with rfl | hx
    · exact .inr ⟨e, by simp, rfl, hfresh, hoffers⟩
    · exact (h.weaken e).given x (hold.mem_iff.mpr (List.mem_cons_of_mem _ hx))

/-- An item that is kept for later keeps the progress. -/
theorem Progress.keep (h : Progress n earlier r) (e : PrioritizedItemId) :
    Progress n (earlier ++ [e]) { r with kept := r.kept ++ [e] } := by
  have hweak := h.weaken e
  refine ⟨hweak.now, hweak.sent, hweak.inventory, hweak.inhibited, hweak.idle, hweak.once, hweak.given,
    fun x hx => ?_⟩
  rcases List.mem_append.mp hx with hx | hx
  · exact hweak.kept x hx
  · exact List.mem_append_right _ hx

/-- The step lemma: an item is given up, given to a peer, or kept because no peer may have it. -/
inductive Considered (n : NetNode) (r : FetchRound) (e : PrioritizedItemId) : FetchRound → Prop
  | stale (h : Stale n e) : Considered n r e r
  | given (entry : PeerId × List ItemId) (hfresh : ¬ Stale n e) (hentry : entry ∈ r.itemsByPeer)
      (hempty : entry.2 = []) (hoffers : Offers n e.item entry.1) : Considered n r e { r with
        node := r.node.onPeer entry.1 (requestItem e.item r.node.now)
        itemsByPeer := giveItem entry.1 e.item r.itemsByPeer }
  | kept (hfresh : ¬ Stale n e)
      (hnone : ∀ entry ∈ r.itemsByPeer, Offers n e.item entry.1 → entry.2 ≠ []) :
    Considered n r e { r with kept := r.kept ++ [e] }

/-- The loop gives up, gives away or keeps every item that it looks at. -/
theorem considered (h : Progress n earlier r) (e : PrioritizedItemId) :
    Considered n r e (r.consider e) := by
  have hold : oldestTimestampToFetch r.node = oldestTimestampToFetch n := by
    unfold oldestTimestampToFetch
    rw [h.now]
  unfold FetchRound.consider
  rw [hold]
  by_cases hstale : e.timestamp < oldestTimestampToFetch n
  · rw [if_pos hstale]
    exact .stale hstale
  · rw [if_neg hstale]
    cases hfound : r.itemsByPeer.find? (mayFetch r.node e.item) with
    | some entry =>
      obtain ⟨hempty, hoffers⟩ := (mayFetch_iff h).mp (List.find?_some hfound)
      exact .given entry hstale (List.mem_of_find?_eq_some hfound) hempty hoffers
    | none =>
      refine .kept hstale fun entry hentry hoffers hempty => ?_
      exact List.find?_eq_none.mp hfound entry hentry ((mayFetch_iff h).mpr ⟨hempty, hoffers⟩)

/-- Each item that is considered keeps the progress. -/
theorem Considered.progress {r' : FetchRound} (hc : Considered n r e r')
    (h : Progress n earlier r) : Progress n (earlier ++ [e]) r' := by
  cases hc with
  | stale hstale => exact h.weaken e
  | given entry hfresh hentry hempty hoffers => exact h.give hfresh hentry hempty hoffers
  | kept hfresh hnone => exact h.keep e

/-- A peer that was asked for an item keeps it to the end of the round. -/
theorem Considered.asked {r' : FetchRound} (hc : Considered n r e r') (h : Progress n earlier r)
    {p : PeerId} {item : ItemId} (hasked : (p, [item]) ∈ r.itemsByPeer) :
    (p, [item]) ∈ r'.itemsByPeer := by
  cases hc with
  | stale hstale => exact hasked
  | given entry hfresh hentry hempty hoffers =>
    obtain ⟨others, hold, hnew⟩ := giveItem_perm h hentry hempty e.item
    refine hnew.mem_iff.mpr (List.mem_cons_of_mem _ ?_)
    rcases List.mem_cons.mp (hold.mem_iff.mp hasked) with heq | hmem
    · rw [← heq] at hempty
      cases hempty
    · exact hmem
  | kept hfresh hnone => exact hasked

/-- What is kept for later stays kept. -/
theorem Considered.kept_mem {r' : FetchRound} (hc : Considered n r e r')
    {x : PrioritizedItemId} : x ∈ r.kept → x ∈ r'.kept := by
  intro hx
  cases hc with
  | stale hstale => exact hx
  | given entry hfresh hentry hempty hoffers => exact hx
  | kept hfresh hnone => exact List.mem_append_left _ hx

/-- The run lemma: what a round does up to an item stays done. -/
theorem Progress.run (h : Progress n earlier r) (l : List PrioritizedItemId) :
    Progress n (earlier ++ l) (l.foldl FetchRound.consider r) ∧
      (∀ p item, (p, [item]) ∈ r.itemsByPeer →
        (p, [item]) ∈ (l.foldl FetchRound.consider r).itemsByPeer) ∧
      ∀ x ∈ r.kept, x ∈ (l.foldl FetchRound.consider r).kept := by
  induction l generalizing earlier r with
  | nil => exact ⟨(List.append_nil earlier).symm ▸ h, fun _ _ hasked => hasked, fun _ hx => hx⟩
  | cons e rest ih =>
    have hstep := considered h e
    obtain ⟨hprogress, hasked, hkept⟩ := ih (hstep.progress h)
    rw [List.append_assoc, List.singleton_append] at hprogress
    exact ⟨hprogress, fun p item hmem => hasked p item (hstep.asked h hmem),
      fun x hx => hkept x (hstep.kept_mem hx)⟩

/-- The messages that ask the peers for the items that the round gives them. -/
def fetchMessages (byPeer : List (PeerId × List ItemId)) : List (PeerId × Message) :=
  byPeer.flatMap fun entry =>
    entry.2.map fun item => (entry.1, .fetchItems item.itemType [item.itemHash])

/-- A list of one item makes a single group. -/
@[simp] theorem groupByType_singleton (item : ItemId) :
    groupByType [item] = [(item.itemType, [item.itemHash])] := by
  simp [groupByType]

/-- A peer gets a message of its own for the item that it is asked for. -/
theorem sent_sendFetches {byPeer : List (PeerId × List ItemId)}
    (h : ∀ entry ∈ byPeer, entry.2 = [] ∨ ∃ item, entry.2 = [item]) (n : NetNode) :
    (sendFetches byPeer n).sent = n.sent ++ fetchMessages byPeer := by
  unfold sendFetches fetchMessages
  induction byPeer generalizing n with
  | nil => simp
  | cons entry rest ih =>
    have hrest := ih fun x hx => h x (List.mem_cons_of_mem entry hx)
    rw [List.foldl_cons, hrest, List.flatMap_cons, ← List.append_assoc]
    refine congrArg (· ++ _) ?_
    rcases h entry List.mem_cons_self with hnone | ⟨item, hitem⟩
    · rw [hnone]
      simp [groupByType]
    · rw [hitem, groupByType_singleton]
      rfl

/-- At the end of the round a peer has at most one item. -/
theorem Progress.single (h : Progress n earlier r) {entry : PeerId × List ItemId}
    (hentry : entry ∈ r.itemsByPeer) : entry.2 = [] ∨ ∃ item, entry.2 = [item] :=
  (h.given entry hentry).imp_right fun ⟨e, _, hitem, _⟩ => ⟨e.item, hitem⟩

/-- The messages of the round are the requests that it has planned. -/
theorem Progress.sent_fetches (h : Progress n earlier r) (l : List PrioritizedItemId) :
    (sendFetches r.itemsByPeer { r.node with itemsToFetch := l }).sent =
      n.sent ++ fetchMessages r.itemsByPeer := by
  rw [sent_sendFetches fun entry => h.single, ← h.sent]

end Fetching

section Priorities

variable {env : NetEnv} {i : TaskName} {n m : NetNode} {w : Network}

/-- An item is on the list of the items to fetch once. -/
def Distinct (n : NetNode) : Prop := (n.itemsToFetch.map (·.item)).Nodup

/-- An insertion by priority adds the item or finds it there. -/
theorem insertByPriority_perm (a : PrioritizedItemId) (l : List PrioritizedItemId) :
    (insertByPriority a l).Perm (a :: l) ∨ insertByPriority a l = l := by
  induction l with
  | nil => exact .inl (.refl _)
  | cons b rest ih =>
    unfold insertByPriority
    split
    · rcases ih with hperm | heq
      · exact .inl ((hperm.cons b).trans (.swap a b rest))
      · rw [heq]
        exact .inr rfl
    · split
      · exact .inl (.refl _)
      · exact .inr rfl

/-- An item that is queued stays the only one of its kind. -/
theorem Distinct.enqueue (h : Distinct n) (item : ItemId) : Distinct (addToFetch item n) := by
  unfold Distinct addToFetch
  dsimp only
  split
  next => exact h
  next hnew =>
    rcases insertByPriority_perm ⟨item, n.itemsToFetchSequenceCounter, n.now⟩ n.itemsToFetch with
      hperm | heq
    · refine ((hperm.map _).nodup_iff).mpr (List.nodup_cons.mpr ⟨fun hmem => hnew ?_, h⟩)
      obtain ⟨e, he, heq⟩ := List.mem_map.mp hmem
      exact List.any_eq_true.mpr ⟨e, he, by simpa using heq⟩
    · rw [heq]
      exact h

/-- Distinct items depend on the queue alone. -/
theorem Distinct.of_eq (h : Distinct n) (heq : m.itemsToFetch = n.itemsToFetch) : Distinct m := by
  unfold Distinct
  rwa [heq]

/-- Fetching the blocks of the synchronization leaves the queue. -/
theorem itemsToFetch_fetchSyncItems (n : NetNode) :
    (fetchSyncItems n).itemsToFetch = n.itemsToFetch := by
  unfold fetchSyncItems
  split
  · rfl
  · generalize scheduleRequests n n.activeConnections ∅ [] = requests
    clear * -
    induction requests generalizing n with
    | nil => rfl
    | cons r rest ih => exact (ih _).trans rfl

/-- A change of the list keeps the items distinct. -/
theorem Distinct.change (h : Distinct n) (hc : Change i n m) : Distinct m := by
  cases hc with
  | aside hcore => exact h.of_eq hcore.itemsToFetch
  | fetchSync => exact h.of_eq (itemsToFetch_fetchSyncItems n)
  | enqueue item => exact h.enqueue item
  | dequeue l hl =>
    have hsub := hl.map Prod.fst
    rw [List.map_map, List.map_map] at hsub
    exact h.sublist hsub
  | reorder hreorder =>
    refine h.of_eq ?_
    rw [hreorder.rest]
  | _ => exact h

/-- In every reachable world the queued items are distinct. -/
theorem distinct_of_reachable (h : Reachable env w) : Distinct w.state :=
  h.invariant (fun _ _ _ => List.nodup_nil) fun _ _ _ hc hn => hn.change hc

/-- A round of the loop that fetches items gives up the stale ones, and asks one idle peer that has
advertised it for every other item, in the order of their priority. An item is kept exactly when
every idle peer that could give it is asked for an item of higher priority. Only idle peers are
asked, each of them in one message at most and for a single item. -/
theorem fetch_greedy (h : Reachable env w) {before after : List PrioritizedItemId}
    {e : PrioritizedItemId} (hsplit : w.state.itemsToFetch = before ++ e :: after) :
    let r := planFetches w.state
    (e ∈ r.kept ↔ ¬ Stale w.state e ∧ ∀ p, Idle w.state p → Offers w.state e.item p →
      ∃ earlier ∈ before, (p, [earlier.item]) ∈ r.itemsByPeer) ∧
    (¬ Stale w.state e → e ∉ r.kept → ∃ p, (p, [e.item]) ∈ r.itemsByPeer) ∧
    (∀ p, (p, [e.item]) ∈ r.itemsByPeer → ¬ Stale w.state e ∧ Idle w.state p ∧
      Offers w.state e.item p) ∧
    (r.itemsByPeer.map Prod.fst).Nodup ∧
    (∀ entry ∈ r.itemsByPeer, Idle w.state entry.1 ∧ entry.2.length ≤ 1) ∧
    (fetchItems w.state).sent = w.state.sent ++ fetchMessages r.itemsByPeer := by
  have hn := h.kept.inv
  have hdistinct := distinct_of_reachable h
  generalize w.state = n at *
  unfold fetchItems
  unfold Distinct at hdistinct
  rw [hsplit] at hdistinct
  have hsame : ∀ x ∈ before ++ e :: after, x.item = e.item → x = e := fun x hx hitem =>
    List.inj_on_of_nodup_map hdistinct hx (by simp) hitem
  obtain ⟨hbefore, hafter⟩ : e ∉ before ∧ e ∉ after := by
    have hmiddle := List.nodup_cons.mp (List.perm_middle.nodup_iff.mp (hdistinct.of_map _))
    exact ⟨fun hx => hmiddle.1 (List.mem_append_left _ hx),
      fun hx => hmiddle.1 (List.mem_append_right _ hx)⟩
  -- the round up to the item, the item, and the rest of the round
  obtain ⟨hfirst, -, -⟩ := (Progress.initial hn).run before
  rw [List.nil_append] at hfirst
  have hplan : planFetches n = after.foldl FetchRound.consider ((before.foldl FetchRound.consider
      ⟨n, (n.activeConnections.filter fun p => (n.peers p).idle).map fun p => (p, []), []⟩).consider
        e) := by
    unfold planFetches
    rw [hsplit, List.foldl_append, List.foldl_cons]
  have hstep := considered hfirst e
  rw [hplan]
  generalize before.foldl FetchRound.consider _ = r₁ at *
  generalize r₁.consider e = r₂ at *
  obtain ⟨hlast, hasked, hkept⟩ := (hstep.progress hfirst).run after
  have hkeptBack : e ∈ (after.foldl FetchRound.consider r₂).kept → e ∈ r₂.kept := fun hmem =>
    (List.mem_append.mp ((kept_sublist r₂ after).subset hmem)).resolve_right hafter
  generalize after.foldl FetchRound.consider r₂ = r₃ at *
  have hgiven : ∀ p, (p, [e.item]) ∈ r₃.itemsByPeer → ¬ Stale n e ∧ Idle n p ∧
      Offers n e.item p := by
    intro p hmem
    obtain ⟨x, hx, hitem, hfresh, hoffers⟩ := (hlast.given _ hmem).resolve_left (by simp)
    have hxe : x = e := by
      refine hsame x ?_ (List.cons.inj hitem).1.symm
      rwa [List.append_assoc, List.singleton_append] at hx
    rw [hxe] at hfresh hoffers
    exact ⟨hfresh, (hlast.idle p).mp (List.mem_map_of_mem hmem), hoffers⟩
  refine ⟨⟨fun hmem => ?_, fun hall => ?_⟩, fun hfresh hnot => ?_, hgiven, hlast.once,
    fun entry hentry => ⟨(hlast.idle entry.1).mp (List.mem_map_of_mem hentry), ?_⟩,
    hlast.sent_fetches _⟩
  · have hmem₂ := hkeptBack hmem
    cases hstep with
    | stale hstale => exact absurd (hfirst.kept e hmem₂) hbefore
    | given entry hfresh hentry hempty hoffers => exact absurd (hfirst.kept e hmem₂) hbefore
    | kept hfresh hnone =>
      refine ⟨hfresh, fun p hidle hoffers => ?_⟩
      obtain ⟨entry, hentry, rfl⟩ := List.mem_map.mp ((hfirst.idle p).mpr hidle)
      obtain ⟨x, hx, hitems, -⟩ :=
        (hfirst.given entry hentry).resolve_left (hnone entry hentry hoffers)
      refine ⟨x, hx, hasked entry.1 x.item ?_⟩
      rw [← hitems]
      exact hentry
  · obtain ⟨hfresh, hall⟩ := hall
    cases hstep with
    | stale hstale => exact absurd hstale hfresh
    | given entry hfresh' hentry hempty hoffers =>
      obtain ⟨others, -, hnew⟩ := giveItem_perm hfirst hentry hempty e.item
      have hgot : (entry.1, [e.item]) ∈ r₃.itemsByPeer :=
        hasked entry.1 e.item (hnew.mem_iff.mpr List.mem_cons_self)
      have hidle := (hfirst.idle entry.1).mp (List.mem_map_of_mem hentry)
      obtain ⟨x, hx, hgot'⟩ := hall entry.1 hidle hoffers
      have heq := List.inj_on_of_nodup_map hlast.once hgot' hgot rfl
      have hxe : x = e := by
        refine hsame x (List.mem_append_left _ hx) ?_
        exact (List.cons.inj (Prod.mk.inj heq).2).1
      exact absurd (hxe ▸ hx) hbefore
    | kept hfresh' hnone => exact hkept e (List.mem_append_right _ List.mem_cons_self)
  · cases hstep with
    | stale hstale => exact absurd hstale hfresh
    | given entry hfresh' hentry hempty hoffers =>
      obtain ⟨others, -, hnew⟩ := giveItem_perm hfirst hentry hempty e.item
      exact ⟨entry.1, hasked entry.1 e.item (hnew.mem_iff.mpr List.mem_cons_self)⟩
    | kept hfresh' hnone =>
      exact absurd (hkept e (List.mem_append_right _ List.mem_cons_self)) hnot
  · rcases hlast.single hentry with hnone | ⟨item, hitem⟩
    · simp [hnone]
    · simp [hitem]

/-- The peer has no blocks. -/
def settled : Network :=
  NetworkRuns.resume newClient (.reader 0) (joined.run (.reader 0)
    (handleMessage plainEnv 0 (.blockchainItemIdsInventory 0 blockMessageType [])))

/-- The peer has told about two transactions. -/
def hinted : Network :=
  settled.run (.reader 0)
    (handleMessage plainEnv 0 (.itemIdsInventory trxMessageType [⟨0, 1⟩, ⟨0, 2⟩]))

/-- The small world with two hints is reachable. -/
theorem hinted_reachable : Reachable plainEnv hinted := by
  have hfinds : 0 ∈ joined.state.activeConnections ∧ (settled.waiting (.reader 0)).isNone ∧
      0 ∈ settled.state.activeConnections := by decide +kernel
  obtain ⟨hjoined, hfree, hsettledActive⟩ := hfinds
  have hsettled : Reachable plainEnv settled :=
    (joined_reachable.begin joined_free (.message 0 _ (.inl hjoined))).resume ..
  exact hsettled.begin (Option.isNone_iff_eq_none.mp hfree) (.message 0 _ (.inl hsettledActive))

/-- The peer is asked for the first transaction, so that the second one is kept. -/
theorem fetch_greedy_hinted :
    ⟨⟨trxMessageType, ⟨0, 2⟩⟩, 1, 0⟩ ∈ (planFetches hinted.state).kept ∧
      (fetchItems hinted.state).sent =
        hinted.state.sent ++ [(0, .fetchItems trxMessageType [⟨0, 1⟩])] := by
  have hfinds : hinted.state.itemsToFetch = [⟨⟨trxMessageType, ⟨0, 1⟩⟩, 0, 0⟩] ++
      ⟨⟨trxMessageType, ⟨0, 2⟩⟩, 1, 0⟩ :: [] ∧ hinted.state.activeConnections = [0] ∧
      (planFetches hinted.state).itemsByPeer = [(0, [⟨trxMessageType, ⟨0, 1⟩⟩])] ∧
      ¬ (0 < oldestTimestampToFetch hinted.state) := by decide +kernel
  obtain ⟨hsplit, hactive, hplanned, hfresh⟩ := hfinds
  obtain ⟨hkept, -, -, -, -, hsent⟩ := fetch_greedy hinted_reachable hsplit
  rw [hplanned] at hkept hsent
  refine ⟨hkept.mpr ⟨hfresh, fun p hidle _ => ?_⟩, hsent⟩
  have hp : p = 0 := List.mem_singleton.mp (hactive ▸ hidle.1)
  exact ⟨_, List.mem_singleton_self _, hp ▸ List.mem_singleton_self _⟩

end Priorities

end Whaleshares.Inventories
