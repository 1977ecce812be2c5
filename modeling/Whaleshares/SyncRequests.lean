import Whaleshares.NetworkRuns

/-!
# Whom the node has asked for which blocks

A block that the node needs during synchronization is requested from one peer at a time, it is
in the set of the active requests while it is awaited, and it is not requested while it is among
the blocks that have come and wait for the client. A peer is asked for a bounded number of blocks,
or for one item. This holds in every state that the node reaches.

The set of the active requests also holds blocks that nobody is asked for. A peer that answers
that it does not have a block leaves it there for good, and no other peer is ever asked for it as
a block of the synchronization.
-/

namespace Whaleshares.SyncRequests

open Config Fc Protocol MessageCache Peers Cooperation SyncTasks InventoryTasks NetworkTasks
  NetworkSteps NetworkRuns

section Moves

/-- The most blocks that a peer is asked for at one time. -/
def blocksPerPeer (n : NetNode) : ℕ := max 1 n.config.maximumBlocksPerPeerDuringSyncing

/-- A block that is not among those that have come and is not requested. -/
def Fresh (n : NetNode) (id : ItemHash) : Prop :=
  n.haveAlreadyReceivedSyncItem id = false ∧ id ∉ n.activeSyncRequests

/-- No request is made, no active request is dropped, and no block comes. -/
structure Eased (n m : NetNode) : Prop where
  config : m.config = n.config
  sync : ∀ p, (m.peers p).syncItemsRequestedFromPeer ⊆ (n.peers p).syncItemsRequestedFromPeer
  items : ∀ p, (m.peers p).itemsRequestedFromPeer.Sublist (n.peers p).itemsRequestedFromPeer
  active : m.activeSyncRequests = n.activeSyncRequests
  received : ∀ b ∈ receivedBlocks m, b ∈ receivedBlocks n

/-- What a change does to the requests. -/
inductive Moves : NetNode → NetNode → Prop
  | eased {n m : NetNode} (h : Eased n m) : Moves n m
  | ask {n : NetNode} (p : PeerId) (ids : List ItemHash) (hidle : (n.peers p).idle = true)
      (hfew : ids.length ≤ blocksPerPeer n) (hfresh : ∀ id ∈ ids, Fresh n id) :
    Moves n (requestSyncItemsFromPeer n p ids)
  | take {n : NetNode} (p : PeerId) (m : BlockMessage)
      (h : m.blockId ∈ (n.peers p).syncItemsRequestedFromPeer) : Moves n (receiveSyncBlock p m n)
  | free {n : NetNode} (p : PeerId) : Moves n (retire p n)
  | fetch {n : NetNode} (p : PeerId) (item : ItemId) (h : (n.peers p).idle = true) :
    Moves n (n.onPeer p (requestItem item n.now))

variable {n m : NetNode}

/-- A peer is idle exactly if nothing at all is asked of it. -/
theorem idle_iff (c : PeerConnection) : c.idle = true ↔
    c.itemsRequestedFromPeer = [] ∧ c.syncItemsRequestedFromPeer = ∅ ∧
      c.itemIdsRequestedFromPeer = none := by
  simp [PeerConnection.idle, PeerConnection.busy, and_assoc]

/-- A block has not come exactly if none of the received blocks has its id. -/
theorem haveReceived_eq_false_iff (n : NetNode) (id : ItemHash) :
    n.haveAlreadyReceivedSyncItem id = false ↔ ∀ b ∈ receivedBlocks n, b.blockId ≠ id := by
  simp [NetNode.haveAlreadyReceivedSyncItem, receivedBlocks, or_imp, forall_and]

/-- What the requests are eased by depends on the peers, the active requests and the received
blocks. -/
theorem Eased.of_peers (hpeers : m.peers = n.peers) (hconfig : m.config = n.config)
    (hactive : m.activeSyncRequests = n.activeSyncRequests)
    (hreceived : ∀ b ∈ receivedBlocks m, b ∈ receivedBlocks n) : Eased n m := by
  refine ⟨hconfig, fun p => ?_, fun p => ?_, hactive, hreceived⟩
  · rw [hpeers]
  · rw [hpeers]

/-- A change of a peer that only takes away requests eases them. -/
theorem Eased.onPeer (p : PeerId) {f : PeerConnection → PeerConnection}
    (hsync : (f (n.peers p)).syncItemsRequestedFromPeer ⊆
      (n.peers p).syncItemsRequestedFromPeer)
    (hitems : (f (n.peers p)).itemsRequestedFromPeer.Sublist
      (n.peers p).itemsRequestedFromPeer) : Eased n (n.onPeer p f) := by
  refine ⟨rfl, fun q => ?_, fun q => ?_, rfl, fun b hb => hb⟩
  · by_cases hq : q = p
    · subst hq
      rwa [NetNode.onPeer_self]
    · rw [NetNode.onPeer_of_ne n hq]
  · by_cases hq : q = p
    · subst hq
      rwa [NetNode.onPeer_self]
    · rw [NetNode.onPeer_of_ne n hq]

/-- A connection that is new or deleted has no requests. -/
theorem Eased.reset (p : PeerId) {c : PeerConnection} (hsync : c.syncItemsRequestedFromPeer = ∅)
    (hitems : c.itemsRequestedFromPeer = []) : Eased n (n.onPeer p fun _ => c) := by
  refine .onPeer p ?_ ?_
  · rw [hsync]
    exact Finset.empty_subset _
  · rw [hitems]
    exact List.nil_sublist _

/-- A block that comes is no longer requested from its peer. -/
theorem receive_self (p : PeerId) (b : BlockMessage) (n : NetNode) :
    ((receiveSyncBlock p b n).peers p).syncItemsRequestedFromPeer =
        (n.peers p).syncItemsRequestedFromPeer.erase b.blockId ∧
      ((receiveSyncBlock p b n).peers p).itemsRequestedFromPeer =
        (n.peers p).itemsRequestedFromPeer := by
  simp [receiveSyncBlock, NetNode.onPeer]

/-- A block that comes leaves the other peers. -/
theorem receive_of_ne {p q : PeerId} (h : q ≠ p) {b : BlockMessage} :
    (receiveSyncBlock p b n).peers q = n.peers q := by
  simp [receiveSyncBlock, NetNode.onPeer, h]

/-- A request for an item leaves the requested blocks. -/
theorem fetch_sync (n : NetNode) (p : PeerId) (item : ItemId) (q : PeerId) :
    ((n.onPeer p (requestItem item n.now)).peers q).syncItemsRequestedFromPeer =
      (n.peers q).syncItemsRequestedFromPeer := by
  by_cases hq : q = p
  · rw [hq, NetNode.onPeer_self]
    rfl
  · rw [NetNode.onPeer_of_ne n hq]

end Moves

section Schedule

variable {n : NetNode}

/-- The items for one peer are few and fresh, and other peers are not asked for them. -/
theorem itemsToRequest_spec (n : NetNode) (taken : Finset ItemHash) (ids chosen : List ItemHash)
    (hfew : chosen.length + 1 ≤ blocksPerPeer n) :
    (itemsToRequest n taken ids chosen).length ≤ blocksPerPeer n ∧
      ∀ id ∈ itemsToRequest n taken ids chosen, id ∈ chosen ∨ (Fresh n id ∧ id ∉ taken) := by
  induction ids generalizing chosen with
  | nil => exact ⟨Nat.le_of_succ_le hfew, fun id hid => .inl hid⟩
  | cons id rest ih =>
    have hadded : Fresh n id → id ∉ taken → ∀ x ∈ chosen ++ [id],
        x ∈ chosen ∨ (Fresh n x ∧ x ∉ taken) := by
      intro hfresh htaken x hx
      rcases List.mem_append.mp hx with hx | hx
      · exact .inl hx
      · rw [List.mem_singleton.mp hx]
        exact .inr ⟨hfresh, htaken⟩
    unfold itemsToRequest
    split
    next hid =>
      obtain ⟨hreceived, htaken, -, hactive⟩ := hid
      have hnew := hadded ⟨hreceived, hactive⟩ htaken
      split
      next => exact ⟨by rwa [List.length_append], hnew⟩
      next hmore =>
        have hlonger : (chosen ++ [id]).length + 1 ≤ blocksPerPeer n := by
          unfold blocksPerPeer
          rw [List.length_append, List.length_singleton]
          omega
        obtain ⟨hlength, hmem⟩ := ih (chosen ++ [id]) hlonger
        refine ⟨hlength, fun x hx => ?_⟩
        rcases hmem x hx with hx | hx
        · exact hnew x hx
        · exact .inr hx
    next => exact ih chosen hfew

/-- Requests that may be made one after the other. -/
structure Plan (n : NetNode) (requests : List (PeerId × List ItemHash)) : Prop where
  once : (requests.map Prod.fst).Nodup
  idle : ∀ r ∈ requests, (n.peers r.1).idle = true
  few : ∀ r ∈ requests, r.2.length ≤ blocksPerPeer n
  fresh : ∀ r ∈ requests, ∀ id ∈ r.2, Fresh n id
  apart : requests.Pairwise fun r later => ∀ id ∈ later.2, id ∉ r.2

/-- A plan takes a further idle peer with fresh ids of its own. -/
theorem Plan.append {requests : List (PeerId × List ItemHash)} (h : Plan n requests)
    {p : PeerId} {ids : List ItemHash} (hp : p ∉ requests.map Prod.fst)
    (hidle : (n.peers p).idle = true) (hfew : ids.length ≤ blocksPerPeer n)
    (hfresh : ∀ id ∈ ids, Fresh n id) (hapart : ∀ r ∈ requests, ∀ id ∈ ids, id ∉ r.2) :
    Plan n (requests ++ [(p, ids)]) := by
  have hmem : ∀ {P : PeerId × List ItemHash → Prop}, (∀ r ∈ requests, P r) → P (p, ids) →
      ∀ r ∈ requests ++ [(p, ids)], P r := by
    intro P hold hnew r hr
    rcases List.mem_append.mp hr with hr | hr
    · exact hold r hr
    · rw [List.mem_singleton.mp hr]
      exact hnew
  refine ⟨?_, hmem h.idle hidle, hmem h.few hfew, hmem h.fresh hfresh, ?_⟩
  · rw [List.map_append]
    refine List.nodup_append.mpr ⟨h.once, List.nodup_singleton _, fun q hq q' hq' heq => ?_⟩
    have hq'p : q' = p := List.mem_singleton.mp hq'
    exact hp (hq'p ▸ heq ▸ hq)
  · refine List.pairwise_append.mpr ⟨h.apart, List.pairwise_singleton _ _, fun r hr later hl => ?_⟩
    rw [List.mem_singleton.mp hl]
    exact hapart r hr

/-- The loop of the scheduling makes a plan. -/
theorem scheduleRequests_plan (n : NetNode) (peers : List PeerId) (taken : Finset ItemHash)
    (requests : List (PeerId × List ItemHash)) (h : Plan n requests)
    (htaken : ∀ r ∈ requests, ∀ id ∈ r.2, id ∈ taken) :
    Plan n (scheduleRequests n peers taken requests) := by
  induction peers generalizing taken requests with
  | nil => exact h
  | cons p rest ih =>
    unfold scheduleRequests
    split
    next hp =>
      obtain ⟨hmay, hnew⟩ := hp
      have hidle : (n.peers p).idle = true := by
        simp only [maySync, Bool.and_eq_true] at hmay
        exact hmay.1.2
      obtain ⟨hfew, hmem⟩ := itemsToRequest_spec n taken (n.peers p).idsOfItemsToGet []
        (le_max_left _ _)
      have hfresh := fun id hid => (hmem id hid).resolve_left List.not_mem_nil
      dsimp only
      split
      next => exact ih taken requests h htaken
      next =>
        refine ih _ _ (h.append hnew hidle hfew (fun id hid => (hfresh id hid).1) ?_) ?_
        · exact fun r hr id hid hmem => (hfresh id hid).2 (htaken r hr id hmem)
        · intro r hr id hid
          rcases List.mem_append.mp hr with hr | hr
          · exact Finset.mem_union_left _ (htaken r hr id hid)
          · rw [List.mem_singleton.mp hr] at hid
            exact Finset.mem_union_right _ (List.mem_toFinset.mpr hid)
    next => exact ih taken requests h htaken

/-- The peer is asked for the ids in addition. -/
theorem peers_request_self (n : NetNode) (p : PeerId) (ids : List ItemHash) :
    ((requestSyncItemsFromPeer n p ids).peers p).syncItemsRequestedFromPeer =
        (n.peers p).syncItemsRequestedFromPeer ∪ ids.toFinset ∧
      ((requestSyncItemsFromPeer n p ids).peers p).itemsRequestedFromPeer =
        (n.peers p).itemsRequestedFromPeer := by
  simp [requestSyncItemsFromPeer, NetNode.send, NetNode.onPeer]

/-- A request leaves the other peers. -/
theorem peers_request_of_ne (n : NetNode) {p q : PeerId} (h : q ≠ p) (ids : List ItemHash) :
    (requestSyncItemsFromPeer n p ids).peers q = n.peers q := by
  simp [requestSyncItemsFromPeer, NetNode.send, NetNode.onPeer, h]

/-- A request leaves the other ones of the plan as they were. -/
theorem Plan.tail {p : PeerId} {ids : List ItemHash} {rest : List (PeerId × List ItemHash)}
    (h : Plan n ((p, ids) :: rest)) : Plan (requestSyncItemsFromPeer n p ids) rest := by
  obtain ⟨hp, honce⟩ := List.nodup_cons.mp h.once
  obtain ⟨hapart, hrest⟩ := List.pairwise_cons.mp h.apart
  refine ⟨honce, fun r hr => ?_, fun r hr => h.few r (List.mem_cons_of_mem _ hr),
    fun r hr id hid => ?_, hrest⟩
  · have hmem : r.1 ∈ rest.map Prod.fst := List.mem_map_of_mem hr
    have hne : r.1 ≠ p := fun heq => hp (heq ▸ hmem)
    rw [peers_request_of_ne n hne]
    exact h.idle r (List.mem_cons_of_mem _ hr)
  · obtain ⟨hreceived, hactive⟩ := h.fresh r (List.mem_cons_of_mem _ hr) id hid
    refine ⟨hreceived, fun hmem => ?_⟩
    rcases Finset.mem_union.mp hmem with hmem | hmem
    · exact hactive hmem
    · exact hapart r hr id hid (List.mem_toFinset.mp hmem)

/-- Carrying out a plan is a sequence of moves. -/
theorem Plan.moves {requests : List (PeerId × List ItemHash)} (h : Plan n requests) :
    Relation.ReflTransGen Moves n (requests.foldl
      (fun n request => requestSyncItemsFromPeer n request.1 request.2) n) := by
  induction requests generalizing n with
  | nil => exact .refl
  | cons r rest ih =>
    have hask : Moves n (requestSyncItemsFromPeer n r.1 r.2) :=
      .ask r.1 r.2 (h.idle r List.mem_cons_self) (h.few r List.mem_cons_self)
        (h.fresh r List.mem_cons_self)
    exact .head hask (ih h.tail)

/-- Fetching the blocks of the synchronization is a sequence of moves. -/
theorem fetchSyncItems_moves (n : NetNode) :
    Relation.ReflTransGen Moves n (fetchSyncItems n) := by
  unfold fetchSyncItems
  split
  · exact .refl
  · refine (scheduleRequests_plan n n.activeConnections ∅ [] ?_ ?_).moves
    · exact ⟨List.nodup_nil, nofun, nofun, nofun, List.Pairwise.nil⟩
    · exact nofun

end Schedule

section Changes

variable {i : TaskName} {n m : NetNode}

/-- A relieved peer eases the requests. -/
theorem Relieved.eased (p : PeerId) {f : PeerConnection → PeerConnection}
    (h : ∀ c, Relieved c (f c)) : Eased n (n.onPeer p f) := by
  refine .onPeer p ?_ (h _).requested
  rw [(h _).syncRequested]

/-- The same core eases the requests. -/
theorem SameCore.eased (h : SameCore n m) : Eased n m := by
  refine .of_peers h.peers h.config h.requests fun b hb => ?_
  unfold receivedBlocks at hb ⊢
  rwa [h.received, h.newReceived] at hb

/-- Another order of the lists eases the requests. -/
theorem Reordered.eased (h : Reordered n m) : Eased n m := by
  rw [h.rest]
  exact .of_peers rfl rfl rfl fun b hb => hb

/-- Every change of a task is made of moves. -/
theorem Change.moves (h : Change i n m) : Relation.ReflTransGen Moves n m := by
  cases h with
  | peer p f hf => exact .single (.eased (Relieved.eased p hf))
  | aside hcore => exact .single (.eased (SameCore.eased hcore))
  | restart p => exact .single (.eased (.onPeer p subset_rfl (.refl _)))
  | start p id hfirst => exact .single (.eased (.onPeer p subset_rfl (.refl _)))
  | popBack p id => exact .single (.eased (.onPeer p subset_rfl (.refl _)))
  | dropLast p => exact .single (.eased (.onPeer p subset_rfl (.refl _)))
  | extend p ids total hids => exact .single (.eased (.onPeer p subset_rfl (.refl _)))
  | fetchSync => exact fetchSyncItems_moves n
  | receive p b hb => exact .single (.take p b hb)
  | lose p id => exact .single (.eased (.onPeer p (Finset.erase_subset _ _) (.refl _)))
  | retire p => exact .single (.free p)
  | terminate p =>
    have hleft : Eased n { n with
        terminatingConnections := n.terminatingConnections.filter (· ≠ p) } :=
      .of_peers rfl rfl rfl fun b hb => hb
    exact .tail (.single (.eased hleft)) (.eased (.reset p rfl rfl))
  | store received newReceived hsub => exact .single (.eased (.of_peers rfl rfl rfl hsub))
  | request p item hidle => exact .single (.fetch p item hidle)
  | enqueue item => exact .single (.eased (.of_peers rfl rfl rfl fun b hb => hb))
  | dequeue l hl => exact .single (.eased (.of_peers rfl rfl rfl fun b hb => hb))
  | activate p => exact .single (.eased (.of_peers rfl rfl rfl fun b hb => hb))
  | close p => exact .single (.eased (.of_peers rfl rfl rfl fun b hb => hb))
  | force p => exact .single (.eased (.of_peers rfl rfl rfl fun b hb => hb))
  | leave p => exact .single (.eased (.of_peers rfl rfl rfl fun b hb => hb))
  | connect inbound nodeId fork hnew =>
    have hreset : Eased n (n.onPeer n.nextPeer fun _ =>
        { PeerConnection.initial with
          inbound := inbound
          nodeId := nodeId
          lastKnownForkBlockNumber := fork
          connectionInitiationTime := n.now }) := .reset n.nextPeer rfl rfl
    exact .tail (.single (.eased hreset)) (.eased (.of_peers rfl rfl rfl fun b hb => hb))
  | reorder hreorder => exact .single (.eased (Reordered.eased hreorder))

end Changes

section Safety

/-- The requests of the node are in order. -/
structure SoundRequests (n : NetNode) : Prop where
  /-- A sync block is requested from one peer at a time. -/
  once : ∀ p q id, id ∈ (n.peers p).syncItemsRequestedFromPeer →
    id ∈ (n.peers q).syncItemsRequestedFromPeer → p = q
  /-- A request is active. -/
  active : ∀ p, (n.peers p).syncItemsRequestedFromPeer ⊆ n.activeSyncRequests
  /-- A block that has come and waits for the client is not requested. -/
  received : ∀ b ∈ receivedBlocks n, b.blockId ∉ n.activeSyncRequests
  few : ∀ p, (n.peers p).syncItemsRequestedFromPeer.card ≤ blocksPerPeer n
  /-- A peer is not asked for sync blocks and for other items at once. -/
  oneKind : ∀ p, (n.peers p).syncItemsRequestedFromPeer.Nonempty →
    (n.peers p).itemsRequestedFromPeer = []
  oneItem : ∀ p, (n.peers p).itemsRequestedFromPeer.length ≤ maxItemsPerPeer

variable {n m : NetNode}

/-- The node starts with sound requests. -/
theorem SoundRequests.initial (config : NodeConfiguration) (nodeId : ℕ) (now : TimePoint) :
    SoundRequests (.initial config nodeId now) := by
  refine ⟨fun _ _ id hid => ?_, fun _ => Finset.empty_subset _, nofun, fun _ => Nat.zero_le _,
    fun _ hp => ?_, fun _ => Nat.zero_le _⟩
  · exact absurd hid (Finset.notMem_empty id)
  · exact absurd hp Finset.not_nonempty_empty

/-- Eased requests stay sound. -/
theorem SoundRequests.eased (h : SoundRequests n) (he : Eased n m) : SoundRequests m := by
  constructor
  · exact fun p q id hp hq => h.once p q id (he.sync p hp) (he.sync q hq)
  · intro p
    rw [he.active]
    exact (he.sync p).trans (h.active p)
  · intro b hb
    rw [he.active]
    exact h.received b (he.received b hb)
  · intro p
    have hfew := (Finset.card_le_card (he.sync p)).trans (h.few p)
    unfold blocksPerPeer at hfew ⊢
    rwa [he.config]
  · intro p hp
    have hitems := he.items p
    rw [h.oneKind p (hp.mono (he.sync p))] at hitems
    exact List.sublist_nil.mp hitems
  · exact fun p => (he.items p).length_le.trans (h.oneItem p)

/-- Asking an idle peer for a few fresh ids keeps the requests sound. -/
theorem SoundRequests.ask (h : SoundRequests n) {p : PeerId} {ids : List ItemHash}
    (hidle : (n.peers p).idle = true) (hfew : ids.length ≤ blocksPerPeer n)
    (hfresh : ∀ id ∈ ids, Fresh n id) : SoundRequests (requestSyncItemsFromPeer n p ids) := by
  obtain ⟨hitems, hsync, -⟩ := (idle_iff _).mp hidle
  obtain ⟨hsync', hitems'⟩ := peers_request_self n p ids
  rw [hsync, Finset.empty_union] at hsync'
  rw [hitems] at hitems'
  -- the blocks that another peer is asked for are active, and these are not
  have hother : ∀ q id, q ≠ p → id ∈ (n.peers q).syncItemsRequestedFromPeer → id ∉ ids :=
    fun q id hq hid hmem => (hfresh id hmem).2 (h.active q hid)
  constructor
  · intro q r id hq hr
    by_cases hqp : q = p <;> by_cases hrp : r = p
    · rw [hqp, hrp]
    · rw [hqp, hsync', List.mem_toFinset] at hq
      rw [peers_request_of_ne n hrp] at hr
      exact absurd hq (hother r id hrp hr)
    · rw [hrp, hsync', List.mem_toFinset] at hr
      rw [peers_request_of_ne n hqp] at hq
      exact absurd hr (hother q id hqp hq)
    · rw [peers_request_of_ne n hqp] at hq
      rw [peers_request_of_ne n hrp] at hr
      exact h.once q r id hq hr
  · intro q
    by_cases hqp : q = p
    · rw [hqp, hsync']
      exact Finset.subset_union_right
    · rw [peers_request_of_ne n hqp]
      exact (h.active q).trans Finset.subset_union_left
  · intro b hb hmem
    rcases Finset.mem_union.mp hmem with hmem | hmem
    · exact h.received b hb hmem
    · have hnew := (hfresh b.blockId (List.mem_toFinset.mp hmem)).1
      exact (haveReceived_eq_false_iff n b.blockId).mp hnew b hb rfl
  · intro q
    by_cases hqp : q = p
    · rw [hqp, hsync']
      exact (List.toFinset_card_le ids).trans hfew
    · rw [peers_request_of_ne n hqp]
      exact h.few q
  · intro q hq
    by_cases hqp : q = p
    · rw [hqp, hitems']
    · rw [peers_request_of_ne n hqp] at hq ⊢
      exact h.oneKind q hq
  · intro q
    by_cases hqp : q = p
    · rw [hqp, hitems']
      exact Nat.zero_le _
    · rw [peers_request_of_ne n hqp]
      exact h.oneItem q

/-- A requested block that comes keeps the requests sound. -/
theorem SoundRequests.take (h : SoundRequests n) {p : PeerId} {b : BlockMessage}
    (hb : b.blockId ∈ (n.peers p).syncItemsRequestedFromPeer) :
    SoundRequests (receiveSyncBlock p b n) := by
  have hself := receive_self p b n
  have hother : ∀ q, q ≠ p → (receiveSyncBlock p b n).peers q = n.peers q :=
    fun q hq => receive_of_ne hq
  have hsub : ∀ q, ((receiveSyncBlock p b n).peers q).syncItemsRequestedFromPeer ⊆
      (n.peers q).syncItemsRequestedFromPeer := by
    intro q
    by_cases hq : q = p
    · rw [hq, hself.1]
      exact Finset.erase_subset _ _
    · rw [hother q hq]
  constructor
  · exact fun q r id hq hr => h.once q r id (hsub q hq) (hsub r hr)
  · intro q id hid
    refine Finset.mem_erase.mpr ⟨fun heq => ?_, h.active q (hsub q hid)⟩
    subst heq
    have hq := h.once q p _ (hsub q hid) hb
    rw [hq, hself.1] at hid
    exact Finset.notMem_erase _ _ hid
  · intro c hc hmem
    obtain ⟨hne, hactive⟩ := Finset.mem_erase.mp hmem
    rcases List.mem_append.mp hc with hc | hc
    · exact h.received c (List.mem_append_left _ hc) hactive
    · rcases List.mem_cons.mp hc with rfl | hc
      · exact hne rfl
      · exact h.received c (List.mem_append_right _ hc) hactive
  · exact fun q => (Finset.card_le_card (hsub q)).trans (h.few q)
  · intro q hq
    have hkind := h.oneKind q (hq.mono (hsub q))
    by_cases hqp : q = p
    · rwa [hqp, hself.2, ← hqp]
    · rwa [hother q hqp]
  · intro q
    by_cases hqp : q = p
    · rw [hqp, hself.2]
      exact h.oneItem p
    · rw [hother q hqp]
      exact h.oneItem q

/-- A peer that retires keeps the requests sound. -/
theorem SoundRequests.free (h : SoundRequests n) (p : PeerId) : SoundRequests (retire p n) := by
  have hself := retire_self p n
  have hother : ∀ q, q ≠ p → (retire p n).peers q = n.peers q := fun q hq => retire_of_ne hq
  have hsub : ∀ q, ((retire p n).peers q).syncItemsRequestedFromPeer ⊆
      (n.peers q).syncItemsRequestedFromPeer := by
    intro q
    by_cases hq : q = p
    · rw [hq, hself]
      exact Finset.empty_subset _
    · rw [hother q hq]
  constructor
  · exact fun q r id hq hr => h.once q r id (hsub q hq) (hsub r hr)
  · intro q id hid
    refine Finset.mem_sdiff.mpr ⟨h.active q (hsub q hid), fun hp => ?_⟩
    have hq := h.once q p id (hsub q hid) hp
    rw [hq, hself] at hid
    exact Finset.notMem_empty id hid
  · exact fun b hb hmem => h.received b hb (Finset.mem_sdiff.mp hmem).1
  · exact fun q => (Finset.card_le_card (hsub q)).trans (h.few q)
  · intro q hq
    by_cases hqp : q = p
    · rw [hqp, hself]
      rfl
    · rw [hother q hqp] at hq ⊢
      exact h.oneKind q hq
  · intro q
    by_cases hqp : q = p
    · rw [hqp, hself]
      exact Nat.zero_le _
    · rw [hother q hqp]
      exact h.oneItem q

/-- Asking an idle peer for an item keeps the requests sound. -/
theorem SoundRequests.fetch (h : SoundRequests n) {p : PeerId} (item : ItemId)
    (hidle : (n.peers p).idle = true) :
    SoundRequests (n.onPeer p (requestItem item n.now)) := by
  obtain ⟨hitems, hsync, -⟩ := (idle_iff _).mp hidle
  have hsame := fetch_sync n p item
  constructor
  · intro q r id hq hr
    rw [hsame] at hq hr
    exact h.once q r id hq hr
  · intro q
    rw [hsame]
    exact h.active q
  · exact h.received
  · intro q
    rw [hsame]
    exact h.few q
  · intro q hq
    rw [hsame] at hq
    by_cases hqp : q = p
    · rw [hqp, hsync] at hq
      exact absurd hq Finset.not_nonempty_empty
    · rw [NetNode.onPeer_of_ne n hqp]
      exact h.oneKind q hq
  · intro q
    by_cases hqp : q = p
    · rw [hqp, NetNode.onPeer_self]
      simp [requestItem, PeerConnection.hasRequested, hitems, maxItemsPerPeer]
    · rw [NetNode.onPeer_of_ne n hqp]
      exact h.oneItem q

/-- A move keeps the requests sound. -/
theorem SoundRequests.moves (h : SoundRequests n) (hm : Moves n m) : SoundRequests m := by
  cases hm with
  | eased he => exact h.eased he
  | ask p ids hidle hfew hfresh => exact h.ask hidle hfew hfresh
  | take p b hb => exact h.take hb
  | free p => exact h.free p
  | fetch p item hidle => exact h.fetch item hidle

/-- A change of the list keeps the requests sound. -/
theorem SoundRequests.change {i : TaskName} (h : SoundRequests n) (hc : Change i n m) :
    SoundRequests m := by
  have hmoves := Change.moves hc
  clear hc
  induction hmoves with
  | refl => exact h
  | tail _ hm ih => exact ih.moves hm

variable {env : NetEnv} {w : Network}

/-- The run lemma: the requests are in order in every state that the node reaches. -/
theorem SoundRequests.reached (h : Reachable env w) : SoundRequests w.state :=
  h.invariant SoundRequests.initial fun _ _ _ hc hn => hn.change hc

/-- In every state that the node reaches, one peer at a time is asked for a sync block, and every
block that is asked for is active. A block that has come and waits for the client is not active. A
peer is asked for a bounded number of sync blocks, or for one other item. -/
theorem sound_of_reachable (h : Reachable env w) :
    (∀ p q id, id ∈ (w.state.peers p).syncItemsRequestedFromPeer →
      id ∈ (w.state.peers q).syncItemsRequestedFromPeer → p = q) ∧
    (∀ p, (w.state.peers p).syncItemsRequestedFromPeer ⊆ w.state.activeSyncRequests) ∧
    (∀ b ∈ receivedBlocks w.state, b.blockId ∉ w.state.activeSyncRequests) ∧
    ∀ p, ((w.state.peers p).itemsRequestedFromPeer = [] ∧
        (w.state.peers p).syncItemsRequestedFromPeer.card ≤ blocksPerPeer w.state) ∨
      ((w.state.peers p).syncItemsRequestedFromPeer = ∅ ∧
        (w.state.peers p).itemsRequestedFromPeer.length ≤ maxItemsPerPeer) := by
  have hsound := SoundRequests.reached h
  refine ⟨hsound.once, hsound.active, hsound.received, fun p => ?_⟩
  rcases (w.state.peers p).syncItemsRequestedFromPeer.eq_empty_or_nonempty with hnone | hsome
  · exact .inr ⟨hnone, hsound.oneItem p⟩
  · exact .inl ⟨hsound.oneKind p hsome, hsound.few p⟩

/-- A node that has asked its only peer for two blocks, which are active. -/
theorem sound_of_reachable_asked :
    (asked.state.peers 0).syncItemsRequestedFromPeer = {⟨1, 5⟩, ⟨2, 6⟩} ∧
      (⟨1, 5⟩ : ItemHash) ∈ asked.state.activeSyncRequests ∧
      (asked.state.peers 0).itemsRequestedFromPeer = [] := by
  have hasked : (asked.state.peers 0).syncItemsRequestedFromPeer = {⟨1, 5⟩, ⟨2, 6⟩} := by
    decide +kernel
  obtain ⟨-, hactive, -, hkinds⟩ := sound_of_reachable asked_reachable
  have hmem : (⟨1, 5⟩ : ItemHash) ∈ (asked.state.peers 0).syncItemsRequestedFromPeer := by
    simp [hasked]
  refine ⟨hasked, hactive 0 hmem, ?_⟩
  rcases hkinds 0 with ⟨hnone, -⟩ | ⟨hempty, -⟩
  · exact hnone
  · exact absurd (hempty ▸ hmem) (Finset.notMem_empty _)

end Safety

section Stranded

/-- A block that counts as requested, and that nobody is asked for. -/
structure Stranded (id : ItemHash) (n : NetNode) : Prop where
  active : id ∈ n.activeSyncRequests
  nobody : ∀ p, id ∉ (n.peers p).syncItemsRequestedFromPeer

variable {n m : NetNode} {id : ItemHash}

/-- A stranded id stays stranded when requests are eased. -/
theorem Stranded.eased (h : Stranded id n) (he : Eased n m) : Stranded id m :=
  ⟨he.active ▸ h.active, fun p hp => h.nobody p (he.sync p hp)⟩

/-- Only blocks that are not active are requested. -/
theorem Stranded.moves (h : Stranded id n) (hm : Moves n m) : Stranded id m := by
  cases hm with
  | eased he => exact h.eased he
  | ask p ids hidle hfew hfresh =>
    refine ⟨Finset.mem_union_left _ h.active, fun q hq => ?_⟩
    by_cases hqp : q = p
    · rw [hqp, (peers_request_self n p ids).1] at hq
      rcases Finset.mem_union.mp hq with hq | hq
      · exact h.nobody p hq
      · exact (hfresh id (List.mem_toFinset.mp hq)).2 h.active
    · rw [peers_request_of_ne n hqp] at hq
      exact h.nobody q hq
  | take p b hb =>
    have hne : id ≠ b.blockId := fun heq => h.nobody p (heq ▸ hb)
    refine ⟨Finset.mem_erase.mpr ⟨hne, h.active⟩, fun q hq => ?_⟩
    by_cases hqp : q = p
    · rw [hqp, (receive_self p b n).1] at hq
      exact h.nobody p (Finset.mem_of_mem_erase hq)
    · rw [receive_of_ne hqp] at hq
      exact h.nobody q hq
  | free p =>
    refine ⟨Finset.mem_sdiff.mpr ⟨h.active, h.nobody p⟩, fun q hq => ?_⟩
    by_cases hqp : q = p
    · rw [hqp, retire_self] at hq
      exact Finset.notMem_empty id hq
    · rw [retire_of_ne hqp] at hq
      exact h.nobody q hq
  | fetch p item hidle =>
    refine ⟨h.active, fun q hq => ?_⟩
    rw [fetch_sync] at hq
    exact h.nobody q hq

/-- A change of the list keeps a stranded id stranded. -/
theorem Stranded.change {i : TaskName} (h : Stranded id n) (hc : Change i n m) :
    Stranded id m := by
  have hmoves := Change.moves hc
  clear hc
  induction hmoves with
  | refl => exact h
  | tail _ hm ih => exact ih.moves hm

/-- The answer takes the block from the requests of the peer alone. -/
theorem stranded_itemNotAvailable (h : SoundRequests n) {p : PeerId} {item : ItemId}
    (hid : item.itemHash ∈ (n.peers p).syncItemsRequestedFromPeer) :
    Stranded item.itemHash (itemNotAvailable p item n) := by
  have hnone : (n.peers p).hasRequested item = false := by
    simp [PeerConnection.hasRequested, h.oneKind p ⟨_, hid⟩]
  unfold itemNotAvailable
  dsimp only
  rw [if_neg (by simp [hnone]), if_pos hid]
  refine ⟨h.active p hid, fun q hq => ?_⟩
  by_cases hqp : q = p
  · rw [hqp, NetNode.onPeer_self] at hq
    exact Finset.notMem_erase _ _ hq
  · rw [NetNode.onPeer_of_ne n hqp] at hq
    exact hqp (h.once q p _ hq hid)

variable {env : NetEnv} {w v : Network}

/-- The section in which the answer comes leaves the block to nobody. -/
theorem stranded_run (h : Reachable env w) {p : PeerId} {item : ItemId}
    (hid : item.itemHash ∈ (w.state.peers p).syncItemsRequestedFromPeer) :
    Stranded item.itemHash
      (w.run (.reader p) (handleMessage env p (.itemNotAvailable item))).state := by
  -- what the node does up to the end of the answer, and what is left of the section then
  let handling := w.state.onPeer p fun c =>
    { c with lastMessageReceivedTime := w.state.now, currentlyHandlingMessage := true }
  let rest : NetTask Unit := concludeMessage p
    (Task.whenever (lacksItem p item handling = true)
      (disconnectFromPeer env p missingItemReason true))
  have hhandling : Changes (.reader p) w.state handling :=
    changes_peer p fun _ => .of_requested rfl rfl rfl rfl
  have hsound : SoundRequests handling :=
    hhandling.invariant (fun _ _ hc hn => hn.change hc) (.reached h)
  have hheld : item.itemHash ∈ (handling.peers p).syncItemsRequestedFromPeer := by
    rw [NetNode.onPeer_self]
    exact hid
  have hstranded := stranded_itemNotAvailable hsound hheld
  have horderly : Orderly (itemNotAvailable p item handling) :=
    Changes.orderly (hhandling.trans (changes_itemNotAvailable p item)) h.kept.inv
  have hrest : rest.Steady (terms (.reader p)) :=
    concludeMessage_steady p (.whenever (disconnectFromPeer_steady p _ _))
  obtain ⟨⟨-, hchanges⟩, -⟩ := advance_meets (hrest.owed horderly)
  exact Changes.invariant hchanges (fun _ _ hc hn => hn.change hc) hstranded

/-- A sync block that a peer does not have stays in the set of the active requests from then on,
nobody is asked for it as a sync block, and it never comes as one, whatever the peers and the client
do. -/
theorem stranded_forever (h : Reachable env w) {p : PeerId} {item : ItemId}
    (hfree : w.waiting (.reader p) = none) (hp : connected w.state p)
    (hid : item.itemHash ∈ (w.state.peers p).syncItemsRequestedFromPeer)
    (hruns : Runs (Begins env)
      (w.run (.reader p) (handleMessage env p (.itemNotAvailable item))) v) :
    item.itemHash ∈ v.state.activeSyncRequests ∧
      (∀ q, item.itemHash ∉ (v.state.peers q).syncItemsRequestedFromPeer) ∧
      ∀ b ∈ receivedBlocks v.state, b.blockId ≠ item.itemHash := by
  have hreached := h.begin hfree (.message p (.itemNotAvailable item) hp)
  have hstranded : Stranded item.itemHash v.state :=
    hreached.stable (fun _ _ _ hc hn => hn.change hc) hruns (stranded_run h hid)
  obtain ⟨config, nodeId, now, hbefore⟩ := hreached
  have hsound := SoundRequests.reached ⟨config, nodeId, now, hbefore.trans hruns⟩
  exact ⟨hstranded.active, hstranded.nobody, fun b hb heq => hsound.received b hb (heq ▸ hstranded.active)⟩

/-- The only peer does not have the first block, and the node looks for blocks to request. -/
theorem stranded_forever_asked :
    let w := asked.run (.reader 0)
      (handleMessage plainEnv 0 (.itemNotAvailable ⟨blockMessageType, ⟨1, 5⟩⟩))
    let v := w.run .fetchSyncItemsLoop (Task.change fetchSyncItems)
    (⟨1, 5⟩ : ItemHash) ∈ v.state.activeSyncRequests ∧
      (∀ q, ⟨1, 5⟩ ∉ (v.state.peers q).syncItemsRequestedFromPeer) ∧
      ∀ b ∈ receivedBlocks v.state, b.blockId ≠ ⟨1, 5⟩ := by
  intro w v
  have hfinds : (asked.waiting (.reader 0)).isNone ∧ 0 ∈ asked.state.activeConnections ∧
      ⟨1, 5⟩ ∈ (asked.state.peers 0).syncItemsRequestedFromPeer ∧
      (w.waiting .fetchSyncItemsLoop).isNone := by decide +kernel
  obtain ⟨hfree, hactive, hid, hidle⟩ := hfinds
  exact stranded_forever asked_reachable (Option.isNone_iff_eq_none.mp hfree) (.inl hactive) hid
    (.single (.begin _ _ _ (Option.isNone_iff_eq_none.mp hidle) .fetchSyncItems))

end Stranded

end Whaleshares.SyncRequests
