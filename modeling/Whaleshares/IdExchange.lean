import Whaleshares.LabelledRun
import Whaleshares.NetworkRuns
import Whaleshares.PeerSynopsis

/-!
# Two nodes exchange the ids of blocks

A node asks a peer again and again for the ids that follow those that the peer has offered. A peer
that answers as this program does leads on from the last offered id each time. The node asks on
until it knows the ids of the whole main chain of the peer, or holds enough of them to turn to the
blocks.
-/

namespace Whaleshares.IdExchange

open Config Fc Protocol Objects Database ApplyBlock ChainRun ChainTip Genesis Footprint
  Irreversibility BlockLookup Node Process SyncHandshake Cooperation MessageCache Peers SyncTasks
  InventoryTasks NetworkTasks NetworkSteps NetworkRuns PeerSynopsis LabelledRun Program

section Merging

variable {net : NetEnv} {client : (q : Query) → q.Answer} {s : NetNode} {p : PeerId}
  {first : ItemHash} {ids rest : List ItemHash} {itemType total : ℕ}

/-- Two changes of what the node knows about a connection are one. -/
theorem onPeer_onPeer (n : NetNode) (p : PeerId) (f g : PeerConnection → PeerConnection) :
    (n.onPeer p f).onPeer p g = n.onPeer p fun c => g (f c) := by
  unfold NetNode.onPeer
  simp only [Function.update_self, Function.update_idem]

/-- Two changes that do the same to a connection are the same. -/
theorem onPeer_congr {f g : PeerConnection → PeerConnection} (h : f (s.peers p) = g (s.peers p)) :
    s.onPeer p f = s.onPeer p g := by
  unfold NetNode.onPeer
  rw [h]

/-- Nothing is popped off when the answer starts at the last id. -/
theorem popBackTo_last {c : PeerConnection} (h : c.idsOfItemsToGet = ids ++ [first]) :
    popBackTo first c = c := by
  unfold popBackTo
  rw [h, List.reverse_append, List.reverse_singleton, List.singleton_append,
    List.dropWhile_cons_of_neg (by simp), List.reverse_cons, List.reverse_reverse, ← h]

/-- The connection after an answer that goes on from the last id. -/
def led (ids : List ItemHash) (first : ItemHash) (rest : List ItemHash) (total : ℕ)
    (c : PeerConnection) : PeerConnection :=
  { c with
    idsOfItemsToGet := ids ++ first :: rest
    startedIds := if ids = [] then [] else c.startedIds
    numberOfUnfetchedItemIds := total }

/-- An answer that starts at the last id goes on from there. -/
theorem addOffered_last (h : (s.peers p).idsOfItemsToGet = ids ++ [first]) :
    (addOffered p itemType total (first :: rest)).alone client s =
      (.ok (), s.onPeer p (led ids first rest total)) := by
  have hsome : ¬ (s.peers p).idsOfItemsToGet = [] := by simp [h]
  let popped := s.onPeer p (popBackTo first)
  have hpopped : popped.peers p = s.peers p := by
    rw [NetNode.onPeer_self]
    exact popBackTo_last h
  let dropped := popped.onPeer p fun c => { c with idsOfItemsToGet := c.idsOfItemsToGet.dropLast }
  have hmerge : (mergeIds p itemType (first :: rest)).alone client s =
      (.ok (first :: rest), dropped) := by
    change Task.alone client (if (s.peers p).idsOfItemsToGet = [] then _ else _) s = _
    rw [if_neg hsome]
    change Task.alone client (if (popped.peers p).idsOfItemsToGet = [] then _ else _) popped = _
    rw [hpopped, if_neg hsome]
    rfl
  have hextend : dropped.onPeer p (extendIds (first :: rest) total) =
      s.onPeer p (led ids first rest total) := by
    have hconnection : extendIds (first :: rest) total
        { popBackTo first (s.peers p) with
          idsOfItemsToGet := (popBackTo first (s.peers p)).idsOfItemsToGet.dropLast } =
          led ids first rest total (s.peers p) := by
      rw [popBackTo_last h, h, List.dropLast_concat]
      rfl
    rw [onPeer_onPeer, onPeer_onPeer]
    exact onPeer_congr hconnection
  unfold addOffered
  rw [Task.alone_bind hmerge, ← hextend]
  rfl

/-- The request for the next ids. -/
theorem fetchNextBatch_alone {part synopsis : List ItemHash}
    (hpart : client (.getBlockchainSynopsis (s.peers p).lastBlockDelegateHasSeen
      ((s.peers p).idsOfItemsToGet.length % 2 ^ 32)) = .ok part)
    (hsynopsis : completeSynopsis part (s.peers p).idsOfItemsToGet = .ok synopsis) :
    (fetchNextBatchOfItemIdsFromPeer net p).alone client s =
      (.ok (), requestItemIds p synopsis s) := by
  have hcall : (call (.getBlockchainSynopsis (s.peers p).lastBlockDelegateHasSeen
      ((s.peers p).idsOfItemsToGet.length % 2 ^ 32))).alone client s = (.ok part, s) := by
    change Task.alone client (Task.ofExcept (client _)) s = _
    rw [hpart]
    rfl
  have hcreate : (createBlockchainSynopsisForPeer p).alone client s = (.ok synopsis, s) := by
    have hread : (peer p).alone client s = (.ok (s.peers p), s) := rfl
    unfold createBlockchainSynopsisForPeer
    rw [Task.alone_bind hread, Task.alone_bind hcall, hsynopsis]
    rfl
  have hrequest : (requestNextBatch p).alone client s = (.ok (), requestItemIds p synopsis s) := by
    unfold requestNextBatch
    rw [Task.alone_bind hcreate]
    rfl
  unfold fetchNextBatchOfItemIdsFromPeer
  rw [Task.alone_bind (Task.alone_attempt hrequest)]
  rfl

/-- The node asks on as long as ids are left and it has no more than enough to turn to the
blocks. -/
theorem afterItemIds_alone (net : NetEnv) (itemType total : ℕ)
    (hstatus : ∀ itemType count, client (.syncStatus itemType count) = .ok ())
    (hcredible : offersTooMany s p = false) :
    ∃ u, u.peers = s.peers ∧ u.now = s.now ∧
      (afterItemIds net p itemType total).alone client s =
        (Task.whenever (if total ≠ 0 then (s.peers p).idsOfItemsToGet.length ≤ minBlockIdsToPrefetch
          else (s.peers p).idsOfItemsToGet = [])
          (fetchNextBatchOfItemIdsFromPeer net p)).alone client u := by
  let count := s.calculateUnsyncedBlockCountFromAllPeers
  have hcall : (Task.whenever (count ≠ s.totalNumberOfUnfetchedItems)
      (call (.syncStatus itemType count))).alone client s = (.ok (), s) := by
    refine Task.alone_whenever fun _ => ?_
    change Task.alone client (Task.ofExcept (client _)) s = _
    rw [hstatus]
    rfl
  have hread : (Task.read id : NetTask NetNode).alone client s = (.ok s, s) := rfl
  refine ⟨{ s with totalNumberOfUnfetchedItems := count }, rfl, rfl, ?_⟩
  unfold afterItemIds
  rw [Task.alone_bind hread, hcredible, if_neg Bool.false_ne_true]
  exact Task.alone_bind hcall

end Merging

section Rounds

variable {env : Env} {initSupply limit a b : ℕ} {chain chain' : List BlockCall} {n r : Node}
  {c : PeerConnection}

/-- The ids of a chain after one height, up to another one. -/
def idsAfter (env : Env) (chain : List BlockCall) (a b : ℕ) : List ItemHash :=
  (List.range' (a + 1) (b - a)).map (mainId env chain)

/-- The ids up to a block end with its own. -/
theorem idsAfter_concat (h : a < b) :
    idsAfter env chain a b = idsAfter env chain a (b - 1) ++ [mainId env chain b] := by
  have hcount : b - a = b - 1 - a + 1 := by omega
  have hlast : a + 1 + (b - 1 - a) = b := by omega
  unfold idsAfter
  rw [hcount, List.range'_1_concat, List.map_append, hlast]
  rfl

/-- The ids up to a block and those after it are the ids of both. -/
theorem idsAfter_append {e : ℕ} (hab : a ≤ b) (hbe : b ≤ e) :
    idsAfter env chain a b ++ idsAfter env chain b e = idsAfter env chain a e := by
  have hcount : e - a = b - a + (e - b) := by omega
  have hmiddle : b + 1 = a + 1 + (b - a) := by omega
  unfold idsAfter
  rw [← List.map_append, hmiddle, hcount, List.range'_append_1]

/-- The id of a block comes before those after it. -/
theorem idsAfter_cons {e : ℕ} (hpos : 1 ≤ b) (h : b ≤ e) :
    mainId env chain b :: idsAfter env chain b e = idsAfter env chain (b - 1) e := by
  have hcount : e - (b - 1) = e - b + 1 := by omega
  have hfirst : b - 1 + 1 = b := by omega
  unfold idsAfter
  rw [hcount, hfirst, List.range'_succ, List.map_cons]

/-- The blocks after the last one that is listed remain. -/
theorem remaining_idsAfter (hr : OnChain env initSupply chain' r) (hab : a < b)
    (hb : b ≤ chain'.length) :
    remainingItemCount r (idsAfter env chain' a b) = chain'.length - b := by
  unfold remainingItemCount
  rw [idsAfter_concat hab, List.getLast?_concat]
  dsimp only
  rw [hr.num_mainId (by omega) hb, hr.headNum]
  split <;> omega

/-- The ids of a chain are sequential. -/
theorem isSequential_idsAfter (hr : OnChain env initSupply chain' r) (hb : b ≤ chain'.length) :
    isSequential (idsAfter env chain' a b) = true := by
  have hlt := hr.length_lt
  have hnum : ∀ i id, (idsAfter env chain' a b)[i]? = some id → id.num = a + 1 + i ∧
      a + 1 + i ≤ chain'.length := by
    intro i id hid
    obtain ⟨hi, hmain⟩ := List.getElem?_eq_some_iff.mp hid
    unfold idsAfter at hi hmain
    rw [List.length_map, List.length_range'] at hi
    rw [List.getElem_map, List.getElem_range', Nat.one_mul] at hmain
    rw [← hmain]
    exact ⟨hr.num_mainId (by omega) (by omega), by omega⟩
  cases hids : idsAfter env chain' a b with
  | nil => rfl
  | cons first rest =>
    rw [hids] at hnum
    have hfirst := (hnum 0 first rfl).1
    refine List.all_eq_true.mpr fun entry hentry => ?_
    obtain ⟨hentry, hinside⟩ := hnum entry.2 entry.1 (List.mem_zipIdx_iff_getElem?.mp hentry)
    rw [hentry, hfirst, Nat.mod_eq_of_lt (by omega)]
    simp

/-- A round of the exchange: the node has asked with a synopsis, the peer answers with these ids,
and the node handles the answer while nothing else happens. -/
def Round (env : Env) (net : NetEnv) (client : (q : Query) → q.Answer) (limit : ℕ) (r : Node)
    (p : PeerId) (ids : List ItemHash) (s s' : NetNode) : Prop :=
  ∃ synopsis time total itemType,
    (s.peers p).itemIdsRequestedFromPeer = some (synopsis, time) ∧
    getBlockIds env synopsis limit r = .ok (ids, total) ∧
    s' = ((onBlockchainItemIdsInventory net p itemType total ids).alone client s).2

/-- The client of the node has this chain, and takes reports. -/
structure Serves (env : Env) (n : Node) (client : (q : Query) → q.Answer) : Prop where
  synopsis : ∀ reference count part, getBlockchainSynopsis env reference count n = .ok part →
    client (.getBlockchainSynopsis reference count) = .ok part
  status : ∀ itemType count, client (.syncStatus itemType count) = .ok ()

/-- A peer has offered the ids of its main chain after the block that the client has from it, up
to a height, and has told how many remain. -/
structure Offers (env : Env) (chain chain' : List BlockCall) (c : PeerConnection) (b : ℕ) :
    Prop where
  reference : OnMainChain env chain c.lastBlockDelegateHasSeen
  beyond : referenceHeight chain c.lastBlockDelegateHasSeen < b
  inside : b ≤ chain'.length
  ids : c.idsOfItemsToGet =
    idsAfter env chain' (referenceHeight chain c.lastBlockDelegateHasSeen) b
  remaining : c.numberOfUnfetchedItemIds = chain'.length - b

/-- The synopsis ends at the last id that the peer has offered. -/
theorem Offers.synopsis (h : Offers env chain chain' c b) (hn : OnChain env initSupply chain n)
    (hr : OnChain env initSupply chain' r) :
    ∃ part synopsis,
      getBlockchainSynopsis env c.lastBlockDelegateHasSeen (c.idsOfItemsToGet.length % 2 ^ 32) n =
        .ok part ∧
      completeSynopsis part c.idsOfItemsToGet = .ok synopsis ∧
      synopsis.getLast? = some (mainId env chain' b) := by
  have hinside := h.inside
  have hbeyond := h.beyond
  have hlt := hr.length_lt
  have hlength : c.idsOfItemsToGet.length =
      b - referenceHeight chain c.lastBlockDelegateHasSeen := by
    rw [h.ids]
    simp [idsAfter]
  have hne : c.idsOfItemsToGet ≠ [] := by
    refine List.length_pos_iff.mp ?_
    omega
  have hfirst : ∀ id ∈ c.idsOfItemsToGet.head?,
      id.num = referenceHeight chain c.lastBlockDelegateHasSeen + 1 := by
    intro id hid
    have hcount : b - referenceHeight chain c.lastBlockDelegateHasSeen =
        b - referenceHeight chain c.lastBlockDelegateHasSeen - 1 + 1 := by omega
    rw [h.ids, idsAfter, hcount, List.range'_succ, List.map_cons] at hid
    cases hid
    exact hr.num_mainId (by omega) (by omega)
  obtain ⟨hlow, part, hpart, hsynopsis⟩ :=
    synopsis_walk hn h.reference hfirst (by omega) (.inr hne)
  refine ⟨part, _, hpart, hsynopsis, ?_⟩
  rw [described_getLast? hlow hne, h.ids, idsAfter_concat hbeyond, List.getLast?_concat]

/-- A peer that knows the last id of a synopsis as a block of its main chain answers from it. -/
theorem getBlockIds_last (hr : OnChain env initSupply chain' r) {synopsis : List ItemHash}
    (hpos : 1 ≤ b) (hb : b ≤ chain'.length) (hlast : synopsis.getLast? = some (mainId env chain' b))
    (hknown : isKnownBlock env (mainId env chain' b) r = true) (hlimit : 1 ≤ limit) :
    getBlockIds env synopsis limit r =
      .ok (mainId env chain' b :: idsAfter env chain' b (min (b + limit - 1) chain'.length),
        chain'.length - min (b + limit - 1) chain'.length) := by
  have hnull := hr.mainId_ne_null hpos hb
  have hnum := hr.num_mainId hpos hb
  obtain ⟨before, rfl⟩ := List.getLast?_eq_some_iff.mp hlast
  have hsynopsis : ¬ (before ++ [mainId env chain' b] = [] ∨
      before ++ [mainId env chain' b] = [.null]) := by
    rintro (hnil | hsingle)
    · simp at hnil
    · rw [hsingle] at hlast
      exact hnull (Option.some.inj hlast).symm
  have hscan : findLastKnown env r (before ++ [mainId env chain' b]).reverse =
      .ok (mainId env chain' b) := by
    have hhere := isLastKnown_inside hr hnull (by omega) (by omega) hknown
    rw [hnum, decide_eq_true rfl] at hhere
    rw [List.reverse_append, List.reverse_singleton, List.singleton_append, findLastKnown, hhere]
    rfl
  have hlist : listIds env r (2 ^ 33) limit b = _ := listIds_limit hr hpos hb
  have hcount : min limit (chain'.length + 1 - b) =
      min (b + limit - 1) chain'.length - b + 1 := by omega
  rw [hcount, List.range'_succ, List.map_cons] at hlist
  change listIds env r (2 ^ 33) limit b =
    .ok (mainId env chain' b :: idsAfter env chain' b (min (b + limit - 1) chain'.length)) at hlist
  unfold getBlockIds
  rw [if_neg (by rw [hr.headNum]; omega), if_neg hsynopsis]
  simp only [hscan, bind, Except.bind, hnum, hlist, pure, Except.pure]
  rw [idsAfter_cons hpos (le_min (by omega) hb),
    remaining_idsAfter hr (by omega) (min_le_right _ _)]

/-- The blocks that a peer has still to tell of can have been made by now. -/
structure Plausible (s : NetNode) (p : PeerId) : Prop where
  made : (s.peers p).lastBlockTimeDelegateHasSeen +
      (s.peers p).numberOfUnfetchedItemIds * wlsBlockInterval ≤
    toSec s.now + futureSyncBlocksGracePeriodSec
  word : toSec s.now + futureSyncBlocksGracePeriodSec < 2 ^ 32

/-- Plausible offers are not refused. -/
theorem Plausible.offers {s : NetNode} {p : PeerId} (h : Plausible s p) :
    offersTooMany s p = false := by
  have hmade := h.made
  have hword := h.word
  unfold offersTooMany
  rw [decide_eq_false_iff_not, not_lt, Nat.mod_eq_of_lt hword]
  exact (Nat.mod_le _ _).trans
    ((Nat.add_le_add_left (Nat.mod_le _ _) _).trans hmade)

/-- Fewer blocks are as plausible. -/
theorem Plausible.fewer {s s' : NetNode} {p : PeerId} (h : Plausible s p)
    (htime : (s'.peers p).lastBlockTimeDelegateHasSeen =
      (s.peers p).lastBlockTimeDelegateHasSeen)
    (hnumber : (s'.peers p).numberOfUnfetchedItemIds ≤ (s.peers p).numberOfUnfetchedItemIds)
    (hnow : s'.now = s.now) : Plausible s' p := by
  refine ⟨?_, hnow ▸ h.word⟩
  rw [htime, hnow]
  exact (Nat.add_le_add_left (Nat.mul_le_mul_right _ hnumber) _).trans h.made

/-- The node has asked a peer for the ids after those that it has offered, up to a height below the
head of the peer. -/
structure Asked (env : Env) (chain chain' : List BlockCall) (n : Node) (s : NetNode) (p : PeerId)
    (b : ℕ) : Prop where
  offers : Offers env chain chain' (s.peers p) b
  more : b < chain'.length
  credible : Plausible s p
  request : ∃ part synopsis time,
    getBlockchainSynopsis env (s.peers p).lastBlockDelegateHasSeen
      ((s.peers p).idsOfItemsToGet.length % 2 ^ 32) n = .ok part ∧
    completeSynopsis part (s.peers p).idsOfItemsToGet = .ok synopsis ∧
    (s.peers p).itemIdsRequestedFromPeer = some (synopsis, time)

/-- The node asks no more: it has the ids of the whole main chain of the peer after the block that
the client has from it, or more than enough of them to turn to the blocks. -/
def Settled (env : Env) (chain' : List BlockCall) (reference : ℕ) (c : PeerConnection) : Prop :=
  c.itemIdsRequestedFromPeer = none ∧ ∃ e ≤ chain'.length,
    c.idsOfItemsToGet = idsAfter env chain' reference e ∧
    c.numberOfUnfetchedItemIds = chain'.length - e ∧
    (e = chain'.length ∨ minBlockIdsToPrefetch < c.idsOfItemsToGet.length)

/-- The ids of an answer lead on from the last id that the peer has offered. -/
def LeadsOn (p : PeerId) (m : Moment NetNode (List ItemHash)) : Prop :=
  ∃ last more, (m.before.peers p).idsOfItemsToGet.getLast? = some last ∧ m.event = last :: more ∧
    (m.after.peers p).idsOfItemsToGet = (m.before.peers p).idsOfItemsToGet ++ more

variable {net : NetEnv} {client : (q : Query) → q.Answer} {s : NetNode} {p : PeerId}

/-- The handler clears the request and considers the ids of a valid answer. -/
theorem handler_alone {synopsis ids : List ItemHash} {time : TimePoint} {itemType total : ℕ}
    (hrequest : (s.peers p).itemIdsRequestedFromPeer = some (synopsis, time))
    (hvalid : isValidResponse synopsis ids = true) {u : NetNode}
    (hconsider : (considerItemIds net p itemType total ids).alone client
      (s.onPeer p fun c => { c with itemIdsRequestedFromPeer := none }) = (.ok (), u)) :
    ((onBlockchainItemIdsInventory net p itemType total ids).alone client s).2 = u := by
  have hread : (peer p).alone client s = (.ok (s.peers p), s) := rfl
  have hclear : (onPeer p fun c => { c with itemIdsRequestedFromPeer := none }).alone client s =
      (.ok (), s.onPeer p fun c => { c with itemIdsRequestedFromPeer := none }) := rfl
  unfold onBlockchainItemIdsInventory
  rw [Task.alone_bind hread]
  simp only [hrequest, hvalid, if_true]
  rw [Task.alone_bind hclear, Task.alone_bind (Task.alone_attempt hconsider)]
  rfl

/-- An answer with more than the last id has something new. -/
theorem nothingNew_alone {first : ItemHash} {rest : List ItemHash} (hrest : rest ≠ [])
    (itemType total : ℕ) :
    (nothingNew itemType total (first :: rest)).alone client s = (.ok false, s) := by
  obtain ⟨next, more, rfl⟩ := List.exists_cons_of_ne_nil hrest
  unfold nothingNew
  split <;> rfl

/-- The ids of an answer that leads on join those that the peer has offered. -/
theorem considerItemIds_alone {first : ItemHash} {ids rest : List ItemHash} {itemType total : ℕ}
    (hids : (s.peers p).idsOfItemsToGet = ids ++ [first]) (hrest : rest ≠ []) :
    (considerItemIds net p itemType total (first :: rest)).alone client s =
      (afterItemIds net p itemType total).alone client (s.onPeer p (led ids first rest total)) := by
  have hread : (peer p).alone client s = (.ok (s.peers p), s) := rfl
  let counted := s.onPeer p fun c => { c with numberOfUnfetchedItemIds := total }
  have hcount : (onPeer p fun c => { c with numberOfUnfetchedItemIds := total }).alone client s =
      (.ok (), counted) := rfl
  have hcounted : (counted.peers p).idsOfItemsToGet = ids ++ [first] := by
    rw [NetNode.onPeer_self]
    exact hids
  have hadd : (addOffered p itemType total (first :: rest)).alone client counted =
      (.ok (), s.onPeer p (led ids first rest total)) := by
    rw [addOffered_last hcounted, onPeer_onPeer]
    rfl
  unfold considerItemIds
  rw [Task.alone_bind (nothingNew_alone hrest itemType total), Task.alone_bind hread,
    if_neg fun h => Bool.false_ne_true h.1, Task.alone_bind hcount, Task.alone_bind hadd]

/-- What a peer has offered, seen in the ids, the reference point and the number of those left. -/
theorem Offers.congr {d : PeerConnection} (h : Offers env chain chain' c b)
    (hseen : d.lastBlockDelegateHasSeen = c.lastBlockDelegateHasSeen)
    (hids : d.idsOfItemsToGet = c.idsOfItemsToGet)
    (hnumber : d.numberOfUnfetchedItemIds = c.numberOfUnfetchedItemIds) :
    Offers env chain chain' d b := by
  refine ⟨hseen ▸ h.reference, ?_, h.inside, ?_, hnumber.trans h.remaining⟩
  · rw [hseen]
    exact h.beyond
  · rw [hids, hseen]
    exact h.ids

/-- The offers after an answer that leads on up to a greater height. -/
theorem Offers.led {e : ℕ} (h : Offers env chain chain' c b) (hbe : b ≤ e)
    (he : e ≤ chain'.length) :
    Offers env chain chain' (led (idsAfter env chain'
      (referenceHeight chain c.lastBlockDelegateHasSeen) (b - 1)) (mainId env chain' b)
        (idsAfter env chain' b e) (chain'.length - e) c) e := by
  have hbeyond := h.beyond
  refine ⟨h.reference, Nat.lt_of_lt_of_le hbeyond hbe, he, ?_, rfl⟩
  change _ ++ _ :: _ = idsAfter env chain' (referenceHeight chain c.lastBlockDelegateHasSeen) e
  rw [← idsAfter_append hbeyond.le hbe, idsAfter_concat hbeyond, List.append_assoc,
    List.singleton_append]

/-- The answer of the peer is valid. -/
theorem isValidResponse_last {e : ℕ} {synopsis : List ItemHash}
    (hr : OnChain env initSupply chain' r) (hpos : 1 ≤ b) (hbe : b ≤ e) (he : e ≤ chain'.length)
    (hlast : synopsis.getLast? = some (mainId env chain' b)) :
    isValidResponse synopsis (mainId env chain' b :: idsAfter env chain' b e) = true := by
  have hsequential := isSequential_idsAfter (a := b - 1) hr (b := e) he
  rw [← idsAfter_cons hpos hbe] at hsequential
  have hmem := List.mem_of_getLast? hlast
  have hne : synopsis ≠ [] := List.ne_nil_of_mem hmem
  simp only [isValidResponse, hsequential, if_neg hne, hmem, decide_true, Bool.and_self]

/-- The step lemma: the answer leads on from the last id that the peer has offered, and the node
asks again or has settled. -/
theorem Asked.round (h : Asked env chain chain' n s p b) (hn : OnChain env initSupply chain n)
    (hr : OnChain env initSupply chain' r) (hclient : Serves env n client)
    (hknown : isKnownBlock env (mainId env chain' b) r = true) (hlimit : 2 ≤ limit) :
    ∃ ids s', Round env net client limit r p ids s s' ∧ LeadsOn p ⟨s, ids, s'⟩ ∧
      (s'.peers p).lastBlockDelegateHasSeen = (s.peers p).lastBlockDelegateHasSeen ∧
      ((∃ e, b < e ∧ Asked env chain chain' n s' p e) ∨ Settled env chain'
        (referenceHeight chain (s.peers p).lastBlockDelegateHasSeen) (s'.peers p)) := by
  have hbeyond := h.offers.beyond
  have hmore := h.more
  obtain ⟨part, synopsis, time, hpart, hsynopsis, hrequest⟩ := h.request
  obtain ⟨part', synopsis', hpart', hsynopsis', hlast⟩ := h.offers.synopsis hn hr
  obtain rfl := Except.ok.inj (hpart.symm.trans hpart')
  obtain rfl := Except.ok.inj (hsynopsis.symm.trans hsynopsis')
  have hanswer := getBlockIds_last hr (by omega) h.offers.inside hlast hknown (by omega : 1 ≤ limit)
  have hbe : b < min (b + limit - 1) chain'.length := by omega
  have he : min (b + limit - 1) chain'.length ≤ chain'.length := min_le_right _ _
  generalize min (b + limit - 1) chain'.length = e at hanswer hbe he
  have hids := h.offers.ids
  rw [idsAfter_concat hbeyond] at hids
  have hrest : idsAfter env chain' b e ≠ [] := by
    rw [← List.length_pos_iff]
    simp only [idsAfter, List.length_map, List.length_range']
    omega
  have hvalid := isValidResponse_last hr (by omega) hbe.le he hlast
  have hled := h.offers.led hbe.le he
  generalize idsAfter env chain' (referenceHeight chain (s.peers p).lastBlockDelegateHasSeen)
    (b - 1) = front at hids hled
  -- the node as it is when the ids are in place
  let cleared := s.onPeer p fun c => { c with itemIdsRequestedFromPeer := none }
  let d := led front (mainId env chain' b) (idsAfter env chain' b e) (chain'.length - e)
    { s.peers p with itemIdsRequestedFromPeer := none }
  let placed := cleared.onPeer p
    (led front (mainId env chain' b) (idsAfter env chain' b e) (chain'.length - e))
  have hcleared : (cleared.peers p).idsOfItemsToGet = front ++ [mainId env chain' b] := by
    rw [NetNode.onPeer_self]
    exact hids
  have hplaced : placed.peers p = d := by
    rw [NetNode.onPeer_self, NetNode.onPeer_self]
  have hoffers : Offers env chain chain' d e := hled.congr rfl rfl rfl
  have hcredible : Plausible placed p := by
    refine h.credible.fewer (by rw [hplaced]; rfl) ?_ rfl
    rw [hplaced, h.offers.remaining]
    exact Nat.sub_le_sub_left hbe.le _
  have hlist : d.idsOfItemsToGet = (s.peers p).idsOfItemsToGet ++ idsAfter env chain' b e := by
    change front ++ _ :: _ = _
    rw [hids, List.append_assoc, List.singleton_append]
  have hsome : d.idsOfItemsToGet ≠ [] := by
    rw [hlist, hids]
    simp
  obtain ⟨u, hupeers, hunow, hafter⟩ := afterItemIds_alone net blockMessageType
    (chain'.length - e) hclient.status hcredible.offers
  rw [← considerItemIds_alone hcleared hrest, hplaced] at hafter
  have hud : u.peers p = d := (congrFun hupeers p).trans hplaced
  have hround : ∀ w, (Task.whenever (if chain'.length - e ≠ 0 then
      d.idsOfItemsToGet.length ≤ minBlockIdsToPrefetch else d.idsOfItemsToGet = [])
        (fetchNextBatchOfItemIdsFromPeer net p)).alone client u = (.ok (), w) →
      Round env net client limit r p (mainId env chain' b :: idsAfter env chain' b e) s w := by
    intro w hw
    exact ⟨synopsis, time, chain'.length - e, blockMessageType, hrequest, hanswer,
      (handler_alone hrequest hvalid (hafter.trans hw)).symm⟩
  have hleads : ∀ w : NetNode, (w.peers p).idsOfItemsToGet = d.idsOfItemsToGet →
      LeadsOn p ⟨s, mainId env chain' b :: idsAfter env chain' b e, w⟩ := by
    intro w hw
    refine ⟨_, _, ?_, rfl, hw.trans hlist⟩
    rw [hids, List.getLast?_concat]
  by_cases hgoes : chain'.length - e ≠ 0 ∧ d.idsOfItemsToGet.length ≤ minBlockIdsToPrefetch
  · -- it asks again
    obtain ⟨part', synopsis', hpart', hsynopsis', -⟩ := hoffers.synopsis hn hr
    have hfetch : (fetchNextBatchOfItemIdsFromPeer net p).alone client u =
        (.ok (), requestItemIds p synopsis' u) :=
      fetchNextBatch_alone (by rw [hud]; exact hclient.synopsis _ _ part' hpart')
        (by rw [hud]; exact hsynopsis')
    have hconnection : (requestItemIds p synopsis' u).peers p =
        { d with
          itemIdsRequestedFromPeer := some (synopsis', u.now), lastMessageSentTime := u.now } := by
      simp only [requestItemIds, NetNode.send, onPeer_onPeer, NetNode.onPeer_self, hud]
      rfl
    have hasked : Asked env chain chain' n (requestItemIds p synopsis' u) p e := by
      refine ⟨?_, by omega, hcredible.fewer ?_ ?_ hunow, part', synopsis', u.now, ?_, ?_, ?_⟩
      · rw [hconnection]
        exact hoffers.congr rfl rfl rfl
      · rw [hconnection, hplaced]
      · rw [hconnection, hplaced]
      · rw [hconnection]
        exact hpart'
      · rw [hconnection]
        exact hsynopsis'
      · rw [hconnection]
    have hids' : ((requestItemIds p synopsis' u).peers p).idsOfItemsToGet = d.idsOfItemsToGet := by
      rw [hconnection]
    have hseen : ((requestItemIds p synopsis' u).peers p).lastBlockDelegateHasSeen =
        (s.peers p).lastBlockDelegateHasSeen := by
      rw [hconnection]
      rfl
    refine ⟨_, _, hround _ ?_, hleads _ hids', hseen, .inl ⟨e, hbe, hasked⟩⟩
    rw [Task.whenever, if_pos]
    · exact hfetch
    · rw [if_pos hgoes.1]
      exact hgoes.2
  · -- it has settled
    refine ⟨_, u, hround u ?_, hleads u (by rw [hud]), by rw [hud]; rfl, .inr ⟨by rw [hud]; rfl, e, he, ?_⟩⟩
    · rw [Task.whenever, if_neg]
      · rfl
      · intro hask
        split at hask
        next hleft => exact hgoes ⟨hleft, hask⟩
        next => exact hsome hask
    · rw [hud]
      refine ⟨hoffers.ids, hoffers.remaining, ?_⟩
      by_cases hleft : chain'.length - e = 0
      · exact .inl (by omega)
      · exact .inr (not_le.mp fun hfew => hgoes ⟨hleft, hfew⟩)

/-- The run lemma: the node asks on, each answer leads on from the last id, and after finitely many
answers the node has settled. -/
theorem exchange_completes (hn : OnChain env initSupply chain n)
    (hr : OnChain env initSupply chain' r) (hclient : Serves env n client)
    (hknown : ∀ k, 1 ≤ k → k ≤ chain'.length → isKnownBlock env (mainId env chain' k) r = true)
    (hlimit : 2 ≤ limit) (h : Asked env chain chain' n s p b) :
    ∃ run s', Path (Round env net client limit r p) s run s' ∧ (∀ m ∈ run, LeadsOn p m) ∧
      Settled env chain' (referenceHeight chain (s.peers p).lastBlockDelegateHasSeen)
        (s'.peers p) := by
  -- the induction is on the number of blocks that the peer has not offered
  induction hleft : chain'.length - b using Nat.strong_induction_on generalizing b s with
  | _ left ih =>
    have hbeyond := h.offers.beyond
    have hmore := h.more
    obtain ⟨ids, u, hround, hleads, hseen, hend⟩ :=
      h.round hn hr hclient (hknown b (by omega) hmore.le) hlimit
    rcases hend with ⟨e, hbe, hasked⟩ | hsettled
    · obtain ⟨run, s', hrun, hall, hsettled⟩ := ih _ (by omega) hasked rfl
      rw [hseen] at hsettled
      refine ⟨⟨s, ids, u⟩ :: run, s', ⟨rfl, hround, hrun⟩, fun m hm => ?_, hsettled⟩
      rcases List.mem_cons.mp hm with rfl | hm
      · exact hleads
      · exact hall m hm
    · refine ⟨[⟨s, ids, u⟩], u, .single hround, fun m hm => ?_, hsettled⟩
      rw [List.mem_singleton.mp hm]
      exact hleads

/-- Four blocks. -/
def sampleFour : List BlockCall := (List.range 4).map fun k => sampleCall (sampleChain [] k)

/-- The small node is on its chain of four blocks. -/
theorem sampleFour_onChain : OnChain sampleEnv 1000000 sampleFour (sampleNode sampleFour) := by
  have hfinds : endsIn (runBlocks sampleEnv sampleFour) (initGenesis sampleEnv 1000000)
        (fun _ s => tip (sampleNode sampleFour).state.dgp = tip s.dgp) = true ∧
      (sampleNode sampleFour).pendingSession = false ∧
      (∀ k ∈ List.range 5, findBlockIdForNum sampleEnv (sampleNode sampleFour) k =
        mainId sampleEnv sampleFour k) ∧
      (sampleNode sampleFour).blockLog.length ≤ 4 ∧
      (∀ x ∈ (sampleNode sampleFour).forkDb.index, x.num ≤ 4) ∧
      ∀ call ∈ sampleFour, call.block.header.timestamp < 2 ^ 32 := by decide +kernel
  obtain ⟨htip, hidle, hlookup, hlog, hforks, hstamps⟩ := hfinds
  obtain ⟨_, s, hreaches, hends⟩ := returns_of_endsIn htip
  have hsame : tip (sampleNode sampleFour).state.dgp = tip s.dgp := of_decide_eq_true hends
  exact onChain_of_run rfl hreaches hsame hidle hlookup hlog hforks hstamps

/-- A node that has just started. -/
theorem sampleNode_nil_onChain : OnChain sampleEnv 1000000 [] (sampleNode []) := by
  have hrun : ∀ pushes, (pushAll sampleEnv pushes (genesis sampleEnv 1000000)).2 =
      sampleNode pushes := fun _ => rfl
  have hgenesis : ∀ supply, Reaches sampleEnv supply [] (initGenesis sampleEnv supply) :=
    fun _ => rfl
  have hfinds : tip (sampleNode []).state.dgp = tip (initGenesis sampleEnv 1000000).dgp ∧
      (sampleNode []).pendingSession = false ∧
      (∀ k ∈ List.range 1,
        findBlockIdForNum sampleEnv (sampleNode []) k = mainId sampleEnv [] k) ∧
      (sampleNode []).blockLog.length ≤ 0 ∧
      ∀ x ∈ (sampleNode []).forkDb.index, x.num ≤ 0 := by decide +kernel
  obtain ⟨htip, hidle, hlookup, hlog, hforks⟩ := hfinds
  have hstamps : ∀ call ∈ ([] : List BlockCall), call.block.header.timestamp < 2 ^ 32 :=
    fun _ hmem => absurd hmem List.not_mem_nil
  exact onChain_of_run (hrun []) (hgenesis _) htip hidle hlookup hlog hforks hstamps

/-- The client of a node that has just started. -/
def newClient : (q : Query) → q.Answer
  | .getBlockchainSynopsis reference count =>
    (getBlockchainSynopsis sampleEnv reference count (sampleNode [])).mapError fun _ =>
      ⟨.other, "get_blockchain_synopsis"⟩
  | .syncStatus .. => .ok ()
  | _ => .error ⟨.other, "no answer"⟩

/-- A client with nothing serves the ids of its node. -/
theorem newClient_serves : Serves sampleEnv (sampleNode []) newClient where
  synopsis reference count part h := by
    change (getBlockchainSynopsis sampleEnv reference count (sampleNode [])).mapError _ = _
    rw [h]
    rfl
  status _ _ := rfl

/-- A node that has just started and has got the id of the first of four blocks from its peer. -/
def newNode : NetNode :=
  (NetNode.initial .initial 7 0).onPeer 0 fun c => { c with
    idsOfItemsToGet := [mainId sampleEnv sampleFour 1]
    numberOfUnfetchedItemIds := 3 }

/-- The new node gets the ids of all four blocks, from a peer that tells two at a time. -/
theorem exchange_completes_sampleFour :
    ∃ s run s', (s.peers 0).idsOfItemsToGet = [mainId sampleEnv sampleFour 1] ∧
      Path (Round sampleEnv plainEnv newClient 2 (sampleNode sampleFour) 0) s run s' ∧
      (∀ m ∈ run, LeadsOn 0 m) ∧
      (s'.peers 0).idsOfItemsToGet = (List.range' 1 4).map (mainId sampleEnv sampleFour) ∧
      (s'.peers 0).numberOfUnfetchedItemIds = 0 := by
  have hfinds : (∀ k ∈ List.range 5, 1 ≤ k → isKnownBlock sampleEnv (mainId sampleEnv sampleFour k)
        (sampleNode sampleFour) = true) ∧
      (newNode.peers 0).idsOfItemsToGet = idsAfter sampleEnv sampleFour 0 1 := by
    decide +kernel
  obtain ⟨hblocks, hids⟩ := hfinds
  have hknown : ∀ k, 1 ≤ k → k ≤ sampleFour.length →
      isKnownBlock sampleEnv (mainId sampleEnv sampleFour k) (sampleNode sampleFour) = true :=
    fun k hpos hk => hblocks k (List.mem_range.mpr (Nat.lt_succ_of_le hk)) hpos
  have hoffers : Offers sampleEnv [] sampleFour (newNode.peers 0) 1 :=
    ⟨.inl rfl, Nat.one_pos, by decide, hids, rfl⟩
  obtain ⟨part, synopsis, hpart, hsynopsis, -⟩ :=
    hoffers.synopsis sampleNode_nil_onChain sampleFour_onChain
  have hconnection : (requestItemIds 0 synopsis newNode).peers 0 = { newNode.peers 0 with
      itemIdsRequestedFromPeer := some (synopsis, 0), lastMessageSentTime := 0 } := by
    simp only [requestItemIds, NetNode.send, onPeer_onPeer, NetNode.onPeer_self]
    rfl
  have hasked : Asked sampleEnv [] sampleFour (sampleNode []) (requestItemIds 0 synopsis newNode) 0
      1 := by
    have hcredible : Plausible newNode 0 := ⟨by decide, by decide⟩
    refine ⟨?_, by decide, hcredible.fewer ?_ ?_ rfl, part, synopsis, 0, ?_, ?_, ?_⟩
    · rw [hconnection]
      exact hoffers.congr rfl rfl rfl
    · rw [hconnection]
    · rw [hconnection]
    · rw [hconnection]
      exact hpart
    · rw [hconnection]
      exact hsynopsis
    · rw [hconnection]
  obtain ⟨run, s', hrun, hleads, -, e, he, hids', hleft, hend⟩ := exchange_completes
    sampleNode_nil_onChain sampleFour_onChain newClient_serves hknown (le_refl 2) hasked
  have hall : e = sampleFour.length := by
    refine hend.resolve_right fun hlong => ?_
    rw [hids'] at hlong
    simp only [idsAfter, List.length_map, List.length_range'] at hlong
    have hfour : sampleFour.length = 4 := rfl
    have henough : minBlockIdsToPrefetch = 10000 := rfl
    omega
  refine ⟨_, run, s', ?_, hrun, hleads, ?_, ?_⟩
  · rw [hconnection]
    rfl
  · rw [hids', hall, hconnection]
    rfl
  · rw [hleft, hall, Nat.sub_self]

end Rounds

end Whaleshares.IdExchange
