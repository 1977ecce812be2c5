import Whaleshares.NetworkRuns

/-!
# Which connections the node gives up

The loop that closes inactive connections goes over the active ones. It leaves the loop at the
first peer that has not answered a request for sync blocks in time, before it has put the peer on
a list. So it never closes the connection of such a peer for it, and it does not get to the peers
that come after.
-/

namespace Whaleshares.InactivePeers

open Config Fc Protocol MessageCache Peers Cooperation SyncTasks InventoryTasks NetworkTasks
  NetworkSteps NetworkRuns

section Verdicts

variable {n : NetNode} {p : PeerId} {v : Verdict}

/-- The loop over the active peers gets to a peer. -/
def Reached (n : NetNode) (p : PeerId) : Prop :=
  ∃ before after, n.activeConnections = before ++ p :: after ∧
    ∀ q ∈ before, inspect n (n.peers q) ≠ .leaveLoop

/-- An element is in the front exactly if the test holds of it and of all before it. -/
theorem mem_takeWhile_iff {α : Type} {test : α → Bool} {x : α} {l : List α} :
    x ∈ l.takeWhile test ↔
      ∃ before after, l = before ++ x :: after ∧ (∀ y ∈ before, test y = true) ∧ test x = true := by
  constructor
  · intro hx
    obtain ⟨before, later, hsplit⟩ := List.append_of_mem hx
    have hall : ∀ y ∈ before ++ x :: later, test y = true := fun y hy =>
      List.mem_takeWhile_imp (hsplit ▸ hy)
    refine ⟨before, later ++ l.dropWhile test, ?_, fun y hy => ?_, ?_⟩
    · rw [← List.cons_append, ← List.append_assoc, ← hsplit, List.takeWhile_append_dropWhile]
    · exact hall y (List.mem_append_left _ hy)
    · exact hall x (List.mem_append_right _ List.mem_cons_self)
  · rintro ⟨before, after, rfl, hbefore, hx⟩
    rw [List.takeWhile_append_of_pos hbefore, List.takeWhile_cons_of_pos hx]
    exact List.mem_append_right _ List.mem_cons_self

/-- A peer is put on a list for its verdict when the loop gets to it. -/
theorem mem_judged_iff (hv : v ≠ .leaveLoop) :
    p ∈ judged n v ↔ Reached n p ∧ inspect n (n.peers p) = v := by
  unfold judged inspected
  rw [List.takeWhile_map]
  simp only [List.mem_map, List.mem_filter, decide_eq_true_eq]
  constructor
  · rintro ⟨entry, ⟨⟨q, hq, rfl⟩, hverdict⟩, rfl⟩
    obtain ⟨before, after, hsplit, hbefore, -⟩ := mem_takeWhile_iff.mp hq
    refine ⟨⟨before, after, hsplit, fun x hx => ?_⟩, hverdict⟩
    simpa using hbefore x hx
  · rintro ⟨⟨before, after, hsplit, hbefore⟩, hverdict⟩
    refine ⟨(p, v), ⟨⟨p, ?_, ?_⟩, rfl⟩, rfl⟩
    · refine mem_takeWhile_iff.mpr ⟨before, after, hsplit, fun x hx => ?_, ?_⟩
      · simpa using hbefore x hx
      · simpa [hverdict] using hv
    · rw [hverdict]

end Verdicts

section Round

variable {env : NetEnv} {n : NetNode} {p : PeerId}

/-- A fold that takes every element of a list out of the active connections. -/
theorem active_foldl_filter {f : NetNode → PeerId → NetNode}
    (hf : ∀ n p, (f n p).activeConnections = n.activeConnections.filter (· ≠ p))
    (l : List PeerId) (n : NetNode) :
    (l.foldl f n).activeConnections = n.activeConnections.filter (· ∉ l) := by
  induction l generalizing n with
  | nil => simp
  | cons q rest ih =>
    rw [List.foldl_cons, ih, hf, List.filter_filter]
    refine List.filter_congr fun x _ => ?_
    simp [Bool.and_comm]

/-- A loop of steps that keep the active connections keeps them. -/
theorem active_foldl_keep {f : NetNode → PeerId → NetNode}
    (hf : ∀ n p, (f n p).activeConnections = n.activeConnections) (l : List PeerId)
    (n : NetNode) : (l.foldl f n).activeConnections = n.activeConnections := by
  induction l generalizing n with
  | nil => rfl
  | cons q rest ih => rw [List.foldl_cons, ih, hf]

/-- Starting to disconnect takes the peer from the active connections. -/
theorem active_startDisconnecting (p : PeerId) (reason : String) (dueToError : Bool)
    (n : NetNode) : (startDisconnecting env p reason dueToError n).activeConnections =
      n.activeConnections.filter (· ≠ p) := by
  unfold startDisconnecting
  dsimp only
  split
  · rfl
  · rfl

/-- The check of the inactive connections takes away the peers that it judges so. -/
theorem active_terminateInactiveConnections (n : NetNode) :
    (terminateInactiveConnections env n).activeConnections =
      n.activeConnections.filter fun p => decide (p ∉ judged n .disconnectGently) &&
        decide (p ∉ stalledHandshakes n ++ judged n .disconnectForcibly ++ lateClosers n) := by
  unfold terminateInactiveConnections
  dsimp only
  have hsend : ∀ (n : NetNode) p, (n.send p .currentTimeRequest).activeConnections =
      n.activeConnections := fun _ _ => rfl
  have hforce : ∀ (n : NetNode) p,
      (closeConnection env p (n.movePeerToTerminatingList p)).activeConnections =
        n.activeConnections.filter (· ≠ p) := fun _ _ => rfl
  have hdelete : ∀ (n : NetNode) p, (deletePeer p { n with
      terminatingConnections := n.terminatingConnections.filter (· ≠ p) }).activeConnections =
        n.activeConnections := fun _ _ => rfl
  rw [active_foldl_keep hsend, active_foldl_filter fun n p => active_startDisconnecting p _ _ n,
    active_foldl_filter hforce, active_foldl_keep hdelete, List.filter_filter]

/-- An active connection is in none of the other lists. -/
theorem Orderly.active_only (hn : Orderly n) (hp : p ∈ n.activeConnections) :
    p ∉ n.handshakingConnections ∧ p ∉ n.closingConnections ∧ p ∉ n.terminatingConnections := by
  have hlists := hn.lists
  unfold connections at hlists
  rw [List.append_assoc, List.append_assoc] at hlists
  have hapart := (List.nodup_append.mp hlists).2.2 p hp
  refine ⟨fun h => hapart p ?_ rfl, fun h => hapart p ?_ rfl, fun h => hapart p ?_ rfl⟩
  · exact List.mem_append_left _ h
  · exact List.mem_append_right _ (List.mem_append_left _ h)
  · exact List.mem_append_right _ (List.mem_append_right _ h)

variable {w : Network}

/-- A round of the loop closes the connection of an active peer if and only if it gets to the peer
and finds it inactive: no peer before it, and not the peer itself, has failed to answer a request
for sync blocks in time. -/
theorem active_after_iff (h : Reachable env w) :
    p ∈ (terminateInactiveConnections env w.state).activeConnections ↔
      p ∈ w.state.activeConnections ∧ ¬ (Reached w.state p ∧
        (inspect w.state (w.state.peers p) = .disconnectGently ∨
          inspect w.state (w.state.peers p) = .disconnectForcibly)) := by
  have hn := h.kept.inv
  rw [active_terminateInactiveConnections, List.mem_filter]
  refine and_congr_right fun hp => ?_
  obtain ⟨hhandshaking, hclosing, -⟩ := Orderly.active_only hn hp
  have hstalled : p ∉ stalledHandshakes w.state := fun h => hhandshaking (List.mem_filter.mp h).1
  have hlate : p ∉ lateClosers w.state := fun h => hclosing (List.mem_filter.mp h).1
  simp only [Bool.and_eq_true, decide_eq_true_eq, List.mem_append, hstalled, hlate, false_or,
    or_false]
  rw [mem_judged_iff (by simp), mem_judged_iff (by simp)]
  tauto

/-- A second peer has connected and offers two blocks. -/
def twoPeers : Network :=
  let connected := joined.run .outside (Task.change (connect false 9 0))
  let second := (NetworkRuns.resume newClient (.reader 1))^[3]
    (connected.run (.reader 1) (joinActive plainEnv 1))
  (NetworkRuns.resume newClient (.reader 1))^[3] (second.run (.reader 1)
    (handleMessage plainEnv 1 (.blockchainItemIdsInventory 0 1001 [⟨1, 5⟩, ⟨2, 6⟩])))

/-- The second peer has been asked for the blocks, and seven seconds have passed. The first one has
not said what blocks it has. -/
def unanswered : Network :=
  (twoPeers.run .fetchSyncItemsLoop (Task.change fetchSyncItems)).run .outside
    (Task.change fun n => { n with now := seconds 7 })

/-- What the steps find: the second peer comes first in the list and is late with its answer, and
the first one is found inactive. -/
theorem unanswered_finds :
    let connected := joined.run .outside (Task.change (connect false 9 0))
    let second := (NetworkRuns.resume newClient (.reader 1))^[3]
      (connected.run (.reader 1) (joinActive plainEnv 1))
    let asked := twoPeers.run .fetchSyncItemsLoop (Task.change fetchSyncItems)
    ((joined.waiting .outside).isNone ∧ joined.state.nextPeer = 1 ∧
      1 ∉ connections joined.state ∧ (connected.waiting (.reader 1)).isNone ∧
      1 ∈ connected.state.handshakingConnections ∧ (second.waiting (.reader 1)).isNone ∧
      1 ∈ second.state.activeConnections) ∧
    ((twoPeers.waiting .fetchSyncItemsLoop).isNone ∧ (asked.waiting .outside).isNone ∧
      asked.state.now ≤ seconds 7) ∧
    unanswered.state.activeConnections = [1, 0] ∧
      inspect unanswered.state (unanswered.state.peers 1) = .leaveLoop ∧
      inspect unanswered.state (unanswered.state.peers 0) = .disconnectForcibly := by
  decide +kernel

/-- The small world with unanswered peers is reachable. -/
theorem unanswered_reachable : Reachable plainEnv unanswered := by
  obtain ⟨⟨houtside, hnext, hnew, hfree, hshakes, hreader, hactive⟩, ⟨hloop, hidle, hlater⟩, -⟩ :=
    unanswered_finds
  simp only [Option.isNone_iff_eq_none] at houtside hfree hreader hloop hidle
  have hconnected := joined_reachable.begin houtside
    (.connect false 9 0 (by rw [hnext]; simpa [connected, connections, or_assoc] using hnew))
  have hsecond := (hconnected.begin hfree (.handshakeDone 1 hshakes)).iterate newClient (.reader 1) 3
  have htwo : Reachable plainEnv twoPeers :=
    (hsecond.begin hreader (.message 1 _ (.inl hactive))).iterate ..
  exact (htwo.begin hloop .fetchSyncItems).begin hidle (.tick (seconds 7) hlater)

/-- The loop is left at the second peer, so that the first one stays connected as well. -/
theorem active_after_iff_unanswered :
    inspect unanswered.state (unanswered.state.peers 0) = .disconnectForcibly ∧
      0 ∈ (terminateInactiveConnections plainEnv unanswered.state).activeConnections ∧
      1 ∈ (terminateInactiveConnections plainEnv unanswered.state).activeConnections := by
  obtain ⟨-, -, hlist, hlate, hinactive⟩ := unanswered_finds
  have hiff := fun p => active_after_iff (p := p) unanswered_reachable
  rw [hlist] at hiff
  refine ⟨hinactive, (hiff 0).mpr ⟨by simp, fun hclosed => ?_⟩,
    (hiff 1).mpr ⟨by simp, fun hclosed => ?_⟩⟩
  · -- the late peer comes before it
    obtain ⟨⟨before, after, hsplit, hpassed⟩, -⟩ := hclosed
    rw [hlist] at hsplit
    refine hpassed 1 ?_ hlate
    cases before with
    | nil => cases hsplit
    | cons q rest =>
      rw [List.cons_append] at hsplit
      exact (List.cons.inj hsplit).1 ▸ List.mem_cons_self
  · rw [hlate] at hclosed
    simp at hclosed

end Round

end Whaleshares.InactivePeers
