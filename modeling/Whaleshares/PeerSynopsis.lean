import Whaleshares.SyncHandshake
import Whaleshares.SyncTasks

/-!
# The synopsis for a peer

The synopsis that a node sends to a peer describes the main chain up to the last block that the
client has from this peer, and after it the ids that the peer has already offered. The client
makes the first part, the network code the second one, each with a loop of its own. The two parts
fit together: the synopsis halves the distance to the last offered id as if one loop had made it.
-/

namespace Whaleshares.PeerSynopsis

open Config Fc Protocol Objects Program Database ApplyBlock Genesis ChainRun Footprint BlockLookup
  Node SyncHandshake SyncTasks MessageCache

section Heights

variable {high low rounds h : ℕ}

/-- The heights up to `h` end where the halving leaves them. -/
theorem filter_heightsFrom_above (hlow : h < low) :
    (heightsFrom high rounds low).filter (fun k => decide (k ≤ h)) = [] := by
  refine List.filter_eq_nil_iff.mpr fun k hk => ?_
  have hle := le_of_mem_heightsFrom hk
  simp only [decide_eq_true_eq]
  omega

/-- A rising list is cut in two by a bound. -/
theorem filter_append_filter {l : List ℕ} (hrising : l.Pairwise (· < ·)) :
    l.filter (fun k => decide (k ≤ h)) ++ l.filter (fun k => decide (h + 1 ≤ k)) = l := by
  induction hrising with
  | nil => rfl
  | @cons a rest hall hrest ih =>
    by_cases ha : a ≤ h
    · have hnot : ¬ h + 1 ≤ a := by omega
      simp only [List.filter_cons, ha, hnot, decide_true, decide_false, if_true,
        Bool.false_eq_true, if_false, List.cons_append, ih]
    · have hbelow : rest.filter (fun k => decide (k ≤ h)) = [] := by
        refine List.filter_eq_nil_iff.mpr fun k hk => ?_
        have hlt := hall k hk
        simp only [decide_eq_true_eq]
        omega
      have habove : rest.filter (fun k => decide (h + 1 ≤ k)) = rest := by
        refine List.filter_eq_self.mpr fun k hk => ?_
        have hlt := hall k hk
        simp only [decide_eq_true_eq]
        omega
      have hge : h + 1 ≤ a := by omega
      simp only [List.filter_cons, ha, hge, decide_true, decide_false, if_true,
        Bool.false_eq_true, if_false, hbelow, habove, List.nil_append]

end Heights

section Parts

variable {env : Env} {initSupply : ℕ} {chain : List BlockCall} {n : Node} {h high low rounds : ℕ}

/-- The loop of the client goes over the heights of the halving that are on the main chain. -/
theorem collect_filter (hchain : OnChain env initSupply chain n) (start more : ℕ) (hpos : 1 ≤ low)
    (hlow : low ≤ h) (hh : h ≤ chain.length) (hhigh : h ≤ high) (hlt : high + 1 < 2 ^ 32)
    (hrounds : high - low < rounds) :
    collect env n ⟨start, h, h, []⟩ high (rounds + more) low =
      .ok (((heightsFrom high rounds low).filter fun k => k ≤ h).map (mainId env chain)) := by
  induction rounds generalizing low with
  | zero => omega
  | succ rounds ih =>
    have hnext := nextLow_eq (hlow.trans hhigh) hlt hpos
    have hid : idAt env n ⟨start, h, h, []⟩ low = .ok (mainId env chain low) := by
      unfold idAt
      rw [if_pos hlow]
      exact hchain.getBlockIdForNum hpos (hlow.trans hh)
    rw [Nat.add_right_comm, collect, heightsFrom, hid, hnext]
    simp only [List.filter_cons, hlow, decide_true, if_true, List.map_cons]
    change (if low + (high - low + 2) / 2 ≤ h then _ else _) = _
    by_cases hmore : low + (high - low + 2) / 2 ≤ h
    · have hlt' : low < high := by omega
      rw [if_pos hmore, if_pos hlt', ih (by omega) hmore (by omega)]
      rfl
    · rw [if_neg hmore]
      have hrest : (if low < high then heightsFrom high rounds (low + (high - low + 2) / 2)
          else []).filter (fun k => decide (k ≤ h)) = [] := by
        split
        · exact filter_heightsFrom_above (by omega)
        · rfl
      rw [hrest]
      rfl

/-- A round adds the id that the peer offers at a height. -/
theorem missingId_eq {ids : List ItemHash} {first : ℕ} (h : low < first + ids.length) :
    missingId ids first low =
      .ok (([low].filter fun k => first ≤ k).map fun k => ids.getD (k - first) .null) := by
  unfold missingId
  by_cases hfirst : first ≤ low
  · have hinside : low - first < ids.length := by omega
    simp [hfirst, List.getElem?_eq_getElem hinside]
  · simp [hfirst]

/-- The loop of the network code goes over the heights of the halving that the peer offers. -/
theorem addMissing_filter {ids : List ItemHash} {first : ℕ} (more : ℕ)
    (hids : high + 1 = first + ids.length) (hpos : 1 ≤ low) (hlow : low ≤ high)
    (hlt : high + 1 < 2 ^ 32) (hrounds : high - low < rounds) :
    addMissing ids first high (rounds + more) low =
      .ok (((heightsFrom high rounds low).filter fun k => first ≤ k).map
        fun k => ids.getD (k - first) .null) := by
  induction rounds generalizing low with
  | zero => omega
  | succ rounds ih =>
    have hnext := nextLow_eq hlow hlt hpos
    have hhere : missingId ids first low = _ := missingId_eq (by omega)
    have hsplit : heightsFrom high (rounds + 1) low = [low] ++
        (if low < high then heightsFrom high rounds (low + (high - low + 2) / 2) else []) := rfl
    rw [Nat.add_right_comm, addMissing, hhere, hnext, hsplit, List.filter_append, List.map_append]
    change (if low + (high - low + 2) / 2 ≤ high then _ else _) = _
    by_cases hmore : low + (high - low + 2) / 2 ≤ high
    · rw [if_pos hmore, if_pos (by omega), ih (by omega) hmore (by omega)]
      rfl
    · rw [if_neg hmore, if_neg (by omega)]
      simp only [List.filter_nil, List.map_nil, List.append_nil]
      rfl

end Parts

section Synopsis

variable (env : Env) {initSupply : ℕ} {chain : List BlockCall} {n : Node}

/-- The number of the last block that the client has from a peer, or of its head block when it
has none. -/
def referenceHeight (chain : List BlockCall) (reference : ItemHash) : ℕ :=
  if reference = .null then chain.length else reference.num

/-- The height at which the synopsis for a peer starts. -/
def lowestHeight (n : Node) (h : ℕ) : ℕ := max 1 (min (lastNonUndoableBlockNum n) h)

/-- The block of the main chain at a height, or the id that the peer has offered for it. -/
def describedId (chain : List BlockCall) (h : ℕ) (ids : List ItemHash) (k : ℕ) : ItemHash :=
  if k ≤ h then mainId env chain k else ids.getD (k - (h + 1)) .null

/-- A point on the main chain, or none. -/
def OnMainChain (chain : List BlockCall) (reference : ItemHash) : Prop :=
  reference = .null ∨ ∃ k, 1 ≤ k ∧ k ≤ chain.length ∧ reference = mainId env chain k

variable {env} {reference : ItemHash} {ids : List ItemHash}

/-- The height of the reference is within the chain. -/
theorem referenceHeight_le (hchain : OnChain env initSupply chain n)
    (hreference : OnMainChain env chain reference) :
    referenceHeight chain reference ≤ chain.length := by
  unfold referenceHeight
  rcases hreference with rfl | ⟨k, hpos, hk, rfl⟩
  · rw [if_pos rfl]
  · rw [if_neg (hchain.mainId_ne_null hpos hk), hchain.num_mainId hpos hk]
    exact hk

/-- On a chain with blocks the reference has a height. -/
theorem referenceHeight_pos (hchain : OnChain env initSupply chain n)
    (hreference : OnMainChain env chain reference) (hne : chain ≠ []) :
    1 ≤ referenceHeight chain reference := by
  unfold referenceHeight
  rcases hreference with rfl | ⟨k, hpos, hk, rfl⟩
  · rw [if_pos rfl]
    exact List.length_pos_iff.mpr hne
  · rw [if_neg (hchain.mainId_ne_null hpos hk), hchain.num_mainId hpos hk]
    exact hpos

/-- The client describes the blocks up to the reference point. -/
theorem describedSpan_eq (hchain : OnChain env initSupply chain n)
    (hreference : OnMainChain env chain reference) :
    ∃ start, (if start = 0 then 1 else start) =
        lowestHeight n (referenceHeight chain reference) ∧
      describedSpan env reference n = .ok (if referenceHeight chain reference = 0 then none
        else some ⟨start, referenceHeight chain reference, referenceHeight chain reference,
          []⟩) := by
  have hirreversible := hchain.irreversible
  rcases hreference with rfl | ⟨k, hpos, hk, rfl⟩
  · have hheight : referenceHeight chain .null = chain.length := if_pos rfl
    refine ⟨lastNonUndoableBlockNum n, ?_, ?_⟩
    · unfold lowestHeight
      rw [hheight]
      split <;> omega
    · unfold describedSpan
      rw [if_neg (by simp), hheight, hchain.headNum]
      split <;> rfl
  · have hheight : referenceHeight chain (mainId env chain k) = k := by
      unfold referenceHeight
      rw [if_neg (hchain.mainId_ne_null hpos hk), hchain.num_mainId hpos hk]
    have hincluded : isIncludedBlock env (mainId env chain k) n = .ok true := by
      unfold isIncludedBlock
      rw [hchain.num_mainId hpos hk, hchain.getBlockIdForNum hpos hk]
      simp [bind, Except.bind, pure, Except.pure]
    refine ⟨(mainSpan (mainId env chain k) n).low, ?_, ?_⟩
    · unfold lowestHeight mainSpan
      rw [hheight, hchain.num_mainId hpos hk]
      dsimp only
      split <;> split <;> omega
    · unfold describedSpan
      rw [if_pos (hchain.mainId_ne_null hpos hk), hincluded, hheight, if_neg (by omega)]
      simp [bind, Except.bind, pure, Except.pure, mainSpan, hchain.num_mainId hpos hk]

/-- The part of the synopsis that the client makes. -/
theorem getBlockchainSynopsis_part (hchain : OnChain env initSupply chain n)
    (hreference : OnMainChain env chain reference) (count : ℕ)
    (hlt : referenceHeight chain reference + count + 1 < 2 ^ 32) :
    getBlockchainSynopsis env reference count n =
      .ok (((synopsisHeights (lowestHeight n (referenceHeight chain reference))
        (referenceHeight chain reference + count)).filter
          fun k => k ≤ referenceHeight chain reference).map (mainId env chain)) := by
  obtain ⟨start, hstart, hspan⟩ := describedSpan_eq hchain hreference
  have hle := referenceHeight_le hchain hreference
  generalize referenceHeight chain reference = h at *
  have hpos : 1 ≤ lowestHeight n h := le_max_left _ _
  by_cases hzero : h = 0
  · have hnone : (synopsisHeights (lowestHeight n h) (h + count)).filter
        (fun k => decide (k ≤ h)) = [] := filter_heightsFrom_above (by omega)
    rw [if_pos hzero] at hspan
    rw [hnone]
    simp only [getBlockchainSynopsis, hspan, bind, Except.bind, pure, Except.pure, List.map_nil]
  · have hlow : lowestHeight n h ≤ h := by
      unfold lowestHeight
      omega
    have hrounds : h + count - lowestHeight n h + 1 +
        (2 ^ 32 - (h + count - lowestHeight n h + 1)) = 2 ^ 32 := by omega
    have hhigh : (h + count) % 2 ^ 32 = h + count := Nat.mod_eq_of_lt (by omega)
    rw [if_neg hzero] at hspan
    simp only [getBlockchainSynopsis, hspan, bind, Except.bind, hstart, hhigh]
    rw [← hrounds]
    exact collect_filter hchain start _ hpos hlow hle (Nat.le_add_right _ _) hlt
      (Nat.lt_succ_self _)

/-- The network code starts at the height at which the client has started. -/
theorem lowBlockNum_part (hchain : OnChain env initSupply chain n) {h : ℕ}
    (hh : h ≤ chain.length) (high : ℕ) :
    lowBlockNum (((synopsisHeights (lowestHeight n h) high).filter
      fun k => k ≤ h).map (mainId env chain)) = lowestHeight n h := by
  have hpos : 1 ≤ lowestHeight n h := le_max_left _ _
  by_cases hlow : lowestHeight n h ≤ h
  · have hhead : (synopsisHeights (lowestHeight n h) high).filter (fun k => decide (k ≤ h)) =
        lowestHeight n h :: (synopsisHeights (lowestHeight n h) high).tail.filter
          fun k => decide (k ≤ h) := by
      unfold synopsisHeights heightsFrom
      rw [List.filter_cons_of_pos (by simpa using hlow), List.tail_cons]
    rw [hhead]
    exact hchain.num_mainId hpos (hlow.trans hh)
  · have hnone : (synopsisHeights (lowestHeight n h) high).filter (fun k => decide (k ≤ h)) = [] :=
      filter_heightsFrom_above (by omega)
    rw [hnone]
    unfold lowestHeight at hlow ⊢
    have hzero : h = 0 := by omega
    rw [hzero, Nat.min_zero]
    rfl

/-- The two parts are one walk over the heights. -/
theorem described_append (h : ℕ) {heights : List ℕ} (hrising : heights.Pairwise (· < ·)) :
    (heights.filter fun k => k ≤ h).map (mainId env chain) ++
        (heights.filter fun k => h + 1 ≤ k).map (fun k => ids.getD (k - (h + 1)) .null) =
      heights.map (describedId env chain h ids) := by
  have hmain : (heights.filter fun k => k ≤ h).map (mainId env chain) =
      (heights.filter fun k => k ≤ h).map (describedId env chain h ids) := by
    refine List.map_congr_left fun k hk => ?_
    have hle : k ≤ h := by simpa using (List.mem_filter.mp hk).2
    exact (if_pos hle).symm
  have hoffered : (heights.filter fun k => h + 1 ≤ k).map (fun k => ids.getD (k - (h + 1)) .null) =
      (heights.filter fun k => h + 1 ≤ k).map (describedId env chain h ids) := by
    refine List.map_congr_left fun k hk => ?_
    have hlt : h + 1 ≤ k := by simpa using (List.mem_filter.mp hk).2
    exact (if_neg (by omega)).symm
  rw [hmain, hoffered, ← List.map_append, filter_append_filter hrising]

/-- The offered ids fill up the heights of the walk that are above the reference point. -/
theorem completeSynopsis_eq (hchain : OnChain env initSupply chain n) {h : ℕ}
    (hh : h ≤ chain.length) (hfirst : ∀ id ∈ ids.head?, id.num = h + 1)
    (hlt : h + ids.length + 1 < 2 ^ 32) (hlow : lowestHeight n h ≤ h + ids.length) :
    completeSynopsis (((synopsisHeights (lowestHeight n h) (h + ids.length)).filter
        fun k => k ≤ h).map (mainId env chain)) ids =
      .ok (((synopsisHeights (lowestHeight n h) (h + ids.length)).filter
        fun k => k ≤ h).map (mainId env chain) ++
          ((synopsisHeights (lowestHeight n h) (h + ids.length)).filter
            fun k => h + 1 ≤ k).map fun k => ids.getD (k - (h + 1)) .null) := by
  have hpos : 1 ≤ lowestHeight n h := le_max_left _ _
  cases ids with
  | nil =>
    have hnone : (synopsisHeights (lowestHeight n h) (h + ([] : List ItemHash).length)).filter
        (fun k => decide (h + 1 ≤ k)) = [] := by
      refine List.filter_eq_nil_iff.mpr fun k hk => ?_
      have hle : k ≤ h := mem_heightsFrom_le hlow hk
      simp only [decide_eq_true_eq]
      omega
    rw [hnone, List.map_nil, List.append_nil]
    rfl
  | cons front rest =>
    have hfront : front.num = h + 1 := hfirst front rfl
    have hhigh : (front.num + (front :: rest).length - 1) % 2 ^ 32 =
        h + (front :: rest).length := by
      rw [hfront, Nat.mod_eq_of_lt (by omega)]
      omega
    have hrounds : h + (front :: rest).length - lowestHeight n h + 1 +
        (2 ^ 32 - (h + (front :: rest).length - lowestHeight n h + 1)) = 2 ^ 32 := by omega
    have hnonzero : (front :: rest).length % 2 ^ 32 ≠ 0 := by
      rw [Nat.mod_eq_of_lt (by omega), List.length_cons]
      omega
    simp only [completeSynopsis, if_neg hnonzero, lowBlockNum_part hchain hh, hhigh]
    rw [← hrounds, hfront, addMissing_filter _ (by omega) hpos hlow (by omega)
      (Nat.lt_succ_self _)]
    rfl

/-- The walk of the synopsis ends at the last offered id. -/
theorem described_getLast? {low : ℕ} (hlow : low ≤ h + ids.length) (hne : ids ≠ []) :
    ((synopsisHeights low (h + ids.length)).map (describedId env chain h ids)).getLast? =
      ids.getLast? := by
  have hlast : (synopsisHeights low (h + ids.length)).getLast? = some (h + ids.length) :=
    heightsFrom_getLast? hlow (Nat.lt_succ_self _)
  have hlength := List.length_pos_iff.mpr hne
  have hindex : h + ids.length - (h + 1) = ids.length - 1 := by omega
  have hid : describedId env chain h ids (h + ids.length) =
      ids.getD (h + ids.length - (h + 1)) .null := if_neg (by omega)
  rw [List.getLast?_map, hlast, Option.map_some, hid, hindex, List.getLast?_eq_getElem?,
    List.getD_eq_getElem _ _ (by omega), List.getElem?_eq_getElem (by omega)]

/-- The two parts of the synopsis, of the own chain and of the offered ids, make up one walk. -/
theorem synopsis_walk (hchain : OnChain env initSupply chain n)
    (hreference : OnMainChain env chain reference)
    (hfirst : ∀ id ∈ ids.head?, id.num = referenceHeight chain reference + 1)
    (hlt : referenceHeight chain reference + ids.length + 1 < 2 ^ 32)
    (hsome : chain ≠ [] ∨ ids ≠ []) :
    lowestHeight n (referenceHeight chain reference) ≤
        referenceHeight chain reference + ids.length ∧
      ∃ part, getBlockchainSynopsis env reference (ids.length % 2 ^ 32) n = .ok part ∧
        completeSynopsis part ids = .ok
          ((synopsisHeights (lowestHeight n (referenceHeight chain reference))
            (referenceHeight chain reference + ids.length)).map
              (describedId env chain (referenceHeight chain reference) ids)) := by
  have hpart := getBlockchainSynopsis_part hchain hreference ids.length hlt
  have hle := referenceHeight_le hchain hreference
  have hpos := referenceHeight_pos hchain hreference
  generalize referenceHeight chain reference = h at *
  have hlow : lowestHeight n h ≤ h + ids.length := by
    have hnonempty : 1 ≤ h + ids.length := by
      rcases hsome with hne | hne
      · exact Nat.le_add_right_of_le (hpos hne)
      · exact Nat.le_add_left_of_le (List.length_pos_iff.mpr hne)
    unfold lowestHeight
    omega
  have hcomplete := completeSynopsis_eq hchain hle hfirst hlt hlow
  have hrising : (synopsisHeights (lowestHeight n h) (h + ids.length)).Pairwise (· < ·) :=
    heightsFrom_rising
  rw [described_append h hrising] at hcomplete
  refine ⟨hlow, _, ?_, hcomplete⟩
  rwa [Nat.mod_eq_of_lt (by omega)]

/-- The synopsis for a peer halves the distance from the last irreversible block, or from an
earlier reference point, to the last id that the peer has offered. No access is out of bounds, and
the synopsis ends with this id. -/
theorem synopsis_seamless (hchain : OnChain env initSupply chain n)
    (hreference : OnMainChain env chain reference)
    (hfirst : ∀ id ∈ ids.head?, id.num = referenceHeight chain reference + 1)
    (hlt : referenceHeight chain reference + ids.length + 1 < 2 ^ 32)
    (hsome : chain ≠ [] ∨ ids ≠ []) :
    ∃ part synopsis,
      getBlockchainSynopsis env reference (ids.length % 2 ^ 32) n = .ok part ∧
      completeSynopsis part ids = .ok synopsis ∧
      synopsis = (synopsisHeights (lowestHeight n (referenceHeight chain reference))
        (referenceHeight chain reference + ids.length)).map
          (describedId env chain (referenceHeight chain reference) ids) ∧
      (ids ≠ [] → synopsis.getLast? = ids.getLast?) := by
  obtain ⟨hlow, part, hpart, hcomplete⟩ := synopsis_walk hchain hreference hfirst hlt hsome
  exact ⟨part, _, hpart, hcomplete, rfl, described_getLast? hlow⟩

/-- The small node is on its chain of two blocks. -/
theorem sampleTwo_onChain :
    OnChain sampleEnv 1000000 sampleTwo (sampleNode sampleTwo) := by
  have hfinds : endsIn (runBlocks sampleEnv sampleTwo) (initGenesis sampleEnv 1000000)
        (fun _ s => tip (sampleNode sampleTwo).state.dgp = tip s.dgp) = true ∧
      (sampleNode sampleTwo).pendingSession = false ∧
      (∀ k ∈ List.range 3, findBlockIdForNum sampleEnv (sampleNode sampleTwo) k =
        mainId sampleEnv sampleTwo k) ∧
      (sampleNode sampleTwo).blockLog.length ≤ 2 ∧
      ∀ x ∈ (sampleNode sampleTwo).forkDb.index, x.num ≤ 2 := by decide +kernel
  obtain ⟨htip, hidle, hlookup, hlog, hforks⟩ := hfinds
  exact sampleNode_onChain htip hidle hlookup hlog hforks

/-- A peer offers two blocks after the two that a node has. -/
theorem synopsis_seamless_sampleTwo :
    ∃ part synopsis,
      getBlockchainSynopsis sampleEnv .null 2 (sampleNode sampleTwo) = .ok part ∧
      completeSynopsis part [⟨3, 1⟩, ⟨4, 2⟩] = .ok synopsis ∧
      synopsis.getLast? = some ⟨4, 2⟩ := by
  have hheight : referenceHeight sampleTwo .null = 2 := rfl
  have hfirst : ∀ id ∈ ([⟨3, 1⟩, ⟨4, 2⟩] : List ItemHash).head?,
      id.num = referenceHeight sampleTwo .null + 1 := by
    intro id hid
    cases hid
    rfl
  obtain ⟨part, synopsis, hpart, hsynopsis, -, hlast⟩ :=
    synopsis_seamless sampleTwo_onChain (.inl rfl) hfirst (by rw [hheight]; decide) (.inl (by decide))
  exact ⟨part, synopsis, hpart, hsynopsis, hlast (List.cons_ne_nil _ _)⟩

end Synopsis

end Whaleshares.PeerSynopsis
