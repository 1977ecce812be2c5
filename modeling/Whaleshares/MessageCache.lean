import Whaleshares.Protocol

/-!
# The message cache of the network

The cache that a node answers inventory requests from, `blockchain_tied_message_cache` in
`net/node.cpp`. Its clock counts the accepted blocks in 32 bits, and a message leaves the cache
when more than twenty blocks have been accepted since it came. The body of a message and the
data about its propagation are parameters.

The main results say, for a whole history of the cache, which message a lookup returns.
-/

namespace Whaleshares.MessageCache

open Protocol

/-- `item_hash_t`, `message_hash_type` and `uint160_t` -/
abbrev ItemHash := BlockId

/-- `GRAPHENE_NET_MESSAGE_CACHE_DURATION_IN_BLOCKS` -/
def cacheDurationInBlocks : ℕ := 20

variable {Body Data : Type}

/-- `message_info` -/
structure MessageInfo (Body Data : Type) where
  messageHash : ItemHash
  messageBody : Body
  blockClockWhenReceived : ℕ
  propagationData : Data
  /-- The id of the transaction or the block that the message contains. -/
  messageContentsHash : ItemHash

/-- `blockchain_tied_message_cache`, the messages in the order in which they came. -/
structure BlockchainTiedMessageCache (Body Data : Type) where
  messages : List (MessageInfo Body Data)
  blockClock : ℕ

/-- `blockchain_tied_message_cache()` -/
def BlockchainTiedMessageCache.empty : BlockchainTiedMessageCache Body Data := ⟨[], 0⟩

/-- `block_accepted` -/
def BlockchainTiedMessageCache.blockAccepted (c : BlockchainTiedMessageCache Body Data) :
    BlockchainTiedMessageCache Body Data :=
  let clock := (c.blockClock + 1) % 2 ^ 32
  if cacheDurationInBlocks < clock then
    { messages := c.messages.filter fun info =>
        decide (¬ info.blockClockWhenReceived < clock - cacheDurationInBlocks)
      blockClock := clock }
  else { c with blockClock := clock }

/-- Whether the cache has a message with this hash. -/
def BlockchainTiedMessageCache.contains (c : BlockchainTiedMessageCache Body Data)
    (hash : ItemHash) : Bool :=
  c.messages.any fun info => info.messageHash = hash

/-- `cache_message`: the index of the hashes refuses a message that it has. -/
def BlockchainTiedMessageCache.cacheMessage (c : BlockchainTiedMessageCache Body Data) (body : Body)
    (hash : ItemHash) (data : Data) (contentsHash : ItemHash) :
    BlockchainTiedMessageCache Body Data :=
  if c.contains hash then c
  else { c with messages := c.messages ++ [⟨hash, body, c.blockClock, data, contentsHash⟩] }

/-- The text of `key_not_found_exception`. -/
def notInCache : String := "Requested message not in cache"

/-- `get_message` -/
def BlockchainTiedMessageCache.getMessage (c : BlockchainTiedMessageCache Body Data)
    (hash : ItemHash) : Except String Body :=
  match c.messages.find? fun info => info.messageHash = hash with
  | some info => .ok info.messageBody
  | none => .error notInCache

/-- `get_message_propagation_data` -/
def BlockchainTiedMessageCache.getMessagePropagationData
    (c : BlockchainTiedMessageCache Body Data) (contentsHash : ItemHash) : Except String Data :=
  if contentsHash ≠ .null then
    match c.messages.find? fun info => info.messageContentsHash = contentsHash with
    | some info => .ok info.propagationData
    | none => .error notInCache
  else .error notInCache

section Histories

/-- What happens to the cache. -/
inductive CacheEvent (Body Data : Type) where
  | blockAccepted
  | cacheMessage (body : Body) (hash : ItemHash) (data : Data) (contentsHash : ItemHash)

/-- One event. -/
def BlockchainTiedMessageCache.perform (c : BlockchainTiedMessageCache Body Data) :
    CacheEvent Body Data → BlockchainTiedMessageCache Body Data
  | .blockAccepted => c.blockAccepted
  | .cacheMessage body hash data contentsHash => c.cacheMessage body hash data contentsHash

/-- The cache after a history. -/
def cacheAfter (events : List (CacheEvent Body Data)) : BlockchainTiedMessageCache Body Data :=
  events.foldl BlockchainTiedMessageCache.perform .empty

/-- The number of blocks that a history accepts. -/
def blocksIn : List (CacheEvent Body Data) → ℕ
  | [] => 0
  | .blockAccepted :: rest => blocksIn rest + 1
  | .cacheMessage .. :: rest => blocksIn rest

variable {events earlier later : List (CacheEvent Body Data)} {info : MessageInfo Body Data}

/-- A further event is performed after the others. -/
theorem cacheAfter_concat (events : List (CacheEvent Body Data)) (e : CacheEvent Body Data) :
    cacheAfter (events ++ [e]) = (cacheAfter events).perform e := by
  unfold cacheAfter
  rw [List.foldl_append]
  rfl

/-- The blocks of two parts of a run are counted together. -/
theorem blocksIn_append (earlier later : List (CacheEvent Body Data)) :
    blocksIn (earlier ++ later) = blocksIn earlier + blocksIn later := by
  induction earlier with
  | nil => simp [blocksIn]
  | cons e rest ih =>
    cases e with
    | blockAccepted => simp only [List.cons_append, blocksIn, ih]; omega
    | cacheMessage body hash data contentsHash => simp only [List.cons_append, blocksIn, ih]

/-- The cache contains a hash if one of its messages has it. -/
theorem contains_iff {c : BlockchainTiedMessageCache Body Data} {hash : ItemHash} :
    c.contains hash = true ↔ ∃ info ∈ c.messages, info.messageHash = hash := by
  simp [BlockchainTiedMessageCache.contains]

/-- The clock of the cache counts the blocks in 32 bits. -/
theorem blockClock_cacheAfter (events : List (CacheEvent Body Data)) :
    (cacheAfter events).blockClock = blocksIn events % 2 ^ 32 := by
  induction events using List.reverseRecOn with
  | nil => rfl
  | append_singleton events e ih =>
    rw [cacheAfter_concat, blocksIn_append]
    cases e with
    | blockAccepted =>
      have hclock : ((cacheAfter events).perform .blockAccepted).blockClock =
          ((cacheAfter events).blockClock + 1) % 2 ^ 32 := by
        simp only [BlockchainTiedMessageCache.perform, BlockchainTiedMessageCache.blockAccepted]
        split <;> rfl
      rw [hclock, ih, Nat.mod_add_mod]
      rfl
    | cacheMessage body hash data contentsHash =>
      have hclock : ((cacheAfter events).perform
          (.cacheMessage body hash data contentsHash)).blockClock =
          (cacheAfter events).blockClock := by
        simp only [BlockchainTiedMessageCache.perform, BlockchainTiedMessageCache.cacheMessage]
        split <;> rfl
      rw [hclock, ih]
      rfl

/-- A message of the history that the cache still has after it: it was new when it came, and
at most twenty blocks have been accepted since. -/
structure Stands (events earlier later : List (CacheEvent Body Data))
    (info : MessageInfo Body Data) : Prop where
  split : events = earlier ++ .cacheMessage info.messageBody info.messageHash info.propagationData
    info.messageContentsHash :: later
  clock : info.blockClockWhenReceived = blocksIn earlier
  fresh : (cacheAfter earlier).contains info.messageHash = false
  recent : blocksIn later ≤ cacheDurationInBlocks

/-- A message that stands has seen the blocks since it was received. -/
theorem Stands.blocks (h : Stands events earlier later info) :
    blocksIn events = info.blockClockWhenReceived + blocksIn later := by
  rw [h.clock, h.split, blocksIn_append]
  rfl

/-- A message still stands after an event, as long as it is recent. -/
theorem Stands.concat (h : Stands events earlier later info) (e : CacheEvent Body Data)
    (hrecent : blocksIn (later ++ [e]) ≤ cacheDurationInBlocks) :
    Stands (events ++ [e]) earlier (later ++ [e]) info where
  split := by
    rw [h.split]
    simp
  clock := h.clock
  fresh := h.fresh
  recent := hrecent

/-- A message that stands after one more event came with it or stood before. -/
theorem Stands.of_concat {e : CacheEvent Body Data}
    (h : Stands (events ++ [e]) earlier later info) :
    (e = .cacheMessage info.messageBody info.messageHash info.propagationData
        info.messageContentsHash ∧ earlier = events) ∨
      ∃ later', later = later' ++ [e] ∧ Stands events earlier later' info := by
  obtain ⟨hsplit, hclock, hfresh, hrecent⟩ := h
  rcases List.eq_nil_or_concat later with rfl | ⟨later', e', rfl⟩
  · obtain ⟨hevents, hlast⟩ := List.append_inj' hsplit rfl
    exact .inl ⟨(List.cons.inj hlast).1, hevents.symm⟩
  · rw [List.concat_eq_append] at hsplit hrecent ⊢
    rw [← List.cons_append, ← List.append_assoc] at hsplit
    obtain ⟨hevents, hlast⟩ := List.append_inj' hsplit rfl
    rw [blocksIn_append] at hrecent
    refine .inr ⟨later', ?_, hevents, hclock, hfresh, (Nat.le_add_right _ _).trans hrecent⟩
    rw [(List.cons.inj hlast).1]

/-- After a block those messages stand that stood and are recent. -/
theorem stands_block_iff :
    (∃ earlier later, Stands (events ++ [.blockAccepted]) earlier later info) ↔
      (∃ earlier later, Stands events earlier later info) ∧
        blocksIn events + 1 ≤ info.blockClockWhenReceived + cacheDurationInBlocks := by
  constructor
  · rintro ⟨earlier, later, h⟩
    rcases h.of_concat with ⟨hevent, -⟩ | ⟨later', rfl, h'⟩
    · cases hevent
    · refine ⟨⟨earlier, later', h'⟩, ?_⟩
      have hrecent := h.recent
      rw [blocksIn_append] at hrecent
      rw [h'.blocks, Nat.add_assoc]
      exact Nat.add_le_add_left hrecent _
  · rintro ⟨⟨earlier, later, h⟩, hage⟩
    refine ⟨earlier, later ++ [.blockAccepted], h.concat _ ?_⟩
    rw [blocksIn_append]
    rw [h.blocks, Nat.add_assoc] at hage
    exact Nat.le_of_add_le_add_left hage

/-- After a message those stand that stood, and the new one if there was none with its hash. -/
theorem stands_message_iff {body : Body} {hash contentsHash : ItemHash} {data : Data} :
    (∃ earlier later, Stands (events ++ [.cacheMessage body hash data contentsHash]) earlier later
        info) ↔
      (∃ earlier later, Stands events earlier later info) ∨
        (info = ⟨hash, body, blocksIn events, data, contentsHash⟩ ∧
          (cacheAfter events).contains hash = false) := by
  constructor
  · rintro ⟨earlier, later, h⟩
    rcases h.of_concat with ⟨hevent, hearlier⟩ | ⟨later', -, h'⟩
    · right
      have hclock := h.clock
      have hfresh := h.fresh
      rw [hearlier] at hclock hfresh
      cases hevent
      rw [← hclock]
      exact ⟨rfl, hfresh⟩
    · exact .inl ⟨earlier, later', h'⟩
  · rintro (⟨earlier, later, h⟩ | ⟨rfl, hfresh⟩)
    · refine ⟨earlier, later ++ [.cacheMessage body hash data contentsHash], h.concat _ ?_⟩
      rw [blocksIn_append]
      exact h.recent
    · exact ⟨events, [], rfl, rfl, hfresh, Nat.zero_le _⟩

/-- A block leaves the recent messages. -/
theorem mem_blockAccepted {c : BlockchainTiedMessageCache Body Data}
    (hclock : c.blockClock + 1 < 2 ^ 32) :
    info ∈ c.blockAccepted.messages ↔ info ∈ c.messages ∧
      (c.blockClock + 1 ≤ info.blockClockWhenReceived + cacheDurationInBlocks ∨
        c.blockClock + 1 ≤ cacheDurationInBlocks) := by
  unfold BlockchainTiedMessageCache.blockAccepted
  rw [Nat.mod_eq_of_lt hclock]
  by_cases hlate : cacheDurationInBlocks < c.blockClock + 1
  · simp only [if_pos hlate, List.mem_filter, decide_eq_true_iff]
    refine and_congr_right fun _ => ?_
    omega
  · simp only [if_neg hlate]
    exact ⟨fun h => ⟨h, .inr (not_lt.mp hlate)⟩, fun h => h.1⟩

/-- A message is added if there is none with its hash. -/
theorem mem_cacheMessage {c : BlockchainTiedMessageCache Body Data} {body : Body}
    {hash contentsHash : ItemHash} {data : Data} :
    info ∈ (c.cacheMessage body hash data contentsHash).messages ↔ info ∈ c.messages ∨
      (info = ⟨hash, body, c.blockClock, data, contentsHash⟩ ∧ c.contains hash = false) := by
  unfold BlockchainTiedMessageCache.cacheMessage
  by_cases hknown : c.contains hash = true
  · simp [hknown]
  · simp [Bool.eq_false_iff.mpr hknown]

/-- The messages of the cache are those that stand. The induction is on the history, from its
end. -/
theorem mem_cacheAfter (hblocks : blocksIn events < 2 ^ 32) :
    info ∈ (cacheAfter events).messages ↔ ∃ earlier later, Stands events earlier later info := by
  induction events using List.reverseRecOn generalizing info with
  | nil =>
    constructor
    · intro h
      cases h
    · rintro ⟨earlier, later, h⟩
      have hlength := congrArg List.length h.split
      simp at hlength
  | append_singleton events e ih =>
    rw [blocksIn_append] at hblocks
    have hbefore : blocksIn events < 2 ^ 32 := (Nat.le_add_right _ _).trans_lt hblocks
    have hclock : (cacheAfter events).blockClock = blocksIn events := by
      rw [blockClock_cacheAfter, Nat.mod_eq_of_lt hbefore]
    rw [cacheAfter_concat]
    cases e with
    | blockAccepted =>
      rw [stands_block_iff, ← ih hbefore]
      rw [BlockchainTiedMessageCache.perform, mem_blockAccepted (by rwa [hclock]), hclock]
      refine and_congr_right fun _ => ⟨fun h => ?_, fun h => .inl h⟩
      rcases h with h | h
      · exact h
      · omega
    | cacheMessage body hash data contentsHash =>
      rw [stands_message_iff, ← ih hbefore, ← hclock]
      exact mem_cacheMessage

/-- What is returned is the body of the first message with the hash. -/
theorem getMessage_ok {c : BlockchainTiedMessageCache Body Data} {hash : ItemHash} {body : Body}
    (h : c.getMessage hash = .ok body) :
    ∃ info, c.messages.find? (fun info => info.messageHash = hash) = some info ∧
      info.messageBody = body := by
  unfold BlockchainTiedMessageCache.getMessage at h
  cases hfound : c.messages.find? fun info => info.messageHash = hash with
  | none =>
    rw [hfound] at h
    cases h
  | some info =>
    rw [hfound] at h
    exact ⟨info, rfl, Except.ok.inj h⟩

/-- Nothing is returned exactly if the cache does not contain the hash. -/
theorem getMessage_error_iff {c : BlockchainTiedMessageCache Body Data} {hash : ItemHash} :
    c.getMessage hash = .error notInCache ↔ c.contains hash = false := by
  unfold BlockchainTiedMessageCache.getMessage BlockchainTiedMessageCache.contains
  cases hfound : c.messages.find? fun info => info.messageHash = hash with
  | none => simpa using hfound
  | some info =>
    have hmem := List.mem_of_find?_eq_some hfound
    have hhash := List.find?_some hfound
    constructor
    · intro h
      cases h
    · intro h
      exact absurd hhash (List.any_eq_false.mp h info hmem)

/-- The body of every message is returned for its hash. -/
theorem getMessage_of_mem {c : BlockchainTiedMessageCache Body Data}
    (hnodup : (c.messages.map (·.messageHash)).Nodup) (hinfo : info ∈ c.messages) :
    c.getMessage info.messageHash = .ok info.messageBody := by
  have hfound : c.messages.find? (fun other => other.messageHash = info.messageHash) =
      some info := by
    obtain ⟨other, hother⟩ : ∃ other,
        c.messages.find? (fun other => other.messageHash = info.messageHash) = some other :=
      Option.isSome_iff_exists.mp (List.find?_isSome.mpr ⟨info, hinfo, by simp⟩)
    have hhash : other.messageHash = info.messageHash := by
      simpa using List.find?_some hother
    have heq := List.inj_on_of_nodup_map hnodup (List.mem_of_find?_eq_some hother) hinfo hhash
    rw [hother, heq]
  unfold BlockchainTiedMessageCache.getMessage
  rw [hfound]

/-- A new message keeps the hashes different. -/
theorem nodup_cacheMessage {c : BlockchainTiedMessageCache Body Data} {body : Body}
    {hash contentsHash : ItemHash} {data : Data} (h : (c.messages.map (·.messageHash)).Nodup) :
    ((c.cacheMessage body hash data contentsHash).messages.map (·.messageHash)).Nodup := by
  unfold BlockchainTiedMessageCache.cacheMessage
  split
  · exact h
  · next hnew =>
    rw [List.map_append, List.nodup_append]
    refine ⟨h, List.nodup_singleton _, ?_⟩
    rintro x hx y hy rfl
    obtain ⟨info, hinfo, rfl⟩ := List.mem_map.mp hx
    exact hnew (contains_iff.mpr ⟨info, hinfo, List.mem_singleton.mp hy⟩)

/-- The hashes in the cache are different. -/
theorem nodup_cacheAfter (events : List (CacheEvent Body Data)) :
    ((cacheAfter events).messages.map (·.messageHash)).Nodup := by
  induction events using List.reverseRecOn with
  | nil => exact .nil
  | append_singleton events e ih =>
    rw [cacheAfter_concat]
    cases e with
    | blockAccepted =>
      change ((cacheAfter events).blockAccepted.messages.map (·.messageHash)).Nodup
      unfold BlockchainTiedMessageCache.blockAccepted
      dsimp only
      split
      · exact ih.sublist (List.filter_sublist.map _)
      · exact ih
    | cacheMessage body hash data contentsHash => exact nodup_cacheMessage ih

end Histories

section Lookups

variable {events : List (CacheEvent Body Data)} {hash contentsHash : ItemHash} {body : Body}
  {data : Data}

/-- A request is answered with the body of the message that was cached under its hash, when
the cache did not have that hash and no more than twenty blocks before the request. -/
theorem getMessage_eq_ok_iff (hblocks : blocksIn events < 2 ^ 32) :
    (cacheAfter events).getMessage hash = .ok body ↔
      ∃ earlier later data contentsHash,
        events = earlier ++ .cacheMessage body hash data contentsHash :: later ∧
          (cacheAfter earlier).getMessage hash = .error notInCache ∧
          blocksIn later ≤ cacheDurationInBlocks := by
  have hfind : (cacheAfter events).getMessage hash = .ok body ↔
      ∃ info ∈ (cacheAfter events).messages, info.messageHash = hash ∧ info.messageBody = body := by
    constructor
    · intro h
      obtain ⟨info, hinfo, rfl⟩ := getMessage_ok h
      exact ⟨info, List.mem_of_find?_eq_some hinfo, by simpa using List.find?_some hinfo, rfl⟩
    · rintro ⟨info, hinfo, rfl, rfl⟩
      exact getMessage_of_mem (nodup_cacheAfter events) hinfo
  rw [hfind]
  constructor
  · rintro ⟨info, hinfo, rfl, rfl⟩
    obtain ⟨earlier, later, h⟩ := (mem_cacheAfter hblocks).mp hinfo
    exact ⟨earlier, later, _, _, h.split, getMessage_error_iff.mpr h.fresh, h.recent⟩
  · rintro ⟨earlier, later, data, contentsHash, hsplit, hfresh, hrecent⟩
    have hstands : Stands events earlier later
        ⟨hash, body, blocksIn earlier, data, contentsHash⟩ :=
      ⟨hsplit, rfl, getMessage_error_iff.mp hfresh, hrecent⟩
    exact ⟨_, (mem_cacheAfter hblocks).mpr ⟨earlier, later, hstands⟩, rfl, rfl⟩

/-- A message is served after the twentieth block that follows it. -/
theorem getMessage_eq_ok_iff_twenty :
    (cacheAfter ([.cacheMessage 7 ⟨0, 1⟩ () ⟨0, 2⟩] ++ List.replicate 20 .blockAccepted)).getMessage
        ⟨0, 1⟩ = .ok 7 := by
  rw [getMessage_eq_ok_iff (by decide)]
  exact ⟨[], List.replicate 20 .blockAccepted, (), ⟨0, 2⟩, rfl, rfl, by decide⟩

/-- The data about a propagation are those of a message that stands, with these contents. -/
theorem getMessagePropagationData_ok (hblocks : blocksIn events < 2 ^ 32)
    (h : (cacheAfter events).getMessagePropagationData contentsHash = .ok data) :
    contentsHash ≠ .null ∧ ∃ earlier later info, Stands events earlier later info ∧
      info.messageContentsHash = contentsHash ∧ info.propagationData = data := by
  unfold BlockchainTiedMessageCache.getMessagePropagationData at h
  split at h
  next hne =>
    cases hfound : (cacheAfter events).messages.find?
        fun info => info.messageContentsHash = contentsHash with
    | none =>
      rw [hfound] at h
      cases h
    | some info =>
      rw [hfound] at h
      have hstands := (mem_cacheAfter hblocks).mp (List.mem_of_find?_eq_some hfound)
      obtain ⟨earlier, later, hstands⟩ := hstands
      exact ⟨hne, earlier, later, info, hstands, by simpa using List.find?_some hfound,
        Except.ok.inj h⟩
  next => cases h

end Lookups

end Whaleshares.MessageCache
