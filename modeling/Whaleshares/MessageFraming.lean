import Whaleshares.ByteOrder

/-!
# Message framing

`message_oriented_connection.cpp`: a message goes over a connection as its header of eight
bytes, its data and zeros up to a multiple of sixteen. The reader takes sixteen bytes,
finds the header in them and computes from its size how many more there are, in unsigned
arithmetic of 32 bits, which wraps around for messages that fit with the header into the
first sixteen. The socket delivers bytes in order and a read that it cannot fill throws.

The delegate that takes the messages is left out: it is taken to return.
-/

namespace Whaleshares.MessageFraming

open FileStream ByteOrder

/-- Some bytes. -/
abbrev Bytes := List UInt8

/-- `message` with its `message_header`. -/
structure Message where
  /-- Number of bytes in the message. -/
  size : UInt32
  /-- What the data is about. -/
  msgType : UInt32
  /-- The data. -/
  data : Bytes
  deriving DecidableEq

/-- `message()` -/
def Message.empty : Message := ⟨0, 0, []⟩

/-- `MAX_MESSAGE_SIZE` -/
def maxMessageSize : ℕ := 1024 * 1024 * 2

/-- The memory of a header. -/
def headerBytes (m : Message) : Bytes := toBytes 4 m.size.toNat ++ toBytes 4 m.msgType.toNat

section Sending

/-- The bytes that a message of `size` bytes takes with its header and its padding. -/
def sizeWithPadding (size : ℕ) : ℕ := 16 * ((8 + size + 15) / 16)

/-- The header, the data and zeros behind them. -/
def paddedMessage (m : Message) : Bytes :=
  headerBytes m ++ (m.data.take m.size.toNat ++
    List.replicate (sizeWithPadding m.size.toNat - (8 + m.size.toNat)) 0)

/-- A connection as its sender sees it. -/
structure Sender where
  /-- What was written to the socket. -/
  stream : Bytes
  /-- `_bytes_sent` -/
  bytesSent : UInt64

/-- `send_message` -/
def sendMessage (c : Sender) (m : Message) : Sender where
  stream := c.stream ++ paddedMessage m
  bytesSent := c.bytesSent + .ofNat (sizeWithPadding m.size.toNat)

/-- One message after the other. -/
def sendMessages (c : Sender) (ms : List Message) : Sender := ms.foldl sendMessage c

end Sending

section Receiving

/-- Why the read loop ends. -/
inductive Stop where
  /-- `fc::eof_exception`: the connection has no more bytes. -/
  | eof
  /-- `m.size <= MAX_MESSAGE_SIZE` does not hold. -/
  | tooLarge
  deriving DecidableEq

/-- `_sock.read`: all the bytes asked for, or nothing. -/
def sockRead (n : ℕ) (stream : Bytes) : Option (Bytes × Bytes) :=
  if n ≤ stream.length then some (stream.take n, stream.drop n) else none

/-- `16 * ((m.size - LEFTOVER + 15) / 16)` -/
def remainingBytesWithPadding (size : UInt32) : UInt32 := 16 * ((size - 8 + 15) / 16)

/-- Some bytes copied over those of `data` from `offset` on. -/
def copyInto (data : Bytes) (offset : ℕ) (source : Bytes) : Bytes :=
  data.take offset ++ (source ++ data.drop (offset + source.length))

/-- What one round of the loop ends with. -/
inductive Round where
  /-- A message for the delegate, with `_bytes_received` and the bytes not yet read. -/
  | delivered (m : Message) (received : UInt64) (stream : Bytes)
  /-- An exception. -/
  | stopped (why : Stop) (received : UInt64) (stream : Bytes)

/-- One round of `read_loop`; `m` is the message of the round before. -/
def readMessage (m : Message) (received : UInt64) (stream : Bytes) : Round :=
  match sockRead 16 stream with
  | none => .stopped .eof received stream
  | some (buffer, stream) =>
    let received := received + 16
    -- memcpy((char*)&m, buffer, sizeof(message_header))
    let size : UInt32 := .ofNat (ofBytes (buffer.take 4))
    let msgType : UInt32 := .ofNat (ofBytes ((buffer.drop 4).take 4))
    if maxMessageSize < size.toNat then .stopped .tooLarge received stream
    else
      let remaining := (remainingBytesWithPadding size).toNat
      let data := copyInto (pad (8 + remaining) m.data) 0 (buffer.drop 8)
      if remaining = 0 then .delivered ⟨size, msgType, pad size.toNat data⟩ received stream
      else
        match sockRead remaining stream with
        | none => .stopped .eof received stream
        | some (chunk, stream) =>
          .delivered ⟨size, msgType, pad size.toNat (copyInto data 8 chunk)⟩
            (received + .ofNat remaining) stream

/-- A read takes its bytes from the stream. -/
theorem sockRead_eq_some {n : ℕ} {stream : Bytes} {p : Bytes × Bytes}
    (h : sockRead n stream = some p) : p.2.length + n = stream.length := by
  unfold sockRead at h
  split at h
  · next hle =>
    cases h
    rw [List.length_drop]
    omega
  · cases h

/-- A message takes bytes off the stream. -/
theorem readMessage_shorter {m m' : Message} {received received' : UInt64} {stream rest : Bytes}
    (h : readMessage m received stream = .delivered m' received' rest) :
    rest.length < stream.length := by
  unfold readMessage at h
  cases hfirst : sockRead 16 stream with
  | none =>
    rw [hfirst] at h
    cases h
  | some p =>
    have hlength := sockRead_eq_some hfirst
    rw [hfirst] at h
    simp only at h
    split at h
    · cases h
    · split at h
      · cases h
        omega
      · split at h
        · cases h
        · next chunk rest' hmore =>
          cases h
          have hmore' := sockRead_eq_some hmore
          simp only at hmore'
          omega

/-- What the loop did before it ended. -/
structure ReadRun where
  /-- The messages for the delegate. -/
  messages : List Message
  /-- `_bytes_received` -/
  received : UInt64
  /-- The bytes not read. -/
  rest : Bytes
  /-- Why it ended. -/
  why : Stop
  deriving DecidableEq

/-- `read_loop` -/
def readLoop (m : Message) (received : UInt64) (stream : Bytes) : ReadRun :=
  match _h : readMessage m received stream with
  | .stopped why received' rest => ⟨[], received', rest, why⟩
  | .delivered m' received' rest =>
    let later := readLoop m' received' rest
    { later with messages := m' :: later.messages }
termination_by stream.length
decreasing_by exact readMessage_shorter _h

end Receiving

section RoundTrip

/-- A message whose size field is the length of its data, and not too large. -/
structure Message.WellFormed (m : Message) : Prop where
  size_eq : m.data.length = m.size.toNat
  small : m.size.toNat ≤ maxMessageSize

/-- Both sides compute the same number of bytes, also where the subtraction wraps. -/
theorem remaining_eq {size : UInt32} (h : size.toNat ≤ maxMessageSize) :
    16 + (remainingBytesWithPadding size).toNat = sizeWithPadding size.toNat := by
  unfold maxMessageSize at h
  unfold remainingBytesWithPadding sizeWithPadding
  rw [UInt32.toNat_mul, UInt32.toNat_div, UInt32.toNat_add, UInt32.toNat_sub]
  have h8 : (8 : UInt32).toNat = 8 := rfl
  have h15 : (15 : UInt32).toNat = 15 := rfl
  have h16 : (16 : UInt32).toNat = 16 := rfl
  rw [h8, h15, h16]
  omega

/-- A header has eight bytes. -/
theorem headerBytes_length (m : Message) : (headerBytes m).length = 8 := by
  rw [headerBytes, List.length_append, toBytes_length, toBytes_length]

/-- A padded message has the padded size. -/
theorem paddedMessage_length {m : Message} (h : m.WellFormed) :
    (paddedMessage m).length = sizeWithPadding m.size.toNat := by
  have hmore : 8 + m.size.toNat ≤ sizeWithPadding m.size.toNat := by
    unfold sizeWithPadding
    omega
  rw [paddedMessage, List.length_append, List.length_append, headerBytes_length,
    List.length_replicate, List.length_take, h.size_eq]
  omega

/-- A field of the header comes back from its bytes. -/
theorem field_eq (field : UInt32) : UInt32.ofNat (ofBytes (toBytes 4 field.toNat)) = field := by
  have hlt := field.toNat_lt
  rw [ofBytes_toBytes, Nat.mod_eq_of_lt (by omega), UInt32.ofNat_toNat]

/-- Bytes that cover all that was there are all that is there afterwards. -/
theorem copyInto_all {data first source : Bytes} (hdata : data.take first.length = first)
    (hlength : data.length = first.length + source.length) :
    copyInto data first.length source = first ++ source := by
  rw [copyInto, hdata, List.drop_of_length_le (by omega), List.append_nil]

/-- A read of as many bytes as the front has gives the front. -/
theorem sockRead_append {n : ℕ} {front : Bytes} (rest : Bytes) (h : front.length = n) :
    sockRead n (front ++ rest) = some (front, rest) := by
  subst h
  rw [sockRead, if_pos (by rw [List.length_append]; omega), List.take_left, List.drop_left]

/-- The sixteen bytes in front of a message and the ones behind them. -/
theorem paddedMessage_split {m : Message} (h : m.WellFormed) :
    ∃ first more : Bytes, paddedMessage m = headerBytes m ++ first ++ more ∧
      first.length = 8 ∧ more.length = (remainingBytesWithPadding m.size).toNat ∧
      pad m.size.toNat (first ++ more) = m.data := by
  have htotal := remaining_eq h.small
  have hlength := paddedMessage_length h
  have hdata : m.data.take m.size.toNat = m.data := List.take_of_length_le h.size_eq.le
  obtain ⟨body, hbody⟩ : ∃ body, body = m.data.take m.size.toNat ++
    List.replicate (sizeWithPadding m.size.toNat - (8 + m.size.toNat)) (0 : UInt8) := ⟨_, rfl⟩
  have hpadded : paddedMessage m = headerBytes m ++ body := by rw [hbody, paddedMessage]
  rw [hpadded, List.length_append, headerBytes_length] at hlength
  refine ⟨body.take 8, body.drop 8, ?_, ?_, ?_, ?_⟩
  · rw [hpadded, List.append_assoc, List.take_append_drop]
  · rw [List.length_take]
    omega
  · rw [List.length_drop]
    omega
  · rw [List.take_append_drop, hbody, hdata, ← h.size_eq]
    exact pad_append _ _

/-- One round reads one message, whatever the round before left behind. -/
theorem readMessage_padded (m₀ : Message) (received : UInt64) {m : Message} (h : m.WellFormed)
    (rest : Bytes) :
    readMessage m₀ received (paddedMessage m ++ rest) =
      .delivered m (received + .ofNat (sizeWithPadding m.size.toNat)) rest := by
  obtain ⟨first, more, hpadded, hfirst, hmore, hdata⟩ := paddedMessage_split h
  have hheader := headerBytes_length m
  have hread : sockRead 16 (paddedMessage m ++ rest) =
      some (headerBytes m ++ first, more ++ rest) := by
    rw [hpadded, List.append_assoc]
    exact sockRead_append _ (by rw [List.length_append]; omega)
  have hsize : UInt32.ofNat (ofBytes ((headerBytes m ++ first).take 4)) = m.size := by
    have htake : (headerBytes m ++ first).take 4 = toBytes 4 m.size.toNat := by
      rw [headerBytes, List.append_assoc]
      exact List.take_left' (toBytes_length 4 _)
    rw [htake, field_eq]
  have htype : UInt32.ofNat (ofBytes (((headerBytes m ++ first).drop 4).take 4)) = m.msgType := by
    have hdrop : ((headerBytes m ++ first).drop 4).take 4 = toBytes 4 m.msgType.toNat := by
      rw [headerBytes, List.append_assoc, List.drop_left' (toBytes_length 4 _)]
      exact List.take_left' (toBytes_length 4 _)
    rw [hdrop, field_eq]
  have hrest : (headerBytes m ++ first).drop 8 = first := List.drop_left' hheader
  have hsmall : ¬ maxMessageSize < m.size.toNat := Nat.not_lt.mpr h.small
  have hfront : ∀ data : Bytes, data.length = 8 + more.length →
      copyInto data 0 first = first ++ data.drop 8 := by
    intro data _
    rw [copyInto, List.take_zero, List.nil_append, Nat.zero_add, hfirst]
  have hreceived : received + 16 + .ofNat (remainingBytesWithPadding m.size).toNat =
      received + .ofNat (sizeWithPadding m.size.toNat) := by
    rw [← remaining_eq h.small, UInt64.ofNat_add, ← UInt64.add_assoc]
    rfl
  unfold readMessage
  rw [hread]
  simp only [hsize, htype, hrest, if_neg hsmall]
  rw [hfront _ (by rw [pad_length, hmore])]
  by_cases hzero : (remainingBytesWithPadding m.size).toNat = 0
  · have hnil : more = [] := List.eq_nil_of_length_eq_zero (hmore.trans hzero)
    have hend : (pad (8 + (remainingBytesWithPadding m.size).toNat) m₀.data).drop 8 = [] :=
      List.drop_of_length_le (by rw [pad_length]; omega)
    rw [if_pos hzero, hend]
    rw [hnil] at hdata ⊢
    rw [hdata, ← hreceived, hzero]
    simp
  · have hchunk : sockRead (remainingBytesWithPadding m.size).toNat (more ++ rest) =
        some (more, rest) := sockRead_append rest hmore
    have hall : copyInto (first ++
        (pad (8 + (remainingBytesWithPadding m.size).toNat) m₀.data).drop 8) 8 more =
        first ++ more := by
      rw [← hfirst]
      refine copyInto_all List.take_left ?_
      rw [List.length_append, List.length_drop, pad_length]
      omega
    rw [if_neg hzero, hchunk]
    simp only [hall, hdata, hreceived]

/-- The loop over the bytes of some messages. -/
theorem readLoop_messages (m₀ : Message) (received : UInt64) {ms : List Message}
    (h : ∀ m ∈ ms, m.WellFormed) :
    readLoop m₀ received (ms.flatMap paddedMessage) =
      ⟨ms, ms.foldl (fun n m => n + .ofNat (sizeWithPadding m.size.toNat)) received, [], .eof⟩ := by
  induction ms generalizing m₀ received with
  | nil =>
    rw [List.flatMap_nil, readLoop]
    rfl
  | cons m rest ih =>
    have hm := readMessage_padded m₀ received (h m (List.mem_cons_self ..))
      (rest.flatMap paddedMessage)
    have hlater := ih m (received + .ofNat (sizeWithPadding m.size.toNat))
      fun m' hm' => h m' (List.mem_cons_of_mem _ hm')
    rw [List.flatMap_cons, readLoop]
    split
    · next why received' rest' hstop =>
      rw [hm] at hstop
      cases hstop
    · next m' received' rest' hdelivered =>
      rw [hm] at hdelivered
      cases hdelivered
      rw [hlater]
      rfl

/-- What is written for some messages, and how many bytes are counted. -/
theorem sendMessages_eq (c : Sender) (ms : List Message) :
    sendMessages c ms =
      ⟨c.stream ++ ms.flatMap paddedMessage,
        ms.foldl (fun n m => n + .ofNat (sizeWithPadding m.size.toNat)) c.bytesSent⟩ := by
  induction ms generalizing c with
  | nil => simp [sendMessages]
  | cons m rest ih =>
    have hrest := ih (sendMessage c m)
    rw [sendMessages] at hrest
    rw [sendMessages, List.foldl_cons, hrest, sendMessage, List.flatMap_cons, List.append_assoc,
      List.foldl_cons]

/-- The reader finds the messages that were sent, all of them and nothing else, and has
counted as many bytes as the sender. -/
theorem readLoop_sendMessages (m₀ : Message) (count : UInt64) {ms : List Message}
    (h : ∀ m ∈ ms, m.WellFormed) :
    readLoop m₀ count (sendMessages ⟨[], count⟩ ms).stream =
      ⟨ms, (sendMessages ⟨[], count⟩ ms).bytesSent, [], .eof⟩ := by
  rw [sendMessages_eq, List.nil_append]
  exact readLoop_messages m₀ count h

/-- Three messages: one that fits with its header into sixteen bytes, one that fills them
and one that does not fit. -/
def sampleMessages : List Message :=
  [⟨3, 7, [1, 2, 3]⟩, ⟨8, 7, [1, 2, 3, 4, 5, 6, 7, 8]⟩, ⟨9, 7, [1, 2, 3, 4, 5, 6, 7, 8, 9]⟩]

/-- The sample messages are read back. -/
theorem readLoop_sendMessages_sample :
    readLoop .empty 0 (sendMessages ⟨[], 0⟩ sampleMessages).stream =
      ⟨sampleMessages, (sendMessages ⟨[], 0⟩ sampleMessages).bytesSent, [], .eof⟩ :=
  readLoop_sendMessages .empty 0 fun m hm => by
    simp only [sampleMessages, List.mem_cons, List.not_mem_nil, or_false] at hm
    obtain rfl | rfl | rfl := hm <;> exact ⟨by decide, by decide⟩

end RoundTrip

end Whaleshares.MessageFraming
