import Mathlib
import Whaleshares.FileStream
import Whaleshares.Protocol

/-!
# The block log

`chain/block_log.cpp`: the file of blocks, each followed by its position, and the index file
of the positions. Both are streams that are opened for reading or for appending as the
operations need them. The encoding of blocks belongs to fc and is a parameter.

`flush` changes nothing that the other operations see: a stream is closed before its file is
read through another one.
-/

namespace Whaleshares

open Fc Protocol FileStream

/-- `block_log_impl`; whether a stream is open for writing is part of the stream. -/
structure BlockLog where
  /-- `head` -/
  head : Option SignedBlock := none
  /-- `head_id` -/
  headId : BlockId := .null
  /-- `block_stream`, with `block_file` and `block_write` -/
  blockStream : FileStream := {}
  /-- `index_stream`, with `index_file` and `index_write` -/
  indexStream : FileStream := {}

/-- A routine of the block log. -/
abbrev LogM := Process BlockLog Exc

namespace BlockLog

section Streams

/-- The exception of a stream. -/
def ofStreamError : StreamError → Exc
  | .failure => ⟨.blockLog, "std::ios_base::failure"⟩
  | .malformed => ⟨.blockLog, "fc::raw::unpack"⟩

/-- A routine on the stream of blocks. -/
def onBlocks {α : Type} (m : StreamM α) : LogM α := fun log =>
  match m log.blockStream with
  | (.ok a, f) => (.ok a, { log with blockStream := f })
  | (.error e, f) => (.error (ofStreamError e), { log with blockStream := f })

/-- A routine on the stream of the index. -/
def onIndex {α : Type} (m : StreamM α) : LogM α := fun log =>
  match m log.indexStream with
  | (.ok a, f) => (.ok a, { log with indexStream := f })
  | (.error e, f) => (.error (ofStreamError e), { log with indexStream := f })

/-- A stream that is open for writing is opened for reading. -/
def checkRead : StreamM Unit := fun f => if f.writing then openRead f else (.ok (), f)

/-- A stream that is not open for writing is opened for writing. -/
def checkWrite : StreamM Unit := fun f => if f.writing then (.ok (), f) else openAppend f

/-- `check_block_read` -/
def checkBlockRead : LogM Unit := onBlocks checkRead

/-- `check_block_write` -/
def checkBlockWrite : LogM Unit := onBlocks checkWrite

/-- `check_index_read` -/
def checkIndexRead : LogM Unit := onIndex checkRead

/-- `check_index_write` -/
def checkIndexWrite : LogM Unit := onIndex checkWrite

end Streams

variable (codec : Codec SignedBlock) (env : Env)

section Operations

/-- `npos` -/
def npos : ℕ := 2 ^ 64 - 1

/-- `append` -/
def append (b : SignedBlock) : LogM ℕ := do
  checkBlockWrite
  checkIndexWrite
  let pos ← onBlocks tell
  let indexPos ← onIndex tell
  .ofExcept (fcAssert (indexPos = 8 * (b.blockNum - 1))
    "Append to index file occuring at wrong position.")
  onBlocks (write (codec.pack b))
  onBlocks (write (word pos))
  onIndex (write (word pos))
  .change fun log => { log with head := some b, headId := b.id env }
  pure pos

/-- `read_block`: the block and the position of the next one. -/
def readBlock (pos : ℕ) : LogM (SignedBlock × ℕ) := do
  checkBlockRead
  onBlocks (seek pos)
  let b ← onBlocks (decode codec)
  let next ← onBlocks tell
  pure (b, (next + 8) % 2 ^ 64)

/-- `get_block_pos` -/
def getBlockPos (blockNum : ℕ) : LogM ℕ := do
  checkIndexRead
  let log ← .read fun log => log
  if log.head.isSome ∧ blockNum ≤ log.headId.num ∧ 0 < blockNum then do
    onIndex (seek (8 * (blockNum - 1)))
    onIndex readWord
  else pure npos

/-- `read_block_by_num` -/
def readBlockByNum (blockNum : ℕ) : LogM (Option SignedBlock) := do
  let pos ← getBlockPos blockNum
  if pos = npos then pure none
  else do
    let read ← readBlock codec pos
    .ofExcept (fcAssert (read.1.blockNum = blockNum) "Wrong block was read from block log.")
    pure (some read.1)

/-- `read_head` -/
def readHead : LogM SignedBlock := do
  checkBlockRead
  onBlocks (seekBack 8)
  let pos ← onBlocks readWord
  let read ← readBlock codec pos
  pure read.1

/-- The loop of `construct_index`. Each round reads at least the eight bytes of a position, so
there are no more rounds than bytes. -/
def indexBlocks (endPos : ℕ) : ℕ → ℕ → LogM Unit
  | 0, _ => .ofExcept (.error ⟨.undefinedBehaviour, "while( pos < end_pos )"⟩)
  | rounds + 1, pos =>
    if pos < endPos then do
      let _ ← onBlocks (decode codec)
      let next ← onBlocks readWord
      onIndex (write (word next))
      indexBlocks endPos rounds next
    else pure ()

/-- `construct_index` -/
def constructIndex : LogM Unit := do
  onIndex remove
  onIndex openAppend
  checkBlockRead
  onBlocks (seekBack 8)
  let endPos ← onBlocks readWord
  onBlocks (seek 0)
  let rounds ← .read fun log => log.blockStream.bytes.length
  indexBlocks codec endPos (rounds + 1) 0

/-- The comparison of the last position in the log with the last one in the index. -/
def compareHeads : LogM Unit := do
  checkBlockRead
  checkIndexRead
  onBlocks (seekBack 8)
  let blockPos ← onBlocks readWord
  onIndex (seekBack 8)
  let indexPos ← onIndex readWord
  if blockPos < indexPos then constructIndex codec
  else if indexPos < blockPos then constructIndex codec
  else pure ()

/-- `open`, on the files as the streams have them. -/
def openLog : LogM Unit := do
  onBlocks openAppend
  onIndex openAppend
  let log ← .read fun log => log
  if log.blockStream.bytes ≠ [] then do
    let head ← readHead codec
    .change fun log => { log with head := some head, headId := head.id env }
    if log.indexStream.bytes ≠ [] then compareHeads codec
    else constructIndex codec
  else if log.indexStream.bytes ≠ [] then do
    onIndex remove
    onIndex openAppend
  else pure ()

end Operations

section Format

/-- The blocks from a position on, each followed by its position. -/
def entries : ℕ → List SignedBlock → List UInt8
  | _, [] => []
  | pos, b :: rest =>
    codec.pack b ++ (word pos ++ entries (pos + (codec.pack b).length + 8) rest)

/-- The positions of the blocks. -/
def positions : ℕ → List SignedBlock → List ℕ
  | _, [] => []
  | pos, b :: rest => pos :: positions (pos + (codec.pack b).length + 8) rest

/-- The bytes of the index of a list of positions. -/
def indexOf (places : List ℕ) : List UInt8 := places.flatMap word

/-- The block file of some blocks. -/
def blockFile (blocks : List SignedBlock) : List UInt8 := entries codec 0 blocks

/-- The index file of some blocks. -/
def indexFile (blocks : List SignedBlock) : List UInt8 := indexOf (positions codec 0 blocks)

/-- The length of the entries is that of the first and of the others. -/
theorem entries_cons_length (pos : ℕ) (b : SignedBlock) (rest : List SignedBlock) :
    pos + (entries codec pos (b :: rest)).length = pos + (codec.pack b).length + 8 +
      (entries codec (pos + (codec.pack b).length + 8) rest).length := by
  simp only [entries, List.length_append, word_length]
  omega

/-- The entries of two parts follow each other. -/
theorem entries_append (pos : ℕ) (front back : List SignedBlock) :
    entries codec pos (front ++ back) =
      entries codec pos front ++ entries codec (pos + (entries codec pos front).length) back := by
  induction front generalizing pos with
  | nil => rfl
  | cons b rest ih =>
    rw [entries_cons_length]
    simp only [List.cons_append, entries, ih, List.append_assoc]

/-- The positions of two parts follow each other. -/
theorem positions_append (pos : ℕ) (front back : List SignedBlock) :
    positions codec pos (front ++ back) =
      positions codec pos front ++ positions codec (pos + (entries codec pos front).length) back := by
  induction front generalizing pos with
  | nil => rfl
  | cons b rest ih =>
    rw [entries_cons_length]
    simp only [List.cons_append, positions, ih]

/-- Every block has its position. -/
@[simp] theorem positions_length (pos : ℕ) (blocks : List SignedBlock) :
    (positions codec pos blocks).length = blocks.length := by
  induction blocks generalizing pos with
  | nil => rfl
  | cons b rest ih => simp only [positions, List.length_cons, ih]

/-- The index of two parts is that of both. -/
@[simp] theorem indexOf_append (front back : List ℕ) :
    indexOf (front ++ back) = indexOf front ++ indexOf back := List.flatMap_append

/-- An entry of the index has eight bytes. -/
@[simp] theorem indexOf_length (places : List ℕ) : (indexOf places).length = 8 * places.length := by
  induction places with
  | nil => rfl
  | cons place rest ih =>
    have hcons : indexOf (place :: rest) = word place ++ indexOf rest := rfl
    rw [hcons, List.length_append, word_length, ih, List.length_cons]
    omega

/-- Every block takes the eight bytes of its position at least. -/
theorem blockFile_length (blocks : List SignedBlock) :
    8 * blocks.length ≤ (blockFile codec blocks).length := by
  induction blocks using List.reverseRecOn with
  | nil => exact Nat.zero_le _
  | append_singleton front b ih =>
    unfold blockFile at ih ⊢
    rw [entries_append, List.length_append, List.length_append]
    simp only [entries, List.length_append, word_length, List.length_singleton, List.length_nil]
    omega

/-- The block file after one more block. -/
theorem blockFile_append (blocks : List SignedBlock) (b : SignedBlock) :
    blockFile codec (blocks ++ [b]) =
      blockFile codec blocks ++ codec.pack b ++ word (blockFile codec blocks).length := by
  unfold blockFile
  rw [entries_append]
  simp only [entries, Nat.zero_add, List.append_nil, List.append_assoc]

/-- The index file after one more block. -/
theorem indexFile_append (blocks : List SignedBlock) (b : SignedBlock) :
    indexFile codec (blocks ++ [b]) =
      indexFile codec blocks ++ word (blockFile codec blocks).length := by
  unfold indexFile blockFile
  rw [positions_append, indexOf_append]
  simp only [positions, Nat.zero_add, indexOf, List.flatMap_cons, List.flatMap_nil, List.append_nil]

/-- The block file around a block. -/
theorem blockFile_split (front back : List SignedBlock) (b : SignedBlock) :
    ∃ rest, blockFile codec (front ++ b :: back) =
      blockFile codec front ++ (codec.pack b ++ (word (blockFile codec front).length ++ rest)) := by
  unfold blockFile
  rw [entries_append]
  simp only [entries, Nat.zero_add]
  exact ⟨_, rfl⟩

/-- The index file around a block. -/
theorem indexFile_split (front back : List SignedBlock) (b : SignedBlock) :
    ∃ rest, indexFile codec (front ++ b :: back) =
      indexFile codec front ++ (word (blockFile codec front).length ++ rest) := by
  unfold indexFile blockFile
  rw [positions_append, indexOf_append]
  simp only [positions, Nat.zero_add, indexOf, List.flatMap_cons]
  exact ⟨_, rfl⟩

/-- The index file has eight bytes for each block. -/
@[simp] theorem indexFile_length (blocks : List SignedBlock) :
    (indexFile codec blocks).length = 8 * blocks.length := by
  unfold indexFile
  rw [indexOf_length, positions_length]

end Format

end BlockLog

end Whaleshares
