import Whaleshares.BlockLog
import Whaleshares.ChainRun

/-!
# Runs of the block log

Whatever blocks are appended to a fresh log and whatever is read in between, the log gives the
blocks back by their number, by walking from the start, and as its head, as long as no read
at a position of the caller's choice runs off the end of the block file. Such a read leaves
the stream failed, and every later read throws until a block is appended.
-/

namespace Whaleshares.BlockLog

open Fc Protocol FileStream Process ChainRun

variable {codec : Codec SignedBlock} {env : Env} {log : BlockLog}

section Streams

variable {α : Type} {m : StreamM α} {f g : FileStream} {contents : List UInt8}

/-- A successful step on the block stream is one of the log. -/
theorem onBlocks_ok {a : α} (h : m log.blockStream = (.ok a, g)) :
    onBlocks m log = (.ok a, { log with blockStream := g }) := by
  unfold onBlocks
  rw [h]

/-- A successful step of the log on its block stream is one of the stream. -/
theorem ok_of_onBlocks {a : α} {log' : BlockLog} (h : onBlocks m log = (.ok a, log')) :
    ∃ g, m log.blockStream = (.ok a, g) ∧ log' = { log with blockStream := g } := by
  unfold onBlocks at h
  cases hm : m log.blockStream with
  | mk r g =>
    rw [hm] at h
    cases r with
    | ok v =>
      cases h
      exact ⟨g, rfl, rfl⟩
    | error e => cases h

/-- A failing step on the block stream throws and leaves the stream as it was left. -/
theorem onBlocks_error {e : StreamError} (h : m log.blockStream = (.error e, g)) :
    onBlocks m log = (.error (ofStreamError e), { log with blockStream := g }) := by
  unfold onBlocks
  rw [h]

/-- A successful step on the index stream is one of the log. -/
theorem onIndex_ok {a : α} (h : m log.indexStream = (.ok a, g)) :
    onIndex m log = (.ok a, { log with indexStream := g }) := by
  unfold onIndex
  rw [h]

/-- A stream over the given bytes that is open for reading. -/
structure Readable (contents : List UInt8) (f : FileStream) : Prop where
  file : f.file = some contents
  reading : f.writing = false
  ok : f.failed = false

/-- A readable stream is determined by its contents and its position. -/
theorem Readable.eq (h : Readable contents f) : f = ⟨some contents, false, f.pos, false⟩ := by
  obtain ⟨file, writing, pos, failed⟩ := f
  obtain ⟨hfile, hreading, hok⟩ := h
  simp only at hfile hreading hok
  rw [hfile, hreading, hok]

/-- A stream over a file can be made ready for reading; it may have failed only if it was
open for reading before. -/
theorem checkRead_stream (hfile : f.file = some contents) :
    ∃ g, checkRead f = (.ok (), g) ∧ g.file = some contents ∧ g.writing = false ∧
      ((f.writing = false → f.failed = false) → g.failed = false) := by
  unfold checkRead
  by_cases hwriting : f.writing = true
  · rw [if_pos hwriting, openRead_eq hfile]
    exact ⟨_, rfl, rfl, rfl, fun _ => rfl⟩
  · have hreading : f.writing = false := by simpa using hwriting
    rw [if_neg hwriting]
    exact ⟨f, rfl, hfile, hreading, fun hok => hok hreading⟩

/-- After the switch to reading the stream is readable. -/
theorem checkRead_readable (hfile : f.file = some contents)
    (hok : f.writing = false → f.failed = false) :
    ∃ g, checkRead f = (.ok (), g) ∧ Readable contents g := by
  obtain ⟨g, hg, hgfile, hreading, hfine⟩ := checkRead_stream hfile
  exact ⟨g, hg, hgfile, hreading, hfine hok⟩

/-- The last word of a file, on a stream open for reading. -/
theorem readLast_eq {n : ℕ} {before : List UInt8} (hn : n < 2 ^ 64)
    (h : Readable (before ++ (word n ++ [])) f) :
    seekBack 8 f = (.ok (), { f with pos := before.length }) ∧
      readWord { f with pos := before.length } = (.ok n, { f with pos := before.length + 8 }) := by
  have hlength : (before ++ (word n ++ [])).length - 8 = before.length := by
    rw [List.append_nil, List.length_append, word_length, Nat.add_sub_cancel]
  have hseek := seekBack_eq 8 h.file (by simp) h.ok
  rw [hlength] at hseek
  exact ⟨hseek, readWord_eq hn h.file rfl h.ok⟩

/-- The last word of the block file. -/
theorem onBlocks_last (log : BlockLog) {n : ℕ} {before : List UInt8} (hn : n < 2 ^ 64)
    (h : Readable (before ++ (word n ++ [])) log.blockStream) :
    ∃ g, Readable (before ++ (word n ++ [])) g ∧ ∀ k : ℕ → LogM α,
      (onBlocks (seekBack 8) >>= fun _ => onBlocks readWord >>= k) log =
        k n { log with blockStream := g } := by
  obtain ⟨hseek, hread⟩ := readLast_eq hn h
  refine ⟨{ log.blockStream with pos := before.length + 8 }, ⟨h.file, h.reading, h.ok⟩, fun k => ?_⟩
  rw [bind_of_ok (onBlocks_ok hseek), bind_of_ok (onBlocks_ok hread)]

/-- The last word of the index. -/
theorem onIndex_last (log : BlockLog) {n : ℕ} {before : List UInt8} (hn : n < 2 ^ 64)
    (h : Readable (before ++ (word n ++ [])) log.indexStream) :
    ∃ g, Readable (before ++ (word n ++ [])) g ∧ ∀ k : ℕ → LogM α,
      (onIndex (seekBack 8) >>= fun _ => onIndex readWord >>= k) log =
        k n { log with indexStream := g } := by
  obtain ⟨hseek, hread⟩ := readLast_eq hn h
  refine ⟨{ log.indexStream with pos := before.length + 8 }, ⟨h.file, h.reading, h.ok⟩, fun k => ?_⟩
  rw [bind_of_ok (onIndex_ok hseek), bind_of_ok (onIndex_ok hread)]

/-- After the switch to writing the stream stands at the end of the file. -/
theorem checkWrite_eq (hfile : f.file = some contents)
    (hend : f.writing = true → f.pos = contents.length ∧ f.failed = false) :
    checkWrite f = (.ok (), ⟨some contents, true, contents.length, false⟩) := by
  unfold checkWrite
  by_cases hwriting : f.writing = true
  · obtain ⟨hpos, hok⟩ := hend hwriting
    rw [if_pos hwriting]
    cases f
    simp only at hfile hwriting hpos hok
    rw [hfile, hwriting, hpos, hok]
  · rw [if_neg hwriting]
    exact openAppend_eq hfile

end Streams

section Contents

/-- The blocks are numbered from one on. -/
def Numbered (blocks : List SignedBlock) : Prop :=
  ∀ i b, blocks[i]? = some b → b.blockNum = i + 1

/-- The log holds the given blocks. The stream of blocks may have failed only while there are
none. -/
structure Holds (codec : Codec SignedBlock) (env : Env) (blocks : List SignedBlock)
    (log : BlockLog) : Prop where
  numbered : Numbered blocks
  file : log.blockStream.file = some (blockFile codec blocks)
  index : log.indexStream.file = some (indexFile codec blocks)
  size : (blockFile codec blocks).length ≤ maxFileSize
  head : log.head = blocks.getLast?
  headId : ∀ b ∈ blocks.getLast?, log.headId = b.id env
  blockOk : blocks ≠ [] → log.blockStream.failed = false
  indexOk : log.indexStream.failed = false
  blockEnd : log.blockStream.writing = true →
    log.blockStream.pos = (blockFile codec blocks).length ∧ log.blockStream.failed = false
  indexEnd : log.indexStream.writing = true →
    log.indexStream.pos = (indexFile codec blocks).length ∧ log.indexStream.failed = false

variable {blocks : List SignedBlock}

/-- The stream of blocks may be replaced by one that is open for reading. -/
theorem Holds.withBlocks (h : Holds codec env blocks log) {g : FileStream}
    (hfile : g.file = some (blockFile codec blocks)) (hreading : g.writing = false)
    (hok : blocks ≠ [] → g.failed = false) :
    Holds codec env blocks { log with blockStream := g } :=
  { h with
    file := hfile
    blockOk := hok
    blockEnd := fun hwriting => by
      rw [hreading] at hwriting
      cases hwriting }

/-- The stream of the index may be replaced by one that is open for reading. -/
theorem Holds.withIndex (h : Holds codec env blocks log) {g : FileStream}
    (hg : Readable (indexFile codec blocks) g) :
    Holds codec env blocks { log with indexStream := g } :=
  { h with
    index := hg.file
    indexOk := hg.ok
    indexEnd := fun hwriting => by
      rw [hg.reading] at hwriting
      cases hwriting }

/-- The number of the head is the number of blocks. -/
theorem Holds.headNum (h : Holds codec env blocks log) (hne : blocks ≠ []) :
    log.headId.num = blocks.length := by
  have hlast : blocks.getLast? = some (blocks.getLast hne) := List.getLast?_eq_some_getLast hne
  have hid := h.headId _ hlast
  have hget : blocks[blocks.length - 1]? = some (blocks.getLast hne) := by
    rw [← List.getLast?_eq_getElem?, hlast]
  have hnum := h.numbered _ _ hget
  have hpos : 0 < blocks.length := List.length_pos_of_ne_nil hne
  rw [hid]
  change (blocks.getLast hne).blockNum = _
  omega

/-- The position of a block is below the end of the file. -/
theorem position_le (codec : Codec SignedBlock) (front back : List SignedBlock) (b : SignedBlock) :
    (blockFile codec front).length + 8 ≤ (blockFile codec (front ++ b :: back)).length := by
  obtain ⟨rest, hsplit⟩ := blockFile_split codec front back b
  rw [hsplit]
  simp only [List.length_append, word_length]
  omega

end Contents

section LastPosition

/-- The block file ends in the position of its last block. -/
theorem blockFile_last (codec : Codec SignedBlock) (front : List SignedBlock) (b : SignedBlock) :
    blockFile codec (front ++ [b]) = (blockFile codec front ++ codec.pack b) ++
      (word (blockFile codec front).length ++ []) := by
  rw [blockFile_append, List.append_nil]

/-- The position of a block of a file fits a word. -/
theorem blockFile_word {front back : List SignedBlock} {b : SignedBlock}
    (hsize : (blockFile codec (front ++ b :: back)).length ≤ maxFileSize) :
    (blockFile codec front).length < 2 ^ 64 := by
  have hfits := position_le codec front back b
  unfold maxFileSize at hsize
  omega

end LastPosition

section Reads

variable {blocks front back : List SignedBlock} {b : SignedBlock}

/-- `read_block` at the position of a block, on a stream open for reading. -/
theorem readBlock_readable (log : BlockLog) (front back : List SignedBlock) (hcodec : codec.Inverts b)
    (hsize : (blockFile codec (front ++ b :: back)).length ≤ maxFileSize)
    (hf : log.blockStream.file = some (blockFile codec (front ++ b :: back)))
    (hok : log.blockStream.writing = false → log.blockStream.failed = false) :
    ∃ g, readBlock codec (blockFile codec front).length log =
        (.ok (b, (blockFile codec (front ++ [b])).length), { log with blockStream := g }) ∧
      Readable (blockFile codec (front ++ b :: back)) g := by
  obtain ⟨g, hg, hread⟩ := checkRead_readable hf hok
  obtain ⟨rest, hsplit⟩ := blockFile_split codec front back b
  have hlt : (blockFile codec front).length + (codec.pack b).length + 8 ≤ maxFileSize := by
    rw [hsplit] at hsize
    simp only [List.length_append, word_length] at hsize
    omega
  have hseek := seek_eq (blockFile codec front).length hread.ok (by omega)
  have hdecode := decode_eq (f := { g with pos := (blockFile codec front).length }) hcodec
    (hread.file.trans (congrArg some hsplit)) rfl hread.ok
  have hnext : ((blockFile codec front).length + (codec.pack b).length + 8) % 2 ^ 64 =
      (blockFile codec (front ++ [b])).length := by
    rw [blockFile_append, List.length_append, List.length_append, word_length]
    unfold maxFileSize at hlt
    exact Nat.mod_eq_of_lt (by omega)
  refine ⟨{ g with pos := (blockFile codec front).length + (codec.pack b).length }, ?_,
    hread.file, hread.reading, hread.ok⟩
  unfold readBlock checkBlockRead
  rw [bind_of_ok (onBlocks_ok hg), bind_of_ok (onBlocks_ok hseek), bind_of_ok (onBlocks_ok hdecode),
    bind_of_ok (onBlocks_ok (tell_eq hread.ok)), ← hnext]
  rfl

/-- A log reads each of its blocks at the position where it was written. -/
theorem Holds.readBlock (hcodec : codec.Inverts b) (h : Holds codec env (front ++ b :: back) log) :
    ∃ log', BlockLog.readBlock codec (blockFile codec front).length log =
        (.ok (b, (blockFile codec (front ++ [b])).length), log') ∧
      Holds codec env (front ++ b :: back) log' := by
  have hne : front ++ b :: back ≠ [] := by simp
  obtain ⟨g, hg, hread⟩ := readBlock_readable log front back hcodec h.size h.file fun _ => h.blockOk hne
  exact ⟨_, hg, h.withBlocks hread.file hread.reading fun _ => hread.ok⟩

/-- `get_block_pos` of a number of the log. -/
theorem Holds.getBlockPos (h : Holds codec env (front ++ b :: back) log) :
    ∃ log', BlockLog.getBlockPos (front.length + 1) log = (.ok (blockFile codec front).length, log') ∧
      Holds codec env (front ++ b :: back) log' := by
  have hne : front ++ b :: back ≠ [] := by simp
  obtain ⟨g, hg, hread⟩ := checkRead_readable h.index fun _ => h.indexOk
  obtain ⟨rest, hsplit⟩ := indexFile_split codec front back b
  have hsize := h.size
  have hfits := position_le codec front back b
  have hindex : 8 * front.length ≤ maxFileSize := by
    have hentries := blockFile_length codec front
    omega
  have hword : (blockFile codec front).length < 2 ^ 64 := by
    unfold maxFileSize at hsize
    omega
  have hseek := seek_eq (8 * front.length) hread.ok hindex
  have hwordRead := readWord_eq (f := { g with pos := 8 * front.length }) hword
    (hread.file.trans (congrArg some hsplit)) (by rw [indexFile_length]) hread.ok
  have hinside : log.head.isSome ∧ front.length + 1 ≤ log.headId.num ∧ 0 < front.length + 1 := by
    refine ⟨?_, ?_, Nat.succ_pos _⟩
    · rw [h.head, List.getLast?_eq_some_getLast hne]
      rfl
    · rw [h.headNum hne]
      simp
  refine ⟨_, ?_, h.withIndex (g := { g with pos := (indexFile codec front).length + 8 })
    ⟨hread.file, hread.reading, hread.ok⟩⟩
  unfold BlockLog.getBlockPos checkIndexRead
  rw [bind_of_ok (onIndex_ok hg), read_bind, if_pos hinside,
    bind_of_ok (onIndex_ok (g := { g with pos := 8 * front.length }) hseek)]
  exact onIndex_ok hwordRead

/-- `get_block_pos` of a number outside the log. -/
theorem Holds.getBlockPos_outside (h : Holds codec env blocks log) {num : ℕ}
    (hnum : ¬ (1 ≤ num ∧ num ≤ blocks.length)) :
    ∃ log', BlockLog.getBlockPos num log = (.ok npos, log') ∧ Holds codec env blocks log' := by
  obtain ⟨g, hg, hread⟩ := checkRead_readable h.index fun _ => h.indexOk
  have houtside : ¬ (log.head.isSome ∧ num ≤ log.headId.num ∧ 0 < num) := by
    intro hinside
    rw [h.head] at hinside
    have hne : blocks ≠ [] := by
      intro hnil
      rw [hnil] at hinside
      simp at hinside
    rw [h.headNum hne] at hinside
    omega
  refine ⟨_, ?_, h.withIndex hread⟩
  unfold BlockLog.getBlockPos checkIndexRead
  rw [bind_of_ok (onIndex_ok hg), read_bind, if_neg houtside]
  rfl

/-- `read_block_by_num` of a number of the log. -/
theorem Holds.readBlockByNum (hcodec : codec.Inverts b)
    (h : Holds codec env (front ++ b :: back) log) :
    ∃ log', BlockLog.readBlockByNum codec (front.length + 1) log = (.ok (some b), log') ∧
      Holds codec env (front ++ b :: back) log' := by
  obtain ⟨log₁, hpos, h₁⟩ := h.getBlockPos
  obtain ⟨log₂, hread, h₂⟩ := h₁.readBlock hcodec
  have hnpos : (blockFile codec front).length ≠ npos := by
    have hsize := h.size
    have hfits := position_le codec front back b
    unfold maxFileSize at hsize
    unfold npos
    omega
  have hnum : b.blockNum = front.length + 1 := by
    refine h.numbered front.length b ?_
    rw [List.getElem?_append_right (Nat.le_refl _), Nat.sub_self]
    rfl
  refine ⟨log₂, ?_, h₂⟩
  unfold BlockLog.readBlockByNum
  rw [bind_of_ok hpos, if_neg hnpos, bind_of_ok hread, hnum]
  simp only [decide_true, fcAssert, if_true]
  rfl

/-- `read_block_by_num` of a number outside the log. -/
theorem Holds.readBlockByNum_outside (h : Holds codec env blocks log) {num : ℕ}
    (hnum : ¬ (1 ≤ num ∧ num ≤ blocks.length)) :
    ∃ log', BlockLog.readBlockByNum codec num log = (.ok none, log') ∧
      Holds codec env blocks log' := by
  obtain ⟨log', hpos, h'⟩ := h.getBlockPos_outside hnum
  refine ⟨log', ?_, h'⟩
  unfold BlockLog.readBlockByNum
  rw [bind_of_ok hpos, if_pos rfl]
  rfl

/-- `read_head`, on a stream with a last block. -/
theorem readHead_eq (hcodec : codec.Inverts b)
    (hsize : (blockFile codec (front ++ [b])).length ≤ maxFileSize)
    (hf : log.blockStream.file = some (blockFile codec (front ++ [b])))
    (hok : log.blockStream.writing = false → log.blockStream.failed = false) :
    ∃ g, BlockLog.readHead codec log = (.ok b, { log with blockStream := g }) ∧
      Readable (blockFile codec (front ++ [b])) g := by
  obtain ⟨f, hf', hread⟩ := checkRead_readable hf hok
  have hcontents := blockFile_last codec front b
  have hword := blockFile_word hsize
  rw [hcontents] at hread
  obtain ⟨g, hg, hlast⟩ := onBlocks_last { log with blockStream := f } hword hread
  rw [← hcontents] at hg
  obtain ⟨g', hg', hread'⟩ := readBlock_readable { log with blockStream := g } front [] hcodec hsize
    hg.file fun _ => hg.ok
  refine ⟨g', ?_, hread'⟩
  unfold BlockLog.readHead checkBlockRead
  rw [bind_of_ok (onBlocks_ok hf'), hlast, bind_of_ok hg']
  rfl

end Reads

section Appends

variable {blocks : List SignedBlock} {b : SignedBlock}

/-- The log with both streams open for appending, at the ends of the given files. -/
def writingTo (blockBytes indexBytes : List UInt8) (log : BlockLog) : BlockLog where
  head := log.head
  headId := log.headId
  blockStream := ⟨some blockBytes, true, blockBytes.length, false⟩
  indexStream := ⟨some indexBytes, true, indexBytes.length, false⟩

variable {blockBytes indexBytes data : List UInt8}

/-- What is written to the block stream stands at the end of its file. -/
theorem onBlocks_write (hroom : blockBytes.length + data.length ≤ maxFileSize) :
    onBlocks (write data) (writingTo blockBytes indexBytes log) =
      (.ok (), writingTo (blockBytes ++ data) indexBytes log) := by
  rw [onBlocks_ok (write_eq data rfl hroom rfl), ← List.length_append]
  rfl

/-- What is written to the index stream stands at the end of its file. -/
theorem onIndex_write (hroom : indexBytes.length + data.length ≤ maxFileSize) :
    onIndex (write data) (writingTo blockBytes indexBytes log) =
      (.ok (), writingTo blockBytes (indexBytes ++ data) log) := by
  rw [onIndex_ok (write_eq data rfl hroom rfl), ← List.length_append]
  rfl

/-- A log that switched to writing holds the same blocks. -/
theorem Holds.writing (h : Holds codec env blocks log) :
    Holds codec env blocks (writingTo (blockFile codec blocks) (indexFile codec blocks) log) :=
  { h with
    file := rfl
    index := rfl
    blockOk := fun _ => rfl
    indexOk := rfl
    blockEnd := fun _ => ⟨rfl, rfl⟩
    indexEnd := fun _ => ⟨rfl, rfl⟩ }

/-- `append` after its streams are open and their positions known. -/
theorem Holds.append_eq (h : Holds codec env blocks log) :
    append codec env b log = (do
      .ofExcept (fcAssert (8 * blocks.length = 8 * (b.blockNum - 1))
        "Append to index file occuring at wrong position.")
      onBlocks (write (codec.pack b))
      onBlocks (write (word (blockFile codec blocks).length))
      onIndex (write (word (blockFile codec blocks).length))
      .change fun log => { log with head := some b, headId := b.id env }
      pure (blockFile codec blocks).length : LogM ℕ)
      (writingTo (blockFile codec blocks) (indexFile codec blocks) log) := by
  have hblocks : checkBlockWrite log = (.ok (), { log with blockStream :=
      ⟨some (blockFile codec blocks), true, (blockFile codec blocks).length, false⟩ }) :=
    onBlocks_ok (checkWrite_eq h.file h.blockEnd)
  have hindex : checkIndexWrite { log with blockStream :=
      ⟨some (blockFile codec blocks), true, (blockFile codec blocks).length, false⟩ } =
      (.ok (), writingTo (blockFile codec blocks) (indexFile codec blocks) log) :=
    onIndex_ok (checkWrite_eq h.index h.indexEnd)
  have hpos : onBlocks tell (writingTo (blockFile codec blocks) (indexFile codec blocks) log) =
      (.ok (blockFile codec blocks).length,
        writingTo (blockFile codec blocks) (indexFile codec blocks) log) :=
    onBlocks_ok (tell_eq rfl)
  have hindexPos : onIndex tell (writingTo (blockFile codec blocks) (indexFile codec blocks) log) =
      (.ok (8 * blocks.length),
        writingTo (blockFile codec blocks) (indexFile codec blocks) log) := by
    rw [← indexFile_length codec]
    exact onIndex_ok (tell_eq rfl)
  unfold append
  rw [bind_of_ok hblocks, bind_of_ok hindex, bind_of_ok hpos, bind_of_ok hindexPos]

/-- The block is refused if its number is not the next one; files and head stay. -/
theorem Holds.append_refused (h : Holds codec env blocks log)
    (hnum : b.blockNum ≠ blocks.length + 1) :
    append codec env b log =
      (.error (failed "Append to index file occuring at wrong position."),
        writingTo (blockFile codec blocks) (indexFile codec blocks) log) := by
  have hpos : 0 < b.blockNum := Nat.succ_pos _
  have hne : ¬ 8 * blocks.length = 8 * (b.blockNum - 1) := by omega
  rw [h.append_eq, bind_of_error]
  simp only [fcAssert, hne, decide_false]
  rfl

/-- The log after a block. -/
def appended (codec : Codec SignedBlock) (env : Env) (blocks : List SignedBlock) (b : SignedBlock) :
    BlockLog :=
  writingTo (blockFile codec (blocks ++ [b])) (indexFile codec (blocks ++ [b]))
    { head := some b, headId := b.id env }

/-- A block of the next number is appended if the file has room for it. -/
theorem Holds.append_room (h : Holds codec env blocks log) (hnum : b.blockNum = blocks.length + 1)
    (hroom : (blockFile codec (blocks ++ [b])).length ≤ maxFileSize) :
    append codec env b log =
      (.ok (blockFile codec blocks).length, appended codec env blocks b) := by
  have heq : 8 * blocks.length = 8 * (b.blockNum - 1) := by omega
  have hblocks := blockFile_append codec blocks b
  have hindex := indexFile_append codec blocks b
  have hlength := congrArg List.length hblocks
  have hentries := blockFile_length codec (blocks ++ [b])
  simp only [List.length_append, word_length, List.length_singleton] at hlength hentries
  have hpackRoom : (blockFile codec blocks).length + (codec.pack b).length ≤ maxFileSize := by omega
  have hplaceRoom : (blockFile codec blocks ++ codec.pack b).length +
      (word (blockFile codec blocks).length).length ≤ maxFileSize := by
    rw [List.length_append, word_length]
    omega
  have hindexRoom : (indexFile codec blocks).length +
      (word (blockFile codec blocks).length).length ≤ maxFileSize := by
    rw [indexFile_length, word_length]
    omega
  rw [h.append_eq, heq]
  simp only [decide_true, fcAssert, if_true]
  rw [ofExcept_bind, bind_of_ok (onBlocks_write hpackRoom), bind_of_ok (onBlocks_write hplaceRoom),
    bind_of_ok (onIndex_write hindexRoom), change_bind]
  unfold appended
  rw [hblocks, hindex]
  rfl

/-- An empty log is numbered. -/
theorem numbered_nil : Numbered [] := by
  intro i b h
  simp at h

/-- The next number continues a numbered log. -/
theorem numbered_append (hnumbered : Numbered blocks) (hnum : b.blockNum = blocks.length + 1) :
    Numbered (blocks ++ [b]) := by
  intro i c hc
  rcases Nat.lt_trichotomy i blocks.length with hlt | heq | hgt
  · rw [List.getElem?_append_left hlt] at hc
    exact hnumbered i c hc
  · subst heq
    rw [List.getElem?_append_right (Nat.le_refl _), Nat.sub_self] at hc
    have hsame : b = c := Option.some.inj hc
    rw [← hsame]
    exact hnum
  · rw [List.getElem?_eq_none (by simp; omega)] at hc
    cases hc

/-- After an append the log holds the block as well. -/
theorem holds_appended (hnumbered : Numbered (blocks ++ [b]))
    (hroom : (blockFile codec (blocks ++ [b])).length ≤ maxFileSize) :
    Holds codec env (blocks ++ [b]) (appended codec env blocks b) where
  numbered := hnumbered
  file := rfl
  index := rfl
  size := hroom
  head := by
    rw [List.getLast?_concat]
    rfl
  headId c hc := by
    have hsame : b = c := by simpa using hc
    rw [← hsame]
    rfl
  blockOk _ := rfl
  indexOk := rfl
  blockEnd _ := ⟨rfl, rfl⟩
  indexEnd _ := ⟨rfl, rfl⟩

/-- An append that succeeds adds the block to the log. -/
theorem Holds.append_ok (h : Holds codec env blocks log) (hnum : b.blockNum = blocks.length + 1)
    {pos : ℕ} {log' : BlockLog} (happend : append codec env b log = (.ok pos, log')) :
    Holds codec env (blocks ++ [b]) log' := by
  by_cases hroom : (blockFile codec (blocks ++ [b])).length ≤ maxFileSize
  · have heq := (h.append_room hnum hroom).symm.trans happend
    have hlog : appended codec env blocks b = log' := congrArg Prod.snd heq
    rw [← hlog]
    exact holds_appended (numbered_append h.numbered hnum) hroom
  · exfalso
    rw [h.append_eq] at happend
    obtain ⟨_, log₀, hassert, hwrites⟩ := ok_of_bind happend
    obtain ⟨-, rfl⟩ := ok_of_ofExcept hassert
    obtain ⟨_, log₁, hpack, hwords⟩ := ok_of_bind hwrites
    obtain ⟨_, log₂, hplace, -⟩ := ok_of_bind hwords
    obtain ⟨f, hf, rfl⟩ := ok_of_onBlocks hpack
    obtain ⟨g, hg, -⟩ := ok_of_onBlocks hplace
    have hfile := (write_ok hf).2
    have hsize := (write_ok hg).1
    have hbytes : f.bytes = blockFile codec blocks ++ codec.pack b := by
      rw [FileStream.bytes, hfile]
      rfl
    apply hroom
    rw [blockFile_append, List.length_append]
    change f.bytes.length + _ ≤ _ at hsize
    rwa [hbytes] at hsize

end Appends

section RawReads

variable {blocks : List SignedBlock} {contents : List UInt8}

/-- A read at the position runs off the end of the file. -/
def RunsOff (codec : Codec SignedBlock) (contents : List UInt8) (pos : ℕ) : Prop :=
  maxFileSize < pos ∨ codec.unpack (contents.drop pos) = .error .endOfFile

/-- The stream after `read_block` at any position. -/
theorem readBlock_stream {pos : ℕ} {r : Except Exc (SignedBlock × ℕ)} {log' : BlockLog}
    (hfile : log.blockStream.file = some contents)
    (hread : readBlock codec pos log = (r, log')) :
    ∃ g, log' = { log with blockStream := g } ∧ g.file = some contents ∧ g.writing = false ∧
      (¬ RunsOff codec contents pos →
        (log.blockStream.writing = false → log.blockStream.failed = false) → g.failed = false) := by
  unfold readBlock checkBlockRead at hread
  obtain ⟨f, hcheck, hf, hreading, hok⟩ := checkRead_stream hfile
  rw [bind_of_ok (onBlocks_ok hcheck)] at hread
  rcases seek_cases pos f with ⟨hfine, -, hseek⟩ | ⟨hbad, hseek⟩
  · rw [bind_of_ok (onBlocks_ok hseek)] at hread
    rcases decode_cases (f := { f with pos := pos }) codec hfine with
      ⟨b, count, hdecode⟩ | ⟨hunpack, hdecode⟩ | hdecode
    · rw [bind_of_ok (onBlocks_ok hdecode), bind_of_ok (onBlocks_ok (tell_eq hfine))] at hread
      exact ⟨{ f with pos := pos + count }, (congrArg Prod.snd hread).symm, hf, hreading,
        fun _ _ => hfine⟩
    · rw [bind_of_error (onBlocks_error hdecode)] at hread
      refine ⟨{ f with pos := pos, failed := true }, (congrArg Prod.snd hread).symm, hf, hreading,
        fun hruns => absurd (.inr ?_) hruns⟩
      rwa [FileStream.bytes, hf] at hunpack
    · rw [bind_of_error (onBlocks_error hdecode)] at hread
      exact ⟨{ f with pos := pos }, (congrArg Prod.snd hread).symm, hf, hreading, fun _ _ => hfine⟩
  · rw [bind_of_error (onBlocks_error hseek)] at hread
    refine ⟨{ f with failed := true }, (congrArg Prod.snd hread).symm, hf, hreading, ?_⟩
    intro hruns hfine
    rcases hbad with hfailed | hfar
    · rw [hok hfine] at hfailed
      cases hfailed
    · exact absurd (.inl hfar) hruns

/-- A read at a position of the caller's choice leaves the log as it is, unless it runs off
the end of the file of some blocks. -/
theorem Holds.readBlock_any {pos : ℕ} {r : Except Exc (SignedBlock × ℕ)} {log' : BlockLog}
    (h : Holds codec env blocks log) (hruns : blocks ≠ [] → ¬ RunsOff codec (blockFile codec blocks) pos)
    (hread : BlockLog.readBlock codec pos log = (r, log')) : Holds codec env blocks log' := by
  obtain ⟨g, rfl, hfile, hreading, hok⟩ := readBlock_stream h.file hread
  exact h.withBlocks hfile hreading fun hne => hok (hruns hne) fun _ => h.blockOk hne

/-- `read_head` leaves the log as it is, also while there are no blocks. -/
theorem Holds.readHead_any (hcodec : ∀ b ∈ blocks, codec.Inverts b) {r : Except Exc SignedBlock} {log' : BlockLog}
    (h : Holds codec env blocks log) (hread : BlockLog.readHead codec log = (r, log')) :
    Holds codec env blocks log' := by
  cases blocks using List.reverseRecOn with
  | nil =>
    obtain ⟨f, hcheck, hf, hreading, -⟩ := checkRead_stream h.file
    have hempty : f.bytes.length < 8 := by
      rw [FileStream.bytes, hf]
      exact Nat.succ_pos 7
    have hback : seekBack 8 f = (.error .failure, { f with failed := true }) := by
      unfold seekBack
      rw [if_pos (.inr hempty)]
      rfl
    unfold BlockLog.readHead checkBlockRead at hread
    rw [bind_of_ok (onBlocks_ok hcheck), bind_of_error (onBlocks_error hback)] at hread
    have hlog : { log with blockStream := { f with failed := true } } = log' :=
      congrArg Prod.snd hread
    rw [← hlog]
    exact h.withBlocks hf hreading fun hne => absurd rfl hne
  | append_singleton front b _ =>
    obtain ⟨g, hg, hread'⟩ := readHead_eq (hcodec b (by simp)) h.size h.file fun _ => h.blockOk (by simp)
    have hlog : { log with blockStream := g } = log' :=
      congrArg Prod.snd (hg.symm.trans hread)
    rw [← hlog]
    exact h.withBlocks hread'.file hread'.reading fun _ => hread'.ok

end RawReads

section Runs

variable {blocks : List SignedBlock}

/-- A call that reads the log. -/
inductive ReadCall where
  | readBlock (pos : ℕ)
  | readBlockByNum (blockNum : ℕ)
  | getBlockPos (blockNum : ℕ)
  | readHead
  | head

/-- The log after a call that reads it, whether the call throws or not. -/
def ReadCall.run (codec : Codec SignedBlock) : ReadCall → BlockLog → BlockLog
  | .readBlock pos, log => (BlockLog.readBlock codec pos log).2
  | .readBlockByNum blockNum, log => (BlockLog.readBlockByNum codec blockNum log).2
  | .getBlockPos blockNum, log => (BlockLog.getBlockPos blockNum log).2
  | .readHead, log => (BlockLog.readHead codec log).2
  | .head, log => log

/-- The blocks and the log after a run from a fresh log: blocks of the next number are
appended, others are refused, and allowed reads stand in between. -/
inductive Logged (codec : Codec SignedBlock) (env : Env) (allowed : BlockLog → ReadCall → Prop) :
    List SignedBlock → BlockLog → Prop
  | fresh : Logged codec env allowed [] (openLog codec env {}).2
  | appends {blocks : List SignedBlock} {log log' : BlockLog} {b : SignedBlock} {pos : ℕ}
      (run : Logged codec env allowed blocks log) (next : b.blockNum = blocks.length + 1)
      (append : append codec env b log = (.ok pos, log')) :
      Logged codec env allowed (blocks ++ [b]) log'
  | refuses {blocks : List SignedBlock} {log : BlockLog} {b : SignedBlock}
      (run : Logged codec env allowed blocks log) (other : b.blockNum ≠ blocks.length + 1) :
      Logged codec env allowed blocks (append codec env b log).2
  | reads {blocks : List SignedBlock} {log : BlockLog} {call : ReadCall}
      (run : Logged codec env allowed blocks log) (allows : allowed log call) :
      Logged codec env allowed blocks (call.run codec log)

/-- A read at a position of the caller's choice does not run off the end of a block file that
is not empty. -/
def StaysInside (codec : Codec SignedBlock) (log : BlockLog) : ReadCall → Prop
  | .readBlock pos => log.blockStream.bytes ≠ [] → ¬ RunsOff codec log.blockStream.bytes pos
  | _ => True

/-- A fresh log holds no blocks. -/
theorem holds_fresh (codec : Codec SignedBlock) (env : Env) :
    Holds codec env [] (openLog codec env {}).2 where
  numbered := numbered_nil
  file := rfl
  index := rfl
  size := Nat.zero_le _
  head := rfl
  headId _ h := by simp at h
  blockOk _ := rfl
  indexOk := rfl
  blockEnd _ := ⟨rfl, rfl⟩
  indexEnd _ := ⟨rfl, rfl⟩

/-- A number is inside the log or outside of it. -/
theorem split_at (blocks : List SignedBlock) (num : ℕ) :
    (∃ front b back, blocks = front ++ b :: back ∧ num = front.length + 1) ∨
      ¬ (1 ≤ num ∧ num ≤ blocks.length) := by
  by_cases hinside : 1 ≤ num ∧ num ≤ blocks.length
  · left
    have hlt : num - 1 < blocks.length := by omega
    refine ⟨blocks.take (num - 1), blocks[num - 1], blocks.drop num, ?_, ?_⟩
    · have hdrop : blocks.drop (num - 1) = blocks[num - 1] :: blocks.drop num := by
        rw [List.drop_eq_getElem_cons hlt, Nat.sub_add_cancel hinside.1]
      rw [← hdrop, List.take_append_drop]
    · rw [List.length_take]
      omega
  · exact .inr hinside

/-- A lookup of a position keeps what the log holds, whatever its number. -/
theorem Holds.getBlockPos_any (h : Holds codec env blocks log) (num : ℕ) :
    Holds codec env blocks (BlockLog.getBlockPos num log).2 := by
  rcases split_at blocks num with ⟨front, b, back, rfl, rfl⟩ | houtside
  · obtain ⟨log', hpos, h'⟩ := h.getBlockPos
    rw [hpos]
    exact h'
  · obtain ⟨log', hpos, h'⟩ := h.getBlockPos_outside houtside
    rw [hpos]
    exact h'

/-- `read_block_by_num` of any number. -/
theorem Holds.readBlockByNum_any (hcodec : ∀ b ∈ blocks, codec.Inverts b)
    (h : Holds codec env blocks log) (num : ℕ) :
    ∃ log', BlockLog.readBlockByNum codec num log =
        (.ok (if num = 0 then none else blocks[num - 1]?), log') ∧ Holds codec env blocks log' := by
  rcases split_at blocks num with ⟨front, b, back, rfl, rfl⟩ | houtside
  · obtain ⟨log', hread, h'⟩ := h.readBlockByNum (hcodec b (by simp))
    refine ⟨log', ?_, h'⟩
    rw [hread]
    simp
  · obtain ⟨log', hread, h'⟩ := h.readBlockByNum_outside houtside
    refine ⟨log', ?_, h'⟩
    rw [hread]
    by_cases hzero : num = 0
    · rw [if_pos hzero]
    · rw [if_neg hzero, List.getElem?_eq_none (by omega)]

/-- The log of a run holds its blocks. -/
theorem Logged.holds (h : Logged codec env (StaysInside codec) blocks log)
    (hcodec : ∀ b ∈ blocks, codec.Inverts b) : Holds codec env blocks log := by
  induction h with
  | fresh => exact holds_fresh codec env
  | appends _ next append ih =>
    exact (ih fun c hc => hcodec c (List.mem_append_left _ hc)).append_ok next append
  | refuses _ other ih =>
    rw [(ih hcodec).append_refused other]
    exact (ih hcodec).writing
  | @reads blocks log call _ allows ih =>
    have hholds := ih hcodec
    cases call with
    | readBlock pos =>
      refine hholds.readBlock_any (fun hne => ?_) rfl
      have hbytes : log.blockStream.bytes = blockFile codec blocks := by
        rw [FileStream.bytes, hholds.file]
        rfl
      have hinside : log.blockStream.bytes ≠ [] → ¬ RunsOff codec log.blockStream.bytes pos := allows
      rw [hbytes] at hinside
      refine hinside fun hnil => ?_
      have hlength := blockFile_length codec blocks
      rw [hnil, List.length_nil] at hlength
      exact hne (List.length_eq_zero_iff.mp (by omega))
    | readBlockByNum num =>
      obtain ⟨log', hread, h'⟩ := hholds.readBlockByNum_any hcodec num
      change Holds codec env blocks (BlockLog.readBlockByNum codec num log).2
      rw [hread]
      exact h'
    | getBlockPos num => exact hholds.getBlockPos_any num
    | readHead => exact hholds.readHead_any hcodec rfl
    | head => exact hholds

/-- The blocks from a position on, following the next positions. -/
def follow (codec : Codec SignedBlock) : ℕ → ℕ → LogM (List SignedBlock)
  | 0, _ => pure []
  | count + 1, pos => do
    let read ← readBlock codec pos
    let rest ← follow codec count read.2
    pure (read.1 :: rest)

/-- The walk over the blocks from any of them gives the rest. -/
theorem Holds.follow (hcodec : ∀ b ∈ blocks, codec.Inverts b) (front back : List SignedBlock)
    (hblocks : blocks = front ++ back) (h : Holds codec env blocks log) :
    ∃ log', BlockLog.follow codec back.length (blockFile codec front).length log = (.ok back, log') := by
  induction back generalizing front log with
  | nil => exact ⟨log, rfl⟩
  | cons b rest ih =>
    rw [hblocks] at h
    obtain ⟨log₁, hread, h₁⟩ := h.readBlock (hcodec b (by rw [hblocks]; simp))
    obtain ⟨log₂, hrest⟩ := ih (front ++ [b]) (by rw [hblocks]; simp) (by rw [hblocks]; exact h₁)
    refine ⟨log₂, ?_⟩
    rw [List.length_cons, BlockLog.follow, bind_of_ok hread, bind_of_ok hrest]
    rfl

/-- The log gives its blocks back in every way, and refuses blocks of other numbers. -/
structure Faithful (codec : Codec SignedBlock) (env : Env) (blocks : List SignedBlock)
    (log : BlockLog) : Prop where
  numbered : Numbered blocks
  byNum : ∀ num, ∃ log', readBlockByNum codec num log =
    (.ok (if num = 0 then none else blocks[num - 1]?), log')
  walk : ∃ log', follow codec blocks.length 0 log = (.ok blocks, log')
  last : ∀ b ∈ blocks.getLast?, ∃ log', readHead codec log = (.ok b, log')
  head : log.head = blocks.getLast?
  refuses : ∀ b, b.blockNum ≠ blocks.length + 1 → ∃ e log', append codec env b log = (.error e, log') ∧
    log'.blockStream.file = log.blockStream.file ∧ log'.indexStream.file = log.indexStream.file ∧
    log'.head = log.head ∧ log'.headId = log.headId

/-- Along every run from a fresh log in which no read at a position of the caller's choice runs
off the end of the block file, the log is faithful to the appended blocks. -/
theorem block_log_faithful (hcodec : ∀ b ∈ blocks, codec.Inverts b)
    (hrun : Logged codec env (StaysInside codec) blocks log) : Faithful codec env blocks log := by
  have h := hrun.holds hcodec
  refine ⟨h.numbered, fun num => ?_, ?_, fun b hb => ?_, h.head, fun b hb => ?_⟩
  · obtain ⟨log', hread, -⟩ := h.readBlockByNum_any hcodec num
    exact ⟨log', hread⟩
  · exact h.follow hcodec [] blocks rfl
  · obtain ⟨front, rfl⟩ := List.getLast?_eq_some_iff.mp hb
    obtain ⟨g, hg, -⟩ := readHead_eq (hcodec b (by simp)) h.size h.file fun _ =>
      h.blockOk (by simp)
    exact ⟨_, hg⟩
  · exact ⟨_, _, h.append_refused hb, h.file.symm, h.index.symm, rfl, rfl⟩

end Runs

section Sample

/-- The bytes of fc for a block without transactions and extensions whose witness has a name
of less than 128 bytes. -/
def packPlain (b : SignedBlock) : List UInt8 :=
  (toBytes 4 b.header.previous.num).reverse ++ (toBytes 16 b.header.previous.hash ++
    (toBytes 4 b.header.timestamp ++ (UInt8.ofNat b.header.witness.length :: (b.header.witness ++
      (toBytes 20 b.header.transactionMerkleRoot ++ (0 :: (toBytes 65 b.header.witnessSignature.data ++
        [0])))))))

/-- The block of such bytes. -/
def unpackPlain (data : List UInt8) : Except DecodeError (SignedBlock × ℕ) :=
  match data.drop 24 with
  | [] => .error .endOfFile
  | size :: named =>
    match (named.drop size.toNat).drop 20 with
    | [] => .error .endOfFile
    | extensions :: signed =>
      match signed.drop 65 with
      | [] => .error .endOfFile
      | transactions :: _ =>
        if extensions = 0 ∧ transactions = 0 then .ok
          (⟨⟨⟨ofBytes (data.take 4).reverse, ofBytes ((data.drop 4).take 16)⟩,
            ofBytes ((data.drop 20).take 4), named.take size.toNat,
            ofBytes ((named.drop size.toNat).take 20), [], ⟨ofBytes (signed.take 65)⟩⟩, []⟩,
            112 + size.toNat)
        else .error .malformed

/-- A block whose fields have the sizes of the source and that has the plain encoding. -/
structure Plain (b : SignedBlock) : Prop where
  previous : b.header.previous.num < 256 ^ 4
  hash : b.header.previous.hash < 256 ^ 16
  timestamp : b.header.timestamp < 256 ^ 4
  witness : b.header.witness.length < 2 ^ 7
  merkleRoot : b.header.transactionMerkleRoot < 256 ^ 20
  signature : b.header.witnessSignature.data < 256 ^ 65
  extensions : b.header.extensions = []
  transactions : b.transactions = []

def plainCodec : Codec SignedBlock := ⟨packPlain, unpackPlain⟩

/-- Leaving out a field and more leaves out the field first. -/
theorem drop_pack {first rest : List UInt8} {width : ℕ} (h : first.length = width) (more : ℕ) :
    (first ++ rest).drop (width + more) = rest.drop more := by
  rw [← List.drop_drop, List.drop_left' h]

/-- A number that fits into its bytes is read back. -/
theorem ofBytes_toBytes_of_lt {width n : ℕ} (h : n < 256 ^ width) : ofBytes (toBytes width n) = n := by
  rw [ofBytes_toBytes, Nat.mod_eq_of_lt h]

/-- The fields of a plain block, one after the other. -/
theorem unpackPlain_fields (num hash time name root signature rest : List UInt8)
    (hnum : num.length = 4) (hhash : hash.length = 16) (htime : time.length = 4)
    (hname : name.length < 2 ^ 7) (hroot : root.length = 20) (hsignature : signature.length = 65) :
    unpackPlain (num ++ (hash ++ (time ++ (UInt8.ofNat name.length :: (name ++ (root ++
      (0 :: (signature ++ (0 :: rest))))))))) =
      .ok (⟨⟨⟨ofBytes num.reverse, ofBytes hash⟩, ofBytes time, name, ofBytes root, [],
        ⟨ofBytes signature⟩⟩, []⟩, 112 + name.length) := by
  have hsize : (UInt8.ofNat name.length).toNat = name.length := by
    rw [UInt8.toNat_ofNat']
    exact Nat.mod_eq_of_lt (by omega)
  have hhead (fields : List UInt8) :
      (num ++ (hash ++ (time ++ fields))).drop (4 + (16 + (4 + 0))) = fields := by
    rw [drop_pack hnum, drop_pack hhash, drop_pack htime, List.drop_zero]
  have htimes (fields : List UInt8) :
      ((num ++ (hash ++ (time ++ fields))).drop (4 + (16 + 0))).take 4 = time := by
    rw [drop_pack hnum, drop_pack hhash, List.drop_zero, List.take_left' htime]
  have hhashes (fields : List UInt8) : ((num ++ (hash ++ fields)).drop (4 + 0)).take 16 = hash := by
    rw [drop_pack hnum, List.drop_zero, List.take_left' hhash]
  unfold unpackPlain
  rw [hhead, htimes, hhashes, List.take_left' hnum]
  simp only [hsize, List.drop_left, List.take_left, List.drop_left' hroot, List.take_left' hroot,
    List.drop_left' hsignature, List.take_left' hsignature, and_self, if_true]

/-- The plain codec reads back a plain block. -/
theorem plainCodec_inverts {b : SignedBlock} (h : Plain b) : plainCodec.Inverts b := by
  intro rest
  obtain ⟨⟨⟨num, hash⟩, timestamp, witness, merkleRoot, extensions, ⟨signature⟩⟩, transactions⟩ := b
  have hextensions : extensions = [] := h.extensions
  have htransactions : transactions = [] := h.transactions
  have hfields := unpackPlain_fields (toBytes 4 num).reverse (toBytes 16 hash) (toBytes 4 timestamp)
    witness (toBytes 20 merkleRoot) (toBytes 65 signature) rest (by simp) (by simp) (by simp)
    h.witness (by simp) (by simp)
  rw [List.reverse_reverse, ofBytes_toBytes_of_lt h.previous, ofBytes_toBytes_of_lt h.hash,
    ofBytes_toBytes_of_lt h.timestamp, ofBytes_toBytes_of_lt h.merkleRoot,
    ofBytes_toBytes_of_lt h.signature] at hfields
  subst hextensions htransactions
  have hlength : (packPlain ⟨⟨⟨num, hash⟩, timestamp, witness, merkleRoot, [], ⟨signature⟩⟩, []⟩).length =
      112 + witness.length := by
    simp only [packPlain, List.length_append, List.length_reverse, toBytes_length, List.length_cons,
      List.length_nil]
    omega
  change unpackPlain (packPlain _ ++ rest) = .ok (_, (packPlain _).length)
  rw [hlength, ← hfields]
  simp only [packPlain, List.append_assoc, List.cons_append, List.nil_append]

/-- A first block of the log. -/
def firstBlock : SignedBlock := ⟨⟨.null, 1, bytesOf "initminer", 0, [], ⟨0⟩⟩, []⟩

/-- The first block is plain. -/
theorem firstBlock_plain : Plain firstBlock where
  previous := by decide
  hash := by decide
  timestamp := by decide
  witness := by decide
  merkleRoot := by decide
  signature := Nat.pow_pos (by decide)
  extensions := rfl
  transactions := rfl

/-- The block after the first one. -/
def secondBlock : SignedBlock :=
  ⟨⟨firstBlock.id sampleEnv, 4, bytesOf "initminer", 0, [], ⟨0⟩⟩, []⟩

/-- The second block is plain. -/
theorem secondBlock_plain : Plain secondBlock where
  previous := by decide
  hash := by decide
  timestamp := by decide
  witness := by decide
  merkleRoot := by decide
  signature := Nat.pow_pos (by decide)
  extensions := rfl
  transactions := rfl

/-- The two blocks are numbered. -/
theorem numbered_twoBlocks : Numbered [firstBlock, secondBlock] :=
  numbered_append (numbered_append numbered_nil rfl) rfl

/-- The plain codec reads back both blocks. -/
theorem twoBlocks_inverts : ∀ b ∈ [firstBlock, secondBlock], plainCodec.Inverts b := by
  intro b hb
  rcases List.mem_pair.mp hb with rfl | rfl
  · exact plainCodec_inverts firstBlock_plain
  · exact plainCodec_inverts secondBlock_plain

/-- Appending the first block to a fresh log writes it at position zero. -/
theorem append_firstBlock :
    append plainCodec sampleEnv firstBlock (openLog plainCodec sampleEnv {}).2 =
      (.ok 0, appended plainCodec sampleEnv [] firstBlock) :=
  (holds_fresh plainCodec sampleEnv).append_room rfl (by decide +kernel)

/-- The log with the first block is logged. -/
theorem logged_firstBlock (allowed : BlockLog → ReadCall → Prop) :
    Logged plainCodec sampleEnv allowed [firstBlock] (appended plainCodec sampleEnv [] firstBlock) :=
  .appends .fresh rfl append_firstBlock

/-- The first block is appended and read back at its position. The second one is appended after
that, and the first one is refused when it comes again. -/
theorem block_log_faithful_twoBlocks :
    ∃ log, Logged plainCodec sampleEnv (StaysInside plainCodec) [firstBlock, secondBlock] log ∧
      Faithful plainCodec sampleEnv [firstBlock, secondBlock] log := by
  have hfinds : ¬ RunsOff plainCodec
      (appended plainCodec sampleEnv [] firstBlock).blockStream.bytes 0 ∧
      (blockFile plainCodec [firstBlock, secondBlock]).length ≤ maxFileSize ∧
      secondBlock.blockNum = 2 := by
    unfold RunsOff
    decide +kernel
  obtain ⟨hinside, hroom, hnum⟩ := hfinds
  have hread : Logged plainCodec sampleEnv (StaysInside plainCodec) [firstBlock]
      ((ReadCall.readBlock 0).run plainCodec (appended plainCodec sampleEnv [] firstBlock)) :=
    .reads (logged_firstBlock _) fun _ => hinside
  have hfirst : ∀ b ∈ [firstBlock], plainCodec.Inverts b := fun b hb =>
    twoBlocks_inverts b (List.mem_append_left [secondBlock] hb)
  have happend := (hread.holds hfirst).append_room hnum hroom
  have hrun : Logged plainCodec sampleEnv (StaysInside plainCodec) [firstBlock, secondBlock]
      (append plainCodec sampleEnv firstBlock
        (appended plainCodec sampleEnv [firstBlock] secondBlock)).2 :=
    .refuses (.appends hread hnum happend) (by decide)
  exact ⟨_, hrun, block_log_faithful twoBlocks_inverts hrun⟩

/-- A read past the end of the file fails, and the block of the log cannot be read any more. -/
theorem read_fails_after_end :
    plainCodec.Inverts firstBlock ∧
    ∃ log, Logged plainCodec sampleEnv (fun _ _ => True) [firstBlock] log ∧
      ∃ e log', readBlockByNum plainCodec 1 log = (.error e, log') := by
  have hread : Logged plainCodec sampleEnv (fun _ _ => True) [firstBlock]
      ((ReadCall.readBlock 129).run plainCodec (appended plainCodec sampleEnv [] firstBlock)) :=
    .reads (logged_firstBlock _) trivial
  refine ⟨plainCodec_inverts firstBlock_plain, _, hread, error_of_isOk ?_⟩
  decide +kernel

end Sample

end Whaleshares.BlockLog
