import Whaleshares.BlockLogRun

/-!
# Recovery of the index of the block log

`open` compares the last position in the block file with the last one in the index and keeps
the index if they agree. Otherwise `construct_index` walks the block file and writes every
position that it reads, until it has written the last one. For a log of one block the last
position is zero, where the walk starts, and nothing is written.
-/

namespace Whaleshares.BlockLog

open Fc Protocol FileStream Process ChainRun

variable {codec : Codec SignedBlock} {env : Env} {log : BlockLog} {blocks : List SignedBlock}

section Positions

/-- The file grows with every block. -/
theorem blockFile_lt (codec : Codec SignedBlock) (front : List SignedBlock) {back : List SignedBlock}
    (hne : back ≠ []) :
    (blockFile codec front).length < (blockFile codec (front ++ back)).length := by
  cases back with
  | nil => exact absurd rfl hne
  | cons b rest =>
    have hle := position_le codec front rest b
    omega

/-- The last position in the index of some blocks. -/
theorem indexFile_last (codec : Codec SignedBlock) (front : List SignedBlock) (b : SignedBlock) :
    indexFile codec (front ++ [b]) = indexFile codec front ++
      (word (blockFile codec front).length ++ []) := by
  rw [indexFile_append, List.append_nil]

end Positions

section Construction

/-- The log during the walk, with the position in the block file and the index so far. -/
def scanning (blockBytes : List UInt8) (pos : ℕ) (indexBytes : List UInt8) (log : BlockLog) :
    BlockLog where
  head := log.head
  headId := log.headId
  blockStream := ⟨some blockBytes, false, pos, false⟩
  indexStream := ⟨some indexBytes, true, indexBytes.length, false⟩

/-- One block further in the walk. -/
theorem scanning_step (log : BlockLog) (front back : List SignedBlock) {b : SignedBlock} (hcodec : codec.Inverts b)
    (hsize : (blockFile codec (front ++ b :: back)).length ≤ maxFileSize) {α : Type}
    (k : ℕ → LogM α) :
    (do
      let _ ← onBlocks (decode codec)
      let next ← onBlocks readWord
      onIndex (write (word next))
      k next : LogM α)
      (scanning (blockFile codec (front ++ b :: back)) (blockFile codec front).length
        (indexFile codec front) log) =
    k (blockFile codec front).length
      (scanning (blockFile codec (front ++ b :: back)) (blockFile codec (front ++ [b])).length
        (indexFile codec (front ++ [b])) log) := by
  obtain ⟨rest, hsplit⟩ := blockFile_split codec front back b
  have hle := position_le codec front back b
  have hentries := blockFile_length codec (front ++ b :: back)
  rw [List.length_append, List.length_cons] at hentries
  have hword : (blockFile codec front).length < 2 ^ 64 := by
    unfold maxFileSize at hsize
    omega
  have hdecode : onBlocks (decode codec) (scanning (blockFile codec (front ++ b :: back))
      (blockFile codec front).length (indexFile codec front) log) =
      (.ok b, scanning (blockFile codec (front ++ b :: back))
        ((blockFile codec front).length + (codec.pack b).length) (indexFile codec front) log) :=
    onBlocks_ok (decode_eq hcodec (congrArg some hsplit) rfl rfl)
  have hsplit' : blockFile codec (front ++ b :: back) = (blockFile codec front ++ codec.pack b) ++
      (word (blockFile codec front).length ++ rest) := by
    rw [hsplit, List.append_assoc]
  have hend : (blockFile codec front ++ codec.pack b).length + 8 =
      (blockFile codec (front ++ [b])).length := by
    rw [blockFile_append, List.length_append, List.length_append, word_length, List.length_append]
  have hread : onBlocks readWord (scanning (blockFile codec (front ++ b :: back))
      ((blockFile codec front).length + (codec.pack b).length) (indexFile codec front) log) =
      (.ok (blockFile codec front).length, scanning (blockFile codec (front ++ b :: back))
        (blockFile codec (front ++ [b])).length (indexFile codec front) log) := by
    rw [← hend]
    exact onBlocks_ok (readWord_eq hword (congrArg some hsplit') (List.length_append).symm rfl)
  have hroom : (indexFile codec front).length + (word (blockFile codec front).length).length ≤
      maxFileSize := by
    rw [indexFile_length, word_length]
    omega
  have hwrite : onIndex (write (word (blockFile codec front).length))
      (scanning (blockFile codec (front ++ b :: back)) (blockFile codec (front ++ [b])).length
        (indexFile codec front) log) =
      (.ok (), scanning (blockFile codec (front ++ b :: back))
        (blockFile codec (front ++ [b])).length (indexFile codec (front ++ [b])) log) := by
    rw [indexFile_append, onIndex_ok (write_eq _ rfl hroom rfl), ← List.length_append]
    rfl
  rw [bind_of_ok hdecode, bind_of_ok hread, bind_of_ok hwrite]

/-- The walk over the rest of the blocks, after at least one block. -/
theorem indexBlocks_rest (hcodec : ∀ b ∈ blocks, codec.Inverts b)
    (hsize : (blockFile codec blocks).length ≤ maxFileSize) (front back : List SignedBlock)
    (log : BlockLog) {c : SignedBlock} {rounds : ℕ} (hblocks : blocks = front ++ c :: back)
    (hrounds : back.length < rounds) :
    indexBlocks codec (blockFile codec blocks.dropLast).length rounds (blockFile codec front).length
      (scanning (blockFile codec blocks) (blockFile codec (front ++ [c])).length
        (indexFile codec (front ++ [c])) log) =
    (.ok (), scanning (blockFile codec blocks) (blockFile codec blocks).length
      (indexFile codec blocks) log) := by
  induction back generalizing front c rounds with
  | nil =>
    cases rounds with
    | zero => omega
    | succ rounds =>
      have hdrop : blocks.dropLast = front := by
        rw [hblocks, List.dropLast_concat]
      rw [indexBlocks, hdrop, if_neg (Nat.lt_irrefl _), ← hblocks]
      rfl
  | cons d rest ih =>
    cases rounds with
    | zero => omega
    | succ rounds =>
      have hlt : (blockFile codec front).length < (blockFile codec blocks.dropLast).length := by
        have hdrop : blocks.dropLast = front ++ (c :: d :: rest).dropLast := by
          rw [hblocks, List.dropLast_append_of_ne_nil (by simp)]
        rw [hdrop]
        exact blockFile_lt codec front (by simp)
      have hsplit : blocks = (front ++ [c]) ++ d :: rest := by
        rw [hblocks, List.append_assoc]
        rfl
      have hd : codec.Inverts d := hcodec d (by rw [hblocks]; simp)
      rw [indexBlocks, if_pos hlt]
      have hstep := scanning_step log (front ++ [c]) rest hd (hsplit ▸ hsize) fun next =>
        indexBlocks codec (blockFile codec blocks.dropLast).length rounds next
      rw [← hsplit] at hstep
      rw [hstep]
      exact ih (front ++ [c]) hsplit (by simpa using hrounds)

/-- `construct_index` up to its loop. -/
theorem constructIndex_scan (front : List SignedBlock) {last : SignedBlock}
    (hsize : (blockFile codec (front ++ [last])).length ≤ maxFileSize)
    (hread : Readable (blockFile codec (front ++ [last])) log.blockStream) :
    constructIndex codec log =
      indexBlocks codec (blockFile codec front).length
        ((blockFile codec (front ++ [last])).length + 1) 0
        (scanning (blockFile codec (front ++ [last])) 0 [] log) := by
  have hfits := position_le codec front [] last
  have happend := blockFile_append codec front last
  have hword : (blockFile codec front).length < 2 ^ 64 := by
    unfold maxFileSize at hsize
    omega
  have hlength : (blockFile codec (front ++ [last])).length =
      (blockFile codec front ++ codec.pack last).length + 8 := by
    rw [happend, List.length_append, word_length]
  have hcontents : blockFile codec (front ++ [last]) = blockFile codec front ++ codec.pack last ++
      (word (blockFile codec front).length ++ []) := by
    rw [happend, List.append_nil]
  have hstream := hread.eq
  have hremove : onIndex remove log =
      (.ok (), { log with indexStream := { log.indexStream with file := none } }) := rfl
  have hopen : onIndex openAppend { log with indexStream := { log.indexStream with file := none } } =
      (.ok (), scanning (blockFile codec (front ++ [last])) log.blockStream.pos [] log) := by
    unfold scanning
    rw [← hstream]
    rfl
  have hcheck : checkBlockRead
      (scanning (blockFile codec (front ++ [last])) log.blockStream.pos [] log) =
      (.ok (), scanning (blockFile codec (front ++ [last])) log.blockStream.pos [] log) := rfl
  have hback : onBlocks (seekBack 8)
      (scanning (blockFile codec (front ++ [last])) log.blockStream.pos [] log) =
      (.ok (), scanning (blockFile codec (front ++ [last]))
        (blockFile codec front ++ codec.pack last).length [] log) := by
    have hseek := seekBack_eq
      (f := (scanning (blockFile codec (front ++ [last])) log.blockStream.pos [] log).blockStream)
      8 rfl (by omega) rfl
    rw [hlength, Nat.add_sub_cancel] at hseek
    exact onBlocks_ok hseek
  have hendPos : onBlocks readWord (scanning (blockFile codec (front ++ [last]))
        (blockFile codec front ++ codec.pack last).length [] log) =
      (.ok (blockFile codec front).length, scanning (blockFile codec (front ++ [last]))
        ((blockFile codec front ++ codec.pack last).length + 8) [] log) :=
    onBlocks_ok (readWord_eq hword (congrArg some hcontents) rfl rfl)
  have hstart : onBlocks (seek 0) (scanning (blockFile codec (front ++ [last]))
        ((blockFile codec front ++ codec.pack last).length + 8) [] log) =
      (.ok (), scanning (blockFile codec (front ++ [last])) 0 [] log) :=
    onBlocks_ok (seek_eq 0 rfl (Nat.zero_le _))
  unfold constructIndex
  rw [bind_of_ok hremove, bind_of_ok hopen, bind_of_ok hcheck, bind_of_ok hback, bind_of_ok hendPos,
    bind_of_ok hstart, read_bind]
  rfl

/-- `construct_index` of a log of one block writes nothing. -/
theorem constructIndex_single {b : SignedBlock}
    (hsize : (blockFile codec [b]).length ≤ maxFileSize)
    (hread : Readable (blockFile codec [b]) log.blockStream) :
    constructIndex codec log = (.ok (), scanning (blockFile codec [b]) 0 [] log) := by
  have hscan := constructIndex_scan [] hsize hread
  rw [List.nil_append] at hscan
  rw [hscan, indexBlocks]
  rfl

/-- `construct_index` of a longer log writes the positions of all blocks. -/
theorem constructIndex_rebuilds (hcodec : ∀ b ∈ blocks, codec.Inverts b) (hlength : 2 ≤ blocks.length)
    (hsize : (blockFile codec blocks).length ≤ maxFileSize)
    (hread : Readable (blockFile codec blocks) log.blockStream) :
    constructIndex codec log =
      (.ok (), scanning (blockFile codec blocks) (blockFile codec blocks).length
        (indexFile codec blocks) log) := by
  cases blocks with
  | nil => simp at hlength
  | cons first rest =>
    have hlast : first :: rest = (first :: rest).dropLast ++ [(first :: rest).getLast (by simp)] :=
      (List.dropLast_append_getLast (by simp)).symm
    have hscan := constructIndex_scan (first :: rest).dropLast (hlast ▸ hsize) (hlast ▸ hread)
    rw [← hlast] at hscan
    have hlt : 0 < (blockFile codec (first :: rest).dropLast).length := by
      refine blockFile_lt codec [] fun hnil => ?_
      have hcount := congrArg List.length hnil
      rw [List.length_dropLast] at hcount
      simp only [List.length_cons, List.length_nil] at hcount hlength
      omega
    have hstep := scanning_step log [] rest (hcodec first (by simp)) hsize fun next =>
      indexBlocks codec (blockFile codec (first :: rest).dropLast).length
        (blockFile codec (first :: rest)).length next
    have hrounds : rest.length < (blockFile codec (first :: rest)).length := by
      have hentries := blockFile_length codec (first :: rest)
      rw [List.length_cons] at hentries
      omega
    have hrest := indexBlocks_rest hcodec hsize [] rest log rfl hrounds
    rw [hscan, indexBlocks, if_pos hlt]
    exact hstep.trans hrest

end Construction

section Opening

/-- The files before `open`. -/
def stored (blockBytes : List UInt8) (index : Option (List UInt8)) : BlockLog where
  blockStream := { file := some blockBytes }
  indexStream := { file := index }

/-- `open` of a log with blocks, after it has read the head: the index is compared or built. -/
theorem openLog_eq (env : Env) {front : List SignedBlock} {last : SignedBlock} (hcodec : codec.Inverts last)
    (hsize : (blockFile codec (front ++ [last])).length ≤ maxFileSize)
    (index : Option (List UInt8)) :
    ∃ log, Readable (blockFile codec (front ++ [last])) log.blockStream ∧
      log.indexStream = ⟨some (index.getD []), true, (index.getD []).length, false⟩ ∧
      log.head = some last ∧ log.headId = last.id env ∧
      openLog codec env (stored (blockFile codec (front ++ [last])) index) =
        (if index.getD [] ≠ [] then compareHeads codec else constructIndex codec) log := by
  have hopen : onBlocks openAppend (stored (blockFile codec (front ++ [last])) index) =
      (.ok (), { stored (blockFile codec (front ++ [last])) index with
        blockStream := ⟨some (blockFile codec (front ++ [last])), true,
          (blockFile codec (front ++ [last])).length, false⟩ }) := rfl
  have hindex : onIndex openAppend { stored (blockFile codec (front ++ [last])) index with
        blockStream := ⟨some (blockFile codec (front ++ [last])), true,
          (blockFile codec (front ++ [last])).length, false⟩ } =
      (.ok (), writingTo (blockFile codec (front ++ [last])) (index.getD []) {}) := rfl
  have hfile : (writingTo (blockFile codec (front ++ [last])) (index.getD []) {}).blockStream.file =
      some (blockFile codec (front ++ [last])) := rfl
  obtain ⟨g, hhead, hread⟩ := readHead_eq hcodec hsize hfile fun _ => rfl
  have hne : (writingTo (blockFile codec (front ++ [last])) (index.getD []) {}).blockStream.bytes ≠
      [] := by
    intro hnil
    have hfits := position_le codec front [] last
    have hzero : (blockFile codec (front ++ [last])).length = 0 := congrArg List.length hnil
    omega
  refine ⟨{ head := some last, headId := last.id env, blockStream := g, indexStream :=
    ⟨some (index.getD []), true, (index.getD []).length, false⟩ }, hread, rfl, rfl, rfl, ?_⟩
  unfold openLog
  rw [bind_of_ok hopen, bind_of_ok hindex, read_bind, if_pos hne, bind_of_ok hhead, change_bind]
  rfl

/-- The comparison keeps an index that ends in the last position of the block file, and
builds any other one. -/
theorem compareHeads_eq {front : List SignedBlock} {last : SignedBlock}
    (hsize : (blockFile codec (front ++ [last])).length ≤ maxFileSize)
    (hread : Readable (blockFile codec (front ++ [last])) log.blockStream)
    {indexBytes : List UInt8} {place : ℕ} (hplace : place < 2 ^ 64)
    (hindex : log.indexStream = ⟨some (indexBytes ++ (word place ++ [])), true,
      (indexBytes ++ (word place ++ [])).length, false⟩) :
    ∃ log', Readable (blockFile codec (front ++ [last])) log'.blockStream ∧
      Readable (indexBytes ++ (word place ++ [])) log'.indexStream ∧
      log'.head = log.head ∧ log'.headId = log.headId ∧
      compareHeads codec log =
        if place = (blockFile codec front).length then (.ok (), log')
        else constructIndex codec log' := by
  have hcontents := blockFile_last codec front last
  have hword := blockFile_word hsize
  rw [hcontents] at hread
  have hcheck : checkBlockRead log = (.ok (), log) := by
    have hsame : checkRead log.blockStream = (.ok (), log.blockStream) := by
      unfold checkRead
      rw [hread.reading]
      rfl
    exact onBlocks_ok hsame
  have hopen : checkIndexRead log = (.ok (), { log with indexStream :=
      ⟨some (indexBytes ++ (word place ++ [])), false, 0, false⟩ }) := by
    refine onIndex_ok ?_
    rw [hindex]
    rfl
  obtain ⟨f, hf, hblock⟩ := onBlocks_last { log with indexStream :=
    ⟨some (indexBytes ++ (word place ++ [])), false, 0, false⟩ } hword hread
  obtain ⟨g, hg, hlast⟩ := onIndex_last (n := place) { log with
    blockStream := f
    indexStream := ⟨some (indexBytes ++ (word place ++ [])), false, 0, false⟩ } hplace
    ⟨rfl, rfl, rfl⟩
  rw [← hcontents] at hf
  refine ⟨{ log with blockStream := f, indexStream := g }, hf, hg, rfl, rfl, ?_⟩
  unfold compareHeads
  rw [bind_of_ok hcheck, bind_of_ok hopen, hblock, hlast]
  by_cases heq : place = (blockFile codec front).length
  · rw [if_pos heq, if_neg (by omega), if_neg (by omega)]
    rfl
  · rw [if_neg heq]
    by_cases hlt : (blockFile codec front).length < place
    · rw [if_pos hlt]
    · rw [if_neg hlt, if_pos (by omega)]

/-- The index files that `open` may find beside the block file of some blocks. -/
inductive StoredIndex (codec : Codec SignedBlock) (blocks : List SignedBlock) :
    Option (List UInt8) → Prop
  | missing : StoredIndex codec blocks none
  /-- An empty index, or one of fewer blocks. -/
  | part (count : ℕ) (fewer : count < blocks.length) :
      StoredIndex codec blocks (some (indexFile codec (blocks.take count)))
  | right : StoredIndex codec blocks (some (indexFile codec blocks))
  | longer (more : List SignedBlock) (nonempty : more ≠ [])
      (size : (blockFile codec (blocks ++ more)).length ≤ maxFileSize) :
      StoredIndex codec blocks (some (indexFile codec (blocks ++ more)))

variable {front : List SignedBlock} {last : SignedBlock} {index : Option (List UInt8)}

/-- An index that ends in another position is built anew. -/
theorem open_constructs_of_ne (hcodec : codec.Inverts last)
    (hsize : (blockFile codec (front ++ [last])).length ≤ maxFileSize) (other : List SignedBlock)
    (c : SignedBlock) (hother : (blockFile codec (other ++ [c])).length ≤ maxFileSize)
    (hne : (blockFile codec other).length ≠ (blockFile codec front).length) :
    ∃ log, Readable (blockFile codec (front ++ [last])) log.blockStream ∧
      log.head = some last ∧ log.headId = last.id env ∧
      openLog codec env (stored (blockFile codec (front ++ [last]))
        (some (indexFile codec (other ++ [c])))) = constructIndex codec log := by
  obtain ⟨log₁, hread, hstream, hhead, hid, hopen⟩ := openLog_eq env hcodec hsize
    (some (indexFile codec (other ++ [c])))
  rw [Option.getD_some, indexFile_last] at hstream
  obtain ⟨log₂, hread', -, hhead', hid', hcompare⟩ := compareHeads_eq hsize hread
    (blockFile_word hother) hstream
  refine ⟨log₂, hread', hhead'.trans hhead, hid'.trans hid, ?_⟩
  have hnonempty : (some (indexFile codec (other ++ [c]))).getD [] ≠ [] := by
    intro hnil
    have hlength := congrArg List.length hnil
    rw [Option.getD_some, indexFile_length] at hlength
    simp at hlength
  rw [hopen, if_pos hnonempty, hcompare, if_neg hne]

/-- Every stored index but the right one is built anew. -/
theorem open_constructs (env : Env) (front : List SignedBlock) (hcodec : codec.Inverts last)
    (hsize : (blockFile codec (front ++ [last])).length ≤ maxFileSize)
    (hindex : StoredIndex codec (front ++ [last]) index)
    (hwrong : index ≠ some (indexFile codec (front ++ [last]))) :
    ∃ log, Readable (blockFile codec (front ++ [last])) log.blockStream ∧
      log.head = some last ∧ log.headId = last.id env ∧
      openLog codec env (stored (blockFile codec (front ++ [last])) index) =
        constructIndex codec log := by
  have hempty (bytes : Option (List UInt8)) (hbytes : bytes.getD [] = []) :
      ∃ log, Readable (blockFile codec (front ++ [last])) log.blockStream ∧
        log.head = some last ∧ log.headId = last.id env ∧
        openLog codec env (stored (blockFile codec (front ++ [last])) bytes) =
          constructIndex codec log := by
    obtain ⟨log, hread, -, hhead, hid, hopen⟩ := openLog_eq env hcodec hsize bytes
    rw [hbytes, if_neg (by simp)] at hopen
    exact ⟨log, hread, hhead, hid, hopen⟩
  cases hindex with
  | missing => exact hempty none rfl
  | part count fewer =>
    cases count with
    | zero => exact hempty _ rfl
    | succ k =>
      have hk : k < front.length := by simpa using fewer
      have htake : (front ++ [last]).take (k + 1) = front.take k ++ [front[k]] := by
        rw [List.take_append_of_le_length hk, List.take_succ_eq_append_getElem hk]
      have hfront : front = front.take k ++ front.drop k := (List.take_append_drop k front).symm
      have hlt : (blockFile codec (front.take k)).length < (blockFile codec front).length := by
        nth_rewrite 2 [hfront]
        refine blockFile_lt codec _ fun hnil => ?_
        have hzero := congrArg List.length hnil
        rw [List.length_drop, List.length_nil] at hzero
        omega
      have hfits : (blockFile codec (front.take k ++ [front[k]])).length ≤ maxFileSize := by
        have hsplit : front ++ [last] = (front.take k ++ [front[k]]) ++ (front ++ [last]).drop (k + 1) := by
          rw [← htake, List.take_append_drop]
        rw [hsplit] at hsize
        unfold blockFile at hsize ⊢
        rw [entries_append, List.length_append] at hsize
        omega
      rw [htake]
      exact open_constructs_of_ne hcodec hsize _ _ hfits (Nat.ne_of_lt hlt)
  | right => exact absurd rfl hwrong
  | longer more nonempty size =>
    have hmore : more = more.dropLast ++ [more.getLast nonempty] :=
      (List.dropLast_append_getLast nonempty).symm
    have hsplit : front ++ [last] ++ more =
        (front ++ last :: more.dropLast) ++ [more.getLast nonempty] := by
      nth_rewrite 1 [hmore]
      simp
    have hlt := blockFile_lt codec front (show last :: more.dropLast ≠ [] by simp)
    rw [hsplit] at size ⊢
    exact open_constructs_of_ne hcodec hsize _ _ size (Nat.ne_of_gt hlt)

/-- A log whose block stream is open for reading holds its blocks. -/
theorem holds_of_readable {log : BlockLog} (hnumbered : Numbered (front ++ [last]))
    (hsize : (blockFile codec (front ++ [last])).length ≤ maxFileSize)
    (hread : Readable (blockFile codec (front ++ [last])) log.blockStream)
    (hindex : log.indexStream.file = some (indexFile codec (front ++ [last])))
    (hok : log.indexStream.failed = false)
    (hend : log.indexStream.writing = true → log.indexStream.pos =
      (indexFile codec (front ++ [last])).length ∧ log.indexStream.failed = false)
    (hhead : log.head = some last) (hid : log.headId = last.id env) :
    Holds codec env (front ++ [last]) log where
  numbered := hnumbered
  file := hread.file
  index := hindex
  size := hsize
  head := by rw [hhead, List.getLast?_concat]
  headId b hb := by
    rw [List.getLast?_concat] at hb
    rw [hid, Option.some.inj hb]
  blockOk _ := hread.ok
  indexOk := hok
  blockEnd hwriting := by
    rw [hread.reading] at hwriting
    cases hwriting
  indexEnd := hend

/-- The right index is kept. -/
theorem open_keeps (hnumbered : Numbered (front ++ [last])) (hcodec : codec.Inverts last)
    (hsize : (blockFile codec (front ++ [last])).length ≤ maxFileSize) :
    ∃ log, openLog codec env (stored (blockFile codec (front ++ [last]))
        (some (indexFile codec (front ++ [last])))) = (.ok (), log) ∧
      Holds codec env (front ++ [last]) log := by
  obtain ⟨log₁, hread, hstream, hhead, hid, hopen⟩ := openLog_eq env hcodec hsize
    (some (indexFile codec (front ++ [last])))
  have hnonempty : (some (indexFile codec (front ++ [last]))).getD [] ≠ [] := by
    intro hnil
    have hlength := congrArg List.length hnil
    rw [Option.getD_some, indexFile_length] at hlength
    simp at hlength
  rw [Option.getD_some, indexFile_last] at hstream
  obtain ⟨log₂, hread', hindex, hhead', hid', hcompare⟩ := compareHeads_eq hsize hread
    (blockFile_word hsize) hstream
  rw [← indexFile_last] at hindex
  refine ⟨log₂, ?_, ?_⟩
  · rw [hopen, if_pos hnonempty, hcompare, if_pos rfl]
  · exact holds_of_readable hnumbered hsize hread' hindex.file hindex.ok
      (fun hwriting => by rw [hindex.reading] at hwriting; cases hwriting)
      (hhead'.trans hhead) (hid'.trans hid)

/-- For two blocks or more, the index is built completely. -/
theorem open_rebuilds (hnumbered : Numbered (front ++ [last]))
    (hcodec : ∀ b ∈ front ++ [last], codec.Inverts b)
    (hsize : (blockFile codec (front ++ [last])).length ≤ maxFileSize) (hfront : front ≠ [])
    (hindex : StoredIndex codec (front ++ [last]) index)
    (hwrong : index ≠ some (indexFile codec (front ++ [last]))) :
    ∃ log, openLog codec env (stored (blockFile codec (front ++ [last])) index) = (.ok (), log) ∧
      Holds codec env (front ++ [last]) log := by
  obtain ⟨log₁, hread, hhead, hid, hopen⟩ := open_constructs env front (hcodec last (by simp))
    hsize hindex hwrong
  have hlength : 2 ≤ (front ++ [last]).length := by
    have hpos := List.length_pos_of_ne_nil hfront
    rw [List.length_append, List.length_singleton]
    omega
  refine ⟨_, hopen.trans (constructIndex_rebuilds hcodec hlength hsize hread), ?_⟩
  exact holds_of_readable hnumbered hsize ⟨rfl, rfl, rfl⟩ rfl rfl (fun _ => ⟨rfl, rfl⟩) hhead hid

/-- After `open`, the index holds the position of every block, every block can be read by its
number, and a block of the next number can be appended as long as the file has room for it. -/
def Recovers (codec : Codec SignedBlock) (env : Env) (blocks : List SignedBlock)
    (index : Option (List UInt8)) : Prop :=
  ∃ log, openLog codec env (stored (blockFile codec blocks) index) = (.ok (), log) ∧
    (∀ i, i < blocks.length →
      (log.indexStream.bytes.drop (8 * i)).take 8 = word (blockFile codec (blocks.take i)).length) ∧
    (∀ num, 1 ≤ num → num ≤ blocks.length →
      ∃ log', readBlockByNum codec num log = (.ok blocks[num - 1]?, log')) ∧
    ∀ b, b.blockNum = blocks.length + 1 →
      (blockFile codec (blocks ++ [b])).length ≤ maxFileSize →
      ∃ pos log', append codec env b log = (.ok pos, log')

/-- A log that opens with its blocks recovers. -/
theorem recovers_of_holds (hcodec : ∀ b ∈ blocks, codec.Inverts b)
    (h : ∃ log, openLog codec env (stored (blockFile codec blocks) index) = (.ok (), log) ∧
      Holds codec env blocks log) : Recovers codec env blocks index := by
  obtain ⟨log, hopen, hholds⟩ := h
  refine ⟨log, hopen, fun i hi => ?_, fun num hlow hhigh => ?_, fun b hnum hroom => ?_⟩
  · have hsplit : blocks = blocks.take i ++ blocks[i] :: blocks.drop (i + 1) := by
      rw [← List.drop_eq_getElem_cons hi, List.take_append_drop]
    obtain ⟨rest, hindex⟩ := indexFile_split codec (blocks.take i) (blocks.drop (i + 1)) blocks[i]
    rw [← hsplit] at hindex
    have hlength : (indexFile codec (blocks.take i)).length = 8 * i := by
      rw [indexFile_length, List.length_take, Nat.min_eq_left (Nat.le_of_lt hi)]
    rw [FileStream.bytes, hholds.index, Option.getD_some, hindex, List.drop_left' hlength,
      List.take_left' (word_length _)]
  · obtain ⟨log', hread, -⟩ := hholds.readBlockByNum_any hcodec num
    rw [if_neg (by omega)] at hread
    exact ⟨log', hread⟩
  · exact ⟨_, _, hholds.append_room hnum hroom⟩

/-- The index of a single block is lost unless it was right. -/
theorem not_recovers_single {b : SignedBlock} (hcodec : codec.Inverts b)
    (hsize : (blockFile codec [b]).length ≤ maxFileSize) (hindex : StoredIndex codec [b] index)
    (hwrong : index ≠ some (indexFile codec [b])) : ¬ Recovers codec env [b] index := by
  rintro ⟨log, hopen, hentries, -⟩
  obtain ⟨log₁, hread, -, -, hconstruct⟩ := open_constructs env [] hcodec hsize hindex hwrong
  have hlog := (constructIndex_single hsize hread).symm.trans (hconstruct.symm.trans hopen)
  have hsame : scanning (blockFile codec [b]) 0 [] log₁ = log := congrArg Prod.snd hlog
  have hentry := hentries 0 (by simp)
  rw [← hsame] at hentry
  have hlength := congrArg List.length hentry
  rw [word_length] at hlength
  cases hlength

/-- Whatever index file is found beside the block file of the blocks one to n, `open` recovers
the log exactly if there are two blocks or more or the index was the right one. -/
theorem open_recovers_iff (hcodec : ∀ b ∈ blocks, codec.Inverts b) (hne : blocks ≠ [])
    (hnumbered : Numbered blocks) (hsize : (blockFile codec blocks).length ≤ maxFileSize)
    (hindex : StoredIndex codec blocks index) :
    Recovers codec env blocks index ↔
      2 ≤ blocks.length ∨ index = some (indexFile codec blocks) := by
  have hlast : blocks = blocks.dropLast ++ [blocks.getLast hne] :=
    (List.dropLast_append_getLast hne).symm
  have hinverts : codec.Inverts (blocks.getLast hne) := hcodec _ (List.getLast_mem hne)
  by_cases hright : index = some (indexFile codec blocks)
  · refine iff_of_true (recovers_of_holds hcodec ?_) (.inr hright)
    rw [hright, hlast]
    exact open_keeps (hlast ▸ hnumbered) hinverts (hlast ▸ hsize)
  · by_cases hlength : 2 ≤ blocks.length
    · refine iff_of_true (recovers_of_holds hcodec ?_) (.inl hlength)
      have hfront : blocks.dropLast ≠ [] := by
        intro hnil
        have hzero := congrArg List.length hnil
        rw [List.length_dropLast, List.length_nil] at hzero
        omega
      rw [hlast] at hcodec hnumbered hsize hindex hright ⊢
      exact open_rebuilds hnumbered hcodec hsize hfront hindex hright
    · refine iff_of_false ?_ (by simp [hlength, hright])
      have hpos := List.length_pos_of_ne_nil hne
      obtain ⟨b, hb⟩ := List.length_eq_one_iff.mp (show blocks.length = 1 by omega)
      subst hb
      exact not_recovers_single (hcodec b (by simp)) hsize hindex hright

/-- With a missing index, a log of two blocks is recovered. -/
theorem open_recovers_iff_twoBlocks :
    Recovers plainCodec sampleEnv [firstBlock, secondBlock] none := by
  exact (open_recovers_iff twoBlocks_inverts (by simp) numbered_twoBlocks (by decide +kernel)
    .missing).mpr (.inl (by simp))

/-- With a missing index, a log of one block is not recovered. -/
theorem not_recovers_firstBlock :
    plainCodec.Inverts firstBlock ∧ Numbered [firstBlock] ∧
      (blockFile plainCodec [firstBlock]).length ≤ maxFileSize ∧
      StoredIndex plainCodec [firstBlock] none ∧
      ¬ Recovers plainCodec sampleEnv [firstBlock] none := by
  have hinverts := plainCodec_inverts firstBlock_plain
  have hsize : (blockFile plainCodec [firstBlock]).length ≤ maxFileSize := by decide +kernel
  refine ⟨hinverts, numbered_append numbered_nil rfl, hsize, .missing, ?_⟩
  exact not_recovers_single hinverts hsize .missing (by simp)

end Opening

end Whaleshares.BlockLog
