import Mathlib
import Whaleshares.Process

/-!
# Files and the streams over them

A file is a list of bytes, and a stream over it is open either for reading or for appending.
A stream whose reads or writes fail throws and stays failed: every later operation throws as
well, until the stream is opened again. A stream opened for appending is positioned at the
end of the file, and a file does not grow beyond what a position can name.

Numbers are stored in eight bytes, the lowest first.
-/

namespace Whaleshares.FileStream

section Words

/-- The lowest bytes of a number, the lowest first. -/
def toBytes : ℕ → ℕ → List UInt8
  | 0, _ => []
  | width + 1, n => UInt8.ofNat n :: toBytes width (n / 256)

/-- The number of some bytes. -/
def ofBytes : List UInt8 → ℕ
  | [] => 0
  | b :: rest => b.toNat + 256 * ofBytes rest

/-- A number has as many bytes as asked for. -/
@[simp] theorem toBytes_length (width n : ℕ) : (toBytes width n).length = width := by
  induction width generalizing n with
  | zero => rfl
  | succ width ih => rw [toBytes, List.length_cons, ih]

/-- The bytes of a number give it back within their width. -/
theorem ofBytes_toBytes (width n : ℕ) : ofBytes (toBytes width n) = n % 256 ^ width := by
  induction width generalizing n with
  | zero => rw [toBytes, ofBytes, Nat.pow_zero, Nat.mod_one]
  | succ width ih =>
    have hbyte : (UInt8.ofNat n).toNat = n % 256 := UInt8.toNat_ofNat'
    rw [toBytes, ofBytes, ih, hbyte, Nat.pow_succ, Nat.mul_comm (256 ^ width) 256, Nat.mod_mul]

/-- A number of 64 bits as bytes. -/
def word (n : ℕ) : List UInt8 := toBytes 8 n

/-- A word has eight bytes. -/
@[simp] theorem word_length (n : ℕ) : (word n).length = 8 := toBytes_length 8 n

/-- A 64-bit number is read back from its word. -/
theorem ofBytes_word {n : ℕ} (h : n < 2 ^ 64) : ofBytes (word n) = n := by
  rw [word, ofBytes_toBytes]
  exact Nat.mod_eq_of_lt h

end Words

/-- The largest size of a file. -/
def maxFileSize : ℕ := 2 ^ 63 - 1

/-- What a stream throws. -/
inductive StreamError where
  /-- `std::ios_base::failure` -/
  | failure
  /-- Bytes that do not decode. -/
  | malformed
  deriving DecidableEq

end FileStream

/-- A file and the stream over it. -/
structure FileStream where
  /-- The bytes of the file, if there is one. -/
  file : Option (List UInt8) := none
  /-- Whether the stream is open for appending, and not for reading. -/
  writing : Bool := false
  /-- The position of the next byte. -/
  pos : ℕ := 0
  /-- `fail()` -/
  failed : Bool := false
  deriving DecidableEq

namespace FileStream

/-- A routine on a stream. -/
abbrev StreamM := Process FileStream StreamError

/-- The bytes of the file. -/
def bytes (f : FileStream) : List UInt8 := f.file.getD []

section Operations

/-- The stream fails and throws. -/
def fail {α : Type} : StreamM α := fun f => (.error .failure, { f with failed := true })

/-- `close` and `open` for reading. -/
def openRead : StreamM Unit := fun f =>
  match f.file with
  | some _ => (.ok (), { f with writing := false, pos := 0, failed := false })
  | none => (.error .failure, { f with failed := true })

/-- `close` and `open` for appending, which creates a missing file. -/
def openAppend : StreamM Unit := .change fun f =>
  ⟨some f.bytes, true, f.bytes.length, false⟩

/-- `close`, and the removal of the file. -/
def remove : StreamM Unit := .change fun f => { f with file := none }

/-- `seekg( pos )` -/
def seek (pos : ℕ) : StreamM Unit := fun f =>
  if f.failed = true ∨ maxFileSize < pos then fail f else (.ok (), { f with pos := pos })

/-- `seekg( -back, end )` -/
def seekBack (back : ℕ) : StreamM Unit := fun f =>
  if f.failed = true ∨ f.bytes.length < back then fail f
  else (.ok (), { f with pos := f.bytes.length - back })

/-- `read` of a number of bytes. -/
def readBytes (count : ℕ) : StreamM (List UInt8) := fun f =>
  if f.failed = true ∨ f.bytes.length < f.pos + count then fail f
  else (.ok ((f.bytes.drop f.pos).take count), { f with pos := f.pos + count })

/-- `read` of a number of 64 bits. -/
def readWord : StreamM ℕ := do
  let data ← readBytes 8
  pure (ofBytes data)

/-- `write` at the end of the file. -/
def write (data : List UInt8) : StreamM Unit := fun f =>
  if f.failed = true ∨ maxFileSize < f.bytes.length + data.length then fail f
  else (.ok (), { f with file := some (f.bytes ++ data), pos := f.bytes.length + data.length })

/-- `tellg` and `tellp` as a number of 64 bits; a failed stream has no position. -/
def tell : StreamM ℕ := .read fun f => if f.failed then 2 ^ 64 - 1 else f.pos

end Operations

section Decoding

variable {α : Type}

/-- Why bytes do not decode. -/
inductive DecodeError where
  /-- There are too few of them. -/
  | endOfFile
  | malformed
  deriving DecidableEq

/-- The encoding of values as bytes, and its inverse on what follows a position: the value and
the number of bytes that it took. -/
structure Codec (α : Type) where
  pack : α → List UInt8
  unpack : List UInt8 → Except DecodeError (α × ℕ)

/-- Decoding inverts the encoding of a value and takes exactly the encoded bytes. -/
def Codec.Inverts (codec : Codec α) (a : α) : Prop :=
  ∀ rest, codec.unpack (codec.pack a ++ rest) = .ok (a, (codec.pack a).length)

/-- The decoding of a value at the position of a stream. -/
def decode (codec : Codec α) : StreamM α := fun f =>
  if f.failed then fail f
  else
    match codec.unpack (f.bytes.drop f.pos) with
    | .ok (a, count) => (.ok a, { f with pos := f.pos + count })
    | .error .endOfFile => fail f
    | .error .malformed => (.error .malformed, f)

/-- An object that the codec inverts is decoded at its position. -/
theorem decode_eq {codec : Codec α} {a : α} (hcodec : codec.Inverts a) {f : FileStream}
    {before rest : List UInt8} (hfile : f.file = some (before ++ (codec.pack a ++ rest)))
    (hpos : f.pos = before.length) (hok : f.failed = false) :
    decode codec f = (.ok a, { f with pos := before.length + (codec.pack a).length }) := by
  have hbytes : f.bytes.drop f.pos = codec.pack a ++ rest := by
    rw [bytes, hfile, hpos, Option.getD_some, List.drop_left]
  unfold decode
  rw [hok, hbytes, hcodec rest, hpos]
  rfl

/-- What decoding can come to on a stream that has not failed. -/
theorem decode_cases (codec : Codec α) {f : FileStream} (hok : f.failed = false) :
    (∃ a count, decode codec f = (.ok a, { f with pos := f.pos + count })) ∨
    (codec.unpack (f.bytes.drop f.pos) = .error .endOfFile ∧
      decode codec f = (.error .failure, { f with failed := true })) ∨
    decode codec f = (.error .malformed, f) := by
  unfold decode
  rw [if_neg (by simp [hok])]
  cases hunpack : codec.unpack (f.bytes.drop f.pos) with
  | ok value => exact .inl ⟨value.1, value.2, rfl⟩
  | error e =>
    cases e with
    | endOfFile => exact .inr (.inl ⟨rfl, rfl⟩)
    | malformed => exact .inr (.inr rfl)

end Decoding

section Rules

variable {f : FileStream} {before rest : List UInt8}

/-- A stream that is opened for reading stands at the beginning. -/
theorem openRead_eq {contents : List UInt8} (hfile : f.file = some contents) :
    openRead f = (.ok (), ⟨some contents, false, 0, false⟩) := by
  unfold openRead
  rw [hfile]

/-- A stream that is opened for appending stands at the end. -/
theorem openAppend_eq {contents : List UInt8} (hfile : f.file = some contents) :
    openAppend f = (.ok (), ⟨some contents, true, contents.length, false⟩) := by
  have hbytes : f.bytes = contents := by rw [bytes, hfile, Option.getD_some]
  change (Except.ok (), (⟨some f.bytes, true, f.bytes.length, false⟩ : FileStream)) = _
  rw [hbytes]

/-- A seek of a sound stream moves it to the position. -/
theorem seek_eq (pos : ℕ) (hok : f.failed = false) (hpos : pos ≤ maxFileSize) :
    seek pos f = (.ok (), { f with pos := pos }) := by
  unfold seek
  rw [hok, if_neg]
  simp only [Bool.false_eq_true, false_or]
  omega

/-- What seeking a position can come to. -/
theorem seek_cases (pos : ℕ) (f : FileStream) :
    (f.failed = false ∧ pos ≤ maxFileSize ∧ seek pos f = (.ok (), { f with pos := pos })) ∨
    ((f.failed = true ∨ maxFileSize < pos) ∧
      seek pos f = (.error .failure, { f with failed := true })) := by
  unfold seek
  by_cases h : f.failed = true ∨ maxFileSize < pos
  · rw [if_pos h]
    exact .inr ⟨h, rfl⟩
  · rw [if_neg h]
    rw [not_or, Bool.not_eq_true, Nat.not_lt] at h
    exact .inl ⟨h.1, h.2, rfl⟩

/-- Bytes are read where they stand, and the stream moves behind them. -/
theorem readBytes_eq {data : List UInt8} (hfile : f.file = some (before ++ (data ++ rest)))
    (hpos : f.pos = before.length) (hok : f.failed = false) :
    readBytes data.length f = (.ok data, { f with pos := before.length + data.length }) := by
  have hbytes : f.bytes = before ++ (data ++ rest) := by
    rw [bytes, hfile, Option.getD_some]
  unfold readBytes
  rw [hok, hbytes, hpos, if_neg (by simp), List.drop_left, List.take_left]

/-- A word is read where it stands, and the stream moves behind it. -/
theorem readWord_eq {n : ℕ} (hn : n < 2 ^ 64) (hfile : f.file = some (before ++ (word n ++ rest)))
    (hpos : f.pos = before.length) (hok : f.failed = false) :
    readWord f = (.ok n, { f with pos := before.length + 8 }) := by
  have hread := readBytes_eq hfile hpos hok
  rw [word_length] at hread
  unfold readWord
  rw [Process.bind_of_ok hread, ofBytes_word hn]
  rfl

/-- A seek from the end of a sound stream moves it there. -/
theorem seekBack_eq {contents : List UInt8} (back : ℕ) (hfile : f.file = some contents)
    (hback : back ≤ contents.length) (hok : f.failed = false) :
    seekBack back f = (.ok (), { f with pos := contents.length - back }) := by
  have hbytes : f.bytes = contents := by rw [bytes, hfile, Option.getD_some]
  unfold seekBack
  rw [hok, hbytes, if_neg]
  simp only [Bool.false_eq_true, false_or]
  omega

/-- A write with enough room appends the bytes. -/
theorem write_eq {contents : List UInt8} (data : List UInt8) (hfile : f.file = some contents)
    (hroom : contents.length + data.length ≤ maxFileSize) (hok : f.failed = false) :
    write data f =
      (.ok (), { f with file := some (contents ++ data), pos := contents.length + data.length }) := by
  have hbytes : f.bytes = contents := by rw [bytes, hfile, Option.getD_some]
  unfold write
  rw [hok, hbytes, if_neg]
  simp only [Bool.false_eq_true, false_or]
  omega

/-- A write that succeeds had the room and appended the bytes. -/
theorem write_ok {data : List UInt8} {g : FileStream} {u : Unit} (h : write data f = (.ok u, g)) :
    f.bytes.length + data.length ≤ maxFileSize ∧ g.file = some (f.bytes ++ data) := by
  unfold write at h
  split at h
  · cases h
  · next hroom =>
    have hg : { f with file := some (f.bytes ++ data), pos := f.bytes.length + data.length } = g :=
      congrArg Prod.snd h
    rw [← hg]
    exact ⟨by omega, rfl⟩

/-- A sound stream tells its position. -/
theorem tell_eq (hok : f.failed = false) : tell f = (.ok f.pos, f) := by
  change (Except.ok (if f.failed then 2 ^ 64 - 1 else f.pos), f) = _
  rw [hok]
  rfl

end Rules

end FileStream

end Whaleshares
