import Hammer2.Lz77
import Hammer2.ByteImage

/-! The block format of `LZ4`: how sequences of literals and copies stand in bytes. -/

namespace Lz4

open ByteImage Lz77

abbrev Byte := BitVec 8

/-- What is left of a length behind its nibble: bytes of 255, and the rest below 255. -/
def extBytes (n : Nat) : List Byte :=
  List.replicate (n / 255) 255 ++ [BitVec.ofNat 8 (n % 255)]

def lengthTail (n : Nat) : List Byte := if 15 ≤ n then extBytes (n - 15) else []

def tokenByte (run match_ : Nat) : Byte := BitVec.ofNat 8 (min run 15 * 16 + min match_ 15)

def offsetBytes (offset : Nat) : List Byte :=
  [BitVec.ofNat 8 offset, BitVec.ofNat 8 (offset / 256)]

/-- The literals of a sequence behind the token and the rest of their number. -/
def runBytes (match_ : Nat) (literals : List Byte) : List Byte :=
  tokenByte literals.length match_ :: (lengthTail literals.length ++ literals)

/-- A copy of less than four bytes has no encoding. -/
def sequenceBytes (s : Sequence Byte) : List Byte :=
  runBytes (s.length - 4) s.literals ++ (offsetBytes s.offset ++ lengthTail (s.length - 4))

/-- Sequences, and the literals behind the last of them. -/
structure Block where
  sequences : List (Sequence Byte)
  last : List Byte

def Block.encode (b : Block) : List Byte :=
  b.sequences.flatMap sequenceBytes ++ runBytes 0 b.last

def Block.expand (b : Block) : List Byte := expandAll [] b.sequences ++ b.last

/-- The rules of the format for a sequence that starts at `start` in a text of `size` bytes: the
copy starts twelve bytes before the end of the text and stops five bytes before it. -/
structure LegalAt (size start : Nat) (s : Sequence Byte) : Prop where
  offset_pos : 1 ≤ s.offset
  offset_le : s.offset ≤ start + s.literals.length
  offset_lt : s.offset < 2 ^ 16
  length : 4 ≤ s.length
  begins : start + s.literals.length + 12 ≤ size
  ends : start + s.size + 5 ≤ size

def LegalFrom (size : Nat) : Nat → List (Sequence Byte) → Prop
  | _, [] => True
  | start, s :: rest => LegalAt size start s ∧ LegalFrom size (start + s.size) rest

/-- A block by the rules of the format, whose expansion has `size` bytes. -/
structure Block.Legal (size : Nat) (b : Block) : Prop where
  sequences : LegalFrom size 0 b.sequences
  size : sizeAll b.sequences + b.last.length = size

variable {size start : Nat} {s : Sequence Byte} {seqs rest : List (Sequence Byte)} {out : List Byte}

theorem LegalAt.legal (h : LegalAt size out.length s) : s.Legal out.length :=
  ⟨h.offset_pos, h.offset_le⟩

theorem sizeAll_cons : sizeAll (s :: rest) = s.size + sizeAll rest := by
  simp [sizeAll]

theorem sizeAll_append : sizeAll (seqs ++ rest) = sizeAll seqs + sizeAll rest := by
  simp [sizeAll]

theorem expandAll_length (out : List Byte) (size : Nat) (h : LegalFrom size out.length seqs) :
    (expandAll out seqs).length = out.length + sizeAll seqs := by
  induction seqs generalizing out with
  | nil => rfl
  | cons s rest ih =>
    have hlen := Sequence.expand_length h.1.legal
    have htail : LegalFrom size (s.expand out).length rest := hlen ▸ h.2
    have hrest := ih (s.expand out) htail
    rw [sizeAll_cons, ← Nat.add_assoc, ← hlen]
    exact hrest

theorem LegalFrom.append (h : LegalFrom size start seqs)
    (h' : LegalFrom size (start + sizeAll seqs) rest) : LegalFrom size start (seqs ++ rest) := by
  induction seqs generalizing start with
  | nil => simpa [sizeAll] using h'
  | cons s seqs ih =>
    rw [sizeAll_cons, ← Nat.add_assoc] at h'
    exact ⟨h.1, ih h.2 h'⟩

theorem Block.Legal.expand_length {b : Block} (h : b.Legal size) : b.expand.length = size := by
  have hlen : (expandAll [] b.sequences).length = 0 + sizeAll b.sequences :=
    expandAll_length [] size h.sequences
  rw [Block.expand, List.length_append, hlen, Nat.zero_add]
  exact h.size

@[simp] theorem extBytes_length (n : Nat) : (extBytes n).length = n / 255 + 1 := by
  simp [extBytes]

theorem lengthTail_length (n : Nat) :
    (lengthTail n).length = if 15 ≤ n then (n - 15) / 255 + 1 else 0 := by
  unfold lengthTail
  split <;> simp

theorem runBytes_length (match_ : Nat) (literals : List Byte) :
    (runBytes match_ literals).length =
      1 + (lengthTail literals.length).length + literals.length := by
  rw [runBytes, List.length_cons, List.length_append]
  omega

theorem sequenceBytes_length (s : Sequence Byte) :
    (sequenceBytes s).length = 1 + (lengthTail s.literals.length).length + s.literals.length + 2 +
      (lengthTail (s.length - 4)).length := by
  rw [sequenceBytes, List.length_append, runBytes_length, List.length_append]
  simp [offsetBytes]
  omega

theorem sequenceBytes_eq (s : Sequence Byte) :
    sequenceBytes s = tokenByte s.literals.length (s.length - 4) ::
      (lengthTail s.literals.length ++ s.literals ++ offsetBytes s.offset ++
        lengthTail (s.length - 4)) := by
  simp [sequenceBytes, runBytes]

theorem tokenByte_toNat (run match_ : Nat) :
    (tokenByte run match_).toNat = min run 15 * 16 + min match_ 15 := by
  unfold tokenByte
  rw [BitVec.toNat_ofNat, Nat.mod_eq_of_lt (by omega)]

theorem tokenByte_run (run match_ : Nat) :
    (tokenByte run match_).toNat / 2 ^ 4 = min run 15 := by
  rw [tokenByte_toNat]
  omega

theorem tokenByte_match (run match_ : Nat) :
    (tokenByte run match_).toNat % 2 ^ 4 = min match_ 15 := by
  rw [tokenByte_toNat]
  omega

/-- The bytes `l` stand in the image from `off` on. -/
def HoldsAt (img : Image) (off : Nat) (l : List Byte) : Prop :=
  ∀ i (h : i < l.length), img (off + i) = l[i]

variable {img img' : Image} {off : Nat} {l l' : List Byte} {b : Byte}

theorem holdsAt_nil : HoldsAt img off [] := fun _ h => absurd h (Nat.not_lt_zero _)

theorem holdsAt_append :
    HoldsAt img off (l ++ l') ↔ HoldsAt img off l ∧ HoldsAt img (off + l.length) l' := by
  refine ⟨fun h => ⟨fun i hi => ?_, fun i hi => ?_⟩, fun h i hi => ?_⟩
  · rw [h i (by rw [List.length_append]; omega), List.getElem_append_left hi]
  · have hget := h (l.length + i) (by rw [List.length_append]; omega)
    rw [Nat.add_assoc, hget, List.getElem_append_right (by omega)]
    simp
  · rw [List.length_append] at hi
    rcases Nat.lt_or_ge i l.length with hlt | hge
    · rw [List.getElem_append_left hlt]
      exact h.1 i hlt
    · rw [List.getElem_append_right hge, ← h.2 (i - l.length) (by omega)]
      congr 1
      omega

theorem holdsAt_cons : HoldsAt img off (b :: l) ↔ img off = b ∧ HoldsAt img (off + 1) l := by
  have happend : HoldsAt img off ([b] ++ l) ↔ HoldsAt img off [b] ∧ HoldsAt img (off + 1) l :=
    holdsAt_append
  have hone : HoldsAt img off [b] ↔ img off = b := by
    refine ⟨fun h => h 0 Nat.one_pos, fun h i hi => ?_⟩
    have hi0 : i = 0 := by
      rw [List.length_singleton] at hi
      omega
    subst i
    exact h
  rw [hone] at happend
  exact happend

theorem HoldsAt.congr (h : HoldsAt img off l)
    (he : ∀ i, off ≤ i → i < off + l.length → img' i = img i) : HoldsAt img' off l :=
  fun i hi => (he (off + i) (by omega) (by omega)).trans (h i hi)

theorem holdsAt_slice (img : Image) (off n : Nat) : HoldsAt img off (slice img off n) := by
  intro i hi
  simp [slice]

theorem slice_length (img : Image) (off n : Nat) : (slice img off n).length = n := by
  simp [slice]

theorem HoldsAt.slice_eq (h : HoldsAt img off l) : slice img off l.length = l := by
  refine List.ext_getElem (slice_length img off l.length) fun i h1 h2 => ?_
  rw [← h i h2]
  simp [slice]

theorem slice_add (img : Image) (off m n : Nat) :
    slice img off (m + n) = slice img off m ++ slice img (off + m) n := by
  simp [slice, List.range_add, Nat.add_assoc]

theorem slice_take (img : Image) {m n : Nat} (h : m ≤ n) :
    (slice img off n).take m = slice img off m := by
  obtain ⟨k, rfl⟩ := Nat.exists_eq_add_of_le h
  rw [slice_add, List.take_left' (slice_length img off m)]

theorem slice_get? (img : Image) {off i n : Nat} (h : i < n) :
    (slice img off n)[i]? = some (img (off + i)) := by
  simp [slice, h]

/-- A text in memory that repeats itself at the distance of a copy. -/
theorem copyBack_slice (img : Image) {d pos n : Nat} (hd : 1 ≤ d) (hdp : d ≤ pos)
    (hback : ∀ k, pos ≤ k → k < pos + n → img k = img (k - d)) :
    copyBack d n (slice img 0 pos) = slice img 0 (pos + n) := by
  rw [← slice_take img (Nat.le_add_right pos n)]
  refine copyBack_eq hd hdp (slice_length _ _ _) fun k h1 h2 => ?_
  rw [slice_get? img h2, slice_get? img (by omega), Nat.zero_add, Nat.zero_add, hback k h1 h2]

end Lz4
