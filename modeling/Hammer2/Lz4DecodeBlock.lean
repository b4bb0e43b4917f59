import Hammer2.Lz4Safe

namespace Hammer2

open ByteImage ByteBuffer Lz4 Lz77

section

variable {src dst : ByteBuffer} {margin iend oend ip op length fuel n start size : Nat}
  {s : Sequence Byte} {out last : List Byte} {seqs : List (Sequence Byte)}

theorem extBytes_of_ge (h : 255 ≤ n) : extBytes n = 255 :: extBytes (n - 255) := by
  have hdiv : n / 255 = (n - 255) / 255 + 1 := by omega
  have hmod : n % 255 = (n - 255) % 255 := by omega
  rw [extBytes, extBytes, hdiv, hmod, List.replicate_succ, List.cons_append]

theorem extBytes_of_lt (h : n < 255) : extBytes n = [BitVec.ofNat 8 n] := by
  rw [extBytes, Nat.div_eq_of_lt h, Nat.mod_eq_of_lt h]
  rfl

theorem readLength_extBytes (hold : HoldsAt src.bytes ip (extBytes n))
    (hfit : ip + (extBytes n).length + margin ≤ iend) (hsize : iend ≤ src.size)
    (hfuel : (extBytes n).length ≤ fuel) :
    readLength src margin iend fuel ip length =
      some (ip + (extBytes n).length, length + n) := by
  induction fuel generalizing ip length n with
  | zero => exact absurd hfuel (by simp)
  | succ fuel ih =>
    have hlen : 1 ≤ (extBytes n).length := by simp
    rw [readLength, if_pos (by omega), load_eq (by omega), Option.bind_some]
    by_cases hge : 255 ≤ n
    · rw [extBytes_of_ge hge] at hold hfit hfuel ⊢
      obtain ⟨hbyte, hrest⟩ := holdsAt_cons.mp hold
      have hcons : (255 :: extBytes (n - 255)).length = (extBytes (n - 255)).length + 1 := rfl
      have h255 : (src.bytes ip).toNat = 255 := (congrArg BitVec.toNat hbyte).trans (by decide)
      rw [hcons] at hfit hfuel
      rw [if_pos h255, h255, ih hrest (by omega) (by omega), hcons,
        show ip + 1 + (extBytes (n - 255)).length = ip + ((extBytes (n - 255)).length + 1) by omega,
        show length + 255 + (n - 255) = length + n by omega]
    · rw [extBytes_of_lt (by omega)] at hold ⊢
      have hbyte : (src.bytes ip).toNat = n := by
        rw [(holdsAt_cons.mp hold).1, BitVec.toNat_ofNat, Nat.mod_eq_of_lt (by omega)]
      rw [if_neg (by omega), hbyte, List.length_singleton]

theorem nibbleLength_lengthTail (margin iend : Nat) (hold : HoldsAt src.bytes ip (lengthTail n))
    (hfit : ip + (lengthTail n).length + margin ≤ iend) (hsize : iend ≤ src.size) :
    nibbleLength src margin iend ip (min n 15) = some (ip + (lengthTail n).length, n) := by
  unfold nibbleLength
  unfold lengthTail at hold hfit ⊢
  by_cases hge : 15 ≤ n
  · rw [if_pos hge] at hold hfit ⊢
    rw [if_pos (by omega), readLength_extBytes hold hfit hsize (by omega)]
    congr 2
    omega
  · rw [if_neg hge, if_neg (by omega)]
    congr 2
    omega

/-- The literals of a run stand behind the output so far. -/
theorem holdsAt_splice {img lits : Image} {n : Nat} (hout : HoldsAt img 0 out)
    (hlits : HoldsAt lits ip last) (hn : last.length ≤ n) :
    HoldsAt (splice img lits ip out.length n) 0 (out ++ last) := by
  refine holdsAt_append.mpr ⟨hout.congr fun i _ hi => splice_outside (Or.inl (by omega)),
    fun i hi => ?_⟩
  rw [splice_inside (by omega) (by omega), ← hlits i hi]
  congr 1
  omega

/-- A copy of a match behind the output so far. -/
theorem Repeats.holdsAt {dst dst' : ByteBuffer} {d n : Nat} (hd : 1 ≤ d) (hdo : d ≤ out.length)
    (h : Repeats dst dst' d out.length (out.length + n)) (hout : HoldsAt dst.bytes 0 out) :
    HoldsAt dst'.bytes 0 (copyBack d n out) := by
  have hfront : HoldsAt dst'.bytes 0 out := hout.congr fun i _ hi => h.before i (by omega)
  have hcopy := copyBack_slice dst'.bytes hd hdo h.back
  rw [hfront.slice_eq] at hcopy
  rw [hcopy]
  exact holdsAt_slice _ _ _

theorem getLE_offsetBytes {img : Image} {offset : Nat} (h : HoldsAt img ip (offsetBytes offset))
    (hlt : offset < 2 ^ 16) : getLE img ip 2 = offset := by
  obtain ⟨hlow, hrest⟩ := holdsAt_cons.mp h
  have hhigh := (holdsAt_cons.mp hrest).1
  simp only [getLE, hlow, hhigh, BitVec.toNat_ofNat]
  omega

theorem decodeMatch_copy (dst : ByteBuffer) (oend : Nat) {front : List Byte} {token : BitVec 8}
    {offset : Nat}
    (hoffset : HoldsAt src.bytes ip (offsetBytes offset)) (hlt : offset < 2 ^ 16)
    (hpos : 1 ≤ offset) (hle : offset ≤ front.length)
    (hextra : HoldsAt src.bytes (ip + 2) (lengthTail length))
    (htoken : token.toNat % 2 ^ 4 = min length 15)
    (hend : ip + 2 + (lengthTail length).length + 6 ≤ iend) (hsize : iend ≤ src.size)
    (hbegin : front.length + 12 ≤ oend) (hstop : front.length + length + 9 ≤ oend)
    (hd : oend ≤ dst.size) (hfront : HoldsAt dst.bytes 0 front) :
    ∃ dst', decodeMatch src iend oend token ip front.length dst =
        some (.next (ip + 2 + (lengthTail length).length) (front.length + length + 4) dst') ∧
      dst'.size = dst.size ∧ HoldsAt dst'.bytes 0 (copyBack offset (length + 4) front) := by
  have hlength := nibbleLength_lengthTail (5 + 1) iend hextra (by omega) hsize
  obtain ⟨dst', hcopy, hsame, hback⟩ := copyMatch_spec dst length
    (Nat.sub_le front.length offset) hbegin hd
  have hrep := hback hstop
  rw [Nat.sub_sub_self hle, Nat.add_assoc] at hrep
  rw [if_neg (by omega)] at hcopy
  unfold decodeMatch lastLiterals mlBits
  rw [loadWord_eq (by omega), getLE_offsetBytes hoffset hlt, Option.bind_eq_bind, Option.bind_some]
  dsimp only
  rw [if_neg (by omega), htoken, hlength, Option.bind_eq_bind, Option.bind_some]
  dsimp only
  rw [hcopy]
  exact ⟨dst', rfl, hsame, hrep.holdsAt hpos hle hfront⟩

theorem decodeTurn_sequence (oend : Nat) (hold : HoldsAt src.bytes ip (sequenceBytes s))
    (hsize : iend ≤ src.size) (hend : ip + (sequenceBytes s).length + 6 ≤ iend)
    (hs : LegalAt size out.length s) (hroom : size ≤ oend) (hd : oend ≤ dst.size)
    (hout : HoldsAt dst.bytes 0 out) :
    ∃ dst', decodeTurn src iend oend ip out.length dst =
        some (.next (ip + (sequenceBytes s).length) (out.length + s.size) dst') ∧
      dst'.size = dst.size ∧ HoldsAt dst'.bytes 0 (s.expand out) := by
  have hlen := sequenceBytes_length s
  obtain ⟨hrun, hmatch⟩ := holdsAt_append.mp hold
  obtain ⟨htoken, hrun⟩ := holdsAt_cons.mp hrun
  obtain ⟨htail, hlits⟩ := holdsAt_append.mp hrun
  rw [runBytes_length, ← Nat.add_assoc, ← Nat.add_assoc] at hmatch
  obtain ⟨hoffset, hextra⟩ := holdsAt_append.mp hmatch
  have hbegins := hs.begins
  have hends := hs.ends
  have hfour := hs.length
  have hsz : s.size = s.literals.length + s.length := rfl
  have hfront : (out ++ s.literals).length = out.length + s.literals.length := List.length_append
  have hwild := wildBytes_le out.length (out.length + s.literals.length)
  have hge := wildBytes_ge out.length (out.length + s.literals.length)
  have hrunLen := nibbleLength_lengthTail 0 iend htail (by omega) hsize
  obtain ⟨dst', hcopy, hsame, hexpand⟩ := decodeMatch_copy
    ⟨dst.size, splice dst.bytes src.bytes (ip + 1 + (lengthTail s.literals.length).length)
      out.length (wildBytes out.length (out.length + s.literals.length))⟩ oend
    hoffset hs.offset_lt hs.offset_pos (hfront ▸ hs.offset_le) hextra
    (tokenByte_match s.literals.length (s.length - 4)) (by omega) hsize (by omega) (by omega) hd
    (holdsAt_splice hout hlits (by omega))
  unfold decodeTurn mfLimit copyLength minMatch lastLiterals mlBits
  rw [load_eq (by omega), Option.bind_eq_bind, Option.bind_some, htoken, tokenByte_run, hrunLen,
    Option.bind_eq_bind, Option.bind_some]
  dsimp only
  rw [if_neg (by omega), wildCopy_from (Nat.lt_succ_self _) (by omega) (by omega),
    Option.bind_eq_bind, Option.bind_some]
  dsimp only
  rw [hfront] at hcopy
  rw [show ip + 1 + (lengthTail s.literals.length).length +
        wildBytes out.length (out.length + s.literals.length) -
        (out.length + wildBytes out.length (out.length + s.literals.length) -
          (out.length + s.literals.length)) =
      ip + 1 + (lengthTail s.literals.length).length + s.literals.length by omega, hcopy]
  refine ⟨dst', ?_, hsame, ?_⟩
  · congr 2 <;> omega
  · rw [Nat.sub_add_cancel hfour] at hexpand
    exact hexpand

theorem decodeTurn_last (hold : HoldsAt src.bytes ip (runBytes 0 last)) (hsize : iend ≤ src.size)
    (hend : ip + (runBytes 0 last).length = iend) (hroom : out.length + last.length ≤ oend)
    (hd : oend ≤ dst.size) (hout : HoldsAt dst.bytes 0 out) :
    ∃ dst', decodeTurn src iend oend ip out.length dst =
        some (.done (out.length + last.length) dst') ∧
      dst'.size = dst.size ∧ HoldsAt dst'.bytes 0 (out ++ last) := by
  rw [runBytes_length] at hend
  obtain ⟨htoken, hrun⟩ := holdsAt_cons.mp hold
  obtain ⟨htail, hlits⟩ := holdsAt_append.mp hrun
  have hrunLen := nibbleLength_lengthTail 0 iend htail (by omega) hsize
  unfold decodeTurn mfLimit copyLength minMatch lastLiterals mlBits
  rw [load_eq (by omega), Option.bind_eq_bind, Option.bind_some, htoken, tokenByte_run, hrunLen,
    Option.bind_eq_bind, Option.bind_some]
  dsimp only
  rw [if_pos (by omega), if_neg (by omega), copyFrom_eq (by omega) (by omega)]
  exact ⟨_, rfl, rfl, holdsAt_splice hout hlits le_rfl⟩

/-- A block that has a sequence ends in five literals. -/
theorem last_length_ge (h : LegalFrom size start seqs) (hne : seqs ≠ [])
    (hsum : start + sizeAll seqs + last.length = size) : 5 ≤ last.length := by
  induction seqs generalizing start with
  | nil => exact absurd rfl hne
  | cons s rest ih =>
    rw [sizeAll_cons] at hsum
    rcases eq_or_ne rest [] with rfl | hrest
    · have hends := h.1.ends
      have hnil : sizeAll ([] : List (Sequence Byte)) = 0 := rfl
      omega
    · exact ih h.2 hrest (by omega)

theorem encode_length_pos (seqs : List (Sequence Byte)) (last : List Byte) :
    last.length + 1 ≤ (seqs.flatMap sequenceBytes ++ runBytes 0 last).length := by
  rw [List.length_append, runBytes_length]
  omega

theorem decodeLoop_encode (out : List Byte) (fuel : Nat)
    (hold : HoldsAt src.bytes ip (seqs.flatMap sequenceBytes ++ runBytes 0 last))
    (hsize : iend ≤ src.size)
    (hend : ip + (seqs.flatMap sequenceBytes ++ runBytes 0 last).length = iend)
    (hs : LegalFrom size out.length seqs) (hsum : out.length + sizeAll seqs + last.length = size)
    (hroom : size ≤ oend) (hd : oend ≤ dst.size) (hout : HoldsAt dst.bytes 0 out)
    (hfuel : seqs.length < fuel) :
    ∃ dst', decodeLoop src iend oend fuel ip out.length dst = some ((size : Int), dst') ∧
      dst'.size = dst.size ∧ HoldsAt dst'.bytes 0 (expandAll out seqs ++ last) := by
  induction seqs generalizing ip out dst fuel with
  | nil =>
    obtain ⟨fuel, rfl⟩ := Nat.exists_eq_succ_of_ne_zero (Nat.ne_of_gt hfuel)
    have hnil : sizeAll ([] : List (Sequence Byte)) = 0 := rfl
    obtain ⟨dst', hturn, hsame, hlast⟩ := decodeTurn_last hold hsize hend
      (show out.length + last.length ≤ oend by omega) hd hout
    rw [decodeLoop, hturn]
    refine ⟨dst', ?_, hsame, hlast⟩
    rw [show out.length + last.length = size by omega]
    rfl
  | cons s rest ih =>
    obtain ⟨fuel, rfl⟩ := Nat.exists_eq_succ_of_ne_zero (Nat.ne_of_gt (Nat.zero_lt_of_lt hfuel))
    have hfive := last_length_ge hs (List.cons_ne_nil s rest) hsum
    have hpos := encode_length_pos rest last
    rw [List.flatMap_cons, List.append_assoc] at hold hend
    rw [List.length_append] at hend
    rw [sizeAll_cons] at hsum
    obtain ⟨hseq, hrest⟩ := holdsAt_append.mp hold
    obtain ⟨dst1, hturn, hsame1, hout1⟩ := decodeTurn_sequence oend hseq hsize (by omega)
      hs.1 hroom hd hout
    have hlen := Sequence.expand_length hs.1.legal
    have hnext : LegalFrom size (s.expand out).length rest := hlen ▸ hs.2
    obtain ⟨dst', hrun, hsame, hall⟩ := ih (s.expand out) fuel hrest (by omega) hnext (by omega)
      (hsame1 ▸ hd) hout1 (by rw [List.length_cons] at hfuel; omega)
    rw [hlen] at hrun
    rw [decodeLoop, hturn]
    exact ⟨dst', hrun, hsame.trans hsame1, hall⟩

end

theorem sequences_length_le (seqs : List (Sequence Byte)) (last : List Byte) :
    seqs.length < (seqs.flatMap sequenceBytes ++ runBytes 0 last).length := by
  induction seqs with
  | nil => exact Nat.zero_lt_of_lt (encode_length_pos [] last)
  | cons s rest ih =>
    have hlen := sequenceBytes_length s
    rw [List.flatMap_cons, List.append_assoc, List.length_append, List.length_cons]
    omega

theorem lz4DecompressSafe_holds {b : Block} {size : Nat} (hb : b.Legal size)
    (source dest : ByteBuffer) {maxOutputSize : Nat}
    (hold : HoldsAt source.bytes 0 b.encode) (hsource : b.encode.length ≤ source.size)
    (hroom : size ≤ maxOutputSize) (hpos : 0 < maxOutputSize) (hdest : maxOutputSize ≤ dest.size) :
    ∃ dest', lz4DecompressSafe source dest b.encode.length maxOutputSize =
        some ((size : Int), dest') ∧
      dest'.size = dest.size ∧ HoldsAt dest'.bytes 0 b.expand := by
  have hfuel := sequences_length_le b.sequences b.last
  obtain ⟨dest', hrun, hsame, hall⟩ := decodeLoop_encode [] (b.encode.length + 1)
    hold hsource (Nat.zero_add _) hb.sequences
    ((congrArg (· + b.last.length) (Nat.zero_add _)).trans hb.size) hroom hdest holdsAt_nil
    (Nat.lt_succ_of_lt hfuel)
  refine ⟨dest', ?_, hsame, hall⟩
  unfold lz4DecompressSafe
  rw [if_neg (by omega)]
  exact hrun

/-- The decoder expands every block that follows the rules of the format, into any room that holds
the text and whatever stands behind the block. -/
theorem lz4DecompressSafe_encode (b : Block) (size : Nat) (hb : b.Legal size)
    (source dest : ByteBuffer) (maxOutputSize : Nat)
    (hold : slice source.bytes 0 b.encode.length = b.encode)
    (hsource : b.encode.length ≤ source.size) (hroom : size ≤ maxOutputSize)
    (hpos : 0 < maxOutputSize) (hdest : maxOutputSize ≤ dest.size) :
    ∃ dest', lz4DecompressSafe source dest b.encode.length maxOutputSize =
        some ((size : Int), dest') ∧
      dest'.size = dest.size ∧ slice dest'.bytes 0 size = b.expand := by
  have hin : HoldsAt source.bytes 0 b.encode := by
    rw [← hold]
    exact holdsAt_slice _ _ _
  obtain ⟨dest', hrun, hsame, hall⟩ :=
    lz4DecompressSafe_holds hb source dest hin hsource hroom hpos hdest
  have hslice := hall.slice_eq
  rw [hb.expand_length] at hslice
  exact ⟨dest', hrun, hsame, hslice⟩

/-- Two literals, a match that overlaps itself, and the last five literals. -/
def overlapBlock : Block := ⟨[⟨[1, 2], 2, 9⟩], [3, 4, 5, 6, 7]⟩

theorem lz4DecompressSafe_encode_overlap :
    ∃ dest', lz4DecompressSafe ⟨11, fun i => overlapBlock.encode.getD i 0⟩ ⟨16, fun _ => 0⟩ 11 16 =
        some (16, dest') ∧
      slice dest'.bytes 0 16 = [1, 2, 1, 2, 1, 2, 1, 2, 1, 2, 1, 3, 4, 5, 6, 7] := by
  have hlegal : overlapBlock.Legal 16 :=
    ⟨⟨⟨by decide, by decide, by decide, by decide, by decide, by decide⟩, trivial⟩, rfl⟩
  obtain ⟨dest', hrun, _, hslice⟩ := lz4DecompressSafe_encode overlapBlock 16 hlegal
    ⟨11, fun i => overlapBlock.encode.getD i 0⟩ ⟨16, fun _ => 0⟩ 16 (by decide) (by decide)
    (by decide) (by decide) (by decide)
  exact ⟨dest', hrun, hslice⟩

end Hammer2
