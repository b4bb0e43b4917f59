import Hammer2.WindowsRead

/-! `hammer2_strategy.c`: what the completion of a read stores into the logical buffer. -/

namespace Hammer2

open ByteImage

/-- A store of `bytes` at `b_data + off`. -/
structure DestWrite where
  off : Int
  bytes : List (BitVec 8)

def DestWrite.Within (w : DestWrite) (size : Nat) : Prop :=
  0 ≤ w.off ∧ w.off + w.bytes.length ≤ size

instance (w : DestWrite) (size : Nat) : Decidable (w.Within size) :=
  inferInstanceAs (Decidable (_ ∧ _))

/-- The sizes of the logical buffer. -/
structure LogicalBuf where
  bufsize : Nat
  bcount : Nat

/-- How `inflate` ends: with `Z_STREAM_END` or not, the room it left, and the output buffer. -/
structure Inflated where
  streamEnd : Bool
  availOut : Nat
  out : Image

/-- `LZ4_decompress_safe` of a source, its size and the room for the output, with its result and
the output buffer, and `inflate` of the block, its size and the room. -/
structure Decoders where
  lz4 : Image → Int → Nat → Int × Image
  inflate : Image → Nat → Nat → Inflated

/-- The decoders stay within the room they are given. -/
structure Decoders.Honest (dec : Decoders) : Prop where
  lz4 : ∀ source size room, (dec.lz4 source size room).1 ≤ room
  inflate : ∀ data bytes room, (dec.inflate data bytes room).availOut ≤ room

/-- `*(const int *)data` -/
def lz4Prefix (data : Image) : Nat := getLE data 0 4

/-- `bytes - sizeof(int)`, which is a `size_t`. -/
def lz4Room (bytes : Nat) : Nat := (bytes + 2 ^ 64 - 4) % 2 ^ 64

def lz4Result (dec : Decoders) (data : Image) (bp : LogicalBuf) : Int × Image :=
  dec.lz4 (fun i => data (i + 4)) (BitVec.ofNat 32 (lz4Prefix data)).toInt bp.bufsize

/-- `hammer2_decompress_LZ4_callback`; a failed assertion is `none`. -/
def decompressLZ4Callback (dec : Decoders) (data : Image) (bytes : Nat) (bp : LogicalBuf) :
    Option (List DestWrite) :=
  if ¬ bp.bufsize ≤ pbufSize then none
  else if ¬ lz4Prefix data ≤ lz4Room bytes then none
  else
    let result := (lz4Result dec data bp).1
    let compressedBuffer : Image := if result < 0 then fun _ => 0 else (lz4Result dec data bp).2
    if ¬ result ≤ bp.bufsize then none
    else some <| ⟨0, slice compressedBuffer 0 bp.bufsize⟩ ::
      if result < bp.bufsize then [⟨result, List.replicate (bp.bufsize - result).toNat 0⟩] else []

/-- `hammer2_decompress_ZLIB_callback` -/
def decompressZLIBCallback (dec : Decoders) (data : Image) (bytes : Nat) (bp : LogicalBuf) :
    Option (List DestWrite) :=
  if ¬ bp.bufsize ≤ pbufSize then none
  else
    let strm := dec.inflate data bytes bp.bufsize
    let compressedBuffer : Image := if strm.streamEnd then strm.out else fun _ => 0
    let result : Int := bp.bufsize - strm.availOut
    some <| ⟨0, slice compressedBuffer 0 bp.bufsize⟩ ::
      if result < bp.bufsize then [⟨result, List.replicate strm.availOut 0⟩] else []

/-- The stores of `hammer2_strategy_read_completion`. -/
def readCompletionWrites (dec : Decoders) (focus : FileChain) (data : Image) (bp : LogicalBuf) :
    Option (List DestWrite) :=
  match focus.type with
  | .inode => some [⟨0, slice data 0 embeddedBytes⟩,
      ⟨embeddedBytes, List.replicate ((bp.bcount + 2 ^ 64 - embeddedBytes) % 2 ^ 64) 0⟩]
  | .data =>
    if focus.comp = compLZ4 then decompressLZ4Callback dec data focus.bytes bp
    else if focus.comp = compZLIB then decompressZLIBCallback dec data focus.bytes bp
    else if focus.comp = compNone then
      if ¬ focus.bytes ≤ bp.bcount then none
      else some <| ⟨0, slice data 0 focus.bytes⟩ ::
        if focus.bytes < bp.bcount then
          [⟨focus.bytes, List.replicate (bp.bcount - focus.bytes) 0⟩]
        else []
    else none
  | _ => none

/-- The callback passes its assertions on the sizes, and the decoder rejects the stream. -/
def Lz4Rejected (dec : Decoders) (data : Image) (bytes : Nat) (bp : LogicalBuf) : Prop :=
  bp.bufsize ≤ pbufSize ∧ lz4Prefix data ≤ lz4Room bytes ∧ (lz4Result dec data bp).1 < 0

/-- The copy of the whole buffer and the zeros behind the decoded part of it. -/
theorem copy_and_tail_within {img : Image} {size n : Nat} {result : Int} (h0 : 0 ≤ result)
    (hn : result + n ≤ size) {w : DestWrite}
    (hw : w ∈ (⟨0, slice img 0 size⟩ : DestWrite) ::
      if result < size then [⟨result, List.replicate n 0⟩] else []) : w.Within size := by
  rcases List.mem_cons.mp hw with rfl | hw
  · unfold DestWrite.Within slice
    simp
  · split at hw
    next =>
      rw [List.mem_singleton] at hw
      subst w
      refine ⟨h0, ?_⟩
      rw [List.length_replicate]
      exact hn
    next => cases hw

/-- After an error the zeros of the tail start at the error code. -/
theorem decompressLZ4Callback_rejected {dec : Decoders} {data : Image} {bytes : Nat}
    {bp : LogicalBuf} (h : Lz4Rejected dec data bytes bp) :
    decompressLZ4Callback dec data bytes bp =
      some [⟨0, slice (fun _ => 0) 0 bp.bufsize⟩, ⟨(lz4Result dec data bp).1,
        List.replicate (bp.bufsize - (lz4Result dec data bp).1).toNat 0⟩] := by
  obtain ⟨hbuf, hsize, hneg⟩ := h
  have hlt : (lz4Result dec data bp).1 < bp.bufsize := by omega
  unfold decompressLZ4Callback
  rw [if_neg (not_not_intro hbuf), if_neg (not_not_intro hsize)]
  dsimp only
  rw [if_neg (not_not_intro hlt.le), if_pos hlt, if_pos hneg]

theorem decompressLZ4Callback_within_iff (dec : Decoders) (data : Image) (bytes : Nat)
    (bp : LogicalBuf) :
    (∀ ws, decompressLZ4Callback dec data bytes bp = some ws → ∀ w ∈ ws, w.Within bp.bufsize) ↔
      ¬ Lz4Rejected dec data bytes bp := by
  constructor
  · intro h hrej
    have htail := h _ (decompressLZ4Callback_rejected hrej) _
      (List.mem_cons_of_mem _ List.mem_cons_self)
    exact absurd htail.1 (not_le.mpr hrej.2.2)
  · intro h ws hws w hw
    obtain ⟨hbuf, hws⟩ := Option.ite_none_left_eq_some.mp hws
    obtain ⟨hsize, hws⟩ := Option.ite_none_left_eq_some.mp hws
    dsimp only at hws
    obtain ⟨hle, hws⟩ := Option.ite_none_left_eq_some.mp hws
    cases Option.some.inj hws
    have h0 : 0 ≤ (lz4Result dec data bp).1 := by
      by_contra hneg
      exact h ⟨not_not.mp hbuf, not_not.mp hsize, not_le.mp hneg⟩
    apply copy_and_tail_within h0 _ hw
    omega

theorem decompressZLIBCallback_within {dec : Decoders} (hdec : dec.Honest) {data : Image}
    {bytes : Nat} {bp : LogicalBuf} {ws : List DestWrite}
    (h : decompressZLIBCallback dec data bytes bp = some ws) {w : DestWrite} (hw : w ∈ ws) :
    w.Within bp.bufsize := by
  have hroom := hdec.inflate data bytes bp.bufsize
  obtain ⟨-, h⟩ := Option.ite_none_left_eq_some.mp h
  cases Option.some.inj h
  apply copy_and_tail_within _ _ hw
  · omega
  · omega

/-- The completion of a read of a compressed block stays inside the logical buffer unless the
block is an `LZ4` block that the decoder rejects. -/
theorem readCompletionWrites_within_iff {dec : Decoders} (hdec : dec.Honest) {focus : FileChain}
    (htype : focus.type = .data) (hcomp : focus.comp = compLZ4 ∨ focus.comp = compZLIB)
    (data : Image) (bp : LogicalBuf) :
    (∀ ws, readCompletionWrites dec focus data bp = some ws → ∀ w ∈ ws, w.Within bp.bufsize) ↔
      ¬ (focus.comp = compLZ4 ∧ Lz4Rejected dec data focus.bytes bp) := by
  unfold readCompletionWrites
  rw [htype]
  dsimp only
  rcases hcomp with hlz4 | hzlib
  · rw [if_pos hlz4, decompressLZ4Callback_within_iff]
    exact not_congr (and_iff_right hlz4).symm
  · have hne : ¬ focus.comp = compLZ4 := by
      rw [hzlib]
      decide
    rw [if_neg hne, if_pos hzlib]
    apply iff_of_true
    · intro ws hws w hw
      exact decompressZLIBCallback_within hdec hws hw
    · exact fun h => hne h.1

/-- Decoders on streams that neither of them knows. -/
def rejectingDecoders : Decoders where
  lz4 := fun _ _ _ => (-2, fun _ => 0)
  inflate := fun _ _ room => ⟨false, room, fun _ => 0⟩

theorem rejectingDecoders_honest : rejectingDecoders.Honest where
  lz4 := by
    intro _ _ room
    show (-2 : Int) ≤ room
    omega
  inflate := fun _ _ _ => le_rfl

theorem readCompletionWrites_within_zlib :
    ∃ ws, readCompletionWrites rejectingDecoders ⟨.data, compZLIB, 1024, some fun _ => 0, 0⟩
      (fun _ => 0) ⟨65536, 65536⟩ = some ws ∧ ∀ w ∈ ws, w.Within 65536 := by
  let focus : FileChain := ⟨.data, compZLIB, 1024, some fun _ => 0, 0⟩
  have hzlib : ¬ (focus.comp = compLZ4 ∧ Lz4Rejected rejectingDecoders (fun _ => 0) focus.bytes
      ⟨65536, 65536⟩) := fun h => absurd h.1 (by decide)
  have hrun : ∃ ws, readCompletionWrites rejectingDecoders focus (fun _ => 0)
      ⟨65536, 65536⟩ = some ws := ⟨_, rfl⟩
  obtain ⟨ws, hws⟩ := hrun
  have hwithin := (readCompletionWrites_within_iff rejectingDecoders_honest rfl
    (Or.inr rfl) (fun _ => 0) ⟨65536, 65536⟩).mpr hzlib
  exact ⟨ws, hws, hwithin ws hws⟩

/-- A stream of one byte, the token of fifteen literals or more, none of which follows. -/
def truncatedLz4 : Image := fun i => if i = 0 then 1 else if i = 4 then 0xf0 else 0

/-- The two bytes before the logical buffer are zeroed. -/
theorem readCompletionWrites_before_buffer : rejectingDecoders.Honest ∧
    ∃ ws, readCompletionWrites rejectingDecoders ⟨.data, compLZ4, 1024, some truncatedLz4, 0⟩
      truncatedLz4 ⟨65536, 65536⟩ = some ws ∧ ∃ w ∈ ws, ¬ w.Within 65536 := by
  have hsize : lz4Prefix truncatedLz4 ≤ lz4Room 1024 := by decide
  have hrej : Lz4Rejected rejectingDecoders truncatedLz4 1024 ⟨65536, 65536⟩ :=
    ⟨le_rfl, hsize, (by decide : (-2 : Int) < 0)⟩
  refine ⟨rejectingDecoders_honest, _, decompressLZ4Callback_rejected hrej, _,
    List.mem_cons_of_mem _ List.mem_cons_self, ?_⟩
  rintro ⟨h0, -⟩
  exact absurd h0 (by decide : ¬ (0 : Int) ≤ -2)

end Hammer2
