import Hammer2.Lz4EncodeRun

namespace Hammer2

open ByteImage ByteBuffer Lz4 Lz77

/-- A buffer that is larger than `maxOutputSize` by the slack is enough for the compressor: it reads
only the source and stores only into the buffer, and what it leaves fits `maxOutputSize`. -/
theorem lz4CompressLimitedOutput_within (ctx : Bool) (source dest : ByteBuffer)
    (inputSize maxOutputSize : Nat) (hsource : inputSize ≤ source.size)
    (hdest : maxOutputSize + lz4Slack inputSize ≤ dest.size) :
    ∃ result dest', lz4CompressLimitedOutput ctx source dest inputSize maxOutputSize =
        some (result, dest') ∧
      dest'.size = dest.size ∧ result ≤ maxOutputSize := by
  obtain ⟨result, dest', hrun, hsize, hresult⟩ :=
    lz4CompressLimitedOutput_block ctx source dest inputSize maxOutputSize hsource hdest
  refine ⟨result, dest', hrun, hsize, ?_⟩
  rcases hresult with rfl | ⟨hle, _⟩
  · exact Nat.zero_le _
  · exact hle

theorem lz4CompressLimitedOutput_within_block :
    ∃ result dest', lz4CompressLimitedOutput true ⟨65536, fun _ => 1⟩ ⟨32764, fun _ => 0⟩ 65536
        32760 = some (result, dest') ∧
      dest'.size = 32764 ∧ result ≤ 32760 :=
  lz4CompressLimitedOutput_within true ⟨65536, fun _ => 1⟩ ⟨32764, fun _ => 0⟩ 65536 32760 le_rfl
    (by decide)

/-- What the compressor leaves, the decoder turns back into the source. -/
theorem lz4Compress_decompress (ctx : Bool) (source dest : ByteBuffer)
    (inputSize maxOutputSize : Nat) {result : Nat} {dest' : ByteBuffer}
    (hsource : inputSize ≤ source.size)
    (hdest : maxOutputSize + lz4Slack inputSize ≤ dest.size)
    (hrun : lz4CompressLimitedOutput ctx source dest inputSize maxOutputSize =
      some (result, dest')) (hresult : result ≠ 0)
    (packed out : ByteBuffer) (room : Nat) (hpacked : result ≤ packed.size)
    (hsame : ∀ i < result, packed.bytes i = dest'.bytes i)
    (hroom : inputSize ≤ room) (hpos : 0 < room) (hout : room ≤ out.size) :
    ∃ out', lz4DecompressSafe packed out result room = some ((inputSize : Int), out') ∧
      out'.size = out.size ∧ slice out'.bytes 0 inputSize = slice source.bytes 0 inputSize := by
  obtain ⟨result', dest'', hrun', _, hblock⟩ :=
    lz4CompressLimitedOutput_block ctx source dest inputSize maxOutputSize hsource hdest
  cases Option.some.inj (hrun.symm.trans hrun')
  obtain ⟨_, b, hlegal, hlen, hholds, hexpand⟩ := hblock.resolve_left hresult
  subst hlen
  have hin : HoldsAt packed.bytes 0 b.encode :=
    hholds.congr fun i _ hi => hsame i (by omega)
  obtain ⟨out', hdec, hsize, hall⟩ :=
    lz4DecompressSafe_holds hlegal packed out hin hpacked hroom hpos hout
  have hslice := hall.slice_eq
  rw [hlegal.expand_length] at hslice
  exact ⟨out', hdec, hsize, hslice.trans hexpand⟩

set_option maxRecDepth 20000 in
theorem lz4Compress_decompress_sevens :
    ∃ dest' out', lz4CompressLimitedOutput true ⟨20, fun _ => 7⟩ ⟨30, fun _ => 0⟩ 20 29 =
        some (10, dest') ∧
      lz4DecompressSafe dest' ⟨20, fun _ => 0⟩ 10 20 = some (20, out') ∧
      slice out'.bytes 0 20 = slice (fun _ => 7) 0 20 := by
  have hten : (lz4CompressLimitedOutput true ⟨20, fun _ => 7⟩ ⟨30, fun _ => 0⟩ 20 29).map
      Prod.fst = some 10 := by decide
  obtain ⟨r, hrun, hr⟩ := Option.map_eq_some_iff.mp hten
  have hrun' : lz4CompressLimitedOutput true ⟨20, fun _ => 7⟩ ⟨30, fun _ => 0⟩ 20 29 =
      some (10, r.2) := hr ▸ hrun
  obtain ⟨result, dest', hany, hsize, _⟩ := lz4CompressLimitedOutput_block true
    ⟨20, fun _ => 7⟩ ⟨30, fun _ => 0⟩ 20 29 le_rfl (by decide)
  have heq : r.2 = dest' := congrArg Prod.snd (Option.some.inj (hrun'.symm.trans hany))
  obtain ⟨out', hdec, _, hslice⟩ := lz4Compress_decompress true ⟨20, fun _ => 7⟩
    ⟨30, fun _ => 0⟩ 20 29 le_rfl (by decide) hrun' (by decide) r.2 ⟨20, fun _ => 0⟩ 20
    (by rw [heq, hsize]; decide) (fun _ _ => rfl) (by decide) (by decide) (by decide)
  exact ⟨r.2, out', hrun', hdec, hslice⟩

end Hammer2
