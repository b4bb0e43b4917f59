import Hammer2.BlockSizing
import Hammer2.StrategyContent
import Hammer2.Lz4RoundTrip

/-! The compression in `hammer2_compress_and_write`, and what the read path makes of its blocks. -/

namespace Hammer2

open ByteImage ByteBuffer Lz4

/-- The size of the buffers of `hammer2_zone_wbuf`. -/
def wbufSize : Nat := pbufSize / 2

/-- What the compression of a block runs with: the algorithm of `comp_algo`, `comp_heuristic` of the
inode, `hammer2_always_compress`, whether `LZ4_create` finds memory, and the bytes of the buffer as
it is allocated. -/
structure CompressEnv where
  algo : Nat
  heuristic : Nat
  always : Bool
  ctx : Bool
  wbuf : Image

/-- `comp_size` (0 for a block that is stored as it is), `comp_block_size`, `comp_buffer` and the
new `comp_heuristic`. -/
structure CompressedBlock where
  compSize : Nat
  compBlockSize : Nat
  buffer : Image
  heuristic : Nat

/-- The case of `HAMMER2_COMP_LZ4`: the size of the stream as an `int`, and the stream. -/
def lz4CompBuffer (env : CompressEnv) (data : Image) (pblksize : Nat) : Option (Nat × Image) :=
  (lz4CompressLimitedOutput env.ctx ⟨pblksize, data⟩ ⟨wbufSize - 4, fun i => env.wbuf (i + 4)⟩
    pblksize (pblksize / 2 - 8)).map fun r =>
      (if r.1 = 0 then 0 else r.1 + 4,
        setLE (fun i => if i < 4 then env.wbuf i else r.2.bytes (i - 4)) 0 4 r.1)

/-- `none` is the panic about a weird size. -/
def compBlockSize (compSize : Nat) : Option Nat :=
  if compSize ≤ 1024 then some 1024
  else if compSize ≤ 2048 then some 2048
  else if compSize ≤ 4096 then some 4096
  else if compSize ≤ 8192 then some 8192
  else if compSize ≤ 16384 then some 16384
  else if compSize ≤ 32768 then some 32768
  else none

/-- From the top of `hammer2_compress_and_write` to the zeros behind the compressed data, for a
block that is not stored as a hole. The stub of `deflate` ends without `Z_STREAM_END`. -/
def compressBlock (env : CompressEnv) (data : Image) (pblksize : Nat) : Option CompressedBlock :=
  if ¬ pblksize / 2 ≤ 32768 then none
  else do
    let (compSize, buffer) ←
      if (env.heuristic < 8 ∨ env.heuristic % 8 = 0 ∨ env.always) ∧ env.algo = compLZ4 then
        lz4CompBuffer env data pblksize
      else some (0, env.wbuf)
    if compSize = 0 then
      some ⟨0, pblksize, buffer, if 128 < env.heuristic + 1 then 8 else env.heuristic + 1⟩
    else do
      let size ← compBlockSize compSize
      some ⟨compSize, size,
        fun i => if compSize ≤ i ∧ i < size then 0 else buffer i, 0⟩

/-- `LZ4_decompress_safe` into a buffer of `hammer2_zone_rbuf`, which holds `rbuf`. -/
def lz4Safe (rbuf : Image) (source : Image) (size : Int) (room : Nat) : Int × Image :=
  match lz4DecompressSafe ⟨max 1 size.toNat, source⟩ ⟨pbufSize, rbuf⟩ size.toNat room with
  | some r => (r.1, r.2.bytes)
  | none => (-1, rbuf)

section

variable {env : CompressEnv} {data : Image} {pblksize compSize : Nat}

theorem isLeast_coverSizes {k n : Nat} (hmin : 10 ≤ k) (hmax : k ≤ 16) (hle : n ≤ 2 ^ k)
    (hgt : k = 10 ∨ 2 ^ (k - 1) < n) : IsLeast (CoverSizes n) (2 ^ k) := by
  refine ⟨⟨blockSize_pow hmin hmax, hle⟩, ?_⟩
  rintro p ⟨⟨⟨j, rfl⟩, hj, -⟩, hp⟩
  apply Nat.pow_le_pow_right Nat.two_pos
  rcases hgt with rfl | hgt
  · exact (Nat.pow_le_pow_iff_right Nat.one_lt_two).mp hj
  · have hlt := (Nat.pow_lt_pow_iff_right Nat.one_lt_two).mp (hgt.trans_le hp)
    omega

/-- The block for compressed data is the least one that holds them. -/
theorem compBlockSize_isLeast (compSize : Nat) (h : compSize ≤ 32768) :
    ∃ size, compBlockSize compSize = some size ∧ IsLeast (CoverSizes compSize) size := by
  unfold compBlockSize
  split_ifs with h10 h11 h12 h13 h14
  · exact ⟨_, rfl, isLeast_coverSizes (k := 10) le_rfl (by decide) h10 (Or.inl rfl)⟩
  · exact ⟨_, rfl, isLeast_coverSizes (k := 11) (by decide) (by decide) h11 (Or.inr (by omega))⟩
  · exact ⟨_, rfl, isLeast_coverSizes (k := 12) (by decide) (by decide) h12 (Or.inr (by omega))⟩
  · exact ⟨_, rfl, isLeast_coverSizes (k := 13) (by decide) (by decide) h13 (Or.inr (by omega))⟩
  · exact ⟨_, rfl, isLeast_coverSizes (k := 14) (by decide) (by decide) h14 (Or.inr (by omega))⟩
  · exact ⟨_, rfl, isLeast_coverSizes (k := 15) (by decide) (by decide) h (Or.inr (by omega))⟩

/-- A stream of the compressor behind its size, in a block whose other bytes are of no account. -/
structure HoldsStream (data buffer : Image) (pblksize size : Nat) : Prop where
  pos : 0 < size
  size_le : size ≤ pblksize / 2 - 8
  stored : lz4Prefix buffer = size
  block : ∃ b : Block, b.Legal pblksize ∧ b.encode.length = size ∧
    HoldsAt (fun i => buffer (i + 4)) 0 b.encode ∧ b.expand = slice data 0 pblksize

theorem lz4CompBuffer_spec (env : CompressEnv) (data : Image) (hb : BlockSize pblksize) :
    ∃ compSize buffer, lz4CompBuffer env data pblksize = some (compSize, buffer) ∧
      (compSize = 0 ∨ ∃ size, compSize = size + 4 ∧ HoldsStream data buffer pblksize size) := by
  have hmin := hb.min
  have hmax := hb.max
  obtain ⟨result, dest', hrun, -, hresult⟩ := lz4CompressLimitedOutput_block env.ctx
    ⟨pblksize, data⟩ ⟨wbufSize - 4, fun i => env.wbuf (i + 4)⟩ pblksize (pblksize / 2 - 8)
    le_rfl (by
      change pblksize / 2 - 8 + lz4Slack pblksize ≤ wbufSize - 4
      unfold lz4Slack wbufSize pbufSize
      omega)
  unfold lz4CompBuffer
  rw [hrun]
  rcases hresult with rfl | ⟨hle, b, hlegal, hlen, hholds, hexpand⟩
  · exact ⟨0, _, rfl, Or.inl rfl⟩
  · have hlen1 : 1 ≤ b.encode.length := Nat.zero_lt_of_lt (encode_length_pos b.sequences b.last)
    refine ⟨_, _, rfl, Or.inr ⟨result, if_neg (by omega), by omega, hle, ?_, b, hlegal, hlen, ?_,
      hexpand⟩⟩
    · unfold lz4Prefix
      rw [getLE_setLE_self, Nat.mod_eq_of_lt (by omega)]
    · refine hholds.congr fun i _ _ => ?_
      rw [setLE_of_outside (by omega), if_neg (by omega), Nat.add_sub_cancel]

theorem HoldsStream.congr {buffer buffer' : Image} {size : Nat}
    (h : HoldsStream data buffer pblksize size) (he : ∀ i < size + 4, buffer' i = buffer i) :
    HoldsStream data buffer' pblksize size := by
  obtain ⟨hpos, hle, hstored, b, hlegal, hlen, hholds, hexpand⟩ := h
  refine ⟨hpos, hle, ?_, b, hlegal, hlen, hholds.congr fun i _ hi => he (i + 4) (by omega), hexpand⟩
  rw [← hstored]
  exact getLE_congr fun i _ hi => he i (by omega)

theorem BlockSize.half (h : BlockSize pblksize) (hle : 2048 ≤ pblksize) :
    BlockSize (pblksize / 2) := by
  obtain ⟨⟨k, rfl⟩, -, hmax⟩ := h
  have hk : 11 ≤ k := (Nat.pow_le_pow_iff_right Nat.one_lt_two).mp hle
  have hk16 : k ≤ 16 := (Nat.pow_le_pow_iff_right Nat.one_lt_two).mp hmax
  obtain ⟨j, rfl⟩ : ∃ j, k = j + 1 := ⟨k - 1, by omega⟩
  rw [Nat.pow_succ, Nat.mul_div_cancel _ Nat.two_pos]
  exact blockSize_pow (by omega) (by omega)

/-- The callback of the read path restores what a stream was made of. -/
theorem HoldsStream.read {buffer rbuf buf : Image} {size bytes : Nat} {bp : LogicalBuf}
    (h : HoldsStream data buffer pblksize size) (hmax : pblksize ≤ 65536)
    (hbytes : size + 4 ≤ bytes) (hlt : bytes < 2 ^ 32)
    (hpblk : pblksize ≤ bp.bufsize) (hbuf : bp.bufsize ≤ pbufSize) :
    ∃ ws, decompressLZ4Callback (portDecoders (lz4Safe rbuf)) buffer bytes bp = some ws ∧
      HoldsContent bp (ws.foldl DestWrite.apply buf) (padZero data pblksize) := by
  obtain ⟨hpos, hle, hstored, b, hlegal, hlen, hholds, hexpand⟩ := h
  subst hlen
  obtain ⟨out, hdec, -, hall⟩ := lz4DecompressSafe_holds hlegal
    ⟨max 1 b.encode.length, fun i => buffer (i + 4)⟩ ⟨pbufSize, rbuf⟩ hholds
    (le_max_right 1 b.encode.length) hpblk (by omega) hbuf
  have hsize : (BitVec.ofNat 32 b.encode.length).toInt = b.encode.length := by
    rw [BitVec.toInt_ofNat']
    exact Int.bmod_eq_of_le (by omega) (by omega)
  have hresult : lz4Result (portDecoders (lz4Safe rbuf)) buffer bp =
      ((pblksize : Int), out.bytes) := by
    unfold lz4Result portDecoders lz4Safe
    dsimp only
    rw [hstored, hsize, Int.toNat_natCast, hdec]
  have hroom : b.encode.length ≤ lz4Room bytes := by
    unfold lz4Room
    omega
  obtain ⟨ws, hws⟩ : ∃ ws,
      decompressLZ4Callback (portDecoders (lz4Safe rbuf)) buffer bytes bp = some ws := by
    unfold decompressLZ4Callback
    rw [if_neg (not_not_intro hbuf), hstored, if_neg (not_not_intro hroom), hresult]
    dsimp only
    rw [if_neg (not_not_intro (Int.ofNat_le.mpr hpblk))]
    exact ⟨_, rfl⟩
  refine ⟨ws, hws, fun i hi => ?_⟩
  have hcontent := (decompressLZ4Callback_content buf hws
    (by rw [hresult]; exact Int.natCast_nonneg _)).2
    i hi
  rw [hcontent, hresult]
  unfold padZero
  dsimp only
  rw [Int.toNat_natCast]
  by_cases hin : i < pblksize
  · have hslice := hall.slice_eq
    rw [hlegal.expand_length, hexpand] at hslice
    have hi1 : (slice out.bytes 0 pblksize)[i]? = some (out.bytes (0 + i)) := slice_get? _ hin
    rw [hslice, slice_get? data hin, Nat.zero_add] at hi1
    rw [if_pos hin, if_pos hin, Option.some.inj hi1]
  · rw [if_neg hin, if_neg hin]

end

/-- A block is stored as it is, or as a stream of the compressor in the least block that holds it. -/
theorem compressBlock_stream (env : CompressEnv) (data : Image) {pblksize : Nat}
    (hb : BlockSize pblksize) :
    ∃ c, compressBlock env data pblksize = some c ∧
      (c.compSize = 0 ∧ c.compBlockSize = pblksize ∨
        env.algo = compLZ4 ∧ IsLeast (CoverSizes c.compSize) c.compBlockSize ∧
        ∃ size, c.compSize = size + 4 ∧ HoldsStream data c.buffer pblksize size) := by
  have hmax := hb.max
  unfold compressBlock
  rw [if_neg (not_not_intro (by omega : pblksize / 2 ≤ 32768))]
  by_cases htry : (env.heuristic < 8 ∨ env.heuristic % 8 = 0 ∨ env.always) ∧ env.algo = compLZ4
  · obtain ⟨compSize, buffer, hbuffer, hstream⟩ := lz4CompBuffer_spec env data hb
    rw [if_pos htry, hbuffer, Option.bind_eq_bind, Option.bind_some]
    dsimp only
    rcases hstream with rfl | ⟨size, rfl, hstream⟩
    · rw [if_pos rfl]
      exact ⟨_, rfl, Or.inl ⟨rfl, rfl⟩⟩
    · have hle := hstream.size_le
      obtain ⟨block, hblock, hleast⟩ := compBlockSize_isLeast (size + 4) (by omega)
      rw [if_neg (by omega), hblock, Option.bind_eq_bind, Option.bind_some]
      refine ⟨_, rfl, Or.inr ⟨htry.2, hleast, size, rfl, hstream.congr fun i hi => ?_⟩⟩
      exact if_neg (by omega)
  · rw [if_neg htry, Option.bind_eq_bind, Option.bind_some]
    dsimp only
    rw [if_pos rfl]
    exact ⟨_, rfl, Or.inl ⟨rfl, rfl⟩⟩

/-- A block that is stored compressed is a block of the least size for its data, at most half of what
it stands for or of the least size at all, and reads as what was written. -/
theorem compressBlock_round_trip (env : CompressEnv) (data : Image) {pblksize : Nat}
    (hb : BlockSize pblksize) :
    ∃ c, compressBlock env data pblksize = some c ∧
      (c.compSize = 0 ∧ c.compBlockSize = pblksize ∨
        IsLeast (CoverSizes c.compSize) c.compBlockSize ∧
        c.compBlockSize ≤ max 1024 (pblksize / 2) ∧
        ∀ (rbuf buf : Image) (bp : LogicalBuf), pblksize ≤ bp.bufsize → bp.bufsize ≤ pbufSize →
          ∃ ws, decompressLZ4Callback (portDecoders (lz4Safe rbuf)) c.buffer c.compBlockSize bp =
              some ws ∧
            HoldsContent bp (ws.foldl DestWrite.apply buf) (padZero data pblksize)) := by
  have hmin := hb.min
  obtain ⟨c, hc, hplain | ⟨-, hleast, size, hsize, hstream⟩⟩ := compressBlock_stream env data hb
  · exact ⟨c, hc, Or.inl hplain⟩
  · rw [hsize] at hleast
    have hle := hstream.size_le
    have hpos := hstream.pos
    refine ⟨c, hc, Or.inr ⟨by rwa [hsize], ?_, fun rbuf buf bp hpblk hbuf => ?_⟩⟩
    · rcases Nat.lt_or_ge pblksize 2048 with hsmall | hlarge
      · have hblk : 1024 ∈ CoverSizes (size + 4) :=
          ⟨blockSize_pow (k := 10) le_rfl (by decide), by omega⟩
        exact (hleast.2 hblk).trans (le_max_left _ _)
      · have hblk : pblksize / 2 ∈ CoverSizes (size + 4) := ⟨hb.half hlarge, by omega⟩
        exact (hleast.2 hblk).trans (le_max_right _ _)
    · have hcover := hleast.1.2
      have hlt : c.compBlockSize < 2 ^ 32 := hleast.1.1.max.trans_lt (by decide)
      exact hstream.read hb.max hcover hlt hpblk hbuf

theorem compressBlock_round_trip_page :
    ∃ c, compressBlock ⟨compLZ4, 0, false, true, fun _ => 0⟩ (fun _ => 1) 4096 = some c ∧
      (c.compSize = 0 ∧ c.compBlockSize = 4096 ∨
        IsLeast (CoverSizes c.compSize) c.compBlockSize ∧
        c.compBlockSize ≤ max 1024 (4096 / 2) ∧
        ∀ (rbuf buf : Image) (bp : LogicalBuf), 4096 ≤ bp.bufsize → bp.bufsize ≤ pbufSize →
          ∃ ws, decompressLZ4Callback (portDecoders (lz4Safe rbuf)) c.buffer c.compBlockSize bp =
              some ws ∧
            HoldsContent bp (ws.foldl DestWrite.apply buf) (padZero (fun _ => 1) 4096)) :=
  compressBlock_round_trip ⟨compLZ4, 0, false, true, fun _ => 0⟩ (fun _ => 1)
    (blockSize_pow (k := 12) (by decide) (by decide))

end Hammer2
