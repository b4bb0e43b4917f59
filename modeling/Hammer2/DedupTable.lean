import Hammer2.BitPair
import Hammer2.BulkfreeScan
import Hammer2.DioTransparent
import Hammer2.IoLock

namespace Hammer2

open ByteImage

/-- Storage for file data, as the allocator hands it out. -/
structure DataExtent extends Extent where
  shaped : toExtent.Shaped
  aligned : off % 64 = 0

def DataExtent.dataOff (e : DataExtent) : Nat := e.off + e.radix

/-- The extent that a `data_off` stands for. -/
def dataExtent (dataOff : Nat) : Extent := ⟨ioLbase dataOff, dataOff % 64⟩

theorem DataExtent.radix_lt (e : DataExtent) : e.radix < 64 := by
  have hmax := e.shaped.radix_max
  omega

@[simp] theorem DataExtent.dataExtent_dataOff (e : DataExtent) :
    dataExtent e.dataOff = e.toExtent := by
  have hradix := e.radix_lt
  have hoff := e.aligned
  have hbase : ioLbase e.dataOff = e.off := by
    unfold ioLbase DataExtent.dataOff
    omega
  have hsize : e.dataOff % 64 = e.radix := by
    unfold DataExtent.dataOff
    omega
  rw [dataExtent, hbase, hsize]

/-- `HAMMER2_CHECK_*` -/
inductive CheckMethod where
  | none
  | disabled
  | iscsi32
  | xxhash64
  | sha192
  | freemap
deriving DecidableEq

/-- What `hammer2_dedup_record` reads of a chain; `xxhash64` is its check code. -/
structure DataChain where
  extent : DataExtent
  bytes : Nat
  method : CheckMethod
  xxhash64 : BitVec 64

/-- `hammer2_dedup_t` -/
structure HeurDedup where
  dataOff : Nat
  dataCrc : BitVec 64
  ticks : BitVec 32

/-- `heur_dedup` -/
abbrev DedupTable := Nat → HeurDedup

/-- `hammer2_dedup_enable`, `hz`, `hammer2_dio_limit` and `XXH64`. -/
structure DedupEnv where
  enable : Bool
  hz : Int
  limit : Int
  xxh64 : Image → Nat → BitVec 64

/-- `HAMMER2_DEDUP_HEUR_MASK` -/
def dedupHeurMask : BitVec 64 := 65536 * 4 - 1

/-- The first of the four entries for a crc. -/
def dedupSlot (crc : BitVec 64) : Nat := (crc &&& (dedupHeurMask &&& ~~~3)).toNat

/-- The loop of `hammer2_dedup_record` over the entries from `i` on. -/
def dedupBest (hz : Int) (crc : BitVec 64) (dedup : DedupTable) : Nat → Nat → Nat → Nat
  | 0, _, best => best
  | fuel + 1, i, best =>
    if (dedup i).dataCrc = crc then i
    else
      let dticks := ((dedup i).ticks - (dedup best).ticks).toInt
      dedupBest hz crc dedup fuel (i + 1) (if dticks < 0 ∨ hz * 60 * 30 < dticks then i else best)

/-- The crc under which a block is recorded, if it has a check code. -/
def dedupCrc (env : DedupEnv) (chain : DataChain) (data : Image) : Option (BitVec 64) :=
  match chain.method with
  | .iscsi32 => some (env.xxh64 data chain.bytes)
  | .sha192 => some (env.xxh64 data chain.bytes)
  | .xxhash64 => some chain.xxhash64
  | _ => none

/-- `hammer2_dedup_record` -/
def dedupRecord (env : DedupEnv) (now : BitVec 32) (d : IoDev) (table : DedupTable)
    (chain : DataChain) (data : Image) : IoDev × DedupTable :=
  let dataOff := chain.extent.dataOff
  let pbase := ioPbase dataOff
  if env.enable = false ∨ d.cache.lookup pbase = none then (d, table)
  else
    match dedupCrc env chain data with
    | none => (d, table)
    | some crc =>
      let slot := dedupSlot crc
      let best := dedupBest env.hz crc (fun i => table (slot + i)) 4 0 0
      let mask := dedupMask pbase dataOff chain.bytes
      let (alloc, valid) := d.dedup pbase
      (d.setDedup pbase (alloc, valid ||| mask),
        Function.update table (slot + best) ⟨dataOff, crc, now⟩)

/-- `hammer2_dedup_clear` -/
def dedupClear (now : BitVec 32) (table : DedupTable) : DedupTable := fun i =>
  { table i with dataOff := 0, ticks := now - 1 }

/-- The buffer is there and shows the data, and both masks are set. -/
structure DedupHit (d : IoDev) (dataOff bytes : Nat) (data : Image) : Prop where
  alloc : (d.dedup (ioPbase dataOff)).1 &&& dedupMask (ioPbase dataOff) dataOff bytes =
    dedupMask (ioPbase dataOff) dataOff bytes
  valid : (d.dedup (ioPbase dataOff)).2 &&& dedupMask (ioPbase dataOff) dataOff bytes =
    dedupMask (ioPbase dataOff) dataOff bytes
  good : ∃ dio, d.cache.lookup (ioPbase dataOff) = some dio ∧ dio.good = true
  content : ∀ i < bytes, d.cache.view (ioLbase dataOff + i) = data i

/-- The test that `hammer2_dedup_lookup` makes under the lock of the dio. -/
def dedupTest (d : IoDev) (dataOff bytes : Nat) (data buf : Image) : Bool :=
  let mask := dedupMask (ioPbase dataOff) dataOff bytes
  let (alloc, valid) := d.dedup (ioPbase dataOff)
  alloc &&& mask = mask ∧ valid &&& mask = mask ∧
    ∀ i < bytes, data i = buf (ioLbase dataOff - ioPbase dataOff + i)

/-- One entry of `hammer2_dedup_lookup`, and whether it fits. `none` is a panic, or the thread waits. -/
def dedupTry (env : DedupEnv) (t : Nat) (d : IoDev) (data : Image) (bytes : Nat)
    (crc : BitVec 64) (evict : Nat → Bool) (e : HeurDedup) : Option (IoDev × Bool) :=
  if e.dataCrc ≠ crc then some (d, false)
  else if 2 ^ (e.dataOff % 64) ≠ bytes then some (d, false)
  else
    (ioGetblkLock t d .readq e.dataOff (fun _ => 0) .none).bind fun
      | (d, none) => some (d, false)
      | (d, some pbase) =>
        (d.cache.lookup pbase).bind fun dio => dio.data.bind fun buf =>
          (ioPutblkLock t env.limit d pbase .putblk evict).map fun d' =>
            (d', dedupTest d e.dataOff bytes data buf)

/-- The loop of `hammer2_dedup_lookup` over the given entries. -/
def dedupScan (env : DedupEnv) (t : Nat) (data : Image) (bytes : Nat) (crc : BitVec 64)
    (evict : Nat → Nat → Bool) (table : DedupTable) :
    List Nat → IoDev → Option (IoDev × Option Nat)
  | [], d => some (d, none)
  | i :: is, d =>
    (dedupTry env t d data bytes crc (evict i) (table i)).bind fun
      | (d, true) => some (d, some i)
      | (d, false) => dedupScan env t data bytes crc evict table is d

/-- `hammer2_dedup_lookup`; the last result is 0 when there is nothing to share. -/
def dedupLookup (env : DedupEnv) (t : Nat) (now : BitVec 32) (d : IoDev) (table : DedupTable)
    (data : Image) (bytes : Nat) (evict : Nat → Nat → Bool) :
    Option (IoDev × DedupTable × Nat) :=
  if env.enable = false then some (d, table, 0)
  else
    let crc := env.xxh64 data bytes
    let slot := dedupSlot crc
    (dedupScan env t data bytes crc evict table ((List.range 4).map (slot + ·)) d).map fun
      | (d, none) => (d, table, 0)
      | (d, some i) =>
        (d, Function.update table i { table i with ticks := now }, (table i).dataOff)

section Mask

variable {dataOff bytes j : Nat}

theorem ioLbase_lt (dataOff : Nat) : ioLbase dataOff < ioPbase dataOff + 65536 := by
  unfold ioPbase dioPsize
  omega

/-- The fragments of a buffer that a mask stands for. -/
theorem getLsbD_dedupMask
    (hend : (ioLbase dataOff - ioPbase dataOff) / 1024 + (bytes + 1023) / 1024 ≤ 64) (hj : j < 64) :
    (dedupMask (ioPbase dataOff) dataOff bytes).getLsbD j = true ↔
      (ioLbase dataOff - ioPbase dataOff) / 1024 ≤ j ∧
        j < (ioLbase dataOff - ioPbase dataOff) / 1024 + (bytes + 1023) / 1024 := by
  have hbeg : (ioLbase dataOff - ioPbase dataOff) / 1024 < 64 := by
    have hlt := ioLbase_lt dataOff
    omega
  unfold dedupMask dedupFrag
  dsimp only
  generalize (ioLbase dataOff - ioPbase dataOff) / 1024 = bbeg at hend hbeg ⊢
  rw [show (bytes + (1024 - 1)) / 1024 = (bytes + 1023) / 1024 from rfl]
  generalize (bytes + 1023) / 1024 = bits at hend ⊢
  have hupper : (if bbeg + bits = 64 then BitVec.allOnes 64
      else (1#64 <<< (bbeg + bits)) - 1).getLsbD j = decide (j < bbeg + bits) := by
    split
    next h64 => rw [BitVec.getLsbD_allOnes, h64]
    next h64 => exact BitPair.getLsbD_ones (by omega) j
  have hlower : ((1#64 <<< bbeg) - 1).getLsbD j = decide (j < bbeg) :=
    BitPair.getLsbD_ones hbeg j
  rw [BitVec.getLsbD_and, BitVec.getLsbD_not, hupper, hlower]
  simp only [Bool.and_eq_true, decide_eq_true_eq, Bool.not_eq_true', decide_eq_false_iff_not]
  omega

theorem legal_stop_le (hs : (dataExtent dataOff).Shaped) (hl : IoLegal dataOff) :
    (dataExtent dataOff).stop ≤ ioPbase dataOff + 65536 := by
  have hmin : 10 ≤ dataOff % 64 := hs.radix_min
  have hsize : ioLsize dataOff = 2 ^ (dataOff % 64) := if_neg (by omega)
  have hpos : 0 < 2 ^ (dataOff % 64) := Nat.two_pow_pos _
  have hlast := hl.2
  rw [hsize] at hlast
  unfold dioPsize at hlast
  show ioLbase dataOff + 2 ^ (dataOff % 64) ≤ _
  omega

theorem size_mod_frag (hs : (dataExtent dataOff).Shaped) : 2 ^ (dataOff % 64) % 1024 = 0 := by
  have hmin : 10 ≤ dataOff % 64 := hs.radix_min
  exact Nat.mod_eq_zero_of_dvd (Nat.pow_dvd_pow 2 hmin)

/-- Every fragment of the mask of an extent lies in a block that the extent touches. -/
theorem dedupMask_touches (hs : (dataExtent dataOff).Shaped) (hl : IoLegal dataOff) (hj : j < 64)
    (hmask : (dedupMask (ioPbase dataOff) dataOff (2 ^ (dataOff % 64))).getLsbD j = true) :
    (dataExtent dataOff).Touches ((ioPbase dataOff + 1024 * j) / 16384) := by
  have hstop := legal_stop_le hs hl
  have hfrag := size_mod_frag hs
  have hle := ioPbase_le dataOff
  have hbase : ioPbase dataOff % 65536 = 0 := Nat.mul_mod_left _ _
  have hpos : 0 < 2 ^ (dataOff % 64) := Nat.two_pow_pos _
  unfold Extent.stop dataExtent at hstop
  dsimp only at hstop
  rw [getLsbD_dedupMask (by omega) hj] at hmask
  unfold Extent.Touches Extent.stop dataExtent
  dsimp only
  omega

/-- Every block that an extent touches holds a fragment of its mask. -/
theorem exists_dedupMask_of_touches (hs : (dataExtent dataOff).Shaped) (hl : IoLegal dataOff)
    {b : Nat} (ht : (dataExtent dataOff).Touches b) :
    ∃ j < 64, (dedupMask (ioPbase dataOff) dataOff (2 ^ (dataOff % 64))).getLsbD j = true ∧
      (ioPbase dataOff + 1024 * j) / 16384 = b := by
  have hstop := legal_stop_le hs hl
  have hfrag := size_mod_frag hs
  have hle := ioPbase_le dataOff
  have hlt := ioLbase_lt dataOff
  have hbase : ioPbase dataOff % 65536 = 0 := Nat.mul_mod_left _ _
  have hpos : 0 < 2 ^ (dataOff % 64) := Nat.two_pow_pos _
  have hwhole := hs.whole
  have hfragment := hs.fragment
  unfold Extent.Touches Extent.stop dataExtent at ht
  unfold Extent.stop dataExtent at hstop
  unfold dataExtent at hwhole hfragment
  dsimp only at ht hstop hwhole hfragment
  have hmask := fun j hj => @getLsbD_dedupMask dataOff (2 ^ (dataOff % 64)) j (by omega) hj
  by_cases h14 : 14 ≤ dataOff % 64
  · have hblock := hwhole h14
    refine ⟨(16384 * b - ioPbase dataOff) / 1024, by omega, ?_, by omega⟩
    rw [hmask _ (by omega)]
    omega
  · have hblock := hfragment (by omega)
    refine ⟨(ioLbase dataOff - ioPbase dataOff) / 1024, by omega, ?_, by omega⟩
    rw [hmask _ (by omega)]
    omega

theorem getLsbD_dedupMask_block {b : Nat} (hj : j < 64) :
    (dedupMask (ioPbase (16384 * b + 14)) (16384 * b + 14) 16384).getLsbD j = true ↔
      (ioPbase (16384 * b + 14) + 1024 * j) / 16384 = b := by
  have hlbase : ioLbase (16384 * b + 14) = 16384 * b := by
    unfold ioLbase
    omega
  have hpbase : ioPbase (16384 * b + 14) = 65536 * (b / 4) := by
    unfold ioPbase dioPsize
    rw [hlbase]
    omega
  rw [getLsbD_dedupMask (by rw [hlbase, hpbase]; omega) hj, hlbase, hpbase]
  omega

end Mask

end Hammer2
