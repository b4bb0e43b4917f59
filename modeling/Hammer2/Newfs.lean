import Hammer2.FreemapLeaf
import Hammer2.VolumeHeader

/-! What `newfs_hammer2` writes on its devices. -/

namespace Hammer2

open ByteImage

def pbufBytes : Nat := 65536
def offMax : Nat := 9223372036854775808
def offMod : Nat := 18446744073709551616
def maxVolumes : Nat := 64
def rootVolume : Nat := 0
def volVersionMultiVolumes : Nat := 2
def volVersionWip : Nat := 3

/-- A device, or an image file, which grows when it is written past its end. Reads past the end give
zeros. -/
structure Device where
  stat : Nat × Nat
  isImage : Bool
  size : Nat
  bytes : Image
  size_lt : size < offMax
  bytes_end : ∀ k, size ≤ k → bytes k = 0#8

/-- The 64KB from `off` on. -/
def Device.read (d : Device) (off : Nat) : Image := fun k =>
  if k < pbufBytes then d.bytes (off + k) else 0#8

def Device.header (d : Device) (zone : Nat) : VolumeData := d.read (zone * zoneBytes)

/-- Writes a 64KB buffer. -/
def pwrite (d : Device) (buf : Image) (off : Nat) : Option Device :=
  if h : off + pbufBytes < offMax ∧ (off + pbufBytes ≤ d.size ∨ d.isImage = true) then
    some { d with
      size := max d.size (off + pbufBytes)
      bytes := fun k => if off ≤ k ∧ k < off + pbufBytes then buf (k - off) else d.bytes k
      size_lt := Nat.max_lt.mpr ⟨d.size_lt, h.1⟩
      bytes_end := by
        intro k hk
        have hd := d.bytes_end k (by omega)
        simp only [hd, ite_eq_right_iff, and_imp]
        omega }
  else none

def zeroImage : Image := fun _ => 0#8

/-- Clears `n` blocks of 64KB. -/
def clearBlocks (d : Device) (off : Nat) : Nat → Option Device
  | 0 => some d
  | n + 1 => (pwrite d zeroImage off).bind fun d => clearBlocks d (off + pbufBytes) n

/-- `hammer2_mkfs_options_t`. The inodes that the labels ask for are given by the block and the
blockset that `format_hammer2_inode` fills in for an address. -/
structure MkfsOptions where
  version : Nat
  bootAreaSize : Nat
  auxAreaSize : Nat
  nLabels : Nat
  volFsid : Nat
  fsType : Nat
  inodeBlock : Nat → Image
  srootBlockset : Nat → Image
  version_min : 1 ≤ version
  version_max : version < volVersionWip

structure Volume where
  id : Nat
  offset : Nat
  size : Nat

/-- `hammer2_ondisk_t`; `volume i` counts for `i < nvolumes`. -/
structure Ondisk where
  version : Nat
  nvolumes : Nat
  volume : Nat → Volume
  totalSize : Nat

def volumeSize (ac : Nat) (dev : Nat → Device) (i : Nat) : Nat :=
  if i + 1 = ac then (dev i).size / volumeAlign * volumeAlign
  else (dev i).size / freemapLevel1Size * freemapLevel1Size

/-- `fso.total_size` after the first volumes. -/
def sizeBefore (ac : Nat) (dev : Nat → Device) : Nat → Nat
  | 0 => 0
  | i + 1 => (sizeBefore ac dev i + volumeSize ac dev i) % offMod

def makeOndisk (ac : Nat) (dev : Nat → Device) (version : Nat) : Ondisk where
  version := version
  nvolumes := ac
  volume i := ⟨i, sizeBefore ac dev i, volumeSize ac dev i⟩
  totalSize := sizeBefore ac dev ac

/-- The userland `hammer2_verify_volumes_common`. -/
def Ondisk.VerifyCommon (fso : Ondisk) (dev : Nat → Device) : Prop :=
  (∀ i < fso.nvolumes, ∀ j < i, (dev i).stat ≠ (dev j).stat) ∧
  ∀ i < fso.nvolumes, (fso.volume i).offset ≠ offMod - 1 ∧ (fso.volume i).size ≠ offMod - 1 ∧
    (fso.volume i).size ≤ (dev i).size

def Ondisk.Verify1 (fso : Ondisk) : Prop :=
  fso.nvolumes = 1 ∧ (fso.volume 0).id = 0 ∧ (fso.volume 0).offset = 0 ∧
    (fso.volume 0).size % volumeAlign = 0

def Ondisk.Verify2 (fso : Ondisk) : Prop :=
  ∀ i < fso.nvolumes, (fso.volume i).offset % freemapLevel1Size = 0 ∧
    (if i = 0 then (fso.volume i).offset = 0
      else (fso.volume i).id = (fso.volume (i - 1)).id + 1 ∧ (fso.volume i).offset =
        ((fso.volume (i - 1)).offset + (fso.volume (i - 1)).size) % offMod) ∧
    (if i ≠ fso.nvolumes - 1 then
        freemapLevel1Size ≤ (fso.volume i).size ∧ (fso.volume i).size % freemapLevel1Size = 0
      else (fso.volume i).size % volumeAlign = 0)

/-- The userland `hammer2_verify_volumes`. -/
def Ondisk.Verify (fso : Ondisk) (dev : Nat → Device) : Prop :=
  fso.VerifyCommon dev ∧
    (if volVersionMultiVolumes ≤ fso.version then fso.Verify2 else fso.Verify1) ∧
    0 < fso.nvolumes

instance (fso : Ondisk) (dev : Nat → Device) : Decidable (fso.Verify dev) := by
  unfold Ondisk.Verify Ondisk.VerifyCommon Ondisk.Verify1 Ondisk.Verify2
  infer_instance

/-- Halves a nominal area size down to the limit. -/
def halveTo (limit size : Nat) : Nat :=
  if limit < size then halveTo limit (size / 2) else size
termination_by size
decreasing_by omega

/-- The size of the boot or the aux area, rounded to the volume alignment. -/
def areaSize (nominal minimum total size : Nat) : Nat :=
  let size := if size = 0 then halveTo (total / 20) nominal else size
  let size := if size < minimum then minimum else size
  (size + (volumeAlign - 1)) % offMod / volumeAlign * volumeAlign

def bootNomBytes : Nat := 67108864
def auxNomBytes : Nat := 268435456

def adjustOptions (fso : Ondisk) (opt : MkfsOptions) : MkfsOptions :=
  { opt with
    bootAreaSize := areaSize bootNomBytes volumeAlign fso.totalSize opt.bootAreaSize
    auxAreaSize := areaSize auxNomBytes volumeAlign fso.totalSize opt.auxAreaSize }

section AdjustOptions

variable (fso : Ondisk) (opt : MkfsOptions)

@[simp] theorem adjustOptions_version : (adjustOptions fso opt).version = opt.version := by
  unfold adjustOptions
  rfl

@[simp] theorem adjustOptions_volFsid : (adjustOptions fso opt).volFsid = opt.volFsid := by
  unfold adjustOptions
  rfl

@[simp] theorem adjustOptions_fsType : (adjustOptions fso opt).fsType = opt.fsType := by
  unfold adjustOptions
  rfl

end AdjustOptions

/-- `fso.free_size`. -/
def freeSize (fso : Ondisk) (opt : MkfsOptions) : Nat :=
  let reserved := (fso.totalSize + (freemapLevel1Size - 1)) % offMod / freemapLevel1Size * zoneSeg
  (((fso.totalSize : Int) - reserved - opt.bootAreaSize - opt.auxAreaSize) % offMod).toNat

def bootBase : Nat := zoneSeg

def auxBase (opt : MkfsOptions) : Nat := (bootBase + opt.bootAreaSize) % offMod

def formatMisc (opt : MkfsOptions) (d : Device) : Option (Device × Nat) :=
  let allocBase := (auxBase opt + opt.auxAreaSize) % offMod
  (clearBlocks d 0 (zoneSeg / pbufBytes)).bind fun d =>
    if allocBase % pbufBytes = 0 ∧ allocBase < freemapLevel1Size then
      (clearBlocks d bootBase ((allocBase - bootBase + (pbufBytes - 1)) / pbufBytes)).map
        fun d => (d, allocBase)
    else none

/-- The super-root inode and one inode for each label, all in one 64KB block. -/
def formatInode (opt : MkfsOptions) (d : Device) (allocBase : Nat) :
    Option (Device × Nat × Image) :=
  let base := allocBase / pbufBytes * pbufBytes
  if 1024 * (opt.nLabels + 1) ≤ pbufBytes then
    (pwrite d (opt.inodeBlock base) base).map fun d =>
      (d, base + 1024 * (opt.nLabels + 1), opt.srootBlockset base)
  else none

/-- The areas and inodes that only the root volume has. -/
def formatRoot (opt : MkfsOptions) (vol : Volume) (d : Device) : Option (Device × Nat × Image) :=
  if vol.id = rootVolume then (formatMisc opt d).bind fun r => formatInode opt r.1 r.2
  else some (d, 0, zeroImage)

def VolumeData.version (vd : VolumeData) : Nat := getLE vd 0x30 4
def VolumeData.voluId (vd : VolumeData) : Nat := getLE vd 0x3B 1
def VolumeData.nvolumes (vd : VolumeData) : Nat := getLE vd 0x3C 1
def VolumeData.fsid (vd : VolumeData) : Nat := getLE vd 0x40 16
def VolumeData.fstype (vd : VolumeData) : Nat := getLE vd 0x50 16
def VolumeData.voluLoff (vd : VolumeData) (i : Nat) : Nat := getLE vd (0xE00 + 8 * i) 8

/-- The boot and aux areas, which only the root volume has. -/
def VolumeData.setAreas (vd : VolumeData) (opt : MkfsOptions) : VolumeData :=
  let vd : VolumeData := setLE vd 0x08 8 bootBase
  let vd : VolumeData := setLE vd 0x10 8 (bootBase + opt.bootAreaSize)
  let vd : VolumeData := setLE vd 0x18 8 (auxBase opt)
  setLE vd 0x20 8 (auxBase opt + opt.auxAreaSize)

/-- `volu_loff` of the first volumes. -/
def VolumeData.setLoffs (vd : VolumeData) (loff : Nat → Nat) : Nat → VolumeData
  | 0 => vd
  | n + 1 => setLE (vd.setLoffs loff n) (0xE00 + 8 * n) 8 (loff n)

/-- The fields that a header of version 1 does not have. -/
def VolumeData.setMulti (vd : VolumeData) (fso : Ondisk) (vol : Volume) : VolumeData :=
  let vd : VolumeData := setLE vd 0x3B 1 vol.id
  let vd : VolumeData := setLE vd 0x3C 1 fso.nvolumes
  let vd := vd.setTotalSize fso.totalSize
  vd.setLoffs (fun i => if i < fso.nvolumes then (fso.volume i).offset else offMod - 1) maxVolumes

def VolumeData.setSroot (vd : VolumeData) (blockset : Image) : VolumeData := fun i =>
  if 0x200 ≤ i ∧ i < 0x400 then blockset (i - 0x200) else vd i

def dmsgPeerHammer2 : Nat := 3

/-- The volume header that `format_hammer2` puts into every zone of a volume. -/
def volumeHeader (fso : Ondisk) (opt : MkfsOptions) (vol : Volume) (allocBase : Nat)
    (blockset : Image) : VolumeData :=
  let free := freeSize fso opt
  let vd : VolumeData := VolumeData.setMagic zeroImage volumeIdHbo
  let vd : VolumeData := if vol.id = rootVolume then vd.setAreas opt else vd
  let vd : VolumeData := vd.setVoluSize vol.size
  let vd : VolumeData := setLE vd 0x30 4 opt.version
  let vd : VolumeData := setLE vd 0x34 4 0
  let vd : VolumeData :=
    if volVersionMultiVolumes ≤ opt.version then vd.setMulti fso vol else vd
  let vd : VolumeData := setLE vd 0x40 16 opt.volFsid
  let vd : VolumeData := setLE vd 0x50 16 opt.fsType
  let vd : VolumeData := setLE vd 0x3A 1 dmsgPeerHammer2
  let vd : VolumeData := vd.setAllocatorSize free
  let vd : VolumeData :=
    if vol.id = rootVolume then setLE (vd.setAllocatorFree free) 0x70 8 allocBase else vd
  let vd : VolumeData := vd.setSroot blockset
  let vd : VolumeData := vd.setMirrorTid 16
  let vd : VolumeData := vd.setFreemapTid 16
  vd.updateIcrc

/-- Writes the header into the zones below the volume's size. -/
def writeHeaders (hdr : VolumeData) (size : Nat) : List Nat → Device → Option Device
  | [], d => some d
  | i :: is, d =>
    if size ≤ i * zoneBytes then some d
    else (pwrite d hdr (i * zoneBytes)).bind fun d => writeHeaders hdr size is d

def formatHammer2 (fso : Ondisk) (opt : MkfsOptions) (i : Nat) (d : Device) :
    Option (Device × VolumeData) :=
  let vol := fso.volume i
  (pwrite d zeroImage ((offMod + vol.size - pbufBytes) % offMod)).bind fun d =>
    (formatRoot opt vol d).bind fun r =>
      let hdr := volumeHeader fso opt vol r.2.1 r.2.2
      (writeHeaders hdr vol.size (List.range numVolhdrs) r.1).map fun d => (d, hdr)

/-- What `newfs_hammer2` leaves behind: the devices and the header of each volume. -/
structure Formatted where
  dev : Nat → Device
  hdr : Nat → VolumeData

def formatVolumes (fso : Ondisk) (opt : MkfsOptions) : List Nat → Formatted → Option Formatted
  | [], f => some f
  | i :: is, f =>
    (formatHammer2 fso opt i (f.dev i)).bind fun r =>
      formatVolumes fso opt is ⟨Function.update f.dev i r.1, Function.update f.hdr i r.2⟩

/-- `hammer2_mkfs` on `ac` devices. -/
def mkfs (ac : Nat) (dev : Nat → Device) (opt : MkfsOptions) : Option (Ondisk × Formatted) :=
  let fso := makeOndisk ac dev opt.version
  let opt := adjustOptions fso opt
  if ac ≤ maxVolumes ∧ fso.Verify dev ∧ freeSize fso opt < offMax then
    (formatVolumes fso opt (List.range ac) ⟨dev, fun _ => zeroImage⟩).map fun f => (fso, f)
  else none

section Header

variable (vd : VolumeData) {off n : Nat}

theorem getLE_updateIcrc_high (h : (0x400 ≤ off ∧ off + n ≤ 0xFFFC) ∨ 0x10000 ≤ off) :
    getLE vd.updateIcrc off n = getLE vd off n := by
  unfold VolumeData.updateIcrc
  rw [getLE_setLE_of_disjoint (by omega), getLE_setLE_of_disjoint (by omega),
    getLE_setLE_of_disjoint (by omega)]

theorem getLE_setSroot (blockset : Image) (h : off + n ≤ 0x200 ∨ 0x400 ≤ off) :
    getLE (vd.setSroot blockset) off n = getLE vd off n := by
  refine getLE_congr ?_
  intro i h1 h2
  unfold VolumeData.setSroot
  rw [if_neg (by omega)]

theorem getLE_setAreas (opt : MkfsOptions) {c : Prop} [Decidable c]
    (h : off + n ≤ 0x08 ∨ 0x28 ≤ off) :
    getLE (if c then vd.setAreas opt else vd) off n = getLE vd off n := by
  unfold VolumeData.setAreas
  split
  · rw [getLE_setLE_of_disjoint (by omega), getLE_setLE_of_disjoint (by omega),
      getLE_setLE_of_disjoint (by omega), getLE_setLE_of_disjoint (by omega)]
  · rfl

theorem getLE_setLoffs (loff : Nat → Nat) {m : Nat} (h : off + n ≤ 0xE00 ∨ 0xE00 + 8 * m ≤ off) :
    getLE (vd.setLoffs loff m) off n = getLE vd off n := by
  induction m with
  | zero => rfl
  | succ m ih =>
    unfold VolumeData.setLoffs
    rw [getLE_setLE_of_disjoint (by omega), ih (by omega)]

theorem getLE_setLoffs_self (loff : Nat → Nat) {i m : Nat} (h : i < m) :
    getLE (vd.setLoffs loff m) (0xE00 + 8 * i) 8 = loff i % 256 ^ 8 := by
  induction m with
  | zero => omega
  | succ m ih =>
    unfold VolumeData.setLoffs
    by_cases hi : i = m
    · subst i
      exact getLE_setLE_self _ _ _ _
    · rw [getLE_setLE_of_disjoint (by omega)]
      exact ih (by omega)

theorem getLE_setMulti (fso : Ondisk) (vol : Volume) {c : Prop} [Decidable c]
    (h : off + n ≤ 0x3B ∨ (0x3D ≤ off ∧ off + n ≤ 0xC0) ∨ (0xC8 ≤ off ∧ off + n ≤ 0xE00) ∨
      0x1000 ≤ off) :
    getLE (if c then vd.setMulti fso vol else vd) off n = getLE vd off n := by
  unfold VolumeData.setMulti maxVolumes
  split
  · rw [getLE_setLoffs _ _ (by omega), VolumeData.setTotalSize,
      getLE_setLE_of_disjoint (by omega), getLE_setLE_of_disjoint (by omega),
      getLE_setLE_of_disjoint (by omega)]
  · rfl

theorem getLE_setAllocator (free allocBase : Nat) {c : Prop} [Decidable c]
    (h : off + n ≤ 0x68 ∨ 0x78 ≤ off) :
    getLE (if c then setLE (vd.setAllocatorFree free) 0x70 8 allocBase else vd) off n =
      getLE vd off n := by
  unfold VolumeData.setAllocatorFree
  split
  · rw [getLE_setLE_of_disjoint (by omega), getLE_setLE_of_disjoint (by omega)]
  · rfl

end Header

section HeaderFields

variable (fso : Ondisk) (opt : MkfsOptions) (vol : Volume) (allocBase : Nat) (blockset : Image)

/-- The fields that every header has. -/
theorem volumeHeader_common :
    (volumeHeader fso opt vol allocBase blockset).magic = volumeIdHbo ∧
    (volumeHeader fso opt vol allocBase blockset).voluSize = vol.size % 256 ^ 8 ∧
    (volumeHeader fso opt vol allocBase blockset).version = opt.version % 256 ^ 4 ∧
    (volumeHeader fso opt vol allocBase blockset).fsid = opt.volFsid % 256 ^ 16 ∧
    (volumeHeader fso opt vol allocBase blockset).fstype = opt.fsType % 256 ^ 16 ∧
    (volumeHeader fso opt vol allocBase blockset).mirrorTid = 16 := by
  have hlt : volumeIdHbo % 256 ^ 8 = volumeIdHbo := by decide
  have htid : 16 % 256 ^ 8 = 16 := by decide
  unfold volumeHeader VolumeData.magic VolumeData.voluSize VolumeData.version VolumeData.fsid
    VolumeData.fstype VolumeData.mirrorTid
  refine ⟨?_, ?_, ?_, ?_, ?_, ?_⟩
  all_goals
    simp (disch := omega) only [getLE_updateIcrc, VolumeData.setFreemapTid, VolumeData.setMirrorTid,
      VolumeData.setAllocatorSize, VolumeData.setVoluSize, VolumeData.setMagic, getLE_setSroot,
      getLE_setAllocator, getLE_setMulti, getLE_setAreas, getLE_setLE_of_disjoint, getLE_setLE_self,
      hlt, htid]

theorem volumeHeader_intact : (volumeHeader fso opt vol allocBase blockset).Intact := by
  have hmagic := (volumeHeader_common fso opt vol allocBase blockset).1
  unfold volumeHeader at hmagic ⊢
  exact updateIcrc_intact ((magic_updateIcrc _).symm.trans hmagic)

theorem volumeHeader_multi (hv : volVersionMultiVolumes ≤ opt.version) :
    (volumeHeader fso opt vol allocBase blockset).voluId = vol.id % 256 ∧
    (volumeHeader fso opt vol allocBase blockset).nvolumes = fso.nvolumes % 256 ∧
    (volumeHeader fso opt vol allocBase blockset).totalSize = fso.totalSize % 256 ^ 8 ∧
    ∀ i < maxVolumes, (volumeHeader fso opt vol allocBase blockset).voluLoff i =
      (if i < fso.nvolumes then (fso.volume i).offset else offMod - 1) % 256 ^ 8 := by
  have hpow : 256 ^ 1 = 256 := by decide
  unfold volumeHeader VolumeData.voluId VolumeData.nvolumes VolumeData.totalSize
    VolumeData.voluLoff maxVolumes
  refine ⟨?_, ?_, ?_, ?_⟩
  rotate_right
  intro i hi
  all_goals
    simp (disch := omega) only [getLE_updateIcrc, getLE_updateIcrc_high, VolumeData.setFreemapTid,
      VolumeData.setMirrorTid, VolumeData.setAllocatorSize, VolumeData.setTotalSize, getLE_setSroot,
      getLE_setAllocator, if_pos hv, VolumeData.setMulti, maxVolumes, getLE_setLoffs,
      getLE_setLoffs_self, getLE_setLE_of_disjoint, getLE_setLE_self, hpow]

theorem getLE_zeroImage (off n : Nat) : getLE zeroImage off n = 0 := by
  induction n generalizing off with
  | zero => rfl
  | succ n ih =>
    have hbyte : (zeroImage off).toNat = 0 := rfl
    rw [getLE, ih, hbyte]

theorem volumeHeader_single (hv : ¬ volVersionMultiVolumes ≤ opt.version) :
    (volumeHeader fso opt vol allocBase blockset).voluId = 0 ∧
    (volumeHeader fso opt vol allocBase blockset).nvolumes = 0 ∧
    (volumeHeader fso opt vol allocBase blockset).totalSize = 0 ∧
    ∀ i < maxVolumes, (volumeHeader fso opt vol allocBase blockset).voluLoff i = 0 := by
  unfold volumeHeader VolumeData.voluId VolumeData.nvolumes VolumeData.totalSize
    VolumeData.voluLoff maxVolumes
  refine ⟨?_, ?_, ?_, ?_⟩
  rotate_right
  intro i hi
  all_goals
    simp (disch := omega) only [getLE_updateIcrc, getLE_updateIcrc_high, VolumeData.setFreemapTid,
      VolumeData.setMirrorTid, VolumeData.setAllocatorSize, VolumeData.setVoluSize,
      VolumeData.setMagic, getLE_setSroot, getLE_setAllocator, if_neg hv, getLE_setAreas,
      getLE_setLE_of_disjoint, getLE_zeroImage]

/-- The header fills no more than its 64KB. -/
theorem volumeHeader_end {k : Nat} (hk : pbufBytes ≤ k) :
    volumeHeader fso opt vol allocBase blockset k = 0#8 := by
  have hbyte : getLE (volumeHeader fso opt vol allocBase blockset) k 1 = 0 := by
    unfold pbufBytes at hk
    unfold volumeHeader
    simp (disch := omega) only [getLE_updateIcrc_high, VolumeData.setFreemapTid,
      VolumeData.setMirrorTid, VolumeData.setAllocatorSize, VolumeData.setVoluSize,
      VolumeData.setMagic, getLE_setSroot, getLE_setAllocator, getLE_setMulti, getLE_setAreas,
      getLE_setLE_of_disjoint, getLE_zeroImage]
  refine BitVec.eq_of_toNat_eq ?_
  simpa [getLE] using hbyte

end HeaderFields

end Hammer2
