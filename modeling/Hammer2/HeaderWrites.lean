import Hammer2.StampedImage
import Hammer2.VolumeRing
import Hammer2.FsckVerdict
import Hammer2.NewfsMount

/-! The order in which `newfs_hammer2` and the flush fill in a volume header. -/

namespace Hammer2

open ByteImage

def headerChecksum (buf : List (BitVec 8)) : Nat := (icrc32 buf).toNat

/-- `ICRC_SECT1`, `ICRC_SECT0` and `icrc_volheader`, as both writers store them. -/
def icrcWrites : List Write :=
  [.stamp 0x1F8 4 512 512, .stamp 0x1FC 4 0 508, .stamp 0xFFFC 4 0 65532]

def areaWrites (opt : MkfsOptions) : List Write :=
  [.store 0x08 8 bootBase, .store 0x10 8 (bootBase + opt.bootAreaSize), .store 0x18 8 (auxBase opt),
    .store 0x20 8 (auxBase opt + opt.auxAreaSize)]

/-- The loop over `volu_loff`. -/
def loffWrites (loff : Nat → Nat) (n : Nat) : List Write :=
  (List.range n).map fun i => .store (0xE00 + 8 * i) 8 (loff i)

def multiWrites (fso : Ondisk) (vol : Volume) : List Write :=
  [.store 0x3B 1 vol.id, .store 0x3C 1 fso.nvolumes, .store 0xC0 8 fso.totalSize] ++
    loffWrites (fun i => if i < fso.nvolumes then (fso.volume i).offset else offMod - 1) maxVolumes

/-- The writes of `format_hammer2` into the cleared header before it computes the check codes. -/
def newfsFieldWrites (fso : Ondisk) (opt : MkfsOptions) (vol : Volume) (allocBase : Nat)
    (blockset : Image) : List Write :=
  List.flatten [
    [.store 0x00 8 volumeIdHbo],
    if vol.id = rootVolume then areaWrites opt else [],
    [.store 0x28 8 vol.size, .store 0x30 4 opt.version, .store 0x34 4 0],
    if volVersionMultiVolumes ≤ opt.version then multiWrites fso vol else [],
    [.store 0x40 16 opt.volFsid, .store 0x50 16 opt.fsType, .store 0x3A 1 dmsgPeerHammer2,
      .store 0x60 8 (freeSize fso opt)],
    if vol.id = rootVolume then [.store 0x68 8 (freeSize fso opt), .store 0x70 8 allocBase] else [],
    [.copy 0x200 0x200 blockset, .store 0x78 8 16, .store 0x90 8 16]]

def newfsWrites (fso : Ondisk) (opt : MkfsOptions) (vol : Volume) (allocBase : Nat)
    (blockset : Image) : List Write :=
  newfsFieldWrites fso opt vol allocBase blockset ++ icrcWrites

/-- The writes of the VOLUME case of `hammer2_flush_core` into `voldata`. -/
def flushWrites (voldata : VolumeData) (tid : Nat) : List Write :=
  (if voldata.mirrorTid < tid then [.store 0x78 8 tid] else []) ++ icrcWrites

/-- The check code tests, which all readers make alike. -/
def VolumeData.CheckCodes (vd : VolumeData) : Prop :=
  vd.icrcSect0 = (icrc32 (slice vd 0 508)).toNat ∧
  vd.icrcSect1 = (icrc32 (slice vd 512 512)).toNat ∧
  vd.icrcVolheader = (icrc32 (slice vd 0 65532)).toNat

/-- The check codes are right, and each reader decides about the header by its magic alone. -/
structure ChecksPass (hdr : VolumeData) : Prop where
  codes : hdr.CheckCodes
  kernel : ∀ size i, i * zoneBytes < size →
    (kernelZone size (fun _ => some hdr) none i = some (i, hdr) ↔ hdr.magic = volumeIdHbo)
  user : ∀ size i, i * zoneBytes < size →
    (userReadZones size (fun _ => some hdr) [i] none = some (i, hdr) ↔ hdr.magic = volumeIdHbo)
  fsck : VerifyVolumeHeader hdr ↔ hdr.AnyMagic

section Readers

variable {hdr : VolumeData} {size i : Nat}

theorem checkCodes_intact (h : hdr.CheckCodes) : hdr.Intact ↔ hdr.magic = volumeIdHbo :=
  and_iff_left h

theorem kernelZone_takes (hin : i * zoneBytes < size) :
    kernelZone size (fun _ => some hdr) none i = some (i, hdr) ↔ hdr.Intact := by
  have hs : ¬ size ≤ i * zoneBytes := by omega
  unfold kernelZone readZone
  rw [if_neg hs]
  dsimp only
  rw [if_neg hs]
  by_cases hi : hdr.Intact
  · simp [hi]
  · simp [hi]

theorem userReadZones_takes (hin : i * zoneBytes < size) :
    userReadZones size (fun _ => some hdr) [i] none = some (i, hdr) ↔ hdr.Intact := by
  have hs : ¬ size ≤ i * zoneBytes := by omega
  have hne : volumeIdHbo ≠ volumeIdAbo := by decide
  unfold userReadZones
  rw [if_neg hs]
  dsimp only
  by_cases hi : hdr.Intact
  · rw [if_neg fun h => h.1 hi.1, if_neg fun h => hne (hi.1.symm.trans h), if_neg (not_not.mpr hi)]
    simp [userReadZones, FirstMax.pick, hi]
  · simp [userReadZones, hi]

theorem checksPass_of_codes (h : hdr.CheckCodes) : ChecksPass hdr := by
  refine ⟨h, ?_, ?_, and_iff_left h⟩
  · intro size i hin
    exact (kernelZone_takes hin).trans (checkCodes_intact h)
  · intro size i hin
    exact (userReadZones_takes hin).trans (checkCodes_intact h)

end Readers

theorem headerChecksum_lt (buf : List (BitVec 8)) : headerChecksum buf < 256 ^ 4 := icrc_lt buf

theorem icrcWrites_stampedLast : StampedLast icrcWrites := by
  simp [StampedLast, icrcWrites, Write.Spares, Write.Outside, Write.off, Write.size]

/-- Check codes that come last are right, whatever was written before. -/
theorem checkCodes_writeAll {ws : List Write} (hws : Plain ws) (img : Image) :
    VolumeData.CheckCodes (writeAll headerChecksum img (ws ++ icrcWrites)) := by
  have horder := stampedLast_append hws icrcWrites_stampedLast
  have hmem : ∀ w ∈ icrcWrites, w ∈ ws ++ icrcWrites := fun w hw => List.mem_append_right ws hw
  refine ⟨?_, ?_, ?_⟩
  · exact checksum_writeAll horder (hmem _ (by simp [icrcWrites])) (by omega) headerChecksum_lt img
  · exact checksum_writeAll horder (hmem _ (by simp [icrcWrites])) (by omega) headerChecksum_lt img
  · exact checksum_writeAll horder (hmem _ (by simp [icrcWrites])) (by omega) headerChecksum_lt img

section Newfs

variable (fso : Ondisk) (opt : MkfsOptions) (vol : Volume) (allocBase : Nat) (blockset : Image)

theorem loffWrites_plain (loff : Nat → Nat) (n : Nat) : Plain (loffWrites loff n) := by
  intro w hw
  obtain ⟨i, -, rfl⟩ := List.mem_map.mp hw
  exact id

theorem newfsFieldWrites_plain :
    Plain (newfsFieldWrites fso opt vol allocBase blockset) := by
  have hmulti : Plain (multiWrites fso vol) := by
    apply plain_append
    · simp [Plain, Write.IsStamp]
    · exact loffWrites_plain _ _
  unfold newfsFieldWrites
  simp only [List.flatten_cons, List.flatten_nil, List.append_nil]
  repeat' apply plain_append
  all_goals try apply plain_ite
  · simp [Plain, Write.IsStamp]
  · simp [Plain, Write.IsStamp, areaWrites]
  · simp [Plain, Write.IsStamp]
  · exact hmulti
  all_goals simp [Plain, Write.IsStamp]

theorem setLoffs_eq_writeAll (vd : VolumeData) (loff : Nat → Nat) (n : Nat) :
    vd.setLoffs loff n = writeAll headerChecksum vd (loffWrites loff n) := by
  induction n with
  | zero => rfl
  | succ n ih =>
    unfold VolumeData.setLoffs loffWrites
    rw [ih, List.range_succ, List.map_append, writeAll_append]
    rfl

theorem setMulti_eq_writeAll (vd : VolumeData) :
    vd.setMulti fso vol = writeAll headerChecksum vd (multiWrites fso vol) := by
  unfold VolumeData.setMulti multiWrites
  rw [setLoffs_eq_writeAll, writeAll_append]
  rfl

/-- The header of the format tool is what its writes make of a cleared buffer. -/
theorem volumeHeader_eq_writeAll : volumeHeader fso opt vol allocBase blockset =
    writeAll headerChecksum zeroImage (newfsWrites fso opt vol allocBase blockset) := by
  unfold volumeHeader newfsWrites newfsFieldWrites
  simp only [List.flatten_cons, List.flatten_nil, List.append_nil, writeAll_append, writeAll_ite,
    setMulti_eq_writeAll]
  rfl

theorem newfsWrites_stampedLast : StampedLast (newfsWrites fso opt vol allocBase blockset) :=
  stampedLast_append (newfsFieldWrites_plain fso opt vol allocBase blockset) icrcWrites_stampedLast

theorem volumeHeader_checksPass : ChecksPass (volumeHeader fso opt vol allocBase blockset) := by
  apply checksPass_of_codes
  rw [volumeHeader_eq_writeAll]
  exact checkCodes_writeAll (newfsFieldWrites_plain fso opt vol allocBase blockset) zeroImage

end Newfs

/-- Every header copy that a run of `newfs_hammer2` leaves on a device is such a header. -/
theorem mkfs_header_eq {ac : Nat} {dev : Nat → Device} {opt : MkfsOptions} {fso : Ondisk}
    {f : Formatted} (h : mkfs ac dev opt = some (fso, f)) {i z : Nat} (hi : i < ac)
    (hz : z < numVolhdrs) (hin : z * zoneBytes < (fso.volume i).size) :
    ∃ allocBase blockset, (f.dev i).header z =
      volumeHeader fso (adjustOptions fso opt) (fso.volume i) allocBase blockset := by
  have hform := mkfs_formatted h hi
  obtain ⟨allocBase, blockset, heq⟩ := hform.isHeader
  refine ⟨allocBase, blockset, ?_⟩
  rw [hform.headers z hz, if_pos hin, heq]

section Flush

variable (voldata : VolumeData) (tid : Nat)

theorem flushFieldWrites_plain :
    Plain (if voldata.mirrorTid < tid then [.store 0x78 8 tid] else []) := by
  apply plain_ite
  simp [Plain, Write.IsStamp]

theorem flushWrites_stampedLast : StampedLast (flushWrites voldata tid) :=
  stampedLast_append (flushFieldWrites_plain voldata tid) icrcWrites_stampedLast

theorem flushWrites_checksPass :
    ChecksPass (writeAll headerChecksum voldata (flushWrites voldata tid)) := by
  apply checksPass_of_codes
  exact checkCodes_writeAll (flushFieldWrites_plain voldata tid) voldata

/-- The header that goes to the media after a flush. -/
theorem writeHeader_flushVolume {s : RingState} (hmod : s.modified = true) :
    (writeHeader (flushVolume s)).media (flushVolume s).nextZone =
      writeAll headerChecksum s.voldata (flushWrites s.voldata s.vchainTid) := by
  have hsync : (flushVolume s).volumesync = true := by
    unfold flushVolume
    rw [if_pos hmod]
  have hvol : (flushVolume s).volsync =
      writeAll headerChecksum s.voldata (flushWrites s.voldata s.vchainTid) := by
    unfold flushVolume flushWrites
    rw [if_pos hmod, writeAll_append, writeAll_ite]
    rfl
  unfold writeHeader
  rw [if_pos hsync]
  dsimp only
  rw [Function.update_self, hvol]

end Flush

/-- Whatever a header contains, both writers take its check codes after everything that these cover
has been written, and all readers find them right. -/
theorem volume_header_codes_agree :
    (∀ fso opt vol allocBase blockset,
      volumeHeader fso opt vol allocBase blockset =
        writeAll headerChecksum zeroImage (newfsWrites fso opt vol allocBase blockset) ∧
      StampedLast (newfsWrites fso opt vol allocBase blockset) ∧
      ChecksPass (volumeHeader fso opt vol allocBase blockset) ∧
      (volumeHeader fso opt vol allocBase blockset).magic = volumeIdHbo) ∧
    (∀ ac dev opt fso f, mkfs ac dev opt = some (fso, f) → ∀ i < ac, ∀ z < numVolhdrs,
      z * zoneBytes < (fso.volume i).size → ∃ allocBase blockset, (f.dev i).header z =
        volumeHeader fso (adjustOptions fso opt) (fso.volume i) allocBase blockset) ∧
    (∀ s : RingState, s.modified = true →
      (writeHeader (flushVolume s)).media (flushVolume s).nextZone =
        writeAll headerChecksum s.voldata (flushWrites s.voldata s.vchainTid) ∧
      StampedLast (flushWrites s.voldata s.vchainTid) ∧
      ChecksPass ((writeHeader (flushVolume s)).media (flushVolume s).nextZone)) := by
  refine ⟨?_, ?_, ?_⟩
  · intro fso opt vol allocBase blockset
    refine ⟨volumeHeader_eq_writeAll fso opt vol allocBase blockset,
      newfsWrites_stampedLast fso opt vol allocBase blockset,
      volumeHeader_checksPass fso opt vol allocBase blockset, ?_⟩
    exact (volumeHeader_common fso opt vol allocBase blockset).1
  · intro ac dev opt fso f h i hi z hz hin
    exact mkfs_header_eq h hi hz hin
  · intro s hmod
    have hmedia := writeHeader_flushVolume hmod
    refine ⟨hmedia, flushWrites_stampedLast _ _, ?_⟩
    rw [hmedia]
    exact flushWrites_checksPass _ _

/-- A blank device after `newfs_hammer2`, and the first flush of its root volume. -/
theorem volume_header_codes_agree_blank :
    (∃ fso f allocBase blockset, mkfs 1 (fun _ => blankDevice) smallOptions = some (fso, f) ∧
      (f.dev 0).header 0 = volumeHeader fso (adjustOptions fso smallOptions) (fso.volume 0)
        allocBase blockset ∧ ChecksPass ((f.dev 0).header 0)) ∧
    ∃ s, s = vchainModify (ringInit zeroImage 67108864) ∧
      ChecksPass ((writeHeader (flushVolume s)).media (flushVolume s).nextZone) := by
  obtain ⟨hnewfs, hmedia, hflush⟩ := volume_header_codes_agree
  have hsync := hflush (vchainModify (ringInit zeroImage 67108864)) rfl
  refine ⟨?_, _, rfl, hsync.2.2⟩
  obtain ⟨⟨fso, f⟩, h⟩ := Option.isSome_iff_exists.mp blankDevice_accepted
  have hsize : (fso.volume 0).size = 67108864 := by
    rw [(mkfs_layout h).2.2.2.2.2 0]
    decide
  obtain ⟨allocBase, blockset, heq⟩ := hmedia _ _ _ _ _ h 0 (by decide) 0 (by decide) (by omega)
  refine ⟨fso, f, allocBase, blockset, h, heq, ?_⟩
  rw [heq]
  exact (hnewfs _ _ _ _ _).2.2.1

end Hammer2
