import Hammer2.FsckCache
import Hammer2.UserVolumes

namespace Hammer2

open ByteImage FirstMax

/-- The header copy of a zone as fsck reads it. -/
def FsckImage.slots (img : FsckImage) (i : Nat) : Option VolumeData :=
  (img.read (initRootBlockref .volume i).dataOff).map (·.buf)

/-- The devices of a file system and the blocks on them. -/
structure FsckDisk where
  devs : List UserDevice
  img : FsckImage
  rootBlocks : ∀ d ∈ devs, ∀ z vd, userReadVolumeHeader d.size d.slots = some (z, vd) →
    vd.voluId = 0 → ∀ i < numVolhdrs, i * zoneBytes < d.size → img.slots i = d.slots i

/-- `verify_volume_header`. -/
def VerifyVolumeHeader (vd : VolumeData) : Prop :=
  vd.AnyMagic ∧
  vd.icrcSect0 = (icrc32 (slice vd 0 508)).toNat ∧
  vd.icrcSect1 = (icrc32 (slice vd 512 512)).toNat ∧
  vd.icrcVolheader = (icrc32 (slice vd 0 65532)).toNat

instance (vd : VolumeData) : Decidable (VerifyVolumeHeader vd) := inferInstanceAs (Decidable (_ ∧ _))

/-- The data matches the check code, for the methods that fsck knows without OpenSSL. -/
def CheckMatches (img : FsckImage) (bref : FsckBref) (media : FsckMedia) : Prop :=
  match bref.methods.toNat / 16 with
  | 2 => bref.check.extractLsb' 0 32 = img.icrc32 media.buf (mediaBytes bref.dataOff)
  | 3 => bref.check.extractLsb' 0 64 = img.xxh64 media.buf (mediaBytes bref.dataOff)
  | 5 => bref.check.extractLsb' 0 32 = img.icrc32 media.buf (mediaBytes bref.dataOff)
  | _ => True

structure BrefSound (img : FsckImage) (bref : FsckBref) : Prop where
  type : bref.kind ≠ .invalid
  readable : mediaBytes bref.dataOff ≠ 0 → ∃ media, readMedia img bref.dataOff = .ok media
  checked : ∀ media, readMedia img bref.dataOff = .ok media →
    bref.dataOff.toNat / 64 * 64 % mediaBytes bref.dataOff = 0 → CheckMatches img bref media

/-- The blockrefs that are reachable from a table of blockrefs. -/
inductive FsckReach (img : FsckImage) : List FsckBref → FsckBref → Prop
  | mem {table : List FsckBref} {bref : FsckBref} (h : bref ∈ table) : FsckReach img table bref
  | deeper {table : List FsckBref} {bref c : FsckBref} (h : bref ∈ table)
      (hc : FsckReach img (brefTable img bref) c) : FsckReach img table c

section Zones

variable {scanBest : Bool} {best : Option Nat} {size : Nat} {slots : Nat → Option VolumeData}
  {zones : List Nat}

end Zones

/-- No blockref that is reachable from the table is damaged. -/
def TreeSound (img : FsckImage) (table : List FsckBref) : Prop :=
  ∀ bref, FsckReach img table bref → BrefSound img bref

section Sound

variable {opts : FsckOpts} {img : FsckImage}

theorem TreeSound.table {bref : FsckBref} (h : TreeSound img [bref]) :
    TreeSound img (brefTable img bref) :=
  fun c hc => h c (.deeper List.mem_cons_self hc)

end Sound

section Verdict

variable {args : FsckArgs} {disk : FsckDisk} {fuel : Nat} {fso : UserOndisk}

end Verdict

/-- A disk with one 8GB volume whose blocks are the header copies alone. -/
def headerImage (slots : Nat → Option VolumeData) : FsckImage where
  read dataOff := (slots (dataOff.toNat / zoneBytes)).map fun buf =>
    ⟨buf, false, [], fun _ => initRootBlockref .volume 0, [], []⟩
  icrc32 buf n := icrc32 (slice buf 0 n)
  xxh64 _ _ := 0
  sha192 := none

theorem headerImage_slots (slots : Nat → Option VolumeData) {i : Nat} (hi : i < numVolhdrs) :
    (headerImage slots).slots i = slots i := by
  have hoff : (initRootBlockref .volume i).dataOff.toNat / zoneBytes = i := by
    unfold numVolhdrs at hi
    interval_cases i <;> decide
  unfold FsckImage.slots headerImage
  dsimp only
  rw [hoff]
  cases slots i <;> rfl

def headerDisk (slots : Nat → Option VolumeData) : FsckDisk where
  devs := [⟨(0, 1), 8589934592, slots⟩]
  img := headerImage slots
  rootBlocks := by
    intro d hd _ _ _ _ i hi _
    cases List.mem_singleton.mp hd
    exact headerImage_slots slots hi

/-- The good header in zone 0 and three cleared zones. -/
def goodSlots : Nat → Option VolumeData
  | 0 => some goodHeader
  | _ => some fun _ => 0#8

theorem goodHeader_field {off n : Nat} (hmagic : 8 ≤ off) (hsize : off + n ≤ 0x28 ∨ 0x30 ≤ off)
    (htid : off + n ≤ 0x78 ∨ 0x80 ≤ off)
    (hicrc : off + n ≤ 0x1F8 ∨ (0x400 ≤ off ∧ off + n ≤ 0xFFFC)) : getLE goodHeader off n = 0 := by
  unfold goodHeader
  have hraw : getLE (((VolumeData.setMagic (fun _ => 0#8) volumeIdHbo).setVoluSize
      8589934592).setMirrorTid 5) off n = 0 := by
    unfold VolumeData.setMirrorTid VolumeData.setVoluSize VolumeData.setMagic
    rw [getLE_setLE_of_disjoint (by omega), getLE_setLE_of_disjoint (by omega),
      getLE_setLE_of_disjoint (by omega)]
    exact getLE_zeroImage off n
  rcases hicrc with h | h
  · rw [getLE_updateIcrc _ h, hraw]
  · rw [getLE_updateIcrc_high _ (Or.inl h), hraw]

/-- What `hammer2_init_volumes` makes of the disk with the good header. -/
def headerOndisk (slots : Nat → Option VolumeData) : UserOndisk where
  volumes := Function.update (fun _ => none) 0
    (some ⟨⟨(0, 1), 8589934592, slots⟩, 0, 0, 8589934592⟩)
  version := some 0
  nvolumes := 1
  fsid := 0
  fstype := 0
  totalSize := 8589934592

theorem headerDisk_addVolume {slots : Nat → Option VolumeData}
    (hread : userReadVolumeHeader 8589934592 slots = some (0, goodHeader)) :
    addVolume initOndisk ⟨(0, 1), 8589934592, slots⟩ =
      some { headerOndisk slots with nvolumes := 0 } := by
  have hid : goodHeader.voluId = 0 := goodHeader_field (by decide) (by decide) (by decide) (by decide)
  have hnvol : goodHeader.nvolumes = 0 :=
    goodHeader_field (by decide) (by decide) (by decide) (by decide)
  have hver : goodHeader.version = 0 := goodHeader_field (by decide) (by decide) (by decide) (by decide)
  have hfsid : goodHeader.fsid = 0 := goodHeader_field (by decide) (by decide) (by decide) (by decide)
  have hfstype : goodHeader.fstype = 0 :=
    goodHeader_field (by decide) (by decide) (by decide) (by decide)
  have hloff : goodHeader.voluLoff 0 = 0 :=
    goodHeader_field (by decide) (by decide) (by decide) (by decide)
  unfold addVolume
  dsimp only
  rw [hread]
  simp only [hid, hloff, goodHeader_voluSize, UserOndisk.common, hver, hnvol, hfsid, hfstype]
  rfl

theorem headerDisk_init {slots : Nat → Option VolumeData}
    (hread : userReadVolumeHeader 8589934592 slots = some (0, goodHeader)) :
    userInitVolumes (headerDisk slots).devs = some (headerOndisk slots) := by
  unfold userInitVolumes headerDisk
  dsimp only
  rw [List.foldlM_cons, headerDisk_addVolume hread]
  have hver : verifyVolumes { headerOndisk slots with nvolumes := 0 } = some (headerOndisk slots) := by
    have hids : ({ headerOndisk slots with nvolumes := 0 } : UserOndisk).ids = [0] := by rfl
    have hroot : ({ headerOndisk slots with nvolumes := 0 } : UserOndisk).rootHeader = none := by rfl
    have hcommon : ({ headerOndisk slots with nvolumes := 0 } : UserOndisk).VerifyCommon := by
      unfold UserOndisk.VerifyCommon
      rw [hids]
      simp [headerOndisk, offMod]
    have hone : ({ headerOndisk slots with nvolumes := 0 } : UserOndisk).Verify1 := by
      unfold UserOndisk.Verify1
      rw [hids, hroot]
      simp [headerOndisk, volumeAlign]
    have hsingle : ¬ (volVersionMultiVolumes : Int) ≤ intVersion 0 := by decide
    unfold verifyVolumes
    rw [if_neg (not_not.mpr hcommon)]
    change (if (volVersionMultiVolumes : Int) ≤ intVersion 0 then _ else _) = _
    rw [if_neg hsingle, if_pos hone]
    rfl
  exact hver

theorem goodSlots_user : userReadVolumeHeader 8589934592 goodSlots = some (0, goodHeader) := by
  refine user_eq_some.mpr ⟨⟨by decide, by decide, rfl, goodHeader_intact⟩, ?_⟩
  rintro ⟨i, vd⟩ ⟨-, -, hv, hint⟩
  match i with
  | 0 =>
    cases Option.some.inj hv
    exact Or.inr ⟨rfl, Nat.le_refl _⟩
  | n + 1 =>
    cases Option.some.inj hv
    exact absurd hint zero_not_intact

end Hammer2
