import Mathlib.Logic.Function.Iterate
import Hammer2.ByteImage

namespace Hammer2

open ByteImage

/-- One bit of the reflected Castagnoli polynomial. -/
def crcShift (crc : BitVec 32) : BitVec 32 :=
  (crc >>> 1) ^^^ (0x82F63B78#32 &&& (~~~(crc &&& 1#32) + 1#32))

def crc32c (crc : BitVec 32) (buf : List (BitVec 8)) : BitVec 32 :=
  buf.foldl (fun crc b => crcShift^[8] (crc ^^^ b.setWidth 32)) crc

def icrc32 (buf : List (BitVec 8)) : BitVec 32 := ~~~crc32c (~~~0#32) buf

/-- The 64KB image of `hammer2_volume_data`. -/
abbrev VolumeData := Image

def volumeIdHbo : Nat := 0x48414d3205172011
def zoneBytes : Nat := 2147483648
def numVolhdrs : Nat := 4
def volumeAlign : Nat := 8388608

def VolumeData.magic (vd : VolumeData) : Nat := getLE vd 0x00 8
def VolumeData.voluSize (vd : VolumeData) : Nat := getLE vd 0x28 8
def VolumeData.allocatorSize (vd : VolumeData) : Nat := getLE vd 0x60 8
def VolumeData.allocatorFree (vd : VolumeData) : Nat := getLE vd 0x68 8
def VolumeData.mirrorTid (vd : VolumeData) : Nat := getLE vd 0x78 8
def VolumeData.totalSize (vd : VolumeData) : Nat := getLE vd 0xC0 8
def VolumeData.icrcSect1 (vd : VolumeData) : Nat := getLE vd 0x1F8 4
def VolumeData.icrcSect0 (vd : VolumeData) : Nat := getLE vd 0x1FC 4
def VolumeData.icrcVolheader (vd : VolumeData) : Nat := getLE vd 0xFFFC 4

def VolumeData.setMagic (vd : VolumeData) (v : Nat) : VolumeData := setLE vd 0x00 8 v
def VolumeData.setVoluSize (vd : VolumeData) (v : Nat) : VolumeData := setLE vd 0x28 8 v
def VolumeData.setAllocatorSize (vd : VolumeData) (v : Nat) : VolumeData := setLE vd 0x60 8 v
def VolumeData.setAllocatorFree (vd : VolumeData) (v : Nat) : VolumeData := setLE vd 0x68 8 v
def VolumeData.setMirrorTid (vd : VolumeData) (v : Nat) : VolumeData := setLE vd 0x78 8 v
def VolumeData.setFreemapTid (vd : VolumeData) (v : Nat) : VolumeData := setLE vd 0x90 8 v

def VolumeData.setTotalSize (vd : VolumeData) (v : Nat) : VolumeData := setLE vd 0xC0 8 v

/-- The check codes in the order in which the flush computes them: that of sector 0 covers the one
of sector 1, and that of the whole header covers both. -/
def VolumeData.updateIcrc (vd : VolumeData) : VolumeData :=
  let vd := setLE vd 0x1F8 4 (icrc32 (slice vd 512 512)).toNat
  let vd := setLE vd 0x1FC 4 (icrc32 (slice vd 0 508)).toNat
  setLE vd 0xFFFC 4 (icrc32 (slice vd 0 65532)).toNat

/-- The magic and check code tests that `hammer2_read_volume_header` makes on one copy. -/
def VolumeData.Intact (vd : VolumeData) : Prop :=
  vd.magic = volumeIdHbo ∧
  vd.icrcSect0 = (icrc32 (slice vd 0 508)).toNat ∧
  vd.icrcSect1 = (icrc32 (slice vd 512 512)).toNat ∧
  vd.icrcVolheader = (icrc32 (slice vd 0 65532)).toNat

instance (vd : VolumeData) : Decidable vd.Intact := inferInstanceAs (Decidable (_ ∧ _))

/-- One round of the loop of `hammer2_read_volume_header`. -/
def readZone (mediasize : Nat) (media : Nat → VolumeData) (best : Option (Nat × VolumeData))
    (i : Nat) : Option (Nat × VolumeData) :=
  if mediasize ≤ i * zoneBytes then best
  else if ¬ (media i).Intact then best
  else match best with
    | none => some (i, media i)
    | some (_, voldata) =>
      if voldata.mirrorTid < (media i).mirrorTid then some (i, media i) else best

/-- The zone and the content of the header copy that a mount selects. -/
def readVolumeHeader (mediasize : Nat) (media : Nat → VolumeData) : Option (Nat × VolumeData) :=
  (List.range numVolhdrs).foldl (readZone mediasize media) none

/-- The zone that the flush writes next. -/
def nextVolhdr (volhdrno : Int) (voluSize : Nat) : Nat :=
  let j := volhdrno + 1
  let j := if j < 0 then 0 else j
  let j := if numVolhdrs ≤ j then 0 else j
  let j := if voluSize < j.toNat * zoneBytes + 4194304 then 0 else j
  j.toNat

theorem icrc_lt (buf : List (BitVec 8)) : (icrc32 buf).toNat < 256 ^ 4 := (icrc32 buf).isLt

section Fields

variable (vd : VolumeData) (v : Nat)

@[simp] theorem magic_setVoluSize : (vd.setVoluSize v).magic = vd.magic :=
  getLE_setLE_of_disjoint (by omega)

@[simp] theorem magic_setMirrorTid : (vd.setMirrorTid v).magic = vd.magic :=
  getLE_setLE_of_disjoint (by omega)

@[simp] theorem magic_setFreemapTid : (vd.setFreemapTid v).magic = vd.magic :=
  getLE_setLE_of_disjoint (by omega)

@[simp] theorem voluSize_setMirrorTid : (vd.setMirrorTid v).voluSize = vd.voluSize :=
  getLE_setLE_of_disjoint (by omega)

@[simp] theorem voluSize_setFreemapTid : (vd.setFreemapTid v).voluSize = vd.voluSize :=
  getLE_setLE_of_disjoint (by omega)

@[simp] theorem mirrorTid_setVoluSize : (vd.setVoluSize v).mirrorTid = vd.mirrorTid :=
  getLE_setLE_of_disjoint (by omega)

@[simp] theorem mirrorTid_setFreemapTid : (vd.setFreemapTid v).mirrorTid = vd.mirrorTid :=
  getLE_setLE_of_disjoint (by omega)

/-- The sizes that growing the volume changes apart from `volu_size` leave the fields of the header
protocol alone. -/
theorem getLE_setSizes (total size free : Nat) {off n : Nat} (h : off + n ≤ 0x60 ∨
    (0x70 ≤ off ∧ off + n ≤ 0xC0)) :
    getLE (((vd.setTotalSize total).setAllocatorSize size).setAllocatorFree free) off n =
      getLE vd off n := by
  unfold VolumeData.setAllocatorFree VolumeData.setAllocatorSize VolumeData.setTotalSize
  rw [getLE_setLE_of_disjoint (by omega), getLE_setLE_of_disjoint (by omega),
    getLE_setLE_of_disjoint (by omega)]

theorem magic_setMagic (h : v < 18446744073709551616) : (vd.setMagic v).magic = v :=
  (getLE_setLE_self vd 0x00 8 v).trans (Nat.mod_eq_of_lt h)

theorem mirrorTid_setMirrorTid (h : v < 18446744073709551616) :
    (vd.setMirrorTid v).mirrorTid = v :=
  (getLE_setLE_self vd 0x78 8 v).trans (Nat.mod_eq_of_lt h)

theorem voluSize_setVoluSize (h : v < 18446744073709551616) :
    (vd.setVoluSize v).voluSize = v :=
  (getLE_setLE_self vd 0x28 8 v).trans (Nat.mod_eq_of_lt h)

end Fields

/-- Storing the check codes changes no field that lies before them. -/
theorem getLE_updateIcrc (vd : VolumeData) {off n : Nat} (h : off + n ≤ 0x1F8) :
    getLE vd.updateIcrc off n = getLE vd off n := by
  unfold VolumeData.updateIcrc
  rw [getLE_setLE_of_disjoint (by omega), getLE_setLE_of_disjoint (by omega),
    getLE_setLE_of_disjoint (by omega)]

@[simp] theorem magic_updateIcrc (vd : VolumeData) : vd.updateIcrc.magic = vd.magic :=
  getLE_updateIcrc vd (by omega)

@[simp] theorem voluSize_updateIcrc (vd : VolumeData) : vd.updateIcrc.voluSize = vd.voluSize :=
  getLE_updateIcrc vd (by omega)

@[simp] theorem mirrorTid_updateIcrc (vd : VolumeData) : vd.updateIcrc.mirrorTid = vd.mirrorTid :=
  getLE_updateIcrc vd (by omega)

/-- A header whose check codes were just computed passes the tests of the mount. -/
theorem updateIcrc_intact {vd : VolumeData} (h : vd.magic = volumeIdHbo) :
    vd.updateIcrc.Intact := by
  refine ⟨(magic_updateIcrc vd).trans h, ?_, ?_, ?_⟩
  · unfold VolumeData.icrcSect0 VolumeData.updateIcrc
    rw [getLE_setLE_of_disjoint (by omega), getLE_setLE_self, Nat.mod_eq_of_lt (icrc_lt _),
      slice_setLE_of_disjoint (by omega : 0 + 508 ≤ 0xFFFC ∨ _),
      slice_setLE_of_disjoint (by omega : 0 + 508 ≤ 0x1FC ∨ _)]
  · unfold VolumeData.icrcSect1 VolumeData.updateIcrc
    rw [getLE_setLE_of_disjoint (by omega), getLE_setLE_of_disjoint (by omega), getLE_setLE_self,
      Nat.mod_eq_of_lt (icrc_lt _), slice_setLE_of_disjoint (by omega : 512 + 512 ≤ 0xFFFC ∨ _),
      slice_setLE_of_disjoint (by omega : _ ∨ 0x1FC + 4 ≤ 512),
      slice_setLE_of_disjoint (by omega : _ ∨ 0x1F8 + 4 ≤ 512)]
  · unfold VolumeData.icrcVolheader VolumeData.updateIcrc
    rw [getLE_setLE_self, Nat.mod_eq_of_lt (icrc_lt _),
      slice_setLE_of_disjoint (by omega : 0 + 65532 ≤ 0xFFFC ∨ _)]

/-- A cleared header copy is never selected. -/
theorem zero_not_intact : ¬ VolumeData.Intact (fun _ => 0#8) := by
  intro h
  have hm : VolumeData.magic (fun _ => 0#8) = 0 := rfl
  rw [VolumeData.Intact, hm] at h
  exact absurd h.1 (by decide)

/-- What the loop of `hammer2_read_volume_header` has found after `n` zones: the first of the
intact copies with the largest `mirror_tid`. -/
structure NewestBelow (mediasize : Nat) (media : Nat → VolumeData) (n zone : Nat) : Prop where
  lt : zone < n
  visible : zone * zoneBytes < mediasize
  intact : (media zone).Intact
  le : ∀ i, i < n → i * zoneBytes < mediasize → (media i).Intact →
    (media i).mirrorTid ≤ (media zone).mirrorTid
  first : ∀ i, i < zone → i * zoneBytes < mediasize → (media i).Intact →
    (media i).mirrorTid < (media zone).mirrorTid

theorem readZone_fold_of_newest {mediasize : Nat} {media : Nat → VolumeData} {zone n : Nat}
    (hz : NewestBelow mediasize media numVolhdrs zone) (hn : n ≤ numVolhdrs) :
    (zone < n → (List.range n).foldl (readZone mediasize media) none = some (zone, media zone)) ∧
    (n ≤ zone → ∀ z vd, (List.range n).foldl (readZone mediasize media) none = some (z, vd) →
      vd.mirrorTid < (media zone).mirrorTid) := by
  induction n with
  | zero => simp
  | succ n ih =>
    obtain ⟨ihin, ihout⟩ := ih (by omega)
    rw [List.range_succ, List.foldl_append, List.foldl_cons, List.foldl_nil]
    constructor
    · intro hlt
      rcases Nat.lt_succ_iff_lt_or_eq.mp hlt with hlt | rfl
      · rw [ihin hlt]
        unfold readZone
        split
        next => rfl
        next hv =>
          split
          next => rfl
          next hi =>
            have hle := hz.le n (by omega) (by omega) (Decidable.not_not.mp hi)
            simp only
            rw [if_neg (by omega)]
      · unfold readZone
        have hvis := hz.visible
        rw [if_neg (by omega), if_neg (not_not.mpr hz.intact)]
        split
        next => rfl
        next z vd hbest => rw [if_pos (ihout (Nat.le_refl _) z vd hbest)]
    · intro hle z vd hbest
      unfold readZone at hbest
      split at hbest
      next => exact ihout (by omega) z vd hbest
      next hv =>
        split at hbest
        next => exact ihout (by omega) z vd hbest
        next hi =>
          have hlt := hz.first n (by omega) (by omega) (Decidable.not_not.mp hi)
          split at hbest
          next =>
            cases hbest
            exact hlt
          next =>
            split at hbest
            next =>
              cases hbest
              exact hlt
            next => exact ihout (by omega) z vd hbest

/-- A mount selects the newest intact copy. -/
theorem readVolumeHeader_of_newest {mediasize : Nat} {media : Nat → VolumeData} {zone : Nat}
    (hz : NewestBelow mediasize media numVolhdrs zone) :
    readVolumeHeader mediasize media = some (zone, media zone) :=
  (readZone_fold_of_newest hz (Nat.le_refl _)).1 hz.lt

/-- On a volume with room for a second copy the flush moves on to another zone that lies inside
the volume. -/
theorem nextVolhdr_spec {volhdrno voluSize : Nat} (hsize : 2151677952 ≤ voluSize) :
    nextVolhdr volhdrno voluSize ≠ volhdrno ∧ nextVolhdr volhdrno voluSize < numVolhdrs ∧
    nextVolhdr volhdrno voluSize * zoneBytes < voluSize := by
  unfold nextVolhdr zoneBytes numVolhdrs
  simp only
  split <;> split <;> split <;> omega

end Hammer2
