import Hammer2.HeaderChoice
import Hammer2.NewfsWrites

/-! The driver's side of a mount: which volume headers it takes and what it checks about them. -/

namespace Hammer2

inductive MountError where
  | einval
  | enxio
deriving DecidableEq

structure KernelVolume where
  dev : Option Device
  id : Int
  offset : Nat
  size : Nat

def emptyVolume : KernelVolume := ⟨none, -1, offMod - 1, offMod - 1⟩

/-- The header fields that all volumes share: version, volume count, fsid and fstype. -/
def VolumeData.common (vd : VolumeData) : Nat × Nat × Nat × Nat :=
  (vd.version, vd.nvolumes, vd.fsid, vd.fstype)

/-- The variables of `hammer2_init_volumes`. -/
structure InitState where
  volumes : Nat → KernelVolume
  common : Option (Nat × Nat × Nat × Nat)
  rootvoldata : VolumeData
  rootvolzone : Option Nat
  rootvoldevvp : Option Device

def initState : InitState := ⟨fun _ => emptyVolume, none, zeroImage, none, none⟩

def Device.readVolumeHeader (e : Device) : Option (Nat × VolumeData) :=
  kernelReadVolumeHeader e.size fun z => some (e.header z)

/-- One round of the loop of `hammer2_init_volumes`. -/
def initVolume (s : InitState) (e : Device) : Except MountError InitState :=
  match e.readVolumeHeader with
  | none => .error .einval
  | some (zone, voldata) =>
    if maxVolumes ≤ voldata.voluId then .error .einval
    else if (s.volumes voldata.voluId).id ≠ -1 then .error .einval
    else if s.common.getD voldata.common ≠ voldata.common then .error .enxio
    else if voldata.version < 1 ∨ volVersionWip < voldata.version then .error .einval
    else
      let vol : KernelVolume :=
        ⟨some e, voldata.voluId, voldata.voluLoff voldata.voluId, voldata.voluSize⟩
      let s := { s with
        volumes := Function.update s.volumes voldata.voluId vol
        common := some voldata.common }
      if voldata.voluId = rootVolume then
        .ok { s with rootvoldata := voldata, rootvolzone := some zone, rootvoldevvp := some e }
      else .ok s

section Verify

variable (volumes : Nat → KernelVolume) (rootvoldata : VolumeData)

def KernelVolume.mediasize (vol : KernelVolume) : Nat := vol.dev.elim 0 Device.size

def VerifyVolumesCommon : Prop :=
  rootvoldata.voluId = rootVolume ∧
  ∀ i < maxVolumes, (volumes i).id ≠ -1 →
    (volumes i).offset ≠ offMod - 1 ∧ (volumes i).size ≠ offMod - 1 ∧
    (volumes i).size ≤ (volumes i).mediasize ∧ (volumes i).size ≠ 0

/-- The initialised volumes. -/
def initialized : List Nat := (List.range maxVolumes).filter fun i => (volumes i).id ≠ -1

def sumSizes : List Nat → Nat :=
  List.foldl (fun total i => (total + (volumes i).size) % offMod) 0

def VerifyVolumes1 : Prop :=
  (initialized volumes).length = 1 ∧ rootvoldata.nvolumes = 0 ∧ rootvoldata.totalSize = 0 ∧
  (∀ i < maxVolumes, rootvoldata.voluLoff i = 0) ∧
  (volumes rootVolume).id = 0 ∧ (volumes rootVolume).offset = 0 ∧
  (volumes rootVolume).size % volumeAlign = 0

def VerifyVolumes2 : Prop :=
  rootvoldata.nvolumes = (initialized volumes).length ∧
  rootvoldata.totalSize = sumSizes volumes (initialized volumes) ∧
  (∀ i < (initialized volumes).length, rootvoldata.voluLoff i ≠ offMod - 1) ∧
  (∀ i < maxVolumes, (initialized volumes).length ≤ i → rootvoldata.voluLoff i = offMod - 1) ∧
  ∀ i < maxVolumes, (volumes i).id ≠ -1 → (volumes i).offset % freemapLevel1Size = 0 ∧
    (if i = 0 then (volumes i).offset = 0
      else (volumes (i - 1)).id < (volumes i).id ∧ (volumes i).offset =
        ((volumes (i - 1)).offset + (volumes (i - 1)).size) % offMod) ∧
    (if (i : Int) ≠ rootvoldata.nvolumes - 1 then
        freemapLevel1Size ≤ (volumes i).size ∧ (volumes i).size % freemapLevel1Size = 0
      else (volumes i).size % volumeAlign = 0)

/-- The driver's `hammer2_verify_volumes`. -/
def VerifyVolumes : Prop :=
  VerifyVolumesCommon volumes rootvoldata ∧
  if volVersionMultiVolumes ≤ rootvoldata.version then VerifyVolumes2 volumes rootvoldata
  else VerifyVolumes1 volumes rootvoldata

instance : Decidable (VerifyVolumesCommon volumes rootvoldata) := by
  unfold VerifyVolumesCommon
  infer_instance

instance : Decidable (VerifyVolumes1 volumes rootvoldata) := by
  unfold VerifyVolumes1
  infer_instance

instance : Decidable (VerifyVolumes2 volumes rootvoldata) := by
  unfold VerifyVolumes2
  infer_instance

instance : Decidable (VerifyVolumes volumes rootvoldata) := by
  unfold VerifyVolumes
  infer_instance

end Verify

def initVolumes (devvpl : List Device) : Except MountError InitState :=
  match devvpl.foldlM initVolume initState with
  | .error e => .error e
  | .ok s =>
    if s.rootvoldata.version = 0 then .error .einval
    else if VerifyVolumes s.volumes s.rootvoldata then .ok s
    else .error .einval

/-- `hmp->nvolumes` and `hmp->total_size` of a mount. -/
def mountNvolumes (rootvoldata : VolumeData) : Nat :=
  if volVersionMultiVolumes ≤ rootvoldata.version then rootvoldata.nvolumes else 1

def mountTotalSize (rootvoldata : VolumeData) : Nat :=
  if volVersionMultiVolumes ≤ rootvoldata.version then rootvoldata.totalSize
  else rootvoldata.voluSize

theorem mod_of_mod {x a b : Nat} (h : x % a = 0) (hdvd : b ∣ a) : x % b = 0 :=
  Nat.mod_eq_zero_of_dvd (hdvd.trans (Nat.dvd_of_mod_eq_zero h))

/-- The header that a mount takes is intact, and no intact header on the device is newer. -/
theorem readVolumeHeader_eq_some {e : Device} {c : Nat × VolumeData} :
    e.readVolumeHeader = some c ↔
      IntactCopy e.size (fun z => some (e.header z)) c ∧
        ∀ d, IntactCopy e.size (fun z => some (e.header z)) d → Outranks c d := by
  unfold Device.readVolumeHeader
  rw [kernel_eq_user, user_eq_some]

theorem intactCopy_header {e : Device} {z : Nat} {vd : VolumeData} :
    IntactCopy e.size (fun z => some (e.header z)) (z, vd) ↔
      z < numVolhdrs ∧ z * zoneBytes < e.size ∧ e.header z = vd ∧ vd.Intact := by
  unfold IntactCopy
  simp only [Option.some.injEq]

section Table

variable {volumes : Nat → KernelVolume} {n : Nat}

/-- A table whose first `n` entries are set up and no others. -/
theorem initialized_eq (hn : n ≤ maxVolumes) (hset : ∀ i < n, (volumes i).id = i)
    (hempty : ∀ i, n ≤ i → volumes i = emptyVolume) : initialized volumes = List.range n := by
  obtain ⟨m, hm⟩ := Nat.exists_eq_add_of_le hn
  unfold initialized
  rw [hm, List.range_add, List.filter_append]
  have hfirst : (List.range n).filter (fun i => decide ((volumes i).id ≠ -1)) = List.range n := by
    refine List.filter_eq_self.mpr ?_
    intro i hi
    have hid := hset i (List.mem_range.mp hi)
    simp only [ne_eq, hid, decide_eq_true_eq]
    omega
  have hrest : ((List.range m).map (n + ·)).filter (fun i => decide ((volumes i).id ≠ -1)) = [] := by
    refine List.filter_eq_nil_iff.mpr ?_
    intro i hi
    obtain ⟨j, -, rfl⟩ := List.mem_map.mp hi
    simp [hempty (n + j) (Nat.le_add_right _ _), emptyVolume]
  rw [hfirst, hrest, List.append_nil]

theorem sumSizes_range_succ (m : Nat) : sumSizes volumes (List.range (m + 1)) =
    (sumSizes volumes (List.range m) + (volumes m).size) % offMod := by
  unfold sumSizes
  rw [List.range_succ, List.foldl_append, List.foldl_cons, List.foldl_nil]

end Table

end Hammer2
