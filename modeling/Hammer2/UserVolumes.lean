import Hammer2.InitVolumes

/-! The volumes of the userland tools: `hammer2_init_volumes` and the accessors of `ondisk.c`. -/

namespace Hammer2

/-- A device as the tools see it; a header copy is `none` if it cannot be read. -/
structure UserDevice where
  stat : Nat × Nat
  size : Nat
  slots : Nat → Option VolumeData

/-- An installed `hammer2_volume_t`. -/
structure UserVolume where
  dev : UserDevice
  id : Nat
  offset : Nat
  size : Nat

/-- `hammer2_ondisk_t`. A volume with id -1 is `none`, and so is the version -1. -/
structure UserOndisk where
  volumes : Nat → Option UserVolume
  version : Option Nat
  nvolumes : Nat
  fsid : Nat
  fstype : Nat
  totalSize : Nat

def initOndisk : UserOndisk := ⟨fun _ => none, none, 0, 0, 0, 0⟩

/-- The version as the `int` that the tools compare. -/
def intVersion (version : Nat) : Int := (BitVec.ofNat 32 version).toInt

/-- The fields that are taken from the first header. A volume count of 0 makes every header the
first one. -/
def UserOndisk.common (fso : UserOndisk) (vd : VolumeData) : Option UserOndisk :=
  if fso.nvolumes = 0 then
    some { fso with
      version := if intVersion vd.version = -1 then none else some vd.version
      nvolumes := vd.nvolumes
      fsid := vd.fsid
      fstype := vd.fstype }
  else if fso.version = some vd.version ∧ fso.nvolumes = vd.nvolumes ∧ fso.fsid = vd.fsid ∧
      fso.fstype = vd.fstype then
    some fso
  else none

/-- `hammer2_add_volume`; `none` is `errx`. -/
def addVolume (fso : UserOndisk) (d : UserDevice) : Option UserOndisk :=
  match userReadVolumeHeader d.size d.slots with
  | none => none
  | some (_, vd) =>
    if maxVolumes ≤ vd.voluId then none
    else if (fso.volumes vd.voluId).isSome then none
    else
      (fso.common vd).map fun fso =>
        let vol : UserVolume := ⟨d, vd.voluId, vd.voluLoff vd.voluId, vd.voluSize⟩
        { fso with
          volumes := Function.update fso.volumes vd.voluId (some vol)
          totalSize := (fso.totalSize + vol.size) % offMod }

/-- `hammer2_get_volume_attr`: the volume that holds an offset. -/
def UserOndisk.getVolume (fso : UserOndisk) (offset : Nat) : Option UserVolume :=
  (List.range fso.nvolumes).findSome? fun i =>
    (fso.volumes i).filter fun vol =>
      vol.offset ≤ offset ∧ offset < (vol.offset + vol.size) % offMod

/-- `hammer2_read_root_volume_header`. -/
def UserOndisk.rootHeader (fso : UserOndisk) : Option VolumeData :=
  (fso.getVolume 0).bind fun vol =>
    (userReadVolumeHeader vol.dev.size vol.dev.slots).map (·.2)

section Verify

variable (fso : UserOndisk)

/-- The ids of the installed volumes. -/
def UserOndisk.ids : List Nat := (List.range maxVolumes).filter fun i => (fso.volumes i).isSome

def UserOndisk.VerifyCommon : Prop :=
  fso.version.isSome ∧
  ∀ i ∈ fso.ids, ∀ vol ∈ fso.volumes i,
    (∀ j ∈ fso.ids, j < i → ∀ w ∈ fso.volumes j, w.dev.stat ≠ vol.dev.stat) ∧
    vol.offset ≠ offMod - 1 ∧ vol.size ≠ offMod - 1 ∧ vol.size ≤ vol.dev.size

def UserOndisk.Verify1 : Prop :=
  fso.ids.length = 1 ∧
  (∀ root ∈ fso.rootHeader, root.voluId = 0 ∧ root.nvolumes = 0 ∧ root.totalSize = 0 ∧
    ∀ i < maxVolumes, root.voluLoff i = 0) ∧
  (fso.volumes 0).isSome ∧
  ∀ vol ∈ fso.volumes 0, vol.offset = 0 ∧ vol.size % volumeAlign = 0

def UserOndisk.Verify2 : Prop :=
  fso.nvolumes = fso.ids.length ∧
  (∀ root ∈ fso.rootHeader, root.voluId = 0 ∧ root.nvolumes = fso.nvolumes ∧
    root.totalSize = fso.totalSize ∧ (∀ i < fso.ids.length, root.voluLoff i ≠ offMod - 1) ∧
    ∀ i < maxVolumes, fso.ids.length ≤ i → root.voluLoff i = offMod - 1) ∧
  ∀ i ∈ fso.ids, ∀ vol ∈ fso.volumes i,
    vol.offset % freemapLevel1Size = 0 ∧
    (if i = 0 then vol.offset = 0
      else (fso.volumes (i - 1)).isSome ∧
        ∀ prev ∈ fso.volumes (i - 1), vol.offset = (prev.offset + prev.size) % offMod) ∧
    (if i + 1 ≠ fso.nvolumes then
        freemapLevel1Size ≤ vol.size ∧ vol.size % freemapLevel1Size = 0
      else vol.size % volumeAlign = 0)

instance : Decidable fso.VerifyCommon := by
  unfold UserOndisk.VerifyCommon
  infer_instance

instance : Decidable fso.Verify1 := by
  unfold UserOndisk.Verify1
  infer_instance

instance : Decidable fso.Verify2 := by
  unfold UserOndisk.Verify2
  infer_instance

end Verify

/-- The tools' `hammer2_verify_volumes`. A file system without multiple volumes gets its volume count
here. -/
def verifyVolumes (fso : UserOndisk) : Option UserOndisk :=
  if ¬ fso.VerifyCommon then none
  else if (volVersionMultiVolumes : Int) ≤ intVersion (fso.version.getD 0) then
    if fso.Verify2 then some fso else none
  else if fso.Verify1 then some { fso with nvolumes := 1 } else none

/-- The tools' `hammer2_init_volumes`; `none` is an exit. -/
def userInitVolumes (devs : List UserDevice) : Option UserOndisk :=
  (devs.foldlM addVolume initOndisk).bind verifyVolumes

end Hammer2
