import Hammer2.CheckedArray
import Hammer2.UserVolumes

/-! The two `hammer2_init_volumes` with the array indexes that they use. `none` is an index outside
of its array. -/

namespace Hammer2

open CheckedArray

def VolumeData.voluLoffs (vd : VolumeData) : Arr Nat := ⟨maxVolumes, vd.voluLoff⟩

namespace Indexed

section Kernel

def volumes (s : InitState) : Arr KernelVolume := ⟨maxVolumes, s.volumes⟩

def initVolume (s : InitState) (e : Device) : Option (Except MountError InitState) :=
  match e.readVolumeHeader with
  | none => some (.error .einval)
  | some (zone, voldata) =>
    if maxVolumes ≤ voldata.voluId then some (.error .einval)
    else
      ((volumes s).read voldata.voluId).bind fun vol =>
        if vol.id ≠ -1 then some (.error .einval)
        else if s.common.getD voldata.common ≠ voldata.common then some (.error .enxio)
        else if voldata.version < 1 ∨ volVersionWip < voldata.version then some (.error .einval)
        else
          (voldata.voluLoffs.read voldata.voluId).bind fun offset =>
            ((volumes s).write voldata.voluId
                ⟨some e, voldata.voluId, offset, voldata.voluSize⟩).map fun volumes =>
              let s := { s with volumes := volumes.get, common := some voldata.common }
              if voldata.voluId = rootVolume then
                .ok { s with
                  rootvoldata := voldata, rootvolzone := some zone, rootvoldevvp := some e }
              else .ok s

/-- The loop over the devices. -/
def initLoop : List Device → InitState → Option (Except MountError InitState)
  | [], s => some (.ok s)
  | e :: devvpl, s =>
    (initVolume s e).bind fun
      | .error err => some (.error err)
      | .ok s => initLoop devvpl s

variable (volumes : Arr KernelVolume) (rootvoldata : VolumeData)

def verifyVolumesCommon : Option Bool :=
  if rootvoldata.voluId ≠ rootVolume then some false
  else allFrom (fun i => (volumes.read i).map fun vol => decide (vol.id ≠ -1 →
    vol.offset ≠ offMod - 1 ∧ vol.size ≠ offMod - 1 ∧ vol.size ≤ vol.mediasize ∧ vol.size ≠ 0))
      maxVolumes 0

/-- The volume count and the sum of the sizes. -/
def countVolumes : Option (Nat × Nat) :=
  foldFrom (fun i (nvolumes, totalSize) => (volumes.read i).map fun vol =>
    if vol.id ≠ -1 then (nvolumes + 1, (totalSize + vol.size) % offMod)
    else (nvolumes, totalSize)) maxVolumes 0 (0, 0)

def verifyVolumes1 : Option Bool :=
  (countVolumes volumes).bind fun (nvolumes, _) =>
    if nvolumes ≠ 1 then some false
    else if rootvoldata.nvolumes ≠ 0 then some false
    else if rootvoldata.totalSize ≠ 0 then some false
    else
      (allFrom (fun i => (rootvoldata.voluLoffs.read i).map fun off => decide (off = 0))
          maxVolumes 0).bind fun ok =>
        if ok then
          (volumes.read rootVolume).map fun vol =>
            decide (vol.id = 0 ∧ vol.offset = 0 ∧ vol.size % volumeAlign = 0)
        else some false

/-- A round of the last loop of `hammer2_verify_volumes_2`. -/
def verifyVolume (i : Nat) : Option Bool :=
  (volumes.read i).bind fun vol =>
    if vol.id = -1 then some true
    else if vol.offset % freemapLevel1Size ≠ 0 then some false
    else
      (if i = 0 then some (decide (vol.offset = 0))
        else (volumes.read (i - 1)).map fun prev =>
          decide (prev.id < vol.id ∧ vol.offset = (prev.offset + prev.size) % offMod)).bind
        fun ok =>
          if ok then
            some (decide (if (i : Int) ≠ rootvoldata.nvolumes - 1 then
              freemapLevel1Size ≤ vol.size ∧ vol.size % freemapLevel1Size = 0
              else vol.size % volumeAlign = 0))
          else some false

def verifyVolumes2 : Option Bool :=
  (countVolumes volumes).bind fun (nvolumes, totalSize) =>
    if rootvoldata.nvolumes ≠ nvolumes then some false
    else if rootvoldata.totalSize ≠ totalSize then some false
    else
      (allFrom (fun i => (rootvoldata.voluLoffs.read i).map fun off => decide (off ≠ offMod - 1))
          nvolumes 0).bind fun ok =>
        if ok then
          (allFrom (fun i => (rootvoldata.voluLoffs.read i).map fun off =>
              decide (off = offMod - 1)) (maxVolumes - nvolumes) nvolumes).bind fun ok =>
            if ok then allFrom (verifyVolume volumes rootvoldata) maxVolumes 0 else some false
        else some false

def verifyVolumes : Option Bool :=
  (verifyVolumesCommon volumes rootvoldata).bind fun ok =>
    if ok then
      if volVersionMultiVolumes ≤ rootvoldata.version then verifyVolumes2 volumes rootvoldata
      else verifyVolumes1 volumes rootvoldata
    else some false

def initVolumes (devvpl : List Device) : Option (Except MountError InitState) :=
  (initLoop devvpl initState).bind fun
    | .error err => some (.error err)
    | .ok s =>
      if s.rootvoldata.version = 0 then some (.error .einval)
      else (verifyVolumes (Indexed.volumes s) s.rootvoldata).map fun ok =>
        if ok then .ok s else .error .einval

end Kernel

section User

def userVolumes (fso : UserOndisk) : Arr (Option UserVolume) := ⟨maxVolumes, fso.volumes⟩

/-- `hammer2_add_volume`; the inner `none` is `errx`. -/
def addVolume (fso : UserOndisk) (d : UserDevice) : Option (Option UserOndisk) :=
  match userReadVolumeHeader d.size d.slots with
  | none => some none
  | some (_, vd) =>
    if maxVolumes ≤ vd.voluId then some none
    else
      ((userVolumes fso).read vd.voluId).bind fun vol =>
        if vol.isSome then some none
        else
          match fso.common vd with
          | none => some none
          | some fso =>
            (vd.voluLoffs.read vd.voluId).bind fun offset =>
              ((userVolumes fso).write vd.voluId
                  (some ⟨d, vd.voluId, offset, vd.voluSize⟩)).map fun volumes =>
                some { fso with
                  volumes := volumes.get
                  totalSize := (fso.totalSize + vd.voluSize) % offMod }

def addLoop : List UserDevice → UserOndisk → Option (Option UserOndisk)
  | [], fso => some (some fso)
  | d :: devs, fso =>
    (addVolume fso d).bind fun
      | none => some none
      | some fso => addLoop devs fso

/-- `hammer2_get_volume_attr`. The volume count is the one of the header. -/
def getVolume (fso : UserOndisk) (offset : Nat) : Option (Except UserVolume Unit) :=
  runFrom (fun i _ => ((userVolumes fso).read i).map fun
    | none => .ok ()
    | some vol =>
      if vol.offset ≤ offset ∧ offset < (vol.offset + vol.size) % offMod then .error vol
      else .ok ()) fso.nvolumes 0 ()

/-- `hammer2_read_root_volume_header` -/
def rootHeader (fso : UserOndisk) : Option (Option VolumeData) :=
  (getVolume fso 0).map fun
    | .error vol => (userReadVolumeHeader vol.dev.size vol.dev.slots).map (·.2)
    | .ok () => none

variable (fso : UserOndisk) (root : Option VolumeData)

/-- The initialised volumes are counted. -/
def userCount : Option Nat :=
  foldFrom (fun i n => ((userVolumes fso).read i).map fun vol =>
    if vol.isSome then n + 1 else n) maxVolumes 0 0

/-- A round of the loop of the tools' `hammer2_verify_volumes_common`. `st` has an entry for every
volume that was counted. -/
def checkVolume (i : Nat) (st : Arr (Nat × Nat)) : Option (Except Unit (Arr (Nat × Nat))) :=
  ((userVolumes fso).read i).bind fun
    | none => some (.ok st)
    | some vol =>
      (st.write i vol.dev.stat).bind fun st =>
        (allFrom (fun j => (st.read i).bind fun a => (st.read j).map fun b =>
            decide (a ≠ b)) i 0).map fun unique =>
          if unique = true ∧ vol.offset ≠ offMod - 1 ∧ vol.size ≠ offMod - 1 ∧
              vol.size ≤ vol.dev.size then .ok st
          else .error ()

def userVerifyCommon : Option Bool :=
  if fso.version = none then some false
  else
    (userCount fso).bind fun nvolumes =>
      (runFrom (checkVolume fso) maxVolumes 0 ⟨nvolumes, fun _ => (0, 0)⟩).map fun
        | .ok _ => true
        | .error () => false

/-- The checks of `hammer2_verify_volumes_1` on the header. -/
def userCheckRoot1 : Option Bool :=
  match root with
  | none => some true
  | some root =>
    if root.voluId ≠ 0 then some false
    else if root.nvolumes ≠ 0 then some false
    else if root.totalSize ≠ 0 then some false
    else allFrom (fun i => (root.voluLoffs.read i).map fun off => decide (off = 0)) maxVolumes 0

/-- The checks of `hammer2_verify_volumes_2` on the header. -/
def userCheckRoot2 (nvolumes : Nat) : Option Bool :=
  match root with
  | none => some true
  | some root =>
    if root.voluId ≠ rootVolume then some false
    else if root.nvolumes ≠ fso.nvolumes then some false
    else if root.totalSize ≠ fso.totalSize then some false
    else
      (allFrom (fun i => (root.voluLoffs.read i).map fun off => decide (off ≠ offMod - 1))
          nvolumes 0).bind fun ok =>
        if ok then
          allFrom (fun i => (root.voluLoffs.read i).map fun off => decide (off = offMod - 1))
            (maxVolumes - nvolumes) nvolumes
        else some false

def userVerify1 : Option Bool :=
  (userCount fso).bind fun nvolumes =>
    if nvolumes ≠ 1 then some false
    else
      (userCheckRoot1 root).bind fun ok =>
        if ok then
          ((userVolumes fso).read 0).map fun vol => vol.elim false fun vol =>
            decide (vol.id = 0 ∧ vol.offset = 0 ∧ vol.size % volumeAlign = 0)
        else some false

/-- A round of the last loop of the tools' `hammer2_verify_volumes_2`. -/
def userVerifyVolume (i : Nat) : Option Bool :=
  ((userVolumes fso).read i).bind fun
    | none => some true
    | some vol =>
      if vol.offset % freemapLevel1Size ≠ 0 then some false
      else
        (if i = 0 then some (decide (vol.offset = 0))
          else ((userVolumes fso).read (i - 1)).map fun prev => prev.elim false fun prev =>
            decide (vol.id = prev.id + 1 ∧ vol.offset = (prev.offset + prev.size) % offMod)).bind
          fun ok =>
            if ok then
              some (decide (if i + 1 ≠ fso.nvolumes then
                freemapLevel1Size ≤ vol.size ∧ vol.size % freemapLevel1Size = 0
                else vol.size % volumeAlign = 0))
            else some false

def userVerify2 : Option Bool :=
  (userCount fso).bind fun nvolumes =>
    if fso.nvolumes ≠ nvolumes then some false
    else
      (userCheckRoot2 fso root nvolumes).bind fun ok =>
        if ok then allFrom (userVerifyVolume fso) maxVolumes 0 else some false

def userVerifyVolumes : Option (Option UserOndisk) :=
  (userVerifyCommon fso).bind fun ok =>
    if ok then
      if (volVersionMultiVolumes : Int) ≤ intVersion (fso.version.getD 0) then
        (userVerify2 fso root).map fun ok => if ok then some fso else none
      else (userVerify1 fso root).map fun ok => if ok then some { fso with nvolumes := 1 } else none
    else some none

/-- The tools' `hammer2_init_volumes`; the inner `none` is an exit. -/
def userInitVolumes (devs : List UserDevice) : Option (Option UserOndisk) :=
  (addLoop devs initOndisk).bind fun
    | none => some none
    | some fso => (rootHeader fso).bind fun root => userVerifyVolumes fso root

end User

end Indexed

section Kernel

theorem read_volumes {s : InitState} {i : Nat} (h : i < maxVolumes) :
    (Indexed.volumes s).read i = some (s.volumes i) := Arr.read_of_lt h

theorem read_voluLoffs {vd : VolumeData} {i : Nat} (h : i < maxVolumes) :
    vd.voluLoffs.read i = some (vd.voluLoff i) := Arr.read_of_lt h

theorem indexed_initVolume (s : InitState) (e : Device) :
    Indexed.initVolume s e = some (initVolume s e) := by
  unfold Indexed.initVolume initVolume
  rcases e.readVolumeHeader with _ | ⟨zone, voldata⟩
  · rfl
  · dsimp only
    by_cases hid : maxVolumes ≤ voldata.voluId
    · rw [if_pos hid, if_pos hid]
    · have hlt : voldata.voluId < maxVolumes := Nat.lt_of_not_le hid
      rw [if_neg hid, if_neg hid, read_volumes hlt, read_voluLoffs hlt, Option.bind_some,
        Option.bind_some]
      unfold Indexed.volumes
      rw [Arr.write_of_lt hlt]
      by_cases hset : (s.volumes voldata.voluId).id ≠ -1
      · rw [if_pos hset, if_pos hset]
      · rw [if_neg hset, if_neg hset]
        by_cases hcommon : s.common.getD voldata.common ≠ voldata.common
        · rw [if_pos hcommon, if_pos hcommon]
        · rw [if_neg hcommon, if_neg hcommon]
          by_cases hver : voldata.version < 1 ∨ volVersionWip < voldata.version
          · rw [if_pos hver, if_pos hver]
          · rw [if_neg hver, if_neg hver]
            rfl

theorem indexed_initLoop (devvpl : List Device) (s : InitState) :
    Indexed.initLoop devvpl s = some (devvpl.foldlM initVolume s) := by
  induction devvpl generalizing s with
  | nil => rfl
  | cons e devvpl ih =>
    rw [Indexed.initLoop, indexed_initVolume, Option.bind_some, List.foldlM_cons]
    cases initVolume s e with
    | error err => rfl
    | ok s' => exact ih s'

variable {volumes : Nat → KernelVolume} {rootvoldata : VolumeData}

theorem indexed_verifyVolumesCommon :
    Decides (Indexed.verifyVolumesCommon ⟨maxVolumes, volumes⟩ rootvoldata)
      (VerifyVolumesCommon volumes rootvoldata) := by
  unfold Indexed.verifyVolumesCommon VerifyVolumesCommon
  apply (Decides.unless fun _ => allFrom_zero_decides fun j hj => ?_).congr
  · exact and_congr_left' not_not
  · rw [Arr.read_of_lt hj]
    exact decides_decide

/-- Both numbers in one fold over the initialised volumes. -/
theorem foldl_countVolumes (volumes : Nat → KernelVolume) (l : List Nat) (count total : Nat) :
    l.foldl (fun (p : Nat × Nat) i => (p.1 + 1, (p.2 + (volumes i).size) % offMod)) (count, total) =
      (count + l.length, l.foldl (fun total i => (total + (volumes i).size) % offMod) total) := by
  induction l generalizing count total with
  | nil => rfl
  | cons i l ih =>
    rw [List.foldl_cons, List.foldl_cons, ih, List.length_cons, Nat.add_right_comm]
    rfl

theorem indexed_countVolumes :
    Indexed.countVolumes ⟨maxVolumes, volumes⟩ =
      some ((initialized volumes).length, sumSizes volumes (initialized volumes)) := by
  have hfold : Indexed.countVolumes ⟨maxVolumes, volumes⟩ =
      some ((List.range' 0 maxVolumes).foldl (fun (p : Nat × Nat) i =>
        if (volumes i).id ≠ -1 then (p.1 + 1, (p.2 + (volumes i).size) % offMod) else p)
        (0, 0)) := by
    apply foldFrom_eq
    intro j p _ hj
    have hj' : j < maxVolumes := by omega
    rw [Arr.read_of_lt hj']
    rfl
  have hfilter := foldl_countVolumes volumes (initialized volumes) 0 0
  rw [initialized, List.foldl_filter, List.range_eq_range'] at hfilter
  rw [hfold]
  simp only [decide_eq_true_eq] at hfilter
  rw [hfilter, Nat.zero_add, ← List.range_eq_range']
  rfl

theorem indexed_verifyVolumes1 :
    Decides (Indexed.verifyVolumes1 ⟨maxVolumes, volumes⟩ rootvoldata)
      (VerifyVolumes1 volumes rootvoldata) := by
  have hloffs : Decides (allFrom (fun i => (rootvoldata.voluLoffs.read i).map fun off =>
      decide (off = 0)) maxVolumes 0) (∀ i < maxVolumes, rootvoldata.voluLoff i = 0) := by
    apply allFrom_zero_decides
    intro j hj
    rw [read_voluLoffs hj]
    exact decides_decide
  have hroot : rootVolume < maxVolumes := by decide
  unfold Indexed.verifyVolumes1 VerifyVolumes1
  rw [indexed_countVolumes, Option.bind_some]
  dsimp only
  rw [Arr.read_of_lt hroot]
  apply (Decides.unless fun _ => Decides.unless fun _ => Decides.unless fun _ =>
    hloffs.and fun _ => decides_decide).congr
  simp only [ne_eq, not_not]

theorem indexed_verifyVolume (volumes : Nat → KernelVolume) (rootvoldata : VolumeData) {i : Nat}
    (hi : i < maxVolumes) :
    Decides (Indexed.verifyVolume ⟨maxVolumes, volumes⟩ rootvoldata i)
      ((volumes i).id ≠ -1 → (volumes i).offset % freemapLevel1Size = 0 ∧
        (if i = 0 then (volumes i).offset = 0
          else (volumes (i - 1)).id < (volumes i).id ∧ (volumes i).offset =
            ((volumes (i - 1)).offset + (volumes (i - 1)).size) % offMod) ∧
        (if (i : Int) ≠ rootvoldata.nvolumes - 1 then
            freemapLevel1Size ≤ (volumes i).size ∧ (volumes i).size % freemapLevel1Size = 0
          else (volumes i).size % volumeAlign = 0)) := by
  unfold Indexed.verifyVolume
  rw [Arr.read_of_lt hi, Option.bind_some]
  dsimp only
  by_cases hid : (volumes i).id = -1
  · rw [if_pos hid]
    exact decides_true fun h => absurd hid h
  · rw [if_neg hid]
    have hprev : i - 1 < maxVolumes := by omega
    rw [Arr.read_of_lt hprev]
    apply (Decides.unless fun _ => Decides.and (Decides.ite (fun _ => decides_decide)
      fun _ => decides_decide) fun _ => decides_decide).congr
    simp only [ne_eq, not_not, hid, not_false_eq_true, forall_const]

theorem indexed_verifyVolumes2 :
    Decides (Indexed.verifyVolumes2 ⟨maxVolumes, volumes⟩ rootvoldata)
      (VerifyVolumes2 volumes rootvoldata) := by
  have hcount : (initialized volumes).length ≤ maxVolumes := by
    have hle := List.length_filter_le (fun i => decide ((volumes i).id ≠ -1))
      (List.range maxVolumes)
    rw [List.length_range] at hle
    exact hle
  have hset : Decides (allFrom (fun i => (rootvoldata.voluLoffs.read i).map fun off =>
      decide (off ≠ offMod - 1)) (initialized volumes).length 0)
      (∀ i < (initialized volumes).length, rootvoldata.voluLoff i ≠ offMod - 1) := by
    apply allFrom_zero_decides
    intro j hj
    rw [read_voluLoffs (by omega)]
    exact decides_decide
  have hunset : Decides (allFrom (fun i => (rootvoldata.voluLoffs.read i).map fun off =>
      decide (off = offMod - 1)) (maxVolumes - (initialized volumes).length)
        (initialized volumes).length)
      (∀ i < maxVolumes, (initialized volumes).length ≤ i →
        rootvoldata.voluLoff i = offMod - 1) := by
    apply (allFrom_decides (P := fun i => rootvoldata.voluLoff i = offMod - 1) ?_).congr
    · constructor
      · intro h i hi hle
        exact h i hle (by omega)
      · intro h i hle hi
        exact h i (by omega) hle
    · intro j _ hj
      rw [read_voluLoffs (by omega)]
      exact decides_decide
  have hvols := allFrom_zero_decides fun i hi =>
    indexed_verifyVolume volumes rootvoldata (i := i) hi
  unfold Indexed.verifyVolumes2 VerifyVolumes2
  rw [indexed_countVolumes, Option.bind_some]
  apply (Decides.unless fun _ => Decides.unless fun _ => hset.and fun _ =>
    hunset.and fun _ => hvols).congr
  simp only [ne_eq, not_not]

theorem indexed_verifyVolumes (volumes : Nat → KernelVolume) (rootvoldata : VolumeData) :
    Decides (Indexed.verifyVolumes ⟨maxVolumes, volumes⟩ rootvoldata)
      (VerifyVolumes volumes rootvoldata) :=
  indexed_verifyVolumesCommon.and fun _ =>
    Decides.ite (fun _ => indexed_verifyVolumes2) fun _ => indexed_verifyVolumes1

end Kernel

/-- The driver stays inside of its arrays for every list of devices. -/
theorem indexed_initVolumes (devvpl : List Device) :
    Indexed.initVolumes devvpl = some (initVolumes devvpl) := by
  unfold Indexed.initVolumes initVolumes
  rw [indexed_initLoop, Option.bind_some]
  cases devvpl.foldlM initVolume initState with
  | error err => rfl
  | ok s =>
    dsimp only
    by_cases hver : s.rootvoldata.version = 0
    · rw [if_pos hver, if_pos hver]
    · rw [if_neg hver, if_neg hver]
      obtain ⟨ok, hok, hiff⟩ := indexed_verifyVolumes s.volumes s.rootvoldata
      have hverify : Indexed.verifyVolumes (Indexed.volumes s) s.rootvoldata = some ok := hok
      rw [hverify, Option.map_some]
      cases ok with
      | false => rw [if_neg (mt hiff.mpr Bool.false_ne_true)]; rfl
      | true => rw [if_pos (hiff.mp rfl)]; rfl

end Hammer2
