import Hammer2.VolumeIndexes

/-! Which devices the tools and the driver open. -/

namespace Hammer2

open ByteImage CheckedArray

/-- The device as the tools read it. A `read` that ends behind the device is short, and its header
copy is skipped; the driver gets zeros there. -/
def Device.asUser (e : Device) : UserDevice :=
  ⟨e.stat, e.size, fun z => if z * zoneBytes + pbufBytes ≤ e.size then some (e.header z) else none⟩

def Device.userReadVolumeHeader (e : Device) : Option (Nat × VolumeData) :=
  Hammer2.userReadVolumeHeader e.asUser.size e.asUser.slots

/-- The volumes of a result: offset and size. -/
def UserOndisk.extent (fso : UserOndisk) (i : Nat) : Option (Nat × Nat) :=
  (fso.volumes i).map fun vol => (vol.offset, vol.size)

def InitState.extent (s : InitState) (i : Nat) : Option (Nat × Nat) :=
  if (s.volumes i).id = -1 then none else some ((s.volumes i).offset, (s.volumes i).size)

/-- Both sides stay inside of their arrays and open the device as the same volume, or both refuse
it. -/
def OpenAlike (e : Device) : Prop :=
  match Indexed.userInitVolumes [e.asUser], Indexed.initVolumes [e] with
  | some none, some (.error _) => True
  | some (some fso), some (.ok s) => ∀ i < maxVolumes, fso.extent i = s.extent i
  | _, _ => False

section Headers

variable (vd : VolumeData) (size : Nat)

/-- The only volume holds offset 0. -/
def VolumeData.HoldsRoot : Prop := vd.voluLoff vd.voluId = 0 ∧ 0 < vd.voluSize

/-- The volume count leaves `hammer2_get_volume_attr` inside of the table, and a header that gets as
far as `hammer2_verify_volumes_common` has the id 0. -/
def VolumeData.IndexesInside : Prop :=
  (vd.nvolumes ≤ maxVolumes ∨ vd.HoldsRoot) ∧ (intVersion vd.version = -1 ∨ vd.voluId = 0)

/-- What both sides want of the only volume. -/
def VolumeData.Fits : Prop :=
  vd.voluId = 0 ∧ vd.voluLoff 0 = 0 ∧ vd.voluSize ≤ size ∧ vd.voluSize % volumeAlign = 0

/-- The header of a file system with multiple volumes that has only one. -/
def VolumeData.MultiHeader : Prop :=
  vd.totalSize = vd.voluSize ∧ ∀ i < maxVolumes, 1 ≤ i → vd.voluLoff i = offMod - 1

def VolumeData.SingleHeader : Prop :=
  vd.totalSize = 0 ∧ ∀ i < maxVolumes, vd.voluLoff i = 0

/-- The headers that the tools take. -/
def VolumeData.UserTakes : Prop :=
  vd.Fits size ∧ intVersion vd.version ≠ -1 ∧
  if (volVersionMultiVolumes : Int) ≤ intVersion vd.version then
    vd.nvolumes = 1 ∧ (0 < vd.voluSize → vd.MultiHeader)
  else 0 < vd.voluSize → vd.nvolumes = 0

/-- The headers that the driver takes. -/
def VolumeData.DriverTakes : Prop :=
  vd.Fits size ∧ 0 < vd.voluSize ∧ 1 ≤ vd.version ∧ vd.version ≤ volVersionWip ∧
  if volVersionMultiVolumes ≤ vd.version then vd.nvolumes = 1 ∧ vd.MultiHeader
  else vd.nvolumes = 0 ∧ vd.SingleHeader

end Headers

section Driver

variable {e : Device} {vd : VolumeData}

/-- The table of the driver with one volume. -/
def oneVolume (e : Device) (vd : VolumeData) : Nat → KernelVolume :=
  Function.update (fun _ => emptyVolume) 0 ⟨some e, 0, vd.voluLoff 0, vd.voluSize⟩

theorem oneVolume_zero : oneVolume e vd 0 = ⟨some e, 0, vd.voluLoff 0, vd.voluSize⟩ :=
  Function.update_self ..

theorem oneVolume_ne {i : Nat} (h : i ≠ 0) : oneVolume e vd i = emptyVolume :=
  Function.update_of_ne h ..

theorem oneVolume_initialized : initialized (oneVolume e vd) = [0] := by
  apply initialized_eq (n := 1) (by decide)
  · intro i hi
    obtain rfl : i = 0 := by omega
    rw [oneVolume_zero]
    rfl
  · intro i hi
    exact oneVolume_ne (by omega)

theorem voluSize_lt_offMod (vd : VolumeData) : vd.voluSize < offMod := getLE_lt vd 0x28 8

theorem forall_oneVolume {P : Nat → KernelVolume → Prop} :
    (∀ i < maxVolumes, (oneVolume e vd i).id ≠ -1 → P i (oneVolume e vd i)) ↔
      P 0 ⟨some e, 0, vd.voluLoff 0, vd.voluSize⟩ := by
  constructor
  · intro h
    have hzero := h 0 (by decide)
    rw [oneVolume_zero] at hzero
    exact hzero (show (0 : Int) ≠ -1 by decide)
  · intro h i _ hid
    rcases Nat.eq_zero_or_pos i with rfl | hpos
    · rw [oneVolume_zero]
      exact h
    · rw [oneVolume_ne (Nat.ne_of_gt hpos)] at hid
      exact absurd rfl hid

/-- An aligned size is not -1. -/
theorem aligned_ne {size : Nat} (h : size % volumeAlign = 0) : size ≠ offMod - 1 := by
  rintro rfl
  exact absurd h (by decide)

theorem verifyVolumes_oneVolume :
    VerifyVolumes (oneVolume e vd) vd ↔
      vd.Fits e.size ∧ 0 < vd.voluSize ∧
        if volVersionMultiVolumes ≤ vd.version then vd.nvolumes = 1 ∧ vd.MultiHeader
        else vd.nvolumes = 0 ∧ vd.SingleHeader := by
  have hcommon : VerifyVolumesCommon (oneVolume e vd) vd ↔ vd.voluId = 0 ∧
      vd.voluLoff 0 ≠ offMod - 1 ∧ vd.voluSize ≠ offMod - 1 ∧ vd.voluSize ≤ e.size ∧
        vd.voluSize ≠ 0 := by
    unfold VerifyVolumesCommon
    exact and_congr_right' (forall_oneVolume (P := fun _ vol => vol.offset ≠ offMod - 1 ∧
      vol.size ≠ offMod - 1 ∧ vol.size ≤ vol.mediasize ∧ vol.size ≠ 0))
  have hone : VerifyVolumes1 (oneVolume e vd) vd ↔ vd.nvolumes = 0 ∧ vd.SingleHeader ∧
      vd.voluLoff 0 = 0 ∧ vd.voluSize % volumeAlign = 0 := by
    unfold VerifyVolumes1 VolumeData.SingleHeader
    rw [oneVolume_initialized, show rootVolume = 0 from rfl, oneVolume_zero]
    simp only [List.length_singleton, true_and, and_assoc]
  have htwo : VerifyVolumes2 (oneVolume e vd) vd ↔ vd.nvolumes = 1 ∧
      vd.totalSize = vd.voluSize ∧ vd.voluLoff 0 ≠ offMod - 1 ∧
        (∀ i < maxVolumes, 1 ≤ i → vd.voluLoff i = offMod - 1) ∧
          vd.voluLoff 0 = 0 ∧ vd.voluSize % volumeAlign = 0 := by
    have hsum : sumSizes (oneVolume e vd) [0] = vd.voluSize := by
      show (0 + (oneVolume e vd 0).size) % offMod = _
      rw [oneVolume_zero, Nat.zero_add, Nat.mod_eq_of_lt (voluSize_lt_offMod vd)]
    unfold VerifyVolumes2
    rw [oneVolume_initialized, hsum, List.length_singleton]
    apply and_congr_right
    intro hcount
    apply and_congr_right'
    apply and_congr
    · constructor
      · intro h
        exact h 0 Nat.zero_lt_one
      · intro h i hi
        obtain rfl : i = 0 := by omega
        exact h
    · apply and_congr_right'
      rw [forall_oneVolume (P := fun i vol => vol.offset % freemapLevel1Size = 0 ∧
        (if i = 0 then vol.offset = 0
          else (oneVolume e vd (i - 1)).id < vol.id ∧ vol.offset =
            ((oneVolume e vd (i - 1)).offset + (oneVolume e vd (i - 1)).size) % offMod) ∧
        (if (i : Int) ≠ vd.nvolumes - 1 then
            freemapLevel1Size ≤ vol.size ∧ vol.size % freemapLevel1Size = 0
          else vol.size % volumeAlign = 0))]
      dsimp only
      rw [if_pos rfl, if_neg (by rw [hcount]; decide)]
      constructor
      · intro h
        exact h.2
      · intro h
        exact ⟨by rw [h.1, Nat.zero_mod], h⟩
  have hzero : vd.voluLoff 0 = 0 → vd.voluLoff 0 ≠ offMod - 1 := by
    intro h
    rw [h]
    decide
  unfold VerifyVolumes VolumeData.Fits VolumeData.MultiHeader
  rw [hcommon, hone, htwo]
  constructor
  · rintro ⟨⟨hid, -, -, hle, hne⟩, h⟩
    split at h
    next hver =>
      rw [if_pos hver]
      exact ⟨⟨hid, h.2.2.2.2.1, hle, h.2.2.2.2.2⟩, Nat.pos_of_ne_zero hne, h.1, h.2.1, h.2.2.2.1⟩
    next hver =>
      rw [if_neg hver]
      exact ⟨⟨hid, h.2.2.1, hle, h.2.2.2⟩, Nat.pos_of_ne_zero hne, h.1, h.2.1⟩
  · rintro ⟨⟨hid, hoff, hle, halign⟩, hpos, h⟩
    refine ⟨⟨hid, hzero hoff, aligned_ne halign, hle, Nat.ne_of_gt hpos⟩, ?_⟩
    split at h
    next hver =>
      rw [if_pos hver]
      exact ⟨h.1, h.2.1, hzero hoff, h.2.2, hoff, halign⟩
    next hver =>
      rw [if_neg hver]
      exact ⟨h.1, h.2, hoff, halign⟩

/-- The driver opens a device just when it takes the header it has picked. -/
theorem initVolumes_single {zone : Nat} (h : e.readVolumeHeader = some (zone, vd)) :
    (vd.DriverTakes e.size ∧ ∃ s, initVolumes [e] = .ok s ∧ s.volumes = oneVolume e vd) ∨
      (¬ vd.DriverTakes e.size ∧ ∃ err, initVolumes [e] = .error err) := by
  have hfold : [e].foldlM initVolume initState = initVolume initState e := by
    rw [List.foldlM_cons]
    exact bind_pure _
  have hempty : ¬ (initState.volumes vd.voluId).id ≠ -1 := not_not.mpr rfl
  have hcommon : ¬ initState.common.getD vd.common ≠ vd.common := not_not.mpr rfl
  unfold initVolumes
  rw [hfold]
  unfold initVolume
  rw [h]
  dsimp only
  rw [if_neg hempty, if_neg hcommon]
  by_cases hlarge : maxVolumes ≤ vd.voluId
  · refine Or.inr ⟨fun ht => ?_, .einval, ?_⟩
    · rw [ht.1.1] at hlarge
      exact absurd hlarge (by decide)
    · rw [if_pos hlarge]
  · rw [if_neg hlarge]
    by_cases hver : vd.version < 1 ∨ volVersionWip < vd.version
    · refine Or.inr ⟨fun ht => ?_, .einval, ?_⟩
      · have hmin := ht.2.2.1
        have hmax := ht.2.2.2.1
        omega
      · rw [if_pos hver]
    · rw [if_neg hver]
      by_cases hid : vd.voluId = rootVolume
      · have hne : ¬ vd.version = 0 := by omega
        have htable : Function.update initState.volumes vd.voluId
            (⟨some e, vd.voluId, vd.voluLoff vd.voluId, vd.voluSize⟩ : KernelVolume) =
              oneVolume e vd := by
          rw [hid]
          rfl
        rw [if_pos hid]
        dsimp only
        rw [if_neg hne, htable]
        have htakes : VerifyVolumes (oneVolume e vd) vd ↔ vd.DriverTakes e.size := by
          rw [verifyVolumes_oneVolume]
          unfold VolumeData.DriverTakes
          constructor
          · rintro ⟨hfits, hpos, h⟩
            exact ⟨hfits, hpos, by omega, by omega, h⟩
          · rintro ⟨hfits, hpos, -, -, h⟩
            exact ⟨hfits, hpos, h⟩
        by_cases hv : VerifyVolumes (oneVolume e vd) vd
        · exact Or.inl ⟨htakes.mp hv, _, if_pos hv, rfl⟩
        · exact Or.inr ⟨mt htakes.mpr hv, _, if_neg hv⟩
      · rw [if_neg hid]
        exact Or.inr ⟨fun ht => hid ht.1.1, .einval, if_pos rfl⟩

theorem initVolumes_unread (h : e.readVolumeHeader = none) :
    ∃ err, initVolumes [e] = .error err := by
  refine ⟨.einval, ?_⟩
  unfold initVolumes
  rw [List.foldlM_cons]
  unfold initVolume
  rw [h]
  rfl

end Driver

section Tools

variable {d : UserDevice} {vd : VolumeData}

/-- What the tools have after they added their only device. -/
def addedOndisk (d : UserDevice) (vd : VolumeData) : UserOndisk where
  volumes := Function.update (fun _ => none) vd.voluId
    (some ⟨d, vd.voluId, vd.voluLoff vd.voluId, vd.voluSize⟩)
  version := if intVersion vd.version = -1 then none else some vd.version
  nvolumes := vd.nvolumes
  fsid := vd.fsid
  fstype := vd.fstype
  totalSize := (0 + vd.voluSize) % offMod

theorem indexed_addVolume_single {zone : Nat}
    (h : userReadVolumeHeader d.size d.slots = some (zone, vd)) (hid : vd.voluId < maxVolumes) :
    Indexed.addVolume initOndisk d = some (some (addedOndisk d vd)) := by
  have hread : (Indexed.userVolumes initOndisk).read vd.voluId = some none := Arr.read_of_lt hid
  have hcommon : initOndisk.common vd = some
      { initOndisk with
        version := if intVersion vd.version = -1 then none else some vd.version
        nvolumes := vd.nvolumes
        fsid := vd.fsid
        fstype := vd.fstype } := if_pos rfl
  unfold Indexed.addVolume
  rw [h]
  dsimp only
  rw [if_neg (Nat.not_le.mpr hid), hread, Option.bind_some, hcommon]
  dsimp only
  rw [if_neg (by decide), read_voluLoffs hid, Option.bind_some]
  unfold Indexed.userVolumes
  rw [Arr.write_of_lt hid]
  rfl

theorem added_self (d : UserDevice) (vd : VolumeData) : (addedOndisk d vd).volumes vd.voluId =
    some ⟨d, vd.voluId, vd.voluLoff vd.voluId, vd.voluSize⟩ := by
  unfold addedOndisk
  dsimp only
  rw [Function.update_self]

theorem added_ne {i : Nat} (h : i ≠ vd.voluId) : (addedOndisk d vd).volumes i = none := by
  unfold addedOndisk
  dsimp only
  rw [Function.update_of_ne h]

theorem added_read {i : Nat} (h : i < maxVolumes) :
    (Indexed.userVolumes (addedOndisk d vd)).read i = some ((addedOndisk d vd).volumes i) :=
  Arr.read_of_lt h

/-- What a slot contributes to the search for the volume at offset 0. -/
def rootAttr : Option UserVolume → Except UserVolume Unit
  | none => .ok ()
  | some vol =>
    if vol.offset ≤ 0 ∧ 0 < (vol.offset + vol.size) % offMod then .error vol else .ok ()

/-- The walk of `hammer2_get_volume_attr` over a table with one volume. -/
theorem added_getVolume (hid : vd.voluId < maxVolumes) :
    (vd.HoldsRoot → vd.voluId < vd.nvolumes → Indexed.getVolume (addedOndisk d vd) 0 =
      some (.error ⟨d, vd.voluId, vd.voluLoff vd.voluId, vd.voluSize⟩)) ∧
    (¬ (vd.HoldsRoot ∧ vd.voluId < vd.nvolumes) → vd.nvolumes ≤ maxVolumes →
      Indexed.getVolume (addedOndisk d vd) 0 = some (.ok ())) ∧
    (¬ vd.HoldsRoot → maxVolumes < vd.nvolumes →
      Indexed.getVolume (addedOndisk d vd) 0 = none) := by
  have hmod : vd.voluSize % offMod = vd.voluSize := Nat.mod_eq_of_lt (voluSize_lt_offMod vd)
  have hholds : (vd.voluLoff vd.voluId ≤ 0 ∧
      0 < (vd.voluLoff vd.voluId + vd.voluSize) % offMod) ↔ vd.HoldsRoot := by
    unfold VolumeData.HoldsRoot
    constructor
    · rintro ⟨hoff, hpos⟩
      have hzero := Nat.le_zero.mp hoff
      rw [hzero, Nat.zero_add, hmod] at hpos
      exact ⟨hzero, hpos⟩
    · rintro ⟨hoff, hpos⟩
      rw [hoff, Nat.zero_add, hmod]
      exact ⟨Nat.le_refl 0, hpos⟩
  have hother : ∀ j, j < maxVolumes → (j = vd.voluId → ¬ vd.HoldsRoot) →
      ((Indexed.userVolumes (addedOndisk d vd)).read j).map rootAttr = some (.ok ()) := by
    intro j hj hne
    rw [added_read hj, Option.map_some]
    by_cases hjid : j = vd.voluId
    · rw [hjid, added_self]
      unfold rootAttr
      exact congrArg some (if_neg fun h => hne hjid (hholds.mp h))
    · rw [added_ne hjid]
      rfl
  unfold Indexed.getVolume
  refine ⟨?_, ?_, ?_⟩
  · intro hroot hlt
    obtain ⟨n, hn⟩ := Nat.exists_eq_add_of_lt hlt
    have hn' : (addedOndisk d vd).nvolumes = vd.voluId + (n + 1) := hn
    rw [hn', runFrom_skip]
    · apply runFrom_error
      rw [Nat.zero_add, added_read hid, added_self]
      exact congrArg some (if_pos (hholds.mpr hroot))
    · intro j _ hj
      exact hother j (by omega) fun h => by omega
  · intro hroot hcount
    apply runFrom_idle
    intro j _ hj
    rw [Nat.zero_add] at hj
    have hj' : j < vd.nvolumes := hj
    refine hother j (by omega) ?_
    rintro rfl h
    exact hroot ⟨h, hj'⟩
  · intro hroot hcount
    obtain ⟨n, hn⟩ := Nat.exists_eq_add_of_lt hcount
    have hn' : (addedOndisk d vd).nvolumes = maxVolumes + (n + 1) := hn
    rw [hn', runFrom_skip]
    · apply runFrom_outside
      rw [Arr.read_of_le (Nat.le_of_eq (Nat.zero_add maxVolumes).symm)]
      rfl
    · intro j _ hj
      exact hother j (by omega) fun _ => hroot

theorem foldl_count_one {k m : Nat} :
    (List.range m).foldl (fun n i => if i = k then n + 1 else n) 0 = if k < m then 1 else 0 := by
  induction m with
  | zero => rfl
  | succ m ih =>
    rw [List.range_succ, List.foldl_append, ih, List.foldl_cons, List.foldl_nil]
    rcases Nat.lt_trichotomy m k with hlt | rfl | hgt
    · rw [if_neg (Nat.ne_of_lt hlt), if_neg (by omega), if_neg (by omega)]
    · rw [if_pos rfl, if_neg (Nat.lt_irrefl m), if_pos (Nat.lt_succ_self m)]
    · rw [if_neg (Nat.ne_of_gt hgt), if_pos hgt, if_pos (by omega)]

/-- One volume is counted. -/
theorem added_userCount (hid : vd.voluId < maxVolumes) :
    Indexed.userCount (addedOndisk d vd) = some 1 := by
  have hfold : Indexed.userCount (addedOndisk d vd) = some ((List.range' 0 maxVolumes).foldl
      (fun n i => if i = vd.voluId then n + 1 else n) 0) := by
    apply foldFrom_eq
    intro j n _ hj
    rw [added_read (by omega), Option.map_some]
    by_cases hjid : j = vd.voluId
    · rw [if_pos hjid, hjid, added_self]
      rfl
    · rw [if_neg hjid, added_ne hjid]
      rfl
  rw [hfold, ← List.range_eq_range', foldl_count_one, if_pos hid]

theorem added_checkVolume_ne {i : Nat} (hi : i < maxVolumes) (hne : i ≠ vd.voluId)
    (st : Arr (Nat × Nat)) : Indexed.checkVolume (addedOndisk d vd) i st = some (.ok st) := by
  unfold Indexed.checkVolume
  rw [added_read hi, added_ne hne]
  rfl

/-- With a version, `st` has one entry, and the entry of the volume is the one of its id. -/
theorem added_verifyCommon_outside (hid : vd.voluId < maxVolumes) (hne : vd.voluId ≠ 0)
    (hver : intVersion vd.version ≠ -1) :
    Indexed.userVerifyCommon (addedOndisk d vd) = none := by
  have hsome : (addedOndisk d vd).version ≠ none := by
    unfold addedOndisk
    rw [if_neg hver]
    exact Option.some_ne_none _
  obtain ⟨n, hn⟩ := Nat.exists_eq_add_of_lt hid
  have hn' : maxVolumes = vd.voluId + (n + 1) := hn
  unfold Indexed.userVerifyCommon
  rw [if_neg hsome, added_userCount hid, Option.bind_some]
  have hrun : runFrom (Indexed.checkVolume (addedOndisk d vd)) maxVolumes 0
      ⟨1, fun _ => (0, 0)⟩ = none := by
    rw [hn', runFrom_skip]
    · apply runFrom_outside
      unfold Indexed.checkVolume
      rw [Nat.zero_add, added_read hid, added_self, Option.bind_some]
      dsimp only
      rw [Arr.write_of_le (Nat.one_le_iff_ne_zero.mpr hne)]
      rfl
    · intro j _ hj
      exact added_checkVolume_ne (by omega) (by omega) _
  rw [hrun]
  rfl

theorem added_verifyCommon_version (hver : intVersion vd.version = -1) :
    Indexed.userVerifyCommon (addedOndisk d vd) = some false := by
  have hnone : (addedOndisk d vd).version = none := by
    unfold addedOndisk
    exact if_pos hver
  exact if_pos hnone

theorem added_verifyCommon_root (hid : vd.voluId = 0) (hver : intVersion vd.version ≠ -1) :
    Decides (Indexed.userVerifyCommon (addedOndisk d vd))
      (vd.voluLoff 0 ≠ offMod - 1 ∧ vd.voluSize ≠ offMod - 1 ∧ vd.voluSize ≤ d.size) := by
  have hlt : vd.voluId < maxVolumes := by
    rw [hid]
    decide
  have hsome : (addedOndisk d vd).version ≠ none := by
    unfold addedOndisk
    rw [if_neg hver]
    exact Option.some_ne_none _
  unfold Indexed.userVerifyCommon
  rw [if_neg hsome, added_userCount hlt, Option.bind_some]
  have hfirst : Indexed.checkVolume (addedOndisk d vd) 0 ⟨1, fun _ => (0, 0)⟩ =
      some (if vd.voluLoff 0 ≠ offMod - 1 ∧ vd.voluSize ≠ offMod - 1 ∧ vd.voluSize ≤ d.size then
        .ok ⟨1, Function.update (fun _ => (0, 0)) 0 d.stat⟩ else .error ()) := by
    have hself := added_self d vd
    rw [hid] at hself
    unfold Indexed.checkVolume
    rw [added_read (by decide), hself, Option.bind_some]
    dsimp only
    rw [Arr.write_of_lt Nat.zero_lt_one, Option.bind_some, allFrom, Option.map_some]
    simp only [true_and]
  have hcount : maxVolumes = 63 + 1 := rfl
  rw [hcount]
  by_cases hP : vd.voluLoff 0 ≠ offMod - 1 ∧ vd.voluSize ≠ offMod - 1 ∧ vd.voluSize ≤ d.size
  · rw [if_pos hP] at hfirst
    rw [runFrom_ok _ hfirst, runFrom_idle]
    · exact decides_true hP
    · intro j hj hj'
      exact added_checkVolume_ne (by omega) (by omega) _
  · rw [if_neg hP] at hfirst
    rw [runFrom_error _ hfirst]
    exact decides_false hP

theorem userCheckRoot1_decides (root : Option VolumeData) :
    Decides (Indexed.userCheckRoot1 root)
      (∀ r ∈ root, r.voluId = 0 ∧ r.nvolumes = 0 ∧ r.SingleHeader) := by
  cases root with
  | none => exact decides_true fun r hr => by cases hr
  | some r =>
    have hloffs : Decides (allFrom (fun i => (r.voluLoffs.read i).map fun off => decide (off = 0))
        maxVolumes 0) (∀ i < maxVolumes, r.voluLoff i = 0) := by
      apply allFrom_zero_decides
      intro j hj
      rw [read_voluLoffs hj]
      exact decides_decide
    unfold Indexed.userCheckRoot1 VolumeData.SingleHeader
    apply (Decides.unless fun _ => Decides.unless fun _ => Decides.unless fun _ => hloffs).congr
    simp only [ne_eq, not_not, Option.mem_some_iff, forall_eq']

theorem userCheckRoot2_decides (fso : UserOndisk) (root : Option VolumeData) :
    Decides (Indexed.userCheckRoot2 fso root 1)
      (∀ r ∈ root, r.voluId = 0 ∧ r.nvolumes = fso.nvolumes ∧ r.totalSize = fso.totalSize ∧
        r.voluLoff 0 ≠ offMod - 1 ∧ ∀ i < maxVolumes, 1 ≤ i → r.voluLoff i = offMod - 1) := by
  cases root with
  | none => exact decides_true fun r hr => by cases hr
  | some r =>
    have hset : Decides (allFrom (fun i => (r.voluLoffs.read i).map fun off =>
        decide (off ≠ offMod - 1)) 1 0) (r.voluLoff 0 ≠ offMod - 1) := by
      apply (allFrom_zero_decides (P := fun i => r.voluLoff i ≠ offMod - 1) ?_).congr
      · constructor
        · intro h
          exact h 0 Nat.zero_lt_one
        · intro h i hi
          obtain rfl : i = 0 := by omega
          exact h
      · intro j hj
        rw [read_voluLoffs (hj.trans (by decide))]
        exact decides_decide
    have hunset : Decides (allFrom (fun i => (r.voluLoffs.read i).map fun off =>
        decide (off = offMod - 1)) (maxVolumes - 1) 1)
        (∀ i < maxVolumes, 1 ≤ i → r.voluLoff i = offMod - 1) := by
      have hone : 1 ≤ maxVolumes := by decide
      apply (allFrom_decides (P := fun i => r.voluLoff i = offMod - 1) ?_).congr
      · constructor
        · intro h i hi hle
          exact h i hle (by omega)
        · intro h i hle hi
          exact h i (by omega) hle
      · intro j _ hj
        rw [read_voluLoffs (by omega)]
        exact decides_decide
    unfold Indexed.userCheckRoot2
    apply (Decides.unless fun _ => Decides.unless fun _ => Decides.unless fun _ =>
      hset.and fun _ => hunset).congr
    simp only [ne_eq, not_not, Option.mem_some_iff, forall_eq', rootVolume]

theorem added_verify1 (hid : vd.voluId = 0) (root : Option VolumeData) :
    Decides (Indexed.userVerify1 (addedOndisk d vd) root)
      ((∀ r ∈ root, r.voluId = 0 ∧ r.nvolumes = 0 ∧ r.SingleHeader) ∧
        vd.voluLoff 0 = 0 ∧ vd.voluSize % volumeAlign = 0) := by
  have hlt : vd.voluId < maxVolumes := by
    rw [hid]
    decide
  have hself := added_self d vd
  rw [hid] at hself
  unfold Indexed.userVerify1
  rw [added_userCount hlt, Option.bind_some, if_neg (not_not.mpr rfl), added_read (by decide),
    hself]
  apply (userCheckRoot1_decides root).and
  intro _
  rw [Option.map_some, Option.elim_some]
  exact decides_decide.congr (and_iff_right rfl)

theorem added_verify2 (hid : vd.voluId = 0) (root : Option VolumeData) :
    Decides (Indexed.userVerify2 (addedOndisk d vd) root)
      (vd.nvolumes = 1 ∧
        (∀ r ∈ root, r.voluId = 0 ∧ r.nvolumes = vd.nvolumes ∧ r.totalSize = vd.voluSize ∧
          r.voluLoff 0 ≠ offMod - 1 ∧ ∀ i < maxVolumes, 1 ≤ i → r.voluLoff i = offMod - 1) ∧
        vd.voluLoff 0 = 0 ∧ vd.voluSize % volumeAlign = 0) := by
  have hlt : vd.voluId < maxVolumes := by
    rw [hid]
    decide
  have hself := added_self d vd
  rw [hid] at hself
  have htotal : (addedOndisk d vd).totalSize = vd.voluSize := by
    show (0 + vd.voluSize) % offMod = vd.voluSize
    rw [Nat.zero_add, Nat.mod_eq_of_lt (voluSize_lt_offMod vd)]
  have hroot := userCheckRoot2_decides (addedOndisk d vd) root
  rw [htotal] at hroot
  unfold Indexed.userVerify2
  rw [added_userCount hlt, Option.bind_some]
  apply (Decides.unless fun hcount => hroot.and fun _ => ?_).congr (and_congr_left' not_not)
  have hcount' : vd.nvolumes = 1 := not_not.mp hcount
  have hvol : ∀ i < maxVolumes, Decides (Indexed.userVerifyVolume (addedOndisk d vd) i)
      (i = 0 → vd.voluLoff 0 = 0 ∧ vd.voluSize % volumeAlign = 0) := by
    intro i hi
    unfold Indexed.userVerifyVolume
    rw [added_read hi]
    rcases Nat.eq_zero_or_pos i with rfl | hpos
    · have hlast : ¬ (0 + 1 ≠ (addedOndisk d vd).nvolumes) := not_not.mpr hcount'.symm
      rw [hself, Option.bind_some]
      dsimp only
      rw [if_pos rfl]
      apply (Decides.unless fun _ => decides_decide.and fun _ => decides_decide).congr
      rw [if_neg hlast]
      constructor
      · intro h _
        exact h.2
      · intro h
        refine ⟨?_, h rfl⟩
        rw [(h rfl).1]
        decide
    · rw [added_ne (by omega)]
      exact decides_true fun h => by omega
  apply (allFrom_zero_decides hvol).congr
  constructor
  · intro h
    exact h 0 (by decide) rfl
  · intro h i _ _
    exact h

/-- The header that the tools check, and when the walk to it leaves the table. -/
theorem added_rootHeader {zone : Nat} (h : userReadVolumeHeader d.size d.slots = some (zone, vd))
    (hid : vd.voluId < maxVolumes) :
    (¬ vd.HoldsRoot ∧ maxVolumes < vd.nvolumes ∧
      Indexed.rootHeader (addedOndisk d vd) = none) ∨
    ((vd.nvolumes ≤ maxVolumes ∨ vd.HoldsRoot) ∧
      ∃ root, Indexed.rootHeader (addedOndisk d vd) = some root ∧
        (vd.HoldsRoot ∧ vd.voluId < vd.nvolumes ∧ root = some vd ∨
          ¬ (vd.HoldsRoot ∧ vd.voluId < vd.nvolumes) ∧ root = none)) := by
  obtain ⟨hhit, hmiss, hout⟩ := added_getVolume (d := d) hid
  unfold Indexed.rootHeader
  by_cases hroot : vd.HoldsRoot ∧ vd.voluId < vd.nvolumes
  · refine Or.inr ⟨Or.inr hroot.1, some vd, ?_, Or.inl ⟨hroot.1, hroot.2, rfl⟩⟩
    rw [hhit hroot.1 hroot.2, Option.map_some]
    dsimp only
    rw [h]
    rfl
  · rcases Nat.lt_or_ge maxVolumes vd.nvolumes with hlt | hge
    · have hno : ¬ vd.HoldsRoot := fun hr => hroot ⟨hr, hid.trans hlt⟩
      refine Or.inl ⟨hno, hlt, ?_⟩
      rw [hout hno hlt]
      rfl
    · refine Or.inr ⟨Or.inl hge, none, ?_, Or.inr ⟨hroot, rfl⟩⟩
      rw [hmiss hroot hge]
      rfl

/-- The header is looked at when the walk has found the volume. -/
theorem userTakes_iff (hid : vd.voluId = 0) (hver : intVersion vd.version ≠ -1)
    {root : Option VolumeData}
    (hroot : vd.HoldsRoot ∧ vd.voluId < vd.nvolumes ∧ root = some vd ∨
      ¬ (vd.HoldsRoot ∧ vd.voluId < vd.nvolumes) ∧ root = none) {size : Nat} :
    vd.UserTakes size ↔
      (vd.voluLoff 0 ≠ offMod - 1 ∧ vd.voluSize ≠ offMod - 1 ∧ vd.voluSize ≤ size) ∧
        if (volVersionMultiVolumes : Int) ≤ intVersion vd.version then
          vd.nvolumes = 1 ∧
            (∀ r ∈ root, r.voluId = 0 ∧ r.nvolumes = vd.nvolumes ∧ r.totalSize = vd.voluSize ∧
              r.voluLoff 0 ≠ offMod - 1 ∧ ∀ i < maxVolumes, 1 ≤ i → r.voluLoff i = offMod - 1) ∧
            vd.voluLoff 0 = 0 ∧ vd.voluSize % volumeAlign = 0
        else
          (∀ r ∈ root, r.voluId = 0 ∧ r.nvolumes = 0 ∧ r.SingleHeader) ∧
            vd.voluLoff 0 = 0 ∧ vd.voluSize % volumeAlign = 0 := by
  have hoff : vd.voluLoff 0 = 0 → vd.voluLoff 0 ≠ offMod - 1 := by
    intro h
    rw [h]
    decide
  have hholds : vd.HoldsRoot ↔ vd.voluLoff 0 = 0 ∧ 0 < vd.voluSize := by
    unfold VolumeData.HoldsRoot
    rw [hid]
  rw [hid] at hroot
  unfold VolumeData.UserTakes VolumeData.Fits
  split
  next hmulti =>
    constructor
    · rintro ⟨⟨-, hzero, hle, halign⟩, -, hcount, hheader⟩
      refine ⟨⟨hoff hzero, aligned_ne halign, hle⟩, hcount, ?_, hzero, halign⟩
      intro r hr
      rcases hroot with ⟨hr', -, rfl⟩ | ⟨-, rfl⟩
      · cases Option.some.inj hr
        obtain ⟨htotal, hloffs⟩ := hheader (hholds.mp hr').2
        exact ⟨hid, rfl, htotal, hoff hzero, hloffs⟩
      · cases hr
    · rintro ⟨⟨-, -, hle⟩, hcount, hheader, hzero, halign⟩
      refine ⟨⟨hid, hzero, hle, halign⟩, hver, hcount, ?_⟩
      intro hpos
      rcases hroot with ⟨-, -, rfl⟩ | ⟨hno, -⟩
      · obtain ⟨-, -, htotal, -, hloffs⟩ := hheader vd rfl
        exact ⟨htotal, hloffs⟩
      · exact absurd ⟨hholds.mpr ⟨hzero, hpos⟩, by omega⟩ hno
  next hsingle =>
    constructor
    · rintro ⟨⟨-, hzero, hle, halign⟩, -, hcount⟩
      refine ⟨⟨hoff hzero, aligned_ne halign, hle⟩, ?_, hzero, halign⟩
      intro r hr
      rcases hroot with ⟨hr', hpos, -⟩ | ⟨-, rfl⟩
      · exact absurd (hcount (hholds.mp hr').2) (Nat.ne_of_gt hpos)
      · cases hr
    · rintro ⟨⟨-, -, hle⟩, hheader, hzero, halign⟩
      refine ⟨⟨hid, hzero, hle, halign⟩, hver, ?_⟩
      intro hpos
      rcases hroot with ⟨-, -, rfl⟩ | ⟨hno, -⟩
      · exact (hheader vd rfl).2.1
      · by_contra hne
        exact hno ⟨hholds.mpr ⟨hzero, hpos⟩, Nat.pos_of_ne_zero hne⟩

theorem added_verifyVolumes (hid : vd.voluId = 0) (hver : intVersion vd.version ≠ -1)
    {root : Option VolumeData}
    (hroot : vd.HoldsRoot ∧ vd.voluId < vd.nvolumes ∧ root = some vd ∨
      ¬ (vd.HoldsRoot ∧ vd.voluId < vd.nvolumes) ∧ root = none) :
    (vd.UserTakes d.size ∧ ∃ fso,
      Indexed.userVerifyVolumes (addedOndisk d vd) root = some (some fso) ∧
        fso.volumes = (addedOndisk d vd).volumes) ∨
    (¬ vd.UserTakes d.size ∧
      Indexed.userVerifyVolumes (addedOndisk d vd) root = some none) := by
  have hversion : (addedOndisk d vd).version.getD 0 = vd.version := by
    unfold addedOndisk
    rw [if_neg hver]
    rfl
  rw [userTakes_iff hid hver hroot]
  unfold Indexed.userVerifyVolumes
  rw [hversion]
  obtain ⟨ok, hcommon, hok⟩ := added_verifyCommon_root (d := d) hid hver
  rw [hcommon, Option.bind_some]
  cases ok with
  | false => exact Or.inr ⟨fun h => Bool.false_ne_true (hok.mpr h.1), rfl⟩
  | true =>
    have hc := hok.mp rfl
    rw [if_pos rfl]
    by_cases hmulti : (volVersionMultiVolumes : Int) ≤ intVersion vd.version
    · obtain ⟨ok', htwo, hok'⟩ := added_verify2 (d := d) hid root
      rw [if_pos hmulti, if_pos hmulti, htwo]
      cases ok' with
      | false => exact Or.inr ⟨fun h => Bool.false_ne_true (hok'.mpr h.2), rfl⟩
      | true => exact Or.inl ⟨⟨hc, hok'.mp rfl⟩, _, rfl, rfl⟩
    · obtain ⟨ok', hone, hok'⟩ := added_verify1 (d := d) hid root
      rw [if_neg hmulti, if_neg hmulti, hone]
      cases ok' with
      | false => exact Or.inr ⟨fun h => Bool.false_ne_true (hok'.mpr h.2), rfl⟩
      | true => exact Or.inl ⟨⟨hc, hok'.mp rfl⟩, _, rfl, rfl⟩

/-- The tools and a device whose header names a volume of the table. -/
theorem userInit_single {zone : Nat} (h : userReadVolumeHeader d.size d.slots = some (zone, vd))
    (hid : vd.voluId < maxVolumes) :
    (¬ vd.IndexesInside ∧ Indexed.userInitVolumes [d] = none) ∨
    (vd.IndexesInside ∧ vd.UserTakes d.size ∧ ∃ fso, Indexed.userInitVolumes [d] = some (some fso) ∧
      fso.volumes = (addedOndisk d vd).volumes) ∨
    (vd.IndexesInside ∧ ¬ vd.UserTakes d.size ∧ Indexed.userInitVolumes [d] = some none) := by
  have hadd : Indexed.addLoop [d] initOndisk = some (some (addedOndisk d vd)) := by
    rw [Indexed.addLoop, indexed_addVolume_single h hid]
    rfl
  unfold Indexed.userInitVolumes
  rw [hadd, Option.bind_some]
  dsimp only
  rcases added_rootHeader h hid with ⟨hno, hlarge, hroot⟩ | ⟨hin, root, hroot, hkind⟩
  · rw [hroot]
    refine Or.inl ⟨fun hidx => ?_, rfl⟩
    rcases hidx.1 with hle | hr
    · omega
    · exact hno hr
  · rw [hroot, Option.bind_some]
    unfold Indexed.userVerifyVolumes
    by_cases hver : intVersion vd.version = -1
    · rw [added_verifyCommon_version hver]
      exact Or.inr (Or.inr ⟨⟨hin, Or.inl hver⟩, fun ht => ht.2.1 hver, rfl⟩)
    · by_cases hzero : vd.voluId = 0
      · rcases added_verifyVolumes (d := d) hzero hver hkind with ⟨ht, hfso⟩ | ⟨ht, hnone⟩
        · exact Or.inr (Or.inl ⟨⟨hin, Or.inr hzero⟩, ht, hfso⟩)
        · exact Or.inr (Or.inr ⟨⟨hin, Or.inr hzero⟩, ht, hnone⟩)
      · rw [added_verifyCommon_outside hid hzero hver]
        refine Or.inl ⟨fun hidx => ?_, rfl⟩
        exact hidx.2.elim hver hzero

end Tools

section Agreement

variable {vd : VolumeData} {e : Device}

theorem version_lt (vd : VolumeData) : vd.version < 2 ^ 32 := getLE_lt vd 0x30 4

theorem intVersion_cases {version : Nat} (h : version < 2 ^ 32) :
    (version < 2 ^ 31 ∧ intVersion version = version) ∨
      (2 ^ 31 ≤ version ∧ intVersion version < 0) := by
  have hnat : (BitVec.ofNat 32 version).toNat = version := by
    rw [BitVec.toNat_ofNat, Nat.mod_eq_of_lt h]
  unfold intVersion
  rw [BitVec.toInt_eq_toNat_cond, hnat]
  rcases Nat.lt_or_ge version (2 ^ 31) with hlt | hge
  · rw [if_pos (by omega)]
    exact Or.inl ⟨hlt, rfl⟩
  · rw [if_neg (by omega)]
    exact Or.inr ⟨hge, by omega⟩

/-- The headers that the tools take and the driver refuses: a volume of no size, a version that the
driver does not know, and in the versions below 2 a total size or an offset. -/
def VolumeData.Slack (vd : VolumeData) (size : Nat) : Prop :=
  vd.Fits size ∧ intVersion vd.version ≠ -1 ∧
  ((volVersionMultiVolumes ≤ intVersion vd.version ∧ vd.nvolumes = 1 ∧
      (vd.voluSize = 0 ∨ vd.MultiHeader ∧ volVersionWip < vd.version)) ∨
    (intVersion vd.version < volVersionMultiVolumes ∧
      (vd.voluSize = 0 ∨ vd.nvolumes = 0 ∧ (vd.version ≠ 1 ∨ ¬ vd.SingleHeader))))

theorem userTakes_of_driverTakes {size : Nat} (h : vd.DriverTakes size) : vd.UserTakes size := by
  obtain ⟨hfits, -, hmin, hmax, h⟩ := h
  have hwip : volVersionWip = 3 := rfl
  have htwo : volVersionMultiVolumes = 2 := rfl
  have hint : intVersion vd.version = vd.version := by
    rcases intVersion_cases (version_lt vd) with ⟨-, heq⟩ | ⟨hge, -⟩
    · exact heq
    · omega
  refine ⟨hfits, by omega, ?_⟩
  rw [hint]
  by_cases hmulti : volVersionMultiVolumes ≤ vd.version
  · rw [if_pos hmulti] at h
    rw [if_pos (by omega)]
    exact ⟨h.1, fun _ => h.2⟩
  · rw [if_neg hmulti] at h
    rw [if_neg (by omega)]
    exact fun _ => h.1

theorem slack_iff {size : Nat} : vd.Slack size ↔ vd.UserTakes size ∧ ¬ vd.DriverTakes size := by
  have hwip : volVersionWip = 3 := rfl
  have htwo : volVersionMultiVolumes = 2 := rfl
  have hver := intVersion_cases (version_lt vd)
  unfold VolumeData.Slack VolumeData.UserTakes VolumeData.DriverTakes
  constructor
  · rintro ⟨hfits, hne, ⟨hmulti, hcount, h⟩ | ⟨hsingle, h⟩⟩
    · rw [if_pos hmulti]
      refine ⟨⟨hfits, hne, hcount, ?_⟩, ?_⟩
      · intro hpos
        rcases h with hzero | ⟨hheader, -⟩
        · omega
        · exact hheader
      · rintro ⟨-, hpos, -, hmax, -⟩
        rcases h with hzero | ⟨-, hlarge⟩
        · omega
        · omega
    · rw [if_neg (by omega)]
      refine ⟨⟨hfits, hne, ?_⟩, ?_⟩
      · intro hpos
        rcases h with hzero | ⟨hcount, -⟩
        · omega
        · exact hcount
      · rintro ⟨-, hpos, hmin, hmax, hheader⟩
        rw [if_neg (by omega)] at hheader
        rcases h with hzero | ⟨-, hone | hno⟩
        · omega
        · omega
        · exact hno hheader.2
  · rintro ⟨⟨hfits, hne, h⟩, hno⟩
    refine ⟨hfits, hne, ?_⟩
    split at h
    next hmulti =>
      refine Or.inl ⟨hmulti, h.1, ?_⟩
      rcases Nat.eq_zero_or_pos vd.voluSize with hzero | hpos
      · exact Or.inl hzero
      · refine Or.inr ⟨h.2 hpos, ?_⟩
        by_contra hle
        apply hno
        refine ⟨hfits, hpos, by omega, by omega, ?_⟩
        rw [if_pos (by omega)]
        exact ⟨h.1, h.2 hpos⟩
    next hsingle =>
      refine Or.inr ⟨by omega, ?_⟩
      rcases Nat.eq_zero_or_pos vd.voluSize with hzero | hpos
      · exact Or.inl hzero
      · refine Or.inr ⟨h hpos, ?_⟩
        by_contra hgood
        obtain ⟨hone, hheader⟩ := not_or.mp hgood
        apply hno
        refine ⟨hfits, hpos, by omega, by omega, ?_⟩
        rw [if_neg (by omega)]
        exact ⟨h hpos, not_not.mp hheader⟩

/-- What becomes of a device in the tools. -/
theorem userInit_cases (d : UserDevice) :
    ((∃ zone vd, userReadVolumeHeader d.size d.slots = some (zone, vd) ∧
        vd.voluId < maxVolumes ∧ ¬ vd.IndexesInside) ∧ Indexed.userInitVolumes [d] = none) ∨
    ((∀ zone vd, userReadVolumeHeader d.size d.slots = some (zone, vd) → vd.voluId < maxVolumes →
        vd.IndexesInside) ∧
      ((∃ zone vd fso, userReadVolumeHeader d.size d.slots = some (zone, vd) ∧
          vd.UserTakes d.size ∧ Indexed.userInitVolumes [d] = some (some fso) ∧
          fso.volumes = (addedOndisk d vd).volumes) ∨
        ((∀ zone vd, userReadVolumeHeader d.size d.slots = some (zone, vd) →
          ¬ vd.UserTakes d.size) ∧ Indexed.userInitVolumes [d] = some none))) := by
  rcases hread : userReadVolumeHeader d.size d.slots with _ | ⟨zone, vd⟩
  · refine Or.inr ⟨fun _ _ h => (by cases h), Or.inr ⟨fun _ _ h => (by cases h), ?_⟩⟩
    unfold Indexed.userInitVolumes
    rw [Indexed.addLoop]
    unfold Indexed.addVolume
    rw [hread]
    rfl
  · rcases Nat.lt_or_ge vd.voluId maxVolumes with hid | hid
    · rcases userInit_single hread hid with ⟨hout, hnone⟩ | ⟨hin, ht, fso, hinit, hvols⟩ |
        ⟨hin, ht, hinit⟩
      · exact Or.inl ⟨⟨zone, vd, rfl, hid, hout⟩, hnone⟩
      · refine Or.inr ⟨?_, Or.inl ⟨zone, vd, fso, rfl, ht, hinit, hvols⟩⟩
        rintro _ _ ⟨⟩ _
        exact hin
      · refine Or.inr ⟨?_, Or.inr ⟨?_, hinit⟩⟩
        · rintro _ _ ⟨⟩ _
          exact hin
        · rintro _ _ ⟨⟩
          exact ht
    · refine Or.inr ⟨?_, Or.inr ⟨?_, ?_⟩⟩
      · rintro _ _ ⟨⟩ hlt
        omega
      · rintro _ _ ⟨⟩ ht
        rw [ht.1.1] at hid
        exact absurd hid (by decide)
      · unfold Indexed.userInitVolumes
        rw [Indexed.addLoop]
        unfold Indexed.addVolume
        rw [hread]
        dsimp only
        rw [if_pos hid]
        rfl

theorem driverInit_cases (e : Device) :
    (∃ zone vd s, e.readVolumeHeader = some (zone, vd) ∧ vd.DriverTakes e.size ∧
        initVolumes [e] = .ok s ∧ s.volumes = oneVolume e vd) ∨
      ((∀ zone vd, e.readVolumeHeader = some (zone, vd) → ¬ vd.DriverTakes e.size) ∧
        ∃ err, initVolumes [e] = .error err) := by
  rcases hread : e.readVolumeHeader with _ | ⟨zone, vd⟩
  · exact Or.inr ⟨fun _ _ h => (by cases h), initVolumes_unread hread⟩
  · rcases initVolumes_single hread with ⟨ht, s, hinit, hvols⟩ | ⟨ht, hinit⟩
    · exact Or.inl ⟨zone, vd, s, rfl, ht, hinit, hvols⟩
    · refine Or.inr ⟨?_, hinit⟩
      rintro _ _ ⟨⟩
      exact ht

end Agreement

/-- When the tools and the driver agree about a device. -/
structure OpenCondition (e : Device) : Prop where
  inside : ∀ zone vd, e.userReadVolumeHeader = some (zone, vd) → vd.voluId < maxVolumes →
    vd.IndexesInside
  /-- Both have picked the same copy. -/
  same : e.readVolumeHeader = e.userReadVolumeHeader → ∀ zone vd,
    e.userReadVolumeHeader = some (zone, vd) → ¬ vd.Slack e.size
  /-- The driver has picked a copy that the tools cannot read. -/
  cut : e.readVolumeHeader ≠ e.userReadVolumeHeader →
    (∃ c c', e.userReadVolumeHeader = some c ∧ e.readVolumeHeader = some c' ∧
      c.2.UserTakes e.size ∧ c'.2.DriverTakes e.size ∧ c.2.voluSize = c'.2.voluSize) ∨
    ((∀ c, e.userReadVolumeHeader = some c → ¬ c.2.UserTakes e.size) ∧
      ∀ c, e.readVolumeHeader = some c → ¬ c.2.DriverTakes e.size)

/-- The picks differ only where the device ends inside of an intact copy. -/
theorem picks_same {e : Device} (h : ∀ z < numVolhdrs, z * zoneBytes < e.size →
    e.size < z * zoneBytes + pbufBytes → ¬ (e.header z).Intact) :
    e.readVolumeHeader = e.userReadVolumeHeader := by
  have hcopy : ∀ c, IntactCopy e.size (fun z => some (e.header z)) c ↔
      IntactCopy e.asUser.size e.asUser.slots c := by
    rintro ⟨z, vd⟩
    unfold IntactCopy
    constructor
    · rintro ⟨hz, hsize, hslot, hint⟩
      refine ⟨hz, hsize, ?_, hint⟩
      have hwhole : z * zoneBytes + pbufBytes ≤ e.size := by
        by_contra hcut
        rw [← Option.some.inj hslot] at hint
        exact h z hz hsize (by omega) hint
      exact (if_pos hwhole).trans hslot
    · rintro ⟨hz, hsize, hslot, hint⟩
      exact ⟨hz, hsize, (Option.ite_none_right_eq_some.mp hslot).2, hint⟩
  apply Option.ext
  intro c
  rw [readVolumeHeader_eq_some]
  unfold Device.userReadVolumeHeader
  rw [user_eq_some]
  simp only [hcopy]

section Alike

variable {e : Device} {vd vd' : VolumeData} {fso : UserOndisk} {s : InitState}

/-- Two accepted devices have the same extents when their sizes are the same. -/
theorem extent_eq_iff {size size' : Nat} (ht : vd.Fits size) (ht' : vd'.Fits size')
    (hfso : fso.volumes = (addedOndisk e.asUser vd).volumes) (hs : s.volumes = oneVolume e vd') :
    (∀ i < maxVolumes, fso.extent i = s.extent i) ↔ vd.voluSize = vd'.voluSize := by
  obtain ⟨hid, hoff, -⟩ := ht
  obtain ⟨-, hoff', -⟩ := ht'
  have hself := added_self e.asUser vd
  rw [hid, hoff] at hself
  have hzero : fso.extent 0 = some (0, vd.voluSize) := by
    unfold UserOndisk.extent
    rw [hfso, hself]
    rfl
  have hzero' : s.extent 0 = some (0, vd'.voluSize) := by
    unfold InitState.extent
    rw [hs, oneVolume_zero, hoff']
    rfl
  constructor
  · intro h
    have heq := h 0 (by decide)
    rw [hzero, hzero'] at heq
    exact (Prod.mk.inj (Option.some.inj heq)).2
  · intro h i _
    rcases Nat.eq_zero_or_pos i with rfl | hpos
    · rw [hzero, hzero', h]
    · unfold UserOndisk.extent InitState.extent
      rw [hfso, hs, oneVolume_ne (Nat.ne_of_gt hpos), added_ne (by omega)]
      rfl

theorem openAlike_accepts (hu : Indexed.userInitVolumes [e.asUser] = some (some fso))
    (hd : initVolumes [e] = .ok s) :
    OpenAlike e ↔ ∀ i < maxVolumes, fso.extent i = s.extent i := by
  unfold OpenAlike
  rw [hu, indexed_initVolumes, hd]

theorem openAlike_refuses (hu : Indexed.userInitVolumes [e.asUser] = some none) {err : MountError}
    (hd : initVolumes [e] = .error err) : OpenAlike e := by
  unfold OpenAlike
  rw [hu, indexed_initVolumes, hd]
  trivial

theorem not_openAlike_outside (hu : Indexed.userInitVolumes [e.asUser] = none) :
    ¬ OpenAlike e := by
  unfold OpenAlike
  rw [hu]
  exact id

theorem not_openAlike_user (hu : Indexed.userInitVolumes [e.asUser] = some (some fso))
    {err : MountError} (hd : initVolumes [e] = .error err) : ¬ OpenAlike e := by
  unfold OpenAlike
  rw [hu, indexed_initVolumes, hd]
  exact id

theorem not_openAlike_driver (hu : Indexed.userInitVolumes [e.asUser] = some none)
    (hd : initVolumes [e] = .ok s) : ¬ OpenAlike e := by
  unfold OpenAlike
  rw [hu, indexed_initVolumes, hd]
  exact id

end Alike

/-- The tools and the driver open a device alike just when the header keeps the tools inside of
their arrays and is none of those that the tools alone take. -/
theorem volumes_open_alike_iff (e : Device) : OpenAlike e ↔ OpenCondition e := by
  rcases userInit_cases e.asUser with ⟨⟨zone, vd, hread, hid, hout⟩, hu⟩ | ⟨hin, hu⟩
  · refine iff_of_false (not_openAlike_outside hu) fun hc => ?_
    exact hout (hc.inside zone vd hread hid)
  · rcases hu with ⟨zone, vd, fso, hread, ht, hu, hvols⟩ | ⟨hno, hu⟩
    · have hread : e.userReadVolumeHeader = some (zone, vd) := hread
      rcases driverInit_cases e with ⟨zone', vd', s, hread', ht', hd, hvols'⟩ | ⟨hno', err, hd⟩
      · rw [openAlike_accepts hu hd, extent_eq_iff ht.1 ht'.1 hvols hvols']
        constructor
        · intro hsize
          refine ⟨hin, ?_, fun _ => Or.inl ⟨_, _, hread, hread', ht, ht', hsize⟩⟩
          intro hsame z w hw hslack
          have hdriver := hread'.symm.trans (hsame.trans hw)
          cases Option.some.inj hdriver
          exact (slack_iff.mp hslack).2 ht'
        · intro hc
          by_cases hsame : e.readVolumeHeader = e.userReadVolumeHeader
          · have heq := hread.symm.trans (hsame.symm.trans hread')
            cases Option.some.inj heq
            rfl
          · rcases hc.cut hsame with ⟨c, c', hc, hc', -, -, hsize⟩ | ⟨hno, -⟩
            · cases Option.some.inj (hread.symm.trans hc)
              cases Option.some.inj (hread'.symm.trans hc')
              exact hsize
            · exact absurd ht (hno _ hread)
      · refine iff_of_false (not_openAlike_user hu hd) fun hc => ?_
        by_cases hsame : e.readVolumeHeader = e.userReadVolumeHeader
        · exact hc.same hsame zone vd hread
            (slack_iff.mpr ⟨ht, hno' zone vd (hsame.trans hread)⟩)
        · rcases hc.cut hsame with ⟨-, c', -, hc', -, ht', -⟩ | ⟨hno, -⟩
          · exact hno' _ _ hc' ht'
          · exact hno _ hread ht
    · have hno : ∀ zone vd, e.userReadVolumeHeader = some (zone, vd) → ¬ vd.UserTakes e.size := hno
      rcases driverInit_cases e with ⟨zone', vd', s, hread', ht', hd, hvols'⟩ | ⟨hno', err, hd⟩
      · refine iff_of_false (not_openAlike_driver hu hd) fun hc => ?_
        by_cases hsame : e.readVolumeHeader = e.userReadVolumeHeader
        · exact hno _ _ (hsame.symm.trans hread') (userTakes_of_driverTakes ht')
        · rcases hc.cut hsame with ⟨c, -, hc, -, ht, -, -⟩ | ⟨-, hno'⟩
          · exact hno _ _ hc ht
          · exact hno' _ hread' ht'
      · refine iff_of_true (openAlike_refuses hu hd) ⟨hin, ?_, ?_⟩
        · intro _ zone vd hread hslack
          exact hno zone vd hread (slack_iff.mp hslack).1
        · intro _
          exact Or.inr ⟨fun c hc => hno _ _ hc, fun c hc => hno' _ _ hc⟩

section Example

/-- An 8GB image with one header copy. -/
def headerDevice (vd : VolumeData) : Device where
  stat := (0, 1)
  isImage := true
  size := 8589934592
  bytes := fun k => if k < 65536 then vd k else 0#8
  size_lt := by decide
  bytes_end := fun _ hk => if_neg (by omega)

theorem headerDevice_zero (vd : VolumeData) : (headerDevice vd).header 0 =
    fun k => if k < 65536 then vd k else 0#8 := by
  funext k
  unfold Device.header Device.read headerDevice pbufBytes
  dsimp only
  rw [Nat.zero_mul, Nat.zero_add]
  split <;> rfl

theorem headerDevice_succ (vd : VolumeData) (z : Nat) :
    (headerDevice vd).header (z + 1) = fun _ => 0#8 := by
  funext k
  unfold Device.header Device.read headerDevice
  dsimp only
  rw [if_neg (c := (z + 1) * zoneBytes + k < 65536), ite_self]
  unfold zoneBytes
  omega

theorem headerDevice_read {vd : VolumeData} (hint : vd.Intact)
    (hend : ∀ k, 65536 ≤ k → vd k = 0#8) :
    (headerDevice vd).readVolumeHeader = some (0, vd) ∧
      (headerDevice vd).userReadVolumeHeader = some (0, vd) := by
  have hzero : (headerDevice vd).header 0 = vd := by
    rw [headerDevice_zero]
    funext k
    rcases Nat.lt_or_ge k 65536 with hlt | hge
    · exact if_pos hlt
    · rw [if_neg (Nat.not_lt.mpr hge), hend k hge]
  have hsame : (headerDevice vd).readVolumeHeader = (headerDevice vd).userReadVolumeHeader := by
    apply picks_same
    intro z hz _ hcut
    have hsize : (headerDevice vd).size = 8589934592 := rfl
    rw [hsize] at hcut
    unfold zoneBytes pbufBytes at hcut
    unfold numVolhdrs at hz
    omega
  have hdriver : (headerDevice vd).readVolumeHeader = some (0, vd) := by
    apply readVolumeHeader_eq_some.mpr
    have hfirst : 0 * zoneBytes < (headerDevice vd).size := by
      show 0 * zoneBytes < 8589934592
      decide
    refine ⟨⟨Nat.succ_pos 3, hfirst, congrArg some hzero, hint⟩, ?_⟩
    rintro ⟨z, w⟩ ⟨-, -, hw, hintact⟩
    have hw' : (headerDevice vd).header z = w := Option.some.inj hw
    cases z with
    | zero =>
      cases hzero.symm.trans hw'
      exact Or.inr ⟨rfl, Nat.le_refl 0⟩
    | succ z =>
      rw [headerDevice_succ] at hw'
      rw [← hw'] at hintact
      exact absurd hintact zero_not_intact
  exact ⟨hdriver, hsame ▸ hdriver⟩

/-- A header of an 8GB volume. -/
def headerOf (version voluId nvolumes : Nat) : VolumeData :=
  VolumeData.updateIcrc (setLE (setLE (setLE
    ((VolumeData.setMagic (fun _ => 0#8) volumeIdHbo).setVoluSize 8589934592)
      0x30 4 version) 0x3B 1 voluId) 0x3C 1 nvolumes)

section Fields

variable (version voluId nvolumes : Nat)

theorem headerOf_low {off n : Nat} (h : off + n ≤ 0x1F8) :
    getLE (headerOf version voluId nvolumes) off n =
      getLE (setLE (setLE (setLE ((VolumeData.setMagic (fun _ => 0#8) volumeIdHbo).setVoluSize
        8589934592) 0x30 4 version) 0x3B 1 voluId) 0x3C 1 nvolumes) off n :=
  getLE_updateIcrc _ h

theorem headerOf_intact : (headerOf version voluId nvolumes).Intact := by
  apply updateIcrc_intact
  unfold VolumeData.magic
  rw [getLE_setLE_of_disjoint (by omega), getLE_setLE_of_disjoint (by omega),
    getLE_setLE_of_disjoint (by omega)]
  exact (magic_setVoluSize _ _).trans (magic_setMagic _ _ (by decide))

theorem headerOf_version : (headerOf version voluId nvolumes).version = version % 2 ^ 32 := by
  show getLE _ 0x30 4 = _
  rw [headerOf_low _ _ _ (by omega), getLE_setLE_of_disjoint (by omega),
    getLE_setLE_of_disjoint (by omega), getLE_setLE_self]
  rfl

theorem headerOf_voluId : (headerOf version voluId nvolumes).voluId = voluId % 256 := by
  show getLE _ 0x3B 1 = _
  rw [headerOf_low _ _ _ (by omega), getLE_setLE_of_disjoint (by omega), getLE_setLE_self]
  rfl

theorem headerOf_nvolumes : (headerOf version voluId nvolumes).nvolumes = nvolumes % 256 := by
  show getLE _ 0x3C 1 = _
  rw [headerOf_low _ _ _ (by omega), getLE_setLE_self]
  rfl

theorem headerOf_voluSize : (headerOf version voluId nvolumes).voluSize = 8589934592 := by
  show getLE _ 0x28 8 = _
  rw [headerOf_low _ _ _ (by omega), getLE_setLE_of_disjoint (by omega),
    getLE_setLE_of_disjoint (by omega), getLE_setLE_of_disjoint (by omega)]
  exact voluSize_setVoluSize _ _ (by decide)

theorem headerOf_voluLoff {i : Nat} (h : i < maxVolumes) :
    (headerOf version voluId nvolumes).voluLoff i = 0 := by
  have hmax : maxVolumes = 64 := rfl
  show getLE _ (0xE00 + 8 * i) 8 = 0
  unfold headerOf VolumeData.setVoluSize VolumeData.setMagic
  rw [getLE_updateIcrc_high _ (by omega), getLE_setLE_of_disjoint (by omega),
    getLE_setLE_of_disjoint (by omega), getLE_setLE_of_disjoint (by omega),
    getLE_setLE_of_disjoint (by omega), getLE_setLE_of_disjoint (by omega)]
  exact getLE_zeroImage _ _

theorem headerOf_end (k : Nat) (h : 65536 ≤ k) : headerOf version voluId nvolumes k = 0#8 := by
  unfold headerOf VolumeData.updateIcrc VolumeData.setVoluSize VolumeData.setMagic
  rw [setLE_of_outside (by omega), setLE_of_outside (by omega), setLE_of_outside (by omega),
    setLE_of_outside (by omega), setLE_of_outside (by omega), setLE_of_outside (by omega),
    setLE_of_outside (by omega), setLE_of_outside (by omega)]

end Fields

/-- A header with version 0 is taken by the tools alone, and with the second volume of a file system
alone they write behind the end of `st`. -/
theorem tools_take_version_zero :
    ¬ OpenAlike (headerDevice (headerOf 0 0 0)) ∧
      Indexed.userInitVolumes [(headerDevice (headerOf 2 1 2)).asUser] = none := by
  constructor
  · obtain ⟨hdriver, huser⟩ := headerDevice_read (headerOf_intact 0 0 0) (headerOf_end 0 0 0)
    have htake : (headerOf 0 0 0).UserTakes (headerDevice (headerOf 0 0 0)).size := by
      refine ⟨⟨headerOf_voluId 0 0 0, headerOf_voluLoff 0 0 0 (by decide), ?_, ?_⟩, ?_, ?_⟩
      · rw [headerOf_voluSize]
        exact Nat.le_refl _
      · rw [headerOf_voluSize]
        decide
      · rw [headerOf_version]
        decide
      · rw [headerOf_version, if_neg (by decide)]
        intro _
        exact headerOf_nvolumes 0 0 0
    rcases userInit_cases (headerDevice (headerOf 0 0 0)).asUser with
      ⟨⟨zone, vd, hread, -, hout⟩, hu⟩ | ⟨-, ⟨zone, vd, fso, hread, -, hu, -⟩ | ⟨hno, -⟩⟩
    · exact not_openAlike_outside hu
    · rcases driverInit_cases (headerDevice (headerOf 0 0 0)) with
        ⟨zone', vd', s, hread', ht', -⟩ | ⟨-, err, hd⟩
      · cases Option.some.inj (hdriver.symm.trans hread')
        have hmin := ht'.2.2.1
        rw [headerOf_version] at hmin
        exact absurd hmin (by decide)
      · exact not_openAlike_user hu hd
    · exact absurd htake (hno _ _ huser)
  · obtain ⟨-, huser⟩ := headerDevice_read (headerOf_intact 2 1 2) (headerOf_end 2 1 2)
    have hid : (headerOf 2 1 2).voluId = 1 := headerOf_voluId 2 1 2
    rcases userInit_single huser (by rw [hid]; decide) with ⟨-, hnone⟩ | ⟨hin, -⟩ | ⟨hin, -⟩
    · exact hnone
    all_goals
      rcases hin.2 with hver | hzero
      · rw [headerOf_version] at hver
        exact absurd hver (by decide)
      · rw [hid] at hzero
        cases hzero

end Example

end Hammer2
