import Hammer2.InitVolumes

namespace Hammer2

open ByteImage

/-- What the driver has to find in the header of volume `i`. -/
structure HeaderOf (fso : Ondisk) (common : Nat × Nat × Nat × Nat) (i : Nat) (hdr : VolumeData) :
    Prop where
  intact : hdr.Intact
  mirrorTid : hdr.mirrorTid = 16
  voluId : hdr.voluId = i
  voluSize : hdr.voluSize = (fso.volume i).size
  voluLoff : hdr.voluLoff i = (fso.volume i).offset
  voluLoffs : ∀ j < maxVolumes, hdr.voluLoff j = if volVersionMultiVolumes ≤ fso.version then
    (if j < fso.nvolumes then (fso.volume j).offset else offMod - 1) else 0
  totalSize : hdr.totalSize = if volVersionMultiVolumes ≤ fso.version then fso.totalSize else 0
  version : hdr.version = fso.version
  common : hdr.common = common

section Layout

variable {ac : Nat} {dev : Nat → Device} {opt : MkfsOptions} {fso : Ondisk} {f : Formatted}

theorem sizeBefore_lt (i : Nat) : sizeBefore ac dev i < offMod := by
  have hpos : 0 < offMod := by
    unfold offMod
    omega
  cases i with
  | zero => exact hpos
  | succ i =>
    rw [sizeBefore]
    exact Nat.mod_lt _ hpos

theorem volumeSize_le (ac : Nat) (dev : Nat → Device) (i : Nat) :
    volumeSize ac dev i ≤ (dev i).size := by
  unfold volumeSize volumeAlign freemapLevel1Size
  split <;> omega

theorem volumeSize_aligned (i : Nat) : volumeSize ac dev i % volumeAlign = 0 := by
  unfold volumeSize volumeAlign freemapLevel1Size
  split <;> omega

theorem mkfs_formatted (h : mkfs ac dev opt = some (fso, f)) {i : Nat} (hi : i < ac) :
    VolumeFormatted fso (adjustOptions fso opt) (fso.volume i) (dev i) (f.dev i) (f.hdr i) := by
  obtain ⟨-, rfl, -, hform⟩ := mkfs_spec h
  exact formatHammer2_spec (hform i hi) (volumeSize_aligned i) (volumeSize_le _ _ i)

/-- The common fields that a run of `newfs_hammer2` puts into all headers. -/
def commonFields (fso : Ondisk) (opt : MkfsOptions) : Nat × Nat × Nat × Nat :=
  (fso.version, if volVersionMultiVolumes ≤ fso.version then fso.nvolumes else 0,
    opt.volFsid % 256 ^ 16, opt.fsType % 256 ^ 16)

theorem volumeHeader_headerOf {allocBase : Nat} {blockset : Image} {i : Nat}
    (hac : fso.nvolumes ≤ maxVolumes) (hi : i < fso.nvolumes) (hid : (fso.volume i).id = i)
    (hsize : (fso.volume i).size < offMod) (hoff : ∀ j, (fso.volume j).offset < offMod)
    (htotal : fso.totalSize < offMod) (hver : fso.version = opt.version)
    (hsingle : ¬ volVersionMultiVolumes ≤ opt.version → i = 0 ∧ (fso.volume i).offset = 0) :
    HeaderOf fso (commonFields fso opt) i
      (volumeHeader fso (adjustOptions fso opt) (fso.volume i) allocBase blockset) := by
  have hmax := opt.version_max
  obtain ⟨-, hvs, hv, hf, ht, htid⟩ :=
    volumeHeader_common fso (adjustOptions fso opt) (fso.volume i) allocBase blockset
  have hintact := volumeHeader_intact fso (adjustOptions fso opt) (fso.volume i) allocBase blockset
  have hpow : 256 ^ 8 = offMod := by decide
  have hver4 : opt.version % 256 ^ 4 = opt.version := Nat.mod_eq_of_lt (by
    unfold volVersionWip at hmax
    omega)
  rw [hpow, Nat.mod_eq_of_lt hsize] at hvs
  rw [adjustOptions_version, hver4] at hv
  rw [adjustOptions_volFsid] at hf
  rw [adjustOptions_fsType] at ht
  have hids : ∀ hdr : VolumeData, hdr.version = opt.version → hdr.fsid = opt.volFsid % 256 ^ 16 →
      hdr.fstype = opt.fsType % 256 ^ 16 →
      hdr.nvolumes = (if volVersionMultiVolumes ≤ fso.version then fso.nvolumes else 0) →
      hdr.common = commonFields fso opt := by
    intro hdr h1 h2 h3 h4
    unfold VolumeData.common commonFields
    rw [h1, h2, h3, h4, hver]
  by_cases hm : volVersionMultiVolumes ≤ opt.version
  · obtain ⟨hvid, hnv, hts, hloff⟩ := volumeHeader_multi fso (adjustOptions fso opt) (fso.volume i)
      allocBase blockset ((adjustOptions_version fso opt).symm ▸ hm)
    have hm' : volVersionMultiVolumes ≤ fso.version := hver.symm ▸ hm
    have hmaxv : maxVolumes ≤ 64 := Nat.le_refl _
    refine ⟨hintact, htid, ?_, hvs, ?_, ?_, ?_, hv.trans hver.symm, hids _ hv hf ht ?_⟩
    · rw [hvid, hid, Nat.mod_eq_of_lt (by omega)]
    · rw [hloff i (by omega), if_pos hi, hpow, Nat.mod_eq_of_lt (hoff i)]
    · intro j hj
      rw [hloff j hj, if_pos hm', hpow]
      split
      · exact Nat.mod_eq_of_lt (hoff j)
      · exact Nat.mod_eq_of_lt (by
          unfold offMod
          omega)
    · rw [hts, if_pos hm', hpow, Nat.mod_eq_of_lt htotal]
    · rw [hnv, if_pos hm', Nat.mod_eq_of_lt (by omega)]
  · obtain ⟨rfl, hzero⟩ := hsingle hm
    obtain ⟨hvid, hnv, hts, hloff⟩ := volumeHeader_single fso (adjustOptions fso opt) (fso.volume 0)
      allocBase blockset ((adjustOptions_version fso opt).symm ▸ hm)
    have hm' : ¬ volVersionMultiVolumes ≤ fso.version := hver.symm ▸ hm
    refine ⟨hintact, htid, hvid, hvs, ?_, ?_, ?_, hv.trans hver.symm, hids _ hv hf ht ?_⟩
    · rw [hloff 0 (by decide), hzero]
    · intro j hj
      rw [hloff j hj, if_neg hm']
    · rw [hts, if_neg hm']
    · rw [hnv, if_neg hm']

/-- What the checks of the tool have established about the layout. -/
theorem mkfs_layout (h : mkfs ac dev opt = some (fso, f)) :
    fso.nvolumes = ac ∧ fso.version = opt.version ∧ ac ≤ maxVolumes ∧ fso.Verify dev ∧
    fso.totalSize = sizeBefore ac dev ac ∧
    ∀ i, fso.volume i = ⟨i, sizeBefore ac dev i, volumeSize ac dev i⟩ := by
  obtain ⟨hac, hfso, hver, -⟩ := mkfs_spec h
  refine ⟨?_, ?_, hac, hver, ?_, ?_⟩
  · rw [hfso]
    rfl
  · rw [hfso]
    rfl
  · rw [hfso]
    rfl
  · intro i
    rw [hfso]
    rfl

theorem mkfs_header (h : mkfs ac dev opt = some (fso, f)) {i : Nat} (hi : i < ac) :
    HeaderOf fso (commonFields fso opt) i (f.hdr i) := by
  obtain ⟨allocBase, blockset, heq⟩ := (mkfs_formatted h hi).isHeader
  obtain ⟨hn, hv, hac, hver, htotal, hvol⟩ := mkfs_layout h
  have hsize := volumeSize_le ac dev i
  have hdev := (dev i).size_lt
  have hlt : volumeSize ac dev i < offMod := by
    unfold offMax at hdev
    unfold offMod
    omega
  rw [heq]
  refine volumeHeader_headerOf (hn.symm ▸ hac) (hn.symm ▸ hi) (by rw [hvol]) (by rw [hvol]; exact hlt)
    ?_ (htotal ▸ sizeBefore_lt ac) hv ?_
  · intro j
    rw [hvol]
    exact sizeBefore_lt j
  · intro hm
    obtain ⟨-, hver, -⟩ := hver
    rw [if_neg (hv.symm ▸ hm)] at hver
    have hone := hver.1
    have hi0 : i = 0 := by omega
    subst i
    exact ⟨rfl, hver.2.2.1⟩

end Layout

section Mount

variable (fso : Ondisk) (f : Formatted) (common : Nat × Nat × Nat × Nat) (done : List Nat)

/-- The entry of volume `i` in the driver's table. -/
def kernelVolume (i : Nat) : KernelVolume :=
  ⟨some (f.dev i), i, (fso.volume i).offset, (fso.volume i).size⟩

/-- The variables of `hammer2_init_volumes` when the volumes of `done` have been read. -/
def midState : InitState where
  volumes i := if i ∈ done then kernelVolume fso f i else emptyVolume
  common := if done = [] then none else some common
  rootvoldata := if rootVolume ∈ done then f.hdr rootVolume else zeroImage
  rootvolzone := if rootVolume ∈ done then some 0 else none
  rootvoldevvp := if rootVolume ∈ done then some (f.dev rootVolume) else none

end Mount

section MountAll

variable (fso : Ondisk) (f : Formatted) (common : Nat × Nat × Nat × Nat)

theorem midState_nil : midState fso f common [] = initState := by
  unfold midState initState
  simp

/-- The variables when the first `n` volumes have been read in some order. -/
theorem midState_all {done : List Nat} {n : Nat} (hn : 0 < n) (hmem : ∀ i, i ∈ done ↔ i < n) :
    (midState fso f common done).rootvoldata = f.hdr rootVolume ∧
    (∀ i < n, (midState fso f common done).volumes i = kernelVolume fso f i) ∧
    ∀ i, n ≤ i → (midState fso f common done).volumes i = emptyVolume := by
  unfold midState
  refine ⟨if_pos ((hmem rootVolume).mpr hn), ?_, ?_⟩
  · intro i hi
    exact if_pos ((hmem i).mpr hi)
  · intro i hi
    exact if_neg fun h => Nat.not_le.mpr ((hmem i).mp h) hi

end MountAll

section MountStep

variable {fso : Ondisk} {f : Formatted} {common : Nat × Nat × Nat × Nat} {done : List Nat}

/-- Reading one more volume. -/
theorem initVolume_midState {i : Nat} (hi : i < maxVolumes) (hdone : i ∉ done)
    (hread : (f.dev i).readVolumeHeader = some (0, f.hdr i)) (hhdr : HeaderOf fso common i (f.hdr i))
    (hver : 1 ≤ fso.version ∧ fso.version < volVersionWip) :
    initVolume (midState fso f common done) (f.dev i) = .ok (midState fso f common (i :: done)) := by
  have hid : ((midState fso f common done).volumes i).id = -1 := by
    unfold midState
    simp only [if_neg hdone]
    rfl
  have hcommon : (midState fso f common done).common.getD common = common := by
    unfold midState
    dsimp only
    split
    · rfl
    · rfl
  have hvolumes : Function.update (midState fso f common done).volumes i (kernelVolume fso f i) =
      (midState fso f common (i :: done)).volumes := by
    funext j
    unfold midState
    by_cases hj : j = i
    · subst j
      simp
    · simp [hj]
  unfold initVolume
  rw [hread]
  dsimp only
  rw [hhdr.voluId, hhdr.common, hhdr.version, hhdr.voluLoff, hhdr.voluSize, if_neg (by omega), hid,
    if_neg (by simp), hcommon, if_neg (by simp), if_neg (by omega)]
  have hvol : (⟨some (f.dev i), i, (fso.volume i).offset, (fso.volume i).size⟩ : KernelVolume) =
      kernelVolume fso f i := rfl
  rw [hvol, hvolumes]
  split
  next hroot =>
    subst i
    unfold midState
    simp
  next hroot =>
    have hne : rootVolume ≠ i := fun heq => hroot heq.symm
    unfold midState
    simp [hne]

/-- Reading the remaining volumes in any order. -/
theorem foldlM_midState {l : List Nat} (hnd : l.Nodup) (hdone : ∀ i ∈ l, i ∉ done)
    (hlt : ∀ i ∈ l, i < maxVolumes)
    (hread : ∀ i ∈ l, (f.dev i).readVolumeHeader = some (0, f.hdr i))
    (hhdr : ∀ i ∈ l, HeaderOf fso common i (f.hdr i))
    (hver : 1 ≤ fso.version ∧ fso.version < volVersionWip) :
    (l.map f.dev).foldlM initVolume (midState fso f common done) =
      .ok (midState fso f common (l.reverse ++ done)) := by
  induction l generalizing done with
  | nil => rfl
  | cons i l ih =>
    obtain ⟨hi, hl⟩ := List.nodup_cons.mp hnd
    have hstep := initVolume_midState (hlt i List.mem_cons_self) (hdone i List.mem_cons_self)
      (hread i List.mem_cons_self) (hhdr i List.mem_cons_self) hver
    have hrest : ∀ j ∈ l, j ∉ i :: done := by
      intro j hj hmem
      rcases List.mem_cons.mp hmem with rfl | hmem
      · exact hi hj
      · exact hdone j (List.mem_cons_of_mem _ hj) hmem
    have ih := ih hl hrest (fun j hj => hlt j (List.mem_cons_of_mem _ hj))
      (fun j hj => hread j (List.mem_cons_of_mem _ hj))
      (fun j hj => hhdr j (List.mem_cons_of_mem _ hj))
    rw [List.map_cons, List.foldlM_cons, hstep, List.reverse_cons, List.append_assoc]
    exact ih

end MountStep

/-- A mount of the devices, given in any order, takes the header that was written on each of them and
accepts the set with the layout of the tool. -/
structure NewfsMountable (fso : Ondisk) (f : Formatted) : Prop where
  intact : ∀ i < fso.nvolumes, ∀ z < numVolhdrs, z * zoneBytes < (fso.volume i).size →
    (f.dev i).header z = f.hdr i ∧ (f.hdr i).Intact
  read : ∀ i < fso.nvolumes, (f.dev i).readVolumeHeader = some (0, f.hdr i)
  accepted : ∀ l : List Nat, l.Perm (List.range fso.nvolumes) →
    ∃ s, initVolumes (l.map f.dev) = .ok s ∧ s.rootvoldata = f.hdr rootVolume ∧
      (∀ i < fso.nvolumes, s.volumes i = kernelVolume fso f i) ∧
      (∀ i, fso.nvolumes ≤ i → s.volumes i = emptyVolume) ∧
      mountNvolumes s.rootvoldata = fso.nvolumes ∧ mountTotalSize s.rootvoldata = fso.totalSize

/-- No device holds an intact header copy that is newer than a fresh one and lies outside the volume
but inside the device. -/
def NoStaleHeader (ac : Nat) (dev : Nat → Device) : Prop :=
  ∀ i < ac, ∀ z < numVolhdrs, volumeSize ac dev i ≤ z * zoneBytes → z * zoneBytes < (dev i).size →
    ((dev i).header z).Intact → ((dev i).header z).mirrorTid ≤ 16

section Main

variable {ac : Nat} {dev : Nat → Device} {opt : MkfsOptions} {fso : Ondisk} {f : Formatted}

theorem sumSizes_eq {volumes : Nat → KernelVolume} (h : mkfs ac dev opt = some (fso, f))
    (hset : ∀ i < ac, volumes i = kernelVolume fso f i) {m : Nat} (hm : m ≤ ac) :
    sumSizes volumes (List.range m) = sizeBefore ac dev m := by
  obtain ⟨-, -, -, -, -, hvol⟩ := mkfs_layout h
  induction m with
  | zero => rfl
  | succ m ih =>
    have hsize : (volumes m).size = volumeSize ac dev m := by
      rw [hset m (by omega)]
      unfold kernelVolume
      rw [hvol]
    rw [sumSizes_range_succ, ih (by omega), hsize, sizeBefore]

theorem verifyVolumes_of_mkfs {volumes : Nat → KernelVolume} (h : mkfs ac dev opt = some (fso, f))
    (hset : ∀ i < ac, volumes i = kernelVolume fso f i)
    (hempty : ∀ i, ac ≤ i → volumes i = emptyVolume) :
    VerifyVolumes volumes (f.hdr rootVolume) := by
  obtain ⟨hn, hv, hac, ⟨hcommon, hver, hpos⟩, htotal, hvol⟩ := mkfs_layout h
  have hhdr := mkfs_header h (i := rootVolume) (by unfold rootVolume; omega)
  have hinit : initialized volumes = List.range ac :=
    initialized_eq hac (fun i hi => by rw [hset i hi]; rfl) hempty
  have hlt : ∀ i, (volumes i).id ≠ -1 → i < ac := by
    intro i hid
    by_contra hge
    rw [hempty i (by omega)] at hid
    exact hid rfl
  have hentry : ∀ i < ac, (volumes i).offset = (fso.volume i).offset ∧
      (volumes i).size = (fso.volume i).size ∧ (volumes i).id = i ∧
      (volumes i).mediasize = (f.dev i).size := by
    intro i hi
    rw [hset i hi]
    exact ⟨rfl, rfl, rfl, rfl⟩
  refine ⟨⟨hhdr.voluId, ?_⟩, ?_⟩
  · intro i hi hid
    have hi := hlt i hid
    obtain ⟨ho, hs, -, hmedia⟩ := hentry i hi
    obtain ⟨h1, h2, h3⟩ := hcommon.2 i (by omega)
    have hform := mkfs_formatted h hi
    have hle := hform.size_le
    have hnz := hform.size_pos
    rw [ho, hs, hmedia]
    exact ⟨h1, h2, by omega, by omega⟩
  · rw [hhdr.version]
    split
    next hm =>
      rw [if_pos hm] at hver
      have hnv : (f.hdr rootVolume).nvolumes = ac := by
        have hc := congrArg (fun c => c.2.1) hhdr.common
        unfold VolumeData.common commonFields at hc
        simpa only [if_pos hm, hn] using hc
      have hts := hhdr.totalSize
      rw [if_pos hm] at hts
      unfold VerifyVolumes2
      rw [hinit, List.length_range, hnv, hts, sumSizes_eq h hset (Nat.le_refl _)]
      refine ⟨rfl, htotal, ?_, ?_, ?_⟩
      · intro i hi
        rw [hhdr.voluLoffs i (by omega), if_pos hm, if_pos (by omega)]
        exact (hcommon.2 i (by omega)).1
      · intro i hi hge
        rw [hhdr.voluLoffs i hi, if_pos hm, if_neg (by omega)]
      · intro i _ hid
        have hi := hlt i hid
        obtain ⟨ho, hs, hidi, -⟩ := hentry i hi
        obtain ⟨halign, hprev, hlast⟩ := hver i (by omega)
        rw [ho, hs]
        refine ⟨halign, ?_, ?_⟩
        · split
          next hzero => rwa [if_pos hzero] at hprev
          next hzero =>
            rw [if_neg hzero] at hprev
            obtain ⟨ho1, hs1, hid1, -⟩ := hentry (i - 1) (by omega)
            rw [ho1, hs1, hidi, hid1]
            exact ⟨by omega, hprev.2⟩
        · rw [hn] at hlast
          by_cases hl : i = ac - 1
          · rw [if_neg (by omega)] at hlast ⊢
            exact hlast
          · rw [if_pos (by omega)] at hlast ⊢
            exact hlast
    next hm =>
      rw [if_neg hm] at hver
      obtain ⟨hone, hid0, hoff0, hal0⟩ := hver
      have hnv : (f.hdr rootVolume).nvolumes = 0 := by
        have hc := congrArg (fun c => c.2.1) hhdr.common
        unfold VolumeData.common commonFields at hc
        simpa only [if_neg hm] using hc
      have hts := hhdr.totalSize
      rw [if_neg hm] at hts
      obtain ⟨ho, hs, hidi, -⟩ := hentry rootVolume (by unfold rootVolume; omega)
      refine ⟨?_, hnv, hts, ?_, ?_, ?_, ?_⟩
      · rw [hinit, List.length_range]
        omega
      · intro i hi
        rw [hhdr.voluLoffs i hi, if_neg hm]
      · rw [hidi]
        rfl
      · rw [ho]
        exact hoff0
      · rw [hs]
        exact hal0

/-- A mount takes the fresh header exactly when no stale copy on the device is newer. -/
theorem readVolumeHeader_fresh (h : mkfs ac dev opt = some (fso, f)) {i : Nat} (hi : i < ac) :
    (f.dev i).readVolumeHeader = some (0, f.hdr i) ↔
      ∀ z < numVolhdrs, volumeSize ac dev i ≤ z * zoneBytes → z * zoneBytes < (dev i).size →
        ((dev i).header z).Intact → ((dev i).header z).mirrorTid ≤ 16 := by
  obtain ⟨-, -, -, -, -, hvol⟩ := mkfs_layout h
  have hform := mkfs_formatted h hi
  have hhdr := mkfs_header h hi
  have hsize : (fso.volume i).size = volumeSize ac dev i := by rw [hvol]
  have hpos := hform.size_pos
  have hlo := hform.size_le
  have hhi := hform.le_size
  have hfit := volumeSize_le ac dev i
  rw [hsize] at hpos
  -- only zone 0 can have come into being by the growth of an image file
  have hvisible : ∀ z, volumeSize ac dev i ≤ z * zoneBytes →
      (z * zoneBytes < (f.dev i).size ↔ z * zoneBytes < (dev i).size) := by
    intro z hz
    have hz0 : z ≠ 0 := by
      rintro rfl
      omega
    unfold zoneBytes freemapLevel1Size at *
    omega
  have htid : copyTid (0, f.hdr i) = 16 := hhdr.mirrorTid
  rw [readVolumeHeader_eq_some, intactCopy_header, hform.headers 0 (by decide), hsize]
  constructor
  · rintro ⟨-, hall⟩ z hz hge hlt hint
    have hcopy : IntactCopy (f.dev i).size (fun z => some ((f.dev i).header z))
        (z, (dev i).header z) := by
      refine intactCopy_header.mpr ⟨hz, (hvisible z hge).mpr hlt, ?_, hint⟩
      rw [hform.headers z hz, hsize, if_neg (by omega)]
    have hd : copyTid (z, (dev i).header z) = ((dev i).header z).mirrorTid := rfl
    rcases hall _ hcopy with hr | ⟨hr, -⟩
    · omega
    · omega
  · intro hstale
    refine ⟨⟨by decide, by omega, if_pos (by omega), hhdr.intact⟩, ?_⟩
    rintro ⟨z, vd⟩ hcopy
    obtain ⟨hz, hlt, heq, hint⟩ := intactCopy_header.mp hcopy
    rw [hform.headers z hz, hsize] at heq
    by_cases hin : z * zoneBytes < volumeSize ac dev i
    · rw [if_pos hin] at heq
      subst vd
      exact Or.inr ⟨rfl, Nat.zero_le _⟩
    · rw [if_neg hin] at heq
      subst vd
      have hle := hstale z hz (by omega) ((hvisible z (by omega)).mp hlt) hint
      have hd : copyTid (z, (dev i).header z) = ((dev i).header z).mirrorTid := rfl
      by_cases heq : ((dev i).header z).mirrorTid = 16
      · exact Or.inr ⟨by omega, Nat.zero_le _⟩
      · exact Or.inl (by omega)

/-- When each device shows its fresh header, the set is accepted in any order. -/
theorem initVolumes_of_mkfs (h : mkfs ac dev opt = some (fso, f))
    (hread : ∀ i < ac, (f.dev i).readVolumeHeader = some (0, f.hdr i)) {l : List Nat}
    (hl : l.Perm (List.range ac)) :
    initVolumes (l.map f.dev) = .ok (midState fso f (commonFields fso opt) (l.reverse ++ [])) := by
  obtain ⟨hn, hv, hac, -, -, -⟩ := mkfs_layout h
  have hmem : ∀ i, i ∈ l ↔ i < ac := by
    intro i
    rw [hl.mem_iff, List.mem_range]
  have hver : 1 ≤ fso.version ∧ fso.version < volVersionWip :=
    hv.symm ▸ ⟨opt.version_min, opt.version_max⟩
  have hfold : (l.map f.dev).foldlM initVolume (midState fso f (commonFields fso opt) []) =
      .ok (midState fso f (commonFields fso opt) (l.reverse ++ [])) := foldlM_midState
    (hl.nodup_iff.mpr List.nodup_range) (by simp)
    (fun i hi => Nat.lt_of_lt_of_le ((hmem i).mp hi) hac) (fun i hi => hread i ((hmem i).mp hi))
    (fun i hi => mkfs_header h ((hmem i).mp hi)) hver
  obtain ⟨-, -, -, ⟨-, -, hpos⟩, -, -⟩ := mkfs_layout h
  obtain ⟨hroot, hset, hempty⟩ := midState_all fso f (commonFields fso opt) (n := ac)
    (hn ▸ hpos) (by simp [hmem] : ∀ i, i ∈ l.reverse ++ [] ↔ i < ac)
  unfold initVolumes
  rw [← midState_nil fso f (commonFields fso opt), hfold]
  dsimp only
  rw [hroot, (mkfs_header h (i := rootVolume) (hn ▸ hpos)).version, if_neg (by omega),
    if_pos (verifyVolumes_of_mkfs h hset hempty)]

theorem mount_totals (h : mkfs ac dev opt = some (fso, f)) :
    mountNvolumes (f.hdr rootVolume) = fso.nvolumes ∧
      mountTotalSize (f.hdr rootVolume) = fso.totalSize := by
  obtain ⟨hn, hv, hac, ⟨-, hver, hpos⟩, htotal, hvol⟩ := mkfs_layout h
  have hhdr := mkfs_header h (i := rootVolume) (by unfold rootVolume; omega)
  have hts := hhdr.totalSize
  unfold mountNvolumes mountTotalSize
  rw [hhdr.version]
  by_cases hm : volVersionMultiVolumes ≤ fso.version
  · rw [if_pos hm] at hts
    have hc := congrArg (fun c => c.2.1) hhdr.common
    unfold VolumeData.common commonFields at hc
    rw [if_pos hm, if_pos hm, hts]
    exact ⟨by simpa only [if_pos hm] using hc, rfl⟩
  · rw [if_neg hm] at hver
    have hone : ac = 1 := hn.symm.trans hver.1
    subst hone
    rw [if_neg hm, if_neg hm, hhdr.voluSize, hn, htotal, hvol]
    have hlt := volumeSize_le 1 dev rootVolume
    have hdev := (dev rootVolume).size_lt
    have hmod : volumeSize 1 dev 0 % offMod = volumeSize 1 dev 0 := Nat.mod_eq_of_lt (by
      unfold rootVolume at hlt hdev
      unfold offMax at hdev
      unfold offMod
      omega)
    refine ⟨rfl, ?_⟩
    rw [sizeBefore, sizeBefore, Nat.zero_add, hmod]
    rfl

/-- What `newfs_hammer2` writes mounts as it was laid out, exactly when no device holds a newer stale
header copy behind its volume. -/
theorem newfs_mountable (h : mkfs ac dev opt = some (fso, f)) :
    NewfsMountable fso f ↔ NoStaleHeader ac dev := by
  obtain ⟨hn, -, -, -, -, -⟩ := mkfs_layout h
  constructor
  · intro hmount i hi
    exact (readVolumeHeader_fresh h hi).mp (hmount.read i (hn.symm ▸ hi))
  · intro hstale
    have hread : ∀ i < ac, (f.dev i).readVolumeHeader = some (0, f.hdr i) :=
      fun i hi => (readVolumeHeader_fresh h hi).mpr (hstale i hi)
    refine ⟨?_, fun i hi => hread i (hn ▸ hi), ?_⟩
    · intro i hi z hz hlt
      rw [(mkfs_formatted h (hn ▸ hi)).headers z hz, if_pos hlt]
      exact ⟨rfl, (mkfs_header h (hn ▸ hi)).intact⟩
    · intro l hl
      rw [hn] at hl ⊢
      have hmem : ∀ i, i ∈ l ↔ i < ac := by
        intro i
        rw [hl.mem_iff, List.mem_range]
      obtain ⟨-, -, -, ⟨-, -, hpos⟩, -, -⟩ := mkfs_layout h
      obtain ⟨hroot, hset, hempty⟩ := midState_all fso f (commonFields fso opt) (n := ac)
        (hn ▸ hpos) (by simp [hmem] : ∀ i, i ∈ l.reverse ++ [] ↔ i < ac)
      obtain ⟨hnv, htotal⟩ := mount_totals h
      exact ⟨_, initVolumes_of_mkfs h hread hl, hroot, hset, hempty, hroot ▸ hn ▸ hnv,
        hroot ▸ htotal⟩

end Main

/-- The header of a 4GB volume after its first flush. -/
def staleHeader : VolumeData :=
  (((VolumeData.setMagic zeroImage volumeIdHbo).setVoluSize 4294967296).setMirrorTid 17).updateIcrc

/-- A partition of 2GB and 4MB that was cut out of a 4GB one; the second zone still has its header. -/
def cutDevice : Device where
  stat := (0, 0)
  isImage := false
  size := 2151677952
  bytes k := if 2147483648 ≤ k ∧ k < 2147549184 then staleHeader (k - 2147483648) else 0#8
  size_lt := by decide
  bytes_end := by
    intro k hk
    exact if_neg (by omega)

/-- Two labels, and boot and aux areas of the smallest size. -/
def smallOptions : MkfsOptions where
  version := 2
  bootAreaSize := 8388608
  auxAreaSize := 8388608
  nLabels := 2
  volFsid := 1
  fsType := 2
  inodeBlock _ := zeroImage
  srootBlockset _ := zeroImage
  version_min := by decide
  version_max := by decide

theorem cutDevice_accepted : (mkfs 1 (fun _ => cutDevice) smallOptions).isSome = true := by
  decide +kernel

theorem staleHeader_end {k : Nat} (hk : pbufBytes ≤ k) : staleHeader k = 0#8 := by
  have hbyte : getLE staleHeader k 1 = 0 := by
    unfold pbufBytes at hk
    unfold staleHeader
    simp (disch := omega) only [getLE_updateIcrc_high, VolumeData.setMirrorTid,
      VolumeData.setVoluSize, VolumeData.setMagic, getLE_setLE_of_disjoint, getLE_zeroImage]
  refine BitVec.eq_of_toNat_eq ?_
  simpa [getLE] using hbyte

theorem staleHeader_intact : staleHeader.Intact := by
  refine updateIcrc_intact ?_
  rw [magic_setMirrorTid, magic_setVoluSize]
  exact magic_setMagic _ _ (by decide)

theorem staleHeader_mirrorTid : staleHeader.mirrorTid = 17 := by
  unfold staleHeader
  rw [mirrorTid_updateIcrc]
  exact mirrorTid_setMirrorTid _ _ (by decide)

theorem cutDevice_header : cutDevice.header 1 = staleHeader := by
  funext k
  unfold Device.header Device.read
  split
  next hk =>
    have hbytes : cutDevice.bytes (1 * zoneBytes + k) = if 2147483648 ≤ 1 * zoneBytes + k ∧
        1 * zoneBytes + k < 2147549184 then staleHeader (1 * zoneBytes + k - 2147483648)
        else 0#8 := rfl
    have hzone : 1 * zoneBytes = 2147483648 := by decide
    unfold pbufBytes at hk
    rw [hbytes, hzone, if_pos (by omega), Nat.add_sub_cancel_left]
  next hk => exact (staleHeader_end (by omega)).symm

/-- After a run on the cut partition the driver takes the old header of the second zone. -/
theorem newfs_stale_header_wins : ∃ fso f, mkfs 1 (fun _ => cutDevice) smallOptions = some (fso, f) ∧
    ¬ NewfsMountable fso f := by
  obtain ⟨⟨fso, f⟩, h⟩ := Option.isSome_iff_exists.mp cutDevice_accepted
  refine ⟨fso, f, h, ?_⟩
  intro hmount
  obtain ⟨hn, -⟩ := mkfs_layout h
  have hread := (readVolumeHeader_fresh h (i := 0) (by decide)).mp (hmount.read 0 (by omega))
  have htid := hread 1 (by decide) (by decide) (by decide)
    (cutDevice_header.symm ▸ staleHeader_intact)
  rw [cutDevice_header, staleHeader_mirrorTid] at htid
  omega

/-- A blank device of 64MB. -/
def blankDevice : Device where
  stat := (0, 0)
  isImage := true
  size := 67108864
  bytes := zeroImage
  size_lt := by decide
  bytes_end _ _ := rfl

theorem blankDevice_accepted : (mkfs 1 (fun _ => blankDevice) smallOptions).isSome = true := by
  decide +kernel

theorem newfs_mountable_blank : ∃ fso f, mkfs 1 (fun _ => blankDevice) smallOptions = some (fso, f) ∧
    NewfsMountable fso f := by
  obtain ⟨⟨fso, f⟩, h⟩ := Option.isSome_iff_exists.mp blankDevice_accepted
  refine ⟨fso, f, h, (newfs_mountable h).mpr ?_⟩
  intro i hi z hz hge hlt
  have hsize : volumeSize 1 (fun _ => blankDevice) i = 67108864 := by
    have hi0 : i = 0 := by omega
    subst i
    decide
  have hdev : blankDevice.size = 67108864 := rfl
  rw [hsize] at hge
  rw [hdev] at hlt
  omega

end Hammer2
