import Hammer2.NewfsMount
import Hammer2.PrefixRanges

/-! The address space of a mount: which offsets each volume holds, and what `hammer2_get_volume`
makes of an offset. -/

namespace Hammer2

open ByteImage PrefixRanges

/-- `hammer2_get_volume`, as the index of the volume; `none` is the panic. -/
def getVolume (volumes : Nat → KernelVolume) (nvolumes offset : Nat) : Option Nat :=
  let offset := offset / 64 * 64
  (List.range nvolumes).find? fun i =>
    (volumes i).offset ≤ offset ∧ offset < ((volumes i).offset + (volumes i).size) % offMod

/-- The offsets of a volume. -/
def KernelVolume.Holds (vol : KernelVolume) (off : Nat) : Prop :=
  vol.offset ≤ off ∧ off < vol.offset + vol.size

/-- The volumes are set up, no two overlap, each offset below the total size is in one of them, and
that is the one that `hammer2_get_volume` returns. -/
structure VolumesTile (volumes : Nat → KernelVolume) (nvolumes totalSize : Nat) : Prop where
  set : ∀ i < nvolumes, (volumes i).dev.isSome ∧ (volumes i).id = i
  disjoint : ∀ i < nvolumes, ∀ j < nvolumes, ∀ off, (volumes i).Holds off → (volumes j).Holds off →
    i = j
  covers : ∀ off < totalSize, ∃ i < nvolumes, (volumes i).Holds off
  lookup : ∀ off < totalSize, ∃ i < nvolumes, getVolume volumes nvolumes off = some i ∧
    (volumes i).Holds off

/-- What a mount has checked about its table of volumes: they are set up one behind the other, with
offsets of 64 bits. -/
structure VolumesChained (volumes : Nat → KernelVolume) (n : Nat) : Prop where
  set : ∀ i < n, (volumes i).dev.isSome ∧ (volumes i).id = i
  first : (volumes 0).offset = 0
  next : ∀ i, i + 1 < n →
    (volumes (i + 1)).offset = ((volumes i).offset + (volumes i).size) % offMod
  size : ∀ i < n, 0 < (volumes i).size ∧ (volumes i).size < offMod ∧ (volumes i).size % 64 = 0

section Chained

variable {volumes : Nat → KernelVolume} {n : Nat}

/-- The sizes in front of volume `i`. -/
def volumeStart (volumes : Nat → KernelVolume) : Nat → Nat := start fun i => (volumes i).size

theorem volumeStart_succ (volumes : Nat → KernelVolume) (i : Nat) :
    volumeStart volumes (i + 1) = volumeStart volumes i + (volumes i).size :=
  start_succ _ i

theorem VolumesChained.offset (h : VolumesChained volumes n) {i : Nat} (hi : i < n) :
    (volumes i).offset = volumeStart volumes i % offMod := by
  induction i with
  | zero => exact h.first
  | succ i ih =>
    rw [h.next i hi, ih (by omega), volumeStart_succ, Nat.mod_add_mod]

theorem VolumesChained.start_aligned (h : VolumesChained volumes n) {i : Nat} (hi : i ≤ n) :
    volumeStart volumes i % 64 = 0 := by
  induction i with
  | zero => rfl
  | succ i ih =>
    have hsize := (h.size i hi).2.2
    have hlast := ih (by omega)
    rw [volumeStart_succ]
    omega

/-- Offsets that have not wrapped around. -/
theorem VolumesChained.holds_iff (h : VolumesChained volumes n) {i off : Nat} (hi : i < n)
    (hwrap : volumeStart volumes i < offMod) :
    (volumes i).Holds off ↔
      volumeStart volumes i ≤ off ∧ off < volumeStart volumes (i + 1) := by
  unfold KernelVolume.Holds
  rw [h.offset hi, Nat.mod_eq_of_lt hwrap, volumeStart_succ]

theorem VolumesChained.start_lt (h : volumeStart volumes (n - 1) < offMod) {i : Nat} (hi : i < n) :
    volumeStart volumes i < offMod :=
  (start_mono _ (Nat.le_sub_one_of_lt hi)).trans_lt h

/-- The end of the volume that holds an offset below the total size has not wrapped around. -/
theorem VolumesChained.end_lt (h : VolumesChained volumes n)
    (hwrap : volumeStart volumes (n - 1) < offMod) {i off : Nat} (hi : i < n)
    (hoff : off < volumeStart volumes n % offMod) (hin : volumeStart volumes i ≤ off) :
    volumeStart volumes (i + 1) < offMod := by
  rcases Nat.lt_or_ge (i + 1) n with hlt | hge
  · exact VolumesChained.start_lt hwrap hlt
  · have hlast : i = n - 1 := by omega
    have hend := volumeStart_succ volumes i
    have hsize := (h.size i hi).2.1
    rw [show n = i + 1 by omega, hend] at hoff
    rw [← hlast] at hwrap
    rw [hend]
    by_contra hover
    rw [Nat.mod_eq_sub_mod (Nat.le_of_not_lt hover), Nat.mod_eq_of_lt (by omega)] at hoff
    omega

theorem VolumesChained.end_eq (h : VolumesChained volumes n) {i : Nat} (hi : i < n)
    (hend : volumeStart volumes (i + 1) < offMod) :
    ((volumes i).offset + (volumes i).size) % offMod = volumeStart volumes (i + 1) := by
  rw [h.offset hi, Nat.mod_add_mod, ← volumeStart_succ, Nat.mod_eq_of_lt hend]

theorem VolumesChained.getVolume_eq (h : VolumesChained volumes n)
    (hwrap : volumeStart volumes (n - 1) < offMod) {i off : Nat} (hi : i < n)
    (hoff : off < volumeStart volumes n % offMod)
    (hin : volumeStart volumes i ≤ off ∧ off < volumeStart volumes (i + 1)) :
    getVolume volumes n off = some i := by
  have hlo := h.start_aligned hi.le
  have hhi := h.start_aligned (Nat.succ_le_of_lt hi)
  have hstart : volumeStart volumes i < offMod := VolumesChained.start_lt hwrap hi
  have hend := h.end_lt hwrap hi hoff hin.1
  unfold getVolume
  apply List.find?_range_eq_some.mpr
  refine ⟨?_, List.mem_range.mpr hi, ?_⟩
  · rw [decide_eq_true_eq, h.end_eq hi hend, h.offset hi, Nat.mod_eq_of_lt hstart]
    omega
  · intro j hj
    have hjn : j + 1 < n := by omega
    have hle : volumeStart volumes (j + 1) ≤ volumeStart volumes i := start_mono _ hj
    rw [Bool.not_eq_true', decide_eq_false_iff_not,
      h.end_eq (by omega) (VolumesChained.start_lt hwrap hjn)]
    omega

/-- The volumes tile the address space if only the end of the last one may wrap around. -/
theorem VolumesChained.tile (h : VolumesChained volumes n)
    (hwrap : volumeStart volumes (n - 1) < offMod) :
    VolumesTile volumes n (volumeStart volumes n % offMod) where
  set := h.set
  disjoint := by
    intro i hi j hj off hoff hoff'
    rw [h.holds_iff hi (VolumesChained.start_lt hwrap hi)] at hoff
    rw [h.holds_iff hj (VolumesChained.start_lt hwrap hj)] at hoff'
    exact range_unique hoff hoff'
  covers := by
    intro off hoff
    obtain ⟨i, hi, hin⟩ := exists_range (hoff.trans_le (Nat.mod_le _ _))
    exact ⟨i, hi, (h.holds_iff hi (VolumesChained.start_lt hwrap hi)).mpr hin⟩
  lookup := by
    intro off hoff
    obtain ⟨i, hi, hin⟩ := exists_range (hoff.trans_le (Nat.mod_le _ _))
    exact ⟨i, hi, h.getVolume_eq hwrap hi hoff hin,
      (h.holds_iff hi (VolumesChained.start_lt hwrap hi)).mpr hin⟩

/-- Where the sum of the sizes passes 64 bits, a volume starts inside an earlier one. -/
theorem VolumesChained.overlap (h : VolumesChained volumes n)
    (hwrap : offMod ≤ volumeStart volumes (n - 1)) :
    ∃ i < n, ∃ j < n, i ≠ j ∧ ∃ off, (volumes i).Holds off ∧ (volumes j).Holds off := by
  obtain ⟨i, hi, hbelow, habove⟩ : ∃ i < n - 1, volumeStart volumes i < offMod ∧
      offMod ≤ volumeStart volumes (i + 1) := exists_first (by decide : 0 < offMod) hwrap
  have hin : i + 1 < n := by omega
  have hend := volumeStart_succ volumes i
  have hsize := (h.size i (by omega)).2.1
  have hoff : (volumes (i + 1)).offset = volumeStart volumes (i + 1) - offMod := by
    rw [h.offset hin, Nat.mod_eq_sub_mod habove, Nat.mod_eq_of_lt]
    omega
  have hinside : (volumes (i + 1)).offset < volumeStart volumes i := by
    rw [hoff, hend]
    omega
  obtain ⟨j, hj, hrange⟩ := exists_range hinside
  have hstart : volumeStart volumes j < offMod := (start_mono _ hj.le).trans_lt hbelow
  refine ⟨i + 1, hin, j, by omega, by omega, (volumes (i + 1)).offset, ?_, ?_⟩
  · exact ⟨le_rfl, Nat.lt_add_of_pos_right (h.size (i + 1) hin).1⟩
  · exact (h.holds_iff (by omega) hstart).mpr hrange

theorem VolumesChained.tile_iff (h : VolumesChained volumes n) :
    VolumesTile volumes n (volumeStart volumes n % offMod) ↔
      volumeStart volumes (n - 1) < offMod := by
  constructor
  · intro ht
    by_contra hwrap
    obtain ⟨i, hi, j, hj, hne, off, hoff, hoff'⟩ := h.overlap (Nat.le_of_not_lt hwrap)
    exact hne (ht.disjoint i hi j hj off hoff hoff')
  · exact h.tile

end Chained

section Accepted

/-- An entry of the table is unset or belongs to its index. -/
def TableEntry (i : Nat) (vol : KernelVolume) : Prop :=
  vol = emptyVolume ∨ (vol.dev.isSome ∧ vol.id = i ∧ vol.size < offMod)

/-- What holds of the table while `hammer2_init_volumes` fills it. -/
structure TableInv (s : InitState) : Prop where
  entry : ∀ i, TableEntry i (s.volumes i)
  root : s.rootvoldata = zeroImage ∨
    ((s.volumes rootVolume).id = 0 ∧ (s.volumes rootVolume).size = s.rootvoldata.voluSize)

theorem initState_inv : TableInv initState where
  entry := fun _ => Or.inl rfl
  root := Or.inl rfl

theorem voluSize_lt (vd : VolumeData) : vd.voluSize < offMod := getLE_lt vd 0x28 8

theorem initVolume_inv {s s' : InitState} {e : Device} (h : TableInv s)
    (hs : initVolume s e = .ok s') : TableInv s' := by
  unfold initVolume at hs
  split at hs
  next => cases hs
  next zone voldata hread =>
    have hentry : ∀ i, TableEntry i (Function.update s.volumes voldata.voluId
        ⟨some e, voldata.voluId, voldata.voluLoff voldata.voluId, voldata.voluSize⟩ i) := by
      intro i
      by_cases hi : i = voldata.voluId
      · subst hi
        rw [Function.update_self]
        exact Or.inr ⟨rfl, rfl, voluSize_lt voldata⟩
      · rw [Function.update_of_ne hi]
        exact h.entry i
    split_ifs at hs with hmax hused hcommon hversion hroot
    · cases hs
      refine ⟨hentry, Or.inr ?_⟩
      dsimp only
      rw [hroot, Function.update_self]
      exact ⟨rfl, rfl⟩
    · cases hs
      refine ⟨hentry, ?_⟩
      dsimp only
      rw [Function.update_of_ne (Ne.symm hroot)]
      exact h.root

theorem foldlM_inv {devvpl : List Device} {s s' : InitState} (h : TableInv s)
    (hs : devvpl.foldlM initVolume s = .ok s') : TableInv s' := by
  induction devvpl generalizing s with
  | nil =>
    cases hs
    exact h
  | cons e devvpl ih =>
    rw [List.foldlM_cons] at hs
    obtain ⟨mid, hmid, hs⟩ := except_bind_eq_ok.mp hs
    exact ih (initVolume_inv h hmid) hs

/-- A filter that keeps everything in front of what it keeps. -/
theorem filter_range_eq {p : Nat → Bool} {m : Nat} (h : ∀ i, i + 1 < m → p (i + 1) → p i) :
    (List.range m).filter p = List.range ((List.range m).filter p).length := by
  induction m with
  | zero => rfl
  | succ m ih =>
    have ih := ih fun i hi => h i (Nat.lt_succ_of_lt hi)
    rw [List.range_succ, List.filter_append]
    cases hp : p m with
    | false => simpa [hp] using ih
    | true =>
      have hall : ∀ d ≤ m, p (m - d) := by
        intro d
        induction d with
        | zero => exact fun _ => hp
        | succ d ihd =>
          intro hd
          apply h (m - (d + 1)) (by omega)
          rw [show m - (d + 1) + 1 = m - d by omega]
          exact ihd (by omega)
      have hself : (List.range m).filter p = List.range m := by
        apply List.filter_eq_self.mpr
        intro i hi
        have hpi := hall (m - i) (by omega)
        rwa [Nat.sub_sub_self (List.mem_range.mp hi).le] at hpi
      rw [hself]
      simp [hp, List.range_succ]

section Table

variable {volumes : Nat → KernelVolume} {rootvoldata : VolumeData}

theorem entry_set {i : Nat} (h : TableEntry i (volumes i)) (hid : (volumes i).id ≠ -1) :
    (volumes i).dev.isSome ∧ (volumes i).id = i ∧ (volumes i).size < offMod :=
  h.resolve_left fun hempty => hid (by rw [hempty]; rfl)

/-- A volume behind an unset entry would have an offset that is not aligned. -/
theorem previous_set (hentry : ∀ i, TableEntry i (volumes i))
    (hverify : VerifyVolumes2 volumes rootvoldata) {i : Nat} (hi : i + 1 < maxVolumes)
    (hid : (volumes (i + 1)).id ≠ -1) : (volumes i).id ≠ -1 := by
  intro hunset
  obtain ⟨halign, hprev, -⟩ := hverify.2.2.2.2 (i + 1) hi hid
  rw [if_neg (Nat.succ_ne_zero i), Nat.add_sub_cancel] at hprev
  have hempty : volumes i = emptyVolume := by
    rcases hentry i with h | h
    · exact h
    · rw [h.2.1] at hunset
      omega
  rw [hprev.2, hempty] at halign
  exact absurd halign (by decide)

theorem initialized_range (hentry : ∀ i, TableEntry i (volumes i))
    (hverify : VerifyVolumes2 volumes rootvoldata) :
    initialized volumes = List.range (initialized volumes).length := by
  apply filter_range_eq
  intro i hi hid
  rw [decide_eq_true_eq] at hid ⊢
  exact previous_set hentry hverify hi hid

theorem sumSizes_range (volumes : Nat → KernelVolume) (n : Nat) :
    sumSizes volumes (List.range n) = volumeStart volumes n % offMod := by
  induction n with
  | zero => rfl
  | succ n ih => rw [sumSizes_range_succ, ih, volumeStart_succ, Nat.mod_add_mod]

theorem chained_of_verify2 (hentry : ∀ i, TableEntry i (volumes i))
    (hcommon : VerifyVolumesCommon volumes rootvoldata)
    (hverify : VerifyVolumes2 volumes rootvoldata) (hroot : (volumes 0).id ≠ -1) :
    VolumesChained volumes rootvoldata.nvolumes ∧
      rootvoldata.totalSize = volumeStart volumes rootvoldata.nvolumes % offMod := by
  have hrange := initialized_range hentry hverify
  rw [← hverify.1] at hrange
  have hmem : ∀ i < rootvoldata.nvolumes, i < maxVolumes ∧ (volumes i).id ≠ -1 := by
    intro i hi
    have hin : i ∈ initialized volumes := hrange ▸ List.mem_range.mpr hi
    obtain ⟨hmax, hid⟩ := List.mem_filter.mp hin
    exact ⟨List.mem_range.mp hmax, of_decide_eq_true hid⟩
  refine ⟨⟨?_, ?_, ?_, ?_⟩, ?_⟩
  · intro i hi
    obtain ⟨hdev, hid, -⟩ := entry_set (hentry i) (hmem i hi).2
    exact ⟨hdev, hid⟩
  · exact (hverify.2.2.2.2 0 (by decide) hroot).2.1
  · intro i hi
    obtain ⟨hmax, hid⟩ := hmem (i + 1) hi
    obtain ⟨-, hprev, -⟩ := hverify.2.2.2.2 (i + 1) hmax hid
    rw [if_neg (Nat.succ_ne_zero i), Nat.add_sub_cancel] at hprev
    exact hprev.2
  · intro i hi
    obtain ⟨hmax, hid⟩ := hmem i hi
    obtain ⟨-, -, hsize⟩ := hverify.2.2.2.2 i hmax hid
    refine ⟨Nat.pos_of_ne_zero (hcommon.2 i hmax hid).2.2.2, (entry_set (hentry i) hid).2.2, ?_⟩
    split at hsize
    next => exact mod_of_mod hsize.2 ⟨16777216, rfl⟩
    next => exact mod_of_mod hsize ⟨131072, rfl⟩
  · rw [hverify.2.1, hrange, sumSizes_range]

theorem chained_of_verify1 (hentry : ∀ i, TableEntry i (volumes i))
    (hcommon : VerifyVolumesCommon volumes rootvoldata)
    (hverify : VerifyVolumes1 volumes rootvoldata) : VolumesChained volumes 1 := by
  obtain ⟨-, -, -, -, hid, hoff, hsize⟩ := hverify
  have hset : (volumes rootVolume).id ≠ -1 := by
    rw [hid]
    decide
  have hroot := entry_set (hentry rootVolume) hset
  refine ⟨?_, hoff, fun i hi => absurd hi (by omega), ?_⟩
  · intro i hi
    rw [Nat.lt_one_iff.mp hi]
    exact ⟨hroot.1, hid⟩
  · intro i hi
    rw [Nat.lt_one_iff.mp hi]
    exact ⟨Nat.pos_of_ne_zero (hcommon.2 rootVolume (by decide) hset).2.2.2, hroot.2.2,
      mod_of_mod hsize ⟨131072, rfl⟩⟩

end Table

theorem initVolumes_chained {devvpl : List Device} {s : InitState}
    (h : initVolumes devvpl = .ok s) :
    VolumesChained s.volumes (mountNvolumes s.rootvoldata) ∧
      mountTotalSize s.rootvoldata =
        volumeStart s.volumes (mountNvolumes s.rootvoldata) % offMod := by
  unfold initVolumes at h
  split at h
  next => cases h
  next t hfold =>
    have hinv := foldlM_inv initState_inv hfold
    split_ifs at h with hversion hverify
    cases h
    obtain ⟨hcommon, hverify⟩ := hverify
    have hroot := hinv.root.resolve_left fun hzero => hversion (by
      rw [hzero]
      exact getLE_zeroImage 0x30 4)
    unfold mountNvolumes mountTotalSize
    split at hverify
    next hmulti =>
      rw [if_pos hmulti, if_pos hmulti]
      have hset : (s.volumes 0).id ≠ -1 := by
        rw [show (s.volumes 0).id = 0 from hroot.1]
        decide
      exact chained_of_verify2 hinv.entry hcommon hverify hset
    next hsingle =>
      rw [if_neg hsingle, if_neg hsingle]
      have hchained := chained_of_verify1 hinv.entry hcommon hverify
      have hstart : volumeStart s.volumes 1 = (s.volumes 0).size := by
        rw [volumeStart_succ]
        exact Nat.zero_add _
      refine ⟨hchained, ?_⟩
      rw [hstart, Nat.mod_eq_of_lt (hchained.size 0 Nat.one_pos).2.1]
      exact hroot.2.symm

/-- Accepted volumes tile the address space just when the sizes of all but the last one add up to
less than 2^64. -/
theorem accepted_volumes_tile_iff {devvpl : List Device} {s : InitState}
    (h : initVolumes devvpl = .ok s) :
    VolumesTile s.volumes (mountNvolumes s.rootvoldata) (mountTotalSize s.rootvoldata) ↔
      ∑ i ∈ Finset.range (mountNvolumes s.rootvoldata - 1), (s.volumes i).size < 2 ^ 64 := by
  obtain ⟨hchained, htotal⟩ := initVolumes_chained h
  rw [htotal]
  exact hchained.tile_iff

end Accepted

section Example

variable {dev : Nat → Device}

/-- Blank devices show the headers that newfs has written on them. -/
theorem blank_read {ac : Nat} {opt : MkfsOptions} {fso : Ondisk} {f : Formatted}
    (h : mkfs ac dev opt = some (fso, f)) (hblank : ∀ i, (dev i).bytes = zeroImage) :
    ∀ i < ac, (f.dev i).readVolumeHeader = some (0, f.hdr i) := by
  intro i hi
  apply (readVolumeHeader_fresh h hi).mpr
  intro z hz hge hlt hint
  have hzero : (dev i).header z = fun _ => 0#8 := by
    funext k
    unfold Device.header Device.read
    rw [hblank i]
    exact ite_self _
  rw [hzero] at hint
  exact absurd hint zero_not_intact

/-- The volumes that the driver finds on blank devices after newfs. -/
theorem blank_accepted {ac : Nat} {opt : MkfsOptions} {fso : Ondisk} {f : Formatted}
    (h : mkfs ac dev opt = some (fso, f)) (hblank : ∀ i, (dev i).bytes = zeroImage) :
    ∃ s, initVolumes ((List.range ac).map f.dev) = .ok s ∧ mountNvolumes s.rootvoldata = ac ∧
      ∀ i < ac, s.volumes i = kernelVolume fso f i := by
  obtain ⟨hn, -, -, ⟨-, -, hpos⟩, -, -⟩ := mkfs_layout h
  obtain ⟨hroot, hset, -⟩ := midState_all fso f (commonFields fso opt) (hn ▸ hpos)
    (by simp : ∀ i, i ∈ (List.range ac).reverse ++ [] ↔ i < ac)
  exact ⟨_, initVolumes_of_mkfs h (blank_read h hblank) (.refl _),
    hroot ▸ (mount_totals h).1.trans hn, hset⟩

/-- A blank device of `size` bytes. -/
def blankOf (size : Nat) (h : size < offMax) (i : Nat) : Device where
  stat := (i, 0)
  isImage := false
  size := size
  bytes := zeroImage
  size_lt := h
  bytes_end _ _ := rfl

theorem accepted_volumes_tile_two : ∃ fso f s,
    mkfs 2 (blankOf 4294967296 (by decide)) smallOptions = some (fso, f) ∧
      initVolumes ((List.range 2).map f.dev) = .ok s ∧
        VolumesTile s.volumes (mountNvolumes s.rootvoldata) (mountTotalSize s.rootvoldata) := by
  have hacc : (mkfs 2 (blankOf 4294967296 (by decide)) smallOptions).isSome = true := by
    decide +kernel
  obtain ⟨⟨fso, f⟩, h⟩ := Option.isSome_iff_exists.mp hacc
  obtain ⟨s, hs, hn, hset⟩ := blank_accepted h fun _ => rfl
  obtain ⟨-, -, -, -, -, hvol⟩ := mkfs_layout h
  refine ⟨fso, f, s, h, hs, (accepted_volumes_tile_iff hs).mpr ?_⟩
  rw [hn, Finset.sum_range_one, hset 0 (by decide)]
  unfold kernelVolume
  rw [hvol]
  dsimp only
  decide

/-- Five volumes of 2^62 bytes: the last one lies over the first. -/
theorem accepted_volumes_overlap : ∃ fso f s,
    mkfs 5 (blankOf 4611686018427387904 (by decide)) smallOptions = some (fso, f) ∧
      initVolumes ((List.range 5).map f.dev) = .ok s ∧
        ¬ VolumesTile s.volumes (mountNvolumes s.rootvoldata) (mountTotalSize s.rootvoldata) := by
  have hacc : (mkfs 5 (blankOf 4611686018427387904 (by decide)) smallOptions).isSome = true := by
    decide +kernel
  obtain ⟨⟨fso, f⟩, h⟩ := Option.isSome_iff_exists.mp hacc
  obtain ⟨s, hs, hn, hset⟩ := blank_accepted h fun _ => rfl
  obtain ⟨-, -, -, -, -, hvol⟩ := mkfs_layout h
  refine ⟨fso, f, s, h, hs, ?_⟩
  intro htile
  have hfirst : (s.volumes 0).Holds 0 := by
    rw [hset 0 (by decide)]
    unfold kernelVolume KernelVolume.Holds
    rw [hvol]
    dsimp only
    decide
  have hlast : (s.volumes 4).Holds 0 := by
    rw [hset 4 (by decide)]
    unfold kernelVolume KernelVolume.Holds
    rw [hvol]
    dsimp only
    decide
  have hsame := htile.disjoint 0 (by omega) 4 (by omega) 0 hfirst hlast
  cases hsame

end Example

end Hammer2
