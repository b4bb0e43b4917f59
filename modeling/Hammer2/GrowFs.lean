import Hammer2.AvailExact
import Hammer2.FreeSpace
import Hammer2.VolumeHeader

namespace Hammer2

/-- A mounted device with one volume: `hmp`, the freemap with `allocator_free`, the other sizes in
the volume header, `volumes[0].size`, and the size of the block device. -/
structure GrowDev where
  hmp : Dev
  free : FreeState
  voluSize : Nat
  totalSize : BitVec 64
  allocatorSize : BitVec 64
  volumeSize : BitVec 64
  nvolumes : Nat
  rdonly : Bool
  media : Nat

inductive GrowError where
  | inval
  | rofs
  | opnotsupp
  | io
deriving DecidableEq

/-- What `hammer2_ioctl_growfs` leaves in its argument, and the volume headers it has cleared. -/
structure GrowReply where
  size : Nat
  modified : Bool
  cleared : List Nat

/-- The volume headers that the new space extends into; `none` when one of them cannot be read. -/
def growClear (voluSize size : Nat) (unreadable : Nat → Bool) : List Nat → Option (List Nat)
  | [] => some []
  | i :: is =>
    if i * zoneSize < voluSize then growClear voluSize size unreadable is
    else if size ≤ i * zoneSize then some []
    else if unreadable i = true then none
    else (growClear voluSize size unreadable is).map (i :: ·)

/-- The device after the sizes are changed. -/
def GrowDev.grow (s : GrowDev) (size : Nat) : GrowDev :=
  let delta := size - s.voluSize
  { s with
    hmp := { s.hmp with totalSize := s.hmp.totalSize + delta }
    free := { s.free with allocatorFree := s.free.allocatorFree + BitVec.ofNat 64 delta }
    voluSize := size
    totalSize := s.totalSize + BitVec.ofNat 64 delta
    allocatorSize := s.allocatorSize + BitVec.ofNat 64 delta
    volumeSize := s.volumeSize + BitVec.ofNat 64 delta }

/-- `hammer2_ioctl_growfs`; `none` is a failed assertion. -/
def ioctlGrowfs (s : GrowDev) (size : Nat) (unreadable : Nat → Bool) :
    Option (Except GrowError (GrowDev × GrowReply)) :=
  if s.rdonly = true then some (.error .rofs)
  else if 1 < s.nvolumes then some (.error .opnotsupp)
  else if s.hmp.totalSize ≠ s.voluSize then none
  else if s.media < size then some (.error .inval)
  else
    let size := (if size = 0 then s.media else size) / volumeAlign * volumeAlign
    if 2 ^ 63 - 1 < size then some (.error .inval)
    else if size < s.voluSize then some (.error .inval)
    else if size = s.voluSize then some (.ok (s, ⟨size, false, []⟩))
    else
      match growClear s.voluSize size unreadable (List.range numVolhdrs) with
      | none => some (.error .io)
      | some cleared => some (.ok (s.grow size, ⟨size, true, cleared⟩))

/-- The growth is in one leaf that does not exist yet, behind the reserved space of that leaf. -/
structure GrowCounts (s : GrowDev) (size : Nat) : Prop where
  inside : size ≤ (s.voluSize / freemapLevel1Size + 1) * freemapLevel1Size
  missing : s.free.fm (s.voluSize / freemapLevel1Size) = none
  reserve : zoneSeg ≤ s.voluSize % freemapLevel1Size
  begin_le : s.hmp.allocatorBeg ≤ s.voluSize

theorem growCounts_iff {s : GrowDev} {size : Nat} : GrowCounts s size ↔
    size ≤ (s.voluSize / 1073741824 + 1) * 1073741824 ∧
      s.free.fm (s.voluSize / 1073741824) = none ∧ 4194304 ≤ s.voluSize % 1073741824 ∧
        s.hmp.allocatorBeg ≤ s.voluSize := by
  constructor
  · rintro ⟨hinside, hmissing, hreserve, hbeg⟩
    unfold freemapLevel1Size at hinside hmissing hreserve
    unfold zoneSeg at hreserve
    exact ⟨hinside, hmissing, hreserve, hbeg⟩
  · rintro ⟨hinside, hmissing, hreserve, hbeg⟩
    constructor
    · unfold freemapLevel1Size
      exact hinside
    · unfold freemapLevel1Size
      exact hmissing
    · unfold freemapLevel1Size zoneSeg
      exact hreserve
    · exact hbeg

section Leaf

/-- How much of leaf `idx` is below an offset. -/
def leafBelow (x idx : Nat) : Nat := min (x - idx * 1073741824) 1073741824

theorem sum_leafBelow (x n : Nat) :
    ∑ idx ∈ Finset.range n, leafBelow x idx = min x (n * 1073741824) := by
  induction n with
  | zero => simp
  | succ n ih =>
    rw [Finset.sum_range_succ, ih, leafBelow]
    omega

/-- The reserved space at the start of leaf `idx`. -/
def leafReserve (hmp : Dev) (idx : Nat) : Nat :=
  freemapInitLokey hmp (idx * 1073741824) - idx * 1073741824

theorem card_segments {a c : Nat} (hc : c ≤ 256) :
    ((Finset.range 256).filter fun n => a ≤ n ∧ n < c).card = c - a := by
  have hico : (Finset.range 256).filter (fun n => a ≤ n ∧ n < c) = Finset.Ico a c := by
    ext n
    rw [Finset.mem_filter, Finset.mem_range, Finset.mem_Ico]
    omega
  rw [hico, Nat.card_Ico]

theorem bmapFree_free : bmapFree.free = 256 := by
  have hexact := bmapFree_availExact
  have havail : bmapFree.avail = 4194304 := rfl
  unfold AvailExact freemapBlockSize at hexact
  omega

theorem bmapReserved_free : bmapReserved.free = 0 := by
  have hexact := bmapReserved_availExact
  have havail : bmapReserved.avail = 0 := rfl
  unfold AvailExact freemapBlockSize at hexact
  omega

theorem lokey_eq (hmp : Dev) (idx : Nat) :
    ∃ a, freemapInitLokey hmp (idx * 1073741824) = idx * 1073741824 + a * 4194304 ∧ 1 ≤ a := by
  refine ⟨(freemapInitLokey hmp (idx * 1073741824) - idx * 1073741824) / 4194304, ?_⟩
  unfold freemapInitLokey h2fmBase freemapLevel1Size segSize zoneSeg
  omega

/-- The space that a new leaf starts out with is what lies behind its reserve. -/
theorem freemapInit_free (hmp : Dev) (idx : Nat) (halign : hmp.totalSize % 4194304 = 0) :
    16384 * (freemapInit hmp (idx * 1073741824)).free =
      leafBelow hmp.totalSize idx - leafReserve hmp idx := by
  obtain ⟨a, hlo, -⟩ := lokey_eq hmp idx
  have hhi : ∃ c ≤ 256, leafBelow hmp.totalSize idx = c * 4194304 ∧
      ∀ n, freemapInitHikey hmp (idx * 1073741824) ≤ idx * 1073741824 + n * 4194304 ↔ c ≤ n := by
    refine ⟨leafBelow hmp.totalSize idx / 4194304, ?_, ?_, ?_⟩
    · unfold leafBelow
      omega
    · unfold leafBelow
      omega
    · intro n
      unfold freemapInitHikey leafBelow freemapLevel1Size segSize
      split <;> omega
  obtain ⟨c, hc, hbelow, hhi⟩ := hhi
  have hseg : ∀ n ∈ Finset.range 256, ((freemapInit hmp (idx * 1073741824)).seg n).free =
      if a ≤ n ∧ n < c then 256 else 0 := by
    intro n hn
    have hlt := Finset.mem_range.mp hn
    have hval : (Fin.ofNat 256 n).val = n := Nat.mod_eq_of_lt hlt
    unfold freemapInit Leaf.seg segSize
    dsimp only
    rw [hval]
    split
    next hres =>
      rw [hlo, hhi n] at hres
      rw [if_neg (by omega)]
      exact bmapReserved_free
    next hfree =>
      rw [hlo, hhi n] at hfree
      rw [if_pos (by omega)]
      exact bmapFree_free
  have hreserve : leafReserve hmp idx = a * 4194304 := by
    unfold leafReserve
    rw [hlo]
    omega
  unfold Leaf.free freemapCount
  rw [Finset.sum_congr rfl hseg, ← Finset.sum_filter, Finset.sum_const, card_segments hc, hbelow,
    hreserve, smul_eq_mul]
  omega

/-- The space in a leaf of a volume of the given size: a leaf that exists stays as it is. -/
theorem leaf_free (hmp : Dev) (fm : Freemap) {x : Nat} (idx : Nat) (hx : x % 4194304 = 0) :
    16384 * (fm.leaf { hmp with totalSize := x } idx).free =
      match fm idx with
      | some leaf => 16384 * leaf.free
      | none => leafBelow x idx - leafReserve hmp idx := by
  unfold Freemap.leaf
  cases fm idx with
  | some leaf => rfl
  | none => exact freemapInit_free { hmp with totalSize := x } idx hx

theorem gain_behind_reserve {e f c d r : Nat} (he : 16384 * e = c - r) (hf : 16384 * f = d - r)
    (hle : d ≤ c) : f ≤ e ∧ 16384 * e + d ≤ 16384 * f + c ∧
      (16384 * e + d = 16384 * f + c ↔ c = d ∨ r ≤ d) := by
  omega

/-- What leaf `idx` has more to give when the volume grows from `old` to `size`. -/
theorem leaf_gain (hmp : Dev) (fm : Freemap) {old size : Nat} (hle : old ≤ size) (idx : Nat)
    (hold : old % 4194304 = 0) (hsize : size % 4194304 = 0) :
    (fm.leaf { hmp with totalSize := old } idx).free ≤
        (fm.leaf { hmp with totalSize := size } idx).free ∧
      16384 * (fm.leaf { hmp with totalSize := size } idx).free + leafBelow old idx ≤
        16384 * (fm.leaf { hmp with totalSize := old } idx).free + leafBelow size idx ∧
      (16384 * (fm.leaf { hmp with totalSize := size } idx).free + leafBelow old idx =
          16384 * (fm.leaf { hmp with totalSize := old } idx).free + leafBelow size idx ↔
        leafBelow size idx = leafBelow old idx ∨
          fm idx = none ∧ leafReserve hmp idx ≤ leafBelow old idx) := by
  have hmono : leafBelow old idx ≤ leafBelow size idx := by
    unfold leafBelow
    omega
  have hfree := leaf_free hmp fm idx hsize
  have hfree' := leaf_free hmp fm idx hold
  cases hleaf : fm idx with
  | some leaf =>
    rw [hleaf] at hfree hfree'
    dsimp only at hfree hfree'
    simp only [reduceCtorEq, false_and, or_false]
    omega
  | none =>
    rw [hleaf] at hfree hfree'
    dsimp only at hfree hfree'
    simp only [true_and]
    exact gain_behind_reserve hfree hfree' hmono

end Leaf

section Total

variable {old size : Nat}

theorem min_leaves {x : Nat} (hx : x < 2 ^ 64) : min x (freemapLeaves * 1073741824) = x := by
  unfold freemapLeaves
  omega

/-- The space added to the freemap is at most the growth. -/
theorem free_gain (hmp : Dev) (fm : Freemap) (hle : old ≤ size) (hlt : size < 2 ^ 64)
    (hold : old % 4194304 = 0) (hsize : size % 4194304 = 0) :
    fm.free { hmp with totalSize := old } ≤ fm.free { hmp with totalSize := size } ∧
      16384 * fm.free { hmp with totalSize := size } + old ≤
        16384 * fm.free { hmp with totalSize := old } + size ∧
      (16384 * fm.free { hmp with totalSize := size } + old =
          16384 * fm.free { hmp with totalSize := old } + size ↔
        ∀ idx < freemapLeaves, leafBelow size idx = leafBelow old idx ∨
          fm idx = none ∧ leafReserve hmp idx ≤ leafBelow old idx) := by
  have hgain := fun idx => leaf_gain hmp fm hle idx hold hsize
  have hterm : ∀ idx ∈ Finset.range freemapLeaves,
      16384 * (fm.leaf { hmp with totalSize := size } idx).free + leafBelow old idx ≤
        16384 * (fm.leaf { hmp with totalSize := old } idx).free + leafBelow size idx :=
    fun idx _ => (hgain idx).2.1
  have hsum : ∀ x y, ∑ idx ∈ Finset.range freemapLeaves,
      (16384 * (fm.leaf { hmp with totalSize := x } idx).free + leafBelow y idx) =
        16384 * fm.free { hmp with totalSize := x } + min y (freemapLeaves * 1073741824) := by
    intro x y
    unfold Freemap.free
    rw [Finset.sum_add_distrib, ← Finset.mul_sum, sum_leafBelow]
  have hle' := Finset.sum_le_sum hterm
  have hiff := Finset.sum_eq_sum_iff_of_le hterm
  rw [hsum, hsum, min_leaves hlt, min_leaves (hle.trans_lt hlt)] at hle' hiff
  refine ⟨Finset.sum_le_sum fun idx _ => (hgain idx).1, hle', hiff.trans ?_⟩
  constructor
  · intro h idx hidx
    exact (hgain idx).2.2.mp (h idx (Finset.mem_range.mpr hidx))
  · intro h idx hidx
    exact (hgain idx).2.2.mpr (h idx (Finset.mem_range.mp hidx))

theorem leafReserve_le {hmp : Dev} {idx x : Nat} (hx : x % 4194304 = 0) :
    leafReserve hmp idx ≤ x - idx * 1073741824 ↔
      idx * 1073741824 + 4194304 ≤ x ∧ hmp.allocatorBeg ≤ x := by
  unfold leafReserve freemapInitLokey h2fmBase freemapLevel1Size segSize zoneSeg
  omega

theorem leaf_index_eq {x n : Nat} (h : n = x / 1073741824) :
    n * 1073741824 + x % 1073741824 = x ∧ x % 1073741824 < 1073741824 := by
  omega

theorem leafBelow_inside {x n : Nat} (hlt : x < (n + 1) * 1073741824) :
    leafBelow x n = x - n * 1073741824 := by
  unfold leafBelow
  omega

theorem leafBelow_changed {n : Nat} (hlo : old < (n + 1) * 1073741824) (hhi : n * 1073741824 < size)
    (hlt : old < size) : leafBelow size n ≠ leafBelow old n := by
  unfold leafBelow
  omega

theorem leafBelow_same {n idx : Nat} (hlo : n * 1073741824 ≤ old)
    (hhi : size ≤ (n + 1) * 1073741824) (hlt : old < size) (hne : idx ≠ n) :
    leafBelow size idx = leafBelow old idx := by
  unfold leafBelow
  omega

theorem lt_freemapLeaves {x n : Nat} (hlt : x < 2 ^ 64) (hle : n * 1073741824 ≤ x) :
    n < freemapLeaves := by
  unfold freemapLeaves
  omega

/-- All of the growth becomes free space just when it is in one missing leaf behind the reserve. -/
theorem leaves_gain_iff (hmp : Dev) (fm : Freemap) (hlt : old < size) (hsize64 : size < 2 ^ 64)
    (hold : old % 4194304 = 0) :
    (∀ idx < freemapLeaves, leafBelow size idx = leafBelow old idx ∨
        fm idx = none ∧ leafReserve hmp idx ≤ leafBelow old idx) ↔
      size ≤ (old / 1073741824 + 1) * 1073741824 ∧ fm (old / 1073741824) = none ∧
        4194304 ≤ old % 1073741824 ∧ hmp.allocatorBeg ≤ old := by
  generalize hn : old / 1073741824 = n
  obtain ⟨hsplit, hmod⟩ := leaf_index_eq hn.symm
  generalize old % 1073741824 = m at hsplit hmod ⊢
  have hlo : n * 1073741824 ≤ old := by
    rw [← hsplit]
    exact Nat.le_add_right _ _
  have hhi : old < (n + 1) * 1073741824 := by
    rw [← hsplit, Nat.succ_mul]
    exact Nat.add_lt_add_left hmod _
  have hreserve : leafReserve hmp n ≤ leafBelow old n ↔ 4194304 ≤ m ∧ hmp.allocatorBeg ≤ old := by
    rw [leafBelow_inside hhi, leafReserve_le hold]
    apply and_congr_left'
    rw [← hsplit]
    exact Nat.add_le_add_iff_left
  constructor
  · intro h
    have hidx : n < freemapLeaves := lt_freemapLeaves hsize64 (hlo.trans hlt.le)
    obtain ⟨hnone, hres⟩ :=
      (h n hidx).resolve_left (leafBelow_changed hhi (hlo.trans_lt hlt) hlt)
    refine ⟨?_, hnone, hreserve.mp hres⟩
    -- a leaf that is new altogether would have to do without its reserve
    by_contra hout
    have hout := Nat.lt_of_not_le hout
    have hidx' : n + 1 < freemapLeaves := lt_freemapLeaves hsize64 hout.le
    have hhi' : old < (n + 1 + 1) * 1073741824 := hhi.trans_le (Nat.mul_le_mul_right _ (Nat.le_succ _))
    obtain ⟨-, hres'⟩ := (h (n + 1) hidx').resolve_left (leafBelow_changed hhi' hout hlt)
    rw [leafBelow_inside hhi', leafReserve_le hold] at hres'
    exact absurd (Nat.le_of_add_right_le hres'.1) (Nat.not_le_of_lt hhi)
  · intro ⟨hinside, hnone, hres⟩ idx hidx
    by_cases heq : idx = n
    · rw [heq]
      exact Or.inr ⟨hnone, hreserve.mpr hres⟩
    · exact Or.inl (leafBelow_same hlo hinside hlt heq)

end Total

section Grow

theorem lt_two_pow_succ {x n : Nat} (h : x < 2 ^ n) : x < 2 ^ (n + 1) :=
  h.trans (Nat.pow_lt_pow_right (by omega) (by omega))

theorem add_sub_eq_sub_iff (a : BitVec 64) {d x y : Nat} (hle : x ≤ y) (hgain : y ≤ x + d)
    (hd : d < 2 ^ 64) :
    a + BitVec.ofNat 64 d - BitVec.ofNat 64 y = a - BitVec.ofNat 64 x ↔ y = x + d := by
  obtain ⟨g, rfl⟩ := Nat.exists_eq_add_of_le hle
  have hsub : a + BitVec.ofNat 64 d - BitVec.ofNat 64 (x + g) =
      a - BitVec.ofNat 64 x + (BitVec.ofNat 64 d - BitVec.ofNat 64 g) := by
    rw [BitVec.ofNat_add]
    ring
  rw [hsub, add_eq_left, sub_eq_zero]
  constructor
  · intro h
    have hnat := congrArg BitVec.toNat h
    rw [BitVec.toNat_ofNat, BitVec.toNat_ofNat, Nat.mod_eq_of_lt hd,
      Nat.mod_eq_of_lt (by omega)] at hnat
    omega
  · intro h
    rw [show g = d by omega]

theorem surplus_grow_iff (a : BitVec 64) {f g old size : Nat} (hle : f ≤ g)
    (hgain : 16384 * g + old ≤ 16384 * f + size) (hlt : old < size) (hsize : size < 2 ^ 64) :
    a + BitVec.ofNat 64 (size - old) - BitVec.ofNat 64 (freemapBlockSize * g) =
        a - BitVec.ofNat 64 (freemapBlockSize * f) ↔
      16384 * g + old = 16384 * f + size := by
  have hblock : ∀ n, freemapBlockSize * n = 16384 * n := fun n => rfl
  rw [hblock, hblock, add_sub_eq_sub_iff a (by omega) (by omega) (by omega)]
  omega

theorem segment_aligned {x : Nat} (h : x % volumeAlign = 0) : x % 4194304 = 0 := by
  have hdvd : 4194304 ∣ volumeAlign := ⟨2, rfl⟩
  exact Nat.mod_eq_zero_of_dvd (hdvd.trans (Nat.dvd_of_mod_eq_zero h))

/-- What a growth does to the difference between the counter and the free blocks. -/
theorem grow_surplus_iff {s : GrowDev} {size : Nat} (hsame : s.hmp.totalSize = s.voluSize)
    (halign : s.voluSize % volumeAlign = 0) (hsize : size % volumeAlign = 0)
    (hlt : s.voluSize < size) (hmax : size < 2 ^ 63) :
    (s.grow size).free.surplus (s.grow size).hmp = s.free.surplus s.hmp ↔ GrowCounts s size := by
  have hold := segment_aligned halign
  have hnew := segment_aligned hsize
  have hlt64 : size < 2 ^ 64 := lt_two_pow_succ hmax
  obtain ⟨hmono, hgain, hiff⟩ := free_gain s.hmp s.free.fm hlt.le hlt64 hold hnew
  rw [leaves_gain_iff s.hmp s.free.fm hlt hlt64 hold] at hiff
  rw [growCounts_iff, ← hiff]
  have hgrown : (s.grow size).hmp = { s.hmp with totalSize := size } := by
    unfold GrowDev.grow
    dsimp only
    rw [hsame, Nat.add_sub_cancel' hlt.le]
  have hsurplus : (s.grow size).free.surplus (s.grow size).hmp =
      s.free.allocatorFree + BitVec.ofNat 64 (size - s.voluSize) -
        BitVec.ofNat 64 (freemapBlockSize * s.free.fm.free { s.hmp with totalSize := size }) := by
    rw [hgrown]
    rfl
  have hsurplus' : s.free.surplus s.hmp = s.free.allocatorFree -
      BitVec.ofNat 64 (freemapBlockSize * s.free.fm.free { s.hmp with totalSize := s.voluSize }) := by
    rw [← hsame]
    rfl
  rw [hsurplus, hsurplus']
  exact surplus_grow_iff s.free.allocatorFree hmono hgain hlt hlt64

theorem ite_error_eq_ok {c : Prop} [Decidable c] {e : GrowError} {a : α}
    {o : Option (Except GrowError α)} :
    (if c then some (.error e) else o) = some (.ok a) ↔ ¬ c ∧ o = some (.ok a) := by
  split
  next hc =>
    constructor
    · intro h
      cases h
    · intro h
      exact absurd hc h.1
  next hc => exact ⟨fun h => ⟨hc, h⟩, fun h => h.2⟩

/-- A growth that changes anything starts from sizes that agree and goes to an aligned size. -/
theorem growfs_modified {s s' : GrowDev} {size : Nat} {unreadable : Nat → Bool} {reply : GrowReply}
    (h : ioctlGrowfs s size unreadable = some (.ok (s', reply))) (hmod : reply.modified = true) :
    s' = s.grow reply.size ∧ s.hmp.totalSize = s.voluSize ∧ reply.size % volumeAlign = 0 ∧
      s.voluSize < reply.size ∧ reply.size < 2 ^ 63 := by
  unfold ioctlGrowfs at h
  obtain ⟨-, h⟩ := ite_error_eq_ok.mp h
  obtain ⟨-, h⟩ := ite_error_eq_ok.mp h
  obtain ⟨hsame, h⟩ := Option.ite_none_left_eq_some.mp h
  obtain ⟨-, h⟩ := ite_error_eq_ok.mp h
  have halign : ∀ x, x / volumeAlign * volumeAlign % volumeAlign = 0 :=
    fun x => Nat.mul_mod_left _ _
  specialize halign (if size = 0 then s.media else size)
  dsimp only at h
  generalize (if size = 0 then s.media else size) / volumeAlign * volumeAlign = new at h halign
  obtain ⟨hmax, h⟩ := ite_error_eq_ok.mp h
  obtain ⟨hless, h⟩ := ite_error_eq_ok.mp h
  split at h
  next =>
    cases h
    cases hmod
  next hne =>
    split at h
    next => cases h
    next cleared hclear =>
      cases h
      refine ⟨rfl, not_not.mp hsame, halign, ?_, ?_⟩
      · exact lt_of_le_of_ne (Nat.le_of_not_lt hless) (Ne.symm hne)
      · exact Nat.lt_of_le_pred (Nat.two_pow_pos 63) (Nat.le_of_not_lt hmax)

/-- A growth, with whatever allocations and bulkfree passes come after it, keeps the difference
between `voldata.allocator_free` and the space in state 00 just when `GrowCounts` holds. -/
theorem growfs_conserves_iff {s s' : GrowDev} {size : Nat} {unreadable : Nat → Bool}
    {reply : GrowReply} (halign : s.voluSize % volumeAlign = 0)
    (h : ioctlGrowfs s size unreadable = some (.ok (s', reply))) (hmod : reply.modified = true)
    {r : FreeState} (hr : Run.Reach (freeStep s'.hmp) (fun _ _ => True) s'.free r) :
    r.allocatorFree - BitVec.ofNat 64 (freemapBlockSize * r.fm.free s'.hmp) =
        s.free.allocatorFree - BitVec.ofNat 64 (freemapBlockSize * s.free.fm.free s.hmp) ↔
      GrowCounts s reply.size := by
  obtain ⟨rfl, hsame, hsize, hlt, hmax⟩ := growfs_modified h hmod
  have hkept : r.surplus (s.grow reply.size).hmp =
      (s.grow reply.size).free.surplus (s.grow reply.size).hmp :=
    hr.invariant (I := fun t => t.surplus (s.grow reply.size).hmp =
      (s.grow reply.size).free.surplus (s.grow reply.size).hmp) rfl
      (fun hi _ hs => (freeStep_surplus hs).trans hi)
  have hgrow := grow_surplus_iff hsame halign hsize hlt hmax
  rw [← hkept] at hgrow
  exact hgrow

/-- The 32MB volume on a device of 64MB. -/
def growDev (fm : Freemap) : GrowDev :=
  ⟨smallDev, ⟨fm, 8388608⟩, 33554432, 33554432, 33554432, 33554432, 1, false, 67108864⟩

theorem growDev_growfs (fm : Freemap) : ioctlGrowfs (growDev fm) 0 (fun _ => false) =
    some (.ok ((growDev fm).grow 67108864, ⟨67108864, true, []⟩)) := by
  have hclear : growClear 33554432 67108864 (fun _ => false) (List.range numVolhdrs) = some [] := by
    decide
  have hsize : 67108864 / volumeAlign * volumeAlign = 67108864 := by
    decide
  unfold ioctlGrowfs
  simp [growDev, smallDev, hclear, hsize]

theorem growDev_growCounts : GrowCounts (growDev fun _ => none) 67108864 := by
  apply growCounts_iff.mpr
  exact ⟨by decide, rfl, by decide, by decide⟩

theorem growfs_conserves_iff_small :
    ((growDev fun _ => none).grow 67108864).free.surplus
        ((growDev fun _ => none).grow 67108864).hmp =
      (growDev fun _ => none).free.surplus (growDev fun _ => none).hmp :=
  (growfs_conserves_iff (by decide) (growDev_growfs _) rfl .start).mpr growDev_growCounts

/-- The leaf of the old volume exists: the pass that releases its tail adds to the counter what the
growth has added already. -/
theorem growfs_counts_twice : ∃ fm reply,
    ioctlGrowfs (growDev fm) 0 (fun _ => false) = some (.ok ((growDev fm).grow 67108864, reply)) ∧
      reply.modified = true ∧
        ((growDev fm).grow 67108864).free.surplus ((growDev fm).grow 67108864).hmp ≠
          (growDev fm).free.surplus (growDev fm).hmp := by
  refine ⟨Function.update (fun _ => none) 0 (some (freemapInit smallDev 0)), _,
    growDev_growfs _, rfl, ?_⟩
  intro heq
  have hcounts := (grow_surplus_iff rfl (by decide) (by decide) (by decide) (by decide)).mp heq
  have hmissing := (growCounts_iff.mp hcounts).2.1
  cases hmissing

end Grow

end Hammer2
