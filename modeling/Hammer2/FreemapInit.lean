import Hammer2.BulkfreeScan

namespace Hammer2

theorem h2fmBase_le {k l : Nat} (h : k ≤ l) : h2fmBase k ≤ h2fmBase l := by
  unfold h2fmBase freemapLevel1Size
  omega

theorem max_base_carry (beg zone : Nat) {base base' : Nat} (h : base ≤ base') :
    max (max (max (max beg base) (base + zone)) base') (base' + zone) =
      max (max beg base') (base' + zone) := by
  omega

/-- Carrying `lokey` across the segments of a window loses nothing against computing it afresh. -/
theorem cbinfoLokey_eq (hmp : Dev) (sbase m : Nat) :
    cbinfoLokey hmp sbase m = freemapInitLokey hmp (sbase + m * segSize) := by
  induction m with
  | zero =>
    rw [Nat.zero_mul, Nat.add_zero]
    unfold cbinfoLokey freemapInitLokey
    apply Eq.refl
  | succ m ih =>
    have hbase : h2fmBase (sbase + m * segSize) ≤ h2fmBase (sbase + (m + 1) * segSize) := by
      apply h2fmBase_le
      rw [Nat.succ_mul]
      omega
    rw [cbinfoLokey, ih]
    unfold freemapInitLokey
    exact max_base_carry _ _ hbase

theorem h2fmBase_segment {key n : Nat} (hk : key % freemapLevel1Size = 0) (hn : n < 256) :
    h2fmBase (key + n * segSize) = key := by
  unfold freemapLevel1Size at hk
  unfold h2fmBase freemapLevel1Size segSize
  omega

theorem freemapInitLokey_segment (hmp : Dev) {key n : Nat} (hk : key % freemapLevel1Size = 0)
    (hn : n < 256) : freemapInitLokey hmp (key + n * segSize) = freemapInitLokey hmp key := by
  have h0 : h2fmBase key = key := by simpa using h2fmBase_segment hk (n := 0) (by omega)
  unfold freemapInitLokey
  rw [h2fmBase_segment hk hn, h0]

/-- The end of the leaf's own gigabyte cuts off none of its segments. -/
theorem freemapInitHikey_segment (hmp : Dev) {key n : Nat} (hk : key % freemapLevel1Size = 0)
    (hn : n < 256) :
    freemapInitHikey hmp key ≤ key + n * segSize ↔
      hmp.totalSize / segSize * segSize ≤ key + n * segSize := by
  unfold freemapLevel1Size at hk
  unfold freemapInitHikey freemapLevel1Size segSize
  split
  next => exact Iff.rfl
  next h =>
    constructor
    · intro hle
      omega
    · intro hle
      omega

/-- A live leaf starts out as the part of a bulkfree window that stands for it. -/
theorem freemapInit_eq_cbinfoBmapInit (hmp : Dev) (sstop : Nat) {sbase key n : Nat}
    (hs : sbase % freemapLevel1Size = 0) (hk : key % freemapLevel1Size = 0) (hle : sbase ≤ key)
    (hn : n < freemapCount) :
    (freemapInit hmp key).seg n =
      (cbinfoBmapInit hmp sbase sstop).bmap ((key - sbase) / segSize + n) := by
  have hn' : n < 256 := hn
  have hpos : sbase + ((key - sbase) / segSize + n) * segSize = key + n * segSize := by
    unfold freemapLevel1Size at hs hk
    unfold segSize
    omega
  have hfin : (Fin.ofNat 256 n).val = n := Nat.mod_eq_of_lt hn'
  unfold Leaf.seg freemapInit cbinfoBmapInit
  simp only [hfin]
  rw [cbinfoLokey_eq, hpos, freemapInitLokey_segment hmp hk hn']
  apply if_congr _ rfl rfl
  exact or_congr_right (freemapInitHikey_segment hmp hk hn')

theorem freemapInit_eq_cbinfoBmapInit_second :
    (freemapInit ⟨20973568, 3221225472⟩ 1073741824).seg 1 =
      (cbinfoBmapInit ⟨20973568, 3221225472⟩ 0 3221225472).bmap
        ((1073741824 - 0) / segSize + 1) :=
  freemapInit_eq_cbinfoBmapInit ⟨20973568, 3221225472⟩ 3221225472 (by decide) (by decide)
    (by decide) (by decide)

end Hammer2
