import Hammer2.BulkfreeSync

namespace Hammer2

/-- The windows of storage that `hammer2_bulkfree_pass` works through. -/
structure Window (hmp : Dev) (sbase sstop : Nat) : Prop where
  base : sbase % freemapLevel1Size = 0
  stop : sstop = hmp.totalSize ∨ sstop % freemapLevel1Size = 0 ∧ sstop ≤ hmp.totalSize

instance (hmp : Dev) (sbase sstop : Nat) : Decidable (Window hmp sbase sstop) :=
  decidable_of_iff (sbase % freemapLevel1Size = 0 ∧
    (sstop = hmp.totalSize ∨ sstop % freemapLevel1Size = 0 ∧ sstop ≤ hmp.totalSize))
    ⟨fun h => ⟨h.1, h.2⟩, fun h => ⟨h.base, h.stop⟩⟩

/-- The scan list names exactly the extents of the snapshot, as far as this leaf is concerned. -/
def ScanOf (key : Nat) (snap : List Extent) (scan : List (Nat × Extent)) : Prop :=
  (∀ e ∈ snap, e ∈ scan.map Prod.snd) ∧
    ∀ e ∈ scan.map Prod.snd, h2fmBase e.off = key → e ∈ snap

instance (key : Nat) (snap : List Extent) (scan : List (Nat × Extent)) :
    Decidable (ScanOf key snap scan) :=
  inferInstanceAs (Decidable (_ ∧ _))

/-- Where the extents of the leaf at `key` lie. -/
structure Placed (hmp : Dev) (key : Nat) (e : Extent) : Prop where
  shaped : e.Shaped
  key_le : key ≤ e.off
  lt_key : e.off < key + 1073741824
  begin_le : hmp.allocatorBeg ≤ e.off
  stop_le : e.stop ≤ hmp.totalSize

theorem Placed.inWindow {hmp : Dev} {key sbase sstop : Nat} {e : Extent} (hkey : key % 1073741824 = 0)
    (hw : Window hmp sbase sstop) (hlo : sbase ≤ key) (hhi : key < sstop) (h : Placed hmp key e) :
    InWindow hmp sbase sstop e := by
  obtain ⟨hs, h1, h2, h3, h4⟩ := h
  refine ⟨hs, h3, h4, by omega, ?_⟩
  have hin := hs.inside
  rcases hw.stop with heq | ⟨hal, _⟩
  · omega
  · unfold freemapLevel1Size at hal
    unfold Extent.stop at *
    omega

/-- The in-memory segment that a merge reads records the snapshot. -/
theorem scan_collected {hmp : Dev} {key sbase sstop n : Nat} {snap : List Extent}
    {scan : List (Nat × Extent)} {cb : Cbinfo} (hkey : key % 1073741824 = 0)
    (hplaced : ∀ e ∈ snap, key + n * 4194304 ≤ e.off → e.off < key + n * 4194304 + 4194304 →
      Placed hmp key e)
    (hscan : ScanOf key snap scan)
    (hw : Window hmp sbase sstop) (hlo : sbase ≤ key) (hhi : key < sstop) (hn : n < 256)
    (h : bulkfreeScan hmp scan (cbinfoBmapInit hmp sbase sstop) = .ok cb) :
    Collected (cb.segFor key n) (localRefs (key + n * 4194304) { e | e ∈ snap }) := by
  have hb := hw.base
  unfold freemapLevel1Size at hb
  have hbase : (cbinfoBmapInit hmp sbase sstop).sbase = sbase := rfl
  have hstop : (cbinfoBmapInit hmp sbase sstop).sstop = sstop := rfl
  have hidx : sbase + (key + n * 4194304 - sbase) / 4194304 * 4194304 = key + n * 4194304 := by omega
  have hmem : ∀ e : Extent, key + n * 4194304 ≤ e.off → e.off < key + n * 4194304 + 4194304 →
      (e ∈ scanned scan ↔ e ∈ snap) := by
    intro e h1 h2
    have hfm : h2fmBase e.off = key := by
      unfold h2fmBase freemapLevel1Size
      omega
    have hmap : e ∈ scanned scan ↔ e ∈ scan.map Prod.snd := by
      simp [scanned, List.mem_map]
    rw [hmap]
    exact ⟨fun he => hscan.2 e he hfm, hscan.1 e⟩
  have hsame : localRefs (key + n * 4194304) (scanned scan) =
      localRefs (key + n * 4194304) { e | e ∈ snap } := by
    ext e
    simp only [localRefs, Set.mem_ofPred_eq]
    constructor
    · rintro ⟨h1, h2⟩
      exact ⟨h1, (hmem _ (by simp) (by simpa using h1)).mp h2⟩
    · rintro ⟨h1, h2⟩
      exact ⟨h1, (hmem _ (by simp) (by simpa using h1)).mpr h2⟩
  have hcol := bulkfreeScan_collected (m := (key + n * 4194304 - sbase) / 4194304) (P := ∅)
    (by rw [hbase]; omega) h (by
      rw [hbase, hstop, hidx]
      intro e he h1 h2
      exact (hplaced e ((hmem e h1 h2).mp he) h1 h2).inWindow hkey hw hlo hhi)
    (cbinfoBmapInit_collected hmp sbase sstop _)
  rw [hbase, hidx, hsame, Set.union_empty] at hcol
  unfold Cbinfo.segFor segSize
  rw [hcol.1]
  exact hcol.2

end Hammer2
