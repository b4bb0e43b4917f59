import Hammer2.BulkfreePass
import Hammer2.SegmentInv

namespace Hammer2

/-- The level1 leaves of the freemap by leaf number; leaves are created on demand. -/
abbrev Freemap := Nat → Option Leaf

/-- The leaf, as `hammer2_freemap_init` would set it up if it does not exist yet. -/
def Freemap.leaf (hmp : Dev) (fm : Freemap) (idx : Nat) : Leaf :=
  (fm idx).getD (freemapInit hmp (idx * freemapLevel1Size))

def Leaf.blk (leaf : Leaf) (b : Nat) : BitVec 2 := (leaf.seg (b / 256)).blk (b % 256)

/-- The freemap state of the 16KB block `b` of the volume. -/
def Freemap.blk (hmp : Dev) (fm : Freemap) (b : Nat) : BitVec 2 :=
  (fm.leaf hmp (b / 65536)).blk (b % 65536)

/-- `hammer2_freemap_try_alloc`: look the leaf up, creating it if it is missing, and try it. -/
def freemapTryAlloc (hmp : Dev) (fm : Freemap) (req : AllocRequest) :
    Option (Freemap × Option Extent) :=
  let idx := req.bnext / freemapLevel1Size
  match tryAlloc hmp (h2fmBase req.bnext) (fm.leaf hmp idx) req with
  | .panic => none
  | .enospc leaf => some (Function.update fm idx (some leaf), none)
  | .ok leaf dataOff _ => some (Function.update fm idx (some leaf), some ⟨dataOff, req.radix⟩)

/-- `h2_bulkfree_sync` over the existing leaves of the window. -/
def freemapSync (hmp : Dev) (sbase sstop : Nat) (cb : Cbinfo) (ub : BitVec 32) (fm : Freemap) :
    Freemap := fun idx =>
  if sbase ≤ idx * freemapLevel1Size ∧ idx * freemapLevel1Size < sstop then
    (fm idx).map fun leaf => syncLeaf hmp cb ub (idx * freemapLevel1Size) leaf freemapCount
  else fm idx

theorem leaf_update (hmp : Dev) (fm : Freemap) (idx : Nat) (leaf : Leaf) (j : Nat) :
    Freemap.leaf hmp (Function.update fm idx (some leaf)) j =
      if j = idx then leaf else fm.leaf hmp j := by
  unfold Freemap.leaf
  by_cases h : j = idx
  · rw [if_pos h, h, Function.update_self, Option.getD_some]
  · rw [if_neg h, Function.update_of_ne h]

/-- An extent that the allocator can hand out on this volume. -/
structure Allocated (hmp : Dev) (e : Extent) : Prop where
  shaped : e.Shaped
  begin_le : hmp.allocatorBeg ≤ e.off
  stop_le : e.stop ≤ hmp.totalSize

theorem Allocated.placed {hmp : Dev} {key : Nat} {e : Extent} (h : Allocated hmp e)
    (hlo : key ≤ e.off) (hhi : e.off < key + 1073741824) : Placed hmp key e :=
  ⟨h.shaped, hlo, hhi, h.begin_le, h.stop_le⟩

/-- A try that finds no space changes the state of no block. -/
theorem freemapTryAlloc_none {hmp : Dev} {fm fm' : Freemap} {req : AllocRequest}
    (h : freemapTryAlloc hmp fm req = some (fm', none)) (b : Nat) :
    fm'.blk hmp b = fm.blk hmp b := by
  unfold freemapTryAlloc at h
  simp only at h
  split at h
  next => simp at h
  next leaf hal =>
    obtain ⟨rfl, _⟩ := Prod.mk.inj (Option.some.inj h)
    unfold Freemap.blk Leaf.blk Leaf.seg
    rw [leaf_update]
    split
    next hb => rw [tryAlloc_enospc hal, hb]
    next => rfl
  next => simp at h

theorem blk_of_seg {hmp : Dev} {fm : Freemap} {idx n b : Nat} (hn : n < 256)
    (hb : b / 256 = idx * 256 + n) :
    fm.blk hmp b = ((fm.leaf hmp idx).seg n).blk (b % 256) := by
  unfold Freemap.blk Leaf.blk
  rw [show b / 65536 = idx by omega, show b % 65536 / 256 = n by omega,
    show b % 65536 % 256 = b % 256 by omega]

theorem blk_update_setSeg {hmp : Dev} {fm : Freemap} {idx n : Nat} {bmap' : BmapData}
    (hn : n < 256) (b : Nat) :
    Freemap.blk hmp (Function.update fm idx (some ((fm.leaf hmp idx).setSeg n bmap'))) b =
      if b / 256 = idx * 256 + n then bmap'.blk (b % 256) else fm.blk hmp b := by
  unfold Freemap.blk Leaf.blk
  rw [leaf_update]
  by_cases hidx : b / 65536 = idx
  · rw [if_pos hidx, setSeg_seg hn (by omega), hidx]
    have hiff : b % 65536 / 256 = n ↔ b / 256 = idx * 256 + n := by omega
    simp only [hiff]
    split
    next => rw [show b % 65536 % 256 = b % 256 by omega]
    next => rfl
  · rw [if_neg hidx, if_neg (by omega)]

/-- A successful try marks the blocks of the extent it returns. -/
theorem freemapTryAlloc_some {hmp : Dev} {fm fm' : Freemap} {req : AllocRequest} {e : Extent}
    (hmin : 10 ≤ req.radix) (hmax : req.radix ≤ 16)
    (h : freemapTryAlloc hmp fm req = some (fm', some e)) :
    Allocated hmp e ∧ (∀ b, e.Touches b → fm'.blk hmp b = 3) ∧
      ∀ b, fm'.blk hmp b = 3 ∨ fm'.blk hmp b = fm.blk hmp b := by
  unfold freemapTryAlloc at h
  simp only at h
  split at h
  next => simp at h
  next => simp at h
  next leaf dataOff bg hal =>
    obtain ⟨rfl, he⟩ := Prod.mk.inj (Option.some.inj h)
    cases Option.some.inj he
    obtain ⟨hbeg, hend, n, bmap', off, hn, rfl, hdata, heff⟩ := tryAlloc_ok hmax hal
    obtain ⟨hs, hoff⟩ := heff.shaped hmin hmax
    have hkey : h2fmBase req.bnext = req.bnext / freemapLevel1Size * 1073741824 := by
      unfold h2fmBase freemapLevel1Size
      rfl
    rw [hkey] at hdata
    have hblk := @blk_update_setSeg hmp fm (req.bnext / freemapLevel1Size) n bmap' hn
    generalize req.bnext / freemapLevel1Size = idx at *
    have hpos : 0 < 2 ^ req.radix := Nat.two_pow_pos _
    have hfits := heff.fits
    refine ⟨⟨?_, hbeg, hend⟩, ?_, ?_⟩
    · obtain ⟨h1, h2, h3, h4, h5⟩ := hs
      simp only at h1 h2 h3 h4 h5
      refine ⟨h1, h2, fun h14 => ?_, fun h14 => ?_, ?_⟩
      · have := h3 h14
        simp only
        omega
      · have := h4 h14
        simp only
        omega
      · simp only
        omega
    · intro b ht
      have hlocal : Extent.Touches ⟨off, req.radix⟩ (b - (idx * 256 + n) * 256) ∧
          b / 256 = idx * 256 + n := by
        unfold Extent.Touches Extent.stop at ht ⊢
        simp only at ht ⊢
        omega
      rw [hblk, if_pos hlocal.2, show b % 256 = b - (idx * 256 + n) * 256 by omega]
      exact heff.blk_of_touches hmin hmax hlocal.1
    · intro b
      rw [hblk]
      split
      next hb =>
        rw [blk_of_seg hn hb]
        exact heff.mono (by omega)
      next => exact Or.inr rfl

/-- A shaped extent that touches a block lies in the segment of the block. -/
theorem Extent.Shaped.seg_of_touches {e : Extent} {b : Nat} (h : e.Shaped) (ht : e.Touches b) :
    b / 256 * 4194304 ≤ e.off ∧ e.off < b / 256 * 4194304 + 4194304 := by
  have hin := h.inside
  have hpos : 0 < 2 ^ e.radix := Nat.two_pow_pos _
  unfold Extent.Touches Extent.stop at ht
  omega

theorem mem_localRefs_of_mem {base : Nat} {e : Extent} {refs : Set Extent} (he : e ∈ refs)
    (hlo : base ≤ e.off) (hhi : e.off < base + 4194304) :
    (⟨e.off - base, e.radix⟩ : Extent) ∈ localRefs base refs := by
  refine ⟨Nat.sub_lt_left_of_lt_add hlo hhi, ?_⟩
  simp only [Nat.add_sub_cancel' hlo]
  exact he

theorem Collected.marked_of_touches {bmap : BmapData} {base b : Nat} {e : Extent}
    {snap : Set Extent} (hc : Collected bmap (localRefs base snap)) (hs : e.Shaped) (he : e ∈ snap)
    (hbase : base = b / 256 * 4194304) (ht : e.Touches b) : bmap.blk (b % 256) = 3 := by
  have hloc := hs.seg_of_touches ht
  rw [← hbase] at hloc
  refine hc.marked _ (mem_localRefs_of_mem he hloc.1 hloc.2) _ (Nat.mod_lt _ (by omega)) ?_
  unfold Extent.Touches Extent.stop at ht ⊢
  simp only
  omega

/-- What a merge of the window does to one block: nothing, or the transition that follows from
whether the snapshot references the block. -/
theorem freemapSync_blk {hmp : Dev} {fm : Freemap} {cb : Cbinfo} (ub : BitVec 32)
    {sbase sstop : Nat} {snap : List Extent} {scan : List (Nat × Extent)}
    (hsnap : ∀ e ∈ snap, Allocated hmp e ∨ e.stop ≤ hmp.allocatorBeg)
    (hscan : ∀ e, e ∈ scan.map Prod.snd ↔ e ∈ snap) (hw : Window hmp sbase sstop)
    (h : bulkfreeScan hmp scan (cbinfoBmapInit hmp sbase sstop) = .ok cb) (b : Nat) :
    (freemapSync hmp sbase sstop cb ub fm).blk hmp b = fm.blk hmp b ∨
      (sbase ≤ b / 65536 * 1073741824 ∧ b / 65536 * 1073741824 < sstop ∧
        hmp.allocatorBeg ≤ 16384 * b ∧
        ∃ m : BitVec 2, (m = 0 ∨ m = 3) ∧ ((∃ e ∈ snap, e.Touches b) → m = 3) ∧
          (freemapSync hmp sbase sstop cb ub fm).blk hmp b = mergeBlk m (fm.blk hmp b)) := by
  by_cases hin : sbase ≤ b / 65536 * freemapLevel1Size ∧ b / 65536 * freemapLevel1Size < sstop
  · cases hleaf : fm (b / 65536) with
    | none =>
      left
      unfold Freemap.blk Freemap.leaf freemapSync
      rw [if_pos hin, hleaf, Option.map_none]
    | some leaf =>
      have hold : fm.leaf hmp (b / 65536) = leaf := by
        unfold Freemap.leaf
        rw [hleaf, Option.getD_some]
      have hnew : (freemapSync hmp sbase sstop cb ub fm).leaf hmp (b / 65536) =
          syncLeaf hmp cb ub (b / 65536 * freemapLevel1Size) leaf freemapCount := by
        unfold Freemap.leaf freemapSync
        rw [if_pos hin, hleaf, Option.map_some, Option.getD_some]
      have hseg : b / 256 = b / 65536 * 256 + b % 65536 / 256 := by omega
      have hn : b % 65536 / 256 < 256 := by omega
      have hlast : b % 256 < 256 := Nat.mod_lt _ (by omega)
      rw [blk_of_seg hn hseg, blk_of_seg hn hseg, hold, hnew]
      have hkey : b / 65536 * freemapLevel1Size = b / 65536 * 1073741824 := by
        unfold freemapLevel1Size
        rfl
      rw [hkey] at hin ⊢
      rcases @syncLeaf_seg hmp cb ub (b / 65536 * 1073741824) freemapCount (b % 65536 / 256) leaf
          le_rfl hn with ⟨heq, _⟩ | ⟨_, hbeg, hm⟩
      · exact Or.inl (by rw [heq])
      · right
        have hmem : ∀ e ∈ snap, b / 65536 * 1073741824 + b % 65536 / 256 * 4194304 ≤ e.off →
            Allocated hmp e := by
          intro e he hoff
          have hpos : 0 < 2 ^ e.radix := Nat.two_pow_pos _
          rcases hsnap e he with ha | hstop
          · exact ha
          · unfold Extent.stop at hstop
            omega
        have hcol := @scan_collected hmp (b / 65536 * 1073741824) _ _ _ _ _ _ (by omega)
          (fun e he h1 h2 => (hmem e he h1).placed (le_trans (Nat.le_add_right _ _) h1) (by omega))
          ⟨fun e he => (hscan e).mpr he, fun e he _ => (hscan e).mp he⟩ hw hin.1 hin.2 hn h
        refine ⟨hin.1, hin.2, by omega, _, hcol.binary _ hlast, ?_, hm.blk hlast⟩
        rintro ⟨e, he, ht⟩
        have hal : Allocated hmp e := by
          rcases hsnap e he with ha | hstop
          · exact ha
          · unfold Extent.Touches at ht
            omega
        exact hcol.marked_of_touches hal.shaped he (by omega) ht
  · left
    unfold Freemap.blk Freemap.leaf freemapSync
    rw [if_neg hin]

end Hammer2
