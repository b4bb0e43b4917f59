import Hammer2.BulkfreeCover

namespace Hammer2

/-- The two bits of the 16KB block `b` of the media in the in-memory bitmap. -/
def Cbinfo.blockState (cb : Cbinfo) (b : Nat) : BitVec 2 :=
  (cb.bmap ((freemapBlockSize * b - cb.sbase) / segSize)).blk (b % freemapCount)

/-- The block lies in a segment that `cbinfo_bmap_init` marks as reserved. -/
def WindowReserved (hmp : Dev) (sbase b : Nat) : Prop :=
  let m := (freemapBlockSize * b - sbase) / segSize
  sbase + m * segSize < cbinfoLokey hmp sbase m ∨
    hmp.totalSize / segSize * segSize ≤ sbase + m * segSize

instance (hmp : Dev) (sbase b : Nat) : Decidable (WindowReserved hmp sbase b) :=
  inferInstanceAs (Decidable (_ ∨ _))

theorem allocatorBeg_le_lokey (hmp : Dev) (sbase m : Nat) :
    hmp.allocatorBeg ≤ cbinfoLokey hmp sbase m := by
  induction m with
  | zero =>
    have hround : hmp.allocatorBeg ≤ (hmp.allocatorBeg + (segSize - 1)) / segSize * segSize := by
      unfold segSize
      omega
    unfold cbinfoLokey
    omega
  | succ m ih =>
    unfold cbinfoLokey
    omega

theorem blockState_init {hmp : Dev} {sbase sstop b : Nat} :
    (cbinfoBmapInit hmp sbase sstop).blockState b =
      if WindowReserved hmp sbase b then 3 else 0 := by
  unfold Cbinfo.blockState cbinfoBmapInit freemapCount
  by_cases hres : WindowReserved hmp sbase b
  · rw [if_pos hres]
    unfold WindowReserved at hres
    simp only
    rw [if_pos hres]
    unfold bmapReserved BmapData.blk BmapData.q
    exact BitPair.pair_allOnes (by omega)
  · rw [if_neg hres]
    unfold WindowReserved at hres
    simp only
    rw [if_neg hres]
    unfold bmapFree BmapData.blk BmapData.q
    simp

/-- A shaped extent lies in one segment. -/
theorem Extent.Shaped.segment {e : Extent} {b base : Nat} (he : e.Shaped)
    (hbase : base % 4194304 = 0) (hlo : base ≤ 16384 * b) (hhi : 16384 * b < base + 4194304)
    (ht : e.Touches b) : base ≤ e.off ∧ e.stop ≤ base + 4194304 := by
  have hin := he.inside
  obtain ⟨h1, h2⟩ := ht
  unfold Extent.stop at *
  omega

/-- Once marked, a block stays marked. -/
theorem bulkfreeCallback_keeps {hmp : Dev} {cb cb' : Cbinfo} {type m b : Nat} {e : Extent}
    (h : bulkfreeCallback hmp cb type e = .ok cb') (hb : b < 256) (h3 : (cb.bmap m).blk b = 3) :
    (cb'.bmap m).blk b = 3 := by
  rcases bulkfreeCallback_ok h with rfl | ⟨bytes, -, hclip, rfl⟩
  · exact h3
  · simp only
    by_cases hm : m = (e.off - cb.sbase) / segSize
    · subst hm
      rw [Function.update_self, callbackSeg_blk hclip hb, h3]
      simp
    · rw [Function.update_of_ne hm]
      exact h3

/-- The callback marks the blocks of its extent. -/
theorem bulkfreeCallback_blockState {hmp : Dev} {cb cb' : Cbinfo} {type b : Nat} {e : Extent}
    (h : bulkfreeCallback hmp cb type e = .ok cb') (halign : cb.sbase % 4194304 = 0)
    (hlo : cb.sbase ≤ 16384 * b) (he : e.Shaped)
    (hin : 16384 * b / 4194304 = e.off / 4194304 → InWindow hmp cb.sbase cb.sstop e)
    (hbin : cb.blockState b = 0 ∨ cb.blockState b = 3) :
    cb'.blockState b = if e.Touches b then 3 else cb.blockState b := by
  have hbase := (bulkfreeCallback_window h).1
  unfold Cbinfo.blockState freemapBlockSize segSize freemapCount at *
  rw [hbase]
  by_cases hseg : 16384 * b / 4194304 = e.off / 4194304
  · have hw := hin hseg
    have hlow := hw.window_le
    have hm : (e.off - cb.sbase) / 4194304 = (16384 * b - cb.sbase) / 4194304 := by omega
    rw [bulkfreeCallback_eq halign hw, hm] at h
    cases h
    have hloc : Extent.Shaped ⟨e.off % 4194304, e.radix⟩ := by
      refine Extent.Shaped.local (e.off / 4194304 * 4194304) (by omega) ?_
      rw [Nat.mul_comm, Nat.div_add_mod]
      exact he
    have htouch : Extent.Touches ⟨e.off % 4194304, e.radix⟩ (b % 256) ↔ e.Touches b := by
      unfold Extent.Touches Extent.stop
      simp only
      omega
    simp only [Function.update_self]
    have hblk := @callbackSeg_shaped (cb.bmap ((16384 * b - cb.sbase) / 4194304))
      (type * 256 + pbufRadix) (b % 256) ⟨e.off % 4194304, e.radix⟩ hloc
      (Nat.mod_lt _ (by omega)) (Nat.mod_lt _ (by omega))
    simp only at hblk
    rw [hblk]
    rcases hbin with h0 | h3
    · simp only [htouch, h0, and_true]
    · simp [h3]
  · have hfar : e.off < cb.sbase + (16384 * b - cb.sbase) / 4194304 * 4194304 ∨
        cb.sbase + (16384 * b - cb.sbase) / 4194304 * 4194304 + 4194304 ≤ e.off := by omega
    rw [bulkfreeCallback_other h hfar, if_neg]
    intro ht
    have hsegm : 16384 * b / 4194304 * 4194304 ≤ e.off ∧
        e.stop ≤ 16384 * b / 4194304 * 4194304 + 4194304 :=
      he.segment (by omega) (by omega) (by omega) ht
    have hpos : 0 < 2 ^ e.radix := Nat.two_pow_pos _
    unfold Extent.stop at hsegm
    omega

/-- The scan marks the blocks of its extents and no others. -/
theorem bulkfreeScan_blockState {hmp : Dev} {cb cb' : Cbinfo} {b : Nat}
    {scan : List (Nat × Extent)} (h : bulkfreeScan hmp scan cb = .ok cb')
    (halign : cb.sbase % 4194304 = 0) (hlo : cb.sbase ≤ 16384 * b)
    (he : ∀ e ∈ scanned scan, e.Shaped ∧
      (16384 * b / 4194304 = e.off / 4194304 → InWindow hmp cb.sbase cb.sstop e))
    (hbin : cb.blockState b = 0 ∨ cb.blockState b = 3) :
    cb'.blockState b = 3 ↔ cb.blockState b = 3 ∨ ∃ e ∈ scanned scan, e.Touches b := by
  induction scan generalizing cb with
  | nil =>
    cases h
    simp [scanned]
  | cons p rest ih =>
    obtain ⟨type, e⟩ := p
    rw [scanned_cons] at he ⊢
    obtain ⟨cb1, hcall, hrest⟩ := except_bind_eq_ok.mp h
    obtain ⟨hbase, hstop⟩ := bulkfreeCallback_window hcall
    obtain ⟨hshaped, hin⟩ := he e (Set.mem_insert _ _)
    have hstate := bulkfreeCallback_blockState hcall halign hlo hshaped hin hbin
    have hbin1 : cb1.blockState b = 0 ∨ cb1.blockState b = 3 := by
      rw [hstate]
      split
      next => exact Or.inr rfl
      next => exact hbin
    rw [ih hrest (hbase ▸ halign) (hbase ▸ hlo)
      (by rw [hbase, hstop]; exact fun f hf => he f (Set.mem_insert_of_mem _ hf)) hbin1, hstate]
    constructor
    · rintro (h3 | ⟨f, hf, ht⟩)
      · split at h3
        next ht => exact Or.inr ⟨e, Set.mem_insert _ _, ht⟩
        next => exact Or.inl h3
      · exact Or.inr ⟨f, Set.mem_insert_of_mem _ hf, ht⟩
    · rintro (h3 | ⟨f, hf, ht⟩)
      · left
        rw [h3, ite_self]
      · rcases Set.mem_insert_iff.mp hf with rfl | hf
        · left
          rw [if_pos ht]
        · exact Or.inr ⟨f, hf, ht⟩

theorem bulkfreeScan_keeps {hmp : Dev} {cb cb' : Cbinfo} {b : Nat} {scan : List (Nat × Extent)}
    (h : bulkfreeScan hmp scan cb = .ok cb') (h3 : cb.blockState b = 3) : cb'.blockState b = 3 := by
  induction scan generalizing cb with
  | nil =>
    cases h
    exact h3
  | cons p rest ih =>
    obtain ⟨type, e⟩ := p
    obtain ⟨cb1, hcall, hrest⟩ := except_bind_eq_ok.mp h
    refine ih hrest ?_
    unfold Cbinfo.blockState at *
    rw [(bulkfreeCallback_window hcall).1]
    exact bulkfreeCallback_keeps hcall (Nat.mod_lt _ (by decide)) h3

/-- In a segment that is not reserved the callback sees whole allocations of the window. -/
theorem inWindow_of_segment {hmp : Dev} {sbase sstop b : Nat} {e : Extent}
    (hw : Window hmp sbase sstop) (hlo : sbase ≤ 16384 * b) (hhi : 16384 * b < sstop)
    (hfree : ¬WindowReserved hmp sbase b) (he : e.Shaped)
    (hseg : 16384 * b / 4194304 = e.off / 4194304) : InWindow hmp sbase sstop e := by
  have hbase := hw.base
  have hin := he.inside
  have hbeg := allocatorBeg_le_lokey hmp sbase ((16384 * b - sbase) / 4194304)
  unfold WindowReserved freemapBlockSize segSize at hfree
  unfold freemapLevel1Size at hbase
  simp only [not_or, not_lt, not_le] at hfree
  refine ⟨he, by omega, ?_, by omega, ?_⟩
  · unfold Extent.stop
    omega
  · unfold Extent.stop
    rcases hw.stop with rfl | ⟨hal, _⟩
    · omega
    · unfold freemapLevel1Size at hal
      omega

/-- When the scan of a window ends without a fatal error, the blocks marked 11 are exactly the
reserved ones and those that the snapshot reaches. -/
theorem bulkfreeWindow_covers {env : ScanEnv} {graph : BlockGraph} {fuel sbase sstop depth b : Nat}
    {error error' : BitVec 32} {info : BulkInfo} (hgraph : graph.WellFormed)
    (hw : Window env.hmp sbase sstop)
    (h : bulkfreeWindow env graph fuel error (windowInfo env.hmp sbase sstop depth) =
      some (error', info))
    (herr : ¬Fatal error') (hlo : sbase ≤ 16384 * b) (hhi : 16384 * b < sstop) :
    info.cb.blockState b = 3 ↔
      WindowReserved env.hmp sbase b ∨ ∃ bref, graph.Reaches bref ∧ bref.data.Touches b := by
  obtain ⟨done, hscan, hdone⟩ := bulkfreeWindow_scanned hgraph h herr
  by_cases hres : WindowReserved env.hmp sbase b
  · have h3 : (cbinfoBmapInit env.hmp sbase sstop).blockState b = 3 := by
      rw [blockState_init, if_pos hres]
    exact iff_of_true (bulkfreeScan_keeps hscan h3) (Or.inl hres)
  · have h0 : (cbinfoBmapInit env.hmp sbase sstop).blockState b = 0 := by
      rw [blockState_init, if_neg hres]
    have hbase := hw.base
    unfold freemapLevel1Size at hbase
    have hmarks := bulkfreeScan_blockState (b := b) hscan
      (show sbase % 4194304 = 0 by omega) hlo ?_ (Or.inl h0)
    · rw [hmarks, h0]
      constructor
      · rintro (hno | ⟨e, he, ht⟩)
        · cases hno
        · obtain ⟨bref, hreach, rfl⟩ := (hdone e).mp he
          exact Or.inr ⟨bref, hreach, ht⟩
      · rintro (hno | ⟨bref, hreach, ht⟩)
        · exact absurd hno hres
        · exact Or.inr ⟨bref.data, (hdone _).mpr ⟨bref, hreach, rfl⟩, ht⟩
    · intro e he
      obtain ⟨bref, hreach, rfl⟩ := (hdone e).mp he
      have hshaped := hgraph.shaped bref hreach
      exact ⟨hshaped, inWindow_of_segment hw hlo hhi hres hshaped⟩

/-- A PFS inode and an indirect block that share a subtree, with one data block at its end. -/
def sharedPfs : Blockref := ⟨.inode, 1, 0, ⟨25165824, 10⟩, 9⟩

def sharedIndirect : Blockref := ⟨.indirect, 2, 1, ⟨25182208, 14⟩, 9⟩

def sharedChild : Blockref := ⟨.indirect, 0, 10, ⟨25198592, 14⟩, 9⟩

def sharedData : Blockref := ⟨.data, 0, 14, ⟨25214976, 14⟩, 9⟩

def sharedGraph : BlockGraph where
  base := fun x =>
    if x = volumeData then [sharedPfs, sharedIndirect]
    else if x = sharedPfs.data ∨ x = sharedIndirect.data then [sharedChild]
    else if x = sharedChild.data then [sharedData]
    else []
  pfsroot := fun x => decide (x = sharedPfs.data)
  error := fun _ => 0
  error_eof := fun _ => BitVec.zero_and

theorem sharedGraph_base (x : Extent) :
    sharedGraph.base x = [sharedPfs, sharedIndirect] ∨ sharedGraph.base x = [sharedChild] ∨
      sharedGraph.base x = [sharedData] ∨ sharedGraph.base x = [] := by
  unfold sharedGraph
  simp only
  split
  next => exact Or.inl rfl
  next =>
    split
    next => exact Or.inr (Or.inl rfl)
    next =>
      split
      next => exact Or.inr (Or.inr (Or.inl rfl))
      next => exact Or.inr (Or.inr (Or.inr rfl))

theorem mem_sharedGraph {x : Extent} {bref : Blockref} (h : bref ∈ sharedGraph.base x) :
    bref ∈ [sharedPfs, sharedIndirect, sharedChild, sharedData] := by
  rcases sharedGraph_base x with heq | heq | heq | heq
  · rw [heq] at h
    exact List.mem_append_left [sharedChild, sharedData] h
  · rw [heq, List.mem_singleton] at h
    simp [h]
  · rw [heq, List.mem_singleton] at h
    simp [h]
  · rw [heq] at h
    cases h

theorem sharedGraph_block {x : Extent} (h : sharedGraph.Block x) : x ≠ sharedData.data := by
  cases h with
  | root => decide
  | @child y bref hblock _ hmem _ hrec =>
    have hin := mem_sharedGraph hmem
    simp only [List.mem_cons, List.not_mem_nil, or_false] at hin
    rcases hin with rfl | rfl | rfl | rfl
    · decide
    · decide
    · decide
    · cases hrec

theorem sharedGraph_wellFormed : sharedGraph.WellFormed := by
  refine ⟨fun x _ => ?_, ?_, ?_⟩
  · rcases sharedGraph_base x with heq | heq | heq | heq
    · rw [heq]
      exact ⟨by decide, by decide⟩
    · rw [heq]
      exact ⟨by decide, by decide⟩
    · rw [heq]
      exact ⟨by decide, by decide⟩
    · rw [heq]
      exact ⟨List.Pairwise.nil, by simp⟩
  · rintro bref ⟨x, _, _, hmem, _⟩
    have hin := mem_sharedGraph hmem
    simp only [List.mem_cons, List.not_mem_nil, or_false] at hin
    rcases hin with rfl | rfl | rfl | rfl
    · exact ⟨by decide, by decide, by decide, by decide, by decide⟩
    · exact ⟨by decide, by decide, by decide, by decide, by decide⟩
    · exact ⟨by decide, by decide, by decide, by decide, by decide⟩
    · exact ⟨by decide, by decide, by decide, by decide, by decide⟩
  · rintro bref ⟨x, _, _, hmem, _⟩ hblock
    have hin := mem_sharedGraph hmem
    simp only [List.mem_cons, List.not_mem_nil, or_false] at hin
    rcases hin with rfl | rfl | rfl | rfl
    · rfl
    · rfl
    · rfl
    · exact absurd rfl (sharedGraph_block hblock)

/-- With both limits at zero every subtree is deferred. -/
def deferEnv : ScanEnv where
  hmp := smallDev
  icrc32 := fun x => x.off / 1024
  signal := fun _ => false
  known := fun _ => false
  limitScanDepth := 0
  limitSavedChains := 0

theorem bulkfreeWindow_covers_shared : ∃ error info,
    bulkfreeWindow deferEnv sharedGraph 8 0 (windowInfo deferEnv.hmp 0 33554432 0) =
      some (error, info) ∧ ¬Fatal error ∧
    (info.cb.blockState 1539 = 3 ↔ WindowReserved deferEnv.hmp 0 1539 ∨
      ∃ bref, sharedGraph.Reaches bref ∧ bref.data.Touches 1539) := by
  have hrun : (bulkfreeWindow deferEnv sharedGraph 8 0
      (windowInfo deferEnv.hmp 0 33554432 0)).any (fun r => !decide (Fatal r.1)) = true := by
    decide
  cases hsome : bulkfreeWindow deferEnv sharedGraph 8 0
      (windowInfo deferEnv.hmp 0 33554432 0) with
  | none =>
    rw [hsome] at hrun
    cases hrun
  | some r =>
    rw [hsome] at hrun
    have hclean : ¬Fatal r.1 := by simpa using hrun
    exact ⟨r.1, r.2, rfl, hclean, bulkfreeWindow_covers sharedGraph_wellFormed
      (by decide) hsome hclean (by decide) (by decide)⟩

end Hammer2
