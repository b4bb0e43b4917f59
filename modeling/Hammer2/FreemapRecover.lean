import Hammer2.FreeSpace

namespace Hammer2

/-- The segment that covers `off`. -/
def Freemap.segAt (hmp : Dev) (fm : Freemap) (off : Nat) : BmapData :=
  (fm.leaf hmp (off / freemapLevel1Size)).seg (off / segSize % freemapCount)

/-- Block `n` intersects the extent. -/
def InExtent (dataOff radix n : Nat) : Prop :=
  n * freemapBlockSize < dataOff + 2 ^ radix ∧ dataOff < (n + 1) * freemapBlockSize

/-- The number of blocks of a segment that left state 00. -/
def takenBlocks (old new : BmapData) : Nat :=
  ((Finset.range 256).filter fun b => old.blk b = 0 ∧ new.blk b ≠ 0).card

/-- What a recovery of an extent is for: the blocks of the extent are allocated, no other block
changes, and the free counts go down by the blocks that were free. -/
structure Recovered (hmp : Dev) (s s' : FreeState) (dataOff radix : Nat) : Prop where
  marked : ∀ n, InExtent dataOff radix n → s'.fm.blk hmp n = 3
  others : ∀ n, ¬ InExtent dataOff radix n → s'.fm.blk hmp n = s.fm.blk hmp n
  avail : BitVec.ofNat 32 (s'.fm.segAt hmp dataOff).avail =
    BitVec.ofNat 32 (s.fm.segAt hmp dataOff).avail - BitVec.ofNat 32 (freemapBlockSize *
      takenBlocks (s.fm.segAt hmp dataOff) (s'.fm.segAt hmp dataOff))
  allocatorFree : s'.allocatorFree = s.allocatorFree - BitVec.ofNat 64 (freemapBlockSize *
    takenBlocks (s.fm.segAt hmp dataOff) (s'.fm.segAt hmp dataOff))

/-- Extents as the allocator hands them out: from 16KB on aligned to their size, smaller ones inside
one block. -/
def ExtentAligned (dataOff radix : Nat) : Prop :=
  if freemapBlockRadix ≤ radix then dataOff % 2 ^ radix = 0
  else dataOff / freemapBlockSize = (dataOff + 2 ^ radix - 1) / freemapBlockSize

instance (dataOff radix : Nat) : Decidable (ExtentAligned dataOff radix) :=
  inferInstanceAs (Decidable (if freemapBlockRadix ≤ radix then dataOff % 2 ^ radix = 0
    else dataOff / freemapBlockSize = (dataOff + 2 ^ radix - 1) / freemapBlockSize))

/-- The first block that the code marks. -/
def adjustFirst (dataOff : Nat) : Nat := dataOff / 524288 * 32 + dataOff / 16384 % 16

section Taken

theorem takenBlocks_add_free {old new : BmapData}
    (h : ∀ b, b < 256 → new.blk b = 3 ∨ new.blk b = old.blk b) :
    takenBlocks old new + new.free = old.free := by
  unfold takenBlocks BmapData.free
  rw [← Finset.card_union_of_disjoint]
  · congr 1
    ext b
    simp only [Finset.mem_union, Finset.mem_filter, Finset.mem_range]
    constructor
    · rintro (⟨hb, ho, -⟩ | ⟨hb, hn⟩)
      · exact ⟨hb, ho⟩
      · rcases h b hb with h3 | heq
        · rw [h3] at hn
          exact absurd hn (by decide)
        · exact ⟨hb, heq ▸ hn⟩
    · rintro ⟨hb, ho⟩
      by_cases hn : new.blk b = 0
      · exact Or.inr ⟨hb, hn⟩
      · exact Or.inl ⟨hb, ho, hn⟩
  · rw [Finset.disjoint_filter]
    intro b _ hb
    exact hb.2

/-- Each pair lowers `avail` by what it charges. -/
theorem adjustPair_avail (cls i : Nat) (mask : BitVec 64) (st : AdjustState) :
    ((adjustPair cls i mask st).bmap.avail + (adjustPair cls i mask st).bgsize) % 2 ^ 32 =
      (st.bmap.avail + st.bgsize) % 2 ^ 32 := by
  unfold adjustPair
  split
  next =>
    have hav : (if st.modified then st.bmap else { st.bmap with linear := 0 }).avail =
        st.bmap.avail := by split <;> rfl
    simp only
    generalize (if st.modified then st.bmap else { st.bmap with linear := 0 }) = bmap at hav
    rw [← hav]
    split
    · unfold subU32 freemapBlockSize
      omega
    · rfl
  next => rfl

theorem adjustLoop_avail {cls i count : Nat} {mask : BitVec 64} {st st' : AdjustState}
    (h : adjustLoop cls i count mask st = .ok st') :
    (st'.bmap.avail + st'.bgsize) % 2 ^ 32 = (st.bmap.avail + st.bgsize) % 2 ^ 32 := by
  induction count generalizing mask st with
  | zero =>
    cases h
    rfl
  | succ count ih =>
    unfold adjustLoop at h
    obtain ⟨_, _, h⟩ := except_bind_eq_ok.mp h
    rw [ih h, adjustPair_avail]

end Taken

section Effect

variable {hmp : Dev} {s : FreeState} {dataOff radix : Nat}

theorem inExtent_iff (hradix : radix ≤ 16) (hal : ExtentAligned dataOff radix) (n : Nat) :
    InExtent dataOff radix n ↔ dataOff / 16384 ≤ n ∧ n < dataOff / 16384 + blockCount radix := by
  unfold InExtent freemapBlockSize
  unfold ExtentAligned freemapBlockRadix freemapBlockSize at hal
  have hpos : 0 < 2 ^ radix := Nat.two_pow_pos radix
  split at hal
  next hle =>
    have hcount := blockCount_mul_of_le hle hradix
    have hdvd : 16384 ∣ 2 ^ radix := ⟨blockCount radix, by omega⟩
    have hoff : dataOff % 16384 = 0 :=
      Nat.mod_eq_zero_of_dvd (hdvd.trans (Nat.dvd_of_mod_eq_zero hal))
    omega
  next hlt =>
    have hcount := blockCount_of_lt (Nat.lt_of_not_le hlt)
    omega

theorem block_mod_blockCount (hradix : radix ≤ 16) (hal : ExtentAligned dataOff radix) :
    dataOff / 16384 % blockCount radix = 0 := by
  unfold ExtentAligned freemapBlockRadix at hal
  split at hal
  next hle =>
    obtain ⟨k, hk⟩ := Nat.dvd_of_mod_eq_zero hal
    have hcount : dataOff = 16384 * (blockCount radix * k) := by
      rw [hk, ← blockCount_mul_of_le hle hradix]
      ring
    rw [hcount, Nat.mul_div_cancel_left _ (by decide)]
    exact Nat.mul_mod_right _ _
  next hlt => rw [blockCount_of_lt (Nat.lt_of_not_le hlt), Nat.mod_one]

/-- What a call charges, in terms of the segment that it looks at. -/
theorem freemapAdjust_charge {leaf leaf' : Leaf} {type bg : Nat}
    (h : freemapAdjust hmp leaf type dataOff radix = .ok (leaf', bg)) :
    16384 * (leaf'.seg (dataOff / 4194304 % 256)).free + bg =
        16384 * (leaf.seg (dataOff / 4194304 % 256)).free ∧
      ((leaf'.seg (dataOff / 4194304 % 256)).avail + bg) % 2 ^ 32 =
        (leaf.seg (dataOff / 4194304 % 256)).avail % 2 ^ 32 := by
  unfold freemapAdjust at h
  simp only [except_bind_eq_ok, kkassert_eq_ok] at h
  obtain ⟨_, h0, _, hradix, h⟩ := h
  split at h
  next =>
    simp only [pure, Except.pure, Except.ok.injEq, Prod.mk.injEq] at h
    obtain ⟨rfl, rfl⟩ := h
    exact ⟨rfl, rfl⟩
  next =>
    simp only [except_bind_eq_ok] at h
    obtain ⟨_, _, st, hloop, h⟩ := h
    obtain ⟨rfl, rfl⟩ := Prod.mk.inj (Except.ok.inj h)
    have hc := blockCount_cases hradix
    have havail := adjustLoop_avail hloop
    rw [Nat.mul_comm (_ &&& 15) 2, BitPair.three_shiftLeft_eq_run (by omega), and_fifteen] at hloop
    have hfree := adjustLoop_free (Nat.mod_lt _ (by decide)) (by omega) hloop
    have hseg : ((leaf.setSeg (dataOff / segSize % freemapCount) st.bmap).setBigmask
        (if st.modified then BitVec.allOnes 32 else leaf.bigmask)).seg
          (dataOff / 4194304 % 256) = st.bmap := by
      rw [setBigmask_seg]
      exact (setSeg_seg (Nat.mod_lt _ (by decide)) (Nat.mod_lt _ (by decide))).trans (if_pos rfl)
    rw [hseg]
    exact ⟨hfree, havail⟩

/-- A call on the leaf of an extent, field by field. -/
theorem freemapAdjust_effect (leaf : Leaf) (type : Nat) (h10 : 10 ≤ radix) (hradix : radix ≤ 16)
    (hbeg : hmp.allocatorBeg ≤ dataOff) (hzone : zoneSeg ≤ dataOff % zoneSize) :
    ∃ leaf' bg, freemapAdjust hmp leaf type dataOff radix = .ok (leaf', bg) ∧
      (∀ m < 256, m ≠ dataOff / 4194304 % 256 → leaf'.seg m = leaf.seg m) ∧
      (∀ b < 256, (leaf'.seg (dataOff / 4194304 % 256)).blk b =
        if 32 * (dataOff / 524288 % 8) + dataOff / 16384 % 16 ≤ b ∧
          b < 32 * (dataOff / 524288 % 8) + dataOff / 16384 % 16 + blockCount radix then 3
        else (leaf.seg (dataOff / 4194304 % 256)).blk b) ∧
      BitVec.ofNat 32 (leaf'.seg (dataOff / 4194304 % 256)).avail =
        BitVec.ofNat 32 (leaf.seg (dataOff / 4194304 % 256)).avail - BitVec.ofNat 32 bg ∧
      bg = freemapBlockSize * takenBlocks (leaf.seg (dataOff / 4194304 % 256))
        (leaf'.seg (dataOff / 4194304 % 256)) := by
  obtain ⟨st, heff, hadj⟩ := freemapAdjust_marks leaf type (show radix ≠ 0 by omega) hradix hbeg hzone
  obtain ⟨hfree, havail⟩ := freemapAdjust_charge hadj
  have hn : dataOff / 4194304 % 256 < 256 := Nat.mod_lt _ (by decide)
  have hseg : ∀ m < 256, ((leaf.setSeg (dataOff / 4194304 % 256) st.bmap).setBigmask
      (if st.modified then BitVec.allOnes 32 else leaf.bigmask)).seg m =
        if m = dataOff / 4194304 % 256 then st.bmap else leaf.seg m := by
    intro m hm
    rw [setBigmask_seg]
    exact setSeg_seg hn hm
  rw [hseg _ hn, if_pos rfl] at hfree havail
  have htaken : takenBlocks (leaf.seg (dataOff / 4194304 % 256)) st.bmap + st.bmap.free =
      (leaf.seg (dataOff / 4194304 % 256)).free := by
    refine takenBlocks_add_free ?_
    intro b hb
    rw [heff.marked b hb]
    split
    · exact Or.inl rfl
    · exact Or.inr rfl
  refine ⟨_, st.bgsize, hadj, ?_, ?_, ?_, ?_⟩
  · intro m hm hne
    rw [hseg m hm, if_neg hne]
  · intro b hb
    rw [hseg _ hn, if_pos rfl]
    exact heff.marked b hb
  · rw [hseg _ hn, if_pos rfl, BitVec.eq_sub_iff_add_eq, ← BitVec.ofNat_add]
    exact BitVec.eq_of_toNat_eq havail
  · rw [hseg _ hn, if_pos rfl]
    unfold freemapBlockSize
    omega

/-- The blocks and the free counts after a recovery, wherever the marked run lies. -/
theorem freeRecover_effect (s : FreeState) (type : Nat) (h10 : 10 ≤ radix) (hradix : radix ≤ 16)
    (hbeg : hmp.allocatorBeg ≤ dataOff) (hzone : zoneSeg ≤ dataOff % zoneSize) :
    ∃ s', freeRecover hmp s type dataOff radix = some s' ∧
      (∀ n, s'.fm.blk hmp n = if adjustFirst dataOff ≤ n ∧
        n < adjustFirst dataOff + blockCount radix then 3 else s.fm.blk hmp n) ∧
      BitVec.ofNat 32 (s'.fm.segAt hmp dataOff).avail =
        BitVec.ofNat 32 (s.fm.segAt hmp dataOff).avail - BitVec.ofNat 32 (freemapBlockSize *
          takenBlocks (s.fm.segAt hmp dataOff) (s'.fm.segAt hmp dataOff)) ∧
      s'.allocatorFree = s.allocatorFree - BitVec.ofNat 64 (freemapBlockSize *
        takenBlocks (s.fm.segAt hmp dataOff) (s'.fm.segAt hmp dataOff)) := by
  obtain ⟨leaf', bg, hadj, hother, hblk, havail, hbg⟩ := freemapAdjust_effect
    (s.fm.leaf hmp (dataOff / freemapLevel1Size)) type h10 hradix hbeg hzone
  have hc := blockCount_cases hradix
  have hseg : Freemap.segAt hmp (Function.update s.fm (dataOff / freemapLevel1Size) (some leaf'))
      dataOff = leaf'.seg (dataOff / 4194304 % 256) := by
    unfold Freemap.segAt
    rw [leaf_update, if_pos rfl]
    rfl
  have hold : s.fm.segAt hmp dataOff =
      (s.fm.leaf hmp (dataOff / freemapLevel1Size)).seg (dataOff / 4194304 % 256) := rfl
  refine ⟨⟨Function.update s.fm (dataOff / freemapLevel1Size) (some leaf'),
    s.allocatorFree - BitVec.ofNat 64 bg⟩, ?_, ?_, ?_, ?_⟩
  · unfold freeRecover
    dsimp only
    rw [hadj]
    exact if_neg (by omega)
  · intro n
    unfold Freemap.blk Leaf.blk
    rw [leaf_update]
    unfold freemapLevel1Size adjustFirst
    by_cases hleaf : n / 65536 = dataOff / 1073741824
    · rw [if_pos hleaf]
      by_cases hsegn : n % 65536 / 256 = dataOff / 4194304 % 256
      · rw [hsegn, hblk _ (by omega)]
        unfold freemapLevel1Size
        have hiff : (32 * (dataOff / 524288 % 8) + dataOff / 16384 % 16 ≤ n % 65536 % 256 ∧
            n % 65536 % 256 < 32 * (dataOff / 524288 % 8) + dataOff / 16384 % 16 + blockCount radix) ↔
            (dataOff / 524288 * 32 + dataOff / 16384 % 16 ≤ n ∧
              n < dataOff / 524288 * 32 + dataOff / 16384 % 16 + blockCount radix) := by omega
        simp only [hiff, hleaf]
      · rw [hother _ (by omega) hsegn, if_neg (by omega), hleaf]
        rfl
    · rw [if_neg hleaf, if_neg (by omega)]
  · rw [hseg, hold, havail, hbg]
  · rw [hseg, hold, ← hbg]

end Effect

/-- `hammer2_freemap_adjust` recovers an extent exactly when it starts in the lower half of its bitmap
word, or when all of its blocks and those 256KB below them are allocated already. -/
theorem recovered_iff {hmp : Dev} (s : FreeState) (type : Nat) {dataOff radix : Nat} (h10 : 10 ≤ radix)
    (hradix : radix ≤ 16) (hbeg : hmp.allocatorBeg ≤ dataOff)
    (hzone : zoneSeg ≤ dataOff % zoneSize) (hal : ExtentAligned dataOff radix) :
    ∃ s', freeRecover hmp s type dataOff radix = some s' ∧
      (Recovered hmp s s' dataOff radix ↔ dataOff / 16384 % 32 < 16 ∨
        ∀ n, InExtent dataOff radix n ∨ InExtent dataOff radix (n + 16) → s.fm.blk hmp n = 3) := by
  obtain ⟨s', hs, hblk, havail, hfree⟩ := freeRecover_effect s type h10 hradix hbeg hzone
  have hc := blockCount_cases hradix
  refine ⟨s', hs, ?_⟩
  unfold adjustFirst at hblk
  simp only [inExtent_iff hradix hal]
  have haligned := block_mod_blockCount hradix hal
  constructor
  · intro hrec
    by_contra! hcon
    obtain ⟨hhalf, n, hn, hne⟩ := hcon
    have hold := hblk n
    have hnew := hrec.marked n
    have hkeep := hrec.others n
    rw [inExtent_iff hradix hal] at hnew hkeep
    rcases hn with hn | hn
    · rw [if_neg (by omega)] at hold
      exact hne (hold ▸ hnew hn)
    · rw [if_pos (by omega)] at hold
      exact hne (hold ▸ (hkeep (by omega)).symm)
  · intro hcond
    refine ⟨?_, ?_, havail, hfree⟩
    · intro n hn
      rw [inExtent_iff hradix hal] at hn
      rw [hblk]
      split
      next => rfl
      next hout =>
        rcases hcond with hhalf | hall
        · omega
        · exact hall n (Or.inl hn)
    · intro n hn
      rw [inExtent_iff hradix hal] at hn
      rw [hblk]
      split
      next hin =>
        rcases hcond with hhalf | hall
        · omega
        · exact (hall n (Or.inr (by omega))).symm
      next => rfl

/-- The same for an extent in the lower half of its word. -/
theorem recovered_lower_half :
    ∃ s', freeRecover smallDev ⟨fun _ => none, 8388608⟩ 3 25165824 16 = some s' ∧
      Recovered smallDev ⟨fun _ => none, 8388608⟩ s' 25165824 16 := by
  have hbeg : smallDev.allocatorBeg ≤ 25165824 := by decide
  have hradix : 10 ≤ 16 := by decide
  obtain ⟨s', hs, hiff⟩ := recovered_iff ⟨fun _ => none, 8388608⟩ 3 hradix (by decide) hbeg
    (by decide) (by decide)
  exact ⟨s', hs, hiff.mpr (Or.inl (by decide))⟩

/-- On a fresh 32MB volume a block in the upper half of its word stays free. -/
theorem upper_half_stays_free :
    smallDev.allocatorBeg ≤ 25427968 ∧ zoneSeg ≤ 25427968 % zoneSize ∧ ExtentAligned 25427968 14 ∧
      ¬ ∃ s', freeRecover smallDev ⟨fun _ => none, 8388608⟩ 3 25427968 14 = some s' ∧
        Recovered smallDev ⟨fun _ => none, 8388608⟩ s' 25427968 14 := by
  refine ⟨by decide, by decide, by decide, ?_⟩
  rintro ⟨s', hs, hrec⟩
  have hbeg : smallDev.allocatorBeg ≤ 25427968 := by decide
  have hradix : 10 ≤ 14 := by decide
  obtain ⟨s'', hs', hblk, -⟩ := freeRecover_effect ⟨fun _ => none, 8388608⟩ 3 hradix (by decide)
    hbeg (by decide)
  cases Option.some.inj (hs.symm.trans hs')
  have hmark := hrec.marked 1552 ⟨by decide, by decide⟩
  rw [hblk, if_neg (by decide)] at hmark
  revert hmark
  decide

end Hammer2
