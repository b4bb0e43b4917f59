import Hammer2.BulkfreeSync

namespace Hammer2

/-- The linear iterator is only meaningful in the middle of a block. There the block is in use and
the iterator stands behind everything handed out of it. -/
structure CursorInv (bmap : BmapData) (refs : Set Extent) : Prop where
  bound : bmap.linear ≤ 4194304
  cursor_used : bmap.linear % 16384 ≠ 0 → bmap.blk (bmap.linear / 16384) ≠ 0
  cursor_free : bmap.linear % 16384 ≠ 0 →
    ∀ e ∈ refs, e.Touches (bmap.linear / 16384) → e.stop ≤ bmap.linear
  below : bmap.linear % 16384 ≠ 0 → 0 < bmap.linear / 16384 →
    bmap.blk (bmap.linear / 16384 - 1) ≠ 0
  boundary : bmap.linear % 16384 = 0 → 0 < bmap.linear → bmap.linear < 4194304 →
    bmap.blk (bmap.linear / 16384 - 1) = 3

/-- The invariant that ties a segment to the extents handed out in it. -/
structure SegInv (bmap : BmapData) (refs : Set Extent) : Prop extends CursorInv bmap refs where
  shaped : ∀ e ∈ refs, e.Shaped ∧ e.off < 4194304
  disjoint : ∀ e ∈ refs, ∀ f ∈ refs, e ≠ f → e.Disjoint f
  used : ∀ e ∈ refs, ∀ b, b < 256 → e.Touches b → bmap.blk b ≠ 0

/-- What holds in addition between the snapshot of a bulkfree pass and its merge. An extent handed
out since the snapshot can share a block with the snapshot only through the linear iterator. -/
structure PassInv (bmap : BmapData) (refs snap : Set Extent) : Prop where
  shaped : ∀ e ∈ snap, e.Shaped ∧ e.off < 4194304
  disjoint : ∀ e ∈ snap, ∀ f ∈ snap, e ≠ f → e.Disjoint f
  snap_used : ∀ e ∈ snap, ∀ b, b < 256 → e.Touches b → bmap.blk b ≠ 0
  snap_cursor : bmap.linear % 16384 ≠ 0 →
    ∀ e ∈ snap, e.Touches (bmap.linear / 16384) → e.stop ≤ bmap.linear
  fresh_marked : ∀ e ∈ refs, e ∉ snap → ∀ b, b < 256 → e.Touches b → bmap.blk b = 3
  fresh_apart : ∀ c, 0 < c → c < 256 → (∃ e ∈ snap, e.Touches c) →
    (∃ e ∈ refs, e ∉ snap ∧ e.Touches c) →
    bmap.blk (c - 1) ≠ 0 ∧ ¬(16384 * (c - 1) < bmap.linear ∧ bmap.linear ≤ 16384 * c)

theorem Extent.exists_touches_of_not_disjoint {e f : Extent} (h : ¬e.Disjoint f) :
    ∃ b, e.Touches b ∧ f.Touches b := by
  have he : 0 < 2 ^ e.radix := Nat.two_pow_pos _
  have hf : 0 < 2 ^ f.radix := Nat.two_pow_pos _
  unfold Extent.Disjoint Extent.stop at h
  refine ⟨max e.off f.off / 16384, ?_⟩
  unfold Extent.Touches Extent.stop
  omega

theorem Extent.Touches.lt {e : Extent} {b : Nat} (hs : e.Shaped) (hoff : e.off < 4194304)
    (h : e.Touches b) : b < 256 := by
  have := hs.stop_le hoff
  unfold Extent.Touches at h
  omega

theorem Extent.Disjoint.symm {e f : Extent} (h : e.Disjoint f) : f.Disjoint e := by
  unfold Extent.Disjoint at h ⊢
  omega

/-- The extent that an allocation hands out. -/
theorem AllocEffect.shaped {bmap bmap' : BmapData} {radix off : Nat} (hmin : 10 ≤ radix)
    (hmax : radix ≤ 16) (h : AllocEffect bmap bmap' radix off) :
    Extent.Shaped ⟨off, radix⟩ ∧ off < 4194304 := by
  have hpos : 0 < 2 ^ radix := Nat.two_pow_pos _
  have hfits := h.fits
  refine ⟨⟨hmin, hmax, h.shape.1, h.shape.2, ?_⟩, by omega⟩
  simp only
  omega

theorem AllocEffect.mono {bmap bmap' : BmapData} {radix off b : Nat}
    (h : AllocEffect bmap bmap' radix off) (hb : b < 256) :
    bmap'.blk b = 3 ∨ bmap'.blk b = bmap.blk b := by
  rw [h.marked b hb]
  split
  next => exact Or.inl rfl
  next => exact Or.inr rfl

theorem AllocEffect.mono_ne {bmap bmap' : BmapData} {radix off b : Nat}
    (h : AllocEffect bmap bmap' radix off) (hb : b < 256) (hne : bmap.blk b ≠ 0) :
    bmap'.blk b ≠ 0 := by
  rcases h.mono hb with h3 | hs
  · rw [h3]; decide
  · rwa [hs]

theorem AllocEffect.mono_three {bmap bmap' : BmapData} {radix off b : Nat}
    (h : AllocEffect bmap bmap' radix off) (hb : b < 256) (h3 : bmap.blk b = 3) :
    bmap'.blk b = 3 := by
  rcases h.mono hb with h3' | hs
  · exact h3'
  · rwa [hs]

theorem AllocEffect.blk_of_touches {bmap bmap' : BmapData} {radix off b : Nat} (hmin : 10 ≤ radix)
    (hmax : radix ≤ 16) (h : AllocEffect bmap bmap' radix off)
    (ht : Extent.Touches ⟨off, radix⟩ b) : bmap'.blk b = 3 := by
  obtain ⟨hs, hoff⟩ := h.shaped hmin hmax
  rw [h.marked b (ht.lt hs hoff), if_pos ((hs.touches_iff b).mp ht)]

/-- An allocation taken from the bitmap touches free blocks only. -/
theorem AllocEffect.free_of_touches {bmap bmap' : BmapData} {radix off b : Nat} (hmin : 10 ≤ radix)
    (hmax : radix ≤ 16) (h : AllocEffect bmap bmap' radix off)
    (hfree : ∀ b, off / 16384 ≤ b → b < off / 16384 + blockCount radix → bmap.blk b = 0)
    (ht : Extent.Touches ⟨off, radix⟩ b) : bmap.blk b = 0 := by
  have hiff := ((h.shaped hmin hmax).1.touches_iff b).mp ht
  exact hfree b hiff.1 hiff.2

/-- An allocation taken from the linear iterator touches the block of the iterator only. -/
theorem AllocEffect.eq_of_touches {bmap bmap' : BmapData} {radix off b : Nat} (hmin : 10 ≤ radix)
    (hmax : radix ≤ 16) (h : AllocEffect bmap bmap' radix off) (h14 : radix < 14)
    (ht : Extent.Touches ⟨off, radix⟩ b) : b = off / 16384 := by
  have hiff := ((h.shaped hmin hmax).1.touches_iff b).mp ht
  simp only [blockCount_of_lt h14] at hiff
  omega

/-- The range an allocation returns is disjoint from every extent still referenced. -/
theorem SegInv.alloc_disjoint {bmap bmap' : BmapData} {refs : Set Extent} {radix off : Nat}
    (hmin : 10 ≤ radix) (hmax : radix ≤ 16) (hi : SegInv bmap refs)
    (h : AllocEffect bmap bmap' radix off) {f : Extent} (hf : f ∈ refs) :
    Extent.Disjoint ⟨off, radix⟩ f := by
  by_contra hnd
  obtain ⟨b, he, hfb⟩ := Extent.exists_touches_of_not_disjoint hnd
  obtain ⟨hs, hoff⟩ := h.shaped hmin hmax
  rcases h.origin with ⟨hmid, h14, rfl, _⟩ | ⟨_, hfree, _, _⟩
  · have hb := h.eq_of_touches hmin hmax h14 he
    subst hb
    exact hnd (Or.inr (hi.cursor_free hmid f hf hfb))
  · exact hi.used f hf b (he.lt hs hoff) hfb (h.free_of_touches hmin hmax hfree he)

/-- Allocating behind the linear iterator moves it forward in its block. -/
theorem CursorInv.alloc_linear {bmap bmap' : BmapData} {refs : Set Extent} {radix : Nat}
    (hi : CursorInv bmap refs)
    (h : AllocEffect bmap bmap' radix bmap.linear) (hmid : bmap.linear % 16384 ≠ 0)
    (h14 : radix < 14) (hlin : bmap'.linear = bmap.linear + 2 ^ radix) :
    CursorInv bmap' (insert ⟨bmap.linear, radix⟩ refs) := by
  have hpos : 0 < 2 ^ radix := Nat.two_pow_pos _
  have hfit := h.shape.2 h14
  have hfits := h.fits
  have hmark : bmap'.blk (bmap.linear / 16384) = 3 := by
    rw [h.marked _ (by omega), blockCount_of_lt h14, if_pos (by omega)]
  refine ⟨hlin.trans_le hfits, ?_, ?_, ?_, ?_⟩
  · intro hmid'
    rw [show bmap'.linear / 16384 = bmap.linear / 16384 by omega, hmark]
    decide
  · intro hmid' f hf ht
    rw [show bmap'.linear / 16384 = bmap.linear / 16384 by omega] at ht
    rcases hf with rfl | hf
    · exact hlin.ge
    · have := hi.cursor_free hmid f hf ht
      omega
  · intro hmid' hpos'
    rw [show bmap'.linear / 16384 = bmap.linear / 16384 by omega] at hpos' ⊢
    exact h.mono_ne (by omega) (hi.below hmid hpos')
  · intro hal _ _
    rw [show bmap'.linear / 16384 - 1 = bmap.linear / 16384 by omega]
    exact hmark

/-- A fragment taken from a free block leaves the iterator behind it. -/
theorem CursorInv.alloc_fragment {bmap bmap' : BmapData} {refs : Set Extent} {radix off : Nat}
    (hi : SegInv bmap refs)
    (h : AllocEffect bmap bmap' radix off) (hal : off % 16384 = 0) (h14 : radix < 14)
    (hfree : bmap.blk (off / 16384) = 0) (hlow : ∀ b, b < off / 16384 → bmap.blk b ≠ 0)
    (hlin : bmap'.linear = off + 2 ^ radix) :
    CursorInv bmap' (insert ⟨off, radix⟩ refs) := by
  have hpos : 0 < 2 ^ radix := Nat.two_pow_pos _
  have hsmall := two_pow_le_of_lt h14
  have hfits := h.fits
  have hdiv : bmap'.linear / 16384 = off / 16384 := by omega
  refine ⟨by omega, ?_, ?_, ?_, by omega⟩
  · intro _
    rw [hdiv, h.marked _ (by omega), blockCount_of_lt h14, if_pos (by omega)]
    decide
  · intro _ f hf ht
    rw [hdiv] at ht
    rcases hf with rfl | hf
    · exact hlin.ge
    · exact absurd hfree (hi.used f hf _ (by omega) ht)
  · intro _ hpos'
    rw [hdiv] at hpos' ⊢
    exact h.mono_ne (by omega) (hlow _ (by omega))

/-- Whole blocks are taken without moving the iterator. -/
theorem CursorInv.alloc_whole {bmap bmap' : BmapData} {refs : Set Extent} {radix off : Nat}
    (hmin : 10 ≤ radix) (hmax : radix ≤ 16) (hi : CursorInv bmap refs)
    (h : AllocEffect bmap bmap' radix off)
    (hfree : ∀ b, off / 16384 ≤ b → b < off / 16384 + blockCount radix → bmap.blk b = 0)
    (hlin : bmap'.linear = bmap.linear) : CursorInv bmap' (insert ⟨off, radix⟩ refs) := by
  have hb := hi.bound
  refine ⟨by rwa [hlin], ?_, ?_, ?_, ?_⟩
  · intro hmid
    rw [hlin] at hmid ⊢
    exact h.mono_ne (by omega) (hi.cursor_used hmid)
  · intro hmid f hf ht
    rw [hlin] at hmid ht ⊢
    rcases hf with rfl | hf
    · exact absurd (h.free_of_touches hmin hmax hfree ht) (hi.cursor_used hmid)
    · exact hi.cursor_free hmid f hf ht
  · intro hmid hpos
    rw [hlin] at hmid hpos ⊢
    exact h.mono_ne (by omega) (hi.below hmid hpos)
  · intro hal hpos hlt
    rw [hlin] at hal hpos hlt ⊢
    exact h.mono_three (by omega) (hi.boundary hal hpos hlt)

theorem SegInv.alloc_cursor {bmap bmap' : BmapData} {refs : Set Extent} {radix off : Nat}
    (hmin : 10 ≤ radix) (hmax : radix ≤ 16) (hi : SegInv bmap refs)
    (h : AllocEffect bmap bmap' radix off) : CursorInv bmap' (insert ⟨off, radix⟩ refs) := by
  rcases h.origin with ⟨hmid, h14, rfl, hlin⟩ | ⟨hal, hfree, hlin, hlow⟩
  · exact hi.toCursorInv.alloc_linear h hmid h14 hlin
  · by_cases h14 : radix < 14
    · rw [if_pos h14] at hlin
      exact CursorInv.alloc_fragment hi h hal h14
        (hfree _ le_rfl (by rw [blockCount_of_lt h14]; omega)) (hlow h14) hlin
    · rw [if_neg h14] at hlin
      exact hi.toCursorInv.alloc_whole hmin hmax h hfree hlin

theorem SegInv.alloc {bmap bmap' : BmapData} {refs : Set Extent} {radix off : Nat}
    (hmin : 10 ≤ radix) (hmax : radix ≤ 16) (hi : SegInv bmap refs)
    (h : AllocEffect bmap bmap' radix off) : SegInv bmap' (insert ⟨off, radix⟩ refs) := by
  refine ⟨hi.alloc_cursor hmin hmax h, ?_, ?_, ?_⟩
  · intro e he
    rcases he with rfl | he
    · exact h.shaped hmin hmax
    · exact hi.shaped e he
  · intro e he f hf hne
    rcases he with rfl | he
    · rcases hf with rfl | hf
      · exact absurd rfl hne
      · exact hi.alloc_disjoint hmin hmax h hf
    · rcases hf with rfl | hf
      · exact (hi.alloc_disjoint hmin hmax h he).symm
      · exact hi.disjoint e he f hf hne
  · intro e he b hb ht
    rcases he with rfl | he
    · rw [h.blk_of_touches hmin hmax ht]
      decide
    · exact h.mono_ne hb (hi.used e he b hb ht)

/-- An allocation during a pass keeps the pass invariant. -/
theorem PassInv.alloc {bmap bmap' : BmapData} {refs snap : Set Extent} {radix off : Nat}
    (hmin : 10 ≤ radix) (hmax : radix ≤ 16) (hi : SegInv bmap refs) (hp : PassInv bmap refs snap)
    (h : AllocEffect bmap bmap' radix off) : PassInv bmap' (insert ⟨off, radix⟩ refs) snap := by
  have hpos : 0 < 2 ^ radix := Nat.two_pow_pos _
  have hfits := h.fits
  refine ⟨hp.shaped, hp.disjoint, ?_, ?_, ?_, ?_⟩
  · intro e he b hb ht
    exact h.mono_ne hb (hp.snap_used e he b hb ht)
  · intro hmid' e he ht
    rcases h.origin with ⟨hmid, h14, rfl, hlin⟩ | ⟨hal, hfree, hlin, _⟩
    · have hfit := h.shape.2 h14
      rw [show bmap'.linear / 16384 = bmap.linear / 16384 by omega] at ht
      have := hp.snap_cursor hmid e he ht
      omega
    · by_cases h14 : radix < 14
      · rw [if_pos h14] at hlin
        have hsmall := two_pow_le_of_lt h14
        rw [show bmap'.linear / 16384 = off / 16384 by omega] at ht
        exact absurd (hfree _ le_rfl (by rw [blockCount_of_lt h14]; omega))
          (hp.snap_used e he _ (by omega) ht)
      · rw [if_neg h14] at hlin
        rw [hlin] at hmid' ht ⊢
        exact hp.snap_cursor hmid' e he ht
  · intro e he hns b hb ht
    rcases he with rfl | he
    · exact h.blk_of_touches hmin hmax ht
    · exact h.mono_three hb (hp.fresh_marked e he hns b hb ht)
  · rintro c hc0 hc ⟨s, hs, hst⟩ ⟨f, hf, hns, hft⟩
    have hold : f ∈ refs →
        bmap.blk (c - 1) ≠ 0 ∧ ¬(16384 * (c - 1) < bmap.linear ∧ bmap.linear ≤ 16384 * c) :=
      fun hf => hp.fresh_apart c hc0 hc ⟨s, hs, hst⟩ ⟨f, hf, hns, hft⟩
    have hsused := hp.snap_used s hs c hc hst
    rcases h.origin with ⟨hmid, h14, rfl, hlin⟩ | ⟨hal, hfree, hlin, _⟩
    · have hfit := h.shape.2 h14
      rcases hf with rfl | hf
      · have hce := h.eq_of_touches hmin hmax h14 hft
        subst hce
        exact ⟨h.mono_ne (by omega) (hi.below hmid hc0), by omega⟩
      · obtain ⟨hb, hout⟩ := hold hf
        exact ⟨h.mono_ne (by omega) hb, by omega⟩
    · rcases hf with rfl | hf
      · exact absurd (h.free_of_touches hmin hmax hfree hft) hsused
      · obtain ⟨hb, hout⟩ := hold hf
        refine ⟨h.mono_ne (by omega) hb, ?_⟩
        by_cases h14 : radix < 14
        · rw [if_pos h14] at hlin
          have hsmall := two_pow_le_of_lt h14
          intro hin
          apply hb
          rw [show c - 1 = off / 16384 by omega]
          exact hfree _ le_rfl (by rw [blockCount_of_lt h14]; omega)
        · rw [if_neg h14] at hlin
          rwa [hlin]

theorem SegInv.subset {bmap : BmapData} {refs refs' : Set Extent} (hsub : refs' ⊆ refs)
    (hi : SegInv bmap refs) : SegInv bmap refs' where
  bound := hi.bound
  cursor_used := hi.cursor_used
  cursor_free := fun hmid e he => hi.cursor_free hmid e (hsub he)
  below := hi.below
  boundary := hi.boundary
  shaped := fun e he => hi.shaped e (hsub he)
  disjoint := fun e he f hf => hi.disjoint e (hsub he) f (hsub hf)
  used := fun e he => hi.used e (hsub he)

theorem PassInv.subset {bmap : BmapData} {refs refs' snap : Set Extent} (hsub : refs' ⊆ refs)
    (hp : PassInv bmap refs snap) : PassInv bmap refs' snap where
  shaped := hp.shaped
  disjoint := hp.disjoint
  snap_used := hp.snap_used
  snap_cursor := hp.snap_cursor
  fresh_marked := fun e he => hp.fresh_marked e (hsub he)
  fresh_apart := by
    rintro c hc0 hc hs ⟨f, hf, hft⟩
    exact hp.fresh_apart c hc0 hc hs ⟨f, hsub hf, hft⟩

/-- A pass starts with nothing handed out since its snapshot. -/
theorem SegInv.begin {bmap : BmapData} {refs : Set Extent} (hi : SegInv bmap refs) :
    PassInv bmap refs refs where
  shaped := hi.shaped
  disjoint := hi.disjoint
  snap_used := hi.used
  snap_cursor := hi.cursor_free
  fresh_marked := fun e he hne => absurd he hne
  fresh_apart := by
    rintro c _ _ _ ⟨f, hf, hne, _⟩
    exact absurd hf hne

/-- Recovery only marks blocks, and resets the iterator when it changes one. -/
theorem SegInv.recover {bmap : BmapData} {refs : Set Extent} {i k count : Nat} {st : AdjustState}
    (hi : SegInv bmap refs) (h : MarkEffect bmap i k count st) : SegInv st.bmap refs := by
  cases hm : st.modified with
  | false => rwa [h.untouched hm]
  | true =>
    have hz := h.reset hm
    refine ⟨⟨by omega, by omega, by omega, by omega, by omega⟩, hi.shaped, hi.disjoint, ?_⟩
    intro e he b hb ht
    rw [h.marked b hb]
    split
    next => decide
    next => exact hi.used e he b hb ht

theorem PassInv.recover {bmap : BmapData} {refs snap : Set Extent} {i k count : Nat}
    {st : AdjustState} (hp : PassInv bmap refs snap) (h : MarkEffect bmap i k count st) :
    PassInv st.bmap refs snap := by
  cases hm : st.modified with
  | false => rwa [h.untouched hm]
  | true =>
    have hz := h.reset hm
    have hne : ∀ b, b < 256 → bmap.blk b ≠ 0 → st.bmap.blk b ≠ 0 := by
      intro b hb hne
      rw [h.marked b hb]
      split
      next => decide
      next => exact hne
    refine ⟨hp.shaped, hp.disjoint, fun e he b hb ht => hne b hb (hp.snap_used e he b hb ht),
      by omega, ?_, ?_⟩
    · intro e he hns b hb ht
      rw [h.marked b hb]
      split
      next => rfl
      next => exact hp.fresh_marked e he hns b hb ht
    · intro c hc0 hc hs hf
      exact ⟨hne _ (by omega) (hp.fresh_apart c hc0 hc hs hf).1, by omega⟩

theorem mergeBlk_three_left (l : BitVec 2) : mergeBlk 3 l = 3 := by
  revert l
  decide

theorem mergeBlk_three_right {m : BitVec 2} (hm : m = 0 ∨ m = 3) : mergeBlk m 3 ≠ 0 := by
  rcases hm with rfl | rfl <;> decide

/-- The end of an allocation is mid-block only for a fragment, which lies in that block. -/
theorem Extent.Shaped.fragment_of_stop {e : Extent} (h : e.Shaped) (hmid : e.stop % 16384 ≠ 0) :
    e.radix < 14 ∧ e.off / 16384 = e.stop / 16384 := by
  unfold Extent.stop at *
  by_cases h14 : e.radix < 14
  · have hf := h.fragment h14
    have hpos : 0 < 2 ^ e.radix := Nat.two_pow_pos _
    exact ⟨h14, by omega⟩
  · have hw := h.whole (by omega)
    have := blockCount_mul_of_le (by omega : 14 ≤ e.radix) h.radix_max
    omega

theorem Extent.touches_stop {e : Extent} {c : Nat} (hlo : 16384 * c < e.stop)
    (hhi : e.stop ≤ 16384 * (c + 1)) : e.Touches c := by
  have hpos : 0 < 2 ^ e.radix := Nat.two_pow_pos _
  unfold Extent.Touches
  unfold Extent.stop at *
  omega

/-- A scanned whole block cannot share a block with the fragment at the recorded offset. -/
theorem Collected.stop_le {bmap : BmapData} {snap : Set Extent} {e f : Extent}
    (hc : Collected bmap snap) (hdisj : ∀ e ∈ snap, ∀ f ∈ snap, e ≠ f → e.Disjoint f)
    (hes : e.Shaped) (hfs : f.Shaped) (he : e ∈ snap) (hf : f ∈ snap)
    (hstop : bmap.linear = f.stop) (hmid : bmap.linear % 16384 ≠ 0)
    (ht : e.Touches (bmap.linear / 16384)) : e.stop ≤ bmap.linear := by
  by_cases h14 : e.radix < 14
  · exact hc.covers e he h14
  · obtain ⟨hf14, hoff⟩ := hfs.fragment_of_stop (hstop ▸ hmid)
    have hne : e ≠ f := by
      intro heq
      rw [heq] at h14
      exact h14 hf14
    have hd := hdisj e he f hf hne
    have hw := hes.whole (by omega)
    have hsize := blockCount_mul_of_le (by omega : 14 ≤ e.radix) hes.radix_max
    have hpos : 0 < 2 ^ f.radix := Nat.two_pow_pos _
    unfold Extent.Touches at ht
    unfold Extent.Disjoint at hd
    unfold Extent.stop at *
    omega

/-- The only state in which a merge may move the iterator back over an extent: the iterator stands
at the start of the segment, every scanned fragment ends in block 0, and block 0 also holds an extent
handed out since the snapshot. -/
def MergeHazard (live : BmapData) (refs snap : Set Extent) : Prop :=
  live.linear = 0 ∧ (∃ e ∈ snap, e.radix < 14) ∧ (∀ e ∈ snap, e.radix < 14 → e.stop < 16384) ∧
    ∃ f ∈ refs, f ∉ snap ∧ f.Touches 0

theorem CursorInv.merge_up {live live' bmap : BmapData} {refs snap : Set Extent}
    (hi : SegInv live refs) (hp : PassInv live refs snap) (hc : Collected bmap snap)
    (hblk : ∀ b, b < 256 → live'.blk b = mergeBlk (bmap.blk b) (live.blk b))
    (hsafe : ¬MergeHazard live refs snap) (hlt : live.linear < bmap.linear)
    (hdiv : live.linear / 16384 = bmap.linear / 16384) (hlin : live'.linear = bmap.linear) :
    CursorInv live' refs := by
  have hmid : bmap.linear % 16384 ≠ 0 := by omega
  have hbound := hi.bound
  obtain ⟨f, hf, hstop⟩ : ∃ f ∈ snap, bmap.linear = f.stop := by
    rcases hc.source with h | h | h
    · omega
    · omega
    · exact h
  obtain ⟨hfs, hfoff⟩ := hp.shaped f hf
  have hfstop := hfs.stop_le hfoff
  have hft : f.Touches (bmap.linear / 16384) := Extent.touches_stop (by omega) (by omega)
  have hc256 : bmap.linear / 16384 < 256 := by omega
  have halign : live.linear = 16384 * (bmap.linear / 16384) := by
    by_contra hne
    have hmid' : live.linear % 16384 ≠ 0 := by omega
    have := hp.snap_cursor hmid' f hf (by rwa [hdiv])
    omega
  have hold : ∀ e ∈ refs, e.Touches (bmap.linear / 16384) → e ∈ snap := by
    intro e he ht
    by_contra hns
    by_cases hzero : bmap.linear / 16384 = 0
    · rw [hzero] at ht
      have hf14 := (hfs.fragment_of_stop (hstop ▸ hmid)).1
      refine hsafe ⟨by omega, ⟨f, hf, hf14⟩, ?_, e, he, hns, ht⟩
      intro g hg hg14
      have := hc.covers g hg hg14
      omega
    · have := (hp.fresh_apart _ (by omega) hc256 ⟨f, hf, hft⟩ ⟨e, he, hns, ht⟩).2
      omega
  refine ⟨by omega, ?_, ?_, ?_, by omega⟩
  · intro _
    rw [hlin, hblk _ hc256, hc.marked f hf _ hc256 hft, mergeBlk_three_left]
    decide
  · intro _ e he ht
    rw [hlin] at ht ⊢
    have hes := hold e he ht
    exact hc.stop_le hp.disjoint (hp.shaped e hes).1 hfs hes hf hstop hmid ht
  · intro _ hpos
    rw [hlin] at hpos ⊢
    have h3 := hi.boundary (by omega) (by omega) (by omega)
    rw [hblk _ (by omega), ← hdiv, h3]
    exact mergeBlk_three_right (hc.binary _ (by omega))

theorem CursorInv.merge_round {live live' bmap : BmapData} {refs snap : Set Extent}
    (hp : PassInv live refs snap) (hc : Collected bmap snap)
    (hblk : ∀ b, b < 256 → live'.blk b = mergeBlk (bmap.blk b) (live.blk b))
    (hlin : live'.linear = (bmap.linear + 16383) / 16384 * 16384) : CursorInv live' refs := by
  have hbound : bmap.linear ≤ 4194304 := by
    rcases hc.source with h | h | ⟨f, hf, hstop⟩
    · omega
    · omega
    · obtain ⟨hfs, hfoff⟩ := hp.shaped f hf
      have := hfs.stop_le hfoff
      omega
  refine ⟨by omega, by omega, by omega, by omega, ?_⟩
  intro _ hpos hlt
  rcases hc.source with h | h | ⟨f, hf, hstop⟩
  · omega
  · omega
  · have hft : f.Touches (live'.linear / 16384 - 1) := Extent.touches_stop (by omega) (by omega)
    rw [hblk _ (by omega), hc.marked f hf _ (by omega) hft, mergeBlk_three_left]

/-- Merging a pass keeps the invariant outside the hazard. -/
theorem SegInv.merge {live live' bmap : BmapData} {refs snap : Set Extent}
    (hi : SegInv live refs) (hp : PassInv live refs snap) (hc : Collected bmap snap)
    (hm : SegMerged bmap live live') (hsafe : ¬MergeHazard live refs snap) :
    SegInv live' refs := by
  have hblk : ∀ b, b < 256 → live'.blk b = mergeBlk (bmap.blk b) (live.blk b) :=
    fun b hb => hm.blk hb
  refine ⟨?_, hi.shaped, hi.disjoint, ?_⟩
  · rcases hm with ⟨rfl, _⟩ | rfl
    · exact hi.toCursorInv
    · rcases syncAdjust_linear live bmap with hl | hl | ⟨hlt, hdiv, hl⟩ | hl
      · exact ⟨by omega, by omega, by omega, by omega, by omega⟩
      · exact ⟨by omega, by omega, by omega, by omega, by omega⟩
      · exact CursorInv.merge_up hi hp hc hblk hsafe hlt hdiv hl
      · exact CursorInv.merge_round hp hc hblk hl
  · intro e he b hb ht
    rw [hblk b hb]
    by_cases hs : e ∈ snap
    · rw [hc.marked e hs b hb ht, mergeBlk_three_left]
      decide
    · rw [hp.fresh_marked e he hs b hb ht]
      exact mergeBlk_three_right (hc.binary b hb)

end Hammer2
