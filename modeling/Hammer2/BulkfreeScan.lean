import Hammer2.FreemapAdjust

namespace Hammer2

/-- A byte range `[off, off + 2^radix)` of the media, as a blockref names it. -/
structure Extent where
  off : Nat
  radix : Nat
deriving DecidableEq, Repr

def Extent.stop (e : Extent) : Nat := e.off + 2 ^ e.radix

def Extent.Disjoint (e f : Extent) : Prop := e.stop ≤ f.off ∨ f.stop ≤ e.off

instance (e f : Extent) : Decidable (e.Disjoint f) :=
  inferInstanceAs (Decidable (_ ∨ _))

/-- The extent covers part of the 16KB block `b`. -/
def Extent.Touches (e : Extent) (b : Nat) : Prop := e.off < 16384 * (b + 1) ∧ 16384 * b < e.stop

instance (e : Extent) (b : Nat) : Decidable (e.Touches b) :=
  inferInstanceAs (Decidable (_ ∧ _))

/-- Extents as the allocator shapes them: radix 10..16, a fragment inside one 16KB block, a whole
allocation aligned to 16KB, and nothing across a 4MB boundary. -/
structure Extent.Shaped (e : Extent) : Prop where
  radix_min : 10 ≤ e.radix
  radix_max : e.radix ≤ 16
  whole : 14 ≤ e.radix → e.off % 16384 = 0
  fragment : e.radix < 14 → e.off % 16384 + 2 ^ e.radix ≤ 16384
  inside : e.off % 4194304 + 2 ^ e.radix ≤ 4194304

/-- The window of storage a bulkfree pass is collecting and its in-memory freemap. -/
structure Cbinfo where
  sbase : Nat
  sstop : Nat
  bmap : Nat → BmapData

/-- `lokey` as the loop of `cbinfo_bmap_init` has raised it when it reaches segment `m`. -/
def cbinfoLokey (hmp : Dev) (sbase : Nat) : Nat → Nat
  | 0 => max (max ((hmp.allocatorBeg + (segSize - 1)) / segSize * segSize) (h2fmBase sbase))
      (h2fmBase sbase + zoneSeg)
  | m + 1 => max (max (cbinfoLokey hmp sbase m) (h2fmBase (sbase + (m + 1) * segSize)))
      (h2fmBase (sbase + (m + 1) * segSize) + zoneSeg)

def cbinfoBmapInit (hmp : Dev) (sbase sstop : Nat) : Cbinfo :=
  { sbase := sbase
    sstop := sstop
    bmap := fun m =>
      if sbase + m * segSize < cbinfoLokey hmp sbase m ∨
          hmp.totalSize / segSize * segSize ≤ sbase + m * segSize then bmapReserved
      else bmapFree }

/-- One 16KB step of the marking loop of `h2_bulkfree_callback`. -/
def callbackBlock (off bytes : Nat) (bmap : BmapData) : BmapData :=
  let i := off / bmapIndexSize
  let mask := 3#64 <<< (2 * (off % bmapIndexSize / freemapBlockSize))
  if bmap.q i &&& mask = 0 then
    { bmap.setq i (bmap.q i ||| mask) with
      avail := subU32 bmap.avail (if bytes < freemapBlockSize then freemapBlockSize else bytes) }
  else bmap

def callbackMark : Nat → Nat → Nat → BmapData → BmapData
  | 0, _, _, bmap => bmap
  | fuel + 1, off, bytes, bmap =>
    if bytes = 0 then bmap
    else callbackMark fuel (off + freemapBlockSize) (bytes - freemapBlockSize)
      (callbackBlock off bytes bmap)

/-- The highest byte-granular offset seen so far; whole blocks only push it past themselves. -/
def callbackLinear (linear off bytes : Nat) : Nat :=
  if bytes % freemapBlockSize ≠ 0 then
    if linear < off + bytes then off + bytes else linear
  else if off ≤ linear ∧ linear < off + bytes then off + bytes
  else linear

/-- The work of `h2_bulkfree_callback` on the segment that holds the data. -/
def callbackSeg (bmap : BmapData) (cls off bytes : Nat) : BmapData :=
  let classed := if bmap.cls = 0 then { bmap with cls := cls, avail := segSize } else bmap
  callbackMark freemapCount off bytes
    { classed with linear := callbackLinear bmap.linear off bytes }

/-- `h2_bulkfree_callback` for a blockref of the given type. -/
def bulkfreeCallback (hmp : Dev) (cb : Cbinfo) (type : Nat) (e : Extent) :
    Except FreemapError Cbinfo := do
  if e.off < cb.sbase ∨ cb.sstop ≤ e.off then return cb
  if e.off < hmp.allocatorBeg then return cb
  if hmp.totalSize ≤ e.off then return cb
  kkassert (e.radix ≠ 0)
  let bytes := if cb.sstop < e.off + 1 <<< e.radix then cb.sstop - e.off else 1 <<< e.radix
  let m := (e.off - cb.sbase) / segSize
  let off := (e.off - cb.sbase) % segSize
  let bytes := if segSize < off + bytes then segSize - off else bytes
  return { cb with
    bmap := Function.update cb.bmap m
      (callbackSeg (cb.bmap m) (type * 256 + pbufRadix) off bytes) }

/-- The scan of a snapshot: the callback on every blockref it holds, in scan order. -/
def bulkfreeScan (hmp : Dev) : List (Nat × Extent) → Cbinfo → Except FreemapError Cbinfo
  | [], cb => .ok cb
  | (type, e) :: rest, cb => do
    let cb' ← bulkfreeCallback hmp cb type e
    bulkfreeScan hmp rest cb'

theorem Extent.Shaped.stop_le {e : Extent} (h : e.Shaped) (hoff : e.off < 4194304) :
    e.stop ≤ 4194304 := by
  have := h.inside
  unfold Extent.stop
  omega

/-- The blocks that a shaped extent of one segment covers. -/
theorem Extent.Shaped.touches_iff {e : Extent} (h : e.Shaped) (b : Nat) :
    e.Touches b ↔ e.off / 16384 ≤ b ∧ b < e.off / 16384 + blockCount e.radix := by
  unfold Extent.Touches Extent.stop
  by_cases h14 : e.radix < 14
  · have hf := h.fragment h14
    have hpos : 0 < 2 ^ e.radix := Nat.two_pow_pos _
    rw [blockCount_of_lt h14]
    omega
  · have hw := h.whole (by omega)
    have hc := blockCount_mul_of_le (by omega : 14 ≤ e.radix) h.radix_max
    omega

theorem ceil_two_pow {radix : Nat} (hr : radix ≤ 16) :
    (2 ^ radix + 16383) / 16384 = blockCount radix := by
  unfold blockCount freemapBlockRadix
  interval_cases radix <;> rfl

theorem callbackBlock_linear (off bytes : Nat) (bmap : BmapData) :
    (callbackBlock off bytes bmap).linear = bmap.linear := by
  unfold callbackBlock
  simp only
  split <;> rfl

theorem callbackBlock_blk {off bytes b : Nat} {bmap : BmapData} (hoff : off < 4194304)
    (hb : b < 256) :
    (callbackBlock off bytes bmap).blk b =
      if b = off / 16384 ∧ bmap.blk b = 0 then 3 else bmap.blk b := by
  have hword : off / bmapIndexSize = off / 16384 / 32 := by
    simp only [bmapIndexSize, freemapBlockSize, bmapBlocksPerElement]
    omega
  have hidx : off % bmapIndexSize / freemapBlockSize = off / 16384 % 32 := by
    simp only [bmapIndexSize, freemapBlockSize, bmapBlocksPerElement]
    omega
  have hmask : 3#64 <<< (2 * (off % bmapIndexSize / freemapBlockSize)) =
      BitPair.run 64 (off / 16384 % 32) 1 := by
    rw [hidx, BitPair.three_shiftLeft_eq_run (by omega)]
  have hfree : bmap.q (off / 16384 / 32) &&& BitPair.run 64 (off / 16384 % 32) 1 = 0 ↔
      bmap.blk (off / 16384) = 0 := by
    rw [BitPair.and_run_eq_zero_iff (by omega) (by omega)]
    constructor
    · intro h
      exact h _ le_rfl (by omega)
    · intro h j h1 h2
      rw [show j = off / 16384 % 32 by omega]
      exact h
  unfold callbackBlock
  simp only [hword, hmask, hfree]
  split
  next hz =>
    have hset := setq_or_run_blk bmap (i := off / 16384 / 32)
      (k := off / 16384 % 32) (c := 1) (b := b) (by omega) (by omega) (by omega) hb
    refine (blk_congr rfl b).trans (hset.trans ?_)
    by_cases hcur : b = off / 16384
    · subst hcur
      rw [if_pos (by omega), if_pos ⟨rfl, hz⟩]
    · rw [if_neg (by omega), if_neg (by tauto)]
  next hnz =>
    rw [if_neg]
    rintro ⟨rfl, hz⟩
    exact hnz hz

theorem callbackMark_linear (fuel off bytes : Nat) (bmap : BmapData) :
    (callbackMark fuel off bytes bmap).linear = bmap.linear := by
  induction fuel generalizing off bytes bmap with
  | zero => rfl
  | succ fuel ih =>
    unfold callbackMark
    split
    next => rfl
    next => rw [ih, callbackBlock_linear]

/-- The marking loop turns the free blocks of the range into 11 and changes nothing else. -/
theorem callbackMark_blk {fuel off bytes b : Nat} {bmap : BmapData}
    (hfuel : (bytes + 16383) / 16384 ≤ fuel) (hfit : off / 16384 + (bytes + 16383) / 16384 ≤ 256)
    (hb : b < 256) :
    (callbackMark fuel off bytes bmap).blk b =
      if (off / 16384 ≤ b ∧ b < off / 16384 + (bytes + 16383) / 16384) ∧ bmap.blk b = 0 then 3
      else bmap.blk b := by
  induction fuel generalizing off bytes bmap with
  | zero => rw [if_neg (by omega)]; rfl
  | succ fuel ih =>
    unfold callbackMark
    split
    next hz => rw [if_neg (by omega)]
    next hnz =>
      simp only [freemapBlockSize]
      rw [ih (by omega) (by omega), callbackBlock_blk (by omega) hb,
        show (off + 16384) / 16384 = off / 16384 + 1 by omega,
        show (bytes - 16384 + 16383) / 16384 = (bytes + 16383) / 16384 - 1 by omega]
      by_cases hcur : b = off / 16384
      · have hlt : off / 16384 < off / 16384 + (bytes + 16383) / 16384 := by omega
        have hout : ¬((off / 16384 + 1 ≤ b ∧ b < off / 16384 + 1 + ((bytes + 16383) / 16384 - 1)) ∧
            (if b = off / 16384 ∧ bmap.blk b = 0 then 3 else bmap.blk b) = 0) := by omega
        rw [if_neg hout]
        simp only [hcur, hlt, le_refl, true_and]
      · have hiff : (off / 16384 + 1 ≤ b ∧ b < off / 16384 + 1 + ((bytes + 16383) / 16384 - 1)) ↔
            (off / 16384 ≤ b ∧ b < off / 16384 + (bytes + 16383) / 16384) := by omega
        simp only [hcur, false_and, ↓reduceIte, hiff]

/-- What the in-memory segment records about the extents `P` scanned so far. -/
structure Collected (bmap : BmapData) (P : Set Extent) : Prop where
  binary : ∀ b, b < 256 → bmap.blk b = 0 ∨ bmap.blk b = 3
  marked : ∀ e ∈ P, ∀ b, b < 256 → e.Touches b → bmap.blk b = 3
  covers : ∀ e ∈ P, e.radix < 14 → e.stop ≤ bmap.linear
  source : bmap.linear = 0 ∨ bmap.linear = 4194304 ∨ ∃ e ∈ P, bmap.linear = e.stop

theorem collected_bmapFree : Collected bmapFree ∅ := by
  refine ⟨?_, by simp, by simp, Or.inl rfl⟩
  intro b _
  left
  unfold bmapFree BmapData.blk BmapData.q
  simp

theorem collected_bmapReserved : Collected bmapReserved ∅ := by
  refine ⟨?_, by simp, by simp, Or.inr (Or.inl rfl)⟩
  intro b _
  right
  unfold bmapReserved BmapData.blk BmapData.q
  exact BitPair.pair_allOnes (by omega)

theorem callbackLinear_cases (linear off bytes : Nat) :
    linear ≤ callbackLinear linear off bytes ∧
      (bytes % 16384 ≠ 0 → off + bytes ≤ callbackLinear linear off bytes) ∧
      (callbackLinear linear off bytes = linear ∨
        callbackLinear linear off bytes = off + bytes) := by
  unfold callbackLinear freemapBlockSize
  split
  next h => split <;> omega
  next h => split <;> omega

theorem callbackSeg_blk {bmap : BmapData} {cls off bytes b : Nat} (hfit : off + bytes ≤ 4194304)
    (hb : b < 256) :
    (callbackSeg bmap cls off bytes).blk b =
      if (off / 16384 ≤ b ∧ b < off / 16384 + (bytes + 16383) / 16384) ∧ bmap.blk b = 0 then 3
      else bmap.blk b := by
  have hsame : BmapData.blk { (if bmap.cls = 0 then { bmap with cls := cls, avail := segSize }
      else bmap) with linear := callbackLinear bmap.linear off bytes } b = bmap.blk b := by
    apply blk_congr
    split <;> rfl
  unfold callbackSeg
  rw [callbackMark_blk (by unfold freemapCount; omega) (by omega) hb]
  simp only [hsame]

/-- The blocks of a segment that the callback on a shaped extent marks. -/
theorem callbackSeg_shaped {bmap : BmapData} {cls b : Nat} {e : Extent} (he : e.Shaped)
    (hoff : e.off < 4194304) (hb : b < 256) :
    (callbackSeg bmap cls e.off (2 ^ e.radix)).blk b =
      if e.Touches b ∧ bmap.blk b = 0 then 3 else bmap.blk b := by
  have hin := he.inside
  have htouch := he.touches_iff b
  rw [callbackSeg_blk (by omega) hb, ceil_two_pow he.radix_max]
  simp only [htouch]

/-- The callback extends the record by the extent it is given. -/
theorem callbackSeg_collected {bmap : BmapData} {cls : Nat} {P : Set Extent} {e : Extent}
    (he : e.Shaped) (hoff : e.off < 4194304) (h : Collected bmap P) :
    Collected (callbackSeg bmap cls e.off (2 ^ e.radix)) (insert e P) := by
  have hlinear : (callbackSeg bmap cls e.off (2 ^ e.radix)).linear =
      callbackLinear bmap.linear e.off (2 ^ e.radix) := by
    unfold callbackSeg
    rw [callbackMark_linear]
  have hblk : ∀ b, b < 256 → (callbackSeg bmap cls e.off (2 ^ e.radix)).blk b =
      if e.Touches b ∧ bmap.blk b = 0 then 3 else bmap.blk b :=
    fun b hb => callbackSeg_shaped he hoff hb
  obtain ⟨hmono, hfrag, hsrc⟩ := callbackLinear_cases bmap.linear e.off (2 ^ e.radix)
  refine ⟨?_, ?_, ?_, ?_⟩
  · intro b hb
    rw [hblk b hb]
    split
    next => exact Or.inr rfl
    next => exact h.binary b hb
  · intro f hf b hb ht
    rw [hblk b hb]
    rcases hf with rfl | hf
    · rcases h.binary b hb with hz | h3
      · rw [if_pos ⟨ht, hz⟩]
      · rw [h3]; simp
    · rw [h.marked f hf b hb ht]; simp
  · intro f hf h14
    rw [hlinear]
    rcases hf with rfl | hf
    · have := two_pow_le_of_lt h14
      have hpos : 0 < 2 ^ f.radix := Nat.two_pow_pos _
      exact hfrag (by omega)
    · exact (h.covers f hf h14).trans hmono
  · rw [hlinear]
    rcases hsrc with hs | hs
    · rw [hs]
      rcases h.source with h0 | h4 | ⟨f, hf, hstop⟩
      · exact Or.inl h0
      · exact Or.inr (Or.inl h4)
      · exact Or.inr (Or.inr ⟨f, Or.inr hf, hstop⟩)
    · exact Or.inr (Or.inr ⟨e, Or.inl rfl, hs⟩)

/-- The extents of `refs` that lie in the segment at `base`, relative to it. -/
def localRefs (base : Nat) (refs : Set Extent) : Set Extent :=
  { e | e.off < 4194304 ∧ ⟨base + e.off, e.radix⟩ ∈ refs }

theorem localRefs_insert (base : Nat) (e : Extent) (refs : Set Extent) :
    localRefs base (insert e refs) = localRefs base {e} ∪ localRefs base refs := by
  ext f
  simp only [localRefs, Set.mem_insert_iff, Set.mem_ofPred_eq, Set.mem_union, Set.mem_singleton_iff]
  tauto

theorem Extent.Shaped.local (base : Nat) {e : Extent} (hbase : base % 4194304 = 0)
    (h : Extent.Shaped ⟨base + e.off, e.radix⟩) : e.Shaped := by
  obtain ⟨h1, h2, h3, h4, h5⟩ := h
  simp only at h1 h2 h3 h4 h5
  refine ⟨h1, h2, fun h14 => ?_, fun h14 => ?_, by omega⟩
  · have := h3 h14; omega
  · have := h4 h14; omega

theorem localRefs_singleton {base : Nat} {e : Extent} (hlo : base ≤ e.off)
    (hhi : e.off < base + 4194304) : localRefs base {e} = {⟨e.off - base, e.radix⟩} := by
  ext f
  obtain ⟨o, r⟩ := e
  obtain ⟨o', r'⟩ := f
  simp only [localRefs, Set.mem_singleton_iff, Set.mem_ofPred_eq, Extent.mk.injEq] at hlo hhi ⊢
  omega

theorem localRefs_singleton_empty {base : Nat} {e : Extent}
    (h : e.off < base ∨ base + 4194304 ≤ e.off) : localRefs base {e} = ∅ := by
  ext f
  obtain ⟨o, r⟩ := e
  obtain ⟨o', r'⟩ := f
  simp only [localRefs, Set.mem_singleton_iff, Set.mem_ofPred_eq, Extent.mk.injEq,
    Set.mem_empty_iff_false, iff_false] at h ⊢
  omega

/-- What a callback on `e` needs to record it faithfully: the shape of an allocation, inside the
volume and inside the window. -/
structure InWindow (hmp : Dev) (sbase sstop : Nat) (e : Extent) : Prop where
  shaped : e.Shaped
  begin_le : hmp.allocatorBeg ≤ e.off
  stop_le : e.stop ≤ hmp.totalSize
  window_le : sbase ≤ e.off
  window_stop : e.stop ≤ sstop

/-- The callback leaves everything as it is, or records bytes of one segment. -/
theorem bulkfreeCallback_ok {hmp : Dev} {cb cb' : Cbinfo} {type : Nat} {e : Extent}
    (h : bulkfreeCallback hmp cb type e = .ok cb') :
    cb' = cb ∨ ∃ bytes, cb.sbase ≤ e.off ∧ (e.off - cb.sbase) % segSize + bytes ≤ 4194304 ∧
      cb' = { cb with
        bmap := Function.update cb.bmap ((e.off - cb.sbase) / segSize)
          (callbackSeg (cb.bmap ((e.off - cb.sbase) / segSize)) (type * 256 + pbufRadix)
            ((e.off - cb.sbase) % segSize) bytes) } := by
  have hclip : ∀ bytes, (e.off - cb.sbase) % segSize +
      (if segSize < (e.off - cb.sbase) % segSize + bytes then
        segSize - (e.off - cb.sbase) % segSize else bytes) ≤ 4194304 := by
    intro bytes
    unfold segSize
    split
    · omega
    · omega
  unfold bulkfreeCallback at h
  split at h
  next =>
    cases h
    exact Or.inl rfl
  next hwin =>
    split at h
    next =>
      cases h
      exact Or.inl rfl
    next =>
      split at h
      next =>
        cases h
        exact Or.inl rfl
      next =>
        obtain ⟨_, _, h⟩ := except_bind_eq_ok.mp h
        cases h
        exact Or.inr ⟨_, by omega, hclip _, rfl⟩

theorem bulkfreeCallback_window {hmp : Dev} {cb cb' : Cbinfo} {type : Nat} {e : Extent}
    (h : bulkfreeCallback hmp cb type e = .ok cb') : cb'.sbase = cb.sbase ∧ cb'.sstop = cb.sstop := by
  rcases bulkfreeCallback_ok h with rfl | ⟨bytes, -, -, rfl⟩
  · exact ⟨rfl, rfl⟩
  · exact ⟨rfl, rfl⟩

/-- The callback changes no segment but the one that holds the data. -/
theorem bulkfreeCallback_other {hmp : Dev} {cb cb' : Cbinfo} {type m : Nat} {e : Extent}
    (h : bulkfreeCallback hmp cb type e = .ok cb')
    (hout : e.off < cb.sbase + m * 4194304 ∨ cb.sbase + m * 4194304 + 4194304 ≤ e.off) :
    cb'.bmap m = cb.bmap m := by
  rcases bulkfreeCallback_ok h with rfl | ⟨bytes, hlo, -, rfl⟩
  · rfl
  · have hne : m ≠ (e.off - cb.sbase) / segSize := by
      unfold segSize
      omega
    exact Function.update_of_ne hne _ _

theorem bulkfreeCallback_eq {hmp : Dev} {cb : Cbinfo} {type : Nat} {e : Extent}
    (halign : cb.sbase % 4194304 = 0) (he : InWindow hmp cb.sbase cb.sstop e) :
    bulkfreeCallback hmp cb type e = .ok { cb with
      bmap := Function.update cb.bmap ((e.off - cb.sbase) / 4194304)
        (callbackSeg (cb.bmap ((e.off - cb.sbase) / 4194304)) (type * 256 + pbufRadix)
          (e.off % 4194304) (2 ^ e.radix)) } := by
  have hpos : 0 < 2 ^ e.radix := Nat.two_pow_pos _
  have hstop : e.stop = e.off + 2 ^ e.radix := rfl
  obtain ⟨hsh, hbeg, hend, hlo, hhi⟩ := he
  have hin := hsh.inside
  have hrmin := hsh.radix_min
  have hsize : 1 <<< e.radix = 2 ^ e.radix := by simp [Nat.shiftLeft_eq]
  have hmod : (e.off - cb.sbase) % segSize = e.off % 4194304 := by unfold segSize; omega
  unfold bulkfreeCallback
  rw [if_neg (by omega), if_neg (by omega), if_neg (by omega), hsize, if_neg (by omega)]
  simp only [hmod]
  rw [if_neg (by unfold segSize; omega)]
  refine except_bind_eq_ok.mpr ⟨(), by simp; omega, ?_⟩
  unfold segSize
  rfl

/-- The callback records an extent in the segment that holds it. -/
theorem bulkfreeCallback_collected {hmp : Dev} {cb cb' : Cbinfo} {type m : Nat} {e : Extent}
    {P : Set Extent} (halign : cb.sbase % 4194304 = 0)
    (h : bulkfreeCallback hmp cb type e = .ok cb')
    (he : cb.sbase + m * 4194304 ≤ e.off → e.off < cb.sbase + m * 4194304 + 4194304 →
      InWindow hmp cb.sbase cb.sstop e)
    (hc : Collected (cb.bmap m) P) :
    Collected (cb'.bmap m) (localRefs (cb.sbase + m * 4194304) {e} ∪ P) := by
  by_cases hseg : cb.sbase + m * 4194304 ≤ e.off ∧ e.off < cb.sbase + m * 4194304 + 4194304
  · have hin := he hseg.1 hseg.2
    have hidx : (e.off - cb.sbase) / 4194304 = m := by omega
    have hoff : e.off % 4194304 = e.off - (cb.sbase + m * 4194304) := by omega
    rw [bulkfreeCallback_eq halign hin, hidx, hoff] at h
    cases h
    rw [localRefs_singleton hseg.1 hseg.2]
    simp only [Function.update_self, Set.singleton_union]
    have hloc : Extent.Shaped ⟨e.off - (cb.sbase + m * 4194304), e.radix⟩ := by
      refine Extent.Shaped.local (cb.sbase + m * 4194304) (by omega) ?_
      simp only
      rw [Nat.add_sub_cancel' hseg.1]
      exact hin.shaped
    exact callbackSeg_collected (e := ⟨e.off - (cb.sbase + m * 4194304), e.radix⟩) hloc
      (by simp only; omega) hc
  · rw [localRefs_singleton_empty (by omega), Set.empty_union,
      bulkfreeCallback_other h (by omega)]
    exact hc

/-- The extents that a scan list names. -/
def scanned (scan : List (Nat × Extent)) : Set Extent := { e | ∃ type, (type, e) ∈ scan }

theorem scanned_cons (type : Nat) (e : Extent) (rest : List (Nat × Extent)) :
    scanned ((type, e) :: rest) = insert e (scanned rest) := by
  ext f
  simp only [scanned, List.mem_cons, Prod.mk.injEq, Set.mem_ofPred_eq, Set.mem_insert_iff]
  constructor
  · rintro ⟨t, ⟨_, rfl⟩ | h⟩
    · exact Or.inl rfl
    · exact Or.inr ⟨t, h⟩
  · rintro (rfl | ⟨t, h⟩)
    · exact ⟨type, Or.inl ⟨rfl, rfl⟩⟩
    · exact ⟨t, Or.inr h⟩

/-- The scan records every extent of the snapshot that lies in the segment. -/
theorem bulkfreeScan_collected {hmp : Dev} {cb cb' : Cbinfo} {m : Nat}
    {scan : List (Nat × Extent)} {P : Set Extent} (halign : cb.sbase % 4194304 = 0)
    (h : bulkfreeScan hmp scan cb = .ok cb')
    (hscan : ∀ e ∈ scanned scan, cb.sbase + m * 4194304 ≤ e.off →
      e.off < cb.sbase + m * 4194304 + 4194304 → InWindow hmp cb.sbase cb.sstop e)
    (hc : Collected (cb.bmap m) P) :
    cb'.sbase = cb.sbase ∧
      Collected (cb'.bmap m) (localRefs (cb.sbase + m * 4194304) (scanned scan) ∪ P) := by
  induction scan generalizing cb P with
  | nil =>
    cases h
    refine ⟨rfl, ?_⟩
    simpa [localRefs, scanned] using hc
  | cons p rest ih =>
    obtain ⟨type, e⟩ := p
    rw [scanned_cons] at hscan
    obtain ⟨cb1, hcall, hrest⟩ := except_bind_eq_ok.mp h
    obtain ⟨hb1, hs1⟩ := bulkfreeCallback_window hcall
    have hc1 := bulkfreeCallback_collected halign hcall (hscan e (Set.mem_insert _ _)) hc
    have hnext := ih (by rwa [hb1]) hrest
      (by rw [hb1, hs1]; exact fun f hf => hscan f (Set.mem_insert_of_mem _ hf)) hc1
    rw [hb1] at hnext
    refine ⟨hnext.1, ?_⟩
    rw [scanned_cons, localRefs_insert, Set.union_comm (localRefs _ {e}), Set.union_assoc]
    exact hnext.2

/-- The scan of a snapshot that holds only allocations cannot fail. -/
theorem bulkfreeScan_total {hmp : Dev} {scan : List (Nat × Extent)} (cb : Cbinfo)
    (h : ∀ e ∈ scanned scan, e.radix ≠ 0) : ∃ cb', bulkfreeScan hmp scan cb = .ok cb' := by
  induction scan generalizing cb with
  | nil => exact ⟨cb, rfl⟩
  | cons p rest ih =>
    obtain ⟨type, e⟩ := p
    rw [scanned_cons] at h
    have hcall : ∃ cb1, bulkfreeCallback hmp cb type e = .ok cb1 := by
      unfold bulkfreeCallback
      split
      next => exact ⟨cb, rfl⟩
      next =>
        split
        next => exact ⟨cb, rfl⟩
        next =>
          split
          next => exact ⟨cb, rfl⟩
          next =>
            exact ⟨_, except_bind_eq_ok.mpr
              ⟨(), by simpa using h e (Set.mem_insert _ _), rfl⟩⟩
    obtain ⟨cb1, hcall⟩ := hcall
    obtain ⟨cb2, hrest⟩ := ih cb1 (fun f hf => h f (Set.mem_insert_of_mem _ hf))
    exact ⟨cb2, except_bind_eq_ok.mpr ⟨cb1, hcall, hrest⟩⟩

theorem cbinfoBmapInit_collected (hmp : Dev) (sbase sstop m : Nat) :
    Collected ((cbinfoBmapInit hmp sbase sstop).bmap m) ∅ := by
  unfold cbinfoBmapInit
  simp only
  split
  next => exact collected_bmapReserved
  next => exact collected_bmapFree

end Hammer2
