import Hammer2.Freemap
import Hammer2.FreemapAdjust
import Hammer2.Run
import Mathlib.Data.BitVec

namespace Hammer2

/-- The number of blocks of a segment in state 00. -/
def BmapData.free (bmap : BmapData) : Nat := ((Finset.range 256).filter fun b => bmap.blk b = 0).card

/-- The number of blocks of a leaf in state 00. -/
def Leaf.free (leaf : Leaf) : Nat := ∑ n ∈ Finset.range freemapCount, (leaf.seg n).free

/-- The leaves that a 64-bit offset can address. -/
@[irreducible]
def freemapLeaves : Nat := 2 ^ 34

/-- The number of blocks in state 00, with the leaves that do not exist yet as
`hammer2_freemap_init` would set them up. -/
def Freemap.free (hmp : Dev) (fm : Freemap) : Nat :=
  ∑ idx ∈ Finset.range freemapLeaves, (fm.leaf hmp idx).free

/-- What the merge of segment `n` adds to `adj_free`. -/
def syncSegmentAdj (hmp : Dev) (cb : Cbinfo) (ub : BitVec 32) (key : Nat) (leaf : Leaf) (n : Nat) :
    Int :=
  if SyncSkips hmp cb ub key leaf n then 0 else (syncAdjust (leaf.seg n) (cb.segFor key n)).adjFree

/-- What `h2_bulkfree_sync` adds to `adj_free` for the first `n` segments of the leaf at `key`. -/
def syncLeafAdj (hmp : Dev) (cb : Cbinfo) (ub : BitVec 32) (key : Nat) (leaf : Leaf) : Nat → Int
  | 0 => 0
  | n + 1 => syncLeafAdj hmp cb ub key leaf n +
      syncSegmentAdj hmp cb ub key (syncLeaf hmp cb ub key leaf n) n

/-- What `h2_bulkfree_sync` adds to `adj_free` for leaf `idx`. -/
def freemapSyncLeafAdj (hmp : Dev) (sbase sstop : Nat) (cb : Cbinfo) (ub : BitVec 32) (fm : Freemap)
    (idx : Nat) : Int :=
  if sbase ≤ idx * freemapLevel1Size ∧ idx * freemapLevel1Size < sstop then
    match fm idx with
    | none => 0
    | some leaf => syncLeafAdj hmp cb ub (idx * freemapLevel1Size) leaf freemapCount
  else 0

/-- `adj_free` after `h2_bulkfree_sync` has merged the window. -/
def freemapSyncAdj (hmp : Dev) (sbase sstop : Nat) (cb : Cbinfo) (ub : BitVec 32) (fm : Freemap) :
    Int :=
  ∑ idx ∈ Finset.range freemapLeaves, freemapSyncLeafAdj hmp sbase sstop cb ub fm idx

/-- The freemap and `voldata.allocator_free`. -/
structure FreeState where
  fm : Freemap
  allocatorFree : BitVec 64

/-- A try of `hammer2_freemap_alloc`, a `hammer2_freemap_adjust(DORECOVER)`, and a bulkfree pass as
the windows it merges, each with the in-memory bitmap of its scan. -/
inductive FreeAction where
  | alloc (req : AllocRequest)
  | recover (type dataOff radix : Nat)
  | pass (windows : List (Nat × Nat × Cbinfo × BitVec 32))

def freeAlloc (hmp : Dev) (s : FreeState) (req : AllocRequest) : Option FreeState :=
  let idx := req.bnext / freemapLevel1Size
  match tryAlloc hmp (h2fmBase req.bnext) (s.fm.leaf hmp idx) req with
  | .panic => none
  | .enospc leaf => some { s with fm := Function.update s.fm idx (some leaf) }
  | .ok leaf _ bgsize =>
    some ⟨Function.update s.fm idx (some leaf), s.allocatorFree - BitVec.ofNat 64 bgsize⟩

/-- A block below `allocator_beg` is left to the reserved area before its leaf is looked up. -/
def freeRecover (hmp : Dev) (s : FreeState) (type dataOff radix : Nat) : Option FreeState :=
  let idx := dataOff / freemapLevel1Size
  match freemapAdjust hmp (s.fm.leaf hmp idx) type dataOff radix with
  | .error _ => none
  | .ok (leaf, bgsize) =>
    if dataOff < hmp.allocatorBeg then some s
    else some ⟨Function.update s.fm idx (some leaf), s.allocatorFree - BitVec.ofNat 64 bgsize⟩

/-- One window of `hammer2_bulkfree_pass`. -/
def freeSync (hmp : Dev) (s : FreeState) (sbase sstop : Nat) (cb : Cbinfo) (ub : BitVec 32) :
    FreeState :=
  ⟨freemapSync hmp sbase sstop cb ub s.fm,
    s.allocatorFree + BitVec.ofInt 64 (freemapSyncAdj hmp sbase sstop cb ub s.fm)⟩

/-- `hammer2_bulkfree_pass`. The in-memory bitmaps may be anything. -/
def freePass (hmp : Dev) : List (Nat × Nat × Cbinfo × BitVec 32) → FreeState → FreeState
  | [], s => s
  | (sbase, sstop, cb, ub) :: ws, s => freePass hmp ws (freeSync hmp s sbase sstop cb ub)

/-- Offsets have 64 bits, and `hammer2_freemap_alloc` asserts the radix. -/
def freeStep (hmp : Dev) (s : FreeState) : FreeAction → Option FreeState
  | .alloc req => if req.radix ≤ 16 ∧ req.bnext < 2 ^ 64 then freeAlloc hmp s req else none
  | .recover type dataOff radix => if dataOff < 2 ^ 64 then freeRecover hmp s type dataOff radix else none
  | .pass windows => some (freePass hmp windows s)

theorem free_eq_sum (bmap : BmapData) :
    bmap.free = ∑ b ∈ Finset.range 256, if bmap.blk b = 0 then 1 else 0 :=
  Finset.card_filter _ _

/-- The count when one block changes. -/
theorem free_change {a b : BmapData} {k : Nat} (hk : k < 256)
    (h : ∀ n, n < 256 → n ≠ k → b.blk n = a.blk n) :
    b.free + (if a.blk k = 0 then 1 else 0) = a.free + (if b.blk k = 0 then 1 else 0) := by
  have hm := Finset.mem_range.mpr hk
  have hrest : ∑ n ∈ (Finset.range 256).erase k, (if b.blk n = 0 then 1 else 0) =
      ∑ n ∈ (Finset.range 256).erase k, (if a.blk n = 0 then 1 else 0) := by
    refine Finset.sum_congr rfl ?_
    intro n hn
    rw [Finset.mem_erase, Finset.mem_range] at hn
    rw [h n hn.2 hn.1]
  have ha := Finset.add_sum_erase _ (fun n => if a.blk n = 0 then 1 else 0) hm
  have hb := Finset.add_sum_erase _ (fun n => if b.blk n = 0 then 1 else 0) hm
  rw [free_eq_sum, free_eq_sum]
  omega

/-- The count when a run of free blocks is marked. -/
theorem free_mark_run {a b : BmapData} {k c : Nat} (hk : k + c ≤ 256)
    (h : ∀ n, n < 256 → b.blk n = if k ≤ n ∧ n < k + c then 3 else a.blk n)
    (hfree : ∀ n, k ≤ n → n < k + c → a.blk n = 0) : b.free + c = a.free := by
  have hset : ((Finset.range 256).filter fun n => b.blk n = 0) =
      ((Finset.range 256).filter fun n => a.blk n = 0) \ Finset.Ico k (k + c) := by
    ext n
    simp only [Finset.mem_filter, Finset.mem_range, Finset.mem_sdiff, Finset.mem_Ico]
    constructor
    · rintro ⟨hn, hb⟩
      rw [h n hn] at hb
      split at hb
      next => cases hb
      next hout => exact ⟨⟨hn, hb⟩, hout⟩
    · rintro ⟨⟨hn, ha⟩, hout⟩
      exact ⟨hn, by rw [h n hn, if_neg hout]; exact ha⟩
  have hsub : Finset.Ico k (k + c) ⊆ (Finset.range 256).filter fun n => a.blk n = 0 := by
    intro n hn
    rw [Finset.mem_Ico] at hn
    rw [Finset.mem_filter, Finset.mem_range]
    exact ⟨by omega, hfree n hn.1 hn.2⟩
  have hcard := Finset.card_sdiff_add_card_eq_card hsub
  rw [Nat.card_Ico] at hcard
  unfold BmapData.free
  rw [hset]
  omega

theorem allocSlot_block {bmap : BmapData} {cls subKey radix : Nat} {slot : Slot} (hr : radix ≤ 16)
    (h : allocSlot bmap cls subKey radix = .ok slot) :
    ∃ k, slot.j = 2 * k ∧ k < 32 ∧ slot.offset / 16384 = 32 * slot.i + k := by
  unfold allocSlot at h
  split at h
  next hf =>
    obtain ⟨_, _, _, hj, hi, hoff, _⟩ := linearSlot_spec hf h
    exact ⟨_, hj, Nat.mod_lt _ (by omega), by omega⟩
  next =>
    have hc := blockCount_cases hr
    obtain ⟨k, hj, _, hfit, hoff, _⟩ := bitmapSlot_spec hr h
    exact ⟨k, hj, by omega, by omega⟩

/-- A fragment is charged a whole block if it is the first one of its block. -/
theorem bgsize_fragment {bmap : BmapData} {cls subKey radix : Nat} {slot : Slot} (hr : radix < 14)
    (h : allocSlot bmap cls subKey radix = .ok slot) :
    bgsize bmap radix slot = if bmap.blk (slot.offset / 16384) = 0 then 16384 else 0 := by
  obtain ⟨k, hj, hk, hblock⟩ := allocSlot_block (by omega) h
  have hzero : bmap.q slot.i &&& BitPair.run 64 k 1 = 0 ↔ bmap.blk (slot.offset / 16384) = 0 := by
    rw [q_and_run_eq_zero_iff (by omega) (by omega), hblock]
    constructor
    · intro hz
      exact hz _ le_rfl (by omega)
    · intro hz b h1 h2
      rwa [show b = 32 * slot.i + k by omega]
  unfold bgsize freemapBlockRadix freemapBlockSize
  rw [if_pos hr, hj, bmmask_shiftLeft (by omega), blockCount_of_lt hr]
  simp only [ne_eq, hzero, ite_not]

theorem AllocEffect.free_fragment {bmap bmap' : BmapData} {radix off : Nat} (hr : radix < 14)
    (h : AllocEffect bmap bmap' radix off) :
    bmap'.free + (if bmap.blk (off / 16384) = 0 then 1 else 0) = bmap.free := by
  have hmark := h.marked
  rw [blockCount_of_lt hr] at hmark
  have hfits := h.fits
  have hpos : 0 < 2 ^ radix := Nat.two_pow_pos _
  have hin : off / 16384 < 256 := by omega
  have hself : bmap'.blk (off / 16384) = 3 := by
    rw [hmark _ hin, if_pos (by omega)]
  have hchange := free_change (a := bmap) (b := bmap') hin
    (fun n hn hne => by rw [hmark n hn, if_neg (by omega)])
  rw [hself] at hchange
  exact hchange

/-- `hammer2_bmap_alloc` charges what it takes from the free blocks of the segment. -/
theorem bmapAlloc_free {bmap bmap' : BmapData} {cls subKey radix off bg : Nat} (hr : radix ≤ 16)
    (h : bmapAlloc bmap cls subKey radix = .ok (bmap', off, bg)) :
    16384 * bmap'.free + bg = 16384 * bmap.free := by
  have heff := bmapAlloc_allocEffect hr h
  unfold bmapAlloc at h
  obtain ⟨slot, hslot, h⟩ := except_bind_eq_ok.mp h
  simp only [except_bind_eq_ok, kkassert_eq_ok, pure, Except.pure, Except.ok.injEq,
    Prod.mk.injEq] at h
  obtain ⟨_, hi, _, rfl, rfl⟩ := h
  by_cases h14 : radix < 14
  · have hfree := heff.free_fragment h14
    rw [bgsize_fragment h14 hslot]
    by_cases hb : bmap.blk (slot.offset / 16384) = 0
    · rw [if_pos hb] at hfree ⊢
      omega
    · rw [if_neg hb] at hfree ⊢
      omega
  · have hmul := blockCount_mul_of_le (by omega) hr
    unfold bgsize freemapBlockRadix
    rw [if_neg h14, Nat.shiftLeft_eq, one_mul]
    rcases heff.origin with ⟨_, hlt, _⟩ | ⟨hal, hfree, _⟩
    · omega
    · have hfits := heff.fits
      have hrun := free_mark_run (by omega) heff.marked hfree
      omega

theorem free_setSeg (leaf : Leaf) {n : Nat} (bmap : BmapData) (hn : n < 256) :
    (leaf.setSeg n bmap).free + (leaf.seg n).free = leaf.free + bmap.free := by
  have hm : n ∈ Finset.range freemapCount := Finset.mem_range.mpr hn
  have hrest : ∑ m ∈ (Finset.range freemapCount).erase n, ((leaf.setSeg n bmap).seg m).free =
      ∑ m ∈ (Finset.range freemapCount).erase n, (leaf.seg m).free := by
    refine Finset.sum_congr rfl ?_
    intro m hm
    rw [Finset.mem_erase, Finset.mem_range] at hm
    rw [setSeg_seg hn hm.2, if_neg hm.1]
  have hold := Finset.add_sum_erase _ (fun m => (leaf.seg m).free) hm
  have hnew := Finset.add_sum_erase _ (fun m => ((leaf.setSeg n bmap).seg m).free) hm
  simp only [setSeg_seg hn hn, if_pos] at hnew
  unfold Leaf.free
  omega

theorem tryAlloc_free {hmp : Dev} {key dataOff bg : Nat} {leaf leaf' : Leaf} {req : AllocRequest}
    (hr : req.radix ≤ 16) (h : tryAlloc hmp key leaf req = .ok leaf' dataOff bg) :
    16384 * leaf'.free + bg = 16384 * leaf.free := by
  obtain ⟨-, -, n, bmap', off, hn, rfl, -, ha⟩ := tryAlloc_bmapAlloc h
  have hseg := bmapAlloc_free hr ha
  have hset := free_setSeg leaf bmap' hn
  omega

/-- The single block `k` of bitmap word `i`. -/
theorem q_and_run_one_eq_zero_iff {bmap : BmapData} {i k : Nat} (hk : k < 32) :
    bmap.q i &&& BitPair.run 64 k 1 = 0 ↔ bmap.blk (32 * i + k) = 0 := by
  rw [q_and_run_eq_zero_iff (by omega) (by omega)]
  constructor
  · intro hz
    exact hz _ le_rfl (by omega)
  · intro hz b h1 h2
    rwa [show b = 32 * i + k by omega]

theorem free_congr {a b : BmapData} (h : a.bitmapq = b.bitmapq) : a.free = b.free := by
  unfold BmapData.free
  simp only [blk_congr h]

theorem free_mk (bmap : BmapData) (linear cls avail : Nat) :
    BmapData.free ⟨linear, cls, avail, bmap.bitmapq⟩ = bmap.free := rfl

theorem adjustPair_free (cls : Nat) {i k : Nat} {st : AdjustState} (hi : i < 8) (hk : k < 32) :
    16384 * (adjustPair cls i (BitPair.run 64 k 1) st).bmap.free +
        (adjustPair cls i (BitPair.run 64 k 1) st).bgsize =
      16384 * st.bmap.free + st.bgsize := by
  unfold adjustPair
  split
  next =>
    have hq : (if st.modified then st.bmap else { st.bmap with linear := 0 }).bitmapq =
        st.bmap.bitmapq := by split <;> rfl
    simp only
    generalize (if st.modified then st.bmap else { st.bmap with linear := 0 }) = bmap at hq
    rw [← free_congr hq]
    simp only [q_and_run_one_eq_zero_iff hk]
    have hmark : ∀ b, b < 256 → (bmap.setq i (bmap.q i ||| BitPair.run 64 k 1)).blk b =
        if 32 * i + k ≤ b ∧ b < 32 * i + k + 1 then 3 else bmap.blk b :=
      fun b hb => setq_or_run_blk bmap hi (by omega) (by omega) hb
    have hself : (bmap.setq i (bmap.q i ||| BitPair.run 64 k 1)).blk (32 * i + k) = 3 := by
      rw [hmark _ (by omega), if_pos (by omega)]
    have hchange := free_change (a := bmap) (b := bmap.setq i (bmap.q i ||| BitPair.run 64 k 1))
      (k := 32 * i + k) (by omega) (fun n hn hne => by rw [hmark n hn, if_neg (by omega)])
    rw [hself, if_neg (show (3 : BitVec 2) ≠ 0 by decide)] at hchange
    rw [free_mk]
    by_cases hb : bmap.blk (32 * i + k) = 0
    · rw [if_pos hb] at hchange ⊢
      unfold freemapBlockSize
      omega
    · rw [if_neg hb] at hchange ⊢
      omega
  next => rfl

theorem adjustLoop_free {cls i k count : Nat} {st st' : AdjustState} (hi : i < 8)
    (hk : k + count ≤ 32) (h : adjustLoop cls i count (BitPair.run 64 k 1) st = .ok st') :
    16384 * st'.bmap.free + st'.bgsize = 16384 * st.bmap.free + st.bgsize := by
  induction count generalizing k st with
  | zero =>
    cases h
    rfl
  | succ count ih =>
    unfold adjustLoop at h
    obtain ⟨_, _, h⟩ := except_bind_eq_ok.mp h
    have hshift := run_shiftLeft k 1
    simp only [Nat.mul_one] at hshift
    rw [hshift] at h
    rw [ih (by omega) h, adjustPair_free cls hi (by omega)]

theorem free_setBigmask (leaf : Leaf) (bigmask : BitVec 32) :
    (leaf.setBigmask bigmask).free = leaf.free := rfl

/-- `hammer2_freemap_adjust` charges what it takes from the free blocks of the leaf. -/
theorem freemapAdjust_free {hmp : Dev} {leaf leaf' : Leaf} {type dataOff radix bg : Nat}
    (h : freemapAdjust hmp leaf type dataOff radix = .ok (leaf', bg)) :
    16384 * leaf'.free + bg = 16384 * leaf.free := by
  unfold freemapAdjust at h
  simp only [except_bind_eq_ok, kkassert_eq_ok] at h
  obtain ⟨_, h0, _, hradix, h⟩ := h
  split at h
  next =>
    simp only [pure, Except.pure, Except.ok.injEq, Prod.mk.injEq] at h
    obtain ⟨rfl, rfl⟩ := h
    rw [Nat.add_zero]
  next =>
    simp only [except_bind_eq_ok] at h
    obtain ⟨_, _, st, hloop, h⟩ := h
    obtain ⟨rfl, rfl⟩ := Prod.mk.inj (Except.ok.inj h)
    have hc := blockCount_cases hradix
    rw [Nat.mul_comm (_ &&& 15) 2, BitPair.three_shiftLeft_eq_run (by omega), and_fifteen] at hloop
    have hseg := adjustLoop_free (Nat.mod_lt _ (by decide)) (by omega) hloop
    have hset := free_setSeg leaf (n := dataOff / segSize % freemapCount) st.bmap
      (Nat.mod_lt _ (by decide))
    rw [free_setBigmask]
    simp only at hseg
    omega

/-- What the merge of one block does to the count of free blocks. -/
theorem syncPair_free {i k : Nat} {m l : BitVec 64} {st : SyncState} (hi : i < 8) (hk : k < 32)
    (hcur : st.live.blk (32 * i + k) = BitPair.pair l k) :
    16384 * ((syncPair i (2 * k) (m >>> (2 * k)) (l >>> (2 * k)) st).live.free : Int) -
        (syncPair i (2 * k) (m >>> (2 * k)) (l >>> (2 * k)) st).adjFree =
      16384 * (st.live.free : Int) - st.adjFree := by
  have hblk : ∀ b, b < 256 → _ := fun b hb => @syncPair_blk i k b m l st hi hk hb hcur
  have hself := hblk (32 * i + k) (by omega)
  rw [if_pos rfl] at hself
  have hchange := free_change (a := st.live)
    (b := (syncPair i (2 * k) (m >>> (2 * k)) (l >>> (2 * k)) st).live) (k := 32 * i + k) (by omega)
    (fun n hn hne => by rw [hblk n hn, if_neg hne])
  rw [hself, hcur] at hchange
  have h3 : ∀ x : BitVec 64, x >>> (2 * k) &&& 3 = (BitPair.pair x k).setWidth 64 :=
    fun x => BitPair.shiftRight_and_three x k
  have hm := setWidth_eq_iff (BitPair.pair m k)
  have hl := setWidth_eq_iff (BitPair.pair l k)
  have hadj : (syncPair i (2 * k) (m >>> (2 * k)) (l >>> (2 * k)) st).adjFree = st.adjFree +
      16384 * ((if mergeBlk (BitPair.pair m k) (BitPair.pair l k) = 0 then 1 else 0 : Nat) : Int) -
      16384 * ((if BitPair.pair l k = 0 then 1 else 0 : Nat) : Int) := by
    simp only [syncPair, h3, hm.1, hm.2.2, hl.1, hl.2.1, hl.2.2, apply_ite SyncState.adjFree,
      freemapBlockSize]
    have hall : ∀ p : BitVec 2, p = 0 ∨ p = 1 ∨ p = 2 ∨ p = 3 := by decide
    rcases hall (BitPair.pair m k) with hpm | hpm | hpm | hpm <;>
      rcases hall (BitPair.pair l k) with hpl | hpl | hpl | hpl <;>
      simp [hpm, hpl, mergeBlk]
  rw [hadj]
  omega

theorem syncElement_free {i fuel k : Nat} {m l : BitVec 64} {st : SyncState} (hi : i < 8)
    (hk : k + fuel = 32)
    (hcur : ∀ j, k ≤ j → j < 32 → st.live.blk (32 * i + j) = BitPair.pair l j) :
    16384 * ((syncElement i fuel (2 * k) (m >>> (2 * k)) (l >>> (2 * k)) st).live.free : Int) -
        (syncElement i fuel (2 * k) (m >>> (2 * k)) (l >>> (2 * k)) st).adjFree =
      16384 * (st.live.free : Int) - st.adjFree := by
  induction fuel generalizing k st with
  | zero => rfl
  | succ fuel ih =>
    have hfirst := hcur k le_rfl (by omega)
    unfold syncElement
    rw [← BitVec.shiftRight_add, ← BitVec.shiftRight_add, show 2 * k + 2 = 2 * (k + 1) by ring,
      ih (by omega)]
    · exact syncPair_free hi (by omega) hfirst
    · intro j h1 h2
      rw [syncPair_blk hi (by omega) (by omega) hfirst, if_neg (by omega)]
      exact hcur j (by omega) h2

theorem syncElements_free {bmap : BmapData} {fuel i : Nat} {st : SyncState} (hi : i + fuel = 8) :
    16384 * ((syncElements bmap fuel i st).live.free : Int) - (syncElements bmap fuel i st).adjFree =
      16384 * (st.live.free : Int) - st.adjFree := by
  induction fuel generalizing i st with
  | zero => rfl
  | succ fuel ih =>
    unfold syncElements
    split
    next => exact ih (by omega)
    next =>
      have hword : ∀ j, 0 ≤ j → j < 32 →
          st.live.blk (32 * i + j) = BitPair.pair (st.live.q i) j := by
        intro j _ hj
        unfold BmapData.blk
        rw [show (32 * i + j) / 32 = i by omega, show (32 * i + j) % 32 = j by omega]
      have helem := @syncElement_free i 32 0 (bmap.q i) (st.live.q i) st (by omega) (by omega) hword
      simp only [Nat.mul_zero, BitVec.ushiftRight_zero] at helem
      rw [ih (by omega), helem]

/-- `h2_bulkfree_sync_adjust` credits `adj_free` with what it adds to the free blocks. -/
theorem syncAdjust_free (live bmap : BmapData) :
    16384 * ((syncAdjust live bmap).live.free : Int) =
      16384 * (live.free : Int) + (syncAdjust live bmap).adjFree := by
  have hwords := @syncElements_free bmap bmapElements 0 ⟨live, 0⟩ (Nat.zero_add 8)
  have hlin : (syncAdjust live bmap).live.free =
      (syncElements bmap bmapElements 0 ⟨live, 0⟩).live.free := by
    unfold BmapData.free syncAdjust
    simp only [syncLinear_blk]
  have hadj : (syncAdjust live bmap).adjFree =
      (syncElements bmap bmapElements 0 ⟨live, 0⟩).adjFree := rfl
  simp only [sub_zero] at hwords
  rw [hlin, hadj]
  omega

theorem syncSegment_free {hmp : Dev} {cb : Cbinfo} {ub : BitVec 32} {key n : Nat} {leaf : Leaf}
    (hn : n < 256) :
    16384 * ((syncSegment hmp cb ub key leaf n).free : Int) =
      16384 * (leaf.free : Int) + syncSegmentAdj hmp cb ub key leaf n := by
  unfold syncSegment syncSegmentAdj
  split
  next => rw [add_zero]
  next =>
    have hseg := syncAdjust_free (leaf.seg n) (cb.segFor key n)
    have hset := free_setSeg leaf (syncAdjust (leaf.seg n) (cb.segFor key n)).live hn
    rw [free_setBigmask]
    omega

theorem syncLeaf_free {hmp : Dev} {cb : Cbinfo} {ub : BitVec 32} {key n : Nat} {leaf : Leaf}
    (hn : n ≤ 256) :
    16384 * ((syncLeaf hmp cb ub key leaf n).free : Int) =
      16384 * (leaf.free : Int) + syncLeafAdj hmp cb ub key leaf n := by
  induction n with
  | zero =>
    rw [syncLeafAdj, add_zero]
    rfl
  | succ n ih =>
    rw [syncLeaf, syncLeafAdj, syncSegment_free (by omega), ih (by omega), add_assoc]

theorem freemapSync_leaf_free (hmp : Dev) (sbase sstop : Nat) (cb : Cbinfo) (ub : BitVec 32)
    (fm : Freemap) (idx : Nat) :
    16384 * (((freemapSync hmp sbase sstop cb ub fm).leaf hmp idx).free : Int) =
      16384 * ((fm.leaf hmp idx).free : Int) +
        freemapSyncLeafAdj hmp sbase sstop cb ub fm idx := by
  unfold Freemap.leaf freemapSync freemapSyncLeafAdj
  by_cases hin : sbase ≤ idx * freemapLevel1Size ∧ idx * freemapLevel1Size < sstop
  · rw [if_pos hin, if_pos hin]
    cases fm idx with
    | none => rw [Option.map_none, add_zero]
    | some leaf =>
      rw [Option.map_some, Option.getD_some, Option.getD_some]
      exact syncLeaf_free le_rfl
  · rw [if_neg hin, if_neg hin, add_zero]

/-- The merge of a window credits `adj_free` with what it adds to the free blocks. -/
theorem freemapSync_free (hmp : Dev) (sbase sstop : Nat) (cb : Cbinfo) (ub : BitVec 32)
    (fm : Freemap) :
    16384 * ((freemapSync hmp sbase sstop cb ub fm).free hmp : Int) =
      16384 * (fm.free hmp : Int) + freemapSyncAdj hmp sbase sstop cb ub fm := by
  unfold Freemap.free freemapSyncAdj
  push_cast
  rw [Finset.mul_sum, Finset.mul_sum, ← Finset.sum_add_distrib]
  exact Finset.sum_congr rfl fun idx _ => freemapSync_leaf_free hmp sbase sstop cb ub fm idx

theorem free_update (hmp : Dev) (fm : Freemap) {idx : Nat} (leaf : Leaf) (hidx : idx < freemapLeaves) :
    Freemap.free hmp (Function.update fm idx (some leaf)) + (fm.leaf hmp idx).free =
      fm.free hmp + leaf.free := by
  have hm := Finset.mem_range.mpr hidx
  have hrest : ∑ j ∈ (Finset.range freemapLeaves).erase idx,
        (Freemap.leaf hmp (Function.update fm idx (some leaf)) j).free =
      ∑ j ∈ (Finset.range freemapLeaves).erase idx, (fm.leaf hmp j).free := by
    refine Finset.sum_congr rfl ?_
    intro j hj
    rw [leaf_update, if_neg (Finset.ne_of_mem_erase hj)]
  have hold := Finset.add_sum_erase _ (fun j => (fm.leaf hmp j).free) hm
  have hnew := Finset.add_sum_erase _
    (fun j => (Freemap.leaf hmp (Function.update fm idx (some leaf)) j).free) hm
  simp only [leaf_update, if_pos] at hnew hrest
  unfold Freemap.free
  simp only [leaf_update]
  omega

/-- What `voldata.allocator_free` has beyond the blocks in state 00. -/
def FreeState.surplus (hmp : Dev) (s : FreeState) : BitVec 64 :=
  s.allocatorFree - BitVec.ofNat 64 (freemapBlockSize * s.fm.free hmp)

theorem surplus_update {hmp : Dev} {s : FreeState} {idx bg : Nat} {leaf : Leaf}
    (hidx : idx < freemapLeaves)
    (h : 16384 * leaf.free + bg = 16384 * (s.fm.leaf hmp idx).free) :
    FreeState.surplus hmp
        ⟨Function.update s.fm idx (some leaf), s.allocatorFree - BitVec.ofNat 64 bg⟩ =
      s.surplus hmp := by
  have hup := free_update hmp s.fm leaf hidx
  have hsum : freemapBlockSize * s.fm.free hmp =
      bg + freemapBlockSize * Freemap.free hmp (Function.update s.fm idx (some leaf)) := by
    unfold freemapBlockSize
    omega
  unfold FreeState.surplus
  rw [hsum, BitVec.ofNat_add, sub_sub]

theorem freeAlloc_surplus {hmp : Dev} {s s' : FreeState} {req : AllocRequest}
    (hr : req.radix ≤ 16) (hidx : req.bnext / freemapLevel1Size < freemapLeaves)
    (h : freeAlloc hmp s req = some s') : s'.surplus hmp = s.surplus hmp := by
  unfold freeAlloc at h
  simp only at h
  split at h
  next => cases h
  next leaf hal =>
    have hsame : leaf.free = (s.fm.leaf hmp (req.bnext / freemapLevel1Size)).free := by
      unfold Leaf.free Leaf.seg
      rw [tryAlloc_enospc hal]
    have hzero := surplus_update (s := s) hidx (show 16384 * leaf.free + 0 = _ by rw [hsame, Nat.add_zero])
    cases Option.some.inj h
    rw [← hzero]
    unfold FreeState.surplus
    rw [BitVec.sub_zero]
  next leaf dataOff bg hal =>
    cases Option.some.inj h
    exact surplus_update hidx (tryAlloc_free hr hal)

theorem freeRecover_surplus {hmp : Dev} {s s' : FreeState} {type dataOff radix : Nat}
    (hidx : dataOff / freemapLevel1Size < freemapLeaves)
    (h : freeRecover hmp s type dataOff radix = some s') : s'.surplus hmp = s.surplus hmp := by
  unfold freeRecover at h
  simp only at h
  split at h
  next => cases h
  next leaf bg had =>
    split at h
    next =>
      cases Option.some.inj h
      rfl
    next =>
      cases Option.some.inj h
      exact surplus_update hidx (freemapAdjust_free had)

theorem freeSync_surplus (hmp : Dev) (s : FreeState) (sbase sstop : Nat) (cb : Cbinfo)
    (ub : BitVec 32) : (freeSync hmp s sbase sstop cb ub).surplus hmp = s.surplus hmp := by
  have hsync := congrArg (BitVec.ofInt 64) (freemapSync_free hmp sbase sstop cb ub s.fm)
  rw [BitVec.ofInt_add] at hsync
  unfold FreeState.surplus freeSync freemapBlockSize
  rw [← BitVec.ofInt_natCast, ← BitVec.ofInt_natCast]
  push_cast
  rw [hsync, add_sub_add_right_eq_sub]

theorem freePass_surplus (hmp : Dev) (ws : List (Nat × Nat × Cbinfo × BitVec 32)) (s : FreeState) :
    (freePass hmp ws s).surplus hmp = s.surplus hmp := by
  induction ws generalizing s with
  | nil => rfl
  | cons w ws ih =>
    obtain ⟨sbase, sstop, cb, ub⟩ := w
    rw [freePass, ih, freeSync_surplus]

theorem leafIndex_lt {off : Nat} (h : off < 2 ^ 64) : off / freemapLevel1Size < freemapLeaves := by
  unfold freemapLevel1Size freemapLeaves
  omega

theorem freeStep_surplus {hmp : Dev} {s s' : FreeState} {a : FreeAction}
    (h : freeStep hmp s a = some s') : s'.surplus hmp = s.surplus hmp := by
  cases a with
  | alloc req =>
    obtain ⟨hreq, h⟩ := Option.ite_none_right_eq_some.mp h
    exact freeAlloc_surplus hreq.1 (leafIndex_lt hreq.2) h
  | recover type dataOff radix =>
    obtain ⟨hoff, h⟩ := Option.ite_none_right_eq_some.mp h
    exact freeRecover_surplus (leafIndex_lt hoff) h
  | pass windows =>
    cases Option.some.inj h
    exact freePass_surplus hmp windows s

/-- No run of allocations, recovered blocks and bulkfree passes changes the difference between
`voldata.allocator_free` and the space in state 00. -/
theorem free_space_conserved {hmp : Dev} {init s : FreeState}
    (h : Run.Reach (freeStep hmp) (fun _ _ => True) init s) :
    s.allocatorFree - BitVec.ofNat 64 (freemapBlockSize * s.fm.free hmp) =
      init.allocatorFree - BitVec.ofNat 64 (freemapBlockSize * init.fm.free hmp) :=
  h.invariant (I := fun s => s.surplus hmp = init.surplus hmp) rfl
    (fun hi _ hs => (freeStep_surplus hs).trans hi)

/-- The 32MB volume after newfs: two free segments and no freemap leaf. -/
def smallFree : FreeState := ⟨fun _ => none, 8388608⟩

/-- An inode is allocated in segment 6, a data block of segment 7 is recovered, and a pass over no
window ends the run. -/
def smallRun : List FreeAction :=
  [.alloc inodeRequest, .recover 3 29376512 14, .pass []]

theorem smallRun_allocatorFree :
    (Run.exec (freeStep smallDev) smallFree smallRun).map (fun s => s.allocatorFree) =
      some 8355840 := by
  decide

theorem free_space_conserved_small :
    ∃ s, Run.Reach (freeStep smallDev) (fun _ _ => True) smallFree s ∧ s.allocatorFree = 8355840 ∧
      s.allocatorFree - BitVec.ofNat 64 (freemapBlockSize * s.fm.free smallDev) =
        smallFree.allocatorFree - BitVec.ofNat 64 (freemapBlockSize * smallFree.fm.free smallDev) := by
  obtain ⟨s, hs, hfree⟩ := Option.map_eq_some_iff.mp smallRun_allocatorFree
  have hr : Run.Reach (freeStep smallDev) (fun _ _ => True) smallFree s := Run.Reach.start.exec hs
  exact ⟨s, hr, hfree, free_space_conserved hr⟩

end Hammer2
