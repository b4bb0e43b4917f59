import Hammer2.FreemapLeaf

namespace Hammer2

/-- State of the marking loop: the segment, `modified` and `bgsize`. -/
structure AdjustState where
  bmap : BmapData
  modified : Bool
  bgsize : Nat

/-- One pair of the marking loop. The first change restarts at `again`, which resets the linear
iterator. -/
def adjustPair (cls i : Nat) (mask : BitVec 64) (st : AdjustState) : AdjustState :=
  if st.bmap.q i &&& mask ≠ mask then
    let bmap := if st.modified then st.bmap else { st.bmap with linear := 0 }
    let free := bmap.q i &&& mask = 0
    { bmap := { bmap.setq i (bmap.q i ||| mask) with
        avail := if free then subU32 bmap.avail freemapBlockSize else bmap.avail
        cls := if bmap.cls = 0 then cls else bmap.cls }
      modified := true
      bgsize := if free then st.bgsize + freemapBlockSize else st.bgsize }
  else st

def adjustLoop (cls i : Nat) : Nat → BitVec 64 → AdjustState → Except FreemapError AdjustState
  | 0, _, st => .ok st
  | count + 1, mask, st => do
    kkassert (mask ≠ 0)
    adjustLoop cls i count (mask <<< 2) (adjustPair cls i mask st)

/-- `hammer2_freemap_adjust(DORECOVER)` on the leaf that covers `data_off`. -/
def freemapAdjust (hmp : Dev) (leaf : Leaf) (type dataOff radix : Nat) :
    Except FreemapError (Leaf × Nat) := do
  kkassert (radix ≠ 0)
  kkassert (radix ≤ 16)
  if dataOff < hmp.allocatorBeg then return (leaf, 0)
  kkassert (zoneSeg ≤ dataOff % zoneSize)
  let start := (dataOff / 2 ^ freemapBlockRadix &&& 15) * 2
  let n := dataOff / segSize % freemapCount
  let i := dataOff / (segSize / bmapElements) % bmapElements
  let st ← adjustLoop (type * 256 + pbufRadix) i (blockCount radix) (3#64 <<< start)
    ⟨leaf.seg n, false, 0⟩
  return ((leaf.setSeg n st.bmap).setBigmask
    (if st.modified then BitVec.allOnes 32 else leaf.bigmask), st.bgsize)

/-- What the marking loop does to a run of `count` pairs from pair `k` of word `i`. -/
structure MarkEffect (bmap : BmapData) (i k count : Nat) (st : AdjustState) : Prop where
  marked : ∀ b, b < 256 → st.bmap.blk b =
    if 32 * i + k ≤ b ∧ b < 32 * i + k + count then 3 else bmap.blk b
  untouched : st.modified = false → st.bmap = bmap
  reset : st.modified = true → st.bmap.linear = 0

theorem blk_congr {a b : BmapData} (h : a.bitmapq = b.bitmapq) (n : Nat) : a.blk n = b.blk n := by
  unfold BmapData.blk BmapData.q
  rw [h]

theorem adjustPair_effect {bmap : BmapData} (cls : Nat) {i k c : Nat} {st : AdjustState} (hi : i < 8)
    (hk : k + c < 32) (h : MarkEffect bmap i k c st) :
    MarkEffect bmap i k (c + 1) (adjustPair cls i (BitPair.run 64 (k + c) 1) st) := by
  unfold adjustPair
  split
  next hne =>
    refine ⟨?_, by simp, ?_⟩
    · intro b hb
      have hq : (if st.modified then st.bmap else { st.bmap with linear := 0 }).bitmapq =
          st.bmap.bitmapq := by split <;> rfl
      have hold := h.marked b hb
      rw [← blk_congr hq] at hold
      have hset := setq_or_run_blk
        (if st.modified then st.bmap else { st.bmap with linear := 0 })
        (i := i) (k := k + c) (c := 1) (b := b) hi (by omega) (by omega) hb
      rw [hold] at hset
      refine (blk_congr rfl b).trans (hset.trans ?_)
      by_cases h1 : 32 * i + (k + c) ≤ b ∧ b < 32 * i + (k + c) + 1
      · rw [if_pos h1, if_pos (by omega)]
      · rw [if_neg h1]
        by_cases h2 : 32 * i + k ≤ b ∧ b < 32 * i + k + c
        · rw [if_pos h2, if_pos (by omega)]
        · rw [if_neg h2, if_neg (by omega)]
    · intro _
      by_cases hm : st.modified = true
      · simpa [hm] using h.reset hm
      · simp [hm]
  next heq =>
    have h3 : st.bmap.q i &&& BitPair.run 64 (k + c) 1 = BitPair.run 64 (k + c) 1 := by
      simpa using heq
    rw [BitPair.and_run_one_eq_iff (by omega) (by omega)] at h3
    refine ⟨?_, h.untouched, h.reset⟩
    intro b hb
    rw [h.marked b hb]
    by_cases hlast : b = 32 * i + (k + c)
    · have hb3 : st.bmap.blk b = 3 := by
        unfold BmapData.blk
        rw [show b / 32 = i by omega, show b % 32 = k + c by omega]
        exact h3
      rw [h.marked b hb, if_neg (by omega)] at hb3
      rw [if_neg (by omega), if_pos (by omega), hb3]
    · have hiff : (32 * i + k ≤ b ∧ b < 32 * i + k + c) ↔
          (32 * i + k ≤ b ∧ b < 32 * i + k + (c + 1)) := by omega
      simp only [hiff]

theorem adjustLoop_effect {bmap : BmapData} (cls count : Nat) {i k c : Nat} {st : AdjustState}
    (hi : i < 8) (hk : k + c + count ≤ 32) (h : MarkEffect bmap i k c st) :
    ∃ st', adjustLoop cls i count (BitPair.run 64 (k + c) 1) st = .ok st' ∧
      MarkEffect bmap i k (c + count) st' := by
  induction count generalizing c st with
  | zero => exact ⟨st, rfl, h⟩
  | succ count ih =>
    have hmask : BitPair.run 64 (k + c) 1 ≠ 0 := BitPair.run_one_ne_zero (by omega) (by omega)
    have hstep := adjustPair_effect cls hi (by omega) h
    obtain ⟨st', hloop, heff⟩ := ih (by omega) hstep
    refine ⟨st', ?_, by rwa [show c + (count + 1) = c + 1 + count by omega]⟩
    unfold adjustLoop
    rw [except_bind_eq_ok]
    refine ⟨(), by simpa using hmask, ?_⟩
    have hshift := run_shiftLeft (k + c) 1
    simp only [Nat.mul_one] at hshift
    rw [hshift, show k + c + 1 = k + (c + 1) by omega]
    exact hloop

theorem and_fifteen (n : Nat) : n &&& 15 = n % 16 := by
  simpa using Nat.and_two_pow_sub_one_eq_mod n 4

/-- Past its assertions `hammer2_freemap_adjust(DORECOVER)` marks a run that starts at block
`(data_off >> 14) & 15` of the bitmap word. -/
theorem freemapAdjust_marks {hmp : Dev} (leaf : Leaf) (type : Nat) {dataOff radix : Nat}
    (h0 : radix ≠ 0) (hradix : radix ≤ 16) (hbeg : hmp.allocatorBeg ≤ dataOff)
    (hzone : zoneSeg ≤ dataOff % zoneSize) :
    ∃ st : AdjustState,
      MarkEffect (leaf.seg (dataOff / 4194304 % 256)) (dataOff / 524288 % 8)
        (dataOff / 16384 % 16) (blockCount radix) st ∧
      freemapAdjust hmp leaf type dataOff radix =
        .ok ((leaf.setSeg (dataOff / 4194304 % 256) st.bmap).setBigmask
          (if st.modified then BitVec.allOnes 32 else leaf.bigmask), st.bgsize) := by
  have hc := blockCount_cases hradix
  have hinit : MarkEffect (leaf.seg (dataOff / 4194304 % 256)) (dataOff / 524288 % 8)
      (dataOff / 16384 % 16) 0 ⟨leaf.seg (dataOff / 4194304 % 256), false, 0⟩ := by
    refine ⟨?_, fun _ => rfl, by simp⟩
    intro b _
    rw [if_neg (by omega)]
  obtain ⟨st, hloop, heff⟩ := adjustLoop_effect (type * 256 + pbufRadix) (blockCount radix)
    (by omega) (by omega) hinit
  refine ⟨st, by simpa using heff, ?_⟩
  unfold freemapAdjust
  simp only [except_bind_eq_ok, kkassert_eq_ok]
  refine ⟨(), h0, (), hradix, ?_⟩
  rw [if_neg (by omega)]
  simp only [except_bind_eq_ok, kkassert_eq_ok]
  refine ⟨(), hzone, st, ?_, rfl⟩
  rw [Nat.mul_comm (_ &&& 15) 2, BitPair.three_shiftLeft_eq_run (by omega), and_fifteen]
  exact hloop

/-- The specification of `hammer2_freemap_adjust(DORECOVER)`. -/
theorem freemapAdjust_ok {hmp : Dev} {leaf leaf' : Leaf} {type dataOff radix bg : Nat}
    (h : freemapAdjust hmp leaf type dataOff radix = .ok (leaf', bg)) :
    leaf' = leaf ∨ ∃ st : AdjustState,
      MarkEffect (leaf.seg (dataOff / 4194304 % 256)) (dataOff / 524288 % 8)
        (dataOff / 16384 % 16) (blockCount radix) st ∧
      leaf' = (leaf.setSeg (dataOff / 4194304 % 256) st.bmap).setBigmask
        (if st.modified then BitVec.allOnes 32 else leaf.bigmask) := by
  have hasserts := h
  unfold freemapAdjust at hasserts
  simp only [except_bind_eq_ok, kkassert_eq_ok] at hasserts
  obtain ⟨_, h0, _, hradix, hrest⟩ := hasserts
  split at hrest
  next =>
    simp only [pure, Except.pure, Except.ok.injEq, Prod.mk.injEq] at hrest
    exact Or.inl hrest.1.symm
  next hbeg =>
    obtain ⟨_, hzone, _⟩ := except_bind_eq_ok.mp hrest
    obtain ⟨st, heff, heq⟩ :=
      freemapAdjust_marks leaf type h0 hradix (Nat.le_of_not_lt hbeg) (kkassert_eq_ok.mp hzone)
    rw [h] at heq
    exact Or.inr ⟨st, heff, (Prod.mk.inj (Except.ok.inj heq)).1⟩

end Hammer2
