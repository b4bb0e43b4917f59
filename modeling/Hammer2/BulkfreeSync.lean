import Hammer2.BulkfreeScan
import Mathlib.Data.LawfulXor.Basic

namespace Hammer2

/-- The live segment during a merge and the bytes credited to `adj_free`. -/
structure SyncState where
  live : BmapData
  adjFree : Int

/-- `avail` after a 10 -> 00 transition, clamped to the segment. -/
def availFreed (avail : Nat) : Nat := min ((avail + freemapBlockSize) % 2 ^ 32) segSize

/-- `avail` after the 00 -> 11 transition that is not supposed to happen. -/
def availLost (avail : Nat) : Nat :=
  if 2 ^ 31 ≤ subU32 avail freemapBlockSize then 0 else subU32 avail freemapBlockSize

/-- One 2-bit entry of the merge; `m` and `l` are the in-memory and live masks shifted down. -/
def syncPair (i scount : Nat) (m l : BitVec 64) (st : SyncState) : SyncState :=
  if m &&& 3 = 0 then
    if l &&& 3 = 2 then
      { live := { st.live.setq i (st.live.q i &&& ~~~(2#64 <<< scount)) with
          avail := availFreed st.live.avail }
        adjFree := st.adjFree + freemapBlockSize }
    else if l &&& 3 = 3 then
      { st with live := st.live.setq i (st.live.q i &&& ~~~(1#64 <<< scount)) }
    else st
  else if m &&& 3 = 3 then
    if l &&& 3 = 0 then
      { live := { st.live.setq i (st.live.q i ||| (3#64 <<< scount)) with
          avail := availLost st.live.avail }
        adjFree := st.adjFree - freemapBlockSize }
    else { st with live := st.live.setq i (st.live.q i ||| (3#64 <<< scount)) }
  else st

def syncElement (i : Nat) : Nat → Nat → BitVec 64 → BitVec 64 → SyncState → SyncState
  | 0, _, _, _, st => st
  | fuel + 1, scount, m, l, st =>
    syncElement i fuel (scount + 2) (m >>> 2) (l >>> 2) (syncPair i scount m l st)

/-- The merge of the bitmap words `i`, …, `i + fuel - 1`. -/
def syncElements (bmap : BmapData) : Nat → Nat → SyncState → SyncState
  | 0, _, st => st
  | fuel + 1, i, st =>
    if st.live.q i = bmap.q i then syncElements bmap fuel (i + 1) st
    else syncElements bmap fuel (i + 1) (syncElement i 32 0 (bmap.q i) (st.live.q i) st)

/-- The highest of the words below `n` that is not zero. -/
def topElement (bmap : BmapData) : Nat → Option Nat
  | 0 => none
  | n + 1 => if bmap.q n ≠ 0 then some n else topElement bmap n

/-- The last part of `h2_bulkfree_sync_adjust`, which sets the linear iterator. -/
def syncLinear (live bmap : BmapData) : BmapData :=
  match topElement live bmapElements with
  | none => { live with avail := segSize, cls := 0, linear := 0 }
  | some bindex =>
    if bindex < 7 then
      if live.linear < bmap.linear ∧ (live.linear ^^^ bmap.linear) / freemapBlockSize = 0 then
        { live with linear := bmap.linear }
      else
        { live with
          linear := (bmap.linear + (freemapBlockSize - 1)) / freemapBlockSize * freemapBlockSize }
    else { live with linear := segSize }

/-- `h2_bulkfree_sync_adjust` -/
def syncAdjust (live bmap : BmapData) : SyncState :=
  let st := syncElements bmap bmapElements 0 ⟨live, 0⟩
  { st with live := syncLinear st.live bmap }

/-- `1LU << iter` where `unsigned long` has 32 bits; `ub` stands for the undefined result of a
shift by the full width. -/
def shiftLU (ub : BitVec 32) (iter : Nat) : BitVec 32 := if iter < 32 then 1#32 <<< iter else ub

def bigmaskFree (mask : BitVec 64) (iter : Nat) : Nat → BitVec 64 → Nat → Bool
  | 0, _, _ => false
  | fuel + 1, scan, j =>
    if j < bmapBitsPerElement then
      scan &&& mask = 0 || bigmaskFree mask iter fuel (scan <<< iter) (j + iter)
    else false

def bigmaskElement (ub : BitVec 32) (mask : BitVec 64) :
    Nat → Nat → BitVec 32 → BitVec 32 → BitVec 32
  | 0, _, _, bigmask => bigmask
  | fuel + 1, iter, radixMask, bigmask =>
    if iter ≤ bmapBitsPerElement then
      let scan := if iter = bmapBitsPerElement then BitVec.allOnes 64
        else (shiftLU ub iter - 1).setWidth 64
      let bigmask' := if bigmaskFree mask iter 32 scan 0 then bigmask ||| radixMask else bigmask
      bigmaskElement ub mask fuel (iter * 2) (radixMask <<< 1 ||| 1) bigmask'
    else bigmask

/-- `bigmask_get` -/
def bigmaskGet (ub : BitVec 32) (bmap : BmapData) : BitVec 32 :=
  let radixMask := 1#32 <<< freemapBlockRadix
  (List.range bmapElements).foldl
    (fun bigmask i => bigmaskElement ub (bmap.q i) 6 2 (radixMask ||| (radixMask - 1)) bigmask) 0

def BigmaskGood (ub : BitVec 32) (bmap : BmapData) (live : BitVec 32) : Prop :=
  live &&& bigmaskGet ub bmap = bigmaskGet ub bmap

instance (ub : BitVec 32) (bmap : BmapData) (live : BitVec 32) :
    Decidable (BigmaskGood ub bmap live) :=
  inferInstanceAs (Decidable (_ = _))

/-- The in-memory segment that a merge of segment `n` of the leaf at `key` reads. -/
def Cbinfo.segFor (cb : Cbinfo) (key n : Nat) : BmapData :=
  cb.bmap ((key + n * segSize - cb.sbase) / segSize)

/-- The cases in which the `h2_bulkfree_sync` loop leaves segment `n` of the leaf at `key` alone. -/
def SyncSkips (hmp : Dev) (cb : Cbinfo) (ub : BitVec 32) (key : Nat) (leaf : Leaf) (n : Nat) : Prop :=
  (key + n * segSize < hmp.allocatorBeg ∨ hmp.totalSize ≤ key + n * segSize) ∨
    (∀ i, (leaf.seg n).bitmapq i = (cb.segFor key n).bitmapq i) ∧
      (cb.segFor key n).linear ≤ (leaf.seg n).linear ∧
      BigmaskGood ub (cb.segFor key n) leaf.bigmask

instance (hmp : Dev) (cb : Cbinfo) (ub : BitVec 32) (key : Nat) (leaf : Leaf) (n : Nat) :
    Decidable (SyncSkips hmp cb ub key leaf n) :=
  inferInstanceAs (Decidable ((_ ∨ _) ∨ _ ∧ _ ∧ _))

/-- The body of the `h2_bulkfree_sync` loop for segment `n` of the leaf at `key`. -/
def syncSegment (hmp : Dev) (cb : Cbinfo) (ub : BitVec 32) (key : Nat) (leaf : Leaf) (n : Nat) :
    Leaf :=
  if SyncSkips hmp cb ub key leaf n then leaf
  else (leaf.setSeg n (syncAdjust (leaf.seg n) (cb.segFor key n)).live).setBigmask (BitVec.allOnes 32)

/-- `h2_bulkfree_sync` over the first `n` segments of the leaf at `key`. -/
def syncLeaf (hmp : Dev) (cb : Cbinfo) (ub : BitVec 32) (key : Nat) (leaf : Leaf) : Nat → Leaf
  | 0 => leaf
  | n + 1 => syncSegment hmp cb ub key (syncLeaf hmp cb ub key leaf n) n

/-- The transition of one block: in-memory state `m`, live state `l`. -/
def mergeBlk (m l : BitVec 2) : BitVec 2 :=
  if m = 0 then if l = 2 then 0 else if l = 3 then 2 else l
  else if m = 3 then 3
  else l

theorem mergeBlk_self (l : BitVec 2) : mergeBlk l l = l := by
  revert l
  decide

theorem blk_with_avail (bmap : BmapData) (avail b : Nat) :
    BmapData.blk { bmap with avail := avail } b = bmap.blk b := rfl

theorem syncPair_linear (i scount : Nat) (m l : BitVec 64) (st : SyncState) :
    (syncPair i scount m l st).live.linear = st.live.linear := by
  simp only [syncPair, apply_ite SyncState.live, apply_ite BmapData.linear, setq_linear, ite_self]

theorem setWidth_eq_iff (p : BitVec 2) :
    (p.setWidth 64 = 0 ↔ p = 0) ∧ (p.setWidth 64 = 2 ↔ p = 2) ∧ (p.setWidth 64 = 3 ↔ p = 3) := by
  revert p
  decide

theorem setq_and_not_bit_blk {bmap : BmapData} {i k bit b : Nat} (hi : i < 8) (hk : k < 32)
    (hbit : bit < 2) (hb : b < 256) :
    (bmap.setq i (bmap.q i &&& ~~~(1#64 <<< (2 * k + bit)))).blk b =
      if b = 32 * i + k then bmap.blk b &&& ~~~(1#2 <<< bit) else bmap.blk b := by
  rw [setq_blk hi hb]
  by_cases hw : b / 32 = i
  · rw [if_pos hw, BitPair.pair_and_not_bit hbit (by omega)]
    have hiff : b % 32 = k ↔ b = 32 * i + k := by omega
    simp only [hiff, BmapData.blk, hw]
  · rw [if_neg hw, if_neg (by omega)]

/-- One step of the merge applies `mergeBlk` to its block. -/
theorem syncPair_blk {i k b : Nat} {m l : BitVec 64} {st : SyncState} (hi : i < 8) (hk : k < 32)
    (hb : b < 256) (hcur : st.live.blk (32 * i + k) = BitPair.pair l k) :
    (syncPair i (2 * k) (m >>> (2 * k)) (l >>> (2 * k)) st).live.blk b =
      if b = 32 * i + k then mergeBlk (BitPair.pair m k) (BitPair.pair l k)
      else st.live.blk b := by
  have h3 : ∀ x : BitVec 64, x >>> (2 * k) &&& 3 = (BitPair.pair x k).setWidth 64 :=
    fun x => BitPair.shiftRight_and_three x k
  have hm := setWidth_eq_iff (BitPair.pair m k)
  have hl := setWidth_eq_iff (BitPair.pair l k)
  have hrun := setq_or_run_blk st.live (k := k) (c := 1) hi (by omega) (by omega) hb
  have hiff : (32 * i + k ≤ b ∧ b < 32 * i + k + 1) ↔ b = 32 * i + k := by omega
  simp only [hiff, ← BitPair.three_shiftLeft_eq_run (show 2 < 64 by omega)] at hrun
  have hkeep : st.live.blk b = if b = 32 * i + k then BitPair.pair l k else st.live.blk b := by
    by_cases hbk : b = 32 * i + k
    · rw [if_pos hbk, hbk, hcur]
    · rw [if_neg hbk]
  have hclear : ∀ bit, bit < 2 →
      (st.live.setq i (st.live.q i &&& ~~~(1#64 <<< (2 * k + bit)))).blk b =
        if b = 32 * i + k then BitPair.pair l k &&& ~~~(1#2 <<< bit) else st.live.blk b := by
    intro bit hbit
    rw [setq_and_not_bit_blk hi hk hbit hb]
    by_cases hbk : b = 32 * i + k
    · rw [if_pos hbk, if_pos hbk, hbk, hcur]
    · rw [if_neg hbk, if_neg hbk]
  unfold syncPair mergeBlk
  simp only [h3, hm.1, hm.2.2, hl.1, hl.2.1, hl.2.2, BitPair.two_shiftLeft]
  split
  next hm0 =>
    split
    next hl2 =>
      have hval : (2 : BitVec 2) &&& ~~~(1#2 <<< 1) = 0 := by decide
      have h := hclear 1 (by omega)
      rw [hl2, hval] at h
      rw [blk_with_avail]
      exact h
    next hl2 =>
      split
      next hl3 =>
        have hval : (3 : BitVec 2) &&& ~~~(1#2 <<< 0) = 2 := by decide
        have h := hclear 0 (by omega)
        rw [hl3, hval] at h
        exact h
      next hl3 => exact hkeep
  next hm0 =>
    split
    next hm3 =>
      split
      next =>
        rw [blk_with_avail]
        exact hrun
      next => exact hrun
    next hm3 => exact hkeep

theorem syncElement_linear (i fuel scount : Nat) (m l : BitVec 64) (st : SyncState) :
    (syncElement i fuel scount m l st).live.linear = st.live.linear := by
  induction fuel generalizing scount m l st with
  | zero => rfl
  | succ fuel ih =>
    unfold syncElement
    rw [ih, syncPair_linear]

theorem syncElements_linear (bmap : BmapData) (fuel i : Nat) (st : SyncState) :
    (syncElements bmap fuel i st).live.linear = st.live.linear := by
  induction fuel generalizing i st with
  | zero => rfl
  | succ fuel ih =>
    unfold syncElements
    split
    next => rw [ih]
    next => rw [ih, syncElement_linear]

/-- The inner loop merges the pairs `k`, …, 31 of word `i`. -/
theorem syncElement_blk {i fuel k b : Nat} {m l : BitVec 64} {st : SyncState} (hi : i < 8)
    (hk : k + fuel = 32) (hb : b < 256)
    (hcur : ∀ j, k ≤ j → j < 32 → st.live.blk (32 * i + j) = BitPair.pair l j) :
    (syncElement i fuel (2 * k) (m >>> (2 * k)) (l >>> (2 * k)) st).live.blk b =
      if 32 * i + k ≤ b ∧ b < 32 * i + 32 then
        mergeBlk (BitPair.pair m (b % 32)) (BitPair.pair l (b % 32))
      else st.live.blk b := by
  induction fuel generalizing k st with
  | zero =>
    rw [if_neg (by omega)]
    rfl
  | succ fuel ih =>
    have hpair : ∀ b, b < 256 → (syncPair i (2 * k) (m >>> (2 * k)) (l >>> (2 * k)) st).live.blk b =
        if b = 32 * i + k then mergeBlk (BitPair.pair m k) (BitPair.pair l k)
        else st.live.blk b :=
      fun b hb => syncPair_blk hi (by omega) hb (hcur k le_rfl (by omega))
    unfold syncElement
    rw [← BitVec.shiftRight_add, ← BitVec.shiftRight_add, show 2 * k + 2 = 2 * (k + 1) by ring,
      ih (by omega)]
    · by_cases hbk : b = 32 * i + k
      · rw [if_neg (by omega), if_pos (by omega), hpair b hb, if_pos hbk,
          show b % 32 = k by omega]
      · rw [hpair b hb, if_neg hbk]
        have hiff : (32 * i + (k + 1) ≤ b ∧ b < 32 * i + 32) ↔
            (32 * i + k ≤ b ∧ b < 32 * i + 32) := by omega
        simp only [hiff]
    · intro j h1 h2
      rw [hpair _ (by omega), if_neg (by omega)]
      exact hcur j (by omega) h2

theorem syncElements_blk {bmap : BmapData} {fuel i b : Nat} {st : SyncState}
    (hi : i + fuel = 8) (hb : b < 256) :
    (syncElements bmap fuel i st).live.blk b =
      if 32 * i ≤ b then mergeBlk (bmap.blk b) (st.live.blk b) else st.live.blk b := by
  induction fuel generalizing i st with
  | zero =>
    rw [if_neg (by omega)]
    rfl
  | succ fuel ih =>
    have hword : ∀ x : BmapData, ∀ j, j < 32 → x.blk (32 * i + j) = BitPair.pair (x.q i) j := by
      intro x j hj
      unfold BmapData.blk
      rw [show (32 * i + j) / 32 = i by omega, show (32 * i + j) % 32 = j by omega]
    unfold syncElements
    split
    next heq =>
      rw [ih (by omega)]
      by_cases hcur : b / 32 = i
      · have hsame : bmap.blk b = st.live.blk b := by
          unfold BmapData.blk
          rw [hcur, heq]
        rw [if_neg (by omega), if_pos (by omega), hsame, mergeBlk_self]
      · have hiff : 32 * (i + 1) ≤ b ↔ 32 * i ≤ b := by omega
        simp only [hiff]
    next =>
      have helem := @syncElement_blk i 32 0 b (bmap.q i) (st.live.q i) st (by omega) (by omega) hb
        (fun j _ hj => hword st.live j hj)
      simp only [Nat.mul_zero, BitVec.ushiftRight_zero, Nat.add_zero] at helem
      rw [ih (by omega), helem]
      by_cases hcur : b / 32 = i
      · rw [if_neg (by omega), if_pos (by omega), if_pos (by omega)]
        unfold BmapData.blk
        rw [hcur]
      · have hout : ¬(32 * i ≤ b ∧ b < 32 * i + 32) := by omega
        have hiff : 32 * (i + 1) ≤ b ↔ 32 * i ≤ b := by omega
        simp only [hout, hiff, ↓reduceIte]

theorem syncLinear_blk (live bmap : BmapData) (b : Nat) :
    (syncLinear live bmap).blk b = live.blk b := by
  unfold syncLinear
  split
  next => rfl
  next =>
    split
    next => split <;> rfl
    next => rfl

/-- The merge applies `mergeBlk` to every block of the segment. -/
theorem syncAdjust_blk {live bmap : BmapData} {b : Nat} (hb : b < 256) :
    (syncAdjust live bmap).live.blk b = mergeBlk (bmap.blk b) (live.blk b) := by
  unfold syncAdjust
  simp only
  rw [syncLinear_blk, syncElements_blk (by rfl) hb]
  simp

theorem xor_div_eq_zero_iff (a b : Nat) : (a ^^^ b) / 16384 = 0 ↔ a / 16384 = b / 16384 := by
  have hdist : (a ^^^ b) >>> 14 = a >>> 14 ^^^ b >>> 14 := Nat.shiftRight_xor_distrib
  rw [Nat.shiftRight_eq_div_pow, Nat.shiftRight_eq_div_pow, Nat.shiftRight_eq_div_pow] at hdist
  norm_num at hdist
  rw [hdist]
  exact xor_eq_zero_iff

/-- The four values that the merge can give the linear iterator. -/
theorem syncAdjust_linear (live bmap : BmapData) :
    (syncAdjust live bmap).live.linear = 0 ∨ (syncAdjust live bmap).live.linear = 4194304 ∨
      (live.linear < bmap.linear ∧ live.linear / 16384 = bmap.linear / 16384 ∧
        (syncAdjust live bmap).live.linear = bmap.linear) ∨
      (syncAdjust live bmap).live.linear = (bmap.linear + 16383) / 16384 * 16384 := by
  have hlin := syncElements_linear bmap bmapElements 0 ⟨live, 0⟩
  unfold syncAdjust syncLinear
  simp only [freemapBlockSize, xor_div_eq_zero_iff]
  simp only at hlin
  rw [hlin]
  split
  next => exact Or.inl rfl
  next =>
    split
    next =>
      split
      next hup => exact Or.inr (Or.inr (Or.inl ⟨hup.1, hup.2, rfl⟩))
      next => exact Or.inr (Or.inr (Or.inr rfl))
    next => exact Or.inr (Or.inl rfl)

/-- What `h2_bulkfree_sync` did to one live segment: left it alone because it already matches, or
adjusted it. -/
def SegMerged (bmap live live' : BmapData) : Prop :=
  (live' = live ∧ ∀ b, b < 256 → live.blk b = bmap.blk b) ∨ live' = (syncAdjust live bmap).live

theorem SegMerged.blk {bmap live live' : BmapData} (h : SegMerged bmap live live') {b : Nat}
    (hb : b < 256) : live'.blk b = mergeBlk (bmap.blk b) (live.blk b) := by
  rcases h with ⟨rfl, heq⟩ | rfl
  · rw [← heq b hb, mergeBlk_self]
  · exact syncAdjust_blk hb

theorem syncSegment_other {hmp : Dev} {cb : Cbinfo} {ub : BitVec 32} {key n m : Nat} {leaf : Leaf}
    (hn : n < 256) (hm : m < 256) (hne : m ≠ n) :
    (syncSegment hmp cb ub key leaf n).seg m = leaf.seg m := by
  unfold syncSegment
  split
  next => rfl
  next => rw [setBigmask_seg, setSeg_seg hn hm, if_neg hne]

theorem syncSegment_self {hmp : Dev} {cb : Cbinfo} {ub : BitVec 32} {key n : Nat} {leaf : Leaf}
    (hn : n < 256) :
    ((syncSegment hmp cb ub key leaf n).seg n = leaf.seg n ∧
      (key + n * 4194304 < hmp.allocatorBeg ∨ hmp.totalSize ≤ key + n * 4194304)) ∨
    (hmp.allocatorBeg ≤ key + n * 4194304 ∧
      SegMerged (cb.segFor key n) (leaf.seg n) ((syncSegment hmp cb ub key leaf n).seg n)) := by
  unfold syncSegment
  by_cases hrange : key + n * 4194304 < hmp.allocatorBeg ∨ hmp.totalSize ≤ key + n * 4194304
  · have hskip : SyncSkips hmp cb ub key leaf n := Or.inl hrange
    rw [if_pos hskip]
    exact Or.inl ⟨rfl, hrange⟩
  · refine Or.inr ⟨by omega, ?_⟩
    split
    next hskip =>
      have hmatch := hskip.resolve_left hrange
      exact Or.inl ⟨rfl, bitmapq_eq_iff_blk.mp hmatch.1⟩
    next =>
      rw [setBigmask_seg, setSeg_seg hn hn, if_pos rfl]
      exact Or.inr rfl

/-- The merge of a leaf handles every segment by itself. -/
theorem syncLeaf_seg {hmp : Dev} {cb : Cbinfo} {ub : BitVec 32} {key n m : Nat} {leaf : Leaf}
    (hn : n ≤ 256) (hm : m < 256) :
    ((syncLeaf hmp cb ub key leaf n).seg m = leaf.seg m ∧
      (n ≤ m ∨ key + m * 4194304 < hmp.allocatorBeg ∨ hmp.totalSize ≤ key + m * 4194304)) ∨
    (m < n ∧ hmp.allocatorBeg ≤ key + m * 4194304 ∧
      SegMerged (cb.segFor key m) (leaf.seg m) ((syncLeaf hmp cb ub key leaf n).seg m)) := by
  induction n with
  | zero => exact Or.inl ⟨rfl, Or.inl (by omega)⟩
  | succ n ih =>
    have hrec := ih (by omega)
    rw [syncLeaf]
    by_cases hmn : m = n
    · subst hmn
      have hsame : (syncLeaf hmp cb ub key leaf m).seg m = leaf.seg m := by
        rcases hrec with ⟨h, _⟩ | ⟨h, _⟩
        · exact h
        · omega
      have hself := @syncSegment_self hmp cb ub key m (syncLeaf hmp cb ub key leaf m) hm
      rw [hsame] at hself
      rcases hself with ⟨h, hout⟩ | ⟨hbeg, h⟩
      · exact Or.inl ⟨h, Or.inr hout⟩
      · exact Or.inr ⟨by omega, hbeg, h⟩
    · rw [syncSegment_other (by omega) hm hmn]
      rcases hrec with ⟨h, hout⟩ | ⟨hlt, hbeg, h⟩
      · exact Or.inl ⟨h, by omega⟩
      · exact Or.inr ⟨by omega, hbeg, h⟩

end Hammer2
