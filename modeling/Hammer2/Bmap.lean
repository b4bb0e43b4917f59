import Hammer2.BitPair

namespace Hammer2

def segSize : Nat := 4194304

def freemapBlockSize : Nat := 16384

def freemapBlockRadix : Nat := 14

def allocMin : Nat := 1024

def bmapElements : Nat := 8

def bmapBitsPerElement : Nat := 64

def bmapBlocksPerElement : Nat := 32

def bmapIndexSize : Nat := freemapBlockSize * bmapBlocksPerElement

/-- The modelled fields of `hammer2_bmap_data`, which describes one 4MB segment. -/
structure BmapData where
  linear : Nat
  cls : Nat
  avail : Nat
  bitmapq : Fin 8 → BitVec 64

/-- `avail` is a `u32`; a subtraction from it wraps. -/
def subU32 (a b : Nat) : Nat := (a + (2 ^ 32 - b % 2 ^ 32)) % 2 ^ 32

def BmapData.q (bmap : BmapData) (i : Nat) : BitVec 64 := bmap.bitmapq (Fin.ofNat 8 i)

def BmapData.setq (bmap : BmapData) (i : Nat) (x : BitVec 64) : BmapData :=
  { bmap with bitmapq := Function.update bmap.bitmapq (Fin.ofNat 8 i) x }

/-- The freemap state of the 16KB block `b` of the segment: 00, 01, 10 or 11. -/
def BmapData.blk (bmap : BmapData) (b : Nat) : BitVec 2 := BitPair.pair (bmap.q (b / 32)) (b % 32)

@[simp]
theorem setq_linear (bmap : BmapData) (i : Nat) (x : BitVec 64) :
    (bmap.setq i x).linear = bmap.linear := rfl

@[simp]
theorem setq_cls (bmap : BmapData) (i : Nat) (x : BitVec 64) :
    (bmap.setq i x).cls = bmap.cls := rfl

@[simp]
theorem setq_avail (bmap : BmapData) (i : Nat) (x : BitVec 64) :
    (bmap.setq i x).avail = bmap.avail := rfl

theorem finOfNat_eq_iff {i j : Nat} (hi : i < 8) (hj : j < 8) :
    Fin.ofNat 8 i = Fin.ofNat 8 j ↔ i = j := by
  rw [Fin.ext_iff]
  simp only [Fin.ofNat]
  omega

theorem setq_q {bmap : BmapData} {i j : Nat} {x : BitVec 64} (hi : i < 8) (hj : j < 8) :
    (bmap.setq i x).q j = if j = i then x else bmap.q j := by
  change Function.update bmap.bitmapq (Fin.ofNat 8 i) x (Fin.ofNat 8 j) = _
  by_cases h : j = i
  · rw [if_pos h, h, Function.update_self]
  · have hne : Fin.ofNat 8 j ≠ Fin.ofNat 8 i := by
      intro heq
      exact h ((finOfNat_eq_iff hj hi).mp heq)
    rw [if_neg h, Function.update_of_ne hne]
    rfl

theorem setq_blk {bmap : BmapData} {i b : Nat} {x : BitVec 64} (hi : i < 8) (hb : b < 256) :
    (bmap.setq i x).blk b = if b / 32 = i then BitPair.pair x (b % 32) else bmap.blk b := by
  unfold BmapData.blk
  rw [setq_q hi (by omega)]
  split
  next => rfl
  next => rfl

/-- Two segments agree on every block exactly if their bitmap words agree. -/
theorem bitmapq_eq_iff_blk {a b : BmapData} :
    (∀ i, a.bitmapq i = b.bitmapq i) ↔ ∀ n, n < 256 → a.blk n = b.blk n := by
  constructor
  · intro h n _
    unfold BmapData.blk BmapData.q
    rw [h]
  · intro h i
    apply BitPair.eq_of_pair_eq
    intro k hk
    have hn := h (32 * i.val + k) (by omega)
    unfold BmapData.blk BmapData.q at hn
    rw [show (32 * i.val + k) / 32 = i.val by omega, show (32 * i.val + k) % 32 = k by omega] at hn
    simpa using hn

/-- The run of blocks `k`, …, `k + c - 1` of a bitmap word, as blocks of the segment. -/
theorem setq_or_run_blk (bmap : BmapData) {i k c b : Nat} (hi : i < 8) (hk : k + c ≤ 32)
    (hc : c < 32) (hb : b < 256) :
    (bmap.setq i (bmap.q i ||| BitPair.run 64 k c)).blk b =
      if 32 * i + k ≤ b ∧ b < 32 * i + k + c then 3 else bmap.blk b := by
  rw [setq_blk hi hb]
  by_cases h : b / 32 = i
  · rw [if_pos h, BitPair.pair_or_run (by omega) _ (by omega)]
    have hiff : (k ≤ b % 32 ∧ b % 32 < k + c) ↔ (32 * i + k ≤ b ∧ b < 32 * i + k + c) := by omega
    simp only [hiff, BmapData.blk, h]
  · have hout : ¬(32 * i + k ≤ b ∧ b < 32 * i + k + c) := by omega
    rw [if_neg h, if_neg hout]

theorem q_and_run_eq_zero_iff {bmap : BmapData} {i k c : Nat} (hk : k + c ≤ 32)
    (hc : c < 32) :
    bmap.q i &&& BitPair.run 64 k c = 0 ↔
      ∀ b, 32 * i + k ≤ b → b < 32 * i + k + c → bmap.blk b = 0 := by
  rw [BitPair.and_run_eq_zero_iff (by omega) (by omega)]
  constructor
  · intro h b h1 h2
    unfold BmapData.blk
    rw [show b / 32 = i by omega]
    exact h _ (by omega) (by omega)
  · intro h j h1 h2
    have hb := h (32 * i + j) (by omega) (by omega)
    unfold BmapData.blk at hb
    rwa [show (32 * i + j) / 32 = i by omega, show (32 * i + j) % 32 = j by omega] at hb

end Hammer2
