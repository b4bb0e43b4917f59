import Hammer2.ChainModify
import Hammer2.DedupTable
import Hammer2.Truncate
import Mathlib.Data.Nat.Log

namespace Hammer2

/-- The loop of `hammer2_getradix`. -/
def radixLoop (bytes : Nat) : Nat → Nat → Nat
  | 0, radix => radix
  | n + 1, radix => if 2 ^ radix < bytes then radixLoop bytes n (radix + 1) else radix

/-- `hammer2_getradix` of a 64-bit size. -/
def getradix (bytes : Nat) : Nat :=
  radixLoop bytes 64
    (if bytes = 65536 then 16 else if 16384 ≤ bytes then 14 else if 1024 ≤ bytes then 10 else 0)

/-- `HAMMER2_PBUFMASK64` -/
def pbufMask64 : BitVec 64 := 0xffff

/-- The logical block base that `hammer2_calc_logical` gives for an offset. -/
def logicalBase (uoff : BitVec 64) : BitVec 64 := uoff &&& ~~~pbufMask64

/-- `hammer2_calc_physical` on 64-bit words, in which the end of the last block is 0. -/
def calcPhysicalWord (size lbase : BitVec 64) : Nat :=
  if lbase + 65536#64 ≤ size then 65536
  else if size ≤ lbase then 0
  else 2 * shrinkBlock (size - lbase).toNat 7 65536

/-- The bytes of a block up to the end of the file. -/
def blockBytes (size lbase : Nat) : Nat := min (size - lbase) 65536

/-- A size of a physical block. -/
structure BlockSize (pblksize : Nat) : Prop where
  pow : ∃ k, pblksize = 2 ^ k
  min : 1024 ≤ pblksize
  max : pblksize ≤ 65536

/-- The block sizes that cover some bytes. -/
def CoverSizes (bytes : Nat) : Set Nat := {pblksize | BlockSize pblksize ∧ bytes ≤ pblksize}

theorem blockSize_pow {k : Nat} (hmin : 10 ≤ k) (hmax : k ≤ 16) : BlockSize (2 ^ k) where
  pow := ⟨k, rfl⟩
  min := Nat.pow_le_pow_right Nat.two_pos hmin
  max := Nat.pow_le_pow_right Nat.two_pos hmax

/-- The loop stops at the least radix if it does not start above it. -/
theorem radixLoop_eq_clog (bytes n radix : Nat) (hle : radix ≤ Nat.clog 2 bytes)
    (hfuel : Nat.clog 2 bytes ≤ radix + n) : radixLoop bytes n radix = Nat.clog 2 bytes := by
  induction n generalizing radix with
  | zero => exact Nat.le_antisymm hle hfuel
  | succ n ih =>
    unfold radixLoop
    split
    next hlt =>
      have hnext : radix < Nat.clog 2 bytes := by
        by_contra hge
        have hpow := (Nat.le_pow_clog Nat.one_lt_two bytes).trans
          (Nat.pow_le_pow_right Nat.two_pos (Nat.le_of_not_lt hge))
        omega
      exact ih (radix + 1) hnext (by omega)
    next hge =>
      exact Nat.le_antisymm hle (Nat.clog_le_of_le_pow (Nat.le_of_not_lt hge))

theorem le_clog_of_pow_le {bytes radix : Nat} (h : 2 ^ radix ≤ bytes) :
    radix ≤ Nat.clog 2 bytes := by
  have hpow := h.trans (Nat.le_pow_clog Nat.one_lt_two bytes)
  exact (Nat.pow_le_pow_iff_right Nat.one_lt_two).mp hpow

/-- `hammer2_getradix` of a size in the range of allocations. -/
theorem getradix_eq_clog {bytes : Nat} (hmin : 1024 ≤ bytes) (hmax : bytes ≤ 65536) :
    getradix bytes = Nat.clog 2 bytes := by
  have hclog : Nat.clog 2 bytes ≤ 16 := Nat.clog_le_of_le_pow hmax
  unfold getradix
  apply radixLoop_eq_clog
  · split
    next heq =>
      rw [heq]
      decide
    next =>
      split
      next hbig => exact le_clog_of_pow_le hbig
      next => exact le_clog_of_pow_le hmin
  · omega

theorem getradix_isLeast {bytes : Nat} (hmin : 1024 ≤ bytes) (hmax : bytes ≤ 65536) :
    IsLeast {radix | bytes ≤ 2 ^ radix} (getradix bytes) := by
  rw [getradix_eq_clog hmin hmax]
  refine ⟨Nat.le_pow_clog Nat.one_lt_two bytes, ?_⟩
  intro radix hradix
  exact Nat.clog_le_of_le_pow hradix

/-- Where the halvings stop: at the least size, or below the bytes to cover, and no lower. -/
theorem shrinkBlock_stop (eofbytes n : Nat) :
    ∃ j ≤ n, shrinkBlock eofbytes n (512 * 2 ^ n) = 512 * 2 ^ j ∧
      (j = n ∨ eofbytes ≤ 512 * 2 ^ (j + 1)) ∧ (j = 0 ∨ 512 * 2 ^ j < eofbytes) := by
  induction n with
  | zero => exact ⟨0, le_rfl, rfl, Or.inl rfl, Or.inl rfl⟩
  | succ n ih =>
    have hhalf : 512 * 2 ^ (n + 1) / 2 = 512 * 2 ^ n := by
      rw [pow_succ, ← Nat.mul_assoc, Nat.mul_div_cancel _ Nat.two_pos]
    have hmin : 1024 ≤ 512 * 2 ^ (n + 1) := by
      have := Nat.two_pow_pos n
      rw [pow_succ]
      omega
    unfold shrinkBlock
    by_cases heof : eofbytes ≤ 512 * 2 ^ (n + 1)
    · rw [if_pos ⟨heof, hmin⟩, hhalf]
      obtain ⟨j, hj, heq, hcover, hbelow⟩ := ih
      refine ⟨j, by omega, heq, Or.inr ?_, hbelow⟩
      obtain rfl | hcover := hcover
      · exact heof
      · exact hcover
    · rw [if_neg (fun h => heof h.1)]
      exact ⟨n + 1, le_rfl, rfl, Or.inl rfl, Or.inr (Nat.lt_of_not_le heof)⟩

/-- `hammer2_calc_physical` without the limit of 64 bits. -/
theorem calcPhysical_isLeast {size lbase : Nat} (h : lbase < size) :
    IsLeast (CoverSizes (blockBytes size lbase)) (calcPhysical size lbase) := by
  unfold calcPhysical
  split
  next hfull =>
    have hbytes : blockBytes size lbase = 65536 := Nat.min_eq_right (by omega)
    rw [hbytes]
    refine ⟨⟨blockSize_pow (k := 16) (by decide) le_rfl, le_rfl⟩, ?_⟩
    intro p hp
    exact hp.2
  next hlast =>
    have hbytes : blockBytes size lbase = size - lbase := Nat.min_eq_left (by omega)
    rw [if_neg (by omega), hbytes]
    obtain ⟨j, hj, heq, hcover, hbelow⟩ := shrinkBlock_stop (size - lbase) 7
    have hdouble : 2 * shrinkBlock (size - lbase) 7 65536 = 2 ^ (10 + j) := by
      have hbase : 512 * 2 ^ 7 = 65536 := by decide
      rw [hbase] at heq
      rw [heq, pow_add]
      omega
    have hlt : j ≠ 7 := by
      rintro rfl
      obtain hzero | hbelow := hbelow
      · contradiction
      · omega
    have hcover := hcover.resolve_left hlt
    rw [hdouble]
    refine ⟨⟨blockSize_pow (Nat.le_add_right 10 j) (by omega), ?_⟩, ?_⟩
    · rw [pow_succ] at hcover
      rw [pow_add]
      omega
    · rintro p ⟨⟨⟨k, rfl⟩, hk, -⟩, hp⟩
      apply Nat.pow_le_pow_right Nat.two_pos
      obtain rfl | hbelow := hbelow
      · exact (Nat.pow_le_pow_iff_right Nat.one_lt_two).mp hk
      · have hpow : 2 ^ (9 + j) < 2 ^ k := by
          rw [pow_add]
          omega
        have := (Nat.pow_lt_pow_iff_right Nat.one_lt_two).mp hpow
        omega

theorem logicalBase_mod (uoff : BitVec 64) : (logicalBase uoff).toNat % 65536 = 0 := by
  have hand : logicalBase uoff &&& pbufMask64 = 0 := by
    rw [logicalBase, BitVec.and_assoc, BitVec.and_comm (~~~pbufMask64)]
    simp
  have hnat := congrArg BitVec.toNat hand
  rw [BitVec.toNat_and] at hnat
  have hmask : pbufMask64.toNat = 2 ^ 16 - 1 := by decide
  rw [hmask, Nat.and_two_pow_sub_one_eq_mod] at hnat
  exact hnat

theorem calcPhysicalWord_eq {size lbase : BitVec 64} (h : lbase.toNat + 65536 < 2 ^ 64) :
    calcPhysicalWord size lbase = calcPhysical size.toNat lbase.toNat := by
  have hadd : (lbase + 65536#64).toNat = lbase.toNat + 65536 := by
    rw [BitVec.toNat_add]
    exact Nat.mod_eq_of_lt h
  unfold calcPhysicalWord calcPhysical
  simp only [BitVec.le_def, hadd]
  split
  next => rfl
  next =>
    split
    next => rfl
    next hlt =>
      have hsub : (size - lbase).toNat = size.toNat - lbase.toNat :=
        BitVec.toNat_sub_of_le (BitVec.le_def.mpr (Nat.le_of_not_le hlt))
      rw [hsub]

/-- The end of the last block wraps to 0, which is never beyond the end of the file. -/
theorem calcPhysicalWord_last {size lbase : BitVec 64} (h : lbase.toNat + 65536 = 2 ^ 64) :
    calcPhysicalWord size lbase = 65536 := by
  have hadd : lbase + 65536#64 = 0#64 := by
    apply BitVec.eq_of_toNat_eq
    rw [BitVec.toNat_add]
    show (lbase.toNat + 65536) % 2 ^ 64 = 0
    rw [h, Nat.mod_self]
  unfold calcPhysicalWord
  rw [hadd, if_pos (BitVec.le_def.mpr (Nat.zero_le _))]

/-- The end of a block is in range, or the block is the last one. -/
theorem logicalBase_cases {lbase : BitVec 64} (hbase : logicalBase lbase = lbase) :
    lbase.toNat + 65536 < 2 ^ 64 ∨ lbase.toNat + 65536 = 2 ^ 64 := by
  have hmod := logicalBase_mod lbase
  have hbound := lbase.isLt
  rw [hbase] at hmod
  omega

theorem full_isLeast_iff {bytes : Nat} (h : bytes ≤ 65536) :
    IsLeast (CoverSizes bytes) 65536 ↔ 32768 < bytes := by
  constructor
  · intro hleast
    by_contra hbytes
    have := hleast.2 ⟨blockSize_pow (k := 15) (by decide) (by decide), Nat.le_of_not_lt hbytes⟩
    contradiction
  · intro hbytes
    refine ⟨⟨blockSize_pow (k := 16) (by decide) le_rfl, h⟩, ?_⟩
    rintro p ⟨⟨⟨k, rfl⟩, -, -⟩, hp⟩
    have hpow : 2 ^ 15 < 2 ^ k := hbytes.trans_le hp
    exact Nat.pow_le_pow_right Nat.two_pos ((Nat.pow_lt_pow_iff_right Nat.one_lt_two).mp hpow)

/-- The block is the last one that 64 bits can address, and at most half of it belongs to the file. -/
def WrapsShort (size lbase : BitVec 64) : Prop :=
  lbase.toNat + 65536 = 2 ^ 64 ∧ size.toNat - lbase.toNat ≤ 32768

theorem calcPhysicalWord_isLeast_iff {size lbase : BitVec 64} (hbase : logicalBase lbase = lbase)
    (hlt : lbase < size) :
    IsLeast (CoverSizes (blockBytes size.toNat lbase.toNat)) (calcPhysicalWord size lbase) ↔
      ¬ WrapsShort size lbase := by
  obtain hlast | hlast := logicalBase_cases hbase
  · rw [calcPhysicalWord_eq hlast]
    exact iff_of_true (calcPhysical_isLeast (BitVec.lt_def.mp hlt)) fun hw => hlast.ne hw.1
  · have hsize := size.isLt
    have hbytes : blockBytes size.toNat lbase.toNat = size.toNat - lbase.toNat :=
      Nat.min_eq_left (by omega)
    rw [calcPhysicalWord_last hlast, hbytes, full_isLeast_iff (by omega), ← Nat.not_le]
    exact not_congr (and_iff_right hlast).symm

theorem calcPhysicalWord_mem {size lbase : BitVec 64} (hbase : logicalBase lbase = lbase)
    (hlt : lbase < size) :
    calcPhysicalWord size lbase ∈ CoverSizes (blockBytes size.toNat lbase.toNat) := by
  obtain hlast | hlast := logicalBase_cases hbase
  · rw [calcPhysicalWord_eq hlast]
    exact (calcPhysical_isLeast (BitVec.lt_def.mp hlt)).1
  · rw [calcPhysicalWord_last hlast]
    exact ⟨blockSize_pow (k := 16) (by decide) le_rfl, Nat.min_le_right _ _⟩

/-- The bytes of a chain with a radix; a radix of 0 is a chain without a block. -/
def radixBytes (radix : Nat) : Nat := if radix = 0 then 0 else 2 ^ radix

/-- The arguments of `hammer2_dedup_lookup` besides the size, and what it runs with. -/
structure DedupQuery where
  env : DedupEnv
  thread : Nat
  now : BitVec 32
  io : IoDev
  table : DedupTable
  data : ByteImage.Image
  evict : Nat → Nat → Bool

/-- The offset of a block to share, 0 if there is none. -/
def DedupQuery.offset (q : DedupQuery) (pblksize : Nat) : Option Nat :=
  (dedupLookup q.env q.thread q.now q.io q.table q.data pblksize q.evict).map fun r => r.2.2

/-- What `hammer2_assign_physical` finds: the error of the lookup, the dedup table, the outcome of the
search for a free blockref, with `none` for a panic, the methods of the inode's blocks, what a resize
and the last modification find, and the error of the allocation for the resize with the `data_off`
that it gives. -/
structure AssignEnv (δ : Type) where
  lookupError : Nat
  dedup : DedupQuery
  insert : Option (Except Nat Unit)
  methods : Nat
  resize : ModifyEnv δ
  resizeError : Nat
  resizeOff : Nat
  modify : ModifyEnv δ

/-- The chain, `*errorp`, whether `*datap` was cleared for a dedup, and `HAMMER2_INODE_DIRTYDATA`. -/
structure Assigned (δ : Type) where
  chain : Option (ModChain δ)
  error : Nat
  dedup : Bool
  dirtyData : Bool

section Assign

variable {δ : Type} (env : AssignEnv δ) (chain : ModChain δ)

/-- The chain that `hammer2_chain_create` allocates for a data block. -/
def newDataChain (methods bytes : Nat) : ModChain δ where
  flags := { initial := true }
  bref := ⟨.data, methods, getradix bytes, 0, 0, false⟩
  bytes := radixBytes (getradix bytes)
  data := none
  error := 0

/-- `hammer2_chain_create` of a data block. -/
def chainCreateData (bytes mtid dedupOff : Nat) : Option (Option (ModChain δ) × Nat) :=
  env.insert.bind fun
    | .error error => some (none, error)
    | .ok _ =>
      (ModChain.modify env.modify (newDataChain env.methods bytes) mtid dedupOff true).map fun r =>
        (some r.chain, r.error)

/-- The end of `hammer2_chain_resize`; an indirect block with a buffer fails an assertion. -/
def resizeBlock (r : Modified δ) (nradix : Nat) : Option (Modified δ) :=
  if env.resizeError ≠ 0 then some { r with how := .allocFailed, error := env.resizeError }
  else if r.chain.bref.type = .indirect ∧ r.chain.data.isSome then none
  else
    some { r with
      error := r.chain.error
      chain := { r.chain with
        bref := { r.chain.bref with dataOff := env.resizeOff }
        bytes := radixBytes nradix
        data := none } }

/-- `hammer2_chain_resize` -/
def ModChain.resize (mtid dedupOff nradix : Nat) : Option (Modified δ) :=
  if ¬(chain.bref.type = .data ∨ chain.bref.type = .indirect ∨ chain.bref.type = .dirent) then none
  else if chain.bytes = radixBytes nradix then
    some ⟨.done, chain.error, chain, env.resize.media⟩
  else
    (ModChain.modify env.resize chain mtid dedupOff false).bind fun r =>
      if r.error ≠ 0 then some r else resizeBlock env r nradix

/-- A chain that was found is modified. -/
def assignModify (mtid dedupOff : Nat) (optdata : Bool) (error : Nat) : Option (Assigned δ) :=
  (ModChain.modify env.modify chain mtid dedupOff optdata).map fun r =>
    ⟨some r.chain, error ||| r.error, dedupOff ≠ 0, true⟩

/-- A data chain is resized and modified. -/
def assignData (pblksize mtid : Nat) : Option (Assigned δ) :=
  (env.dedup.offset pblksize).bind fun dedupOff =>
    if chain.bytes = pblksize then assignModify env chain mtid dedupOff true env.lookupError
    else
      (ModChain.resize env chain mtid dedupOff (getradix pblksize)).bind fun r =>
        let error := env.lookupError ||| r.error
        if error ≠ 0 then some ⟨some r.chain, error, dedupOff ≠ 0, true⟩
        else assignModify env r.chain mtid dedupOff true error

/-- `hammer2_assign_physical` with the chain that the lookup found and whether it is deleted; `none`
is a panic or a failed assertion. -/
def assignPhysical (pblksize mtid : Nat) : Option (ModChain δ × Bool) → Option (Assigned δ)
  | none =>
    if pblksize < 1024 then none
    else
      (env.dedup.offset pblksize).bind fun dedupOff =>
        (chainCreateData env pblksize mtid dedupOff).map fun (chain, error) =>
          ⟨chain, env.lookupError ||| error, dedupOff ≠ 0, chain.isSome⟩
  | some (chain, deleted) =>
    if pblksize < 1024 then none
    else if deleted ∧ chain.bref.type ≠ .inode then none
    else if chain.error ≠ 0 then some ⟨some chain, chain.error, false, true⟩
    else
      match chain.bref.type with
      | .inode => assignModify env chain mtid 0 false env.lookupError
      | .data => assignData env chain pblksize mtid
      | _ => none

end Assign

section AssignBytes

variable {δ : Type}

theorem chainLoadData_kept {env : ModifyEnv δ} {chain chain' : ModChain δ}
    (h : chainLoadData env chain = some chain') :
    chain'.bref = chain.bref ∧ chain'.bytes = chain.bytes := by
  unfold chainLoadData at h
  split at h
  next =>
    cases h
    exact ⟨rfl, rfl⟩
  next =>
    split at h
    next =>
      cases h
      exact ⟨rfl, rfl⟩
    next =>
      obtain ⟨-, h⟩ := Option.ite_none_left_eq_some.mp h
      dsimp only at h
      split at h
      next =>
        cases h
        exact ⟨rfl, rfl⟩
      next =>
        split at h
        next =>
          cases h
          exact ⟨rfl, rfl⟩
        next =>
          split at h
          next =>
            cases h
            exact ⟨rfl, rfl⟩
          next =>
            cases h
            exact ⟨rfl, rfl⟩

theorem modifyBuffer_kept {env : ModifyEnv δ} {chain : ModChain δ} {dedupOff : Nat}
    {wasinitial : Bool} {r : Modified δ} (h : modifyBuffer env chain dedupOff wasinitial = some r) :
    r.chain.bref.type = chain.bref.type ∧ r.chain.bytes = chain.bytes := by
  unfold modifyBuffer at h
  dsimp only at h
  split at h
  next =>
    cases h
    exact ⟨rfl, rfl⟩
  next =>
    split at h
    next =>
      split at h
      next =>
        cases h
        exact ⟨rfl, rfl⟩
      next =>
        obtain ⟨-, h⟩ := Option.ite_none_right_eq_some.mp h
        cases h
        exact ⟨rfl, rfl⟩
    next =>
      cases h
      exact ⟨rfl, rfl⟩

theorem modifyFinish_kept {env : ModifyEnv δ} {chain : ModChain δ} {mtid dedupOff : Nat}
    {optdata : Bool} {r : Modified δ} (h : modifyFinish env chain mtid dedupOff optdata = some r) :
    r.chain.bref.type = chain.bref.type ∧ r.chain.bytes = chain.bytes := by
  unfold modifyFinish at h
  dsimp only at h
  split at h
  next =>
    cases h
    exact ⟨rfl, rfl⟩
  next =>
    split at h
    next =>
      cases h
      exact ⟨rfl, rfl⟩
    next =>
      cases h
      exact ⟨rfl, rfl⟩
    next =>
      split at h
      next =>
        cases h
        exact ⟨rfl, rfl⟩
      next =>
      have hkept := modifyBuffer_kept h
      exact hkept
    next =>
      have hkept := modifyBuffer_kept h
      exact hkept

/-- A modification keeps the size of the chain, or gives it the size of the block of a dedup. -/
theorem modChainModify_bytes {env : ModifyEnv δ} {chain : ModChain δ} {mtid dedupOff : Nat}
    {optdata : Bool} {r : Modified δ}
    (h : ModChain.modify env chain mtid dedupOff optdata = some r) :
    r.chain.bref.type = chain.bref.type ∧
      (r.chain.bytes = chain.bytes ∨
        dedupOff ≠ 0 ∧ r.chain.bytes = radixBytes (dedupOff % 64)) := by
  unfold ModChain.modify at h
  obtain ⟨-, h⟩ := Option.ite_none_left_eq_some.mp h
  obtain ⟨chain₀, hchain₀, h⟩ := Option.bind_eq_some_iff.mp h
  have hkept : chain₀.bref = chain.bref ∧ chain₀.bytes = chain.bytes := by
    split at hchain₀
    next => exact chainLoadData_kept hchain₀
    next =>
      cases hchain₀
      exact ⟨rfl, rfl⟩
  rw [← hkept.1, ← hkept.2]
  dsimp only at h
  split at h
  next =>
    cases h
    exact ⟨rfl, Or.inl rfl⟩
  next =>
    split at h
    next =>
      split at h
      next hdedup =>
        obtain ⟨htype, hbytes⟩ := modifyFinish_kept h
        exact ⟨htype, Or.inr ⟨hdedup, hbytes⟩⟩
      next =>
        split at h
        next =>
          obtain ⟨htype, hbytes⟩ := modifyFinish_kept h
          exact ⟨htype, Or.inl hbytes⟩
        next =>
          split at h
          next =>
            obtain ⟨htype, hbytes⟩ := modifyFinish_kept h
            exact ⟨htype, Or.inl hbytes⟩
          next =>
            cases h
            exact ⟨rfl, Or.inl rfl⟩
    next =>
      obtain ⟨htype, hbytes⟩ := modifyFinish_kept h
      exact ⟨htype, Or.inl hbytes⟩

theorem dedupTry_bytes {env : DedupEnv} {t bytes : Nat} {d d' : IoDev} {data : ByteImage.Image}
    {crc : BitVec 64} {evict : Nat → Bool} {e : HeurDedup}
    (h : dedupTry env t d data bytes crc evict e = some (d', true)) :
    2 ^ (e.dataOff % 64) = bytes := by
  unfold dedupTry at h
  split at h
  next => cases h
  next =>
    split at h
    next => cases h
    next hbytes => exact not_not.mp hbytes

theorem dedupScan_bytes {env : DedupEnv} {t bytes i : Nat} {d d' : IoDev} {data : ByteImage.Image}
    {crc : BitVec 64} {evict : Nat → Nat → Bool} {table : DedupTable} {is : List Nat}
    (h : dedupScan env t data bytes crc evict table is d = some (d', some i)) :
    2 ^ ((table i).dataOff % 64) = bytes := by
  induction is generalizing d with
  | nil => cases h
  | cons i' is ih =>
    obtain ⟨⟨d₁, hit⟩, htry, h⟩ := Option.bind_eq_some_iff.mp h
    cases hit with
    | true =>
      cases h
      exact dedupTry_bytes htry
    | false => exact ih h

/-- A block to share has the size that was asked for. -/
theorem dedupOffset_bytes {q : DedupQuery} {pblksize off : Nat} (h : q.offset pblksize = some off)
    (hoff : off ≠ 0) : 2 ^ (off % 64) = pblksize := by
  obtain ⟨r, hlookup, rfl⟩ := Option.map_eq_some_iff.mp h
  unfold dedupLookup at hlookup
  split at hlookup
  next =>
    cases hlookup
    contradiction
  next =>
    obtain ⟨⟨d, hit⟩, hscan, hr⟩ := Option.map_eq_some_iff.mp hlookup
    cases hit with
    | none =>
      cases hr
      contradiction
    | some i =>
      cases hr
      exact dedupScan_bytes hscan

theorem radixBytes_eq {pblksize radix : Nat} (hmin : 1024 ≤ pblksize) (h : 2 ^ radix = pblksize) :
    radixBytes radix = pblksize := by
  unfold radixBytes
  rw [if_neg, h]
  rintro rfl
  rw [pow_zero] at h
  omega

theorem radixBytes_getradix {pblksize : Nat} (h : BlockSize pblksize) :
    radixBytes (getradix pblksize) = pblksize := by
  obtain ⟨⟨k, rfl⟩, hmin, hmax⟩ := h
  apply radixBytes_eq hmin
  rw [getradix_eq_clog hmin hmax, Nat.clog_pow 2 k Nat.one_lt_two]

/-- A modification with the answer of the dedup lookup keeps the size that was looked up. -/
theorem modify_blockSize {env : ModifyEnv δ} {chain : ModChain δ} {q : DedupQuery}
    {pblksize mtid dedupOff : Nat} {optdata : Bool} {r : Modified δ}
    (hdedup : q.offset pblksize = some dedupOff) (hmin : 1024 ≤ pblksize)
    (hbytes : chain.bytes = pblksize)
    (h : ModChain.modify env chain mtid dedupOff optdata = some r) : r.chain.bytes = pblksize := by
  obtain ⟨-, hkept | ⟨hne, hshared⟩⟩ := modChainModify_bytes h
  · exact hkept.trans hbytes
  · rw [hshared]
    exact radixBytes_eq hmin (dedupOffset_bytes hdedup hne)

theorem modChainResize_bytes {env : AssignEnv δ} {chain : ModChain δ} {mtid dedupOff nradix : Nat}
    {r : Modified δ} (h : ModChain.resize env chain mtid dedupOff nradix = some r)
    (herror : r.error = 0) : r.chain.bytes = radixBytes nradix := by
  unfold ModChain.resize at h
  obtain ⟨-, h⟩ := Option.ite_none_left_eq_some.mp h
  split at h
  next heq =>
    cases h
    exact heq
  next =>
    obtain ⟨r', -, h⟩ := Option.bind_eq_some_iff.mp h
    split at h
    next hfail =>
      cases h
      contradiction
    next hok =>
      unfold resizeBlock at h
      split at h
      next hfail =>
        cases h
        contradiction
      next =>
        obtain ⟨-, h⟩ := Option.ite_none_left_eq_some.mp h
        cases h
        rfl

/-- A chain that gets a new block has the size of the block. -/
theorem chainCreateData_bytes {env : AssignEnv δ} {pblksize mtid dedupOff error : Nat}
    {chain : ModChain δ} (hdedup : env.dedup.offset pblksize = some dedupOff)
    (hsize : BlockSize pblksize)
    (h : chainCreateData env pblksize mtid dedupOff = some (some chain, error)) :
    chain.bytes = pblksize := by
  obtain ⟨slot, -, h⟩ := Option.bind_eq_some_iff.mp h
  cases slot with
  | error error => cases h
  | ok slot =>
    obtain ⟨r, hr, h⟩ := Option.map_eq_some_iff.mp h
    cases h
    exact modify_blockSize hdedup hsize.min (radixBytes_getradix hsize) hr

theorem assignModify_blockSize {env : AssignEnv δ} {chain chain' : ModChain δ}
    {pblksize mtid dedupOff error : Nat} {optdata : Bool} {a : Assigned δ}
    (hdedup : env.dedup.offset pblksize = some dedupOff) (hmin : 1024 ≤ pblksize)
    (hbytes : chain.bytes = pblksize)
    (h : assignModify env chain mtid dedupOff optdata error = some a)
    (hchain : a.chain = some chain') : chain'.bytes = pblksize := by
  obtain ⟨r, hr, h⟩ := Option.map_eq_some_iff.mp h
  cases h
  cases hchain
  exact modify_blockSize hdedup hmin hbytes hr

theorem assignData_bytes {env : AssignEnv δ} {chain chain' : ModChain δ} {pblksize mtid : Nat}
    {a : Assigned δ} (hsize : BlockSize pblksize)
    (h : assignData env chain pblksize mtid = some a) (herror : a.error = 0)
    (hchain : a.chain = some chain') : chain'.bytes = pblksize := by
  obtain ⟨dedupOff, hdedup, h⟩ := Option.bind_eq_some_iff.mp h
  split at h
  next heq => exact assignModify_blockSize hdedup hsize.min heq h hchain
  next =>
    obtain ⟨r, hr, h⟩ := Option.bind_eq_some_iff.mp h
    dsimp only at h
    split at h
    next hfail =>
      cases h
      contradiction
    next hok =>
      have hresize := modChainResize_bytes hr (Nat.or_eq_zero_iff.mp (not_not.mp hok)).2
      rw [radixBytes_getradix hsize] at hresize
      exact assignModify_blockSize hdedup hsize.min hresize h hchain

/-- A data chain that is created, or that is found and modified without an error, has the size of the
physical block. -/
theorem assignPhysical_bytes {env : AssignEnv δ} {found : Option (ModChain δ × Bool)}
    {pblksize mtid : Nat} {a : Assigned δ} {chain : ModChain δ} (hsize : BlockSize pblksize)
    (h : assignPhysical env pblksize mtid found = some a) (hok : found = none ∨ a.error = 0)
    (hchain : a.chain = some chain) (hdata : chain.bref.type = .data) :
    chain.bytes = pblksize := by
  cases found with
  | none =>
    obtain ⟨-, h⟩ := Option.ite_none_left_eq_some.mp h
    obtain ⟨dedupOff, hdedup, h⟩ := Option.bind_eq_some_iff.mp h
    obtain ⟨⟨chain', error⟩, hcreate, h⟩ := Option.map_eq_some_iff.mp h
    cases h
    cases hchain
    exact chainCreateData_bytes hdedup hsize hcreate
  | some found =>
    obtain ⟨chain', deleted⟩ := found
    have herror := hok.resolve_left (Option.some_ne_none _)
    obtain ⟨-, h⟩ := Option.ite_none_left_eq_some.mp h
    obtain ⟨-, h⟩ := Option.ite_none_left_eq_some.mp h
    split at h
    next hfail =>
      cases h
      contradiction
    next =>
      split at h
      next hinode =>
        obtain ⟨r, hr, h⟩ := Option.map_eq_some_iff.mp h
        cases h
        cases hchain
        rw [(modChainModify_bytes hr).1, hinode] at hdata
        cases hdata
      next => exact assignData_bytes hsize h herror hchain
      next => cases h

/-- No byte of a block is outside its data chain, the last block of the address space included. -/
theorem assignPhysical_covers {env : AssignEnv δ} {found : Option (ModChain δ × Bool)}
    {size lbase : BitVec 64} {mtid : Nat} {a : Assigned δ} {chain : ModChain δ}
    (hbase : logicalBase lbase = lbase) (hlt : lbase < size)
    (h : assignPhysical env (calcPhysicalWord size lbase) mtid found = some a)
    (hok : found = none ∨ a.error = 0) (hchain : a.chain = some chain)
    (hdata : chain.bref.type = .data) :
    blockBytes size.toNat lbase.toNat ≤ chain.bytes := by
  obtain ⟨hsize, hcover⟩ := calcPhysicalWord_mem hbase hlt
  rw [assignPhysical_bytes hsize h hok hchain hdata]
  exact hcover

end AssignBytes

/-- The block sizes and radixes are the least ones, and an assigned data chain holds the block up to
the end of the file, exactly for the blocks whose size does not come from an end that wraps. -/
theorem block_sizing_iff (δ : Type) (size lbase : BitVec 64) (hbase : logicalBase lbase = lbase)
    (hlt : lbase < size) :
    (IsLeast (CoverSizes (blockBytes size.toNat lbase.toNat)) (calcPhysicalWord size lbase) ∧
      (∀ bytes, 1024 ≤ bytes → bytes ≤ 65536 →
        IsLeast {radix | bytes ≤ 2 ^ radix} (getradix bytes)) ∧
      ∀ (env : AssignEnv δ) (mtid : Nat) (found : Option (ModChain δ × Bool)) (a : Assigned δ)
        (chain : ModChain δ),
        assignPhysical env (calcPhysicalWord size lbase) mtid found = some a →
        found = none ∨ a.error = 0 → a.chain = some chain → chain.bref.type = .data →
        blockBytes size.toNat lbase.toNat ≤ chain.bytes) ↔
      ¬ WrapsShort size lbase := by
  rw [← calcPhysicalWord_isLeast_iff hbase hlt]
  constructor
  · intro h
    exact h.1
  · intro hleast
    refine ⟨hleast, fun bytes hlow hhigh => getradix_isLeast hlow hhigh, ?_⟩
    intro env mtid found a chain
    exact assignPhysical_covers hbase hlt

/-- A hole on a device with room for a block of 8KB at 24MB. -/
def holeEnv : AssignEnv Nat where
  lookupError := 0
  dedup := ⟨⟨true, 1000, 256, fun _ _ => 7⟩, 1, 0, ioDevInit, fun _ => ⟨0, 0, 0⟩, fun _ => 0,
    fun _ _ => false⟩
  insert := some (.ok ())
  methods := 48
  resize := fullEnv
  resizeError := chainErrorEnospc
  resizeOff := 0
  modify := { fullEnv with freemapAlloc := .ok 25165837 }

/-- The last 4464 bytes of a file of 70000 bytes. -/
theorem block_sizing_tail :
    IsLeast (CoverSizes (blockBytes 70000 65536)) (calcPhysicalWord 70000#64 65536#64) ∧
      ∃ a chain, assignPhysical holeEnv (calcPhysicalWord 70000#64 65536#64) 1 none = some a ∧
        a.error = 0 ∧ a.chain = some chain ∧ blockBytes 70000 65536 ≤ chain.bytes := by
  have h := (block_sizing_iff Nat 70000#64 65536#64 (by decide) (by decide)).mpr
    (fun hwraps => absurd hwraps.1 (by decide))
  exact ⟨h.1, _, _, rfl, rfl, rfl, h.2.2 holeEnv 1 none _ _ rfl (Or.inl rfl) rfl rfl⟩

/-- One byte in the last block of the address space. -/
def lastBase : BitVec 64 := 0xffffffffffff0000
def lastSize : BitVec 64 := 0xffffffffffff0001

/-- The one byte is given 64KB where 1KB is enough. -/
theorem last_block_oversized :
    logicalBase lastBase = lastBase ∧ lastBase < lastSize ∧
      calcPhysicalWord lastSize lastBase = 65536 ∧
      1024 ∈ CoverSizes (blockBytes lastSize.toNat lastBase.toNat) ∧
      ¬ IsLeast (CoverSizes (blockBytes lastSize.toNat lastBase.toNat))
        (calcPhysicalWord lastSize lastBase) := by
  have hsize : calcPhysicalWord lastSize lastBase = 65536 := by decide
  have hmem : 1024 ∈ CoverSizes (blockBytes lastSize.toNat lastBase.toNat) :=
    ⟨blockSize_pow (k := 10) le_rfl (by decide), by decide⟩
  refine ⟨by decide, by decide, hsize, hmem, ?_⟩
  intro hleast
  have := hleast.2 hmem
  rw [hsize] at this
  contradiction

end Hammer2
