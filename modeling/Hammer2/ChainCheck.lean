import Hammer2.DedupTable
import Hammer2.FsckCache
import Hammer2.VolumeHeader

namespace Hammer2

open ByteImage

section Xxhash

def xxhPrime1 : BitVec 64 := 0x9E3779B185EBCA87#64
def xxhPrime2 : BitVec 64 := 0xC2B2AE3D27D4EB4F#64
def xxhPrime3 : BitVec 64 := 0x165667B19E3779F9#64
def xxhPrime4 : BitVec 64 := 0x85EBCA77C2B2AE63#64
def xxhPrime5 : BitVec 64 := 0x27D4EB2F165667C5#64

/-- `XXH_HAMMER2_SEED` -/
def xxhHammer2Seed : BitVec 64 := 0x4d617474446c6c6e#64

/-- The first `n` bytes as a little-endian number: `xxh_read64` and `xxh_read32`. -/
def xxhRead (n : Nat) (p : List (BitVec 8)) : BitVec 64 :=
  BitVec.ofNat 64 ((p.take n).foldr (fun b v => b.toNat + 256 * v) 0)

def xxhRound (acc input : BitVec 64) : BitVec 64 :=
  (acc + input * xxhPrime2).rotateLeft 31 * xxhPrime1

def xxhMergeRound (acc val : BitVec 64) : BitVec 64 :=
  (acc ^^^ xxhRound 0 val) * xxhPrime1 + xxhPrime4

/-- The four accumulators of the loop over stripes of 32 bytes. -/
structure XxhAcc where
  v1 : BitVec 64
  v2 : BitVec 64
  v3 : BitVec 64
  v4 : BitVec 64

def XxhAcc.stripe (v : XxhAcc) (p : List (BitVec 8)) : XxhAcc where
  v1 := xxhRound v.v1 (xxhRead 8 p)
  v2 := xxhRound v.v2 (xxhRead 8 (p.drop 8))
  v3 := xxhRound v.v3 (xxhRead 8 (p.drop 16))
  v4 := xxhRound v.v4 (xxhRead 8 (p.drop 24))

def xxhStripes : Nat → List (BitVec 8) → XxhAcc → XxhAcc
  | 0, _, v => v
  | n + 1, p, v => xxhStripes n (p.drop 32) (v.stripe p)

def XxhAcc.merge (v : XxhAcc) : BitVec 64 :=
  let h := v.v1.rotateLeft 1 + v.v2.rotateLeft 7 + v.v3.rotateLeft 12 + v.v4.rotateLeft 18
  xxhMergeRound (xxhMergeRound (xxhMergeRound (xxhMergeRound h v.v1) v.v2) v.v3) v.v4

def xxhWords : Nat → List (BitVec 8) → BitVec 64 → BitVec 64
  | 0, _, h => h
  | n + 1, p, h =>
    xxhWords n (p.drop 8)
      ((h ^^^ xxhRound 0 (xxhRead 8 p)).rotateLeft 27 * xxhPrime1 + xxhPrime4)

/-- The last bytes of the input, fewer than eight. -/
def xxhTail (p : List (BitVec 8)) (h : BitVec 64) : BitVec 64 :=
  let (p, h) :=
    if 4 ≤ p.length then
      (p.drop 4, (h ^^^ xxhRead 4 p * xxhPrime1).rotateLeft 23 * xxhPrime2 + xxhPrime3)
    else (p, h)
  p.foldl (fun h b => (h ^^^ b.setWidth 64 * xxhPrime5).rotateLeft 11 * xxhPrime1) h

def xxhAvalanche (h : BitVec 64) : BitVec 64 :=
  let h := (h ^^^ (h >>> 33)) * xxhPrime2
  let h := (h ^^^ (h >>> 29)) * xxhPrime3
  h ^^^ (h >>> 32)

def xxh64 (input : List (BitVec 8)) (seed : BitVec 64) : BitVec 64 :=
  let stripes := input.length / 32
  let h :=
    if 32 ≤ input.length then
      (xxhStripes stripes input
        ⟨seed + xxhPrime1 + xxhPrime2, seed + xxhPrime2, seed, seed - xxhPrime1⟩).merge
    else seed + xxhPrime5
  let p := input.drop (32 * stripes)
  let words := p.length / 8
  xxhAvalanche
    (xxhTail (p.drop (8 * words)) (xxhWords words p (h + BitVec.ofNat 64 input.length)))

example : xxh64 [0x61#8, 0x62#8, 0x63#8] 0 = 0x44BC2CF5AD770999#64 := by decide

end Xxhash

section Sha256

/-- The placeholder context of the driver. -/
structure Sha256Ctx where
  state : BitVec 256
  count : BitVec 64
  buf : BitVec 512

def sha256Init : Sha256Ctx := ⟨0, 0, 0⟩

def sha256Update (c : Sha256Ctx) (_ : List (BitVec 8)) : Sha256Ctx := c

def sha256Final (_ : Sha256Ctx) : BitVec 256 := 0

/-- The 24 bytes that are left of a digest: `u.digest64[2] ^= u.digest64[3]`. -/
def foldDigest (digest : BitVec 256) : BitVec 192 :=
  digest.extractLsb' 0 192 ^^^ ((digest.extractLsb' 192 64).setWidth 192 <<< 128)

end Sha256

/-- `HAMMER2_DEC_CHECK` -/
def decCheck (methods : BitVec 8) : Option CheckMethod :=
  match methods.toNat / 16 with
  | 0 => some .none
  | 1 => some .disabled
  | 2 => some .iscsi32
  | 3 => some .xxhash64
  | 4 => some .sha192
  | 5 => some .freemap
  | _ => none

/-- What `hammer2_chain_testcheck` reads of a chain. -/
structure CheckChain where
  bref : FsckBref
  bytes : Nat
  notTested : Bool

/-- `hammer2_chain_testcheck`; `none` is the panic on an unknown method. -/
def chainTestcheck (chain : CheckChain) (bdata : Image) : Option Bool :=
  if chain.notTested = true then some true
  else
    match decCheck chain.bref.methods with
    | some .none => some true
    | some .disabled => some true
    | some .iscsi32 =>
      some (chain.bref.check.extractLsb' 0 32 == icrc32 (slice bdata 0 chain.bytes))
    | some .xxhash64 =>
      some (chain.bref.check.extractLsb' 0 64 == xxh64 (slice bdata 0 chain.bytes) xxhHammer2Seed)
    | some .sha192 =>
      let ctx := sha256Update sha256Init (slice bdata 0 chain.bytes)
      some (foldDigest (sha256Final ctx) == chain.bref.check.extractLsb' 0 192)
    | some .freemap =>
      some (chain.bref.check.extractLsb' 0 32 == icrc32 (slice bdata 0 chain.bytes))
    | none => none

/-- A chain that is loaded from the media: it is not new, and its data is not modified. -/
def FsckBref.chain (bref : FsckBref) (bytes : Nat) : CheckChain := ⟨bref, bytes, false⟩

/-- The userland copy of the loop of `crc32c`. -/
def crc32cRaw (crc : BitVec 32) (buf : List (BitVec 8)) : BitVec 32 := crc32c crc buf

def iscsiCrc32 (buf : List (BitVec 8)) : BitVec 32 := ~~~crc32cRaw (~~~0#32) buf

/-- fsck as CMake builds it: the CRC of `hammer2_user_subs.c`, the driver's `xxh64`, and no
`HAMMER2_USE_OPENSSL`. -/
def cmakeFsck (read : BitVec 64 → Option FsckMedia) : FsckImage where
  read := read
  icrc32 := fun buf bytes => iscsiCrc32 (slice buf 0 bytes)
  xxh64 := fun buf bytes => xxh64 (slice buf 0 bytes) xxhHammer2Seed
  sha192 := none

section Agree

variable (read : BitVec 64 → Option FsckMedia) (bref : FsckBref) (media : FsckMedia) (bytes : Nat)

theorem foldDigest_final (c : Sha256Ctx) : foldDigest (sha256Final c) = 0#192 := by
  unfold sha256Final
  decide

/-- The driver rejects no SHA192 block but those with a stored code that is not zero. -/
theorem chainTestcheck_sha192 (h : bref.methods.toNat / 16 = 4) :
    chainTestcheck (bref.chain bytes) media.buf = some false ↔
      bref.check.extractLsb' 0 192 ≠ 0#192 := by
  have hdec : decCheck bref.methods = some .sha192 := by
    simp only [decCheck, h]
  unfold chainTestcheck FsckBref.chain
  dsimp only
  rw [if_neg Bool.false_ne_true, hdec]
  dsimp only
  rw [foldDigest_final, Option.some.injEq, beq_eq_false_iff_ne, ne_comm]

/-- fsck tests no SHA192 block. -/
theorem checkFailed_sha192 (h : bref.methods.toNat / 16 = 4) :
    checkFailed (cmakeFsck read) bref media bytes = false := by
  simp only [checkFailed, h, cmakeFsck]

theorem bne_iff_beq {α : Type} [BEq α] (a b : α) : (a != b) = true ↔ some (a == b) = some false := by
  rw [bne, Bool.not_eq_true', Option.some.injEq]

/-- The switches agree on all other methods, and the unknown ones fail neither test. -/
theorem checkFailed_of_ne (h : bref.methods.toNat / 16 ≠ 4) :
    checkFailed (cmakeFsck read) bref media bytes = true ↔
      chainTestcheck (bref.chain bytes) media.buf = some false := by
  unfold checkFailed chainTestcheck decCheck FsckBref.chain
  dsimp only
  rw [if_neg Bool.false_ne_true]
  generalize bref.methods.toNat / 16 = method at h ⊢
  rcases method with _ | _ | _ | _ | _ | _ | method
  · simp
  · simp
  · exact bne_iff_beq _ _
  · exact bne_iff_beq _ _
  · exact absurd rfl h
  · exact bne_iff_beq _ _
  · simp

/-- fsck and the driver agree on a block unless its check code is a SHA192 that is not zero. -/
theorem fsck_agrees_with_driver_iff :
    (checkFailed (cmakeFsck read) bref media bytes = true ↔
        chainTestcheck (bref.chain bytes) media.buf = some false) ↔
      bref.methods.toNat / 16 ≠ 4 ∨ bref.check.extractLsb' 0 192 = 0#192 := by
  by_cases h : bref.methods.toNat / 16 = 4
  · rw [checkFailed_sha192 read bref media bytes h, chainTestcheck_sha192 bref media bytes h]
    simp [h]
  · have hagree := checkFailed_of_ne read bref media bytes h
    exact ⟨fun _ => Or.inl h, fun _ => hagree⟩

end Agree

/-- A data block whose check area holds a SHA192. -/
def sha192Bref : FsckBref where
  type := 3
  methods := 0x42
  dataOff := 0x100000a
  check := 1
  rest := 0

theorem driver_rejects_what_fsck_passes : ∃ media : FsckMedia,
    checkFailed (cmakeFsck fun _ => some media) sha192Bref media 1024 = false ∧
      chainTestcheck (sha192Bref.chain 1024) media.buf = some false := by
  refine ⟨⟨fun _ => 0, false, [], fun _ => sha192Bref, [], []⟩, ?_, ?_⟩
  · exact checkFailed_sha192 _ _ _ _ rfl
  · apply (chainTestcheck_sha192 _ _ _ rfl).mpr
    decide +kernel

end Hammer2
