import Hammer2.ByteBuffer
import Hammer2.Lz4Block

/-! `LZ4_decompress_safe`: `LZ4_decompress_generic` that ends on the input size, has no prefix and
decodes the whole block. Pointers are offsets into the source and into the output. -/

namespace Hammer2

open ByteImage ByteBuffer Lz4

def copyLength : Nat := 8
def minMatch : Nat := 4
def lastLiterals : Nat := 5
def mfLimit : Nat := copyLength + minMatch
def minLength : Nat := mfLimit + 1
def mlBits : Nat := 4
def mlMask : Nat := 15
def runMask : Nat := 15
def stepSize : Nat := 8

def dec32Table (d : Nat) : Nat := [0, 3, 2, 3, 0, 0, 0, 0].getD d 0

def dec64Table (d : Nat) : Int := [0, 0, 0, -1, 0, 1, 2, 3].getD d 0

/-- `LZ4_WILDCOPY`, which copies eight bytes before it looks at the end. `src` is where it reads:
another buffer, or the one it stores into. -/
def wildCopy (src : ByteBuffer → ByteBuffer) :
    Nat → ByteBuffer → Nat → Nat → Nat → Option (ByteBuffer × Nat × Nat)
  | 0, _, _, _, _ => none
  | fuel + 1, dst, s, d, e =>
    (dst.copyFrom (src dst) s d 8).bind fun dst =>
      if d + 8 < e then wildCopy src fuel dst (s + 8) (d + 8) e else some (dst, s + 8, d + 8)

/-- The bytes behind a nibble of 15: as long as `ip` is `margin` before the end and the last byte
was 255. -/
def readLength (src : ByteBuffer) (margin iend : Nat) : Nat → Nat → Nat → Option (Nat × Nat)
  | 0, _, _ => none
  | fuel + 1, ip, length =>
    if ip + margin < iend then
      (src.load ip).bind fun s =>
        if s.toNat = 255 then readLength src margin iend fuel (ip + 1) (length + s.toNat)
        else some (ip + 1, length + s.toNat)
    else some (ip, length)

def nibbleLength (src : ByteBuffer) (margin iend ip nibble : Nat) : Option (Nat × Nat) :=
  if nibble = 15 then readLength src margin iend (iend + 1) ip nibble else some (ip, nibble)

/-- The first bytes of a match: eight of them, in pieces when it overlaps them. The result has the
new `ref` and `op`. -/
def copyMatchHead (dst : ByteBuffer) (ref op : Nat) : Option (ByteBuffer × Nat × Nat) :=
  if op - ref < stepSize then do
    let d := op - ref
    let dst ← dst.copyFrom dst ref op 1
    let dst ← dst.copyFrom dst (ref + 1) (op + 1) 1
    let dst ← dst.copyFrom dst (ref + 2) (op + 2) 1
    let dst ← dst.copyFrom dst (ref + 3) (op + 3) 1
    let ref := ref + 4 - dec32Table d
    let dst ← dst.copyFrom dst ref (op + 4) 4
    some (dst, (ref - dec64Table d).toNat, op + 4 + (stepSize - 4))
  else do
    let dst ← dst.copyFrom dst ref op 8
    some (dst, ref + 8, op + 8)

/-- `while(op<cpy) *op++=*ref++;` -/
def copyBytes : Nat → ByteBuffer → Nat → Nat → Nat → Option ByteBuffer
  | 0, _, _, _, _ => none
  | fuel + 1, dst, ref, op, cpy =>
    if op < cpy then (dst.copyFrom dst ref op 1).bind fun dst =>
      copyBytes fuel dst (ref + 1) (op + 1) cpy
    else some dst

/-- `LZ4_SECURECOPY` -/
def secureCopy (dst : ByteBuffer) (ref op e : Nat) : Option (ByteBuffer × Nat × Nat) :=
  if op < e then wildCopy id (e - op + 1) dst ref op e else some (dst, ref, op)

/-- The copy of a match of `length + 4` bytes; the result is the end of it, and `none` when it
reaches into the last literals. -/
def copyMatch (dst : ByteBuffer) (ref op length oend : Nat) :
    Option (Option Nat × ByteBuffer) := do
  let (dst, ref, op) ← copyMatchHead dst ref op
  let cpy := op + length - (stepSize - 4)
  if oend < cpy + copyLength + (stepSize - 4) then
    if oend < cpy + lastLiterals then some (none, dst)
    else do
      let (dst, ref, op) ← secureCopy dst ref op (oend - copyLength)
      let dst ← copyBytes (cpy - op + 1) dst ref op cpy
      some (some cpy, dst)
  else do
    let (dst, _, _) ← wildCopy id (cpy - op + 1) dst ref op cpy
    some (some cpy, dst)

/-- What a turn of the main loop comes to. -/
inductive Lz4Turn
  | next (ip op : Nat) (dst : ByteBuffer)
  | done (op : Nat) (dst : ByteBuffer)
  | error (ip : Nat) (dst : ByteBuffer)

/-- The offset and the match behind the literals of a sequence, which end at `cpy`. -/
def decodeMatch (src : ByteBuffer) (iend oend : Nat) (token : BitVec 8) (ip cpy : Nat)
    (dst : ByteBuffer) : Option Lz4Turn := do
  let offset ← src.loadWord ip 2
  let ip := ip + 2
  if cpy < offset then some (.error ip dst)
  else do
    let (ip, length) ← nibbleLength src (lastLiterals + 1) iend ip (token.toNat % 2 ^ mlBits)
    match ← copyMatch dst (cpy - offset) cpy length oend with
    | (some op, dst) => some (.next ip op dst)
    | (none, dst) => some (.error ip dst)

/-- A turn of the main loop of `LZ4_decompress_generic`. -/
def decodeTurn (src : ByteBuffer) (iend oend ip op : Nat) (dst : ByteBuffer) : Option Lz4Turn := do
  let token ← src.load ip
  let (ip, length) ← nibbleLength src 0 iend (ip + 1) (token.toNat / 2 ^ mlBits)
  let cpy := op + length
  if oend < cpy + mfLimit ∨ iend < ip + length + (2 + 1 + lastLiterals) then
    if ip + length ≠ iend ∨ oend < cpy then some (.error ip dst)
    else do
      let dst ← dst.copyFrom src ip op length
      some (.done (op + length) dst)
  else do
    let (dst, ip, op) ← wildCopy (fun _ => src) (cpy - op + 1) dst ip op cpy
    decodeMatch src iend oend token (ip - (op - cpy)) cpy dst

def decodeLoop (src : ByteBuffer) (iend oend : Nat) :
    Nat → Nat → Nat → ByteBuffer → Option (Int × ByteBuffer)
  | 0, _, _, _ => none
  | fuel + 1, ip, op, dst => do
    match ← decodeTurn src iend oend ip op dst with
    | .next ip op dst => decodeLoop src iend oend fuel ip op dst
    | .done op dst => some (op, dst)
    | .error ip dst => some (-(ip : Int) - 1, dst)

/-- `LZ4_decompress_safe`: the result and the output. `none` is an access outside the source or the
output. -/
def lz4DecompressSafe (source dest : ByteBuffer) (inputSize maxOutputSize : Nat) :
    Option (Int × ByteBuffer) :=
  if maxOutputSize = 0 then some (-1, dest)
  else decodeLoop source inputSize maxOutputSize (inputSize + 1) 0 0 dest

end Hammer2
