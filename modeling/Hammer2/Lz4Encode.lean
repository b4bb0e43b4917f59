import Hammer2.Lz4Decode

/-! `LZ4_compress_limitedOutput` on a 64-bit little-endian machine. Pointers are offsets into the
source and into the output. -/

namespace Hammer2

open ByteImage ByteBuffer Lz4

def skipStrength : Nat := 6
def maxDistance : Nat := 65535
def lz4Limit64k : Nat := 2 ^ 16 + (mfLimit - 1)

/-- The `HASHTABLE_NBCELLS` cells of the context, each the offset of a position. -/
abbrev HashTable := Nat → BitVec 32

/-- `HashTable[h] = (CURRENT_H_TYPE)(p - base)` -/
def HashTable.record (table : HashTable) (h p : Nat) : HashTable :=
  Function.update table h (BitVec.ofNat 32 p)

/-- `LZ4_HASHVALUE`, with `HASHLOG` 12. -/
def hashValue (src : ByteBuffer) (p : Nat) : Option Nat :=
  (src.loadWord p 4).map fun w => w * 2654435761 % 2 ^ 32 / 2 ^ 20

/-- `A32(ref) == A32(ip)` and the like. -/
def sameWord (src : ByteBuffer) (n ref ip : Nat) : Option Bool :=
  (src.loadWord ref n).bind fun a => (src.loadWord ip n).map fun b => a == b

/-- `ref >= ip - MAX_DISTANCE && A32(ref) == A32(ip)` -/
def isMatch (src : ByteBuffer) (ref ip : Nat) : Option Bool :=
  if ref + maxDistance < ip then some false else sameWord src 4 ref ip

inductive Lz4Search
  | lastLiterals
  | found (ip ref : Nat) (table : HashTable)

/-- The loop that finds a match. -/
def findMatch (src : ByteBuffer) (mflimit : Nat) :
    Nat → Nat → Nat → Nat → HashTable → Option Lz4Search
  | 0, _, _, _, _ => none
  | fuel + 1, findMatchAttempts, ip, h, table => do
    let forwardIp := ip + findMatchAttempts / 2 ^ skipStrength
    if mflimit < forwardIp then some .lastLiterals
    else do
      let forwardH ← hashValue src forwardIp
      let ref := (table h).toNat
      let table := table.record h ip
      if ← isMatch src ref ip then some (.found ip ref table)
      else findMatch src mflimit fuel (findMatchAttempts + 1) forwardIp forwardH table

/-- The loop that moves a match back over the bytes before it; `ref` is the recursion. -/
def catchUp (src : ByteBuffer) (anchor : Nat) : Nat → Nat → Option (Nat × Nat)
  | 0, ip => some (0, ip)
  | ref + 1, ip =>
    if anchor < ip then
      (sameWord src 1 ref (ip - 1)).bind fun same =>
        if same then catchUp src anchor ref (ip - 1) else some (ref + 1, ip)
    else some (ref + 1, ip)

def nbCommonBytes (val : BitVec 64) : Nat := val.ctz.toNat / 2 ^ 3

/-- The loop over words of eight bytes. The result says whether it was left at a difference. -/
def countWords (src : ByteBuffer) (matchlimit : Nat) :
    Nat → Nat → Nat → Option (Nat × Nat × Bool)
  | 0, _, _ => none
  | fuel + 1, ref, ip =>
    if ip + (stepSize - 1) < matchlimit then do
      let a ← src.loadWord ref 8
      let b ← src.loadWord ip 8
      let diff := BitVec.ofNat 64 a ^^^ BitVec.ofNat 64 b
      if diff = 0 then countWords src matchlimit fuel (ref + stepSize) (ip + stepSize)
      else some (ref, ip + nbCommonBytes diff, true)
    else some (ref, ip, false)

/-- A last comparison of `n` bytes before `matchlimit`. -/
def countTail (src : ByteBuffer) (matchlimit n ref ip : Nat) : Option (Nat × Nat) :=
  if ip + (n - 1) < matchlimit then
    (sameWord src n ref ip).map fun same => if same then (ref + n, ip + n) else (ref, ip)
  else some (ref, ip)

/-- From "Start Counting" to `_endCount`: the end of the match. -/
def countMatch (src : ByteBuffer) (matchlimit ref ip : Nat) : Option Nat := do
  let (ref, ip, ended) ← countWords src matchlimit (matchlimit + 1) ref ip
  if ended then some ip
  else do
    let (ref, ip) ← countTail src matchlimit 4 ref ip
    let (ref, ip) ← countTail src matchlimit 2 ref ip
    let (_, ip) ← countTail src matchlimit 1 ref ip
    some ip

/-- `for(; len >= 255 ; len-=255) *op++ = 255; *op++ = (BYTE)len;` -/
def storeLength : Nat → ByteBuffer → Nat → Nat → Option (ByteBuffer × Nat)
  | 0, _, _, _ => none
  | fuel + 1, dst, op, len =>
    if 255 ≤ len then (dst.store op 255).bind fun dst => storeLength fuel dst (op + 1) (len - 255)
    else (dst.store op (BitVec.ofNat 8 len)).map fun dst => (dst, op + 1)

/-- The same in steps of 510. -/
def storeMatchLength : Nat → ByteBuffer → Nat → Nat → Option (ByteBuffer × Nat)
  | 0, _, _, _ => none
  | fuel + 1, dst, op, length =>
    if 509 < length then do
      let dst ← dst.store op 255
      let dst ← dst.store (op + 1) 255
      storeMatchLength fuel dst (op + 2) (length - 510)
    else if 255 ≤ length then do
      let dst ← dst.store op 255
      let dst ← dst.store (op + 1) (BitVec.ofNat 8 (length - 255))
      some (dst, op + 2)
    else do
      let dst ← dst.store op (BitVec.ofNat 8 length)
      some (dst, op + 1)

/-- The token of a run of literals and the rest of its length. -/
def storeRun (dst : ByteBuffer) (token length : Nat) : Option (ByteBuffer × Nat) :=
  if runMask ≤ length then
    (dst.store token (BitVec.ofNat 8 (runMask * 2 ^ mlBits))).bind fun dst =>
      storeLength (length + 1) dst (token + 1) (length - runMask)
  else
    (dst.store token (BitVec.ofNat 8 (length * 2 ^ mlBits))).map fun dst => (dst, token + 1)

/-- `*token += ...`, and the rest of the length of a match. -/
def storeMatch (dst : ByteBuffer) (token op length : Nat) : Option (ByteBuffer × Nat) := do
  let t ← dst.load token
  if mlMask ≤ length then do
    let dst ← dst.store token (t + BitVec.ofNat 8 mlMask)
    storeMatchLength (length + 1) dst op (length - mlMask)
  else do
    let dst ← dst.store token (t + BitVec.ofNat 8 length)
    some (dst, op)

/-- Where the compressor stands: at the top of the main loop, at `_next_match`, at
`_last_literals`, or at a `return 0`. -/
inductive Lz4Encoder
  | search (ip anchor op : Nat) (dst : ByteBuffer) (table : HashTable)
  | nextMatch (ip ref token op : Nat) (dst : ByteBuffer) (table : HashTable)
  | lastLiterals (anchor op : Nat) (dst : ByteBuffer)
  | full (dst : ByteBuffer)

def encodeSearch (src : ByteBuffer) (n oend ip anchor op : Nat) (dst : ByteBuffer)
    (table : HashTable) : Option Lz4Encoder := do
  let forwardH ← hashValue src ip
  match ← findMatch src (n - mfLimit) (n + 1) (2 ^ skipStrength + 3) ip forwardH table with
  | .lastLiterals => some (.lastLiterals anchor op dst)
  | .found ip ref table => do
    let (ref, ip) ← catchUp src anchor ref ip
    let length := ip - anchor
    if oend < op + 1 + length + (2 + 1 + lastLiterals) + length / 2 ^ 8 then some (.full dst)
    else do
      let (dst, run) ← storeRun dst op length
      let (dst, _, _) ← wildCopy (fun _ => src) (length + 1) dst anchor run (run + length)
      some (.nextMatch ip ref op (run + length) dst table)

def encodeMatch (src : ByteBuffer) (n oend ip ref token op : Nat) (dst : ByteBuffer)
    (table : HashTable) : Option Lz4Encoder := do
  let dst ← dst.storeWord op 2 (ip - ref)
  let op := op + 2
  let anchor := ip + minMatch
  let ip ← countMatch src (n - lastLiterals) (ref + minMatch) anchor
  let length := ip - anchor
  if oend < op + (1 + lastLiterals) + length / 2 ^ 8 then some (.full dst)
  else do
    let (dst, op) ← storeMatch dst token op length
    if n - mfLimit < ip then some (.lastLiterals ip op dst)
    else do
      let h2 ← hashValue src (ip - 2)
      let table := table.record h2 (ip - 2)
      let h ← hashValue src ip
      let ref := (table h).toNat
      let table := table.record h ip
      if ← isMatch src ref ip then do
        let dst ← dst.store op 0
        some (.nextMatch ip ref op (op + 1) dst table)
      else some (.search (ip + 1) ip op dst table)

def encodeLast (src : ByteBuffer) (n maxOutputSize anchor op : Nat) (dst : ByteBuffer) :
    Option (Nat × ByteBuffer) :=
  let lastRun := n - anchor
  if maxOutputSize < op + lastRun + 1 + (lastRun + 255 - runMask) / 255 then some (0, dst)
  else do
    let (dst, op) ← storeRun dst op lastRun
    let dst ← dst.copyFrom src anchor op (n - anchor)
    some (op + (n - anchor), dst)

def encodeLoop (src : ByteBuffer) (n oend : Nat) : Nat → Lz4Encoder → Option (Nat × ByteBuffer)
  | 0, _ => none
  | fuel + 1, .search ip anchor op dst table =>
    (encodeSearch src n oend ip anchor op dst table).bind (encodeLoop src n oend fuel)
  | fuel + 1, .nextMatch ip ref token op dst table =>
    (encodeMatch src n oend ip ref token op dst table).bind (encodeLoop src n oend fuel)
  | _ + 1, .lastLiterals anchor op dst => encodeLast src n oend anchor op dst
  | _ + 1, .full dst => some (0, dst)

/-- `LZ4_compress_heap_limitedOutput` -/
def lz4CompressHeapLimitedOutput (source dest : ByteBuffer) (inputSize maxOutputSize : Nat) :
    Option (Nat × ByteBuffer) :=
  if inputSize < minLength then encodeLast source inputSize maxOutputSize 0 0 dest
  else do
    let h ← hashValue source 0
    encodeLoop source inputSize maxOutputSize (2 * inputSize + 3)
      (.search 1 0 0 dest (HashTable.record (fun _ => 0) h 0))

/-- `LZ4_compress64k_heap_limitedOutput`, whose text is that of the other one: nothing in this
repository defines `COMPRESS_64K`. -/
def lz4Compress64kHeapLimitedOutput (source dest : ByteBuffer) (inputSize maxOutputSize : Nat) :
    Option (Nat × ByteBuffer) :=
  lz4CompressHeapLimitedOutput source dest inputSize maxOutputSize

/-- `LZ4_compress_limitedOutput`. `ctx` is whether `LZ4_create` finds memory; `none` is an access
outside the source or the output. -/
def lz4CompressLimitedOutput (ctx : Bool) (source dest : ByteBuffer)
    (inputSize maxOutputSize : Nat) : Option (Nat × ByteBuffer) :=
  if !ctx then some (0, dest)
  else if inputSize < lz4Limit64k then
    lz4Compress64kHeapLimitedOutput source dest inputSize maxOutputSize
  else lz4CompressHeapLimitedOutput source dest inputSize maxOutputSize

end Hammer2
