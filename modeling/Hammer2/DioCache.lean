import Hammer2.ByteImage
import Hammer2.CountWord
import Hammer2.KeyedList

/-! `hammer2_io.c`: the 64KB device buffers under the chains. -/

namespace Hammer2

open ByteImage KeyedList

def dioPsize : Nat := 65536

/-- A `hammer2_io`. The word `refs` holds the count of references and the flags. -/
structure Dio where
  pbase : Nat
  refs : BitVec 32
  data : Option Image

def dioGood : BitVec 32 := 0x40000000#32
def dioDirty : BitVec 32 := 0x10000000#32
def dioFlush : BitVec 32 := 0x08000000#32

/-- `dio->refs & HAMMER2_DIO_MASK`. -/
def Dio.count (dio : Dio) : Nat := CountWord.count 24 dio.refs

def Dio.good (dio : Dio) : Bool := dio.refs.getLsbD 30
def Dio.dirty (dio : Dio) : Bool := dio.refs.getLsbD 28
def Dio.flush (dio : Dio) : Bool := dio.refs.getLsbD 27

/-- `dio->refs++`. -/
def Dio.ref (dio : Dio) : Dio := { dio with refs := dio.refs + 1 }

/-- The device and the buffer cache over it: the dios of all hash chains, and `iofree_count`. -/
structure IoCache where
  dev : Image
  iohash : List Dio
  iofreeCount : Int

def IoCache.lookup (io : IoCache) (pbase : Nat) : Option Dio :=
  KeyedList.lookup Dio.pbase io.iohash pbase

def IoCache.update (io : IoCache) (dio : Dio) : IoCache :=
  { io with iohash := KeyedList.set Dio.pbase io.iohash dio }

/-- The parts of a `data_off`. -/
def ioLsize (dataOff : Nat) : Nat := if dataOff % 64 = 0 then 0 else 2 ^ (dataOff % 64)
def ioLbase (dataOff : Nat) : Nat := dataOff / 64 * 64
def ioPbase (dataOff : Nat) : Nat := ioLbase dataOff / dioPsize * dioPsize

/-- The range lies in one device buffer, and not in the first one. -/
def IoLegal (dataOff : Nat) : Prop :=
  ioPbase dataOff ≠ 0 ∧
    (ioLbase dataOff + ioLsize dataOff - 1) / dioPsize * dioPsize = ioPbase dataOff

instance (dataOff : Nat) : Decidable (IoLegal dataOff) := inferInstanceAs (Decidable (_ ∧ _))

/-- `hammer2_io_alloc` with `createit`; `none` is a panic. -/
def ioAlloc (io : IoCache) (dataOff : Nat) : Option IoCache :=
  if ¬ IoLegal dataOff then none
  else match io.lookup (ioPbase dataOff) with
    | some dio =>
      some { io.update dio.ref with
        iofreeCount := if dio.count = 0 then io.iofreeCount - 1 else io.iofreeCount }
    | none => some { io with iohash := io.iohash ++ [⟨ioPbase dataOff, 1, none⟩] }

inductive IoOp where
  | new
  | newnz
  | read
deriving DecidableEq

/-- `hammer2_dev_bread` of one buffer. -/
def devBread (dev : Image) (pbase : Nat) : Image := fun i => dev (pbase + i)

/-- `hammer2_dev_bwrite`. The buffer heads of this port are written by `sync_dirty_buffer` only. -/
def devBwrite (dev : Image) (pbase : Nat) (buf : Image) (sync : Bool) : Image :=
  if sync then fun x => if pbase ≤ x ∧ x < pbase + dioPsize then buf (x - pbase) else dev x
  else dev

def bzero (buf : Image) (off len : Nat) : Image := fun i =>
  if off ≤ i ∧ i < off + len then 0#8 else buf i

/-- What `hammer2_io_getblk` does with the locked dio; `junk` is what `kvmalloc` returns. -/
def ioFill (dev : Image) (op : IoOp) (dataOff : Nat) (junk : Image) (dio : Dio) : Option Dio :=
  let off := ioLbase dataOff - dio.pbase
  let lsize := 2 ^ (dataOff % 64)
  if dio.good then
    match op with
    | .new =>
      dio.data.map fun buf =>
        { dio with data := some (bzero buf off lsize), refs := dio.refs ||| dioDirty }
    | .newnz => some { dio with refs := dio.refs ||| dioDirty }
    | .read => some dio
  else if dio.data.isSome then none
  else
    let whole := dio.pbase = ioLbase dataOff ∧ dioPsize = lsize
    let buf := match op with
      | .new => if whole then fun _ => 0#8 else bzero (devBread dev dio.pbase) off lsize
      | .newnz => if whole then junk else devBread dev dio.pbase
      | .read => devBread dev dio.pbase
    let refs := if op = .read then dio.refs else dio.refs ||| dioDirty
    some { dio with data := some buf, refs := refs ||| dioGood }

/-- `hammer2_io_getblk` without device errors. -/
def ioGetblk (io : IoCache) (op : IoOp) (dataOff : Nat) (junk : Image) : Option IoCache :=
  (ioAlloc io dataOff).bind fun io =>
    (io.lookup (ioPbase dataOff)).bind fun dio =>
      (ioFill io.dev op dataOff junk dio).map io.update

/-- The dio after a modification of its buffer and `hammer2_io_setdirty`. -/
def Dio.modify (dio : Dio) (buf : Image) (bytes : Nat → Option (BitVec 8)) : Dio where
  pbase := dio.pbase
  refs := dio.refs ||| dioDirty
  data := some fun i => if i < dioPsize then (bytes i).getD (buf i) else buf i

def ioModify (io : IoCache) (pbase : Nat) (bytes : Nat → Option (BitVec 8)) : Option IoCache :=
  (io.lookup pbase).bind fun dio =>
    dio.data.map fun buf => io.update (dio.modify buf bytes)

/-- `hammer2_io_hash_cleanup`. Which of the free dios go depends on their age, so it is any of
them. -/
def ioHashCleanup (io : IoCache) (evict : Nat → Bool) : IoCache :=
  let gone := fun dio : Dio => dio.count = 0 ∧ evict dio.pbase = true
  { io with
    iohash := io.iohash.filter fun dio => ¬ gone dio
    iofreeCount := io.iofreeCount - io.iohash.countP fun dio => gone dio }

/-- `hammer2_io_putblk`, `hammer2_io_bdwrite`, and `hammer2_io_bawrite` or `hammer2_io_bwrite`. -/
inductive IoPut where
  | putblk
  | bdwrite
  | bwrite
deriving DecidableEq

def IoPut.flags : IoPut → BitVec 32
  | .putblk => 0
  | .bdwrite => dioDirty
  | .bwrite => dioDirty ||| dioFlush

/-- `hammer2_dio_limit` within its bounds. -/
def dioLimit (limit : Int) : Int := min (max limit 256) 1048576

def Dio.setFlags (dio : Dio) (how : IoPut) : Dio := { dio with refs := dio.refs ||| how.flags }

/-- `dio->refs--`. -/
def Dio.unref (dio : Dio) : Dio := { dio with refs := dio.refs - 1 }

/-- The dio after the drop of its last reference. -/
def Dio.dispose (dio : Dio) : Dio where
  pbase := dio.pbase
  refs := (dio.refs - 1) &&& ~~~(dioGood ||| dioDirty)
  data := none

/-- The device after the drop of the last reference. -/
def lastdropDev (dev : Image) (dio : Dio) : Image :=
  match dio.data with
  | some buf =>
    if dio.good ∧ dio.dirty then devBwrite dev dio.pbase buf dio.dispose.flush else dev
  | none => dev

def ioLastdrop (io : IoCache) (dio : Dio) : IoCache :=
  { io.update dio.dispose with
    dev := lastdropDev io.dev dio
    iofreeCount := io.iofreeCount + 1 }

def ioPutblk (limit : Int) (io : IoCache) (pbase : Nat) (how : IoPut) (evict : Nat → Bool) :
    Option IoCache :=
  (io.lookup pbase).map fun dio =>
    let dio := dio.setFlags how
    if dio.count = 0 then io.update dio
    else if dio.count ≠ 1 then io.update dio.unref
    else
      let io := ioLastdrop io dio
      if dioLimit limit < io.iofreeCount then ioHashCleanup io evict else io

/-- `hammer2_io_hash_cleanup_all`; `none` is a failed assertion. -/
def ioHashCleanupAll (io : IoCache) : Option IoCache :=
  if ∀ dio ∈ io.iohash, dio.count = 0 then
    some { io with iohash := [], iofreeCount := io.iofreeCount - io.iohash.length }
  else none

/-- The cache with what its users know: the handles they hold, and the bytes that they wrote last,
which are unknown for a range after `hammer2_io_newnz`. -/
structure IoSys where
  cache : IoCache
  handles : List Nat
  content : Nat → Option (BitVec 8)

inductive IoAction where
  | getblk (op : IoOp) (dataOff : Nat) (junk : Image)
  | modify (pbase : Nat) (bytes : Nat → Option (BitVec 8))
  | putblk (pbase : Nat) (how : IoPut) (evict : Nat → Bool)
  | cleanupAll

def InRange (dataOff x : Nat) : Prop :=
  ioLbase dataOff ≤ x ∧ x < ioLbase dataOff + 2 ^ (dataOff % 64)

instance (dataOff x : Nat) : Decidable (InRange dataOff x) := inferInstanceAs (Decidable (_ ∧ _))

/-- What a user knows about the bytes after an operation. -/
def getContent (op : IoOp) (dataOff : Nat) (content : Nat → Option (BitVec 8)) :
    Nat → Option (BitVec 8) := fun x =>
  match op with
  | .new => if InRange dataOff x then some 0#8 else content x
  | .newnz => if InRange dataOff x then none else content x
  | .read => content x

def modifyContent (pbase : Nat) (bytes : Nat → Option (BitVec 8))
    (content : Nat → Option (BitVec 8)) : Nat → Option (BitVec 8) := fun x =>
  if pbase ≤ x ∧ x < pbase + dioPsize then (bytes (x - pbase)).or (content x) else content x

/-- One operation. Users modify and put only the buffers they have a handle on. -/
def ioStep (limit : Int) (s : IoSys) : IoAction → Option IoSys
  | .getblk op dataOff junk =>
    (ioGetblk s.cache op dataOff junk).map fun io =>
      ⟨io, ioPbase dataOff :: s.handles, getContent op dataOff s.content⟩
  | .modify pbase bytes =>
    if pbase ∈ s.handles then
      (ioModify s.cache pbase bytes).map fun io =>
        ⟨io, s.handles, modifyContent pbase bytes s.content⟩
    else none
  | .putblk pbase how evict =>
    if pbase ∈ s.handles then
      (ioPutblk limit s.cache pbase how evict).map fun io =>
        ⟨io, s.handles.erase pbase, s.content⟩
    else none
  | .cleanupAll => (ioHashCleanupAll s.cache).map fun io => ⟨io, s.handles, s.content⟩

def ioRun (limit : Int) (as : List IoAction) (s : IoSys) : Option IoSys := as.foldlM (ioStep limit) s

/-- A mounted device that nobody has touched yet. -/
def ioInit (dev : Image) : IoSys := ⟨⟨dev, [], 0⟩, [], fun x => some (dev x)⟩

end Hammer2
