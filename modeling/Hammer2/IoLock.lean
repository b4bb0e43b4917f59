import Hammer2.Blockref
import Hammer2.CritSec
import Hammer2.DioCache
import Hammer2.Run

namespace Hammer2

open ByteImage

/-- The buffers of a device with the parts of them that `DioCache` leaves out: `dedup_alloc` and
`dedup_valid` by `pbase`, and `iohash_lock`. -/
structure IoDev where
  cache : IoCache
  dedup : Nat → BitVec 64 × BitVec 64
  iohashLock : CritSec

/-- `HAMMER2_DOP_READ`, `HAMMER2_DOP_NEW` and `HAMMER2_DOP_NEWNZ`, or `HAMMER2_DOP_READQ`. -/
inductive IoDop where
  | op (op : IoOp)
  | readq
deriving DecidableEq

/-- What can go wrong under `hammer2_io_getblk`: `kvmalloc` or `__bread`. -/
inductive IoFault where
  | none
  | nomem
  | io
deriving DecidableEq

/-- `hammer2_io_alloc` without `createit`; the outer `none` is a panic. -/
def ioAllocQuick (io : IoCache) (dataOff : Nat) : Option (Option IoCache) :=
  if ¬ IoLegal dataOff then none
  else some <| (io.lookup (ioPbase dataOff)).map fun dio =>
    { io.update dio.ref with
      iofreeCount := if dio.count = 0 then io.iofreeCount - 1 else io.iofreeCount }

/-- The dedup bits after `hammer2_io_alloc` with `createit`: a new dio is zeroed. -/
def dedupCreate (d : IoDev) (dataOff : Nat) : Nat → BitVec 64 × BitVec 64 :=
  if d.cache.lookup (ioPbase dataOff) = none then
    Function.update d.dedup (ioPbase dataOff) (0, 0)
  else d.dedup

/-- What `hammer2_io_getblk` does with the locked dio when the device or memory may fail. -/
def ioFillFault (dev : Image) (op : IoOp) (dataOff : Nat) (junk : Image) (fault : IoFault)
    (dio : Dio) : Option Dio :=
  if dio.good = true ∨ fault = .none then ioFill dev op dataOff junk dio
  else if dio.data.isSome then none
  else
    match fault with
    | .io =>
      -- a buffer that is overwritten as a whole is not read
      if op ≠ .read ∧ dio.pbase = ioLbase dataOff ∧ dioPsize = 2 ^ (dataOff % 64) then
        ioFill dev op dataOff junk dio
      else some { dio with data := some junk }
    | _ => some dio

/-- `hammer2_io_getblk` from the release of `iohash_lock` on. -/
def ioGetblkLocked (t : Nat) (d : IoDev) (op : IoOp) (dataOff : Nat) (junk : Image)
    (fault : IoFault) : Option (IoDev × Option Nat) :=
  (d.iohashLock.leave t).bind fun lock =>
    (d.cache.lookup (ioPbase dataOff)).bind fun dio =>
      (ioFillFault d.cache.dev op dataOff junk fault dio).map fun dio =>
        ({ d with cache := d.cache.update dio, iohashLock := lock }, some (ioPbase dataOff))

/-- `hammer2_io_getblk` with the lock. The result is the buffer's `pbase`, or NULL. -/
def ioGetblkLock (t : Nat) (d : IoDev) (op : IoDop) (dataOff : Nat) (junk : Image)
    (fault : IoFault) : Option (IoDev × Option Nat) :=
  (d.iohashLock.enter t).bind fun lock =>
    match op with
    | .readq =>
      (ioAllocQuick d.cache dataOff).bind fun
        | none => some ({ d with iohashLock := lock }, none)
        | some cache =>
          ioGetblkLocked t { d with cache := cache, iohashLock := lock } .read dataOff junk fault
    | .op op =>
      (ioAlloc d.cache dataOff).bind fun cache =>
        ioGetblkLocked t ⟨cache, dedupCreate d dataOff, lock⟩ op dataOff junk fault

/-- `hammer2_io_putblk` with the lock around the cleanup. -/
def ioPutblkLock (t : Nat) (limit : Int) (d : IoDev) (pbase : Nat) (how : IoPut)
    (evict : Nat → Bool) : Option IoDev :=
  (d.cache.lookup pbase).bind fun dio =>
    let dio := dio.setFlags how
    if dio.count = 0 then some { d with cache := d.cache.update dio }
    else if dio.count ≠ 1 then some { d with cache := d.cache.update dio.unref }
    else
      let io := ioLastdrop d.cache dio
      (d.iohashLock.enter t).bind fun lock =>
        let io := if dioLimit limit < io.iofreeCount then ioHashCleanup io evict else io
        (lock.leave t).map fun lock => { d with cache := io, iohashLock := lock }

def dedupFrag : Nat := 1024

/-- `hammer2_dedup_mask` -/
def dedupMask (pbase dataOff bytes : Nat) : BitVec 64 :=
  let bbeg := (ioLbase dataOff - pbase) / dedupFrag
  let bits := (bytes + (dedupFrag - 1)) / dedupFrag
  (if bbeg + bits = 64 then BitVec.allOnes 64 else (1#64 <<< (bbeg + bits)) - 1) &&&
    ~~~((1#64 <<< bbeg) - 1)

def IoDev.setDedup (d : IoDev) (pbase : Nat) (bits : BitVec 64 × BitVec 64) : IoDev :=
  { d with dedup := Function.update d.dedup pbase bits }

/-- `hammer2_io_dedup_set` -/
def ioDedupSet (t : Nat) (limit : Int) (d : IoDev) (dataOff : Nat) (evict : Nat → Bool) :
    Option IoDev :=
  (d.iohashLock.enter t).bind fun lock =>
    (ioAlloc d.cache dataOff).bind fun cache =>
      (lock.leave t).bind fun lock =>
        let d : IoDev := ⟨cache, dedupCreate d dataOff, lock⟩
        let pbase := ioPbase dataOff
        let mask := dedupMask pbase dataOff (ioLsize dataOff)
        let (alloc, valid) := d.dedup pbase
        ioPutblkLock t limit (d.setDedup pbase (alloc ||| mask, valid &&& ~~~mask)) pbase .putblk
          evict

/-- `hammer2_io_dedup_delete` -/
def ioDedupDelete (t : Nat) (limit : Int) (d : IoDev) (btype : BrefType) (dataOff bytes : Nat)
    (evict : Nat → Bool) : Option IoDev :=
  if ioLbase dataOff = 0 then some d
  else if btype ≠ .data then some d
  else
    (d.iohashLock.enter t).bind fun lock =>
      (ioAllocQuick d.cache dataOff).bind fun
        | some cache =>
          (lock.leave t).bind fun lock =>
            let pbase := ioPbase dataOff
            if dataOff < pbase ∨ pbase + dioPsize < ioLbase dataOff + bytes then none
            else
              let mask := dedupMask pbase dataOff bytes
              let (alloc, valid) := d.dedup pbase
              let d : IoDev := { d with cache := cache, iohashLock := lock }
              ioPutblkLock t limit (d.setDedup pbase (alloc &&& ~~~mask, valid &&& ~~~mask)) pbase
                .putblk evict
        | none => (lock.leave t).map fun lock => { d with iohashLock := lock }

/-- `hammer2_io_dedup_assert` -/
def ioDedupAssert (t : Nat) (limit : Int) (d : IoDev) (dataOff bytes : Nat)
    (evict : Nat → Bool) : Option IoDev :=
  (d.iohashLock.enter t).bind fun lock =>
    (ioAllocQuick d.cache dataOff).bind fun
      | some cache =>
        (lock.leave t).bind fun lock =>
          let pbase := ioPbase dataOff
          if (d.dedup pbase).1 &&& dedupMask pbase dataOff bytes = 0 then
            ioPutblkLock t limit { d with cache := cache, iohashLock := lock } pbase .putblk evict
          else none
      | none => (lock.leave t).map fun lock => { d with iohashLock := lock }

/-- `hammer2_io_hash_cleanup_all` as the unmount calls it. -/
def ioCleanupAllLock (t : Nat) (d : IoDev) : Option IoDev :=
  (d.iohashLock.enter t).bind fun lock =>
    (ioHashCleanupAll d.cache).bind fun cache =>
      (lock.leave t).map fun lock => { d with cache := cache, iohashLock := lock }

/-- The operations of `hammer2_io.c` that take `iohash_lock`. -/
inductive IoCall where
  | getblk (op : IoDop) (dataOff : Nat) (junk : Image) (fault : IoFault)
  | putblk (pbase : Nat) (how : IoPut) (evict : Nat → Bool)
  | dedupSet (dataOff : Nat) (evict : Nat → Bool)
  | dedupDelete (btype : BrefType) (dataOff bytes : Nat) (evict : Nat → Bool)
  | dedupAssert (dataOff bytes : Nat) (evict : Nat → Bool)
  | cleanupAll

/-- One call by thread `t`; `none` when it panics or waits for another thread. -/
def ioCall (limit : Int) (t : Nat) (d : IoDev) : IoCall → Option IoDev
  | .getblk op dataOff junk fault => (ioGetblkLock t d op dataOff junk fault).map Prod.fst
  | .putblk pbase how evict => ioPutblkLock t limit d pbase how evict
  | .dedupSet dataOff evict => ioDedupSet t limit d dataOff evict
  | .dedupDelete btype dataOff bytes evict => ioDedupDelete t limit d btype dataOff bytes evict
  | .dedupAssert dataOff bytes evict => ioDedupAssert t limit d dataOff bytes evict
  | .cleanupAll => ioCleanupAllLock t d

/-- The query for a buffer that is not there. -/
def queryMiss (d : IoDev) : IoCall → Bool
  | .getblk .readq dataOff _ _ => (d.cache.lookup (ioPbase dataOff)).isNone
  | _ => false

section Depth

variable {limit : Int} {t : Nat} {d d' : IoDev} {lock lock' : CritSec}

theorem ioGetblkLocked_lock {op : IoOp} {dataOff : Nat} {junk : Image} {fault : IoFault}
    {p : Option Nat} (henter : lock.enter t = some d.iohashLock)
    (h : ioGetblkLocked t d op dataOff junk fault = some (d', p)) :
    d'.iohashLock.depth = lock.depth := by
  obtain ⟨lock', hleave, h⟩ := Option.bind_eq_some_iff.mp h
  obtain ⟨dio, -, h⟩ := Option.bind_eq_some_iff.mp h
  obtain ⟨dio', -, heq⟩ := Option.map_eq_some_iff.mp h
  cases heq
  exact CritSec.leave_enter henter hleave

theorem ioGetblkLock_lock {op : IoDop} {dataOff : Nat} {junk : Image} {fault : IoFault}
    {p : Option Nat} (h : ioGetblkLock t d op dataOff junk fault = some (d', p)) :
    d'.iohashLock.depth = d.iohashLock.depth +
      if queryMiss d (.getblk op dataOff junk fault) then 1 else 0 := by
  obtain ⟨lock, henter, h⟩ := Option.bind_eq_some_iff.mp h
  cases op with
  | readq =>
    obtain ⟨r, hr, h⟩ := Option.bind_eq_some_iff.mp h
    have hr' := (Option.ite_none_left_eq_some.mp hr).2
    have hmiss : queryMiss d (.getblk .readq dataOff junk fault) =
        (d.cache.lookup (ioPbase dataOff)).isNone := rfl
    rw [hmiss]
    cases hlookup : d.cache.lookup (ioPbase dataOff) with
    | none =>
      rw [hlookup] at hr'
      cases hr'
      cases h
      show lock.depth = d.iohashLock.depth + 1
      rw [CritSec.enter_eq henter]
    | some dio =>
      rw [hlookup] at hr'
      cases hr'
      exact ioGetblkLocked_lock henter h
  | op op =>
    obtain ⟨cache, -, h⟩ := Option.bind_eq_some_iff.mp h
    exact ioGetblkLocked_lock henter h

theorem ioPutblkLock_lock {pbase : Nat} {how : IoPut} {evict : Nat → Bool}
    (h : ioPutblkLock t limit d pbase how evict = some d') :
    d'.iohashLock.depth = d.iohashLock.depth := by
  obtain ⟨dio, -, h⟩ := Option.bind_eq_some_iff.mp h
  dsimp only at h
  split at h
  next => cases h; rfl
  next =>
    split at h
    next => cases h; rfl
    next =>
      obtain ⟨lock, henter, h⟩ := Option.bind_eq_some_iff.mp h
      obtain ⟨lock', hleave, heq⟩ := Option.map_eq_some_iff.mp h
      cases heq
      exact CritSec.leave_enter henter hleave

theorem ioDedupSet_lock {dataOff : Nat} {evict : Nat → Bool}
    (h : ioDedupSet t limit d dataOff evict = some d') :
    d'.iohashLock.depth = d.iohashLock.depth := by
  obtain ⟨lock, henter, h⟩ := Option.bind_eq_some_iff.mp h
  obtain ⟨cache, -, h⟩ := Option.bind_eq_some_iff.mp h
  obtain ⟨lock', hleave, h⟩ := Option.bind_eq_some_iff.mp h
  exact (ioPutblkLock_lock h).trans (CritSec.leave_enter henter hleave)

theorem ioDedupDelete_lock {btype : BrefType} {dataOff bytes : Nat} {evict : Nat → Bool}
    (h : ioDedupDelete t limit d btype dataOff bytes evict = some d') :
    d'.iohashLock.depth = d.iohashLock.depth := by
  unfold ioDedupDelete at h
  split at h
  next => cases h; rfl
  next =>
    split at h
    next => cases h; rfl
    next =>
      obtain ⟨lock, henter, h⟩ := Option.bind_eq_some_iff.mp h
      obtain ⟨r, -, h⟩ := Option.bind_eq_some_iff.mp h
      cases r with
      | none =>
        obtain ⟨lock', hleave, heq⟩ := Option.map_eq_some_iff.mp h
        cases heq
        exact CritSec.leave_enter henter hleave
      | some cache =>
        obtain ⟨lock', hleave, h⟩ := Option.bind_eq_some_iff.mp h
        have hput := (Option.ite_none_left_eq_some.mp h).2
        exact (ioPutblkLock_lock hput).trans (CritSec.leave_enter henter hleave)

theorem ioDedupAssert_lock {dataOff bytes : Nat} {evict : Nat → Bool}
    (h : ioDedupAssert t limit d dataOff bytes evict = some d') :
    d'.iohashLock.depth = d.iohashLock.depth := by
  obtain ⟨lock, henter, h⟩ := Option.bind_eq_some_iff.mp h
  obtain ⟨r, -, h⟩ := Option.bind_eq_some_iff.mp h
  cases r with
  | none =>
    obtain ⟨lock', hleave, heq⟩ := Option.map_eq_some_iff.mp h
    cases heq
    exact CritSec.leave_enter henter hleave
  | some cache =>
    obtain ⟨lock', hleave, h⟩ := Option.bind_eq_some_iff.mp h
    have hput := (Option.ite_none_right_eq_some.mp h).2
    exact (ioPutblkLock_lock hput).trans (CritSec.leave_enter henter hleave)

theorem ioCleanupAllLock_lock (h : ioCleanupAllLock t d = some d') :
    d'.iohashLock.depth = d.iohashLock.depth := by
  obtain ⟨lock, henter, h⟩ := Option.bind_eq_some_iff.mp h
  obtain ⟨cache, -, h⟩ := Option.bind_eq_some_iff.mp h
  obtain ⟨lock', hleave, heq⟩ := Option.map_eq_some_iff.mp h
  cases heq
  exact CritSec.leave_enter henter hleave

/-- How deep a call leaves `iohash_lock`. -/
theorem ioCall_depth {call : IoCall} (h : ioCall limit t d call = some d') :
    d'.iohashLock.depth = d.iohashLock.depth + if queryMiss d call then 1 else 0 := by
  cases call with
  | getblk op dataOff junk fault =>
    obtain ⟨⟨d1, p⟩, hget, heq⟩ := Option.map_eq_some_iff.mp h
    cases heq
    exact ioGetblkLock_lock hget
  | putblk pbase how evict => exact ioPutblkLock_lock h
  | dedupSet dataOff evict => exact ioDedupSet_lock h
  | dedupDelete btype dataOff bytes evict => exact ioDedupDelete_lock h
  | dedupAssert dataOff bytes evict => exact ioDedupAssert_lock h
  | cleanupAll => exact ioCleanupAllLock_lock h

/-- A call made without `iohash_lock` returns without it unless it is a query that misses. -/
theorem ioCall_unlocks {call : IoCall} (hfree : d.iohashLock.Free)
    (h : ioCall limit t d call = some d') : d'.iohashLock.Free ↔ queryMiss d call = false := by
  have hdepth := ioCall_depth h
  unfold CritSec.Free at *
  rw [hdepth, hfree]
  cases queryMiss d call with
  | true => exact iff_of_false (by decide) (by decide)
  | false => exact iff_of_true rfl rfl

/-- Calls of any threads, one after another, none of them a query that misses. -/
theorem ioCalls_unlock (hfree : d.iohashLock.Free)
    (h : Run.Reach (fun d (call : Nat × IoCall) => ioCall limit call.1 d call.2)
      (fun d call => queryMiss d call.2 = false) d d') : d'.iohashLock.Free := by
  apply h.invariant (I := fun d => d.iohashLock.Free) hfree
  intro s call s' hs hmiss hstep
  have hdepth := ioCall_depth hstep
  rw [hmiss] at hdepth
  exact hdepth.trans hs

/-- Nothing undoes a query that missed: from then on the lock is held. -/
theorem ioCalls_held (hheld : ¬ d.iohashLock.Free)
    (h : Run.Reach (fun d (call : Nat × IoCall) => ioCall limit call.1 d call.2)
      (fun _ _ => True) d d') : ¬ d'.iohashLock.Free := by
  apply h.invariant (I := fun d => ¬ d.iohashLock.Free) hheld
  intro s call s' hs _ hstep hfree
  have hdepth := ioCall_depth hstep
  unfold CritSec.Free at hs hfree
  omega

end Depth

/-- The device before its first buffer. -/
def ioDevInit : IoDev := ⟨⟨fun _ => 0, [], 0⟩, fun _ => (0, 0), ⟨0, 0⟩⟩

theorem ioCall_unlocks_dedupAssert : CritSec.Free ioDevInit.iohashLock ∧
    queryMiss ioDevInit (.dedupAssert 65550 16384 fun _ => false) = false := by
  have hcall : ioCall 256 1 ioDevInit (.dedupAssert 65550 16384 fun _ => false) =
      some { ioDevInit with iohashLock := ⟨1, 0⟩ } := rfl
  have hfree : CritSec.Free ioDevInit.iohashLock := rfl
  exact ⟨hfree, (ioCall_unlocks hfree hcall).mp hfree⟩

/-- A query for a 16KB block whose buffer is not in the hash, as `hammer2_dedup_lookup` makes it
for a block recorded before the buffer was cleaned out, returns with the lock held. -/
theorem ioCall_query_keeps_lock : CritSec.Free ioDevInit.iohashLock ∧
    ∃ d', ioCall 256 1 ioDevInit (.getblk .readq 65550 (fun _ => 0) .none) = some d' ∧
      ¬ CritSec.Free d'.iohashLock := by
  refine ⟨rfl, { ioDevInit with iohashLock := ⟨1, 1⟩ }, rfl, ?_⟩
  decide

end Hammer2
