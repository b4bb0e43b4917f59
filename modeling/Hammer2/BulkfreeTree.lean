import Hammer2.BulkfreePass
import Hammer2.Recovery

namespace Hammer2

def errCheck : BitVec 32 := 0x2#32

def errAborted : BitVec 32 := 0x1000#32

def errEof : BitVec 32 := 0x2000#32

/-- The error ends the scan: `error & ~HAMMER2_ERROR_CHECK`. -/
def Fatal (error : BitVec 32) : Prop := error &&& ~~~errCheck ≠ 0

instance (error : BitVec 32) : Decidable (Fatal error) := inferInstanceAs (Decidable (_ ≠ _))

/-- The snapshot as the blocks that blockrefs name by their `data_off`, so that a subtree with
several parents is one block. `base` is the blockref array of a block (empty for an inode with
`HAMMER2_OPFLAG_DIRECTDATA`), `pfsroot` says that it is an inode with
`HAMMER2_BREF_FLAG_PFSROOT`, `error` is the `chain->error` that reading it sets. -/
structure BlockGraph where
  base : Extent → List Blockref
  pfsroot : Extent → Bool
  error : Extent → BitVec 32
  error_eof : ∀ x, error x &&& errEof = 0

/-- `data_off` of the volume chain, `0 | HAMMER2_PBUFRADIX`. -/
def volumeData : Extent := ⟨0, 16⟩

/-- The blockrefs that `hammer2_chain_scan` returns for the block, one after the other. -/
def BlockGraph.scan (graph : BlockGraph) (x : Extent) : List Blockref :=
  (chainScan ((graph.base x).map fun bref => Node.mk bref false [])).map Node.bref

/-- What the scan takes from its surroundings. `signal n` is the answer of `hammer2_signal_check` in
the `n`-th callback; `known n` says that the chain met there already has its data, and so its
error, although it was looked up with `HAMMER2_LOOKUP_NODATA`. -/
structure ScanEnv where
  hmp : Dev
  icrc32 : Extent → Nat
  signal : Nat → Bool
  known : Nat → Bool
  limitScanDepth : Int
  limitSavedChains : Int

structure DedupEntry where
  data : Extent
  ticks : BitVec 32
  savedError : BitVec 32

/-- The fields of `hammer2_bulkfree_info_t` that steer the scan. An element of `list` is the number
of its allocation with the block of its chain; `backout` is such a number. -/
structure BulkInfo where
  cb : Cbinfo
  dedup : Nat → DedupEntry
  depth : Nat
  pri : Nat
  list : List (Nat × Extent)
  listCount : Int
  backout : Option Nat
  saves : Nat
  calls : Nat
  signaled : Bool

/-- The loop of `h2_bulkfree_test` over the eight slots: the slot that holds `data`, or else the one
to replace. -/
def dedupProbe (dedup : Nat → DedupEntry) (data : Extent) : List Nat → Nat → Nat ⊕ Nat
  | [], best => .inr best
  | i :: rest, best =>
    if (dedup i).data = data then .inl i
    else dedupProbe dedup data rest (if (dedup i).ticks < (dedup best).ticks then i else best)

/-- `h2_bulkfree_test`, with the slots of `n & (HAMMER2_DEDUP_HEUR_MASK & ~7)`. -/
def bulkfreeTest (env : ScanEnv) (info : BulkInfo) (data : Extent) (pri : Nat)
    (savedError : BitVec 32) : BitVec 32 × BulkInfo :=
  let n := env.icrc32 data &&& 262136
  match dedupProbe info.dedup data (List.range' n 8) n with
  | .inl i =>
    let ticks := if (info.dedup i).ticks < BitVec.ofNat 32 pri then BitVec.ofNat 32 pri
      else (info.dedup i).ticks
    ((info.dedup i).savedError ||| errEof,
      { info with dedup := Function.update info.dedup i { info.dedup i with ticks := ticks } })
  | .inr best =>
    (0, { info with
      dedup := Function.update info.dedup best ⟨data, BitVec.ofNat 32 pri, savedError⟩ })

/-- `h2_bulkfree_callback` with its check for a signal, which it answers once. -/
def scanCallback (env : ScanEnv) (info : BulkInfo) (bref : Blockref) :
    Option (BitVec 32 × BulkInfo) :=
  let called := { info with calls := info.calls + 1 }
  if env.signal info.calls = true ∧ info.signaled = false then
    some (errAborted, { called with signaled := true })
  else
    match bulkfreeCallback env.hmp info.cb bref.type.code bref.data with
    | .ok cb => some (0, { called with cb := cb })
    | .error _ => none

/-- `list_add`: behind the element with the number `id`. -/
def insertAfter (id : Nat) (save : Nat × Extent) : List (Nat × Extent) → List (Nat × Extent)
  | [] => []
  | p :: rest => if p.1 = id then p :: save :: rest else p :: insertAfter id save rest

/-- The deferral of a chain: at the head of the list, or behind the last one while backing out. -/
def deferChain (info : BulkInfo) (data : Extent) : BulkInfo :=
  let save := (info.saves, data)
  { info with
    list := match info.backout with
      | some id => insertAfter id save info.list
      | none => save :: info.list
    backout := some info.saves
    saves := info.saves + 1
    listCount := info.listCount + 1
    pri := info.pri + 10 }

/-- Whether the chain has to be deferred instead of scanned on the spot. -/
def MustDefer (env : ScanEnv) (info : BulkInfo) : Prop :=
  16 < info.depth ∨ info.backout.isSome = true ∨
    env.limitScanDepth < info.depth ∧ env.limitSavedChains.shiftRight 2 ≤ info.listCount

instance (env : ScanEnv) (info : BulkInfo) : Decidable (MustDefer env info) :=
  inferInstanceAs (Decidable (_ ∨ _))

/-- The `switch` of the scan loop for a chain type that recurses: the error of a scan on the spot. -/
def scanChild (env : ScanEnv) (graph : BlockGraph)
    (scan : Extent → BulkInfo → Option (BitVec 32 × BulkInfo)) (info : BulkInfo) (data : Extent) :
    Option (BitVec 32 × BulkInfo) :=
  let deep := { info with depth := info.depth + 1 }
  if env.known deep.calls = true ∧ graph.error data &&& errCheck ≠ 0 then
    some (0, { deep with depth := deep.depth - 1 })
  else if MustDefer env deep then
    some (0, { deferChain deep data with depth := deep.depth - 1 })
  else
    (scan data { deep with pri := 0 }).map fun (e, next) =>
      (e, { next with depth := next.depth - 1, pri := next.pri + deep.pri })

/-- The local variables `error` and `rup_error` of `hammer2_bulkfree_scan` with its `info`. -/
structure LoopState where
  error : BitVec 32
  rup : BitVec 32
  info : BulkInfo

/-- One round of the loop of `hammer2_bulkfree_scan`, for a blockref that `hammer2_chain_scan` has
found unless the parent has an error; whether the loop breaks off, and the state after it. -/
def scanStep (env : ScanEnv) (graph : BlockGraph)
    (scan : Extent → BulkInfo → Option (BitVec 32 × BulkInfo)) (parent : Extent) (bref : Blockref)
    (st : LoopState) : Option (Bool × LoopState) :=
  let error := st.error ||| graph.error parent
  if Fatal error then some (true, { st with error := error })
  else if bref.data.off = 0 then some (false, { st with error := error })
  else
    match bulkfreeTest env { st.info with pri := st.info.pri + 1 } bref.data 1 0 with
    | (e2, info) =>
      if e2 ≠ 0 then some (false, ⟨error ||| (e2 &&& ~~~errEof), st.rup, info⟩)
      else
        (scanCallback env info bref).bind fun (e, info) =>
          if Fatal (error ||| e) then some (true, ⟨error ||| e, st.rup, info⟩)
          else if bref.type.recurses = false then some (false, ⟨error ||| e, st.rup, info⟩)
          else
            (scanChild env graph scan info bref.data).map fun (e', info) =>
              (decide ((st.rup ||| e') &&& errAborted ≠ 0), ⟨error ||| e, st.rup ||| e', info⟩)

/-- The loop of `hammer2_bulkfree_scan`. -/
def scanLoop (env : ScanEnv) (graph : BlockGraph)
    (scan : Extent → BulkInfo → Option (BitVec 32 × BulkInfo)) (parent : Extent) :
    List Blockref → LoopState → Option LoopState
  | [], st =>
    let e := if graph.error parent ≠ 0 then graph.error parent else errEof
    some { st with error := st.error ||| e }
  | bref :: rest, st =>
    match scanStep env graph scan parent bref st with
    | none => none
    | some (true, st) => some st
    | some (false, st) => scanLoop env graph scan parent rest st

/-- The rerun of the deferred chains of a PFS, up to the element that was at the head before it. -/
def replayPfs (scan : Extent → BulkInfo → Option (BitVec 32 × BulkInfo)) (tail : Option Nat) :
    Nat → LoopState → Option LoopState
  | 0, _ => none
  | fuel + 1, st =>
    if st.info.list.head?.map Prod.fst = tail then some st
    else
      match st.info.list with
      | [] => none
      | save :: rest =>
        (scan save.2 { st.info with
            list := rest
            backout := none
            listCount := st.info.listCount - 1
            pri := 0 }).bind fun (e, next) =>
          replayPfs scan tail fuel
            { st with rup := st.rup ||| e, info := { next with pri := st.info.pri } }

/-- `hammer2_bulkfree_scan`; `none` when the fuel runs out. -/
def hammer2BulkfreeScan (env : ScanEnv) (graph : BlockGraph) :
    Nat → Extent → BulkInfo → Option (BitVec 32 × BulkInfo)
  | 0, _, _ => none
  | fuel + 1, parent, info =>
    let tail := info.list.head?.map Prod.fst
    let start := { info with pri := info.pri + 1 }
    if graph.error parent &&& errCheck ≠ 0 then some (graph.error parent &&& ~~~errEof, start)
    else
      (scanLoop env graph (hammer2BulkfreeScan env graph fuel) parent (graph.scan parent)
          ⟨0, 0, start⟩).bind fun st =>
        (if graph.pfsroot parent = true then
            replayPfs (hammer2BulkfreeScan env graph fuel) tail (fuel + 1) st
          else some st).map fun st =>
          let error := (st.error ||| st.rup) &&& ~~~errEof
          (error, (bulkfreeTest env st.info parent (st.info.pri + 1) error).2)

/-- The loop of `hammer2_bulkfree_pass` over the list that the scan of the volume left. -/
def passReplay (env : ScanEnv) (graph : BlockGraph) (fuel : Nat) :
    Nat → BitVec 32 → BulkInfo → Option (BitVec 32 × BulkInfo)
  | 0, _, _ => none
  | n + 1, error, info =>
    match info.list with
    | [] => some (error, info)
    | save :: rest =>
      if Fatal error then some (error, info)
      else
        (hammer2BulkfreeScan env graph fuel save.2 { info with
            list := rest
            backout := none
            listCount := info.listCount - 1
            pri := 0 }).bind fun (e, next) => passReplay env graph fuel n (error ||| e) next

/-- What is left on the list after a fatal error is dropped. -/
def dropSaved (info : BulkInfo) : BulkInfo :=
  { info with list := [], listCount := info.listCount - info.list.length, backout := none }

/-- The scan of one window in `hammer2_bulkfree_pass`. -/
def bulkfreeWindow (env : ScanEnv) (graph : BlockGraph) (fuel : Nat) (error : BitVec 32)
    (info : BulkInfo) : Option (BitVec 32 × BulkInfo) :=
  (hammer2BulkfreeScan env graph fuel volumeData { info with pri := 0 }).bind fun (e, info) =>
    (passReplay env graph fuel fuel (error ||| e) info).map fun (error, info) =>
      (error, dropSaved info)

/-- The scan state with which a window starts: a fresh bitmap and an empty cache. -/
def windowInfo (hmp : Dev) (sbase sstop depth : Nat) : BulkInfo where
  cb := cbinfoBmapInit hmp sbase sstop
  dedup := fun _ => ⟨⟨0, 0⟩, 0, 0⟩
  depth := depth
  pri := 0
  list := []
  listCount := 0
  backout := none
  saves := 0
  calls := 0
  signaled := false

end Hammer2
