import Hammer2.ByteImage

namespace Hammer2

open ByteImage

/-- A `hammer2_blockref` as it lies on the media; `rest` are its remaining bytes. Two of them are
equal if `memcmp` finds no difference. -/
structure FsckBref where
  type : BitVec 8
  methods : BitVec 8
  dataOff : BitVec 64
  check : BitVec 512
  rest : BitVec 432
deriving DecidableEq

/-- `HAMMER2_BREF_TYPE_*`, and the types that no blockref has. -/
inductive FsckType where
  | empty
  | inode
  | indirect
  | data
  | dirent
  | freemapNode
  | freemapLeaf
  | freemap
  | volume
  | invalid
deriving DecidableEq

def FsckBref.kind (bref : FsckBref) : FsckType :=
  match bref.type.toNat with
  | 0 => .empty
  | 1 => .inode
  | 2 => .indirect
  | 3 => .data
  | 4 => .dirent
  | 5 => .freemapNode
  | 6 => .freemapLeaf
  | 254 => .freemap
  | 255 => .volume
  | _ => .invalid

/-- `hammer2_media_data_t`: the raw block and the parts of the union that a scan looks at. -/
structure FsckMedia where
  buf : Image
  directdata : Bool
  blockset : List FsckBref
  npdata : Nat → FsckBref
  srootBlockset : List FsckBref
  freemapBlockset : List FsckBref

/-- The volumes of the file system. `read` is what reading the block of a `data_off` gives, and
`sha192` is there if fsck is built with OpenSSL. -/
structure FsckImage where
  read : BitVec 64 → Option FsckMedia
  icrc32 : Image → Nat → BitVec 32
  xxh64 : Image → Nat → BitVec 64
  sha192 : Option (Image → Nat → BitVec 192)

/-- `CountEmpty`, `ForceOpt` and `BlockrefCacheCount`. -/
structure FsckOpts where
  countEmpty : Bool
  forceOpt : Bool
  blockrefCacheCount : Int

/-- The messages of `add_blockref_entry`. -/
inductive FsckMsg where
  | invalidType
  | badIoBytes
  | readFailed
  | badCheck (method : Nat)
deriving DecidableEq

structure DeltaStats where
  totalBlockref : BitVec 64 := 0
  totalEmpty : BitVec 64 := 0
  totalBytes : BitVec 64 := 0
  totalInode : BitVec 64 := 0
  totalIndirect : BitVec 64 := 0
  totalData : BitVec 64 := 0
  totalDirent : BitVec 64 := 0
  totalFreemapNode : BitVec 64 := 0
  totalFreemapLeaf : BitVec 64 := 0
  count : BitVec 64 := 0
deriving DecidableEq

/-- A `delta_stats_t` after `memset`. -/
def DeltaStats.zero : DeltaStats := {}

/-- The two trees of blockrefs that `blockref_stats_t` is made for. -/
inductive FsckTree where
  | volume
  | freemap
deriving DecidableEq

/-- `blockref_stats_t`. The words `u0` to `u3` are the union: inodes, indirect blocks, data and
directory entries, or freemap nodes and leaves in the first two. -/
structure BlockrefStats where
  root : List (FsckBref × FsckMsg) := []
  type : FsckTree
  totalBlockref : BitVec 64 := 0
  totalEmpty : BitVec 64 := 0
  totalBytes : BitVec 64 := 0
  u0 : BitVec 64 := 0
  u1 : BitVec 64 := 0
  u2 : BitVec 64 := 0
  u3 : BitVec 64 := 0
deriving DecidableEq

def initBlockrefStats (type : FsckTree) : BlockrefStats where
  type := type

/-- The `bstats` side of the counters that a visit raises; `count` is not among them. -/
def BlockrefStats.raise (bs : BlockrefStats) (d : DeltaStats) : BlockrefStats where
  root := bs.root
  type := bs.type
  totalBlockref := bs.totalBlockref + d.totalBlockref
  totalEmpty := bs.totalEmpty + d.totalEmpty
  totalBytes := bs.totalBytes + d.totalBytes
  u0 := bs.u0 + (d.totalInode + d.totalFreemapNode)
  u1 := bs.u1 + (d.totalIndirect + d.totalFreemapLeaf)
  u2 := bs.u2 + d.totalData
  u3 := bs.u3 + d.totalDirent

def BlockrefStats.addEntry (bs : BlockrefStats) (bref : FsckBref) (msg : FsckMsg) : BlockrefStats :=
  { bs with root := bs.root ++ [(bref, msg)] }

def loadDeltaStats (bs : BlockrefStats) (d : DeltaStats) : BlockrefStats :=
  let bs := { bs with
    totalBlockref := bs.totalBlockref + d.totalBlockref
    totalEmpty := bs.totalEmpty + d.totalEmpty
    totalBytes := bs.totalBytes + d.totalBytes }
  match bs.type with
  | .volume =>
    { bs with
      u0 := bs.u0 + d.totalInode
      u1 := bs.u1 + d.totalIndirect
      u2 := bs.u2 + d.totalData
      u3 := bs.u3 + d.totalDirent }
  | .freemap =>
    { bs with
      u0 := bs.u0 + d.totalFreemapNode
      u1 := bs.u1 + d.totalFreemapLeaf }

def accumulateDeltaStats (dst src : DeltaStats) : DeltaStats where
  totalBlockref := dst.totalBlockref + src.totalBlockref
  totalEmpty := dst.totalEmpty + src.totalEmpty
  totalBytes := dst.totalBytes + src.totalBytes
  totalInode := dst.totalInode + src.totalInode
  totalIndirect := dst.totalIndirect + src.totalIndirect
  totalData := dst.totalData + src.totalData
  totalDirent := dst.totalDirent + src.totalDirent
  totalFreemapNode := dst.totalFreemapNode + src.totalFreemapNode
  totalFreemapLeaf := dst.totalFreemapLeaf + src.totalFreemapLeaf
  count := dst.count + src.count

/-- What a visit adds for the type of its blockref. -/
def typeDelta (opts : FsckOpts) : FsckType → DeltaStats
  | .empty => if opts.countEmpty then { totalBlockref := 1, totalEmpty := 1 } else {}
  | .inode => { totalBlockref := 1, totalInode := 1 }
  | .indirect => { totalBlockref := 1, totalIndirect := 1 }
  | .data => { totalBlockref := 1, totalData := 1 }
  | .dirent => { totalBlockref := 1, totalDirent := 1 }
  | .freemapNode => { totalBlockref := 1, totalFreemapNode := 1 }
  | .freemapLeaf => { totalBlockref := 1, totalFreemapLeaf := 1 }
  | .volume => {}
  | .freemap => {}
  | .invalid => { totalBlockref := 1 }

/-- The size of the block behind a `data_off`. -/
def mediaBytes (dataOff : BitVec 64) : Nat :=
  if dataOff.toNat % 64 = 0 then 0 else 2 ^ (dataOff.toNat % 64)

/-- The loop of `read_media` that doubles the size of the buffer. -/
def ioBytes (boff bytes : Nat) : Nat → Nat → Nat
  | 0, io => io
  | fuel + 1, io => if io + boff < bytes then ioBytes boff bytes fuel (2 * io) else io

inductive ReadMedia where
  | noData
  | badIoBytes
  | failed
  | ok (media : FsckMedia)

/-- `read_media`, with the 16KB of `HAMMER2_LBUFSIZE` and the 64KB of `hammer2_media_data_t`. -/
def readMedia (img : FsckImage) (dataOff : BitVec 64) : ReadMedia :=
  if mediaBytes dataOff = 0 then .noData
  else if 65536 < ioBytes (dataOff.toNat / 64 * 64 % 16384) (mediaBytes dataOff) 64 16384 then
    .badIoBytes
  else match img.read dataOff with
    | none => .failed
    | some media => .ok media

/-- The comparison of the check code; the methods that are not listed check nothing. -/
def checkFailed (img : FsckImage) (bref : FsckBref) (media : FsckMedia) (bytes : Nat) : Bool :=
  match bref.methods.toNat / 16 with
  | 2 => bref.check.extractLsb' 0 32 != img.icrc32 media.buf bytes
  | 3 => bref.check.extractLsb' 0 64 != img.xxh64 media.buf bytes
  | 4 => match img.sha192 with
    | none => false
    | some sha192 => bref.check.extractLsb' 0 192 != sha192 media.buf bytes
  | 5 => bref.check.extractLsb' 0 32 != img.icrc32 media.buf bytes
  | _ => false

/-- `bscan` and `bcount`. -/
def mediaTable (type : FsckType) (media : FsckMedia) (bytes : Nat) : List FsckBref :=
  match type with
  | .inode => if media.directdata then [] else media.blockset
  | .indirect => (List.range (bytes / 128)).map media.npdata
  | .freemapNode => (List.range (bytes / 128)).map media.npdata
  | .volume => media.srootBlockset
  | .freemap => media.freemapBlockset
  | _ => []

/-- The return values of `verify_blockref`, and a failed assertion. -/
inductive Verdict where
  | ok
  | fail
  | abort
deriving DecidableEq

/-- What `verify_blockref` changes through its arguments besides `dstats`. -/
structure FsckState where
  bstats : BlockrefStats
  droot : List (FsckBref × DeltaStats)

/-- The search of the delta cache. -/
def findDelta (droot : List (FsckBref × DeltaStats)) (bref : FsckBref) : Option DeltaStats :=
  if bref.dataOff = 0 then none
  else (droot.find? fun m => m.1 = bref).map Prod.snd

/-- The loop over the children, which `v` verifies with a cleared `ds`. -/
def scanTable (v : FsckBref → FsckState → Option (Verdict × FsckState × DeltaStats)) (failed : Bool) :
    List FsckBref → FsckState → DeltaStats → Option (Verdict × FsckState × DeltaStats)
  | [], st, ds => some (.ok, st, ds)
  | bref :: bscan, st, ds =>
    match v bref st with
    | none => none
    | some (.ok, st, d) =>
      scanTable v failed bscan st (if failed then ds else accumulateDeltaStats ds d)
    | some (r, st, _) => some (r, st, ds)

/-- The code from the label `end` on. -/
def verifyEnd (opts : FsckOpts) (bref : FsckBref) (failed : Bool) (bytes : Nat) (st : FsckState)
    (ds : DeltaStats) : Verdict × FsckState × DeltaStats :=
  if failed then (.fail, st, ds)
  else
    let ds := { ds with count := ds.count + 1 }
    if bref.dataOff ≠ 0 ∧ 0 < opts.blockrefCacheCount ∧ opts.blockrefCacheCount ≤ ds.count.toInt then
      if bytes = 0 then (.abort, st, ds)
      else (.ok, { st with droot := st.droot ++ [(bref, ds)] }, ds)
    else (.ok, st, ds)

/-- What the block of a visited blockref adds to the totals. -/
def bytesDelta (bref : FsckBref) : DeltaStats :=
  if bref.kind = .volume ∨ bref.kind = .freemap then {}
  else { totalBytes := BitVec.ofNat 64 (mediaBytes bref.dataOff) }

def FsckState.addEntry (st : FsckState) (bref : FsckBref) (msg : FsckMsg) : FsckState :=
  { st with bstats := st.bstats.addEntry bref msg }

def FsckState.raise (st : FsckState) (d : DeltaStats) : FsckState :=
  { st with bstats := st.bstats.raise d }

/-- An entry for the message if the test failed. -/
def FsckState.report (st : FsckState) (failed : Bool) (bref : FsckBref) (msg : FsckMsg) : FsckState :=
  if failed then st.addEntry bref msg else st

/-- `verify_blockref` after a cache miss; `v` verifies a child, the flag is its `norecurse`. -/
def visitBlockref (opts : FsckOpts) (img : FsckImage)
    (v : FsckBref → Bool → FsckState → Option (Verdict × FsckState × DeltaStats)) (bref : FsckBref)
    (norecurse : Bool) (st : FsckState) (ds : DeltaStats) :
    Option (Verdict × FsckState × DeltaStats) :=
  let invalid := decide (bref.kind = .invalid)
  let st := (st.raise (typeDelta opts bref.kind)).report invalid bref .invalidType
  let ds := accumulateDeltaStats ds (typeDelta opts bref.kind)
  match readMedia img bref.dataOff with
  | .badIoBytes => some (.fail, st.addEntry bref .badIoBytes, ds)
  | .failed => some (.fail, st.addEntry bref .readFailed, ds)
  | .noData => some (verifyEnd opts bref invalid 0 st ds)
  | .ok media =>
    let bytes := mediaBytes bref.dataOff
    let st := st.raise (bytesDelta bref)
    let ds := accumulateDeltaStats ds (bytesDelta bref)
    -- the assertion that an empty blockref has no storage
    if opts.countEmpty = false ∧ bref.kind = .empty then some (.abort, st, ds)
    else
      let bad := checkFailed img bref media bytes
      let failed := invalid || bad
      let st := st.report bad bref (.badCheck (bref.methods.toNat / 16))
      let table := if norecurse && !opts.forceOpt then [] else mediaTable bref.kind media bytes
      match scanTable (fun c st => v c failed st) failed table st ds with
      | none => none
      | some (.ok, st, ds) => some (verifyEnd opts bref failed bytes st ds)
      | some (r, st, ds) => some (r, st, ds)

/-- `verify_blockref` with as many frames of stack as the first argument; it is `none` if they are
used up. -/
def verifyBlockref (opts : FsckOpts) (img : FsckImage) :
    Nat → FsckBref → Bool → FsckState → DeltaStats → Option (Verdict × FsckState × DeltaStats)
  | 0, _, _, _, _ => none
  | fuel + 1, bref, norecurse, st, ds =>
    match findDelta st.droot bref with
    | some d =>
      some (.ok, { st with bstats := loadDeltaStats st.bstats d }, accumulateDeltaStats ds d)
    | none =>
      visitBlockref opts img (fun c failed st => verifyBlockref opts img fuel c failed st .zero)
        bref norecurse st ds

/-- `init_root_blockref`. -/
def initRootBlockref (type : FsckTree) (i : Nat) : FsckBref where
  type := match type with
    | .volume => 255
    | .freemap => 254
  methods := 0
  dataOff := BitVec.ofNat 64 (i * 2147483648 + 16)
  check := 0
  rest := 0

section Deltas

theorem accumulate_assoc (a b c : DeltaStats) :
    accumulateDeltaStats (accumulateDeltaStats a b) c =
      accumulateDeltaStats a (accumulateDeltaStats b c) := by
  simp [accumulateDeltaStats, BitVec.add_assoc]

theorem raise_raise (bs : BlockrefStats) (a b : DeltaStats) :
    (bs.raise a).raise b = bs.raise (accumulateDeltaStats a b) := by
  simp only [BlockrefStats.raise, accumulateDeltaStats, BlockrefStats.mk.injEq, true_and]
  refine ⟨?_, ?_, ?_, ?_, ?_, ?_, ?_⟩ <;> ac_rfl

end Deltas

/-- The blockrefs below a blockref. -/
def brefTable (img : FsckImage) (bref : FsckBref) : List FsckBref :=
  match readMedia img bref.dataOff with
  | .ok media => mediaTable bref.kind media (mediaBytes bref.dataOff)
  | _ => []

/-- The failures of a blockref that still have its children verified. -/
def brefFailed (img : FsckImage) (bref : FsckBref) : Bool :=
  decide (bref.kind = .invalid) ||
    match readMedia img bref.dataOff with
    | .ok media => checkFailed img bref media (mediaBytes bref.dataOff)
    | _ => false

/-- What a blockref and its block add themselves. -/
def ownDelta (opts : FsckOpts) (img : FsckImage) (bref : FsckBref) : DeltaStats :=
  match readMedia img bref.dataOff with
  | .ok _ => accumulateDeltaStats (typeDelta opts bref.kind) (bytesDelta bref)
  | _ => typeDelta opts bref.kind

/-- The verdict of a visit that does not come to the children. -/
def brefStop (opts : FsckOpts) (img : FsckImage) (bref : FsckBref) : Option Verdict :=
  match readMedia img bref.dataOff with
  | .badIoBytes => some .fail
  | .failed => some .fail
  | .noData => none
  | .ok _ => if opts.countEmpty = false ∧ bref.kind = .empty then some .abort else none

/-- The messages for a blockref. -/
def ownMsgs (opts : FsckOpts) (img : FsckImage) (bref : FsckBref) : List (FsckBref × FsckMsg) :=
  (if bref.kind = .invalid then [(bref, .invalidType)] else []) ++
    match readMedia img bref.dataOff with
    | .badIoBytes => [(bref, .badIoBytes)]
    | .failed => [(bref, .readFailed)]
    | .noData => []
    | .ok media =>
      if brefStop opts img bref = none ∧ checkFailed img bref media (mediaBytes bref.dataOff) then
        [(bref, .badCheck (bref.methods.toNat / 16))]
      else []

def FsckState.addEntries (st : FsckState) (msgs : List (FsckBref × FsckMsg)) : FsckState :=
  { st with bstats := { st.bstats with root := st.bstats.root ++ msgs } }

@[simp]
theorem FsckState.addEntries_nil (st : FsckState) : st.addEntries [] = st := by
  simp [FsckState.addEntries]

theorem FsckState.addEntries_addEntries (st : FsckState) (a b : List (FsckBref × FsckMsg)) :
    (st.addEntries a).addEntries b = st.addEntries (a ++ b) := by
  simp [FsckState.addEntries]

theorem FsckState.addEntries_raise (st : FsckState) (msgs : List (FsckBref × FsckMsg))
    (d : DeltaStats) : (st.addEntries msgs).raise d = (st.raise d).addEntries msgs :=
  rfl

theorem FsckState.raise_raise (st : FsckState) (a b : DeltaStats) :
    (st.raise a).raise b = st.raise (accumulateDeltaStats a b) := by
  simp [FsckState.raise, Hammer2.raise_raise]

theorem FsckState.report_eq (st : FsckState) (failed : Bool) (bref : FsckBref) (msg : FsckMsg) :
    st.report failed bref msg = st.addEntries (if failed then [(bref, msg)] else []) := by
  cases failed <;> simp [FsckState.report, FsckState.addEntry, BlockrefStats.addEntry,
    FsckState.addEntries]

/-- The state after the visit of the blockref itself. -/
def FsckState.visit (st : FsckState) (opts : FsckOpts) (img : FsckImage) (bref : FsckBref) :
    FsckState :=
  (st.raise (ownDelta opts img bref)).addEntries (ownMsgs opts img bref)

/-- The blockrefs that a visit goes on to. -/
def scannedTable (opts : FsckOpts) (img : FsckImage) (bref : FsckBref) (norecurse : Bool) : List FsckBref :=
  if norecurse && !opts.forceOpt then [] else brefTable img bref

theorem readMedia_noData {img : FsckImage} {dataOff : BitVec 64}
    (h : readMedia img dataOff = .noData) : mediaBytes dataOff = 0 := by
  unfold readMedia at h
  by_contra hbytes
  rw [if_neg hbytes] at h
  split at h
  · cases h
  · split at h <;> cases h

/-- A visit is the blockref itself, the loop over its children and the end. -/
theorem visitBlockref_eq (opts : FsckOpts) (img : FsckImage)
    (v : FsckBref → Bool → FsckState → Option (Verdict × FsckState × DeltaStats)) (bref : FsckBref)
    (norecurse : Bool) (st : FsckState) (ds : DeltaStats) :
    visitBlockref opts img v bref norecurse st ds =
      match brefStop opts img bref with
      | some r =>
        some (r, st.visit opts img bref, accumulateDeltaStats ds (ownDelta opts img bref))
      | none =>
        match scanTable (fun c st => v c (brefFailed img bref) st) (brefFailed img bref)
            (scannedTable opts img bref norecurse) (st.visit opts img bref)
            (accumulateDeltaStats ds (ownDelta opts img bref)) with
        | none => none
        | some (.ok, st, ds) =>
          some (verifyEnd opts bref (brefFailed img bref) (mediaBytes bref.dataOff) st ds)
        | some (r, st, ds) => some (r, st, ds) := by
  unfold visitBlockref
  simp only [FsckState.report_eq]
  cases hread : readMedia img bref.dataOff with
  | badIoBytes =>
    have hvisit : st.visit opts img bref = (st.raise (typeDelta opts bref.kind)).addEntries
        ((if bref.kind = .invalid then [(bref, .invalidType)] else []) ++ [(bref, .badIoBytes)]) := by
      simp [FsckState.visit, ownMsgs, ownDelta, hread]
    simp only [hvisit, brefStop, ownDelta, hread, ← FsckState.addEntries_addEntries]
    simp [FsckState.addEntry, BlockrefStats.addEntry, FsckState.addEntries]
  | failed =>
    have hvisit : st.visit opts img bref = (st.raise (typeDelta opts bref.kind)).addEntries
        ((if bref.kind = .invalid then [(bref, .invalidType)] else []) ++ [(bref, .readFailed)]) := by
      simp [FsckState.visit, ownMsgs, ownDelta, hread]
    simp only [hvisit, brefStop, ownDelta, hread, ← FsckState.addEntries_addEntries]
    simp [FsckState.addEntry, BlockrefStats.addEntry, FsckState.addEntries]
  | noData =>
    have hbytes : mediaBytes bref.dataOff = 0 := readMedia_noData hread
    have hscan : scannedTable opts img bref norecurse = [] := by simp [scannedTable, brefTable, hread]
    have hvisit : st.visit opts img bref = (st.raise (typeDelta opts bref.kind)).addEntries
        (if bref.kind = .invalid then [(bref, .invalidType)] else []) := by
      simp [FsckState.visit, ownMsgs, ownDelta, hread]
    simp [hvisit, ownDelta, brefStop, brefFailed, hread, hbytes, hscan, scanTable]
  | ok media =>
    have hscan : scannedTable opts img bref norecurse =
        if norecurse && !opts.forceOpt then []
        else mediaTable bref.kind media (mediaBytes bref.dataOff) := by
      simp [scannedTable, brefTable, hread]
    have hfailed : brefFailed img bref = (decide (bref.kind = .invalid) ||
        checkFailed img bref media (mediaBytes bref.dataOff)) := by
      simp [brefFailed, hread]
    have hown : ownDelta opts img bref =
        accumulateDeltaStats (typeDelta opts bref.kind) (bytesDelta bref) := by
      simp [ownDelta, hread]
    by_cases hempty : opts.countEmpty = false ∧ bref.kind = .empty
    · have hstop : brefStop opts img bref = some .abort := by simp [brefStop, hread, hempty]
      have hmsgs : ownMsgs opts img bref = [] := by simp [ownMsgs, hread, hstop, hempty.2]
      simp [hempty, hstop, hown, FsckState.visit, hmsgs, FsckState.raise_raise, accumulate_assoc]
    · have hstop : brefStop opts img bref = none := by simp [brefStop, hread, hempty]
      have hmsgs : ownMsgs opts img bref =
          (if decide (bref.kind = .invalid) then [(bref, .invalidType)] else []) ++
            if checkFailed img bref media (mediaBytes bref.dataOff) then
              [(bref, .badCheck (bref.methods.toNat / 16))]
            else [] := by
        simp [ownMsgs, hread, hstop]
      simp only [hempty, if_false, hstop, FsckState.visit, hmsgs, hown, hfailed, hscan,
        accumulate_assoc, FsckState.addEntries_raise, FsckState.raise_raise,
        FsckState.addEntries_addEntries]

section Uncached

variable {opts : FsckOpts} {img : FsckImage}

theorem scanTable_mono {v w : FsckBref → FsckState → Option (Verdict × FsckState × DeltaStats)}
    {failed : Bool} {table : List FsckBref} {st : FsckState} {ds : DeltaStats}
    {res : Verdict × FsckState × DeltaStats} (hvw : ∀ c st r, v c st = some r → w c st = some r)
    (h : scanTable v failed table st ds = some res) : scanTable w failed table st ds = some res := by
  induction table generalizing st ds with
  | nil => exact h
  | cons c table ih =>
    unfold scanTable at h ⊢
    cases hv : v c st with
    | none => simp [hv] at h
    | some r =>
      obtain ⟨verdict, st', d⟩ := r
      rw [hvw c st _ hv]
      rw [hv] at h
      cases verdict with
      | ok => exact ih h
      | fail => exact h
      | abort => exact h

theorem visitBlockref_mono
    {v w : FsckBref → Bool → FsckState → Option (Verdict × FsckState × DeltaStats)}
    {bref : FsckBref} {norecurse : Bool} {st : FsckState} {ds : DeltaStats}
    {res : Verdict × FsckState × DeltaStats} (hvw : ∀ c f st r, v c f st = some r → w c f st = some r)
    (h : visitBlockref opts img v bref norecurse st ds = some res) :
    visitBlockref opts img w bref norecurse st ds = some res := by
  rw [visitBlockref_eq] at h ⊢
  cases hstop : brefStop opts img bref with
  | some r => simpa [hstop] using h
  | none =>
    simp only [hstop] at h ⊢
    cases hscan : scanTable (fun c st => v c (brefFailed img bref) st) (brefFailed img bref)
        (scannedTable opts img bref norecurse) (st.visit opts img bref)
        (accumulateDeltaStats ds (ownDelta opts img bref)) with
    | none => simp [hscan] at h
    | some r =>
      rw [scanTable_mono (fun c st r => hvw c _ st r) hscan]
      rwa [hscan] at h

/-- More stack does not change what a run returns. -/
theorem verifyBlockref_mono {fuel g : Nat} {bref : FsckBref} {norecurse : Bool} {st : FsckState}
    {ds : DeltaStats} {res : Verdict × FsckState × DeltaStats} (hle : fuel ≤ g)
    (h : verifyBlockref opts img fuel bref norecurse st ds = some res) :
    verifyBlockref opts img g bref norecurse st ds = some res := by
  induction fuel generalizing g bref norecurse st ds res with
  | zero => cases h
  | succ fuel ih =>
    obtain ⟨g, rfl⟩ : ∃ k, g = k + 1 := ⟨g - 1, by omega⟩
    unfold verifyBlockref at h ⊢
    cases hfind : findDelta st.droot bref with
    | some d => simpa [hfind] using h
    | none =>
      simp only [hfind] at h ⊢
      exact visitBlockref_mono (fun c f st r hv => ih (by omega) hv) h

theorem brefStop_ne_ok {bref : FsckBref} : brefStop opts img bref ≠ some .ok := by
  unfold brefStop
  cases readMedia img bref.dataOff with
  | badIoBytes => simp
  | failed => simp
  | noData => simp
  | ok media =>
    simp only
    split <;> simp

theorem findDelta_nil (bref : FsckBref) : findDelta [] bref = none := by
  simp [findDelta]

end Uncached

section Transparent

variable {opts : FsckOpts} {img : FsckImage} {type : FsckTree} {roots : List FsckBref}

theorem findDelta_mem {droot : List (FsckBref × DeltaStats)} {bref : FsckBref} {d : DeltaStats}
    (h : findDelta droot bref = some d) : ∃ m ∈ droot, m.1 = bref ∧ m.2 = d := by
  unfold findDelta at h
  split at h
  · cases h
  · obtain ⟨m, hm, hd⟩ := Option.map_eq_some_iff.mp h
    exact ⟨m, List.mem_of_find?_eq_some hm, by simpa using List.find?_some hm, hd⟩

theorem ownDelta_count (bref : FsckBref) : (ownDelta opts img bref).count = 0 := by
  have htype : (typeDelta opts bref.kind).count = 0 := by
    cases bref.kind <;> simp [typeDelta]
    split <;> rfl
  have hbytes : (bytesDelta bref).count = 0 := by
    unfold bytesDelta
    split <;> rfl
  unfold ownDelta
  split
  · simp [accumulateDeltaStats, htype, hbytes]
  · exact htype

/-- A blockref without storage has nothing below it. -/
theorem scannedTable_noData {bref : FsckBref} {norecurse : Bool} (h : mediaBytes bref.dataOff = 0) :
    scannedTable opts img bref norecurse = [] := by
  simp [scannedTable, brefTable, readMedia, h]

end Transparent

section Disabled

variable {opts : FsckOpts} (h : opts.blockrefCacheCount ≤ 0)
include h

end Disabled

/-- A blockref whose check code is the XXHASH64 of `check`. -/
def xxhashBref (type : BitVec 8) (check : BitVec 512) (dataOff : BitVec 64) : FsckBref where
  type := type
  methods := 0x30
  dataOff := dataOff
  check := check
  rest := 0

def emptyBref : FsckBref where
  type := 0
  methods := 0
  dataOff := 0
  check := 0
  rest := 0

/-- An indirect block with one entry. -/
def sharedBref : FsckBref := xxhashBref 2 0 0x800007

def cacheOne : FsckOpts where
  countEmpty := false
  forceOpt := false
  blockrefCacheCount := 1

/-- All zones hold `sharedBref`, and nothing is wrong below it. -/
def sharedImage : FsckImage where
  read _ := some {
    buf := fun _ => 0
    directdata := false
    blockset := []
    npdata := fun _ => xxhashBref 3 0 0x100000a
    srootBlockset := [sharedBref, emptyBref, emptyBref, emptyBref]
    freemapBlockset := [] }
  icrc32 _ _ := 0
  xxh64 _ _ := 0
  sha192 := none

end Hammer2
