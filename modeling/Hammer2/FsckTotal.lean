import Hammer2.DepthFirst
import Hammer2.FsckCache

namespace Hammer2

open ByteImage DepthFirst

/-- The `meta` fields of an inode that `init_pfs_blockref` looks at, and its name up to the NUL. -/
def FsckMedia.pfsType (media : FsckMedia) : Nat := (media.buf 0x87).toNat

def FsckMedia.opFlags (media : FsckMedia) : Nat := (media.buf 0x51).toNat

def FsckMedia.filename (media : FsckMedia) : List Nat :=
  ((slice media.buf 256 256).map BitVec.toNat).takeWhile (· ≠ 0)

def pfstypeSuproot : Nat := 8

/-- `op_flags & HAMMER2_OPFLAG_PFSROOT` -/
def FsckMedia.pfsroot (media : FsckMedia) : Bool := media.opFlags.testBit 1

/-- `__add_pfs_blockref`: the list is kept in the order of the names. -/
def addPfsBlockref (bref : FsckBref) (media : FsckMedia) :
    List (FsckBref × FsckMedia) → List (FsckBref × FsckMedia)
  | [] => [(bref, media)]
  | p :: blist =>
    if media.filename ≤ p.2.filename then (bref, media) :: p :: blist
    else p :: addPfsBlockref bref media blist

/-- `bscan` and `bcount` of `init_pfs_blockref`. -/
def pfsMediaTable (type : FsckType) (media : FsckMedia) (bytes : Nat) : List FsckBref :=
  match type with
  | .inode => if media.pfsType = pfstypeSuproot then media.blockset else []
  | .indirect => (List.range (bytes / 128)).map media.npdata
  | .volume => media.srootBlockset
  | _ => []

/-- The loop over the children. -/
def scanPfsTable
    (v : FsckBref → List (FsckBref × FsckMedia) → Option (Verdict × List (FsckBref × FsckMedia))) :
    List FsckBref → List (FsckBref × FsckMedia) → Option (Verdict × List (FsckBref × FsckMedia))
  | [], blist => some (.ok, blist)
  | bref :: bscan, blist =>
    match v bref blist with
    | none => none
    | some (.ok, blist) => scanPfsTable v bscan blist
    | some (r, blist) => some (r, blist)

/-- `init_pfs_blockref` with as many frames of stack as the first argument. -/
def initPfsBlockref (img : FsckImage) :
    Nat → FsckBref → List (FsckBref × FsckMedia) → Option (Verdict × List (FsckBref × FsckMedia))
  | 0, _, _ => none
  | fuel + 1, bref, blist =>
    match readMedia img bref.dataOff with
    | .badIoBytes => some (.fail, blist)
    | .failed => some (.fail, blist)
    | .noData => some (.ok, blist)
    | .ok media =>
      if bref.kind = .inode ∧ media.pfsType ≠ pfstypeSuproot ∧ media.pfsroot = false then
        some (.abort, blist)
      else
        let blist :=
          if bref.kind = .inode ∧ media.pfsType ≠ pfstypeSuproot then
            addPfsBlockref bref media blist
          else blist
        scanPfsTable (initPfsBlockref img fuel)
          (pfsMediaTable bref.kind media (mediaBytes bref.dataOff)) blist

/-- A blockref together with the `norecurse` it is verified with. -/
abbrev FsckNode := FsckBref × Bool

instance : Finite FsckBref := by
  apply Finite.of_injective fun b : FsckBref =>
    (b.type.toFin, b.methods.toFin, b.dataOff.toFin, b.check.toFin, b.rest.toFin)
  intro a b h
  simp only [Prod.mk.injEq, BitVec.toFin_inj] at h
  obtain ⟨h1, h2, h3, h4, h5⟩ := h
  cases a
  cases b
  simp_all

/-- The blockrefs that `verify_blockref` goes on to. -/
def verifyTable (opts : FsckOpts) (img : FsckImage) (n : FsckNode) : List FsckNode :=
  (scannedTable opts img n.1 n.2).map fun c => (c, brefFailed img n.1)

/-- The blockrefs that `init_pfs_blockref` goes on to. -/
def pfsTable (img : FsckImage) (bref : FsckBref) : List FsckBref :=
  match readMedia img bref.dataOff with
  | .ok media => pfsMediaTable bref.kind media (mediaBytes bref.dataOff)
  | _ => []

/-- The verdict of a call of `init_pfs_blockref` that does not come to the children. -/
def pfsStop (img : FsckImage) (bref : FsckBref) : Option Verdict :=
  match readMedia img bref.dataOff with
  | .badIoBytes => some .fail
  | .failed => some .fail
  | .noData => none
  | .ok media =>
    if bref.kind = .inode ∧ media.pfsType ≠ pfstypeSuproot ∧ media.pfsroot = false then some .abort
    else none

def pfsAdd (img : FsckImage) (bref : FsckBref) (blist : List (FsckBref × FsckMedia)) :
    List (FsckBref × FsckMedia) :=
  match readMedia img bref.dataOff with
  | .ok media =>
    if bref.kind = .inode ∧ media.pfsType ≠ pfstypeSuproot then addPfsBlockref bref media blist
    else blist
  | _ => blist

section Terminates

variable {opts : FsckOpts} {img : FsckImage}

theorem initPfsBlockref_succ (img : FsckImage) (fuel : Nat) (bref : FsckBref)
    (blist : List (FsckBref × FsckMedia)) :
    initPfsBlockref img (fuel + 1) bref blist =
      match pfsStop img bref with
      | some r => some (r, blist)
      | none => scanPfsTable (initPfsBlockref img fuel) (pfsTable img bref) (pfsAdd img bref blist) := by
  unfold initPfsBlockref pfsStop pfsTable pfsAdd
  cases hread : readMedia img bref.dataOff with
  | badIoBytes => rfl
  | failed => rfl
  | noData => rfl
  | ok media =>
    simp only
    split
    next => rfl
    next => rfl

theorem scanTable_total
    {v : FsckBref → FsckState → Option (Verdict × FsckState × DeltaStats)} {failed : Bool}
    {table : List FsckBref} (hv : ∀ c ∈ table, ∀ st, ∃ r, v c st = some r) (st : FsckState)
    (ds : DeltaStats) : ∃ r, scanTable v failed table st ds = some r := by
  induction table generalizing st ds with
  | nil => exact ⟨_, rfl⟩
  | cons c table ih =>
    obtain ⟨⟨verdict, st', d⟩, hc⟩ := hv c List.mem_cons_self st
    unfold scanTable
    rw [hc]
    cases verdict with
    | ok => exact ih (fun c hc => hv c (List.mem_cons_of_mem _ hc)) _ _
    | fail => exact ⟨_, rfl⟩
    | abort => exact ⟨_, rfl⟩

theorem scanPfsTable_total
    {v : FsckBref → List (FsckBref × FsckMedia) → Option (Verdict × List (FsckBref × FsckMedia))}
    {table : List FsckBref} (hv : ∀ c ∈ table, ∀ blist, ∃ r, v c blist = some r)
    (blist : List (FsckBref × FsckMedia)) : ∃ r, scanPfsTable v table blist = some r := by
  induction table generalizing blist with
  | nil => exact ⟨_, rfl⟩
  | cons c table ih =>
    obtain ⟨⟨verdict, blist'⟩, hc⟩ := hv c List.mem_cons_self blist
    unfold scanPfsTable
    rw [hc]
    cases verdict with
    | ok => exact ih (fun c hc => hv c (List.mem_cons_of_mem _ hc)) _
    | fail => exact ⟨_, rfl⟩
    | abort => exact ⟨_, rfl⟩

theorem scanPfsTable_mono
    {v w : FsckBref → List (FsckBref × FsckMedia) → Option (Verdict × List (FsckBref × FsckMedia))}
    {table : List FsckBref} {blist : List (FsckBref × FsckMedia)}
    {res : Verdict × List (FsckBref × FsckMedia)}
    (hvw : ∀ c blist r, v c blist = some r → w c blist = some r)
    (h : scanPfsTable v table blist = some res) : scanPfsTable w table blist = some res := by
  induction table generalizing blist with
  | nil => exact h
  | cons c table ih =>
    unfold scanPfsTable at h ⊢
    cases hv : v c blist with
    | none => simp [hv] at h
    | some r =>
      obtain ⟨verdict, blist'⟩ := r
      rw [hvw c blist _ hv]
      rw [hv] at h
      cases verdict with
      | ok => exact ih h
      | fail => exact h
      | abort => exact h

theorem initPfsBlockref_mono {fuel g : Nat} {bref : FsckBref} {blist : List (FsckBref × FsckMedia)}
    {res : Verdict × List (FsckBref × FsckMedia)} (hle : fuel ≤ g)
    (h : initPfsBlockref img fuel bref blist = some res) :
    initPfsBlockref img g bref blist = some res := by
  induction fuel generalizing g bref blist res with
  | zero => cases h
  | succ fuel ih =>
    obtain ⟨g, rfl⟩ : ∃ k, g = k + 1 := ⟨g - 1, by omega⟩
    rw [initPfsBlockref_succ] at h ⊢
    cases hstop : pfsStop img bref with
    | some r => rwa [hstop] at h
    | none =>
      rw [hstop] at h
      exact scanPfsTable_mono (fun c blist r hv => ih (by omega) hv) h

/-- A bound on the stack that is enough for every element of a list. -/
theorem exists_bound {α : Type} {l : List α} {P : α → Nat → Prop}
    (hmono : ∀ a m n, m ≤ n → P a m → P a n) (h : ∀ a ∈ l, ∃ n, P a n) : ∃ n, ∀ a ∈ l, P a n := by
  induction l with
  | nil => exact ⟨0, nofun⟩
  | cons a l ih =>
    obtain ⟨m, hm⟩ := h a List.mem_cons_self
    obtain ⟨n, hn⟩ := ih fun b hb => h b (List.mem_cons_of_mem _ hb)
    refine ⟨max m n, fun b hb => ?_⟩
    rcases List.mem_cons.mp hb with rfl | hb
    · exact hmono _ _ _ (Nat.le_max_left m n) hm
    · exact hmono _ _ _ (Nat.le_max_right m n) (hn b hb)

theorem verifyBlockref_total {n : FsckNode} (h : AcyclicFrom (verifyTable opts img) n) :
    ∃ fuel, ∀ st ds, ∃ r, verifyBlockref opts img fuel n.1 n.2 st ds = some r := by
  refine h.induct (P := fun n => ∃ fuel, ∀ st ds, ∃ r,
    verifyBlockref opts img fuel n.1 n.2 st ds = some r) ?_
  intro n _ ih
  obtain ⟨fuel, hfuel⟩ := exists_bound
    (P := fun (n : FsckNode) fuel => ∀ st ds, ∃ r, verifyBlockref opts img fuel n.1 n.2 st ds = some r)
    (by
      intro a m k hmk ha st ds
      obtain ⟨r, hr⟩ := ha st ds
      exact ⟨r, verifyBlockref_mono hmk hr⟩) ih
  refine ⟨fuel + 1, fun st ds => ?_⟩
  unfold verifyBlockref
  cases hfind : findDelta st.droot n.1 with
  | some d => exact ⟨_, rfl⟩
  | none =>
    simp only [visitBlockref_eq]
    cases hstop : brefStop opts img n.1 with
    | some r => exact ⟨_, rfl⟩
    | none =>
      have hloop : ∃ r, scanTable
          (fun c st => verifyBlockref opts img fuel c (brefFailed img n.1) st .zero)
          (brefFailed img n.1) (scannedTable opts img n.1 n.2) (st.visit opts img n.1)
          (accumulateDeltaStats ds (ownDelta opts img n.1)) = some r := by
        apply scanTable_total
        intro c hc st
        exact hfuel (c, brefFailed img n.1) (List.mem_map_of_mem hc) st .zero
      obtain ⟨⟨verdict, st', ds'⟩, hscan⟩ := hloop
      simp only [hscan]
      cases verdict with
      | ok => exact ⟨_, rfl⟩
      | fail => exact ⟨_, rfl⟩
      | abort => exact ⟨_, rfl⟩

theorem initPfsBlockref_total {bref : FsckBref} (h : AcyclicFrom (pfsTable img) bref) :
    ∃ fuel, ∀ blist, ∃ r, initPfsBlockref img fuel bref blist = some r := by
  refine h.induct (P := fun bref => ∃ fuel, ∀ blist, ∃ r,
    initPfsBlockref img fuel bref blist = some r) ?_
  intro bref _ ih
  obtain ⟨fuel, hfuel⟩ := exists_bound
    (P := fun bref fuel => ∀ blist, ∃ r, initPfsBlockref img fuel bref blist = some r)
    (by
      intro a m k hmk ha blist
      obtain ⟨r, hr⟩ := ha blist
      exact ⟨r, initPfsBlockref_mono hmk hr⟩) ih
  refine ⟨fuel + 1, fun blist => ?_⟩
  rw [initPfsBlockref_succ]
  cases pfsStop img bref with
  | some r => exact ⟨_, rfl⟩
  | none => exact scanPfsTable_total hfuel _

end Terminates

/-- On an image in which no chain of blockrefs that a scan follows returns to its start both scans
come to an end. `verify_blockref` follows the blocks that pass their check, or all with `ForceOpt`. -/
theorem fsck_terminates (opts : FsckOpts) (img : FsckImage) (bref : FsckBref) (norecurse : Bool)
    (hverify : AcyclicFrom (verifyTable opts img) (bref, norecurse))
    (hpfs : AcyclicFrom (pfsTable img) bref) :
    (∃ fuel, ∀ st ds, ∃ r, verifyBlockref opts img fuel bref norecurse st ds = some r) ∧
      ∃ fuel, ∀ blist, ∃ r, initPfsBlockref img fuel bref blist = some r :=
  ⟨verifyBlockref_total hverify, initPfsBlockref_total hpfs⟩

/-- How high above the data a kind of blockref is in a flat image. -/
def flatRank (bref : FsckBref) : Nat :=
  match bref.kind with
  | .volume => 3
  | .indirect => 2
  | .freemapNode => 2
  | _ => 0

/-- An image in which nothing but the volume header and indirect blocks has children, and theirs
are lower. -/
structure FlatImage (img : FsckImage) : Prop where
  blockset : ∀ off media, img.read off = some media → media.blockset = []
  freemap : ∀ off media, img.read off = some media → media.freemapBlockset = []
  npdata : ∀ off media, img.read off = some media → ∀ i, flatRank (media.npdata i) < 2
  sroot : ∀ off media, img.read off = some media → ∀ c ∈ media.srootBlockset, flatRank c < 3

theorem readMedia_ok {img : FsckImage} {dataOff : BitVec 64} {media : FsckMedia}
    (h : readMedia img dataOff = .ok media) : img.read dataOff = some media := by
  unfold readMedia at h
  split at h
  next => cases h
  next =>
    split at h
    next => cases h
    next =>
      split at h
      next => cases h
      next hread => cases h; exact hread

section Flat

variable {img : FsckImage}

theorem FlatImage.rank_lt (h : FlatImage img) {bref c : FsckBref} (hc : c ∈ brefTable img bref) :
    flatRank c < flatRank bref := by
  unfold brefTable at hc
  split at hc
  next media hread =>
    have hsome := readMedia_ok hread
    have hblockset := h.blockset _ _ hsome
    have hfreemap := h.freemap _ _ hsome
    have hnpdata := h.npdata _ _ hsome
    have hsroot := h.sroot _ _ hsome
    have hrank : flatRank bref = match bref.kind with
      | .volume => 3
      | .indirect => 2
      | .freemapNode => 2
      | _ => 0 := rfl
    rw [hrank]
    cases hkind : bref.kind with
    | indirect =>
      rw [hkind] at hc
      obtain ⟨i, -, rfl⟩ := List.mem_map.mp hc
      exact hnpdata i
    | freemapNode =>
      rw [hkind] at hc
      obtain ⟨i, -, rfl⟩ := List.mem_map.mp hc
      exact hnpdata i
    | volume =>
      rw [hkind] at hc
      exact hsroot c hc
    | inode =>
      rw [hkind] at hc
      unfold mediaTable at hc
      simp only [hblockset, ite_self] at hc
      cases hc
    | freemap =>
      rw [hkind] at hc
      unfold mediaTable at hc
      rw [hfreemap] at hc
      cases hc
    | empty => rw [hkind] at hc; cases hc
    | data => rw [hkind] at hc; cases hc
    | dirent => rw [hkind] at hc; cases hc
    | freemapLeaf => rw [hkind] at hc; cases hc
    | invalid => rw [hkind] at hc; cases hc
  next => cases hc

/-- There `init_pfs_blockref` goes nowhere that `verify_blockref` would not. -/
theorem FlatImage.pfsTable_sub (h : FlatImage img) {bref c : FsckBref}
    (hc : c ∈ pfsTable img bref) : c ∈ brefTable img bref := by
  unfold pfsTable at hc
  unfold brefTable
  cases hread : readMedia img bref.dataOff with
  | badIoBytes => rw [hread] at hc; cases hc
  | failed => rw [hread] at hc; cases hc
  | noData => rw [hread] at hc; cases hc
  | ok media =>
    rw [hread] at hc
    have hblockset := h.blockset _ _ (readMedia_ok hread)
    dsimp only at hc ⊢
    cases hkind : bref.kind with
    | indirect => rw [hkind] at hc; exact hc
    | volume => rw [hkind] at hc; exact hc
    | inode =>
      rw [hkind] at hc
      unfold pfsMediaTable at hc
      simp only [hblockset, ite_self] at hc
      cases hc
    | freemapNode => rw [hkind] at hc; cases hc
    | empty => rw [hkind] at hc; cases hc
    | data => rw [hkind] at hc; cases hc
    | dirent => rw [hkind] at hc; cases hc
    | freemapLeaf => rw [hkind] at hc; cases hc
    | freemap => rw [hkind] at hc; cases hc
    | invalid => rw [hkind] at hc; cases hc

theorem FlatImage.acyclic (h : FlatImage img) (opts : FsckOpts) (n : FsckNode) :
    AcyclicFrom (verifyTable opts img) n := by
  apply acyclicFrom_of_rank fun n : FsckNode => flatRank n.1
  intro a c hc
  obtain ⟨b, hb, rfl⟩ := List.mem_map.mp hc
  unfold scannedTable at hb
  split at hb
  next => cases hb
  next => exact h.rank_lt hb

theorem FlatImage.pfs_acyclic (h : FlatImage img) (bref : FsckBref) :
    AcyclicFrom (pfsTable img) bref := by
  apply acyclicFrom_of_rank flatRank
  intro a c hc
  exact h.rank_lt (h.pfsTable_sub hc)

end Flat

theorem sharedImage_flat : FlatImage sharedImage where
  blockset := by
    rintro off media h
    cases h
    rfl
  freemap := by
    rintro off media h
    cases h
    rfl
  npdata := by
    rintro off media h i
    cases h
    show flatRank (xxhashBref 3 0 0x100000a) < 2
    decide
  sroot := by
    rintro off media h
    cases h
    show ∀ c ∈ [sharedBref, emptyBref, emptyBref, emptyBref], flatRank c < 3
    decide

theorem fsck_terminates_shared :
    (∃ fuel, ∀ st ds, ∃ r,
      verifyBlockref cacheOne sharedImage fuel (initRootBlockref .volume 0) false st ds = some r) ∧
      ∃ fuel, ∀ blist, ∃ r,
        initPfsBlockref sharedImage fuel (initRootBlockref .volume 0) blist = some r :=
  fsck_terminates cacheOne sharedImage (initRootBlockref .volume 0) false
    (sharedImage_flat.acyclic _ _) (sharedImage_flat.pfs_acyclic _)

/-- An indirect block without a check code whose entries all point back to it. -/
def loopBref : FsckBref where
  type := 2
  methods := 0
  dataOff := 0x80000a
  check := 0
  rest := 0

def loopImage : FsckImage where
  read _ := some {
    buf := fun _ => 0
    directdata := false
    blockset := []
    npdata := fun _ => loopBref
    srootBlockset := []
    freemapBlockset := [] }
  icrc32 _ _ := 0
  xxh64 _ _ := 0
  sha192 := none

theorem verifyBlockref_loops (fuel : Nat) (bs : BlockrefStats) (ds : DeltaStats) :
    verifyBlockref cacheOne loopImage fuel loopBref false ⟨bs, []⟩ ds = none := by
  induction fuel generalizing bs ds with
  | zero => rfl
  | succ fuel ih =>
    have hstop : brefStop cacheOne loopImage loopBref = none := by decide
    have hfailed : brefFailed loopImage loopBref = false := by decide
    have htable : scannedTable cacheOne loopImage loopBref false =
        loopBref :: List.replicate 7 loopBref := rfl
    unfold verifyBlockref
    rw [findDelta_nil, visitBlockref_eq, hstop, hfailed, htable]
    simp only [scanTable]
    have hchild := ih (FsckState.visit ⟨bs, []⟩ cacheOne loopImage loopBref).bstats .zero
    have hstate : FsckState.visit ⟨bs, []⟩ cacheOne loopImage loopBref =
        ⟨(FsckState.visit ⟨bs, []⟩ cacheOne loopImage loopBref).bstats, []⟩ := rfl
    rw [hstate, hchild]

theorem initPfsBlockref_loops (fuel : Nat) (blist : List (FsckBref × FsckMedia)) :
    initPfsBlockref loopImage fuel loopBref blist = none := by
  induction fuel generalizing blist with
  | zero => rfl
  | succ fuel ih =>
    have hstop : pfsStop loopImage loopBref = none := by decide
    have htable : pfsTable loopImage loopBref = loopBref :: List.replicate 7 loopBref :=
      rfl
    rw [initPfsBlockref_succ, hstop, htable]
    simp only [scanPfsTable, ih]

/-- A scan of the block that points to itself uses up any stack. -/
theorem fsck_loops :
    (¬ ∃ fuel r, verifyBlockref cacheOne loopImage fuel loopBref false
        ⟨initBlockrefStats .volume, []⟩ .zero = some r) ∧
      ¬ ∃ fuel r, initPfsBlockref loopImage fuel loopBref [] = some r := by
  constructor
  · rintro ⟨fuel, r, h⟩
    rw [verifyBlockref_loops] at h
    cases h
  · rintro ⟨fuel, r, h⟩
    rw [initPfsBlockref_loops] at h
    cases h

end Hammer2
