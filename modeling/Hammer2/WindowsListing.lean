import Mathlib.Data.List.TakeWhile
import Hammer2.Blockref
import Hammer2.Directory
import Hammer2.Utf

namespace Hammer2

open Utf

/-- An entry chain of a directory. `error` is `chain->error` once the chain is locked, and `loaded`
says that `chain->data` is not NULL. -/
structure DirChain where
  key : Nat
  dirent : Dirent
  error : Nat
  loaded : Bool

/-- A mounted PFS: the entry chains of the directories in the order of their keys, and the inode
numbers for which `hammer2_chain_inode_find` gives a chain without an error. -/
structure H2Mount where
  root : Nat
  dirs : Nat → List DirChain
  inode : Nat → Bool

/-- `HAMMER2_DIRHASH_VISIBLE` -/
def dirhashVisible : Nat := 2 ^ 63

/-- `HAMMER2_ERROR_ENOENT` -/
def errorENOENT : Nat := 0x40

/-- `HAMMER2_PATH_MAX` -/
def pathMax : Nat := 4096

/-- `MAX_PATH`, the room for the name in `WIN32_FIND_DATAW`. -/
def maxPath : Nat := 260

/-- `'\\'` -/
def backslash : BitVec 8 := 0x5c

/-- `'/'` -/
def slash : BitVec 8 := 0x2f

/-- A string up to its terminating NUL. -/
def cstr (w : List (BitVec 16)) : List (BitVec 16) := w.takeWhile (· ≠ 0#16)

/-- What `utf8_to_wide` leaves in a buffer of `outcch` characters. The conversion fails on an empty
string and when the buffer is too small. -/
def utf8ToWide (skip : List (BitVec 8) → Nat) (s : List (BitVec 8)) (outcch : Nat) :
    List (BitVec 16) :=
  if s = [] ∨ outcch - 1 < (toWide skip s).length then [] else cstr (toWide skip s)

/-- `wide_to_utf8` into a buffer of `outsz` bytes. -/
def wideToUtf8 (w : List (BitVec 16)) (outsz : Nat) : Option (List (BitVec 8)) :=
  if (toUtf8 (cstr w)).length + 1 ≤ outsz then some (toUtf8 (cstr w)) else none

/-- The name that `h2_find_files` reads from an entry. -/
def direntName (e : Dirent) : Name :=
  if e.namlen ≤ checkBytes then e.check.take e.namlen else e.data.take e.namlen

/-- The name and the directory attribute of a `WIN32_FIND_DATAW`. -/
structure FindData where
  name : List (BitVec 16)
  directory : Bool

def direntFindData (skip : List (BitVec 8) → Nat) (e : Dirent) : FindData where
  name := utf8ToWide skip (direntName e) maxPath
  directory := decide (e.type = objtypeDirectory)

/-- What `hammer2_xop_readdir` feeds, with the error of each chain, and the final NULL. -/
def xopReaddir (dir : List DirChain) : List (Option DirChain × Nat) :=
  (dir.filter fun c => dirhashVisible ≤ c.key ∧ c.key ≤ keyMax).map (fun c => (some c, c.error)) ++
    [(none, 0)]

/-- The state of a collector with one element. -/
structure Collector where
  chain : Option DirChain
  error : Nat
  fifo : List (Option DirChain × Nat)
  collectKey : Nat

/-- The loop of `hammer2_xop_collect` that advances the element to `key`. -/
def collectAdvance (key : Nat) : List (Option DirChain × Nat) → Option DirChain → Nat →
    Option DirChain × Nat × List (Option DirChain × Nat)
  | [], chain, error => (chain.filter fun c => key ≤ c.key, error, [])
  | f :: fifo, chain, error =>
    if (chain.filter fun c => key ≤ c.key).isSome then (chain, error, f :: fifo)
    else collectAdvance key fifo f.1 f.2

/-- `hammer2_xop_collect`, which returns the error and leaves the chain in the cluster. -/
def xopCollect (s : Collector) : Nat × Collector :=
  match collectAdvance s.collectKey s.fifo s.chain s.error with
  | (none, error, fifo) =>
    (if error = 0 then errorENOENT else error, ⟨none, error, fifo, keyMax⟩)
  | (some c, error, fifo) =>
    (error, ⟨some c, error, fifo, if c.key = keyMax then keyMax else c.key + 1⟩)

/-- The loop of `h2_find_files`, cut off after `fuel` turns. -/
def findLoop (skip : List (BitVec 8) → Nat) : Nat → Collector → Option (List FindData)
  | 0, _ => none
  | fuel + 1, s =>
    match xopCollect s with
    | (0, s@⟨some c, _, _, _⟩) =>
      (findLoop skip fuel s).map fun l => direntFindData skip c.dirent :: l
    | _ => some []

def dotFindData : List FindData := [⟨[0x2e], true⟩, ⟨[0x2e, 0x2e], true⟩]

/-- The records that `h2_find_files` delivers for an open directory before it returns
`STATUS_SUCCESS`; `none` if it is still in its loop after `fuel` turns. -/
def h2FindFiles (skip : List (BitVec 8) → Nat) (fs : H2Mount) (d fuel : Nat) :
    Option (List FindData) :=
  (findLoop skip fuel ⟨none, 0, xopReaddir (fs.dirs d), 0⟩).map (dotFindData ++ ·)

/-- The scan of a collision space by `hammer2_xop_nresolve`. It is `none` when
`hammer2_chain_dirent_test` follows a NULL data pointer. -/
def direntScan (name : Name) : List DirChain → Option (Option DirChain)
  | [] => some none
  | c :: dir =>
    if c.dirent.namlen = name.length ∧ checkBytes < name.length ∧ c.loaded = false then none
    else if direntTest c.dirent name then some (some c)
    else direntScan name dir

inductive Resolved where
  | found (inum : Nat)
  | missing
  | fault
deriving DecidableEq

/-- `h2_lookup_one` -/
def h2LookupOne (fs : H2Mount) (dip : Nat) (name : Name) : Resolved :=
  match direntScan name ((fs.dirs dip).filter fun c =>
      lhcBase name ≤ c.key ∧ c.key ≤ lhcBase name + dirhashLomask) with
  | none => .fault
  | some none => .missing
  | some (some c) =>
    if c.error = 0 ∧ fs.inode c.dirent.inum then .found c.dirent.inum else .missing

/-- The components of a path, behind the bytes `seg` of the one at its start. -/
def pathSegs (seg : Name) : List (BitVec 8) → List Name
  | [] => if seg = [] then [] else [seg]
  | b :: path =>
    if b = backslash ∨ b = slash then (if seg = [] then [] else [seg]) ++ pathSegs [] path
    else pathSegs (seg ++ [b]) path

def resolveSegs (fs : H2Mount) : Nat → List Name → Resolved
  | cur, [] => .found cur
  | cur, seg :: segs =>
    match h2LookupOne fs cur seg with
    | .found next => resolveSegs fs next segs
    | r => r

/-- `h2_resolve_path` -/
def h2ResolvePath (fs : H2Mount) (wpath : List (BitVec 16)) : Resolved :=
  match wideToUtf8 wpath pathMax with
  | none => .missing
  | some path => resolveSegs fs fs.root (pathSegs [] path)

/-- The path of an entry: the path of its directory, a backslash and the delivered name. -/
def entryPath (skip : List (BitVec 8) → Nat) (path : List (BitVec 16)) (c : DirChain) :
    List (BitVec 16) :=
  path ++ 0x5c#16 :: (direntFindData skip c.dirent).name

/-- What holds of the directories of a file system, where the entries can be read: each entry lies
in the collision space of its name, no name is there twice, and the inode of an entry exists. -/
structure H2Mount.WellFormed (fs : H2Mount) : Prop where
  sorted : ∀ d, (fs.dirs d).Pairwise fun a b => a.key < b.key
  visible : ∀ d, ∀ c ∈ fs.dirs d, dirhashVisible ≤ c.key ∧ c.key ≤ keyMax
  loaded : ∀ d, ∀ c ∈ fs.dirs d, c.error = 0 → c.loaded = true
  namlen : ∀ d, ∀ c ∈ fs.dirs d, c.error = 0 →
    (direntName c.dirent).length = c.dirent.namlen ∧ 0 < c.dirent.namlen ∧
      c.dirent.namlen ≤ inodeMaxname
  hashed : ∀ d, ∀ c ∈ fs.dirs d, c.error = 0 → lhcBase (direntName c.dirent) ≤ c.key ∧
    c.key ≤ lhcBase (direntName c.dirent) + dirhashLomask
  unique : ∀ d, ∀ c ∈ fs.dirs d, ∀ c' ∈ fs.dirs d, c.error = 0 → c'.error = 0 →
    direntName c.dirent = direntName c'.dirent → c = c'
  inode : ∀ d, ∀ c ∈ fs.dirs d, c.error = 0 → fs.inode c.dirent.inum = true

/-- Listing and opening agree: a listing that returns has delivered `.`, `..` and one record for each
entry, and the path of each record leads to the inode of its entry. -/
def ListingAgrees (skip : List (BitVec 8) → Nat) (fs : H2Mount) (d : Nat) (path : List (BitVec 16)) :
    Prop :=
  ∀ fuel recs, h2FindFiles skip fs d fuel = some recs →
    recs = dotFindData ++ (fs.dirs d).map (fun c => direntFindData skip c.dirent) ∧
    ∀ c ∈ fs.dirs d, h2ResolvePath fs (entryPath skip path c) = .found c.dirent.inum

/-- An entry that can be read and whose name the two encodings, the path and its buffer carry. -/
structure Openable (path : List (BitVec 16)) (c : DirChain) : Prop where
  readable : c.error = 0
  valid : Valid8 (direntName c.dirent)
  nul : 0#8 ∉ direntName c.dirent
  backslash : backslash ∉ direntName c.dirent
  slash : slash ∉ direntName c.dirent
  fits : (toUtf8 path).length + 1 + c.dirent.namlen + 1 ≤ pathMax

section Collect

variable {skip : List (BitVec 8) → Nat}

/-- The fifo with the chains that are still to be collected. -/
def fed (dir : List DirChain) : List (Option DirChain × Nat) :=
  dir.map (fun c => (some c, c.error)) ++ [(none, 0)]

/-- The collector is past its chain. -/
def Collector.Spent (s : Collector) : Prop := ∀ c, s.chain = some c → c.key < s.collectKey

theorem xopCollect_nil {s : Collector} (hspent : s.Spent) (hfifo : s.fifo = fed []) :
    xopCollect s = (errorENOENT, ⟨none, 0, [], keyMax⟩) := by
  have hfilter : (s.chain.filter fun c => s.collectKey ≤ c.key) = none := by
    cases hc : s.chain with
    | none => rfl
    | some c => simpa using hspent c hc
  simp [xopCollect, hfifo, fed, collectAdvance, hfilter]

theorem xopCollect_cons {s : Collector} {c : DirChain} {dir : List DirChain} (hspent : s.Spent)
    (hfifo : s.fifo = fed (c :: dir)) (hkey : s.collectKey ≤ c.key) :
    xopCollect s =
      (c.error, ⟨some c, c.error, fed dir, if c.key = keyMax then keyMax else c.key + 1⟩) := by
  have hfilter : (s.chain.filter fun c => s.collectKey ≤ c.key) = none := by
    cases hc : s.chain with
    | none => rfl
    | some c => simpa using hspent c hc
  have hnext : collectAdvance s.collectKey (fed dir) (some c) c.error = (some c, c.error, fed dir) := by
    cases dir with
    | nil => simp [fed, collectAdvance, hkey]
    | cons c' dir => simp [fed, collectAdvance, hkey]
  have hadv : collectAdvance s.collectKey s.fifo s.chain s.error = (some c, c.error, fed dir) := by
    rw [hfifo]
    simpa [fed, collectAdvance, hfilter] using hnext
  simp [xopCollect, hadv]

/-- A chain with the last key is collected again and again. -/
theorem findLoop_stuck {c : DirChain} {fifo : List (Option DirChain × Nat)} (hkey : c.key = keyMax)
    (fuel : Nat) : findLoop skip fuel ⟨some c, 0, fifo, keyMax⟩ = none := by
  induction fuel with
  | zero => rfl
  | succ fuel ih =>
    have hfilter : ((some c).filter fun c => keyMax ≤ c.key) = some c := by simp [hkey]
    have hcollect : xopCollect ⟨some c, 0, fifo, keyMax⟩ = (0, ⟨some c, 0, fifo, keyMax⟩) := by
      cases fifo with
      | nil => simp only [xopCollect, collectAdvance, hfilter, hkey, if_true]
      | cons f fifo => simp [xopCollect, collectAdvance, hfilter, hkey]
    unfold findLoop
    rw [hcollect]
    simp only [ih, Option.map_none]

/-- A listing that returns has stopped at the first chain with an error. -/
theorem findLoop_some {dir : List DirChain} {fuel : Nat} {s : Collector} {l : List FindData}
    (hspent : s.Spent) (hfifo : s.fifo = fed dir) (hsorted : dir.Pairwise fun a b => a.key < b.key)
    (hkeys : ∀ c ∈ dir, s.collectKey ≤ c.key ∧ c.key ≤ keyMax) (h : findLoop skip fuel s = some l) :
    l = (dir.takeWhile fun c => c.error = 0).map fun c => direntFindData skip c.dirent := by
  induction fuel generalizing dir s l with
  | zero => cases h
  | succ fuel ih =>
    unfold findLoop at h
    cases dir with
    | nil =>
      rw [xopCollect_nil hspent hfifo] at h
      simpa [errorENOENT] using h.symm
    | cons c dir =>
      rw [xopCollect_cons hspent hfifo (hkeys c (by simp)).1] at h
      by_cases herr : c.error = 0
      · rw [herr] at h
        obtain ⟨l', hl', rfl⟩ := Option.map_eq_some_iff.mp h
        by_cases hmax : c.key = keyMax
        · rw [if_pos hmax, findLoop_stuck hmax] at hl'
          cases hl'
        · rw [if_neg hmax] at hl'
          obtain ⟨hlt, hsorted'⟩ := List.pairwise_cons.mp hsorted
          rw [List.takeWhile_cons_of_pos (by simpa using herr), List.map_cons]
          congr 1
          refine ih ?_ rfl hsorted' ?_ hl'
          · intro c' hc'
            cases hc'
            exact Nat.lt_succ_self _
          · intro c' hc'
            exact ⟨hlt c' hc', (hkeys c' (by simp [hc'])).2⟩
      · rw [List.takeWhile_cons_of_neg (by simpa using herr)]
        split at h
        next heq => exact absurd (Prod.mk.inj heq).1 herr
        next => exact (Option.some.inj h).symm

/-- A listing returns if no chain has the last key. -/
theorem findLoop_returns {dir : List DirChain} {fuel : Nat} {s : Collector}
    (hspent : s.Spent) (hfifo : s.fifo = fed dir) (hsorted : dir.Pairwise fun a b => a.key < b.key)
    (hkeys : ∀ c ∈ dir, s.collectKey ≤ c.key ∧ c.key < keyMax) (hfuel : dir.length < fuel) :
    ∃ l, findLoop skip fuel s = some l := by
  induction dir generalizing fuel s with
  | nil =>
    obtain ⟨fuel, rfl⟩ : ∃ f, fuel = f + 1 := ⟨fuel - 1, by omega⟩
    refine ⟨[], ?_⟩
    unfold findLoop
    rw [xopCollect_nil hspent hfifo]
    simp [errorENOENT]
  | cons c dir ih =>
    obtain ⟨fuel, rfl⟩ : ∃ f, fuel = f + 1 := ⟨fuel - 1, by omega⟩
    have hc := hkeys c (by simp)
    unfold findLoop
    rw [xopCollect_cons hspent hfifo hc.1, if_neg (by omega)]
    by_cases herr : c.error = 0
    · obtain ⟨hlt, hsorted'⟩ := List.pairwise_cons.mp hsorted
      have hspent' : Collector.Spent ⟨some c, c.error, fed dir, c.key + 1⟩ := by
        intro c' hc'
        cases hc'
        exact Nat.lt_succ_self _
      have hkeys' : ∀ c' ∈ dir, c.key + 1 ≤ c'.key ∧ c'.key < keyMax :=
        fun c' hc' => ⟨hlt c' hc', (hkeys c' (by simp [hc'])).2⟩
      rw [List.length_cons] at hfuel
      obtain ⟨l, hl⟩ := ih hspent' rfl hsorted' hkeys' (show dir.length < fuel by omega)
      refine ⟨direntFindData skip c.dirent :: l, ?_⟩
      rw [herr] at hl ⊢
      simp only [hl, Option.map_some]
    · split
      next heq => exact absurd (Prod.mk.inj heq).1 herr
      next => exact ⟨[], rfl⟩

theorem xopReaddir_eq {fs : H2Mount} (hfs : fs.WellFormed) (d : Nat) :
    xopReaddir (fs.dirs d) = fed (fs.dirs d) := by
  unfold xopReaddir fed
  rw [List.filter_eq_self.mpr]
  intro c hc
  simpa using hfs.visible d c hc

/-- The records of a listing that returns. -/
theorem h2FindFiles_some {fs : H2Mount} (hfs : fs.WellFormed) {d fuel : Nat} {recs : List FindData}
    (h : h2FindFiles skip fs d fuel = some recs) :
    recs = dotFindData ++ ((fs.dirs d).takeWhile fun c => c.error = 0).map
      fun c => direntFindData skip c.dirent := by
  unfold h2FindFiles at h
  rw [xopReaddir_eq hfs] at h
  obtain ⟨l, hl, rfl⟩ := Option.map_eq_some_iff.mp h
  congr 1
  refine findLoop_some ?_ rfl (hfs.sorted d) ?_ hl
  · intro c hc
    cases hc
  · intro c hc
    exact ⟨Nat.zero_le _, (hfs.visible d c hc).2⟩

theorem h2FindFiles_returns (skip : List (BitVec 8) → Nat) {fs : H2Mount} (hfs : fs.WellFormed)
    {d : Nat} (hmax : ∀ c ∈ fs.dirs d, c.key ≠ keyMax) :
    ∃ fuel recs, h2FindFiles skip fs d fuel = some recs := by
  have hkeys : ∀ c ∈ fs.dirs d, 0 ≤ c.key ∧ c.key < keyMax := by
    intro c hc
    have hle := (hfs.visible d c hc).2
    have hne := hmax c hc
    omega
  have hspent : Collector.Spent ⟨none, 0, fed (fs.dirs d), 0⟩ := by
    intro c hc
    cases hc
  obtain ⟨l, hl⟩ : ∃ l, findLoop skip ((fs.dirs d).length + 1) ⟨none, 0, fed (fs.dirs d), 0⟩ = some l :=
    findLoop_returns hspent rfl (hfs.sorted d) hkeys (Nat.lt_succ_self _)
  refine ⟨(fs.dirs d).length + 1, dotFindData ++ l, ?_⟩
  unfold h2FindFiles
  rw [xopReaddir_eq hfs, hl, Option.map_some]

end Collect

section Resolve

variable {fs : H2Mount}

/-- Among chains that can be read, the one that has the name is found. -/
theorem direntScan_found {name : Name} {dir : List DirChain} {c : DirChain} (hc : c ∈ dir)
    (htest : direntTest c.dirent name = true) (hloaded : ∀ c' ∈ dir, c'.loaded = true)
    (huniq : ∀ c' ∈ dir, direntTest c'.dirent name = true → c' = c) :
    direntScan name dir = some (some c) := by
  induction dir with
  | nil => cases hc
  | cons a dir ih =>
    unfold direntScan
    rw [if_neg (by simp [hloaded a (by simp)])]
    by_cases ha : direntTest a.dirent name = true
    · rw [if_pos ha, huniq a (by simp) ha]
    · rw [if_neg ha]
      have hmem : c ∈ dir := by
        rcases List.mem_cons.mp hc with rfl | hmem
        · exact absurd htest ha
        · exact hmem
      exact ih hmem (fun c' h => hloaded c' (by simp [h])) (fun c' h => huniq c' (by simp [h]))

theorem direntTest_direntName {e : Dirent} {name : Name}
    (hlen : (direntName e).length = e.namlen) :
    direntTest e name = true ↔ direntName e = name := by
  unfold direntTest
  unfold direntName at hlen ⊢
  rw [decide_eq_true_iff]
  by_cases hshort : e.namlen ≤ checkBytes
  · rw [if_pos hshort] at hlen ⊢
    constructor
    · rintro ⟨heq, htake⟩
      rw [if_neg (by omega), ← heq] at htake
      exact htake
    · rintro rfl
      refine ⟨hlen.symm, ?_⟩
      rw [if_neg (by omega), hlen]
  · rw [if_neg hshort] at hlen ⊢
    constructor
    · rintro ⟨heq, htake⟩
      rw [if_pos (by omega), ← heq] at htake
      exact htake
    · rintro rfl
      refine ⟨hlen.symm, ?_⟩
      rw [if_pos (by omega), hlen]

/-- The directories that the directory operations leave are well formed, as far as their entries can
be read. -/
theorem wellFormed_of_represents {dirs : Nat → Dir} {map : Nat → Name → Option Nat}
    (hrep : ∀ d, Represents (dirs d) (map d))
    (hsorted : ∀ d, (fs.dirs d).Pairwise fun a b => a.key < b.key)
    (hvisible : ∀ d, ∀ c ∈ fs.dirs d, dirhashVisible ≤ c.key ∧ c.key ≤ keyMax)
    (hread : ∀ d, ∀ c ∈ fs.dirs d, c.error = 0 → dirs d c.key = some c.dirent ∧ c.loaded = true ∧
      fs.inode c.dirent.inum = true)
    (hlen : ∀ d, ∀ c ∈ fs.dirs d, c.error = 0 →
      (direntName c.dirent).length = c.dirent.namlen ∧ 0 < c.dirent.namlen ∧
        c.dirent.namlen ≤ inodeMaxname) : fs.WellFormed := by
  have htest : ∀ d, ∀ c ∈ fs.dirs d, c.error = 0 →
      direntTest c.dirent (direntName c.dirent) = true :=
    fun d c hc herr => (direntTest_direntName (hlen d c hc herr).1).mpr rfl
  refine ⟨hsorted, hvisible, fun d c hc herr => (hread d c hc herr).2.1, hlen, ?_, ?_,
    fun d c hc herr => (hread d c hc herr).2.2⟩
  · intro d c hc herr
    have hwin := ((hrep d).of_test (hread d c hc herr).1 (htest d c hc herr)).1
    have hmod := lhcBase_mod (direntName c.dirent)
    unfold dirhashLomask
    omega
  · intro d c hc c' hc' herr herr' hname
    have hkey : c.key = c'.key :=
      (hrep d).unique c.key c'.key c.dirent c'.dirent (direntName c.dirent) (hread d c hc herr).1
        (hread d c' hc' herr').1 (htest d c hc herr) (hname ▸ htest d c' hc' herr')
    by_contra hne
    have hpw := List.pairwise_iff_getElem.mp (hsorted d)
    obtain ⟨i, hi, hci⟩ := List.getElem_of_mem hc
    obtain ⟨j, hj, hcj⟩ := List.getElem_of_mem hc'
    rcases Nat.lt_trichotomy i j with hij | rfl | hij
    · have := hpw i j hi hj hij
      rw [hci, hcj] at this
      omega
    · exact hne (hci.symm.trans hcj)
    · have := hpw j i hj hi hij
      rw [hci, hcj] at this
      omega

/-- The name of an entry leads to its inode, if the entries of the directory can be read. -/
theorem h2LookupOne_direntName (hfs : fs.WellFormed) {d : Nat} {c : DirChain} (hc : c ∈ fs.dirs d)
    (hread : ∀ c' ∈ fs.dirs d, c'.error = 0) :
    h2LookupOne fs d (direntName c.dirent) = .found c.dirent.inum := by
  have hscan : direntScan (direntName c.dirent) ((fs.dirs d).filter fun c' =>
      lhcBase (direntName c.dirent) ≤ c'.key ∧
        c'.key ≤ lhcBase (direntName c.dirent) + dirhashLomask) = some (some c) := by
    apply direntScan_found
    · exact List.mem_filter.mpr ⟨hc, by simpa using hfs.hashed d c hc (hread c hc)⟩
    · exact (direntTest_direntName (hfs.namlen d c hc (hread c hc)).1).mpr rfl
    · intro c' hc'
      have hmem := (List.mem_filter.mp hc').1
      exact hfs.loaded d c' hmem (hread c' hmem)
    · intro c' hc' htest
      have hmem := (List.mem_filter.mp hc').1
      have hname := (direntTest_direntName (hfs.namlen d c' hmem (hread c' hmem)).1).mp htest
      exact hfs.unique d c' hmem c hc (hread c' hmem) (hread c hc) hname
  unfold h2LookupOne
  rw [hscan]
  simp [hread c hc, hfs.inode d c hc (hread c hc)]

/-- A separator splits a path. -/
theorem pathSegs_append {b : BitVec 8} (hb : b = backslash ∨ b = slash) (seg p q : List (BitVec 8)) :
    pathSegs seg (p ++ b :: q) = pathSegs seg p ++ pathSegs [] q := by
  induction p generalizing seg with
  | nil => simp [pathSegs, hb]
  | cons a p ih =>
    simp only [List.cons_append, pathSegs, ih]
    split
    · rw [List.append_assoc]
    · rfl

theorem pathSegs_of_no_sep {seg p : List (BitVec 8)} (hback : backslash ∉ p) (hslash : slash ∉ p)
    (hne : seg ++ p ≠ []) : pathSegs seg p = [seg ++ p] := by
  induction p generalizing seg with
  | nil =>
    rw [List.append_nil] at hne
    simp [pathSegs, hne]
  | cons a p ih =>
    have ha : ¬(a = backslash ∨ a = slash) := by
      rintro (rfl | rfl)
      · exact hback (by simp)
      · exact hslash (by simp)
    unfold pathSegs
    rw [if_neg ha, ih (fun h => hback (by simp [h])) (fun h => hslash (by simp [h])) (by simp)]
    simp

theorem resolveSegs_append (cur : Nat) (segs segs' : List Name) :
    resolveSegs fs cur (segs ++ segs') =
      match resolveSegs fs cur segs with
      | .found d => resolveSegs fs d segs'
      | r => r := by
  induction segs generalizing cur with
  | nil => rfl
  | cons seg segs ih =>
    simp only [List.cons_append, resolveSegs]
    cases hone : h2LookupOne fs cur seg with
    | found next => exact ih next
    | missing => rfl
    | fault => rfl

theorem cstr_eq_self {w : List (BitVec 16)} (h : 0#16 ∉ w) : cstr w = w := by
  unfold cstr
  rw [List.takeWhile_eq_self_iff]
  intro x hx
  have hne : x ≠ 0#16 := by
    rintro rfl
    exact h hx
  simpa using hne

theorem zero_notMem_cstr (w : List (BitVec 16)) : 0#16 ∉ cstr w := by
  intro h
  have := List.mem_takeWhile_imp h
  simp at this

/-- A path that ends in a delivered name leads to its directory and goes on from there. -/
theorem h2ResolvePath_append {path w : List (BitVec 16)} {d : Nat} (hpath : 0#16 ∉ path) (hw : 0#16 ∉ w)
    (hd : h2ResolvePath fs path = .found d) :
    h2ResolvePath fs (path ++ 0x5c#16 :: w) =
      if (toUtf8 path).length + 1 + (toUtf8 w).length + 1 ≤ pathMax then
        resolveSegs fs d (pathSegs [] (toUtf8 w))
      else .missing := by
  have hjoin : cstr (path ++ 0x5c#16 :: w) = path ++ 0x5c#16 :: w := by
    apply cstr_eq_self
    simp [hpath, hw]
  have hbytes : toUtf8 (path ++ 0x5c#16 :: w) = toUtf8 path ++ backslash :: toUtf8 w :=
    toUtf8_append_ascii (by decide) path w
  have hroot : resolveSegs fs fs.root (pathSegs [] (toUtf8 path)) = .found d := by
    unfold h2ResolvePath wideToUtf8 at hd
    rw [cstr_eq_self hpath] at hd
    split at hd
    next => cases hd
    next p hp =>
      split at hp
      next => exact Option.some.inj hp ▸ hd
      next => cases hp
  unfold h2ResolvePath wideToUtf8
  rw [hjoin, hbytes]
  have hlen : (toUtf8 path ++ backslash :: toUtf8 w).length + 1 =
      (toUtf8 path).length + 1 + (toUtf8 w).length + 1 := by
    rw [List.length_append, List.length_cons]
    omega
  rw [hlen]
  by_cases hfits : (toUtf8 path).length + 1 + (toUtf8 w).length + 1 ≤ pathMax
  · simp only [if_pos hfits]
    rw [pathSegs_append (.inl rfl), resolveSegs_append, hroot]
  · simp only [if_neg hfits]

theorem direntScan_some {name : Name} {dir : List DirChain} {c : DirChain}
    (h : direntScan name dir = some (some c)) : c ∈ dir ∧ direntTest c.dirent name = true := by
  induction dir with
  | nil => cases h
  | cons a dir ih =>
    unfold direntScan at h
    split at h
    next => cases h
    next =>
      split at h
      next ha =>
        cases h
        exact ⟨by simp, ha⟩
      next =>
        obtain ⟨hmem, htest⟩ := ih h
        exact ⟨by simp [hmem], htest⟩

/-- What a lookup finds is the inode of an entry with that name. -/
theorem h2LookupOne_found (hfs : fs.WellFormed) {d i : Nat} {name : Name}
    (h : h2LookupOne fs d name = .found i) :
    ∃ c ∈ fs.dirs d, c.error = 0 ∧ direntName c.dirent = name ∧ c.dirent.inum = i := by
  unfold h2LookupOne at h
  split at h
  next => cases h
  next => cases h
  next c hscan =>
    split at h
    next hok =>
      obtain ⟨hmem, htest⟩ := direntScan_some hscan
      have hc := (List.mem_filter.mp hmem).1
      have hname := (direntTest_direntName (hfs.namlen d c hc hok.1).1).mp htest
      exact ⟨c, hc, hok.1, hname, Resolved.found.inj h⟩
    next => cases h

/-- The last step of a path. -/
theorem resolveSegs_last {cur i : Nat} {segs : List Name} (h : resolveSegs fs cur segs = .found i) :
    (segs = [] ∧ i = cur) ∨ ∃ pre seg d, segs = pre ++ [seg] ∧
      resolveSegs fs cur pre = .found d ∧ h2LookupOne fs d seg = .found i := by
  rcases List.eq_nil_or_concat segs with rfl | ⟨pre, seg, rfl⟩
  · exact .inl ⟨rfl, (Resolved.found.inj h).symm⟩
  · refine .inr ⟨pre, seg, ?_⟩
    rw [List.concat_eq_append, resolveSegs_append] at h
    rw [List.concat_eq_append]
    cases hpre : resolveSegs fs cur pre with
    | found d =>
      refine ⟨d, rfl, rfl, ?_⟩
      simp only [hpre, resolveSegs] at h
      cases hone : h2LookupOne fs d seg with
      | found next =>
        rw [hone] at h
        exact h
      | missing => simp [hone] at h
      | fault => simp [hone] at h
    | missing => simp [hpre] at h
    | fault => simp [hpre] at h

/-- The components of a path hold no separator, and those of valid UTF-8 are valid. -/
theorem mem_pathSegs {seg p : List (BitVec 8)} {name : Name} (hback : backslash ∉ seg)
    (hslash : slash ∉ seg) (hvalid : Valid8 (seg ++ p)) (h : name ∈ pathSegs seg p) :
    Valid8 name ∧ backslash ∉ name ∧ slash ∉ name ∧ ∀ b ∈ name, b ∈ seg ++ p := by
  induction p generalizing seg with
  | nil =>
    unfold pathSegs at h
    split at h
    · cases h
    · rw [List.mem_singleton.mp h]
      rw [List.append_nil] at hvalid ⊢
      exact ⟨hvalid, hback, hslash, fun b hb => hb⟩
  | cons a p ih =>
    unfold pathSegs at h
    split at h
    next ha =>
      have hlt : a.toNat < 0x80 := by rcases ha with rfl | rfl <;> decide
      obtain ⟨hseg, hp⟩ := hvalid.split hlt
      rcases List.mem_append.mp h with h | h
      · split at h
        · cases h
        · rw [List.mem_singleton.mp h]
          exact ⟨hseg, hback, hslash, fun b hb => List.mem_append_left _ hb⟩
      · obtain ⟨hv, hb, hs, hsub⟩ := ih (by simp) (by simp) (by simpa using hp) h
        refine ⟨hv, hb, hs, fun b hmem => ?_⟩
        have := hsub b hmem
        simp_all
    next ha =>
      obtain ⟨hab, has⟩ := not_or.mp ha
      have hb' : backslash ∉ seg ++ [a] := by simp [hback, Ne.symm hab]
      have hs' : slash ∉ seg ++ [a] := by simp [hslash, Ne.symm has]
      have hv' : Valid8 (seg ++ [a] ++ p) := by simpa using hvalid
      obtain ⟨hv, hb, hs, hsub⟩ := ih hb' hs' hv' h
      exact ⟨hv, hb, hs, fun b hmem => by simpa using hsub b hmem⟩

/-- No inode has two names, and the root has none. -/
structure H2Mount.NoAlias (fs : H2Mount) : Prop where
  single : ∀ d, ∀ c ∈ fs.dirs d, ∀ d', ∀ c' ∈ fs.dirs d', c.error = 0 → c'.error = 0 →
    c.dirent.inum = c'.dirent.inum → d = d' ∧ direntName c.dirent = direntName c'.dirent
  root : ∀ d, ∀ c ∈ fs.dirs d, c.error = 0 → c.dirent.inum ≠ fs.root

/-- Then no directory that a path leads to is an entry of itself. -/
theorem inum_ne_self (hfs : fs.WellFormed) (halias : fs.NoAlias) {d : Nat} {segs : List Name}
    (hd : resolveSegs fs fs.root segs = .found d) {c : DirChain} (hc : c ∈ fs.dirs d)
    (herr : c.error = 0) : c.dirent.inum ≠ d := by
  induction hlen : segs.length generalizing segs with
  | zero =>
    obtain rfl := List.length_eq_zero_iff.mp hlen
    cases hd
    exact halias.root _ c hc herr
  | succ n ih =>
    rcases resolveSegs_last hd with ⟨rfl, -⟩ | ⟨pre, seg, d', rfl, hpre, hone⟩
    · cases hlen
    · intro heq
      obtain ⟨c', hc', herr', -, hinum⟩ := h2LookupOne_found hfs hone
      obtain ⟨rfl, -⟩ := halias.single d c hc d' c' hc' herr herr' (heq.trans hinum.symm)
      rw [List.length_append, List.length_singleton] at hlen
      exact ih hpre (by omega) heq

/-- The delivered name of an entry whose name is valid UTF-8 and has no NUL. -/
theorem direntFindData_name {skip : List (BitVec 8) → Nat} {e : Dirent}
    (hlen : (direntName e).length = e.namlen ∧ 0 < e.namlen ∧ e.namlen ≤ inodeMaxname)
    (hvalid : Valid8 (direntName e)) (hnul : 0#8 ∉ direntName e) :
    (direntFindData skip e).name = toWide skip (direntName e) := by
  have hwide := toWide_length_le skip (direntName e)
  have hne : direntName e ≠ [] := by
    intro heq
    rw [heq, List.length_nil] at hlen
    omega
  have hroom : ¬(direntName e = [] ∨ maxPath - 1 < (toWide skip (direntName e)).length) := by
    rintro (h | h)
    · exact hne h
    · unfold maxPath at h
      unfold inodeMaxname at hlen
      omega
  unfold direntFindData utf8ToWide
  rw [if_neg hroom]
  exact cstr_eq_self (zero_notMem_toWide skip hvalid hnul)

theorem zero_notMem_direntFindData (skip : List (BitVec 8) → Nat) (e : Dirent) :
    0#16 ∉ (direntFindData skip e).name := by
  unfold direntFindData utf8ToWide
  simp only
  split
  · simp
  · exact zero_notMem_cstr _

/-- The path of an openable entry leads to its inode. -/
theorem h2ResolvePath_openable (hfs : fs.WellFormed) {skip : List (BitVec 8) → Nat} {d : Nat}
    {path : List (BitVec 16)} {c : DirChain} (hpath : 0#16 ∉ path)
    (hd : h2ResolvePath fs path = .found d) (hc : c ∈ fs.dirs d)
    (hopen : ∀ c' ∈ fs.dirs d, Openable path c') :
    h2ResolvePath fs (entryPath skip path c) = .found c.dirent.inum := by
  have ho := hopen c hc
  have hlen := hfs.namlen d c hc ho.readable
  have hback : toUtf8 (direntFindData skip c.dirent).name = direntName c.dirent := by
    rw [direntFindData_name hlen ho.valid ho.nul, toUtf8_toWide skip ho.valid]
  have hne : direntName c.dirent ≠ [] := by
    intro heq
    rw [heq, List.length_nil] at hlen
    omega
  have hone := h2LookupOne_direntName hfs hc fun c' hc' => (hopen c' hc').readable
  unfold entryPath
  rw [h2ResolvePath_append hpath (zero_notMem_direntFindData skip _) hd, hback, hlen.1,
    if_pos ho.fits, pathSegs_of_no_sep ho.backslash ho.slash (by simpa using hne)]
  simp [resolveSegs, hone]

/-- Without aliases an entry whose path leads to its inode is openable. -/
theorem openable_of_resolves (hfs : fs.WellFormed) (halias : fs.NoAlias)
    {skip : List (BitVec 8) → Nat} {d : Nat} {path : List (BitVec 16)} {c : DirChain}
    (hpath : 0#16 ∉ path) (hd : h2ResolvePath fs path = .found d) (hc : c ∈ fs.dirs d)
    (herr : c.error = 0) (h : h2ResolvePath fs (entryPath skip path c) = .found c.dirent.inum) :
    Openable path c := by
  have hlen := hfs.namlen d c hc herr
  have hw := zero_notMem_direntFindData skip c.dirent
  unfold entryPath at h
  rw [h2ResolvePath_append hpath hw hd] at h
  split at h
  next hfits =>
    have hroot : ∃ segs, resolveSegs fs fs.root segs = .found d := by
      unfold h2ResolvePath at hd
      split at hd
      next => cases hd
      next p _ => exact ⟨_, hd⟩
    obtain ⟨segs, hroot⟩ := hroot
    rcases resolveSegs_last h with ⟨-, heq⟩ | ⟨pre, seg, d', hsegs, -, hone⟩
    · exact absurd heq (inum_ne_self hfs halias hroot hc herr)
    · obtain ⟨c', hc', herr', hname, hinum⟩ := h2LookupOne_found hfs hone
      obtain ⟨-, hsame⟩ := halias.single d c hc d' c' hc' herr herr' hinum.symm
      have hmem : direntName c.dirent ∈ pathSegs [] (toUtf8 (direntFindData skip c.dirent).name) := by
        rw [hsegs, hsame, hname]
        simp
      obtain ⟨hvalid, hb, hs, hsub⟩ :=
        mem_pathSegs (by simp) (by simp) (toUtf8_valid _) hmem
      have hnul : 0#8 ∉ direntName c.dirent :=
        fun h0 => zero_notMem_toUtf8 hw (by simpa using hsub _ h0)
      refine ⟨herr, hvalid, hnul, hb, hs, ?_⟩
      rw [direntFindData_name hlen hvalid hnul, toUtf8_toWide skip hvalid, hlen.1] at hfits
      exact hfits
  next => cases h

end Resolve

/-- Listing and opening agree for a directory whose entries are all openable. Where no inode has two
names and the listing returns, they agree for no other. -/
theorem find_files_agrees (skip : List (BitVec 8) → Nat) (fs : H2Mount) (hfs : fs.WellFormed) (d : Nat)
    (path : List (BitVec 16)) (hpath : 0#16 ∉ path) (hd : h2ResolvePath fs path = .found d) :
    ((∀ c ∈ fs.dirs d, Openable path c) → ListingAgrees skip fs d path) ∧
    (fs.NoAlias → (∀ c ∈ fs.dirs d, c.key ≠ keyMax) → ListingAgrees skip fs d path →
      ∀ c ∈ fs.dirs d, Openable path c) := by
  constructor
  · intro hopen fuel recs h
    refine ⟨?_, fun c hc => h2ResolvePath_openable hfs hpath hd hc hopen⟩
    rw [h2FindFiles_some hfs h, List.takeWhile_eq_self_iff.mpr]
    intro c hc
    simpa using (hopen c hc).readable
  · intro halias hmax hagrees c hc
    obtain ⟨fuel, recs, h⟩ := h2FindFiles_returns skip hfs hmax
    obtain ⟨hall, hresolve⟩ := hagrees fuel recs h
    have hread : ∀ c ∈ fs.dirs d, c.error = 0 := by
      rw [h2FindFiles_some hfs h] at hall
      have hlen := congrArg List.length (List.append_cancel_left hall)
      rw [List.length_map, List.length_map] at hlen
      have htake := (List.takeWhile_prefix fun c : DirChain => decide (c.error = 0)).eq_of_length hlen
      intro c hc
      simpa using List.takeWhile_eq_self_iff.mp htake c hc
    exact openable_of_resolves hfs halias hpath hd hc (hread c hc) (hresolve c hc)

/-- The file `a` in the root directory. -/
def oneEntry : DirChain where
  key := lhcBase [0x61#8] + 1
  dirent := { inum := 1024, type := 2, namlen := 1, check := nameBuf checkBytes [0x61#8], data := [] }
  error := 0
  loaded := true

def oneEntryMount : H2Mount where
  root := 1
  dirs d := if d = 1 then [oneEntry] else []
  inode i := i = 1024

theorem mem_oneEntryMount {d : Nat} {c : DirChain} (h : c ∈ oneEntryMount.dirs d) : c = oneEntry := by
  unfold oneEntryMount at h
  simp only at h
  split at h
  · exact List.mem_singleton.mp h
  · cases h

theorem oneEntryMount_wellFormed : oneEntryMount.WellFormed where
  sorted d := by
    unfold oneEntryMount
    simp only
    split <;> simp
  visible d c h := by
    rw [mem_oneEntryMount h]
    decide
  loaded d c h _ := by
    rw [mem_oneEntryMount h]
    rfl
  namlen d c h _ := by
    rw [mem_oneEntryMount h]
    decide
  hashed d c h _ := by
    rw [mem_oneEntryMount h]
    decide
  unique d c h c' h' _ _ _ := by rw [mem_oneEntryMount h, mem_oneEntryMount h']
  inode d c h _ := by
    rw [mem_oneEntryMount h]
    rfl

theorem oneEntry_openable : Openable [] oneEntry where
  readable := rfl
  valid := ⟨[0x61], by decide, by decide⟩
  nul := by decide
  backslash := by decide
  slash := by decide
  fits := by decide

theorem find_files_agrees_one_entry :
    oneEntryMount.WellFormed ∧ h2ResolvePath oneEntryMount [] = .found 1 ∧
    ListingAgrees (fun _ => 0) oneEntryMount 1 [] := by
  refine ⟨oneEntryMount_wellFormed, by decide, ?_⟩
  apply (find_files_agrees (fun _ => 0) oneEntryMount oneEntryMount_wellFormed 1 [] (by simp) (by decide)).1
  intro c hc
  rw [mem_oneEntryMount hc]
  exact oneEntry_openable

/-- An entry with a long name in a block that cannot be read. -/
def unreadableEntry : DirChain where
  key := dirhashVisible
  dirent := { inum := 1024, type := 2, namlen := 65, check := [], data := [] }
  error := 1
  loaded := false

def unreadableMount : H2Mount where
  root := 1
  dirs d := if d = 1 then [unreadableEntry] else []
  inode i := i = 1024

theorem mem_unreadableMount {d : Nat} {c : DirChain} (h : c ∈ unreadableMount.dirs d) :
    c = unreadableEntry := by
  unfold unreadableMount at h
  simp only at h
  split at h
  · exact List.mem_singleton.mp h
  · cases h

theorem unreadable_error {d : Nat} {c : DirChain} (h : c ∈ unreadableMount.dirs d) : c.error ≠ 0 := by
  rw [mem_unreadableMount h]
  decide

theorem unreadableMount_wellFormed : unreadableMount.WellFormed where
  sorted d := by
    unfold unreadableMount
    simp only
    split <;> simp
  visible d c h := by
    rw [mem_unreadableMount h]
    decide
  loaded d c h herr := absurd herr (unreadable_error h)
  namlen d c h herr := absurd herr (unreadable_error h)
  hashed d c h herr := absurd herr (unreadable_error h)
  unique d c h c' h' herr _ _ := absurd herr (unreadable_error h)
  inode d c h herr := absurd herr (unreadable_error h)

/-- The listing of a directory with an entry that cannot be read returns `STATUS_SUCCESS` without the
entry. -/
theorem find_files_misses_unreadable :
    ¬∀ (skip : List (BitVec 8) → Nat) (fs : H2Mount) (d : Nat) (path : List (BitVec 16)),
      fs.WellFormed → 0#16 ∉ path → h2ResolvePath fs path = .found d →
      ListingAgrees skip fs d path := by
  intro h
  have hagrees := h (fun _ => 0) unreadableMount 1 [] unreadableMount_wellFormed (by simp) (by decide)
  have hlist : h2FindFiles (fun _ => 0) unreadableMount 1 1 = some dotFindData := by rfl
  have hlen := congrArg List.length (hagrees 1 dotFindData hlist).1
  simp [dotFindData, unreadableMount] at hlen

end Hammer2
