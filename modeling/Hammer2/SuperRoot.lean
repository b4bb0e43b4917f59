import Mathlib.Tactic
import Hammer2.Directory
import Hammer2.WindowsListing
import Hammer2.WindowsRead

namespace Hammer2

/-- `HAMMER2_ERROR_EEXIST` -/
def errorEEXIST : Nat := 0x8000

/-- `HAMMER2_ERROR_ENOSPC` -/
def errorENOSPC : Nat := 0x20

/-- The label of a PFS. `hammer2_inode_create_pfs` asserts its length. -/
structure PfsName where
  bytes : Name
  short : bytes.length < inodeMaxname

structure PfsInode where
  filename : Name
  type : Nat
deriving DecidableEq

/-- A chain under the super-root. It has no data when its creation failed after it was linked. -/
structure SupChain where
  key : Nat
  data : Option PfsInode
deriving DecidableEq

/-- The chains under the super-root of a device, in key order. -/
structure SuperRoot where
  chains : List SupChain
  sorted : chains.Pairwise fun c d => c.key < d.key

def insertChain (c : SupChain) : List SupChain → List SupChain
  | [] => [c]
  | d :: l => if c.key < d.key then c :: d :: l else d :: insertChain c l

theorem insertChain_perm (c : SupChain) (l : List SupChain) : (insertChain c l).Perm (c :: l) := by
  induction l with
  | nil => exact .refl _
  | cons d l ih =>
    unfold insertChain
    split
    next => exact .refl _
    next => exact (ih.cons d).trans (.swap c d l)

theorem insertChain_sorted {c : SupChain} {l : List SupChain}
    (h : l.Pairwise fun c d => c.key < d.key) (hc : ∀ d ∈ l, d.key ≠ c.key) :
    (insertChain c l).Pairwise fun c d => c.key < d.key := by
  induction l with
  | nil => exact List.pairwise_singleton _ c
  | cons d l ih =>
    obtain ⟨hd, hl⟩ := List.pairwise_cons.mp h
    have hne : d.key ≠ c.key := hc d List.mem_cons_self
    unfold insertChain
    split
    next hlt =>
      refine List.pairwise_cons.mpr ⟨?_, h⟩
      intro e he
      rcases List.mem_cons.mp he with rfl | he
      · exact hlt
      · exact hlt.trans (hd e he)
    next hge =>
      refine List.pairwise_cons.mpr ⟨?_, ih hl fun e he => hc e (List.mem_cons_of_mem d he)⟩
      intro e he
      rcases List.mem_cons.mp ((insertChain_perm c l).mem_iff.mp he) with rfl | he
      · omega
      · exact hd e he

def SuperRoot.insert (root : SuperRoot) (c : SupChain) (h : ∀ d ∈ root.chains, d.key ≠ c.key) :
    SuperRoot :=
  ⟨insertChain c root.chains, insertChain_sorted root.sorted h⟩

/-- `hammer2_chain_delete` of the chain at a key. -/
def SuperRoot.delete (root : SuperRoot) (key : Nat) : SuperRoot :=
  ⟨root.chains.filter fun c => c.key ≠ key, root.sorted.filter _⟩

/-- What the chain layer reports while it passes over the super-root: whether the root chain is
missing, the error of each chain, the chains whose data is not there, and a key from which on an
error ends the iteration. -/
structure ScanFaults where
  noParent : Bool
  error : Nat → Nat
  unread : Nat → Bool
  cut : Option (Nat × Nat)

/-- What `hammer2_chain_lookup` and `hammer2_chain_next` return from `lo` to `hi`, and the error that
the last of these calls leaves. -/
def SuperRoot.range (root : SuperRoot) (f : ScanFaults) (lo hi : Nat) : List SupChain × Nat :=
  let l := root.chains.filter fun c => lo ≤ c.key ∧ c.key ≤ hi
  match f.cut with
  | none => (l, 0)
  | some (key, error) =>
    if key ≤ hi ∧ error ≠ 0 then (l.filter fun c => c.key < key, error) else (l, 0)

/-- What `hammer2_xop_scanlhc` feeds: the keys of the collision space with the errors of their
chains, and the error that comes with the final NULL. -/
def xopScanlhc (root : SuperRoot) (f : ScanFaults) (lhc : Nat) : List (Nat × Nat) × Nat :=
  if f.noParent then ([], errorEIO)
  else
    let r := root.range f lhc (lhc + dirhashLomask)
    (r.1.map fun c => (c.key, f.error c.key), r.2)

/-- The loop of `hammer2_inode_create_pfs` over what `hammer2_xop_collect` returns: the error that
ends it and the key it has come to. -/
def scanUnused : Nat → List (Nat × Nat) → Nat → Nat × Nat
  | lhc, [], last => (if last = 0 then errorENOENT else last, lhc)
  | lhc, (key, error) :: fed, last =>
    if error ≠ 0 then (error, lhc)
    else if lhc ≠ key then (0, lhc)
    else scanUnused (lhc + 1) fed last

/-- The key under which `hammer2_inode_create_pfs` creates; `none` where it leaves by `done2`. -/
def createKey (lhcbase : Nat) (fed : List (Nat × Nat)) (last : Nat) : Option Nat :=
  let r := scanUnused lhcbase fed last
  if r.1 ≠ 0 ∧ r.1 ≠ errorENOENT then none
  else
    let lhc := if r.1 = 0 then r.2 else r.2 + 1
    if lhc / (dirhashLomask + 1) = lhcbase / (dirhashLomask + 1) then some lhc else none

/-- What `hammer2_xop_inode_create` meets: the root chain missing, or an error while the chain is
created, before or after it is linked under the super-root. -/
structure CreateFaults where
  noParent : Bool
  error : Nat
  linked : Bool

/-- `hammer2_xop_inode_create`, with the error that it feeds. -/
def xopInodeCreate (root : SuperRoot) (f : CreateFaults) (lhc : Nat) (data : PfsInode) :
    Nat × SuperRoot :=
  if f.noParent then ( errorEIO, root)
  else if h : ∀ d ∈ root.chains, d.key ≠ lhc then
    if f.error = 0 then (0, root.insert ⟨lhc, some data⟩ h)
    else (f.error, if f.linked then root.insert ⟨lhc, none⟩ h else root)
  else (errorEEXIST, root)

structure CreatePfsFaults where
  scan : ScanFaults
  create : CreateFaults

/-- What `hammer2_inode_create_pfs` leaves in `*errorp` and returns. -/
structure CreatePfsResult where
  errorp : Nat
  nip : Option PfsInode
deriving DecidableEq

/-- `hammer2_inode_create_pfs` -/
def inodeCreatePfs (root : SuperRoot) (f : CreatePfsFaults) (name : PfsName) :
    CreatePfsResult × SuperRoot :=
  let lhcbase := lhcBase name.bytes
  let fed := xopScanlhc root f.scan lhcbase
  match createKey lhcbase fed.1 fed.2 with
  | none => (⟨0, none⟩, root)
  | some lhc =>
    let data : PfsInode := ⟨name.bytes, objtypeDirectory⟩
    let r := xopInodeCreate root f.create lhc data
    (⟨r.1, if r.1 = 0 then some data else none⟩, r.2)

/-- What the callers of `hammer2_inode_create_pfs` assume of its result. -/
def CreatePfsResult.Reports (r : CreatePfsResult) : Prop :=
  (r.nip = none → r.errorp ≠ 0) ∧ (r.errorp = 0 → r.nip ≠ none)

/-- What a scan meets after `n` used keys from `lhcbase` on when the next key can be taken: the end,
or a chain further on. An `ENOENT` counts as the end, where the code goes one key further. -/
def UnusedAfter (lhcbase n last : Nat) : List (Nat × Nat) → Prop
  | [] => (last = 0 ∨ last = errorENOENT) ∧ n < dirhashLomask
  | (key, error) :: _ =>
    (error = 0 ∧ key ≠ lhcbase + n ∧ n ≤ dirhashLomask) ∨ (error = errorENOENT ∧ n < dirhashLomask)

/-- The scan of a collision space passes consecutive used keys without an error and comes to one that
can be taken. -/
def FindsUnused (lhcbase : Nat) (fed : List (Nat × Nat)) (last : Nat) : Prop :=
  ∃ n rest, fed = (List.range' lhcbase n).map (fun key => (key, 0)) ++ rest ∧
    UnusedAfter lhcbase n last rest

theorem scanUnused_used (lhc last : Nat) (fed : List (Nat × Nat)) :
    scanUnused lhc ((lhc, 0) :: fed) last = scanUnused (lhc + 1) fed last := by
  conv_lhs => unfold scanUnused
  rw [if_neg (by simp), if_neg (by simp)]

theorem scanUnused_run (lhc n last : Nat) (rest : List (Nat × Nat)) :
    scanUnused lhc ((List.range' lhc n).map (fun key => (key, 0)) ++ rest) last =
      scanUnused (lhc + n) rest last := by
  induction n generalizing lhc with
  | zero => rfl
  | succ n ih =>
    rw [List.range'_succ, List.map_cons, List.cons_append, scanUnused_used, ih, Nat.add_assoc,
      Nat.add_comm 1]

/-- Whatever is fed begins with a longest run of consecutive keys. -/
theorem exists_run (lhc : Nat) (fed : List (Nat × Nat)) :
    ∃ n rest, fed = (List.range' lhc n).map (fun key => (key, 0)) ++ rest ∧
      ∀ p ∈ rest.head?, p ≠ (lhc + n, 0) := by
  induction fed generalizing lhc with
  | nil => exact ⟨0, [], rfl, by simp⟩
  | cons p fed ih =>
    by_cases hp : p = (lhc, 0)
    · obtain ⟨n, rest, hfed, hrest⟩ := ih (lhc + 1)
      refine ⟨n + 1, rest, ?_, ?_⟩
      · rw [List.range'_succ, List.map_cons, List.cons_append, hp, hfed]
      · intro q hq
        have hne := hrest q hq
        rwa [Nat.add_right_comm, Nat.add_assoc] at hne
    · refine ⟨0, p :: fed, rfl, ?_⟩
      intro q hq
      cases Option.some.inj hq
      exact hp

/-- The key that the scan has come to is used if the scan ended without an error; at the end of the
collision space the code goes one key further. -/
theorem createKey_isSome {lhcbase n last error : Nat} {fed : List (Nat × Nat)}
    (hbase : lhcbase % 32768 = 0) (hscan : scanUnused lhcbase fed last = (error, lhcbase + n)) :
    (createKey lhcbase fed last).isSome ↔
      (error = 0 ∧ n ≤ dirhashLomask) ∨ (error = errorENOENT ∧ n < dirhashLomask) := by
  unfold createKey dirhashLomask
  rw [hscan]
  by_cases h0 : error = 0
  · subst h0
    have hwin : (lhcbase + n) / 32768 = lhcbase / 32768 ↔ n ≤ 0x7fff := by omega
    simp [hwin, errorENOENT]
  · by_cases he : error = errorENOENT
    · subst he
      have hwin : (lhcbase + n + 1) / 32768 = lhcbase / 32768 ↔ n < 0x7fff := by omega
      simp [hwin, errorENOENT]
    · simp [h0, he]

theorem createKey_run {lhcbase n last : Nat} {rest : List (Nat × Nat)} (hbase : lhcbase % 32768 = 0)
    (hrest : ∀ p ∈ rest.head?, p ≠ (lhcbase + n, 0)) :
    (createKey lhcbase ((List.range' lhcbase n).map (fun key => (key, 0)) ++ rest) last).isSome ↔
      UnusedAfter lhcbase n last rest := by
  unfold UnusedAfter
  cases rest with
  | nil =>
    rw [createKey_isSome hbase (scanUnused_run lhcbase n last [])]
    by_cases hl : last = 0
    · simp [hl, errorENOENT]
    · simp [hl]
  | cons p fed =>
    obtain ⟨key, error⟩ := p
    have hne : (key, error) ≠ (lhcbase + n, 0) := hrest _ rfl
    by_cases he : error = 0
    · subst he
      have hkey : key ≠ lhcbase + n := by
        intro hk
        exact hne (by rw [hk])
      have hstop : scanUnused (lhcbase + n) ((key, 0) :: fed) last = (0, lhcbase + n) := by
        unfold scanUnused
        rw [if_neg (by simp), if_pos hkey.symm]
      rw [createKey_isSome hbase ((scanUnused_run lhcbase n last _).trans hstop)]
      simp [hkey, errorENOENT]
    · have hstop : scanUnused (lhcbase + n) ((key, error) :: fed) last = (error, lhcbase + n) := by
        unfold scanUnused
        exact if_pos he
      rw [createKey_isSome hbase ((scanUnused_run lhcbase n last _).trans hstop)]
      simp [he]

theorem createKey_isSome_iff {lhcbase last : Nat} {fed : List (Nat × Nat)}
    (hbase : lhcbase % 32768 = 0) :
    (createKey lhcbase fed last).isSome ↔ FindsUnused lhcbase fed last := by
  constructor
  · intro h
    obtain ⟨n, rest, rfl, hrest⟩ := exists_run lhcbase fed
    exact ⟨n, rest, rfl, (createKey_run hbase hrest).mp h⟩
  · rintro ⟨n, rest, rfl, h⟩
    refine (createKey_run hbase ?_).mpr h
    intro p hp
    cases rest with
    | nil => cases hp
    | cons q rest =>
      cases Option.some.inj hp
      rintro rfl
      simp [UnusedAfter, errorENOENT] at h

/-- Creation of a PFS reports its failures just when its scan comes to an unused key. -/
theorem inodeCreatePfs_reports_iff (root : SuperRoot) (f : CreatePfsFaults) (name : PfsName) :
    (inodeCreatePfs root f name).1.Reports ↔
      FindsUnused (lhcBase name.bytes) (xopScanlhc root f.scan (lhcBase name.bytes)).1
        (xopScanlhc root f.scan (lhcBase name.bytes)).2 := by
  rw [← createKey_isSome_iff (lhcBase_mod name.bytes)]
  unfold inodeCreatePfs CreatePfsResult.Reports
  cases hkey : createKey (lhcBase name.bytes) (xopScanlhc root f.scan (lhcBase name.bytes)).1
      (xopScanlhc root f.scan (lhcBase name.bytes)).2 with
  | none => simp [hkey]
  | some lhc =>
    simp only [hkey, Option.isSome_some, iff_true]
    by_cases h0 : (xopInodeCreate root f.create lhc ⟨name.bytes, objtypeDirectory⟩).1 = 0
    · simp [h0]
    · simp [h0]

def labelA : PfsName := ⟨[0x61#8], by decide⟩

/-- The super-root of a device with one PFS. -/
def oneLabel : SuperRoot :=
  ⟨[⟨lhcBase labelA.bytes, some ⟨labelA.bytes, objtypeDirectory⟩⟩], List.pairwise_singleton _ _⟩

def scanQuiet : ScanFaults := ⟨false, fun _ => 0, fun _ => false, none⟩

/-- The check code of the inode in the way does not match. Nothing is created, and no error is
reported. -/
theorem create_pfs_hides_check_error :
    (inodeCreatePfs oneLabel ⟨{ scanQuiet with error := fun _ => errorCheck }, ⟨false, 0, false⟩⟩
      labelA).1 = ⟨0, none⟩ ∧
    ¬ (inodeCreatePfs oneLabel ⟨{ scanQuiet with error := fun _ => errorCheck }, ⟨false, 0, false⟩⟩
      labelA).1.Reports := by
  have hresult : (inodeCreatePfs oneLabel
      ⟨{ scanQuiet with error := fun _ => errorCheck }, ⟨false, 0, false⟩⟩ labelA).1 = ⟨0, none⟩ := by
    decide
  refine ⟨hresult, ?_⟩
  rw [hresult]
  intro h
  exact h.1 rfl rfl

end Hammer2
