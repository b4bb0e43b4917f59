import Mathlib.Tactic

namespace Hammer2

/-- The meta-data of an inode: what the sync looks at, and the other fields. -/
structure InodeMeta (μ : Type) where
  size : Nat
  directdata : Bool
  other : μ
deriving DecidableEq

/-- `hammer2_inode_t` with its flags. -/
structure FrontInode (μ : Type) where
  metaData : InodeMeta μ
  osize : Nat
  resized : Bool
  modified : Bool
  creating : Bool
  deleting : Bool
  isunlinked : Bool
deriving DecidableEq

/-- Where a chain is in the topology. Only a chain in the block map of its parent has to modify the
parent to leave it. -/
inductive ChainPlace where
  | detached
  | rbtree
  | blkmapped
deriving DecidableEq

/-- A `DATA` chain of a file. -/
structure FileBlock where
  key : Nat
  place : ChainPlace
deriving DecidableEq

/-- The chain of an inode: `ipdata` with the area that holds either data or blockrefs, and the data
chains in the order of their keys. -/
structure BackInode (μ : Type) where
  metaData : InodeMeta μ
  area : List Nat
  place : ChainPlace
  blocks : List FileBlock
deriving DecidableEq

/-- An inode and its chain; `occupied` says that another chain has its key under the root. -/
structure SyncedInode (μ : Type) where
  front : FrontInode μ
  back : BackInode μ
  occupied : Bool
deriving DecidableEq

/-- What goes wrong in the backend; 0 stands for no error. The steps of the scan are numbered, and the
deletion of a block modifies the parent of the block. -/
structure SyncFaults where
  noChain : Bool := false
  noRoot : Bool := false
  parentError : Nat := 0
  scanError : Nat → Nat := fun _ => 0
  deleteError : Nat → Nat := fun _ => 0
  modifyError : Nat := 0
  lookupError : Nat := 0
  createError : Nat := 0
  unlinkError : Nat := 0

/-- `HAMMER2_ERROR_*`. -/
def inodeErrorEio : Nat := 0x01
def inodeErrorEnoent : Nat := 0x40
def inodeErrorEexist : Nat := 0x8000

/-- The first key of the blocks that lie beyond the end of a file of this size. -/
def truncBase (size : Nat) : Nat := (size + 65535) % 2 ^ 64 / 65536 * 65536

/-- `hammer2_xop_collect` as the frontend sees it: `HAMMER2_ERROR_ENOENT` is no error. -/
def collectError (error : Nat) : Nat := if error = inodeErrorEnoent then 0 else error

section Backend

variable {μ : Type} (faults : SyncFaults)

/-- The deletion of one block leaves it where it is if the parent cannot be modified; nobody looks at
the error. -/
def deleteBlock (block : FileBlock) : Bool :=
  block.place ≠ .blkmapped || faults.deleteError block.key = 0

/-- The loop over the blocks beyond the end of the file, from its step `n` on: the blocks that are
left, and the error that ended it. -/
def truncateScan : Nat → List FileBlock → List FileBlock × Nat
  | n, [] => ([], faults.scanError n)
  | n, block :: blocks =>
    if faults.scanError n ≠ 0 then (block :: blocks, faults.scanError n)
    else
      let (rest, error) := truncateScan (n + 1) blocks
      if deleteBlock faults block then (rest, error) else (block :: rest, error)

/-- The blocks that a truncation to `size` has to delete. A file with embedded data has none. -/
def BackInode.beyond (back : BackInode μ) (size : Nat) : List FileBlock :=
  if back.metaData.directdata then [] else back.blocks.filter (truncBase size ≤ ·.key)

def truncateBlocks (size : Nat) (back : BackInode μ) : BackInode μ × Nat :=
  if back.metaData.directdata then (back, 0)
  else
    let (rest, error) := truncateScan faults 0 (back.beyond size)
    ({ back with blocks := back.blocks.filter (·.key < truncBase size) ++ rest }, error)

/-- `hammer2_xop_inode_chain_sync`; `osize` is there if the inode was resized. -/
def xopInodeChainSync (osize : Option Nat) (metaData : InodeMeta μ) (clearDirectdata : Bool)
    (back : BackInode μ) : BackInode μ × Nat :=
  if faults.noChain then (back, inodeErrorEio)
  else if faults.parentError ≠ 0 then (back, faults.parentError)
  else
    let (back, error) :=
      match osize with
      | none => (back, 0)
      | some osize =>
        if metaData.size < osize then truncateBlocks faults metaData.size back else (back, 0)
    if error ≠ 0 then (back, error)
    else if faults.modifyError ≠ 0 then (back, faults.modifyError)
    else
      let area := if clearDirectdata then List.replicate back.area.length 0 else back.area
      ({ back with metaData := metaData, area := area }, 0)

/-- `hammer2_xop_inode_create_ins`; `none` is a failed assertion. A failed lookup leaves a parent with
an error, which `hammer2_chain_create` asserts not to get. -/
def xopInodeCreateIns (occupied : Bool) (back : BackInode μ) : Option (BackInode μ × Nat) :=
  if faults.noRoot then some (back, inodeErrorEio)
  else if faults.lookupError = 0 ∧ (occupied ∨ back.place ≠ .detached) then
    some (back, inodeErrorEexist)
  else if faults.noChain then some (back, inodeErrorEio)
  else if faults.lookupError ≠ 0 then none
  else if faults.createError ≠ 0 then some (back, faults.createError)
  else some ({ back with place := .rbtree }, 0)

/-- `hammer2_xop_inode_destroy`; `none` is a failed assertion. The error of `hammer2_chain_delete` is
not looked at. -/
def xopInodeDestroy (creating : Bool) (back : BackInode μ) : Option (BackInode μ × Nat) :=
  if faults.noChain then some (back, inodeErrorEio)
  else
    match creating, back.place with
    | true, .detached => some (back, 0)
    | true, _ => none
    | false, .detached => none
    | false, .rbtree => some ({ back with place := .detached }, 0)
    | false, .blkmapped =>
      if faults.unlinkError ≠ 0 then some (back, 0) else some ({ back with place := .detached }, 0)

end Backend

section Frontend

variable {μ : Type}

/-- The sync turns embedded data into blockrefs. -/
def FrontInode.clearDirectdata (front : FrontInode μ) : Bool :=
  front.resized && front.metaData.directdata && 512 < front.metaData.size

/-- The meta-data that the sync writes. -/
def FrontInode.syncMeta (front : FrontInode μ) : InodeMeta μ :=
  { front.metaData with
    directdata := front.metaData.directdata && !front.clearDirectdata }

variable (faults : SyncFaults) (s : SyncedInode μ)

/-- `hammer2_inode_chain_sync` with its return value. -/
def inodeSync : SyncedInode μ × Nat :=
  if s.front.resized || s.front.modified then
    let osize := if s.front.resized then some s.front.osize else none
    let front := { s.front with
      metaData := s.front.syncMeta
      resized := false
      modified := false }
    let (back, error) :=
      xopInodeChainSync faults osize front.metaData s.front.clearDirectdata s.back
    ({ s with front := front, back := back }, collectError error)
  else (s, 0)

/-- `hammer2_inode_chain_ins` -/
def inodeIns : Option (SyncedInode μ × Nat) :=
  if s.front.creating then
    let front := { s.front with creating := false }
    (xopInodeCreateIns faults s.occupied s.back).map fun (back, error) =>
      ({ s with front := front, back := back }, collectError error)
  else some (s, 0)

/-- `hammer2_inode_chain_des` -/
def inodeDes : Option (SyncedInode μ × Nat) :=
  if s.front.deleting then
    let front := { s.front with deleting := false, isunlinked := false }
    (xopInodeDestroy faults front.creating s.back).map fun (back, error) =>
      ({ s with front := front, back := back }, collectError error)
  else some (s, 0)

/-- What `hammer2_vfs_sync_pmp` does to an inode of the sync queue before it flushes the chain. -/
def inodeTurn : Option (SyncedInode μ) :=
  (if s.front.deleting then (inodeDes faults s).map (·.1)
    else if s.front.creating then (inodeIns faults s).map (·.1)
    else some s).map fun s => (inodeSync faults s).1

end Frontend

/-- The three steps that bring the frontend state of an inode into the topology. -/
inductive SyncStep where
  | sync
  | ins
  | des
deriving DecidableEq

section Steps

variable {μ : Type}

def SyncStep.run (faults : SyncFaults) (s : SyncedInode μ) : SyncStep → Option (SyncedInode μ × Nat)
  | .sync => some (inodeSync faults s)
  | .ins => inodeIns faults s
  | .des => inodeDes faults s

/-- The flag that makes a sync perform the step. -/
def SyncStep.pending (front : FrontInode μ) : SyncStep → Bool
  | .sync => front.resized || front.modified
  | .ins => front.creating
  | .des => front.deleting

/-- The blocks that the sync of the inode has to delete. -/
def SyncedInode.truncated (s : SyncedInode μ) : List FileBlock :=
  if s.front.resized ∧ s.front.metaData.size < s.front.osize then
    s.back.beyond s.front.metaData.size
  else []

/-- The effect of the step from `s` on is there in `s'`: the meta-data is written and the truncated
blocks are deleted, the inode is in the topology, or it is not. -/
def SyncStep.Achieved (s s' : SyncedInode μ) : SyncStep → Prop
  | .sync => s'.back.metaData = s.front.syncMeta ∧ ∀ block ∈ s.truncated, block ∉ s'.back.blocks
  | .ins => s'.back.place ≠ .detached
  | .des => s'.back.place = .detached

/-- The chain of the inode is there and has no error. -/
def SyncFaults.reached (faults : SyncFaults) : Prop :=
  faults.noChain = false ∧ faults.parentError = 0

/-- The backend operations that the step needs succeed, or there is nothing for them to do. -/
def SyncStep.Succeeds (faults : SyncFaults) (s : SyncedInode μ) : SyncStep → Prop
  | .sync =>
    (s.back.metaData = s.front.syncMeta ∨
      faults.reached ∧ faults.modifyError = 0 ∧
        (s.front.resized → s.front.metaData.size < s.front.osize →
          s.back.metaData.directdata = false →
            ∀ n ≤ s.truncated.length, faults.scanError n = 0)) ∧
    ∀ n (h : n < s.truncated.length), faults.reached ∧ faults.scanError n = 0 ∧
      deleteBlock faults s.truncated[n] = true
  | .ins =>
    s.back.place ≠ .detached ∨
      faults.noRoot = false ∧ faults.noChain = false ∧
        (faults.lookupError = 0 → s.occupied = false ∧ faults.createError = 0)
  | .des =>
    s.back.place = .detached ∨
      faults.noChain = false ∧
        (s.front.creating = false → s.back.place = .blkmapped → faults.unlinkError = 0)

/-- The inode keeps the flag of the step unless the step achieves its effect. -/
def SyncStep.Retried (faults : SyncFaults) (s : SyncedInode μ) (step : SyncStep) : Prop :=
  ∀ s' error, step.run faults s = some (s', error) → step.pending s.front →
    step.Achieved s s' ∨ step.pending s'.front

end Steps

section Scan

variable {μ : Type} {faults : SyncFaults}

theorem truncateScan_error (n : Nat) (blocks : List FileBlock) :
    (truncateScan faults n blocks).2 = 0 ↔
      ∀ k ≤ blocks.length, faults.scanError (n + k) = 0 := by
  induction blocks generalizing n with
  | nil => simp [truncateScan]
  | cons block blocks ih =>
    unfold truncateScan
    split
    next he =>
      constructor
      · intro h
        exact absurd h he
      · intro h
        exact absurd (h 0 (Nat.zero_le _)) he
    next he =>
      have hpair : ∀ rest (error : Nat), (if deleteBlock faults block = true then (rest, error)
          else (block :: rest, error)).2 = error := by
        intro rest error
        split <;> rfl
      dsimp only
      rw [hpair, ih]
      constructor
      · intro h k hk
        cases k with
        | zero => simpa using he
        | succ k =>
          have hk' := h k (by simpa using hk)
          rwa [Nat.add_right_comm, Nat.add_assoc] at hk'
      · intro h k hk
        have hk' := h (k + 1) (by simpa using hk)
        rwa [← Nat.add_assoc, Nat.add_right_comm] at hk'

theorem truncateScan_subset (n : Nat) (blocks : List FileBlock) :
    ∀ block ∈ (truncateScan faults n blocks).1, block ∈ blocks := by
  induction blocks generalizing n with
  | nil => simp [truncateScan]
  | cons b blocks ih =>
    intro block hb
    unfold truncateScan at hb
    dsimp only at hb
    split at hb
    next => exact hb
    next =>
      split at hb
      next => exact List.mem_cons_of_mem _ (ih (n + 1) block hb)
      next =>
        rcases List.mem_cons.mp hb with heq | hb
        · exact List.mem_cons.mpr (Or.inl heq)
        · exact List.mem_cons_of_mem _ (ih (n + 1) block hb)

/-- The scan deletes every block just when it gets to each of them and none resists. -/
theorem truncateScan_nil (n : Nat) (blocks : List FileBlock) :
    (truncateScan faults n blocks).1 = [] ↔
      ∀ k (h : k < blocks.length), faults.scanError (n + k) = 0 ∧
        deleteBlock faults blocks[k] = true := by
  induction blocks generalizing n with
  | nil => simp [truncateScan]
  | cons block blocks ih =>
    unfold truncateScan
    dsimp only
    split
    next he =>
      constructor
      · intro h
        cases h
      · intro h
        exact absurd (h 0 (by simp)).1 he
    next he =>
      have hz : faults.scanError n = 0 := not_not.mp he
      split
      next hd =>
        rw [ih]
        constructor
        · intro h k hk
          cases k with
          | zero => exact ⟨hz, hd⟩
          | succ k =>
            have hk' := h k (by simpa using hk)
            rwa [Nat.add_right_comm, Nat.add_assoc] at hk'
        · intro h k hk
          have hk' := h (k + 1) (by simpa using hk)
          rwa [← Nat.add_assoc, Nat.add_right_comm] at hk'
      next hd =>
        constructor
        · intro h
          cases h
        · intro h
          exact absurd (h 0 (by simp)).2 hd

/-- A block at a multiple of the block size is deleted just when it lies beyond the end of the file,
as long as the size does not come close to 2^64. -/
theorem truncBase_le_iff {size key : Nat} (hs : size ≤ 2 ^ 63) (hk : key % 65536 = 0) :
    truncBase size ≤ key ↔ size ≤ key := by
  unfold truncBase
  omega

theorem truncateBlocks_error (size : Nat) (back : BackInode μ) :
    (truncateBlocks faults size back).2 = 0 ↔
      (back.metaData.directdata = false →
        ∀ n ≤ (back.beyond size).length, faults.scanError n = 0) := by
  unfold truncateBlocks
  cases hd : back.metaData.directdata with
  | true => simp
  | false =>
    have : (truncateScan faults 0 (back.beyond size)).2 = 0 ↔ _ := truncateScan_error 0 _
    simpa using this

theorem truncateBlocks_metaData (size : Nat) (back : BackInode μ) :
    (truncateBlocks faults size back).1.metaData = back.metaData := by
  unfold truncateBlocks
  split <;> rfl

theorem truncateBlocks_gone (size : Nat) (back : BackInode μ) :
    (∀ block ∈ back.beyond size, block ∉ (truncateBlocks faults size back).1.blocks) ↔
      ∀ n (h : n < (back.beyond size).length), faults.scanError n = 0 ∧
        deleteBlock faults (back.beyond size)[n] = true := by
  have hscan : (truncateScan faults 0 (back.beyond size)).1 = [] ↔ _ := truncateScan_nil 0 _
  simp only [Nat.zero_add] at hscan
  rw [← hscan]
  by_cases hd : back.metaData.directdata = true
  · have hnil : back.beyond size = [] := by simp [BackInode.beyond, hd]
    simp only [hnil]
    simp [truncateScan]
  · have hb : (truncateBlocks faults size back).1.blocks =
        back.blocks.filter (·.key < truncBase size) ++
          (truncateScan faults 0 (back.beyond size)).1 := by
      unfold truncateBlocks
      rw [if_neg hd]
    rw [hb]
    constructor
    · intro h
      refine List.eq_nil_iff_forall_not_mem.mpr fun block hmem => ?_
      exact h block (truncateScan_subset 0 _ block hmem) (List.mem_append_right _ hmem)
    · intro h block hmem
      have hge : truncBase size ≤ block.key := by
        rw [BackInode.beyond, if_neg hd] at hmem
        simpa using (List.mem_filter.mp hmem).2
      rw [h, List.append_nil]
      intro hlow
      have hlt : block.key < truncBase size := by simpa using (List.mem_filter.mp hlow).2
      omega

end Scan

section Retry

variable {μ : Type} {faults : SyncFaults} {s : SyncedInode μ}

/-- The osize that the backend gets. -/
def FrontInode.syncOsize (front : FrontInode μ) : Option Nat :=
  if front.resized then some front.osize else none

theorem inodeSync_pending (h : SyncStep.sync.pending s.front = true) :
    (inodeSync faults s).1.back =
      (xopInodeChainSync faults s.front.syncOsize s.front.syncMeta s.front.clearDirectdata s.back).1 := by
  unfold inodeSync
  unfold SyncStep.pending at h
  rw [if_pos h]
  rfl

/-- What the scan of the truncated blocks, if there is one, leaves and reports. -/
def scannedBack (faults : SyncFaults) (s : SyncedInode μ) : BackInode μ × Nat :=
  if s.front.resized ∧ s.front.metaData.size < s.front.osize then
    truncateBlocks faults s.front.metaData.size s.back
  else (s.back, 0)

theorem xopInodeChainSync_eq :
    xopInodeChainSync faults s.front.syncOsize s.front.syncMeta s.front.clearDirectdata s.back =
      if faults.noChain then (s.back, inodeErrorEio)
      else if faults.parentError ≠ 0 then (s.back, faults.parentError)
      else if (scannedBack faults s).2 ≠ 0 then scannedBack faults s
      else if faults.modifyError ≠ 0 then ((scannedBack faults s).1, faults.modifyError)
      else
        ({ (scannedBack faults s).1 with
            metaData := s.front.syncMeta
            area := if s.front.clearDirectdata then
                List.replicate (scannedBack faults s).1.area.length 0
              else (scannedBack faults s).1.area }, 0) := by
  have hscan : (match s.front.syncOsize with
      | none => (s.back, 0)
      | some osize =>
        if s.front.syncMeta.size < osize then
          truncateBlocks faults s.front.syncMeta.size s.back
        else (s.back, 0)) = scannedBack faults s := by
    unfold FrontInode.syncOsize scannedBack
    cases s.front.resized with
    | false => rfl
    | true =>
      by_cases h : s.front.metaData.size < s.front.osize
      · simp [FrontInode.syncMeta, h]
      · simp [FrontInode.syncMeta, h]
  unfold xopInodeChainSync
  rw [hscan]

theorem scannedBack_metaData : (scannedBack faults s).1.metaData = s.back.metaData := by
  unfold scannedBack
  split
  next => exact truncateBlocks_metaData _ _
  next => rfl

theorem scannedBack_error : (scannedBack faults s).2 = 0 ↔
    (s.front.resized → s.front.metaData.size < s.front.osize →
      s.back.metaData.directdata = false →
        ∀ n ≤ s.truncated.length, faults.scanError n = 0) := by
  unfold scannedBack SyncedInode.truncated
  split
  next h =>
    rw [truncateBlocks_error]
    exact ⟨fun hs _ _ => hs, fun hs => hs h.1 h.2⟩
  next h =>
    constructor
    · intro _ hr hs
      exact absurd ⟨hr, hs⟩ h
    · intro _
      rfl

theorem scannedBack_gone : (∀ block ∈ s.truncated, block ∉ (scannedBack faults s).1.blocks) ↔
    ∀ n (h : n < s.truncated.length), faults.scanError n = 0 ∧
      deleteBlock faults s.truncated[n] = true := by
  by_cases h : s.front.resized = true ∧ s.front.metaData.size < s.front.osize
  · have ht : s.truncated = s.back.beyond s.front.metaData.size := if_pos h
    have hs : scannedBack faults s = truncateBlocks faults s.front.metaData.size s.back := if_pos h
    simp only [ht, hs]
    exact truncateBlocks_gone _ _
  · have ht : s.truncated = [] := if_neg h
    simp [ht]

/-- A truncated block is one of the blocks of the chain. -/
theorem truncated_subset {block : FileBlock} (h : block ∈ s.truncated) : block ∈ s.back.blocks := by
  unfold SyncedInode.truncated at h
  split at h
  next =>
    unfold BackInode.beyond at h
    split at h
    next => cases h
    next => exact (List.mem_filter.mp h).1
  next => cases h

/-- What the sync has done if it does not get to the chain. -/
theorem xopInodeChainSync_unreached (h : ¬faults.reached) :
    (xopInodeChainSync faults s.front.syncOsize s.front.syncMeta s.front.clearDirectdata s.back).1 =
      s.back := by
  rw [xopInodeChainSync_eq]
  split
  next => rfl
  next hn =>
    rw [if_pos fun he => h ⟨by simpa using hn, he⟩]

theorem sync_metaData_iff :
    (xopInodeChainSync faults s.front.syncOsize s.front.syncMeta s.front.clearDirectdata
        s.back).1.metaData = s.front.syncMeta ↔
      s.back.metaData = s.front.syncMeta ∨
        faults.reached ∧ faults.modifyError = 0 ∧ (scannedBack faults s).2 = 0 := by
  by_cases hr : faults.reached
  · rw [xopInodeChainSync_eq, if_neg (by simp [hr.1]), if_neg (by simp [hr.2])]
    split
    next he => simp [scannedBack_metaData, he]
    next he =>
      split
      next hm => simp [scannedBack_metaData, hm]
      next hm =>
        have he' : (scannedBack faults s).2 = 0 := not_not.mp he
        have hm' : faults.modifyError = 0 := not_not.mp hm
        simp [hr, he', hm']
  · rw [xopInodeChainSync_unreached hr]
    simp [hr]

theorem sync_blocks (hr : faults.reached) :
    (xopInodeChainSync faults s.front.syncOsize s.front.syncMeta s.front.clearDirectdata
        s.back).1.blocks = (scannedBack faults s).1.blocks := by
  rw [xopInodeChainSync_eq, if_neg (by simp [hr.1]), if_neg (by simp [hr.2])]
  split
  next => rfl
  next =>
    split
    next => rfl
    next => rfl

theorem sync_gone_iff :
    (∀ block ∈ s.truncated, block ∉ (xopInodeChainSync faults s.front.syncOsize s.front.syncMeta
        s.front.clearDirectdata s.back).1.blocks) ↔
      ∀ n (h : n < s.truncated.length), faults.reached ∧ faults.scanError n = 0 ∧
        deleteBlock faults s.truncated[n] = true := by
  by_cases hr : faults.reached
  · rw [sync_blocks hr, scannedBack_gone]
    simp [hr]
  · rw [xopInodeChainSync_unreached hr]
    constructor
    · intro h n hn
      exact absurd (truncated_subset (List.getElem_mem hn)) (h _ (List.getElem_mem hn))
    · intro h block hb
      obtain ⟨n, hn, -⟩ := List.mem_iff_getElem.mp hb
      exact absurd (h n hn).1 hr

/-- The sync achieves its effect just when it succeeds. -/
theorem inodeSync_achieved_iff (h : SyncStep.sync.pending s.front = true) :
    SyncStep.sync.Achieved s (inodeSync faults s).1 ↔ SyncStep.sync.Succeeds faults s := by
  unfold SyncStep.Achieved SyncStep.Succeeds
  dsimp only
  rw [inodeSync_pending h, sync_metaData_iff, scannedBack_error, sync_gone_iff]

theorem inodeSync_clears : SyncStep.sync.pending (inodeSync faults s).1.front = false := by
  unfold inodeSync
  split
  next => rfl
  next h => simpa [SyncStep.pending] using h

theorem createIns_achieved_iff :
    (∀ back error, xopInodeCreateIns faults s.occupied s.back = some (back, error) →
        back.place ≠ .detached) ↔
      SyncStep.ins.Succeeds faults s := by
  unfold SyncStep.Succeeds
  dsimp only
  by_cases hp : s.back.place = .detached
  · unfold xopInodeCreateIns
    split
    next hroot => simp [hroot, hp]
    next hroot =>
      split
      next hocc =>
        have : s.occupied = true := by
          rcases hocc.2 with h | h
          · exact h
          · exact absurd hp h
        simp [hp, hocc.1, this]
      next hocc =>
        split
        next hc => simp [hp, hc]
        next hc =>
          split
          next hl => simp [hroot, hc, hl]
          next hl =>
            have hl' : faults.lookupError = 0 := not_not.mp hl
            have ho : s.occupied = false := by
              by_contra ho
              exact hocc ⟨hl', Or.inl (by simpa using ho)⟩
            split
            next he => simp [hp, hl', he]
            next he =>
              have he' : faults.createError = 0 := not_not.mp he
              simp [hroot, hc, ho, he']
  · refine ⟨fun _ => Or.inl hp, fun _ back error h => ?_⟩
    unfold xopInodeCreateIns at h
    split at h
    next => cases h; exact hp
    next =>
      split at h
      next => cases h; exact hp
      next =>
        split at h
        next => cases h; exact hp
        next =>
          split at h
          next => cases h
          next =>
            split at h
            next => cases h; exact hp
            next => cases h; simp

theorem destroy_achieved_iff :
    (∀ back error, xopInodeDestroy faults s.front.creating s.back = some (back, error) →
        back.place = .detached) ↔
      SyncStep.des.Succeeds faults s := by
  unfold SyncStep.Succeeds xopInodeDestroy
  dsimp only
  split
  next hc => simp [hc]
  next hc =>
    have hc' : faults.noChain = false := by simpa using hc
    split
    next hf hp => simp [hp]
    next hf hp => simp [hc', hf]
    next hf hp => simp [hp]
    next hf hp => simp [hc', hp]
    next hf hp =>
      split
      next he => simp [hp, hf, he]
      next he => simp [hc', not_not.mp he]

theorem inodeIns_pending (h : s.front.creating = true) :
    inodeIns faults s = (xopInodeCreateIns faults s.occupied s.back).map fun r =>
      ({ s with front := { s.front with creating := false }, back := r.1 }, collectError r.2) := by
  unfold inodeIns
  rw [if_pos h]

theorem inodeDes_pending (h : s.front.deleting = true) :
    inodeDes faults s = (xopInodeDestroy faults s.front.creating s.back).map fun r =>
      ({ s with
          front := { s.front with deleting := false, isunlinked := false }
          back := r.1 }, collectError r.2) := by
  unfold inodeDes
  rw [if_pos h]

theorem inodeIns_clears {s' : SyncedInode μ} {error : Nat} (h : inodeIns faults s = some (s', error)) :
    SyncStep.ins.pending s'.front = false := by
  unfold inodeIns at h
  split at h
  next =>
    obtain ⟨r, -, heq⟩ := Option.map_eq_some_iff.mp h
    cases heq
    rfl
  next hc =>
    cases h
    simpa [SyncStep.pending] using hc

theorem inodeDes_clears {s' : SyncedInode μ} {error : Nat} (h : inodeDes faults s = some (s', error)) :
    SyncStep.des.pending s'.front = false := by
  unfold inodeDes at h
  split at h
  next =>
    obtain ⟨r, -, heq⟩ := Option.map_eq_some_iff.mp h
    cases heq
    rfl
  next hc =>
    cases h
    simpa [SyncStep.pending] using hc

theorem SyncStep.run_clears {step : SyncStep} {s' : SyncedInode μ} {error : Nat}
    (h : step.run faults s = some (s', error)) : step.pending s'.front = false := by
  cases step with
  | sync =>
    have heq : inodeSync faults s = (s', error) := Option.some.inj h
    have hs : s' = (inodeSync faults s).1 := by rw [heq]
    rw [hs]
    exact inodeSync_clears
  | ins => exact inodeIns_clears h
  | des => exact inodeDes_clears h

theorem SyncStep.achieved_iff {step : SyncStep} (hp : step.pending s.front = true) :
    (∀ s' error, step.run faults s = some (s', error) → step.Achieved s s') ↔
      step.Succeeds faults s := by
  cases step with
  | sync =>
    rw [← inodeSync_achieved_iff hp]
    constructor
    · intro h
      exact h _ _ rfl
    · intro h s' error hrun
      have heq : inodeSync faults s = (s', error) := Option.some.inj hrun
      have hs : s' = (inodeSync faults s).1 := by rw [heq]
      rw [hs]
      exact h
  | ins =>
    rw [← createIns_achieved_iff]
    change (∀ s' error, inodeIns faults s = some (s', error) → s'.back.place ≠ .detached) ↔ _
    rw [inodeIns_pending hp]
    constructor
    · intro h back error hb
      rw [hb] at h
      exact h _ _ rfl
    · intro h s' error hrun
      obtain ⟨⟨back, e⟩, hb, heq⟩ := Option.map_eq_some_iff.mp hrun
      cases heq
      exact h back e hb
  | des =>
    rw [← destroy_achieved_iff]
    change (∀ s' error, inodeDes faults s = some (s', error) → s'.back.place = .detached) ↔ _
    rw [inodeDes_pending hp]
    constructor
    · intro h back error hb
      rw [hb] at h
      exact h _ _ rfl
    · intro h s' error hrun
      obtain ⟨⟨back, e⟩, hb, heq⟩ := Option.map_eq_some_iff.mp hrun
      cases heq
      exact h back e hb

/-- A step that is pending is retried after a failure just when it does not fail. -/
theorem inodeStep_retried_iff (faults : SyncFaults) (s : SyncedInode μ) (step : SyncStep) :
    step.Retried faults s ↔ (step.pending s.front → step.Succeeds faults s) := by
  unfold SyncStep.Retried
  constructor
  · intro h hp
    refine (SyncStep.achieved_iff hp).mp fun s' error hrun => ?_
    refine (h s' error hrun hp).resolve_right ?_
    rw [SyncStep.run_clears hrun]
    exact Bool.false_ne_true
  · intro h s' error hrun hp
    exact Or.inl ((SyncStep.achieved_iff hp).mpr (h hp) s' error hrun)

/-- A write grows a file by one byte and the device is full: the size stays what it was and nothing
is left to do. -/
theorem inodeSync_forgets :
    ¬SyncStep.sync.Retried { modifyError := 0x20 }
      { front := ⟨⟨11, true, ()⟩, 10, true, true, false, false, false⟩
        back := ⟨⟨10, true, ()⟩, List.replicate 10 7, .blkmapped, []⟩
        occupied := false } := by
  intro h
  have hrun := h _ _ rfl rfl
  revert hrun
  unfold SyncStep.Achieved
  decide

/-- Nothing is pending, so no sync does anything. -/
def FrontInode.idle (front : FrontInode μ) : Prop :=
  front.deleting = false ∧ front.creating = false ∧ SyncStep.sync.pending front = false

theorem inodeTurn_idle (h : s.front.idle) : inodeTurn faults s = some s := by
  unfold inodeTurn
  rw [h.1, h.2.1, if_neg Bool.false_ne_true, if_neg Bool.false_ne_true]
  have hs : inodeSync faults s = (s, 0) := by
    have hp : (s.front.resized || s.front.modified) = false := h.2.2
    unfold inodeSync
    rw [hp, if_neg Bool.false_ne_true]
  rw [Option.map_some, hs]

/-- The turns of an inode over any number of syncs. -/
def inodeTurns (s : SyncedInode μ) (turns : List SyncFaults) : Option (SyncedInode μ) :=
  turns.foldlM (fun s faults => inodeTurn faults s) s

theorem inodeTurns_idle (h : s.front.idle) (turns : List SyncFaults) : inodeTurns s turns = some s := by
  unfold inodeTurns
  induction turns with
  | nil => rfl
  | cons faults turns ih =>
    rw [List.foldlM_cons, inodeTurn_idle h]
    exact ih

/-- The turn of an inode that is not to be deleted leaves nothing pending. -/
theorem inodeTurn_leaves_idle (hd : s.front.deleting = false) {s' : SyncedInode μ}
    (h : inodeTurn faults s = some s') : s'.front.idle := by
  unfold inodeTurn at h
  rw [hd, if_neg Bool.false_ne_true] at h
  obtain ⟨s₁, hins, rfl⟩ := Option.map_eq_some_iff.mp h
  have hfront : s₁.front.deleting = false ∧ s₁.front.creating = false := by
    split at hins
    next hc =>
      obtain ⟨⟨s₂, e⟩, hrun, rfl⟩ := Option.map_eq_some_iff.mp hins
      unfold inodeIns at hrun
      rw [if_pos hc] at hrun
      obtain ⟨r, -, heq⟩ := Option.map_eq_some_iff.mp hrun
      cases heq
      exact ⟨hd, rfl⟩
    next hc =>
      cases hins
      exact ⟨hd, by simpa using hc⟩
  refine ⟨?_, ?_, inodeSync_clears⟩
  · unfold inodeSync
    split
    next => exact hfront.1
    next => exact hfront.1
  · unfold inodeSync
    split
    next => exact hfront.2
    next => exact hfront.2

/-- Whatever failed in the first turn of an inode stays undone over all later syncs, as long as the
frontend does not touch the inode. -/
theorem failed_turn_is_final (hd : s.front.deleting = false) {s' : SyncedInode μ}
    (h : inodeTurn faults s = some s') (turns : List SyncFaults) : inodeTurns s' turns = some s' :=
  inodeTurns_idle (inodeTurn_leaves_idle hd h) turns

end Retry

end Hammer2
