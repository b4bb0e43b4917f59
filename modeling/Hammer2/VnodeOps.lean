import Hammer2.InodeRefs
import Hammer2.VolumeHeader

namespace Hammer2.Vnops

inductive Errno where
  | eperm | enoent | eintr | eio | eagain | eexist | exdev | enotdir | eisdir | einval | enospc
  | erofs | emlink | edom | enotempty | eopnotsupp
deriving DecidableEq

/-- A `HAMMER2_ERROR_*` code other than 0. -/
abbrev XopError := { code : BitVec 32 // code ≠ 0 }

def errorTable : List (BitVec 32 × Errno) :=
  [(0x1, .eio), (0x2, .edom), (0x10, .eio), (0x20, .enospc), (0x40, .enoent), (0x80, .enotempty),
    (0x100, .eagain), (0x200, .enotdir), (0x400, .eisdir), (0x1000, .eintr), (0x4000, .einval),
    (0x8000, .eexist), (0x10000000, .eopnotsupp)]

/-- `hammer2_error_to_errno` -/
def errorToErrno (error : XopError) : Errno :=
  ((errorTable.find? fun e => error.val &&& e.1 ≠ 0).map Prod.snd).getD .edom

/-- `HAMMER2_ERROR_ENOENT` -/
def errorEnoent : BitVec 32 := 0x40

/-- `NOUNLINK`, `IMMUTABLE` and `APPEND` -/
def flagNounlink : BitVec 32 := 0x00100010
def flagImmutable : BitVec 32 := 0x00020002
def flagAppend : BitVec 32 := 0x00040004

/-- `HAMMER2_DIRHASH_VISIBLE` -/
def dirhashVisible : BitVec 64 := 0x8000000000000000

/-- `hammer2_vfs_enospace` of `hammer2_bsdvfs.h` -/
def vfsEnospace : Nat := 0

/-- What the scan of a collision space feeds: the keys in use, then an error. -/
structure LhcScan where
  keys : List (BitVec 64)
  last : XopError

def collectLhc (lhc : BitVec 64) (last : XopError) : List (BitVec 64) → BitVec 64 × Option XopError
  | [] => (lhc, some last)
  | key :: keys => if lhc ≠ key then (lhc, none) else collectLhc (lhc + 1) last keys

def scanlhc (dip : Nat) (name : Name) (scan : LhcScan) : VopM (BitVec 64 × Option XopError) := do
  xopRefs [dip]
  xopRetire [dip]
  pure (collectLhc (dirhash name) scan.last scan.keys)

def leavesWindow (name : Name) (lhc : BitVec 64) : Bool :=
  (dirhash name ^^^ lhc) &&& ~~~(BitVec.ofNat 64 dirhashLomask) ≠ 0

/-- What the backends of `hammer2_dirent_create` return. -/
structure DirentOutcome where
  scan : LhcScan
  mkdirent : Option XopError

/-- The error with which `hammer2_dirent_create` leaves before the entry is made. -/
def direntRefusal (name : Name) : BitVec 64 × Option XopError → Option Errno
  | (lhc, none) => if leavesWindow name lhc then some .enospc else none
  | (lhc, some error) =>
    if error.val ≠ errorEnoent then some (errorToErrno error)
    else if leavesWindow name (lhc + 1) then some .enospc
    else none

def mkdirent (dip : Nat) (name : Name) (error : Option XopError) : VopM (Option Errno) := do
  kkassert (name.length < 256)
  xopRefs [dip]
  xopRetire [dip]
  pure (error.map errorToErrno)

/-- `hammer2_dirent_create` -/
def direntCreate (dip : Nat) (name : Name) (out : DirentOutcome) : VopM (Option Errno) := do
  inodeModify dip
  let scanned ← scanlhc dip name out.scan
  match direntRefusal name scanned with
  | some error => pure (some error)
  | none => mkdirent dip name out.mkdirent

/-- `hammer2_trans_newinum` -/
def transNewinum : VopM (BitVec 64) := fun s =>
  some (s.inodeTid, { s with inodeTid := s.inodeTid + 1 })

/-- The arguments of `hammer2_mkdir` and `hammer2_create` and what their backends return. -/
structure MakeArgs where
  dip : Nat
  name : Name
  type : ObjType
  sticky : Bool
  uid : Nat
  create : Except XopError Nat
  dirent : DirentOutcome

def MakeArgs.createMeta (a : MakeArgs) (m : Meta) : Meta :=
  { m with type := a.type, sticky := a.sticky, uid := a.uid
           nlinks := if a.type = .directory then 2 else 1 }

/-- The backend's chains go to the new inode. -/
def repointCreated (nip : Nat) : Except XopError Nat → VopM (Option XopError)
  | .error error => pure (some error)
  | .ok nchains => do
    update nip fun n => { n with nchains := nchains }
    pure none

/-- The part of `hammer2_inode_create_normal` that the xop spans. -/
def createDet (a : MakeArgs) (nip : Nat) (inum : BitVec 64) : VopM (Option XopError) := do
  update nip fun n => { n with metaData := { n.metaData with nameKey := inum } }
  inodeModify nip
  repointCreated nip a.create

/-- `hammer2_inode_create_normal`. It returns the inode even where its backend has failed. -/
def createNormal (a : MakeArgs) (inum : BitVec 64) : VopM (Nat × Option XopError) := do
  let nip ← inodeGet none inum
  let n ← readInode nip
  kkassert (¬ n.creating ∧ n.nchains = 0)
  update nip fun n => { n with creating := true, metaData := a.createMeta n.metaData }
  kkassert (n.metaData.inum = inum)
  xopRefs [a.dip]
  let error ← createDet a nip inum
  xopRetire [a.dip]
  pure (nip, error)

def makeDirent (a : MakeArgs) : Option XopError → VopM (Option Errno)
  | some error => pure (some (errorToErrno error))
  | none => direntCreate a.dip a.name a.dirent

/-- The new inode is given up or gets its vnode, and is unlocked. -/
def settleNode (dip nip : Nat) : Option Errno → VopM Unit
  | some _ => do
    unlinkFinisher nip
    inodeUnlock nip
  | none => do
    inodeDepend dip nip
    igetv nip
    inodeUnlock nip

/-- The update of a directory that has changed. -/
def updateDir (dip : Nat) (f : BitVec 64 → BitVec 64) : Option Errno → VopM Unit
  | some _ => pure ()
  | none => do
    inodeModify dip
    setNlinks dip f

/-- The common part of `hammer2_mkdir` and `hammer2_create`. -/
def makeNode (a : MakeArgs) (f : BitVec 64 → BitVec 64) : VopM (Option Errno) := do
  let s ← get
  if s.rdonly ∨ s.emerg then pure (some .erofs)
  else if 1 < vfsEnospace then pure (some .enospc)
  else
    let inum ← transNewinum
    inodeLock a.dip false
    let (nip, created) ← createNormal a inum
    let error ← makeDirent a created
    settleNode a.dip nip error
    updateDir a.dip f error
    inodeUnlock a.dip
    pure error

/-- `hammer2_mkdir` -/
def vopMkdir (a : MakeArgs) : VopM (Option Errno) := do
  let d ← readInode a.dip
  if AtLinkMax d.metaData.nlinks.toNat then pure (some .emlink)
  else makeNode a fun nlinks => if nlinks ≠ 1 then nlinks + 1 else nlinks

/-- `hammer2_create` -/
def vopCreate (a : MakeArgs) : VopM (Option Errno) := makeNode a id

/-- The arguments of `hammer2_remove` and `hammer2_rmdir` and the inode that the backend has
unlinked. -/
structure UnlinkArgs where
  dip : Nat
  ip : Nat
  unlink : Except XopError Found

def finishUnlink (a : UnlinkArgs) : VopM (Option Errno) :=
  match a.unlink with
  | .error error => do
    xopRetire [a.dip]
    pure (some (errorToErrno error))
  | .ok found => do
    let ip ← inodeGet (some found) 0
    xopRetire [a.dip]
    let n ← readInode ip
    kkassert (n.vp ≠ none ∧ ip = a.ip)
    unlinkFinisher ip
    inodeDepend a.dip ip
    inodeUnlock ip
    pure none

/-- The common part of `hammer2_remove` and `hammer2_rmdir`. -/
def unlinkNode (a : UnlinkArgs) (f : BitVec 64 → BitVec 64) : VopM (Option Errno) := do
  let n ← readInode a.ip
  let d ← readInode a.dip
  let s ← get
  if n.metaData.uflags &&& (flagNounlink ||| flagImmutable ||| flagAppend) ≠ 0 ∨
      d.metaData.uflags &&& flagAppend ≠ 0 then pure (some .eperm)
  else if s.rdonly then pure (some .erofs)
  else if 1 < vfsEnospace then pure (some .enospc)
  else
    inodeLock a.dip false
    xopRefs [a.dip]
    let error ← finishUnlink a
    updateDir a.dip f error
    inodeUnlock a.dip
    pure error

/-- `hammer2_remove` -/
def vopRemove (a : UnlinkArgs) : VopM (Option Errno) := unlinkNode a id

/-- `hammer2_rmdir` -/
def vopRmdir (a : UnlinkArgs) : VopM (Option Errno) :=
  if a.dip = a.ip then pure (some .einval)
  else unlinkNode a fun nlinks => if nlinks ≠ 1 then nlinks - 1 else nlinks

/-- The arguments of `hammer2_link` and what its backends return. -/
structure LinkArgs where
  tdip : Nat
  ip : Nat
  name : Name
  sameMount : Bool
  dirent : DirentOutcome

/-- The checks that `hammer2_link` makes of the inode and the mount. -/
def linkRefusal (s : Pmp) (n : Inode) : Option Errno :=
  if AtLinkMax n.metaData.nlinks.toNat then some .emlink
  else if n.metaData.uflags &&& (flagImmutable ||| flagAppend) ≠ 0 then some .eperm
  else if s.rdonly ∨ s.emerg then some .erofs
  else if 1 < vfsEnospace then some .enospc
  else none

/-- The rest of `hammer2_link`, from `hammer2_trans_init` on. -/
def linkNode (a : LinkArgs) : VopM (Option Errno) := do
  let n ← readInode a.ip
  kkassert (n.metaData.nameKey &&& dirhashVisible = 0)
  inodeLock4 [a.tdip, a.ip]
  let error ← direntCreate a.tdip a.name a.dirent
  inodeModify a.ip
  setNlinks a.ip (· + 1)
  updateDir a.tdip id error
  inodeUnlock a.ip
  inodeUnlock a.tdip
  pure error

/-- `hammer2_link` -/
def vopLink (a : LinkArgs) : VopM (Option Errno) :=
  if ¬ a.sameMount then pure (some .exdev)
  else do
    let n ← readInode a.ip
    let s ← get
    match linkRefusal s n with
    | some error => pure (some error)
    | none => linkNode a

section Posts

open Accounts

variable {ip dip : Nat} {c : Nat → Int}

theorem kkassert_neutral (p : Prop) [Decidable p] : Neutral Pmp.locks Pmp.loose (kkassert p) := by
  apply neutral_of_run
  intro s a t h
  by_cases hp : p
  · have hs : some ((), s) = some (a, t) := (if_pos hp).symm.trans h
    obtain ⟨-, rfl⟩ := Prod.mk.inj (Option.some.inj hs)
    exact ⟨rfl, rfl⟩
  · have hs : none = some (a, t) := (if_neg hp).symm.trans h
    contradiction

/-- The references of an xop are dropped when it retires. -/
theorem xop_neutral {α β : Type} (ips : List Nat) {x : VopM α} {f : α → β}
    (hx : Neutral Pmp.locks Pmp.loose x) :
    Neutral Pmp.locks Pmp.loose (do xopRefs ips; let a ← x; xopRetire ips; pure (f a)) := by
  apply (xopRefs_posts ips).bind le_rfl
  intro _
  have hcover : 0 ≤ 0 + refsOf ips := add_nonneg le_rfl (refsOf_nonneg ips)
  apply hx.bind_neutral hcover
  intro a
  apply (xopRetire_posts ips).bind (zero_add _).ge
  intro _
  apply Posts.pure
  · simp
  · simp

theorem retired_neutral {β : Type} (ips : List Nat) (b : β) :
    Neutral Pmp.locks Pmp.loose (do xopRefs ips; xopRetire ips; pure b) :=
  xop_neutral (f := fun _ => b) ips (x := pure ()) (.pure rfl rfl)

theorem scanlhc_neutral {name : Name} {scan : LhcScan} :
    Neutral Pmp.locks Pmp.loose (scanlhc dip name scan) :=
  retired_neutral [dip] _

theorem mkdirent_neutral {name : Name} {error : Option XopError} :
    Neutral Pmp.locks Pmp.loose (mkdirent dip name error) := by
  apply (kkassert_neutral _).bind_neutral le_rfl
  intro _
  exact retired_neutral [dip] _

theorem direntCreate_neutral {name : Name} {out : DirentOutcome} :
    Neutral Pmp.locks Pmp.loose (direntCreate dip name out) := by
  apply inodeModify_neutral.bind_neutral le_rfl
  intro _
  apply scanlhc_neutral.bind_neutral le_rfl
  intro scanned
  split
  next => exact .pure rfl rfl
  next => exact mkdirent_neutral

theorem transNewinum_neutral : Neutral Pmp.locks Pmp.loose transNewinum := by
  apply neutral_of_run
  intro s a t h
  obtain ⟨-, rfl⟩ := Prod.mk.inj (Option.some.inj h)
  exact ⟨rfl, rfl⟩

theorem repointCreated_neutral (nip : Nat) (out : Except XopError Nat) :
    Neutral Pmp.locks Pmp.loose (repointCreated nip out) := by
  cases out with
  | error error => exact .pure rfl rfl
  | ok nchains =>
    refine Posts.bind_neutral (update_neutral (fun _ => rfl) fun _ => rfl) le_rfl ?_
    intro _
    exact .pure rfl rfl

theorem createDet_neutral {a : MakeArgs} {nip : Nat} {inum : BitVec 64} :
    Neutral Pmp.locks Pmp.loose (createDet a nip inum) := by
  refine Posts.bind_neutral (update_neutral (fun _ => rfl) fun _ => rfl) le_rfl ?_
  intro _
  apply inodeModify_neutral.bind_neutral le_rfl
  intro _
  exact repointCreated_neutral nip a.create

theorem createNormal_posts (a : MakeArgs) (inum : BitVec 64) (hc : 0 ≤ c) :
    Posts Pmp.locks Pmp.loose c (createNormal a inum) (fun r => Pi.single r.1 1)
      (fun r => Pi.single r.1 1) := by
  apply (inodeGet_posts none inum hc).bind le_rfl
  intro nip
  have hcover : 0 ≤ c + Pi.single nip 1 := add_nonneg hc single_nonneg
  apply readInode_neutral.bind_neutral hcover
  intro n
  apply (kkassert_neutral _).bind_neutral hcover
  intro _
  refine Posts.bind_neutral (update_neutral (fun _ => rfl) fun _ => rfl) hcover ?_
  intro _
  apply (kkassert_neutral _).bind_neutral hcover
  intro _
  apply (xopRefs_posts [a.dip]).bind le_rfl
  intro _
  apply createDet_neutral.bind_neutral
  · exact add_nonneg hcover (refsOf_nonneg _)
  · intro error
    apply (xopRetire_posts [a.dip]).bind (le_add_of_nonneg_left hcover)
    intro _
    apply Posts.pure
    · simp
    · simp

theorem makeDirent_neutral (a : MakeArgs) (created : Option XopError) :
    Neutral Pmp.locks Pmp.loose (makeDirent a created) := by
  cases created with
  | some error => exact .pure rfl rfl
  | none => exact direntCreate_neutral

theorem settleNode_posts (nip : Nat) (error : Option Errno) :
    Posts Pmp.locks Pmp.loose (Pi.single nip 1) (settleNode dip nip error)
      (fun _ => -Pi.single nip 1) (fun _ => -Pi.single nip 1) := by
  cases error with
  | some error =>
    apply unlinkFinisher_neutral.bind_neutral single_nonneg
    intro _
    exact inodeUnlock_posts
  | none =>
    apply inodeDepend_neutral.bind_neutral single_nonneg
    intro _
    apply igetv_neutral.bind_neutral single_nonneg
    intro _
    exact inodeUnlock_posts

theorem updateDir_neutral (f : BitVec 64 → BitVec 64) (error : Option Errno) :
    Neutral Pmp.locks Pmp.loose (updateDir dip f error) := by
  cases error with
  | some error => exact .pure rfl rfl
  | none =>
    apply inodeModify_neutral.bind_neutral le_rfl
    intro _
    exact setNlinks_neutral

/-- The end of an operation that holds its directory locked: the update of the directory, the
unlock and the return. -/
theorem leaveDir_posts (f : BitVec 64 → BitVec 64) (error : Option Errno) :
    Posts Pmp.locks Pmp.loose (Pi.single dip 1)
      (do updateDir dip f error; inodeUnlock dip; pure error) (fun _ => -Pi.single dip 1)
      (fun _ => -Pi.single dip 1) := by
  apply (updateDir_neutral f error).bind_neutral single_nonneg
  intro _
  apply inodeUnlock_posts.bind le_rfl
  intro _
  apply Posts.pure
  · exact sub_self _
  · exact sub_self _

theorem makeNode_neutral (a : MakeArgs) (f : BitVec 64 → BitVec 64) :
    Neutral Pmp.locks Pmp.loose (makeNode a f) := by
  apply get_neutral.bind_neutral le_rfl
  intro s
  apply Posts.ite
  · intro _
    exact .pure rfl rfl
  · intro _
    apply Posts.ite
    · intro _
      exact .pure rfl rfl
    · intro _
      apply transNewinum_neutral.bind_neutral le_rfl
      intro inum
      apply (inodeLock_posts false le_rfl).bind le_rfl
      intro _
      have hdir : 0 ≤ 0 + (Pi.single a.dip 1 : Nat → Int) := add_nonneg le_rfl single_nonneg
      apply (createNormal_posts a inum hdir).bind le_rfl
      rintro ⟨nip, created⟩
      have hboth : 0 ≤ 0 + Pi.single a.dip 1 + (Pi.single nip 1 : Nat → Int) :=
        add_nonneg hdir single_nonneg
      apply (makeDirent_neutral a created).bind_neutral hboth
      intro error
      apply (settleNode_posts nip error).bind (le_add_of_nonneg_left hdir)
      intro _
      apply (leaveDir_posts f error).conseq
      · simp
      · intro _
        simp
      · intro _
        simp

theorem vopMkdir_neutral (a : MakeArgs) : Neutral Pmp.locks Pmp.loose (vopMkdir a) := by
  apply readInode_neutral.bind_neutral le_rfl
  intro d
  apply Posts.ite
  · intro _
    exact .pure rfl rfl
  · intro _
    exact makeNode_neutral a _

theorem finishUnlink_posts (a : UnlinkArgs) (hc : 0 ≤ c) :
    Posts Pmp.locks Pmp.loose (c + refsOf [a.dip]) (finishUnlink a) (fun _ => 0)
      (fun _ => -refsOf [a.dip]) := by
  have hcover : 0 ≤ c + refsOf [a.dip] := add_nonneg hc (refsOf_nonneg _)
  unfold finishUnlink
  split
  next error _ =>
    apply (xopRetire_posts [a.dip]).bind (le_add_of_nonneg_left hc)
    intro _
    apply Posts.pure
    · exact sub_self _
    · exact sub_self _
  next found _ =>
    apply (inodeGet_posts (some found) 0 hcover).bind le_rfl
    intro ip
    have hip : 0 ≤ c + (Pi.single ip 1 : Nat → Int) := add_nonneg hc single_nonneg
    have hget : refsOf [a.dip] ≤ c + refsOf [a.dip] + Pi.single ip 1 :=
      (le_add_of_nonneg_left hc).trans (le_add_of_nonneg_right single_nonneg)
    have hrest : c + refsOf [a.dip] + Pi.single ip 1 + -refsOf [a.dip] = c + Pi.single ip 1 := by
      abel
    apply (xopRetire_posts [a.dip]).bind hget
    intro _
    rw [hrest]
    apply readInode_neutral.bind_neutral hip
    intro n
    apply (kkassert_neutral _).bind_neutral hip
    intro _
    apply unlinkFinisher_neutral.bind_neutral hip
    intro _
    apply inodeDepend_neutral.bind_neutral hip
    intro _
    apply inodeUnlock_posts.bind (le_add_of_nonneg_left hc)
    intro _
    apply Posts.pure
    · abel
    · abel

theorem unlinkNode_neutral (a : UnlinkArgs) (f : BitVec 64 → BitVec 64) :
    Neutral Pmp.locks Pmp.loose (unlinkNode a f) := by
  apply readInode_neutral.bind_neutral le_rfl
  intro n
  apply readInode_neutral.bind_neutral le_rfl
  intro d
  apply get_neutral.bind_neutral le_rfl
  intro s
  apply Posts.ite
  · intro _
    exact .pure rfl rfl
  · intro _
    apply Posts.ite
    · intro _
      exact .pure rfl rfl
    · intro _
      apply Posts.ite
      · intro _
        exact .pure rfl rfl
      · intro _
        apply (inodeLock_posts false le_rfl).bind le_rfl
        intro _
        have hdir : 0 ≤ 0 + (Pi.single a.dip 1 : Nat → Int) := add_nonneg le_rfl single_nonneg
        apply (xopRefs_posts [a.dip]).bind le_rfl
        intro _
        apply (finishUnlink_posts a hdir).bind le_rfl
        intro error
        apply (leaveDir_posts f error).conseq
        · simp
        · intro _
          simp
        · intro _
          simp

theorem vopRmdir_neutral (a : UnlinkArgs) : Neutral Pmp.locks Pmp.loose (vopRmdir a) := by
  apply Posts.ite
  · intro _
    exact .pure rfl rfl
  · intro _
    exact unlinkNode_neutral a _

/-- Two inodes are unlocked that were never locked. -/
theorem linkNode_posts (a : LinkArgs) :
    Posts Pmp.locks Pmp.loose (Pi.single a.ip 1 + Pi.single a.tdip 1) (linkNode a)
      (fun _ => -Pi.single a.ip 1 - Pi.single a.tdip 1)
      (fun _ => -Pi.single a.ip 1 - Pi.single a.tdip 1) := by
  have hcover : (0 : Nat → Int) ≤ Pi.single a.ip 1 + Pi.single a.tdip 1 :=
    add_nonneg single_nonneg single_nonneg
  apply readInode_neutral.bind_neutral hcover
  intro n
  apply (kkassert_neutral _).bind_neutral hcover
  intro _
  apply Posts.bind_neutral (x := inodeLock4 [a.tdip, a.ip]) (.pure rfl rfl) hcover
  intro _
  apply direntCreate_neutral.bind_neutral hcover
  intro error
  apply inodeModify_neutral.bind_neutral hcover
  intro _
  apply setNlinks_neutral.bind_neutral hcover
  intro _
  apply (updateDir_neutral id error).bind_neutral hcover
  intro _
  apply inodeUnlock_posts.bind (le_add_of_nonneg_right single_nonneg)
  intro _
  apply inodeUnlock_posts.bind
  · exact (add_neg_cancel_comm _ _).ge
  · intro _
    apply Posts.pure
    · abel
    · abel

end Posts

end Hammer2.Vnops
