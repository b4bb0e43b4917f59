import Hammer2.VnodeOps

namespace Hammer2.Vnops

/-- The arguments of `hammer2_rename`, with the inodes for the vnodes, and what its backends return.
`isDotDot` is the flag `ISDOTDOT` of either name, and `sameMount` tells that no vnode is on another
mount. -/
structure RenameArgs where
  fdip : Nat
  fip : Nat
  tdip : Nat
  tip : Option Nat
  fname : Name
  tname : Name
  isDotDot : Bool
  sameMount : Bool
  fuid : Nat
  tuid : Nat
  source : Except XopError Found
  target : Except XopError Found
  scan : LhcScan
  nrename : Option XopError

/-- In a sticky directory `d` only the owner of it or of the inode may rename the inode. -/
def StickyDenies (d n : Meta) (uid : Nat) : Prop :=
  d.sticky ∧ uid ≠ 0 ∧ uid ≠ d.uid ∧ n.uid ≠ uid

instance (d n : Meta) (uid : Nat) : Decidable (StickyDenies d n uid) :=
  inferInstanceAs (Decidable (_ ∧ _))

def readTarget : Option Nat → VopM (Option Inode)
  | none => pure none
  | some tip => do
    let t ← readInode tip
    pure (some t)

/-- The checks of `hammer2_rename` before it looks the names up again. -/
def renameEntry (a : RenameArgs) : VopM (Option Errno) := do
  kkassert (some a.fip ≠ a.tip)
  kkassert (some a.tdip ≠ a.tip)
  if ¬ a.sameMount then pure (some .exdev)
  else
    let s ← get
    if s.rdonly ∨ s.emerg then pure (some .erofs)
    else if 1 < vfsEnospace then pure (some .enospc)
    else
      let fd ← readInode a.fdip
      let f ← readInode a.fip
      let td ← readInode a.tdip
      let t ← readTarget a.tip
      if StickyDenies fd.metaData f.metaData a.fuid then pure (some .eperm)
      else if t.any fun t => StickyDenies td.metaData t.metaData a.tuid then pure (some .eperm)
      else pure none

def resolved (dip : Nat) : Except XopError Found → VopM (Except Errno Nat)
  | .error error => do
    inodeUnlock dip
    xopRetire [dip]
    pure (.error (errorToErrno error))
  | .ok found => do
    let ip ← inodeGet (some found) 0
    inodeUnlock dip
    igetv ip
    inodeUnlock ip
    xopRetire [dip]
    pure (.ok ip)

/-- A name of a rename is looked up again under the lock of its directory. -/
def reResolve (dip : Nat) (out : Except XopError Found) : VopM (Except Errno Nat) := do
  inodeLock dip true
  xopRefs [dip]
  resolved dip out

/-- A directory that another file system is mounted on. -/
def Inode.mountPoint (n : Inode) : Bool :=
  decide (n.metaData.type = .directory) && n.vp.any Vnode.mountedHere

def Meta.kept (m : Meta) : Bool :=
  m.uflags &&& (flagNounlink ||| flagImmutable ||| flagAppend) ≠ 0

def Meta.appendOnly (m : Meta) : Bool := m.uflags &&& flagAppend ≠ 0

/-- The checks of `hammer2_rename` on the inodes that it has looked up: the value it returns, if one
of them makes it return. `self` tells that the inode is its own directory, `same` that it is the
target. -/
def renameRefusal (a : RenameArgs) (self same : Bool) (fd td f : Inode) (t : Option Inode) :
    Option (Option Errno) :=
  if t.any fun t => t.metaData.kept || td.metaData.appendOnly then some (some .eperm)
  else if same then some none
  else if f.metaData.kept || fd.metaData.appendOnly then some (some .eperm)
  else if f.metaData.type = .directory ∧ (a.fname = [0x2e] ∨ self ∨ a.isDotDot) then
    some (some .einval)
  else if f.mountPoint || t.any Inode.mountPoint then some (some .exdev)
  else if f.metaData.type = .directory ∧ fd.metaData.inum ≠ td.metaData.inum ∧
      AtLinkMax td.metaData.nlinks.toNat then some (some .emlink)
  else none

/-- The key for the new entry, from the scan of its collision space. -/
def renameKey (name : Name) : BitVec 64 × Option XopError → Except Errno (BitVec 64)
  | (lhc, none) => if leavesWindow name lhc then .error .enospc else .ok lhc
  | (lhc, some error) =>
    if errorToErrno error ≠ .enoent then .error (errorToErrno error)
    else if leavesWindow name (lhc + 1) then .error .enospc
    else .ok (lhc + 1)

def setNameKey (fip : Nat) (lhc : BitVec 64) : VopM Unit := do
  let f ← readInode fip
  if f.metaData.nameKey &&& dirhashVisible ≠ 0 then
    inodeModify fip
    update fip fun n => { n with metaData := { n.metaData with nameKey := lhc } }
  else pure ()

def renamed (fip : Nat) (lhc : BitVec 64) : Option Errno → VopM Unit
  | some _ => pure ()
  | none => do
    setNameKey fip lhc
    inodeModify fip

def renameXopInodes (a : RenameArgs) (fip : Nat) (tip : Option Nat) (t : Option Inode) : List Nat :=
  [a.fdip, fip, a.tdip] ++
    if t.any fun t => t.metaData.type = .directory then tip.toList else []

/-- The backend of the rename and the update of the renamed inode. -/
def renameBackend (a : RenameArgs) (fip : Nat) (tip : Option Nat) (lhc : BitVec 64) :
    VopM (Option Errno) := do
  let t ← readTarget tip
  let ips := renameXopInodes a fip tip t
  xopRefs ips
  xopRetire ips
  let error := (a.nrename.map errorToErrno).filter (· ≠ .enoent)
  renamed fip lhc error
  pure error

def forTarget (f : Nat → VopM Unit) : Option Nat → VopM Unit
  | none => pure ()
  | some tip => f tip

def countSubdir (fip dip : Nat) (f : BitVec 64 → BitVec 64) : VopM Unit := do
  inodeModify dip
  let n ← readInode fip
  if n.metaData.type = .directory then
    setNlinks dip fun nlinks => if nlinks ≠ 1 then f nlinks else nlinks
  else pure ()

/-- The locks and the two extra references that a rename gives back. -/
def renameLeave (a : RenameArgs) (fip : Nat) (tip : Option Nat) (error : Option Errno) :
    VopM (Option Errno) := do
  forTarget (fun tip => do inodeUnlock tip; inodeDrop tip) tip
  inodeUnlock fip
  inodeUnlock a.tdip
  inodeUnlock a.fdip
  inodeDrop fip
  pure error

def renameDone (a : RenameArgs) (fip : Nat) (tip : Option Nat) (lhc : BitVec 64) :
    VopM (Option Errno) := do
  let error ← renameBackend a fip tip lhc
  forTarget (fun tip => if error = none then unlinkFinisher tip else pure ()) tip
  countSubdir fip a.fdip (· - 1)
  countSubdir fip a.tdip (· + 1)
  renameLeave a fip tip error

/-- The part of `hammer2_rename` from the call of `hammer2_inode_lock4` on. -/
def renameNodes (a : RenameArgs) (fip : Nat) (tip : Option Nat) : VopM (Option Errno) := do
  inodeRef fip
  forTarget inodeRef tip
  inodeLock4 ([a.fdip, a.tdip, fip] ++ tip.toList)
  let scanned ← scanlhc a.tdip a.tname a.scan
  match renameKey a.tname scanned with
  | .error error => renameLeave a fip tip (some error)
  | .ok lhc => renameDone a fip tip lhc

def renameChecked (a : RenameArgs) (fip : Nat) (tip : Option Nat) : VopM (Option Errno) := do
  let fd ← readInode a.fdip
  let td ← readInode a.tdip
  let f ← readInode fip
  let t ← readTarget tip
  match renameRefusal a (a.fdip = fip) (some fip = tip) fd td f t with
  | some error => pure error
  | none => renameNodes a fip tip

/-- The target need not exist. -/
def renameTarget (a : RenameArgs) (fip : Nat) : VopM (Option Errno) := do
  match ← reResolve a.tdip a.target with
  | .error error => if error ≠ .enoent then pure (some error) else renameChecked a fip none
  | .ok tip => renameChecked a fip (some tip)

def renameSource (a : RenameArgs) : VopM (Option Errno) := do
  match ← reResolve a.fdip a.source with
  | .error error => pure (some error)
  | .ok fip => renameTarget a fip

/-- `hammer2_rename`. The vnode locks, the access check and the path check are stubs that always
succeed. -/
def vopRename (a : RenameArgs) : VopM (Option Errno) := do
  match ← renameEntry a with
  | some error => pure (some error)
  | none => renameSource a

section Posts

open Accounts

variable {ip dip fip : Nat} {c : Nat → Int}

theorem readTarget_neutral (tip : Option Nat) : Neutral Pmp.locks Pmp.loose (readTarget tip) := by
  cases tip with
  | none => exact .pure rfl rfl
  | some tip =>
    apply readInode_neutral.bind_neutral le_rfl
    intro t
    exact .pure rfl rfl

/-- The lock and the reference of the directory and that of the xop are given back. -/
theorem resolved_posts (dip : Nat) (out : Except XopError Found) :
    Posts Pmp.locks Pmp.loose (Pi.single dip 1 + refsOf [dip]) (resolved dip out)
      (fun _ => -Pi.single dip 1) (fun _ => -Pi.single dip 1 - refsOf [dip]) := by
  have hrefs := refsOf_nonneg [dip]
  cases out with
  | error error =>
    apply inodeUnlock_posts.bind (le_add_of_nonneg_right hrefs)
    intro _
    apply (xopRetire_posts [dip]).bind
    · exact (add_neg_cancel_comm _ _).ge
    · intro _
      apply Posts.pure
      · abel
      · abel
  | ok found =>
    apply (inodeGet_posts (some found) 0 (add_nonneg single_nonneg hrefs)).bind le_rfl
    intro ip
    apply inodeUnlock_posts.bind
    · rw [add_assoc]
      exact le_add_of_nonneg_right (add_nonneg hrefs single_nonneg)
    · intro _
      have hrest : Pi.single dip 1 + refsOf [dip] + Pi.single ip 1 + -Pi.single dip 1 =
          refsOf [dip] + Pi.single ip 1 := by
        abel
      rw [hrest]
      apply igetv_neutral.bind_neutral (add_nonneg hrefs single_nonneg)
      intro _
      apply inodeUnlock_posts.bind (le_add_of_nonneg_left hrefs)
      intro _
      apply (xopRetire_posts [dip]).bind (add_neg_cancel_right _ _).ge
      intro _
      apply Posts.pure
      · abel
      · abel

theorem reResolve_neutral (dip : Nat) (out : Except XopError Found) :
    Neutral Pmp.locks Pmp.loose (reResolve dip out) := by
  apply (inodeLock_posts true le_rfl).bind le_rfl
  intro _
  apply (xopRefs_posts [dip]).bind le_rfl
  intro _
  apply (resolved_posts dip out).conseq
  · rw [zero_add]
  · intro _
    abel
  · intro _
    abel

theorem setNameKey_neutral {lhc : BitVec 64} :
    Neutral Pmp.locks Pmp.loose (setNameKey fip lhc) := by
  apply readInode_neutral.bind_neutral le_rfl
  intro f
  apply Posts.ite
  · intro _
    apply inodeModify_neutral.bind_neutral le_rfl
    intro _
    exact update_neutral (fun _ => rfl) fun _ => rfl
  · intro _
    exact .pure rfl rfl

theorem renamed_neutral {lhc : BitVec 64} (error : Option Errno) :
    Neutral Pmp.locks Pmp.loose (renamed fip lhc error) := by
  cases error with
  | some error => exact .pure rfl rfl
  | none =>
    apply setNameKey_neutral.bind_neutral le_rfl
    intro _
    exact inodeModify_neutral

theorem renameBackend_neutral {a : RenameArgs} {tip : Option Nat} {lhc : BitVec 64} :
    Neutral Pmp.locks Pmp.loose (renameBackend a fip tip lhc) := by
  apply (readTarget_neutral tip).bind_neutral le_rfl
  intro t
  have hrefs := refsOf_nonneg (renameXopInodes a fip tip t)
  apply (xopRefs_posts _).bind le_rfl
  intro _
  apply (xopRetire_posts _).bind (zero_add _).ge
  intro _
  apply (renamed_neutral _).bind
  · exact (add_neg_cancel_right _ _).ge
  · intro _
    apply Posts.pure
    · simp
    · simp

theorem forTarget_neutral {f : Nat → VopM Unit} (hf : ∀ ip, Neutral Pmp.locks Pmp.loose (f ip))
    (tip : Option Nat) : Neutral Pmp.locks Pmp.loose (forTarget f tip) := by
  cases tip with
  | none => exact .pure rfl rfl
  | some tip => exact hf tip

theorem countSubdir_neutral {f : BitVec 64 → BitVec 64} :
    Neutral Pmp.locks Pmp.loose (countSubdir fip dip f) := by
  apply inodeModify_neutral.bind_neutral le_rfl
  intro _
  apply readInode_neutral.bind_neutral le_rfl
  intro n
  exact .ite (fun _ => setNlinks_neutral) fun _ => .pure rfl rfl

/-- The inodes that a rename unlocks at its end. -/
def renameUnlocks (a : RenameArgs) (fip : Nat) (tip : Option Nat) : List Nat :=
  tip.toList ++ [fip, a.tdip, a.fdip]

theorem refsOf_append (xs ys : List Nat) : refsOf (xs ++ ys) = refsOf xs + refsOf ys := by
  simp [refsOf]

theorem leaveTarget_posts (tip : Option Nat) :
    Posts Pmp.locks Pmp.loose (refsOf tip.toList + refsOf tip.toList)
      (forTarget (fun tip => do inodeUnlock tip; inodeDrop tip) tip) (fun _ => -refsOf tip.toList)
      (fun _ => -(refsOf tip.toList + refsOf tip.toList)) := by
  cases tip with
  | none => exact .pure rfl rfl
  | some tip =>
    rw [Option.toList_some, refsOf_singleton]
    apply inodeUnlock_posts.bind_spend single_nonneg
    intro _
    apply inodeDrop_posts.conseq le_rfl
    · intro _
      exact (sub_self _).symm
    · intro _
      abel

theorem renameLeave_posts (a : RenameArgs) (fip : Nat) (tip : Option Nat)
    (error : Option Errno) :
    Posts Pmp.locks Pmp.loose
      (refsOf (renameUnlocks a fip tip) + Pi.single fip 1 + refsOf tip.toList)
      (renameLeave a fip tip error) (fun _ => -refsOf (renameUnlocks a fip tip))
      (fun _ => -(refsOf (renameUnlocks a fip tip) + Pi.single fip 1 + refsOf tip.toList)) := by
  have hunlocks : refsOf (renameUnlocks a fip tip) =
      refsOf tip.toList + (Pi.single fip 1 + (Pi.single a.tdip 1 + Pi.single a.fdip 1)) := by
    rw [renameUnlocks, refsOf_append, refsOf_cons, refsOf_cons, refsOf_singleton]
  have hcover : refsOf (renameUnlocks a fip tip) + Pi.single fip 1 + refsOf tip.toList =
      refsOf tip.toList + refsOf tip.toList +
        (Pi.single fip 1 + (Pi.single a.tdip 1 + (Pi.single a.fdip 1 + Pi.single fip 1))) := by
    rw [hunlocks]
    abel
  have hdrop : (0 : Nat → Int) ≤ Pi.single a.fdip 1 + Pi.single fip 1 :=
    add_nonneg single_nonneg single_nonneg
  have htdip : (0 : Nat → Int) ≤
      Pi.single a.tdip 1 + (Pi.single a.fdip 1 + Pi.single fip 1) :=
    add_nonneg single_nonneg hdrop
  rw [hcover, hunlocks]
  apply (leaveTarget_posts tip).bind_spend (add_nonneg single_nonneg htdip)
  intro _
  apply inodeUnlock_posts.bind_spend htdip
  intro _
  apply inodeUnlock_posts.bind_spend hdrop
  intro _
  apply inodeUnlock_posts.bind_spend single_nonneg
  intro _
  apply inodeDrop_posts.bind le_rfl
  intro _
  apply Posts.pure
  · abel
  · abel

theorem renameDone_posts (a : RenameArgs) (fip : Nat) (tip : Option Nat) (lhc : BitVec 64) :
    Posts Pmp.locks Pmp.loose
      (refsOf (renameUnlocks a fip tip) + Pi.single fip 1 + refsOf tip.toList)
      (renameDone a fip tip lhc) (fun _ => -refsOf (renameUnlocks a fip tip))
      (fun _ => -(refsOf (renameUnlocks a fip tip) + Pi.single fip 1 + refsOf tip.toList)) := by
  have hcover : 0 ≤ refsOf (renameUnlocks a fip tip) + Pi.single fip 1 + refsOf tip.toList :=
    add_nonneg (add_nonneg (refsOf_nonneg _) single_nonneg) (refsOf_nonneg _)
  apply renameBackend_neutral.bind_neutral hcover
  intro error
  apply (forTarget_neutral (fun ip => ?_) tip).bind_neutral hcover
  · intro _
    apply countSubdir_neutral.bind_neutral hcover
    intro _
    apply countSubdir_neutral.bind_neutral hcover
    intro _
    exact renameLeave_posts a fip tip error
  · exact .ite (fun _ => unlinkFinisher_neutral) fun _ => .pure rfl rfl

theorem refTarget_posts (tip : Option Nat) :
    Posts Pmp.locks Pmp.loose c (forTarget inodeRef tip) (fun _ => 0)
      (fun _ => refsOf tip.toList) := by
  cases tip with
  | none => exact .pure rfl rfl
  | some tip =>
    rw [Option.toList_some, refsOf_singleton]
    exact inodeRef_posts

theorem renameNodes_posts (a : RenameArgs) (fip : Nat) (tip : Option Nat) :
    Posts Pmp.locks Pmp.loose (refsOf (renameUnlocks a fip tip)) (renameNodes a fip tip)
      (fun _ => -refsOf (renameUnlocks a fip tip))
      (fun _ => -refsOf (renameUnlocks a fip tip)) := by
  have hcover : 0 ≤ refsOf (renameUnlocks a fip tip) + Pi.single fip 1 + refsOf tip.toList :=
    add_nonneg (add_nonneg (refsOf_nonneg _) single_nonneg) (refsOf_nonneg _)
  apply inodeRef_posts.bind le_rfl
  intro _
  apply (refTarget_posts tip).bind le_rfl
  intro _
  apply Posts.bind_neutral (x := inodeLock4 _) (.pure rfl rfl) hcover
  intro _
  apply scanlhc_neutral.bind_neutral hcover
  intro scanned
  split
  next error _ =>
    apply (renameLeave_posts a fip tip (some error)).conseq le_rfl
    · intro _
      abel
    · intro _
      abel
  next lhc _ =>
    apply (renameDone_posts a fip tip lhc).conseq le_rfl
    · intro _
      abel
    · intro _
      abel

end Posts

end Hammer2.Vnops
