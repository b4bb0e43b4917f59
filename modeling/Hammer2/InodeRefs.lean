import Hammer2.Accounts
import Hammer2.Dirent
import Hammer2.LinkCount
import Mathlib.Algebra.Order.Pi

namespace Hammer2.Vnops

/-- `HAMMER2_OBJTYPE_*` -/
inductive ObjType where
  | unknown | directory | regfile | fifo | cdev | bdev | softlink | socket | whiteout
deriving DecidableEq

/-- The fields of `hammer2_inode_meta_t` that the namespace operations read; `sticky` is the bit
`S_ISVTX` of `mode`. -/
structure Meta where
  inum : BitVec 64
  type : ObjType
  uflags : BitVec 32
  sticky : Bool
  uid : Nat
  nlinks : BitVec 64
  nameKey : BitVec 64
deriving DecidableEq

structure Vnode where
  mountedHere : Bool
deriving DecidableEq

/-- `hammer2_inode_t`. `lock` is the recursion count of its mutex, `nchains` that of its cluster. -/
structure Inode where
  metaData : Meta
  refs : Int
  lock : Int
  vp : Option Vnode
  onhash : Bool
  sideq : Bool
  syncq : Bool
  nosideq : Bool
  modified : Bool
  creating : Bool
  deleting : Bool
  unlinked : Bool
  nchains : Nat
deriving DecidableEq

/-- The references that are held by the vnode and by the side queue, which the syncer renames to its
own queue. The hash holds none. -/
def Inode.held (n : Inode) : Int :=
  (if n.vp.isSome then 1 else 0) + (if n.sideq then 1 else 0) + (if n.syncq then 1 else 0)

def Inode.loose (n : Inode) : Int := n.refs - n.held

/-- A mount with its inodes in the order of their allocation, `none` where one has been freed. An inode
is named by its place, and a vnode by its inode. -/
structure Pmp where
  inodes : List (Option Inode)
  rdonly : Bool
  emerg : Bool
  inodeTid : BitVec 64
deriving DecidableEq

def Pmp.get (s : Pmp) (ip : Nat) : Option Inode := s.inodes[ip]?.join

def Pmp.set (s : Pmp) (ip : Nat) (n : Option Inode) : Pmp := { s with inodes := s.inodes.set ip n }

/-- The lock hold count of every inode. -/
def Pmp.locks (s : Pmp) (ip : Nat) : Int := (s.get ip).elim 0 Inode.lock

/-- The references of every inode that neither its vnode nor a queue holds. -/
def Pmp.loose (s : Pmp) (ip : Nat) : Int := (s.get ip).elim 0 Inode.loose

/-- An operation, which has no result where the source panics or uses an inode after it is freed. -/
abbrev VopM := StateT Pmp Option

/-- `KKASSERT` -/
def kkassert (p : Prop) [Decidable p] : VopM Unit := fun s => if p then some ((), s) else none

def readInode (ip : Nat) : VopM Inode := fun s => (s.get ip).map fun n => (n, s)

def update (ip : Nat) (f : Inode → Inode) : VopM Unit := fun s =>
  (s.get ip).map fun n => ((), s.set ip (some (f n)))

def inodeRef (ip : Nat) : VopM Unit := update ip fun n => { n with refs := n.refs + 1 }

def mtxEx (ip : Nat) : VopM Unit := update ip fun n => { n with lock := n.lock + 1 }

def mtxUnlock (ip : Nat) : VopM Unit := update ip fun n => { n with lock := n.lock - 1 }

def freeInode (ip : Nat) : VopM Unit := fun s => some ((), s.set ip none)

/-- `hammer2_inode_drop`. An inode that goes away leaves the hash. -/
def inodeDrop (ip : Nat) : VopM Unit := do
  let n ← readInode ip
  if n.refs = 1 then
    kkassert (n.lock = 0)
    freeInode ip
  else update ip fun n => { n with refs := n.refs - 1 }

/-- An inode on the syncer's queue is waited for. The syncer takes it off and drops the reference that
the queue held. -/
def waitSyncq (ip : Nat) : VopM Unit := do
  let n ← readInode ip
  if n.lock ≤ 1 ∧ n.syncq then update ip fun n => { n with syncq := false, refs := n.refs - 1 }
  else pure ()

/-- `hammer2_inode_lock` -/
def inodeLock (ip : Nat) (shared : Bool) : VopM Unit := do
  inodeRef ip
  mtxEx ip
  if shared then pure () else waitSyncq ip

/-- `hammer2_inode_unlock` -/
def inodeUnlock (ip : Nat) : VopM Unit := do
  mtxUnlock ip
  inodeDrop ip

/-- `hammer2_inode_lock4` as `hammer2_bsdvfs.h` defines it for `hammer2_vnops.c`. -/
def inodeLock4 (_ : List Nat) : VopM Unit := pure ()

/-- `hammer2_inode_setdepend_locked`, of which only the queue's reference matters here. -/
def setdependLocked (ip : Nat) : VopM Unit := do
  let n ← readInode ip
  if n.syncq then pure ()
  else if n.sideq then pure ()
  else
    inodeRef ip
    update ip fun n => { n with sideq := true }

/-- `hammer2_inode_delayed_sideq` -/
def delayedSideq (ip : Nat) : VopM Unit := do
  let n ← readInode ip
  if n.syncq ∨ n.sideq then pure () else setdependLocked ip

/-- `hammer2_inode_modify` -/
def inodeModify (ip : Nat) : VopM Unit := do
  update ip fun n => { n with modified := true }
  let n ← readInode ip
  if n.nosideq then pure () else delayedSideq ip

/-- `hammer2_inode_depend` -/
def inodeDepend (ip1 ip2 : Nat) : VopM Unit := do
  setdependLocked ip1
  setdependLocked ip2

def setNlinks (ip : Nat) (f : BitVec 64 → BitVec 64) : VopM Unit :=
  update ip fun n => { n with metaData := { n.metaData with nlinks := f n.metaData.nlinks } }

/-- `hammer2_inode_unlink_finisher` without a `vprecyclep` -/
def unlinkFinisher (ip : Nat) : VopM Unit := do
  let n ← readInode ip
  if n.metaData.type ≠ .directory ∧ 1 < n.metaData.nlinks.toInt then
    inodeModify ip
    setNlinks ip (· - 1)
  else
    update ip fun n => { n with unlinked := true }
    if n.vp = none then
      if n.deleting then pure ()
      else
        update ip fun n => { n with deleting := true }
        delayedSideq ip
    else
      inodeModify ip
      setNlinks ip fun _ => 0

/-- The inode that a backend has found: its meta-data and the chains of the cluster. -/
structure Found where
  metaData : Meta
  nchains : Nat
deriving DecidableEq

/-- `hammer2_inode_lookup`, without the reference that it takes. -/
def Pmp.lookup (s : Pmp) (inum : BitVec 64) : Option Nat :=
  (List.range s.inodes.length).find? fun ip =>
    (s.get ip).any fun n => n.onhash && decide (n.metaData.inum = inum)

def blankMeta (inum : BitVec 64) : Meta := ⟨inum, .unknown, 0, false, 0, 0, 0⟩

/-- A new inode, locked and referenced once. -/
def newInode (found : Found) : Inode :=
  ⟨found.metaData, 1, 1, none, true, false, false, false, false, false, false, false, found.nchains⟩

def allocInode (found : Found) : VopM Nat := fun s =>
  some (s.inodes.length, { s with inodes := s.inodes ++ [some (newInode found)] })

/-- `hammer2_inode_repoint` to the cluster of an xop, if there is one. -/
def inodeRepoint (ip : Nat) : Option Found → VopM Unit
  | some found => update ip fun n => { n with nchains := found.nchains }
  | none => pure ()

/-- `hammer2_inode_get` with the inode that an xop has found, or by its number alone. -/
def inodeGet (xop : Option Found) (inum : BitVec 64) : VopM Nat := do
  let found := xop.getD ⟨blankMeta inum, 0⟩
  let s ← get
  match s.lookup found.metaData.inum with
  | some ip =>
    inodeRef ip
    mtxEx ip
    inodeRepoint ip xop
    pure ip
  | none => allocInode found

/-- `hammer2_igetv`. A vnode that is attached to its inode holds a reference to it. -/
def igetv (ip : Nat) : VopM Unit := do
  let n ← readInode ip
  if n.vp = none then
    inodeRef ip
    update ip fun n => { n with vp := some ⟨false⟩ }
  else pure ()

/-- `hammer2_xop_alloc`, `hammer2_xop_setip2` and so on, which take a reference each. -/
def xopRefs : List Nat → VopM Unit
  | [] => pure ()
  | ip :: ips => do
    inodeRef ip
    xopRefs ips

/-- `hammer2_xop_retire` when the backends are done. -/
def xopRetire : List Nat → VopM Unit
  | [] => pure ()
  | ip :: ips => do
    inodeDrop ip
    xopRetire ips

section Places

variable {s : Pmp} {ip : Nat} {n : Inode}

theorem Pmp.get_set_self (h : s.get ip = some n) (o : Option Inode) : (s.set ip o).get ip = o := by
  have hlt : ip < s.inodes.length :=
    (List.getElem?_eq_some_iff.mp (Option.join_eq_some_iff.mp h)).1
  simp [Pmp.get, Pmp.set, hlt]

theorem Pmp.get_set_ne {j : Nat} (h : j ≠ ip) (o : Option Inode) : (s.set ip o).get j = s.get j := by
  simp [Pmp.get, Pmp.set, List.getElem?_set_ne h.symm]

theorem Pmp.loose_of_get (h : s.get ip = some n) : s.loose ip = n.loose := by
  simp [Pmp.loose, h]

theorem Pmp.set_locks (h : s.get ip = some n) (o : Option Inode) :
    (s.set ip o).locks = s.locks + Pi.single ip (o.elim 0 Inode.lock - n.lock) := by
  funext j
  by_cases hj : j = ip
  · subst hj
    simp [Pmp.locks, Pmp.get_set_self h, h]
  · simp [Pmp.locks, Pmp.get_set_ne hj, hj]

theorem Pmp.set_loose (h : s.get ip = some n) (o : Option Inode) :
    (s.set ip o).loose = s.loose + Pi.single ip (o.elim 0 Inode.loose - n.loose) := by
  funext j
  by_cases hj : j = ip
  · subst hj
    simp [Pmp.loose, Pmp.get_set_self h, h]
  · simp [Pmp.loose, Pmp.get_set_ne hj, hj]

end Places

section Posts

open Accounts

variable {ip : Nat} {c : Nat → Int}

theorem readInode_bind {α : Type} {f : Inode → VopM α} {s t : Pmp} {a : α}
    (h : (readInode ip >>= f).run s = some (a, t)) :
    ∃ n, s.get ip = some n ∧ (f n).run s = some (a, t) := by
  obtain ⟨n, u, hn, hf⟩ := run_bind_eq_some h
  obtain ⟨m, hm, hp⟩ := Option.map_eq_some_iff.mp hn
  obtain ⟨rfl, rfl⟩ := Prod.mk.inj hp
  exact ⟨m, hm, hf⟩

theorem update_run {f : Inode → Inode} {s t : Pmp} {a : Unit}
    (h : (update ip f).run s = some (a, t)) :
    ∃ n, s.get ip = some n ∧ t = s.set ip (some (f n)) := by
  obtain ⟨n, hn, hp⟩ := Option.map_eq_some_iff.mp h
  exact ⟨n, hn, (Prod.mk.inj hp).2.symm⟩

/-- A change of one inode posts what it adds to the lock count and to the loose references. -/
theorem update_posts {f : Inode → Inode} {l r : Int} (hl : ∀ n, (f n).lock = n.lock + l)
    (hr : ∀ n, (f n).loose = n.loose + r) :
    Posts Pmp.locks Pmp.loose c (update ip f) (fun _ => Pi.single ip l)
      (fun _ => Pi.single ip r) := by
  constructor
  · intro s a t h
    obtain ⟨n, hn, rfl⟩ := update_run h
    simp [Pmp.set_locks hn, hl]
  · intro s a t h _
    obtain ⟨n, hn, rfl⟩ := update_run h
    simp [Pmp.set_loose hn, hr]

theorem update_neutral {f : Inode → Inode} (hl : ∀ n, (f n).lock = n.lock)
    (hr : ∀ n, (f n).loose = n.loose) : Neutral Pmp.locks Pmp.loose (update ip f) := by
  apply (update_posts (fun n => (hl n).trans (add_zero _).symm)
    fun n => (hr n).trans (add_zero _).symm).conseq le_rfl
  · intro a
    exact Pi.single_zero ip
  · intro a
    exact Pi.single_zero ip

theorem inodeRef_posts :
    Posts Pmp.locks Pmp.loose c (inodeRef ip) (fun _ => 0) (fun _ => Pi.single ip 1) := by
  have h : Posts Pmp.locks Pmp.loose c (inodeRef ip) (fun _ => Pi.single ip 0)
      (fun _ => Pi.single ip 1) :=
    update_posts (fun n => (add_zero n.lock).symm) fun n => by
      show n.refs + 1 - n.held = n.refs - n.held + 1
      omega
  simpa using h

theorem mtxEx_posts :
    Posts Pmp.locks Pmp.loose c (mtxEx ip) (fun _ => Pi.single ip 1) (fun _ => 0) := by
  have h : Posts Pmp.locks Pmp.loose c (mtxEx ip) (fun _ => Pi.single ip 1)
      (fun _ => Pi.single ip 0) :=
    update_posts (fun _ => rfl) fun n => (add_zero n.loose).symm
  simpa using h

theorem mtxUnlock_posts :
    Posts Pmp.locks Pmp.loose c (mtxUnlock ip) (fun _ => -Pi.single ip 1) (fun _ => 0) := by
  have h : Posts Pmp.locks Pmp.loose c (mtxUnlock ip) (fun _ => Pi.single ip (-1))
      (fun _ => Pi.single ip 0) :=
    update_posts (fun _ => rfl) fun n => (add_zero n.loose).symm
  simpa [Pi.single_neg] using h

theorem Inode.held_nonneg (n : Inode) : 0 ≤ n.held := by
  unfold Inode.held
  split <;> split <;> split <;> decide

/-- What a drop does to its inode: it goes away with its last reference, or it stays with one less. -/
theorem inodeDrop_cases {s t : Pmp} {a : Unit} (h : (inodeDrop ip).run s = some (a, t)) :
    ∃ n, s.get ip = some n ∧ (n.refs = 1 ∧ n.lock = 0 ∧ t = s.set ip none ∨
      n.refs ≠ 1 ∧ t = s.set ip (some { n with refs := n.refs - 1 })) := by
  obtain ⟨n, hn, h⟩ := readInode_bind h
  refine ⟨n, hn, ?_⟩
  by_cases hr : n.refs = 1
  · rw [if_pos hr] at h
    obtain ⟨b, u, hk, hf⟩ := run_bind_eq_some h
    by_cases hl : n.lock = 0
    · have hu : some ((), s) = some (b, u) := by
        rw [← hk]
        exact (if_pos hl).symm
      obtain ⟨-, rfl⟩ := Prod.mk.inj (Option.some.inj hu)
      exact Or.inl ⟨hr, hl, (Prod.mk.inj (Option.some.inj hf)).2.symm⟩
    · have hnone : (kkassert (n.lock = 0)).run s = none := if_neg hl
      rw [hnone] at hk
      contradiction
  · rw [if_neg hr] at h
    obtain ⟨m, hm, rfl⟩ := update_run h
    rw [hn] at hm
    cases hm
    exact Or.inr ⟨hr, rfl⟩

/-- A drop never changes a lock count, and it costs a loose reference, which there has to be: one
that frees the inode would otherwise take the vnode's or the queue's. -/
theorem inodeDrop_posts :
    Posts Pmp.locks Pmp.loose (Pi.single ip 1) (inodeDrop ip) (fun _ => 0)
      (fun _ => -Pi.single ip 1) := by
  constructor
  · intro s a t h
    obtain ⟨n, hn, ⟨-, hl, rfl⟩ | ⟨-, rfl⟩⟩ := inodeDrop_cases h
    · simp [Pmp.set_locks hn, hl]
    · simp [Pmp.set_locks hn]
  · intro s a t h hc
    obtain ⟨n, hn, ⟨hr, -, rfl⟩ | ⟨-, rfl⟩⟩ := inodeDrop_cases h
    · have hone : 1 ≤ n.loose := by
        have := hc ip
        rwa [Pi.single_eq_same, Pmp.loose_of_get hn] at this
      have hloose : n.loose = 1 := by
        have := n.held_nonneg
        unfold Inode.loose at hone ⊢
        omega
      simp [Pmp.set_loose hn, hloose, Pi.single_neg]
    · have hloose : ({ n with refs := n.refs - 1 } : Inode).loose - n.loose = -1 := by
        show n.refs - 1 - n.held - (n.refs - n.held) = -1
        omega
      rw [Pmp.set_loose hn, Option.elim_some, hloose, Pi.single_neg]

theorem single_nonneg : (0 : Nat → Int) ≤ Pi.single ip 1 := by
  simp

theorem neutral_of_run {α : Type} {x : VopM α} (h : ∀ {s : Pmp} {a : α} {t : Pmp},
    x.run s = some (a, t) → t.locks = s.locks ∧ t.loose = s.loose) :
    Neutral Pmp.locks Pmp.loose x := by
  constructor
  · intro s a t hx
    exact (h hx).1.trans (add_zero _).symm
  · intro s a t hx _
    exact (h hx).2.trans (add_zero _).symm

theorem Pmp.set_neutral {s : Pmp} {n n' : Inode} (hn : s.get ip = some n) (hl : n'.lock = n.lock)
    (hr : n'.loose = n.loose) :
    (s.set ip (some n')).locks = s.locks ∧ (s.set ip (some n')).loose = s.loose := by
  constructor
  · simp [Pmp.set_locks hn, hl]
  · simp [Pmp.set_loose hn, hr]

theorem Pmp.set_set (s : Pmp) (o p : Option Inode) : (s.set ip o).set ip p = s.set ip p := by
  simp [Pmp.set]

theorem pure_run {α : Type} {a b : α} {s t : Pmp} (h : (pure a : VopM α).run s = some (b, t)) :
    b = a ∧ t = s := by
  obtain ⟨hb, ht⟩ := Prod.mk.inj (Option.some.inj h)
  exact ⟨hb.symm, ht.symm⟩

theorem waitSyncq_neutral : Neutral Pmp.locks Pmp.loose (waitSyncq ip) := by
  apply neutral_of_run
  intro s a t h
  obtain ⟨n, hn, h⟩ := readInode_bind h
  split at h
  next hq =>
    obtain ⟨m, hm, rfl⟩ := update_run h
    rw [hn] at hm
    cases hm
    refine Pmp.set_neutral hn rfl ?_
    simp only [Inode.loose, Inode.held, hq.2, if_true, Bool.false_eq_true, if_false]
    omega
  next =>
    obtain ⟨-, rfl⟩ := pure_run h
    exact ⟨rfl, rfl⟩

theorem inodeLock_posts (shared : Bool) (hc : 0 ≤ c) :
    Posts Pmp.locks Pmp.loose c (inodeLock ip shared) (fun _ => Pi.single ip 1)
      (fun _ => Pi.single ip 1) := by
  apply (inodeRef_posts (c := c)).bind le_rfl
  intro _
  apply (mtxEx_posts (c := c + Pi.single ip 1)).bind le_rfl
  intro _
  have hwait : Neutral Pmp.locks Pmp.loose (if shared then pure () else waitSyncq ip) :=
    .ite (fun _ => .pure rfl rfl) fun _ => waitSyncq_neutral
  apply hwait.conseq
  · exact add_nonneg (add_nonneg hc single_nonneg) le_rfl
  · intro _
    simp
  · intro _
    simp

theorem inodeUnlock_posts :
    Posts Pmp.locks Pmp.loose (Pi.single ip 1) (inodeUnlock ip) (fun _ => -Pi.single ip 1)
      (fun _ => -Pi.single ip 1) := by
  apply (mtxUnlock_posts (c := Pi.single ip 1)).bind le_rfl
  intro _
  apply inodeDrop_posts.conseq
  · exact (add_zero _).ge
  · intro _
    exact (sub_self _).symm
  · intro _
    exact (sub_zero _).symm

/-- A reference that is taken for a holder changes no balance. -/
theorem refFor_neutral {s t : Pmp} {n : Inode} {f : Inode → Inode} {a : Unit}
    (hn : s.get ip = some n) (hl : ∀ n, (f n).lock = n.lock) (hr : ∀ n, (f n).refs = n.refs)
    (hh : (f { n with refs := n.refs + 1 }).held = n.held + 1)
    (h : (do inodeRef ip; update ip f : VopM Unit).run s = some (a, t)) :
    t.locks = s.locks ∧ t.loose = s.loose := by
  obtain ⟨b, u, href, hset⟩ := run_bind_eq_some h
  obtain ⟨m, hm, rfl⟩ := update_run href
  rw [hn] at hm
  cases hm
  obtain ⟨m, hm, rfl⟩ := update_run hset
  rw [Pmp.get_set_self hn] at hm
  cases hm
  rw [Pmp.set_set]
  refine Pmp.set_neutral hn (hl _) ?_
  show (f _).refs - (f _).held = n.refs - n.held
  rw [hr, hh]
  show n.refs + 1 - (n.held + 1) = n.refs - n.held
  omega

theorem setdependLocked_neutral : Neutral Pmp.locks Pmp.loose (setdependLocked ip) := by
  apply neutral_of_run
  intro s a t h
  obtain ⟨n, hn, h⟩ := readInode_bind h
  split at h
  next =>
    obtain ⟨-, rfl⟩ := pure_run h
    exact ⟨rfl, rfl⟩
  next =>
    split at h
    next =>
      obtain ⟨-, rfl⟩ := pure_run h
      exact ⟨rfl, rfl⟩
    next hq hs =>
      refine refFor_neutral hn ?_ ?_ ?_ h
      · intro _
        rfl
      · intro _
        rfl
      simp only [Inode.held, hs, if_true, Bool.false_eq_true, if_false]
      omega

theorem igetv_neutral : Neutral Pmp.locks Pmp.loose (igetv ip) := by
  apply neutral_of_run
  intro s a t h
  obtain ⟨n, hn, h⟩ := readInode_bind h
  split at h
  next hv =>
    refine refFor_neutral hn ?_ ?_ ?_ h
    · intro _
      rfl
    · intro _
      rfl
    simp only [Inode.held, hv, Option.isSome_some, Option.isSome_none, if_true,
      Bool.false_eq_true, if_false]
    omega
  next =>
    obtain ⟨-, rfl⟩ := pure_run h
    exact ⟨rfl, rfl⟩

theorem readInode_neutral : Neutral Pmp.locks Pmp.loose (readInode ip) := by
  apply neutral_of_run
  intro s a t h
  obtain ⟨m, -, hp⟩ := Option.map_eq_some_iff.mp h
  rw [(Prod.mk.inj hp).2]
  exact ⟨rfl, rfl⟩

theorem delayedSideq_neutral : Neutral Pmp.locks Pmp.loose (delayedSideq ip) := by
  apply readInode_neutral.bind_neutral le_rfl
  intro n
  exact .ite (fun _ => .pure rfl rfl) fun _ => setdependLocked_neutral

theorem inodeModify_neutral : Neutral Pmp.locks Pmp.loose (inodeModify ip) := by
  refine Posts.bind_neutral (update_neutral (fun _ => rfl) fun _ => rfl) le_rfl ?_
  intro _
  apply readInode_neutral.bind_neutral le_rfl
  intro n
  exact .ite (fun _ => .pure rfl rfl) fun _ => delayedSideq_neutral

theorem inodeDepend_neutral {ip2 : Nat} :
    Neutral Pmp.locks Pmp.loose (inodeDepend ip ip2) := by
  apply setdependLocked_neutral.bind_neutral le_rfl
  intro _
  exact setdependLocked_neutral

theorem setNlinks_neutral {f : BitVec 64 → BitVec 64} :
    Neutral Pmp.locks Pmp.loose (setNlinks ip f) :=
  update_neutral (fun _ => rfl) fun _ => rfl

theorem unlinkFinisher_neutral : Neutral Pmp.locks Pmp.loose (unlinkFinisher ip) := by
  apply readInode_neutral.bind_neutral le_rfl
  intro n
  apply Posts.ite
  · intro _
    apply inodeModify_neutral.bind_neutral le_rfl
    intro _
    exact setNlinks_neutral
  · intro _
    refine Posts.bind_neutral (update_neutral (fun _ => rfl) fun _ => rfl) le_rfl ?_
    intro _
    apply Posts.ite
    · intro _
      apply Posts.ite
      · intro _
        exact .pure rfl rfl
      · intro _
        refine Posts.bind_neutral (update_neutral (fun _ => rfl) fun _ => rfl) le_rfl ?_
        intro _
        exact delayedSideq_neutral
    · intro _
      apply inodeModify_neutral.bind_neutral le_rfl
      intro _
      exact setNlinks_neutral

theorem Pmp.get_append {s : Pmp} {n : Inode} {j : Nat} :
    ({ s with inodes := s.inodes ++ [some n] } : Pmp).get j =
      if j = s.inodes.length then some n else s.get j := by
  unfold Pmp.get
  obtain hj | rfl | hj := lt_trichotomy j s.inodes.length
  · rw [if_neg hj.ne, List.getElem?_append_left hj]
  · simp
  · rw [if_neg hj.ne', List.getElem?_eq_none (by simp; omega), List.getElem?_eq_none hj.le]

theorem Pmp.get_length {s : Pmp} : s.get s.inodes.length = none := by
  simp [Pmp.get]

/-- A new inode comes with one lock and one loose reference. -/
theorem allocInode_posts (found : Found) :
    Posts Pmp.locks Pmp.loose c (allocInode found) (fun ip => Pi.single ip 1)
      (fun ip => Pi.single ip 1) := by
  have hget : ∀ {s t : Pmp} {ip j : Nat}, (allocInode found).run s = some (ip, t) →
      ip = s.inodes.length ∧ t.get j = if j = ip then some (newInode found) else s.get j := by
    intro s t ip j h
    obtain ⟨rfl, rfl⟩ := Prod.mk.inj (Option.some.inj h)
    exact ⟨rfl, Pmp.get_append⟩
  constructor
  · intro s ip t h
    funext j
    obtain ⟨hip, hj⟩ := hget (j := j) h
    unfold Pmp.locks
    rw [hj]
    by_cases hjip : j = ip
    · subst hjip hip
      simp [Pmp.get_length, newInode]
    · simp [hjip]
  · intro s ip t h _
    funext j
    obtain ⟨hip, hj⟩ := hget (j := j) h
    unfold Pmp.loose
    rw [hj]
    by_cases hjip : j = ip
    · subst hjip hip
      simp [Pmp.get_length, newInode, Inode.loose, Inode.held]
    · simp [hjip]

theorem get_neutral : Neutral Pmp.locks Pmp.loose (get : VopM Pmp) := by
  apply neutral_of_run
  intro s a t h
  obtain ⟨-, rfl⟩ := Prod.mk.inj (Option.some.inj h)
  exact ⟨rfl, rfl⟩

theorem inodeRepoint_neutral (xop : Option Found) :
    Neutral Pmp.locks Pmp.loose (inodeRepoint ip xop) := by
  cases xop with
  | none => exact .pure rfl rfl
  | some found => exact update_neutral (fun _ => rfl) fun _ => rfl

theorem inodeGet_posts (xop : Option Found) (inum : BitVec 64) (hc : 0 ≤ c) :
    Posts Pmp.locks Pmp.loose c (inodeGet xop inum) (fun ip => Pi.single ip 1)
      (fun ip => Pi.single ip 1) := by
  apply get_neutral.bind_neutral hc
  intro s
  split
  next ip _ =>
    apply (inodeRef_posts (c := c)).bind le_rfl
    intro _
    apply (mtxEx_posts (c := c + Pi.single ip 1)).bind le_rfl
    intro _
    have hcover : 0 ≤ c + Pi.single ip 1 + 0 :=
      add_nonneg (add_nonneg hc single_nonneg) le_rfl
    apply (inodeRepoint_neutral xop).bind_neutral hcover
    intro _
    apply Posts.pure
    · simp
    · simp
  next => exact allocInode_posts _

/-- One reference for each inode of a list, which may name one twice. -/
def refsOf (ips : List Nat) : Nat → Int := (ips.map fun ip => Pi.single ip 1).sum

theorem refsOf_nonneg (ips : List Nat) : 0 ≤ refsOf ips := by
  apply List.sum_nonneg
  intro f hf
  obtain ⟨ip, -, rfl⟩ := List.mem_map.mp hf
  exact single_nonneg

theorem refsOf_cons (ips : List Nat) : refsOf (ip :: ips) = Pi.single ip 1 + refsOf ips := by
  simp [refsOf]

theorem refsOf_apply (ips : List Nat) (ip : Nat) : refsOf ips ip = ips.count ip := by
  induction ips with
  | nil => rfl
  | cons jp ips ih =>
    rw [refsOf_cons, Pi.add_apply, ih, List.count_cons]
    by_cases hj : jp = ip
    · subst hj
      simp [add_comm]
    · simp [hj]

theorem refsOf_singleton : refsOf [ip] = Pi.single ip 1 := by
  simp [refsOf]

theorem xopRefs_posts (ips : List Nat) :
    Posts Pmp.locks Pmp.loose c (xopRefs ips) (fun _ => 0) (fun _ => refsOf ips) := by
  induction ips generalizing c with
  | nil => exact .pure rfl rfl
  | cons ip ips ih =>
    apply (inodeRef_posts (c := c)).bind le_rfl
    intro _
    apply ih.conseq le_rfl
    · intro _
      exact (sub_zero _).symm
    · intro _
      rw [refsOf_cons, add_sub_cancel_left]

theorem xopRetire_posts (ips : List Nat) :
    Posts Pmp.locks Pmp.loose (refsOf ips) (xopRetire ips) (fun _ => 0)
      (fun _ => -refsOf ips) := by
  induction ips with
  | nil => exact .pure rfl rfl
  | cons ip ips ih =>
    rw [refsOf_cons]
    apply inodeDrop_posts.bind (le_add_of_nonneg_right (refsOf_nonneg ips))
    intro _
    apply ih.conseq
    · exact (add_neg_cancel_comm _ _).ge
    · intro _
      exact (sub_zero _).symm
    · intro _
      abel

end Posts

end Hammer2.Vnops
