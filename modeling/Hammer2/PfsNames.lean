import Hammer2.Run
import Hammer2.SuperRoot

namespace Hammer2

/-- `HAMMER2_PFSTYPE_MASTER` -/
def pfstypeMaster : Nat := 6

/-- `HAMMER2_MAXCLUSTER` -/
def maxcluster : Nat := 8

/-- `HAMMER2_ERROR_ENOTDIR` -/
def errorENOTDIR : Nat := 0x200

/-- The part of a `hammer2_ioc_pfs_t` that the requests read. -/
structure PfsRequest where
  name : List (BitVec 8)
  type : Nat
  clid : Nat

/-- The name in a request, whose last byte is overwritten with NUL. -/
def PfsRequest.label (r : PfsRequest) : PfsName where
  bytes := (r.name.take (inodeMaxname - 1)).takeWhile (· ≠ 0#8)
  short := by
    have hle := (List.takeWhile_sublist (· ≠ 0#8) (l := r.name.take (inodeMaxname - 1))).length_le
    have htake := List.length_take_le (inodeMaxname - 1) r.name
    unfold inodeMaxname at *
    omega

/-- A PFS in memory, with the device and the name of each of its slots. -/
structure Pmp where
  forceLocal : Option Nat
  clid : Nat
  slots : List (Nat × Name)
  mounted : Bool

/-- The device that the requests address, and how it is mounted. -/
structure PfsDev where
  hmp : Nat
  hmnt2Local : Bool
  rdonly : Bool

structure PfsState where
  root : SuperRoot
  pfslist : List Pmp

inductive PfsReply where
  | done
  | einval
  | erofs
  | eexist
  | eopnotsupp
  | enoent
  | ebusy
  | error (code : Nat)

/-- The search for a label with `hammer2_chain_dirent_test`. It is `none` when that follows a NULL
data pointer. -/
def labelScan (f : ScanFaults) (name : Name) : List SupChain → Option (Option (Nat × PfsInode))
  | [] => some none
  | c :: l =>
    match if f.unread c.key then none else c.data with
    | none => none
    | some data => if data.filename = name then some (some (c.key, data)) else labelScan f name l

/-- `hammer2_ioctl_pfs_lookup`, up to the conversion of the error. -/
def ioctlPfsLookup (root : SuperRoot) (f : ScanFaults) (name : Name) : Option Nat :=
  if f.noParent then none
  else
    let r := root.range f (lhcBase name) (lhcBase name + dirhashLomask)
    (labelScan f name r.1).map fun
      | some (key, _) => if f.error key = 0 then 0 else errorENOENT
      | none => if r.2 = 0 then errorENOENT else r.2

/-- `hammer2_pfsalloc` of a PFS on the device. -/
def pfsalloc (dev : PfsDev) (pfslist : List Pmp) (clid : Nat) (filename : Name) : List Pmp :=
  let forceLocal := if dev.hmnt2Local then some dev.hmp else none
  let addSlot (p : Pmp) : Pmp :=
    if p.slots.length = maxcluster then p else { p with slots := p.slots ++ [(dev.hmp, filename)] }
  let found (p : Pmp) : Bool :=
    p.forceLocal = forceLocal ∧
      if forceLocal = none then p.clid = clid else p.slots.head?.map (·.2) = some filename
  match pfslist.findIdx? found with
  | some i => pfslist.modify i addSlot
  | none => pfslist ++ [addSlot ⟨forceLocal, clid, [], false⟩]

structure PfsCreateFaults where
  lookup : ScanFaults
  create : CreatePfsFaults
  modify : Nat

/-- `hammer2_ioctl_pfs_create`; `none` where it follows a NULL pointer or an assertion fails. -/
def ioctlPfsCreate (dev : PfsDev) (s : PfsState) (r : PfsRequest) (f : PfsCreateFaults) :
    Option (PfsReply × PfsState) :=
  if r.name.headD 0#8 = 0#8 then some (.einval, s)
  else if dev.rdonly then some (.erofs, s)
  else
    (ioctlPfsLookup s.root f.lookup r.label.bytes).bind fun error =>
      if error = 0 then some (.eexist, s)
      else if r.type ≠ pfstypeMaster then some (.eopnotsupp, s)
      else
        let c := inodeCreatePfs s.root f.create r.label
        if c.1.errorp = 0 then
          -- the caller only tests the error
          match c.1.nip with
          | none => none
          | some nip =>
            if f.modify ≠ 0 then none
            else some (.done, ⟨c.2, pfsalloc dev s.pfslist r.clid nip.filename⟩)
        else some (.error c.1.errorp, { s with root := c.2 })

/-- `hammer2_ioctl_pfs_snapshot`; `clid` is the cluster id that it generates. -/
def ioctlPfsSnapshot (dev : PfsDev) (s : PfsState) (r : PfsRequest) (clid : Nat)
    (f : CreatePfsFaults) (modify : Nat) : Option (PfsReply × PfsState) :=
  if r.name.headD 0#8 = 0#8 then some (.einval, s)
  else if dev.rdonly then some (.erofs, s)
  else
    let c := inodeCreatePfs s.root f r.label
    match c.1.nip with
    | none =>
      some (if c.1.errorp = 0 then .done else .error c.1.errorp, { s with root := c.2 })
    | some nip =>
      if modify ≠ 0 then none
      else some (.done, ⟨c.2, pfsalloc dev s.pfslist clid nip.filename⟩)

/-- `hammer2_xop_unlink` as `hammer2_ioctl_pfs_delete` starts it, with the error it feeds; `delete`
is the error of `hammer2_chain_delete`. -/
def xopUnlinkPfs (root : SuperRoot) (f : ScanFaults) (delete : Nat) (name : Name) :
    Option (Nat × SuperRoot) :=
  if f.noParent then some ( errorEIO, root)
  else
    let r := root.range f (lhcBase name) (lhcBase name + dirhashLomask)
    (labelScan f name r.1).map fun
      | none => (if r.2 = 0 then errorENOENT else r.2, root)
      | some (key, data) =>
        if f.error key ≠ 0 then (f.error key, root)
        else if data.type ≠ objtypeDirectory then (errorENOTDIR, root)
        else if delete ≠ 0 then (delete, root)
        else (0, root.delete key)

/-- `hammer2_ioctl_pfs_delete`. `hammer2_pfsdealloc` leaves the name in its slot. -/
def ioctlPfsDelete (dev : PfsDev) (s : PfsState) (r : PfsRequest) (f : ScanFaults) (delete : Nat) :
    Option (PfsReply × PfsState) :=
  if r.name.headD 0#8 = 0#8 then some (.einval, s)
  else if dev.rdonly then some (.erofs, s)
  else
    match s.pfslist.find? fun p => p.slots.any fun slot => slot = (dev.hmp, r.label.bytes) with
    | none => some (.enoent, s)
    | some pmp =>
      if pmp.mounted then some (.ebusy, s)
      else
        (xopUnlinkPfs s.root f delete r.label.bytes).map fun u =>
          (if u.1 = 0 then .done else .error u.1, { s with root := u.2 })

inductive PfsAction where
  | create (r : PfsRequest) (f : PfsCreateFaults)
  | snapshot (r : PfsRequest) (clid : Nat) (f : CreatePfsFaults) (modify : Nat)
  | delete (r : PfsRequest) (f : ScanFaults) (delete : Nat)
  | mount (i : Nat) (mounted : Bool)

def pfsStep (dev : PfsDev) (s : PfsState) : PfsAction → Option PfsState
  | .create r f => (ioctlPfsCreate dev s r f).map (·.2)
  | .snapshot r clid f modify => (ioctlPfsSnapshot dev s r clid f modify).map (·.2)
  | .delete r f delete => (ioctlPfsDelete dev s r f delete).map (·.2)
  | .mount i mounted =>
    some { s with pfslist := s.pfslist.modify i fun p => { p with mounted := mounted } }

def SuperRoot.names (root : SuperRoot) : List Name :=
  root.chains.filterMap fun c => c.data.map (·.filename)

def NamesUnique (s : PfsState) : Prop := s.root.names.Nodup

/-- Every inode lies in the collision space of its name. -/
def SuperRoot.Placed (root : SuperRoot) : Prop :=
  ∀ c ∈ root.chains, ∀ data, c.data = some data → c.key / 32768 = lhcBase data.filename / 32768

/-- The lookup of a name ends with an error, or finds an errored chain. -/
def LookupFails (root : SuperRoot) (f : ScanFaults) (name : Name) : Prop :=
  let r := root.range f (lhcBase name) (lhcBase name + dirhashLomask)
  (labelScan f name r.1 = some none ∧ r.2 ≠ 0) ∨
    ∃ key data, labelScan f name r.1 = some (some (key, data)) ∧ f.error key ≠ 0

/-- A key is found for a new inode, and its creation meets no error. -/
def CreatesInode (root : SuperRoot) (f : CreatePfsFaults) (name : Name) : Prop :=
  f.create.noParent = false ∧ f.create.error = 0 ∧
    ∃ lhc, createKey (lhcBase name) (xopScanlhc root f.scan (lhcBase name)).1
        (xopScanlhc root f.scan (lhcBase name)).2 = some lhc ∧
      ∀ d ∈ root.chains, d.key ≠ lhc

/-- A request that passes the checks comes to create an inode. -/
def Creates (dev : PfsDev) (s : PfsState) (r : PfsRequest) (f : CreatePfsFaults) : Prop :=
  r.name.headD 0#8 ≠ 0#8 ∧ dev.rdonly = false ∧ CreatesInode s.root f r.label.bytes

/-- No snapshot is created under a name that is in use, and no PFS after a lookup that failed. -/
def NewNames (dev : PfsDev) (s : PfsState) : PfsAction → Prop
  | .create r f =>
    r.type = pfstypeMaster → LookupFails s.root f.lookup r.label.bytes → Creates dev s r f.create →
      r.label.bytes ∉ s.root.names
  | .snapshot r _ f _ => Creates dev s r f → r.label.bytes ∉ s.root.names
  | .delete _ _ _ => True
  | .mount _ _ => True

theorem names_insert (root : SuperRoot) (c : SupChain) (h : ∀ d ∈ root.chains, d.key ≠ c.key) :
    (root.insert c h).names.Perm ((c.data.map (·.filename)).toList ++ root.names) := by
  have hperm := (insertChain_perm c root.chains).filterMap fun c => c.data.map (·.filename)
  refine hperm.trans ?_
  cases hdata : c.data with
  | none => simp [hdata, SuperRoot.names]
  | some data => simp [hdata, SuperRoot.names]

theorem placed_insert {root : SuperRoot} {c : SupChain} {h : ∀ d ∈ root.chains, d.key ≠ c.key}
    (hp : root.Placed)
    (hc : ∀ data, c.data = some data → c.key / 32768 = lhcBase data.filename / 32768) :
    (root.insert c h).Placed := by
  intro d hd data hdata
  rcases List.mem_cons.mp ((insertChain_perm c root.chains).mem_iff.mp hd) with rfl | hd
  · exact hc data hdata
  · exact hp d hd data hdata

theorem names_delete (root : SuperRoot) (key : Nat) : (root.delete key).names.Sublist root.names :=
  List.filter_sublist.filterMap _

theorem placed_delete {root : SuperRoot} (hp : root.Placed) (key : Nat) : (root.delete key).Placed :=
  fun c hc => hp c (List.mem_of_mem_filter hc)

theorem createKey_window {lhcbase last lhc : Nat} {fed : List (Nat × Nat)}
    (h : createKey lhcbase fed last = some lhc) : lhc / 32768 = lhcbase / 32768 := by
  unfold createKey dirhashLomask at h
  obtain ⟨-, h⟩ := Option.ite_none_left_eq_some.mp h
  obtain ⟨hwin, h⟩ := Option.ite_none_right_eq_some.mp h
  cases Option.some.inj h
  exact hwin

theorem inodeCreatePfs_of_createsInode {root : SuperRoot} {f : CreatePfsFaults} {name : PfsName}
    (h : CreatesInode root f name.bytes) :
    ∃ lhc, ∃ hnew : ∀ d ∈ root.chains, d.key ≠ lhc, lhc / 32768 = lhcBase name.bytes / 32768 ∧
      inodeCreatePfs root f name = (⟨0, some ⟨name.bytes, objtypeDirectory⟩⟩,
        root.insert ⟨lhc, some ⟨name.bytes, objtypeDirectory⟩⟩ hnew) := by
  obtain ⟨hparent, herror, lhc, hkey, hnew⟩ := h
  refine ⟨lhc, hnew, createKey_window hkey, ?_⟩
  unfold inodeCreatePfs xopInodeCreate
  simp only [hkey, hparent, herror, dif_pos hnew, if_true, Bool.false_eq_true, if_false]

/-- What is left of a creation that fails has no name. -/
theorem xopInodeCreate_fails {root : SuperRoot} {f : CreateFaults} {lhc : Nat} {data : PfsInode}
    (h : (xopInodeCreate root f lhc data).1 ≠ 0) :
    (xopInodeCreate root f lhc data).2.names.Perm root.names ∧
      (root.Placed → (xopInodeCreate root f lhc data).2.Placed) := by
  unfold xopInodeCreate at h ⊢
  split
  next => exact ⟨.refl _, id⟩
  next hparent =>
    rw [if_neg hparent] at h
    split
    next hnew =>
      rw [dif_pos hnew] at h
      split
      next h0 =>
        rw [if_pos h0] at h
        exact absurd rfl h
      next =>
        simp only
        split
        next =>
          refine ⟨names_insert root ⟨lhc, none⟩ hnew, fun hp => placed_insert hp ?_⟩
          intro data' hdata
          cases hdata
        next => exact ⟨.refl _, id⟩
    next => exact ⟨.refl _, id⟩

theorem xopInodeCreate_eq_zero {root : SuperRoot} {f : CreateFaults} {lhc : Nat} {data : PfsInode}
    (h : (xopInodeCreate root f lhc data).1 = 0) :
    f.noParent = false ∧ f.error = 0 ∧ ∀ d ∈ root.chains, d.key ≠ lhc := by
  unfold xopInodeCreate at h
  split at h
  next => cases h
  next hparent =>
    split at h
    next hnew =>
      split at h
      next h0 => exact ⟨by simpa using hparent, h0, hnew⟩
      next herror => exact absurd h herror
    next => cases h

theorem inodeCreatePfs_fails {root : SuperRoot} {f : CreatePfsFaults} {name : PfsName}
    (h : ¬ CreatesInode root f name.bytes) :
    (inodeCreatePfs root f name).1.nip = none ∧
      (inodeCreatePfs root f name).2.names.Perm root.names ∧
      (root.Placed → (inodeCreatePfs root f name).2.Placed) := by
  unfold inodeCreatePfs
  cases hkey : createKey (lhcBase name.bytes) (xopScanlhc root f.scan (lhcBase name.bytes)).1
      (xopScanlhc root f.scan (lhcBase name.bytes)).2 with
  | none =>
    simp only [hkey]
    exact ⟨trivial, .refl _, id⟩
  | some lhc =>
    simp only [hkey]
    have herror : (xopInodeCreate root f.create lhc ⟨name.bytes, objtypeDirectory⟩).1 ≠ 0 := by
      intro h0
      obtain ⟨hparent, hcreate, hnew⟩ := xopInodeCreate_eq_zero h0
      exact h ⟨hparent, hcreate, lhc, hkey, hnew⟩
    exact ⟨if_neg herror, xopInodeCreate_fails herror⟩

theorem labelScan_missing {f : ScanFaults} {name : Name} {l : List SupChain}
    (h : labelScan f name l = some none) :
    ∀ c ∈ l, ∀ data, c.data = some data → data.filename ≠ name := by
  induction l with
  | nil =>
    intro c hc
    cases hc
  | cons d l ih =>
    unfold labelScan at h
    split at h
    next => cases h
    next data hd =>
      obtain ⟨-, hd⟩ := Option.ite_none_left_eq_some.mp hd
      split at h
      next => cases h
      next hne =>
        intro c hc data' hdata
        rcases List.mem_cons.mp hc with rfl | hc
        · cases Option.some.inj (hd.symm.trans hdata)
          exact hne
        · exact ih h c hc data' hdata

theorem range_complete {root : SuperRoot} {f : ScanFaults} {lo hi : Nat} (h : (root.range f lo hi).2 = 0)
    {c : SupChain} (hc : c ∈ root.chains) (hlo : lo ≤ c.key) (hhi : c.key ≤ hi) :
    c ∈ (root.range f lo hi).1 := by
  have hmem : c ∈ root.chains.filter fun c => lo ≤ c.key ∧ c.key ≤ hi :=
    List.mem_filter.mpr ⟨hc, decide_eq_true ⟨hlo, hhi⟩⟩
  unfold SuperRoot.range at h ⊢
  cases hcut : f.cut with
  | none => exact hmem
  | some p =>
    simp only [hcut] at h ⊢
    split at h
    next herr => exact absurd h herr.2
    next herr =>
      rw [if_neg herr]
      exact hmem

/-- A lookup without an error finds every name that is in use. -/
theorem lookupFails_of_used {root : SuperRoot} {f : ScanFaults} {name : Name} {error : Nat}
    (hp : root.Placed) (hused : name ∈ root.names) (h : ioctlPfsLookup root f name = some error)
    (herror : error ≠ 0) : LookupFails root f name := by
  unfold ioctlPfsLookup at h
  obtain ⟨-, h⟩ := Option.ite_none_left_eq_some.mp h
  obtain ⟨found, hscan, rfl⟩ := Option.map_eq_some_iff.mp h
  cases found with
  | some p =>
    right
    refine ⟨p.1, p.2, hscan, ?_⟩
    intro h0
    exact herror (if_pos h0)
  | none =>
    left
    refine ⟨hscan, ?_⟩
    intro h0
    obtain ⟨c, hc, hname⟩ := List.mem_filterMap.mp hused
    obtain ⟨data, hdata, hfile⟩ := Option.map_eq_some_iff.mp hname
    have hwin := hp c hc data hdata
    have hmod := lhcBase_mod name
    rw [hfile] at hwin
    have hmem := range_complete h0 hc (by omega) (by unfold dirhashLomask; omega)
    exact labelScan_missing hscan c hmem data hdata hfile

theorem lookupFails_nonzero {root : SuperRoot} {f : ScanFaults} {name : Name} {error : Nat}
    (hf : LookupFails root f name) (h : ioctlPfsLookup root f name = some error) : error ≠ 0 := by
  unfold ioctlPfsLookup at h
  obtain ⟨-, h⟩ := Option.ite_none_left_eq_some.mp h
  obtain ⟨found, hscan, rfl⟩ := Option.map_eq_some_iff.mp h
  rcases hf with ⟨hnone, hne⟩ | ⟨key, data, hhit, hne⟩
  · cases Option.some.inj (hscan.symm.trans hnone)
    simp only [if_neg hne]
    exact hne
  · cases Option.some.inj (hscan.symm.trans hhit)
    simp [hne, errorENOENT]

theorem inodeCreatePfs_placed {root : SuperRoot} (hp : root.Placed) (f : CreatePfsFaults)
    (name : PfsName) : (inodeCreatePfs root f name).2.Placed := by
  by_cases h : CreatesInode root f name.bytes
  · obtain ⟨lhc, hnew, hwin, hcreate⟩ := inodeCreatePfs_of_createsInode h
    rw [hcreate]
    refine placed_insert (h := hnew) hp ?_
    intro data hdata
    cases Option.some.inj hdata
    exact hwin
  · exact (inodeCreatePfs_fails h).2.2 hp

theorem inodeCreatePfs_names {root : SuperRoot} (hu : root.names.Nodup) (f : CreatePfsFaults)
    (name : PfsName) :
    (inodeCreatePfs root f name).2.names.Nodup ↔
      (CreatesInode root f name.bytes → name.bytes ∉ root.names) := by
  by_cases h : CreatesInode root f name.bytes
  · obtain ⟨lhc, hnew, -, hcreate⟩ := inodeCreatePfs_of_createsInode h
    rw [hcreate]
    have hperm : (root.insert ⟨lhc, some ⟨name.bytes, objtypeDirectory⟩⟩ hnew).names.Perm
        (name.bytes :: root.names) := names_insert root _ hnew
    rw [hperm.nodup_iff, List.nodup_cons]
    exact ⟨fun hn _ => hn.1, fun hn => ⟨hn h, hu⟩⟩
  · rw [(inodeCreatePfs_fails h).2.1.nodup_iff]
    exact ⟨fun _ hc => absurd hc h, fun _ => hu⟩

/-- A snapshot request is turned away, or its outcome is that of `hammer2_inode_create_pfs`. -/
theorem ioctlPfsSnapshot_root {dev : PfsDev} {s s' : PfsState} {r : PfsRequest} {clid modify : Nat}
    {f : CreatePfsFaults} {reply : PfsReply}
    (h : ioctlPfsSnapshot dev s r clid f modify = some (reply, s')) :
    ((r.name.headD 0#8 = 0#8 ∨ dev.rdonly = true) ∧ s'.root = s.root) ∨
      (r.name.headD 0#8 ≠ 0#8 ∧ dev.rdonly = false ∧
        s'.root = (inodeCreatePfs s.root f r.label).2) := by
  unfold ioctlPfsSnapshot at h
  split at h
  next hname =>
    cases Option.some.inj h
    exact Or.inl ⟨Or.inl hname, rfl⟩
  next hname =>
    split at h
    next hro =>
      cases Option.some.inj h
      exact Or.inl ⟨Or.inr hro, rfl⟩
    next hro =>
      refine Or.inr ⟨hname, by simpa using hro, ?_⟩
      simp only at h
      split at h
      next =>
        cases Option.some.inj h
        rfl
      next =>
        obtain ⟨-, h⟩ := Option.ite_none_left_eq_some.mp h
        cases Option.some.inj h
        rfl

/-- A create request is turned away, or its lookup has not found the name and its outcome is that of
`hammer2_inode_create_pfs`. -/
theorem ioctlPfsCreate_root {dev : PfsDev} {s s' : PfsState} {r : PfsRequest} {f : PfsCreateFaults}
    {reply : PfsReply} (h : ioctlPfsCreate dev s r f = some (reply, s')) :
    ((r.name.headD 0#8 = 0#8 ∨ dev.rdonly = true ∨ r.type ≠ pfstypeMaster ∨
        ioctlPfsLookup s.root f.lookup r.label.bytes = some 0) ∧ s'.root = s.root) ∨
      (r.name.headD 0#8 ≠ 0#8 ∧ dev.rdonly = false ∧ r.type = pfstypeMaster ∧
        (∃ error, ioctlPfsLookup s.root f.lookup r.label.bytes = some error ∧ error ≠ 0) ∧
        s'.root = (inodeCreatePfs s.root f.create r.label).2) := by
  unfold ioctlPfsCreate at h
  split at h
  next hname =>
    cases Option.some.inj h
    exact Or.inl ⟨Or.inl hname, rfl⟩
  next hname =>
    split at h
    next hro =>
      cases Option.some.inj h
      exact Or.inl ⟨Or.inr (Or.inl hro), rfl⟩
    next hro =>
      obtain ⟨error, hlookup, h⟩ := Option.bind_eq_some_iff.mp h
      split at h
      next h0 =>
        cases Option.some.inj h
        rw [h0] at hlookup
        exact Or.inl ⟨Or.inr (Or.inr (Or.inr hlookup)), rfl⟩
      next h0 =>
        split at h
        next htype =>
          cases Option.some.inj h
          exact Or.inl ⟨Or.inr (Or.inr (Or.inl htype)), rfl⟩
        next htype =>
          refine Or.inr ⟨hname, by simpa using hro, by simpa using htype, ⟨error, hlookup, h0⟩, ?_⟩
          simp only at h
          split at h
          next =>
            split at h
            next => cases h
            next =>
              obtain ⟨-, h⟩ := Option.ite_none_left_eq_some.mp h
              cases Option.some.inj h
              rfl
          next =>
            cases Option.some.inj h
            rfl

theorem xopUnlinkPfs_root {root root' : SuperRoot} {f : ScanFaults} {delete error : Nat} {name : Name}
    (h : xopUnlinkPfs root f delete name = some (error, root')) :
    root' = root ∨ ∃ key, root' = root.delete key := by
  unfold xopUnlinkPfs at h
  split at h
  next =>
    cases Option.some.inj h
    exact Or.inl rfl
  next =>
    obtain ⟨found, -, hu⟩ := Option.map_eq_some_iff.mp h
    cases found with
    | none =>
      cases hu
      exact Or.inl rfl
    | some p =>
      simp only at hu
      split at hu
      next =>
        cases hu
        exact Or.inl rfl
      next =>
        split at hu
        next =>
          cases hu
          exact Or.inl rfl
        next =>
          split at hu
          next =>
            cases hu
            exact Or.inl rfl
          next =>
            cases hu
            exact Or.inr ⟨p.1, rfl⟩

theorem ioctlPfsDelete_root {dev : PfsDev} {s s' : PfsState} {r : PfsRequest} {f : ScanFaults}
    {delete : Nat} {reply : PfsReply} (h : ioctlPfsDelete dev s r f delete = some (reply, s')) :
    s'.root = s.root ∨ ∃ key, s'.root = s.root.delete key := by
  unfold ioctlPfsDelete at h
  split at h
  next =>
    cases Option.some.inj h
    exact Or.inl rfl
  next =>
    split at h
    next =>
      cases Option.some.inj h
      exact Or.inl rfl
    next =>
      split at h
      next =>
        cases Option.some.inj h
        exact Or.inl rfl
      next =>
        split at h
        next =>
          cases Option.some.inj h
          exact Or.inl rfl
        next =>
          obtain ⟨u, hu, hs⟩ := Option.map_eq_some_iff.mp h
          cases hs
          exact xopUnlinkPfs_root hu

theorem pfsStep_placed {dev : PfsDev} {s s' : PfsState} {a : PfsAction} (hp : s.root.Placed)
    (h : pfsStep dev s a = some s') : s'.root.Placed := by
  cases a with
  | create r f =>
    obtain ⟨p, hcall, rfl⟩ := Option.map_eq_some_iff.mp h
    rcases ioctlPfsCreate_root hcall with ⟨-, hroot⟩ | ⟨-, -, -, -, hroot⟩
    · rw [hroot]
      exact hp
    · rw [hroot]
      exact inodeCreatePfs_placed hp f.create r.label
  | snapshot r clid f modify =>
    obtain ⟨p, hcall, rfl⟩ := Option.map_eq_some_iff.mp h
    rcases ioctlPfsSnapshot_root hcall with ⟨-, hroot⟩ | ⟨-, -, hroot⟩
    · rw [hroot]
      exact hp
    · rw [hroot]
      exact inodeCreatePfs_placed hp f r.label
  | delete r f delete =>
    obtain ⟨p, hcall, rfl⟩ := Option.map_eq_some_iff.mp h
    rcases ioctlPfsDelete_root hcall with hroot | ⟨key, hroot⟩
    · rw [hroot]
      exact hp
    · rw [hroot]
      exact placed_delete hp key
  | mount i mounted =>
    cases Option.some.inj h
    exact hp

theorem pfsStep_unique_iff {dev : PfsDev} {s s' : PfsState} {a : PfsAction} (hp : s.root.Placed)
    (hu : NamesUnique s) (h : pfsStep dev s a = some s') : NamesUnique s' ↔ NewNames dev s a := by
  unfold NamesUnique at *
  cases a with
  | create r f =>
    obtain ⟨p, hcall, rfl⟩ := Option.map_eq_some_iff.mp h
    rcases ioctlPfsCreate_root hcall with ⟨hrefused, hroot⟩ | ⟨hname, hro, htype, hlookup, hroot⟩
    · rw [hroot]
      refine iff_of_true hu ?_
      intro htype hfails hc
      rcases hrefused with hname | hro | hne | hfound
      · exact absurd hname hc.1
      · exact absurd hro (by simp [hc.2.1])
      · exact absurd htype hne
      · exact absurd rfl (lookupFails_nonzero hfails hfound)
    · obtain ⟨error, hlookup, herror⟩ := hlookup
      rw [hroot, inodeCreatePfs_names hu]
      constructor
      · intro hnew _ _ hc
        exact hnew hc.2.2
      · intro hnew hcan hused
        have hfails := lookupFails_of_used hp hused hlookup herror
        exact hnew htype hfails ⟨hname, hro, hcan⟩ hused
  | snapshot r clid f modify =>
    obtain ⟨p, hcall, rfl⟩ := Option.map_eq_some_iff.mp h
    rcases ioctlPfsSnapshot_root hcall with ⟨hrefused, hroot⟩ | ⟨hname, hro, hroot⟩
    · rw [hroot]
      refine iff_of_true hu ?_
      intro hc
      rcases hrefused with hname | hro
      · exact absurd hname hc.1
      · exact absurd hro (by simp [hc.2.1])
    · rw [hroot, inodeCreatePfs_names hu]
      constructor
      · intro hnew hc
        exact hnew hc.2.2
      · intro hnew hcan
        exact hnew ⟨hname, hro, hcan⟩
  | delete r f delete =>
    obtain ⟨p, hcall, rfl⟩ := Option.map_eq_some_iff.mp h
    refine iff_of_true ?_ trivial
    rcases ioctlPfsDelete_root hcall with hroot | ⟨key, hroot⟩
    · rw [hroot]
      exact hu
    · rw [hroot]
      exact hu.sublist (names_delete s.root key)
  | mount i mounted =>
    cases Option.some.inj h
    exact iff_of_true hu trivial

/-- The names under a super-root stay unique just as long as no snapshot takes a name in use, and no
PFS is created under one after its lookup failed. -/
theorem pfs_names_unique_iff {dev : PfsDev} {s : PfsState} (hp : s.root.Placed) (hu : NamesUnique s)
    (as : List PfsAction) :
    Run.Always (pfsStep dev) NamesUnique s as ↔ Run.Guarded (pfsStep dev) (NewNames dev) s as :=
  Run.always_iff (I := fun s => s.root.Placed) pfsStep_placed pfsStep_unique_iff as hp hu

def pfsDev : PfsDev := ⟨0, false, false⟩

def onePfs : PfsState := ⟨oneLabel, [⟨none, 7, [(0, labelA.bytes)], false⟩]⟩

def createQuiet : CreatePfsFaults := ⟨scanQuiet, ⟨false, 0, false⟩⟩

theorem onePfs_placed : onePfs.root.Placed := by
  intro c hc data hdata
  cases List.mem_singleton.mp hc
  cases Option.some.inj hdata
  rfl

theorem pfs_names_unique_fresh : Run.Always (pfsStep pfsDev) NamesUnique onePfs
    [.snapshot ⟨[0x62#8], pfstypeMaster, 0⟩ 8 createQuiet 0] := by
  refine (pfs_names_unique_iff onePfs_placed (List.nodup_singleton _) _).mpr ?_
  intro s' _
  refine ⟨?_, trivial⟩
  intro _
  decide

/-- Nothing keeps a snapshot from taking the name of a PFS. -/
theorem snapshot_reuses_name : ¬ Run.Always (pfsStep pfsDev) NamesUnique onePfs
    [.snapshot ⟨labelA.bytes, pfstypeMaster, 0⟩ 8 createQuiet 0] := by
  have hnames : (pfsStep pfsDev onePfs (.snapshot ⟨labelA.bytes, pfstypeMaster, 0⟩ 8 createQuiet
      0)).map (fun s => s.root.names) = some [labelA.bytes, labelA.bytes] := by
    decide
  obtain ⟨s', hs, hn⟩ := Option.map_eq_some_iff.mp hnames
  rintro ⟨-, h⟩
  have hu := h s' hs
  unfold Run.Always NamesUnique at hu
  rw [hn] at hu
  simp at hu

end Hammer2
