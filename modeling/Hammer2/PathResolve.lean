import Hammer2.WindowsListing

/-! How `h2_resolve_path` follows a path, whatever kind of inode each component leads to. -/

namespace Hammer2

open Utf

/-- A chain below an inode: a directory entry, an inode of its own, or file data. -/
inductive EntryChain where
  | dirent (e : Dirent)
  | inode (inum : Nat)
  | data

/-- The fields of an inode that a lookup reads, and the chains below it with their keys. `directData` is
`HAMMER2_OPFLAG_DIRECTDATA`, which says that there is file data in place of the blockrefs. -/
structure PathInode where
  name : Name
  type : Nat
  directData : Bool
  chains : List (Nat × EntryChain)

def EntryChain.name (inode : Nat → Option PathInode) : EntryChain → Option Name
  | .dirent e => some (direntName e)
  | .inode inum => (inode inum).map (·.name)
  | .data => none

def EntryChain.target : EntryChain → Option Nat
  | .dirent e => some e.inum
  | .inode inum => some inum
  | .data => none

/-- The inodes of a PFS by number, and its root inode once it is mounted. -/
structure Namespace where
  inode : Nat → Option PathInode
  root : Option Nat
  sorted : ∀ i ip, inode i = some ip → ip.chains.Pairwise fun a b => a.1 < b.1
  direct : ∀ i ip, inode i = some ip → ip.directData = true → ip.type ≠ objtypeDirectory
  leaf : ∀ i ip, inode i = some ip → ip.type ≠ objtypeDirectory → ∀ c ∈ ip.chains, c.2 = .data
  namlen : ∀ i ip, inode i = some ip → ∀ key e, (key, .dirent e) ∈ ip.chains →
    (direntName e).length = e.namlen
  hashed : ∀ i ip, inode i = some ip → ∀ c ∈ ip.chains, dirhashVisible ≤ c.1 →
    ∀ name ∈ c.2.name inode, lhcBase name ≤ c.1 ∧ c.1 ≤ lhcBase name + dirhashLomask
  unique : ∀ i ip, inode i = some ip → ∀ c ∈ ip.chains, ∀ c' ∈ ip.chains, dirhashVisible ≤ c.1 →
    dirhashVisible ≤ c'.1 → ∀ name ∈ c.2.name inode, name ∈ c'.2.name inode → c = c'

/-- `hammer2_chain_dirent_test` -/
def chainDirentTest (inode : Nat → Option PathInode) (c : EntryChain) (name : Name) : Bool :=
  match c with
  | .dirent e => direntTest e name
  | .inode inum => (inode inum).any fun ip => ip.name == name
  | .data => false

/-- What `hammer2_chain_lookup` and `hammer2_chain_next` return for a collision space. An inode with
embedded data is returned itself. -/
def chainLookupLhc (i : Nat) (ip : PathInode) (lhc : Nat) : List EntryChain :=
  if ip.directData then [.inode i]
  else (ip.chains.filter fun c => lhc ≤ c.1 ∧ c.1 ≤ lhc + dirhashLomask).map (·.2)

/-- `hammer2_xop_nresolve`; `hammer2_chain_inode_find` may find no inode for an entry. -/
def xopNresolve (ns : Namespace) (i : Nat) (name : Name) : Option Nat :=
  (ns.inode i).bind fun ip =>
    ((chainLookupLhc i ip (lhcBase name)).find? fun c => chainDirentTest ns.inode c name).bind
      fun c => c.target.filter fun inum => (ns.inode inum).isSome

/-- The loop of `h2_resolve_path`, with `h2_lookup_one` for each component. -/
def followSegs (ns : Namespace) : Nat → List Name → Option Nat
  | cur, [] => some cur
  | cur, seg :: segs => (xopNresolve ns cur seg).bind fun next => followSegs ns next segs

/-- `h2_resolve_path` -/
def resolvePath (ns : Namespace) (wpath : List (BitVec 16)) : Option Nat :=
  ns.root.bind fun root =>
    (wideToUtf8 wpath pathMax).bind fun path => followSegs ns root (pathSegs [] path)

/-- The non-empty components of a path of any length. -/
def components (wpath : List (BitVec 16)) : List Name := pathSegs [] (toUtf8 (cstr wpath))

/-- Inode `d` is a directory with an entry of that name for inode `i`. -/
def HasEntry (ns : Namespace) (d : Nat) (name : Name) (i : Nat) : Prop :=
  ∃ ip, ns.inode d = some ip ∧ ip.type = objtypeDirectory ∧
    ∃ c ∈ ip.chains, dirhashVisible ≤ c.1 ∧ c.2.name ns.inode = some name ∧ c.2.target = some i ∧
      (ns.inode i).isSome

/-- Each name in turn is an entry of the directory that the names before it lead to. -/
inductive Leads (ns : Namespace) : Nat → List Name → Nat → Prop
  | nil (i : Nat) : Leads ns i [] i
  | cons {d next i : Nat} {name : Name} {names : List Name} (hentry : HasEntry ns d name next)
      (hrest : Leads ns next names i) : Leads ns d (name :: names) i

/-- Some of the names lead to an inode with embedded data, and those that follow, of which there is
one at least, are all the name stored in that inode. -/
def EndsInOwnName (ns : Namespace) (d : Nat) (names : List Name) (i : Nat) : Prop :=
  ∃ ip pre n, ns.inode i = some ip ∧ ip.directData = true ∧ Leads ns d pre i ∧
    names = pre ++ List.replicate (n + 1) ip.name

/-- A path that fits the buffer has no component below embedded data that is the name stored there,
down to its end, and one that does not fit leads nowhere. -/
def ResolveSound (ns : Namespace) (wpath : List (BitVec 16)) : Prop :=
  ∀ root ∈ ns.root,
    if (toUtf8 (cstr wpath)).length + 1 ≤ pathMax then
      ∀ i, ¬ EndsInOwnName ns root (components wpath) i
    else ∀ i, ¬ Leads ns root (components wpath) i

/-- Collision spaces lie among the visible keys. -/
theorem dirhashVisible_le_lhcBase (name : Name) : dirhashVisible ≤ lhcBase name := by
  have htop : (0x80000000#32).getLsbD 31 = true := by decide
  have hbit : (dirhash name).getLsbD 63 = true := by
    unfold dirhash
    simp only [BitVec.getLsbD_or, BitVec.getLsbD_shiftLeft, BitVec.getLsbD_setWidth, htop]
    simp
  exact Nat.ge_two_pow_of_testBit hbit

section Lookup

variable {ns : Namespace} {i : Nat} {ip : PathInode} {name : Name}

theorem chainDirentTest_iff (hi : ns.inode i = some ip) {key : Nat} {c : EntryChain}
    (hc : (key, c) ∈ ip.chains) :
    chainDirentTest ns.inode c name = true ↔ c.name ns.inode = some name := by
  cases c with
  | dirent e =>
    have hlen := ns.namlen i ip hi key e hc
    exact (direntTest_direntName hlen).trans (Option.some_inj).symm
  | inode inum =>
    unfold chainDirentTest EntryChain.name
    rw [Option.any_eq_true, Option.map_eq_some_iff]
    simp
  | data => simp [chainDirentTest, EntryChain.name]

theorem xopNresolve_direct (hi : ns.inode i = some ip) (hdirect : ip.directData = true) :
    xopNresolve ns i name = if ip.name = name then some i else none := by
  unfold xopNresolve chainLookupLhc
  rw [hi, Option.bind_some, if_pos hdirect]
  split
  next h => simp [chainDirentTest, EntryChain.target, hi, h]
  next h => simp [chainDirentTest, hi, h]

theorem xopNresolve_leaf (hi : ns.inode i = some ip) (hdirect : ip.directData = false)
    (htype : ip.type ≠ objtypeDirectory) : xopNresolve ns i name = none := by
  have hnone : (chainLookupLhc i ip (lhcBase name)).find?
      (fun c => chainDirentTest ns.inode c name) = none := by
    apply List.find?_eq_none.mpr
    intro c hc
    unfold chainLookupLhc at hc
    rw [hdirect, if_neg (by simp)] at hc
    obtain ⟨p, hp, rfl⟩ := List.mem_map.mp hc
    rw [ns.leaf i ip hi htype p (List.mem_filter.mp hp).1]
    simp [chainDirentTest]
  unfold xopNresolve
  rw [hi, Option.bind_some, hnone, Option.bind_none]

/-- A search ends at the only element that passes. -/
theorem find?_map_unique {α β : Type} {f : α → β} {p : β → Bool} {l : List α} {a : α} (ha : a ∈ l)
    (hp : p (f a) = true) (huniq : ∀ b ∈ l, p (f b) = true → b = a) :
    (l.map f).find? p = some (f a) := by
  cases h : (l.map f).find? p with
  | none =>
    have hno := List.find?_eq_none.mp h (f a) (List.mem_map_of_mem ha)
    exact absurd hp hno
  | some c =>
    obtain ⟨b, hb, rfl⟩ := List.mem_map.mp (List.mem_of_find?_eq_some h)
    rw [huniq b hb (List.find?_some h)]

/-- In a directory the lookup finds just the entries of the name. -/
theorem xopNresolve_dir (hi : ns.inode i = some ip) (htype : ip.type = objtypeDirectory)
    {j : Nat} : xopNresolve ns i name = some j ↔ HasEntry ns i name j := by
  have hdirect : ip.directData = false := by
    by_contra h
    exact ns.direct i ip hi (by simpa using h) htype
  have hvisible := dirhashVisible_le_lhcBase name
  unfold xopNresolve chainLookupLhc
  rw [hi, Option.bind_some, hdirect, if_neg (by simp)]
  constructor
  · intro h
    obtain ⟨c, hfind, htarget⟩ := Option.bind_eq_some_iff.mp h
    obtain ⟨p, hp, rfl⟩ := List.mem_map.mp (List.mem_of_find?_eq_some hfind)
    obtain ⟨hmem, hwin⟩ := List.mem_filter.mp hp
    have hkey : lhcBase name ≤ p.1 := (decide_eq_true_iff.mp hwin).1
    have hpass : chainDirentTest ns.inode p.2 name = true := by simpa using List.find?_some hfind
    have htest := (chainDirentTest_iff hi hmem).mp hpass
    obtain ⟨ht, hsome⟩ := Option.filter_eq_some_iff.mp htarget
    exact ⟨ip, hi, htype, p, hmem, hvisible.trans hkey, htest, ht, hsome⟩
  · rintro ⟨ip', hi', -, c, hc, hvis, hname, htarget, hsome⟩
    cases Option.some.inj (hi.symm.trans hi')
    have hfind : ((ip.chains.filter fun c => lhcBase name ≤ c.1 ∧
        c.1 ≤ lhcBase name + dirhashLomask).map (·.2)).find?
          (fun c => chainDirentTest ns.inode c name) = some c.2 := by
      have hhash := ns.hashed i ip hi c hc hvis name hname
      have hwin : c ∈ ip.chains.filter fun c => lhcBase name ≤ c.1 ∧
          c.1 ≤ lhcBase name + dirhashLomask := List.mem_filter.mpr ⟨hc, by simpa using hhash⟩
      apply find?_map_unique hwin
      · exact (chainDirentTest_iff hi hc).mpr hname
      · intro c' hc' htest
        obtain ⟨hmem, hin⟩ := List.mem_filter.mp hc'
        have hkey : lhcBase name ≤ c'.1 := (decide_eq_true_iff.mp hin).1
        exact ns.unique i ip hi c' hmem c hc (hvisible.trans hkey) hvis name
          ((chainDirentTest_iff hi hmem).mp htest) hname
    rw [hfind, Option.bind_some]
    exact Option.filter_eq_some_iff.mpr ⟨htarget, hsome⟩

theorem HasEntry.dir {d : Nat} (h : HasEntry ns d name i) :
    ∃ ip, ns.inode d = some ip ∧ ip.type = objtypeDirectory := by
  obtain ⟨ip, hd, htype, -⟩ := h
  exact ⟨ip, hd, htype⟩

theorem HasEntry.not_direct {d : Nat} (h : HasEntry ns d name i) (hd : ns.inode d = some ip) :
    ip.directData = false := by
  obtain ⟨ip', hd', htype⟩ := h.dir
  cases Option.some.inj (hd.symm.trans hd')
  by_contra hdirect
  exact ns.direct d ip hd (by simpa using hdirect) htype

theorem HasEntry.resolve {d : Nat} (h : HasEntry ns d name i) : xopNresolve ns d name = some i := by
  obtain ⟨ip, hd, htype⟩ := h.dir
  exact (xopNresolve_dir hd htype).mpr h

/-- A lookup that finds something is one in a directory, or of embedded data by its own name. -/
theorem xopNresolve_some {j : Nat} (h : xopNresolve ns i name = some j) :
    HasEntry ns i name j ∨
      j = i ∧ ∃ ip, ns.inode i = some ip ∧ ip.directData = true ∧ ip.name = name := by
  obtain ⟨ip, hi, -⟩ := Option.bind_eq_some_iff.mp h
  cases hdirect : ip.directData with
  | true =>
    rw [xopNresolve_direct hi hdirect] at h
    obtain ⟨hname, hij⟩ := Option.ite_none_right_eq_some.mp h
    exact Or.inr ⟨(Option.some.inj hij).symm, ip, hi, hdirect, hname⟩
  | false =>
    by_cases htype : ip.type = objtypeDirectory
    · exact Or.inl ((xopNresolve_dir hi htype).mp h)
    · rw [xopNresolve_leaf hi hdirect htype] at h
      cases h

end Lookup

section Follow

variable {ns : Namespace} {ip : PathInode} {d i j : Nat} {names pre suf : List Name}

/-- Nothing is reached below embedded data. -/
theorem Leads.of_direct (h : Leads ns d names i) (hd : ns.inode d = some ip)
    (hdirect : ip.directData = true) : names = [] ∧ i = d := by
  cases h with
  | nil => exact ⟨rfl, rfl⟩
  | cons hentry _ =>
    rw [hentry.not_direct hd] at hdirect
    cases hdirect

theorem Leads.split (h : Leads ns d (pre ++ suf) i) :
    ∃ m, Leads ns d pre m ∧ Leads ns m suf i := by
  induction pre generalizing d with
  | nil => exact ⟨d, .nil d, h⟩
  | cons name pre ih =>
    cases h with
    | cons hentry hrest =>
      obtain ⟨m, hpre, hsuf⟩ := ih hrest
      exact ⟨m, .cons hentry hpre, hsuf⟩

theorem Leads.follow (h : Leads ns d names i) : followSegs ns d names = some i := by
  induction h with
  | nil => rfl
  | cons hentry _ ih =>
    unfold followSegs
    rw [hentry.resolve, Option.bind_some, ih]

/-- Embedded data is found again under its own name, as often as that is repeated. -/
theorem followSegs_own {n : Nat} (hi : ns.inode i = some ip) (hdirect : ip.directData = true) :
    followSegs ns i (List.replicate n ip.name) = some i := by
  induction n with
  | zero => rfl
  | succ n ih =>
    rw [List.replicate_succ, followSegs, xopNresolve_direct hi hdirect, if_pos rfl,
      Option.bind_some, ih]

theorem followSegs_append (h : Leads ns d pre j) :
    followSegs ns d (pre ++ suf) = followSegs ns j suf := by
  induction h with
  | nil => rfl
  | cons hentry _ ih =>
    rw [List.cons_append, followSegs, hentry.resolve, Option.bind_some, ih]

/-- What the loop finds: the names lead there, or they end in the own name of embedded data. -/
theorem followSegs_iff :
    followSegs ns d names = some i ↔ Leads ns d names i ∨ EndsInOwnName ns d names i := by
  constructor
  · intro h
    induction names generalizing d with
    | nil =>
      cases Option.some.inj h
      exact Or.inl (.nil _)
    | cons name names ih =>
      obtain ⟨next, hnext, hrest⟩ := Option.bind_eq_some_iff.mp h
      rcases xopNresolve_some hnext with hentry | ⟨rfl, ip, hi, hdirect, hname⟩
      · rcases ih hrest with hleads | ⟨ip, pre, n, hi, hdirect, hpre, hnames⟩
        · exact Or.inl (.cons hentry hleads)
        · exact Or.inr ⟨ip, name :: pre, n, hi, hdirect, .cons hentry hpre, by rw [hnames]; rfl⟩
      · rcases ih hrest with hleads | ⟨ip', pre, n, hi', hdirect', hpre, hnames⟩
        · obtain ⟨rfl, rfl⟩ := hleads.of_direct hi hdirect
          exact Or.inr ⟨ip, [], 0, hi, hdirect, .nil _, by rw [hname]; rfl⟩
        · obtain ⟨rfl, rfl⟩ := hpre.of_direct hi hdirect
          cases Option.some.inj (hi.symm.trans hi')
          refine Or.inr ⟨ip, [], n + 1, hi, hdirect, .nil _, ?_⟩
          rw [hnames, ← hname]
          rfl
  · rintro (h | ⟨ip, pre, n, hi, hdirect, hpre, rfl⟩)
    · exact h.follow
    · rw [followSegs_append hpre]
      exact followSegs_own hi hdirect

/-- By its entries such a path leads nowhere. -/
theorem EndsInOwnName.not_leads (h : EndsInOwnName ns d names i) : ¬ Leads ns d names j := by
  obtain ⟨ip, pre, n, hi, hdirect, hpre, rfl⟩ := h
  intro hleads
  obtain ⟨m, hm, hown⟩ := hleads.split
  have heq : m = i := Option.some.inj (hm.follow.symm.trans hpre.follow)
  subst m
  have hnil := (hown.of_direct hi hdirect).1
  cases hnil

end Follow

/-- A path resolves to the inode its components lead to from the root, entry by entry, exactly if it
does not end in the own name of embedded data and the buffer has room for it. -/
theorem resolve_follows_directories_iff (ns : Namespace) (wpath : List (BitVec 16)) :
    (∀ i, resolvePath ns wpath = some i ↔
      ∃ root, ns.root = some root ∧ Leads ns root (components wpath) i) ↔
    ResolveSound ns wpath := by
  unfold ResolveSound resolvePath wideToUtf8
  cases hroot : ns.root with
  | none => simp
  | some root =>
    simp only [Option.bind_some, Option.mem_def, Option.some.injEq, forall_eq', exists_eq_left']
    split
    next hfits =>
      change (∀ i, followSegs ns root (components wpath) = some i ↔ _) ↔ _
      constructor
      · intro h i hown
        exact hown.not_leads ((h i).mp (followSegs_iff.mpr (Or.inr hown)))
      · intro h i
        exact followSegs_iff.trans (or_iff_left (h i))
    next hlong => simp

/-- `f`, a small file in the root directory. -/
def fileInode : PathInode where
  name := [0x30, 0x78, 0x30, 0x30, 0x30, 0x30, 0x30, 0x30, 0x30, 0x30, 0x30, 0x30, 0x30, 0x30, 0x30,
    0x34, 0x30, 0x30]
  type := 2
  directData := true
  chains := []

def fileDirent : Dirent := ⟨1024, 2, 1, nameBuf checkBytes [0x66], []⟩

def fileRoot : PathInode where
  name := []
  type := objtypeDirectory
  directData := false
  chains := [(lhcBase [0x66] + 1, .dirent fileDirent)]

def fileInodes (i : Nat) : Option PathInode :=
  if i = 1 then some fileRoot else if i = 1024 then some fileInode else none

theorem fileInodes_some {i : Nat} {ip : PathInode} (h : fileInodes i = some ip) :
    ip = fileRoot ∨ ip = fileInode := by
  unfold fileInodes at h
  split at h
  · exact Or.inl (Option.some.inj h).symm
  · split at h
    · exact Or.inr (Option.some.inj h).symm
    · cases h

theorem fileInodes_chain {i : Nat} {ip : PathInode} {c : Nat × EntryChain}
    (h : fileInodes i = some ip) (hc : c ∈ ip.chains) :
    ip = fileRoot ∧ c = (lhcBase [0x66] + 1, .dirent fileDirent) := by
  rcases fileInodes_some h with rfl | rfl
  · exact ⟨rfl, List.mem_singleton.mp hc⟩
  · cases hc

/-- A PFS with this file only. -/
def fileNamespace : Namespace where
  inode := fileInodes
  root := some 1
  sorted i ip h := by
    rcases fileInodes_some h with rfl | rfl
    · exact List.pairwise_singleton _ _
    · exact List.Pairwise.nil
  direct i ip h hdirect := by
    rcases fileInodes_some h with rfl | rfl
    · cases hdirect
    · decide
  leaf i ip h htype c hc := by
    obtain ⟨rfl, -⟩ := fileInodes_chain h hc
    exact absurd rfl htype
  namlen i ip h key e hc := by
    obtain ⟨-, heq⟩ := fileInodes_chain h hc
    cases heq
    decide
  hashed i ip h c hc hvis name hname := by
    obtain ⟨-, rfl⟩ := fileInodes_chain h hc
    have heq : name = [0x66] := (Option.some.inj hname).symm
    subst name
    exact ⟨Nat.le_succ _, Nat.add_le_add_left (by decide) _⟩
  unique i ip h c hc c' hc' _ _ name _ _ := by
    rw [(fileInodes_chain h hc).2, (fileInodes_chain h hc').2]

/-- `\f\0x0000000000000400` -/
def ownNamePath : List (BitVec 16) :=
  [0x5c, 0x66, 0x5c, 0x30, 0x78, 0x30, 0x30, 0x30, 0x30, 0x30, 0x30, 0x30, 0x30, 0x30, 0x30, 0x30,
    0x30, 0x30, 0x34, 0x30, 0x30]

/-- A path below the file leads to the file. -/
theorem resolve_descends_into_file : resolvePath fileNamespace ownNamePath = some 1024 ∧
    ¬ ∃ root, fileNamespace.root = some root ∧ Leads fileNamespace root (components ownNamePath) 1024 := by
  have hcomp : components ownNamePath = [[0x66], fileInode.name] := by decide
  have hentry : HasEntry fileNamespace 1 [0x66] 1024 :=
    ⟨fileRoot, rfl, rfl, _, List.mem_singleton_self _,
      (dirhashVisible_le_lhcBase [0x66]).trans (Nat.le_succ _), rfl, rfl, rfl⟩
  have hown : EndsInOwnName fileNamespace 1 (components ownNamePath) 1024 :=
    ⟨fileInode, [[0x66]], 0, rfl, rfl, .cons hentry (.nil _), hcomp⟩
  constructor
  · have hfits : wideToUtf8 ownNamePath pathMax = some (toUtf8 (cstr ownNamePath)) := by decide
    unfold resolvePath
    rw [hfits]
    exact followSegs_iff.mpr (Or.inr hown)
  · rintro ⟨root, hroot, hleads⟩
    cases Option.some.inj hroot
    exact hown.not_leads hleads

end Hammer2
