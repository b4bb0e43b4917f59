import Hammer2.Dirent
import Hammer2.Run

namespace Hammer2

/-- A directory entry: the directory, the name and the inode number it names. -/
structure LinkEntry where
  dir : Nat
  name : Name
  inum : Nat
deriving DecidableEq

/-- The inodes by number, `some true` for a directory, with their `meta.nlinks`, and the entries of
all directories. -/
@[ext] structure LinkState where
  kind : Nat → Option Bool
  nlinks : Nat → Nat
  entries : List LinkEntry

/-- How far the backend of a create comes. -/
inductive CreateOutcome where
  | inodeFails
  | direntFails
  | ok

/-- How far a rename comes. It may be refused before the backend starts (the flags of an inode, the
access to it, the search for a free key), and `hammer2_xop_nrename` may fail before it deletes the
source entry, or after, with or without having deleted the target entry. -/
inductive RenameOutcome where
  | refused
  | failsBefore
  | failsAfter (targetGone : Bool)
  | ok
deriving DecidableEq

def linksTo (entries : List LinkEntry) (i : Nat) : Nat := entries.countP (·.inum = i)

def subdirsOf (kind : Nat → Option Bool) (entries : List LinkEntry) (d : Nat) : Nat :=
  entries.countP fun e => e.dir = d ∧ kind e.inum = some true

def lookupEntry (s : LinkState) (d : Nat) (name : Name) : Option LinkEntry :=
  s.entries.find? fun e => e.dir = d ∧ e.name = name

/-- `HAMMER2_LINK_MAX`, which is compared with the count cut to a 32-bit `nlink_t`. -/
def linkMax : Nat := 4294967295

def AtLinkMax (nlinks : Nat) : Prop := linkMax ≤ nlinks % 4294967296

instance (nlinks : Nat) : Decidable (AtLinkMax nlinks) := inferInstanceAs (Decidable (_ ≤ _))

def setNlinks (s : LinkState) (i n : Nat) : LinkState :=
  { s with nlinks := Function.update s.nlinks i n }

/-- `--nlinks` on the 64-bit field. -/
def decNlinks (n : Nat) : Nat := if n = 0 then 18446744073709551615 else n - 1

/-- `hammer2_inode_unlink_finisher`; `vp` tells if the inode has a vnode. -/
def unlinkFinisher (s : LinkState) (ip : Nat) (vp : Bool) : LinkState :=
  if s.kind ip ≠ some true ∧ 1 < s.nlinks ip then setNlinks s ip (s.nlinks ip - 1)
  else if vp then setNlinks s ip 0
  else s

/-- `hammer2_inode_create_normal` -/
def createNormal (s : LinkState) (isDir : Bool) (inum : Nat) : LinkState :=
  { s with kind := Function.update s.kind inum (some isDir)
           nlinks := Function.update s.nlinks inum (if isDir then 2 else 1) }

/-- The common part of `hammer2_create`, `hammer2_mknod`, `hammer2_symlink` and `hammer2_mkdir`. -/
def createNode (s : LinkState) (isDir : Bool) (d : Nat) (name : Name) (inum : Nat) :
    CreateOutcome → LinkState
  | .inodeFails => s
  | .direntFails => unlinkFinisher (createNormal s isDir inum) inum false
  | .ok => { createNormal s isDir inum with entries := ⟨d, name, inum⟩ :: s.entries }

def vopCreate (s : LinkState) (d : Nat) (name : Name) (inum : Nat) (out : CreateOutcome) :
    LinkState :=
  createNode s false d name inum out

def vopMkdir (s : LinkState) (d : Nat) (name : Name) (inum : Nat) (out : CreateOutcome) :
    LinkState :=
  if AtLinkMax (s.nlinks d) then s
  else
    let s := createNode s true d name inum out
    match out with
    | .ok => if s.nlinks d ≠ 1 then setNlinks s d (s.nlinks d + 1) else s
    | _ => s

/-- `hammer2_link`. The count is raised whether or not the entry could be created. -/
def vopLink (s : LinkState) (ip d : Nat) (name : Name) (direntFails : Bool) : LinkState :=
  if AtLinkMax (s.nlinks ip) then s
  else
    let s := if direntFails then s else { s with entries := ⟨d, name, ip⟩ :: s.entries }
    setNlinks s ip (s.nlinks ip + 1)

def vopRemove (s : LinkState) (d : Nat) (name : Name) (fails : Bool) : LinkState :=
  match lookupEntry s d name with
  | none => s
  | some e =>
    if s.kind e.inum = some true ∨ fails then s
    else unlinkFinisher { s with entries := s.entries.erase e } e.inum true

def dirEmpty (s : LinkState) (d : Nat) : Bool := s.entries.all fun e => e.dir ≠ d

def vopRmdir (s : LinkState) (d : Nat) (name : Name) (fails : Bool) : LinkState :=
  match lookupEntry s d name with
  | none => s
  | some e =>
    if e.inum = d then s
    else if s.kind e.inum ≠ some true ∨ ¬ dirEmpty s e.inum ∨ fails then s
    else
      let s := unlinkFinisher { s with entries := s.entries.erase e } e.inum true
      if s.nlinks d ≠ 1 then setNlinks s d (decNlinks (s.nlinks d)) else s

/-- The entries after the backend of a rename of `e` to `name` in `td`. -/
def renameEntries (entries : List LinkEntry) (e : LinkEntry) (td : Nat) (name : Name) :
    RenameOutcome → List LinkEntry
  | .refused => entries
  | .failsBefore => entries
  | .failsAfter targetGone =>
    if targetGone then (entries.erase e).filter fun f => ¬ (f.dir = td ∧ f.name = name)
    else entries.erase e
  | .ok => ⟨td, name, e.inum⟩ ::
      (entries.erase e).filter fun f => ¬ (f.dir = td ∧ f.name = name)

/-- The backend refuses to replace a directory that has entries. -/
def renameOutcome (s : LinkState) (t : Option LinkEntry) (out : RenameOutcome) : RenameOutcome :=
  match t with
  | none => out
  | some t => if s.kind t.inum = some true ∧ ¬ dirEmpty s t.inum then .failsBefore else out

/-- The counts of the two directories when a directory is moved from one to the other. -/
def moveSubdir (s : LinkState) (fd td : Nat) : LinkState :=
  let s := if s.nlinks fd ≠ 1 then setNlinks s fd (decNlinks (s.nlinks fd)) else s
  if s.nlinks td ≠ 1 then setNlinks s td (s.nlinks td + 1) else s

/-- The backend of `hammer2_rename` of the entry `e` over the target `t`. -/
def renameBackend (s : LinkState) (e : LinkEntry) (td : Nat) (name : Name) (t : Option LinkEntry)
    (out : RenameOutcome) : LinkState :=
  let s := { s with entries := renameEntries s.entries e td name out }
  match out, t with
  | .ok, some t => unlinkFinisher s t.inum true
  | _, _ => s

/-- `hammer2_rename`, once both names are resolved. The counts of the directories are adjusted
whether or not the backend succeeded. -/
def renameResolved (s : LinkState) (fd : Nat) (e : LinkEntry) (td : Nat) (name : Name)
    (t : Option LinkEntry) (out : RenameOutcome) : LinkState :=
  let s' := renameBackend s e td name t (renameOutcome s t out)
  if s.kind e.inum = some true then moveSubdir s' fd td else s'

/-- The rename ends before the backend starts, with or without an error: both names have the same
inode, the directory is moved out of itself or into one that is full, or a check refuses. -/
def RenameRefused (s : LinkState) (fd : Nat) (e : LinkEntry) (td : Nat) (t : Option LinkEntry)
    (out : RenameOutcome) : Prop :=
  t.map (·.inum) = some e.inum ∨
    (s.kind e.inum = some true ∧ (fd = e.inum ∨ fd ≠ td ∧ AtLinkMax (s.nlinks td))) ∨
    out = .refused

instance (s : LinkState) (fd : Nat) (e : LinkEntry) (td : Nat) (t : Option LinkEntry)
    (out : RenameOutcome) : Decidable (RenameRefused s fd e td t out) :=
  inferInstanceAs (Decidable (_ ∨ _))

def vopRename (s : LinkState) (fd : Nat) (name1 : Name) (td : Nat) (name2 : Name)
    (out : RenameOutcome) : LinkState :=
  match lookupEntry s fd name1 with
  | none => s
  | some e =>
    let t := lookupEntry s td name2
    if RenameRefused s fd e td t out then s else renameResolved s fd e td name2 t out

/-- What the callers see to: a new entry goes to a directory that does not have the name, and a new
inode has an unused number. -/
def CanCreate (s : LinkState) (d : Nat) (name : Name) (inum : Nat) : Prop :=
  s.kind d = some true ∧ lookupEntry s d name = none ∧ s.kind inum = none

instance (s : LinkState) (d : Nat) (name : Name) (inum : Nat) :
    Decidable (CanCreate s d name inum) := inferInstanceAs (Decidable (_ ∧ _))

/-- Every linked file has as many links as entries name it, and every linked directory that was
created by mkdir has two and one for each of its subdirectories. -/
structure LinksExact (root : Nat) (s : LinkState) : Prop where
  file : ∀ i, s.kind i = some false → linksTo s.entries i ≠ 0 →
    s.nlinks i = linksTo s.entries i
  dir : ∀ i, s.kind i = some true → i ≠ root → linksTo s.entries i ≠ 0 →
    s.nlinks i = 2 + subdirsOf s.kind s.entries i

/-- The counts are exact, an entry leads from a directory to an inode, and no name is there twice. -/
structure LinkInv (root : Nat) (s : LinkState) : Prop where
  exact : LinksExact root s
  known : ∀ e ∈ s.entries, s.kind e.inum ≠ none
  parent : ∀ e ∈ s.entries, s.kind e.dir = some true
  single : ∀ i, s.kind i = some true → linksTo s.entries i ≤ 1
  named : s.entries.Pairwise fun e f => ¬ (e.dir = f.dir ∧ e.name = f.name)
  rootKind : s.kind root = some true
  rootLinks : s.nlinks root = 1
  rootFree : linksTo s.entries root = 0

theorem linksTo_cons (e : LinkEntry) (es : List LinkEntry) (i : Nat) :
    linksTo (e :: es) i = linksTo es i + if e.inum = i then 1 else 0 := by
  unfold linksTo
  rw [List.countP_cons]
  simp

theorem subdirsOf_cons (kind : Nat → Option Bool) (e : LinkEntry) (es : List LinkEntry) (d : Nat) :
    subdirsOf kind (e :: es) d =
      subdirsOf kind es d + if e.dir = d ∧ kind e.inum = some true then 1 else 0 := by
  unfold subdirsOf
  rw [List.countP_cons]
  simp

theorem linksTo_erase {e : LinkEntry} {es : List LinkEntry} (he : e ∈ es) (i : Nat) :
    linksTo es i = linksTo (es.erase e) i + if e.inum = i then 1 else 0 := by
  rw [← linksTo_cons]
  exact (List.perm_cons_erase he).countP_eq _

theorem subdirsOf_erase {kind : Nat → Option Bool} {e : LinkEntry} {es : List LinkEntry}
    (he : e ∈ es) (d : Nat) :
    subdirsOf kind es d =
      subdirsOf kind (es.erase e) d + if e.dir = d ∧ kind e.inum = some true then 1 else 0 := by
  rw [← subdirsOf_cons]
  exact (List.perm_cons_erase he).countP_eq _

theorem linksTo_pos {e : LinkEntry} {es : List LinkEntry} (he : e ∈ es) :
    0 < linksTo es e.inum := by
  rw [linksTo_erase he]
  simp

theorem lookupEntry_some {s : LinkState} {d : Nat} {name : Name} {e : LinkEntry}
    (h : lookupEntry s d name = some e) : e ∈ s.entries ∧ e.dir = d ∧ e.name = name := by
  have hp := List.find?_some h
  simp only [decide_eq_true_eq] at hp
  exact ⟨List.mem_of_find?_eq_some h, hp⟩

theorem lookupEntry_none {s : LinkState} {d : Nat} {name : Name}
    (h : lookupEntry s d name = none) : ∀ e ∈ s.entries, ¬ (e.dir = d ∧ e.name = name) := by
  intro e he hd
  have hn := List.find?_eq_none.mp h e he
  simp [hd] at hn

/-- The subdirectories of a directory do not depend on the kind of an inode no entry names. -/
theorem subdirsOf_update {kind : Nat → Option Bool} {es : List LinkEntry} {inum : Nat}
    {k : Option Bool} (hn : ∀ e ∈ es, e.inum ≠ inum) (d : Nat) :
    subdirsOf (Function.update kind inum k) es d = subdirsOf kind es d := by
  unfold subdirsOf
  apply List.countP_congr
  intro e he
  simp [Function.update_of_ne (hn e he)]

theorem linksTo_eq_zero {es : List LinkEntry} {i : Nat} :
    linksTo es i = 0 ↔ ∀ e ∈ es, e.inum ≠ i := by
  unfold linksTo
  rw [List.countP_eq_zero]
  simp

theorem LinkInv.ne_root {root : Nat} {s : LinkState} {e : LinkEntry} (hi : LinkInv root s)
    (he : e ∈ s.entries) : e.inum ≠ root :=
  linksTo_eq_zero.mp hi.rootFree e he

@[simp] theorem unlinkFinisher_kind (s : LinkState) (ip : Nat) (vp : Bool) :
    (unlinkFinisher s ip vp).kind = s.kind := by
  unfold unlinkFinisher setNlinks
  split_ifs <;> rfl

@[simp] theorem unlinkFinisher_entries (s : LinkState) (ip : Nat) (vp : Bool) :
    (unlinkFinisher s ip vp).entries = s.entries := by
  unfold unlinkFinisher setNlinks
  split_ifs <;> rfl

theorem unlinkFinisher_nlinks_of_ne {s : LinkState} {ip i : Nat} {vp : Bool} (h : i ≠ ip) :
    (unlinkFinisher s ip vp).nlinks i = s.nlinks i := by
  unfold unlinkFinisher setNlinks
  split_ifs <;> simp [Function.update_of_ne h]

theorem unlinkFinisher_nlinks_file {s : LinkState} {ip : Nat} (hk : s.kind ip ≠ some true) :
    (unlinkFinisher s ip true).nlinks ip = s.nlinks ip - 1 := by
  unfold unlinkFinisher setNlinks
  by_cases h1 : 1 < s.nlinks ip
  · simp [hk, h1]
  · simp only [h1, and_false, if_false, if_true, Function.update_self]
    omega

/-- The count of a directory that got, or lost, the subdirectory `i`. -/
def bumped (s : LinkState) (d i : Nat) : Nat :=
  if s.kind i = some true ∧ s.nlinks d ≠ 1 then s.nlinks d + 1 else s.nlinks d

def unbumped (s : LinkState) (d i : Nat) : Nat :=
  if s.kind i = some true ∧ s.nlinks d ≠ 1 then s.nlinks d - 1 else s.nlinks d

/-- Adding an entry for `i` keeps the invariant when the count of `i` and of the directory follow. -/
theorem LinkInv.insert {root : Nat} {s : LinkState} (hi : LinkInv root s) {d i : Nat} {name : Name}
    {n : Nat → Nat} (hd : s.kind d = some true) (hl : lookupEntry s d name = none)
    (hk : s.kind i ≠ none) (hr : i ≠ root) (hid : i ≠ d)
    (hfile : s.kind i = some false → n i = linksTo s.entries i + 1)
    (hdir : s.kind i = some true → linksTo s.entries i = 0 ∧ n i = 2 + subdirsOf s.kind s.entries i)
    (hpar : n d = bumped s d i) (hother : ∀ j, j ≠ i → j ≠ d → n j = s.nlinks j) :
    LinkInv root { kind := s.kind, nlinks := n, entries := ⟨d, name, i⟩ :: s.entries } := by
  refine ⟨⟨?_, ?_⟩, ?_, ?_, ?_, ?_, hi.rootKind, ?_, ?_⟩
  · intro j hj hn
    dsimp only at hj hn ⊢
    rw [linksTo_cons] at hn ⊢
    by_cases hji : i = j
    · subst j
      simp [hfile hj]
    · have hjd : j ≠ d := by
        rintro rfl
        simp [hd] at hj
      simp only [hji, if_false, Nat.add_zero] at hn ⊢
      rw [hother j (Ne.symm hji) hjd]
      exact hi.exact.file j hj hn
  · intro j hj hjr hn
    dsimp only at hj hn ⊢
    rw [linksTo_cons] at hn
    rw [subdirsOf_cons]
    by_cases hji : i = j
    · subst j
      simp [(hdir hj).2, Ne.symm hid]
    · simp only [hji, if_false, Nat.add_zero] at hn
      have hold := hi.exact.dir j hj hjr hn
      by_cases hjd : d = j
      · subst j
        rw [hpar]
        unfold bumped
        by_cases hki : s.kind i = some true
        · have hne : s.nlinks d ≠ 1 := by omega
          simp only [hki, hne, ne_eq, not_false_eq_true, and_self, if_true]
          omega
        · simp [hki, hold]
      · rw [hother j (Ne.symm hji) (Ne.symm hjd)]
        simp [hjd, hold]
  · intro e he
    rcases List.mem_cons.mp he with rfl | he
    · exact hk
    · exact hi.known e he
  · intro e he
    rcases List.mem_cons.mp he with rfl | he
    · exact hd
    · exact hi.parent e he
  · intro j hj
    dsimp only at hj ⊢
    rw [linksTo_cons]
    by_cases hji : i = j
    · subst j
      simp [(hdir hj).1]
    · simpa [hji] using hi.single j hj
  · refine List.pairwise_cons.mpr ⟨?_, hi.named⟩
    rintro f hf ⟨h1, h2⟩
    exact lookupEntry_none hl f hf ⟨h1.symm, h2.symm⟩
  · dsimp only
    by_cases hrd : root = d
    · subst d
      rw [hpar]
      simp [bumped, hi.rootLinks]
    · rw [hother root (Ne.symm hr) hrd]
      exact hi.rootLinks
  · dsimp only
    rw [linksTo_cons, hi.rootFree]
    simp [hr]

/-- The same for a directory without an entry that gets one in itself. -/
theorem LinkInv.insert_self {root : Nat} {s : LinkState} (hi : LinkInv root s) {i : Nat}
    {name : Name} {n : Nat → Nat} (hk : s.kind i = some true) (hl : lookupEntry s i name = none)
    (hr : i ≠ root) (hfree : linksTo s.entries i = 0)
    (hself : n i = 2 + (subdirsOf s.kind s.entries i + 1))
    (hother : ∀ j, j ≠ i → n j = s.nlinks j) :
    LinkInv root { kind := s.kind, nlinks := n, entries := ⟨i, name, i⟩ :: s.entries } := by
  refine ⟨⟨?_, ?_⟩, ?_, ?_, ?_, ?_, hi.rootKind, ?_, ?_⟩
  · intro j hj hn
    dsimp only at hj hn ⊢
    have hji : i ≠ j := by
      rintro rfl
      simp [hk] at hj
    rw [linksTo_cons, if_neg hji, Nat.add_zero] at hn ⊢
    rw [hother j (Ne.symm hji)]
    exact hi.exact.file j hj hn
  · intro j hj hjr hn
    dsimp only at hj hn ⊢
    rw [linksTo_cons] at hn
    rw [subdirsOf_cons]
    by_cases hji : i = j
    · subst j
      rw [hself, if_pos ⟨rfl, hk⟩]
    · rw [if_neg hji, Nat.add_zero] at hn
      rw [hother j (Ne.symm hji), if_neg (fun h => hji h.1), Nat.add_zero]
      exact hi.exact.dir j hj hjr hn
  · intro e he
    rcases List.mem_cons.mp he with rfl | he
    · simp [hk]
    · exact hi.known e he
  · intro e he
    rcases List.mem_cons.mp he with rfl | he
    · exact hk
    · exact hi.parent e he
  · intro j hj
    dsimp only at hj ⊢
    rw [linksTo_cons]
    by_cases hji : i = j
    · subst j
      simp [hfree]
    · simpa [hji] using hi.single j hj
  · refine List.pairwise_cons.mpr ⟨?_, hi.named⟩
    rintro f hf ⟨h1, h2⟩
    exact lookupEntry_none hl f hf ⟨h1.symm, h2.symm⟩
  · exact (hother root (Ne.symm hr)).trans hi.rootLinks
  · dsimp only
    rw [linksTo_cons, hi.rootFree, if_neg hr]

/-- Taking an entry away keeps the invariant when the count of a file and of the directory follow. -/
theorem LinkInv.delete {root : Nat} {s : LinkState} (hi : LinkInv root s) {e : LinkEntry}
    {n : Nat → Nat} (he : e ∈ s.entries)
    (hfile : s.kind e.inum = some false → n e.inum = linksTo s.entries e.inum - 1)
    (hpar : e.inum ≠ e.dir → s.nlinks e.dir ≠ 0 → n e.dir = unbumped s e.dir e.inum)
    (hother : ∀ j, j ≠ e.inum → j ≠ e.dir → n j = s.nlinks j) :
    LinkInv root { kind := s.kind, nlinks := n, entries := s.entries.erase e } := by
  have hd := hi.parent e he
  have hr := hi.ne_root he
  refine ⟨⟨?_, ?_⟩, ?_, ?_, ?_, ?_, hi.rootKind, ?_, ?_⟩
  · intro j hj hn
    dsimp only at hj hn ⊢
    have hc := linksTo_erase he j
    by_cases hji : e.inum = j
    · subst j
      rw [hfile hj]
      simp only [if_true] at hc
      omega
    · have hjd : j ≠ e.dir := by
        rintro rfl
        simp [hd] at hj
      simp only [hji, if_false, Nat.add_zero] at hc
      rw [hother j (Ne.symm hji) hjd, ← hc]
      exact hi.exact.file j hj (by omega)
  · intro j hj hjr hn
    dsimp only at hj hn ⊢
    have hc := linksTo_erase he j
    have hs : subdirsOf s.kind s.entries j = _ := subdirsOf_erase he j
    have h1 := hi.single j hj
    by_cases hji : e.inum = j
    · simp only [hji, if_true] at hc
      omega
    · simp only [hji, if_false, Nat.add_zero] at hc
      have hold := hi.exact.dir j hj hjr (by omega)
      by_cases hjd : e.dir = j
      · subst j
        rw [hpar hji (by omega)]
        unfold unbumped
        by_cases hki : s.kind e.inum = some true
        · have hne : s.nlinks e.dir ≠ 1 := by omega
          simp only [hki, and_self, if_true] at hs
          simp only [hki, hne, ne_eq, not_false_eq_true, and_self, if_true]
          omega
        · simp only [hki, and_false, if_false, Nat.add_zero] at hs
          simp [hki, hold, hs]
      · simp only [hjd, false_and, if_false, Nat.add_zero] at hs
        rw [hother j (Ne.symm hji) (Ne.symm hjd), hold, hs]
  · intro f hf
    exact hi.known f (List.mem_of_mem_erase hf)
  · intro f hf
    exact hi.parent f (List.mem_of_mem_erase hf)
  · intro j hj
    have hc := linksTo_erase he j
    have h1 := hi.single j hj
    dsimp only
    omega
  · exact hi.named.sublist List.erase_sublist
  · dsimp only
    by_cases hrd : root = e.dir
    · rw [hrd, hpar (hrd ▸ hr) (by simp [← hrd, hi.rootLinks])]
      simp [unbumped, ← hrd, hi.rootLinks]
    · rw [hother root (Ne.symm hr) hrd]
      exact hi.rootLinks
  · have hc := linksTo_erase he root
    have h0 := hi.rootFree
    dsimp only
    omega

theorem LinkInv.free_of_none {root : Nat} {s : LinkState} (hi : LinkInv root s) {i : Nat}
    (hn : s.kind i = none) : linksTo s.entries i = 0 := by
  refine linksTo_eq_zero.mpr ?_
  rintro e he rfl
  exact hi.known e he hn

theorem LinkInv.no_subdirs_of_none {root : Nat} {s : LinkState} (hi : LinkInv root s) {i : Nat}
    (hn : s.kind i = none) : subdirsOf s.kind s.entries i = 0 := by
  unfold subdirsOf
  refine List.countP_eq_zero.mpr ?_
  intro e he hp
  have hp := (of_decide_eq_true hp).1
  have hd := hi.parent e he
  rw [hp, hn] at hd
  cases hd

@[simp] theorem createNormal_entries (s : LinkState) (isDir : Bool) (inum : Nat) :
    (createNormal s isDir inum).entries = s.entries := rfl

theorem createNormal_kind_of_ne {s : LinkState} {isDir : Bool} {inum i : Nat} (h : i ≠ inum) :
    (createNormal s isDir inum).kind i = s.kind i := by
  simp [createNormal, Function.update_of_ne h]

@[simp] theorem createNormal_kind_self (s : LinkState) (isDir : Bool) (inum : Nat) :
    (createNormal s isDir inum).kind inum = some isDir := by
  simp [createNormal]

theorem createNormal_nlinks_of_ne {s : LinkState} {isDir : Bool} {inum i : Nat} (h : i ≠ inum) :
    (createNormal s isDir inum).nlinks i = s.nlinks i := by
  simp [createNormal, Function.update_of_ne h]

theorem createNormal_subdirsOf {root : Nat} {s : LinkState} (hi : LinkInv root s) {inum : Nat}
    (hn : s.kind inum = none) (isDir : Bool) (d : Nat) :
    subdirsOf (createNormal s isDir inum).kind s.entries d = subdirsOf s.kind s.entries d :=
  subdirsOf_update (linksTo_eq_zero.mp (hi.free_of_none hn)) d

theorem CanCreate.dir_ne {s : LinkState} {d inum : Nat} {name : Name}
    (hc : CanCreate s d name inum) : d ≠ inum := by
  obtain ⟨hd, -, hn⟩ := hc
  rintro rfl
  rw [hd] at hn
  cases hn

/-- A new inode that no entry names yet. -/
theorem LinkInv.createNormal {root : Nat} {s : LinkState} (hi : LinkInv root s) {inum : Nat}
    (hn : s.kind inum = none) (isDir : Bool) : LinkInv root (createNormal s isDir inum) := by
  have hfree := hi.free_of_none hn
  have hne : ∀ {i}, linksTo s.entries i ≠ 0 → i ≠ inum := by
    rintro i h rfl
    exact h hfree
  have hroot : root ≠ inum := by
    rintro rfl
    rw [hi.rootKind] at hn
    cases hn
  refine ⟨⟨?_, ?_⟩, ?_, ?_, ?_, hi.named, ?_, ?_, hi.rootFree⟩
  · intro i hk h
    rw [createNormal_kind_of_ne (hne h)] at hk
    rw [createNormal_nlinks_of_ne (hne h)]
    exact hi.exact.file i hk h
  · intro i hk hr h
    rw [createNormal_kind_of_ne (hne h)] at hk
    rw [createNormal_nlinks_of_ne (hne h), createNormal_entries, createNormal_subdirsOf hi hn]
    exact hi.exact.dir i hk hr h
  · intro e he
    rw [createNormal_kind_of_ne (linksTo_eq_zero.mp hfree e he)]
    exact hi.known e he
  · intro e he
    have hd := hi.parent e he
    have hdn : e.dir ≠ inum := by
      rintro h
      rw [h, hn] at hd
      cases hd
    rw [createNormal_kind_of_ne hdn]
    exact hd
  · intro i hk
    by_cases hii : i = inum
    · subst i
      rw [createNormal_entries, hfree]
      omega
    · rw [createNormal_kind_of_ne hii] at hk
      exact hi.single i hk
  · rw [createNormal_kind_of_ne hroot]
    exact hi.rootKind
  · rw [createNormal_nlinks_of_ne hroot]
    exact hi.rootLinks

/-- The new inode gets its entry in `d`, whose count is then `n d`. -/
theorem LinkInv.create {root : Nat} {s : LinkState} (hi : LinkInv root s) {d inum : Nat}
    {name : Name} (hc : CanCreate s d name inum) (isDir : Bool) {n : Nat → Nat}
    (hpar : n d = if isDir ∧ s.nlinks d ≠ 1 then s.nlinks d + 1 else s.nlinks d)
    (hother : ∀ j, j ≠ d → n j = (Hammer2.createNormal s isDir inum).nlinks j) :
    LinkInv root { kind := (Hammer2.createNormal s isDir inum).kind, nlinks := n,
                   entries := ⟨d, name, inum⟩ :: s.entries } := by
  have hdi := hc.dir_ne
  obtain ⟨hd, hl, hn⟩ := hc
  have hroot : inum ≠ root := by
    rintro rfl
    rw [hi.rootKind] at hn
    cases hn
  refine (hi.createNormal hn isDir).insert ?_ hl ?_ hroot (Ne.symm hdi) ?_ ?_ ?_ ?_
  · rw [createNormal_kind_of_ne hdi]
    exact hd
  · simp
  · intro hk
    rw [hother inum (Ne.symm hdi), createNormal_entries, hi.free_of_none hn]
    simp only [createNormal_kind_self, Option.some.injEq] at hk
    simp [Hammer2.createNormal, hk]
  · intro hk
    simp only [createNormal_kind_self, Option.some.injEq] at hk
    rw [hother inum (Ne.symm hdi), createNormal_entries, createNormal_subdirsOf hi hn,
      hi.free_of_none hn, hi.no_subdirs_of_none hn]
    simp [Hammer2.createNormal, hk]
  · rw [hpar]
    unfold bumped
    rw [createNormal_nlinks_of_ne hdi, createNormal_kind_self]
    simp
  · intro j _ hj
    exact hother j hj

theorem LinkInv.of_eq {root : Nat} {s : LinkState} {k : Nat → Option Bool} {n : Nat → Nat}
    {es : List LinkEntry} (hi : LinkInv root { kind := k, nlinks := n, entries := es })
    (hk : s.kind = k) (hn : s.nlinks = n) (he : s.entries = es) : LinkInv root s := by
  subst hk hn he
  exact hi

/-- Taking the entry of a file, or of a directory in the root, away. -/
theorem LinkInv.unlink {root : Nat} {s : LinkState} (hi : LinkInv root s) {e : LinkEntry}
    (he : e ∈ s.entries) (hdir : s.kind e.inum = some true → e.dir = root) :
    LinkInv root (unlinkFinisher { s with entries := s.entries.erase e } e.inum true) := by
  refine (hi.delete he ?_ ?_ ?_).of_eq (unlinkFinisher_kind _ _ _) rfl
    (unlinkFinisher_entries _ _ _)
  · intro hk
    rw [unlinkFinisher_nlinks_file (by simp [hk])]
    dsimp only
    rw [hi.exact.file _ hk (Nat.ne_of_gt (linksTo_pos he))]
  · intro hne _
    rw [unlinkFinisher_nlinks_of_ne (Ne.symm hne)]
    unfold unbumped
    by_cases hk : s.kind e.inum = some true
    · simp [hdir hk, hi.rootLinks]
    · simp [hk]
  · intro j hj _
    exact unlinkFinisher_nlinks_of_ne hj

theorem lookupEntry_of_forall {s : LinkState} {d : Nat} {name : Name}
    (h : ∀ e ∈ s.entries, ¬ (e.dir = d ∧ e.name = name)) : lookupEntry s d name = none := by
  refine List.find?_eq_none.mpr ?_
  intro e he
  simpa using h e he

/-- Deleting all entries of a name deletes one, when no name is there twice. -/
theorem filter_name_eq_erase {es : List LinkEntry}
    (hp : es.Pairwise fun e f => ¬ (e.dir = f.dir ∧ e.name = f.name)) {t : LinkEntry} (ht : t ∈ es) :
    (es.filter fun f => ¬ (f.dir = t.dir ∧ f.name = t.name)) = es.erase t := by
  induction es with
  | nil => cases ht
  | cons e es ih =>
    obtain ⟨he, hp⟩ := List.pairwise_cons.mp hp
    by_cases het : e = t
    · subst e
      have hself : (es.filter fun f => ¬ (f.dir = t.dir ∧ f.name = t.name)) = es := by
        refine List.filter_eq_self.mpr ?_
        intro f hf
        have hne := he f hf
        simp only [decide_eq_true_eq]
        rintro ⟨h1, h2⟩
        exact hne ⟨h1.symm, h2.symm⟩
      rw [List.filter_cons_of_neg (by simp), List.erase_cons_head, hself]
    · have hm := (List.mem_cons.mp ht).resolve_left (Ne.symm het)
      rw [List.filter_cons_of_pos (by exact decide_eq_true (he t hm)),
        List.erase_cons_tail (by simpa using het), ih hp hm]

theorem lookupEntry_erase {s : LinkState} {d : Nat} {name : Name} {t : LinkEntry}
    (hp : s.entries.Pairwise fun e f => ¬ (e.dir = f.dir ∧ e.name = f.name))
    (h : lookupEntry s d name = some t) :
    ∀ f ∈ s.entries.erase t, ¬ (f.dir = d ∧ f.name = name) := by
  obtain ⟨ht, rfl, rfl⟩ := lookupEntry_some h
  intro f hf
  rw [← filter_name_eq_erase hp ht] at hf
  exact of_decide_eq_true (List.mem_filter.mp hf).2

/-- The counts after a directory has left `fd`. -/
def leaveSubdir (n : Nat → Nat) (fd : Nat) : Nat → Nat :=
  if n fd ≠ 1 then Function.update n fd (decNlinks (n fd)) else n

theorem leaveSubdir_of_ne {n : Nat → Nat} {fd j : Nat} (h : j ≠ fd) : leaveSubdir n fd j = n j := by
  unfold leaveSubdir
  split_ifs <;> simp [Function.update_of_ne h]

theorem leaveSubdir_self {s : LinkState} {fd i : Nat} (hk : s.kind i = some true)
    (h0 : s.nlinks fd ≠ 0) : leaveSubdir s.nlinks fd fd = unbumped s fd i := by
  unfold leaveSubdir unbumped
  by_cases h1 : s.nlinks fd = 1 <;> simp [h0, h1, hk, decNlinks]

theorem moveSubdir_eq (s : LinkState) (fd td : Nat) :
    moveSubdir s fd td =
      let n := leaveSubdir s.nlinks fd
      { s with nlinks := if n td ≠ 1 then Function.update n td (n td + 1) else n } := by
  unfold moveSubdir leaveSubdir setNlinks
  by_cases h1 : s.nlinks fd = 1
  · simp only [h1, ne_eq, not_true_eq_false, if_false]
    split <;> rfl
  · simp only [h1, ne_eq, not_false_eq_true, if_true]
    split <;> rfl

/-- The entry `e` goes to `td`, and when it is a directory the counts of both directories follow. -/
theorem LinkInv.move {root : Nat} {s : LinkState} (hi : LinkInv root s) {e : LinkEntry} {td : Nat}
    {name : Name} (he : e ∈ s.entries) (hd : s.kind td = some true)
    (hl : ∀ f ∈ s.entries, ¬ (f.dir = td ∧ f.name = name))
    (hne : s.kind e.inum = some true → e.dir ≠ e.inum) :
    LinkInv root (if s.kind e.inum = some true then
        moveSubdir { s with entries := ⟨td, name, e.inum⟩ :: s.entries.erase e } e.dir td
      else { s with entries := ⟨td, name, e.inum⟩ :: s.entries.erase e }) := by
  have hpos := linksTo_erase he e.inum
  simp only [if_true] at hpos
  have hl' : ∀ {n : Nat → Nat}, lookupEntry ⟨s.kind, n, s.entries.erase e⟩ td name = none := by
    intro n
    exact lookupEntry_of_forall fun f hf => hl f (List.mem_of_mem_erase hf)
  split
  next hk =>
    have hed := hne hk
    have hr := hi.ne_root he
    have hone : linksTo (s.entries.erase e) e.inum = 0 := by
      have h1 := hi.single _ hk
      omega
    have hsub : subdirsOf s.kind s.entries e.inum = _ := subdirsOf_erase he e.inum
    simp only [hed, false_and, if_false, Nat.add_zero] at hsub
    have hdel := hi.delete (n := leaveSubdir s.nlinks e.dir) he
      (by intro h; rw [hk] at h; cases h) (by intro _ h0; exact leaveSubdir_self hk h0)
      (by intro j _ hj; exact leaveSubdir_of_ne hj)
    have hn : leaveSubdir s.nlinks e.dir e.inum = 2 + subdirsOf s.kind (s.entries.erase e) e.inum := by
      rw [leaveSubdir_of_ne (Ne.symm hed), ← hsub]
      exact hi.exact.dir _ hk hr (by omega)
    rw [moveSubdir_eq]
    by_cases het : td = e.inum
    · subst het
      have htwo : leaveSubdir s.nlinks e.dir e.inum ≠ 1 := by omega
      dsimp only
      rw [if_pos htwo]
      refine hdel.insert_self hk hl' hr hone ?_ ?_
      · rw [Function.update_self, hn]
        rfl
      · intro j hj
        exact Function.update_of_ne hj _ _
    · refine hdel.insert hd hl' (by simp [hk]) hr (Ne.symm het) ?_ ?_ ?_ ?_
      · intro h
        rw [hk] at h
        cases h
      · intro _
        refine ⟨hone, ?_⟩
        dsimp only
        split
        · rw [Function.update_of_ne (Ne.symm het)]
          exact hn
        · exact hn
      · unfold bumped
        simp only [hk, true_and]
        split <;> simp
      · intro j _ hj
        dsimp only
        split
        · rw [Function.update_of_ne hj]
        · rfl
  next hk =>
    have hk : s.kind e.inum = some false := by
      have hknown := hi.known e he
      cases hb : s.kind e.inum with
      | none => exact absurd hb hknown
      | some b =>
        cases b
        · rfl
        · exact absurd hb hk
    have hfd : e.dir ≠ e.inum := by
      intro h
      rw [← h, hi.parent e he] at hk
      cases hk
    have htd : td ≠ e.inum := by
      rintro rfl
      rw [hd] at hk
      cases hk
    have hex := hi.exact.file _ hk (by omega)
    have hdel := hi.delete (n := Function.update s.nlinks e.inum (s.nlinks e.inum - 1)) he
      (by intro _; simp [hex]) (by intro _ _; simp [unbumped, hk, Function.update_of_ne hfd])
      (by intro j hj _; simp [Function.update_of_ne hj])
    refine hdel.insert hd hl' (by simp [hk]) (hi.ne_root he) (Ne.symm htd) ?_ ?_ ?_ ?_
    · intro _
      dsimp only
      omega
    · intro h
      rw [hk] at h
      cases h
    · simp [bumped, hk, Function.update_of_ne htd]
    · intro j hj _
      simp [Function.update_of_ne hj]

/-- Only the counts of the root and of what is linked matter. -/
theorem LinkInv.setNlinks {root : Nat} {s : LinkState} (hi : LinkInv root s) {n : Nat → Nat}
    (h : ∀ i, linksTo s.entries i ≠ 0 ∨ i = root → n i = s.nlinks i) :
    LinkInv root { s with nlinks := n } := by
  refine ⟨⟨?_, ?_⟩, hi.known, hi.parent, hi.single, hi.named, hi.rootKind, ?_, hi.rootFree⟩
  · intro i hk hl
    exact (h i (Or.inl hl)).trans (hi.exact.file i hk hl)
  · intro i hk hr hl
    exact (h i (Or.inl hl)).trans (hi.exact.dir i hk hr hl)
  · exact (h root (Or.inr rfl)).trans hi.rootLinks

end Hammer2
