import Hammer2.LinkCount
import Hammer2.ParentTree

/-! Renames of directories and the tree that they leave. -/

namespace Hammer2

open ParentTree

/-- The inode number of the root directory of a PFS. -/
def rootInum : Nat := 1

/-- The inodes and entries, with the `meta.iparent` of each inode. -/
structure RenameState where
  link : LinkState
  iparent : Nat → Nat

/-- The `hammer2_checkpath` of the shim header that `hammer2_vnops.c` includes. -/
def shimCheckpath (_ : RenameState) (_ _ : Nat) : Nat := 0

/-- A rename of the entry `name1` of `fd` to `name2` in `td`. -/
structure RenameDirs where
  fd : Nat
  name1 : Name
  td : Nat
  name2 : Name

def isDirectory (s : LinkState) (i : Nat) : Bool := s.kind i = some true

/-- The directory is the root or has an entry. -/
def Linked (s : LinkState) (i : Nat) : Prop := i = rootInum ∨ linksTo s.entries i ≠ 0

instance (s : LinkState) (i : Nat) : Decidable (Linked s i) := inferInstanceAs (Decidable (_ ∨ _))

/-- `hammer2_rename` of a directory to another parent, if it completes: the target directory is one
that a path leads to, nothing refuses the rename, and the backend succeeds. -/
def renameDirStep (s : RenameState) (r : RenameDirs) : Option RenameState :=
  (lookupEntry s.link r.fd r.name1).bind fun e =>
    if isDirectory s.link e.inum = true ∧ r.fd ≠ r.td ∧ isDirectory s.link r.td = true ∧
        Linked s.link r.td ∧ shimCheckpath s e.inum r.td = 0 ∧
        ¬ RenameRefused s.link r.fd e r.td (lookupEntry s.link r.td r.name2) .ok ∧
        renameOutcome s.link (lookupEntry s.link r.td r.name2) .ok = .ok then
      some ⟨vopRename s.link r.fd r.name1 r.td r.name2 .ok, Function.update s.iparent e.inum r.td⟩
    else none

/-- A tree of entries in which the `iparent` of each directory is the directory of its entry. -/
structure DirTree (s : RenameState) : Prop where
  parent : ∀ e ∈ s.link.entries, s.link.kind e.dir = some true
  linked : ∀ e ∈ s.link.entries, Linked s.link e.dir
  single : ∀ i, s.link.kind i = some true → linksTo s.link.entries i ≤ 1
  iparent : ∀ e ∈ s.link.entries, s.link.kind e.inum = some true → s.iparent e.inum = e.dir
  named : s.link.entries.Pairwise fun e f => ¬ (e.dir = f.dir ∧ e.name = f.name)
  rootFree : linksTo s.link.entries rootInum = 0

/-- Every directory with an entry has its way up to the root, so there is no cycle. -/
def RootedTree (s : RenameState) : Prop :=
  ∀ i, s.link.kind i = some true → Linked s.link i → Reaches s.iparent rootInum i rootInum

/-- The directory `a` is `x` or one of the directories above it. -/
def AtOrAbove (s : RenameState) (a x : Nat) : Prop := Reaches s.iparent rootInum x a

/-- The rename does not move a directory into itself or into a directory below it. -/
def KeepsOut (s : RenameState) (r : RenameDirs) : Prop :=
  ∀ e, lookupEntry s.link r.fd r.name1 = some e → ¬ AtOrAbove s e.inum r.td

section Step

variable {s s' : RenameState} {r : RenameDirs}

theorem moveSubdir_ite (l : LinkState) (c : Prop) [Decidable c] (fd td : Nat) :
    (if c then moveSubdir l fd td else l).kind = l.kind ∧
      (if c then moveSubdir l fd td else l).entries = l.entries := by
  rw [moveSubdir_eq]
  split
  · exact ⟨rfl, rfl⟩
  · exact ⟨rfl, rfl⟩

/-- What a completed rename has met, and what it does. -/
theorem renameDirStep_cases (h : renameDirStep s r = some s') :
    ∃ e, lookupEntry s.link r.fd r.name1 = some e ∧ s.link.kind e.inum = some true ∧
      s.link.kind r.td = some true ∧ Linked s.link r.td ∧
      (∀ t, lookupEntry s.link r.td r.name2 = some t → t.inum ≠ e.inum ∧
        (s.link.kind t.inum = some true → dirEmpty s.link t.inum = true)) ∧
      s'.iparent = Function.update s.iparent e.inum r.td ∧ s'.link.kind = s.link.kind ∧
      s'.link.entries = ⟨r.td, r.name2, e.inum⟩ :: (s.link.entries.erase e).filter fun f =>
        ¬ (f.dir = r.td ∧ f.name = r.name2) := by
  obtain ⟨e, he, h⟩ := Option.bind_eq_some_iff.mp h
  obtain ⟨⟨hdir, hne, htd, hlinked, -, hnot, hout⟩, hs⟩ := Option.ite_none_right_eq_some.mp h
  cases Option.some.inj hs
  have hren : vopRename s.link r.fd r.name1 r.td r.name2 .ok =
      renameResolved s.link r.fd e r.td r.name2 (lookupEntry s.link r.td r.name2) .ok := by
    unfold vopRename
    rw [he]
    dsimp only
    rw [if_neg hnot]
  have hback : (renameBackend s.link e r.td r.name2 (lookupEntry s.link r.td r.name2) .ok).kind =
        s.link.kind ∧
      (renameBackend s.link e r.td r.name2 (lookupEntry s.link r.td r.name2) .ok).entries =
        renameEntries s.link.entries e r.td r.name2 .ok := by
    cases lookupEntry s.link r.td r.name2 with
    | none => exact ⟨rfl, rfl⟩
    | some t => exact ⟨unlinkFinisher_kind _ _ _, unlinkFinisher_entries _ _ _⟩
  refine ⟨e, he, by simpa [isDirectory] using hdir, by simpa [isDirectory] using htd, hlinked, ?_,
    rfl, ?_, ?_⟩
  · intro t ht
    refine ⟨fun heq => hnot (Or.inl (by rw [ht, ← heq]; rfl)), ?_⟩
    intro hk
    rw [ht] at hout
    by_contra hempty
    unfold renameOutcome at hout
    dsimp only at hout
    rw [if_pos ⟨hk, hempty⟩] at hout
    cases hout
  · dsimp only
    rw [hren, renameResolved, hout, (moveSubdir_ite _ _ _ _).1, hback.1]
  · dsimp only
    rw [hren, renameResolved, hout, (moveSubdir_ite _ _ _ _).2, hback.2]
    rfl

/-- An entry of another name than the target stays. -/
theorem mem_renamed {es : List LinkEntry} {e f : LinkEntry} {td : Nat} {name : Name} (hf : f ∈ es)
    (hfe : f ≠ e) (hft : ¬ (f.dir = td ∧ f.name = name)) :
    f ∈ (es.erase e).filter fun f => ¬ (f.dir = td ∧ f.name = name) :=
  List.mem_filter.mpr ⟨(List.mem_erase_of_ne hfe).mpr hf, decide_eq_true hft⟩

theorem linksTo_renamed {es : List LinkEntry} {e : LinkEntry} (he : e ∈ es) (td : Nat)
    (name : Name) (i : Nat) :
    linksTo ((es.erase e).filter fun f => ¬ (f.dir = td ∧ f.name = name)) i +
      (if e.inum = i then 1 else 0) ≤ linksTo es i := by
  have hsub : linksTo ((es.erase e).filter fun f => ¬ (f.dir = td ∧ f.name = name)) i ≤
      linksTo (es.erase e) i := List.Sublist.countP_le List.filter_sublist
  rw [linksTo_erase he i]
  omega

theorem dirEmpty_of_mem {l : LinkState} {f : LinkEntry} (hf : f ∈ l.entries) :
    dirEmpty l f.dir = false := by
  apply Bool.eq_false_iff.mpr
  intro h
  have := List.all_eq_true.mp h f hf
  simp at this

/-- No name is there twice, so a lookup finds the entry. -/
theorem lookupEntry_of_mem {l : LinkState} {f : LinkEntry}
    (hnamed : l.entries.Pairwise fun e f => ¬ (e.dir = f.dir ∧ e.name = f.name))
    (hf : f ∈ l.entries) : lookupEntry l f.dir f.name = some f := by
  cases hl : lookupEntry l f.dir f.name with
  | none => exact absurd ⟨rfl, rfl⟩ (lookupEntry_none hl f hf)
  | some t =>
    obtain ⟨ht, hdir, hname⟩ := lookupEntry_some hl
    by_contra hne
    have hft : f ≠ t := fun heq => hne (by rw [heq])
    have hother := lookupEntry_erase hnamed hl f ((List.mem_erase_of_ne hft).mpr hf)
    exact hother ⟨rfl, rfl⟩

/-- A directory that does not give way to the moved one keeps its entry, or is the moved one. -/
theorem DirTree.linked_step (ht : DirTree s) (h : renameDirStep s r = some s') {d : Nat}
    (hnot : ∀ t, lookupEntry s.link r.td r.name2 = some t → t.inum ≠ d) (hl : Linked s.link d) :
    Linked s'.link d := by
  obtain ⟨e, he, hke, -, -, -, -, -, hent⟩ := renameDirStep_cases h
  rcases hl with hroot | hlinks
  · exact Or.inl hroot
  · refine Or.inr ?_
    rw [hent, linksTo_cons]
    by_cases hd : e.inum = d
    · rw [if_pos hd]
      omega
    · rw [if_neg hd, Nat.add_zero]
      intro hz
      apply hlinks
      apply linksTo_eq_zero.mpr
      intro f hf hfd
      have hfe : f ≠ e := fun heq => hd (heq ▸ hfd)
      have hft : ¬ (f.dir = r.td ∧ f.name = r.name2) := by
        rintro ⟨hdir, hname⟩
        exact hnot f (by rw [← hdir, ← hname, lookupEntry_of_mem ht.named hf]) hfd
      exact linksTo_eq_zero.mp hz f (mem_renamed hf hfe hft) hfd

/-- A completed rename leaves a tree of entries. -/
theorem DirTree.step (ht : DirTree s) (h : renameDirStep s r = some s') : DirTree s' := by
  obtain ⟨e, he, hke, hktd, htd, htarget, hip, hkind, hent⟩ := renameDirStep_cases h
  obtain ⟨hmem, hed, -⟩ := lookupEntry_some he
  have hold : ∀ f ∈ (s.link.entries.erase e).filter fun f => ¬ (f.dir = r.td ∧ f.name = r.name2),
      f ∈ s.link.entries := fun f hf => List.mem_of_mem_erase (List.mem_filter.mp hf).1
  -- the target is an empty directory, so it is neither `td` nor the directory of another entry
  have hused : ∀ f ∈ s.link.entries, ∀ t, lookupEntry s.link r.td r.name2 = some t →
      t.inum ≠ f.dir := by
    intro f hf t hl heq
    have hempty := (htarget t hl).2 (heq ▸ ht.parent f hf)
    rw [heq, dirEmpty_of_mem hf] at hempty
    cases hempty
  have htd' : ∀ t, lookupEntry s.link r.td r.name2 = some t → t.inum ≠ r.td := by
    intro t hl
    obtain ⟨htm, htdir, -⟩ := lookupEntry_some hl
    exact htdir ▸ hused t htm t hl
  refine ⟨?_, ?_, ?_, ?_, ?_, ?_⟩
  · intro f hf
    rw [hent] at hf
    rw [hkind]
    rcases List.mem_cons.mp hf with rfl | hf
    · exact hktd
    · exact ht.parent f (hold f hf)
  · intro f hf
    rw [hent] at hf
    rcases List.mem_cons.mp hf with rfl | hf
    · exact ht.linked_step h htd' htd
    · exact ht.linked_step h (hused f (hold f hf)) (ht.linked f (hold f hf))
  · intro i hk
    rw [hkind] at hk
    rw [hent, linksTo_cons]
    exact (linksTo_renamed hmem r.td r.name2 i).trans (ht.single i hk)
  · intro f hf hk
    rw [hent] at hf
    rw [hkind] at hk
    rw [hip]
    rcases List.mem_cons.mp hf with rfl | hf
    · exact Function.update_self _ _ _
    · have hne : f.inum ≠ e.inum := by
        intro heq
        have hle := (linksTo_renamed hmem r.td r.name2 e.inum).trans
          (ht.single _ hke)
        have hpos := linksTo_pos hf
        rw [heq] at hpos
        simp only [if_true] at hle
        omega
      rw [Function.update_of_ne hne]
      exact ht.iparent f (hold f hf) hk
  · rw [hent]
    refine List.pairwise_cons.mpr ⟨?_, ?_⟩
    · rintro f hf ⟨hdir, hname⟩
      have hnot := (List.mem_filter.mp hf).2
      simp [← hdir, ← hname] at hnot
    · exact ht.named.sublist (List.filter_sublist.trans List.erase_sublist)
  · have hle := linksTo_renamed hmem r.td r.name2 rootInum
    rw [ht.rootFree] at hle
    rw [hent, linksTo_cons]
    dsimp only
    omega

/-- A completed rename keeps the tree rooted exactly if it keeps the directory out of its own
subtree. -/
theorem rootedTree_step (ht : DirTree s) (hrooted : RootedTree s) (h : renameDirStep s r = some s') :
    RootedTree s' ↔ KeepsOut s r := by
  obtain ⟨e, he, hke, hktd, htd, htarget, hip, hkind, hent⟩ := renameDirStep_cases h
  obtain ⟨hmem, hed, -⟩ := lookupEntry_some he
  have hne : e.inum ≠ rootInum := by
    intro heq
    have hpos := linksTo_pos hmem
    rw [heq, ht.rootFree] at hpos
    omega
  constructor
  · intro h' e' he' hup
    cases Option.some.inj (he.symm.trans he')
    have hlinked : Linked s'.link e.inum := by
      refine Or.inr ?_
      rw [hent, linksTo_cons, if_pos rfl]
      omega
    have hreach := h' e.inum (hkind ▸ hke) hlinked
    rw [hip] at hreach
    exact not_reaches_move hne hup hreach
  · intro hout i hk hl
    rw [hkind] at hk
    have hold : Linked s.link i := by
      rcases hl with hroot | hlinks
      · exact Or.inl hroot
      · refine Or.inr ?_
        rw [hent, linksTo_cons] at hlinks
        dsimp only at hlinks
        have hle := linksTo_renamed hmem r.td r.name2 i
        omega
    rw [hip]
    exact Reaches.move (hrooted r.td hktd htd) (hout e he) (hrooted i hk hold)

end Step

/-- The verdict of the check on a rename is right: it rejects the rename exactly if the directory would
be moved into its own subtree. -/
def VerdictRight (check : RenameState → Nat → Nat → Nat) (s : RenameState) (r : RenameDirs) : Prop :=
  ∀ e, lookupEntry s.link r.fd r.name1 = some e →
    (check s e.inum r.td ≠ 0 ↔ AtOrAbove s e.inum r.td)

/-- The check that renames are compiled against accepts everything. In a run of completed renames the
tree stays rooted, and so without a cycle, exactly if none of them moves a directory into itself or
into a directory below it. -/
theorem renames_rooted_iff {s : RenameState} (ht : DirTree s) (hrooted : RootedTree s)
    (renames : List RenameDirs) :
    (Run.Always renameDirStep RootedTree s renames ↔
      Run.Guarded renameDirStep KeepsOut s renames) ∧
    ∀ s r, VerdictRight shimCheckpath s r ↔ KeepsOut s r := by
  constructor
  · apply Run.always_iff (I := DirTree)
    · exact fun ht h => ht.step h
    · exact fun ht hrooted h => rootedTree_step ht hrooted h
    · exact ht
    · exact hrooted
  · intro s r
    have hnone : ∀ a b, ¬ shimCheckpath s a b ≠ 0 := fun a b h => h rfl
    unfold VerdictRight KeepsOut
    constructor
    · intro h e he hup
      exact hnone _ _ ((h e he).mpr hup)
    · intro h e he
      exact iff_of_false (hnone _ _) (h e he)

/-- What `hammer2_checkpath` finds for an inode number, in memory or on the media: the inode with its
`iparent`, nothing, or an error. -/
inductive PathLookup where
  | found (iparent : Nat)
  | missing
  | failed (error : Nat)

/-- `EINVAL` -/
def errnoEINVAL : Nat := 22

/-- The walk of the `hammer2_checkpath` in `hammer2_inode.c`, which no rename calls; `none` if it is
not at its end after `fuel` turns. -/
def checkpath (look : Nat → PathLookup) (dip : Nat) : Nat → Nat → Option Nat
  | 0, _ => none
  | fuel + 1, inum =>
    if inum = rootInum then some 0
    else match look inum with
      | .found iparent =>
        if dip = iparent then some errnoEINVAL else checkpath look dip fuel iparent
      | .missing => some 0
      | .failed error => some error

/-- In a rooted tree whose inodes are all found that walk ends, and it rejects the directories above
the target. -/
theorem checkpath_rejects_iff {iparent : Nat → Nat} {look : Nat → PathLookup} {dip tdip : Nat}
    (hlook : ∀ i, Reaches iparent rootInum tdip i → look i = .found (iparent i))
    (hrooted : Reaches iparent rootInum tdip rootInum) (hne : tdip ≠ dip) :
    ∃ turns v, (∀ fuel, turns ≤ fuel → checkpath look dip fuel tdip = some v) ∧
      (v = errnoEINVAL ∨ v = 0) ∧ (v = errnoEINVAL ↔ Reaches iparent rootInum tdip dip) := by
  induction hrooted using Relation.ReflTransGen.head_induction_on with
  | refl =>
    refine ⟨1, 0, ?_, Or.inr rfl, iff_of_false (by decide) fun h => hne h.from_root.symm⟩
    intro fuel hfuel
    obtain ⟨fuel, rfl⟩ := Nat.exists_eq_add_of_le' hfuel
    rw [checkpath, if_pos rfl]
  | @head a b hstep _ ih =>
    obtain ⟨hroot, rfl⟩ := hstep
    have hfound := hlook a (.refl a)
    by_cases hdip : dip = iparent a
    · refine ⟨1, errnoEINVAL, ?_, Or.inl rfl, iff_of_true rfl (.step hroot (hdip ▸ .refl _))⟩
      intro fuel hfuel
      obtain ⟨fuel, rfl⟩ := Nat.exists_eq_add_of_le' hfuel
      rw [checkpath, if_neg hroot, hfound]
      exact if_pos hdip
    · obtain ⟨turns, v, hwalk, hv, hiff⟩ :=
        ih (fun i hi => hlook i (.step hroot hi)) (Ne.symm hdip)
      refine ⟨turns + 1, v, ?_, hv, hiff.trans ⟨fun h => .step hroot h, ?_⟩⟩
      · intro fuel hfuel
        obtain ⟨fuel, rfl⟩ := Nat.exists_eq_add_of_le' (Nat.succ_le_of_lt (by omega : 0 < fuel))
        rw [checkpath, if_neg hroot, hfound]
        dsimp only
        rw [if_neg hdip]
        exact hwalk fuel (by omega)
      · intro h
        exact (h.cases.resolve_left hne).2

/-- `/a` and `/a/b`. -/
def nestedDirs : RenameState where
  link :=
    { kind := fun i => if i = 1 ∨ i = 16 ∨ i = 17 then some true else none
      nlinks := fun i => if i = 17 then 2 else 3
      entries := [⟨1, [0x61], 16⟩, ⟨16, [0x62], 17⟩] }
  iparent i := if i = 17 then 16 else 1

theorem nestedDirs_kind {i : Nat} (h : nestedDirs.link.kind i = some true) :
    i = 1 ∨ i = 16 ∨ i = 17 := (Option.ite_none_right_eq_some.mp h).1

theorem nestedDirs_tree : DirTree nestedDirs where
  parent := by decide
  linked := by decide
  single i hk := by
    rcases nestedDirs_kind hk with rfl | rfl | rfl
    · decide
    · decide
    · decide
  iparent := by decide
  named := by decide
  rootFree := by decide

theorem nestedDirs_reaches : Reaches nestedDirs.iparent rootInum 17 16 ∧
    Reaches nestedDirs.iparent rootInum 16 rootInum := by
  constructor
  · apply Reaches.step (by decide)
    exact .refl 16
  · apply Reaches.step (by decide)
    exact .refl 1

theorem nestedDirs_rooted : RootedTree nestedDirs := by
  intro i hk _
  obtain ⟨hb, ha⟩ := nestedDirs_reaches
  rcases nestedDirs_kind hk with rfl | rfl | rfl
  · exact .refl 1
  · exact ha
  · exact hb.trans ha

/-- `/a` is moved to `/a/b/a`. -/
def intoOwnSubtree : RenameDirs := ⟨1, [0x61], 17, [0x61]⟩

/-- The rename is carried out, and the tree falls apart. -/
theorem rename_into_own_subtree : DirTree nestedDirs ∧ RootedTree nestedDirs ∧
    shimCheckpath nestedDirs 16 17 = 0 ∧ AtOrAbove nestedDirs 16 17 ∧
    ∃ s, renameDirStep nestedDirs intoOwnSubtree = some s ∧ ¬ RootedTree s := by
  have hup := nestedDirs_reaches.1
  refine ⟨nestedDirs_tree, nestedDirs_rooted, rfl, hup, ?_⟩
  have hdone : (renameDirStep nestedDirs intoOwnSubtree).isSome = true := by decide
  obtain ⟨s, hs⟩ := Option.isSome_iff_exists.mp hdone
  refine ⟨s, hs, ?_⟩
  intro hrooted
  have hout := (rootedTree_step nestedDirs_tree nestedDirs_rooted hs).mp hrooted
  have hentry : lookupEntry nestedDirs.link 1 [0x61] = some ⟨1, [0x61], 16⟩ := by decide
  exact hout _ hentry hup

/-- `/a/b` is moved to `/b`. -/
theorem rename_up_rooted :
    Run.Always renameDirStep RootedTree nestedDirs [⟨16, [0x62], rootInum, [0x62]⟩] := by
  apply (renames_rooted_iff nestedDirs_tree nestedDirs_rooted _).1.mpr
  intro s _
  refine ⟨?_, trivial⟩
  intro e he hup
  have hentry : lookupEntry nestedDirs.link 16 [0x62] = some ⟨16, [0x62], 17⟩ := by decide
  cases Option.some.inj (hentry.symm.trans he)
  cases hup.from_root

end Hammer2
