import Hammer2.Dirent
import Hammer2.Run

namespace Hammer2

inductive DirError where
  | enoent
  | eexist
  | enospc
  | eisdir
  | enotdir
  | enotempty
  | panic
deriving DecidableEq, Repr

/-- `HAMMER2_INODE_MAXNAME` -/
def inodeMaxname : Nat := 256

/-- `HAMMER2_OBJTYPE_DIRECTORY` -/
def objtypeDirectory : Nat := 1

/-- `hammer2_dirent_create` with its backend `hammer2_xop_inode_mkdirent`. -/
def direntCreate (dir : Dir) (name : Name) (inum type : Nat) : Except DirError Dir :=
  match pickLhc dir name with
  | none => .error .enospc
  | some lhc =>
    if inodeMaxname ≤ name.length then .error .panic
    else if (dir lhc).isSome then .error .eexist
    else
      let e : Dirent := ⟨inum, type, 0, List.replicate checkBytes 0#8, []⟩
      .ok (Function.update dir lhc (some (e.setName name)))

/-- `hammer2_xop_nresolve`, up to the inode that the number stands for. -/
def nresolve (dir : Dir) (name : Name) : Option Nat := (direntLookup dir name).map (·.2.inum)

/-- The loop of `hammer2_xop_nrename` that deletes every entry with the target name. -/
def deleteMatches (dir : Dir) (lhc : Nat) (name : Name) : Dir := fun key =>
  match dir key with
  | none => none
  | some e =>
    if key / (dirhashLomask + 1) = lhc / (dirhashLomask + 1) ∧ direntTest e name then none
    else some e

/-- `hammer2_xop_nrename` of a directory entry; `ip4` is what `checkdirempty` finds for a directory
that is replaced. -/
def xopNrename (dirs : Nat → Dir) (fd : Nat) (name1 : Name) (td : Nat) (name2 : Name) (lhc : Nat)
    (ip4 : Option Bool) : Except DirError (Nat → Dir) :=
  if ip4 = some false then .error .enotempty
  else
    match direntLookup (dirs fd) name1 with
    | none => .error .enoent
    | some (key, e) =>
      let dirs := Function.update dirs fd (Function.update (dirs fd) key none)
      let e := if key ≠ lhc ∨ name1 ≠ name2 then e.setName name2 else e
      let tdir := deleteMatches (dirs td) lhc name2
      if (tdir lhc).isSome then .error .panic
      else .ok (Function.update dirs td (Function.update tdir lhc (some e)))

/-- The part of `hammer2_rename` that picks the key in the target directory and starts the
backend. -/
def rename (dirs : Nat → Dir) (fd : Nat) (name1 : Name) (td : Nat) (name2 : Name)
    (ip4 : Option Bool) : Except DirError (Nat → Dir) :=
  match pickLhc (dirs td) name2 with
  | none => .error .enospc
  | some lhc => xopNrename dirs fd name1 td name2 lhc ip4

/-- A flush stores the check code of a name block in the check area of its entry. -/
def flushCheck (crc : Nat → List (BitVec 8)) (dir : Dir) : Dir := fun key =>
  (dir key).map fun e => if e.data = [] then e else { e with check := crc key }

/-- The directories by inode number, and the map from names to inode numbers that the operations so
far stand for. -/
structure DirState where
  dirs : Nat → Dir
  map : Nat → Name → Option Nat

/-- A short name has no data block. -/
def Dirent.Encoded (e : Dirent) : Prop := e.namlen ≤ checkBytes → e.data = []

/-- The entries of a directory stand for a map: each has its name's binding and lies in its name's
collision space, no name has two, and every bound name has one. -/
structure Represents (dir : Dir) (map : Name → Option Nat) : Prop where
  encoded : ∀ key e, dir key = some e → e.Encoded
  entry : ∀ key e, dir key = some e → ∃ name, direntTest e name = true ∧
    key / 32768 = lhcBase name / 32768 ∧ map name = some e.inum
  unique : ∀ key key' e e' name, dir key = some e → dir key' = some e' →
    direntTest e name = true → direntTest e' name = true → key = key'
  bound : ∀ name inum, map name = some inum → ∃ key e, dir key = some e ∧ direntTest e name = true

theorem direntLookup_some {dir : Dir} {name : Name} {key : Nat} {e : Dirent}
    (h : direntLookup dir name = some (key, e)) :
    dir key = some e ∧ direntTest e name = true ∧ key / 32768 = lhcBase name / 32768 := by
  unfold direntLookup at h
  obtain ⟨hwin, hkey⟩ := mem_window.mp (List.mem_of_find?_eq_some h)
  have htest := List.find?_some h
  exact ⟨hkey, htest, hwin⟩

theorem direntLookup_none {dir : Dir} {name : Name} {key : Nat} {e : Dirent}
    (h : direntLookup dir name = none) (hkey : dir key = some e)
    (hwin : key / 32768 = lhcBase name / 32768) : direntTest e name = false := by
  unfold direntLookup at h
  have hmem := mem_window.mpr ⟨hwin, hkey⟩
  simpa using List.find?_eq_none.mp h (key, e) hmem

/-- The name that an entry passes the test for is the one it was entered under. -/
theorem Represents.of_test {dir : Dir} {map : Name → Option Nat} (h : Represents dir map)
    {key : Nat} {e : Dirent} {name : Name} (hkey : dir key = some e)
    (htest : direntTest e name = true) :
    key / 32768 = lhcBase name / 32768 ∧ map name = some e.inum := by
  obtain ⟨name', htest', hwin, hmap⟩ := h.entry key e hkey
  obtain rfl := direntTest_unique htest htest'
  exact ⟨hwin, hmap⟩

/-- A lookup finds exactly what the map binds. -/
theorem Represents.nresolve_eq {dir : Dir} {map : Name → Option Nat} (h : Represents dir map)
    (name : Name) : nresolve dir name = map name := by
  unfold nresolve
  cases hl : direntLookup dir name with
  | none =>
    cases hm : map name with
    | none => rfl
    | some inum =>
      obtain ⟨key, e, hkey, htest⟩ := h.bound name inum hm
      have hfalse := direntLookup_none hl hkey (h.of_test hkey htest).1
      rw [htest] at hfalse
      cases hfalse
  | some p =>
    obtain ⟨key, e⟩ := p
    obtain ⟨hkey, htest, _⟩ := direntLookup_some hl
    rw [Option.map_some, (h.of_test hkey htest).2]

theorem Represents.delete {dir : Dir} {map : Name → Option Nat} (h : Represents dir map)
    {key : Nat} {e : Dirent} {name : Name} (hkey : dir key = some e)
    (htest : direntTest e name = true) :
    Represents (Function.update dir key none) (Function.update map name none) := by
  have hother : ∀ key' e', Function.update dir key none key' = some e' →
      dir key' = some e' ∧ key' ≠ key := by
    intro key' e' h'
    by_cases hk : key' = key
    · rw [hk, Function.update_self] at h'
      cases h'
    · rw [Function.update_of_ne hk] at h'
      exact ⟨h', hk⟩
  refine ⟨fun key' e' h' => h.encoded key' e' (hother key' e' h').1, ?_, ?_, ?_⟩
  · intro key' e' h'
    obtain ⟨hk', hne⟩ := hother key' e' h'
    obtain ⟨name', htest', hwin, hmap⟩ := h.entry key' e' hk'
    have hname : name' ≠ name := by
      rintro rfl
      exact hne (h.unique key' key e' e name' hk' hkey htest' htest)
    exact ⟨name', htest', hwin, by rw [Function.update_of_ne hname]; exact hmap⟩
  · intro k1 k2 e1 e2 n h1 h2
    exact h.unique k1 k2 e1 e2 n (hother k1 e1 h1).1 (hother k2 e2 h2).1
  · intro name' inum hm
    have hname : name' ≠ name := by
      rintro rfl
      rw [Function.update_self] at hm
      cases hm
    rw [Function.update_of_ne hname] at hm
    obtain ⟨key', e', hk', htest'⟩ := h.bound name' inum hm
    have hne : key' ≠ key := by
      rintro rfl
      rw [hkey] at hk'
      cases hk'
      exact hname (direntTest_unique htest' htest)
    exact ⟨key', e', by rw [Function.update_of_ne hne]; exact hk', htest'⟩

theorem Represents.insert {dir : Dir} {map : Name → Option Nat} (h : Represents dir map)
    {lhc : Nat} {e : Dirent} {name : Name} (hnew : map name = none) (hfree : dir lhc = none)
    (hwin : lhc / 32768 = lhcBase name / 32768) (htest : direntTest e name = true)
    (henc : e.Encoded) :
    Represents (Function.update dir lhc (some e)) (Function.update map name (some e.inum)) := by
  have hcase : ∀ key' e', Function.update dir lhc (some e) key' = some e' →
      key' = lhc ∧ e' = e ∨ dir key' = some e' := by
    intro key' e' h'
    by_cases hk : key' = lhc
    · rw [hk, Function.update_self] at h'
      exact Or.inl ⟨hk, (Option.some.inj h').symm⟩
    · rw [Function.update_of_ne hk] at h'
      exact Or.inr h'
  have hold : ∀ key' e', dir key' = some e' → direntTest e' name = false := by
    intro key' e' hk'
    cases ht : direntTest e' name with
    | false => rfl
    | true =>
      rw [(h.of_test hk' ht).2] at hnew
      cases hnew
  refine ⟨?_, ?_, ?_, ?_⟩
  · intro key' e' h'
    rcases hcase key' e' h' with ⟨_, rfl⟩ | hk'
    · exact henc
    · exact h.encoded key' e' hk'
  · intro key' e' h'
    rcases hcase key' e' h' with ⟨rfl, rfl⟩ | hk'
    · exact ⟨name, htest, hwin, Function.update_self _ _ _⟩
    · obtain ⟨name', htest', hwin', hmap⟩ := h.entry key' e' hk'
      have hname : name' ≠ name := by
        rintro rfl
        rw [hold key' e' hk'] at htest'
        cases htest'
      exact ⟨name', htest', hwin', by rw [Function.update_of_ne hname]; exact hmap⟩
  · intro k1 k2 e1 e2 n h1 h2 ht1 ht2
    rcases hcase k1 e1 h1 with ⟨rfl, rfl⟩ | hold1
    · rcases hcase k2 e2 h2 with ⟨rfl, rfl⟩ | hold2
      · rfl
      · obtain rfl := direntTest_unique ht1 htest
        rw [hold k2 e2 hold2] at ht2
        cases ht2
    · rcases hcase k2 e2 h2 with ⟨rfl, rfl⟩ | hold2
      · obtain rfl := direntTest_unique ht2 htest
        rw [hold k1 e1 hold1] at ht1
        cases ht1
      · exact h.unique k1 k2 e1 e2 n hold1 hold2 ht1 ht2
  · intro name' inum hm
    by_cases hname : name' = name
    · subst hname
      exact ⟨lhc, e, Function.update_self _ _ _, htest⟩
    · rw [Function.update_of_ne hname] at hm
      obtain ⟨key', e', hk', htest'⟩ := h.bound name' inum hm
      have hne : key' ≠ lhc := by
        rintro rfl
        rw [hfree] at hk'
        cases hk'
      exact ⟨key', e', by rw [Function.update_of_ne hne]; exact hk', htest'⟩

theorem deleteMatches_of_ne {dir : Dir} {lhc key : Nat} {e : Dirent} {name : Name}
    (hkey : dir key = some e) (htest : direntTest e name = false) :
    deleteMatches dir lhc name key = some e := by
  unfold deleteMatches
  rw [hkey]
  simp [htest]

theorem deleteMatches_some {dir : Dir} {lhc key : Nat} {e : Dirent} {name : Name}
    (h : deleteMatches dir lhc name key = some e) :
    dir key = some e ∧ ¬ (key / 32768 = lhc / 32768 ∧ direntTest e name = true) := by
  unfold deleteMatches dirhashLomask at h
  split at h
  next => cases h
  next e' hkey =>
    split at h
    next => cases h
    next hcond =>
      cases Option.some.inj h
      exact ⟨hkey, hcond⟩

/-- The sweep over the collision space unbinds the name and nothing else. -/
theorem Represents.deleteMatches {dir : Dir} {map : Name → Option Nat} (h : Represents dir map)
    {lhc : Nat} {name : Name} (hwin : lhc / 32768 = lhcBase name / 32768) :
    Represents (deleteMatches dir lhc name) (Function.update map name none) := by
  have hgone : ∀ key e, Hammer2.deleteMatches dir lhc name key = some e →
      dir key = some e ∧ direntTest e name = false := by
    intro key e hk
    obtain ⟨hkey, hcond⟩ := deleteMatches_some hk
    refine ⟨hkey, ?_⟩
    cases ht : direntTest e name with
    | false => rfl
    | true => exact absurd ⟨(h.of_test hkey ht).1.trans hwin.symm, ht⟩ hcond
  refine ⟨fun key e hk => h.encoded key e (hgone key e hk).1, ?_, ?_, ?_⟩
  · intro key e hk
    obtain ⟨hkey, hfalse⟩ := hgone key e hk
    obtain ⟨name', htest, hwin', hmap⟩ := h.entry key e hkey
    have hname : name' ≠ name := by
      rintro rfl
      rw [hfalse] at htest
      cases htest
    exact ⟨name', htest, hwin', by rw [Function.update_of_ne hname]; exact hmap⟩
  · intro k1 k2 e1 e2 n h1 h2
    exact h.unique k1 k2 e1 e2 n (hgone k1 e1 h1).1 (hgone k2 e2 h2).1
  · intro name' inum hm
    have hname : name' ≠ name := by
      rintro rfl
      rw [Function.update_self] at hm
      cases hm
    rw [Function.update_of_ne hname] at hm
    obtain ⟨key, e, hkey, htest⟩ := h.bound name' inum hm
    have hfalse : direntTest e name = false := by
      cases ht : direntTest e name with
      | false => rfl
      | true => exact absurd (direntTest_unique htest ht) hname
    exact ⟨key, e, deleteMatches_of_ne hkey hfalse, htest⟩

theorem setName_encoded (e : Dirent) (name : Name) : (e.setName name).Encoded := by
  unfold Dirent.Encoded Dirent.setName
  split
  next => exact fun _ => rfl
  next hlong => exact fun hshort => absurd hshort hlong

/-- The check code of a name block is not part of the name. -/
theorem direntTest_setCheck {e : Dirent} (crc : List (BitVec 8)) (henc : e.Encoded)
    (hdata : e.data ≠ []) (name : Name) :
    direntTest { e with check := crc } name = direntTest e name := by
  have hlong : checkBytes < e.namlen := by
    by_contra hshort
    exact hdata (henc (by omega))
  unfold direntTest
  refine decide_eq_decide.mpr (and_congr_right ?_)
  intro hlen
  change e.namlen = name.length at hlen
  rw [if_pos (by omega), if_pos (by omega)]

theorem flushCheck_some {crc : Nat → List (BitVec 8)} {dir : Dir} {map : Name → Option Nat}
    (h : Represents dir map) {key : Nat} {e : Dirent} (hk : flushCheck crc dir key = some e) :
    ∃ e0, dir key = some e0 ∧ e.inum = e0.inum ∧ e.Encoded ∧
      ∀ name, direntTest e name = direntTest e0 name := by
  obtain ⟨e0, hkey, rfl⟩ := Option.map_eq_some_iff.mp hk
  have henc := h.encoded key e0 hkey
  refine ⟨e0, hkey, ?_⟩
  by_cases hdata : e0.data = []
  · rw [if_pos hdata]
    exact ⟨rfl, henc, fun _ => rfl⟩
  · rw [if_neg hdata]
    exact ⟨rfl, henc, direntTest_setCheck (crc key) henc hdata⟩

theorem Represents.flushCheck {dir : Dir} {map : Name → Option Nat} (h : Represents dir map)
    (crc : Nat → List (BitVec 8)) : Represents (flushCheck crc dir) map := by
  refine ⟨?_, ?_, ?_, ?_⟩
  · intro key e hk
    obtain ⟨_, _, _, henc, _⟩ := flushCheck_some h hk
    exact henc
  · intro key e hk
    obtain ⟨e0, hkey, hinum, _, htest⟩ := flushCheck_some h hk
    obtain ⟨name, hname, hwin, hmap⟩ := h.entry key e0 hkey
    exact ⟨name, (htest name).trans hname, hwin, by rw [hinum]; exact hmap⟩
  · intro k1 k2 e1 e2 n h1 h2 ht1 ht2
    obtain ⟨a, ha, _, _, hta⟩ := flushCheck_some h h1
    obtain ⟨b, hb, _, _, htb⟩ := flushCheck_some h h2
    exact h.unique k1 k2 a b n ha hb ((hta n).symm.trans ht1) ((htb n).symm.trans ht2)
  · intro name inum hm
    obtain ⟨key, e0, hkey, htest⟩ := h.bound name inum hm
    have hsome : Hammer2.flushCheck crc dir key =
        some (if e0.data = [] then e0 else { e0 with check := crc key }) := by
      unfold Hammer2.flushCheck
      rw [hkey, Option.map_some]
    obtain ⟨e1, hkey1, _, _, htest1⟩ := flushCheck_some h hsome
    cases hkey.symm.trans hkey1
    exact ⟨key, _, hsome, (htest1 name).trans htest⟩

/-- Every directory stands for its part of the map. -/
def DirInv (s : DirState) : Prop := ∀ d, Represents (s.dirs d) (s.map d)

/-- A change of one directory and of its part of the map. -/
theorem DirInv.update {s : DirState} (h : DirInv s) {d : Nat} {dir : Dir}
    {map : Name → Option Nat} (hd : Represents dir map) :
    DirInv ⟨Function.update s.dirs d dir, Function.update s.map d map⟩ := by
  intro d'
  by_cases hd' : d' = d
  · subst hd'
    simp only [Function.update_self]
    exact hd
  · simp only [Function.update_of_ne hd']
    exact h d'

end Hammer2
