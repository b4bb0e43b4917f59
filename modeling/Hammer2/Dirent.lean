import Mathlib.Tactic
import Hammer2.VolumeHeader

namespace Hammer2

abbrev Name := List (BitVec 8)

/-- The characters that split a name into the parts hashed by `hammer2_dirhash`. -/
def dirhashSep (c : BitVec 8) : Bool := c = 0x2e#8 || c = 0x2d#8 || c = 0x5f#8 || c = 0x7e#8

def dirhash (name : Name) : BitVec 64 :=
  let parts := (name.splitOnP dirhashSep).filter (· ≠ [])
  let crcx := (parts.map icrc32).foldl (· + ·) 0#32 ||| 0x80000000#32
  let crc := icrc32 name
  (crcx.setWidth 64 <<< 32) ||| ((crc ^^^ (crc <<< 16)) &&& 0xFFFF0000#32).setWidth 64 ||| 0x8000#64

/-- The first key of the collision space of a name. -/
def lhcBase (name : Name) : Nat := (dirhash name).toNat

/-- `HAMMER2_DIRHASH_LOMASK` -/
def dirhashLomask : Nat := 0x7fff

/-- A directory entry. A name of up to 64 bytes is kept in the check area of the blockref, a longer
one in a data block, whose check code then occupies that area. -/
structure Dirent where
  inum : Nat
  type : Nat
  namlen : Nat
  check : List (BitVec 8)
  data : List (BitVec 8)

/-- `sizeof(chain->bref.check.buf)` -/
def checkBytes : Nat := 64

/-- `hammer2_chain_dirent_test` -/
def direntTest (e : Dirent) (name : Name) : Bool :=
  e.namlen = name.length ∧
    if checkBytes < name.length then e.data.take name.length = name
    else e.check.take name.length = name

/-- `bcopy` into a zeroed buffer. -/
def nameBuf (bytes : Nat) (name : Name) : List (BitVec 8) :=
  name ++ List.replicate (bytes - name.length) 0#8

/-- The entry with its name replaced, in the encoding that the length of the name calls for. -/
def Dirent.setName (e : Dirent) (name : Name) : Dirent :=
  if name.length ≤ checkBytes then
    { e with namlen := name.length, check := nameBuf checkBytes name, data := [] }
  else { e with namlen := name.length, data := nameBuf 1024 name }

/-- The live entries of a directory by key. -/
abbrev Dir := Nat → Option Dirent

/-- What `hammer2_chain_lookup` and `hammer2_chain_next` return for `n` keys from `beg` on. -/
def lookupRange (dir : Dir) (beg : Nat) : Nat → List (Nat × Dirent)
  | 0 => []
  | n + 1 =>
    match dir beg with
    | none => lookupRange dir (beg + 1) n
    | some e => (beg, e) :: lookupRange dir (beg + 1) n

/-- The scan of the collision space of a name. -/
def window (dir : Dir) (base : Nat) : List (Nat × Dirent) := lookupRange dir base (dirhashLomask + 1)

/-- The loop that walks past the used keys of a collision space. -/
def scanLhc : Nat → List (Nat × Dirent) → Nat
  | lhc, [] => lhc + 1
  | lhc, (key, _) :: rest => if lhc ≠ key then lhc else scanLhc (lhc + 1) rest

/-- The key chosen for a new entry; `none` if it leaves the collision space. -/
def pickLhc (dir : Dir) (name : Name) : Option Nat :=
  let base := lhcBase name
  let lhc := scanLhc base (window dir base)
  if lhc / (dirhashLomask + 1) = base / (dirhashLomask + 1) then some lhc else none

/-- The first entry of the collision space that has the name. -/
def direntLookup (dir : Dir) (name : Name) : Option (Nat × Dirent) :=
  (window dir (lhcBase name)).find? fun p => direntTest p.2 name

theorem dirhash_low {i : Nat} (name : Name) (h : i < 15) : (dirhash name).getLsbD i = false := by
  unfold dirhash
  have hi : i < 32 := by omega
  have hmask : (0xFFFF0000#32).getLsbD i = false := by
    interval_cases i <;> rfl
  have hbit : (0x8000#64).getLsbD i = false := by
    interval_cases i <;> rfl
  simp only [BitVec.getLsbD_or, BitVec.getLsbD_shiftLeft, BitVec.getLsbD_setWidth,
    BitVec.getLsbD_and, hmask, hbit, hi, decide_true, Bool.not_true, Bool.and_false, Bool.false_and,
    Bool.or_false]

/-- Collision spaces are aligned. -/
theorem lhcBase_mod (name : Name) : lhcBase name % 32768 = 0 := by
  have hz : (dirhash name).setWidth 15 = 0#15 := by
    apply BitVec.eq_of_getLsbD_eq
    intro i hi
    rw [BitVec.getLsbD_setWidth, dirhash_low name hi]
    simp
  have ht := congrArg BitVec.toNat hz
  rw [BitVec.toNat_setWidth] at ht
  exact ht

theorem mem_lookupRange {dir : Dir} {beg n key : Nat} {e : Dirent} :
    (key, e) ∈ lookupRange dir beg n ↔ beg ≤ key ∧ key < beg + n ∧ dir key = some e := by
  induction n generalizing beg with
  | zero =>
    simp only [lookupRange, List.not_mem_nil, false_iff]
    omega
  | succ n ih =>
    unfold lookupRange
    split
    next hnone =>
      rw [ih]
      constructor
      · rintro ⟨h1, h2, h3⟩
        exact ⟨by omega, by omega, h3⟩
      · rintro ⟨h1, h2, h3⟩
        have hne : key ≠ beg := by
          rintro rfl
          rw [hnone] at h3
          cases h3
        exact ⟨by omega, by omega, h3⟩
    next e' hsome =>
      rw [List.mem_cons, ih]
      constructor
      · rintro (heq | ⟨h1, h2, h3⟩)
        · obtain ⟨rfl, rfl⟩ := Prod.mk.inj heq
          exact ⟨by omega, by omega, hsome⟩
        · exact ⟨by omega, by omega, h3⟩
      · rintro ⟨h1, h2, h3⟩
        by_cases hkey : key = beg
        · subst hkey
          rw [hsome] at h3
          cases h3
          exact Or.inl rfl
        · exact Or.inr ⟨by omega, by omega, h3⟩

theorem mem_window {dir : Dir} {name : Name} {key : Nat} {e : Dirent} :
    (key, e) ∈ window dir (lhcBase name) ↔
      key / 32768 = lhcBase name / 32768 ∧ dir key = some e := by
  have hmod := lhcBase_mod name
  unfold window dirhashLomask
  rw [mem_lookupRange]
  constructor
  · rintro ⟨h1, h2, h3⟩
    exact ⟨by omega, h3⟩
  · rintro ⟨h1, h2⟩
    exact ⟨by omega, by omega, h2⟩

/-- An entry has at most one name. -/
theorem direntTest_unique {e : Dirent} {name name' : Name} (h : direntTest e name = true)
    (h' : direntTest e name' = true) : name = name' := by
  unfold direntTest at h h'
  simp only [decide_eq_true_eq] at h h'
  obtain ⟨hlen, hbuf⟩ := h
  obtain ⟨hlen', hbuf'⟩ := h'
  have heq : name.length = name'.length := hlen.symm.trans hlen'
  rw [← heq] at hbuf'
  split at hbuf
  next hlong =>
    rw [if_pos hlong] at hbuf'
    exact hbuf.symm.trans hbuf'
  next hshort =>
    rw [if_neg hshort] at hbuf'
    exact hbuf.symm.trans hbuf'

@[simp]
theorem setName_type (e : Dirent) (name : Name) : (e.setName name).type = e.type := by
  unfold Dirent.setName
  split <;> rfl

end Hammer2
