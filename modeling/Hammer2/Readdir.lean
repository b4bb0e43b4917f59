import Hammer2.Run
import Hammer2.WindowsListing

/-! Reading a directory in pages with `hammer2_readdir`. -/

namespace Hammer2

/-- The types of the blockrefs below a directory. -/
inductive DirElemType where
  | inode (inum type : Nat) (name : Name)
  | dirent (e : Dirent)
  | other

/-- A chain that `hammer2_xop_readdir` feeds; `error` says that the collector reports an error for
it. -/
structure DirElem where
  key : Nat
  type : DirElemType
  error : Bool

/-- What a record says about an entry. -/
structure DirEntry where
  fileno : Nat
  type : Nat
  name : Name
deriving DecidableEq

/-- `hammer2_get_dtype` -/
def getDtype : Nat → Nat
  | 1 => 4
  | 2 => 8
  | 4 => 1
  | 5 => 2
  | 6 => 6
  | 7 => 10
  | 9 => 12
  | _ => 0

/-- A key without bit 63 (`HAMMER2_DIRHASH_USERMSK`). -/
def userKey (key : Nat) : Nat := key % dirhashVisible

def DirElem.entry (c : DirElem) : Option DirEntry :=
  match c.type with
  | .inode inum type name => some ⟨userKey inum, getDtype type, name⟩
  | .dirent e => some ⟨e.inum, getDtype e.type, direntName e⟩
  | .other => none

/-- A directory inode with its chains in the order of their keys, whose low parts do not meet the
offsets of the artificial entries. -/
structure DirInode where
  inum : Nat
  iparent : Nat
  isRoot : Bool
  chains : List DirElem
  sorted : chains.Pairwise fun a b => a.key < b.key
  visible : ∀ c ∈ chains, dirhashVisible + 0x8000 ≤ c.key ∧ c.key ≤ keyMax
  typed : ∀ c ∈ chains, c.entry.isSome

/-- `struct h2dirent` -/
structure H2Dirent where
  entry : DirEntry
  off : Nat
  reclen : Nat
  namlen : Nat

/-- `_GENERIC_DIRLEN` -/
def genericDirlen (namlen : Nat) : Nat := 24 + namlen + 1

def DirEntry.reclen (e : DirEntry) : Nat := genericDirlen e.name.length

/-- `hammer2_write_dirent`; `none` when the record does not fit. -/
def writeDirent (resid uioOff : Nat) (e : DirEntry) : Option H2Dirent :=
  if resid < e.reclen then none else some ⟨e, uioOff + e.reclen, e.reclen, e.name.length⟩

/-- How the loop of `hammer2_readdir` ends, with the last blockref it has copied. -/
inductive LoopEnd where
  | enoent
  | failed (bref : Nat)
  | stopped (bref : Nat)
deriving DecidableEq

/-- The loop over the collected chains. Each record comes with its cookie. -/
def readdirLoop (ncookies : Option Nat) (uioOff : Nat) :
    List DirElem → Nat → Nat → Nat → List (H2Dirent × Nat) × LoopEnd
  | [], _, _, _ => ([], .enoent)
  | c :: cs, resid, index, bref =>
    if c.error then ([], .failed bref)
    else if ncookies = some index then ([], .stopped bref)
    else match c.entry with
      | none => readdirLoop ncookies uioOff cs resid index c.key
      | some e =>
        match writeDirent resid uioOff e with
        | none => ([], .stopped c.key)
        | some de =>
          let r := readdirLoop ncookies uioOff cs (resid - de.reclen) (index + 1) c.key
          ((de, userKey c.key) :: r.1, r.2)

/-- The variables of `hammer2_readdir` while it writes the artificial entries. -/
structure DotState where
  saveoff : Nat
  resid : Nat
  index : Nat
  records : List (H2Dirent × Nat)
  done : Bool

/-- The block for one artificial entry, whose offset is `pos`. -/
def writeDot (ncookies : Option Nat) (uioOff pos : Nat) (e : DirEntry) (s : DotState) : DotState :=
  if s.done ∨ s.saveoff ≠ pos then s
  else match writeDirent s.resid uioOff e with
    | none => { s with done := true }
    | some de => ⟨s.saveoff + 1, s.resid - de.reclen, s.index + 1, s.records ++ [(de, s.saveoff)],
        decide (ncookies = some (s.index + 1))⟩

/-- `DT_DIR` -/
def dtDir : Nat := 4

def DirInode.dot (d : DirInode) : DirEntry := ⟨userKey d.inum, dtDir, [0x2e]⟩

/-- `..`, which does not lead out of the PFS. -/
def DirInode.dotdot (d : DirInode) : DirEntry :=
  ⟨userKey (if d.isRoot then d.inum else d.iparent), dtDir, [0x2e, 0x2e]⟩

/-- The buffer of a call, whether it wants cookies, and what happens to be in the local `bref` at its
start. -/
structure ReaddirCall where
  resid : Nat
  cookies : Bool
  bref : Nat

/-- The size of the cookie array. -/
def ReaddirCall.ncookies (c : ReaddirCall) : Option Nat :=
  if c.cookies then some (min (c.resid / 16 + 1) 1024) else none

structure ReaddirReply where
  records : List (H2Dirent × Nat)
  eof : Bool
  failed : Bool
  offset : Nat

/-- The chains that `hammer2_xop_readdir` finds from `lkey` on. -/
def DirInode.scanFrom (d : DirInode) (off : Nat) : List DirElem :=
  d.chains.filter fun c => dirhashVisible + userKey off ≤ c.key

/-- `hammer2_readdir` -/
def readdir (d : DirInode) (off : Nat) (c : ReaddirCall) : ReaddirReply :=
  let s := writeDot c.ncookies off 1 d.dotdot
    (writeDot c.ncookies off 0 d.dot ⟨off, c.resid, 0, [], false⟩)
  if s.done then ⟨s.records, false, false, userKey s.saveoff⟩
  else
    let r := readdirLoop c.ncookies off (d.scanFrom s.saveoff) s.resid s.index c.bref
    match r.2 with
    | .enoent => ⟨s.records ++ r.1, true, false, userKey keyMax⟩
    | .failed bref => ⟨s.records ++ r.1, false, true, userKey bref⟩
    | .stopped bref => ⟨s.records ++ r.1, false, false, userKey bref⟩

def entriesOf (records : List (H2Dirent × Nat)) : List DirEntry := records.map fun r => r.1.entry

/-- The entries of a list of chains. -/
def chainEntries (cs : List DirElem) : List DirEntry := cs.filterMap DirElem.entry

/-- `.`, `..` and every entry, from an offset on. -/
def DirInode.entriesFrom (d : DirInode) (off : Nat) : List DirEntry :=
  (if off = 0 then [d.dot] else []) ++ (if off ≤ 1 then [d.dotdot] else []) ++
    chainEntries (d.scanFrom off)

/-- The records that fill the cookie array fit the buffer, and there is an entry after them. -/
def FillsCookies (ncookies : Option Nat) (resid : Nat) (es : List DirEntry) : Prop :=
  ∃ n, ncookies = some n ∧ n < es.length ∧ ((es.take n).map DirEntry.reclen).sum ≤ resid

section Loop

variable {nc : Option Nat} {uioOff resid index bref : Nat} {cs : List DirElem}

theorem writeDirent_some {e : DirEntry} {de : H2Dirent} (h : writeDirent resid uioOff e = some de) :
    e.reclen ≤ resid ∧ de.entry = e ∧ de.reclen = e.reclen := by
  obtain ⟨hfit, heq⟩ := Option.ite_none_left_eq_some.mp h
  cases Option.some.inj heq
  exact ⟨by omega, rfl, rfl⟩

theorem writeDirent_none {e : DirEntry} (h : writeDirent resid uioOff e = none) :
    resid < e.reclen := by
  by_contra hfit
  unfold writeDirent at h
  rw [if_neg hfit] at h
  cases h

end Loop

section Scan

variable {d : DirInode}

end Scan

section Dots

variable {d : DirInode} {nc : Option Nat} {uioOff resid off : Nat}

/-- Where the artificial entries have come to: what is written and what is left make up the entries
from the first offset on, and if it is done early, that is for want of cookies or of room. -/
structure DotsWritten (d : DirInode) (nc : Option Nat) (off resid : Nat) (s : DotState) : Prop where
  entries : entriesOf s.records ++ d.entriesFrom s.saveoff = d.entriesFrom off
  room : s.resid + ((entriesOf s.records).map DirEntry.reclen).sum = resid
  index : s.index = s.records.length
  index_le : s.index ≤ s.saveoff
  slots : ∀ n, nc = some n → s.index ≤ n ∧ (s.done = false → s.index < n)
  early : s.done = true → s.saveoff ≤ 2 ∧ (nc = some s.index ∨
    ∃ e rest, d.entriesFrom s.saveoff = e :: rest ∧ s.resid < e.reclen)

theorem DotsWritten.writeDot {s : DotState} (h : DotsWritten d nc off resid s) {pos : Nat}
    {e : DirEntry} (hpos : pos ≤ 1) (he : d.entriesFrom pos = e :: d.entriesFrom (pos + 1)) :
    DotsWritten d nc off resid (writeDot nc uioOff pos e s) := by
  unfold Hammer2.writeDot
  split
  next => exact h
  next hgo =>
    have hdone : s.done = false := by simpa using fun hd => hgo (Or.inl hd)
    have hat : s.saveoff = pos := by
      by_contra hne
      exact hgo (Or.inr hne)
    cases hw : writeDirent s.resid uioOff e with
    | none =>
      refine ⟨h.entries, h.room, h.index, h.index_le, ?_, ?_⟩
      · intro n hn
        exact ⟨(h.slots n hn).1, fun hf => by cases hf⟩
      · intro _
        refine ⟨by dsimp only; omega, Or.inr ⟨e, d.entriesFrom (pos + 1), ?_, writeDirent_none hw⟩⟩
        exact hat ▸ he
    | some de =>
      obtain ⟨hfit, hentry, hlen⟩ := writeDirent_some hw
      have hroom := h.room
      have hrec : entriesOf (s.records ++ [(de, s.saveoff)]) = entriesOf s.records ++ [e] := by
        unfold entriesOf
        rw [List.map_append, ← hentry]
        rfl
      refine ⟨?_, ?_, ?_, ?_, ?_, ?_⟩
      · dsimp only
        rw [hrec, ← h.entries, hat, he, List.append_assoc]
        rfl
      · dsimp only
        rw [hrec, List.map_append, List.sum_append, hlen]
        simp
        omega
      · dsimp only
        rw [List.length_append, h.index]
        rfl
      · exact Nat.succ_le_succ h.index_le
      · intro n hn
        have hlt := (h.slots n hn).2 hdone
        refine ⟨hlt, ?_⟩
        intro hd
        have hne : n ≠ s.index + 1 := by
          intro heq
          subst heq
          simp [hn] at hd
        dsimp only
        omega
      · intro hd
        exact ⟨by dsimp only; omega, Or.inl (by simpa using hd)⟩

end Dots

section Call

variable {d : DirInode} {off : Nat} {c : ReaddirCall}

/-- A full cookie array has its largest size. -/
theorem FillsCookies.slots {es : List DirEntry} (h : FillsCookies c.ncookies c.resid es) :
    c.ncookies = some 1024 := by
  have hmin : ∀ l : List DirEntry, 25 * l.length ≤ (l.map DirEntry.reclen).sum := by
    intro l
    induction l with
    | nil => exact Nat.le_refl _
    | cons e l ih =>
      have he : 25 ≤ e.reclen := by
        unfold DirEntry.reclen genericDirlen
        omega
      rw [List.length_cons, List.map_cons, List.sum_cons]
      omega
  obtain ⟨n, hn, hlt, hsum⟩ := h
  have hlen := hmin (es.take n)
  rw [List.length_take, Nat.min_eq_left hlt.le] at hlen
  obtain ⟨-, heq⟩ := Option.ite_none_right_eq_some.mp hn
  have hval := Option.some.inj heq
  rw [hn]
  congr 1
  omega

end Call

section Pages

variable {d : DirInode} {s s' : ListingState} {c : ReaddirCall}

end Pages

end Hammer2
