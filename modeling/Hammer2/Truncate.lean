import Hammer2.InodeSync
import Hammer2.Run
import Hammer2.WindowsRead

namespace Hammer2

/-- The halvings of the block size in `hammer2_calc_physical`. -/
def shrinkBlock (eofbytes : Nat) : Nat → Nat → Nat
  | 0, pblksize => pblksize
  | n + 1, pblksize =>
    if eofbytes ≤ pblksize ∧ 1024 ≤ pblksize then shrinkBlock eofbytes n (pblksize / 2) else pblksize

/-- `hammer2_calc_physical` -/
def calcPhysical (size lbase : Nat) : Nat :=
  if lbase + 65536 ≤ size then 65536
  else if size ≤ lbase then 0
  else 2 * shrinkBlock (size - lbase) 7 65536

/-- A buffer, as the bytes at its offsets. -/
abbrev FileBuf := Nat → BitVec 8

/-- A regular file: the size of before the last change and now, `HAMMER2_INODE_RESIZED`, the flag and
the area for embedded data, the data chains by block number with their physical size, and the bytes
that the operations so far stand for. -/
structure FileState where
  osize : Nat
  size : Nat
  resized : Bool
  directdata : Bool
  area : FileBuf
  blocks : Nat → Option (Nat × FileBuf)
  content : FileBuf

/-- A file after its creation. -/
def fileInit : FileState :=
  { osize := 0, size := 0, resized := false, directdata := true, area := fun _ => 0#8,
    blocks := fun _ => none, content := fun _ => 0#8 }

/-- `hammer2_xop_strategy_read` of block `b` with `hammer2_strategy_read_completion`. The lookup finds
the inode of a file with embedded data for every block. -/
def FileState.readBlock (s : FileState) (b : Nat) : FileBuf := fun i =>
  if s.directdata then if i < embeddedBytes then s.area i else 0#8
  else
    match s.blocks b with
    | none => 0#8
    | some (bytes, data) => if i < bytes then data i else 0#8

/-- The byte at a position of the file. -/
def FileState.read (s : FileState) (p : Nat) : BitVec 8 := s.readBlock (p / 65536) (p % 65536)

/-- `test_block_zeros` -/
def testBlockZeros (data : FileBuf) (bytes : Nat) : Bool := (List.range bytes).all fun i => data i = 0#8

/-- The bytes that a write of the block at its place in the file leaves below the end of the file. -/
def writeContent (s : FileState) (b : Nat) (data : FileBuf) : FileBuf := fun p =>
  if p / 65536 = b ∧ p < s.size then data (p % 65536) else s.content p

/-- `hammer2_write_file_core` of a block; `zeroCheck` says that the compression and check settings make
all-zeros writes holes. `none` is a failed assertion. -/
def writeFileCore (s : FileState) (zeroCheck : Bool) (b : Nat) (data : FileBuf) : Option FileState :=
  let pblksize := calcPhysical s.size (b * 65536)
  let s := { s with content := writeContent s b data }
  if zeroCheck ∧ testBlockZeros data pblksize then
    if s.directdata then some { s with area := fun _ => 0#8 }
    else some { s with blocks := Function.update s.blocks b none }
  else if pblksize < 1024 then none
  else if s.directdata then some { s with area := data }
  else some { s with blocks := Function.update s.blocks b (some (pblksize, data)) }

/-- What is written counts up to the end of the file, and what lies beyond it is gone. -/
def cutContent (content : FileBuf) (size : Nat) : FileBuf := fun p =>
  if p < size then content p else 0#8

/-- `hammer2_truncate_file`; `vtruncbuf` does nothing here. -/
def truncateFile (s : FileState) (nsize : Nat) : Option FileState :=
  if nsize < s.size ∧ s.resized = false then
    some { s with osize := s.size, size := nsize, resized := true, content := cutContent s.content nsize }
  else none

/-- `hammer2_inode_chain_sync` of a resized file without failures. -/
def syncFile (s : FileState) : FileState :=
  if s.resized then
    let clearDirectdata := s.directdata && embeddedBytes < s.size
    let blocks :=
      if s.size < s.osize ∧ s.directdata = false then
        fun b => if truncBase s.size ≤ b * 65536 then none else s.blocks b
      else s.blocks
    { s with
      resized := false
      directdata := s.directdata && !clearDirectdata
      area := if clearDirectdata then fun _ => 0#8 else s.area
      blocks := blocks }
  else s

/-- `hammer2_extend_file`. Where the embedded data no longer fits, `bread` fails and nothing is written
back. -/
def extendFile (s : FileState) (nsize : Nat) : Option FileState :=
  if s.size < nsize ∧ nsize < 2 ^ 63 ∧ s.resized = false then
    let s' := { s with osize := s.size, size := nsize }
    if s.size ≤ embeddedBytes ∧ embeddedBytes < nsize then some (syncFile { s' with resized := true })
    else some s'
  else none

inductive FileAction where
  | write (zeroCheck : Bool) (b : Nat) (data : FileBuf)
  | truncate (nsize : Nat)
  | sync
  | extend (nsize : Nat)

def fileStep (s : FileState) : FileAction → Option FileState
  | .write zeroCheck b data => writeFileCore s zeroCheck b data
  | .truncate nsize => truncateFile s nsize
  | .sync => some (syncFile s)
  | .extend nsize => extendFile s nsize

/-- The block begins below the end of the file, or nothing embedded and no truncation that waits for its
sync can be read in its place. -/
def FileState.InScope (s : FileState) (p : Nat) : Prop :=
  p / 65536 * 65536 < s.size ∨ s.directdata = false ∧ s.resized = false

/-- A block read returns what was written last and zeros where the file was cut or never written. -/
def Discarded (s : FileState) : Prop := ∀ p, s.InScope p → s.read p = s.content p

/-- The bytes of the buffer that a write of the block puts on the media. -/
def FileState.stored (s : FileState) (b : Nat) : Nat :=
  if s.directdata then embeddedBytes else calcPhysical s.size (b * 65536)

/-- A write has zeros beyond the end of the file, and if its block lies beyond that, no embedded data is
there to be hit; a truncation has zeros in the rest of the block of the new end; an extension neither
makes embedded data move nor uncovers what an earlier truncation left there. -/
def FileStepOk (s : FileState) : FileAction → Prop
  | .write _ b data =>
    if b * 65536 < s.size then ∀ i < s.stored b, s.size ≤ b * 65536 + i → data i = 0#8
    else s.directdata = true → ∀ p < s.size, s.read p = 0#8
  | .truncate nsize => ∀ p, nsize ≤ p → p / 65536 * 65536 < nsize → s.read p = 0#8
  | .sync => True
  | .extend nsize =>
    s.directdata = true →
      if embeddedBytes < nsize then ∀ p < s.size, s.read p = 0#8
      else s.size = 0 → ∀ p < embeddedBytes, s.read p = 0#8

/-- A file with embedded data is short and has no data chains, and nothing is written beyond the end of a
file. -/
structure FileInv (s : FileState) : Prop where
  size_lt : s.size < 2 ^ 63
  cut : ∀ p, s.size ≤ p → s.content p = 0#8
  short : s.directdata = true → s.size ≤ embeddedBytes
  empty : s.directdata = true → ∀ b, s.blocks b = none
  shrunk : s.resized = true → s.size < s.osize

section Read

variable {s s' : FileState}

theorem read_direct (h : s.directdata = true) (p : Nat) :
    s.read p = if p % 65536 < embeddedBytes then s.area (p % 65536) else 0#8 := by
  unfold FileState.read FileState.readBlock
  rw [if_pos h]

theorem read_hole (h : s.directdata = false) {p : Nat} (hb : s.blocks (p / 65536) = none) :
    s.read p = 0#8 := by
  unfold FileState.read FileState.readBlock
  rw [if_neg (by simp [h]), hb]

theorem read_block (h : s.directdata = false) {p bytes : Nat} {data : FileBuf}
    (hb : s.blocks (p / 65536) = some (bytes, data)) :
    s.read p = if p % 65536 < bytes then data (p % 65536) else 0#8 := by
  unfold FileState.read FileState.readBlock
  rw [if_neg (by simp [h]), hb]

/-- A block reads the same in two states that agree on it. -/
theorem read_congr {p : Nat} (hd : s'.directdata = s.directdata) (ha : s'.area = s.area)
    (hb : s'.blocks (p / 65536) = s.blocks (p / 65536)) : s'.read p = s.read p := by
  unfold FileState.read FileState.readBlock
  rw [hd, ha, hb]

theorem inScope_of_lt {p : Nat} (h : p < s.size) : s.InScope p :=
  Or.inl (lt_of_le_of_lt (Nat.div_mul_le_self p 65536) h)

theorem inScope_direct (hd : s.directdata = true) (hs : s.size ≤ embeddedBytes) {p : Nat}
    (h : s.InScope p) : p / 65536 = 0 ∧ 0 < s.size := by
  unfold embeddedBytes at hs
  rcases h with h | h
  · omega
  · rw [hd] at h
    cases h.1

theorem shrinkBlock_spec (eofbytes n : Nat) (h : eofbytes ≤ 2 * (512 * 2 ^ n)) :
    eofbytes ≤ 2 * shrinkBlock eofbytes n (512 * 2 ^ n) ∧
      512 ≤ shrinkBlock eofbytes n (512 * 2 ^ n) := by
  induction n with
  | zero => exact ⟨h, le_refl _⟩
  | succ n ih =>
    have hhalf : 512 * 2 ^ (n + 1) / 2 = 512 * 2 ^ n := by
      rw [pow_succ, ← Nat.mul_assoc, Nat.mul_div_cancel _ (Nat.succ_pos 1)]
    have hpos : 0 < 2 ^ (n + 1) := Nat.two_pow_pos _
    unfold shrinkBlock
    split
    next hc =>
      rw [hhalf]
      refine ih ?_
      have hc' := hc.1
      rw [pow_succ] at hc'
      omega
    next => exact ⟨h, by omega⟩

/-- The physical size covers the block up to the end of the file. -/
theorem calcPhysical_covers {size lbase : Nat} (h : lbase < size) :
    min (size - lbase) 65536 ≤ calcPhysical size lbase ∧ 1024 ≤ calcPhysical size lbase := by
  unfold calcPhysical
  split
  next => exact ⟨Nat.min_le_right _ _, by decide⟩
  next hlast =>
    rw [if_neg (by omega)]
    have hspec := shrinkBlock_spec (size - lbase) 7 (by omega)
    have hbase : 512 * 2 ^ 7 = 65536 := by decide
    rw [hbase] at hspec
    omega

theorem shrinkBlock_le (eofbytes n pblksize : Nat) : shrinkBlock eofbytes n pblksize ≤ pblksize := by
  induction n generalizing pblksize with
  | zero => exact le_refl _
  | succ n ih =>
    unfold shrinkBlock
    split
    next => exact (ih _).trans (Nat.div_le_self _ _)
    next => exact le_refl _

theorem calcPhysical_le (size lbase : Nat) : calcPhysical size lbase ≤ 65536 := by
  unfold calcPhysical
  split
  next => exact le_refl _
  next hlast =>
    split
    next => exact Nat.zero_le _
    next =>
      have hstep : shrinkBlock (size - lbase) 7 65536 = shrinkBlock (size - lbase) 6 32768 := by
        rw [shrinkBlock, if_pos ⟨by omega, by decide⟩]
      have := shrinkBlock_le (size - lbase) 6 32768
      omega

theorem calcPhysical_beyond {size lbase : Nat} (h : size ≤ lbase) : calcPhysical size lbase = 0 := by
  unfold calcPhysical
  rw [if_neg (by omega), if_pos h]

theorem testBlockZeros_iff {data : FileBuf} {bytes : Nat} :
    testBlockZeros data bytes = true ↔ ∀ i < bytes, data i = 0#8 := by
  unfold testBlockZeros
  simp

end Read

section Write

variable {s s' : FileState} {zeroCheck : Bool} {b : Nat} {data : FileBuf}

/-- What a write does: it makes a hole or clears the embedded data, or it stores the buffer. -/
theorem writeFileCore_cases (h : writeFileCore s zeroCheck b data = some s') :
    (∀ i < calcPhysical s.size (b * 65536), data i = 0#8) ∧ s.directdata = true ∧
        s' = { s with content := writeContent s b data, area := fun _ => 0#8 } ∨
      (∀ i < calcPhysical s.size (b * 65536), data i = 0#8) ∧ s.directdata = false ∧
        s' = { s with
          content := writeContent s b data, blocks := Function.update s.blocks b none } ∨
      b * 65536 < s.size ∧ s.directdata = true ∧
        s' = { s with content := writeContent s b data, area := data } ∨
      b * 65536 < s.size ∧ s.directdata = false ∧
        s' = { s with
          content := writeContent s b data
          blocks := Function.update s.blocks b (some (calcPhysical s.size (b * 65536), data)) } := by
  unfold writeFileCore at h
  dsimp only at h
  split at h
  next hz =>
    have hz' := testBlockZeros_iff.mp hz.2
    split at h
    next hd =>
      cases h
      exact Or.inl ⟨hz', hd, rfl⟩
    next hd =>
      cases h
      exact Or.inr (Or.inl ⟨hz', by simpa using hd, rfl⟩)
  next =>
    split at h
    next => cases h
    next hp =>
      have hlt : b * 65536 < s.size := by
        by_contra hge
        rw [calcPhysical_beyond (Nat.le_of_not_lt hge)] at hp
        omega
      split at h
      next hd =>
        cases h
        exact Or.inr (Or.inr (Or.inl ⟨hlt, hd, rfl⟩))
      next hd =>
        cases h
        exact Or.inr (Or.inr (Or.inr ⟨hlt, by simpa using hd, rfl⟩))

theorem writeContent_of_ne {p : Nat} (h : p / 65536 ≠ b) : writeContent s b data p = s.content p := by
  unfold writeContent
  rw [if_neg fun hc => h hc.1]

theorem writeContent_of_ge {p : Nat} (h : s.size ≤ p) : writeContent s b data p = s.content p := by
  unfold writeContent
  rw [if_neg fun hc => absurd hc.2 (by omega)]

theorem writeContent_of_lt {p : Nat} (hb : p / 65536 = b) (h : p < s.size) :
    writeContent s b data p = data (p % 65536) := by
  unfold writeContent
  rw [if_pos ⟨hb, h⟩]

/-- The part of a block below the end of the file is within its physical size. -/
theorem mod_lt_physical {p : Nat} (hb : p / 65536 = b) (h : p < s.size) :
    p % 65536 < calcPhysical s.size (b * 65536) := by
  have hcov : min (s.size - b * 65536) 65536 ≤ calcPhysical s.size (b * 65536) :=
    (calcPhysical_covers (by omega)).1
  omega

/-- What every write keeps. -/
structure Wrote (s s' : FileState) (b : Nat) (data : FileBuf) : Prop where
  size : s'.size = s.size
  osize : s'.osize = s.osize
  resized : s'.resized = s.resized
  directdata : s'.directdata = s.directdata
  content : s'.content = writeContent s b data

theorem Wrote.inScope (w : Wrote s s' b data) (p : Nat) : s'.InScope p ↔ s.InScope p := by
  unfold FileState.InScope
  rw [w.size, w.directdata, w.resized]

theorem Wrote.inv (w : Wrote s s' b data) (hi : FileInv s)
    (hb : s.directdata = true → ∀ b, s'.blocks b = none) : FileInv s' := by
  refine ⟨by rw [w.size]; exact hi.size_lt, fun p hp => ?_, ?_, ?_, ?_⟩
  · rw [w.size] at hp
    rw [w.content, writeContent_of_ge hp, hi.cut p hp]
  · rw [w.directdata, w.size]
    exact hi.short
  · rw [w.directdata]
    exact hb
  · rw [w.resized, w.size, w.osize]
    exact hi.shrunk

/-- Embedded data that is cleared or replaced: only block 0 is in scope. -/
theorem Wrote.direct_iff (w : Wrote s s' b data) (hi : FileInv s) (hp : Discarded s)
    (hd : s.directdata = true)
    (harea : ∀ i < embeddedBytes, s'.area i = if b * 65536 < s.size then data i else 0#8) :
    Discarded s' ↔ FileStepOk s (.write zeroCheck b data) := by
  have hsize := hi.short hd
  have hread : ∀ p, p / 65536 = 0 → s'.read p =
      if p < embeddedBytes then if b * 65536 < s.size then data p else 0#8 else 0#8 := by
    intro p h0
    have hmod : p % 65536 = p := Nat.mod_eq_of_lt (by omega)
    rw [read_direct (w.directdata.trans hd), hmod]
    split
    next hlt => exact harea p hlt
    next => rfl
  have hiff : Discarded s' ↔ ∀ p, s.InScope p → s'.read p = writeContent s b data p := by
    unfold Discarded
    simp only [w.inScope, w.content]
  rw [hiff]
  unfold FileStepOk
  dsimp only
  split
  next hlt =>
    have hb : b = 0 := by
      unfold embeddedBytes at hsize
      omega
    have hstored : s.stored b = embeddedBytes := if_pos hd
    simp only [if_pos hlt] at hread
    rw [hstored]
    constructor
    · intro h i hilt hge
      have hi0 : i / 65536 = 0 := by
        unfold embeddedBytes at hilt
        omega
      have hscope : s.InScope i := by
        refine Or.inl ?_
        rw [hi0, Nat.zero_mul]
        exact Nat.zero_lt_of_lt hlt
      have hge' : s.size ≤ i := by omega
      have hr := h i hscope
      rwa [hread i hi0, if_pos hilt, writeContent_of_ge hge', hi.cut i hge'] at hr
    · intro h p hscope
      obtain ⟨h0, -⟩ := inScope_direct hd hsize hscope
      rw [hread p h0]
      by_cases hps : p < s.size
      · have hmod : p % 65536 = p := Nat.mod_eq_of_lt (by omega)
        rw [if_pos (by omega), writeContent_of_lt (h0.trans hb.symm) hps, hmod]
      · have hge : s.size ≤ p := by omega
        rw [writeContent_of_ge hge, hi.cut p hge]
        split
        next hpe => exact h p hpe (by omega)
        next => rfl
  next hge =>
    have hzero : ∀ p, p / 65536 = 0 → s'.read p = 0#8 := by
      intro p h0
      rw [hread p h0, if_neg hge]
      split <;> rfl
    constructor
    · intro h _ p hps
      have h0 : p / 65536 = 0 := by
        unfold embeddedBytes at hsize
        omega
      have hne : p / 65536 ≠ b := by omega
      have hscope := inScope_of_lt hps
      rw [hp p hscope, ← writeContent_of_ne hne, ← h p hscope, hzero p h0]
    · intro h p hscope
      obtain ⟨h0, -⟩ := inScope_direct hd hsize hscope
      rw [hzero p h0]
      by_cases hps : p < s.size
      · have hne : p / 65536 ≠ b := by omega
        rw [writeContent_of_ne hne, ← hp p hscope, h hd p hps]
      · have hge : s.size ≤ p := by omega
        rw [writeContent_of_ge hge, hi.cut p hge]

/-- A block that becomes a hole or is stored: the other blocks read as before. -/
theorem Wrote.block_iff (w : Wrote s s' b data) (hi : FileInv s) (hp : Discarded s)
    (hd : s.directdata = false) (hother : ∀ c, c ≠ b → s'.blocks c = s.blocks c)
    (harea : s'.area = s.area)
    (hread : ∀ p, p / 65536 = b → s'.read p =
      if p % 65536 < calcPhysical s.size (b * 65536) then data (p % 65536) else 0#8) :
    Discarded s' ↔ FileStepOk s (.write zeroCheck b data) := by
  have hiff : Discarded s' ↔ ∀ p, s.InScope p → s'.read p = writeContent s b data p := by
    unfold Discarded
    simp only [w.inScope, w.content]
  have hstored : s.stored b = calcPhysical s.size (b * 65536) := by
    unfold FileState.stored
    rw [if_neg (by simp [hd])]
  have hrest : ∀ p, p / 65536 ≠ b → s.InScope p → s'.read p = writeContent s b data p := by
    intro p hne hscope
    rw [writeContent_of_ne hne, ← hp p hscope]
    exact read_congr w.directdata harea (hother _ hne)
  rw [hiff]
  unfold FileStepOk
  dsimp only
  split
  next hlt =>
    rw [hstored]
    constructor
    · intro h i hilt hge
      have hsmall : i < 65536 := lt_of_lt_of_le hilt (calcPhysical_le s.size (b * 65536))
      have hq : (b * 65536 + i) / 65536 = b := by omega
      have hmod : (b * 65536 + i) % 65536 = i := by omega
      have hscope : s.InScope (b * 65536 + i) := by
        left
        rw [hq]
        exact hlt
      have hr := h _ hscope
      rwa [hread _ hq, hmod, if_pos hilt, writeContent_of_ge hge, hi.cut _ hge] at hr
    · intro h p hscope
      by_cases hb : p / 65536 = b
      · rw [hread p hb]
        by_cases hps : p < s.size
        · rw [if_pos (mod_lt_physical hb hps), writeContent_of_lt hb hps]
        · have hge : s.size ≤ p := by omega
          rw [writeContent_of_ge hge, hi.cut p hge]
          split
          next hm => exact h _ hm (by omega)
          next => rfl
      · exact hrest p hb hscope
  next hge =>
    refine iff_of_true ?_ fun hd' => by simp [hd] at hd'
    intro p hscope
    by_cases hb : p / 65536 = b
    · have hge' : s.size ≤ p := by omega
      rw [hread p hb, calcPhysical_beyond (Nat.le_of_not_lt hge), if_neg (Nat.not_lt_zero _),
        writeContent_of_ge hge', hi.cut p hge']
    · exact hrest p hb hscope

theorem writeFileCore_wrote (h : writeFileCore s zeroCheck b data = some s') :
    Wrote s s' b data := by
  rcases writeFileCore_cases h with ⟨-, -, heq⟩ | ⟨-, -, heq⟩ | ⟨-, -, heq⟩ | ⟨-, -, heq⟩
  all_goals
    rw [heq]
    exact ⟨rfl, rfl, rfl, rfl, rfl⟩

theorem writeFileCore_inv (hi : FileInv s) (h : writeFileCore s zeroCheck b data = some s') :
    FileInv s' := by
  refine (writeFileCore_wrote h).inv hi fun hd => ?_
  rcases writeFileCore_cases h with ⟨-, -, heq⟩ | ⟨-, hd', -⟩ | ⟨-, -, heq⟩ | ⟨-, hd', -⟩
  · rw [heq]
    exact hi.empty hd
  · simp [hd] at hd'
  · rw [heq]
    exact hi.empty hd
  · simp [hd] at hd'

theorem writeFileCore_iff (hi : FileInv s) (hp : Discarded s)
    (h : writeFileCore s zeroCheck b data = some s') :
    Discarded s' ↔ FileStepOk s (.write zeroCheck b data) := by
  have w := writeFileCore_wrote h
  rcases writeFileCore_cases h with ⟨hz, hd, heq⟩ | ⟨hz, hd, heq⟩ | ⟨hlt, hd, heq⟩ | ⟨hlt, hd, heq⟩
  · refine w.direct_iff hi hp hd fun i hilt => ?_
    rw [heq]
    split
    next hlt =>
      have hphys := (calcPhysical_covers hlt).2
      unfold embeddedBytes at hilt
      exact (hz i (by omega)).symm
    next => rfl
  · have hblocks : s'.blocks = Function.update s.blocks b none := by rw [heq]
    refine w.block_iff hi hp hd (fun c hc => ?_) (by rw [heq]) fun p hb => ?_
    · rw [hblocks, Function.update_of_ne hc]
    · rw [read_hole (w.directdata.trans hd) (by rw [hblocks, hb, Function.update_self])]
      split
      next hm => exact (hz _ hm).symm
      next => rfl
  · refine w.direct_iff hi hp hd fun i _ => ?_
    rw [heq, if_pos hlt]
  · have hblocks : s'.blocks =
        Function.update s.blocks b (some (calcPhysical s.size (b * 65536), data)) := by rw [heq]
    refine w.block_iff hi hp hd (fun c hc => ?_) (by rw [heq]) fun p hb => ?_
    · rw [hblocks, Function.update_of_ne hc]
    · exact read_block (w.directdata.trans hd) (by rw [hblocks, hb, Function.update_self])

end Write

section Resize

variable {s s' : FileState} {nsize : Nat}

theorem cutContent_of_lt {content : FileBuf} {p : Nat} (h : p < nsize) :
    cutContent content nsize p = content p := if_pos h

theorem cutContent_of_ge {content : FileBuf} {p : Nat} (h : nsize ≤ p) :
    cutContent content nsize p = 0#8 := if_neg (Nat.not_lt.mpr h)

theorem truncateFile_some (h : truncateFile s nsize = some s') :
    nsize < s.size ∧ s.resized = false ∧
      s' = { s with
        osize := s.size, size := nsize, resized := true, content := cutContent s.content nsize } := by
  unfold truncateFile at h
  obtain ⟨hc, heq⟩ := Option.ite_none_right_eq_some.mp h
  exact ⟨hc.1, hc.2, (Option.some.inj heq).symm⟩

theorem truncateFile_inv (hi : FileInv s) (h : truncateFile s nsize = some s') : FileInv s' := by
  obtain ⟨hlt, -, rfl⟩ := truncateFile_some h
  exact ⟨lt_trans hlt hi.size_lt, fun p hp => cutContent_of_ge hp,
    fun hd => (Nat.le_of_lt hlt).trans (hi.short hd), hi.empty, fun _ => hlt⟩

theorem truncateFile_iff (hp : Discarded s) (h : truncateFile s nsize = some s') :
    Discarded s' ↔ FileStepOk s (.truncate nsize) := by
  obtain ⟨hlt, -, heq⟩ := truncateFile_some h
  have hread : ∀ p, s'.read p = s.read p := fun p => read_congr (by rw [heq]) (by rw [heq]) (by rw [heq])
  have hcontent : s'.content = cutContent s.content nsize := by rw [heq]
  have hscope : ∀ p, s'.InScope p ↔ p / 65536 * 65536 < nsize := by
    intro p
    unfold FileState.InScope
    rw [heq]
    simp
  unfold Discarded FileStepOk
  simp only [hscope, hread, hcontent]
  constructor
  · intro h p hge hblock
    rw [h p hblock, cutContent_of_ge hge]
  · intro h p hblock
    by_cases hps : p < nsize
    · rw [cutContent_of_lt hps]
      exact hp p (inScope_of_lt (hps.trans hlt))
    · rw [cutContent_of_ge (Nat.le_of_not_lt hps)]
      exact h p (Nat.le_of_not_lt hps) hblock

/-- A sync after a truncation deletes the blocks beyond the end and keeps the rest. -/
theorem syncFile_resized (hi : FileInv s) (hr : s.resized = true) :
    syncFile s = { s with
      resized := false
      blocks := if s.directdata = false then
          fun b => if truncBase s.size ≤ b * 65536 then none else s.blocks b
        else s.blocks } := by
  have hkeep : (s.directdata && decide (embeddedBytes < s.size)) = false := by
    cases hd : s.directdata with
    | false => rfl
    | true => simpa using hi.short hd
  unfold syncFile
  rw [if_pos hr]
  dsimp only
  rw [hkeep]
  simp [hi.shrunk hr]

theorem syncFile_idle (hr : ¬s.resized = true) : syncFile s = s := by
  unfold syncFile
  rw [if_neg hr]

theorem syncFile_inv (hi : FileInv s) : FileInv (syncFile s) := by
  by_cases hr : s.resized = true
  · rw [syncFile_resized hi hr]
    refine ⟨hi.size_lt, hi.cut, hi.short, fun hd b => ?_, fun h => by cases h⟩
    have hd' : s.directdata = true := hd
    dsimp only
    rw [if_neg (by simp [hd'])]
    exact hi.empty hd' b
  · rw [syncFile_idle hr]
    exact hi

theorem syncFile_discarded (hi : FileInv s) (hp : Discarded s) : Discarded (syncFile s) := by
  by_cases hr : s.resized = true
  · have heq := syncFile_resized hi hr
    intro p hscope
    have hcontent : (syncFile s).content = s.content := by rw [heq]
    have hd' : (syncFile s).directdata = s.directdata := by rw [heq]
    rw [hcontent]
    have hbase : truncBase s.size ≤ p / 65536 * 65536 ↔ s.size ≤ p / 65536 * 65536 :=
      truncBase_le_iff (Nat.le_of_lt hi.size_lt) (Nat.mul_mod_left _ _)
    by_cases hlt : p / 65536 * 65536 < s.size
    · rw [← hp p (Or.inl hlt)]
      refine read_congr hd' (by rw [heq]) ?_
      rw [heq]
      dsimp only
      split
      next => exact if_neg fun h => absurd (hbase.mp h) (Nat.not_le.mpr hlt)
      next => rfl
    · have hge : s.size ≤ p / 65536 * 65536 := Nat.le_of_not_lt hlt
      have hd : s.directdata = false := by
        rcases hscope with h | h
        · rw [heq] at h
          exact absurd h hlt
        · rw [← hd']
          exact h.1
      have hhole : (syncFile s).blocks (p / 65536) = none := by
        rw [heq]
        dsimp only
        rw [if_pos hd, if_pos (hbase.mpr hge)]
      rw [read_hole (hd'.trans hd) hhole, hi.cut p (hge.trans (Nat.div_mul_le_self p 65536))]
  · rw [syncFile_idle hr]
    exact hp

/-- What an extension does: embedded data that no longer fits is dropped, and in the other cases only
the size changes. -/
theorem extendFile_cases (hi : FileInv s) (h : extendFile s nsize = some s') :
    s.size < nsize ∧ nsize < 2 ^ 63 ∧ s.resized = false ∧
      (s.directdata = true ∧ embeddedBytes < nsize ∧
          s' = { s with
            osize := s.size, size := nsize, directdata := false, area := fun _ => 0#8 } ∨
        (s.directdata = true → nsize ≤ embeddedBytes) ∧
          s' = { s with osize := s.size, size := nsize }) := by
  unfold extendFile at h
  obtain ⟨⟨hlt, hmax, hr⟩, h⟩ := Option.ite_none_right_eq_some.mp h
  refine ⟨hlt, hmax, hr, ?_⟩
  dsimp only at h
  split at h
  next hcross =>
    rw [← Option.some.inj h]
    unfold syncFile
    cases hd : s.directdata with
    | true =>
      refine Or.inl ⟨rfl, hcross.2, ?_⟩
      simp [hcross.2, Nat.not_lt.mpr (Nat.le_of_lt hlt), hr]
    | false =>
      refine Or.inr ⟨fun h => (by cases h), ?_⟩
      simp [Nat.not_lt.mpr (Nat.le_of_lt hlt), hr]
  next hcross =>
    rw [← Option.some.inj h]
    refine Or.inr ⟨fun hd => ?_, rfl⟩
    have hshort := hi.short hd
    omega

theorem extendFile_inv (hi : FileInv s) (h : extendFile s nsize = some s') : FileInv s' := by
  obtain ⟨hlt, hmax, hr, ⟨-, -, rfl⟩ | ⟨hshort, rfl⟩⟩ := extendFile_cases hi h
  · exact ⟨hmax, fun p hp => hi.cut p ((Nat.le_of_lt hlt).trans hp), fun h => (by cases h),
      fun h => (by cases h), fun h => by simp [hr] at h⟩
  · exact ⟨hmax, fun p hp => hi.cut p ((Nat.le_of_lt hlt).trans hp), hshort, hi.empty,
      fun h => by simp [hr] at h⟩

theorem extendFile_iff (hi : FileInv s) (hp : Discarded s) (h : extendFile s nsize = some s') :
    Discarded s' ↔ FileStepOk s (.extend nsize) := by
  obtain ⟨hlt, -, hr, ⟨hd, hcross, heq⟩ | ⟨hshort, heq⟩⟩ := extendFile_cases hi h
  · have hcontent : s'.content = s.content := by rw [heq]
    have hread : ∀ p, s'.read p = 0#8 := by
      intro p
      refine read_hole (by rw [heq]) ?_
      rw [heq]
      exact hi.empty hd _
    have hscope : ∀ p, s'.InScope p := by
      intro p
      right
      rw [heq]
      exact ⟨rfl, hr⟩
    unfold Discarded FileStepOk
    simp only [hread, hcontent, hscope, true_implies]
    rw [if_pos hcross]
    constructor
    · intro h _ p hps
      rw [hp p (inScope_of_lt hps)]
      exact (h p).symm
    · intro h p
      by_cases hps : p < s.size
      · rw [← hp p (inScope_of_lt hps), h hd p hps]
      · exact (hi.cut p (Nat.le_of_not_lt hps)).symm
  · have hcontent : s'.content = s.content := by rw [heq]
    have hread : ∀ p, s'.read p = s.read p := fun p =>
      read_congr (by rw [heq]) (by rw [heq]) (by rw [heq])
    unfold Discarded FileStepOk
    simp only [hread, hcontent]
    by_cases hd : s.directdata = true
    · have hshort' := hshort hd
      rw [if_neg (Nat.not_lt.mpr hshort')]
      constructor
      · intro h _ hz p hpe
        have hscope : s'.InScope p := by
          refine Or.inl ?_
          rw [heq]
          unfold embeddedBytes at hpe
          have h0 : p / 65536 = 0 := by omega
          rw [h0, Nat.zero_mul]
          exact Nat.zero_lt_of_lt hlt
        rw [h p hscope, hi.cut p (by omega)]
      · intro h p hscope
        have h0 : p / 65536 = 0 := by
          refine (inScope_direct ?_ ?_ hscope).1
          · rw [heq]
            exact hd
          · rw [heq]
            exact hshort'
        by_cases hz : s.size = 0
        · rw [hi.cut p (by omega)]
          by_cases hpe : p < embeddedBytes
          · exact h hd hz p hpe
          · rw [read_direct hd, Nat.mod_eq_of_lt (by omega), if_neg hpe]
        · refine hp p (Or.inl ?_)
          rw [h0, Nat.zero_mul]
          exact Nat.pos_of_ne_zero hz
    · refine iff_of_true ?_ fun hd' => absurd hd' hd
      intro p _
      exact hp p (Or.inr ⟨by simpa using hd, hr⟩)

end Resize

section Run

variable {s s' : FileState} {a : FileAction}

theorem fileStep_inv (hi : FileInv s) (h : fileStep s a = some s') : FileInv s' := by
  cases a with
  | write zeroCheck b data => exact writeFileCore_inv hi h
  | truncate nsize => exact truncateFile_inv hi h
  | sync =>
    rw [← Option.some.inj h]
    exact syncFile_inv hi
  | extend nsize => exact extendFile_inv hi h

theorem fileStep_iff (hi : FileInv s) (hp : Discarded s) (h : fileStep s a = some s') :
    Discarded s' ↔ FileStepOk s a := by
  cases a with
  | write zeroCheck b data => exact writeFileCore_iff hi hp h
  | truncate nsize => exact truncateFile_iff hp h
  | sync =>
    rw [← Option.some.inj h]
    exact iff_of_true (syncFile_discarded hi hp) trivial
  | extend nsize => exact extendFile_iff hi hp h

theorem fileInit_inv : FileInv fileInit :=
  ⟨Nat.two_pow_pos 63, fun _ _ => rfl, fun _ => Nat.zero_le _, fun _ _ => rfl, fun h => by cases h⟩

theorem fileInit_discarded : Discarded fileInit := by
  intro p _
  rw [read_direct rfl]
  split <;> rfl

/-- In a run of writes, truncations, syncs and extensions every read is right just when every step meets
its condition. -/
theorem truncation_discards_iff (actions : List FileAction) :
    Run.Always fileStep Discarded fileInit actions ↔
      Run.Guarded fileStep FileStepOk fileInit actions :=
  Run.always_iff fileStep_inv fileStep_iff actions fileInit_inv fileInit_discarded

/-- Two bytes are written, the file is cut to one and made two bytes long again: the second byte is
back. -/
theorem truncation_uncovers :
    ¬Run.Always fileStep Discarded fileInit
      [.extend 2, .write false 0 fun i => if i < 2 then 1#8 else 0#8, .truncate 1, .sync,
        .extend 2] := by
  intro h
  obtain ⟨-, h⟩ := h
  obtain ⟨-, h⟩ := h _ rfl
  obtain ⟨-, h⟩ := h _ rfl
  obtain ⟨-, h⟩ := h _ rfl
  obtain ⟨-, h⟩ := h _ rfl
  have hread := h _ rfl 1 (Or.inl (by decide))
  revert hread
  decide

end Run

end Hammer2
