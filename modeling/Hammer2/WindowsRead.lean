import Hammer2.Blockref
import Hammer2.ByteImage

namespace Hammer2

open ByteImage

def pbufSize : Nat := 65536

def embeddedBytes : Nat := 512

def errorEIO : Nat := 1

def errorCheck : Nat := 2

def compNone : Nat := 0

def compLZ4 : Nat := 2

def compZLIB : Nat := 3

/-- The fields of a chain that a file read looks at. `data` is the data pointer, for an inode that
of its `u.data`; it is NULL if the block could not be read. -/
structure FileChain where
  type : BrefType
  comp : Nat
  bytes : Nat
  data : Option Image
  error : Nat

/-- What `hammer2_inode_chain` and `hammer2_chain_lookup(lbase, lbase)` give for a block: no parent,
no chain, with the lookup's error, or a chain. -/
inductive BlockLookup where
  | noParent
  | missing (error : Nat)
  | found (chain : FileChain)

/-- How a logical buffer comes back from `hammer2_xop_strategy_read`. -/
inductive StrategyResult where
  | done (buf : Image)
  | failed
  | panic

/-- The bytes of a block up to `bytes`, with zeros behind. -/
def padZero (data : Image) (bytes : Nat) : Image := fun i => if i < bytes then data i else 0

/-- `hammer2_strategy_read_completion`, with the decompressors of `LZ4` and `ZLIB` blocks. -/
def strategyReadCompletion (lz4 zlib : Image → Nat → Image) (focus : FileChain) : StrategyResult :=
  match focus.data with
  | none =>
    if focus.type = .data ∧ focus.comp = compNone ∧ focus.bytes = 0 then .done fun _ => 0 else .panic
  | some data =>
    match focus.type with
    | .inode => .done (padZero data embeddedBytes)
    | .data =>
      if focus.comp = compLZ4 then .done (lz4 data focus.bytes)
      else if focus.comp = compZLIB then .done (zlib data focus.bytes)
      else if focus.comp = compNone then
        if focus.bytes ≤ pbufSize then .done (padZero data focus.bytes) else .panic
      else .panic
    | _ => .panic

/-- `hammer2_xop_strategy_read` of one logical buffer. -/
def strategyRead (lz4 zlib : Image → Nat → Image) : BlockLookup → StrategyResult
  | .noParent => .failed
  | .missing error => if error = 0 then .done fun _ => 0 else .failed
  | .found chain =>
    if chain.error = 0 then strategyReadCompletion lz4 zlib chain else .failed

/-- What one turn of the `h2_read_file` loop does: it copies bytes, gives up on a block it cannot
decode, or follows a NULL data pointer. -/
inductive Copied where
  | bytes (bs : List (BitVec 8))
  | unsupported
  | fault

/-- `n` bytes of the data from `boff` on, and zeros up to `want`. -/
def copyData (data : Option Image) (boff n want : Nat) : Copied :=
  match data with
  | none => if n = 0 then .bytes (List.replicate want 0) else .fault
  | some data => .bytes (slice data boff n ++ List.replicate (want - n) 0)

def copyBlock (l : BlockLookup) (boff want : Nat) : Copied :=
  match l with
  | .noParent => .bytes (List.replicate want 0)
  | .missing _ => .bytes (List.replicate want 0)
  | .found chain =>
    if chain.type = .inode then
      if boff < embeddedBytes then copyData chain.data boff (min want (embeddedBytes - boff)) want
      else .bytes (List.replicate want 0)
    else if chain.type = .data ∧ chain.comp = compNone then
      copyData chain.data boff (min want (chain.bytes - boff)) want
    else .unsupported

/-- The result of `h2_read_file`: the first `n` bytes of the buffer, a negative return value, or a
crash. -/
inductive ReadResult where
  | bytes (bs : List (BitVec 8))
  | error
  | fault

/-- `(int)done` is negative from 2GB on. -/
def returnDone (done : Nat) (buf : List (BitVec 8)) : ReadResult :=
  if done < 2 ^ 31 then .bytes buf else .error

def lbaseOf (pos : Nat) : Nat := pos / pbufSize * pbufSize

/-- The loop of `h2_read_file`. -/
def readLoop (lookup : Nat → BlockLookup) (off len done : Nat) (buf : List (BitVec 8)) : ReadResult :=
  if done < len then
    let pos := (off + done) % 2 ^ 64
    let boff := pos - lbaseOf pos
    let want := min (len - done) (pbufSize - boff)
    match copyBlock (lookup (lbaseOf pos)) boff want with
    | .bytes bs => readLoop lookup off len (done + want) (buf ++ bs)
    | .unsupported => if 0 < done then returnDone done buf else .error
    | .fault => .fault
  else returnDone done buf
termination_by len - done
decreasing_by
  unfold lbaseOf pbufSize
  omega

/-- The length that `h2_read_file` reads: cut at the file size, in 64-bit arithmetic. -/
def readLen (fsize off : UInt64) (len : UInt32) : Nat :=
  if fsize.toNat < (off.toNat + len.toNat) % 2 ^ 64 then (fsize.toNat - off.toNat) % 2 ^ 32
  else len.toNat

def h2ReadFile (lookup : Nat → BlockLookup) (fsize off : UInt64) (len : UInt32) : ReadResult :=
  if fsize ≤ off then .bytes [] else readLoop lookup off.toNat (readLen fsize off len) 0 []

/-- The block is compressed or no file data, which `h2_read_file` does not decode. -/
def BlockLookup.Unsupported : BlockLookup → Prop
  | .found chain => chain.type ≠ .inode ∧ ¬(chain.type = .data ∧ chain.comp = compNone)
  | _ => False

/-- Neither the lookup nor the load or the check of the block reported an error, and its size fits a
logical buffer. -/
def BlockLookup.Clean : BlockLookup → Prop
  | .noParent => False
  | .missing error => error = 0
  | .found chain => chain.error = 0 ∧ (chain.data = none → chain.type = .data ∧ chain.bytes = 0) ∧
      (chain.type = .data → chain.bytes ≤ pbufSize)

/-- The bytes of the block that are backed by its data. -/
def FileChain.limit (chain : FileChain) : Nat :=
  if chain.type = .inode then embeddedBytes else chain.bytes

/-- The byte that `h2_read_file` takes from offset `x` of the block, if the data pointer it uses is
not NULL. -/
def BlockLookup.byte (x : Nat) : BlockLookup → Option (BitVec 8)
  | .found chain =>
    if x < chain.limit then chain.data.map (· x) else some 0
  | _ => some 0

def blockAt (lookup : Nat → BlockLookup) (pos : Nat) : BlockLookup := lookup (lbaseOf (pos % 2 ^ 64))

def blockOff (pos : Nat) : Nat := pos % 2 ^ 64 - lbaseOf (pos % 2 ^ 64)

def byteAt (lookup : Nat → BlockLookup) (pos : Nat) : Option (BitVec 8) :=
  (blockAt lookup pos).byte (blockOff pos)

/-- The byte at `pos` of the file as the strategy read path delivers it. -/
def referenceByte (lz4 zlib : Image → Nat → Image) (lookup : Nat → BlockLookup) (pos : Nat) :
    Option (BitVec 8) :=
  match strategyRead lz4 zlib (lookup (lbaseOf pos)) with
  | .done buf => some (buf (pos - lbaseOf pos))
  | _ => none

/-- The bytes of the file or an error: every byte returned lies within the file and is the one that
the strategy read path delivers. -/
def ReadCorrect (lz4 zlib : Image → Nat → Image) (lookup : Nat → BlockLookup) (fsize off : UInt64) :
    ReadResult → Prop
  | .bytes bs => ∀ i v, bs[i]? = some v → off.toNat + i < fsize.toNat ∧
      referenceByte lz4 zlib lookup (off.toNat + i) = some v
  | .error => True
  | .fault => False

theorem slice_append_replicate (data : Image) (boff lim want : Nat) :
    slice data boff (min want (lim - boff)) ++ List.replicate (want - min want (lim - boff)) 0 =
      (List.range want).map fun i => if boff + i < lim then data (boff + i) else 0 := by
  apply List.ext_getElem?
  intro i
  unfold slice
  rw [List.getElem?_append, List.getElem?_map, List.getElem?_map, List.getElem?_replicate,
    List.length_map, List.length_range]
  by_cases hi : i < want
  · rw [List.getElem?_range hi]
    by_cases hlim : boff + i < lim
    · rw [if_pos (by omega), List.getElem?_range (by omega)]
      simp [hlim]
    · rw [if_neg (by omega), if_pos (by omega)]
      simp [hlim]
  · rw [if_neg (by omega), if_neg (by omega), List.getElem?_eq_none (by simpa using hi)]
    rfl

theorem replicate_eq_map (want : Nat) :
    List.replicate want (0 : BitVec 8) = (List.range want).map fun _ => 0 := by
  simp

theorem copyData_eq {data : Option Image} {boff lim want : Nat} (hw : 0 < want) :
    copyData data boff (min want (lim - boff)) want =
      if boff < lim ∧ data = none then .fault
      else .bytes ((List.range want).map fun i =>
        (if boff + i < lim then data.map (· (boff + i)) else some 0).getD 0) := by
  cases data with
  | none =>
    simp only [copyData]
    by_cases hb : boff < lim
    · rw [if_neg (by omega), if_pos ⟨hb, trivial⟩]
    · rw [if_pos (by omega), if_neg (by omega), replicate_eq_map]
      refine congrArg Copied.bytes (List.map_congr_left ?_)
      intro i _
      rw [if_neg (by omega)]
      rfl
  | some data =>
    have hno : ¬(boff < lim ∧ some data = none) := by simp
    simp only [copyData]
    rw [if_neg hno, slice_append_replicate]
    refine congrArg Copied.bytes (List.map_congr_left ?_)
    intro i _
    split <;> rfl

/-- One turn of the loop, byte by byte. -/
theorem copyBlock_eq {l : BlockLookup} {boff want : Nat} (hw : 0 < want) (hs : ¬l.Unsupported) :
    copyBlock l boff want = if l.byte boff = none then .fault
      else .bytes ((List.range want).map fun i => (l.byte (boff + i)).getD 0) := by
  cases l with
  | noParent =>
    simp only [copyBlock, BlockLookup.byte, reduceCtorEq, ↓reduceIte, Option.getD_some]
    rw [replicate_eq_map]
  | missing error =>
    simp only [copyBlock, BlockLookup.byte, reduceCtorEq, ↓reduceIte, Option.getD_some]
    rw [replicate_eq_map]
  | found chain =>
    have hfault : (if boff < chain.limit then chain.data.map (· boff) else some 0) = none ↔
        boff < chain.limit ∧ chain.data = none := by
      by_cases hb : boff < chain.limit
      · simp [hb]
      · simp [hb]
    simp only [copyBlock, BlockLookup.byte, hfault]
    by_cases hi : chain.type = .inode
    · have hlim : chain.limit = embeddedBytes := if_pos hi
      rw [if_pos hi, hlim]
      by_cases hb : boff < embeddedBytes
      · rw [if_pos hb, copyData_eq hw]
      · rw [if_neg hb, if_neg (fun h => hb h.1), replicate_eq_map]
        refine congrArg Copied.bytes (List.map_congr_left ?_)
        intro i _
        rw [if_neg (by omega)]
        rfl
    · have hd : chain.type = .data ∧ chain.comp = compNone := by
        by_contra hd
        exact hs ⟨hi, hd⟩
      have hlim : chain.limit = chain.bytes := if_neg hi
      rw [if_neg hi, if_pos hd, copyData_eq hw, hlim]

theorem copyBlock_unsupported {l : BlockLookup} (boff want : Nat) (hs : l.Unsupported) :
    copyBlock l boff want = .unsupported := by
  cases l with
  | noParent => exact hs.elim
  | missing error => exact hs.elim
  | found chain =>
    unfold copyBlock
    simp only
    rw [if_neg hs.1, if_neg hs.2]

/-- Only the part of a block that has data can be unreadable. -/
theorem byte_ne_none_of_le {l : BlockLookup} {x y : Nat} (hxy : x ≤ y) (h : l.byte x ≠ none) :
    l.byte y ≠ none := by
  cases l with
  | noParent => simp [BlockLookup.byte]
  | missing error => simp [BlockLookup.byte]
  | found chain =>
    simp only [BlockLookup.byte] at h ⊢
    by_cases hy : y < chain.limit
    · rw [if_pos (by omega)] at h
      rw [if_pos hy]
      simpa using h
    · simp [hy]

/-- The positions that one turn of the loop covers are in one block. -/
theorem blockAt_add {lookup : Nat → BlockLookup} {pos i : Nat} (h : i < pbufSize - blockOff pos) :
    blockAt lookup (pos + i) = blockAt lookup pos ∧ blockOff (pos + i) = blockOff pos + i := by
  unfold blockOff lbaseOf pbufSize at h
  have hbase : lbaseOf ((pos + i) % 2 ^ 64) = lbaseOf (pos % 2 ^ 64) := by
    unfold lbaseOf pbufSize
    omega
  refine ⟨by unfold blockAt; rw [hbase], ?_⟩
  unfold blockOff
  rw [hbase]
  unfold lbaseOf pbufSize
  omega

theorem copyBlock_turn {lookup : Nat → BlockLookup} {pos want : Nat} (hw : 0 < want)
    (hfit : want ≤ pbufSize - blockOff pos) (hs : ¬(blockAt lookup pos).Unsupported) :
    copyBlock (blockAt lookup pos) (blockOff pos) want = if byteAt lookup pos = none then .fault
      else .bytes ((List.range want).map fun i => (byteAt lookup (pos + i)).getD 0) := by
  have hbytes : (List.range want).map
        (fun i => ((blockAt lookup pos).byte (blockOff pos + i)).getD 0) =
      (List.range want).map fun i => (byteAt lookup (pos + i)).getD 0 := by
    refine List.map_congr_left ?_
    intro i hi
    rw [List.mem_range] at hi
    obtain ⟨hblock, hoff⟩ := @blockAt_add lookup pos i (by omega)
    rw [byteAt, hblock, hoff]
  rw [copyBlock_eq hw hs, hbytes]
  rfl

/-- What `h2_read_file` returns after its loop stopped `n` bytes into the request. -/
def readFinish (len n : Nat) (buf : List (BitVec 8)) : ReadResult :=
  if n < len ∧ n = 0 then .error else returnDone n buf

/-- The outcome `r` of the loop from `done` on, where the first block that it does not decode is
`n` bytes into the request. -/
structure LoopSpec (lookup : Nat → BlockLookup) (off len done : Nat) (buf : List (BitVec 8))
    (r : ReadResult) (n : Nat) : Prop where
  done_le : done ≤ n
  le_len : n ≤ len
  decoded : ∀ i, done ≤ i → i < n → ¬(blockAt lookup (off + i)).Unsupported
  stopped : n < len → (blockAt lookup (off + n)).Unsupported
  fault : (∃ i, done ≤ i ∧ i < n ∧ byteAt lookup (off + i) = none) → r = .fault
  copied : (∀ i, done ≤ i → i < n → byteAt lookup (off + i) ≠ none) →
    r = readFinish len n
      (buf ++ (List.range (n - done)).map fun i => (byteAt lookup (off + done + i)).getD 0)

theorem LoopSpec.decoded_turn {lookup : Nat → BlockLookup} {off len done want n : Nat}
    {buf : List (BitVec 8)} {r : ReadResult} (hfit : want ≤ pbufSize - blockOff (off + done))
    (hs : ¬(blockAt lookup (off + done)).Unsupported)
    (h : LoopSpec lookup off len (done + want) buf r n) :
    ∀ i, done ≤ i → i < n → ¬(blockAt lookup (off + i)).Unsupported := by
  intro i h1 h2
  by_cases hi : i < done + want
  · obtain ⟨heq, _⟩ := @blockAt_add lookup (off + done) (i - done) (by omega)
    rw [show off + done + (i - done) = off + i by omega] at heq
    rwa [heq]
  · exact h.decoded i (by omega) h2

theorem range_append_map {α : Type} (f : Nat → α) {a b : Nat} (h : a ≤ b) :
    (List.range b).map f = (List.range a).map f ++ (List.range (b - a)).map fun i => f (a + i) := by
  rw [show b = a + (b - a) by omega, List.range_add, List.map_append, List.map_map,
    show a + (b - a) - a = b - a by omega]
  rfl

/-- A turn of the loop that copied its bytes, followed by the rest of the loop. -/
theorem LoopSpec.turn {lookup : Nat → BlockLookup} {off len done want n : Nat}
    {buf : List (BitVec 8)} {r : ReadResult} (hfit : want ≤ pbufSize - blockOff (off + done))
    (hs : ¬(blockAt lookup (off + done)).Unsupported) (hb : byteAt lookup (off + done) ≠ none)
    (h : LoopSpec lookup off len (done + want)
      (buf ++ (List.range want).map fun i => (byteAt lookup (off + done + i)).getD 0) r n) :
    LoopSpec lookup off len done buf r n := by
  have hturn : ∀ i, done ≤ i → i < done + want → byteAt lookup (off + i) ≠ none := by
    intro i h1 h2
    obtain ⟨hblock, hoff⟩ := @blockAt_add lookup (off + done) (i - done) (by omega)
    rw [show off + done + (i - done) = off + i by omega] at hblock hoff
    unfold byteAt at hb ⊢
    rw [hblock, hoff]
    exact byte_ne_none_of_le (by omega) hb
  have hle := h.done_le
  refine ⟨by omega, h.le_len, h.decoded_turn hfit hs, h.stopped, ?_, ?_⟩
  · rintro ⟨i, h1, h2, hnone⟩
    by_cases hi : i < done + want
    · exact absurd hnone (hturn i h1 hi)
    · exact h.fault ⟨i, by omega, h2, hnone⟩
  · intro hall
    rw [h.copied fun i h1 h2 => hall i (by omega) h2, List.append_assoc,
      range_append_map _ (show want ≤ n - done by omega), show n - (done + want) = n - done - want by omega]
    simp only [Nat.add_assoc]

/-- A turn of the loop that runs into a NULL data pointer. -/
theorem LoopSpec.turn_fault {lookup : Nat → BlockLookup} {off len done want n : Nat}
    {buf buf' : List (BitVec 8)} {r : ReadResult} (hw : 0 < want)
    (hfit : want ≤ pbufSize - blockOff (off + done))
    (hs : ¬(blockAt lookup (off + done)).Unsupported) (hb : byteAt lookup (off + done) = none)
    (h : LoopSpec lookup off len (done + want) buf' r n) :
    LoopSpec lookup off len done buf .fault n := by
  have hle := h.done_le
  refine ⟨by omega, h.le_len, h.decoded_turn hfit hs, h.stopped, fun _ => rfl, ?_⟩
  intro hall
  exact absurd hb (hall done le_rfl (by omega))

theorem readLoop_spec (lookup : Nat → BlockLookup) (off len : Nat) {done : Nat}
    (buf : List (BitVec 8)) (hd : done ≤ len) :
    ∃ n, LoopSpec lookup off len done buf (readLoop lookup off len done buf) n := by
  induction hk : len - done using Nat.strong_induction_on generalizing done buf with
  | _ k ih =>
    unfold readLoop
    by_cases hlt : done < len
    · rw [if_pos hlt]
      have hoff : blockOff (off + done) < pbufSize := by
        unfold blockOff lbaseOf pbufSize
        omega
      change ∃ n, LoopSpec lookup off len done buf
        (match copyBlock (blockAt lookup (off + done)) (blockOff (off + done))
            (min (len - done) (pbufSize - blockOff (off + done))) with
          | .bytes bs => readLoop lookup off len
              (done + min (len - done) (pbufSize - blockOff (off + done))) (buf ++ bs)
          | .unsupported => if 0 < done then returnDone done buf else .error
          | .fault => .fault) n
      generalize hwant : min (len - done) (pbufSize - blockOff (off + done)) = want
      have hw : 0 < want := by omega
      have hfit : want ≤ pbufSize - blockOff (off + done) := by omega
      by_cases hs : (blockAt lookup (off + done)).Unsupported
      · rw [copyBlock_unsupported _ _ hs]
        refine ⟨done, le_rfl, hd, by omega, fun _ => hs, by omega, ?_⟩
        intro _
        simp only [Nat.sub_self, List.range_zero, List.map_nil, List.append_nil, readFinish]
        by_cases h0 : done = 0
        · rw [if_neg (by omega), if_pos ⟨hlt, h0⟩]
        · rw [if_pos (by omega), if_neg (by omega)]
      · rw [copyBlock_turn hw hfit hs]
        obtain ⟨n, hn⟩ := ih (len - (done + want)) (by omega)
          (buf ++ (List.range want).map fun i => (byteAt lookup (off + done + i)).getD 0)
          (show done + want ≤ len by omega) rfl
        by_cases hb : byteAt lookup (off + done) = none
        · rw [if_pos hb]
          exact ⟨n, hn.turn_fault hw hfit hs hb⟩
        · rw [if_neg hb]
          exact ⟨n, hn.turn hfit hs hb⟩
    · rw [if_neg hlt]
      refine ⟨done, le_rfl, hd, by omega, by omega, by omega, ?_⟩
      intro _
      simp only [Nat.sub_self, List.range_zero, List.map_nil, List.append_nil, readFinish]
      rw [if_neg (by omega)]

/-- A block that `h2_read_file` decodes is delivered by the strategy read path exactly if it is clean,
and then both agree on its bytes. -/
theorem strategyRead_of_clean (lz4 zlib : Image → Nat → Image) {l : BlockLookup}
    (hs : ¬l.Unsupported) (hc : l.Clean) :
    ∃ buf, strategyRead lz4 zlib l = .done buf ∧ ∀ x, l.byte x = some (buf x) := by
  cases l with
  | noParent => exact hc.elim
  | missing error => exact ⟨_, if_pos hc, fun _ => rfl⟩
  | found chain =>
    obtain ⟨he, hnull, hfits⟩ := hc
    simp only [strategyRead, if_pos he, BlockLookup.byte]
    unfold strategyReadCompletion
    cases hdata : chain.data with
    | none =>
      obtain ⟨htype, hbytes⟩ := hnull hdata
      have hcomp : chain.comp = compNone := by
        by_contra hne
        exact hs ⟨by rw [htype]; decide, fun h => hne h.2⟩
      have hlim : chain.limit = 0 := by
        unfold FileChain.limit
        rw [if_neg (by rw [htype]; decide), hbytes]
      refine ⟨_, if_pos ⟨htype, hcomp, hbytes⟩, ?_⟩
      intro x
      rw [hlim, if_neg (by omega)]
    | some data =>
      by_cases hi : chain.type = .inode
      · rw [hi]
        refine ⟨_, rfl, ?_⟩
        intro x
        have hlim : chain.limit = embeddedBytes := if_pos hi
        rw [hlim, padZero]
        split <;> rfl
      · have hd : chain.type = .data ∧ chain.comp = compNone := by
          by_contra hd
          exact hs ⟨hi, hd⟩
        have hlim : chain.limit = chain.bytes := if_neg hi
        rw [hd.1, hd.2]
        refine ⟨_, if_pos (hfits hd.1), ?_⟩
        intro x
        rw [hlim, padZero]
        split <;> rfl

theorem clean_of_strategyRead {lz4 zlib : Image → Nat → Image} {l : BlockLookup} {buf : Image}
    (hs : ¬l.Unsupported) (h : strategyRead lz4 zlib l = .done buf) : l.Clean := by
  cases l with
  | noParent => cases h
  | missing error =>
    simp only [strategyRead] at h
    split at h
    next he => exact he
    next => cases h
  | found chain =>
    simp only [strategyRead] at h
    split at h
    next he =>
      unfold strategyReadCompletion at h
      split at h
      next hnone =>
        split at h
        next hz => exact ⟨he, fun _ => ⟨hz.1, hz.2.2⟩, fun _ => by rw [hz.2.2]; exact Nat.zero_le _⟩
        next => cases h
      next data hsome =>
        refine ⟨he, by simp [hsome], ?_⟩
        intro htype
        have hd : chain.comp = compNone := by
          by_contra hne
          exact hs ⟨by rw [htype]; decide, fun hd => hne hd.2⟩
        rw [htype, hd] at h
        by_contra hbig
        simp only [compNone, compLZ4, compZLIB, if_neg hbig] at h
        cases h
    next => cases h

theorem referenceByte_eq_iff {lz4 zlib : Image → Nat → Image} {lookup : Nat → BlockLookup} {pos : Nat}
    (hpos : pos < 2 ^ 64) (hs : ¬(blockAt lookup pos).Unsupported) :
    referenceByte lz4 zlib lookup pos = some ((byteAt lookup pos).getD 0) ↔
      (blockAt lookup pos).Clean := by
  have hat : lookup (lbaseOf pos) = blockAt lookup pos := by
    unfold blockAt
    rw [Nat.mod_eq_of_lt hpos]
  have hoff : pos - lbaseOf pos = blockOff pos := by
    unfold blockOff
    rw [Nat.mod_eq_of_lt hpos]
  unfold referenceByte
  rw [hat, hoff]
  constructor
  · intro h
    split at h
    next buf hread => exact clean_of_strategyRead hs hread
    next => cases h
  · intro hc
    obtain ⟨buf, hread, hbyte⟩ := strategyRead_of_clean lz4 zlib hs hc
    rw [hread, byteAt, hbyte]
    rfl

theorem byteAt_ne_none_of_clean {lookup : Nat → BlockLookup} {pos : Nat}
    (hs : ¬(blockAt lookup pos).Unsupported) (hc : (blockAt lookup pos).Clean) :
    byteAt lookup pos ≠ none := by
  obtain ⟨buf, _, hbyte⟩ := strategyRead_of_clean (fun _ _ => fun _ => 0) (fun _ _ => fun _ => 0) hs hc
  rw [byteAt, hbyte]
  exact Option.some_ne_none _

/-- The loop gets to byte `i` of the request if it decodes every block up to there. -/
def ReadReaches (lookup : Nat → BlockLookup) (fsize off : UInt64) (len : UInt32) (i : Nat) : Prop :=
  i < readLen fsize off len ∧ ∀ j, j ≤ i → ¬(blockAt lookup (off.toNat + j)).Unsupported

theorem LoopSpec.reaches_iff {lookup : Nat → BlockLookup} {fsize off : UInt64} {len : UInt32} {n : Nat}
    {r : ReadResult} (h : LoopSpec lookup off.toNat (readLen fsize off len) 0 [] r n) (i : Nat) :
    ReadReaches lookup fsize off len i ↔ i < n := by
  constructor
  · rintro ⟨hlt, hdec⟩
    by_contra hge
    have hle := h.le_len
    exact hdec n (by omega) (h.stopped (by omega))
  · intro hi
    exact ⟨lt_of_lt_of_le hi h.le_len, fun j hj => h.decoded j (Nat.zero_le _) (by omega)⟩

theorem readCorrect_bytes_iff {lz4 zlib : Image → Nat → Image} {lookup : Nat → BlockLookup}
    {fsize off : UInt64} {n : Nat}
    (hdec : ∀ i, i < n → ¬(blockAt lookup (off.toNat + i)).Unsupported) :
    ReadCorrect lz4 zlib lookup fsize off
        (.bytes ((List.range n).map fun i => (byteAt lookup (off.toNat + i)).getD 0)) ↔
      ∀ i, i < n → off.toNat + i < fsize.toNat ∧ (blockAt lookup (off.toNat + i)).Clean := by
  have hsize := fsize.toNat_lt
  constructor
  · intro h i hi
    have hget : ((List.range n).map fun i => (byteAt lookup (off.toNat + i)).getD 0)[i]? =
        some ((byteAt lookup (off.toNat + i)).getD 0) := by
      rw [List.getElem?_map, List.getElem?_range hi, Option.map_some]
    obtain ⟨hlt, href⟩ := h i _ hget
    exact ⟨hlt, (referenceByte_eq_iff (by omega) (hdec i hi)).mp href⟩
  · intro h i v hv
    rw [List.getElem?_map] at hv
    obtain ⟨j, hj, rfl⟩ := Option.map_eq_some_iff.mp hv
    obtain ⟨hlen, hget⟩ := List.getElem?_eq_some_iff.mp hj
    rw [List.length_range] at hlen
    rw [List.getElem_range] at hget
    subst hget
    obtain ⟨hlt, hc⟩ := h i hlen
    exact ⟨hlt, (referenceByte_eq_iff (by omega) (hdec i hlen)).mpr hc⟩

/-- `h2_read_file` gives the bytes of the file or an error exactly if no block that it copies had an
error, or if the count it copied does not fit an `int`. -/
theorem h2ReadFile_correct_iff (lz4 zlib : Image → Nat → Image) (lookup : Nat → BlockLookup)
    (fsize off : UInt64) (len : UInt32) :
    ReadCorrect lz4 zlib lookup fsize off (h2ReadFile lookup fsize off len) ↔
      fsize ≤ off ∨
      (∀ i, ReadReaches lookup fsize off len i →
        off.toNat + i < fsize.toNat ∧ (blockAt lookup (off.toNat + i)).Clean) ∨
      (2 ^ 31 ≤ readLen fsize off len ∧
        (∀ i, i < 2 ^ 31 → ¬(blockAt lookup (off.toNat + i)).Unsupported) ∧
        ∀ i, ReadReaches lookup fsize off len i → byteAt lookup (off.toNat + i) ≠ none) := by
  unfold h2ReadFile
  by_cases heof : fsize ≤ off
  · rw [if_pos heof]
    refine iff_of_true ?_ (Or.inl heof)
    intro i v hv
    simp at hv
  · rw [if_neg heof]
    obtain ⟨n, hn⟩ := readLoop_spec lookup off.toNat (readLen fsize off len) [] (Nat.zero_le _)
    simp only [heof, false_or, hn.reaches_iff]
    have hdec : ∀ i, i < n → ¬(blockAt lookup (off.toNat + i)).Unsupported :=
      fun i hi => hn.decoded i (Nat.zero_le _) hi
    by_cases hb : ∀ i, i < n → byteAt lookup (off.toNat + i) ≠ none
    · have hres := hn.copied fun i _ hi => hb i hi
      simp only [List.nil_append, Nat.sub_zero, Nat.add_zero] at hres
      rw [hres]
      unfold readFinish returnDone
      by_cases h0 : n < readLen fsize off len ∧ n = 0
      · rw [if_pos h0]
        exact iff_of_true trivial (Or.inl fun i hi => by omega)
      · rw [if_neg h0]
        by_cases hint : n < 2 ^ 31
        · have hshort : ¬(2 ^ 31 ≤ readLen fsize off len ∧
              (∀ i, i < 2 ^ 31 → ¬(blockAt lookup (off.toNat + i)).Unsupported) ∧
              ∀ i, i < n → byteAt lookup (off.toNat + i) ≠ none) := by
            rintro ⟨hlen, hall, _⟩
            exact hall n hint (hn.stopped (by omega))
          rw [if_pos hint, readCorrect_bytes_iff hdec, or_iff_left hshort]
        · have hle := hn.le_len
          rw [if_neg hint]
          exact iff_of_true trivial (Or.inr ⟨by omega, fun i hi => hdec i (by omega), hb⟩)
    · push Not at hb
      obtain ⟨i, hi, hnone⟩ := hb
      rw [hn.fault ⟨i, Nat.zero_le _, hi, hnone⟩]
      refine iff_of_false id ?_
      rintro (hclean | ⟨_, _, hall⟩)
      · exact byteAt_ne_none_of_clean (hdec i hi) (hclean i hi).2 hnone
      · exact hall i hi hnone

/-- A 1KB data block of ones whose check code does not match. -/
def corruptBlock : BlockLookup := .found ⟨.data, compNone, 1024, some fun _ => 1, errorCheck⟩

theorem h2ReadFile_ten_bytes {l : BlockLookup} {bs : List (BitVec 8)}
    (h : copyBlock l 0 10 = .bytes bs) : h2ReadFile (fun _ => l) 10 0 10 = .bytes bs := by
  have hlen : readLen 10 0 10 = 10 := by decide
  have hoff : (0 + 0) % 2 ^ 64 - lbaseOf ((0 + 0) % 2 ^ 64) = 0 := by decide
  have hwant : min (10 - 0) (pbufSize - 0) = 10 := by decide
  unfold h2ReadFile
  rw [if_neg (by decide), hlen, UInt64.toNat_zero, readLoop, if_pos (by decide)]
  simp only [hoff, hwant, h]
  rw [readLoop, if_neg (by decide)]
  rfl

/-- A block that cannot be looked up is read as zeros, and a corrupt block as it is. -/
theorem h2ReadFile_hides_errors :
    (h2ReadFile (fun _ => .missing errorEIO) 10 0 10 = .bytes (List.replicate 10 0) ∧
      ¬ReadCorrect (fun data _ => data) (fun data _ => data) (fun _ => .missing errorEIO) 10 0
        (h2ReadFile (fun _ => .missing errorEIO) 10 0 10)) ∧
    h2ReadFile (fun _ => corruptBlock) 10 0 10 = .bytes (List.replicate 10 1) ∧
      ¬ReadCorrect (fun data _ => data) (fun data _ => data) (fun _ => corruptBlock) 10 0
        (h2ReadFile (fun _ => corruptBlock) 10 0 10) := by
  have hmissing : h2ReadFile (fun _ => .missing errorEIO) 10 0 10 = .bytes (List.replicate 10 0) :=
    h2ReadFile_ten_bytes rfl
  have hcorrupt : h2ReadFile (fun _ => corruptBlock) 10 0 10 = .bytes (List.replicate 10 1) :=
    h2ReadFile_ten_bytes rfl
  rw [hmissing, hcorrupt]
  refine ⟨⟨rfl, ?_⟩, rfl, ?_⟩
  · intro h
    exact absurd (h 0 0 rfl).2 (by decide)
  · intro h
    exact absurd (h 0 1 rfl).2 (by decide)

end Hammer2
