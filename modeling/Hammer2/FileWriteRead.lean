import Hammer2.FileWrite

/-! What a block holds after a write, and what a read makes of it. -/

namespace Hammer2

open ByteImage ByteBuffer

section Check

variable {check : BitVec 512} {methods : BitVec 8} {bytes : Nat} {bdata : Image}

theorem chainTestcheck_congr {c : CheckChain} {bdata bdata' : Image}
    (h : ∀ i < c.bytes, bdata' i = bdata i) : chainTestcheck c bdata' = chainTestcheck c bdata := by
  have hslice : slice bdata' 0 c.bytes = slice bdata 0 c.bytes := by
    unfold slice
    apply List.map_congr_left
    intro i hi
    rw [Nat.zero_add]
    exact h i (List.mem_range.mp hi)
  unfold chainTestcheck
  rw [hslice]

end Check

/-- What is needed of a chain and of the bytes of its block for a read to succeed. -/
structure StoredBlock.Ready (b : StoredBlock) (media : Nat → Image) : Prop where
  storage : b.chain.hasStorage = true
  initial : b.chain.flags.initial = false
  error : b.chain.error = 0
  data : ∀ img, b.chain.data = some img → img = media b.chain.bref.dataOff
  tested : b.chain.flags.modified = true ∨
    b.testcheck b.chain.bref (media b.chain.bref.dataOff) = true

/-- The block of a chain stands for the content: as it is, compressed, or inside an inode. -/
inductive StoredBlock.Holds (b : StoredBlock) (buf content : Image) : Prop where
  | plain (type : b.chain.bref.type = .data) (comp : b.chain.bref.methods % 16 = compNone)
      (le : b.chain.bytes ≤ pbufSize) (same : ∀ i, padZero buf b.chain.bytes i = content i)
  | stream {data : Image} {pblksize size : Nat} (type : b.chain.bref.type = .data)
      (comp : b.chain.bref.methods % 16 = compLZ4) (stream : HoldsStream data buf pblksize size)
      (fits : size + 4 ≤ b.chain.bytes) (le : b.chain.bytes ≤ pbufSize) (le' : pblksize ≤ pbufSize)
      (same : ∀ i, padZero data pblksize i = content i)
  | embedded (type : b.chain.bref.type = .inode)
      (same : ∀ i, padZero (fun i => buf (i + inodeDataOff)) embeddedBytes i = content i)

section Read

variable {b : StoredBlock} {media : Nat → Image} {content : Image} {bp : LogicalBuf}

theorem StoredBlock.Ready.load (h : b.Ready media)
    (htype : b.chain.bref.type = .data ∨ b.chain.bref.type = .inode) :
    ∃ chain, b.load media = some chain ∧ chain.bref = b.chain.bref ∧
      chain.bytes = b.chain.bytes ∧ chain.data = some (media b.chain.bref.dataOff) ∧
      chain.error = 0 := by
  have hvolume : ¬(b.chain.bref.type = .volume ∨ b.chain.bref.type = .freemap) := by
    rcases htype with htype | htype
    · rw [htype]
      simp
    · rw [htype]
      simp
  unfold StoredBlock.load chainLoadData
  cases hdata : b.chain.data with
  | some img =>
    rw [if_pos (Or.inl Option.isSome_some)]
    rw [h.data img hdata] at hdata
    exact ⟨_, rfl, rfl, rfl, hdata, h.error⟩
  | none =>
    rw [if_neg (by simp [h.storage]), if_neg Bool.false_ne_true, if_neg hvolume]
    simp only [h.initial, Bool.false_eq_true, if_false]
    by_cases hskip : (b.chain.flags.modified || b.chain.flags.testedgood) = true
    · rw [if_pos hskip]
      exact ⟨_, rfl, rfl, rfl, rfl, rfl⟩
    · rw [if_neg hskip]
      have hgood := h.tested.resolve_left fun hm => hskip (by rw [hm, Bool.true_or])
      rw [if_pos hgood]
      exact ⟨_, rfl, rfl, rfl, rfl, rfl⟩

/-- The completion delivers what the block stands for. -/
theorem StoredBlock.Holds.completion {chain : ModChain Image} (rbuf : Image)
    (hh : b.Holds (media b.chain.bref.dataOff) content) (hbref : chain.bref = b.chain.bref)
    (hbytes : chain.bytes = b.chain.bytes) (hdata : chain.data = some (media b.chain.bref.dataOff))
    (hbuf : bp.bufsize = pbufSize) (hcount : pbufSize ≤ bp.bcount) (hlt : bp.bcount < 2 ^ 63)
    (buf : Image) :
    ∃ ws, completionWrites (portDecoders (lz4Safe rbuf)) (fileChain chain) bp = some ws ∧
      HoldsContent bp (ws.foldl DestWrite.apply buf) content := by
  obtain ⟨flags, bref, bytes, data, error⟩ := chain
  dsimp only at hbref hbytes hdata
  subst hbref hbytes hdata
  have hlz4z : compLZ4 ≠ compZLIB := by decide
  have hnonez : compNone ≠ compZLIB := by decide
  have hnone4 : compNone ≠ compLZ4 := by decide
  unfold completionWrites fileChain readCompletionWrites
  dsimp only [Option.map_some]
  cases hh with
  | plain type comp le same =>
    simp only [type, comp, if_neg hnone4, if_neg hnonez, if_true]
    rw [if_neg (not_not_intro (le.trans hcount))]
    refine ⟨_, rfl, fun i hi => ?_⟩
    rw [← same i]
    exact copy_bytes_content (if_neg (not_not_intro (le.trans hcount))) i hi
  | @stream data pblksize size type comp stream fits le le' same =>
    simp only [type, comp, if_true]
    have hpbuf : pbufSize = 65536 := rfl
    have hread : ∃ ws, decompressLZ4Callback (portDecoders (lz4Safe rbuf))
        (media b.chain.bref.dataOff) b.chain.bytes bp = some ws ∧
          HoldsContent bp (ws.foldl DestWrite.apply buf) (padZero data pblksize) :=
      stream.read le' fits (by omega) (by omega) hbuf.le
    obtain ⟨ws, hws, hholds⟩ := hread
    refine ⟨ws, hws, fun i hi => ?_⟩
    rw [← same i]
    exact hholds i hi
  | embedded type same =>
    simp only [type, if_true]
    refine ⟨_, rfl, fun i hi => ?_⟩
    rw [← same i]
    exact copy_inode_content hlt i hi

/-- A read of a block gives what the block stands for. -/
theorem readBlock_holds {pfsType : ClusterPfsType} (hp : pfsType = .master ∨ pfsType = .suproot)
    {rbuf : Image} {key : UInt64} (hr : b.Ready media)
    (hh : b.Holds (media b.chain.bref.dataOff) content) (hbuf : bp.bufsize = pbufSize)
    (hcount : pbufSize ≤ bp.bcount) (hlt : bp.bcount < 2 ^ 63) (buf : Image) :
    ∃ r, readBlock pfsType rbuf key (some b) media bp buf = some r ∧ r.failed = false ∧
      HoldsContent bp r.buf content := by
  have htype : b.chain.bref.type = .data ∨ b.chain.bref.type = .inode := by
    cases hh with
    | plain type => exact Or.inl type
    | stream type => exact Or.inl type
    | embedded type => exact Or.inr type
  obtain ⟨chain, hload, hbref, hbytes, hdata, herror⟩ := hr.load htype
  obtain ⟨ws, hws, hholds⟩ := hh.completion rbuf hbref hbytes hdata hbuf hcount hlt buf
  have herr : (fileChain chain).error = 0 := herror
  have hpresent : (strategyFeed 0 (.found (fileChain chain))).2 ≠ errorENOENT := by
    change (fileChain chain).error ≠ errorENOENT
    rw [herr]
    decide
  unfold readBlock
  dsimp only
  rw [hload, Option.bind_some, xopStrategyRead_eq hp _ _ hpresent, BlockLookup.readBuf,
    if_pos herr, hws, Option.map_some]
  exact ⟨_, rfl, rfl, hholds⟩

/-- A hole reads as zeros. -/
theorem readBlock_hole {pfsType : ClusterPfsType} (hp : pfsType = .master ∨ pfsType = .suproot)
    {rbuf : Image} {key : UInt64} (hzero : ∀ i, content i = 0) (buf : Image) :
    ∃ r, readBlock pfsType rbuf key none media bp buf = some r ∧ r.failed = false ∧
      HoldsContent bp r.buf content := by
  have hpresent : (strategyFeed 0 (.missing 0)).2 ≠ errorENOENT := by decide
  unfold readBlock
  dsimp only
  rw [xopStrategyRead_eq hp _ _ hpresent, BlockLookup.readBuf, if_pos rfl]
  refine ⟨_, rfl, rfl, fun i hi => ?_⟩
  rw [hzero i]
  exact DestWrite.apply_zeros.trans (if_pos ⟨by omega, by omega⟩)

end Read

end Hammer2
