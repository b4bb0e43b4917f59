import Hammer2.StrategyRead
import Hammer2.XopFifo

namespace Hammer2

open ByteImage

/-- The buffer after a store; what lies before the buffer is left out. -/
def DestWrite.apply (buf : Image) (w : DestWrite) : Image := fun i =>
  if w.off ≤ i ∧ (i : Int) < w.off + w.bytes.length then w.bytes.getD ((i : Int) - w.off).toNat 0
  else buf i

/-- The stub of `inflate`, which returns -1 and leaves the room as it is. -/
def inflateStub (_ : Image) (_ room : Nat) : Inflated := ⟨false, room, fun _ => 0⟩

/-- The decoders of this port. `lz4` is `LZ4_decompress_safe`. -/
def portDecoders (lz4 : Image → Int → Nat → Int × Image) : Decoders := ⟨lz4, inflateStub⟩

/-- A buffer as it comes back: its bytes, and `BIO_ERROR` in `b_ioflags`. -/
structure ReadBuf where
  buf : Image
  failed : Bool

/-- The chain and the error that `hammer2_xop_strategy_read` feeds. `key` is `bref.key`. -/
def strategyFeed (key : UInt64) : BlockLookup → Option (XopChain FileChain) × Nat
  | .noParent => (none, errorEIO)
  | .missing error => (none, error)
  | .found chain => (some ⟨key, chain.error, chain⟩, chain.error)

/-- The stores of the completion. Behind a NULL data pointer, only the stub of `inflate` and a copy
of no bytes do without the data. -/
def completionWrites (dec : Decoders) (focus : FileChain) (bp : LogicalBuf) :
    Option (List DestWrite) :=
  match focus.data with
  | some data => readCompletionWrites dec focus data bp
  | none =>
    if focus.type = .data ∧ (focus.comp = compZLIB ∨ focus.comp = compNone ∧ focus.bytes = 0) then
      readCompletionWrites dec focus (fun _ => 0) bp
    else none

/-- `hammer2_xop_strategy_read` into the buffer `buf`. `none` is a failed assertion or a read
through a NULL data pointer. -/
def xopStrategyRead (pfsType : ClusterPfsType) (dec : Decoders) (key : UInt64) (l : BlockLookup)
    (bp : LogicalBuf) (buf : Image) : Option ReadBuf :=
  ((xopAlloc pfsType).feed (strategyFeed key l).1 (strategyFeed key l).2).bind fun (xop, _) =>
    xop.collect.bind fun (xop, error) =>
      if error = 0 then
        xop.focus.bind fun focus => (completionWrites dec focus.data bp).map fun ws =>
          ⟨ws.foldl DestWrite.apply buf, false⟩
      else if error = errorENOENT then
        some ⟨DestWrite.apply buf ⟨0, List.replicate bp.bcount 0⟩, false⟩
      else some ⟨buf, true⟩

/-- What a block means: zeros for a hole, and what its data decode to, with zeros behind. There is
none for a block that cannot be read or decoded. `zlib` is what the blocks of that method mean. -/
def blockContent (lz4 : Image → Int → Nat → Int × Image) (zlib : Image → Nat → Option Image)
    (bp : LogicalBuf) : BlockLookup → Option Image
  | .noParent => none
  | .missing error => if error = 0 then some fun _ => 0 else none
  | .found chain =>
    if chain.error ≠ 0 then none
    else match chain.data with
      | none =>
        if chain.type = .data ∧ chain.comp = compNone ∧ chain.bytes = 0 then some fun _ => 0
        else none
      | some data =>
        match chain.type with
        | .inode => some (padZero data embeddedBytes)
        | .data =>
          if chain.comp = compLZ4 then
            let result := lz4Result (portDecoders lz4) data bp
            if lz4Prefix data ≤ lz4Room chain.bytes ∧ 0 ≤ result.1 then
              some (padZero result.2 result.1.toNat)
            else none
          else if chain.comp = compZLIB then zlib data chain.bytes
          else if chain.comp = compNone then some (padZero data chain.bytes)
          else none
        | _ => none

/-- A lookup with the errors that a lookup and the load of a block report, none of which is that of
absence. -/
structure BlockRead where
  lookup : BlockLookup
  bp : LogicalBuf
  bcount_lt : bp.bcount < 2 ^ 63
  present : (strategyFeed 0 lookup).2 ≠ errorENOENT

/-- The bytes of the buffer that a read is about. -/
def HoldsContent (bp : LogicalBuf) (buf content : Image) : Prop :=
  ∀ i < min bp.bcount bp.bufsize, buf i = content i

/-- An `LZ4` stream that its decoder rejects, or a `ZLIB` block of other bytes than zeros. -/
def BlockLookup.Undecodable (lz4 : Image → Int → Nat → Int × Image)
    (zlib : Image → Nat → Option Image) (bp : LogicalBuf) : BlockLookup → Prop
  | .found chain => chain.error = 0 ∧ chain.type = .data ∧
      ((chain.comp = compLZ4 ∧
          ∃ data, chain.data = some data ∧ Lz4Rejected (portDecoders lz4) data chain.bytes bp) ∨
        (chain.comp = compZLIB ∧ bp.bufsize ≤ pbufSize ∧
          ¬∃ data content, chain.data = some data ∧ zlib data chain.bytes = some content ∧
            HoldsContent bp (fun _ => 0) content))
  | _ => False

section

variable {buf img : Image} {m n i : Nat}

theorem DestWrite.apply_slice (h : i < n) :
    DestWrite.apply buf ⟨0, slice img 0 n⟩ i = img i := by
  have hlen : (slice img 0 n).length = n := by simp [slice]
  unfold DestWrite.apply
  rw [if_pos ⟨by simp, by simp [hlen, h]⟩]
  simp [slice, h]

theorem DestWrite.apply_zeros {off : Int} :
    DestWrite.apply buf ⟨off, List.replicate n 0⟩ i =
      if off ≤ i ∧ (i : Int) < off + n then 0 else buf i := by
  unfold DestWrite.apply
  dsimp only
  rw [List.length_replicate]
  by_cases h : off ≤ i ∧ (i : Int) < off + n
  · rw [if_pos h, if_pos h]
    exact List.getD_replicate _ (by omega)
  · rw [if_neg h, if_neg h]

/-- The copy of a block and the zeros behind the part of it that is data. -/
theorem fold_copy_tail {p : Prop} [Decidable p] {result : Int} {tail : Nat} (hp : p ↔ result < n)
    (h0 : 0 ≤ result) (htail : result < n → result + tail = n) (hm : result ≤ m) (hi : i < n) :
    ((⟨0, slice img 0 m⟩ : DestWrite) ::
        if p then [⟨result, List.replicate tail 0⟩] else []).foldl DestWrite.apply buf i =
      padZero img result.toNat i := by
  unfold padZero
  by_cases hlt : result < n
  · have hsum := htail hlt
    rw [if_pos (hp.mpr hlt), List.foldl_cons, List.foldl_cons, List.foldl_nil,
      DestWrite.apply_zeros]
    by_cases hik : (i : Int) < result
    · rw [if_neg (by omega), if_pos (by omega), DestWrite.apply_slice (by omega)]
    · rw [if_pos (by omega), if_neg (by omega)]
  · rw [if_neg (mt hp.mp hlt), List.foldl_cons, List.foldl_nil, if_pos (by omega),
      DestWrite.apply_slice (by omega)]

end

section

variable {lz4 : Image → Int → Nat → Int × Image} {zlib : Image → Nat → Option Image}
  {bp : LogicalBuf} {buf data : Image} {ws : List DestWrite} {bytes : Nat} {chain : FileChain}

/-- The stub leaves zeros in the whole buffer. -/
theorem decompressZLIBCallback_zeros (buf : Image)
    (h : decompressZLIBCallback (portDecoders lz4) data bytes bp = some ws) :
    HoldsContent bp (ws.foldl DestWrite.apply buf) fun _ => 0 := by
  obtain ⟨-, hws⟩ := Option.ite_none_left_eq_some.mp h
  cases Option.some.inj hws
  intro i hi
  have hzero : padZero (fun _ => 0) ((bp.bufsize : Int) - bp.bufsize).toNat i = 0 := by
    unfold padZero
    split
    · rfl
    · rfl
  have havail : ((portDecoders lz4).inflate data bytes bp.bufsize).availOut = bp.bufsize := rfl
  refine (fold_copy_tail Iff.rfl ?_ ?_ ?_ ?_).trans hzero
  all_goals omega

theorem decompressLZ4Callback_content (buf : Image)
    (h : decompressLZ4Callback (portDecoders lz4) data bytes bp = some ws)
    (h0 : 0 ≤ (lz4Result (portDecoders lz4) data bp).1) :
    lz4Prefix data ≤ lz4Room bytes ∧ HoldsContent bp (ws.foldl DestWrite.apply buf)
      (padZero (lz4Result (portDecoders lz4) data bp).2
        (lz4Result (portDecoders lz4) data bp).1.toNat) := by
  obtain ⟨-, hws⟩ := Option.ite_none_left_eq_some.mp h
  obtain ⟨hroom, hws⟩ := Option.ite_none_left_eq_some.mp hws
  dsimp only at hws
  obtain ⟨hle, hws⟩ := Option.ite_none_left_eq_some.mp hws
  cases Option.some.inj hws
  refine ⟨not_not.mp hroom, fun i hi => ?_⟩
  rw [if_neg (not_lt.mpr h0)]
  apply fold_copy_tail Iff.rfl h0
  all_goals omega

/-- The content of an uncompressed block. -/
theorem copy_bytes_content
    (h : (if ¬bytes ≤ bp.bcount then none else some <| (⟨0, slice data 0 bytes⟩ : DestWrite) ::
      if bytes < bp.bcount then [⟨bytes, List.replicate (bp.bcount - bytes) 0⟩] else []) =
        some ws) :
    HoldsContent bp (ws.foldl DestWrite.apply buf) (padZero data bytes) := by
  obtain ⟨-, hws⟩ := Option.ite_none_left_eq_some.mp h
  cases Option.some.inj hws
  intro i hi
  have hp : bytes < bp.bcount ↔ (bytes : Int) < bp.bcount := Int.ofNat_lt.symm
  apply fold_copy_tail hp
  all_goals omega

/-- The content of an embedded inode. The size behind it is a `size_t`. -/
theorem copy_inode_content (hbcount : bp.bcount < 2 ^ 63) :
    HoldsContent bp (([⟨0, slice data 0 embeddedBytes⟩, ⟨embeddedBytes, List.replicate
        ((bp.bcount + 2 ^ 64 - embeddedBytes) % 2 ^ 64) 0⟩] : List DestWrite).foldl
      DestWrite.apply buf) (padZero data embeddedBytes) := by
  intro i hi
  rw [List.foldl_cons, List.foldl_cons, List.foldl_nil, DestWrite.apply_zeros]
  unfold padZero
  by_cases hik : i < embeddedBytes
  · rw [if_neg (by omega), if_pos hik, DestWrite.apply_slice hik]
  · have hmod : (bp.bcount + 2 ^ 64 - embeddedBytes) % 2 ^ 64 = bp.bcount - embeddedBytes := by
      have hle : embeddedBytes ≤ bp.bcount := by omega
      rw [Nat.sub_add_comm hle, Nat.add_mod_right, Nat.mod_eq_of_lt (by omega)]
    rw [if_pos ⟨by omega, by omega⟩, if_neg hik]

/-- A completion delivers the content of the block unless it cannot be decoded. -/
theorem completionWrites_content (hbcount : bp.bcount < 2 ^ 63) (herror : chain.error = 0)
    (hun : ¬(BlockLookup.found chain).Undecodable lz4 zlib bp)
    (h : completionWrites (portDecoders lz4) chain bp = some ws) :
    ∃ content, blockContent lz4 zlib bp (.found chain) = some content ∧
      HoldsContent bp (ws.foldl DestWrite.apply buf) content := by
  have hlz4z : compLZ4 ≠ compZLIB := by decide
  have hnonez : compNone ≠ compZLIB := by decide
  have hnone4 : compNone ≠ compLZ4 := by decide
  obtain ⟨type, comp, bytes, data, error⟩ := chain
  dsimp only at herror
  unfold completionWrites readCompletionWrites at h
  unfold blockContent
  simp only [herror, ne_eq, not_true_eq_false, if_false]
  cases data with
  | none =>
    simp only [Option.ite_none_right_eq_some] at h
    obtain ⟨⟨rfl, hcomp⟩, h⟩ := h
    rcases hcomp with rfl | ⟨rfl, rfl⟩
    · -- the stub answers for a block that was never loaded
      rw [if_neg hlz4z.symm, if_pos rfl] at h
      obtain ⟨hsize, -⟩ := Option.ite_none_left_eq_some.mp h
      refine absurd ⟨herror, rfl, Or.inr ⟨rfl, not_not.mp hsize, ?_⟩⟩ hun
      rintro ⟨_, _, hdata, -⟩
      cases hdata
    · rw [if_neg hnone4, if_neg hnonez, if_pos rfl] at h
      exact ⟨_, if_pos ⟨rfl, rfl, rfl⟩, copy_bytes_content h⟩
  | some data =>
    cases type with
    | inode =>
      cases Option.some.inj h
      exact ⟨_, rfl, copy_inode_content hbcount⟩
    | data =>
      dsimp only at h ⊢
      by_cases h4 : comp = compLZ4
      · rw [if_pos h4] at h ⊢
        have h0 : 0 ≤ (lz4Result (portDecoders lz4) data bp).1 := by
          by_contra hneg
          obtain ⟨hbuf, hws⟩ := Option.ite_none_left_eq_some.mp h
          obtain ⟨hroom, -⟩ := Option.ite_none_left_eq_some.mp hws
          exact hun ⟨herror, rfl, Or.inl ⟨h4, data, rfl, not_not.mp hbuf, not_not.mp hroom,
            not_le.mp hneg⟩⟩
        obtain ⟨hroom, hholds⟩ := decompressLZ4Callback_content buf h h0
        exact ⟨_, if_pos ⟨hroom, h0⟩, hholds⟩
      · rw [if_neg h4] at h ⊢
        by_cases hz : comp = compZLIB
        · rw [if_pos hz] at h ⊢
          have hholds := decompressZLIBCallback_zeros buf h
          obtain ⟨hbuf, -⟩ := Option.ite_none_left_eq_some.mp h
          by_contra hcontent
          refine hun ⟨herror, rfl, Or.inr ⟨hz, not_not.mp hbuf, ?_⟩⟩
          rintro ⟨data', content, hdata, hzlib, hzero⟩
          cases Option.some.inj hdata
          exact hcontent ⟨content, hzlib, fun i hi => (hholds i hi).trans (hzero i hi)⟩
        · rw [if_neg hz] at h ⊢
          obtain ⟨hcomp, h⟩ := Option.ite_none_right_eq_some.mp h
          rw [if_pos hcomp]
          exact ⟨_, rfl, copy_bytes_content h⟩
    | _ => cases h

/-- A block that cannot be decoded is delivered as something else. -/
theorem completionWrites_undecodable (buf : Image) (hun : (BlockLookup.found chain).Undecodable lz4 zlib bp) :
    ∃ ws, completionWrites (portDecoders lz4) chain bp = some ws ∧
      ¬∃ content, blockContent lz4 zlib bp (.found chain) = some content ∧
        HoldsContent bp (ws.foldl DestWrite.apply buf) content := by
  have hz4 : compZLIB ≠ compLZ4 := by decide
  have hznone : compZLIB ≠ compNone := by decide
  obtain ⟨type, comp, bytes, data, error⟩ := chain
  obtain ⟨herror, htype, hcomp⟩ := hun
  dsimp only at herror htype hcomp
  subst htype
  unfold completionWrites readCompletionWrites blockContent
  simp only [herror, ne_eq, not_true_eq_false, if_false, true_and]
  rcases hcomp with ⟨rfl, data, rfl, hrej⟩ | ⟨rfl, hbuf, hcontent⟩
  · refine ⟨_, (if_pos rfl).trans (decompressLZ4Callback_rejected hrej), ?_⟩
    rintro ⟨content, hnone, -⟩
    dsimp only at hnone
    rw [if_pos rfl, if_neg (fun h => absurd h.2 (not_le.mpr hrej.2.2))] at hnone
    cases hnone
  · obtain ⟨ws, hws⟩ : ∃ ws, decompressZLIBCallback (portDecoders lz4) (data.getD fun _ => 0)
        bytes bp = some ws := ⟨_, if_neg (not_not_intro hbuf)⟩
    have hholds := decompressZLIBCallback_zeros buf hws
    cases data with
    | none =>
      refine ⟨ws, ?_, ?_⟩
      · rw [if_pos (Or.inl rfl)]
        exact (if_neg hz4).trans ((if_pos rfl).trans hws)
      · rintro ⟨content, hnone, -⟩
        rw [if_neg (fun h => hznone h.1)] at hnone
        cases hnone
    | some data =>
      refine ⟨ws, (if_neg hz4).trans ((if_pos rfl).trans hws), ?_⟩
      rintro ⟨content, hzlib, hsame⟩
      dsimp only at hzlib
      rw [if_neg hz4, if_pos rfl] at hzlib
      exact hcontent ⟨data, content, rfl, hzlib, fun i hi => (hholds i hi).symm.trans (hsame i hi)⟩

end

/-- What `hammer2_xop_strategy_read` makes of each kind of lookup. -/
def BlockLookup.readBuf (dec : Decoders) (bp : LogicalBuf) (buf : Image) :
    BlockLookup → Option ReadBuf
  | .noParent => some ⟨buf, true⟩
  | .missing error =>
    if error = 0 then some ⟨DestWrite.apply buf ⟨0, List.replicate bp.bcount 0⟩, false⟩
    else some ⟨buf, true⟩
  | .found chain =>
    if chain.error = 0 then
      (completionWrites dec chain bp).map fun ws => ⟨ws.foldl DestWrite.apply buf, false⟩
    else some ⟨buf, true⟩

theorem xopStrategyRead_eq {pfsType : ClusterPfsType}
    (hp : pfsType = .master ∨ pfsType = .suproot) (dec : Decoders) (key : UInt64)
    {l : BlockLookup} (hl : (strategyFeed 0 l).2 ≠ errorENOENT) (bp : LogicalBuf) (buf : Image) :
    xopStrategyRead pfsType dec key l bp buf = l.readBuf dec bp buf := by
  unfold xopStrategyRead BlockLookup.readBuf
  cases l with
  | noParent =>
    obtain ⟨xop, xop', hfeed, hcollect, hfocus⟩ :=
      XopCollector.feed_collect_null (δ := FileChain) hp errorEIO
    have hresult : XopCollector.terminalResult errorEIO = errorEIO := rfl
    simp only [strategyFeed, hfeed, Option.bind_some, hcollect, hresult]
    rw [if_neg (by decide), if_neg (by decide)]
  | missing error =>
    obtain ⟨xop, xop', hfeed, hcollect, hfocus⟩ :=
      XopCollector.feed_collect_null (δ := FileChain) hp error
    have hne : error ≠ errorENOENT := hl
    simp only [strategyFeed, hfeed, Option.bind_some, hcollect]
    unfold XopCollector.terminalResult
    by_cases h0 : error = 0
    · rw [if_pos h0, if_neg (by decide), if_pos rfl, if_pos h0]
    · rw [if_neg h0, if_neg h0, if_neg hne, if_neg h0]
  | found chain =>
    obtain ⟨xop, xop', hfeed, hcollect, hfocus⟩ :=
      XopCollector.feed_collect_chain hp ⟨key, chain.error, chain⟩ chain.error
    have hstored : XopCollector.storedError (some ⟨key, chain.error, chain⟩) chain.error =
        chain.error := ite_self _
    have hne : chain.error ≠ errorENOENT := hl
    simp only [strategyFeed, hfeed, Option.bind_some, hcollect, hstored, hfocus]
    by_cases h0 : chain.error = 0
    · rw [if_pos h0, if_pos h0]
    · rw [if_neg h0, if_neg hne, if_neg h0]

/-- A read that comes back without `BIO_ERROR` has the content of the block, exactly when the block
is none that cannot be decoded. -/
theorem strategy_read_content_iff {pfsType : ClusterPfsType}
    (hp : pfsType = .master ∨ pfsType = .suproot) (lz4 : Image → Int → Nat → Int × Image)
    (zlib : Image → Nat → Option Image) (key : UInt64) (b : BlockRead) (buf : Image) :
    (∀ r, xopStrategyRead pfsType (portDecoders lz4) key b.lookup b.bp buf = some r →
        r.failed = false →
        ∃ content, blockContent lz4 zlib b.bp b.lookup = some content ∧
          HoldsContent b.bp r.buf content) ↔
      ¬b.lookup.Undecodable lz4 zlib b.bp := by
  rw [xopStrategyRead_eq hp _ _ b.present]
  obtain ⟨l, bp, hbcount, hpresent⟩ := b
  dsimp only
  cases l with
  | noParent =>
    refine iff_of_true (fun r hr hok => ?_) not_false
    cases Option.some.inj hr
    cases hok
  | missing error =>
    refine iff_of_true (fun r hr hok => ?_) not_false
    rw [BlockLookup.readBuf] at hr
    split at hr
    next h0 =>
      cases Option.some.inj hr
      rw [blockContent]
      refine ⟨_, if_pos h0, fun i hi => ?_⟩
      exact DestWrite.apply_zeros.trans (if_pos ⟨by omega, by omega⟩)
    next =>
      cases Option.some.inj hr
      cases hok
  | found chain =>
    rw [BlockLookup.readBuf]
    by_cases h0 : chain.error = 0
    · rw [if_pos h0]
      constructor
      · intro h hun
        obtain ⟨ws, hws, hne⟩ := completionWrites_undecodable buf hun
        rw [hws] at h
        exact hne (h _ rfl rfl)
      · intro hun r hr _
        obtain ⟨ws, hws, rfl⟩ := Option.map_eq_some_iff.mp hr
        exact completionWrites_content hbcount h0 hun hws
    · rw [if_neg h0]
      refine iff_of_true (fun r hr hok => ?_) (fun hun => h0 hun.1)
      cases Option.some.inj hr
      cases hok

/-- A zlib block of 1KB in a logical buffer of 64KB. -/
def zlibBlock : BlockRead where
  lookup := .found ⟨.data, compZLIB, 1024, some fun _ => 0x78, 0⟩
  bp := ⟨65536, 65536⟩
  bcount_lt := by decide
  present := by decide

/-- The block comes back as zeros and with success, whatever it means. -/
theorem strategy_read_zlib_zeros :
    ∃ r, xopStrategyRead .master (portDecoders fun _ _ _ => (-1, fun _ => 0)) 0 zlibBlock.lookup
        zlibBlock.bp (fun _ => 0xff) = some r ∧ r.failed = false ∧
      HoldsContent zlibBlock.bp r.buf (fun _ => 0) ∧
      blockContent (fun _ _ _ => (-1, fun _ => 0)) (fun _ _ => some fun _ => 0x61) zlibBlock.bp
        zlibBlock.lookup = some (fun _ => 0x61) ∧
      ¬HoldsContent zlibBlock.bp r.buf (fun _ => 0x61) := by
  obtain ⟨ws, hws⟩ : ∃ ws, decompressZLIBCallback (portDecoders fun _ _ _ => (-1, fun _ => 0))
      (fun _ => 0x78) 1024 zlibBlock.bp = some ws := ⟨_, rfl⟩
  have hzero := decompressZLIBCallback_zeros (fun _ => 0xff) hws
  refine ⟨⟨ws.foldl DestWrite.apply fun _ => 0xff, false⟩, ?_, rfl, hzero, rfl, ?_⟩
  · rw [xopStrategyRead_eq (Or.inl rfl) _ _ zlibBlock.present]
    have hwrites : completionWrites (portDecoders fun _ _ _ => (-1, fun _ => 0))
        ⟨.data, compZLIB, 1024, some fun _ => 0x78, 0⟩ zlibBlock.bp = some ws := by
      have hne : ¬compZLIB = compLZ4 := by decide
      unfold completionWrites readCompletionWrites
      dsimp only
      rw [if_neg hne, if_pos rfl, hws]
    rw [zlibBlock, BlockLookup.readBuf, if_pos rfl]
    exact congrArg (Option.map _) hwrites
  · intro hsame
    have h0 : (0 : Nat) < min zlibBlock.bp.bcount zlibBlock.bp.bufsize := by decide
    have hbyte := (hzero 0 h0).symm.trans (hsame 0 h0)
    exact absurd hbyte (by decide)

/-- A hole. -/
def holeBlock : BlockRead where
  lookup := .missing 0
  bp := ⟨65536, 65536⟩
  bcount_lt := by decide
  present := by decide

theorem strategy_read_content_hole :
    ∃ r content, xopStrategyRead .master (portDecoders fun _ _ _ => (-1, fun _ => 0)) 0
        holeBlock.lookup holeBlock.bp (fun _ => 0xff) = some r ∧
      blockContent (fun _ _ _ => (-1, fun _ => 0)) (fun _ _ => none) holeBlock.bp
        holeBlock.lookup = some content ∧ HoldsContent holeBlock.bp r.buf content := by
  have hrun : xopStrategyRead .master (portDecoders fun _ _ _ => (-1, fun _ => 0)) 0
      holeBlock.lookup holeBlock.bp (fun _ => 0xff) = some ⟨_, false⟩ :=
    xopStrategyRead_eq (Or.inl rfl) _ _ holeBlock.present _ _
  obtain ⟨content, hcontent, hholds⟩ := (strategy_read_content_iff (Or.inl rfl)
    (fun _ _ _ => (-1, fun _ => 0)) (fun _ _ => none) 0 holeBlock fun _ => 0xff).mpr not_false _
    hrun rfl
  exact ⟨_, content, hrun, hcontent, hholds⟩

end Hammer2
