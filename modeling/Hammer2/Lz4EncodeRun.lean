import Hammer2.Lz4Emit

namespace Hammer2

open ByteImage ByteBuffer Lz4 Lz77

/-- How far the stores of the compressor reach beyond `maxOutputSize`: it checks the room with
`length >> 8` where a length takes a byte for every 255. -/
def lz4Slack (n : Nat) : Nat := (n / 256 + 240) / 255

/-- The bytes `out` stand in the output, and with the front of them, `seqs`, for the first `pos`
bytes of the source. -/
structure Emitted (src dst : ByteBuffer) (n pos : Nat) (seqs : List (Sequence Byte))
    (out : List Byte) : Prop where
  holds : HoldsAt dst.bytes 0 out
  expand : expandAll [] seqs = slice src.bytes 0 pos
  legal : LegalFrom n 0 seqs

/-- What holds wherever the compressor stands. `cap` is the size of the output buffer. -/
def Lz4Encoder.Inv (src : ByteBuffer) (n cap : Nat) : Lz4Encoder → Prop
  | .search ip anchor op dst table => dst.size = cap ∧ ip = anchor + 1 ∧ anchor + 12 ≤ n ∧
      table.Before ip ∧ ∃ seqs, Emitted src dst n anchor seqs (seqs.flatMap sequenceBytes) ∧
        op = (seqs.flatMap sequenceBytes).length
  | .nextMatch ip ref token op dst table => dst.size = cap ∧ op + 2 ≤ cap ∧ ref < ip ∧
      ip - ref ≤ 65535 ∧ ip + 12 ≤ n ∧
      (∃ e, ip + 4 ≤ e ∧ e + 5 ≤ n ∧ Agrees src.bytes (ip - ref) ip e ∧ table.Before e) ∧
      ∃ seqs start, start ≤ ip ∧ token = (seqs.flatMap sequenceBytes).length ∧
        op = token + (runBytes 0 (slice src.bytes start (ip - start))).length ∧
        Emitted src dst n start seqs
          (seqs.flatMap sequenceBytes ++ runBytes 0 (slice src.bytes start (ip - start)))
  | .lastLiterals anchor op dst => dst.size = cap ∧ anchor ≤ n ∧
      ∃ seqs, Emitted src dst n anchor seqs (seqs.flatMap sequenceBytes) ∧
        op = (seqs.flatMap sequenceBytes).length
  | .full dst => dst.size = cap

/-- Every step of the compressor makes this smaller. -/
def Lz4Encoder.measure (n : Nat) : Lz4Encoder → Nat
  | .search _ anchor _ _ _ => 2 * (n - anchor) + 2
  | .nextMatch ip _ _ _ _ _ => 2 * (n - ip) + 1
  | .lastLiterals _ _ _ => 0
  | .full _ => 0

section

variable {src dst dst' : ByteBuffer} {n oend cap ip ref anchor op token len pos : Nat}
  {table : HashTable} {seqs : List (Sequence Byte)} {out out' : List Byte}

theorem lengthTail_le (len : Nat) (hlen : len ≤ n) :
    (lengthTail len).length ≤ len / 256 + 1 + lz4Slack n := by
  rw [lengthTail_length]
  unfold lz4Slack
  split <;> omega

theorem Emitted.sizeAll (h : Emitted src dst n pos seqs out) : Lz77.sizeAll seqs = pos := by
  have hlen : (expandAll [] seqs).length = 0 + Lz77.sizeAll seqs :=
    expandAll_length [] n h.legal
  rw [h.expand, slice_length, Nat.zero_add] at hlen
  exact hlen.symm

/-- A search ends at the last literals, without room, or at a match behind a run of literals. -/
theorem encodeSearch_inv (hn : n ≤ src.size) (hcap : oend + lz4Slack n ≤ cap)
    (h : (Lz4Encoder.search ip anchor op dst table).Inv src n cap) :
    ∃ next, encodeSearch src n oend ip anchor op dst table = some next ∧ next.Inv src n cap ∧
      next.measure n < (Lz4Encoder.search ip anchor op dst table).measure n := by
  obtain ⟨hsize, rfl, hanchor, ht, seqs, hem, hop⟩ := h
  obtain ⟨forwardH, hhash⟩ := hashValue_eq src (anchor + 1) (by omega)
  obtain ⟨found, hfind, hfound⟩ := findMatch_spec src (n - 12) (n + 1)
    (2 ^ 6 + 3) forwardH (by omega) (by decide) (by omega) ht
  unfold encodeSearch mfLimit copyLength minMatch skipStrength lastLiterals
  rw [hhash, Option.bind_eq_bind, Option.bind_some, hfind, Option.bind_eq_bind, Option.bind_some]
  cases found with
  | lastLiterals =>
    exact ⟨_, rfl, ⟨hsize, by omega, seqs, hem, hop⟩, by simp only [Lz4Encoder.measure]; omega⟩
  | found ip1 ref1 table1 =>
    obtain ⟨hle1, hlt1, href1, hnear1, hag1, ht1⟩ := hfound
    obtain ⟨ref2, ip2, hcatch, hanchor2, hle2, href2, hdist, hag2⟩ := catchUp_spec
      src href1 (by omega) (show anchor ≤ ip1 by omega)
    dsimp only
    rw [hcatch, Option.bind_eq_bind, Option.bind_some]
    dsimp only
    by_cases hroom : oend < op + 1 + (ip2 - anchor) + (2 + 1 + 5) + (ip2 - anchor) / 2 ^ 8
    · rw [if_pos hroom]
      exact ⟨_, rfl, hsize, by simp only [Lz4Encoder.measure]; omega⟩
    · have htail := lengthTail_le (ip2 - anchor) (n := n) (by omega)
      have hwild := wildBytes_le (op + 1 + (lengthTail (ip2 - anchor)).length)
        (op + 1 + (lengthTail (ip2 - anchor)).length + (ip2 - anchor))
      have hge := wildBytes_ge (op + 1 + (lengthTail (ip2 - anchor)).length)
        (op + 1 + (lengthTail (ip2 - anchor)).length + (ip2 - anchor))
      have hshort : (lengthTail (ip2 - anchor)).length = 0 ∨ 15 ≤ ip2 - anchor := by
        rw [lengthTail_length]
        split <;> omega
      obtain ⟨dst1, hrun, hsize1, hout1⟩ := storeRun_append (n := ip2 - anchor) hem.holds (by omega)
      rw [← hop] at hrun
      rw [if_neg hroom, hrun, Option.bind_eq_bind, Option.bind_some]
      dsimp only
      rw [wildCopy_from (by omega) (by omega) (by omega), Option.bind_eq_bind, Option.bind_some]
      dsimp only
      have hrunLen : (slice src.bytes anchor (ip2 - anchor)).length = ip2 - anchor :=
        slice_length _ _ _
      have hfront : (seqs.flatMap sequenceBytes ++
          (tokenByte (ip2 - anchor) 0 :: lengthTail (ip2 - anchor))).length =
          op + 1 + (lengthTail (ip2 - anchor)).length := by
        rw [List.length_append, List.length_cons, ← hop]
        omega
      have hlits := holdsAt_splice (n := wildBytes (op + 1 + (lengthTail (ip2 - anchor)).length)
        (op + 1 + (lengthTail (ip2 - anchor)).length + (ip2 - anchor))) hout1
        (holdsAt_slice src.bytes anchor (ip2 - anchor)) (by omega)
      rw [hfront, List.append_assoc, List.cons_append] at hlits
      have hbytes : runBytes 0 (slice src.bytes anchor (ip2 - anchor)) =
          tokenByte (ip2 - anchor) 0 ::
            (lengthTail (ip2 - anchor) ++ slice src.bytes anchor (ip2 - anchor)) := by
        rw [runBytes, hrunLen]
      refine ⟨_, rfl, ⟨hsize1.trans hsize, by omega, href2, by omega, by omega,
        ⟨ip1 + 4, by omega, by omega, ?_, ht1.mono (by omega)⟩,
        seqs, anchor, hanchor2, hop, ?_, ?_, hem.expand, hem.legal⟩, ?_⟩
      · rw [hdist]
        exact hag2.trans hag1
      · rw [runBytes_length, hrunLen]
        omega
      · rw [hbytes]
        exact hlits
      · simp only [Lz4Encoder.measure]
        omega

/-- The bytes of a sequence whose match is stored at last. -/
theorem Emitted.append {start : Nat} {s : Sequence Byte} (hr : start ≤ ip) (hip : ip + 12 ≤ n)
    (href : ref < ip) (hnear : ip - ref ≤ 65535) (hpos : ip + 4 ≤ pos) (hend : pos + 5 ≤ n)
    (hag : Agrees src.bytes (ip - ref) ip pos)
    (hs : s = ⟨slice src.bytes start (ip - start), ip - ref, pos - ip⟩)
    (h : Emitted src dst n start seqs out) (hholds : HoldsAt dst'.bytes 0 out') :
    Emitted src dst' n pos (seqs ++ [s]) out' := by
  subst s
  have hlen : (slice src.bytes start (ip - start)).length = ip - start := slice_length _ _ _
  have hsum := h.sizeAll
  have hsz : Sequence.size ⟨slice src.bytes start (ip - start), ip - ref, pos - ip⟩ =
      pos - start := by
    change (slice src.bytes start (ip - start)).length + (pos - ip) = pos - start
    omega
  refine ⟨hholds, ?_, h.legal.append ⟨⟨?_, ?_, ?_, ?_, ?_, ?_⟩, trivial⟩⟩
  · have hfront : slice src.bytes 0 start ++ slice src.bytes start (ip - start) =
        slice src.bytes 0 ip := by
      have hadd := slice_add src.bytes 0 start (ip - start)
      rw [Nat.zero_add, Nat.add_sub_cancel' hr] at hadd
      exact hadd.symm
    have hcopy := copyBack_slice src.bytes (d := ip - ref) (n := pos - ip)
      (by omega) (show ip - ref ≤ ip by omega) fun k h1 h2 => hag k h1 (by omega)
    rw [Nat.add_sub_cancel' (by omega)] at hcopy
    rw [expandAll_snoc, h.expand, Sequence.expand, hfront, hcopy]
  all_goals simp only [hsz, hlen, hsum]; omega

/-- A match is counted to its end and stored; the compressor goes on with the literals that are
left, with a match at the same place, or with a search. -/
theorem encodeMatch_inv (hn : n ≤ src.size) (hcap : oend + lz4Slack n ≤ cap)
    (h : (Lz4Encoder.nextMatch ip ref token op dst table).Inv src n cap) :
    ∃ next, encodeMatch src n oend ip ref token op dst table = some next ∧ next.Inv src n cap ∧
      next.measure n < (Lz4Encoder.nextMatch ip ref token op dst table).measure n := by
  obtain ⟨hsize, hfit, href, hnear, hip, ⟨e, he, hen, hag, ht⟩, seqs, start, hstart, htoken, hop,
    hem⟩ := h
  obtain ⟨r, hcount, hler, hmaxr, hagr, hstop⟩ := countMatch_spec src
    (show ip - ref ≤ ip + 4 by omega) (show n - 5 ≤ src.size by omega)
  have her : e ≤ r := by
    by_contra hlt
    rcases hstop with hlimit | hne
    · omega
    · exact hne (hag r (by omega) (by omega))
  have hagree : Agrees src.bytes (ip - ref) ip r :=
    fun x h1 h2 => (Nat.lt_or_ge x e).elim (hag x h1) fun hge => hagr x (by omega) h2
  have hoff := holdsAt_setLE_offset (v := ip - ref) hem.holds
  have hoplen : op = (seqs.flatMap sequenceBytes ++
      runBytes 0 (slice src.bytes start (ip - start))).length := by
    rw [List.length_append, ← htoken]
    exact hop
  rw [← hoplen, List.append_assoc, runBytes, List.cons_append] at hoff
  have htail := lengthTail_le (r - (ip + 4)) (n := n) (by omega)
  unfold encodeMatch mfLimit copyLength minMatch lastLiterals
  rw [storeWord_eq (by omega), Option.bind_eq_bind, Option.bind_some]
  dsimp only
  rw [show ref + 4 = ip + 4 - (ip - ref) by omega, hcount, Option.bind_eq_bind, Option.bind_some]
  by_cases hroom : oend < op + 2 + (1 + 5) + (r - (ip + 4)) / 2 ^ 8
  · rw [if_pos hroom]
    exact ⟨_, rfl, hsize, by simp only [Lz4Encoder.measure]; omega⟩
  have hlits : (slice src.bytes start (ip - start)).length = ip - start := slice_length _ _ _
  have hmid : op + 2 = (seqs.flatMap sequenceBytes ++
      tokenByte (slice src.bytes start (ip - start)).length 0 ::
        (lengthTail (slice src.bytes start (ip - start)).length ++
          slice src.bytes start (ip - start) ++ offsetBytes (ip - ref))).length := by
    rw [hoplen, runBytes]
    simp [offsetBytes]
    omega
  obtain ⟨dst1, hstore, hsize1, hout1⟩ := storeMatch_append
    ⟨dst.size, setLE dst.bytes op 2 (ip - ref)⟩ (n := r - (ip + 4)) hoff hmid
    (by change _ ≤ dst.size; omega)
  change dst1.size = dst.size at hsize1
  obtain ⟨s, hs⟩ : ∃ s : Sequence Byte,
    s = ⟨slice src.bytes start (ip - start), ip - ref, r - ip⟩ := ⟨_, rfl⟩
  have hseq : sequenceBytes s = tokenByte (slice src.bytes start (ip - start)).length
      (r - (ip + 4)) :: (lengthTail (slice src.bytes start (ip - start)).length ++
        slice src.bytes start (ip - start) ++ offsetBytes (ip - ref) ++
          lengthTail (r - (ip + 4))) := by
    rw [sequenceBytes_eq, hs, Nat.sub_sub]
  have hflat : (seqs ++ [s]).flatMap sequenceBytes =
      seqs.flatMap sequenceBytes ++ sequenceBytes s := by simp
  rw [← hseq, ← hflat] at hout1
  have hem1 := hem.append hstart hip href hnear (by omega) (by omega) hagree hs hout1
  have hop1 : op + 2 + (lengthTail (r - (ip + 4))).length =
      ((seqs ++ [s]).flatMap sequenceBytes).length := by
    rw [hflat, List.length_append, hseq, hmid]
    simp
    omega
  rw [← htoken] at hstore
  rw [if_neg hroom, hstore, Option.bind_eq_bind, Option.bind_some]
  dsimp only
  by_cases hlast : n - (8 + 4) < r
  · rw [if_pos hlast]
    exact ⟨_, rfl, ⟨hsize1.trans hsize, by omega, _, hem1, hop1⟩,
      by simp only [Lz4Encoder.measure]; omega⟩
  · obtain ⟨h2, hhash2⟩ := hashValue_eq src (r - 2) (by omega)
    obtain ⟨h, hhash⟩ := hashValue_eq src r (by omega)
    have ht2 : (table.record h2 (r - 2)).Before r := (ht.mono her).record (by omega)
    have ht3 : ((table.record h2 (r - 2)).record h r).Before (r + 1) :=
      (ht2.mono (Nat.le_succ r)).record (Nat.lt_succ_self r)
    have hrefr := ht2 h
    obtain ⟨same, hsame, hiff⟩ := isMatch_eq src
      (Nat.sub_le r (table.record h2 (r - 2) h).toNat) (by omega)
    rw [Nat.sub_sub_self hrefr.le] at hsame
    rw [if_neg hlast, hhash2]
    simp only [Option.bind_eq_bind, Option.bind_some, hhash, hsame]
    cases same with
    | true =>
      obtain ⟨hnear', hag'⟩ := hiff.mp rfl
      obtain ⟨dst2, hstore2, hsize2, hout2⟩ := store_append (b := tokenByte 0 0) hout1 (by omega)
      rw [← hop1] at hstore2
      rw [if_pos rfl, show (0 : BitVec 8) = tokenByte 0 0 from rfl, hstore2, Option.bind_some]
      refine ⟨_, rfl, ⟨(hsize2.trans hsize1).trans hsize, by omega, hrefr, hnear', by omega,
        ⟨r + 4, le_rfl, by omega, hag', ht3.mono (by omega)⟩, _, r, le_rfl, hop1, ?_, ?_,
        hem1.expand, hem1.legal⟩, by simp only [Lz4Encoder.measure]; omega⟩
      · rw [Nat.sub_self]
        rfl
      · rw [Nat.sub_self]
        exact hout2
    | false =>
      exact ⟨_, rfl, ⟨hsize1.trans hsize, rfl, by omega, ht3, _, hem1, hop1⟩,
        by simp only [Lz4Encoder.measure]; omega⟩

/-- The block that the compressor ends with. -/
theorem encodeLast_spec (oend : Nat) (seqs : List (Sequence Byte)) (hn : n ≤ src.size)
    (hcap : oend ≤ dst.size) (hpos : pos ≤ n)
    (hem : Emitted src dst n pos seqs (seqs.flatMap sequenceBytes))
    (hop : op = (seqs.flatMap sequenceBytes).length) :
    ∃ result dst', encodeLast src n oend pos op dst = some (result, dst') ∧
      dst'.size = dst.size ∧ (result = 0 ∨ result ≤ oend ∧ ∃ b : Block, b.Legal n ∧
        b.encode.length = result ∧ HoldsAt dst'.bytes 0 b.encode ∧
        b.expand = slice src.bytes 0 n) := by
  have hlits : (slice src.bytes pos (n - pos)).length = n - pos := slice_length _ _ _
  have htail := lengthTail_length (n - pos)
  have hext : (lengthTail (n - pos)).length = (n - pos + 255 - 15) / 255 := by
    rw [htail]
    split <;> omega
  unfold encodeLast runMask
  by_cases hroom : oend < op + (n - pos) + 1 + (n - pos + 255 - 15) / 255
  · rw [if_pos hroom]
    exact ⟨0, dst, rfl, rfl, Or.inl rfl⟩
  · obtain ⟨dst1, hrun, hsize1, hout1⟩ := storeRun_append (n := n - pos) hem.holds (by omega)
    rw [← hop] at hrun
    have hfront : (seqs.flatMap sequenceBytes ++
        (tokenByte (n - pos) 0 :: lengthTail (n - pos))).length =
        op + 1 + (lengthTail (n - pos)).length := by
      rw [List.length_append, List.length_cons, ← hop]
      omega
    have hall := holdsAt_splice (n := n - pos) hout1 (holdsAt_slice src.bytes pos (n - pos))
      (by omega)
    rw [hfront, List.append_assoc, List.cons_append] at hall
    have hbytes : runBytes 0 (slice src.bytes pos (n - pos)) = tokenByte (n - pos) 0 ::
        (lengthTail (n - pos) ++ slice src.bytes pos (n - pos)) := by
      rw [runBytes, hlits]
    rw [if_neg hroom, hrun, Option.bind_eq_bind, Option.bind_some]
    dsimp only
    rw [copyFrom_eq (by omega) (by omega)]
    have hencode : Block.encode ⟨seqs, slice src.bytes pos (n - pos)⟩ =
        seqs.flatMap sequenceBytes ++ (tokenByte (n - pos) 0 ::
          (lengthTail (n - pos) ++ slice src.bytes pos (n - pos))) := by
      rw [Block.encode, hbytes]
    refine ⟨_, _, rfl, hsize1, Or.inr ⟨by omega, ⟨seqs, slice src.bytes pos (n - pos)⟩,
      ⟨hem.legal, ?_⟩, ?_, ?_, ?_⟩⟩
    · rw [hem.sizeAll, hlits]
      omega
    · rw [hencode, List.length_append, List.length_cons, List.length_append, hlits, ← hop]
      omega
    · rw [hencode]
      exact hall
    · have hadd := slice_add src.bytes 0 pos (n - pos)
      rw [Nat.zero_add, Nat.add_sub_cancel' hpos] at hadd
      rw [Block.expand, hem.expand, hadd]

theorem encodeLoop_spec {fuel : Nat} {state : Lz4Encoder} (hn : n ≤ src.size)
    (hcap : oend + lz4Slack n ≤ cap) (h : state.Inv src n cap) (hfuel : state.measure n < fuel) :
    ∃ result dst', encodeLoop src n oend fuel state = some (result, dst') ∧ dst'.size = cap ∧
      (result = 0 ∨ result ≤ oend ∧ ∃ b : Block, b.Legal n ∧ b.encode.length = result ∧
        HoldsAt dst'.bytes 0 b.encode ∧ b.expand = slice src.bytes 0 n) := by
  induction fuel generalizing state with
  | zero => exact absurd hfuel (Nat.not_lt_zero _)
  | succ fuel ih =>
    cases state with
    | search ip anchor op dst table =>
      obtain ⟨next, hnext, hinv, hless⟩ := encodeSearch_inv hn hcap h
      rw [encodeLoop, hnext, Option.bind_some]
      exact ih hinv (by omega)
    | nextMatch ip ref token op dst table =>
      obtain ⟨next, hnext, hinv, hless⟩ := encodeMatch_inv hn hcap h
      rw [encodeLoop, hnext, Option.bind_some]
      exact ih hinv (by omega)
    | lastLiterals anchor op dst =>
      obtain ⟨hsize, hle, seqs, hem, hop⟩ := h
      obtain ⟨result, dst', hlast, hsame, hblock⟩ := encodeLast_spec oend seqs hn (by omega)
        hle hem hop
      exact ⟨result, dst', hlast, hsame.trans hsize, hblock⟩
    | full dst => exact ⟨0, dst, rfl, h, Or.inl rfl⟩

end

/-- The compressor stays in its buffers and leaves a block that stands for the source, or reports
that there is no room. -/
theorem lz4CompressLimitedOutput_block (ctx : Bool) (source dest : ByteBuffer)
    (inputSize maxOutputSize : Nat) (hsource : inputSize ≤ source.size)
    (hdest : maxOutputSize + lz4Slack inputSize ≤ dest.size) :
    ∃ result dest', lz4CompressLimitedOutput ctx source dest inputSize maxOutputSize =
        some (result, dest') ∧
      dest'.size = dest.size ∧ (result = 0 ∨ result ≤ maxOutputSize ∧ ∃ b : Block,
        b.Legal inputSize ∧ b.encode.length = result ∧ HoldsAt dest'.bytes 0 b.encode ∧
        b.expand = slice source.bytes 0 inputSize) := by
  have hempty : Emitted source dest inputSize 0 [] ([] : List Byte) :=
    ⟨holdsAt_nil, rfl, trivial⟩
  have hheap : ∃ result dest',
      lz4CompressHeapLimitedOutput source dest inputSize maxOutputSize = some (result, dest') ∧
      dest'.size = dest.size ∧ (result = 0 ∨ result ≤ maxOutputSize ∧ ∃ b : Block,
        b.Legal inputSize ∧ b.encode.length = result ∧ HoldsAt dest'.bytes 0 b.encode ∧
        b.expand = slice source.bytes 0 inputSize) := by
    unfold lz4CompressHeapLimitedOutput minLength mfLimit copyLength minMatch
    by_cases hmin : inputSize < 8 + 4 + 1
    · rw [if_pos hmin]
      exact encodeLast_spec maxOutputSize [] hsource (by omega) (Nat.zero_le _) hempty rfl
    · obtain ⟨h, hhash⟩ := hashValue_eq source 0 (by omega)
      rw [if_neg hmin, hhash, Option.bind_eq_bind, Option.bind_some]
      refine encodeLoop_spec hsource hdest ⟨rfl, rfl, by omega, ?_, [], hempty, rfl⟩
        (by simp only [Lz4Encoder.measure]; omega)
      have hzero : HashTable.Before (fun _ => 0) 1 := fun _ => Nat.one_pos
      exact hzero.record Nat.one_pos
  unfold lz4CompressLimitedOutput lz4Compress64kHeapLimitedOutput
  cases ctx with
  | false => exact ⟨0, dest, rfl, rfl, Or.inl rfl⟩
  | true =>
    by_cases h64 : inputSize < lz4Limit64k
    · rw [if_neg (by decide), if_pos h64]
      exact hheap
    · rw [if_neg (by decide), if_neg h64]
      exact hheap

end Hammer2
