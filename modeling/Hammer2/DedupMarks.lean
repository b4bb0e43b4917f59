import Hammer2.DedupTable

namespace Hammer2

open ByteImage KeyedList

/-- The `pbase` of every buffer that is there. -/
def IoCache.pbases (io : IoCache) : List Nat := io.iohash.map Dio.pbase

/-- The buffer is there, and its fragment `j` is marked as allocated for file data. -/
def IoDev.Marked (d : IoDev) (p j : Nat) : Prop :=
  p ∈ d.cache.pbases ∧ (d.dedup p).1.getLsbD j = true

theorem IoDev.Marked.lt {d : IoDev} {p j : Nat} (h : d.Marked p j) : j < 64 := by
  by_contra hge
  have hbit := h.2
  rw [BitVec.getLsbD_of_ge _ _ (by omega)] at hbit
  cases hbit

section Pbases

variable {io io' : IoCache} {p dataOff : Nat}

@[simp] theorem pbases_update (io : IoCache) (dio : Dio) : (io.update dio).pbases = io.pbases :=
  map_key_set

theorem lookup_eq_none_iff : io.lookup p = none ↔ p ∉ io.pbases := by
  unfold IoCache.lookup IoCache.pbases
  rw [lookup_eq_none, List.mem_map]
  constructor
  · rintro h ⟨dio, hdio, hp⟩
    exact h dio hdio hp
  · intro h dio hdio hp
    exact h ⟨dio, hdio, hp⟩

theorem ioAllocQuick_pbases (h : ioAllocQuick io dataOff = some (some io')) :
    io'.pbases = io.pbases ∧ ioPbase dataOff ∈ io.pbases ∧ IoLegal dataOff := by
  obtain ⟨hlegal, h⟩ := Option.ite_none_left_eq_some.mp h
  obtain ⟨dio, hdio, rfl⟩ := Option.map_eq_some_iff.mp (Option.some.inj h)
  refine ⟨pbases_update io dio.ref, ?_, not_not.mp hlegal⟩
  by_contra hmem
  rw [lookup_eq_none_iff.mpr hmem] at hdio
  cases hdio

theorem ioAlloc_pbases (h : ioAlloc io dataOff = some io') :
    (io.lookup (ioPbase dataOff) = none ∧ io'.pbases = io.pbases ++ [ioPbase dataOff] ∨
      io.lookup (ioPbase dataOff) ≠ none ∧ io'.pbases = io.pbases) ∧ IoLegal dataOff := by
  obtain ⟨hlegal, h⟩ := Option.ite_none_left_eq_some.mp h
  refine ⟨?_, not_not.mp hlegal⟩
  cases hlookup : io.lookup (ioPbase dataOff) with
  | none =>
    rw [hlookup] at h
    cases Option.some.inj h
    exact Or.inl ⟨rfl, List.map_append⟩
  | some dio =>
    rw [hlookup] at h
    cases Option.some.inj h
    exact Or.inr ⟨Option.some_ne_none dio, pbases_update io dio.ref⟩

theorem pbases_ioHashCleanup {evict : Nat → Bool} (h : p ∈ (ioHashCleanup io evict).pbases) :
    p ∈ io.pbases := by
  obtain ⟨dio, hdio, rfl⟩ := List.mem_map.mp h
  exact List.mem_map_of_mem (List.mem_of_mem_filter hdio)

end Pbases

section Calls

variable {limit : Int} {t : Nat} {d d' : IoDev} {p j : Nat}

theorem ioGetblkLocked_marks {op : IoOp} {dataOff : Nat} {junk : Image} {fault : IoFault}
    {r : Option Nat} (h : ioGetblkLocked t d op dataOff junk fault = some (d', r)) :
    d'.cache.pbases = d.cache.pbases ∧ d'.dedup = d.dedup := by
  obtain ⟨lock, -, h⟩ := Option.bind_eq_some_iff.mp h
  obtain ⟨dio, -, h⟩ := Option.bind_eq_some_iff.mp h
  obtain ⟨dio', -, heq⟩ := Option.map_eq_some_iff.mp h
  cases heq
  exact ⟨pbases_update d.cache dio', rfl⟩

theorem ioFill_read_good {dev junk : Image} {dataOff : Nat} {dio dio' : Dio}
    (h : ioFill dev .read dataOff junk dio = some dio') :
    dio'.good = true ∧ dio'.pbase = dio.pbase := by
  unfold ioFill at h
  dsimp only at h
  split at h
  next hgood =>
    cases Option.some.inj h
    exact ⟨hgood, rfl⟩
  next =>
    obtain ⟨-, h⟩ := Option.ite_none_left_eq_some.mp h
    cases Option.some.inj h
    exact ⟨good_setGood dio.refs, rfl⟩

theorem dedupCreate_marked {dataOff : Nat}
    (hbit : (dedupCreate d dataOff p).1.getLsbD j = true) : (d.dedup p).1.getLsbD j = true ∧
      (d.cache.lookup (ioPbase dataOff) = none → p ≠ ioPbase dataOff) := by
  unfold dedupCreate at hbit
  split at hbit
  next hnone =>
    by_cases hp : p = ioPbase dataOff
    · rw [hp, Function.update_self] at hbit
      simp at hbit
    · rw [Function.update_of_ne hp] at hbit
      exact ⟨hbit, fun _ => hp⟩
  next hsome => exact ⟨hbit, fun hnone => absurd hnone hsome⟩

theorem ioAlloc_marked {cache : IoCache} {dataOff : Nat}
    (h : ioAlloc d.cache dataOff = some cache) (hmem : p ∈ cache.pbases)
    (hbit : (dedupCreate d dataOff p).1.getLsbD j = true) : d.Marked p j := by
  obtain ⟨hold, hne⟩ := dedupCreate_marked hbit
  refine ⟨?_, hold⟩
  rcases (ioAlloc_pbases h).1 with ⟨hnone, hnew⟩ | ⟨-, hsame⟩
  · rw [hnew, List.mem_append, List.mem_singleton] at hmem
    exact hmem.resolve_right (hne hnone)
  · exact hsame ▸ hmem

theorem ioGetblkLock_marked {op : IoDop} {dataOff : Nat} {junk : Image} {fault : IoFault}
    {r : Option Nat} (h : ioGetblkLock t d op dataOff junk fault = some (d', r))
    (hmark : d'.Marked p j) : d.Marked p j := by
  obtain ⟨lock, -, h⟩ := Option.bind_eq_some_iff.mp h
  cases op with
  | readq =>
    obtain ⟨q, hq, h⟩ := Option.bind_eq_some_iff.mp h
    cases q with
    | none =>
      cases Option.some.inj h
      exact hmark
    | some cache =>
      obtain ⟨hpb, hdedup⟩ := ioGetblkLocked_marks h
      obtain ⟨hmem, hbit⟩ := hmark
      rw [hpb] at hmem
      rw [hdedup] at hbit
      exact ⟨(ioAllocQuick_pbases hq).1 ▸ hmem, hbit⟩
  | op op =>
    obtain ⟨cache, hcache, h⟩ := Option.bind_eq_some_iff.mp h
    obtain ⟨hpb, hdedup⟩ := ioGetblkLocked_marks h
    obtain ⟨hmem, hbit⟩ := hmark
    rw [hpb] at hmem
    rw [hdedup] at hbit
    exact ioAlloc_marked hcache hmem hbit

theorem ioPutblkLock_marks {pbase : Nat} {how : IoPut} {evict : Nat → Bool}
    (h : ioPutblkLock t limit d pbase how evict = some d') :
    (∀ p ∈ d'.cache.pbases, p ∈ d.cache.pbases) ∧ d'.dedup = d.dedup := by
  obtain ⟨dio, -, h⟩ := Option.bind_eq_some_iff.mp h
  dsimp only at h
  split at h
  next =>
    cases Option.some.inj h
    exact ⟨fun p hp => (pbases_update d.cache _) ▸ hp, rfl⟩
  next =>
    split at h
    next =>
      cases Option.some.inj h
      exact ⟨fun p hp => (pbases_update d.cache _) ▸ hp, rfl⟩
    next =>
      obtain ⟨lock, -, h⟩ := Option.bind_eq_some_iff.mp h
      obtain ⟨lock', -, rfl⟩ := Option.map_eq_some_iff.mp h
      refine ⟨?_, rfl⟩
      intro p hp
      have hdrop : (ioLastdrop d.cache (dio.setFlags how)).pbases = d.cache.pbases :=
        pbases_update d.cache _
      rw [← hdrop]
      dsimp only at hp
      split at hp
      next => exact pbases_ioHashCleanup hp
      next => exact hp

theorem ioPutblkLock_marked {pbase : Nat} {how : IoPut} {evict : Nat → Bool}
    (h : ioPutblkLock t limit d pbase how evict = some d') (hmark : d'.Marked p j) :
    d.Marked p j := by
  obtain ⟨hpb, hdedup⟩ := ioPutblkLock_marks h
  exact ⟨hpb p hmark.1, hdedup ▸ hmark.2⟩

/-- New marks are within the extent that `hammer2_io_dedup_set` is given. -/
theorem ioDedupSet_marked {dataOff : Nat} {evict : Nat → Bool}
    (h : ioDedupSet t limit d dataOff evict = some d') (hmark : d'.Marked p j) :
    IoLegal dataOff ∧ (d.Marked p j ∨ p = ioPbase dataOff ∧
      (dedupMask (ioPbase dataOff) dataOff (ioLsize dataOff)).getLsbD j = true) := by
  obtain ⟨lock, -, h⟩ := Option.bind_eq_some_iff.mp h
  obtain ⟨cache, hcache, h⟩ := Option.bind_eq_some_iff.mp h
  obtain ⟨lock', -, h⟩ := Option.bind_eq_some_iff.mp h
  refine ⟨(ioAlloc_pbases hcache).2, ?_⟩
  obtain ⟨hmem, hbit⟩ := ioPutblkLock_marked h hmark
  by_cases hp : p = ioPbase dataOff
  · subst hp
    simp only [IoDev.setDedup, Function.update_self, BitVec.getLsbD_or, Bool.or_eq_true] at hbit
    rcases hbit with hold | hnew
    · exact Or.inl (ioAlloc_marked hcache hmem hold)
    · exact Or.inr ⟨rfl, hnew⟩
  · simp only [IoDev.setDedup, Function.update_of_ne hp] at hbit
    exact Or.inl (ioAlloc_marked hcache hmem hbit)

/-- `hammer2_io_dedup_delete` leaves no mark in the extent. -/
theorem ioDedupDelete_marked {btype : BrefType} {dataOff bytes : Nat} {evict : Nat → Bool}
    (h : ioDedupDelete t limit d btype dataOff bytes evict = some d') (hmark : d'.Marked p j) :
    d.Marked p j ∧ (ioLbase dataOff ≠ 0 → btype = .data → p = ioPbase dataOff →
      (dedupMask (ioPbase dataOff) dataOff bytes).getLsbD j = false) := by
  unfold ioDedupDelete at h
  split at h
  next hzero =>
    cases Option.some.inj h
    exact ⟨hmark, fun hne => absurd hzero hne⟩
  next =>
    split at h
    next hother =>
      cases Option.some.inj h
      exact ⟨hmark, fun _ htype => absurd htype hother⟩
    next =>
      obtain ⟨lock, -, h⟩ := Option.bind_eq_some_iff.mp h
      obtain ⟨q, hq, h⟩ := Option.bind_eq_some_iff.mp h
      cases q with
      | none =>
        obtain ⟨lock', -, rfl⟩ := Option.map_eq_some_iff.mp h
        refine ⟨hmark, fun _ _ hp => ?_⟩
        have hnone := Option.map_eq_none_iff.mp (Option.some.inj (Option.ite_none_left_eq_some.mp hq).2)
        exact absurd (hp ▸ hmark.1) (lookup_eq_none_iff.mp hnone)
      | some cache =>
        obtain ⟨lock', -, h⟩ := Option.bind_eq_some_iff.mp h
        dsimp only at h
        split at h
        next => cases h
        next =>
          obtain ⟨hmem, hbit⟩ := ioPutblkLock_marked h hmark
          have hpb := (ioAllocQuick_pbases hq).1
          by_cases hp : p = ioPbase dataOff
          · subst hp
            simp only [IoDev.setDedup, Function.update_self, BitVec.getLsbD_and,
              BitVec.getLsbD_not, Bool.and_eq_true] at hbit
            refine ⟨⟨hpb ▸ hmem, hbit.1⟩, fun _ _ _ => ?_⟩
            simpa using hbit.2.2
          · simp only [IoDev.setDedup, Function.update_of_ne hp] at hbit
            exact ⟨⟨hpb ▸ hmem, hbit⟩, fun _ _ heq => absurd heq hp⟩

theorem ioDedupAssert_marked {dataOff bytes : Nat} {evict : Nat → Bool}
    (h : ioDedupAssert t limit d dataOff bytes evict = some d') (hmark : d'.Marked p j) :
    d.Marked p j := by
  obtain ⟨lock, -, h⟩ := Option.bind_eq_some_iff.mp h
  obtain ⟨q, hq, h⟩ := Option.bind_eq_some_iff.mp h
  cases q with
  | none =>
    obtain ⟨lock', -, rfl⟩ := Option.map_eq_some_iff.mp h
    exact hmark
  | some cache =>
    obtain ⟨lock', -, h⟩ := Option.bind_eq_some_iff.mp h
    obtain ⟨-, h⟩ := Option.ite_none_right_eq_some.mp h
    obtain ⟨hmem, hbit⟩ := ioPutblkLock_marked h hmark
    exact ⟨(ioAllocQuick_pbases hq).1 ▸ hmem, hbit⟩

/-- What `hammer2_io_getquick` returns is the buffer of the offset, filled. -/
theorem ioGetblkLock_readq {dataOff pbase : Nat} {junk : Image}
    (h : ioGetblkLock t d .readq dataOff junk .none = some (d', some pbase)) :
    pbase = ioPbase dataOff ∧ IoLegal dataOff ∧ d'.dedup = d.dedup ∧
      d'.cache.pbases = d.cache.pbases ∧
      ∃ dio, d'.cache.lookup pbase = some dio ∧ dio.good = true ∧ dio.pbase = pbase := by
  obtain ⟨lock, -, h⟩ := Option.bind_eq_some_iff.mp h
  obtain ⟨q, hq, h⟩ := Option.bind_eq_some_iff.mp h
  cases q with
  | none => cases h
  | some cache =>
    obtain ⟨hpb, hdedup⟩ := ioGetblkLocked_marks h
    obtain ⟨hpbases, -, hlegal⟩ := ioAllocQuick_pbases hq
    obtain ⟨lock', -, h⟩ := Option.bind_eq_some_iff.mp h
    obtain ⟨dio, hdio, h⟩ := Option.bind_eq_some_iff.mp h
    obtain ⟨dio', hfill, heq⟩ := Option.map_eq_some_iff.mp h
    cases heq
    have hbase : dio.pbase = ioPbase dataOff := (mem_of_lookup hdio).2
    obtain ⟨hgood, hbase'⟩ := ioFill_read_good ((if_pos (Or.inr rfl)).symm.trans hfill)
    refine ⟨rfl, hlegal, rfl, hpb.trans hpbases, dio', ?_, hgood, hbase'.trans hbase⟩
    exact lookup_update (hbase'.trans hbase) (by rw [hdio]; exact Option.some_ne_none dio)

end Calls

section Lookup

variable {env : DedupEnv} {t : Nat} {d d' : IoDev} {data : Image} {bytes : Nat}

theorem dedupTest_hit {dataOff : Nat} {buf : Image} {dio : Dio}
    (hs : (dataExtent dataOff).Shaped) (hl : IoLegal dataOff) (hbytes : 2 ^ (dataOff % 64) = bytes)
    (hlookup : d.cache.lookup (ioPbase dataOff) = some dio) (hgood : dio.good = true)
    (hbuf : dio.data = some buf) (h : dedupTest d dataOff bytes data buf = true) :
    DedupHit d dataOff bytes data := by
  obtain ⟨halloc, hvalid, hcontent⟩ := decide_eq_true_iff.mp h
  refine ⟨halloc, hvalid, ⟨dio, hlookup, hgood⟩, ?_⟩
  intro i hi
  have hle := ioPbase_le dataOff
  have hstop : ioLbase dataOff + bytes ≤ ioPbase dataOff + 65536 := by
    rw [← hbytes]
    exact legal_stop_le hs hl
  have hin : ioLbase dataOff - ioPbase dataOff + i < dioPsize := by
    unfold dioPsize
    omega
  have hview := view_of_lookup hlookup (mem_of_lookup hlookup).2 (ioPbase_mod dataOff) hin
  rw [← Nat.add_assoc, Nat.add_sub_cancel' hle] at hview
  rw [hview, Dio.shown, hbuf]
  exact (hcontent i hi).symm

/-- An entry is empty or stands for an extent. -/
def HeurDedup.Ok (e : HeurDedup) : Prop := e.dataOff = 0 ∨ (dataExtent e.dataOff).Shaped

/-- The buffers have the marks of `d`, and none is there that was not there before. -/
structure SameMarks (d d' : IoDev) : Prop where
  dedup : d'.dedup = d.dedup
  pbases : ∀ p ∈ d'.cache.pbases, p ∈ d.cache.pbases

theorem SameMarks.refl (d : IoDev) : SameMarks d d := ⟨rfl, fun _ hp => hp⟩

theorem SameMarks.trans {d'' : IoDev} (h : SameMarks d d') (h' : SameMarks d' d'') :
    SameMarks d d'' :=
  ⟨h'.dedup.trans h.dedup, fun p hp => h.pbases p (h'.pbases p hp)⟩

theorem SameMarks.marked (h : SameMarks d d') {p j : Nat} (hmark : d'.Marked p j) :
    d.Marked p j :=
  ⟨h.pbases p hmark.1, h.dedup ▸ hmark.2⟩

/-- The lookup tests the extent in buffers that have the marks of `d`. -/
def HitFrom (d : IoDev) (dataOff bytes : Nat) (data : Image) : Prop :=
  (dataExtent dataOff).Shaped ∧ IoLegal dataOff ∧ 2 ^ (dataOff % 64) = bytes ∧
    ∃ d₁, SameMarks d d₁ ∧ DedupHit d₁ dataOff bytes data

theorem HitFrom.of_same {dataOff : Nat} (hsame : SameMarks d d')
    (h : HitFrom d' dataOff bytes data) : HitFrom d dataOff bytes data := by
  obtain ⟨hs, hl, hbytes, d₁, hd₁, hhit⟩ := h
  exact ⟨hs, hl, hbytes, d₁, hsame.trans hd₁, hhit⟩

theorem not_legal_zero : ¬ IoLegal 0 := fun h => h.1 rfl

theorem ioGetblkLock_readq_same {dataOff : Nat} {junk : Image} {r : Option Nat}
    (h : ioGetblkLock t d .readq dataOff junk .none = some (d', r)) : SameMarks d d' := by
  cases r with
  | some pbase =>
    obtain ⟨-, -, hdedup, hpb, -⟩ := ioGetblkLock_readq h
    exact ⟨hdedup, fun p hp => hpb ▸ hp⟩
  | none =>
    obtain ⟨lock, -, h⟩ := Option.bind_eq_some_iff.mp h
    obtain ⟨q, -, h⟩ := Option.bind_eq_some_iff.mp h
    cases q with
    | none =>
      cases Option.some.inj h
      exact ⟨rfl, fun p hp => hp⟩
    | some cache =>
      obtain ⟨lock', -, h⟩ := Option.bind_eq_some_iff.mp h
      obtain ⟨dio, -, h⟩ := Option.bind_eq_some_iff.mp h
      obtain ⟨dio', -, heq⟩ := Option.map_eq_some_iff.mp h
      cases heq

theorem dedupTry_spec {crc : BitVec 64} {evict : Nat → Bool} {e : HeurDedup} {hit : Bool}
    (he : e.Ok) (h : dedupTry env t d data bytes crc evict e = some (d', hit)) :
    SameMarks d d' ∧ (hit = true → HitFrom d e.dataOff bytes data) := by
  unfold dedupTry at h
  split at h
  next =>
    cases Option.some.inj h
    exact ⟨.refl d, fun hhit => Bool.noConfusion hhit⟩
  next =>
    split at h
    next =>
      cases Option.some.inj h
      exact ⟨.refl d, fun hhit => Bool.noConfusion hhit⟩
    next hbytes =>
      obtain ⟨⟨d₁, r⟩, hget, h⟩ := Option.bind_eq_some_iff.mp h
      have hsame := ioGetblkLock_readq_same hget
      cases r with
      | none =>
        cases Option.some.inj h
        exact ⟨hsame, fun hhit => Bool.noConfusion hhit⟩
      | some pbase =>
        obtain ⟨rfl, hlegal, -, -, dio, hlookup, hgood, -⟩ := ioGetblkLock_readq hget
        obtain ⟨dio', hlookup', h⟩ := Option.bind_eq_some_iff.mp h
        obtain ⟨buf, hbuf, h⟩ := Option.bind_eq_some_iff.mp h
        obtain ⟨d₂, hput, heq⟩ := Option.map_eq_some_iff.mp h
        cases heq
        obtain ⟨hpb, hdedup⟩ := ioPutblkLock_marks hput
        refine ⟨hsame.trans ⟨hdedup, hpb⟩, fun hhit => ?_⟩
        have hshaped : (dataExtent e.dataOff).Shaped := by
          apply he.resolve_left
          intro hzero
          exact not_legal_zero (hzero ▸ hlegal)
        cases hlookup.symm.trans hlookup'
        exact ⟨hshaped, hlegal, not_not.mp hbytes, d₁, hsame,
          dedupTest_hit hshaped hlegal (not_not.mp hbytes) hlookup hgood hbuf hhit⟩

theorem dedupScan_spec {crc : BitVec 64} {evict : Nat → Nat → Bool} {table : DedupTable}
    {is : List Nat} {r : Option Nat} (htable : ∀ i, (table i).Ok)
    (h : dedupScan env t data bytes crc evict table is d = some (d', r)) :
    SameMarks d d' ∧ ∀ i, r = some i → HitFrom d (table i).dataOff bytes data := by
  induction is generalizing d with
  | nil =>
    cases Option.some.inj h
    refine ⟨.refl d', fun i hi => ?_⟩
    cases hi
  | cons i is ih =>
    obtain ⟨⟨d₁, hit⟩, htry, h⟩ := Option.bind_eq_some_iff.mp h
    obtain ⟨hsame, hhit⟩ := dedupTry_spec (htable i) htry
    cases hit with
    | true =>
      cases Option.some.inj h
      refine ⟨hsame, fun i' hi' => ?_⟩
      cases Option.some.inj hi'
      exact hhit rfl
    | false =>
      obtain ⟨hrest, hhit'⟩ := ih h
      exact ⟨hsame.trans hrest, fun i' hi' => (hhit' i' hi').of_same hsame⟩

/-- The specification of `hammer2_dedup_lookup`. -/
theorem dedupLookup_spec {now : BitVec 32} {table table' : DedupTable}
    {evict : Nat → Nat → Bool} {off : Nat} (htable : ∀ i, (table i).Ok)
    (h : dedupLookup env t now d table data bytes evict = some (d', table', off)) :
    SameMarks d d' ∧ (∀ i, (table' i).Ok) ∧ (off ≠ 0 → HitFrom d off bytes data) := by
  unfold dedupLookup at h
  split at h
  next =>
    cases Option.some.inj h
    exact ⟨.refl d, htable, fun hoff => absurd rfl hoff⟩
  next =>
    obtain ⟨⟨d₁, r⟩, hscan, heq⟩ := Option.map_eq_some_iff.mp h
    obtain ⟨hsame, hhit⟩ := dedupScan_spec htable hscan
    cases r with
    | none =>
      cases heq
      exact ⟨hsame, htable, fun hoff => absurd rfl hoff⟩
    | some i =>
      cases heq
      refine ⟨hsame, fun i' => ?_, fun _ => hhit i rfl⟩
      by_cases hi' : i' = i
      · subst hi'
        rw [Function.update_self]
        exact htable i'
      · rw [Function.update_of_ne hi']
        exact htable i'

theorem dedupRecord_spec {now : BitVec 32} {table table' : DedupTable} {chain : DataChain}
    (htable : ∀ i, (table i).Ok) (h : dedupRecord env now d table chain data = (d', table')) :
    (∀ p j, d'.Marked p j → d.Marked p j) ∧ ∀ i, (table' i).Ok := by
  unfold dedupRecord at h
  dsimp only at h
  split at h
  next =>
    cases h
    exact ⟨fun p j hmark => hmark, htable⟩
  next =>
    split at h
    next =>
      cases h
      exact ⟨fun p j hmark => hmark, htable⟩
    next crc hcrc =>
      cases h
      constructor
      · intro p j hmark
        refine ⟨hmark.1, ?_⟩
        have hbit := hmark.2
        by_cases hp : p = ioPbase chain.extent.dataOff
        · subst hp
          simpa only [IoDev.setDedup, Function.update_self] using hbit
        · simpa only [IoDev.setDedup, Function.update_of_ne hp] using hbit
      · intro i
        rcases eq_or_ne i (dedupSlot crc + dedupBest env.hz crc (fun i => table (dedupSlot crc + i))
          4 0 0) with rfl | hne
        · rw [Function.update_self]
          apply Or.inr
          rw [DataExtent.dataExtent_dataOff]
          exact chain.extent.shaped
        · rw [Function.update_of_ne hne]
          exact htable i

end Lookup

end Hammer2
