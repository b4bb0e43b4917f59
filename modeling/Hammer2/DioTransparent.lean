import Hammer2.DioCache

namespace Hammer2

open ByteImage KeyedList

/-- The bytes that the cache shows: those of the buffers, and of the device elsewhere. -/
def IoCache.view (io : IoCache) : Image := fun x =>
  match (io.lookup (x / dioPsize * dioPsize)).bind Dio.data with
  | some buf => buf (x % dioPsize)
  | none => io.dev x

/-- The dios are consistent with the handles that are out. -/
structure IoInv (io : IoCache) (handles : List Nat) : Prop where
  nodup : (io.iohash.map Dio.pbase).Nodup
  base : ∀ dio ∈ io.iohash, dio.pbase ≠ 0 ∧ dio.pbase % dioPsize = 0
  word : ∀ dio ∈ io.iohash, CountWord.count 27 dio.refs = handles.count dio.pbase
  few : ∀ p, handles.count p < 2 ^ 24
  held : ∀ p ∈ handles, ∃ dio ∈ io.iohash, dio.pbase = p
  good : ∀ dio ∈ io.iohash, dio.good = true ↔ handles.count dio.pbase ≠ 0
  data : ∀ dio ∈ io.iohash, dio.data.isSome = dio.good
  clean : ∀ dio ∈ io.iohash, ∀ buf, dio.data = some buf → dio.dirty = false →
    ∀ i < dioPsize, buf i = io.dev (dio.pbase + i)
  free : io.iofreeCount = io.iohash.countP fun dio => dio.count = 0

section Words

theorem Dio.count_eq (dio : Dio) : dio.count = CountWord.count 27 dio.refs % 2 ^ 24 := by
  unfold Dio.count CountWord.count
  omega

variable {w : BitVec 32} {i : Nat}

theorem word_add (h : CountWord.count 27 w < 2 ^ 24) :
    CountWord.count 27 (w + 1) = CountWord.count 27 w + 1 :=
  CountWord.count_add_one (by decide) (by omega)

theorem flag_add (h : CountWord.count 27 w < 2 ^ 24) (hi : 27 ≤ i) :
    (w + 1).getLsbD i = w.getLsbD i :=
  CountWord.getLsbD_add_one (by decide) (by omega) hi

theorem word_sub (h : CountWord.count 27 w ≠ 0) :
    CountWord.count 27 (w - 1) = CountWord.count 27 w - 1 :=
  CountWord.count_sub_one (by decide) h

theorem flag_sub (h : CountWord.count 27 w ≠ 0) (hi : 27 ≤ i) :
    (w - 1).getLsbD i = w.getLsbD i :=
  CountWord.getLsbD_sub_one (by decide) h hi

theorem word_setDirty (w : BitVec 32) : CountWord.count 27 (w ||| dioDirty) = CountWord.count 27 w :=
  CountWord.count_or (by decide)

theorem word_setGood (w : BitVec 32) : CountWord.count 27 (w ||| dioGood) = CountWord.count 27 w :=
  CountWord.count_or (by decide)

theorem word_setPut (w : BitVec 32) (how : IoPut) :
    CountWord.count 27 (w ||| how.flags) = CountWord.count 27 w :=
  CountWord.count_or (by cases how <;> decide)

theorem word_clear (w : BitVec 32) :
    CountWord.count 27 (w &&& ~~~(dioGood ||| dioDirty)) = CountWord.count 27 w :=
  CountWord.count_and_not (by decide) (by decide)

end Words

/-- `io'` is `io` with a dio put in the place of the one for its block, if there was one. -/
structure Replaced (io io' : IoCache) (dio : Dio) : Prop where
  nodup : (io'.iohash.map Dio.pbase).Nodup
  mem : ∀ c, c ∈ io'.iohash ↔ c = dio ∨ (c ∈ io.iohash ∧ c.pbase ≠ dio.pbase)
  dev : ∀ x, x / dioPsize * dioPsize ≠ dio.pbase → io'.dev x = io.dev x

theorem block_add {p i : Nat} (hp : p % dioPsize = 0) (hi : i < dioPsize) :
    (p + i) / dioPsize * dioPsize = p := by
  unfold dioPsize at *
  omega

section Replace

variable {io io' : IoCache} {dio : Dio} {handles handles' : List Nat}

theorem IoCache.lookup_eq_some (hn : (io.iohash.map Dio.pbase).Nodup) {p : Nat} :
    io.lookup p = some dio ↔ dio ∈ io.iohash ∧ dio.pbase = p := by
  constructor
  · exact mem_of_lookup
  · rintro ⟨hmem, rfl⟩
    exact lookup_of_mem hn hmem

theorem Replaced.lookup_self (h : Replaced io io' dio) : io'.lookup dio.pbase = some dio :=
  (IoCache.lookup_eq_some h.nodup).mpr ⟨(h.mem dio).mpr (Or.inl rfl), rfl⟩

theorem Replaced.lookup_of_ne (h : Replaced io io' dio) (hn : (io.iohash.map Dio.pbase).Nodup)
    {p : Nat} (hp : p ≠ dio.pbase) : io'.lookup p = io.lookup p := by
  refine Option.ext fun c => ?_
  rw [IoCache.lookup_eq_some h.nodup, IoCache.lookup_eq_some hn, h.mem]
  constructor
  · rintro ⟨rfl | ⟨hc, -⟩, rfl⟩
    · exact absurd rfl hp
    · exact ⟨hc, rfl⟩
  · rintro ⟨hc, rfl⟩
    exact ⟨Or.inr ⟨hc, hp⟩, rfl⟩

/-- The bytes shown outside the block stay, and those inside are the new dio's. -/
theorem Replaced.view (h : Replaced io io' dio) (hn : (io.iohash.map Dio.pbase).Nodup) (x : Nat) :
    io'.view x = if x / dioPsize * dioPsize = dio.pbase then
      (match dio.data with
        | some buf => buf (x % dioPsize)
        | none => io'.dev x)
      else io.view x := by
  unfold IoCache.view
  by_cases hx : x / dioPsize * dioPsize = dio.pbase
  · rw [if_pos hx, hx, h.lookup_self, Option.bind_some]
  · rw [if_neg hx, h.lookup_of_ne hn hx]
    cases (io.lookup (x / dioPsize * dioPsize)).bind Dio.data with
    | none => exact h.dev x hx
    | some buf => rfl

theorem replaced_update (hn : (io.iohash.map Dio.pbase).Nodup) (hp : io.lookup dio.pbase ≠ none)
    (hhash : io'.iohash = (io.update dio).iohash)
    (hdev : ∀ x, x / dioPsize * dioPsize ≠ dio.pbase → io'.dev x = io.dev x) :
    Replaced io io' dio where
  nodup := by
    rw [hhash]
    unfold IoCache.update
    rw [map_key_set]
    exact hn
  mem c := by
    rw [hhash]
    exact mem_set hp
  dev := hdev

theorem replaced_append (hn : (io.iohash.map Dio.pbase).Nodup) (hp : io.lookup dio.pbase = none) :
    Replaced io { io with iohash := io.iohash ++ [dio] } dio where
  nodup := by
    rw [List.map_append, List.nodup_append]
    refine ⟨hn, by simp, ?_⟩
    intro p hmem q hq
    obtain ⟨c, hc, rfl⟩ := List.mem_map.mp hmem
    rw [List.map_singleton, List.mem_singleton] at hq
    subst hq
    exact lookup_eq_none.mp hp c hc
  mem c := by
    rw [List.mem_append, List.mem_singleton, or_comm]
    refine or_congr_right ⟨fun hc => ⟨hc, lookup_eq_none.mp hp c hc⟩, And.left⟩
  dev _ _ := rfl

/-- Replacing a dio changes the number of free ones by that dio alone. -/
theorem countP_update {old : Dio} (hn : (io.iohash.map Dio.pbase).Nodup) (hmem : old ∈ io.iohash)
    (hbase : old.pbase = dio.pbase) :
    ((io.update dio).iohash.countP fun dio => dio.count = 0) + (if old.count = 0 then 1 else 0) =
      (io.iohash.countP fun dio => dio.count = 0) + if dio.count = 0 then 1 else 0 := by
  have h := countP_set (p := fun dio => decide (dio.count = 0)) hn hmem hbase
  simp only [decide_eq_true_eq] at h
  exact h

/-- The invariant after the replacement of a dio that is consistent with the new handles. -/
theorem IoInv.replace (h : IoInv io handles) (hr : Replaced io io' dio)
    (hbase : dio.pbase ≠ 0 ∧ dio.pbase % dioPsize = 0)
    (hother : ∀ p, p ≠ dio.pbase → handles'.count p = handles.count p)
    (hword : CountWord.count 27 dio.refs = handles'.count dio.pbase)
    (hfew : handles'.count dio.pbase < 2 ^ 24)
    (hgood : dio.good = true ↔ handles'.count dio.pbase ≠ 0) (hdata : dio.data.isSome = dio.good)
    (hclean : ∀ buf, dio.data = some buf → dio.dirty = false →
      ∀ i < dioPsize, buf i = io'.dev (dio.pbase + i))
    (hfree : io'.iofreeCount = io'.iohash.countP fun dio => dio.count = 0) :
    IoInv io' handles' where
  nodup := hr.nodup
  base c hc := by
    rcases (hr.mem c).mp hc with rfl | ⟨hc, -⟩
    · exact hbase
    · exact h.base c hc
  word c hc := by
    rcases (hr.mem c).mp hc with rfl | ⟨hc, hne⟩
    · exact hword
    · rw [hother _ hne, h.word c hc]
  few p := by
    by_cases hp : p = dio.pbase
    · rw [hp]
      exact hfew
    · rw [hother p hp]
      exact h.few p
  held p hp := by
    by_cases hpp : p = dio.pbase
    · exact ⟨dio, (hr.mem dio).mpr (Or.inl rfl), hpp.symm⟩
    · have hmem : p ∈ handles := by
        rw [← List.count_pos_iff, ← hother p hpp, List.count_pos_iff]
        exact hp
      obtain ⟨c, hc, rfl⟩ := h.held p hmem
      exact ⟨c, (hr.mem c).mpr (Or.inr ⟨hc, hpp⟩), rfl⟩
  good c hc := by
    rcases (hr.mem c).mp hc with rfl | ⟨hc, hne⟩
    · exact hgood
    · rw [hother _ hne]
      exact h.good c hc
  data c hc := by
    rcases (hr.mem c).mp hc with rfl | ⟨hc, -⟩
    · exact hdata
    · exact h.data c hc
  clean c hc := by
    rcases (hr.mem c).mp hc with rfl | ⟨hc, hne⟩
    · exact hclean
    · intro buf hbuf hdirty i hi
      have hb := (h.base c hc).2
      rw [hr.dev (c.pbase + i) (by rw [block_add hb hi]; exact hne)]
      exact h.clean c hc buf hbuf hdirty i hi
  free := hfree

end Replace

section Getblk

variable {io : IoCache} {op : IoOp} {dataOff : Nat} {junk : Image} {dio : Dio}

theorem ioPbase_le (dataOff : Nat) : ioPbase dataOff ≤ ioLbase dataOff := by
  unfold ioPbase
  exact Nat.div_mul_le_self _ _

theorem bzero_eq {i : Nat} (buf : Image) : bzero buf (ioLbase dataOff - ioPbase dataOff)
    (2 ^ (dataOff % 64)) i = if InRange dataOff (ioPbase dataOff + i) then 0#8 else buf i := by
  have hle := ioPbase_le dataOff
  unfold bzero InRange
  exact if_congr (by omega) rfl rfl

/-- What the buffer of a dio shows, or the device if there is none. -/
def Dio.shown (dev : Image) (dio : Dio) (i : Nat) : BitVec 8 :=
  match dio.data with
  | some buf => buf i
  | none => dev (dio.pbase + i)

/-- The dio that `hammer2_io_getblk` returns. -/
structure Filled (dev : Image) (op : IoOp) (dataOff : Nat) (dio dio' : Dio) (buf : Image) : Prop where
  pbase : dio'.pbase = dio.pbase
  word : CountWord.count 27 dio'.refs = CountWord.count 27 dio.refs
  good : dio'.good = true
  data : dio'.data = some buf
  zeroed : op = .new → ∀ i, InRange dataOff (dio.pbase + i) → buf i = 0#8
  kept : ∀ i < dioPsize, op = .read ∨ ¬ InRange dataOff (dio.pbase + i) → buf i = dio.shown dev i
  clean : dio'.dirty = false → ∀ i < dioPsize, buf i = dev (dio.pbase + i)

theorem dirty_setDirty (w : BitVec 32) : (w ||| dioDirty).getLsbD 28 = true := by
  rw [BitVec.getLsbD_or]
  simp [dioDirty]

theorem good_setDirty (w : BitVec 32) : (w ||| dioDirty).getLsbD 30 = w.getLsbD 30 := by
  rw [BitVec.getLsbD_or]
  simp [dioDirty]

theorem good_setGood (w : BitVec 32) : (w ||| dioGood).getLsbD 30 = true := by
  rw [BitVec.getLsbD_or]
  simp [dioGood]

theorem dirty_setGood (w : BitVec 32) : (w ||| dioGood).getLsbD 28 = w.getLsbD 28 := by
  rw [BitVec.getLsbD_or]
  simp [dioGood]

theorem ioFill_spec (dev : Image) (op : IoOp) (junk : Image) (hp : dio.pbase = ioPbase dataOff)
    (hdata : dio.data.isSome = dio.good)
    (hclean : ∀ buf, dio.data = some buf → dio.dirty = false →
      ∀ i < dioPsize, buf i = dev (dio.pbase + i)) :
    ∃ dio' buf, ioFill dev op dataOff junk dio = some dio' ∧ Filled dev op dataOff dio dio' buf := by
  unfold ioFill
  simp only
  cases hd : dio.data with
  | some b =>
    have hg : dio.good = true := by rw [← hdata, hd]; rfl
    rw [if_pos hg]
    cases op with
    | new =>
      refine ⟨_, _, rfl, rfl, word_setDirty _, (good_setDirty _).trans hg, rfl, ?_, ?_, ?_⟩
      · intro _ i hi
        rw [hp] at hi ⊢
        rw [bzero_eq, if_pos hi]
      · rintro i - (hr | hr)
        · cases hr
        · rw [hp] at hr ⊢
          rw [bzero_eq, if_neg hr, Dio.shown, hd]
      · intro hclean'
        rw [Dio.dirty, dirty_setDirty] at hclean'
        cases hclean'
    | newnz =>
      refine ⟨_, b, rfl, rfl, word_setDirty _, (good_setDirty _).trans hg, rfl, ?_, ?_, ?_⟩
      · intro hop
        cases hop
      · intro i _ _
        rw [Dio.shown, hd]
      · intro hclean'
        rw [Dio.dirty, dirty_setDirty] at hclean'
        cases hclean'
    | read =>
      refine ⟨_, b, rfl, rfl, rfl, hg, hd, ?_, ?_, hclean b hd⟩
      · intro hop
        cases hop
      · intro i _ _
        rw [Dio.shown, hd]
  | none =>
    have hg : ¬ dio.good = true := by rw [← hdata, hd]; simp
    rw [if_neg hg, if_neg (by simp)]
    have hshown : ∀ i, dio.shown dev i = devBread dev dio.pbase i := by
      intro i
      rw [Dio.shown, hd]
      rfl
    have hwhole : dio.pbase = ioLbase dataOff ∧ dioPsize = 2 ^ (dataOff % 64) →
        ∀ i < dioPsize, InRange dataOff (dio.pbase + i) := by
      rintro ⟨hl, hs⟩ i hi
      unfold InRange
      omega
    cases op with
    | new =>
      refine ⟨_, _, rfl, rfl, (word_setGood _).trans (word_setDirty _), good_setGood _, rfl, ?_, ?_, ?_⟩
      · intro _ i hi
        dsimp only
        split
        next => rfl
        next =>
          rw [hp] at hi ⊢
          rw [bzero_eq, if_pos hi]
      · rintro i hi (hr | hr)
        · cases hr
        · dsimp only
          rw [if_neg fun hw => hr (hwhole hw i hi), hshown]
          rw [hp] at hr ⊢
          rw [bzero_eq, if_neg hr]
      · intro hclean'
        rw [Dio.dirty, dirty_setGood] at hclean'
        cases (dirty_setDirty _).symm.trans hclean'
    | newnz =>
      refine ⟨_, _, rfl, rfl, (word_setGood _).trans (word_setDirty _), good_setGood _, rfl, ?_, ?_, ?_⟩
      · intro hop
        cases hop
      · rintro i hi (hr | hr)
        · cases hr
        · dsimp only
          rw [if_neg fun hw => hr (hwhole hw i hi), hshown]
      · intro hclean'
        rw [Dio.dirty, dirty_setGood] at hclean'
        cases (dirty_setDirty _).symm.trans hclean'
    | read =>
      refine ⟨_, _, rfl, rfl, word_setGood _, good_setGood _, rfl, ?_, ?_, ?_⟩
      · intro hop
        cases hop
      · intro i _ _
        exact (hshown i).symm
      · intro _ i _
        rfl

/-- The state after `hammer2_io_getblk`, in terms of what the cache shows. -/
structure Gotten (io io' : IoCache) (op : IoOp) (dataOff n : Nat) (dio : Dio) (buf : Image) : Prop where
  replaced : Replaced io io' dio
  dev : io'.dev = io.dev
  pbase : dio.pbase = ioPbase dataOff
  word : CountWord.count 27 dio.refs = n + 1
  good : dio.good = true
  data : dio.data = some buf
  zeroed : op = .new → ∀ i, InRange dataOff (dio.pbase + i) → buf i = 0#8
  kept : ∀ i < dioPsize, op = .read ∨ ¬ InRange dataOff (dio.pbase + i) →
    buf i = io.view (dio.pbase + i)
  clean : dio.dirty = false → ∀ i < dioPsize, buf i = io.dev (dio.pbase + i)
  free : n + 1 < 2 ^ 24 → io'.iofreeCount = io'.iohash.countP fun dio => dio.count = 0

theorem view_of_lookup {p i : Nat} (hlookup : io.lookup p = some dio) (hbase : dio.pbase = p)
    (hp : p % dioPsize = 0) (hi : i < dioPsize) : io.view (p + i) = dio.shown io.dev i := by
  have hmod : (p + i) % dioPsize = i := by
    unfold dioPsize at *
    omega
  unfold IoCache.view Dio.shown
  rw [block_add hp hi, hlookup, Option.bind_some, hmod, hbase]

theorem view_of_absent {p i : Nat} (hlookup : io.lookup p = none)
    (hp : p % dioPsize = 0) (hi : i < dioPsize) : io.view (p + i) = io.dev (p + i) := by
  unfold IoCache.view
  rw [block_add hp hi, hlookup, Option.bind_none]

theorem lookup_update {p : Nat} (hp : dio.pbase = p) (h : io.lookup p ≠ none) :
    (io.update dio).lookup p = some dio := by
  subst hp
  exact lookup_set_self h

theorem ioPbase_mod (dataOff : Nat) : ioPbase dataOff % dioPsize = 0 := Nat.mul_mod_left _ _

variable {handles : List Nat}

theorem ioGetblk_spec (h : IoInv io handles) (hl : IoLegal dataOff) (op : IoOp) (junk : Image) :
    ∃ io' dio buf, ioGetblk io op dataOff junk = some io' ∧
      Gotten io io' op dataOff (handles.count (ioPbase dataOff)) dio buf := by
  have hfew := h.few (ioPbase dataOff)
  unfold ioGetblk ioAlloc
  rw [if_neg (not_not.mpr hl)]
  cases hd : io.lookup (ioPbase dataOff) with
  | some dio =>
    obtain ⟨hmem, hbase⟩ := (IoCache.lookup_eq_some h.nodup).mp hd
    have hword := h.word dio hmem
    rw [hbase] at hword
    have hlt : CountWord.count 27 dio.refs < 2 ^ 24 := by omega
    have hgood : dio.ref.good = dio.good := flag_add hlt (by decide)
    have hdirty : dio.ref.dirty = dio.dirty := flag_add hlt (by decide)
    have hclean : ∀ buf, dio.ref.data = some buf → dio.ref.dirty = false →
        ∀ i < dioPsize, buf i = io.dev (dio.ref.pbase + i) := by
      rw [hdirty]
      exact h.clean dio hmem
    have hbase' : dio.ref.pbase = ioPbase dataOff := hbase
    obtain ⟨dio', buf, hfill, hf⟩ := ioFill_spec io.dev op junk hbase'
      ((h.data dio hmem).trans hgood.symm) hclean
    have hpbase : dio'.pbase = ioPbase dataOff := hf.pbase.trans hbase
    have hsome : io.lookup (ioPbase dataOff) ≠ none := by
      rw [hd]
      exact Option.some_ne_none _
    have hset : set Dio.pbase (io.update dio.ref).iohash dio' = set Dio.pbase io.iohash dio' :=
      set_set hf.pbase.symm
    have hview : ∀ i < dioPsize, dio.ref.shown io.dev i = io.view (dio'.pbase + i) := by
      intro i hi
      rw [hpbase, view_of_lookup hd hbase (ioPbase_mod dataOff) hi]
      rfl
    have hword' : CountWord.count 27 dio'.refs = handles.count (ioPbase dataOff) + 1 := by
      rw [hf.word, ← hword]
      exact word_add hlt
    refine ⟨{ io.update dio' with
      iofreeCount := if dio.count = 0 then io.iofreeCount - 1 else io.iofreeCount }, dio', buf, ?_, ?_⟩
    · dsimp only
      rw [Option.bind_some]
      have hnew : (io.update dio.ref).lookup (ioPbase dataOff) = some dio.ref :=
        lookup_update hbase' hsome
      change ((io.update dio.ref).lookup (ioPbase dataOff)).bind _ = _
      rw [hnew, Option.bind_some]
      change Option.map _ (ioFill io.dev op dataOff junk dio.ref) = _
      rw [hfill, Option.map_some]
      unfold IoCache.update at hset ⊢
      dsimp only at hset ⊢
      rw [hset]
    · refine ⟨?_, rfl, hpbase, hword', hf.good, hf.data, ?_, ?_, ?_, ?_⟩
      · exact replaced_update h.nodup (by rwa [hpbase]) rfl fun _ _ => rfl
      · intro hop i hi
        exact hf.zeroed hop i (by rwa [← hf.pbase])
      · intro i hi hr
        rw [← hview i hi]
        exact hf.kept i hi (by rwa [← hf.pbase])
      · intro hclean i hi
        rw [hf.pbase]
        exact hf.clean hclean i hi
      · intro hroom
        have hcountP := countP_update h.nodup hmem (hbase.trans hpbase.symm)
        have hold := dio.count_eq
        have hnew := dio'.count_eq
        have hfree := h.free
        change (if dio.count = 0 then io.iofreeCount - 1 else io.iofreeCount) =
          ((io.update dio').iohash.countP fun dio => dio.count = 0 : Nat)
        rw [if_neg (by omega : ¬ dio'.count = 0)] at hcountP
        split
        next hz =>
          rw [if_pos hz] at hcountP
          omega
        next hz =>
          rw [if_neg hz] at hcountP
          omega
  | none =>
    have hzero : handles.count (ioPbase dataOff) = 0 := by
      rw [List.count_eq_zero]
      intro hmem
      obtain ⟨dio, hdio, hbase⟩ := h.held _ hmem
      exact lookup_eq_none.mp hd dio hdio hbase
    have hbase : (⟨ioPbase dataOff, 1, none⟩ : Dio).pbase = ioPbase dataOff := rfl
    obtain ⟨dio', buf, hfill, hf⟩ := ioFill_spec io.dev op junk hbase
      (show false = (1#32).getLsbD 30 by decide) (by intro buf hbuf; cases hbuf)
    have hword' : CountWord.count 27 dio'.refs = handles.count (ioPbase dataOff) + 1 := by
      rw [hf.word, hzero]
      rfl
    refine ⟨{ io with iohash := io.iohash ++ [dio'] }, dio', buf, ?_, ?_⟩
    · dsimp only
      rw [Option.bind_some]
      have hnew : ({ io with iohash := io.iohash ++ [⟨ioPbase dataOff, 1, none⟩] } : IoCache).lookup
          (ioPbase dataOff) = some ⟨ioPbase dataOff, 1, none⟩ := lookup_append hd rfl
      rw [hnew, Option.bind_some]
      dsimp only
      rw [hfill, Option.map_some]
      unfold IoCache.update
      dsimp only
      rw [set_append (by rw [hf.pbase]; exact hd) hf.pbase.symm]
    · refine ⟨?_, rfl, hf.pbase, hword', hf.good, hf.data, ?_, ?_, ?_, ?_⟩
      · exact replaced_append h.nodup (by rwa [hf.pbase])
      · intro hop i hi
        exact hf.zeroed hop i (by rwa [← hf.pbase])
      · intro i hi hr
        rw [hf.kept i hi (by rwa [← hf.pbase]), hf.pbase,
          view_of_absent hd (ioPbase_mod dataOff) hi]
        rfl
      · intro hclean i hi
        rw [hf.pbase]
        exact hf.clean hclean i hi
      · intro hroom
        have hnew := dio'.count_eq
        have hne : ¬ dio'.count = 0 := by omega
        change io.iofreeCount = ((io.iohash ++ [dio']).countP fun dio => dio.count = 0 : Nat)
        rw [List.countP_append, List.countP_singleton, h.free]
        simp [hne]

theorem IoLegal.block (hl : IoLegal dataOff) {x : Nat} (hx : InRange dataOff x) :
    x / dioPsize * dioPsize = ioPbase dataOff := by
  obtain ⟨-, hend⟩ := hl
  obtain ⟨h1, h2⟩ := hx
  unfold ioLsize at hend
  split at hend
  next hr =>
    rw [hr] at h2
    have heq : x = ioLbase dataOff := by omega
    rw [heq, ioPbase]
  next =>
    have hpos : 0 < 2 ^ (dataOff % 64) := Nat.two_pow_pos _
    have hlow : ioLbase dataOff / dioPsize * dioPsize = ioPbase dataOff := rfl
    have hge : ioLbase dataOff / dioPsize ≤ x / dioPsize := Nat.div_le_div_right h1
    have hle : x / dioPsize ≤ (ioLbase dataOff + 2 ^ (dataOff % 64) - 1) / dioPsize :=
      Nat.div_le_div_right (by omega)
    have hge' := Nat.mul_le_mul_right dioPsize hge
    have hle' := Nat.mul_le_mul_right dioPsize hle
    omega

theorem Gotten.inv {io' : IoCache} {buf : Image} (h : IoInv io handles) (hl : IoLegal dataOff)
    (g : Gotten io io' op dataOff (handles.count (ioPbase dataOff)) dio buf)
    (hroom : handles.count (ioPbase dataOff) + 1 < 2 ^ 24) :
    IoInv io' (ioPbase dataOff :: handles) := by
  have hcount : (ioPbase dataOff :: handles).count dio.pbase =
      handles.count (ioPbase dataOff) + 1 := by
    rw [g.pbase, List.count_cons_self]
  refine h.replace g.replaced ?_ ?_ (g.word.trans hcount.symm) (by omega) ?_ ?_ ?_ (g.free hroom)
  · rw [g.pbase]
    exact ⟨hl.1, ioPbase_mod dataOff⟩
  · intro p hp
    rw [List.count_cons_of_ne (by rw [← g.pbase]; exact hp.symm)]
  · rw [g.good, hcount]
    simp
  · rw [g.good, g.data]
    rfl
  · intro b hb hclean i hi
    rw [g.data] at hb
    cases hb
    rw [g.dev]
    exact g.clean hclean i hi

/-- What the users know about the bytes is what the cache shows. -/
def IoAgree (io : IoCache) (content : Nat → Option (BitVec 8)) : Prop :=
  ∀ x v, content x = some v → io.view x = v

theorem block_split {p x : Nat} (hx : x / dioPsize * dioPsize = p) :
    x = p + x % dioPsize ∧ x % dioPsize < dioPsize := by
  unfold dioPsize at *
  omega

theorem Gotten.agree {io' : IoCache} {buf : Image} {content : Nat → Option (BitVec 8)}
    (h : IoInv io handles) (hl : IoLegal dataOff)
    (g : Gotten io io' op dataOff (handles.count (ioPbase dataOff)) dio buf)
    (ha : IoAgree io content) : IoAgree io' (getContent op dataOff content) := by
  intro x v hv
  rw [g.replaced.view h.nodup]
  split
  next hx =>
    obtain ⟨hsplit, hlt⟩ := block_split hx
    rw [g.data]
    dsimp only
    have hkept := g.kept (x % dioPsize) hlt
    have hzero := fun hop => g.zeroed hop (x % dioPsize)
    rw [← hsplit] at hkept hzero
    cases op with
    | new =>
      simp only [getContent] at hv
      split at hv
      next hr =>
        cases hv
        exact hzero rfl hr
      next hr => exact (hkept (Or.inr hr)).trans (ha x v hv)
    | newnz =>
      simp only [getContent] at hv
      split at hv
      next hr => cases hv
      next hr => exact (hkept (Or.inr hr)).trans (ha x v hv)
    | read => exact (hkept (Or.inl rfl)).trans (ha x v hv)
  next hx =>
    have hr : ¬ InRange dataOff x := by
      intro hr
      exact hx ((hl.block hr).trans g.pbase.symm)
    refine ha x v ?_
    cases op <;> simpa [getContent, hr] using hv

end Getblk

section Modify

variable {io io' : IoCache} {handles : List Nat} {p : Nat} {bytes : Nat → Option (BitVec 8)}

/-- A buffer that somebody holds is there. -/
theorem IoInv.holder (h : IoInv io handles) (hp : p ∈ handles) :
    ∃ dio buf, io.lookup p = some dio ∧ dio ∈ io.iohash ∧ dio.pbase = p ∧ dio.data = some buf ∧
      dio.good = true := by
  obtain ⟨dio, hmem, rfl⟩ := h.held p hp
  have hgood : dio.good = true := (h.good dio hmem).mpr (by
    have := List.count_pos_iff.mpr hp
    omega)
  obtain ⟨buf, hbuf⟩ := Option.isSome_iff_exists.mp ((h.data dio hmem).trans hgood)
  exact ⟨dio, buf, (IoCache.lookup_eq_some h.nodup).mpr ⟨hmem, rfl⟩, hmem, rfl, hbuf, hgood⟩

theorem ioModify_spec {content : Nat → Option (BitVec 8)} (h : IoInv io handles) (hp : p ∈ handles)
    (ha : IoAgree io content) :
    ∃ io', ioModify io p bytes = some io' ∧ IoInv io' handles ∧
      IoAgree io' (modifyContent p bytes content) := by
  obtain ⟨dio, buf, hlookup, hmem, rfl, hbuf, hgood⟩ := h.holder hp
  unfold ioModify
  rw [hlookup, Option.bind_some, hbuf, Option.map_some]
  have hr : Replaced io (io.update (dio.modify buf bytes)) (dio.modify buf bytes) :=
    replaced_update h.nodup
      (by change io.lookup dio.pbase ≠ none; rw [hlookup]; exact Option.some_ne_none _)
      rfl fun _ _ => rfl
  have hword : CountWord.count 27 (dio.modify buf bytes).refs = CountWord.count 27 dio.refs :=
    word_setDirty dio.refs
  have hgood' : (dio.modify buf bytes).good = true := (good_setDirty dio.refs).trans hgood
  refine ⟨_, rfl, ?_, ?_⟩
  · refine h.replace hr (h.base dio hmem) (fun _ _ => rfl) (hword.trans (h.word dio hmem)) (h.few _)
      ?_ hgood'.symm ?_ ?_
    · rw [hgood']
      exact iff_of_true rfl ((h.good dio hmem).mp hgood)
    · intro b _ hclean
      rw [Dio.dirty, Dio.modify, dirty_setDirty] at hclean
      cases hclean
    · have hcountP : _ = _ + if (dio.modify buf bytes).count = 0 then 1 else 0 :=
        countP_update h.nodup hmem rfl
      have hcount : (dio.modify buf bytes).count = dio.count := by
        rw [Dio.count_eq, Dio.count_eq, hword]
      rw [hcount] at hcountP
      have hfree := h.free
      change io.iofreeCount = ((io.update (dio.modify buf bytes)).iohash.countP
        fun dio => dio.count = 0 : Nat)
      omega
  · intro x v hv
    rw [hr.view h.nodup]
    unfold modifyContent at hv
    split
    next hx =>
      obtain ⟨hsplit, hlt⟩ := block_split hx
      change x = dio.pbase + _ at hsplit
      have hview : io.view x = buf (x % dioPsize) := by
        rw [hsplit, view_of_lookup hlookup rfl (h.base dio hmem).2 hlt, Dio.shown, hbuf, ← hsplit]
      rw [if_pos (by omega)] at hv
      have hsub : x - dio.pbase = x % dioPsize := by omega
      rw [hsub] at hv
      dsimp only [Dio.modify]
      rw [if_pos hlt]
      cases hb : bytes (x % dioPsize) with
      | some b =>
        rw [hb] at hv
        exact Option.some.inj hv
      | none =>
        rw [hb, Option.none_or] at hv
        exact hview.symm.trans (ha x v hv)
    next hx =>
      have hbase := (h.base dio hmem).2
      rw [if_neg ?_] at hv
      · exact ha x v hv
      · change ¬ x / dioPsize * dioPsize = dio.pbase at hx
        unfold dioPsize at *
        omega

end Modify

section Cleanup

variable {io : IoCache} {handles : List Nat} {evict : Nat → Bool}

theorem IoInv.count_eq (h : IoInv io handles) {dio : Dio} (hdio : dio ∈ io.iohash) :
    dio.count = handles.count dio.pbase := by
  rw [Dio.count_eq, h.word dio hdio]
  exact Nat.mod_eq_of_lt (h.few _)

/-- A dio without references has no buffer. -/
theorem IoInv.data_none (h : IoInv io handles) {dio : Dio} (hdio : dio ∈ io.iohash)
    (hz : dio.count = 0) : dio.data = none := by
  have hgood : dio.good = false := by
    rw [Bool.eq_false_iff, ne_eq, h.good dio hdio, ← h.count_eq hdio]
    exact not_not.mpr hz
  rw [← h.data dio hdio] at hgood
  exact Option.isSome_eq_false_iff.mp hgood |> Option.isNone_iff_eq_none.mp

theorem countP_filter_not {l : List Dio} {p q : Dio → Bool} (h : ∀ dio, q dio = true → p dio = true) :
    (l.filter fun dio => !q dio).countP p + l.countP q = l.countP p := by
  induction l with
  | nil => rfl
  | cons dio l ih =>
    rw [List.countP_cons, List.countP_cons, List.filter_cons]
    cases hq : q dio with
    | true =>
      simp only [h dio hq, Bool.not_true, Bool.false_eq_true, if_false, if_true]
      omega
    | false =>
      simp only [Bool.not_false, if_true, List.countP_cons, Bool.false_eq_true, if_false]
      omega

theorem ioHashCleanup_mem {dio : Dio} : dio ∈ (ioHashCleanup io evict).iohash ↔
    dio ∈ io.iohash ∧ ¬ (dio.count = 0 ∧ evict dio.pbase = true) := by
  unfold ioHashCleanup
  rw [List.mem_filter, decide_eq_true_eq]

theorem ioHashCleanup_inv (h : IoInv io handles) : IoInv (ioHashCleanup io evict) handles where
  nodup := h.nodup.sublist (List.filter_sublist.map _)
  base dio hdio := h.base dio (ioHashCleanup_mem.mp hdio).1
  word dio hdio := h.word dio (ioHashCleanup_mem.mp hdio).1
  few := h.few
  held p hp := by
    obtain ⟨dio, hdio, rfl⟩ := h.held p hp
    refine ⟨dio, ioHashCleanup_mem.mpr ⟨hdio, ?_⟩, rfl⟩
    rintro ⟨hz, -⟩
    rw [h.count_eq hdio] at hz
    exact List.count_eq_zero.mp hz hp
  good dio hdio := h.good dio (ioHashCleanup_mem.mp hdio).1
  data dio hdio := h.data dio (ioHashCleanup_mem.mp hdio).1
  clean dio hdio := h.clean dio (ioHashCleanup_mem.mp hdio).1
  free := by
    have hcount := countP_filter_not (l := io.iohash) (p := fun dio => decide (dio.count = 0))
      (q := fun dio => decide (dio.count = 0 ∧ evict dio.pbase = true)) fun dio hq =>
        decide_eq_true (of_decide_eq_true hq).1
    have hfree := h.free
    unfold ioHashCleanup
    simp only [decide_not] at hcount ⊢
    omega

/-- What goes had nothing to show. -/
theorem ioHashCleanup_view (h : IoInv io handles) (x : Nat) :
    (ioHashCleanup io evict).view x = io.view x := by
  have hn : ((ioHashCleanup io evict).iohash.map Dio.pbase).Nodup := (ioHashCleanup_inv h).nodup
  unfold IoCache.view
  cases hlookup : io.lookup (x / dioPsize * dioPsize) with
  | none =>
    have hnone : (ioHashCleanup io evict).lookup (x / dioPsize * dioPsize) = none := by
      refine lookup_eq_none.mpr ?_
      intro dio hdio
      exact lookup_eq_none.mp hlookup dio (ioHashCleanup_mem.mp hdio).1
    rw [hnone]
    rfl
  | some dio =>
    obtain ⟨hmem, hbase⟩ := mem_of_lookup hlookup
    by_cases hgone : dio.count = 0 ∧ evict dio.pbase = true
    · have hnone : (ioHashCleanup io evict).lookup (x / dioPsize * dioPsize) = none := by
        refine lookup_eq_none.mpr ?_
        intro c hc hcb
        obtain ⟨hc, hstay⟩ := ioHashCleanup_mem.mp hc
        have hsame := (IoCache.lookup_eq_some h.nodup).mpr ⟨hc, hcb⟩
        rw [hlookup] at hsame
        cases hsame
        exact hstay hgone
      rw [hnone, Option.bind_none, Option.bind_some, h.data_none hmem hgone.1]
      rfl
    · rw [(IoCache.lookup_eq_some hn).mpr ⟨ioHashCleanup_mem.mpr ⟨hmem, hgone⟩, hbase⟩]
      rfl

theorem ioHashCleanupAll_eq {io' : IoCache} (h : ioHashCleanupAll io = some io') :
    io' = ioHashCleanup io fun _ => true := by
  unfold ioHashCleanupAll at h
  obtain ⟨hzero, h⟩ := Option.ite_none_right_eq_some.mp h
  cases Option.some.inj h
  have hfilter : (io.iohash.filter fun dio => ¬ (dio.count = 0 ∧ true = true)) = [] := by
    rw [List.filter_eq_nil_iff]
    intro dio hdio
    simp [hzero dio hdio]
  have hcount : (io.iohash.countP fun dio => dio.count = 0 ∧ true = true) = io.iohash.length := by
    rw [List.countP_eq_length]
    intro dio hdio
    simp [hzero dio hdio]
  unfold ioHashCleanup
  dsimp only
  rw [hfilter, hcount]

end Cleanup

section Putblk

variable {io : IoCache} {handles : List Nat} {p : Nat} {how : IoPut} {dio : Dio}

theorem setFlags_word (dio : Dio) (how : IoPut) :
    CountWord.count 27 (dio.setFlags how).refs = CountWord.count 27 dio.refs :=
  word_setPut dio.refs how

theorem setFlags_good (dio : Dio) (how : IoPut) : (dio.setFlags how).good = dio.good := by
  unfold Dio.setFlags Dio.good
  rw [BitVec.getLsbD_or]
  cases how <;> simp [IoPut.flags, dioDirty, dioFlush]

theorem dirty_of_setFlags (h : (dio.setFlags how).dirty = false) : dio.dirty = false := by
  unfold Dio.setFlags Dio.dirty at h
  rw [BitVec.getLsbD_or, Bool.or_eq_false_iff] at h
  exact h.1

theorem dispose_flush (h : CountWord.count 27 dio.refs ≠ 0) : dio.dispose.flush = dio.flush := by
  unfold Dio.dispose Dio.flush
  rw [BitVec.getLsbD_and, flag_sub h (by decide)]
  simp [dioGood, dioDirty]

theorem dispose_good (dio : Dio) : dio.dispose.good = false := by
  unfold Dio.dispose Dio.good
  rw [BitVec.getLsbD_and]
  simp [dioGood, dioDirty]

theorem dispose_word (h : CountWord.count 27 dio.refs ≠ 0) :
    CountWord.count 27 dio.dispose.refs = CountWord.count 27 dio.refs - 1 :=
  (word_clear _).trans (word_sub h)

theorem count_erase_of_ne (handles : List Nat) {q : Nat} (hq : q ≠ p) :
    (handles.erase p).count q = handles.count q :=
  List.count_erase_of_ne hq

/-- The bytes of a block after the drop of the last reference. -/
theorem lastdropDev_eq {dev buf : Image} (hbuf : dio.data = some buf) (hgood : dio.good = true)
    (hword : CountWord.count 27 dio.refs ≠ 0) (hp : dio.pbase % dioPsize = 0) (x : Nat) :
    lastdropDev dev dio x = if x / dioPsize * dioPsize = dio.pbase ∧ dio.dirty = true ∧
      dio.flush = true then buf (x % dioPsize) else dev x := by
  unfold lastdropDev
  rw [hbuf, dispose_flush hword]
  dsimp only
  have hblock : dio.pbase ≤ x ∧ x < dio.pbase + dioPsize ↔ x / dioPsize * dioPsize = dio.pbase := by
    unfold dioPsize at *
    omega
  cases hdirty : dio.dirty with
  | false => simp
  | true =>
    cases hflush : dio.flush with
    | false => simp [devBwrite]
    | true =>
      simp only [hgood, and_self, if_true, devBwrite, hblock, and_true]
      split
      next hx =>
        obtain ⟨hsplit, -⟩ := block_split hx
        rw [show x - dio.pbase = x % dioPsize by omega]
      next => rfl

/-- The drop of the last reference: the buffer is gone, and its bytes with it if they were dirty and
not flushed. -/
theorem ioLastdrop_spec (h : IoInv io handles) (hlookup : io.lookup p = some dio)
    (hone : handles.count p = 1) :
    IoInv (ioLastdrop io (dio.setFlags how)) (handles.erase p) ∧
      ∀ x, (ioLastdrop io (dio.setFlags how)).view x = if x / dioPsize * dioPsize = p ∧
        (dio.setFlags how).dirty = true ∧ (dio.setFlags how).flush = false then io.dev x
        else io.view x := by
  obtain ⟨hmem, rfl⟩ := (IoCache.lookup_eq_some h.nodup).mp hlookup
  have hp : dio.pbase ∈ handles := List.count_pos_iff.mp (by omega)
  obtain ⟨dio', buf, hlookup', -, -, hbuf, hgood⟩ := h.holder hp
  rw [hlookup] at hlookup'
  cases hlookup'
  have hbase := h.base dio hmem
  have hword := (setFlags_word dio how).trans (h.word dio hmem)
  have hne : CountWord.count 27 (dio.setFlags how).refs ≠ 0 := by omega
  have hdispose := dispose_word hne
  have hdev : ∀ x, lastdropDev io.dev (dio.setFlags how) x = _ :=
    lastdropDev_eq hbuf ((setFlags_good dio how).trans hgood) hne hbase.2
  have hr : Replaced io (ioLastdrop io (dio.setFlags how)) (dio.setFlags how).dispose := by
    refine replaced_update h.nodup ?_ rfl ?_
    · change io.lookup dio.pbase ≠ none
      rw [hlookup]
      exact Option.some_ne_none _
    · intro x hx
      exact (hdev x).trans (if_neg fun hcon => hx hcon.1)
  have hcount : (handles.erase dio.pbase).count dio.pbase = 0 := by
    rw [List.count_erase_self, hone]
  refine ⟨?_, ?_⟩
  · refine h.replace hr hbase (fun q hq => count_erase_of_ne handles hq) ?_ ?_ ?_ ?_ ?_ ?_
    · change CountWord.count 27 (dio.setFlags how).dispose.refs =
        (handles.erase dio.pbase).count dio.pbase
      rw [hdispose, hword, hcount, hone]
    · change (handles.erase dio.pbase).count dio.pbase < _
      rw [hcount]
      decide
    · change _ ↔ (handles.erase dio.pbase).count dio.pbase ≠ 0
      rw [dispose_good, hcount]
      simp
    · rw [dispose_good]
      rfl
    · intro b hb
      cases hb
    · have hcountP : _ = _ + if (dio.setFlags how).dispose.count = 0 then 1 else 0 :=
        countP_update h.nodup hmem rfl
      have hfree := h.free
      have hold := h.count_eq hmem
      have hnew := (dio.setFlags how).dispose.count_eq
      rw [if_neg (by omega), if_pos (by omega)] at hcountP
      change io.iofreeCount + 1 =
        ((io.update (dio.setFlags how).dispose).iohash.countP fun dio => dio.count = 0 : Nat)
      omega
  · intro x
    rw [hr.view h.nodup]
    change (if x / dioPsize * dioPsize = dio.pbase then lastdropDev io.dev (dio.setFlags how) x
      else io.view x) = _
    by_cases hx : x / dioPsize * dioPsize = dio.pbase
    · obtain ⟨hsplit, hlt⟩ := block_split hx
      have hview : io.view x = buf (x % dioPsize) := by
        rw [hsplit, view_of_lookup hlookup rfl hbase.2 hlt, Dio.shown, hbuf, ← hsplit]
      rw [if_pos hx, hdev]
      cases hdirty : (dio.setFlags how).dirty with
      | false =>
        have hclean := h.clean dio hmem buf hbuf (dirty_of_setFlags hdirty) _ hlt
        rw [← hsplit] at hclean
        simp [hview, hclean]
      | true => cases hflush : (dio.setFlags how).flush <;> simp [hx, hview, Dio.setFlags]
    · rw [if_neg hx, if_neg fun hcon => hx hcon.1]

/-- Any other drop keeps the buffer. -/
theorem ioUnref_spec (h : IoInv io handles) (hlookup : io.lookup p = some dio)
    (hmore : 1 < handles.count p) :
    IoInv (io.update (dio.setFlags how).unref) (handles.erase p) ∧
      ∀ x, (io.update (dio.setFlags how).unref).view x = io.view x := by
  obtain ⟨hmem, rfl⟩ := (IoCache.lookup_eq_some h.nodup).mp hlookup
  have hword := (setFlags_word dio how).trans (h.word dio hmem)
  have hne : CountWord.count 27 (dio.setFlags how).refs ≠ 0 := by omega
  have hsub : CountWord.count 27 (dio.setFlags how).unref.refs =
      CountWord.count 27 (dio.setFlags how).refs - 1 := word_sub hne
  have hgood : (dio.setFlags how).unref.good = dio.good :=
    (flag_sub hne (by decide)).trans (setFlags_good dio how)
  have hdirty : (dio.setFlags how).unref.dirty = (dio.setFlags how).dirty :=
    flag_sub hne (by decide)
  have hcount : (handles.erase dio.pbase).count dio.pbase = handles.count dio.pbase - 1 :=
    List.count_erase_self
  have hr : Replaced io (io.update (dio.setFlags how).unref) (dio.setFlags how).unref := by
    refine replaced_update h.nodup ?_ rfl fun _ _ => rfl
    change io.lookup dio.pbase ≠ none
    rw [hlookup]
    exact Option.some_ne_none _
  refine ⟨?_, ?_⟩
  · have hfew := h.few dio.pbase
    refine h.replace hr (h.base dio hmem) (fun q hq => count_erase_of_ne handles hq) ?_ ?_ ?_
      ((h.data dio hmem).trans hgood.symm) ?_ ?_
    · change CountWord.count 27 (dio.setFlags how).unref.refs =
        (handles.erase dio.pbase).count dio.pbase
      rw [hsub, hword, hcount]
    · change (handles.erase dio.pbase).count dio.pbase < _
      omega
    · change _ ↔ (handles.erase dio.pbase).count dio.pbase ≠ 0
      rw [hgood, h.good dio hmem]
      omega
    · intro b hb hclean
      rw [hdirty] at hclean
      exact h.clean dio hmem b hb (dirty_of_setFlags hclean)
    · have hcountP : _ = _ + if (dio.setFlags how).unref.count = 0 then 1 else 0 :=
        countP_update h.nodup hmem rfl
      have hfree := h.free
      have hold := h.count_eq hmem
      have hnew := (dio.setFlags how).unref.count_eq
      rw [if_neg (by omega), if_neg (by omega)] at hcountP
      change io.iofreeCount =
        ((io.update (dio.setFlags how).unref).iohash.countP fun dio => dio.count = 0 : Nat)
      omega
  · intro x
    rw [hr.view h.nodup]
    split
    next hx =>
      change x / dioPsize * dioPsize = dio.pbase at hx
      unfold IoCache.view
      rw [hx, hlookup]
      rfl
    next => rfl

theorem ioPutblk_spec (limit : Int) (evict : Nat → Bool) (h : IoInv io handles) (hp : p ∈ handles) :
    ∃ dio io', io.lookup p = some dio ∧ ioPutblk limit io p how evict = some io' ∧
      IoInv io' (handles.erase p) ∧
      ∀ x, io'.view x = if x / dioPsize * dioPsize = p ∧ handles.count p = 1 ∧
        (dio.setFlags how).dirty = true ∧ (dio.setFlags how).flush = false then io.dev x
        else io.view x := by
  obtain ⟨dio, -, hlookup, hmem, hbase, -, -⟩ := h.holder hp
  have hpos : 0 < handles.count p := List.count_pos_iff.mpr hp
  have hcount : (dio.setFlags how).count = handles.count p := by
    rw [Dio.count_eq, setFlags_word, ← Dio.count_eq, h.count_eq hmem, hbase]
  unfold ioPutblk
  rw [hlookup, Option.map_some]
  refine ⟨dio, _, rfl, rfl, ?_⟩
  dsimp only
  rw [hcount, if_neg (by omega)]
  by_cases hone : handles.count p = 1
  · rw [if_neg (not_not.mpr hone)]
    obtain ⟨hinv, hview⟩ : IoInv (ioLastdrop io (dio.setFlags how)) _ ∧ _ :=
      ioLastdrop_spec h hlookup hone
    split
    · refine ⟨ioHashCleanup_inv hinv, ?_⟩
      intro x
      rw [ioHashCleanup_view hinv, hview]
      simp [hone]
    · refine ⟨hinv, ?_⟩
      intro x
      rw [hview]
      simp [hone]
  · rw [if_pos hone]
    obtain ⟨hinv, hview⟩ : IoInv (io.update (dio.setFlags how).unref) _ ∧ _ :=
      ioUnref_spec h hlookup (by omega)
    refine ⟨hinv, ?_⟩
    intro x
    rw [hview, if_neg fun hcon => hone hcon.2.1]

end Putblk

end Hammer2
