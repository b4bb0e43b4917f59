import Hammer2.DioTransparent

namespace Hammer2

open ByteImage KeyedList

/-- What the cache promises in a state: a `hammer2_io_bread` of any range would return the bytes
written last, every count is the number of handles, and `iofree_count` that of the free dios. -/
structure IoTransparent (s : IoSys) : Prop where
  bread : ∀ dataOff junk, IoLegal dataOff → ∃ io dio buf,
    ioGetblk s.cache .read dataOff junk = some io ∧ io.lookup (ioPbase dataOff) = some dio ∧
      dio.data = some buf ∧ ∀ x, InRange dataOff x → ∀ v, s.content x = some v →
        buf (x - ioPbase dataOff) = v
  refs : ∀ dio ∈ s.cache.iohash, dio.count = s.handles.count dio.pbase
  iofree : s.cache.iofreeCount = s.cache.iohash.countP fun dio => dio.count = 0

/-- An operation that the cache is made for: the count of a buffer does not run over, and the drop of
the last handle of a dirty buffer flushes it, unless the device has its bytes already. -/
def IoSafe (s : IoSys) : IoAction → Prop
  | .getblk _ dataOff _ => s.handles.count (ioPbase dataOff) + 1 < 2 ^ 24
  | .putblk p how _ => s.handles.count p = 1 → ∀ dio, s.cache.lookup p = some dio →
    (dio.setFlags how).dirty = true → (dio.setFlags how).flush = false →
      ∀ x v, x / dioPsize * dioPsize = p → s.content x = some v → s.cache.dev x = v
  | _ => True

/-- `P` holds in all states of a sequence of operations. -/
def IoAlways (limit : Int) (P : IoSys → Prop) : List IoAction → IoSys → Prop
  | [], s => P s
  | a :: as, s => P s ∧ ∀ s', ioStep limit s a = some s' → IoAlways limit P as s'

/-- All operations of a sequence are safe. -/
def IoSafeRun (limit : Int) : List IoAction → IoSys → Prop
  | [], _ => True
  | a :: as, s => ∀ s', ioStep limit s a = some s' → IoSafe s a ∧ IoSafeRun limit as s'

section Step

variable {limit : Int} {s s' : IoSys} {a : IoAction}

theorem ioGetblk_legal {io io' : IoCache} {op : IoOp} {dataOff : Nat} {junk : Image}
    (h : ioGetblk io op dataOff junk = some io') : IoLegal dataOff := by
  unfold ioGetblk ioAlloc at h
  by_contra hl
  rw [if_pos hl, Option.bind_none] at h
  cases h

theorem ioStep_inv (h : IoInv s.cache s.handles) (ha : IoAgree s.cache s.content)
    (hsafe : IoSafe s a) (hs : ioStep limit s a = some s') :
    IoInv s'.cache s'.handles ∧ IoAgree s'.cache s'.content := by
  cases a with
  | getblk op dataOff junk =>
    obtain ⟨io', hget, rfl⟩ := Option.map_eq_some_iff.mp hs
    have hl := ioGetblk_legal hget
    obtain ⟨_, dio, buf, hget', g⟩ := ioGetblk_spec h hl op junk
    cases Option.some.inj (hget.symm.trans hget')
    exact ⟨g.inv h hl hsafe, g.agree h hl ha⟩
  | modify p bytes =>
    obtain ⟨hp, hs⟩ := Option.ite_none_right_eq_some.mp hs
    obtain ⟨io', hmod, rfl⟩ := Option.map_eq_some_iff.mp hs
    obtain ⟨_, hmod', hinv, hagree⟩ := ioModify_spec h hp ha
    cases Option.some.inj (hmod.symm.trans hmod')
    exact ⟨hinv, hagree⟩
  | putblk p how evict =>
    obtain ⟨hp, hs⟩ := Option.ite_none_right_eq_some.mp hs
    obtain ⟨io', hput, rfl⟩ := Option.map_eq_some_iff.mp hs
    obtain ⟨dio, _, hlookup, hput', hinv, hview⟩ := ioPutblk_spec limit evict h hp
    cases Option.some.inj (hput.symm.trans hput')
    refine ⟨hinv, ?_⟩
    intro x v hv
    rw [hview]
    split
    next hcon =>
      obtain ⟨hx, hone, hdirty, hflush⟩ := hcon
      exact hsafe hone dio hlookup hdirty hflush x v hx hv
    next => exact ha x v hv
  | cleanupAll =>
    obtain ⟨io', hall, rfl⟩ := Option.map_eq_some_iff.mp hs
    cases ioHashCleanupAll_eq hall
    have hinv : IoInv (ioHashCleanup s.cache fun _ => true) s.handles := ioHashCleanup_inv h
    refine ⟨hinv, ?_⟩
    intro x v hv
    dsimp only
    rw [ioHashCleanup_view h]
    exact ha x v hv

/-- A `hammer2_io_bread` returns what the cache shows. -/
theorem bread_view {io : IoCache} {handles : List Nat} (h : IoInv io handles) {dataOff : Nat}
    (hl : IoLegal dataOff) (junk : Image) :
    ∃ io' dio buf, ioGetblk io .read dataOff junk = some io' ∧
      io'.lookup (ioPbase dataOff) = some dio ∧ dio.data = some buf ∧
      ∀ x, InRange dataOff x → buf (x - ioPbase dataOff) = io.view x := by
  obtain ⟨io', dio, buf, hget, g⟩ := ioGetblk_spec h hl .read junk
  refine ⟨io', dio, buf, hget, g.pbase ▸ g.replaced.lookup_self, g.data, ?_⟩
  intro x hx
  obtain ⟨hsplit, hlt⟩ := block_split (hl.block hx)
  have hsub : x - ioPbase dataOff = x % dioPsize := by omega
  rw [hsub, g.kept _ hlt (Or.inl rfl), g.pbase, ← hsplit]

theorem ioTransparent_of_inv (h : IoInv s.cache s.handles) (ha : IoAgree s.cache s.content) :
    IoTransparent s where
  bread dataOff junk hl := by
    obtain ⟨io, dio, buf, hget, hlookup, hbuf, hview⟩ := bread_view h hl junk
    refine ⟨io, dio, buf, hget, hlookup, hbuf, ?_⟩
    intro x hx v hv
    rw [hview x hx]
    exact ha x v hv
  refs _ hdio := h.count_eq hdio
  iofree := h.free

theorem whole_legal {p : Nat} (hp : p ≠ 0) (hmod : p % dioPsize = 0) :
    IoLegal (p + 16) ∧ ioPbase (p + 16) = p ∧
      ∀ x, x / dioPsize * dioPsize = p → InRange (p + 16) x := by
  have hradix : (p + 16) % 64 = 16 := by
    unfold dioPsize at hmod
    omega
  have hlbase : ioLbase (p + 16) = p := by
    unfold ioLbase
    unfold dioPsize at hmod
    omega
  have hpbase : ioPbase (p + 16) = p := by
    unfold ioPbase
    rw [hlbase]
    unfold dioPsize at *
    omega
  refine ⟨⟨by rwa [hpbase], ?_⟩, hpbase, ?_⟩
  · rw [hpbase, hlbase]
    unfold ioLsize
    rw [hradix]
    unfold dioPsize at *
    norm_num
    omega
  · intro x hx
    obtain ⟨hsplit, hlt⟩ := block_split hx
    unfold InRange
    rw [hlbase, hradix]
    unfold dioPsize at hsplit hlt
    norm_num
    omega

/-- An operation that is not safe breaks a promise at once. -/
theorem ioSafe_of_transparent (h : IoInv s.cache s.handles) (hs : ioStep limit s a = some s')
    (ht : IoTransparent s') : IoSafe s a := by
  cases a with
  | getblk op dataOff junk =>
    obtain ⟨io', hget, rfl⟩ := Option.map_eq_some_iff.mp hs
    obtain ⟨_, dio, buf, hget', g⟩ := ioGetblk_spec h (ioGetblk_legal hget) op junk
    cases Option.some.inj (hget.symm.trans hget')
    have hrefs := ht.refs dio ((g.replaced.mem dio).mpr (Or.inl rfl))
    rw [g.pbase, Dio.count_eq, g.word] at hrefs
    dsimp only at hrefs
    rw [List.count_cons_self] at hrefs
    have hmod := Nat.mod_lt (s.handles.count (ioPbase dataOff) + 1) (show 0 < 2 ^ 24 by decide)
    unfold IoSafe
    omega
  | modify p bytes => trivial
  | putblk p how evict =>
    obtain ⟨hp, hs⟩ := Option.ite_none_right_eq_some.mp hs
    obtain ⟨io', hput, rfl⟩ := Option.map_eq_some_iff.mp hs
    obtain ⟨dio, _, hlookup, hput', hinv, hview⟩ := ioPutblk_spec limit evict h hp
    cases Option.some.inj (hput.symm.trans hput')
    intro hone dio' hlookup' hdirty hflush x v hx hv
    cases Option.some.inj (hlookup.symm.trans hlookup')
    obtain ⟨hmem, rfl⟩ := mem_of_lookup hlookup
    obtain ⟨hne, hmod⟩ := h.base dio hmem
    obtain ⟨hl, hpbase, hrange⟩ := whole_legal hne hmod
    obtain ⟨io, d, buf, hget, hd, hbuf, hsame⟩ := ht.bread _ (fun _ => 0#8) hl
    obtain ⟨_, d', buf', hget', hd', hbuf', hshown⟩ := bread_view hinv hl fun _ => 0#8
    cases Option.some.inj (hget.symm.trans hget')
    cases Option.some.inj (hd.symm.trans hd')
    cases Option.some.inj (hbuf.symm.trans hbuf')
    have hbyte := hsame x (hrange x hx) v hv
    rw [hshown x (hrange x hx), hview, if_pos ⟨hx, hone, hdirty, hflush⟩] at hbyte
    exact hbyte
  | cleanupAll => trivial

/-- From a consistent state on, the cache keeps its promises exactly as long as all operations are
safe. -/
theorem ioAlways_iff {as : List IoAction} (h : IoInv s.cache s.handles)
    (ha : IoAgree s.cache s.content) :
    IoAlways limit IoTransparent as s ↔ IoSafeRun limit as s := by
  induction as generalizing s with
  | nil => exact iff_of_true (ioTransparent_of_inv h ha) trivial
  | cons a as ih =>
    constructor
    · rintro ⟨-, hrest⟩ s' hs
      have hnow : IoTransparent s' := by
        have halways := hrest s' hs
        cases as with
        | nil => exact halways
        | cons b bs => exact halways.1
      have hsafe := ioSafe_of_transparent h hs hnow
      obtain ⟨h', ha'⟩ := ioStep_inv h ha hsafe hs
      exact ⟨hsafe, (ih h' ha').mp (hrest s' hs)⟩
    · intro hsafe
      refine ⟨ioTransparent_of_inv h ha, ?_⟩
      intro s' hs
      obtain ⟨hnow, hrest⟩ := hsafe s' hs
      obtain ⟨h', ha'⟩ := ioStep_inv h ha hnow hs
      exact (ih h' ha').mpr hrest

end Step

theorem ioInit_inv (dev : Image) : IoInv (ioInit dev).cache (ioInit dev).handles where
  nodup := List.nodup_nil
  base := by simp [ioInit]
  word := by simp [ioInit]
  few := by simp [ioInit]
  held := by simp [ioInit]
  good := by simp [ioInit]
  data := by simp [ioInit]
  clean := by simp [ioInit]
  free := rfl

theorem ioInit_agree (dev : Image) : IoAgree (ioInit dev).cache (ioInit dev).content := by
  intro x v hv
  cases Option.some.inj hv
  rfl

/-- The buffer cache is transparent through a sequence of operations exactly if no last drop of a dirty
buffer leaves it unflushed with bytes that the device does not have, and no count runs over. -/
theorem io_transparent_iff (limit : Int) (dev : Image) (as : List IoAction) :
    IoAlways limit IoTransparent as (ioInit dev) ↔ IoSafeRun limit as (ioInit dev) :=
  ioAlways_iff (ioInit_inv dev) (ioInit_agree dev)

/-- A byte written into a new buffer and dropped with `hammer2_io_putblk`. -/
def lostWrite : List IoAction :=
  [.getblk .new 65552 fun _ => 0#8, .modify 65536 fun i => if i = 0 then some 1#8 else none,
    .putblk 65536 .putblk fun _ => false]

theorem dirty_putblk_loses_write : ¬ IoAlways 256 IoTransparent lostWrite (ioInit fun _ => 0#8) := by
  rw [ioAlways_iff (ioInit_inv _) (ioInit_agree _)]
  intro hsafe
  obtain ⟨-, hsafe⟩ := hsafe _ rfl
  obtain ⟨-, hsafe⟩ := hsafe _ rfl
  obtain ⟨hsafe, -⟩ := hsafe _ rfl
  have hbyte := hsafe rfl _ rfl rfl rfl 65536 1#8 rfl rfl
  revert hbyte
  decide

end Hammer2
