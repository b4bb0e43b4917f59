import Hammer2.BulkfreeCover

namespace Hammer2

/-- The slots of the cache in which `h2_bulkfree_test` looks for an offset. -/
def dedupSlots (env : ScanEnv) (data : Extent) : List Nat :=
  List.range' (env.icrc32 data &&& 262136) 8

/-- The offset is in the visited cache. -/
def Cached (env : ScanEnv) (dedup : Nat → DedupEntry) (data : Extent) : Prop :=
  ∃ i ∈ dedupSlots env data, (dedup i).data = data

/-- `h2_bulkfree_test` as a function of the cache alone. -/
def testCache (env : ScanEnv) (dedup : Nat → DedupEntry) (data : Extent) (pri : Nat)
    (savedError : BitVec 32) : BitVec 32 × (Nat → DedupEntry) :=
  let r := bulkfreeTest env { windowInfo env.hmp 0 0 0 with dedup := dedup } data pri savedError
  (r.1, r.2.dedup)

/-- What a scan does to the cache: a blockref is met, the scan of a block ends, or it ends at the
check error of the block itself, where the code jumps to `done` past the last call. -/
inductive TestEvent where
  | visit (data : Extent)
  | finish (data : Extent) (pri : Nat) (error : BitVec 32)
  | stop (data : Extent) (error : BitVec 32)

/-- The cache, and for every block the error with which its scan has ended since the block was
last entered into the cache. -/
structure VisitState where
  dedup : Nat → DedupEntry
  ended : Extent → Option (BitVec 32)

def visitStart : VisitState := ⟨fun _ => ⟨⟨0, 0⟩, 0, 0⟩, fun _ => none⟩

def visitStep (env : ScanEnv) (s : VisitState) : TestEvent → VisitState
  | .visit data =>
    let r := testCache env s.dedup data 1 0
    ⟨r.2, if r.1 = 0 then Function.update s.ended data none else s.ended⟩
  | .finish data pri error =>
    ⟨(testCache env s.dedup data pri error).2, Function.update s.ended data (some error)⟩
  | .stop data error => ⟨s.dedup, Function.update s.ended data (some error)⟩

def visitRun (env : ScanEnv) (s : VisitState) (events : List TestEvent) : VisitState :=
  events.foldl (visitStep env) s

/-- Wherever a block whose scan has ended is still in the cache, `h2_bulkfree_test` returns the
error of that scan. -/
def ErrorsKept (env : ScanEnv) (s : VisitState) : Prop :=
  ∀ data error, s.ended data = some error → Cached env s.dedup data →
    (testCache env s.dedup data 1 0).1 = error ||| errEof

/-- When the scan of a block ends, the block has been displaced from the cache, or its entry has the
error of the scan already. -/
def SaveOk (env : ScanEnv) (dedup : Nat → DedupEntry) : TestEvent → Prop
  | .visit _ => True
  | .finish data _ error | .stop data error =>
    ∀ i ∈ dedupSlots env data, (dedup i).data = data →
      (dedup i).savedError ||| errEof = error ||| errEof

/-- Entries for the same offset agree; there is only one as soon as the offset has been met. -/
def DedupCoherent (env : ScanEnv) (dedup : Nat → DedupEntry) : Prop :=
  ∀ data, ∀ i ∈ dedupSlots env data, ∀ j ∈ dedupSlots env data, (dedup i).data = data →
    (dedup j).data = data → (dedup i).savedError = (dedup j).savedError

section

variable {env : ScanEnv} {dedup : Nat → DedupEntry} {data data' : Extent} {i j pri : Nat}
  {err : BitVec 32} {s : VisitState} {ev : TestEvent}

theorem dedupProbe_mem {slots : List Nat} {best : Nat}
    (h : dedupProbe dedup data slots best = .inl i) : i ∈ slots := by
  induction slots generalizing best with
  | nil => cases h
  | cons j rest ih =>
    unfold dedupProbe at h
    split at h
    next =>
      cases h
      exact List.mem_cons_self
    next => exact List.mem_cons_of_mem _ (ih h)

theorem dedupProbe_inr {slots : List Nat} {best : Nat}
    (h : dedupProbe dedup data slots best = .inr i) :
    (∀ j ∈ slots, (dedup j).data ≠ data) ∧ (i = best ∨ i ∈ slots) := by
  induction slots generalizing best with
  | nil =>
    cases h
    exact ⟨by simp, Or.inl rfl⟩
  | cons j rest ih =>
    unfold dedupProbe at h
    split at h
    next => cases h
    next hne =>
      obtain ⟨hrest, hi⟩ := ih h
      refine ⟨fun k hk => ?_, ?_⟩
      · rcases List.mem_cons.mp hk with rfl | hk
        · exact hne
        · exact hrest k hk
      · rcases hi with rfl | hi
        · split
          next => exact Or.inr List.mem_cons_self
          next => exact Or.inl rfl
        · exact Or.inr (List.mem_cons_of_mem _ hi)

/-- The cache is divided into sets of eight slots. -/
theorem dedupSlots_eq (hi : i ∈ dedupSlots env data) (hi' : i ∈ dedupSlots env data') :
    dedupSlots env data = dedupSlots env data' := by
  have hmod : ∀ n : Nat, (n &&& 262136) % 8 = 0 := by
    intro n
    have h8 : (262136 : Nat) % 2 ^ 3 = 0 := by decide
    rw [show 8 = 2 ^ 3 from rfl, Nat.and_mod_two_pow, h8, Nat.and_zero]
  unfold dedupSlots at *
  rw [List.mem_range'_1] at hi hi'
  have h1 := hmod (env.icrc32 data)
  have h2 := hmod (env.icrc32 data')
  rw [show env.icrc32 data &&& 262136 = env.icrc32 data' &&& 262136 by omega]

theorem bulkfreeTest_eq (info : BulkInfo) :
    bulkfreeTest env info data pri err = ((testCache env info.dedup data pri err).1,
      { info with dedup := (testCache env info.dedup data pri err).2 }) := by
  unfold testCache bulkfreeTest
  simp only
  split <;> rfl

theorem testCache_hit (pri : Nat) (err : BitVec 32) (h : Cached env dedup data) :
    ∃ i ∈ dedupSlots env data, (dedup i).data = data ∧
      (testCache env dedup data pri err).1 = (dedup i).savedError ||| errEof ∧
      ∀ j, ((testCache env dedup data pri err).2 j).data = (dedup j).data ∧
        ((testCache env dedup data pri err).2 j).savedError = (dedup j).savedError := by
  obtain ⟨k, hk, hkd⟩ := h
  unfold testCache bulkfreeTest
  simp only
  split
  next i hprobe =>
    refine ⟨i, dedupProbe_mem hprobe, dedupProbe_inl hprobe, rfl, fun j => ?_⟩
    simp only
    rcases eq_or_ne j i with rfl | hne
    · rw [Function.update_self]
      exact ⟨rfl, rfl⟩
    · rw [Function.update_of_ne hne]
      exact ⟨rfl, rfl⟩
  next hprobe => exact absurd hkd ((dedupProbe_inr hprobe).1 k hk)

theorem testCache_miss (pri : Nat) (err : BitVec 32) (h : ¬Cached env dedup data) :
    (testCache env dedup data pri err).1 = 0 ∧ ∃ best ∈ dedupSlots env data,
      (testCache env dedup data pri err).2 =
        Function.update dedup best ⟨data, BitVec.ofNat 32 pri, err⟩ := by
  unfold testCache bulkfreeTest
  simp only
  split
  next i hprobe => exact absurd ⟨i, dedupProbe_mem hprobe, dedupProbe_inl hprobe⟩ h
  next best hprobe =>
    refine ⟨rfl, best, ?_, rfl⟩
    rcases (dedupProbe_inr hprobe).2 with rfl | hbest
    · unfold dedupSlots
      rw [List.mem_range'_1]
      omega
    · exact hbest

theorem DedupCoherent.test_error (pri : Nat) (err : BitVec 32) (hc : DedupCoherent env dedup)
    (hi : i ∈ dedupSlots env data)
    (hd : (dedup i).data = data) :
    (testCache env dedup data pri err).1 = (dedup i).savedError ||| errEof := by
  obtain ⟨k, hk, hkd, herr, _⟩ := testCache_hit pri err ⟨i, hi, hd⟩
  rw [herr, hc data k hk i hi hkd hd]

/-- Replacing a slot of a set that does not hold the offset keeps the entries apart. -/
theorem DedupCoherent.insert (hc : DedupCoherent env dedup) (hmiss : ¬Cached env dedup data)
    {best : Nat} (hbest : best ∈ dedupSlots env data) (entry : DedupEntry)
    (hentry : entry.data = data) : DedupCoherent env (Function.update dedup best entry) := by
  intro d k hk l hl hkd hld
  by_cases hkb : k = best
  · by_cases hlb : l = best
    · rw [hkb, hlb]
    · exfalso
      subst hkb
      rw [Function.update_self] at hkd
      rw [Function.update_of_ne hlb] at hld
      refine hmiss ⟨l, ?_, ?_⟩
      · rw [dedupSlots_eq hbest hk]
        exact hl
      · rw [hld, ← hkd, hentry]
  · by_cases hlb : l = best
    · exfalso
      subst hlb
      rw [Function.update_self] at hld
      rw [Function.update_of_ne hkb] at hkd
      refine hmiss ⟨k, ?_, ?_⟩
      · rw [dedupSlots_eq hbest hl]
        exact hk
      · rw [hkd, ← hld, hentry]
    · rw [Function.update_of_ne hkb] at hkd ⊢
      rw [Function.update_of_ne hlb] at hld ⊢
      exact hc d k hk l hl hkd hld

theorem DedupCoherent.test (hc : DedupCoherent env dedup) :
    DedupCoherent env (testCache env dedup data pri err).2 := by
  by_cases h : Cached env dedup data
  · obtain ⟨_, _, _, _, hsame⟩ := testCache_hit pri err h
    intro d k hk l hl hkd hld
    rw [(hsame k).1] at hkd
    rw [(hsame l).1] at hld
    rw [(hsame k).2, (hsame l).2]
    exact hc d k hk l hl hkd hld
  · obtain ⟨_, best, hbest, heq⟩ := testCache_miss pri err h
    rw [heq]
    exact hc.insert h hbest _ rfl

theorem DedupCoherent.step (hc : DedupCoherent env s.dedup) :
    DedupCoherent env (visitStep env s ev).dedup := by
  cases ev with
  | visit d => exact hc.test
  | finish d pri e => exact hc.test
  | stop d e => exact hc

/-- The kept errors, read off the entries. -/
theorem errorsKept_iff (hc : DedupCoherent env s.dedup) : ErrorsKept env s ↔
    ∀ d e, s.ended d = some e → ∀ i ∈ dedupSlots env d, (s.dedup i).data = d →
      (s.dedup i).savedError ||| errEof = e ||| errEof := by
  constructor
  · intro h d e hd i hi hid
    rw [← hc.test_error 1 0 hi hid]
    exact h d e hd ⟨i, hi, hid⟩
  · rintro h d e hd ⟨i, hi, hid⟩
    rw [hc.test_error 1 0 hi hid]
    exact h d e hd i hi hid

/-- An entry for another offset that is there after a call was there before. -/
theorem testCache_entry (hne : data' ≠ data)
    (hd : ((testCache env dedup data pri err).2 i).data = data') :
    (dedup i).data = data' ∧
      ((testCache env dedup data pri err).2 i).savedError = (dedup i).savedError := by
  by_cases h : Cached env dedup data
  · obtain ⟨_, _, _, _, hsame⟩ := testCache_hit pri err h
    exact ⟨(hsame i).1 ▸ hd, (hsame i).2⟩
  · obtain ⟨_, best, _, heq⟩ := testCache_miss pri err h
    rw [heq] at hd ⊢
    rcases eq_or_ne i best with rfl | hib
    · rw [Function.update_self] at hd
      exact absurd hd.symm hne
    · rw [Function.update_of_ne hib] at hd ⊢
      exact ⟨hd, rfl⟩

theorem testCache_ne_zero (pri : Nat) (err : BitVec 32) (h : Cached env dedup data) :
    (testCache env dedup data pri err).1 ≠ 0 := by
  obtain ⟨i, _, _, herr, _⟩ := testCache_hit pri err h
  rw [herr]
  exact fun hz => absurd (BitVec.or_eq_zero_iff.mp hz).2 (by decide)

/-- The call at the end of a scan leaves the error in the entry exactly if the entry has to be made
anew, or has it already. -/
theorem visitStep_finish {error : BitVec 32} (hc : DedupCoherent env s.dedup) (hk : ErrorsKept env s) :
    ErrorsKept env (visitStep env s (.finish data pri error)) ↔
      SaveOk env s.dedup (.finish data pri error) := by
  have hc' : DedupCoherent env (visitStep env s (.finish data pri error)).dedup := hc.step
  rw [errorsKept_iff hc']
  rw [errorsKept_iff hc] at hk
  constructor
  · intro h i hi hid
    obtain ⟨_, _, _, _, hsame⟩ := testCache_hit pri error ⟨i, hi, hid⟩
    rw [← (hsame i).2]
    exact h data error (Function.update_self ..) i hi ((hsame i).1.trans hid)
  · intro h d e hd i hi hid
    rcases eq_or_ne d data with rfl | hne
    · obtain rfl : error = e := by
        have hup : Function.update s.ended d (some error) d = some e := hd
        rw [Function.update_self] at hup
        exact Option.some.inj hup
      by_cases hcached : Cached env s.dedup d
      · obtain ⟨_, _, _, _, hsame⟩ := testCache_hit pri error hcached
        apply (congrArg (· ||| errEof) (hsame i).2).trans
        exact h i hi ((hsame i).1.symm.trans hid)
      · obtain ⟨_, best, hbest, heq⟩ := testCache_miss pri error hcached
        have hentry : ((testCache env s.dedup d pri error).2 i).data = d := hid
        show ((testCache env s.dedup d pri error).2 i).savedError ||| errEof = _
        rw [heq] at hentry ⊢
        rcases eq_or_ne i best with rfl | hib
        · rw [Function.update_self]
        · rw [Function.update_of_ne hib] at hentry
          exact absurd ⟨i, hi, hentry⟩ hcached
    · have hold : s.ended d = some e := by
        have hup : Function.update s.ended data (some error) d = some e := hd
        rwa [Function.update_of_ne hne] at hup
      obtain ⟨hdata, hsaved⟩ := testCache_entry hne hid
      apply (congrArg (· ||| errEof) hsaved).trans
      exact hk d e hold i hi hdata

theorem visitStep_stop {error : BitVec 32} (hc : DedupCoherent env s.dedup) (hk : ErrorsKept env s) :
    ErrorsKept env (visitStep env s (.stop data error)) ↔
      SaveOk env s.dedup (.stop data error) := by
  have hc' : DedupCoherent env (visitStep env s (.stop data error)).dedup := hc
  rw [errorsKept_iff hc']
  rw [errorsKept_iff hc] at hk
  constructor
  · intro h i hi hid
    exact h data error (Function.update_self ..) i hi hid
  · intro h d e hd i hi hid
    have hup : Function.update s.ended data (some error) d = some e := hd
    rcases eq_or_ne d data with rfl | hne
    · rw [Function.update_self] at hup
      obtain rfl := Option.some.inj hup
      exact h i hi hid
    · rw [Function.update_of_ne hne] at hup
      exact hk d e hup i hi hid

theorem visitStep_visit (hc : DedupCoherent env s.dedup) (hk : ErrorsKept env s) :
    ErrorsKept env (visitStep env s (.visit data)) := by
  have hc' : DedupCoherent env (visitStep env s (.visit data)).dedup := hc.step
  rw [errorsKept_iff hc']
  rw [errorsKept_iff hc] at hk
  intro d e hd i hi hid
  by_cases hcached : Cached env s.dedup data
  · obtain ⟨_, _, _, _, hsame⟩ := testCache_hit 1 0 hcached
    have hended : s.ended d = some e := by
      have hne := testCache_ne_zero 1 0 hcached
      unfold visitStep at hd
      simp only [if_neg hne] at hd
      exact hd
    apply (congrArg (· ||| errEof) (hsame i).2).trans
    exact hk d e hended i hi ((hsame i).1.symm.trans hid)
  · obtain ⟨hz, _⟩ := testCache_miss 1 0 hcached
    unfold visitStep at hd
    simp only [if_pos hz] at hd
    rcases eq_or_ne d data with rfl | hne
    · rw [Function.update_self] at hd
      cases hd
    · rw [Function.update_of_ne hne] at hd
      obtain ⟨hdata, hsaved⟩ := testCache_entry hne hid
      apply (congrArg (· ||| errEof) hsaved).trans
      exact hk d e hd i hi hdata

theorem visitStep_kept (hc : DedupCoherent env s.dedup) (hk : ErrorsKept env s) :
    ErrorsKept env (visitStep env s ev) ↔ SaveOk env s.dedup ev := by
  cases ev with
  | visit d => exact iff_of_true (visitStep_visit hc hk) trivial
  | finish d pri e => exact visitStep_finish hc hk
  | stop d e => exact visitStep_stop hc hk

theorem visitStart_coherent : DedupCoherent env visitStart.dedup := fun _ _ _ _ _ _ _ => rfl

theorem visitStart_kept : ErrorsKept env visitStart := by
  intro d e hd
  cases hd

theorem visitRun_concat (s : VisitState) (events : List TestEvent) :
    visitRun env s (events ++ [ev]) = visitStep env (visitRun env s events) ev := by
  unfold visitRun
  rw [List.foldl_append]
  rfl

theorem visitRun_append (s : VisitState) (events events' : List TestEvent) :
    visitRun env s (events ++ events') = visitRun env (visitRun env s events) events' :=
  List.foldl_append

theorem visitRun_coherent (events : List TestEvent) :
    DedupCoherent env (visitRun env visitStart events).dedup := by
  induction events using List.reverseRecOn with
  | nil => exact visitStart_coherent
  | append_singleton events ev ih =>
    rw [visitRun_concat]
    exact ih.step

/-- Along a run the errors of ended scans are kept exactly if every scan ends with its block
displaced from the cache or with the error recorded. -/
theorem visitRun_kept (events : List TestEvent) :
    (∀ past, past <+: events → ErrorsKept env (visitRun env visitStart past)) ↔
      ∀ past ev, past ++ [ev] <+: events → SaveOk env (visitRun env visitStart past).dedup ev := by
  constructor
  · intro h past ev hpre
    have hpast : past <+: events := (List.prefix_append past [ev]).trans hpre
    have hnext := h _ hpre
    rw [visitRun_concat] at hnext
    exact (visitStep_kept (visitRun_coherent past) (h past hpast)).mp hnext
  · intro h past
    induction past using List.reverseRecOn with
    | nil => exact fun _ => visitStart_kept
    | append_singleton past ev ih =>
      intro hpre
      rw [visitRun_concat]
      have hpast : past <+: events := (List.prefix_append past [ev]).trans hpre
      exact (visitStep_kept (visitRun_coherent past) (ih hpast)).mpr (h past ev hpre)

end

/-- The events of a scan of a block below the current one. -/
def childEvents (env : ScanEnv) (graph : BlockGraph) (events : Extent → BulkInfo → List TestEvent)
    (info : BulkInfo) (data : Extent) : List TestEvent :=
  let deep := { info with depth := info.depth + 1 }
  if env.known deep.calls = true ∧ graph.error data &&& errCheck ≠ 0 then []
  else if MustDefer env deep then []
  else events data { deep with pri := 0 }

def stepEvents (env : ScanEnv) (graph : BlockGraph) (events : Extent → BulkInfo → List TestEvent)
    (parent : Extent) (bref : Blockref) (st : LoopState) : List TestEvent :=
  if Fatal (st.error ||| graph.error parent) then []
  else if bref.data.off = 0 then []
  else
    match bulkfreeTest env { st.info with pri := st.info.pri + 1 } bref.data 1 0 with
    | (e2, info) =>
      if e2 ≠ 0 then [.visit bref.data]
      else
        match scanCallback env info bref with
        | none => [.visit bref.data]
        | some (e, info) =>
          if Fatal (st.error ||| graph.error parent ||| e) ∨ bref.type.recurses = false then
            [.visit bref.data]
          else .visit bref.data :: childEvents env graph events info bref.data

def loopEvents (env : ScanEnv) (graph : BlockGraph)
    (scan : Extent → BulkInfo → Option (BitVec 32 × BulkInfo))
    (events : Extent → BulkInfo → List TestEvent) (parent : Extent) :
    List Blockref → LoopState → List TestEvent
  | [], _ => []
  | bref :: rest, st =>
    stepEvents env graph events parent bref st ++
      match scanStep env graph scan parent bref st with
      | some (false, st) => loopEvents env graph scan events parent rest st
      | _ => []

def replayEvents (scan : Extent → BulkInfo → Option (BitVec 32 × BulkInfo))
    (events : Extent → BulkInfo → List TestEvent) (tail : Option Nat) :
    Nat → LoopState → List TestEvent
  | 0, _ => []
  | fuel + 1, st =>
    if st.info.list.head?.map Prod.fst = tail then []
    else
      match st.info.list with
      | [] => []
      | save :: rest =>
        let info := { st.info with
          list := rest, backout := none, listCount := st.info.listCount - 1, pri := 0 }
        events save.2 info ++
          match scan save.2 info with
          | some (e, next) => replayEvents scan events tail fuel
              { st with rup := st.rup ||| e, info := { next with pri := st.info.pri } }
          | none => []

/-- What `hammer2_bulkfree_scan` does to the cache, in order. -/
def scanEvents (env : ScanEnv) (graph : BlockGraph) : Nat → Extent → BulkInfo → List TestEvent
  | 0, _, _ => []
  | fuel + 1, parent, info =>
    let scan := hammer2BulkfreeScan env graph fuel
    let events := scanEvents env graph fuel
    let tail := info.list.head?.map Prod.fst
    let start : LoopState := ⟨0, 0, { info with pri := info.pri + 1 }⟩
    if graph.error parent &&& errCheck ≠ 0 then [.stop parent (graph.error parent &&& ~~~errEof)]
    else
      loopEvents env graph scan events parent (graph.scan parent) start ++
        match scanLoop env graph scan parent (graph.scan parent) start with
        | none => []
        | some st =>
          (if graph.pfsroot parent = true then replayEvents scan events tail (fuel + 1) st
            else []) ++
          match (if graph.pfsroot parent = true then replayPfs scan tail (fuel + 1) st
            else some st) with
          | none => []
          | some st =>
            [.finish parent (st.info.pri + 1) ((st.error ||| st.rup) &&& ~~~errEof)]

def passEvents (env : ScanEnv) (graph : BlockGraph) (fuel : Nat) :
    Nat → BitVec 32 → BulkInfo → List TestEvent
  | 0, _, _ => []
  | n + 1, error, info =>
    match info.list with
    | [] => []
    | save :: rest =>
      if Fatal error then []
      else
        let info := { info with
          list := rest, backout := none, listCount := info.listCount - 1, pri := 0 }
        scanEvents env graph fuel save.2 info ++
          match hammer2BulkfreeScan env graph fuel save.2 info with
          | some (e, next) => passEvents env graph fuel n (error ||| e) next
          | none => []

/-- What the scan of a window does to the cache, in order. -/
def windowEvents (env : ScanEnv) (graph : BlockGraph) (fuel : Nat) (error : BitVec 32)
    (info : BulkInfo) : List TestEvent :=
  let info := { info with pri := 0 }
  scanEvents env graph fuel volumeData info ++
    match hammer2BulkfreeScan env graph fuel volumeData info with
    | some (e, next) => passEvents env graph fuel fuel (error ||| e) next
    | none => []

section

variable {env : ScanEnv} {graph : BlockGraph} {info info' : BulkInfo} {data : Extent}
  {scan : Extent → BulkInfo → Option (BitVec 32 × BulkInfo)}
  {events : Extent → BulkInfo → List TestEvent} {st st' : LoopState}

/-- The events of a scan account for its effect on the cache. -/
def EventsOf (env : ScanEnv) (scan : Extent → BulkInfo → Option (BitVec 32 × BulkInfo))
    (events : Extent → BulkInfo → List TestEvent) : Prop :=
  ∀ {x info e info'}, scan x info = some (e, info') →
    ∀ ended, (visitRun env ⟨info.dedup, ended⟩ (events x info)).dedup = info'.dedup

/-- The cache after a run depends on the cache before it only. -/
theorem visitRun_dedup {s s' : VisitState} (h : s.dedup = s'.dedup) (evs : List TestEvent) :
    (visitRun env s evs).dedup = (visitRun env s' evs).dedup := by
  induction evs generalizing s s' with
  | nil => exact h
  | cons ev evs ih =>
    apply ih
    cases ev with
    | visit d =>
      show (testCache env s.dedup d 1 0).2 = (testCache env s'.dedup d 1 0).2
      rw [h]
    | finish d pri e =>
      show (testCache env s.dedup d pri e).2 = (testCache env s'.dedup d pri e).2
      rw [h]
    | stop d e => exact h

theorem childEvents_spec (hev : EventsOf env scan events) {e : BitVec 32}
    (h : scanChild env graph scan info data = some (e, info')) (ended : Extent → Option (BitVec 32)) :
    (visitRun env ⟨info.dedup, ended⟩ (childEvents env graph events info data)).dedup =
      info'.dedup := by
  unfold scanChild at h
  unfold childEvents
  simp only at h ⊢
  split at h
  next hknown =>
    cases h
    rw [if_pos hknown]
    rfl
  next hknown =>
    rw [if_neg hknown]
    split at h
    next hdefer =>
      cases h
      rw [if_pos hdefer]
      rfl
    next hdefer =>
      rw [if_neg hdefer]
      obtain ⟨⟨e', next⟩, hscan, h⟩ := Option.map_eq_some_iff.mp h
      cases h
      exact hev hscan ended

theorem stepEvents_spec (hev : EventsOf env scan events) {parent : Extent} {bref : Blockref}
    {stop : Bool} (h : scanStep env graph scan parent bref st = some (stop, st'))
    (ended : Extent → Option (BitVec 32)) :
    (visitRun env ⟨st.info.dedup, ended⟩ (stepEvents env graph events parent bref st)).dedup =
      st'.info.dedup := by
  unfold scanStep at h
  unfold stepEvents
  simp only at h ⊢
  split at h
  next hfatal =>
    cases h
    rw [if_pos hfatal]
    rfl
  next hfatal =>
    rw [if_neg hfatal]
    split at h
    next hoff =>
      cases h
      rw [if_pos hoff]
      rfl
    next hoff =>
      rw [if_neg hoff]
      rw [bulkfreeTest_eq] at h ⊢
      simp only at h ⊢
      split at h
      next hhit =>
        cases h
        rw [if_pos hhit]
        rfl
      next hhit =>
        rw [if_neg hhit]
        obtain ⟨⟨e, info1⟩, hcall, h⟩ := Option.bind_eq_some_iff.mp h
        rw [hcall]
        simp only at h ⊢
        have hsame : info1.dedup = (testCache env st.info.dedup bref.data 1 0).2 := by
          unfold scanCallback at hcall
          split at hcall
          next => cases hcall; rfl
          next =>
            split at hcall
            next => cases hcall; rfl
            next => cases hcall
        split at h
        next hstop =>
          cases h
          rw [if_pos (Or.inl hstop)]
          exact hsame.symm
        next hstop =>
          split at h
          next hleaf =>
            cases h
            rw [if_pos (Or.inr hleaf)]
            exact hsame.symm
          next hleaf =>
            rw [if_neg (not_or.mpr ⟨hstop, hleaf⟩)]
            obtain ⟨⟨e', info2⟩, hchild, h⟩ := Option.map_eq_some_iff.mp h
            cases h
            have hrest := childEvents_spec hev hchild
              (visitStep env ⟨st.info.dedup, ended⟩ (.visit bref.data)).ended
            rw [hsame] at hrest
            exact hrest

theorem loopEvents_spec (hev : EventsOf env scan events) {parent : Extent}
    {brefs : List Blockref} (h : scanLoop env graph scan parent brefs st = some st')
    (ended : Extent → Option (BitVec 32)) :
    (visitRun env ⟨st.info.dedup, ended⟩ (loopEvents env graph scan events parent brefs st)).dedup =
      st'.info.dedup := by
  induction brefs generalizing st ended with
  | nil =>
    cases h
    rfl
  | cons bref rest ih =>
    unfold scanLoop at h
    unfold loopEvents
    rw [visitRun_append]
    split at h
    next => cases h
    next hstep =>
      cases h
      rw [hstep]
      exact stepEvents_spec hev hstep ended
    next st1 hstep =>
      rw [hstep]
      have h1 := stepEvents_spec hev hstep ended
      rw [← ih h (visitRun env ⟨st.info.dedup, ended⟩
        (stepEvents env graph events parent bref st)).ended]
      exact visitRun_dedup h1 _

theorem replayEvents_spec (hev : EventsOf env scan events) {tail : Option Nat} {fuel : Nat}
    (h : replayPfs scan tail fuel st = some st') (ended : Extent → Option (BitVec 32)) :
    (visitRun env ⟨st.info.dedup, ended⟩ (replayEvents scan events tail fuel st)).dedup =
      st'.info.dedup := by
  induction fuel generalizing st ended with
  | zero => cases h
  | succ fuel ih =>
    unfold replayPfs at h
    unfold replayEvents
    split at h
    next hhead =>
      cases h
      rw [if_pos hhead]
      rfl
    next hhead =>
      rw [if_neg hhead]
      cases hlist : st.info.list with
      | nil =>
        rw [hlist] at h
        cases h
      | cons save rest =>
        rw [hlist] at h
        obtain ⟨⟨e, next⟩, hscan, h⟩ := Option.bind_eq_some_iff.mp h
        simp only
        rw [hscan, visitRun_append]
        have h1 := hev hscan ended
        rw [← ih h (fun _ => none)]
        exact visitRun_dedup h1 _

theorem scanEvents_spec (fuel : Nat) :
    EventsOf env (hammer2BulkfreeScan env graph fuel) (scanEvents env graph fuel) := by
  induction fuel with
  | zero =>
    intro x info e info' h
    cases h
  | succ fuel ih =>
    intro x info e info' h ended
    unfold hammer2BulkfreeScan at h
    unfold scanEvents
    simp only at h ⊢
    split at h
    next hcheck =>
      cases h
      rw [if_pos hcheck]
      rfl
    next hcheck =>
      rw [if_neg hcheck]
      obtain ⟨st, hloop, h⟩ := Option.bind_eq_some_iff.mp h
      obtain ⟨st', hpfs, h⟩ := Option.map_eq_some_iff.mp h
      have h1 := loopEvents_spec ih hloop ended
      rw [hloop, visitRun_append]
      simp only
      rw [visitRun_append, hpfs]
      have h2 : ∀ s : VisitState, s.dedup = st.info.dedup →
          (visitRun env s (if graph.pfsroot x = true then replayEvents
            (hammer2BulkfreeScan env graph fuel) (scanEvents env graph fuel)
            (Option.map Prod.fst info.list.head?) (fuel + 1) st else [])).dedup =
            st'.info.dedup := by
        intro s hs
        split at hpfs
        next hroot =>
          rw [if_pos hroot, ← replayEvents_spec ih hpfs (fun _ => none)]
          exact visitRun_dedup hs _
        next hroot =>
          cases hpfs
          rw [if_neg hroot]
          exact hs
      have h3 := h2 _ h1
      cases h
      rw [bulkfreeTest_eq]
      show (testCache env _ x _ _).2 = (testCache env st'.info.dedup x _ _).2
      rw [h3]

theorem passEvents_spec {fuel n : Nat} {error error' : BitVec 32}
    (h : passReplay env graph fuel n error info = some (error', info'))
    (ended : Extent → Option (BitVec 32)) :
    (visitRun env ⟨info.dedup, ended⟩ (passEvents env graph fuel n error info)).dedup =
      info'.dedup := by
  induction n generalizing error info ended with
  | zero => cases h
  | succ n ih =>
    unfold passReplay at h
    unfold passEvents
    cases hlist : info.list with
    | nil =>
      rw [hlist] at h
      cases h
      rfl
    | cons save rest =>
      rw [hlist] at h
      simp only at h ⊢
      split at h
      next hfatal =>
        cases h
        rw [if_pos hfatal]
        rfl
      next hfatal =>
        obtain ⟨⟨e, next⟩, hscan, h⟩ := Option.bind_eq_some_iff.mp h
        rw [if_neg hfatal, hscan, visitRun_append]
        have h1 := scanEvents_spec fuel hscan ended
        rw [← ih h (fun _ => none)]
        exact visitRun_dedup h1 _

/-- The error that the cache returns for a block is passed on by the scan of the parent. -/
theorem scanStep_cached {parent : Extent} {bref : Blockref} {error : BitVec 32}
    (hgo : ¬Fatal (st.error ||| graph.error parent)) (hoff : bref.data.off ≠ 0)
    (hkept : (testCache env st.info.dedup bref.data 1 0).1 = error ||| errEof) :
    ∃ info, scanStep env graph scan parent bref st =
      some (false, ⟨st.error ||| graph.error parent ||| (error &&& ~~~errEof), st.rup, info⟩) := by
  have hne : error ||| errEof ≠ 0 := fun hz =>
    absurd (BitVec.or_eq_zero_iff.mp hz).2 (by decide)
  have hclear : (error ||| errEof) &&& ~~~errEof = error &&& ~~~errEof := by
    have hz : errEof &&& ~~~errEof = 0 := by decide
    rw [BitVec.and_or_distrib_right, hz]
    exact BitVec.or_zero
  unfold scanStep
  simp only
  rw [if_neg hgo, if_neg hoff, bulkfreeTest_eq]
  simp only
  rw [hkept, if_pos hne, hclear]
  exact ⟨_, rfl⟩

end

/-- In the scan of a window every revisit of a cached block gives the error of its scan, and so
passes it on to the parent, exactly if every scan of a block ends with the block displaced from the
cache or with its error recorded there before. -/
theorem bulkfreeWindow_errorsKept {env : ScanEnv} {graph : BlockGraph}
    {fuel sbase sstop depth : Nat} {error error' : BitVec 32} {info' : BulkInfo}
    (h : bulkfreeWindow env graph fuel error (windowInfo env.hmp sbase sstop depth) =
      some (error', info')) :
    let events := windowEvents env graph fuel error (windowInfo env.hmp sbase sstop depth)
    (visitRun env visitStart events).dedup = info'.dedup ∧
      ((∀ past, past <+: events → ErrorsKept env (visitRun env visitStart past)) ↔
        ∀ past ev, past ++ [ev] <+: events →
          SaveOk env (visitRun env visitStart past).dedup ev) := by
  intro events
  refine ⟨?_, visitRun_kept events⟩
  obtain ⟨⟨e, info1⟩, hscan, h⟩ := Option.bind_eq_some_iff.mp h
  obtain ⟨⟨error2, info2⟩, hpass, h⟩ := Option.map_eq_some_iff.mp h
  cases h
  show (visitRun env visitStart (windowEvents env graph fuel error
    (windowInfo env.hmp sbase sstop depth))).dedup = info2.dedup
  have h1 := scanEvents_spec fuel hscan visitStart.ended
  unfold windowEvents
  simp only
  rw [hscan, visitRun_append, ← passEvents_spec hpass (fun _ => none)]
  exact visitRun_dedup h1 _

/-- Two indirect blocks that share a subtree with an unreadable block at its end. -/
def faultyFirst : Blockref := ⟨.indirect, 0, 1, ⟨25165824, 14⟩, 9⟩

def faultySecond : Blockref := ⟨.indirect, 2, 1, ⟨25182208, 14⟩, 9⟩

def faultyShared : Blockref := ⟨.indirect, 0, 10, ⟨25198592, 14⟩, 9⟩

def faultyBlock : Blockref := ⟨.indirect, 0, 10, ⟨25214976, 14⟩, 9⟩

theorem faultyGraph_eof (x : Extent) :
    (if x = faultyBlock.data then errCheck else 0) &&& errEof = 0 := by
  split
  next => decide
  next => exact BitVec.zero_and

def faultyGraph : BlockGraph where
  base := fun x =>
    if x = volumeData then [faultyFirst, faultySecond]
    else if x = faultyFirst.data ∨ x = faultySecond.data then [faultyShared]
    else if x = faultyShared.data then [faultyBlock]
    else []
  pfsroot := fun _ => false
  error := fun x => if x = faultyBlock.data then errCheck else 0
  error_eof := faultyGraph_eof

def plainEnv : ScanEnv where
  hmp := smallDev
  icrc32 := fun x => x.off / 1024
  signal := fun _ => false
  known := fun _ => false
  limitScanDepth := 64
  limitSavedChains := 1024

theorem bulkfreeWindow_errorsKept_faulty : ∃ error info,
    bulkfreeWindow plainEnv faultyGraph 8 0 (windowInfo plainEnv.hmp 0 33554432 0) =
      some (error, info) ∧
    let events := windowEvents plainEnv faultyGraph 8 0 (windowInfo plainEnv.hmp 0 33554432 0)
    (visitRun plainEnv visitStart events).dedup = info.dedup ∧
      ((∀ past, past <+: events → ErrorsKept plainEnv (visitRun plainEnv visitStart past)) ↔
        ∀ past ev, past ++ [ev] <+: events →
          SaveOk plainEnv (visitRun plainEnv visitStart past).dedup ev) := by
  have hrun : (bulkfreeWindow plainEnv faultyGraph 8 0
      (windowInfo plainEnv.hmp 0 33554432 0)).isSome = true := by
    decide
  obtain ⟨r, hr⟩ := Option.isSome_iff_exists.mp hrun
  exact ⟨r.1, r.2, hr, bulkfreeWindow_errorsKept hr⟩

/-- The scan of the first parent reports the check error. The shared block is then in the cache, but
without the error, and the scan of the second parent reports none. -/
theorem bulkfreeWindow_loses_error :
    ((hammer2BulkfreeScan plainEnv faultyGraph 4 faultyFirst.data
        (windowInfo plainEnv.hmp 0 33554432 0)).bind fun first =>
      (hammer2BulkfreeScan plainEnv faultyGraph 4 faultySecond.data first.2).map fun second =>
        (first.1, (bulkfreeTest plainEnv first.2 faultyShared.data 1 0).1, second.1)) =
      some (errCheck, errEof, 0) := by
  decide

end Hammer2
