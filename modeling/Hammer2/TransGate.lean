import Hammer2.CountWord
import Hammer2.Run

namespace Hammer2

def transIsflush : BitVec 32 := 0x80000000#32
def transBufcache : BitVec 32 := 0x40000000#32
def transSideq : BitVec 32 := 0x20000000#32
def transWaiting : BitVec 32 := 0x08000000#32
def transRescan : BitVec 32 := 0x04000000#32
def transMask : BitVec 32 := 0x00FFFFFF#32

inductive TransKind where
  | normal
  | bufcache
  | flush
deriving DecidableEq

/-- The flags `hammer2_trans_init` is called with. -/
def TransKind.flags : TransKind → BitVec 32
  | .normal => 0#32
  | .bufcache => transBufcache
  | .flush => transIsflush

/-- The flags `hammer2_trans_done` is called with. Some callers add `TRANS_SIDEQ`. -/
def TransKind.doneFlags (k : TransKind) (sideq : Bool) : BitVec 32 :=
  if sideq then k.flags ||| transSideq else k.flags

/-- One pass of the loop of `hammer2_trans_init`: the new word, and if the caller has to wait. -/
def transInit (flags oflags : BitVec 32) : BitVec 32 × Bool :=
  if flags &&& transIsflush ≠ 0#32 then
    if oflags &&& transIsflush ≠ 0#32 then (oflags ||| transWaiting, true)
    else ((oflags ||| flags) + 1#32, false)
  else if flags &&& transBufcache ≠ 0#32 then ((oflags ||| flags) + 1#32, false)
  else ((oflags ||| flags) + 1#32, false)

/-- One pass of the loop of `hammer2_trans_done`. -/
def transDone (flags oflags : BitVec 32) : BitVec 32 :=
  let nflags := (oflags - 1#32) &&& ~~~flags
  let nflags := if flags &&& transIsflush ≠ 0#32 then nflags &&& ~~~transWaiting else nflags
  if oflags &&& (transIsflush ||| transMask) = transIsflush ||| 2#32 then
    nflags &&& ~~~transWaiting
  else nflags

/-- One pass of the loop of `hammer2_trans_clearflags`. -/
def transClear (flags oflags : BitVec 32) : BitVec 32 := oflags &&& ~~~flags

/-- The calls a thread makes. The sync code also clears `TRANS_RESCAN` and `TRANS_WAITING`. -/
inductive TransCall where
  | init (k : TransKind)
  | done (k : TransKind) (sideq : Bool)
  | clear (waiting : Bool)

/-- Where a thread stands. It has `trans_lock` from `loop` to `leave`. -/
inductive TransPc where
  | idle
  | enter (c : TransCall)
  | loop (c : TransCall)
  | loaded (c : TransCall) (oflags : BitVec 32)
  | toSleep (k : TransKind)
  | asleep (k : TransKind)
  | waking
  | leave

def TransPc.Locked : TransPc → Prop
  | .loop _ | .loaded _ _ | .toSleep _ | .waking | .leave => True
  | _ => False

/-- `trans.flags`, the holder of `trans_lock`, the threads, and the open transactions with the
thread that is to end each. -/
structure Gate where
  word : BitVec 32
  lock : Option Nat
  pc : Nat → TransPc
  opened : List (Nat × TransKind)

def Gate.goto (s : Gate) (t : Nat) (p : TransPc) : Gate :=
  { s with pc := Function.update s.pc t p }

/-- What a successful compare-and-set of `transDone` or `transClear` leads to. -/
def wakeOrLeave (oflags nflags : BitVec 32) : TransPc :=
  if (oflags ^^^ nflags) &&& transWaiting ≠ 0#32 then .waking else .leave

/-- The compare-and-set of thread `t`, when the word is still what it loaded. -/
def gateCas (s : Gate) (t : Nat) : TransCall → Option Gate
  | .init k =>
    match transInit k.flags s.word with
    | (nflags, true) => some { s with word := nflags, pc := Function.update s.pc t (.toSleep k) }
    | (nflags, false) =>
      some { s with word := nflags, pc := Function.update s.pc t .leave, opened := (t, k) :: s.opened }
  | .done k sideq =>
    if s.word &&& transMask = 0#32 then none
    else
      let nflags := transDone (k.doneFlags sideq) s.word
      some { s with word := nflags, pc := Function.update s.pc t (wakeOrLeave s.word nflags)
                    opened := s.opened.erase (t, k) }
  | .clear waiting =>
    let nflags := transClear (if waiting then transWaiting else transRescan) s.word
    some { s with word := nflags, pc := Function.update s.pc t (wakeOrLeave s.word nflags) }

/-- `call` starts a call, `run` is the next step of a thread that is in one. A sleeper may also wake
for no reason, another thread may be left to end a transaction, and `TRANS_RESCAN` is set without
the lock. -/
inductive GateAction where
  | call (t : Nat) (c : TransCall)
  | run (t : Nat)
  | spurious (t : Nat)
  | pass (t u : Nat) (k : TransKind)
  | setRescan

/-- `hammer2_lkc_wakeup` wakes every sleeper. -/
def wakeAll (pc : Nat → TransPc) (t : Nat) : TransPc :=
  match pc t with
  | .asleep k => .enter (.init k)
  | p => p

def gateRun (s : Gate) (t : Nat) : Option Gate :=
  match s.pc t with
  | .idle => none
  | .enter c => if s.lock = none then some { s.goto t (.loop c) with lock := some t } else none
  | .loop c => some (s.goto t (.loaded c s.word))
  | .loaded c oflags => if s.word = oflags then gateCas s t c else some (s.goto t (.loop c))
  | .toSleep k => some { s.goto t (.asleep k) with lock := none }
  | .asleep _ => none
  | .waking => some { s with pc := Function.update (wakeAll s.pc) t .leave }
  | .leave => some { s.goto t .idle with lock := none }

def canCall (s : Gate) (t : Nat) : TransCall → Prop
  | .done k _ => (t, k) ∈ s.opened
  | _ => True

instance (s : Gate) (t : Nat) : (c : TransCall) → Decidable (canCall s t c)
  | .init _ => inferInstanceAs (Decidable True)
  | .done k _ => inferInstanceAs (Decidable ((t, k) ∈ s.opened))
  | .clear _ => inferInstanceAs (Decidable True)

def gateStep (s : Gate) : GateAction → Option Gate
  | .call t c =>
    match s.pc t with
    | .idle => if canCall s t c then some (s.goto t (.enter c)) else none
    | _ => none
  | .run t => gateRun s t
  | .spurious t =>
    match s.pc t with
    | .asleep k => some (s.goto t (.enter (.init k)))
    | _ => none
  | .pass t u k =>
    match s.pc t with
    | .idle => if (t, k) ∈ s.opened then some { s with opened := (u, k) :: s.opened.erase (t, k) }
        else none
    | _ => none
  | .setRescan => some { s with word := s.word ||| transRescan }

def gateInit : Gate where
  word := 0#32
  lock := none
  pc := fun _ => .idle
  opened := []

open CountWord

/-- `TRANS_ISFLUSH` is set. -/
def flushSet (w : BitVec 32) : Bool := w.getLsbD 31

/-- `TRANS_WAITING` is set. -/
def waitSet (w : BitVec 32) : Bool := w.getLsbD 27

theorem transMask_count (w : BitVec 32) : (w &&& transMask).toNat = count 24 w := by
  rw [BitVec.toNat_and]
  exact Nat.and_two_pow_sub_one_eq_mod w.toNat 24

theorem and_twoPow_ne_zero {w : BitVec 32} {i : Nat} (hi : i < 32) :
    w &&& BitVec.twoPow 32 i ≠ 0#32 ↔ w.getLsbD i = true := by
  have hne : BitVec.twoPow 32 i ≠ 0#32 := by
    intro h
    have hb := congrArg (fun x => BitVec.getLsbD x i) h
    simp [hi] at hb
  rw [BitVec.and_twoPow]
  cases w.getLsbD i <;> simp [hne]

theorem isflush_iff {w : BitVec 32} : w &&& transIsflush ≠ 0#32 ↔ flushSet w = true :=
  and_twoPow_ne_zero (i := 31) (by decide)

theorem waiting_iff {w : BitVec 32} : w &&& transWaiting ≠ 0#32 ↔ waitSet w = true :=
  and_twoPow_ne_zero (i := 27) (by decide)

@[simp] theorem flushSet_or (w f : BitVec 32) : flushSet (w ||| f) = (flushSet w || flushSet f) :=
  BitVec.getLsbD_or

@[simp] theorem waitSet_or (w f : BitVec 32) : waitSet (w ||| f) = (waitSet w || waitSet f) :=
  BitVec.getLsbD_or

@[simp] theorem flushSet_and_not (w f : BitVec 32) :
    flushSet (w &&& ~~~f) = (flushSet w && !flushSet f) := by
  unfold flushSet
  rw [BitVec.getLsbD_and, BitVec.getLsbD_not]
  simp

@[simp] theorem waitSet_and_not (w f : BitVec 32) :
    waitSet (w &&& ~~~f) = (waitSet w && !waitSet f) := by
  unfold waitSet
  rw [BitVec.getLsbD_and, BitVec.getLsbD_not]
  simp

theorem flushSet_add_one {w : BitVec 32} (h : count 24 w + 1 < 2 ^ 24) :
    flushSet (w + 1#32) = flushSet w :=
  getLsbD_add_one (by decide) h (by decide)

theorem waitSet_add_one {w : BitVec 32} (h : count 24 w + 1 < 2 ^ 24) :
    waitSet (w + 1#32) = waitSet w :=
  getLsbD_add_one (by decide) h (by decide)

theorem flushSet_sub_one {w : BitVec 32} (h : count 24 w ≠ 0) :
    flushSet (w - 1#32) = flushSet w :=
  getLsbD_sub_one (by decide) h (by decide)

theorem waitSet_sub_one {w : BitVec 32} (h : count 24 w ≠ 0) : waitSet (w - 1#32) = waitSet w :=
  getLsbD_sub_one (by decide) h (by decide)

@[simp] theorem flushSet_waiting : flushSet transWaiting = false := by decide
@[simp] theorem waitSet_waiting : waitSet transWaiting = true := by decide
@[simp] theorem flushSet_rescan : flushSet transRescan = false := by decide
@[simp] theorem waitSet_rescan : waitSet transRescan = false := by decide

@[simp] theorem flushSet_flags (k : TransKind) : flushSet k.flags = decide (k = .flush) := by
  cases k <;> decide

@[simp] theorem waitSet_flags (k : TransKind) : waitSet k.flags = false := by
  cases k <;> decide

@[simp] theorem flushSet_doneFlags (k : TransKind) (sideq : Bool) :
    flushSet (k.doneFlags sideq) = decide (k = .flush) := by
  cases k <;> cases sideq <;> decide

@[simp] theorem waitSet_doneFlags (k : TransKind) (sideq : Bool) :
    waitSet (k.doneFlags sideq) = false := by
  cases k <;> cases sideq <;> decide

theorem count_flags (k : TransKind) : count 24 k.flags = 0 := by
  cases k <;> decide

theorem count_doneFlags (k : TransKind) (sideq : Bool) : count 24 (k.doneFlags sideq) = 0 := by
  cases k <;> cases sideq <;> decide

@[simp] theorem count_and_not_waiting (w : BitVec 32) :
    count 24 (w &&& ~~~transWaiting) = count 24 w :=
  count_and_not (by decide) (by decide)

/-- A flush waits for the one that is open; everything else is counted. -/
theorem transInit_cases (k : TransKind) (w : BitVec 32) :
    (k = .flush ∧ flushSet w = true ∧ transInit k.flags w = (w ||| transWaiting, true)) ∨
      ((k = .flush → flushSet w = false) ∧
        transInit k.flags w = ((w ||| k.flags) + 1#32, false)) := by
  unfold transInit
  by_cases hk : k.flags &&& transIsflush ≠ 0#32
  · rw [if_pos hk]
    have hk' : k = .flush := by simpa [isflush_iff] using hk
    by_cases hw : w &&& transIsflush ≠ 0#32
    · exact Or.inl ⟨hk', isflush_iff.mp hw, if_pos hw⟩
    · refine Or.inr ⟨fun _ => ?_, if_neg hw⟩
      rw [isflush_iff] at hw
      simpa using hw
  · rw [if_neg hk]
    rw [isflush_iff, flushSet_flags, decide_eq_true_eq] at hk
    refine Or.inr ⟨fun h => absurd h hk, ?_⟩
    split <;> rfl

/-- What opening a transaction does to the word. -/
theorem transOpen_spec {k : TransKind} {w : BitVec 32} (h : count 24 w + 1 < 2 ^ 24) :
    count 24 ((w ||| k.flags) + 1#32) = count 24 w + 1 ∧
      flushSet ((w ||| k.flags) + 1#32) = (flushSet w || decide (k = .flush)) ∧
      waitSet ((w ||| k.flags) + 1#32) = waitSet w := by
  have hc := count_or (w := w) (count_flags k)
  have hlt : count 24 (w ||| k.flags) + 1 < 2 ^ 24 := by omega
  refine ⟨?_, ?_, ?_⟩
  · rw [count_add_one (by decide) hlt, hc]
  · simp [flushSet_add_one hlt]
  · simp [waitSet_add_one hlt]

/-- What ending a transaction does to the word. -/
theorem transDone_spec (k : TransKind) (sideq : Bool) {w : BitVec 32} (h : count 24 w ≠ 0) :
    count 24 (transDone (k.doneFlags sideq) w) = count 24 w - 1 ∧
      flushSet (transDone (k.doneFlags sideq) w) = (flushSet w && !decide (k = .flush)) ∧
      (waitSet (transDone (k.doneFlags sideq) w) = true → waitSet w = true ∧ k ≠ .flush) := by
  have hc : count 24 ((w - 1#32) &&& ~~~k.doneFlags sideq) = count 24 w - 1 := by
    rw [count_and_not (by decide) (count_doneFlags k sideq), count_sub_one (by decide) h]
  unfold transDone
  dsimp only
  by_cases hk : k.doneFlags sideq &&& transIsflush ≠ 0#32
  · rw [if_pos hk]
    split <;> simp [hc, flushSet_sub_one h]
  · rw [if_neg hk]
    rw [isflush_iff, flushSet_doneFlags, decide_eq_true_eq] at hk
    split
    · simp [hc, flushSet_sub_one h]
    · simp [hc, flushSet_sub_one h, waitSet_sub_one h, hk]

theorem transClear_spec (waiting : Bool) (w : BitVec 32) :
    count 24 (transClear (if waiting then transWaiting else transRescan) w) = count 24 w ∧
      flushSet (transClear (if waiting then transWaiting else transRescan) w) = flushSet w ∧
      (waitSet (transClear (if waiting then transWaiting else transRescan) w) = true →
        waitSet w = true) := by
  have hc : count 24 (w &&& ~~~transRescan) = count 24 w := count_and_not (by decide) (by decide)
  unfold transClear
  cases waiting <;> simp [hc]

/-- The waiters are woken when `TRANS_WAITING` goes away. -/
theorem wakeOrLeave_eq {o n : BitVec 32} (h : waitSet n = true → waitSet o = true) :
    wakeOrLeave o n = if waitSet o = true ∧ waitSet n = false then .waking else .leave := by
  have hx : waitSet (o ^^^ n) = (waitSet o ^^ waitSet n) := BitVec.getLsbD_xor
  unfold wakeOrLeave
  refine if_congr ?_ rfl rfl
  rw [waiting_iff, hx]
  cases ho : waitSet o <;> cases hn : waitSet n <;> simp_all

/-- The thread is ending a transaction of kind `k`. -/
def TransPc.Closing (k : TransKind) : TransPc → Prop
  | .enter (.done k' _) | .loop (.done k' _) | .loaded (.done k' _) _ => k' = k
  | _ => False

def TransPc.Asleep : TransPc → Prop
  | .asleep _ => True
  | _ => False

def TransPc.Dozing : TransPc → Prop
  | .toSleep _ => True
  | _ => False

/-- How many flush transactions are open. -/
def flushes (opened : List (Nat × TransKind)) : Nat := opened.countP (·.2 = .flush)

/-- The word agrees with the open transactions, and who sleeps will be woken. -/
structure GateInv (s : Gate) : Prop where
  count : count 24 s.word = s.opened.length
  flush : flushes s.opened = (flushSet s.word).toNat
  locked : ∀ t, (s.pc t).Locked → s.lock = some t
  closing : ∀ t k, (s.pc t).Closing k → (t, k) ∈ s.opened
  dozing : ∀ t, (s.pc t).Dozing → flushSet s.word = true ∧ waitSet s.word = true
  asleep : ∀ t, (s.pc t).Asleep →
    (flushSet s.word = true ∧ waitSet s.word = true) ∨ ∃ u, s.pc u = .waking

theorem gateInit_inv : GateInv gateInit := by
  refine ⟨rfl, rfl, ?_, ?_, ?_, ?_⟩
  · intro t h
    cases h
  · intro t k h
    cases h
  · intro t h
    cases h
  · intro t h
    cases h

/-- A thread moves on and neither the word nor the open transactions change. -/
theorem GateInv.move {s : Gate} (hi : GateInv s) {t : Nat} {p : TransPc} {l : Option Nat}
    (hother : ∀ u, u ≠ t → (s.pc u).Locked → l = some u) (hlock : p.Locked → l = some t)
    (hclose : ∀ k, p.Closing k → (t, k) ∈ s.opened)
    (hdoze : p.Dozing ∨ p.Asleep → flushSet s.word = true ∧ waitSet s.word = true)
    (hwake : s.pc t ≠ .waking) :
    GateInv { s with pc := Function.update s.pc t p, lock := l } := by
  refine ⟨hi.count, hi.flush, ?_, ?_, ?_, ?_⟩
  · intro u hu
    by_cases hut : u = t
    · subst u
      simp only [Function.update_self] at hu
      exact hlock hu
    · simp only [Function.update_of_ne hut] at hu
      exact hother u hut hu
  · intro u k hu
    by_cases hut : u = t
    · subst u
      simp only [Function.update_self] at hu
      exact hclose k hu
    · simp only [Function.update_of_ne hut] at hu
      exact hi.closing u k hu
  · intro u hu
    by_cases hut : u = t
    · subst u
      simp only [Function.update_self] at hu
      exact hdoze (Or.inl hu)
    · simp only [Function.update_of_ne hut] at hu
      exact hi.dozing u hu
  · intro u hu
    by_cases hut : u = t
    · subst u
      simp only [Function.update_self] at hu
      exact Or.inl (hdoze (Or.inr hu))
    · simp only [Function.update_of_ne hut] at hu
      rcases hi.asleep u hu with h | ⟨v, hv⟩
      · exact Or.inl h
      · have hvt : v ≠ t := by
          rintro rfl
          exact hwake hv
        refine Or.inr ⟨v, ?_⟩
        simp only [Function.update_of_ne hvt]
        exact hv

/-- Only one thread has the lock. -/
theorem GateInv.not_locked {s : Gate} (hi : GateInv s) {t u : Nat} (ht : (s.pc t).Locked)
    (hut : u ≠ t) : ¬ (s.pc u).Locked := by
  intro hu
  have h := hi.locked t ht
  rw [hi.locked u hu] at h
  exact hut (Option.some.inj h)

theorem TransPc.Dozing.locked {p : TransPc} (h : p.Dozing) : p.Locked := by
  cases p <;> first | exact h | trivial

/-- The thread that has the lock changes the word. -/
theorem GateInv.cas {s : Gate} (hi : GateInv s) {t : Nat} {n : BitVec 32} {p : TransPc}
    {os : List (Nat × TransKind)} (ht : (s.pc t).Locked) (hw : s.pc t ≠ .waking)
    (hcount : CountWord.count 24 n = os.length) (hflush : flushes os = (flushSet n).toNat)
    (hos : ∀ u k, u ≠ t → (u, k) ∈ s.opened → (u, k) ∈ os)
    (hp : ¬ p.Asleep ∧ ∀ k, ¬ p.Closing k)
    (hdoze : p.Dozing → flushSet n = true ∧ waitSet n = true)
    (hsleep : flushSet s.word = true → waitSet s.word = true →
      (flushSet n = true ∧ waitSet n = true) ∨ p = .waking) :
    GateInv { s with word := n, pc := Function.update s.pc t p, opened := os } := by
  refine ⟨hcount, hflush, ?_, ?_, ?_, ?_⟩
  · intro u hu
    by_cases hut : u = t
    · subst u
      exact hi.locked t ht
    · simp only [Function.update_of_ne hut] at hu
      exact absurd hu (hi.not_locked ht hut)
  · intro u k hu
    by_cases hut : u = t
    · subst u
      simp only [Function.update_self] at hu
      exact absurd hu (hp.2 k)
    · simp only [Function.update_of_ne hut] at hu
      exact hos u k hut (hi.closing u k hu)
  · intro u hu
    by_cases hut : u = t
    · subst u
      simp only [Function.update_self] at hu
      exact hdoze hu
    · simp only [Function.update_of_ne hut] at hu
      exact absurd hu.locked (hi.not_locked ht hut)
  · intro u hu
    by_cases hut : u = t
    · subst u
      simp only [Function.update_self] at hu
      exact absurd hu hp.1
    · simp only [Function.update_of_ne hut] at hu
      rcases hi.asleep u hu with ⟨h1, h2⟩ | ⟨v, hv⟩
      · rcases hsleep h1 h2 with h | h
        · exact Or.inl h
        · refine Or.inr ⟨t, ?_⟩
          simp only [Function.update_self]
          exact h
      · have hvt : v ≠ t := by
          rintro rfl
          exact hw hv
        exact absurd (by rw [hv]; trivial) (hi.not_locked ht hvt)

theorem flushes_cons (t : Nat) (k : TransKind) (os : List (Nat × TransKind)) :
    flushes ((t, k) :: os) = flushes os + (decide (k = .flush)).toNat := by
  unfold flushes
  rw [List.countP_cons]
  cases k <;> simp

theorem flushes_erase {t : Nat} {k : TransKind} {os : List (Nat × TransKind)} (h : (t, k) ∈ os) :
    flushes os = flushes (os.erase (t, k)) + (decide (k = .flush)).toNat := by
  rw [← flushes_cons]
  exact (List.perm_cons_erase h).countP_eq _

theorem length_erase {t : Nat} {k : TransKind} {os : List (Nat × TransKind)} (h : (t, k) ∈ os) :
    os.length = (os.erase (t, k)).length + 1 :=
  (List.perm_cons_erase h).length_eq

theorem GateInv.casInit {s s' : Gate} (hi : GateInv s) {t : Nat} {k : TransKind}
    (ht : (s.pc t).Locked) (hw : s.pc t ≠ .waking) (h : gateCas s t (.init k) = some s')
    (hb : s'.opened.length < 2 ^ 24) : GateInv s' := by
  simp only [gateCas] at h
  rcases transInit_cases k s.word with ⟨rfl, hf, he⟩ | ⟨hf, he⟩
  · simp only [he] at h
    cases Option.some.inj h
    refine hi.cas ht hw ?_ ?_ (fun u k _ hu => hu) ⟨fun h => h, fun _ h => h⟩ ?_ ?_
    · rw [count_or (by decide)]
      exact hi.count
    · rw [hi.flush]
      simp
    · intro _
      simp [hf]
    · intro _ _
      simp [hf]
  · simp only [he] at h
    cases Option.some.inj h
    simp only [List.length_cons] at hb
    have hcount := hi.count
    have hlt : CountWord.count 24 s.word + 1 < 2 ^ 24 := by omega
    obtain ⟨hc, hfl, hwt⟩ := transOpen_spec (k := k) hlt
    refine hi.cas ht hw ?_ ?_ (fun u k _ hu => List.mem_cons_of_mem _ hu)
      ⟨fun h => h, fun _ h => h⟩ (fun h => h.elim) ?_
    · rw [hc, hcount]
      rfl
    · rw [flushes_cons, hi.flush, hfl]
      by_cases hk : k = .flush
      · rw [hf hk]
        simp [hk]
      · simp [hk]
    · intro h1 h2
      rw [hfl, hwt]
      exact Or.inl (by simp [h1, h2])

/-- Whoever sleeps when `TRANS_WAITING` goes away is woken. -/
theorem wakeOrLeave_sleep {o n : BitVec 32} (h : waitSet n = true → waitSet o = true)
    (hf : waitSet n = true → flushSet o = true → flushSet n = true) (h1 : flushSet o = true)
    (h2 : waitSet o = true) :
    (flushSet n = true ∧ waitSet n = true) ∨ wakeOrLeave o n = .waking := by
  rw [wakeOrLeave_eq h]
  cases hn : waitSet n with
  | true => exact Or.inl ⟨hf hn h1, rfl⟩
  | false => exact Or.inr (by simp [h2])

theorem wakeOrLeave_pc (o n : BitVec 32) :
    (¬ (wakeOrLeave o n).Asleep ∧ ∀ k, ¬ (wakeOrLeave o n).Closing k) ∧
      ¬ (wakeOrLeave o n).Dozing := by
  unfold wakeOrLeave
  split
  · exact ⟨⟨fun h => h, fun _ h => h⟩, fun h => h⟩
  · exact ⟨⟨fun h => h, fun _ h => h⟩, fun h => h⟩

theorem GateInv.casDone {s s' : Gate} (hi : GateInv s) {t : Nat} {k : TransKind} {sideq : Bool}
    (ht : (s.pc t).Locked) (hw : s.pc t ≠ .waking) (hc : (t, k) ∈ s.opened)
    (h : gateCas s t (.done k sideq) = some s') : GateInv s' := by
  simp only [gateCas] at h
  split at h
  next => cases h
  next =>
    cases Option.some.inj h
    have hlen := length_erase hc
    have hflush := flushes_erase hc
    have hcount := hi.count
    have hf := hi.flush
    obtain ⟨hn, hfl, hwt⟩ := transDone_spec k sideq (w := s.word) (by omega)
    refine hi.cas ht hw ?_ ?_ ?_ (wakeOrLeave_pc _ _).1 (fun h => ((wakeOrLeave_pc _ _).2 h).elim) ?_
    · omega
    · rw [hfl]
      by_cases hk : k = .flush
      · simp only [hk, decide_true, Bool.toNat_true] at hflush
        have hle := Bool.toNat_le (flushSet s.word)
        simp only [hk, decide_true, Bool.not_true, Bool.and_false, Bool.toNat_false]
        omega
      · simpa [hk, ← hf] using hflush.symm
    · intro u k' hu hm
      exact (List.mem_erase_of_ne (by simp [hu])).mpr hm
    · refine wakeOrLeave_sleep (fun h => (hwt h).1) ?_
      intro h1 h2
      simp [hfl, h2, (hwt h1).2]

theorem GateInv.casClear {s s' : Gate} (hi : GateInv s) {t : Nat} {waiting : Bool}
    (ht : (s.pc t).Locked) (hw : s.pc t ≠ .waking) (h : gateCas s t (.clear waiting) = some s') :
    GateInv s' := by
  simp only [gateCas] at h
  cases Option.some.inj h
  obtain ⟨hn, hfl, hwt⟩ := transClear_spec waiting s.word
  refine hi.cas ht hw ?_ ?_ (fun _ _ _ hu => hu) (wakeOrLeave_pc _ _).1
    (fun h => ((wakeOrLeave_pc _ _).2 h).elim) ?_
  · rw [hn, hi.count]
  · rw [hfl, hi.flush]
  · exact wakeOrLeave_sleep hwt (fun _ h => hfl.trans h)

/-- Nobody sleeps after a wakeup, and who did not sleep stays where it was. -/
theorem wakeAll_cases (pc : Nat → TransPc) (u : Nat) :
    (∃ k, pc u = .asleep k ∧ wakeAll pc u = .enter (.init k)) ∨
      (¬ (pc u).Asleep ∧ wakeAll pc u = pc u) := by
  unfold wakeAll
  cases hp : pc u with
  | asleep k => exact Or.inl ⟨k, rfl, rfl⟩
  | _ => exact Or.inr ⟨fun h => h, rfl⟩

theorem GateInv.wake {s : Gate} (hi : GateInv s) {t : Nat} (ht : (s.pc t).Locked) :
    GateInv { s with pc := Function.update (wakeAll s.pc) t .leave } := by
  refine ⟨hi.count, hi.flush, ?_, ?_, ?_, ?_⟩
  · intro u hu
    by_cases hut : u = t
    · subst u
      exact hi.locked t ht
    · simp only [Function.update_of_ne hut] at hu
      rcases wakeAll_cases s.pc u with ⟨k, -, he⟩ | ⟨-, he⟩
      · rw [he] at hu
        exact hu.elim
      · rw [he] at hu
        exact hi.locked u hu
  · intro u k hu
    by_cases hut : u = t
    · subst u
      simp only [Function.update_self] at hu
      exact hu.elim
    · simp only [Function.update_of_ne hut] at hu
      rcases wakeAll_cases s.pc u with ⟨k, -, he⟩ | ⟨-, he⟩
      · rw [he] at hu
        exact hu.elim
      · rw [he] at hu
        exact hi.closing u k hu
  · intro u hu
    by_cases hut : u = t
    · subst u
      simp only [Function.update_self] at hu
      exact hu.elim
    · simp only [Function.update_of_ne hut] at hu
      rcases wakeAll_cases s.pc u with ⟨k, -, he⟩ | ⟨-, he⟩
      · rw [he] at hu
        exact hu.elim
      · rw [he] at hu
        exact hi.dozing u hu
  · intro u hu
    by_cases hut : u = t
    · subst u
      simp only [Function.update_self] at hu
      exact hu.elim
    · simp only [Function.update_of_ne hut] at hu
      rcases wakeAll_cases s.pc u with ⟨k, -, he⟩ | ⟨hn, he⟩
      · rw [he] at hu
        exact hu.elim
      · rw [he] at hu
        exact absurd hu hn

/-- The next step of a thread that is in a call. -/
theorem gateRun_inv {s s' : Gate} (hi : GateInv s) {t : Nat} (h : gateRun s t = some s')
    (hb : s'.opened.length < 2 ^ 24) : GateInv s' := by
  unfold gateRun at h
  split at h
  next => cases h
  next c hpc =>
    obtain ⟨hl, ⟨⟩⟩ := Option.ite_none_right_eq_some.mp h
    refine hi.move ?_ (fun _ => rfl) ?_ ?_ (by simp [hpc])
    · intro u _ hu
      rw [hi.locked u hu] at hl
      cases hl
    · intro k hk
      refine hi.closing t k ?_
      rw [hpc]
      cases c <;> exact hk
    · rintro (h | h) <;> exact h.elim
  next c hpc =>
    cases Option.some.inj h
    have hl := hi.locked t (by rw [hpc]; trivial)
    refine hi.move (fun u _ hu => hi.locked u hu) (fun _ => hl) ?_ ?_ (by simp [hpc])
    · intro k hk
      refine hi.closing t k ?_
      rw [hpc]
      cases c <;> exact hk
    · rintro (h | h) <;> exact h.elim
  next c o hpc =>
    have ht : (s.pc t).Locked := by
      rw [hpc]
      trivial
    have hw : s.pc t ≠ .waking := by simp [hpc]
    split at h
    next =>
      cases c with
      | init k => exact hi.casInit ht hw h hb
      | done k sideq => exact hi.casDone ht hw (hi.closing t k (by rw [hpc]; rfl)) h
      | clear waiting => exact hi.casClear ht hw h
    next =>
      cases Option.some.inj h
      refine hi.move (fun u _ hu => hi.locked u hu) (fun _ => hi.locked t ht) ?_ ?_ hw
      · intro k hk
        refine hi.closing t k ?_
        rw [hpc]
        cases c <;> exact hk
      · rintro (h | h) <;> exact h.elim
  next k hpc =>
    cases Option.some.inj h
    have hd := hi.dozing t (by rw [hpc]; trivial)
    have ht : (s.pc t).Locked := by
      rw [hpc]
      trivial
    refine hi.move ?_ (fun h => h.elim) (fun _ h => h.elim) (fun _ => hd) (by simp [hpc])
    intro u hut hu
    exact absurd hu (hi.not_locked ht hut)
  next => cases h
  next hpc =>
    cases Option.some.inj h
    exact hi.wake (by rw [hpc]; trivial)
  next hpc =>
    cases Option.some.inj h
    have ht : (s.pc t).Locked := by
      rw [hpc]
      trivial
    refine hi.move ?_ (fun h => h.elim) (fun _ h => h.elim) ?_ (by simp [hpc])
    · intro u hut hu
      exact absurd hu (hi.not_locked ht hut)
    · rintro (h | h) <;> exact h.elim

theorem gateStep_inv {s s' : Gate} {a : GateAction} (hi : GateInv s)
    (hb : ∀ s', gateStep s a = some s' → s'.opened.length < 2 ^ 24)
    (h : gateStep s a = some s') : GateInv s' := by
  have hlen := hb s' h
  unfold gateStep at h
  cases a with
  | call t c =>
    dsimp only at h
    split at h
    next hpc =>
      obtain ⟨hc, ⟨⟩⟩ := Option.ite_none_right_eq_some.mp h
      refine hi.move (fun u _ hu => hi.locked u hu) (fun h => h.elim) ?_ ?_ (by simp [hpc])
      · intro k hk
        cases c with
        | done k' sideq =>
          cases hk
          exact hc
        | init k' => exact hk.elim
        | clear w => exact hk.elim
      · rintro (h | h) <;> exact h.elim
    next => cases h
  | run t => exact gateRun_inv hi h hlen
  | spurious t =>
    dsimp only at h
    split at h
    next k hpc =>
      cases Option.some.inj h
      refine hi.move (fun u _ hu => hi.locked u hu) (fun h => h.elim) (fun _ h => h.elim) ?_
        (by simp [hpc])
      rintro (h | h) <;> exact h.elim
    next => cases h
  | pass t u k =>
    dsimp only at h
    split at h
    next hpc =>
      obtain ⟨hm, ⟨⟩⟩ := Option.ite_none_right_eq_some.mp h
      refine ⟨?_, ?_, hi.locked, ?_, hi.dozing, hi.asleep⟩
      · rw [hi.count, length_erase hm]
        rfl
      · rw [flushes_cons, ← flushes_erase hm]
        exact hi.flush
      · intro v k' hv
        have hvt : v ≠ t := by
          rintro rfl
          rw [hpc] at hv
          exact hv
        exact List.mem_cons_of_mem _ ((List.mem_erase_of_ne (by simp [hvt])).mpr (hi.closing v k' hv))
    next => cases h
  | setRescan =>
    cases Option.some.inj h
    have hc : CountWord.count 24 (s.word ||| transRescan) = CountWord.count 24 s.word :=
      count_or (by decide)
    refine ⟨?_, ?_, hi.locked, hi.closing, ?_, ?_⟩
    · rw [hc]
      exact hi.count
    · simp [hi.flush]
    · intro t ht
      simpa using hi.dozing t ht
    · intro t ht
      simpa using hi.asleep t ht

/-- Fewer than 2^24 transactions are open after the step. -/
def GateBounded (s : Gate) (a : GateAction) : Prop :=
  ∀ s', gateStep s a = some s' → s'.opened.length < 2 ^ 24

/-- The count is the number of open transactions, `TRANS_ISFLUSH` says that a flush is open, no two
are, and a sleeper waits for an open flush with `TRANS_WAITING` set, or else the thread that has the
lock is at the call that wakes every sleeper. -/
structure GateOk (s : Gate) : Prop where
  count : (s.word &&& transMask).toNat = s.opened.length
  isflush : s.word &&& transIsflush ≠ 0#32 ↔ ∃ t, (t, .flush) ∈ s.opened
  one : flushes s.opened ≤ 1
  woken : ∀ t, (s.pc t).Asleep →
    ((∃ u, (u, .flush) ∈ s.opened) ∧ s.word &&& transWaiting ≠ 0#32) ∨
      ∃ u s', s.lock = some u ∧ gateStep s (.run u) = some s' ∧ ∀ v, ¬ (s'.pc v).Asleep

theorem flushes_pos {os : List (Nat × TransKind)} :
    0 < flushes os ↔ ∃ t, (t, TransKind.flush) ∈ os := by
  unfold flushes
  rw [List.countP_pos_iff]
  constructor
  · rintro ⟨⟨t, k⟩, hm, hk⟩
    obtain rfl := of_decide_eq_true hk
    exact ⟨t, hm⟩
  · rintro ⟨t, hm⟩
    exact ⟨_, hm, decide_eq_true rfl⟩

theorem GateInv.isflush {s : Gate} (hi : GateInv s) :
    flushSet s.word = true ↔ ∃ t, (t, .flush) ∈ s.opened := by
  rw [← flushes_pos, hi.flush]
  cases flushSet s.word <;> decide

theorem GateInv.ok {s : Gate} (hi : GateInv s) : GateOk s := by
  refine ⟨(transMask_count s.word).trans hi.count, isflush_iff.trans hi.isflush, ?_, ?_⟩
  · rw [hi.flush]
    exact Bool.toNat_le _
  · intro t ht
    rcases hi.asleep t ht with ⟨hf, hw⟩ | ⟨u, hu⟩
    · exact Or.inl ⟨hi.isflush.mp hf, waiting_iff.mpr hw⟩
    · refine Or.inr ⟨u, { s with pc := Function.update (wakeAll s.pc) u .leave },
        hi.locked u (by rw [hu]; trivial), ?_, ?_⟩
      · simp only [gateStep, gateRun, hu]
      · intro v hv
        by_cases hvu : v = u
        · subst v
          simp only [Function.update_self] at hv
          exact hv
        · simp only [Function.update_of_ne hvu] at hv
          rcases wakeAll_cases s.pc v with ⟨k, -, he⟩ | ⟨hn, he⟩
          · rw [he] at hv
            exact hv
          · rw [he] at hv
            exact hn hv

/-- In every run that never has 2^24 transactions open at a time the gate is consistent. -/
theorem trans_gate_ok {s : Gate} (h : Run.Reach gateStep GateBounded gateInit s) : GateOk s :=
  (h.invariant gateInit_inv gateStep_inv).ok

theorem next_bounded {s s' : Gate} {a : GateAction}
    (h : Run.Reach gateStep GateBounded gateInit s) (hs : gateStep s a = some s')
    (hl : s'.opened.length < 2 ^ 24) : Run.Reach gateStep GateBounded gateInit s' := by
  refine h.next ?_ hs
  intro s'' h'
  rw [hs] at h'
  cases Option.some.inj h'
  exact hl

/-- Thread 0 opens a flush, and thread 1 goes to sleep because it wants one too. -/
def flushTrace : List GateAction :=
  [.call 0 (.init .flush), .run 0, .run 0, .run 0, .run 0,
    .call 1 (.init .flush), .run 1, .run 1, .run 1, .run 1]

theorem trans_gate_ok_flush :
    ∃ s, Run.exec gateStep gateInit flushTrace = some s ∧ (s.pc 1).Asleep ∧ GateOk s := by
  refine ⟨_, rfl, trivial, trans_gate_ok ?_⟩
  have h1 := next_bounded .start (a := .call 0 (.init .flush)) rfl (by decide)
  have h2 := next_bounded h1 (a := .run 0) rfl (by decide)
  have h3 := next_bounded h2 (a := .run 0) rfl (by decide)
  have h4 := next_bounded h3 (a := .run 0) rfl (by decide)
  have h5 := next_bounded h4 (a := .run 0) rfl (by decide)
  have h6 := next_bounded h5 (a := .call 1 (.init .flush)) rfl (by decide)
  have h7 := next_bounded h6 (a := .run 1) rfl (by decide)
  have h8 := next_bounded h7 (a := .run 1) rfl (by decide)
  have h9 := next_bounded h8 (a := .run 1) rfl (by decide)
  exact next_bounded h9 (a := .run 1) rfl (by decide)

/-- The gate with every thread idle. -/
def restingGate (w : BitVec 32) (os : List (Nat × TransKind)) : Gate where
  word := w
  lock := none
  pc := fun _ => .idle
  opened := os

/-- Thread `t` opens a normal transaction while every other thread is idle. -/
theorem reach_openOne {w : BitVec 32} {os : List (Nat × TransKind)}
    (h : Run.Reach gateStep (fun _ _ => True) gateInit (restingGate w os)) (t : Nat) :
    Run.Reach gateStep (fun _ _ => True) gateInit (restingGate (w + 1#32) ((t, .normal) :: os)) := by
  let at_ (p : TransPc) : Nat → TransPc := Function.update (fun _ => .idle) t p
  have hs {p : TransPc} : at_ p t = p := Function.update_self ..
  have hu {p q : TransPc} : Function.update (at_ p) t q = at_ q := Function.update_idem ..
  have h1 : gateStep (restingGate w os) (.call t (.init .normal)) =
      some ⟨w, none, at_ (.enter (.init .normal)), os⟩ := rfl
  have h2 : gateStep ⟨w, none, at_ (.enter (.init .normal)), os⟩ (.run t) =
      some ⟨w, some t, at_ (.loop (.init .normal)), os⟩ := by
    simp [gateStep, gateRun, Gate.goto, hs, hu]
  have h3 : gateStep ⟨w, some t, at_ (.loop (.init .normal)), os⟩ (.run t) =
      some ⟨w, some t, at_ (.loaded (.init .normal) w), os⟩ := by
    simp [gateStep, gateRun, Gate.goto, hs, hu]
  have h4 : gateStep ⟨w, some t, at_ (.loaded (.init .normal) w), os⟩ (.run t) =
      some ⟨w + 1#32, some t, at_ .leave, (t, .normal) :: os⟩ := by
    simp [gateStep, gateRun, gateCas, transInit, TransKind.flags, hs, hu]
  have h5 : gateStep ⟨w + 1#32, some t, at_ .leave, (t, .normal) :: os⟩ (.run t) =
      some (restingGate (w + 1#32) ((t, .normal) :: os)) := by
    have hidle : at_ .idle = fun _ => .idle := Function.update_eq_self t _
    simp [gateStep, gateRun, Gate.goto, restingGate, hs, hu, hidle]
  exact ((((h.next trivial h1).next trivial h2).next trivial h3).next trivial h4).next trivial h5

theorem reach_open (n : Nat) :
    ∃ os : List (Nat × TransKind), os.length = n ∧
      Run.Reach gateStep (fun _ _ => True) gateInit (restingGate (BitVec.ofNat 32 n) os) := by
  induction n with
  | zero => exact ⟨[], rfl, .start⟩
  | succ n ih =>
    obtain ⟨os, hl, hr⟩ := ih
    refine ⟨(n, .normal) :: os, by simp [hl], ?_⟩
    rw [BitVec.ofNat_add]
    exact reach_openOne hr n

/-- With 2^24 transactions open the count has run over into the flags. -/
theorem trans_count_runs_over :
    ¬ ∀ s, Run.Reach gateStep (fun _ _ => True) gateInit s →
      (s.word &&& transMask).toNat = s.opened.length := by
  intro h
  obtain ⟨os, hl, hr⟩ := reach_open (2 ^ 24)
  have hc := h _ hr
  rw [transMask_count] at hc
  have h0 : count 24 (BitVec.ofNat 32 (2 ^ 24)) = 0 := by decide
  rw [restingGate, h0, hl] at hc
  revert hc
  decide

end Hammer2
