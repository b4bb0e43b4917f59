import Hammer2.Run
import Mathlib.Tactic

namespace Hammer2

/-- `ccms_state_t` -/
inductive CcmsState where
  | invalid
  | shared
  | exclusive
deriving DecidableEq

/-- The fields of `struct ccms_cst` that make up the lock. Nothing is kept of `spin`: what runs
under it is one step. -/
structure CcmsCst (τ : Type) where
  upgrade : Int
  count : Int
  blocked : Bool
  td : Option τ

/-- `ccms_cst_init` -/
def ccmsCstInit (τ : Type) : CcmsCst τ := ⟨0, 0, false, none⟩

/-- What a call returns; `done` is 0 or nothing. -/
inductive CcmsRet where
  | done
  | ebusy
  | state (state : CcmsState)
deriving DecidableEq

/-- Where a thread is in the code of the lock, between two steps. -/
inductive CcmsPc where
  | out (ret : CcmsRet)
  | lockTest (state : CcmsState)
  | lockOwner (state : CcmsState)
  | lockSpin (state : CcmsState)
  | lockSleep (state : CcmsState)
  | nonblockTest (state : CcmsState)
  | nonblockOwner (state : CcmsState)
  | nonblockSpin (state : CcmsState)
  | releaseTest
  | upgradeTest
  | upgradeSpin
  | upgradeSleep
  | upgradeAwake
  | downgradeTest (ostate : CcmsState)
  | downgradeSpin
  | unlockTest (ret : CcmsRet)
  | unlockExclusive (ret : CcmsRet)
  | unlockShared (ret : CcmsRet)
  | upgradedTest (ostate : CcmsState)
  | upgradedSpin
  | wakeup (ret : CcmsRet)
  | panic
deriving DecidableEq

/-- The locks that the calls of a thread have given it: shared ones, or one that it holds
exclusively `n` times over, which `upgraded` says came from a shared one. -/
inductive CcmsHold where
  | shared (n : Nat)
  | exclusive (n : Nat) (upgraded : Bool)
deriving DecidableEq

/-- The calls of a thread, but for `ccms_thread_lock_setown`. -/
inductive CcmsCall where
  | lock (state : CcmsState)
  | lockNonblock (state : CcmsState)
  | lockTempRelease
  | lockTempRestore (ostate : CcmsState)
  | lockUpgrade
  | lockDowngrade (ostate : CcmsState)
  | unlock
  | unlockUpgraded (ostate : CcmsState)

section Code

variable {τ : Type} [DecidableEq τ]

/-- The first step of a call. -/
def CcmsCall.start : CcmsCall → CcmsPc
  | .lock state => .lockTest state
  | .lockNonblock state => .nonblockTest state
  | .lockTempRelease => .releaseTest
  | .lockTempRestore ostate => .lockTest ostate
  | .lockUpgrade => .upgradeTest
  | .lockDowngrade ostate => .downgradeTest ostate
  | .unlock => .unlockTest .done
  | .unlockUpgraded ostate => .upgradedTest ostate

/-- What a lock of this state has to wait for. -/
def CcmsCst.busy (cst : CcmsCst τ) : CcmsState → Bool
  | .shared => cst.count < 0 ∨ cst.upgrade ≠ 0
  | .exclusive => cst.count ≠ 0 ∨ cst.upgrade ≠ 0
  | .invalid => false

/-- The lock is given to a thread; `none` is a panic. -/
def CcmsCst.grant (cst : CcmsCst τ) (curthread : τ) : CcmsState → Option (CcmsCst τ)
  | .shared => if cst.td = none then some { cst with count := cst.count + 1 } else none
  | .exclusive => some { cst with count := -1, td := some curthread }
  | .invalid => none

def CcmsHold.take (hold : CcmsHold) : CcmsState → CcmsHold
  | .exclusive => .exclusive 1 false
  | _ =>
    match hold with
    | .shared n => .shared (n + 1)
    | .exclusive n upgraded => .exclusive (n + 1) upgraded

def CcmsHold.drop : CcmsHold → CcmsHold
  | .shared n => .shared (n - 1)
  | .exclusive n upgraded => .exclusive (n - 1) upgraded

/-- A thread with the lock, what it holds and where it is. -/
structure CcmsTurn (τ : Type) where
  cst : CcmsCst τ
  hold : CcmsHold
  pc : CcmsPc

def CcmsTurn.goto (turn : CcmsTurn τ) (pc : CcmsPc) : CcmsTurn τ := { turn with pc := pc }

/-- The end of a release: `blocked` asks for a wakeup. -/
def CcmsTurn.release (turn : CcmsTurn τ) (ret : CcmsRet) : CcmsTurn τ :=
  if turn.cst.blocked then { turn with cst.blocked := false, pc := .wakeup ret }
  else { turn with pc := .out ret }

/-- The loop of `ccms_thread_lock_upgrade`. -/
def CcmsTurn.upgradeLoop (turn : CcmsTurn τ) (curthread : τ) : CcmsTurn τ :=
  if turn.cst.count ≠ 0 then { turn with cst.blocked := true, pc := .upgradeSleep }
  else
    { turn with
      cst.count := -1
      cst.td := some curthread
      hold := .exclusive 1 true
      pc := .out (.state .shared) }

/-- The next step of a thread, up to the next access to the lock without the spinlock or to the end
of what it does under the spinlock. A thread that sleeps or is outside has none. -/
def CcmsTurn.step (curthread : τ) (turn : CcmsTurn τ) : Option (CcmsTurn τ) :=
  let cst := turn.cst
  match turn.pc with
  | .out _ | .lockSleep _ | .upgradeSleep | .panic => none
  | .lockTest state =>
    some (turn.goto (if cst.count < 0 then .lockOwner state else .lockSpin state))
  | .lockOwner state =>
    if cst.td = some curthread then
      some ⟨{ cst with count := cst.count - 1 }, turn.hold.take .shared, .out .done⟩
    else some (turn.goto (.lockSpin state))
  | .lockSpin state =>
    if cst.busy state then some { turn with cst.blocked := true, pc := .lockSleep state }
    else
      match cst.grant curthread state with
      | some cst => some ⟨cst, turn.hold.take state, .out .done⟩
      | none => some (turn.goto .panic)
  | .nonblockTest state =>
    some (turn.goto (if cst.count < 0 then .nonblockOwner state else .nonblockSpin state))
  | .nonblockOwner state =>
    if cst.td = some curthread then
      some ⟨{ cst with count := cst.count - 1 }, turn.hold.take .shared, .out .done⟩
    else some (turn.goto (.nonblockSpin state))
  | .nonblockSpin state =>
    if cst.busy state then some (turn.goto (.out .ebusy))
    else
      match cst.grant curthread state with
      | some cst => some ⟨cst, turn.hold.take state, .out .done⟩
      | none => some (turn.goto .panic)
  | .releaseTest =>
    some <| turn.goto <|
      if cst.count < 0 then .unlockTest (.state .exclusive)
      else if 0 < cst.count then .unlockTest (.state .shared)
      else .out (.state .invalid)
  | .upgradeTest =>
    some <| turn.goto <|
      if cst.count < 0 then
        if cst.td = some curthread then .out (.state .exclusive) else .panic
      else if 0 < cst.count then .upgradeSpin
      else .panic
  | .upgradeSpin =>
    some ({ turn with
      cst.upgrade := cst.upgrade + 1
      cst.count := cst.count - 1
      hold := turn.hold.drop }.upgradeLoop curthread)
  | .upgradeAwake => some (turn.upgradeLoop curthread)
  | .downgradeTest ostate =>
    some <| turn.goto <|
      if ostate = .shared then
        if cst.td = some curthread ∧ cst.count = -1 then .downgradeSpin else .panic
      else .out .done
  | .downgradeSpin =>
    some ({ turn with
      cst.upgrade := cst.upgrade - 1
      cst.count := 1
      cst.td := none
      hold := .shared 1 }.release .done)
  | .unlockTest ret =>
    if cst.count < 0 then
      if cst.td ≠ some curthread then some (turn.goto .panic)
      else if cst.count < -1 then
        some ⟨{ cst with count := cst.count + 1 }, turn.hold.drop, .out ret⟩
      else some (turn.goto (.unlockExclusive ret))
    else some (turn.goto (if 0 < cst.count then .unlockShared ret else .panic))
  | .unlockExclusive ret =>
    if cst.count = -1 then
      some ({ turn with cst.count := 0, cst.td := none, hold := .shared 0 }.release ret)
    else some (turn.goto .panic)
  | .unlockShared ret =>
    let turn : CcmsTurn τ := { turn with cst.count := cst.count - 1, hold := turn.hold.drop }
    if turn.cst.count = 0 then some (turn.release ret) else some (turn.goto (.out ret))
  | .upgradedTest ostate =>
    some <| turn.goto <|
      if ostate = .shared then
        if cst.td = some curthread ∧ cst.count = -1 then .upgradedSpin else .panic
      else .unlockTest .done
  | .upgradedSpin =>
    some ({ turn with
      cst.upgrade := cst.upgrade - 1
      cst.count := 0
      cst.td := none
      hold := .shared 0 }.release .done)
  | .wakeup ret => some (turn.goto (.out ret))

/-- `ccms_thread_lock_owned` -/
def CcmsCst.owned (cst : CcmsCst τ) (curthread : τ) : Bool :=
  cst.count < 0 ∧ cst.td = some curthread

end Code

/-- A sleeper goes back to the test of its loop. -/
def CcmsPc.woken : CcmsPc → CcmsPc
  | .lockSleep state => .lockSpin state
  | .upgradeSleep => .upgradeAwake
  | pc => pc

def CcmsPc.asleep : CcmsPc → Bool
  | .lockSleep _ | .upgradeSleep => true
  | _ => false

def CcmsPc.isOut : CcmsPc → Bool
  | .out _ => true
  | _ => false

def CcmsPc.waking : CcmsPc → Bool
  | .wakeup _ => true
  | _ => false

/-- A lock with the threads that use it. `rung` says for which sleepers `wakeup` has been called:
the call does nothing here, and a sleep ends when its time is over. -/
structure CcmsSys (τ : Type) where
  cst : CcmsCst τ
  hold : τ → CcmsHold
  pc : τ → CcmsPc
  rung : τ → Bool

/-- A thread calls, takes its next step, is at the end of a `ssleep`, or calls
`ccms_thread_lock_setown` for a lock that `owner` hands over. -/
inductive CcmsAct (τ : Type) where
  | call (t : τ) (call : CcmsCall)
  | run (t : τ)
  | timeout (t : τ)
  | setown (t owner : τ)

section System

variable {τ : Type} [DecidableEq τ]

def ccmsStart (τ : Type) : CcmsSys τ :=
  ⟨ccmsCstInit τ, fun _ => .shared 0, fun _ => .out .done, fun _ => false⟩

def CcmsSys.setPc (s : CcmsSys τ) (t : τ) (pc : CcmsPc) : CcmsSys τ :=
  { s with pc := Function.update s.pc t pc }

def CcmsSys.put (s : CcmsSys τ) (t : τ) (turn : CcmsTurn τ) : CcmsSys τ :=
  ⟨turn.cst, Function.update s.hold t turn.hold, Function.update s.pc t turn.pc,
    Function.update s.rung t false⟩

/-- `wakeup` -/
def CcmsSys.ring (s : CcmsSys τ) : CcmsSys τ :=
  { s with rung := fun t => (s.pc t).asleep || s.rung t }

def CcmsSys.act (s : CcmsSys τ) : CcmsAct τ → Option (CcmsSys τ)
  | .call t call => if (s.pc t).isOut then some (s.setPc t call.start) else none
  | .run t =>
    let s' := if (s.pc t).waking then s.ring else s
    (CcmsTurn.step t ⟨s.cst, s.hold t, s.pc t⟩).map (s'.put t)
  | .timeout t => if (s.pc t).asleep then some (s.setPc t (s.pc t).woken) else none
  | .setown t owner =>
    if (s.pc t).isOut then
      if s.cst.count < 0 then
        some { s with
          cst.td := some t
          hold := Function.update (Function.update s.hold owner (.shared 0)) t (s.hold owner) }
      else some (s.setPc t .panic)
    else none

end System

/-- What `ccms_thread_unlock` may release: an upgraded lock goes back through
`ccms_thread_lock_downgrade` or `ccms_thread_unlock_upgraded`. -/
def CcmsHold.CanUnlock : CcmsHold → Prop
  | .shared n => 0 < n
  | .exclusive n upgraded => upgraded = true → 1 < n

/-- What the callers keep to: a lock is shared or exclusive, a thread only gives back what it has,
and it gives an upgrade back under the state that the upgrade returned. -/
def CcmsCall.Fair (hold : CcmsHold) : CcmsCall → Prop
  | .lock state | .lockNonblock state | .lockTempRestore state => state ≠ .invalid
  | .lockTempRelease | .unlock => hold.CanUnlock
  | .lockUpgrade => hold ≠ .shared 0
  | .lockDowngrade ostate => ostate = .shared → hold = .exclusive 1 true
  | .unlockUpgraded ostate =>
    if ostate = .shared then hold = .exclusive 1 true else hold.CanUnlock

/-- The same for a step; a lock that is handed over is held exclusively by a thread outside the
code, and the new owner has nothing else of it. -/
def CcmsSys.Fair {τ : Type} (s : CcmsSys τ) : CcmsAct τ → Prop
  | .call t call => call.Fair (s.hold t)
  | .setown t owner => (∃ n upgraded, s.hold owner = .exclusive n upgraded) ∧
      (s.pc owner).isOut = true ∧ (t ≠ owner → s.hold t = .shared 0)
  | _ => True

end Hammer2
