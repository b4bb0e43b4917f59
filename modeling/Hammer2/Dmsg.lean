import Hammer2.Run
import Mathlib.Logic.Function.Basic
import Mathlib.Tactic

namespace Hammer2

/-- The flags of a message's `cmd` word that the state machine reads. -/
structure DmsgCmd where
  create : Bool
  delete : Bool
  reply : Bool
  abort : Bool
  revtrans : Bool
  revcirc : Bool
deriving DecidableEq

def DmsgCmd.zero : DmsgCmd := ⟨false, false, false, false, false, false⟩

/-- `struct kdmsg_state`, without `parent` and `subq`, which `DmsgHeap.links` has for all states. -/
structure DmsgState where
  refs : Nat
  txcmd : DmsgCmd
  rxcmd : DmsgCmd
  msgid : Nat
  aborting : Bool
  opposite : Bool
  dying : Bool
  interlock : Bool
  rbinserted : Bool
  isNew : Bool
deriving DecidableEq

/-- A state as `hmalloc` and `TAILQ_INIT` leave it. -/
def DmsgState.blank : DmsgState :=
  ⟨0, .zero, .zero, 0, false, false, false, false, false, false⟩

structure DmsgMsg where
  state : Nat
  cmd : DmsgCmd
  msgid : Nat
  circuit : Nat
deriving DecidableEq

/-- The states of an iocom, `state0` being number 0. `links` pairs each state that is on a subq with its
parent, in the order of insertion, so a subq is the children of one parent in that order. -/
@[ext]
structure DmsgHeap where
  states : Nat → Option DmsgState
  next : Nat
  staterd : List Nat
  statewr : List Nat
  links : List (Nat × Nat)

namespace DmsgHeap

variable (h : DmsgHeap) (s : Nat)

def subq : List Nat := (h.links.filter (·.2 = s)).map Prod.fst

/-- `KDMSG_STATE_SUBINSERTED` -/
def linked : Prop := s ∈ h.links.map Prod.fst

instance : Decidable (h.linked s) := inferInstanceAs (Decidable (_ ∈ _))

def parent : Option Nat :=
  if s = 0 then some 0 else (h.links.find? (·.1 = s)).map Prod.snd

def refs : Nat := (h.states s).elim 0 DmsgState.refs

def modify (f : DmsgState → DmsgState) : DmsgHeap :=
  { h with states := Function.update h.states s ((h.states s).map f) }

/-- A new state, at an address that no state had. -/
def alloc (d : DmsgState) : DmsgHeap :=
  { h with states := Function.update h.states h.next (some d), next := h.next + 1 }

/-- `statewr_tree`, for the transactions opened here, or `staterd_tree`. -/
def tree (wr : Bool) : List Nat := if wr then h.statewr else h.staterd

def setTree (wr : Bool) (l : List Nat) : DmsgHeap :=
  if wr then { h with statewr := l } else { h with staterd := l }

/-- `RB_FIND` -/
def find (wr : Bool) (msgid : Nat) : Option Nat :=
  (h.tree wr).find? fun s => (h.states s).map DmsgState.msgid = some msgid

/-- `RB_INSERT`, which leaves the tree as it is when the message id is there. -/
def rbInsert (wr : Bool) (msgid : Nat) : DmsgHeap :=
  if (h.find wr msgid).isSome then h else h.setTree wr (h.tree wr ++ [s])

def link (p : Nat) : DmsgHeap := { h with links := h.links ++ [(s, p)] }

end DmsgHeap

/-- What the two threads and the callers have still to run. -/
inductive DmsgFrame where
  /-- `kdmsg_msg_receive_handling` -/
  | receive (m : DmsgMsg)
  /-- the state's `func`, `kdmsg_autorxmsg` or `rcvmsg` -/
  | callback (m : DmsgMsg)
  /-- `kdmsg_state_cleanuprx` -/
  | cleanuprx (m : DmsgMsg)
  /-- `kdmsg_state_cleanuprx` after the substates have been aborted -/
  | finishrx (m : DmsgMsg)
  /-- the loop of `kdmsg_simulate_failure` -/
  | simulate (s : Nat)
  /-- the `fp_write` of a message, if there is one, and `kdmsg_state_cleanuptx` -/
  | cleanuptx (m : DmsgMsg)
  /-- the `kdmsg_state_drop` of a state that was held over a call -/
  | drop (s : Nat)
deriving DecidableEq

/-- The state that a received message is about. A simulated message has it already. -/
def rxState (h : DmsgHeap) (m : DmsgMsg) : Nat :=
  if m.state = 0 then
    (h.find m.cmd.revtrans m.msgid).getD 0
  else m.state

end Hammer2
