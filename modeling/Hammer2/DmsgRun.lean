import Hammer2.DmsgHolds

namespace Hammer2

/-- `struct kdmsg_iocom`, with the messages that are allocated and not written yet and, for each thread,
what it has still to run, the innermost call first. Thread 0 is the reader and thread 1 the writer. -/
structure Iocom where
  heap : DmsgHeap
  freerd : Option Nat
  freewr : Option Nat
  conn : Option Nat
  msgq : List DmsgMsg
  loose : List DmsgMsg
  frames : List (Nat × DmsgFrame)
  /-- `KDMSG_CLUSTERCTL_KILLRX` and `KDMSG_CLUSTERCTL_KILLTX` -/
  killed : Bool
  exitNoAcc : Bool

/-- `kdmsg_iocom_init` -/
def Iocom.init : Iocom where
  heap := ⟨Function.update (fun _ => none) 0 (some .blank), 1, [], [], []⟩
  freerd := none
  freewr := none
  conn := none
  msgq := []
  loose := []
  frames := []
  killed := false
  exitNoAcc := false

namespace Iocom

variable (e : Iocom) (t : Nat)

def top : Option DmsgFrame := (e.frames.find? (·.1 = t)).map Prod.snd

def pop : Iocom := { e with frames := e.frames.eraseP (·.1 = t) }

def push (fs : List DmsgFrame) : Iocom := { e with frames := fs.map (t, ·) ++ e.frames }

/-- A driver's thread and a callback can call into the message code. -/
def canCall : Bool :=
  match e.top t with
  | none => decide (2 ≤ t)
  | some (.callback _) => true
  | some _ => false

/-- The states that something other than the trees, the subqs and the caches has. -/
def roots : List Nat :=
  e.conn.toList ++ e.msgq.map DmsgMsg.state ++ e.loose.map DmsgMsg.state ++
    e.frames.flatMap fun f => f.2.holds

/-- The states that a driver can have a pointer to. -/
def named (s : Nat) : Prop := s = 0 ∨ e.heap.linked s ∨ s ∈ e.roots

instance (s : Nat) : Decidable (e.named s) := inferInstanceAs (Decidable (_ ∨ _ ∨ _))

end Iocom

/-- A received message waits for the cleanup of one that is being transmitted on the same state. -/
def Iocom.blocked (e : Iocom) : DmsgFrame → Bool
  | .receive m =>
    decide (m.state = 0) && (e.heap.states (rxState e.heap m)).elim false DmsgState.interlock
  | _ => false

end Hammer2
