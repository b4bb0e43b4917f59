import Hammer2.DmsgRefs

namespace Hammer2

/-- The states that a frame has a reference on, for its message or held over a call. -/
def DmsgFrame.holds : DmsgFrame → List Nat
  | .receive m => [m.state]
  | .callback m => [m.state]
  | .cleanuprx m => [m.state]
  | .finishrx m => [m.state]
  | .simulate s => [s]
  | .cleanuptx m => [m.state]
  | .drop s => [s]

variable {rooted : Prop} {h h' : DmsgHeap} {P L : List Nat} {s c p : Nat} {d : DmsgState}
  {m m' : DmsgMsg}

end Hammer2
