import Hammer2.DmsgLife

/-! Which messages the assertions of the receiver can stand. -/

namespace Hammer2

variable {rooted : Prop} {h h' : DmsgHeap} {P L : List Nat} {s c p : Nat} {d : DmsgState}
  {m m' : DmsgMsg}

section Frames

variable {e e' : Iocom} {t : Nat} {f : DmsgFrame}

end Frames

end Hammer2
