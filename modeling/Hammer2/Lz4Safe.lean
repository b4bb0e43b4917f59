import Hammer2.Lz4Copy

namespace Hammer2

open ByteImage ByteBuffer Lz4 Lz77

section

variable {src dst : ByteBuffer} {margin iend oend ip op length fuel nibble : Nat} {token : BitVec 8}

/-- A turn that goes on leaves six bytes of the source and five of the output; the last one ends
inside the output. -/
def Lz4Turn.Within (iend oend size ip : Nat) : Lz4Turn → Prop
  | .next ip' op' dst' => ip < ip' ∧ ip' + 6 ≤ iend ∧ op' + 5 ≤ oend ∧ dst'.size = size
  | .done op' dst' => op' ≤ oend ∧ dst'.size = size
  | .error ip' dst' => ip' ≤ iend + 1 ∧ dst'.size = size

end

end Hammer2
