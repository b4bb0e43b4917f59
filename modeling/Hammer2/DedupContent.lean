import Hammer2.DedupMarks
import Hammer2.DioRun

/-! The bytes behind the answer of `hammer2_dedup_lookup`. -/

namespace Hammer2

open ByteImage

section

variable {io io' : IoCache} {handles : List Nat} {p dataOff : Nat} {how : IoPut} {limit : Int}
  {evict : Nat → Bool} {t : Nat} {d d' : IoDev}

end

section

variable {env : DedupEnv} {t bytes : Nat} {d d' : IoDev} {data : Image} {crc : BitVec 64}
  {handles : List Nat}

end

end Hammer2
