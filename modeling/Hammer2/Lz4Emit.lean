import Hammer2.Lz4Match
import Hammer2.Lz4DecodeBlock

namespace Hammer2

open ByteImage ByteBuffer Lz4 Lz77

section

variable {src dst : ByteBuffer} {out front mid : List Byte} {img : Image} {b b' : Byte}
  {fuel n op run off v : Nat}

theorem holdsAt_update_append (h : HoldsAt img 0 out) :
    HoldsAt (Function.update img out.length b) 0 (out ++ [b]) := by
  refine holdsAt_append.mpr ⟨h.congr fun i _ hi => ?_, holdsAt_cons.mpr ⟨?_, holdsAt_nil⟩⟩
  · exact Function.update_of_ne (by omega) _ _
  · rw [Nat.zero_add]
    exact Function.update_self _ _ _

theorem holdsAt_update_mid (b' : Byte) (h : HoldsAt img 0 (front ++ b :: mid)) :
    HoldsAt (Function.update img front.length b') 0 (front ++ b' :: mid) := by
  obtain ⟨hfront, hrest⟩ := holdsAt_append.mp h
  obtain ⟨_, hmid⟩ := holdsAt_cons.mp hrest
  refine holdsAt_append.mpr ⟨hfront.congr fun i _ hi => ?_, holdsAt_cons.mpr
    ⟨?_, hmid.congr fun i hi _ => ?_⟩⟩
  · exact Function.update_of_ne (by omega) _ _
  · rw [Nat.zero_add]
    exact Function.update_self _ _ _
  · exact Function.update_of_ne (by omega) _ _

theorem holdsAt_setLE_offset (h : HoldsAt img 0 out) :
    HoldsAt (setLE img out.length 2 v) 0 (out ++ offsetBytes v) := by
  refine holdsAt_append.mpr ⟨h.congr fun i _ hi => setLE_of_outside (Or.inl (by omega)),
    holdsAt_cons.mpr ⟨?_, holdsAt_cons.mpr ⟨?_, holdsAt_nil⟩⟩⟩
  · unfold setLE
    rw [if_pos (by omega)]
    simp
  · unfold setLE
    rw [if_pos (by omega)]
    simp

theorem store_append (hout : HoldsAt dst.bytes 0 out) (hfit : out.length < dst.size) :
    ∃ dst', dst.store out.length b = some dst' ∧ dst'.size = dst.size ∧
      HoldsAt dst'.bytes 0 (out ++ [b]) :=
  ⟨_, store_eq hfit, rfl, holdsAt_update_append hout⟩

theorem storeLength_append (fuel : Nat) (hout : HoldsAt dst.bytes 0 out) (hfuel : n < fuel)
    (hfit : out.length + (extBytes n).length ≤ dst.size) :
    ∃ dst', storeLength fuel dst out.length n =
        some (dst', out.length + (extBytes n).length) ∧
      dst'.size = dst.size ∧ HoldsAt dst'.bytes 0 (out ++ extBytes n) := by
  induction fuel generalizing dst out n with
  | zero => exact absurd hfuel (Nat.not_lt_zero _)
  | succ fuel ih =>
    have hlen := extBytes_length n
    rw [storeLength]
    by_cases hge : 255 ≤ n
    · obtain ⟨dst1, hstore, hsize1, hout1⟩ := store_append (b := 255) hout (by omega)
      have hrest := extBytes_length (n - 255)
      have hone : (out ++ [(255 : Byte)]).length = out.length + 1 := List.length_append
      obtain ⟨dst', hrun, hsize, hall⟩ := ih hout1 (n := n - 255) (by omega) (by omega)
      rw [hone] at hrun
      rw [if_pos hge, hstore, Option.bind_some, hrun, hrest, hlen]
      rw [List.append_assoc, List.singleton_append, ← extBytes_of_ge hge] at hall
      refine ⟨dst', ?_, hsize.trans hsize1, hall⟩
      rw [show out.length + 1 + ((n - 255) / 255 + 1) = out.length + (n / 255 + 1) by omega]
    · obtain ⟨dst', hstore, hsize, hall⟩ := store_append (b := BitVec.ofNat 8 n) hout (by omega)
      rw [if_neg hge, hstore, extBytes_of_lt (by omega)]
      exact ⟨dst', rfl, hsize, hall⟩

theorem storeMatchLength_append (fuel : Nat) (dst : ByteBuffer)
    (hout : HoldsAt dst.bytes 0 out) (hfuel : n < fuel)
    (hfit : out.length + (extBytes n).length ≤ dst.size) :
    ∃ dst', storeMatchLength fuel dst out.length n =
        some (dst', out.length + (extBytes n).length) ∧
      dst'.size = dst.size ∧ HoldsAt dst'.bytes 0 (out ++ extBytes n) := by
  induction fuel generalizing dst out n with
  | zero => exact absurd hfuel (Nat.not_lt_zero _)
  | succ fuel ih =>
    have hlen := extBytes_length n
    rw [storeMatchLength]
    by_cases hge : 255 ≤ n
    · obtain ⟨dst1, hstore1, hsize1, hout1⟩ := store_append (b := 255) hout (by omega)
      have hone : (out ++ [(255 : Byte)]).length = out.length + 1 := List.length_append
      by_cases h510 : 509 < n
      · obtain ⟨dst2, hstore2, hsize2, hout2⟩ := store_append (b := 255) hout1 (by omega)
        have htwo : (out ++ [(255 : Byte)] ++ [255]).length = out.length + 2 := by simp
        have hrest := extBytes_length (n - 510)
        obtain ⟨dst', hrun, hsize, hall⟩ := ih dst2 hout2 (n := n - 510) (by omega) (by omega)
        rw [htwo] at hrun
        rw [hone] at hstore2
        have hbytes : out ++ [(255 : Byte)] ++ [255] ++ extBytes (n - 510) = out ++ extBytes n := by
          rw [extBytes_of_ge hge, extBytes_of_ge (by omega : 255 ≤ n - 255),
            show n - 255 - 255 = n - 510 by omega]
          simp
        rw [if_pos h510, hstore1, Option.bind_eq_bind, Option.bind_some, hstore2, Option.bind_some,
          hrun, hrest, hlen]
        refine ⟨dst', ?_, hsize.trans (hsize2.trans hsize1), hbytes ▸ hall⟩
        rw [show out.length + 2 + ((n - 510) / 255 + 1) = out.length + (n / 255 + 1) by omega]
      · obtain ⟨dst2, hstore2, hsize2, hout2⟩ :=
          store_append (b := BitVec.ofNat 8 (n - 255)) hout1 (by omega)
        rw [hone] at hstore2
        have hbytes : out ++ [(255 : Byte)] ++ [BitVec.ofNat 8 (n - 255)] = out ++ extBytes n := by
          rw [extBytes_of_ge hge, extBytes_of_lt (by omega)]
          simp
        rw [if_neg h510, if_pos hge, hstore1, Option.bind_eq_bind, Option.bind_some, hstore2, hlen]
        refine ⟨dst2, ?_, hsize2.trans hsize1, hbytes ▸ hout2⟩
        rw [show n / 255 + 1 = 2 by omega]
        rfl
    · obtain ⟨dst', hstore, hsize, hall⟩ := store_append (b := BitVec.ofNat 8 n) hout (by omega)
      rw [if_neg (by omega), if_neg hge, hstore, extBytes_of_lt (by omega)]
      exact ⟨dst', rfl, hsize, hall⟩

theorem storeRun_append (hout : HoldsAt dst.bytes 0 out)
    (hfit : out.length + 1 + (lengthTail n).length ≤ dst.size) :
    ∃ dst', storeRun dst out.length n = some (dst', out.length + 1 + (lengthTail n).length) ∧
      dst'.size = dst.size ∧ HoldsAt dst'.bytes 0 (out ++ (tokenByte n 0 :: lengthTail n)) := by
  unfold storeRun runMask mlBits
  obtain ⟨dst1, hstore, hsize1, hout1⟩ := store_append (b := tokenByte n 0) hout (by omega)
  have hone : (out ++ [tokenByte n 0]).length = out.length + 1 := List.length_append
  by_cases hge : 15 ≤ n
  · have htoken : BitVec.ofNat 8 (15 * 2 ^ 4) = tokenByte n 0 := by
      unfold tokenByte
      rw [Nat.min_eq_right hge]
      rfl
    have htail : lengthTail n = extBytes (n - 15) := if_pos hge
    rw [htail] at hfit ⊢
    obtain ⟨dst', hrun, hsize, hall⟩ := storeLength_append (n + 1) (n := n - 15) hout1
      (by omega) (by omega)
    rw [hone] at hrun
    rw [if_pos hge, htoken, hstore, Option.bind_some, hrun]
    rw [List.append_assoc, List.singleton_append] at hall
    exact ⟨dst', rfl, hsize.trans hsize1, hall⟩
  · have htoken : BitVec.ofNat 8 (n * 2 ^ 4) = tokenByte n 0 := by
      unfold tokenByte
      rw [Nat.min_eq_left (by omega), Nat.zero_min, Nat.add_zero]
      rfl
    have htail : lengthTail n = [] := if_neg hge
    rw [if_neg hge, htoken, hstore, htail]
    exact ⟨dst1, rfl, hsize1, hout1⟩

theorem tokenByte_add (run n : Nat) :
    tokenByte run 0 + BitVec.ofNat 8 (min n 15) = tokenByte run n := by
  unfold tokenByte
  rw [← BitVec.ofNat_add, Nat.zero_min, Nat.add_zero]

/-- The token of a match gets its nibble, and the rest of the length stands behind the offset. -/
theorem storeMatch_append (dst : ByteBuffer)
    (hout : HoldsAt dst.bytes 0 (front ++ tokenByte run 0 :: mid))
    (hop : op = (front ++ tokenByte run 0 :: mid).length)
    (hfit : op + (lengthTail n).length ≤ dst.size) :
    ∃ dst', storeMatch dst front.length op n = some (dst', op + (lengthTail n).length) ∧
      dst'.size = dst.size ∧
      HoldsAt dst'.bytes 0 (front ++ tokenByte run n :: (mid ++ lengthTail n)) := by
  have hlen : op = front.length + (mid.length + 1) := hop.trans List.length_append
  have hbyte : dst.bytes front.length = tokenByte run 0 := by
    have h := (holdsAt_cons.mp (holdsAt_append.mp hout).2).1
    rwa [Nat.zero_add] at h
  have hpatch := holdsAt_update_mid (tokenByte run n) hout
  have hop' : op = (front ++ tokenByte run n :: mid).length := by
    rw [hlen, List.length_append, List.length_cons]
  have hadd := tokenByte_add run n
  unfold storeMatch mlMask
  rw [load_eq (by omega), Option.bind_eq_bind, Option.bind_some, hbyte]
  by_cases hge : 15 ≤ n
  · have htail : lengthTail n = extBytes (n - 15) := if_pos hge
    rw [Nat.min_eq_right hge] at hadd
    rw [htail] at hfit ⊢
    obtain ⟨dst', hrun, hsize, hall⟩ := storeMatchLength_append (n + 1)
      ⟨dst.size, Function.update dst.bytes front.length (tokenByte run n)⟩ (n := n - 15) hpatch
        (by omega) (by rw [← hop']; exact hfit)
    rw [← hop'] at hrun
    rw [if_pos hge, hadd, store_eq (by omega), Option.bind_eq_bind, Option.bind_some, hrun]
    rw [List.append_assoc, List.cons_append] at hall
    exact ⟨dst', rfl, hsize, hall⟩
  · have htail : lengthTail n = [] := if_neg hge
    rw [Nat.min_eq_left (by omega)] at hadd
    rw [if_neg hge, hadd, store_eq (by omega), htail, List.append_nil]
    exact ⟨_, rfl, rfl, hpatch⟩

end

end Hammer2
