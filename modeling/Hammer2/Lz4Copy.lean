import Hammer2.Lz4Decode

namespace Hammer2

open ByteImage ByteBuffer Lz4 Lz77

/-- A buffer after copies from `d` places back to the places from `a` to `e`. -/
structure Repeats (dst dst' : ByteBuffer) (d a e : Nat) : Prop where
  size : dst'.size = dst.size
  before : ∀ x < a, dst'.bytes x = dst.bytes x
  back : ∀ x, a ≤ x → x < e → dst'.bytes x = dst'.bytes (x - d)

section

variable {dst dst' dst'' src : ByteBuffer} {a b c d e m n s fuel : Nat}

theorem Repeats.zero (h : Repeats dst dst' d a e) : Repeats dst dst' 0 a n :=
  ⟨h.size, h.before, fun _ _ _ => rfl⟩

theorem Repeats.mono (h : Repeats dst dst' d a e) (hn : n ≤ e) : Repeats dst dst' d a n :=
  ⟨h.size, h.before, fun x h1 h2 => h.back x h1 (by omega)⟩

theorem Repeats.trans (h : Repeats dst dst' d a b) (h' : Repeats dst' dst'' d b c) (hab : a ≤ b) :
    Repeats dst dst'' d a c := by
  refine ⟨h'.size.trans h.size, fun x hx => ?_, fun x h1 h2 => ?_⟩
  · rw [h'.before x (by omega), h.before x hx]
  · rcases Nat.lt_or_ge x b with hlt | hge
    · rw [h'.before x hlt, h'.before (x - d) (by omega), h.back x h1 hlt]
    · exact h'.back x hge h2

/-- Copies from a multiple of the distance, behind a run that is long enough. -/
theorem Repeats.extend (h : Repeats dst dst' d a b) (h' : Repeats dst' dst'' (m * d) b c)
    (hab : a ≤ b) (hda : d ≤ a) (hm1 : 1 ≤ m) (hm : m * d ≤ b - a + d) :
    Repeats dst dst'' d a c := by
  refine ⟨h'.size.trans h.size, fun x hx => ?_, ?_⟩
  · rw [h'.before x (by omega), h.before x hx]
  · refine periodic_extend hda hm hm1 (fun x h1 h2 => ?_) h'.back hab
    rw [h'.before x h2, h'.before (x - d) (by omega), h.back x h1 h2]

theorem copyFrom_repeats (dst : ByteBuffer) {s d n : Nat} (hsd : s ≤ d) (hd : d + n ≤ dst.size)
    (hn : s + n ≤ d ∨ s = d ∨ n = 1) :
    ∃ dst', dst.copyFrom dst s d n = some dst' ∧ Repeats dst dst' (d - s) d (d + n) := by
  refine ⟨_, copyFrom_eq (by omega) hd, rfl, fun x hx => splice_outside (Or.inl hx),
    fun x h1 h2 => ?_⟩
  rcases Nat.eq_or_lt_of_le hsd with rfl | hlt
  · rw [Nat.sub_self, Nat.sub_zero]
  · exact splice_self (by omega) h1 h2

theorem splice_splice (img from_ : Image) (s d m n : Nat) :
    splice (splice img from_ s d m) from_ (s + m) (d + m) n = splice img from_ s d (m + n) := by
  funext k
  unfold splice
  by_cases h1 : d + m ≤ k ∧ k < d + m + n
  · rw [if_pos h1, if_pos (by omega)]
    congr 1
    omega
  · rw [if_neg h1]
    by_cases h2 : d ≤ k ∧ k < d + m
    · rw [if_pos h2, if_pos (by omega)]
    · rw [if_neg h2, if_neg (by omega)]

/-- The bytes that a wild copy of the bytes from `d` to `e` stores. -/
def wildBytes (d e : Nat) : Nat := 8 * ((e - d - 1) / 8 + 1)

theorem wildBytes_ge (d e : Nat) : e ≤ d + wildBytes d e := by
  unfold wildBytes
  omega

theorem wildBytes_le (d e : Nat) : wildBytes d e ≤ max 8 (e - d + 7) := by
  unfold wildBytes
  omega

theorem wildBytes_next (h : d + 8 < e) : wildBytes d e = 8 + wildBytes (d + 8) e := by
  unfold wildBytes
  omega

theorem wildBytes_last (h : ¬d + 8 < e) : wildBytes d e = 8 := by
  unfold wildBytes
  omega

theorem wildCopy_from (hfuel : e - d < fuel) (hs : s + wildBytes d e ≤ src.size)
    (hd : d + wildBytes d e ≤ dst.size) :
    wildCopy (fun _ => src) fuel dst s d e =
      some (⟨dst.size, splice dst.bytes src.bytes s d (wildBytes d e)⟩,
        s + wildBytes d e, d + wildBytes d e) := by
  induction fuel generalizing dst s d with
  | zero => exact absurd hfuel (Nat.not_lt_zero _)
  | succ fuel ih =>
    have hpos : 8 ≤ wildBytes d e := by
      unfold wildBytes
      omega
    rw [wildCopy, copyFrom_eq (by omega) (by omega), Option.bind_some]
    by_cases hlt : d + 8 < e
    · have hnext := wildBytes_next hlt
      have hrest := @ih ⟨dst.size, splice dst.bytes src.bytes s d 8⟩ (d + 8) (s + 8) (by omega)
        (by omega) (by change _ ≤ dst.size; omega)
      rw [if_pos hlt, hrest, splice_splice, ← hnext, Nat.add_assoc, Nat.add_assoc, ← hnext]
    · rw [if_neg hlt, wildBytes_last hlt]

/-- A wild copy within the output, from at most `d` places. -/
theorem wildCopy_within (dst : ByteBuffer) {s d e fuel : Nat} (hfuel : e - d < fuel) (hs : s ≤ d)
    (hd : d + wildBytes d e ≤ dst.size) :
    ∃ dst', wildCopy id fuel dst s d e = some (dst', s + wildBytes d e, d + wildBytes d e) ∧
      Repeats dst dst' 0 d (d + wildBytes d e) ∧
      (s + 8 ≤ d → Repeats dst dst' (d - s) d (d + wildBytes d e)) := by
  induction fuel generalizing dst s d with
  | zero => exact absurd hfuel (Nat.not_lt_zero _)
  | succ fuel ih =>
    have hpos : 8 ≤ wildBytes d e := by
      unfold wildBytes
      omega
    have hcopy : dst.copyFrom dst s d 8 = some ⟨dst.size, splice dst.bytes dst.bytes s d 8⟩ :=
      copyFrom_eq (by omega) (by omega)
    have hzero : Repeats dst ⟨dst.size, splice dst.bytes dst.bytes s d 8⟩ 0 d (d + 8) :=
      ⟨rfl, fun x hx => splice_outside (Or.inl hx), fun _ _ _ => rfl⟩
    have hback : s + 8 ≤ d →
        Repeats dst ⟨dst.size, splice dst.bytes dst.bytes s d 8⟩ (d - s) d (d + 8) := fun h8 =>
      ⟨rfl, fun x hx => splice_outside (Or.inl hx), fun x h1 h2 => splice_self h8 h1 h2⟩
    rw [wildCopy, id, hcopy, Option.bind_some]
    by_cases hlt : d + 8 < e
    · have hnext := wildBytes_next hlt
      obtain ⟨dst', hrun, hz, hb⟩ := @ih ⟨dst.size, splice dst.bytes dst.bytes s d 8⟩ (s + 8)
        (d + 8) (by omega) (by omega) (by change _ ≤ dst.size; omega)
      rw [Nat.add_assoc d 8, ← hnext] at hz hb hrun
      rw [Nat.add_assoc s 8, ← hnext] at hrun
      rw [if_pos hlt]
      refine ⟨dst', hrun, hzero.trans hz (by omega), fun h8 => (hback h8).trans ?_ (by omega)⟩
      rw [show d - s = d + 8 - (s + 8) by omega]
      exact hb (by omega)
    · rw [if_neg hlt, wildBytes_last hlt]
      exact ⟨_, rfl, hzero, hback⟩

theorem copyBytes_repeats (dst : ByteBuffer) {s a e fuel : Nat} (hfuel : e - a < fuel)
    (hs : s ≤ a) (he : e ≤ dst.size) :
    ∃ dst', copyBytes fuel dst s a e = some dst' ∧ Repeats dst dst' (a - s) a e := by
  induction fuel generalizing dst s a with
  | zero => exact absurd hfuel (Nat.not_lt_zero _)
  | succ fuel ih =>
    rw [copyBytes]
    by_cases hlt : a < e
    · obtain ⟨dst1, hcopy, h1⟩ := copyFrom_repeats dst hs (n := 1) (by omega)
        (Or.inr (Or.inr rfl))
      obtain ⟨dst', hrun, h2⟩ := @ih dst1 (s + 1) (a + 1) (by omega) (by omega)
        (h1.size ▸ he)
      rw [if_pos hlt, hcopy, Option.bind_some]
      rw [show a + 1 - (s + 1) = a - s by omega] at h2
      exact ⟨dst', hrun, h1.trans h2 (by omega)⟩
    · rw [if_neg hlt]
      exact ⟨dst, rfl, rfl, fun _ _ => rfl, fun x h1 h2 => absurd h2 (by omega)⟩

end

/-- The four bytes behind the first four come from a multiple of the distance. -/
theorem dec32Table_multiple {d : Nat} (h : d < 8) : dec32Table d ≤ 4 ∧
    ∃ m, 1 ≤ m ∧ d + dec32Table d = m * d ∧ m * d ≤ 4 + d ∧ (m * d = 0 ∨ 4 ≤ m * d) := by
  refine ⟨by interval_cases d <;> decide, [1, 4, 2, 2, 1, 1, 1, 1].getD d 0, ?_⟩
  interval_cases d <;> decide

/-- The bytes behind the first eight come from a multiple of the distance, at least eight back. -/
theorem dec64Table_multiple {d : Nat} (h0 : 0 < d) (h : d < 8) :
    ∃ m : Nat, 1 ≤ m ∧ (d + dec32Table d + 4 + dec64Table d : Int) = (m * d : Nat) ∧
      m * d ≤ 8 + d ∧ 8 ≤ m * d := by
  refine ⟨[0, 8, 4, 3, 2, 2, 2, 2].getD d 0, ?_⟩
  interval_cases d <;> decide

theorem dec64Table_ge {d : Nat} (h : d < 8) : -1 ≤ dec64Table d := by
  interval_cases d <;> decide

theorem copyMatchHead_spec {dst : ByteBuffer} {ref op : Nat} (hr : ref ≤ op)
    (ho : op + 8 ≤ dst.size) :
    ∃ dst' ref', copyMatchHead dst ref op = some (dst', ref', op + 8) ∧ ref' ≤ op + 8 ∧
      Repeats dst dst' (op - ref) op (op + 8) ∧
      (ref < op → ref' ≤ op ∧ ∃ m, 1 ≤ m ∧ op + 8 - ref' = m * (op - ref) ∧
        m * (op - ref) ≤ 8 + (op - ref)) := by
  unfold copyMatchHead stepSize
  by_cases hd : op - ref < 8
  · obtain ⟨hle, m, hm1, hm, hmle, hm4⟩ := dec32Table_multiple hd
    obtain ⟨dst1, hc1, h1⟩ := copyFrom_repeats dst (s := ref) (d := op) (n := 1)
      hr (by omega) (Or.inr (Or.inr rfl))
    obtain ⟨dst2, hc2, h2⟩ := copyFrom_repeats dst1 (s := ref + 1) (d := op + 1) (n := 1)
      (by omega) (by rw [h1.size]; omega) (Or.inr (Or.inr rfl))
    obtain ⟨dst3, hc3, h3⟩ := copyFrom_repeats dst2 (s := ref + 2) (d := op + 2) (n := 1)
      (by omega) (by rw [h2.size, h1.size]; omega) (Or.inr (Or.inr rfl))
    obtain ⟨dst4, hc4, h4⟩ := copyFrom_repeats dst3 (s := ref + 3) (d := op + 3) (n := 1)
      (by omega) (by rw [h3.size, h2.size, h1.size]; omega) (Or.inr (Or.inr rfl))
    rw [show op + 1 - (ref + 1) = op - ref by omega] at h2
    rw [show op + 2 - (ref + 2) = op - ref by omega] at h3
    rw [show op + 3 - (ref + 3) = op - ref by omega] at h4
    have hfour : Repeats dst dst4 (op - ref) op (op + 4) :=
      ((h1.trans h2 (by omega)).trans h3 (by omega)).trans h4 (by omega)
    obtain ⟨dst5, hc5, h5⟩ := copyFrom_repeats dst4
      (s := ref + 4 - dec32Table (op - ref)) (d := op + 4) (n := 4) (by omega)
      (by rw [hfour.size]; omega) (by omega)
    rw [show op + 4 - (ref + 4 - dec32Table (op - ref)) = m * (op - ref) by omega] at h5
    have height : Repeats dst dst5 (op - ref) op (op + 8) :=
      hfour.extend h5 (by omega) (by omega) hm1 (by omega)
    rw [if_pos hd]
    dsimp only
    simp only [hc1, hc2, hc3, hc4, hc5, Option.bind_eq_bind, Option.bind_some]
    refine ⟨dst5, _, rfl, ?_, height, fun hlt => ?_⟩
    · have hback := dec64Table_ge hd
      omega
    · obtain ⟨m8, hm81, hm8, hm8le, hm8ge⟩ := dec64Table_multiple (by omega : 0 < op - ref) hd
      refine ⟨by omega, m8, hm81, by omega, by omega⟩
  · obtain ⟨dst', hc, h⟩ := copyFrom_repeats dst (s := ref) (d := op) (n := 8)
      hr ho (by omega)
    rw [if_neg hd, hc, Option.bind_eq_bind, Option.bind_some]
    exact ⟨dst', ref + 8, rfl, by omega, h, fun _ => ⟨by omega, 1, le_rfl, by omega, by omega⟩⟩

theorem secureCopy_spec (dst : ByteBuffer) {s d e : Nat} (hs : s ≤ d)
    (he : d < e → d + wildBytes d e ≤ dst.size) :
    ∃ dst' w, secureCopy dst s d e = some (dst', s + w, d + w) ∧ Repeats dst dst' 0 d (d + w) ∧
      (s + 8 ≤ d → Repeats dst dst' (d - s) d (d + w)) := by
  unfold secureCopy
  by_cases hlt : d < e
  · obtain ⟨dst', hrun, hzero, hback⟩ := wildCopy_within dst (Nat.lt_succ_self (e - d)) hs
      (he hlt)
    rw [if_pos hlt]
    exact ⟨dst', wildBytes d e, hrun, hzero, hback⟩
  · rw [if_neg hlt]
    exact ⟨dst, 0, rfl, ⟨rfl, fun _ _ => rfl, fun _ _ _ => rfl⟩,
      fun _ => ⟨rfl, fun _ _ => rfl, fun x h1 h2 => absurd h2 (by omega)⟩⟩

/-- The first bytes of a match and the rest of it, which come from a multiple of its distance. -/
theorem Repeats.match_rest {dst dst1 dst' : ByteBuffer} {ref ref' op e : Nat} (hr : ref ≤ op)
    (hhead : Repeats dst dst1 (op - ref) op (op + 8))
    (hmult : ref < op → ref' ≤ op ∧ ∃ m, 1 ≤ m ∧ op + 8 - ref' = m * (op - ref) ∧
      m * (op - ref) ≤ 8 + (op - ref))
    (hzero : Repeats dst1 dst' 0 (op + 8) e)
    (hback : ref' + 8 ≤ op + 8 → Repeats dst1 dst' (op + 8 - ref') (op + 8) e) :
    Repeats dst dst' (op - ref) op e := by
  rcases Nat.eq_or_lt_of_le hr with rfl | hlt
  · rw [Nat.sub_self] at hhead ⊢
    exact hhead.trans hzero (by omega)
  · obtain ⟨hle, m, hm1, hm, hmle⟩ := hmult hlt
    have hrest := hback (by omega)
    rw [hm] at hrest
    exact hhead.extend hrest (by omega) (by omega) hm1 (by omega)

/-- A match that ends five bytes before the end of the output is copied, and no access of a copy is
outside of the output. -/
theorem copyMatch_spec (dst : ByteBuffer) {ref op oend : Nat} (length : Nat) (hr : ref ≤ op)
    (ho : op + 12 ≤ oend) (hd : oend ≤ dst.size) :
    ∃ dst', copyMatch dst ref op length oend =
        some (if oend < op + length + 9 then none else some (op + length + 4), dst') ∧
      dst'.size = dst.size ∧
      (op + length + 9 ≤ oend → Repeats dst dst' (op - ref) op (op + length + 4)) := by
  obtain ⟨dst1, ref1, hhead, hle, hrep, hmult⟩ := copyMatchHead_spec hr
    (show op + 8 ≤ dst.size by omega)
  have hcpy : op + 8 + length - (8 - 4) = op + length + 4 := by omega
  have hsize := hrep.size
  unfold copyMatch copyLength stepSize lastLiterals
  rw [hhead, Option.bind_eq_bind, Option.bind_some]
  dsimp only
  rw [hcpy]
  by_cases hend : oend < op + length + 4 + 8 + (8 - 4)
  · rw [if_pos hend]
    by_cases hlast : oend < op + length + 4 + 5
    · rw [if_pos hlast, if_pos (by omega)]
      exact ⟨dst1, rfl, hsize, fun h => absurd h (by omega)⟩
    · have hwild := wildBytes_le (op + 8) (oend - 8)
      obtain ⟨dst2, w, hsecure, hz2, hb2⟩ := secureCopy_spec dst1 (e := oend - 8) hle
        (by omega)
      obtain ⟨dst3, hbytes, h3⟩ := copyBytes_repeats dst2 (s := ref1 + w)
        (a := op + 8 + w) (e := op + length + 4) (Nat.lt_succ_self _) (by omega)
        (by rw [hz2.size]; omega)
      rw [if_neg hlast, if_neg (by omega), hsecure, Option.bind_some]
      dsimp only
      rw [hbytes, Option.bind_eq_bind, Option.bind_some]
      refine ⟨dst3, rfl, by rw [h3.size, hz2.size, hsize], fun _ => ?_⟩
      refine hrep.match_rest hr hmult (hz2.trans h3.zero (by omega)) fun h8 => ?_
      rw [show op + 8 + w - (ref1 + w) = op + 8 - ref1 by omega] at h3
      exact (hb2 h8).trans h3 (by omega)
  · have hwild := wildBytes_le (op + 8) (op + length + 4)
    have hge := wildBytes_ge (op + 8) (op + length + 4)
    obtain ⟨dst2, hrun, hz2, hb2⟩ := wildCopy_within dst1 (e := op + length + 4)
      (Nat.lt_succ_self _) hle (by omega)
    rw [if_neg hend, if_neg (by omega), hrun, Option.bind_some]
    exact ⟨dst2, rfl, by rw [hz2.size, hsize], fun _ => hrep.match_rest hr hmult (hz2.mono hge)
      fun h8 => (hb2 h8).mono hge⟩

end Hammer2
