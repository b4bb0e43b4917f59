import Mathlib.Tactic

namespace Utf

/-- A Unicode scalar value. -/
def IsScalar (c : Nat) : Prop := c < 0xD800 ∨ (0xE000 ≤ c ∧ c < 0x110000)

instance (c : Nat) : Decidable (IsScalar c) := inferInstanceAs (Decidable (_ ∨ _))

/-- U+FFFD. -/
def replacement : Nat := 0xFFFD

theorem isScalar_replacement : IsScalar replacement := by decide

def encode8 (c : Nat) : List (BitVec 8) :=
  if c < 0x80 then [BitVec.ofNat 8 c]
  else if c < 0x800 then [BitVec.ofNat 8 (0xC0 + c / 64), BitVec.ofNat 8 (0x80 + c % 64)]
  else if c < 0x10000 then
    [BitVec.ofNat 8 (0xE0 + c / 4096), BitVec.ofNat 8 (0x80 + c / 64 % 64),
      BitVec.ofNat 8 (0x80 + c % 64)]
  else
    [BitVec.ofNat 8 (0xF0 + c / 262144), BitVec.ofNat 8 (0x80 + c / 4096 % 64),
      BitVec.ofNat 8 (0x80 + c / 64 % 64), BitVec.ofNat 8 (0x80 + c % 64)]

/-- The scalar value that the first byte and the low bits of the bytes behind it stand for. -/
def guess8 : List (BitVec 8) → Nat
  | [] => 0
  | b :: t =>
    let x := fun i => (t.getD i 0).toNat % 64
    if b.toNat < 0x80 then b.toNat
    else if b.toNat < 0xE0 then b.toNat % 32 * 64 + x 0
    else if b.toNat < 0xF0 then b.toNat % 16 * 4096 + x 0 * 64 + x 1
    else b.toNat % 8 * 262144 + x 0 * 4096 + x 1 * 64 + x 2

/-- The first character of a sequence that starts with a valid one. -/
def decode8 (s : List (BitVec 8)) : Option (Nat × List (BitVec 8)) :=
  if IsScalar (guess8 s) ∧ encode8 (guess8 s) <+: s then
    some (guess8 s, s.drop (encode8 (guess8 s)).length)
  else none

def encode16 (c : Nat) : List (BitVec 16) :=
  if c < 0x10000 then [BitVec.ofNat 16 c]
  else [BitVec.ofNat 16 (0xD800 + (c - 0x10000) / 1024), BitVec.ofNat 16 (0xDC00 + (c - 0x10000) % 1024)]

def IsHigh (u : BitVec 16) : Prop := 0xD800 ≤ u.toNat ∧ u.toNat < 0xDC00

def IsLow (u : BitVec 16) : Prop := 0xDC00 ≤ u.toNat ∧ u.toNat < 0xE000

instance (u : BitVec 16) : Decidable (IsHigh u) := inferInstanceAs (Decidable (_ ∧ _))

instance (u : BitVec 16) : Decidable (IsLow u) := inferInstanceAs (Decidable (_ ∧ _))

/-- UTF-8 to UTF-16. An invalid byte is replaced together with the `skip` bytes that follow it. -/
def toWideFrom (skip : List (BitVec 8) → Nat) : Nat → List (BitVec 8) → List (BitVec 16)
  | 0, _ => []
  | _ + 1, [] => []
  | fuel + 1, b :: t =>
    match decode8 (b :: t) with
    | some (c, rest) => encode16 c ++ toWideFrom skip fuel rest
    | none => BitVec.ofNat 16 replacement :: toWideFrom skip fuel (t.drop (skip (b :: t)))

def toWide (skip : List (BitVec 8) → Nat) (s : List (BitVec 8)) : List (BitVec 16) :=
  toWideFrom skip s.length s

/-- UTF-16 to UTF-8. A surrogate without its partner is replaced. -/
def toUtf8 : List (BitVec 16) → List (BitVec 8)
  | [] => []
  | [u] => if IsHigh u ∨ IsLow u then encode8 replacement else encode8 u.toNat
  | u :: v :: w =>
    if IsHigh u then
      if IsLow v then
        encode8 (0x10000 + (u.toNat - 0xD800) * 1024 + (v.toNat - 0xDC00)) ++ toUtf8 w
      else encode8 replacement ++ toUtf8 (v :: w)
    else if IsLow u then encode8 replacement ++ toUtf8 (v :: w)
    else encode8 u.toNat ++ toUtf8 (v :: w)

/-- A sequence of encoded scalar values. -/
def Valid8 (s : List (BitVec 8)) : Prop :=
  ∃ cs : List Nat, (∀ c ∈ cs, IsScalar c) ∧ s = cs.flatMap encode8

theorem encode8_ne_nil (c : Nat) : encode8 c ≠ [] := by
  unfold encode8
  split
  · simp
  · split
    · simp
    · split <;> simp

theorem guess8_encode8 {c : Nat} (h : c < 0x110000) (t : List (BitVec 8)) :
    guess8 (encode8 c ++ t) = c := by
  unfold encode8
  split
  · simp only [guess8, List.cons_append, BitVec.toNat_ofNat]
    rw [if_pos (by omega)]
    omega
  · split
    · simp only [guess8, List.cons_append, List.getD_cons_zero, BitVec.toNat_ofNat]
      rw [if_neg (by omega), if_pos (by omega)]
      omega
    · split
      · simp only [guess8, List.cons_append, List.getD_cons_zero, List.getD_cons_succ,
          BitVec.toNat_ofNat]
        rw [if_neg (by omega), if_neg (by omega), if_pos (by omega)]
        omega
      · simp only [guess8, List.cons_append, List.getD_cons_zero, List.getD_cons_succ,
          BitVec.toNat_ofNat]
        rw [if_neg (by omega), if_neg (by omega), if_neg (by omega)]
        omega

theorem IsScalar.lt {c : Nat} (h : IsScalar c) : c < 0x110000 := by
  unfold IsScalar at h
  omega

theorem decode8_encode8 {c : Nat} (h : IsScalar c) (t : List (BitVec 8)) :
    decode8 (encode8 c ++ t) = some (c, t) := by
  unfold decode8
  rw [guess8_encode8 h.lt, if_pos ⟨h, List.prefix_append _ _⟩, List.drop_left]

theorem decode8_eq {s rest : List (BitVec 8)} {c : Nat} (h : decode8 s = some (c, rest)) :
    s = encode8 c ++ rest ∧ IsScalar c := by
  unfold decode8 at h
  split at h
  next hc =>
    obtain ⟨rfl, rfl⟩ := Prod.mk.inj (Option.some.inj h)
    obtain ⟨t, ht⟩ := hc.2
    refine ⟨?_, hc.1⟩
    rw [← ht, guess8_encode8 hc.1.lt, List.drop_left]
  next => cases h

theorem toWideFrom_encode8 {skip : List (BitVec 8) → Nat} {cs : List Nat} {fuel : Nat}
    (h : ∀ c ∈ cs, IsScalar c) (hfuel : (cs.flatMap encode8).length ≤ fuel) :
    toWideFrom skip fuel (cs.flatMap encode8) = cs.flatMap encode16 := by
  induction cs generalizing fuel with
  | nil => cases fuel <;> rfl
  | cons c cs ih =>
    have hpos := List.length_pos_iff.mpr (encode8_ne_nil c)
    rw [List.flatMap_cons, List.length_append] at hfuel
    obtain ⟨fuel, rfl⟩ : ∃ f, fuel = f + 1 := ⟨fuel - 1, by omega⟩
    have hdec := decode8_encode8 (h c (by simp)) (cs.flatMap encode8)
    rw [List.flatMap_cons, List.flatMap_cons]
    obtain ⟨b, t, hbt⟩ := List.exists_cons_of_ne_nil
      (List.append_ne_nil_of_left_ne_nil (encode8_ne_nil c) (cs.flatMap encode8))
    rw [hbt] at hdec ⊢
    unfold toWideFrom
    rw [hdec]
    simp only
    rw [ih (fun c hc => h c (by simp [hc])) (by omega)]

theorem toWide_encode8 (skip : List (BitVec 8) → Nat) {cs : List Nat} (h : ∀ c ∈ cs, IsScalar c) :
    toWide skip (cs.flatMap encode8) = cs.flatMap encode16 :=
  toWideFrom_encode8 h le_rfl

theorem not_surrogate {c : Nat} (h : IsScalar c) (hlt : c < 0x10000) :
    (BitVec.ofNat 16 c).toNat = c ∧ ¬IsHigh (BitVec.ofNat 16 c) ∧ ¬IsLow (BitVec.ofNat 16 c) := by
  have hc : (BitVec.ofNat 16 c).toNat = c := by
    rw [BitVec.toNat_ofNat]
    omega
  unfold IsScalar at h
  unfold IsHigh IsLow
  omega

/-- A unit that is no surrogate is converted on its own. -/
theorem toUtf8_cons {u : BitVec 16} (hhigh : ¬IsHigh u) (hlow : ¬IsLow u) (w : List (BitVec 16)) :
    toUtf8 (u :: w) = encode8 u.toNat ++ toUtf8 w := by
  cases w with
  | nil => simp [toUtf8, hhigh, hlow]
  | cons v w => simp [toUtf8, hhigh, hlow]

theorem toUtf8_encode16 {c : Nat} (h : IsScalar c) (w : List (BitVec 16)) :
    toUtf8 (encode16 c ++ w) = encode8 c ++ toUtf8 w := by
  unfold encode16
  split
  next hlt =>
    obtain ⟨hc, hhigh, hlow⟩ := not_surrogate h hlt
    rw [List.singleton_append, toUtf8_cons hhigh hlow, hc]
  next hge =>
    have hlt := h.lt
    have hu : (BitVec.ofNat 16 (0xD800 + (c - 0x10000) / 1024)).toNat =
        0xD800 + (c - 0x10000) / 1024 := by
      rw [BitVec.toNat_ofNat]
      omega
    have hv : (BitVec.ofNat 16 (0xDC00 + (c - 0x10000) % 1024)).toNat =
        0xDC00 + (c - 0x10000) % 1024 := by
      rw [BitVec.toNat_ofNat]
      omega
    have hhigh : IsHigh (BitVec.ofNat 16 (0xD800 + (c - 0x10000) / 1024)) := by
      unfold IsHigh
      omega
    have hlow : IsLow (BitVec.ofNat 16 (0xDC00 + (c - 0x10000) % 1024)) := by
      unfold IsLow
      omega
    have hc : 0x10000 + (0xD800 + (c - 0x10000) / 1024 - 0xD800) * 1024 +
        (0xDC00 + (c - 0x10000) % 1024 - 0xDC00) = c := by
      omega
    simp only [List.cons_append, List.nil_append, toUtf8, hhigh, hlow, if_true, hu, hv, hc]

/-- The conversions are inverse on valid UTF-8. -/
theorem toUtf8_toWide (skip : List (BitVec 8) → Nat) {s : List (BitVec 8)} (h : Valid8 s) :
    toUtf8 (toWide skip s) = s := by
  obtain ⟨cs, hcs, rfl⟩ := h
  rw [toWide_encode8 skip hcs]
  induction cs with
  | nil => rfl
  | cons c cs ih =>
    rw [List.flatMap_cons, List.flatMap_cons, toUtf8_encode16 (hcs c (by simp)),
      ih fun c hc => hcs c (by simp [hc])]

/-- An ASCII unit splits a conversion. -/
theorem toUtf8_append_ascii {u : BitVec 16} (hu : u.toNat < 0x80) (p w : List (BitVec 16)) :
    toUtf8 (p ++ u :: w) = toUtf8 p ++ BitVec.ofNat 8 u.toNat :: toUtf8 w := by
  have hhigh : ¬IsHigh u := by
    unfold IsHigh
    omega
  have hlow : ¬IsLow u := by
    unfold IsLow
    omega
  have hone : encode8 u.toNat = [BitVec.ofNat 8 u.toNat] := by simp [encode8, hu]
  induction p using toUtf8.induct with
  | case1 => simp [toUtf8, toUtf8_cons hhigh hlow, hone]
  | case2 x hx =>
    rcases hx with hx | hx
    · simp [toUtf8, hx, hlow, toUtf8_cons hhigh hlow, hone]
    · have hx' : ¬IsHigh x := by
        unfold IsHigh IsLow at *
        omega
      simp [toUtf8, hx, hx', toUtf8_cons hhigh hlow, hone]
  | case3 x hx =>
    obtain ⟨hx, hx'⟩ := not_or.mp hx
    simp [toUtf8, hx, hx', toUtf8_cons hhigh hlow, hone]
  | case4 x y p hx hy ih => simp [toUtf8, hx, hy, ih]
  | case5 x y p hx hy ih => simpa [toUtf8, hx, hy] using ih
  | case6 x y p hx hy ih => simpa [toUtf8, hx, hy] using ih
  | case7 x y p hx hy ih => simpa [toUtf8, hx, hy] using ih

/-- A unit takes no more room than the bytes it was converted from. -/
theorem encode16_length_le (c : Nat) : (encode16 c).length ≤ (encode8 c).length := by
  have hpos := List.length_pos_iff.mpr (encode8_ne_nil c)
  unfold encode16
  split
  · exact hpos
  · next hge =>
    have h8 : ¬c < 0x80 ∧ ¬c < 0x800 := by omega
    simp [encode8, h8, hge]

theorem toWideFrom_length_le (skip : List (BitVec 8) → Nat) (fuel : Nat) (s : List (BitVec 8)) :
    (toWideFrom skip fuel s).length ≤ s.length := by
  induction fuel generalizing s with
  | zero => simp [toWideFrom]
  | succ fuel ih =>
    cases s with
    | nil => simp [toWideFrom]
    | cons b t =>
      unfold toWideFrom
      cases hdec : decode8 (b :: t) with
      | some r =>
        obtain ⟨c, rest⟩ := r
        have hlen := encode16_length_le c
        have hrest := ih rest
        simp only [(decode8_eq hdec).1, List.length_append]
        omega
      | none =>
        have hrest := ih (t.drop (skip (b :: t)))
        rw [List.length_drop] at hrest
        simp only [List.length_cons]
        omega

theorem toWide_length_le (skip : List (BitVec 8) → Nat) (s : List (BitVec 8)) :
    (toWide skip s).length ≤ s.length :=
  toWideFrom_length_le skip s.length s

theorem zero_mem_encode16 {c : Nat} (hc : IsScalar c) (h : 0#16 ∈ encode16 c) : c = 0 := by
  have hlt := hc.lt
  unfold encode16 at h
  split at h
  · have h0 : (BitVec.ofNat 16 c).toNat = 0 := by
      rw [← List.mem_singleton.mp h]
      rfl
    rw [BitVec.toNat_ofNat] at h0
    omega
  · simp only [List.mem_cons, List.not_mem_nil, or_false] at h
    rcases h with h | h
    · have h0 : (BitVec.ofNat 16 (0xD800 + (c - 0x10000) / 1024)).toNat = 0 := by
        rw [← h]
        rfl
      rw [BitVec.toNat_ofNat] at h0
      omega
    · have h0 : (BitVec.ofNat 16 (0xDC00 + (c - 0x10000) % 1024)).toNat = 0 := by
        rw [← h]
        rfl
      rw [BitVec.toNat_ofNat] at h0
      omega

theorem zero_notMem_toWide (skip : List (BitVec 8) → Nat) {s : List (BitVec 8)} (h : Valid8 s)
    (h0 : 0#8 ∉ s) : 0#16 ∉ toWide skip s := by
  obtain ⟨cs, hcs, rfl⟩ := h
  rw [toWide_encode8 skip hcs]
  intro hmem
  obtain ⟨c, hc, hmem⟩ := List.mem_flatMap.mp hmem
  obtain rfl := zero_mem_encode16 (hcs c hc) hmem
  exact h0 (List.mem_flatMap.mpr ⟨0, hc, by simp [encode8]⟩)

theorem Valid8.nil : Valid8 [] := ⟨[], by simp, rfl⟩

theorem Valid8.cons {c : Nat} {s : List (BitVec 8)} (hc : IsScalar c) (h : Valid8 s) :
    Valid8 (encode8 c ++ s) := by
  obtain ⟨cs, hcs, rfl⟩ := h
  refine ⟨c :: cs, ?_, rfl⟩
  intro d hd
  rcases List.mem_cons.mp hd with rfl | hd
  · exact hc
  · exact hcs d hd

/-- Whatever is converted, the result is valid UTF-8. -/
theorem toUtf8_valid (w : List (BitVec 16)) : Valid8 (toUtf8 w) := by
  induction w using toUtf8.induct with
  | case1 => exact .nil
  | case2 u hu => simpa [toUtf8, hu] using Valid8.cons isScalar_replacement .nil
  | case3 u hu =>
    have hs : IsScalar u.toNat := by
      unfold IsHigh IsLow at hu
      unfold IsScalar
      omega
    simpa [toUtf8, hu] using Valid8.cons hs .nil
  | case4 u v w hu hv ih =>
    have hs : IsScalar (0x10000 + (u.toNat - 0xD800) * 1024 + (v.toNat - 0xDC00)) := by
      unfold IsHigh at hu
      unfold IsLow at hv
      unfold IsScalar
      omega
    simpa [toUtf8, hu, hv] using Valid8.cons hs ih
  | case5 u v w hu hv ih => simpa [toUtf8, hu, hv] using Valid8.cons isScalar_replacement ih
  | case6 u v w hu hv ih => simpa [toUtf8, hu, hv] using Valid8.cons isScalar_replacement ih
  | case7 u v w hu hv ih =>
    have hs : IsScalar u.toNat := by
      unfold IsHigh at hu
      unfold IsLow at hv
      unfold IsScalar
      omega
    simpa [toUtf8, hu, hv] using Valid8.cons hs ih

theorem encode8_ge {c : Nat} (hc : IsScalar c) (h : 0x80 ≤ c) {b : BitVec 8} (hb : b ∈ encode8 c) :
    0x80 ≤ b.toNat := by
  have hlt := hc.lt
  unfold encode8 at hb
  rw [if_neg (by omega)] at hb
  split at hb
  · simp only [List.mem_cons, List.not_mem_nil, or_false] at hb
    rcases hb with rfl | rfl <;> rw [BitVec.toNat_ofNat] <;> omega
  · split at hb
    · simp only [List.mem_cons, List.not_mem_nil, or_false] at hb
      rcases hb with rfl | rfl | rfl <;> rw [BitVec.toNat_ofNat] <;> omega
    · simp only [List.mem_cons, List.not_mem_nil, or_false] at hb
      rcases hb with rfl | rfl | rfl | rfl <;> rw [BitVec.toNat_ofNat] <;> omega

theorem zero_mem_encode8 {c : Nat} (hc : IsScalar c) (h : 0#8 ∈ encode8 c) : c = 0 := by
  by_cases hlt : c < 0x80
  · have h0 : (BitVec.ofNat 8 c).toNat = 0 := by
      rw [encode8, if_pos hlt] at h
      rw [← List.mem_singleton.mp h]
      rfl
    rw [BitVec.toNat_ofNat] at h0
    omega
  · have hge := encode8_ge hc (by omega) h
    simp at hge

/-- Without a NUL there is none after the conversion. -/
theorem zero_notMem_toUtf8 {w : List (BitVec 16)} (h : 0#16 ∉ w) : 0#8 ∉ toUtf8 w := by
  have hrep : 0#8 ∉ encode8 replacement := by decide
  have hunit : ∀ u : BitVec 16, ¬IsHigh u → ¬IsLow u → u ≠ 0#16 → 0#8 ∉ encode8 u.toNat := by
    intro u hhigh hlow hne hmem
    have hs : IsScalar u.toNat := by
      unfold IsHigh at hhigh
      unfold IsLow at hlow
      unfold IsScalar
      omega
    exact hne (BitVec.eq_of_toNat_eq (zero_mem_encode8 hs hmem))
  induction w using toUtf8.induct with
  | case1 => simp [toUtf8]
  | case2 u hu => simpa [toUtf8, hu] using hrep
  | case3 u hu =>
    obtain ⟨hhigh, hlow⟩ := not_or.mp hu
    have hne : u ≠ 0#16 := fun heq => h (by simp [heq])
    simpa [toUtf8, hu] using hunit u hhigh hlow hne
  | case4 u v w hu hv ih =>
    have hs : IsScalar (0x10000 + (u.toNat - 0xD800) * 1024 + (v.toNat - 0xDC00)) := by
      unfold IsHigh at hu
      unfold IsLow at hv
      unfold IsScalar
      omega
    have hpair : 0#8 ∉ encode8 (0x10000 + (u.toNat - 0xD800) * 1024 + (v.toNat - 0xDC00)) := by
      intro hmem
      have := zero_mem_encode8 hs hmem
      omega
    have hw := ih fun hmem => h (by simp [hmem])
    simpa [toUtf8, hu, hv] using ⟨hpair, hw⟩
  | case5 u v w hu hv ih =>
    have hw := ih fun hmem => h (List.mem_cons_of_mem _ hmem)
    simpa [toUtf8, hu, hv] using ⟨hrep, hw⟩
  | case6 u v w hu hv ih =>
    have hw := ih fun hmem => h (List.mem_cons_of_mem _ hmem)
    simpa [toUtf8, hu, hv] using ⟨hrep, hw⟩
  | case7 u v w hu hv ih =>
    have hne : u ≠ 0#16 := fun heq => h (by simp [heq])
    have hw := ih fun hmem => h (List.mem_cons_of_mem _ hmem)
    simpa [toUtf8, hu, hv] using ⟨hunit u hu hv hne, hw⟩

/-- The parts of valid UTF-8 around an ASCII byte are valid. -/
theorem Valid8.split {a t : List (BitVec 8)} {b : BitVec 8} (hb : b.toNat < 0x80)
    (h : Valid8 (a ++ b :: t)) : Valid8 a ∧ Valid8 t := by
  obtain ⟨cs, hcs, heq⟩ := h
  induction cs generalizing a with
  | nil => simp at heq
  | cons c cs ih =>
    have hc := hcs c (by simp)
    have hcs' : ∀ c ∈ cs, IsScalar c := fun c hmem => hcs c (by simp [hmem])
    rw [List.flatMap_cons] at heq
    rcases List.append_eq_append_iff.mp heq with ⟨x, hx, hrest⟩ | ⟨x, hx, hrest⟩
    · cases x with
      | nil =>
        rw [List.append_nil] at hx
        rw [List.nil_append] at hrest
        refine ⟨?_, (ih hcs' (show [] ++ b :: t = _ from hrest)).2⟩
        rw [← hx, ← List.append_nil (encode8 c)]
        exact .cons hc .nil
      | cons y x =>
        obtain ⟨rfl, rfl⟩ := List.cons.inj hrest
        have hlt : c < 0x80 := by
          by_contra hge
          have := encode8_ge hc (by omega) (hx ▸ (by simp : b ∈ a ++ b :: x))
          omega
        have hone : encode8 c = [BitVec.ofNat 8 c] := by simp [encode8, hlt]
        rw [hone] at hx
        obtain ⟨rfl, rfl⟩ : a = [] ∧ x = [] := by
          have hlen := congrArg List.length hx
          simp only [List.length_append, List.length_cons, List.length_nil] at hlen
          exact ⟨List.length_eq_zero_iff.mp (by omega), List.length_eq_zero_iff.mp (by omega)⟩
        exact ⟨.nil, cs, hcs', rfl⟩
    · obtain ⟨hx', ht⟩ := ih hcs' hrest.symm
      rw [hx]
      exact ⟨.cons hc hx', ht⟩

end Utf
