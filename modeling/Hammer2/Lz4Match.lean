import Hammer2.Lz4Encode

namespace Hammer2

open ByteImage ByteBuffer Lz4 Lz77

/-- The bytes from `a` to `e` repeat those `d` places back. -/
def Agrees (img : Image) (d a e : Nat) : Prop := ∀ x, a ≤ x → x < e → img x = img (x - d)

section

variable {src : ByteBuffer} {img : Image} {a b c d e ip ref limit fuel n : Nat} {table : HashTable}

theorem Agrees.trans (h : Agrees img d a b) (h' : Agrees img d b c) : Agrees img d a c :=
  fun x h1 h2 => (Nat.lt_or_ge x b).elim (h x h1) fun hge => h' x hge h2

theorem agrees_refl : Agrees img d a a := fun _ h1 h2 => absurd h2 (Nat.not_lt.mpr h1)

theorem getLE_eq_iff_agrees (hd : d ≤ ip) :
    getLE img (ip - d) n = getLE img ip n ↔ Agrees img d ip (ip + n) := by
  refine getLE_eq_iff.trans ⟨fun h x h1 h2 => ?_, fun h i hi => ?_⟩
  · have hx := h (x - ip) (by omega)
    rw [show ip - d + (x - ip) = x - d by omega, show ip + (x - ip) = x by omega] at hx
    exact hx.symm
  · have hx := h (ip + i) (by omega) (by omega)
    rw [show ip + i - d = ip - d + i by omega] at hx
    exact hx.symm

theorem sameWord_eq (src : ByteBuffer) {d ip n : Nat} (hd : d ≤ ip) (hfit : ip + n ≤ src.size) :
    ∃ same, sameWord src n (ip - d) ip = some same ∧
      (same = true ↔ Agrees src.bytes d ip (ip + n)) := by
  unfold sameWord
  rw [loadWord_eq (by omega), loadWord_eq hfit, Option.bind_some, Option.map_some]
  exact ⟨_, rfl, beq_iff_eq.trans (getLE_eq_iff_agrees hd)⟩

theorem isMatch_eq (src : ByteBuffer) {d ip : Nat} (hd : d ≤ ip) (hfit : ip + 4 ≤ src.size) :
    ∃ same, isMatch src (ip - d) ip = some same ∧
      (same = true ↔ d ≤ 65535 ∧ Agrees src.bytes d ip (ip + 4)) := by
  unfold isMatch maxDistance
  by_cases hfar : ip - d + 65535 < ip
  · rw [if_pos hfar]
    exact ⟨false, rfl, by simp; omega⟩
  · obtain ⟨same, hsame, hiff⟩ := sameWord_eq src (n := 4) hd hfit
    rw [if_neg hfar]
    exact ⟨same, hsame, hiff.trans ⟨fun h => ⟨by omega, h⟩, fun h => h.2⟩⟩

theorem words_xor_ne_zero {off off' : Nat} (hne : getLE img off 8 ≠ getLE img off' 8) :
    BitVec.ofNat 64 (getLE img off 8) ^^^ BitVec.ofNat 64 (getLE img off' 8) ≠ 0 := by
  intro h0
  have hlt : ∀ p, getLE img p 8 < 2 ^ 64 := fun p => getLE_lt img p 8
  have hnat := congrArg BitVec.toNat (BitVec.xor_eq_zero_iff.mp h0)
  rw [BitVec.toNat_ofNat, BitVec.toNat_ofNat, Nat.mod_eq_of_lt (hlt _),
    Nat.mod_eq_of_lt (hlt _)] at hnat
  exact hne hnat

/-- The number of common bytes of two words that differ is the place of their first difference. -/
theorem nbCommonBytes_spec (hne : getLE img (ip - d) 8 ≠ getLE img ip 8) (hd : d ≤ ip) :
    let r := nbCommonBytes
      (BitVec.ofNat 64 (getLE img (ip - d) 8) ^^^ BitVec.ofNat 64 (getLE img ip 8))
    r < 8 ∧ Agrees img d ip (ip + r) ∧ img (ip + r) ≠ img (ip + r - d) := by
  intro r
  have hnz := words_xor_ne_zero hne
  set diff := BitVec.ofNat 64 (getLE img (ip - d) 8) ^^^ BitVec.ofNat 64 (getLE img ip 8)
    with hdiff
  have hbit : ∀ j k, j < 8 → k < 8 → diff.getLsbD (8 * j + k) =
      ((img (ip + j - d)).getLsbD k ^^ (img (ip + j)).getLsbD k) := by
    intro j k hj hk
    rw [hdiff, BitVec.getLsbD_xor, BitVec.getLsbD_ofNat, BitVec.getLsbD_ofNat,
      getLE_testBit hj hk, getLE_testBit hj hk, show ip - d + j = ip + j - d by omega]
    simp [show 8 * j + k < 64 by omega]
  have hctz : diff.ctz.toNat < 64 := by
    have h := BitVec.ctz_lt_iff_ne_zero.mpr hnz
    simpa [BitVec.lt_def] using h
  have hr : r = diff.ctz.toNat / 2 ^ 3 := rfl
  have hr8 : r < 8 := by omega
  refine ⟨hr8, fun x h1 h2 => ?_, fun heq => ?_⟩
  · have hx : x = ip + (x - ip) := by omega
    rw [hx]
    refine BitVec.eq_of_getLsbD_eq fun k hk => ?_
    have hzero : diff.getLsbD (8 * (x - ip) + k) = false :=
      BitVec.getLsbD_false_of_lt_ctz (by omega)
    rw [hbit (x - ip) k (by omega) hk] at hzero
    exact (by simpa using hzero : (img (ip + (x - ip) - d)).getLsbD k = _).symm
  · have hone := BitVec.getLsbD_true_ctz_of_ne_zero hnz
    rw [show diff.ctz.toNat = 8 * r + diff.ctz.toNat % 8 by omega,
      hbit r (diff.ctz.toNat % 8) hr8 (by omega), heq, Bool.xor_self] at hone
    exact absurd hone (by decide)

theorem countWords_spec (fuel : Nat) (hfuel : limit - ip < fuel) (hd : d ≤ ip)
    (hsize : limit ≤ src.size) :
    ∃ ref' ip' ended, countWords src limit fuel (ip - d) ip = some (ref', ip', ended) ∧
      ip ≤ ip' ∧ ip' ≤ max ip limit ∧ Agrees src.bytes d ip ip' ∧
      (ended = true → src.bytes ip' ≠ src.bytes (ip' - d)) ∧
      (ended = false → ref' = ip' - d ∧ limit ≤ ip' + 7) := by
  induction fuel generalizing ip with
  | zero => exact absurd hfuel (Nat.not_lt_zero _)
  | succ fuel ih =>
    unfold countWords stepSize
    by_cases hlt : ip + (8 - 1) < limit
    · rw [if_pos hlt, loadWord_eq (by omega), loadWord_eq (by omega)]
      simp only [Option.bind_eq_bind, Option.bind_some]
      by_cases heq : getLE src.bytes (ip - d) 8 = getLE src.bytes ip 8
      · have hagree := (getLE_eq_iff_agrees hd).mp heq
        obtain ⟨ref', ip', ended, hrun, hle, hmax, hag, hstop⟩ := @ih (ip + 8) (by omega)
          (by omega)
        have hzero : BitVec.ofNat 64 (getLE src.bytes ip 8) ^^^
            BitVec.ofNat 64 (getLE src.bytes ip 8) = 0 := BitVec.xor_self
        rw [heq, if_pos hzero, show ip - d + 8 = ip + 8 - d by omega]
        exact ⟨ref', ip', ended, hrun, by omega, by omega, hagree.trans hag, hstop⟩
      · obtain ⟨hr8, hag, hne⟩ := nbCommonBytes_spec heq hd
        rw [if_neg (words_xor_ne_zero heq)]
        exact ⟨_, _, true, rfl, by omega, by omega, hag, fun _ => hne,
          fun h => absurd h (by decide)⟩
    · rw [if_neg hlt]
      exact ⟨_, ip, false, rfl, le_rfl, by omega, agrees_refl, fun h => absurd h (by decide),
        fun _ => ⟨rfl, by omega⟩⟩

/-- The end of the agreeing bytes, or the limit, is at most `w` places on. -/
def StopsWithin (img : Image) (d limit ip w : Nat) : Prop :=
  limit ≤ ip + w ∨ ∃ x, ip ≤ x ∧ x ≤ ip + w ∧ img x ≠ img (x - d)

/-- A comparison of `n` bytes halves the distance to the end. -/
theorem countTail_spec (hd : d ≤ ip) (hsize : limit ≤ src.size) (hn : 1 ≤ n)
    (hstop : StopsWithin src.bytes d limit ip (2 * n - 1)) :
    ∃ ip', countTail src limit n (ip - d) ip = some (ip' - d, ip') ∧ ip ≤ ip' ∧
      ip' ≤ max ip limit ∧ Agrees src.bytes d ip ip' ∧
      StopsWithin src.bytes d limit ip' (n - 1) := by
  unfold countTail
  by_cases hlt : ip + (n - 1) < limit
  · obtain ⟨same, hsame, hiff⟩ := sameWord_eq src (n := n) hd (by omega)
    rw [if_pos hlt, hsame, Option.map_some]
    cases same with
    | true =>
      have hag := hiff.mp rfl
      refine ⟨ip + n, ?_, by omega, by omega, hag, ?_⟩
      · rw [if_pos rfl, show ip - d + n = ip + n - d by omega]
      · refine hstop.imp (fun h => by omega) fun ⟨x, h1, h2, hne⟩ => ⟨x, ?_, by omega, hne⟩
        by_contra hx
        exact hne (hag x h1 (by omega))
    | false =>
      refine ⟨ip, rfl, le_rfl, by omega, agrees_refl, Or.inr ?_⟩
      by_contra hnone
      have hall : Agrees src.bytes d ip (ip + n) := fun x h1 h2 => by
        by_contra hx
        exact hnone ⟨x, h1, by omega, hx⟩
      exact absurd (hiff.mpr hall) (by decide)
  · rw [if_neg hlt]
    exact ⟨ip, rfl, le_rfl, by omega, agrees_refl, Or.inl (by omega)⟩

/-- The end of a match is the first byte that differs, or the limit. -/
theorem countMatch_spec (src : ByteBuffer) {limit d ip : Nat} (hd : d ≤ ip)
    (hsize : limit ≤ src.size) :
    ∃ r, countMatch src limit (ip - d) ip = some r ∧ ip ≤ r ∧ r ≤ max ip limit ∧
      Agrees src.bytes d ip r ∧ (limit ≤ r ∨ src.bytes r ≠ src.bytes (r - d)) := by
  obtain ⟨ref1, ip1, ended, hrun, hle, hmax, hag, hend, hon⟩ := countWords_spec
    (limit + 1) (by omega) hd hsize
  unfold countMatch
  rw [hrun, Option.bind_eq_bind, Option.bind_some]
  cases ended with
  | true => exact ⟨ip1, rfl, hle, hmax, hag, Or.inr (hend rfl)⟩
  | false =>
    obtain ⟨rfl, hseven⟩ := hon rfl
    obtain ⟨ip2, hrun2, hle2, hmax2, hag2, hstop2⟩ := countTail_spec (n := 4)
      (by omega : d ≤ ip1) hsize (by omega) (Or.inl hseven)
    obtain ⟨ip3, hrun3, hle3, hmax3, hag3, hstop3⟩ := countTail_spec (n := 2)
      (by omega : d ≤ ip2) hsize (by omega) hstop2
    obtain ⟨ip4, hrun4, hle4, hmax4, hag4, hstop4⟩ := countTail_spec (n := 1)
      (by omega : d ≤ ip3) hsize (by omega) hstop3
    simp only [Bool.false_eq_true, if_false, hrun2, hrun3, hrun4, Option.bind_eq_bind,
      Option.bind_some]
    refine ⟨ip4, rfl, by omega, by omega, ((hag.trans hag2).trans hag3).trans hag4, ?_⟩
    rcases hstop4 with hlimit | ⟨x, h1, h2, hne⟩
    · exact Or.inl hlimit
    · have hx : x = ip4 := by omega
      exact Or.inr (hx ▸ hne)

theorem hashValue_eq (src : ByteBuffer) (p : Nat) (hfit : p + 4 ≤ src.size) :
    ∃ h, hashValue src p = some h := by
  unfold hashValue
  rw [loadWord_eq hfit]
  exact ⟨_, rfl⟩

/-- Every cell holds a position before `p`. -/
def HashTable.Before (table : HashTable) (p : Nat) : Prop := ∀ h, (table h).toNat < p

theorem HashTable.Before.mono (ht : table.Before a) (hab : a ≤ b) : table.Before b :=
  fun h => (ht h).trans_le hab

theorem HashTable.Before.record {h p : Nat} (ht : table.Before a) (hp : p < a) :
    (table.record h p).Before a := by
  intro h'
  unfold HashTable.record
  by_cases heq : h' = h
  · rw [heq, Function.update_self, BitVec.toNat_ofNat]
    exact (Nat.mod_le p _).trans_lt hp
  · rw [Function.update_of_ne heq]
    exact ht h'

/-- A match ends four bytes before the limit of matches at the latest, and is near enough. -/
theorem findMatch_spec (src : ByteBuffer) (limit fuel attempts h : Nat)
    (hfuel : limit - ip < fuel) (hatt : 64 ≤ attempts) (hsize : limit + 4 ≤ src.size) (ht : table.Before ip) :
    ∃ found, findMatch src limit fuel attempts ip h table = some found ∧
      match found with
      | .lastLiterals => True
      | .found ip' ref table' => ip ≤ ip' ∧ ip' < limit ∧ ref < ip' ∧ ip' - ref ≤ 65535 ∧
          Agrees src.bytes (ip' - ref) ip' (ip' + 4) ∧ table'.Before (ip' + 1) := by
  induction fuel generalizing ip attempts h table with
  | zero => exact absurd hfuel (Nat.not_lt_zero _)
  | succ fuel ih =>
    have hstep : 1 ≤ attempts / 2 ^ skipStrength := by
      unfold skipStrength
      omega
    unfold findMatch
    by_cases hlast : limit < ip + attempts / 2 ^ skipStrength
    · rw [if_pos hlast]
      exact ⟨.lastLiterals, rfl, trivial⟩
    · obtain ⟨forwardH, hhash⟩ := hashValue_eq src (ip + attempts / 2 ^ skipStrength)
        (by omega)
      have href := ht h
      obtain ⟨same, hsame, hiff⟩ := isMatch_eq src
        (Nat.sub_le ip (table h).toNat) (by omega)
      rw [Nat.sub_sub_self href.le] at hsame
      have hbefore : (table.record h ip).Before (ip + 1) :=
        (ht.mono (Nat.le_succ ip)).record (Nat.lt_succ_self ip)
      rw [if_neg hlast, hhash]
      simp only [Option.bind_eq_bind, Option.bind_some, hsame]
      cases same with
      | true =>
        obtain ⟨hnear, hag⟩ := hiff.mp rfl
        exact ⟨_, rfl, le_rfl, by omega, href, hnear, hag, hbefore⟩
      | false =>
        obtain ⟨found, hrun, hfound⟩ := @ih (ip + attempts / 2 ^ skipStrength)
          (table.record h ip) (attempts + 1) forwardH (by omega)
          (by omega) (hbefore.mono (by omega))
        refine ⟨found, hrun, ?_⟩
        cases found with
        | lastLiterals => trivial
        | found ip' ref table' =>
          obtain ⟨hle, hrest⟩ := hfound
          exact ⟨by omega, hrest⟩

theorem catchUp_spec (src : ByteBuffer) {anchor ref ip : Nat} (hip : ref < ip)
    (hsize : ip ≤ src.size) (ha : anchor ≤ ip) :
    ∃ ref' ip', catchUp src anchor ref ip = some (ref', ip') ∧ anchor ≤ ip' ∧ ip' ≤ ip ∧
      ref' < ip' ∧ ip' - ref' = ip - ref ∧ Agrees src.bytes (ip - ref) ip' ip := by
  induction ref generalizing ip with
  | zero => exact ⟨0, ip, rfl, ha, le_rfl, hip, rfl, agrees_refl⟩
  | succ ref ih =>
    rw [catchUp]
    by_cases hlt : anchor < ip
    · obtain ⟨same, hsame, hiff⟩ := sameWord_eq src (n := 1)
        (show ip - (ref + 1) ≤ ip - 1 by omega) (by omega)
      rw [show ip - 1 - (ip - (ref + 1)) = ref by omega] at hsame
      rw [if_pos hlt, hsame, Option.bind_some]
      cases same with
      | true =>
        have hag := hiff.mp rfl
        obtain ⟨ref', ip', hrun, ha', hle, href, hdist, hrest⟩ := @ih (ip - 1) (by omega)
          (by omega) (by omega)
        rw [show ip - 1 - ref = ip - (ref + 1) by omega] at hdist hrest
        rw [show ip - 1 + 1 = ip by omega] at hag
        exact ⟨ref', ip', hrun, ha', by omega, href, hdist, hrest.trans hag⟩
      | false => exact ⟨ref + 1, ip, rfl, ha, le_rfl, hip, rfl, agrees_refl⟩
    · rw [if_neg hlt]
      exact ⟨ref + 1, ip, rfl, ha, le_rfl, hip, rfl, agrees_refl⟩

end

end Hammer2
