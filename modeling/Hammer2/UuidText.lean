import Mathlib.Data.List.Basic
import Mathlib.Tactic.IntervalCases

namespace Hammer2

/-- `hammer2_uuid_t`, a `struct uuid` as its bytes in memory. -/
structure Uuid where
  bytes : List UInt8
  length_eq : bytes.length = 16
deriving DecidableEq

def hexval (c : Char) : Option Nat :=
  if '0'.toNat ≤ c.toNat ∧ c.toNat ≤ '9'.toNat then some (c.toNat - '0'.toNat)
  else if 'a'.toNat ≤ c.toNat ∧ c.toNat ≤ 'f'.toNat then some (c.toNat - 'a'.toNat + 10)
  else if 'A'.toNat ≤ c.toNat ∧ c.toNat ≤ 'F'.toNat then some (c.toNat - 'A'.toNat + 10)
  else none

/-- A round of `uuid_parse`: the byte and what is left of the string. -/
def parseByte (p : List Char) : Option (UInt8 × List Char) :=
  match p.dropWhile (· = '-') with
  | c :: c' :: rest =>
    (hexval c).bind fun hi => (hexval c').map fun lo => (UInt8.ofNat (hi * 16 + lo), rest)
  | _ => none

def parseBytes : Nat → List Char → Option (List UInt8)
  | 0, _ => some []
  | n + 1, p => (parseByte p).bind fun (b, p) => (parseBytes n p).map (b :: ·)

theorem length_parseBytes {n : Nat} {p : List Char} {bs : List UInt8}
    (h : parseBytes n p = some bs) : bs.length = n := by
  induction n generalizing p bs with
  | zero =>
    cases Option.some.inj h
    rfl
  | succ n ih =>
    obtain ⟨⟨b, q⟩, _, h⟩ := Option.bind_eq_some_iff.mp h
    obtain ⟨bs', hbs, rfl⟩ := Option.map_eq_some_iff.mp h
    rw [List.length_cons, ih hbs]

/-- `hammer2_uuid_from_string` with `uuid_parse` -/
def uuidFromString (str : List Char) : Option Uuid :=
  (parseBytes 16 str).pmap Uuid.mk fun _ h => length_parseBytes h

def hexChar (n : Nat) : Char := if n < 10 then Char.ofNat (48 + n) else Char.ofNat (87 + n)

/-- The conversion `%0wx` of a number with at most `w` digits. -/
def printHex : Nat → Nat → List Char
  | 0, _ => []
  | w + 1, n => printHex w (n / 16) ++ [hexChar (n % 16)]

def printByte (b : UInt8) : List Char := printHex 2 b.toNat

/-- A field of `struct uuid`, read as a native integer of a little-endian machine. -/
def readLE : List UInt8 → Nat
  | [] => 0
  | b :: bs => b.toNat + 256 * readLE bs

namespace Uuid

def timeLow (u : Uuid) : Nat := readLE (u.bytes.take 4)

def timeMid (u : Uuid) : Nat := readLE ((u.bytes.drop 4).take 2)

def timeHiAndVersion (u : Uuid) : Nat := readLE ((u.bytes.drop 6).take 2)

/-- The bytes `clock_seq_hi_and_reserved` and `clock_seq_low`. -/
def clockSeq (u : Uuid) : List UInt8 := (u.bytes.drop 8).take 2

def node (u : Uuid) : List UInt8 := u.bytes.drop 10

end Uuid

/-- `hammer2_uuid_to_str` -/
def uuidToStr (u : Uuid) : List Char :=
  printHex 8 u.timeLow ++ '-' :: (printHex 4 u.timeMid ++ '-' :: (printHex 4 u.timeHiAndVersion ++
    '-' :: (u.clockSeq.flatMap printByte ++ '-' :: u.node.flatMap printByte)))

/-- A group of `n` hexadecimal digits. -/
structure HexGroup (n : Nat) (g : List Char) : Prop where
  length_eq : g.length = n
  digit : ∀ c ∈ g, hexval c ≠ none

theorem HexGroup.of_all {n : Nat} {g : List Char} (hlen : g.length = n)
    (h : (g.all fun c => (hexval c).isSome) = true) : HexGroup n g := by
  refine ⟨hlen, fun c hc => ?_⟩
  exact Option.isSome_iff_ne_none.mp (List.all_eq_true.mp h c hc)

/-- A canonical uuid string, given by its groups. -/
structure UuidString where
  g1 : List Char
  g2 : List Char
  g3 : List Char
  g4 : List Char
  g5 : List Char
  hex1 : HexGroup 8 g1
  hex2 : HexGroup 4 g2
  hex3 : HexGroup 4 g3
  hex4 : HexGroup 4 g4
  hex5 : HexGroup 12 g5

def UuidString.text (s : UuidString) : List Char :=
  s.g1 ++ '-' :: (s.g2 ++ '-' :: (s.g3 ++ '-' :: (s.g4 ++ '-' :: s.g5)))

/-- `HAMMER2_UUID_STRING`, from which newfs takes the filesystem type of the volume header. -/
def hammer2UuidString : UuidString where
  g1 := "5cbb9ad1".toList
  g2 := "862d".toList
  g3 := "11dc".toList
  g4 := "a94d".toList
  g5 := "01301bb8a9f5".toList
  hex1 := HexGroup.of_all rfl rfl
  hex2 := HexGroup.of_all rfl rfl
  hex3 := HexGroup.of_all rfl rfl
  hex4 := HexGroup.of_all rfl rfl
  hex5 := HexGroup.of_all rfl rfl

/-- A group with its bytes in the opposite order. -/
def swapGroup : List Char → List Char
  | c :: c' :: g => swapGroup g ++ [c, c']
  | g => g

/-- The groups of the three integers read the same in both byte orders, up to the case. -/
def UuidString.OrderFree (s : UuidString) : Prop :=
  ∀ g ∈ [s.g1, s.g2, s.g3], swapGroup (g.map Char.toLower) = g.map Char.toLower

/-- The three integers of a uuid are the same in both byte orders. -/
def Uuid.OrderFree (u : Uuid) : Prop :=
  ∀ field ∈ [u.bytes.take 4, (u.bytes.drop 4).take 2, (u.bytes.drop 6).take 2],
    field.reverse = field

theorem uuidFromString_eq_some {str : List Char} {u : Uuid} :
    uuidFromString str = some u ↔ parseBytes 16 str = some u.bytes := by
  unfold uuidFromString
  rw [Option.pmap_eq_some_iff]
  constructor
  · rintro ⟨bs, _, hbs, rfl⟩
    exact hbs
  · intro h
    exact ⟨u.bytes, u.length_eq, h, rfl⟩

theorem hexval_spec {c : Char} {v : Nat} (h : hexval c = some v) :
    v < 16 ∧ hexChar v = c.toLower ∧ c ≠ '-' := by
  have hascii : ∀ n < 103, ∀ v ∈ hexval (Char.ofNat n),
      v < 16 ∧ hexChar v = (Char.ofNat n).toLower ∧ Char.ofNat n ≠ '-' := by decide
  have hlt : c.toNat < 103 := by
    by_contra hge
    unfold hexval at h
    rw [if_neg, if_neg, if_neg] at h
    · cases h
    all_goals
      simp only [Char.reduceToNat]
      omega
  have hc := hascii c.toNat hlt v (by rw [Char.ofNat_toNat]; exact h)
  rw [Char.ofNat_toNat] at hc
  exact hc

theorem hexval_hexChar {v : Nat} (h : v < 16) : hexval (hexChar v) = some v ∧ hexChar v ≠ '-' := by
  interval_cases v <;> decide

theorem printByte_eq (b : UInt8) :
    printByte b = [hexChar (b.toNat / 16), hexChar (b.toNat % 16)] := by
  have hlt := b.toNat_lt
  have hhi : b.toNat / 16 % 16 = b.toNat / 16 := Nat.mod_eq_of_lt (by omega)
  unfold printByte
  rw [printHex, printHex, printHex, hhi]
  rfl

theorem parseByte_cons {c c' : Char} {hi lo : Nat} {p : List Char} (h : hexval c = some hi)
    (h' : hexval c' = some lo) :
    parseByte (c :: c' :: p) = some (UInt8.ofNat (hi * 16 + lo), p) := by
  obtain ⟨_, _, hne⟩ := hexval_spec h
  unfold parseByte
  rw [List.dropWhile_cons_of_neg (by simpa using hne)]
  simp only [h, h', Option.bind_some, Option.map_some]

theorem parseByte_dash (p : List Char) : parseByte ('-' :: p) = parseByte p := by
  unfold parseByte
  rw [List.dropWhile_cons_of_pos (by decide)]

theorem parseBytes_dash (n : Nat) (p : List Char) :
    parseBytes (n + 1) ('-' :: p) = parseBytes (n + 1) p := by
  rw [parseBytes, parseBytes, parseByte_dash]

/-- The text `g` of `k` bytes is parsed to `bs`, whatever follows. -/
def Parses (k : Nat) (g : List Char) (bs : List UInt8) : Prop :=
  ∀ n p, parseBytes (k + n) (g ++ p) = (parseBytes n p).map (bs ++ ·)

/-- The text of some bytes is parsed back. -/
theorem parses_print (bs : List UInt8) : Parses bs.length (bs.flatMap printByte) bs := by
  induction bs with
  | nil =>
    intro n p
    simp
  | cons b bs ih =>
    intro n p
    have hlt := b.toNat_lt
    obtain ⟨hhi, _⟩ := hexval_hexChar (v := b.toNat / 16) (by omega)
    obtain ⟨hlo, _⟩ := hexval_hexChar (v := b.toNat % 16) (by omega)
    have hb : UInt8.ofNat (b.toNat / 16 * 16 + b.toNat % 16) = b := by
      rw [Nat.div_add_mod', UInt8.ofNat_toNat]
    have hlen : (b :: bs).length + n = bs.length + n + 1 := by
      rw [List.length_cons]
      omega
    rw [hlen, parseBytes, List.flatMap_cons, printByte_eq]
    simp only [List.cons_append, List.nil_append, parseByte_cons hhi hlo, hb, Option.bind_some,
      ih n p, Option.map_map]
    rfl

/-- A group of digits is the text of its bytes, up to the case, and is parsed to them. -/
theorem HexGroup.bytes {k : Nat} {g : List Char} (h : HexGroup (2 * k) g) :
    ∃ bs : List UInt8, bs.length = k ∧ g.map Char.toLower = bs.flatMap printByte ∧
      swapGroup (g.map Char.toLower) = bs.reverse.flatMap printByte ∧ Parses k g bs := by
  induction k generalizing g with
  | zero =>
    obtain rfl := List.length_eq_zero_iff.mp h.length_eq
    exact ⟨[], rfl, rfl, rfl, fun n p => by simp⟩
  | succ k ih =>
    obtain ⟨hlen, hdigit⟩ := h
    match g, hlen with
    | c :: c' :: g, hlen =>
      obtain ⟨bs, hbs, htext, hswap, hparse⟩ := ih (g := g)
        ⟨by simp at hlen; omega, fun x hx => hdigit x (by simp [hx])⟩
      obtain ⟨hi, hhi⟩ := Option.ne_none_iff_exists'.mp (hdigit c (by simp))
      obtain ⟨lo, hlo⟩ := Option.ne_none_iff_exists'.mp (hdigit c' (by simp))
      obtain ⟨hhilt, hhic, _⟩ := hexval_spec hhi
      obtain ⟨hlolt, hloc, _⟩ := hexval_spec hlo
      have hb : (UInt8.ofNat (hi * 16 + lo)).toNat = hi * 16 + lo :=
        UInt8.toNat_ofNat_of_lt (by rw [UInt8.size]; omega)
      have hprint : printByte (UInt8.ofNat (hi * 16 + lo)) = [c.toLower, c'.toLower] := by
        have hdiv : (hi * 16 + lo) / 16 = hi := by omega
        have hmod : (hi * 16 + lo) % 16 = lo := by omega
        rw [printByte_eq, hb, hdiv, hmod, hhic, hloc]
      obtain ⟨b, hbdef⟩ : ∃ b, b = UInt8.ofNat (hi * 16 + lo) := ⟨_, rfl⟩
      rw [← hbdef] at hprint
      refine ⟨b :: bs, by simp [hbs], ?_, ?_, ?_⟩
      · simp [hprint, htext]
      · simp [swapGroup, hswap, hprint]
      · intro n p
        have hn : k + 1 + n = k + n + 1 := by omega
        rw [hn, parseBytes]
        simp only [List.cons_append, parseByte_cons hhi hlo, ← hbdef, Option.bind_some, hparse n p,
          Option.map_map]
        rfl

/-- The native integer of some bytes is printed with the last byte first. -/
theorem printHex_readLE (bs : List UInt8) :
    printHex (2 * bs.length) (readLE bs) = bs.reverse.flatMap printByte := by
  induction bs with
  | nil => rfl
  | cons b bs ih =>
    have hlt := b.toNat_lt
    have h1 : (b.toNat + 256 * readLE bs) / 16 / 16 = readLE bs := by omega
    have h2 : (b.toNat + 256 * readLE bs) / 16 % 16 = b.toNat / 16 := by omega
    have h3 : (b.toNat + 256 * readLE bs) % 16 = b.toNat % 16 := by omega
    have hlen : 2 * (b :: bs).length = 2 * bs.length + 1 + 1 := by
      rw [List.length_cons]
      omega
    rw [hlen, readLE, printHex, printHex, h1, h2, h3, ih]
    simp [printByte_eq]

/-- The bytes of the five groups of a uuid. -/
structure UuidBytes (bs b1 b2 b3 b4 b5 : List UInt8) : Prop where
  eq : bs = b1 ++ (b2 ++ (b3 ++ (b4 ++ b5)))
  len1 : b1.length = 4
  len2 : b2.length = 2
  len3 : b3.length = 2
  len4 : b4.length = 2
  len5 : b5.length = 6

def dashed (g1 g2 g3 g4 g5 : List Char) : List Char :=
  g1 ++ '-' :: (g2 ++ '-' :: (g3 ++ '-' :: (g4 ++ '-' :: g5)))

section

variable {u : Uuid} {b1 b2 b3 b4 b5 c1 c2 c3 c4 c5 : List UInt8}

theorem Uuid.exists_bytes (u : Uuid) : UuidBytes u.bytes (u.bytes.take 4) ((u.bytes.drop 4).take 2)
    ((u.bytes.drop 6).take 2) ((u.bytes.drop 8).take 2) (u.bytes.drop 10) := by
  have hlen := u.length_eq
  constructor
  · rw [← List.drop_drop (i := 2) (j := 8), List.take_append_drop,
      ← List.drop_drop (i := 2) (j := 6), List.take_append_drop,
      ← List.drop_drop (i := 2) (j := 4), List.take_append_drop, List.take_append_drop]
  all_goals
    simp
    omega

/-- `hammer2_uuid_to_str` prints the bytes of the three integers in the opposite order. -/
theorem uuidToStr_eq (h : UuidBytes u.bytes b1 b2 b3 b4 b5) :
    uuidToStr u = dashed (b1.reverse.flatMap printByte) (b2.reverse.flatMap printByte)
      (b3.reverse.flatMap printByte) (b4.flatMap printByte) (b5.flatMap printByte) := by
  obtain ⟨heq, h1, h2, h3, h4, h5⟩ := h
  have ht1 : u.bytes.take 4 = b1 := by rw [heq, List.take_left' h1]
  have hd1 : u.bytes.drop 4 = b2 ++ (b3 ++ (b4 ++ b5)) := by rw [heq, List.drop_left' h1]
  have hd2 : u.bytes.drop 6 = b3 ++ (b4 ++ b5) := by
    rw [← List.drop_drop (i := 2) (j := 4), hd1, List.drop_left' h2]
  have hd3 : u.bytes.drop 8 = b4 ++ b5 := by
    rw [← List.drop_drop (i := 2) (j := 6), hd2, List.drop_left' h3]
  have hd4 : u.bytes.drop 10 = b5 := by
    rw [← List.drop_drop (i := 2) (j := 8), hd3, List.drop_left' h4]
  have hp1 := printHex_readLE b1
  have hp2 := printHex_readLE b2
  have hp3 := printHex_readLE b3
  rw [h1] at hp1
  rw [h2] at hp2
  rw [h3] at hp3
  unfold uuidToStr Uuid.timeLow Uuid.timeMid Uuid.timeHiAndVersion Uuid.clockSeq Uuid.node dashed
  rw [ht1, hd1, hd2, hd3, hd4, List.take_left' h2, List.take_left' h3, List.take_left' h4,
    ← hp1, ← hp2, ← hp3]

theorem parseBytes_dashed {g1 g2 g3 g4 g5 : List Char} (h1 : Parses 4 g1 b1) (h2 : Parses 2 g2 b2)
    (h3 : Parses 2 g3 b3) (h4 : Parses 2 g4 b4) (h5 : Parses 6 g5 b5) :
    parseBytes 16 (dashed g1 g2 g3 g4 g5) = some (b1 ++ (b2 ++ (b3 ++ (b4 ++ b5)))) := by
  have hlast := h5 0 []
  rw [List.append_nil] at hlast
  unfold dashed
  rw [h1 12, parseBytes_dash, h2 10, parseBytes_dash, h3 8, parseBytes_dash, h4 6, parseBytes_dash,
    hlast]
  simp [parseBytes]

theorem dashed_inj {g1 g2 g3 g4 g5 k1 k2 k3 k4 k5 : List Char} (h1 : g1.length = k1.length)
    (h2 : g2.length = k2.length) (h3 : g3.length = k3.length) (h4 : g4.length = k4.length) :
    dashed g1 g2 g3 g4 g5 = dashed k1 k2 k3 k4 k5 ↔
      g1 = k1 ∧ g2 = k2 ∧ g3 = k3 ∧ g4 = k4 ∧ g5 = k5 := by
  unfold dashed
  constructor
  · intro h
    obtain ⟨e1, h⟩ := List.append_inj h h1
    obtain ⟨e2, h⟩ := List.append_inj (List.cons.inj h).2 h2
    obtain ⟨e3, h⟩ := List.append_inj (List.cons.inj h).2 h3
    obtain ⟨e4, h⟩ := List.append_inj (List.cons.inj h).2 h4
    exact ⟨e1, e2, e3, e4, (List.cons.inj h).2⟩
  · rintro ⟨rfl, rfl, rfl, rfl, rfl⟩
    rfl

/-- The text of a canonical string comes back in lower case only if its integers do not depend on
the byte order. -/
theorem uuidToStr_uuidFromString (s : UuidString) :
    (uuidFromString s.text).map uuidToStr = some (s.text.map Char.toLower) ↔ s.OrderFree := by
  obtain ⟨b1, l1, t1, w1, p1⟩ := s.hex1.bytes (k := 4)
  obtain ⟨b2, l2, t2, w2, p2⟩ := s.hex2.bytes (k := 2)
  obtain ⟨b3, l3, t3, w3, p3⟩ := s.hex3.bytes (k := 2)
  obtain ⟨b4, l4, t4, _, p4⟩ := s.hex4.bytes (k := 2)
  obtain ⟨b5, l5, t5, _, p5⟩ := s.hex5.bytes (k := 6)
  have hparse : parseBytes 16 s.text = some (b1 ++ (b2 ++ (b3 ++ (b4 ++ b5)))) :=
    parseBytes_dashed p1 p2 p3 p4 p5
  obtain ⟨u, hu⟩ : ∃ u : Uuid, u.bytes = b1 ++ (b2 ++ (b3 ++ (b4 ++ b5))) :=
    ⟨⟨_, length_parseBytes hparse⟩, rfl⟩
  have hfrom : uuidFromString s.text = some u := uuidFromString_eq_some.mpr (hu ▸ hparse)
  have htext : s.text.map Char.toLower = dashed (b1.flatMap printByte) (b2.flatMap printByte)
      (b3.flatMap printByte) (b4.flatMap printByte) (b5.flatMap printByte) := by
    rw [← t1, ← t2, ← t3, ← t4, ← t5]
    unfold UuidString.text dashed
    simp
  rw [hfrom, htext, Option.map_some, Option.some_inj, uuidToStr_eq ⟨hu, l1, l2, l3, l4, l5⟩,
    dashed_inj (by simp) (by simp) (by simp) rfl]
  unfold UuidString.OrderFree
  rw [t1] at w1
  rw [t2] at w2
  rw [t3] at w3
  simp [t1, t2, t3, w1, w2, w3]

theorem append_five_inj (h1 : b1.length = c1.length) (h2 : b2.length = c2.length)
    (h3 : b3.length = c3.length) :
    b1 ++ (b2 ++ (b3 ++ (b4 ++ b5))) = c1 ++ (c2 ++ (c3 ++ (b4 ++ b5))) ↔
      b1 = c1 ∧ b2 = c2 ∧ b3 = c3 := by
  constructor
  · intro h
    obtain ⟨e1, h⟩ := List.append_inj h h1
    obtain ⟨e2, h⟩ := List.append_inj h h2
    obtain ⟨e3, h⟩ := List.append_inj h h3
    exact ⟨e1, e2, e3⟩
  · rintro ⟨rfl, rfl, rfl⟩
    rfl

/-- The text of a stored uuid is parsed to it only if its integers do not depend on the byte
order. -/
theorem uuidFromString_uuidToStr (u : Uuid) :
    uuidFromString (uuidToStr u) = some u ↔ u.OrderFree := by
  have h := u.exists_bytes
  have hparse : ∀ {k bs}, bs.length = k → Parses k (bs.flatMap printByte) bs := by
    rintro k bs rfl
    exact parses_print bs
  have hprinted := parseBytes_dashed (hparse (List.length_reverse.trans h.len1))
    (hparse (List.length_reverse.trans h.len2)) (hparse (List.length_reverse.trans h.len3))
    (hparse h.len4) (hparse h.len5)
  rw [uuidToStr_eq h, uuidFromString_eq_some, hprinted, Option.some_inj]
  refine (Eq.congr_right h.eq).trans ?_
  rw [append_five_inj List.length_reverse List.length_reverse List.length_reverse]
  unfold Uuid.OrderFree
  simp

/-- The text and the stored form of a uuid agree exactly for the values whose first three fields are
the same in both byte orders. -/
theorem uuid_text_round_trip_iff (s : UuidString) (u : Uuid) :
    ((uuidFromString s.text).map uuidToStr = some (s.text.map Char.toLower) ↔ s.OrderFree) ∧
      (uuidFromString (uuidToStr u) = some u ↔ u.OrderFree) :=
  ⟨uuidToStr_uuidFromString s, uuidFromString_uuidToStr u⟩

end

/-- The filesystem type that newfs stores reads back as another uuid. -/
theorem hammer2_uuid_reads_back_swapped :
    (uuidFromString hammer2UuidString.text).map uuidToStr =
        some "d19abb5c-2d86-dc11-a94d-01301bb8a9f5".toList ∧
      (uuidFromString hammer2UuidString.text).map uuidToStr ≠
        some (hammer2UuidString.text.map Char.toLower) := by
  decide

end Hammer2
