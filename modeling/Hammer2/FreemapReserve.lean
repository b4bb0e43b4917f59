import Hammer2.Blockref
import Hammer2.FreemapLeaf

namespace Hammer2

def zoneFreemap00 : Nat := 1

def zoneFreemapEnd : Nat := 41

def zoneFreemapInc : Nat := 5

def nFreemaps : Nat := 8

def freemapLevelnPsize : Nat := 32768

def freemapLevelnRadix : Nat := 15

/-- What `hammer2_freemap_reserve` reads and writes of a freemap chain's blockref. -/
structure FreemapBref where
  type : BrefType
  keybits : Nat
  key : Nat
  dataOff : Nat

/-- `H2FMBASE` -/
def h2fmBaseAt (key radix : Nat) : Nat := key / 2 ^ radix * 2 ^ radix

/-- `data_off & ~HAMMER2_OFF_MASK_RADIX` -/
def FreemapBref.off (bref : FreemapBref) : Nat := bref.dataOff / 64 * 64

/-- The rotation index of the next copy; a failed assertion is `none`. -/
def freemapReserveIndex (bref : FreemapBref) : Option Nat :=
  if bref.off = 0 then some 0
  else
    let off := bref.off % segSize / 65536
    if zoneFreemap00 ≤ off ∧ off < zoneFreemapEnd then
      let index := (off - zoneFreemap00) / zoneFreemapInc
      if index < nFreemaps then some (if index + 1 = nFreemaps then 0 else index + 1)
      else none
    else none

/-- The type each level asserts and its `HAMMER2_ZONEFM_LEVEL`. -/
def zonefmLevel (keybits : Nat) : Option (BrefType × Nat) :=
  if keybits = 62 then some (.freemapNode, 4)
  else if keybits = 54 then some (.freemapNode, 3)
  else if keybits = 46 then some (.freemapNode, 2)
  else if keybits = 38 then some (.freemapNode, 1)
  else if keybits = 30 then some (.freemapLeaf, 0)
  else none

/-- The offset of copy `index` of the freemap block at `key`. -/
def reservedOff (key keybits level index : Nat) : Nat :=
  h2fmBaseAt key keybits + (index * zoneFreemapInc + zoneFreemap00 + level) * 65536

/-- `hammer2_freemap_reserve`; a failed assertion or a bad radix is `none`. -/
def freemapReserve (bref : FreemapBref) (radix : Nat) : Option FreemapBref :=
  (freemapReserveIndex bref).bind fun index =>
    (zonefmLevel bref.keybits).bind fun (type, level) =>
      if bref.type = type ∧ 2 ^ radix = freemapLevelnPsize then
        some { bref with dataOff := reservedOff bref.key bref.keybits level index ||| radix }
      else none

/-- The blockref after `n` modifications, each after a flush. -/
def reserveTimes (bref : FreemapBref) : Nat → Option FreemapBref
  | 0 => some bref
  | n + 1 => (reserveTimes bref n).bind fun r => freemapReserve r freemapLevelnRadix

/-- A freemap chain as it is created: a type that goes with its level, a key aligned to it and no
block yet. -/
structure FreemapBref.Fresh (bref : FreemapBref) : Prop where
  level : ∃ level, zonefmLevel bref.keybits = some (bref.type, level)
  aligned : bref.key % 2 ^ bref.keybits = 0
  dataOff : bref.dataOff = 0

/-- The bytes `[off, off + 32KB)` of two blocks do not meet. -/
def FreemapBref.Apart (r s : FreemapBref) : Prop :=
  r.off + freemapLevelnPsize ≤ s.off ∨ s.off + freemapLevelnPsize ≤ r.off

theorem zonefmLevel_some {keybits level : Nat} {type : BrefType}
    (h : zonefmLevel keybits = some (type, level)) :
    level < 5 ∧ keybits = 8 * level + 30 ∧ (type = .freemapLeaf ↔ level = 0) := by
  unfold zonefmLevel at h
  split at h
  next hk => cases h; exact ⟨by omega, hk, by simp⟩
  next =>
    split at h
    next hk => cases h; exact ⟨by omega, hk, by simp⟩
    next =>
      split at h
      next hk => cases h; exact ⟨by omega, hk, by simp⟩
      next =>
        split at h
        next hk => cases h; exact ⟨by omega, hk, by simp⟩
        next =>
          split at h
          next hk => cases h; exact ⟨by omega, hk, by simp⟩
          next => cases h

/-- Every level starts on a gigabyte. -/
theorem h2fmBaseAt_mod (key level : Nat) :
    h2fmBaseAt key (8 * level + 30) % freemapLevel1Size = 0 := by
  have hpow : 2 ^ (8 * level + 30) = freemapLevel1Size * 2 ^ (8 * level) := by
    rw [Nat.pow_add, Nat.mul_comm]
    rfl
  unfold h2fmBaseAt
  rw [hpow, ← Nat.mul_assoc, Nat.mul_comm (key / _) freemapLevel1Size, Nat.mul_assoc]
  exact Nat.mul_mod_right _ _

theorem h2fmBaseAt_aligned {key radix : Nat} (h : key % 2 ^ radix = 0) :
    h2fmBaseAt key radix = key := Nat.div_mul_cancel (Nat.dvd_of_mod_eq_zero h)

theorem or_radix {off : Nat} (h : off % 64 = 0) : (off ||| freemapLevelnRadix) / 64 * 64 = off := by
  have hoff : off = 2 ^ 6 * (off / 64) := by omega
  have hor : off ||| freemapLevelnRadix = off + freemapLevelnRadix := by
    have heq := Nat.two_pow_add_eq_or_of_lt (i := 6) (b := freemapLevelnRadix) (by decide)
      (off / 64)
    rw [← hoff] at heq
    exact heq.symm
  rw [hor]
  unfold freemapLevelnRadix
  omega

section

variable (key : Nat) {level index : Nat}

/-- Where a copy lies in the reserve at the start of its zone. -/
theorem reservedOff_mod (hlevel : level < 5) (hindex : index < nFreemaps) :
    reservedOff key (8 * level + 30) level index % freemapLevel1Size =
      (index * zoneFreemapInc + zoneFreemap00 + level) * 65536 := by
  have hbase := h2fmBaseAt_mod key level
  unfold reservedOff
  unfold freemapLevel1Size at hbase ⊢
  unfold nFreemaps at hindex
  unfold zoneFreemapInc zoneFreemap00
  omega

theorem reservedOff_mod_seg (hlevel : level < 5) (hindex : index < nFreemaps) :
    reservedOff key (8 * level + 30) level index % segSize / 65536 =
      index * zoneFreemapInc + zoneFreemap00 + level := by
  have hmod := reservedOff_mod key hlevel hindex
  unfold freemapLevel1Size zoneFreemapInc zoneFreemap00 at hmod
  unfold nFreemaps at hindex
  unfold segSize zoneFreemapInc zoneFreemap00
  omega

end

/-- The index a modification goes on with is the one after that of the block in use. -/
theorem freemapReserveIndex_next {bref : FreemapBref} {key level index : Nat}
    (hoff : bref.off = reservedOff key (8 * level + 30) level index) (hlevel : level < 5)
    (hindex : index < nFreemaps) :
    freemapReserveIndex bref = some ((index + 1) % nFreemaps) := by
  have hslot := reservedOff_mod_seg key hlevel hindex
  unfold nFreemaps at hindex
  unfold zoneFreemapInc zoneFreemap00 at hslot
  have hne : bref.off ≠ 0 := by
    intro h0
    rw [← hoff, h0] at hslot
    unfold segSize at hslot
    omega
  unfold freemapReserveIndex
  rw [if_neg hne, hoff, hslot]
  unfold zoneFreemap00 zoneFreemapEnd zoneFreemapInc nFreemaps
  dsimp only
  have hdiv : (index * 5 + 1 + level - 1) / 5 = index := by omega
  rw [if_pos (by omega), hdiv, if_pos hindex]
  congr 1
  split
  next => omega
  next => omega

/-- The blockref after `n` modifications of a fresh one. -/
theorem reserveTimes_eq {bref : FreemapBref} {level : Nat} (hb : bref.dataOff = 0)
    (hl : zonefmLevel bref.keybits = some (bref.type, level)) (n : Nat) :
    ∃ r, reserveTimes bref (n + 1) = some r ∧ r.type = bref.type ∧ r.keybits = bref.keybits ∧
      r.key = bref.key ∧
      r.off = reservedOff bref.key (8 * level + 30) level (n % nFreemaps) := by
  obtain ⟨hlevel, hkeybits, -⟩ := zonefmLevel_some hl
  have hstep : ∀ r : FreemapBref, ∀ index, r.type = bref.type → r.keybits = bref.keybits →
      r.key = bref.key → index < nFreemaps → freemapReserveIndex r = some index →
      ∃ r', freemapReserve r freemapLevelnRadix = some r' ∧ r'.type = bref.type ∧
        r'.keybits = bref.keybits ∧ r'.key = bref.key ∧
        r'.off = reservedOff bref.key (8 * level + 30) level index := by
    intro r index htype hbits hkey hindex hnext
    have hlr : zonefmLevel r.keybits = some (r.type, level) := by rw [htype, hbits]; exact hl
    have hmod := reservedOff_mod bref.key hlevel hindex
    have h64 : reservedOff bref.key (8 * level + 30) level index % 64 = 0 := by
      unfold freemapLevel1Size at hmod
      omega
    refine ⟨{ r with dataOff := reservedOff r.key r.keybits level index ||| freemapLevelnRadix },
      ?_, htype, hbits, hkey, ?_⟩
    · unfold freemapReserve
      rw [hnext, Option.bind_some, hlr, Option.bind_some]
      exact if_pos ⟨rfl, rfl⟩
    · show (reservedOff r.key r.keybits level index ||| freemapLevelnRadix) / 64 * 64 = _
      rw [hkey, hbits, hkeybits]
      exact or_radix h64
  induction n with
  | zero =>
    have hfirst : freemapReserveIndex bref = some 0 := by
      unfold freemapReserveIndex
      apply if_pos
      unfold FreemapBref.off
      rw [hb]
    exact hstep bref 0 rfl rfl rfl (by decide) hfirst
  | succ n ih =>
    obtain ⟨r, hr, htype, hbits, hkey, hoff⟩ := ih
    have hindex : n % nFreemaps < nFreemaps := Nat.mod_lt _ (by decide)
    have hnext := freemapReserveIndex_next hoff hlevel hindex
    have hmod : (n % nFreemaps + 1) % nFreemaps = (n + 1) % nFreemaps := by
      unfold nFreemaps
      omega
    rw [hmod] at hnext
    obtain ⟨r', hr', hrest⟩ := hstep r _ htype hbits hkey (Nat.mod_lt _ (by decide)) hnext
    refine ⟨r', ?_, hrest⟩
    show (reserveTimes bref (n + 1)).bind _ = _
    rw [hr]
    exact hr'

/-- Blocks of different freemap nodes never meet: the slot tells the levels apart, the zone the
nodes of one level. -/
theorem reservedOff_apart {key key' level level' index index' : Nat} (hlevel : level < 5)
    (hlevel' : level' < 5) (hindex : index < nFreemaps) (hindex' : index' < nFreemaps)
    (hne : level ≠ level' ∨
      h2fmBaseAt key (8 * level + 30) ≠ h2fmBaseAt key' (8 * level' + 30)) :
    reservedOff key (8 * level + 30) level index + freemapLevelnPsize ≤
        reservedOff key' (8 * level' + 30) level' index' ∨
      reservedOff key' (8 * level' + 30) level' index' + freemapLevelnPsize ≤
        reservedOff key (8 * level + 30) level index := by
  have hbase := h2fmBaseAt_mod key level
  have hbase' := h2fmBaseAt_mod key' level'
  unfold freemapLevel1Size at hbase hbase'
  unfold nFreemaps at hindex hindex'
  unfold reservedOff freemapLevelnPsize zoneFreemapInc zoneFreemap00
  generalize h2fmBaseAt key (8 * level + 30) = base at *
  generalize h2fmBaseAt key' (8 * level' + 30) = base' at *
  rcases Nat.lt_trichotomy base base' with hlt | heq | hgt
  · omega
  · have hlevels : level ≠ level' := by
      apply hne.resolve_right
      exact fun h => h heq
    have hslots : index * 5 + 1 + level ≠ index' * 5 + 1 + level' := by omega
    omega
  · omega

/-- Every copy of a freemap block lies in the reserve of its zone behind the volume header's
block, no other node or leaf is ever given it, and it comes up again every eighth time. -/
theorem freemapReserve_rotates {bref : FreemapBref} (hb : bref.Fresh) (n : Nat) :
    ∃ r, reserveTimes bref (n + 1) = some r ∧
      bref.key + 65536 ≤ r.off ∧ r.off + freemapLevelnPsize ≤ bref.key + zoneSeg ∧
      bref.key % freemapLevel1Size = 0 ∧
      (∀ other : FreemapBref, other.Fresh →
        (other.keybits ≠ bref.keybits ∨ other.key ≠ bref.key) →
        ∀ m s, reserveTimes other (m + 1) = some s → r.Apart s) ∧
      ∀ m s, reserveTimes bref (m + 1) = some s →
        (s.off = r.off ↔ m % nFreemaps = n % nFreemaps) := by
  obtain ⟨level, hl⟩ := hb.level
  obtain ⟨hlevel, hkeybits, -⟩ := zonefmLevel_some hl
  obtain ⟨r, hr, -, -, -, hoff⟩ := reserveTimes_eq hb.dataOff hl n
  have hkey : h2fmBaseAt bref.key (8 * level + 30) = bref.key :=
    h2fmBaseAt_aligned (hkeybits ▸ hb.aligned)
  have hzone := h2fmBaseAt_mod bref.key level
  rw [hkey] at hzone
  have hindex : n % nFreemaps < nFreemaps := Nat.mod_lt _ (by decide)
  have hval : r.off = bref.key + (n % 8 * 5 + 1 + level) * 65536 := by
    rw [hoff]
    unfold reservedOff
    rw [hkey]
    rfl
  refine ⟨r, hr, ?_, ?_, hzone, ?_, ?_⟩
  · omega
  · unfold freemapLevelnPsize zoneSeg
    omega
  · intro other ho hne m s hs
    obtain ⟨level', hl'⟩ := ho.level
    obtain ⟨hlevel', hkeybits', -⟩ := zonefmLevel_some hl'
    obtain ⟨s', hs', -, -, -, hoff'⟩ := reserveTimes_eq ho.dataOff hl' m
    cases hs'.symm.trans hs
    have hkey' : h2fmBaseAt other.key (8 * level' + 30) = other.key :=
      h2fmBaseAt_aligned (hkeybits' ▸ ho.aligned)
    unfold FreemapBref.Apart
    rw [hoff, hoff']
    apply reservedOff_apart hlevel hlevel' hindex (Nat.mod_lt _ (by decide))
    rw [hkey, hkey']
    omega
  · intro m s hs
    obtain ⟨s', hs', -, -, -, hoff'⟩ := reserveTimes_eq hb.dataOff hl m
    cases hs'.symm.trans hs
    have hval' : s.off = bref.key + (m % 8 * 5 + 1 + level) * 65536 := by
      rw [hoff']
      unfold reservedOff
      rw [hkey]
      rfl
    show s.off = r.off ↔ m % 8 = n % 8
    omega

/-- The second copy of the first leaf against the first of the 256GB node above it. -/
theorem freemapReserve_rotates_first_leaf :
    ∃ r, reserveTimes ⟨.freemapLeaf, 30, 0, 0⟩ (1 + 1) = some r ∧
      ∀ s, reserveTimes ⟨.freemapNode, 38, 0, 0⟩ (0 + 1) = some s → r.Apart s := by
  have hleaf : FreemapBref.Fresh ⟨.freemapLeaf, 30, 0, 0⟩ := ⟨⟨0, rfl⟩, rfl, rfl⟩
  have hnode : FreemapBref.Fresh ⟨.freemapNode, 38, 0, 0⟩ := ⟨⟨1, rfl⟩, rfl, rfl⟩
  obtain ⟨r, hr, -, -, -, hother, -⟩ := freemapReserve_rotates hleaf 1
  exact ⟨r, hr, hother _ hnode (Or.inl (by decide)) 0⟩

end Hammer2
