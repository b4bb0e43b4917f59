import Mathlib.Tactic.Ring

namespace Hammer2

/-- `struct timespec64`. On the LLP64 target `tv_nsec` has 32 bits. -/
structure Timespec64 where
  tvSec : Int64
  tvNsec : Int32
deriving DecidableEq

/-- A value converted to `unsigned long`, which has 32 bits on the LLP64 target. -/
def ulong (x : UInt64) : UInt32 := x.toUInt32

/-- `hammer2_time_to_timespec` -/
def timeToTimespec (xtime : UInt64) : Timespec64 where
  tvSec := (ulong (xtime / 1000000)).toUInt64.toInt64
  tvNsec := ((xtime % 1000000).toUInt32 * 1000).toInt32

/-- `hammer2_timespec_to_time` -/
def timespecToTime (ts : Timespec64) : UInt64 :=
  (ts.tvNsec / 1000).toUInt32.toUInt64 + (ulong ts.tvSec.toUInt64).toUInt64 * 1000000

/-- `ktime_get_real_ts64`; `ticks` is the system time in units of 100ns since 1601. -/
def ktimeGetRealTs64 (ticks : UInt64) : Timespec64 where
  tvSec := ((ticks - 116444736000000000) / 10000000).toInt64
  tvNsec := ((ticks - 116444736000000000) % 10000000 * 100).toUInt32.toInt32

/-- What `hammer2_update_time` stores for a reading of the clock. -/
def updateTime (ts : Timespec64) : UInt64 :=
  (ulong ts.tvSec.toUInt64 * 1000000 + (ts.tvNsec / 1000).toUInt32).toUInt64

/-- A reading of the clock after the epoch, with less than a second of nanoseconds. -/
structure Timespec64.Reading (ts : Timespec64) : Prop where
  sec : 0 ≤ ts.tvSec.toInt
  nsec : 0 ≤ ts.tvNsec.toInt
  nsec_lt : ts.tvNsec.toInt < 1000000000

section

variable {ts : Timespec64}

theorem toNat_of_toInt_nonneg {w : Nat} {x : BitVec w} (h : 0 ≤ x.toInt) :
    (x.toNat : Int) = x.toInt := by
  have hbound := x.isLt
  rw [BitVec.toInt_eq_toNat_cond] at h ⊢
  split at h
  next hlt => rw [if_pos hlt]
  next => omega

theorem toInt_of_two_mul_lt {w : Nat} {x : BitVec w} (h : 2 * x.toNat < 2 ^ w) :
    x.toInt = x.toNat := by
  rw [BitVec.toInt_eq_toNat_cond, if_pos h]

theorem toNat_toUInt32_of_nonneg {x : Int32} (h : 0 ≤ x.toInt) :
    (x.toUInt32.toNat : Int) = x.toInt :=
  toNat_of_toInt_nonneg h

theorem toNat_toUInt64_of_nonneg {x : Int64} (h : 0 ≤ x.toInt) :
    (x.toUInt64.toNat : Int) = x.toInt :=
  toNat_of_toInt_nonneg h

theorem toInt_toInt32_of_lt {x : UInt32} (h : x.toNat < 2147483648) :
    x.toInt32.toInt = x.toNat :=
  toInt_of_two_mul_lt (x := x.toBitVec) (Nat.mul_lt_mul_of_pos_left h Nat.two_pos)

theorem toInt_toInt64_of_lt {x : UInt64} (h : x.toNat < 9223372036854775808) :
    x.toInt64.toInt = x.toNat :=
  toInt_of_two_mul_lt (x := x.toBitVec) (Nat.mul_lt_mul_of_pos_left h Nat.two_pos)

/-- The microseconds of a number of nanoseconds that is not negative. -/
theorem toNat_usec {n : Int32} (h : 0 ≤ n.toInt) :
    ((n / 1000).toUInt32.toNat : Int) = n.toInt / 1000 := by
  have hdiv : (n / 1000).toInt = n.toInt / 1000 := by
    rw [Int32.toInt_div_of_ne_right n 1000 (by decide)]
    exact Int.tdiv_eq_ediv_of_nonneg h
  have hnonneg : 0 ≤ (n / 1000).toInt := by omega
  rw [toNat_toUInt32_of_nonneg hnonneg, hdiv]

theorem toNat_ulong (x : UInt64) : (ulong x).toNat = x.toNat % 4294967296 :=
  UInt64.toNat_toUInt32 x

/-- A reading of the clock after 1970 has a valid second and nanosecond. -/
theorem ktimeGetRealTs64_reading (ticks : UInt64) : (ktimeGetRealTs64 ticks).Reading := by
  obtain ⟨t, ht⟩ : ∃ t, t = ticks - 116444736000000000 := ⟨_, rfl⟩
  have hlt := t.toNat_lt
  have hsec : (t / 10000000).toInt64.toInt = (t / 10000000).toNat := by
    apply toInt_toInt64_of_lt
    rw [UInt64.toNat_div]
    simp only [UInt64.reduceToNat]
    omega
  have hns : (t % 10000000 * 100).toUInt32.toNat = t.toNat % 10000000 * 100 := by
    simp only [UInt64.toNat_toUInt32, UInt64.toNat_mul, UInt64.toNat_mod, UInt64.reduceToNat]
    omega
  have hnsec : (t % 10000000 * 100).toUInt32.toInt32.toInt = (t.toNat % 10000000 * 100 : Nat) := by
    rw [toInt_toInt32_of_lt (by omega), hns]
  unfold ktimeGetRealTs64
  rw [← ht]
  constructor <;> simp only [hsec, hnsec] <;> omega

theorem timespecToTime_timeToTimespec (t : UInt64) :
    (timespecToTime (timeToTimespec t)).toNat =
      t.toNat / 1000000 % 4294967296 * 1000000 + t.toNat % 1000000 := by
  have hlt := t.toNat_lt
  have hns : ((t % 1000000).toUInt32 * 1000).toNat = t.toNat % 1000000 * 1000 := by
    simp only [UInt32.toNat_mul, UInt64.toNat_toUInt32, UInt64.toNat_mod, UInt64.reduceToNat,
      UInt32.reduceToNat]
    omega
  have hnsec : ((t % 1000000).toUInt32 * 1000).toInt32.toInt = (t.toNat % 1000000 * 1000 : Nat) := by
    rw [toInt_toInt32_of_lt (by omega), hns]
  have husec : (((t % 1000000).toUInt32 * 1000).toInt32 / 1000).toUInt32.toNat =
      t.toNat % 1000000 := by
    have husec := toNat_usec (n := ((t % 1000000).toUInt32 * 1000).toInt32) (by omega)
    omega
  have hsec : (ulong (ulong (t / 1000000)).toUInt64).toNat = t.toNat / 1000000 % 4294967296 := by
    rw [toNat_ulong, UInt32.toNat_toUInt64, toNat_ulong, UInt64.toNat_div, Nat.mod_mod]
    rfl
  unfold timespecToTime timeToTimespec
  simp only [UInt64.toUInt64_toInt64, UInt64.toNat_add, UInt64.toNat_mul, UInt32.toNat_toUInt64,
    UInt64.reduceToNat, husec, hsec]
  omega

theorem toNat_updateTime (h : ts.Reading) :
    ((updateTime ts).toNat : Int) =
      (ts.tvSec.toInt * 1000000 + ts.tvNsec.toInt / 1000) % 4294967296 := by
  have husec := toNat_usec h.nsec
  have hsec := toNat_toUInt64_of_nonneg h.sec
  unfold updateTime
  simp only [UInt32.toNat_toUInt64, UInt32.toNat_add, UInt32.toNat_mul, toNat_ulong,
    UInt32.reduceToNat]
  omega

/-- The conversions of an on-disk time and of a reading of the clock are exact while the seconds,
and the microseconds of the reading, fit into an `unsigned long`. -/
theorem time_conversions_exact_iff (t : UInt64) (ts : Timespec64) (h : ts.Reading) :
    (timespecToTime (timeToTimespec t) = t ↔ t.toNat / 1000000 < 4294967296) ∧
      (((updateTime ts).toNat : Int) = ts.tvSec.toInt * 1000000 + ts.tvNsec.toInt / 1000 ↔
        ts.tvSec.toInt * 1000000 + ts.tvNsec.toInt / 1000 < 4294967296) := by
  constructor
  · rw [← UInt64.toNat_inj, timespecToTime_timeToTimespec]
    omega
  · have hsec := h.sec
    have hnsec := h.nsec
    rw [toNat_updateTime h]
    omega

end

/-- The first on-disk time whose seconds do not fit, and a reading of the clock in 2025. -/
theorem time_conversions_wrap :
    timespecToTime (timeToTimespec 4294967296000000) ≠ 4294967296000000 ∧
      (ktimeGetRealTs64 133801632000000000).tvSec = 1735689600 ∧
      (ktimeGetRealTs64 133801632000000000).tvNsec = 0 ∧
      updateTime (ktimeGetRealTs64 133801632000000000) ≠ 1735689600000000 := by
  decide

/-- A reading of the clock in the second hour of 1970. -/
theorem time_conversions_exact_1970 :
    ((updateTime (ktimeGetRealTs64 116444772000000000)).toNat : Int) =
      (ktimeGetRealTs64 116444772000000000).tvSec.toInt * 1000000 +
        (ktimeGetRealTs64 116444772000000000).tvNsec.toInt / 1000 :=
  (time_conversions_exact_iff 0 _ (ktimeGetRealTs64_reading _)).2.mpr (by decide)

end Hammer2
