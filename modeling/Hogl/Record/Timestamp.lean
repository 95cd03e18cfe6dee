import Mathlib.Algebra.Group.Int.Defs
import Mathlib.Algebra.Group.Nat.Defs
import Mathlib.Data.List.Basic

namespace Hogl

/-! # Timestamps

`include/hogl/detail/timestamp.hpp` on a little-endian machine, in both
builds: with `HOGL_TIMESTAMP_USE_TIMESPEC_FORMAT` the union holds seconds and
nanoseconds, without it plain nanoseconds.  The rest of the development is
about the second build, where a timestamp is its 64-bit value. -/

/-- `struct timespec`. -/
structure Timespec where
  sec : Int64
  nsec : Int64
deriving DecidableEq

/-- The union `_v`. -/
structure Timestamp where
  u64 : UInt64
deriving DecidableEq

inductive TimestampFormat where
  | timespec
  | nanoseconds
deriving Repr, DecidableEq

namespace Timestamp

def nsecPerSec : Nat := 1000000000

/-- `_v.u32.sec`, the word at the lower address. -/
def sec (ts : Timestamp) : UInt32 := UInt32.ofNat ts.u64.toNat

/-- `_v.u32.nsec`. -/
def nsec (ts : Timestamp) : UInt32 := UInt32.ofNat (ts.u64.toNat / 2 ^ 32)

/-- Both words of `_v.u32` assigned. -/
def ofWords (sec nsec : UInt32) : Timestamp := ⟨UInt64.ofNat (sec.toNat + 2 ^ 32 * nsec.toNat)⟩

def less (left right : Timestamp) : Bool := left.u64 < right.u64

def greater (left right : Timestamp) : Bool := left.u64 > right.u64

def equal (left right : Timestamp) : Bool := left.u64 == right.u64

def fromTimespec (ts : Timespec) : TimestampFormat → Timestamp
  | .timespec => ofWords ts.sec.toUInt64.toUInt32 ts.nsec.toUInt64.toUInt32
  | .nanoseconds => ⟨ts.sec.toUInt64 * UInt64.ofNat nsecPerSec + ts.nsec.toUInt64⟩

def toTimespec (ts : Timestamp) : TimestampFormat → Timespec
  | .timespec => ⟨ts.sec.toUInt64.toInt64, ts.nsec.toUInt64.toInt64⟩
  | .nanoseconds =>
      ⟨(ts.u64 / UInt64.ofNat nsecPerSec).toInt64, (ts.u64 % UInt64.ofNat nsecPerSec).toInt64⟩

def fromNsec (nsec : UInt64) : TimestampFormat → Timestamp
  | .timespec => ofWords (nsec / UInt64.ofNat nsecPerSec).toUInt32
      (nsec % UInt64.ofNat nsecPerSec).toUInt32
  | .nanoseconds => ⟨nsec⟩

/-- The product and the sum of the `timespec` build are 32 bits wide. -/
def toNsec (ts : Timestamp) : TimestampFormat → UInt64
  | .timespec => (ts.sec * UInt32.ofNat nsecPerSec + ts.nsec).toUInt64
  | .nanoseconds => ts.u64

/-- A right operand of `operator+` or `operator-` that is an integer. -/
inductive Shift where
  | addUint (amount : UInt64)
  | subUint (amount : UInt64)
  | addInt (amount : Int32)
  | subInt (amount : Int32)
deriving DecidableEq

def shift (ts : Timestamp) (format : TimestampFormat) : Shift → Timestamp
  | .addUint amount => fromNsec (ts.toNsec format + amount) format
  | .subUint amount => fromNsec (ts.toNsec format - amount) format
  | .addInt amount => fromNsec (ts.toNsec format + amount.toInt64.toUInt64) format
  | .subInt amount => fromNsec (ts.toNsec format - amount.toInt64.toUInt64) format

/-- What the operand adds, as an integer. -/
def Shift.delta : Shift → Int
  | .addUint amount => amount.toNat
  | .subUint amount => -amount.toNat
  | .addInt amount => amount.toInt
  | .subInt amount => -amount.toInt

/-- The nanosecond values whose seconds fit into 32 bits. -/
def limit : Nat := 2 ^ 32 * nsecPerSec

/-- The two builds do the same with these nanosecond values. -/
structure Agree (first second : UInt64) : Prop where
  roundTrip : (fromNsec first .timespec).toNsec .timespec = first
  less : (fromNsec first .timespec).less (fromNsec second .timespec) = decide (first < second)
  greater : (fromNsec first .timespec).greater (fromNsec second .timespec) =
    decide (first > second)
  equal : (fromNsec first .timespec).equal (fromNsec second .timespec) = decide (first = second)
  shift : ∀ operand : Shift, 0 ≤ (first.toNat : Int) + operand.delta →
    (first.toNat : Int) + operand.delta < limit →
    (fromNsec first .timespec).shift .timespec operand =
      fromNsec (((fromNsec first .nanoseconds).shift .nanoseconds operand).toNsec .nanoseconds)
        .timespec
  timespec : ∀ (format : TimestampFormat) (ts : Timespec), 0 ≤ ts.sec.toInt →
    ts.sec.toInt < 2 ^ 32 → 0 ≤ ts.nsec.toInt → ts.nsec.toInt < nsecPerSec →
    (fromTimespec ts format).toTimespec format = ts

/-! ## Words -/

theorem ofWords_toNat (sec nsec : UInt32) :
    (ofWords sec nsec).u64.toNat = sec.toNat + 2 ^ 32 * nsec.toNat := by
  have low := sec.toNat_lt
  have high := nsec.toNat_lt
  rw [ofWords, UInt64.toNat_ofNat', Nat.mod_eq_of_lt]
  omega

@[simp] theorem sec_ofWords (sec nsec : UInt32) : (ofWords sec nsec).sec = sec := by
  have low := sec.toNat_lt
  rw [Timestamp.sec, ofWords_toNat, ← UInt32.toNat_inj, UInt32.toNat_ofNat']
  omega

@[simp] theorem nsec_ofWords (sec nsec : UInt32) : (ofWords sec nsec).nsec = nsec := by
  have low := sec.toNat_lt
  have high := nsec.toNat_lt
  rw [Timestamp.nsec, ofWords_toNat, ← UInt32.toNat_inj, UInt32.toNat_ofNat']
  omega

theorem nsecPerSec_toNat : (UInt64.ofNat nsecPerSec).toNat = 1000000000 := rfl

theorem fromNsec_words {value : UInt64} (bound : value.toNat < limit) :
    (value / UInt64.ofNat nsecPerSec).toUInt32.toNat = value.toNat / 1000000000 ∧
    (value % UInt64.ofNat nsecPerSec).toUInt32.toNat = value.toNat % 1000000000 := by
  rw [limit, nsecPerSec] at bound
  rw [UInt64.toNat_toUInt32, UInt64.toNat_toUInt32, UInt64.toNat_div, UInt64.toNat_mod,
    nsecPerSec_toNat]
  omega

/-- In the packed value the nanoseconds are the high word. -/
theorem fromNsec_toNat {value : UInt64} (bound : value.toNat < limit) :
    (fromNsec value .timespec).u64.toNat =
      value.toNat / 1000000000 + 2 ^ 32 * (value.toNat % 1000000000) := by
  obtain ⟨secEq, nsecEq⟩ := fromNsec_words bound
  rw [fromNsec, ofWords_toNat, secEq, nsecEq]

/-- The 32-bit product keeps the nanoseconds modulo the word size only. -/
theorem toNsec_fromNsec_toNat {value : UInt64} (bound : value.toNat < limit) :
    ((fromNsec value .timespec).toNsec .timespec).toNat = value.toNat % 2 ^ 32 := by
  obtain ⟨secEq, nsecEq⟩ := fromNsec_words bound
  have factor : (UInt32.ofNat nsecPerSec).toNat = 1000000000 := rfl
  rw [toNsec, fromNsec, sec_ofWords, nsec_ofWords, UInt32.toNat_toUInt64, UInt32.toNat_add,
    UInt32.toNat_mul, secEq, nsecEq, factor]
  omega

theorem toNsec_fromNsec_iff {value : UInt64} (bound : value.toNat < limit) :
    (fromNsec value .timespec).toNsec .timespec = value ↔ value.toNat < 2 ^ 32 := by
  rw [← UInt64.toNat_inj, toNsec_fromNsec_toNat bound]
  omega

/-! ## Order -/

/-- The earlier value does not have the later nanosecond within its second. -/
def Ordered (first second : UInt64) : Prop :=
  (first ≤ second → first.toNat % nsecPerSec ≤ second.toNat % nsecPerSec) ∧
  (second ≤ first → second.toNat % nsecPerSec ≤ first.toNat % nsecPerSec)

theorem less_iff {first second : UInt64} (firstBound : first.toNat < limit)
    (secondBound : second.toNat < limit) :
    (fromNsec first .timespec).less (fromNsec second .timespec) = true ↔
      first.toNat % 1000000000 < second.toNat % 1000000000 ∨
      first.toNat % 1000000000 = second.toNat % 1000000000 ∧
        first.toNat / 1000000000 < second.toNat / 1000000000 := by
  rw [limit, nsecPerSec] at firstBound secondBound
  rw [less, decide_eq_true_iff, UInt64.lt_iff_toNat_lt, fromNsec_toNat firstBound,
    fromNsec_toNat secondBound]
  omega

theorem equal_iff {first second : UInt64} (firstBound : first.toNat < limit)
    (secondBound : second.toNat < limit) :
    (fromNsec first .timespec).equal (fromNsec second .timespec) = true ↔ first = second := by
  rw [limit, nsecPerSec] at firstBound secondBound
  rw [equal, beq_iff_eq, ← UInt64.toNat_inj, ← UInt64.toNat_inj, fromNsec_toNat firstBound,
    fromNsec_toNat secondBound]
  omega

/-- `operator<` and `operator>` both follow the order of the values exactly
for ordered pairs. -/
theorem ordered_iff {first second : UInt64} (firstBound : first.toNat < limit)
    (secondBound : second.toNat < limit) :
    Ordered first second ↔
      (fromNsec first .timespec).less (fromNsec second .timespec) = decide (first < second) ∧
      (fromNsec first .timespec).greater (fromNsec second .timespec) = decide (first > second) := by
  have forward := less_iff firstBound secondBound
  have backward := less_iff secondBound firstBound
  have lessEq (holds : Bool) (order : Prop) [Decidable order] :
      holds = decide order ↔ (holds = true ↔ order) := by
    rw [Bool.eq_iff_iff, decide_eq_true_iff]
  have greaterEq : (fromNsec first .timespec).greater (fromNsec second .timespec) =
      (fromNsec second .timespec).less (fromNsec first .timespec) := rfl
  rw [greaterEq, lessEq, lessEq, forward, backward, Ordered, nsecPerSec, gt_iff_lt]
  simp only [UInt64.lt_iff_toNat_lt, UInt64.le_iff_toNat_le]
  omega

/-! ## Timespecs -/

theorem toUInt64_toNat {value : Int64} (bound : Nat) (nonnegative : 0 ≤ value.toInt)
    (below : value.toInt < bound) : value.toUInt64.toNat < bound := by
  have sign : 0 ≤ value := Int64.le_iff_toInt_le.mpr nonnegative
  rw [Int64.toNat_toUInt64_of_le sign]
  have clamped := Int64.cast_toNatClampNeg value sign
  omega

/-- A number that fits keeps its value in a 32-bit word. -/
theorem word_toInt64 {value : Int64} (fits : value.toUInt64.toNat < 2 ^ 32) :
    value.toUInt64.toUInt32.toUInt64.toInt64 = value := by
  have whole : value.toUInt64.toUInt32.toUInt64 = value.toUInt64 := by
    rw [← UInt64.toNat_inj, UInt32.toNat_toUInt64, UInt64.toNat_toUInt32, Nat.mod_eq_of_lt fits]
  rw [whole, Int64.toInt64_toUInt64]

theorem toTimespec_fromTimespec (format : TimestampFormat) (ts : Timespec)
    (secNonnegative : 0 ≤ ts.sec.toInt) (secBound : ts.sec.toInt < 2 ^ 32)
    (nsecNonnegative : 0 ≤ ts.nsec.toInt) (nsecBound : ts.nsec.toInt < nsecPerSec) :
    (fromTimespec ts format).toTimespec format = ts := by
  have secFits := toUInt64_toNat (2 ^ 32) secNonnegative secBound
  have nsecFits := toUInt64_toNat nsecPerSec nsecNonnegative nsecBound
  rw [nsecPerSec] at nsecFits
  cases format with
  | timespec =>
      simp only [fromTimespec, toTimespec, sec_ofWords, nsec_ofWords, word_toInt64 secFits,
        word_toInt64 (Nat.lt_trans nsecFits (by decide))]
  | nanoseconds =>
      have total : (ts.sec.toUInt64 * UInt64.ofNat nsecPerSec + ts.nsec.toUInt64).toNat =
          ts.sec.toUInt64.toNat * 1000000000 + ts.nsec.toUInt64.toNat := by
        rw [UInt64.toNat_add, UInt64.toNat_mul, nsecPerSec_toNat]
        omega
      have secEq : (ts.sec.toUInt64 * UInt64.ofNat nsecPerSec + ts.nsec.toUInt64) /
          UInt64.ofNat nsecPerSec = ts.sec.toUInt64 := by
        rw [← UInt64.toNat_inj, UInt64.toNat_div, total, nsecPerSec_toNat]
        omega
      have nsecEq : (ts.sec.toUInt64 * UInt64.ofNat nsecPerSec + ts.nsec.toUInt64) %
          UInt64.ofNat nsecPerSec = ts.nsec.toUInt64 := by
        rw [← UInt64.toNat_inj, UInt64.toNat_mod, total, nsecPerSec_toNat]
        omega
      simp only [fromTimespec, toTimespec, secEq, nsecEq, Int64.toInt64_toUInt64]

/-! ## Agreement -/

/-- Where the nanoseconds come back, an operand acts on the same number in
both builds. -/
theorem shift_agrees {value : UInt64} (whole : (fromNsec value .timespec).toNsec .timespec = value)
    (operand : Shift) :
    (fromNsec value .timespec).shift .timespec operand =
      fromNsec (((fromNsec value .nanoseconds).shift .nanoseconds operand).toNsec .nanoseconds)
        .timespec := by
  cases operand with
  | addUint | subUint | addInt | subInt =>
      rw [shift, whole]
      rfl

end Timestamp

end Hogl
