import Hogl.Record.Record
import Hogl.Ring.Ringbuf

namespace Hogl.Post

open Hogl.Ring

/-! # Rings of records

The sizing done by the constructor in `src/ringbuf.cc`, and the posting path
of `include/hogl/post.hpp` and `src/post.cc`.  The locked variants run the
same steps under the mutex of the ring. -/

/-- The fields of `ringbuf::options` that decide the layout. -/
structure Options where
  capacity : UInt32
  blocking : Bool
  recordTailroom : UInt32
deriving Repr, DecidableEq

/-- The loop of `__roundup_log2`; `fuel` runs out where it would shift by the
width of the word. -/
def roundupLog2From (value : UInt32) : Nat → Nat → Option Nat
  | 0, _ => none
  | fuel + 1, log =>
      if (1 : UInt32) <<< UInt32.ofNat log < value then roundupLog2From value fuel (log + 1)
      else some log

def roundupLog2 (value : UInt32) : Option Nat := roundupLog2From value 32 0

def roundupPower2 (size : UInt32) : Option UInt32 :=
  (roundupLog2 size).map fun log => 1 <<< UInt32.ofNat log

structure RecordRing where
  ring : Ringbuf Record
  recShift : Nat
  recTailroom : UInt32

/-- A record of the zeroed record block, with the bytes behind its header. -/
def zeroRecord (recordSize : Nat) : Record :=
  { area := none, timestamp := 0, seqnum := 0, sect := 0, argtype := 0,
    argval := List.replicate (recordSize - Record.headerSize) 0 }

namespace RecordRing

/-- `ringbuf::ringbuf`, with an allocation that succeeds. -/
def construct (opts : Options) : Option RecordRing := do
  let slots ← roundupPower2 opts.capacity
  let argvalSize := UInt32.ofNat Record.argvalSize
  let extra := if argvalSize < opts.recordTailroom then opts.recordTailroom - argvalSize else 0
  let recShift ← roundupLog2 (UInt32.ofNat Record.byteSize + extra)
  let recTailroom := 1 <<< UInt32.ofNat recShift - UInt32.ofNat Record.headerSize
  return {
    ring := .fresh (slots - 1) opts.blocking fun _ => zeroRecord (2 ^ recShift)
    recShift
    recTailroom }

/-- `ringbuf::reset`. -/
def reset (ring : RecordRing) : RecordRing :=
  { ring with ring := .fresh ring.ring.capacity ring.ring.blocking ring.ring.slots }

/-- Claim a slot and fill the common fields of its record. -/
def beginUnlocked (ring : RecordRing) (timestamp : UInt64) (area : Option Area) (sect : UInt32) :
    UInt32 × RecordRing :=
  let slot := ring.ring.pushBegin
  let record := { ring.ring.slots slot with
    seqnum := BitVec.ofNat 52 ring.ring.seqnum.toNat
    timestamp
    area
    sect := BitVec.ofNat 12 sect.toNat }
  (slot, { ring with ring := (ring.ring.store slot record).incSeqnum })

def finishUnlocked (ring : RecordRing) : PushOutcome × RecordRing :=
  let (outcome, pushed) := ring.ring.pushCommit
  (outcome, { ring with ring := pushed })

def pushUnlocked (ring : RecordRing) (timestamp : UInt64) (area : Option Area) (sect : UInt32)
    (args : List Arg) (scratch : Argpack) : Option (PushOutcome × RecordRing) := do
  let (slot, ring) := ring.beginUnlocked timestamp area sect
  let record ← (ring.ring.slots slot).encodeArgs ring.recTailroom args scratch
  return finishUnlocked { ring with ring := ring.ring.store slot record }

end RecordRing

/-! ## Sizing -/

theorem shiftLeft_one_toNat (log : Nat) (small : log < 32) :
    ((1 : UInt32) <<< UInt32.ofNat log).toNat = 2 ^ log := by
  have power : 2 ^ log < 2 ^ 32 := Nat.pow_lt_pow_right (by decide) small
  rw [UInt32.toNat_shiftLeft, UInt32.toNat_ofNat', Nat.mod_mod_of_dvd _ (by decide),
    Nat.mod_eq_of_lt small, Nat.shiftLeft_eq]
  exact (Nat.mod_eq_of_lt (by simpa using power)).trans (Nat.one_mul _)

/-- The loop stops at the least exponent whose power reaches the value. -/
theorem roundupLog2From_spec {value : UInt32} {fuel log result : Nat} (range : log + fuel = 32)
    (found : roundupLog2From value fuel log = some result)
    (below : ∀ earlier < log, 2 ^ earlier < value.toNat) :
    result < 32 ∧ value.toNat ≤ 2 ^ result ∧ ∀ earlier < result, 2 ^ earlier < value.toNat := by
  induction fuel generalizing log with
  | zero => simp [roundupLog2From] at found
  | succ fuel ih =>
      have power := shiftLeft_one_toNat log (by omega)
      simp only [roundupLog2From, UInt32.lt_iff_toNat_lt, power] at found
      split at found
      · rename_i short
        apply ih (by omega) found
        intro earlier lower
        rcases Nat.lt_succ_iff_lt_or_eq.mp lower with before | rfl
        · exact below earlier before
        · exact short
      · rename_i reached
        simp only [Option.some.injEq] at found
        subst result
        exact ⟨by omega, by omega, below⟩

theorem roundupLog2_spec {value : UInt32} {log : Nat} (found : roundupLog2 value = some log) :
    log < 32 ∧ value.toNat ≤ 2 ^ log ∧ ∀ earlier < log, 2 ^ earlier < value.toNat :=
  roundupLog2From_spec (Nat.zero_add 32) found fun _ lower => absurd lower (by omega)

/-- The sizes that every record of a usable ring keeps. -/
structure RecordRing.Sized (ring : RecordRing) : Prop where
  slots : ∀ slot, (ring.ring.slots slot).argval.length = ring.recTailroom.toNat
  room : Record.argvalSize ≤ ring.recTailroom.toNat
  limit : ring.recTailroom.toNat < 2 ^ 31

/-- A ring whose record size wrapped has no bytes behind its record headers. -/
def RecordRing.Roomless (ring : RecordRing) : Prop :=
  ∀ slot, (ring.ring.slots slot).argval = []

/-- The 32-bit sum of the record size wraps only for a tailroom close to the
end of the range, and then it is less than a record header. -/
theorem recordSize_cases (tailroom : UInt32) :
    let extra := if 128 < tailroom then tailroom - 128 else 0
    160 ≤ (160 + extra).toNat ∨ 2 ^ 32 - 32 ≤ tailroom.toNat ∧ (160 + extra).toNat < 32 := by
  intro extra
  have size := tailroom.toNat_lt
  rw [UInt32.toNat_add]
  by_cases large : 128 < tailroom
  · have extraEq : extra.toNat = tailroom.toNat - 128 := by
      simp only [extra, large, if_true]
      exact UInt32.toNat_sub_of_le _ _ (UInt32.le_of_lt large)
    rw [UInt32.lt_iff_toNat_lt] at large
    change 128 < tailroom.toNat at large
    change 160 ≤ (160 + extra.toNat) % 2 ^ 32 ∨ _ ∧ (160 + extra.toNat) % 2 ^ 32 < 32
    omega
  · left
    have extraEq : extra = 0 := by simp only [extra, large, if_false]
    rw [extraEq]
    decide

theorem roundupLog2_le {value : UInt32} {log : Nat} (found : roundupLog2 value = some log)
    {bits : Nat} (reached : value.toNat ≤ 2 ^ bits) : log ≤ bits := by
  obtain ⟨-, -, least⟩ := roundupLog2_spec found
  by_contra above
  have short := least bits (by omega)
  omega

/-- A record of a constructed ring has room for all argument slots, unless
its size wrapped. -/
theorem RecordRing.construct_sized {opts : Options} {ring : RecordRing}
    (built : RecordRing.construct opts = some ring) :
    ring.Sized ∨ 2 ^ 32 - 32 ≤ opts.recordTailroom.toNat ∧ ring.Roomless := by
  simp only [construct, Option.bind_eq_bind] at built
  obtain ⟨slots, -, rest⟩ := Option.bind_eq_some_iff.mp built
  obtain ⟨recShift, rounded, made⟩ := Option.bind_eq_some_iff.mp rest
  simp only [Option.pure_def, Option.some.injEq] at made
  subst made
  obtain ⟨inside, reached, -⟩ := roundupLog2_spec rounded
  have power := shiftLeft_one_toNat recShift inside
  have top : 2 ^ recShift ≤ 2 ^ 31 := Nat.pow_le_pow_right (by decide) (by omega)
  rcases recordSize_cases opts.recordTailroom with whole | ⟨wrapped, small⟩
  · left
    have size : 160 ≤ 2 ^ recShift := Nat.le_trans whole reached
    have tailroom : (1 <<< UInt32.ofNat recShift - UInt32.ofNat Record.headerSize).toNat =
        2 ^ recShift - 32 := by
      rw [UInt32.toNat_sub_of_le _ _ (by rw [UInt32.le_iff_toNat_le, power]; change 32 ≤ _; omega),
        power]
      rfl
    refine ⟨fun slot => ?_, ?_, ?_⟩
    · exact List.length_replicate.trans tailroom.symm
    · rw [tailroom, Record.argvalSize]
      omega
    · rw [tailroom]
      omega
  · right
    refine ⟨wrapped, fun slot => ?_⟩
    have low : recShift ≤ 5 := roundupLog2_le rounded (Nat.le_of_lt small)
    have header : 2 ^ recShift ≤ 2 ^ 5 := Nat.pow_le_pow_right (by decide) low
    change List.replicate (2 ^ recShift - 32) 0 = []
    rw [List.replicate_eq_nil_iff]
    omega

end Hogl.Post
