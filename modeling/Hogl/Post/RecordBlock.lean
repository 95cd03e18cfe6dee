import Mathlib.Data.Nat.Log
import Hogl.Post.RecordRing

namespace Hogl.Post

open Hogl.Data

/-! # The record block

The memory that the constructor of `src/ringbuf.cc` asks for and the record
addresses of `include/hogl/detail/ringbuf.hpp`.  Sizes and offsets are
`unsigned int` and wrap; an address is a number, and `recTop` is where the
allocated block starts. -/

namespace RecordRing

variable (ring : RecordRing)

/-- `capacity()`. -/
def capacity : UInt32 := ring.ring.capacity + 1

/-- `record_size()`. -/
def recordSize : UInt32 := 1 <<< UInt32.ofNat ring.recShift

/-- The byte count passed to `posix_memalign`. -/
def blockSize : UInt32 := ring.capacity * ring.recordSize

/-- `get_record`. -/
def getRecord (recTop : Nat) (index : UInt32) : Nat :=
  recTop + (index <<< UInt32.ofNat ring.recShift).toNat

/-- `get_index`. -/
def getIndex (recTop address : Nat) : UInt32 := UInt32.ofNat ((address - recTop) >>> ring.recShift)

/-- The record block holds all records of the ring side by side. -/
structure Covers (opts : Options) (recTop : Nat) : Prop where
  inside : ∀ index ≤ ring.ring.capacity, recTop ≤ ring.getRecord recTop index ∧
    ring.getRecord recTop index + ring.recordSize.toNat ≤ recTop + ring.blockSize.toNat
  disjoint : ∀ first ≤ ring.ring.capacity, ∀ second ≤ ring.ring.capacity, first ≠ second →
    ring.getRecord recTop first + ring.recordSize.toNat ≤ ring.getRecord recTop second ∨
    ring.getRecord recTop second + ring.recordSize.toNat ≤ ring.getRecord recTop first
  index : ∀ index ≤ ring.ring.capacity, ring.getIndex recTop (ring.getRecord recTop index) = index
  tailroom : max opts.recordTailroom.toNat Record.argvalSize ≤ ring.recTailroom.toNat
  whole : Record.headerSize + ring.recTailroom.toNat = ring.recordSize.toNat

end RecordRing

namespace Options

variable (opts : Options)

/-- The number of slots, as a power of two. -/
def slotBits : Nat := Nat.clog 2 opts.capacity.toNat

/-- The bytes of a record before they are rounded up. -/
def recordBytes : Nat := Record.byteSize + (opts.recordTailroom.toNat - Record.argvalSize)

/-- The size of a record, as a power of two. -/
def recordBits : Nat := Nat.clog 2 opts.recordBytes

/-- The settings that the sizes in the source are meant for. -/
structure Admissible : Prop where
  capacity : opts.capacity.toNat ≤ 2 ^ 30
  recordTailroom : opts.recordTailroom.toNat ≤ 2 ^ 30

end Options

/-! ## Rounding up -/

theorem roundupLog2From_exists {value : UInt32} (small : value.toNat ≤ 2 ^ 31) {fuel log : Nat}
    (range : log + (fuel + 1) = 32) : ∃ result, roundupLog2From value (fuel + 1) log = some result := by
  induction fuel generalizing log with
  | zero =>
      have last : log = 31 := by omega
      have power := shiftLeft_one_toNat log (by omega)
      rw [roundupLog2From, if_neg]
      · exact ⟨log, rfl⟩
      · rw [UInt32.lt_iff_toNat_lt, power, last]
        omega
  | succ fuel ih =>
      rw [roundupLog2From]
      split
      · exact ih (by omega)
      · exact ⟨log, rfl⟩

theorem roundupLog2_eq {value : UInt32} (small : value.toNat ≤ 2 ^ 31) :
    roundupLog2 value = some (Nat.clog 2 value.toNat) := by
  obtain ⟨log, found⟩ := roundupLog2From_exists small (show 0 + (31 + 1) = 32 from rfl)
  obtain ⟨-, reached, least⟩ := roundupLog2_spec found
  have equal : log = Nat.clog 2 value.toNat := by
    apply Nat.le_antisymm
    · by_contra above
      have short := least _ (Nat.lt_of_not_le above)
      exact absurd (Nat.le_pow_clog (by decide) value.toNat) (Nat.not_le_of_lt short)
    · exact Nat.clog_le_of_le_pow reached
  rw [roundupLog2, found, equal]

/-- The mask of a ring has exactly its low bits set. -/
theorem mask_bits {size : UInt32} {log : Nat} (power : size.toNat = 2 ^ log) (bit : Nat) :
    (size - 1).toBitVec.getLsbD bit = decide (bit < log) := by
  have one : (1 : UInt32) ≤ size := by
    rw [UInt32.le_iff_toNat_le, power]
    exact Nat.one_le_two_pow
  have value : (size - 1).toBitVec.toNat = 2 ^ log - 1 := by
    rw [UInt32.toNat_toBitVec, UInt32.toNat_sub_of_le _ _ one, power]
    rfl
  rw [← BitVec.testBit_toNat, value, Nat.testBit_two_pow_sub_one]

/-- The helpers stop before they shift by the width of the word, with the least
exponent and the least power of two, exactly up to 2³¹. -/
theorem roundup_exact_iff (value : UInt32) :
    (∃ log size, roundupLog2 value = some log ∧ roundupPower2 value = some size ∧ log < 32 ∧
      value.toNat ≤ 2 ^ log ∧ (∀ smaller, value.toNat ≤ 2 ^ smaller → log ≤ smaller) ∧
      size.toNat = 2 ^ log ∧ max value.toNat 1 ≤ size.toNat ∧
      (∀ power, max value.toNat 1 ≤ 2 ^ power → size.toNat ≤ 2 ^ power) ∧
      ∀ bit, (size - 1).toBitVec.getLsbD bit = decide (bit < log)) ↔
    value.toNat ≤ 2 ^ 31 := by
  constructor
  · intro ⟨log, _, _, _, inside, reached, _⟩
    exact Nat.le_trans reached (Nat.pow_le_pow_right (by decide) (Nat.le_of_lt_succ inside))
  · intro small
    have found := roundupLog2_eq small
    obtain ⟨inside, reached, least⟩ := roundupLog2_spec found
    have lower {smaller : Nat} (covers : value.toNat ≤ 2 ^ smaller) :
        Nat.clog 2 value.toNat ≤ smaller := roundupLog2_le found covers
    have power := shiftLeft_one_toNat _ inside
    refine ⟨_, _, found, by rw [roundupPower2, found]; rfl, inside, reached, fun _ => lower, power,
      ?_, ?_, mask_bits power⟩
    · rw [power]
      exact Nat.max_le.mpr ⟨reached, Nat.one_le_two_pow⟩
    · intro other covers
      rw [power]
      exact Nat.pow_le_pow_right (by decide) (lower (Nat.le_trans (Nat.le_max_left _ _) covers))

/-- One above the largest power, the loop comes to a shift by 32. -/
theorem roundup_never_stops : roundupLog2 0x80000001 = none := by decide

namespace Options

variable {opts : Options}

theorem Admissible.slotBits_le (admissible : opts.Admissible) : opts.slotBits ≤ 30 :=
  Nat.clog_le_of_le_pow admissible.capacity

theorem Admissible.recordBytes_le (admissible : opts.Admissible) : opts.recordBytes ≤ 2 ^ 31 := by
  have tailroom := admissible.recordTailroom
  simp only [recordBytes, Record.byteSize, Record.headerSize, Record.argvalSize]
  omega

theorem Admissible.recordBits_le (admissible : opts.Admissible) : opts.recordBits ≤ 31 :=
  Nat.clog_le_of_le_pow admissible.recordBytes_le

theorem recordBytes_reached : opts.recordBytes ≤ 2 ^ opts.recordBits :=
  Nat.le_pow_clog (by decide) _

end Options

/-- A constructed ring whose sizes are the rounded-up settings. -/
structure RecordRing.Laid (opts : Options) (ring : RecordRing) : Prop where
  slots : ring.ring.capacity.toNat + 1 = 2 ^ opts.slotBits
  recShift : ring.recShift = opts.recordBits
  recTailroom : ring.recTailroom.toNat = 2 ^ opts.recordBits - Record.headerSize

theorem recordBytes_toNat {opts : Options} (admissible : opts.Admissible) :
    (UInt32.ofNat Record.byteSize + (if UInt32.ofNat Record.argvalSize < opts.recordTailroom
      then opts.recordTailroom - UInt32.ofNat Record.argvalSize else 0)).toNat =
    opts.recordBytes := by
  have tailroom := admissible.recordTailroom
  have argval : (UInt32.ofNat 128).toNat = 128 := rfl
  rw [UInt32.toNat_add, Options.recordBytes, Record.argvalSize]
  change (160 + _) % 2 ^ 32 = 160 + _
  split
  · rename_i large
    rw [UInt32.toNat_sub_of_le _ _ (UInt32.le_of_lt large)]
    rw [UInt32.lt_iff_toNat_lt] at large
    rw [argval] at large ⊢
    omega
  · rename_i small
    rw [UInt32.lt_iff_toNat_lt, argval] at small
    change 160 % 2 ^ 32 = _
    omega

theorem RecordRing.construct_laid {opts : Options} (admissible : opts.Admissible) :
    ∃ ring, RecordRing.construct opts = some ring ∧ ring.Laid opts := by
  have slotBits := admissible.slotBits_le
  have recordBits := admissible.recordBits_le
  have slots : roundupLog2 opts.capacity = some opts.slotBits :=
    roundupLog2_eq (Nat.le_trans admissible.capacity (by decide))
  have bytes := recordBytes_toNat admissible
  have shift := roundupLog2_eq (bytes.symm ▸ admissible.recordBytes_le)
  rw [bytes] at shift
  have slotPower := shiftLeft_one_toNat opts.slotBits (by omega)
  have recordPower := shiftLeft_one_toNat opts.recordBits (by omega)
  have header : Record.headerSize ≤ 2 ^ opts.recordBits := by
    refine Nat.le_trans ?_ opts.recordBytes_reached
    simp only [Options.recordBytes, Record.byteSize, Record.headerSize]
    omega
  have positive := Nat.two_pow_pos opts.slotBits
  have built : RecordRing.construct opts = some {
      ring := .fresh (1 <<< UInt32.ofNat opts.slotBits - 1) opts.blocking fun _ =>
        zeroRecord (2 ^ opts.recordBits)
      recShift := opts.recordBits
      recTailroom := 1 <<< UInt32.ofNat opts.recordBits - UInt32.ofNat Record.headerSize } := by
    simp only [construct, roundupPower2, slots, shift, Option.map_some, Option.bind_eq_bind,
      Option.bind_some, Option.pure_def, Options.recordBits]
  refine ⟨_, built, ⟨?_, ?_, ?_⟩⟩
  · change ((1 : UInt32) <<< UInt32.ofNat opts.slotBits - 1).toNat + 1 = _
    rw [UInt32.toNat_sub_of_le _ _ (by rw [UInt32.le_iff_toNat_le, slotPower]; exact positive),
      slotPower]
    exact Nat.sub_add_cancel positive
  · dsimp only
  · change ((1 : UInt32) <<< UInt32.ofNat opts.recordBits - UInt32.ofNat Record.headerSize).toNat = _
    rw [UInt32.toNat_sub_of_le _ _ (by rw [UInt32.le_iff_toNat_le, recordPower]; exact header),
      recordPower]
    rfl

namespace RecordRing.Laid

variable {opts : Options} {ring : RecordRing} (laid : ring.Laid opts)
  (admissible : opts.Admissible)

include laid admissible

theorem capacity_toNat : ring.capacity.toNat = 2 ^ opts.slotBits := by
  have power : 2 ^ opts.slotBits ≤ 2 ^ 30 :=
    Nat.pow_le_pow_right (by decide) admissible.slotBits_le
  rw [capacity, UInt32.toNat_add]
  change (ring.ring.capacity.toNat + 1) % 2 ^ 32 = _
  rw [laid.slots]
  exact Nat.mod_eq_of_lt (Nat.lt_of_le_of_lt power (by decide))

theorem recordSize_toNat : ring.recordSize.toNat = 2 ^ opts.recordBits := by
  have small := admissible.recordBits_le
  rw [recordSize, laid.recShift, shiftLeft_one_toNat _ (by omega)]

theorem blockSize_toNat :
    ring.blockSize.toNat = 2 ^ opts.slotBits * 2 ^ opts.recordBits % 2 ^ 32 := by
  rw [blockSize, UInt32.toNat_mul, laid.capacity_toNat admissible, laid.recordSize_toNat admissible]

/-- With a product below the word size no offset wraps. -/
theorem offset_toNat (fits : 2 ^ opts.slotBits * 2 ^ opts.recordBits < 2 ^ 32) {index : UInt32}
    (valid : index ≤ ring.ring.capacity) :
    (index <<< UInt32.ofNat ring.recShift).toNat = index.toNat * 2 ^ opts.recordBits ∧
    (index.toNat + 1) * 2 ^ opts.recordBits ≤ 2 ^ opts.slotBits * 2 ^ opts.recordBits := by
  have last : index.toNat + 1 ≤ 2 ^ opts.slotBits :=
    laid.slots ▸ Nat.succ_le_succ (UInt32.le_iff_toNat_le.mp valid)
  have inside := Nat.mul_le_mul_right (2 ^ opts.recordBits) last
  have small := admissible.recordBits_le
  have exponent : opts.recordBits % 32 = opts.recordBits := Nat.mod_eq_of_lt (by omega)
  refine ⟨?_, inside⟩
  rw [UInt32.toNat_shiftLeft, laid.recShift, UInt32.toNat_ofNat', Nat.mod_mod_of_dvd _ (by decide),
    exponent, Nat.shiftLeft_eq]
  have below : index.toNat * 2 ^ opts.recordBits < 2 ^ 32 := by
    rw [Nat.succ_mul] at inside
    exact Nat.lt_of_le_of_lt (Nat.le_trans (Nat.le_add_right _ _) inside) fits
  exact Nat.mod_eq_of_lt below

theorem covers (fits : 2 ^ opts.slotBits * 2 ^ opts.recordBits < 2 ^ 32) (recTop : Nat) :
    ring.Covers opts recTop := by
  have size := laid.recordSize_toNat admissible
  have reached := opts.recordBytes_reached
  have positive := Nat.two_pow_pos opts.recordBits
  simp only [Options.recordBytes, Record.byteSize, Record.argvalSize, Record.headerSize] at reached
  refine ⟨?_, ?_, ?_, ?_, ?_⟩
  · intro index valid
    obtain ⟨offset, inside⟩ := laid.offset_toNat admissible fits valid
    rw [Nat.succ_mul] at inside
    rw [getRecord, offset, size, laid.blockSize_toNat admissible, Nat.mod_eq_of_lt fits]
    omega
  · intro first firstValid second secondValid different
    obtain ⟨firstOffset, -⟩ := laid.offset_toNat admissible fits firstValid
    obtain ⟨secondOffset, -⟩ := laid.offset_toNat admissible fits secondValid
    rw [getRecord, getRecord, firstOffset, secondOffset, size]
    rcases Nat.lt_or_gt_of_ne (mt UInt32.toNat_inj.mp different) with before | after
    · have apart := Nat.mul_le_mul_right (2 ^ opts.recordBits) before
      rw [Nat.succ_mul] at apart
      omega
    · have apart := Nat.mul_le_mul_right (2 ^ opts.recordBits) after
      rw [Nat.succ_mul] at apart
      omega
  · intro index valid
    obtain ⟨offset, -⟩ := laid.offset_toNat admissible fits valid
    rw [getIndex, getRecord, Nat.add_sub_cancel_left, offset, laid.recShift,
      Nat.shiftRight_eq_div_pow, Nat.mul_div_cancel _ positive]
    exact UInt32.ofNat_toNat
  · rw [laid.recTailroom, Record.argvalSize, Record.headerSize]
    omega
  · rw [laid.recTailroom, size, Record.headerSize]
    omega

/-- A product of two powers of two that does not fit wraps to zero, and then
not even the first record is inside the block. -/
theorem not_covers (large : ¬ 2 ^ opts.slotBits * 2 ^ opts.recordBits < 2 ^ 32) (recTop : Nat) :
    ¬ ring.Covers opts recTop := by
  intro covers
  have wrapped : ring.blockSize.toNat = 0 := by
    rw [← Nat.pow_add] at large
    have exponent : 32 ≤ opts.slotBits + opts.recordBits := by
      by_contra below
      exact large (Nat.pow_lt_pow_right (by decide) (Nat.lt_of_not_le below))
    rw [laid.blockSize_toNat admissible, ← Nat.pow_add]
    exact Nat.mod_eq_zero_of_dvd (Nat.pow_dvd_pow 2 exponent)
  obtain ⟨-, inside⟩ := covers.inside 0 (UInt32.le_iff_toNat_le.mpr (Nat.zero_le _))
  have positive := Nat.two_pow_pos opts.recordBits
  have start : recTop ≤ ring.getRecord recTop 0 := Nat.le_add_right _ _
  rw [wrapped, laid.recordSize_toNat admissible] at inside
  omega

end RecordRing.Laid

theorem record_block_covers_iff (opts : Options) (admissible : opts.Admissible) :
    ∃ ring, RecordRing.construct opts = some ring ∧
      ∀ recTop, ring.Covers opts recTop ↔ 2 ^ opts.slotBits * 2 ^ opts.recordBits < 2 ^ 32 := by
  obtain ⟨ring, built, laid⟩ := RecordRing.construct_laid admissible
  refine ⟨ring, built, fun recTop => ⟨fun covers => ?_, fun fits => ?_⟩⟩
  · by_contra large
    exact laid.not_covers admissible large recTop covers
  · exact laid.covers admissible fits recTop

/-- The default options. -/
theorem record_block_covers_default :
    (⟨1024, false, 128⟩ : Options).Admissible ∧
    ∃ ring, RecordRing.construct ⟨1024, false, 128⟩ = some ring ∧ ring.Covers ⟨1024, false, 128⟩ 0 := by
  have admissible : (⟨1024, false, 128⟩ : Options).Admissible := ⟨by decide, by decide⟩
  obtain ⟨ring, built, covers⟩ := record_block_covers_iff _ admissible
  exact ⟨admissible, ring, built, (covers 0).mpr (by decide +kernel)⟩

/-- A thousand records of four megabytes: the block has no bytes at all. -/
theorem record_block_wraps :
    (⟨1024, false, 4194304⟩ : Options).Admissible ∧
    ∃ ring, RecordRing.construct ⟨1024, false, 4194304⟩ = some ring ∧
      ring.blockSize = 0 ∧ ring.recordSize = 8388608 ∧
      ∀ recTop, ¬ ring.Covers ⟨1024, false, 4194304⟩ recTop := by
  have admissible : (⟨1024, false, 4194304⟩ : Options).Admissible := ⟨by decide, by decide⟩
  obtain ⟨ring, built, laid⟩ := RecordRing.construct_laid admissible
  have slotBits : (⟨1024, false, 4194304⟩ : Options).slotBits = 10 := by decide +kernel
  have recordBits : (⟨1024, false, 4194304⟩ : Options).recordBits = 23 := by decide +kernel
  have block := laid.blockSize_toNat admissible
  have size := laid.recordSize_toNat admissible
  rw [slotBits, recordBits] at block
  rw [recordBits] at size
  refine ⟨admissible, ring, built, UInt32.toNat_inj.mp block, UInt32.toNat_inj.mp size, ?_⟩
  intro recTop
  apply laid.not_covers admissible
  rw [slotBits, recordBits]
  decide

end Hogl.Post
