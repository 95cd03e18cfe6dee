import Mathlib.Algebra.Order.Ring.GeomSum
import Hogl.Sched.Cpulist

namespace Hogl.Sched

open Hogl.Data

/-! # CPU affinity strings

`parse_cpumask` and `parse_cpu_affinity` of `src/schedparam.cc`. -/

/-- The constant `1 << i` of type `int`.  A shift by the width of the type or
more is undefined; `undefined` is what the machine makes of it. -/
def shiftOne (undefined : Nat → BitVec 32) (i : Nat) : BitVec 32 :=
  if i < 32 then 1#32 <<< i else undefined i

/-- The shift instruction of x86 takes the count modulo 32. -/
def x86Shift (i : Nat) : BitVec 32 := 1#32 <<< (i % 32)

section

variable (undefined : Nat → BitVec 32)

/-- One turn of the loop in `parse_cpumask`; the `int` is converted to
`unsigned long long`. -/
def setMasked (m : BitVec 64) (mask : Cpumask) (i : Nat) : Cpumask :=
  if m &&& (shiftOne undefined i).signExtend 64 ≠ 0#64 then mask.set i else mask

def parseCpumask (str : List UInt8) (mask : Cpumask) : Errno × Cpumask :=
  let number := strtoull0 (cstr str)
  if number.overflow then (.erange, mask)
  else if (cstr str).length - number.rest.length ≠ str.length then (.einval, mask)
  else (.success,
    (List.range mask.ncpus).foldl (setMasked undefined (BitVec.ofNat 64 number.value)) mask)

def parseCpuAffinity (str : List UInt8) (mask : Cpumask) : Errno × Cpumask :=
  if str.take 5 = ascii "list:" then parseCpulist (str.drop 5) mask
  else if str.take 5 = ascii "mask:" then parseCpumask undefined (str.drop 5) mask
  else parseCpumask undefined str mask

end

/-- Success with exactly these CPUs set. -/
def Sets (result : Errno × Cpumask) (cpus : Finset Nat) : Prop :=
  result.1 = .success ∧ ∀ cpu, result.2.test cpu = decide (cpu ∈ cpus)

/-- The number whose bits are the CPUs. -/
def maskNumber (cpus : Finset Nat) : Nat := ∑ cpu ∈ cpus, 2 ^ cpu

/-- The CPUs enumerated in some order. -/
def enumeration (cpus : List Nat) : List UInt8 :=
  ascii "list:" ++ [comma].intercalate (cpus.map (spell 10))

/-- All notations of a set of CPUs set exactly them. -/
structure NotationsAgree (undefined : Nat → BitVec 32) (cpus : Finset Nat) : Prop where
  mask : ∀ start ∈ [[], ascii "mask:"],
    ∀ number ∈ [spell 10 (maskNumber cpus), ascii "0x" ++ spell 16 (maskNumber cpus)],
    Sets (parseCpuAffinity undefined (start ++ number) (Cpumask.create 256)) cpus
  list : ∀ listed : List Nat, listed ≠ [] → listed.toFinset = cpus →
    Sets (parseCpuAffinity undefined (enumeration listed) (Cpumask.create 256)) cpus

/-! ## The list notation -/

theorem spell_row (number : Nat) :
    spell 10 number ≠ [] ∧ ∀ byte ∈ spell 10 number, isDigit byte = true :=
  ⟨spell_ne_nil 10 number, fun byte member =>
    (digitValue_lt_ten_iff byte).mp (spell_digits (by decide) (by decide) number byte member)⟩

/-- A single CPU as an item. -/
def itemOf (cpu : Nat) : Item :=
  { first := spell 10 cpu, last := none, firstDigits := spell_row cpu, lastDigits := by simp }

theorem itemOf_lower (cpu : Nat) : (itemOf cpu).lower = cpu :=
  digitsNumber_spell (by decide) (by decide) cpu

theorem itemOf_upper (cpu : Nat) : (itemOf cpu).upper = cpu :=
  digitsNumber_spell (by decide) (by decide) cpu

theorem create_test (capacity cpu : Nat) : (Cpumask.create capacity).test cpu = false := by
  rw [Cpumask.test, testBit_eq (by decide), Cpumask.create, List.getD_eq_getElem?_getD]
  by_cases inside : cpu / 64 < (capacity + 63) / 64
  · simp [inside]
  · simp [inside]

theorem enumeration_sets (undefined : Nat → BitVec 32) {cpus : Finset Nat}
    (below : ∀ cpu ∈ cpus, cpu < 64) {listed : List Nat} (nonempty : listed ≠ [])
    (enumerates : listed.toFinset = cpus) :
    Sets (parseCpuAffinity undefined (enumeration listed) (Cpumask.create 256)) cpus := by
  have text : [comma].intercalate (listed.map (spell 10)) = listText (listed.map itemOf) := by
    rw [listText, List.map_map]
    rfl
  have members (cpu : Nat) : cpu ∈ listed ↔ cpu ∈ cpus := by
    rw [← enumerates, List.mem_toFinset]
  have list : IsList 256 (listText (listed.map itemOf)) (listed.map itemOf) := by
    refine ⟨by simpa using nonempty, rfl, ?_⟩
    intro item member
    obtain ⟨cpu, inside, rfl⟩ := List.mem_map.mp member
    have small := below cpu ((members cpu).mp inside)
    rw [Item.Fits, itemOf_lower, itemOf_upper]
    omega
  have follows := followsGrammar_of_list (show (Cpumask.create 256).ncpus ≤ 2 ^ 32 by decide) list
  have parsed : parseCpuAffinity undefined (enumeration listed) (Cpumask.create 256) =
      parseCpulist (listText (listed.map itemOf)) (Cpumask.create 256) := by
    rw [enumeration, text]
    rfl
  rw [parsed]
  refine ⟨follows.accepts.mpr ⟨_, list⟩, fun cpu => ?_⟩
  rw [follows.sets _ list cpu, create_test, Bool.false_or, Bool.eq_iff_iff, List.any_map,
    List.any_eq_true, decide_eq_true_iff, ← members]
  constructor
  · rintro ⟨other, inside, covers⟩
    simp only [Function.comp_apply, Item.covers, itemOf_lower, itemOf_upper, Bool.and_eq_true,
      decide_eq_true_eq] at covers
    rwa [Nat.le_antisymm covers.2 covers.1]
  · intro inside
    exact ⟨cpu, inside, by simp [Item.covers, itemOf_lower, itemOf_upper]⟩

/-! ## The mask notation -/

/-- The loop over a part of the CPUs has set those whose constant meets `m`. -/
theorem foldl_setMasked (undefined : Nat → BitVec 32) (m : BitVec 64) (mask : Cpumask) {count : Nat}
    (inside : count ≤ mask.ncpus) :
    ((List.range count).foldl (setMasked undefined m) mask).ncpus = mask.ncpus ∧
    ∀ cpu, ((List.range count).foldl (setMasked undefined m) mask).test cpu =
      (mask.test cpu || decide (cpu < count ∧
        m &&& (shiftOne undefined cpu).signExtend 64 ≠ 0#64)) := by
  induction count with
  | zero => exact ⟨rfl, fun cpu => by simp⟩
  | succ count ih =>
      obtain ⟨ncpus, tests⟩ := ih (Nat.le_of_succ_le inside)
      rw [List.range_succ, List.foldl_append, List.foldl_cons, List.foldl_nil, setMasked]
      split
      · rename_i met
        refine ⟨(Cpumask.set_ncpus _).trans ncpus, fun cpu => ?_⟩
        rw [Cpumask.test_set (by omega), tests, Bool.or_assoc, ← Bool.decide_or]
        congr 2
        rw [eq_iff_iff]
        by_cases last : cpu = count
        · subst last
          simp only [or_true, true_iff]
          exact ⟨Nat.lt_succ_self cpu, met⟩
        · have bound : cpu < count ↔ cpu < count + 1 := by omega
          rw [bound, or_iff_left last]
      · rename_i unmet
        refine ⟨ncpus, fun cpu => ?_⟩
        rw [tests]
        congr 2
        rw [eq_iff_iff]
        by_cases last : cpu = count
        · subst last
          simp only [lt_irrefl, false_and, false_iff]
          exact fun both => unmet both.2
        · have bound : cpu < count ↔ cpu < count + 1 := by omega
          rw [bound]

theorem maskNumber_lt {cpus : Finset Nat} (below : ∀ cpu ∈ cpus, cpu < 64) :
    maskNumber cpus < 2 ^ 64 :=
  Nat.geomSum_lt (Nat.le_refl 2) below

theorem maskNumber_bit {cpus : Finset Nat} {cpu : Nat} (small : cpu < 64) :
    (BitVec.ofNat 64 (maskNumber cpus)).getLsbD cpu = decide (cpu ∈ cpus) := by
  induction cpus using Finset.induction_on generalizing cpu with
  | empty => simp [maskNumber]
  | insert first cpus absent ih =>
      have power : BitVec.ofNat 64 (2 ^ first) = BitVec.twoPow 64 first := by
        rw [← BitVec.toNat_inj, BitVec.toNat_ofNat, BitVec.toNat_twoPow]
      have apart : BitVec.twoPow 64 first &&& BitVec.ofNat 64 (maskNumber cpus) = 0#64 := by
        apply BitVec.eq_of_getLsbD_eq
        intro bit inside
        rw [BitVec.getLsbD_and, BitVec.getLsbD_twoPow, ih inside, BitVec.getLsbD_zero]
        by_cases same : first = bit
        · subst same
          simp [absent]
        · simp [same]
      rw [maskNumber, Finset.sum_insert absent, BitVec.ofNat_add, power, ← maskNumber,
        BitVec.add_eq_or_of_and_eq_zero _ _ apart, BitVec.getLsbD_or, BitVec.getLsbD_twoPow,
        ih small]
      by_cases same : cpu = first
      · subst same
        simp [small]
      · simp [same, Ne.symm same]

/-- Some CPU beyond the numbers in the set meets a mask that is not zero: bit
31 of the constant is the sign, which is copied to all higher bits. -/
theorem x86_meets {cpus : Finset Nat} (below : ∀ cpu ∈ cpus, cpu < 64) {cpu : Nat}
    (member : cpu ∈ cpus) :
    ∃ wrong, 64 ≤ wrong ∧ wrong < 256 ∧
      BitVec.ofNat 64 (maskNumber cpus) &&& (shiftOne x86Shift wrong).signExtend 64 ≠ 0#64 := by
  have small := below cpu member
  have shared (wrong : Nat) (bit : ((shiftOne x86Shift wrong).signExtend 64).getLsbD cpu = true) :
      BitVec.ofNat 64 (maskNumber cpus) &&& (shiftOne x86Shift wrong).signExtend 64 ≠ 0#64 := by
    intro zero
    have clear := congrArg (fun value => value.getLsbD cpu) zero
    simp only [BitVec.getLsbD_and, maskNumber_bit small, member, bit] at clear
    simp at clear
  have shifted (wrong : Nat) (large : 64 ≤ wrong) :
      shiftOne x86Shift wrong = BitVec.twoPow 32 (wrong % 32) := by
    rw [shiftOne, if_neg (by omega), x86Shift, BitVec.twoPow_eq]
  by_cases low : cpu < 32
  · refine ⟨cpu + 64, by omega, by omega, shared _ ?_⟩
    have count : (cpu + 64) % 32 = cpu := by omega
    rw [shifted _ (by omega), count, BitVec.getLsbD_signExtend, BitVec.getLsbD_twoPow]
    simp [small, low]
  · refine ⟨95, by decide, by decide, shared _ ?_⟩
    rw [shifted _ (by decide), BitVec.getLsbD_signExtend]
    simp only [small, low, if_false, decide_true, Bool.true_and]
    decide

/-! ## Agreement -/

theorem parseCpuAffinity_spell (undefined : Nat → BitVec 32) {number : Nat} (nonzero : number ≠ 0)
    (fits : number < 2 ^ 64) (mask : Cpumask) :
    parseCpuAffinity undefined (spell 10 number) mask = (.success,
      (List.range mask.ncpus).foldl (setMasked undefined (BitVec.ofNat 64 number)) mask) := by
  obtain ⟨first, rest, spelled, digit, -⟩ := spell_head nonzero
  have notPrefix (start : List UInt8) (other : start.head?.any isDigit = false) :
      (spell 10 number).take 5 ≠ start := by
    rintro rfl
    rw [spelled, List.take_succ_cons, List.head?_cons, Option.any_some, digit] at other
    cases other
  have plain : cstr (spell 10 number) = spell 10 number := by
    apply List.takeWhile_eq_self_iff.mpr
    intro byte member
    rw [bne_iff_ne]
    rintro rfl
    exact absurd ((spell_row number).2 0 member) (by decide)
  rw [parseCpuAffinity, if_neg (notPrefix _ (by decide)), if_neg (notPrefix _ (by decide)),
    parseCpumask, plain, strtoull0_spell nonzero fits]
  simp

theorem maskNumber_ne_zero {cpus : Finset Nat} (nonempty : cpus ≠ ∅) : maskNumber cpus ≠ 0 := by
  obtain ⟨cpu, member⟩ := Finset.nonempty_iff_ne_empty.mpr nonempty
  have single : 2 ^ cpu ≤ maskNumber cpus :=
    Finset.single_le_sum (f := fun cpu => 2 ^ cpu) (fun _ _ => Nat.zero_le _) member
  have positive := Nat.two_pow_pos cpu
  omega

theorem not_agree_of_meets {undefined : Nat → BitVec 32} {cpus : Finset Nat}
    (below : ∀ cpu ∈ cpus, cpu < 64) (nonempty : cpus ≠ ∅) {wrong : Nat} (outside : wrong ∉ cpus)
    (inside : wrong < 256)
    (meets : BitVec.ofNat 64 (maskNumber cpus) &&& (shiftOne undefined wrong).signExtend 64 ≠ 0#64) :
    ¬ NotationsAgree undefined cpus := by
  intro agree
  obtain ⟨-, tests⟩ := agree.mask [] (by simp) (spell 10 (maskNumber cpus)) (by simp)
  rw [List.nil_append, parseCpuAffinity_spell _ (maskNumber_ne_zero nonempty)
    (maskNumber_lt below)] at tests
  obtain ⟨-, set⟩ := foldl_setMasked undefined (BitVec.ofNat 64 (maskNumber cpus))
    (Cpumask.create 256) (Nat.le_refl (Cpumask.create 256).ncpus)
  generalize (List.range (Cpumask.create 256).ncpus).foldl
    (setMasked undefined (BitVec.ofNat 64 (maskNumber cpus))) (Cpumask.create 256) = final
    at tests set
  have taken : wrong < (Cpumask.create 256).ncpus ∧
      BitVec.ofNat 64 (maskNumber cpus) &&& (shiftOne undefined wrong).signExtend 64 ≠ 0#64 :=
    ⟨inside, meets⟩
  have marked := tests wrong
  rw [set wrong, create_test, Bool.false_or, decide_eq_true taken, decide_eq_false outside]
    at marked
  cases marked

theorem not_agree {cpus : Finset Nat} (below : ∀ cpu ∈ cpus, cpu < 64) (nonempty : cpus ≠ ∅) :
    ¬ NotationsAgree x86Shift cpus := by
  obtain ⟨cpu, member⟩ := Finset.nonempty_iff_ne_empty.mpr nonempty
  obtain ⟨wrong, beyond, inside, meets⟩ := x86_meets below member
  have outside : wrong ∉ cpus := fun member => absurd (below wrong member) (by omega)
  exact not_agree_of_meets below nonempty outside inside meets

/-- A zero mask meets no constant, whatever an undefined shift yields. -/
theorem zero_sets (undefined : Nat → BitVec 32) :
    (List.range (Cpumask.create 256).ncpus).foldl (setMasked undefined 0#64) (Cpumask.create 256) =
      Cpumask.create 256 := by
  have kept : setMasked undefined 0#64 = fun mask _ => mask := by
    funext mask i
    rw [setMasked, if_neg]
    simp
  rw [kept]
  exact List.foldl_fixed _

theorem empty_agrees (undefined : Nat → BitVec 32) : NotationsAgree undefined ∅ := by
  have sets : Sets (.success, Cpumask.create 256) ∅ :=
    ⟨rfl, fun cpu => by rw [create_test]; rfl⟩
  have parsed (str : List UInt8) (zero : strtoull0 (cstr str) = ⟨0, false, []⟩)
      (whole : (cstr str).length = str.length) :
      parseCpumask undefined str (Cpumask.create 256) = (.success, Cpumask.create 256) := by
    rw [parseCpumask, zero]
    simp only [Bool.false_eq_true, if_false, List.length_nil, Nat.sub_zero, whole, ne_eq,
      not_true_eq_false]
    exact congrArg (Prod.mk Errno.success) (zero_sets undefined)
  have zeros : maskNumber ∅ = 0 := rfl
  refine ⟨?_, ?_⟩
  · intro start startIn number numberIn
    rw [zeros] at numberIn
    have split : parseCpuAffinity undefined (start ++ number) (Cpumask.create 256) =
        parseCpumask undefined number (Cpumask.create 256) := by
      simp only [List.mem_cons, List.not_mem_nil, or_false] at startIn numberIn
      rcases startIn with rfl | rfl <;> rcases numberIn with rfl | rfl <;> rfl
    rw [split]
    simp only [List.mem_cons, List.not_mem_nil, or_false] at numberIn
    rcases numberIn with rfl | rfl
    · rwa [parsed _ (by decide) (by decide)]
    · rwa [parsed _ (by decide) (by decide)]
  · intro listed nonempty enumerates
    exact absurd (List.toFinset_eq_empty_iff _ |>.mp enumerates) nonempty

theorem cpu_notations_agree_iff (cpus : Finset Nat) (below : ∀ cpu ∈ cpus, cpu < 64) :
    (NotationsAgree x86Shift cpus ↔ cpus = ∅) ∧
    (cpus = ∅ → ∀ undefined, NotationsAgree undefined cpus) ∧
    ∀ undefined listed, listed ≠ [] → listed.toFinset = cpus →
      Sets (parseCpuAffinity undefined (enumeration listed) (Cpumask.create 256)) cpus := by
  refine ⟨⟨fun agree => ?_, ?_⟩, ?_, ?_⟩
  · by_contra nonempty
    exact not_agree below nonempty agree
  · rintro rfl
    exact empty_agrees x86Shift
  · rintro rfl
    exact empty_agrees
  · intro undefined listed nonempty enumerates
    exact enumeration_sets undefined below nonempty enumerates

theorem cpu_notations_agree_first_cpu :
    (∀ cpu ∈ ({0} : Finset Nat), cpu < 64) ∧
    Sets (parseCpuAffinity x86Shift (enumeration [0]) (Cpumask.create 256)) {0} := by
  have below : ∀ cpu ∈ ({0} : Finset Nat), cpu < 64 := by decide
  exact ⟨below, (cpu_notations_agree_iff {0} below).2.2 x86Shift [0] (by decide) (by decide)⟩

/-- The mask of CPU 0 alone sets every 32nd CPU.  The mask of CPU 32 sets CPU
31, whatever the undefined shifts yield. -/
theorem cpu_mask_one_repeats :
    parseCpuAffinity x86Shift (spell 10 (maskNumber {0})) (Cpumask.create 256) =
      parseCpuAffinity x86Shift (ascii "1") (Cpumask.create 256) ∧
    (∀ cpu, (parseCpuAffinity x86Shift (ascii "1") (Cpumask.create 256)).2.test cpu =
      decide (cpu < 256 ∧ cpu % 32 = 0)) ∧
    ¬ NotationsAgree x86Shift {0} ∧ ∀ undefined, ¬ NotationsAgree undefined {32} := by
  have spelled : spell 10 (maskNumber {0}) = ascii "1" := by
    decide
  have one : maskNumber {0} = 1 := by decide
  refine ⟨by rw [spelled], fun cpu => ?_, not_agree (by decide) (by decide), fun undefined => ?_⟩
  · have parsed := @parseCpuAffinity_spell x86Shift (maskNumber {0}) (by decide)
      (by decide) (Cpumask.create 256)
    rw [spelled] at parsed
    obtain ⟨-, set⟩ := foldl_setMasked x86Shift (BitVec.ofNat 64 (maskNumber {0}))
      (Cpumask.create 256) (Nat.le_refl (Cpumask.create 256).ncpus)
    have counts : ∀ count < 32,
        (1#64 &&& (1#32 <<< count).signExtend 64 ≠ 0#64 ↔ count = 0) := by decide
    have shifted : shiftOne x86Shift cpu = 1#32 <<< (cpu % 32) := by
      rw [shiftOne]
      split
      · rw [Nat.mod_eq_of_lt (by assumption)]
      · rfl
    rw [parsed]
    rw [set cpu, create_test, Bool.false_or, one, shifted]
    congr 1
    rw [counts _ (Nat.mod_lt cpu (by decide))]
    rfl
  · have sign : shiftOne undefined 31 = 1#32 <<< 31 := rfl
    have mask : BitVec.ofNat 64 (maskNumber {32}) = 1#64 <<< 32 := by decide
    have meets : BitVec.ofNat 64 (maskNumber {32}) &&& (shiftOne undefined 31).signExtend 64 ≠
        0#64 := by
      rw [sign, mask]
      decide
    exact not_agree_of_meets (by decide) (by decide) (by decide) (by decide) meets

end Hogl.Sched
