import Hogl.Data.Decimals
import Hogl.Record.Args
import Hogl.Record.Timestamp

namespace Hogl.Format

open Hogl.Data

/-! # Cached timestamps

`u64tod` of `include/hogl/detail/ntos.hpp` and `format_basic::tscache`.  A
store outside the array it is meant for has no result. -/

/-- The `do` loop of `u64tod`, last digit first; `room` is the size of its array. -/
def digitLoop : Nat → UInt64 → List UInt8
  | 0, _ => []
  | room + 1, value =>
      let digit := (value % 10).toUInt8 + 0x30
      if value / 10 = 0 then [digit] else digit :: digitLoop room (value / 10)

/-- `u64tod` with the index behind the number. -/
def u64tod (value : UInt64) (str : List UInt8) (index width : Nat) (pad : UInt8) :
    Option (List UInt8 × Nat) := do
  let width := if 32 < width then 32 else width
  let digits := digitLoop 32 value
  let digits := digits ++ List.replicate (width - digits.length) pad
  let str ← writeAt str index digits.reverse
  return (str, index + digits.length)

/-- `format_basic::tscache`. -/
structure Tscache where
  sec : Int64
  nsecHi : UInt32
  str : List UInt8
deriving DecidableEq

namespace Tscache

def nsecSplit : Int64 := 10000
def nsecHiLen : Nat := 5
def nsecLen : Nat := 9
def nsecLoLen : Nat := nsecLen - nsecHiLen
def secLen : Nat := 11
def tsLen : Nat := secLen + 1 + nsecLen
def nsecHiOffset : Nat := secLen + 1
def nsecLoOffset : Nat := nsecHiOffset + nsecHiLen

def create : Tscache :=
  { sec := 0, nsecHi := 0, str := (List.replicate tsLen 0x30).set secLen 0x2e }

/-- The seconds are rewritten only if they changed. -/
def updateSec (cache : Tscache) (sec : Int64) : Option Tscache :=
  if cache.sec ≠ sec then do
    let (str, _) ← u64tod sec.toUInt64 cache.str 0 secLen 0x30
    return { cache with sec, str }
  else some cache

/-- So are the high digits of the nanoseconds. -/
def updateNsecHi (cache : Tscache) (nhi : UInt32) : Option Tscache :=
  if cache.nsecHi ≠ nhi then do
    let (str, _) ← u64tod nhi.toUInt64 cache.str nsecHiOffset nsecHiLen 0x30
    return { cache with nsecHi := nhi, str }
  else some cache

def update (cache : Tscache) (format : TimestampFormat) (time : Timestamp) : Option Tscache := do
  let ts := time.toTimespec format
  let nhi := (ts.nsec / nsecSplit).toUInt64.toUInt32
  let nlo := (ts.nsec % nsecSplit).toUInt64.toUInt32
  let cache ← cache.updateSec ts.sec
  let cache ← cache.updateNsecHi nhi
  let (str, _) ← u64tod nlo.toUInt64 cache.str nsecLoOffset nsecLoLen 0x30
  return { cache with str }

/-- One update after another. -/
def updates (format : TimestampFormat) (cache : Tscache) (times : List Timestamp) :
    Option Tscache :=
  times.foldlM (fun cache time => cache.update format time) cache

end Tscache

/-! ## The digits -/

theorem digitLoop_eq {room : Nat} {value : UInt64} (fits : value.toNat < 10 ^ room)
    (positive : 0 < room) : (digitLoop room value).reverse = spell 10 value.toNat := by
  induction room generalizing value with
  | zero => exact absurd positive (Nat.lt_irrefl 0)
  | succ room ih =>
      have digit : (value % 10).toUInt8 + 0x30 = digitChar (value.toNat % 10) := by
        have small := Nat.mod_lt value.toNat (show 0 < 10 by decide)
        rw [digitChar, if_pos small, ← UInt8.toNat_inj, UInt8.toNat_add, UInt8.toNat_ofNat',
          UInt64.toNat_toUInt8, UInt64.toNat_mod]
        change (value.toNat % 10 % 256 + 48) % 256 = (48 + value.toNat % 10) % 256
        omega
      have rest : (value / 10).toNat = value.toNat / 10 := UInt64.toNat_div value 10
      simp only [digitLoop, digit]
      split
      · rename_i last
        have small : value.toNat < 10 := by
          rw [last] at rest
          change 0 = _ at rest
          omega
        rw [spell_small small, Nat.mod_eq_of_lt small]
        rfl
      · rename_i more
        have large : 10 ≤ value.toNat := by
          by_contra small
          apply more
          rw [← UInt64.toNat_inj, rest]
          change _ = 0
          omega
        have room' : 0 < room := by
          rcases Nat.eq_zero_or_pos room with rfl | room'
          · omega
          · exact room'
        have front : (value / 10).toNat < 10 ^ room := by
          rw [rest]
          rw [Nat.pow_succ] at fits
          exact Nat.div_lt_of_lt_mul (by omega)
        rw [List.reverse_cons, ih front room', rest, spell_step large]

theorem u64tod_eq (value : UInt64) (str : List UInt8) (index : Nat) {width : Nat}
    (narrow : width ≤ 32) :
    u64tod value str index width 0x30 = (writeAt str index (padded width value.toNat)).map
      fun str => (str, index + (padded width value.toNat).length) := by
  have spelled : (digitLoop 32 value).reverse = spell 10 value.toNat :=
    digitLoop_eq (Nat.lt_trans value.toNat_lt (by decide)) (by decide)
  have length : (digitLoop 32 value).length = (spell 10 value.toNat).length := by
    rw [← spelled, List.length_reverse]
  have text : (digitLoop 32 value ++
      List.replicate (width - (digitLoop 32 value).length) 0x30).reverse =
        padded width value.toNat := by
    rw [List.reverse_append, spelled, List.reverse_replicate, length, padded]
  have size : (digitLoop 32 value ++
      List.replicate (width - (digitLoop 32 value).length) 0x30).length =
        (padded width value.toNat).length := by
    rw [← text, List.length_reverse]
  simp only [u64tod, if_neg (Nat.not_lt.mpr narrow), text, size]
  cases writeAt str index (padded width value.toNat) <;> rfl

/-- A number without a width, stored behind what is there. -/
theorem u64tod_put (value : UInt64) (cursor : List UInt8 × Nat) :
    u64tod value cursor.1 cursor.2 0 0x30 = put cursor (spell 10 value.toNat) := by
  rw [u64tod_eq _ _ _ (Nat.zero_le 32), padded_wide (Nat.zero_le _), put]

/-- A number that fits is stored, and the array keeps its size. -/
theorem u64tod_inside {value : UInt64} {str : List UInt8} {index width limit : Nat}
    (narrow : width ≤ 32) (wide : width ≤ limit) (positive : 0 < limit)
    (fits : value.toNat < 10 ^ limit) (inside : index + limit ≤ str.length) :
    ∃ after next, u64tod value str index width 0x30 = some (after, next) ∧
      after.length = str.length := by
  have short := padded_length_le wide positive fits
  obtain ⟨after, written⟩ := writeAt_exists str index (padded width value.toNat) (by omega)
  refine ⟨after, index + (padded width value.toNat).length, ?_, writeAt_length written⟩
  rw [u64tod_eq _ _ _ narrow, written]
  rfl

/-! ## The parts of a timestamp -/

section Words

variable {value divisor : UInt64}

theorem msb_of_small (small : value.toNat < 2 ^ 63) : value.toBitVec.msb = false := by
  rw [BitVec.msb_eq_false_iff_two_mul_lt]
  change 2 * value.toNat < 2 ^ 64
  omega

/-- Signed division of words without a sign. -/
theorem toUInt64_div (small : value.toNat < 2 ^ 63) (small' : divisor.toNat < 2 ^ 63) :
    (value.toInt64 / divisor.toInt64).toUInt64 = value / divisor := by
  apply UInt64.toBitVec_inj.mp
  change value.toBitVec.sdiv divisor.toBitVec = _
  rw [BitVec.sdiv_eq, msb_of_small small, msb_of_small small', UInt64.toBitVec_div]
  rfl

theorem toUInt64_mod (small : value.toNat < 2 ^ 63) (small' : divisor.toNat < 2 ^ 63) :
    (value.toInt64 % divisor.toInt64).toUInt64 = value % divisor := by
  apply UInt64.toBitVec_inj.mp
  change value.toBitVec.srem divisor.toBitVec = _
  rw [BitVec.srem_eq, msb_of_small small, msb_of_small small', UInt64.toBitVec_mod]

theorem nsecHi_toNat (small : value.toNat < 2 ^ 32) :
    (value.toInt64 / Tscache.nsecSplit).toUInt64.toUInt32.toNat = value.toNat / 10000 := by
  have quotient : (value.toInt64 / Tscache.nsecSplit).toUInt64 = value / 10000 :=
    toUInt64_div (Nat.lt_trans small (by decide)) (by decide)
  rw [quotient, UInt64.toNat_toUInt32, UInt64.toNat_div]
  change value.toNat / 10000 % 2 ^ 32 = _
  omega

theorem nsecLo_toNat (small : value.toNat < 2 ^ 32) :
    (value.toInt64 % Tscache.nsecSplit).toUInt64.toUInt32.toUInt64.toNat = value.toNat % 10000 := by
  have remainder : (value.toInt64 % Tscache.nsecSplit).toUInt64 = value % 10000 :=
    toUInt64_mod (Nat.lt_trans small (by decide)) (by decide)
  rw [remainder, UInt32.toNat_toUInt64, UInt64.toNat_toUInt32, UInt64.toNat_mod]
  change value.toNat % 10000 % 2 ^ 32 = _
  omega

end Words

/-- In either build the seconds have at most eleven digits and the
nanoseconds fit into 32 bits. -/
theorem toTimespec_words (time : Timestamp) (format : TimestampFormat) :
    ∃ sec nsec : UInt64, time.toTimespec format = ⟨sec.toInt64, nsec.toInt64⟩ ∧
      sec.toNat < 10 ^ 11 ∧ nsec.toNat < 2 ^ 32 := by
  cases format with
  | timespec =>
      refine ⟨_, _, rfl, ?_, ?_⟩
      · rw [UInt32.toNat_toUInt64]
        exact Nat.lt_trans time.sec.toNat_lt (by decide)
      · rw [UInt32.toNat_toUInt64]
        exact time.nsec.toNat_lt
  | nanoseconds =>
      have bound := time.u64.toNat_lt
      refine ⟨_, _, rfl, ?_, ?_⟩
      · rw [UInt64.toNat_div, Timestamp.nsecPerSec_toNat]
        omega
      · rw [UInt64.toNat_mod, Timestamp.nsecPerSec_toNat]
        omega

namespace Tscache

variable {cache : Tscache} {low : List UInt8}

/-- In either build an update keeps to its array. -/
theorem update_inside (whole : cache.str.length = tsLen) (format : TimestampFormat)
    (time : Timestamp) :
    ∃ after, cache.update format time = some after ∧ after.str.length = tsLen := by
  obtain ⟨sec, nsec, parts, secFits, nsecFits⟩ := toTimespec_words time format
  have hi := nsecHi_toNat nsecFits
  have lo := nsecLo_toNat nsecFits
  obtain ⟨first, firstEq, firstWhole⟩ : ∃ after, cache.updateSec sec.toInt64 = some after ∧
      after.str.length = tsLen := by
    rw [updateSec]
    split
    · obtain ⟨str, next, stored, length⟩ := @u64tod_inside sec.toInt64.toUInt64 cache.str 0 secLen 11
        (by decide) (by decide) (by decide) (by rwa [UInt64.toUInt64_toInt64])
        (by rw [whole]; decide)
      rw [stored]
      exact ⟨_, rfl, length.trans whole⟩
    · exact ⟨cache, rfl, whole⟩
  obtain ⟨second, secondEq, secondWhole⟩ : ∃ after,
      first.updateNsecHi (nsec.toInt64 / nsecSplit).toUInt64.toUInt32 = some after ∧
      after.str.length = tsLen := by
    rw [updateNsecHi]
    split
    · obtain ⟨str, next, stored, length⟩ := @u64tod_inside
        (nsec.toInt64 / nsecSplit).toUInt64.toUInt32.toUInt64 first.str nsecHiOffset nsecHiLen 6
        (by decide) (by decide) (by decide)
        (by rw [UInt32.toNat_toUInt64, hi]; omega) (by rw [firstWhole]; decide)
      rw [stored]
      exact ⟨_, rfl, length.trans firstWhole⟩
    · exact ⟨first, rfl, firstWhole⟩
  obtain ⟨str, next, stored, length⟩ := @u64tod_inside
    (nsec.toInt64 % nsecSplit).toUInt64.toUInt32.toUInt64 second.str nsecLoOffset nsecLoLen 4
    (by decide) (by decide) (by decide) (by rw [lo]; omega) (by rw [secondWhole]; decide)
  refine ⟨{ second with str }, ?_, length.trans secondWhole⟩
  simp only [update, parts, firstEq, secondEq, Option.bind_eq_bind, Option.bind_some, stored]
  rfl

/-- The text shows the cached seconds and high digits, in front of `low`. -/
structure Shows (cache : Tscache) (low : List UInt8) : Prop where
  secFits : cache.sec.toUInt64.toNat < 10 ^ secLen
  nsecHiFits : cache.nsecHi.toNat < 10 ^ nsecHiLen
  str : cache.str = padded secLen cache.sec.toUInt64.toNat ++ ascii "." ++
    padded nsecHiLen cache.nsecHi.toNat ++ low
  lowLength : low.length = nsecLoLen

theorem create_shows : create.Shows (List.replicate nsecLoLen 0x30) where
  secFits := by decide
  nsecHiFits := by decide
  str := rfl
  lowLength := List.length_replicate

theorem Shows.updateSec (shows : cache.Shows low) {sec : Int64}
    (fits : sec.toUInt64.toNat < 10 ^ secLen) :
    ∃ after, cache.updateSec sec = some after ∧ after.Shows low ∧ after.sec = sec := by
  by_cases cached : cache.sec = sec
  · refine ⟨cache, ?_, shows, cached⟩
    rw [Tscache.updateSec, if_neg (not_not.mpr cached)]
  · have same : (padded secLen sec.toUInt64.toNat).length =
        (padded secLen cache.sec.toUInt64.toNat).length := by
      rw [padded_length (by decide) fits, padded_length (by decide) shows.secFits]
    have written := @writeAt_middle _ [] _ (ascii "." ++ padded nsecHiLen cache.nsecHi.toNat ++ low)
      same
    simp only [List.nil_append, List.length_nil, ← List.append_assoc] at written
    rw [Tscache.updateSec, if_pos cached, u64tod_eq _ _ _ (by decide), shows.str, written]
    exact ⟨_, rfl, ⟨fits, shows.nsecHiFits, rfl, shows.lowLength⟩, rfl⟩

theorem Shows.updateNsecHi (shows : cache.Shows low) {nhi : UInt32}
    (fits : nhi.toNat < 10 ^ nsecHiLen) :
    ∃ after, cache.updateNsecHi nhi = some after ∧ after.Shows low ∧ after.nsecHi = nhi ∧
      after.sec = cache.sec := by
  by_cases cached : cache.nsecHi = nhi
  · refine ⟨cache, ?_, shows, cached, rfl⟩
    rw [Tscache.updateNsecHi, if_neg (not_not.mpr cached)]
  · have same : (padded nsecHiLen nhi.toNat).length =
        (padded nsecHiLen cache.nsecHi.toNat).length := by
      rw [padded_length (by decide) fits, padded_length (by decide) shows.nsecHiFits]
    have written := @writeAt_middle _ (padded secLen cache.sec.toUInt64.toNat ++ ascii ".") _ low same
    rw [List.length_append, padded_length (by decide) shows.secFits] at written
    rw [Tscache.updateNsecHi, if_pos cached, u64tod_eq _ _ _ (by decide), shows.str,
      UInt32.toNat_toUInt64, nsecHiOffset, show (1 : Nat) = (ascii ".").length from rfl, written]
    exact ⟨_, rfl, ⟨shows.secFits, fits, rfl, shows.lowLength⟩, rfl, rfl⟩

/-- The text of a nanosecond value: the seconds and the nanoseconds. -/
def reference (nsec : Nat) : List UInt8 :=
  padded secLen (nsec / 1000000000) ++ ascii "." ++ padded nsecLen (nsec % 1000000000)

/-- An update of a cache that shows something shows the new value. -/
theorem Shows.update (shows : cache.Shows low) (time : Timestamp) :
    ∃ after, cache.update .nanoseconds time = some after ∧
      after.Shows (padded nsecLoLen (time.u64.toNat % 1000000000 % 10000)) ∧
      after.str = reference time.u64.toNat := by
  have bound := time.u64.toNat_lt
  have secEq : (time.u64 / UInt64.ofNat Timestamp.nsecPerSec).toNat = time.u64.toNat / 1000000000 :=
    by rw [UInt64.toNat_div, Timestamp.nsecPerSec_toNat]
  have nsecEq : (time.u64 % UInt64.ofNat Timestamp.nsecPerSec).toNat = time.u64.toNat % 1000000000 :=
    by rw [UInt64.toNat_mod, Timestamp.nsecPerSec_toNat]
  have nsecSmall : (time.u64 % UInt64.ofNat Timestamp.nsecPerSec).toNat < 2 ^ 32 := by omega
  have hi := nsecHi_toNat nsecSmall
  have lo := nsecLo_toNat nsecSmall
  rw [nsecEq] at hi lo
  have loFits : time.u64.toNat % 1000000000 % 10000 < 10 ^ nsecLoLen :=
    Nat.mod_lt _ (by decide)
  obtain ⟨first, firstEq, firstShows, firstSec⟩ := @Shows.updateSec cache low shows
    (time.u64 / UInt64.ofNat Timestamp.nsecPerSec).toInt64 (by
      rw [UInt64.toUInt64_toInt64, secEq, secLen]
      omega)
  obtain ⟨second, secondEq, secondShows, secondHi, secondSec⟩ :=
    firstShows.updateNsecHi (show _ < 10 ^ nsecHiLen by rw [hi, nsecHiLen]; omega)
  have same : (padded nsecLoLen (time.u64.toNat % 1000000000 % 10000)).length = low.length := by
    rw [padded_length (by decide) loFits, secondShows.lowLength]
  have written := @writeAt_middle _ (padded secLen second.sec.toUInt64.toNat ++ ascii "." ++
    padded nsecHiLen second.nsecHi.toNat) _ [] same
  rw [List.length_append, List.length_append, padded_length (by decide) secondShows.secFits,
    padded_length (by decide) secondShows.nsecHiFits, List.append_nil, List.append_nil] at written
  refine ⟨{ second with
      str := (padded secLen second.sec.toUInt64.toNat ++ ascii "." ++
        padded nsecHiLen second.nsecHi.toNat ++
        padded nsecLoLen (time.u64.toNat % 1000000000 % 10000)) }, ?_,
    ⟨secondShows.secFits, secondShows.nsecHiFits, rfl, padded_length (by decide) loFits⟩, ?_⟩
  · simp only [Tscache.update, Timestamp.toTimespec, firstEq, secondEq, Option.bind_eq_bind,
      Option.bind_some]
    rw [u64tod_eq _ _ _ (by decide), lo, secondShows.str, nsecLoOffset, nsecHiOffset,
      show (1 : Nat) = (ascii ".").length from rfl, written]
    rfl
  · dsimp only
    rw [secondSec, firstSec, secondHi, hi, UInt64.toUInt64_toInt64, secEq, List.append_assoc,
      reference]
    have parts := @padded_split (time.u64.toNat % 1000000000) nsecHiLen nsecLoLen (by decide)
      (by decide) (Nat.mod_lt _ (by decide))
    exact congrArg _ parts.symm

theorem updates_concat (format : TimestampFormat) (cache : Tscache) (times : List Timestamp)
    (last : Timestamp) : updates format cache (times ++ [last]) =
      (updates format cache times).bind fun cache => cache.update format last := by
  rw [updates, List.foldlM_append]
  apply Option.bind_congr
  intro cache _
  exact bind_pure _

/-- Some text is shown after any updates. -/
theorem updates_shows (times : List Timestamp) :
    ∃ cache low, updates .nanoseconds create times = some cache ∧ cache.Shows low := by
  induction times using List.reverseRecOn with
  | nil => exact ⟨create, _, rfl, create_shows⟩
  | append_singleton times last ih =>
      obtain ⟨cache, low, updated, shows⟩ := ih
      obtain ⟨after, afterEq, shown, -⟩ := shows.update last
      exact ⟨after, _, by rw [updates_concat, updated, Option.bind_some, afterEq], shown⟩

/-- Whatever was shown before, the text is that of the last update, with all
its digits and no more. -/
theorem updates_show_last (earlier : List Timestamp) (last : Timestamp) :
    ∃ cache, updates .nanoseconds create (earlier ++ [last]) = some cache ∧
      cache.str = reference last.u64.toNat ∧ cache.str.length = tsLen ∧
      (padded secLen (last.u64.toNat / 1000000000)).length = secLen ∧
      (padded nsecLen (last.u64.toNat % 1000000000)).length = nsecLen := by
  have bound := last.u64.toNat_lt
  obtain ⟨cache, low, updated, shows⟩ := updates_shows earlier
  obtain ⟨after, afterEq, -, shown⟩ := shows.update last
  have secLength : (padded secLen (last.u64.toNat / 1000000000)).length = secLen :=
    padded_length (by decide) (by rw [secLen]; omega)
  have nsecLength : (padded nsecLen (last.u64.toNat % 1000000000)).length = nsecLen :=
    padded_length (by decide) (Nat.mod_lt _ (by decide))
  refine ⟨after, by rw [updates_concat, updated, Option.bind_some, afterEq], shown, ?_, secLength,
    nsecLength⟩
  rw [shown, reference, List.length_append, List.length_append, secLength, nsecLength]
  rfl

end Tscache

end Hogl.Format
