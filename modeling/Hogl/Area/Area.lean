import Hogl.Data.BitWords
import Hogl.Record.Record

namespace Hogl

open Hogl.Data

/-! # Areas and their section bits

`include/hogl/detail/bitmap.hpp`, `include/hogl/detail/area.hpp` and
`src/area.cc` on a machine with 64-bit words. -/

/-- `hogl::bitmap`; its array has a word for every bit. -/
structure Bitmap where
  size : UInt32
  data : List (BitVec 64)
  covered : size.toNat ≤ 64 * data.length

namespace Bitmap

def nwords (size : UInt32) : UInt32 := (size + 63) / 64

/-- `resize` and `reset`, where the rounded-up size does not wrap. -/
def create (size : UInt32) : Option Bitmap :=
  if covered : size.toNat ≤ 64 * (nwords size).toNat then
    some {
      size
      data := List.replicate (nwords size).toNat 0
      covered := by rwa [List.length_replicate] }
  else none

variable (bitmap : Bitmap)

def set (bit : Nat) (value : Bool) : Bitmap :=
  { bitmap with
    data := setBit bitmap.data bit value
    covered := by rw [setBit_length]; exact bitmap.covered }

def test (bit : Nat) : Bool := testBit bitmap.data bit

variable {bitmap}

theorem test_set {bit : Nat} (inside : bit < bitmap.size.toNat) (value : Bool) (other : Nat) :
    (bitmap.set bit value).test other = if other = bit then value else bitmap.test other :=
  testBit_setBit (by decide) (Nat.lt_of_lt_of_le inside bitmap.covered) value other

@[ext] theorem ext {first second : Bitmap} (size : first.size = second.size)
    (data : first.data = second.data) : first = second := by
  cases first
  cases second
  simp_all only

end Bitmap

/-- `hogl::area` with a bit for every section. -/
structure MaskedArea extends Area where
  bitmap : Bitmap
  sized : bitmap.size.toNat = sections.length

namespace MaskedArea

/-- `area::area` with a list of section names. -/
def create (name : List UInt8) (sections : List (List UInt8)) : Option MaskedArea := do
  let bitmap ← Bitmap.create (UInt32.ofNat sections.length)
  if sized : bitmap.size.toNat = sections.length then return { name, sections, bitmap, sized }
  else none

/-- An area is created with any number of sections whose rounded-up number
does not wrap. -/
theorem create_some (name : List UInt8) {sections : List (List UInt8)}
    (small : sections.length + 63 < 2 ^ 32) :
    ∃ area, create name sections = some area ∧ area.toArea = ⟨name, sections⟩ := by
  have count : (UInt32.ofNat sections.length).toNat = sections.length := by
    rw [UInt32.toNat_ofNat']
    exact Nat.mod_eq_of_lt (by omega)
  have covered : (UInt32.ofNat sections.length).toNat ≤
      64 * (Bitmap.nwords (UInt32.ofNat sections.length)).toNat := by
    rw [Bitmap.nwords, UInt32.toNat_div, UInt32.toNat_add, count]
    change _ ≤ 64 * ((sections.length + 63) % 2 ^ 32 / 64)
    omega
  obtain ⟨bitmap, made, size⟩ : ∃ bitmap, Bitmap.create (UInt32.ofNat sections.length) =
      some bitmap ∧ bitmap.size = UInt32.ofNat sections.length := ⟨_, dif_pos covered, rfl⟩
  have sized : bitmap.size.toNat = sections.length := by rw [size, count]
  refine ⟨{ name, sections, bitmap, sized }, ?_, rfl⟩
  rw [create, made, Option.bind_eq_bind, Option.bind_some, dif_pos sized]
  rfl

variable (area : MaskedArea)

def size : Nat := area.bitmap.size.toNat

def test (sect : Nat) : Bool := area.bitmap.test sect

def set (sect : Nat) (value : Bool) : MaskedArea :=
  { area with bitmap := area.bitmap.set sect value }

@[simp] theorem set_toArea (sect : Nat) (value : Bool) : (area.set sect value).toArea = area.toArea := rfl

@[simp] theorem set_size (sect : Nat) (value : Bool) : (area.set sect value).size = area.size := rfl

@[simp] theorem set_length (sect : Nat) (value : Bool) :
    (area.set sect value).bitmap.data.length = area.bitmap.data.length :=
  setBit_length _ _ _

variable {area}

theorem test_set {sect : Nat} (valid : sect < area.size) (value : Bool) (other : Nat) :
    (area.set sect value).test other = if other = sect then value else area.test other :=
  Bitmap.test_set valid value other

/-- What an operation on the section bits leaves alone. -/
structure Same (before after : MaskedArea) : Prop where
  toArea : after.toArea = before.toArea
  size : after.bitmap.size = before.bitmap.size
  words : after.bitmap.data.length = before.bitmap.data.length

theorem Same.refl (area : MaskedArea) : Same area area := ⟨rfl, rfl, rfl⟩

theorem Same.trans {before middle after : MaskedArea} (first : Same before middle)
    (second : Same middle after) : Same before after :=
  ⟨second.toArea.trans first.toArea, second.size.trans first.size, second.words.trans first.words⟩

theorem Same.set (area : MaskedArea) (sect : Nat) (value : Bool) :
    Same area (area.set sect value) :=
  ⟨rfl, rfl, setBit_length _ _ _⟩

theorem Same.size_eq {before after : MaskedArea} (same : Same before after) :
    after.size = before.size :=
  congrArg UInt32.toNat same.size

theorem Same.eq_of_test {before after : MaskedArea} (same : Same before after)
    (bits : ∀ sect, after.test sect = before.test sect) : after = before := by
  have data : after.bitmap.data = before.bitmap.data :=
    words_ext (by decide) same.words fun bit _ => bits bit
  have bitmap : after.bitmap = before.bitmap := Bitmap.ext same.size data
  have toArea := same.toArea
  cases before
  cases after
  simp_all only

end MaskedArea

end Hogl
