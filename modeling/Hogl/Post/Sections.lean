import Hogl.Area.Area
import Hogl.Format.Headers
import Hogl.Post.Posting
import Hogl.Raw.RoundTrip

namespace Hogl

open Hogl.Data Hogl.Ring

/-! # The section of a posted record

`post` gets a section as an `unsigned int`, the record keeps twelve bits of
it.  The formats look its name up again from those. -/

namespace Record

variable {record after : Record} {index : Nat} {tailroom offset : UInt32}

/-- The arguments may differ, the fields in front of them do not. -/
structure SameHeader (before after : Record) : Prop where
  area : after.area = before.area
  timestamp : after.timestamp = before.timestamp
  seqnum : after.seqnum = before.seqnum
  sect : after.sect = before.sect

theorem SameHeader.trans {first second third : Record} (left : SameHeader first second)
    (right : SameHeader second third) : SameHeader first third where
  area := right.area.trans left.area
  timestamp := right.timestamp.trans left.timestamp
  seqnum := right.seqnum.trans left.seqnum
  sect := right.sect.trans left.sect

theorem SameHeader.write {place : Nat} {bytes : List UInt8}
    (written : record.write place bytes = some after) : SameHeader record after := by
  obtain ⟨argval, -, rfl⟩ := Option.map_eq_some_iff.mp written
  exact ⟨rfl, rfl, rfl, rfl⟩

theorem SameHeader.setArgData {place len : UInt32}
    (written : record.setArgData index place len = some after) : SameHeader record after := by
  obtain ⟨middle, first, second⟩ := Option.bind_eq_some_iff.mp written
  exact (SameHeader.write first).trans (SameHeader.write second)

theorem SameHeader.copyData {data : List UInt8} {len : UInt32} {result : Record × UInt32}
    (copied : record.copyData index data len tailroom offset = some result) :
    SameHeader record result.1 := by
  obtain ⟨middle, first, rest⟩ := Option.bind_eq_some_iff.mp copied
  obtain ⟨last, second, same⟩ := Option.bind_eq_some_iff.mp rest
  cases same
  exact (SameHeader.write first).trans (SameHeader.setArgData second)

theorem SameHeader.copyXdump {format : XdumpFormat} {data : List UInt8} {len : UInt32}
    {result : Record × UInt32}
    (copied : record.copyXdump index format data len tailroom offset = some result) :
    SameHeader record result.1 := by
  unfold Record.copyXdump at copied
  extract_lets hlen room whole len at copied
  split at copied
  · obtain ⟨last, stored, same⟩ := Option.bind_eq_some_iff.mp copied
    cases same
    exact SameHeader.setArgData stored
  · obtain ⟨first, header, rest⟩ := Option.bind_eq_some_iff.mp copied
    obtain ⟨second, body, rest⟩ := Option.bind_eq_some_iff.mp rest
    obtain ⟨last, stored, same⟩ := Option.bind_eq_some_iff.mp rest
    cases same
    exact ((SameHeader.write header).trans (SameHeader.write body)).trans
      (SameHeader.setArgData stored)

/-- The steps behind the text: the terminator and the value slot. -/
theorem SameHeader.terminated {place : Nat} {start len used : UInt32} {result : Record × UInt32}
    (copied : (record.write place [0] >>= fun record => record.setArgData index start len >>=
      fun record => some (record, used)) = some result) : SameHeader record result.1 := by
  obtain ⟨ended, terminator, rest⟩ := Option.bind_eq_some_iff.mp copied
  obtain ⟨last, stored, same⟩ := Option.bind_eq_some_iff.mp rest
  cases same
  exact (SameHeader.write terminator).trans (SameHeader.setArgData stored)

theorem SameHeader.copyCstr {str : List UInt8} {len : UInt32} {result : Record × UInt32}
    (copied : record.copyCstr index str len tailroom offset = some result) :
    SameHeader record result.1 := by
  simp only [Record.copyCstr, Option.bind_eq_bind] at copied
  split at copied
  · obtain ⟨last, stored, same⟩ := Option.bind_eq_some_iff.mp copied
    cases same
    exact SameHeader.setArgData stored
  · split at copied
    · split at copied
      · obtain ⟨marked, marker, rest⟩ := Option.bind_eq_some_iff.mp copied
        obtain ⟨first, text, rest⟩ := Option.bind_eq_some_iff.mp rest
        exact ((SameHeader.write marker).trans (SameHeader.write text)).trans
          (SameHeader.terminated rest)
      · obtain ⟨first, text, rest⟩ := Option.bind_eq_some_iff.mp copied
        exact (SameHeader.write text).trans (SameHeader.terminated rest)
    · obtain ⟨first, text, rest⟩ := Option.bind_eq_some_iff.mp copied
      exact (SameHeader.write text).trans (SameHeader.terminated rest)

theorem SameHeader.setArg {arg : Arg} {result : Record × UInt32}
    (stored : record.setArg index arg tailroom offset = some result) :
    SameHeader record result.1 := by
  cases arg with
  | none =>
      cases stored
      exact ⟨rfl, rfl, rfl, rfl⟩
  | value type val =>
      simp only [Record.setArg] at stored
      split at stored
      · obtain ⟨copy, written, same⟩ := Option.bind_eq_some_iff.mp stored
        cases same
        have kept := SameHeader.write written
        exact ⟨kept.area, kept.timestamp, kept.seqnum, kept.sect⟩
      · obtain ⟨copy, written, same⟩ := Option.bind_eq_some_iff.mp stored
        cases same
        have kept := SameHeader.write written
        exact ⟨kept.area, kept.timestamp, kept.seqnum, kept.sect⟩
  | cstr str =>
      obtain ⟨copy, copied, same⟩ := Option.bind_eq_some_iff.mp stored
      cases same
      have kept := SameHeader.copyCstr copied
      exact ⟨kept.area, kept.timestamp, kept.seqnum, kept.sect⟩
  | raw data =>
      obtain ⟨copy, copied, same⟩ := Option.bind_eq_some_iff.mp stored
      cases same
      have kept := SameHeader.copyData copied
      exact ⟨kept.area, kept.timestamp, kept.seqnum, kept.sect⟩
  | xdump format data =>
      obtain ⟨copy, copied, same⟩ := Option.bind_eq_some_iff.mp stored
      cases same
      have kept := SameHeader.copyXdump copied
      exact ⟨kept.area, kept.timestamp, kept.seqnum, kept.sect⟩

theorem SameHeader.setArgsFrom {args : List Arg} {result : Record × UInt32}
    (stored : setArgsFrom tailroom args index offset record = some result) :
    SameHeader record result.1 := by
  induction args generalizing index offset record with
  | nil =>
      cases stored
      exact ⟨rfl, rfl, rfl, rfl⟩
  | cons arg args ih =>
      obtain ⟨⟨middle, next⟩, first, rest⟩ := Option.bind_eq_some_iff.mp stored
      exact (SameHeader.setArg first).trans (ih rest)

theorem SameHeader.setPackedArg {pack : Argpack} {result : Record × UInt32}
    (stored : record.setPackedArg pack index tailroom offset = some result) :
    SameHeader record result.1 := by
  simp only [Record.setPackedArg] at stored
  split at stored
  · obtain ⟨copy, copied, same⟩ := Option.bind_eq_some_iff.mp stored
    cases same
    have kept := SameHeader.copyData copied
    exact kept
  · obtain ⟨copy, copied, same⟩ := Option.bind_eq_some_iff.mp stored
    cases same
    have kept := SameHeader.copyXdump copied
    exact kept
  · obtain ⟨copy, copied, same⟩ := Option.bind_eq_some_iff.mp stored
    cases same
    have kept := SameHeader.copyCstr copied
    exact kept
  · obtain ⟨copy, written, same⟩ := Option.bind_eq_some_iff.mp stored
    cases same
    exact SameHeader.write written

theorem SameHeader.setPackedArgsFrom {pack : Argpack} {count : Nat} {result : Record × UInt32}
    (stored : setPackedArgsFrom tailroom pack count index offset record = some result) :
    SameHeader record result.1 := by
  induction count generalizing index offset record with
  | zero =>
      cases stored
      exact ⟨rfl, rfl, rfl, rfl⟩
  | succ count ih =>
      obtain ⟨⟨middle, next⟩, first, rest⟩ := Option.bind_eq_some_iff.mp stored
      exact (SameHeader.setPackedArg first).trans (ih rest)

/-- Storing the arguments leaves the header of the record alone. -/
theorem SameHeader.encodeArgs {args : List Arg} {scratch : Argpack}
    (encoded : record.encodeArgs tailroom args scratch = some after) : SameHeader record after := by
  simp only [Record.encodeArgs] at encoded
  split at encoded
  · obtain ⟨result, stored, same⟩ := Option.bind_eq_some_iff.mp encoded
    cases same
    have kept := SameHeader.setArgsFrom stored
    exact ⟨kept.area, kept.timestamp, kept.seqnum, kept.sect⟩
  · obtain ⟨result, stored, same⟩ := Option.bind_eq_some_iff.mp encoded
    cases same
    have kept := SameHeader.setPackedArgsFrom stored
    exact ⟨kept.area, kept.timestamp, kept.seqnum, kept.sect⟩

end Record

namespace Post

/-- `post` of `include/hogl/post.hpp`; nothing is pushed for a section that
is not enabled. -/
def RecordRing.post (ring : RecordRing) (timestamp : UInt64) (area : MaskedArea) (sect : UInt32)
    (args : List Arg) (scratch : Argpack) : Option (Option PushOutcome × RecordRing) :=
  if area.test sect.toNat then
    (ring.pushUnlocked timestamp (some area.toArea) sect args scratch).map fun pushed =>
      (some pushed.1, pushed.2)
  else some (none, ring)

/-- The area and section names that stand in a packed record, behind the
timestamp, the sequence number and the name of the ring. -/
def packedNames (bytes : List UInt8) : List UInt8 × List UInt8 :=
  let names := Raw.behind 1 (bytes.drop 16)
  (Raw.available 1 names, Raw.available 1 (Raw.behind 1 names))

/-- Both formats report the record under these names, and it is a log record. -/
structure ReportedUnder (record : Record) (areaName sectName : List UInt8) : Prop where
  basic : ∀ ringName, (Format.RecordData.prepare record ringName).areaName = areaName ∧
    (Format.RecordData.prepare record ringName).sectName = sectName
  raw : ∀ strings ringName,
    packedNames (Raw.pack strings ⟨ringName, record⟩) = (areaName, sectName)
  regular : record.special = false

theorem push_header {ring after : RecordRing} {args : List Arg} {timestamp : UInt64}
    {area : Option Area} {sect : UInt32} {scratch : Argpack} {outcome : PushOutcome}
    (pushed : ring.pushUnlocked timestamp area sect args scratch = some (outcome, after)) :
    (after.ring.slots ring.ring.tail).area = area ∧
      (after.ring.slots ring.ring.tail).sect = BitVec.ofNat 12 sect.toNat := by
  obtain ⟨record, encoded, finished⟩ := Option.bind_eq_some_iff.mp pushed
  have same := Record.SameHeader.encodeArgs encoded
  have pushedRing : _ = after := congrArg Prod.snd (Option.some.inj finished)
  have slots : (after.ring.slots ring.ring.tail) = record := by
    rw [← pushedRing]
    change ((Ringbuf.store _ _ record).pushCommit.2.slots ring.ring.tail) = record
    rw [pushCommit_slots]
    exact if_pos rfl
  rw [slots, same.area, same.sect]
  simp [Ringbuf.incSeqnum, Ringbuf.store, Ringbuf.pushBegin]

theorem post_header {ring after : RecordRing} {area : MaskedArea} {sect : UInt32} {args : List Arg}
    {timestamp : UInt64} {scratch : Argpack} {outcome : Option PushOutcome}
    (enabled : area.test sect.toNat = true)
    (posted : ring.post timestamp area sect args scratch = some (outcome, after)) :
    (after.ring.slots ring.ring.tail).area = some area.toArea ∧
      (after.ring.slots ring.ring.tail).sect.toNat = sect.toNat % 2 ^ 12 := by
  rw [RecordRing.post, if_pos enabled] at posted
  obtain ⟨pushed, stored, same⟩ := Option.map_eq_some_iff.mp posted
  cases same
  obtain ⟨areaEq, sectEq⟩ := push_header stored
  refine ⟨areaEq, ?_⟩
  rw [sectEq]
  exact BitVec.toNat_ofNat _ _

theorem available_addStr (name rest : List UInt8) :
    Raw.available 1 (Raw.addStr 1 name ++ rest) = name.take 255 ∧
      Raw.behind 1 (Raw.addStr 1 name ++ rest) = rest := by
  have bound : min name.length 255 < 256 ^ 1 := by omega
  have size : (name.take (min name.length 255)).length = min name.length 255 := by
    rw [List.length_take]
    omega
  have clipped : name.take (min name.length 255) = name.take 255 := by
    rw [Nat.min_comm, ← List.take_take, List.take_length]
  refine ⟨?_, Raw.behind_packed bound size⟩
  rw [← clipped]
  exact Raw.available_packed bound size

/-- The name fields of a packed record hold 255 bytes of a name. -/
theorem packedNames_pack (strings : UInt64 → List UInt8) (data : FormatData) :
    packedNames (Raw.pack strings data) = (data.areaName.take 255, data.sectName.take 255) := by
  have front : (Raw.pack strings data).drop 16 = Raw.addStr 1 data.ringName ++
      (Raw.addStr 1 data.areaName ++ (Raw.addStr 1 data.sectName ++
        Raw.addArgs strings data.record)) := by
    simp only [Raw.pack, List.append_assoc]
    rw [← List.append_assoc (leBytes 8 _) (leBytes 8 _)]
    exact List.drop_left' (by rw [List.length_append, leBytes_length, leBytes_length])
  rw [packedNames, front, (available_addStr _ _).2, (available_addStr _ _).1,
    (available_addStr _ _).2, (available_addStr _ _).1]

/-- A posted record is reported under the names of its area and section
exactly when both fit the raw format and the twelve bits that are kept of the
section name the same one. -/
theorem post_reports_section_iff {ring after : RecordRing} {area : MaskedArea} {sect : UInt32}
    {args : List Arg} {timestamp : UInt64} {scratch : Argpack} {outcome : Option PushOutcome}
    (enabled : area.test sect.toNat = true)
    (posted : ring.post timestamp area sect args scratch = some (outcome, after)) :
    ReportedUnder (after.ring.slots ring.ring.tail) area.name (area.sectionName sect.toNat) ↔
      area.name.length ≤ 255 ∧ (area.sectionName sect.toNat).length ≤ 255 ∧
        area.sectionName (sect.toNat % 2 ^ 12) = area.sectionName sect.toNat := by
  obtain ⟨areaEq, sectEq⟩ := post_header enabled posted
  have looked (strings : UInt64 → List UInt8) (ringName : List UInt8) :
      packedNames (Raw.pack strings ⟨ringName, after.ring.slots ring.ring.tail⟩) =
        (area.name.take 255, (area.sectionName (sect.toNat % 2 ^ 12)).take 255) := by
    rw [packedNames_pack, FormatData.areaName, FormatData.sectName, areaEq, sectEq]
  constructor
  · intro reported
    have name := (reported.basic []).2
    simp only [Format.RecordData.prepare, areaEq, sectEq] at name
    have packed := reported.raw (fun _ => []) []
    rw [looked, name, Prod.mk.injEq, List.take_eq_self_iff, List.take_eq_self_iff] at packed
    exact ⟨packed.1, packed.2, name⟩
  · intro named
    obtain ⟨areaFits, sectFits, same⟩ := named
    refine ⟨fun ringName => ?_, fun strings ringName => ?_, ?_⟩
    · simp only [Format.RecordData.prepare, areaEq, sectEq, same, and_self]
    · rw [looked, same, (List.take_eq_self_iff _).mpr areaFits,
        (List.take_eq_self_iff _).mpr sectFits]
    · rw [Record.special, areaEq]
      rfl

/-- A section that was enabled can be posted to. -/
theorem post_enabled (name : List UInt8) {sections : List (List UInt8)}
    (small : sections.length + 63 < 2 ^ 32) {sect : UInt32} (inside : sect.toNat < sections.length) :
    ∃ (area : MaskedArea) (ring : RecordRing) (outcome : Option PushOutcome) (after : RecordRing),
      MaskedArea.create name sections = some area ∧
      area.toArea = ⟨name, sections⟩ ∧ sect.toNat < (area.set sect.toNat true).size ∧
      (area.set sect.toNat true).test sect.toNat = true ∧
      ring.post 7 (area.set sect.toNat true) sect [] ⟨0, fun _ => 0, fun _ => .none, fun _ => 0⟩ =
        some (outcome, after) := by
  obtain ⟨area, made, names⟩ := MaskedArea.create_some name small
  have size : area.size = sections.length := by rw [MaskedArea.size, area.sized, names]
  have enabled : (area.set sect.toNat true).test sect.toNat = true := by
    rw [MaskedArea.test_set (by omega), if_pos rfl]
  obtain ⟨ring, constructed⟩ : ∃ ring, RecordRing.construct ⟨1024, false, 128⟩ = some ring := ⟨_, rfl⟩
  obtain ⟨outcome, after, pushed, -⟩ := push_stores_arguments (by decide) (.constructed constructed)
    (Nat.zero_le _) (List.forall_mem_nil _) 7 (some (area.set sect.toNat true).toArea) sect
    ⟨0, fun _ => 0, fun _ => .none, fun _ => 0⟩
  refine ⟨area, ring, some outcome, after, made, names, ?_, enabled, ?_⟩
  · rw [MaskedArea.set_size, size]
    exact inside
  · rw [RecordRing.post, if_pos enabled, pushed]
    rfl

/-- An area with two sections. -/
theorem post_reports_section_warn :
    ∃ (area : MaskedArea) (ring : RecordRing) (outcome : Option PushOutcome) (after : RecordRing),
    MaskedArea.create (ascii "NET") [ascii "INFO", ascii "WARN"] = some area ∧
    ring.post 7 (area.set 1 true) 1 [] ⟨0, fun _ => 0, fun _ => .none, fun _ => 0⟩ =
      some (outcome, after) ∧
    ReportedUnder (after.ring.slots ring.ring.tail) (area.set 1 true).name
      ((area.set 1 true).sectionName 1) := by
  obtain ⟨area, ring, outcome, after, made, names, -, enabled, posted⟩ :=
    @post_enabled (ascii "NET") [ascii "INFO", ascii "WARN"] (by decide) 1 (by decide)
  refine ⟨area, ring, outcome, after, made, posted,
    (post_reports_section_iff enabled posted).mpr ⟨?_, ?_, rfl⟩⟩
  · rw [MaskedArea.set_toArea, names]
    decide
  · rw [MaskedArea.set_toArea, names]
    decide

/-- The names of an area with one section more than the field can tell apart. -/
def manySections : List (List UInt8) := List.replicate 4096 (ascii "A") ++ [ascii "B"]

theorem manySections_length : manySections.length = 4097 := by
  rw [manySections, List.length_append, List.length_replicate, List.length_singleton]

/-- The last section of a large area is reported as the first one. -/
theorem post_reports_other_section :
    ∃ (area : MaskedArea) (ring : RecordRing) (outcome : Option PushOutcome) (after : RecordRing),
    MaskedArea.create (ascii "NET") manySections = some area ∧
    4096 < (area.set 4096 true).size ∧ (area.set 4096 true).test 4096 = true ∧
    ring.post 7 (area.set 4096 true) 4096 [] ⟨0, fun _ => 0, fun _ => .none, fun _ => 0⟩ =
      some (outcome, after) ∧
    ¬ ReportedUnder (after.ring.slots ring.ring.tail) (area.set 4096 true).name
      ((area.set 4096 true).sectionName 4096) := by
  obtain ⟨area, ring, outcome, after, made, names, inside, enabled, posted⟩ :=
    @post_enabled (ascii "NET") manySections (by rw [manySections_length]; decide) 4096
      (by rw [manySections_length]; decide)
  refine ⟨area, ring, outcome, after, made, inside, enabled, posted, fun reported => ?_⟩
  obtain ⟨areaEq, sectEq⟩ := post_header enabled posted
  have name := (reported.basic []).2
  simp only [Format.RecordData.prepare, areaEq, sectEq, MaskedArea.set_toArea, names] at name
  have first : Area.sectionName ⟨ascii "NET", manySections⟩ 0 = ascii "A" := rfl
  have last : Area.sectionName ⟨ascii "NET", manySections⟩ 4096 = ascii "B" := by
    rw [Area.sectionName, manySections, List.getD_append_right _ _ _ _ (by rw [List.length_replicate]),
      List.length_replicate]
    rfl
  change Area.sectionName _ 0 = Area.sectionName _ 4096 at name
  rw [first, last] at name
  exact absurd name (by decide)

end Post

end Hogl
