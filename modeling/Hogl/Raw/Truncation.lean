import Hogl.Data.Streams
import Hogl.Raw.Resync

namespace Hogl.Raw

open Hogl.Data

/-! # A log that was cut off

A raw log can end anywhere: the disk was full, the process died, or it is
still being written.  What the parser has accepted of a stream it accepts of
every longer one, so a record that is cut short is never taken for another
record or for an invalid one.
-/

/-! ## More bytes behind the input -/

section Extended

variable {version : Version} {width index count : Nat} {input rest : List UInt8}

theorem announced_append (more : List UInt8) (enough : width ≤ input.length) :
    announced width (input ++ more) = announced width input := by
  rw [announced, List.take_append_of_le_length enough, announced]

theorem body_append (more : List UInt8) (enough : width ≤ input.length) :
    body width (input ++ more) = body width input ++ more := by
  rw [body, List.drop_append_of_le_length enough, body]

theorem Complete.append (complete : Complete width input) (more : List UInt8) :
    Complete width (input ++ more) := by
  refine ⟨complete.1.trans (List.prefix_append _ _).length_le, ?_⟩
  rw [announced_append more complete.1, body_append more complete.1, List.length_append]
  exact complete.2.trans (Nat.le_add_right _ _)

theorem available_append (complete : Complete width input) (more : List UInt8) :
    available width (input ++ more) = available width input := by
  rw [available, if_pos (complete.append more).1, available, if_pos complete.1,
    announced_append more complete.1, body_append more complete.1,
    List.take_append_of_le_length complete.2]

theorem behind_append (complete : Complete width input) (more : List UInt8) :
    behind width (input ++ more) = behind width input ++ more := by
  rw [behind, announced_append more complete.1, body_append more complete.1,
    List.drop_append_of_le_length complete.2, behind]

theorem wordEnd_append (found : wordEnd width input = some rest) (more : List UInt8) :
    wordEnd width (input ++ more) = some (rest ++ more) := by
  obtain ⟨enough, rfl⟩ := wordEnd_eq_some found
  rw [wordEnd, if_pos (enough.trans (List.prefix_append _ _).length_le),
    List.drop_append_of_le_length enough]

theorem nameEnd_append (found : nameEnd input = some rest) (more : List UInt8) :
    nameEnd (input ++ more) = some (rest ++ more) := by
  rw [nameEnd] at found
  split at found
  · rename_i accepted
    cases found
    rw [nameEnd, available_append accepted.1, if_pos ⟨accepted.1.append more, accepted.2⟩,
      behind_append accepted.1]
  · cases found

theorem headerEnd_append (found : headerEnd input = some rest) (more : List UInt8) :
    headerEnd (input ++ more) = some (rest ++ more) := by
  simp only [headerEnd, Option.bind_eq_bind, Option.bind_eq_some_iff] at found ⊢
  obtain ⟨first, word, second, ring, third, area, sect⟩ := found
  exact ⟨_, wordEnd_append word more, _, nameEnd_append ring more, _, nameEnd_append area more,
    nameEnd_append sect more⟩

theorem argSection_append {argtype : BitVec 64} (found : argSection input = some (argtype, rest))
    (more : List UInt8) : argSection (input ++ more) = some (argtype, rest ++ more) := by
  simp only [argSection, Option.bind_eq_bind, Option.bind_eq_some_iff, Option.pure_def,
    Option.some.injEq, Prod.mk.injEq] at found ⊢
  obtain ⟨first, word, second, header, third, types, rfl, rfl⟩ := found
  refine ⟨_, wordEnd_append word more, _, headerEnd_append header more, _,
    wordEnd_append types more, ?_, rfl⟩
  rw [announced_append more (wordEnd_eq_some types).1]

theorem Field.Whole.append {field : Field} (whole : field.Whole input) (more : List UInt8) :
    field.Whole (input ++ more) ∧ field.rest (input ++ more) = field.rest input ++ more ∧
      field.stored (input ++ more) = field.stored input := by
  cases field with
  | text =>
      have complete : Complete 2 input := whole
      refine ⟨complete.append more, behind_append complete more, ?_⟩
      simp only [Field.stored, terminated, if_pos complete, if_pos (complete.append more),
        available_append complete more]
  | block width => exact ⟨Complete.append whole more, behind_append whole more,
      available_append whole more⟩
  | word width => exact ⟨Nat.le_trans whole (List.prefix_append _ _).length_le,
      List.drop_append_of_le_length whole, rfl⟩

theorem argsEnd_append {argtype : BitVec 64}
    (found : argsEnd version argtype count index input = some rest) (more : List UInt8) :
    argsEnd version argtype count index (input ++ more) = some (rest ++ more) := by
  induction count generalizing index input with
  | zero =>
      cases found
      rfl
  | succ count ih =>
      rw [argsEnd] at found ⊢
      split at found
      · rename_i unset
        cases found
        rw [if_pos unset]
      · rename_i set
        simp only at found ⊢
        split at found
        · rename_i whole
          obtain ⟨still, restEq, -⟩ := whole.append more
          rw [if_neg set, if_pos still, restEq]
          exact ih found
        · cases found

theorem recordEnd_append (found : recordEnd version input = some rest) (more : List UInt8) :
    recordEnd version (input ++ more) = some (rest ++ more) := by
  simp only [recordEnd, Option.bind_eq_bind, Option.bind_eq_some_iff] at found ⊢
  obtain ⟨⟨argtype, args⟩, header, ended⟩ := found
  exact ⟨_, argSection_append header more, argsEnd_append ended more⟩

theorem available_append_le (width : Nat) (input more : List UInt8) :
    (available width input).length ≤ (available width (input ++ more)).length := by
  by_cases enough : width ≤ input.length
  · have longer := enough.trans (List.prefix_append input more).length_le
    rw [available, if_pos enough, available, if_pos longer, announced_append more enough,
      body_append more enough, List.length_take, List.length_take, List.length_append]
    omega
  · rw [available, if_neg enough]
    exact Nat.zero_le _

/-- An argument that is cut off asks for no more than the whole one. -/
theorem stored_append_le (field : Field) (input more : List UInt8) :
    (field.stored input).length ≤ (field.stored (input ++ more)).length := by
  by_cases whole : field.Whole input
  · rw [(whole.append more).2.2]
  · cases field with
    | text =>
        have cut : ¬ Complete 2 input := whole
        simp only [Field.stored, terminated, if_neg cut]
        refine (available_append_le 2 input more).trans ?_
        split
        · rw [List.length_append]
          exact Nat.le_add_right _ _
        · exact Nat.le_refl _
    | block width => exact available_append_le width input more
    | word width => exact Nat.le_refl _

theorem storage_append_le (version : Version) (argtype : BitVec 64) (count index : Nat)
    (input more : List UInt8) :
    storage version argtype count index input ≤
      storage version argtype count index (input ++ more) := by
  induction count generalizing index input with
  | zero => exact Nat.le_refl _
  | succ count ih =>
      rw [storage, storage]
      split
      · exact Nat.le_refl _
      · simp only
        refine Nat.add_le_add (stored_append_le _ input more) ?_
        split
        · rename_i whole
          obtain ⟨still, restEq, -⟩ := whole.append more
          rw [if_pos still, restEq]
          exact ih _ _
        · exact Nat.zero_le _

theorem overruns_append {maxRecordSize : Nat} (beyond : overruns version maxRecordSize input = true)
    (more : List UInt8) : overruns version maxRecordSize (input ++ more) = true := by
  rw [overruns] at beyond ⊢
  cases found : argSection input with
  | none =>
      rw [found] at beyond
      cases beyond
  | some pair =>
      obtain ⟨argtype, args⟩ := pair
      rw [found] at beyond
      rw [argSection_append found more]
      have larger := storage_append_le version argtype Record.nargs 0 args more
      simp only [decide_eq_true_eq] at beyond ⊢
      omega

theorem invalidNames_append {names : Nat} (invalid : invalidNames names input = true)
    (more : List UInt8) : invalidNames names (input ++ more) = true := by
  induction names generalizing input with
  | zero => cases invalid
  | succ names ih =>
      rw [invalidNames] at invalid ⊢
      cases found : nameEnd input with
      | some rest =>
          rw [found] at invalid
          rw [nameEnd_append found more]
          exact ih invalid
      | none =>
          rw [found] at invalid
          have complete : Complete 1 input := of_decide_eq_true invalid
          have refused : nameEnd (input ++ more) = none := by
            refine if_neg fun accepted => ?_
            rw [available_append complete more] at accepted
            rw [nameEnd, if_pos ⟨complete, accepted.2⟩] at found
            cases found
          rw [refused]
          exact decide_eq_true (complete.append more)

theorem invalidName_append (invalid : invalidName input = true) (more : List UInt8) :
    invalidName (input ++ more) = true := by
  rw [invalidName] at invalid ⊢
  cases word : wordEnd 8 input with
  | none =>
      rw [word] at invalid
      cases invalid
  | some first =>
      simp only [word, invalidHeader] at invalid
      rw [wordEnd_append word more]
      simp only [invalidHeader]
      cases number : wordEnd 8 first with
      | none =>
          rw [number] at invalid
          cases invalid
      | some second =>
          rw [number] at invalid
          rw [wordEnd_append number more]
          exact invalidNames_append invalid more

end Extended

/-! ## A record that is cut off -/

section Packed

variable {strings : UInt64 → List UInt8} {maxRecordSize : Nat} {data : FormatData}
  {bytes : List UInt8}

theorem Packable.reading (packable : Packable strings maxRecordSize data)
    (most : maxRecordSize < 2 ^ 32) (rest : List UInt8) :
    Raw.reading .v1_1 maxRecordSize (pack strings data ++ rest) = .record rest := by
  have least : Record.byteSize ≤ maxRecordSize := (Nat.le_add_right _ _).trans packable.fits
  have ready := Parser.blankParser_ready maxRecordSize (pack strings data ++ rest)
  obtain ⟨decoded, after, called, -, -, input, -⟩ := next_packed ready most rfl packable rfl
  have follows := Parser.next_follows .v1_1 ready least most ⟨rfl, rfl⟩
  change Parser.Follows .v1_1 maxRecordSize _
    (Raw.reading .v1_1 maxRecordSize (pack strings data ++ rest)) at follows
  cases read : Raw.reading .v1_1 maxRecordSize (pack strings data ++ rest) with
  | record left =>
      rw [read] at follows
      obtain ⟨_, other, called', -, -, input'⟩ := follows
      rw [called] at called'
      cases called'
      rw [← input', input]
  | overrun =>
      rw [read] at follows
      cases called.symm.trans follows
  | ended | invalid | cut =>
      rw [read] at follows
      obtain ⟨other, called', -⟩ := follows
      cases called.symm.trans called'

/-- A record that is cut off is taken for the end of the log, and for nothing
else. -/
theorem Packable.reading_cut (packable : Packable strings maxRecordSize data)
    (most : maxRecordSize < 2 ^ 32) (start : bytes <+: pack strings data)
    (short : bytes ≠ pack strings data) :
    Raw.reading .v1_1 maxRecordSize bytes = .ended ∨
      Raw.reading .v1_1 maxRecordSize bytes = .cut := by
  obtain ⟨more, whole⟩ := start
  have read := packable.reading most []
  rw [List.append_nil, ← whole] at read
  obtain ⟨fits, ended⟩ := reading_eq_record read
  cases early : Raw.reading .v1_1 maxRecordSize bytes with
  | ended => exact .inl rfl
  | cut => exact .inr rfl
  | record left =>
      have extended := recordEnd_append (reading_eq_record early).2 more
      rw [ended, Option.some.injEq] at extended
      rw [(List.append_eq_nil_iff.mp extended.symm).2, List.append_nil] at whole
      exact absurd whole short
  | invalid =>
      have extended : Raw.reading .v1_1 maxRecordSize (bytes ++ more) = .invalid :=
        reading_eq_invalid_iff.mpr (invalidName_append (reading_eq_invalid_iff.mp early) more)
      rw [read] at extended
      cases extended
  | overrun =>
      have beyond : overruns .v1_1 maxRecordSize bytes = true := by
        rw [Raw.reading] at early
        split at early
        · cases early
        split at early
        · assumption
        split at early
        · cases early
        split at early <;> cases early
      rw [← overruns_eq_false_iff, overruns_append beyond more] at fits
      cases fits

end Packed

namespace Cook

variable {settings : Settings} {file : List UInt8} {strings : UInt64 → List UInt8}

/-- The loop of `reprocess` on records with a cut-off one behind them. -/
theorem fetch_cut {items : List FormatData} {parser : Parser} {left : List UInt8} {fuel : Nat}
    (least : Record.byteSize ≤ settings.maxRecordSize.toNat)
    (ready : parser.Ready settings.maxRecordSize.toNat) (clean : parser.Clean)
    (packable : ∀ item ∈ items, Packable strings settings.maxRecordSize.toNat item)
    (input : parser.input = items.flatMap (pack strings) ++ left)
    (stops : reading .v1_1 settings.maxRecordSize.toNat left = .ended ∨
      reading .v1_1 settings.maxRecordSize.toNat left = .cut) (enough : items.length < fuel) :
    ∃ emitted stop after, fetch file .v1_1 fuel parser = (emitted, stop, .returned after) ∧
      List.Forall₂ (SameRecord strings) items (emitted.map Emission.data) ∧
      (after.failed = false ∨ after.Cut) := by
  have most := settings.maxRecordSize.toNat_lt
  have follows := Parser.next_follows .v1_1 ready least most clean
  induction items generalizing parser fuel with
  | nil =>
      obtain ⟨fuel, rfl⟩ := Nat.exists_eq_succ_of_ne_zero (Nat.ne_of_gt enough)
      rw [input, List.flatMap_nil, List.nil_append] at follows
      rcases stops with ended | cut
      · rw [ended] at follows
        obtain ⟨after, called, ok⟩ := follows
        exact ⟨[], count file parser, after, by simp only [fetch, called], .nil, .inl ok⟩
      · rw [cut] at follows
        obtain ⟨after, called, isCut⟩ := follows
        exact ⟨[], count file parser, after, by simp only [fetch, called], .nil, .inr isCut⟩
  | cons item items ih =>
      obtain ⟨fuel, rfl⟩ := Nat.exists_eq_succ_of_ne_zero (Nat.ne_of_gt (Nat.zero_lt_of_lt enough))
      rw [List.flatMap_cons, List.append_assoc] at input
      have here : Packable strings settings.maxRecordSize.toNat item := packable item (by simp)
      rw [input, here.reading most] at follows
      obtain ⟨decoded, after, called, same, -⟩ := next_packed ready most clean.1 here input
      obtain ⟨_, _, called', afterClean, afterReady, afterInput⟩ := follows
      rw [called] at called'
      cases called'
      obtain ⟨emitted, stop, final, fetched, sames, ending⟩ := ih afterReady afterClean
        (fun other member => packable other (by simp [member])) afterInput
        (Nat.lt_of_succ_lt_succ enough) (Parser.next_follows .v1_1 afterReady least most afterClean)
      refine ⟨⟨count file parser, count file after, decoded⟩ :: emitted, stop, final, ?_,
        .cons same sames, ending⟩
      simp only [fetch, called, fetched]

theorem process_cut {items : List FormatData} {left : List UInt8}
    (memory : Nat → Memory settings) (version : settings.version = .v1_1)
    (least : Record.byteSize ≤ settings.maxRecordSize.toNat)
    (packable : ∀ item ∈ items, Packable strings settings.maxRecordSize.toNat item)
    (stops : reading .v1_1 settings.maxRecordSize.toNat left = .ended ∨
      reading .v1_1 settings.maxRecordSize.toNat left = .cut) :
    List.Forall₂ (SameRecord strings) items
        ((process (items.flatMap (pack strings) ++ left) memory).emitted.map Emission.data) ∧
      (process (items.flatMap (pack strings) ++ left) memory).ending = .done := by
  have size := length_le_packed strings items
  obtain ⟨emitted, stop, after, fetched, same, ending⟩ := @fetch_cut settings
    (items.flatMap (pack strings) ++ left) strings items
    ((memory 0).parser (items.flatMap (pack strings) ++ left)) left
    ((items.flatMap (pack strings) ++ left).length + 1) least ((memory 0).ready _)
    ((memory 0).clean _) packable rfl stops (by rw [List.length_append]; omega)
  rw [process, processFrom, reprocess, if_neg (Nat.not_lt.mpr least), version, List.drop_zero,
    fetched]
  rcases ending with ok | cut
  · simp only [ok, Bool.false_eq_true, if_false]
    exact ⟨same, trivial⟩
  · simp only [cut.1, cut.2, Bool.false_eq_true, if_true, if_false, ite_self]
    exact ⟨same, trivial⟩

/-- What is left behind the whole records ends the first attempt. -/
theorem process_left {whole missing : List FormatData} {left : List UInt8}
    (memory : Nat → Memory settings) (version : settings.version = .v1_1)
    (least : Record.byteSize ≤ settings.maxRecordSize.toNat)
    (packable : ∀ item ∈ whole ++ missing, Packable strings settings.maxRecordSize.toNat item)
    (empty : missing = [] → left = [])
    (next : ∀ item ∈ missing.head?, left <+: pack strings item ∧ left ≠ pack strings item) :
    List.Forall₂ (SameRecord strings) whole
        ((process (whole.flatMap (pack strings) ++ left) memory).emitted.map Emission.data) ∧
      (process (whole.flatMap (pack strings) ++ left) memory).ending = .done := by
  refine process_cut memory version least
    (fun item member => packable item (List.mem_append_left _ member)) ?_
  cases missing with
  | nil =>
      rw [empty rfl]
      exact .inl rfl
  | cons item missing =>
      obtain ⟨start, short⟩ := next item rfl
      exact (packable item (by simp)).reading_cut settings.maxRecordSize.toNat_lt start short

end Cook

end Hogl.Raw
