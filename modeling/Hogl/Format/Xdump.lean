import Hogl.Format.Hexdump
import Hogl.Record.Copies

namespace Hogl.Format

open Hogl.Data

/-! # Dumps of stored data

What `do_xdump` does on a payload that holds the posted format. -/

variable {index : Nat}

/-- The numeric types have no conversion that is taken for the start of a line. -/
theorem xdumpConversion_inside {format : XdumpFormat} {conversion : String}
    (known : xdumpConversion format = some conversion) : Inside conversion := by
  have floats (precision : Nat) : Inside (fltFmt precision) := by
    unfold fltFmt Inside
    split <;> decide
  have doubles (precision : Nat) : Inside (dblFmt precision) := by
    unfold dblFmt Inside
    split <;> decide
  rw [xdumpConversion] at known
  split at known
  all_goals cases known
  all_goals first | exact floats _ | exact doubles _ | (rw [Inside]; decide)

/-- A classic dump of at least one value with lines of width zero. -/
def Endless (format : XdumpFormat) (len : Nat) : Prop :=
  Char.ofNat format.type.toNat = 'H' ∧ format.lineWidth = 0 ∧ format.byteWidth.toNat ≤ len

instance (format : XdumpFormat) (len : Nat) : Decidable (Endless format len) :=
  inferInstanceAs (Decidable (_ ∧ _ ∧ _))

/-- `do_xdump` on a payload that starts with its format. -/
theorem doXdump_format (format : XdumpFormat) (kept : List UInt8)
    (width : format.byteWidth.toNat ≠ 0) :
    doXdump (format.bytes ++ kept) =
      if Char.ofNat format.type.toNat = 'H' then
        doHexdump kept (kept.length / format.byteWidth.toNat) format
      else match xdumpConversion format with
        | some conversion => xdumpMulti kept (kept.length / format.byteWidth.toNat)
            format.byteWidth.toNat conversion format
        | none => .ok [.conversion "xdump conversion type %c not supported" [format.type]] := by
  have whole : (format.bytes ++ kept).length = 4 + kept.length := by
    rw [List.length_append, XdumpFormat.bytes_length]
    rfl
  have header : load (format.bytes ++ kept) 0 XdumpFormat.byteSize = .ok format.bytes := by
    rw [load_ok (by rw [whole, XdumpFormat.byteSize]; omega)]
    rfl
  have parsed : XdumpFormat.ofBytes format.bytes = format := by
    simpa using XdumpFormat.ofBytes_bytes format []
  have data : (format.bytes ++ kept).drop XdumpFormat.byteSize = kept := rfl
  have count : (format.bytes ++ kept).length - XdumpFormat.byteSize = kept.length := by
    rw [whole, XdumpFormat.byteSize]
    omega
  have enough : ¬ (format.bytes ++ kept).length < XdumpFormat.byteSize := by
    rw [whole, XdumpFormat.byteSize]
    omega
  cases known : xdumpConversion format with
  | none =>
      simp only [doXdump, enough, if_false, header, data, count, bind, Except.bind, parsed, width,
        known]
  | some conversion =>
      simp only [doXdump, enough, if_false, header, data, count, bind, Except.bind, parsed, width,
        known]

/-- On a payload that starts with its format `do_xdump` never faults, and it
returns unless the dump is endless. -/
theorem doXdump_stored (format : XdumpFormat) (kept : List UInt8)
    (width : format.byteWidth.toNat ≠ 0) (small : kept.length + 256 ≤ 2 ^ 32) :
    if Endless format kept.length then doXdump (format.bytes ++ kept) = .error .endless
    else ∃ pieces, doXdump (format.bytes ++ kept) = .ok pieces := by
  have values : kept.length / format.byteWidth.toNat ≤ kept.length := Nat.div_le_self _ _
  rw [doXdump_format format kept width]
  by_cases classic : Char.ofNat format.type.toNat = 'H'
  · rw [if_pos classic]
    split
    next endless =>
      obtain ⟨_, narrow, nonempty⟩ := endless
      have zero : format.lineWidth.toNat = 0 := by rw [narrow]; rfl
      rw [doHexdump, zero]
      exact hexdumpFrom_endless values (Nat.div_pos nonempty (Nat.pos_of_ne_zero width)) _
    next ends =>
      have stops : ¬ Unending format.lineWidth.toNat (kept.length / format.byteWidth.toNat) := by
        intro ⟨nonempty, reason⟩
        have rows := Nat.mul_div_le
          (kept.length / format.byteWidth.toNat + format.lineWidth.toNat - 1)
          format.lineWidth.toNat
        have lineBound := format.lineWidth.toNat_lt
        rcases reason with narrow | past
        · have filled := Nat.div_pos_iff.mp nonempty
          exact ends ⟨classic, UInt8.toNat_inj.mp narrow, filled.2⟩
        · omega
      obtain ⟨pieces, printed, _⟩ := doHexdump_shows values stops
      exact ⟨pieces, printed⟩
  · rw [if_neg classic, if_neg fun endless => classic endless.1]
    split
    next known =>
      obtain ⟨pieces, printed, _⟩ :=
        xdumpMulti_shows (Nat.mul_div_le _ _) (xdumpConversion_inside known)
      exact ⟨pieces, printed⟩
    next => exact ⟨_, rfl⟩

theorem doXdump_empty : doXdump [] = .error .underflow := rfl

/-! ## The calls made while a record is formatted -/

variable {record : Record}

theorem outputArg_error {stop : XdumpStop} (failed : outputArg record index = .error stop) :
    record.getArgType index = .xdump ∧ doXdump (record.getArgData index) = .error stop := by
  cases type : record.getArgType index with
  | xdump =>
      refine ⟨rfl, ?_⟩
      cases dumped : doXdump (record.getArgData index) with
      | ok pieces => simp [outputArg, type, dumped, bind, Except.bind, pure, Except.pure] at failed
      | error reason => simpa [outputArg, type, dumped, bind, Except.bind] using failed
  | _ => simp [outputArg, type, bind, Except.bind, pure, Except.pure] at failed

theorem outputArg_ok {pieces : List Piece} (printed : outputArg record index = .ok pieces)
    (type : record.getArgType index = .xdump) :
    ∃ dump, doXdump (record.getArgData index) = .ok dump := by
  cases dumped : doXdump (record.getArgData index) with
  | ok dump => exact ⟨dump, rfl⟩
  | error reason => simp [outputArg, type, dumped, bind, Except.bind] at printed

/-- The formatter stops only inside a dump. -/
theorem outputArgs_error {positions : List Nat} {stop : XdumpStop}
    (failed : positions.mapM (outputArg record) = .error stop) :
    ∃ index ∈ xdumpCallsIn record positions,
      doXdump (record.getArgData index) = .error stop := by
  induction positions with
  | nil => cases failed
  | cons first rest ih =>
      cases printed : outputArg record first with
      | error reason =>
          simp only [List.mapM_cons, printed, bind, Except.bind, Except.error.injEq] at failed
          subst reason
          obtain ⟨type, stopped⟩ := outputArg_error printed
          exact ⟨first, by simp [xdumpCallsIn, type, stopped], stopped⟩
      | ok pieces =>
          have failedRest : rest.mapM (outputArg record) = .error stop := by
            cases others : rest.mapM (outputArg record) with
            | ok results =>
                simp [List.mapM_cons, printed, others, bind, Except.bind, pure, Except.pure]
                  at failed
            | error reason =>
                simpa [List.mapM_cons, printed, others, bind, Except.bind] using failed
          obtain ⟨index, called, stopped⟩ := ih failedRest
          refine ⟨index, ?_, stopped⟩
          by_cases type : record.getArgType first = .xdump
          · obtain ⟨dump, dumped⟩ := outputArg_ok printed type
            simp [xdumpCallsIn, type, dumped, called]
          · simpa [xdumpCallsIn, type] using called

theorem processArgs_error {stop : XdumpStop} (failed : processArgs record = .error stop) :
    ∃ index ∈ xdumpCalls record, doXdump (record.getArgData index) = .error stop := by
  cases kind : outputKind (record.getArgType 0) (record.getArgType 1) with
  | raw => simp [processArgs, kind] at failed
  | fmt => simp [processArgs, kind] at failed
  | plain =>
      simp only [processArgs, kind] at failed
      simp only [xdumpCalls, kind]
      apply outputArgs_error
      cases printed : (argsFrom record 0).mapM (outputArg record) with
      | ok pieces =>
          simp [outputPlain, printed, bind, Except.bind, pure, Except.pure] at failed
      | error reason => simpa [outputPlain, printed, bind, Except.bind] using failed

/-- The loop of `output_plain` goes on behind this argument. -/
def Passed (record : Record) (index : Nat) : Prop :=
  record.getArgType index ≠ .none ∧ (record.getArgType index = .xdump →
    ∃ pieces, doXdump (record.getArgData index) = .ok pieces)

theorem mem_xdumpCallsIn_cons {rest : List Nat} {position : Nat} :
    index ∈ xdumpCallsIn record ((position :: rest).takeWhile fun other =>
        record.getArgType other ≠ .none) ↔
      index = position ∧ record.getArgType index = .xdump ∨
        Passed record position ∧ index ∈ xdumpCallsIn record (rest.takeWhile fun other =>
          record.getArgType other ≠ .none) := by
  by_cases unset : record.getArgType position = .none
  · simp only [List.takeWhile_cons, unset, ne_eq, not_true_eq_false, decide_false, xdumpCallsIn,
      Bool.false_eq_true, if_false, List.not_mem_nil, Passed, false_and, or_false, false_iff]
    rintro ⟨rfl, type⟩
    rw [unset] at type
    cases type
  · by_cases type : record.getArgType position = .xdump
    · cases dumped : doXdump (record.getArgData position) with
      | ok pieces =>
          simp only [List.takeWhile_cons, type, ne_eq, reduceCtorEq, not_false_eq_true, decide_true,
            if_true, xdumpCallsIn, dumped, List.mem_cons, Passed, Except.ok.injEq, exists_eq',
            imp_self, and_self, true_and]
          apply or_congr_left
          exact ⟨fun same => ⟨same, same ▸ type⟩, And.left⟩
      | error reason =>
          simp only [List.takeWhile_cons, type, ne_eq, reduceCtorEq, not_false_eq_true, decide_true,
            if_true, xdumpCallsIn, dumped, List.mem_singleton, Passed, exists_false, imp_false,
            not_true_eq_false, and_false, false_and, or_false]
          exact ⟨fun same => ⟨same, same ▸ type⟩, And.left⟩
    · simp only [List.takeWhile_cons, ne_eq, unset, not_false_eq_true, decide_true, if_true,
        xdumpCallsIn, type, if_false, Passed, false_implies, and_self, true_and]
      constructor
      · exact Or.inr
      · rintro (⟨rfl, called⟩ | called)
        · exact absurd called type
        · exact called

/-- `do_xdump` is called for a dump once all arguments before it are passed. -/
theorem mem_xdumpCallsIn {first count : Nat} :
    index ∈ xdumpCallsIn record ((List.range' first count).takeWhile fun position =>
        record.getArgType position ≠ .none) ↔
      first ≤ index ∧ index < first + count ∧ record.getArgType index = .xdump ∧
        ∀ earlier, first ≤ earlier → earlier < index → Passed record earlier := by
  induction count generalizing first with
  | zero =>
      simp only [List.range'_zero, List.takeWhile_nil, xdumpCallsIn, List.not_mem_nil, false_iff]
      omega
  | succ count ih =>
      rw [List.range'_succ, mem_xdumpCallsIn_cons, ih]
      constructor
      · rintro (⟨rfl, type⟩ | ⟨passed, above, below, type, between⟩)
        · exact ⟨Nat.le_refl _, by omega, type, fun earlier above below => by omega⟩
        · refine ⟨by omega, by omega, type, fun earlier lower upper => ?_⟩
          rcases Nat.eq_or_lt_of_le lower with rfl | beyond
          · exact passed
          · exact between earlier beyond upper
      · intro ⟨above, below, type, between⟩
        rcases Nat.eq_or_lt_of_le above with same | beyond
        · exact .inl ⟨same.symm, type⟩
        · exact .inr ⟨between first (Nat.le_refl _) beyond, beyond, by omega, type,
            fun earlier lower upper => between earlier (by omega) upper⟩

theorem mem_xdumpCalls : index ∈ xdumpCalls record ↔
    outputKind (record.getArgType 0) (record.getArgType 1) = .plain ∧ index < Record.nargs ∧
      record.getArgType index = .xdump ∧ ∀ earlier < index, Passed record earlier := by
  cases kind : outputKind (record.getArgType 0) (record.getArgType 1) with
  | raw => simp [xdumpCalls, kind]
  | fmt => simp [xdumpCalls, kind]
  | plain =>
      simp only [xdumpCalls, kind, argsFrom, mem_xdumpCallsIn, Nat.zero_le, true_and, Nat.zero_add,
        Nat.sub_zero, forall_const]

end Hogl.Format
