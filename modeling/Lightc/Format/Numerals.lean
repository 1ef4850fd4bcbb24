import Lightc.Format.Builder
import Lightc.Io.Print
import Lightc.Verification.Numeral
import Mathlib.Data.FinEnum

/-!
# Numerals in text

What a numeral is, said without the code: a text that reads as the number, with
lowercase digits and no zero in front. There is exactly one for every number, and
the builder, the `lc_print_…` functions and a writer all emit it, though each renders
with loops of its own.
-/

namespace Lightc.Format

open Machine Io Verification

/-- The value of a digit, with the lowercase letters after the ten figures. -/
def digitValue (c : UInt8) : Option Nat :=
  if 48 ≤ c ∧ c ≤ 57 then some (c.toNat - 48)
  else if 97 ≤ c ∧ c ≤ 102 then some (c.toNat - 87)
  else none

/-- The value of a digit of some base. -/
def readDigit (base : Nat) (c : UInt8) : Option Nat := (digitValue c).filter (· < base)

/-- The number a text of digits stands for. -/
def parse (base : Nat) (text : List UInt8) : Option Nat :=
  text.foldlM (fun n c => (readDigit base c).map (n * base + ·)) 0

/-- The number a text with an optional sign stands for. -/
def parseSigned : List UInt8 → Option Int
  | 45 :: digits => (parse 10 digits).map fun n => -Int.ofNat n
  | digits => (parse 10 digits).map Int.ofNat

/-- A text of digits without a zero in front. -/
structure Bare (text : List UInt8) : Prop where
  some : text ≠ []
  leading : text.head? = .some 48 → text = [48]

/-- A text is the canonical numeral of a number. -/
structure IsNumeral (base n : Nat) (text : List UInt8) : Prop where
  reads : parse base text = .some n
  bare : Bare text

/-- A text is the canonical numeral of a signed number: only a negative one has a
sign. -/
structure IsSigned (value : Int) (text : List UInt8) : Prop where
  reads : parseSigned text = .some value
  sign : text.head? = .some 45 → value < 0
  bare : Bare (if text.head? = .some 45 then text.tail else text)

/-- The digits a function gives, and no others, are read back, and it has `0` for 0. -/
structure Digits (base : Nat) (digit : Nat → UInt8) : Prop where
  two : 1 < base
  zero : digit 0 = 48
  read : ∀ d < base, readDigit base (digit d) = some d
  eq : ∀ c, ∀ d ∈ readDigit base c, c = digit d

theorem digits_decimal : Digits 10 decimalDigit :=
  ⟨by decide, rfl, by decide, by decide +kernel⟩

theorem digits_hex : Digits 16 hexDigit :=
  ⟨by decide, rfl, by decide, by decide +kernel⟩

theorem digits_binary : Digits 2 decimalDigit :=
  ⟨by decide, rfl, by decide, by decide +kernel⟩

variable {base n : Nat} {digit : Nat → UInt8} {digits : List Nat} {text : List UInt8}

theorem readDigit_lt {c : UInt8} {d : Nat} (read : readDigit base c = some d) : d < base := by
  simpa using (Option.filter_eq_some_iff.mp read).2

theorem numeral_eq_map (base n : Nat) (digit : Nat → UInt8) :
    Io.numeral base digit n = (Numeral.numeral base n).map digit := by
  rw [Io.numeral, Numeral.numeral]
  split <;> rfl

namespace Digits

variable (h : Digits base digit)
include h

theorem injective {d e : Nat} (hd : d < base) (he : e < base) (same : digit d = digit e) :
    d = e := by
  have := h.read d hd
  rw [same, h.read e he] at this
  exact (Option.some.inj this).symm

/-- A text reads as a number when it is made of digits of that value. -/
theorem parse_iff (text : List UInt8) (n : Nat) :
    parse base text = some n ↔ ∃ digits : List Nat, text = digits.map digit ∧
      (∀ d ∈ digits, d < base) ∧ Numeral.value base digits = n := by
  suffices from_ : ∀ start, text.foldlM (fun n c => (readDigit base c).map (n * base + ·)) start =
      some n ↔ ∃ digits : List Nat, text = digits.map digit ∧ (∀ d ∈ digits, d < base) ∧
        digits.foldl (fun n d => n * base + d) start = n from from_ 0
  induction text with
  | nil =>
    intro start
    refine ⟨fun done => ⟨[], rfl, by simp, Option.some.inj done⟩, ?_⟩
    rintro ⟨digits, none, -, rfl⟩
    rw [List.map_eq_nil_iff.mp none.symm]
    rfl
  | cons c text ih =>
    intro start
    rw [List.foldlM_cons]
    constructor
    · intro read
      obtain ⟨next, first, rest⟩ := Option.bind_eq_some_iff.mp read
      obtain ⟨d, at_, rfl⟩ := Option.map_eq_some_iff.mp first
      obtain ⟨digits, rfl, lt, value⟩ := (ih _).mp rest
      refine ⟨d :: digits, by rw [h.eq c d at_, List.map_cons], ?_, value⟩
      exact List.forall_mem_cons.mpr ⟨readDigit_lt at_, lt⟩
    · rintro ⟨digits, made, lt, value⟩
      obtain ⟨d, digits, rfl, rfl, rfl⟩ := List.map_eq_cons_iff.mp made.symm
      obtain ⟨first, rest⟩ := List.forall_mem_cons.mp lt
      rw [h.read d first]
      exact (ih _).mpr ⟨digits, rfl, rest, value⟩

theorem bare_iff (lt : ∀ d ∈ digits, d < base) :
    Bare (digits.map digit) ↔ Numeral.Canonical digits := by
  cases digits with
  | nil => exact ⟨fun bare => absurd rfl bare.some, fun canonical => absurd rfl canonical.1⟩
  | cons d digits =>
    have first : digit d = 48 ↔ d = 0 := by
      rw [← h.zero]
      have := h.two
      exact ⟨h.injective (lt d List.mem_cons_self) (by omega), congrArg digit⟩
    constructor
    · intro bare
      refine ⟨List.cons_ne_nil _ _, fun zero => ?_⟩
      have := bare.leading
      simp_all
    · intro canonical
      refine ⟨List.cons_ne_nil _ _, fun zero => ?_⟩
      have := canonical.2
      simp_all

/-- There is one canonical numeral, the one the loops render. -/
theorem isNumeral_iff (n : Nat) (text : List UInt8) :
    IsNumeral base n text ↔ text = Io.numeral base digit n := by
  rw [numeral_eq_map]
  constructor
  · rintro ⟨reads, bare⟩
    obtain ⟨digits, rfl, lt, rfl⟩ := (h.parse_iff _ _).mp reads
    rw [← Numeral.eq_numeral h.two ((h.bare_iff lt).mp bare) lt]
  · rintro rfl
    have lt := Numeral.numeral_lt h.two n
    exact ⟨(h.parse_iff _ _).mpr ⟨_, rfl, lt, Numeral.value_numeral base n⟩,
      (h.bare_iff lt).mpr (Numeral.canonical_numeral base n)⟩

end Digits

/-! ### Signed numerals -/

theorem parseSigned_of_unsigned (unsigned : text.head? ≠ some 45) :
    parseSigned text = (parse 10 text).map Int.ofNat := by
  rw [parseSigned.eq_def]
  split
  · exact absurd rfl unsigned
  · rfl

/-- No numeral starts with a sign. -/
theorem IsNumeral.unsigned (h : IsNumeral 10 n text) : text.head? ≠ some 45 := by
  intro sign
  obtain ⟨digits, rfl⟩ := List.head?_eq_some_iff.mp sign
  have none : parse 10 (45 :: digits) = none := rfl
  exact absurd (none.symm.trans h.reads) nofun

theorem isSigned_cons_iff (value : Int) (digits : List UInt8) :
    IsSigned value (45 :: digits) ↔ value < 0 ∧ IsNumeral 10 value.natAbs digits := by
  constructor
  · rintro ⟨reads, sign, bare⟩
    obtain ⟨n, magnitude, rfl⟩ := Option.map_eq_some_iff.mp reads
    refine ⟨sign rfl, ?_, bare⟩
    rw [magnitude, Int.natAbs_neg]
    rfl
  · rintro ⟨negative, reads, bare⟩
    refine ⟨Option.map_eq_some_iff.mpr ⟨_, reads, ?_⟩, fun _ => negative, bare⟩
    rw [Int.ofNat_eq_natCast]
    omega

theorem isSigned_of_unsigned (value : Int) (unsigned : text.head? ≠ some 45) :
    IsSigned value text ↔ 0 ≤ value ∧ IsNumeral 10 value.natAbs text := by
  have reads_eq := parseSigned_of_unsigned unsigned
  constructor
  · rintro ⟨reads, -, bare⟩
    obtain ⟨n, magnitude, rfl⟩ := Option.map_eq_some_iff.mp (reads_eq.symm.trans reads)
    rw [if_neg unsigned] at bare
    exact ⟨Int.natCast_nonneg n, magnitude, bare⟩
  · rintro ⟨nonneg, reads, bare⟩
    refine ⟨?_, fun sign => absurd sign unsigned, by rwa [if_neg unsigned]⟩
    rw [reads_eq, reads]
    exact congrArg some (Int.natAbs_of_nonneg nonneg)

theorem isSigned_iff (value : Int) (text : List UInt8) :
    IsSigned value text ↔ text = if value < 0 then 45 :: numeral 10 decimalDigit value.natAbs
      else numeral 10 decimalDigit value.natAbs := by
  have numeral_iff := digits_decimal.isNumeral_iff value.natAbs
  by_cases sign : text.head? = some 45
  · obtain ⟨digits, rfl⟩ := List.head?_eq_some_iff.mp sign
    rw [isSigned_cons_iff, numeral_iff]
    split
    · next negative => simp [negative]
    · next nonneg =>
      refine ⟨fun h => absurd h.1 nonneg, fun h => ?_⟩
      exact absurd sign ((numeral_iff _).mpr h).unsigned
  · rw [isSigned_of_unsigned value sign, numeral_iff]
    split
    · next negative =>
      refine ⟨fun h => absurd h.1 (by omega), fun h => ?_⟩
      exact absurd (by rw [h]; rfl) sign
    · next nonneg => exact ⟨fun h => h.2, fun h => ⟨by omega, h⟩⟩

/-! ### The printers -/

/-- A call of the builder adds a text. -/
def Builds (call : LcFormat → Option LcFormat) (text : List UInt8) : Prop :=
  ∀ fmt, call fmt = putBytes fmt text

/-- A printing call leaves a text with every kernel that takes what it is given. -/
def Prints (call : Nat → Writes Unit) (text : List UInt8) : Prop :=
  ∀ fuel s, (∀ r ∈ s.replies, r.Accepts) → s.replies.length + 20 < fuel →
    ∃ t, call fuel s = .done () t ∧ t.writer = s.writer ∧ t.accepted = s.accepted ++ text

/-- A call of a writer puts a text behind what was put before. -/
def Puts (call : Nat → Writes Unit) (text : List UInt8) : Prop :=
  ∀ fuel before s, Wrote fuel before s → 20 < fuel →
    ∃ t, call fuel s = .done () t ∧ Wrote fuel (before ++ text) t

theorem prints_of_spec {call : Nat → Writes Unit}
    (spec : ∀ {fuel s}, (∀ r ∈ s.replies, r.Accepts) → s.replies.length + 20 < fuel →
      Total (fun t => t = s) (call fuel) fun _ t => Printed text s t) : Prints call text := by
  intro fuel s accepting enough
  obtain ⟨_, t, run, printed⟩ := spec accepting enough s rfl
  exact ⟨t, run, printed.writer, printed.accepted⟩

theorem puts_of_spec {call : Nat → Writes Unit}
    (spec : ∀ {fuel before s}, Wrote fuel before s → 20 < fuel →
      Total (fun t => t = s) (call fuel) fun _ t => Wrote fuel (before ++ text) t) :
    Puts call text := by
  intro fuel before s wrote enough
  obtain ⟨_, t, run, wrote'⟩ := spec wrote enough s rfl
  exact ⟨t, run, wrote'⟩

/-- For every 64-bit number there are texts, each the only canonical numeral of its
kind, that all the printers emit: in decimal, signed decimal, hexadecimal behind `0x`
and binary behind `0b`. The padded calls emit them behind what is missing to the
width. No digit is stored before a scratch buffer: the renderers have a result in
20, 16, 64 and 21 bytes, and a call of the others comes back. -/
theorem printers_emit_canonical (value : UInt64) (signed : Int64) :
    ∃ decimal sdecimal hex binary : List UInt8,
      (∀ text, IsNumeral 10 value.toNat text ↔ text = decimal) ∧
      (∀ text, IsSigned signed.toInt text ↔ text = sdecimal) ∧
      (∀ text, IsNumeral 16 value.toNat text ↔ text = hex) ∧
      (∀ text, IsNumeral 2 value.toNat text ↔ text = binary) ∧
      (Builds (lcFormatAddUnsigned · value) decimal ∧ Prints (lcPrintUnsigned · value) decimal ∧
        Puts (lcWriterPutUnsigned · value) decimal) ∧
      (Builds (lcFormatAddSigned · signed) sdecimal ∧ Prints (lcPrintSigned · signed) sdecimal ∧
        Puts (lcWriterPutSigned · signed) sdecimal) ∧
      (Builds (lcFormatAddHex · value) ([48, 120] ++ hex) ∧
        Prints (lcPrintHex · value) ([48, 120] ++ hex) ∧
        Puts (lcWriterPutHex · value) ([48, 120] ++ hex)) ∧
      Builds (lcFormatAddBinary · value) ([48, 98] ++ binary) ∧
      (∀ (width : UInt32) (pad : UInt8),
        Builds (lcFormatAddUnsignedPadded · value width pad)
          (List.replicate (width.toNat - decimal.length) pad ++ decimal) ∧
        Builds (lcFormatAddSignedPadded · signed width pad)
          (List.replicate (width.toNat - sdecimal.length) pad ++ sdecimal) ∧
        Builds (lcFormatAddHexPadded · value width)
          (List.replicate (width.toNat - hex.length) 48 ++ hex)) ∧
      renderUnsigned value 20 = some decimal ∧ renderHex value 16 = some hex ∧
      renderBinary value 64 = some binary ∧ fillTmp signed = some sdecimal := by
  refine ⟨unsignedText value, signedText signed, hexText value, binaryText value,
    digits_decimal.isNumeral_iff _, isSigned_iff _, digits_hex.isNumeral_iff _,
    digits_binary.isNumeral_iff _, ⟨?_, ?_, ?_⟩, ⟨?_, ?_, ?_⟩, ⟨?_, ?_, ?_⟩, ?_, ?_,
    renderUnsigned_eq value, renderHex_eq value, renderBinary_eq value, fillTmp_eq signed⟩
  · exact fun fmt => lcFormatAddUnsigned_eq fmt value
  · exact prints_of_spec (lcPrintUnsigned_spec value)
  · exact puts_of_spec (lcWriterPutUnsigned_spec value)
  · exact fun fmt => lcFormatAddSigned_eq fmt signed
  · exact prints_of_spec (lcPrintSigned_spec signed)
  · exact puts_of_spec (lcWriterPutSigned_spec signed)
  · exact fun fmt => lcFormatAddHex_eq fmt value
  · exact prints_of_spec (lcPrintHex_spec value)
  · exact puts_of_spec (lcWriterPutHex_spec value)
  · exact fun fmt => lcFormatAddBinary_eq fmt value
  · exact fun width pad => ⟨fun fmt => lcFormatAddUnsignedPadded_eq fmt value width pad,
      fun fmt => lcFormatAddSignedPadded_eq fmt signed width pad,
      fun fmt => lcFormatAddHexPadded_eq fmt value width⟩

end Lightc.Format
