import Lightc.Io.Writer

/-!
# Printing without a buffer

The `lc_print_…` functions hand their text to the kernel at once, a sign and a line
end in writes of their own. Numbers are rendered as by a writer, by loops of their
own over scratch buffers of the same sizes.

Over a kernel that takes what it is given, piece by piece, every call adds its text
to what the kernel has accepted (`printing_emits`).
-/

namespace Lightc.Io

open Verification

/-- `lc_print_string`. -/
def lcPrintString (fuel : Nat) (str : List UInt8) : Writes Unit := do
  let _ ← lcKernelWriteAll fuel str
  pure ()

/-- `lc_print_char`. -/
def lcPrintChar (fuel : Nat) (c : UInt8) : Writes Unit := do
  let _ ← lcKernelWriteAll fuel [c]
  pure ()

/-- `lc_print_line`. -/
def lcPrintLine (fuel : Nat) (str : List UInt8) : Writes Unit := do
  let _ ← lcKernelWriteAll fuel str
  lcPrintChar fuel newline

/-- `lc_print_newline`. -/
def lcPrintNewline (fuel : Nat) : Writes Unit := lcPrintChar fuel newline

/-- `lc_print_unsigned`. -/
def lcPrintUnsigned (fuel : Nat) (value : UInt64) : Writes Unit :=
  if value.toNat = 0 then lcPrintChar fuel 48
  else do
    let digits ← Program.loop (renderRound 20 (· % 10) (· / 10) decimalDigit) fuel
      (value.toNat, [])
    let _ ← lcKernelWriteAll fuel digits
    pure ()

/-- `lc_print_signed`. -/
def lcPrintSigned (fuel : Nat) (value : Int64) : Writes Unit :=
  if value.toInt < 0 then do
    lcPrintChar fuel 45
    lcPrintUnsigned fuel (.ofNat (-(value.toInt + 1)).toNat + 1)
  else lcPrintUnsigned fuel (.ofNat value.toInt.toNat)

/-- `lc_print_hex`. -/
def lcPrintHex (fuel : Nat) (value : UInt64) : Writes Unit :=
  if value.toNat = 0 then do
    let _ ← lcKernelWriteAll fuel [48, 120, 48]
    pure ()
  else do
    let digits ← Program.loop (renderRound 18 (· &&& 0xf) (· >>> 4) hexDigit) fuel
      (value.toNat, [])
    Program.guard (digits.length + 2 ≤ 18)
    let _ ← lcKernelWriteAll fuel (48 :: 120 :: digits)
    pure ()

/-- `lc_print_byte_hex`. -/
def lcPrintByteHex (fuel : Nat) (value : UInt8) : Writes Unit := do
  let _ ← lcKernelWriteAll fuel [hexDigit (value.toNat >>> 4), hexDigit (value.toNat &&& 0xf)]
  pure ()

inductive Print
  | char (c : UInt8)
  | string (str : List UInt8)
  | line (str : List UInt8)
  | newline
  | unsigned (value : UInt64)
  | signed (value : Int64)
  | hex (value : UInt64)
  | byteHex (value : UInt8)
  deriving DecidableEq, Repr

def Print.text : Print → List UInt8
  | .char c => [c]
  | .string str => str
  | .line str => str ++ [Io.newline]
  | .newline => [Io.newline]
  | .unsigned value => numeral 10 decimalDigit value.toNat
  | .signed value => (Put.signed value).text
  | .hex value => [48, 120] ++ numeral 16 hexDigit value.toNat
  | .byteHex value => [hexDigit (value.toNat / 16), hexDigit (value.toNat % 16)]

def Print.onKernel (fuel : Nat) : Print → Writes Unit
  | .char c => lcPrintChar fuel c
  | .string str => lcPrintString fuel str
  | .line str => lcPrintLine fuel str
  | .newline => lcPrintNewline fuel
  | .unsigned value => lcPrintUnsigned fuel value
  | .signed value => lcPrintSigned fuel value
  | .hex value => lcPrintHex fuel value
  | .byteHex value => lcPrintByteHex fuel value

def onKernel (fuel : Nat) : List Print → Writes Unit
  | [] => pure ()
  | print :: prints => do
    print.onKernel fuel
    onKernel fuel prints

/-! ### What is printed -/

/-- The kernel has taken the text, and still takes what it is given. -/
structure Printed (text : List UInt8) (s t : Output) : Prop where
  writer : t.writer = s.writer
  accepted : t.accepted = s.accepted ++ text
  accepting : ∀ r ∈ t.replies, r.Accepts
  fewer : t.replies.length ≤ s.replies.length

variable {fuel : Nat} {s t u : Output} {text more : List UInt8}

theorem Sent.printed (sent : Sent text s text.length t) : Printed text s t :=
  ⟨sent.writer, by rw [sent.accepted, List.take_length], sent.accepting, sent.fewer⟩

theorem Printed.trans (first : Printed text s t) (then_ : Printed more t u) :
    Printed (text ++ more) s u :=
  ⟨then_.writer.trans first.writer,
    by rw [then_.accepted, first.accepted, List.append_assoc], then_.accepting,
    then_.fewer.trans first.fewer⟩

theorem lcPrintString_spec {str : List UInt8} (accepting : ∀ r ∈ s.replies, r.Accepts)
    (enough : s.replies.length + str.length < fuel) :
    Total (fun t => t = s) (lcPrintString fuel str) fun _ t => Printed str s t :=
  (lcKernelWriteAll_spec accepting enough).bind fun _ => .ret fun _ sent => sent.printed

theorem lcPrintChar_spec (c : UInt8) (accepting : ∀ r ∈ s.replies, r.Accepts)
    (enough : s.replies.length + 1 < fuel) :
    Total (fun t => t = s) (lcPrintChar fuel c) fun _ t => Printed [c] s t :=
  lcPrintString_spec accepting enough

/-- Two calls print their texts one after the other. -/
theorem printed_bind {first second : Writes Unit} {limit : Nat}
    (one : Total (fun t => t = s) first fun _ t => Printed text s t)
    (two : ∀ t, (∀ r ∈ t.replies, r.Accepts) → t.replies.length + limit < fuel →
      Total (fun u => u = t) second fun _ u => Printed more t u)
    (enough : s.replies.length + limit < fuel) :
    Total (fun t => t = s) (first >>= fun _ => second) fun _ t => Printed (text ++ more) s t := by
  refine one.bind fun _ => .entry fun t printed => ?_
  have fewer := printed.fewer
  exact (two t printed.accepting (by omega)).consequence (fun _ => id)
    fun _ _ then_ => printed.trans then_

theorem lcPrintUnsigned_spec (value : UInt64) (accepting : ∀ r ∈ s.replies, r.Accepts)
    (enough : s.replies.length + 20 < fuel) :
    Total (fun t => t = s) (lcPrintUnsigned fuel value) fun _ t =>
      Printed (numeral 10 decimalDigit value.toNat) s t := by
  refine Total.ite (fun zero => ?_) fun some_ => ?_
  · rw [numeral_zero zero]
    exact lcPrintChar_spec 48 accepting (by omega)
  · refine (renderDecimal_spec value some_ (by omega)).bind fun digits => .entry ?_
    rintro s ⟨⟨rfl, length⟩, rfl⟩
    exact lcPrintString_spec accepting (by omega)

theorem lcPrintSigned_spec (value : Int64) (accepting : ∀ r ∈ s.replies, r.Accepts)
    (enough : s.replies.length + 20 < fuel) :
    Total (fun t => t = s) (lcPrintSigned fuel value) fun _ t =>
      Printed (Put.signed value).text s t := by
  rw [Put.text]
  refine Total.ite (fun negative => ?_) fun nonneg => ?_
  · rw [if_pos negative, ← magnitude_of_neg negative]
    exact printed_bind (lcPrintChar_spec 45 accepting (by omega))
      (fun _ => lcPrintUnsigned_spec _) enough
  · rw [if_neg nonneg, ← magnitude_of_nonneg nonneg]
    exact lcPrintUnsigned_spec _ accepting enough

theorem lcPrintHex_spec (value : UInt64) (accepting : ∀ r ∈ s.replies, r.Accepts)
    (enough : s.replies.length + 20 < fuel) :
    Total (fun t => t = s) (lcPrintHex fuel value) fun _ t =>
      Printed ([48, 120] ++ numeral 16 hexDigit value.toNat) s t := by
  refine Total.ite (fun zero => ?_) fun some_ => ?_
  · rw [numeral_zero zero]
    exact lcPrintString_spec accepting (Nat.lt_of_le_of_lt (by simp) enough)
  · refine (renderHex_spec value some_ (by omega)).bind fun digits => .entry ?_
    rintro s ⟨⟨rfl, length⟩, rfl⟩
    refine Total.guard_bind length (lcPrintString_spec accepting ?_)
    rw [List.length_cons, List.length_cons]
    omega

/-- Every call prints its text, with fuel for the kernel's answers, for the text and
for the digits of a number. -/
theorem Print.onKernel_spec (print : Print) {limit : Nat} (digits : 20 ≤ limit)
    (length : print.text.length ≤ limit) (accepting : ∀ r ∈ s.replies, r.Accepts)
    (enough : s.replies.length + limit < fuel) :
    Total (fun t => t = s) (print.onKernel fuel) fun _ t => Printed print.text s t := by
  cases print with
  | char c => exact lcPrintChar_spec c accepting (by omega)
  | string str => exact lcPrintString_spec accepting (Nat.lt_of_le_of_lt (by simpa) enough)
  | line str =>
    have shorter : str.length + 1 ≤ limit := by simpa [Print.text] using length
    refine (lcKernelWriteAll_spec accepting (by omega)).bind fun _ => .entry fun t sent => ?_
    have printed := sent.printed
    have fewer := printed.fewer
    exact (lcPrintChar_spec Io.newline printed.accepting (by omega)).consequence (fun _ => id)
      fun _ _ then_ => printed.trans then_
  | newline => exact lcPrintChar_spec Io.newline accepting (by omega)
  | unsigned value => exact lcPrintUnsigned_spec value accepting (by omega)
  | signed value => exact lcPrintSigned_spec value accepting (by omega)
  | hex value => exact lcPrintHex_spec value accepting (by omega)
  | byteHex value =>
    rw [Print.text, ← and_nibble, ← shiftRight_nibble]
    exact lcPrintString_spec accepting (Nat.lt_of_le_of_lt (by simpa using by omega) enough)

/-- However the kernel cuts up the writes, any calls leave it with their texts, one
after the other. -/
theorem printing_emits (prints : List Print) {limit : Nat} (digits : 20 ≤ limit)
    (length : ∀ print ∈ prints, print.text.length ≤ limit)
    (accepting : ∀ r ∈ s.replies, r.Accepts) (enough : s.replies.length + limit < fuel) :
    Total (fun t => t = s) (onKernel fuel prints) fun _ t =>
      Printed (prints.flatMap Print.text) s t := by
  induction prints generalizing s with
  | nil =>
    refine .ret ?_
    rintro s rfl
    exact ⟨rfl, by rw [List.flatMap_nil, List.append_nil], accepting, Nat.le_refl _⟩
  | cons print prints ih =>
    have one := print.onKernel_spec digits (length print List.mem_cons_self) accepting enough
    exact printed_bind one
      (fun t => ih fun print mem => length print (List.mem_cons_of_mem _ mem)) enough

theorem printing_emits_signed : ∃ t, onKernel 64 [.signed (-42), .newline]
    ⟨⟨none, 0, 0⟩, [], [.error 4, .accept 1]⟩ = .done () t ∧ t.accepted = [45, 52, 50, 10] := by
  obtain ⟨_, t, run, printed⟩ := @printing_emits 64 ⟨⟨none, 0, 0⟩, [], [.error 4, .accept 1]⟩
    [.signed (-42), .newline] 20 (by decide) (by decide) (by decide) (by decide) _ rfl
  exact ⟨t, run, printed.accepted.trans (by decide)⟩

end Lightc.Io
