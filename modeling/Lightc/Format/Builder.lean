import Lightc.Io.Writer

/-!
# The text builder

`lc_format` collects text in a buffer of the caller's. Every `lc_format_add_…`
function goes through `put`, which counts a character whether or not there is space
for it, so that the builder can say how long the text would have been. Numbers are
rendered backwards into scratch buffers on the stack. A store outside the buffer or
a scratch buffer has no result here.

Whatever a call adds, it adds as if by `put_bytes` of its text (`Add.run_eq`), and
the state after any calls is a function of the whole text (`Built`).
-/

namespace Lightc.Format

open Machine Io

/-- `lc_format`, with the contents of the buffer in place of its address. -/
structure LcFormat where
  buffer : List UInt8
  capacity : Nat
  used : Nat
  overflow : Bool
  deriving DecidableEq, Repr

/-- `buffer[i] = c`. -/
def store (buffer : List UInt8) (i : Nat) (c : UInt8) : Option (List UInt8) :=
  if i < buffer.length then some (buffer.set i c) else none

def put (fmt : LcFormat) (c : UInt8) : Option LcFormat :=
  if fmt.used < fmt.capacity then
    (store fmt.buffer fmt.used c).map fun buffer =>
      { fmt with buffer := buffer, used := add64 fmt.used 1 }
  else some { fmt with overflow := true, used := add64 fmt.used 1 }

def putBytes (fmt : LcFormat) (str : List UInt8) : Option LcFormat := str.foldlM put fmt

/-- The loop `while (value > 0) *--p = …`, with `space` bytes before the digits it has
stored. -/
def renderLoop (low rest : Nat → Nat) (digit : Nat → UInt8) :
    Nat → Nat → List UInt8 → Option (List UInt8)
  | 0, value, digits => if value > 0 then none else some digits
  | space + 1, value, digits =>
    if value > 0 then renderLoop low rest digit space (rest value) (digit (low value) :: digits)
    else some digits

/-- The bytes from `p` on when a value is rendered into a buffer of `size` bytes. -/
def render (low rest : Nat → Nat) (digit : Nat → UInt8) (value : UInt64) (size : Nat) :
    Option (List UInt8) :=
  if value = 0 then if 0 < size then some [48] else none
  else renderLoop low rest digit size value.toNat []

def renderUnsigned (value : UInt64) (size : Nat) : Option (List UInt8) :=
  render (· % 10) (· / 10) decimalDigit value size

def renderHex (value : UInt64) (size : Nat) : Option (List UInt8) :=
  render (· &&& 0xf) (· >>> 4) hexDigit value size

def renderBinary (value : UInt64) (size : Nat) : Option (List UInt8) :=
  render (· &&& 1) (· >>> 1) decimalDigit value size

/-- `lc_format_start`. One byte is reserved for the terminator. -/
def lcFormatStart (buffer : List UInt8) (capacity : Nat) : LcFormat :=
  { buffer := buffer, capacity := if capacity > 0 then capacity - 1 else 0, used := 0,
    overflow := false }

/-- `lc_format_finish`. -/
def lcFormatFinish (fmt : LcFormat) : Option (LcFormat × Nat) :=
  let pos := if fmt.used < add64 fmt.capacity 1 then fmt.used else fmt.capacity
  (store fmt.buffer pos 0).map fun buffer => ({ fmt with buffer := buffer }, fmt.used)

/-- `lc_format_has_overflow`. -/
def lcFormatHasOverflow (fmt : LcFormat) : Bool := fmt.overflow

def lcFormatAddChar (fmt : LcFormat) (c : UInt8) : Option LcFormat := put fmt c

def lcFormatAddString (fmt : LcFormat) (str : List UInt8) : Option LcFormat := putBytes fmt str

/-- `lc_format_add_text`: up to the terminator, without which it would read on. -/
def lcFormatAddText (fmt : LcFormat) : List UInt8 → Option LcFormat
  | [] => none
  | c :: str =>
    if c ≠ 0 then do
      let fmt ← put fmt c
      lcFormatAddText fmt str
    else some fmt

def lcFormatAddNewline (fmt : LcFormat) : Option LcFormat := put fmt newline

def lcFormatAddRepeat (fmt : LcFormat) (c : UInt8) : Nat → Option LcFormat
  | 0 => some fmt
  | count + 1 => do
    let fmt ← put fmt c
    lcFormatAddRepeat fmt c count

def lcFormatAddUnsigned (fmt : LcFormat) (value : UInt64) : Option LcFormat := do
  let p ← renderUnsigned value 20
  putBytes fmt p

/-- `(uint64_t)(-(value + 1)) + 1`, the magnitude of a negative value. -/
def magnitude (value : Int64) : UInt64 := .ofNat (-(value.toInt + 1)).toNat + 1

def lcFormatAddSigned (fmt : LcFormat) (value : Int64) : Option LcFormat :=
  if value.toInt < 0 then do
    let fmt ← put fmt 45
    lcFormatAddUnsigned fmt (magnitude value)
  else lcFormatAddUnsigned fmt (.ofNat value.toInt.toNat)

def lcFormatAddHex (fmt : LcFormat) (value : UInt64) : Option LcFormat := do
  let fmt ← put fmt 48
  let fmt ← put fmt 120
  let p ← renderHex value 16
  putBytes fmt p

def lcFormatAddHexRaw (fmt : LcFormat) (value : UInt64) : Option LcFormat := do
  let p ← renderHex value 16
  putBytes fmt p

def lcFormatAddBinary (fmt : LcFormat) (value : UInt64) : Option LcFormat := do
  let fmt ← put fmt 48
  let fmt ← put fmt 98
  let p ← renderBinary value 64
  putBytes fmt p

def lcFormatAddByteHex (fmt : LcFormat) (value : UInt8) : Option LcFormat := do
  let fmt ← put fmt (hexDigit (value.toNat >>> 4))
  put fmt (hexDigit (value.toNat &&& 0xf))

def lcFormatAddPointer (fmt : LcFormat) (ptr : UInt64) : Option LcFormat := lcFormatAddHex fmt ptr

def lcFormatAddBool (fmt : LcFormat) (value : Bool) : Option LcFormat :=
  if value then putBytes fmt [116, 114, 117, 101] else putBytes fmt [102, 97, 108, 115, 101]

/-- The padding before or after `length` bytes. -/
def padTo (fmt : LcFormat) (length : Nat) (width : UInt32) (pad : UInt8) : Option LcFormat :=
  if length < width.toNat then lcFormatAddRepeat fmt pad (width.toNat - length) else some fmt

def lcFormatAddUnsignedPadded (fmt : LcFormat) (value : UInt64) (width : UInt32) (pad : UInt8) :
    Option LcFormat := do
  let p ← renderUnsigned value 20
  let fmt ← padTo fmt p.length width pad
  putBytes fmt p

/-- The copy into `tmp[21]`, after what it already holds. -/
def copyTmp (tmp p : List UInt8) : Option (List UInt8) :=
  if tmp.length + p.length ≤ 21 then some (tmp ++ p) else none

/-- What `lc_format_add_signed_padded` has in `tmp` before it puts anything. -/
def fillTmp (value : Int64) : Option (List UInt8) :=
  if value.toInt < 0 then do
    let p ← renderUnsigned (magnitude value) 20
    copyTmp [45] p
  else do
    let p ← renderUnsigned (.ofNat value.toInt.toNat) 20
    copyTmp [] p

def lcFormatAddSignedPadded (fmt : LcFormat) (value : Int64) (width : UInt32) (pad : UInt8) :
    Option LcFormat := do
  let tmp ← fillTmp value
  let fmt ← padTo fmt tmp.length width pad
  putBytes fmt tmp

def lcFormatAddHexPadded (fmt : LcFormat) (value : UInt64) (width : UInt32) :
    Option LcFormat := do
  let p ← renderHex value 16
  let fmt ← padTo fmt p.length width 48
  putBytes fmt p

def lcFormatAddStringLeft (fmt : LcFormat) (str : List UInt8) (width : UInt32) (pad : UInt8) :
    Option LcFormat := do
  let fmt ← putBytes fmt str
  padTo fmt str.length width pad

def lcFormatAddStringRight (fmt : LcFormat) (str : List UInt8) (width : UInt32) (pad : UInt8) :
    Option LcFormat := do
  let fmt ← padTo fmt str.length width pad
  putBytes fmt str

/-! ### The text of a call -/

inductive Add
  | char (c : UInt8)
  | string (str : List UInt8)
  /-- A string in memory with its terminator. -/
  | text (str : List UInt8)
  | newline
  | repeated (c : UInt8) (count : Nat)
  | unsigned (value : UInt64)
  | signed (value : Int64)
  | hex (value : UInt64)
  | hexRaw (value : UInt64)
  | binary (value : UInt64)
  | byteHex (value : UInt8)
  | pointer (ptr : UInt64)
  | bool (value : Bool)
  | unsignedPadded (value : UInt64) (width : UInt32) (pad : UInt8)
  | signedPadded (value : Int64) (width : UInt32) (pad : UInt8)
  | hexPadded (value : UInt64) (width : UInt32)
  | stringLeft (str : List UInt8) (width : UInt32) (pad : UInt8)
  | stringRight (str : List UInt8) (width : UInt32) (pad : UInt8)
  deriving DecidableEq, Repr

def Add.run (fmt : LcFormat) : Add → Option LcFormat
  | .char c => lcFormatAddChar fmt c
  | .string str => lcFormatAddString fmt str
  | .text str => lcFormatAddText fmt (str ++ [0])
  | .newline => lcFormatAddNewline fmt
  | .repeated c count => lcFormatAddRepeat fmt c count
  | .unsigned value => lcFormatAddUnsigned fmt value
  | .signed value => lcFormatAddSigned fmt value
  | .hex value => lcFormatAddHex fmt value
  | .hexRaw value => lcFormatAddHexRaw fmt value
  | .binary value => lcFormatAddBinary fmt value
  | .byteHex value => lcFormatAddByteHex fmt value
  | .pointer ptr => lcFormatAddPointer fmt ptr
  | .bool value => lcFormatAddBool fmt value
  | .unsignedPadded value width pad => lcFormatAddUnsignedPadded fmt value width pad
  | .signedPadded value width pad => lcFormatAddSignedPadded fmt value width pad
  | .hexPadded value width => lcFormatAddHexPadded fmt value width
  | .stringLeft str width pad => lcFormatAddStringLeft fmt str width pad
  | .stringRight str width pad => lcFormatAddStringRight fmt str width pad

/-- The decimal numeral of a value. -/
def unsignedText (value : UInt64) : List UInt8 := numeral 10 decimalDigit value.toNat

/-- The decimal numeral of a signed value, with a sign if it is negative. -/
def signedText (value : Int64) : List UInt8 := (Put.signed value).text

/-- The hexadecimal digits of a value. -/
def hexText (value : UInt64) : List UInt8 := numeral 16 hexDigit value.toNat

/-- The binary digits of a value. -/
def binaryText (value : UInt64) : List UInt8 := numeral 2 decimalDigit value.toNat

/-- What is missing to a width. -/
def padding (text : List UInt8) (width : UInt32) (pad : UInt8) : List UInt8 :=
  List.replicate (width.toNat - text.length) pad

/-- What a call adds to the text. -/
def Add.output : Add → List UInt8
  | .char c => [c]
  | .string str => str
  | .text str => str.takeWhile (· ≠ 0)
  | .newline => [Io.newline]
  | .repeated c count => List.replicate count c
  | .unsigned value => unsignedText value
  | .signed value => signedText value
  | .hex value | .pointer value => [48, 120] ++ hexText value
  | .hexRaw value => hexText value
  | .binary value => [48, 98] ++ binaryText value
  | .byteHex value => [hexDigit (value.toNat / 16), hexDigit (value.toNat % 16)]
  | .bool value => if value then [116, 114, 117, 101] else [102, 97, 108, 115, 101]
  | .unsignedPadded value width pad => padding (unsignedText value) width pad ++ unsignedText value
  | .signedPadded value width pad => padding (signedText value) width pad ++ signedText value
  | .hexPadded value width => padding (hexText value) width 48 ++ hexText value
  | .stringLeft str width pad => str ++ padding str width pad
  | .stringRight str width pad => padding str width pad ++ str

/-! ### Rendering -/

/-- A loop that splits off the last digit renders the number if there is space for
it. -/
theorem renderLoop_eq {base : Nat} {low rest : Nat → Nat} {digit : Nat → UInt8} (two : 1 < base)
    (low_eq : ∀ v, low v = v % base) (rest_eq : ∀ v, rest v = v / base) (space value : Nat)
    (digits : List UInt8) (fits : (Nat.digits base value).length ≤ space) :
    renderLoop low rest digit space value digits =
      some ((Nat.digits base value).reverse.map digit ++ digits) := by
  induction space generalizing value digits with
  | zero =>
    have none : value = 0 := by
      by_contra some
      have := Nat.digits_ne_nil_iff_ne_zero (b := base).mpr some
      exact this (List.eq_nil_of_length_eq_zero (Nat.le_zero.mp fits))
    subst none
    simp [renderLoop]
  | succ space ih =>
    rw [renderLoop]
    split
    · next positive =>
      have split := Nat.digits_def' two positive
      rw [split] at fits ⊢
      rw [rest_eq, low_eq, ih _ _ (Nat.le_of_succ_le_succ fits)]
      simp
    · next zero =>
      have none : value = 0 := Nat.eq_zero_of_not_pos zero
      subst none
      simp

theorem render_eq {base size : Nat} {low rest : Nat → Nat} {digit : Nat → UInt8} (two : 1 < base)
    (low_eq : ∀ v, low v = v % base) (rest_eq : ∀ v, rest v = v / base) (zero : digit 0 = 48)
    (large : 2 ^ 64 ≤ base ^ size) (some : 0 < size) (value : UInt64) :
    render low rest digit value size = .some (numeral base digit value.toNat) := by
  rw [render, numeral]
  by_cases null : value = 0
  · subst null
    rw [if_pos rfl, if_pos some, if_pos (by decide), zero]
  · have positive : value.toNat ≠ 0 := fun none => null (UInt64.toNat_inj.mp none)
    rw [if_neg null, if_neg positive,
      renderLoop_eq two low_eq rest_eq _ _ _ (digits_length_le two large value), List.append_nil]

@[simp]
theorem renderUnsigned_eq (value : UInt64) : renderUnsigned value 20 = some (unsignedText value) :=
  render_eq (by decide) (fun _ => rfl) (fun _ => rfl) rfl (by decide) (by decide) value

@[simp] theorem renderHex_eq (value : UInt64) : renderHex value 16 = some (hexText value) :=
  render_eq (by decide) and_nibble shiftRight_nibble rfl (by decide) (by decide) value

@[simp]
theorem renderBinary_eq (value : UInt64) : renderBinary value 64 = some (binaryText value) :=
  render_eq (by decide) (fun v => Nat.and_two_pow_sub_one_eq_mod v 1)
    (fun v => Nat.shiftRight_eq_div_pow v 1) rfl (by decide) (by decide) value

/-! ### Every call puts its text -/

variable {fmt : LcFormat}

theorem putBytes_append (fmt : LcFormat) (a b : List UInt8) :
    putBytes fmt (a ++ b) = (putBytes fmt a).bind (putBytes · b) := List.foldlM_append

@[simp] theorem putBytes_nil (fmt : LcFormat) : putBytes fmt [] = some fmt := rfl

@[simp] theorem putBytes_cons (fmt : LcFormat) (c : UInt8) (str : List UInt8) :
    putBytes fmt (c :: str) = (put fmt c).bind (putBytes · str) := List.foldlM_cons

@[simp] theorem lcFormatAddRepeat_eq (fmt : LcFormat) (c : UInt8) (count : Nat) :
    lcFormatAddRepeat fmt c count = putBytes fmt (List.replicate count c) := by
  induction count generalizing fmt with
  | zero => rfl
  | succ count ih =>
    rw [List.replicate_succ, putBytes_cons, lcFormatAddRepeat]
    exact Option.bind_congr fun fmt _ => ih fmt

@[simp] theorem lcFormatAddText_eq (fmt : LcFormat) (str : List UInt8) :
    lcFormatAddText fmt (str ++ [0]) = putBytes fmt (str.takeWhile (· ≠ 0)) := by
  induction str generalizing fmt with
  | nil => rfl
  | cons c str ih =>
    rw [List.cons_append, lcFormatAddText]
    by_cases null : c = 0
    · simp [null]
    · rw [if_pos null, List.takeWhile_cons_of_pos (by simpa using null), putBytes_cons]
      exact Option.bind_congr fun fmt _ => ih fmt

@[simp] theorem padTo_eq (fmt : LcFormat) (text : List UInt8) (width : UInt32) (pad : UInt8) :
    padTo fmt text.length width pad = putBytes fmt (padding text width pad) := by
  rw [padTo, padding]
  split
  · exact lcFormatAddRepeat_eq fmt pad _
  · rw [Nat.sub_eq_zero_of_le (by omega)]
    rfl

@[simp] theorem lcFormatAddUnsigned_eq (fmt : LcFormat) (value : UInt64) :
    lcFormatAddUnsigned fmt value = putBytes fmt (unsignedText value) := by
  rw [lcFormatAddUnsigned, renderUnsigned_eq]
  rfl

/-- The two branches of a signed numeral. -/
theorem signedText_eq (value : Int64) :
    signedText value = if value.toInt < 0 then 45 :: unsignedText (magnitude value)
      else unsignedText (.ofNat value.toInt.toNat) := by
  rw [signedText, Put.text]
  split
  · next negative => rw [unsignedText, magnitude, magnitude_of_neg negative]
  · next nonneg => rw [unsignedText, magnitude_of_nonneg nonneg]

@[simp] theorem lcFormatAddSigned_eq (fmt : LcFormat) (value : Int64) :
    lcFormatAddSigned fmt value = putBytes fmt (signedText value) := by
  rw [lcFormatAddSigned, signedText_eq]
  split
  · rw [putBytes_cons]
    exact Option.bind_congr fun fmt _ => lcFormatAddUnsigned_eq fmt _
  · exact lcFormatAddUnsigned_eq fmt _

@[simp] theorem lcFormatAddHex_eq (fmt : LcFormat) (value : UInt64) :
    lcFormatAddHex fmt value = putBytes fmt ([48, 120] ++ hexText value) := by
  simp only [lcFormatAddHex, renderHex_eq, List.cons_append, List.nil_append, putBytes_cons]
  rfl

@[simp] theorem lcFormatAddBinary_eq (fmt : LcFormat) (value : UInt64) :
    lcFormatAddBinary fmt value = putBytes fmt ([48, 98] ++ binaryText value) := by
  simp only [lcFormatAddBinary, renderBinary_eq, List.cons_append, List.nil_append, putBytes_cons]
  rfl

theorem unsignedText_length (value : UInt64) : (unsignedText value).length ≤ 20 := by
  rw [unsignedText, numeral]
  split
  · exact Nat.le_of_ble_eq_true rfl
  · rw [List.length_map, List.length_reverse]
    exact digits_length_le (by decide) (by decide) value

/-- The sign and the digits of any value fit into the 21 bytes. -/
@[simp] theorem fillTmp_eq (value : Int64) : fillTmp value = some (signedText value) := by
  have filled : ∀ (sign : List UInt8) (p : UInt64), sign.length ≤ 1 →
      ((renderUnsigned p 20).bind fun p => copyTmp sign p) = some (sign ++ unsignedText p) := by
    intro sign p one
    have short := unsignedText_length p
    rw [renderUnsigned_eq, Option.bind_some, copyTmp, if_pos (by omega)]
  rw [fillTmp, signedText_eq]
  split
  · exact filled [45] _ (by decide)
  · exact filled [] _ (by decide)

/-- A rendered text with its padding before it. -/
theorem padded_eq (fmt : LcFormat) (text : List UInt8) (width : UInt32) (pad : UInt8) :
    ((padTo fmt text.length width pad).bind fun fmt => putBytes fmt text) =
      putBytes fmt (padding text width pad ++ text) := by
  rw [padTo_eq, putBytes_append]

@[simp] theorem lcFormatAddUnsignedPadded_eq (fmt : LcFormat) (value : UInt64) (width : UInt32)
    (pad : UInt8) : lcFormatAddUnsignedPadded fmt value width pad =
      putBytes fmt (padding (unsignedText value) width pad ++ unsignedText value) := by
  rw [lcFormatAddUnsignedPadded, renderUnsigned_eq]
  exact padded_eq fmt _ width pad

@[simp] theorem lcFormatAddSignedPadded_eq (fmt : LcFormat) (value : Int64) (width : UInt32)
    (pad : UInt8) : lcFormatAddSignedPadded fmt value width pad =
      putBytes fmt (padding (signedText value) width pad ++ signedText value) := by
  rw [lcFormatAddSignedPadded, fillTmp_eq]
  exact padded_eq fmt _ width pad

@[simp] theorem lcFormatAddHexPadded_eq (fmt : LcFormat) (value : UInt64) (width : UInt32) :
    lcFormatAddHexPadded fmt value width =
      putBytes fmt (padding (hexText value) width 48 ++ hexText value) := by
  rw [lcFormatAddHexPadded, renderHex_eq]
  exact padded_eq fmt _ width 48

/-- Every call adds its text and nothing else, whatever the builder holds. -/
@[simp]
theorem Add.run_eq (fmt : LcFormat) (add : Add) : add.run fmt = putBytes fmt add.output := by
  cases add with
  | char c => simp [Add.run, lcFormatAddChar, Add.output]
  | string str => rfl
  | text str => exact lcFormatAddText_eq fmt str
  | newline => simp [Add.run, lcFormatAddNewline, Add.output]
  | repeated c count => exact lcFormatAddRepeat_eq fmt c count
  | unsigned value => exact lcFormatAddUnsigned_eq fmt value
  | signed value => exact lcFormatAddSigned_eq fmt value
  | hex value => exact lcFormatAddHex_eq fmt value
  | hexRaw value =>
    rw [Add.run, lcFormatAddHexRaw, renderHex_eq]
    rfl
  | binary value => exact lcFormatAddBinary_eq fmt value
  | byteHex value =>
    simp [Add.run, lcFormatAddByteHex, Add.output, and_nibble, shiftRight_nibble]
  | pointer ptr => exact lcFormatAddHex_eq fmt ptr
  | bool value => cases value <;> rfl
  | unsignedPadded value width pad => exact lcFormatAddUnsignedPadded_eq fmt value width pad
  | signedPadded value width pad => exact lcFormatAddSignedPadded_eq fmt value width pad
  | hexPadded value width => exact lcFormatAddHexPadded_eq fmt value width
  | stringLeft str width pad =>
    rw [Add.output, putBytes_append]
    exact Option.bind_congr fun fmt _ => padTo_eq fmt str width pad
  | stringRight str width pad => exact padded_eq fmt str width pad

theorem run_eq (fmt : LcFormat) (adds : List Add) :
    adds.foldlM Add.run fmt = putBytes fmt (adds.flatMap Add.output) := by
  induction adds generalizing fmt with
  | nil => rfl
  | cons add adds ih =>
    rw [List.foldlM_cons, List.flatMap_cons, putBytes_append, Add.run_eq]
    exact Option.bind_congr fun fmt _ => ih fmt

/-! ### The builder as a function of its text -/

/-- The state of a builder that was started on `memory` and has been given `text`. -/
structure Built (memory text : List UInt8) (fmt : LcFormat) : Prop where
  capacity : fmt.capacity + 1 = memory.length
  used : fmt.used = text.length
  overflow : fmt.overflow = true ↔ fmt.capacity < text.length
  buffer : fmt.buffer = text.take fmt.capacity ++ memory.drop (min text.length fmt.capacity)

variable {memory text : List UInt8}

theorem built_start (some : 0 < memory.length) :
    Built memory [] (lcFormatStart memory memory.length) where
  capacity := by
    rw [lcFormatStart]
    dsimp only
    split <;> omega
  used := rfl
  overflow := by simp [lcFormatStart]
  buffer := by simp [lcFormatStart]

/-- One more character: it is stored if there is space and counted in any case. -/
theorem Built.put {fmt : LcFormat} (h : Built memory text fmt) (c : UInt8)
    (small : text.length + 1 < 2 ^ 64) :
    ∃ fmt', put fmt c = some fmt' ∧ Built memory (text ++ [c]) fmt' := by
  have count : add64 fmt.used 1 = (text ++ [c]).length := by
    rw [h.used, add64_of_lt small, List.length_append, List.length_singleton]
  have capacity := h.capacity
  unfold Format.put
  by_cases space : fmt.used < fmt.capacity
  · have short : text.length < fmt.capacity := h.used ▸ space
    have whole : text.take fmt.capacity = text := List.take_of_length_le short.le
    have inside : fmt.used < fmt.buffer.length := by
      rw [h.buffer, h.used, List.length_append, List.length_drop, whole]
      omega
    rw [if_pos space, store, if_pos inside]
    refine ⟨_, rfl, capacity, count, ?_, ?_⟩
    · rw [List.length_append, List.length_singleton]
      exact h.overflow.trans (by dsimp only; omega)
    · have next : memory.drop text.length =
          memory.get ⟨text.length, by omega⟩ :: memory.drop (text.length + 1) :=
        List.drop_eq_getElem_cons _
      dsimp only
      rw [h.buffer, whole, h.used, min_eq_left short.le, next, List.take_of_length_le,
        List.length_append, List.length_singleton, min_eq_left (by omega), List.append_assoc,
        List.set_append_right _ _ le_rfl, Nat.sub_self]
      · rfl
      · rw [List.length_append, List.length_singleton]
        omega
  · have full : fmt.capacity ≤ text.length := by
      rw [← h.used]
      omega
    refine ⟨_, if_neg space, capacity, count, ?_, ?_⟩
    · simp only [List.length_append, List.length_singleton, true_iff]
      omega
    · dsimp only
      rw [h.buffer, List.take_append_of_le_length full, List.length_append, min_eq_right full,
        min_eq_right (by omega)]

theorem Built.putBytes {fmt : LcFormat} (h : Built memory text fmt) (str : List UInt8)
    (small : (text ++ str).length < 2 ^ 64) :
    ∃ fmt', putBytes fmt str = some fmt' ∧ Built memory (text ++ str) fmt' := by
  induction str generalizing text fmt with
  | nil => exact ⟨fmt, rfl, by rwa [List.append_nil]⟩
  | cons c str ih =>
    have less : text.length + 1 < 2 ^ 64 := by
      rw [List.length_append, List.length_cons] at small
      omega
    obtain ⟨fmt₁, first, built⟩ := h.put c less
    have split : text ++ c :: str = text ++ [c] ++ str := by simp
    rw [split] at small ⊢
    obtain ⟨fmt₂, rest, built'⟩ := ih built small
    exact ⟨fmt₂, by rw [putBytes_cons, first, Option.bind_some, rest], built'⟩

/-- The terminator goes right behind the text, or at the reserved place. -/
theorem Built.finish {fmt : LcFormat} (h : Built memory text fmt) (small : memory.length < 2 ^ 64) :
    lcFormatFinish fmt = some ({ fmt with
      buffer := text.take (min text.length fmt.capacity) ++
        0 :: memory.drop (min text.length fmt.capacity + 1) }, text.length) := by
  have capacity := h.capacity
  have pos : (if fmt.used < add64 fmt.capacity 1 then fmt.used else fmt.capacity) =
      min text.length fmt.capacity := by
    rw [add64_of_lt (by omega), h.used]
    split <;> omega
  have front : (text.take fmt.capacity).length = min text.length fmt.capacity := by
    rw [List.length_take, min_comm]
  have next : memory.drop (min text.length fmt.capacity) =
      memory.get ⟨min text.length fmt.capacity, by omega⟩ ::
        memory.drop (min text.length fmt.capacity + 1) :=
    List.drop_eq_getElem_cons _
  have inside : min text.length fmt.capacity < fmt.buffer.length := by
    rw [h.buffer, List.length_append, front, List.length_drop]
    omega
  rw [lcFormatFinish, pos, store, if_pos inside, h.used, h.buffer, next,
    List.set_append_right _ _ front.le, front, Nat.sub_self]
  simp only [Option.map_some, List.set_cons_zero]
  rw [List.take_eq_take_min, min_comm]

/-- For every buffer and every sequence of calls whose whole text is shorter than
`2 ^ 64`: no call stores outside the buffer, and in the end the buffer holds as much of
the text as fits before the terminator, the terminator, and what it held before; the
length returned is that of the whole text, and the overflow flag says whether it did
not fit. -/
theorem format_holds_concatenation (memory : List UInt8) (adds : List Add)
    (some : 0 < memory.length) (small : memory.length < 2 ^ 64)
    (shorter : (adds.flatMap Add.output).length < 2 ^ 64) :
    ∃ fmt fmt', adds.foldlM Add.run (lcFormatStart memory memory.length) = .some fmt ∧
      lcFormatFinish fmt = .some (fmt', (adds.flatMap Add.output).length) ∧
      fmt'.buffer = (adds.flatMap Add.output).take
          (min (adds.flatMap Add.output).length (memory.length - 1)) ++
        0 :: memory.drop (min (adds.flatMap Add.output).length (memory.length - 1) + 1) ∧
      (lcFormatHasOverflow fmt' = true ↔ memory.length - 1 < (adds.flatMap Add.output).length) := by
  obtain ⟨fmt, run, built⟩ := (built_start some).putBytes (adds.flatMap Add.output) shorter
  rw [List.nil_append] at built
  have capacity : fmt.capacity = memory.length - 1 := by
    have := built.capacity
    omega
  refine ⟨fmt, _, (run_eq _ adds).trans run, built.finish small, ?_, ?_⟩
  · rw [capacity]
  · rw [← capacity]
    exact built.overflow

/-- The text is cut off inside a padded number. -/
theorem format_holds_concatenation_cut :
    ∃ fmt fmt', [Add.text [97, 61], .signedPadded (-42) 5 32].foldlM Add.run
        (lcFormatStart [1, 1, 1, 1, 1, 1, 1] 7) = some fmt ∧
      lcFormatFinish fmt = some (fmt', 7) ∧ fmt'.buffer = [97, 61, 32, 32, 45, 52, 0] ∧
      lcFormatHasOverflow fmt' = true := by
  obtain ⟨fmt, fmt', run, finished, buffer, overflow⟩ := format_holds_concatenation
    [1, 1, 1, 1, 1, 1, 1] [Add.text [97, 61], .signedPadded (-42) 5 32] (by decide) (by decide)
    (by decide)
  exact ⟨fmt, fmt', run, finished, buffer.trans (by decide), overflow.mpr (by decide)⟩

end Lightc.Format
