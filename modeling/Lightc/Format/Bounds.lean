import Lightc.Format.Builder

/-!
# Where the builder stores

Every store of a builder is one of `put`, below its capacity, or the terminator of
`lc_format_finish`. The capacity is one less than what `lc_format_start` was given, but
not below 0, and the terminator needs that one byte.

`lc_format_add_double` and `lc_format_add_double_precision` put their text in pieces
that other calls add as well, and are the lists of these calls here.
-/

namespace Lightc.Format

open Machine

/-- The end of `lc_format_add_double_precision`, for a value without its sign. -/
def magnitudeAdds (value : Float) (precision : UInt32) : List Add :=
  if value ≥ 18446744073709551616.0 then [.string [105, 110, 102]]
  else if precision = 0 then [.unsigned (value + 0.5).toUInt64]
  else
    let pow10 : UInt64 := .ofNat (10 ^ precision.toNat)
    let intPart := value.toUInt64
    let frac := value - intPart.toFloat
    let fracInt := (frac * pow10.toFloat + 0.5).toUInt64
    if fracInt ≥ pow10 then [.unsigned (intPart + 1), .char 46, .unsignedPadded 0 precision 48]
    else [.unsigned intPart, .char 46, .unsignedPadded fracInt precision 48]

/-- `lc_format_add_double_precision` of the number with these bits. -/
def doubleAdds (bits : UInt64) (precision : UInt32) : List Add :=
  let negative := bits >>> 63 ≠ 0
  let exponent := bits >>> 52 &&& 0x7FF
  let mantissa := bits &&& 0x000FFFFFFFFFFFFF
  if exponent = 0x7FF then
    if mantissa ≠ 0 then [.string [110, 97, 110]]
    else if negative then [.string [45, 105, 110, 102]]
    else [.string [105, 110, 102]]
  else if negative ∧ exponent = 0 ∧ mantissa = 0 then
    [.char 45, .char 48] ++ if precision > 0 then [.char 46, .repeated 48 precision.toNat] else []
  else
    let precision' := if precision > 18 then 18 else precision
    if negative then .char 45 :: magnitudeAdds (-.ofBits bits) precision'
    else magnitudeAdds (.ofBits bits) precision'

/-- All the `lc_format_add_…` functions. -/
inductive Call
  | add (call : Add)
  | doublePrecision (bits : UInt64) (precision : UInt32)
  | double (bits : UInt64)
  deriving DecidableEq, Repr

def Call.adds : Call → List Add
  | .add call => [call]
  | .doublePrecision bits precision => doubleAdds bits precision
  | .double bits => doubleAdds bits 6

def Call.run (fmt : LcFormat) (call : Call) : Option LcFormat := call.adds.foldlM Add.run fmt

def Call.output (call : Call) : List UInt8 := call.adds.flatMap Add.output

@[simp]
theorem Call.run_eq (fmt : LcFormat) (call : Call) : call.run fmt = putBytes fmt call.output :=
  Format.run_eq fmt call.adds

theorem runCalls_eq (fmt : LcFormat) (calls : List Call) :
    calls.foldlM Call.run fmt = putBytes fmt (calls.flatMap Call.output) := by
  induction calls generalizing fmt with
  | nil => rfl
  | cons call calls ih =>
    rw [List.foldlM_cons, List.flatMap_cons, putBytes_append, Call.run_eq]
    exact Option.bind_congr fun fmt _ => ih fmt

theorem put_bounds {fmt fmt' : LcFormat} {c : UInt8} (run : put fmt c = some fmt') :
    fmt'.buffer.length = fmt.buffer.length ∧ fmt'.capacity = fmt.capacity := by
  unfold put at run
  split at run
  · obtain ⟨buffer, stored, rfl⟩ := Option.map_eq_some_iff.mp run
    unfold store at stored
    split at stored
    · cases stored
      exact ⟨List.length_set, rfl⟩
    · cases stored
  · cases run
    exact ⟨rfl, rfl⟩

/-- No call on a builder moves it to another buffer. -/
theorem putBytes_bounds {fmt fmt' : LcFormat} {str : List UInt8}
    (run : putBytes fmt str = some fmt') :
    fmt'.buffer.length = fmt.buffer.length ∧ fmt'.capacity = fmt.capacity := by
  induction str generalizing fmt with
  | nil =>
    cases run
    exact ⟨rfl, rfl⟩
  | cons c str ih =>
    rw [putBytes_cons] at run
    obtain ⟨next, first, rest⟩ := Option.bind_eq_some_iff.mp run
    obtain ⟨size, capacity⟩ := ih rest
    obtain ⟨size', capacity'⟩ := put_bounds first
    exact ⟨size.trans size', capacity.trans capacity'⟩

/-- A builder whose capacity lies inside the buffer never stores outside it. -/
theorem put_eq {fmt : LcFormat} (inside : fmt.capacity ≤ fmt.buffer.length) (c : UInt8) :
    put fmt c = some { fmt with
      buffer := if fmt.used < fmt.capacity then fmt.buffer.set fmt.used c else fmt.buffer
      used := add64 fmt.used 1
      overflow := if fmt.used < fmt.capacity then fmt.overflow else true } := by
  unfold put
  split
  · rw [store, if_pos (by omega)]
    rfl
  · rfl

theorem putBytes_total (fmt : LcFormat) (inside : fmt.capacity ≤ fmt.buffer.length)
    (str : List UInt8) : ∃ fmt', putBytes fmt str = some fmt' := by
  induction str generalizing fmt with
  | nil => exact ⟨fmt, rfl⟩
  | cons c str ih =>
    have first := put_eq inside c
    obtain ⟨length, capacity⟩ := put_bounds first
    rw [putBytes_cons, first, Option.bind_some]
    exact ih _ (by omega)

/-- The terminator goes to the capacity at most. -/
theorem lcFormatFinish_eq {fmt : LcFormat} (word : fmt.capacity + 1 < 2 ^ 64) :
    lcFormatFinish fmt = (store fmt.buffer (min fmt.used fmt.capacity) 0).map fun buffer =>
      ({ fmt with buffer := buffer }, fmt.used) := by
  have pos : (if fmt.used < add64 fmt.capacity 1 then fmt.used else fmt.capacity) =
      min fmt.used fmt.capacity := by
    rw [add64_of_lt word]
    split <;> omega
  rw [lcFormatFinish, pos]

/-- A builder on a buffer of the given capacity, the calls, and `lc_format_finish`. A
store at an index that is not below the capacity has no result. -/
def formatted (buffer : List UInt8) (calls : List Call) : Option (LcFormat × Nat) := do
  let fmt ← calls.foldlM Call.run (lcFormatStart buffer buffer.length)
  lcFormatFinish fmt

/-- Whatever is added, every byte is written below the capacity exactly if the capacity
is not 0. -/
theorem format_stays_inside_iff (buffer : List UInt8) (calls : List Call)
    (word : buffer.length < 2 ^ 64) : (formatted buffer calls).isSome ↔ 0 < buffer.length := by
  have capacity : (lcFormatStart buffer buffer.length).capacity = buffer.length - 1 := by
    rw [lcFormatStart]
    dsimp only
    split <;> omega
  obtain ⟨fmt, run⟩ := putBytes_total (lcFormatStart buffer buffer.length)
    (by rw [capacity]; exact Nat.sub_le _ _) (calls.flatMap Call.output)
  obtain ⟨length, same⟩ := putBytes_bounds run
  have finished : formatted buffer calls = lcFormatFinish fmt := by
    rw [formatted, runCalls_eq, run]
    rfl
  have length' : fmt.buffer.length = buffer.length := length
  rw [finished, lcFormatFinish_eq (by omega), Option.isSome_map, store]
  split
  · exact iff_of_true rfl (by omega)
  · exact iff_of_false Bool.false_ne_true (by omega)

/-- A text and a number that are too long for the buffer together. -/
theorem format_stays_inside_iff_overflowing : ∃ calls : List Call,
    4 < (calls.flatMap Call.output).length ∧ (formatted [7, 7, 7, 7] calls).isSome :=
  ⟨[.add (.string [97, 98, 99]), .add (.unsigned 12345)], by decide,
    (format_stays_inside_iff _ _ (by decide)).mpr (by decide)⟩

/-- Nothing is added, and the terminator is stored at index 0 of a buffer of no bytes. -/
theorem format_terminator_outside : (formatted [] []).isSome = false := by decide

end Lightc.Format
