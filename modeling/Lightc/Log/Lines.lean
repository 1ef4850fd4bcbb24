import Lightc.Format.Bounds

/-!
# The text of a log line

A log line is `[LEVEL tid:NNNN] message`, or one JSON object. The prefix of the first
and the whole of the second are put together by a text builder in a buffer on the
stack, 48 and 1024 bytes long, and the message of an `lc_log_entry` in its own 512
bytes. Reading past a buffer has no result here.
-/

namespace Lightc.Log

open Machine Io Lightc.Format

/-- The bytes of a string literal. -/
def ascii (text : String) : List UInt8 := text.toList.map fun c => UInt8.ofNat c.toNat

/-- `lc_log_level`. -/
inductive Level
  | debug
  | info
  | warn
  | error
  deriving DecidableEq, Repr

/-- The value of the enumeration. -/
def Level.rank : Level → Nat
  | .debug => 0
  | .info => 1
  | .warn => 2
  | .error => 3

/-- `lc_log_format`. -/
inductive LogFormat
  | text
  | json
  deriving DecidableEq, Repr

def levelTags : Level → List UInt8
  | .debug => ascii "[DEBUG "
  | .info => ascii "[INFO  "
  | .warn => ascii "[WARN  "
  | .error => ascii "[ERROR "

def levelNames : Level → List UInt8
  | .debug => ascii "DEBUG"
  | .info => ascii "INFO"
  | .warn => ascii "WARN"
  | .error => ascii "ERROR"

/-- A message in memory. Addresses have 47 bits. -/
abbrev Message : Type := { bytes : List UInt8 // bytes.length < 2 ^ 47 }

/-- `message` up to `lc_string_length(message)`. -/
def Message.string (message : Message) : Message where
  val := message.1.takeWhile (· ≠ 0)
  property := Nat.lt_of_le_of_lt (List.takeWhile_sublist _).length_le message.2

/-- `(uint64_t)(uint32_t)lc_kernel_get_thread_id()`. -/
def threadNumber (tid : Int32) : UInt64 := tid.toUInt32.toUInt64

/-- The first `length` bytes of a buffer. -/
def readBuffer (buffer : List UInt8) (length : Nat) : Option (List UInt8) :=
  if length ≤ buffer.length then some (buffer.take length) else none

/-- A builder on the whole of a buffer, the calls made on it, and `lc_format_finish`. -/
def compose (buffer : List UInt8) (adds : List Add) : Option (LcFormat × Nat) := do
  let fmt ← adds.foldlM Add.run (lcFormatStart buffer buffer.length)
  lcFormatFinish fmt

/-- The calls of `build_prefix`. -/
def prefixAdds (level : Level) (tid : Int32) : List Add :=
  [.string (levelTags level), .text (ascii "tid:"), .unsigned (threadNumber tid),
    .text (ascii "] ")]

/-- `build_prefix` and the bytes that are written then. -/
def buildPrefix (buf : List UInt8) (level : Level) (tid : Int32) : Option (List UInt8) := do
  let (fmt, prefixLen) ← compose buf (prefixAdds level tid)
  readBuffer fmt.buffer prefixLen

/-- The call `format_add_json_escaped` makes for a character. -/
def jsonEscaped (c : UInt8) : Add :=
  if c = 34 then .string (ascii "\\\"")
  else if c = 92 then .string (ascii "\\\\")
  else if c = 10 then .string (ascii "\\n")
  else if c = 13 then .string (ascii "\\r")
  else if c = 9 then .string (ascii "\\t")
  else .char c

/-- The calls of `write_json_line`. -/
def jsonAdds (level : Level) (tid : Int32) (seconds : Int64) (message : List UInt8) : List Add :=
  [.text (ascii "\x7b\"ts\":"), .signed seconds, .text (ascii ",\"level\":\""),
    .string (levelNames level), .text (ascii "\",\"msg\":\"")] ++ message.map jsonEscaped ++
  [.text (ascii "\",\"tid\":"), .unsigned (threadNumber tid), .text (ascii "\x7d\n")]

/-- `write_json_line` before it takes the lock: what it is going to write. -/
def buildJson (buf : List UInt8) (level : Level) (tid : Int32) (seconds : Int64)
    (message : List UInt8) : Option (List UInt8) := do
  let (fmt, len) ← compose buf (jsonAdds level tid seconds message)
  readBuffer fmt.buffer (if len > buf.length - 1 then buf.length - 1 else len)

/-- `lc_log_entry`, with its builder on its own buffer, or on nothing if the level was
disabled. -/
structure LogEntry where
  level : Level
  fmt : LcFormat
  size : fmt.buffer.length = 512
  capacity : fmt.capacity < 512

/-- `lc_log_begin`. -/
def lcLogBegin (minLevel level : Level) (buffer : { bytes : List UInt8 // bytes.length = 512 }) :
    LogEntry where
  level := level
  fmt := if level.rank < minLevel.rank then lcFormatStart buffer.1 0 else lcFormatStart buffer.1 512
  size := by split <;> exact buffer.2
  capacity := by split <;> simp [lcFormatStart]

/-- A call on the builder of an entry. -/
def LogEntry.add (entry : LogEntry) (add : Add) : Option LogEntry :=
  (add.run entry.fmt).attach.map fun fmt =>
    have bounds := putBytes_bounds ((add.run_eq entry.fmt).symm.trans fmt.2)
    { level := entry.level
      fmt := fmt.1
      size := bounds.1.trans entry.size
      capacity := bounds.2 ▸ entry.capacity }

/-- The message `lc_log_commit` passes on. -/
def LogEntry.message (entry : LogEntry) : Option Message := do
  let (fmt, msgLen) ← lcFormatFinish entry.fmt
  let length := if msgLen > 511 then 511 else msgLen
  if length ≤ fmt.buffer.length then
    some ⟨fmt.buffer.take length, by
      rw [List.length_take]
      have : length ≤ 511 := by
        show (if msgLen > 511 then 511 else msgLen) ≤ 511
        split <;> omega
      omega⟩
  else none

/-! ### What the lines say -/

/-- `[LEVEL tid:NNNN] `. -/
def prefixText (level : Level) (tid : Int32) : List UInt8 :=
  (prefixAdds level tid).flatMap Add.output

/-- The JSON object and the newline. -/
def jsonText (level : Level) (tid : Int32) (seconds : Int64) (message : List UInt8) :
    List UInt8 :=
  (jsonAdds level tid seconds message).flatMap Add.output

/-- The calls say how long their text is and leave as much of it as fits. -/
theorem compose_spec (buffer text : List UInt8) {adds : List Add}
    (meant : adds.flatMap Add.output = text) (some_ : 0 < buffer.length)
    (small : buffer.length < 2 ^ 64) (shorter : text.length < 2 ^ 64) :
    ∃ fmt, compose buffer adds = some (fmt, text.length) ∧
      ∀ n, n ≤ text.length → n < buffer.length →
        readBuffer fmt.buffer n = some (text.take n) := by
  obtain ⟨fmt, run, built⟩ := (built_start some_).putBytes text shorter
  rw [List.nil_append] at built
  have composed : compose buffer adds = lcFormatFinish fmt := by
    rw [compose, run_eq, meant, run]
    rfl
  refine ⟨_, composed.trans (built.finish small), fun n inside room => ?_⟩
  have capacity := built.capacity
  have front : n ≤ (text.take (min text.length fmt.capacity)).length := by
    rw [List.length_take]
    omega
  rw [readBuffer, if_pos (by rw [List.length_append]; omega), List.take_append_of_le_length front,
    List.take_take, min_eq_left (by omega)]

@[simp] theorem levelTags_length (level : Level) : (levelTags level).length = 7 := by
  cases level <;> rfl

theorem levelNames_length (level : Level) : (levelNames level).length ≤ 5 := by
  cases level <;> decide

/-- The thread number has at most 10 digits, but 20 are enough for the buffer. -/
theorem prefixText_length (level : Level) (tid : Int32) : (prefixText level tid).length ≤ 33 := by
  have digits := unsignedText_length (threadNumber tid)
  have tag := levelTags_length level
  have label : ((ascii "tid:").takeWhile (· ≠ 0)).length = 4 := by decide
  have bracket : ((ascii "] ").takeWhile (· ≠ 0)).length = 2 := by decide
  simp only [prefixText, prefixAdds, List.flatMap_cons, List.flatMap_nil, Add.output,
    List.length_append, List.length_nil]
  omega

/-- The prefix is written whole. -/
theorem buildPrefix_eq {buf : List UInt8} (size : buf.length = 48) (level : Level) (tid : Int32) :
    buildPrefix buf level tid = some (prefixText level tid) := by
  have short := prefixText_length level tid
  obtain ⟨fmt, run, read⟩ := compose_spec buf (prefixText level tid) rfl
    (by omega) (by omega) (Nat.lt_of_le_of_lt short (by decide))
  have whole := read (prefixText level tid).length (Nat.le_refl _) (by omega)
  rw [List.take_length] at whole
  rw [buildPrefix, run]
  exact whole

theorem jsonEscaped_length (c : UInt8) : (jsonEscaped c).output.length ≤ 2 := by
  unfold jsonEscaped
  split_ifs <;> simp [Add.output, ascii]

theorem escaped_length (message : List UInt8) :
    ((message.map jsonEscaped).flatMap Add.output).length ≤ 2 * message.length := by
  induction message with
  | nil => exact Nat.le_refl 0
  | cons c message ih =>
    have first := jsonEscaped_length c
    rw [List.map_cons, List.flatMap_cons, List.length_append, List.length_cons]
    omega

theorem signedText_length (value : Int64) : (signedText value).length ≤ 21 := by
  rw [signedText_eq]
  split
  · exact Nat.succ_le_succ (unsignedText_length _)
  · exact (unsignedText_length _).trans (by decide)

theorem jsonText_length (level : Level) (tid : Int32) (seconds : Int64) (message : Message) :
    (jsonText level tid seconds message.1).length < 2 ^ 64 := by
  have number := signedText_length seconds
  have name := levelNames_length level
  have escaped := escaped_length message.1
  have short := message.2
  have digits := unsignedText_length (threadNumber tid)
  have label : ∀ text : String, ((ascii text).takeWhile (· ≠ 0)).length ≤ (ascii text).length :=
    fun text => (List.takeWhile_sublist _).length_le
  have labels : (ascii "\x7b\"ts\":").length + (ascii ",\"level\":\"").length +
      (ascii "\",\"msg\":\"").length + (ascii "\",\"tid\":").length +
      (ascii "\x7d\n").length = 35 := by
    decide
  have label₁ := label "\x7b\"ts\":"
  have label₂ := label ",\"level\":\""
  have label₃ := label "\",\"msg\":\""
  have label₄ := label "\",\"tid\":"
  have label₅ := label "\x7d\n"
  simp only [jsonText, jsonAdds, List.flatMap_append, List.flatMap_cons, List.flatMap_nil,
    Add.output, List.length_append, List.length_nil]
  omega

/-- A JSON line is cut off after 1023 bytes. -/
theorem buildJson_eq {buf : List UInt8} (size : buf.length = 1024) (level : Level) (tid : Int32)
    (seconds : Int64) (message : Message) :
    buildJson buf level tid seconds message.1 =
      some ((jsonText level tid seconds message.1).take 1023) := by
  obtain ⟨fmt, run, read⟩ := compose_spec buf (jsonText level tid seconds message.1) rfl
    (by omega) (by omega) (jsonText_length level tid seconds message)
  have cut : (if (jsonText level tid seconds message.1).length > buf.length - 1 then buf.length - 1
      else (jsonText level tid seconds message.1).length) =
        min 1023 (jsonText level tid seconds message.1).length := by
    rw [size]
    split <;> omega
  have front := read (min 1023 (jsonText level tid seconds message.1).length)
    (min_le_right _ _) (by omega)
  rw [← List.take_eq_take_min] at front
  rw [buildJson, run]
  exact (congrArg (readBuffer fmt.buffer) cut).trans front

/-- The builder of an entry can always be finished. -/
@[simp] theorem LogEntry.message_isSome (entry : LogEntry) : entry.message.isSome := by
  have size := entry.size
  have capacity := entry.capacity
  have finished : lcFormatFinish entry.fmt = some ({ entry.fmt with
      buffer := entry.fmt.buffer.set (min entry.fmt.used entry.fmt.capacity) 0 },
      entry.fmt.used) := by
    rw [lcFormatFinish_eq (by omega), store, if_pos (by omega)]
    rfl
  have short : (if entry.fmt.used > 511 then 511 else entry.fmt.used) ≤
      entry.fmt.buffer.length := by
    split <;> omega
  simp only [LogEntry.message, finished, Option.bind_eq_bind, Option.bind_some, List.length_set,
    if_pos short, Option.isSome_some]

end Lightc.Log
