import Lightc.Verification.Total
import Mathlib.Data.List.TakeWhile

/-!
# Buffered reading

A reader keeps a buffer of bytes it got from the kernel and has not handed out.
When the buffer is used up it asks for more. The kernel may give less than it was
asked for, and it may be interrupted any number of times; nothing or an error from
it ends the stream for good, whatever it would say later.

What a caller sees does not depend on any of this. The bytes a reader still has to
hand out are the rest of its buffer and what the kernel will deliver before the
end, and every call does to this list what it would do to the stream in one piece.
-/

namespace Lightc.Io

open Verification

/-- `LC_ERR_INTR`. -/
def errIntr : Int := 4

def newline : UInt8 := 10

/-- What the kernel is ready to answer: an error, or the bytes that have arrived.
No bytes at all are the end of the file. -/
inductive Reply
  | error (errno : Nat)
  | data (bytes : List UInt8)
  deriving DecidableEq, Repr

/-- `lc_reader`, with the contents of the buffer in place of its address. -/
structure Reader where
  buffer : Option (List UInt8)
  capacity : Nat
  filled : Nat
  position : Nat
  endOfFile : Bool
  deriving DecidableEq, Repr

/-- A reader and what the kernel will answer from now on. -/
structure Input where
  reader : Reader
  replies : List Reply
  deriving DecidableEq, Repr

abbrev Reads := Program Empty Input

/-- `lc_reader_create`, with the memory `lc_heap_allocate` returned. -/
def lcReaderCreate (allocated : Option (List UInt8)) (bufferSize : Nat) : Reader :=
  ⟨allocated, if allocated.isSome then bufferSize else 0, 0, 0, false⟩

/-- `SYS_read` into the reader's buffer. The kernel keeps what was not asked for,
and is at the end of the file when it has nothing more to answer. -/
def sysRead (count : Nat) : Reads Int := fun s =>
  match s.replies with
  | [] => .done 0 s
  | .error errno :: rest => .done (-errno) { s with replies := rest }
  | .data bytes :: rest =>
    match s.reader.buffer with
    | none => .fault
    | some buffer =>
      let given := bytes.take count
      if given.length ≤ buffer.length then
        .done given.length
          { reader := { s.reader with buffer := some (given ++ buffer.drop given.length) }
            replies := if bytes.length ≤ count then rest else .data (bytes.drop count) :: rest }
      else .fault

/-- `lc_kernel_read_retry`. -/
def lcKernelReadRetry (fuel count : Nat) : Reads Int :=
  Program.loop (fun _ : Unit => do
    let ret ← sysRead count
    pure (if ret = -errIntr then .next () else .leave ret)) fuel ()

/-- `reader_refill`. -/
def readerRefill (fuel : Nat) : Reads Unit := do
  let s ← Program.get
  if s.reader.endOfFile = true then pure ()
  else
    Program.modify fun s => { s with reader := { s.reader with position := 0, filled := 0 } }
    let ret ← lcKernelReadRetry fuel s.reader.capacity
    if ret ≤ 0 then
      Program.modify fun s => { s with reader := { s.reader with endOfFile := true } }
    else
      Program.modify fun s => { s with reader := { s.reader with filled := ret.toNat } }

/-- The part of a call before it looks into the buffer: whether there is nothing
left to look at. -/
def exhausted (fuel : Nat) : Reads Bool := do
  let s ← Program.get
  if s.reader.filled ≤ s.reader.position then
    readerRefill fuel
    let s ← Program.get
    pure s.reader.endOfFile
  else pure false

/-- `reader->buffer[reader->position++]`. -/
def takeByte : Reads Int := fun s =>
  match s.reader.buffer.bind fun buffer => buffer[s.reader.position]? with
  | none => .fault
  | some byte =>
    .done byte.toNat { s with reader := { s.reader with position := s.reader.position + 1 } }

/-- `lc_reader_read_byte`. -/
def lcReaderReadByte (fuel : Nat) : Reads Int := do
  let s ← Program.get
  if s.reader.buffer = none then pure (-1)
  else
    if ← exhausted fuel then pure (-1) else takeByte

/-- The copy of one round of `lc_reader_read_bytes`, after the bytes it has. -/
def takeChunk (count : Nat) (data : List UInt8) : Reads (List UInt8) := fun s =>
  match s.reader.buffer with
  | none => .fault
  | some buffer =>
    let available := s.reader.filled - s.reader.position
    let want := count - data.length
    let chunk := if want < available then want else available
    if s.reader.position + chunk ≤ buffer.length then
      .done (data ++ (buffer.drop s.reader.position).take chunk)
        { s with reader := { s.reader with position := s.reader.position + chunk } }
    else .fault

/-- One round of the loop of `lc_reader_read_bytes`. -/
def copyRound (fuel count : Nat) (data : List UInt8) : Reads (Step (List UInt8) (List UInt8)) :=
  if data.length < count then do
    if ← exhausted fuel then pure (.leave data)
    else
      let data ← takeChunk count data
      pure (.next data)
  else pure (.leave data)

/-- `lc_reader_read_bytes`: the bytes it copies, as many as it returns. -/
def lcReaderReadBytes (fuel count : Nat) : Reads (List UInt8) := do
  let s ← Program.get
  if s.reader.buffer = none then pure []
  else Program.loop (copyRound fuel count) fuel []

/-- One round of the first loop of `lc_reader_read_line`. It leaves with the bytes
of the line, or with nothing if the end comes before them. -/
def textRound (fuel max : Nat) (text : List UInt8) :
    Reads (Step (List UInt8) (Option (List UInt8))) :=
  if text.length < max then do
    let byte ← lcReaderReadByte fuel
    if byte < 0 then pure (.leave (if text.length = 0 then none else some text))
    else if byte = newline.toNat then pure (.leave (some text))
    else pure (.next (text ++ [.ofNat byte.toNat]))
  else pure (.leave (some text))

/-- One round of its second loop. -/
def skipRound (fuel : Nat) (_ : Unit) : Reads (Step Unit Unit) := do
  let byte ← lcReaderReadByte fuel
  pure (if byte < 0 ∨ byte = newline.toNat then .leave () else .next ())

/-- The end of `lc_reader_read_line`: if `buf` is full, the rest of the line is
consumed. -/
def finishLine (fuel max : Nat) (text : List UInt8) : Reads (Int × Option (List UInt8)) := do
  let skip : Reads Unit :=
    if text.length = max then Program.loop (skipRound fuel) fuel () else pure ()
  skip
  pure (text.length, some (text ++ [0]))

/-- `lc_reader_read_line`: what it returns and what it writes to `buf`, if
anything. -/
def lcReaderReadLine (fuel bufSize : Nat) : Reads (Int × Option (List UInt8)) := do
  let s ← Program.get
  if s.reader.buffer = none then pure (-1, none)
  else if bufSize = 0 then pure (-1, none)
  else
    match ← Program.loop (textRound fuel (bufSize - 1)) fuel [] with
    | none => pure (-1, some [0])
    | some text => finishLine fuel (bufSize - 1) text

/-- `lc_reader_is_end`. -/
def lcReaderIsEnd (r : Reader) : Bool := r.endOfFile && decide (r.filled ≤ r.position)

/-! ### The same calls on a stream in one piece -/

inductive Call
  | readByte
  | readBytes (count : Nat)
  | readLine (bufSize : Nat)
  deriving DecidableEq, Repr

inductive Result
  | byte (value : Int)
  | bytes (data : List UInt8)
  | line (value : Int) (written : Option (List UInt8))
  deriving DecidableEq, Repr

/-- What a call returns, the bytes it consumes and those it leaves. -/
structure Effect where
  result : Result
  taken : List UInt8
  rest : List UInt8
  deriving DecidableEq, Repr

def byteOnStream : List UInt8 → Effect
  | [] => ⟨.byte (-1), [], []⟩
  | byte :: rest => ⟨.byte byte.toNat, [byte], rest⟩

def bytesOnStream (count : Nat) (stream : List UInt8) : Effect :=
  ⟨.bytes (stream.take count), stream.take count, stream.drop count⟩

/-- Of a line that is too long for `buf` the rest is consumed as well. -/
def lineOnStream (bufSize : Nat) (stream : List UInt8) : Effect :=
  if bufSize = 0 then ⟨.line (-1) none, [], stream⟩
  else if stream = [] ∧ 1 < bufSize then ⟨.line (-1) (some [0]), [], []⟩
  else
    let line := stream.takeWhile (· ≠ newline)
    let text := line.take (bufSize - 1)
    let after := stream.dropWhile (· ≠ newline)
    ⟨.line text.length (some (text ++ [0])), line ++ after.take 1, after.drop 1⟩

def Call.onStream : Call → List UInt8 → Effect
  | .readByte => byteOnStream
  | .readBytes count => bytesOnStream count
  | .readLine bufSize => lineOnStream bufSize

/-- The results of some calls, the bytes each consumes and those left in the end. -/
def onStream : List Call → List UInt8 → List Result × List (List UInt8) × List UInt8
  | [], stream => ([], [], stream)
  | call :: calls, stream =>
    let first := call.onStream stream
    let others := onStream calls first.rest
    (first.result :: others.1, first.taken :: others.2.1, others.2.2)

def Call.onReader (fuel : Nat) : Call → Reads Result
  | .readByte => do
    let value ← lcReaderReadByte fuel
    pure (.byte value)
  | .readBytes count => do
    let data ← lcReaderReadBytes fuel count
    pure (.bytes data)
  | .readLine bufSize => do
    let (value, written) ← lcReaderReadLine fuel bufSize
    pure (.line value written)

def onReader (fuel : Nat) : List Call → Reads (List Result)
  | [] => pure []
  | call :: calls => do
    let result ← call.onReader fuel
    let others ← onReader fuel calls
    pure (result :: others)

/-- The bytes that arrive before the end of the file or an error other than an
interruption. -/
def delivered : List Reply → List UInt8
  | [] => []
  | .error errno :: rest => if (-errno : Int) = -errIntr then delivered rest else []
  | .data bytes :: rest => if bytes = [] then [] else bytes ++ delivered rest

/-! ### What is left to read -/

/-- The bytes a reader has not handed out and those it is going to get. -/
def pending (s : Input) : List UInt8 :=
  match s.reader.buffer with
  | none => []
  | some buffer =>
    (buffer.take s.reader.filled).drop s.reader.position ++
      if s.reader.endOfFile = true then [] else delivered s.replies

/-- A reader with a buffer, between two calls. -/
structure Valid (s : Input) : Prop where
  buffer : ∃ buffer, s.reader.buffer = some buffer ∧ buffer.length = s.reader.capacity
  positive : 0 < s.reader.capacity
  filled : s.reader.filled ≤ s.reader.capacity
  position : s.reader.position ≤ s.reader.filled
  ended : s.reader.endOfFile = true → s.reader.filled ≤ s.reader.position

/-- The reader has `stream` left, and there is fuel for the answers of the kernel. -/
structure Holds (fuel : Nat) (stream : List UInt8) (s : Input) : Prop where
  valid : Valid s
  pending : pending s = stream
  enough : s.replies.length < fuel

variable {fuel : Nat} {stream : List UInt8} {s t : Input}

/-- An interruption changes nothing. -/
theorem delivered_interrupted {errno : Nat} {rest : List Reply} (same : (-errno : Int) = -errIntr) :
    delivered (.error errno :: rest) = delivered rest := if_pos same

/-- It makes no difference that the kernel keeps what was not asked for. -/
theorem delivered_take {bytes : List UInt8} {rest : List Reply} (count : Nat)
    (some_ : bytes ≠ []) :
    delivered (.data bytes :: rest) = bytes.take count ++
      delivered (if bytes.length ≤ count then rest else .data (bytes.drop count) :: rest) := by
  rw [delivered, if_neg some_]
  split
  · rename_i all
    rw [List.take_of_length_le all]
  · rename_i more
    have left_ : bytes.drop count ≠ [] := by
      rw [ne_eq, List.drop_eq_nil_iff]
      exact more
    rw [delivered, if_neg left_, ← List.append_assoc, List.take_append_drop]

section

variable {capacity : Nat}

/-- A refill that is under way: the buffer is there and its contents do not matter. -/
structure Asking (fuel capacity : Nat) (stream : List UInt8) (s : Input) : Prop where
  buffer : ∃ buffer, s.reader.buffer = some buffer ∧ buffer.length = capacity
  room : s.reader.capacity = capacity
  position : s.reader.position = 0
  filled : s.reader.filled = 0
  going : s.reader.endOfFile = false
  delivered : delivered s.replies = stream
  enough : s.replies.length < fuel

/-- The kernel has put the first bytes of the stream into the buffer, or there are
none. -/
structure Answered (fuel capacity : Nat) (stream : List UInt8) (ret : Int) (s : Input) : Prop where
  buffer : ∃ buffer, s.reader.buffer = some buffer ∧ buffer.length = capacity ∧
    (0 < ret → buffer.take ret.toNat ++ delivered s.replies = stream)
  room : s.reader.capacity = capacity
  position : s.reader.position = 0
  filled : s.reader.filled = 0
  going : s.reader.endOfFile = false
  small : ret ≤ capacity
  ended : ret ≤ 0 → stream = []
  enough : s.replies.length < fuel

/-- One system call, interrupted or not. -/
theorem sysRead_spec (positive : 0 < capacity) (asking : Asking fuel capacity stream s) :
    Total (fun t => t = s) (sysRead capacity) fun ret t =>
      (ret = -errIntr ∧ Asking fuel capacity stream t ∧ t.replies.length < s.replies.length) ∨
        (ret ≠ -errIntr ∧ Answered fuel capacity stream ret t) := by
  rintro s rfl
  obtain ⟨buffer, some_, size⟩ := asking.buffer
  have stream_ := asking.delivered
  have enough := asking.enough
  unfold sysRead
  cases replies : s.replies with
  | nil =>
    rw [replies] at stream_
    refine ⟨_, _, rfl, .inr ⟨by decide, ⟨buffer, some_, size, fun more => ?_⟩, asking.room,
      asking.position, asking.filled, asking.going, Int.natCast_nonneg _, fun _ => stream_.symm,
      enough⟩⟩
    exact absurd more (Int.lt_irrefl 0)
  | cons reply rest =>
    rw [replies] at stream_ enough
    have shorter : rest.length < fuel := Nat.lt_of_succ_lt enough
    cases reply with
    | error errno =>
      refine ⟨_, _, rfl, ?_⟩
      by_cases interrupted : (-errno : Int) = -errIntr
      · rw [delivered_interrupted interrupted] at stream_
        exact .inl ⟨interrupted, ⟨⟨buffer, some_, size⟩, asking.room, asking.position,
          asking.filled, asking.going, stream_, shorter⟩, Nat.lt_succ_self _⟩
      · rw [delivered, if_neg interrupted] at stream_
        refine .inr ⟨interrupted, ⟨buffer, some_, size, fun more => ?_⟩, asking.room,
          asking.position, asking.filled, asking.going, ?_, fun _ => stream_.symm, shorter⟩
        · omega
        · omega
    | data bytes =>
      have fits : (bytes.take capacity).length ≤ buffer.length := by
        rw [List.length_take, size]
        exact Nat.min_le_left _ _
      simp only [some_, if_pos fits]
      refine ⟨_, _, rfl, .inr ⟨?_, ⟨_, rfl, ?_, fun more => ?_⟩, asking.room,
        asking.position, asking.filled, asking.going, ?_, fun none_ => ?_, ?_⟩⟩
      · unfold errIntr
        omega
      · simp only [List.length_append, List.length_drop]
        omega
      · have some' : bytes ≠ [] := by
          rintro rfl
          simp at more
        rw [Int.toNat_natCast, List.take_left, ← delivered_take _ some']
        exact stream_
      · rw [List.length_take]
        exact Int.ofNat_le.mpr (Nat.min_le_left _ _)
      · have none' : bytes = [] := by
          rw [List.length_take] at none_
          apply List.length_eq_zero_iff.mp
          omega
        subst none'
        exact stream_.symm
      · split
        · exact shorter
        · simpa using enough

theorem lcKernelReadRetry_spec (positive : 0 < capacity) :
    Total (Asking fuel capacity stream) (lcKernelReadRetry fuel capacity) fun ret t =>
      Answered fuel capacity stream ret t := by
  refine (Total.loop (fun _ => Asking fuel capacity stream) (fun _ t => t.replies.length)
    (fun _ s asking => ?_) fuel ()).consequence (fun s asking => ⟨asking, asking.enough⟩)
    fun _ _ answered => answered
  refine (sysRead_spec positive asking).bind fun ret => .ret fun t outcome => ?_
  rcases outcome with ⟨interrupted, again, fewer⟩ | ⟨other, answered⟩
  · rw [if_pos interrupted]
    exact ⟨again, fewer⟩
  · rw [if_neg other]
    exact answered

end

/-- With the buffer used up, a refill finds the rest of the stream or its end. -/
theorem readerRefill_spec :
    Total (fun s => Holds fuel stream s ∧ s.reader.filled ≤ s.reader.position)
      (readerRefill fuel) fun _ t => Holds fuel stream t ∧
        if t.reader.endOfFile = true then stream = [] else t.reader.position < t.reader.filled := by
  refine Total.get_bind fun s ⟨holds, used⟩ => ?_
  obtain ⟨buffer, some_, size⟩ := holds.valid.buffer
  have nothing : (buffer.take s.reader.filled).drop s.reader.position = [] := by
    rw [List.drop_eq_nil_iff, List.length_take]
    exact Nat.le_trans (Nat.min_le_left _ _) used
  have left_ := holds.pending
  unfold pending at left_
  rw [some_] at left_
  simp only [nothing, List.nil_append] at left_
  refine Total.ite (fun ended => ?_) fun going => ?_
  · refine .ret ?_
    rintro t rfl
    rw [if_pos ended] at left_ ⊢
    exact ⟨holds, left_.symm⟩
  · rw [if_neg going] at left_
    refine Total.bind (Q := fun _ => Asking fuel s.reader.capacity stream) (.modify ?_) fun _ => ?_
    · rintro t rfl
      exact ⟨⟨buffer, some_, size⟩, rfl, rfl, rfl, by simpa using going, left_, holds.enough⟩
    refine (lcKernelReadRetry_spec holds.valid.positive).bind fun ret => ?_
    refine Total.ite (fun none_ => .modify fun t answered => ?_) fun some' =>
      .modify fun t answered => ?_
    · obtain ⟨buffer', at_, size', -⟩ := answered.buffer
      refine ⟨⟨⟨⟨buffer', at_, size'.trans answered.room.symm⟩, ?_, ?_, ?_, fun _ => ?_⟩, ?_,
        answered.enough⟩, answered.ended none_⟩
      · exact answered.room ▸ holds.valid.positive
      · exact answered.filled ▸ Nat.zero_le _
      · exact answered.position ▸ Nat.zero_le _
      · exact answered.filled ▸ Nat.zero_le _
      · unfold pending
        simp [at_, answered.filled, answered.ended none_]
    · obtain ⟨buffer', at_, size', first⟩ := answered.buffer
      have going' : ¬ t.reader.endOfFile = true := by simp [answered.going]
      have small := answered.small
      refine ⟨⟨⟨⟨buffer', at_, size'.trans answered.room.symm⟩, ?_, ?_, ?_, fun ended => ?_⟩, ?_,
        answered.enough⟩, ?_⟩
      · exact answered.room ▸ holds.valid.positive
      · rw [answered.room]
        dsimp only
        omega
      · exact answered.position ▸ Nat.zero_le _
      · exact absurd ended going'
      · unfold pending
        simp only [at_, answered.position, List.drop_zero, if_neg going']
        exact first (by omega)
      · rw [if_neg going', answered.position]
        dsimp only
        omega

/-! ### The calls -/

theorem exhausted_spec :
    Total (Holds fuel stream) (exhausted fuel) fun none_ t => Holds fuel stream t ∧
      if none_ = true then stream = [] else t.reader.position < t.reader.filled := by
  refine Total.get_bind fun s holds => Total.ite (fun used => ?_) fun unused => .ret ?_
  · refine (readerRefill_spec.start ⟨holds, used⟩).bind fun _ =>
      Total.get_bind fun t found => .ret ?_
    rintro u rfl
    exact found
  · rintro t rfl
    exact ⟨holds, Nat.lt_of_not_le unused⟩

/-- Between `position` and `filled` the buffer has the first bytes of the stream. -/
theorem Holds.buffered (holds : Holds fuel stream s) :
    ∃ buffer more, s.reader.buffer = some buffer ∧ s.reader.filled ≤ buffer.length ∧
      more = (if s.reader.endOfFile = true then [] else delivered s.replies) ∧
      stream = (buffer.take s.reader.filled).drop s.reader.position ++ more := by
  obtain ⟨buffer, some_, size⟩ := holds.valid.buffer
  refine ⟨buffer, _, some_, size ▸ holds.valid.filled, rfl, ?_⟩
  rw [← holds.pending, Io.pending, some_]

/-- Bytes of the buffer are handed out. -/
theorem Holds.advance (holds : Holds fuel stream s) {k : Nat}
    (within : s.reader.position + k ≤ s.reader.filled) :
    Holds fuel (stream.drop k)
      { s with reader := { s.reader with position := s.reader.position + k } } := by
  obtain ⟨buffer, more, some_, size, rest, rfl⟩ := holds.buffered
  refine ⟨⟨holds.valid.buffer, holds.valid.positive, holds.valid.filled, within, fun ended => ?_⟩,
    ?_, holds.enough⟩
  · exact Nat.le_trans (holds.valid.ended ended) (Nat.le_add_right _ _)
  · have inside : k ≤ ((buffer.take s.reader.filled).drop s.reader.position).length := by
      rw [List.length_drop, List.length_take]
      omega
    rw [List.drop_append_of_le_length inside, List.drop_drop, rest, Io.pending]
    simp only [some_]

theorem takeByte_spec (holds : Holds fuel stream s)
    (some_ : s.reader.position < s.reader.filled) :
    Total (fun t => t = s) takeByte fun value t =>
      ∃ byte, stream.head? = some byte ∧ value = byte.toNat ∧ Holds fuel stream.tail t := by
  rintro s rfl
  obtain ⟨buffer, more, at_, size, -, split⟩ := holds.buffered
  have inside : s.reader.position < buffer.length := Nat.lt_of_lt_of_le some_ size
  unfold takeByte
  rw [at_, Option.bind_some, List.getElem?_eq_getElem inside]
  refine ⟨_, _, rfl, _, ?_, rfl, List.drop_one ▸ holds.advance some_⟩
  rw [split, List.drop_eq_getElem_cons (by rw [List.length_take]; omega)]
  simp

/-- The value of a byte that is read, or -1 at the end. -/
def firstByte : List UInt8 → Int
  | [] => -1
  | byte :: _ => byte.toNat

theorem lcReaderReadByte_spec :
    Total (Holds fuel stream) (lcReaderReadByte fuel) fun value t =>
      value = firstByte stream ∧ Holds fuel stream.tail t := by
  refine Total.get_bind fun s holds => ?_
  obtain ⟨buffer, at_, -⟩ := holds.valid.buffer
  refine Total.ite (fun none_ => absurd (at_.symm.trans none_) nofun) fun _ => ?_
  refine (exhausted_spec.start holds).bind fun none_ =>
    Total.ite (fun ended => .ret fun t found => ?_) fun more => .entry fun t found => ?_
  · rw [if_pos ended] at found
    obtain ⟨holds', rfl⟩ := found
    exact ⟨rfl, holds'⟩
  · rw [if_neg more] at found
    refine (takeByte_spec found.1 found.2).consequence (fun _ h => h) ?_
    rintro value u ⟨byte, first, rfl, rest⟩
    refine ⟨?_, rest⟩
    cases stream with
    | nil => cases first
    | cons _ _ =>
      cases first
      rfl

variable {rest : List UInt8} {count bufSize : Nat}

/-- A chunk takes at least one byte and not more than wanted. -/
theorem takeChunk_spec {data : List UInt8} (holds : Holds fuel stream s)
    (some_ : s.reader.position < s.reader.filled) (wanted : data.length < count) :
    Total (fun t => t = s) (takeChunk count data) fun data' t =>
      ∃ k, 0 < k ∧ k ≤ count - data.length ∧ k ≤ stream.length ∧ data' = data ++ stream.take k ∧
        Holds fuel (stream.drop k) t := by
  rintro s rfl
  obtain ⟨buffer, more, at_, size, -, rfl⟩ := holds.buffered
  unfold takeChunk
  simp only [at_]
  generalize hk : (if count - data.length < s.reader.filled - s.reader.position then
    count - data.length else s.reader.filled - s.reader.position) = k
  have chunk : k ≤ count - data.length ∧ k ≤ s.reader.filled - s.reader.position ∧ 0 < k := by
    split at hk <;> omega
  have inside : k ≤ ((buffer.take s.reader.filled).drop s.reader.position).length := by
    rw [List.length_drop, List.length_take]
    omega
  have advanced := holds.advance (k := k) (by omega)
  simp only [at_] at advanced
  rw [if_pos (by omega)]
  refine ⟨_, _, rfl, k, chunk.2.2, chunk.1, ?_, ?_, advanced⟩
  · rw [List.length_append]
    omega
  · rw [List.take_append_of_le_length inside, List.take_drop, List.take_drop, List.take_take,
      Nat.min_eq_left (by omega : s.reader.position + k ≤ s.reader.filled)]

/-- What was copied and what is pending make up the stream. -/
def Copied (fuel count : Nat) (stream data : List UInt8) (s : Input) : Prop :=
  data.length ≤ count ∧ ∃ rest, stream = data ++ rest ∧ Holds fuel rest s

theorem copyRound_spec (data : List UInt8) (s : Input) (copied : Copied fuel count stream data s) :
    Total (fun t => t = s) (copyRound fuel count data) fun r t =>
      r.Falls (Copied fuel count stream · t) (fun _ => (pending t).length)
        (fun data => data = stream.take count ∧ Holds fuel (stream.drop count) t)
        (pending s).length := by
  obtain ⟨few, rest, rfl, holds⟩ := copied
  refine Total.ite (fun wanted => ?_) fun done => .ret ?_
  · refine (exhausted_spec.start holds).bind fun none_ =>
      Total.ite (fun ended => .ret fun t found => ?_) fun more => .entry fun t found => ?_
    · rw [if_pos ended] at found
      obtain ⟨holds', rfl⟩ := found
      refine ⟨?_, ?_⟩
      · rw [List.append_nil, List.take_of_length_le few]
      · rw [List.append_nil, List.drop_of_length_le few]
        exact holds'
    · rw [if_neg more] at found
      refine (takeChunk_spec found.1 found.2 wanted).bind fun data' => .ret ?_
      rintro u ⟨k, positive, small, inside, rfl, holds'⟩
      refine ⟨⟨?_, rest.drop k, ?_, holds'⟩, ?_⟩
      · rw [List.length_append, List.length_take]
        omega
      · rw [List.append_assoc, List.take_append_drop]
      · dsimp only
        rw [holds'.pending, holds.pending, List.length_drop]
        omega
  · rintro t rfl
    have all : data.length = count := by omega
    subst all
    refine ⟨?_, ?_⟩
    · rw [List.take_left]
    · rw [List.drop_left]
      exact holds

theorem lcReaderReadBytes_spec (enough : stream.length < fuel) :
    Total (Holds fuel stream) (lcReaderReadBytes fuel count) fun data t =>
      data = stream.take count ∧ Holds fuel (stream.drop count) t := by
  refine Total.get_bind fun s holds => ?_
  obtain ⟨buffer, at_, -⟩ := holds.valid.buffer
  refine Total.ite (fun none_ => absurd (at_.symm.trans none_) nofun) fun _ => ?_
  exact (Total.loop (Copied fuel count stream) (fun _ t => (pending t).length) copyRound_spec
    fuel []).start ⟨⟨Nat.zero_le _, stream, rfl, holds⟩, by rw [holds.pending]; exact enough⟩

/-- A line under way: the bytes read so far have no newline among them. -/
def Reading (fuel max : Nat) (stream text : List UInt8) (s : Input) : Prop :=
  text.length ≤ max ∧ newline ∉ text ∧ ∃ rest, stream = text ++ rest ∧ Holds fuel rest s

/-- The ways to leave the first loop. -/
inductive TextRead (fuel max : Nat) (stream : List UInt8) : Option (List UInt8) → Input → Prop
  | atEnd {s : Input} (nothing : stream = []) (room : 0 < max) (holds : Holds fuel [] s) :
      TextRead fuel max stream none s
  | ended {s : Input} {text : List UInt8} (free : newline ∉ text) (all : stream = text)
      (some_ : text ≠ []) (room : text.length < max) (holds : Holds fuel [] s) :
      TextRead fuel max stream (some text) s
  | line {s : Input} {text rest : List UInt8} (free : newline ∉ text)
      (split : stream = text ++ newline :: rest) (room : text.length < max)
      (holds : Holds fuel rest s) : TextRead fuel max stream (some text) s
  | full {s : Input} {text rest : List UInt8} (free : newline ∉ text)
      (split : stream = text ++ rest)
      (full : text.length = max) (holds : Holds fuel rest s) :
      TextRead fuel max stream (some text) s

theorem firstByte_nil : firstByte [] < 0 := by decide

theorem firstByte_cons (byte : UInt8) (rest : List UInt8) : ¬ firstByte (byte :: rest) < 0 :=
  Int.not_lt.mpr (Int.natCast_nonneg _)

theorem firstByte_eq_newline {byte : UInt8} :
    firstByte (byte :: rest) = newline.toNat ↔ byte = newline := by
  unfold firstByte
  rw [Int.natCast_inj, UInt8.toNat_inj]

theorem textRound_spec {max : Nat} (text : List UInt8) (s : Input)
    (reading : Reading fuel max stream text s) :
    Total (fun t => t = s) (textRound fuel max text) fun r t =>
      r.Falls (Reading fuel max stream · t) (fun _ => (pending t).length)
        (TextRead fuel max stream · t) (pending s).length := by
  obtain ⟨few, free, rest, rfl, holds⟩ := reading
  refine Total.ite (fun room => ?_) fun done => .ret ?_
  · refine (lcReaderReadByte_spec.start holds).bind fun value => .entry ?_
    rintro t ⟨rfl, holds'⟩
    cases rest with
    | nil =>
      rw [if_pos firstByte_nil]
      refine .ret ?_
      rintro u rfl
      rw [List.append_nil]
      split
      · next none_ => exact .atEnd (List.length_eq_zero_iff.mp none_) (by omega) holds'
      · next none_ => exact .ended free rfl (fun empty => none_ (by rw [empty]; rfl)) room holds'
    | cons byte rest =>
      rw [if_neg (firstByte_cons byte rest)]
      refine Total.ite (fun found => .ret ?_) fun other => .ret ?_
      · rintro u rfl
        rw [firstByte_eq_newline] at found
        subst found
        exact .line free rfl room holds'
      · rintro u rfl
        have value : UInt8.ofNat (firstByte (byte :: rest)).toNat = byte := by
          simp [firstByte]
        rw [value]
        refine ⟨⟨?_, ?_, rest, ?_, holds'⟩, ?_⟩
        · rw [List.length_append, List.length_singleton]
          omega
        · simp only [List.mem_append, List.mem_singleton, not_or]
          exact ⟨free, fun same => other (firstByte_eq_newline.mpr same.symm)⟩
        · rw [List.append_assoc, List.singleton_append]
        · dsimp only
          rw [holds'.pending, holds.pending]
          exact Nat.lt_succ_self _
  · rintro t rfl
    exact .full free rfl (by omega) holds

theorem readText_spec {max : Nat} (enough : stream.length < fuel) :
    Total (Holds fuel stream) (Program.loop (textRound fuel max) fuel [])
      (TextRead fuel max stream) :=
  .entry fun s holds => (Total.loop (Reading fuel max stream) (fun _ t => (pending t).length)
    textRound_spec fuel []).start
      ⟨⟨Nat.zero_le _, nofun, stream, rfl, holds⟩, by rw [holds.pending]; exact enough⟩

/-- The rest of the stream after its first line. -/
def afterLine (stream : List UInt8) : List UInt8 := (stream.dropWhile (· ≠ newline)).drop 1

@[simp] theorem afterLine_nil : afterLine [] = [] := rfl

@[simp] theorem afterLine_cons {byte : UInt8} :
    afterLine (byte :: rest) = if byte = newline then rest else afterLine rest := by
  unfold afterLine
  by_cases found : byte = newline
  · simp [found]
  · simp [found]

theorem skipLine_spec (enough : stream.length < fuel) :
    Total (Holds fuel stream) (Program.loop (skipRound fuel) fuel ())
      fun _ t => Holds fuel (afterLine stream) t := by
  refine .entry fun s holds => (Total.loop
    (fun _ t => ∃ rest, afterLine rest = afterLine stream ∧ Holds fuel rest t)
    (fun _ t => (pending t).length) ?_ fuel ()).start
      ⟨⟨stream, rfl, holds⟩, by rw [holds.pending]; exact enough⟩
  rintro _ s ⟨rest, same, holds⟩
  refine (lcReaderReadByte_spec.start holds).bind fun value => .ret ?_
  rintro t ⟨rfl, holds'⟩
  cases rest with
  | nil =>
    rw [if_pos (.inl firstByte_nil)]
    exact same ▸ holds'
  | cons byte rest =>
    rw [afterLine_cons] at same
    by_cases found : byte = newline
    · rw [if_pos (.inr (firstByte_eq_newline.mpr found))]
      rw [if_pos found] at same
      exact same ▸ holds'
    · rw [if_neg (not_or.mpr ⟨firstByte_cons byte rest, mt firstByte_eq_newline.mp found⟩)]
      rw [if_neg found] at same
      refine ⟨⟨rest, same, holds'⟩, ?_⟩
      dsimp only
      rw [holds'.pending, holds.pending]
      exact Nat.lt_succ_self _

section lines

variable {text rest : List UInt8}

theorem takeWhile_text (free : newline ∉ text) :
    (text ++ rest).takeWhile (· ≠ newline) = text ++ rest.takeWhile (· ≠ newline) :=
  List.takeWhile_append_of_pos fun byte member => by
    simpa using fun same : byte = newline => free (same ▸ member)

theorem afterLine_text (free : newline ∉ text) : afterLine (text ++ rest) = afterLine rest := by
  unfold afterLine
  rw [List.dropWhile_append_of_pos fun byte member => by
    simpa using fun same : byte = newline => free (same ▸ member)]

end lines

/-- What a line read does to a stream, given the part of the line it returns. -/
theorem lineOnStream_eq {text : List UInt8} (positive : ¬ bufSize = 0)
    (some_ : ¬ (stream = [] ∧ 1 < bufSize))
    (first : (stream.takeWhile (· ≠ newline)).take (bufSize - 1) = text) :
    (lineOnStream bufSize stream).result = .line text.length (some (text ++ [0])) ∧
      (lineOnStream bufSize stream).rest = afterLine stream := by
  unfold lineOnStream
  rw [if_neg positive, if_neg some_, ← first]
  exact ⟨rfl, rfl⟩

/-- The end of a line read that has collected `text`, with `rest` still pending. -/
theorem finishLine_spec {text : List UInt8} (positive : ¬ bufSize = 0)
    (some_ : ¬ (stream = [] ∧ 1 < bufSize))
    (first : (stream.takeWhile (· ≠ newline)).take (bufSize - 1) = text)
    (enough : rest.length < fuel) (holds : Holds fuel rest s)
    (long : text.length = bufSize - 1 → afterLine rest = afterLine stream)
    (short : ¬ text.length = bufSize - 1 → rest = afterLine stream) :
    Total (fun t => t = s) (finishLine fuel (bufSize - 1) text) fun r t =>
      .line r.1 r.2 = (lineOnStream bufSize stream).result ∧
        Holds fuel (lineOnStream bufSize stream).rest t := by
  obtain ⟨result, rest_⟩ := lineOnStream_eq positive some_ first
  rw [result, rest_]
  refine Total.bind (Q := fun _ t => Holds fuel (afterLine stream) t)
    (Total.ite (fun full => ?_) fun room => .ret ?_) fun _ => .ret fun t holds => ⟨rfl, holds⟩
  · rw [← long full]
    exact (skipLine_spec enough).start holds
  · rintro t rfl
    exact short room ▸ holds

theorem lcReaderReadLine_spec (enough : stream.length < fuel) :
    Total (Holds fuel stream) (lcReaderReadLine fuel bufSize) fun r t =>
      .line r.1 r.2 = (lineOnStream bufSize stream).result ∧
        Holds fuel (lineOnStream bufSize stream).rest t := by
  refine Total.get_bind fun s holds => ?_
  obtain ⟨buffer, at_, -⟩ := holds.valid.buffer
  refine Total.ite (fun none_ => absurd (at_.symm.trans none_) nofun) fun _ => ?_
  refine Total.ite (fun zero => .ret ?_) fun positive => ?_
  · rintro t rfl
    simp only [lineOnStream, if_pos zero]
    exact ⟨trivial, holds⟩
  refine ((readText_spec enough).start holds).bind fun found => .entry fun t read => ?_
  cases read with
  | atEnd nothing room holds' =>
    refine .ret ?_
    rintro u rfl
    simp only [lineOnStream, if_neg positive,
      if_pos (show stream = [] ∧ 1 < bufSize from ⟨nothing, by omega⟩)]
    exact ⟨trivial, holds'⟩
  | @ended _ text free all some_ room holds' =>
    have first : (stream.takeWhile (· ≠ newline)).take (bufSize - 1) = text := by
      rw [all, ← List.append_nil text, takeWhile_text free, List.takeWhile_nil, List.append_nil,
        List.take_of_length_le (Nat.le_of_lt room)]
    have after : afterLine stream = [] := by
      rw [all, ← List.append_nil text, afterLine_text free, afterLine_nil]
    have shorter : ([] : List UInt8).length < fuel := Nat.zero_lt_of_lt enough
    exact finishLine_spec positive (fun empty => some_ (all.symm.trans empty.1)) first shorter
      holds' (fun full => absurd full (Nat.ne_of_lt room)) fun _ => after.symm
  | @line _ text rest free split room holds' =>
    have first : (stream.takeWhile (· ≠ newline)).take (bufSize - 1) = text := by
      rw [split, takeWhile_text free]
      simp [List.take_of_length_le (Nat.le_of_lt room)]
    have after : afterLine stream = rest := by
      rw [split, afterLine_text free, afterLine_cons, if_pos rfl]
    have shorter : rest.length < fuel := by
      rw [split, List.length_append, List.length_cons] at enough
      omega
    exact finishLine_spec positive (fun empty => by simp [split] at empty) first shorter holds'
      (fun full => absurd full (Nat.ne_of_lt room)) fun _ => after.symm
  | @full _ text rest free split full holds' =>
    have first : (stream.takeWhile (· ≠ newline)).take (bufSize - 1) = text := by
      rw [split, takeWhile_text free, ← full, List.take_left]
    have after : afterLine rest = afterLine stream := by
      rw [split, afterLine_text free]
    have shorter : rest.length < fuel := by
      rw [split, List.length_append] at enough
      omega
    have some_ : ¬ (stream = [] ∧ 1 < bufSize) := by
      rintro ⟨empty, large⟩
      rw [split, List.append_eq_nil_iff] at empty
      rw [empty.1, List.length_nil] at full
      omega
    exact finishLine_spec positive some_ first shorter holds' (fun _ => after)
      fun other => absurd full other

/-! ### Any sequence of calls -/

/-- One call does to the pending bytes what it does to a stream. -/
theorem Call.onReader_spec (call : Call) (enough : stream.length < fuel) :
    Total (Holds fuel stream) (call.onReader fuel) fun result t =>
      result = (call.onStream stream).result ∧ Holds fuel (call.onStream stream).rest t := by
  cases call with
  | readByte =>
    refine lcReaderReadByte_spec.bind fun value => .ret ?_
    rintro t ⟨rfl, holds⟩
    cases stream with
    | nil => exact ⟨rfl, holds⟩
    | cons _ _ => exact ⟨rfl, holds⟩
  | readBytes count =>
    refine (lcReaderReadBytes_spec enough).bind fun data => .ret ?_
    rintro t ⟨rfl, holds⟩
    exact ⟨rfl, holds⟩
  | readLine bufSize =>
    exact (lcReaderReadLine_spec enough).bind fun r => .ret fun t done => done

/-- A call splits the stream. -/
@[simp] theorem Call.taken_append_rest (call : Call) (stream : List UInt8) :
    (call.onStream stream).taken ++ (call.onStream stream).rest = stream := by
  cases call with
  | readByte => cases stream <;> rfl
  | readBytes count => exact List.take_append_drop _ _
  | readLine bufSize =>
    simp only [Call.onStream, lineOnStream]
    split
    · rfl
    · split
      · rename_i nothing
        exact nothing.1.symm
      · simp only [List.append_assoc, List.take_append_drop]
        exact List.takeWhile_append_dropWhile

theorem onReader_spec (calls : List Call) (enough : stream.length < fuel) :
    Total (Holds fuel stream) (onReader fuel calls) fun results t =>
      results = (onStream calls stream).1 ∧ Holds fuel (onStream calls stream).2.2 t := by
  induction calls generalizing stream with
  | nil => exact .ret fun s holds => ⟨rfl, holds⟩
  | cons call calls ih =>
    have shorter : (call.onStream stream).rest.length < fuel := by
      have split := congrArg List.length (call.taken_append_rest stream)
      rw [List.length_append] at split
      omega
    refine (call.onReader_spec enough).bind fun result => .entry ?_
    rintro s ⟨rfl, holds⟩
    refine ((ih shorter).start holds).bind fun results => .ret ?_
    rintro t ⟨rfl, holds'⟩
    exact ⟨rfl, holds'⟩

/-- The calls consume the stream from its front, one after another. -/
theorem onStream_consumes (calls : List Call) (stream : List UInt8) :
    (onStream calls stream).2.1.length = calls.length ∧
      (onStream calls stream).2.1.flatten ++ (onStream calls stream).2.2 = stream := by
  induction calls generalizing stream with
  | nil => exact ⟨rfl, rfl⟩
  | cons call calls ih =>
    obtain ⟨count, all⟩ := ih (call.onStream stream).rest
    refine ⟨congrArg (· + 1) count, ?_⟩
    simp only [onStream, List.flatten_cons, List.append_assoc, all]
    exact call.taken_append_rest stream

/-- What a call returns if `lc_heap_allocate` failed. -/
def Call.refused : Call → Result
  | .readByte => .byte (-1)
  | .readBytes _ => .bytes []
  | .readLine _ => .line (-1) none

/-- The test for a missing buffer at the start of every call. -/
theorem refuses {α : Type} {a : α} {c : Input → Reads α} (none_ : s.reader.buffer = none) :
    (Program.get >>= fun s : Input => if s.reader.buffer = none then pure a else c s) s =
      .done a s := by
  refine (Program.bind_done rfl).trans ?_
  rw [if_pos none_]
  rfl

theorem onReader_refused (calls : List Call) (none_ : s.reader.buffer = none) :
    onReader fuel calls s = .done (calls.map Call.refused) s := by
  have first : ∀ call : Call, call.onReader fuel s = .done call.refused s := by
    intro call
    cases call with
    | readByte => exact Program.bind_done (refuses none_)
    | readBytes count => exact Program.bind_done (refuses none_)
    | readLine bufSize => exact Program.bind_done (refuses none_)
  induction calls with
  | nil => rfl
  | cons call calls ih =>
    exact (Program.bind_done (first call)).trans (Program.bind_done ih)

/-- A new reader holds all the kernel is going to deliver. -/
theorem holds_create {memory : List UInt8} {replies : List Reply} (positive : 0 < memory.length)
    (enough : replies.length < fuel) :
    Holds fuel (delivered replies) ⟨lcReaderCreate (some memory) memory.length, replies⟩ := by
  refine ⟨⟨⟨memory, rfl, rfl⟩, positive, Nat.zero_le _, Nat.zero_le _, nofun⟩, ?_, enough⟩
  simp [pending, lcReaderCreate]

/-- However the kernel delivers a stream, and however large the buffer is, the
calls return what they would return on the stream in one piece. Each consumes its
own part of it, in order, and what follows the end is never seen. A reader whose
buffer could not be allocated reports the end and asks for nothing. -/
theorem reading_is_independent_of_buffering (memory : List UInt8) (replies : List Reply)
    (calls : List Call) (fuel : Nat) (positive : 0 < memory.length)
    (enough : (delivered replies).length < fuel) (enough' : replies.length < fuel) :
    (∃ s, onReader fuel calls ⟨lcReaderCreate (some memory) memory.length, replies⟩ =
        .done (onStream calls (delivered replies)).1 s ∧
      (onStream calls (delivered replies)).2.1.length = calls.length ∧
      (onStream calls (delivered replies)).2.1.flatten ++ pending s = delivered replies ∧
      (lcReaderIsEnd s.reader = true → pending s = [])) ∧
    ∀ bufferSize, onReader fuel calls ⟨lcReaderCreate none bufferSize, replies⟩ =
      .done (calls.map Call.refused) ⟨lcReaderCreate none bufferSize, replies⟩ := by
  refine ⟨?_, fun bufferSize => onReader_refused calls rfl⟩
  obtain ⟨results, s, run, rfl, holds⟩ :=
    onReader_spec calls enough _ (holds_create positive enough')
  obtain ⟨count, all⟩ := onStream_consumes calls (delivered replies)
  refine ⟨s, run, count, ?_, fun ended => ?_⟩
  · rw [holds.pending]
    exact all
  · obtain ⟨buffer, some_, -⟩ := holds.valid.buffer
    simp only [lcReaderIsEnd, Bool.and_eq_true, decide_eq_true_eq] at ended
    simp only [pending, some_, if_pos ended.1, List.append_nil, List.drop_eq_nil_iff,
      List.length_take]
    exact Nat.le_trans (Nat.min_le_left _ _) ended.2

/-- Two interruptions, a buffer of two bytes, and an error before the last byte. -/
theorem reading_is_independent_of_buffering_interrupted :
    ∃ s, onReader 20 [.readLine 10, .readByte, .readBytes 5, .readByte]
        ⟨lcReaderCreate (some [0, 0]) 2, [.error 4, .data [104, 105, 10, 97], .error 4, .data [98],
          .error 5, .data [99]]⟩ =
      .done [.line 2 (some [104, 105, 0]), .byte 97, .bytes [98], .byte (-1)] s := by
  obtain ⟨⟨s, run, -⟩, -⟩ := reading_is_independent_of_buffering [0, 0]
    [.error 4, .data [104, 105, 10, 97], .error 4, .data [98], .error 5, .data [99]]
    [.readLine 10, .readByte, .readBytes 5, .readByte] 20 (by decide) (by decide) (by decide)
  exact ⟨s, run.trans (congrArg (Outcome.done · s) (by decide))⟩

end Lightc.Io
