import Lightc.Io.Reader
import Lightc.Machine.Word
import Mathlib.Data.Nat.Digits.Lemmas

/-!
# Buffered writing

A writer collects bytes in its buffer and hands the whole buffer to the kernel when
it is full, when it is told to, and at its end. The kernel takes what it is given in
pieces of any size and may be interrupted in between. Numbers are rendered from
their last digit on, backwards into a scratch buffer, and put as strings.

Between two calls, what the kernel has taken and what is in the buffer are together
what was put, in order. Every access to the writer's buffer and to the scratch
buffers is checked, so that a call which comes back has stayed inside them.
-/

namespace Lightc.Io

open Verification Machine

/-- How the kernel answers a write: with an error, or by taking up to so many
bytes. -/
inductive WriteReply
  | error (errno : Nat)
  | accept (most : Nat)
  deriving DecidableEq, Repr

/-- `lc_writer`, with the contents of the buffer in place of its address. -/
structure Writer where
  buffer : Option (List UInt8)
  capacity : Nat
  used : Nat
  deriving DecidableEq, Repr

/-- A writer, the bytes the kernel has accepted, and its answers from now on. -/
structure Output where
  writer : Writer
  accepted : List UInt8
  replies : List WriteReply
  deriving DecidableEq, Repr

abbrev Writes := Program Empty Output

/-- `lc_writer_create`, with the memory `lc_heap_allocate` returned. -/
def lcWriterCreate (allocated : Option (List UInt8)) (bufferSize : Nat) : Writer :=
  ⟨allocated, if allocated.isSome then bufferSize else 0, 0⟩

/-- `SYS_write`. A kernel with no more particular answers takes everything. -/
def sysWrite (bytes : List UInt8) : Writes Int := fun s =>
  match s.replies with
  | [] => .done bytes.length { s with accepted := s.accepted ++ bytes }
  | .error errno :: rest => .done (-errno) { s with replies := rest }
  | .accept most :: rest =>
    .done (bytes.take most).length
      { s with accepted := s.accepted ++ bytes.take most, replies := rest }

/-- One round of the loop of `lc_kernel_write_all`. -/
def writeRound (bytes : List UInt8) (written : Nat) : Writes (Step Nat Int) :=
  if written < bytes.length then do
    let ret ← sysWrite (bytes.drop written)
    if ret < 0 then
      if ret = -errIntr then pure (.next written) else pure (.leave ret)
    else if ret = 0 then pure (.leave written)
    else pure (.next (written + ret.toNat))
  else pure (.leave written)

/-- `lc_kernel_write_all`. -/
def lcKernelWriteAll (fuel : Nat) (bytes : List UInt8) : Writes Int :=
  Program.loop (writeRound bytes) fuel 0

/-- The first `used` bytes of the buffer. -/
def bufferedBytes : Writes (List UInt8) := fun s =>
  match s.writer.buffer with
  | none => .fault
  | some buffer =>
    if s.writer.used ≤ buffer.length then .done (buffer.take s.writer.used) s else .fault

/-- `lc_writer_flush`. -/
def lcWriterFlush (fuel : Nat) : Writes Unit := do
  let s ← Program.get
  if s.writer.used = 0 then pure ()
  else
    let bytes ← bufferedBytes
    let _ ← lcKernelWriteAll fuel bytes
    Program.modify fun s => { s with writer := { s.writer with used := 0 } }

/-- `lc_writer_destroy`. -/
def lcWriterDestroy (fuel : Nat) : Writes Unit := do
  let s ← Program.get
  if s.writer.buffer = none then pure ()
  else
    lcWriterFlush fuel
    Program.modify fun s => { s with writer := ⟨none, 0, 0⟩ }

/-- Bytes are copied to `buffer + used` and `used` grows by their number. -/
def append (bytes : List UInt8) : Writes Unit := fun s =>
  match s.writer.buffer with
  | none => .fault
  | some buffer =>
    if s.writer.used + bytes.length ≤ buffer.length then
      .done () { s with writer := { s.writer with
        buffer := some (buffer.take s.writer.used ++ bytes ++
          buffer.drop (s.writer.used + bytes.length))
        used := s.writer.used + bytes.length } }
    else .fault

/-- The flush of `lc_writer_put_byte`. -/
def makeRoom (fuel : Nat) : Writes Unit := do
  let s ← Program.get
  if s.writer.capacity ≤ s.writer.used then lcWriterFlush fuel else pure ()

/-- `lc_writer_put_byte`. -/
def lcWriterPutByte (fuel : Nat) (byte : UInt8) : Writes Unit := do
  let s ← Program.get
  if s.writer.buffer = none then pure ()
  else
    makeRoom fuel
    append [byte]

/-- The space a round of `lc_writer_put_string` finds, after the flush of a full
buffer. -/
def findSpace (fuel : Nat) : Writes Nat := do
  let s ← Program.get
  let space := sub64 s.writer.capacity s.writer.used
  if space = 0 then
    lcWriterFlush fuel
    pure s.writer.capacity
  else pure space

/-- One round of the loop of `lc_writer_put_string`. -/
def putRound (fuel : Nat) (src : List UInt8) : Writes (Step (List UInt8) Unit) :=
  if 0 < src.length then do
    let space ← findSpace fuel
    let chunk := if src.length < space then src.length else space
    append (src.take chunk)
    pure (.next (src.drop chunk))
  else pure (.leave ())

/-- `lc_writer_put_string`. -/
def lcWriterPutString (fuel : Nat) (str : List UInt8) : Writes Unit := do
  let s ← Program.get
  if s.writer.buffer = none ∨ s.writer.capacity = 0 then pure ()
  else Program.loop (putRound fuel) fuel str

/-- `lc_writer_put_char`. -/
def lcWriterPutChar (fuel : Nat) (c : UInt8) : Writes Unit := lcWriterPutByte fuel c

/-- `lc_writer_put_line`. -/
def lcWriterPutLine (fuel : Nat) (str : List UInt8) : Writes Unit := do
  lcWriterPutString fuel str
  lcWriterPutChar fuel newline

/-- `lc_writer_put_newline`. -/
def lcWriterPutNewline (fuel : Nat) : Writes Unit := lcWriterPutChar fuel newline

/-- One round of a loop that renders a number backwards into a scratch buffer of
`size` bytes: `low` and `rest` split off the last digit. -/
def renderRound (size : Nat) (low rest : Nat → Nat) (digit : Nat → UInt8) :
    Nat × List UInt8 → Writes (Step (Nat × List UInt8) (List UInt8))
  | (value, digits) =>
    if 0 < value then do
      Program.guard (digits.length < size)
      pure (.next (rest value, digit (low value) :: digits))
    else pure (.leave digits)

/-- `'0' + (char)d`. -/
def decimalDigit (d : Nat) : UInt8 := 48 + .ofNat d

/-- `io_hex_digits[d]`, of the letters `0123456789abcdef`. -/
def hexDigit (d : Nat) : UInt8 :=
  [48, 49, 50, 51, 52, 53, 54, 55, 56, 57, 97, 98, 99, 100, 101, 102].getD d 0

/-- `lc_writer_put_unsigned`. -/
def lcWriterPutUnsigned (fuel : Nat) (value : UInt64) : Writes Unit :=
  if value.toNat = 0 then lcWriterPutChar fuel 48
  else do
    let digits ← Program.loop (renderRound 20 (· % 10) (· / 10) decimalDigit) fuel
      (value.toNat, [])
    lcWriterPutString fuel digits

/-- `lc_writer_put_signed`. -/
def lcWriterPutSigned (fuel : Nat) (value : Int64) : Writes Unit :=
  if value.toInt < 0 then do
    lcWriterPutChar fuel 45
    lcWriterPutUnsigned fuel (.ofNat (-(value.toInt + 1)).toNat + 1)
  else lcWriterPutUnsigned fuel (.ofNat value.toInt.toNat)

/-- `lc_writer_put_hex`. -/
def lcWriterPutHex (fuel : Nat) (value : UInt64) : Writes Unit :=
  if value.toNat = 0 then lcWriterPutString fuel [48, 120, 48]
  else do
    let digits ← Program.loop (renderRound 18 (· &&& 0xf) (· >>> 4) hexDigit) fuel
      (value.toNat, [])
    Program.guard (digits.length + 2 ≤ 18)
    lcWriterPutString fuel (48 :: 120 :: digits)

/-! ### What is put -/

/-- The digits of a number in some base, the first one first. -/
def numeral (base : Nat) (digit : Nat → UInt8) (n : Nat) : List UInt8 :=
  if n = 0 then [digit 0] else (Nat.digits base n).reverse.map digit

inductive Put
  | byte (b : UInt8)
  | char (c : UInt8)
  | string (str : List UInt8)
  | line (str : List UInt8)
  | unsigned (value : UInt64)
  | signed (value : Int64)
  | hex (value : UInt64)
  | newline
  | flush
  deriving DecidableEq, Repr

def Put.text : Put → List UInt8
  | .byte b => [b]
  | .char c => [c]
  | .string str => str
  | .line str => str ++ [Io.newline]
  | .unsigned value => numeral 10 decimalDigit value.toNat
  | .signed value =>
    if value.toInt < 0 then 45 :: numeral 10 decimalDigit value.toInt.natAbs
    else numeral 10 decimalDigit value.toInt.natAbs
  | .hex value => [48, 120] ++ numeral 16 hexDigit value.toNat
  | .newline => [Io.newline]
  | .flush => []

def Put.onWriter (fuel : Nat) : Put → Writes Unit
  | .byte b => lcWriterPutByte fuel b
  | .char c => lcWriterPutChar fuel c
  | .string str => lcWriterPutString fuel str
  | .line str => lcWriterPutLine fuel str
  | .unsigned value => lcWriterPutUnsigned fuel value
  | .signed value => lcWriterPutSigned fuel value
  | .hex value => lcWriterPutHex fuel value
  | .newline => lcWriterPutNewline fuel
  | .flush => lcWriterFlush fuel

def onWriter (fuel : Nat) : List Put → Writes Unit
  | [] => pure ()
  | put :: puts => do
    put.onWriter fuel
    onWriter fuel puts

/-- What the kernel has accepted and what the buffer still holds. -/
def emitted (s : Output) : List UInt8 :=
  s.accepted ++ (s.writer.buffer.getD []).take s.writer.used

/-- The kernel takes some of the bytes, or is interrupted. -/
def WriteReply.Accepts : WriteReply → Prop
  | .error errno => (-errno : Int) = -errIntr
  | .accept most => 0 < most

instance : ∀ r : WriteReply, Decidable r.Accepts
  | .error errno => inferInstanceAs (Decidable ((-errno : Int) = -errIntr))
  | .accept most => inferInstanceAs (Decidable (0 < most))

/-- A writer between two calls, when `text` has been put. The fuel covers the
kernel's answers and one flush of a full buffer. -/
structure Wrote (fuel : Nat) (text : List UInt8) (s : Output) : Prop where
  buffer : ∃ buffer, s.writer.buffer = some buffer ∧ buffer.length = s.writer.capacity
  positive : 0 < s.writer.capacity
  size : s.writer.capacity < 2 ^ 64
  used : s.writer.used ≤ s.writer.capacity
  emitted : emitted s = text
  accepting : ∀ r ∈ s.replies, r.Accepts
  enough : s.replies.length + s.writer.capacity < fuel

variable {fuel : Nat} {text : List UInt8} {s t : Output}

/-! ### Flushing -/

/-- A write under way: the kernel has taken the first `written` bytes. -/
structure Sent (bytes : List UInt8) (s : Output) (written : Nat) (t : Output) : Prop where
  writer : t.writer = s.writer
  accepted : t.accepted = s.accepted ++ bytes.take written
  within : written ≤ bytes.length
  accepting : ∀ r ∈ t.replies, r.Accepts
  fewer : t.replies.length ≤ s.replies.length

variable {bytes : List UInt8} {base : Nat}

/-- An accepting kernel is interrupted, which uses up an answer, or takes a piece
that is not empty. -/
theorem sysWrite_spec (some_ : 0 < bytes.length) (accepting : ∀ r ∈ s.replies, r.Accepts) :
    Total (fun t => t = s) (sysWrite bytes) fun ret t =>
      t.writer = s.writer ∧ (∀ r ∈ t.replies, r.Accepts) ∧
      ((ret = -errIntr ∧ t.accepted = s.accepted ∧ t.replies.length < s.replies.length) ∨
        ∃ k, 0 < k ∧ k ≤ bytes.length ∧ ret = (k : Int) ∧
          t.accepted = s.accepted ++ bytes.take k ∧ t.replies.length ≤ s.replies.length) := by
  rintro s rfl
  unfold sysWrite
  cases at_ : s.replies with
  | nil =>
    refine ⟨_, _, rfl, rfl, by simp, .inr ⟨bytes.length, some_, Nat.le_refl _, rfl, ?_, ?_⟩⟩
    · rw [List.take_length]
    · exact Nat.zero_le _
  | cons reply rest =>
    rw [at_] at accepting
    have later : ∀ r ∈ rest, r.Accepts := fun r mem => accepting r (List.mem_cons_of_mem _ mem)
    have now : reply.Accepts := accepting reply List.mem_cons_self
    cases reply with
    | error errno => exact ⟨_, _, rfl, rfl, later, .inl ⟨now, rfl, Nat.lt_succ_self _⟩⟩
    | accept most =>
      have taken : bytes.take most = bytes.take (bytes.take most).length := by
        rw [List.length_take]
        exact List.take_eq_take_min
      have positive : 0 < most := now
      refine ⟨_, _, rfl, rfl, later,
        .inr ⟨(bytes.take most).length, ?_, ?_, rfl, ?_, Nat.le_succ _⟩⟩
      · rw [List.length_take]
        omega
      · exact List.length_take_le' most bytes
      · rw [← taken]

theorem writeRound_spec (written : Nat) (t : Output) (sent : Sent bytes s written t) :
    Total (fun u => u = t) (writeRound bytes written) fun r u =>
      r.Falls (Sent bytes s · u) (fun written => u.replies.length + (bytes.length - written))
        (fun _ => Sent bytes s bytes.length u)
        (t.replies.length + (bytes.length - written)) := by
  have within := sent.within
  have fewer := sent.fewer
  refine Total.ite (fun more => ?_) fun all => .ret ?_
  · refine (sysWrite_spec (by rw [List.length_drop]; omega) sent.accepting).bind fun ret =>
      .entry fun u answered => ?_
    obtain ⟨same, accepting, ⟨rfl, accepted, used⟩ | ⟨k, positive, inside, rfl, accepted, used⟩⟩ :=
      answered
    · rw [if_pos (by decide), if_pos rfl]
      refine .ret ?_
      rintro u rfl
      refine ⟨⟨same.trans sent.writer, accepted.trans sent.accepted, within, accepting, ?_⟩, ?_⟩
      · omega
      · dsimp only
        omega
    · rw [List.length_drop] at inside
      rw [if_neg (by omega), if_neg (by omega)]
      refine .ret ?_
      rintro u rfl
      refine ⟨⟨same.trans sent.writer, ?_, ?_, accepting, by omega⟩, ?_⟩
      · rw [accepted, sent.accepted, List.append_assoc, Int.toNat_natCast, List.take_add]
      · omega
      · dsimp only
        omega
  · rintro t rfl
    have whole : written = bytes.length := by omega
    subst whole
    exact sent

/-- The loop of a write over an accepting kernel ends with everything taken. -/
theorem lcKernelWriteAll_spec (accepting : ∀ r ∈ s.replies, r.Accepts)
    (enough : s.replies.length + bytes.length < fuel) :
    Total (fun t => t = s) (lcKernelWriteAll fuel bytes) fun _ t =>
      Sent bytes s bytes.length t := by
  refine (Total.loop (Sent bytes s) (fun written t => t.replies.length + (bytes.length - written))
    writeRound_spec fuel 0).start ⟨⟨rfl, ?_, Nat.zero_le _, accepting, Nat.le_refl _⟩, enough⟩
  rw [List.take_zero, List.append_nil]

section

variable (wrote : Wrote fuel text s)
include wrote

theorem lcWriterFlush_spec :
    Total (fun t => t = s) (lcWriterFlush fuel) fun _ t =>
      Wrote fuel text t ∧ t.writer = { s.writer with used := 0 } := by
  obtain ⟨buffer, at_, length⟩ := wrote.buffer
  have used := wrote.used
  have enough := wrote.enough
  refine Total.get_bind ?_
  rintro s rfl
  refine Total.ite (fun empty => .ret ?_) fun _ => ?_
  · rintro s rfl
    exact ⟨wrote, by rw [← empty]⟩
  · have bytes : Total (fun t => t = s) bufferedBytes fun bytes t =>
        bytes = buffer.take s.writer.used ∧ t = s := by
      rintro s rfl
      unfold bufferedBytes
      simp only [at_]
      rw [if_pos (by omega)]
      exact ⟨_, _, rfl, rfl, rfl⟩
    refine bytes.bind fun bytes => .entry ?_
    rintro s ⟨rfl, rfl⟩
    have small : (buffer.take s.writer.used).length ≤ s.writer.capacity := by
      rw [List.length_take]
      omega
    refine (lcKernelWriteAll_spec wrote.accepting (by omega)).bind fun _ => .modify ?_
    intro t sent
    have fewer := sent.fewer
    have all : t.accepted = text := by
      rw [sent.accepted, List.take_length, ← wrote.emitted, emitted, at_, Option.getD_some]
    refine ⟨⟨⟨buffer, ?_, ?_⟩, ?_, ?_, Nat.zero_le _, ?_, sent.accepting, ?_⟩, ?_⟩
    · exact (congrArg Writer.buffer sent.writer).trans at_
    · exact length.trans (congrArg Writer.capacity sent.writer).symm
    · simpa only [sent.writer] using wrote.positive
    · simpa only [sent.writer] using wrote.size
    · simpa [emitted] using all
    · simp only [sent.writer]
      omega
    · simp only [sent.writer]

/-- With nothing in the buffer, the kernel has everything. -/
theorem Wrote.accepted (empty : s.writer.used = 0) : s.accepted = text := by
  rw [← wrote.emitted, Io.emitted, empty, List.take_zero, List.append_nil]

theorem lcWriterDestroy_spec :
    Total (fun t => t = s) (lcWriterDestroy fuel) fun _ t =>
      t.accepted = text ∧ t.writer = ⟨none, 0, 0⟩ := by
  obtain ⟨buffer, at_, -⟩ := wrote.buffer
  refine Total.get_bind ?_
  rintro s rfl
  refine Total.ite (fun none_ => absurd (at_.symm.trans none_) nofun) fun _ => ?_
  refine (lcWriterFlush_spec wrote).bind fun _ => .modify ?_
  rintro t ⟨wrote', empty⟩
  exact ⟨wrote'.accepted (by rw [empty]), rfl⟩

/-! ### Bytes and strings -/

theorem append_spec (room : s.writer.used + bytes.length ≤ s.writer.capacity) :
    Total (fun t => t = s) (append bytes) fun _ t => Wrote fuel (text ++ bytes) t := by
  rintro s rfl
  obtain ⟨buffer, at_, length⟩ := wrote.buffer
  have used := wrote.used
  unfold append
  simp only [at_]
  rw [if_pos (by omega)]
  refine ⟨_, _, rfl, ⟨_, rfl, ?_⟩, wrote.positive, wrote.size, room, ?_, wrote.accepting,
    wrote.enough⟩
  · simp only [List.length_append, List.length_take, List.length_drop]
    omega
  · have front : (buffer.take s.writer.used ++ bytes).length = s.writer.used + bytes.length := by
      rw [List.length_append, List.length_take]
      omega
    simp only [emitted, Option.getD_some]
    rw [← front, List.take_left, ← wrote.emitted, emitted, at_, Option.getD_some,
      List.append_assoc]

omit wrote in
theorem lcWriterPutByte_spec (byte : UInt8) (wrote : Wrote fuel text s) :
    Total (fun t => t = s) (lcWriterPutByte fuel byte) fun _ t =>
      Wrote fuel (text ++ [byte]) t := by
  obtain ⟨buffer, at_, -⟩ := wrote.buffer
  refine Total.get_bind ?_
  rintro s rfl
  refine Total.ite (fun none_ => absurd (at_.symm.trans none_) nofun) fun _ => ?_
  have room : Total (fun t => t = s) (makeRoom fuel) fun _ t =>
      Wrote fuel text t ∧ t.writer.used < t.writer.capacity := by
    refine Total.get_bind ?_
    rintro s rfl
    refine Total.ite (fun _ => ?_) fun space => .ret ?_
    · refine (lcWriterFlush_spec wrote).consequence (fun _ => id) ?_
      rintro _ t ⟨wrote', flushed⟩
      exact ⟨wrote', by simpa only [flushed] using wrote.positive⟩
    · rintro s rfl
      exact ⟨wrote, by omega⟩
  exact room.bind fun _ => .entry fun t ⟨wrote', space⟩ => append_spec wrote' space

/-- The space found is there, and it is not empty. -/
theorem findSpace_spec :
    Total (fun t => t = s) (findSpace fuel) fun space t =>
      Wrote fuel text t ∧ 0 < space ∧ t.writer.used + space ≤ t.writer.capacity := by
  have used := wrote.used
  have left := sub64_of_le wrote.size used
  refine Total.get_bind ?_
  rintro s rfl
  refine Total.ite (fun _ => ?_) fun space => .ret ?_
  · refine (lcWriterFlush_spec wrote).bind fun _ => .ret ?_
    rintro t ⟨wrote', flushed⟩
    refine ⟨wrote', wrote.positive, ?_⟩
    simp only [flushed]
    omega
  · rintro s rfl
    exact ⟨wrote, by omega, by omega⟩

end

/-- A string under way: what was put and what is left of it make up the string. -/
def Putting (fuel : Nat) (text str src : List UInt8) (s : Output) : Prop :=
  ∃ done, str = done ++ src ∧ Wrote fuel (text ++ done) s

theorem putRound_spec {str : List UInt8} (src : List UInt8) (s : Output)
    (putting : Putting fuel text str src s) :
    Total (fun t => t = s) (putRound fuel src) fun r t =>
      r.Falls (Putting fuel text str · t) List.length (fun _ => Wrote fuel (text ++ str) t)
        src.length := by
  obtain ⟨done, rfl, wrote⟩ := putting
  refine Total.ite (fun more => ?_) fun none_ => .ret ?_
  · refine (findSpace_spec wrote).bind fun space => .entry fun t ⟨wrote', positive, free⟩ => ?_
    dsimp only
    generalize hk : (if src.length < space then src.length else space) = k
    have chunk : 0 < k ∧ k ≤ src.length ∧ k ≤ space := by
      split at hk <;> omega
    have length : (src.take k).length = k := List.length_take_of_le chunk.2.1
    refine (append_spec wrote' (by omega)).bind fun _ => .ret fun u wrote'' => ?_
    refine ⟨⟨done ++ src.take k, ?_, ?_⟩, ?_⟩
    · rw [List.append_assoc, List.take_append_drop]
    · rw [← List.append_assoc]
      exact wrote''
    · rw [List.length_drop]
      omega
  · rintro s rfl
    have nothing : src = [] := List.eq_nil_of_length_eq_zero (by omega)
    subst nothing
    rw [List.append_nil]
    exact wrote

theorem lcWriterPutString_spec {str : List UInt8} (wrote : Wrote fuel text s)
    (enough : str.length < fuel) :
    Total (fun t => t = s) (lcWriterPutString fuel str) fun _ t =>
      Wrote fuel (text ++ str) t := by
  obtain ⟨buffer, at_, -⟩ := wrote.buffer
  have positive := wrote.positive
  refine Total.get_bind ?_
  rintro s rfl
  refine Total.ite (fun refused => ?_) fun _ => ?_
  · rcases refused with none_ | none_
    · exact absurd (at_.symm.trans none_) nofun
    · omega
  · refine (Total.loop (Putting fuel text str) (fun src _ => src.length) putRound_spec fuel
      str).start ⟨⟨[], rfl, ?_⟩, enough⟩
    rw [List.append_nil]
    exact wrote

/-! ### Numbers -/

/-- A number under way: its remaining digits come before those in the scratch
buffer, and there is space for them. -/
def Rendering (base size : Nat) (digit : Nat → UInt8) (all : List UInt8)
    (b : Nat × List UInt8) : Prop :=
  (Nat.digits base b.1).reverse.map digit ++ b.2 = all ∧
    (Nat.digits base b.1).length + b.2.length ≤ size

/-- A loop that splits off the last digit renders the number, inside its buffer. -/
theorem render_spec {size value : Nat} {low rest : Nat → Nat} {digit : Nat → UInt8} (two : 1 < base)
    (low_eq : ∀ v, low v = v % base) (rest_eq : ∀ v, rest v = v / base)
    (fits : (Nat.digits base value).length ≤ size) (enough : size < fuel) :
    Total (fun t => t = s) (Program.loop (renderRound size low rest digit) fuel (value, []))
      fun digits t => digits = (Nat.digits base value).reverse.map digit ∧ t = s := by
  have round : ∀ b t, (Rendering base size digit ((Nat.digits base value).reverse.map digit) b ∧
      t = s) → Total (fun u => u = t) (renderRound size low rest digit b) fun r u =>
        r.Falls (fun b => Rendering base size digit ((Nat.digits base value).reverse.map digit) b ∧
          u = s) (fun b => (Nat.digits base b.1).length)
          (fun digits => digits = (Nat.digits base value).reverse.map digit ∧ u = s)
          (Nat.digits base b.1).length := by
    rintro ⟨v, digits⟩ t ⟨⟨all, room⟩, rfl⟩
    refine Total.ite (fun positive => ?_) fun zero => .ret ?_
    · have split := Nat.digits_def' two positive
      rw [split] at all room ⊢
      rw [List.length_cons] at room
      dsimp only at room
      have inside : digits.length < size := by omega
      refine Total.guard_bind inside (.ret ?_)
      rintro t rfl
      refine ⟨⟨⟨?_, ?_⟩, rfl⟩, ?_⟩
      · rw [rest_eq, low_eq, ← all]
        simp
      · rw [rest_eq, List.length_cons]
        dsimp only
        omega
      · dsimp only
        rw [rest_eq, List.length_cons]
        exact Nat.lt_succ_self _
    · rintro t rfl
      have none_ : v = 0 := Nat.eq_zero_of_not_pos zero
      subst none_
      exact ⟨by simpa using all, rfl⟩
  exact (Total.loop _ (fun b _ => (Nat.digits base b.1).length) round fuel (value, [])).start
    ⟨⟨⟨by rw [List.append_nil], by simpa using fits⟩, rfl⟩, by dsimp only; omega⟩

/-- A 64-bit number has at most as many digits as the greatest one. -/
theorem digits_length_le {k : Nat} (two : 1 < base) (large : 2 ^ 64 ≤ base ^ k) (value : UInt64) :
    (Nat.digits base value.toNat).length ≤ k :=
  (Nat.digits_length_le_iff two _).mpr (Nat.lt_of_lt_of_le value.toNat_lt large)

theorem and_nibble (v : Nat) : v &&& 0xf = v % 16 := Nat.and_two_pow_sub_one_eq_mod v 4

theorem shiftRight_nibble (v : Nat) : v >>> 4 = v / 16 := Nat.shiftRight_eq_div_pow v 4

/-- The decimal digits of any value fit into the buffer of 20 bytes. -/
theorem renderDecimal_spec (value : UInt64) (some_ : value.toNat ≠ 0) (enough : 20 < fuel) :
    Total (fun t => t = s)
      (Program.loop (renderRound 20 (· % 10) (· / 10) decimalDigit) fuel (value.toNat, []))
      fun digits t => (digits = numeral 10 decimalDigit value.toNat ∧ digits.length ≤ 20) ∧
        t = s := by
  have fits := digits_length_le (by decide) (by decide : 2 ^ 64 ≤ 10 ^ 20) value
  rw [numeral, if_neg some_]
  refine (render_spec (by decide) (fun _ => rfl) (fun _ => rfl) fits enough).consequence
    (fun _ => id) ?_
  rintro digits t ⟨rfl, rfl⟩
  exact ⟨⟨rfl, by rwa [List.length_map, List.length_reverse]⟩, rfl⟩

/-- The hexadecimal digits of any value and the `0x` fit into the buffer of 18. -/
theorem renderHex_spec (value : UInt64) (some_ : value.toNat ≠ 0) (enough : 20 < fuel) :
    Total (fun t => t = s)
      (Program.loop (renderRound 18 (· &&& 0xf) (· >>> 4) hexDigit) fuel (value.toNat, []))
      fun digits t => (digits = numeral 16 hexDigit value.toNat ∧ digits.length + 2 ≤ 18) ∧
        t = s := by
  have fits := digits_length_le (by decide) (by decide : 2 ^ 64 ≤ 16 ^ 16) value
  rw [numeral, if_neg some_]
  refine (render_spec (by decide) and_nibble shiftRight_nibble (by omega) (by omega)).consequence
    (fun _ => id) ?_
  rintro digits t ⟨rfl, rfl⟩
  refine ⟨⟨rfl, ?_⟩, rfl⟩
  rw [List.length_map, List.length_reverse]
  omega

theorem numeral_zero {digit : Nat → UInt8} {n : Nat} (zero : n = 0) :
    numeral base digit n = [digit 0] := if_pos zero

theorem lcWriterPutUnsigned_spec (value : UInt64) (wrote : Wrote fuel text s)
    (enough : 20 < fuel) :
    Total (fun t => t = s) (lcWriterPutUnsigned fuel value) fun _ t =>
      Wrote fuel (text ++ numeral 10 decimalDigit value.toNat) t := by
  refine Total.ite (fun zero => ?_) fun some_ => ?_
  · rw [numeral_zero zero]
    exact lcWriterPutByte_spec 48 wrote
  · refine (renderDecimal_spec value some_ enough).bind fun digits => .entry ?_
    rintro s ⟨⟨rfl, length⟩, rfl⟩
    exact lcWriterPutString_spec wrote (Nat.lt_of_le_of_lt length enough)

theorem lcWriterPutHex_spec (value : UInt64) (wrote : Wrote fuel text s) (enough : 20 < fuel) :
    Total (fun t => t = s) (lcWriterPutHex fuel value) fun _ t =>
      Wrote fuel (text ++ ([48, 120] ++ numeral 16 hexDigit value.toNat)) t := by
  refine Total.ite (fun zero => ?_) fun some_ => ?_
  · rw [numeral_zero zero]
    exact lcWriterPutString_spec wrote (Nat.lt_trans (by decide) enough)
  · refine (renderHex_spec value some_ enough).bind fun digits => .entry ?_
    rintro s ⟨⟨rfl, length⟩, rfl⟩
    refine Total.guard_bind length (lcWriterPutString_spec wrote ?_)
    rw [List.length_cons, List.length_cons]
    omega

/-- The magnitude of a negative number, reached without overflow. -/
theorem magnitude_of_neg {value : Int64} (negative : value.toInt < 0) :
    (UInt64.ofNat (-(value.toInt + 1)).toNat + 1).toNat = value.toInt.natAbs := by
  have least := value.le_toInt
  rw [UInt64.toNat_add, UInt64.toNat_ofNat']
  have one : (1 : UInt64).toNat = 1 := rfl
  omega

theorem magnitude_of_nonneg {value : Int64} (nonneg : ¬ value.toInt < 0) :
    (UInt64.ofNat value.toInt.toNat).toNat = value.toInt.natAbs := by
  have greatest := value.toInt_lt
  rw [UInt64.toNat_ofNat']
  omega

theorem lcWriterPutSigned_spec (value : Int64) (wrote : Wrote fuel text s) (enough : 20 < fuel) :
    Total (fun t => t = s) (lcWriterPutSigned fuel value) fun _ t =>
      Wrote fuel (text ++ (Put.signed value).text) t := by
  rw [Put.text]
  refine Total.ite (fun negative => ?_) fun nonneg => ?_
  · rw [if_pos negative, ← magnitude_of_neg negative]
    refine (lcWriterPutByte_spec 45 wrote).bind fun _ => .entry fun t wrote' => ?_
    have put := lcWriterPutUnsigned_spec (.ofNat (-(value.toInt + 1)).toNat + 1) wrote' enough
    rw [List.append_assoc] at put
    exact put
  · rw [if_neg nonneg, ← magnitude_of_nonneg nonneg]
    exact lcWriterPutUnsigned_spec _ wrote enough

/-! ### Runs -/

theorem Put.onWriter_spec (put : Put) (wrote : Wrote fuel text s) (digits : 20 < fuel)
    (enough : put.text.length < fuel) :
    Total (fun t => t = s) (put.onWriter fuel) fun _ t => Wrote fuel (text ++ put.text) t := by
  cases put with
  | byte b => exact lcWriterPutByte_spec b wrote
  | char c => exact lcWriterPutByte_spec c wrote
  | string str => exact lcWriterPutString_spec wrote enough
  | line str =>
    have shorter : str.length < fuel := by
      simp only [Put.text, List.length_append] at enough
      omega
    refine (lcWriterPutString_spec wrote shorter).bind fun _ => .entry fun t wrote' => ?_
    have put := lcWriterPutByte_spec Io.newline wrote'
    rw [List.append_assoc] at put
    exact put
  | unsigned value => exact lcWriterPutUnsigned_spec value wrote digits
  | signed value => exact lcWriterPutSigned_spec value wrote digits
  | hex value => exact lcWriterPutHex_spec value wrote digits
  | newline => exact lcWriterPutByte_spec Io.newline wrote
  | flush =>
    refine (lcWriterFlush_spec wrote).consequence (fun _ => id) fun _ t flushed => ?_
    rw [Put.text, List.append_nil]
    exact flushed.1

theorem onWriter_spec (puts : List Put) (wrote : Wrote fuel text s) (digits : 20 < fuel)
    (enough : ∀ put ∈ puts, put.text.length < fuel) :
    Total (fun t => t = s) (onWriter fuel puts) fun _ t =>
      Wrote fuel (text ++ puts.flatMap Put.text) t := by
  induction puts generalizing text s with
  | nil =>
    refine .ret ?_
    rintro s rfl
    rw [List.flatMap_nil, List.append_nil]
    exact wrote
  | cons put puts ih =>
    refine (put.onWriter_spec wrote digits (enough put List.mem_cons_self)).bind fun _ =>
      .entry fun t wrote' => ?_
    have rest := ih wrote' fun put mem => enough put (List.mem_cons_of_mem _ mem)
    rw [List.append_assoc, ← List.flatMap_cons] at rest
    exact rest

theorem wrote_create {memory : List UInt8} {replies : List WriteReply}
    (positive : 0 < memory.length) (size : memory.length < 2 ^ 64)
    (accepting : ∀ r ∈ replies, r.Accepts) (enough : replies.length + memory.length < fuel) :
    Wrote fuel [] ⟨lcWriterCreate (some memory) memory.length, [], replies⟩ :=
  ⟨⟨memory, rfl, rfl⟩, positive, size, Nat.zero_le _, rfl, accepting, enough⟩

/-- However the kernel cuts up the writes, after any calls it has accepted, with what
is in the buffer, exactly what was put. A flush or the end of the writer then
leaves all of it with the kernel. -/
theorem writing_emits_what_was_put (memory : List UInt8) (replies : List WriteReply)
    (puts : List Put) (fuel : Nat) (positive : 0 < memory.length) (size : memory.length < 2 ^ 64)
    (accepting : ∀ r ∈ replies, r.Accepts) (digits : 20 < fuel)
    (enough : ∀ put ∈ puts, put.text.length < fuel)
    (enough' : replies.length + memory.length < fuel) :
    ∃ s, onWriter fuel puts ⟨lcWriterCreate (some memory) memory.length, [], replies⟩ =
        .done () s ∧
      s.writer.used ≤ s.writer.capacity ∧ emitted s = puts.flatMap Put.text ∧
      (∃ t, lcWriterFlush fuel s = .done () t ∧ t.accepted = puts.flatMap Put.text ∧
        t.writer = { s.writer with used := 0 }) ∧
      ∃ t, lcWriterDestroy fuel s = .done () t ∧ t.accepted = puts.flatMap Put.text ∧
        t.writer = ⟨none, 0, 0⟩ := by
  obtain ⟨_, s, run, wrote⟩ :=
    onWriter_spec puts (wrote_create positive size accepting enough') digits enough _ rfl
  rw [List.nil_append] at wrote
  obtain ⟨_, t, flush, wrote', flushed⟩ := lcWriterFlush_spec wrote s rfl
  obtain ⟨_, u, destroy, accepted, gone⟩ := lcWriterDestroy_spec wrote s rfl
  exact ⟨s, run, wrote.used, wrote.emitted,
    ⟨t, flush, wrote'.accepted (by rw [flushed]), flushed⟩, u, destroy, accepted, gone⟩

/-- A buffer of three bytes, an interruption and a write cut short, with the least
signed number among what is put. -/
theorem writing_emits_what_was_put_signed :
    ∃ s t, onWriter 64 [.signed (-9223372036854775808), .newline, .hex 255]
        ⟨lcWriterCreate (some [0, 0, 0]) 3, [], [.error 4, .accept 1, .accept 7]⟩ = .done () s ∧
      lcWriterDestroy 64 s = .done () t ∧
      t.accepted = [45, 57, 50, 50, 51, 51, 55, 50, 48, 51, 54, 56, 53, 52, 55, 55, 53, 56, 48, 56,
        10, 48, 120, 102, 102] := by
  obtain ⟨s, run, -, -, -, t, destroyed, accepted, -⟩ := writing_emits_what_was_put [0, 0, 0]
    [.error 4, .accept 1, .accept 7] [.signed (-9223372036854775808), .newline, .hex 255] 64
    (by decide) (by decide) (by decide) (by decide) (by decide) (by decide)
  exact ⟨s, t, run, destroyed, accepted.trans (by decide)⟩

end Lightc.Io
