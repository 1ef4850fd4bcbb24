import Lightc.Log.Lines
import Lightc.Machine.Atomic
import Lightc.Verification.Pieces
import Lightc.Verification.Transition

/-!
# What the log writes

Threads log through `lc_log`, `lc_log_string` and `lc_log_begin` … `lc_log_commit`,
while others change the level, the descriptor and the format. Every read of a setting,
every access to the lock and every completed write is a step of its own. A text line is
three writes under the lock and a JSON line is one; each of them reads `log_fd` for
itself, and the calls that change the settings do not take the lock.

Every byte is kept with the number of the line it belongs to, which is the number of
times the lock was taken before.
-/

namespace Lightc.Log

open Machine Io Lightc.Format Verification Function
open Verification.Pieces hiding Message

/-- What decides the text of a line besides the call. -/
inductive Shape
  | text
  | json (seconds : Int64)
  deriving DecidableEq, Repr

/-- A line, with what was written of it so far and where. -/
structure Line where
  shape : Shape
  level : Level
  tid : Int32
  message : Message
  pieces : List (Int32 × List UInt8)
  deriving DecidableEq

namespace Line

/-- The complete line. -/
def full (line : Line) : List UInt8 :=
  match line.shape with
  | .text => prefixText line.level line.tid ++ line.message.1 ++ [newline]
  | .json seconds => jsonText line.level line.tid seconds line.message.1

/-- What fits of the line into the buffer it is built in, which a text line does not need. -/
def bytes (line : Line) : List UInt8 :=
  match line.shape with
  | .text => line.full
  | .json _ => line.full.take 1023

def sent (line : Line) : Pieces.Message Int32 UInt8 := ⟨line.full, line.pieces⟩

def write (line : Line) (fd : Int32) (part : List UInt8) : Line :=
  { line with pieces := line.pieces ++ [(fd, part)] }

end Line

/-- The next shared access of a thread, with its local variables. -/
inductive Pc
  | outside
  /-- Before `lc_log` reads `log_min_level`. -/
  | log (level : Level) (message : Message)
  /-- Before `lc_log_string` reads `log_min_level`. -/
  | string (level : Level) (message : Message)
  /-- Between `lc_log_begin` and `lc_log_commit`. -/
  | building (entry : LogEntry)
  /-- Before `lc_log_commit` reads `log_min_level`. -/
  | commit (entry : LogEntry)
  /-- Before `write_log_line` reads `log_format`. -/
  | format (level : Level) (message : Message)
  /-- Before the exchange in `lc_spinlock_acquire`, with what is to be written. -/
  | acquire (line : Line) (parts : List (List UInt8))
  /-- It holds the lock for line `k`: before `log_fd` is read for the next write, or before
  the lock is released. -/
  | next (k : Nat) (parts : List (List UInt8))
  /-- Before `lc_kernel_write_all`. -/
  | write (k : Nat) (fd : Int32) (part : List UInt8) (parts : List (List UInt8))

structure State where
  minLevel : Level
  fd : Int32
  format : LogFormat
  lock : UInt32
  pc : Int32 → Pc
  /-- The lines for which the lock was taken. -/
  lines : List Line
  /-- The bytes each descriptor received. -/
  received : Int32 → List (Nat × UInt8)

namespace State

def goto (s : State) (t : Int32) (pc : Pc) : State := { s with pc := update s.pc t pc }

/-- The lock is taken. -/
def acquire (s : State) (t : Int32) (line : Line) (parts : List (List UInt8)) : State :=
  { s.goto t (.next s.lines.length parts) with lock := 1, lines := s.lines ++ [line] }

/-- `lc_kernel_write_all`. -/
def write (s : State) (t : Int32) (k : Nat) (fd : Int32) (part : List UInt8)
    (parts : List (List UInt8)) : State :=
  { s.goto t (.next k parts) with
    received := update s.received fd (s.received fd ++ tag k part)
    lines := s.lines.modify k fun line => line.write fd part }

/-- `lc_spinlock_release`. -/
def release (s : State) (t : Int32) : State := { s.goto t .outside with lock := 0 }

end State

/-- What a step finds that is not the log's: the clock, and the bytes of a buffer on the stack
before they are used. -/
structure Surroundings where
  seconds : Int64
  stack : List UInt8
  size : stack.length = 1024

/-- `write_log_line` and `write_json_line` up to the lock. -/
def writeLogLine (s : State) (t : Int32) (level : Level) (message : Message)
    (found : Surroundings) : Option State :=
  match s.format with
  | .json => (buildJson found.stack level t found.seconds message.1).map fun buf =>
    s.goto t (.acquire ⟨.json found.seconds, level, t, message, []⟩ [buf])
  | .text => (buildPrefix (found.stack.take 48) level t).map fun start =>
    s.goto t (.acquire ⟨.text, level, t, message, []⟩ [start, message.1, [newline]])

/-- One step of a log call. -/
def advance (s : State) (t : Int32) (found : Surroundings) : Option State :=
  match s.pc t with
  | .outside | .building _ => none
  | .log level message => some (s.goto t
      (if level.rank < s.minLevel.rank then .outside else .string level message.string))
  | .string level message => some (s.goto t
      (if level.rank < s.minLevel.rank then .outside else .format level message))
  | .commit entry =>
    if entry.level.rank < s.minLevel.rank then some (s.goto t .outside)
    else entry.message.map fun message => s.goto t (.format entry.level message)
  | .format level message => writeLogLine s t level message found
  | .acquire line parts =>
    let (old, new) := atomicExchange s.lock 1
    some (if old ≠ 0 then { s with lock := new } else s.acquire t line parts)
  | .next _ [] => some (s.release t)
  | .next k (part :: parts) => some (s.goto t (.write k s.fd part parts))
  | .write k fd part parts => some (s.write t k fd part parts)

/-- What threads do, one atomic step each. -/
inductive Event
  | log (t : Int32) (level : Level) (message : Message)
  | string (t : Int32) (level : Level) (message : Message)
  /-- `lc_log_begin`, with what the entry holds before. -/
  | start (t : Int32) (level : Level) (buffer : { bytes : List UInt8 // bytes.length = 512 })
  | add (t : Int32) (add : Add)
  | commit (t : Int32)
  | advance (t : Int32) (found : Surroundings)
  | setLevel (minLevel : Level)
  | setOutput (fd : Int32)
  | setFormat (format : LogFormat)

/-- A thread that is not in a call makes one. -/
def call (s : State) (t : Int32) (pc : Pc) : Option State :=
  match s.pc t with
  | .outside => some (s.goto t pc)
  | _ => none

def perform (s : State) : Event → Option State
  | .log t level message => call s t (.log level message)
  | .string t level message => call s t (.string level message)
  | .start t level buffer => call s t (.building (lcLogBegin s.minLevel level buffer))
  | .add t add =>
    match s.pc t with
    | .building entry => (entry.add add).map fun entry => s.goto t (.building entry)
    | _ => none
  | .commit t =>
    match s.pc t with
    | .building entry => some (s.goto t (.commit entry))
    | _ => none
  | .advance t found => advance s t found
  | .setLevel minLevel => some { s with minLevel := minLevel }
  | .setOutput fd => some { s with fd := fd }
  | .setFormat format => some { s with format := format }

/-- The state of `log.c` at the start of the process. -/
def initial : State where
  minLevel := .debug
  fd := 2
  format := .text
  lock := 0
  pc _ := .outside
  lines := []
  received _ := []

def system : System State where
  init s := s = initial
  step s s' := ∃ event, perform s event = some s'

variable {t : Int32}

@[simp] theorem State.goto_self (s : State) (t : Int32) (pc : Pc) : (s.goto t pc).pc t = pc :=
  update_self ..

theorem State.goto_other (s : State) {u : Int32} (pc : Pc) (other : u ≠ t) :
    (s.goto t pc).pc u = s.pc u :=
  update_of_ne other ..

/-- What a thread that holds the lock has still to write, and of which line. -/
def Pc.remaining : Pc → Option (Nat × List UInt8)
  | .next k parts => some (k, parts.flatten)
  | .write k _ part parts => some (k, part ++ parts.flatten)
  | _ => none

/-- A thread that wants the lock has the bytes of a new line. -/
def Pc.Ready : Pc → Prop
  | .acquire line parts => line.pieces = [] ∧ parts.flatten = line.bytes
  | _ => True

/-- Everything a step can do. -/
inductive Moves (s : State) : State → Prop
  | configure (minLevel : Level) (fd : Int32) (format : LogFormat) :
      Moves s { s with minLevel := minLevel, fd := fd, format := format }
  | outside (t : Int32) {pc : Pc} (before : (s.pc t).remaining = none)
      (after : pc.remaining = none) (ready : pc.Ready) : Moves s (s.goto t pc)
  | spin (held : s.lock ≠ 0) : Moves s { s with lock := 1 }
  | acquire (t : Int32) {line : Line} {parts : List (List UInt8)} (free : s.lock = 0)
      (at_ : s.pc t = .acquire line parts) : Moves s (s.acquire t line parts)
  | read (t : Int32) {k : Nat} {part : List UInt8} {parts : List (List UInt8)}
      (at_ : s.pc t = .next k (part :: parts)) : Moves s (s.goto t (.write k s.fd part parts))
  | write (t : Int32) {k : Nat} {fd : Int32} {part : List UInt8} {parts : List (List UInt8)}
      (at_ : s.pc t = .write k fd part parts) : Moves s (s.write t k fd part parts)
  | release (t : Int32) {k : Nat} (at_ : s.pc t = .next k []) : Moves s (s.release t)

/-- A line is built whole, or as much of it as fits. -/
theorem writeLogLine_eq (s : State) (t : Int32) (level : Level) (message : Message)
    (found : Surroundings) :
    ∃ line parts, writeLogLine s t level message found = some (s.goto t (.acquire line parts)) ∧
      line.pieces = [] ∧ parts.flatten = line.bytes := by
  unfold writeLogLine
  cases s.format with
  | json =>
    rw [buildJson_eq found.size]
    refine ⟨_, _, rfl, rfl, ?_⟩
    simp [Line.bytes, Line.full]
  | text =>
    rw [buildPrefix_eq (by rw [List.length_take, found.size]; rfl)]
    refine ⟨_, _, rfl, rfl, ?_⟩
    simp [Line.bytes, Line.full]

variable {s s' : State}

variable {pc : Pc}

/-- A log call never stores or reads outside its buffers. -/
theorem advance_isSome (s : State) (found : Surroundings) (outside : s.pc t ≠ .outside)
    (building : ∀ entry, s.pc t ≠ .building entry) : (advance s t found).isSome := by
  unfold advance
  split
  · next at_ => exact absurd at_ outside
  · next entry at_ => exact absurd at_ (building entry)
  · rfl
  · rfl
  · next entry _ =>
    split
    · rfl
    · rw [Option.isSome_map]
      exact entry.message_isSome
  · next level message _ =>
    obtain ⟨line, parts, built, -⟩ := writeLogLine_eq s t level message found
    rw [built]
    rfl
  all_goals rfl

/-- 600 quotation marks. -/
def quotes : Message := ⟨.replicate 600 34, by rw [List.length_replicate]; decide⟩

/-- They are escaped in a JSON line, and do not fit in. -/
theorem advance_isSome_escaped : 1023 < (jsonText .info 7 0 quotes.1).length ∧
    (advance ({ initial with format := .json }.goto 7 (.format .info quotes)) 7
      ⟨0, .replicate 1024 0, List.length_replicate⟩).isSome :=
  ⟨by decide +kernel, advance_isSome _ _ (by simp) (by simp)⟩

/-! ### One line at a time -/

/-- Who has the lock, and how far the lines have been written. -/
inductive Custody (s : State) : Prop
  | free (lock : s.lock = 0) (nobody : ∀ t, (s.pc t).remaining = none)
      (written : ∀ line ∈ s.lines, contents line.pieces = line.bytes)
  | held (t : Int32) (before : List Line) (line : Line) (rest : List UInt8) (lock : s.lock = 1)
      (lines : s.lines = before ++ [line]) (mine : (s.pc t).remaining = some (before.length, rest))
      (others : ∀ u, u ≠ t → (s.pc u).remaining = none)
      (written : ∀ line ∈ before, contents line.pieces = line.bytes)
      (partly : contents line.pieces ++ rest = line.bytes)

structure Inv (s : State) : Prop where
  ready : ∀ t, (s.pc t).Ready
  received : ∀ fd, s.received fd = arrived fd (s.lines.map Line.sent)
  custody : Custody s

theorem ready_goto (h : ∀ t, (s.pc t).Ready) (t : Int32) (ready : pc.Ready) (u : Int32) :
    ((s.goto t pc).pc u).Ready :=
  (forall_update_iff s.pc fun _ pc => pc.Ready).mpr ⟨ready, fun u _ => h u⟩ u

theorem remaining_goto (same : pc.remaining = (s.pc t).remaining) (u : Int32) :
    ((s.goto t pc).pc u).remaining = (s.pc u).remaining :=
  (forall_update_iff s.pc fun u pc => pc.remaining = (s.pc u).remaining).mpr
    ⟨same, fun _ _ => rfl⟩ u

/-- A step that changes neither the lock nor what anybody has to write. -/
theorem Custody.of_same (h : Custody s) (lock : s'.lock = s.lock) (lines : s'.lines = s.lines)
    (remaining : ∀ u, (s'.pc u).remaining = (s.pc u).remaining) : Custody s' := by
  cases h with
  | free free nobody written =>
    exact .free (lock.trans free) (fun t => (remaining t).trans (nobody t)) (lines ▸ written)
  | held t before line rest held eq mine others written partly =>
    exact .held t before line rest (lock.trans held) (lines.trans eq)
      ((remaining t).trans mine) (fun u other => (remaining u).trans (others u other)) written
      partly

/-- The holder of the lock is the one that is in a line. -/
theorem Custody.holder (h : Custody s) {k : Nat} {rest : List UInt8}
    (at_ : (s.pc t).remaining = some (k, rest)) :
    ∃ before line, s.lock = 1 ∧ s.lines = before ++ [line] ∧ k = before.length ∧
      (∀ u, u ≠ t → (s.pc u).remaining = none) ∧
      (∀ line ∈ before, contents line.pieces = line.bytes) ∧
      contents line.pieces ++ rest = line.bytes := by
  cases h with
  | free lock nobody written =>
    rw [nobody t] at at_
    cases at_
  | held t' before line rest' lock lines mine others written partly =>
    have same : t = t' := by
      by_contra other
      rw [others t other] at at_
      cases at_
    subst same
    cases mine.symm.trans at_
    exact ⟨before, line, lock, lines, rfl, others, written, partly⟩

theorem arrived_sent_snoc (c : Int32) (before : List Line) (line : Line) :
    arrived c ((before ++ [line]).map Line.sent) =
      arrived c (before.map Line.sent) ++ share c before.length line.pieces := by
  rw [List.map_append, List.map_singleton, arrived_snoc, List.length_map]
  rfl

theorem modify_last {α : Type} (before : List α) (a : α) (f : α → α) :
    (before ++ [a]).modify before.length f = before ++ [f a] := by
  induction before with
  | nil => rfl
  | cons b before ih => exact congrArg (b :: ·) ih

theorem Inv.move (h : Inv s) (moves : Moves s s') : Inv s' := by
  cases moves with
  | configure minLevel fd format =>
    exact ⟨h.ready, h.received, h.custody.of_same rfl rfl fun _ => rfl⟩
  | outside t before after ready =>
    exact ⟨ready_goto h.ready t ready, h.received,
      h.custody.of_same rfl rfl (remaining_goto (after.trans before.symm))⟩
  | spin held =>
    refine ⟨h.ready, h.received, h.custody.of_same ?_ rfl fun _ => rfl⟩
    cases h.custody with
    | free free => exact absurd free held
    | held _ _ _ _ lock => exact lock.symm
  | @acquire t line parts free at_ =>
    obtain ⟨fresh, whole⟩ : line.pieces = [] ∧ parts.flatten = line.bytes := by
      have ready := h.ready t
      rw [at_] at ready
      exact ready
    refine ⟨ready_goto h.ready t trivial, fun fd => ?_, ?_⟩
    · show s.received fd = arrived fd ((s.lines ++ [line]).map Line.sent)
      rw [arrived_sent_snoc, fresh, h.received fd]
      exact (List.append_nil _).symm
    · cases h.custody with
      | free _ nobody written =>
        refine .held t s.lines line parts.flatten rfl rfl ?_ (fun u other => ?_) written ?_
        · exact congrArg Pc.remaining (s.goto_self t _)
        · exact (congrArg Pc.remaining (s.goto_other _ other)).trans (nobody u)
        · rw [fresh]
          exact whole
      | held _ _ _ _ lock =>
        rw [free] at lock
        exact absurd lock (by decide)
  | @read t k part parts at_ =>
    refine ⟨ready_goto h.ready t trivial, h.received,
      h.custody.of_same rfl rfl (remaining_goto ?_)⟩
    rw [at_]
    rfl
  | @write t k fd part parts at_ =>
    obtain ⟨before, line, lock, lines, rfl, others, written, partly⟩ :=
      h.custody.holder (congrArg Pc.remaining at_)
    have lines' : (s.write t before.length fd part parts).lines =
        before ++ [line.write fd part] := by
      show s.lines.modify before.length _ = _
      rw [lines, modify_last]
    refine ⟨ready_goto h.ready t trivial, fun c => ?_, ?_⟩
    · have all := h.received c
      rw [lines, arrived_sent_snoc] at all
      rw [lines', arrived_sent_snoc, Line.write, share_snoc, ← List.append_assoc]
      by_cases same : fd = c
      · subst same
        rw [if_pos rfl, ← all]
        exact update_self ..
      · rw [if_neg same, List.append_nil]
        exact (update_of_ne (Ne.symm same) ..).trans all
    · refine .held t before (line.write fd part) parts.flatten lock lines' ?_ (fun u other => ?_)
        written ?_
      · exact congrArg Pc.remaining (s.goto_self t _)
      · exact (congrArg Pc.remaining (s.goto_other _ other)).trans (others u other)
      · show contents (line.pieces ++ [(fd, part)]) ++ parts.flatten = line.bytes
        rw [contents_snoc, List.append_assoc]
        exact partly
  | @release t k at_ =>
    obtain ⟨before, line, lock, lines, rfl, others, written, partly⟩ :=
      h.custody.holder (congrArg Pc.remaining at_)
    refine ⟨ready_goto h.ready t trivial, h.received, .free rfl ?_ ?_⟩
    · exact (forall_update_iff s.pc fun _ pc => pc.remaining = none).mpr ⟨rfl, others⟩
    · show ∀ l ∈ s.lines, contents l.pieces = l.bytes
      rw [lines]
      intro l member
      rcases List.mem_append.mp member with earlier | last
      · exact written l earlier
      · rw [List.mem_singleton.mp last]
        exact (List.append_nil _).symm.trans partly

theorem reachable_advance (t : Int32) (found : Surroundings) (reachable : system.Reachable s)
    (run : advance s t found = some s') : system.Reachable s' :=
  .step reachable ⟨.advance t found, run⟩

end Lightc.Log
