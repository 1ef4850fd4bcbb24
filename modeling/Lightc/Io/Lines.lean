import Lightc.Io.Reader

/-!
# Reading a stream line by line

A stream is a sequence of lines, each with its newline except perhaps the last. Calls of
`lc_reader_read_line` consume them one after the other, whatever room the caller gives them.
What a call returns is the part of its line that fits, and -1 behind the last line, except
that a caller with room for the terminator only is told of an empty line there: no byte is
asked for before the loop that looks for the end of the stream.
-/

namespace Lightc.Io

open Verification

variable {stream : List UInt8} {sizes : List Nat} {fuel : Nat}

/-- The lines of a stream, with their newlines. -/
def streamLines : List UInt8 → List (List UInt8)
  | [] => []
  | byte :: rest =>
    if byte = newline then [byte] :: streamLines rest
    else match streamLines rest with
      | [] => [[byte]]
      | line :: others => (byte :: line) :: others

/-- A line without its newline. -/
def lineText (line : List UInt8) : List UInt8 := line.takeWhile (· ≠ newline)

/-- What a call that consumes the line, or finds none, returns and writes to a buffer of
`size` bytes. -/
def LineResult (size : Nat) : Option (List UInt8) → Result → Prop
  | some line, result => result = .line (min (lineText line).length (size - 1) : Nat)
      (some ((lineText line).take (size - 1) ++ [0]))
  | none, result => ∃ written, result = .line (-1) written

/-! ### The lines of a stream -/

@[simp]
theorem flatten_streamLines (stream : List UInt8) : (streamLines stream).flatten = stream := by
  induction stream with
  | nil => rfl
  | cons byte rest ih =>
    rw [streamLines]
    split
    · rw [List.flatten_cons, ih]
      rfl
    · cases lines : streamLines rest with
      | nil =>
        rw [lines] at ih
        rw [← ih]
        rfl
      | cons line others =>
        rw [lines] at ih
        rw [← ih]
        rfl

/-- The first line, and the lines of the rest. -/
theorem streamLines_eq (some_ : stream ≠ []) :
    streamLines stream = (stream.takeWhile (· ≠ newline) ++
      (stream.dropWhile (· ≠ newline)).take 1) :: streamLines (afterLine stream) := by
  induction stream with
  | nil => exact absurd rfl some_
  | cons byte rest ih =>
    rw [streamLines, afterLine_cons]
    by_cases found : byte = newline
    · rw [if_pos found, if_pos found]
      simp [found]
    · rw [if_neg found, if_neg found]
      cases rest with
      | nil => simp [streamLines, found]
      | cons next rest =>
        rw [ih (List.cons_ne_nil _ _)]
        simp [found]

@[simp] theorem streamLines_afterLine (stream : List UInt8) :
    streamLines (afterLine stream) = (streamLines stream).tail := by
  cases stream with
  | nil => rfl
  | cons byte rest => rw [streamLines_eq (List.cons_ne_nil byte rest), List.tail_cons]

/-- What is left after some lines. -/
def afterLines (k : Nat) (stream : List UInt8) : List UInt8 := afterLine^[k] stream

@[simp] theorem streamLines_afterLines (k : Nat) (stream : List UInt8) :
    streamLines (afterLines k stream) = (streamLines stream).drop k := by
  induction k generalizing stream with
  | zero => rfl
  | succ k ih =>
    rw [afterLines, Function.iterate_succ_apply, ← afterLines, ih, streamLines_afterLine,
      List.drop_tail]

theorem afterLines_eq_flatten (k : Nat) (stream : List UInt8) :
    afterLines k stream = ((streamLines stream).drop k).flatten := by
  rw [← streamLines_afterLines, flatten_streamLines]

/-! ### The calls -/

theorem lineOnStream_rest {size : Nat} (positive : 1 ≤ size) (stream : List UInt8) :
    (lineOnStream size stream).rest = afterLine stream := by
  unfold lineOnStream
  rw [if_neg (by omega)]
  split
  · next nothing =>
    rw [nothing.1]
    rfl
  · rfl

/-- After any number of calls the same number of lines is gone. -/
theorem onStream_rest (positive : ∀ size ∈ sizes, 1 ≤ size) (stream : List UInt8) :
    (onStream (sizes.map .readLine) stream).2.2 = afterLines sizes.length stream := by
  induction sizes generalizing stream with
  | nil => rfl
  | cons size sizes ih =>
    rw [List.map_cons, onStream, List.length_cons, afterLines, Function.iterate_succ_apply,
      ← afterLines]
    dsimp only
    rw [ih fun other member => positive other (List.mem_cons_of_mem _ member)]
    exact congrArg _ (lineOnStream_rest (positive size List.mem_cons_self) stream)

/-- Each call acts on what the calls before it have left. -/
theorem onStream_result (positive : ∀ size ∈ sizes, 1 ≤ size) (stream : List UInt8) (k : Nat) :
    (onStream (sizes.map .readLine) stream).1[k]? =
      sizes[k]?.map fun size => (lineOnStream size (afterLines k stream)).result := by
  induction sizes generalizing stream k with
  | nil => rfl
  | cons size sizes ih =>
    rw [List.map_cons, onStream]
    dsimp only
    cases k with
    | zero => rfl
    | succ k =>
      have left_ : (Call.onStream (.readLine size) stream).rest = afterLine stream :=
        lineOnStream_rest (positive size List.mem_cons_self) stream
      rw [List.getElem?_cons_succ, List.getElem?_cons_succ, left_,
        ih fun other member => positive other (List.mem_cons_of_mem _ member)]
      rfl

theorem lineText_first (stream : List UInt8) :
    lineText (stream.takeWhile (· ≠ newline) ++ (stream.dropWhile (· ≠ newline)).take 1) =
      stream.takeWhile (· ≠ newline) := by
  induction stream with
  | nil => rfl
  | cons byte rest ih =>
    unfold lineText at ih ⊢
    by_cases found : byte = newline
    · simp [found]
    · simpa [found] using ih

/-- One call is right unless it has no room and finds no line. -/
theorem lineResult_iff {size : Nat} (positive : 1 ≤ size) (stream : List UInt8) :
    LineResult size (streamLines stream).head? (lineOnStream size stream).result ↔
      (size = 1 → stream ≠ []) := by
  by_cases nothing : stream = []
  · subst nothing
    by_cases one : size = 1
    · subst one
      refine iff_of_false ?_ fun found => found rfl rfl
      rintro ⟨written, minus⟩
      injection minus with zero
      exact absurd zero (by decide)
    · refine iff_of_true ⟨some [0], ?_⟩ fun same => absurd same one
      rw [lineOnStream, if_neg (by omega), if_pos ⟨rfl, by omega⟩]
  · refine iff_of_true ?_ fun _ => nothing
    rw [streamLines_eq nothing, List.head?_cons, LineResult, lineText_first, lineOnStream,
      if_neg (by omega), if_neg fun empty => nothing empty.1]
    dsimp only
    rw [List.length_take, Nat.min_comm]

theorem afterLines_ne_nil_iff (k : Nat) (stream : List UInt8) :
    afterLines k stream ≠ [] ↔ k < (streamLines stream).length := by
  constructor
  · intro some_
    by_contra beyond
    rw [afterLines_eq_flatten, List.drop_eq_nil_iff.mpr (Nat.le_of_not_lt beyond)] at some_
    exact some_ rfl
  · intro inside nothing
    have lines := streamLines_afterLines k stream
    rw [nothing, streamLines, eq_comm, List.drop_eq_nil_iff] at lines
    omega

/-- The results of the first calls are the first results. -/
theorem onStream_take (positive : ∀ size ∈ sizes, 1 ≤ size) (stream : List UInt8) (k : Nat) :
    (onStream ((sizes.take k).map .readLine) stream).1 =
      (onStream (sizes.map .readLine) stream).1.take k := by
  apply List.ext_getElem?
  intro i
  rw [onStream_result fun size member => positive size (List.mem_of_mem_take member),
    List.getElem?_take, List.getElem?_take, onStream_result positive]
  split
  · rfl
  · rfl

/-- However the kernel delivers a stream, and however large the buffer is: after `k` calls
the first `k` lines are consumed, and each call returns its own line as far as it fits and -1
behind the last, exactly if no call with room for the terminator only comes behind the last. -/
theorem read_line_returns_lines_iff (memory : List UInt8) (replies : List Reply)
    (sizes : List Nat) (fuel : Nat) (positive : 0 < memory.length)
    (sized : ∀ size ∈ sizes, 1 ≤ size) (enough : (delivered replies).length < fuel)
    (enough' : replies.length < fuel) :
    (∃ results : List Result,
      (∀ k ≤ sizes.length, ∃ s, onReader fuel ((sizes.take k).map .readLine)
          ⟨lcReaderCreate (some memory) memory.length, replies⟩ = .done (results.take k) s ∧
        pending s = ((streamLines (delivered replies)).drop k).flatten) ∧
      ∀ (k size : Nat), sizes[k]? = some size → ∃ result, results[k]? = some result ∧
        LineResult size (streamLines (delivered replies))[k]? result) ↔
    ∀ k : Nat, sizes[k]? = some 1 → k < (streamLines (delivered replies)).length := by
  have runs : ∀ k, ∃ s, onReader fuel ((sizes.take k).map .readLine)
      ⟨lcReaderCreate (some memory) memory.length, replies⟩ =
        .done ((onStream (sizes.map .readLine) (delivered replies)).1.take k) s ∧
      pending s = afterLines (sizes.take k).length (delivered replies) := by
    intro k
    have sized' : ∀ size ∈ sizes.take k, 1 ≤ size :=
      fun size member => sized size (List.mem_of_mem_take member)
    obtain ⟨results, s, run, rfl, holds⟩ :=
      onReader_spec ((sizes.take k).map .readLine) enough _ (holds_create positive enough')
    refine ⟨s, run.trans (by rw [onStream_take sized]), ?_⟩
    rw [holds.pending, onStream_rest sized']
  have right : ∀ (k size : Nat), sizes[k]? = some size →
      (LineResult size (streamLines (delivered replies))[k]?
        (lineOnStream size (afterLines k (delivered replies))).result ↔
          (size = 1 → k < (streamLines (delivered replies)).length)) := by
    intro k size given
    have line := lineResult_iff (sized size (List.mem_of_getElem? given))
      (afterLines k (delivered replies))
    rwa [streamLines_afterLines, List.head?_drop, afterLines_ne_nil_iff] at line
  constructor
  · rintro ⟨results, run, lines⟩ k given
    obtain ⟨s, run, -⟩ := run sizes.length (Nat.le_refl _)
    obtain ⟨s', run', -⟩ := runs sizes.length
    obtain ⟨result, there, line⟩ := lines k 1 given
    have inside : k < sizes.length := (List.getElem?_eq_some_iff.mp given).1
    have same : some result =
        some (lineOnStream 1 (afterLines k (delivered replies))).result := by
      rw [run'] at run
      injection run with same
      have at_ := congrArg (·[k]?) same
      rw [List.getElem?_take_of_lt inside, List.getElem?_take_of_lt inside, there,
        onStream_result sized, given] at at_
      exact at_.symm
    obtain rfl := Option.some.inj same
    exact (right k 1 given).mp line rfl
  · intro room
    refine ⟨(onStream (sizes.map .readLine) (delivered replies)).1, fun k few => ?_,
      fun k size given => ?_⟩
    · obtain ⟨s, run, left_⟩ := runs k
      refine ⟨s, run, ?_⟩
      rw [left_, List.length_take, Nat.min_eq_left few, afterLines_eq_flatten]
    · refine ⟨_, ?_, (right k size given).mpr ?_⟩
      · rw [onStream_result sized, given]
        rfl
      · rintro rfl
        exact room k given

/-- A line cut to one byte, its empty successor with no room, the end without a newline. -/
theorem read_line_returns_lines_iff_three :
    ∃ results : List Result,
      (∀ k ≤ 4, ∃ s, onReader 20 (([2, 1, 9, 2].take k).map .readLine)
          ⟨lcReaderCreate (some [0, 0]) 2, [.data [104, 105, 10, 10], .error 4, .data [98]]⟩ =
            .done (results.take k) s ∧
        pending s = (([[104, 105, 10], [10], [98]] : List (List UInt8)).drop k).flatten) ∧
      ∀ (k size : Nat), [2, 1, 9, 2][k]? = some size → ∃ result, results[k]? = some result ∧
        LineResult size ([[104, 105, 10], [10], [98]] : List (List UInt8))[k]? result := by
  refine (read_line_returns_lines_iff [0, 0] [.data [104, 105, 10, 10], .error 4, .data [98]]
    [2, 1, 9, 2] 20 (by decide) (by decide) (by decide) (by decide)).mpr fun k given => ?_
  have inside : k < 4 := (List.getElem?_eq_some_iff.mp given).1
  have room : k ≠ 3 := by
    rintro rfl
    exact absurd given (by decide)
  change k < 3
  omega

/-- With room for the terminator only, an empty stream gives an empty line and not the end. -/
theorem empty_line_at_end :
    ∃ s, onReader 20 [.readLine 1] ⟨lcReaderCreate (some [0]) 1, []⟩ =
        .done [.line 0 (some [0])] s ∧
      streamLines (delivered []) = [] ∧ ¬ LineResult 1 none (.line 0 (some [0])) := by
  refine ⟨_, rfl, rfl, ?_⟩
  rintro ⟨written, minus⟩
  injection minus with zero
  exact absurd zero (by decide)

end Lightc.Io
