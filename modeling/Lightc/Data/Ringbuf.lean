import Lightc.Machine.Memory
import Lightc.Machine.Word
import Lightc.Verification.Transition

/-!
# The single-producer single-consumer ring buffer

`head` and `tail` run freely through the 64-bit range and are masked only to
find a slot. The producer alone stores `tail` and the consumer alone stores
`head`; each decides on a value of the other's index that may be out of date by
the time it copies. The four steps of each call (two loads, the slot copy, the
index store) interleave with the other side's in any order.

The ghost histories `pushed` and `popped` list the elements of successful calls
in the order of their index stores. They count what the wrapped indices cannot.
-/

namespace Lightc.Data.Ringbuf

open Machine Verification

/-- The fields of `lc_ringbuf` that no push or pop writes, for a ring whose
buffer exists: `data` points to `capacity` slots inside the address space. -/
structure Ring where
  data : Nat
  elementSize : Nat
  capacity : Nat
  mask : Nat
  data_ne : data ≠ 0
  data_lt : data < 2 ^ 64
  exponent : Nat
  exponent_lt : exponent < 64
  capacity_eq : capacity = 2 ^ exponent
  mask_eq : mask = capacity - 1
  fits : data + capacity * elementSize ≤ 2 ^ 64

/-- `ring->data + (index & ring->mask) * ring->element_size`. -/
def Ring.slot (r : Ring) (index : Nat) : Nat :=
  add64 r.data (mul64 (index &&& r.mask) r.elementSize)

/-- The next shared access of `lc_ringbuf_push`. -/
inductive Producer
  | idle
  | loadTail (element : List UInt8)
  | loadHead (element : List UInt8) (tail : Nat)
  | copySlot (element : List UInt8) (tail : Nat)
  | storeTail (element : List UInt8) (tail : Nat)
  deriving DecidableEq, Repr

/-- The next shared access of `lc_ringbuf_pop`. -/
inductive Consumer
  | idle
  | loadHead
  | loadTail (head : Nat)
  | copySlot (head : Nat)
  | storeHead (head : Nat) (out : List UInt8)
  deriving DecidableEq, Repr

structure State where
  memory : Memory
  head : Nat
  tail : Nat
  producer : Producer
  consumer : Consumer
  pushed : List (List UInt8)
  popped : List (List UInt8)

/-- What a step lets a caller see. -/
inductive Event
  | internal
  | pushOk
  | pushFull
  | popOk
  | popEmpty
  deriving DecidableEq, Repr

/-- The next step of the push in progress. -/
def lcRingbufPush (r : Ring) (s : State) : Option (Event × State) :=
  match s.producer with
  | .idle => none
  | .loadTail element =>
    if r.data = 0 then some (.pushFull, { s with producer := .idle })
    else some (.internal, { s with producer := .loadHead element s.tail })
  | .loadHead element tail =>
    if sub64 tail s.head = r.capacity then some (.pushFull, { s with producer := .idle })
    else some (.internal, { s with producer := .copySlot element tail })
  | .copySlot element tail =>
    some (.internal, { s with
      memory := storeBytes s.memory (r.slot tail) element
      producer := .storeTail element tail })
  | .storeTail element tail =>
    some (.pushOk, { s with
      tail := add64 tail 1
      pushed := s.pushed ++ [element]
      producer := .idle })

/-- The next step of the pop in progress. -/
def lcRingbufPop (r : Ring) (s : State) : Option (Event × State) :=
  match s.consumer with
  | .idle => none
  | .loadHead => some (.internal, { s with consumer := .loadTail s.head })
  | .loadTail head =>
    if head = s.tail then some (.popEmpty, { s with consumer := .idle })
    else some (.internal, { s with consumer := .copySlot head })
  | .copySlot head =>
    some (.internal, { s with
      consumer := .storeHead head (loadBytes s.memory (r.slot head) r.elementSize) })
  | .storeHead head out =>
    some (.popOk, { s with
      head := add64 head 1
      popped := s.popped ++ [out]
      consumer := .idle })

/-- `lc_ringbuf_count`: the wrapped distance of the two indices. -/
def lcRingbufCount (s : State) : Nat := sub64 s.tail s.head

/-- One step of either side. A push is given an element of the ring's size. -/
inductive Step (r : Ring) : State → Event → State → Prop
  | callPush {s : State} (element : List UInt8) (idle : s.producer = .idle)
      (size : element.length = r.elementSize) :
      Step r s .internal { s with producer := .loadTail element }
  | callPop {s : State} (idle : s.consumer = .idle) :
      Step r s .internal { s with consumer := .loadHead }
  | push {s s' : State} {event : Event} (run : lcRingbufPush r s = some (event, s')) :
      Step r s event s'
  | pop {s s' : State} {event : Event} (run : lcRingbufPop r s = some (event, s')) :
      Step r s event s'

/-- Runs start from an empty ring with both indices at any 64-bit value. -/
def system (r : Ring) : System State where
  init s := s.head = s.tail ∧ s.head < 2 ^ 64 ∧ s.producer = .idle ∧ s.consumer = .idle ∧
    s.pushed = [] ∧ s.popped = []
  step s s' := ∃ event, Step r s event s'

/-! ### Slots -/

namespace Ring

variable (r : Ring)

theorem capacity_pos : 0 < r.capacity := by
  rw [r.capacity_eq]
  exact Nat.two_pow_pos _

theorem capacity_lt : r.capacity < 2 ^ 64 := by
  rw [r.capacity_eq]
  exact Nat.pow_lt_pow_right (by decide) r.exponent_lt

@[simp] theorem and_mask (n : Nat) : n % 2 ^ 64 &&& r.mask = n % r.capacity := by
  rw [r.mask_eq, r.capacity_eq]
  exact and_mask_counter (Nat.le_of_lt r.exponent_lt) n

theorem slot_fits (n : Nat) :
    r.data + n % r.capacity * r.elementSize + r.elementSize ≤ 2 ^ 64 := by
  have index : n % r.capacity + 1 ≤ r.capacity := Nat.mod_lt _ r.capacity_pos
  have bytes : (n % r.capacity + 1) * r.elementSize ≤ r.capacity * r.elementSize :=
    Nat.mul_le_mul_right _ index
  have := r.fits
  rw [Nat.add_mul, Nat.one_mul] at bytes
  omega

/-- The slot of a wrapped index, with neither product nor sum wrapping. -/
@[simp] theorem slot_eq (n : Nat) :
    r.slot (n % 2 ^ 64) = r.data + n % r.capacity * r.elementSize := by
  have fits := r.slot_fits n
  have bound := r.data_lt
  rw [slot, and_mask]
  by_cases empty : r.elementSize = 0
  · simpa [empty, mul64, add64] using bound
  · rw [mul64_of_lt (by omega), add64_of_lt (by omega)]

/-- Slots of indices less than a turn apart do not overlap. -/
theorem slot_disjoint (start : Nat) {i j : Nat} (order : i < j) (near : j - i < r.capacity) :
    r.slot ((start + i) % 2 ^ 64) + r.elementSize ≤ r.slot ((start + j) % 2 ^ 64) ∨
      r.slot ((start + j) % 2 ^ 64) + r.elementSize ≤ r.slot ((start + i) % 2 ^ 64) := by
  rw [slot_eq, slot_eq]
  have apart : (start + i) % r.capacity ≠ (start + j) % r.capacity := residue_ne order near
  rcases Nat.lt_or_gt_of_ne apart with h | h
  · have := Nat.mul_le_mul_right r.elementSize (Nat.succ_le_of_lt h)
    rw [Nat.succ_mul] at this
    exact .inl (by omega)
  · have := Nat.mul_le_mul_right r.elementSize (Nat.succ_le_of_lt h)
    rw [Nat.succ_mul] at this
    exact .inr (by omega)

end Ring

/-! ### The invariant -/

/-- The indices count the histories, and the published part of the buffer holds
the elements not yet popped. -/
structure Window (r : Ring) (start : Nat) (s : State) : Prop where
  tail : s.tail = (start + s.pushed.length) % 2 ^ 64
  head : s.head = (start + s.popped.length) % 2 ^ 64
  order : s.popped.length ≤ s.pushed.length
  room : s.pushed.length ≤ s.popped.length + r.capacity
  history : s.popped = s.pushed.take s.popped.length
  contents : ∀ i element, s.popped.length ≤ i → s.pushed[i]? = some element →
    loadBytes s.memory (r.slot ((start + i) % 2 ^ 64)) r.elementSize = element

/-- What the producer knows. Its own index is current; once it has passed the
fullness check there is room, since the consumer can only make more. -/
def ProducerOk (r : Ring) (s : State) : Prop :=
  match s.producer with
  | .idle => True
  | .loadTail element => element.length = r.elementSize
  | .loadHead element tail => element.length = r.elementSize ∧ tail = s.tail
  | .copySlot element tail => element.length = r.elementSize ∧ tail = s.tail ∧
      s.pushed.length < s.popped.length + r.capacity
  | .storeTail element tail => loadBytes s.memory (r.slot tail) r.elementSize = element ∧
      tail = s.tail ∧ s.pushed.length < s.popped.length + r.capacity

/-- What the consumer knows, symmetrically. -/
def ConsumerOk (s : State) : Prop :=
  match s.consumer with
  | .idle => True
  | .loadHead => True
  | .loadTail head => head = s.head
  | .copySlot head => head = s.head ∧ s.popped.length < s.pushed.length
  | .storeHead head out => head = s.head ∧ s.pushed[s.popped.length]? = some out

structure Fifo (r : Ring) (start : Nat) (s : State) : Prop where
  window : Window r start s
  producer : ProducerOk r s
  consumer : ConsumerOk s

variable {r : Ring} {start : Nat} {s s' : State} {event : Event}

namespace Window

variable (h : Window r start s)
include h

/-- The wrapped distance is the number of elements held. -/
theorem count_eq : sub64 s.tail s.head = s.pushed.length - s.popped.length := by
  have := h.room
  have := r.capacity_lt
  rw [h.tail, h.head]
  exact sub64_counter h.order (by omega)

/-- Equal indices mean an empty ring: a full one is less than a word away. -/
theorem head_eq_tail (same : s.head = s.tail) : s.pushed.length = s.popped.length := by
  have count := h.count_eq
  have := h.order
  rw [same] at count
  have bound : s.tail < 2 ^ 64 := by
    rw [h.tail]
    exact Nat.mod_lt _ (by decide)
  rw [sub64_of_le bound (Nat.le_refl _)] at count
  omega

/-- The producer's slot is none of the published ones. -/
theorem write_free_slot (element : List UInt8) (size : element.length = r.elementSize)
    (free : s.pushed.length < s.popped.length + r.capacity) :
    Window r start { s with memory := storeBytes s.memory (r.slot s.tail) element } := by
  refine ⟨h.tail, h.head, h.order, h.room, h.history, ?_⟩
  intro i value published found
  change s.popped.length ≤ i at published
  have inside : i < s.pushed.length := (List.getElem?_eq_some_iff.mp found).1
  have apart := r.slot_disjoint start inside (by omega)
  change loadBytes (storeBytes s.memory (r.slot s.tail) element) _ _ = value
  rw [loadBytes_storeBytes_disjoint]
  · exact h.contents i value published found
  · rw [h.tail, size]
    exact apart

theorem publish {element : List UInt8}
    (written : loadBytes s.memory (r.slot s.tail) r.elementSize = element)
    (free : s.pushed.length < s.popped.length + r.capacity) (producer : Producer) :
    Window r start { s with
      tail := add64 s.tail 1
      pushed := s.pushed ++ [element]
      producer := producer } := by
  have order := h.order
  refine ⟨?_, h.head, ?_, ?_, ?_, ?_⟩
  · simp only [List.length_append, List.length_singleton]
    rw [h.tail]
    exact add64_counter start s.pushed.length
  · simp only [List.length_append, List.length_singleton]
    omega
  · simp only [List.length_append, List.length_singleton]
    omega
  · rw [List.take_append_of_le_length order]
    exact h.history
  · intro i value published found
    by_cases old : i < s.pushed.length
    · rw [List.getElem?_append_left old] at found
      exact h.contents i value published found
    · have last : i = s.pushed.length := by
        have := (List.getElem?_eq_some_iff.mp found).1
        simp only [List.length_append, List.length_singleton] at this
        omega
      subst last
      have same : element = value := by simpa using found
      rw [← same, ← h.tail]
      exact written

theorem retire {out : List UInt8} (next : s.pushed[s.popped.length]? = some out)
    (consumer : Consumer) :
    Window r start { s with
      head := add64 s.head 1
      popped := s.popped ++ [out]
      consumer := consumer } := by
  have inside : s.popped.length < s.pushed.length := (List.getElem?_eq_some_iff.mp next).1
  have room := h.room
  refine ⟨h.tail, ?_, ?_, ?_, ?_, ?_⟩
  · simp only [List.length_append, List.length_singleton]
    rw [h.head]
    exact add64_counter start s.popped.length
  · simp only [List.length_append, List.length_singleton]
    omega
  · simp only [List.length_append, List.length_singleton]
    omega
  · simp only [List.length_append, List.length_singleton]
    rw [List.take_add_one, ← h.history, next]
    rfl
  · intro i value published found
    simp only [List.length_append, List.length_singleton] at published
    exact h.contents i value (by omega) found

/-- The places of the two threads do not matter. -/
theorem local_step (producer : Producer) (consumer : Consumer) :
    Window r start { s with producer := producer, consumer := consumer } :=
  { h with }

end Window

theorem Fifo.push (h : Fifo r start s) (run : lcRingbufPush r s = some (event, s')) :
    Fifo r start s' := by
  have own := h.producer
  have others := h.consumer
  unfold lcRingbufPush at run
  unfold ProducerOk at own
  cases at_ : s.producer <;> simp only [at_, reduceCtorEq, Option.some.injEq, Prod.mk.injEq]
    at run own
  case loadTail =>
    simp only [r.data_ne, if_false, Option.some.injEq, Prod.mk.injEq] at run
    obtain ⟨-, rfl⟩ := run
    exact ⟨h.window.local_step _ _, ⟨own, rfl⟩, others⟩
  case loadHead =>
    obtain ⟨size, rfl⟩ := own
    split at run <;> cases run
    · exact ⟨h.window.local_step _ _, trivial, others⟩
    · next full =>
      rw [h.window.count_eq] at full
      have room := h.window.room
      have free : s.pushed.length < s.popped.length + r.capacity := by omega
      exact ⟨h.window.local_step _ _, ⟨size, rfl, free⟩, others⟩
  all_goals obtain ⟨-, rfl⟩ := run
  case copySlot element tail =>
    obtain ⟨size, rfl, free⟩ := own
    have written := h.window.write_free_slot element size free
    exact ⟨written.local_step _ _, ⟨loadBytes_storeBytes_same size, rfl, free⟩, others⟩
  case storeTail element tail =>
    obtain ⟨written, rfl, free⟩ := own
    refine ⟨h.window.publish written free .idle, trivial, ?_⟩
    -- Publishing only extends the history the consumer looks at.
    unfold ConsumerOk at others ⊢
    cases theirs : s.consumer with
    | idle | loadHead => trivial
    | loadTail head => simpa only [theirs] using others
    | copySlot head =>
      simp only [theirs] at others
      refine ⟨others.1, ?_⟩
      have := others.2
      simp only [List.length_append, List.length_singleton]
      omega
    | storeHead head out =>
      simp only [theirs] at others
      refine ⟨others.1, ?_⟩
      have inside := (List.getElem?_eq_some_iff.mp others.2).1
      show (s.pushed ++ [element])[s.popped.length]? = some out
      rw [List.getElem?_append_left inside]
      exact others.2

theorem Fifo.pop (h : Fifo r start s) (run : lcRingbufPop r s = some (event, s')) :
    Fifo r start s' := by
  have own := h.consumer
  have others := h.producer
  unfold lcRingbufPop at run
  unfold ConsumerOk at own
  cases at_ : s.consumer <;> simp only [at_, reduceCtorEq, Option.some.injEq, Prod.mk.injEq]
    at run own
  case loadTail =>
    subst own
    split at run <;> cases run
    · exact ⟨h.window.local_step _ _, others, trivial⟩
    · next nonempty =>
      refine ⟨h.window.local_step _ _, others, rfl, ?_⟩
      show s.popped.length < s.pushed.length
      refine Nat.lt_of_le_of_ne h.window.order fun same => nonempty ?_
      rw [h.window.head, h.window.tail, same]
  all_goals obtain ⟨-, rfl⟩ := run
  case loadHead => exact ⟨h.window.local_step _ _, others, rfl⟩
  case copySlot =>
    obtain ⟨rfl, nonempty⟩ := own
    refine ⟨h.window.local_step _ _, others, rfl, ?_⟩
    have found : s.pushed[s.popped.length]? = some s.pushed[s.popped.length] :=
      List.getElem?_eq_getElem nonempty
    have copied := h.window.contents _ _ (Nat.le_refl _) found
    show s.pushed[s.popped.length]? = some (loadBytes s.memory (r.slot s.head) r.elementSize)
    rw [h.window.head, copied]
    exact found
  case storeHead =>
    obtain ⟨rfl, next⟩ := own
    refine ⟨h.window.retire next .idle, ?_, trivial⟩
    -- Retiring an element only makes room for the producer.
    unfold ProducerOk at others ⊢
    cases theirs : s.producer with
    | idle => trivial
    | loadTail element => simpa only [theirs] using others
    | loadHead element tail => simpa only [theirs] using others
    | copySlot element tail | storeTail element tail =>
      simp only [theirs] at others
      refine ⟨others.1, others.2.1, ?_⟩
      have := others.2.2
      simp only [List.length_append, List.length_singleton]
      omega

theorem Fifo.step (h : Fifo r start s) (next : Step r s event s') : Fifo r start s' := by
  cases next with
  | callPush element idle size => exact ⟨h.window.local_step _ _, size, h.consumer⟩
  | callPop idle => exact ⟨h.window.local_step _ _, h.producer, trivial⟩
  | push run => exact h.push run
  | pop run => exact h.pop run

theorem fifo_inductive : (system r).Inductive (fun s => ∃ start, Fifo r start s) where
  init := by
    rintro s ⟨same, bound, producing, consuming, pushed, popped⟩
    refine ⟨s.head, ⟨?_, ?_, ?_, ?_, ?_, ?_⟩, ?_, ?_⟩
    · simpa [pushed, ← same] using (Nat.mod_eq_of_lt bound).symm
    · simpa [popped] using (Nat.mod_eq_of_lt bound).symm
    · simp [pushed, popped]
    · simp [pushed]
    · simp [pushed, popped]
    · simp [pushed]
    · simp [ProducerOk, producing]
    · simp [ConsumerOk, consuming]
  step := by
    rintro s s' ⟨start, h⟩ ⟨event, next⟩
    exact ⟨start, h.step next⟩

/-- While the producer has a slot to itself, between its fullness check and its
index store, the consumer's slot is another one. -/
theorem Fifo.slots_apart (h : Fifo r start s) {head tail : Nat} {element : List UInt8}
    (reading : s.consumer = .copySlot head)
    (writing : s.producer = .copySlot element tail ∨ s.producer = .storeTail element tail) :
    head &&& r.mask ≠ tail &&& r.mask := by
  have consumer := h.consumer
  simp only [ConsumerOk, reading] at consumer
  obtain ⟨rfl, nonempty⟩ := consumer
  have producer : tail = s.tail ∧ s.pushed.length < s.popped.length + r.capacity := by
    have := h.producer
    rcases writing with at_ | at_ <;> simp only [ProducerOk, at_] at this <;> exact this.2
  obtain ⟨rfl, free⟩ := producer
  rw [h.window.head, h.window.tail, r.and_mask, r.and_mask]
  exact residue_ne nonempty (by omega)

/-- A push gives up right at its load of `head`, on a distance of `capacity`. -/
theorem lcRingbufPush_full (failed : lcRingbufPush r s = some (.pushFull, s')) :
    ∃ element tail, s.producer = .loadHead element tail ∧ sub64 tail s.head = r.capacity := by
  unfold lcRingbufPush at failed
  cases at_ : s.producer with
  | loadHead element tail =>
    refine ⟨element, tail, rfl, ?_⟩
    by_contra free
    simp [at_, free] at failed
  | idle | loadTail | copySlot | storeTail => simp [at_, r.data_ne] at failed

/-- A pop gives up right at its load of `tail`. -/
theorem lcRingbufPop_empty (failed : lcRingbufPop r s = some (.popEmpty, s')) :
    ∃ head, s.consumer = .loadTail head ∧ head = s.tail := by
  unfold lcRingbufPop at failed
  cases at_ : s.consumer with
  | loadTail head =>
    refine ⟨head, rfl, ?_⟩
    by_contra nonempty
    simp [at_, nonempty] at failed
  | idle | loadHead | copySlot | storeHead => simp [at_] at failed

theorem lcRingbufPush_event (run : lcRingbufPush r s = some (event, s')) :
    event ≠ .popEmpty ∧ event ≠ .popOk := by
  unfold lcRingbufPush at run
  constructor <;> rintro rfl <;> cases at_ : s.producer <;> simp only [at_, reduceCtorEq] at run
  all_goals first | (split at run <;> simp at run) | simp at run

theorem lcRingbufPop_event (run : lcRingbufPop r s = some (event, s')) :
    event ≠ .pushFull ∧ event ≠ .pushOk := by
  unfold lcRingbufPop at run
  constructor <;> rintro rfl <;> cases at_ : s.consumer <;> simp only [at_, reduceCtorEq] at run
  all_goals first | (split at run <;> simp at run) | simp at run

/-- Whatever the starting indices and the interleaving: the popped elements are
the pushed ones in order, the wrapped distance stays within the capacity, a push
fails only on a full ring and a pop only on an empty one at the load that
decided it, and the two sides never use one slot at the same time. -/
theorem ringbuf_bounded_fifo (run : (system r).Reachable s) :
    s.popped <+: s.pushed ∧ lcRingbufCount s ≤ r.capacity ∧
      (∀ s', Step r s .pushFull s' → s.pushed.length = s.popped.length + r.capacity) ∧
      (∀ s', Step r s .popEmpty s' → s.pushed.length = s.popped.length) ∧
      ∀ head tail element, s.consumer = .copySlot head →
        s.producer = .copySlot element tail ∨ s.producer = .storeTail element tail →
        head &&& r.mask ≠ tail &&& r.mask := by
  obtain ⟨start, h⟩ := fifo_inductive.reachable run
  have room := h.window.room
  refine ⟨?_, ?_, ?_, ?_, fun _ _ _ reading writing => h.slots_apart reading writing⟩
  · rw [h.window.history]
    exact List.take_prefix _ _
  · rw [lcRingbufCount, h.window.count_eq]
    omega
  · intro s' failed
    cases failed with
    | push failed =>
      obtain ⟨element, tail, at_, full⟩ := lcRingbufPush_full failed
      have own := h.producer
      simp only [ProducerOk, at_] at own
      rw [own.2, h.window.count_eq] at full
      have := h.window.order
      omega
    | pop failed => exact absurd rfl (lcRingbufPop_event failed).1
  · intro s' failed
    cases failed with
    | push failed => exact absurd rfl (lcRingbufPush_event failed).1
    | pop failed =>
      obtain ⟨head, at_, empty⟩ := lcRingbufPop_empty failed
      have own := h.consumer
      simp only [ConsumerOk, at_] at own
      exact h.window.head_eq_tail (own ▸ empty)

/-- Two one-byte slots at address 4096. -/
def twoSlots : Ring where
  data := 4096
  elementSize := 1
  capacity := 2
  mask := 1
  data_ne := by decide
  data_lt := by decide
  exponent := 1
  exponent_lt := by decide
  capacity_eq := rfl
  mask_eq := rfl
  fits := by decide

/-- The tail has wrapped past the word range, and both sides are about to copy. -/
theorem ringbuf_bounded_fifo_wrapped :
    ∃ s, (system twoSlots).Reachable s ∧ s.head = 2 ^ 64 - 1 ∧ s.tail = 0 ∧
      s.producer = .copySlot [8] 0 ∧ s.consumer = .copySlot (2 ^ 64 - 1) ∧
      s.popped <+: s.pushed ∧ lcRingbufCount s ≤ 2 ∧
      (2 ^ 64 - 1) &&& twoSlots.mask ≠ 0 &&& twoSlots.mask := by
  have start : (system twoSlots).Reachable
      ⟨fun _ => 0, 2 ^ 64 - 1, 2 ^ 64 - 1, .idle, .idle, [], []⟩ :=
    .init ⟨rfl, by decide, rfl, rfl, rfl, rfl⟩
  have called := start.step ⟨_, .callPush [7] rfl rfl⟩
  have pushed := (((called.step ⟨_, .push rfl⟩).step ⟨_, .push rfl⟩).step ⟨_, .push rfl⟩).step
    ⟨_, .push rfl⟩
  have pushing := ((pushed.step ⟨_, .callPush [8] rfl rfl⟩).step
    ⟨_, .push rfl⟩).step ⟨_, .push rfl⟩
  have popping := ((pushing.step ⟨_, .callPop rfl⟩).step ⟨_, .pop rfl⟩).step ⟨_, .pop rfl⟩
  have fifo := ringbuf_bounded_fifo popping
  exact ⟨_, popping, rfl, rfl, rfl, rfl, fifo.1, fifo.2.1,
    fifo.2.2.2.2 _ _ _ rfl (.inl rfl)⟩

end Lightc.Data.Ringbuf
