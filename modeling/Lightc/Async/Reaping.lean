import Lightc.Async.Completion
import Lightc.Async.Delivery
import Lightc.Machine.RingBuffer

/-!
# Completions are reaped once and in order

The counters of the completion ring count what was released and what was posted, from
the value they started at. What is not yet released is in its entry, since the kernel
stores behind the last completion and never into a full ring. A call that has loaded
the tail copies out of these entries; what it has copied is what was posted next.
-/

namespace Lightc.Async.Completion

open Machine Verification Function

/-! ### The invariant -/

variable {r c : Ring} {start : Nat} {s t : State}

/-- A call under way has loaded the tail and copied `count` completions. -/
structure Copying (start : Nat) (s : State) (maxResults : UInt32) (head tail count : Nat) :
    Prop where
  asked : s.asked = maxResults
  head : head = (start + s.copied.length) % 2 ^ 32
  tail : tail = (start + (s.returned.length + s.available)) % 2 ^ 32
  unreleased : s.released = s.returned.length
  filled : s.copied = s.returned ++ (List.range count).map s.results
  within : count ≤ min maxResults.toNat s.available
  loaded : s.returned.length + s.available ≤ s.posted.length

/-- Nothing is copied that is not released and returned. -/
def Settled (s : State) : Prop := s.released = s.copied.length ∧ s.returned = s.copied

/-- What the application knows at its next step. -/
def Knows (start : Nat) (s : State) : Prop :=
  match s.place with
  | .idle => Settled s
  | .waiting maxResults => Settled s ∧ s.asked = maxResults
  | .loadHead maxResults => Settled s ∧ s.asked = maxResults
  | .loadTail maxResults head => Settled s ∧ s.asked = maxResults ∧ head = s.cqHead
  | .scan maxResults head tail count => Copying start s maxResults head tail count
  | .copyResult maxResults head tail count =>
    Copying start s maxResults head tail count ∧ count < min maxResults.toNat s.available ∧
      ∃ cqe, s.posted[s.copied.length]? = some cqe ∧ (s.results count).tag = cqe.userData
  | .leave count =>
    s.released = s.copied.length ∧
      s.copied = s.returned ++ (List.range count).map s.results ∧
      count = min s.asked.toNat s.available

/-- The counters count what was released and posted, and what is not released is in its
entry. -/
structure Inv (c : Ring) (start : Nat) (s : State) : Prop where
  head : s.cqHead = (start + s.released) % 2 ^ 32
  tail : s.cqTail = (start + s.posted.length) % 2 ^ 32
  room : s.posted.length ≤ s.released + c.entries
  stored : ∀ cqe, s.stored = some cqe → s.posted.length < s.released + c.entries ∧
    s.cqes (c.slot start s.posted.length) = cqe
  cells : Buffered c.entries start s.released s.cqes s.posted
  copied : s.copied <+: s.posted.map Cqe.toResult
  released : s.released ≤ s.copied.length
  knows : Knows start s

/-- A step of the kernel: the application's part stays as it is and more may be posted. -/
structure KernelStep (s t : State) : Prop where
  place : t.place = s.place
  cqHead : t.cqHead = s.cqHead
  results : t.results = s.results
  copied : t.copied = s.copied
  returned : t.returned = s.returned
  released : t.released = s.released
  asked : t.asked = s.asked
  available : t.available = s.available
  posted : s.posted <+: t.posted

namespace KernelStep

variable (k : KernelStep s t)

include k

theorem settled (h : Settled s) : Settled t := by
  rw [Settled, k.released, k.copied, k.returned]
  exact h

theorem copying {maxResults : UInt32} {head tail count : Nat}
    (h : Copying start s maxResults head tail count) :
    Copying start t maxResults head tail count where
  asked := k.asked.trans h.asked
  head := by rw [k.copied, h.head]
  tail := by rw [k.returned, k.available, h.tail]
  unreleased := by rw [k.released, k.returned, h.unreleased]
  filled := by rw [k.copied, k.returned, k.results, h.filled]
  within := by rw [k.available]; exact h.within
  loaded := by
    rw [k.returned, k.available]
    exact h.loaded.trans k.posted.length_le

theorem knows (h : Knows start s) : Knows start t := by
  unfold Knows at h ⊢
  rw [k.place]
  cases place : s.place <;> rw [place] at h
  case idle => exact k.settled h
  case waiting | loadHead => exact ⟨k.settled h.1, k.asked.trans h.2⟩
  case loadTail => exact ⟨k.settled h.1, k.asked.trans h.2.1, h.2.2.trans k.cqHead.symm⟩
  case scan => exact k.copying h
  case copyResult =>
    obtain ⟨copying, less, cqe, next, tag⟩ := h
    refine ⟨k.copying copying, by rw [k.available]; exact less, cqe, ?_, by rw [k.results, tag]⟩
    obtain ⟨inside, -⟩ := List.getElem?_eq_some_iff.mp next
    obtain ⟨later, all⟩ := k.posted
    rw [k.copied, ← all, List.getElem?_append_left inside, next]
  case leave =>
    dsimp only at h ⊢
    rw [k.released, k.copied, k.returned, k.results, k.asked, k.available]
    exact h

end KernelStep

/-- An assignment to the next result leaves those before it. -/
theorem map_update_range (results : Nat → Result) (count : Nat) (x : Result) :
    (List.range count).map (update results count x) = (List.range count).map results := by
  refine List.map_congr_left fun i member => update_of_ne ?_ _ _
  have := List.mem_range.mp member
  omega

theorem concat_before {α : Type} {l m : List α} {x : α} (before : l <+: m)
    (next : m[l.length]? = some x) : l ++ [x] <+: m := by
  obtain ⟨rest, rfl⟩ := before
  rw [List.getElem?_append_right (Nat.le_refl _), Nat.sub_self] at next
  cases rest with
  | nil => cases next
  | cons y rest =>
    cases next
    exact ⟨rest, by rw [List.append_assoc, List.singleton_append]⟩

theorem Copying.length {maxResults : UInt32} {head tail count : Nat}
    (h : Copying start s maxResults head tail count) :
    s.copied.length = s.returned.length + count := by
  rw [h.filled, List.length_append, List.length_map, List.length_range]

theorem Settled.returned_before (h : Settled s) : s.returned <+: s.copied :=
  h.2 ▸ List.prefix_rfl

namespace Inv

section

variable (h : Inv c start s)
include h

/-- The wrapped distance of the counters is the number of entries in use. -/
theorem used_eq : sub32 s.cqTail s.cqHead = s.posted.length - s.released := by
  have := c.entries_lt
  have := h.room
  have := h.released
  have := h.copied.length_le
  rw [List.length_map] at this
  rw [h.head, h.tail, sub32_counter (by omega) (by omega)]

theorem post {cqe : Cqe} (step : kernelPost c s cqe = some t) : Inv c start t := by
  unfold kernelPost at step
  split at step
  · next free =>
    cases step
    have room := h.room
    have used := h.used_eq
    have less : s.posted.length < s.released + c.entries := by omega
    have slot : s.cqTail &&& c.mask = c.slot start s.posted.length := by
      rw [h.tail, c.and_mask]
    refine ⟨h.head, h.tail, room, ?_, ?_, h.copied, h.released, ?_⟩
    · rintro _ ⟨⟩
      refine ⟨less, ?_⟩
      dsimp only
      rw [slot, update_self]
    · dsimp only
      rw [slot]
      exact h.cells.store less cqe
    · exact KernelStep.knows (s := s) ⟨rfl, rfl, rfl, rfl, rfl, rfl, rfl, rfl, List.prefix_rfl⟩
        h.knows
  · cases step

theorem publish (step : kernelPublish s = some t) : Inv c start t := by
  obtain ⟨cqe, stored, rfl⟩ := Option.map_eq_some_iff.mp step
  obtain ⟨less, here⟩ := h.stored cqe stored
  refine ⟨h.head, ?_, ?_, fun _ none => (nomatch none), h.cells.append here, ?_, h.released, ?_⟩
  · dsimp only
    rw [h.tail, add32_counter, List.length_append, List.length_singleton]
  · dsimp only
    rw [List.length_append, List.length_singleton]
    omega
  · dsimp only
    rw [List.map_append]
    exact h.copied.trans (List.prefix_append _ _)
  · exact KernelStep.knows (s := s)
      ⟨rfl, rfl, rfl, rfl, rfl, rfl, rfl, rfl, List.prefix_append _ _⟩ h.knows

/-- Only the application's place changes. -/
theorem moves (sq : Async.State) {place : Place} (asked : UInt32) (available : Nat)
    (knows : Knows start { s with
      sq := sq, place := place, asked := asked, available := available }) :
    Inv c start { s with sq := sq, place := place, asked := asked, available := available } :=
  ⟨h.head, h.tail, h.room, h.stored, h.cells, h.copied, h.released, knows⟩

theorem submission (sq : Async.State) (event : Async.Event) :
    Inv c start { s with sq := sq, place := s.place.after event } := by
  refine h.moves sq s.asked s.available ?_
  have knows := h.knows
  unfold Knows at knows ⊢
  dsimp only
  cases place : s.place <;> rw [place] at knows
  case waiting => cases event <;> exact knows
  case scan => exact { knows with }
  case copyResult =>
    obtain ⟨⟨a, b, c, d, e, f, g⟩, rest⟩ := knows
    exact ⟨⟨a, b, c, d, e, f, g⟩, rest⟩
  all_goals exact knows

theorem call (idle : s.place = .idle) (sq : Async.State) (maxResults : UInt32) {place : Place}
    (starts : place = .waiting maxResults ∨ place = .loadHead maxResults) :
    Inv c start { s with sq := sq, place := place, asked := maxResults } := by
  refine h.moves sq maxResults s.available ?_
  have settled : Settled s := by
    have knows := h.knows
    rw [Knows, idle] at knows
    exact knows
  rcases starts with rfl | rfl
  all_goals exact ⟨settled, rfl⟩

variable {maxResults : UInt32} {head : Nat}

/-- The loop is entered with what was available when the tail was loaded. -/
theorem load_tail (place : s.place = .loadTail maxResults head) :
    Inv c start { s with
      place := .scan maxResults head s.cqTail 0
      available := s.posted.length - s.returned.length } := by
  have knows := h.knows
  rw [Knows, place] at knows
  obtain ⟨⟨released, returned⟩, asked, rfl⟩ := knows
  have length := h.copied.length_le
  rw [List.length_map, ← returned] at length
  refine h.moves s.sq s.asked _ ⟨asked, ?_, ?_, ?_, ?_, Nat.zero_le _, ?_⟩
  · rw [h.head, released]
  · dsimp only
    rw [h.tail, Nat.add_sub_cancel' length]
  · dsimp only
    rw [released, returned]
  · dsimp only
    rw [List.range_zero, List.map_nil, List.append_nil, returned]
  · dsimp only
    omega

variable {tail count : Nat}

section

variable (copying : Copying start s maxResults head tail count)
include copying

/-- While the loop goes on there is a completion in the entry at `head`. -/
theorem next_completion (more : head ≠ tail) :
    count < s.available ∧ ∃ cqe, s.posted[s.copied.length]? = some cqe ∧
      s.cqes (head &&& c.mask) = cqe := by
  have length := copying.length
  have within := copying.within
  have less : count < s.available := by
    by_contra all
    have last : count = s.available := by omega
    apply more
    rw [copying.head, copying.tail, length, last]
  have loaded := copying.loaded
  have inside : s.copied.length < s.posted.length := by omega
  refine ⟨less, s.posted[s.copied.length], List.getElem?_eq_getElem inside, ?_⟩
  rw [copying.head, c.and_mask]
  exact h.cells _ _ h.released (List.getElem?_eq_getElem inside)

/-- The first half of a copy. -/
theorem copy_tag (more : head ≠ tail) (wanted : count < maxResults.toNat) :
    Inv c start { s with
      results := update s.results count
        { s.results count with tag := (s.cqes (head &&& c.mask)).userData }
      place := .copyResult maxResults head tail count } := by
  obtain ⟨less, cqe, next, here⟩ := h.next_completion copying more
  refine ⟨h.head, h.tail, h.room, h.stored, h.cells, h.copied, h.released, ?_⟩
  refine ⟨⟨copying.asked, copying.head, copying.tail, copying.unreleased, ?_, copying.within,
    copying.loaded⟩, Nat.lt_min.mpr ⟨wanted, less⟩, cqe, next, ?_⟩
  · dsimp only
    rw [map_update_range]
    exact copying.filled
  · dsimp only
    rw [update_self, here]

omit copying in
/-- The second half completes it. -/
theorem copy_result (place : s.place = .copyResult maxResults head tail count) :
    Inv c start { s with
      results := update s.results count
        { s.results count with result := (s.cqes (head &&& c.mask)).res }
      copied := s.copied ++ [{ s.results count with result := (s.cqes (head &&& c.mask)).res }]
      place := .scan maxResults (add32 head 1) tail (add32 count 1) } := by
  have knows := h.knows
  rw [Knows, place] at knows
  obtain ⟨copying, less, cqe, next, tag⟩ := knows
  have here : s.cqes (head &&& c.mask) = cqe := by
    rw [copying.head, c.and_mask]
    exact h.cells _ _ h.released next
  have copy : { s.results count with result := (s.cqes (head &&& c.mask)).res } =
      cqe.toResult := by
    rw [here, Cqe.toResult, ← tag]
  have small := maxResults.toNat_lt
  have following : add32 count 1 = count + 1 := add32_of_lt (by omega)
  rw [copy, following]
  refine ⟨h.head, h.tail, h.room, h.stored, h.cells, ?_, ?_, ?_⟩
  · refine concat_before h.copied ?_
    rw [List.getElem?_map, next, Option.map_some]
  · dsimp only
    rw [List.length_append]
    exact Nat.le_add_right_of_le h.released
  · refine ⟨copying.asked, ?_, copying.tail, copying.unreleased, ?_, less, copying.loaded⟩
    · rw [copying.head, add32_counter]
      dsimp only
      rw [List.length_append, List.length_singleton]
    · dsimp only
      rw [List.range_succ, List.map_append, map_update_range, List.map_singleton,
        update_self, ← List.append_assoc, ← copying.filled]

/-- The loop has ended: what was copied is released. -/
theorem release (ended : ¬ (head ≠ tail ∧ count < maxResults.toNat)) :
    Inv c start { s with
      cqHead := head
      released := s.released + sub32 head s.cqHead
      place := .leave count } := by
  have length := copying.length
  have unreleased := copying.unreleased
  have within := copying.within
  have loaded := copying.loaded
  have room := h.room
  have small := maxResults.toNat_lt
  have moved : s.released + sub32 head s.cqHead = s.copied.length := by
    rw [copying.head, h.head, sub32_counter (by omega) (by omega)]
    omega
  have count_eq : count = min s.asked.toNat s.available := by
    rw [copying.asked]
    by_contra fewer
    refine ended ⟨?_, by omega⟩
    rw [copying.head, copying.tail]
    exact residue_ne (by omega) (by have := c.entries_lt; omega)
  rw [moved]
  refine ⟨copying.head, h.tail, ?_, ?_, h.cells.release h.released, h.copied, Nat.le_refl _, rfl,
    copying.filled, count_eq⟩
  · dsimp only
    omega
  · intro cqe stored
    obtain ⟨less, here⟩ := h.stored cqe stored
    exact ⟨by dsimp only; omega, here⟩

end

theorem leave (place : s.place = .leave count) :
    Inv c start { s with
      returned := s.returned ++ (List.range count).map s.results
      place := .idle } := by
  have knows := h.knows
  rw [Knows, place] at knows
  obtain ⟨released, copied, -⟩ := knows
  exact ⟨h.head, h.tail, h.room, h.stored, h.cells, h.copied, h.released, released, copied.symm⟩

theorem reap {event : Event} (step : reapStep c s = some (event, t)) : Inv c start t := by
  have knows := h.knows
  unfold reapStep at step
  unfold Knows at knows
  cases place : s.place <;> rw [place] at step knows <;> dsimp only at step
  case scan =>
    split at step <;> cases step
    · next more => exact h.copy_tag knows more.1 more.2
    · next ended => exact h.release knows ended
  all_goals cases step
  case loadHead => exact h.moves s.sq s.asked s.available ⟨knows.1, knows.2, rfl⟩
  case loadTail => exact h.load_tail place
  case copyResult => exact h.copy_result place
  case leave => exact h.leave place

theorem step (next : (system r c start).step s t) : Inv c start t := by
  obtain ⟨action, event, performed⟩ := next
  cases action with
  | submission action =>
    simp only [perform] at performed
    split at performed
    · obtain ⟨⟨event, sq⟩, -, same⟩ := Option.map_eq_some_iff.mp performed
      cases same
      exact h.submission sq event
    · cases performed
  | peek maxResults =>
    simp only [perform] at performed
    split at performed
    · next idle =>
      cases performed
      exact h.call idle.1 s.sq maxResults (.inr rfl)
    · cases performed
  | wait maxResults =>
    simp only [perform] at performed
    split at performed
    · next idle =>
      obtain ⟨⟨_, sq⟩, -, same⟩ := Option.map_eq_some_iff.mp performed
      cases same
      exact h.call idle sq maxResults (.inl rfl)
    · cases performed
  | reap => exact h.reap performed
  | post cqe =>
    obtain ⟨t, posted, same⟩ := Option.map_eq_some_iff.mp performed
    cases same
    exact h.post posted
  | publish =>
    obtain ⟨t, published, same⟩ := Option.map_eq_some_iff.mp performed
    cases same
    exact h.publish published

end

theorem init (h : (system r c start).init s) : Inv c start s := by
  obtain ⟨-, word, head, tail, stored, place, posted, copied, returned, released⟩ := h
  refine ⟨?_, ?_, ?_, ?_, ?_, ?_, ?_, ?_⟩
  · rw [head, released, Nat.add_zero, Nat.mod_eq_of_lt word]
  · rw [tail, posted, List.length_nil, Nat.add_zero, Nat.mod_eq_of_lt word]
  · rw [posted]
    exact Nat.zero_le _
  · intro cqe some
    rw [stored] at some
    cases some
  · rw [posted]
    exact .empty _ _ _ _
  · rw [copied]
    exact List.nil_prefix
  · rw [released]
    exact Nat.zero_le _
  · rw [Knows, place]
    exact ⟨by rw [released, copied]; rfl, by rw [returned, copied]⟩

theorem inductive_ (r c : Ring) (start : Nat) : (system r c start).Inductive (Inv c start) :=
  ⟨fun _ => init, fun _ _ => step⟩

theorem returned_before (h : Inv c start s) : s.returned <+: s.copied := by
  have knows := h.knows
  unfold Knows at knows
  cases place : s.place <;> rw [place] at knows
  case idle => exact knows.returned_before
  case waiting | loadHead | loadTail => exact knows.1.returned_before
  case scan => exact ⟨_, knows.filled.symm⟩
  case copyResult => exact ⟨_, knows.1.filled.symm⟩
  case leave => exact ⟨_, knows.2.1.symm⟩

end Inv

/-- Only the end of a call returns results. -/
theorem reaped_iff {action : Action} {count : Nat}
    (step : perform r c s action = some (.reaped count, t)) :
    s.place = .leave count ∧ t.returned = s.returned ++ (List.range count).map s.results := by
  cases action with
  | submission | wait =>
    simp only [perform] at step
    split at step
    · obtain ⟨_, -, same⟩ := Option.map_eq_some_iff.mp step
      cases same
    · cases step
  | peek =>
    simp only [perform] at step
    split at step <;> cases step
  | reap =>
    simp only [perform, reapStep] at step
    cases place : s.place <;> rw [place] at step
    case scan =>
      dsimp only at step
      split at step <;> cases step
    all_goals cases step
    exact ⟨rfl, rfl⟩
  | post | publish =>
    obtain ⟨_, -, same⟩ := Option.map_eq_some_iff.mp step
    cases same

/-- How many steps of its own a call may still take once it reaps. -/
def Place.left : Place → Nat
  | .idle => 0
  | .waiting _ => 0
  | .loadHead maxResults => 2 * maxResults.toNat + 4
  | .loadTail maxResults _ => 2 * maxResults.toNat + 3
  | .scan maxResults _ _ count => 2 * (maxResults.toNat - count) + 2
  | .copyResult maxResults _ _ count => 2 * (maxResults.toNat - count) + 1
  | .leave _ => 1

/-- A call that reaps goes on whatever the kernel does, and comes to its end. -/
theorem Inv.reaps (h : Inv c start s) (reaping : 0 < s.place.left) :
    ∃ event t, reapStep c s = some (event, t) ∧ t.place.left < s.place.left := by
  have knows := h.knows
  unfold Knows at knows
  unfold reapStep
  cases place : s.place with
  | idle | waiting =>
    rw [place] at reaping
    exact absurd reaping (Nat.lt_irrefl 0)
  | loadHead maxResults => exact ⟨_, _, rfl, Nat.lt_succ_self _⟩
  | loadTail maxResults head => exact ⟨_, _, rfl, Nat.lt_succ_self _⟩
  | scan maxResults head tail count =>
    dsimp only
    split
    · exact ⟨_, _, rfl, Nat.lt_succ_self _⟩
    · exact ⟨_, _, rfl, by simp only [Place.left]; omega⟩
  | copyResult maxResults head tail count =>
    rw [place] at knows
    have less := knows.2.1
    have small := maxResults.toNat_lt
    refine ⟨_, _, rfl, ?_⟩
    simp only [Place.left]
    rw [add32_of_lt (by omega)]
    omega
  | leave count => exact ⟨_, _, rfl, Nat.zero_lt_one⟩

/-- In every interleaving of the kernel with any calls: what was returned so far is a
prefix of what was posted, and the head has moved over no entry that was not copied
out. A call that returns has as many results as it asked for, or as were available when
it loaded the tail if these are fewer; and it does return, after a bounded number of its
own steps, none of which it has to wait for. -/
theorem completions_reaped_once (run : (system r c start).Reachable s) :
    s.returned <+: s.posted.map Cqe.toResult ∧
      (s.cqHead = (start + s.released) % 2 ^ 32 ∧ s.released ≤ s.copied.length ∧
        s.copied <+: s.posted.map Cqe.toResult) ∧
      (∀ action count t, perform r c s action = some (.reaped count, t) →
        count = min s.asked.toNat s.available ∧
          t.returned = s.returned ++ (List.range count).map s.results) ∧
      (0 < s.place.left →
        ∃ event t, perform r c s .reap = some (event, t) ∧ t.place.left < s.place.left) := by
  have h := (Inv.inductive_ r c start).reachable run
  refine ⟨h.returned_before.trans h.copied, ⟨h.head, h.released, h.copied⟩, ?_, h.reaps⟩
  intro action count t step
  obtain ⟨place, returned⟩ := reaped_iff step
  have knows := h.knows
  rw [Knows, place] at knows
  exact ⟨knows.2.2, returned⟩

/-! ### A run across the end of the counters -/

/-- The state after a given schedule. -/
def follow (r c : Ring) (s : State) (schedule : List Action) : Option State :=
  schedule.foldlM (fun s action => (perform r c s action).map (·.2)) s

def State.fresh (start : Nat) : State :=
  ⟨.fresh 0, start, start, fun _ => ⟨0, 0, 0⟩, none, fun _ => ⟨0, 0⟩, .idle, [], [], [], 0, 0, 0⟩

/-- Two completions fill the ring at the last value of the counters. One is reaped, a
third is posted into its entry, and a wait reaps the rest. -/
def wrapping : List Action :=
  [.post ⟨7, 1, 0⟩, .publish, .post ⟨8, 2, 0⟩, .publish, .peek 1, .reap, .reap, .reap, .reap,
    .reap, .post ⟨9, 3, 0⟩, .reap, .wait 5, .publish, .submission (.flush 0),
    .submission (.flush 0)] ++ List.replicate 7 .reap

theorem wrapping_isSome : (follow two two (.fresh (2 ^ 32 - 1)) wrapping).isSome := by
  decide +kernel

/-- The state in which the wait is about to return. -/
def wrapped : State := (follow two two (.fresh (2 ^ 32 - 1)) wrapping).get wrapping_isSome

theorem completions_reaped_once_wrapped :
    wrapped.returned <+: wrapped.posted.map Cqe.toResult ∧
      wrapped.returned = [⟨7, 1⟩] ∧ wrapped.place = .leave 2 ∧
      ∀ t, perform two two wrapped .reap = some (.reaped 2, t) →
        2 = min wrapped.asked.toNat wrapped.available ∧
          t.returned = wrapped.returned ++ (List.range 2).map wrapped.results := by
  have start : (system two two (2 ^ 32 - 1)).Reachable (.fresh (2 ^ 32 - 1)) :=
    .init ⟨⟨rfl, by decide, rfl, rfl, rfl, rfl⟩, by decide, rfl, rfl, rfl, rfl, rfl, rfl, rfl, rfl⟩
  have run : (system two two (2 ^ 32 - 1)).Reachable wrapped := by
    refine start.foldlM (fun s action t performed => ?_) (Option.some_get wrapping_isSome).symm
    obtain ⟨⟨event, u⟩, ran, rfl⟩ := Option.map_eq_some_iff.mp performed
    exact ⟨action, event, ran⟩
  obtain ⟨before, -, returns, -⟩ := completions_reaped_once run
  exact ⟨before, by decide +kernel, by decide +kernel, fun t => returns .reap 2 t⟩

end Lightc.Async.Completion
