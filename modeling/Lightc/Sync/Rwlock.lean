import Lightc.Machine.Atomic
import Lightc.Verification.Counting
import Lightc.Verification.Transition
import Mathlib.Data.Nat.Bitwise

/-!
# The futex read-write lock

Bit 31 of the word is the writer, the other bits count the readers. Readers and
writers sleep on the same word: a reader while the writer's bit is set, a writer
with whatever nonzero value it saw. The last reader to leave wakes one sleeper, a
writer wakes all of them.

A thread locks and unlocks in pairs, so with fewer than `2 ^ 31` threads the count
never reaches the writer's bit. The compare-exchange of a reader may fail for no
reason and the futex may wake a sleeper spuriously.
-/

namespace Lightc.Sync.Rwlock

open Machine Verification Function

/-- `RWLOCK_WRITE_BIT`. -/
def writeBit : UInt32 := 0x80000000

/-- The next shared access of a thread. -/
inductive Pc
  /-- Not in the lock's code and not holding it. -/
  | outside
  /-- `lc_rwlock_read_lock`, before the load. -/
  | readLoad
  /-- It saw the writer's bit, before `futex_wait` on the value it saw. -/
  | readWait (state : UInt32)
  | readAsleep
  /-- Before the compare-exchange from the value it saw. -/
  | readCas (state : UInt32)
  /-- `lc_rwlock_read_lock` has returned. -/
  | reading
  /-- `lc_rwlock_read_unlock`, before the fetch-sub. -/
  | readSub
  /-- The last reader, before `futex_wake` of one. -/
  | readWake
  /-- `lc_rwlock_write_lock`, before the compare-exchange from 0. -/
  | writeCas
  /-- It failed, before `futex_wait` on the value it left in `expected`. -/
  | writeWait (expected : UInt32)
  | writeAsleep
  /-- `lc_rwlock_write_lock` has returned. -/
  | writing
  /-- `lc_rwlock_write_unlock`, before the store of 0. -/
  | writeStore
  /-- Before `futex_wake` of all. -/
  | writeWake
  deriving DecidableEq, Repr

/-- From the successful compare-exchange to the fetch-sub. -/
def Pc.reads : Pc → Bool
  | .reading | .readSub => true
  | _ => false

/-- From the successful compare-exchange to the store of 0. -/
def Pc.writes : Pc → Bool
  | .writing | .writeStore => true
  | _ => false

def Pc.asleep : Pc → Bool
  | .readAsleep | .writeAsleep => true
  | _ => false

/-- Inside one of the four operations, asleep or not. -/
def Pc.InOperation : Pc → Prop
  | .outside | .reading | .writing => False
  | _ => True

/-- One step of `lc_rwlock_read_lock`. With `fails` the weak compare-exchange fails
for no reason. -/
def lcRwlockReadLock (fails : Bool) : Pc → UInt32 → Option (Pc × UInt32)
  | .readLoad, word => some (if word &&& writeBit ≠ 0 then .readWait word else .readCas word, word)
  | .readWait state, word => some (if futexWait word state then .readAsleep else .readLoad, word)
  | .readCas state, word =>
    if fails then some (.readLoad, word)
    else
      let (acquired, word') := atomicCompareExchange word state (state + 1)
      some (if acquired then .reading else .readLoad, word')
  | _, _ => none

/-- One step of `lc_rwlock_read_unlock` up to the wake-up. -/
def lcRwlockReadUnlock : Pc → UInt32 → Option (Pc × UInt32)
  | .readSub, word =>
    let (prev, word') := atomicFetchSub word 1
    some (if prev = 1 then .readWake else .outside, word')
  | _, _ => none

/-- One step of `lc_rwlock_write_lock`. A failed compare-exchange leaves the word it
found in `expected`. -/
def lcRwlockWriteLock : Pc → UInt32 → Option (Pc × UInt32)
  | .writeCas, word =>
    let (acquired, word') := atomicCompareExchange word 0 writeBit
    some (if acquired then .writing else .writeWait word, word')
  | .writeWait expected, word =>
    some (if futexWait word expected then .writeAsleep else .writeCas, word)
  | _, _ => none

/-- One step of `lc_rwlock_write_unlock` up to the wake-up. -/
def lcRwlockWriteUnlock : Pc → UInt32 → Option (Pc × UInt32)
  | .writeStore, _ => some (.writeWake, 0)
  | _, _ => none

structure State (T : Type) where
  state : UInt32
  pc : T → Pc

/-- A sleeper that is woken starts its loop again. -/
def Pc.woken : Pc → Pc
  | .readAsleep => .readLoad
  | .writeAsleep => .writeCas
  | pc => pc

variable {T : Type} [DecidableEq T]

namespace State

/-- A step of one thread that leaves a new word behind. -/
def advance (s : State T) (t : T) (result : Pc × UInt32) : State T :=
  { state := result.2, pc := update s.pc t result.1 }

def setPc (s : State T) (t : T) (pc : Pc) : State T := s.advance t (pc, s.state)

/-- The sleepers a wake-up releases. -/
def release (s : State T) (released : Finset T) : State T :=
  { s with pc := fun t => if t ∈ released then (s.pc t).woken else s.pc t }

end State

/-- The atomic steps of all threads. Each lock is released by the thread that took
it. -/
inductive Step : State T → State T → Prop
  | callReadLock {s : State T} {t : T} (at_ : s.pc t = .outside) : Step s (s.setPc t .readLoad)
  | callReadUnlock {s : State T} {t : T} (at_ : s.pc t = .reading) : Step s (s.setPc t .readSub)
  | callWriteLock {s : State T} {t : T} (at_ : s.pc t = .outside) : Step s (s.setPc t .writeCas)
  | callWriteUnlock {s : State T} {t : T} (at_ : s.pc t = .writing) :
      Step s (s.setPc t .writeStore)
  | readLock {s : State T} {t : T} {r : Pc × UInt32} (fails : Bool)
      (run : lcRwlockReadLock fails (s.pc t) s.state = some r) : Step s (s.advance t r)
  | readUnlock {s : State T} {t : T} {r : Pc × UInt32}
      (run : lcRwlockReadUnlock (s.pc t) s.state = some r) : Step s (s.advance t r)
  | writeLock {s : State T} {t : T} {r : Pc × UInt32}
      (run : lcRwlockWriteLock (s.pc t) s.state = some r) : Step s (s.advance t r)
  | writeUnlock {s : State T} {t : T} {r : Pc × UInt32}
      (run : lcRwlockWriteUnlock (s.pc t) s.state = some r) : Step s (s.advance t r)
  | wakeOne {s : State T} {t : T} {released : Finset T} (at_ : s.pc t = .readWake)
      (wake : WakeUpTo 1 (fun u => (s.pc u).asleep = true) released) :
      Step s ((s.setPc t .outside).release released)
  | wakeAll {s : State T} {t : T} {released : Finset T} (at_ : s.pc t = .writeWake)
      (wake : WakeUpTo 2147483647 (fun u => (s.pc u).asleep = true) released) :
      Step s ((s.setPc t .outside).release released)
  | spurious {s : State T} {t : T} (at_ : (s.pc t).asleep = true) :
      Step s (s.setPc t (s.pc t).woken)

/-- `LC_RWLOCK_INIT` with every thread outside. -/
def system (T : Type) [DecidableEq T] : System (State T) where
  init s := s.state = 0 ∧ ∀ t, s.pc t = .outside
  step := Step

/-! ### What a thread has seen -/

theorem and_writeBit_eq_zero (word : UInt32) : word &&& writeBit = 0 ↔ word.toNat < 2 ^ 31 := by
  have bound := word.toNat_lt
  rw [← UInt32.toNat_inj, UInt32.toNat_and, show writeBit.toNat = 2 ^ 31 from rfl, Nat.and_two_pow,
    Nat.testBit_eq_decide_div_mod_eq]
  simp only [UInt32.toNat_zero, Nat.mul_eq_zero, Bool.toNat_eq_zero, decide_eq_false_iff_not]
  omega

/-- The value in a register: a reader waits for a writer and enters without one, and
a writer never waits for 0. -/
def Pc.Seen : Pc → Prop
  | .readWait state => state &&& writeBit ≠ 0
  | .readCas state => state &&& writeBit = 0
  | .writeWait expected => expected ≠ 0
  | _ => True

/-! ### Exclusion -/

/-- What one thread's step does to the holders and the word. -/
inductive Change (pc : Pc) (word : UInt32) (pc' : Pc) (word' : UInt32) : Prop
  | enterRead (free : word &&& writeBit = 0) (counted : word' = word + 1)
      (before : pc.reads = false) (after : pc'.reads = true) (idle : pc'.writes = false)
  | leaveRead (counted : word' = word - 1) (before : pc.reads = true) (after : pc'.reads = false)
      (idle : pc'.writes = false)
  | enterWrite (free : word = 0) (taken : word' = writeBit) (before : pc.reads = false)
      (after : pc'.reads = false)
  | leaveWrite (freed : word' = 0) (before : pc.writes = true) (idle : pc'.writes = false)
      (reads : pc'.reads = pc.reads)
  | keep (word : word' = word) (reads : pc'.reads = pc.reads) (writes : pc'.writes = pc.writes)

section Exclusion

variable [Fintype T] {s s' : State T} {t : T} {r : Pc × UInt32}

/-- The number of threads that hold the lock for reading. -/
def State.readers (s : State T) : Nat := countOf Pc.reads s.pc

/-- The word is the number of readers, or the writer's bit and there are none. -/
inductive Sound (s : State T) : Prop
  | shared (word : s.state.toNat = s.readers) (nobody : ∀ t, (s.pc t).writes = false)
  | owned (t : T) (word : s.state = writeBit) (empty : s.readers = 0)
      (only : ∀ u, (s.pc u).writes = true → u = t)

omit [Fintype T] in
/-- The moving thread apart, nobody starts or stops writing. -/
theorem writes_advance {pc : Pc} (idle : pc.writes = false)
    (others : ∀ u, u ≠ t → (s.pc u).writes = false) (u : T) :
    (update s.pc t pc u).writes = false :=
  (forall_update_iff s.pc fun _ pc => pc.writes = false).mpr ⟨idle, others⟩ u

theorem Sound.change (h : Sound s) (few : Fintype.card T < 2 ^ 31)
    (change : Change (s.pc t) s.state r.1 r.2) : Sound (s.advance t r) := by
  cases change with
  | enterRead free counted before after idle =>
    have count : (s.advance t r).readers = s.readers + 1 := countOf_update_enter before after
    have bound : (s.advance t r).readers ≤ Fintype.card T := countOf_le _ _
    cases h with
    | shared word nobody =>
      refine .shared ?_ (writes_advance idle fun u _ => nobody u)
      change r.2.toNat = _
      rw [counted, UInt32.toNat_add, word, count]
      exact Nat.mod_eq_of_lt (by simp only [UInt32.toNat_one]; omega)
    | owned _ word =>
      rw [word] at free
      exact absurd free (by decide)
  | leaveRead counted before after idle =>
    have count : (s.advance t r).readers + 1 = s.readers := countOf_update_leave before after
    cases h with
    | shared word nobody =>
      refine .shared ?_ (writes_advance idle fun u _ => nobody u)
      have positive : (1 : UInt32) ≤ s.state := by
        rw [UInt32.le_iff_toNat_le, word, UInt32.toNat_one]
        omega
      change r.2.toNat = _
      rw [counted, UInt32.toNat_sub_of_le _ _ positive, word, UInt32.toNat_one]
      omega
    | owned _ _ empty => omega
  | enterWrite free taken before after =>
    have count : (s.advance t r).readers = s.readers :=
      countOf_update_same (after.trans before.symm)
    cases h with
    | shared word nobody =>
      refine .owned t taken ?_ ?_
      · rw [count, ← word, free]
        rfl
      · intro u writes
        by_contra other
        change (update s.pc t r.1 u).writes = true at writes
        rw [update_of_ne other, nobody u] at writes
        cases writes
    | owned _ word =>
      rw [word] at free
      exact absurd free (by decide)
  | leaveWrite freed before idle reads =>
    have count : (s.advance t r).readers = s.readers := countOf_update_same reads
    cases h with
    | shared _ nobody =>
      rw [nobody t] at before
      cases before
    | owned owner _ empty only =>
      have self : t = owner := only t before
      refine .shared ?_ (writes_advance idle fun u other => ?_)
      · change r.2.toNat = _
        rw [freed, count, empty]
        rfl
      · by_contra writes
        exact other ((only u (by simpa using writes)).trans self.symm)
  | keep word reads writes =>
    have count : (s.advance t r).readers = s.readers := countOf_update_same reads
    have same : ∀ u, ((s.advance t r).pc u).writes = (s.pc u).writes :=
      (forall_update_iff s.pc fun u pc => pc.writes = (s.pc u).writes).mpr
        ⟨writes, fun _ _ => rfl⟩
    cases h with
    | shared counted nobody =>
      refine .shared ?_ fun u => (same u).trans (nobody u)
      change r.2.toNat = _
      rw [word, count, counted]
    | owned owner taken empty only =>
      exact .owned owner (word.trans taken) (count.trans empty)
        fun u writes => only u ((same u).symm.trans writes)

theorem Sound.setPc (h : Sound s) (few : Fintype.card T < 2 ^ 31) {pc : Pc}
    (reads : pc.reads = (s.pc t).reads) (writes : pc.writes = (s.pc t).writes) :
    Sound (s.setPc t pc) :=
  h.change few (.keep rfl reads writes)

omit [DecidableEq T] [Fintype T] in
theorem woken_holds (pc : Pc) : pc.woken.reads = pc.reads ∧ pc.woken.writes = pc.writes := by
  cases pc <;> exact ⟨rfl, rfl⟩

/-- Waking sleepers changes no holder. -/
theorem Sound.release (h : Sound s) (released : Finset T) : Sound (s.release released) := by
  have same : ∀ u, ((s.release released).pc u).reads = (s.pc u).reads ∧
      ((s.release released).pc u).writes = (s.pc u).writes := by
    intro u
    rw [State.release]
    dsimp only
    split
    · exact woken_holds _
    · exact ⟨rfl, rfl⟩
  have count : (s.release released).readers = s.readers := countOf_congr fun u => (same u).1
  cases h with
  | shared word nobody =>
    exact .shared (word.trans count.symm) fun u => (same u).2.trans (nobody u)
  | owned owner word empty only =>
    exact .owned owner word (count.trans empty) fun u writes => only u ((same u).2 ▸ writes)

end Exclusion

/-! ### One step of each operation -/

/-- The thread is awake and will take the lock, look at the word again or wake a
sleeper before it leaves. -/
def Pc.busy : Pc → Bool
  | .readLoad | .readWait _ | .readCas _ | .readWake => true
  | .writeCas | .writeWait _ | .writeWake => true
  | _ => false

/-- What one thread's step does to the memory of sleepers. -/
inductive Notice (pc : Pc) (word : UInt32) (pc' : Pc) (word' : UInt32) : Prop
  | alert (h : word' ≠ 0 ∨ pc'.busy = true)
  | neutral (calm : pc.busy = false) (awake : pc'.asleep = false) (word : word ≠ 0 → word' ≠ 0)

/-- Everything a step of one thread does. -/
structure Effect (pc : Pc) (word : UInt32) (r : Pc × UInt32) : Prop where
  seen : r.1.Seen
  change : Change pc word r.1 r.2
  notice : Notice pc word r.1 r.2

section Effects

variable {pc : Pc} {word : UInt32} {r : Pc × UInt32}

theorem lcRwlockReadLock_effect {fails : Bool} (seen : pc.Seen)
    (run : lcRwlockReadLock fails pc word = some r) : Effect pc word r := by
  cases pc <;> simp only [lcRwlockReadLock, reduceCtorEq, Option.some.injEq] at run
  case readLoad =>
    subst r
    split
    · next writer => exact ⟨writer, .keep rfl rfl rfl, .alert (.inr rfl)⟩
    · next writer => exact ⟨not_not.mp writer, .keep rfl rfl rfl, .alert (.inr rfl)⟩
  case readWait state =>
    subst r
    by_cases same : word = state
    · -- It falls asleep, but only on a word with the writer's bit.
      subst state
      have held : word ≠ 0 := by
        rintro rfl
        exact seen rfl
      rw [show futexWait word word = true from decide_eq_true rfl]
      exact ⟨trivial, .keep rfl rfl rfl, .alert (.inl held)⟩
    · rw [show futexWait word state = false from decide_eq_false same]
      exact ⟨trivial, .keep rfl rfl rfl, .alert (.inr rfl)⟩
  case readCas state =>
    cases fails with
    | true =>
      cases run
      exact ⟨trivial, .keep rfl rfl rfl, .alert (.inr rfl)⟩
    | false =>
      cases run
      by_cases same : word = state
      · subst state
        rw [show atomicCompareExchange word word (word + 1) = (true, word + 1) from if_pos rfl]
        refine ⟨trivial, .enterRead seen rfl rfl rfl rfl, .alert (.inl ?_)⟩
        -- The count was below the writer's bit, so it has not wrapped to 0.
        have small := (and_writeBit_eq_zero word).mp seen
        intro zero
        have wrapped := congrArg UInt32.toNat zero
        rw [UInt32.toNat_add, UInt32.toNat_one, UInt32.toNat_zero] at wrapped
        omega
      · rw [show atomicCompareExchange word state (state + 1) = (false, word) from if_neg same]
        exact ⟨trivial, .keep rfl rfl rfl, .alert (.inr rfl)⟩

theorem lcRwlockReadUnlock_effect (run : lcRwlockReadUnlock pc word = some r) :
    Effect pc word r := by
  cases pc <;> simp only [lcRwlockReadUnlock, reduceCtorEq, Option.some.injEq] at run
  case readSub =>
    subst r
    by_cases last : word = 1
    · subst word
      exact ⟨trivial, .leaveRead rfl rfl rfl rfl, .alert (.inr rfl)⟩
    · rw [show (if (atomicFetchSub word 1).1 = 1 then Pc.readWake else .outside) = .outside from
        if_neg last]
      refine ⟨trivial, .leaveRead rfl rfl rfl rfl, .alert (.inl ?_)⟩
      intro zero
      apply last
      calc word = word - 1 + 1 := (UInt32.sub_add_cancel word 1).symm
        _ = 0 + 1 := by rw [show word - 1 = 0 from zero]
        _ = 1 := rfl

theorem lcRwlockWriteLock_effect (seen : pc.Seen) (run : lcRwlockWriteLock pc word = some r) :
    Effect pc word r := by
  cases pc <;> simp only [lcRwlockWriteLock, reduceCtorEq, Option.some.injEq] at run <;> subst r
  case writeCas =>
    by_cases free : word = 0
    · subst word
      exact ⟨trivial, .enterWrite rfl rfl rfl rfl, .alert (.inl (by decide))⟩
    · rw [show atomicCompareExchange word 0 writeBit = (false, word) from if_neg free]
      exact ⟨free, .keep rfl rfl rfl, .alert (.inr rfl)⟩
  case writeWait expected =>
    by_cases same : word = expected
    · subst expected
      rw [show futexWait word word = true from decide_eq_true rfl]
      exact ⟨trivial, .keep rfl rfl rfl, .alert (.inl seen)⟩
    · rw [show futexWait word expected = false from decide_eq_false same]
      exact ⟨trivial, .keep rfl rfl rfl, .alert (.inr rfl)⟩

theorem lcRwlockWriteUnlock_effect (run : lcRwlockWriteUnlock pc word = some r) :
    Effect pc word r := by
  cases pc <;> simp only [lcRwlockWriteUnlock, reduceCtorEq, Option.some.injEq] at run
  case writeStore =>
    subst r
    exact ⟨trivial, .leaveWrite rfl rfl rfl rfl, .alert (.inr rfl)⟩

end Effects

/-! ### Wake-ups -/

/-- A sleeper is never forgotten: the word is not 0, so somebody will unlock, or some
awake thread is on its way. -/
def Remembered (s : State T) : Prop :=
  ∀ t, (s.pc t).asleep = true → s.state ≠ 0 ∨ ∃ u, (s.pc u).busy = true

theorem Remembered.notice {s : State T} (h : Remembered s) {t : T} {r : Pc × UInt32}
    (notice : Notice (s.pc t) s.state r.1 r.2) : Remembered (s.advance t r) := by
  intro u sleeping
  change (update s.pc t r.1 u).asleep = true at sleeping
  cases notice with
  | alert alert =>
    refine alert.imp id fun busy => ⟨t, ?_⟩
    change (update s.pc t r.1 t).busy = true
    rwa [update_self]
  | neutral calm awake word =>
    -- The actor does not fall asleep here, so the sleeper was asleep before.
    have other : u ≠ t := by
      rintro rfl
      rw [update_self, awake] at sleeping
      cases sleeping
    rw [update_of_ne other] at sleeping
    refine (h u sleeping).imp word ?_
    rintro ⟨v, busy⟩
    have still : v ≠ t := by
      rintro rfl
      rw [calm] at busy
      cases busy
    refine ⟨v, ?_⟩
    change (update s.pc t r.1 v).busy = true
    rwa [update_of_ne still]

omit [DecidableEq T] in
theorem woken_busy {pc : Pc} (asleep : pc.asleep = true) : pc.woken.busy = true := by
  cases pc <;> first | rfl | cases asleep

omit [DecidableEq T] in
theorem Pc.Seen.woken {pc : Pc} (seen : pc.Seen) : pc.woken.Seen := by
  cases pc <;> trivial

omit [DecidableEq T] in
theorem busy_awake {pc : Pc} (busy : pc.busy = true) :
    pc.InOperation ∧ pc.asleep = false := by
  cases pc <;> first | exact ⟨trivial, rfl⟩ | cases busy

/-- A wake-up of at least one leaves a busy thread behind, or nobody was asleep. -/
theorem Remembered.wake {s : State T} {t : T} {released : Finset T} {count : Nat}
    (positive : 0 < count) (awake : (s.pc t).asleep = false)
    (wake : WakeUpTo count (fun u => (s.pc u).asleep = true) released) :
    Remembered ((s.setPc t .outside).release released) := by
  have busy : ∀ u ∈ released, (((s.setPc t .outside).release released).pc u).busy = true := by
    intro u member
    have sleeper := wake.sleepers u member
    have other : u ≠ t := by
      rintro rfl
      rw [awake] at sleeper
      cases sleeper
    change (if u ∈ released then (update s.pc t .outside u).woken
      else update s.pc t .outside u).busy = true
    rw [if_pos member, update_of_ne other]
    exact woken_busy sleeper
  intro v sleeping
  right
  cases wake.enough with
  | inl full =>
    obtain ⟨u, member⟩ := Finset.card_pos.mp (full ▸ positive)
    exact ⟨u, busy u member⟩
  | inr all =>
    by_cases member : v ∈ released
    · exact ⟨v, busy v member⟩
    · change (if v ∈ released then (update s.pc t .outside v).woken
        else update s.pc t .outside v).asleep = true at sleeping
      rw [if_neg member] at sleeping
      have other : v ≠ t := by
        rintro rfl
        rw [update_self] at sleeping
        cases sleeping
      rw [update_of_ne other] at sleeping
      exact absurd (all v sleeping) member

/-! ### Every step -/

structure Invariant [Fintype T] (s : State T) : Prop where
  seen : ∀ t, (s.pc t).Seen
  sound : Sound s
  remembered : Remembered s

section Invariant

variable [Fintype T] {s s' : State T} {t : T}

omit [Fintype T] in
theorem seen_update (h : ∀ u, (s.pc u).Seen) {pc : Pc} (here : pc.Seen) (u : T) :
    (update s.pc t pc u).Seen :=
  (forall_update_iff s.pc fun _ pc => pc.Seen).mpr ⟨here, fun u _ => h u⟩ u

theorem Invariant.effect (h : Invariant s) (few : Fintype.card T < 2 ^ 31) {r : Pc × UInt32}
    (effect : Effect (s.pc t) s.state r) : Invariant (s.advance t r) :=
  ⟨seen_update h.seen effect.seen, h.sound.change few effect.change,
    h.remembered.notice effect.notice⟩

/-- A wake-up of at least one sleeper. -/
theorem Invariant.wake (h : Invariant s) (few : Fintype.card T < 2 ^ 31) {released : Finset T}
    {count : Nat} (positive : 0 < count) (awake : (s.pc t).asleep = false)
    (idle : (s.pc t).reads = false ∧ (s.pc t).writes = false)
    (wake : WakeUpTo count (fun u => (s.pc u).asleep = true) released) :
    Invariant ((s.setPc t .outside).release released) := by
  have sound : Sound (s.setPc t .outside) := h.sound.setPc few idle.1.symm idle.2.symm
  refine ⟨?_, sound.release released, Remembered.wake positive awake wake⟩
  intro u
  have outside : Pc.outside.Seen := trivial
  have before := seen_update (t := t) h.seen outside u
  change (if u ∈ released then (update s.pc t .outside u).woken
    else update s.pc t .outside u).Seen
  split
  · exact before.woken
  · exact before

theorem Invariant.step (few : Fintype.card T < 2 ^ 31) (h : Invariant s) (next : Step s s') :
    Invariant s' := by
  cases next with
  | callReadLock at_ | callWriteLock at_ =>
    exact h.effect few ⟨trivial, by rw [at_]; exact .keep rfl rfl rfl, .alert (.inr rfl)⟩
  | callReadUnlock at_ | callWriteUnlock at_ =>
    exact h.effect few ⟨trivial, by rw [at_]; exact .keep rfl rfl rfl,
      by rw [at_]; exact .neutral rfl rfl id⟩
  | readLock _ run => exact h.effect few (lcRwlockReadLock_effect (h.seen _) run)
  | readUnlock run => exact h.effect few (lcRwlockReadUnlock_effect run)
  | writeLock run => exact h.effect few (lcRwlockWriteLock_effect (h.seen _) run)
  | writeUnlock run => exact h.effect few (lcRwlockWriteUnlock_effect run)
  | wakeOne at_ wake =>
    exact h.wake few Nat.one_pos (by rw [at_]; rfl) (by rw [at_]; exact ⟨rfl, rfl⟩) wake
  | wakeAll at_ wake =>
    exact h.wake few (by decide) (by rw [at_]; rfl) (by rw [at_]; exact ⟨rfl, rfl⟩) wake
  | @spurious t at_ =>
    have holds := woken_holds (s.pc t)
    exact h.effect few
      ⟨(h.seen t).woken, .keep rfl holds.1 holds.2, .alert (.inr (woken_busy at_))⟩

theorem invariant_inductive (few : Fintype.card T < 2 ^ 31) :
    (system T).Inductive (Invariant (T := T)) where
  init s start := by
    obtain ⟨word, idle⟩ := start
    refine ⟨fun t => by rw [idle t]; trivial, .shared ?_ fun t => by rw [idle t]; rfl, ?_⟩
    · rw [word]
      exact (countOf_eq_zero.mpr fun t => by rw [idle t]; rfl).symm
    · intro t sleeping
      rw [idle t] at sleeping
      cases sleeping
  step _ _ h next := h.step few next

/-- In every reachable state a writer excludes everybody else, the low 31 bits of the
word are the number of readers, and a thread asleep on a free lock always has another
thread, itself awake, inside an operation. -/
theorem rwlock_excludes_and_strands_nobody (few : Fintype.card T < 2 ^ 31)
    (run : (system T).Reachable s) :
    (∀ t, (s.pc t).writes = true →
        (∀ u, (s.pc u).reads = false) ∧ ∀ u, (s.pc u).writes = true → u = t) ∧
      (s.state &&& 0x7fffffff).toNat = (Finset.univ.filter fun t => (s.pc t).reads = true).card ∧
      ∀ t, (s.pc t).asleep = true → s.state = 0 →
        ∃ u, u ≠ t ∧ (s.pc u).InOperation ∧ (s.pc u).asleep = false := by
  obtain ⟨_, sound, remembered⟩ := (invariant_inductive few).reachable run
  refine ⟨?_, ?_, ?_⟩
  · intro t writes
    cases sound with
    | shared _ nobody =>
      rw [nobody t] at writes
      cases writes
    | owned owner _ empty only =>
      exact ⟨countOf_eq_zero.mp empty, fun u also => (only u also).trans (only t writes).symm⟩
  · change _ = s.readers
    have bound : s.readers ≤ Fintype.card T := countOf_le _ _
    cases sound with
    | shared word _ =>
      rw [UInt32.toNat_and, show (0x7fffffff : UInt32).toNat = 2 ^ 31 - 1 from rfl,
        Nat.and_two_pow_sub_one_eq_mod, word]
      exact Nat.mod_eq_of_lt (by omega)
    | owned _ word empty =>
      rw [word, empty]
      rfl
  · intro t sleeping free
    obtain ⟨u, busy⟩ := (remembered t sleeping).resolve_left fun held => held free
    obtain ⟨inside, awake⟩ := busy_awake busy
    refine ⟨u, ?_, inside, awake⟩
    rintro rfl
    rw [awake] at sleeping
    cases sleeping

end Invariant

/-- A writer sleeps on the count of the only reader, who has left and not yet woken
it. -/
theorem rwlock_excludes_and_strands_nobody_last_reader :
    ∃ s : State Bool, (system Bool).Reachable s ∧ s.state = 0 ∧ s.pc true = .writeAsleep ∧
      ∃ u, u ≠ true ∧ (s.pc u).InOperation ∧ (s.pc u).asleep = false := by
  have start : (system Bool).Reachable ⟨0, fun _ => .outside⟩ := .init ⟨rfl, fun _ => rfl⟩
  have reads := ((start.step (.callReadLock (t := false) rfl)).step
    (.readLock (t := false) false rfl)).step (.readLock (t := false) false rfl)
  have sleeps := ((reads.step (.callWriteLock (t := true) rfl)).step
    (.writeLock (t := true) rfl)).step (.writeLock (t := true) rfl)
  have left := (sleeps.step (.callReadUnlock (t := false) rfl)).step
    (.readUnlock (t := false) rfl)
  exact ⟨_, left, rfl, rfl,
    (rwlock_excludes_and_strands_nobody (by decide) left).2.2 true rfl rfl⟩

end Lightc.Sync.Rwlock
