import Lightc.Machine.Atomic
import Lightc.Verification.Chain
import Lightc.Verification.Transition
import Mathlib.Data.Fintype.Basic

/-!
# Thread-local values

`lc_tls_set` and `lc_tls_get` keep their values in the caller's `lc_heap_local`
record. A thread finds its record through its TLS register; in a new thread the
register points at a sentinel, and `get_local` then looks for a record with the
thread's id in a hash table, walking a chain without a lock while other threads
prepend to it, and maps and publishes a new one if there is none. A record stays
in the table for ever, and the kernel may use the id of a thread that has exited
again.

A thread here is one lifetime: it is created once and exits at most once. Its
program counter names the next access to shared memory. `own` and `inherited`, and
in the state `chain` and `lastSet`, are history: no step of the code reads them.
-/

namespace Lightc.Sync.Tls

open Machine Verification Function

/-- `LC_TLS_MAX_KEYS`. -/
def maxKeys : UInt32 := 64

/-- `lc_heap_local` without the page lists; addresses are numbers and 0 is `NULL`. -/
structure LcHeapLocal where
  self : Nat
  tid : Int32
  next : Nat
  tlsSlots : UInt32 → Nat

/-- The address of the record whose `self` is `NULL`; the kernel never maps anything
there. -/
def tlsNullSentinel : Nat := 1

/-- The slot of `heap_local_table` for a thread id. -/
def slotOf (tid : Int32) : UInt32 := tid.toUInt32 % 64

inductive Call
  | set (key : UInt32) (value : Nat)
  | get (key : UInt32)
  deriving DecidableEq, Repr

def Call.key : Call → UInt32
  | .set key _ | .get key => key

/-- The next access of a thread. -/
inductive Pc
  /-- Not created yet. -/
  | unborn
  /-- Running its own code. -/
  | idle
  /-- Before the test of the key. -/
  | enter (call : Call)
  /-- `get_local`, before `tls_read`. -/
  | read (call : Call)
  /-- Before the load of the table's slot. -/
  | loadSlot (call : Call)
  /-- At the loop's test with the record reached so far. -/
  | walk (call : Call) (node : Nat)
  /-- Before the load of the record's link. -/
  | loadNext (call : Call) (node : Nat)
  /-- Before `mmap`. -/
  | map (call : Call)
  /-- Before the exchange in `lc_spinlock_acquire`. -/
  | acquire (call : Call) (node : Nat)
  /-- With the lock, before the load of the slot. -/
  | loadHead (call : Call) (node : Nat)
  /-- Before the store of the new record's link. -/
  | storeNext (call : Call) (node head : Nat)
  /-- Before the store of the slot. -/
  | publish (call : Call) (node : Nat)
  /-- Before the store in `lc_spinlock_release`. -/
  | release (call : Call) (node : Nat)
  /-- Before `tls_write`. -/
  | write (call : Call) (node : Nat)
  /-- `get_local` has returned; before the access to `slots[key]`. -/
  | access (call : Call) (node : Nat)
  /-- `lc_tls_get` has returned. -/
  | returned (key : UInt32) (value : Nat)
  | exited
  deriving DecidableEq, Repr

structure Thread where
  tid : Int32
  /-- FS or TPIDR_EL0. -/
  register : Nat
  pc : Pc
  /-- What this thread last passed to `lc_tls_set`. -/
  own : UInt32 → Option Nat
  /-- What earlier threads with the same id had last passed to it. -/
  inherited : UInt32 → Option Nat

structure State (T : Type) where
  locals : Nat → LcHeapLocal
  table : UInt32 → Nat
  lock : UInt32
  thread : T → Thread
  /-- The addresses the kernel has handed out. -/
  mapped : List Nat
  /-- The records published in a slot, the last one first. -/
  chain : UInt32 → List Nat
  /-- What was last passed to `lc_tls_set` under a thread id. -/
  lastSet : Int32 → UInt32 → Option Nat

/-- `tls_read`: the register's record through its `self` field. -/
def tlsRead {T : Type} (s : State T) (th : Thread) : Nat := (s.locals th.register).self

/-- The record `get_local` maps and fills before anybody else can see it; fresh
pages are zero. -/
def newLocal (node : Nat) (tid : Int32) : LcHeapLocal :=
  { self := node, tid := tid, next := 0, tlsSlots := fun _ => 0 }

variable {T : Type}

section Model

variable [DecidableEq T]

namespace State

@[simp] def setThread (s : State T) (t : T) (th : Thread) : State T :=
  { s with thread := update s.thread t th }

@[simp] def goto (s : State T) (t : T) (pc : Pc) : State T :=
  s.setThread t { s.thread t with pc := pc }

def setLocal (s : State T) (node : Nat) (record : LcHeapLocal) : State T :=
  { s with locals := update s.locals node record }

/-- `mmap` and the stores that fill the new record. -/
def mapLocal (s : State T) (node : Nat) (tid : Int32) : State T :=
  { s.setLocal node (newLocal node tid) with mapped := node :: s.mapped }

/-- The store of a table slot. -/
def prepend (s : State T) (slot : UInt32) (node : Nat) : State T :=
  { s with
    table := update s.table slot node
    chain := update s.chain slot (node :: s.chain slot) }

omit [DecidableEq T] in
theorem setLocal_of_ne (s : State T) {node a : Nat} (record : LcHeapLocal) (other : a ≠ node) :
    (s.setLocal node record).locals a = s.locals a :=
  update_of_ne other ..

omit [DecidableEq T] in
@[simp] theorem mem_prepend (s : State T) {slot slot' : UInt32} {node a : Nat} :
    a ∈ (s.prepend slot node).chain slot' ↔ (slot' = slot ∧ a = node) ∨ a ∈ s.chain slot' := by
  by_cases same : slot' = slot
  · subst slot'
    simp [prepend]
  · simp [prepend, same]

/-- A call of `lc_tls_set` has come back. -/
@[simp] def recordSet (s : State T) (t : T) (key : UInt32) (value : Nat) : State T :=
  let th := s.thread t
  { s with
    thread := update s.thread t
      { th with own := update th.own key (some value) }
    lastSet := update s.lastSet th.tid
      (update (s.lastSet th.tid) key (some value)) }

end State

/-- One step of `get_local`; `reply` is what `mmap` answers. -/
def getLocal (reply : Option Nat) (s : State T) (t : T) : Option (State T) :=
  let th := s.thread t
  let slot := slotOf th.tid
  match th.pc with
  | .read call =>
    let found := tlsRead s th
    some (s.goto t (if found ≠ 0 then .access call found else .loadSlot call))
  | .loadSlot call => some (s.goto t (.walk call (s.table slot)))
  | .walk call node =>
    some (s.goto t (if node = 0 then .map call
      else if (s.locals node).tid = th.tid then .write call node
      else .loadNext call node))
  | .loadNext call node => some (s.goto t (.walk call (s.locals node).next))
  | .map call =>
    match reply with
    | none => some (s.goto t (.access call 0))
    | some node => some ((s.mapLocal node th.tid).goto t (.acquire call node))
  | .acquire call node =>
    let (old, lock) := atomicExchange s.lock 1
    some ({ s with lock := lock }.goto t
      (if old ≠ 0 then .acquire call node else .loadHead call node))
  | .loadHead call node => some (s.goto t (.storeNext call node (s.table slot)))
  | .storeNext call node head =>
    some ((s.setLocal node { s.locals node with next := head }).goto t (.publish call node))
  | .publish call node => some ((s.prepend slot node).goto t (.release call node))
  | .release call node => some ({ s with lock := 0 }.goto t (.write call node))
  | .write call node =>
    some (s.setThread t { th with register := node, pc := .access call node })
  | _ => none

/-- The steps of `lc_tls_set` around `get_local`. -/
def lcTlsSet (s : State T) (t : T) : Option (State T) :=
  match (s.thread t).pc with
  | .enter (.set key value) =>
    if key ≥ maxKeys then some ((s.recordSet t key value).goto t .idle)
    else some (s.goto t (.read (.set key value)))
  | .access (.set key value) node =>
    if node = 0 then some ((s.recordSet t key value).goto t .idle)
    else
      let record := s.locals node
      let record' := { record with tlsSlots := update record.tlsSlots key value }
      some (((s.setLocal node record').recordSet t key value).goto t .idle)
  | _ => none

/-- The steps of `lc_tls_get` around `get_local`. -/
def lcTlsGet (s : State T) (t : T) : Option (State T) :=
  match (s.thread t).pc with
  | .enter (.get key) =>
    if key ≥ maxKeys then some (s.goto t (.returned key 0))
    else some (s.goto t (.read (.get key)))
  | .access (.get key) node =>
    some (s.goto t (.returned key (if node = 0 then 0 else (s.locals node).tlsSlots key)))
  | .returned _ _ => some (s.goto t .idle)
  | _ => none

/-- Created and not yet exited. -/
def Pc.live : Pc → Bool
  | .unborn | .exited => false
  | _ => true

inductive Action (T : Type)
  | create (t : T) (tid : Int32)
  | exit (t : T)
  | call (t : T) (call : Call)
  | advance (t : T) (reply : Option Nat)

/-- Waiting for `mmap`. -/
def Pc.maps : Pc → Bool
  | .map _ => true
  | _ => false

/-- What the program and the kernel may do. A new thread gets an id that no running
thread has, and `mmap` succeeds with an address it has not handed out before. -/
def Allowed (s : State T) : Action T → Prop
  | .create t tid =>
    (s.thread t).pc = .unborn ∧ ∀ u, (s.thread u).pc.live → (s.thread u).tid ≠ tid
  | .exit t | .call t _ => (s.thread t).pc = .idle
  | .advance _ (some node) => node ≠ 0 ∧ node ≠ tlsNullSentinel ∧ node ∉ s.mapped
  | .advance t none => ¬ (s.thread t).pc.maps

instance [Fintype T] (s : State T) (a : Action T) : Decidable (Allowed s a) :=
  match a with
  | .create t tid => inferInstanceAs (Decidable ((s.thread t).pc = .unborn ∧
      ∀ u, (s.thread u).pc.live → (s.thread u).tid ≠ tid))
  | .exit t | .call t _ => inferInstanceAs (Decidable ((s.thread t).pc = .idle))
  | .advance _ (some node) =>
    inferInstanceAs (Decidable (node ≠ 0 ∧ node ≠ tlsNullSentinel ∧ node ∉ s.mapped))
  | .advance t none => inferInstanceAs (Decidable (¬ (s.thread t).pc.maps))

/-- `lc_thread_create` starts a thread with its register at the sentinel. -/
def newThread (tid : Int32) (inherited : UInt32 → Option Nat) : Thread :=
  { tid := tid, register := tlsNullSentinel, pc := .idle, own := fun _ => none,
    inherited := inherited }

/-- One action. -/
def perform (s : State T) : Action T → Option (State T)
  | .create t tid => some (s.setThread t (newThread tid (s.lastSet tid)))
  | .exit t => some (s.goto t .exited)
  | .call t call => some (s.goto t (.enter call))
  | .advance t reply => (getLocal reply s t).or ((lcTlsSet s t).or (lcTlsGet s t))

/-- Everything zero and no thread created. -/
def start (T : Type) : State T where
  locals _ := { self := 0, tid := 0, next := 0, tlsSlots := fun _ => 0 }
  table _ := 0
  lock := 0
  thread _ :=
    { tid := 0, register := tlsNullSentinel, pc := .unborn,
      own := fun _ => none, inherited := fun _ => none }
  mapped := []
  chain _ := []
  lastSet _ _ := none

def system (T : Type) [DecidableEq T] : System (State T) where
  init s := s = start T
  step s s' := ∃ a, Allowed s a ∧ perform s a = some s'

end Model

/-! ### What every thread may rely on -/

/-- The record is in the table under the thread id. -/
def Published (s : State T) (tid : Int32) (node : Nat) : Prop :=
  node ∈ s.chain (slotOf tid) ∧ (s.locals node).tid = tid

/-- A walk that has reached `node` still has everything with its id ahead of it. -/
def Ahead (s : State T) (tid : Int32) (node : Nat) : Prop :=
  ∃ rest, Chain (fun a => (s.locals a).next) 0 node rest ∧ rest <:+ s.chain (slotOf tid) ∧
    ∀ a, Published s tid a → a ∈ rest

/-- A record that is mapped and not yet published. -/
structure Private (s : State T) (tid : Int32) (node : Nat) : Prop where
  mapped : node ∈ s.mapped
  hidden : ∀ slot, node ∉ s.chain slot
  self : (s.locals node).self = node
  named : (s.locals node).tid = tid
  zero : ∀ key, (s.locals node).tlsSlots key = 0
  first : ∀ a, ¬ Published s tid a

/-- What a thread's position says about the table. -/
def Position (s : State T) (th : Thread) : Prop :=
  match th.pc with
  | .walk _ node => Ahead s th.tid node
  | .loadNext _ node => Ahead s th.tid node ∧ node ≠ 0 ∧ (s.locals node).tid ≠ th.tid
  | .map _ => ∀ a, ¬ Published s th.tid a
  | .acquire _ node | .loadHead _ node => Private s th.tid node
  | .storeNext _ node head => Private s th.tid node ∧ head = s.table (slotOf th.tid)
  | .publish _ node => Private s th.tid node ∧ (s.locals node).next = s.table (slotOf th.tid)
  | .release _ node | .write _ node | .access _ node => Published s th.tid node
  | .returned key value =>
    (key < maxKeys → value = ((th.own key).or (th.inherited key)).getD 0) ∧
      (¬ key < maxKeys → value = 0)
  | _ => True

/-- The call of a thread whose key has passed the test. -/
def Pc.checked : Pc → Option Call
  | .read call | .loadSlot call | .map call => some call
  | .walk call _ | .loadNext call _ | .acquire call _ | .loadHead call _ => some call
  | .storeNext call _ _ | .publish call _ | .release call _ => some call
  | .write call _ | .access call _ => some call
  | _ => none

/-- The record a thread is about to publish. -/
@[simp] def Pc.fresh : Pc → Option Nat
  | .acquire _ node | .loadHead _ node | .storeNext _ node _ | .publish _ node => some node
  | _ => none

/-- Between acquiring and releasing the spinlock. -/
@[simp] def Pc.critical : Pc → Bool
  | .loadHead _ _ | .storeNext _ _ _ | .publish _ _ | .release _ _ => true
  | _ => false

/-- One running thread. -/
structure Sound (s : State T) (th : Thread) : Prop where
  register : th.register = tlsNullSentinel ∨ Published s th.tid th.register
  ledger : ∀ key, s.lastSet th.tid key = (th.own key).or (th.inherited key)
  checked : ∀ call, th.pc.checked = some call → call.key < maxKeys
  position : Position s th

/-- The table and the records in it. -/
structure Table (s : State T) : Prop where
  chain : ∀ slot, Chain (fun a => (s.locals a).next) 0 (s.table slot) (s.chain slot)
  mapped : ∀ slot, ∀ a ∈ s.chain slot, a ∈ s.mapped
  self : ∀ slot, ∀ a ∈ s.chain slot, (s.locals a).self = a
  unique : ∀ tid a b, Published s tid a → Published s tid b → a = b
  value : ∀ tid a, Published s tid a → ∀ key, key < maxKeys →
    (s.locals a).tlsSlots key = (s.lastSet tid key).getD 0
  unset : ∀ tid, (∀ a, ¬ Published s tid a) → ∀ key, key < maxKeys → s.lastSet tid key = none
  sentinel : (s.locals tlsNullSentinel).self = 0
  address : ∀ a ∈ s.mapped, a ≠ 0 ∧ a ≠ tlsNullSentinel

structure Inv (s : State T) : Prop where
  table : Table s
  sound : ∀ t, (s.thread t).pc.live → Sound s (s.thread t)
  distinct : ∀ t u, (s.thread t).pc.live → (s.thread u).pc.live →
    (s.thread t).tid = (s.thread u).tid → t = u
  fresh : ∀ t u a, (s.thread t).pc.fresh = some a → (s.thread u).pc.fresh = some a → t = u
  locked : ∀ t, (s.thread t).pc.critical → s.lock ≠ 0
  exclusive : ∀ t u, (s.thread t).pc.critical → (s.thread u).pc.critical → t = u

/-! ### Steps of other threads -/

/-- What the steps of others leave a thread: nothing it has seen changes, and what
is added to the table has other ids. -/
structure Kept (s s' : State T) (th : Thread) : Prop where
  node : ∀ slot, ∀ a ∈ s.chain slot,
    (s'.locals a).tid = (s.locals a).tid ∧ (s'.locals a).next = (s.locals a).next
  grown : ∀ slot, ∃ new, s'.chain slot = new ++ s.chain slot ∧
    ∀ a ∈ new, (s'.locals a).tid ≠ th.tid
  fresh : ∀ a, th.pc.fresh = some a →
    s'.locals a = s.locals a ∧ ∀ slot, a ∈ s'.chain slot → a ∈ s.chain slot
  mapped : ∀ a ∈ s.mapped, a ∈ s'.mapped
  table : th.pc.critical → s'.table = s.table
  lastSet : s'.lastSet th.tid = s.lastSet th.tid

namespace Kept

variable {s s' : State T} {th : Thread}

theorem published (h : Kept s s' th) {a : Nat} :
    Published s' th.tid a ↔ Published s th.tid a := by
  obtain ⟨new, chain, other⟩ := h.grown (slotOf th.tid)
  constructor
  · rintro ⟨member, named⟩
    rw [chain] at member
    rcases List.mem_append.mp member with added | old
    · exact absurd named (other a added)
    · exact ⟨old, (h.node _ a old).1.symm.trans named⟩
  · rintro ⟨member, named⟩
    refine ⟨?_, (h.node _ a member).1.trans named⟩
    rw [chain]
    exact List.mem_append_right new member

variable {node : Nat}

theorem ahead (h : Kept s s' th) (ahead : Ahead s th.tid node) : Ahead s' th.tid node := by
  obtain ⟨rest, linked, suffix, all⟩ := ahead
  obtain ⟨new, chain, -⟩ := h.grown (slotOf th.tid)
  refine ⟨rest, linked.congr fun a member => (h.node _ a (suffix.subset member)).2, ?_,
    fun a published => all a (h.published.mp published)⟩
  rw [chain]
  exact suffix.trans (List.suffix_append new _)

theorem hidden (h : Kept s s' th) (fresh : th.pc.fresh = some node)
    (hidden : Private s th.tid node) : Private s' th.tid node := by
  obtain ⟨same, unpublished⟩ := h.fresh node fresh
  exact
    { mapped := h.mapped node hidden.mapped
      hidden := fun slot member => hidden.hidden slot (unpublished slot member)
      self := by rw [same]; exact hidden.self
      named := by rw [same]; exact hidden.named
      zero := by rw [same]; exact hidden.zero
      first := fun a published => hidden.first a (h.published.mp published) }

theorem position (h : Kept s s' th) (position : Position s th) : Position s' th := by
  unfold Position at position ⊢
  cases pc : th.pc <;> simp only [pc] at position ⊢
  case walk => exact h.ahead position
  case loadNext call node =>
    obtain ⟨ahead, node_ne, other⟩ := position
    refine ⟨h.ahead ahead, node_ne, ?_⟩
    obtain ⟨rest, linked, suffix, -⟩ := ahead
    obtain ⟨tail, rfl, -⟩ := linked.eq_cons node_ne
    rw [(h.node _ node (suffix.subset List.mem_cons_self)).1]
    exact other
  case map => exact fun a published => position a (h.published.mp published)
  case acquire => exact h.hidden (by simp [pc]) position
  case loadHead => exact h.hidden (by simp [pc]) position
  case storeNext =>
    rw [h.table (by simp [pc])]
    exact ⟨h.hidden (by simp [pc]) position.1, position.2⟩
  case publish call node =>
    have fresh : th.pc.fresh = some node := by simp [pc]
    rw [h.table (by simp [pc]), (h.fresh node fresh).1]
    exact ⟨h.hidden fresh position.1, position.2⟩
  case release => exact h.published.mpr position
  case write => exact h.published.mpr position
  case access => exact h.published.mpr position
  case returned => exact position

theorem sound (h : Kept s s' th) (sound : Sound s th) : Sound s' th where
  register := sound.register.imp id h.published.mpr
  ledger := by rw [h.lastSet]; exact sound.ledger
  checked := sound.checked
  position := h.position sound.position

/-- A step that leaves memory and history alone. -/
theorem of_same (locals : s'.locals = s.locals) (chain : s'.chain = s.chain)
    (table : s'.table = s.table) (mapped : s'.mapped = s.mapped)
    (lastSet : s'.lastSet = s.lastSet) : Kept s s' th where
  node slot a _ := by rw [locals]; exact ⟨rfl, rfl⟩
  grown slot := ⟨[], by rw [chain]; rfl, fun a member => absurd member List.not_mem_nil⟩
  fresh a _ := ⟨by rw [locals], fun slot => by rw [chain]; exact id⟩
  mapped a := by rw [mapped]; exact id
  table _ := table
  lastSet := by rw [lastSet]

/-- A write to a record that is neither in the table nor the thread's own new one. -/
theorem of_hidden {record : LcHeapLocal} (hidden : ∀ slot, node ∉ s.chain slot)
    (other : th.pc.fresh ≠ some node) (locals : s'.locals = update s.locals node record)
    (chain : s'.chain = s.chain) (table : s'.table = s.table)
    (mapped : ∀ a ∈ s.mapped, a ∈ s'.mapped) (lastSet : s'.lastSet = s.lastSet) : Kept s s' th where
  node slot a member := by
    have : a ≠ node := by
      rintro rfl
      exact hidden slot member
    rw [locals, update_of_ne this]
    exact ⟨rfl, rfl⟩
  grown slot := ⟨[], by rw [chain]; rfl, fun a member => absurd member List.not_mem_nil⟩
  fresh a theirs := by
    have : a ≠ node := by
      rintro rfl
      exact other theirs
    rw [locals, update_of_ne this, chain]
    exact ⟨rfl, fun _ => id⟩
  mapped := mapped
  table _ := table
  lastSet := by rw [lastSet]

end Kept

/-! ### Steps and the table -/

namespace Table

variable {s s' : State T}

variable (h : Table s)
include h

/-- A step that publishes nothing. What a record is called and linked to stays, and
the values still are the ones last set. -/
theorem carry (chain : s'.chain = s.chain) (table : s'.table = s.table)
    (node : ∀ slot, ∀ a ∈ s.chain slot, (s'.locals a).self = (s.locals a).self ∧ (s'.locals a).tid
      = (s.locals a).tid ∧ (s'.locals a).next = (s.locals a).next)
    (mapped : ∀ a ∈ s.mapped, a ∈ s'.mapped)
    (value : ∀ tid a, Published s tid a → ∀ key, key < maxKeys → (s'.locals a).tlsSlots key =
      (s'.lastSet tid key).getD 0)
    (unset : ∀ tid, (∀ a, ¬ Published s tid a) → ∀ key, key < maxKeys → s'.lastSet tid key = none)
    (sentinel : (s'.locals tlsNullSentinel).self = 0)
    (address : ∀ a ∈ s'.mapped, a ≠ 0 ∧ a ≠ tlsNullSentinel) : Table s' := by
  have published : ∀ tid a, Published s' tid a ↔ Published s tid a := by
    intro tid a
    simp only [Published, chain]
    exact and_congr_right fun member => by rw [(node _ a member).2.1]
  constructor
  · intro slot
    rw [chain, table]
    exact (h.chain slot).congr fun a member => (node slot a member).2.2
  · intro slot a member
    rw [chain] at member
    exact mapped a (h.mapped slot a member)
  · intro slot a member
    rw [chain] at member
    rw [(node slot a member).1]
    exact h.self slot a member
  · simp only [published]
    exact h.unique
  · simp only [published]
    exact value
  · simp only [published]
    exact unset
  · exact sentinel
  · exact address

/-- A step that leaves memory and history alone. -/
theorem congr (locals : s'.locals = s.locals) (chain : s'.chain = s.chain)
    (table : s'.table = s.table) (mapped : s'.mapped = s.mapped)
    (lastSet : s'.lastSet = s.lastSet) : Table s' := by
  apply h.carry chain table
  · rw [locals]
    exact fun _ _ _ => ⟨rfl, rfl, rfl⟩
  · rw [mapped]
    exact fun _ => id
  · rw [locals, lastSet]
    exact h.value
  · rw [lastSet]
    exact h.unset
  · rw [locals]
    exact h.sentinel
  · rw [mapped]
    exact h.address

variable {node : Nat}

/-- Writing to a record nobody can see. -/
theorem setLocal (hidden : ∀ slot, node ∉ s.chain slot)
    (address : node ≠ 0 ∧ node ≠ tlsNullSentinel) (record : LcHeapLocal)
    (locals : s'.locals = update s.locals node record) (chain : s'.chain = s.chain)
    (table : s'.table = s.table) (mapped : ∀ a, a ∈ s'.mapped ↔ a = node ∨ a ∈ s.mapped)
    (lastSet : s'.lastSet = s.lastSet) : Table s' := by
  have same : ∀ slot, ∀ a ∈ s.chain slot, s'.locals a = s.locals a := by
    intro slot a member
    rw [locals, update_of_ne]
    rintro rfl
    exact hidden slot member
  apply h.carry chain table
  · intro slot a member
    rw [same slot a member]
    exact ⟨rfl, rfl, rfl⟩
  · exact fun a old => (mapped a).mpr (.inr old)
  · intro tid a there
    rw [same _ a there.1, lastSet]
    exact h.value tid a there
  · rw [lastSet]
    exact h.unset
  · rw [locals, update_of_ne (Ne.symm address.2)]
    exact h.sentinel
  · intro a member
    rcases (mapped a).mp member with rfl | old
    · exact address
    · exact h.address a old

variable {tid : Int32}

/-- Publishing the first record with an id. -/
theorem publish (hidden : Private s tid node) (next : (s.locals node).next = s.table (slotOf tid)) :
    Table (s.prepend (slotOf tid) node) := by
  have published : ∀ tid' a, Published (s.prepend (slotOf tid) node) tid' a ↔
      (tid' = tid ∧ a = node) ∨ Published s tid' a := by
    intro tid' a
    constructor
    · rintro ⟨member, named⟩
      rcases s.mem_prepend.mp member with ⟨-, rfl⟩ | old
      · exact .inl ⟨named.symm.trans hidden.named, rfl⟩
      · exact .inr ⟨old, named⟩
    · rintro (⟨rfl, rfl⟩ | ⟨old, named⟩)
      · exact ⟨s.mem_prepend.mpr (.inl ⟨rfl, rfl⟩), hidden.named⟩
      · exact ⟨s.mem_prepend.mpr (.inr old), named⟩
  constructor
  · intro slot
    by_cases same : slot = slotOf tid
    · subst slot
      simp only [State.prepend, update_self]
      refine .cons (h.address node hidden.mapped).1 ?_
      rw [next]
      exact h.chain _
    · simp only [State.prepend, update_of_ne same]
      exact h.chain slot
  · intro slot a member
    rcases s.mem_prepend.mp member with ⟨-, rfl⟩ | old
    · exact hidden.mapped
    · exact h.mapped slot a old
  · intro slot a member
    rcases s.mem_prepend.mp member with ⟨-, rfl⟩ | old
    · exact hidden.self
    · exact h.self slot a old
  · intro tid' a b ha hb
    rcases (published tid' a).mp ha with ⟨rfl, rfl⟩ | olda
    · exact ((published _ b).mp hb).elim (fun same => same.2.symm)
        fun oldb => absurd oldb (hidden.first b)
    · rcases (published tid' b).mp hb with ⟨rfl, rfl⟩ | oldb
      · exact absurd olda (hidden.first a)
      · exact h.unique tid' a b olda oldb
  · intro tid' a there key valid
    rcases (published tid' a).mp there with ⟨rfl, rfl⟩ | old
    · have never : s.lastSet tid' key = none := h.unset _ hidden.first key valid
      exact (hidden.zero key).trans (by simp [State.prepend, never])
    · exact h.value tid' a old key valid
  · intro tid' none key valid
    exact h.unset tid' (fun a old => none a ((published tid' a).mpr (.inr old))) key valid
  · exact h.sentinel
  · exact h.address

/-- Storing a value in a published record. -/
theorem set (there : Published s tid node) (key : UInt32) (value : Nat)
    (locals : s'.locals = update s.locals node { s.locals node with
      tlsSlots := update (s.locals node).tlsSlots key value })
    (chain : s'.chain = s.chain) (table : s'.table = s.table) (mapped : s'.mapped = s.mapped)
    (lastSet : s'.lastSet = update s.lastSet tid (update (s.lastSet tid) key (some value))) :
    Table s' := by
  have same : ∀ a, (s'.locals a).self = (s.locals a).self ∧
      (s'.locals a).tid = (s.locals a).tid ∧ (s'.locals a).next = (s.locals a).next := by
    intro a
    rw [locals]
    by_cases here : a = node
    · subst a
      rw [update_self]
      exact ⟨rfl, rfl, rfl⟩
    · rw [update_of_ne here]
      exact ⟨rfl, rfl, rfl⟩
  apply h.carry chain table
  · exact fun _ a _ => same a
  · rw [mapped]
    exact fun _ => id
  · intro tid' a there' key' valid
    rw [lastSet]
    by_cases id : tid' = tid
    · subst tid'
      have : a = node := h.unique tid a node there' there
      subst a
      rw [locals, update_self, update_self]
      by_cases keys : key' = key
      · subst key'
        simp
      · dsimp only
        rw [update_of_ne keys, update_of_ne keys]
        exact h.value tid node there key' valid
    · have other : a ≠ node := by
        rintro rfl
        exact id (there'.2.symm.trans there.2)
      rw [locals, update_of_ne other, update_of_ne id]
      exact h.value tid' a there' key' valid
  · intro tid' none
    have id : tid' ≠ tid := by
      rintro rfl
      exact none node there
    rw [lastSet, update_of_ne id]
    exact h.unset tid' none
  · rw [(same _).1]
    exact h.sentinel
  · rw [mapped]
    exact h.address

/-- A refused key: only the history changes. -/
theorem refuse {key : UInt32} (invalid : ¬ key < maxKeys) (value : Nat)
    (locals : s'.locals = s.locals) (chain : s'.chain = s.chain) (table : s'.table = s.table)
    (mapped : s'.mapped = s.mapped)
    (lastSet : s'.lastSet = update s.lastSet tid (update (s.lastSet tid) key (some value))) :
    Table s' := by
  have same : ∀ tid' key', key' < maxKeys → s'.lastSet tid' key' = s.lastSet tid' key' := by
    intro tid' key' valid
    rw [lastSet]
    by_cases id : tid' = tid
    · subst tid'
      rw [update_self, update_of_ne]
      rintro rfl
      exact invalid valid
    · rw [update_of_ne id]
  apply h.carry chain table
  · rw [locals]
    exact fun _ _ _ => ⟨rfl, rfl, rfl⟩
  · rw [mapped]
    exact fun _ => id
  · intro tid' a there key' valid
    rw [same _ _ valid, locals]
    exact h.value tid' a there key' valid
  · intro tid' none key' valid
    rw [same _ _ valid]
    exact h.unset tid' none key' valid
  · rw [locals]
    exact h.sentinel
  · rw [mapped]
    exact h.address

end Table

/-! ### One step of one thread -/

/-- At most one party satisfies `P`. If only one of them changes, it is enough that it does
not join another one. -/
theorem unique_of_step {α : Type} {P : α → Prop} {f g : T → α} {t : T}
    (others : ∀ u, u ≠ t → g u = f u) (mine : P (g t) → ∀ u, u ≠ t → ¬ P (f u))
    (before : ∀ u v, P (f u) → P (f v) → u = v) (u v : T) (hu : P (g u)) (hv : P (g v)) :
    u = v := by
  by_contra ne
  by_cases ut : u = t
  · subst u
    exact mine hu v (Ne.symm ne) (others v (Ne.symm ne) ▸ hv)
  · have theirs : P (f u) := others u ut ▸ hu
    by_cases vt : v = t
    · subst v
      exact mine hv u ut theirs
    · exact ne (before u v theirs (others v vt ▸ hv))

namespace Inv

variable {s s' : State T} {t : T}

variable (h : Inv s)
include h

/-- A step of one thread: its own facts, and that the others notice nothing. -/
theorem advance (others : ∀ u, u ≠ t → s'.thread u = s.thread u)
    (ids : ∀ u, u ≠ t → (s.thread u).pc.live → (s.thread u).tid ≠ (s'.thread t).tid)
    (table : Table s') (sound : (s'.thread t).pc.live → Sound s' (s'.thread t))
    (kept : ∀ u, u ≠ t → (s.thread u).pc.live → Kept s s' (s.thread u))
    (fresh : ∀ a, (s'.thread t).pc.fresh = some a → ∀ u, u ≠ t → (s.thread u).pc.fresh ≠ some a)
    (locked : ∀ u, u ≠ t → (s.thread u).pc.critical → s'.lock ≠ 0)
    (mine : (s'.thread t).pc.critical → s'.lock ≠ 0 ∧ ∀ u, u ≠ t → ¬ (s.thread u).pc.critical) :
    Inv s' where
  table := table
  sound u alive := by
    by_cases same : u = t
    · subst u
      exact sound alive
    · rw [others u same] at alive ⊢
      exact (kept u same alive).sound (h.sound u alive)
  distinct u v hu hv same :=
    unique_of_step (P := fun th => th.pc.live ∧ th.tid = (s'.thread v).tid) others
      (fun mine u other theirs => ids u other theirs.1 (theirs.2.trans mine.2.symm))
      (fun u v hu hv => h.distinct u v hu.1 hv.1 (hu.2.trans hv.2.symm)) u v ⟨hu, same⟩ ⟨hv, rfl⟩
  fresh u v a :=
    unique_of_step (P := fun th => th.pc.fresh = some a) others (fresh a) (fun u v => h.fresh u v a)
      u v
  locked u hu := by
    by_cases ut : u = t
    · subst u
      exact (mine hu).1
    · rw [others u ut] at hu
      exact locked u ut hu
  exclusive :=
    unique_of_step (P := fun th => th.pc.critical) others (fun now => (mine now).2) h.exclusive

/-- The record a thread is about to publish is its own. -/
theorem private_of_fresh {a : Nat} (fresh : (s.thread t).pc.fresh = some a) :
    Private s (s.thread t).tid a := by
  cases pc : (s.thread t).pc <;> rw [pc] at fresh <;> try contradiction
  all_goals
    have position := (h.sound t (by rw [pc]; rfl)).position
    rw [Position, pc] at position
    cases fresh
  · exact position
  · exact position
  · exact position.1
  · exact position.1

/-- What a thread knows where it stands. -/
theorem position_at {pc : Pc} (at_ : (s.thread t).pc = pc) (live : pc.live) :
    Position s { s.thread t with pc := pc } := by
  have sound := (h.sound t (by rw [at_]; exact live)).position
  subst at_
  exact sound

variable {call : Call}

theorem key_lt {pc : Pc} (at_ : (s.thread t).pc = pc) (live : pc.live)
    (checked : pc.checked = some call) : call.key < maxKeys := by
  subst at_
  exact (h.sound t live).checked call checked

/-- Between acquiring and releasing, a thread is alone. -/
theorem alone (critical : (s.thread t).pc.critical) :
    s.lock ≠ 0 ∧ ∀ u, u ≠ t → ¬ (s.thread u).pc.critical :=
  ⟨h.locked t critical, fun u other also => other (h.exclusive u t also critical)⟩

variable [DecidableEq T]

/-- The same for a change of memory followed by a change of the thread itself. -/
theorem move {r : State T} (live : (s.thread t).pc.live) (threads : r.thread = s.thread)
    (th : Thread) (tid : th.tid = (s.thread t).tid) (table : Table r) (sound : Sound r th)
    (kept : ∀ u, u ≠ t → (s.thread u).pc.live → Kept s r (s.thread u))
    (fresh : ∀ a, th.pc.fresh = some a → ∀ u, u ≠ t → (s.thread u).pc.fresh ≠ some a)
    (locked : ∀ u, u ≠ t → (s.thread u).pc.critical → r.lock ≠ 0)
    (mine : th.pc.critical → r.lock ≠ 0 ∧ ∀ u, u ≠ t → ¬ (s.thread u).pc.critical) :
    Inv (r.setThread t th) := by
  have here : (r.setThread t th).thread t = th := update_self ..
  have same : ∀ other, Kept r (r.setThread t th) other :=
    fun _ => Kept.of_same rfl rfl rfl rfl rfl
  apply h.advance (t := t)
  · intro u other
    rw [← threads]
    exact update_of_ne other ..
  · intro u other alive
    rw [here, tid]
    exact fun ids => other (h.distinct u t alive live ids)
  · exact table.congr rfl rfl rfl rfl rfl
  · rw [here]
    exact fun _ => (same th).sound sound
  · intro u other alive
    have kept := kept u other alive
    exact { kept with }
  · rw [here]
    exact fresh
  · exact locked
  · rw [here]
    exact mine

/-- A step that only moves the thread on. -/
theorem goto (live : (s.thread t).pc.live) (pc : Pc)
    (checked : ∀ call, pc.checked = some call → call.key < maxKeys)
    (position : Position s { s.thread t with pc := pc })
    (fresh : ∀ a, pc.fresh = some a → (s.thread t).pc.fresh = some a)
    (critical : pc.critical → (s.thread t).pc.critical) : Inv (s.goto t pc) := by
  have before := h.sound t live
  apply h.move live rfl { s.thread t with pc := pc } rfl h.table
  · exact ⟨before.register, before.ledger, checked, position⟩
  · exact fun u _ _ => Kept.of_same rfl rfl rfl rfl rfl
  · exact fun a now u other theirs => other (h.fresh u t a theirs (fresh a now))
  · exact fun u _ => h.locked u
  · exact fun now => h.alone (critical now)

/-- A change of memory inside a call whose key has passed the test. -/
theorem changes {r : State T} {pc pc' : Pc} (at_ : (s.thread t).pc = pc) (live : pc.live)
    (checked : pc.checked = some call) (checks : pc'.checked = some call)
    (threads : r.thread = s.thread) (lastSet : r.lastSet = s.lastSet) (table : Table r)
    (register : Published s (s.thread t).tid (s.thread t).register →
      Published r (s.thread t).tid (s.thread t).register)
    (position : Position r { s.thread t with pc := pc' })
    (kept : ∀ u, u ≠ t → (s.thread u).pc.live → Kept s r (s.thread u))
    (fresh : ∀ a, pc'.fresh = some a → ∀ u, u ≠ t → (s.thread u).pc.fresh ≠ some a)
    (locked : ∀ u, u ≠ t → (s.thread u).pc.critical → r.lock ≠ 0)
    (mine : pc'.critical → r.lock ≠ 0 ∧ ∀ u, u ≠ t → ¬ (s.thread u).pc.critical) :
    Inv (r.goto t pc') := by
  have valid := h.key_lt at_ live checked
  have before := h.sound t (at_ ▸ live)
  rw [State.goto, threads]
  refine h.move (at_ ▸ live) threads _ rfl table
    ⟨before.register.imp id register, ?_, fun call' same => ?_, position⟩ kept fresh locked mine
  · rw [lastSet]
    exact before.ledger
  · cases checks.symm.trans same
    exact valid

/-- A step inside a call whose key has passed the test. -/
theorem goesOn {pc pc' : Pc} (at_ : (s.thread t).pc = pc) (live : pc.live)
    (checked : pc.checked = some call) (checks : pc'.checked = some call)
    (position : Position s { s.thread t with pc := pc' })
    (fresh : ∀ a, pc'.fresh = some a → pc.fresh = some a) (critical : pc'.critical → pc.critical) :
    Inv (s.goto t pc') := by
  subst at_
  exact h.changes rfl live checked checks rfl rfl h.table id position
    (fun u _ _ => Kept.of_same rfl rfl rfl rfl rfl)
    (fun a now u other theirs => other (h.fresh u t a theirs (fresh a now)))
    (fun u _ => h.locked u) fun now => h.alone (critical now)

/-- The fast path: the register never holds another thread's record. -/
theorem read (at_ : (s.thread t).pc = .read call) :
    Inv (s.goto t (if tlsRead s (s.thread t) ≠ 0
      then .access call (tlsRead s (s.thread t)) else .loadSlot call)) := by
  by_cases null : tlsRead s (s.thread t) = 0
  · rw [if_neg (not_not.mpr null)]
    exact h.goesOn at_ rfl rfl rfl trivial nofun nofun
  · rw [if_pos null]
    refine h.goesOn at_ rfl rfl rfl ?_ nofun nofun
    rcases (h.sound t (by rw [at_]; rfl)).register with sentinel | published
    · rw [tlsRead, sentinel] at null
      exact absurd h.table.sentinel null
    · have self : tlsRead s (s.thread t) = (s.thread t).register :=
        h.table.self _ _ published.1
      rw [self]
      exact published

theorem loadSlot (at_ : (s.thread t).pc = .loadSlot call) :
    Inv (s.goto t (.walk call (s.table (slotOf (s.thread t).tid)))) := by
  refine h.goesOn at_ rfl rfl rfl ?_ nofun nofun
  exact ⟨_, h.table.chain _, List.suffix_rfl, fun a published => published.1⟩

variable {node : Nat}

theorem walk (at_ : (s.thread t).pc = .walk call node) :
    Inv (s.goto t (if node = 0 then .map call
      else if (s.locals node).tid = (s.thread t).tid then .write call node
      else .loadNext call node)) := by
  have ahead : Ahead s (s.thread t).tid node := h.position_at at_ rfl
  obtain ⟨rest, linked, suffix, all⟩ := ahead
  split
  · next null =>
    refine h.goesOn at_ rfl rfl rfl ?_ nofun nofun
    intro a published
    have member := all a published
    subst null
    cases linked with
    | nil => exact absurd member List.not_mem_nil
    | cons node_ne => exact node_ne rfl
  · next null =>
    split
    · next named =>
      refine h.goesOn at_ rfl rfl rfl ?_ nofun nofun
      obtain ⟨tail, rfl, -⟩ := linked.eq_cons null
      exact ⟨suffix.subset List.mem_cons_self, named⟩
    · next named =>
      refine h.goesOn at_ rfl rfl rfl ?_ nofun nofun
      exact ⟨⟨rest, linked, suffix, all⟩, null, named⟩

theorem loadNext (at_ : (s.thread t).pc = .loadNext call node) :
    Inv (s.goto t (.walk call (s.locals node).next)) := by
  have position : Ahead s (s.thread t).tid node ∧ node ≠ 0 ∧
    (s.locals node).tid ≠ (s.thread t).tid := h.position_at at_ rfl
  obtain ⟨⟨rest, linked, suffix, all⟩, node_ne, other⟩ := position
  obtain ⟨tail, rfl, behind⟩ := linked.eq_cons node_ne
  refine h.goesOn at_ rfl rfl rfl ?_ nofun nofun
  refine ⟨tail, behind, (List.suffix_cons node tail).trans suffix, ?_⟩
  intro a published
  refine (List.mem_cons.mp (all a published)).resolve_left ?_
  rintro rfl
  exact other published.2

/-- A record is mapped that nobody else has or can see. -/
theorem map (at_ : (s.thread t).pc = .map call) (address : node ≠ 0 ∧ node ≠ tlsNullSentinel)
    (unused : node ∉ s.mapped) :
    Inv ((s.mapLocal node (s.thread t).tid).goto t (.acquire call node)) := by
  have first : ∀ a, ¬ Published s (s.thread t).tid a := h.position_at at_ rfl
  have hidden : ∀ slot, node ∉ s.chain slot :=
    fun slot member => unused (h.table.mapped slot node member)
  have theirs : ∀ u, (s.thread u).pc.fresh ≠ some node :=
    fun u fresh => unused (h.private_of_fresh fresh).mapped
  have kept : ∀ u, Kept s (s.mapLocal node (s.thread t).tid) (s.thread u) := fun u =>
    Kept.of_hidden hidden (theirs u) rfl rfl rfl (fun _ => List.mem_cons_of_mem _) rfl
  have record : (s.mapLocal node (s.thread t).tid).locals node = newLocal node (s.thread t).tid :=
    update_self ..
  refine h.changes at_ rfl rfl rfl rfl rfl
    (h.table.setLocal hidden address _ rfl rfl rfl (fun _ => List.mem_cons) rfl)
    (kept t).published.mpr ?_ (fun u _ _ => kept u) ?_ (fun u _ => h.locked u) nofun
  · exact
      { mapped := List.mem_cons_self
        hidden := hidden
        self := by rw [record]; rfl
        named := by rw [record]; rfl
        zero := by rw [record]; exact fun _ => rfl
        first := fun a published => first a ((kept t).published.mp published) }
  · rintro _ ⟨⟩ u -
    exact theirs u

theorem acquire (at_ : (s.thread t).pc = .acquire call node) :
    Inv (({ s with lock := 1 } : State T).goto t
      (if s.lock ≠ 0 then .acquire call node else .loadHead call node)) := by
  have hidden : Private s (s.thread t).tid node := h.position_at at_ rfl
  have mine : (s.thread t).pc.fresh = some node := by rw [at_]; rfl
  have kept : ∀ th, Kept s { s with lock := 1 } th := fun _ => Kept.of_same rfl rfl rfl rfl rfl
  have taken : (1 : UInt32) ≠ 0 := by decide
  have move : ∀ pc : Pc, pc.checked = some call → pc.fresh = some node →
      Position { s with lock := 1 } { s.thread t with pc := pc } →
      (pc.critical → ∀ u, u ≠ t → ¬ (s.thread u).pc.critical) →
      Inv (({ s with lock := 1 } : State T).goto t pc) := by
    intro pc checked fresh position critical
    refine h.changes at_ rfl rfl checked rfl rfl (h.table.congr rfl rfl rfl rfl rfl)
      (kept _).published.mpr position (fun _ _ _ => kept _) ?_ (fun _ _ _ => taken)
      fun now => ⟨taken, critical now⟩
    intro a same u other theirs
    cases fresh.symm.trans same
    exact other (h.fresh u t node theirs mine)
  by_cases free : s.lock = 0
  · rw [if_neg (not_not.mpr free)]
    refine move _ rfl rfl ((kept (s.thread t)).hidden mine hidden) ?_
    exact fun _ u _ theirs => h.locked u theirs free
  · rw [if_pos free]
    exact move _ rfl rfl ((kept (s.thread t)).hidden mine hidden) nofun

theorem loadHead (at_ : (s.thread t).pc = .loadHead call node) :
    Inv (s.goto t (.storeNext call node (s.table (slotOf (s.thread t).tid)))) := by
  have hidden : Private s (s.thread t).tid node := h.position_at at_ rfl
  exact h.goesOn at_ rfl rfl rfl ⟨hidden, rfl⟩ (fun _ => id) id

/-- The new record's link is written while nobody else can change the slot. -/
theorem storeNext {head : Nat} (at_ : (s.thread t).pc = .storeNext call node head) :
    Inv ((s.setLocal node { s.locals node with next := head }).goto t (.publish call node)) := by
  have position : Private s (s.thread t).tid node ∧ head = s.table (slotOf (s.thread t).tid) :=
    h.position_at at_ rfl
  obtain ⟨hidden, loaded⟩ := position
  have mine : (s.thread t).pc.fresh = some node := by rw [at_]; rfl
  have critical : (s.thread t).pc.critical := by rw [at_]; rfl
  have theirs : ∀ u, u ≠ t → (s.thread u).pc.fresh ≠ some node :=
    fun u other fresh => other (h.fresh u t node fresh mine)
  set s₁ := s.setLocal node { s.locals node with next := head } with s₁_eq
  have record : s₁.locals node = { s.locals node with next := head } := update_self ..
  have published : ∀ a, Published s₁ (s.thread t).tid a → Published s (s.thread t).tid a := by
    rintro a ⟨member, named⟩
    have other : a ≠ node := by
      rintro rfl
      exact hidden.hidden _ member
    rw [s₁_eq, s.setLocal_of_ne _ other] at named
    exact ⟨member, named⟩
  refine h.changes at_ rfl rfl rfl rfl rfl ?_ (fun there => absurd there (hidden.first _)) ⟨?_, ?_⟩
    ?_ ?_ (fun u _ => h.locked u) fun _ => h.alone critical
  · refine h.table.setLocal hidden.hidden (h.table.address node hidden.mapped) _ rfl rfl rfl ?_ rfl
    exact fun a => ⟨.inr, fun member => member.elim (fun same => same ▸ hidden.mapped) id⟩
  · exact
      { mapped := hidden.mapped
        hidden := hidden.hidden
        self := by rw [record]; exact hidden.self
        named := by rw [record]; exact hidden.named
        zero := by rw [record]; exact hidden.zero
        first := fun a there => hidden.first a (published a there) }
  · dsimp only
    rw [record]
    exact loaded
  · exact fun u other _ =>
      Kept.of_hidden hidden.hidden (theirs u other) rfl rfl rfl (fun _ => id) rfl
  · rintro a ⟨⟩ u other
    exact theirs u other

/-- The new record becomes visible; every other running thread has another id. -/
theorem publish (at_ : (s.thread t).pc = .publish call node) :
    Inv ((s.prepend (slotOf (s.thread t).tid) node).goto t (.release call node)) := by
  have live : (s.thread t).pc.live := by rw [at_]; rfl
  have position : Private s (s.thread t).tid node ∧
    (s.locals node).next = s.table (slotOf (s.thread t).tid) := h.position_at at_ rfl
  obtain ⟨hidden, linked⟩ := position
  have mine : (s.thread t).pc.fresh = some node := by rw [at_]; rfl
  have critical : (s.thread t).pc.critical := by rw [at_]; rfl
  refine h.changes at_ rfl rfl rfl rfl rfl (h.table.publish hidden linked)
    (fun there => absurd there (hidden.first _))
    ⟨s.mem_prepend.mpr (.inl ⟨rfl, rfl⟩), hidden.named⟩ ?_ nofun (fun u _ => h.locked u)
    fun _ => h.alone critical
  intro u other alive
  have ids : (s.thread t).tid ≠ (s.thread u).tid :=
    fun same => other (h.distinct t u live alive same).symm
  refine ⟨fun _ _ _ => ⟨rfl, rfl⟩, ?_, ?_, fun _ => id, ?_, rfl⟩
  · intro slot'
    by_cases same : slot' = slotOf (s.thread t).tid
    · subst slot'
      refine ⟨[node], update_self .., ?_⟩
      intro a member
      rw [List.mem_singleton.mp member]
      exact fun named => ids (hidden.named.symm.trans named)
    · exact ⟨[], update_of_ne same .., fun a member => absurd member List.not_mem_nil⟩
  · intro a theirs
    refine ⟨rfl, fun slot' member => (s.mem_prepend.mp member).resolve_left ?_⟩
    rintro ⟨-, rfl⟩
    exact other (h.fresh u t a theirs mine)
  · exact fun also => absurd (h.exclusive u t also critical) other

theorem release (at_ : (s.thread t).pc = .release call node) :
    Inv (({ s with lock := 0 } : State T).goto t (.write call node)) := by
  have there : Published s (s.thread t).tid node := h.position_at at_ rfl
  have critical : (s.thread t).pc.critical := by rw [at_]; rfl
  have kept : ∀ th, Kept s { s with lock := 0 } th := fun _ => Kept.of_same rfl rfl rfl rfl rfl
  exact h.changes at_ rfl rfl rfl rfl rfl (h.table.congr rfl rfl rfl rfl rfl)
    (kept _).published.mpr ((kept (s.thread t)).published.mpr there) (fun _ _ _ => kept _) nofun
    (fun u other also => absurd (h.exclusive u t also critical) other) nofun

theorem write (at_ : (s.thread t).pc = .write call node) :
    Inv (s.setThread t { s.thread t with register := node, pc := .access call node }) := by
  have live : (s.thread t).pc.live := by rw [at_]; rfl
  have valid := h.key_lt at_ rfl rfl
  have there : Published s (s.thread t).tid node := h.position_at at_ rfl
  have before := h.sound t live
  refine h.move live rfl _ rfl h.table ?_ ?_ nofun (fun u _ => h.locked u) nofun
  · exact ⟨.inr there, before.ledger, by rintro _ ⟨⟩; exact valid, there⟩
  · exact fun u _ _ => Kept.of_same rfl rfl rfl rfl rfl

/-- Every step of `get_local`. -/
theorem getLocal {reply : Option Nat} (allowed : Allowed s (.advance t reply))
    (step : getLocal reply s t = some s') : Inv s' := by
  unfold Tls.getLocal at step
  cases at_ : (s.thread t).pc <;> simp only [at_, reduceCtorEq, Option.some.injEq] at step
  case read => exact step ▸ h.read at_
  case loadSlot => exact step ▸ h.loadSlot at_
  case walk => exact step ▸ h.walk at_
  case loadNext => exact step ▸ h.loadNext at_
  case map call =>
    cases reply with
    | none => exact absurd (by rw [at_]; rfl) allowed
    | some node =>
      cases step
      exact h.map at_ ⟨allowed.1, allowed.2.1⟩ allowed.2.2
  case acquire => exact step ▸ h.acquire at_
  case loadHead => exact step ▸ h.loadHead at_
  case storeNext => exact step ▸ h.storeNext at_
  case publish => exact step ▸ h.publish at_
  case release => exact step ▸ h.release at_
  case write => exact step ▸ h.write at_

omit h in
/-- The history a completed `lc_tls_set` leaves: the thread's own entry and the one
of its id change together. -/
theorem ledger_recordSet (before : ∀ key, s.lastSet (s.thread t).tid key =
      ((s.thread t).own key).or ((s.thread t).inherited key)) (key : UInt32) (value : Nat) :
    ∀ key', (s.recordSet t key value).lastSet (s.thread t).tid key' =
      (update (s.thread t).own key (some value) key').or
        ((s.thread t).inherited key') := by
  intro key'
  by_cases same : key' = key
  · subst key'
    simp
  · simp [same, before]

/-- A call of `lc_tls_set` that has come back, whether it stored the value or not. -/
theorem recorded {s₁ : State T} {key : UInt32} {value : Nat} (live : (s.thread t).pc.live)
    (threads : s₁.thread = s.thread) (lock : s₁.lock = s.lock) (lastSet : s₁.lastSet = s.lastSet)
    (table : Table (s₁.recordSet t key value))
    (register : (s.thread t).register = tlsNullSentinel ∨
      Published s₁ (s.thread t).tid (s.thread t).register)
    (kept : ∀ u, u ≠ t → (s.thread u).pc.live → Kept s s₁ (s.thread u)) :
    Inv ((s₁.recordSet t key value).goto t .idle) := by
  have before := h.sound t live
  refine h.advance (t := t) ?_ ?_ (table.congr rfl rfl rfl rfl rfl) ?_ ?_ ?_ ?_ ?_
  · intro u other
    simp [other, threads]
  · intro u other alive
    have tid : (((s₁.recordSet t key value).goto t .idle).thread t).tid = (s.thread t).tid := by
      simp [threads]
    rw [tid]
    exact fun ids => other (h.distinct u t alive live ids)
  · intro _
    have here : ((s₁.recordSet t key value).goto t .idle).thread t =
        { s.thread t with
          pc := .idle, own := update (s.thread t).own key (some value) } := by
      simp [threads]
    rw [here]
    refine ⟨register, ?_, nofun, trivial⟩
    have ledger := ledger_recordSet (s := s₁) (t := t) (by
      rw [threads, lastSet]
      exact before.ledger) key value
    rw [threads] at ledger
    exact ledger
  · intro u other alive
    have kept := kept u other alive
    have ids : (s.thread u).tid ≠ (s.thread t).tid :=
      fun same => other (h.distinct u t alive live same)
    refine ⟨kept.node, kept.grown, kept.fresh, kept.mapped, kept.table, ?_⟩
    rw [← kept.lastSet]
    simp [threads, ids]
  · intro a fresh
    simp at fresh
  · intro u _ critical
    have := h.locked u critical
    rwa [← lock] at this
  · intro critical
    simp at critical

theorem lcTlsSet (step : lcTlsSet s t = some s') : Inv s' := by
  unfold Tls.lcTlsSet at step
  cases at_ : (s.thread t).pc <;> simp only [at_, reduceCtorEq] at step
  case enter call =>
    have live : (s.thread t).pc.live := by rw [at_]; rfl
    cases call <;> simp only [reduceCtorEq] at step
    case set key value =>
      split at step
      · next invalid =>
        cases step
        refine h.recorded live rfl rfl rfl ?_ (h.sound t live).register
          (fun u _ _ => Kept.of_same rfl rfl rfl rfl rfl)
        exact h.table.refuse (UInt32.not_lt.mpr invalid) value rfl rfl rfl rfl rfl
      · next invalid =>
        cases step
        exact h.goto live _ (by rintro _ ⟨⟩; exact UInt32.not_le.mp invalid) trivial nofun nofun
  case access call node =>
    have live : (s.thread t).pc.live := by rw [at_]; rfl
    have there : Published s (s.thread t).tid node := h.position_at at_ rfl
    have node_ne : node ≠ 0 := (h.table.address node (h.table.mapped _ node there.1)).1
    cases call <;> simp only [reduceCtorEq] at step
    case set key value =>
      rw [if_neg node_ne] at step
      cases step
      have same : ∀ a, let record := (s.setLocal node { s.locals node with
          tlsSlots := update (s.locals node).tlsSlots key value }).locals a
          record.tid = (s.locals a).tid ∧ record.next = (s.locals a).next := by
        intro a
        by_cases here : a = node
        · subst a
          simp [State.setLocal]
        · rw [s.setLocal_of_ne _ here]
          exact ⟨rfl, rfl⟩
      refine h.recorded live rfl rfl rfl ?_ ?_ ?_
      · exact h.table.set there key value rfl rfl rfl rfl rfl
      · exact (h.sound t live).register.imp id fun there => ⟨there.1, (same _).1.trans there.2⟩
      · intro u other alive
        refine ⟨fun _ a _ => same a, ?_, ?_, fun _ => id, fun _ => rfl, rfl⟩
        · exact fun slot => ⟨[], rfl, fun a member => absurd member List.not_mem_nil⟩
        · intro a fresh
          have hidden := h.private_of_fresh fresh
          refine ⟨s.setLocal_of_ne _ ?_, fun _ => id⟩
          rintro rfl
          exact hidden.hidden _ there.1

theorem lcTlsGet (step : lcTlsGet s t = some s') : Inv s' := by
  unfold Tls.lcTlsGet at step
  cases at_ : (s.thread t).pc <;> simp only [at_, reduceCtorEq] at step
  case enter call =>
    have live : (s.thread t).pc.live := by rw [at_]; rfl
    cases call <;> simp only [reduceCtorEq] at step
    case get key =>
      split at step
      · next invalid =>
        cases step
        refine h.goto live _ nofun ⟨fun valid => ?_, fun _ => rfl⟩ nofun nofun
        exact absurd valid (UInt32.not_lt.mpr invalid)
      · next invalid =>
        cases step
        exact h.goto live _ (by rintro _ ⟨⟩; exact UInt32.not_le.mp invalid) trivial nofun nofun
  case access call node =>
    have live : (s.thread t).pc.live := by rw [at_]; rfl
    have there : Published s (s.thread t).tid node := h.position_at at_ rfl
    have node_ne : node ≠ 0 := (h.table.address node (h.table.mapped _ node there.1)).1
    cases call <;> simp only [reduceCtorEq] at step
    case get key =>
      have valid : (Call.get key).key < maxKeys := h.key_lt at_ rfl rfl
      rw [if_neg node_ne] at step
      cases step
      refine h.goto live _ nofun ⟨fun _ => ?_, fun invalid => absurd valid invalid⟩ nofun nofun
      rw [h.table.value _ node there key valid, (h.sound t live).ledger]
  case returned =>
    cases step
    exact h.goto (by rw [at_]; rfl) _ nofun trivial nofun nofun

/-- A new thread starts with nothing of its own and whatever its id has left. -/
theorem create {tid : Int32} (unused : ∀ u, (s.thread u).pc.live → (s.thread u).tid ≠ tid) :
    Inv (s.setThread t (newThread tid (s.lastSet tid))) := by
  have here : (s.setThread t (newThread tid (s.lastSet tid))).thread t =
      newThread tid (s.lastSet tid) := update_self ..
  apply h.advance (t := t)
  · exact fun u other => update_of_ne other ..
  · intro u _ alive
    rw [here]
    exact unused u alive
  · exact h.table.congr rfl rfl rfl rfl rfl
  · intro _
    rw [here]
    exact ⟨.inl rfl, fun _ => rfl, nofun, trivial⟩
  · exact fun u _ _ => Kept.of_same rfl rfl rfl rfl rfl
  · rw [here]
    exact nofun
  · exact fun u _ => h.locked u
  · rw [here]
    exact nofun

theorem step {a : Action T} (allowed : Allowed s a) (step : perform s a = some s') : Inv s' := by
  cases a with
  | create t tid =>
    cases step
    exact h.create allowed.2
  | exit t | call t call =>
    cases step
    refine h.goto ?_ _ nofun trivial nofun nofun
    rw [show (s.thread t).pc = .idle from allowed]
    rfl
  | advance t reply =>
    rcases Option.or_eq_some_iff.mp step with first | ⟨-, rest⟩
    · exact h.getLocal allowed first
    · rcases Option.or_eq_some_iff.mp rest with set | ⟨-, get⟩
      · exact h.lcTlsSet set
      · exact h.lcTlsGet get

end Inv

/-! ### Whole runs -/

theorem inv_start : Inv (start T) where
  table :=
    { chain := fun _ => .nil
      mapped := nofun
      self := nofun
      unique := nofun
      value := nofun
      unset := fun _ _ _ _ => rfl
      sentinel := rfl
      address := nofun }
  sound := nofun
  distinct := nofun
  fresh := nofun
  locked := nofun
  exclusive := nofun

section Runs

variable [DecidableEq T]

theorem inv_inductive : (system T).Inductive Inv where
  init s start := by
    cases start
    exact inv_start
  step s s' h next := by
    obtain ⟨a, allowed, performed⟩ := next
    exact h.step allowed performed

/-- What `lc_tls_get` returns for a valid key is the value the thread itself last set,
and `NULL` if it has set none, exactly if it has set one or the threads that had its
id before have left none. For an invalid key it returns `NULL`. -/
theorem tls_get_returns_own_iff {s : State T} (run : (system T).Reachable s) {t : T}
    {key : UInt32} {value : Nat} (returned : (s.thread t).pc = .returned key value) :
    (key < maxKeys → (value = ((s.thread t).own key).getD 0 ↔
      ((s.thread t).own key).isSome ∨ ((s.thread t).inherited key).getD 0 = 0)) ∧
    (¬ key < maxKeys → value = 0) := by
  have position : (key < maxKeys → value =
      (((s.thread t).own key).or ((s.thread t).inherited key)).getD 0) ∧
      (¬ key < maxKeys → value = 0) := (inv_inductive.reachable run).position_at returned rfl
  refine ⟨fun valid => ?_, position.2⟩
  rw [position.1 valid]
  cases own : (s.thread t).own key with
  | some set => simp
  | none => simp

/-- A schedule whose actions are all allowed. -/
def follow [Fintype T] (s : State T) (schedule : List (Action T)) : Option (State T) :=
  schedule.foldlM (fun s a => if Allowed s a then perform s a else none) s

theorem reachable_of_follow [Fintype T] {s s' : State T} {schedule : List (Action T)}
    (run : (system T).Reachable s) (followed : follow s schedule = some s') :
    (system T).Reachable s' := by
  refine run.foldlM (fun s a s' step => ?_) followed
  obtain ⟨allowed, performed⟩ := Option.ite_none_right_eq_some.mp step
  exact ⟨a, allowed, performed⟩

/-- A schedule from the start, with a check of the state it leads to. -/
theorem exists_of_follow [Fintype T] (schedule : List (Action T)) {P : State T → Prop}
    [DecidablePred P] (passes : (follow (start T) schedule).any (P ·) = true) :
    ∃ s, (system T).Reachable s ∧ P s := by
  obtain ⟨s, followed, passed⟩ := (Option.any_eq_true _ _).mp passes
  exact ⟨s, reachable_of_follow (.init rfl) followed, of_decide_eq_true passed⟩

end Runs

/-- A thread sets key 0 and reads it back. -/
def setAndGet : List (Action Bool) :=
  [.create false 7, .call false (.set 0 5)] ++ List.replicate 4 (.advance false none) ++
    [.advance false (some 4096)] ++ List.replicate 7 (.advance false none) ++
    [.call false (.get 0)] ++ List.replicate 3 (.advance false none)

/-- The thread has set the key, so it gets its own value. -/
theorem tls_get_returns_own_iff_set :
    ∃ s : State Bool, (system Bool).Reachable s ∧ (s.thread false).pc = .returned 0 5 ∧
      (5 = ((s.thread false).own 0).getD 0 ↔
        ((s.thread false).own 0).isSome ∨ ((s.thread false).inherited 0).getD 0 = 0) ∧
      ((s.thread false).own 0).isSome := by
  obtain ⟨s, run, returned, own⟩ : ∃ s : State Bool, (system Bool).Reachable s ∧
      (s.thread false).pc = .returned 0 5 ∧ ((s.thread false).own 0).isSome :=
    exists_of_follow setAndGet (by decide +kernel)
  exact ⟨s, run, returned, (tls_get_returns_own_iff run returned).1 (by decide), own⟩

/-- The first thread comes out of the call and exits, and a second one is given its
id and asks for the same key. -/
def idReused : List (Action Bool) :=
  setAndGet ++ [.advance false none, .exit false, .create true 7, .call true (.get 0)] ++
    List.replicate 6 (.advance true none)

/-- A thread that has never set a key is given the value of a thread that has exited. -/
theorem tls_get_returns_value_of_exited :
    ∃ s : State Bool, (system Bool).Reachable s ∧ (s.thread true).pc = .returned 0 5 ∧
      (s.thread true).own 0 = none ∧ (s.thread false).pc = .exited :=
  exists_of_follow idReused (by decide +kernel)

end Lightc.Sync.Tls
