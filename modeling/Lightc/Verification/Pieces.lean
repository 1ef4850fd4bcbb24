import Mathlib.Data.List.Basic

/-!
# Messages sent in pieces

A message is sent as a sequence of pieces, each over a channel of its own choice, and
messages are sent one after another. A channel gets the pieces sent over it in that
order. When is what every channel gets a sequence of whole messages? Exactly if no
message has been split, where an empty piece does not matter, and the pieces of each
message make up all of it. Items are numbered by the message they belong to, so that
no coincidence of contents can hide a split.
-/

namespace Lightc.Verification.Pieces

/-- A message: all of it, and what was sent of it so far, piece by piece. -/
structure Message (γ β : Type) where
  full : List β
  pieces : List (γ × List β)
deriving DecidableEq, Repr

variable {γ β : Type}

/-- All that was sent. -/
def contents (pieces : List (γ × List β)) : List β := pieces.flatMap Prod.snd

/-- Nothing went over two channels. -/
def Unsplit (pieces : List (γ × List β)) : Prop :=
  ∀ p ∈ pieces, ∀ q ∈ pieces, p.2 ≠ [] → q.2 ≠ [] → p.1 = q.1

instance [DecidableEq γ] [DecidableEq β] (pieces : List (γ × List β)) :
    Decidable (Unsplit pieces) :=
  inferInstanceAs (Decidable (∀ p ∈ pieces, ∀ q ∈ pieces, p.2 ≠ [] → q.2 ≠ [] → p.1 = q.1))

/-- The items of message number `k`. -/
def tag (k : Nat) (items : List β) : List (Nat × β) := items.map fun b => (k, b)

@[simp] theorem contents_snoc (pieces : List (γ × List β)) (p : γ × List β) :
    contents (pieces ++ [p]) = contents pieces ++ p.2 := by
  simp [contents]

@[simp] theorem tag_nil (k : Nat) : tag k ([] : List β) = [] := rfl

@[simp] theorem tag_append (k : Nat) (a b : List β) : tag k (a ++ b) = tag k a ++ tag k b :=
  List.map_append

theorem fst_of_mem_tag {k : Nat} {items : List β} {x : Nat × β} (member : x ∈ tag k items) :
    x.1 = k := by
  obtain ⟨b, -, rfl⟩ := List.mem_map.mp member
  rfl

theorem tag_injective {k : Nat} {a b : List β} (same : tag k a = tag k b) : a = b :=
  List.map_injective_iff.mpr (fun _ _ pair => congrArg Prod.snd pair) same

variable [DecidableEq γ]

/-- What a channel gets of message number `k`. -/
def share (c : γ) (k : Nat) (pieces : List (γ × List β)) : List (Nat × β) :=
  pieces.flatMap fun p => if p.1 = c then tag k p.2 else []

/-- What a channel gets of all messages. -/
def arrived (c : γ) (messages : List (Message γ β)) : List (Nat × β) :=
  messages.zipIdx.flatMap fun m => share c m.2 m.1.pieces

/-- The messages one after another, each of them whole at its destination. -/
def delivered (dest : Nat → γ) (c : γ) (messages : List (Message γ β)) : List (Nat × β) :=
  messages.zipIdx.flatMap fun m => if dest m.2 = c then tag m.2 m.1.full else []

@[simp] theorem arrived_snoc (c : γ) (messages : List (Message γ β)) (message : Message γ β) :
    arrived c (messages ++ [message]) =
      arrived c messages ++ share c messages.length message.pieces := by
  simp [arrived, List.zipIdx_append]

@[simp] theorem share_snoc (c : γ) (k : Nat) (pieces : List (γ × List β)) (p : γ × List β) :
    share c k (pieces ++ [p]) = share c k pieces ++ if p.1 = c then tag k p.2 else [] := by
  simp [share]

/-- Pieces that all go over one channel. -/
theorem share_eq {d : γ} {pieces : List (γ × List β)} (one : ∀ p ∈ pieces, p.2 ≠ [] → p.1 = d)
    (c : γ) (k : Nat) : share c k pieces = if d = c then tag k (contents pieces) else [] := by
  induction pieces with
  | nil => simp [share, contents]
  | cons p pieces ih =>
    have rest := ih fun q member => one q (List.mem_cons_of_mem p member)
    have here : (if p.1 = c then tag k p.2 else []) = if d = c then tag k p.2 else [] := by
      by_cases empty : p.2 = []
      · simp [empty]
      · rw [one p List.mem_cons_self empty]
    have head : share c k (p :: pieces) =
        (if p.1 = c then tag k p.2 else []) ++ share c k pieces := List.flatMap_cons
    rw [head, here, rest]
    split
    · exact (tag_append k p.2 (contents pieces)).symm
    · rfl

omit [DecidableEq γ] in
/-- The items of one number among those of a numbered sequence. -/
theorem filter_numbered {α : Type} {f : α → Nat → List (Nat × β)}
    (numbered : ∀ a k, ∀ x ∈ f a k, x.1 = k) (k : Nat) (l : List α) (n : Nat) :
    ((l.zipIdx n).flatMap fun m => f m.1 m.2).filter (fun x => x.1 = n + k) =
      (l[k]?).elim [] fun a => f a (n + k) := by
  induction l generalizing n k with
  | nil => simp
  | cons a l ih =>
    rw [List.zipIdx_cons, List.flatMap_cons, List.filter_append]
    cases k with
    | zero =>
      have all : (f a n).filter (fun x => x.1 = n + 0) = f a n :=
        List.filter_eq_self.mpr fun x member => by simp [numbered a n x member]
      have later : ((l.zipIdx (n + 1)).flatMap fun m => f m.1 m.2).filter
          (fun x => x.1 = n + 0) = [] := by
        refine List.filter_eq_nil_iff.mpr fun x member => ?_
        obtain ⟨⟨b, i⟩, inside, item⟩ := List.mem_flatMap.mp member
        have index := List.le_snd_of_mem_zipIdx inside
        have number := numbered b i x item
        simp only [decide_eq_true_eq]
        omega
      simp only [all, later, List.append_nil]
      rfl
    | succ k =>
      have first : (f a n).filter (fun x => x.1 = n + (k + 1)) = [] := by
        refine List.filter_eq_nil_iff.mpr fun x member => ?_
        have number := numbered a n x member
        simp only [decide_eq_true_eq]
        omega
      have rest := ih k (n + 1)
      rw [show n + 1 + k = n + (k + 1) by omega] at rest
      simp only [first, List.nil_append, List.getElem?_cons_succ, rest]

theorem filter_arrived (c : γ) (messages : List (Message γ β)) (k : Nat) :
    (arrived c messages).filter (fun x => x.1 = k) =
      (messages[k]?).elim [] fun m => share c k m.pieces := by
  have numbered : ∀ (m : Message γ β) (k : Nat), ∀ x ∈ share c k m.pieces, x.1 = k := by
    intro m k x member
    obtain ⟨p, -, item⟩ := List.mem_flatMap.mp member
    split at item
    · exact fst_of_mem_tag item
    · cases item
  have filtered := filter_numbered numbered k messages 0
  rw [Nat.zero_add] at filtered
  exact filtered

theorem filter_delivered (dest : Nat → γ) (c : γ) (messages : List (Message γ β)) (k : Nat) :
    (delivered dest c messages).filter (fun x => x.1 = k) =
      (messages[k]?).elim [] fun m => if dest k = c then tag k m.full else [] := by
  have numbered : ∀ (m : Message γ β) (k : Nat),
      ∀ x ∈ (if dest k = c then tag k m.full else []), x.1 = k := by
    intro m k x member
    split at member
    · exact fst_of_mem_tag member
    · cases member
  have filtered := filter_numbered numbered k messages 0
  rw [Nat.zero_add] at filtered
  exact filtered

/-- What every channel gets is whole messages. -/
def Whole (messages : List (Message γ β)) : Prop :=
  ∃ dest : Nat → γ, ∀ c, arrived c messages = delivered dest c messages

/-- A message that is whole at one place was not split and was sent in full. -/
theorem Whole.sent {messages : List (Message γ β)} (whole : Whole messages) {m : Message γ β}
    (member : m ∈ messages) : Unsplit m.pieces ∧ contents m.pieces = m.full := by
  obtain ⟨dest, whole⟩ := whole
  obtain ⟨k, here⟩ := List.mem_iff_getElem?.mp member
  have shares : ∀ c, share c k m.pieces = if dest k = c then tag k m.full else [] := by
    intro c
    have filtered := congrArg (List.filter fun x => x.1 = k) (whole c)
    rw [filter_arrived, filter_delivered, here] at filtered
    exact filtered
  have one : ∀ p ∈ m.pieces, p.2 ≠ [] → p.1 = dest k := by
    intro p piece some_
    by_contra other
    have nothing := shares p.1
    rw [if_neg fun same => other same.symm] at nothing
    have empty := List.flatMap_eq_nil_iff.mp nothing p piece
    rw [if_pos rfl] at empty
    exact some_ (List.map_eq_nil_iff.mp empty)
  refine ⟨fun p hp q hq sp sq => (one p hp sp).trans (one q hq sq).symm, ?_⟩
  have all := shares (dest k)
  rw [share_eq one, if_pos rfl, if_pos rfl] at all
  exact tag_injective all

end Lightc.Verification.Pieces
