import Mathlib.Data.List.Basic
import Mathlib.Tactic.Common

/-!
# The abstract first-in first-out queue

The specification a bounded queue refines: a list of elements, and the events an outside observer
sees. A bounded queue may refuse an element at any time, so `refuse` is always allowed; what the
specification fixes is that an accepted element goes to the back, that looking at the front shows
the oldest element, and that removal takes exactly that one. `Bounded` is the queue that refuses an
element exactly if it is full.

The main fact is `Trace.conservation`: along any trace, what was in the queue followed by what was
accepted is what was removed followed by what is in the queue now. Nothing is lost, duplicated,
reordered or altered.
-/

namespace Framework

namespace Fifo

variable {α : Type}

/-- What an observer sees of one operation on a queue. -/
inductive Event (α : Type) where
  /-- An element is appended. -/
  | accept (a : α)
  /-- An element is turned away. -/
  | refuse
  /-- The front is looked at: the oldest element, or nothing. -/
  | peek (front : Option α)
  /-- The oldest element is removed. -/
  | pop (a : α)

/-- One operation on the abstract queue. -/
inductive Step : List α → Event α → List α → Prop where
  | accept (l : List α) (a : α) : Step l (.accept a) (l ++ [a])
  | refuse (l : List α) : Step l .refuse l
  | peek (l : List α) : Step l (.peek l.head?) l
  | pop (a : α) (l : List α) : Step (a :: l) (.pop a) l

/-- An accepted element goes to the back. -/
theorem Step.eq_of_accept {l l' : List α} {a : α} (h : Step l (.accept a) l') : l' = l ++ [a] := by
  cases h
  rfl

/-- The elements accepted along a trace, in order. -/
def accepted : List (Event α) → List α
  | [] => []
  | .accept a :: es => a :: accepted es
  | _ :: es => accepted es

/-- The elements removed along a trace, in order. -/
def popped : List (Event α) → List α
  | [] => []
  | .pop a :: es => a :: popped es
  | _ :: es => popped es

theorem accepted_append (es es' : List (Event α)) :
    accepted (es ++ es') = accepted es ++ accepted es' := by
  induction es with
  | nil => rfl
  | cons e es ih => cases e <;> simp only [List.cons_append, accepted, ih]

theorem popped_append (es es' : List (Event α)) :
    popped (es ++ es') = popped es ++ popped es' := by
  induction es with
  | nil => rfl
  | cons e es ih => cases e <;> simp only [List.cons_append, popped, ih]

/-- A run of the abstract queue. -/
inductive Trace : List α → List (Event α) → List α → Prop where
  | nil (l : List α) : Trace l [] l
  | cons {l l' l'' : List α} {e : Event α} {es : List (Event α)} :
      Step l e l' → Trace l' es l'' → Trace l (e :: es) l''

/-- **Conservation.** Initial contents followed by what was accepted is what was removed followed
by the final contents. -/
theorem Trace.conservation {l l' : List α} {es : List (Event α)} (h : Trace l es l') :
    l ++ accepted es = popped es ++ l' := by
  induction h with
  | nil l => rw [accepted, popped, List.append_nil, List.nil_append]
  | @cons l l' l'' e es hstep _ ih =>
    cases hstep with
    | accept _ a =>
      change l ++ a :: accepted es = popped es ++ l''
      rw [← ih, List.append_assoc, List.singleton_append]
    | refuse => exact ih
    | peek => exact ih
    | pop a =>
      change a :: (l' ++ accepted es) = a :: (popped es ++ l'')
      rw [ih]

/-- One operation on the queue that has room for `capacity` elements. -/
inductive Bounded (capacity : Nat) : List α → Event α → List α → Prop where
  | accept (l : List α) (a : α) : l.length < capacity → Bounded capacity l (.accept a) (l ++ [a])
  | refuse (l : List α) : l.length = capacity → Bounded capacity l .refuse l
  | peek (l : List α) : Bounded capacity l (.peek l.head?) l
  | pop (a : α) (l : List α) : Bounded capacity (a :: l) (.pop a) l

/-- A run of the bounded queue, from the empty one. -/
inductive History (capacity : Nat) : List (Event α) → List α → Prop where
  | nil : History capacity [] []
  | concat {l l' : List α} {es : List (Event α)} {e : Event α} :
      History capacity es l → Bounded capacity l e l' → History capacity (es ++ [e]) l'

/-- The bounded queue keeps what it has accepted. -/
theorem History.conservation {capacity : Nat} {es : List (Event α)} {l : List α}
    (h : History capacity es l) : accepted es = popped es ++ l := by
  induction h with
  | nil => rfl
  | @concat l l' es e _ hstep ih =>
    rw [accepted_append, popped_append, ih]
    cases hstep with
    | accept _ a _ => simp [accepted, popped]
    | refuse => simp [accepted, popped]
    | peek => simp [accepted, popped]
    | pop a => simp [accepted, popped]

end Fifo

end Framework
