/-
  LabelWalks.Trail
  ────────────────
  **WHAT A WORKER LEAVES BEHIND.**

  A worker gives items one after another and then ends, or it comes to a halt
  and gives no more.  Its trail is the list of its items and, if there was one,
  the halt; what it gave before the halt stays given.  A trail is a value, so it
  does not matter when and among which others the worker ran.

    • `andThen` puts one trail after another,
    • `each` runs over a list,
    • `settled` is the list of items of a worker that came to no halt.
-/
import LabelWalks.Graph.View

namespace LabelWalks

/-- Why a worker stopped before its end. -/
inductive Halt where
  /-- An orderly fault. -/
  | fault (fault : Fault)
  /-- The graph broke off an answer. -/
  | breakdown (breakdown : Breakdown)
  deriving DecidableEq, Repr

/-- The fault that a worker's halt is reported as: a breakdown names the worker. -/
def Halt.report (unit : WorkUnit) : Halt → Fault
  | .fault f => f
  | .breakdown b => .worker unit b.text

/-- Items in the order in which they were given, and the halt after them, if any. -/
structure Trail (α : Type) where
  items : List α
  halt : Option Halt

namespace Trail

variable {α β : Type}

/-- The trail of a worker that ends at once. -/
def done : Trail α :=
  ⟨[], none⟩

/-- The trail of a worker that gives a list of items and ends. -/
def give (items : List α) : Trail α :=
  ⟨items, none⟩

/-- The trail of a worker that halts at once. -/
def stop (halt : Halt) : Trail α :=
  ⟨[], some halt⟩

/-- One item, or a fault. -/
def ofExcept : Except Fault α → Trail α
  | .ok item => give [item]
  | .error fault => stop (.fault fault)

/-- One trail and then another, which is not begun when the first one halts. -/
def andThen (t : Trail α) (next : Unit → Trail α) : Trail α :=
  match t.halt with
  | some halt => ⟨t.items, some halt⟩
  | none =>
    let u := next ()
    ⟨t.items ++ u.items, u.halt⟩

/-- The trails of a list's members, one after another up to the first halt. -/
def each (f : β → Trail α) : List β → Trail α
  | [] => done
  | x :: xs => (f x).andThen fun _ => each f xs

/-- The trail with each item replaced. -/
def map (f : β → α) (t : Trail β) : Trail α :=
  ⟨t.items.map f, t.halt⟩

/-- The items of a worker that came to its end, or the halt. -/
def settled (t : Trail α) : Except Halt (List α) :=
  match t.halt with
  | none => .ok t.items
  | some halt => .error halt

/-- Goes on with the items of a worker that came to its end, and halts otherwise. -/
def whenSettled (t : Trail β) (next : List β → Trail α) : Trail α :=
  match t.settled with
  | .ok items => next items
  | .error halt => stop halt

end Trail

end LabelWalks
