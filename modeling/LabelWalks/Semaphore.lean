/-
  LabelWalks.Semaphore
  ────────────────────
  **A STOCK OF PERMITS AMONG THREADS.**

  Threads acquire permits, hand them to one another, drop them and panic, in any
  order.  A thread that wants a permit looks whether one is free and sleeps when none
  is, and looks again each time it wakes up.  Whoever drops a permit puts it back first
  and calls up one sleeper afterwards.  A thread that panics drops what it has, one
  permit after another, and does nothing else.

    • `Semaphore.step?` is one step of a thread, if it can take it,
    • `Semaphore.run?` is a run: the steps of all threads in the order in which they came.
-/
import LabelWalks.Permits

namespace LabelWalks

/-- A stock of permits and the threads that use it. -/
structure Semaphore (κ : Type) where
  stock : Permits
  /-- The permits that threads have, each with its thread. -/
  held : List (Nat × κ)
  /-- The threads that are about to look for a free permit. -/
  asking : List κ
  /-- The threads that looked and sleep. -/
  asleep : List κ
  /-- The threads that panicked. -/
  unwinding : List κ
  /-- How many calls to sleepers are still to be made. -/
  calls : Nat
  deriving DecidableEq, Repr

namespace Semaphore

variable {κ : Type}

/-- A semaphore with `n` permits, of one if `n` is zero, that nobody has used. -/
def new (n : Nat) : Semaphore κ :=
  ⟨.new n, [], [], [], [], 0⟩

/-- The threads that have begun to acquire a permit and have none yet. -/
def waiters (s : Semaphore κ) : List κ :=
  s.asking ++ s.asleep

/-- What a thread can do. -/
inductive Move (κ : Type) where
  /-- It begins to acquire a permit. -/
  | ask (t : κ)
  /-- It takes a permit if one is free, and goes to sleep if none is. -/
  | look (t : κ)
  /-- It drops a permit. -/
  | drop (t : κ) (permit : Nat)
  /-- A call that is due wakes a sleeper, or nobody if there is none. -/
  | call (sleeper : Option κ)
  /-- It wakes up without a call. -/
  | stir (t : κ)
  /-- It hands a permit to another thread. -/
  | pass (t : κ) (permit : Nat) (heir : κ)
  /-- It panics. -/
  | panic (t : κ)
  deriving DecidableEq, Repr

variable [DecidableEq κ]

/-- The semaphore after a step, if the thread can take it: one that waits does nothing but
look, and one that has panicked does nothing but drop what it has. -/
def step? (s : Semaphore κ) : Move κ → Option (Semaphore κ)
  | .ask t =>
    if t ∉ s.waiters ∧ t ∉ s.unwinding then some { s with asking := t :: s.asking } else none
  | .look t =>
    if t ∈ s.asking then
      match s.stock.acquire? with
      | some stock =>
        some { s with
          stock, held := (s.stock.next, t) :: s.held, asking := s.asking.erase t }
      | none => some { s with asking := s.asking.erase t, asleep := t :: s.asleep }
    else none
  | .drop t permit =>
    if (permit, t) ∈ s.held ∧ t ∉ s.waiters then
      some { s with
        stock := s.stock.putBack permit, held := s.held.erase (permit, t), calls := s.calls + 1 }
    else none
  | .call (some t) =>
    if 0 < s.calls ∧ t ∈ s.asleep then
      some { s with calls := s.calls - 1, asking := t :: s.asking, asleep := s.asleep.erase t }
    else none
  | .call none =>
    if 0 < s.calls ∧ s.asleep = [] then some { s with calls := s.calls - 1 } else none
  | .stir t =>
    if t ∈ s.asleep then
      some { s with asking := t :: s.asking, asleep := s.asleep.erase t }
    else none
  | .pass t permit heir =>
    if (permit, t) ∈ s.held ∧ t ∉ s.waiters ∧ t ∉ s.unwinding then
      some { s with held := s.held.map fun row => if row = (permit, t) then (permit, heir) else row }
    else none
  | .panic t =>
    if t ∉ s.waiters ∧ t ∉ s.unwinding then some { s with unwinding := t :: s.unwinding } else none

/-- The semaphore after steps, one after another, if they can all be taken. -/
def run? (s : Semaphore κ) (moves : List (Move κ)) : Option (Semaphore κ) :=
  moves.foldlM step? s

/-- The permits that a thread has. -/
def permitsOf (s : Semaphore κ) (t : κ) : List Nat :=
  (s.held.filter fun row => row.2 = t).map Prod.fst

end Semaphore

end LabelWalks
