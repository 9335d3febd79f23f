/-
  LabelWalks.Permits
  ──────────────────
  **PERMITS TO RUN.**

  A stock of permits bounds how many workers run at once.  A permit is free or
  live; a live one has a number, given in the order of acquisition, and goes back
  to the stock once.  A stock has at least one permit.
-/

namespace LabelWalks

/-- A stock of permits. -/
structure Permits where
  /-- How many permits can be had at once. -/
  free : Nat
  /-- The numbers of the permits that are out. -/
  live : List Nat
  /-- The number of the next permit. -/
  next : Nat
  deriving DecidableEq, Repr

namespace Permits

/-- A stock of `n` permits, of one if `n` is zero. -/
def new (n : Nat) : Permits :=
  ⟨max n 1, [], 0⟩

/-- The stock with one permit more out; there is none to be had when none is free. -/
def acquire? (p : Permits) : Option Permits :=
  if p.free = 0 then none
  else some { free := p.free - 1, live := p.next :: p.live, next := p.next + 1 }

/-- The stock with one permit more to be had; nobody asks whether it was out. -/
def putBack (p : Permits) (number : Nat) : Permits :=
  { p with free := p.free + 1, live := p.live.erase number }

/-- The stock with a permit back, if it was out. -/
def release (p : Permits) (number : Nat) : Permits :=
  if number ∈ p.live then p.putBack number else p

/-- The stock after a worker had a permit and came to an end, in order or not;
the worker's permit needs no number. -/
def lend? (p : Permits) : Option Permits :=
  p.acquire?.map fun q => { q.release p.next with next := p.next }

end Permits

end LabelWalks
