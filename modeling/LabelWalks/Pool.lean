/-
  LabelWalks.Pool
  ───────────────
  **A FOREMAN AND HIS WORKERS.**

  A foreman has a list of jobs and a stock of permits.  For each job in turn he
  waits for a permit, looks which of his workers have ended and books what they
  came to, if that is his way, and starts a worker that has the permit.  At the end of
  the list he waits for the workers one by one in the order in which he started
  them.  A worker gives its permit back when its task is over, and is known to
  have ended only some time after that.

  All of them run side by side.  A schedule says who takes the next turn; whoever
  has to wait lets his turn pass.

    • `Craft` is what a kind of workers does with its tasks,
    • `Craft.step?` is one turn of the foreman or of a worker,
    • `Craft.run` is a run under a schedule, `Pool.Over` its end,
    • `Fair` schedules leave nobody out for good,
    • `InTurn` is one run after another, each with what the one before it left.
-/
import LabelWalks.Permits

namespace LabelWalks

variable {κ τ σ ο : Type}

/-! ## §1. Workers. -/

/-- How far a worker has come. -/
inductive Phase (τ ο : Type) where
  /-- It has a task. -/
  | busy (task : τ)
  /-- Its task is over, its permit is still out. -/
  | leaving (outcome : ο)
  /-- It has given the permit back. -/
  | gone (outcome : ο)
  /-- It is known to have ended. -/
  | ended (outcome : ο)
  deriving DecidableEq, Repr

/-- A worker, named by its job's key. -/
structure Worker (κ τ ο : Type) where
  key : κ
  permit : Nat
  phase : Phase τ ο
  deriving DecidableEq, Repr

namespace Worker

/-- Whether the worker is running: its permit is out. -/
def running (w : Worker κ τ ο) : Bool :=
  match w.phase with
  | .busy _ | .leaving _ => true
  | .gone _ | .ended _ => false

/-- What the worker came to, once it is known to have ended. -/
def outcome? (w : Worker κ τ ο) : Option ο :=
  match w.phase with
  | .ended outcome => some outcome
  | _ => none

/-- The workers of a list, with `w` in the place of the one that has its key. -/
def putIn [DecidableEq κ] (w : Worker κ τ ο) (ws : List (Worker κ τ ο)) : List (Worker κ τ ο) :=
  ws.map fun x => if x.key = w.key then w else x

end Worker

/-- The work that is done in a pool, on a state that all workers share. -/
structure Craft (κ τ σ ο : Type) where
  /-- What a worker does next at its task: it goes on to another task or comes to an
  outcome.  There is nothing while it has to wait for another worker. -/
  turn : κ → τ → σ → Option (σ × (τ ⊕ ο))
  /-- Whether the foreman looks for ended workers before he starts the next one. -/
  reaps : Bool

/-! ## §2. The pool. -/

/-- Where the foreman is in his list. -/
inductive Stage (κ τ ο : Type) where
  /-- He needs a permit for the first of the jobs; when none is left, he joins the workers. -/
  | next (jobs : List (κ × τ))
  /-- He has a permit for a job and looks for ended workers: those that he has yet to look
  at, and the outcomes that he has found but not booked. -/
  | hiring (job : κ × τ) (permit : Nat) (jobs : List (κ × τ)) (unseen : List (Worker κ τ ο))
      (found : List (κ × ο))

namespace Stage

/-- The jobs that have no worker yet. -/
def jobs : Stage κ τ ο → List (κ × τ)
  | .next jobs => jobs
  | .hiring job _ jobs _ _ => job :: jobs

/-- The permits that the foreman has. -/
def permits : Stage κ τ ο → List Nat
  | .next _ => []
  | .hiring _ permit _ _ _ => [permit]

/-- The workers that he has yet to look at. -/
def unseen : Stage κ τ ο → List (Worker κ τ ο)
  | .next _ => []
  | .hiring _ _ _ unseen _ => unseen

/-- The outcomes that he has not booked. -/
def found : Stage κ τ ο → List (κ × ο)
  | .next _ => []
  | .hiring _ _ _ _ found => found

/-- The stage with `w` in the place of the worker that has its key. -/
def put [DecidableEq κ] (w : Worker κ τ ο) : Stage κ τ ο → Stage κ τ ο
  | .next jobs => .next jobs
  | .hiring job permit jobs unseen found => .hiring job permit jobs (w.putIn unseen) found

end Stage

/-- A pool in the course of a run. -/
structure Pool (κ τ σ ο : Type) where
  /-- What the workers share. -/
  shared : σ
  permits : Permits
  stage : Stage κ τ ο
  /-- The workers that were started and not found to have ended, those yet to be looked at
  apart. -/
  pending : List (Worker κ τ ο)
  /-- The outcomes in the order in which they were booked. -/
  booked : List (κ × ο)

namespace Pool

/-- A pool at the start of its list of jobs, with `n` permits. -/
def start (jobs : List (κ × τ)) (n : Nat) (shared : σ) : Pool κ τ σ ο :=
  ⟨shared, .new n, .next jobs, [], []⟩

/-- All workers that the foreman has not found to have ended. -/
def crew (p : Pool κ τ σ ο) : List (Worker κ τ ο) :=
  p.stage.unseen ++ p.pending

/-- The pool with `w` in the place of the worker that has its key. -/
def put [DecidableEq κ] (p : Pool κ τ σ ο) (w : Worker κ τ ο) : Pool κ τ σ ο :=
  { p with stage := p.stage.put w, pending := w.putIn p.pending }

/-- The foreman needs a permit and there is none to be had. -/
def Waiting (p : Pool κ τ σ ο) : Prop :=
  ∃ job jobs, p.stage = .next (job :: jobs) ∧ p.permits.acquire? = none

/-- All jobs are done and booked. -/
def Over (p : Pool κ τ σ ο) : Prop :=
  p.stage = .next [] ∧ p.pending = []

theorem over_iff {p : Pool κ τ σ ο} : p.Over ↔ p.stage.jobs = [] ∧ p.pending = [] := by
  obtain ⟨shared, permits, stage, pending, booked⟩ := p
  cases stage with
  | next jobs => simp [Over, Stage.jobs]
  | hiring job permit jobs unseen found => simp [Over, Stage.jobs]

instance (p : Pool κ τ σ ο) : Decidable p.Over :=
  decidable_of_iff _ over_iff.symm

end Pool

/-! ## §3. Turns. -/

/-- Who takes a turn. -/
inductive Actor (κ : Type) where
  | foreman
  | worker (key : κ)
  deriving DecidableEq, Repr

namespace Craft

/-- The turn of a worker, with what becomes of the shared state and of the permits. -/
def advance? (c : Craft κ τ σ ο) (w : Worker κ τ ο) (shared : σ) (permits : Permits) :
    Option (Worker κ τ ο × σ × Permits) :=
  match w.phase with
  | .busy task =>
    (c.turn w.key task shared).map fun (shared, next) =>
      ({ w with phase := next.elim .busy .leaving }, shared, permits)
  | .leaving outcome => some ({ w with phase := .gone outcome }, shared, permits.release w.permit)
  | .gone outcome => some ({ w with phase := .ended outcome }, shared, permits)
  | .ended _ => none

/-- The turn of the worker with a key. -/
def worker? [DecidableEq κ] (c : Craft κ τ σ ο) (p : Pool κ τ σ ο) (key : κ) :
    Option (Pool κ τ σ ο) := do
  let w ← p.crew.find? fun w => w.key = key
  let (w, shared, permits) ← c.advance? w p.shared p.permits
  return { p.put w with shared, permits }

/-- The turn of the foreman. -/
def foreman? (c : Craft κ τ σ ο) (p : Pool κ τ σ ο) : Option (Pool κ τ σ ο) :=
  match p.stage with
  | .next (job :: jobs) =>
    p.permits.acquire?.map fun permits =>
      if c.reaps then
        { p with permits, stage := .hiring job p.permits.next jobs p.pending [], pending := [] }
      else { p with permits, stage := .hiring job p.permits.next jobs [] [] }
  | .hiring job permit jobs (w :: unseen) found =>
    match w.outcome? with
    | some outcome =>
      some { p with stage := .hiring job permit jobs unseen (found ++ [(w.key, outcome)]) }
    | none =>
      some { p with stage := .hiring job permit jobs unseen found, pending := p.pending ++ [w] }
  | .hiring job permit jobs [] (result :: found) =>
    some { p with stage := .hiring job permit jobs [] found, booked := p.booked ++ [result] }
  | .hiring job permit jobs [] [] =>
    some { p with stage := .next jobs, pending := p.pending ++ [⟨job.1, permit, .busy job.2⟩] }
  | .next [] =>
    match p.pending with
    | [] => none
    | w :: pending =>
      w.outcome?.map fun outcome => { p with pending, booked := p.booked ++ [(w.key, outcome)] }

variable [DecidableEq κ]

/-- One turn; there is none while the actor has to wait, or has ended. -/
def step? (c : Craft κ τ σ ο) (p : Pool κ τ σ ο) : Actor κ → Option (Pool κ τ σ ο)
  | .foreman => c.foreman? p
  | .worker key => c.worker? p key

/-- The pool after an actor was given a turn. -/
def step (c : Craft κ τ σ ο) (p : Pool κ τ σ ο) (a : Actor κ) : Pool κ τ σ ο :=
  (c.step? p a).getD p

/-- The pool after the turns of a schedule. -/
def run (c : Craft κ τ σ ο) (p : Pool κ τ σ ο) (turns : List (Actor κ)) : Pool κ τ σ ο :=
  turns.foldl c.step p

end Craft

/-! ## §4. Schedules without end. -/

/-- The first `n` turns of a schedule. -/
def turnsOf (schedule : Nat → Actor κ) (n : Nat) : List (Actor κ) :=
  (List.range n).map schedule

/-- The foreman and the workers of all keys get turns again and again. -/
def Fair (keys : List κ) (schedule : Nat → Actor κ) : Prop :=
  ∀ a, (a = .foreman ∨ ∃ key ∈ keys, a = .worker key) → ∀ n, ∃ k, n ≤ k ∧ schedule k = a

/-! ## §5. One run after another. -/

/-- Calls one after another, each of which `does` relates to what it found and what it left;
a call finds what the one before it left. -/
inductive InTurn {σ α : Type} (does : σ → α → σ → Prop) : σ → List α → σ → Prop
  | done {s : σ} : InTurn does s [] s
  | call {s s' last : σ} {x : α} {xs : List α} (hfirst : does s x s')
      (hrest : InTurn does s' xs last) : InTurn does s (x :: xs) last

end LabelWalks
