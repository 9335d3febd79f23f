/-
  LabelWalks.Sink
  ───────────────
  **WHERE TEXT GOES.**

  A sink takes text that is offered to it.  It may take a part of an offer and
  refuse the rest, for good or only for a while; the part it took stays written.
  All that is offered here is ASCII, so a character is an octet.
-/
import LabelWalks.Fault

namespace LabelWalks

/-- A sink: what it took so far, and how it will behave. -/
structure Sink where
  /-- All that was taken. -/
  written : String
  /-- How many characters were taken. -/
  taken : Nat
  /-- How many offers there were. -/
  offers : Nat
  /-- How many times the sink was flushed. -/
  flushes : Nat
  /-- How much of an offer the sink takes at most, from the number of offers before and
  of characters taken; none when it takes any amount. -/
  room : Nat → Nat → Option Nat
  /-- The words of a refusal, for a refused offer. -/
  refusal : String
  /-- The words of a refusal to flush, if the sink refuses that time. -/
  flushRefusal : Nat → Option String

namespace Sink

/-- A sink that takes everything. -/
def unlimited : Sink :=
  ⟨"", 0, 0, 0, fun _ _ => none, "", fun _ => none⟩

/-- A sink that takes `limit` characters in all. -/
def limited (limit : Nat) : Sink :=
  { unlimited with room := fun _ taken => some (limit - taken), refusal := "writer full" }

/-- The sink, refusing every flush. -/
def withoutFlush (s : Sink) : Sink :=
  { s with flushRefusal := fun _ => some "flush refused" }

/-- The sink with a text taken. -/
def accept (s : Sink) (text : String) : Sink :=
  { s with written := s.written ++ text, taken := s.taken + text.length, offers := s.offers + 1 }

/-- Offers a text: it is taken whole, or a part of it is taken and the rest refused. -/
def write (s : Sink) (text : String) : Sink × Option StorageProblem :=
  match s.room s.offers s.taken with
  | none => (s.accept text, none)
  | some n =>
    if n < text.length then
      (s.accept (String.ofList (text.toList.take n)), some (.refused s.refusal))
    else (s.accept text, none)

/-- Offers texts in order up to the first refusal. -/
def writeAll (s : Sink) : List String → Sink × Option StorageProblem
  | [] => (s, none)
  | text :: texts =>
    match s.write text with
    | (s, none) => s.writeAll texts
    | refused => refused

/-- Asks the sink to keep what it took. -/
def flush (s : Sink) : Sink × Option StorageProblem :=
  ({ s with flushes := s.flushes + 1 }, (s.flushRefusal s.flushes).map .refused)

end Sink

end LabelWalks
