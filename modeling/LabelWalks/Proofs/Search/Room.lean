/-
  LabelWalks.Proofs.Search.Room
  ─────────────────────────────
  **ENTERING PATHS WHEN THE SINK HAS SO MUCH ROOM.**

  A sink may take any amount or all up to a number of characters.  Workers enter
  their paths in some order, and a path that comes again is not written again; so
  whether all can be entered depends on the set of paths alone: each needs a line,
  and the lines together must fit.

    • `Sink.HasRoom`, `HasRoom.write_eq_none_iff`, `HasRoom.writeAll_eq_none_iff` — lines,
    • `unseen` — the paths of a list that will be written,
    • `noteAll_eq_none_iff` — all paths of a list,
    • `noteTrails_eq_none_iff`, `flush_noteTrails` — all workers,
    • `forall₂_of_noteAll` — what is written when all paths are entered.
-/
import LabelWalks.Proofs.Search.Entry
import LabelWalks.Proofs.Search.Line

namespace LabelWalks

/-! ## §1. A sink and its room. -/

/-- The sink takes all up to `bound` characters, or any amount when there is no bound. -/
structure Sink.HasRoom (s : Sink) (bound : Option Nat) : Prop where
  takes : ∀ offers taken, s.room offers taken = bound.map (· - taken)
  within : ∀ cap ∈ bound, s.taken ≤ cap

theorem Sink.Accepting.hasRoom {s : Sink} (h : s.Accepting) : s.HasRoom none where
  takes := h.takes
  within _ hcap := nomatch hcap

namespace Sink.HasRoom

variable {s : Sink} {bound : Option Nat} (h : s.HasRoom bound)
include h

/-- **A text is taken** when it fits. -/
theorem write_eq_none_iff (text : String) :
    (s.write text).2 = none ↔ ∀ cap ∈ bound, s.taken + text.length ≤ cap := by
  unfold write
  rw [h.takes]
  cases hbound : bound with
  | none => simp
  | some cap =>
      have hwithin : s.taken ≤ cap := h.within cap hbound
      show (if cap - s.taken < text.length then
          (s.accept (String.ofList (text.toList.take (cap - s.taken))),
            some (StorageProblem.refused s.refusal))
        else (s.accept text, none)).2 = none ↔ _
      by_cases hfits : cap - s.taken < text.length
      · rw [if_pos hfits]
        simp only [reduceCtorEq, Option.mem_def, Option.some.injEq, forall_eq', false_iff]
        omega
      · rw [if_neg hfits]
        simp only [Option.mem_def, Option.some.injEq, forall_eq', true_iff]
        omega

theorem accept {text : String} (hfits : ∀ cap ∈ bound, s.taken + text.length ≤ cap) :
    (s.accept text).HasRoom bound where
  takes := h.takes
  within := hfits

end Sink.HasRoom

/-- A text that was not refused was accepted. -/
theorem Sink.write_eq_accept {s s' : Sink} {text : String} (h : s.write text = (s', none)) :
    s' = s.accept text := by
  unfold write at h
  cases hroom : s.room s.offers s.taken with
  | none =>
      rw [hroom] at h
      exact (congrArg Prod.fst h).symm
  | some n =>
      rw [hroom] at h
      by_cases hfits : n < text.length
      · simp only [if_pos hfits] at h
        cases h
      · simp only [if_neg hfits] at h
        exact (congrArg Prod.fst h).symm

/-- **Texts are taken** when they fit together. -/
theorem Sink.HasRoom.writeAll_eq_none_iff {bound : Option Nat} (texts : List String) :
    ∀ {s : Sink}, s.HasRoom bound →
      ((s.writeAll texts).2 = none ↔
        ∀ cap ∈ bound, s.taken + (texts.map String.length).sum ≤ cap) := by
  induction texts with
  | nil =>
      intro s h
      show (none : Option StorageProblem) = none ↔ ∀ cap ∈ bound, s.taken + 0 ≤ cap
      simpa using h.within
  | cons text texts ih =>
      intro s h
      have hfirst := h.write_eq_none_iff text
      rw [List.map_cons, List.sum_cons]
      unfold Sink.writeAll
      rcases hwrite : s.write text with ⟨s', refusal⟩
      rw [hwrite] at hfirst
      cases refusal with
      | some problem =>
          simp only [reduceCtorEq, false_iff] at hfirst ⊢
          intro hall
          refine hfirst fun cap hcap => ?_
          have hcap := hall cap hcap
          omega
      | none =>
          have hfits := hfirst.1 rfl
          rw [Sink.write_eq_accept hwrite]
          show ((s.accept text).writeAll texts).2 = none ↔ _
          rw [ih (h.accept hfits)]
          show (∀ cap ∈ bound, s.taken + text.length + _ ≤ cap) ↔ _
          simp only [Nat.add_assoc]

/-! ## §2. The paths that will be written. -/

/-- How many characters the line of a path has, with its line break. -/
def lineSize (m : Mapping) (path : MetaPath) : Nat :=
  match path.render m with
  | .ok line => (line ++ "\n").length
  | .error _ => 0

theorem lineSize_of_ok {m : Mapping} {path : MetaPath} {line : String}
    (h : path.render m = .ok line) : lineSize m path = (line ++ "\n").length := by
  unfold lineSize
  rw [h]

/-- The paths of a list that are not found yet, each once. -/
def unseen (seen : PathSet) (paths : List MetaPath) : List MetaPath :=
  (paths.filter fun path => !seen.contains path).eraseDups

variable {m : Mapping} {seen : PathSet} {path : MetaPath} {paths : List MetaPath}

theorem mem_unseen : path ∈ unseen seen paths ↔ path ∈ paths ∧ path ∉ seen := by
  unfold unseen
  rw [List.mem_eraseDups, List.mem_filter, not_contains_set_iff]

theorem nodup_unseen (seen : PathSet) (paths : List MetaPath) : (unseen seen paths).Nodup :=
  nodup_eraseDups _

theorem unseen_cons_of_mem (h : path ∈ seen) : unseen seen (path :: paths) = unseen seen paths := by
  unfold unseen
  rw [List.filter_cons_of_neg]
  simpa using Std.ExtTreeSet.mem_iff_contains.1 h

/-- A new path will be written, and is not new any more. -/
theorem unseen_cons_of_not_mem (h : path ∉ seen) :
    unseen seen (path :: paths) = path :: unseen (seen.insert path) paths := by
  unfold unseen
  have hnew : (!seen.contains path) = true := not_contains_set_iff.2 h
  have hfirst : (path :: paths).filter (fun q => !seen.contains q)
      = path :: paths.filter fun q => !seen.contains q := List.filter_cons_of_pos hnew
  rw [hfirst, List.eraseDups_cons, List.filter_filter]
  refine congrArg (fun rest => path :: rest.eraseDups) (List.filter_congr fun q _ => ?_)
  rw [Bool.eq_iff_iff]
  rw [Bool.and_eq_true, not_contains_set_iff, not_contains_set_iff, mem_insert_set_iff, not_or,
    and_comm]
  simp [@eq_comm _ q]

/-- The lines of a set of paths have one size together, whatever list gives the set. -/
theorem sum_lineSize_eq {paths' : List MetaPath} (h : paths.Nodup) (h' : paths'.Nodup)
    (hsame : ∀ p, p ∈ paths ↔ p ∈ paths') :
    (paths.map (lineSize m)).sum = (paths'.map (lineSize m)).sum :=
  (((List.perm_ext_iff_of_nodup h h').2 hsame).map _).sum_eq

/-! ## §3. All paths of a list. -/

namespace Findings

variable {f : Findings} {bound : Option Nat}

/-- **Paths can be entered** when each that is new has a line and the lines fit. -/
theorem noteAll_eq_none_iff (h : f.sink.HasRoom bound) (paths : List MetaPath) :
    (f.noteAll m paths).2 = none ↔ (∀ path ∈ unseen f.seen paths, path.fault? m = none)
      ∧ ∀ cap ∈ bound, f.sink.taken + ((unseen f.seen paths).map (lineSize m)).sum ≤ cap := by
  -- on the list; an entry leaves fewer paths to write and less room
  induction paths generalizing f with
  | nil =>
      show (none : Option Fault) = none ↔ (∀ path ∈ ([] : List MetaPath), path.fault? m = none)
        ∧ ∀ cap ∈ bound, f.sink.taken + 0 ≤ cap
      simpa using h.within
  | cons path paths ih =>
      have hnoted : Noted m f path (f.note m path) := noted_note m f path
      unfold Findings.noteAll
      generalize f.note m path = answer at hnoted ⊢
      cases hnoted with
      | known hseen =>
          rw [unseen_cons_of_mem hseen]
          exact ih h
      | @nameless fault hseen hline =>
          rw [unseen_cons_of_not_mem hseen]
          simp [MetaPath.fault?_of_error hline]
      | @refused line sink problem hseen hline hwrite =>
          have hsize : lineSize m path = (line ++ "\n").length := lineSize_of_ok hline
          rw [unseen_cons_of_not_mem hseen]
          simp only [reduceCtorEq, List.map_cons, List.sum_cons, hsize, false_iff]
          intro hboth
          -- the line alone did not fit
          have hfits : (f.sink.write (line ++ "\n")).2 = none := by
            refine (h.write_eq_none_iff _).2 fun cap hcap => ?_
            have hall := hboth.2 cap hcap
            omega
          rw [hwrite] at hfits
          cases hfits
      | @written line sink hseen hline hwrite =>
          have hnamed : path.fault? m = none := MetaPath.fault?_of_ok hline
          have hsize : lineSize m path = (line ++ "\n").length := lineSize_of_ok hline
          have hfits := (h.write_eq_none_iff (line ++ "\n")).1 (congrArg Prod.snd hwrite)
          rw [unseen_cons_of_not_mem hseen, Sink.write_eq_accept hwrite]
          show (Findings.noteAll ⟨f.seen.insert path, f.sink.accept (line ++ "\n")⟩ m paths).2 = none
            ↔ _
          rw [ih (h.accept hfits)]
          simp only [List.mem_cons, forall_eq_or_imp, List.map_cons, List.sum_cons, hnamed, true_and,
            hsize]
          show _ ∧ (∀ cap ∈ bound, f.sink.taken + (line ++ "\n").length + _ ≤ cap) ↔ _
          simp only [Nat.add_assoc]

/-! ## §4. All workers. -/

theorem noteAll_cons (f : Findings) (path : MetaPath) (paths : List MetaPath) :
    f.noteAll m (path :: paths) = match f.note m path with
      | (f, none) => f.noteAll m paths
      | failed => failed := rfl

theorem noteAll_append (f : Findings) (paths paths' : List MetaPath) :
    f.noteAll m (paths ++ paths') = match f.noteAll m paths with
      | (f, none) => f.noteAll m paths'
      | failed => failed := by
  induction paths generalizing f with
  | nil => rfl
  | cons path paths ih =>
      rw [List.cons_append, noteAll_cons, noteAll_cons]
      rcases f.note m path with ⟨f₁, fault⟩
      cases fault with
      | none => exact ih f₁
      | some fault => rfl

/-- **Workers one after another** succeed when none halts and all that they found can be entered,
as if one of them had found it. -/
theorem noteTrails_eq_none_iff (f : Findings) (workers : List (LabelIndex × Trail MetaPath)) :
    (f.noteTrails m workers).2 = none ↔ (∀ w ∈ workers, w.2.halt = none)
      ∧ (f.noteAll m (workers.flatMap fun w => w.2.items)).2 = none := by
  induction workers generalizing f with
  | nil =>
      show (none : Option Fault) = none ↔ _
      simp [Findings.noteAll]
  | cons w workers ih =>
      obtain ⟨label, ⟨items, halt⟩⟩ := w
      rw [List.flatMap_cons, noteAll_append]
      unfold Findings.noteTrails Findings.noteTrail
      show _ ↔ (∀ w ∈ (label, (⟨items, halt⟩ : Trail MetaPath)) :: workers, w.2.halt = none) ∧ _
      rcases hnote : f.noteAll m items with ⟨f₁, fault⟩
      rcases hrest : f₁.noteTrails m workers with ⟨f₂, later⟩
      have hlater := ih f₁
      rw [hrest] at hlater
      simp only [List.mem_cons, forall_eq_or_imp]
      cases fault with
      | some fault => simp [hrest]
      | none =>
          simp only [hrest]
          cases halt with
          | some halt => simp
          | none =>
              show later = none ↔ _
              rw [hlater]
              simp

/-- Entering paths changes nothing about how the sink will be flushed. -/
theorem flush_noteAll (f : Findings) (paths : List MetaPath) :
    (f.noteAll m paths).1.sink.flush.2 = f.sink.flush.2 := by
  induction paths generalizing f with
  | nil => rfl
  | cons path paths ih =>
      have hnoted : Noted m f path (f.note m path) := noted_note m f path
      unfold Findings.noteAll
      generalize f.note m path = answer at hnoted ⊢
      cases hnoted with
      | known hseen => exact ih f
      | nameless hseen hline => rfl
      | @refused line sink problem hseen hline hwrite =>
          have hflush := Sink.flush_write_eq (s := f.sink) (line ++ "\n")
          rw [hwrite] at hflush
          exact hflush
      | @written line sink hseen hline hwrite =>
          have hflush := Sink.flush_write_eq (s := f.sink) (line ++ "\n")
          rw [hwrite] at hflush
          exact (ih _).trans hflush

theorem flush_noteTrails (f : Findings) (workers : List (LabelIndex × Trail MetaPath)) :
    (f.noteTrails m workers).1.sink.flush.2 = f.sink.flush.2 := by
  induction workers generalizing f with
  | nil => rfl
  | cons w workers ih =>
      obtain ⟨label, trail⟩ := w
      have hfirst := flush_noteAll (m := m) f trail.items
      unfold Findings.noteTrails Findings.noteTrail
      rcases hnote : f.noteAll m trail.items with ⟨f₁, fault⟩
      rw [hnote] at hfirst
      have hlater := ih f₁
      rcases hrest : f₁.noteTrails m workers with ⟨f₂, later⟩
      rw [hrest] at hlater
      -- a fault of the first worker does not keep the others from the sink
      cases fault with
      | some _ | none =>
          simp only [hrest]
          exact hlater.trans hfirst

/-! ## §5. What is written when all is entered. -/

/-- **Paths that were entered** have a line each, if they were new, and nothing else was written. -/
theorem forall₂_of_noteAll {paths : List MetaPath} : ∀ {f f' : Findings},
    f.noteAll m paths = (f', none) →
      ∃ lines, List.Forall₂ (fun path line => path.render m = .ok line) (unseen f.seen paths) lines
        ∧ f'.sink.written = f.sink.written ++ textOf lines := by
  -- on the list, as above; only the first two ways of an entry leave no fault
  induction paths with
  | nil =>
      intro f f' h
      obtain ⟨rfl, -⟩ := Prod.mk.inj h
      exact ⟨[], .nil, String.append_empty.symm⟩
  | cons path paths ih =>
      intro f f' h
      have hnoted : Noted m f path (f.note m path) := noted_note m f path
      unfold Findings.noteAll at h
      generalize f.note m path = answer at hnoted h
      cases hnoted with
      | known hseen =>
          rw [unseen_cons_of_mem hseen]
          exact ih h
      | nameless | refused => cases h
      | @written line sink hseen hline hwrite =>
          obtain ⟨lines, hlines, hwritten⟩ := ih h
          have hfirst := Sink.written_of_accepted (congrArg Prod.snd hwrite)
          rw [hwrite] at hfirst
          rw [unseen_cons_of_not_mem hseen]
          refine ⟨line :: lines, .cons hline hlines, ?_⟩
          rw [hwritten, textOf_cons, ← String.append_assoc]
          exact congrArg (· ++ textOf lines) hfirst

/-- Without a fault workers enter their paths as one of them would. -/
theorem noteAll_of_noteTrails {workers : List (LabelIndex × Trail MetaPath)} :
    ∀ {f f' : Findings}, f.noteTrails m workers = (f', none) →
      f.noteAll m (workers.flatMap fun w => w.2.items) = (f', none) := by
  induction workers with
  | nil =>
      intro f f' h
      exact h
  | cons w workers ih =>
      intro f f' h
      obtain ⟨label, ⟨items, halt⟩⟩ := w
      rw [List.flatMap_cons, noteAll_append]
      unfold Findings.noteTrails Findings.noteTrail at h
      rcases hnote : f.noteAll m items with ⟨f₁, fault⟩
      rcases hrest : f₁.noteTrails m workers with ⟨f₂, later⟩
      simp only [hnote] at h
      cases fault with
      | some fault =>
          simp only [hrest] at h
          cases (Prod.mk.inj h).2
      | none =>
          simp only [hrest] at h
          obtain ⟨rfl, hnone⟩ := Prod.mk.inj h
          have hlater : later = none := by
            cases halt with
            | none => exact hnone
            | some halt => cases hnone
          subst hlater
          exact ih hrest

end Findings

end LabelWalks
