/-
  LabelWalks.Proofs.Search.Entry
  ──────────────────────────────
  **WHAT ONE ENTRY CAN DO.**

  Entering a path looks whether it is new, writes it and adds it to the set: the
  path is known, it has no line, its line is refused, or it is written and in the
  set.  A path that has no line is never found, so its fault cannot be passed over,
  and with a sink that takes everything what a worker comes to depends on its trail
  alone.

    • `Noted`, `noted_note` — the four cases,
    • `Trail.verdict` — what a worker comes to,
    • `Findings.Sound.note`, `Findings.Sound.noteTrails` — from one entry to all workers.
-/
import LabelWalks.Proofs.Gathering
import LabelWalks.Proofs.Rendering
import LabelWalks.Proofs.Sink
import LabelWalks.Search

namespace LabelWalks

variable {m : Mapping} {sink : Sink} {f : Findings} {path : MetaPath}

/-! ## §1. One entry. -/

/-- All that an entry can do. -/
inductive Noted (m : Mapping) (f : Findings) (path : MetaPath) : Findings × Option Fault → Prop
  /-- The path was found before. -/
  | known (hseen : path ∈ f.seen) : Noted m f path (f, none)
  /-- A token of the path stands for no label. -/
  | nameless {fault : Fault} (hseen : path ∉ f.seen) (hline : path.render m = .error fault) :
      Noted m f path (f, some fault)
  /-- The sink does not take the line whole. -/
  | refused {line : String} {sink : Sink} {problem : StorageProblem} (hseen : path ∉ f.seen)
      (hline : path.render m = .ok line) (hwrite : f.sink.write (line ++ "\n") = (sink, some problem)) :
      Noted m f path ({ f with sink }, some (.storage problem))
  /-- The path is written and found. -/
  | written {line : String} {sink : Sink} (hseen : path ∉ f.seen)
      (hline : path.render m = .ok line) (hwrite : f.sink.write (line ++ "\n") = (sink, none)) :
      Noted m f path (⟨f.seen.insert path, sink⟩, none)

/-- **Whatever is entered**, one of the four things happens. -/
theorem noted_note (m : Mapping) (f : Findings) (path : MetaPath) :
    Noted m f path (f.note m path) := by
  unfold Findings.note
  by_cases hseen : path ∈ f.seen
  · rw [if_pos (Std.ExtTreeSet.mem_iff_contains.1 hseen)]
    exact .known hseen
  · rw [if_neg fun hcontains => hseen (Std.ExtTreeSet.mem_iff_contains.2 hcontains)]
    cases hline : path.render m with
    | error fault => exact .nameless hseen hline
    | ok line =>
        rcases hwrite : f.sink.write (line ++ "\n") with ⟨sink, refusal⟩
        simp only [hwrite]
        cases refusal with
        | some problem => exact .refused hseen hline hwrite
        | none => exact .written hseen hline hwrite

/-! ## §2. What a worker comes to. -/

/-- The fault of a path that has no line. -/
def MetaPath.fault? (m : Mapping) (path : MetaPath) : Option Fault :=
  match path.render m with
  | .error fault => some fault
  | .ok _ => none

theorem MetaPath.fault?_of_ok {line : String} (h : path.render m = .ok line) :
    path.fault? m = none := by
  unfold fault?
  rw [h]

theorem MetaPath.fault?_of_error {fault : Fault} (h : path.render m = .error fault) :
    path.fault? m = some fault := by
  unfold fault?
  rw [h]

theorem MetaPath.fault?_eq_none_iff {path : MetaPath} :
    path.fault? m = none ↔ Registered m .node path.tokens := by
  rw [← exists_renderTokens_iff]
  show _ ↔ ∃ line, path.render m = .ok line
  unfold fault?
  cases path.render m <;> simp

/-- What the worker of a trail comes to when the sink takes everything: the fault of the
first path that has no line or, if each has one, its own halt. -/
def Trail.verdict (m : Mapping) (trail : Trail MetaPath) : Option Halt :=
  ((trail.items.findSome? (MetaPath.fault? m)).map Halt.fault).or trail.halt

theorem Trail.verdict_cons {path : MetaPath} {paths : List MetaPath} {halt : Option Halt}
    (h : path.fault? m = none) :
    Trail.verdict m ⟨path :: paths, halt⟩ = Trail.verdict m ⟨paths, halt⟩ := by
  unfold verdict
  rw [List.findSome?_cons, h]

theorem Trail.verdict_cons_of_fault {path : MetaPath} {paths : List MetaPath}
    {halt : Option Halt} {fault : Fault} (h : path.fault? m = some fault) :
    Trail.verdict m ⟨path :: paths, halt⟩ = some (.fault fault) := by
  unfold verdict
  rw [List.findSome?_cons, h]
  rfl

/-! ## §3. One worker after another. -/

namespace Findings

/-- The sink takes everything, and each found path has a line. -/
structure Sound (m : Mapping) (f : Findings) : Prop where
  accepting : f.sink.Accepting
  named : ∀ path ∈ f.seen, path.fault? m = none

theorem Sound.start (hsink : sink.Accepting) : Sound m ⟨∅, sink⟩ where
  accepting := hsink
  named _ hpath := absurd hpath Std.ExtTreeSet.not_mem_empty

/-- **One entry** has a fault when the path has one, and else the path is found. -/
theorem Sound.note {f : Findings} (h : Sound m f) (path : MetaPath) :
    Sound m (f.note m path).1 ∧ (f.note m path).2 = path.fault? m
      ∧ ∀ q, q ∈ (f.note m path).1.seen ↔ q ∈ f.seen ∨ (q = path ∧ path.fault? m = none) := by
  have hnoted : Noted m f path (f.note m path) := noted_note m f path
  generalize f.note m path = answer at hnoted ⊢
  cases hnoted with
  | known hseen =>
      have hnamed : path.fault? m = none := h.named path hseen
      refine ⟨h, hnamed.symm, fun q => ?_⟩
      constructor
      · exact .inl
      · intro hq
        rcases hq with hq | ⟨rfl, -⟩
        · exact hq
        · exact hseen
  | @nameless fault hseen hline =>
      have hfault : path.fault? m = some fault := MetaPath.fault?_of_error hline
      refine ⟨h, hfault.symm, fun q => ?_⟩
      rw [hfault]
      simp
  | refused hseen hline hwrite =>
      rw [h.accepting.write_eq] at hwrite
      cases hwrite
  | @written line sink hseen hline hwrite =>
      rw [h.accepting.write_eq] at hwrite
      obtain ⟨rfl, -⟩ := Prod.mk.inj hwrite
      have hnamed : path.fault? m = none := MetaPath.fault?_of_ok hline
      have hmem : ∀ q, q ∈ f.seen.insert path ↔ q ∈ f.seen ∨ (q = path ∧ path.fault? m = none) := by
        intro q
        rw [mem_insert_set_iff, hnamed, @eq_comm _ path]
        simp
      refine ⟨⟨h.accepting.accept _, fun q hq => ?_⟩, hnamed.symm, hmem⟩
      rcases (hmem q).1 hq with hq | ⟨rfl, -⟩
      · exact h.named q hq
      · exact hnamed

theorem Sound.noteAll {f : Findings} (h : Sound m f) (paths : List MetaPath) :
    Sound m (f.noteAll m paths).1
      ∧ (f.noteAll m paths).2 = paths.findSome? (MetaPath.fault? m) := by
  induction paths generalizing f with
  | nil => exact ⟨h, rfl⟩
  | cons path paths ih =>
      obtain ⟨hsound, hfault, -⟩ := h.note path
      unfold Findings.noteAll
      rw [List.findSome?_cons, ← hfault]
      rcases hnote : f.note m path with ⟨f₁, fault⟩
      rw [hnote] at hsound
      cases fault with
      | none => exact ih hsound
      | some fault => exact ⟨hsound, rfl⟩

/-- A worker alone comes to the verdict on its trail. -/
theorem Sound.noteTrail {f : Findings} (h : Sound m f) (unit : WorkUnit)
    (trail : Trail MetaPath) : Sound m (f.noteTrail m unit trail).1
      ∧ (f.noteTrail m unit trail).2 = (trail.verdict m).map (Halt.report unit) := by
  obtain ⟨hsound, hfault⟩ := h.noteAll trail.items
  unfold Findings.noteTrail Trail.verdict
  rw [← hfault]
  rcases hnote : f.noteAll m trail.items with ⟨f₁, fault⟩
  rw [hnote] at hsound
  cases fault with
  | none => exact ⟨hsound, rfl⟩
  | some fault => exact ⟨hsound, rfl⟩

/-- **One worker after another**: the fault is that of the first verdict. -/
theorem Sound.noteTrails {f : Findings} (h : Sound m f)
    (workers : List (LabelIndex × Trail MetaPath)) : Sound m (f.noteTrails m workers).1
      ∧ (f.noteTrails m workers).2
        = workers.findSome? fun w => (w.2.verdict m).map (Halt.report (.startLabel w.1)) := by
  induction workers generalizing f with
  | nil => exact ⟨h, rfl⟩
  | cons w workers ih =>
      obtain ⟨label, trail⟩ := w
      obtain ⟨hfirst, hfault⟩ := h.noteTrail (.startLabel label) trail
      unfold Findings.noteTrails
      rw [List.findSome?_cons, ← hfault]
      rcases hnote : f.noteTrail m (.startLabel label) trail with ⟨f₁, fault⟩
      rw [hnote] at hfirst
      obtain ⟨hlast, hlater⟩ := ih hfirst
      rcases hrest : f₁.noteTrails m workers with ⟨f₂, later⟩
      rw [hrest] at hlast hlater
      simp only [hrest]
      -- a fault of the first worker hides those of the others
      cases fault with
      | none => exact ⟨hlast, hlater⟩
      | some fault => exact ⟨hlast, rfl⟩

end Findings

end LabelWalks
