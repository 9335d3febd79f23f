/-
  LabelWalks.Proofs.Search.Journal
  ────────────────────────────────
  **WHAT STANDS WRITTEN IS WHAT WAS FOUND.**

  An entry that adds a path to the set has written its line in the same turn, and
  no other entry writes anything.  So in every reachable state, whoever took the
  turns, the lines that were written are those of the paths in the set, each path
  once and in the order in which the set grew.

    • `Journal` — the lines and the set, `Journal.note` — one entry,
    • `foundInOrder` — the paths in the order in which a run added them to the set,
    • `journal_run` — the journal of a run.
-/
import LabelWalks.Proofs.Pool.Step
import LabelWalks.Proofs.Search.Entry
import LabelWalks.Proofs.Search.Line
import LabelWalks.Search.Crew

namespace LabelWalks

variable {m : Mapping} {sink : Sink} {f f' : Findings} {path : MetaPath}

/-! ## §1. The journal. -/

/-- Since the sink was `sink`, the found paths were written in the order of `paths`, each on
a line of its own. -/
structure Journal (m : Mapping) (sink : Sink) (f : Findings) (paths : List MetaPath)
    (lines : List String) : Prop where
  seen : ∀ path, path ∈ f.seen ↔ path ∈ paths
  once : paths.Nodup
  rendered : paths.map (fun path => path.render m) = lines.map .ok
  written : f.sink.written = sink.written ++ textOf lines
  accepting : f.sink.Accepting

namespace Journal

variable {paths : List MetaPath} {lines : List String}

/-- Before the first turn nothing is found and nothing is written. -/
theorem start (hsink : sink.Accepting) : Journal m sink ⟨∅, sink⟩ [] [] where
  seen path := by simp
  once := List.nodup_nil
  rendered := rfl
  written := by
    show sink.written = sink.written ++ textOf []
    exact (String.append_empty).symm
  accepting := hsink

/-- Each path has its line. -/
theorem forall₂ (h : Journal m sink f paths lines) :
    List.Forall₂ (fun path line => path.render m = .ok line) paths lines :=
  map_eq_map_iff_forall₂.1 h.rendered

theorem exists_path (h : Journal m sink f paths lines) {line : String} (hline : line ∈ lines) :
    ∃ path ∈ paths, path.render m = .ok line :=
  exists_mem_of_forall₂ h.forall₂.flip hline

/-- **No line twice**: different paths have different lines. -/
theorem nodup_lines (h : Journal m sink f paths lines) : lines.Nodup :=
  (List.rel_nodup (biUnique_render m) h.forall₂).1 h.once

/-- **Whole lines**: the breaks in the text are those behind the lines. -/
theorem newline_not_mem (h : Journal m sink f paths lines) {line : String} (hline : line ∈ lines) :
    '\n' ∉ line.toList := by
  obtain ⟨path, -, hrender⟩ := h.exists_path hline
  exact newline_not_mem_of_render hrender

/-- **The lines tell the paths**: read back, they are the paths in the same order. -/
theorem read_lines (h : Journal m sink f paths lines) :
    lines.map (readPath m) = paths.map some := by
  have hlength : paths.length = lines.length := by
    have hlen := congrArg List.length h.rendered
    simpa using hlen
  refine List.ext_getElem (by simp [hlength]) fun i hi hi' => ?_
  have hrender := List.getElem_of_eq h.rendered (i := i) (by simpa using hi')
  rw [List.getElem_map, List.getElem_map] at hrender ⊢
  exact readPath_of_render hrender

/-- There are as many lines as found paths. -/
theorem length_lines (h : Journal m sink f paths lines) : lines.length = f.seen.size := by
  have hlen := congrArg List.length h.rendered
  rw [List.length_map, List.length_map] at hlen
  have hperm : paths.Perm f.seen.toList := by
    refine (List.perm_ext_iff_of_nodup h.once (nodup_toList_set _)).2 fun path => ?_
    rw [Std.ExtTreeSet.mem_toList, h.seen]
  rw [← hlen, hperm.length_eq, Std.ExtTreeSet.length_toList]

end Journal

/-! ## §2. What the set grew by. -/

/-- The paths in the one set that are not in the other. -/
def newPaths (before after : PathSet) : List MetaPath :=
  after.toList.filter fun path => !before.contains path

theorem mem_newPaths {before after : PathSet} :
    path ∈ newPaths before after ↔ path ∈ after ∧ path ∉ before := by
  unfold newPaths
  rw [List.mem_filter, Std.ExtTreeSet.mem_toList, not_contains_set_iff]

theorem nodup_newPaths (before after : PathSet) : (newPaths before after).Nodup :=
  (nodup_toList_set after).filter _

theorem newPaths_self (seen : PathSet) : newPaths seen seen = [] := by
  rw [List.eq_nil_iff_forall_not_mem]
  intro path hpath
  obtain ⟨hmem, hnot⟩ := mem_newPaths.1 hpath
  exact hnot hmem

theorem newPaths_insert {seen : PathSet} (hnew : path ∉ seen) :
    newPaths seen (seen.insert path) = [path] := by
  rw [← List.perm_singleton,
    List.perm_ext_iff_of_nodup (nodup_newPaths _ _) (List.nodup_singleton path)]
  intro q
  rw [mem_newPaths, List.mem_singleton, mem_insert_set_iff]
  constructor
  · intro h
    obtain ⟨hmem | rfl, hnot⟩ := h
    · exact absurd hmem hnot
    · rfl
  · intro h
    subst h
    exact ⟨.inr rfl, hnew⟩

/-- **One entry** keeps the journal: what it adds to the set it has written. -/
theorem Journal.note {paths : List MetaPath} {lines : List String}
    (h : Journal m sink f paths lines) (path : MetaPath) :
    ∃ more, Journal m sink (f.note m path).1
      (paths ++ newPaths f.seen (f.note m path).1.seen) (lines ++ more) := by
  have hnoted : Noted m f path (f.note m path) := noted_note m f path
  generalize f.note m path = answer at hnoted ⊢
  cases hnoted with
  | known | nameless =>
      refine ⟨[], ?_⟩
      rw [newPaths_self, List.append_nil, List.append_nil]
      exact h
  | refused hseen hline hwrite =>
      rw [h.accepting.write_eq] at hwrite
      cases hwrite
  | @written line sink' hseen hline hwrite =>
      rw [h.accepting.write_eq] at hwrite
      obtain ⟨rfl, -⟩ := Prod.mk.inj hwrite
      refine ⟨[line], ?_⟩
      rw [newPaths_insert hseen]
      refine ⟨fun q => ?_, ?_, ?_, ?_, h.accepting.accept _⟩
      · show q ∈ f.seen.insert path ↔ q ∈ paths ++ [path]
        rw [mem_insert_set_iff, List.mem_append, List.mem_singleton, h.seen, @eq_comm _ path]
      · have hnot : path ∉ paths := fun hpath => hseen ((h.seen path).2 hpath)
        rw [← List.concat_eq_append, List.nodup_concat]
        exact ⟨hnot, h.once⟩
      · rw [List.map_append, List.map_append, h.rendered, List.map_singleton, hline]
        rfl
      · show f.sink.written ++ (line ++ "\n") = sink.written ++ textOf (lines ++ [line])
        rw [h.written, textOf_append, String.append_assoc]

/-! ## §3. A run. -/

/-- All that a turn of a worker can do. -/
inductive SearchTurn (m : Mapping) (f : Findings) :
    Trail MetaPath → Findings → Trail MetaPath ⊕ Option Halt → Prop
  | enters {path : MetaPath} {paths : List MetaPath} {halt : Option Halt}
      (hnote : (f.note m path).2 = none) :
      SearchTurn m f ⟨path :: paths, halt⟩ (f.note m path).1 (.inl ⟨paths, halt⟩)
  | fails {path : MetaPath} {paths : List MetaPath} {halt : Option Halt} {fault : Fault}
      (hnote : (f.note m path).2 = some fault) :
      SearchTurn m f ⟨path :: paths, halt⟩ (f.note m path).1 (.inr (some (.fault fault)))
  | ends {halt : Option Halt} : SearchTurn m f ⟨[], halt⟩ f (.inr halt)

theorem turn_of_searchCrew {label : LabelIndex} {trail : Trail MetaPath}
    {next : Trail MetaPath ⊕ Option Halt}
    (h : (searchCrew m).turn label trail f = some (f', next)) :
    SearchTurn m f trail f' next := by
  obtain ⟨items, halt⟩ := trail
  cases items with
  | nil =>
      obtain ⟨rfl, rfl⟩ := Prod.mk.inj (Option.some.inj h)
      exact .ends
  | cons path paths =>
      rcases hnote : f.note m path with ⟨f₁, fault⟩
      simp only [searchCrew, hnote] at h
      cases fault with
      | none =>
          obtain ⟨rfl, rfl⟩ := Prod.mk.inj (Option.some.inj h)
          have hturn : SearchTurn m f ⟨path :: paths, halt⟩ (f.note m path).1
              (.inl ⟨paths, halt⟩) := .enters (congrArg Prod.snd hnote)
          rwa [hnote] at hturn
      | some fault =>
          obtain ⟨rfl, rfl⟩ := Prod.mk.inj (Option.some.inj h)
          have hturn : SearchTurn m f ⟨path :: paths, halt⟩ (f.note m path).1
              (.inr (some (.fault fault))) := .fails (congrArg Prod.snd hnote)
          rwa [hnote] at hturn

/-- What a turn does to the findings is nothing, or one entry. -/
theorem SearchTurn.eq_or {trail : Trail MetaPath} {next : Trail MetaPath ⊕ Option Halt}
    (h : SearchTurn m f trail f' next) : f' = f ∨ ∃ path, f' = (f.note m path).1 := by
  cases h with
  | ends => exact .inl rfl
  | enters | fails => exact .inr ⟨_, rfl⟩

/-- The paths that a run adds to the set, in the order in which it does. -/
def foundInOrder (m : Mapping) (p : Pool LabelIndex (Trail MetaPath) Findings (Option Halt)) :
    List (Actor LabelIndex) → List MetaPath
  | [] => []
  | a :: turns =>
    let q := (searchCrew m).step p a
    newPaths p.shared.seen q.shared.seen ++ foundInOrder m q turns

/-- Whoever takes a turn, it is nothing to the findings or one entry. -/
theorem shared_step_eq_or (p : Pool LabelIndex (Trail MetaPath) Findings (Option Halt))
    (a : Actor LabelIndex) :
    ((searchCrew m).step p a).shared = p.shared
      ∨ ∃ path, ((searchCrew m).step p a).shared = (p.shared.note m path).1 := by
  rcases Craft.step_eq_or (searchCrew m) p a with hidle | hdone
  · exact .inl (congrArg Pool.shared hidle)
  · rcases hdone.shared_eq_or with hsame | ⟨label, permit, trail, next, -, hturn⟩
    · exact .inl hsame
    · exact (turn_of_searchCrew hturn).eq_or

/-- **The journal of a run**: from any state that has its journal, whoever takes the turns. -/
theorem journal_run (turns : List (Actor LabelIndex)) :
    ∀ {p : Pool LabelIndex (Trail MetaPath) Findings (Option Halt)} {paths : List MetaPath}
      {lines : List String}, Journal m sink p.shared paths lines →
      ∃ more, Journal m sink ((searchCrew m).run p turns).shared (paths ++ foundInOrder m p turns)
        (lines ++ more) := by
  -- on the turns, with the journal so far left open: each turn hands a longer one to the rest
  induction turns with
  | nil =>
      intro p paths lines h
      refine ⟨[], ?_⟩
      show Journal m sink p.shared (paths ++ []) (lines ++ [])
      rw [List.append_nil, List.append_nil]
      exact h
  | cons a turns ih =>
      intro p paths lines h
      obtain ⟨more, hstep⟩ : ∃ more, Journal m sink ((searchCrew m).step p a).shared
          (paths ++ newPaths p.shared.seen ((searchCrew m).step p a).shared.seen)
          (lines ++ more) := by
        rcases shared_step_eq_or (m := m) p a with hsame | ⟨path, hnote⟩
        · rw [hsame, newPaths_self, List.append_nil]
          exact ⟨[], by rw [List.append_nil]; exact h⟩
        · rw [hnote]
          exact h.note path
      obtain ⟨later, hrun⟩ := ih hstep
      refine ⟨more ++ later, ?_⟩
      show Journal m sink ((searchCrew m).run ((searchCrew m).step p a) turns).shared
        (paths ++ (newPaths p.shared.seen ((searchCrew m).step p a).shared.seen
          ++ foundInOrder m ((searchCrew m).step p a) turns)) (lines ++ (more ++ later))
      rw [← List.append_assoc, ← List.append_assoc]
      exact hrun

end LabelWalks
