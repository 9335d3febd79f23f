/-
  LabelWalks.Proofs.Census.Crew
  ─────────────────────────────
  **A CENSUS DOES NOT DEPEND ON ITS SCHEDULE.**

  The workers write to one table and overwrite what stands there, but no path comes
  twice, so nothing is ever overwritten.  In every reachable state the rows of the
  table and those that the workers have yet to enter are together the rows of the workers
  that were started; at the end these are all.  The foreman joins the workers by
  ascending label, whenever they end, so he reports the fault of the least one.

    • `CensusTurn`, `turn_of_censusCrew` — all that one turn can do,
    • `Entered`, `censusCrew_diligent` — what stands in the table,
    • `next_row_not_mem` — nothing is overwritten,
    • `counts_iff` — every schedule gives the same answer,
    • `census_schedule_independent` — all of this.
-/
import LabelWalks.Census.Crew
import LabelWalks.Proofs.Census.Distinct
import LabelWalks.Proofs.Pool.Progress

namespace LabelWalks

variable {g : GraphView} {m : Mapping} {length : PathLength}

/-! ## §1. What stands in the table. -/

/-- The rows that workers have yet to enter. -/
def rowsOf (tasks : Multiset (LabelIndex × Trail PathCount)) : Multiset PathCount :=
  tasks.bind fun task => task.2.items

/-- The table of a census with the given jobs: the workers that were started have entered
some of their rows there and will enter the others. -/
structure Entered (jobs : List (LabelIndex × Trail PathCount)) (table : Census)
    (busy : Multiset (LabelIndex × Trail PathCount))
    (ended : Multiset (LabelIndex × Option Halt)) : Prop where
  begun : ∃ begun : Multiset (LabelIndex × Trail PathCount), begun ≤ jobs
    ∧ begun.map Prod.fst = busy.map Prod.fst + ended.map Prod.fst
    ∧ (table.toList : Multiset PathCount) + rowsOf busy = rowsOf begun
  /-- A worker has the rest of its trail before it, with the halt at the end. -/
  rest : ∀ task ∈ busy, ∃ job, (task.1, job) ∈ jobs ∧ task.2.halt = job.halt
  halts : ∀ result ∈ ended, ∃ job, (result.1, job) ∈ jobs ∧ result.2 = job.halt

variable {jobs : List (LabelIndex × Trail PathCount)} {table : Census}
  {busy : Multiset (LabelIndex × Trail PathCount)} {ended : Multiset (LabelIndex × Option Halt)}

theorem rowsOf_cons (task : LabelIndex × Trail PathCount)
    (tasks : Multiset (LabelIndex × Trail PathCount)) :
    rowsOf (task ::ₘ tasks) = task.2.items + rowsOf tasks :=
  Multiset.cons_bind task tasks _

theorem rowsOf_coe (jobs : List (LabelIndex × Trail PathCount)) :
    rowsOf jobs = (jobs.flatMap fun job => job.2.items : List PathCount) :=
  Multiset.coe_bind jobs _

/-- The rows in the table and the rows to come have different paths. -/
theorem Entered.nodup (h : Entered jobs table busy ended)
    (hdistinct : ((jobs.flatMap fun job => job.2.items).map Prod.fst).Nodup) :
    (((table.toList : Multiset PathCount) + rowsOf busy).map Prod.fst).Nodup := by
  obtain ⟨begun, hle, -, hrows⟩ := h.begun
  have hall : ((rowsOf jobs).map Prod.fst).Nodup := by
    rw [rowsOf_coe]
    exact hdistinct
  rw [hrows]
  refine Multiset.nodup_of_le (Multiset.map_le_map ?_) hall
  obtain ⟨others, hothers⟩ := Multiset.le_iff_exists_add.1 hle
  unfold rowsOf
  rw [hothers, Multiset.add_bind]
  exact Multiset.le_add_right _ _

/-- **Nothing is overwritten**: the path that a worker will enter next is not in the table. -/
theorem Entered.not_mem (h : Entered jobs table busy ended)
    (hdistinct : ((jobs.flatMap fun job => job.2.items).map Prod.fst).Nodup) {label : LabelIndex}
    {trail : Trail PathCount} (htask : (label, trail) ∈ busy) {row : PathCount}
    (hrow : row ∈ trail.items) : row.1 ∉ table := by
  intro hmem
  have hnodup := h.nodup hdistinct
  rw [Multiset.map_add] at hnodup
  have hstands : row.1 ∈ (table.toList : Multiset PathCount).map Prod.fst := by
    obtain ⟨n, hn⟩ := Option.isSome_iff_exists.1 (Std.ExtTreeMap.mem_iff_isSome_getElem?.1 hmem)
    exact Multiset.mem_map.2 ⟨(row.1, n), Std.ExtTreeMap.mem_toList_iff_getElem?_eq_some.2 hn, rfl⟩
  have hcomes : row.1 ∈ (rowsOf busy).map Prod.fst :=
    Multiset.mem_map_of_mem Prod.fst (Multiset.mem_bind.2 ⟨_, htask, hrow⟩)
  exact Multiset.disjoint_left.1 (Multiset.disjoint_of_nodup_add hnodup) hstands hcomes

/-- All that a turn of a worker can do. -/
inductive CensusTurn (table : Census) :
    Trail PathCount → Census → Trail PathCount ⊕ Option Halt → Prop
  | enters {row : PathCount} {rows : List PathCount} {halt : Option Halt} :
      CensusTurn table ⟨row :: rows, halt⟩ (table.insert row.1 row.2) (.inl ⟨rows, halt⟩)
  | ends {halt : Option Halt} : CensusTurn table ⟨[], halt⟩ table (.inr halt)

theorem turn_of_censusCrew {label : LabelIndex} {trail : Trail PathCount} {table' : Census}
    {next : Trail PathCount ⊕ Option Halt}
    (h : censusCrew.turn label trail table = some (table', next)) :
    CensusTurn table trail table' next := by
  obtain ⟨items, halt⟩ := trail
  cases items with
  | cons row rows =>
      obtain ⟨rfl, rfl⟩ := Prod.mk.inj (Option.some.inj h)
      exact .enters
  | nil =>
      obtain ⟨rfl, rfl⟩ := Prod.mk.inj (Option.some.inj h)
      exact .ends

/-- **Each turn of a worker** keeps what stands in the table: the row that it enters is new. -/
theorem censusCrew_keeps
    (hdistinct : ((jobs.flatMap fun job => job.2.items).map Prod.fst).Nodup) :
    censusCrew.Keeps jobs (Entered jobs) where
  starts := by
    intro table busy ended label trail h hjob hbusy hended
    obtain ⟨begun, hle, hkeys, hrows⟩ := h.begun
    have hfresh : (label, trail) ∉ begun := by
      intro hmem
      have hkey : label ∈ busy.map Prod.fst + ended.map Prod.fst := by
        rw [← hkeys]
        exact Multiset.mem_map_of_mem Prod.fst hmem
      rcases Multiset.mem_add.1 hkey with hkey | hkey
      · exact hbusy hkey
      · exact hended hkey
    refine ⟨⟨(label, trail) ::ₘ begun, ?_, ?_, ?_⟩, ?_, h.halts⟩
    · exact (Multiset.cons_le_of_notMem hfresh).2 ⟨hjob, hle⟩
    · rw [Multiset.map_cons, Multiset.map_cons, hkeys, Multiset.cons_add]
    · rw [rowsOf_cons, rowsOf_cons, ← hrows, add_left_comm]
    · exact Multiset.forall_mem_cons.2 ⟨⟨trail, hjob, rfl⟩, h.rest⟩
  works := by
    intro table table' busy ended label trail trail' h hturn
    obtain ⟨begun, hle, hkeys, hrows⟩ := h.begun
    cases turn_of_censusCrew hturn with
    | @enters row rows halt =>
        have hnew : row.1 ∉ table :=
          h.not_mem hdistinct (Multiset.mem_cons_self _ _) List.mem_cons_self
        refine ⟨⟨begun, hle, ?_, ?_⟩, ?_, h.halts⟩
        · rw [hkeys, Multiset.map_cons, Multiset.map_cons]
        · -- the row goes from what is to come into the table
          rw [← hrows, rowsOf_cons, rowsOf_cons,
            Multiset.coe_eq_coe.2 (toList_insert_perm hnew row.2)]
          show (row ::ₘ (table.toList : Multiset PathCount)) + (rows + rowsOf busy)
            = (table.toList : Multiset PathCount) + (row ::ₘ (rows : Multiset PathCount) + rowsOf busy)
          rw [Multiset.cons_add, Multiset.cons_add, Multiset.add_cons]
        · exact Multiset.forall_mem_cons.2 (Multiset.forall_mem_cons.1 h.rest)
  ends := by
    intro table table' busy ended label trail outcome h hturn
    obtain ⟨begun, hle, hkeys, hrows⟩ := h.begun
    obtain ⟨hmine, hothers⟩ := Multiset.forall_mem_cons.1 h.rest
    cases turn_of_censusCrew hturn with
    | ends =>
        refine ⟨⟨begun, hle, ?_, ?_⟩, hothers, Multiset.forall_mem_cons.2 ⟨hmine, h.halts⟩⟩
        · rw [hkeys, Multiset.map_cons, Multiset.map_cons, Multiset.cons_add, Multiset.add_cons]
        · rw [← hrows, rowsOf_cons]
          show _ = (table.toList : Multiset PathCount) + (0 + rowsOf busy)
          rw [zero_add]

/-- **The workers of a census** never wait, and each has finitely many rows. -/
theorem censusCrew_diligent (hkeys : (jobs.map Prod.fst).Nodup)
    (hdistinct : ((jobs.flatMap fun job => job.2.items).map Prod.fst).Nodup) :
    censusCrew.Diligent jobs ∅ (Entered jobs) fun _ trail => trail.items.length where
  keys := hkeys
  keeps := censusCrew_keeps hdistinct
  starts := by
    refine ⟨⟨0, Multiset.zero_le _, rfl, ?_⟩, ?_, ?_⟩
    · rfl
    · intro task hmem
      exact absurd hmem (Multiset.notMem_zero task)
    · intro result hmem
      exact absurd hmem (Multiset.notMem_zero result)
  lively := by
    intro table busy ended _ hbusy
    obtain ⟨⟨label, ⟨items, halt⟩⟩, hmem⟩ := Multiset.exists_mem_of_ne_zero hbusy
    refine ⟨label, ⟨items, halt⟩, hmem, ?_⟩
    cases items <;> simp [censusCrew]
  shrinks := by
    intro table table' label trail trail' hturn
    cases turn_of_censusCrew hturn with
    | @enters row rows halt =>
        show rows.length < rows.length + 1
        omega

/-! ## §2. A run. -/

/-- The workers of a graph have labels of their own and never give the same path. -/
theorem censusWorkers_diligent (g : GraphView) (m : Mapping) (length : PathLength)
    (groups : Std.ExtTreeMap LabelIndex NodeCounts) :
    censusCrew.Diligent (censusWorkers g m length groups) ∅
      (Entered (censusWorkers g m length groups)) fun _ trail => trail.items.length :=
  censusCrew_diligent (nodup_censusWorkers length groups) (nodup_censusRows length groups)

section
variable {workers : Nat} {groups : Std.ExtTreeMap LabelIndex NodeCounts}
  {turns : List (Actor LabelIndex)} {p : Pool LabelIndex (Trail PathCount) Census (Option Halt)}
  (hp : p = censusCrew.run (censusOpening g m length workers groups) turns)
include hp

/-- Every reachable state has its account, and its table is filled as far as its workers are. -/
theorem staffed_and_entered :
    Staffed (censusWorkers g m length groups) workers p.account
      ∧ Entered (censusWorkers g m length groups) p.shared p.account.busy p.account.outcomes := by
  have hdiligent := censusWorkers_diligent g m length groups
  subst hp
  exact ⟨staffed_run censusCrew hdiligent.keys workers ∅ turns,
    keeps_run hdiligent.keeps hdiligent.keys hdiligent.starts turns⟩

/-- **The next row of a worker** is not in the table. -/
theorem next_row_not_mem {label : LabelIndex} {permit : Nat} {row : PathCount}
    {rows : List PathCount} {halt : Option Halt}
    (hw : ⟨label, permit, .busy ⟨row :: rows, halt⟩⟩ ∈ p.crew) : row.1 ∉ p.shared := by
  have hbusy := mem_busy_iff.2 ⟨permit, hw⟩
  exact (staffed_and_entered hp).2.not_mem (nodup_censusRows length groups) hbusy
    List.mem_cons_self

/-- **At the end** the outcomes are booked in the order of the labels. -/
theorem booked_of_over (hover : p.Over) :
    p.booked = (censusWorkers g m length groups).map fun w => (w.1, w.2.halt) :=
  booked_eq_of_over rfl (nodup_censusWorkers length groups) hp hover fun result hresult =>
    (staffed_and_entered hp).2.halts result hresult

/-- **At the end** the table has the rows of all workers. -/
theorem shared_of_over (hover : p.Over) :
    p.shared = tableOf (censusWorkers g m length groups) := by
  obtain ⟨hstaffed, hentered⟩ := staffed_and_entered hp
  obtain ⟨hidle, hended⟩ := busy_over_of_over hover
  obtain ⟨begun, hle, hkeys, hrows⟩ := hentered.begun
  rw [hidle, hended] at hkeys
  rw [hidle] at hrows
  -- all jobs were begun, for as many outcomes were booked
  have hall : begun = (censusWorkers g m length groups : Multiset _) := by
    refine Multiset.eq_of_le_of_card_le hle ?_
    have hbegun := congrArg Multiset.card hkeys
    have hjobs := (hstaffed.of_over hover).1.length_eq
    simp only [Multiset.card_map, Multiset.map_zero, zero_add, Multiset.coe_card,
      List.length_map] at hbegun hjobs
    rw [hbegun, hjobs, Multiset.coe_card]
  rw [hall, rowsOf_coe] at hrows
  have hperm : p.shared.toList.Perm (censusRows g m length groups) := by
    rw [← Multiset.coe_eq_coe]
    simpa [rowsOf, censusRows] using hrows
  rw [tableOf_censusWorkers]
  exact Std.ExtTreeMap.ext_toList
    (hperm.trans (toList_foldl_insert_perm (nodup_censusRows length groups)).symm)

/-- **Any run of all workers** gives the answer of the census. -/
theorem closing_of_over (hgroups : nodesByLabel g m = .ok groups) (hover : p.Over) :
    censusClosing p = census g m length := by
  unfold censusClosing
  rw [booked_of_over hp hover, List.findSome?_map, shared_of_over hp hover]
  exact (census_of_groups hgroups).symm

/-- **A count that stands** in the table is never replaced. -/
theorem getElem?_shared_run (more : List (Actor LabelIndex)) {path : MetaPath} {n : Nat}
    (h : p.shared[path]? = some n) : (censusCrew.run p more).shared[path]? = some n := by
  induction more using List.reverseRecOn with
  | nil => exact h
  | append_singleton more a ih =>
      have hq : censusCrew.run p more
          = censusCrew.run (censusOpening g m length workers groups) (turns ++ more) := by
        rw [Craft.run_append, hp]
      rw [Craft.run_append]
      show (censusCrew.step (censusCrew.run p more) a).shared[path]? = some n
      rcases Craft.step_eq_or censusCrew (censusCrew.run p more) a with hidle | hdone
      · rw [hidle]
        exact ih
      · rcases hdone.shared_eq_or with hsame | ⟨label, permit, trail, next, hw, hturn⟩
        · rw [hsame]
          exact ih
        · generalize (censusCrew.step (censusCrew.run p more) a).shared = table' at hturn ⊢
          cases turn_of_censusCrew hturn with
          | ends => exact ih
          | @enters row rows halt =>
              have hnew := next_row_not_mem hq hw
              rw [Std.ExtTreeMap.getElem?_insert]
              by_cases hpath : row.1 = path
              · subst hpath
                rw [Std.ExtTreeMap.getElem?_eq_none hnew] at ih
                cases ih
              · simpa [hpath] using ih

end

/-! ## §3. All schedules. -/

/-- **All answers** that schedules can lead to are one answer. -/
theorem counts_iff {workers : Nat} {answer : Except Fault Census} :
    Counts g m length workers answer ↔ answer = census g m length := by
  unfold Counts
  cases hgroups : nodesByLabel g m with
  | error fault =>
      have hcensus : census g m length = .error fault := by
        unfold census
        rw [hgroups]
        rfl
      rw [hcensus]
  | ok groups =>
      constructor
      · intro h
        obtain ⟨turns, hover, hanswer⟩ := h
        rw [hanswer, closing_of_over rfl hgroups hover]
      · intro hanswer
        obtain ⟨turns, hover⟩ := (censusWorkers_diligent g m length groups).exists_over workers
        exact ⟨turns, hover, by rw [hanswer, ← closing_of_over rfl hgroups hover]⟩

/-- The first worker that halts has the fault. -/
theorem firstFault_append {α : Type} {unit : LabelIndex → WorkUnit}
    {before after : List (LabelIndex × Trail α)} {label : LabelIndex} {trail : Trail α} {halt : Halt}
    (hclear : ∀ w ∈ before, w.2.halt = none) (hhalt : trail.halt = some halt) :
    firstFault unit (before ++ (label, trail) :: after) = some (halt.report (unit label)) := by
  have hnone : firstFault unit before = none := firstFault_eq_none_iff.2 hclear
  unfold firstFault at hnone ⊢
  rw [List.findSome?_append, hnone]
  simp [hhalt]

/-- **The least label** among those whose workers halt gives the fault. -/
theorem census_eq_error {groups : Std.ExtTreeMap LabelIndex NodeCounts}
    (hgroups : nodesByLabel g m = .ok groups) {label : LabelIndex} {nodes : NodeCounts} {halt : Halt}
    (hlabel : (label, nodes) ∈ groups.toList)
    (hhalt : (censusWorker g m length label nodes).halt = some halt)
    (hless : ∀ label' nodes', (label', nodes') ∈ groups.toList → label' < label →
      (censusWorker g m length label' nodes').halt = none) :
    census g m length = .error (halt.report (.nodeLabel label)) := by
  obtain ⟨before, after, hsplit⟩ := List.append_of_mem hlabel
  have hordered := Std.ExtTreeMap.ordered_keys_toList (t := groups)
  rw [hsplit] at hordered
  have hclear : ∀ w ∈ before.map fun row => (row.1, censusWorker g m length row.1 row.2),
      w.2.halt = none := by
    intro w hw
    obtain ⟨row, hrow, rfl⟩ := List.mem_map.1 hw
    have hmem : row ∈ groups.toList := by
      rw [hsplit]
      exact List.mem_append_left _ hrow
    have hbefore := (List.pairwise_append.1 hordered).2.2 row hrow _ List.mem_cons_self
    exact hless row.1 row.2 hmem (Std.compare_eq_lt.1 hbefore)
  have hfault : firstFault .nodeLabel (censusWorkers g m length groups)
      = some (halt.report (.nodeLabel label)) := by
    unfold censusWorkers
    rw [hsplit, List.map_append]
    exact firstFault_append hclear hhalt
  rw [census_of_groups hgroups, hfault]

/-- **A census does not depend on its schedule.**  Under every schedule the path that a worker
enters next is not in the table, so a count that stands there is never replaced; a run that is
over gives the answer of the census, whatever the schedule and however many workers may run at
a time; and every schedule that leaves nobody out for good comes to that end.  If workers halt,
the fault of the one with the least label is the answer, and nothing is written. -/
theorem census_schedule_independent {groups : Std.ExtTreeMap LabelIndex NodeCounts}
    (hgroups : nodesByLabel g m = .ok groups) (length : PathLength) (workers : Nat) :
    (∀ turns p, p = censusCrew.run (censusOpening g m length workers groups) turns →
      (∀ label permit row rows halt,
        ⟨label, permit, .busy ⟨row :: rows, halt⟩⟩ ∈ p.crew → row.1 ∉ p.shared)
      ∧ (∀ more (path : MetaPath) (n : Nat), p.shared[path]? = some n →
        (censusCrew.run p more).shared[path]? = some n)
      ∧ (p.Over → censusClosing p = census g m length))
    ∧ (∀ schedule, Fair groups.keys schedule →
      ∃ k, (censusCrew.run (censusOpening g m length workers groups) (turnsOf schedule k)).Over)
    ∧ ((∀ label nodes, (label, nodes) ∈ groups.toList →
        (censusWorker g m length label nodes).halt = none) →
      census g m length = .ok (tableOf (censusWorkers g m length groups)))
    ∧ ∀ label nodes halt, (label, nodes) ∈ groups.toList →
      (censusWorker g m length label nodes).halt = some halt →
      (∀ label' nodes', (label', nodes') ∈ groups.toList → label' < label →
        (censusWorker g m length label' nodes').halt = none) →
      census g m length = .error (halt.report (.nodeLabel label))
        ∧ ∀ sink, writeCensus g m length sink =
          (sink, .error (halt.report (.nodeLabel label))) := by
  refine ⟨?_, ?_, ?_, ?_⟩
  · intro turns p hp
    refine ⟨?_, ?_, closing_of_over hp hgroups⟩
    · intro label permit row rows halt hw
      exact next_row_not_mem hp hw
    · intro more path n hstands
      exact getElem?_shared_run hp more hstands
  · intro schedule hfair
    apply (censusWorkers_diligent g m length groups).exists_over_of_fair
    rw [map_fst_censusWorkers]
    exact hfair
  · intro hclear
    have hfault : firstFault .nodeLabel (censusWorkers g m length groups) = none := by
      rw [firstFault_eq_none_iff]
      intro w hw
      obtain ⟨row, hrow, rfl⟩ := List.mem_map.1 hw
      exact hclear row.1 row.2 hrow
    rw [census_of_groups hgroups, hfault]
  · intro label nodes halt hlabel hhalt hless
    have hcensus := census_eq_error hgroups hlabel hhalt hless
    refine ⟨hcensus, fun sink => ?_⟩
    unfold writeCensus
    rw [hcensus]
    rfl

/-- `twins`, where asking for the neighbours of a node breaks down with words of its own. -/
def brokenTwins : GraphView :=
  { twins.view with adjacentEdges := fun v => .error ⟨some (toString v.toNat)⟩ }

/-- The foreman takes every other turn; the worker of label 0 waits until the other one is done. -/
def laterFirst (k : Nat) : Actor LabelIndex :=
  if k % 2 = 0 then .foreman else .worker (if k < 20 then 1 else 0)

/-- Both workers break down, that of label 1 long before the other.  The fault is that of
label 0, with the words of its node. -/
theorem census_schedule_independent_twins :
    ∃ groups, nodesByLabel brokenTwins twinLabels = .ok groups
      ∧ ∃ p, p = censusCrew.run (censusOpening brokenTwins twinLabels ⟨2, by decide, by decide⟩ 2
        groups) (turnsOf laterFirst 40)
      ∧ p.Over ∧ censusClosing p = .error (.worker (.nodeLabel 0) "1") := by
  have hok : (nodesByLabel brokenTwins twinLabels).toOption.isSome = true := by decide +kernel
  obtain ⟨groups, hgroups⟩ := Option.isSome_iff_exists.1 hok
  have hover : (censusCrew.run (censusOpening brokenTwins twinLabels ⟨2, by decide, by decide⟩ 2
      ((nodesByLabel brokenTwins twinLabels).toOption.getD ∅)) (turnsOf laterFirst 40)).Over := by
    decide +kernel
  have hleast : ∃ row ∈ ((nodesByLabel brokenTwins twinLabels).toOption.getD ∅).toList, row.1 = 0
      ∧ (censusWorker brokenTwins twinLabels ⟨2, by decide, by decide⟩ row.1 row.2).halt
        = some (.breakdown ⟨some "1"⟩) := by decide +kernel
  rw [hgroups] at hover hleast
  obtain ⟨⟨label, nodes⟩, hmem, rfl, hhalt⟩ := hleast
  have hgroups := toOption_eq_some_iff.1 hgroups
  obtain ⟨hruns, -, -, hfault⟩ := census_schedule_independent hgroups ⟨2, by decide, by decide⟩ 2
  refine ⟨groups, hgroups, _, rfl, hover, ?_⟩
  rw [(hruns _ _ rfl).2.2 hover]
  refine (hfault 0 nodes _ hmem hhalt fun label' nodes' _ hless => ?_).1
  exact absurd hless (UInt16.not_lt_zero)

end LabelWalks
