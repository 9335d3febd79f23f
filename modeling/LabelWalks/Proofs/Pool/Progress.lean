/-
  LabelWalks.Proofs.Pool.Progress
  ───────────────────────────────
  **THE POOL COMES TO ITS END.**

  As long as the workers do not block each other, somebody can always take a turn:
  when the foreman waits for a permit, a running worker can go on.  Every turn that is
  taken brings the end nearer, for each has a cost that is paid once.  So a schedule
  that leaves nobody out for good ends every pool.

    • `Craft.Diligent` — the work never blocks and each job takes finitely many turns,
    • `exists_running_of_waiting` — the foreman never waits in vain,
    • `cost_step_lt` — each turn brings the end nearer,
    • `exists_over_of_fair`, `exists_over` — the end is reached.
-/
import LabelWalks.Proofs.Pool.Work
import Mathlib

namespace LabelWalks

variable {κ τ σ ο : Type}

/-! ## §1. Somebody can take a turn. -/

/-- The work on `jobs` never comes to a standstill while a task is in work, and no job goes
on for ever: `left` bounds how many more tasks a task leads to. -/
structure Craft.Diligent (c : Craft κ τ σ ο) (jobs : List (κ × τ)) (shared : σ)
    (I : σ → Multiset (κ × τ) → Multiset (κ × ο) → Prop) (left : κ → τ → Nat) : Prop where
  keys : (jobs.map Prod.fst).Nodup
  keeps : c.Keeps jobs I
  starts : I shared 0 0
  lively : ∀ {s busy ended}, I s busy ended → busy ≠ 0 →
    ∃ key task, (key, task) ∈ busy ∧ c.turn key task s ≠ none
  shrinks : ∀ {s s' key task task'}, c.turn key task s = some (s', .inl task') →
    left key task' < left key task

variable [DecidableEq κ] {c : Craft κ τ σ ο} {jobs : List (κ × τ)} {n : Nat} {shared : σ}
  {I : σ → Multiset (κ × τ) → Multiset (κ × ο) → Prop} {left : κ → τ → Nat}

/-- A worker of the crew is found by its key. -/
theorem find?_crew_eq {ws : List (Worker κ τ ο)} (hkeys : (ws.map Worker.key).Nodup)
    {w : Worker κ τ ο} (hw : w ∈ ws) : (ws.find? fun x => x.key = w.key) = some w := by
  cases hfind : ws.find? fun x => x.key = w.key with
  | none =>
      have hno := List.find?_eq_none.1 hfind w hw
      simp at hno
  | some x =>
      have hkey : x.key = w.key := by simpa using List.find?_some hfind
      have hx : x ∈ ws := List.mem_of_find?_eq_some hfind
      rw [List.inj_on_of_nodup_map hkeys hx hw hkey]

theorem step?_worker_ne_none {p : Pool κ τ σ ο} (hkeys : (p.crew.map Worker.key).Nodup)
    {w : Worker κ τ ο} (hw : w ∈ p.crew) (hadvance : c.advance? w p.shared p.permits ≠ none) :
    c.step? p (.worker w.key) ≠ none := by
  obtain ⟨⟨w', shared', permits'⟩, hnext⟩ := Option.ne_none_iff_exists'.1 hadvance
  show c.worker? p w.key ≠ none
  unfold Craft.worker?
  rw [find?_crew_eq hkeys hw]
  simp [hnext]

omit [DecidableEq κ] in
/-- A task in work is that of a running worker. -/
theorem mem_busy_iff {p : Pool κ τ σ ο} {key : κ} {task : τ} :
    (key, task) ∈ p.account.busy ↔ ∃ permit, ⟨key, permit, .busy task⟩ ∈ p.crew := by
  show (key, task) ∈ (p.crew : Multiset (Worker κ τ ο)).filterMap Worker.task? ↔ _
  rw [Multiset.mem_filterMap]
  constructor
  · rintro ⟨⟨key', permit, phase⟩, hw, htask⟩
    cases phase with
    | busy task' =>
        obtain ⟨rfl, rfl⟩ : key' = key ∧ task' = task := by simpa [Worker.task?] using htask
        exact ⟨permit, hw⟩
    | leaving outcome | gone outcome | ended outcome => cases htask
  · intro h
    obtain ⟨permit, hw⟩ := h
    exact ⟨_, hw, rfl⟩

namespace Craft.Diligent

variable (h : c.Diligent jobs shared I left) {p : Pool κ τ σ ο}
include h

/-- While a worker has a task, one that has a task can go on. -/
theorem exists_running_of_busy (hstaffed : Staffed jobs n p.account)
    (hI : I p.shared p.account.busy p.account.outcomes) {w : Worker κ τ ο} (hw : w ∈ p.crew)
    {task : τ} (hphase : w.phase = .busy task) :
    ∃ x ∈ p.crew, x.running = true ∧ c.step? p (.worker x.key) ≠ none := by
  have hbusy : p.account.busy ≠ 0 := by
    have hmem : (w.key, task) ∈ p.account.busy :=
      mem_busy_iff.2 ⟨w.permit, by rw [← hphase]; exact hw⟩
    intro hzero
    rw [hzero] at hmem
    exact Multiset.notMem_zero _ hmem
  obtain ⟨key, task', hmem, hturn⟩ := h.lively hI hbusy
  obtain ⟨permit, hx⟩ := mem_busy_iff.1 hmem
  refine ⟨⟨key, permit, .busy task'⟩, hx, rfl, ?_⟩
  apply step?_worker_ne_none (hstaffed.nodup_crew h.keys) hx
  show (c.turn key task' p.shared).map _ ≠ none
  simpa using hturn

/-- **The foreman never waits in vain**: when there is no permit to be had, a worker that has
one can take a turn. -/
theorem exists_running_of_waiting (hstaffed : Staffed jobs n p.account)
    (hI : I p.shared p.account.busy p.account.outcomes) (hwaiting : p.Waiting) :
    ∃ w ∈ p.crew, w.running = true ∧ c.step? p (.worker w.key) ≠ none := by
  obtain ⟨job, rest, hstage, hnone⟩ := hwaiting
  have hfree : p.permits.free = 0 := Permits.acquire?_eq_none_iff.1 hnone
  -- all permits are out, and the foreman has none of them
  have hlive : (p.permits.live : Multiset Nat) = 0 + Worker.permitsOf p.account.staff := by
    have hhand : p.account.inHand = 0 := by
      show ((p.stage.permits : List Nat) : Multiset Nat) = 0
      rw [hstage]
      rfl
    rw [← hhand]
    exact hstaffed.live
  have hout : 0 < (Worker.permitsOf p.account.staff).card := by
    have hcard := congrArg Multiset.card hlive
    have hlimit : p.permits.free + p.permits.live.length = max n 1 := hstaffed.limit
    rw [zero_add, Multiset.coe_card] at hcard
    omega
  obtain ⟨permit, hpermit⟩ := Multiset.card_pos_iff_exists_mem.1 hout
  obtain ⟨w, hw, -⟩ := Multiset.mem_map.1 hpermit
  obtain ⟨hcrew, hrunning⟩ := Multiset.mem_filter.1 hw
  have hcrew : w ∈ p.crew := hcrew
  cases hphase : w.phase with
  | busy task => exact h.exists_running_of_busy hstaffed hI hcrew hphase
  | leaving outcome =>
      refine ⟨w, hcrew, hrunning, ?_⟩
      apply step?_worker_ne_none (hstaffed.nodup_crew h.keys) hcrew
      unfold advance?
      rw [hphase]
      simp
  | gone outcome | ended outcome =>
      unfold Worker.running at hrunning
      rw [hphase] at hrunning
      cases hrunning

/-- **Until the end** somebody can take a turn. -/
theorem exists_turn (hstaffed : Staffed jobs n p.account)
    (hI : I p.shared p.account.busy p.account.outcomes) (hover : ¬ p.Over) :
    ∃ a, (a = .foreman ∨ ∃ key ∈ jobs.map Prod.fst, a = .worker key) ∧ c.step? p a ≠ none := by
  have hkey : ∀ w ∈ p.crew, w.key ∈ jobs.map Prod.fst := by
    intro w hw
    have hall : w.key ∈ ((jobs.map Prod.fst : List κ) : Multiset κ) := by
      rw [← hstaffed.keys]
      refine Multiset.mem_add.2 (.inl (Multiset.mem_add.2 (.inr ?_)))
      exact Multiset.mem_map_of_mem Worker.key hw
    exact hall
  have hworker : (∃ w ∈ p.crew, c.step? p (.worker w.key) ≠ none) →
      ∃ a, (a = .foreman ∨ ∃ key ∈ jobs.map Prod.fst, a = .worker key) ∧ c.step? p a ≠ none := by
    intro hex
    obtain ⟨w, hw, hstep⟩ := hex
    exact ⟨.worker w.key, .inr ⟨w.key, hkey w hw, rfl⟩, hstep⟩
  cases hstage : p.stage with
  | hiring job permit rest unseen found =>
      refine ⟨.foreman, .inl rfl, ?_⟩
      show c.foreman? p ≠ none
      unfold foreman?
      rw [hstage]
      cases unseen with
      | cons w unseen => cases houtcome : w.outcome? <;> simp [houtcome]
      | nil => cases found <;> simp
  | next rest =>
      cases rest with
      | cons job rest =>
          cases hfree : p.permits.acquire? with
          | none =>
              apply hworker
              obtain ⟨w, hw, -, hstep⟩ :=
                h.exists_running_of_waiting hstaffed hI ⟨job, rest, hstage, hfree⟩
              exact ⟨w, hw, hstep⟩
          | some permits =>
              refine ⟨.foreman, .inl rfl, ?_⟩
              show c.foreman? p ≠ none
              unfold foreman?
              rw [hstage]
              simp [hfree]
      | nil =>
          cases hpending : p.pending with
          | nil => exact absurd ⟨hstage, hpending⟩ hover
          | cons w pending =>
              have hw : w ∈ p.crew := by
                show w ∈ p.stage.unseen ++ p.pending
                simp [hpending]
              cases hphase : w.phase with
              | ended outcome =>
                  refine ⟨.foreman, .inl rfl, ?_⟩
                  show c.foreman? p ≠ none
                  unfold foreman?
                  rw [hstage]
                  simp [hpending, Worker.outcome?, hphase]
              | busy task =>
                  apply hworker
                  obtain ⟨x, hx, -, hstep⟩ := h.exists_running_of_busy hstaffed hI hw hphase
                  exact ⟨x, hx, hstep⟩
              | leaving outcome | gone outcome =>
                  apply hworker
                  refine ⟨w, hw, step?_worker_ne_none (hstaffed.nodup_crew h.keys) hw ?_⟩
                  unfold advance?
                  rw [hphase]
                  simp

end Craft.Diligent

/-! ## §2. Each turn brings the end nearer. -/

/-- What a worker has before it: `left` tasks and the four turns of its end. -/
def Worker.cost (left : κ → τ → Nat) (w : Worker κ τ ο) : Nat :=
  match w.phase with
  | .busy task => left w.key task + 4
  | .leaving _ => 3
  | .gone _ => 2
  | .ended _ => 1

/-- What the foreman has before him, where each look at his workers takes at most `n` turns. -/
def Stage.cost (n : Nat) : Stage κ τ ο → Nat
  | .next jobs => jobs.length * (n + 2)
  | .hiring _ _ jobs unseen found => jobs.length * (n + 2) + unseen.length + found.length + 1

/-- What all of them have before them. -/
def Pool.cost (left : κ → τ → Nat) (n : Nat) (p : Pool κ τ σ ο) : Nat :=
  (p.crew.map (Worker.cost left)).sum + (p.stage.jobs.map fun job => left job.1 job.2 + 4).sum
    + p.stage.cost n

/-- The turn of one worker brings the end nearer. -/
theorem cost_put_lt {p : Pool κ τ σ ο} (hkeys : (p.crew.map Worker.key).Nodup) (k : Nat)
    {w : Worker κ τ ο} (hw : w ∈ p.crew) (w' : Worker κ τ ο) (hkey : w'.key = w.key)
    (hcost : w'.cost left < w.cost left) : (p.put w').cost left k < p.cost left k := by
  obtain ⟨rest, hold, hnew⟩ := Worker.exists_perm_putIn hkeys hw hkey
  have hbefore := (hold.map (Worker.cost left)).sum_eq
  have hafter := (hnew.map (Worker.cost left)).sum_eq
  have hstage : (p.stage.put w').cost k = p.stage.cost k := by
    cases p.stage with
    | next jobs => rfl
    | hiring job permit jobs unseen found => simp [Stage.put, Stage.cost, Worker.putIn]
  show ((p.put w').crew.map (Worker.cost left)).sum
    + ((p.stage.put w').jobs.map fun job => left job.1 job.2 + 4).sum
    + (p.stage.put w').cost k < p.cost left k
  rw [Pool.crew_put, hafter, Stage.jobs_put, hstage]
  unfold Pool.cost
  rw [hbefore, List.map_cons, List.map_cons, List.sum_cons, List.sum_cons]
  omega

/-- **Each turn brings the end nearer.** -/
theorem cost_step_lt {p p' : Pool κ τ σ ο} (hstep : c.Step p p')
    (hkeys : (p.crew.map Worker.key).Nodup)
    (hshrinks : ∀ {s s' key task task'}, c.turn key task s = some (s', .inl task') →
      left key task' < left key task)
    {k : Nat} (hk : p.crew.length ≤ k) : p'.cost left k < p.cost left k := by
  cases hstep with
  | @hire job rest unseen pending hstage hfree hsplit hreaps =>
      -- the look at the workers is paid for by the job that is taken from the list
      have hlength : unseen.length ≤ k := by
        have hcrew : p.crew = unseen ++ pending := by
          show p.stage.unseen ++ p.pending = _
          rw [hstage, hsplit]
          rfl
        rw [hcrew, List.length_append] at hk
        omega
      unfold Pool.cost Pool.crew
      rw [hstage, hsplit]
      simp only [Stage.unseen, Stage.jobs, Stage.cost, List.nil_append, List.length_cons,
        List.length_nil, Nat.add_mul]
      omega
  | find hstage =>
      unfold Pool.cost Pool.crew
      rw [hstage]
      simp [Stage.unseen, Stage.jobs, Stage.cost, Worker.cost]
      omega
  | pass hstage =>
      unfold Pool.cost Pool.crew
      rw [hstage]
      simp [Stage.unseen, Stage.jobs, Stage.cost]
      omega
  | book hstage =>
      unfold Pool.cost Pool.crew
      rw [hstage]
      simp [Stage.unseen, Stage.jobs, Stage.cost]
  | start hstage =>
      unfold Pool.cost Pool.crew
      rw [hstage]
      simp [Stage.unseen, Stage.jobs, Stage.cost, Worker.cost]
      omega
  | join hstage hpending =>
      unfold Pool.cost Pool.crew
      rw [hstage, hpending]
      simp [Stage.unseen, Stage.jobs, Stage.cost, Worker.cost]
  | @work key permit task shared' next hw hturn =>
      refine cost_put_lt hkeys k hw ⟨key, permit, next.elim .busy .leaving⟩ rfl ?_
      cases next with
      | inl task' =>
          show left key task' + 4 < left key task + 4
          have hless := hshrinks hturn
          omega
      | inr outcome =>
          show 3 < left key task + 4
          omega
  | @leave key permit outcome hw =>
      refine cost_put_lt hkeys k hw ⟨key, permit, .gone outcome⟩ rfl ?_
      show 2 < 3
      omega
  | @finish key permit outcome hw =>
      refine cost_put_lt hkeys k hw ⟨key, permit, .ended outcome⟩ rfl ?_
      show 1 < 2
      omega

/-! ## §3. The end is reached. -/

theorem Craft.run_append (p : Pool κ τ σ ο) (xs ys : List (Actor κ)) :
    c.run p (xs ++ ys) = c.run (c.run p xs) ys :=
  List.foldl_append

omit [DecidableEq κ] in
theorem turnsOf_add_one (schedule : Nat → Actor κ) (k : Nat) :
    turnsOf schedule (k + 1) = turnsOf schedule k ++ [schedule k] := by
  unfold turnsOf
  rw [List.range_succ, List.map_append]
  rfl

namespace Craft.Diligent

variable (h : c.Diligent jobs shared I left)
include h

/-- A turn that is taken in a reachable state. -/
theorem cost_run_lt (turns : List (Actor κ)) {a : Actor κ}
    (hturn : c.step? (c.run (.start jobs n shared) turns) a ≠ none) :
    (c.run (.start jobs n shared) (turns ++ [a])).cost left jobs.length
      < (c.run (.start jobs n shared) turns).cost left jobs.length := by
  have hstaffed := staffed_run c h.keys n shared turns
  have hcrew : (c.run (.start jobs n shared) turns).crew.length ≤ jobs.length := by
    have hcard := congrArg Multiset.card hstaffed.keys
    simp only [Multiset.card_add, Multiset.card_map, Multiset.coe_card, List.length_map] at hcard
    have hstaff : (c.run (.start jobs n shared) turns).account.staff.card
        = (c.run (.start jobs n shared) turns).crew.length := rfl
    omega
  obtain ⟨p', hp'⟩ := Option.ne_none_iff_exists'.1 hturn
  rw [run_append]
  show (c.step _ a).cost left jobs.length < _
  unfold step
  rw [hp']
  exact cost_step_lt (step_of_step? hp') (hstaffed.nodup_crew h.keys) h.shrinks hcrew

/-- Until the end, somebody can take a turn in any reachable state. -/
theorem exists_turn_run (turns : List (Actor κ))
    (hover : ¬ (c.run (.start jobs n shared) turns).Over) :
    ∃ a, (a = .foreman ∨ ∃ key ∈ jobs.map Prod.fst, a = .worker key)
      ∧ c.step? (c.run (.start jobs n shared) turns) a ≠ none :=
  h.exists_turn (staffed_run c h.keys n shared turns) (keeps_run h.keeps h.keys h.starts turns)
    hover

/-- **Some schedule comes to the end.** -/
theorem exists_over (n : Nat) : ∃ turns, (c.run (.start jobs n shared) turns).Over := by
  -- whoever can take a turn is given one, until nobody can
  have hmore : ∀ k turns, (c.run (.start jobs n shared) turns).cost left jobs.length ≤ k →
      ∃ turns', (c.run (.start jobs n shared) turns').Over := by
    intro k
    induction k using Nat.strong_induction_on with
    | _ k ih =>
        intro turns hcost
        by_cases hover : (c.run (.start jobs n shared) turns).Over
        · exact ⟨turns, hover⟩
        · obtain ⟨a, -, hturn⟩ := h.exists_turn_run turns hover
          have hless := h.cost_run_lt turns hturn
          exact ih _ (by omega) (turns ++ [a]) (Nat.le_refl _)
  exact hmore _ [] (Nat.le_refl _)

/-- Along a schedule the pool stays as it is or comes nearer to its end. -/
theorem run_eq_or_cost_lt (schedule : Nat → Actor κ) {i j : Nat} (hij : i ≤ j) :
    c.run (.start jobs n shared) (turnsOf schedule j)
        = c.run (.start jobs n shared) (turnsOf schedule i)
      ∨ (c.run (.start jobs n shared) (turnsOf schedule j)).cost left jobs.length
        < (c.run (.start jobs n shared) (turnsOf schedule i)).cost left jobs.length := by
  induction j, hij using Nat.le_induction with
  | base => exact .inl rfl
  | succ j hij ih =>
      rw [turnsOf_add_one]
      cases hturn : c.step? (c.run (.start jobs n shared) (turnsOf schedule j)) (schedule j) with
      | none =>
          have hidle : c.run (.start jobs n shared) (turnsOf schedule j ++ [schedule j])
              = c.run (.start jobs n shared) (turnsOf schedule j) := by
            rw [run_append]
            show c.step _ (schedule j) = _
            unfold step
            rw [hturn]
            rfl
          rw [hidle]
          exact ih
      | some p' =>
          have hless := h.cost_run_lt (n := n) (turnsOf schedule j) (a := schedule j)
            (by rw [hturn]; simp)
          rcases ih with hsame | hnear
          · rw [hsame] at hless
            exact .inr hless
          · exact .inr (hless.trans hnear)

/-- **A schedule that leaves nobody out for good comes to the end.** -/
theorem exists_over_of_fair {schedule : Nat → Actor κ}
    (hfair : Fair (jobs.map Prod.fst) schedule) :
    ∃ k, (c.run (.start jobs n shared) (turnsOf schedule k)).Over := by
  -- on the cost: whoever can take a turn will be given one, and if the pool changes
  -- before that, then the end has come nearer as well
  have hmore : ∀ m i, (c.run (.start jobs n shared) (turnsOf schedule i)).cost left jobs.length ≤ m →
      ∃ k, (c.run (.start jobs n shared) (turnsOf schedule k)).Over := by
    intro m
    induction m using Nat.strong_induction_on with
    | _ m ih =>
        intro i hcost
        by_cases hover : (c.run (.start jobs n shared) (turnsOf schedule i)).Over
        · exact ⟨i, hover⟩
        · obtain ⟨a, hactor, hturn⟩ := h.exists_turn_run _ hover
          obtain ⟨j, hij, hj⟩ := hfair a hactor i
          rcases h.run_eq_or_cost_lt (n := n) schedule hij with hsame | hnear
          · have hless := h.cost_run_lt (n := n) (turnsOf schedule j) (a := schedule j)
              (by rw [hsame, hj]; exact hturn)
            rw [← turnsOf_add_one, hsame] at hless
            exact ih _ (by omega) (j + 1) (Nat.le_refl _)
          · exact ih _ (by omega) j (Nat.le_refl _)
  exact hmore _ 0 (Nat.le_refl _)

end Craft.Diligent

end LabelWalks
