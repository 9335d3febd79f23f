/-
  LabelWalks.Proofs.Pool.Work
  ───────────────────────────
  **WHAT THE WORKERS DO, APART FROM THE POOL.**

  For what the workers do to the shared state only three kinds of turns matter: a job is
  begun, a task leads to another task, a task leads to an outcome.  A property of the
  shared state, the tasks in work and the outcomes that survives these three holds in
  every reachable state, whatever the foreman does in between.

    • `Account.busy`, `Account.outcomes` — the tasks in work and the outcomes,
    • `Craft.Keeps`, `keeps_run` — from the three kinds of turns to all runs,
    • `busy_over_of_over` — at the end the outcomes are those that were booked,
    • `booked_eq_of_over` — in the order of the jobs, when the foreman only joins.
-/
import LabelWalks.Proofs.Pool.Account

namespace LabelWalks

variable {κ τ σ ο : Type}

/-! ## §1. Tasks and outcomes. -/

namespace Worker

/-- The task of a worker that has one. -/
def task? (w : Worker κ τ ο) : Option (κ × τ) :=
  match w.phase with
  | .busy task => some (w.key, task)
  | _ => none

/-- What a worker came to whose task is over. -/
def result? (w : Worker κ τ ο) : Option (κ × ο) :=
  match w.phase with
  | .busy _ => none
  | .leaving outcome | .gone outcome | .ended outcome => some (w.key, outcome)

variable {w : Worker κ τ ο} (staff : Multiset (Worker κ τ ο))

theorem tasks_cons {x : κ × τ} (h : w.task? = some x) :
    (w ::ₘ staff).filterMap task? = x ::ₘ staff.filterMap task? :=
  Multiset.filterMap_cons_some task? w staff h

theorem tasks_cons_of_none (h : w.task? = none) :
    (w ::ₘ staff).filterMap task? = staff.filterMap task? :=
  Multiset.filterMap_cons_none w staff h

theorem results_cons {x : κ × ο} (h : w.result? = some x) :
    (w ::ₘ staff).filterMap result? = x ::ₘ staff.filterMap result? :=
  Multiset.filterMap_cons_some result? w staff h

theorem results_cons_of_none (h : w.result? = none) :
    (w ::ₘ staff).filterMap result? = staff.filterMap result? :=
  Multiset.filterMap_cons_none w staff h

/-- A worker has a task or an outcome. -/
theorem map_tasks_add_map_results :
    (staff.filterMap task?).map Prod.fst + (staff.filterMap result?).map Prod.fst
      = staff.map key := by
  induction staff using Multiset.induction with
  | empty => rfl
  | cons w staff ih =>
      obtain ⟨key, permit, phase⟩ := w
      rw [Multiset.map_cons, ← ih]
      cases phase with
      | busy task =>
          rw [tasks_cons staff (x := (key, task)) rfl, results_cons_of_none staff rfl]
          simp
      | leaving outcome | gone outcome | ended outcome =>
          rw [results_cons staff (x := (key, outcome)) rfl, tasks_cons_of_none staff rfl]
          simp

end Worker

namespace Account

/-- The tasks in work. -/
def busy (a : Account κ τ σ ο) : Multiset (κ × τ) :=
  a.staff.filterMap Worker.task?

/-- The outcomes, known to the foreman or not. -/
def outcomes (a : Account κ τ σ ο) : Multiset (κ × ο) :=
  a.results + a.staff.filterMap Worker.result?

/-- Each job is waiting, in work or over. -/
theorem keys_eq {jobs : List (κ × τ)} {n : Nat} {a : Account κ τ σ ο} (h : Staffed jobs n a) :
    a.busy.map Prod.fst + a.outcomes.map Prod.fst + (a.jobs.map Prod.fst : List κ)
      = (jobs.map Prod.fst : List κ) := by
  rw [← h.keys, ← Worker.map_tasks_add_map_results]
  show a.busy.map Prod.fst + (a.results + a.staff.filterMap Worker.result?).map Prod.fst + _ = _
  rw [Multiset.map_add, add_left_comm]
  rfl

/-- A job that waits was not begun. -/
theorem fresh {jobs : List (κ × τ)} {n : Nat} {a : Account κ τ σ ο} (h : Staffed jobs n a)
    (hjobs : (jobs.map Prod.fst).Nodup) {key : κ} (hkey : key ∈ a.jobs.map Prod.fst) :
    key ∉ a.busy.map Prod.fst ∧ key ∉ a.outcomes.map Prod.fst := by
  have hnodup : (a.busy.map Prod.fst + a.outcomes.map Prod.fst
      + (a.jobs.map Prod.fst : List κ)).Nodup := by
    rw [keys_eq h]
    exact hjobs
  have hapart := Multiset.disjoint_of_nodup_add hnodup
  rw [← not_or, ← Multiset.mem_add]
  intro hbegun
  exact Multiset.disjoint_left.1 hapart hbegun hkey

end Account

/-! ## §2. From three kinds of turns to all runs. -/

/-- The work on `jobs` keeps a property of the shared state, the tasks in work and the
outcomes. -/
structure Craft.Keeps (c : Craft κ τ σ ο) (jobs : List (κ × τ))
    (I : σ → Multiset (κ × τ) → Multiset (κ × ο) → Prop) : Prop where
  /-- A job is begun that was not begun before. -/
  starts : ∀ {s busy ended key task}, I s busy ended → (key, task) ∈ jobs →
    key ∉ busy.map Prod.fst → key ∉ ended.map Prod.fst → I s ((key, task) ::ₘ busy) ended
  works : ∀ {s s' busy ended key task task'}, I s ((key, task) ::ₘ busy) ended →
    c.turn key task s = some (s', .inl task') → I s' ((key, task') ::ₘ busy) ended
  ends : ∀ {s s' busy ended key task outcome}, I s ((key, task) ::ₘ busy) ended →
    c.turn key task s = some (s', .inr outcome) → I s' busy ((key, outcome) ::ₘ ended)

variable {c : Craft κ τ σ ο} {jobs : List (κ × τ)} {n : Nat} {shared : σ}
  {I : σ → Multiset (κ × τ) → Multiset (κ × ο) → Prop}

/-- **A turn of the account** is one of the three kinds, or it changes nothing that matters. -/
theorem Craft.Keeps.step (hkeeps : c.Keeps jobs I) (hjobs : (jobs.map Prod.fst).Nodup)
    {a a' : Account κ τ σ ο} (hstep : Account.Step c a a') (hstaffed : Staffed jobs n a)
    (h : I a.shared a.busy a.outcomes) : I a'.shared a'.busy a'.outcomes := by
  cases hstep with
  | hire | look => exact h
  | @start s permits permit job rest staff results =>
      obtain ⟨key, task⟩ := job
      have hhead : key ∈ ((key, task) :: rest).map Prod.fst := List.mem_cons_self
      have hfresh := Account.fresh hstaffed hjobs hhead
      have hmem : (key, task) ∈ jobs := hstaffed.rest.subset List.mem_cons_self
      show I s ((⟨key, permit, .busy task⟩ ::ₘ staff).filterMap Worker.task?)
        (results + (⟨key, permit, .busy task⟩ ::ₘ staff).filterMap Worker.result?)
      rw [Worker.tasks_cons staff (x := (key, task)) rfl, Worker.results_cons_of_none staff rfl]
      exact hkeeps.starts h hmem hfresh.1 hfresh.2
  | @settle s permits inHand rest staff results key permit outcome =>
      have hover : (key, outcome) ::ₘ results + staff.filterMap Worker.result? =
          results + (⟨key, permit, .ended outcome⟩ ::ₘ staff).filterMap Worker.result? := by
        rw [Worker.results_cons staff (x := (key, outcome)) rfl]
        simp
      have hbusy : (⟨key, permit, .ended outcome⟩ ::ₘ staff).filterMap Worker.task? =
          staff.filterMap Worker.task? :=
        Worker.tasks_cons_of_none staff rfl
      show I s (staff.filterMap Worker.task?)
        ((key, outcome) ::ₘ results + staff.filterMap Worker.result?)
      rw [hover, ← hbusy]
      exact h
  | @work s s' permits inHand rest staff results key permit task next hturn =>
      have h : I s ((⟨key, permit, .busy task⟩ ::ₘ staff).filterMap Worker.task?)
          (results + (⟨key, permit, .busy task⟩ ::ₘ staff).filterMap Worker.result?) := h
      rw [Worker.tasks_cons staff (x := (key, task)) rfl, Worker.results_cons_of_none staff rfl] at h
      cases next with
      | inl task' =>
          show I s' ((⟨key, permit, .busy task'⟩ ::ₘ staff).filterMap Worker.task?)
            (results + (⟨key, permit, .busy task'⟩ ::ₘ staff).filterMap Worker.result?)
          rw [Worker.tasks_cons staff (x := (key, task')) rfl,
            Worker.results_cons_of_none staff rfl]
          exact hkeeps.works h hturn
      | inr outcome =>
          show I s' ((⟨key, permit, .leaving outcome⟩ ::ₘ staff).filterMap Worker.task?)
            (results + (⟨key, permit, .leaving outcome⟩ ::ₘ staff).filterMap Worker.result?)
          rw [Worker.tasks_cons_of_none staff rfl,
            Worker.results_cons staff (x := (key, outcome)) rfl, Multiset.add_cons]
          exact hkeeps.ends h hturn
  | @leave s permits inHand rest staff results key permit outcome =>
      show I s ((⟨key, permit, .gone outcome⟩ ::ₘ staff).filterMap Worker.task?)
        (results + (⟨key, permit, .gone outcome⟩ ::ₘ staff).filterMap Worker.result?)
      rw [Worker.tasks_cons_of_none staff rfl,
        Worker.results_cons staff (x := (key, outcome)) rfl,
        ← Worker.tasks_cons_of_none staff (w := ⟨key, permit, .leaving outcome⟩) rfl,
        ← Worker.results_cons staff (w := ⟨key, permit, .leaving outcome⟩) rfl]
      exact h
  | @finish s permits inHand rest staff results key permit outcome =>
      show I s ((⟨key, permit, .ended outcome⟩ ::ₘ staff).filterMap Worker.task?)
        (results + (⟨key, permit, .ended outcome⟩ ::ₘ staff).filterMap Worker.result?)
      rw [Worker.tasks_cons_of_none staff rfl,
        Worker.results_cons staff (x := (key, outcome)) rfl,
        ← Worker.tasks_cons_of_none staff (w := ⟨key, permit, .gone outcome⟩) rfl,
        ← Worker.results_cons staff (w := ⟨key, permit, .gone outcome⟩) rfl]
      exact h

/-- **A property that the work keeps** holds in every reachable state. -/
theorem keeps_run [DecidableEq κ] (hkeeps : c.Keeps jobs I) (hjobs : (jobs.map Prod.fst).Nodup)
    (hstart : I shared 0 0) (turns : List (Actor κ)) :
    I (c.run (.start jobs n shared) turns).shared (c.run (.start jobs n shared) turns).account.busy
      (c.run (.start jobs n shared) turns).account.outcomes :=
  (account_run_preserves (n := n) (I := fun a => I a.shared a.busy a.outcomes) hjobs hstart
    (fun _ _ hstep hstaffed h => hkeeps.step hjobs hstep hstaffed h) turns).2

/-! ## §3. The end. -/

/-- **At the end** no task is in work and the outcomes are those that were booked. -/
theorem busy_over_of_over {p : Pool κ τ σ ο} (hover : p.Over) :
    p.account.busy = 0 ∧ p.account.outcomes = p.booked := by
  obtain ⟨shared, permits, stage, pending, booked⟩ := p
  obtain ⟨hstage, hpending⟩ := hover
  subst hstage hpending
  refine ⟨rfl, ?_⟩
  show (booked : Multiset (κ × ο)) + 0 + 0 = booked
  simp

/-- A list with one entry for each key is known by the keys and by what stands under them. -/
theorem eq_map_of_keys {κ β γ : Type} {f : β → γ} {jobs : List (κ × β)} {booked : List (κ × γ)}
    (hnodup : (jobs.map Prod.fst).Nodup) (hkeys : booked.map Prod.fst = jobs.map Prod.fst)
    (hvalues : ∀ {key value}, (key, value) ∈ booked → ∃ job, (key, job) ∈ jobs ∧ value = f job) :
    booked = jobs.map fun job => (job.1, f job.2) := by
  have hlength : booked.length = jobs.length := by
    have hlen := congrArg List.length hkeys
    simpa using hlen
  refine List.ext_getElem (by simpa using hlength) fun i hi hi' => ?_
  have hj : i < jobs.length := hlength ▸ hi
  have hkey : booked[i].1 = jobs[i].1 := by
    have hget := List.getElem_of_eq hkeys (i := i) (by simpa using hi)
    simpa using hget
  obtain ⟨job, hjob, hvalue⟩ := hvalues (List.getElem_mem hi)
  have hsame : (booked[i].1, job) = jobs[i] :=
    List.inj_on_of_nodup_map hnodup hjob (List.getElem_mem hj) hkey
  rw [List.getElem_map, ← hsame]
  exact Prod.ext rfl hvalue

/-- **At the end** a foreman who only joins has booked the outcomes in the order of his list. -/
theorem booked_eq_of_over [DecidableEq κ] (hreaps : c.reaps = false)
    (hjobs : (jobs.map Prod.fst).Nodup) {turns : List (Actor κ)} {p : Pool κ τ σ ο}
    (hp : p = c.run (.start jobs n shared) turns) (hover : p.Over) {f : τ → ο}
    (houtcomes : ∀ result ∈ p.account.outcomes,
      ∃ job, (result.1, job) ∈ jobs ∧ result.2 = f job) :
    p.booked = jobs.map fun job => (job.1, f job.2) := by
  have horder : p.InOrder jobs := by
    rw [hp]
    exact inOrder_run hreaps jobs n shared turns
  apply eq_map_of_keys hjobs
  · have hkeys := horder.keys
    rw [hover.1, hover.2] at hkeys
    simpa [Stage.jobs] using hkeys
  · intro key outcome hbooked
    refine houtcomes (key, outcome) ?_
    rw [(busy_over_of_over hover).2]
    exact hbooked

end LabelWalks
