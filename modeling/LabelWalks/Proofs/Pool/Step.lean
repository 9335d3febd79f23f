/-
  LabelWalks.Proofs.Pool.Step
  ───────────────────────────
  **WHAT ONE TURN CAN DO.**

  `Craft.Step` lists what a turn can do to a pool, the foreman's six actions and
  the three of a worker; whatever holds along all runs is shown by a case analysis
  on it.  No invariant opens the turns themselves.

    • `step_of_step?` — the list is complete,
    • `Worker.exists_perm_putIn` — the crew after the turn of one worker,
    • `run_preserves` — from one step to all runs.
-/
import LabelWalks.Pool
import Mathlib.Data.Multiset.Filter
import Mathlib.Data.Multiset.MapFold
import Mathlib.Data.Multiset.UnionInter

namespace LabelWalks

variable {κ τ σ ο : Type}

/-! ## §1. Permits. -/

theorem Permits.acquire?_eq_none_iff {p : Permits} : p.acquire? = none ↔ p.free = 0 := by
  unfold acquire?
  by_cases h : p.free = 0 <;> simp [h]

theorem Permits.acquire?_eq_some_iff {p q : Permits} :
    p.acquire? = some q ↔ 0 < p.free ∧ q = ⟨p.free - 1, p.next :: p.live, p.next + 1⟩ := by
  unfold acquire?
  by_cases h : p.free = 0
  · simp [h]
  · simp only [if_neg h, Option.some.injEq]
    constructor
    · intro hq
      exact ⟨by omega, hq.symm⟩
    · intro hq
      exact hq.2.symm

/-! ## §2. One worker in the place of another. -/

theorem Worker.eq_of_outcome? {w : Worker κ τ ο} {outcome : ο} (h : w.outcome? = some outcome) :
    w = ⟨w.key, w.permit, .ended outcome⟩ := by
  obtain ⟨key, permit, phase⟩ := w
  cases phase with
  | ended o =>
      have ho : o = outcome := Option.some.inj h
      rw [ho]
  | busy task => cases h
  | leaving o => cases h
  | gone o => cases h

section
variable [DecidableEq κ]

@[simp] theorem Worker.map_key_putIn (w : Worker κ τ ο) (ws : List (Worker κ τ ο)) :
    (w.putIn ws).map Worker.key = ws.map Worker.key := by
  unfold putIn
  rw [List.map_map]
  refine List.map_congr_left fun x _ => ?_
  show (if x.key = w.key then w else x).key = x.key
  by_cases h : x.key = w.key <;> simp [h]

/-- Nobody else is touched when the keys differ. -/
theorem Worker.putIn_eq_self {w : Worker κ τ ο} {ws : List (Worker κ τ ο)}
    (h : w.key ∉ ws.map Worker.key) : w.putIn ws = ws := by
  unfold putIn
  refine (List.map_congr_left fun x hx => ?_).trans (List.map_id ws)
  have hkey : x.key ≠ w.key := fun hkey => h (hkey ▸ List.mem_map_of_mem hx)
  simp [hkey]

theorem Worker.putIn_append (w : Worker κ τ ο) (xs ys : List (Worker κ τ ο)) :
    w.putIn (xs ++ ys) = w.putIn xs ++ w.putIn ys :=
  List.map_append

namespace Stage

variable (w : Worker κ τ ο) (s : Stage κ τ ο)

@[simp] theorem jobs_put : (s.put w).jobs = s.jobs := by cases s <;> rfl

@[simp] theorem permits_put : (s.put w).permits = s.permits := by cases s <;> rfl

@[simp] theorem found_put : (s.put w).found = s.found := by cases s <;> rfl

theorem unseen_put : (s.put w).unseen = w.putIn s.unseen := by cases s <;> rfl

end Stage

theorem Pool.crew_put (p : Pool κ τ σ ο) (w : Worker κ τ ο) : (p.put w).crew = w.putIn p.crew := by
  show (p.stage.put w).unseen ++ w.putIn p.pending = w.putIn (p.stage.unseen ++ p.pending)
  rw [Worker.putIn_append, Stage.unseen_put]

/-- **The crew after the turn of one worker**: that worker has changed, and no other. -/
theorem Worker.exists_perm_putIn {ws : List (Worker κ τ ο)} {w w' : Worker κ τ ο}
    (hkeys : (ws.map Worker.key).Nodup) (hw : w ∈ ws) (hkey : w'.key = w.key) :
    ∃ rest, ws.Perm (w :: rest) ∧ (w'.putIn ws).Perm (w' :: rest) := by
  obtain ⟨before, after, rfl⟩ := List.append_of_mem hw
  have hnotin : w'.key ∉ before.map Worker.key ∧ w'.key ∉ after.map Worker.key := by
    rw [List.map_append, List.map_cons] at hkeys
    rw [hkey]
    have hapart := List.nodup_middle.1 hkeys
    rw [List.nodup_cons, List.mem_append, not_or] at hapart
    exact hapart.1
  refine ⟨before ++ after, List.perm_middle, ?_⟩
  have hsplit : w'.putIn (before ++ w :: after) = before ++ w' :: after := by
    rw [Worker.putIn_append, putIn_eq_self hnotin.1]
    show before ++ (if w.key = w'.key then w' else w) :: w'.putIn after = _
    rw [if_pos hkey.symm, putIn_eq_self hnotin.2]
  rw [hsplit]
  exact List.perm_middle

end

/-! ## §3. The turns of a pool. -/

namespace Craft

variable [DecidableEq κ] {c : Craft κ τ σ ο}

/-- All that a turn can do to a pool. -/
inductive Step (c : Craft κ τ σ ο) (p : Pool κ τ σ ο) : Pool κ τ σ ο → Prop
  /-- The foreman takes a permit and turns to the workers that he will look at. -/
  | hire {job : κ × τ} {jobs : List (κ × τ)} {unseen pending : List (Worker κ τ ο)}
      (hstage : p.stage = .next (job :: jobs)) (hfree : 0 < p.permits.free)
      (hsplit : p.pending = unseen ++ pending) (hreaps : c.reaps = false → unseen = []) :
      Step c p { p with
        permits := ⟨p.permits.free - 1, p.permits.next :: p.permits.live, p.permits.next + 1⟩,
        stage := .hiring job p.permits.next jobs unseen [], pending }
  /-- He sees that a worker has ended. -/
  | find {job : κ × τ} {permit : Nat} {jobs : List (κ × τ)} {key : κ} {held : Nat} {outcome : ο}
      {unseen : List (Worker κ τ ο)} {found : List (κ × ο)}
      (hstage : p.stage = .hiring job permit jobs (⟨key, held, .ended outcome⟩ :: unseen) found) :
      Step c p { p with stage := .hiring job permit jobs unseen (found ++ [(key, outcome)]) }
  /-- He sees that a worker has not ended. -/
  | pass {job : κ × τ} {permit : Nat} {jobs : List (κ × τ)} {w : Worker κ τ ο}
      {unseen : List (Worker κ τ ο)} {found : List (κ × ο)}
      (hstage : p.stage = .hiring job permit jobs (w :: unseen) found) :
      Step c p { p with
        stage := .hiring job permit jobs unseen found, pending := p.pending ++ [w] }
  /-- He books an outcome. -/
  | book {job : κ × τ} {permit : Nat} {jobs : List (κ × τ)} {result : κ × ο}
      {found : List (κ × ο)} (hstage : p.stage = .hiring job permit jobs [] (result :: found)) :
      Step c p { p with
        stage := .hiring job permit jobs [] found, booked := p.booked ++ [result] }
  /-- He starts a worker. -/
  | start {job : κ × τ} {permit : Nat} {jobs : List (κ × τ)}
      (hstage : p.stage = .hiring job permit jobs [] []) :
      Step c p { p with
        stage := .next jobs, pending := p.pending ++ [⟨job.1, permit, .busy job.2⟩] }
  /-- He joins a worker. -/
  | join {key : κ} {held : Nat} {outcome : ο} {pending : List (Worker κ τ ο)}
      (hstage : p.stage = .next []) (hpending : p.pending = ⟨key, held, .ended outcome⟩ :: pending) :
      Step c p { p with pending, booked := p.booked ++ [(key, outcome)] }
  /-- A worker goes on with its task or comes to an outcome. -/
  | work {key : κ} {permit : Nat} {task : τ} {shared : σ} {next : τ ⊕ ο}
      (hw : ⟨key, permit, .busy task⟩ ∈ p.crew)
      (hturn : c.turn key task p.shared = some (shared, next)) :
      Step c p { p.put ⟨key, permit, next.elim .busy .leaving⟩ with shared }
  /-- A worker gives its permit back. -/
  | leave {key : κ} {permit : Nat} {outcome : ο} (hw : ⟨key, permit, .leaving outcome⟩ ∈ p.crew) :
      Step c p { p.put ⟨key, permit, .gone outcome⟩ with permits := p.permits.release permit }
  /-- A worker ends. -/
  | finish {key : κ} {permit : Nat} {outcome : ο} (hw : ⟨key, permit, .gone outcome⟩ ∈ p.crew) :
      Step c p (p.put ⟨key, permit, .ended outcome⟩)

/-- Only a worker at its task changes what is shared. -/
theorem Step.shared_eq_or {p p' : Pool κ τ σ ο} (h : Step c p p') :
    p'.shared = p.shared ∨ ∃ key permit task next, ⟨key, permit, .busy task⟩ ∈ p.crew
      ∧ c.turn key task p.shared = some (p'.shared, next) := by
  cases h with
  | hire | find | pass | book | start | join | leave | finish => exact .inl rfl
  | work hw hturn => exact .inr ⟨_, _, _, _, hw, hturn⟩

theorem step_of_foreman? {p p' : Pool κ τ σ ο} (h : c.foreman? p = some p') : Step c p p' := by
  obtain ⟨shared, permits, stage, pending, booked⟩ := p
  unfold foreman? at h
  cases stage with
  | next jobs =>
      cases jobs with
      | cons job jobs =>
          obtain ⟨q, hq, hp'⟩ := Option.map_eq_some_iff.1 h
          obtain ⟨hfree, rfl⟩ := Permits.acquire?_eq_some_iff.1 hq
          cases hreaps : c.reaps with
          | true =>
              rw [hreaps, if_pos rfl] at hp'
              rw [← hp']
              exact .hire rfl hfree (List.append_nil _).symm (fun hno => by simp [hreaps] at hno)
          | false =>
              rw [hreaps, if_neg (by simp)] at hp'
              rw [← hp']
              exact .hire rfl hfree rfl (fun _ => rfl)
      | nil =>
          cases pending with
          | nil => cases h
          | cons w pending =>
              obtain ⟨outcome, houtcome, hp'⟩ := Option.map_eq_some_iff.1 h
              have hw : w = ⟨w.key, w.permit, .ended outcome⟩ := Worker.eq_of_outcome? houtcome
              rw [← hp']
              exact .join rfl (by rw [← hw])
  | hiring job permit jobs unseen found =>
      cases unseen with
      | cons w unseen =>
          cases houtcome : w.outcome? with
          | some outcome =>
              have hw : w = ⟨w.key, w.permit, .ended outcome⟩ := Worker.eq_of_outcome? houtcome
              simp only [houtcome, Option.some.injEq] at h
              rw [← h]
              exact Step.find (by rw [← hw])
          | none =>
              simp only [houtcome, Option.some.injEq] at h
              rw [← h]
              exact .pass rfl
      | nil =>
          cases found with
          | cons result found =>
              rw [← Option.some.inj h]
              exact .book rfl
          | nil =>
              rw [← Option.some.inj h]
              exact .start rfl

theorem step_of_worker? {p p' : Pool κ τ σ ο} {key : κ} (h : c.worker? p key = some p') :
    Step c p p' := by
  unfold worker? at h
  simp only [Option.bind_eq_bind, Option.bind_eq_some_iff] at h
  obtain ⟨⟨key', permit, phase⟩, hfind, ⟨w', shared, permits⟩, hadvance, hp'⟩ := h
  have hw : (⟨key', permit, phase⟩ : Worker κ τ ο) ∈ p.crew := List.mem_of_find?_eq_some hfind
  rw [← Option.some.inj hp']
  unfold advance? at hadvance
  cases phase with
  | busy task =>
      obtain ⟨⟨shared', next⟩, hturn, hnext⟩ := Option.map_eq_some_iff.1 hadvance
      obtain ⟨rfl, rfl, rfl⟩ := (by simpa using hnext : _ ∧ _ ∧ _)
      exact .work hw hturn
  | leaving outcome =>
      obtain ⟨rfl, rfl, rfl⟩ := (by simpa using hadvance : _ ∧ _ ∧ _)
      exact .leave hw
  | gone outcome =>
      obtain ⟨rfl, rfl, rfl⟩ := (by simpa using hadvance : _ ∧ _ ∧ _)
      exact .finish hw
  | ended outcome => cases hadvance

/-- **Whatever takes a turn**, it does one of the nine things. -/
theorem step_of_step? {p p' : Pool κ τ σ ο} {a : Actor κ} (h : c.step? p a = some p') :
    Step c p p' := by
  cases a with
  | foreman => exact step_of_foreman? h
  | worker key => exact step_of_worker? h

/-- A turn that is let pass changes nothing. -/
theorem step_eq_or (c : Craft κ τ σ ο) (p : Pool κ τ σ ο) (a : Actor κ) :
    c.step p a = p ∨ Step c p (c.step p a) := by
  unfold step
  cases h : c.step? p a with
  | none => exact .inl rfl
  | some p' => exact .inr (step_of_step? h)

/-- **From one step to all runs.** -/
theorem run_preserves {I : Pool κ τ σ ο → Prop} (hstep : ∀ p p', Step c p p' → I p → I p')
    {p : Pool κ τ σ ο} (hp : I p) (turns : List (Actor κ)) : I (c.run p turns) := by
  induction turns generalizing p with
  | nil => exact hp
  | cons a turns ih =>
      show I (c.run (c.step p a) turns)
      apply ih
      rcases step_eq_or c p a with hidle | hdone
      · rw [hidle]
        exact hp
      · exact hstep _ _ hdone hp

end Craft

/-! ## §4. A foreman who only joins. -/

/-- The foreman books the jobs in the order of his list. -/
structure Pool.InOrder (jobs : List (κ × τ)) (p : Pool κ τ σ ο) : Prop where
  unseen : p.stage.unseen = []
  found : p.stage.found = []
  keys : p.booked.map Prod.fst ++ p.pending.map Worker.key ++ p.stage.jobs.map Prod.fst
    = jobs.map Prod.fst

variable [DecidableEq κ] {jobs : List (κ × τ)} {p p' : Pool κ τ σ ο}

theorem Pool.InOrder.put (h : p.InOrder jobs) (w : Worker κ τ ο) (shared : σ) (permits : Permits) :
    Pool.InOrder jobs { p.put w with shared, permits } := by
  refine ⟨?_, ?_, ?_⟩
  · show (p.stage.put w).unseen = []
    rw [Stage.unseen_put, h.unseen]
    rfl
  · show (p.stage.put w).found = []
    rw [Stage.found_put, h.found]
  · rw [← h.keys]
    simp [Pool.put]

/-- **Without looking for ended workers** no turn changes the order. -/
theorem Pool.InOrder.step {c : Craft κ τ σ ο} (hreaps : c.reaps = false) (hstep : c.Step p p')
    (h : p.InOrder jobs) : p'.InOrder jobs := by
  have hunseen := h.unseen
  have hfound := h.found
  have hkeys := h.keys
  cases hstep with
  | hire hstage hfree hsplit hno =>
      rw [hno hreaps] at hsplit ⊢
      rw [hstage, hsplit] at hkeys
      exact ⟨rfl, rfl, hkeys⟩
  | find hstage | pass hstage =>
      -- there is nobody to look at
      rw [hstage] at hunseen
      cases hunseen
  | book hstage =>
      rw [hstage] at hfound
      cases hfound
  | start hstage =>
      refine ⟨rfl, rfl, ?_⟩
      rw [← hkeys, hstage]
      simp [Stage.jobs]
  | join hstage hpending =>
      refine ⟨hunseen, hfound, ?_⟩
      rw [← hkeys, hpending]
      simp
  | work hw hturn => exact h.put _ _ p.permits
  | leave hw => exact h.put _ p.shared _
  | finish hw => exact h.put _ p.shared p.permits

theorem inOrder_run {c : Craft κ τ σ ο} (hreaps : c.reaps = false) (jobs : List (κ × τ)) (n : Nat)
    (shared : σ) (turns : List (Actor κ)) : (c.run (.start jobs n shared) turns).InOrder jobs :=
  Craft.run_preserves (fun _ _ hstep => Pool.InOrder.step hreaps hstep) ⟨rfl, rfl, rfl⟩ turns

end LabelWalks
