/-
  LabelWalks.Proofs.Pool.Account
  ──────────────────────────────
  **NOBODY IS LOST, NOBODY IS BOOKED TWICE, NO PERMIT LEAKS.**

  Where the foreman stands in his list and in which order he goes through his workers
  matters little.  The account of a pool forgets it: it has the workers, and the
  outcomes that were found or booked, in no order.  Every job is then in exactly
  one place, in the list, with a worker or among the outcomes, and every permit that is
  out is with the foreman or with a running worker.

    • `Account.Step`, `account_step` — a turn of the pool is a turn of the account,
    • `Staffed` — each job and each permit in one place,
    • `staffed_run` — it holds in every reachable state,
    • `Staffed.running_le`, `Staffed.of_over` — what follows from it.
-/
import LabelWalks.Proofs.Pool.Step
import Mathlib.Algebra.Order.Group.Multiset

namespace LabelWalks

variable {κ τ σ ο : Type}

/-! ## §1. The account. -/

/-- What a pool has, without order. -/
structure Account (κ τ σ ο : Type) where
  shared : σ
  permits : Permits
  /-- The permits that the foreman has. -/
  inHand : Multiset Nat
  /-- The jobs that have no worker yet. -/
  jobs : List (κ × τ)
  staff : Multiset (Worker κ τ ο)
  /-- What was found or booked. -/
  results : Multiset (κ × ο)

/-- The account of a pool. -/
def Pool.account (p : Pool κ τ σ ο) : Account κ τ σ ο :=
  ⟨p.shared, p.permits, p.stage.permits, p.stage.jobs, p.crew, p.booked + p.stage.found⟩

/-- What a turn can do to an account. -/
inductive Account.Step (c : Craft κ τ σ ο) : Account κ τ σ ο → Account κ τ σ ο → Prop
  | hire {s : σ} {free next : Nat} {live : List Nat} {job : κ × τ} {jobs : List (κ × τ)}
      {staff : Multiset (Worker κ τ ο)} {results : Multiset (κ × ο)} :
      Step c ⟨s, ⟨free + 1, live, next⟩, 0, job :: jobs, staff, results⟩
        ⟨s, ⟨free, next :: live, next + 1⟩, {next}, job :: jobs, staff, results⟩
  | start {s : σ} {permits : Permits} {permit : Nat} {job : κ × τ} {jobs : List (κ × τ)}
      {staff : Multiset (Worker κ τ ο)} {results : Multiset (κ × ο)} :
      Step c ⟨s, permits, {permit}, job :: jobs, staff, results⟩
        ⟨s, permits, 0, jobs, ⟨job.1, permit, .busy job.2⟩ ::ₘ staff, results⟩
  /-- An outcome is booked, or a worker that has not ended is passed by. -/
  | look {a : Account κ τ σ ο} : Step c a a
  /-- An ended worker is found or joined. -/
  | settle {s : σ} {permits : Permits} {inHand : Multiset Nat} {jobs : List (κ × τ)}
      {staff : Multiset (Worker κ τ ο)} {results : Multiset (κ × ο)} {key : κ} {permit : Nat}
      {outcome : ο} :
      Step c ⟨s, permits, inHand, jobs, ⟨key, permit, .ended outcome⟩ ::ₘ staff, results⟩
        ⟨s, permits, inHand, jobs, staff, (key, outcome) ::ₘ results⟩
  | work {s s' : σ} {permits : Permits} {inHand : Multiset Nat} {jobs : List (κ × τ)}
      {staff : Multiset (Worker κ τ ο)} {results : Multiset (κ × ο)} {key : κ} {permit : Nat}
      {task : τ} {next : τ ⊕ ο} (hturn : c.turn key task s = some (s', next)) :
      Step c ⟨s, permits, inHand, jobs, ⟨key, permit, .busy task⟩ ::ₘ staff, results⟩
        ⟨s', permits, inHand, jobs, ⟨key, permit, next.elim .busy .leaving⟩ ::ₘ staff, results⟩
  | leave {s : σ} {permits : Permits} {inHand : Multiset Nat} {jobs : List (κ × τ)}
      {staff : Multiset (Worker κ τ ο)} {results : Multiset (κ × ο)} {key : κ} {permit : Nat}
      {outcome : ο} :
      Step c ⟨s, permits, inHand, jobs, ⟨key, permit, .leaving outcome⟩ ::ₘ staff, results⟩
        ⟨s, permits.release permit, inHand, jobs, ⟨key, permit, .gone outcome⟩ ::ₘ staff, results⟩
  | finish {s : σ} {permits : Permits} {inHand : Multiset Nat} {jobs : List (κ × τ)}
      {staff : Multiset (Worker κ τ ο)} {results : Multiset (κ × ο)} {key : κ} {permit : Nat}
      {outcome : ο} :
      Step c ⟨s, permits, inHand, jobs, ⟨key, permit, .gone outcome⟩ ::ₘ staff, results⟩
        ⟨s, permits, inHand, jobs, ⟨key, permit, .ended outcome⟩ ::ₘ staff, results⟩

/-- The account after a worker has changed, and nobody else. -/
theorem exists_account_put [DecidableEq κ] {p : Pool κ τ σ ο}
    (hkeys : (p.crew.map Worker.key).Nodup) {w : Worker κ τ ο} (hw : w ∈ p.crew)
    (w' : Worker κ τ ο) (hkey : w'.key = w.key) :
    ∃ rest, p.account = { p.account with staff := w ::ₘ rest }
      ∧ (p.put w').account = { p.account with staff := w' ::ₘ rest } := by
  obtain ⟨rest, hold, hnew⟩ := Worker.exists_perm_putIn hkeys hw hkey
  have hstaff : p.account.staff = w ::ₘ rest := Multiset.coe_eq_coe.2 hold
  have hstaff' : (p.put w').account.staff = w' ::ₘ rest := by
    show ((p.put w').crew : Multiset (Worker κ τ ο)) = w' ::ₘ rest
    rw [Pool.crew_put]
    exact Multiset.coe_eq_coe.2 hnew
  have hresults : (p.put w').account.results = p.account.results := by
    show (p.booked : Multiset (κ × ο)) + ((p.stage.put w').found : List (κ × ο)) = _
    rw [Stage.found_put]
    rfl
  refine ⟨rest, ?_, ?_⟩
  · rw [← hstaff]
  · show (⟨p.shared, p.permits, (p.stage.put w').permits, (p.stage.put w').jobs,
      (p.put w').account.staff, (p.put w').account.results⟩ : Account κ τ σ ο) = _
    rw [hstaff', hresults, Stage.permits_put, Stage.jobs_put]
    rfl

/-- **A turn of the pool is a turn of its account.** -/
theorem account_step [DecidableEq κ] {c : Craft κ τ σ ο} {p p' : Pool κ τ σ ο}
    (hkeys : (p.crew.map Worker.key).Nodup) (hstep : c.Step p p') :
    Account.Step c p.account p'.account := by
  cases hstep with
  | @hire job jobs unseen pending hstage hfree hsplit hreaps =>
      obtain ⟨shared, ⟨free, live, next⟩, stage, pending', booked⟩ := p
      subst hstage hsplit
      obtain ⟨n, rfl⟩ : ∃ n, free = n + 1 := ⟨free - 1, (Nat.sub_add_cancel hfree).symm⟩
      exact .hire
  | @find job permit jobs key held outcome unseen found hstage =>
      obtain ⟨shared, permits, stage, pending, booked⟩ := p
      subst hstage
      -- the outcome goes to the end of those that were found
      have hresults : ((booked : Multiset (κ × ο)) + (found ++ [(key, outcome)] : List (κ × ο))) =
          (key, outcome) ::ₘ ((booked : Multiset (κ × ο)) + found) := by
        rw [← Multiset.add_cons]
        refine congrArg (_ + ·) (Multiset.coe_eq_coe.2 ?_)
        exact List.perm_append_singleton _ found
      show Account.Step c
        ⟨shared, permits, {permit}, job :: jobs, ⟨key, held, .ended outcome⟩ ::ₘ
          ((unseen ++ pending : List (Worker κ τ ο)) : Multiset (Worker κ τ ο)), booked + found⟩
        ⟨shared, permits, {permit}, job :: jobs, (unseen ++ pending : List (Worker κ τ ο)),
          booked + (found ++ [(key, outcome)] : List (κ × ο))⟩
      rw [hresults]
      exact .settle
  | @pass job permit jobs w unseen found hstage =>
      obtain ⟨shared, permits, stage, pending, booked⟩ := p
      subst hstage
      have hstaff : ((unseen ++ (pending ++ [w]) : List (Worker κ τ ο)) : Multiset (Worker κ τ ο))
          = (w :: unseen ++ pending : List (Worker κ τ ο)) := by
        refine Multiset.coe_eq_coe.2 ?_
        rw [← List.append_assoc]
        exact List.perm_append_singleton w (unseen ++ pending)
      show Account.Step c
        ⟨shared, permits, {permit}, job :: jobs, (w :: unseen ++ pending : List (Worker κ τ ο)),
          booked + found⟩
        ⟨shared, permits, {permit}, job :: jobs, (unseen ++ (pending ++ [w]) : List (Worker κ τ ο)),
          booked + found⟩
      rw [hstaff]
      exact .look
  | @book job permit jobs result found hstage =>
      obtain ⟨shared, permits, stage, pending, booked⟩ := p
      subst hstage
      have hresults : (((booked ++ [result] : List (κ × ο)) : Multiset (κ × ο)) + found) =
          (booked : Multiset (κ × ο)) + (result :: found : List (κ × ο)) := by
        simp
      show Account.Step c
        ⟨shared, permits, {permit}, job :: jobs, pending,
          booked + (result :: found : List (κ × ο))⟩
        ⟨shared, permits, {permit}, job :: jobs, pending,
          (booked ++ [result] : List (κ × ο)) + found⟩
      rw [hresults]
      exact .look
  | @start job permit jobs hstage =>
      obtain ⟨shared, permits, stage, pending, booked⟩ := p
      subst hstage
      have hstaff : ((pending ++ [⟨job.1, permit, .busy job.2⟩] : List (Worker κ τ ο))
          : Multiset (Worker κ τ ο)) = ⟨job.1, permit, .busy job.2⟩ ::ₘ pending :=
        Multiset.coe_eq_coe.2 (List.perm_append_singleton _ pending)
      show Account.Step c ⟨shared, permits, {permit}, job :: jobs, pending, booked + 0⟩
        ⟨shared, permits, 0, jobs,
          (pending ++ [⟨job.1, permit, .busy job.2⟩] : List (Worker κ τ ο)), booked + 0⟩
      rw [hstaff]
      exact .start
  | @join key held outcome pending hstage hpending =>
      obtain ⟨shared, permits, stage, pending', booked⟩ := p
      have hstage : stage = .next [] := hstage
      have hpending : pending' = ⟨key, held, .ended outcome⟩ :: pending := hpending
      subst hstage hpending
      have hresults : (((booked ++ [(key, outcome)] : List (κ × ο)) : Multiset (κ × ο)) + 0) =
          (key, outcome) ::ₘ ((booked : Multiset (κ × ο)) + 0) := by
        rw [add_zero, add_zero]
        exact Multiset.coe_eq_coe.2 (List.perm_append_singleton _ booked)
      show Account.Step c
        ⟨shared, permits, 0, [], ⟨key, held, .ended outcome⟩ ::ₘ (pending : Multiset (Worker κ τ ο)), booked + 0⟩
        ⟨shared, permits, 0, [], pending, (booked ++ [(key, outcome)] : List (κ × ο)) + 0⟩
      rw [hresults]
      exact .settle
  | @work key permit task shared next hw hturn =>
      obtain ⟨rest, hold, hnew⟩ :=
        exists_account_put hkeys hw ⟨key, permit, next.elim .busy .leaving⟩ rfl
      show Account.Step c p.account { (p.put _).account with shared }
      rw [hnew, hold]
      exact .work hturn
  | @leave key permit outcome hw =>
      obtain ⟨rest, hold, hnew⟩ :=
        exists_account_put hkeys hw ⟨key, permit, .gone outcome⟩ rfl
      show Account.Step c p.account
        { (p.put _).account with permits := p.permits.release permit }
      rw [hnew, hold]
      exact .leave
  | @finish key permit outcome hw =>
      obtain ⟨rest, hold, hnew⟩ :=
        exists_account_put hkeys hw ⟨key, permit, .ended outcome⟩ rfl
      rw [hnew, hold]
      exact .finish

/-! ## §2. Each job and each permit in one place. -/

/-- The permits of the workers that are running. -/
def Worker.permitsOf (staff : Multiset (Worker κ τ ο)) : Multiset Nat :=
  (staff.filter fun w => w.running = true).map Worker.permit

theorem Worker.permitsOf_cons_of_running {w : Worker κ τ ο} (staff : Multiset (Worker κ τ ο))
    (h : w.running = true) : permitsOf (w ::ₘ staff) = w.permit ::ₘ permitsOf staff := by
  unfold permitsOf
  rw [Multiset.filter_cons_of_pos staff h, Multiset.map_cons]

theorem Worker.permitsOf_cons_of_not_running {w : Worker κ τ ο}
    (staff : Multiset (Worker κ τ ο)) (h : w.running = false) :
    permitsOf (w ::ₘ staff) = permitsOf staff := by
  unfold permitsOf
  rw [Multiset.filter_cons_of_neg staff (by simp [h])]

/-- The account is that of a pool which began with `jobs` and `n` permits. -/
structure Staffed (jobs : List (κ × τ)) (n : Nat) (a : Account κ τ σ ο) : Prop where
  /-- Each job is in one place. -/
  keys : a.results.map Prod.fst + a.staff.map Worker.key + (a.jobs.map Prod.fst : List κ)
    = (jobs.map Prod.fst : List κ)
  /-- The jobs are taken in order. -/
  rest : a.jobs <:+ jobs
  /-- Each permit that is out is in one place. -/
  live : (a.permits.live : Multiset Nat) = a.inHand + Worker.permitsOf a.staff
  /-- A permit is free or out. -/
  limit : a.permits.free + a.permits.live.length = max n 1

namespace Staffed

variable {jobs : List (κ × τ)} {n : Nat}

theorem nodup_crew {p : Pool κ τ σ ο} (h : Staffed jobs n p.account)
    (hjobs : (jobs.map Prod.fst).Nodup) : (p.crew.map Worker.key).Nodup := by
  have hall : (p.account.results.map Prod.fst + p.account.staff.map Worker.key
      + (p.account.jobs.map Prod.fst : List κ)).Nodup := by
    rw [h.keys]
    exact hjobs
  have hstaff : (p.account.staff.map Worker.key).Nodup :=
    (Multiset.nodup_add.1 (Multiset.nodup_add.1 hall).1).2.1
  exact hstaff

/-- A worker gives back the permit that it has, and no other. -/
theorem release_eq {permits : Permits} {permit : Nat} {rest : Multiset Nat}
    (hlive : (permits.live : Multiset Nat) = permit ::ₘ rest) :
    ((permits.release permit).live : Multiset Nat) = rest
      ∧ (permits.release permit).free + (permits.release permit).live.length
        = permits.free + permits.live.length := by
  have hmem : permit ∈ permits.live := by
    have hcons : permit ∈ (permits.live : Multiset Nat) := by simp [hlive]
    exact hcons
  have hrelease : permits.release permit =
      ⟨permits.free + 1, permits.live.erase permit, permits.next⟩ := by
    unfold Permits.release Permits.putBack
    rw [if_pos hmem]
  rw [hrelease]
  constructor
  · show ((permits.live.erase permit : List Nat) : Multiset Nat) = rest
    rw [← Multiset.coe_erase, hlive, Multiset.erase_cons_head]
  · show permits.free + 1 + (permits.live.erase permit).length = _
    have hpos := List.length_pos_of_mem hmem
    rw [List.length_erase_of_mem hmem]
    omega

/-- **Every turn keeps each job and each permit in one place.** -/
theorem step {c : Craft κ τ σ ο} {a a' : Account κ τ σ ο} (hstep : Account.Step c a a')
    (h : Staffed jobs n a) : Staffed jobs n a' := by
  obtain ⟨hkeys, hrest, hlive, hlimit⟩ := h
  cases hstep with
  | look => exact ⟨hkeys, hrest, hlive, hlimit⟩
  | @hire s free next live job rest staff results =>
      refine ⟨hkeys, hrest, ?_, ?_⟩
      · show next ::ₘ (live : Multiset Nat) = {next} + Worker.permitsOf staff
        rw [show (live : Multiset Nat) = 0 + Worker.permitsOf staff from hlive, zero_add]
        rfl
      · show free + (live.length + 1) = max n 1
        have hlimit : free + 1 + live.length = max n 1 := hlimit
        omega
  | @start s permits permit job rest staff results =>
      refine ⟨?_, (List.suffix_cons job rest).trans hrest, ?_, hlimit⟩
      · rw [← hkeys]
        simp [← Multiset.cons_coe]
      · rw [hlive, Worker.permitsOf_cons_of_running staff rfl]
        simp
  | @settle s permits inHand rest staff results key permit outcome =>
      refine ⟨?_, hrest, ?_, hlimit⟩
      · rw [← hkeys]
        simp
      · rw [hlive, Worker.permitsOf_cons_of_not_running staff rfl]
  | @work s s' permits inHand rest staff results key permit task next hturn =>
      refine ⟨?_, hrest, ?_, hlimit⟩
      · rw [← hkeys]
        simp
      · have hrunning : (⟨key, permit, next.elim .busy .leaving⟩ : Worker κ τ ο).running = true := by
          cases next <;> rfl
        rw [hlive, Worker.permitsOf_cons_of_running staff rfl,
          Worker.permitsOf_cons_of_running staff hrunning]
  | @leave s permits inHand rest staff results key permit outcome =>
      have hout : (permits.live : Multiset Nat) =
          permit ::ₘ (inHand + Worker.permitsOf staff) := by
        rw [hlive, Worker.permitsOf_cons_of_running staff rfl, Multiset.add_cons]
      obtain ⟨hback, hsame⟩ := release_eq hout
      refine ⟨?_, hrest, ?_, ?_⟩
      · rw [← hkeys]
        simp
      · rw [hback, Worker.permitsOf_cons_of_not_running staff rfl]
      · rw [hsame]
        exact hlimit
  | @finish s permits inHand rest staff results key permit outcome =>
      refine ⟨?_, hrest, ?_, hlimit⟩
      · rw [← hkeys]
        simp
      · rw [hlive, Worker.permitsOf_cons_of_not_running staff rfl,
          Worker.permitsOf_cons_of_not_running staff rfl]

end Staffed

theorem staffed_start (jobs : List (κ × τ)) (n : Nat) (shared : σ) :
    Staffed jobs n (.start jobs n shared : Pool κ τ σ ο).account :=
  ⟨by simp [Pool.account, Pool.start, Pool.crew, Stage.unseen, Stage.found, Stage.jobs],
    List.suffix_refl jobs, rfl, Nat.add_zero _⟩

/-- **From one turn of the account to all runs of the pool.** -/
theorem account_run_preserves [DecidableEq κ] {c : Craft κ τ σ ο} {jobs : List (κ × τ)}
    (hjobs : (jobs.map Prod.fst).Nodup) {n : Nat} {shared : σ} {I : Account κ τ σ ο → Prop}
    (hstart : I (.start jobs n shared : Pool κ τ σ ο).account)
    (hstep : ∀ a a', Account.Step c a a' → Staffed jobs n a → I a → I a')
    (turns : List (Actor κ)) :
    Staffed jobs n (c.run (.start jobs n shared) turns).account
      ∧ I (c.run (.start jobs n shared) turns).account := by
  refine Craft.run_preserves (I := fun p => Staffed jobs n p.account ∧ I p.account)
    (fun p p' hturn h => ?_) ⟨staffed_start jobs n shared, hstart⟩ turns
  have hmove := account_step (h.1.nodup_crew hjobs) hturn
  exact ⟨h.1.step hmove, hstep _ _ hmove h.1 h.2⟩

/-- **In every reachable state each job and each permit is in one place.** -/
theorem staffed_run [DecidableEq κ] (c : Craft κ τ σ ο) {jobs : List (κ × τ)}
    (hjobs : (jobs.map Prod.fst).Nodup) (n : Nat) (shared : σ) (turns : List (Actor κ)) :
    Staffed jobs n (c.run (.start jobs n shared) turns).account :=
  (account_run_preserves (I := fun _ => True) hjobs trivial (fun _ _ _ _ _ => trivial) turns).1

/-! ## §3. What follows. -/

namespace Staffed

variable {jobs : List (κ × τ)} {n : Nat} {p : Pool κ τ σ ο}

/-- **As many workers run as there are permits**, at most. -/
theorem running_le (h : Staffed jobs n p.account) :
    (p.crew.filter Worker.running).length ≤ max n 1 := by
  have hlive := congrArg Multiset.card h.live
  have hteam : (Worker.permitsOf p.account.staff).card = (p.crew.filter Worker.running).length := by
    simp [Worker.permitsOf, Pool.account]
  rw [Multiset.coe_card, Multiset.card_add, hteam] at hlive
  have hlimit := h.limit
  omega

/-- **At the end** each job is booked once and all permits are back. -/
theorem of_over (h : Staffed jobs n p.account) (hover : p.Over) :
    (p.booked.map Prod.fst).Perm (jobs.map Prod.fst)
      ∧ p.permits.free = max n 1 ∧ p.permits.live = [] := by
  obtain ⟨shared, permits, stage, pending, booked⟩ := p
  obtain ⟨hstage, hpending⟩ := hover
  obtain ⟨hkeys, hrest, hlive, hlimit⟩ := h
  subst hstage hpending
  have hnone : permits.live = [] := by
    simpa [Worker.permitsOf, Pool.account, Pool.crew, Stage.unseen, Stage.permits] using hlive
  refine ⟨?_, ?_, hnone⟩
  · simpa [Pool.account, Pool.crew, Stage.jobs, Stage.unseen, Stage.found] using hkeys
  · rw [← hlimit]
    show permits.free = permits.free + permits.live.length
    rw [hnone]
    rfl

end Staffed

end LabelWalks
