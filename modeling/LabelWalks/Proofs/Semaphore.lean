/-
  LabelWalks.Proofs.Semaphore
  ───────────────────────────
  **NO PERMIT IS LOST AND NONE COMES BACK TWICE.**

  Putting a permit back asks for nothing: a permit that came back twice would raise the
  bound for good, and one that got lost would lower it.  Neither happens, whatever the
  threads do and in whatever order: each permit that is out is with exactly one thread, and
  so the permits that are free and those that are out are always as many as at the start.

    • `Step`, `step_of_step?` — what one step can do,
    • `Balanced`, `balanced_of_run?` — where the permits are,
    • `Awake`, `awake_of_run?` — no sleeper is forgotten,
    • `exists_unwind` — a thread that panicked can return all that it has,
    • `Conserved`, `conserved_of_run?` — what holds after every run.
-/
import LabelWalks.Proofs.Pool.Step
import LabelWalks.Semaphore
import Mathlib.Data.List.Dedup
import Mathlib.Data.List.Induction

namespace LabelWalks

namespace Semaphore

variable {κ : Type} {s s' : Semaphore κ} {move : Move κ}

/-! ## §1. What one step can do. -/

section
variable [DecidableEq κ]

/-- All that a step can do to a semaphore. -/
inductive Step (s : Semaphore κ) : Move κ → Semaphore κ → Prop
  | ask {t : κ} (hidle : t ∉ s.waiters) (hsound : t ∉ s.unwinding) :
      Step s (.ask t) { s with asking := t :: s.asking }
  /-- A thread looks and finds a permit. -/
  | take {t : κ} (hask : t ∈ s.asking) (hfree : 0 < s.stock.free) :
      Step s (.look t) { s with
        stock := ⟨s.stock.free - 1, s.stock.next :: s.stock.live, s.stock.next + 1⟩,
        held := (s.stock.next, t) :: s.held, asking := s.asking.erase t }
  /-- A thread looks and finds none. -/
  | sleep {t : κ} (hask : t ∈ s.asking) (hnone : s.stock.free = 0) :
      Step s (.look t) { s with asking := s.asking.erase t, asleep := t :: s.asleep }
  | drop {t : κ} {permit : Nat} (hheld : (permit, t) ∈ s.held) (hidle : t ∉ s.waiters) :
      Step s (.drop t permit) { s with
        stock := s.stock.putBack permit, held := s.held.erase (permit, t), calls := s.calls + 1 }
  /-- A call wakes a sleeper. -/
  | wake {t : κ} (hdue : 0 < s.calls) (hsleep : t ∈ s.asleep) :
      Step s (.call (some t)) { s with
        calls := s.calls - 1, asking := t :: s.asking, asleep := s.asleep.erase t }
  /-- A call finds nobody asleep. -/
  | echo (hdue : 0 < s.calls) (hnobody : s.asleep = []) :
      Step s (.call none) { s with calls := s.calls - 1 }
  | stir {t : κ} (hsleep : t ∈ s.asleep) :
      Step s (.stir t) { s with asking := t :: s.asking, asleep := s.asleep.erase t }
  | pass {t heir : κ} {permit : Nat} (hheld : (permit, t) ∈ s.held) (hidle : t ∉ s.waiters)
      (hsound : t ∉ s.unwinding) :
      Step s (.pass t permit heir) { s with
        held := s.held.map fun row => if row = (permit, t) then (permit, heir) else row }
  | panic {t : κ} (hidle : t ∉ s.waiters) (hsound : t ∉ s.unwinding) :
      Step s (.panic t) { s with unwinding := t :: s.unwinding }

/-- **Whatever step is taken**, it does one of the nine things. -/
theorem step_of_step? (h : s.step? move = some s') : Step s move s' := by
  unfold step? at h
  cases move with
  | ask t =>
      obtain ⟨⟨hidle, hsound⟩, hs⟩ := Option.ite_none_right_eq_some.1 h
      rw [← Option.some.inj hs]
      exact .ask hidle hsound
  | look t =>
      by_cases hask : t ∈ s.asking
      · simp only [if_pos hask] at h
        cases hstock : s.stock.acquire? with
        | some stock =>
            obtain ⟨hfree, rfl⟩ := Permits.acquire?_eq_some_iff.1 hstock
            simp only [hstock, Option.some.injEq] at h
            subst h
            exact .take hask hfree
        | none =>
            simp only [hstock, Option.some.injEq] at h
            subst h
            exact .sleep hask (Permits.acquire?_eq_none_iff.1 hstock)
      · simp only [if_neg hask, reduceCtorEq] at h
  | drop t permit =>
      obtain ⟨⟨hheld, hidle⟩, hs⟩ := Option.ite_none_right_eq_some.1 h
      rw [← Option.some.inj hs]
      exact .drop hheld hidle
  | call sleeper =>
      cases sleeper with
      | some t =>
          obtain ⟨⟨hdue, hsleep⟩, hs⟩ := Option.ite_none_right_eq_some.1 h
          rw [← Option.some.inj hs]
          exact .wake hdue hsleep
      | none =>
          obtain ⟨⟨hdue, hnobody⟩, hs⟩ := Option.ite_none_right_eq_some.1 h
          rw [← Option.some.inj hs]
          exact .echo hdue hnobody
  | stir t =>
      obtain ⟨hsleep, hs⟩ := Option.ite_none_right_eq_some.1 h
      rw [← Option.some.inj hs]
      exact .stir hsleep
  | pass t permit heir =>
      obtain ⟨⟨hheld, hidle, hsound⟩, hs⟩ := Option.ite_none_right_eq_some.1 h
      rw [← Option.some.inj hs]
      exact .pass hheld hidle hsound
  | panic t =>
      obtain ⟨⟨hidle, hsound⟩, hs⟩ := Option.ite_none_right_eq_some.1 h
      rw [← Option.some.inj hs]
      exact .panic hidle hsound

theorem run?_concat (moves : List (Move κ)) (move : Move κ) :
    s.run? (moves ++ [move]) = (s.run? moves).bind fun s => s.step? move := by
  unfold run?
  rw [List.foldlM_append]
  cases moves.foldlM step? s with
  | none => rfl
  | some s =>
      show (s.step? move).bind some = s.step? move
      cases s.step? move <;> rfl

theorem run?_cons (moves : List (Move κ)) : s.run? (move :: moves) =
    (s.step? move).bind fun s => s.run? moves := rfl

/-- **From one step to all runs**, with the steps that were taken. -/
theorem run?_preserves {I : List (Move κ) → Semaphore κ → Prop} (hstart : I [] s)
    (hstep : ∀ moves s move s', I moves s → Step s move s' → I (moves ++ [move]) s')
    (moves : List (Move κ)) : ∀ {s'}, s.run? moves = some s' → I moves s' := by
  -- from the end, where the last step was taken
  induction moves using List.reverseRecOn with
  | nil =>
      intro s' h
      rw [← Option.some.inj h]
      exact hstart
  | append_singleton moves move ih =>
      intro s' h
      rw [run?_concat] at h
      obtain ⟨s₁, hrun, hlast⟩ := Option.bind_eq_some_iff.1 h
      exact hstep moves s₁ move s' (ih hrun) (step_of_step? hlast)

end

/-! ## §2. Where the permits are. -/

/-- Whether a step puts a permit back. -/
def Move.returns (permit : Nat) : Move κ → Bool
  | .drop _ k => k = permit
  | _ => false

/-- How many steps put a permit back. -/
def returned (moves : List (Move κ)) (permit : Nat) : Nat :=
  moves.countP (Move.returns permit)

theorem returned_concat (moves : List (Move κ)) (move : Move κ) (permit : Nat) :
    returned (moves ++ [move]) permit =
      returned moves permit + if move.returns permit then 1 else 0 := by
  unfold returned
  rw [List.countP_append, List.countP_singleton]

/-- Every permit is free, with one thread, or returned once. -/
structure Balanced (n : Nat) (moves : List (Move κ)) (s : Semaphore κ) : Prop where
  total : s.stock.free + s.stock.live.length = max n 1
  nodup : s.stock.live.Nodup
  issued : ∀ permit ∈ s.stock.live, permit < s.stock.next
  owners : s.held.map Prod.fst = s.stock.live
  returns : ∀ permit, returned moves permit =
    if permit < s.stock.next ∧ permit ∉ s.stock.live then 1 else 0

namespace Balanced

variable {n : Nat} {moves : List (Move κ)} {t : κ} {permit : Nat}

theorem mem_live (h : Balanced n moves s) (hheld : (permit, t) ∈ s.held) :
    permit ∈ s.stock.live := by
  rw [← h.owners]
  exact List.mem_map_of_mem hheld

/-- A permit that is out is with one thread. -/
theorem existsUnique_owner (h : Balanced n moves s) (hlive : permit ∈ s.stock.live) :
    ∃! t, (permit, t) ∈ s.held := by
  have hnodup := h.nodup
  rw [← h.owners] at hlive hnodup
  obtain ⟨⟨k, t⟩, hmem, rfl⟩ := List.mem_map.1 hlive
  refine ⟨t, hmem, fun u hu => ?_⟩
  exact congrArg Prod.snd (List.inj_on_of_nodup_map hnodup hu hmem rfl)

/-- A step that is no drop and issues no permit leaves the balance as it is. -/
theorem of_same (h : Balanced n moves s) (hstock : s'.stock = s.stock)
    (howners : s'.held.map Prod.fst = s.held.map Prod.fst)
    (hmove : ∀ permit, move.returns permit = false) : Balanced n (moves ++ [move]) s' where
  total := by rw [hstock]; exact h.total
  nodup := by rw [hstock]; exact h.nodup
  issued := by rw [hstock]; exact h.issued
  owners := by rw [howners, hstock]; exact h.owners
  returns := by
    intro permit
    rw [returned_concat, hmove, hstock, h.returns]
    rfl

/-- A permit that is issued was not there before. -/
theorem take (h : Balanced n moves s) (hfree : 0 < s.stock.free) (asking : List κ) :
    Balanced n (moves ++ [.look t]) { s with
      stock := ⟨s.stock.free - 1, s.stock.next :: s.stock.live, s.stock.next + 1⟩,
      held := (s.stock.next, t) :: s.held, asking } where
  total := by
    have htotal := h.total
    show s.stock.free - 1 + (s.stock.live.length + 1) = max n 1
    omega
  nodup := List.nodup_cons.2 ⟨fun hmem => Nat.lt_irrefl _ (h.issued _ hmem), h.nodup⟩
  issued := by
    intro permit hmem
    rcases List.mem_cons.1 hmem with rfl | hmem
    · exact Nat.lt_succ_self _
    · exact Nat.lt_succ_of_lt (h.issued _ hmem)
  owners := by
    show s.stock.next :: s.held.map Prod.fst = s.stock.next :: s.stock.live
    rw [h.owners]
  returns := by
    intro permit
    rw [returned_concat, h.returns]
    show _ + 0 = if permit < s.stock.next + 1 ∧ permit ∉ s.stock.next :: s.stock.live then 1 else 0
    refine if_congr ?_ rfl rfl
    rw [List.mem_cons, not_or]
    constructor
    · intro hout
      exact ⟨by omega, by omega, hout.2⟩
    · intro hout
      exact ⟨by omega, hout.2.2⟩

variable [DecidableEq κ]

/-- Without its owner a permit is not among those that threads have. -/
theorem map_fst_erase {rows : List (Nat × κ)} (hnodup : (rows.map Prod.fst).Nodup)
    (hmem : (permit, t) ∈ rows) :
    (rows.erase (permit, t)).map Prod.fst = (rows.map Prod.fst).erase permit := by
  induction rows with
  | nil => cases hmem
  | cons row rows ih =>
      obtain ⟨hhead, htail⟩ := List.nodup_cons.1 hnodup
      by_cases hrow : row = (permit, t)
      · subst hrow
        rw [List.erase_cons_head, List.map_cons, List.erase_cons_head]
      · have hmem : (permit, t) ∈ rows := (List.mem_cons.1 hmem).resolve_left (Ne.symm hrow)
        have hne : row.1 ≠ permit := by
          intro heq
          rw [heq] at hhead
          exact hhead (List.mem_map_of_mem hmem)
        rw [List.erase_cons_tail (by simpa using hrow), List.map_cons, List.map_cons,
          List.erase_cons_tail (by simpa using hne), ih htail hmem]

theorem map_fst_pass {rows : List (Nat × κ)} {heir : κ} :
    (rows.map fun row => if row = (permit, t) then (permit, heir) else row).map Prod.fst =
      rows.map Prod.fst := by
  rw [List.map_map]
  refine List.map_congr_left fun row _ => ?_
  show (if row = (permit, t) then (permit, heir) else row).1 = row.1
  by_cases hrow : row = (permit, t)
  · rw [if_pos hrow, hrow]
  · rw [if_neg hrow]

/-- A permit that is dropped was out, and now it is not. -/
theorem drop (h : Balanced n moves s) (hheld : (permit, t) ∈ s.held) (calls : Nat) :
    Balanced n (moves ++ [.drop t permit]) { s with
      stock := s.stock.putBack permit, held := s.held.erase (permit, t), calls } where
  total := by
    have htotal := h.total
    have hlive := h.mem_live hheld
    have hpos := List.length_pos_of_mem hlive
    show s.stock.free + 1 + (s.stock.live.erase permit).length = max n 1
    rw [List.length_erase_of_mem hlive]
    omega
  nodup := h.nodup.erase permit
  issued := fun k hk => h.issued k (List.mem_of_mem_erase hk)
  owners := by
    have hnodup := h.nodup
    rw [← h.owners] at hnodup
    show (s.held.erase (permit, t)).map Prod.fst = s.stock.live.erase permit
    rw [map_fst_erase hnodup hheld, h.owners]
  returns := by
    intro k
    have hlive := h.mem_live hheld
    have hissued := h.issued permit hlive
    rw [returned_concat, h.returns]
    show _ + (if decide (permit = k) = true then 1 else 0) =
      if k < s.stock.next ∧ k ∉ s.stock.live.erase permit then 1 else 0
    simp only [h.nodup.mem_erase_iff]
    -- the permit that comes back was out until now, and to all others nothing happens
    by_cases hk : permit = k
    · subst hk
      simp [hlive, hissued]
    · simp [hk, Ne.symm hk]

/-- **Every step keeps the balance.** -/
theorem step (h : Balanced n moves s) (hstep : Step s move s') :
    Balanced n (moves ++ [move]) s' := by
  cases hstep with
  | ask | sleep | wake | echo | stir | panic => exact h.of_same rfl rfl fun _ => rfl
  | pass => exact h.of_same rfl map_fst_pass fun _ => rfl
  | take hask hfree => exact h.take hfree _
  | drop hheld hidle => exact h.drop hheld _

end Balanced

/-- **Every run keeps the balance.** -/
theorem balanced_of_run? [DecidableEq κ] {n : Nat} {moves : List (Move κ)}
    (h : (new n : Semaphore κ).run? moves = some s) : Balanced n moves s := by
  refine run?_preserves ?_ (fun _ _ _ _ hbalanced hstep => hbalanced.step hstep) moves h
  exact ⟨Nat.add_zero _, List.nodup_nil, fun _ hmem => (List.not_mem_nil hmem).elim, rfl,
    fun _ => rfl⟩

/-! ## §3. Who waits. -/

/-- Each thread waits in one place, those that panicked do not wait, and whenever a
permit is free that a sleeper could have, somebody is about to look or about to be called. -/
structure Awake (s : Semaphore κ) : Prop where
  places : s.waiters.Nodup
  apart : ∀ t ∈ s.unwinding, t ∉ s.waiters
  called : s.asleep = [] ∨ s.stock.free ≤ s.asking.length + s.calls

namespace Awake

variable {t : κ}

/-- A sleeper that wakes up changes its place. -/
theorem perm_wake [DecidableEq κ] (hsleep : t ∈ s.asleep) :
    (t :: s.asking ++ s.asleep.erase t).Perm s.waiters := by
  have hperm := (List.perm_cons_erase hsleep).symm
  show (t :: (s.asking ++ s.asleep.erase t)).Perm (s.asking ++ s.asleep)
  exact List.perm_middle.symm.trans (hperm.append_left s.asking)

/-- A thread that goes to sleep changes its place. -/
theorem perm_sleep [DecidableEq κ] (hask : t ∈ s.asking) :
    (s.asking.erase t ++ t :: s.asleep).Perm s.waiters := by
  have hperm := (List.perm_cons_erase hask).symm
  exact List.perm_middle.trans (hperm.append_right s.asleep)

/-- The same threads wait, perhaps elsewhere. -/
theorem of_perm (h : Awake s) (hperm : s'.waiters.Perm s.waiters)
    (hunwinding : s'.unwinding = s.unwinding)
    (hcalled : s'.asleep = [] ∨ s'.stock.free ≤ s'.asking.length + s'.calls) : Awake s' where
  places := hperm.nodup_iff.2 h.places
  apart := by
    intro t ht hmem
    rw [hunwinding] at ht
    exact h.apart t ht (hperm.mem_iff.1 hmem)
  called := hcalled

variable [DecidableEq κ]

/-- **No step forgets a sleeper.** -/
theorem step (h : Awake s) (hstep : Step s move s') : Awake s' := by
  have hcalled := h.called
  cases hstep with
  | @ask t hidle hsound =>
      refine ⟨List.nodup_cons.2 ⟨hidle, h.places⟩, fun u hu hmem => ?_, ?_⟩
      · rcases List.mem_cons.1 hmem with rfl | hmem
        · exact hsound hu
        · exact h.apart u hu hmem
      · refine hcalled.imp_right fun hcalled => ?_
        show s.stock.free ≤ s.asking.length + 1 + s.calls
        omega
  | @take t hask hfree =>
      have hsub : (s.asking.erase t ++ s.asleep).Sublist s.waiters :=
        List.erase_sublist.append_right s.asleep
      refine ⟨h.places.sublist hsub, fun u hu hmem => h.apart u hu (hsub.subset hmem), ?_⟩
      refine hcalled.imp_right fun hcalled => ?_
      have hpos := List.length_pos_of_mem hask
      show s.stock.free - 1 ≤ (s.asking.erase t).length + s.calls
      rw [List.length_erase_of_mem hask]
      omega
  | sleep hask hnone =>
      -- it sleeps because nothing is free, and so nobody needs to be called
      refine h.of_perm (perm_sleep hask) rfl (.inr ?_)
      show s.stock.free ≤ _
      rw [hnone]
      exact Nat.zero_le _
  | drop hheld hidle =>
      -- one permit more is free, and one call more is due
      refine h.of_perm (.refl _) rfl (hcalled.imp_right fun hcalled => ?_)
      show s.stock.free + 1 ≤ s.asking.length + (s.calls + 1)
      omega
  | wake hdue hsleep =>
      -- the call that is used up becomes a thread that looks
      refine h.of_perm (perm_wake hsleep) rfl (.inr ?_)
      have hcalled := hcalled.resolve_left (List.ne_nil_of_mem hsleep)
      show s.stock.free ≤ s.asking.length + 1 + (s.calls - 1)
      omega
  | echo hdue hnobody => exact h.of_perm (.refl _) rfl (.inl hnobody)
  | stir hsleep =>
      refine h.of_perm (perm_wake hsleep) rfl (.inr ?_)
      have hcalled := hcalled.resolve_left (List.ne_nil_of_mem hsleep)
      show s.stock.free ≤ s.asking.length + 1 + s.calls
      omega
  | pass => exact h.of_perm (.refl _) rfl hcalled
  | @panic t hidle hsound =>
      refine ⟨h.places, fun u hu => ?_, hcalled⟩
      rcases List.mem_cons.1 hu with rfl | hu
      · exact hidle
      · exact h.apart u hu

end Awake

/-- **No run forgets a sleeper.** -/
theorem awake_of_run? [DecidableEq κ] {n : Nat} {moves : List (Move κ)}
    (h : (new n : Semaphore κ).run? moves = some s) : Awake s := by
  refine run?_preserves (I := fun _ s => Awake s) ?_ (fun _ _ _ _ hawake hstep => hawake.step hstep)
    moves h
  exact ⟨List.nodup_nil, fun _ hmem => (List.not_mem_nil hmem).elim, .inl rfl⟩

/-! ## §4. Threads that panicked. -/

variable [DecidableEq κ]

/-- A thread that has permits and does not wait can return them all, one after another. -/
theorem exists_unwind {n : Nat} {t : κ} (permits : List Nat) :
    ∀ {moves : List (Move κ)} {s : Semaphore κ}, Balanced n moves s → t ∉ s.waiters →
      s.permitsOf t = permits →
      ∃ s', s.run? (permits.map (.drop t)) = some s' ∧ s'.permitsOf t = []
        ∧ s'.stock.free = s.stock.free + permits.length
        ∧ ∀ permit, permit ∈ s'.stock.live ↔ permit ∈ s.stock.live ∧ permit ∉ permits := by
  induction permits with
  | nil =>
      intro moves s _ _ hpermits
      exact ⟨s, rfl, hpermits, rfl, fun permit => by simp⟩
  | cons permit permits ih =>
      intro moves s hbalanced hidle hpermits
      have hheld : (permit, t) ∈ s.held := by
        have hmem : permit ∈ s.permitsOf t := by
          rw [hpermits]
          exact List.mem_cons_self
        obtain ⟨⟨k, u⟩, hrow, rfl⟩ := List.mem_map.1 hmem
        obtain ⟨hrow, hu⟩ := List.mem_filter.1 hrow
        have hu : u = t := by simpa using hu
        rw [← hu]
        exact hrow
      let s₁ : Semaphore κ := { s with
        stock := s.stock.putBack permit, held := s.held.erase (permit, t), calls := s.calls + 1 }
      have hstep : s.step? (.drop t permit) = some s₁ := if_pos ⟨hheld, hidle⟩
      -- the first permit is gone, the others are still there
      have hrest : s₁.permitsOf t = permits := by
        have hkeys : ((s.held.filter fun row => row.2 = t).map Prod.fst).Nodup := by
          have hnodup := hbalanced.nodup
          rw [← hbalanced.owners] at hnodup
          exact hnodup.sublist (List.filter_sublist.map Prod.fst)
        have hmem : (permit, t) ∈ s.held.filter fun row => row.2 = t :=
          List.mem_filter.2 ⟨hheld, by simp⟩
        show ((s.held.erase (permit, t)).filter fun row => row.2 = t).map Prod.fst = permits
        rw [← List.erase_filter, Balanced.map_fst_erase hkeys hmem]
        show (s.permitsOf t).erase permit = permits
        rw [hpermits, List.erase_cons_head]
      obtain ⟨s', hrun, hnone, hfree, hlive⟩ := ih (hbalanced.drop hheld _) hidle hrest
      refine ⟨s', ?_, hnone, ?_, fun k => ?_⟩
      · rw [List.map_cons, run?_cons, hstep]
        exact hrun
      · rw [hfree]
        show s.stock.free + 1 + permits.length = s.stock.free + (permits.length + 1)
        omega
      · rw [hlive]
        show k ∈ s.stock.live.erase permit ∧ _ ↔ _
        rw [hbalanced.nodup.mem_erase_iff, List.mem_cons, not_or]
        constructor
        · intro h
          exact ⟨h.1.2, h.1.1, h.2⟩
        · intro h
          exact ⟨⟨h.2.1, h.1⟩, h.2.2⟩

/-! ## §5. What holds after every run. -/

/-- What holds of a semaphore that began with `n` permits, after any steps of its threads. -/
structure Conserved (n : Nat) (moves : List (Move κ)) (s : Semaphore κ) : Prop where
  /-- The permits that are free and those that are out are as many as at the start. -/
  total : s.stock.free + s.stock.live.length = max n 1
  free_le : s.stock.free ≤ max n 1
  /-- No more threads than that have a permit. -/
  holders_le : (s.held.map Prod.snd).dedup.length ≤ max n 1
  /-- A permit that is out is out once, and one thread has it. -/
  nodup : s.stock.live.Nodup
  owner : ∀ permit ∈ s.stock.live, ∃! t, (permit, t) ∈ s.held
  /-- What a thread has is out. -/
  live : ∀ permit t, (permit, t) ∈ s.held → permit ∈ s.stock.live
  /-- A permit that was given out has come back once if it is not out, and else not yet. -/
  once : ∀ permit < s.stock.next,
    returned moves permit = if permit ∈ s.stock.live then 0 else 1
  /-- No other permit has come back. -/
  issued : ∀ permit, s.stock.next ≤ permit → returned moves permit = 0
  /-- A thread that looks goes to sleep just when all permits are out, and else has the next. -/
  waits : ∀ t ∈ s.asking, ∃ s', s.step? (.look t) = some s'
    ∧ (t ∈ s'.asleep ↔ s.stock.live.length = max n 1)
    ∧ ((s.stock.next, t) ∈ s'.held ↔ s.stock.live.length ≠ max n 1)
  /-- When nobody is about to look or to be called, those that sleep do so because all
  permits are out. -/
  settled : s.asking = [] → s.calls = 0 → s.asleep ≠ [] → s.stock.live.length = max n 1
  /-- A thread that panicked can return all that it has, and then none of it is out. -/
  unwinds : ∀ t ∈ s.unwinding, ∃ s', s.run? ((s.permitsOf t).map (.drop t)) = some s'
    ∧ s'.permitsOf t = [] ∧ s'.stock.free = s.stock.free + (s.permitsOf t).length
    ∧ ∀ permit, permit ∈ s'.stock.live ↔ permit ∈ s.stock.live ∧ permit ∉ s.permitsOf t

/-- A thread that looks comes off empty-handed just when all permits are out. -/
theorem exists_look {n : Nat} {moves : List (Move κ)} (h : Balanced n moves s) (hawake : Awake s)
    {t : κ} (hask : t ∈ s.asking) :
    ∃ s', s.step? (.look t) = some s'
      ∧ (t ∈ s'.asleep ↔ s.stock.live.length = max n 1)
      ∧ ((s.stock.next, t) ∈ s'.held ↔ s.stock.live.length ≠ max n 1) := by
  have htotal := h.total
  have hnew : (s.stock.next, t) ∉ s.held := fun hheld =>
    Nat.lt_irrefl _ (h.issued _ (h.mem_live hheld))
  have hasleep : t ∉ s.asleep := fun hsleep =>
    (List.nodup_append.1 hawake.places).2.2 t hask t hsleep rfl
  simp only [step?, if_pos hask]
  cases hstock : s.stock.acquire? with
  | some stock =>
      obtain ⟨hfree, -⟩ := Permits.acquire?_eq_some_iff.1 hstock
      have hroom : s.stock.live.length ≠ max n 1 := by omega
      exact ⟨_, rfl, by simp [hasleep, hroom], by simp [hroom]⟩
  | none =>
      have hnone := Permits.acquire?_eq_none_iff.1 hstock
      have hfull : s.stock.live.length = max n 1 := by omega
      exact ⟨_, rfl, by simp [hfull], by simp [hfull, hnew]⟩

/-- **A semaphore conserves its permits**, whatever its threads do and in whatever order. -/
theorem conserved_of_run? (n : Nat) (moves : List (Move κ)) (s : Semaphore κ)
    (h : (new n : Semaphore κ).run? moves = some s) : Conserved n moves s := by
  have hbalanced := balanced_of_run? h
  have hawake := awake_of_run? h
  have htotal := hbalanced.total
  have hheld : s.held.length = s.stock.live.length := by
    rw [← hbalanced.owners, List.length_map]
  refine
    { total := htotal
      free_le := by omega
      holders_le := ?_
      nodup := hbalanced.nodup
      owner := fun permit hlive => hbalanced.existsUnique_owner hlive
      live := fun permit t hmem => hbalanced.mem_live hmem
      once := fun permit hissued => ?_
      issued := fun permit hissued => ?_
      waits := fun t hask => exists_look hbalanced hawake hask
      settled := fun hasking hcalls hasleep => ?_
      unwinds := fun t ht => exists_unwind _ hbalanced (hawake.apart t ht) rfl }
  · have hdedup := (List.dedup_sublist (s.held.map Prod.snd)).length_le
    rw [List.length_map] at hdedup
    omega
  · rw [hbalanced.returns]
    by_cases hlive : permit ∈ s.stock.live <;> simp [hlive, hissued]
  · rw [hbalanced.returns]
    exact if_neg fun hout => by omega
  · rcases hawake.called with hnobody | hcalled
    · exact absurd hnobody hasleep
    · rw [hasking, hcalls] at hcalled
      have hnone : s.stock.free = 0 := Nat.le_zero.1 hcalled
      omega

/-- One permit and two threads: the second one sleeps until the first one has panicked and the
permit is back. -/
theorem conserved_of_run?_panic :
    ∃ s : Semaphore Nat, (new 0 : Semaphore Nat).run?
        [.ask 1, .look 1, .ask 2, .look 2, .panic 1, .drop 1 0, .call (some 2), .look 2] = some s
      ∧ s.held = [(1, 2)]
      ∧ Conserved 0
        [.ask 1, .look 1, .ask 2, .look 2, .panic 1, .drop 1 0, .call (some 2), .look 2] s :=
  ⟨_, rfl, rfl, conserved_of_run? 0 _ _ rfl⟩

end Semaphore

end LabelWalks
