/-
  LabelWalks.Proofs.Worklist.Discipline
  ─────────────────────────────────────
  **STACKS AND QUEUES.**

  A loop that always removes the latest state goes on with what follows a state before it
  comes back to the states before that one: its trail is that of a descent.  A loop that
  always removes the earliest state takes a level of states after the other.  Both remove
  in one of the many orders in which a loop may go on.

    • `turn`, `latest`, `earliest` — removals under a discipline,
    • `exists_run_turns` — a discipline is one of all orders,
    • `descent`, `leaves_latest`, `makes_descent` — a stack descends,
    • `leaves_earliest` — a queue goes level by level,
    • `Interchangeable` — a discipline that any other order can take the place of.
-/
import LabelWalks.Proofs.Trail
import LabelWalks.Proofs.Worklist.Basic

namespace LabelWalks

namespace Worklist

variable {κ ν α : Type} {w : Worklist κ ν α}

/-! ## §1. Disciplines. -/

/-- The position of the state that was put on the list last. -/
def latest (r : Progress κ ν α) : Nat :=
  r.pending.length - 1

/-- The position of the state that is on the list for longest. -/
def earliest (_ : Progress κ ν α) : Nat :=
  0

/-- One removal under a discipline; a loop that is over stays as it is. -/
def turn (w : Worklist κ ν α) (pick : Progress κ ν α → Nat) (r : Progress κ ν α) :
    Progress κ ν α :=
  (w.remove? r (pick r)).getD r

/-- **What a discipline removes** is removed in one of all orders. -/
theorem exists_run_turns (w : Worklist κ ν α) (pick : Progress κ ν α → Nat) (n : Nat) :
    ∀ r : Progress κ ν α, ∃ positions, w.run? r positions = some ((w.turn pick)^[n] r) := by
  induction n with
  | zero => exact fun r => ⟨[], rfl⟩
  | succ n ih =>
      intro r
      obtain ⟨positions, hrun⟩ := ih (w.turn pick r)
      rw [Function.iterate_succ_apply]
      cases hstep : w.remove? r (pick r) with
      | none =>
          have hstays : w.turn pick r = r := by
            unfold turn
            rw [hstep]
            rfl
          rw [hstays] at hrun ⊢
          exact ⟨positions, hrun⟩
      | some r' =>
          have hturn : w.turn pick r = r' := by
            unfold turn
            rw [hstep]
            rfl
          rw [hturn] at hrun ⊢
          exact ⟨pick r :: positions, Option.bind_eq_some_iff.2 ⟨r', hstep, hrun⟩⟩

section
variable {s : Pending κ ν} {pending removed : List (Pending κ ν)} {given : List α}

theorem turn_latest :
    w.turn latest ⟨pending ++ [s], removed, given, none⟩ =
      ⟨pending ++ w.next s, removed ++ [s], given ++ (w.gives s).items, (w.gives s).halt⟩ := by
  have hstate : (pending ++ [s])[(pending ++ [s]).length - 1]? = some s := by simp
  have hrest : (pending ++ [s]).eraseIdx ((pending ++ [s]).length - 1) = pending := by
    simp [List.eraseIdx_append_of_length_le]
  unfold turn remove? latest
  simp only [hstate, hrest, Option.getD_some]

theorem turn_earliest :
    w.turn earliest ⟨s :: pending, removed, given, none⟩ =
      ⟨pending ++ w.next s, removed ++ [s], given ++ (w.gives s).items, (w.gives s).halt⟩ := rfl

end

/-! ## §2. A stack. -/

/-- The trail of a descent: a state and then, from the last one on, what follows it. -/
def descent (w : Worklist κ ν α) : Nat → Pending κ ν → Trail α
  | 0, s => w.gives s
  | n + 1, s => (w.gives s).andThen fun _ => .each (w.descent n) (w.leads s).reverse

/-- The loop comes to leave a trail, and its other pending states are left unless it halts. -/
def Leaves (w : Worklist κ ν α) (pick : Progress κ ν α → Nat) (r : Progress κ ν α)
    (pending : List (Pending κ ν)) (t : Trail α) : Prop :=
  ∃ n, ((w.turn pick)^[n] r).given = r.given ++ t.items ∧ ((w.turn pick)^[n] r).halt = t.halt
    ∧ (t.halt = none → ((w.turn pick)^[n] r).pending = pending)

/-- A loop that left a trail without a halt goes on from there. -/
theorem Leaves.andThen {pick : Progress κ ν α → Nat} {r : Progress κ ν α}
    {pending pending' : List (Pending κ ν)} {t : Trail α} {next : Unit → Trail α}
    (h : Leaves w pick r pending t)
    (hnext : t.halt = none → ∀ r' : Progress κ ν α, r'.pending = pending → r'.halt = none →
      Leaves w pick r' pending' (next ())) :
    Leaves w pick r pending' (t.andThen next) := by
  obtain ⟨n, hgiven, hhalt, hpending⟩ := h
  cases ht : t.halt with
  | some halt =>
      have hwhole : t.andThen next = t := Trail.andThen_of_halt (by simp [ht]) next
      refine ⟨n, by rw [hwhole]; exact hgiven, by rw [hwhole]; exact hhalt, fun hnone => ?_⟩
      rw [hwhole, ht] at hnone
      cases hnone
  | none =>
      obtain ⟨k, hgiven', hhalt', hpending'⟩ := hnext ht _ (hpending ht) (hhalt.trans ht)
      have hboth : (t.andThen next).halt = (next ()).halt := by
        unfold Trail.andThen
        rw [ht]
      refine ⟨k + n, ?_, ?_, fun hnone => ?_⟩
      · rw [Function.iterate_add_apply, hgiven', hgiven, Trail.andThen_items _ _ ht,
          List.append_assoc]
      · rw [Function.iterate_add_apply, hhalt', hboth]
      · rw [Function.iterate_add_apply]
        exact hpending' (hboth ▸ hnone)

/-- One turn leaves what the removed state gives. -/
theorem leaves_of_turn {pick : Progress κ ν α → Nat} {r : Progress κ ν α} {s : Pending κ ν}
    {pending : List (Pending κ ν)} {removed : List (Pending κ ν)}
    (h : w.turn pick r = ⟨pending ++ w.next s, removed, r.given ++ (w.gives s).items,
      (w.gives s).halt⟩) :
    Leaves w pick r (pending ++ w.leads s) (w.gives s) := by
  refine ⟨1, ?_, ?_, fun hhalt => ?_⟩
  · rw [Function.iterate_one, h]
  · rw [Function.iterate_one, h]
  · rw [Function.iterate_one, h]
    unfold next
    rw [if_pos hhalt]

/-- Several states on top of a stack are descended from one after another, the last one first. -/
theorem leaves_latest_each {n : Nat} {states : List (Pending κ ν)}
    (hone : ∀ s ∈ states, ∀ (pending : List (Pending κ ν)) (r : Progress κ ν α),
      r.pending = pending ++ [s] → r.halt = none →
      Leaves w latest r pending (w.descent n s)) :
    ∀ (pending : List (Pending κ ν)) (r : Progress κ ν α), r.pending = pending ++ states →
      r.halt = none → Leaves w latest r pending (.each (w.descent n) states.reverse) := by
  induction states using List.reverseRecOn with
  | nil =>
      intro pending r hpending hhalt
      rw [List.append_nil] at hpending
      exact ⟨0, (List.append_nil _).symm, hhalt, fun _ => hpending⟩
  | append_singleton states s ih =>
      intro pending r hpending hhalt
      rw [List.reverse_append, List.reverse_singleton, List.singleton_append]
      rw [← List.append_assoc] at hpending
      have hlast := hone s (List.mem_append_right _ (List.mem_singleton.2 rfl)) _ r hpending hhalt
      refine hlast.andThen fun _ r' hpending' hhalt' => ?_
      exact ih (fun s' hs' => hone s' (List.mem_append_left _ hs')) pending r' hpending' hhalt'

/-- **A stack descends** from the state on its top. -/
theorem leaves_latest (w : Worklist κ ν α) (n : Nat) : ∀ (s : Pending κ ν), s.left = n →
    ∀ (pending : List (Pending κ ν)) (r : Progress κ ν α), r.pending = pending ++ [s] →
      r.halt = none → Leaves w latest r pending (w.descent n s) := by
  -- on the hops that are left: what follows a state is on top of what was below it
  induction n with
  | zero =>
      intro s hleft pending r hpending hhalt
      obtain ⟨_, removed, given, _⟩ := r
      obtain rfl : _ = pending ++ [s] := hpending
      obtain rfl : _ = none := hhalt
      have hnone : w.leads s = [] := by
        refine List.eq_nil_iff_forall_not_mem.2 fun s' hs' => ?_
        have hless := w.one_less s s' hs'
        omega
      have hturn : w.turn latest ⟨pending ++ [s], removed, given, none⟩ = _ := turn_latest
      have hleaves := leaves_of_turn hturn
      rwa [hnone, List.append_nil] at hleaves
  | succ n ih =>
      intro s hleft pending r hpending hhalt
      obtain ⟨_, removed, given, _⟩ := r
      obtain rfl : _ = pending ++ [s] := hpending
      obtain rfl : _ = none := hhalt
      refine (leaves_of_turn turn_latest).andThen fun _ r' hpending' hhalt' => ?_
      refine leaves_latest_each (fun s' hs' => ?_) pending r' hpending' hhalt'
      have hless := w.one_less s s' hs'
      exact ih s' (by omega)

/-- A loop from a state comes to its end, with a trail. -/
def Makes (w : Worklist κ ν α) (pick : Progress κ ν α → Nat) (root : Pending κ ν)
    (t : Trail α) : Prop :=
  ∃ n, ((w.turn pick)^[n] (.start [root])).Over ∧ ((w.turn pick)^[n] (.start [root])).trail = t

theorem Leaves.makes {pick : Progress κ ν α → Nat} {root : Pending κ ν} {t : Trail α}
    (h : Leaves w pick (.start [root]) [] t) : Makes w pick root t := by
  obtain ⟨n, hgiven, hhalt, hpending⟩ := h
  refine ⟨n, ?_, congrArg₂ Trail.mk hgiven hhalt⟩
  cases ht : t.halt with
  | none => exact .inl (hpending ht)
  | some halt => exact .inr (by simp [hhalt, ht])

/-- **A stack with one state** comes to its end with the trail of a descent. -/
theorem makes_descent (w : Worklist κ ν α) (root : Pending κ ν) :
    Makes w latest root (w.descent root.left root) :=
  (leaves_latest w root.left root rfl [] (.start [root]) rfl rfl).makes

/-! ## §3. A queue. -/

/-- **A queue** takes the states at its front one after another, and what follows them is put
behind all others. -/
theorem leaves_earliest (w : Worklist κ ν α) (level : List (Pending κ ν)) :
    ∀ (later : List (Pending κ ν)) (r : Progress κ ν α), r.pending = level ++ later →
      r.halt = none →
      Leaves w earliest r (later ++ level.flatMap w.leads) (.each w.gives level) := by
  induction level with
  | nil =>
      intro later r hpending hhalt
      refine ⟨0, (List.append_nil _).symm, hhalt, fun _ => ?_⟩
      rw [List.flatMap_nil, List.append_nil]
      exact hpending
  | cons s level ih =>
      intro later r hpending hhalt
      obtain ⟨_, removed, given, _⟩ := r
      obtain rfl : _ = s :: level ++ later := hpending
      obtain rfl : _ = none := hhalt
      rw [Trail.each]
      refine (leaves_of_turn turn_earliest).andThen fun _ r' hpending' hhalt' => ?_
      have hrest := ih (later ++ w.leads s) r' (hpending'.trans (List.append_assoc _ _ _)) hhalt'
      rwa [List.append_assoc, ← List.flatMap_cons] at hrest

/-! ## §4. Engines. -/

/-- A loop that makes a trail under its discipline, and comes to the same result as this trail
under any other order. -/
structure Interchangeable {β : Type} (w : Worklist κ ν α) (pick : Progress κ ν α → Nat)
    (root : Pending κ ν) (result : Trail α → Option β) (t : Trail α) : Prop where
  makes : w.Makes pick root t
  free : w.OrderFree root result
  same : ∀ positions r, w.run? (.start [root]) positions = some r → r.Over →
    result r.trail = result t

theorem OrderFree.interchangeable {β : Type} {pick : Progress κ ν α → Nat} {root : Pending κ ν}
    {result : Trail α → Option β} {t : Trail α} (hfree : w.OrderFree root result)
    (hmakes : w.Makes pick root t) : w.Interchangeable pick root result t := by
  refine ⟨hmakes, hfree, fun positions r hrun hover => ?_⟩
  -- the discipline is one of all orders
  obtain ⟨n, hover', rfl⟩ := hmakes
  obtain ⟨positions', hrun'⟩ := exists_run_turns w pick n (.start [root])
  exact hfree.same positions r hrun hover positions' _ hrun' hover'

end Worklist

end LabelWalks
