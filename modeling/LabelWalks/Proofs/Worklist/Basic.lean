/-
  LabelWalks.Proofs.Worklist.Basic
  ────────────────────────────────
  **LOOPS OVER A LIST OF PENDING STATES.**

  A loop keeps a list of pending states.  It removes one of them, gives what that state
  gives, and puts the states that follow it at the end of the list, until none is left or
  a state halts.  Which one is removed next is a matter of order: here any of them may be.
  A state that follows another one has a hop less left, so from each state only finitely
  many follow, and these are all that a loop ever removes.

    • `follow`, `follow_eq` — a state and all that follow it,
    • `Progress`, `remove?`, `run?` — one removal, and many in any order,
    • `Kept.remove`, `Kept.run` — what was removed and what will be is always the same,
    • `Kept.length_le`, `Kept.removed_perm`, `Kept.halt_eq_none_iff` — how a loop ends,
    • `Spells`, `Kept.nodup_removed` — no two states that are removed spell the same,
    • `OrderFree`, `orderFree_of_spells`, `orderFree_of_settled` — the order of removals makes
      no difference.
-/
import LabelWalks.Arrival
import Mathlib

namespace LabelWalks

/-! ## §1. States and what follows them. -/

/-- A state of a loop: what was spelled so far, the nodes at its end, the hops that are left. -/
structure Pending (κ ν : Type) where
  key : κ
  nodes : ν
  left : Nat

/-- What a loop does with a state that it removes. -/
structure Worklist (κ ν α : Type) where
  /-- What the state gives, and the halt that it comes to, if it comes to one. -/
  gives : Pending κ ν → Trail α
  /-- The states that follow it, in order. -/
  leads : Pending κ ν → List (Pending κ ν)
  one_less : ∀ s, ∀ s' ∈ leads s, s'.left + 1 = s.left

namespace Worklist

variable {κ ν α : Type}

/-- The states that follow a state; none do when it halts. -/
def next (w : Worklist κ ν α) (s : Pending κ ν) : List (Pending κ ν) :=
  if (w.gives s).halt = none then w.leads s else []

theorem next_subset {w : Worklist κ ν α} {s s' : Pending κ ν} (h : s' ∈ w.next s) :
    s' ∈ w.leads s := by
  unfold next at h
  split at h
  · exact h
  · cases h

theorem one_less_of_next {w : Worklist κ ν α} {s s' : Pending κ ν} (h : s' ∈ w.next s) :
    s'.left + 1 = s.left :=
  w.one_less s s' (next_subset h)

/-- A state and those that follow it within a number of rounds. -/
def followIn (w : Worklist κ ν α) : Nat → Pending κ ν → List (Pending κ ν)
  | 0, s => [s]
  | n + 1, s => s :: (w.next s).flatMap (w.followIn n)

/-- A state and all that follow it: there are no more rounds than hops are left. -/
def follow (w : Worklist κ ν α) (s : Pending κ ν) : List (Pending κ ν) :=
  w.followIn s.left s

theorem follow_eq (w : Worklist κ ν α) (s : Pending κ ν) :
    w.follow s = s :: (w.next s).flatMap w.follow := by
  unfold follow
  cases hleft : s.left with
  | zero =>
      have hnone : w.next s = [] := by
        refine List.eq_nil_iff_forall_not_mem.2 fun s' hs' => ?_
        have hless := one_less_of_next hs'
        omega
      rw [hnone]
      rfl
  | succ n =>
      show s :: (w.next s).flatMap (w.followIn n) = _
      refine congrArg (s :: ·) (List.flatMap_congr fun s' hs' => ?_)
      have hless := one_less_of_next hs'
      have hleft' : s'.left = n := by omega
      rw [hleft']

/-! ## §2. Removals in any order. -/

/-- A loop in the course of its removals. -/
structure Progress (κ ν α : Type) where
  pending : List (Pending κ ν)
  /-- The states that were removed, in order. -/
  removed : List (Pending κ ν)
  given : List α
  halt : Option Halt

namespace Progress

/-- A loop that has yet to begin. -/
def start (pending : List (Pending κ ν)) : Progress κ ν α :=
  ⟨pending, [], [], none⟩

/-- No state is left, or one of them has halted. -/
def Over (r : Progress κ ν α) : Prop :=
  r.pending = [] ∨ r.halt ≠ none

/-- What the loop has given so far, and its halt. -/
def trail (r : Progress κ ν α) : Trail α :=
  ⟨r.given, r.halt⟩

end Progress

/-- The loop after it has removed the state at a position, if there is one. -/
def remove? (w : Worklist κ ν α) (r : Progress κ ν α) (i : Nat) : Option (Progress κ ν α) :=
  match r.halt, r.pending[i]? with
  | none, some s => some {
      pending := r.pending.eraseIdx i ++ w.next s
      removed := r.removed ++ [s]
      given := r.given ++ (w.gives s).items
      halt := (w.gives s).halt }
  | _, _ => none

/-- The loop after removals at the given positions, one after another. -/
def run? (w : Worklist κ ν α) (r : Progress κ ν α) (positions : List Nat) :
    Option (Progress κ ν α) :=
  positions.foldlM w.remove? r

variable {w : Worklist κ ν α} {roots : List (Pending κ ν)} {r r' : Progress κ ν α}

/-- **One removal**: there is a state at the position, and all that happens is its doing. -/
theorem remove?_eq_some_iff {i : Nat} :
    w.remove? r i = some r' ↔ r.halt = none ∧ ∃ s, r.pending[i]? = some s ∧
      r' = ⟨r.pending.eraseIdx i ++ w.next s, r.removed ++ [s], r.given ++ (w.gives s).items,
        (w.gives s).halt⟩ := by
  unfold remove?
  cases hhalt : r.halt with
  | some halt => simp
  | none =>
      cases hstate : r.pending[i]? with
      | none => simp
      | some s => simp [eq_comm]

/-- **Nothing is stuck**: while a loop is not over, any pending state may be removed. -/
theorem exists_remove? (hover : ¬ r.Over) {i : Nat} (hi : i < r.pending.length) :
    ∃ r', w.remove? r i = some r' := by
  unfold Progress.Over at hover
  push Not at hover
  exact ⟨_, remove?_eq_some_iff.2 ⟨hover.2, _, List.getElem?_eq_getElem hi, rfl⟩⟩

/-! ## §3. What every removal keeps. -/

/-- What is known of a loop in its course, in whatever order it goes on. -/
structure Kept (w : Worklist κ ν α) (roots : List (Pending κ ν)) (r : Progress κ ν α) : Prop where
  /-- What was removed, what is pending and all that follows this are the states that follow the
  first ones. -/
  states : (r.removed ++ r.pending.flatMap w.follow).Perm (roots.flatMap w.follow)
  given : r.given = r.removed.flatMap fun s => (w.gives s).items
  halt : r.halt = none ↔ ∀ s ∈ r.removed, (w.gives s).halt = none

theorem Kept.start (w : Worklist κ ν α) (roots : List (Pending κ ν)) :
    Kept w roots (.start roots) where
  states := .refl _
  given := rfl
  halt := iff_of_true rfl fun s hs => by cases hs

/-- A pending state stands for itself and for all that follow it. -/
theorem perm_flatMap_eraseIdx {s : Pending κ ν} {pending : List (Pending κ ν)} {i : Nat}
    (hs : pending[i]? = some s) :
    (s :: (pending.eraseIdx i ++ w.next s).flatMap w.follow).Perm (pending.flatMap w.follow) := by
  obtain ⟨hi, rfl⟩ := List.getElem?_eq_some_iff.1 hs
  have hperm : (pending[i] :: pending.eraseIdx i).Perm pending := List.getElem_cons_eraseIdx_perm hi
  refine .trans ?_ (hperm.flatMap_right w.follow)
  rw [List.flatMap_append, List.flatMap_cons, w.follow_eq pending[i], List.cons_append]
  exact List.perm_append_comm.cons _

/-- **One removal** keeps it. -/
theorem Kept.remove (h : Kept w roots r) {i : Nat} (hstep : w.remove? r i = some r') :
    Kept w roots r' := by
  obtain ⟨hhalt, s, hs, rfl⟩ := remove?_eq_some_iff.1 hstep
  refine ⟨?_, ?_, ?_⟩
  · refine .trans ?_ h.states
    show (r.removed ++ [s] ++ _).Perm _
    rw [List.append_assoc]
    exact (perm_flatMap_eraseIdx hs).append_left r.removed
  · show r.given ++ _ = (r.removed ++ [s]).flatMap _
    rw [h.given, List.flatMap_append, List.flatMap_singleton]
  · have hbefore := h.halt.1 hhalt
    show (w.gives s).halt = none ↔ ∀ s' ∈ r.removed ++ [s], (w.gives s').halt = none
    rw [List.forall_mem_append, List.forall_mem_singleton]
    exact ⟨fun hsome => ⟨hbefore, hsome⟩, And.right⟩

/-- **Removals in any order** keep it. -/
theorem Kept.run (positions : List Nat) : ∀ {r r' : Progress κ ν α}, Kept w roots r →
    w.run? r positions = some r' → Kept w roots r' := by
  induction positions with
  | nil =>
      intro r r' h hrun
      obtain rfl := Option.some.inj hrun
      exact h
  | cons i positions ih =>
      intro r r' h hrun
      obtain ⟨r₁, hstep, hrest⟩ := Option.bind_eq_some_iff.1 hrun
      exact ih (h.remove hstep) hrest

/-- Each removal removes one state. -/
theorem length_removed_run (positions : List Nat) : ∀ {r r' : Progress κ ν α},
    w.run? r positions = some r' → r'.removed.length = r.removed.length + positions.length := by
  induction positions with
  | nil =>
      intro r r' hrun
      obtain rfl := Option.some.inj hrun
      rfl
  | cons i positions ih =>
      intro r r' hrun
      obtain ⟨r₁, hstep, hrest⟩ := Option.bind_eq_some_iff.1 hrun
      obtain ⟨-, s, -, rfl⟩ := remove?_eq_some_iff.1 hstep
      rw [ih hrest, List.length_append, List.length_singleton, List.length_cons]
      omega

/-! ## §4. How a loop ends. -/

/-- **No more states are removed** than follow the first ones. -/
theorem Kept.length_le (h : Kept w roots r) :
    r.removed.length ≤ (roots.flatMap w.follow).length := by
  rw [← h.states.length_eq, List.length_append]
  exact Nat.le_add_right _ _

/-- **A loop that is over without a halt** has removed every state that follows the first ones. -/
theorem Kept.removed_perm (h : Kept w roots r) (hover : r.Over) (hhalt : r.halt = none) :
    r.removed.Perm (roots.flatMap w.follow) := by
  have hstates := h.states
  rcases hover with hnone | hsome
  · rwa [hnone, List.flatMap_nil, List.append_nil] at hstates
  · exact absurd hhalt hsome

/-- **Whether a loop halts** is told by the states that follow the first ones alone. -/
theorem Kept.halt_eq_none_iff (h : Kept w roots r) (hover : r.Over) :
    r.halt = none ↔ ∀ s ∈ roots.flatMap w.follow, (w.gives s).halt = none := by
  constructor
  · intro hhalt s hs
    exact h.halt.1 hhalt s ((h.removed_perm hover hhalt).mem_iff.2 hs)
  · intro hall
    exact h.halt.2 fun s hs => hall s (h.states.subset (List.mem_append_left _ hs))

/-! ## §5. No two states spell the same. -/

/-- What follows a state spells one hop more, and each of those that follow it another one. -/
structure Spells (w : Worklist κ ν α) (tokens : κ → List LabelIndex) : Prop where
  grows : ∀ s, ∀ s' ∈ w.leads s, ∃ hop : Hop, tokens s'.key = tokens s.key ++ hop.tokens
  apart : ∀ s, ((w.leads s).map fun s' => tokens s'.key).Nodup

section
variable {tokens : κ → List LabelIndex}

/-- What follows a state begins like it. -/
theorem Spells.isPrefix (hw : w.Spells tokens) (n : Nat) : ∀ {s s' : Pending κ ν},
    s.left = n → s' ∈ w.follow s → tokens s.key <+: tokens s'.key := by
  induction n with
  | zero =>
      intro s s' hleft hs'
      unfold follow at hs'
      rw [hleft] at hs'
      rw [List.mem_singleton.1 hs']
  | succ n ih =>
      intro s s' hleft hs'
      rw [w.follow_eq] at hs'
      rcases List.mem_cons.1 hs' with rfl | hs'
      · exact List.prefix_rfl
      · obtain ⟨s₁, hs₁, hs'⟩ := List.mem_flatMap.1 hs'
        obtain ⟨hop, hhop⟩ := hw.grows s s₁ (next_subset hs₁)
        have hless := one_less_of_next hs₁
        refine List.IsPrefix.trans ?_ (ih (by omega) hs')
        rw [hhop]
        exact List.prefix_append _ _

/-- The states that follow one state all spell something else. -/
theorem Spells.nodup_follow (hw : w.Spells tokens) (n : Nat) : ∀ {s : Pending κ ν},
    s.left = n → ((w.follow s).map fun s' => tokens s'.key).Nodup := by
  -- on the hops that are left
  induction n with
  | zero =>
      intro s hleft
      unfold follow
      rw [hleft]
      exact List.nodup_singleton _
  | succ n ih =>
      intro s hleft
      have hleft' : ∀ s₁ ∈ w.next s, s₁.left = n := fun s₁ hs₁ => by
        have hless := one_less_of_next hs₁
        omega
      have hlonger : ∀ s₁ ∈ w.next s, (tokens s₁.key).length = (tokens s.key).length + 2 := by
        intro s₁ hs₁
        obtain ⟨hop, hhop⟩ := hw.grows s s₁ (next_subset hs₁)
        rw [hhop, List.length_append, Hop.length_tokens]
      rw [w.follow_eq, List.map_cons, List.nodup_cons, List.map_flatMap, List.nodup_flatMap]
      refine ⟨?_, fun s₁ hs₁ => ih (hleft' s₁ hs₁), ?_⟩
      · intro hmem
        obtain ⟨s₁, hs₁, hmem⟩ := List.mem_flatMap.1 hmem
        obtain ⟨s', hs', hsame⟩ := List.mem_map.1 hmem
        have hlength := (hw.isPrefix n (hleft' s₁ hs₁) hs').length_le
        rw [hsame, hlonger s₁ hs₁] at hlength
        omega
      · -- of two states one hop on, neither begins like the other
        have hapart : (w.next s).Pairwise fun s₁ s₂ => tokens s₁.key ≠ tokens s₂.key := by
          have hleads := List.pairwise_map.1 (hw.apart s)
          unfold next
          split
          · exact hleads
          · exact List.Pairwise.nil
        refine hapart.imp_of_mem fun {s₁ s₂} hs₁ hs₂ hne => ?_
        intro t ht₁ ht₂
        obtain ⟨s', hs', rfl⟩ := List.mem_map.1 ht₁
        obtain ⟨s'', hs'', hsame⟩ := List.mem_map.1 ht₂
        have hfirst := hw.isPrefix n (hleft' s₁ hs₁) hs'
        have hsecond := hw.isPrefix n (hleft' s₂ hs₂) hs''
        rw [hsame] at hsecond
        have hlength : (tokens s₁.key).length = (tokens s₂.key).length := by
          rw [hlonger s₁ hs₁, hlonger s₂ hs₂]
        apply hne
        exact List.IsPrefix.eq_of_length
          (List.prefix_of_prefix_length_le hfirst hsecond hlength.le) hlength

/-- **No two states that were removed** have the same key, in whatever order they were. -/
theorem Kept.nodup_removed {root : Pending κ ν} (h : Kept w [root] r) (hw : w.Spells tokens) :
    (r.removed.map Pending.key).Nodup := by
  have hall := hw.nodup_follow root.left rfl
  have hstates := h.states
  rw [List.flatMap_singleton] at hstates
  have hboth := (hstates.map fun s => tokens s.key).nodup_iff.2 hall
  rw [List.map_append] at hboth
  refine List.Nodup.of_map tokens ?_
  rw [List.map_map]
  exact (List.nodup_append.1 hboth).1

/-! ## §6. The order of removals. -/

/-- A loop that comes to the same result from a state, in whatever order it removes. -/
structure OrderFree {β : Type} (w : Worklist κ ν α) (root : Pending κ ν)
    (result : Trail α → Option β) : Prop where
  /-- It comes to its end: no order has more removals than this. -/
  ends : ∃ most, ∀ positions r, w.run? (.start [root]) positions = some r → positions.length ≤ most
  /-- Until then any pending state may be removed next. -/
  goes : ∀ positions r, w.run? (.start [root]) positions = some r → ¬ r.Over →
    ∀ i < r.pending.length, ∃ r', w.run? (.start [root]) (positions ++ [i]) = some r'
  /-- No two states that it removes have the same key. -/
  distinct : ∀ positions r, w.run? (.start [root]) positions = some r →
    (r.removed.map Pending.key).Nodup
  /-- Two orders that come to the end come to one result. -/
  same : ∀ positions r, w.run? (.start [root]) positions = some r → r.Over →
    ∀ positions' r', w.run? (.start [root]) positions' = some r' → r'.Over →
      result r.trail = result r'.trail

/-- **The order is free** where states spell what they have crossed, a halt has no result, and
what states with different keys give may be given in any order. -/
theorem orderFree_of_spells {β : Type} {result : Trail α → Option β} (hw : w.Spells tokens)
    (hhalt : ∀ t : Trail α, t.halt ≠ none → result t = none)
    (hperm : ∀ states states' : List (Pending κ ν), states.Perm states' →
      (states.map Pending.key).Nodup →
        result (.give (states.flatMap fun s => (w.gives s).items)) =
          result (.give (states'.flatMap fun s => (w.gives s).items)))
    (root : Pending κ ν) : w.OrderFree root result := by
  have hkept : ∀ positions r, w.run? (.start [root]) positions = some r → Kept w [root] r :=
    fun positions r hrun => (Kept.start w [root]).run positions hrun
  refine ⟨⟨([root].flatMap w.follow).length, fun positions r hrun => ?_⟩, ?_, ?_, ?_⟩
  · have hlength := (hkept positions r hrun).length_le
    rw [length_removed_run positions hrun] at hlength
    exact (Nat.zero_add _).symm.trans_le hlength
  · intro positions r hrun hover i hi
    obtain ⟨r', hstep⟩ := exists_remove? hover hi
    refine ⟨r', ?_⟩
    unfold run? at hrun ⊢
    rw [List.foldlM_append, hrun]
    show (w.remove? r i).bind some = some r'
    rw [hstep]
    rfl
  · exact fun positions r hrun => (hkept positions r hrun).nodup_removed hw
  · intro positions r hrun hover positions' r' hrun' hover'
    have h := hkept positions r hrun
    have h' := hkept positions' r' hrun'
    have hboth : r.halt = none ↔ r'.halt = none :=
      (h.halt_eq_none_iff hover).trans (h'.halt_eq_none_iff hover').symm
    by_cases hnone : r.halt = none
    · -- both have removed the same states
      have hnone' := hboth.1 hnone
      have hremoved := (h.removed_perm hover hnone).trans (h'.removed_perm hover' hnone').symm
      unfold Progress.trail
      rw [hnone, hnone', h.given, h'.given]
      exact hperm r.removed r'.removed hremoved (h.nodup_removed hw)
    · exact (hhalt r.trail hnone).trans (hhalt r'.trail (mt hboth.2 hnone)).symm

/-- The same for a result that is made of all that was given when nothing halted. -/
theorem orderFree_of_settled {β : Type} {make : List α → β} (hw : w.Spells tokens)
    (hperm : ∀ states states' : List (Pending κ ν), states.Perm states' →
      (states.map Pending.key).Nodup →
        make (states.flatMap fun s => (w.gives s).items) =
          make (states'.flatMap fun s => (w.gives s).items))
    (root : Pending κ ν) : w.OrderFree root fun t => t.settled.toOption.map make := by
  refine orderFree_of_spells hw (fun t hhalt => ?_) (fun states states' hsame hnodup => ?_) root
  · obtain ⟨items, halt⟩ := t
    cases halt with
    | none => exact absurd rfl hhalt
    | some halt => rfl
  · exact congrArg some (hperm states states' hsame hnodup)

end

end Worklist

end LabelWalks
