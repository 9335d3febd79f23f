/-
  LabelWalks.Proofs.Synthetic.Draw
  ────────────────────────────────
  **WHAT DRAWS GIVE.**

  A draw fails when a bound is zero, when a position is not in the list, or when a
  difference falls below zero.  Which numbers are drawn is of no interest here: a
  computation is safe when it has a result wherever the sequence stands, and its result
  then has some property.  What holds of a result if there is one is told apart, for it
  can be told of computations whose results nobody could store.

    • `Draw.Gives` — there is a result, and it has the property,
    • `Draw.Yields` — a result has the property, if there is one,
    • `Composes.foldlM`, `Composes.foldlM_range'` — loops, told of either in one way,
    • `gives_below`, `gives_pick`, `gives_difference`, `gives_remainder` — the draws that
      can fail, and when they do not.
-/
import LabelWalks.Synthetic.Lcg
import Mathlib

namespace LabelWalks.Synthetic

namespace Draw

variable {α β : Type}

/-- Wherever the sequence stands, there is a result, and it has the property. -/
def Gives (d : Draw α) (P : α → Prop) : Prop :=
  ∀ r, ∃ a r', d r = some (a, r') ∧ P a

/-- Wherever the sequence stands, a result has the property, if there is one. -/
def Yields (d : Draw α) (P : α → Prop) : Prop :=
  ∀ r a r', d r = some (a, r') → P a

/-! ## §1. Loops. -/

/-- What can be told of one draw after another, when it can be told of each. -/
structure Composes (tells : Draw β → (β → Prop) → Prop) : Prop where
  pure : ∀ {b : β} {P : β → Prop}, P b → tells (pure b) P
  bind : ∀ {d : Draw β} {f : β → Draw β} {P Q : β → Prop},
    tells d P → (∀ b, P b → tells (f b) Q) → tells (d >>= f) Q

namespace Composes

variable {tells : Draw β → (β → Prop) → Prop} {Q : β → Prop}

/-- **A loop over a list** keeps what each turn keeps. -/
theorem foldlM (h : Composes tells) {step : β → α → Draw β} (xs : List α)
    (hstep : ∀ x ∈ xs, ∀ b, Q b → tells (step b x) Q) :
    ∀ {b : β}, Q b → tells (xs.foldlM step b) Q := by
  induction xs with
  | nil => exact fun hb => h.pure hb
  | cons x xs ih =>
      intro b hb
      rw [List.foldlM_cons]
      exact h.bind (hstep x List.mem_cons_self b hb) fun b hb =>
        ih (fun y hy => hstep y (List.mem_cons_of_mem _ hy)) hb

/-- **A loop over numbers** keeps what each turn takes from its number to the next one. -/
theorem foldlM_range' (h : Composes tells) {f : β → Nat → Draw β} {I : Nat → β → Prop}
    (count : Nat) : ∀ {first : Nat} {b : β}, I first b →
      (∀ i b, first ≤ i → i < first + count → I i b → tells (f b i) (I (i + 1))) →
      tells ((List.range' first count).foldlM f b) (I (first + count)) := by
  induction count with
  | zero => exact fun hb _ => h.pure hb
  | succ count ih =>
      intro first b hb hstep
      rw [List.range'_succ, List.foldlM_cons]
      refine h.bind (hstep first b (Nat.le_refl _) (by omega) hb) fun b hb => ?_
      have hrest := ih hb fun i b hi hlt => hstep i b (by omega) (by omega)
      rwa [show first + 1 + count = first + (count + 1) by omega] at hrest

end Composes

/-! ## §2. Results that there are. -/

section
variable {d : Draw α} {f : α → Draw β} {P P' : α → Prop} {Q : β → Prop}

theorem gives_pure {a : α} (h : P a) : (pure a : Draw α).Gives P :=
  fun r => ⟨a, r, rfl, h⟩

theorem Gives.imp (h : d.Gives P) (himp : ∀ a, P a → P' a) : d.Gives P' := by
  intro r
  obtain ⟨a, r', hrun, ha⟩ := h r
  exact ⟨a, r', hrun, himp a ha⟩

/-- **One draw after another**: what the first one gives is enough for the second. -/
theorem Gives.bind (h : d.Gives P) (hf : ∀ a, P a → (f a).Gives Q) : (d >>= f).Gives Q := by
  intro r
  obtain ⟨a, r₁, hrun, ha⟩ := h r
  obtain ⟨b, r₂, hnext, hb⟩ := hf a ha r₁
  refine ⟨b, r₂, ?_, hb⟩
  show (d r).bind (fun row => f row.1 row.2) = some (b, r₂)
  rw [hrun]
  exact hnext

theorem composes_gives : Composes (Gives : Draw β → (β → Prop) → Prop) where
  pure := gives_pure
  bind := Gives.bind

theorem gives_foldlM {step : β → α → Draw β} (xs : List α)
    (hstep : ∀ x ∈ xs, ∀ b, Q b → (step b x).Gives Q) {b : β} (hb : Q b) :
    (xs.foldlM step b).Gives Q :=
  composes_gives.foldlM xs hstep hb

theorem gives_foldlM_range' {f : β → Nat → Draw β} {I : Nat → β → Prop} (count : Nat)
    {first : Nat} {b : β} (hb : I first b)
    (hstep : ∀ i b, first ≤ i → i < first + count → I i b → (f b i).Gives (I (i + 1))) :
    ((List.range' first count).foldlM f b).Gives (I (first + count)) :=
  composes_gives.foldlM_range' count hb hstep

theorem gives_foldlM_range {f : β → Nat → Draw β} {I : Nat → β → Prop} (count : Nat) {b : β}
    (hb : I 0 b) (hstep : ∀ i b, i < count → I i b → (f b i).Gives (I (i + 1))) :
    ((List.range count).foldlM f b).Gives (I count) := by
  have hrange := gives_foldlM_range' (f := f) count hb fun i b _ hi => hstep i b (by omega)
  rwa [Nat.zero_add, ← List.range_eq_range'] at hrange

end

/-! ## §3. Draws. -/

/-- A draw below a bound other than zero. -/
theorem gives_below {bound : UInt64} (h : bound ≠ 0) :
    (below bound).Gives fun x => x.toNat < bound.toNat := by
  intro r
  refine ⟨(r.step.word >>> 33) % bound, r.step, if_neg h, ?_⟩
  show ((r.step.word >>> 33) % bound).toNat < bound.toNat
  rw [UInt64.toNat_mod]
  refine Nat.mod_lt _ (Nat.pos_of_ne_zero fun hzero => h ?_)
  exact UInt64.toNat_inj.1 hzero

/-- A draw below a number that a word can hold. -/
theorem gives_below_ofNat {n : Nat} (hpos : 0 < n) (hlt : n < UInt64.size) :
    (below (.ofNat n)).Gives fun x => x.toNat < n := by
  have hn : (UInt64.ofNat n).toNat = n := UInt64.toNat_ofNat_of_lt' hlt
  have hne : UInt64.ofNat n ≠ 0 := by
    intro hzero
    rw [hzero] at hn
    exact Nat.ne_of_lt hpos hn
  exact (gives_below hne).imp fun x hx => by rwa [hn] at hx

theorem gives_unit : unit.Gives fun _ => True :=
  fun r => ⟨_, r.step, rfl, trivial⟩

/-- The labels of nodes are below four. -/
theorem gives_nodeLabel : nodeLabel.Gives fun label => label.toNat < 4 := by
  refine (gives_below (by decide)).bind fun x hx => gives_pure ?_
  have hx : x.toNat < 4 := hx
  rw [UInt64.toNat_toUInt32, Nat.mod_eq_of_lt (by omega)]
  exact hx

/-- The labels of edges are below five. -/
theorem gives_edgeLabel : edgeLabel.Gives fun label => label.toNat < 5 := by
  refine (gives_below (by decide)).bind fun x hx => gives_pure ?_
  have hx : x.toNat < 5 := hx
  rw [UInt64.toNat_toUInt32, Nat.mod_eq_of_lt (by omega)]
  exact hx

theorem gives_difference {a b : Nat} (h : b ≤ a) : (difference a b).Gives fun d => d = a - b := by
  unfold difference
  rw [if_pos h]
  exact gives_pure rfl

theorem gives_remainder {a b : Nat} (h : 0 < b) : (remainder a b).Gives fun r => r = a % b := by
  unfold remainder
  rw [if_neg (Nat.ne_of_gt h)]
  exact gives_pure rfl

/-- **A drawn member** of a list that has one, and not too many for a word. -/
theorem gives_pick {xs : Array NodeId} (hpos : 0 < xs.size) (hlt : xs.size < UInt64.size) :
    (pick xs).Gives fun x => x ∈ xs := by
  refine (gives_below_ofNat hpos hlt).bind fun i hi => ?_
  rw [Array.getElem?_eq_getElem hi]
  exact gives_pure (Array.getElem_mem hi)

/-! ## §4. Results that there may be. -/

section
variable {d : Draw α} {f : α → Draw β} {P P' : α → Prop} {Q : β → Prop}

theorem Gives.yields (h : d.Gives P) : d.Yields P := by
  intro r a r' hrun
  obtain ⟨a', r'', hrun', ha⟩ := h r
  obtain ⟨rfl, -⟩ := Prod.mk.inj (Option.some.inj (hrun.symm.trans hrun'))
  exact ha

/-- A result that there is has what holds of any result. -/
theorem Gives.and (h : d.Gives P) (h' : d.Yields P') : d.Gives fun a => P a ∧ P' a := by
  intro r
  obtain ⟨a, r', hrun, ha⟩ := h r
  exact ⟨a, r', hrun, ha, h' r a r' hrun⟩

theorem yields_pure {a : α} (h : P a) : (pure a : Draw α).Yields P :=
  (gives_pure h).yields

theorem yields_failure : (failure : Draw α).Yields P := by
  intro r a r' hrun
  cases hrun

theorem Yields.imp (h : d.Yields P) (himp : ∀ a, P a → P' a) : d.Yields P' :=
  fun r a r' hrun => himp a (h r a r' hrun)

/-- **One draw after another**: what the first one may give is enough for the second. -/
theorem Yields.bind (h : d.Yields P) (hf : ∀ a, P a → (f a).Yields Q) : (d >>= f).Yields Q := by
  intro r b r₂ hrun
  have hboth : (d r).bind (fun row => f row.1 row.2) = some (b, r₂) := hrun
  obtain ⟨⟨a, r₁⟩, hfirst, hnext⟩ := Option.bind_eq_some_iff.1 hboth
  exact hf a (h r a r₁ hfirst) r₁ b r₂ hnext

theorem composes_yields : Composes (Yields : Draw β → (β → Prop) → Prop) where
  pure := yields_pure
  bind := Yields.bind

theorem yields_foldlM {step : β → α → Draw β} (xs : List α)
    (hstep : ∀ x ∈ xs, ∀ b, Q b → (step b x).Yields Q) {b : β} (hb : Q b) :
    (xs.foldlM step b).Yields Q :=
  composes_yields.foldlM xs hstep hb

theorem yields_foldlM_range' {f : β → Nat → Draw β} {I : Nat → β → Prop} (count : Nat)
    {first : Nat} {b : β} (hb : I first b)
    (hstep : ∀ i b, first ≤ i → i < first + count → I i b → (f b i).Yields (I (i + 1))) :
    ((List.range' first count).foldlM f b).Yields (I (first + count)) :=
  composes_yields.foldlM_range' count hb hstep

end

/-- A drawn member of a list, however long. -/
theorem yields_pick (xs : Array NodeId) : (pick xs).Yields fun x => x ∈ xs := by
  refine Yields.bind (P := fun _ => True) (fun _ _ _ _ => trivial) fun i _ => ?_
  split
  next x hx => exact yields_pure (Array.mem_of_getElem? hx)
  next => exact yields_failure

end Draw

end LabelWalks.Synthetic
