/-
  LabelWalks.Proofs.LookUp
  ────────────────────────
  **LOOK-UPS THAT FOUND SOMETHING.**

  A look-up gives a value or a fault, and a computation made of look-ups gives a
  value just when each of them does.  These lemmas take such a computation apart;
  the other modules open no `do` block by hand.

    • `bind_eq_ok_iff` — two look-ups one after another,
    • `LookedUp` — a look-up for each member of a list, as rows of member and value,
    • `mapM_eq_ok_iff`, `foldlM_eq_ok_iff` — what is made of the rows,
    • `bind_eq_error_iff`, `mapM_eq_error_iff` — the fault, which is that of the first
      look-up that found nothing,
    • `exists_mem_of_forall₂`, `forall₂_of_same` — lists whose members go together.
-/
import Mathlib

namespace LabelWalks

variable {ε α β γ : Type}

/-! ## §1. One or two look-ups. -/

/-- A look-up that reports what it did not find. -/
theorem elim_error_eq_ok_iff {o : Option α} {e : ε} {a : α} :
    o.elim (.error e) .ok = Except.ok a ↔ o = some a := by
  cases o with
  | none => simp
  | some b => simp

/-- **Two look-ups**: the first one finds what the second goes on with. -/
theorem bind_eq_ok_iff {x : Except ε α} {f : α → Except ε β} {b : β} :
    (x >>= f) = .ok b ↔ ∃ a, x = .ok a ∧ f a = .ok b := by
  cases x with
  | error e =>
      constructor
      · intro h
        cases h
      · intro hsome
        obtain ⟨a, h, -⟩ := hsome
        cases h
  | ok a =>
      constructor
      · intro h
        exact ⟨a, rfl, h⟩
      · intro hsome
        obtain ⟨a', h, h'⟩ := hsome
        injection h with h
        rw [h]
        exact h'

theorem pure_eq_ok_iff {a b : α} : (pure a : Except ε α) = .ok b ↔ a = b := by
  constructor
  · intro h
    injection h
  · intro h
    subst h
    rfl

theorem toOption_eq_some_iff {x : Except ε α} {a : α} : x.toOption = some a ↔ x = .ok a := by
  cases x <;> simp [Except.toOption]

/-! ## §2. A look-up for each member of a list. -/

/-- The members of a list in order, each with what was found for it. -/
def LookedUp (f : α → Except ε β) (xs : List α) (rows : List (α × β)) : Prop :=
  rows.map Prod.fst = xs ∧ ∀ row ∈ rows, f row.1 = .ok row.2

theorem lookedUp_nil {f : α → Except ε β} {rows : List (α × β)} :
    LookedUp f [] rows ↔ rows = [] := by
  unfold LookedUp
  constructor
  · intro hrows
    obtain ⟨h, -⟩ := hrows
    exact List.map_eq_nil_iff.1 h
  · intro h
    subst h
    simp

theorem lookedUp_cons {f : α → Except ε β} {x : α} {xs : List α} {rows : List (α × β)} :
    LookedUp f (x :: xs) rows ↔
      ∃ y rest, f x = .ok y ∧ LookedUp f xs rest ∧ rows = (x, y) :: rest := by
  constructor
  · intro h
    obtain ⟨hmap, hall⟩ := h
    obtain ⟨⟨x', y⟩, rest, rfl, hfst, hrest⟩ := List.map_eq_cons_iff.1 hmap
    have hfst : x' = x := hfst
    subst hfst
    exact ⟨y, rest, hall _ List.mem_cons_self,
      ⟨hrest, fun row hrow => hall row (List.mem_cons_of_mem _ hrow)⟩, rfl⟩
  · intro h
    obtain ⟨y, rest, hx, ⟨hrest, hall⟩, rfl⟩ := h
    refine ⟨by rw [List.map_cons, hrest], fun row hrow => ?_⟩
    rcases List.mem_cons.1 hrow with rfl | hrow
    · exact hx
    · exact hall row hrow

/-- The rows are all that was found. -/
theorem LookedUp.mem_iff {f : α → Except ε β} {xs : List α} {rows : List (α × β)}
    (h : LookedUp f xs rows) {x : α} {y : β} : (x, y) ∈ rows ↔ x ∈ xs ∧ f x = .ok y := by
  obtain ⟨rfl, hall⟩ := h
  constructor
  · intro hmem
    exact ⟨List.mem_map.2 ⟨_, hmem, rfl⟩, hall _ hmem⟩
  · intro h
    obtain ⟨hmem, hx⟩ := h
    obtain ⟨⟨x', y'⟩, hrow, rfl⟩ := List.mem_map.1 hmem
    have hy : y = y' := by
      have := hall _ hrow
      rw [hx] at this
      injection this
    rw [hy]
    exact hrow

/-- All look-ups find something. -/
theorem exists_lookedUp_iff {f : α → Except ε β} (xs : List α) :
    (∃ rows, LookedUp f xs rows) ↔ ∀ x ∈ xs, ∃ y, f x = .ok y := by
  induction xs with
  | nil => simp [lookedUp_nil]
  | cons x xs ih =>
      simp only [lookedUp_cons, List.mem_cons, forall_eq_or_imp, ← ih]
      constructor
      · intro h
        obtain ⟨rows, y, rest, hx, hrest, -⟩ := h
        exact ⟨⟨y, hx⟩, rest, hrest⟩
      · intro h
        obtain ⟨⟨y, hx⟩, rest, hrest⟩ := h
        exact ⟨_, y, rest, hx, hrest, rfl⟩

/-- **All that was found, in order.** -/
theorem mapM_eq_ok_iff {f : α → Except ε β} (xs : List α) :
    ∀ {ys : List β}, (xs.mapM f : Except ε (List β)) = .ok ys ↔
      ∃ rows, LookedUp f xs rows ∧ ys = rows.map Prod.snd := by
  induction xs with
  | nil =>
      intro ys
      simp only [lookedUp_nil, exists_eq_left, List.map_nil, List.mapM_nil, pure_eq_ok_iff]
      exact eq_comm
  | cons x xs ih =>
      intro ys
      simp only [List.mapM_cons, bind_eq_ok_iff, pure_eq_ok_iff, lookedUp_cons, ih]
      constructor
      · intro h
        obtain ⟨y, hx, _, ⟨rest, hrest, rfl⟩, rfl⟩ := h
        exact ⟨_, ⟨y, rest, hx, hrest, rfl⟩, rfl⟩
      · intro h
        obtain ⟨_, ⟨y, rest, hx, hrest, rfl⟩, rfl⟩ := h
        exact ⟨y, hx, _, ⟨rest, hrest, rfl⟩, rfl⟩

/-- Whatever was written for the members of a list is read back as the list. -/
theorem mapM_map_eq_ok {read : β → Except ε α} {write : α → β} (xs : List α)
    (h : ∀ x ∈ xs, read (write x) = .ok x) :
    ((xs.map write).mapM read : Except ε (List α)) = .ok xs := by
  induction xs with
  | nil => rfl
  | cons x xs ih =>
      rw [List.map_cons, List.mapM_cons, h x List.mem_cons_self,
        ih fun y hy => h y (List.mem_cons_of_mem _ hy)]
      rfl

/-- What is read one by one is read as a list. -/
theorem mapM_eq_some_of_forall₂ {read : β → Option α} {xs : List α} {ys : List β}
    (h : List.Forall₂ (fun x y => read y = some x) xs ys) : ys.mapM read = some xs := by
  induction h with
  | nil => rfl
  | cons hread _ ih =>
      rw [List.mapM_cons, hread, ih]
      rfl

/-- **What is made of all that was found**, one after another. -/
theorem foldlM_eq_ok_iff {f : α → Except ε β} {step : γ → α → β → γ} (xs : List α) :
    ∀ {init r : γ},
      (xs.foldlM (fun acc x => do let y ← f x; return step acc x y) init : Except ε γ) = .ok r ↔
        ∃ rows, LookedUp f xs rows ∧ r = rows.foldl (fun acc row => step acc row.1 row.2) init := by
  induction xs with
  | nil =>
      intro init r
      simp only [List.foldlM_nil, lookedUp_nil, exists_eq_left, List.foldl_nil, pure_eq_ok_iff]
      exact eq_comm
  | cons x xs ih =>
      intro init r
      simp only [List.foldlM_cons, bind_eq_ok_iff, pure_eq_ok_iff, lookedUp_cons, ih]
      constructor
      · intro h
        obtain ⟨_, ⟨y, hx, rfl⟩, rest, hrest, rfl⟩ := h
        exact ⟨_, ⟨y, rest, hx, hrest, rfl⟩, rfl⟩
      · intro h
        obtain ⟨_, ⟨y, rest, hx, hrest, rfl⟩, rfl⟩ := h
        exact ⟨_, ⟨y, hx, rfl⟩, rest, hrest, rfl⟩

/-- Something is made just when all look-ups find something. -/
theorem exists_foldlM_iff {f : α → Except ε β} {step : γ → α → β → γ} (xs : List α) {init : γ} :
    (∃ r, (xs.foldlM (fun acc x => do let y ← f x; return step acc x y) init : Except ε γ) = .ok r) ↔
      ∀ x ∈ xs, ∃ y, f x = .ok y := by
  rw [← exists_lookedUp_iff]
  simp only [foldlM_eq_ok_iff]
  constructor
  · intro h
    obtain ⟨r, rows, hrows, -⟩ := h
    exact ⟨rows, hrows⟩
  · intro h
    obtain ⟨rows, hrows⟩ := h
    exact ⟨_, rows, hrows, rfl⟩

/-- All that was found, member by member. -/
theorem mapM_eq_ok_iff_forall₂ {f : α → Except ε β} (xs : List α) :
    ∀ {ys : List β}, (xs.mapM f : Except ε (List β)) = .ok ys ↔
      List.Forall₂ (fun x y => f x = .ok y) xs ys := by
  induction xs with
  | nil =>
      intro ys
      rw [List.mapM_nil, pure_eq_ok_iff, List.forall₂_nil_left_iff]
      exact eq_comm
  | cons x xs ih =>
      intro ys
      simp only [List.mapM_cons, bind_eq_ok_iff, pure_eq_ok_iff, List.forall₂_cons_left_iff, ih]
      constructor
      · intro h
        obtain ⟨y, hx, rest, hrest, rfl⟩ := h
        exact ⟨y, rest, hx, hrest, rfl⟩
      · intro h
        obtain ⟨y, rest, hx, hrest, rfl⟩ := h
        exact ⟨y, hx, rest, hrest, rfl⟩

/-! ## §3. The first look-up that found nothing. -/

theorem elim_error_eq_error_iff {o : Option α} {e e' : ε} :
    o.elim (.error e) .ok = (.error e' : Except ε α) ↔ o = none ∧ e = e' := by
  cases o with
  | none => simp
  | some b => simp

theorem mapError_eq_ok_iff {ε' : Type} {x : Except ε α} {tell : ε → ε'} {a : α} :
    x.mapError tell = .ok a ↔ x = .ok a := by
  cases x <;> simp [Except.mapError]

theorem mapError_eq_error_iff {ε' : Type} {x : Except ε α} {tell : ε → ε'} {e' : ε'} :
    x.mapError tell = .error e' ↔ ∃ e, x = .error e ∧ tell e = e' := by
  cases x <;> simp [Except.mapError]

theorem map_eq_ok_iff {x : Except ε α} {f : α → β} {b : β} :
    x.map f = .ok b ↔ ∃ a, x = .ok a ∧ b = f a := by
  cases x <;> simp [Except.map, eq_comm]

theorem map_eq_error_iff {x : Except ε α} {f : α → β} {e : ε} :
    x.map f = .error e ↔ x = .error e := by
  cases x <;> simp [Except.map]

/-- A check before a computation. -/
theorem guard_eq_ok_iff {p : Prop} [Decidable p] {e : ε} {f : PUnit → Except ε α}
    {x : Except ε α} {a : α} :
    (if p then throw e >>= f else x) = .ok a ↔ ¬ p ∧ x = .ok a := by
  by_cases hp : p
  · rw [if_pos hp]
    constructor
    · intro h
      cases h
    · intro h
      exact absurd hp h.1
  · rw [if_neg hp]
    exact (and_iff_right hp).symm

theorem guard_eq_error_iff {p : Prop} [Decidable p] {e e' : ε} {f : PUnit → Except ε α}
    {x : Except ε α} :
    (if p then throw e >>= f else x) = .error e' ↔ p ∧ e = e' ∨ ¬ p ∧ x = .error e' := by
  by_cases hp : p
  · rw [if_pos hp]
    show (Except.error e : Except ε α) = .error e' ↔ _
    simp [hp]
  · rw [if_neg hp]
    simp [hp]

/-- **Two look-ups fail** when the first one does, or the second after it. -/
theorem bind_eq_error_iff {x : Except ε α} {f : α → Except ε β} {e : ε} :
    (x >>= f) = .error e ↔ x = .error e ∨ ∃ a, x = .ok a ∧ f a = .error e := by
  cases x with
  | error e' =>
      show (Except.error e' : Except ε β) = .error e ↔ _
      simp
  | ok a =>
      show f a = .error e ↔ _
      simp

/-- Nothing is made of all look-ups when one of them fails. -/
theorem exists_of_foldlM_eq_error {f : α → Except ε β} {step : γ → α → β → γ} {e : ε}
    (xs : List α) : ∀ {init : γ},
      (xs.foldlM (fun acc x => do let y ← f x; return step acc x y) init : Except ε γ) = .error e →
        ∃ x ∈ xs, f x = .error e := by
  induction xs with
  | nil =>
      intro init h
      cases h
  | cons x xs ih =>
      intro init h
      rw [List.foldlM_cons, bind_eq_error_iff] at h
      rcases h with hfirst | ⟨acc, -, hrest⟩
      · rcases bind_eq_error_iff.1 hfirst with hx | ⟨y, -, hpure⟩
        · exact ⟨x, List.mem_cons_self, hx⟩
        · cases hpure
      · obtain ⟨x', hx', hfail⟩ := ih hrest
        exact ⟨x', List.mem_cons_of_mem _ hx', hfail⟩

/-- A place in a list is its start or a place in the rest. -/
theorem exists_place_cons_iff {p : List α → α → List α → Prop} {x : α} {xs : List α} :
    (∃ before y after, x :: xs = before ++ y :: after ∧ p before y after) ↔
      p [] x xs ∨ ∃ before y after, xs = before ++ y :: after ∧ p (x :: before) y after := by
  constructor
  · intro h
    obtain ⟨before, y, after, hxs, hp⟩ := h
    cases before with
    | nil =>
        obtain ⟨rfl, rfl⟩ := List.cons.inj hxs
        exact .inl hp
    | cons z before =>
        obtain ⟨rfl, rfl⟩ := List.cons.inj hxs
        exact .inr ⟨before, y, after, rfl, hp⟩
  · intro h
    rcases h with hp | ⟨before, y, after, rfl, hp⟩
    · exact ⟨[], x, xs, rfl, hp⟩
    · exact ⟨x :: before, y, after, rfl, hp⟩

/-- **The look-ups of a list fail** with the first one that does. -/
theorem mapM_eq_error_iff {f : α → Except ε β} {e : ε} (xs : List α) :
    (xs.mapM f : Except ε (List β)) = .error e ↔
      ∃ before x after, xs = before ++ x :: after ∧ (∀ y ∈ before, ∃ b, f y = .ok b)
        ∧ f x = .error e := by
  induction xs with
  | nil =>
      rw [List.mapM_nil]
      show (Except.ok [] : Except ε (List β)) = .error e ↔ _
      simp
  | cons x xs ih =>
      have hrest : ∀ b, (do let bs ← xs.mapM f; return b :: bs : Except ε (List β)) = .error e ↔
          (xs.mapM f : Except ε (List β)) = .error e := by
        intro b
        rw [bind_eq_error_iff]
        refine or_iff_left fun h => ?_
        obtain ⟨bs, -, hpure⟩ := h
        cases hpure
      rw [List.mapM_cons, bind_eq_error_iff, exists_place_cons_iff]
      simp only [hrest, ih, List.mem_cons, forall_eq_or_imp]
      refine or_congr (by simp) ?_
      constructor
      · intro h
        obtain ⟨b, hb, before, y, after, hxs, hbefore, hy⟩ := h
        exact ⟨before, y, after, hxs, ⟨⟨b, hb⟩, hbefore⟩, hy⟩
      · intro h
        obtain ⟨before, y, after, hxs, ⟨⟨b, hb⟩, hbefore⟩, hy⟩ := h
        exact ⟨b, hb, before, y, after, hxs, hbefore, hy⟩

/-! ## §4. Lists whose members go together. -/

section
variable {r : α → β → Prop}

/-- Each member of a list has a partner, and so the list has one. -/
theorem exists_forall₂_iff (xs : List α) :
    (∃ ys, List.Forall₂ r xs ys) ↔ ∀ x ∈ xs, ∃ y, r x y := by
  induction xs with
  | nil => simp
  | cons x xs ih =>
      simp only [List.forall₂_cons_left_iff, List.mem_cons, forall_eq_or_imp, ← ih]
      constructor
      · intro h
        obtain ⟨_, y, ys, hx, hys, rfl⟩ := h
        exact ⟨⟨y, hx⟩, ys, hys⟩
      · intro h
        obtain ⟨⟨y, hx⟩, ys, hys⟩ := h
        exact ⟨_, y, ys, hx, hys, rfl⟩

theorem exists_mem_of_forall₂ {xs : List α} {ys : List β} (h : List.Forall₂ r xs ys) {x : α}
    (hx : x ∈ xs) : ∃ y ∈ ys, r x y := by
  induction h with
  | nil => cases hx
  | @cons x' y xs ys hxy _ ih =>
      rcases List.mem_cons.1 hx with rfl | hx
      · exact ⟨y, List.mem_cons_self, hxy⟩
      · obtain ⟨y', hy', hxy'⟩ := ih hx
        exact ⟨y', List.mem_cons_of_mem _ hy', hxy'⟩

/-- When a member has one partner at most, the partners are all that go with some member. -/
theorem mem_iff_of_forall₂ (hr : Relator.RightUnique r) {xs : List α} {ys : List β}
    (h : List.Forall₂ r xs ys) {y : β} : y ∈ ys ↔ ∃ x ∈ xs, r x y := by
  constructor
  · intro hy
    exact exists_mem_of_forall₂ h.flip hy
  · intro hsome
    obtain ⟨x, hx, hxy⟩ := hsome
    obtain ⟨y', hy', hxy'⟩ := exists_mem_of_forall₂ h hx
    rw [hr hxy hxy']
    exact hy'

/-- Partners of the same members go together. -/
theorem forall₂_of_same {t : α → γ → Prop} {q : β → γ → Prop} {xs : List α}
    {ys : List β} {zs : List γ} (h : List.Forall₂ r xs ys) (h' : List.Forall₂ t xs zs)
    (hq : ∀ x y z, r x y → t x z → q y z) : List.Forall₂ q ys zs := by
  induction h generalizing zs with
  | nil =>
      rw [List.forall₂_nil_left_iff.1 h']
      exact .nil
  | @cons x y xs ys hxy _ ih =>
      obtain ⟨z, zs, hxz, hzs, rfl⟩ := List.forall₂_cons_left_iff.1 h'
      exact .cons (hq x y z hxy hxz) (ih hzs)

/-- What any two members in order have, their partners have as well. -/
theorem pairwise_of_forall₂ {t : α → α → Prop} {q : β → β → Prop} {xs : List α} {ys : List β}
    (h : List.Forall₂ r xs ys) (hpairs : xs.Pairwise t)
    (hq : ∀ x y x' y', r x y → r x' y' → t x x' → q y y') : ys.Pairwise q := by
  induction h with
  | nil => exact .nil
  | @cons x y xs ys hxy hrest ih =>
      obtain ⟨hfirst, hpairs⟩ := List.pairwise_cons.1 hpairs
      refine List.pairwise_cons.2 ⟨fun y' hy' => ?_, ih hpairs⟩
      obtain ⟨x', hx', hxy'⟩ := exists_mem_of_forall₂ hrest.flip hy'
      exact hq x y x' y' hxy hxy' (hfirst x' hx')

/-- The members are sent to the same things as their partners. -/
theorem map_eq_map_iff_forall₂ {f : α → γ} {f' : β → γ} {xs : List α} {ys : List β} :
    xs.map f = ys.map f' ↔ List.Forall₂ (fun x y => f x = f' y) xs ys := by
  rw [← List.forall₂_eq_eq_eq, List.forall₂_map_left_iff, List.forall₂_map_right_iff]

/-- As many members have a property when each has it as its partner has another. -/
theorem countP_eq_of_forall₂ {p : α → Bool} {q : β → Bool} {xs : List α} {ys : List β}
    (h : List.Forall₂ r xs ys) (hpq : ∀ x y, r x y → p x = q y) : xs.countP p = ys.countP q := by
  induction h with
  | nil => rfl
  | cons hxy _ ih => rw [List.countP_cons, List.countP_cons, ih, hpq _ _ hxy]

end

end LabelWalks
