/-
  LabelWalks.Proofs.Trail
  ───────────────────────
  **TRAILS WITHOUT A HALT.**

  A trail put together from others has no halt just when none of its parts has
  one, and then its items are the items of the parts; a halt is the halt of a part.
  These facts, one for each way to put trails together, are all that later modules
  use of trails:

    • `andThen_halt_eq_none`, `andThen_halt_eq_some`, `andThen_items`,
    • `each_halt_eq_none`, `exists_of_each_halt`, `each_items`, `mem_each_items`,
    • `whenSettled_halt_eq_none`, `whenSettled_items`,
    • `andThen_assoc`, `each_map`, `map_each`, `whenSettled_andThen`.
-/
import LabelWalks.Trail

namespace LabelWalks.Trail

variable {α β : Type}

/-! ## §1. Plain trails. -/

@[simp]
theorem done_halt : (done : Trail α).halt = none := rfl

@[simp]
theorem done_items : (done : Trail α).items = [] := rfl

@[simp]
theorem give_halt (items : List α) : (give items).halt = none := rfl

@[simp]
theorem give_items (items : List α) : (give items).items = items := rfl

theorem ofExcept_halt_eq_none (r : Except Fault α) :
    (ofExcept r).halt = none ↔ ∃ a, r = .ok a := by
  cases r with
  | ok a => simp [ofExcept]
  | error fault => simp [ofExcept, stop]

@[simp]
theorem ofExcept_ok_items (a : α) : (ofExcept (.ok a)).items = [a] := rfl

@[simp]
theorem map_halt (f : β → α) (t : Trail β) : (t.map f).halt = t.halt := rfl

@[simp]
theorem map_items (f : β → α) (t : Trail β) : (t.map f).items = t.items.map f := rfl

/-! ## §2. One trail after another. -/

theorem andThen_halt_eq_none (t : Trail α) (next : Unit → Trail α) :
    (t.andThen next).halt = none ↔ t.halt = none ∧ (next ()).halt = none := by
  unfold andThen
  cases ht : t.halt with
  | none => simp
  | some halt => simp

/-- A halt is that of the first trail, or that of the second one after a first without a halt. -/
theorem andThen_halt_eq_some {t : Trail α} {next : Unit → Trail α} {halt : Halt}
    (h : (t.andThen next).halt = some halt) : t.halt = some halt ∨ (next ()).halt = some halt := by
  unfold andThen at h
  cases ht : t.halt with
  | none =>
      rw [ht] at h
      exact .inr h
  | some halt' =>
      rw [ht] at h
      exact .inl h

theorem andThen_items (t : Trail α) (next : Unit → Trail α) (h : t.halt = none) :
    (t.andThen next).items = t.items ++ (next ()).items := by
  unfold andThen
  rw [h]

/-! ## §3. A trail for each member of a list. -/

theorem each_halt_eq_none (f : β → Trail α) (xs : List β) :
    (each f xs).halt = none ↔ ∀ x ∈ xs, (f x).halt = none := by
  induction xs with
  | nil => simp [each]
  | cons x xs ih =>
    rw [each, andThen_halt_eq_none, ih]
    simp

theorem exists_of_each_halt {f : β → Trail α} {xs : List β} {halt : Halt}
    (h : (each f xs).halt = some halt) : ∃ x ∈ xs, (f x).halt = some halt := by
  induction xs with
  | nil => cases h
  | cons x xs ih =>
      rcases andThen_halt_eq_some h with hfirst | hrest
      · exact ⟨x, List.mem_cons_self, hfirst⟩
      · obtain ⟨y, hy, hhalt⟩ := ih hrest
        exact ⟨y, List.mem_cons_of_mem _ hy, hhalt⟩

theorem each_items (f : β → Trail α) (xs : List β) (h : (each f xs).halt = none) :
    (each f xs).items = xs.flatMap fun x => (f x).items := by
  induction xs with
  | nil => rfl
  | cons x xs ih =>
    rw [each, andThen_halt_eq_none] at h
    rw [each, andThen_items _ _ h.1, ih h.2, List.flatMap_cons]

theorem mem_each_items (f : β → Trail α) (xs : List β) (h : (each f xs).halt = none) (y : α) :
    y ∈ (each f xs).items ↔ ∃ x ∈ xs, y ∈ (f x).items := by
  rw [each_items f xs h, List.mem_flatMap]

/-- With or without a halt, an item comes from one of the trails. -/
theorem exists_of_mem_each_items {f : β → Trail α} {xs : List β} {y : α} :
    y ∈ (each f xs).items → ∃ x ∈ xs, y ∈ (f x).items := by
  induction xs with
  | nil =>
      intro hy
      cases hy
  | cons x xs ih =>
      intro hy
      cases hhalt : (f x).halt with
      | some halt =>
          have hitems : (each f (x :: xs)).items = (f x).items := by
            simp [each, andThen, hhalt]
          rw [hitems] at hy
          exact ⟨x, List.mem_cons_self, hy⟩
      | none =>
          rw [each, andThen_items _ _ hhalt] at hy
          rcases List.mem_append.1 hy with hy | hy
          · exact ⟨x, List.mem_cons_self, hy⟩
          · obtain ⟨z, hz, hy⟩ := ih hy
            exact ⟨z, List.mem_cons_of_mem _ hz, hy⟩

/-- Looked up one after another: without a halt, all that was looked for was found. -/
theorem each_ofExcept_items (f : β → Except Fault α) (xs : List β)
    (h : (each (fun x => ofExcept (f x)) xs).halt = none) :
    (each (fun x => ofExcept (f x)) xs).items = xs.filterMap fun x => (f x).toOption := by
  induction xs with
  | nil => rfl
  | cons x xs ih =>
      rw [each, andThen_halt_eq_none] at h
      obtain ⟨a, ha⟩ := (ofExcept_halt_eq_none _).1 h.1
      rw [each, andThen_items _ _ h.1, ih h.2, ha, List.filterMap_cons, ha]
      rfl

/-! ## §4. Going on with what was given. -/

theorem settled_eq_ok_iff (t : Trail α) (items : List α) :
    t.settled = .ok items ↔ t.halt = none ∧ t.items = items := by
  unfold settled
  cases ht : t.halt with
  | none => simp
  | some halt => simp

theorem whenSettled_halt_eq_none (t : Trail β) (next : List β → Trail α) :
    (t.whenSettled next).halt = none ↔ t.halt = none ∧ (next t.items).halt = none := by
  unfold whenSettled settled
  cases ht : t.halt with
  | none => simp
  | some halt => simp [stop]

theorem whenSettled_items (t : Trail β) (next : List β → Trail α) (h : t.halt = none) :
    (t.whenSettled next).items = (next t.items).items := by
  unfold whenSettled settled
  rw [h]

/-! ## §5. Parts that are the same. -/

theorem each_congr {f f' : β → Trail α} {xs : List β} (h : ∀ x ∈ xs, f x = f' x) :
    each f xs = each f' xs := by
  induction xs with
  | nil => rfl
  | cons x xs ih =>
      rw [each, each, h x List.mem_cons_self, ih fun y hy => h y (List.mem_cons_of_mem _ hy)]

theorem whenSettled_congr {t : Trail β} {next next' : List β → Trail α}
    (h : next t.items = next' t.items) : t.whenSettled next = t.whenSettled next' := by
  unfold whenSettled settled
  cases t.halt with
  | none => exact h
  | some halt => rfl

/-! ## §6. Trails put together in other ways. -/

theorem andThen_assoc (t : Trail α) (next next' : Unit → Trail α) :
    (t.andThen next).andThen next' = t.andThen fun _ => (next ()).andThen next' := by
  cases ht : t.halt with
  | some halt =>
      unfold andThen
      simp only [ht]
  | none =>
      unfold andThen
      simp only [ht]
      cases (next ()).halt with
      | some halt => rfl
      | none => simp only [List.append_assoc]

theorem each_done (xs : List β) : each (fun _ => (done : Trail α)) xs = done := by
  induction xs with
  | nil => rfl
  | cons x xs ih =>
      rw [each, ih]
      rfl

theorem each_map {γ : Type} (f : β → Trail α) (h : γ → β) (xs : List γ) :
    each f (xs.map h) = each (fun x => f (h x)) xs := by
  induction xs with
  | nil => rfl
  | cons x xs ih => rw [List.map_cons, each, each, ih]

/-- A halt is all there is of what would be put after it. -/
theorem andThen_of_halt {t : Trail α} (h : t.halt ≠ none) (next : Unit → Trail α) :
    t.andThen next = t := by
  obtain ⟨items, halt⟩ := t
  cases halt with
  | some halt => rfl
  | none => exact absurd rfl h

theorem whenSettled_andThen (t : Trail β) (next : List β → Trail α) (last : Unit → Trail α) :
    (t.whenSettled next).andThen last = t.whenSettled fun items => (next items).andThen last := by
  unfold whenSettled
  cases t.settled with
  | ok items => rfl
  | error halt => rfl

theorem each_give_singleton (h : β → α) (xs : List β) :
    each (fun x => .give [h x]) xs = .give (xs.map h) := by
  induction xs with
  | nil => rfl
  | cons x xs ih =>
      rw [Trail.each, ih]
      rfl

theorem map_each {γ : Type} (f : β → Trail α) (h : α → γ) (xs : List β) :
    (Trail.each f xs).map h = .each (fun x => (f x).map h) xs := by
  induction xs with
  | nil => rfl
  | cons x xs ih =>
      rw [Trail.each, Trail.each, ← ih]
      unfold Trail.andThen Trail.map
      cases (f x).halt with
      | some halt => rfl
      | none => simp

end LabelWalks.Trail
