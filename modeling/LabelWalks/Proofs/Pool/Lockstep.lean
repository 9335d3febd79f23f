/-
  LabelWalks.Proofs.Pool.Lockstep
  ───────────────────────────────
  **TWO RUNS UNDER ONE SCHEDULE.**

  A turn of the foreman does not look at what the workers share.  When the turns
  of the workers do not tell two shared states apart either, two pools that differ
  in these states only go on differing in nothing else, whoever takes the turns.

    • `Craft.Blind` — the workers cannot tell related states apart,
    • `Pool.Alike`, `alike_step`, `alike_run` — one turn, and all turns,
    • `InTurn.preserves` — what each call keeps, all calls keep.
-/
import LabelWalks.Pool

namespace LabelWalks

variable {κ τ σ ο : Type} {r : σ → σ → Prop}

/-! ## §1. One turn. -/

/-- The workers do the same whichever of two related states they share, and leave related
states. -/
def Craft.Blind (c : Craft κ τ σ ο) (r : σ → σ → Prop) : Prop :=
  ∀ key task s s', r s s' → Option.Rel (fun x y => r x.1 y.1 ∧ x.2 = y.2)
    (c.turn key task s) (c.turn key task s')

/-- The pools differ in nothing but what is shared, and that is related. -/
structure Pool.Alike (r : σ → σ → Prop) (p q : Pool κ τ σ ο) : Prop where
  shared : r p.shared q.shared
  rest : q = { p with shared := q.shared }

theorem alike_of_shared {s s' : σ} (h : r s s') (permits : Permits) (stage : Stage κ τ ο)
    (pending : List (Worker κ τ ο)) (booked : List (κ × ο)) :
    Pool.Alike r ⟨s, permits, stage, pending, booked⟩ ⟨s', permits, stage, pending, booked⟩ :=
  ⟨h, rfl⟩

variable {c : Craft κ τ σ ο} {p q : Pool κ τ σ ο}

/-- The foreman does the same in both pools. -/
theorem alike_foreman? (h : p.Alike r q) :
    Option.Rel (Pool.Alike r) (c.foreman? p) (c.foreman? q) := by
  obtain ⟨s, permits, stage, pending, booked⟩ := p
  obtain ⟨hshared, hrest⟩ := h
  rw [hrest]
  generalize q.shared = s' at hshared
  unfold Craft.foreman?
  cases stage with
  | next jobs =>
      cases jobs with
      | nil =>
          cases pending with
          | nil => exact .none
          | cons w pending =>
              cases houtcome : w.outcome? with
              | none => simp only [houtcome]; exact .none
              | some outcome => simp only [houtcome]; exact .some (alike_of_shared hshared ..)
      | cons job jobs =>
          dsimp only
          cases permits.acquire? with
          | none => exact .none
          | some permits' => cases c.reaps <;> exact .some (alike_of_shared hshared ..)
  | hiring job permit jobs unseen found =>
      cases unseen with
      | nil => cases found <;> exact .some (alike_of_shared hshared ..)
      | cons w unseen =>
          cases houtcome : w.outcome? <;> simp only [houtcome] <;>
            exact .some (alike_of_shared hshared ..)

variable [DecidableEq κ]

/-- A worker does the same in both pools, as it cannot tell them apart. -/
theorem alike_worker? (hblind : c.Blind r) (h : p.Alike r q) (key : κ) :
    Option.Rel (Pool.Alike r) (c.worker? p key) (c.worker? q key) := by
  obtain ⟨s, permits, stage, pending, booked⟩ := p
  obtain ⟨hshared, hrest⟩ := h
  rw [hrest]
  generalize q.shared = s' at hshared
  show Option.Rel _
    (((stage.unseen ++ pending).find? fun w => w.key = key).bind fun w =>
      (c.advance? w s permits).bind fun _ => _)
    (((stage.unseen ++ pending).find? fun w => w.key = key).bind fun w =>
      (c.advance? w s' permits).bind fun _ => _)
  cases (stage.unseen ++ pending).find? fun w => w.key = key with
  | none => exact .none
  | some w =>
      obtain ⟨label, permit, phase⟩ := w
      cases phase with
      | busy task =>
          have hturn := hblind label task s s' hshared
          simp only [Option.bind_some, Craft.advance?]
          generalize c.turn label task s = next, c.turn label task s' = next' at hturn
          cases hturn with
          | none => exact .none
          | some hnext =>
              obtain ⟨hshared', hsame⟩ := hnext
              simp only [Option.map_some, Option.bind_some, hsame]
              exact .some (alike_of_shared hshared' ..)
      | leaving outcome | gone outcome => exact .some (alike_of_shared hshared ..)
      | ended outcome => exact .none

/-! ## §2. All turns. -/

/-- **One turn**, whoever takes it, keeps two pools alike. -/
theorem alike_step (hblind : c.Blind r) (h : p.Alike r q) (a : Actor κ) :
    (c.step p a).Alike r (c.step q a) := by
  have hrel : Option.Rel (Pool.Alike r) (c.step? p a) (c.step? q a) := by
    cases a with
    | foreman => exact alike_foreman? h
    | worker key => exact alike_worker? hblind h key
  unfold Craft.step
  generalize c.step? p a = next, c.step? q a = next' at hrel
  cases hrel with
  | none => exact h
  | some halike => exact halike

/-- **Two runs under one schedule** stay alike. -/
theorem alike_run (hblind : c.Blind r) (h : p.Alike r q) (turns : List (Actor κ)) :
    (c.run p turns).Alike r (c.run q turns) := by
  induction turns generalizing p q with
  | nil => exact h
  | cons a turns ih => exact ih (alike_step hblind h a)

omit [DecidableEq κ] in
theorem Pool.Alike.booked_eq (h : p.Alike r q) : q.booked = p.booked := by
  rw [h.rest]

omit [DecidableEq κ] in
theorem Pool.Alike.over (h : p.Alike r q) (hover : p.Over) : q.Over := by
  rw [h.rest]
  exact hover

/-! ## §3. One run after another. -/

/-- **What each call keeps**, any calls one after another keep. -/
theorem InTurn.preserves {α : Type} {does : σ → α → σ → Prop} {I : σ → Prop}
    (hkeeps : ∀ s x s', does s x s' → I s → I s') {s last : σ} {xs : List α}
    (h : InTurn does s xs last) : I s → I last := by
  induction h with
  | done => exact id
  | call hfirst _ ih => exact fun hs => ih (hkeeps _ _ _ hfirst hs)

/-- What holds of each call by itself, whatever it found, holds of all of them. -/
theorem InTurn.forall_mem {α : Type} {does : σ → α → σ → Prop} {P : α → Prop}
    (hdoes : ∀ s x s', does s x s' → P x) {s last : σ} {xs : List α}
    (h : InTurn does s xs last) : ∀ x ∈ xs, P x := by
  induction h with
  | done => exact fun x hx => absurd hx List.not_mem_nil
  | call hfirst _ ih => exact List.forall_mem_cons.2 ⟨hdoes _ _ _ hfirst, ih⟩

end LabelWalks
