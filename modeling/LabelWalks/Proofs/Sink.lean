/-
  LabelWalks.Proofs.Sink
  ──────────────────────
  **SINKS THAT TAKE EVERYTHING, AND SINKS THAT DO NOT.**

  A sink that takes everything never becomes another one, so whoever writes to it
  meets no refusal.  Any sink at all only ever adds to what it took: a write that
  is not refused adds the whole text, one that is refused adds the start of it.

    • `Sink.Accepting`, `Accepting.write_eq` — nothing is refused,
    • `written_of_accepted`, `written_of_refused` — what one write can do,
    • `written_of_writeAll`, `exists_prefix_writeAll`, `flush_writeAll_eq` — what many writes do.
-/
import LabelWalks.Sink

namespace LabelWalks.Sink

/-! ## §1. Nothing is refused. -/

/-- The sink takes every text whole and never refuses to keep it. -/
structure Accepting (s : Sink) : Prop where
  takes : ∀ offers taken, s.room offers taken = none
  keeps : ∀ flushes, s.flushRefusal flushes = none

theorem unlimited_accepting : unlimited.Accepting :=
  ⟨fun _ _ => rfl, fun _ => rfl⟩

theorem Accepting.accept {s : Sink} (h : s.Accepting) (text : String) :
    (s.accept text).Accepting :=
  ⟨h.takes, h.keeps⟩

theorem Accepting.write_eq {s : Sink} (h : s.Accepting) (text : String) :
    s.write text = (s.accept text, none) := by
  unfold write
  rw [h.takes]

theorem Accepting.flush_eq {s : Sink} (h : s.Accepting) :
    s.flush = ({ s with flushes := s.flushes + 1 }, none) := by
  unfold flush
  rw [h.keeps]
  rfl

theorem Accepting.writeAll (texts : List String) : ∀ {s : Sink}, s.Accepting →
    ∃ s', s.writeAll texts = (s', none) ∧ s'.Accepting := by
  induction texts with
  | nil =>
      intro s h
      exact ⟨s, rfl, h⟩
  | cons text texts ih =>
      intro s h
      obtain ⟨s', hwrite, h'⟩ := ih (h.accept text)
      refine ⟨s', ?_, h'⟩
      unfold Sink.writeAll
      rw [h.write_eq]
      exact hwrite

/-! ## §2. What one write can do. -/

/-- A text that was not refused was taken whole. -/
theorem written_of_accepted {s : Sink} {text : String} (h : (s.write text).2 = none) :
    (s.write text).1.written = s.written ++ text := by
  unfold write at h ⊢
  cases hroom : s.room s.offers s.taken with
  | none => rfl
  | some n =>
      rw [hroom] at h
      by_cases hn : n < text.length
      · simp only [if_pos hn] at h
        cases h
      · simp only [if_neg hn]
        rfl

/-- Of a text that was refused a start was taken, which may be empty but not the whole. -/
theorem written_of_refused {s : Sink} {text : String} (h : (s.write text).2 ≠ none) :
    ∃ n, n < text.length
      ∧ (s.write text).1.written = s.written ++ String.ofList (text.toList.take n) := by
  unfold write at h ⊢
  cases hroom : s.room s.offers s.taken with
  | none =>
      rw [hroom] at h
      exact absurd rfl h
  | some n =>
      rw [hroom] at h
      by_cases hn : n < text.length
      · simp only [if_pos hn]
        exact ⟨n, hn, rfl⟩
      · simp only [if_neg hn] at h
        exact absurd rfl h

/-- A write is no flush. -/
theorem flush_write_eq {s : Sink} (text : String) :
    (s.write text).1.flush.2 = s.flush.2 := by
  unfold write
  cases s.room s.offers s.taken with
  | none => rfl
  | some n =>
      by_cases hn : n < text.length
      · simp only [if_pos hn]
        rfl
      · simp only [if_neg hn]
        rfl

/-- A flush is no write. -/
theorem written_of_flush {s s' : Sink} {refusal : Option StorageProblem}
    (h : s.flush = (s', refusal)) : s'.written = s.written :=
  congrArg (fun answer => answer.1.written) h.symm

/-! ## §3. Many writes. -/

/-- **Texts that were not refused** were taken whole, one after another. -/
theorem written_of_writeAll {texts : List String} : ∀ {s : Sink},
    (s.writeAll texts).2 = none → (s.writeAll texts).1.written = s.written ++ String.join texts := by
  induction texts with
  | nil =>
      intro s _
      exact String.append_empty.symm
  | cons text texts ih =>
      intro s h
      unfold writeAll at h ⊢
      rcases hwrite : s.write text with ⟨s', refusal⟩
      rw [hwrite] at h
      cases refusal with
      | some problem => cases h
      | none =>
          have hfirst := written_of_accepted (congrArg Prod.snd hwrite)
          rw [hwrite] at hfirst
          show (s'.writeAll texts).1.written = _
          rw [ih h, hfirst, String.join_cons, String.append_assoc]

/-- **Of all texts together a start was taken**, and the whole just when none was refused. -/
theorem exists_prefix_writeAll (texts : List String) : ∀ s : Sink, ∃ text rest,
    (s.writeAll texts).1.written = s.written ++ text ∧ text ++ rest = String.join texts
      ∧ (rest = "" ↔ (s.writeAll texts).2 = none) := by
  induction texts with
  | nil => exact fun s => ⟨"", "", String.append_empty.symm, rfl, iff_of_true rfl rfl⟩
  | cons first texts ih =>
      intro s
      rw [String.join_cons]
      unfold writeAll
      rcases hwrite : s.write first with ⟨s', refusal⟩
      cases refusal with
      | none =>
          have hfirst := written_of_accepted (congrArg Prod.snd hwrite)
          rw [hwrite] at hfirst
          obtain ⟨text, rest, hwritten, happend, hrest⟩ := ih s'
          refine ⟨first ++ text, rest, ?_, ?_, hrest⟩
          · rw [hwritten, hfirst, String.append_assoc]
          · rw [String.append_assoc, happend]
      | some problem =>
          have hrefused : (s.write first).2 ≠ none := by
            rw [hwrite]
            exact Option.some_ne_none problem
          obtain ⟨n, hn, hwritten⟩ := written_of_refused hrefused
          rw [hwrite] at hwritten
          refine ⟨_, String.ofList (first.toList.drop n) ++ String.join texts, hwritten, ?_, ?_⟩
          · rw [← String.append_assoc, ← String.ofList_append, List.take_append_drop,
              String.ofList_toList]
          · -- the text that was refused has more characters than were taken of it
            refine iff_of_false (fun hempty => ?_) (Option.some_ne_none problem)
            have hlength := congrArg String.length hempty
            rw [String.length_append, String.length_ofList, List.length_drop,
              String.length_toList] at hlength
            have hzero : "".length = 0 := rfl
            omega

/-- Many writes are no flush either. -/
theorem flush_writeAll_eq (texts : List String) : ∀ s : Sink,
    (s.writeAll texts).1.flush.2 = s.flush.2 := by
  induction texts with
  | nil => intro s; rfl
  | cons text texts ih =>
      intro s
      have hfirst := flush_write_eq (s := s) text
      unfold writeAll
      rcases hwrite : s.write text with ⟨s', refusal⟩
      rw [hwrite] at hfirst
      cases refusal with
      | some problem => exact hfirst
      | none => exact (ih s').trans hfirst

end LabelWalks.Sink
