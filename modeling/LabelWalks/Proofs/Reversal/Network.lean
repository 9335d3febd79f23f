/-
  LabelWalks.Proofs.Reversal.Network
  ──────────────────────────────────
  **BOTH ENDS OF AN EDGE KNOW IT.**

  A network keeps an entry for an edge at its source and one at its target, in two
  maps that know nothing of each other.  Whatever was called to build it, the two
  agree: between two nodes the same labels are kept at both ends, in the same
  order, and loops and parallel edges are no exception.  So following the entries
  the other way round is following another direction of the same network.

    • `Direction.reverse`, `Built` — the other way round, and what can be called,
    • `edgesOut_connect`, `Built.agrees` — what one edge adds, and what all calls keep,
    • `Built.mirrored` — the views under a direction and under its reverse.
-/
import LabelWalks.Proofs.Reversal.Walk

namespace LabelWalks

/-- Every entry the other way round. -/
def Direction.reverse : Direction → Direction
  | .outgoing => .incoming
  | .incoming => .outgoing
  | .both => .both

namespace Network

/-! ## §1. What can be called. -/

/-- The network is what some calls have built, in some order. -/
inductive Built : Network → Prop where
  | empty : Built empty
  | withDirection {n : Network} (h : Built n) (d : Direction) : Built (n.withDirection d)
  | add {n : Network} (h : Built n) (v : NodeId) (label : Label) : Built (n.add v label)
  | connect {n : Network} (h : Built n) (v w : NodeId) (label : Label) : Built (n.connect v w label)
  | load {n : Network} (h : Built n) (records : List EdgeRecord) : Built (n.load records)

/-! ## §2. One edge. -/

/-- The labels of the entries that lead to a node. -/
def labelsTo (w : NodeId) (es : List Entry) : List Label :=
  (es.filter fun e => e.target = w).map Entry.label

theorem labelsTo_append (w : NodeId) (es es' : List Entry) :
    labelsTo w (es ++ es') = labelsTo w es ++ labelsTo w es' := by
  unfold labelsTo
  rw [List.filter_append, List.map_append]

/-- An entry is added at one node, behind those that are there. -/
theorem toList_getD_pushEntry (entries : Std.ExtTreeMap NodeId (Array Entry)) (v u : NodeId)
    (e : Entry) :
    ((pushEntry entries v e).getD u #[]).toList =
      (entries.getD u #[]).toList ++ if v = u then [e] else [] := by
  unfold pushEntry
  rw [Std.ExtTreeMap.getD_eq_getD_getElem?, Std.ExtTreeMap.getElem?_alter,
    Std.ExtTreeMap.getD_eq_getD_getElem?]
  by_cases hv : v = u
  · rw [if_pos hv, if_pos (Std.LawfulEqCmp.compare_eq_iff_eq.2 hv), hv]
    simp
  · rw [if_neg hv, if_neg fun heq => hv (Std.LawfulEqCmp.compare_eq_iff_eq.1 heq)]
    simp

/-- One more edge at its source. -/
theorem edgesOut_connect (n : Network) (source target : NodeId) (label : Label) (v : NodeId) :
    (n.connect source target label).edgesOut v =
      n.edgesOut v ++ if source = v then [⟨target, label⟩] else [] :=
  toList_getD_pushEntry _ _ _ _

/-- One more edge at its target. -/
theorem edgesIn_connect (n : Network) (source target : NodeId) (label : Label) (v : NodeId) :
    (n.connect source target label).edgesIn v =
      n.edgesIn v ++ if target = v then [⟨source, label⟩] else [] :=
  toList_getD_pushEntry _ _ _ _

/-! ## §3. All calls. -/

/-- From one node to another, the labels at the source are the labels at the target. -/
def Agrees (n : Network) : Prop :=
  ∀ v w, labelsTo w (n.edgesOut v) = labelsTo v (n.edgesIn w)

/-- **One more edge** is known at both of its ends. -/
theorem Agrees.connect {n : Network} (h : n.Agrees) (source target : NodeId) (label : Label) :
    (n.connect source target label).Agrees := by
  intro v w
  rw [edgesOut_connect, edgesIn_connect, labelsTo_append, labelsTo_append, h v w]
  refine congrArg (labelsTo v (n.edgesIn w) ++ ·) ?_
  by_cases hsource : source = v <;> by_cases htarget : target = w <;>
    simp [labelsTo, hsource, htarget]

theorem Agrees.load (records : List EdgeRecord) :
    ∀ {n : Network}, n.Agrees → (n.load records).Agrees := by
  induction records with
  | nil => intro n h; exact h
  | cons r records ih =>
      intro n h
      show ((loadOne n r).load records).Agrees
      apply ih
      -- the labels of nodes have no part in the entries
      have hlabels : ∀ labels, ({ n with labels } : Network).Agrees := fun _ => h
      exact (hlabels _).connect r.source r.target r.label

/-- **Whatever was called**, both ends of an edge know it. -/
theorem Built.agrees {n : Network} (h : n.Built) : n.Agrees := by
  induction h with
  | empty =>
      intro v w
      show labelsTo w ((∅ : Std.ExtTreeMap NodeId (Array Entry)).getD v #[]).toList
        = labelsTo v ((∅ : Std.ExtTreeMap NodeId (Array Entry)).getD w #[]).toList
      simp [labelsTo]
  | withDirection h d ih => exact ih
  | add h v label ih => exact ih
  | connect h v w label ih => exact ih.connect v w label
  | load h records ih => exact ih.load records

/-! ## §4. Two views. -/

/-- The labels of the entries from one node to another, under the direction. -/
theorem labelsBetween_view (n : Network) (v w : NodeId) :
    n.view.labelsBetween v w = (labelsTo w (n.edges v)).map some := by
  show ((((n.edges v).map fun e => (e.target, some e.label)).filter _).map Prod.snd) = _
  unfold labelsTo
  rw [List.filter_map, List.map_map, List.map_map]
  rfl

/-- **Under the reverse of its direction** a network is the mirror of itself. -/
theorem Built.mirrored {n : Network} (h : n.Built) (d : Direction) :
    Mirrored (n.withDirection d).view (n.withDirection d.reverse).view where
  nodeIds _ := Iff.rfl
  labelOf _ := rfl
  listed := listed_view _
  crossed v w := by
    rw [labelsBetween_view, labelsBetween_view]
    refine List.Perm.map _ ?_
    cases d with
    | outgoing =>
        show (labelsTo v (n.edgesIn w)).Perm (labelsTo w (n.edgesOut v))
        rw [h.agrees v w]
    | incoming =>
        show (labelsTo v (n.edgesOut w)).Perm (labelsTo w (n.edgesIn v))
        rw [h.agrees w v]
    | both =>
        -- what goes out at one end comes in at the other, so the two parts change places
        show (labelsTo v (n.edgesOut w ++ n.edgesIn w)).Perm
          (labelsTo w (n.edgesOut v ++ n.edgesIn v))
        rw [labelsTo_append, labelsTo_append, h.agrees v w, h.agrees w v]
        exact List.perm_append_comm

/-- The two edges of `twins` were loaded. -/
theorem built_twins : twins.Built :=
  Built.empty.load _

end Network

end LabelWalks
