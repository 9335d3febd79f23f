/-
  LabelWalks.Proofs.Splice
  ────────────────────────
  **A SUFFIX BEHIND A PATH.**

  A suffix is pairs of an edge and a node token, so a path with a suffix behind it is
  a path again, and it is the one that takes the pairs hop by hop.  What a token stands
  for is told by its position alone, and behind a path comes the position of an edge:
  the labels of the whole are those of the path and then those of the suffix, as the
  record of an indexed node has them.

    • `splice_eq_walkOn`, `splice_append` — hop by hop, and one suffix after another,
    • `renderTokens_append` — tokens that are cut in two,
    • `render_of_splice`, `exists_parts_of_record` — a line, and where the index spells it,
    • `Making`, `Making.path_eq_ok_iff` — all ways to come by a path,
    • `splicing_is_compositional` — all of this.
-/
import LabelWalks.Proofs.Reading

namespace LabelWalks

/-! ## §1. Hop by hop. -/

/-- The pairs of tokens of a suffix; a last token without a partner makes none. -/
def hopsOf : Suffix → List Hop
  | edge :: node :: rest => ⟨edge, node⟩ :: hopsOf rest
  | _ => []

/-- **The pairs of a suffix** are all its tokens. -/
theorem flatMap_tokens_hopsOf : ∀ {s : Suffix}, s.length % 2 = 0 →
    (hopsOf s).flatMap Hop.tokens = s
  | [], _ => rfl
  | [_], heven => by cases heven
  | edge :: node :: rest, heven => by
      have hrest : rest.length % 2 = 0 := by
        simp only [List.length_cons] at heven
        omega
      show [edge, node] ++ (hopsOf rest).flatMap Hop.tokens = edge :: node :: rest
      rw [flatMap_tokens_hopsOf hrest]
      rfl

namespace MetaPath

/-- The path with hops appended in turn. -/
def walkOn (p : MetaPath) (hops : List Hop) : MetaPath :=
  hops.foldl (fun q hop => q.extend hop.edge hop.node) p

theorem tokens_walkOn (hops : List Hop) : ∀ p : MetaPath,
    (p.walkOn hops).tokens = p.tokens ++ hops.flatMap Hop.tokens := by
  induction hops with
  | nil =>
      intro p
      exact (List.append_nil _).symm
  | cons hop hops ih =>
      intro p
      show ((p.extend hop.edge hop.node).walkOn hops).tokens = _
      rw [ih, tokens_extend, List.flatMap_cons, List.append_assoc]
      rfl

variable {p q : MetaPath} {s t : Suffix}

/-- **A splice is hop by hop.** -/
theorem splice_eq_walkOn (heven : s.length % 2 = 0) : p.splice s = .ok (p.walkOn (hopsOf s)) := by
  rw [splice_eq_ok_iff, tokens_walkOn, flatMap_tokens_hopsOf heven]

theorem splice_of_odd (hodd : s.length % 2 = 1) :
    p.splice s = .error (.configuration (.suffixCount s.length)) := by
  unfold splice
  rw [dif_neg (by omega)]

/-- **One suffix after another** is both of them at once. -/
theorem splice_append (hs : s.length % 2 = 0) (ht : t.length % 2 = 0) :
    p.splice (s ++ t) = p.splice s >>= fun q => q.splice t := by
  obtain ⟨q, hq⟩ := p.exists_splice_iff.2 hs
  obtain ⟨r, hr⟩ := q.exists_splice_iff.2 ht
  rw [hq]
  show p.splice (s ++ t) = q.splice t
  rw [hr, splice_eq_ok_iff, splice_eq_ok_iff.1 hr, splice_eq_ok_iff.1 hq, List.append_assoc]

theorem hops_of_splice (h : p.splice s = .ok q) : q.hops = p.hops + s.length / 2 := by
  have hp := p.length_tokens
  have hq := q.length_tokens
  rw [splice_eq_ok_iff.1 h, List.length_append] at hq
  omega

theorem first_of_splice (h : p.splice s = .ok q) : q.first = p.first := by
  unfold first
  simp only [splice_eq_ok_iff.1 h, List.head_append_of_ne_nil p.tokens_ne_nil]

end MetaPath

/-! ## §2. Tokens that are cut in two. -/

variable {m : Mapping}

/-- **What a token stands for** is told by its position. -/
theorem rawLabels_eq_mapM (tokens : List LabelIndex) : ∀ k : Nat,
    rawLabels m (.ofPosition k) tokens =
      (tokens.zipIdx k).mapM fun (token, i) => (Place.ofPosition i).label m token := by
  induction tokens with
  | nil =>
      intro k
      rfl
  | cons token tokens ih =>
      intro k
      rw [List.zipIdx_cons, List.mapM_cons, ← ih, ← Place.next_ofPosition]
      rfl

/-- **The labels of two runs of tokens**: the second run is at the position behind the first. -/
theorem rawLabels_append (s t : List LabelIndex) (k : Nat) :
    rawLabels m (.ofPosition k) (s ++ t) = do
      let labels ← rawLabels m (.ofPosition k) s
      let more ← rawLabels m (.ofPosition (k + s.length)) t
      return labels ++ more := by
  simp only [rawLabels_eq_mapM, List.zipIdx_append, List.mapM_append]

/-- **Two runs of tokens are rendered** with a bar between them, wherever the tokens are cut. -/
theorem renderTokens_append {s t : List LabelIndex} (hs : s ≠ []) (ht : t ≠ []) (k : Nat) :
    renderTokens m (.ofPosition k) (s ++ t) = do
      let text ← renderTokens m (.ofPosition k) s
      let more ← renderTokens m (.ofPosition (k + s.length)) t
      return text ++ "|" ++ more := by
  unfold renderTokens
  rw [rawLabels_append]
  cases hlabels : rawLabels m (.ofPosition k) s with
  | error fault => rfl
  | ok labels =>
      cases hmore : rawLabels m (.ofPosition (k + s.length)) t with
      | error fault => rfl
      | ok more =>
          have hne : labels ≠ [] := by
            rw [← List.length_pos_iff, length_of_rawLabels hlabels]
            exact List.length_pos_iff.2 hs
          have hne' : more ≠ [] := by
            rw [← List.length_pos_iff, length_of_rawLabels hmore]
            exact List.length_pos_iff.2 ht
          show Except.ok ("|".intercalate ((labels ++ more).map fun label => toString label.toNat))
            = _
          rw [List.map_append, String.intercalate_append_of_ne_nil]
          · rfl
          · rwa [Ne, List.map_eq_nil_iff]
          · rwa [Ne, List.map_eq_nil_iff]

/-- **The line of a path with a suffix behind it**: that of the path, a bar and the suffix. -/
theorem MetaPath.render_of_splice {p q : MetaPath} {s : Suffix} (hne : s ≠ [])
    (h : p.splice s = .ok q) :
    q.render m = do
      let walked ← p.render m
      let suffix ← renderTokens m .edge s
      return walked ++ "|" ++ suffix := by
  -- an odd number of tokens stands before the suffix
  have hplace : Place.ofPosition (0 + p.tokens.length) = .edge := by
    unfold Place.ofPosition
    rw [Nat.zero_add, if_neg (by rw [p.odd]; decide)]
  unfold render
  rw [splice_eq_ok_iff.1 h]
  show renderTokens m (.ofPosition 0) (p.tokens ++ s) = _
  rw [renderTokens_append p.tokens_ne_nil hne, hplace]
  rfl

/-- A path with a suffix behind it has a line just when both of them can be rendered. -/
theorem MetaPath.exists_render_of_splice_iff {p q : MetaPath} {s : Suffix} (hne : s ≠ [])
    (h : p.splice s = .ok q) :
    (∃ line, q.render m = .ok line) ↔
      (∃ walked, p.render m = .ok walked) ∧ ∃ suffix, renderTokens m .edge s = .ok suffix := by
  simp only [render_of_splice hne h, bind_eq_ok_iff, pure_eq_ok_iff]
  constructor
  · intro h
    obtain ⟨line, walked, hwalked, suffix, hsuffix, -⟩ := h
    exact ⟨⟨walked, hwalked⟩, suffix, hsuffix⟩
  · intro h
    obtain ⟨⟨walked, hwalked⟩, suffix, hsuffix⟩ := h
    exact ⟨_, walked, hwalked, suffix, hsuffix, rfl⟩

/-! ## §3. How the index spells a suffix. -/

/-- **A record has a part for each suffix of its map**: the suffix, as it is rendered behind a
path, an equals sign, the end nodes and a dash. -/
theorem HubIndex.exists_parts_of_record {v : NodeId} {map : SuffixMap} {s : Suffix}
    {ends : NodeSet} {text : String} (hrow : map[s]? = some ends)
    (h : record m v map = .ok text) :
    ∃ (rows rows' : List SuffixEnds) (before after : List String) (suffix : String),
      map.toList = rows ++ (s, ends) :: rows' ∧ rows.mapM (part m) = .ok before
        ∧ rows'.mapM (part m) = .ok after ∧ renderTokens m .edge s = .ok suffix
        ∧ text = toString v.toNat ++ ":" ++ String.join before
          ++ (suffix ++ "=" ++ ",".intercalate (ends.toList.map fun w => toString w.toNat) ++ "-")
          ++ String.join after ++ "\n" := by
  have hmem : (s, ends) ∈ map.toList := Std.ExtTreeMap.mem_toList_iff_getElem?_eq_some.2 hrow
  obtain ⟨rows, rows', hrows⟩ := List.append_of_mem hmem
  simp only [record, hrows, List.mapM_append, List.mapM_cons, part, bind_eq_ok_iff,
    pure_eq_ok_iff] at h
  obtain ⟨_, ⟨before, hbefore, _, ⟨_, ⟨suffix, hsuffix, rfl⟩, after, hafter, rfl⟩, rfl⟩, rfl⟩ := h
  refine ⟨rows, rows', before, after, suffix, hrows, hbefore, hafter, hsuffix, ?_⟩
  simp only [String.join_append, String.join_cons, String.append_assoc]

/-! ## §4. All ways to come by a path. -/

namespace MetaPath

/-- How a path is made: from one node or from tokens, and then by hops and suffixes. -/
inductive Making where
  | single (node : LabelIndex)
  | ofTokens (tokens : List LabelIndex)
  | extend (making : Making) (edge node : LabelIndex)
  | splice (making : Making) (suffix : Suffix)

namespace Making

/-- The path that is made, or the fault of the first call that is refused. -/
def path : Making → Except Fault MetaPath
  | single node => .ok (.single node)
  | ofTokens tokens => MetaPath.ofTokens tokens
  | extend making edge node => making.path >>= fun p => .ok (p.extend edge node)
  | splice making suffix => making.path >>= fun p => p.splice suffix

/-- All tokens that the calls were given, in order. -/
def tokens : Making → List LabelIndex
  | single node => [node]
  | ofTokens tokens => tokens
  | extend making edge node => making.tokens ++ [edge, node]
  | splice making suffix => making.tokens ++ suffix

/-- No call is given the wrong number of tokens. -/
def Accepted : Making → Prop
  | single _ => True
  | ofTokens tokens => tokens.length % 2 = 1
  | extend making _ _ => making.Accepted
  | splice making suffix => making.Accepted ∧ suffix.length % 2 = 0

/-- **The tokens of all calls together** are odd in number when each call has the right number. -/
theorem odd_tokens : ∀ {making : Making}, making.Accepted → making.tokens.length % 2 = 1
  | single _, _ => rfl
  | ofTokens _, h => h
  | extend making edge node, h => by
      have := @odd_tokens making h
      simp only [tokens, List.length_append, List.length_cons, List.length_nil]
      omega
  | splice making suffix, h => by
      have := odd_tokens h.1
      have := h.2
      simp only [tokens, List.length_append]
      omega

/-- **What is made**: the path with the tokens of all calls, when none of them is refused. -/
theorem path_eq_ok_iff {making : Making} : ∀ {p : MetaPath},
    making.path = .ok p ↔ making.Accepted ∧ p.tokens = making.tokens := by
  induction making with
  | single node =>
      intro p
      show Except.ok (MetaPath.single node) = .ok p ↔ True ∧ p.tokens = [node]
      constructor
      · intro h
        injection h with h
        exact ⟨trivial, congrArg MetaPath.tokens h.symm⟩
      · intro h
        exact congrArg Except.ok (MetaPath.ext h.2.symm)
  | ofTokens tokens =>
      intro p
      show MetaPath.ofTokens tokens = .ok p ↔ tokens.length % 2 = 1 ∧ p.tokens = tokens
      rw [ofTokens_eq_ok_iff]
      constructor
      · intro h
        exact ⟨h ▸ p.odd, h⟩
      · exact And.right
  | extend making edge node ih =>
      intro p
      simp only [path, bind_eq_ok_iff, ih]
      constructor
      · intro h
        obtain ⟨q, ⟨haccepted, hq⟩, hp⟩ := h
        injection hp with hp
        refine ⟨haccepted, ?_⟩
        rw [← hp, tokens_extend, hq]
        rfl
      · -- the path before this hop has the tokens of the calls before
        intro h
        obtain ⟨haccepted, hp⟩ := h
        exact ⟨⟨making.tokens, odd_tokens haccepted⟩, ⟨haccepted, rfl⟩,
          congrArg Except.ok (MetaPath.ext hp.symm)⟩
  | splice making suffix ih =>
      intro p
      simp only [path, bind_eq_ok_iff, ih]
      constructor
      · intro h
        obtain ⟨q, ⟨haccepted, hq⟩, hp⟩ := h
        refine ⟨⟨haccepted, exists_splice_iff.1 ⟨p, hp⟩⟩, ?_⟩
        rw [splice_eq_ok_iff.1 hp, hq]
        rfl
      · intro h
        obtain ⟨⟨haccepted, -⟩, hp⟩ := h
        exact ⟨⟨making.tokens, odd_tokens haccepted⟩, ⟨haccepted, rfl⟩, splice_eq_ok_iff.2 hp⟩

theorem exists_path_iff {making : Making} : (∃ p, making.path = .ok p) ↔ making.Accepted := by
  simp only [path_eq_ok_iff]
  constructor
  · intro h
    obtain ⟨p, haccepted, -⟩ := h
    exact haccepted
  · intro h
    exact ⟨⟨making.tokens, odd_tokens h⟩, h, rfl⟩

end Making

/-! ## §5. Splicing and rendering. -/

/-- What a suffix behind a path comes to: the tokens, the hops, the line and what the index has
of it. -/
structure Compositional (m : Mapping) (p : MetaPath) : Prop where
  /-- The pairs of a suffix are appended hop by hop. -/
  stepwise : ∀ s, s.length % 2 = 0 → p.splice s = .ok (p.walkOn (hopsOf s))
  pairs : ∀ s, s.length % 2 = 0 → (hopsOf s).flatMap Hop.tokens = s
  /-- A number of tokens that makes no pairs is refused. -/
  refused : ∀ s, s.length % 2 = 1 → p.splice s = .error (.configuration (.suffixCount s.length))
  /-- Two suffixes at once or in turn. -/
  append : ∀ s t, s.length % 2 = 0 → t.length % 2 = 0 →
    p.splice (s ++ t) = p.splice s >>= fun q => q.splice t
  hops : ∀ s q, p.splice s = .ok q → q.hops = p.hops + s.length / 2
  first : ∀ s q, p.splice s = .ok q → q.first = p.first
  /-- The line of the whole, or the first fault of the two. -/
  render : ∀ s q, s ≠ [] → p.splice s = .ok q → q.render m = do
    let walked ← p.render m
    let suffix ← renderTokens m .edge s
    return walked ++ "|" ++ suffix
  rendered : ∀ s q, s ≠ [] → p.splice s = .ok q →
    ((∃ line, q.render m = .ok line) ↔
      (∃ walked, p.render m = .ok walked) ∧ ∃ suffix, renderTokens m .edge s = .ok suffix)
  /-- A record has the suffix behind its colon or the part of another suffix, spelled as in the
  line. -/
  recorded : ∀ s q v map ends text, s ≠ [] → p.splice s = .ok q → map[s]? = some ends →
    HubIndex.record m v map = .ok text →
    ∃ (rows rows' : List SuffixEnds) (before after : List String) (suffix : String),
      map.toList = rows ++ (s, ends) :: rows' ∧ rows.mapM (HubIndex.part m) = .ok before
        ∧ rows'.mapM (HubIndex.part m) = .ok after
        ∧ text = toString v.toNat ++ ":" ++ String.join before
          ++ (suffix ++ "=" ++ ",".intercalate (ends.toList.map fun w => toString w.toNat) ++ "-")
          ++ String.join after ++ "\n"
        ∧ q.render m = do
          let walked ← p.render m
          return walked ++ "|" ++ suffix

end MetaPath

open MetaPath

/-- **Splicing and rendering commute.**  A suffix behind a path is its pairs hop by hop, two
suffixes are one, hops add up and the first node is kept.  The line of the whole is that of the
path, a bar and the suffix as the record of an indexed node spells it.  Whatever calls a path is
made with, none of them is refused just when each is given the right number of tokens, and then
the path has all these tokens, an odd number. -/
theorem splicing_is_compositional (m : Mapping) :
    (∀ p, Compositional m p)
      ∧ ∀ making : Making, ((∃ p, making.path = .ok p) ↔ making.Accepted)
        ∧ ∀ p, making.path = .ok p →
          p.tokens = making.tokens ∧ making.tokens.length % 2 = 1 := by
  refine ⟨fun p => ?_, fun making => ⟨Making.exists_path_iff, fun p h => ?_⟩⟩
  · exact {
      stepwise := fun s => splice_eq_walkOn
      pairs := fun s => flatMap_tokens_hopsOf
      refused := fun s => splice_of_odd
      append := fun s t => splice_append
      hops := fun s q => hops_of_splice
      first := fun s q => first_of_splice
      render := fun s q => render_of_splice
      rendered := fun s q => exists_render_of_splice_iff
      recorded := by
        intro s q v map ends text hne hq hrow h
        obtain ⟨rows, rows', before, after, suffix, hrows, hbefore, hafter, hsuffix, htext⟩ :=
          HubIndex.exists_parts_of_record hrow h
        refine ⟨rows, rows', before, after, suffix, hrows, hbefore, hafter, htext, ?_⟩
        rw [render_of_splice hne hq, hsuffix]
        rfl }
  · obtain ⟨haccepted, htokens⟩ := Making.path_eq_ok_iff.1 h
    exact ⟨htokens, Making.odd_tokens haccepted⟩

/-- Over an edge of `twins` to node 1, and back and forth behind it in two suffixes, the first
of which the record of node 1 spells; one token more is refused. -/
theorem splicing_is_compositional_twins :
    (∃ q, (⟨[1, 0, 0], rfl⟩ : MetaPath).splice [0, 1] = .ok q ∧ q.hops = 2
      ∧ q.render twinLabels = .ok "2|7|1|7|2"
      ∧ (⟨[1, 0, 0], rfl⟩ : MetaPath).splice ([0, 1] ++ [0, 0]) = q.splice [0, 0]
      ∧ ∃ before after suffix : String,
          "1:7|2=2-\n" = before ++ (suffix ++ "=" ++ "2" ++ "-") ++ after
        ∧ q.render twinLabels = .ok ("2|7|1" ++ "|" ++ suffix))
      ∧ (⟨[1, 0, 0], rfl⟩ : MetaPath).splice [0] = .error (.configuration (.suffixCount 1))
      ∧ ¬ ∃ p, (Making.splice (.extend (.single 1) 0 0) [0]).path = .ok p := by
  obtain ⟨hpath, hmaking⟩ := splicing_is_compositional twinLabels
  have h := hpath ⟨[1, 0, 0], rfl⟩
  have hsplice := h.stepwise [0, 1] rfl
  have hwalked : (⟨[1, 0, 0], rfl⟩ : MetaPath).render twinLabels = .ok "2|7|1" := by cbv
  have hsuffix : renderTokens twinLabels .edge [0, 1] = .ok "7|2" := by cbv
  have hrecord : HubIndex.record twinLabels 1
      ((∅ : SuffixMap).insert [0, 1] ((∅ : NodeSet).insert 2)) = .ok "1:7|2=2-\n" := by cbv
  have hends : ",".intercalate (((∅ : NodeSet).insert 2).toList.map fun w => toString w.toNat)
      = "2" := by cbv
  refine ⟨⟨_, hsplice, h.hops _ _ hsplice, ?_, ?_, ?_⟩, h.refused [0] rfl, ?_⟩
  · rw [h.render _ _ (List.cons_ne_nil _ _) hsplice, hwalked, hsuffix]
    rfl
  · rw [h.append [0, 1] [0, 0] rfl rfl, hsplice]
    rfl
  · obtain ⟨-, -, before, after, suffix, -, -, -, htext, hline⟩ := h.recorded _ _ _ _ _ _
      (List.cons_ne_nil _ _) hsplice Std.ExtTreeMap.getElem?_insert_self hrecord
    rw [hwalked] at hline
    rw [hends, String.append_assoc] at htext
    exact ⟨_, _, suffix, htext, hline⟩
  · rw [(hmaking _).1]
    exact fun haccepted => absurd haccepted.2 (by decide)

end LabelWalks
