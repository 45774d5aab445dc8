import Graft.Proofs.Grammar.Regular
import Graft.Proofs.Recipe.Compiled

/-! # Patches of context lines

In a patch of context lines the replacement is the pattern (`Patch.ReadOf.sides_eq`).  If there are
no comments, package clause or imports in it, its nodes are regular, no place is recorded twice, and
every place stands for itself (`Patch.IsContext.isPlain`).
-/

namespace Graft

/-! ### Words without comments -/

theorem CommentGroup.Groups.eq_nil {gs : List CommentGroup} (h : Groups [] gs) : gs = [] := by
  generalize hcs : ([] : List Comment) = cs at h
  cases h with
  | nil => rfl
  | cons _ hne _ => exact absurd (List.append_eq_nil_iff.mp hcs.symm).1 hne

namespace Run

variable {groups : List CommentGroup} {c c' : Cursor} {ws : List Word}

/-- The end of a text is no word. -/
theorem ne_eof (h : Run groups c ws c') (he : Ended c.rest) :
    ∀ l ∈ Word.lexemes ws, l.token ≠ .eof := by
  induction h with
  | refl => nofun
  | lexeme _ ih => exact List.forall_mem_cons.mpr ⟨he.1, ih he.2⟩
  | doc _ _ _ ih => exact ih he

/-- Without comments, words are lexemes in order. -/
theorem arePlain (h : Run [] c ws c') (he : Ended c.rest)
    (hpairwise : c.rest.Pairwise fun l m => m.token ≠ .eof → l.pos < m.pos)
    (hvalid : ∀ l ∈ c.rest, l.pos.isValid = true) : Word.ArePlain ws := by
  have hdocs (g : CommentGroup) : .doc g ∉ ws := fun hg => List.not_mem_nil (h.mem_groups hg)
  have hpositions {vs : List Word} (hvs : ∀ g, .doc g ∉ vs) :
      Word.positionsAll vs = (Word.lexemes vs).map (·.pos) := by
    induction vs with
    | nil => rfl
    | cons v vs ih =>
      have ih := ih fun g hg => hvs g (List.mem_cons_of_mem _ hg)
      cases v with
      | lexeme l => rw [Word.positionsAll_lexeme, ih, Word.lexemes_lexeme, List.map_cons]
      | doc g => exact absurd List.mem_cons_self (hvs g)
  rw [h.rest_eq] at hpairwise hvalid
  refine ⟨hdocs, fun w hw => ?_, ?_⟩
  · cases w with
    | lexeme l => exact hvalid l (List.mem_append_left _ (Word.mem_lexemes.mpr hw))
    | doc g => exact absurd hw (hdocs g)
  · rw [hpositions hdocs, List.pairwise_map]
    exact (List.pairwise_append.mp hpairwise).1.imp_of_mem fun _ hm hlt => hlt (h.ne_eof he _ hm)

end Run

/-- The body of a fragment without comments is spelled by lexemes in order, and its tokens stand in
the text. -/
theorem exists_plain_of_parseFragment {d : Dialect} {cs : List Char} {f : Fragment}
    (h : parseFragment d cs = .ok f)
    (hcomments : ∀ scan, Scan.ofText d cs = .ok scan → scan.comments = []) :
    ∃ s ws, s.isProper = true ∧ Derives d s ws (.list f.body.trees) ∧ Word.ArePlain ws ∧
      ∀ p ∈ Word.tokenPositions ws, ∃ offset, p = .atOffset offset ∧ offset < byteLength cs := by
  obtain ⟨scan, groups, hscan, hgroups, hfragment⟩ := exists_of_parseFragment h
  obtain ⟨ws₁, c, run₁, hspelled⟩ := hfragment.body
  obtain ⟨s, ws, c', run₂, hs, hbody⟩ := hspelled.exists_words
  obtain ⟨ps, hsplits, hscans⟩ := Scan.scans_of_ofText hscan
  have hpieces (p : Piece) (hp : p ∈ ps) := hsplits.text_ne_nil hp
  rw [hcomments scan hscan] at hgroups
  obtain rfl := hgroups.eq_nil
  have run := run₁.trans run₂
  have he : Ended scan.lexemes := hscans.ended hsplits.allSpelled
  refine ⟨s, ws, hs, hbody, (run.arePlain he (hscans.pairwise_pos hpieces) fun l hl => ?_).right,
    fun p hp => ?_⟩
  · have hle := hscans.le_pos hl
    rw [Pos.le_def] at hle
    simp only [Pos.atOffset, Pos.isValid, bne_iff_ne] at hle ⊢
    omega
  · obtain ⟨l, hl, rfl⟩ := List.mem_map.mp hp
    obtain ⟨hl, hsemi⟩ := List.mem_filter.mp hl
    have hmem : l ∈ Word.lexemes (ws₁ ++ ws) := by
      rw [Word.lexemes_append]
      exact List.mem_append_right _ hl
    have hrest : l ∈ scan.lexemes := by
      rw [show scan.lexemes = _ from run.rest_eq]
      exact List.mem_append_left _ hmem
    obtain ⟨offset, hpos, hlt⟩ :=
      hscans.pos_lt_end hpieces hrest (run.ne_eof he l hmem) (by simpa using hsemi)
    rw [hsplits.texts_eq, Nat.zero_add] at hlt
    exact ⟨offset, hpos, hlt⟩

/-! ### Sides -/

namespace Patch

variable {p : Patch}

/-- Without changed lines there is one side. -/
theorem ReadOf.sides_eq {body : List PatchLine} (h : p.ReadOf body)
    (hlines : ∀ o ∈ p.minus.origins, o = .context) : p.minus = p.plus := by
  obtain ⟨fragment, -, hminus⟩ := Side.exists_of_read h.minus
  have htext : sideText BodyLine.isInMinus (BodyLine.ofLines 0 false body) =
      sideText BodyLine.isInPlus (BodyLine.ofLines 0 false body) := by
    refine List.flatMap_congr fun l hl => ?_
    have hcontext : l.origin = .context := hlines _ (by rw [hminus]; exact List.mem_map_of_mem hl)
    simp [BodyLine.isInMinus, BodyLine.isInPlus, hcontext]
  have hread : Side.read BodyLine.isInMinus (BodyLine.ofLines 0 false body) =
      Side.read BodyLine.isInPlus (BodyLine.ofLines 0 false body) := by
    rw [Side.read, Side.read, htext]
  exact Except.ok.inj (h.minus.symm.trans (hread.trans h.plus))

/-- Whether a patch has only context lines, no comments, no package clause, no imports, and no
metavariable that occurs twice. -/
@[mk_iff] structure IsContext (p : Patch) : Prop where
  lines : ∀ o ∈ p.minus.origins, o = .context
  comments : ∀ scan, Scan.ofText .pattern p.minus.text = .ok scan → scan.comments = []
  package : p.minus.fragment.package = none
  imports : p.minus.fragment.imports = []
  metavars : ((p.metavarsIn p.minus).map (·.1)).Nodup

instance (p : Patch) : Decidable p.IsContext := decidable_of_iff' _ p.isContext_iff

/-- What is true of the trees of a patch of context lines. -/
structure IsPlain (p : Patch) : Prop where
  sides : p.minus = p.plus
  nodes : ∀ n ∈ Tree.nodesAll p.minus.fragment.body.trees, n.IsRegular
  positions : (Tree.positionsAll p.minus.fragment.body.trees).Nodup
  paired : ∀ q ∈ Tree.positionsAll p.minus.fragment.body.trees, (Pairing.ofPatch p).counterpart? q =
    some q

/-- The trees of a fragment without package clause and imports are those of its body. -/
theorem IsContext.trees_eq (h : p.IsContext) :
    p.minus.fragment.trees = p.minus.fragment.body.trees := by
  rw [Fragment.trees, h.package, h.imports]
  cases p.minus.fragment.body <;> rfl

theorem IsContext.isPlain {text : List Char} (hp : p ∈ (PatchFile.read text).patches)
    (h : p.IsContext) :
    p.IsPlain := by
  obtain ⟨body, hbody, hread⟩ := PatchFile.exists_body_of_mem hp
  have hsides := hread.sides_eq h.lines
  obtain ⟨fragment, hfragment, hminus⟩ := Side.exists_of_read hread.minus
  have hcomments := h.comments
  have hcontext : p.minus.IsContext :=
    ⟨⟨_, _, hread.minus, BodyLine.not_mem_content fun l hl => PatchLine.not_mem_text (hbody hl)⟩,
      h.lines⟩
  have hpositions : p.minus.fragment.positions = Tree.positionsAll p.minus.fragment.body.trees := by
    rw [Fragment.positions, h.package, h.trees_eq, Tree.positionsAll_eq_flatMap]
    rfl
  have htrees : fragment.body.trees = p.minus.fragment.body.trees := by rw [hminus]
  have htext : sideText BodyLine.isInMinus (BodyLine.ofLines 0 false body) = p.minus.text := by
    rw [hminus]
  rw [htext] at hfragment
  obtain ⟨s, ws, hs, hderives, hws, hplaces⟩ := exists_plain_of_parseFragment hfragment hcomments
  have hbare := Phrase.isBare_of_isProper hs
  rw [htrees] at hderives
  have hsub := hderives.positions_subset hbare (Phrase.skipsSemicolons_of_isProper hs) hws.noDocs
  have hsubperm := hderives.positions_subperm hbare
  have hregular := hderives.isRegular hbare hws
  rw [Tree.positions_list] at hsub hsubperm
  rw [Tree.nodes_list] at hregular
  refine ⟨hsides, hregular, ?_, fun q hq => ?_⟩
  · obtain ⟨qs, hperm, hqs⟩ := hsubperm
    exact hperm.nodup (hws.nodup.sublist hqs)
  · rw [Pairing.counterpart?, if_pos (Tree.isValid_of_mem_positionsAll _ q hq)]
    rw [← hpositions] at hsub hq
    exact Pairing.get?_ofPatch hsides hcontext hq fun q hq => hplaces q (hsub hq)

end Patch

end Graft
