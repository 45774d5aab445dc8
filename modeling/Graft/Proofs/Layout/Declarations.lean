import Graft.Proofs.Layout.Untouched

/-! # Where the declarations of a file stand

Every declaration of a file that was read agrees with the source, is not empty, and stands behind
the package clause.
-/

namespace Graft

namespace Derives

variable {d : Dialect} {ws : List Word} {t : Tree}

/-- The words of lines hold the words of each of their phrases. -/
theorem exists_of_mem_lines {s : Phrase} {ts : List Tree} (h : Derives d (.lines s) ws (.list ts))
    (ht : t ∈ ts) : ∃ a vs b, ws = a ++ (vs ++ b) ∧ Derives d s vs t := by
  generalize hp : Phrase.lines s = p at h
  generalize hl : Tree.list ts = u at h
  induction h generalizing ts with
  | linesNil =>
    cases hl
    cases ht
  | @linesSemicolon _ _ l _ _ _ ih =>
    obtain ⟨a, vs, b, rfl, hs⟩ := ih ht hp hl
    exact ⟨a, vs, b ++ [.lexeme l], by simp, hs⟩
  | @linesItem _ ws ws' _ _ _ _ hitem ih _ =>
    cases hp
    cases hl
    rcases List.mem_append.mp ht with ht | ht
    · obtain ⟨a, vs, b, rfl, hs⟩ := ih ht rfl rfl
      exact ⟨a, vs, b ++ ws', by simp, hs⟩
    · cases List.mem_singleton.mp ht
      exact ⟨ws, ws', [], by simp, hitem⟩
  | cover hc => subst hp; cases hc
  | node hr => subst hp; cases hr
  | _ => cases hp

/-- What documented fields begin with. -/
theorem exists_front {p : Part} {toks : List Token} {ps : List Part} {ts : List Tree}
    (hp : p = .markIn toks ∨ ∃ tok ∈ toks, p = .mark tok)
    (h : Derives d (.parts (.sub .doc :: p :: ps)) ws (.list ts)) :
    ∃ vs us l doc ts', ws = vs ++ .lexeme l :: us ∧ Derives d .doc vs doc ∧
      ts = doc :: .pos l.pos :: ts' ∧ l.token ∈ toks := by
  cases h with
  | sub hdoc h =>
    rcases hp with rfl | ⟨tok, htok, rfl⟩
    · cases h with
      | markIn hl h => exact ⟨_, _, _, _, _, rfl, hdoc, rfl, hl⟩
      | cover hc => cases hc
    · cases h with
      | mark hl h => exact ⟨_, _, _, _, _, rfl, hdoc, rfl, by rw [hl]; exact htok⟩
      | cover hc => cases hc
  | cover hc => cases hc

/-- The tokens that declarations begin with. -/
def declTokens : List Token := .kwFunc :: .ellipsis :: Token.declarers

/-- What a declaration begins with: perhaps a comment, and a token whose place is recorded. -/
theorem decl_front (h : Derives d .decl ws t) :
    ∃ vs us l doc ts, ws = vs ++ .lexeme l :: us ∧ Derives d .doc vs doc ∧
      t.start = Tree.startAll (doc :: .pos l.pos :: ts) ∧ l.token ∈ declTokens := by
  -- a declaration is a node whose first fields are a comment and a token
  have documented {k : Kind} {p : Part} {ps : List Part} {ts : List Tree}
      (hp : p = .mark .kwFunc ∨ ∃ kw ∈ Token.declarers, p = .markIn [kw])
      (h : Derives d (.parts (.sub .doc :: p :: ps)) ws (.list ts)) :
      ∃ vs us l doc ts', ws = vs ++ .lexeme l :: us ∧ Derives d .doc vs doc ∧
        (Tree.node k ts).start = Tree.startAll (doc :: .pos l.pos :: ts') ∧
        l.token ∈ declTokens := by
    obtain ⟨toks, hsub, hp⟩ : ∃ toks, (∀ tok ∈ toks, tok ∈ declTokens) ∧
        (p = .markIn toks ∨ ∃ tok ∈ toks, p = .mark tok) := by
      rcases hp with rfl | ⟨kw, hkw, rfl⟩
      · exact ⟨[.kwFunc], by simp [declTokens], .inr ⟨_, List.mem_singleton_self _, rfl⟩⟩
      · exact ⟨[kw], by simp [declTokens, hkw], .inl rfl⟩
    obtain ⟨vs, us, l, doc, ts', rfl, hdoc, rfl, hl⟩ := h.exists_front hp
    exact ⟨vs, us, l, doc, ts', rfl, hdoc, by rw [Tree.start], hsub _ hl⟩
  cases h with
  | node hr h =>
    cases hr with
    | funcDecl => exact documented (.inl rfl) h
  | cover hc h =>
    cases hc with
    | declDots =>
      cases h with
      | dots hd hl =>
        refine ⟨[], [], _, .nil, [], rfl, .noDoc, ?_, by rw [hl]; decide⟩
        rw [Tree.startAll_of_not_isValid rfl, Tree.dots, Tree.start]
      | cover hc => cases hc
      | node hr => cases hr
    | declDeclaration =>
      cases h with
      | node hr h =>
        cases hr with
        | group hkw => exact documented (.inr ⟨_, hkw, rfl⟩) h
        | single hkw => exact documented (.inr ⟨_, hkw, rfl⟩) h
      | cover hc => cases hc

end Derives

theorem Lexeme.pos_lt_stop {l : Lexeme} (hvalid : l.pos.isValid = true)
    (hl : l.token ∈ Derives.declTokens) : l.pos < l.stop := by
  have hall : ∀ t ∈ Derives.declTokens, t.carriesText = false ∧ 0 < t.text.utf8ByteSize := by decide
  obtain ⟨hcarries, hwidth⟩ := hall _ hl
  rw [stop, spelling_of_not_carriesText hcarries, Pos.advance, if_pos hvalid, Pos.lt_def]
  dsimp only
  omega

theorem Lexeme.pos_le_of_getLast? {ls : List Lexeme} (h : ls.Pairwise Lexeme.Before) {l m : Lexeme}
    (hl : l ∈ ls) (hm : ls.getLast? = some m) : l.pos ≤ m.pos := by
  obtain ⟨front, rfl⟩ := List.getLast?_eq_some_iff.mp hm
  rcases List.mem_append.mp hl with hl | hl
  · exact ((List.pairwise_append.mp h).2.2 l hl m (List.mem_singleton_self m)).1
  · rw [List.mem_singleton.mp hl]
    exact Pos.le_refl _

namespace FileReading

variable {d : Dialect} {cs : List Char} (r : FileReading d cs) {t : Tree}

theorem isCut_lexeme {l : Lexeme} (hl : .lexeme l ∈ r.words) (hsemi : l.token ≠ .semicolon) :
    IsCut cs l.pos := by
  have hmem := Word.mem_lexemes.mpr hl
  have hslice := r.scans.slice?_lexeme r.splits.allSpelled r.text_eq rfl
    (List.mem_append_left _ hmem) (r.ended.ne_eof hmem) hsemi
  exact (Source.isCut_of_slice? hslice).1

/-- The words of a declaration among those of its file, behind the package keyword. -/
theorem exists_words (ht : t ∈ r.decls) :
    ∃ a vs b, r.words = a ++ (vs ++ b) ∧ .lexeme r.package ∈ a ∧ Derives d .decl vs t := by
  obtain ⟨a, vs, b, hwords, h⟩ := r.decls_derive.exists_of_mem_lines ht
  refine ⟨r.docWords ++ .lexeme r.package :: (r.nameWords ++ (r.endWords ++ a)), vs, b, ?_, ?_, h⟩
  · simp [FileWords.words, hwords]
  · simp

/-- **Where a declaration stands**: behind the package keyword, at a place where the text can be
cut, and it is not empty. -/
theorem decl_place (ht : t ∈ r.decls) :
    r.package.pos ≤ t.start ∧ IsCut cs t.start ∧ t.start < t.stop := by
  obtain ⟨a, vs, b, hwords, hpackage, hdecl⟩ := r.exists_words ht
  obtain ⟨ws, us, l, doc, ts, rfl, hdoc, hstart, hl⟩ := hdecl.decl_front
  have hmem : .lexeme l ∈ r.words := by simp [hwords]
  have hsemi : l.token ≠ .semicolon := by
    intro heq
    rw [heq] at hl
    revert hl
    decide
  have horder := r.pairwise_lexemes
  rw [hwords, Word.lexemes_append, Word.lexemes_append] at horder
  obtain ⟨hfront, hrest, hcross⟩ := List.pairwise_append.mp horder
  have hpackage := Word.mem_lexemes.mpr hpackage
  have hstop : l.pos < t.stop := by
    have hlast := hdecl.stop_lexeme rfl rfl (List.pairwise_append.mp hrest).1
      (Word.mem_lexemes.mpr (by simp)) hsemi
    have hwidth := Lexeme.pos_lt_stop (r.isValid_lexeme hmem) hl
    rw [Pos.lt_def] at *
    rw [Pos.le_def] at hlast
    omega
  rw [hstart]
  -- it starts with its first token, or with the comment above
  rcases r.start_documented ts hdoc (by rw [hwords, List.append_assoc]; rfl) with h | h
  · rw [h]
    refine ⟨?_, r.isCut_lexeme hmem hsemi, hstop⟩
    exact (hcross _ hpackage l (by simp [Word.mem_lexemes])).1
  · obtain ⟨c, hc, h, hle, hbehind⟩ := h
    rw [h]
    refine ⟨?_, (Source.isCut_of_slice? (r.slice?_comment hc)).1, ?_⟩
    · obtain ⟨m, hm⟩ : ∃ m, (Word.lexemes a).getLast? = some m :=
        ⟨_, List.getLast?_eq_some_getLast (List.ne_nil_of_mem hpackage)⟩
      have hlt := hbehind m hm
      have hle := Lexeme.pos_le_of_getLast? hfront hpackage hm
      rw [Pos.lt_def] at hlt
      rw [Pos.le_def] at *
      omega
    · have hle := Pos.le_trans (Pos.le_advance _ _) hle
      rw [Pos.lt_def] at *
      rw [Pos.le_def] at hle
      omega

theorem agrees_decl {page : Page} (hsrc : page.source = some (Source.ofText cs))
    (ht : t ∈ r.decls) :
    page.agrees t = true := by
  obtain ⟨a, vs, b, hwords, -, hdecl⟩ := r.exists_words ht
  exact hdecl.agrees rfl (fun w hw => r.stands hsrc (by simp [hwords, hw]))

/-- Declarations are nodes. -/
theorem exists_node (ht : t ∈ r.decls) : ∃ n : Node, t = n := by
  let page : Page := ⟨some (Source.ofText cs), .empty, ""⟩
  obtain ⟨a, vs, b, hwords, -, hdecl⟩ := r.exists_words ht
  have hstands : ∀ w ∈ vs, w.Stands page := fun w hw => r.stands rfl (by simp [hwords, hw])
  obtain ⟨-, -, hnode⟩ := (hdecl.agreeing hstands).1 rfl
  cases t with
  | node k fs => exact ⟨⟨k, fs⟩, rfl⟩
  | _ => exact absurd (hnode rfl) nofun

end FileReading

theorem Page.not_intersects_of_copy? {page : Page} {n : Node} {text : List Char}
    (h : page.copy? n = some text) : page.changed.intersects n.span = false := by
  unfold copy? at h
  split at h
  · cases h
  · dsimp only at h
    split at h
    · rename_i hcond
      simp only [Bool.and_eq_true, Bool.not_eq_true'] at hcond
      exact hcond.1.2
    · cases h

theorem Page.slice?_of_copy? {page : Page} {src : Source} {n : Node} {text : List Char}
    (hsrc : page.source = some src) (h : page.copy? n = some text) :
    src.slice? ⟨n.start, n.stop⟩ = some text := by
  rw [copy?, hsrc] at h
  dsimp only at h
  split at h
  · exact h
  · cases h

end Graft
