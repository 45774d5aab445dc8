import Graft.Proofs.Layout.CommentBlocks
import Graft.Proofs.Layout.Declarations
import Graft.Proofs.Token.OwnLine
import Mathlib.Data.List.Nodup

/-! # The comments above declarations

What documents a declaration is found when it is read, by the lexeme before its keyword and by the
groups of the text's comments.  Seen from the text it is this (`parseFile_doc`).  A comment is
**above** a keyword if it stands alone on its line, ends on the line above, and no token stands
between (`Comment.IsAbove`).  A declaration without such a comment has no documentation.  With one,
the documentation ends with it exactly if the comment **closes** what is above the keyword
(`Comment.Closes`): it is the last one before the keyword, and every comment that leads to it, each
going on with the one before, stands alone on its line with no token between it and the keyword.

The second condition is one on the head of the group.  A comment behind a declaration is the head of
a group that goes on with the lines below, and such a group does not stand alone
(`parseFile_doc_behind_trailing`).

The argument follows the block of the comment.  A comment that stands behind a block that documents
a keyword, and before the keyword, would go on with the block, or a token would stand between.  A
comment of a block that closes what is above a keyword is the last of the block, since the next
would stand behind the keyword, two lines further down.
-/

namespace Graft

open CommentGroup (docAt Block)

/-! ### Declarations as they are read -/

/-- The keywords that declarations begin with. -/
def Token.declKeywords : List Token := .kwFunc :: Token.declarers

/-- The first fields of a declaration that is read from a cursor on: what documents its keyword, and
where the keyword stands. -/
def Tree.HeadedAt (ctx : Context) (c : Cursor) (t : Tree) : Prop :=
  c.front.token ∈ Token.declKeywords ∧ ∃ kind ∈ [Kind.genDecl, .funcDecl], ∃ fields : List Tree,
    t = .node kind (docAt ctx.lines ctx.groups c.previous c.front.pos :: .pos c.front.pos :: fields)

namespace Reader

variable {ctx : Context} {c c' : Cursor} {t : Tree}

theorem docFor_ok {p : Pos} (h : Gives (docFor p) ctx c t c') :
    t = docAt ctx.lines ctx.groups c.previous p ∧ c = c' := by
  obtain ⟨ctx', c₁, h₁, h⟩ := bind_ok h
  cases h₁
  cases hgroup : (ctx.groups.takeWhile fun g => decide (g.stop ≤ p)).getLast? with
  | none =>
    simp only [hgroup] at h
    simp only [docAt, hgroup]
    exact ⟨(pure_ok h).1.symm, (pure_ok h).2⟩
  | some g =>
    simp only [hgroup] at h
    simp only [docAt, hgroup]
    obtain ⟨c₂, c₃, h₂, h⟩ := bind_ok h
    cases h₂
    obtain ⟨rest, previous⟩ := c
    cases previous <;> (dsimp only at h; split at h) <;>
      (rename_i hcond; obtain ⟨rfl, rfl⟩ := pure_ok h; simp_all)

theorem expect_ok {k : Token} {p : Pos} (h : Gives (expect k) ctx c p c') :
    c.front.token = k ∧ p = c.front.pos := by
  obtain ⟨o, c₁, h₁, h⟩ := bind_ok h
  rcases got?_ok h₁ with ⟨hk, rfl, -⟩ | ⟨-, rfl, -⟩
  · exact ⟨hk, (pure_ok h).1.symm⟩
  · exact absurd h unexpected_ok

end Reader

namespace Rules

open Reader

variable {r : Rules} {ctx : Context} {c c' : Cursor} {t doc : Tree}

theorem declaration_front (h : Gives (r.declaration doc) ctx c t c') :
    ∃ fields, t = .node .genDecl (doc :: .pos c.front.pos :: fields) := by
  obtain ⟨l, c₁, h₁, h⟩ := bind_ok h
  obtain ⟨rfl, rfl⟩ := current_ok h₁
  obtain ⟨-, c₂, -, h⟩ := bind_ok h
  obtain ⟨o, c₃, -, h⟩ := bind_ok h
  cases o with
  | some lparen =>
    obtain ⟨specs, c₄, -, h⟩ := bind_ok h
    obtain ⟨rparen, c₅, -, h⟩ := bind_ok h
    exact ⟨_, (pure_ok h).1.symm⟩
  | none =>
    obtain ⟨spec, c₄, -, h⟩ := bind_ok h
    exact ⟨_, (pure_ok h).1.symm⟩

theorem genDecl_headed (hf : c.front.token ∈ Token.declarers) (h : Gives r.genDecl ctx c t c') :
    t.HeadedAt ctx c := by
  obtain ⟨p, c₁, h₁, h⟩ := bind_ok h
  obtain ⟨rfl, rfl⟩ := position_ok h₁
  obtain ⟨doc, c₂, h₂, h⟩ := bind_ok h
  obtain ⟨rfl, rfl⟩ := docFor_ok h₂
  obtain ⟨x, c₃, h₃, h⟩ := bind_ok h
  obtain ⟨fields, rfl⟩ := declaration_front h₃
  obtain ⟨-, c₄, -, h⟩ := bind_ok h
  exact ⟨List.mem_cons_of_mem _ hf, .genDecl, by decide, fields, (pure_ok h).1.symm⟩

theorem funcDecl_headed (h : Gives r.funcDecl ctx c t c') : t.HeadedAt ctx c := by
  obtain ⟨p, c₁, h₁, h⟩ := bind_ok h
  obtain ⟨rfl, rfl⟩ := position_ok h₁
  obtain ⟨doc, c₂, h₂, h⟩ := bind_ok h
  obtain ⟨rfl, rfl⟩ := docFor_ok h₂
  obtain ⟨q, c₃, h₃, h⟩ := bind_ok h
  obtain ⟨hf, rfl⟩ := expect_ok h₃
  obtain ⟨tok, c₄, -, h⟩ := bind_ok h
  extract_lets jp at h
  obtain ⟨recv, c₅, h⟩ : ∃ recv c₅, Gives (jp recv) ctx c₅ t c' := by
    split at h <;> exact (bind_ok h).imp fun _ ⟨c₅, _, h⟩ => ⟨c₅, h⟩
  obtain ⟨name, c₆, -, h⟩ := bind_ok h
  obtain ⟨sig, c₇, -, h⟩ := bind_ok h
  obtain ⟨tok, c₈, -, h⟩ := bind_ok h
  extract_lets type jp at h
  obtain ⟨body, c₉, h⟩ : ∃ body c₉, Gives (jp body) ctx c₉ t c' := by
    split at h <;> exact (bind_ok h).imp fun _ ⟨c₉, _, h⟩ => ⟨c₉, h⟩
  obtain ⟨-, c₁₀, -, h⟩ := bind_ok h
  refine ⟨by rw [hf]; decide, .funcDecl, by decide, _, (pure_ok h).1.symm⟩

theorem decl_headed (hd : ctx.dialect = .code) (h : Gives r.decl ctx c t c') :
    t.HeadedAt ctx c := by
  obtain ⟨tok, c₁, h₁, h⟩ := bind_ok h
  obtain ⟨rfl, rfl⟩ := token_ok h₁
  split at h
  case h_1 hf | h_2 hf | h_3 hf | h_4 hf => exact genDecl_headed (by rw [hf]; decide) h
  case h_5 => exact funcDecl_headed h
  case h_6 =>
    obtain ⟨b, c₂, h₂, h⟩ := bind_ok h
    obtain ⟨rfl, rfl⟩ := atDots_ok h₂
    rw [hd] at h
    exact absurd h unexpected_ok

/-- A declaration is read somewhere behind a cursor. -/
def HeadedBehind (ctx : Context) (c : Cursor) (t : Tree) : Prop :=
  ∃ ws c', Run ctx.groups c ws c' ∧ Ended c'.rest ∧ t.HeadedAt ctx c'

theorem declsWhile_headed {go : Token → Bool} {decl : Rules → Reader Tree}
    {ds ds' : List Tree} {c₀ : Cursor} {ws : List Word} (hc : Run ctx.groups c₀ ws c)
    (he : Ended c.rest) (hdecl : ∀ {c t c'}, Ended c.rest → go c.front.token = true →
      Gives (decl r) ctx c t c' → (∃ ws, Run ctx.groups c ws c') ∧ t.HeadedAt ctx c)
    (hds : ∀ t ∈ ds, HeadedBehind ctx c₀ t) (h : Gives (r.declsWhile go decl ds) ctx c ds' c') :
    (∃ ws, Run ctx.groups c₀ ws c') ∧ ∀ t ∈ ds', HeadedBehind ctx c₀ t := by
  have hloop : ∃ ws', Run ctx.groups c ws' c' ∧ Run ctx.groups c₀ (ws ++ ws') c' ∧
      ∀ t ∈ ds', HeadedBehind ctx c₀ t := by
    refine iterate_run (I := fun ds c ws => Run ctx.groups c₀ ws c ∧
      ∀ t ∈ ds, HeadedBehind ctx c₀ t)
      (P := fun ds c ws => Run ctx.groups c₀ ws c ∧ ∀ t ∈ ds, HeadedBehind ctx c₀ t) ?_
      he ⟨hc, hds⟩ h
    intro ds ws c₁ x c₂ he ⟨hrun, hds⟩ h
    obtain ⟨tok, c₃, h₃, h⟩ := bind_ok h
    obtain ⟨rfl, rfl⟩ := token_ok h₃
    split at h
    · rename_i hgo
      obtain ⟨t, c₄, h₄, h⟩ := bind_ok h
      obtain ⟨⟨ws₄, run₄⟩, ht⟩ := hdecl he hgo h₄
      obtain ⟨rfl, rfl⟩ := pure_ok h
      refine ⟨ws₄, run₄, hrun.trans run₄, fun t' ht' => ?_⟩
      rcases List.mem_append.mp ht' with ht' | ht'
      · exact hds t' ht'
      · exact List.mem_singleton.mp ht' ▸ ⟨ws, c₁, hrun, he, ht⟩
    · obtain ⟨rfl, rfl⟩ := pure_ok h
      exact ⟨[], .refl _, by simpa using hrun, hds⟩
  obtain ⟨ws', -, hrun, hds'⟩ := hloop
  exact ⟨⟨_, hrun⟩, hds'⟩

/-- **Every declaration of a file has first what documents its keyword, and where the keyword
stands.** -/
theorem Sound.file_headed (hr : r.Sound) (hd : ctx.dialect = .code)
    (he : Ended c.rest) {file : Node} (h : Gives r.file ctx c file c') :
    ∀ t ∈ file.list .decls, HeadedBehind ctx c t := by
  obtain ⟨p, c₁, h₁, h⟩ := bind_ok h
  obtain ⟨rfl, rfl⟩ := position_ok h₁
  obtain ⟨doc, c₂, h₂, h⟩ := bind_ok h
  obtain ⟨rfl, rfl⟩ := docFor_ok h₂
  obtain ⟨q, c₃, h₃, h⟩ := bind_ok h
  obtain ⟨l, hl, rfl, run₃⟩ := expect_run he (by decide) h₃
  have he₃ := run₃.ended he
  obtain ⟨name, c₄, h₄, h⟩ := bind_ok h
  obtain ⟨ws₄, run₄, -⟩ := ident_reads he₃ h₄
  have he₄ := run₄.ended he₃
  obtain ⟨u, c₅, h₅, h⟩ := bind_ok h
  obtain ⟨ws₅, -, run₅⟩ := endStatement_run he₄ h₅
  have run₅ := run₃.trans (run₄.trans run₅)
  obtain ⟨imports, c₆, h₆, h⟩ := bind_ok h
  obtain ⟨⟨ws₆, run₆⟩, himports⟩ :=
    declsWhile_headed run₅ (run₅.ended he) (@fun c₁ _ _ he hgo h => by
    have hf : c₁.front.token ∈ Token.declarers := by rw [beq_iff_eq.mp hgo]; decide
    obtain ⟨_, _, run, -⟩ := hr.genDecl_run he hf h
    exact ⟨⟨_, run⟩, genDecl_headed hf h⟩) (List.forall_mem_nil _) h₆
  obtain ⟨decls, c₇, h₇, h⟩ := bind_ok h
  obtain ⟨-, hdecls⟩ := declsWhile_headed run₆ (run₆.ended he) (fun he _ h => by
    obtain ⟨_, _, run, -⟩ := hr.decl_run he h
    exact ⟨⟨_, run⟩, decl_headed hd h⟩) himports h₇
  obtain ⟨ctx', c₈, h₈, h⟩ := bind_ok h
  cases h₈
  obtain ⟨rfl, -⟩ := pure_ok h
  exact hdecls

end Rules

/-! ### Comments right above a place -/

namespace Comment

/-- A comment alone on its line, right above the line of `p`, with no token between. -/
structure IsAbove (s : Scan) (lines : LineTable) (p : Pos) (c : Comment) : Prop where
  mem : c ∈ s.comments
  ownLine : c.ownLine = true
  line : ∃ n, lines.line? c.stop = some n ∧ lines.line? p = some (n + 1)
  alone : ∀ l ∈ s.lexemes, l.pos < p → l.pos < c.pos

theorem isAbove_iff {s : Scan} {lines : LineTable} {p : Pos} {c : Comment} :
    c.IsAbove s lines p ↔ c ∈ s.comments ∧ c.ownLine = true ∧
      (∃ n ∈ lines.line? c.stop, lines.line? p = some (n + 1)) ∧ ∀ l ∈ s.lexemes, l.pos < p →
      l.pos < c.pos :=
  ⟨fun h => ⟨h.mem, h.ownLine, h.line, h.alone⟩, fun ⟨hmem, hown, hline, halone⟩ =>
    ⟨hmem, hown, hline, halone⟩⟩

instance (s : Scan) (lines : LineTable) (p : Pos) (c : Comment) : Decidable (c.IsAbove s lines p) :=
  decidable_of_iff' _ isAbove_iff

/-- Comments lead from one to another, each going on with the one before it. -/
def Leads (lines : LineTable) (cs : List Comment) (b c : Comment) : Prop :=
  ∃ xs ds ys, cs = xs ++ (ds ++ c :: ys) ∧ (ds ++ [c]).IsChain (Continues lines) ∧
  (ds ++ [c]).head? = some b

/-- A comment is the last before `p`, and whatever leads to it stands alone on its line with no
token between it and `p`. -/
structure Closes (s : Scan) (lines : LineTable) (p : Pos) (c : Comment) : Prop where
  isLast : ∀ d ∈ s.comments, d.stop ≤ p → d.pos ≤ c.pos
  isWhole : ∀ b, Leads lines s.comments b c → b.ownLine = true ∧ ∀ l ∈ s.lexemes, l.pos < p →
    l.pos < b.pos

end Comment

/-- A comment is the last of a comment group. -/
def Tree.EndsWith (c : Comment) (t : Tree) : Prop :=
  ∃ ts, t = .node .commentGroup [.list (ts ++ [.node .comment [.pos c.pos, .str c.text]])]

namespace Scan

variable {d : Dialect} {cs : List Char} {s : Scan}

theorem comment_pos_lt_stop (h : ofText d cs = .ok s) {c : Comment} (hc : c ∈ s.comments) :
    c.pos < c.stop := by
  obtain ⟨ps, hsplits, hlined⟩ := lined_of_ofText h
  exact hlined.pos_lt_stop (fun _ => hsplits.text_ne_nil) hc

theorem pairwise_comments_stop (h : ofText d cs = .ok s) :
    s.comments.Pairwise (fun c e => c.stop ≤ e.pos) := by
  obtain ⟨ps, -, hlined⟩ := lined_of_ofText h
  exact hlined.scans.pairwise_comments

theorem pairwise_comments_pos (h : ofText d cs = .ok s) :
    s.comments.Pairwise (fun c e => c.pos < e.pos) :=
  (pairwise_comments_stop h).imp_of_mem fun hc _ hle => Nat.lt_of_lt_of_le
    (comment_pos_lt_stop h hc) hle

theorem nodup_comments_pos (h : ofText d cs = .ok s) : (s.comments.map (·.pos)).Nodup :=
  List.pairwise_map.mpr
    ((pairwise_comments_pos h).imp fun hlt heq => Nat.ne_of_lt hlt (congrArg Pos.index heq))

theorem line?_comment (h : ofText d cs = .ok s) {c : Comment} (hc : c ∈ s.comments) :
    (LineTable.ofText cs).line? c.pos = some (c.firstLine (.ofText cs)) ∧
      (LineTable.ofText cs).line? c.stop = some (c.lastLine (.ofText cs)) := by
  obtain ⟨ps, -, hlined⟩ := lined_of_ofText h
  obtain ⟨ps₁, ps₂, -, hpos⟩ := hlined.scans.exists_piece_of_comment hc
  obtain ⟨m, hm⟩ := LineTable.exists_line? cs (0 + byteLength (Piece.texts ps₁))
  obtain ⟨n, hn⟩ :=
    LineTable.exists_line? cs (0 + byteLength (Piece.texts ps₁) + c.text.utf8ByteSize)
  rw [← Pos.advance_atOffset, ← hpos] at hn
  rw [← hpos] at hm
  rw [Comment.lastLine, Comment.firstLine, hm, Comment.stop, hn]
  exact ⟨rfl, rfl⟩

end Scan

/-! ### Blocks above a keyword -/

section Keyword

variable {d : Dialect} {cs : List Char} {s : Scan} {gs : List CommentGroup}
  {pre post : List Lexeme} {k : Lexeme}

/-- Behind a place stands the last lexeme before a keyword, if all before the keyword do. -/
theorem Scan.previous_lt_iff (h : ofText d cs = .ok s) (hs : s.lexemes = pre ++ k :: post)
    (heof : k.token ≠ .eof) {p : Pos} : (∀ q ∈ pre.getLast?.map (·.pos), q < p) ↔
      ∀ l ∈ s.lexemes, l.pos < k.pos → l.pos < p := by
  obtain ⟨ps, hsplits, hscans⟩ := scans_of_ofText h
  have hbefore := hscans.pairwise hsplits.allSpelled
  have hlt := hscans.pairwise_pos fun _ => hsplits.text_ne_nil
  rw [hs] at hbefore hlt ⊢
  obtain ⟨hpre, hbehind, -⟩ := List.pairwise_append.mp hbefore
  constructor
  · intro hlast l hl hlk
    rcases List.mem_append.mp hl with hl | hl
    · obtain ⟨m, hm⟩ : ∃ m, pre.getLast? = some m :=
        ⟨_, List.getLast?_eq_some_getLast (List.ne_nil_of_mem hl)⟩
      have hle := Lexeme.pos_le_of_getLast? hpre hl hm
      exact Nat.lt_of_le_of_lt hle (hlast m.pos (by simp [hm]))
    · rcases List.mem_cons.mp hl with rfl | hl
      · exact absurd hlk (Nat.lt_irrefl _)
      · exact absurd hlk (Nat.not_lt_of_le (List.rel_of_pairwise_cons hbehind hl).1)
  · intro hall q hq
    obtain ⟨m, hm, rfl⟩ := Option.map_eq_some_iff.mp hq
    have hmem := List.mem_of_getLast? hm
    exact hall m (List.mem_append_left _ hmem)
      ((List.pairwise_append.mp hlt).2.2 m hmem k List.mem_cons_self heof)

theorem CommentGroup.Block.start_eq (h : Scan.ofText d cs = .ok s)
    (b : Block (.ofText cs) s.comments gs) :
    ∀ c ∈ b.comments.head?, b.group.start = c.pos := by
  intro c hc
  obtain ⟨ds, hds⟩ := List.head?_eq_some_iff.mp hc
  obtain ⟨ps, -, hlined⟩ := Scan.lined_of_ofText h
  obtain ⟨ps₁, ps₂, -, hpos⟩ :=
    hlined.scans.exists_piece_of_comment (b.mem_of_mem_comments (List.mem_of_mem_head? hc))
  rw [Block.group, hds]
  exact CommentGroup.start_ofComments (by rw [hpos]; exact Pos.isValid_atOffset _)

theorem CommentGroup.Block.start_le (h : Scan.ofText d cs = .ok s)
    (b : Block (.ofText cs) s.comments gs) {c : Comment} (hc : c ∈ b.comments) :
    b.group.start ≤ c.pos := by
  have hpos := b.pairwise_comments (Scan.pairwise_comments_pos h)
  have hstart := b.start_eq h
  cases hds : b.comments with
  | nil => simp [hds] at hc
  | cons e ds =>
    rw [hstart e (by simp [hds])]
    rw [hds] at hc hpos
    rcases List.mem_cons.mp hc with rfl | hc
    · exact Nat.le_refl _
    · exact Nat.le_of_lt (List.rel_of_pairwise_cons hpos hc)

/-- The last comment of a block that documents a keyword is above the keyword. -/
theorem CommentGroup.Block.Documents.isAbove {b : Block (.ofText cs) s.comments gs}
    (hb : b.Documents (pre.getLast?.map (·.pos)) k.pos) (h : Scan.ofText d cs = .ok s)
    (hs : s.lexemes = pre ++ k :: post) (heof : k.token ≠ .eof) :
    b.last.IsAbove s (.ofText cs) k.pos := by
  have hmem := b.mem_of_mem_comments b.last_mem
  exact {
    mem := hmem
    ownLine := b.ownLine_of_head hb.ownLine _ b.last_mem
    line := ⟨_, (Scan.line?_comment h hmem).2, hb.line⟩
    alone := fun l hl hlk =>
      Nat.lt_of_lt_of_le ((Scan.previous_lt_iff h hs heof).mp hb.previous l hl hlk)
        (b.start_le h b.last_mem) }

/-- No comment that ends before the keyword stands behind a block that documents the keyword. -/
theorem CommentGroup.Block.Documents.not_stop_le {b : Block (.ofText cs) s.comments gs}
    (hb : b.Documents (pre.getLast?.map (·.pos)) k.pos) (h : Scan.ofText d cs = .ok s)
    (hs : s.lexemes = pre ++ k :: post) (heof : k.token ≠ .eof) {c : Comment} (hc : c ∈ b.behind) :
    ¬ c.stop ≤ k.pos := by
  intro hstop
  have habove := hb.isAbove h hs heof
  have hstops := b.pairwise_behind (Scan.pairwise_comments_stop h)
  -- the first comment behind the block ends before the keyword too
  obtain ⟨e, he, hestop⟩ : ∃ e, e ∈ b.behind.head? ∧ e.stop ≤ k.pos := by
    cases hbehind : b.behind with
    | nil => simp [hbehind] at hc
    | cons e ds =>
      rw [hbehind] at hc hstops
      refine ⟨e, rfl, ?_⟩
      rcases List.mem_cons.mp hc with rfl | hc'
      · exact hstop
      · have hlt := Scan.comment_pos_lt_stop h (b.mem_of_mem_behind (hbehind ▸ hc))
        exact Pos.le_trans (List.rel_of_pairwise_cons hstops hc')
          (Pos.le_trans (Nat.le_of_lt hlt) hstop)
  have hemem := b.mem_of_mem_behind (List.mem_of_mem_head? he)
  have hepos : e.pos < k.pos := Nat.lt_of_lt_of_le (Scan.comment_pos_lt_stop h hemem) hestop
  cases hown : e.ownLine with
  | true =>
    obtain ⟨m, hm, hle⟩ := LineTable.line?_mono (Nat.le_of_lt hepos) (Scan.line?_comment h hemem).1
    obtain rfl := Option.some.inj (hm.symm.trans hb.line)
    exact b.ends e he ⟨hown, hle⟩
  | false =>
    obtain ⟨ps, hsplits, hlined⟩ := Scan.lined_of_ofText h
    obtain ⟨l, hl, hle, hlt⟩ :=
      b.rel_behind (hlined.between fun _ => hsplits.text_ne_nil) b.last_mem
      (List.mem_of_mem_head? he) habove.ownLine hown
    have hlast := habove.alone l hl (Nat.lt_trans hlt hepos)
    exact Nat.lt_irrefl _ (Nat.lt_of_lt_of_le
      (Nat.lt_trans hlast (Scan.comment_pos_lt_stop h habove.mem)) hle)

/-- Whatever leads to the last comment of a block is in the block. -/
theorem CommentGroup.Block.mem_of_leads (h : Scan.ofText d cs = .ok s)
    (b : Block (.ofText cs) s.comments gs) {c : Comment}
    (hc : Comment.Leads (.ofText cs) s.comments c b.last) : c ∈ b.comments := by
  obtain ⟨xs, ds, ys, hcs, hchain, hhead⟩ := hc
  have hnodup := (Scan.nodup_comments_pos h).of_map
  rw [← List.append_assoc] at hcs
  have hblock := b.comments_eq
  rw [← List.append_assoc] at hblock
  rw [hcs] at hnodup
  have hnot := (List.nodup_cons.mp (List.nodup_middle.mp hnodup)).1
  rw [List.mem_append, not_or] at hnot
  obtain ⟨heq, -⟩ := (List.append_cons_inj_of_notMem hnot.1 hnot.2).mp (hcs.symm.trans hblock)
  rw [b.mem_comments]
  have hmem := List.mem_of_mem_head? hhead
  rcases List.append_eq_append_iff.mp heq with ⟨ms, hbefore, rfl⟩ | ⟨ms, hxs, hfront⟩
  · cases hms : ms.getLast? with
    | none =>
      obtain rfl := List.getLast?_eq_none_iff.mp hms
      simpa using hmem
    | some m =>
      -- the last comment before the block would lead into it
      rw [List.append_assoc, List.isChain_append] at hchain
      obtain ⟨e, he⟩ := b.exists_head
      exact absurd (hchain.2.2 m hms e he) (b.begins m (by simp [hbefore, hms]) e he)
  · rw [hfront, List.mem_append]
    rw [List.mem_append, List.mem_singleton] at hmem
    tauto

/-- The last comment of a block that documents a keyword closes what is above the keyword. -/
theorem CommentGroup.Block.Documents.closes {b : Block (.ofText cs) s.comments gs}
    (hb : b.Documents (pre.getLast?.map (·.pos)) k.pos) (h : Scan.ofText d cs = .ok s)
    (hs : s.lexemes = pre ++ k :: post) (heof : k.token ≠ .eof) :
    b.last.Closes s (.ofText cs) k.pos where
  isLast c hc hstop := by
    have hpos := Scan.pairwise_comments_pos h
    rcases b.mem_cases hc with hc | hc | hc
    · exact Nat.le_of_lt (b.rel_before hpos hc b.last_mem)
    · rcases b.mem_comments.mp hc with hc | rfl
      · exact Nat.le_of_lt (b.rel_front hpos hc)
      · exact Nat.le_refl _
    · exact absurd hstop (hb.not_stop_le h hs heof hc)
  isWhole c hc := by
    have hmem := b.mem_of_leads h hc
    exact ⟨b.ownLine_of_head hb.ownLine c hmem, fun l hl hlk =>
      Nat.lt_of_lt_of_le ((Scan.previous_lt_iff h hs heof).mp hb.previous l hl hlk)
        (b.start_le h hmem)⟩

/-- Every comment of a block leads to the last. -/
theorem CommentGroup.Block.leads_of_head (b : Block (.ofText cs) s.comments gs) {c : Comment}
    (hc : c ∈ b.comments.head?) : Comment.Leads (.ofText cs) s.comments c b.last :=
  ⟨b.before, b.front, b.behind, b.comments_eq, b.chain, hc⟩

theorem Comment.IsAbove.stop_le {p : Pos} {c : Comment} (h : c.IsAbove s (.ofText cs) p) :
    c.stop ≤ p := by
  obtain ⟨n, hstop, hp⟩ := h.line
  by_contra hlt
  obtain ⟨m, hm, hle⟩ := LineTable.line?_mono (Nat.le_of_not_le hlt) hp
  obtain rfl := Option.some.inj (hm.symm.trans hstop)
  exact Nat.not_succ_le_self _ hle

/-- A comment above a keyword that closes what is above it is the last of its block. -/
theorem Comment.Closes.eq_last {c : Comment} (hclose : c.Closes s (.ofText cs) k.pos)
    (habove : c.IsAbove s (.ofText cs) k.pos) (h : Scan.ofText d cs = .ok s) (hk : k ∈ s.lexemes)
    (hsemi : k.token ≠ .semicolon) (b : Block (.ofText cs) s.comments gs) (hc : c ∈ b.comments) :
    c = b.last := by
  obtain ⟨ps, hsplits, hlined⟩ := Scan.lined_of_ofText h
  refine (b.mem_comments.mp hc).resolve_left fun hfront => ?_
  -- otherwise the next comment of the block stands behind the keyword, and so too far below
  obtain ⟨es, fs, hes⟩ := List.append_of_mem hfront
  obtain ⟨e, fs', hfs⟩ :=
    List.exists_cons_of_ne_nil (List.append_ne_nil_of_right_ne_nil fs (List.cons_ne_nil b.last []))
  have hcomments : b.comments = es ++ c :: e :: fs' := by
    rw [CommentGroup.Block.comments, hes, List.append_assoc, List.cons_append, hfs]
  have hnext : Continues (.ofText cs) c e := by
    have hchain : b.comments.IsChain (Continues (.ofText cs)) := b.chain
    rw [hcomments] at hchain
    exact (List.isChain_append_cons_cons.mp hchain).2.1
  have hemem := b.mem_of_mem_comments (c := e) (by simp [hcomments])
  have hlt : c.pos < e.pos := by
    have hpos := b.pairwise_comments (Scan.pairwise_comments_pos h)
    rw [hcomments] at hpos
    exact List.rel_of_pairwise_cons (List.pairwise_append.mp hpos).2.1 List.mem_cons_self
  have hke : k.pos < e.pos := by
    refine (hlined.scans.comment_apart (fun _ => hsplits.text_ne_nil) hk hsemi hemem).resolve_left
      fun hbefore => ?_
    exact absurd hlt (Nat.not_lt_of_le (hclose.isLast e hemem hbefore.2))
  obtain ⟨m, hm, hkm, hme⟩ := hlined.separate hsplits.endLines hk hemem hnext.1 hke
  rw [hsplits.texts_eq] at hm
  obtain ⟨n, hstop, hline⟩ := habove.line
  obtain ⟨n', hn', hlines⟩ := LineTable.line?_lt hm hkm hme hline
  have hfirst := Option.some.inj ((Scan.line?_comment h hemem).1.symm.trans hn')
  have hlast := Option.some.inj ((Scan.line?_comment h habove.mem).2.symm.trans hstop)
  have hle := hnext.2
  omega

/-- The block of a comment that closes what is above a keyword documents the keyword. -/
theorem Comment.Closes.documents {b : Block (.ofText cs) s.comments gs}
    (hclose : b.last.Closes s (.ofText cs) k.pos) (habove : b.last.IsAbove s (.ofText cs) k.pos)
    (h : Scan.ofText d cs = .ok s) (hs : s.lexemes = pre ++ k :: post) (heof : k.token ≠ .eof) :
    b.Documents (pre.getLast?.map (·.pos)) k.pos where
  before g hg := by
    obtain ⟨c, hc, hstop⟩ := b.groups_before.exists_stop hg
    have hle := b.rel_before (Scan.pairwise_comments_stop h) hc b.last_mem
    have hlt := Scan.comment_pos_lt_stop h habove.mem
    rw [hstop]
    exact Pos.le_trans hle (Pos.le_trans (Nat.le_of_lt hlt) habove.stop_le)
  stop_le := habove.stop_le
  behind g hg hle := by
    obtain ⟨c, hc, hstop⟩ := b.groups_behind.exists_stop (List.mem_of_mem_head? hg)
    have hlt := b.rel_behind (Scan.pairwise_comments_pos h) b.last_mem hc
    exact absurd hlt (Nat.not_lt_of_le (hclose.isLast c (b.mem_of_mem_behind hc) (hstop ▸ hle)))
  ownLine c hc := (hclose.isWhole c (b.leads_of_head hc)).1
  previous := by
    rw [Scan.previous_lt_iff h hs heof]
    obtain ⟨c, hc⟩ := b.exists_head
    rw [b.start_eq h c hc]
    exact (hclose.isWhole c (b.leads_of_head hc)).2
  line := by
    obtain ⟨n, hstop, hline⟩ := habove.line
    rw [hline, ← Option.some.inj ((Scan.line?_comment h habove.mem).2.symm.trans hstop)]

/-- The group of a block ends with its last comment, and with no other. -/
theorem CommentGroup.Block.endsWith_iff (h : Scan.ofText d cs = .ok s)
    (b : Block (.ofText cs) s.comments gs) {c : Comment} (hc : c ∈ s.comments) :
    b.group.tree.EndsWith c ↔ c = b.last := by
  let item (e : Comment) : Tree := .node .comment [.pos e.pos, .str e.text]
  have htree : b.group.tree = .node .commentGroup [.list (b.front.map item ++ [item b.last])] := by
    rw [Block.group, CommentGroup.ofComments, Block.comments, List.map_append, List.map_singleton]
  rw [htree]
  constructor
  · rintro ⟨ts, hts⟩
    simp only [Tree.node.injEq, Tree.list.injEq, List.cons.injEq, and_true, true_and] at hts
    have hpos : item b.last = item c := by simpa using congrArg List.getLast? hts
    simp only [item, Tree.node.injEq, List.cons.injEq, Tree.pos.injEq] at hpos
    exact List.inj_on_of_nodup_map (Scan.nodup_comments_pos h) hc
      (b.mem_of_mem_comments b.last_mem) hpos.2.1.symm
  · rintro rfl
    exact ⟨_, rfl⟩

/-- What documents a keyword ends with a comment above the keyword, and with such a comment it ends
if and only if the comment closes what is above the keyword. -/
theorem CommentGroup.docAt_above (h : Scan.ofText d cs = .ok s) (hs : s.lexemes = pre ++ k :: post)
    (hsemi : k.token ≠ .semicolon) (heof : k.token ≠ .eof) {t : Tree}
    (ht : t = docAt (.ofText cs) (group (.ofText cs) s.comments) (pre.getLast?.map (·.pos)) k.pos) :
    (t ≠ .nil → ∃ c, Comment.IsAbove s (.ofText cs) k.pos c ∧ t.EndsWith c) ∧
      ∀ c, Comment.IsAbove s (.ofText cs) k.pos c →
      (t.EndsWith c ↔ c.Closes s (.ofText cs) k.pos) := by
  have hk : k ∈ s.lexemes := by simp [hs]
  have hblocks := blocks_group (.ofText cs) s.comments
  have hcases := hblocks.docAt_cases (pre.getLast?.map (·.pos)) k.pos
  rw [← ht] at hcases
  refine ⟨fun hnil => ?_, fun c habove => ⟨fun hends => ?_, fun hclose => ?_⟩⟩
  · obtain ⟨b, hb, htree⟩ := hcases.resolve_left hnil
    have habove := hb.isAbove h hs heof
    exact ⟨b.last, habove, htree ▸ (b.endsWith_iff h habove.mem).mpr rfl⟩
  · rcases hcases with rfl | ⟨b, hb, rfl⟩
    · obtain ⟨ts, hts⟩ := hends
      cases hts
    · rw [(b.endsWith_iff h habove.mem).mp hends]
      exact hb.closes h hs heof
  · obtain ⟨b, hb⟩ := hblocks.exists_block_of_comment habove.mem
    obtain rfl := hclose.eq_last habove h hk hsemi b hb
    rw [ht, b.docAt_eq (hclose.documents habove h hs heof)]
    exact (b.endsWith_iff h habove.mem).mpr rfl

end Keyword

/-! ### Declarations of a file -/

/-- Where the keyword of a declaration stands. -/
def Node.keyword (n : Node) : Pos := if n.kind = .funcDecl then n.posOf .func else n.posOf .tokPos

/-- **What documents a declaration is the block of comments right above its keyword.**  A documented
declaration has a comment alone on the line above its keyword, with no token between, and its
documentation ends with that comment.  But of such a comment the documentation knows only if no
other comment stands between it and the keyword, and if every comment that leads to it stands alone
on its line with no token between it and the keyword: a comment goes on with the group of the one
before it, whatever stands before that one on its line. -/
theorem parseFile_doc {cs : List Char} {s : Scan} {file : Node} (hs : Scan.ofText .code cs = .ok s)
    (h : parseFile .code cs = .ok file) :
    ∀ t ∈ file.list .decls, ∃ n : Node, t = n.tree ∧
      ∃ k ∈ s.lexemes, k.token ∈ Token.declKeywords ∧ n.keyword = k.pos ∧
        (n.get .doc ≠ .nil → ∃ c, Comment.IsAbove s (.ofText cs) n.keyword c ∧
          (n.get .doc).EndsWith c) ∧
        ∀ c, Comment.IsAbove s (.ofText cs) n.keyword c →
          ((n.get .doc).EndsWith c ↔ c.Closes s (.ofText cs) n.keyword) := by
  obtain ⟨s', hs', h⟩ := exists_of_bind_ok h
  obtain rfl : s = s' := Except.ok.inj (hs.symm.trans hs')
  obtain ⟨⟨file', c'⟩, hfile, h⟩ := exists_of_bind_ok h
  cases h
  obtain ⟨ps, hsplits, hscans⟩ := Scan.scans_of_ofText hs
  have he : Ended s.lexemes := hscans.ended hsplits.allSpelled
  intro t ht
  obtain ⟨ws, c, run, hec, hkeyword, kind, hkind, fields, rfl⟩ :=
    (Rules.upTo_sound _).file_headed rfl (c := ⟨s.lexemes, none⟩) he hfile t ht
  obtain ⟨post, hpost⟩ : ∃ post, c.rest = c.front :: post := by
    obtain ⟨rest, q⟩ := c
    cases rest with
    | nil => cases hec
    | cons l ls => exact ⟨ls, rfl⟩
  have hlexemes : s.lexemes = Word.lexemes ws ++ c.front :: post := hpost ▸ run.rest_eq
  have hne : ∀ tok ∈ Token.declKeywords, tok ≠ .semicolon ∧ tok ≠ .eof := by decide
  have hprevious : c.previous = (Word.lexemes ws).getLast?.map (·.pos) := by
    rw [run.previous, Option.or_none]
  have hdoc := CommentGroup.docAt_above hs hlexemes (hne _ hkeyword).1 (hne _ hkeyword).2 rfl
  rw [← hprevious] at hdoc
  refine ⟨⟨kind, _⟩, rfl, c.front, by simp [hlexemes], hkeyword, ?_⟩
  simp only [List.mem_cons, List.not_mem_nil, or_false] at hkind
  rcases hkind with rfl | rfl <;> exact ⟨rfl, hdoc⟩

/-- Whether a text is read as a file with a declaration that passes a check. -/
def someDecl (text : String) (check : Scan → Node → Bool) : Bool :=
  match Scan.ofText .code text.toList, parseFile .code text.toList with
  | .ok s, .ok file => (file.list .decls).any fun t => t.node?.any (check s)
  | _, _ => false

theorem exists_of_someDecl {text : String} {check : Scan → Node → Bool}
    (h : someDecl text check = true) :
    ∃ (s : Scan) (file n : Node), Scan.ofText .code text.toList = .ok s ∧
      parseFile .code text.toList = .ok file ∧
      n.tree ∈ file.list .decls ∧ check s n = true := by
  unfold someDecl at h
  split at h
  · rename_i s file hs hfile
    simp only [List.any_eq_true, Option.any_eq_true] at h
    obtain ⟨t, ht, n, hn, hcheck⟩ := h
    obtain rfl : t = n.tree := by
      cases t <;> cases hn
      rfl
    exact ⟨s, file, n, hs, hfile, ht, hcheck⟩
  · cases h

/-- Here a function is documented, by the comment right above it. -/
theorem parseFile_doc_function :
    ∃ (s : Scan) (file n : Node) (c : Comment),
      Scan.ofText .code "package p\n\n// doc\nfunc f() \x7b\x7d\n".toList = .ok s ∧
      parseFile .code "package p\n\n// doc\nfunc f() \x7b\x7d\n".toList = .ok file ∧
      n.tree ∈ file.list .decls ∧
      c.IsAbove s (.ofText "package p\n\n// doc\nfunc f() \x7b\x7d\n".toList) n.keyword ∧
      (n.get .doc).EndsWith c := by
  have hdocumented : someDecl "package p\n\n// doc\nfunc f() \x7b\x7d\n"
      (fun _ n => !(n.get .doc).isNil) = true := by
    decide +kernel
  obtain ⟨s, file, n, hs, hfile, hn, hdoc⟩ := exists_of_someDecl hdocumented
  obtain ⟨m, hm, k, -, -, -, habove, -⟩ := parseFile_doc hs hfile n.tree hn
  obtain rfl : n = m := by
    cases n
    cases m
    cases hm
    rfl
  obtain ⟨c, hc, hends⟩ := habove fun hnil => by
    rw [hnil] at hdoc
    cases hdoc
  exact ⟨s, file, n, c, hs, hfile, hn, hc, hends⟩

/-- A comment behind a declaration takes the comment on the line below into its group, which then
does not stand alone. -/
theorem parseFile_doc_behind_trailing :
    ∃ (s : Scan) (file n : Node) (c : Comment),
      Scan.ofText .code "package p\n\nvar a = 1 // one\n// doc\nfunc f() \x7b\x7d\n".toList =
      .ok s ∧
      parseFile .code "package p\n\nvar a = 1 // one\n// doc\nfunc f() \x7b\x7d\n".toList =
      .ok file ∧
      n.tree ∈ file.list .decls ∧
      c.IsAbove s (.ofText "package p\n\nvar a = 1 // one\n// doc\nfunc f() \x7b\x7d\n".toList)
      n.keyword ∧
      n.get .doc = .nil := by
  have hundocumented : someDecl "package p\n\nvar a = 1 // one\n// doc\nfunc f() \x7b\x7d\n"
      (fun s n =>
      s.comments.any (fun c => decide (c.IsAbove s
        (.ofText "package p\n\nvar a = 1 // one\n// doc\nfunc f() \x7b\x7d\n".toList) n.keyword)) &&
        (n.get .doc).isNil) = true := by
    decide +kernel
  obtain ⟨s, file, n, hs, hfile, hn, hcheck⟩ := exists_of_someDecl hundocumented
  simp only [Bool.and_eq_true, List.any_eq_true, decide_eq_true_eq] at hcheck
  obtain ⟨⟨c, -, hc⟩, hnil⟩ := hcheck
  refine ⟨s, file, n, c, hs, hfile, hn, hc, ?_⟩
  cases hdoc : n.get .doc with
  | nil => rfl
  | _ => simp [hdoc, Tree.isNil] at hnil

end Graft
