import Graft.Proofs.Grammar.Kinds
import Graft.Proofs.Grammar.Nodes
import Graft.Proofs.Grammar.ReadFile
import Graft.Proofs.Layout.Comments

/-! # Sides of patches that were read

The body of a fragment is an expression, statements or declarations, and whichever it is, its trees
are phrases of that sort (`exists_of_parseFragment`).  So their nodes have all their fields
(`Body.Spelled.full`), and there is at least one of them (`filled_of_parseFragment`).
-/

namespace Graft

/-! ### Semicolons -/

/-- Whether words are semicolons. -/
def Word.AreSemicolons (ws : List Word) : Prop :=
  ∀ w ∈ ws, ∃ l : Lexeme, l.token = .semicolon ∧ w = .lexeme l

theorem Derives.linesSemicolons {d : Dialect} {s : Phrase} {ws ws' : List Word} {t : Tree}
    (h : Derives d (.lines s) ws t) (hws : Word.AreSemicolons ws') :
    Derives d (.lines s) (ws ++ ws') t := by
  induction ws' generalizing ws with
  | nil => rwa [List.append_nil]
  | cons w ws' ih =>
    obtain ⟨⟨l, hl, rfl⟩, hrest⟩ := List.forall_mem_cons.mp hws
    rw [List.append_cons]
    exact ih (.linesSemicolon h hl) hrest

/-- Lines without an item are semicolons. -/
theorem Derives.areSemicolons {d : Dialect} {s : Phrase} {ws : List Word}
    (h : Derives d (.lines s) ws (.list [])) : Word.AreSemicolons ws := by
  generalize hp : Phrase.lines s = p at h
  generalize ht : Tree.list [] = t at h
  induction h with
  | linesNil => nofun
  | linesSemicolon _ hl ih =>
    exact List.forall_mem_append.mpr ⟨ih hp ht, List.forall_mem_singleton.mpr ⟨_, hl, rfl⟩⟩
  | linesItem => simp at ht
  | cover hcover =>
    subst hp
    cases hcover
  | node => cases ht
  | _ => cases hp

theorem Reader.IsEnd.areSemicolons {ws : List Word} (h : Reader.IsEnd ws) :
    Word.AreSemicolons ws := by
  rcases h with rfl | ⟨l, hl, rfl⟩
  · nofun
  · exact List.forall_mem_singleton.mpr ⟨l, hl, rfl⟩

open Reader in
theorem Reader.skipSemicolons_run {ctx : Context} {c c' : Cursor} {u : Unit} (he : Ended c.rest)
    (h : Gives skipSemicolons ctx c u c') :
    ∃ ws, Run ctx.groups c ws c' ∧ Word.AreSemicolons ws ∧ c'.front.token ≠ .semicolon := by
  refine iterate_run (w := []) (I := fun _ _ ws => Word.AreSemicolons ws)
    (P := fun _ c ws => Word.AreSemicolons ws ∧ c.front.token ≠ .semicolon) ?_ he nofun h
  intro u ws c₁ x c₂ he hws h
  obtain ⟨o, c₃, h₃, h⟩ := bind_ok h
  rcases got?_run he (by decide) h₃ with ⟨l, hl, rfl, run₃⟩ | ⟨hne, rfl, rfl⟩
  · obtain ⟨rfl, rfl⟩ := pure_ok h
    refine ⟨_, run₃, List.forall_mem_append.mpr ⟨hws, ?_⟩⟩
    exact List.forall_mem_singleton.mpr ⟨l, hl, rfl⟩
  · obtain ⟨rfl, rfl⟩ := pure_ok h
    exact ⟨[], .refl _, by simpa using hws, hne⟩

/-! ### Bodies -/

/-- Whether a body is spelled by words that the cursor goes over. -/
inductive Body.Spelled (d : Dialect) (groups : List CommentGroup) (c : Cursor) : Body → Prop where
  | empty : Spelled d groups c .empty
  | expr {ws : List Word} {x : Tree} {c' : Cursor} (run : Run groups c ws c')
      (h : Derives d .expr ws x) : Spelled d groups c (.expr x)
  | stmts {ws : List Word} {ts : List Tree} {c' : Cursor} (run : Run groups c ws c')
      (h : Derives d (.lines .stmt) ws (.list ts)) : Spelled d groups c (.stmts ts)
  | decls {ws : List Word} {ts : List Tree} {c' : Cursor} (run : Run groups c ws c')
      (h : Derives d (.lines .decl) ws (.list ts)) : Spelled d groups c (.decls ts)

/-- Whether there are items in a body of statements or declarations. -/
def Body.IsFilled : Body → Prop
  | .stmts ts | .decls ts => ts ≠ []
  | _ => True

/-- Lines from the first token of an item to the end of the text have an item. -/
theorem Run.ne_nil_of_lines {d : Dialect} {groups : List CommentGroup} {c c' : Cursor} {s : Phrase}
    {ws : List Word} {ts : List Tree} (run : Run groups c ws c')
    (hsemi : c.front.token ≠ .semicolon) (hstart : c.front.token ≠ .eof)
    (hend : c'.front.token = .eof) (h : Derives d (.lines s) ws (.list ts)) : ts ≠ [] := by
  rintro rfl
  have hwords := h.areSemicolons
  cases run with
  | refl => exact hstart hend
  | lexeme =>
    obtain ⟨l, hl, heq⟩ := hwords _ List.mem_cons_self
    cases heq
    exact hsemi hl
  | doc =>
    obtain ⟨l, -, heq⟩ := hwords _ List.mem_cons_self
    cases heq

/-- Whether a fragment is spelled by words that the cursor goes over. -/
structure Fragment.Spelled (d : Dialect) (groups : List CommentGroup) (c : Cursor) (f : Fragment) :
    Prop where
  package : ∀ x ∈ f.package, ∃ p name, x.2 = .ident p name
  /-- The words of the imports, and behind them those of the body. -/
  words : ∃ vs ws c₁ c₂, Run groups c vs c₁ ∧ Run groups c₁ ws c₂ ∧
    Derives d (.lines .decl) ws (.list f.imports) ∧ f.body.Spelled d groups c₂

namespace Fragment.Spelled

variable {d : Dialect} {groups : List CommentGroup} {c : Cursor} {f : Fragment}

theorem imports (h : f.Spelled d groups c) :
    ∃ ws, (∀ g, .doc g ∈ ws → g ∈ groups) ∧ Derives d (.lines .decl) ws (.list f.imports) := by
  obtain ⟨_, ws, _, _, -, run, himports, -⟩ := h.words
  exact ⟨ws, fun g hg => run.mem_groups hg, himports⟩

theorem body (h : f.Spelled d groups c) :
    ∃ ws c', Run groups c ws c' ∧ f.body.Spelled d groups c' := by
  obtain ⟨_, _, _, c', run₁, run₂, -, hbody⟩ := h.words
  exact ⟨_, c', run₁.trans run₂, hbody⟩

end Fragment.Spelled

namespace Rules

open Reader

/-- Whichever reading succeeds first is one of the readings. -/
theorem firstOf_ok {α : Type} {worst : Option ParseError} {rs : List (Reader α)} {ctx : Context}
    {c c' : Cursor} {a : α} (h : Gives (firstOf worst rs) ctx c a c') :
    ∃ r ∈ rs, Gives r ctx c a c' := by
  induction rs generalizing worst with
  | nil =>
    cases worst with
    | none => exact absurd h unexpected_ok
    | some e => cases h
  | cons r rs ih =>
    cases hr : r ctx c with
    | ok x =>
      unfold Gives firstOf at h
      rw [hr] at h
      exact ⟨r, List.mem_cons_self, hr.trans h⟩
    | error e =>
      unfold Gives firstOf at h
      rw [hr] at h
      obtain ⟨r', hr', h'⟩ := ih h
      exact ⟨r', List.mem_cons_of_mem _ hr', h'⟩

namespace Sound

variable {r : Rules} {ctx : Context} {c c' : Cursor} {b : Body}

theorem exprBody_run (hr : r.Sound) (he : Ended c.rest) (h : Gives r.exprBody ctx c b c') :
    b.Spelled ctx.dialect ctx.groups c ∧ b.IsFilled := by
  obtain ⟨x, c₁, h₁, h⟩ := bind_ok h
  obtain ⟨ws, run, hx⟩ := hr.expr_reads he h₁
  obtain ⟨u, c₂, h₂, h⟩ := bind_ok h
  obtain ⟨tok, c₃, h₃, h⟩ := bind_ok h
  split at h
  · obtain ⟨rfl, -⟩ := pure_ok h
    exact ⟨.expr run hx, trivial⟩
  · exact absurd h unexpected_ok

theorem stmtsBody_run (hr : r.Sound) (he : Ended c.rest) (hsemi : c.front.token ≠ .semicolon)
    (hstart : c.front.token ≠ .eof) (h : Gives r.stmtsBody ctx c b c') :
    b.Spelled ctx.dialect ctx.groups c ∧ b.IsFilled := by
  obtain ⟨xs, c₁, h₁, h⟩ := bind_ok h
  obtain ⟨ws, run, hxs⟩ := hr.stmts_run he h₁
  obtain ⟨tok, c₂, h₂, h⟩ := bind_ok h
  obtain ⟨rfl, rfl⟩ := token_ok h₂
  split at h
  · rename_i hend
    obtain ⟨rfl, -⟩ := pure_ok h
    exact ⟨.stmts run hxs, run.ne_nil_of_lines hsemi hstart (beq_iff_eq.mp hend) hxs⟩
  · exact absurd h unexpected_ok

/-- The same as for a file, but more than one semicolon may stand behind each declaration. -/
theorem declsThenSemicolons_run {go : Token → Bool} {decl : Rules → Reader Tree} {ds : List Tree}
    (he : Ended c.rest) (hsemi : c.front.token ≠ .semicolon)
    (hdecl : ∀ {c t c'}, Ended c.rest → go c.front.token = true → Gives (decl r) ctx c t c' →
      ∃ ws ws', Run ctx.groups c (ws ++ ws') c' ∧ Word.AreSemicolons ws' ∧
      c'.front.token ≠ .semicolon ∧
        Derives ctx.dialect .decl ws t)
    (h : Gives (r.declsWhile go decl []) ctx c ds c') :
    ∃ ws, Run ctx.groups c ws c' ∧ Derives ctx.dialect (.lines .decl) ws (.list ds) ∧
      c'.front.token ≠ .semicolon ∧ go c'.front.token = false := by
  refine iterate_run (w := [])
    (I := fun ds c ws => Derives ctx.dialect (.lines .decl) ws (.list ds) ∧
      c.front.token ≠ .semicolon)
    (P := fun ds c ws => Derives ctx.dialect (.lines .decl) ws (.list ds) ∧
      c.front.token ≠ .semicolon ∧ go c.front.token = false) ?_ he ⟨.linesNil _, hsemi⟩ h
  rintro ds ws c₁ x c₂ he ⟨hds, hsemi⟩ h
  obtain ⟨tok, c₃, h₃, h⟩ := bind_ok h
  obtain ⟨rfl, rfl⟩ := token_ok h₃
  split at h
  · rename_i hgo
    obtain ⟨y, c₄, h₄, h⟩ := bind_ok h
    obtain ⟨ws₄, ws₅, run₄, hend, hsemi₄, hy⟩ := hdecl he hgo h₄
    obtain ⟨rfl, rfl⟩ := pure_ok h
    refine ⟨_, run₄, ?_⟩
    simp only [Sum.elim_inl]
    rw [← List.append_assoc]
    exact ⟨.linesSemicolons (.linesItem rfl hds hy) hend, hsemi₄⟩
  · rename_i hstop
    obtain ⟨rfl, rfl⟩ := pure_ok h
    exact ⟨[], .refl _, by simpa using hds, hsemi, Bool.eq_false_iff.mpr hstop⟩

theorem thenSemicolons_run {decl : Reader Tree} {t : Tree} (he : Ended c.rest)
    (hdecl : ∀ {c₁}, Gives decl ctx c t c₁ →
      ∃ ws ws', Run ctx.groups c (ws ++ ws') c₁ ∧ IsEnd ws' ∧ Derives ctx.dialect .decl ws t)
    (h : Gives (do
      let d ← decl
      skipSemicolons
      return d) ctx c t c') :
    ∃ ws ws', Run ctx.groups c (ws ++ ws') c' ∧ Word.AreSemicolons ws' ∧
      c'.front.token ≠ .semicolon ∧
      Derives ctx.dialect .decl ws t := by
  obtain ⟨x, c₁, h₁, h⟩ := bind_ok h
  obtain ⟨u, c₂, h₂, h⟩ := bind_ok h
  obtain ⟨rfl, rfl⟩ := pure_ok h
  obtain ⟨ws, ws₁, run₁, hend, hx⟩ := hdecl h₁
  obtain ⟨ws₂, run₂, hsemis, hsemi⟩ := skipSemicolons_run (run₁.ended he) h₂
  refine ⟨ws, ws₁ ++ ws₂, ?_, List.forall_mem_append.mpr ⟨hend.areSemicolons, hsemis⟩, hsemi, hx⟩
  rw [← List.append_assoc]
  exact run₁.trans run₂

theorem declsBody_run (hr : r.Sound) (he : Ended c.rest) (hsemi : c.front.token ≠ .semicolon)
    (hstart : c.front.token ≠ .eof) (h : Gives r.declsBody ctx c b c') :
    b.Spelled ctx.dialect ctx.groups c ∧ b.IsFilled := by
  obtain ⟨ds, c₁, h₁, h⟩ := bind_ok h
  obtain ⟨ws, run, hds, -, hend⟩ := declsThenSemicolons_run he hsemi
    (fun he _ h => thenSemicolons_run he (fun h => hr.decl_run he h) h) h₁
  obtain ⟨rfl, -⟩ := pure_ok h
  exact ⟨.decls run hds, run.ne_nil_of_lines hsemi hstart (by simpa using hend) hds⟩

theorem body_run (hr : r.Sound) (he : Ended c.rest) (hsemi : c.front.token ≠ .semicolon)
    (h : Gives r.body ctx c b c') : b.Spelled ctx.dialect ctx.groups c ∧ b.IsFilled := by
  have readings {rs : List (Reader Body)} (hstart : c.front.token ≠ .eof)
      (hrs : ∀ q ∈ rs, q = r.exprBody ∨ q = r.stmtsBody ∨ q = r.declsBody)
      (h : Gives (firstOf none rs) ctx c b c') : b.Spelled ctx.dialect ctx.groups c ∧
      b.IsFilled := by
    obtain ⟨q, hq, h⟩ := firstOf_ok h
    rcases hrs q hq with rfl | rfl | rfl
    · exact hr.exprBody_run he h
    · exact hr.stmtsBody_run he hsemi hstart h
    · exact hr.declsBody_run he hsemi hstart h
  obtain ⟨tok, c₁, h₁, h⟩ := bind_ok h
  obtain ⟨rfl, rfl⟩ := token_ok h₁
  split at h
  · obtain ⟨rfl, -⟩ := pure_ok h
    exact ⟨.empty, trivial⟩
  · rename_i hstart
    have hstart : c.front.token ≠ .eof := fun heq => hstart (beq_iff_eq.mpr heq)
    obtain ⟨next, c₂, h₂, h⟩ := bind_ok h
    obtain ⟨-, rfl⟩ := following_ok h₂
    split at h
    · exact readings hstart (by simp) h
    · exact readings hstart (by simp) h

theorem packageClause_run {o : Option (Pos × Tree)} (he : Ended c.rest)
    (h : Gives packageClause ctx c o c') :
    ∃ ws, Run ctx.groups c ws c' ∧ ∀ x ∈ o, ∃ p name, x.2 = .ident p name := by
  obtain ⟨p, c₁, h₁, h⟩ := bind_ok h
  rcases got?_run he (by decide) h₁ with ⟨l, -, rfl, run₁⟩ | ⟨-, rfl, rfl⟩
  · obtain ⟨name, c₂, h₂, h⟩ := bind_ok h
    obtain ⟨ws₂, run₂, hname⟩ := ident_reads (run₁.ended he) h₂
    obtain ⟨u, c₃, h₃, h⟩ := bind_ok h
    obtain ⟨ws₃, -, run₃⟩ := endStatement_run (run₂.ended (run₁.ended he)) h₃
    obtain ⟨rfl, rfl⟩ := pure_ok h
    refine ⟨_, run₁.trans (run₂.trans run₃), ?_⟩
    rintro x ⟨⟩
    cases hname with
    | ident => exact ⟨_, _, rfl⟩
    | cover hc => cases hc
    | node hrow => cases hrow
  · obtain ⟨rfl, rfl⟩ := pure_ok h
    exact ⟨[], .refl _, nofun⟩

theorem fragment_run {f : Fragment} (hr : r.Sound) (he : Ended c.rest)
    (h : Gives r.fragment ctx c f c') : f.Spelled ctx.dialect ctx.groups c ∧ f.body.IsFilled := by
  obtain ⟨u, c₁, h₁, h⟩ := bind_ok h
  obtain ⟨ws₁, run₁, -, -⟩ := skipSemicolons_run he h₁
  have he₁ := run₁.ended he
  obtain ⟨package, c₂, h₂, h⟩ := bind_ok h
  obtain ⟨ws₂, run₂, hpackage⟩ := packageClause_run he₁ h₂
  have he₂ := run₂.ended he₁
  obtain ⟨u, c₃, h₃, h⟩ := bind_ok h
  obtain ⟨ws₃, run₃, -, hsemi₃⟩ := skipSemicolons_run he₂ h₃
  obtain ⟨imports, c₄, h₄, h⟩ := bind_ok h
  obtain ⟨ws₄, run₄, himports, hsemi₄, -⟩ := declsThenSemicolons_run (run₃.ended he₂) hsemi₃
    (fun he hgo h => thenSemicolons_run he
      (fun h => hr.genDecl_run he (by rw [beq_iff_eq.mp hgo]; decide) h) h) h₄
  obtain ⟨b, c₅, h₅, h⟩ := bind_ok h
  obtain ⟨rfl, -⟩ := pure_ok h
  obtain ⟨hbody, hfilled⟩ := hr.body_run (run₄.ended (run₃.ended he₂)) hsemi₄ h₅
  exact ⟨⟨hpackage, _, _, c₃, c₄, run₁.trans (run₂.trans run₃), run₄, himports, hbody⟩, hfilled⟩

end Sound

end Rules

theorem exists_filled_of_parseFragment {d : Dialect} {cs : List Char} {f : Fragment}
    (h : parseFragment d cs = .ok f) :
    ∃ scan groups, Scan.ofText d cs = .ok scan ∧ CommentGroup.Groups scan.comments groups ∧
      f.Spelled d groups ⟨scan.lexemes, none⟩ ∧ f.body.IsFilled := by
  obtain ⟨scan, hscan, h⟩ := exists_of_bind_ok h
  obtain ⟨⟨f', c'⟩, hf, h⟩ := exists_of_bind_ok h
  cases h
  obtain ⟨ps, hsplits, hscans⟩ := Scan.scans_of_ofText hscan
  exact ⟨scan, _, hscan, CommentGroup.groups_group _ _,
    (Rules.upTo_sound _).fragment_run (hscans.ended hsplits.allSpelled) hf⟩

/-- **A fragment is spelled by words of its text.** -/
theorem exists_of_parseFragment {d : Dialect} {cs : List Char} {f : Fragment}
    (h : parseFragment d cs = .ok f) :
    ∃ scan groups, Scan.ofText d cs = .ok scan ∧ CommentGroup.Groups scan.comments groups ∧
      f.Spelled d groups ⟨scan.lexemes, none⟩ := by
  obtain ⟨scan, groups, hscan, hgroups, hspelled, -⟩ := exists_filled_of_parseFragment h
  exact ⟨scan, groups, hscan, hgroups, hspelled⟩

/-- Statements and declarations of a fragment are never none. -/
theorem filled_of_parseFragment {d : Dialect} {cs : List Char} {f : Fragment}
    (h : parseFragment d cs = .ok f) : f.body.IsFilled := by
  obtain ⟨-, -, -, -, -, hfilled⟩ := exists_filled_of_parseFragment h
  exact hfilled

namespace Body

/-- The trees of a body. -/
def trees : Body → List Tree
  | empty => []
  | expr x => [x]
  | stmts ts | decls ts => ts

variable {d : Dialect} {groups : List CommentGroup} {c : Cursor} {b : Body}

/-- The trees of a body are read as a list. -/
theorem Spelled.exists_words (h : b.Spelled d groups c) :
    ∃ s ws c', Run groups c ws c' ∧ s.isProper = true ∧ Derives d s ws (.list b.trees) := by
  cases h with
  | empty => exact ⟨_, [], c, .refl c, rfl, .linesNil .stmt⟩
  | expr run h => exact ⟨_, _, _, run, rfl, .one rfl h⟩
  | stmts run h => exact ⟨_, _, _, run, rfl, h⟩
  | decls run h => exact ⟨_, _, _, run, rfl, h⟩

/-- The nodes of a body that was read have all their fields. -/
theorem Spelled.full {comments : List Comment} (h : b.Spelled d groups c)
    (hgroups : CommentGroup.Groups comments groups) : ∀ t ∈ b.trees, t.Full := by
  obtain ⟨s, ws, c', run, hs, h⟩ := h.exists_words
  have hfull := h.full (Phrase.isBare_of_isProper hs) fun g hg => by
    obtain ⟨ds, lastLine, -, -, rfl⟩ := hgroups.exists_comments (run.mem_groups hg)
    exact CommentGroup.full_ofComments ds lastLine
  rw [Tree.Full, Tree.nodes_list] at hfull
  exact Tree.forall_nodesAll.mp hfull

end Body

end Graft
