import Graft.Proofs.Grammar.ReadStmt

/-! # The grammar reads what it derives

The rules of every depth are sound (`Rules.upTo_sound`), and so a file that is read is spelled by
all of its lexemes: by the package clause and by declarations with the ends of their statements, up
to the end of the text (`Rules.Sound.file_run`).
-/

namespace Graft

namespace Rules

open Reader

theorem stuck_sound : stuck.Sound := by
  have no {α : Type} {ctx : Context} {c c' : Cursor} {a : α} :
      ¬ Gives (do refuse (← position) .tooDeep) ctx c a c' := by
    intro h
    obtain ⟨p, c₁, -, h⟩ := bind_ok h
    exact refuse_ok h
  exact {
    type := fun _ _ _ _ _ h => absurd h no
    unary := fun _ _ _ _ _ h => absurd h no
    binary := fun _ _ _ _ _ _ _ h => absurd h no
    composite := fun _ _ _ _ _ _ h => absurd h no
    block := fun _ _ _ _ _ h => absurd h no
    ifStmt := fun _ _ _ _ _ h => absurd h no
    stmt := fun _ _ _ _ _ h => absurd h no }

/-- Productions over sound productions are sound. -/
theorem Sound.step {r : Rules} (hr : r.Sound) : r.step.Sound where
  type _ _ _ _ he h := hr.typeStep_run he h
  unary := hr.unaryStep_reads
  binary _ hn _ _ _ _ he h := hr.binaryStep_run hn he h
  composite _ _ _ _ _ he h := hr.compositeStep_run he h
  block := hr.blockStep_reads
  ifStmt := hr.ifStep_reads
  stmt := hr.stmtStep_reads

/-- **The productions answer with what they consume**, however deeply they call each other. -/
theorem upTo_sound (n : Nat) : (upTo n).Sound := by
  induction n with
  | zero => exact stuck_sound
  | succ n ih => exact ih.step

/-! ### Declarations of a file -/

namespace Sound

variable {r : Rules} {ctx : Context} {c c' : Cursor} {t : Tree}

theorem genDecl_run (hr : r.Sound) (he : Ended c.rest) (hf : c.front.token ∈ Token.declarers)
    (h : Gives r.genDecl ctx c t c') :
    ∃ ws ws', Run ctx.groups c (ws ++ ws') c' ∧ IsEnd ws' ∧ Derives ctx.dialect .decl ws t := by
  obtain ⟨p, c₁, h₁, h⟩ := bind_ok h
  obtain ⟨rfl, rfl⟩ := position_ok h₁
  obtain ⟨doc, c₂, h₂, h⟩ := bind_ok h
  obtain ⟨ws₂, rfl, run₂, hdoc⟩ := docFor_run h₂
  obtain ⟨x, c₃, h₃, h⟩ := bind_ok h
  obtain ⟨ws₃, run₃, hx⟩ := hr.declaration_run he hf hdoc h₃
  obtain ⟨u, c₄, h₄, h⟩ := bind_ok h
  obtain ⟨ws₄, hend, run₄⟩ := endStatement_run (run₃.ended he) h₄
  obtain ⟨rfl, rfl⟩ := pure_ok h
  exact ⟨_, _, (run₂.trans run₃).trans run₄, hend, .cover .declDeclaration hx⟩

theorem funcDecl_run (hr : r.Sound) (he : Ended c.rest) (h : Gives r.funcDecl ctx c t c') :
    ∃ ws ws', Run ctx.groups c (ws ++ ws') c' ∧ IsEnd ws' ∧ Derives ctx.dialect .decl ws t := by
  obtain ⟨p, c₁, h₁, h⟩ := bind_ok h
  obtain ⟨rfl, rfl⟩ := position_ok h₁
  obtain ⟨doc, c₂, h₂, h⟩ := bind_ok h
  obtain ⟨ws₂, rfl, run₂, hdoc⟩ := docFor_run h₂
  obtain ⟨q, c₃, h₃, h⟩ := bind_ok h
  obtain ⟨l, hl, rfl, run₃⟩ := expect_run he (by decide) h₃
  have he₃ := run₃.ended he
  obtain ⟨tok, c₄, h₄, h⟩ := bind_ok h
  obtain ⟨rfl, rfl⟩ := token_ok h₄
  extract_lets jp at h
  obtain ⟨recv, c₅, ws₅, run₅, hrecv, h⟩ : ∃ recv c₅ ws₅, Run ctx.groups c₃ ws₅ c₅ ∧
      Derives ctx.dialect (.opt .params) ws₅ recv ∧ Gives (jp recv) ctx c₅ t c' := by
    split at h
    · obtain ⟨x, c₅, h₅, h⟩ := bind_ok h
      obtain ⟨ws₅, run₅, hx⟩ := hr.params_reads he₃ h₅
      exact ⟨_, _, _, run₅, .cover (.opt _) hx, h⟩
    · obtain ⟨x, c₅, h₅, h⟩ := bind_ok h
      obtain ⟨rfl, rfl⟩ := pure_ok h₅
      exact ⟨_, _, _, .refl _, .none _, h⟩
  have he₅ := run₅.ended he₃
  obtain ⟨name, c₆, h₆, h⟩ := bind_ok h
  obtain ⟨ws₆, run₆, hname⟩ := ident_reads he₅ h₆
  have he₆ := run₆.ended he₅
  obtain ⟨⟨params, results⟩, c₇, h₇, h⟩ := bind_ok h
  obtain ⟨ws₇, run₇, hsig⟩ := hr.signature_run he₆ h₇
  have he₇ := run₇.ended he₆
  obtain ⟨tok, c₈, h₈, h⟩ := bind_ok h
  obtain ⟨rfl, rfl⟩ := token_ok h₈
  extract_lets type jp at h
  obtain ⟨body, c₉, ws₉, run₉, hbody, h⟩ : ∃ body c₉ ws₉, Run ctx.groups c₇ ws₉ c₉ ∧
      Derives ctx.dialect (.opt .block) ws₉ body ∧ Gives (jp body) ctx c₉ t c' := by
    split at h
    · obtain ⟨x, c₉, h₉, h⟩ := bind_ok h
      obtain ⟨ws₉, run₉, hx⟩ := hr.block he₇ h₉
      exact ⟨_, _, _, run₉, .cover (.opt _) hx, h⟩
    · obtain ⟨x, c₉, h₉, h⟩ := bind_ok h
      obtain ⟨rfl, rfl⟩ := pure_ok h₉
      exact ⟨_, _, _, .refl _, .none _, h⟩
  obtain ⟨u, c₁₀, h₁₀, h⟩ := bind_ok h
  obtain ⟨ws₁₀, hend, run₁₀⟩ := endStatement_run (run₉.ended he₇) h₁₀
  obtain ⟨rfl, rfl⟩ := pure_ok h
  exact ⟨_, _, (run₂.trans (run₃.cons (run₅.trans (run₆.trans (run₇.trans run₉))))).trans run₁₀,
    hend, .node .funcDecl (.sub hdoc (.mark hl (.sub hrecv (.sub hname
      (.sub (.node .signature (.const hsig)) hbody.lastSub)))))⟩

theorem decl_run (hr : r.Sound) (he : Ended c.rest) (h : Gives r.decl ctx c t c') :
    ∃ ws ws', Run ctx.groups c (ws ++ ws') c' ∧ IsEnd ws' ∧ Derives ctx.dialect .decl ws t := by
  obtain ⟨tok, c₁, h₁, h⟩ := bind_ok h
  obtain ⟨rfl, rfl⟩ := token_ok h₁
  split at h
  case h_1 hf | h_2 hf | h_3 hf | h_4 hf => exact hr.genDecl_run he (by rw [hf]; decide) h
  case h_5 => exact hr.funcDecl_run he h
  case h_6 =>
    obtain ⟨b, c₂, h₂, h⟩ := bind_ok h
    obtain ⟨rfl, rfl⟩ := atDots_ok h₂
    split at h
    · rename_i hcond
      simp only [Bool.and_eq_true, beq_iff_eq] at hcond
      obtain ⟨x, c₃, h₃, h⟩ := bind_ok h
      obtain ⟨ws₃, run₃, hx⟩ := dots_run he hcond.1 hcond.2 h₃
      obtain ⟨u, c₄, h₄, h⟩ := bind_ok h
      obtain ⟨ws₄, hend, run₄⟩ := endStatement_run (run₃.ended he) h₄
      obtain ⟨rfl, rfl⟩ := pure_ok h
      exact ⟨_, _, run₃.trans run₄, hend, .cover .declDots hx⟩
    · exact absurd h unexpected_ok

/-- Declarations are read until the token in front says that no more follow. -/
theorem declsWhile_run {go : Token → Bool} {decl : Rules → Reader Tree} {ds ds' : List Tree}
    {ws : List Word} (he : Ended c.rest)
    (hdecl : ∀ {c t c'}, Ended c.rest → go c.front.token = true → Gives (decl r) ctx c t c' →
      ∃ ws ws', Run ctx.groups c (ws ++ ws') c' ∧ IsEnd ws' ∧ Derives ctx.dialect .decl ws t)
    (hds : Derives ctx.dialect (.lines .decl) ws (.list ds))
    (h : Gives (r.declsWhile go decl ds) ctx c ds' c') :
    ∃ ws', Run ctx.groups c ws' c' ∧ Derives ctx.dialect (.lines .decl) (ws ++ ws') (.list ds') ∧
      go c'.front.token = false := by
  refine iterate_run
    (I := fun ds _ ws => Derives ctx.dialect (.lines .decl) ws (.list ds))
    (P := fun ds c ws => Derives ctx.dialect (.lines .decl) ws (.list ds) ∧
      go c.front.token = false) ?_ he hds h
  intro ds ws c₁ x c₂ he hds h
  obtain ⟨tok, c₃, h₃, h⟩ := bind_ok h
  obtain ⟨rfl, rfl⟩ := token_ok h₃
  split at h
  · rename_i hgo
    obtain ⟨y, c₄, h₄, h⟩ := bind_ok h
    obtain ⟨ws₄, ws₅, run₄, hend, hy⟩ := hdecl he hgo h₄
    obtain ⟨rfl, rfl⟩ := pure_ok h
    refine ⟨_, run₄, ?_⟩
    simp only [Sum.elim_inl]
    rw [← List.append_assoc]
    exact .linesEnd? (.linesItem rfl hds hy) hend
  · rename_i hgo
    obtain ⟨rfl, rfl⟩ := pure_ok h
    exact ⟨[], .refl _, by simpa using hds, by simpa using hgo⟩

end Sound

end Rules

/-- The words of a file, and the trees that they spell. -/
structure FileWords (d : Dialect) where
  docWords : List Word
  doc : Tree
  doc_derives : Derives d .doc docWords doc
  package : Lexeme
  package_token : package.token = .kwPackage
  nameWords : List Word
  name : Tree
  name_derives : Derives d .ident nameWords name
  /-- The end of the package clause. -/
  endWords : List Word
  end_isEnd : Reader.IsEnd endWords
  declWords : List Word
  decls : List Tree
  decls_derive : Derives d (.lines .decl) declWords (.list decls)

namespace FileWords

variable {d : Dialect}

/-- All words of a file in order. -/
def words (f : FileWords d) : List Word :=
  f.docWords ++ .lexeme f.package :: (f.nameWords ++ (f.endWords ++ f.declWords))

/-- The file with the given comments. -/
def file (f : FileWords d) (comments : List Tree) : Node :=
  ⟨.file, [f.doc, .pos f.package.pos, f.name, .list f.decls, .list comments]⟩

end FileWords

open Rules Reader in
/-- **A file is spelled by everything up to the end of the text.** -/
theorem Rules.Sound.file_run {r : Rules} {ctx : Context} {c c' : Cursor} {file : Node}
    (hr : r.Sound) (he : Ended c.rest) (h : Reader.Gives r.file ctx c file c') :
    ∃ f : FileWords ctx.dialect, Run ctx.groups c f.words c' ∧ c'.front.token = .eof ∧
      file = f.file (ctx.groups.map (·.tree)) := by
  obtain ⟨p, c₁, h₁, h⟩ := bind_ok h
  obtain ⟨rfl, rfl⟩ := position_ok h₁
  obtain ⟨doc, c₂, h₂, h⟩ := bind_ok h
  obtain ⟨ws₂, rfl, run₂, hdoc⟩ := docFor_run h₂
  obtain ⟨q, c₃, h₃, h⟩ := bind_ok h
  obtain ⟨l, hl, rfl, run₃⟩ := expect_run he (by decide) h₃
  have he₃ := run₃.ended he
  obtain ⟨name, c₄, h₄, h⟩ := bind_ok h
  obtain ⟨ws₄, run₄, hname⟩ := ident_reads he₃ h₄
  have he₄ := run₄.ended he₃
  obtain ⟨u, c₅, h₅, h⟩ := bind_ok h
  obtain ⟨ws₅, hend, run₅⟩ := endStatement_run he₄ h₅
  have he₅ := run₅.ended he₄
  obtain ⟨imports, c₆, h₆, h⟩ := bind_ok h
  obtain ⟨ws₆, run₆, himports, -⟩ := Sound.declsWhile_run he₅
    (fun he hgo h => hr.genDecl_run he (by rw [beq_iff_eq.mp hgo]; decide) h) (.linesNil _) h₆
  obtain ⟨decls, c₇, h₇, h⟩ := bind_ok h
  obtain ⟨ws₇, run₇, hdecls, hstop⟩ := Sound.declsWhile_run (run₆.ended he₅)
    (fun he _ h => hr.decl_run he h) himports h₇
  obtain ⟨ctx', c₈, h₈, h⟩ := bind_ok h
  cases h₈
  obtain ⟨rfl, rfl⟩ := pure_ok h
  let f : FileWords ctx.dialect :=
    ⟨_, _, hdoc, _, hl, _, _, hname, _, hend, _, _, hdecls⟩
  exact ⟨f, run₂.trans (run₃.cons (run₄.trans (run₅.trans (run₆.trans run₇)))),
    by simpa using hstop, rfl⟩

end Graft
