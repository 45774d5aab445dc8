import Graft.Proofs.Grammar.Places
import Graft.Proofs.Grammar.ReadType

/-! # The productions for expressions read expressions

What follows an operand — a selector, an index, a call, a literal — is read after it, so the lemmas
about these productions take the words of the operand as given and add their own behind.

Binary operators are read in a loop whose invariant is about the operator in front: what has been
read so far binds at least as tightly as that operator, because the right operand before it was read
as far as it binds.
-/

namespace Graft

/-- An expression that binds tightly binds loosely. -/
theorem Derives.binary_mono {d : Dialect} {m n : Nat} {ws : List Word} {t : Tree}
    (h : Derives d (.binary m) ws t) (hle : n ≤ m) : Derives d (.binary n) ws t := by
  cases h with
  | cover hc hs =>
    cases hc
    exact .cover (.binary n) hs
  | node hr hp =>
    cases hr with
    | binary hm hop => exact .node (.binary (Nat.le_trans hle hm) hop) hp

/-- Arguments with more words behind them, and with what those record. -/
theorem IsSpread.append {vs ws : List Word} {xs ys : List Tree} {p : Pos} (h : IsSpread vs xs p)
    (hys : (Tree.positionsAll ys).Subperm (Word.positionsAll ws)) :
    IsSpread (vs ++ ws) (xs ++ ys) p := by
  rcases h with rfl | ⟨l, hl, ht, rfl, hp⟩
  · exact .inl rfl
  · refine .inr ⟨l, List.mem_append_left _ hl, ht, rfl, ?_⟩
    rw [Tree.positionsAll_append, Word.positionsAll_append]
    exact hp.append hys

/-- Dots behind the last argument. -/
theorem IsSpread.last {vs : List Word} {xs : List Tree} {l : Lexeme} (hl : l.token = .ellipsis)
    (hxs : (Tree.positionsAll xs).Subperm (Word.positionsAll vs)) :
    IsSpread (vs ++ [.lexeme l]) xs l.pos := by
  refine .inr ⟨l, by simp, hl, rfl, ?_⟩
  rw [Word.positionsAll_append]
  exact ((List.subperm_cons l.pos).mpr hxs).trans (List.perm_append_singleton l.pos _).symm.subperm

namespace Reader

variable {ctx : Context} {c c' : Cursor}

/-- Behind a line end that was skipped before a closing token there is none to skip. -/
theorem skipLineEnd_again {close : Token} {ws : List Word} {u : Unit} (he : Ended c.rest)
    (hc : close ≠ .semicolon) (hws : IsEnd ws) (hf : ws ≠ [] → c.front.token = close)
    (h : Gives (skipLineEnd close) ctx c u c') :
    ∃ ws', Run ctx.groups c ws' c' ∧ IsEnd (ws ++ ws') := by
  obtain ⟨ws', hend, run, hcase⟩ := skipLineEnd_run he h
  refine ⟨ws', run, ?_⟩
  rcases hws with rfl | ⟨l, hl, rfl⟩
  · exact hend
  · have hfront := hf (List.cons_ne_nil _ _)
    rcases hcase with ⟨rfl, -⟩ | ⟨-, hsemi⟩
    · exact .inr ⟨l, hl, rfl⟩
    · exact absurd (hfront.symm.trans hsemi) hc

end Reader

namespace Rules.Sound

open Reader

variable {r : Rules} {ctx : Context} {c c' : Cursor}

theorem exprList_run (hr : r.Sound) {ts : List Tree} (he : Ended c.rest)
    (h : Gives r.exprList ctx c ts c') :
    ∃ ws, Run ctx.groups c ws c' ∧ Derives ctx.dialect (.more .expr) ws (.list ts) :=
  commaList_run rfl hr.expr_reads he h

theorem exprOrType_reads (hr : r.Sound) : Reads .expr r.exprOrType := by
  intro ctx c t c' he h
  obtain ⟨tok, c₁, h₁, h⟩ := bind_ok h
  obtain ⟨rfl, rfl⟩ := token_ok h₁
  split at h
  · exact (hr.unary.cover (.binary 1)) he h
  · exact hr.expr_reads he h

theorem isLiteralType_ok {x : Tree} {b : Bool} (h : Gives (isLiteralType x) ctx c b c') :
    c = c' := by
  unfold isLiteralType at h
  split at h
  case h_1 | h_2 =>
    obtain ⟨k, c₁, h₁, h⟩ := bind_ok h
    cases h₁
    exact (pure_ok h).2
  case h_3 | h_4 | h_5 | h_6 => exact (pure_ok h).2

/-! ### Operands -/

theorem paren_run (hr : r.Sound) {t : Tree} (he : Ended c.rest) (hf : c.front.token = .lparen)
    (h : Gives r.paren ctx c t c') :
    ∃ ws, Run ctx.groups c ws c' ∧ Derives ctx.dialect .operand ws t := by
  obtain ⟨p, c₁, h₁, h⟩ := bind_ok h
  obtain ⟨rfl, run₁⟩ := take_run he (by rw [hf]; decide) h₁
  have he₁ := run₁.ended he
  obtain ⟨x, c₂, h₂, h⟩ := bind_ok h
  obtain ⟨ws₂, run₂, hx⟩ := hr.exprOrType_reads.withLiterals true he₁ h₂
  have he₂ := run₂.ended he₁
  obtain ⟨u, c₃, h₃, h⟩ := bind_ok h
  obtain ⟨ws₃, hend, run₃, -⟩ := skipLineEnd_run he₂ h₃
  obtain ⟨q, c₄, h₄, h⟩ := bind_ok h
  obtain ⟨l, hl, rfl, run₄⟩ := expect_run (run₃.ended he₂) (by decide) h₄
  obtain ⟨rfl, rfl⟩ := pure_ok h
  exact ⟨_, run₁.cons (run₂.trans (run₃.trans run₄)),
    .node .paren (.mark hf (.sub hx (.lineEnd? hend (.mark hl .partsNil))))⟩

theorem funcOperand_run (hr : r.Sound) {t : Tree} (he : Ended c.rest)
    (hf : c.front.token = .kwFunc) (h : Gives r.funcOperand ctx c t c') :
    ∃ ws, Run ctx.groups c ws c' ∧ Derives ctx.dialect .operand ws t := by
  obtain ⟨x, c₁, h₁, h⟩ := bind_ok h
  obtain ⟨ws₁, run₁, hx⟩ := hr.type he h₁
  rw [hf] at hx
  obtain ⟨tok, c₂, h₂, h⟩ := bind_ok h
  obtain ⟨rfl, rfl⟩ := token_ok h₂
  split at h
  · obtain ⟨y, c₃, h₃, h⟩ := bind_ok h
    obtain ⟨ws₃, run₃, hy⟩ := hr.block.withLiterals true (run₁.ended he) h₃
    obtain ⟨rfl, rfl⟩ := pure_ok h
    exact ⟨_, run₁.trans run₃, .node .funcLit (.sub hx hy.lastSub)⟩
  · obtain ⟨rfl, rfl⟩ := pure_ok h
    exact ⟨_, run₁, .cover .operandFunc hx⟩

theorem operand_reads (hr : r.Sound) : Reads .operand r.operand := by
  intro ctx c t c' he h
  obtain ⟨tok, c₁, h₁, h⟩ := bind_ok h
  obtain ⟨rfl, rfl⟩ := token_ok h₁
  have literal (hf : c.front.token.isLiteral = true) (h : Gives basicLit ctx c t c') :
      ∃ ws, Run ctx.groups c ws c' ∧ Derives ctx.dialect .operand ws t := by
    obtain ⟨ws, run, ht⟩ := basicLit_run he hf h
    exact ⟨ws, run, .cover .operandLiteral ht⟩
  have typeLit (hf : Phrase.typeAt c.front.token = .typeLit) (h : Gives r.type ctx c t c') :
      ∃ ws, Run ctx.groups c ws c' ∧ Derives ctx.dialect .operand ws t := by
    obtain ⟨ws, run, ht⟩ := hr.type he h
    rw [hf] at ht
    exact ⟨ws, run, .cover .operandType ht⟩
  split at h
  case h_1 => exact (ident_reads.cover .operandIdent) he h
  case h_2 hf | h_3 hf | h_4 hf | h_5 hf | h_6 hf => exact literal (by rw [hf]; rfl) h
  case h_7 hf => exact hr.paren_run he hf h
  case h_8 hf => exact hr.funcOperand_run he hf h
  case h_9 hf | h_10 hf | h_11 hf | h_12 hf => exact typeLit (by rw [hf]; rfl) h
  case h_13 =>
    obtain ⟨b, c₂, h₂, h⟩ := bind_ok h
    obtain ⟨rfl, rfl⟩ := atDots_ok h₂
    split at h
    · rename_i hcond
      simp only [Bool.and_eq_true, beq_iff_eq] at hcond
      obtain ⟨ws, run, ht⟩ := dots_run he hcond.1 hcond.2 h
      exact ⟨ws, run, .cover .operandDots ht⟩
    · exact absurd h unexpected_ok

/-! ### What follows an operand -/

section Suffix

variable {x t : Tree} {vs : List Word}

theorem selector_run (hr : r.Sound) (he : Ended c.rest) (hf : c.front.token = .period)
    (hx : Derives ctx.dialect .primary vs x) (h : Gives (r.selector x) ctx c t c') :
    ∃ ws, Run ctx.groups c ws c' ∧ Derives ctx.dialect .primary (vs ++ ws) t := by
  obtain ⟨u, c₁, h₁, h⟩ := bind_ok h
  obtain rfl := advance_ok h₁
  have run₁ : Run ctx.groups c [.lexeme c.front] c.move := .move he (by rw [hf]; decide)
  have he₁ := run₁.ended he
  obtain ⟨tok, c₂, h₂, h⟩ := bind_ok h
  obtain ⟨rfl, rfl⟩ := token_ok h₂
  split at h
  · obtain ⟨y, c₃, h₃, h⟩ := bind_ok h
    obtain ⟨ws₃, run₃, hy⟩ := ident_reads he₁ h₃
    obtain ⟨rfl, rfl⟩ := pure_ok h
    exact ⟨_, run₁.cons run₃, .node .selector (.sub hx (.word hf hy.lastSub))⟩
  · rename_i hlparen
    obtain ⟨p, c₃, h₃, h⟩ := bind_ok h
    obtain ⟨rfl, run₃⟩ := take_run he₁ (by rw [hlparen]; decide) h₃
    have he₃ := run₃.ended he₁
    obtain ⟨y, c₄, h₄, h⟩ := bind_ok h
    obtain ⟨ws₄, run₄, hy⟩ := hr.type_reads he₃ h₄
    obtain ⟨q, c₅, h₅, h⟩ := bind_ok h
    obtain ⟨l, hl, rfl, run₅⟩ := expect_run (run₄.ended he₃) (by decide) h₅
    obtain ⟨rfl, rfl⟩ := pure_ok h
    exact ⟨_, run₁.cons (run₃.cons (run₄.trans run₅)),
      .node .typeAssert (.sub hx (.word hf (.mark hlparen (.sub hy (.mark hl .partsNil)))))⟩
  · exact absurd h unexpected_ok

theorem indexOrSlice_run (hr : r.Sound) (he : Ended c.rest)
    (hx : Derives ctx.dialect .primary vs x) (h : Gives (r.indexOrSlice x) ctx c t c') :
    ∃ ws, Run ctx.groups c ws c' ∧ Derives ctx.dialect .primary (vs ++ ws) t := by
  obtain ⟨p, c₁, h₁, h⟩ := bind_ok h
  obtain ⟨l, hl, rfl, run₁⟩ := expect_run he (by decide) h₁
  have he₁ := run₁.ended he
  replace h := withLiterals_ok h
  obtain ⟨tok, c₂, h₂, h⟩ := bind_ok h
  obtain ⟨rfl, rfl⟩ := token_ok h₂
  extract_lets jp at h
  obtain ⟨low, c₃, ws₃, run₃, hlow, hnil, h⟩ : ∃ low c₃ ws₃, Run ctx.groups c₁ ws₃ c₃ ∧
      Derives ctx.dialect (.opt .expr) ws₃ low ∧
      (c₃.front.token ≠ .colon → Derives ctx.dialect .expr ws₃ low) ∧
      Gives (jp low) { ctx with literals := true } c₃ t c' := by
    split at h
    · rename_i hcolon
      obtain ⟨y, c₃, h₃, h⟩ := bind_ok h
      obtain ⟨rfl, rfl⟩ := pure_ok h₃
      exact ⟨_, _, _, .refl _, .none _, fun hno => absurd (by simpa using hcolon) hno, h⟩
    · obtain ⟨y, c₃, h₃, h⟩ := bind_ok h
      obtain ⟨ws₃, run₃, hy⟩ := hr.expr_reads he₁ h₃
      exact ⟨_, _, _, run₃, .cover (.opt _) hy, fun _ => hy, h⟩
  have he₃ := run₃.ended he₁
  obtain ⟨o, c₄, h₄, h⟩ := bind_ok h
  rcases got?_run he₃ (by decide) h₄ with ⟨m, hm, rfl, run₄⟩ | ⟨hno, rfl, rfl⟩
  · have he₄ := run₄.ended he₃
    obtain ⟨tok, c₅, h₅, h⟩ := bind_ok h
    obtain ⟨rfl, rfl⟩ := token_ok h₅
    extract_lets jp at h
    obtain ⟨high, c₆, ws₆, run₆, hhigh, h⟩ : ∃ high c₆ ws₆, Run ctx.groups c₄ ws₆ c₆ ∧
        Derives ctx.dialect (.opt .expr) ws₆ high ∧
        Gives (jp high) { ctx with literals := true } c₆ t c' := by
      split at h
      · obtain ⟨y, c₆, h₆, h⟩ := bind_ok h
        obtain ⟨rfl, rfl⟩ := pure_ok h₆
        exact ⟨_, _, _, .refl _, .none _, h⟩
      · obtain ⟨y, c₆, h₆, h⟩ := bind_ok h
        obtain ⟨ws₆, run₆, hy⟩ := hr.expr_reads he₄ h₆
        exact ⟨_, _, _, run₆, .cover (.opt _) hy, h⟩
    obtain ⟨q, c₇, h₇, h⟩ := bind_ok h
    obtain ⟨k, hk, rfl, run₇⟩ := expect_run (run₆.ended he₄) (by decide) h₇
    obtain ⟨rfl, rfl⟩ := pure_ok h
    exact ⟨_, run₁.cons (run₃.trans (run₄.cons (run₆.trans run₇))),
      .node .slice (.sub hx (.mark hl (.sub hlow (.word hm (.sub hhigh (.mark hk .partsNil))))))⟩
  · obtain ⟨q, c₅, h₅, h⟩ := bind_ok h
    obtain ⟨k, hk, rfl, run₅⟩ := expect_run he₃ (by decide) h₅
    obtain ⟨rfl, rfl⟩ := pure_ok h
    exact ⟨_, run₁.cons (run₃.trans run₅),
      .node .index (.sub hx (.mark hl (.sub (hnil hno) (.mark hk .partsNil))))⟩

theorem arguments_run (hr : r.Sound) {args : List Tree} {spread : Pos} (he : Ended c.rest)
    (h : Gives r.arguments ctx c (args, spread) c') :
    ∃ ws ws', Run ctx.groups c (ws ++ ws') c' ∧ IsEnd ws' ∧
      (ws' ≠ [] → c'.front.token = .rparen) ∧
      Derives ctx.dialect (.trailing .arg) ws (.list args) ∧ IsSpread ws args spread := by
  have hloop : ∃ ws, Run ctx.groups c ws c' ∧ ∃ ws₁ ws₂, ws = ws₁ ++ ws₂ ∧ IsEnd ws₂ ∧
      (ws₂ ≠ [] → c'.front.token = .rparen) ∧
      Derives ctx.dialect (.trailing .arg) ws₁ (.list args) ∧ IsSpread ws₁ args spread := by
    refine iterate_run (w := [])
      (I := fun a _ ws => Derives ctx.dialect (.ended .arg) ws (.list a.1) ∧ IsSpread ws a.1 a.2)
      (P := fun a c ws => ∃ ws₁ ws₂, ws = ws₁ ++ ws₂ ∧ IsEnd ws₂ ∧
        (ws₂ ≠ [] → c.front.token = .rparen) ∧
        Derives ctx.dialect (.trailing .arg) ws₁ (.list a.1) ∧ IsSpread ws₁ a.1 a.2)
      ?_ he ⟨.endedNil _, .inl rfl⟩ h
    rintro ⟨args, spread⟩ ws c₁ y c₂ he ⟨hargs, hspread⟩ h
    obtain ⟨u, c₃, h₃, h⟩ := bind_ok h
    obtain ⟨ws₃, hend, run₃, hcase⟩ := skipLineEnd_run he h₃
    obtain ⟨tok, c₄, h₄, h⟩ := bind_ok h
    obtain ⟨rfl, rfl⟩ := token_ok h₄
    have hclose : ws₃ ≠ [] → c₃.front.token = .rparen := by
      intro hne
      rcases hcase with ⟨rfl, -⟩ | ⟨hf, -⟩
      · exact absurd rfl hne
      · exact hf
    split at h
    · obtain ⟨rfl, rfl⟩ := pure_ok h
      exact ⟨_, run₃, _, _, rfl, hend, hclose, .cover (.trailingEnded _) hargs, hspread⟩
    · obtain ⟨rfl, rfl⟩ := pure_ok h
      exact ⟨_, run₃, _, _, rfl, hend, hclose, .cover (.trailingEnded _) hargs, hspread⟩
    · rename_i hrparen _
      obtain ⟨rfl, rfl⟩ : ws₃ = [] ∧ c₁ = c₃ := by
        rcases hcase with hno | ⟨hf, -⟩
        · exact hno
        · exact absurd hf hrparen
      obtain ⟨y, c₄, h₄, h⟩ := bind_ok h
      obtain ⟨ws₄, run₄, hy⟩ := hr.exprOrType_reads he h₄
      obtain ⟨o, c₅, h₅, h⟩ := bind_ok h
      -- the argument, with dots behind it or without
      obtain ⟨ws₅, run₅, harg, hspread⟩ : ∃ ws₅, Run ctx.groups c₁ ws₅ c₅ ∧
          Derives ctx.dialect .arg ws₅ y ∧ IsSpread (ws ++ ws₅) (args ++ [y]) (o.getD spread) := by
        have hlast : (Tree.positionsAll [y]).Subperm (Word.positionsAll ws₄) := by
          rw [Tree.positionsAll_singleton]
          exact hy.positions_subperm rfl
        rcases got?_run (run₄.ended he) (by decide) h₅ with ⟨m, hm, rfl, run₅⟩ | ⟨-, rfl, rfl⟩
        · refine ⟨_, run₄.trans run₅, .spread hy hm, ?_⟩
          have hall := (hargs.positions_subperm rfl).append hlast
          rw [Tree.positions_list, ← Tree.positionsAll_append, ← Word.positionsAll_append] at hall
          rw [← List.append_assoc]
          exact .last hm hall
        · exact ⟨_, run₄, .cover .arg hy, hspread.append hlast⟩
      have hmore := Derives.more rfl hargs harg
      obtain ⟨o', c₆, h₆, h⟩ := bind_ok h
      rcases got?_run (run₅.ended he) (by decide) h₆ with ⟨m, hm, rfl, run₆⟩ | ⟨-, rfl, rfl⟩
      · obtain ⟨rfl, rfl⟩ := pure_ok h
        refine ⟨_, run₅.trans run₆, ?_⟩
        simp only [Sum.elim_inl]
        rw [← List.append_assoc]
        refine ⟨.endedComma hmore hm, ?_⟩
        have hnone : (Tree.positionsAll []).Subperm (Word.positionsAll [.lexeme m]) :=
          List.nil_subperm
        have hcomma := hspread.append hnone
        rwa [List.append_nil] at hcomma
      · obtain ⟨rfl, rfl⟩ := pure_ok h
        exact ⟨_, run₅, _, [], (List.append_nil _).symm, .inl rfl, fun hne => absurd rfl hne,
          .cover (.trailingMore _) hmore, hspread⟩
  obtain ⟨ws, run, ws₁, ws₂, rfl, hrest⟩ := hloop
  exact ⟨ws₁, ws₂, run, hrest⟩

theorem call_run (hr : r.Sound) (he : Ended c.rest) (hx : Derives ctx.dialect .primary vs x)
    (h : Gives (r.call x) ctx c t c') :
    ∃ ws, Run ctx.groups c ws c' ∧ Derives ctx.dialect .primary (vs ++ ws) t := by
  obtain ⟨p, c₁, h₁, h⟩ := bind_ok h
  obtain ⟨l, hl, rfl, run₁⟩ := expect_run he (by decide) h₁
  have he₁ := run₁.ended he
  obtain ⟨⟨args, spread⟩, c₂, h₂, h⟩ := bind_ok h
  obtain ⟨ws₂, ws₂', run₂, hend, hclose, hargs, hspread⟩ :=
    hr.arguments_run he₁ (withLiterals_ok h₂)
  have he₂ := run₂.ended he₁
  obtain ⟨u, c₃, h₃, h⟩ := bind_ok h
  obtain ⟨ws₃, run₃, hend⟩ := skipLineEnd_again he₂ (by decide) hend hclose h₃
  obtain ⟨q, c₄, h₄, h⟩ := bind_ok h
  obtain ⟨m, hm, rfl, run₄⟩ := expect_run (run₃.ended he₂) (by decide) h₄
  obtain ⟨rfl, rfl⟩ := pure_ok h
  refine ⟨_, run₁.cons (run₂.trans (run₃.trans run₄)), ?_⟩
  rw [List.append_assoc ws₂, ← List.append_assoc ws₂']
  exact .node .call (.sub hx (.mark hl (.args hargs hspread (.lineEnd? hend (.mark hm .partsNil)))))

end Suffix

/-! ### Composite literals -/

theorem elementValue_reads (hr : r.Sound) : Reads .elementValue r.elementValue := by
  intro ctx c t c' he h
  obtain ⟨tok, c₁, h₁, h⟩ := bind_ok h
  obtain ⟨rfl, rfl⟩ := token_ok h₁
  split at h
  · obtain ⟨ws, ts, run, rfl, hts⟩ := hr.composite he h
    exact ⟨ws, run, .node .bareLit (.const hts)⟩
  · exact (hr.expr_reads.cover .elementValue) he h

theorem element_reads (hr : r.Sound) : Reads .element r.element := by
  intro ctx c t c' he h
  obtain ⟨x, c₁, h₁, h⟩ := bind_ok h
  obtain ⟨ws₁, run₁, hx⟩ := hr.elementValue_reads he h₁
  have he₁ := run₁.ended he
  obtain ⟨o, c₂, h₂, h⟩ := bind_ok h
  rcases got?_run he₁ (by decide) h₂ with ⟨l, hl, rfl, run₂⟩ | ⟨-, rfl, rfl⟩
  · obtain ⟨y, c₃, h₃, h⟩ := bind_ok h
    obtain ⟨ws₃, run₃, hy⟩ := hr.elementValue_reads (run₂.ended he₁) h₃
    obtain ⟨rfl, rfl⟩ := pure_ok h
    exact ⟨_, run₁.trans (run₂.cons run₃), .node .keyValue (.sub hx (.mark hl hy.lastSub))⟩
  · obtain ⟨rfl, rfl⟩ := pure_ok h
    exact ⟨_, run₁, .cover .element hx⟩

theorem elements_run (hr : r.Sound) {elts : List Tree} (he : Ended c.rest)
    (h : Gives r.elements ctx c elts c') :
    ∃ ws ws', Run ctx.groups c (ws ++ ws') c' ∧ IsEnd ws' ∧
      (ws' ≠ [] → c'.front.token = .rbrace) ∧
      Derives ctx.dialect (.trailing .element) ws (.list elts) := by
  have hloop : ∃ ws, Run ctx.groups c ws c' ∧ ∃ ws₁ ws₂, ws = ws₁ ++ ws₂ ∧ IsEnd ws₂ ∧
      (ws₂ ≠ [] → c'.front.token = .rbrace) ∧
      Derives ctx.dialect (.trailing .element) ws₁ (.list elts) := by
    refine iterate_run (w := [])
      (I := fun xs _ ws => Derives ctx.dialect (.ended .element) ws (.list xs))
      (P := fun xs c ws => ∃ ws₁ ws₂, ws = ws₁ ++ ws₂ ∧ IsEnd ws₂ ∧
        (ws₂ ≠ [] → c.front.token = .rbrace) ∧
        Derives ctx.dialect (.trailing .element) ws₁ (.list xs))
      ?_ he (.endedNil _) h
    intro xs ws c₁ y c₂ he hxs h
    obtain ⟨u, c₃, h₃, h⟩ := bind_ok h
    obtain ⟨ws₃, hend, run₃, hcase⟩ := skipLineEnd_run he h₃
    obtain ⟨tok, c₄, h₄, h⟩ := bind_ok h
    obtain ⟨rfl, rfl⟩ := token_ok h₄
    have hclose : ws₃ ≠ [] → c₃.front.token = .rbrace := by
      intro hne
      rcases hcase with ⟨rfl, -⟩ | ⟨hf, -⟩
      · exact absurd rfl hne
      · exact hf
    split at h
    · obtain ⟨rfl, rfl⟩ := pure_ok h
      exact ⟨_, run₃, _, _, rfl, hend, hclose, .cover (.trailingEnded _) hxs⟩
    · obtain ⟨rfl, rfl⟩ := pure_ok h
      exact ⟨_, run₃, _, _, rfl, hend, hclose, .cover (.trailingEnded _) hxs⟩
    · rename_i hrbrace _
      obtain ⟨rfl, rfl⟩ : ws₃ = [] ∧ c₁ = c₃ := by
        rcases hcase with hno | ⟨hf, -⟩
        · exact hno
        · exact absurd hf hrbrace
      obtain ⟨y, c₄, h₄, h⟩ := bind_ok h
      obtain ⟨ws₄, run₄, hy⟩ := hr.element_reads he h₄
      have hmore := Derives.more rfl hxs hy
      obtain ⟨o, c₅, h₅, h⟩ := bind_ok h
      rcases got?_run (run₄.ended he) (by decide) h₅ with ⟨m, hm, rfl, run₅⟩ | ⟨-, rfl, rfl⟩
      · obtain ⟨rfl, rfl⟩ := pure_ok h
        refine ⟨_, run₄.trans run₅, ?_⟩
        simp only [Sum.elim_inl]
        rw [← List.append_assoc]
        exact .endedComma hmore hm
      · obtain ⟨rfl, rfl⟩ := pure_ok h
        exact ⟨_, run₄, _, [], (List.append_nil _).symm, .inl rfl, fun hne => absurd rfl hne,
          .cover (.trailingMore _) hmore⟩
  obtain ⟨ws, run, ws₁, ws₂, rfl, hrest⟩ := hloop
  exact ⟨ws₁, ws₂, run, hrest⟩

theorem compositeStep_run (hr : r.Sound) {x t : Tree} (he : Ended c.rest)
    (h : Gives (r.compositeStep x) ctx c t c') :
    ∃ ws ts, Run ctx.groups c ws c' ∧ t = .node .compositeLit (x :: ts) ∧
      Derives ctx.dialect
        (.parts [.mark .lbrace, .sub (.trailing .element), .lineEnd, .mark .rbrace]) ws
        (.list ts) := by
  obtain ⟨p, c₁, h₁, h⟩ := bind_ok h
  obtain ⟨l, hl, rfl, run₁⟩ := expect_run he (by decide) h₁
  have he₁ := run₁.ended he
  obtain ⟨elts, c₂, h₂, h⟩ := bind_ok h
  obtain ⟨ws₂, ws₂', run₂, hend, hclose, helts⟩ := hr.elements_run he₁ (withLiterals_ok h₂)
  have he₂ := run₂.ended he₁
  obtain ⟨u, c₃, h₃, h⟩ := bind_ok h
  obtain ⟨ws₃, run₃, hend⟩ := skipLineEnd_again he₂ (by decide) hend hclose h₃
  obtain ⟨q, c₄, h₄, h⟩ := bind_ok h
  obtain ⟨m, hm, rfl, run₄⟩ := expect_run (run₃.ended he₂) (by decide) h₄
  obtain ⟨rfl, rfl⟩ := pure_ok h
  refine ⟨_, _, run₁.cons (run₂.trans (run₃.trans run₄)), rfl, ?_⟩
  rw [List.append_assoc ws₂, ← List.append_assoc ws₂']
  exact .mark hl (.sub helts (.lineEnd? hend (.mark hm .partsNil)))

/-! ### Operators -/

theorem primary_reads (hr : r.Sound) : Reads .primary r.primary := by
  intro ctx c t c' he h
  obtain ⟨x, c₁, h₁, h⟩ := bind_ok h
  obtain ⟨ws₁, run₁, hx⟩ := hr.operand_reads he h₁
  -- whatever stands behind a primary expression makes a longer one of it
  have hloop : ∃ ws, Run ctx.groups c₁ ws c' ∧ Derives ctx.dialect .primary (ws₁ ++ ws) t := by
    refine iterate_run (I := fun x _ ws => Derives ctx.dialect .primary ws x)
      (P := fun x _ ws => Derives ctx.dialect .primary ws x) ?_ (run₁.ended he)
      (.cover .primary hx) h
    intro x ws c₁ y c₂ he hx h
    obtain ⟨tok, c₃, h₃, h⟩ := bind_ok h
    obtain ⟨rfl, rfl⟩ := token_ok h₃
    have hdone (hy : .inr x = y) (hc : c₁ = c₂) : ∃ ws', Run ctx.groups c₁ ws' c₂ ∧
        Sum.elim (fun x => Derives ctx.dialect .primary (ws ++ ws') x)
          (fun x => Derives ctx.dialect .primary (ws ++ ws') x) y := by
      subst hy hc
      exact ⟨[], .refl _, by simpa using hx⟩
    split at h
    case h_1 hf =>
      obtain ⟨z, c₄, h₄, h⟩ := bind_ok h
      obtain ⟨ws₄, run₄, hz⟩ := hr.selector_run he hf hx h₄
      obtain ⟨rfl, rfl⟩ := pure_ok h
      exact ⟨_, run₄, hz⟩
    case h_2 =>
      obtain ⟨z, c₄, h₄, h⟩ := bind_ok h
      obtain ⟨ws₄, run₄, hz⟩ := hr.indexOrSlice_run he hx h₄
      obtain ⟨rfl, rfl⟩ := pure_ok h
      exact ⟨_, run₄, hz⟩
    case h_3 =>
      obtain ⟨z, c₄, h₄, h⟩ := bind_ok h
      obtain ⟨ws₄, run₄, hz⟩ := hr.call_run he hx h₄
      obtain ⟨rfl, rfl⟩ := pure_ok h
      exact ⟨_, run₄, hz⟩
    case h_4 =>
      obtain ⟨b, c₄, h₄, h⟩ := bind_ok h
      obtain rfl := isLiteralType_ok h₄
      split at h
      · obtain ⟨z, c₅, h₅, h⟩ := bind_ok h
        obtain ⟨ws₅, ts, run₅, rfl, hts⟩ := hr.composite he h₅
        obtain ⟨rfl, rfl⟩ := pure_ok h
        exact ⟨_, run₅, .node .composite (.sub hx hts)⟩
      · obtain ⟨hy, hc⟩ := pure_ok h
        exact hdone hy hc
    case h_5 =>
      obtain ⟨hy, hc⟩ := pure_ok h
      exact hdone hy hc
  obtain ⟨ws, run, ht⟩ := hloop
  exact ⟨_, run₁.trans run, ht⟩

theorem unaryStep_reads (hr : r.Sound) : Reads .unary r.unaryStep := by
  intro ctx c t c' he h
  obtain ⟨tok, c₁, h₁, h⟩ := bind_ok h
  obtain ⟨rfl, rfl⟩ := token_ok h₁
  have operator (hf : c.front.token ∈ Token.unaryOperators)
      (h : Gives (do
        let l ← current
        advance
        return .node .unaryExpr [.pos l.pos, .tok l.token, ← r.unary]) ctx c t c') :
      ∃ ws, Run ctx.groups c ws c' ∧ Derives ctx.dialect .unary ws t := by
    obtain ⟨l, c₁, h₁, h⟩ := bind_ok h
    obtain ⟨rfl, rfl⟩ := current_ok h₁
    obtain ⟨u, c₂, h₂, h⟩ := bind_ok h
    obtain rfl := advance_ok h₂
    have run₂ : Run ctx.groups c [.lexeme c.front] c.move := by
      refine .move he (fun heof => ?_)
      rw [heof] at hf
      exact absurd hf (by decide)
    obtain ⟨x, c₃, h₃, h⟩ := bind_ok h
    obtain ⟨ws₃, run₃, hx⟩ := hr.unary (run₂.ended he) h₃
    obtain ⟨rfl, rfl⟩ := pure_ok h
    exact ⟨_, run₂.cons run₃, .node .prefixed (.markIn hf hx.lastSub)⟩
  split at h
  case h_1 hf | h_2 hf | h_3 hf | h_4 hf | h_5 hf | h_6 hf =>
    exact operator (by rw [hf]; decide) h
  case h_7 hf => exact takeThen_run .deref hr.unary he hf (by decide) h
  case h_8 => exact (hr.primary_reads.cover .unary) he h

theorem binaryStep_run (hr : r.Sound) {n : Nat} (hn : 0 < n) {t : Tree} (he : Ended c.rest)
    (h : Gives (r.binaryStep n) ctx c t c') :
    ∃ ws, Run ctx.groups c ws c' ∧ Derives ctx.dialect (.binary n) ws t ∧
      c'.front.token.precedence < n := by
  obtain ⟨x, c₁, h₁, h⟩ := bind_ok h
  obtain ⟨ws₁, run₁, hx⟩ := hr.unary he h₁
  -- the operator in front binds no more tightly than `m`, at which all that was read so far holds
  -- together: so it can take all of it as its left operand
  have hloop : ∃ ws, Run ctx.groups c₁ ws c' ∧ Derives ctx.dialect (.binary n) (ws₁ ++ ws) t ∧
      c'.front.token.precedence < n := by
    refine iterate_run
      (I := fun x c ws => ∃ m, n ≤ m ∧ c.front.token.precedence ≤ m ∧
        Derives ctx.dialect (.binary m) ws x)
      (P := fun x c ws => Derives ctx.dialect (.binary n) ws x ∧ c.front.token.precedence < n)
      ?_ (run₁.ended he)
      ⟨max n c₁.front.token.precedence, Nat.le_max_left _ _, Nat.le_max_right _ _,
        .cover (.binary _) hx⟩ h
    rintro x ws c₁ y c₂ he ⟨m, hnm, hpm, hx⟩ h
    obtain ⟨l, c₃, h₃, h⟩ := bind_ok h
    obtain ⟨rfl, rfl⟩ := current_ok h₃
    split at h
    · rename_i hlt
      obtain ⟨rfl, rfl⟩ := pure_ok h
      exact ⟨[], .refl _, by simpa using hx.binary_mono hnm, hlt⟩
    · rename_i hge
      have hpos : 0 < c₁.front.token.precedence := by omega
      obtain ⟨u, c₄, h₄, h⟩ := bind_ok h
      obtain rfl := advance_ok h₄
      have run₄ : Run ctx.groups c₁ [.lexeme c₁.front] c₁.move := by
        refine .move he (fun heof => ?_)
        rw [heof] at hpos
        exact absurd hpos (by decide)
      obtain ⟨z, c₅, h₅, h⟩ := bind_ok h
      obtain ⟨ws₅, run₅, hz, hprec⟩ := hr.binary (Nat.succ_pos _) (run₄.ended he) h₅
      obtain ⟨rfl, rfl⟩ := pure_ok h
      refine ⟨_, run₄.cons run₅, c₁.front.token.precedence, Nat.le_of_not_lt hge,
        Nat.le_of_lt_succ hprec, ?_⟩
      exact .node (.binary (Nat.le_refl _) hpos)
        (.sub (hx.binary_mono hpm) (.markIn (List.mem_singleton_self _) hz.lastSub))
  obtain ⟨ws, run, ht, hprec⟩ := hloop
  exact ⟨_, run₁.trans run, ht, hprec⟩

end Rules.Sound

end Graft
