import Graft.Proofs.Grammar.EnclosureStmt
import Graft.Proofs.Grammar.ReadFragment
import Graft.Proofs.Grammar.Regular
import Graft.Proofs.Token.Parenthesised

/-! # Expressions in parentheses

A text that is read as an expression is read as the same expression inside parentheses and as the
argument of a call (`parseFragment_paren`).

There the expression is read by a production that reads types too.  In front of a star it reads no
binary operators, so an expression that begins with a star is read there only if the star goes with
all of it.
-/

namespace Graft

/-! ### The last token of an expression -/

/-- Whether the last token of every phrase of the sort is recorded, and no semicolon. -/
def Phrase.isFirm : Phrase → Bool
  | .parts ps => Part.closes ps && ps.all Part.skipsSemicolon
  | s => s.isClosed

theorem Phrase.isFirm_of_isClosed {s : Phrase} (h : s.isClosed = true) : s.isFirm = true := by
  cases s with
  | parts => cases h
  | _ => exact h

theorem Phrase.isFirm_parts_cons {p : Part} {ps : List Part} :
    (Phrase.parts (p :: ps)).isFirm = true ↔
      (Phrase.parts ps).isFirm = true ∧ (ps.any Part.isSolid = true ∨ p.isClosed = true) ∧
        p.skipsSemicolon = true := by
  simp only [Phrase.isFirm, Part.closes_cons, List.all_cons, Bool.and_eq_true, Bool.or_eq_true]
  tauto

theorem Covers.isFirm {s s' : Phrase} (h : Covers s s') (hs : s.isFirm = true) :
    s'.isFirm = true := by
  refine Phrase.isFirm_of_isClosed (h.isClosed ?_)
  cases h <;> exact hs

theorem Row.isFirm {s : Phrase} {k : Kind} {ps : List Part} (h : Row s k ps)
    (hs : s.isFirm = true) :
    (Phrase.parts ps).isFirm = true := by
  have hclosed : s.isClosed = true := by cases h <;> exact hs
  rw [Phrase.isFirm, h.closes hclosed, Bool.true_and]
  exact h.skipsSemicolons

/-- **The last token of a closed phrase is no semicolon**, and neither is that of closed fields. -/
theorem Derives.last_ne_semicolon {d : Dialect} {s : Phrase} {ws : List Word} {t : Tree}
    (h : Derives d s ws t) (hs : s.isFirm = true) {l : Lexeme}
    (hl : (Word.lexemes ws).getLast? = some l) : l.token ≠ .semicolon := by
  induction h generalizing l with
  | @ident m h | @dots m _ h | @period m h =>
    obtain rfl : m = l := Option.some.inj hl
    rw [h]
    decide
  | @literal m h =>
    obtain rfl : m = l := Option.some.inj hl
    intro hsemi
    rw [hsemi] at h
    cases h
  | noDoc | doc | none | empty | endedNil | linesNil | partsNil => cases hl
  | endedComma | linesSemicolon | linesItem | spread => cases hs
  | cover hc _ ih => exact ih (hc.isFirm hs) hl
  | node hr _ ih => exact ih (hr.isFirm hs) hl
  | behind _ hs' ih =>
    obtain ⟨hclosed, hsolid⟩ := (Bool.and_eq_true _ _).mp hs
    rcases Word.getLast?_lexemes_cons hl with hl | ⟨hnil, -⟩
    · exact ih (Phrase.isFirm_of_isClosed hclosed) hl
    · exact absurd hnil (hs'.lexemes_ne_nil hsolid)
  | one _ _ ih | firstName _ ih => exact ih (Phrase.isFirm_of_isClosed hs) hl
  | more _ _ ht _ ih =>
    obtain ⟨hclosed, hsolid⟩ := (Bool.and_eq_true _ _).mp hs
    rcases Word.getLast?_lexemes_append hl with hl | ⟨hnil, -⟩
    · exact ih (Phrase.isFirm_of_isClosed hclosed) hl
    · exact absurd hnil (ht.lexemes_ne_nil hsolid)
  | nextName _ _ ht _ ih =>
    rw [List.append_cons] at hl
    rcases Word.getLast?_lexemes_append hl with hl | ⟨hnil, -⟩
    · exact ih rfl hl
    · exact absurd hnil (ht.lexemes_ne_nil rfl)
  | word _ hp ih | lineEnd _ hp ih =>
    obtain ⟨hfirm, hsolid, -⟩ := Phrase.isFirm_parts_cons.mp hs
    rcases Word.getLast?_lexemes_cons hl with hl | ⟨hnil, -⟩
    · exact ih hfirm hl
    · exact absurd hnil (hp.solid.2 rfl (hsolid.resolve_right nofun))
  | mark hm _ ih =>
    obtain ⟨hfirm, -, hskips⟩ := Phrase.isFirm_parts_cons.mp hs
    rcases Word.getLast?_lexemes_cons hl with hl | ⟨-, rfl⟩
    · exact ih hfirm hl
    · rw [hm]
      exact bne_iff_ne.mp hskips
  | markIn hm _ ih =>
    obtain ⟨hfirm, -, hskips⟩ := Phrase.isFirm_parts_cons.mp hs
    rcases Word.getLast?_lexemes_cons hl with hl | ⟨-, rfl⟩
    · exact ih hfirm hl
    · exact bne_iff_ne.mp (List.all_eq_true.mp hskips _ hm)
  | noLineEnd _ ih | unmarked _ ih | const _ ih => exact ih (Phrase.isFirm_parts_cons.mp hs).1 hl
  | sub _ hp ih₁ ih₂ =>
    obtain ⟨hfirm, hlast, -⟩ := Phrase.isFirm_parts_cons.mp hs
    rcases Word.getLast?_lexemes_append hl with hl | ⟨hnil, hl⟩
    · exact ih₂ hfirm hl
    · exact ih₁ (Phrase.isFirm_of_isClosed (hlast.resolve_left fun hany => hp.solid.2 rfl
        hany hnil)) hl
  | args _ _ hp _ ih | targets _ hp _ ih | params _ _ hp _ ih =>
    obtain ⟨hfirm, hsolid, -⟩ := Phrase.isFirm_parts_cons.mp hs
    rcases Word.getLast?_lexemes_append hl with hl | ⟨hnil, -⟩
    · exact ih hfirm hl
    · exact absurd hnil (hp.solid.2 rfl (hsolid.resolve_right nofun))


/-! ### Readings around an expression -/

namespace Reader

variable {ctx : Context} {c c₁ c' : Cursor} {l m : Lexeme} {ls : List Lexeme} {q : Option Pos}
  {t close : Token}

theorem gives_token (hl : l.token = t) : Gives token ctx ⟨l :: ls, q⟩ t ⟨l :: ls, q⟩ := by
  subst hl
  rfl

theorem gives_get : Gives get ctx c c c := rfl

theorem gives_current : Gives current ctx ⟨l :: ls, q⟩ l ⟨l :: ls, q⟩ := rfl

theorem gives_following : Gives following ctx c c.second c := rfl

theorem gives_take : Gives take ctx ⟨l :: m :: ls, q⟩ l.pos ⟨m :: ls, some l.pos⟩ := rfl

theorem gives_expect (hl : l.token = t) :
    Gives (expect t) ctx ⟨l :: m :: ls, q⟩ l.pos ⟨m :: ls, some l.pos⟩ :=
  gives_bind (gives_got? hl) rfl

theorem gives_skipLineEnd (hl : l.token ≠ .semicolon) :
    Gives (skipLineEnd close) ctx ⟨l :: ls, q⟩ () ⟨l :: ls, q⟩ := by
  refine gives_bind gives_current (gives_bind gives_following ?_)
  simp only [hl, decide_false, Bool.false_and]
  rfl

variable {σ α : Type} {r : Reader α} {body : σ → Reader (σ ⊕ α)} {x y : σ} {a : α}

theorem gives_withLiterals {allowed : Bool} (h : Gives r { ctx with literals := allowed } c a c') :
    Gives (withLiterals allowed r) ctx c a c' := h

theorem gives_iterate (h : Gives (body x) ctx c (.inr a) c') : Gives (iterate x body) ctx c a c' :=
  gives_bind gives_get (gives_bind h rfl)

theorem gives_iterate_next (hc : c.rest ≠ []) (h : Gives (body x) ctx c (.inl y) c₁)
    (h' : Gives (body y) ctx c₁ (.inr a) c') : Gives (iterate x body) ctx c a c' := by
  refine gives_bind gives_get ?_
  obtain ⟨l, ls, hrest⟩ := List.exists_cons_of_ne_nil hc
  rw [hrest]
  exact gives_bind h (gives_bind h' rfl)

end Reader

namespace Rules

open Reader

variable {r : Rules} {ctx : Context} {c c' : Cursor} {l l' m n : Lexeme} {ls ms : List Lexeme}
  {q q' : Option Pos}
  {x y t : Tree}

/-- An expression behind a parenthesis, and the parenthesis behind it. -/
theorem gives_paren (hx : Gives r.exprOrType { ctx with literals := true } ⟨l' :: ls, some l.pos⟩ y
      ⟨m :: n :: ms, q'⟩)
    (hm : m.token = .rparen) :
    Gives r.paren ctx ⟨l :: l' :: ls, q⟩ (.node .parenExpr [.pos l.pos, y, .pos m.pos])
      ⟨n :: ms, some m.pos⟩ := by
  refine gives_bind gives_take (gives_bind (gives_withLiterals hx) ?_)
  exact gives_bind (gives_skipLineEnd (by rw [hm]; decide)) (gives_bind (gives_expect hm) rfl)

/-- A call with one argument. -/
theorem gives_call (hx : Gives r.exprOrType { ctx with literals := true } ⟨l' :: ls, some l.pos⟩ y
      ⟨m :: n :: ms, q'⟩)
    (hl : l.token = .lparen) (hm : m.token = .rparen) (hsemi : l'.token ≠ .semicolon)
    (hclose : l'.token ≠ .rparen) (hend : l'.token ≠ .eof) :
    Gives (r.call x) ctx ⟨l :: l' :: ls, q⟩
      (.node .callExpr [x, .pos l.pos, .list [y], .pos .none, .pos m.pos])
      ⟨n :: ms, some m.pos⟩ := by
  have hargs : Gives r.arguments { ctx with literals := true } ⟨l' :: ls, some l.pos⟩ ([y], .none)
      ⟨m :: n :: ms, q'⟩ := by
    refine gives_iterate (gives_bind (gives_skipLineEnd hsemi) (gives_bind (gives_token rfl) ?_))
    split
    · exact absurd ‹_› hclose
    · exact absurd ‹_› hend
    · refine gives_bind hx (gives_bind (gives_got?_none ?_) (gives_bind (gives_got?_none ?_) rfl))
      · exact hm.symm ▸ (by decide)
      · exact hm.symm ▸ (by decide)
  refine gives_bind (gives_expect hl) (gives_bind (gives_withLiterals hargs) ?_)
  exact gives_bind (gives_skipLineEnd (by rw [hm]; decide)) (gives_bind (gives_expect hm) rfl)

theorem gives_primary_paren (h : Gives r.paren ctx ⟨l :: ls, q⟩ t ⟨m :: ms, q'⟩)
    (hl : l.token = .lparen) (hm : m.token = .semicolon) :
    Gives r.primary ctx ⟨l :: ls, q⟩ t ⟨m :: ms, q'⟩ := by
  have hoperand : Gives r.operand ctx ⟨l :: ls, q⟩ t ⟨m :: ms, q'⟩ := gives_bind (gives_token hl) h
  exact gives_bind hoperand (gives_iterate (gives_bind (gives_token hm) rfl))

theorem gives_primary_call
    (h : Gives (r.call (.ident l.pos l.text)) ctx ⟨l' :: ls, some l.pos⟩ t ⟨m :: ms, q'⟩)
    (hl : l.token = .ident) (hl' : l'.token = .lparen) (hm : m.token = .semicolon) :
    Gives r.primary ctx ⟨l :: l' :: ls, q⟩ t ⟨m :: ms, q'⟩ := by
  have hident : Gives ident ctx ⟨l :: l' :: ls, q⟩ (.ident l.pos l.text)
      ⟨l' :: ls, some l.pos⟩ := by
    refine gives_bind gives_current ?_
    rw [if_pos hl]
    rfl
  have hoperand : Gives r.operand ctx ⟨l :: l' :: ls, q⟩ (.ident l.pos l.text)
      ⟨l' :: ls, some l.pos⟩ :=
    gives_bind (gives_token hl) hident
  refine gives_bind hoperand (gives_iterate_next (List.cons_ne_nil _ _)
    (gives_bind (gives_token hl') (gives_bind h rfl)) ?_)
  exact gives_bind (gives_token hm) rfl

theorem gives_firstOf {α : Type} {p : Reader α} {ps : List (Reader α)}
    {worst : Option ParseError} {a : α} (h : Gives p ctx c a c') :
    Gives (firstOf worst (p :: ps)) ctx c a c' := by
  have hp : p ctx c = .ok (a, c') := h
  unfold Gives firstOf
  rw [hp]

/-- A text that is an operand and what follows it. -/
theorem gives_fragment {k : Nat} (hk : l.token = .lparen ∨ l.token = .ident)
    (h : Gives (upTo k).primary ctx ⟨l :: ls, q⟩ t ⟨[m, n], q'⟩) (hm : m.token = .semicolon)
    (hn : n.token = .eof) :
    Gives (upTo (k + 2)).fragment ctx ⟨l :: ls, q⟩ ⟨none, [], .expr t⟩ ⟨[n], some m.pos⟩ := by
  have hunary : Gives (upTo (k + 1)).unary ctx ⟨l :: ls, q⟩ t ⟨[m, n], q'⟩ := by
    rcases hk with hl | hl <;> exact gives_bind (gives_token hl) h
  have hexpr : Gives (upTo (k + 2)).expr ctx ⟨l :: ls, q⟩ t ⟨[m, n], q'⟩ := by
    refine gives_bind hunary (gives_iterate (gives_bind gives_current ?_))
    rw [if_pos (by rw [hm]; decide)]
    rfl
  have hsemis : Gives skipSemicolons ctx ⟨[m, n], q'⟩ () ⟨[n], some m.pos⟩ := by
    refine gives_iterate_next (List.cons_ne_nil _ _) (gives_bind (gives_got? hm) rfl) ?_
    exact gives_bind (gives_got?_none (show n.token ≠ _ by rw [hn]; decide)) rfl
  have hbody : Gives (upTo (k + 2)).exprBody ctx ⟨l :: ls, q⟩ (.expr t) ⟨[n], some m.pos⟩ :=
    gives_bind hexpr (gives_bind hsemis (gives_bind (gives_token hn) rfl))
  have hfirst {t : Token} (ht : t ≠ .lparen ∧ t ≠ .ident) : (⟨l :: ls, q⟩ : Cursor).front.token ≠
      t := by
    rcases hk with hl | hl
    · exact hl.symm ▸ ht.1.symm
    · exact hl.symm ▸ ht.2.symm
  have hskip : Gives skipSemicolons ctx ⟨l :: ls, q⟩ () ⟨l :: ls, q⟩ :=
    gives_iterate (gives_bind (gives_got?_none (hfirst (by decide))) rfl)
  have hpackage : Gives packageClause ctx ⟨l :: ls, q⟩ none ⟨l :: ls, q⟩ :=
    gives_bind (gives_got?_none (hfirst (by decide))) rfl
  have himports : Gives ((upTo (k + 2)).declsWhile (· == .kwImport) importThenSemicolons []) ctx
      ⟨l :: ls, q⟩ []
      ⟨l :: ls, q⟩ := by
    rcases hk with hl | hl <;> exact gives_iterate (gives_bind (gives_token hl) rfl)
  have hwhole : Gives (upTo (k + 2)).body ctx ⟨l :: ls, q⟩ (.expr t) ⟨[n], some m.pos⟩ := by
    have hreadings : Gives (firstOf none [(upTo (k + 2)).exprBody, (upTo (k + 2)).stmtsBody,
      (upTo (k + 2)).declsBody])
      ctx ⟨l :: ls, q⟩ (.expr t) ⟨[n], some m.pos⟩ := gives_firstOf hbody
    rcases hk with hl | hl <;> exact gives_bind (gives_token hl)
      (gives_bind gives_following hreadings)
  exact gives_bind hskip
    (gives_bind hpackage (gives_bind hskip (gives_bind himports (gives_bind hwhole rfl))))

end Rules

/-! ### The expression of a text -/

theorem Run.eq_of_areSemicolons {groups : List CommentGroup} {c c' : Cursor} {ws : List Word}
    (h : Run groups c ws c') (hws : Word.AreSemicolons ws) (hfront : c.front.token ≠ .semicolon) :
    c = c' := by
  cases h with
  | refl => rfl
  | lexeme =>
    obtain ⟨⟨l, hl, heq⟩, -⟩ := List.forall_mem_cons.mp hws
    cases heq
    exact absurd hl hfront
  | doc =>
    obtain ⟨⟨l, -, heq⟩, -⟩ := List.forall_mem_cons.mp hws
    cases heq

namespace Rules.Sound

open Reader

variable {r : Rules} {ctx : Context} {c c' : Cursor} {x : Tree}

theorem exprBody_of_body (h : Gives r.body ctx c (.expr x) c') :
    Gives r.exprBody ctx c (.expr x) c' := by
  have readings {rs : List (Reader Body)} (hrs : ∀ q ∈ rs, q = r.exprBody ∨ q = r.stmtsBody ∨
      q = r.declsBody)
      (h : Gives (firstOf none rs) ctx c (.expr x) c') : Gives r.exprBody ctx c (.expr x) c' := by
    obtain ⟨q, hq, h⟩ := firstOf_ok h
    rcases hrs q hq with rfl | rfl | rfl
    · exact h
    · obtain ⟨xs, c₁, -, h⟩ := bind_ok h
      obtain ⟨tok, c₂, -, h⟩ := bind_ok h
      split at h
      · cases (pure_ok h).1
      · exact absurd h unexpected_ok
    · obtain ⟨ds, c₁, -, h⟩ := bind_ok h
      cases (pure_ok h).1
  obtain ⟨tok, c₁, h₁, h⟩ := bind_ok h
  obtain ⟨-, rfl⟩ := token_ok h₁
  split at h
  · cases (pure_ok h).1
  · obtain ⟨next, c₂, h₂, h⟩ := bind_ok h
    obtain ⟨-, rfl⟩ := following_ok h₂
    split at h
    · exact readings (by simp) h
    · exact readings (by simp) h

/-- A text that is an expression has nothing but semicolons behind it. -/
theorem expr_of_fragment (hr : r.Sound) (he : Ended c.rest) (hsemi : c.front.token ≠ .semicolon)
    (h : Gives r.fragment ctx c ⟨none, [], .expr x⟩ c') :
    ∃ ws c₁ ws' c₂, Gives r.expr ctx c x c₁ ∧ Run ctx.groups c ws c₁ ∧
      Derives ctx.dialect .expr ws x ∧
      Run ctx.groups c₁ ws' c₂ ∧ Word.AreSemicolons ws' ∧ c₂.front.token = .eof := by
  obtain ⟨u, c₁, h₁, h⟩ := bind_ok h
  obtain ⟨ws₁, run₁, hws₁, -⟩ := skipSemicolons_run he h₁
  obtain rfl := run₁.eq_of_areSemicolons hws₁ hsemi
  obtain ⟨package, c₂, h₂, h⟩ := bind_ok h
  obtain ⟨u, c₃, h₃, h⟩ := bind_ok h
  obtain ⟨imports, c₄, h₄, h⟩ := bind_ok h
  obtain ⟨b, c₅, h₅, h⟩ := bind_ok h
  cases (pure_ok h).1
  obtain rfl : c = c₂ := by
    obtain ⟨p, c₆, h₆, h₂⟩ := bind_ok h₂
    rcases got?_ok h₆ with ⟨-, rfl, -⟩ | ⟨-, rfl, rfl⟩
    · obtain ⟨name, c₇, -, h₂⟩ := bind_ok h₂
      obtain ⟨u, c₈, -, h₂⟩ := bind_ok h₂
      cases (pure_ok h₂).1
    · exact (pure_ok h₂).2
  obtain ⟨ws₃, run₃, hws₃, -⟩ := skipSemicolons_run he h₃
  obtain rfl := run₃.eq_of_areSemicolons hws₃ hsemi
  obtain ⟨ws₄, run₄, himports, -⟩ := declsThenSemicolons_run he hsemi
    (fun he hgo h => thenSemicolons_run he
      (fun h => hr.genDecl_run he (by rw [beq_iff_eq.mp hgo]; decide) h) h) h₄
  obtain rfl := run₄.eq_of_areSemicolons himports.areSemicolons hsemi
  obtain ⟨x', c₆, h₆, h₅⟩ := bind_ok (exprBody_of_body h₅)
  obtain ⟨ws, run, hx⟩ := hr.expr_reads he h₆
  obtain ⟨u, c₇, h₇, h₅⟩ := bind_ok h₅
  obtain ⟨ws', run', hws', -⟩ := skipSemicolons_run (run.ended he) h₇
  obtain ⟨tok, c₈, h₈, h₅⟩ := bind_ok h₅
  obtain ⟨rfl, rfl⟩ := token_ok h₈
  split at h₅
  · rename_i hend
    cases (pure_ok h₅).1
    exact ⟨ws, c₆, ws', c₇, h₆, run, hx, run', hws', beq_iff_eq.mp hend⟩
  · exact absurd h₅ unexpected_ok

end Rules.Sound

namespace Rules

open Reader

variable {ctx : Context} {c c' : Cursor} {x : Tree} {k : Nat}

theorem stuck_ok {a : Tree} : ¬ Gives stuck.unary ctx c a c' := by
  intro h
  obtain ⟨p, c₁, -, h⟩ := bind_ok h
  exact refuse_ok h

/-- No expression begins with a closing parenthesis. -/
theorem front_ne_rparen (h : Gives (upTo k).expr ctx c x c') : c.front.token ≠ .rparen := by
  intro hfront
  match k, h with
  | 0, h => exact stuck_ok h
  | 1, h =>
    obtain ⟨y, c₁, h, -⟩ := bind_ok h
    exact stuck_ok h
  | k + 2, h =>
    obtain ⟨y, c₁, h, -⟩ := bind_ok h
    obtain ⟨tok, c₂, h₂, h⟩ := bind_ok h
    obtain ⟨rfl, rfl⟩ := token_ok h₂
    rw [hfront] at h
    obtain ⟨z, c₃, h, -⟩ := bind_ok h
    obtain ⟨tok, c₄, h₄, h⟩ := bind_ok h
    obtain ⟨rfl, rfl⟩ := token_ok h₄
    rw [hfront] at h
    obtain ⟨b, c₅, h₅, h⟩ := bind_ok h
    obtain ⟨rfl, rfl⟩ := atDots_ok h₅
    rw [hfront, if_neg (by simp)] at h
    exact unexpected_ok h

/-- What every round keeps holds in the end. -/
theorem iterate_ok {σ α : Type} {body : σ → Reader (σ ⊕ α)} {I : σ → Cursor → Prop}
    {P : α → Cursor → Prop} (round : ∀ s c y c', I s c → Gives (body s) ctx c y c' →
      Sum.elim (I · c') (P · c') y) {s : σ} {a : α}
    (hs : I s c) (h : Gives (iterate s body) ctx c a c') : P a c' := by
  have hloop {n : Nat} {s : σ} {c : Cursor} (hs : I s c)
      (h : Gives (loop body n s) ctx c a c') : P a c' := by
    induction n generalizing s c with
    | zero =>
      obtain ⟨p, c₁, -, h⟩ := bind_ok h
      exact absurd h refuse_ok
    | succ n ih =>
      obtain ⟨y, c₁, h₁, h⟩ := bind_ok h
      have hy := round s c y c₁ hs h₁
      cases y with
      | inl s => exact ih hy h
      | inr b =>
        obtain ⟨rfl, rfl⟩ := pure_ok h
        exact hy
  obtain ⟨c₁, c₂, h₁, h⟩ := bind_ok h
  cases h₁
  exact hloop hs h

/-- A star that goes with all of an expression is read without binary operators. -/
theorem unary_of_star (h : Gives (upTo (k + 1)).expr ctx c x c') (hx : x.isKind .starExpr = true) :
    Gives (upTo k).unary ctx c x c' := by
  obtain ⟨y, c₁, hunary, h⟩ := bind_ok h
  -- a round that goes on makes a binary expression, and so does every later one
  have hkeeps : x.isKind .binaryExpr = true ∨ x = y ∧ c' = c₁ := by
    refine iterate_ok (I := fun z c => z.isKind .binaryExpr = true ∨ z = y ∧ c = c₁)
      (P := fun z c => z.isKind .binaryExpr = true ∨ z = y ∧ c = c₁) ?_ (.inr ⟨rfl, rfl⟩) h
    intro z c₂ w c₃ hz h
    obtain ⟨l, c₄, h₄, h⟩ := bind_ok h
    obtain ⟨rfl, rfl⟩ := current_ok h₄
    split at h
    · obtain ⟨rfl, rfl⟩ := pure_ok h
      exact hz
    · obtain ⟨u, c₅, -, h⟩ := bind_ok h
      obtain ⟨v, c₆, -, h⟩ := bind_ok h
      obtain ⟨rfl, -⟩ := pure_ok h
      exact .inl rfl
  rcases hkeeps with hbinary | ⟨rfl, rfl⟩
  · rw [Tree.isKind, beq_iff_eq] at hx hbinary
    rw [hx] at hbinary
    cases hbinary
  · exact hunary

end Rules

/-! ### Expressions in a longer text -/

theorem takeWhile_reverse_append {α : Type} {p : α → Bool} {as bs : List α}
    (has : ∀ a, as.getLast? = some a → p a = false) (hbs : ∀ b ∈ bs, p b = true) :
    (as ++ bs).reverse.takeWhile p = bs.reverse := by
  have hnil : as.reverse.takeWhile p = [] := by
    rw [← List.head?_reverse] at has
    cases h : as.reverse with
    | nil => rfl
    | cons a as' => rw [List.takeWhile_cons, has a (by rw [h]; rfl)]; rfl
  rw [List.reverse_append, List.takeWhile_append_of_pos (by simpa using hbs), hnil, List.append_nil]

/-- The semicolons behind some lexemes are as many however they are told apart. -/
theorem length_eq_of_append_eq {ls ms ls' ms' : List Lexeme} (h : ls ++ ms = ls' ++ ms')
    (hls : ∀ l, ls.getLast? = some l → l.token ≠ .semicolon) (hms : ∀ m ∈ ms, m.token = .semicolon)
    (hls' : ∀ l, ls'.getLast? = some l → l.token ≠ .semicolon)
    (hms' : ∀ m ∈ ms', m.token = .semicolon) :
    ms.length = ms'.length := by
  have hback {as bs : List Lexeme} (has : ∀ a, as.getLast? = some a → a.token ≠ .semicolon)
      (hbs : ∀ b ∈ bs, b.token = .semicolon) :
      (as ++ bs).reverse.takeWhile (fun l => l.token == .semicolon) = bs.reverse :=
    takeWhile_reverse_append (by simpa using has) (by simpa using hbs)
  have hreverse : ms.reverse = ms'.reverse := by rw [← hback hls hms, h, hback hls' hms']
  simpa using congrArg List.length hreverse

open Scan Piece in
/-- A line in a text of its own, and in parentheses behind `m` bytes of another text. -/
def Enclosure.ofLine (d : Dialect) (innerLines outerLines : LineTable) (m : Nat) {cs : List Char}
    {ps : List Piece} {ls : List Lexeme} (hps : Splits cs ps)
    (hls : ls = [] ∨ ls = [lineEnd (byteLength (texts ps))])
    (he : Ended (written 0 ps ++ (ls ++ [⟨.eof, .atOffset (byteLength (texts ps)), ""⟩]))) :
    Enclosure where
  dialect := d
  innerLines := innerLines
  outerLines := outerLines
  place p := p.advance (m + 1)
  place_none := rfl
  front := written 0 ps
  tail := ls ++ [⟨.eof, .atOffset (byteLength (texts ps)), ""⟩]
  before := some (.atOffset m)
  closing := ⟨.rparen, .atOffset (m + 1 + byteLength (texts ps)), ""⟩
  rest :=
    [lineEnd (m + 1 + byteLength (texts ps) + 1),
      ⟨.eof, .atOffset (m + 1 + byteLength (texts ps) + 1), ""⟩]
  ended := he
  notLineEnd l hl hsemi htext := by
    have hinserted := isInserted_of_written hps hl
    rw [Lexeme.isInserted, hsemi, htext] at hinserted
    cases hinserted
  isTail l hl := by
    rcases hls with rfl | rfl
    · simp_all
    · rcases List.mem_append.mp hl with hl | hl
      · exact .inl (by rw [List.mem_singleton.mp hl]; rfl)
      · exact .inr (by rw [List.mem_singleton.mp hl])
  closing_token := rfl
  tail_ne := by simp
  tail_le := by rcases hls with rfl | rfl <;> simp

namespace Enclosure

open Reader

variable {E : Enclosure} {c c₁ : Cursor} {x : Tree} {k n : Nat}

theorem carry_start :
    E.carry ⟨E.front ++ E.tail, none⟩ = ⟨E.image E.front ++ E.closing :: E.rest, E.before⟩ :=
  E.carry_of_front E.front rfl

theorem carry_end (hc : E.At c) (h : c.rest.length = E.tail.length) :
    ∃ q, E.carry c = ⟨E.closing :: E.rest, q⟩ := by
  obtain ⟨ls, hls, -⟩ := hc.exists_front (Nat.le_of_eq h.symm)
  have hnil : ls = [] := List.eq_nil_of_length_eq_zero (by rw [hls, List.length_append] at h; omega)
  exact ⟨_, by rw [E.carry_of_front ls hls, hnil]; rfl⟩

/-- What is an expression of its own is read as one in parentheses, where types are read too. -/
theorem gives_exprOrType (hn : k + 1 ≤ n) (hc : E.At c) (hahead : E.Ahead c)
    (h : Gives (Rules.upTo (k + 1)).expr (E.inner true) c x c₁)
    (hend : c₁.rest.length = E.tail.length)
    (hstar : c.front.token = .mul → x.isKind .starExpr = true) :
    E.At c₁ ∧ Gives (Rules.upTo n).exprOrType (E.outer true) (E.carry c) (E.image x)
    (E.carry c₁) := by
  have htoken : Gives token (E.outer true) (E.carry c) c.front.token (E.carry c) := by
    change Except.ok ((E.carry c).front.token, E.carry c) = _
    rw [(hc.front_ahead hahead).2.1, image_lexeme_token]
  have hle : E.tail.length + 0 ≤ c₁.rest.length := Nat.le_of_eq hend.symm
  obtain ⟨hc₁, -, hexpr⟩ := (rulesFollow_upTo hn).expr hc x c₁ h
  refine ⟨hc₁, gives_bind htoken ?_⟩
  split
  · rename_i hmul
    obtain ⟨-, -, hunary⟩ := (rulesFollow_upTo (Nat.le_of_succ_le hn)).unary hc x c₁
      (Rules.unary_of_star h (hstar (beq_iff_eq.mp hmul)))
    exact hunary hle
  · exact hexpr hle

end Enclosure

open Reader Scan Piece

variable {d : Dialect} {e : List Char} {x : Tree}

/-- The lexemes of a line that is an expression are those of the expression and the end of the
text. -/
theorem exists_line_of_parseFragment (hline : '\n' ∉ e)
    (hcomments : ∀ s, Scan.ofText d e = .ok s → s.comments = []) (hfirst : firstChar? e ≠ some ';')
    (hlast : lastChar? e ≠ some ';') (h : parseFragment d e = .ok ⟨none, [], .expr x⟩) :
    ∃ ps ls c₁, Splits e ps ∧ IsLine ps ∧ written 0 ps ≠ [] ∧
      (∀ l ∈ (written 0 ps).head?, l.token ≠ .semicolon) ∧
      (ls = [] ∨ ls = [lineEnd (byteLength (texts ps))]) ∧
      Ended (written 0 ps ++ (ls ++ [⟨.eof, .atOffset (byteLength (texts ps)), ""⟩])) ∧
      c₁.rest.length = ls.length + 1 ∧
      Gives (Grammar.rules ((written 0 ps).length + (ls.length + 1))).expr
      ⟨d, LineTable.ofText e, [], true⟩
        ⟨written 0 ps ++ (ls ++ [⟨.eof, .atOffset (byteLength (texts ps)), ""⟩]), none⟩ x c₁ := by
  obtain ⟨s, hscan, h⟩ := exists_of_bind_ok h
  obtain ⟨⟨f, c'⟩, hf, h⟩ := exists_of_bind_ok h
  cases h
  obtain ⟨ps, hps, hisLine, hs⟩ := exists_line_of_ofText hscan hline (hcomments s hscan)
  obtain ⟨ls, hls, hlexemes⟩ := lexemes_ofPieces (d := d) hisLine
  rw [hs] at hlexemes
  have he : Ended s.lexemes := by
    obtain ⟨ps, hsplits, hscans⟩ := scans_of_ofText hscan
    exact hscans.ended hsplits.allSpelled
  have hhead : ∀ l ∈ (written 0 ps).head?, l.token ≠ .semicolon := by
    intro l hl hsemi
    obtain ⟨ms, hwritten⟩ := List.head?_eq_some_iff.mp hl
    exact hfirst (firstChar?_of_written hps hisLine hwritten (fun w hw => hw.semicolon hsemi)
      (by decide))
  have hback : ∀ l, (written 0 ps).getLast? = some l → l.token ≠ .semicolon := by
    intro l hl hsemi
    obtain ⟨ms, hwritten⟩ := List.getLast?_eq_some_iff.mp hl
    exact hlast (lastChar?_of_written hps hisLine hwritten (fun w hw => hw.semicolon hsemi)
      (by decide))
  have hsemis : ∀ l ∈ ls, l.token = .semicolon ∧ l.isWritten = false := by
    rcases hls with rfl | rfl
    · simp
    · exact List.forall_mem_singleton.mpr ⟨rfl, rfl⟩
  have hfront : (⟨s.lexemes, none⟩ : Cursor).front.token ≠ .semicolon := by
    rw [Cursor.front, hlexemes]
    cases hwritten : written 0 ps with
    | nil =>
      rw [hwritten, List.nil_append] at hlexemes
      have hnil := (Scan.ofText_semicolons d e s hscan).before_first ls _ [] hlexemes (.inr rfl)
        fun l hl => (hsemis l hl).2
      rw [hnil]
      rintro ⟨⟩
    | cons l ms => exact hhead l (by rw [hwritten]; rfl)
  rw [hcomments s hscan] at hf
  obtain ⟨ws, c₁, ws', c₂, hexpr, run, hx, run', hws', hend⟩ :=
    (Rules.upTo_sound _).expr_of_fragment he hfront hf
  obtain ⟨m, -, hrest₂⟩ := (run'.ended (run.ended he)).eq_singleton hend
  have hrest₁ : c₁.rest.length = (Word.lexemes ws').length + 1 := by
    rw [run'.rest_eq, hrest₂, List.length_append, List.length_singleton]
  -- the semicolons behind the expression are those behind the tokens of the line
  have happend : written 0 ps ++ ls = Word.lexemes ws ++ Word.lexemes ws' := by
    have hwhole : s.lexemes = Word.lexemes ws ++ c₁.rest := run.rest_eq
    rw [run'.rest_eq, hrest₂, hlexemes, ← List.append_assoc, ← List.append_assoc] at hwhole
    exact List.append_inj_left' hwhole rfl
  have hcount : ls.length = (Word.lexemes ws').length := by
    refine length_eq_of_append_eq happend hback (fun l hl => (hsemis l hl).1)
      (fun l hl => hx.last_ne_semicolon rfl hl) fun l hl => ?_
    obtain ⟨m, hm, heq⟩ := hws' _ (Word.mem_lexemes.mp hl)
    cases heq
    exact hm
  have hne : written 0 ps ≠ [] := by
    intro hnil
    have hlength := congrArg List.length happend
    rw [hnil, List.nil_append, List.length_append, hcount] at hlength
    exact hx.lexemes_ne_nil rfl (List.eq_nil_of_length_eq_zero (by omega))
  refine ⟨ps, ls, c₁, hps, hisLine, hne, hhead, hls, hlexemes ▸ he, by rw [hrest₁, hcount], ?_⟩
  have hlength : s.lexemes.length = (written 0 ps).length + (ls.length + 1) := by
    rw [hlexemes, List.length_append, List.length_append, List.length_singleton]
  rw [← hlength, ← hlexemes]
  exact hexpr

/-- A line that is an expression, in parentheses that begin at some place of another text. -/
theorem exists_enclosed (hline : '\n' ∉ e)
    (hcomments : ∀ s, Scan.ofText d e = .ok s → s.comments = []) (hfirst : firstChar? e ≠ some ';')
    (hlast : lastChar? e ≠ some ';') (hstar : firstChar? e = some '*' → x.isKind .starExpr = true)
    (h : parseFragment d e = .ok ⟨none, [], .expr x⟩) :
    ∃ ps, Splits e ps ∧ IsLine ps ∧
      ∀ (m : Nat) (lines : LineTable) (n : Nat), 4 * ((written 0 ps).length + 2) + 4 ≤ n →
      ∃ l ls q, written (m + 1) ps ++ closingParen (m + 1 + byteLength (texts ps)) = l :: ls ∧
        l.token ≠ .semicolon ∧ l.token ≠ .rparen ∧ l.token ≠ .eof ∧
        Gives (Rules.upTo n).exprOrType ⟨d, lines, [], true⟩ ⟨l :: ls, some (.atOffset m)⟩
          (x.mapPos (·.advance (m + 1))) ⟨closingParen (m + 1 + byteLength (texts ps)), q⟩ := by
  obtain ⟨ps, ls, c₁, hps, hisLine, hne, hhead, hls, he, hc₁, hexpr⟩ :=
    exists_line_of_parseFragment hline hcomments hfirst hlast h
  refine ⟨ps, hps, hisLine, fun m lines n hn => ?_⟩
  let E := Enclosure.ofLine d (LineTable.ofText e) lines m hps hls he
  obtain ⟨l, ms, hwritten⟩ := List.exists_cons_of_ne_nil hne
  have hat : E.At ⟨E.front ++ E.tail, none⟩ := ⟨List.suffix_refl _, he⟩
  have hahead : E.Ahead ⟨E.front ++ E.tail, none⟩ := by
    show E.tail.length < (written 0 ps ++ E.tail).length
    rw [hwritten, List.cons_append, List.length_cons, List.length_append]
    omega
  have hfront : (⟨E.front ++ E.tail, none⟩ : Cursor).front = l := by
    show (written 0 ps ++ E.tail).head?.getD _ = l
    rw [hwritten]
    rfl
  have hmul : l.token = .mul → x.isKind .starExpr = true := by
    intro hl
    refine hstar (firstChar?_of_written hps hisLine hwritten (fun w hw => ?_) (by decide))
    rw [hw.eq_text (by rw [hl]; rfl), hl]
    rfl
  have hdepth : 4 * ((written 0 ps).length + (ls.length + 1)) + 3 + 1 ≤ n := by
    have hle : ls.length ≤ 1 := by rcases hls with rfl | rfl <;> simp
    omega
  have hend : c₁.rest.length = E.tail.length := by
    show c₁.rest.length = (ls ++ [_]).length
    rw [hc₁, List.length_append]
    rfl
  obtain ⟨hat₁, hgives⟩ := E.gives_exprOrType hdepth hat hahead hexpr hend (hfront.symm ▸ hmul)
  obtain ⟨q, hcarry⟩ := E.carry_end hat₁ hend
  have hshift : written (m + 1) ps = E.image E.front := by
    rw [← Nat.zero_add (m + 1), written_add]
    rfl
  have himage : E.image E.front = E.image l :: E.image ms := congrArg E.image hwritten
  rw [hcarry, E.carry_start, himage] at hgives
  refine ⟨E.image l, _, q, by rw [hshift, himage]; rfl, ?_, ?_, ?_, hgives⟩
  · exact hhead l (by rw [hwritten]; rfl)
  · have hclose : (⟨E.front ++ E.tail, none⟩ : Cursor).front.token ≠ .rparen :=
      Rules.front_ne_rparen hexpr
    rwa [hfront] at hclose
  · have heof := hat.front_ne_eof hahead
    rwa [hfront] at heof

theorem parseFragment_of_primary {cs : List Char} {l m n : Lexeme} {ls : List Lexeme} {k : Nat}
    {q : Option Pos} {t : Tree} (hscan : Scan.ofText d cs = .ok ⟨l :: ls, []⟩)
    (hk : 4 * (l :: ls).length + 2 = k) (hl : l.token = .lparen ∨ l.token = .ident)
    (h : Gives (Rules.upTo k).primary ⟨d, LineTable.ofText cs, [], true⟩
      ⟨l :: ls, none⟩ t ⟨[m, n], q⟩)
    (hm : m.token = .semicolon) (hn : n.token = .eof) :
    parseFragment d cs = .ok ⟨none, [], .expr t⟩ := by
  have hf : (Grammar.rules (l :: ls).length).fragment ⟨d, LineTable.ofText cs, [], true⟩
      ⟨l :: ls, none⟩ =
      .ok (⟨none, [], .expr t⟩, ⟨[n], some m.pos⟩) := by
    subst hk
    exact Rules.gives_fragment hl h hm hn
  unfold parseFragment Grammar.run
  rw [hscan]
  change (do
    let (a, _) ← (Grammar.rules (l :: ls).length).fragment ⟨d, LineTable.ofText cs, [], true⟩
      ⟨l :: ls, none⟩
    return a) = _
  rw [hf]
  rfl

/-- **An expression is the same expression in parentheses and as the argument of a call**, unless it
begins with a star that goes with a part of it only. -/
theorem parseFragment_paren (d : Dialect) (e : List Char) (x : Tree) (hline : '\n' ∉ e)
    (hcomments : ∀ s, Scan.ofText d e = .ok s → s.comments = []) (hfirst : firstChar? e ≠ some ';')
    (hlast : lastChar? e ≠ some ';') (hstar : firstChar? e = some '*' → x.isKind .starExpr = true)
    (h : parseFragment d e = .ok ⟨none, [], .expr x⟩) :
    (∃ p q y, x.SameCode y ∧ parseFragment d ('(' :: (e ++ [')'])) =
      .ok ⟨none, [], .expr (.node .parenExpr [.pos p, y, .pos q])⟩) ∧
    ∃ p q r y, x.SameCode y ∧ parseFragment d ('f' :: '(' :: (e ++ [')'])) =
      .ok
      ⟨none, [],
        .expr (.node .callExpr [.ident p "f", .pos q, .list [y], .pos .none, .pos r])⟩ := by
  obtain ⟨ps, hps, hisLine, hgives⟩ := exists_enclosed hline hcomments hfirst hlast hstar h
  have hparen := (hps.paren fun p hp => (hisLine p hp).2).behind_lparen
  have hsame (m : Nat) : x.SameCode (x.mapPos (·.advance (m + 1))) :=
    Tree.sameCode_mapPos (fun p => Pos.isValid_advance p (m + 1)) x
  have hlength {m : Nat} {l : Lexeme} {ls : List Lexeme}
      (h : written (m + 1) ps ++ closingParen (m + 1 + byteLength (texts ps)) = l :: ls) :
      (l :: ls).length = (written 0 ps).length + 3 := by
    rw [← h, ← Nat.zero_add (m + 1), written_add, List.length_append, List.length_map]
    rfl
  constructor
  · obtain ⟨l, ls, q, hls, -, -, -, hx⟩ := hgives 0 (LineTable.ofText ('(' :: (e ++ [')'])))
      (4 * ((written 0 ps).length + 4) + 2) (by omega)
    have hscan : Scan.ofText d _ = .ok ⟨⟨.lparen, .atOffset 0, ""⟩ :: _, []⟩ :=
      ofText_paren d [⟨.token .lparen, ['(']⟩] (by simp [IsLine]) hisLine hparen
    change Scan.ofText d _ =
      .ok ⟨_ :: (written (0 + 1) ps ++ closingParen (0 + 1 + byteLength (texts ps))), []⟩ at hscan
    rw [hls] at hscan
    have hx' : Gives _ ⟨d, LineTable.ofText ('(' :: (e ++ [')'])), [], true⟩ _ _ _ :=
      Rules.gives_paren (l := ⟨.lparen, .atOffset 0, ""⟩) (q := none) hx rfl
    have hprimary := Rules.gives_primary_paren hx' rfl rfl
    refine ⟨_, _, _, hsame 0, parseFragment_of_primary hscan ?_ (.inl rfl) hprimary rfl rfl⟩
    rw [List.length_cons, hlength hls]
  · obtain ⟨l, ls, q, hls, hsemi, hclose, heof, hx⟩ :=
      hgives 1 (LineTable.ofText ('f' :: '(' :: (e ++ [')'])))
      (4 * ((written 0 ps).length + 5) + 2) (by omega)
    have hscan : Scan.ofText d _ = .ok ⟨⟨.ident, .atOffset 0, "f"⟩ :: ⟨.lparen, .atOffset 1,
        ""⟩ :: _, []⟩ :=
      ofText_paren d [⟨.token .ident, ['f']⟩, ⟨.token .lparen, ['(']⟩] (by simp [IsLine]) hisLine
        hparen.behind_name
    change Scan.ofText d _ =
      .ok ⟨_ :: _ :: (written (1 + 1) ps ++ closingParen (1 + 1 + byteLength (texts ps))),
        []⟩ at hscan
    rw [hls] at hscan
    have hcall : Gives _ ⟨d, LineTable.ofText ('f' :: '(' :: (e ++ [')'])), [], true⟩ _ _ _ :=
      Rules.gives_call (x := .ident (.atOffset 0) "f") (l := ⟨.lparen, .atOffset 1, ""⟩)
      (q := some (.atOffset 0)) hx
        rfl rfl hsemi hclose heof
    have hprimary := Rules.gives_primary_call (l := ⟨.ident, .atOffset 0, "f"⟩)
      (q := none) hcall rfl rfl rfl
    refine ⟨_, _, _, _, hsame 1, parseFragment_of_primary hscan ?_ (.inr rfl) hprimary rfl rfl⟩
    rw [List.length_cons, List.length_cons, hlength hls]

/-- The expression of a fragment that is nothing else. -/
def Fragment.expr? : Fragment → Option Tree
  | ⟨none, [], .expr x⟩ => some x
  | _ => none

theorem Fragment.eq_of_expr? {f : Fragment} (h : f.expr? = some x) : f = ⟨none, [], .expr x⟩ := by
  unfold expr? at h
  split at h
  · cases h
    rfl
  · cases h

/-- A star that goes with all of what follows. -/
theorem parseFragment_paren_star :
    ∃ x, parseFragment .pattern "*a[i].g(T\x7bk: b\x7d, ...)".toList = .ok ⟨none, [], .expr x⟩ ∧
      (∃ p q y, x.SameCode y ∧ parseFragment .pattern "(*a[i].g(T\x7bk: b\x7d, ...))".toList =
        .ok ⟨none, [], .expr (.node .parenExpr [.pos p, y, .pos q])⟩) ∧
      ∃ p q r y, x.SameCode y ∧ parseFragment .pattern "f(*a[i].g(T\x7bk: b\x7d, ...))".toList =
        .ok
        ⟨none, [],
          .expr (.node .callExpr [.ident p "f", .pos q, .list [y], .pos .none, .pos r])⟩ := by
  obtain ⟨f, hparse, hf⟩ := exists_of_any_toOption (p := fun f => f.expr?.any (·.isKind .starExpr))
    (show (parseFragment .pattern "*a[i].g(T\x7bk: b\x7d, ...)".toList).toOption.any _ = true by
      decide +kernel)
  obtain ⟨x, hexpr, hx⟩ := (Option.any_eq_true _ _).mp hf
  obtain rfl := Fragment.eq_of_expr? hexpr
  have hcomments : ∀ s, Scan.ofText .pattern "*a[i].g(T\x7bk: b\x7d, ...)".toList = .ok s →
      s.comments = [] := by
    decide +kernel
  exact ⟨x, hparse, parseFragment_paren .pattern _ x (by decide) hcomments (by decide) (by decide)
    (fun _ => hx) hparse⟩

/-- A sum that begins with a star is an expression, but not in parentheses. -/
theorem parseFragment_paren_sum :
    (∃ x, parseFragment .pattern "*a + b".toList = .ok ⟨none, [], .expr x⟩) ∧
      (parseFragment .pattern "(*a + b)".toList).isOk = false ∧
      (parseFragment .pattern "f(*a + b)".toList).isOk = false := by
  obtain ⟨f, hparse, hf⟩ := exists_of_any_toOption (p := fun f => f.expr?.isSome)
    (show (parseFragment .pattern "*a + b".toList).toOption.any _ = true by decide +kernel)
  obtain ⟨x, hexpr⟩ := Option.isSome_iff_exists.mp hf
  obtain rfl := Fragment.eq_of_expr? hexpr
  exact ⟨⟨x, hparse⟩, by decide +kernel, by decide +kernel⟩

end Graft
