import Graft.Proofs.Grammar.SettlingExpr
import Mathlib.Logic.Function.Iterate

/-! # Reading ends

Every cycle of calls among the productions consumes a lexeme, and so does every round of their
loops.  Where none is consumed, a statement calls an expression, that its first operand, and that a
type, and there it ends.  Rules that are cut off four levels of calls for each lexeme of a text
settle on it, then (`Rules.settleTo_iterate`): the induction is on the number of levels, and one
level more is enough for one call more (`Rules.SettleTo.step`).

Files, fragments and the three readings of a body call nothing but these rules, in front of no less
of the text.  So reading answers with a tree or refuses the text for what stands in it, and never
for depth (`parse_settles`).
-/

namespace Graft

namespace Rules

open Reader

variable {r r' : Rules} {ctx : Context} {c c' : Cursor}

/-! ### Declarations with specifications -/

theorem importSpec_settles (hc : c.Closed) {doc : Tree} :
    Advances (importSpec doc) (importSpec doc) ctx c := by
  refine .token ?_
  extract_lets jp
  have hjp {name : Tree} {c₁ : Cursor} (h₁ : c₁.From c) :
      Settles (fun _ c' => c'.After c) (jp name) (jp name) ctx c₁ := by
    refine .token ?_
    split
    · rename_i hstring
      have hne : c₁.front.token ≠ .eof := by rw [beq_iff_eq.mp hstring]; decide
      exact (Settles.basicLit h₁.closed hne).bind fun _ c₂ h₂ => .pure (h₂.trans h₁)
    · exact .unexpected
  split
  · exact (Settles.ident hc).bind fun _ c₁ h₁ => hjp h₁.from
  · rename_i ht
    exact (Settles.take hc (by rw [ht]; decide)).bind fun _ c₁ h₁ => .pure_bind (hjp h₁.from)
  · exact .pure_bind (hjp hc.here)

namespace SettleFrom

variable (hr : r.SettleFrom r' c) (hc : c.Closed)

include hr hc

theorem exprList :
    Advances r.exprList r'.exprList ctx c := .commaList hc fun c' h' => (hr c' h').expr

theorem typeSpec {doc : Tree} : Advances (r.typeSpec doc) (r'.typeSpec doc) ctx c := by
  refine (Settles.ident hc).bind fun _ c₁ h₁ => .got? h₁.closed (by decide) (fun _ c₂ h₂ => ?_) ?_
  · have h₂ := h₂.trans h₁.from
    exact (hr c₂ h₂.from).type.bind fun _ c₃ h₃ => .pure (h₃.trans h₂.from)
  · exact (hr c₁ h₁.from).type.bind fun _ c₂ h₂ => .pure (h₂.trans h₁.from)

theorem valueSpec {doc : Tree} : Advances (r.valueSpec doc) (r'.valueSpec doc) ctx c := by
  refine .bind (.commaList hc fun _ h => .ident h.closed) fun names c₁ h₁ => .token ?_
  extract_lets jp jp'
  have hjp {type : Tree} {c₂ : Cursor} (h₂ : c₂.From c₁) :
      Settles (fun _ c' => c'.After c) (jp type) (jp' type) ctx c₂ := by
    have h₂ := h₂.after h₁
    refine .got? h₂.closed (by decide) (fun _ c₃ h₃ => ?_) (.pure_bind (.pure h₂))
    have h₃ := h₃.trans h₂.from
    exact ((hr.mono h₃.from).exprList h₃.closed).bind fun _ c₄ h₄ => .pure (h₄.trans h₃.from)
  split
  case h_5 => exact (hr c₁ h₁.from).type.bind fun _ c₂ h₂ => hjp h₂.from
  all_goals exact .pure_bind (hjp h₁.closed.here)

theorem spec {keyword : Token} : Advances (r.spec keyword) (r'.spec keyword) ctx c := by
  refine .atDots fun b hb => ?_
  split
  · rename_i hdots
    exact .dots hc (hb hdots)
  · refine .position (.docFor fun doc => ?_)
    split
    · exact importSpec_settles hc
    · exact hr.typeSpec hc
    · exact hr.valueSpec hc

end SettleFrom

namespace SettleAfter

variable (hr : r.SettleAfter r' c) (hc : c.Closed)

include hr hc

theorem declaration {doc : Tree} (ht : c.front.token ≠ .eof) :
    Advances (r.declaration doc) (r'.declaration doc) ctx c := by
  refine .current ((Settles.advance hc ht).bind fun _ c₁ h₁ => ?_)
  refine .got? h₁.closed (by decide) (fun _ c₂ h₂ => ?_) ?_
  · have h₂ := h₂.trans h₁.from
    refine .bind (.iterate (Q := fun _ c' => c'.From c₂) h₂.closed fun specs c₃ h₃ => .token ?_)
      fun specs c₃ h₃ => ?_
    · split
      · exact .pure h₃
      · exact .pure h₃
      · refine ((hr.from (h₃.after h₂)).spec h₃.closed).bind fun _ c₄ h₄ => ?_
        exact (Settles.endStatement h₄.closed).bind fun _ c₅ h₅ => .pure (h₅.after h₄)
    · exact (Settles.expect h₃.closed (by decide)).bind fun _ c₄ h₄ =>
        .pure (h₄.trans (h₃.trans h₂.from))
  · exact ((hr.from h₁).spec h₁.closed).bind fun _ c₂ h₂ => .pure (h₂.trans h₁.from)

end SettleAfter

/-! ### Simple statements -/

theorem single_settles {xs : List Tree} {p : Pos} :
    Settles (fun _ c' => c' = c) (single xs p) (single xs p) ctx c := by
  unfold single
  split
  · exact .pure rfl
  · exact .refuse nofun

theorem condition_settles {t : Tree} {p : Pos} :
    Settles (fun _ c' => c' = c) (condition t p) (condition t p) ctx c := by
  unfold condition
  split
  · exact .pure rfl
  · exact .refuse nofun

section Simple

variable (hexpr : ∀ c', c'.From c → ∀ {ctx}, Advances r.expr r'.expr ctx c') (hc : c.Closed)

include hexpr hc

theorem simple_settles {rangeAllowed : Bool} :
    Advances (r.simple rangeAllowed) (r'.simple rangeAllowed) ctx c := by
  refine .token ?_
  split
  · rename_i hrange
    have hne : c.front.token ≠ .eof := by
      rw [beq_iff_eq.mp ((Bool.and_eq_true _ _).mp hrange).2]; decide
    refine (Settles.take hc hne).bind fun _ c₁ h₁ => ?_
    exact (hexpr c₁ h₁.from).bind fun _ c₂ h₂ => .pure (h₂.trans h₁.from)
  · refine .bind (.commaList hc fun c' h' => hexpr c' h') fun lhs c₁ h₁ => .current ?_
    split
    · rename_i hassign
      have hne : c₁.front.token ≠ .eof := by
        intro heof
        rw [heof] at hassign
        cases hassign
      refine (Settles.advance h₁.closed hne).bind fun _ c₂ h₂ => .token ?_
      have h₂ := h₂.trans h₁.from
      split
      · rename_i hrange
        simp only [Bool.and_eq_true, beq_iff_eq] at hrange
        refine (Settles.take h₂.closed (by rw [hrange.1.2]; decide)).bind fun _ c₃ h₃ => ?_
        have h₃ := h₃.trans h₂.from
        exact (hexpr c₃ h₃.from).bind fun _ c₄ h₄ => .pure (h₄.trans h₃.from)
      · refine .bind (.commaList h₂.closed fun c' h' => hexpr c' (h'.trans h₂.from))
          fun _ c₃ h₃ => ?_
        exact .pure (h₃.trans h₂.from)
    · split
      · rename_i hstep
        have hne : c₁.front.token ≠ .eof := by
          intro heof
          rw [heof] at hstep
          cases hstep
        refine (Settles.advance h₁.closed hne).bind fun _ c₂ h₂ => ?_
        exact single_settles.bind fun _ _ hc => hc ▸ .pure (h₂.trans h₁.from)
      · exact single_settles.bind fun _ _ hc => hc ▸ .pure h₁

theorem simpleStmt_settles : Advances r.simpleStmt r'.simpleStmt ctx c := by
  refine (simple_settles hexpr hc).bind fun x c₁ h₁ => ?_
  split
  · exact .pure h₁
  · exact .unexpected

end Simple

/-! ### Control statements -/

namespace SettleFrom

variable (hr : r.SettleFrom r' c) (hc : c.Closed)

include hr hc

theorem simple {rangeAllowed : Bool} :
    Advances (r.simple rangeAllowed) (r'.simple rangeAllowed) ctx c :=
  simple_settles (fun c' h' => (hr c' h').expr) hc

theorem simpleStmt : Advances r.simpleStmt r'.simpleStmt ctx c :=
  simpleStmt_settles (fun c' h' => (hr c' h').expr) hc

theorem ifHeader {p : Pos} :
    Settles (fun _ c' => c'.From c) (r.ifHeader p) (r'.ifHeader p) ctx c := by
  refine .token ?_
  extract_lets jp jp'
  have hjp {first : Tree} {c₁ : Cursor} (h₁ : c₁.From c) :
      Settles (fun _ c' => c'.From c) (jp first) (jp' first) ctx c₁ := by
    refine .got? h₁.closed (by decide) (fun _ c₂ h₂ => ?_) ?_
    · have h₂ := h₂.from.trans h₁
      exact (hr c₂ h₂).expr.bind fun _ c₃ h₃ => .pure (h₃.from.trans h₂)
    · exact condition_settles.bind fun _ _ hc => hc ▸ .pure h₁
  split
  · exact .pure_bind (hjp hc.here)
  · exact (hr.simpleStmt hc).bind fun _ c₁ h₁ => hjp h₁.from

theorem switchHeader {p : Pos} :
    Settles (fun _ c' => c'.From c) (r.switchHeader p) (r'.switchHeader p) ctx c := by
  refine .token ?_
  extract_lets jp jp'
  have hjp {first : Tree} {c₁ : Cursor} (h₁ : c₁.From c) :
      Settles (fun _ c' => c'.From c) (jp first) (jp' first) ctx c₁ := by
    refine .got? h₁.closed (by decide) (fun _ c₂ h₂ => .token ?_) ?_
    · have h₂ := h₂.from.trans h₁
      split
      · exact .pure h₂
      · refine ((hr.mono h₂).simpleStmt h₂.closed).bind fun _ c₃ h₃ => ?_
        exact condition_settles.bind fun _ _ hc => hc ▸ .pure (h₃.from.trans h₂)
    · dsimp only
      split
      · exact .pure h₁
      · exact condition_settles.bind fun _ _ hc => hc ▸ .pure h₁
  split
  · exact .pure_bind (hjp hc.here)
  · exact .pure_bind (hjp hc.here)
  · exact (hr.simpleStmt hc).bind fun _ c₁ h₁ => hjp h₁.from

theorem stmts : Settles (fun _ c' => c'.From c) r.stmts r'.stmts ctx c := by
  refine .iterate hc fun stmts c₁ h₁ => .token ?_
  split
  case h_1 ht =>
    exact (Settles.advance h₁.closed (by rw [ht]; decide)).bind fun _ _ h₂ => .pure h₂
  case h_2 | h_3 | h_4 | h_5 => exact .pure h₁
  case h_6 =>
    refine (hr c₁ h₁).stmt.bind fun _ c₂ h₂ => ?_
    exact (Settles.endStatement h₂.closed).bind fun _ c₃ h₃ => .pure (h₃.after h₂)

theorem loopClauses {init : Tree} :
    Settles (fun _ c' => c'.From c) (r.loopClauses init) (r'.loopClauses init) ctx c := by
  refine .got? hc (by decide) (fun _ c₁ h₁ => .token ?_) (.position ?_)
  · extract_lets jp jp'
    have hjp {cond : Tree} {c₂ : Cursor} (h₂ : c₂.From c₁) :
        Settles (fun _ c' => c'.From c) (jp cond) (jp' cond) ctx c₂ := by
      refine (Settles.expect h₂.closed (by decide)).bind fun _ c₃ h₃ => .token ?_
      have h₃ := (h₃.trans (h₂.trans h₁.from)).from
      extract_lets jp
      split
      · exact .pure_bind (.pure h₃)
      · exact ((hr.mono h₃).simpleStmt h₃.closed).bind fun _ c₄ h₄ => .pure (h₄.from.trans h₃)
    split
    · exact .pure_bind (hjp h₁.closed.here)
    · exact (hr c₁ h₁.from).expr.bind fun _ c₂ h₂ => hjp h₂.from
  · refine condition_settles.bind ?_
    rintro _ _ rfl
    exact .pure hc.here

theorem loopHeader : Settles (fun _ c' => c'.From c) r.loopHeader r'.loopHeader ctx c := by
  refine .token ?_
  split
  · exact .pure hc.here
  · exact hr.loopClauses hc
  · refine .atDots fun b hb => .following ?_
    split
    · rename_i hcond
      exact (Settles.dots hc (hb ((Bool.and_eq_true _ _).mp hcond).1)).bind
        fun _ _ h => .pure h.from
    · refine (hr.simple hc).bind fun x c₁ h₁ => ?_
      split
      · exact .pure h₁.from
      · exact ((hr.mono h₁.from).loopClauses h₁.closed).mono fun _ _ h₂ => h₂.trans h₁.from

theorem returnResults : Settles (fun _ c' => c'.From c) r.returnResults r'.returnResults ctx c := by
  refine .token ?_
  split
  · exact .pure hc.here
  · exact .pure hc.here
  · exact .pure hc.here
  · exact (hr.exprList hc).mono fun _ _ h => h.from

end SettleFrom

theorem branchStmt_settles (hc : c.Closed) (ht : c.front.token ≠ .eof) :
    Advances branchStmt branchStmt ctx c := by
  refine .current ((Settles.advance hc ht).bind fun _ c₁ h₁ => .token ?_)
  extract_lets jp
  split
  · exact (Settles.ident h₁.closed).bind fun _ c₂ h₂ => .pure (h₂.trans h₁.from)
  · exact .pure_bind (.pure h₁)

namespace SettleAfter

variable (hr : r.SettleAfter r' c) (hc : c.Closed)

include hr hc

theorem ifStep : Advances r.ifStep r'.ifStep ctx c := by
  refine (Settles.expect hc (by decide)).bind fun _ c₁ h₁ => ?_
  refine .bind (.withLiterals ((hr.from h₁).ifHeader h₁.closed)) fun _ c₂ h₂ => ?_
  have h₂ := h₂.after h₁
  refine (hr c₂ h₂).block.bind fun _ c₃ h₃ => ?_
  have h₃ := h₃.trans h₂.from
  refine .got? h₃.closed (by decide) (fun _ c₄ h₄ => .token ?_) (.pure_bind (.pure h₃))
  have h₄ := h₄.trans h₃.from
  split
  · exact (hr c₄ h₄).ifStmt.bind fun _ c₅ h₅ => .pure (h₅.trans h₄.from)
  · exact (hr c₄ h₄).block.bind fun _ c₅ h₅ => .pure (h₅.trans h₄.from)
  · exact Settles.unexpected.bind (Q := fun _ _ => False) fun _ _ h => h.elim

theorem clause (ht : c.front.token ≠ .eof) : Advances r.clause r'.clause ctx c := by
  refine .current ((Settles.advance hc ht).bind fun _ c₁ h₁ => ?_)
  extract_lets jp jp'
  have hjp {exprs : List Tree} {c₂ : Cursor} (h₂ : c₂.From c₁) :
      Settles (fun _ c' => c'.After c) (jp exprs) (jp' exprs) ctx c₂ := by
    refine (Settles.expect h₂.closed (by decide)).bind fun _ c₃ h₃ => ?_
    have h₃ := h₃.trans (h₂.trans h₁.from)
    exact ((hr.from h₃).stmts h₃.closed).bind fun _ c₄ h₄ => .pure (h₄.after h₃)
  split
  · exact ((hr.from h₁).exprList h₁.closed).bind fun _ c₂ h₂ => hjp h₂.from
  · exact .pure_bind (hjp h₁.closed.here)

theorem switchStmt : Advances r.switchStmt r'.switchStmt ctx c := by
  refine (Settles.expect hc (by decide)).bind fun _ c₁ h₁ => ?_
  refine .bind (.withLiterals ((hr.from h₁).switchHeader h₁.closed)) fun _ c₂ h₂ => ?_
  have h₂ := h₂.after h₁
  refine (Settles.expect h₂.closed (by decide)).bind fun _ c₃ h₃ => ?_
  have h₃ := h₃.trans h₂.from
  refine .bind (.iterate (Q := fun _ c' => c'.From c₃) h₃.closed fun cs c₄ h₄ => .token ?_)
    fun _ c₄ h₄ => ?_
  · have hafter := (hr.from (h₄.after h₃)).after
    split
    · rename_i ht
      exact (hafter.clause h₄.closed (by rw [ht]; decide)).bind fun _ _ h₅ => .pure h₅
    · rename_i ht
      exact (hafter.clause h₄.closed (by rw [ht]; decide)).bind fun _ _ h₅ => .pure h₅
    · rename_i ht
      exact (Settles.advance h₄.closed (by rw [ht]; decide)).bind fun _ _ h₅ => .pure h₅
    · refine .atDots fun b hb => ?_
      split
      · rename_i hdots
        refine (Settles.dots h₄.closed (hb hdots)).bind fun _ c₅ h₅ => ?_
        exact (Settles.endStatement h₅.closed).bind fun _ _ h₆ => .pure (h₆.after h₅)
      · exact .pure h₄
  · exact (Settles.expect h₄.closed (by decide)).bind fun _ c₅ h₅ =>
      .pure (h₅.trans (h₄.trans h₃.from))

theorem forStmt : Advances r.forStmt r'.forStmt ctx c := by
  refine (Settles.expect hc (by decide)).bind fun _ c₁ h₁ => ?_
  refine .bind (.withLiterals ((hr.from h₁).loopHeader h₁.closed)) fun header c₂ h₂ => ?_
  have h₂ := h₂.after h₁
  refine (hr c₂ h₂).block.bind fun _ c₃ h₃ => ?_
  split
  · exact .pure (h₃.trans h₂.from)
  · exact .pure (h₃.trans h₂.from)

theorem blockStep : Advances r.blockStep r'.blockStep ctx c := by
  refine (Settles.expect hc (by decide)).bind fun _ c₁ h₁ => ?_
  refine ((hr.from h₁).stmts h₁.closed).bind fun _ c₂ h₂ => ?_
  exact (Settles.expect h₂.closed (by decide)).bind fun _ c₃ h₃ =>
    .pure (h₃.trans (h₂.trans h₁.from))

/-- A statement may begin with an expression, a block or a conditional statement; all else in it
comes behind a token. -/
theorem stmtStep (hexpr : ∀ c', c'.From c → ∀ {ctx}, Advances r.expr r'.expr ctx c')
    (hblock : ∀ {ctx}, Advances r.block r'.block ctx c)
    (hif : ∀ {ctx}, Advances r.ifStmt r'.ifStmt ctx c) :
    Advances r.stmtStep r'.stmtStep ctx c := by
  have hne {t : Token} (ht : c.front.token = t) (hne : t ≠ .eof) : c.front.token ≠ .eof := ht ▸ hne
  refine .token ?_
  split
  case h_1 ht | h_2 ht | h_3 ht =>
    exact (hr.declaration hc (hne ht (by decide))).bind fun _ _ h => .pure h
  case h_4 ht | h_5 ht =>
    refine (Settles.take hc (hne ht (by decide))).bind fun _ c₁ h₁ => ?_
    exact (hr c₁ h₁).expr.bind fun _ c₂ h₂ => .pure (h₂.trans h₁.from)
  case h_6 ht =>
    refine (Settles.take hc (hne ht (by decide))).bind fun _ c₁ h₁ => ?_
    exact ((hr.from h₁).returnResults h₁.closed).bind fun _ c₂ h₂ => .pure (h₂.after h₁)
  case h_7 ht | h_8 ht | h_9 ht | h_10 ht => exact branchStmt_settles hc (hne ht (by decide))
  case h_11 => exact hblock
  case h_12 => exact hif
  case h_13 => exact hr.switchStmt hc
  case h_14 => exact hr.forStmt hc
  case h_15 =>
    refine .atDots fun b hb => ?_
    split
    · rename_i hdots
      exact .dots hc (hb hdots)
    · exact simpleStmt_settles hexpr hc

end SettleAfter

/-! ### Depth

Between two calls of one production a token is consumed, and a statement that is an expression that
is an operand that is a type is the deepest nesting of calls that consume none.
-/

/-- Whether the productions of two grammars settle at the cursors that `n` levels of calls are
enough for. -/
structure SettleTo (n : Nat) (r r' : Rules) : Prop where
  type : ∀ {ctx c}, c.Closed → 4 * c.rest.length < n → Advances r.type r'.type ctx c
  unary : ∀ {ctx c}, c.Closed → 4 * c.rest.length + 1 < n → Advances r.unary r'.unary ctx c
  binary : ∀ {ctx c least}, c.Closed → 4 * c.rest.length + 2 < n → 0 < least →
    Advances (r.binary least) (r'.binary least) ctx c
  composite : ∀ {ctx c t}, c.Closed → 4 * c.rest.length < n →
    Advances (r.composite t) (r'.composite t) ctx c
  block : ∀ {ctx c}, c.Closed → 4 * c.rest.length < n → Advances r.block r'.block ctx c
  ifStmt : ∀ {ctx c}, c.Closed → 4 * c.rest.length < n → Advances r.ifStmt r'.ifStmt ctx c
  stmt : ∀ {ctx c}, c.Closed → 4 * c.rest.length + 3 < n → Advances r.stmt r'.stmt ctx c

theorem SettleTo.settleAt {n : Nat} (h : SettleTo n r r') (hc : c.Closed)
    (hn : 4 * c.rest.length + 4 ≤ n) :
    r.SettleAt r' c where
  type := h.type hc (by omega)
  unary := h.unary hc (by omega)
  binary := h.binary hc (by omega)
  composite := h.composite hc (by omega)
  block := h.block hc (by omega)
  ifStmt := h.ifStmt hc (by omega)
  stmt := h.stmt hc (by omega)

theorem SettleTo.after {n : Nat} (h : SettleTo n r r') (hn : 4 * c.rest.length ≤ n) :
    r.SettleAfter r' c := by
  intro c' h'
  have hlt := h'.lt
  exact h.settleAt h'.closed (by omega)

theorem SettleTo.from {n : Nat} (h : SettleTo n r r') (hn : 4 * c.rest.length + 4 ≤ n) :
    r.SettleFrom r' c := by
  intro c' h'
  have hle := h'.le
  exact h.settleAt h'.closed (by omega)

/-- One level more is enough for one call more. -/
theorem SettleTo.step {n : Nat} (h : SettleTo n r r') : SettleTo (n + 1) r.step r'.step where
  type hc hn := (h.after (by omega)).typeStep hc
  unary hc hn := (h.after (by omega)).unaryStep hc (h.type hc (by omega))
  binary hc hn hleast := (h.after (by omega)).binaryStep (h.unary hc (by omega)) hleast
  composite hc hn := (h.after (by omega)).compositeStep hc
  block hc hn := (h.after (by omega)).blockStep hc
  ifStmt hc hn := (h.after (by omega)).ifStep hc
  stmt {ctx c} hc hn := by
    refine (h.after (by omega)).stmtStep hc (fun c' h' ctx => ?_) (h.block hc (by omega))
      (h.ifStmt hc (by omega))
    have hle := h'.le
    exact h.binary h'.closed (by omega) Nat.zero_lt_one

/-- **With enough levels the productions settle**, whatever stands below them. -/
theorem settleTo_iterate (n : Nat) (r r' : Rules) :
    SettleTo n (Rules.step^[n] r) (Rules.step^[n] r') := by
  induction n with
  | zero =>
    have hno {m : Nat} {p : Prop} (h : m < 0) : p := absurd h (Nat.not_lt_zero m)
    exact ⟨fun _ h => hno h, fun _ h => hno h, fun _ h => hno h, fun _ h => hno h, fun _ h => hno h,
      fun _ h => hno h, fun _ h => hno h⟩
  | succ n ih =>
    rw [Function.iterate_succ_apply', Function.iterate_succ_apply']
    exact ih.step

theorem upTo_eq_iterate (n : Nat) : upTo n = Rules.step^[n] stuck := by
  induction n with
  | zero => rfl
  | succ n ih => rw [upTo, ih, Function.iterate_succ_apply']

/-! ### Files and fragments -/

namespace SettleFrom

variable (hr : r.SettleFrom r' c) (hc : c.Closed)

include hr hc

theorem genDecl (ht : c.front.token ≠ .eof) : Advances r.genDecl r'.genDecl ctx c := by
  refine .position (.docFor fun doc => ?_)
  refine (hr.after.declaration hc ht).bind fun _ c₁ h₁ => ?_
  exact (Settles.endStatement h₁.closed).bind fun _ c₂ h₂ => .pure (h₂.after h₁)

theorem funcDecl : Advances r.funcDecl r'.funcDecl ctx c := by
  refine .position (.docFor fun doc => ?_)
  refine (Settles.expect hc (by decide)).bind fun _ c₁ h₁ => .token ?_
  extract_lets jp jp'
  have hjp {recv : Tree} {c₂ : Cursor} (h₂ : c₂.From c₁) :
      Settles (fun _ c' => c'.After c) (jp recv) (jp' recv) ctx c₂ := by
    have h₂ := h₂.after h₁
    refine (Settles.ident h₂.closed).bind fun _ c₃ h₃ => ?_
    have h₃ := h₃.trans h₂.from
    refine ((hr.mono h₃.from).after.signature h₃.closed).bind fun _ c₄ h₄ => .token ?_
    have h₄ := h₄.trans h₃.from
    extract_lets type jp
    have hjp {body : Tree} {c₅ : Cursor} (h₅ : c₅.From c₄) :
        Settles (fun _ c' => c'.After c) (jp body) (jp body) ctx c₅ :=
      (Settles.endStatement h₅.closed).bind fun _ c₆ h₆ => .pure ((h₆.trans h₅).after h₄)
    split
    · exact (hr c₄ h₄.from).block.bind fun _ c₅ h₅ => hjp h₅.from
    · exact .pure_bind (hjp h₄.closed.here)
  split
  · exact ((hr.mono h₁.from).after.params h₁.closed).bind fun _ c₂ h₂ => hjp h₂.from
  · exact .pure_bind (hjp h₁.closed.here)

theorem decl : Advances r.decl r'.decl ctx c := by
  have hne {t : Token} (ht : c.front.token = t) (hne : t ≠ .eof) : c.front.token ≠ .eof := ht ▸ hne
  refine .token ?_
  split
  case h_1 ht | h_2 ht | h_3 ht | h_4 ht => exact hr.genDecl hc (hne ht (by decide))
  case h_5 => exact hr.funcDecl hc
  case h_6 =>
    refine .atDots fun b hb => ?_
    split
    · rename_i hdots
      refine (Settles.dots hc (hb hdots)).bind fun _ c₁ h₁ => ?_
      exact (Settles.endStatement h₁.closed).bind fun _ c₂ h₂ => .pure (h₂.after h₁)
    · exact .unexpected

omit hr in
theorem declsWhile {go : Token → Bool} {decl : Rules → Reader Tree} {ds : List Tree}
    (hdecl : ∀ c', c'.From c → go c'.front.token = true → Advances (decl r) (decl r') ctx c') :
    Settles (fun _ c' => c'.From c) (r.declsWhile go decl ds) (r'.declsWhile go decl ds) ctx c := by
  refine .iterate hc fun ds c₁ h₁ => .token ?_
  split
  · rename_i hgo
    exact (hdecl c₁ h₁ hgo).bind fun _ _ h₂ => .pure h₂
  · exact .pure h₁

theorem file : Advances r.file r'.file ctx c := by
  refine .position (.docFor fun doc => ?_)
  refine (Settles.expect hc (by decide)).bind fun _ c₁ h₁ => ?_
  refine (Settles.ident h₁.closed).bind fun _ c₂ h₂ => ?_
  refine (Settles.endStatement h₂.closed).bind fun _ c₃ h₃ => ?_
  have h₃ := h₃.after (h₂.trans h₁.from)
  have hr₃ := hr.mono h₃.from
  refine .bind (SettleFrom.declsWhile h₃.closed fun c' h' hgo => ?_) fun _ c₄ h₄ => ?_
  · exact (hr₃.mono h').genDecl h'.closed (by rw [beq_iff_eq.mp hgo]; decide)
  · have h₄ := h₄.after h₃
    have hr₄ := hr.mono h₄.from
    refine .bind (SettleFrom.declsWhile h₄.closed fun c' h' _ => (hr₄.mono h').decl h'.closed)
      fun _ c₅ h₅ => ?_
    exact .look rfl (.pure (h₅.after h₄))

/-- A body that is one expression. -/
theorem exprBody : Settles (fun _ c' => c'.From c) r.exprBody r'.exprBody ctx c := by
  refine (hr c hc.here).expr.bind fun x c₁ h₁ => ?_
  refine (Settles.skipSemicolons h₁.closed).bind fun _ c₂ h₂ => .token ?_
  split
  · exact .pure (h₂.trans h₁.from)
  · exact .unexpected

/-- A body of statements. -/
theorem stmtsBody : Settles (fun _ c' => c'.From c) r.stmtsBody r'.stmtsBody ctx c := by
  refine (hr.stmts hc).bind fun _ c₁ h₁ => .token ?_
  split
  · exact .pure h₁
  · exact .unexpected

/-- A body of declarations. -/
theorem declsBody : Settles (fun _ c' => c'.From c) r.declsBody r'.declsBody ctx c := by
  refine .bind (SettleFrom.declsWhile hc fun c₁ h₁ _ => ?_) fun _ _ h => .pure h
  refine ((hr.mono h₁).decl h₁.closed).bind fun _ c₂ h₂ => ?_
  exact (Settles.skipSemicolons h₂.closed).bind fun _ _ h₃ => .pure (h₃.after h₂)

end SettleFrom

section FirstOf

variable {α : Type} {Q : α → Cursor → Prop} {worst : Option ParseError} {s : Reader α}
  {ss ss' : List (Reader α)}

theorem firstOf_cons_ok {x : α × Cursor} (h : s ctx c = .ok x) :
    firstOf worst (s :: ss) ctx c = .ok x := by
  simp only [firstOf, h]

theorem firstOf_cons_error (worst : Option ParseError) (e : ParseError) :
    ∃ w, (w = e ∨ worst = some w) ∧ ∀ (s : Reader α) ss, s ctx c = .error e →
      firstOf worst (s :: ss) ctx c = firstOf (some w) ss ctx c := by
  refine ⟨worst.elim e fun w => if w.pos < e.pos then e else w, ?_, fun s ss h => ?_⟩
  · cases worst with
    | none => exact .inl rfl
    | some w =>
      dsimp only [Option.elim]
      split
      · exact .inl rfl
      · exact .inr rfl
  · cases worst <;> simp only [firstOf, h, Option.elim]

/-- Readings of which one is to succeed settle if all of them do. -/
theorem firstOf_settles (hworst : ∀ e, worst = some e → e.cause ≠ .tooDeep)
    (hss : List.Forall₂ (fun s s' => Settles Q s s' ctx c) ss ss') :
    Settles Q (firstOf worst ss) (firstOf worst ss') ctx c := by
  induction hss generalizing worst with
  | nil =>
    cases worst with
    | none => exact .unexpected
    | some e => exact .throw (hworst e rfl)
  | @cons s s' ss ss' h _ ih =>
    cases hs : s ctx c with
    | ok x =>
      have hs' : s' ctx c = .ok x := h.same.symm.trans hs
      exact h.congr ((firstOf_cons_ok hs).trans hs.symm) ((firstOf_cons_ok hs').trans hs'.symm)
    | error e =>
      obtain ⟨w, hw, hnext⟩ := @firstOf_cons_error ctx c α worst e
      have hcause : w.cause ≠ .tooDeep := by
        rcases hw with rfl | hw
        · exact h.cause w hs
        · exact hworst w hw
      have hrest : Settles Q (firstOf (some w) ss) (firstOf (some w) ss') ctx c :=
        ih fun _ hw => Option.some.inj hw ▸ hcause
      exact hrest.congr (hnext s ss hs) (hnext s' ss' (h.same.symm.trans hs))

end FirstOf

namespace SettleFrom

variable (hr : r.SettleFrom r' c) (hc : c.Closed)

include hr hc

theorem body : Settles (fun _ c' => c'.From c) r.body r'.body ctx c := by
  refine .token ?_
  split
  · exact .pure hc.here
  · refine .following ?_
    split
    · exact firstOf_settles nofun
        (.cons (hr.declsBody hc) (.cons (hr.exprBody hc) (.cons (hr.stmtsBody hc) .nil)))
    · exact firstOf_settles nofun
        (.cons (hr.exprBody hc) (.cons (hr.stmtsBody hc) (.cons (hr.declsBody hc) .nil)))

omit hr in
theorem packageClause : Settles (fun _ c' => c'.From c) packageClause packageClause ctx c := by
  refine .got? hc (by decide) (fun _ c₁ h₁ => ?_) (.pure hc.here)
  refine (Settles.ident h₁.closed).bind fun _ c₂ h₂ => ?_
  exact (Settles.endStatement h₂.closed).bind fun _ c₃ h₃ =>
    .pure ((h₃.trans h₂.from).trans h₁.from)

theorem fragment : Settles (fun _ c' => c'.From c) r.fragment r'.fragment ctx c := by
  refine (Settles.skipSemicolons hc).bind fun _ c₁ h₁ => ?_
  refine (SettleFrom.packageClause h₁.closed).bind fun _ c₂ h₂ => ?_
  refine (Settles.skipSemicolons h₂.closed).bind fun _ c₃ h₃ => ?_
  have h₃ := h₃.trans (h₂.trans h₁)
  refine .bind (SettleFrom.declsWhile h₃.closed fun c₄ h₄ hgo => ?_) fun _ c₄ h₄ => ?_
  · refine ((hr.mono (h₄.trans h₃)).genDecl h₄.closed (by rw [beq_iff_eq.mp hgo]; decide)).bind
      fun _ c₅ h₅ => ?_
    exact (Settles.skipSemicolons h₅.closed).bind fun _ _ h₆ => .pure (h₆.after h₅)
  · exact ((hr.mono (h₄.trans h₃)).body h₄.closed).bind fun _ c₅ h₅ =>
      .pure (h₅.trans (h₄.trans h₃))

end SettleFrom

end Rules

/-! ### Whole texts -/

/-- The rules for a text do as rules with more levels do, whatever stands below these. -/
theorem Grammar.settleFrom_rules {c : Cursor} {n : Nat}
    (hn : 4 * c.rest.length + 4 ≤ n) (r : Rules) :
    (Grammar.rules c.rest.length).SettleFrom (Rules.step^[n] r) c := by
  obtain ⟨m, rfl⟩ := Nat.exists_eq_add_of_le hn
  rw [Grammar.rules, Rules.upTo_eq_iterate, Function.iterate_add_apply Rules.step
    (4 * c.rest.length + 4) m r]
  exact (Rules.settleTo_iterate _ _ _).from (Nat.le_refl _)

theorem Piece.recogniseToken_cause {c : Char} {cs : List Char} {cause : Cause}
    (h : recogniseToken c cs = .error cause) : cause ≠ .tooDeep := by
  unfold recogniseToken at h
  split at h
  · cases h
  · split at h
    · cases h
    · split at h
      · split at h
        · cases h
        · cases h
          exact nofun
      · split at h
        · cases h
        · cases h
          exact nofun

theorem Piece.recognise_cause {c : Char} {cs : List Char} {cause : Cause}
    (h : recognise c cs = .error cause) :
    cause ≠ .tooDeep := by
  unfold recognise at h
  split at h
  · cases h
  · split at h
    · cases h
    · split at h
      · cases h
      · split at h
        · split at h
          · cases h
          · cases h
            exact nofun
        · cases htoken : recogniseToken c cs with
          | error cause' =>
            rw [htoken] at h
            cases h
            exact recogniseToken_cause htoken
          | ok =>
            rw [htoken] at h
            cases h

theorem Piece.split_cause {offset : Nat} {cs : List Char} {e : ParseError}
    (h : split offset cs = .error e) :
    e.cause ≠ .tooDeep := by
  fun_induction split offset cs with
  | case1 => cases h
  | case2 offset c cs cause hrecognise =>
    cases h
    exact recognise_cause hrecognise
  | case3 offset c cs kind n hrecognise text ih =>
    cases hrest : split (offset + byteLength text) (cs.drop n) with
    | error e' =>
      rw [hrest] at h
      cases h
      exact ih hrest
    | ok =>
      rw [hrest] at h
      cases h

theorem Scan.ofText_cause {d : Dialect} {cs : List Char} {e : ParseError}
    (h : ofText d cs = .error e) :
    e.cause ≠ .tooDeep := by
  cases hsplit : Piece.split 0 cs with
  | error e' =>
    rw [ofText, hsplit] at h
    cases h
    exact Piece.split_cause hsplit
  | ok =>
    rw [ofText, hsplit] at h
    cases h

theorem Scan.closed_of_ofText {d : Dialect} {cs : List Char} {scan : Scan}
    (h : ofText d cs = .ok scan) :
    Cursor.Closed ⟨scan.lexemes, none⟩ := by
  obtain ⟨ps, hsplits, hscans⟩ := Scan.scans_of_ofText h
  have he := hscans.ended hsplits.allSpelled
  generalize scan.lexemes = ls at he
  fun_induction Ended ls with
  | case1 => exact he.elim
  | case2 l => exact congrArg some he
  | case3 l m ls ih =>
    rw [Cursor.Closed, List.getLast?_cons_cons]
    exact ih he.2

/-- What a production answers of a text is decided by the text, if it settles at all lexemes. -/
theorem Grammar.run_cause {α : Type} {Q : Cursor → α → Cursor → Prop}
    {production : Rules → Reader α} {d : Dialect} {cs : List Char} {e : ParseError}
    (hproduction : ∀ {ctx : Context} {c : Cursor}, c.Closed →
      Reader.Settles (Q c) (production (rules c.rest.length))
      (production (rules c.rest.length)) ctx c)
    (h : run production d cs = .error e) : e.cause ≠ .tooDeep := by
  cases hscan : Scan.ofText d cs with
  | error e' =>
    rw [run, hscan] at h
    cases h
    exact Scan.ofText_cause hscan
  | ok scan =>
    let ctx : Context :=
      ⟨d, LineTable.ofText cs, CommentGroup.group (LineTable.ofText cs) scan.comments, true⟩
    have hsettles := @hproduction ctx ⟨scan.lexemes, none⟩ (Scan.closed_of_ofText hscan)
    cases hrun : production (rules scan.lexemes.length) ctx ⟨scan.lexemes, none⟩ with
    | error e' =>
      have hrun' : run production d cs = .error e' := by
        rw [run, hscan]
        change (production (rules scan.lexemes.length) ctx ⟨scan.lexemes, none⟩ >>= _) = _
        rw [hrun]
        rfl
      cases hrun'.symm.trans h
      exact hsettles.cause e hrun
    | ok x =>
      have hrun' : run production d cs = .ok x.1 := by
        rw [run, hscan]
        change (production (rules scan.lexemes.length) ctx ⟨scan.lexemes, none⟩ >>= _) = _
        rw [hrun]
        rfl
      cases hrun'.symm.trans h

/-- **Reading ends.**  Of any lexemes the last of which is the end of a text, the rules that are cut
off four levels of calls for each of them, and four more, read what rules with any more levels read:
in files, in fragments and in each of the readings of a body, whatever stands below these levels,
nothing is refused for depth, and whatever calls itself consumes a lexeme before.  No text is
refused for depth. -/
theorem parse_settles :
    (∀ (ctx : Context) (c : Cursor) (n : Nat) (deepest : Rules), c.rest.getLast?.map
      (·.token) = some .eof → 4 * c.rest.length + 4 ≤ n →
      let r := Grammar.rules c.rest.length
      let deeper := Rules.step^[n] deepest
      r.SettleFrom deeper c ∧
      Reader.Settles (fun _ c' => c'.After c) r.file deeper.file ctx c ∧
      Reader.Settles (fun _ c' => c'.From c) r.fragment deeper.fragment ctx c ∧
      Reader.Settles (fun _ c' => c'.From c) r.exprBody deeper.exprBody ctx c ∧
      Reader.Settles (fun _ c' => c'.From c) r.stmtsBody deeper.stmtsBody ctx c ∧
      Reader.Settles (fun _ c' => c'.From c) r.declsBody deeper.declsBody ctx c) ∧
    ∀ (d : Dialect) (cs : List Char) (e : ParseError),
      parseFile d cs = .error e ∨ parseFragment d cs = .error e → e.cause ≠ .tooDeep := by
  have hrules {c : Cursor} : (Grammar.rules c.rest.length).SettleFrom
      (Grammar.rules c.rest.length) c := by
    have hr := Grammar.settleFrom_rules (Nat.le_refl (4 * c.rest.length + 4)) Rules.stuck
    rwa [← Rules.upTo_eq_iterate] at hr
  refine ⟨fun ctx c n deepest hc hn => ?_, fun d cs e h => ?_⟩
  · have hr := Grammar.settleFrom_rules hn deepest
    exact ⟨hr, hr.file hc, hr.fragment hc, hr.exprBody hc, hr.stmtsBody hc, hr.declsBody hc⟩
  · rcases h with h | h
    · exact Grammar.run_cause (fun hc => hrules.file hc) h
    · exact Grammar.run_cause (fun hc => hrules.fragment hc) h

/-- Here a call is read with a hundred levels as it is with the twenty for its lexemes, and a file
without a name is refused. -/
theorem parse_settles_call :
    (∃ c : Cursor, c.rest.map (·.token) = [.ident, .lparen, .rparen, .eof] ∧
      Reader.Settles (fun _ c' => c'.From c) (Grammar.rules 4).stmtsBody
      (Rules.step^[100] Rules.stuck).stmtsBody
        ⟨.pattern, .ofText "f()".toList, [], true⟩ c) ∧
      ∃ e, parseFile .code "package".toList = .error e ∧ e.cause ≠ .tooDeep := by
  let ls : List Lexeme :=
    [⟨.ident, .atOffset 0, "f"⟩, ⟨.lparen, .atOffset 1, ""⟩, ⟨.rparen, .atOffset 2, ""⟩,
      ⟨.eof, .atOffset 3, ""⟩]
  refine ⟨⟨⟨ls, none⟩, rfl, ?_⟩, ?_⟩
  · exact (parse_settles.1 _ ⟨ls, none⟩ 100 Rules.stuck rfl (by decide)).2.2.2.2.1
  have hfails : (parseFile .code "package".toList).toOption.isNone = true := by decide +kernel
  cases h : parseFile .code "package".toList with
  | error e => exact ⟨e, rfl, parse_settles.2 .code _ e (.inl h)⟩
  | ok file =>
    rw [h] at hfails
    cases hfails

end Graft
