import Graft.Proofs.Grammar.Settling

/-! # Types and expressions settle

Every production settles and moves the cursor on, if the productions it calls do so at the cursors
it calls them at.  Most consume a token first, and so only ask for the others behind the cursor
(`Rules.SettleAfter`).
-/

namespace Graft

namespace Rules

open Reader

/-- Whether the productions of two grammars settle at a cursor, and move it on. -/
structure SettleAt (r r' : Rules) (c : Cursor) : Prop where
  type : ∀ {ctx}, Advances r.type r'.type ctx c
  unary : ∀ {ctx}, Advances r.unary r'.unary ctx c
  binary : ∀ {ctx least}, 0 < least → Advances (r.binary least) (r'.binary least) ctx c
  composite : ∀ {ctx t}, Advances (r.composite t) (r'.composite t) ctx c
  block : ∀ {ctx}, Advances r.block r'.block ctx c
  ifStmt : ∀ {ctx}, Advances r.ifStmt r'.ifStmt ctx c
  stmt : ∀ {ctx}, Advances r.stmt r'.stmt ctx c

/-- Whether the productions of two grammars settle at all cursors behind one. -/
def SettleAfter (r r' : Rules) (c : Cursor) : Prop := ∀ c', c'.After c → r.SettleAt r' c'

/-- Whether the productions of two grammars settle at a cursor and all behind it. -/
def SettleFrom (r r' : Rules) (c : Cursor) : Prop := ∀ c', c'.From c → r.SettleAt r' c'

variable {r r' : Rules} {ctx : Context} {c c' : Cursor}

theorem SettleFrom.mono (h : r.SettleFrom r' c) (hc : c'.From c) : r.SettleFrom r' c' :=
  fun c'' h'' => h c'' (h''.trans hc)

theorem SettleFrom.after (h : r.SettleFrom r' c) : r.SettleAfter r' c := fun c' h' => h c' h'.from

theorem SettleAfter.from (h : r.SettleAfter r' c) (hc : c'.After c) : r.SettleFrom r' c' :=
  fun c'' h'' => h c'' (h''.after hc)

namespace SettleAt

variable (h : r.SettleAt r' c)

include h

theorem expr : Advances r.expr r'.expr ctx c := h.binary Nat.zero_lt_one

theorem exprOrType : Advances r.exprOrType r'.exprOrType ctx c := by
  refine .token ?_
  split
  · exact h.unary
  · exact h.expr

end SettleAt

/-! ### Types -/

theorem startsType_settles {β : Type} {R : β → Cursor → Prop} {f f' : Bool → Reader β}
    (h : ∀ b, Settles R (f b) (f' b) ctx c) :
    Settles R (startsType >>= f) (startsType >>= f') ctx c := by
  have hstarts : Settles (fun _ c' => c' = c) startsType startsType ctx c := by
    refine .token ?_
    split
    all_goals exact .pure rfl
  exact hstarts.bind fun b _ hc => hc ▸ h b

namespace SettleFrom

variable (hr : r.SettleFrom r' c) (hc : c.Closed)

include hr hc

theorem paramType : Advances r.paramType r'.paramType ctx c := by
  refine .token ?_
  split
  · rename_i hdots
    refine (Settles.take hc (by rw [beq_iff_eq.mp hdots]; decide)).bind fun _ c₁ h₁ => ?_
    exact (hr c₁ h₁.from).type.bind fun _ c₂ h₂ => .pure (h₂.trans h₁.from)
  · exact (hr c hc.here).type

theorem paramEntry : Advances r.paramEntry r'.paramEntry ctx c := by
  refine .atDots fun b hb => .following (.following ?_)
  split
  · rename_i hcond
    exact (Settles.dots hc (hb ((Bool.and_eq_true _ _).mp hcond).1)).bind fun _ _ h => .pure h
  · refine (hr.paramType hc).bind fun _ c₁ h₁ => .token ?_
    split
    · exact .pure h₁
    · exact .pure h₁
    · exact ((hr.mono h₁.from).paramType h₁.closed).bind fun _ c₂ h₂ => .pure (h₂.trans h₁.from)

end SettleFrom

/-- A parameter list is refused for what stands in it. -/
theorem namedFields_cause {pending : List Tree} {es : List ParamEntry} {e : ParseError}
    (h : namedFields pending es = .error e) : e.cause ≠ .tooDeep := by
  have hrest (fs : List Tree) {x : Except ParseError (List Tree)} (hx : x = .error e →
      e.cause ≠ .tooDeep)
      (h : (do return fs ++ (← x)) = Except.error e) : e.cause ≠ .tooDeep := by
    cases x with
    | error e' =>
      cases h
      exact hx rfl
    | ok => cases h
  fun_induction namedFields pending es with
  | case1 => cases h
  | case2 =>
    cases h
    exact nofun
  | case3 pending name type es ih => exact hrest [_] ih h
  | case4 pending type es _ ih => exact hrest [_] ih h
  | case5 pending type es _ _ ih => exact ih h
  | case6 =>
    cases h
    exact nofun

theorem fieldsOfEntries_cause {es : List ParamEntry} {e : ParseError}
    (h : fieldsOfEntries es = .error e) :
    e.cause ≠ .tooDeep := by
  unfold fieldsOfEntries at h
  split at h
  · exact namedFields_cause h
  · cases h

namespace SettleAfter

variable (hr : r.SettleAfter r' c) (hc : c.Closed)

include hr hc

theorem params : Advances r.params r'.params ctx c := by
  refine (Settles.expect hc (by decide)).bind fun _ c₁ h₁ => ?_
  refine .bind (.iterate (Q := fun _ c' => c'.From c₁) h₁.closed fun es c₂ h₂ => .token ?_)
    fun es c₂ h₂ => ?_
  · split
    · exact .pure h₂
    · exact .pure h₂
    · refine (((hr.from h₁).mono h₂).paramEntry h₂.closed).bind fun _ c₃ h₃ => ?_
      exact .got? h₃.closed (by decide) (fun _ _ h₄ => .pure (h₄.trans h₃.from))
        (.pure (h₃.from.trans h₂))
  · refine (Settles.skipLineEnd h₂.closed).bind fun _ c₃ h₃ => ?_
    refine (Settles.expect h₃.closed (by decide)).bind fun _ c₄ h₄ => ?_
    have h₄ : c₄.After c := h₄.trans (h₃.trans (h₂.trans h₁.from))
    split
    · exact .pure h₄
    · rename_i e he
      exact .throw (fieldsOfEntries_cause he)

theorem signature : Advances r.signature r'.signature ctx c := by
  refine (hr.params hc).bind fun _ c₁ h₁ => .token ?_
  have hafter := (hr.from h₁).after
  split
  · exact (hafter.params h₁.closed).bind fun _ c₂ h₂ => .pure (h₂.trans h₁.from)
  · refine startsType_settles fun b => ?_
    split
    · exact (hr c₁ h₁).type.bind fun _ c₂ h₂ => .pure (h₂.trans h₁.from)
    · exact .pure h₁

end SettleAfter

theorem members_settles {member member' : Reader Tree} (hc : c.Closed)
    (hmember : ∀ c', c'.After c → Advances member member' ctx c') :
    Advances (members member) (members member') ctx c := by
  refine (Settles.expect hc (by decide)).bind fun _ c₁ h₁ => ?_
  refine .bind (.iterate (Q := fun _ c' => c'.From c₁) h₁.closed fun fs c₂ h₂ => .token ?_)
    fun fs c₂ h₂ => ?_
  · split
    · exact .pure h₂
    · exact .pure h₂
    · refine .atDots fun b hb => ?_
      extract_lets jp
      have hjp {f : Tree} {c₃ : Cursor} (h₃ : c₃.After c₂) :
          Settles (Round (fun _ c' => c'.From c₁) c₂) (jp f) (jp f) ctx c₃ :=
        (Settles.endStatement h₃.closed).bind fun _ _ h₄ => .pure (h₄.after h₃)
      split
      · rename_i hdots
        exact (Settles.dots h₂.closed (hb hdots)).bind fun _ _ h₃ => hjp h₃
      · exact (hmember c₂ (h₂.after h₁)).bind fun _ _ h₃ => hjp h₃
  · exact (Settles.expect h₂.closed (by decide)).bind fun _ c₃ h₃ =>
      .pure (h₃.trans (h₂.trans h₁.from))

namespace SettleFrom

variable (hr : r.SettleFrom r' c) (hc : c.Closed)

include hr hc

theorem structField : Advances r.structField r'.structField ctx c := by
  refine .position (.docFor fun doc => ?_)
  refine (hr c hc.here).type.bind fun first c₁ h₁ => .token (startsType_settles fun b => ?_)
  extract_lets jp
  have hjp {names : List Tree} {type : Tree} {c₂ : Cursor} (h₂ : c₂.After c) :
      Settles (fun _ c' => c'.After c) (jp (names, type)) (jp (names, type)) ctx c₂ := by
    refine .token ?_
    split
    · rename_i hstring
      refine (Settles.basicLit h₂.closed (by rw [beq_iff_eq.mp hstring]; decide)).bind
        fun _ c₃ h₃ => ?_
      exact .pure (h₃.trans h₂.from)
    · exact .pure_bind (.pure h₂)
  split
  · refine .bind (.iterate (Q := fun _ c' => c'.From c₁) h₁.closed fun ns c₂ h₂ => ?_)
      fun ns c₂ h₂ => ?_
    · refine .got? h₂.closed (by decide) (fun _ c₃ h₃ => ?_) (.pure h₂)
      exact (Settles.ident h₃.closed).bind fun _ _ h₄ => .pure (h₄.trans h₃.from)
    · exact (hr c₂ (h₂.trans h₁.from)).type.bind fun _ c₃ h₃ => .pure_bind
        (hjp (h₃.trans (h₂.trans h₁.from)))
  · exact .pure_bind (hjp h₁)

theorem interfaceField : Advances r.interfaceField r'.interfaceField ctx c := by
  refine .position (.docFor fun doc => ?_)
  refine (hr c hc.here).type.bind fun first c₁ h₁ => .token ?_
  split
  · exact ((hr.mono h₁.from).after.signature h₁.closed).bind fun _ c₂ h₂ => .pure (h₂.trans h₁.from)
  · exact .pure h₁

end SettleFrom

theorem typeName_settles (hc : c.Closed) : Advances typeName typeName ctx c := by
  refine (Settles.ident hc).bind fun x c₁ h₁ => ?_
  refine .got? h₁.closed (by decide) (fun _ c₂ h₂ => ?_) (.pure h₁)
  exact (Settles.ident h₂.closed).bind fun _ c₃ h₃ => .pure (h₃.trans (h₂.from.trans h₁.from))

namespace SettleAfter

variable (hr : r.SettleAfter r' c) (hc : c.Closed)

include hr hc

theorem arrayType (ht : c.front.token = .lbrack) : Advances r.arrayType r'.arrayType ctx c := by
  refine (Settles.take hc (by rw [ht]; decide)).bind fun _ c₁ h₁ => .token ?_
  extract_lets jp jp'
  have hjp {len : Tree} {c₂ : Cursor} (h₂ : c₂.From c₁) :
      Settles (fun _ c' => c'.After c) (jp len) (jp' len) ctx c₂ := by
    refine (Settles.expect h₂.closed (by decide)).bind fun _ c₃ h₃ => ?_
    have h₃ := h₃.trans (h₂.trans h₁.from)
    exact (hr c₃ h₃).type.bind fun _ c₄ h₄ => .pure (h₄.trans h₃.from)
  split
  · exact .pure_bind (hjp h₁.closed.here)
  · rename_i hdots
    refine (Settles.take h₁.closed (by rw [hdots]; decide)).bind fun _ c₂ h₂ => ?_
    exact .pure_bind (hjp h₂.from)
  · exact (hr c₁ h₁).expr.bind fun _ c₂ h₂ => hjp h₂.from

theorem mapType (ht : c.front.token = .kwMap) : Advances r.mapType r'.mapType ctx c := by
  refine (Settles.take hc (by rw [ht]; decide)).bind fun _ c₁ h₁ => ?_
  refine (Settles.expect h₁.closed (by decide)).bind fun _ c₂ h₂ => ?_
  have h₂ := h₂.trans h₁.from
  refine (hr c₂ h₂).type.bind fun _ c₃ h₃ => ?_
  refine (Settles.expect h₃.closed (by decide)).bind fun _ c₄ h₄ => ?_
  have h₄ := h₄.trans (h₃.trans h₂.from).from
  exact (hr c₄ h₄).type.bind fun _ c₅ h₅ => .pure (h₅.trans h₄.from)

theorem typeStep : Advances r.typeStep r'.typeStep ctx c := by
  have htake {t : Token} (ht : c.front.token = t) (hne : t ≠ .eof) : Advances take take ctx c :=
    .take hc (ht ▸ hne)
  refine .token ?_
  split
  · exact typeName_settles hc
  · rename_i ht
    refine (htake ht (by decide)).bind fun _ c₁ h₁ => ?_
    exact (hr c₁ h₁).type.bind fun _ c₂ h₂ => .pure (h₂.trans h₁.from)
  · rename_i ht
    exact hr.arrayType hc ht
  · rename_i ht
    exact hr.mapType hc ht
  · rename_i ht
    refine (htake ht (by decide)).bind fun _ c₁ h₁ => ?_
    exact ((hr.from h₁).after.signature h₁.closed).bind fun _ c₂ h₂ => .pure (h₂.trans h₁.from)
  · rename_i ht
    refine (htake ht (by decide)).bind fun _ c₁ h₁ => ?_
    refine .bind (members_settles h₁.closed fun c' h' => ?_) fun _ c₂ h₂ => .pure (h₂.trans h₁.from)
    exact ((hr.from h₁).mono h'.from).structField h'.closed
  · rename_i ht
    refine (htake ht (by decide)).bind fun _ c₁ h₁ => ?_
    refine .bind (members_settles h₁.closed fun c' h' => ?_) fun _ c₂ h₂ => .pure (h₂.trans h₁.from)
    exact ((hr.from h₁).mono h'.from).interfaceField h'.closed
  · rename_i ht
    refine (htake ht (by decide)).bind fun _ c₁ h₁ => ?_
    refine (hr c₁ h₁).type.bind fun _ c₂ h₂ => ?_
    exact (Settles.expect h₂.closed (by decide)).bind fun _ c₃ h₃ =>
      .pure (h₃.trans (h₂.trans h₁.from).from)
  · exact .unexpected

/-! ### Expressions -/

theorem paren (ht : c.front.token = .lparen) : Advances r.paren r'.paren ctx c := by
  refine (Settles.take hc (by rw [ht]; decide)).bind fun _ c₁ h₁ => ?_
  refine .bind (.withLiterals (hr c₁ h₁).exprOrType) fun x c₂ h₂ => ?_
  refine (Settles.skipLineEnd h₂.closed).bind fun _ c₃ h₃ => ?_
  refine (Settles.expect h₃.closed (by decide)).bind fun _ c₄ h₄ => .pure ?_
  exact h₄.trans (h₃.trans (h₂.trans h₁.from).from)

theorem selector {x : Tree} (ht : c.front.token = .period) :
    Advances (r.selector x) (r'.selector x) ctx c := by
  refine (Settles.advance hc (by rw [ht]; decide)).bind fun _ c₁ h₁ => .token ?_
  split
  · exact (Settles.ident h₁.closed).bind fun _ c₂ h₂ => .pure (h₂.trans h₁.from)
  · rename_i ht
    refine (Settles.take h₁.closed (by rw [ht]; decide)).bind fun _ c₂ h₂ => ?_
    refine (hr c₂ (h₂.trans h₁.from)).type.bind fun _ c₃ h₃ => ?_
    refine (Settles.expect h₃.closed (by decide)).bind fun _ c₄ h₄ => .pure ?_
    exact h₄.trans ((h₃.trans h₂.from).trans h₁.from).from
  · exact .unexpected

theorem indexOrSlice {x : Tree} : Advances (r.indexOrSlice x) (r'.indexOrSlice x) ctx c := by
  refine (Settles.expect hc (by decide)).bind fun _ c₁ h₁ => .withLiterals (.token ?_)
  extract_lets jp jp'
  have hjp {low : Tree} {ctx : Context} {c₂ : Cursor} (h₂ : c₂.From c₁) :
      Settles (fun _ c' => c'.After c) (jp low) (jp' low) ctx c₂ := by
    refine .got? h₂.closed (by decide) (fun _ c₃ h₃ => .token ?_) ?_
    · have h₃ := (h₃.trans h₂).trans h₁.from
      extract_lets jp
      have hjp {high : Tree} {ctx : Context} {c₄ : Cursor} (h₄ : c₄.From c₃) :
          Settles (fun _ c' => c'.After c) (jp high) (jp high) ctx c₄ :=
        (Settles.expect h₄.closed (by decide)).bind fun _ c₅ h₅ =>
          .pure (h₅.trans (h₄.trans h₃.from))
      split
      · exact .pure_bind (hjp h₃.closed.here)
      · exact (hr c₃ h₃).expr.bind fun _ c₄ h₄ => hjp h₄.from
    · exact (Settles.expect h₂.closed (by decide)).bind fun _ c₃ h₃ =>
        .pure (h₃.trans (h₂.trans h₁.from))
  split
  · exact .pure_bind (hjp h₁.closed.here)
  · exact (hr c₁ h₁).expr.bind fun _ c₂ h₂ => hjp h₂.from

end SettleAfter

namespace SettleFrom

variable (hr : r.SettleFrom r' c) (hc : c.Closed)

include hr hc

theorem arguments : Settles (fun _ c' => c'.From c) r.arguments r'.arguments ctx c := by
  refine .iterate hc fun (args, spread) c₁ h₁ => ?_
  refine (Settles.skipLineEnd h₁.closed).bind fun _ c₂ h₂ => .token ?_
  have h₂' := h₂.trans h₁
  split
  · exact .pure h₂'
  · exact .pure h₂'
  · refine (hr c₂ h₂').exprOrType.bind fun _ c₃ h₃ => ?_
    have h₃ := h₃.trans h₂
    refine .got? h₃.closed (by decide) (fun _ c₄ h₄ => ?_) ?_
    · have h₄ := h₄.trans h₃.from
      exact .got? h₄.closed (by decide) (fun _ _ h₅ => .pure (h₅.trans h₄.from))
        (.pure (h₄.from.trans h₁))
    · exact .got? h₃.closed (by decide) (fun _ _ h₄ => .pure (h₄.trans h₃.from))
        (.pure (h₃.from.trans h₁))

theorem elementValue : Advances r.elementValue r'.elementValue ctx c := by
  refine .token ?_
  split
  · exact (hr c hc.here).composite
  · exact (hr c hc.here).expr

theorem element : Advances r.element r'.element ctx c := by
  refine (hr.elementValue hc).bind fun _ c₁ h₁ => ?_
  refine .got? h₁.closed (by decide) (fun _ c₂ h₂ => ?_) (.pure h₁)
  have h₂ := h₂.trans h₁.from
  exact ((hr.mono h₂.from).elementValue h₂.closed).bind fun _ c₃ h₃ => .pure (h₃.trans h₂.from)

theorem elements : Settles (fun _ c' => c'.From c) r.elements r'.elements ctx c := by
  refine .iterate hc fun elts c₁ h₁ => ?_
  refine (Settles.skipLineEnd h₁.closed).bind fun _ c₂ h₂ => .token ?_
  have h₂' := h₂.trans h₁
  split
  · exact .pure h₂'
  · exact .pure h₂'
  · refine ((hr.mono h₂').element h₂.closed).bind fun _ c₃ h₃ => ?_
    have h₃ := h₃.trans h₂
    exact .got? h₃.closed (by decide) (fun _ _ h₄ => .pure (h₄.trans h₃.from))
      (.pure (h₃.from.trans h₁))

end SettleFrom

namespace SettleAfter

variable (hr : r.SettleAfter r' c) (hc : c.Closed)

include hr hc

theorem call {f : Tree} : Advances (r.call f) (r'.call f) ctx c := by
  refine (Settles.expect hc (by decide)).bind fun _ c₁ h₁ => ?_
  refine .bind (.withLiterals ((hr.from h₁).arguments h₁.closed)) fun _ c₂ h₂ => ?_
  refine (Settles.skipLineEnd h₂.closed).bind fun _ c₃ h₃ => ?_
  exact (Settles.expect h₃.closed (by decide)).bind fun _ c₄ h₄ =>
    .pure (h₄.trans (h₃.trans (h₂.trans h₁.from)))

theorem compositeStep {type : Tree} :
    Advances (r.compositeStep type) (r'.compositeStep type) ctx c := by
  refine (Settles.expect hc (by decide)).bind fun _ c₁ h₁ => ?_
  refine .bind (.withLiterals ((hr.from h₁).elements h₁.closed)) fun _ c₂ h₂ => ?_
  refine (Settles.skipLineEnd h₂.closed).bind fun _ c₃ h₃ => ?_
  exact (Settles.expect h₃.closed (by decide)).bind fun _ c₄ h₄ =>
    .pure (h₄.trans (h₃.trans (h₂.trans h₁.from)))

omit hc in
theorem funcOperand (htype : ∀ {ctx}, Advances r.type r'.type ctx c) :
    Advances r.funcOperand r'.funcOperand ctx c := by
  refine htype.bind fun _ c₁ h₁ => .token ?_
  split
  · exact .bind (.withLiterals (hr c₁ h₁).block) fun _ c₂ h₂ => .pure (h₂.trans h₁.from)
  · exact .pure h₁

theorem operand (htype : ∀ {ctx}, Advances r.type r'.type ctx c) :
    Advances r.operand r'.operand ctx c := by
  have hliteral {t : Token} (ht : c.front.token = t) (hne : t ≠ .eof) : Advances basicLit
      basicLit ctx c :=
    .basicLit hc (ht ▸ hne)
  refine .token ?_
  split
  case h_1 => exact .ident hc
  case h_2 ht | h_3 ht | h_4 ht | h_5 ht | h_6 ht => exact hliteral ht (by decide)
  case h_7 ht => exact hr.paren hc ht
  case h_8 => exact hr.funcOperand htype
  case h_9 | h_10 | h_11 | h_12 => exact htype
  case h_13 =>
    refine .atDots fun b hb => ?_
    split
    · rename_i hdots
      exact .dots hc (hb hdots)
    · exact .unexpected

end SettleAfter

theorem isLiteralType_settles {β : Type} {R : β → Cursor → Prop} {x : Tree} {f f' : Bool → Reader β}
    (h : ∀ b, Settles R (f b) (f' b) ctx c) : Settles R (isLiteralType x >>= f)
    (isLiteralType x >>= f') ctx c := by
  have hlooks : Settles (fun _ c' => c' = c) (isLiteralType x) (isLiteralType x) ctx c := by
    unfold isLiteralType
    split
    · exact .look rfl (.pure rfl)
    · exact .look rfl (.pure rfl)
    all_goals exact .pure rfl
  exact hlooks.bind fun b _ hc => hc ▸ h b

namespace SettleAfter

variable (hr : r.SettleAfter r' c) (hc : c.Closed)

include hr hc

theorem primary (htype : ∀ {ctx}, Advances r.type r'.type ctx c) :
    Advances r.primary r'.primary ctx c := by
  refine (hr.operand hc htype).bind fun _ c₁ h₁ => .iterate h₁.closed fun x c₂ h₂ => .token ?_
  have hafter := (hr.from (h₂.after h₁)).after
  split
  · rename_i ht
    exact (hafter.selector h₂.closed ht).bind fun _ _ h₃ => .pure h₃
  · exact (hafter.indexOrSlice h₂.closed).bind fun _ _ h₃ => .pure h₃
  · exact (hafter.call h₂.closed).bind fun _ _ h₃ => .pure h₃
  · refine isLiteralType_settles fun b => ?_
    split
    · exact (hr c₂ (h₂.after h₁)).composite.bind fun _ _ h₃ => .pure h₃
    · exact .pure (h₂.after h₁)
  · exact .pure (h₂.after h₁)

theorem unaryStep (htype : ∀ {ctx}, Advances r.type r'.type ctx c) :
    Advances r.unaryStep r'.unaryStep ctx c := by
  have hprefix {t : Token} (ht : c.front.token = t) (hne : t ≠ .eof) :
      Advances (do let l ← current; advance; return Tree.node .unaryExpr [.pos l.pos,
        .tok l.token, ← r.unary])
        (do let l ← current; advance; return Tree.node .unaryExpr [.pos l.pos, .tok l.token,
          ← r'.unary]) ctx c := by
    refine .current ((Settles.advance hc (ht ▸ hne)).bind fun _ c₁ h₁ => ?_)
    exact (hr c₁ h₁).unary.bind fun _ c₂ h₂ => .pure (h₂.trans h₁.from)
  refine .token ?_
  split
  case h_1 ht | h_2 ht | h_3 ht | h_4 ht | h_5 ht | h_6 ht => exact hprefix ht (by decide)
  case h_7 ht =>
    refine (Settles.take hc (by rw [ht]; decide)).bind fun _ c₁ h₁ => ?_
    exact (hr c₁ h₁).unary.bind fun _ c₂ h₂ => .pure (h₂.trans h₁.from)
  case h_8 => exact hr.primary hc htype

omit hc in
theorem binaryStep (hunary : ∀ {ctx}, Advances r.unary r'.unary ctx c) {least : Nat}
    (hleast : 0 < least) :
    Advances (r.binaryStep least) (r'.binaryStep least) ctx c := by
  refine hunary.bind fun _ c₁ h₁ => .iterate h₁.closed fun x c₂ h₂ => .current ?_
  split
  · exact .pure (h₂.after h₁)
  · rename_i hprec
    have heof : c₂.front.token ≠ .eof := by
      intro heof
      rw [heof] at hprec
      exact hprec hleast
    refine (Settles.advance h₂.closed heof).bind fun _ c₃ h₃ => ?_
    refine .bind ((hr c₃ ((h₃.trans h₂).trans h₁.from)).binary (Nat.succ_pos _)) fun _ c₄ h₄ => ?_
    exact .pure (h₄.trans h₃.from)

end SettleAfter

end Rules
end Graft
