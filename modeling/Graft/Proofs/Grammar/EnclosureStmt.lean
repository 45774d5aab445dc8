import Graft.Proofs.Grammar.EnclosureExpr

/-! # Statements inside parentheses

A statement of an expression stands inside the braces of a function literal, so at least one lexeme
is left behind it in front of the end of the text, and nothing it asks about the text is about
the end.  With statements, every production follows itself, and so do the productions tied together,
whatever the depth of calls (`Enclosure.rulesFollow_upTo`).
-/

namespace Graft

open Reader

instance : Placed Rules.Simple :=
  ⟨fun f s =>
    match s with
    | .stmt t => .stmt (Placed.map f t)
    | .range targets p tok q x => .range (Placed.map f targets) (f p) tok (f q) (Placed.map f x)⟩

instance : Placed Rules.LoopHeader :=
  ⟨fun f h =>
    match h with
    | .clauses init cond post =>
      .clauses (Placed.map f init) (Placed.map f cond) (Placed.map f post)
    | .range targets p tok q x => .range (Placed.map f targets) (f p) tok (f q) (Placed.map f x)⟩

namespace Enclosure

variable {E : Enclosure} {r r' : Rules} {literals : Bool} {c : Cursor} {s k : Nat}

@[simp] theorem image_simple (t : Tree) : E.image (Rules.Simple.stmt t) = .stmt (E.image t) := rfl

@[simp] theorem image_range (targets : List Tree) (p : Pos) (t : Token) (q : Pos) (x : Tree) :
    E.image (Rules.Simple.range targets p t q x) = .range (E.image targets)
    (E.place p) t (E.place q) (E.image x) :=
  rfl

@[simp] theorem image_clauses (init cond post : Tree) :
    E.image (Rules.LoopHeader.clauses init cond post) = .clauses (E.image init) (E.image cond)
    (E.image post) := rfl

/-- The item of a list that may be missing. -/
theorem image_getElem? (ts : List Tree) (i : Nat) :
    (E.image ts)[i]?.getD .nil = E.image (ts[i]?.getD .nil) := by
  rw [image_eq_map, List.getElem?_map]
  cases ts[i]? <;> rfl

/-! ### Declarations with specifications -/

theorem follows_importSpec (hc : E.At c) :
    E.Follows 1 1 (Rules.importSpec .nil) (Rules.importSpec .nil) literals c := by
  refine .token hc ?_
  extract_lets jp
  have hjp {x : Tree} {c₁ : Cursor} (h₁ : E.At c₁) : E.Follows 1 1 (jp x)
      (jp (E.image x)) literals c₁ := by
    refine .token h₁ ?_
    split
    · rename_i hstring
      exact (Follows.basicLit h₁ (by rw [beq_iff_eq.mp hstring]; decide)).bind
        fun _ c₂ h₂ => .pure h₂
    · exact .unexpected
  split
  · exact (Follows.ident hc).bind fun _ c₁ h₁ => (hjp h₁).mono
  · rename_i ht
    refine (Follows.take hc (by rw [ht]; decide)).bind fun p c₁ h₁ => .pure_bind ?_
    exact (hjp (x := .ident p ".") h₁).mono
  · exact .pure_bind (hjp hc)

namespace RulesFollow

variable (hr : E.RulesFollow r r') (hc : E.At c)

include hr hc

theorem exprList :
    E.Follows 1 0 r.exprList r'.exprList literals c := .commaList hc fun _ h => hr.expr h

theorem typeSpec : E.Follows 1 1 (r.typeSpec .nil) (r'.typeSpec .nil) literals c := by
  refine (Follows.ident hc).bind fun name c₁ h₁ => .got? h₁ (by decide) (fun _ c₂ h₂ => ?_) ?_
  · exact (hr.type h₂).mono.bind_same fun _ c₃ h₃ => .pure h₃
  · exact (hr.type h₁).mono.bind_same fun _ c₂ h₂ => .pure_of_eq h₂ (by simp)

theorem valueSpec : E.Follows 1 1 (r.valueSpec .nil) (r'.valueSpec .nil) literals c := by
  refine .bind (Follows.commaList (k := 0) hc fun _ h => Follows.ident h)
    fun names c₁ h₁ => .token h₁ ?_
  extract_lets jp jp'
  have hjp {x : Tree} {c₂ : Cursor} (h₂ : E.At c₂) :
      E.Follows 0 1 (jp x) (jp' (E.image x)) literals c₂ := by
    refine .got? h₂ (by decide) (fun _ c₃ h₃ => ?_) (.pure_bind (.pure_of_eq h₂ (by simp)))
    exact (hr.exprList h₃).mono.bind_same fun _ c₄ h₄ => .pure_of_eq h₄ (by simp)
  split
  case h_5 => exact (hr.type h₁).mono.bind_same fun _ c₂ h₂ => hjp h₂
  all_goals exact .pure_bind (hjp h₁)

theorem spec {keyword : Token} : E.Follows 1 1 (r.spec keyword) (r'.spec keyword) literals c := by
  refine .atDots hc fun b hb => ?_
  split
  · rename_i hdots
    exact (Follows.dots hc (hb hdots)).mono
  · refine .position hc (.docFor ?_)
    split
    · exact follows_importSpec hc
    · exact hr.typeSpec hc
    · exact hr.valueSpec hc

theorem declaration (ht : c.front.token ≠ .eof) :
    E.Follows 1 1 (r.declaration .nil) (r'.declaration .nil) literals c := by
  refine .current hc ((Follows.advance hc ht).bind fun _ c₁ h₁ => ?_)
  refine .got? h₁ (by decide) (fun _ c₂ h₂ => ?_) ?_
  · refine .bind_same (.iterate h₂ rfl fun specs c₃ h₃ => .token h₃ ?_) fun specs c₃ h₃ => ?_
    · split
      · exact .pure h₃
      · exact .pure h₃
      · refine (hr.spec h₃).bind fun _ c₄ h₄ => ?_
        exact (Follows.endStatement h₄).bind_same fun _ c₅ h₅ => .pure_of_eq h₅ (by simp)
    · exact (Follows.expect h₃ (by decide)).mono.bind_same fun _ c₄ h₄ => .pure_of_eq h₄ (by simp)
  · exact (hr.spec h₁).mono.bind_same fun _ c₂ h₂ => .pure_of_eq h₂ (by simp)

end RulesFollow

/-! ### Simple statements -/

theorem follows_single {xs : List Tree} {p p' : Pos} (hc : E.At c) :
    E.Follows 0 k (Rules.single xs p) (Rules.single (E.image xs) p') literals c := by
  match xs with
  | [x] => exact .pure hc
  | [] | _ :: _ :: _ => exact .refuse

theorem follows_condition {t : Tree} {p p' : Pos} (hc : E.At c) :
    E.Follows 0 k (Rules.condition t p) (Rules.condition (E.image t) p') literals c := by
  unfold Rules.condition
  split
  · rename_i fields
    rw [image_tree_node]
    exact .pure_of_eq hc (by cases fields <;> rfl)
  · exact .refuse

namespace RulesFollow

variable (hr : E.RulesFollow r r') (hc : E.At c)

include hr hc

theorem simple {rangeAllowed : Bool} :
    E.Follows 1 1 (r.simple rangeAllowed) (r'.simple rangeAllowed) literals c := by
  refine .token hc ?_
  split
  · rename_i hrange
    have hne : c.front.token ≠ .eof := by
      rw [beq_iff_eq.mp ((Bool.and_eq_true _ _).mp hrange).2]; decide
    refine (Follows.take hc hne).bind fun _ c₁ h₁ => ?_
    exact (hr.expr h₁).mono.bind_same fun _ c₂ h₂ => .pure_of_eq h₂ (by simp)
  · refine (hr.exprList hc).bind fun lhs c₁ h₁ => .current h₁ ?_
    rw [image_lexeme_token]
    split
    · rename_i hassign
      have hne : c₁.front.token ≠ .eof := by
        intro heof
        rw [heof] at hassign
        cases hassign
      refine (Follows.advance h₁ hne).mono.bind_same fun _ c₂ h₂ => .token h₂ ?_
      split
      · rename_i hrange
        simp only [Bool.and_eq_true, beq_iff_eq] at hrange
        refine (Follows.take h₂ (by rw [hrange.1.2]; decide)).mono.bind_same fun _ c₃ h₃ => ?_
        exact (hr.expr h₃).mono.bind_same fun _ c₄ h₄ => .pure h₄
      · exact (hr.exprList h₂).mono.bind_same fun _ c₃ h₃ => .pure_of_eq h₃ (by simp)
    · split
      · rename_i hstep
        have hne : c₁.front.token ≠ .eof := by
          intro heof
          rw [heof] at hstep
          cases hstep
        refine (Follows.advance h₁ hne).mono.bind_same fun _ c₂ h₂ => ?_
        exact (follows_single h₂).bind_same fun _ c₃ h₃ => .pure h₃
      · exact (follows_single h₁).bind_same fun _ c₂ h₂ => .pure h₂

theorem simpleStmt : E.Follows 1 1 r.simpleStmt r'.simpleStmt literals c := by
  refine (hr.simple hc).bind fun x c₁ h₁ => ?_
  cases x with
  | stmt s => exact .pure h₁
  | range => exact .unexpected

/-! ### Control statements -/

theorem ifHeader {p p' : Pos} : E.Follows 0 1 (r.ifHeader p) (r'.ifHeader p') literals c := by
  refine .token hc ?_
  extract_lets jp jp'
  have hjp {x : Tree} {c₁ : Cursor} (h₁ : E.At c₁) : E.Follows 0 1 (jp x)
      (jp' (E.image x)) literals c₁ := by
    refine .got? h₁ (by decide) (fun _ c₂ h₂ => ?_) ?_
    · exact (hr.expr h₂).mono.bind_same fun _ c₃ h₃ => .pure h₃
    · exact (follows_condition h₁).bind_same fun _ c₂ h₂ => .pure h₂
  split
  · exact .pure_bind (hjp hc)
  · exact (hr.simpleStmt hc).mono.bind_same fun _ c₁ h₁ => hjp h₁

theorem switchHeader {p p' : Pos} :
    E.Follows 0 1 (r.switchHeader p) (r'.switchHeader p') literals c := by
  refine .token hc ?_
  extract_lets jp jp'
  have hjp {x : Tree} {c₁ : Cursor} (h₁ : E.At c₁) : E.Follows 0 1 (jp x)
      (jp' (E.image x)) literals c₁ := by
    refine .got? h₁ (by decide) (fun _ c₂ h₂ => .token h₂ ?_) ?_
    · split
      · exact .pure h₂
      · refine (hr.simpleStmt h₂).mono.bind_same fun _ c₃ h₃ => ?_
        exact (follows_condition h₃).bind_same fun _ c₄ h₄ => .pure h₄
    · dsimp only
      rw [isNil_image]
      split
      · exact .pure h₁
      · exact (follows_condition h₁).bind_same fun _ c₂ h₂ => .pure h₂
  split
  · exact .pure_bind (hjp hc)
  · exact .pure_bind (hjp hc)
  · exact (hr.simpleStmt hc).mono.bind_same fun _ c₁ h₁ => hjp h₁

theorem stmts : E.Follows 0 1 r.stmts r'.stmts literals c := by
  refine .iterate hc rfl fun stmts c₁ h₁ => .token h₁ ?_
  split
  case h_1 ht =>
    exact (Follows.advance h₁ (by rw [ht]; decide)).mono.bind_same fun _ _ h₂ => .pure h₂
  case h_2 | h_3 | h_4 | h_5 => exact .pure h₁
  case h_6 =>
    refine (hr.stmt h₁).mono.bind_same fun _ c₂ h₂ => ?_
    exact (Follows.endStatement h₂).bind_same fun _ c₃ h₃ => .pure_of_eq h₃ (by simp)

theorem loopClauses {init : Tree} :
    E.Follows 0 1 (r.loopClauses init) (r'.loopClauses (E.image init)) literals c := by
  refine .got? hc (by decide) (fun _ c₁ h₁ => .token h₁ ?_) (.position hc ?_)
  · extract_lets jp jp'
    have hjp {x : Tree} {c₂ : Cursor} (h₂ : E.At c₂) : E.Follows 0 1 (jp x)
        (jp' (E.image x)) literals c₂ := by
      refine (Follows.expect h₂ (by decide)).mono.bind_same fun _ c₃ h₃ => .token h₃ ?_
      extract_lets jp
      split
      · exact .pure_bind (.pure h₃)
      · exact (hr.simpleStmt h₃).mono.bind_same fun _ c₄ h₄ => .pure h₄
    split
    · exact .pure_bind (hjp h₁)
    · exact (hr.expr h₁).mono.bind_same fun _ c₂ h₂ => hjp h₂
  · exact (follows_condition hc).bind_same fun _ c₁ h₁ => .pure h₁

theorem loopHeader : E.Follows 0 1 r.loopHeader r'.loopHeader literals c := by
  refine .token hc ?_
  split
  · exact .pure hc
  · exact hr.loopClauses hc
  · refine .atDots hc fun b hb => .following_end hc Nat.zero_lt_one (by rfl) (by rfl) ?_
    split
    · rename_i hcond
      refine (Follows.dots hc (hb ((Bool.and_eq_true _ _).mp hcond).1)).mono.bind_same
        fun _ _ h => .pure h
    · refine (hr.simple hc).mono.bind_same fun x c₁ h₁ => ?_
      cases x with
      | range => exact .pure_of_eq h₁ rfl
      | stmt s => exact hr.loopClauses h₁

theorem returnResults : E.Follows 0 1 r.returnResults r'.returnResults literals c := by
  refine .token hc ?_
  split
  · exact .pure hc
  · exact .pure hc
  · exact .pure hc
  · exact (hr.exprList hc).mono

omit hr in
theorem branchStmt (ht : c.front.token ≠ .eof) :
    E.Follows 1 1 Rules.branchStmt Rules.branchStmt literals c := by
  refine .current hc ((Follows.advance hc ht).bind fun _ c₁ h₁ => .token h₁ ?_)
  extract_lets jp jp'
  rw [image_lexeme_token]
  split
  · exact (Follows.ident h₁).mono.bind_same fun _ c₂ h₂ => .pure h₂
  · exact .pure_bind (.pure h₁)

theorem ifStep : E.Follows 1 1 r.ifStep r'.ifStep literals c := by
  refine (Follows.expect hc (by decide)).bind fun _ c₁ h₁ => ?_
  refine .bind_same (.withLiterals (hr.ifHeader h₁)) fun (init, cond) c₂ h₂ => ?_
  refine (hr.block h₂).mono.bind_same fun _ c₃ h₃ => ?_
  refine .got? h₃ (by decide) (fun _ c₄ h₄ => .token h₄ ?_) (.pure_bind (.pure h₃))
  split
  · exact (hr.ifStmt h₄).mono.bind_same fun _ c₅ h₅ => .pure h₅
  · exact (hr.block h₄).mono.bind_same fun _ c₅ h₅ => .pure h₅
  · exact .nothing fun _ _ h => unexpected_ok (bind_ok h).choose_spec.choose_spec.1

theorem clause (ht : c.front.token ≠ .eof) : E.Follows 1 1 r.clause r'.clause literals c := by
  refine .current hc ((Follows.advance hc ht).bind fun _ c₁ h₁ => ?_)
  extract_lets jp jp'
  have hjp {xs : List Tree} {c₂ : Cursor} (h₂ : E.At c₂) :
      E.Follows 0 1 (jp xs) (jp' (E.image xs)) literals c₂ := by
    refine (Follows.expect h₂ (by decide)).mono.bind_same fun _ c₃ h₃ => ?_
    exact (hr.stmts h₃).bind_same fun _ c₄ h₄ => .pure_of_eq h₄ (by simp)
  rw [image_lexeme_token]
  split
  · exact (hr.exprList h₁).mono.bind_same fun _ c₂ h₂ => hjp h₂
  · exact .pure_bind (hjp h₁)

theorem switchStmt : E.Follows 1 1 r.switchStmt r'.switchStmt literals c := by
  refine (Follows.expect hc (by decide)).bind fun _ c₁ h₁ => ?_
  refine .bind_same (.withLiterals (hr.switchHeader h₁)) fun (init, tag) c₂ h₂ => ?_
  refine (Follows.expect h₂ (by decide)).mono.bind_same fun _ c₃ h₃ => ?_
  refine .bind_same (.iterate h₃ rfl fun cs c₄ h₄ => .token h₄ ?_) fun _ c₄ h₄ => ?_
  · split
    · rename_i ht
      exact (hr.clause h₄ (by rw [ht]; decide)).mono.bind_same fun _ _ h₅ =>
        .pure_of_eq h₅ (by simp)
    · rename_i ht
      exact (hr.clause h₄ (by rw [ht]; decide)).mono.bind_same fun _ _ h₅ =>
        .pure_of_eq h₅ (by simp)
    · rename_i ht
      exact (Follows.advance h₄ (by rw [ht]; decide)).mono.bind_same fun _ _ h₅ => .pure h₅
    · refine .atDots h₄ fun b hb => ?_
      split
      · rename_i hdots
        refine (Follows.dots h₄ (hb hdots)).mono.bind_same fun _ c₅ h₅ => ?_
        exact (Follows.endStatement h₅).bind_same fun _ _ h₆ => .pure_of_eq h₆ (by simp)
      · exact .pure h₄
  · exact (Follows.expect h₄ (by decide)).mono.bind_same fun _ c₅ h₅ => .pure_of_eq h₅ (by simp)

theorem forStmt : E.Follows 1 1 r.forStmt r'.forStmt literals c := by
  refine (Follows.expect hc (by decide)).bind fun _ c₁ h₁ => ?_
  refine .bind_same (.withLiterals (hr.loopHeader h₁)) fun header c₂ h₂ => ?_
  refine (hr.block h₂).mono.bind_same fun _ c₃ h₃ => ?_
  cases header with
  | clauses => exact .pure h₃
  | range targets => exact .pure_of_eq h₃ (by simp [image_getElem?])

theorem blockStep : E.Follows 1 0 r.blockStep r'.blockStep literals c := by
  refine (Follows.expect hc (by decide)).bind fun _ c₁ h₁ => .bind_before (hr.stmts h₁)
    fun _ c₂ h₂ => ?_
  exact (Follows.expect h₂ (by decide)).bind fun _ c₃ h₃ => .pure_of_eq h₃ (by simp)

theorem stmtStep : E.Follows 1 1 r.stmtStep r'.stmtStep literals c := by
  have hne {t : Token} (ht : c.front.token = t) (hne : t ≠ .eof) : c.front.token ≠ .eof := ht ▸ hne
  refine .token hc ?_
  split
  case h_1 ht | h_2 ht | h_3 ht =>
    exact (hr.declaration hc (hne ht (by decide))).bind fun _ _ h => .pure h
  case h_4 ht | h_5 ht =>
    refine (Follows.take hc (hne ht (by decide))).bind fun _ c₁ h₁ => ?_
    exact (hr.expr h₁).mono.bind_same fun _ c₂ h₂ => .pure h₂
  case h_6 ht =>
    refine (Follows.take hc (hne ht (by decide))).bind fun _ c₁ h₁ => ?_
    exact (hr.returnResults h₁).bind_same fun _ c₂ h₂ => .pure_of_eq h₂ (by simp)
  case h_7 ht | h_8 ht | h_9 ht | h_10 ht => exact branchStmt hc (hne ht (by decide))
  case h_11 => exact (hr.block hc).mono
  case h_12 => exact hr.ifStmt hc
  case h_13 => exact hr.switchStmt hc
  case h_14 => exact hr.forStmt hc
  case h_15 =>
    refine .atDots hc fun b hb => ?_
    split
    · rename_i hdots
      exact (Follows.dots hc (hb hdots)).mono
    · exact hr.simpleStmt hc

omit hc in
/-- One level of calls more. -/
theorem step : E.RulesFollow r.step r'.step where
  type hc := hr.typeStep hc
  unary hc := hr.unaryStep hc
  binary hleast hc := hr.binaryStep hc hleast
  composite hc := hr.compositeStep hc
  block hc := hr.blockStep hc
  ifStmt hc := hr.ifStep hc
  stmt hc := hr.stmtStep hc

end RulesFollow

/-- **The productions of a grammar follow each other** if the second allows as many levels of
calls. -/
theorem rulesFollow_upTo {n m : Nat} (h : n ≤ m) : E.RulesFollow (Rules.upTo n) (Rules.upTo m) := by
  induction n generalizing m with
  | zero =>
    have hstuck {ctx : Context} {c c' : Cursor} {t : Tree}
        (h : Gives (do refuse (← position) .tooDeep) ctx c t c') : False :=
      refuse_ok (bind_ok h).choose_spec.choose_spec.2
    exact ⟨fun _ _ => .nothing fun _ _ => hstuck, fun _ _ => .nothing fun _ _ => hstuck,
      fun _ _ _ => .nothing fun _ _ => hstuck, fun _ _ => .nothing fun _ _ => hstuck,
      fun _ _ => .nothing fun _ _ => hstuck, fun _ _ => .nothing fun _ _ => hstuck,
      fun _ _ => .nothing fun _ _ => hstuck⟩
  | succ n ih =>
    obtain ⟨m, rfl⟩ := Nat.exists_eq_add_of_le' h
    exact (ih (Nat.le_add_left n m)).step

end Enclosure

end Graft
