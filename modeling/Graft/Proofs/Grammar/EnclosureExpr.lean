import Graft.Proofs.Grammar.Enclosure
import Graft.Proofs.Result

/-! # Types and expressions inside parentheses

Every production of types and expressions follows the same production of another grammar, if the
productions it calls do (`Enclosure.RulesFollow`).  What decides it is what each of them asks of the
lexeme in front when it could end there: none of them asks for a line end, the end of a text or a
closing parenthesis.
-/

namespace Graft

open Reader

instance : Placed Rules.ParamEntry := ⟨fun f e => ⟨Placed.map f e.name, Placed.map f e.type⟩⟩

namespace Enclosure

/-- Whether the productions of one grammar follow those of another wherever they stand. -/
structure RulesFollow (E : Enclosure) (r r' : Rules) : Prop where
  type : ∀ {c}, E.At c → ∀ {literals}, E.Follows 1 0 r.type r'.type literals c
  unary : ∀ {c}, E.At c → ∀ {literals}, E.Follows 1 0 r.unary r'.unary literals c
  binary : ∀ {c least}, 0 < least → E.At c →
    ∀ {literals}, E.Follows 1 0 (r.binary least) (r'.binary least) literals c
  composite : ∀ {c t}, E.At c →
    ∀ {literals}, E.Follows 1 0 (r.composite t) (r'.composite (E.image t)) literals c
  block : ∀ {c}, E.At c → ∀ {literals}, E.Follows 1 0 r.block r'.block literals c
  ifStmt : ∀ {c}, E.At c → ∀ {literals}, E.Follows 1 1 r.ifStmt r'.ifStmt literals c
  stmt : ∀ {c}, E.At c → ∀ {literals}, E.Follows 1 1 r.stmt r'.stmt literals c

variable {E : Enclosure} {r r' : Rules} {literals : Bool} {c : Cursor} {s k : Nat}

namespace RulesFollow

variable (hr : E.RulesFollow r r') (hc : E.At c)

include hr hc

theorem expr : E.Follows 1 0 r.expr r'.expr literals c := hr.binary Nat.zero_lt_one hc

theorem exprOrType : E.Follows 1 0 r.exprOrType r'.exprOrType literals c := by
  refine .token hc ?_
  split
  · exact hr.unary hc
  · exact hr.expr hc

end RulesFollow

/-! ### Types -/

theorem follows_startsType (hc : E.At c) :
    E.Follows 0 0 Rules.startsType Rules.startsType literals c := by
  refine .token_end hc rfl rfl ?_
  split
  all_goals exact .pure hc

namespace RulesFollow

variable (hr : E.RulesFollow r r') (hc : E.At c)

include hr hc

theorem paramType : E.Follows 1 0 r.paramType r'.paramType literals c := by
  refine .token hc ?_
  split
  · rename_i hdots
    refine (Follows.take hc (by rw [beq_iff_eq.mp hdots]; decide)).bind fun _ c₁ h₁ => ?_
    exact (hr.type h₁).bind fun _ c₂ h₂ => .pure h₂
  · exact hr.type hc

theorem paramEntry : E.Follows 1 1 r.paramEntry r'.paramEntry literals c := by
  refine .atDots hc fun b hb => .following hc Nat.one_lt_two (.following hc Nat.one_lt_two ?_)
  split
  · rename_i hcond
    exact (Follows.dots hc (hb ((Bool.and_eq_true _ _).mp hcond).1)).bind fun _ _ h => .pure h
  · refine (hr.paramType hc).bind fun _ c₁ h₁ => .token h₁ ?_
    split
    · exact .pure h₁
    · exact .pure h₁
    · exact (hr.paramType h₁).bind fun _ c₂ h₂ => .pure h₂

end RulesFollow

@[simp] theorem image_entry (name : Option Tree) (type : Tree) :
    E.image (⟨name, type⟩ : Rules.ParamEntry) = ⟨E.image name, E.image type⟩ := rfl

@[simp] theorem image_plainField (names : List Tree) (type : Tree) :
    E.image (Rules.plainField names type) = Rules.plainField (E.image names) (E.image type) := by
  simp [Rules.plainField]

/-- The fields of a named parameter list stand where its entries do. -/
theorem namedFields_image {pending fields : List Tree} {es : List Rules.ParamEntry}
    (h : Rules.namedFields pending es = .ok fields) :
    Rules.namedFields (E.image pending) (E.image es) = .ok (E.image fields) := by
  fun_induction Rules.namedFields pending es generalizing fields with
  | case1 =>
    cases h
    rfl
  | case2 => cases h
  | case3 pending name type es ih =>
    obtain ⟨fs, hfs, h⟩ := exists_of_bind_ok h
    cases h
    rw [image_cons, image_entry, image_some, Rules.namedFields, ← image_nil, ih hfs]
    simp [bind, Except.bind, pure, Except.pure]
  | case4 pending type es hdots ih =>
    obtain ⟨fs, hfs, h⟩ := exists_of_bind_ok h
    cases h
    rw [image_cons, image_entry, image_none, Rules.namedFields, isKind_image, if_pos hdots, ih hfs]
    simp [bind, Except.bind, pure, Except.pure]
  | case5 pending type es hdots hident ih =>
    rw [image_cons, image_entry, image_none, Rules.namedFields, isKind_image,
      if_neg hdots, isKind_image, if_pos hident, ← ih h]
    simp
  | case6 => cases h

theorem fieldsOfEntries_image {es : List Rules.ParamEntry} {fields : List Tree}
    (h : Rules.fieldsOfEntries es = .ok fields) :
    Rules.fieldsOfEntries (E.image es) = .ok (E.image fields) := by
  have hany : (E.image es).any (·.name.isSome) = es.any (·.name.isSome) := by
    rw [image_eq_map, List.any_map]
    exact congrArg es.any (funext fun e => Option.isSome_map)
  unfold Rules.fieldsOfEntries at h ⊢
  rw [hany]
  split at h
  · rename_i hnamed
    rw [if_pos hnamed]
    exact namedFields_image h
  · rename_i hnamed
    cases h
    rw [if_neg hnamed, image_eq_map, image_eq_map, List.map_map, List.map_map]
    simp only [Function.comp_def, image_plainField]
    rfl

namespace RulesFollow

variable (hr : E.RulesFollow r r') (hc : E.At c)

include hr hc

theorem params : E.Follows 1 0 r.params r'.params literals c := by
  refine (Follows.expect hc (by decide)).bind fun opening c₁ h₁ => ?_
  refine .bind_before (.iterate h₁ rfl fun es c₂ h₂ => .token h₂ ?_) fun es c₂ h₂ => ?_
  · split
    · exact .pure h₂
    · exact .pure h₂
    · refine (hr.paramEntry h₂).bind fun e c₃ h₃ => ?_
      exact .got? h₃ (by decide) (fun _ _ h₄ => .pure_of_eq h₄ (by simp)) (.pure_of_eq h₃ (by simp))
  · refine (Follows.skipLineEnd h₂).bind_before fun _ c₃ h₃ => ?_
    refine (Follows.expect h₃ (by decide)).bind fun closing c₄ h₄ => ?_
    split
    · rename_i fields hfields
      rw [fieldsOfEntries_image hfields]
      exact .pure_of_eq h₄ (by simp)
    · exact .nothing fun _ _ h => by cases h

theorem signature : E.Follows 1 0 r.signature r'.signature literals c := by
  refine (hr.params hc).bind fun params c₁ h₁ => .token_end h₁ rfl rfl ?_
  split
  · exact (hr.params h₁).bind (fun _ c₂ h₂ => .pure h₂)
  · refine (follows_startsType h₁).bind fun b c₂ h₂ => ?_
    rw [image_bool]
    split
    · exact (hr.type h₂).bind fun _ c₃ h₃ => .pure_of_eq h₃ (by simp)
    · exact .pure h₂

end RulesFollow

theorem follows_members {member member' : Reader Tree} (hc : E.At c)
    (hmember : ∀ {c}, E.At c → E.Follows 1 1 member member' literals c) :
    E.Follows 1 0 (Rules.members member) (Rules.members member') literals c := by
  refine (Follows.expect hc (by decide)).bind fun _ c₁ h₁ => ?_
  refine .bind_before (.iterate h₁ rfl fun fs c₂ h₂ => .token h₂ ?_) fun fs c₂ h₂ => ?_
  · split
    · exact .pure h₂
    · exact .pure h₂
    · refine .atDots h₂ fun b hb => ?_
      extract_lets jp jp'
      have hjp {f : Tree} {c₃ : Cursor} (h₃ : E.At c₃) :
          E.Follows 0 1 (jp f) (jp' (E.image f)) literals c₃ :=
        (Follows.endStatement h₃).bind fun _ c₄ h₄ => .pure_of_eq h₄ (by simp)
      split
      · rename_i hdots
        refine (Follows.dots h₂ (hb hdots)).bind fun d c₃ h₃ => .pure_bind ?_
        simpa using hjp (f := Rules.plainField [] d) h₃
      · exact (hmember h₂).bind fun _ _ h₃ => hjp h₃
  · exact (Follows.expect h₂ (by decide)).bind fun _ c₃ h₃ => .pure_of_eq h₃ (by simp)

namespace RulesFollow

variable (hr : E.RulesFollow r r') (hc : E.At c)

include hr hc

theorem structField : E.Follows 1 1 r.structField r'.structField literals c := by
  refine .position hc (.docFor ?_)
  refine (hr.type hc).bind fun first c₁ h₁ => .token h₁ ?_
  refine (follows_startsType h₁).bind fun b c₂ h₂ => ?_
  extract_lets jp
  have hjp {names : List Tree} {type : Tree} {c₃ : Cursor} (h₃ : E.At c₃) :
      E.Follows 0 1 (jp (names, type)) (jp (E.image names, E.image type)) literals c₃ := by
    refine .token h₃ ?_
    split
    · rename_i hstring
      refine (Follows.basicLit h₃ (by rw [beq_iff_eq.mp hstring]; decide)).bind fun _ c₄ h₄ => ?_
      exact .pure_of_eq h₄ (by simp)
    · exact .pure_bind (.pure_of_eq h₃ (by simp))
  rw [image_bool]
  split
  · refine .bind_same (.iterate h₂ rfl fun ns c₃ h₃ => ?_) fun ns c₃ h₃ => ?_
    · refine .got? h₃ (by decide) (fun _ c₄ h₄ => ?_) (.pure h₃)
      exact (Follows.ident h₄).bind fun _ c₅ h₅ => .pure_of_eq h₅ (by simp)
    · exact (hr.type h₃).bind fun _ c₄ h₄ => .pure_bind (hjp h₄)
  · exact .pure_bind (hjp h₂)

theorem interfaceField : E.Follows 1 1 r.interfaceField r'.interfaceField literals c := by
  refine .position hc (.docFor ?_)
  refine (hr.type hc).bind fun first c₁ h₁ => .token h₁ ?_
  rw [isKind_image]
  split
  · exact (hr.signature h₁).bind fun (params, results) c₂ h₂ => .pure_of_eq h₂ (by simp)
  · exact .pure h₁

end RulesFollow

theorem follows_typeName (hc : E.At c) :
    E.Follows 1 0 Rules.typeName Rules.typeName literals c := by
  refine (Follows.ident hc).bind fun x c₁ h₁ => ?_
  refine .got? h₁ (by decide) (fun _ c₂ h₂ => ?_) (.pure h₁)
  exact (Follows.ident h₂).bind fun _ c₃ h₃ => .pure h₃

namespace RulesFollow

variable (hr : E.RulesFollow r r') (hc : E.At c)

include hr hc

theorem arrayType (ht : c.front.token = .lbrack) :
    E.Follows 1 0 r.arrayType r'.arrayType literals c := by
  refine .bind_before (Follows.take hc (by rw [ht]; decide)).mono fun lbrack c₁ h₁ => .token h₁ ?_
  extract_lets jp jp'
  have hjp {x : Tree} {c₂ : Cursor} (h₂ : E.At c₂) :
      E.Follows 1 0 (jp x) (jp' (E.image x)) literals c₂ := by
    refine (Follows.expect h₂ (by decide)).bind fun _ c₃ h₃ => ?_
    exact (hr.type h₃).bind fun _ c₄ h₄ => .pure h₄
  split
  · exact .pure_bind (hjp h₁)
  · rename_i hdots
    refine .bind_before (Follows.take h₁ (by rw [hdots]; decide)).mono fun _ c₂ h₂ => .pure_bind ?_
    simpa using hjp (x := .node .ellipsis [.pos _, .nil]) h₂
  · exact .bind_before (hr.expr h₁).mono fun _ c₂ h₂ => hjp h₂

theorem mapType (ht : c.front.token = .kwMap) : E.Follows 1 0 r.mapType r'.mapType literals c := by
  refine (Follows.take hc (by rw [ht]; decide)).bind fun _ c₁ h₁ => ?_
  refine (Follows.expect h₁ (by decide)).bind fun _ c₂ h₂ => ?_
  refine (hr.type h₂).bind fun _ c₃ h₃ => ?_
  refine (Follows.expect h₃ (by decide)).bind fun _ c₄ h₄ => ?_
  exact (hr.type h₄).bind fun _ c₅ h₅ => .pure h₅

theorem typeStep : E.Follows 1 0 r.typeStep r'.typeStep literals c := by
  have htake {t : Token} (ht : c.front.token = t) (hne : t ≠ .eof) : E.Follows 1 0 take
      take literals c :=
    .take hc (ht ▸ hne)
  refine .token hc ?_
  split
  · exact follows_typeName hc
  · rename_i ht
    exact (htake ht (by decide)).bind fun _ c₁ h₁ => (hr.type h₁).bind fun _ c₂ h₂ => .pure h₂
  · rename_i ht
    exact hr.arrayType hc ht
  · rename_i ht
    exact hr.mapType hc ht
  · rename_i ht
    refine (htake ht (by decide)).bind fun _ c₁ h₁ => ?_
    exact (hr.signature h₁).bind fun (params, results) c₂ h₂ => .pure h₂
  · rename_i ht
    refine (htake ht (by decide)).bind fun _ c₁ h₁ => ?_
    exact (follows_members h₁ fun h => hr.structField h).bind fun _ c₂ h₂ => .pure h₂
  · rename_i ht
    refine (htake ht (by decide)).bind fun _ c₁ h₁ => ?_
    exact (follows_members h₁ fun h => hr.interfaceField h).bind fun _ c₂ h₂ => .pure h₂
  · rename_i ht
    refine (htake ht (by decide)).bind fun _ c₁ h₁ => (hr.type h₁).bind fun _ c₂ h₂ => ?_
    exact (Follows.expect h₂ (by decide)).bind fun _ c₃ h₃ => .pure h₃
  · exact .unexpected

/-! ### Expressions -/

theorem paren (ht : c.front.token = .lparen) : E.Follows 1 0 r.paren r'.paren literals c := by
  refine (Follows.take hc (by rw [ht]; decide)).bind fun _ c₁ h₁ => ?_
  refine .bind_before (.withLiterals (hr.exprOrType h₁).mono) fun x c₂ h₂ => ?_
  refine (Follows.skipLineEnd h₂).bind_before fun _ c₃ h₃ => ?_
  exact (Follows.expect h₃ (by decide)).bind fun _ c₄ h₄ => .pure h₄

theorem selector {x : Tree} (ht : c.front.token = .period) :
    E.Follows 1 0 (r.selector x) (r'.selector (E.image x)) literals c := by
  refine .bind_before (Follows.advance hc (by rw [ht]; decide)).mono fun _ c₁ h₁ => .token h₁ ?_
  split
  · exact (Follows.ident h₁).bind fun _ c₂ h₂ => .pure h₂
  · rename_i ht
    refine (Follows.take h₁ (by rw [ht]; decide)).bind fun _ c₂ h₂ => (hr.type h₂).bind
      fun _ c₃ h₃ => ?_
    exact (Follows.expect h₃ (by decide)).bind fun _ c₄ h₄ => .pure h₄
  · exact .unexpected

theorem indexOrSlice {x : Tree} :
    E.Follows 1 0 (r.indexOrSlice x) (r'.indexOrSlice (E.image x)) literals c := by
  refine .bind_before (Follows.expect hc (by decide)).mono fun _ c₁ h₁ => .withLiterals
    (.token h₁ ?_)
  extract_lets jp jp'
  have hjp {low : Tree} {c₂ : Cursor} (h₂ : E.At c₂) :
      E.Follows 1 0 (jp low) (jp' (E.image low)) true c₂ := by
    refine .got? h₂ (by decide) (fun _ c₃ h₃ => ?_) ?_
    · suffices hhigh : E.Follows 1 0 _ _ true c₃ from hhigh.mono
      refine .token h₃ ?_
      extract_lets jp jp'
      have hjp {high : Tree} {c₄ : Cursor} (h₄ : E.At c₄) :
          E.Follows 1 0 (jp high) (jp' (E.image high)) true c₄ :=
        (Follows.expect h₄ (by decide)).bind fun _ c₅ h₅ => .pure h₅
      split
      · exact .pure_bind (hjp h₃)
      · exact .bind_before (hr.expr h₃).mono fun _ c₄ h₄ => hjp h₄
    · exact (Follows.expect h₂ (by decide)).bind fun _ c₃ h₃ => .pure h₃
  split
  · exact .pure_bind (hjp h₁)
  · exact .bind_before (hr.expr h₁).mono fun _ c₂ h₂ => hjp h₂

theorem arguments : E.Follows 0 1 r.arguments r'.arguments literals c := by
  refine .iterate hc (by simp) fun (args, spread) c₁ h₁ => ?_
  rw [image_pair]
  refine (Follows.skipLineEnd h₁).bind_same fun _ c₂ h₂ => .token h₂ ?_
  split
  · exact .pure h₂
  · exact .pure h₂
  · refine (hr.exprOrType h₂).bind fun x c₃ h₃ => ?_
    refine .got? h₃ (by decide) (fun _ c₄ h₄ => ?_) ?_
    · exact .got? h₄ (by decide) (fun _ _ h₅ => .pure_of_eq h₅ (by simp)) (.pure_of_eq h₄ (by simp))
    · exact .got? h₃ (by decide) (fun _ _ h₄ => .pure_of_eq h₄ (by simp)) (.pure_of_eq h₃ (by simp))

theorem elementValue : E.Follows 1 0 r.elementValue r'.elementValue literals c := by
  refine .token hc ?_
  split
  · exact hr.composite hc
  · exact hr.expr hc

theorem element : E.Follows 1 0 r.element r'.element literals c := by
  refine (hr.elementValue hc).bind fun x c₁ h₁ => ?_
  refine .got? h₁ (by decide) (fun _ c₂ h₂ => ?_) (.pure h₁)
  exact (hr.elementValue h₂).bind fun _ c₃ h₃ => .pure h₃

theorem elements : E.Follows 0 1 r.elements r'.elements literals c := by
  refine .iterate hc rfl fun elts c₁ h₁ => (Follows.skipLineEnd h₁).bind_same
    fun _ c₂ h₂ => .token h₂ ?_
  split
  · exact .pure h₂
  · exact .pure h₂
  · refine (hr.element h₂).bind fun x c₃ h₃ => ?_
    exact .got? h₃ (by decide) (fun _ _ h₄ => .pure_of_eq h₄ (by simp)) (.pure_of_eq h₃ (by simp))

theorem call {f : Tree} : E.Follows 1 0 (r.call f) (r'.call (E.image f)) literals c := by
  refine (Follows.expect hc (by decide)).bind fun _ c₁ h₁ => ?_
  refine .bind_before (.withLiterals (hr.arguments h₁)) fun (args, spread) c₂ h₂ => ?_
  refine (Follows.skipLineEnd h₂).bind_before fun _ c₃ h₃ => ?_
  exact (Follows.expect h₃ (by decide)).bind fun _ c₄ h₄ => .pure_of_eq h₄ (by simp)

theorem compositeStep {type : Tree} :
    E.Follows 1 0 (r.compositeStep type) (r'.compositeStep (E.image type)) literals c := by
  refine (Follows.expect hc (by decide)).bind fun _ c₁ h₁ => ?_
  refine .bind_before (.withLiterals (hr.elements h₁)) fun elts c₂ h₂ => ?_
  refine (Follows.skipLineEnd h₂).bind_before fun _ c₃ h₃ => ?_
  exact (Follows.expect h₃ (by decide)).bind fun _ c₄ h₄ => .pure_of_eq h₄ (by simp)

theorem funcOperand : E.Follows 1 0 r.funcOperand r'.funcOperand literals c := by
  refine (hr.type hc).bind fun type c₁ h₁ => .token_end h₁ rfl rfl ?_
  split
  · exact .bind (.withLiterals (hr.block h₁)) fun _ c₂ h₂ => .pure h₂
  · exact .pure h₁

theorem operand : E.Follows 1 0 r.operand r'.operand literals c := by
  have hliteral {t : Token} (ht : c.front.token = t) (hne : t ≠ .eof) : E.Follows 1 0 basicLit
      basicLit literals c :=
    .basicLit hc (ht ▸ hne)
  refine .token hc ?_
  split
  case h_1 => exact .ident hc
  case h_2 ht | h_3 ht | h_4 ht | h_5 ht | h_6 ht => exact hliteral ht (by decide)
  case h_7 ht => exact hr.paren hc ht
  case h_8 => exact hr.funcOperand hc
  case h_9 | h_10 | h_11 | h_12 => exact hr.type hc
  case h_13 =>
    refine .atDots hc fun b hb => ?_
    split
    · rename_i hdots
      exact .dots hc (hb hdots)
    · exact .unexpected

end RulesFollow

theorem follows_isLiteralType {x : Tree} (hc : E.At c) :
    E.Follows 0 0 (Rules.isLiteralType x) (Rules.isLiteralType (E.image x)) literals c := by
  unfold Rules.isLiteralType
  rw [kind?_image]
  split
  · exact .look rfl (.pure hc) fun _ => ⟨_, rfl, rfl⟩
  · exact .look rfl (.pure hc) fun _ => ⟨_, rfl, rfl⟩
  all_goals exact .pure hc

namespace RulesFollow

variable (hr : E.RulesFollow r r') (hc : E.At c)

include hr hc

theorem primary : E.Follows 1 0 r.primary r'.primary literals c := by
  refine (hr.operand hc).bind fun x c₁ h₁ => .iterate h₁ rfl
    (fun x c₂ h₂ => .token_end h₂ rfl rfl ?_)
  split
  · rename_i ht
    exact (hr.selector h₂ ht).bind fun _ _ h₃ => .pure h₃
  · exact (hr.indexOrSlice h₂).bind fun _ _ h₃ => .pure h₃
  · exact (hr.call h₂).bind fun _ _ h₃ => .pure h₃
  · refine (follows_isLiteralType h₂).bind fun b c₃ h₃ => ?_
    rw [image_bool]
    split
    · exact (hr.composite h₃).bind fun _ _ h₄ => .pure h₄
    · exact .pure h₃
  · exact .pure h₂

theorem unaryStep : E.Follows 1 0 r.unaryStep r'.unaryStep literals c := by
  have hprefix {t : Token} (ht : c.front.token = t) (hne : t ≠ .eof) :
      E.Follows 1 0
        (do let l ← current; advance; return Tree.node .unaryExpr [.pos l.pos,
          .tok l.token, ← r.unary])
        (do let l ← current; advance; return Tree.node .unaryExpr [.pos l.pos,
          .tok l.token, ← r'.unary])
        literals c := by
    refine .current hc ((Follows.advance hc (ht ▸ hne)).bind fun _ c₁ h₁ => ?_)
    exact (hr.unary h₁).bind fun _ c₂ h₂ => .pure h₂
  refine .token hc ?_
  split
  case h_1 ht | h_2 ht | h_3 ht | h_4 ht | h_5 ht | h_6 ht => exact hprefix ht (by decide)
  case h_7 ht =>
    refine (Follows.take hc (by rw [ht]; decide)).bind fun _ c₁ h₁ => ?_
    exact (hr.unary h₁).bind fun _ c₂ h₂ => .pure h₂
  case h_8 => exact hr.primary hc

theorem binaryStep {least : Nat} (hleast : 0 < least) :
    E.Follows 1 0 (r.binaryStep least) (r'.binaryStep least) literals c := by
  refine (hr.unary hc).bind fun x c₁ h₁ => .iterate h₁ rfl (fun x c₂ h₂ => ?_)
  refine .current_end h₂ ?_ fun houter hinner => ?_
  · rw [image_lexeme_token]
    split
    · exact .pure h₂
    · rename_i hprec
      have heof : c₂.front.token ≠ .eof := by
        intro heof
        rw [heof] at hprec
        exact hprec hleast
      suffices hnext : E.Follows 1 0 _ _ literals c₂ from hnext.mono
      refine (Follows.advance h₂ heof).bind fun _ c₃ h₃ => ?_
      exact (hr.binary (Nat.succ_pos _) h₃).mono.bind_same fun y c₄ h₄ => .pure h₄
  · -- no operator is at the end, and none in front of the parenthesis
    have hidle {t : Token} (ht : t = .rparen ∨ t = .semicolon ∨ t = .eof) :
        t.precedence < least := by
      rcases ht with rfl | rfl | rfl <;> exact hleast
    rw [image_lexeme_token, if_pos (hidle (.inl houter)), if_pos (hidle (.inr hinner))]

end RulesFollow

end Enclosure

end Graft
