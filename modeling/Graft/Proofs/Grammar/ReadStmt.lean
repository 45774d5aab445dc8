import Graft.Proofs.Grammar.ReadExpr

/-! # The productions for declarations and statements read them

The headers of conditionals, switches and loops are not nodes: their parts become fields of the
statement.  So what is shown of a production for a header is how its words spell a stretch of fields
(`Derives (.parts ps)`), and such stretches are put together by `Derives.parts_append`.
-/

namespace Graft

variable {d : Dialect} {ws ws' : List Word}

/-- The fields of a node can be spelled one stretch after the other. -/
theorem Derives.parts_append {ps ps' : List Part} {ts ts' : List Tree}
    (h : Derives d (.parts ps) ws (.list ts)) (h' : Derives d (.parts ps') ws' (.list ts')) :
    Derives d (.parts (ps ++ ps')) (ws ++ ws') (.list (ts ++ ts')) := by
  generalize hs : Phrase.parts ps = s at h
  generalize ht : Tree.list ts = t at h
  induction h generalizing ps ts with
  | partsNil =>
    cases hs
    cases ht
    exact h'
  | word hl _ ih =>
    cases hs
    cases ht
    exact .word hl (ih rfl rfl)
  | noLineEnd _ ih =>
    cases hs
    cases ht
    exact .noLineEnd (ih rfl rfl)
  | lineEnd hl _ ih =>
    cases hs
    cases ht
    exact .lineEnd hl (ih rfl rfl)
  | mark hl _ ih =>
    cases hs
    cases ht
    exact .mark hl (ih rfl rfl)
  | markIn hl _ ih =>
    cases hs
    cases ht
    exact .markIn hl (ih rfl rfl)
  | unmarked _ ih =>
    cases hs
    cases ht
    exact .unmarked (ih rfl rfl)
  | sub hx _ _ ih =>
    cases hs
    cases ht
    rw [List.append_assoc]
    exact .sub hx (ih rfl rfl)
  | const _ ih =>
    cases hs
    cases ht
    exact .const (ih rfl rfl)
  | args hx hspread _ _ ih =>
    cases hs
    cases ht
    rw [List.append_assoc]
    exact .args hx hspread (ih rfl rfl)
  | targets hx _ _ ih =>
    cases hs
    cases ht
    rw [List.append_assoc]
    exact .targets hx (ih rfl rfl)
  | params hx hfields _ _ ih =>
    cases hs
    cases ht
    rw [List.append_assoc]
    exact .params hx hfields (ih rfl rfl)
  | cover hc =>
    subst hs
    cases hc
  | node hr =>
    subst hs
    cases hr
  | _ => cases hs

theorem Derives.more_ne_nil {s : Phrase} {ts : List Tree} (h : Derives d (.more s) ws (.list ts)) :
    ts ≠ [] := by
  generalize ht : Tree.list ts = t at h
  cases h with
  | more =>
    cases ht
    simp
  | cover hc => cases hc
  | node hr => cases hr

/-- Phrases that a comma ends are none if their list is empty. -/
theorem Derives.eq_nil_of_ended_nil {s : Phrase} (h : Derives d (.ended s) ws (.list [])) :
    ws = [] := by
  generalize ht : Tree.list [] = t at h
  cases h with
  | endedNil => rfl
  | endedComma hs =>
    subst ht
    exact absurd rfl hs.more_ne_nil
  | cover hc => cases hc
  | node hr => cases hr

/-- The only phrase of a list. -/
theorem Derives.of_more_singleton {s : Phrase} {x : Tree} (h : Derives d (.more s) ws (.list [x])) :
    Derives d s ws x := by
  generalize ht : Tree.list [x] = t at h
  cases h with
  | more hn hs hx =>
    obtain ⟨rfl, heq⟩ :=
      (List.append_eq_singleton_iff.mp (Tree.list.inj ht).symm).resolve_right (by simp)
    obtain rfl := (List.cons.inj heq).1
    rwa [hs.eq_nil_of_ended_nil, List.nil_append]
  | cover hc => cases hc
  | node hr => cases hr

/-- The expression of a statement that is one. -/
theorem Derives.expr_of_exprStmt {fields : List Tree}
    (h : Derives d .simple ws (.node .exprStmt fields)) :
    Derives d .expr ws (fields.head?.getD .nil) := by
  cases h with
  | node hr hp =>
    cases hr
    cases hp with
    | sub hx hnil =>
      cases hnil with
      | partsNil => simpa using hx
      | cover hc => cases hc
    | cover hc => cases hc
  | cover hc => cases hc

namespace Rules

/-- The parts of the clause of a loop over a range. -/
def rangeParts : List Part := [.const .nil, .const .nil, .unmarked, .mark .kwRange, .sub .expr]

/-- The parts of the clause of a loop over a range that is assigned to something. -/
def rangeTargetParts : List Part :=
  [.targets, .markIn [.assign, .define], .mark .kwRange, .sub .expr]

/-- Whether the words spell the clause of a loop over a range. -/
def IsRange (d : Dialect) (ws : List Word) (targets : List Tree) (tokPos : Pos) (tok : Token)
    (keyword : Pos) (x : Tree) : Prop :=
  ∃ ps, (ps = rangeParts ∨ ps = rangeTargetParts) ∧
    Derives d (.parts ps) ws
      (.list [targets[0]?.getD .nil, targets[1]?.getD .nil, .pos tokPos, .tok tok, .pos keyword, x])

/-- Whether the words spell a statement that fits into a header. -/
def Simple.Spelled (d : Dialect) (ws : List Word) : Simple → Prop
  | .stmt t => Derives d .simple ws t
  | .range targets tokPos tok keyword x => IsRange d ws targets tokPos tok keyword x

/-- The parts of the header of a loop with a condition or without any clause. -/
def whileParts : List Part := [.const .nil, .sub (.opt .expr), .const .nil]

/-- The parts of the header of a loop with three clauses. -/
def clauseParts : List Part :=
  [.sub (.opt .simple), .word .semicolon, .sub (.opt .expr), .word .semicolon, .sub (.opt .simple)]

/-- Whether the words spell the header of a loop. -/
def LoopHeader.Spelled (d : Dialect) (ws : List Word) : LoopHeader → Prop
  | .clauses init cond post =>
    ∃ ps, (ps = whileParts ∨ ps = clauseParts) ∧ Derives d (.parts ps) ws (.list [init, cond, post])
  | .range targets tokPos tok keyword x => IsRange d ws targets tokPos tok keyword x

end Rules

namespace Rules.Sound

open Reader

variable {r : Rules} {ctx : Context} {c c' : Cursor}

/-- Moving past a token that is not the end of the text. -/
theorem advance_run {T : List Token} {u : Unit} (he : Ended c.rest)
    (hf : c.front.token ∈ T) (ht : .eof ∉ T) (h : Gives advance ctx c u c') :
    Run ctx.groups c [.lexeme c.front] c' := by
  obtain rfl := advance_ok h
  exact .move he (fun heof => ht (heof ▸ hf))

/-! ### Declarations with specifications -/

section Spec

variable {doc t : Tree} {vs : List Word}

theorem importSpec_run (he : Ended c.rest) (hdoc : Derives ctx.dialect .doc vs doc)
    (h : Gives (importSpec doc) ctx c t c') :
    ∃ ws, Run ctx.groups c ws c' ∧ Derives ctx.dialect (.spec .kwImport) (vs ++ ws) t := by
  obtain ⟨tok, c₁, h₁, h⟩ := bind_ok h
  obtain ⟨rfl, rfl⟩ := token_ok h₁
  extract_lets jp at h
  obtain ⟨name, c₂, ws₂, run₂, hname, h⟩ : ∃ name c₂ ws₂, Run ctx.groups c ws₂ c₂ ∧
      Derives ctx.dialect (.opt .importName) ws₂ name ∧ Gives (jp name) ctx c₂ t c' := by
    split at h
    · obtain ⟨x, c₂, h₂, h⟩ := bind_ok h
      obtain ⟨ws₂, run₂, hx⟩ := ident_reads he h₂
      exact ⟨_, _, _, run₂, .cover (.opt _) (.cover .importName hx), h⟩
    · rename_i hf
      obtain ⟨p, c₂, h₂, h⟩ := bind_ok h
      obtain ⟨rfl, run₂⟩ := take_run he (by rw [hf]; decide) h₂
      obtain ⟨x, c₃, h₃, h⟩ := bind_ok h
      obtain ⟨rfl, rfl⟩ := pure_ok h₃
      exact ⟨_, _, _, run₂, .cover (.opt _) (.period hf), h⟩
    · obtain ⟨x, c₂, h₂, h⟩ := bind_ok h
      obtain ⟨rfl, rfl⟩ := pure_ok h₂
      exact ⟨_, _, _, .refl _, .none _, h⟩
  obtain ⟨tok, c₃, h₃, h⟩ := bind_ok h
  obtain ⟨rfl, rfl⟩ := token_ok h₃
  split at h
  · rename_i hf
    have hf : c₂.front.token = .string := by simpa using hf
    obtain ⟨path, c₄, h₄, h⟩ := bind_ok h
    obtain ⟨ws₄, run₄, hpath⟩ := basicLit_run (run₂.ended he) (by rw [hf]; rfl) h₄
    obtain ⟨rfl, rfl⟩ := pure_ok h
    exact ⟨_, run₂.trans run₄, .node .importSpec (.sub hdoc (.sub hname hpath.lastSub))⟩
  · exact absurd h unexpected_ok

theorem typeSpec_run (hr : r.Sound) (he : Ended c.rest) (hdoc : Derives ctx.dialect .doc vs doc)
    (h : Gives (r.typeSpec doc) ctx c t c') :
    ∃ ws, Run ctx.groups c ws c' ∧ Derives ctx.dialect (.spec .kwType) (vs ++ ws) t := by
  obtain ⟨name, c₁, h₁, h⟩ := bind_ok h
  obtain ⟨ws₁, run₁, hname⟩ := ident_reads he h₁
  have he₁ := run₁.ended he
  obtain ⟨o, c₂, h₂, h⟩ := bind_ok h
  rcases got?_run he₁ (by decide) h₂ with ⟨l, hl, rfl, run₂⟩ | ⟨-, rfl, rfl⟩
  · obtain ⟨type, c₃, h₃, h⟩ := bind_ok h
    obtain ⟨ws₃, run₃, htype⟩ := hr.type_reads (run₂.ended he₁) h₃
    obtain ⟨rfl, rfl⟩ := pure_ok h
    exact ⟨_, run₁.trans (run₂.cons run₃),
      .node .aliasSpec (.sub hdoc (.sub hname (.mark hl htype.lastSub)))⟩
  · obtain ⟨type, c₃, h₃, h⟩ := bind_ok h
    obtain ⟨ws₃, run₃, htype⟩ := hr.type_reads he₁ h₃
    obtain ⟨rfl, rfl⟩ := pure_ok h
    exact ⟨_, run₁.trans run₃, .node .typeSpec (.sub hdoc (.sub hname (.const htype.lastSub)))⟩

theorem valueSpec_run (hr : r.Sound) {kw : Token} (hkw : kw = .kwVar ∨ kw = .kwConst)
    (he : Ended c.rest) (hdoc : Derives ctx.dialect .doc vs doc)
    (h : Gives (r.valueSpec doc) ctx c t c') :
    ∃ ws, Run ctx.groups c ws c' ∧ Derives ctx.dialect (.spec kw) (vs ++ ws) t := by
  obtain ⟨names, c₁, h₁, h⟩ := bind_ok h
  obtain ⟨ws₁, run₁, hnames⟩ := commaList_run rfl ident_reads he h₁
  have he₁ := run₁.ended he
  obtain ⟨tok, c₂, h₂, h⟩ := bind_ok h
  obtain ⟨rfl, rfl⟩ := token_ok h₂
  extract_lets jp at h
  obtain ⟨type, c₃, ws₃, run₃, htype, h⟩ : ∃ type c₃ ws₃, Run ctx.groups c₁ ws₃ c₃ ∧
      Derives ctx.dialect (.opt .type) ws₃ type ∧ Gives (jp type) ctx c₃ t c' := by
    split at h
    case h_1 | h_2 | h_3 | h_4 =>
      obtain ⟨x, c₃, h₃, h⟩ := bind_ok h
      obtain ⟨rfl, rfl⟩ := pure_ok h₃
      exact ⟨_, _, _, .refl _, .none _, h⟩
    case h_5 =>
      obtain ⟨x, c₃, h₃, h⟩ := bind_ok h
      obtain ⟨ws₃, run₃, hx⟩ := hr.type_reads he₁ h₃
      exact ⟨_, _, _, run₃, .cover (.opt _) hx, h⟩
  have he₃ := run₃.ended he₁
  obtain ⟨o, c₄, h₄, h⟩ := bind_ok h
  extract_lets jp at h
  obtain ⟨values, c₅, ws₅, run₅, hvalues, h⟩ : ∃ values c₅ ws₅, Run ctx.groups c₃ ws₅ c₅ ∧
      Derives ctx.dialect (.orEmpty (.behind .assign (.more .expr))) ws₅ (.list values) ∧
      Gives (jp values) ctx c₅ t c' := by
    rcases got?_run he₃ (by decide) h₄ with ⟨l, hl, rfl, run₄⟩ | ⟨-, rfl, rfl⟩
    · obtain ⟨xs, c₅, h₅, h⟩ := bind_ok h
      obtain ⟨ws₅, run₅, hxs⟩ := hr.exprList_run (run₄.ended he₃) h₅
      exact ⟨_, _, _, run₄.cons run₅, .cover (.orEmpty _) (.behind hl hxs), h⟩
    · obtain ⟨xs, c₅, h₅, h⟩ := bind_ok h
      obtain ⟨rfl, rfl⟩ := pure_ok h₅
      exact ⟨_, _, _, .refl _, .empty _, h⟩
  obtain ⟨rfl, rfl⟩ := pure_ok h
  exact ⟨_, run₁.trans (run₃.trans run₅),
    .node (.valueSpec hkw) (.sub hdoc (.sub hnames (.sub htype hvalues.lastSub)))⟩

theorem spec_reads (hr : r.Sound) {kw : Token} (hkw : kw ∈ Token.declarers) :
    Reads (.spec kw) (r.spec kw) := by
  intro ctx c t c' he h
  obtain ⟨b, c₁, h₁, h⟩ := bind_ok h
  obtain ⟨rfl, rfl⟩ := atDots_ok h₁
  split at h
  · rename_i hcond
    simp only [Bool.and_eq_true, beq_iff_eq] at hcond
    obtain ⟨ws, run, ht⟩ := dots_run he hcond.1 hcond.2 h
    exact ⟨ws, run, .cover (.specDots kw) ht⟩
  · obtain ⟨p, c₂, h₂, h⟩ := bind_ok h
    obtain ⟨rfl, rfl⟩ := position_ok h₂
    obtain ⟨doc, c₃, h₃, h⟩ := bind_ok h
    obtain ⟨ws₃, rfl, run₃, hdoc⟩ := docFor_run h₃
    split at h
    · obtain ⟨ws, run, ht⟩ := importSpec_run he hdoc h
      exact ⟨_, run₃.trans run, ht⟩
    · obtain ⟨ws, run, ht⟩ := hr.typeSpec_run he hdoc h
      exact ⟨_, run₃.trans run, ht⟩
    · rename_i himport htype
      have hvalue : kw = .kwVar ∨ kw = .kwConst := by
        simp only [Token.declarers, List.mem_cons, List.not_mem_nil, or_false] at hkw
        rcases hkw with rfl | rfl | rfl | rfl
        · exact .inl rfl
        · exact .inr rfl
        · exact absurd rfl htype
        · exact absurd rfl himport
      obtain ⟨ws, run, ht⟩ := hr.valueSpec_run hvalue he hdoc h
      exact ⟨_, run₃.trans run, ht⟩

theorem declaration_run (hr : r.Sound) (he : Ended c.rest) (hkw : c.front.token ∈ Token.declarers)
    (hdoc : Derives ctx.dialect .doc vs doc) (h : Gives (r.declaration doc) ctx c t c') :
    ∃ ws, Run ctx.groups c ws c' ∧ Derives ctx.dialect .declaration (vs ++ ws) t := by
  obtain ⟨l, c₁, h₁, h⟩ := bind_ok h
  obtain ⟨rfl, rfl⟩ := current_ok h₁
  obtain ⟨u, c₂, h₂, h⟩ := bind_ok h
  have run₂ := advance_run he hkw (by decide) h₂
  have he₂ := run₂.ended he
  have hmark : c.front.token ∈ [c.front.token] := List.mem_singleton_self _
  obtain ⟨o, c₃, h₃, h⟩ := bind_ok h
  rcases got?_run he₂ (by decide) h₃ with ⟨l, hl, rfl, run₃⟩ | ⟨-, rfl, rfl⟩
  · have he₃ := run₃.ended he₂
    obtain ⟨specs, c₄, h₄, h⟩ := bind_ok h
    have hspecs : ∃ ws, Run ctx.groups c₃ ws c₄ ∧
        Derives ctx.dialect (.lines (.spec c.front.token)) ws (.list specs) := by
      refine iterate_run (w := [])
        (I := fun xs _ ws => Derives ctx.dialect (.lines (.spec c.front.token)) ws (.list xs))
        (P := fun xs _ ws => Derives ctx.dialect (.lines (.spec c.front.token)) ws (.list xs))
        ?_ he₃ (.linesNil _) h₄
      intro xs ws c₁ x c₂ he hxs h
      obtain ⟨tok, c₃, h₃, h⟩ := bind_ok h
      obtain ⟨rfl, rfl⟩ := token_ok h₃
      split at h
      · obtain ⟨rfl, rfl⟩ := pure_ok h
        exact ⟨[], .refl _, by simpa using hxs⟩
      · obtain ⟨rfl, rfl⟩ := pure_ok h
        exact ⟨[], .refl _, by simpa using hxs⟩
      · obtain ⟨y, c₄, h₄, h⟩ := bind_ok h
        obtain ⟨z, c₅, h₅, h⟩ := bind_ok h
        obtain ⟨rfl, rfl⟩ := pure_ok h
        exact lineItem_run rfl (hr.spec_reads hkw) he hxs h₄ h₅
    obtain ⟨ws₄, run₄, hspecs⟩ := hspecs
    obtain ⟨q, c₅, h₅, h⟩ := bind_ok h
    obtain ⟨m, hm, rfl, run₅⟩ := expect_run (run₄.ended he₃) (by decide) h₅
    obtain ⟨rfl, rfl⟩ := pure_ok h
    exact ⟨_, run₂.cons (run₃.cons (run₄.trans run₅)),
      .node (.group hkw)
        (.sub hdoc (.markIn hmark (.mark hl (.sub hspecs (.mark hm .partsNil)))))⟩
  · obtain ⟨x, c₄, h₄, h⟩ := bind_ok h
    obtain ⟨ws₄, run₄, hx⟩ := hr.spec_reads hkw he₂ h₄
    obtain ⟨rfl, rfl⟩ := pure_ok h
    exact ⟨_, run₂.cons (run₄.trans (.refl _)),
      .node (.single hkw)
        (.sub hdoc (.markIn hmark (.const (.sub (.one rfl hx) (.const .partsNil)))))⟩

end Spec

/-! ### Simple statements -/

theorem mem_assignments {tok : Token} (h : tok.isAssignment = true) : tok ∈ Token.assignments := by
  cases tok <;> first | decide | cases h

theorem single_ok {xs : List Tree} {p : Pos} {x : Tree} {ws : List Word}
    (hxs : Derives ctx.dialect (.more .expr) ws (.list xs)) (h : Gives (single xs p) ctx c x c') :
    c = c' ∧ Derives ctx.dialect .expr ws x := by
  unfold single at h
  split at h
  · obtain ⟨rfl, rfl⟩ := pure_ok h
    exact ⟨rfl, hxs.of_more_singleton⟩
  · exact absurd h refuse_ok

theorem condition_ok {stmt : Tree} {p : Pos} {x : Tree} (h : Gives (condition stmt p) ctx c x c') :
    c = c' ∧ ∀ {ws}, Derives ctx.dialect .simple ws stmt → Derives ctx.dialect .expr ws x := by
  unfold condition at h
  split at h
  · obtain ⟨rfl, rfl⟩ := pure_ok h
    exact ⟨rfl, fun hs => hs.expr_of_exprStmt⟩
  · exact absurd h refuse_ok

theorem simple_run (hr : r.Sound) {rangeAllowed : Bool} {s : Simple} (he : Ended c.rest)
    (h : Gives (r.simple rangeAllowed) ctx c s c') :
    ∃ ws, Run ctx.groups c ws c' ∧ s.Spelled ctx.dialect ws := by
  obtain ⟨tok, c₁, h₁, h⟩ := bind_ok h
  obtain ⟨rfl, rfl⟩ := token_ok h₁
  split at h
  · rename_i hcond
    simp only [Bool.and_eq_true, beq_iff_eq] at hcond
    obtain ⟨p, c₂, h₂, h⟩ := bind_ok h
    obtain ⟨rfl, run₂⟩ := take_run he (by rw [hcond.2]; decide) h₂
    obtain ⟨x, c₃, h₃, h⟩ := bind_ok h
    obtain ⟨ws₃, run₃, hx⟩ := hr.expr_reads (run₂.ended he) h₃
    obtain ⟨rfl, rfl⟩ := pure_ok h
    exact ⟨_, run₂.cons run₃, _, .inl rfl,
      .const (.const (.unmarked (.mark hcond.2 hx.lastSub)))⟩
  obtain ⟨lhs, c₂, h₂, h⟩ := bind_ok h
  obtain ⟨ws₂, run₂, hlhs⟩ := hr.exprList_run he h₂
  have he₂ := run₂.ended he
  obtain ⟨l, c₃, h₃, h⟩ := bind_ok h
  obtain ⟨rfl, rfl⟩ := current_ok h₃
  split at h
  · rename_i hassign
    replace hassign := mem_assignments hassign
    obtain ⟨u, c₄, h₄, h⟩ := bind_ok h
    have run₄ := advance_run he₂ hassign (by decide) h₄
    have he₄ := run₄.ended he₂
    obtain ⟨tok, c₅, h₅, h⟩ := bind_ok h
    obtain ⟨rfl, rfl⟩ := token_ok h₅
    split at h
    · rename_i hcond
      simp only [Bool.and_eq_true, Bool.or_eq_true, beq_iff_eq] at hcond
      obtain ⟨⟨-, hrange⟩, htok⟩ := hcond
      obtain ⟨p, c₆, h₆, h⟩ := bind_ok h
      obtain ⟨rfl, run₆⟩ := take_run he₄ (by rw [hrange]; decide) h₆
      obtain ⟨x, c₇, h₇, h⟩ := bind_ok h
      obtain ⟨ws₇, run₇, hx⟩ := hr.expr_reads (run₆.ended he₄) h₇
      obtain ⟨rfl, rfl⟩ := pure_ok h
      exact ⟨_, run₂.trans (run₄.cons (run₆.cons run₇)), _, .inr rfl,
        .targets hlhs (.markIn (by simpa using htok) (.mark hrange hx.lastSub))⟩
    · obtain ⟨rhs, c₆, h₆, h⟩ := bind_ok h
      obtain ⟨ws₆, run₆, hrhs⟩ := hr.exprList_run he₄ h₆
      obtain ⟨rfl, rfl⟩ := pure_ok h
      exact ⟨_, run₂.trans (run₄.cons run₆),
        .node .assign (.sub hlhs (.markIn hassign hrhs.lastSub))⟩
  · split at h
    · rename_i hcond
      simp only [Bool.or_eq_true, beq_iff_eq] at hcond
      have htok : c₂.front.token ∈ [Token.inc, .dec] := by simpa using hcond
      obtain ⟨u, c₄, h₄, h⟩ := bind_ok h
      have run₄ := advance_run he₂ htok (by decide) h₄
      obtain ⟨x, c₅, h₅, h⟩ := bind_ok h
      obtain ⟨rfl, hx⟩ := single_ok hlhs h₅
      obtain ⟨rfl, rfl⟩ := pure_ok h
      exact ⟨_, run₂.trans run₄, .node .incDec (.sub hx (.markIn htok .partsNil))⟩
    · obtain ⟨x, c₄, h₄, h⟩ := bind_ok h
      obtain ⟨rfl, hx⟩ := single_ok hlhs h₄
      obtain ⟨rfl, rfl⟩ := pure_ok h
      exact ⟨_, run₂, .node .exprStmt hx.lastSub⟩

theorem simpleStmt_reads (hr : r.Sound) : Reads .simple r.simpleStmt := by
  intro ctx c t c' he h
  obtain ⟨s, c₁, h₁, h⟩ := bind_ok h
  obtain ⟨ws, run, hs⟩ := hr.simple_run he h₁
  split at h
  · obtain ⟨rfl, rfl⟩ := pure_ok h
    exact ⟨ws, run, hs⟩
  · exact absurd h unexpected_ok

/-! ### Conditionals -/

theorem ifHeader_run (hr : r.Sound) {p : Pos} {init cond : Tree} (he : Ended c.rest)
    (h : Gives (r.ifHeader p) ctx c (init, cond) c') :
    ∃ ws ps, Run ctx.groups c ws c' ∧
      (ps = [.const .nil, .sub .expr] ∨
        ps = [.sub (.opt .simple), .word .semicolon, .sub .expr]) ∧
      Derives ctx.dialect (.parts ps) ws (.list [init, cond]) := by
  obtain ⟨tok, c₁, h₁, h⟩ := bind_ok h
  obtain ⟨rfl, rfl⟩ := token_ok h₁
  extract_lets jp at h
  obtain ⟨first, c₂, ws₂, run₂, hfirst, hsimple, h⟩ : ∃ first c₂ ws₂, Run ctx.groups c ws₂ c₂ ∧
      Derives ctx.dialect (.opt .simple) ws₂ first ∧
      (c₂.front.token ≠ .semicolon → Derives ctx.dialect .simple ws₂ first) ∧
      Gives (jp first) ctx c₂ (init, cond) c' := by
    split at h
    · rename_i hf
      obtain ⟨x, c₂, h₂, h⟩ := bind_ok h
      obtain ⟨rfl, rfl⟩ := pure_ok h₂
      exact ⟨_, _, _, .refl _, .none _, fun hno => absurd (by simpa using hf) hno, h⟩
    · obtain ⟨x, c₂, h₂, h⟩ := bind_ok h
      obtain ⟨ws₂, run₂, hx⟩ := hr.simpleStmt_reads he h₂
      exact ⟨_, _, _, run₂, .cover (.opt _) hx, fun _ => hx, h⟩
  have he₂ := run₂.ended he
  obtain ⟨o, c₃, h₃, h⟩ := bind_ok h
  rcases got?_run he₂ (by decide) h₃ with ⟨l, hl, rfl, run₃⟩ | ⟨hno, rfl, rfl⟩
  · obtain ⟨x, c₄, h₄, h⟩ := bind_ok h
    obtain ⟨ws₄, run₄, hx⟩ := hr.expr_reads (run₃.ended he₂) h₄
    obtain ⟨heq, rfl⟩ := pure_ok h
    cases heq
    exact ⟨_, _, run₂.trans (run₃.cons run₄), .inr rfl, .sub hfirst (.word hl hx.lastSub)⟩
  · obtain ⟨x, c₄, h₄, h⟩ := bind_ok h
    obtain ⟨rfl, hx⟩ := condition_ok h₄
    obtain ⟨heq, rfl⟩ := pure_ok h
    cases heq
    exact ⟨_, _, run₂, .inl rfl, .const (.lastSub (hx (hsimple hno)))⟩

theorem ifStep_reads (hr : r.Sound) : Reads .ifStmt r.ifStep := by
  intro ctx c t c' he h
  obtain ⟨p, c₁, h₁, h⟩ := bind_ok h
  obtain ⟨l, hl, rfl, run₁⟩ := expect_run he (by decide) h₁
  have he₁ := run₁.ended he
  obtain ⟨⟨init, cond⟩, c₂, h₂, h⟩ := bind_ok h
  obtain ⟨ws₂, ps, run₂, hps, hheader⟩ := hr.ifHeader_run he₁ (withLiterals_ok h₂)
  have he₂ := run₂.ended he₁
  obtain ⟨body, c₃, h₃, h⟩ := bind_ok h
  obtain ⟨ws₃, run₃, hbody⟩ := hr.block he₂ h₃
  have he₃ := run₃.ended he₂
  obtain ⟨o, c₄, h₄, h⟩ := bind_ok h
  extract_lets jp at h
  obtain ⟨other, c₅, ws₅, run₅, hother, h⟩ : ∃ other c₅ ws₅, Run ctx.groups c₃ ws₅ c₅ ∧
      Derives ctx.dialect (.opt (.behind .kwElse .elseBody)) ws₅ other ∧
      Gives (jp other) ctx c₅ t c' := by
    rcases got?_run he₃ (by decide) h₄ with ⟨m, hm, rfl, run₄⟩ | ⟨-, rfl, rfl⟩
    · have he₄ := run₄.ended he₃
      obtain ⟨tok, c₅, h₅, h⟩ := bind_ok h
      obtain ⟨rfl, rfl⟩ := token_ok h₅
      split at h
      · obtain ⟨x, c₅, h₅, h⟩ := bind_ok h
        obtain ⟨ws₅, run₅, hx⟩ := hr.ifStmt he₄ h₅
        exact ⟨_, _, _, run₄.cons run₅, .cover (.opt _) (.behind hm (.cover .elseIf hx)), h⟩
      · obtain ⟨x, c₅, h₅, h⟩ := bind_ok h
        obtain ⟨ws₅, run₅, hx⟩ := hr.block he₄ h₅
        exact ⟨_, _, _, run₄.cons run₅, .cover (.opt _) (.behind hm (.cover .elseBlock hx)), h⟩
      · obtain ⟨x, c₅, h₅, -⟩ := bind_ok h
        exact absurd h₅ unexpected_ok
    · obtain ⟨x, c₅, h₅, h⟩ := bind_ok h
      obtain ⟨rfl, rfl⟩ := pure_ok h₅
      exact ⟨_, _, _, .refl _, .none _, h⟩
  obtain ⟨rfl, rfl⟩ := pure_ok h
  have hparts := hheader.parts_append (.sub hbody hother.lastSub)
  refine ⟨_, run₁.cons (run₂.trans (run₃.trans run₅)), ?_⟩
  rcases hps with rfl | rfl
  · exact .node .ifStmt (.mark hl hparts)
  · exact .node .ifInit (.mark hl hparts)

/-! ### Blocks and switches -/

theorem stmts_run (hr : r.Sound) {xs : List Tree} (he : Ended c.rest)
    (h : Gives r.stmts ctx c xs c') :
    ∃ ws, Run ctx.groups c ws c' ∧ Derives ctx.dialect (.lines .stmt) ws (.list xs) := by
  refine iterate_run (w := [])
    (I := fun xs _ ws => Derives ctx.dialect (.lines .stmt) ws (.list xs))
    (P := fun xs _ ws => Derives ctx.dialect (.lines .stmt) ws (.list xs))
    ?_ he (.linesNil _) h
  intro xs ws c₁ x c₂ he hxs h
  obtain ⟨tok, c₃, h₃, h⟩ := bind_ok h
  obtain ⟨rfl, rfl⟩ := token_ok h₃
  split at h
  case h_1 hf =>
    obtain ⟨u, c₄, h₄, h⟩ := bind_ok h
    have run₄ := advance_run he (List.mem_singleton.mpr hf) (by decide) h₄
    obtain ⟨rfl, rfl⟩ := pure_ok h
    exact ⟨_, run₄, .linesSemicolon hxs hf⟩
  case h_2 | h_3 | h_4 | h_5 =>
    obtain ⟨rfl, rfl⟩ := pure_ok h
    exact ⟨[], .refl _, by simpa using hxs⟩
  case h_6 =>
    obtain ⟨y, c₄, h₄, h⟩ := bind_ok h
    obtain ⟨u, c₅, h₅, h⟩ := bind_ok h
    obtain ⟨rfl, rfl⟩ := pure_ok h
    exact lineItem_run rfl hr.stmt he hxs h₄ h₅

theorem blockStep_reads (hr : r.Sound) : Reads .block r.blockStep := by
  intro ctx c t c' he h
  obtain ⟨p, c₁, h₁, h⟩ := bind_ok h
  obtain ⟨l, hl, rfl, run₁⟩ := expect_run he (by decide) h₁
  have he₁ := run₁.ended he
  obtain ⟨xs, c₂, h₂, h⟩ := bind_ok h
  obtain ⟨ws₂, run₂, hxs⟩ := hr.stmts_run he₁ h₂
  obtain ⟨q, c₃, h₃, h⟩ := bind_ok h
  obtain ⟨m, hm, rfl, run₃⟩ := expect_run (run₂.ended he₁) (by decide) h₃
  obtain ⟨rfl, rfl⟩ := pure_ok h
  exact ⟨_, run₁.cons (run₂.trans run₃), .node .block (.mark hl (.sub hxs (.mark hm .partsNil)))⟩

theorem clause_run (hr : r.Sound) {t : Tree} (he : Ended c.rest)
    (hf : c.front.token = .kwCase ∨ c.front.token = .kwDefault) (h : Gives r.clause ctx c t c') :
    ∃ ws, Run ctx.groups c ws c' ∧ Derives ctx.dialect .clause ws t := by
  obtain ⟨l, c₁, h₁, h⟩ := bind_ok h
  obtain ⟨rfl, rfl⟩ := current_ok h₁
  obtain ⟨u, c₂, h₂, h⟩ := bind_ok h
  have run₂ := advance_run (T := [.kwCase, .kwDefault]) he (by simpa using hf) (by decide) h₂
  have he₂ := run₂.ended he
  extract_lets jp at h
  -- behind the expressions both clauses go on alike
  have rest {xs : List Tree} {c₃ : Cursor} (he₃ : Ended c₃.rest) (h : Gives (jp xs) ctx c₃ t c') :
      ∃ ws colon body, Run ctx.groups c₃ ws c' ∧
        t = .node .caseClause [.pos c.front.pos, .tok c.front.token, .list xs, colon, body] ∧
        Derives ctx.dialect (.parts [.mark .colon, .sub (.lines .stmt)]) ws
        (.list [colon, body]) := by
    obtain ⟨p, c₄, h₄, h⟩ := bind_ok h
    obtain ⟨l, hl, rfl, run₄⟩ := expect_run he₃ (by decide) h₄
    obtain ⟨body, c₅, h₅, h⟩ := bind_ok h
    obtain ⟨ws₅, run₅, hbody⟩ := hr.stmts_run (run₄.ended he₃) h₅
    obtain ⟨rfl, rfl⟩ := pure_ok h
    exact ⟨_, _, _, run₄.cons run₅, rfl, .mark hl hbody.lastSub⟩
  split at h
  · rename_i hcase
    have hcase : c.front.token ∈ [Token.kwCase] := by simpa using hcase
    obtain ⟨xs, c₃, h₃, h⟩ := bind_ok h
    obtain ⟨ws₃, run₃, hxs⟩ := hr.exprList_run he₂ h₃
    obtain ⟨ws₄, colon, body, run₄, rfl, hrest⟩ := rest (run₃.ended he₂) h
    exact ⟨_, run₂.cons (run₃.trans run₄), .node .case (.markIn hcase (.sub hxs hrest))⟩
  · rename_i hcase
    have hdefault : c.front.token ∈ [Token.kwDefault] := by
      rcases hf with hf | hf
      · exact absurd hf (by simpa using hcase)
      · simpa using hf
    obtain ⟨xs, c₃, h₃, h⟩ := bind_ok h
    obtain ⟨rfl, rfl⟩ := pure_ok h₃
    obtain ⟨ws₄, colon, body, run₄, rfl, hrest⟩ := rest he₂ h
    exact ⟨_, run₂.cons run₄, .node .default (.markIn hdefault (.const hrest))⟩

theorem switchHeader_run (hr : r.Sound) {p : Pos} {init tag : Tree} (he : Ended c.rest)
    (h : Gives (r.switchHeader p) ctx c (init, tag) c') :
    ∃ ws ps, Run ctx.groups c ws c' ∧
      (ps = [.const .nil, .sub (.opt .expr)] ∨
        ps = [.sub (.opt .simple), .word .semicolon, .sub (.opt .expr)]) ∧
      Derives ctx.dialect (.parts ps) ws (.list [init, tag]) := by
  obtain ⟨tok, c₁, h₁, h⟩ := bind_ok h
  obtain ⟨rfl, rfl⟩ := token_ok h₁
  extract_lets jp at h
  obtain ⟨first, c₂, ws₂, run₂, hfirst, h⟩ : ∃ first c₂ ws₂, Run ctx.groups c ws₂ c₂ ∧
      (ws₂ = [] ∧ first = .nil ∨ Derives ctx.dialect .simple ws₂ first) ∧
      Gives (jp first) ctx c₂ (init, tag) c' := by
    split at h
    case h_1 | h_2 =>
      obtain ⟨x, c₂, h₂, h⟩ := bind_ok h
      obtain ⟨rfl, rfl⟩ := pure_ok h₂
      exact ⟨_, _, _, .refl _, .inl ⟨rfl, rfl⟩, h⟩
    case h_3 =>
      obtain ⟨x, c₂, h₂, h⟩ := bind_ok h
      obtain ⟨ws₂, run₂, hx⟩ := hr.simpleStmt_reads he h₂
      exact ⟨_, _, _, run₂, .inr hx, h⟩
  have hopt : Derives ctx.dialect (.opt .simple) ws₂ first := by
    rcases hfirst with ⟨rfl, rfl⟩ | hfirst
    · exact .none _
    · exact .cover (.opt _) hfirst
  have he₂ := run₂.ended he
  obtain ⟨o, c₃, h₃, h⟩ := bind_ok h
  -- only a semicolon tells whether what was read first is the initial statement or the tag
  rcases got?_run he₂ (by decide) h₃ with ⟨l, hl, rfl, run₃⟩ | ⟨-, rfl, rfl⟩
  · obtain ⟨tok, c₄, h₄, h⟩ := bind_ok h
    obtain ⟨rfl, rfl⟩ := token_ok h₄
    split at h
    · obtain ⟨heq, rfl⟩ := pure_ok h
      cases heq
      exact ⟨_, _, run₂.trans run₃, .inr rfl, .sub hopt (.word hl (.lastSub (.none _)))⟩
    · obtain ⟨s, c₅, h₅, h⟩ := bind_ok h
      obtain ⟨ws₅, run₅, hs⟩ := hr.simpleStmt_reads (run₃.ended he₂) h₅
      obtain ⟨x, c₆, h₆, h⟩ := bind_ok h
      obtain ⟨rfl, hx⟩ := condition_ok h₆
      obtain ⟨heq, rfl⟩ := pure_ok h
      cases heq
      exact ⟨_, _, run₂.trans (run₃.cons run₅), .inr rfl,
        .sub hopt (.word hl (.lastSub (.cover (.opt _) (hx hs))))⟩
  · dsimp only at h
    split at h
    · rename_i hnil
      obtain ⟨heq, rfl⟩ := pure_ok h
      cases heq
      rcases hfirst with ⟨rfl, rfl⟩ | hfirst
      · exact ⟨_, _, run₂, .inl rfl, .const (.lastSub (.none _))⟩
      · cases hfirst with
        | cover hc => cases hc
        | node => cases hnil
    · rename_i hnil
      obtain ⟨x, c₄, h₄, h⟩ := bind_ok h
      obtain ⟨rfl, hx⟩ := condition_ok h₄
      obtain ⟨heq, rfl⟩ := pure_ok h
      cases heq
      rcases hfirst with ⟨rfl, rfl⟩ | hfirst
      · exact absurd rfl hnil
      · exact ⟨_, _, run₂, .inl rfl, .const (.lastSub (.cover (.opt _) (hx hfirst)))⟩

theorem switchStmt_reads (hr : r.Sound) : Reads .stmt r.switchStmt := by
  intro ctx c t c' he h
  obtain ⟨p, c₁, h₁, h⟩ := bind_ok h
  obtain ⟨l, hl, rfl, run₁⟩ := expect_run he (by decide) h₁
  have he₁ := run₁.ended he
  obtain ⟨⟨init, tag⟩, c₂, h₂, h⟩ := bind_ok h
  obtain ⟨ws₂, ps, run₂, hps, hheader⟩ := hr.switchHeader_run he₁ (withLiterals_ok h₂)
  have he₂ := run₂.ended he₁
  obtain ⟨q, c₃, h₃, h⟩ := bind_ok h
  obtain ⟨m, hm, rfl, run₃⟩ := expect_run he₂ (by decide) h₃
  have he₃ := run₃.ended he₂
  obtain ⟨cs, c₄, h₄, h⟩ := bind_ok h
  -- clauses and wildcards, with semicolons anywhere between them
  have hclauses : ∃ ws, Run ctx.groups c₃ ws c₄ ∧
      Derives ctx.dialect (.lines .clause) ws (.list cs) := by
    refine iterate_run (w := [])
      (I := fun xs _ ws => Derives ctx.dialect (.lines .clause) ws (.list xs))
      (P := fun xs _ ws => Derives ctx.dialect (.lines .clause) ws (.list xs))
      ?_ he₃ (.linesNil _) h₄
    intro xs ws c₁ x c₂ he hxs h
    obtain ⟨tok, c₃, h₃, h⟩ := bind_ok h
    obtain ⟨rfl, rfl⟩ := token_ok h₃
    have next (hf : c₁.front.token = .kwCase ∨ c₁.front.token = .kwDefault)
        (h : Gives (do return .inl (xs ++ [← r.clause])) ctx c₁ x c₂) :
        ∃ ws', Run ctx.groups c₁ ws' c₂ ∧
          Sum.elim (fun xs => Derives ctx.dialect (.lines .clause) (ws ++ ws') (.list xs))
            (fun xs => Derives ctx.dialect (.lines .clause) (ws ++ ws') (.list xs)) x := by
      obtain ⟨y, c₄, h₄, h⟩ := bind_ok h
      obtain ⟨ws₄, run₄, hy⟩ := hr.clause_run he hf h₄
      obtain ⟨rfl, rfl⟩ := pure_ok h
      exact ⟨_, run₄, .linesItem rfl hxs hy⟩
    split at h
    case h_1 hf => exact next (.inl hf) h
    case h_2 hf => exact next (.inr hf) h
    case h_3 hf =>
      obtain ⟨u, c₄, h₄, h⟩ := bind_ok h
      have run₄ := advance_run he (List.mem_singleton.mpr hf) (by decide) h₄
      obtain ⟨rfl, rfl⟩ := pure_ok h
      exact ⟨_, run₄, .linesSemicolon hxs hf⟩
    case h_4 =>
      obtain ⟨b, c₄, h₄, h⟩ := bind_ok h
      obtain ⟨rfl, rfl⟩ := atDots_ok h₄
      split at h
      · rename_i hcond
        simp only [Bool.and_eq_true, beq_iff_eq] at hcond
        obtain ⟨y, c₅, h₅, h⟩ := bind_ok h
        obtain ⟨ws₅, run₅, hy⟩ := dots_run he hcond.1 hcond.2 h₅
        obtain ⟨u, c₆, h₆, h⟩ := bind_ok h
        obtain ⟨ws₆, hend, run₆⟩ := endStatement_run (run₅.ended he) h₆
        obtain ⟨rfl, rfl⟩ := pure_ok h
        refine ⟨_, run₅.trans run₆, ?_⟩
        simp only [Sum.elim_inl]
        rw [← List.append_assoc]
        exact .linesEnd? (.linesItem rfl hxs (.cover .clauseDots hy)) hend
      · obtain ⟨rfl, rfl⟩ := pure_ok h
        exact ⟨[], .refl _, by simpa using hxs⟩
  obtain ⟨ws₄, run₄, hcs⟩ := hclauses
  obtain ⟨q, c₅, h₅, h⟩ := bind_ok h
  obtain ⟨k, hk, rfl, run₅⟩ := expect_run (run₄.ended he₃) (by decide) h₅
  obtain ⟨rfl, rfl⟩ := pure_ok h
  have hbody : Derives ctx.dialect .switchBody _ _ :=
    .node .switchBody (.mark hm (.sub hcs (.mark hk .partsNil)))
  have hparts := hheader.parts_append hbody.lastSub
  refine ⟨_, run₁.cons (run₂.trans (run₃.cons (run₄.trans run₅))), ?_⟩
  rcases hps with rfl | rfl
  · exact .node .switch (.mark hl hparts)
  · exact .node .switchInit (.mark hl hparts)

/-! ### Loops -/

theorem loopClauses_run (hr : r.Sound) {init : Tree} {header : LoopHeader} {vs : List Word}
    (he : Ended c.rest) (hinit : Derives ctx.dialect (.opt .simple) vs init)
    (hsimple : c.front.token ≠ .semicolon → Derives ctx.dialect .simple vs init)
    (h : Gives (r.loopClauses init) ctx c header c') :
    ∃ ws, Run ctx.groups c ws c' ∧ header.Spelled ctx.dialect (vs ++ ws) := by
  obtain ⟨o, c₁, h₁, h⟩ := bind_ok h
  rcases got?_run he (by decide) h₁ with ⟨l, hl, rfl, run₁⟩ | ⟨hno, rfl, rfl⟩
  · have he₁ := run₁.ended he
    obtain ⟨tok, c₂, h₂, h⟩ := bind_ok h
    obtain ⟨rfl, rfl⟩ := token_ok h₂
    extract_lets jp at h
    obtain ⟨cond, c₃, ws₃, run₃, hcond, h⟩ : ∃ cond c₃ ws₃, Run ctx.groups c₁ ws₃ c₃ ∧
        Derives ctx.dialect (.opt .expr) ws₃ cond ∧ Gives (jp cond) ctx c₃ header c' := by
      split at h
      · obtain ⟨x, c₃, h₃, h⟩ := bind_ok h
        obtain ⟨rfl, rfl⟩ := pure_ok h₃
        exact ⟨_, _, _, .refl _, .none _, h⟩
      · obtain ⟨x, c₃, h₃, h⟩ := bind_ok h
        obtain ⟨ws₃, run₃, hx⟩ := hr.expr_reads he₁ h₃
        exact ⟨_, _, _, run₃, .cover (.opt _) hx, h⟩
    have he₃ := run₃.ended he₁
    obtain ⟨q, c₄, h₄, h⟩ := bind_ok h
    obtain ⟨m, hm, rfl, run₄⟩ := expect_run he₃ (by decide) h₄
    have he₄ := run₄.ended he₃
    obtain ⟨tok, c₅, h₅, h⟩ := bind_ok h
    obtain ⟨rfl, rfl⟩ := token_ok h₅
    extract_lets jp at h
    obtain ⟨post, c₆, ws₆, run₆, hpost, h⟩ : ∃ post c₆ ws₆, Run ctx.groups c₄ ws₆ c₆ ∧
        Derives ctx.dialect (.opt .simple) ws₆ post ∧ Gives (jp post) ctx c₆ header c' := by
      split at h
      · obtain ⟨x, c₆, h₆, h⟩ := bind_ok h
        obtain ⟨rfl, rfl⟩ := pure_ok h₆
        exact ⟨_, _, _, .refl _, .none _, h⟩
      · obtain ⟨x, c₆, h₆, h⟩ := bind_ok h
        obtain ⟨ws₆, run₆, hx⟩ := hr.simpleStmt_reads he₄ h₆
        exact ⟨_, _, _, run₆, .cover (.opt _) hx, h⟩
    obtain ⟨rfl, rfl⟩ := pure_ok h
    exact ⟨_, run₁.cons (run₃.trans (run₄.cons run₆)), _, .inr rfl,
      .sub hinit (.word hl (.sub hcond (.word hm hpost.lastSub)))⟩
  · obtain ⟨p, c₂, h₂, h⟩ := bind_ok h
    obtain ⟨rfl, rfl⟩ := position_ok h₂
    obtain ⟨x, c₃, h₃, h⟩ := bind_ok h
    obtain ⟨rfl, hx⟩ := condition_ok h₃
    obtain ⟨rfl, rfl⟩ := pure_ok h
    exact ⟨[], .refl _, _, .inl rfl,
      .const (.sub (.cover (.opt _) (hx (hsimple hno))) (.const .partsNil))⟩

theorem loopHeader_run (hr : r.Sound) {header : LoopHeader} (he : Ended c.rest)
    (h : Gives r.loopHeader ctx c header c') :
    ∃ ws, Run ctx.groups c ws c' ∧ header.Spelled ctx.dialect ws := by
  obtain ⟨tok, c₁, h₁, h⟩ := bind_ok h
  obtain ⟨rfl, rfl⟩ := token_ok h₁
  split at h
  · obtain ⟨rfl, rfl⟩ := pure_ok h
    exact ⟨[], .refl _, _, .inl rfl, .const (.sub (.none _) (.const .partsNil))⟩
  · rename_i hf
    exact hr.loopClauses_run he (.none _) (fun hno => absurd hf hno) h
  · obtain ⟨b, c₂, h₂, h⟩ := bind_ok h
    obtain ⟨rfl, rfl⟩ := atDots_ok h₂
    obtain ⟨tok, c₃, h₃, h⟩ := bind_ok h
    obtain ⟨rfl, rfl⟩ := following_ok h₃
    split at h
    · rename_i hcond
      simp only [Bool.and_eq_true, beq_iff_eq] at hcond
      obtain ⟨x, c₄, h₄, h⟩ := bind_ok h
      obtain ⟨ws₄, run₄, hx⟩ := dots_run he hcond.1.1 hcond.1.2 h₄
      obtain ⟨rfl, rfl⟩ := pure_ok h
      have hexpr : Derives ctx.dialect .expr ws₄ x :=
        .cover (.binary 1) (.cover .unary (.cover .primary (.cover .operandDots hx)))
      exact ⟨_, run₄.trans (.refl _), _, .inl rfl,
        .const (.sub (.cover (.opt _) hexpr) (.const .partsNil))⟩
    · obtain ⟨s, c₄, h₄, h⟩ := bind_ok h
      obtain ⟨ws₄, run₄, hs⟩ := hr.simple_run he h₄
      split at h
      · obtain ⟨rfl, rfl⟩ := pure_ok h
        exact ⟨_, run₄, hs⟩
      · obtain ⟨ws₅, run₅, hheader⟩ :=
          hr.loopClauses_run (run₄.ended he) (.cover (.opt _) hs) (fun _ => hs) h
        exact ⟨_, run₄.trans run₅, hheader⟩

theorem forStmt_reads (hr : r.Sound) : Reads .stmt r.forStmt := by
  intro ctx c t c' he h
  obtain ⟨p, c₁, h₁, h⟩ := bind_ok h
  obtain ⟨l, hl, rfl, run₁⟩ := expect_run he (by decide) h₁
  have he₁ := run₁.ended he
  obtain ⟨header, c₂, h₂, h⟩ := bind_ok h
  obtain ⟨ws₂, run₂, hheader⟩ := hr.loopHeader_run he₁ (withLiterals_ok h₂)
  obtain ⟨body, c₃, h₃, h⟩ := bind_ok h
  obtain ⟨ws₃, run₃, hbody⟩ := hr.block (run₂.ended he₁) h₃
  split at h
  · obtain ⟨rfl, rfl⟩ := pure_ok h
    obtain ⟨ps, hps, hheader⟩ := hheader
    have hparts := hheader.parts_append hbody.lastSub
    refine ⟨_, run₁.cons (run₂.trans run₃), ?_⟩
    rcases hps with rfl | rfl
    · exact .node .forStmt (.mark hl hparts)
    · exact .node .forClauses (.mark hl hparts)
  · obtain ⟨rfl, rfl⟩ := pure_ok h
    obtain ⟨ps, hps, hheader⟩ := hheader
    have hparts := hheader.parts_append hbody.lastSub
    refine ⟨_, run₁.cons (run₂.trans run₃), ?_⟩
    rcases hps with rfl | rfl
    · exact .node .rangeStmt (.mark hl hparts)
    · exact .node .rangeTargets (.mark hl hparts)

/-! ### Statements -/

theorem returnResults_run (hr : r.Sound) {xs : List Tree} (he : Ended c.rest)
    (h : Gives r.returnResults ctx c xs c') :
    ∃ ws, Run ctx.groups c ws c' ∧
      Derives ctx.dialect (.orEmpty (.more .expr)) ws (.list xs) := by
  obtain ⟨tok, c₁, h₁, h⟩ := bind_ok h
  obtain ⟨rfl, rfl⟩ := token_ok h₁
  split at h
  case h_1 | h_2 | h_3 =>
    obtain ⟨rfl, rfl⟩ := pure_ok h
    exact ⟨[], .refl _, .empty _⟩
  case h_4 =>
    obtain ⟨ws, run, hxs⟩ := hr.exprList_run he h
    exact ⟨ws, run, .cover (.orEmpty _) hxs⟩

theorem branchStmt_run {t : Tree} (he : Ended c.rest) (hf : c.front.token ∈ Token.jumps)
    (h : Gives branchStmt ctx c t c') :
    ∃ ws, Run ctx.groups c ws c' ∧ Derives ctx.dialect .stmt ws t := by
  obtain ⟨l, c₁, h₁, h⟩ := bind_ok h
  obtain ⟨rfl, rfl⟩ := current_ok h₁
  obtain ⟨u, c₂, h₂, h⟩ := bind_ok h
  have run₂ := advance_run he hf (by decide) h₂
  obtain ⟨tok, c₃, h₃, h⟩ := bind_ok h
  obtain ⟨rfl, rfl⟩ := token_ok h₃
  extract_lets jp at h
  split at h
  · obtain ⟨x, c₄, h₄, h⟩ := bind_ok h
    obtain ⟨ws₄, run₄, hx⟩ := ident_reads (run₂.ended he) h₄
    obtain ⟨rfl, rfl⟩ := pure_ok h
    exact ⟨_, run₂.cons run₄, .node .branchStmt (.markIn hf (.lastSub (.cover (.opt _) hx)))⟩
  · obtain ⟨x, c₄, h₄, h⟩ := bind_ok h
    obtain ⟨rfl, rfl⟩ := pure_ok h₄
    obtain ⟨rfl, rfl⟩ := pure_ok h
    exact ⟨_, run₂, .node .branchStmt (.markIn hf (.lastSub (.none _)))⟩

theorem stmtStep_reads (hr : r.Sound) : Reads .stmt r.stmtStep := by
  intro ctx c t c' he h
  obtain ⟨tok, c₁, h₁, h⟩ := bind_ok h
  obtain ⟨rfl, rfl⟩ := token_ok h₁
  have declares (hf : c.front.token ∈ Token.declarers)
      (h : Gives (do return .node .declStmt [← r.declaration .nil]) ctx c t c') :
      ∃ ws, Run ctx.groups c ws c' ∧ Derives ctx.dialect .stmt ws t := by
    obtain ⟨x, c₂, h₂, h⟩ := bind_ok h
    obtain ⟨ws₂, run₂, hx⟩ := hr.declaration_run he hf .noDoc h₂
    obtain ⟨rfl, rfl⟩ := pure_ok h
    exact ⟨_, run₂, .node .declStmt hx.lastSub⟩
  split at h
  case h_1 hf | h_2 hf | h_3 hf => exact declares (by rw [hf]; decide) h
  case h_4 hf => exact takeThen_run .goStmt hr.expr_reads he hf (by decide) h
  case h_5 hf => exact takeThen_run .deferStmt hr.expr_reads he hf (by decide) h
  case h_6 hf =>
    obtain ⟨p, c₂, h₂, h⟩ := bind_ok h
    obtain ⟨rfl, run₂⟩ := take_run he (by rw [hf]; decide) h₂
    obtain ⟨xs, c₃, h₃, h⟩ := bind_ok h
    obtain ⟨ws₃, run₃, hxs⟩ := hr.returnResults_run (run₂.ended he) h₃
    obtain ⟨rfl, rfl⟩ := pure_ok h
    exact ⟨_, run₂.cons run₃, .node .returnStmt (.mark hf hxs.lastSub)⟩
  case h_7 hf | h_8 hf | h_9 hf | h_10 hf => exact branchStmt_run he (by rw [hf]; decide) h
  case h_11 => exact (hr.block.cover .stmtBlock) he h
  case h_12 => exact (hr.ifStmt.cover .stmtIf) he h
  case h_13 => exact hr.switchStmt_reads he h
  case h_14 => exact hr.forStmt_reads he h
  case h_15 =>
    obtain ⟨b, c₂, h₂, h⟩ := bind_ok h
    obtain ⟨rfl, rfl⟩ := atDots_ok h₂
    split at h
    · rename_i hcond
      simp only [Bool.and_eq_true, beq_iff_eq] at hcond
      obtain ⟨ws, run, ht⟩ := dots_run he hcond.1 hcond.2 h
      exact ⟨ws, run, .cover .stmtDots ht⟩
    · exact (hr.simpleStmt_reads.cover .stmtSimple) he h

end Rules.Sound

end Graft
