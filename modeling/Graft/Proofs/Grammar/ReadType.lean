import Graft.Proofs.Grammar.Reading

/-! # The productions for types read types

Soundness of the productions goes by the depth of calls: rules that are sound (`Rules.Sound`) give
sound rules when they are stepped once more.  This module has the part of that step that is about
types, parameter lists, structs and interfaces.
-/

namespace Graft

/-- The sort of the types that begin with a token. -/
def Phrase.typeAt : Token → Phrase
  | .kwFunc => .funcType
  | .lbrack | .kwMap | .kwStruct | .kwInterface => .typeLit
  | _ => .type

theorem Derives.type_of_typeAt {d : Dialect} {tok : Token} {ws : List Word} {t : Tree}
    (h : Derives d (.typeAt tok) ws t) : Derives d .type ws t := by
  unfold Phrase.typeAt at h
  split at h
  · exact .cover .typeFunc h
  · exact .cover .typeLit h
  · exact .cover .typeLit h
  · exact .cover .typeLit h
  · exact .cover .typeLit h
  · exact h

/-- A type that is an identifier was read as one. -/
theorem Derives.ident_of_type {d : Dialect} {ws : List Word} {t : Tree} (h : Derives d .type ws t)
    (hk : t.isKind .ident = true) : Derives d .ident ws t := by
  cases h with
  | cover hc hs =>
    cases hc with
    | typeIdent => exact hs
    | typeLit => cases hs with
      | cover hc => cases hc
      | node hr => cases hr <;> cases hk
    | typeFunc => cases hs with
      | cover hc => cases hc
      | node hr =>
        cases hr
        cases hk
  | node hr => cases hr <;> cases hk

/-- The last part of a node, when it is a subtree. -/
theorem Derives.lastSub {d : Dialect} {s : Phrase} {ws : List Word} {t : Tree}
    (h : Derives d s ws t) : Derives d (.parts [.sub s]) ws (.list [t]) := by
  have := Derives.sub h (.partsNil (d := d))
  rwa [List.append_nil] at this

/-- Rules whose answers are spelled by what they consume. -/
structure Rules.Sound (r : Rules) : Prop where
  type ⦃ctx : Context⦄ ⦃c : Cursor⦄ ⦃t : Tree⦄ ⦃c' : Cursor⦄ : Ended c.rest →
    r.type.Gives ctx c t c' →
    ∃ ws, Run ctx.groups c ws c' ∧ Derives ctx.dialect (.typeAt c.front.token) ws t
  unary : Reads .unary r.unary
  /-- An expression is read as far as its operators bind. -/
  binary ⦃n : Nat⦄ (hn : 0 < n) ⦃ctx : Context⦄ ⦃c : Cursor⦄ ⦃t : Tree⦄ ⦃c' : Cursor⦄ :
    Ended c.rest → (r.binary n).Gives ctx c t c' →
    ∃ ws, Run ctx.groups c ws c' ∧ Derives ctx.dialect (.binary n) ws t ∧
      c'.front.token.precedence < n
  composite ⦃x : Tree⦄ ⦃ctx : Context⦄ ⦃c : Cursor⦄ ⦃t : Tree⦄ ⦃c' : Cursor⦄ : Ended c.rest →
    (r.composite x).Gives ctx c t c' →
    ∃ ws ts, Run ctx.groups c ws c' ∧ t = .node .compositeLit (x :: ts) ∧
      Derives ctx.dialect
        (.parts [.mark .lbrace, .sub (.trailing .element), .lineEnd, .mark .rbrace]) ws (.list ts)
  block : Reads .block r.block
  ifStmt : Reads .ifStmt r.ifStmt
  stmt : Reads .stmt r.stmt

namespace Rules.Sound

open Reader

variable {r : Rules} {ctx : Context} {c c' : Cursor}

theorem type_reads (hr : r.Sound) : Reads .type r.type := by
  intro ctx c t c' he h
  obtain ⟨ws, run, ht⟩ := hr.type he h
  exact ⟨ws, run, ht.type_of_typeAt⟩

theorem expr_reads (hr : r.Sound) : Reads .expr r.expr := by
  intro ctx c t c' he h
  obtain ⟨ws, run, ht, -⟩ := hr.binary Nat.one_pos he h
  exact ⟨ws, run, ht⟩

/-- A token and a phrase behind it, both recorded. -/
theorem takeThen_run {s s' : Phrase} {k : Kind} {tok : Token} {rd : Reader Tree} {t : Tree}
    (hrow : Row s k [.mark tok, .sub s']) (hs : Reads s' rd) (he : Ended c.rest)
    (hf : c.front.token = tok) (ht : tok ≠ .eof)
    (h : Gives (do let p ← take; return .node k [.pos p, ← rd]) ctx c t c') :
    ∃ ws, Run ctx.groups c ws c' ∧ Derives ctx.dialect s ws t := by
  obtain ⟨p, c₁, h₁, h⟩ := bind_ok h
  obtain ⟨rfl, run₁⟩ := take_run he (hf ▸ ht) h₁
  obtain ⟨x, c₂, h₂, h⟩ := bind_ok h
  obtain ⟨ws₂, run₂, hx⟩ := hs (run₁.ended he) h₂
  obtain ⟨rfl, rfl⟩ := pure_ok h
  exact ⟨_, run₁.cons run₂, .node hrow (.mark hf hx.lastSub)⟩

theorem startsType_ok {b : Bool} (h : Gives startsType ctx c b c') : c = c' := by
  obtain ⟨tok, c₁, h₁, h⟩ := bind_ok h
  obtain ⟨-, rfl⟩ := token_ok h₁
  split at h <;> exact (pure_ok h).2

/-! ### Parameters -/

theorem paramType_reads (hr : r.Sound) : Reads .paramType r.paramType := by
  intro ctx c t c' he h
  obtain ⟨tok, c₁, h₁, h⟩ := bind_ok h
  obtain ⟨rfl, rfl⟩ := token_ok h₁
  split at h
  · rename_i hf
    have hf : c.front.token = .ellipsis := by simpa using hf
    exact takeThen_run .variadic hr.type_reads he hf (by decide) h
  · exact (hr.type_reads.cover .paramType) he h

theorem paramEntry_run (hr : r.Sound) {e : ParamEntry} (he : Ended c.rest)
    (h : Gives r.paramEntry ctx c e c') :
    ∃ ws, Run ctx.groups c ws c' ∧ Derives ctx.dialect .entry ws e.field := by
  obtain ⟨b, c₁, h₁, h⟩ := bind_ok h
  obtain ⟨rfl, rfl⟩ := atDots_ok h₁
  obtain ⟨t₂, c₂, h₂, h⟩ := bind_ok h
  obtain ⟨rfl, rfl⟩ := following_ok h₂
  obtain ⟨t₃, c₃, h₃, h⟩ := bind_ok h
  obtain ⟨rfl, rfl⟩ := following_ok h₃
  split at h
  · rename_i hcond
    simp only [Bool.and_eq_true, beq_iff_eq] at hcond
    obtain ⟨⟨hd, hf⟩, -⟩ := hcond
    obtain ⟨x, c₄, h₄, h⟩ := bind_ok h
    obtain ⟨ws₄, run₄, hx⟩ := dots_run he hd hf h₄
    obtain ⟨rfl, rfl⟩ := pure_ok h
    exact ⟨_, run₄.trans (.refl _), .node .dotsEntry (.const (.const (.sub hx (.const .partsNil))))⟩
  obtain ⟨x, c₄, h₄, h⟩ := bind_ok h
  obtain ⟨ws₄, run₄, hx⟩ := hr.paramType_reads he h₄
  obtain ⟨tok, c₅, h₅, h⟩ := bind_ok h
  obtain ⟨rfl, rfl⟩ := token_ok h₅
  -- an entry of one part
  have alone (he : ⟨none, x⟩ = e) (hc : c₄ = c') :
      ∃ ws, Run ctx.groups c ws c' ∧ Derives ctx.dialect .entry ws e.field := by
    subst he hc
    exact ⟨_, run₄.trans (.refl _), .node .entry (.const (.const (.sub hx (.const .partsNil))))⟩
  split at h
  · obtain ⟨he, hc⟩ := pure_ok h
    exact alone he hc
  · obtain ⟨he, hc⟩ := pure_ok h
    exact alone he hc
  · obtain ⟨y, c₆, h₆, h⟩ := bind_ok h
    obtain ⟨ws₆, run₆, hy⟩ := hr.paramType_reads (run₄.ended he) h₆
    obtain ⟨rfl, rfl⟩ := pure_ok h
    exact ⟨_, run₄.trans (run₆.trans (.refl _)),
      .node .namedEntry (.const (.sub (.one rfl hx) (.sub hy (.const .partsNil))))⟩

theorem params_reads (hr : r.Sound) : Reads .params r.params := by
  intro ctx c t c' he h
  obtain ⟨p, c₁, h₁, h⟩ := bind_ok h
  obtain ⟨l, hl, rfl, run₁⟩ := expect_run he (by decide) h₁
  obtain ⟨es, c₂, h₂, h⟩ := bind_ok h
  -- between rounds every entry has its comma; the loop may also stop at an entry without one
  have hentries : ∃ ws, Run ctx.groups c₁ ws c₂ ∧
      Derives ctx.dialect (.trailing .entry) ws (.list (es.map (·.field))) := by
    refine iterate_run (w := [])
      (I := fun es _ ws => Derives ctx.dialect (.ended .entry) ws (.list (es.map (·.field))))
      (P := fun es _ ws => Derives ctx.dialect (.trailing .entry) ws (.list (es.map (·.field))))
      ?_ (run₁.ended he) (.endedNil _) h₂
    intro es ws c₁ x c₂ he hes h
    obtain ⟨tok, c₃, h₃, h⟩ := bind_ok h
    obtain ⟨rfl, rfl⟩ := token_ok h₃
    have hdone (hx : .inr es = x) (hc : c₁ = c₂) : ∃ ws', Run ctx.groups c₁ ws' c₂ ∧
        Sum.elim
          (fun es => Derives ctx.dialect (.ended .entry) (ws ++ ws') (.list (es.map (·.field))))
          (fun es => Derives ctx.dialect (.trailing .entry) (ws ++ ws') (.list (es.map (·.field))))
          x := by
      subst hx hc
      exact ⟨[], .refl _, .cover (.trailingEnded _) (by simpa using hes)⟩
    split at h
    · obtain ⟨hx, hc⟩ := pure_ok h
      exact hdone hx hc
    · obtain ⟨hx, hc⟩ := pure_ok h
      exact hdone hx hc
    · obtain ⟨e, c₄, h₄, h⟩ := bind_ok h
      obtain ⟨ws₄, run₄, he₄⟩ := hr.paramEntry_run he h₄
      have hmore : Derives ctx.dialect (.more .entry) (ws ++ ws₄)
          (.list ((es ++ [e]).map (·.field))) := by
        rw [List.map_append]
        exact .more rfl hes he₄
      obtain ⟨o, c₅, h₅, h⟩ := bind_ok h
      rcases got?_run (run₄.ended he) (by decide) h₅ with ⟨m, hm, rfl, run₅⟩ | ⟨-, rfl, rfl⟩
      · obtain ⟨rfl, rfl⟩ := pure_ok h
        refine ⟨_, run₄.trans run₅, ?_⟩
        show Derives _ _ (ws ++ (ws₄ ++ [.lexeme m])) _
        rw [← List.append_assoc]
        exact .endedComma hmore hm
      · obtain ⟨rfl, rfl⟩ := pure_ok h
        exact ⟨_, run₄, .cover (.trailingMore _) hmore⟩
  obtain ⟨ws₂, run₂, hes⟩ := hentries
  have he₂ := run₂.ended (run₁.ended he)
  obtain ⟨u, c₃, h₃, h⟩ := bind_ok h
  obtain ⟨ws₃, hws₃, run₃, -⟩ := skipLineEnd_run he₂ h₃
  obtain ⟨q, c₄, h₄, h⟩ := bind_ok h
  obtain ⟨m, hm, rfl, run₄⟩ := expect_run (run₃.ended he₂) (by decide) h₄
  split at h
  · rename_i fields hfields
    obtain ⟨rfl, rfl⟩ := pure_ok h
    exact ⟨_, run₁.cons (run₂.trans (run₃.trans run₄)),
      .node .params (.mark hl (.params hes hfields (.lineEnd? hws₃ (.mark hm .partsNil))))⟩
  · cases h

theorem signature_run (hr : r.Sound) {params results : Tree} (he : Ended c.rest)
    (h : Gives r.signature ctx c (params, results) c') :
    ∃ ws, Run ctx.groups c ws c' ∧
      Derives ctx.dialect (.parts [.sub .params, .sub (.opt .results)]) ws
        (.list [params, results]) := by
  obtain ⟨x, c₁, h₁, h⟩ := bind_ok h
  obtain ⟨ws₁, run₁, hx⟩ := hr.params_reads he h₁
  obtain ⟨tok, c₂, h₂, h⟩ := bind_ok h
  obtain ⟨rfl, rfl⟩ := token_ok h₂
  split at h
  · obtain ⟨y, c₃, h₃, h⟩ := bind_ok h
    obtain ⟨ws₃, run₃, hy⟩ := hr.params_reads (run₁.ended he) h₃
    obtain ⟨heq, rfl⟩ := pure_ok h
    cases heq
    exact ⟨_, run₁.trans run₃,
      .sub hx (.lastSub (.cover (.opt _) (.cover .resultsParams hy)))⟩
  · obtain ⟨b, c₃, h₃, h⟩ := bind_ok h
    obtain rfl := startsType_ok h₃
    split at h
    · obtain ⟨y, c₄, h₄, h⟩ := bind_ok h
      obtain ⟨ws₄, run₄, hy⟩ := hr.type_reads (run₁.ended he) h₄
      obtain ⟨heq, rfl⟩ := pure_ok h
      cases heq
      have hfield : Derives ctx.dialect .bareField (ws₄ ++ []) (plainField [] y) :=
        .node .bareField (.const (.const (.sub hy (.const .partsNil))))
      rw [List.append_nil] at hfield
      have hresults : Derives ctx.dialect .results (ws₄ ++ [])
          (.node .fieldList [.pos .none, .list [plainField [] y], .pos .none]) :=
        .node .bareResult (.const (.sub (.one rfl hfield) (.const .partsNil)))
      rw [List.append_nil] at hresults
      exact ⟨_, run₁.trans run₄, .sub hx (.lastSub (.cover (.opt _) hresults))⟩
    · obtain ⟨heq, rfl⟩ := pure_ok h
      cases heq
      exact ⟨_, run₁.trans (.refl _), .sub hx (.lastSub (.none _))⟩

/-! ### Structs and interfaces -/

theorem members_reads {s : Phrase} {member : Reader Tree}
    (hs : s = .structField ∨ s = .interfaceField) (hm : Reads s member) :
    Reads (.members s) (members member) := by
  intro ctx c t c' he h
  have hn : s.isNode = true := by rcases hs with rfl | rfl <;> rfl
  obtain ⟨p, c₁, h₁, h⟩ := bind_ok h
  obtain ⟨l, hl, rfl, run₁⟩ := expect_run he (by decide) h₁
  obtain ⟨fs, c₂, h₂, h⟩ := bind_ok h
  have hfields : ∃ ws, Run ctx.groups c₁ ws c₂ ∧
      Derives ctx.dialect (.lines (.member s)) ws (.list fs) := by
    refine iterate_run (w := [])
      (I := fun fs _ ws => Derives ctx.dialect (.lines (.member s)) ws (.list fs))
      (P := fun fs _ ws => Derives ctx.dialect (.lines (.member s)) ws (.list fs))
      ?_ (run₁.ended he) (.linesNil _) h₂
    intro fs ws c₁ x c₂ he hfs h
    obtain ⟨tok, c₃, h₃, h⟩ := bind_ok h
    obtain ⟨rfl, rfl⟩ := token_ok h₃
    split at h
    · obtain ⟨rfl, rfl⟩ := pure_ok h
      exact ⟨[], .refl _, by simpa using hfs⟩
    · obtain ⟨rfl, rfl⟩ := pure_ok h
      exact ⟨[], .refl _, by simpa using hfs⟩
    · obtain ⟨b, c₄, h₄, h⟩ := bind_ok h
      obtain ⟨rfl, rfl⟩ := atDots_ok h₄
      extract_lets jp at h
      obtain ⟨f, c₅, ws₅, run₅, hf, h⟩ : ∃ f c₅ ws₅, Run ctx.groups c₁ ws₅ c₅ ∧
          Derives ctx.dialect (.member s) ws₅ f ∧ Gives (jp f) ctx c₅ x c₂ := by
        split at h
        · rename_i hcond
          simp only [Bool.and_eq_true, beq_iff_eq] at hcond
          obtain ⟨y, c₅, h₅, h⟩ := bind_ok h
          obtain ⟨ws₅, run₅, hy⟩ := dots_run he hcond.1 hcond.2 h₅
          obtain ⟨f, c₆, h₆, h⟩ := bind_ok h
          obtain ⟨rfl, rfl⟩ := pure_ok h₆
          exact ⟨_, _, _, run₅.trans (.refl _),
            .node (.dotsMember s) (.const (.const (.sub hy (.const .partsNil)))), h⟩
        · obtain ⟨f, c₅, h₅, h⟩ := bind_ok h
          obtain ⟨ws₅, run₅, hf⟩ := hm he h₅
          exact ⟨_, _, _, run₅, .cover (.member s) hf, h⟩
      obtain ⟨u, c₆, h₆, h⟩ := bind_ok h
      obtain ⟨ws₆, hend, run₆⟩ := endStatement_run (run₅.ended he) h₆
      obtain ⟨rfl, rfl⟩ := pure_ok h
      refine ⟨_, run₅.trans run₆, ?_⟩
      show Derives _ _ (ws ++ (ws₅ ++ ws₆)) _
      rw [← List.append_assoc]
      exact .linesEnd? (.linesItem hn hfs hf) hend
  obtain ⟨ws₂, run₂, hfs⟩ := hfields
  obtain ⟨q, c₃, h₃, h⟩ := bind_ok h
  obtain ⟨m, hm, rfl, run₃⟩ := expect_run (run₂.ended (run₁.ended he)) (by decide) h₃
  obtain ⟨rfl, rfl⟩ := pure_ok h
  exact ⟨_, run₁.cons (run₂.trans run₃),
    .node (.members s hs) (.mark hl (.sub hfs (.mark hm .partsNil)))⟩

theorem structField_reads (hr : r.Sound) : Reads .structField r.structField := by
  intro ctx c t c' he h
  obtain ⟨p, c₁, h₁, h⟩ := bind_ok h
  obtain ⟨rfl, rfl⟩ := position_ok h₁
  obtain ⟨doc, c₂, h₂, h⟩ := bind_ok h
  obtain ⟨ws₂, rfl, run₂, hdoc⟩ := docFor_run h₂
  obtain ⟨first, c₃, h₃, h⟩ := bind_ok h
  obtain ⟨ws₃, run₃, hfirst⟩ := hr.type_reads he h₃
  have he₃ := run₃.ended he
  obtain ⟨tok, c₄, h₄, h⟩ := bind_ok h
  obtain ⟨rfl, rfl⟩ := token_ok h₄
  obtain ⟨b, c₅, h₅, h⟩ := bind_ok h
  obtain rfl := startsType_ok h₅
  extract_lets jp at h
  -- names and their type, or a type alone
  obtain ⟨names, type, c₆, ws₆, run₆, hfield, h⟩ : ∃ names type c₆ ws₆, Run ctx.groups c ws₆ c₆ ∧
      (∀ {ws tag}, Derives ctx.dialect (.opt .literal) ws tag →
        Derives ctx.dialect .structField (ws₂ ++ (ws₆ ++ ws))
          (.node .field [doc, .list names, type, tag])) ∧
      Gives (jp (names, type)) ctx c₆ t c' := by
    split at h
    · obtain ⟨names, c₆, h₆, h⟩ := bind_ok h
      have hnames : ∃ ws, Run ctx.groups c₃ ws c₆ ∧
          Derives ctx.dialect .fieldNames (ws₃ ++ ws) (.list names) := by
        refine iterate_run (I := fun ns _ ws => Derives ctx.dialect .fieldNames ws (.list ns))
          (P := fun ns _ ws => Derives ctx.dialect .fieldNames ws (.list ns)) ?_ he₃
          (.firstName hfirst) h₆
        intro ns ws c₁ x c₂ he hns h
        obtain ⟨o, c₃, h₃, h⟩ := bind_ok h
        rcases got?_run he (by decide) h₃ with ⟨l, hl, rfl, run₃⟩ | ⟨-, rfl, rfl⟩
        · obtain ⟨n, c₄, h₄, h⟩ := bind_ok h
          obtain ⟨ws₄, run₄, hn⟩ := ident_reads (run₃.ended he) h₄
          obtain ⟨rfl, rfl⟩ := pure_ok h
          exact ⟨_, run₃.cons run₄, .nextName hns hl hn⟩
        · obtain ⟨rfl, rfl⟩ := pure_ok h
          exact ⟨[], .refl _, by simpa using hns⟩
      obtain ⟨ws₆, run₆, hnames⟩ := hnames
      obtain ⟨type, c₇, h₇, h⟩ := bind_ok h
      obtain ⟨ws₇, run₇, htype⟩ := hr.type_reads (run₆.ended he₃) h₇
      obtain ⟨x, c₈, h₈, h⟩ := bind_ok h
      obtain ⟨rfl, rfl⟩ := pure_ok h₈
      refine ⟨names, type, _, _, (run₃.trans run₆).trans run₇, ?_, h⟩
      intro ws tag htag
      rw [List.append_assoc _ ws₇]
      exact .node .named (.sub hdoc (.sub hnames (.sub htype htag.lastSub)))
    · obtain ⟨x, c₆, h₆, h⟩ := bind_ok h
      obtain ⟨rfl, rfl⟩ := pure_ok h₆
      refine ⟨[], first, _, _, run₃, ?_, h⟩
      intro ws tag htag
      exact .node .embedded (.sub hdoc (.const (.sub hfirst htag.lastSub)))
  obtain ⟨tok, c₇, h₇, h⟩ := bind_ok h
  obtain ⟨rfl, rfl⟩ := token_ok h₇
  extract_lets jp at h
  split at h
  · rename_i hf
    have hf : c₆.front.token = .string := by simpa using hf
    obtain ⟨tag, c₈, h₈, h⟩ := bind_ok h
    obtain ⟨ws₈, run₈, htag⟩ := basicLit_run (run₆.ended he) (by rw [hf]; rfl) h₈
    obtain ⟨rfl, rfl⟩ := pure_ok h
    exact ⟨_, run₂.trans (run₆.trans run₈), hfield (.cover (.opt _) htag)⟩
  · obtain ⟨tag, c₈, h₈, h⟩ := bind_ok h
    obtain ⟨rfl, rfl⟩ := pure_ok h₈
    obtain ⟨rfl, rfl⟩ := pure_ok h
    exact ⟨_, run₂.trans (run₆.trans (.refl _)), hfield (.none _)⟩

theorem interfaceField_reads (hr : r.Sound) : Reads .interfaceField r.interfaceField := by
  intro ctx c t c' he h
  obtain ⟨p, c₁, h₁, h⟩ := bind_ok h
  obtain ⟨rfl, rfl⟩ := position_ok h₁
  obtain ⟨doc, c₂, h₂, h⟩ := bind_ok h
  obtain ⟨ws₂, rfl, run₂, hdoc⟩ := docFor_run h₂
  obtain ⟨first, c₃, h₃, h⟩ := bind_ok h
  obtain ⟨ws₃, run₃, hfirst⟩ := hr.type_reads he h₃
  obtain ⟨tok, c₄, h₄, h⟩ := bind_ok h
  obtain ⟨rfl, rfl⟩ := token_ok h₄
  split at h
  · rename_i hcond
    simp only [Bool.and_eq_true] at hcond
    obtain ⟨⟨params, results⟩, c₅, h₅, h⟩ := bind_ok h
    obtain ⟨ws₅, run₅, hsig⟩ := hr.signature_run (run₃.ended he) h₅
    obtain ⟨rfl, rfl⟩ := pure_ok h
    exact ⟨_, run₂.trans (run₃.trans (run₅.trans (.refl _))),
      .node .method (.sub hdoc (.sub (.one rfl (hfirst.ident_of_type hcond.1))
        (.sub (.node .signature (.const hsig)) (.const .partsNil))))⟩
  · obtain ⟨rfl, rfl⟩ := pure_ok h
    exact ⟨_, run₂.trans (run₃.trans (.refl _)),
      .node .embeddedType (.sub hdoc (.const (.sub hfirst (.const .partsNil))))⟩

/-! ### Types -/

theorem typeName_reads : Reads .type typeName := by
  intro ctx c t c' he h
  obtain ⟨x, c₁, h₁, h⟩ := bind_ok h
  obtain ⟨ws₁, run₁, hx⟩ := ident_reads he h₁
  obtain ⟨o, c₂, h₂, h⟩ := bind_ok h
  rcases got?_run (run₁.ended he) (by decide) h₂ with ⟨l, hl, rfl, run₂⟩ | ⟨-, rfl, rfl⟩
  · obtain ⟨y, c₃, h₃, h⟩ := bind_ok h
    obtain ⟨ws₃, run₃, hy⟩ := ident_reads (run₂.ended (run₁.ended he)) h₃
    obtain ⟨rfl, rfl⟩ := pure_ok h
    exact ⟨_, run₁.trans (run₂.cons run₃), .node .qualified (.sub hx (.word hl hy.lastSub))⟩
  · obtain ⟨rfl, rfl⟩ := pure_ok h
    exact ⟨_, run₁, .cover .typeIdent hx⟩

theorem arrayType_run (hr : r.Sound) {t : Tree} (he : Ended c.rest)
    (hf : c.front.token = .lbrack) (h : Gives r.arrayType ctx c t c') :
    ∃ ws, Run ctx.groups c ws c' ∧ Derives ctx.dialect .typeLit ws t := by
  obtain ⟨p, c₁, h₁, h⟩ := bind_ok h
  obtain ⟨rfl, run₁⟩ := take_run he (by rw [hf]; decide) h₁
  have he₁ := run₁.ended he
  obtain ⟨tok, c₂, h₂, h⟩ := bind_ok h
  obtain ⟨rfl, rfl⟩ := token_ok h₂
  extract_lets jp at h
  obtain ⟨len, c₃, ws₃, run₃, hlen, h⟩ : ∃ len c₃ ws₃, Run ctx.groups c₁ ws₃ c₃ ∧
      Derives ctx.dialect (.opt .arrayLength) ws₃ len ∧ Gives (jp len) ctx c₃ t c' := by
    split at h
    · obtain ⟨x, c₃, h₃, h⟩ := bind_ok h
      obtain ⟨rfl, rfl⟩ := pure_ok h₃
      exact ⟨_, _, _, .refl _, .none _, h⟩
    · rename_i hf₁
      obtain ⟨q, c₃, h₃, h⟩ := bind_ok h
      obtain ⟨rfl, run₃⟩ := take_run he₁ (by rw [hf₁]; decide) h₃
      obtain ⟨x, c₄, h₄, h⟩ := bind_ok h
      obtain ⟨rfl, rfl⟩ := pure_ok h₄
      exact ⟨_, _, _, run₃, .cover (.opt _) (.node .openArray (.mark hf₁ (.const .partsNil))), h⟩
    · obtain ⟨x, c₃, h₃, h⟩ := bind_ok h
      obtain ⟨ws₃, run₃, hx⟩ := hr.expr_reads he₁ h₃
      exact ⟨_, _, _, run₃, .cover (.opt _) (.cover .lengthExpr hx), h⟩
  have he₃ := run₃.ended he₁
  obtain ⟨q, c₄, h₄, h⟩ := bind_ok h
  obtain ⟨l, hl, rfl, run₄⟩ := expect_run he₃ (by decide) h₄
  obtain ⟨y, c₅, h₅, h⟩ := bind_ok h
  obtain ⟨ws₅, run₅, hy⟩ := hr.type_reads (run₄.ended he₃) h₅
  obtain ⟨rfl, rfl⟩ := pure_ok h
  exact ⟨_, run₁.cons (run₃.trans (run₄.cons run₅)),
    .node .array (.mark hf (.sub hlen (.word hl hy.lastSub)))⟩

theorem mapType_run (hr : r.Sound) {t : Tree} (he : Ended c.rest)
    (hf : c.front.token = .kwMap) (h : Gives r.mapType ctx c t c') :
    ∃ ws, Run ctx.groups c ws c' ∧ Derives ctx.dialect .typeLit ws t := by
  obtain ⟨p, c₁, h₁, h⟩ := bind_ok h
  obtain ⟨rfl, run₁⟩ := take_run he (by rw [hf]; decide) h₁
  have he₁ := run₁.ended he
  obtain ⟨q, c₂, h₂, h⟩ := bind_ok h
  obtain ⟨l, hl, rfl, run₂⟩ := expect_run he₁ (by decide) h₂
  have he₂ := run₂.ended he₁
  obtain ⟨x, c₃, h₃, h⟩ := bind_ok h
  obtain ⟨ws₃, run₃, hx⟩ := hr.type_reads he₂ h₃
  have he₃ := run₃.ended he₂
  obtain ⟨q', c₄, h₄, h⟩ := bind_ok h
  obtain ⟨m, hm, rfl, run₄⟩ := expect_run he₃ (by decide) h₄
  obtain ⟨y, c₅, h₅, h⟩ := bind_ok h
  obtain ⟨ws₅, run₅, hy⟩ := hr.type_reads (run₄.ended he₃) h₅
  obtain ⟨rfl, rfl⟩ := pure_ok h
  exact ⟨_, run₁.cons (run₂.cons (run₃.trans (run₄.cons run₅))),
    .node .map (.mark hf (.word hl (.sub hx (.word hm hy.lastSub))))⟩

theorem typeStep_run (hr : r.Sound) {t : Tree} (he : Ended c.rest)
    (h : Gives r.typeStep ctx c t c') :
    ∃ ws, Run ctx.groups c ws c' ∧ Derives ctx.dialect (.typeAt c.front.token) ws t := by
  obtain ⟨tok, c₁, h₁, h⟩ := bind_ok h
  obtain ⟨rfl, rfl⟩ := token_ok h₁
  split at h
  case h_1 hf =>
    rw [hf]
    exact typeName_reads he h
  case h_2 hf =>
    rw [hf]
    exact takeThen_run .pointer hr.type_reads he hf (by decide) h
  case h_3 hf =>
    rw [hf]
    exact hr.arrayType_run he hf h
  case h_4 hf =>
    rw [hf]
    exact hr.mapType_run he hf h
  case h_5 hf =>
    rw [hf]
    obtain ⟨p, c₁, h₁, h⟩ := bind_ok h
    obtain ⟨rfl, run₁⟩ := take_run he (by rw [hf]; decide) h₁
    obtain ⟨⟨params, results⟩, c₂, h₂, h⟩ := bind_ok h
    obtain ⟨ws₂, run₂, hsig⟩ := hr.signature_run (run₁.ended he) h₂
    obtain ⟨rfl, rfl⟩ := pure_ok h
    exact ⟨_, run₁.cons run₂, .node .func (.mark hf hsig)⟩
  case h_6 hf =>
    rw [hf]
    exact takeThen_run .struct (members_reads (.inl rfl) hr.structField_reads) he hf (by decide) h
  case h_7 hf =>
    rw [hf]
    exact takeThen_run .interface (members_reads (.inr rfl) hr.interfaceField_reads) he
      hf (by decide) h
  case h_8 hf =>
    rw [hf]
    obtain ⟨p, c₁, h₁, h⟩ := bind_ok h
    obtain ⟨rfl, run₁⟩ := take_run he (by rw [hf]; decide) h₁
    have he₁ := run₁.ended he
    obtain ⟨x, c₂, h₂, h⟩ := bind_ok h
    obtain ⟨ws₂, run₂, hx⟩ := hr.type_reads he₁ h₂
    obtain ⟨q, c₃, h₃, h⟩ := bind_ok h
    obtain ⟨l, hl, rfl, run₃⟩ := expect_run (run₂.ended he₁) (by decide) h₃
    obtain ⟨rfl, rfl⟩ := pure_ok h
    exact ⟨_, run₁.cons (run₂.trans run₃),
      .node .parenType (.mark hf (.sub hx (.mark hl .partsNil)))⟩
  case h_9 => exact absurd h unexpected_ok

end Rules.Sound

end Graft
