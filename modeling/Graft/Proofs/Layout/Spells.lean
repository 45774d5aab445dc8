import Graft.Layout.Items
import Graft.Proofs.Grammar.Kinds
import Graft.Proofs.Layout.Between

/-! # Layouts follow the words

The layout of a node also goes through the words it was read from: a token of the layout is the next
word, and between two of them the source has the commas that the separator stands for, and any
number of semicolons.  `Spells page read s since ws is` says so of the items `is` and the words
`ws`, when the words `read` stand before them.  The separator to be printed is `s`, and `since`
counts the commas since the last word that the layout has: there is no count once a word was passed
over that the layout does not have.

A token that the tree does not record comes behind such a word.  So does one that is laid out behind
its place, the dots behind an argument that is not the last.
-/

namespace Graft

/-- Whether a separator can stand for a number of commas. -/
def Separator.suits : Separator → Nat → Bool
  | .comma, n => n == 1
  | .close, n => decide (n ≤ 1)
  | _, n => n == 0

/-- Whether the trees of a sort of phrase are laid out by themselves. -/
def Phrase.isLaid : Phrase → Bool
  | .doc | .signature | .entry | .members _ | .arg | .switchBody
    | .opt _ | .orEmpty _ | .one _ | .ended _
  | .more _ | .trailing _ | .lines _ | .behind _ _ | .fieldNames | .parts _ => false
  | .member s => s.isLaid
  | _ => true

/-- Whether the trees of a sort of phrase are laid out within their parents. -/
def Phrase.isBraced : Phrase → Bool
  | .members .structField | .members .interfaceField | .switchBody => true
  | _ => false

/-! ### Lists -/

/-- The words of trees with commas between. -/
inductive Commas (P : List Word → Tree → Prop) : List Word → List Tree → Prop where
  | nil : Commas P [] []
  | last {ws : List Word} {t : Tree} (h : P ws t) : Commas P ws [t]
  | cons {vs ws : List Word} {l : Lexeme} {t : Tree} {ts : List Tree} (h : P vs t)
      (hl : l.token = .comma)
      (hne : ts ≠ []) (hts : Commas P ws ts) : Commas P (vs ++ .lexeme l :: ws) (t :: ts)

/-- The words of trees with semicolons between. -/
inductive Lines (P : List Word → Tree → Prop) : List Word → List Tree → Prop where
  | nil : Lines P [] []
  | semicolon {l : Lexeme} {ws : List Word} {ts : List Tree} (hl : l.token = .semicolon)
    (h : Lines P ws ts) :
    Lines P (.lexeme l :: ws) ts
  | item {vs ws : List Word} {t : Tree} {ts : List Tree} (h : P vs t) (hts : Lines P ws ts) :
    Lines P (vs ++ ws) (t :: ts)

namespace Commas

variable {P Q : List Word → Tree → Prop} {vs ws : List Word} {t : Tree} {ts : List Tree}

theorem imp (h : Commas P ws ts) (hPQ : ∀ vs t, P vs t → Q vs t) : Commas Q ws ts := by
  induction h with
  | nil => exact .nil
  | last h => exact .last (hPQ _ _ h)
  | cons h hl hne _ ih => exact .cons (hPQ _ _ h) hl hne ih

theorem snoc (h : Commas P ws ts) (hne : ts ≠ []) {l : Lexeme} (hl : l.token = .comma)
    (ht : P vs t) :
    Commas P (ws ++ .lexeme l :: vs) (ts ++ [t]) := by
  induction h with
  | nil => exact absurd rfl hne
  | last h => exact .cons h hl (List.cons_ne_nil _ _) (.last ht)
  | cons h hl' hne' _ ih =>
    rw [List.append_assoc, List.cons_append]
    exact .cons h hl' (by simp) (ih hne')

end Commas

namespace Lines

variable {P Q : List Word → Tree → Prop} {vs ws : List Word} {t : Tree} {ts us : List Tree}

theorem imp (h : Lines P ws ts) (hPQ : ∀ vs t, P vs t → Q vs t) : Lines Q ws ts := by
  induction h with
  | nil => exact .nil
  | semicolon hl _ ih => exact .semicolon hl ih
  | item h _ ih => exact .item (hPQ _ _ h) ih

theorem append (h : Lines P vs ts) (h' : Lines P ws us) : Lines P (vs ++ ws) (ts ++ us) := by
  induction h with
  | nil => exact h'
  | semicolon hl _ ih => exact .semicolon hl ih
  | item h _ ih =>
    rw [List.append_assoc]
    exact .item h ih

end Lines

namespace Derives

variable {d : Dialect} {q s : Phrase} {ws : List Word} {t : Tree}

theorem lines (h : Derives d q ws t) (hq : q = .lines s) :
    ∃ ts, t = .list ts ∧ Lines (Derives d s) ws ts := by
  induction h with
  | linesNil =>
    exact ⟨[], rfl, .nil⟩
  | linesSemicolon _ hl ih =>
    obtain ⟨ts, rfl, hts⟩ := ih hq
    refine ⟨ts, rfl, ?_⟩
    have hall := hts.append (.semicolon hl .nil)
    rwa [List.append_nil] at hall
  | linesItem _ _ ht ih _ =>
    cases hq
    obtain ⟨ts, heq, hts⟩ := ih rfl
    cases heq
    have hall := hts.append (.item ht .nil)
    rw [List.append_nil] at hall
    exact ⟨_, rfl, hall⟩
  | cover hc => subst hq; cases hc
  | node hr => subst hq; cases hr
  | _ => cases hq

/-- Phrases with commas between, and phrases with a comma behind each. -/
theorem commas_or_ended (h : Derives d q ws t) :
    (q = .more s → ∃ ts, t = .list ts ∧ ts ≠ [] ∧ Commas (Derives d s) ws ts) ∧
      (q = .ended s → ∃ ts, t = .list ts ∧ (ts = [] ∧ ws = [] ∨
        ∃ vs l, ws = vs ++ [.lexeme l] ∧ l.token = .comma ∧ ts ≠ [] ∧
        Commas (Derives d s) vs ts)) := by
  induction h with
  | endedNil => exact ⟨by rintro ⟨⟩, fun _ => ⟨[], rfl, .inl ⟨rfl, rfl⟩⟩⟩
  | endedComma _ hl ih =>
    refine ⟨by rintro ⟨⟩, fun hq => ?_⟩
    cases hq
    obtain ⟨ts, rfl, hne, hts⟩ := ih.1 rfl
    exact ⟨ts, rfl, .inr ⟨_, _, rfl, hl, hne, hts⟩⟩
  | more _ _ ht ih =>
    refine ⟨fun hq => ?_, by rintro ⟨⟩⟩
    cases hq
    obtain ⟨ts, heq, hts⟩ := ih.2 rfl
    cases heq
    rcases hts with ⟨rfl, rfl⟩ | ⟨vs, l, rfl, hl, hne, hts⟩
    · exact ⟨_, rfl, List.cons_ne_nil _ _, .last ht⟩
    · rw [List.append_assoc, List.singleton_append]
      exact ⟨_, rfl, by simp, hts.snoc hne hl ht⟩
  | cover hc => exact ⟨(by rintro rfl; cases hc), (by rintro rfl; cases hc)⟩
  | node hr => exact ⟨(by rintro rfl; cases hr), (by rintro rfl; cases hr)⟩
  | _ => exact ⟨by rintro ⟨⟩, by rintro ⟨⟩⟩

theorem commas (h : Derives d (.more s) ws t) :
    ∃ ts, t = .list ts ∧ ts ≠ [] ∧ Commas (Derives d s) ws ts :=
  h.commas_or_ended.1 rfl

/-- Phrases with commas between and perhaps one at the end. -/
theorem trailing (h : Derives d (.trailing s) ws t) : ∃ ts vs us, t = .list ts ∧ ws = vs ++ us ∧
    Commas (Derives d s) vs ts ∧ (us = [] ∨ ∃ l, us = [.lexeme l] ∧ l.token = .comma) := by
  cases h with
  | cover hc h =>
    cases hc with
    | trailingEnded =>
      obtain ⟨ts, rfl, ⟨rfl, rfl⟩ | ⟨vs, l, rfl, hl, -, hts⟩⟩ := h.commas_or_ended.2 rfl
      · exact ⟨[], [], [], rfl, rfl, .nil, .inl rfl⟩
      · exact ⟨ts, vs, [.lexeme l], rfl, rfl, hts, .inr ⟨l, rfl, hl⟩⟩
    | trailingMore =>
      obtain ⟨ts, rfl, -, hts⟩ := h.commas
      exact ⟨ts, ws, [], rfl, (List.append_nil _).symm, hts, .inl rfl⟩
  | node hr => cases hr

/-- The names of fields: the first is a type, the others are identifiers. -/
theorem fieldNames (h : Derives d q ws t) (hq : q = .fieldNames) : ∃ ts, t = .list ts ∧ ts ≠ [] ∧
    Commas (fun vs t => Derives d .type vs t ∨ Derives d .ident vs t) ws ts := by
  induction h with
  | firstName ht => exact ⟨_, rfl, List.cons_ne_nil _ _, .last (.inl ht)⟩
  | nextName _ hl ht ih =>
    obtain ⟨ts, heq, hne, hts⟩ := ih rfl
    cases heq
    exact ⟨_, rfl, by simp, hts.snoc hne hl (.inr ht)⟩
  | cover hc => subst hq; cases hc
  | node hr => subst hq; cases hr
  | _ => cases hq

theorem opt_cases (h : Derives d (.opt s) ws t) : ws = [] ∧ t = .nil ∨ Derives d s ws t := by
  cases h with
  | none => exact .inl ⟨rfl, rfl⟩
  | cover hc h =>
    cases hc
    exact .inr h
  | node hr => cases hr

theorem orEmpty_cases (h : Derives d (.orEmpty s) ws t) :
    ws = [] ∧ t = .list [] ∨ Derives d s ws t := by
  cases h with
  | empty => exact .inl ⟨rfl, rfl⟩
  | cover hc h =>
    cases hc
    exact .inr h
  | node hr => cases hr

theorem behind_cases {tok : Token} (h : Derives d (.behind tok s) ws t) :
    ∃ l vs, ws = .lexeme l :: vs ∧ l.token = tok ∧ Derives d s vs t := by
  cases h with
  | behind hl h => exact ⟨_, _, rfl, hl, h⟩
  | cover hc => cases hc
  | node hr => cases hr

theorem one_cases (h : Derives d (.one s) ws t) : ∃ x, t = .list [x] ∧ Derives d s ws x := by
  cases h with
  | one _ h => exact ⟨_, rfl, h⟩
  | cover hc => cases hc
  | node hr => cases hr

theorem arg_cases (h : Derives d .arg ws t) : ∃ vs us, ws = vs ++ us ∧ Derives d .expr vs t ∧
    (us = [] ∨ ∃ l, us = [.lexeme l] ∧ l.token = .ellipsis) := by
  cases h with
  | spread h hl => exact ⟨_, _, rfl, h, .inr ⟨_, rfl, hl⟩⟩
  | cover hc h =>
    cases hc
    exact ⟨ws, [], (List.append_nil _).symm, h, .inl rfl⟩
  | node hr => cases hr

end Derives

/-! ### The words of some parts -/

/-- What the words and the fields look like that some parts of code stand for. -/
def Part.Spelt : List Part → List Word → List Tree → Prop
  | [], ws, ts => ws = [] ∧ ts = []
  | .word tok :: ps, ws, ts => ∃ l us, ws = .lexeme l :: us ∧ l.token = tok ∧ Part.Spelt ps us ts
  | .lineEnd :: ps, ws, ts => ∃ vs us, ws = vs ++ us ∧
      (vs = [] ∨ ∃ l, vs = [.lexeme l] ∧ l.token = .semicolon) ∧ Part.Spelt ps us ts
  | .mark tok :: ps, ws, ts =>
    ∃ l us xs, ws = .lexeme l :: us ∧ ts = .pos l.pos :: xs ∧ l.token = tok ∧
      Part.Spelt ps us xs
  | .markIn toks :: ps, ws, ts =>
    ∃ l us xs, ws = .lexeme l :: us ∧ ts = .pos l.pos :: .tok l.token :: xs ∧
      l.token ∈ toks ∧ Part.Spelt ps us xs
  | .unmarked :: ps, ws, ts => ∃ xs, ts = .pos .none :: .tok .illegal :: xs ∧ Part.Spelt ps ws xs
  | .sub s :: ps, ws, ts => ∃ vs us t xs, ws = vs ++ us ∧ ts = t :: xs ∧ Derives .code s vs t ∧
      Part.Spelt ps us xs
  | .const t :: ps, ws, ts => ∃ xs, ts = t :: xs ∧ Part.Spelt ps ws xs
  | .args :: ps, ws, ts => ∃ vs us ys p xs, ws = vs ++ us ∧ ts = .list ys :: .pos p :: xs ∧
      Derives .code (.trailing .arg) vs (.list ys) ∧ IsSpread vs ys p ∧ Part.Spelt ps us xs
  | .targets :: ps, ws, ts => ∃ vs us ys xs, ws = vs ++ us ∧
      ts = ys[0]?.getD .nil :: ys[1]?.getD .nil :: xs ∧ Derives .code (.more .expr) vs (.list ys) ∧
      Part.Spelt ps us xs
  | .params :: ps, ws, ts => ∃ vs us es ys xs, ws = vs ++ us ∧ ts = .list ys :: xs ∧
      Derives .code (.trailing .entry) vs (.list (es.map (·.field))) ∧
      Rules.fieldsOfEntries es = .ok ys ∧
      Part.Spelt ps us xs

theorem Derives.spelt {q : Phrase} {ps : List Part} {ws : List Word} {t : Tree}
    (h : Derives .code q ws t) (hq : q = .parts ps) : ∃ ts, t = .list ts ∧ Part.Spelt ps ws ts := by
  generalize hd : Dialect.code = d at h
  induction h generalizing ps with
  | partsNil =>
    cases hq
    exact ⟨[], rfl, rfl, rfl⟩
  | word hl _ ih =>
    cases hq
    obtain ⟨ts, heq, hts⟩ := ih rfl
    cases heq
    exact ⟨_, rfl, _, _, rfl, hl, hts⟩
  | noLineEnd _ ih =>
    cases hq
    obtain ⟨ts, heq, hts⟩ := ih rfl
    cases heq
    exact ⟨_, rfl, [], _, rfl, .inl rfl, hts⟩
  | lineEnd hl _ ih =>
    cases hq
    obtain ⟨ts, heq, hts⟩ := ih rfl
    cases heq
    exact ⟨_, rfl, [_], _, rfl, .inr ⟨_, rfl, hl⟩, hts⟩
  | mark hl _ ih | markIn hl _ ih =>
    cases hq
    obtain ⟨ts, heq, hts⟩ := ih rfl
    cases heq
    exact ⟨_, rfl, _, _, _, rfl, rfl, hl, hts⟩
  | unmarked _ ih | const _ ih =>
    cases hq
    obtain ⟨ts, heq, hts⟩ := ih rfl
    cases heq
    exact ⟨_, rfl, _, rfl, hts⟩
  | sub hs _ _ ih =>
    subst hd
    cases hq
    obtain ⟨ts, heq, hts⟩ := ih rfl
    cases heq
    exact ⟨_, rfl, _, _, _, _, rfl, rfl, hs, hts⟩
  | args hs hspread _ _ ih =>
    subst hd
    cases hq
    obtain ⟨ts, heq, hts⟩ := ih rfl
    cases heq
    exact ⟨_, rfl, _, _, _, _, _, rfl, rfl, hs, hspread, hts⟩
  | targets hs _ _ ih =>
    subst hd
    cases hq
    obtain ⟨ts, heq, hts⟩ := ih rfl
    cases heq
    exact ⟨_, rfl, _, _, _, _, rfl, rfl, hs, hts⟩
  | params hs hfields _ _ ih =>
    subst hd
    cases hq
    obtain ⟨ts, heq, hts⟩ := ih rfl
    cases heq
    exact ⟨_, rfl, _, _, _, _, _, rfl, rfl, hs, hfields, hts⟩
  | cover hc => subst hq; cases hc
  | node hr => subst hq; cases hr
  | _ => cases hq

/-! ### Phrases have tokens -/

theorem Token.text_of_isLiteral {t : Token} (h : t.isLiteral = true) :
    t.carriesText = true ∧ t.isLoose = false := by
  cases t <;> first | exact ⟨rfl, rfl⟩ | cases h

/-- Whether one of some words is a token that does not only separate others. -/
def Word.HasToken (ws : List Word) : Prop := ∃ l, .lexeme l ∈ ws ∧ l.token.isLoose = false

namespace Word.HasToken

variable {vs ws : List Word} {l : Lexeme}

theorem left (h : HasToken vs) : HasToken (vs ++ ws) := by
  obtain ⟨l, hl, hloose⟩ := h
  exact ⟨l, List.mem_append_left _ hl, hloose⟩

theorem right (h : HasToken ws) : HasToken (vs ++ ws) := by
  obtain ⟨l, hl, hloose⟩ := h
  exact ⟨l, List.mem_append_right _ hl, hloose⟩

theorem head (hl : l.token.isLoose = false) :
    HasToken (.lexeme l :: ws) := ⟨l, List.mem_cons_self, hl⟩

theorem tail {w : Word} (h : HasToken ws) : HasToken (w :: ws) := by
  obtain ⟨l, hl, hloose⟩ := h
  exact ⟨l, List.mem_cons_of_mem _ hl, hloose⟩

end Word.HasToken

/-- Whether there is a token in every phrase of a sort. -/
def Phrase.isTokened : Phrase → Bool
  | .one s | .more s => s.isLaid
  | s => s.isLaid

/-- Whether there is always a token among the words of a part. -/
def Part.isTokened : Part → Bool
  | .mark t => !t.isLoose
  | .markIn ts => ts.all fun t => !t.isLoose
  | .sub s => s.isTokened
  | _ => false

theorem Phrase.isTokened_of_isLaid {s : Phrase} (h : s.isLaid = true) : s.isTokened = true := by
  cases s with
  | one | more => cases h
  | _ => exact h

theorem Row.isTokened {s : Phrase} {k : Kind} {ps : List Part} (h : Row s k ps)
    (hs : s.isLaid = true) :
    ps.any Part.isTokened = true := by
  cases h with
  | signature => cases hs
  | group hkw | single hkw =>
    simp only [Token.declarers, List.mem_cons, List.not_mem_nil, or_false] at hkw
    rcases hkw with rfl | rfl | rfl | rfl <;> rfl
  | _ => rfl

theorem Covers.isLaid {s s' : Phrase} (h : Covers s s') (hs : s.isTokened = true) :
    s'.isLaid = true := by
  cases h <;> first | rfl | exact hs | cases hs

namespace Derives

variable {d : Dialect} {s : Phrase} {ws : List Word} {t : Tree}

theorem firm (h : Derives d s ws t) :
    (s.isTokened = true → Word.HasToken ws) ∧
      ∀ {ps}, s = .parts ps → ps.any Part.isTokened = true → Word.HasToken ws := by
  induction h with
  | ident hl | dots _ hl | period hl => exact ⟨fun _ => .head (by rw [hl]; rfl), by rintro ps ⟨⟩⟩
  | literal hl => exact ⟨fun _ => .head (Token.text_of_isLiteral hl).2, by rintro ps ⟨⟩⟩
  | cover hc _ ih =>
    exact ⟨fun hs => ih.1 (Phrase.isTokened_of_isLaid (hc.isLaid hs)), by rintro ps rfl; cases hc⟩
  | node hr _ ih =>
    refine ⟨fun hs => ih.2 rfl (hr.isTokened ?_), by rintro ps rfl; cases hr⟩
    cases hr <;> exact hs
  | one _ _ ih => exact ⟨fun hs => ih.1 (Phrase.isTokened_of_isLaid hs), by rintro ps ⟨⟩⟩
  | more _ _ _ _ ih =>
    exact ⟨fun hs => .right (ih.1 (Phrase.isTokened_of_isLaid hs)), by rintro ps ⟨⟩⟩
  | word _ _ ih | lineEnd _ _ ih =>
    refine ⟨by rintro ⟨⟩, fun hps hany => .tail (ih.2 rfl ?_)⟩
    cases hps
    exact hany
  | noLineEnd _ ih | unmarked _ ih | const _ ih =>
    refine ⟨by rintro ⟨⟩, fun hps hany => ih.2 rfl ?_⟩
    cases hps
    exact hany
  | mark hl _ ih =>
    refine ⟨by rintro ⟨⟩, fun hps hany => ?_⟩
    cases hps
    rcases (Bool.or_eq_true _ _).mp hany with htok | hany
    · exact .head (by rw [hl]; simpa [Part.isTokened] using htok)
    · exact .tail (ih.2 rfl hany)
  | markIn hl _ ih =>
    refine ⟨by rintro ⟨⟩, fun hps hany => ?_⟩
    cases hps
    rcases (Bool.or_eq_true _ _).mp hany with htok | hany
    · exact .head (by simpa using List.all_eq_true.mp htok _ hl)
    · exact .tail (ih.2 rfl hany)
  | sub _ _ ih₁ ih₂ =>
    refine ⟨by rintro ⟨⟩, fun hps hany => ?_⟩
    cases hps
    rcases (Bool.or_eq_true _ _).mp hany with hs | hany
    · exact .left (ih₁.1 hs)
    · exact .right (ih₂.2 rfl hany)
  | args _ _ _ _ ih | targets _ _ _ ih | params _ _ _ _ ih =>
    refine ⟨by rintro ⟨⟩, fun hps hany => .right (ih.2 rfl ?_)⟩
    cases hps
    exact hany
  | partsNil => exact ⟨by rintro ⟨⟩, by rintro ps ⟨⟩ ⟨⟩⟩
  | _ => exact ⟨by rintro ⟨⟩, by rintro ps ⟨⟩⟩

/-- **There is a token in every phrase that is laid out.** -/
theorem hasToken (h : Derives d s ws t) (hs : s.isTokened = true) : Word.HasToken ws := h.firm.1 hs

end Derives

theorem Commas.hasToken {d : Dialect} {s : Phrase} {ws : List Word} {ts : List Tree}
    (h : Commas (Derives d s) ws ts) (hs : s.isTokened = true) (hne : ts ≠ []) :
    Word.HasToken ws := by
  cases h with
  | nil => exact absurd rfl hne
  | last h => exact h.hasToken hs
  | cons h => exact .left (h.hasToken hs)

/-! ### Items and words -/

/-- Whether words spell a tree that is printed by itself. -/
inductive Spelling (page : Page) : List Word → Tree → Prop where
  | phrase {s : Phrase} {ws : List Word} {t : Tree} (hs : s.isLaid = true)
    (h : Derives .code s ws t) :
    Spelling page ws t
  /-- A parameter, whose names may be those of several entries. -/
  | param {vs ws : List Word} {names : List Tree} {type : Tree}
      (hnames : Commas (Derives .code .paramType) vs names)
      (htype : Derives .code .paramType ws type) :
    Spelling page (vs ++ ws) (Rules.plainField names type)
  /-- A node in braces that is copied. -/
  | copied {s : Phrase} {ws : List Word} {k : Kind} {ts : List Tree} (hs : s.isBraced = true)
      (h : Derives .code s ws (.node k ts)) (hcopy : (page.copy? ⟨k, ts⟩).isSome = true) :
    Spelling page ws (.node k ts)

/-- Whether the items of a layout go through words in order. -/
inductive Spells (page : Page) :
    List Word → Separator → Option Nat → List Word → List Item → Prop where
  | nil {read : List Word} : Spells page read .nothing (some 0) [] []
  | gap {read ws : List Word} {s s' : Separator} {since : Option Nat} {is : List Item}
      (h : Spells page read s' since ws is) : Spells page read s since ws (.gap s' :: is)
  | shift {read ws : List Word} {s : Separator} {since : Option Nat} {i : Item} {is : List Item}
      (hi : i = .deeper ∨ i = .shallower) (h : Spells page read s since ws is) :
    Spells page read s since ws (i :: is)
  | absent {read ws : List Word} {s : Separator} {since : Option Nat} {is : List Item}
      (h : Spells page read s since ws is) : Spells page read s since ws (.tree .nil :: is)
  | semicolon {read ws : List Word} {s : Separator} {since : Option Nat} {l : Lexeme}
      {is : List Item}
      (hl : l.token = .semicolon) (h : Spells page (read ++ [.lexeme l]) s since ws is) :
    Spells page read s since (.lexeme l :: ws) is
  | comma {read ws : List Word} {s : Separator} {since : Option Nat} {l : Lexeme} {is : List Item}
      (hl : l.token = .comma) (h : Spells page (read ++ [.lexeme l]) s (since.map (· + 1)) ws is) :
    Spells page read s since (.lexeme l :: ws) is
  /-- Words that the layout does not have. -/
  | unread {read vs ws : List Word} {s : Separator} {since : Option Nat} {is : List Item}
      (hvs : Word.HasToken vs) (h : Spells page (read ++ vs) s none ws is) :
    Spells page read s since (vs ++ ws) is
  /-- A token that the tree does not record. -/
  | bare {read ws : List Word} {s : Separator} {text : String} {is : List Item}
      (h : Spells page read .nothing none ws is) : Spells page read s none ws (.bare text :: is)
  | token {read ws : List Word} {s : Separator} {since : Option Nat} {l : Lexeme} {is : List Item}
      (hs : since.all s.suits = true) (hl : l.token.isLoose = false)
      (h : Spells page (read ++ [.lexeme l]) .nothing (some 0) ws is) :
    Spells page read s since (.lexeme l :: ws) (.token l.pos l.spelling :: is)
  /-- The comment above a node. -/
  | doc {read ws : List Word} {s : Separator} {since : Option Nat} {g : CommentGroup}
      {is : List Item}
      (hs : since.all s.suits = true) (hws : Word.HasToken ws)
      (h : Spells page (read ++ [.doc g]) .nothing (some 0) ws is) :
    Spells page read s since (.doc g :: ws) (.tree g.tree :: is)
  | tree {read vs ws : List Word} {s : Separator} {since : Option Nat} {t : Tree} {is : List Item}
      (hs : since.all s.suits = true) (ht : Spelling page vs t)
      (h : Spells page (read ++ vs) .nothing (some 0) ws is) :
    Spells page read s since (vs ++ ws) (.tree t :: is)
  /-- A token that is laid out behind its place. -/
  | stray {read vs ws : List Word} {s : Separator} {since : Option Nat} {t : Tree} {l : Lexeme}
      {is : List Item}
      (hs : since.all s.suits = true) (ht : Spelling page vs t) (hl : l.token.isLoose = false)
      (hread : .lexeme l ∈ read ++ vs) (hpos : l.pos ∉ t.positions)
      (h : Spells page (read ++ vs) .nothing none ws is) :
    Spells page read s since (vs ++ ws) (.tree t :: .token l.pos l.spelling :: is)

namespace Spells

variable {page : Page} {read vs ws : List Word} {s : Separator} {since : Option Nat}
  {l : Lexeme} {t : Tree}
  {ts : List Tree} {is js : List Item}

/-- A token that the tree records. -/
theorem mark {tok : Token} (hl : l.token = tok) (htok : (tok.carriesText || tok.isLoose) = false)
    (hs : since.all s.suits = true)
    (h : Spells page (read ++ [.lexeme l]) .nothing (some 0) ws is) :
    Spells page read s since (.lexeme l :: ws) (.token l.pos tok.text :: is) := by
  rw [Bool.or_eq_false_iff] at htok
  rw [← hl, ← Lexeme.spelling_of_not_carriesText (by rw [hl]; exact htok.1)]
  exact .token hs (by rw [hl]; exact htok.2) h

/-- One of some tokens. -/
theorem markIn {toks : List Token} (hl : l.token ∈ toks)
    (htoks : toks.all (fun tok => !(tok.carriesText || tok.isLoose)) = true)
    (hs : since.all s.suits = true)
    (h : Spells page (read ++ [.lexeme l]) .nothing (some 0) ws is) :
    Spells page read s since (.lexeme l :: ws) (.token l.pos l.token.text :: is) :=
  .mark rfl (by simpa using List.all_eq_true.mp htoks _ hl) hs h

/-- A token that the tree does not record. -/
theorem word {tok : Token} (hl : l.token = tok) (htok : tok.isLoose = false) {text : String}
    (h : Spells page (read ++ [.lexeme l]) .nothing none ws is) :
    Spells page read s since (.lexeme l :: ws) (.bare text :: is) := by
  have hvs : Word.HasToken [.lexeme l] := .head (by rw [hl]; exact htok)
  exact .unread hvs (.bare h)

theorem phrase {q : Phrase} (h : Derives .code q vs t) (hq : q.isLaid = true)
    (hs : since.all s.suits = true) (hrest : Spells page (read ++ vs) .nothing (some 0) ws is) :
    Spells page read s since (vs ++ ws) (.tree t :: is) := .tree hs (.phrase hq h) hrest

/-- A tree at the end. -/
theorem last (hs : since.all s.suits = true) (ht : Spelling page ws t) :
    Spells page read s since ws [.tree t] := by
  have h : Spells page read s since (ws ++ []) [.tree t] := .tree hs ht .nil
  rwa [List.append_nil] at h

/-- A tree that may be missing, where nothing was passed over before. -/
theorem clause {q : Phrase} (h : Derives .code (.opt q) vs t) (hq : q.isLaid = true)
    (hs : s.suits 0 = true)
    (hrest : ∀ read s, s.suits 0 = true → Spells page read s (some 0) ws is) :
    Spells page read s (some 0) (vs ++ ws) (.tree t :: is) := by
  rcases h.opt_cases with ⟨rfl, rfl⟩ | h
  · exact .absent (hrest _ _ hs)
  · exact .phrase h hq hs (hrest _ _ rfl)

/-- A line end, or nothing. -/
theorem lineEnd (h : vs = [] ∨ ∃ l, vs = [.lexeme l] ∧ l.token = .semicolon)
    (hrest : ∀ read, Spells page read s since ws is) : Spells page read s since (vs ++ ws) is := by
  rcases h with rfl | ⟨l, rfl, hl⟩
  · exact hrest _
  · exact .semicolon hl (hrest _)

/-- A tree that may be missing. -/
theorem opt {q : Phrase} (h : Derives .code (.opt q) vs t) (hq : q.isLaid = true)
    (hs : since.all s.suits = true)
    (hrest : ∀ read s since, since.all s.suits = true → Spells page read s since ws is) :
    Spells page read s since (vs ++ ws) (.tree t :: is) := by
  rcases h.opt_cases with ⟨rfl, rfl⟩ | h
  · exact .absent (hrest _ _ _ hs)
  · exact .phrase h hq hs (hrest _ _ _ rfl)

end Spells

theorem Phrase.isNode_of_isLaid {q : Phrase} (h : q.isLaid = true) : q.isNode = true := by
  induction q using Phrase.rec (motive_2 := fun _ => True) (motive_3 := fun _ => True)
  all_goals first | rfl | trivial | cases h | skip
  case member s ih => exact ih h

theorem Derives.isNil_of_isLaid {q : Phrase} {ws : List Word} {t : Tree} (h : Derives .code q ws t)
    (hq : q.isLaid = true) : t.isNil = false := by
  obtain ⟨k, fs, rfl, -⟩ := h.exists_kind (Phrase.isNode_of_isLaid hq)
  rfl

namespace Spells

variable {page : Page} {read us vs ws : List Word} {s sep : Separator} {since : Option Nat}
  {l : Lexeme} {t : Tree}
  {ts : List Tree} {is js : List Item}

/-- Items for a tree that may be missing. -/
theorem ifPresent {q : Phrase} (h : Derives .code (.opt q) vs t) (hq : q.isLaid = true)
    (hnil : Spells page read s since ws is)
    (hsome : Derives .code q vs t → Spells page read s since (vs ++ ws) (js ++ is)) :
    Spells page read s since (vs ++ ws) (Item.ifPresent t js ++ is) := by
  rcases h.opt_cases with ⟨rfl, rfl⟩ | h
  · exact hnil
  · rw [Item.ifPresent, h.isNil_of_isLaid hq]
    exact hsome h

theorem separated_cons (hne : ts ≠ []) :
    Item.separated sep (t :: ts) = .tree t :: .gap sep :: Item.separated sep ts := by
  cases ts with
  | nil => exact absurd rfl hne
  | cons u ts => rfl

/-- Trees with commas between. -/
theorem commas (h : Commas (Spelling page) ws ts) (hne : ts ≠ []) (hs : since.all s.suits = true)
    (hrest : ∀ read, Spells page read .nothing (some 0) us is) :
    Spells page read s since (ws ++ us) (Item.separated .comma ts ++ is) := by
  induction h generalizing read s since with
  | nil => exact absurd rfl hne
  | last ht => exact .tree hs ht (hrest _)
  | cons ht hl htail _ ih =>
    rw [separated_cons htail, List.append_assoc]
    exact .tree hs ht (.comma hl (.gap (ih htail rfl)))

theorem lastCommas (h : Commas (Spelling page) ws ts) (hne : ts ≠ [])
    (hs : since.all s.suits = true) :
    Spells page read s since ws (Item.separated .comma ts) := by
  rw [← List.append_nil ws, ← List.append_nil (Item.separated _ _)]
  exact .commas h hne hs fun _ => .nil

/-- Trees with commas between and perhaps one at the end. -/
theorem trailing (h : Commas (Spelling page) ws ts)
    (hvs : vs = [] ∨ ∃ l, vs = [.lexeme l] ∧ l.token = .comma)
    (hrest : ∀ read n, n ≤ 1 → Spells page read .close (some n) us is) :
    Spells page read .nothing (some 0) (ws ++ (vs ++ us))
    (Item.separated .comma ts ++ .gap .close :: is) := by
  have hend (read : List Word) : Spells page read .nothing (some 0) (vs ++ us)
      (.gap .close :: is) := by
    rcases hvs with rfl | ⟨l, rfl, hl⟩
    · exact .gap (hrest _ 0 (Nat.zero_le 1))
    · exact .comma hl (.gap (hrest _ 1 (Nat.le_refl 1)))
  by_cases hne : ts = []
  · subst hne
    cases h with
    | nil => exact hend _
  · exact .commas h hne rfl hend

/-- Trees on lines of their own. -/
theorem preceded (h : Lines (Spelling page) ws ts) (hsep : sep.suits 0 = true)
    (hrest : ∀ read s', s' = .nothing ∨ s' = s → Spells page read s' (some 0) us is) :
    Spells page read s (some 0) (ws ++ us) (Item.preceded sep ts ++ is) := by
  induction h generalizing read s with
  | nil => exact hrest _ _ (.inr rfl)
  | semicolon hl _ ih => exact .semicolon hl (ih hrest)
  | item ht _ ih =>
    rw [List.append_assoc]
    exact .gap (.tree hsep ht (ih fun read s' hs' => hrest read s' (.inl (hs'.elim id id))))

/-- No trees, with semicolons at most. -/
theorem noLines (h : Lines (Spelling page) ws []) (hrest : ∀ read, Spells page read s since us is) :
    Spells page read s since (ws ++ us) is := by
  generalize hts : [] = ts at h
  induction h generalizing read with
  | nil => exact hrest _
  | semicolon hl _ ih => exact .semicolon hl (ih hts)
  | item => cases hts

/-- Trees on one line. -/
theorem separated (h : Lines (Spelling page) ws ts) (hsep : sep.suits 0 = true)
    (hs : s.suits 0 = true)
    (hrest : ∀ read s, s.suits 0 = true → Spells page read s (some 0) us is) :
    Spells page read s (some 0) (ws ++ us) (Item.separated sep ts ++ is) := by
  induction h generalizing read s with
  | nil => exact hrest _ _ hs
  | semicolon hl _ ih => exact .semicolon hl (ih hs)
  | @item _ _ t ts ht _ ih =>
    rw [List.append_assoc]
    by_cases hne : ts = []
    · subst hne
      exact .tree hs ht (ih rfl)
    · rw [separated_cons hne]
      exact .tree hs ht (.gap (ih hsep))

end Spells

end Graft
