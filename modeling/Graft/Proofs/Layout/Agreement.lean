import Graft.Layout.Printer
import Graft.Proofs.Grammar.Extent

/-! # What was read agrees with the source

A node is copied from the source only if the source still says what the tree says: every position
field of every node must find its token where it says (`Page.agrees`).  Here it is shown that the
trees the grammar derives do, when the words they are spelled by stand in the source
(`Derives.agrees`).
-/

namespace Graft

/-- Whether a value is a position. -/
def Tree.isPos : Tree → Bool
  | .pos _ => true
  | _ => false

namespace Page

variable {page : Page}

theorem agreesFields_cons {all ts : List Tree} {f : Field} {fs : List Field} {t : Tree}
    (ht : t.isPos = false) :
    page.agreesFields all (f :: fs) (t :: ts) = (page.agrees t && page.agreesFields all fs ts) := by
  rw [agreesFields]
  rintro w p - rfl
  cases ht

theorem agreesFields_pos {all ts : List Tree} {f : Field} {fs : List Field} {w : Width} {p : Pos}
    (hf : f.slot = .pos w) :
    page.agreesFields all (f :: fs) (.pos p :: ts) =
      (page.tokenAgrees all w p && page.agreesFields all fs ts) := by
  obtain ⟨l, slot⟩ := f
  subst hf
  rw [agreesFields]
  rfl

theorem agreesItems_append (ts us : List Tree) :
    page.agreesItems (ts ++ us) = (page.agreesItems ts && page.agreesItems us) := by
  induction ts with
  | nil => simp [agreesItems]
  | cons t ts ih => simp [agreesItems, ih, Bool.and_assoc]

theorem agreesItems_iff {ts : List Tree} :
    page.agreesItems ts = true ↔ ∀ t ∈ ts, t.node?.isSome = true ∧ page.agrees t = true := by
  induction ts with
  | nil => simp [agreesItems]
  | cons t ts ih => simp [agreesItems, ih, and_assoc]

theorem agrees_field (names : List Tree) (type : Tree) :
    page.agrees (Rules.plainField names type) = (page.agreesItems names && page.agrees type) := by
  simp only [Rules.plainField, agrees, Kind.fields, agreesFields, Kind.docField, Bool.true_and,
    Bool.and_true]

/-! ### Tokens -/

theorem isValid_of_hasText {p : Pos} {s : String} (h : page.hasText p s = true) :
    p.isValid = true := by
  unfold hasText at h
  split at h
  · exact (Bool.and_eq_true _ _ ▸ h).1
  · cases h

theorem hasBracket_of_hasText {p : Pos} {t : Token} (h : page.hasText p t.text = true)
    (ht : t ∈ [Token.lparen, .rparen, .lbrace, .rbrace]) : page.hasBracket p = true := by
  have hall : ∀ t ∈ [Token.lparen, .rparen, .lbrace, .rbrace],
      t.text.utf8ByteSize = 1 ∧ t.text.toList ∈ ['(', ')', '\x7b', '\x7d'].map ([·]) := by decide
  obtain ⟨hsize, hmem⟩ := hall t ht
  obtain ⟨c, hc, htext⟩ := List.mem_map.mp hmem
  unfold hasText at h
  unfold hasBracket
  split at h
  · rw [hsize, ← htext] at h
    simp only [Bool.and_eq_true, beq_iff_eq] at h
    rw [h.2]
    simpa [or_assoc] using hc
  · cases h

/-- A field that records a token agrees where the token stands. -/
theorem tokenAgrees_of_hasText {fields : List Tree} {w : Width} {p : Pos} {t : Token}
    (hw : (Slot.pos w).records t = true) (h : page.hasText p t.text = true) :
    page.tokenAgrees fields w p = true := by
  unfold tokenAgrees
  rw [if_pos (isValid_of_hasText h)]
  cases w with
  | token s | optional s =>
    simp only [Slot.records, Bool.and_eq_true, beq_iff_eq] at hw
    simpa only [Tree.tokenText, hw.1] using h
  | bracket => exact hasBracket_of_hasText h (by simpa [Slot.records] using hw)
  | ofField i => cases hw

/-- A field that records the token in the next field agrees where that token stands. -/
theorem tokenAgrees_ofField {fields : List Tree} {i : Nat} {p : Pos} {t : Token}
    (hi : fields[i]? = some (.tok t)) (ht : t ≠ .illegal) (h : page.hasText p t.text = true) :
    page.tokenAgrees fields (.ofField i) p = true := by
  unfold tokenAgrees
  rw [if_pos (isValid_of_hasText h)]
  have htext : Tree.tokenText fields (.ofField i) = some t.text := by
    rw [Tree.tokenText, hi]
    cases t <;> first | rfl | exact absurd rfl ht
  rw [htext]
  exact h

theorem tokenAgrees_str {fields : List Tree} {i : Nat} {p : Pos} {s : String}
    (hi : fields[i]? = some (.str s)) (h : page.hasText p s = true) :
    page.tokenAgrees fields (.ofField i) p = true := by
  unfold tokenAgrees
  rw [if_pos (isValid_of_hasText h), Tree.tokenText, hi]
  exact h

theorem tokenAgrees_unmarked {fields : List Tree} {i : Nat}
    (hi : fields[i]? = some (.tok .illegal)) :
    page.tokenAgrees fields (.ofField i) .none = true := by
  rw [tokenAgrees, if_neg (by decide), Tree.tokenText, hi]
  rfl

/-- A field that needs no words agrees without them. -/
theorem agreesFields_const {all ts : List Tree} {f : Field} {fs : List Field} {t : Tree}
    (ht : f.slot.allows t = true) :
    page.agreesFields all (f :: fs) (t :: ts) = page.agreesFields all fs ts := by
  unfold Slot.allows at ht
  split at ht
  · rename_i w p hf
    obtain rfl : p = .none := by simpa using ht
    rw [agreesFields_pos hf]
    rfl
  · rename_i p hf
    obtain rfl : p = .none := by simpa using ht
    rw [agreesFields_pos hf]
    rfl
  · rw [agreesFields_cons rfl]
    rfl
  · rw [agreesFields_cons rfl]
    rfl
  · cases ht

/-! ### Leaves -/

theorem agrees_ident {p : Pos} {name : String} (h : page.hasText p name = true) :
    page.agrees (.ident p name) = true := by
  rw [Tree.ident, agrees, Kind.fields, agreesFields_pos rfl, tokenAgrees_str rfl h]
  rfl

theorem agrees_basicLit {p : Pos} {kind : Token} {value : String}
    (h : page.hasText p value = true) :
    page.agrees (.node .basicLit [.pos p, .tok kind, .str value]) = true := by
  rw [agrees, Kind.fields, agreesFields_pos rfl, tokenAgrees_str rfl h]
  rfl

theorem agrees_dots {p : Pos} (h : page.hasText p Token.ellipsis.text = true) :
    page.agrees (.dots p) = true := by
  rw [Tree.dots, agrees, Kind.fields, agreesFields_pos rfl,
    tokenAgrees_of_hasText (t := .ellipsis) rfl h]
  rfl

/-- The fields of a parameter list agree if its entries do. -/
theorem agreesItems_fieldsOfEntries {fs : List Tree} {es : List Rules.ParamEntry}
    (h : Rules.fieldsOfEntries es = .ok fs) (hes : ∀ e ∈ es, page.agrees e.field = true) :
    page.agreesItems fs = true := by
  have hident (t : Tree) (ht : page.agrees t = true) (hkind : t.isKind .ident = true) :
      t.node?.isSome = true ∧ page.agrees t = true := by
    cases t with
    | node => exact ⟨rfl, ht⟩
    | _ => cases hkind
  rw [agreesItems_iff]
  intro t ht
  obtain ⟨names, type, rfl, hnames, htype⟩ := Rules.forall_fieldsOfEntries hident h (fun e he => by
    have hagrees := hes e he
    rw [Rules.ParamEntry.field, agrees_field, Bool.and_eq_true, agreesItems_iff] at hagrees
    exact hagrees) t ht
  refine ⟨rfl, ?_⟩
  rw [agrees_field, agreesItems_iff.mpr hnames, htype]
  rfl

end Page

/-- Whether a word stands in the source of a page.  Semicolons need not: a line end may stand for
one. -/
def Word.Stands (page : Page) : Word → Prop
  | .lexeme l => l.token = .semicolon ∨ page.hasText l.pos l.spelling = true
  | .doc g => g.tree.isPos = false ∧ page.agrees g.tree = true

theorem Word.Stands.hasSpelling {page : Page} {l : Lexeme} (h : (Word.lexeme l).Stands page)
    (hl : l.token ≠ .semicolon) : page.hasText l.pos l.spelling = true := h.resolve_left hl

theorem Word.Stands.hasText {page : Page} {l : Lexeme} (h : (Word.lexeme l).Stands page)
    (hl : l.token.carriesText = false) : page.hasText l.pos l.token.text = true := by
  rcases h with h | h
  · rw [h] at hl
    cases hl
  · rwa [Lexeme.spelling_of_not_carriesText hl] at h

namespace Derives

variable {page : Page} {d : Dialect} {s : Phrase} {ws : List Word} {t : Tree}

/-- What an induction over derivations shows of a tree: it agrees with the source, and so do the
fields of a node behind any others. -/
def Agreeing (page : Page) (s : Phrase) (t : Tree) : Prop :=
  (s.isProper = true →
    page.agrees t = true ∧ t.isPos = false ∧ (s.isNode = true → t.node?.isSome = true)) ∧
  ∀ {ps ts i fs u}, s = .parts ps → t = .list ts → u.length = i →
    Part.fits i ps fs = true → page.agreesFields (u ++ ts) fs ts = true

theorem Agreeing.of_tree (hs : ∀ ps, s ≠ .parts ps)
    (h : s.isProper = true →
      page.agrees t = true ∧ t.isPos = false ∧ (s.isNode = true → t.node?.isSome = true)) :
    Agreeing page s t :=
  ⟨h, fun hp => absurd hp (hs _)⟩

theorem Agreeing.of_parts {ps : List Part} {ts : List Tree}
    (h : ∀ {fs front}, Part.fits front.length ps fs = true →
      page.agreesFields (front ++ ts) fs ts = true) : Agreeing page (.parts ps) (.list ts) := by
  refine ⟨nofun, ?_⟩
  rintro ps ts i fs front ⟨⟩ ⟨⟩ rfl hfits
  exact h hfits

/-- The fields behind a stretch of fields agree behind it. -/
theorem Agreeing.rest {ps : List Part} {ts : List Tree} (h : Agreeing page (.parts ps) (.list ts))
    {front : List Tree} (us : List Tree) {fs : List Field}
    (hfits : Part.fits (front.length + us.length) ps fs = true) :
    page.agreesFields (front ++ (us ++ ts)) fs ts = true := by
  rw [← List.append_assoc]
  exact h.2 rfl rfl (List.length_append ..) hfits

theorem Agreeing.items {ts : List Tree} (h : Agreeing page s (.list ts)) (hs : s.isProper = true) :
    page.agreesItems ts = true := (h.1 hs).1

/-- A phrase of the same tree, of a sort whose trees need not be nodes. -/
theorem Agreeing.loosen {s' : Phrase} (h : Agreeing page s' t) (hs : ∀ ps, s ≠ .parts ps)
    (hproper : s.isProper = true → s'.isProper = true)
    (hnode : s.isNode = true → s'.isNode = true) :
    Agreeing page s t := by
  refine .of_tree hs fun hs => ?_
  obtain ⟨hagrees, hpos, hs'⟩ := h.1 (hproper hs)
  exact ⟨hagrees, hpos, fun hn => hs' (hnode hn)⟩

/-- One more item of a list is a node that agrees. -/
theorem Agreeing.snoc {s' s'' : Phrase} {ts : List Tree} (h : Agreeing page s' (.list ts))
    (ht : Agreeing page s'' t) (hn : s''.isNode = true) (hs : ∀ ps, s ≠ .parts ps)
    (hlist : s.isNode = false)
    (hproper : s.isProper = true → s'.isProper = true ∧ s''.isProper = true) :
    Agreeing page s (.list (ts ++ [t])) := by
  refine .of_tree hs fun hs => ⟨?_, rfl, fun hn => by rw [hlist] at hn; cases hn⟩
  obtain ⟨hagrees, -, hnode⟩ := ht.1 (hproper hs).2
  rw [Page.agrees, Page.agreesItems_append, h.items (hproper hs).1, Page.agreesItems,
    hnode hn, hagrees]
  rfl

namespace Agreeing

variable {ps : List Part} {ts : List Tree}

/-! Each part adds the fields that its words stand for. -/

theorem mark {tok : Token} {p : Pos} (h : Agreeing page (.parts ps) (.list ts))
    (htext : tok.carriesText = false → page.hasText p tok.text = true) :
    Agreeing page (.parts (.mark tok :: ps)) (.list (.pos p :: ts)) := by
  refine .of_parts fun {fs front} hfits => ?_
  cases fs with
  | nil => cases hfits
  | cons f fs =>
    simp only [Part.fits, Bool.and_eq_true] at hfits
    obtain ⟨w, hw, hcarries⟩ := Slot.exists_of_records hfits.1
    rw [Page.agreesFields_pos hw, Page.tokenAgrees_of_hasText (hw ▸ hfits.1) (htext hcarries)]
    exact h.rest [_] hfits.2

theorem markIn {toks : List Token} {tok : Token} {p : Pos}
    (h : Agreeing page (.parts ps) (.list ts)) (htok : tok ∈ toks)
    (htext : tok.carriesText = false → page.hasText p tok.text = true) :
    Agreeing page (.parts (.markIn toks :: ps)) (.list (.pos p :: .tok tok :: ts)) := by
  refine .of_parts fun {fs front} hfits => ?_
  match fs, hfits with
  | f :: g :: fs, hfits =>
    simp only [Part.fits, Bool.and_eq_true, beq_iff_eq, List.all_eq_true] at hfits
    obtain ⟨⟨hf, hfixed⟩, hfits⟩ := hfits
    obtain ⟨hcarries, hillegal⟩ := Token.isFixed_iff.mp (hfixed _ htok)
    rw [Page.agreesFields_pos hf, Page.tokenAgrees_ofField (by simp) hillegal (htext hcarries),
      Page.agreesFields_cons rfl]
    exact h.rest [_, _] hfits

theorem unmarked (h : Agreeing page (.parts ps) (.list ts)) :
    Agreeing page (.parts (.unmarked :: ps)) (.list (.pos .none :: .tok .illegal :: ts)) := by
  refine .of_parts fun {fs front} hfits => ?_
  match fs, hfits with
  | f :: g :: fs, hfits =>
    simp only [Part.fits, Bool.and_eq_true, beq_iff_eq] at hfits
    rw [Page.agreesFields_pos hfits.1, Page.tokenAgrees_unmarked (by simp),
      Page.agreesFields_cons rfl]
    exact h.rest [_, _] hfits.2

theorem sub (ht : Agreeing page s t) (h : Agreeing page (.parts ps) (.list ts)) :
    Agreeing page (.parts (.sub s :: ps)) (.list (t :: ts)) := by
  refine .of_parts fun {fs front} hfits => ?_
  cases fs with
  | nil => cases hfits
  | cons f fs =>
    simp only [Part.fits, Bool.and_eq_true] at hfits
    obtain ⟨hagrees, hpos, -⟩ := ht.1 hfits.1
    rw [Page.agreesFields_cons hpos, hagrees]
    exact h.rest [_] hfits.2

theorem const (h : Agreeing page (.parts ps) (.list ts)) :
    Agreeing page (.parts (.const t :: ps)) (.list (t :: ts)) := by
  refine .of_parts fun {fs front} hfits => ?_
  cases fs with
  | nil => cases hfits
  | cons f fs =>
    simp only [Part.fits, Bool.and_eq_true] at hfits
    rw [Page.agreesFields_const hfits.1]
    exact h.rest [_] hfits.2

theorem args {xs : List Tree} {p : Pos} (hxs : Agreeing page (.trailing .arg) (.list xs))
    (hp : p = .none ∨ page.hasText p Token.ellipsis.text = true)
    (h : Agreeing page (.parts ps) (.list ts)) :
    Agreeing page (.parts (.args :: ps)) (.list (.list xs :: .pos p :: ts)) := by
  have htoken (all : List Tree) : page.tokenAgrees all (.optional "...") p = true := by
    rcases hp with rfl | htext
    · rfl
    · exact Page.tokenAgrees_of_hasText (t := .ellipsis) rfl htext
  refine .of_parts fun {fs front} hfits => ?_
  match fs, hfits with
  | f :: g :: fs, hfits =>
    simp only [Part.fits, Bool.and_eq_true, beq_iff_eq] at hfits
    rw [Page.agreesFields_cons rfl, Page.agreesFields_pos hfits.1, htoken, (hxs.1 rfl).1]
    exact h.rest [_, _] hfits.2

theorem targets {xs : List Tree} (hxs : Agreeing page (.more .expr) (.list xs))
    (h : Agreeing page (.parts ps) (.list ts)) :
    Agreeing page (.parts (.targets :: ps))
      (.list (xs[0]?.getD .nil :: xs[1]?.getD .nil :: ts)) := by
  have htarget (i : Nat) :
      page.agrees (xs[i]?.getD .nil) = true ∧ (xs[i]?.getD .nil).isPos = false := by
    cases hx : xs[i]? with
    | none => exact ⟨rfl, rfl⟩
    | some x =>
      obtain ⟨hnode, hagrees⟩ := Page.agreesItems_iff.mp (hxs.items rfl) x (List.mem_of_getElem? hx)
      exact ⟨hagrees, by cases x <;> first | rfl | cases hnode⟩
  refine .of_parts fun {fs front} hfits => ?_
  match fs, hfits with
  | f :: g :: fs, hfits =>
    simp only [Part.fits] at hfits
    rw [Page.agreesFields_cons (htarget 0).2, Page.agreesFields_cons (htarget 1).2, (htarget 0).1,
      (htarget 1).1]
    exact h.rest [_, _] hfits

theorem params {es : List Rules.ParamEntry} {xs : List Tree}
    (hes : Agreeing page (.trailing .entry) (.list (es.map (·.field))))
    (hxs : Rules.fieldsOfEntries es = .ok xs) (h : Agreeing page (.parts ps) (.list ts)) :
    Agreeing page (.parts (.params :: ps)) (.list (.list xs :: ts)) := by
  have hfields := Page.agreesItems_fieldsOfEntries hxs fun e he =>
    (Page.agreesItems_iff.mp (hes.items rfl) _ (List.mem_map_of_mem he)).2
  refine .of_parts fun {fs front} hfits => ?_
  cases fs with
  | nil => cases hfits
  | cons f fs =>
    simp only [Part.fits] at hfits
    rw [Page.agreesFields_cons rfl, Page.agrees, hfields]
    exact h.rest [_] hfits

end Agreeing

theorem agreeing (h : Derives d s ws t) (hws : ∀ w ∈ ws, w.Stands page) : Agreeing page s t := by
  induction h with
  | @ident l hl =>
    have htext := (hws _ List.mem_cons_self).hasSpelling (by rw [hl]; decide)
    rw [Lexeme.spelling_of_carriesText (by rw [hl]; rfl)] at htext
    exact .of_tree nofun fun _ => ⟨Page.agrees_ident htext, rfl, fun _ => rfl⟩
  | @literal l hl =>
    have hcarries : l.token.carriesText = true ∧ l.token ≠ .semicolon := by
      cases ht : l.token <;> first | exact ⟨rfl, by decide⟩ | (rw [ht] at hl; cases hl)
    have htext := (hws _ List.mem_cons_self).hasSpelling hcarries.2
    rw [Lexeme.spelling_of_carriesText hcarries.1] at htext
    exact .of_tree nofun fun _ => ⟨Page.agrees_basicLit htext, rfl, fun _ => rfl⟩
  | @dots l _ hl =>
    have htext := (hws _ List.mem_cons_self).hasText (by rw [hl]; rfl)
    rw [hl] at htext
    exact .of_tree nofun fun _ => ⟨Page.agrees_dots htext, rfl, fun _ => rfl⟩
  | @period l hl =>
    have htext := (hws _ List.mem_cons_self).hasText (by rw [hl]; rfl)
    rw [hl] at htext
    exact .of_tree nofun fun _ => ⟨Page.agrees_ident htext, rfl, fun _ => rfl⟩
  | noDoc | none | empty | endedNil | linesNil => exact .of_tree nofun fun _ => ⟨rfl, rfl, nofun⟩
  | doc g =>
    obtain ⟨hpos, hg⟩ := hws _ List.mem_cons_self
    exact .of_tree nofun fun _ => ⟨hg, hpos, nofun⟩
  | cover hc _ ih =>
    exact (ih hws).loosen (by rintro ps rfl; cases hc) hc.isProper hc.isNode
  | node hr _ ih =>
    refine .of_tree (by rintro ps rfl; cases hr) fun hs => ⟨?_, rfl, fun _ => rfl⟩
    rw [Page.agrees]
    exact (ih hws).2 (u := []) rfl rfl rfl (hr.fits hs)
  | behind _ _ ih => exact (ih fun w hw => hws w (List.mem_cons_of_mem _ hw)).loosen nofun id nofun
  | spread _ _ ih =>
    exact (ih fun w hw => hws w (List.mem_append_left _ hw)).loosen nofun id fun _ => rfl
  | endedComma _ _ ih | linesSemicolon _ _ ih =>
    exact (ih fun w hw => hws w (List.mem_append_left _ hw)).loosen nofun id nofun
  | one hn _ ih =>
    have hnil : Agreeing page (.ended .ident) (.list []) :=
      .of_tree nofun fun _ => ⟨rfl, rfl, nofun⟩
    exact hnil.snoc (ih hws) hn nofun rfl fun hs => ⟨rfl, hs⟩
  | firstName _ ih =>
    have hnil : Agreeing page (.ended .ident) (.list []) :=
      .of_tree nofun fun _ => ⟨rfl, rfl, nofun⟩
    exact hnil.snoc (ih hws) rfl nofun rfl fun _ => ⟨rfl, rfl⟩
  | more hn _ _ ih₁ ih₂ | linesItem hn _ _ ih₁ ih₂ =>
    have ih₁ := ih₁ fun w hw => hws w (List.mem_append_left _ hw)
    have ih₂ := ih₂ fun w hw => hws w (List.mem_append_right _ hw)
    exact ih₁.snoc ih₂ hn nofun rfl fun hs => ⟨hs, hs⟩
  | nextName _ _ _ ih₁ ih₂ =>
    have ih₁ := ih₁ fun w hw => hws w (List.mem_append_left _ hw)
    have ih₂ := ih₂ fun w hw => hws w (List.mem_append_right _ (List.mem_cons_of_mem _ hw))
    exact ih₁.snoc ih₂ rfl nofun rfl fun _ => ⟨rfl, rfl⟩
  | partsNil =>
    refine .of_parts fun {fs front} _ => ?_
    cases fs <;> rfl
  | word _ _ ih | lineEnd _ _ ih =>
    have ih := ih fun w hw => hws w (List.mem_cons_of_mem _ hw)
    exact .of_parts fun hfits => ih.2 rfl rfl rfl (by simpa only [Part.fits] using hfits)
  | noLineEnd _ ih =>
    exact .of_parts fun hfits => (ih hws).2 rfl rfl rfl (by simpa only [Part.fits] using hfits)
  | mark hl _ ih =>
    have ih := ih fun w hw => hws w (List.mem_cons_of_mem _ hw)
    refine ih.mark fun hcarries => ?_
    rw [← hl] at hcarries ⊢
    exact (hws _ List.mem_cons_self).hasText hcarries
  | markIn hl _ ih =>
    have ih := ih fun w hw => hws w (List.mem_cons_of_mem _ hw)
    exact ih.markIn hl fun hcarries => (hws _ List.mem_cons_self).hasText hcarries
  | unmarked _ ih => exact (ih hws).unmarked
  | const _ ih => exact (ih hws).const
  | sub _ _ ih₁ ih₂ =>
    have ih₁ := ih₁ fun w hw => hws w (List.mem_append_left _ hw)
    have ih₂ := ih₂ fun w hw => hws w (List.mem_append_right _ hw)
    exact ih₁.sub ih₂
  | args _ hspread _ ih₁ ih₂ =>
    have ih₁ := ih₁ fun w hw => hws w (List.mem_append_left _ hw)
    have ih₂ := ih₂ fun w hw => hws w (List.mem_append_right _ hw)
    refine ih₁.args (hspread.imp_right ?_) ih₂
    rintro ⟨l, hl, ht, rfl, -⟩
    rw [← ht]
    exact (hws _ (List.mem_append_left _ hl)).hasText (by rw [ht]; rfl)
  | targets _ _ ih₁ ih₂ =>
    have ih₁ := ih₁ fun w hw => hws w (List.mem_append_left _ hw)
    have ih₂ := ih₂ fun w hw => hws w (List.mem_append_right _ hw)
    exact ih₁.targets ih₂
  | params _ hfields _ ih₁ ih₂ =>
    have ih₁ := ih₁ fun w hw => hws w (List.mem_append_left _ hw)
    have ih₂ := ih₂ fun w hw => hws w (List.mem_append_right _ hw)
    exact ih₁.params hfields ih₂

/-- **A tree that was read agrees with the source** its words stand in. -/
theorem agrees (h : Derives d s ws t) (hs : s.isProper = true) (hws : ∀ w ∈ ws, w.Stands page) :
    page.agrees t = true := ((h.agreeing hws).1 hs).1

end Derives

/-! ### Ends

Where a tree agrees with the source, it ends where the source can be cut: behind a token that stands
there. -/

theorem isCut_max {cs : List Char} {p q : Pos} (hp : p.isValid = true → IsCut cs p)
    (hq : q.isValid = true → IsCut cs q) : (max p q).isValid = true → IsCut cs (max p q) := by
  have hmax : max p q = p ∨ max p q = q := by
    rcases Nat.le_total p.index q.index with h | h
    · exact .inr (congrArg Pos.mk (Nat.max_eq_right h))
    · exact .inl (congrArg Pos.mk (Nat.max_eq_left h))
  rcases hmax with h | h
  · rwa [h]
  · rwa [h]

namespace Page

variable {page : Page} {src : Source}

theorem isCut_of_hasText (hsrc : page.source = some src) {p : Pos} {s : String}
    (h : page.hasText p s = true) : IsCut src.text p ∧
      IsCut src.text (p.advance s.utf8ByteSize) := by
  rw [hasText, hsrc] at h
  simp only [Bool.and_eq_true, beq_iff_eq] at h
  exact Source.isCut_of_slice? h.2

theorem isCut_of_hasBracket (hsrc : page.source = some src) {p : Pos}
    (h : page.hasBracket p = true) : IsCut src.text p ∧ IsCut src.text (p.advance 1) := by
  rw [hasBracket, hsrc] at h
  dsimp only at h
  split at h
  · rename_i hslice
    exact Source.isCut_of_slice? hslice
  · cases h

theorem isCut_advance (hsrc : page.source = some src) {fields : List Tree} {w : Width} {p : Pos}
    (h : page.tokenAgrees fields w p = true)
    (hvalid : (p.advance (Tree.tokenWidth fields w)).isValid = true) :
    IsCut src.text (p.advance (Tree.tokenWidth fields w)) := by
  unfold tokenAgrees at h
  split at h
  · cases htext : Tree.tokenText fields w with
    | some s =>
      rw [htext] at h
      rw [Tree.tokenWidth, htext]
      exact (isCut_of_hasText hsrc h).2
    | none =>
      rw [htext] at h
      rw [Tree.tokenWidth, htext]
      exact (isCut_of_hasBracket hsrc h).2
  · rename_i hp
    rw [Pos.eq_none hp, Pos.advance_none] at hvalid
    cases hvalid

mutual

/-- **A tree that agrees with the source ends between two characters**, if it has a token. -/
theorem isCut_stop (hsrc : page.source = some src) (t : Tree) (h : page.agrees t = true) :
    t.stop.isValid = true → IsCut src.text t.stop := by
  match t with
  | .list ts =>
    rw [agrees] at h
    rw [Tree.stop]
    exact isCut_stopAll hsrc ts h
  | .node k fs =>
    rw [agrees] at h
    rw [Tree.stop]
    exact isCut_stopFields hsrc fs k.fields fs h
  | .nil | .pos _ | .str _ | .tok _ =>
    rw [Tree.stop] <;> nofun

theorem isCut_stopAll (hsrc : page.source = some src) (ts : List Tree)
    (h : page.agreesItems ts = true) :
    (Tree.stopAll ts).isValid = true → IsCut src.text (Tree.stopAll ts) := by
  match ts with
  | [] => nofun
  | t :: ts =>
    rw [agreesItems] at h
    simp only [Bool.and_eq_true] at h
    rw [Tree.stopAll]
    exact isCut_max (isCut_stop hsrc t h.1.2) (isCut_stopAll hsrc ts h.2)

theorem isCut_stopFields (hsrc : page.source = some src) (all : List Tree) (fs : List Field)
    (ts : List Tree) (h : page.agreesFields all fs ts = true) :
    (Tree.stopFields all fs ts).isValid = true → IsCut src.text (Tree.stopFields all fs ts) := by
  match fs, ts with
  | [], ts =>
    rw [Tree.stopFields.eq_def]
    nofun
  | f :: fs, [] => nofun
  | f :: fs, t :: ts =>
    rw [agreesFields.eq_def] at h
    dsimp only at h
    rw [Bool.and_eq_true] at h
    rw [Tree.stopFields.eq_def]
    refine isCut_max ?_ (isCut_stopFields hsrc all fs ts h.2)
    split
    · rename_i hslot
      have hhere := h.1
      rw [hslot] at hhere
      exact isCut_advance hsrc hhere
    · rename_i t _ _ hslot
      refine isCut_stop hsrc t ?_
      have hhere := h.1
      split at hhere
      · rename_i hf
        exact absurd hf (fun hf => hslot _ _ hf rfl)
      · exact hhere

end

end Page

end Graft
