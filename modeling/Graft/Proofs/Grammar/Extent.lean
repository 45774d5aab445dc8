import Graft.Proofs.Grammar.Schema
import Graft.Proofs.Token.Scan

/-! # Where the trees that are read begin and end

The last token of a closed phrase is recorded by its tree, so the tree ends behind it
(`Derives.stop_last`); and because lexemes stand in order, it ends behind all of them
(`Derives.stop_lexeme`).
-/

namespace Graft

namespace Pos

theorem isValid_of_lt {p q : Pos} (h : p < q) : q.isValid = true := by
  rw [lt_def] at h
  simp only [isValid, bne_iff_ne]
  omega

theorem le_refl (p : Pos) : p ≤ p := Nat.le_refl p.index

theorem le_trans {p q r : Pos} (h : p ≤ q) (h' : q ≤ r) : p ≤ r := Nat.le_trans h h'

theorem le_max_left (p q : Pos) : p ≤ max p q := Nat.le_max_left p.index q.index

theorem le_max_right (p q : Pos) : q ≤ max p q := Nat.le_max_right p.index q.index

theorem max_le_max_left {p q r : Pos} (h : q ≤ r) : max p q ≤ max p r := by
  rw [le_def, index_max, index_max]
  rw [le_def] at h
  omega

theorem le_advance (p : Pos) (n : Nat) : p ≤ p.advance n := by
  unfold advance
  split
  · exact Nat.le_add_right _ _
  · exact le_refl p

end Pos

theorem Word.getLast?_lexemes_append {v ws : List Word} {l : Lexeme}
    (h : (lexemes (v ++ ws)).getLast? = some l) :
    (lexemes ws).getLast? = some l ∨ lexemes ws = [] ∧ (lexemes v).getLast? = some l := by
  rw [lexemes_append] at h
  cases hws : lexemes ws with
  | nil =>
    rw [hws, List.append_nil] at h
    exact .inr ⟨rfl, h⟩
  | cons m ms =>
    rw [hws, List.getLast?_append, List.getLast?_cons, Option.some_or, ← List.getLast?_cons] at h
    exact .inl h

theorem Word.getLast?_lexemes_cons {ws : List Word} {l m : Lexeme}
    (h : (lexemes (.lexeme l :: ws)).getLast? = some m) :
    (lexemes ws).getLast? = some m ∨ lexemes ws = [] ∧ l = m := by
  rcases getLast?_lexemes_append (v := [.lexeme l]) h with h | ⟨hws, h⟩
  · exact .inl h
  · exact .inr ⟨hws, Option.some.inj h⟩

namespace Tree

theorem startAll_cons (t : Tree) (ts : List Tree) :
    startAll (t :: ts) = if t.start.isValid then t.start else startAll ts := rfl

theorem startAll_of_isValid {t : Tree} {ts : List Tree} (h : t.start.isValid = true) :
    startAll (t :: ts) = t.start := by rw [startAll_cons, if_pos h]

theorem startAll_of_not_isValid {t : Tree} {ts : List Tree} (h : t.start.isValid = false) :
    startAll (t :: ts) = startAll ts := by
  rw [startAll_cons, if_neg]
  simp [h]

theorem stop_list (ts : List Tree) : (Tree.list ts).stop = stopAll ts := rfl

theorem stop_node (k : Kind) (fs : List Tree) :
    (Tree.node k fs).stop = stopFields fs k.fields fs := rfl

theorem stopAll_cons (t : Tree) (ts : List Tree) :
    stopAll (t :: ts) = max t.stop (stopAll ts) := rfl

theorem stop_le_stopAll {t : Tree} {ts : List Tree} (h : t ∈ ts) : t.stop ≤ stopAll ts := by
  induction ts with
  | nil => cases h
  | cons u ts ih =>
    rw [stopAll_cons]
    rcases List.mem_cons.mp h with rfl | h
    · exact Pos.le_max_left _ _
    · exact Pos.le_trans (ih h) (Pos.le_max_right _ _)

theorem stopAll_le_append {ts us : List Tree} : stopAll ts ≤ stopAll (ts ++ us) := by
  induction ts with
  | nil => exact Nat.zero_le _
  | cons t ts ih =>
    rw [List.cons_append, stopAll_cons, stopAll_cons]
    exact Pos.max_le_max_left ih

theorem advance_le_stopFields {all ts : List Tree} {f : Field} {fs : List Field}
    {w : Width} {p : Pos} {n : Nat} (hf : f.slot = .pos w) (hn : tokenWidth all w = n) :
    p.advance n ≤ stopFields all (f :: fs) (.pos p :: ts) := by
  obtain ⟨l, slot⟩ := f
  subst hf hn
  rw [stopFields.eq_def]
  exact Pos.le_max_left _ _

/-- Fields end behind each of them. -/
theorem stop_le_stopFields {all ts : List Tree} {f : Field} {fs : List Field} {t : Tree} :
    t.stop ≤ stopFields all (f :: fs) (t :: ts) := by
  rw [stopFields.eq_def]
  dsimp only
  split
  · exact Nat.zero_le _
  · exact Pos.le_max_left _ _

/-- Fields end behind all but the first of them. -/
theorem stopFields_le_cons {all ts : List Tree} {f : Field} {fs : List Field} {t : Tree} :
    stopFields all fs ts ≤ stopFields all (f :: fs) (t :: ts) := by
  rw [stopFields.eq_def all (f :: fs)]
  exact Pos.le_max_right _ _

theorem stopFields_le_append {all ts us : List Tree} {fs gs : List Field}
    (h : gs.length = us.length) :
    stopFields all fs ts ≤ stopFields all (gs ++ fs) (us ++ ts) := by
  induction us generalizing gs with
  | nil =>
    rw [List.eq_nil_of_length_eq_zero h]
    exact Pos.le_refl _
  | cons u us ih =>
    cases gs with
    | nil => cases h
    | cons g gs => exact Pos.le_trans (ih (Nat.succ.inj h)) stopFields_le_cons

theorem stop_le_stopFields_of_mem {all ts : List Tree} {fs : List Field} {t : Tree} (ht : t ∈ ts)
    (hlen : ts.length ≤ fs.length) : t.stop ≤ stopFields all fs ts := by
  induction ts generalizing fs with
  | nil => cases ht
  | cons u ts ih =>
    cases fs with
    | nil => cases hlen
    | cons f fs =>
      rcases List.mem_cons.mp ht with rfl | ht
      · exact stop_le_stopFields
      · exact Pos.le_trans (ih ht (Nat.le_of_succ_le_succ hlen)) stopFields_le_cons

/-- A node ends behind each of its fields. -/
theorem stop_le_stop_node {k : Kind} {fs : List Tree} {t : Tree} (ht : t ∈ fs)
    (hlen : fs.length ≤ k.fields.length) : t.stop ≤ (Tree.node k fs).stop := by
  rw [stop_node]
  exact stop_le_stopFields_of_mem ht hlen

end Tree

namespace Derives

variable {d : Dialect} {s : Phrase} {ws : List Word} {t : Tree}

theorem doc_cases (h : Derives d .doc ws t) :
    ws = [] ∧ t = .nil ∨ ∃ g, ws = [.doc g] ∧ t = g.tree := by
  cases h with
  | noDoc => exact .inl ⟨rfl, rfl⟩
  | doc g => exact .inr ⟨g, rfl, rfl⟩
  | cover hc => cases hc
  | node hr => cases hr

/-- There is a token in every phrase of a solid sort, and in every stretch of fields with a solid
part. -/
theorem solid (h : Derives d s ws t) : (s.isSolid = true → Word.lexemes ws ≠ []) ∧
    ∀ {ps}, s = .parts ps → ps.any Part.isSolid = true → Word.lexemes ws ≠ [] := by
  induction h with
  | ident | literal | dots | period => exact ⟨fun _ => List.cons_ne_nil _ _, nofun⟩
  | behind => exact ⟨fun _ => List.cons_ne_nil _ _, nofun⟩
  | cover hc _ ih =>
    refine ⟨fun hs => ih.1 (hc.isSolid hs), ?_⟩
    rintro ps rfl
    cases hc
  | node hr _ ih =>
    refine ⟨fun _ => ih.2 rfl hr.isSolid, ?_⟩
    rintro ps rfl
    cases hr
  | spread _ _ ih => exact ⟨fun _ => by simp, nofun⟩
  | one _ _ ih | firstName _ ih => exact ⟨fun hs => ih.1 hs, nofun⟩
  | more _ _ _ _ ih => exact ⟨fun hs => by simp [ih.1 hs], nofun⟩
  | nextName => exact ⟨fun _ => by simp, nofun⟩
  | noDoc | doc | none | empty | endedNil | endedComma | linesNil | linesSemicolon | linesItem =>
    exact ⟨nofun, nofun⟩
  | partsNil => exact ⟨nofun, by rintro ps ⟨⟩ ⟨⟩⟩
  | word | mark | markIn => exact ⟨nofun, fun _ _ => List.cons_ne_nil _ _⟩
  | lineEnd => exact ⟨nofun, fun _ _ => List.cons_ne_nil _ _⟩
  | noLineEnd _ ih | unmarked _ ih | const _ ih =>
    refine ⟨nofun, ?_⟩
    rintro ps ⟨⟩ hps
    exact ih.2 rfl hps
  | sub _ _ ih₁ ih₂ =>
    refine ⟨nofun, ?_⟩
    rintro ps ⟨⟩ hps
    rw [List.any_cons, Bool.or_eq_true] at hps
    rw [Word.lexemes_append]
    rcases hps with hps | hps
    · simp [ih₁.1 hps]
    · simp [ih₂.2 rfl hps]
  | args _ _ _ _ ih | targets _ _ _ ih | params _ _ _ _ ih =>
    refine ⟨nofun, ?_⟩
    rintro ps ⟨⟩ hps
    simp [ih.2 rfl hps]

theorem lexemes_ne_nil (h : Derives d s ws t) (hs : s.isSolid = true) : Word.lexemes ws ≠ [] :=
  h.solid.1 hs

/-- The width of the token that a field records. -/
theorem tokenWidth_of_records {all : List Tree} {w : Width} {tok : Token}
    (h : (Slot.pos w).records tok = true) : Tree.tokenWidth all w = tok.text.utf8ByteSize := by
  cases w with
  | token s | optional s =>
    simp only [Slot.records, Bool.and_eq_true, beq_iff_eq] at h
    rw [Tree.tokenWidth, Tree.tokenText, h.1]
  | bracket =>
    have hall : ∀ t ∈ [Token.lparen, .rparen, .lbrace, .rbrace], 1 = t.text.utf8ByteSize := by
      decide
    exact hall tok (by simpa [Slot.records] using h)
  | ofField i => cases h

theorem tokenWidth_ofField {all : List Tree} {i : Nat} {tok : Token}
    (hi : all[i]? = some (.tok tok)) (ht : tok ≠ .illegal) :
    Tree.tokenWidth all (.ofField i) = tok.text.utf8ByteSize := by
  rw [Tree.tokenWidth, Tree.tokenText, hi]
  cases tok <;> first | rfl | exact absurd rfl ht

/-- What an induction over derivations shows of the last token of a phrase: the tree ends behind it,
and so do the fields of a node behind any others. -/
def Ending (s : Phrase) (ws : List Word) (t : Tree) : Prop :=
  (s.isProper = true → s.isClosed = true →
    ∀ {l}, (Word.lexemes ws).getLast? = some l → l.stop ≤ t.stop) ∧
  ∀ {ps ts i fs u}, s = .parts ps → t = .list ts → u.length = i →
    Part.fits i ps fs = true → Part.closes ps = true →
    ∀ {l}, (Word.lexemes ws).getLast? = some l → l.stop ≤ Tree.stopFields (u ++ ts) fs ts

theorem Ending.of_tree (hs : ∀ ps, s ≠ .parts ps)
    (h : s.isProper = true → s.isClosed = true →
      ∀ {l}, (Word.lexemes ws).getLast? = some l → l.stop ≤ t.stop) : Ending s ws t :=
  ⟨h, fun hp => absurd hp (hs _)⟩

theorem Ending.of_parts {ps : List Part} {ts : List Tree}
    (h : ∀ {fs front l}, Part.fits front.length ps fs = true → Part.closes ps = true →
      (Word.lexemes ws).getLast? = some l → l.stop ≤ Tree.stopFields (front ++ ts) fs ts) :
    Ending (.parts ps) ws (.list ts) := by
  refine ⟨nofun, ?_⟩
  rintro ps ts i fs front ⟨⟩ ⟨⟩ rfl hfits hcloses l hl
  exact h hfits hcloses hl

theorem Ending.rest {ps : List Part} {ts : List Tree} (h : Ending (.parts ps) ws (.list ts))
    {front : List Tree} (us : List Tree) {fs : List Field} {l : Lexeme}
    (hfits : Part.fits (front.length + us.length) ps fs = true) (hcloses : Part.closes ps = true)
    (hl : (Word.lexemes ws).getLast? = some l) :
    l.stop ≤ Tree.stopFields (front ++ (us ++ ts)) fs ts := by
  rw [← List.append_assoc]
  exact h.2 rfl rfl (List.length_append ..) hfits hcloses hl

theorem Ending.cover {s' : Phrase} (h : Ending s' ws t) (hc : Covers s s') : Ending s ws t := by
  refine .of_tree (fun ps hp => ?_) (fun hs hclosed => h.1 (hc.isProper hs) (hc.isClosed hclosed))
  subst hp
  cases hc

/-- The end of a list is the end of its last phrase. -/
theorem Ending.snoc {vs : List Word} {ts : List Tree} (h : Ending s ws t) (hs : s.isProper = true)
    (hclosed : s.isClosed = true) (hsolid : Word.lexemes ws ≠ []) {l : Lexeme}
    (hl : (Word.lexemes (vs ++ ws)).getLast? = some l) : l.stop ≤ (Tree.list (ts ++ [t])).stop := by
  rw [Tree.stop_list]
  rcases Word.getLast?_lexemes_append hl with hl | ⟨hnil, -⟩
  · exact Pos.le_trans (h.1 hs hclosed hl)
      (Tree.stop_le_stopAll (List.mem_append_right _ List.mem_cons_self))
  · exact absurd hnil hsolid

theorem Ending.leaf {l : Lexeme} (hs : ∀ ps, s ≠ .parts ps) (h : l.stop ≤ t.stop) :
    Ending s [.lexeme l] t := by
  refine .of_tree hs (fun _ _ m hm => ?_)
  obtain rfl : l = m := Option.some.inj hm
  exact h

namespace Ending

variable {ps : List Part} {ts : List Tree}

/-! Each part adds the fields that its words stand for.  If the parts behind it have no token, then
the last token is one of its own, and it must be recorded. -/

/-- A token that is not recorded is never the last one. -/
theorem unrecorded {p : Part} {m : Lexeme} (h : Ending (.parts ps) ws (.list ts))
    (hsolid : ps.any Part.isSolid = true → Word.lexemes ws ≠ []) (hp : p.isClosed = false)
    (hfits : ∀ i fs, Part.fits i (p :: ps) fs = Part.fits i ps fs) :
    Ending (.parts (p :: ps)) (.lexeme m :: ws) (.list ts) := by
  refine .of_parts fun {fs front l} hfits' hcloses hl => ?_
  rw [hfits] at hfits'
  simp only [Part.closes_cons, hp, Bool.or_false, Bool.and_eq_true] at hcloses
  rcases Word.getLast?_lexemes_cons hl with hl | ⟨hnil, -⟩
  · exact h.2 rfl rfl rfl hfits' hcloses.1 hl
  · exact absurd hnil (hsolid hcloses.2)

theorem mark {tok : Token} {m : Lexeme} (h : Ending (.parts ps) ws (.list ts))
    (hm : m.token = tok) :
    Ending (.parts (.mark tok :: ps)) (.lexeme m :: ws) (.list (.pos m.pos :: ts)) := by
  refine .of_parts fun {fs front l} hfits hcloses hl => ?_
  simp only [Part.closes_cons, Bool.and_eq_true] at hcloses
  cases fs with
  | nil => cases hfits
  | cons f fs =>
    simp only [Part.fits, Bool.and_eq_true] at hfits
    rcases Word.getLast?_lexemes_cons hl with hl | ⟨-, rfl⟩
    · exact Pos.le_trans (h.rest [_] hfits.2 hcloses.1 hl) Tree.stopFields_le_cons
    · obtain ⟨w, hw, hcarries⟩ := Slot.exists_of_records hfits.1
      rw [Lexeme.stop, Lexeme.spelling_of_not_carriesText (by rw [hm]; exact hcarries), hm]
      exact Tree.advance_le_stopFields hw (tokenWidth_of_records (hw ▸ hfits.1))

theorem markIn {toks : List Token} {m : Lexeme} (h : Ending (.parts ps) ws (.list ts))
    (hm : m.token ∈ toks) : Ending (.parts (.markIn toks :: ps)) (.lexeme m :: ws)
      (.list (.pos m.pos :: .tok m.token :: ts)) := by
  refine .of_parts fun {fs front l} hfits hcloses hl => ?_
  simp only [Part.closes_cons, Bool.and_eq_true] at hcloses
  match fs, hfits with
  | f :: g :: fs, hfits =>
    simp only [Part.fits, Bool.and_eq_true, beq_iff_eq, List.all_eq_true] at hfits
    rcases Word.getLast?_lexemes_cons hl with hl | ⟨-, rfl⟩
    · exact Pos.le_trans (h.rest [_, _] hfits.2 hcloses.1 hl)
        (Pos.le_trans Tree.stopFields_le_cons Tree.stopFields_le_cons)
    · obtain ⟨hcarries, hillegal⟩ := Token.isFixed_iff.mp (hfits.1.2 _ hm)
      rw [Lexeme.stop, Lexeme.spelling_of_not_carriesText hcarries]
      exact Tree.advance_le_stopFields hfits.1.1 (tokenWidth_ofField (by simp) hillegal)

theorem unmarked {x y : Tree} (h : Ending (.parts ps) ws (.list ts)) :
    Ending (.parts (.unmarked :: ps)) ws (.list (x :: y :: ts)) := by
  refine .of_parts fun {fs front l} hfits hcloses hl => ?_
  simp only [Part.closes_cons, Bool.and_eq_true] at hcloses
  match fs, hfits with
  | f :: g :: fs, hfits =>
    simp only [Part.fits, Bool.and_eq_true] at hfits
    exact Pos.le_trans (h.rest [_, _] hfits.2 hcloses.1 hl)
      (Pos.le_trans Tree.stopFields_le_cons Tree.stopFields_le_cons)

theorem const (h : Ending (.parts ps) ws (.list ts)) :
    Ending (.parts (.const t :: ps)) ws (.list (t :: ts)) := by
  refine .of_parts fun {fs front l} hfits hcloses hl => ?_
  simp only [Part.closes_cons, Bool.and_eq_true] at hcloses
  cases fs with
  | nil => cases hfits
  | cons f fs =>
    simp only [Part.fits, Bool.and_eq_true] at hfits
    exact Pos.le_trans (h.rest [_] hfits.2 hcloses.1 hl) Tree.stopFields_le_cons

theorem sub {vs : List Word} (ht : Ending s vs t) (h : Ending (.parts ps) ws (.list ts))
    (hsolid : ps.any Part.isSolid = true → Word.lexemes ws ≠ []) :
    Ending (.parts (.sub s :: ps)) (vs ++ ws) (.list (t :: ts)) := by
  refine .of_parts fun {fs front l} hfits hcloses hl => ?_
  simp only [Part.closes_cons, Bool.and_eq_true, Bool.or_eq_true] at hcloses
  cases fs with
  | nil => cases hfits
  | cons f fs =>
    simp only [Part.fits, Bool.and_eq_true] at hfits
    rcases Word.getLast?_lexemes_append hl with hl | ⟨hnil, hl⟩
    · exact Pos.le_trans (h.rest [_] hfits.2 hcloses.1 hl) Tree.stopFields_le_cons
    · rcases hcloses.2 with hany | hclosed
      · exact absurd hnil (hsolid hany)
      · exact Pos.le_trans (ht.1 hfits.1 hclosed hl) Tree.stop_le_stopFields

/-- Parts that are put together from lists are never the last ones. -/
theorem listed {p : Part} {vs : List Word} (u : List Tree) (h : Ending (.parts ps) ws (.list ts))
    (hsolid : ps.any Part.isSolid = true → Word.lexemes ws ≠ []) (hp : p.isClosed = false)
    (hfits : ∀ {i fs}, Part.fits i (p :: ps) fs = true →
      ∃ gs hs, fs = gs ++ hs ∧ gs.length = u.length ∧ Part.fits (i + u.length) ps hs = true) :
    Ending (.parts (p :: ps)) (vs ++ ws) (.list (u ++ ts)) := by
  refine .of_parts fun {fs front l} hfits' hcloses hl => ?_
  simp only [Part.closes_cons, hp, Bool.or_false, Bool.and_eq_true] at hcloses
  obtain ⟨gs, hs, rfl, hlength, hrest⟩ := hfits hfits'
  rcases Word.getLast?_lexemes_append hl with hl | ⟨hnil, -⟩
  · exact Pos.le_trans (h.rest u hrest hcloses.1 hl) (Tree.stopFields_le_append hlength)
  · exact absurd hnil (hsolid hcloses.2)

end Ending

theorem ending (h : Derives d s ws t) : Ending s ws t := by
  induction h with
  | @ident l hl =>
    refine .leaf (by rintro _ ⟨⟩) ?_
    rw [Lexeme.stop, Lexeme.spelling_of_carriesText (by rw [hl]; rfl), Tree.ident, Tree.stop_node]
    exact Tree.advance_le_stopFields rfl rfl
  | @literal l hl =>
    refine .leaf (by rintro _ ⟨⟩) ?_
    have hcarries : l.token.carriesText = true := by
      cases ht : l.token <;> first | rfl | (rw [ht] at hl; cases hl)
    rw [Lexeme.stop, Lexeme.spelling_of_carriesText hcarries, Tree.stop_node]
    exact Tree.advance_le_stopFields rfl rfl
  | @dots l _ hl =>
    refine .leaf (by rintro _ ⟨⟩) ?_
    rw [Lexeme.stop, Lexeme.spelling_of_not_carriesText (by rw [hl]; rfl), hl, Tree.dots,
      Tree.stop_node]
    exact Tree.advance_le_stopFields rfl rfl
  | @period l hl =>
    refine .leaf (by rintro _ ⟨⟩) ?_
    rw [Lexeme.stop, Lexeme.spelling_of_not_carriesText (by rw [hl]; rfl), hl, Tree.ident,
      Tree.stop_node]
    exact Tree.advance_le_stopFields rfl rfl
  | noDoc | doc | none | empty => exact .of_tree (by rintro _ ⟨⟩) (by rintro - - l ⟨⟩)
  | endedNil | endedComma | linesNil | linesSemicolon | linesItem | spread =>
    exact .of_tree (by rintro _ ⟨⟩) (by rintro - ⟨⟩)
  | cover hc _ ih => exact ih.cover hc
  | node hr _ ih =>
    refine .of_tree (fun ps hp => ?_) (fun hs hclosed l hl => ?_)
    · subst hp
      cases hr
    · rw [Tree.stop_node]
      exact ih.2 (u := []) rfl rfl rfl (hr.fits hs) (hr.closes hclosed) hl
  | behind _ hs ih =>
    refine .of_tree (by rintro _ ⟨⟩) (fun hproper hclosed l hl => ?_)
    rw [Phrase.isClosed, Bool.and_eq_true] at hclosed
    rcases Word.getLast?_lexemes_cons hl with hl | ⟨hnil, -⟩
    · exact ih.1 hproper hclosed.1 hl
    · exact absurd hnil (hs.lexemes_ne_nil hclosed.2)
  | one _ _ ih | firstName _ ih =>
    refine .of_tree (by rintro _ ⟨⟩) (fun hproper hclosed l hl => ?_)
    rw [Tree.stop_list]
    exact Pos.le_trans (ih.1 hproper hclosed hl) (Tree.stop_le_stopAll List.mem_cons_self)
  | more _ _ ht _ ih =>
    refine .of_tree (by rintro _ ⟨⟩) (fun hproper hclosed l hl => ?_)
    rw [Phrase.isClosed, Bool.and_eq_true] at hclosed
    exact ih.snoc hproper hclosed.1 (ht.lexemes_ne_nil hclosed.2) hl
  | @nextName ws ws' m ts t hs h ht _ ih =>
    refine .of_tree (by rintro _ ⟨⟩) (fun hproper hclosed l hl => ?_)
    rw [show ws ++ .lexeme m :: ws' = (ws ++ [.lexeme m]) ++ ws' by simp] at hl
    exact ih.snoc rfl rfl (ht.lexemes_ne_nil rfl) hl
  | partsNil => exact .of_parts (by rintro _ _ _ - - ⟨⟩)
  | word _ hp ih | lineEnd _ hp ih =>
    exact ih.unrecorded (hp.solid.2 rfl) rfl fun _ _ => by rw [Part.fits]
  | noLineEnd _ ih =>
    refine .of_parts (fun {fs front l} hfits hcloses hl => ?_)
    simp only [Part.closes_cons, Bool.and_eq_true] at hcloses
    exact ih.2 rfl rfl rfl (by simpa only [Part.fits] using hfits) hcloses.1 hl
  | mark hm _ ih => exact ih.mark hm
  | markIn hm _ ih => exact ih.markIn hm
  | unmarked _ ih => exact ih.unmarked
  | const _ ih => exact ih.const
  | sub _ hp ih₁ ih₂ => exact ih₁.sub ih₂ (hp.solid.2 rfl)
  | args _ _ hp _ ih | targets _ hp _ ih =>
    refine ih.listed [_, _] (hp.solid.2 rfl) rfl fun {i fs} hfits => ?_
    obtain _ | ⟨f, _ | ⟨g, fs⟩⟩ := fs
    · cases hfits
    · cases hfits
    · simp only [Part.fits, Bool.and_eq_true] at hfits
      exact ⟨[f, g], fs, rfl, rfl, by first | exact hfits | exact hfits.2⟩
  | params _ _ hp _ ih =>
    refine ih.listed [_] (hp.solid.2 rfl) rfl fun {i fs} hfits => ?_
    cases fs with
    | nil => cases hfits
    | cons f fs => exact ⟨[f], fs, rfl, rfl, hfits⟩

theorem stop_last (h : Derives d s ws t) (hs : s.isProper = true) (hclosed : s.isClosed = true)
    {l : Lexeme} (hl : (Word.lexemes ws).getLast? = some l) : l.stop ≤ t.stop :=
  h.ending.1 hs hclosed hl

/-- **A closed phrase ends behind all of its tokens**, when they stand in order. -/
theorem stop_lexeme (h : Derives d s ws t) (hs : s.isProper = true) (hclosed : s.isClosed = true)
    (hws : (Word.lexemes ws).Pairwise Lexeme.Before) {l : Lexeme} (hl : l ∈ Word.lexemes ws)
    (hsemi : l.token ≠ .semicolon) : l.stop ≤ t.stop := by
  obtain ⟨ls, m, hlast⟩ : ∃ ls m, Word.lexemes ws = ls ++ [m] :=
    ⟨_, _, (List.dropLast_concat_getLast (List.ne_nil_of_mem hl)).symm⟩
  have hm : m.stop ≤ t.stop := h.stop_last hs hclosed (by rw [hlast, List.getLast?_concat])
  rw [hlast] at hl hws
  rcases List.mem_append.mp hl with hl | hl
  · have hbefore : l.Before m :=
      (List.pairwise_append.mp hws).2.2 l hl m (List.mem_singleton_self m)
    exact Pos.le_trans (hbefore.2 hsemi) (Pos.le_trans (Pos.le_advance _ _) hm)
  · rw [List.mem_singleton.mp hl]
    exact hm

/-- Lines of closed phrases end behind all of their tokens but semicolons. -/
theorem stop_lines (h : Derives d (.lines s) ws t) (hs : s.isProper = true)
    (hclosed : s.isClosed = true) (hws : (Word.lexemes ws).Pairwise Lexeme.Before) {l : Lexeme}
    (hl : l ∈ Word.lexemes ws) (hsemi : l.token ≠ .semicolon) : l.stop ≤ t.stop := by
  generalize hp : Phrase.lines s = p at h
  induction h with
  | linesNil => cases hl
  | linesSemicolon _ hm ih =>
    rw [Word.lexemes_append] at hl hws
    rcases List.mem_append.mp hl with hl | hl
    · exact ih (List.pairwise_append.mp hws).1 hl hp
    · rw [Word.lexemes_lexeme, Word.lexemes_nil, List.mem_singleton] at hl
      exact absurd (hl ▸ hm) hsemi
  | linesItem _ _ hitem ih _ =>
    cases hp
    rw [Word.lexemes_append] at hl hws
    obtain ⟨hfront, hback, -⟩ := List.pairwise_append.mp hws
    rw [Tree.stop_list]
    rcases List.mem_append.mp hl with hl | hl
    · have hle := ih hfront hl rfl
      rw [Tree.stop_list] at hle
      exact Pos.le_trans hle Tree.stopAll_le_append
    · exact Pos.le_trans (hitem.stop_lexeme hs hclosed hback hl hsemi)
        (Tree.stop_le_stopAll (List.mem_append_right _ List.mem_cons_self))
  | cover hc => subst hp; cases hc
  | node hr => subst hp; cases hr
  | _ => cases hp

end Derives

end Graft
