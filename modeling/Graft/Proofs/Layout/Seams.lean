import Graft.Proofs.Layout.Ends
import Graft.Proofs.Layout.Showing
import Graft.Proofs.Recipe.Wildcards

/-! # Text between tokens is taken over

Between two tokens that a tree records one behind the other, the text of the source is taken over if
nothing there changed and only commas and semicolons stand there.  The proof goes along the layout
and the words at once: `FileReading.Poised` says how the printer stands between two words, and
`FileReading.Covered` that all the stretches between recorded tokens were taken over so far.
-/

namespace Graft

/-! ### Layouts have the recorded tokens -/

/-- The positions of the tokens that an item records. -/
def Item.tokenPlaces : Item → List Pos
  | .token p _ => if p.isValid then [p] else []
  | .tree t => t.tokenPlaces
  | _ => []

theorem Tree.tokenPlaces_eq_nil_of_isSilent {t : Tree} (h : t.isSilent = true) :
    t.tokenPlaces = [] := by
  cases t with
  | pos p =>
    rw [tokenPlaces, if_neg]
    simpa [isSilent] using h
  | list ts =>
    cases ts with
    | nil => rfl
    | cons => cases h
  | node => cases h
  | _ => rfl

/-- **A layout has the tokens that the fields record, in order.** -/
theorem Lays.tokenPlaces {page : Page} {all ts : List Tree} {m : Ink} {fs : List Field}
    {is : List Item} (h : Lays page all m fs ts is) :
    is.flatMap Item.tokenPlaces = Tree.tokenPlacesAll ts := by
  induction h with
  | nil => rfl
  | @pause _ _ _ _ i is hi _ _ ih =>
    have hnone : i.tokenPlaces = [] := by
      cases i <;> first | rfl | cases hi
    rwa [List.flatMap_cons, hnone]
  | bare _ _ ih | absent _ ih => exact ih
  | silent ht _ ih =>
    rw [Tree.tokenPlacesAll, Tree.tokenPlaces_eq_nil_of_isSilent ht]
    exact ih
  | token _ _ _ _ _ ih | tree _ _ ih | copied _ _ ih =>
    rw [Tree.tokenPlacesAll, List.flatMap_cons, ih]
    rfl
  | item _ _ ih =>
    rw [Tree.tokenPlacesAll, Tree.tokenPlaces_list] at ih
    rw [Tree.tokenPlacesAll, Tree.tokenPlaces_list, Tree.tokenPlacesAll, List.flatMap_cons, ih,
      List.append_assoc]
    rfl
  | opened _ hcode _ _ ih ih' =>
    rw [Tree.tokenPlacesAll, Tree.tokenPlaces_node hcode, List.flatMap_append, ih, ih']

/-- The trees of a layout are nodes in the fields, but for those that are missing. -/
theorem Lays.exists_node {page : Page} {all ts : List Tree} {ink : Ink} {fs : List Field}
    {is : List Item} (h : Lays page all ink fs ts is) {n : Node} (hn : .tree n.tree ∈ is) :
    n ∈ Tree.nodesAll ts ∧ (n.tree.isPlain page = true ∨ (page.copy? n).isSome = true) := by
  have hnone : PicksCopies page fun _ => false := fun _ hpick => by cases hpick
  refine ⟨(h.trims hnone).1.subset (List.mem_flatMap.mpr ⟨_, hn, ?_⟩), ?_⟩
  · rw [Item.nodes, Node.tree, Tree.nodes_node]
    exact List.mem_cons_self
  · rcases h.tree_cases hn with heq | ⟨m, heq, hm⟩
    · cases heq
    · obtain ⟨k, gs⟩ := n
      obtain ⟨k', gs'⟩ := m
      cases heq
      exact hm

theorem Spelling.exists_node {page : Page} {ws : List Word} {t : Tree} (h : Spelling page ws t) :
    ∃ n : Node, t = n.tree := by
  cases h with
  | phrase hs h =>
    obtain ⟨k, fs, rfl, -⟩ := h.exists_kind (Phrase.isNode_of_isLaid hs)
    exact ⟨⟨k, fs⟩, rfl⟩
  | param => exact ⟨⟨.field, _⟩, rfl⟩
  | copied => exact ⟨⟨_, _⟩, rfl⟩

/-- Printing copies what can be copied. -/
theorem Pen.node_of_copy {page : Page} {pen : Pen} {h : Nat} {n : Node} {text : List Char}
    (hheight : n.tree.height ≤ h) (hcopy : page.copy? n = some text) :
    Pen.node page h n pen = pen.emit page n.start n.stop (String.ofList text) := by
  cases h with
  | zero =>
    rw [Node.tree, Tree.height] at hheight
    omega
  | succ h =>
    rw [Pen.node, hcopy]
    rfl

/-! ### Spans that did not change -/

/-- A set of spans that does not meet a span meets no span in it. -/
theorem SpanSet.not_intersects_mono {s : SpanSet} {p q p' q' : Pos}
    (h : s.intersects ⟨p, q⟩ = false) (hp : p ≤ p') (hpq : p' ≤ q') (hq : q' ≤ q)
    (hvalid : p.isValid = true) :
    s.intersects ⟨p', q'⟩ = false := by
  have hspan : (Span.mk p q).isValid = true := by
    have hqvalid : q.isValid = true := by
      simp only [Pos.isValid, bne_iff_ne, Pos.le_def] at *
      omega
    simpa [Span.isValid, hvalid, hqvalid] using Pos.le_trans hp (Pos.le_trans hpq hq)
  rw [Bool.eq_false_iff] at h ⊢
  intro hmeets
  refine h ?_
  simp only [intersects, Bool.and_eq_true, List.any_eq_true] at hmeets ⊢
  obtain ⟨-, t, ht, hmeets⟩ := hmeets
  refine ⟨hspan, t, ht, ?_⟩
  obtain ⟨i⟩ := p
  obtain ⟨j⟩ := q
  obtain ⟨i'⟩ := p'
  obtain ⟨j'⟩ := q'
  simp only [Pos.le_def] at hp hpq hq
  split at hmeets <;> split <;> simp_all only [Pos.lt_def, decide_eq_true_eq,
    Pos.mk.injEq] <;> omega

theorem Separator.fits_of_suits {s : Separator} {n : Nat} {gap : List Char} (hs : s.suits n = true)
    (hgap : substance .nothing gap = List.replicate n ',') : s.fits gap = true := by
  cases s with
  | comma =>
    obtain rfl : n = 1 := by simpa [suits] using hs
    simp [fits, hgap]
  | close =>
    have hn : n ≤ 1 := by simpa [suits] using hs
    rcases Nat.le_one_iff_eq_zero_or_eq_one.mp hn with rfl | rfl <;> simp [fits, hgap]
  | _ =>
    obtain rfl : n = 0 := by simpa [suits] using hs
    simp [fits, hgap]

theorem Pen.emit_out_of_gap {pen : Pen} {page : Page} {start stop : Pos} {text : String}
    {taken : List Char} (h : pen.sourceGap? page start = some taken) :
    (pen.emit page start stop text).out.toList = pen.out.toList ++ taken ++ text.toList := by
  simp [emit, h]

theorem Pen.Prints.isInfix {pen pen' : Pen} (h : Prints "" pen pen') :
    pen.out.toList <:+: pen'.out.toList := by
  obtain ⟨a, b, h⟩ := h
  exact ⟨[], (a ++ "" ++ b).toList, by rw [h]; simp⟩

/-- Whether a place stands between some words and those behind them. -/
structure Word.Parted (a b : List Word) (q : Pos) : Prop where
  stop_le : ∀ w ∈ a, w.isSemicolon = false → w.stop ≤ q
  le_start : ∀ w ∈ b, w.isSemicolon = false → q ≤ w.start

namespace FileReading

variable {cs : List Char} (r : FileReading .code cs) {page : Page} {a b vs ws us : List Word}
  {pen pen' : Pen}
  {s : Separator} {since : Option Nat} {e p q : Pos} {l m : Lexeme} {w : Word} {out : String}
  {ps qs : List Pos}

/-! ### Words in order -/

theorem before_of_split (h : r.words = a ++ b) {v : Word} (hv : v ∈ a) (hw : w ∈ b) :
    v.Before w := by
  have horder := r.pairwise_words
  rw [h] at horder
  exact (List.pairwise_append.mp horder).2.2 v hv w hw

theorem pos_lt_stop (hl : .lexeme l ∈ r.words) (hsemi : l.token ≠ .semicolon) : l.pos < l.stop :=
  r.start_lt_stop_word hl (by simpa [Word.isSemicolon] using hsemi)

/-- A token is where no other token is. -/
theorem eq_of_pos_eq (hl : .lexeme l ∈ r.words) (hm : .lexeme m ∈ r.words)
    (hsemi : l.token ≠ .semicolon) (hsemi' : m.token ≠ .semicolon) (h : l.pos = m.pos) : l = m := by
  obtain ⟨a, b, hwords⟩ := List.append_of_mem hl
  rw [hwords] at hm
  rcases List.mem_append.mp hm with hm | hm
  · have hle : m.stop ≤ l.pos := (r.before_of_split hwords hm List.mem_cons_self).2
      (by simpa [Word.isSemicolon] using hsemi')
    have hlt := r.pos_lt_stop (l := m) (by simp [hwords, hm]) hsemi'
    rw [h] at hle
    exact absurd hlt (Nat.not_lt_of_le hle)
  · rcases List.mem_cons.mp hm with heq | hm
    · cases heq
      rfl
    · have hwords' : r.words = (a ++ [.lexeme l]) ++ b := by simp [hwords]
      have hbefore : (Word.lexeme l).Before (.lexeme m) := r.before_of_split hwords' (by simp) hm
      have hle : l.stop ≤ m.pos := hbefore.2 (by simpa [Word.isSemicolon] using hsemi)
      have hlt := r.pos_lt_stop hl hsemi
      rw [← h] at hle
      exact absurd hlt (Nat.not_lt_of_le hle)

/-! ### Stretches without other tokens -/

/-- What is asked of a stretch of the source: that nothing but commas and semicolons stands there,
and nothing there changed. -/
structure Idle (changed : SpanSet) (p q : Pos) : Prop where
  le : p ≤ q
  loose : ∀ l ∈ Word.lexemes r.words, p ≤ l.pos → l.pos < q → l.token.isLoose = true
  unchanged : changed.intersects ⟨p, q⟩ = false

/-- Whether such a stretch is in a text. -/
def Kept (page : Page) (out : String) (p q : Pos) : Prop :=
  r.Idle page.changed p q → ∃ gap, (Source.ofText cs).slice? ⟨p, q⟩ = some gap ∧ gap <:+: out.toList

/-- Whether the stretches from a place on over some tokens to the end of the last are in a text. -/
inductive Covered (page : Page) (out : String) : Pos → List Pos → Pos → Prop where
  | nil {e : Pos} : Covered page out e [] e
  | cons {e e' : Pos} {l : Lexeme} {ps : List Pos} (hl : .lexeme l ∈ r.words)
      (hloose : l.token.isLoose = false)
      (hkept : r.Kept page out e l.pos) (h : Covered page out l.stop ps e') : Covered page out e
      (l.pos :: ps) e'

variable {r}

theorem Idle.shorten {changed : SpanSet} (h : r.Idle changed p q)
    (hvalid : p.isValid = true) {q' : Pos} (hp : p ≤ q') (hq : q' ≤ q) : r.Idle changed p q' where
  le := hp
  loose l hl hle hlt := h.loose l hl hle (Nat.lt_of_lt_of_le hlt hq)
  unchanged := SpanSet.not_intersects_mono h.unchanged (Pos.le_refl _) hp hq hvalid

/-- A stretch is in a text with whatever the text takes over around it. -/
theorem kept_of_slice {p' q' : Pos} {whole : List Char}
    (hslice : (Source.ofText cs).slice? ⟨p', q'⟩ = some whole) (hin : whole <:+: out.toList)
    (hp : IsCut (Source.ofText cs).text p) (hq : IsCut (Source.ofText cs).text q) (hle : p' ≤ p)
    (hle' : q ≤ q') : r.Kept page out p q := by
  intro hidle
  obtain ⟨v, hv⟩ := Source.exists_slice? hp hq hidle.le
  exact ⟨v, hv, (Source.isInfix_of_slice? hv hslice hle hle').trans hin⟩

namespace Covered

theorem mono {out' : String} (h : r.Covered page out e ps p) (hout : out.toList <:+: out'.toList) :
    r.Covered page out' e ps p := by
  induction h with
  | nil => exact .nil
  | cons hl hloose hkept _ ih =>
    refine .cons hl hloose (fun hidle => ?_) ih
    obtain ⟨gap, hgap, hin⟩ := hkept hidle
    exact ⟨gap, hgap, hin.trans hout⟩

theorem append (h : r.Covered page out e ps p) (h' : r.Covered page out p qs q) :
    r.Covered page out e (ps ++ qs) q := by
  induction h with
  | nil => exact h'
  | cons hl hloose hkept _ ih => exact .cons hl hloose hkept (ih h')

/-- The end is that of the last token. -/
theorem stop_eq (h : r.Covered page out e (ps ++ [l.pos]) q) (hl : .lexeme l ∈ r.words)
    (hloose : l.token.isLoose = false) : q = l.stop := by
  generalize hps : ps ++ [l.pos] = places at h
  induction h generalizing ps with
  | nil => simp at hps
  | @cons _ _ m _ hm hloose' _ h ih =>
    cases ps with
    | nil =>
      obtain ⟨hpos, rfl⟩ := List.cons.inj hps
      cases h
      rw [r.eq_of_pos_eq hl hm (Token.ne_semicolon_of_not_isLoose hloose)
        (Token.ne_semicolon_of_not_isLoose hloose') hpos]
    | cons p ps => exact ih (List.cons.inj hps).2

/-- A text that holds the stretches before and between some tokens covers any places of these. -/
theorem of_hold (hmem : ∀ w ∈ ws, w ∈ r.words) (hold : Word.Hold ws ps)
    (hfirst : ∀ m, .lexeme m ∈ ws → m.token.isLoose = false → r.Kept page out e m.pos)
    (hnext : ∀ l m, .lexeme l ∈ ws → .lexeme m ∈ ws → l.token.isLoose = false →
      m.token.isLoose = false → r.Kept page out l.stop m.pos) :
      ∃ e', r.Covered page out e ps e' := by
  induction ps generalizing e with
  | nil => exact ⟨e, .nil⟩
  | cons p ps ih =>
    obtain ⟨⟨l, hl, hloose, rfl⟩, hrest⟩ := List.forall_mem_cons.mp hold
    obtain ⟨e', h⟩ := ih hrest fun m hm hloose' => hnext l m hl hm hloose hloose'
    exact ⟨e', .cons (hmem _ hl) hloose (hfirst l hl hloose) h⟩

end Covered

/-! ### The printer between two words -/

variable (r)

/-- How the printer has to stand to take over the source from `p` to `q`: it has done so up to where
the last item from the source ends, and the separator to come can stand for the commas since. -/
structure Ready (a : List Word) (pen : Pen) (s : Separator) (since : Option Nat) (p q : Pos) :
    Prop where
  since_eq : since = some ((Word.lexemes a).countP (Lexeme.isCommaFrom pen.last))
  pending : pen.pending = s
  isBreak : r.IsBreak pen.last
  le_last : p ≤ pen.last
  last_le : pen.last ≤ q
  shown : ∃ gap, (Source.ofText cs).slice? ⟨p, pen.last⟩ = some gap ∧ gap <:+ pen.out.toList

/-- **How the printer stands** when the words `a` were read and `b` are left, the separator to come
is `s`, and the last token was printed that ends at `e`.  If nothing between there and the next word
changed, the source can be taken over. -/
structure Poised (page : Page) (a b : List Word) (pen : Pen) (s : Separator)
    (since : Option Nat) (e : Pos) :
    Prop where
  words : r.words = a ++ b
  begun : e = .atOffset 0 ∨ ∃ l, .lexeme l ∈ a ∧ l.token.isLoose = false ∧ e = l.stop
  ready : ∀ q, Word.Parted a b q → r.Idle page.changed e q → r.Ready a pen s since e q

theorem parted (h : r.words = a ++ w :: b) (hsemi : w.isSemicolon = false) :
    Word.Parted a (w :: b) w.start where
  stop_le v hv hv' := (r.before_of_split h hv List.mem_cons_self).2 hv'
  le_start v hv _ := by
    rcases List.mem_cons.mp hv with rfl | hv
    · exact Pos.le_refl _
    · exact (r.before_of_split (a := a ++ [w]) (b := b) (by simp [h]) (by simp) hv).1

theorem isValid_start_word (hw : w ∈ r.words) : w.start.isValid = true := by
  have hplaced := r.placed hw
  cases w with
  | lexeme l => exact hplaced
  | doc g => exact hplaced.1

variable {r}

namespace Poised

theorem isValid (h : r.Poised page a b pen s since e) : e.isValid = true := by
  rcases h.begun with rfl | ⟨l, hl, hloose, rfl⟩
  · rfl
  · have hmem : .lexeme l ∈ r.words := by simp [h.words, hl]
    exact Pos.isValid_of_lt (r.pos_lt_stop hmem (Token.ne_semicolon_of_not_isLoose hloose))

theorem le_start (h : r.Poised page a b pen s since e) (hw : w ∈ b) : e ≤ w.start := by
  rcases h.begun with rfl | ⟨l, hl, hloose, rfl⟩
  · have hvalid := r.isValid_start_word (w := w) (by simp [h.words, hw])
    rw [Pos.le_def]
    simp only [Pos.isValid, bne_iff_ne, Pos.atOffset] at hvalid ⊢
    omega
  · exact (r.before_of_split h.words hl hw).2
      (by simpa [Word.isSemicolon] using Token.ne_semicolon_of_not_isLoose hloose)

/-- Before a word that stands behind an unchanged stretch the source is taken over. -/
theorem exists_gap (h : r.Poised page a (w :: b) pen s since e)
    (hsrc : page.source = some (Source.ofText cs)) (hsemi : w.isSemicolon = false)
    (hs : since.all s.suits = true) (hidle : r.Idle page.changed e w.start) :
    ∃ gap taken, (Source.ofText cs).slice? ⟨e, w.start⟩ = some gap ∧
      pen.sourceGap? page w.start = some taken ∧
      gap <:+ pen.out.toList ++ taken := by
  have hparted := r.parted h.words hsemi
  have hready := h.ready _ hparted hidle
  have hmem : w ∈ r.words := by simp [h.words]
  obtain ⟨taken, htaken, hsubstance⟩ :=
    hready.isBreak.exists_gap (r.isBreak_word hmem hsemi).1 hready.last_le
    fun l hl hle hlt => hidle.loose l hl (Pos.le_trans hready.le_last hle) hlt
  obtain ⟨shown, hshown, x, hx⟩ := hready.shown
  -- the commas of the stretch are among the words before it
  have hcount : (Word.lexemes r.words).countP (fun l => l.isCommaFrom pen.last &&
      decide (l.pos < w.start)) =
      (Word.lexemes a).countP (Lexeme.isCommaFrom pen.last) := by
    rw [h.words, Word.lexemes_append, List.countP_append]
    have hfront : (Word.lexemes a).countP (fun l => l.isCommaFrom pen.last &&
        decide (l.pos < w.start)) =
        (Word.lexemes a).countP (Lexeme.isCommaFrom pen.last) := by
      refine List.countP_congr fun l hl => ⟨fun hcomma => ((Bool.and_eq_true _ _).mp hcomma).1,
        fun hcomma => ?_⟩
      have hl := Word.mem_lexemes.mp hl
      have hne : l.token ≠ .semicolon := by
        rw [(Lexeme.isCommaFrom_iff.mp hcomma).1]
        decide
      have hlt := r.pos_lt_stop (l := l) (by simp [h.words, hl]) hne
      have hle : l.stop ≤ w.start := hparted.stop_le _ hl (by simpa [Word.isSemicolon] using hne)
      rw [hcomma, Bool.true_and, decide_eq_true_eq]
      exact Nat.lt_of_lt_of_le hlt hle
    have hback : (Word.lexemes (w :: b)).countP (fun l => l.isCommaFrom pen.last &&
        decide (l.pos < w.start)) = 0 := by
      rw [List.countP_eq_zero]
      intro l hl hcomma
      obtain ⟨hcomma, hlt⟩ := (Bool.and_eq_true _ _).mp hcomma
      have hle : w.start ≤ l.pos := hparted.le_start _ (Word.mem_lexemes.mp hl)
        (by rw [Word.isSemicolon, (Lexeme.isCommaFrom_iff.mp hcomma).1]; rfl)
      exact absurd (of_decide_eq_true hlt) (Nat.not_lt_of_le hle)
    rw [hfront, hback, Nat.add_zero]
  rw [hcount] at hsubstance
  have hfits : pen.pending.fits taken = true := by
    rw [hready.since_eq] at hs
    rw [hready.pending]
    exact Separator.fits_of_suits hs hsubstance
  refine ⟨shown ++ taken, taken, Source.slice?_append hshown htaken,
    Pen.sourceGap?_eq_some hsrc htaken ?_ hfits, x, by rw [← hx, List.append_assoc]⟩
  exact SpanSet.not_intersects_mono hidle.unchanged hready.le_last hready.last_le
    (Pos.le_refl _) h.isValid

/-- What stands before an item is taken over. -/
theorem kept (h : r.Poised page a (w :: b) pen s since e)
    (hsrc : page.source = some (Source.ofText cs)) (hsemi : w.isSemicolon = false)
    (hs : since.all s.suits = true) {stop : Pos} {text : String} :
    r.Kept page (pen.emit page w.start stop text).out e w.start := by
  intro hidle
  obtain ⟨gap, taken, hgap, htaken, hout⟩ := h.exists_gap hsrc hsemi hs hidle
  refine ⟨gap, hgap, ?_⟩
  rw [Pen.emit_out_of_gap htaken]
  exact hout.isInfix.trans (List.prefix_append _ _).isInfix

/-- With a token passed over, the source cannot be taken over. -/
theorem lost (hwords : r.words = a ++ b)
    (hbegun : e = .atOffset 0 ∨ ∃ l, .lexeme l ∈ a ∧ l.token.isLoose = false ∧ e = l.stop)
    (hl : .lexeme l ∈ a) (hloose : l.token.isLoose = false) (hle : e ≤ l.pos) :
    r.Poised page a b pen s since e where
  words := hwords
  begun := hbegun
  ready q hq hidle := by
    have hmem : .lexeme l ∈ r.words := by simp [hwords, hl]
    have hsemi := Token.ne_semicolon_of_not_isLoose hloose
    have hstop : l.stop ≤ q := hq.stop_le _ hl (by simpa [Word.isSemicolon] using hsemi)
    have hlt := Nat.lt_of_lt_of_le (r.pos_lt_stop hmem hsemi) hstop
    rw [hidle.loose l (Word.mem_lexemes.mpr hmem) hle hlt] at hloose
    cases hloose

/-- Behind a token that was taken from the source. -/
theorem behind (hwords : r.words = a ++ .lexeme l :: us ++ b) (hus : ∀ w ∈ us, w.isSemicolon = true)
    (hloose : l.token.isLoose = false) (hlast : pen.last = l.stop)
    (hpending : pen.pending = .nothing) :
    r.Poised page (a ++ .lexeme l :: us) b pen .nothing (some 0) l.stop where
  words := hwords
  begun := .inr ⟨l, by simp, hloose, rfl⟩
  ready q hq _ := by
    have hmem : .lexeme l ∈ r.words := by simp [hwords]
    have hsemi : (Word.lexeme l).isSemicolon = false := by
      simpa [Word.isSemicolon] using Token.ne_semicolon_of_not_isLoose hloose
    have hbreak : r.IsBreak l.stop := (r.isBreak_word hmem hsemi).2
    refine ⟨congrArg some (Eq.symm ?_), hpending, hlast ▸ hbreak, hlast ▸ Pos.le_refl _, ?_, ?_⟩
    · rw [hlast, List.countP_eq_zero]
      intro m hm hcomma
      obtain ⟨htoken, hle⟩ := Lexeme.isCommaFrom_iff.mp hcomma
      have hlt := r.pos_lt_stop hmem (Token.ne_semicolon_of_not_isLoose hloose)
      rcases List.mem_append.mp (Word.mem_lexemes.mp hm) with hm | hm
      · have hwords' : r.words = a ++ (.lexeme l :: (us ++ b)) := by simp [hwords]
        have hbefore : m.pos ≤ l.pos := (r.before_of_split hwords' hm List.mem_cons_self).1
        exact absurd hlt (Nat.not_lt_of_le (Pos.le_trans hle hbefore))
      · rcases List.mem_cons.mp hm with heq | hm
        · cases heq
          exact absurd hlt (Nat.not_lt_of_le hle)
        · have hsemi := hus _ hm
          rw [Word.isSemicolon, htoken] at hsemi
          cases hsemi
    · rw [hlast]
      exact hq.stop_le _ (by simp) hsemi
    · obtain ⟨x, y, htext, hpos⟩ := hbreak.isCut
      refine ⟨[], ?_, List.nil_suffix⟩
      rw [hlast]
      exact Source.slice?_eq_some_iff.mpr ⟨x, y, htext, hpos, hpos⟩

theorem gap (h : r.Poised page a b pen s since e) (s' : Separator) :
    r.Poised page a b { pen with pending := s' } s' since e where
  words := h.words
  begun := h.begun
  ready q hq hidle :=
    have hready := h.ready q hq hidle
    ⟨hready.since_eq, rfl, hready.isBreak, hready.le_last, hready.last_le, hready.shown⟩

theorem shift (h : r.Poised page a b pen s since e) (depth : Nat) :
    r.Poised page a b { pen with depth := depth } s since e where
  words := h.words
  begun := h.begun
  ready q hq hidle :=
    have hready := h.ready q hq hidle
    ⟨hready.since_eq, hready.pending, hready.isBreak, hready.le_last, hready.last_le, hready.shown⟩

/-- A semicolon is passed over. -/
theorem semicolon (h : r.Poised page a (.lexeme l :: b) pen s since e) (hl : l.token = .semicolon) :
    r.Poised page (a ++ [.lexeme l]) b pen s since e where
  words := by simp [h.words]
  begun := h.begun.imp id fun ⟨m, hm, h⟩ => ⟨m, List.mem_append_left _ hm, h⟩
  ready q hq hidle := by
    have hsemi : (Word.lexeme l).isSemicolon = true := by
      rw [Word.isSemicolon, hl]
      rfl
    have hparted : Word.Parted a (.lexeme l :: b) q := by
      refine ⟨fun v hv => hq.stop_le v (List.mem_append_left _ hv), List.forall_mem_cons.mpr
        ⟨?_, hq.le_start⟩⟩
      simp [hsemi]
    have hready := h.ready q hparted hidle
    refine ⟨?_, hready.pending, hready.isBreak, hready.le_last, hready.last_le, hready.shown⟩
    rw [hready.since_eq, Word.lexemes_append, List.countP_append]
    simp [Lexeme.isCommaFrom, hl]

/-- A comma is passed over. -/
theorem comma (h : r.Poised page a (.lexeme l :: b) pen s since e) (hl : l.token = .comma) :
    r.Poised page (a ++ [.lexeme l]) b pen s (since.map (· + 1)) e where
  words := by simp [h.words]
  begun := h.begun.imp id fun ⟨m, hm, h⟩ => ⟨m, List.mem_append_left _ hm, h⟩
  ready q hq hidle := by
    have hsemi : (Word.lexeme l).isSemicolon = false := by
      rw [Word.isSemicolon, hl]
      rfl
    have hle : l.pos ≤ q :=
      Pos.le_trans (Pos.le_advance _ _) (hq.stop_le (.lexeme l) (by simp) hsemi)
    -- it stands behind the stretch up to the comma
    have hready := h.ready l.pos (r.parted h.words hsemi)
      (hidle.shorten h.isValid (h.le_start (w := .lexeme l) List.mem_cons_self) hle)
    refine ⟨?_, hready.pending, hready.isBreak, hready.le_last, Pos.le_trans hready.last_le
      hle, hready.shown⟩
    rw [hready.since_eq, Word.lexemes_append, List.countP_append]
    simp [Lexeme.isCommaFrom, hl, hready.last_le]

end Poised

variable (r)

/-- Whether printing along some words takes over the source between the tokens at some places. -/
def Follows (page : Page) (print : Pen → Pen) (ws : List Word) (ps : List Pos) : Prop :=
  ∀ {a b : List Word} {pen : Pen} {s : Separator} {since : Option Nat} {e : Pos},
    r.Poised page a (ws ++ b) pen s since e → since.all s.suits = true →
      ∃ e', r.Covered page (print pen).out e ps e' ∧
      r.Poised page (a ++ ws) b (print pen) .nothing (some 0) e'

theorem follows_token (hsrc : page.source = some (Source.ofText cs))
    (hl : l.token.isLoose = false) :
    r.Follows page (fun pen => pen.token page l.pos l.spelling) [.lexeme l] [l.pos] := by
  intro a b pen s since e h hs
  have hne := Token.ne_semicolon_of_not_isLoose hl
  have hsemi : (Word.lexeme l).isSemicolon = false := by simpa [Word.isSemicolon] using hne
  have hmem : .lexeme l ∈ r.words := by simp [h.words]
  have htext : page.hasText l.pos l.spelling = true := (r.stands hsrc hmem).hasSpelling hne
  have hvalid : l.pos.isValid = true := r.isValid_start_word hmem
  simp only [Pen.token, htext, if_true]
  refine ⟨l.stop, .cons hmem hl (h.kept hsrc hsemi hs) .nil,
    .behind (by simp [h.words]) (List.forall_mem_nil _) hl ?_ rfl⟩
  exact if_pos hvalid

/-- The comment above a node. -/
theorem poised_doc (hsrc : page.source = some (Source.ofText cs)) {g : CommentGroup} {n : Node}
    (hn : g.tree = n.tree) (h : r.Poised page a (.doc g :: b) pen s since e)
    (hs : since.all s.suits = true)
    (hcopy : ∀ text, page.copy? n = some text → pen' = pen.emit page n.start n.stop
      (String.ofList text)) :
    r.Poised page (a ++ [.doc g]) b pen' .nothing (some 0) e where
  words := by simp [h.words]
  begun := h.begun.imp id fun ⟨m, hm, h⟩ => ⟨m, List.mem_append_left _ hm, h⟩
  ready q hq hidle := by
    have hmem : .doc g ∈ r.words := by simp [h.words]
    obtain ⟨hstart, hstop⟩ := r.isBreak_word hmem rfl
    have hlt : n.start < n.stop := by
      have hlt := r.start_lt_stop_word hmem rfl
      rwa [Word.start, Word.stop, hn] at hlt
    have hle : e ≤ n.start := by
      have hle := h.le_start (w := .doc g) List.mem_cons_self
      rwa [Word.start, hn] at hle
    have hle' : n.stop ≤ q := by
      have hle' := hq.stop_le (.doc g) (by simp) rfl
      rwa [Word.stop, hn] at hle'
    have hagrees : page.agrees n.tree = true := by
      rw [← hn]
      exact (r.stands hsrc hmem).2
    have hidle' : r.Idle page.changed e (Word.doc g).start := by
      rw [Word.start, hn]
      exact hidle.shorten h.isValid hle (Pos.le_trans (Nat.le_of_lt hlt) hle')
    -- nothing in the comment changed, so it is copied behind what stands before it
    obtain ⟨gap, taken, hgap, htaken, x, hx⟩ := h.exists_gap hsrc rfl hs hidle'
    rw [Word.start, hn] at hgap htaken hstart
    rw [Word.stop, hn] at hstop
    obtain ⟨text, htext, hslice⟩ := Page.copy?_of_agrees hsrc hstart.isCut hlt hagrees
      (SpanSet.not_intersects_mono hidle.unchanged hle (Nat.le_of_lt hlt) hle' h.isValid)
    have hlast : (pen.emit page n.start n.stop (String.ofList text)).last = n.stop :=
      if_pos hstart.isCut.isValid
    rw [hcopy text htext]
    change pen.sourceGap? page n.start = some taken at htaken
    refine ⟨congrArg some (Eq.symm ?_), rfl, by rwa [hlast], ?_, by rwa [hlast],
      gap ++ text, ?_, x, ?_⟩
    · rw [hlast, List.countP_eq_zero]
      intro m hm hcomma
      obtain ⟨htoken, hpos⟩ := Lexeme.isCommaFrom_iff.mp hcomma
      have hm : .lexeme m ∈ a := by simpa using Word.mem_lexemes.mp hm
      have hne : m.token ≠ .semicolon := by
        rw [htoken]
        decide
      have hbefore :=
        (r.before_of_split h.words hm List.mem_cons_self).2 (by simpa [Word.isSemicolon] using hne)
      rw [Word.start, hn] at hbefore
      have hmlt := r.pos_lt_stop (l := m) (by simp [h.words, hm]) hne
      exact absurd (Nat.lt_of_lt_of_le hmlt (Pos.le_trans hbefore (Nat.le_of_lt hlt)))
        (Nat.not_lt_of_le hpos)
    · rw [hlast]
      exact Pos.le_trans hle (Nat.le_of_lt hlt)
    · rw [hlast]
      exact Source.slice?_append hgap hslice
    · rw [Pen.emit_out_of_gap htaken, ← hx, String.toList_ofList]
      exact (List.append_assoc _ _ _).symm

/-- A node that is copied is taken over with all in it. -/
theorem follows_copy (hsrc : page.source = some (Source.ofText cs)) {n : Node} {text : List Char}
    (h : Spelling page ws n.tree) (hcopy : page.copy? n = some text) :
    r.Follows page (fun pen => pen.emit page n.start n.stop (String.ofList text)) ws
      n.tree.tokenPlaces := by
  intro a b pen s since e hpoised hs
  have hwords := hpoised.words
  have hmem (w : Word) (hw : w ∈ ws) : w ∈ r.words := by simp [hwords, hw]
  have hsub : ws.Sublist r.words := by
    rw [hwords]
    exact (List.sublist_append_left _ _).trans (List.sublist_append_right _ _)
  have hslice := Page.slice?_of_copy? hsrc hcopy
  obtain ⟨w, us, rfl, hsemi, hvalid, hstart⟩ := h.headed fun w hw => r.placed (hmem w hw)
  obtain ⟨x, l, y, ps, hws, hy, hloose, hplaces, hstop⟩ := r.stop_spelling h hsub
  have hold := h.hold fun w hw => r.placed (hmem w hw)
  change n.start = w.start at hstart
  change n.stop = l.stop at hstop
  have hlmem : .lexeme l ∈ r.words := hmem _ (by simp [hws])
  rw [hws] at hsub
  -- all tokens stand within
  have hinside (m : Lexeme) (hm : .lexeme m ∈ w :: us) (hloose' : m.token.isLoose = false) :
      w.start ≤ m.pos ∧ m.stop ≤ n.stop ∧ m.pos ≤ m.stop ∧ r.IsBreak m.pos ∧ r.IsBreak m.stop := by
    have hne := Token.ne_semicolon_of_not_isLoose hloose'
    have hsemi' : (Word.lexeme m).isSemicolon = false := by simpa [Word.isSemicolon] using hne
    refine ⟨?_, ?_, Nat.le_of_lt (r.pos_lt_stop (hmem _ hm) hne), r.isBreak_word (hmem _ hm) hsemi'⟩
    · exact (r.parted hwords hsemi).le_start _ (List.mem_append_left b hm) hsemi'
    · rw [hstop]
      exact (r.stop_last hsub hy hloose).2 _ (hws ▸ hm) hsemi'
  have htext : text <:+: (pen.emit page n.start n.stop (String.ofList text)).out.toList := by
    obtain ⟨gap, hout⟩ := pen.emit_out page n.start n.stop (String.ofList text)
    rw [hout, String.toList_ofList]
    exact ⟨pen.out.toList ++ gap, [], by simp⟩
  have hfirst (m : Lexeme) (hm : .lexeme m ∈ w :: us) (hloose' : m.token.isLoose = false) :
      r.Kept page (pen.emit page n.start n.stop (String.ofList text)).out e m.pos := by
    intro hidle
    obtain ⟨hle, hstop', hle', hbreak, -⟩ := hinside m hm hloose'
    obtain ⟨gap, taken, hgap, htaken, z, hz⟩ := hpoised.exists_gap hsrc hsemi hs
      (hidle.shorten hpoised.isValid (hpoised.le_start List.mem_cons_self) hle)
    rw [← hstart] at hgap htaken
    refine kept_of_slice (Source.slice?_append hgap hslice) ?_
      (Source.isCut_of_slice? hgap).1 hbreak.isCut
      (Pos.le_refl _) (Pos.le_trans hle' hstop') hidle
    rw [Pen.emit_out_of_gap htaken, ← hz, String.toList_ofList]
    exact ⟨z, [], by simp⟩
  have hnext (m m' : Lexeme) (hm : .lexeme m ∈ w :: us) (hm' : .lexeme m' ∈ w :: us)
      (hloose₁ : m.token.isLoose = false) (hloose₂ : m'.token.isLoose = false) :
      r.Kept page (pen.emit page n.start n.stop (String.ofList text)).out m.stop m'.pos := by
    obtain ⟨hle, -, hle', -, hbreak⟩ := hinside m hm hloose₁
    obtain ⟨-, hstop', hle'', hbreak', -⟩ := hinside m' hm' hloose₂
    exact kept_of_slice hslice htext hbreak.isCut hbreak'.isCut (hstart ▸ Pos.le_trans hle hle')
      (Pos.le_trans hle'' hstop')
  obtain ⟨e', hcovered⟩ := Covered.of_hold hmem hold hfirst hnext
  rw [hplaces] at hcovered ⊢
  obtain rfl := hcovered.stop_eq hlmem hloose
  refine ⟨l.stop, hcovered, ?_⟩
  have hlast : (pen.emit page n.start n.stop (String.ofList text)).last = l.stop := by
    rw [← hstop]
    exact if_pos (hstart ▸ hvalid)
  rw [hws, ← List.append_assoc]
  exact .behind (by rw [hwords, hws]; simp) hy hloose hlast rfl

/-! ### Printing along a layout -/

/-- Where a token was passed over, nothing is asked of the printer. -/
theorem Poised.unready {r : FileReading .code cs} (h : r.Poised page a b pen s none e) (pen' : Pen)
    (s' : Separator) : r.Poised page a b pen' s' none e where
  words := h.words
  begun := h.begun
  ready q hq hidle := by cases (h.ready q hq hidle).since_eq

/-- Whether the nodes of a layout are printed so that the source is taken over in them. -/
structure NodesFollow (page : Page) (node : Node → Pen → Pen) (is : List Item) : Prop where
  prints : ∀ n pen, Pen.Prints "" pen (node n pen)
  follows : ∀ (n : Node) ws, .tree n.tree ∈ is → Spelling page ws n.tree →
    r.Follows page (node n) ws n.tree.tokenPlaces
  copies : ∀ n : Node, .tree n.tree ∈ is → ∀ text pen, page.copy? n = some text →
    node n pen = pen.emit page n.start n.stop (String.ofList text)

variable {r} {node : Node → Pen → Pen} {i : Item} {is : List Item}

theorem NodesFollow.tail (h : r.NodesFollow page node (i :: is)) : r.NodesFollow page node is where
  prints := h.prints
  follows n ws hn := h.follows n ws (List.mem_cons_of_mem _ hn)
  copies n hn := h.copies n (List.mem_cons_of_mem _ hn)

/-- What is printed later comes behind. -/
theorem NodesFollow.isInfix (h : r.NodesFollow page node is) (js : List Item) (pen : Pen) :
    pen.out.toList <:+: (js.foldl (Pen.item page node) pen).out.toList :=
  (Pen.foldl_prints (Pen.item_prints h.prints) js pen).isInfix

/-- A token that is laid out behind a tree with later tokens: what is between is not taken over, and
the printer is not ready behind it. -/
theorem Poised.stray {n : Node} (h : r.Poised page (a ++ ws) b pen s since e)
    (hspelling : Spelling page ws n.tree) (hcovered : r.Covered page out e' n.tree.tokenPlaces e)
    (hl : l.token.isLoose = false) (hread : .lexeme l ∈ a ++ ws) (hpos : l.pos ∉ n.tree.positions)
    (pen' : Pen) (out' : String) :
    r.Covered page out' e [l.pos] l.stop ∧ r.Poised page (a ++ ws) b pen' .nothing none l.stop := by
  have hmem (w : Word) (hw : w ∈ ws) : w ∈ r.words := by simp [h.words, hw]
  obtain ⟨x, m, y, ps, rfl, hy, hloose, hplaces⟩ := hspelling.endAt fun w hw => r.placed (hmem w hw)
  rw [hplaces] at hcovered
  obtain rfl := hcovered.stop_eq (hmem _ (by simp)) hloose
  have hlmem : .lexeme l ∈ r.words := by
    rw [h.words]
    exact List.mem_append_left _ hread
  have hsemi := Token.ne_semicolon_of_not_isLoose hl
  -- the last token of the tree stands behind the one that is laid out there
  have hbefore : l.stop ≤ m.pos := by
    rw [← List.append_assoc] at hread
    rcases List.mem_append.mp hread with hl' | hl'
    · have hwords : r.words = (a ++ x) ++ (.lexeme m :: (y ++ b)) := by simp [h.words]
      exact (r.before_of_split hwords hl' List.mem_cons_self).2
        (by simpa [Word.isSemicolon] using hsemi)
    · rcases List.mem_cons.mp hl' with heq | hl'
      · cases heq
        have hin : l.pos ∈ n.tree.tokenPlaces := by simp [hplaces]
        exact absurd ((Tree.tokenPlaces_sublist _).subset hin) hpos
      · exact absurd (by simpa [Word.isSemicolon] using hy _ hl') hsemi
  have hlt : l.pos < m.stop := Nat.lt_of_lt_of_le (r.pos_lt_stop hlmem hsemi)
    (Pos.le_trans hbefore (Pos.le_advance _ _))
  exact ⟨.cons hlmem hl (fun hidle => absurd hlt (Nat.not_lt_of_le hidle.le)) .nil,
    .lost h.words (.inr ⟨l, hread, hl, rfl⟩) (by simp) hloose hbefore⟩

/-- **Along a layout the source is taken over**, if this is so of the nodes in it. -/
theorem NodesFollow.spells (hnodes : r.NodesFollow page node is)
    (hsrc : page.source = some (Source.ofText cs)) (h : Spells page a s since ws is)
    (hpoised : r.Poised page a (ws ++ b) pen s since e) :
    ∃ e', r.Covered page (is.foldl (Pen.item page node) pen).out e
      (is.flatMap Item.tokenPlaces) e' ∧
      r.Poised page (a ++ ws) b (is.foldl (Pen.item page node) pen) .nothing (some 0) e' := by
  induction h generalizing pen e with
  | nil =>
    rw [List.append_nil]
    exact ⟨e, .nil, hpoised⟩
  | gap _ ih => exact ih hnodes.tail (hpoised.gap _)
  | shift hi _ ih =>
    rcases hi with rfl | rfl
    · exact ih hnodes.tail (hpoised.shift _)
    · exact ih hnodes.tail (hpoised.shift _)
  | absent _ ih => exact ih hnodes.tail hpoised
  | semicolon hl _ ih =>
    have hrest := ih hnodes (hpoised.semicolon hl)
    rwa [List.append_assoc] at hrest
  | comma hl _ ih =>
    have hrest := ih hnodes (hpoised.comma hl)
    rwa [List.append_assoc] at hrest
  | @unread read vs ws s since is hvs _ ih =>
    obtain ⟨l, hl, hloose⟩ := hvs
    rw [List.append_assoc] at hpoised
    have hlost : r.Poised page (read ++ vs) (ws ++ b) pen s none e :=
      .lost (by rw [hpoised.words, List.append_assoc])
        (hpoised.begun.imp id fun ⟨m, hm, h⟩ => ⟨m, List.mem_append_left _ hm, h⟩)
        (List.mem_append_right _ hl) hloose
        (hpoised.le_start (w := .lexeme l) (List.mem_append_left _ hl))
    have hrest := ih hnodes hlost
    rwa [List.append_assoc] at hrest
  | bare _ ih => exact ih hnodes.tail (hpoised.unready _ _)
  | @token read ws s since l is hs hl _ ih =>
    obtain ⟨e₁, hcovered, hnext⟩ := r.follows_token hsrc hl hpoised hs
    obtain ⟨e', hcovered', hrest⟩ := ih hnodes.tail hnext
    have hvalid : l.pos.isValid = true :=
      r.isValid_start_word (w := .lexeme l) (by simp [hpoised.words])
    have hplaces : (Item.token l.pos l.spelling).tokenPlaces = [l.pos] := if_pos hvalid
    rw [List.append_assoc] at hrest
    rw [List.flatMap_cons, hplaces]
    exact ⟨e', (hcovered.mono (hnodes.isInfix _ _)).append hcovered', hrest⟩
  | @doc read ws s since g is hs hws _ ih =>
    have hplaced : (Word.doc g).Placed := r.placed (by simp [hpoised.words])
    obtain ⟨n, hn⟩ : ∃ n : Node, g.tree = n.tree := by
      obtain ⟨-, hkind, -⟩ := hplaced
      cases ht : g.tree with
      | node k fs => exact ⟨⟨k, fs⟩, rfl⟩
      | _ => rw [ht] at hkind; cases hkind
    have hnext := r.poised_doc hsrc hn hpoised hs fun text htext =>
      hnodes.copies n (hn ▸ List.mem_cons_self) text pen htext
    obtain ⟨e', hcovered, hrest⟩ := ih hnodes.tail hnext
    have hplaces : (Item.tree g.tree).tokenPlaces = [] := CommentGroup.tokenPlaces_tree hplaced
    rw [List.append_assoc] at hrest
    rw [List.flatMap_cons, hplaces, hn]
    exact ⟨e', hcovered, hrest⟩
  | @tree read vs ws s since t is hs ht _ ih =>
    obtain ⟨n, rfl⟩ := ht.exists_node
    rw [List.append_assoc] at hpoised
    obtain ⟨e₁, hcovered, hnext⟩ := hnodes.follows n vs List.mem_cons_self ht hpoised hs
    obtain ⟨e', hcovered', hrest⟩ := ih hnodes.tail hnext
    rw [List.append_assoc] at hrest
    exact ⟨e', (hcovered.mono (hnodes.isInfix _ _)).append hcovered', hrest⟩
  | @stray read vs ws s since t l is hs ht hl hread hpos _ ih =>
    obtain ⟨n, rfl⟩ := ht.exists_node
    rw [List.append_assoc] at hpoised
    obtain ⟨e₁, hcovered, hnext⟩ := hnodes.follows n vs List.mem_cons_self ht hpoised hs
    have hvalid : l.pos.isValid = true := by
      refine r.isValid_start_word (w := .lexeme l) ?_
      rw [hnext.words]
      exact List.mem_append_left _ hread
    have hplaces : (Item.token l.pos l.spelling).tokenPlaces = [l.pos] := if_pos hvalid
    obtain ⟨hstray, hlost⟩ := hnext.stray ht hcovered hl hread hpos
      (Pen.item page node (Pen.item page node pen (.tree n.tree)) (.token l.pos l.spelling))
      (is.foldl (Pen.item page node) (Pen.item page node (Pen.item page node pen (.tree n.tree))
        (.token l.pos l.spelling))).out
    obtain ⟨e', hcovered', hrest⟩ := ih hnodes.tail.tail hlost
    rw [List.append_assoc] at hrest
    rw [List.flatMap_cons, List.flatMap_cons, hplaces]
    exact ⟨e', (hcovered.mono (hnodes.isInfix (.token l.pos l.spelling :: is) _)).append
      (hstray.append hcovered'), hrest⟩

/-! ### Printing a node -/

variable (r)

/-- No other word begins where a token of a file stands. -/
theorem distinct : Word.Distinct r.words := by
  intro l hl hsemi
  have hpieces (p : Piece) (hp : p ∈ r.pieces) := r.splits.text_ne_nil hp
  have hlmem : l ∈ Word.lexemes r.words ++ [r.last] :=
    List.mem_append_left _ (Word.mem_lexemes.mpr hl)
  have hdoc {g : CommentGroup} (hg : .doc g ∈ r.words) : l.pos ∉ (Word.doc g).positions := by
    obtain ⟨c, ds, line, rfl, hsub, -⟩ := r.exists_of_doc hg
    intro hmem
    have hmem : l.pos ∈ (CommentGroup.ofComments (c :: ds) line).tree.positions := hmem
    obtain ⟨d, hd, hpos⟩ := CommentGroup.mem_positions hmem
    exact r.scans.comment_pos_ne hpieces hlmem hsemi (hsub.subset hd) hpos
  obtain ⟨a, b, hwords⟩ := List.append_of_mem hl
  have horder := (List.pairwise_append.mp (r.scans.pairwise_pos hpieces)).1
  rw [hwords, Word.lexemes_append, Word.lexemes_lexeme] at horder
  obtain ⟨-, hbehind, hfront⟩ := List.pairwise_append.mp horder
  have ha : l.pos ∉ Word.positionsAll a := by
    intro hmem
    obtain ⟨w, hw, hmem⟩ := List.mem_flatMap.mp hmem
    cases w with
    | doc g => exact hdoc (by simp [hwords, hw]) hmem
    | lexeme m =>
      have hlt :=
        hfront m (Word.mem_lexemes.mpr hw) l List.mem_cons_self
        (r.ended.ne_eof (Word.mem_lexemes.mpr hl))
      rw [List.mem_singleton.mp hmem] at hlt
      exact Nat.lt_irrefl _ hlt
  have hb : l.pos ∉ Word.positionsAll b := by
    intro hmem
    obtain ⟨w, hw, hmem⟩ := List.mem_flatMap.mp hmem
    cases w with
    | doc g => exact hdoc (by simp [hwords, hw]) hmem
    | lexeme m =>
      have hm : m ∈ Word.lexemes r.words := Word.mem_lexemes.mpr (by simp [hwords, hw])
      have hlt := (List.pairwise_cons.mp hbehind).1 m (Word.mem_lexemes.mpr hw) (r.ended.ne_eof hm)
      rw [List.mem_singleton.mp hmem] at hlt
      exact Nat.lt_irrefl _ hlt
  refine Nat.le_of_eq ?_
  simp [hwords, Word.positionsAll_append, Word.positionsAll_lexeme, List.count_eq_zero.mpr ha,
    List.count_eq_zero.mpr hb]

variable {r}

/-- The nodes that are laid out are lower than the one they stand in, shaped as it is, and copied or
plain. -/
theorem NodesFollow.of_lays {all ts : List Tree} {ink : Ink} {fs : List Field} {h : Nat}
    (hlays : Lays page all ink fs ts is) (hheight : ∀ m ∈ Tree.nodesAll ts, m.tree.height ≤ h)
    (hshaped : ∀ m ∈ Tree.nodesAll ts, m.Shaped page)
    (hfollow : ∀ (m : Node) ws, m.tree.height ≤ h → (∀ l ∈ m.tree.nodes, l.Shaped page) →
      m.tree.isPlain page = true ∨ (page.copy? m).isSome = true → Spelling page ws m.tree →
      r.Follows page (Pen.node page h m) ws m.tree.tokenPlaces) :
    r.NodesFollow page (Pen.node page h) is := by
  refine ⟨Pen.node_prints page h, fun m ws hm hspelling => ?_, fun m hm text pen hcopy => ?_⟩
  · obtain ⟨hmem, hplain⟩ := hlays.exists_node hm
    exact hfollow m ws (hheight m hmem)
      (fun l hl => hshaped l ((Tree.sublist_nodesAll _ m hmem).subset hl)) hplain
      hspelling
  · exact Pen.node_of_copy (hheight m (hlays.exists_node hm).1) hcopy

variable (r)

/-- **Printing a node takes over the source** between its tokens and before the first. -/
theorem follows_node (hsrc : page.source = some (Source.ofText cs)) {h : Nat} {n : Node}
    (hheight : n.tree.height ≤ h) (hshaped : ∀ m ∈ n.tree.nodes, m.Shaped page)
    (hn : n.tree.isPlain page = true ∨ (page.copy? n).isSome = true)
    (hspelling : Spelling page ws n.tree) :
    r.Follows page (Pen.node page h n) ws n.tree.tokenPlaces := by
  induction h generalizing n ws with
  | zero =>
    rw [Node.tree, Tree.height] at hheight
    omega
  | succ h ih =>
    intro a b pen s since e hpoised hs
    cases hcopy : page.copy? n with
    | some text =>
      rw [Pen.node_of_copy hheight hcopy]
      exact r.follows_copy hsrc hspelling hcopy hpoised hs
    | none =>
      have hmem (w : Word) (hw : w ∈ ws) : w ∈ r.words := by simp [hpoised.words, hw]
      have hsub : ws.Sublist r.words := by
        rw [hpoised.words]
        exact (List.sublist_append_left _ _).trans (List.sublist_append_right _ _)
      have hplaced (w : Word) (hw : w ∈ ws) := r.placed (hmem w hw)
      rw [hcopy] at hn
      rw [Node.tree, Tree.nodes_node, List.forall_mem_cons] at hshaped
      have hlays := hshaped.1.lays (hn.resolve_right Bool.false_ne_true)
      have hspells : Spells page a s since ws (Layout.items page n) :=
        hspelling.spells rfl hcopy (r.distinct.sublist hsub) hplaced hs
      have hplaces : n.tree.tokenPlaces = (Layout.items page n).flatMap Item.tokenPlaces := by
        rw [hlays.tokenPlaces]
        cases hkind : n.kind.isComment with
        | false => exact Tree.tokenPlaces_node hkind n.fields
        | true =>
          obtain ⟨x, l, y, ps, -, -, -, hplaces⟩ := hspelling.endAt hplaced
          rw [Node.tree, Tree.tokenPlaces, hkind] at hplaces
          simp at hplaces
      have hlow (m : Node) (hm : m ∈ Tree.nodesAll n.fields) : m.tree.height ≤ h := by
        have hle := Tree.height_nodesAll _ m hm
        rw [Node.tree, Tree.height] at hheight
        omega
      have hnodes : r.NodesFollow page (Pen.node page h) (Layout.items page n) :=
        .of_lays hlays hlow hshaped.2
          fun m ws hle hshaped hplain hspelling => ih hle hshaped hplain hspelling
      rw [Pen.node_of_not_copied hcopy, hplaces]
      exact hnodes.spells hsrc hspells hpoised

end FileReading

end Graft
