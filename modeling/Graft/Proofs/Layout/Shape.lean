import Graft.Proofs.Layout.Copies

/-! # What the fields of a node hold

The rows of the grammar say what each field of a node holds: the place of a token that stands there
in the source, a node or nothing, or a list of nodes.  `Part.Shape` spells this out for the parts of
a row, so that a layout can be compared with the fields of the node it is made for, and every node
of a file that was read has such a shape (`FileReading.shaped`).

Two kinds of nodes are never laid out by themselves: function types without their keyword, and field
lists in braces.  All others are *plain*.
-/

namespace Graft

namespace Page

variable {page : Page}

theorem hasText_none (text : String) : page.hasText .none text = false := by
  unfold hasText
  split <;> rfl

/-- At one place stands one token, among those of the same length. -/
theorem eq_of_hasText {p : Pos} {s s' : String} (h : page.hasText p s = true)
    (h' : page.hasText p s' = true) (hsize : s.utf8ByteSize = s'.utf8ByteSize) : s = s' := by
  unfold hasText at h h'
  cases hsrc : page.source with
  | none =>
    rw [hsrc] at h
    cases h
  | some src =>
    rw [hsrc] at h h'
    simp only [Bool.and_eq_true, beq_iff_eq] at h h'
    rw [← hsize] at h'
    exact String.toList_inj.mp (Option.some.inj (h.2.symm.trans h'.2))

end Page

/-- Whether a value is a node that is laid out by itself. -/
def Tree.isPlain (page : Page) : Tree → Bool
  | .node .funcType fs => (Node.posOf ⟨.funcType, fs⟩ .func).isValid
  | .node .fieldList fs => !page.hasText (Node.posOf ⟨.fieldList, fs⟩ .opening) "\x7b"
  | .node _ _ => true
  | _ => false

/-- What the trees of a sort of phrase look like. -/
def Phrase.Yields (page : Page) : Phrase → Tree → Prop
  | .parts _, _ => True
  | .doc, t => t = .nil ∨ t.isPlain page = true
  | .opt s, t => t = .nil ∨ s.Yields page t
  | .orEmpty s, t => t = .list [] ∨ s.Yields page t
  | .one s, t => ∃ x, t = .list [x] ∧ s.Yields page x
  | .behind _ s, t => s.Yields page t
  | .more s, t => ∃ xs, t = .list xs ∧ xs ≠ [] ∧ ∀ x ∈ xs, s.Yields page x
  | .fieldNames, t => ∃ xs, t = .list xs ∧ xs ≠ [] ∧ ∀ x ∈ xs, x.isPlain page = true
  | .ended s, t | .trailing s, t | .lines s, t => ∃ xs, t = .list xs ∧ ∀ x ∈ xs, s.Yields page x
  | .member s, t => s.Yields page t ∨ t.isPlain page = true
  | .members s, t => ∃ p xs q, t = .node .fieldList [.pos p, .list xs, .pos q] ∧
      page.hasText p "\x7b" = true ∧ page.hasText q "\x7d" = true ∧
      ∀ x ∈ xs, s.Yields page x ∨ x.isPlain page = true
  | .switchBody, t => ∃ p xs q, t = .node .blockStmt [.pos p, .list xs, .pos q] ∧
      page.hasText p "\x7b" = true ∧ page.hasText q "\x7d" = true ∧ ∀ x ∈ xs, x.isPlain page = true
  | .signature, t => ∃ params results, t = .node .funcType [.pos .none, params, results] ∧
      params.isPlain page = true ∧ (results = .nil ∨ results.isPlain page = true)
  | .bareField, t => ∃ type, t = Rules.plainField [] type ∧ type.isPlain page = true
  | .entry, t => ∃ names type, t = Rules.plainField names type ∧
      (∀ x ∈ names, x.isPlain page = true) ∧ type.isPlain page = true
  | _, t => t.isPlain page = true

/-- What the fields look like that some parts stand for. -/
def Part.Shape (page : Page) : List Part → List Tree → Prop
  | [], ts => ts = []
  | .word _ :: ps, ts | .lineEnd :: ps, ts => Part.Shape page ps ts
  | .mark tok :: ps, ts => ∃ p us, ts = .pos p :: us ∧
      (tok.carriesText = false → page.hasText p tok.text = true) ∧ Part.Shape page ps us
  | .markIn toks :: ps, ts => ∃ p tok us, ts = .pos p :: .tok tok :: us ∧ tok ∈ toks ∧
      (tok.carriesText = false → page.hasText p tok.text = true) ∧ Part.Shape page ps us
  | .unmarked :: ps, ts => ∃ us, ts = .pos .none :: .tok .illegal :: us ∧ Part.Shape page ps us
  | .sub s :: ps, ts => ∃ t us, ts = t :: us ∧ s.Yields page t ∧ Part.Shape page ps us
  | .const t :: ps, ts => ∃ us, ts = t :: us ∧ Part.Shape page ps us
  | .args :: ps, ts =>
    ∃ xs p us, ts = .list xs :: .pos p :: us ∧ (∀ x ∈ xs, x.isPlain page = true) ∧
      (p = .none ∨ page.hasText p "..." = true) ∧ Part.Shape page ps us
  | .targets :: ps, ts => ∃ x y us, ts = x :: y :: us ∧ x.isPlain page = true ∧
      (y = .nil ∨ y.isPlain page = true) ∧ Part.Shape page ps us
  | .params :: ps, ts => ∃ xs us, ts = .list xs :: us ∧ (∀ x ∈ xs, x.isPlain page = true) ∧
      Part.Shape page ps us

theorem Covers.yields {page : Page} {s s' : Phrase} {t : Tree} (h : Covers s s')
    (ht : s'.Yields page t) : s.Yields page t := by
  cases h with
  | opt | orEmpty => exact .inr ht
  | member => exact .inl ht
  | trailingMore =>
    obtain ⟨xs, rfl, -, hxs⟩ := ht
    exact ⟨xs, rfl, hxs⟩
  | _ => exact ht

theorem Row.yields {page : Page} {s : Phrase} {k : Kind} {ps : List Part} {ts : List Tree}
    (h : Row s k ps) (hts : Part.Shape page ps ts) : s.Yields page (.node k ts) := by
  cases h with
  | func =>
    obtain ⟨p, us, rfl, hp, -⟩ := hts
    exact Page.isValid_of_hasText (hp rfl)
  | params =>
    obtain ⟨p, us, rfl, hp, -⟩ := hts
    change (!page.hasText p "\x7b") = true
    cases hbrace : page.hasText p "\x7b" with
    | false => rfl
    | true => exact absurd (Page.eq_of_hasText (hp rfl) hbrace rfl) (by decide)
  | bareResult =>
    obtain ⟨us, rfl, -⟩ := hts
    change (!page.hasText .none "\x7b") = true
    rw [Page.hasText_none]
    rfl
  | signature =>
    obtain ⟨us, rfl, params, us, rfl, hparams, results, us, rfl, hresults, rfl⟩ := hts
    exact ⟨params, results, rfl, hparams, hresults⟩
  | bareField =>
    obtain ⟨us, rfl, us, rfl, x, us, rfl, hx, us, rfl, rfl⟩ := hts
    exact ⟨x, rfl, hx⟩
  | entry | dotsEntry =>
    obtain ⟨us, rfl, us, rfl, x, us, rfl, hx, us, rfl, rfl⟩ := hts
    exact ⟨[], x, rfl, nofun, hx⟩
  | namedEntry =>
    obtain ⟨us, rfl, names, us, rfl, ⟨name, rfl, hname⟩, x, us, rfl, hx, us, rfl, rfl⟩ := hts
    exact ⟨[name], x, rfl, List.forall_mem_singleton.mpr hname, hx⟩
  | members s =>
    obtain ⟨p, us, rfl, hp, t, us, rfl, ⟨xs, rfl, hxs⟩, q, us, rfl, hq, rfl⟩ := hts
    exact ⟨p, xs, q, rfl, hp rfl, hq rfl, hxs⟩
  | switchBody =>
    obtain ⟨p, us, rfl, hp, t, us, rfl, ⟨xs, rfl, hxs⟩, q, us, rfl, hq, rfl⟩ := hts
    exact ⟨p, xs, q, rfl, hp rfl, hq rfl, hxs⟩
  | dotsMember s => exact .inr rfl
  | _ => rfl

/-! ### Derivations -/

namespace Derives

variable {page : Page} {d : Dialect} {s : Phrase} {ws : List Word} {t : Tree}

/-- What an induction over derivations shows of a tree, or of the fields of a node. -/
def Shaping (page : Page) : Phrase → Tree → Prop
  | .parts ps, t => ∃ ts, t = .list ts ∧ Part.Shape page ps ts
  | s, t => s.Yields page t

theorem Shaping.yields (h : Shaping page s t) : s.Yields page t := by
  cases s with
  | parts => trivial
  | _ => exact h

theorem Shaping.of_yields (hs : ∀ ps, s ≠ .parts ps) (h : s.Yields page t) : Shaping page s t := by
  cases s with
  | parts ps => exact absurd rfl (hs ps)
  | _ => exact h

theorem Shaping.parts {ps : List Part} {ts : List Tree} (h : Shaping page (.parts ps) (.list ts)) :
    Part.Shape page ps ts := by
  obtain ⟨us, heq, hus⟩ := h
  cases heq
  exact hus

/-- One more item of a list. -/
theorem Shaping.snoc {ts : List Tree}
    (hts : ∃ xs, Tree.list ts = .list xs ∧ ∀ x ∈ xs, s.Yields page x) (ht : Shaping page s t) :
    ∀ x ∈ ts ++ [t], s.Yields page x := by
  obtain ⟨xs, heq, hxs⟩ := hts
  cases heq
  exact List.forall_mem_append.mpr ⟨hxs, List.forall_mem_singleton.mpr ht.yields⟩

theorem shaping (h : Derives d s ws t) (hws : ∀ w ∈ ws, w.Stands page ∧ w.Placed) :
    Shaping page s t := by
  have left {vs us : List Word} {P : Word → Prop} (h : ∀ w ∈ vs ++ us, P w) : ∀ w ∈ vs, P w :=
    fun w hw => h w (List.mem_append_left _ hw)
  have right {vs us : List Word} {P : Word → Prop} (h : ∀ w ∈ vs ++ us, P w) : ∀ w ∈ us, P w :=
    fun w hw => h w (List.mem_append_right _ hw)
  have tail {v : Word} {us : List Word} {P : Word → Prop} (h : ∀ w ∈ v :: us, P w) :
      ∀ w ∈ us, P w :=
    fun w hw => h w (List.mem_cons_of_mem _ hw)
  induction h with
  | ident | literal | dots | period => rfl
  | noDoc | none | empty => exact .inl rfl
  | endedNil | linesNil => exact ⟨[], rfl, nofun⟩
  | doc g =>
    obtain ⟨-, -, hkind, -⟩ := hws _ List.mem_cons_self
    cases ht : g.tree with
    | node k fs =>
      rw [ht] at hkind
      cases hkind
      exact .inr rfl
    | _ =>
      rw [ht] at hkind
      cases hkind
  | cover hc _ ih => exact .of_yields (by rintro ps rfl; cases hc) (hc.yields (ih hws).yields)
  | node hr _ ih => exact .of_yields (by rintro ps rfl; cases hr) (hr.yields (ih hws).parts)
  | behind _ _ ih => exact (ih (tail hws)).yields
  | spread _ _ ih => exact ih (left hws)
  | one _ _ ih => exact ⟨_, rfl, (ih hws).yields⟩
  | endedComma _ _ ih =>
    obtain ⟨xs, rfl, -, hxs⟩ := ih (left hws)
    exact ⟨xs, rfl, hxs⟩
  | linesSemicolon _ _ ih => exact ih (left hws)
  | more _ _ _ ih₁ ih₂ => exact ⟨_, rfl, by simp, Shaping.snoc (ih₁ (left hws)) (ih₂ (right hws))⟩
  | linesItem _ _ _ ih₁ ih₂ => exact ⟨_, rfl, Shaping.snoc (ih₁ (left hws)) (ih₂ (right hws))⟩
  | firstName _ ih => exact ⟨_, rfl, by simp, List.forall_mem_singleton.mpr (ih hws)⟩
  | nextName _ _ _ ih₁ ih₂ =>
    obtain ⟨xs, heq, -, hxs⟩ := ih₁ (left hws)
    cases heq
    refine ⟨_, rfl, by simp, List.forall_mem_append.mpr ⟨hxs, List.forall_mem_singleton.mpr ?_⟩⟩
    exact ih₂ (tail (right hws))
  | partsNil => exact ⟨_, rfl, rfl⟩
  | word _ _ ih | lineEnd _ _ ih => exact ⟨_, rfl, (ih (tail hws)).parts⟩
  | noLineEnd _ ih => exact ⟨_, rfl, (ih hws).parts⟩
  | mark hl _ ih =>
    subst hl
    have hstands := (hws _ List.mem_cons_self).1
    exact ⟨_, rfl, _, _, rfl, hstands.hasText, (ih (tail hws)).parts⟩
  | markIn hl _ ih =>
    have hstands := (hws _ List.mem_cons_self).1
    exact ⟨_, rfl, _, _, _, rfl, hl, hstands.hasText, (ih (tail hws)).parts⟩
  | unmarked _ ih | const _ ih => exact ⟨_, rfl, _, rfl, (ih hws).parts⟩
  | sub _ _ ih₁ ih₂ => exact ⟨_, rfl, _, _, rfl, (ih₁ (left hws)).yields, (ih₂ (right hws)).parts⟩
  | args _ hspread _ ih₁ ih₂ =>
    obtain ⟨xs, heq, hxs⟩ := ih₁ (left hws)
    cases heq
    refine ⟨_, rfl, _, _, _, rfl, hxs, hspread.imp_right ?_, (ih₂ (right hws)).parts⟩
    rintro ⟨l, hl, ht, rfl, -⟩
    have htext := (left hws _ hl).1.hasText (by rw [ht]; rfl)
    rwa [ht] at htext
  | @targets ps _ _ xs ts _ _ ih₁ ih₂ =>
    obtain ⟨_, heq, hne, hxs⟩ := ih₁ (left hws)
    cases heq
    match xs, hne with
    | [x], _ =>
      exact ⟨_, rfl, _, _, _, rfl, hxs x (by simp), .inl rfl, (ih₂ (right hws)).parts⟩
    | x :: y :: _, _ =>
      exact ⟨_, rfl, _, _, _, rfl, hxs x (by simp), .inr (hxs y (by simp)), (ih₂ (right hws)).parts⟩
  | params _ hfields _ _ ih₂ =>
    refine ⟨_, rfl, _, _, rfl, fun x hx => ?_, (ih₂ (right hws)).parts⟩
    obtain ⟨names, type, rfl, -⟩ := Rules.forall_fieldsOfEntries (P := fun _ => True)
      (Q := fun _ => True) (fun _ _ _ => trivial) hfields (fun _ _ => ⟨fun _ _ => trivial, trivial⟩)
      x hx
    rfl

end Derives

/-! ### Nodes -/

/-- What the nodes of a tree that was read look like: those of the rows, and the few besides. -/
inductive Node.Shaped (page : Page) : Node → Prop where
  | row {s : Phrase} {k : Kind} {ps : List Part} {ts : List Tree} (h : Row s k ps)
      (hts : Part.Shape page ps ts) : Shaped page ⟨k, ts⟩
  | ident {p : Pos} {name : String} (h : page.hasText p name = true) :
    Shaped page ⟨.ident, [.pos p, .str name]⟩
  | literal {p : Pos} {tok : Token} {text : String} (h : page.hasText p text = true) :
    Shaped page ⟨.basicLit, [.pos p, .tok tok, .str text]⟩
  | dots {p : Pos} (h : page.hasText p "..." = true) : Shaped page ⟨.dots, [.pos p]⟩
  | param {names : List Tree} {type : Tree} (hnames : ∀ x ∈ names, x.isPlain page = true)
      (htype : type.isPlain page = true) : Shaped page ⟨.field, [.nil, .list names, type, .nil]⟩
  | comment {p : Pos} {text : String} (h : page.hasText p text = true) :
    Shaped page ⟨.comment, [.pos p, .str text]⟩
  | commentGroup {ts : List Tree} (hne : ts ≠ [])
      (h : ∀ t ∈ ts, ∃ p text, t = .node .comment [.pos p, .str text]) :
    Shaped page ⟨.commentGroup, [.list ts]⟩

/-- There are only comments in a comment. -/
theorem Node.Shaped.isComment_nodes {page : Page} {n : Node} (h : n.Shaped page)
    (hn : n.kind.isComment = true) : ∀ m ∈ n.tree.nodes, m.kind.isComment = true := by
  cases h with
  | row hr =>
    rw [hr.isComment] at hn
    cases hn
  | ident | literal | dots | param => cases hn
  | comment => exact List.forall_mem_singleton.mpr rfl
  | commentGroup _ hts =>
    rw [Node.tree, Tree.nodes_node, List.forall_mem_cons, Tree.nodesAll_singleton, Tree.nodes_list,
      Tree.forall_nodesAll]
    refine ⟨rfl, fun t ht => ?_⟩
    obtain ⟨p, text, rfl⟩ := hts t ht
    exact List.forall_mem_singleton.mpr rfl

theorem Rules.plain_of_mem_fieldsOfEntries {page : Page} {es : List ParamEntry} {fs : List Tree}
    {names : List Tree} {type : Tree} (h : fieldsOfEntries es = .ok fs)
    (hes : ∀ x ∈ es.map (·.field), Phrase.entry.Yields page x) (hmem : plainField names type ∈ fs) :
    (∀ x ∈ names, x.isPlain page = true) ∧ type.isPlain page = true := by
  have hentries := forall_fieldsOfEntries (P := fun x => x.isPlain page = true)
    (Q := fun x => x.isPlain page = true) (fun _ hx _ => hx) h fun e he => by
      obtain ⟨names, type, heq, hnames, htype⟩ := hes _ (List.mem_map_of_mem he)
      cases heq
      exact ⟨hnames, htype⟩
  obtain ⟨names', type', heq, hnames, htype⟩ := hentries _ hmem
  cases heq
  exact ⟨hnames, htype⟩

namespace Derives

variable {page : Page} {d : Dialect} {s : Phrase} {ws : List Word} {t : Tree}

theorem shaped (h : Derives d s ws t) (hs : s.isBare = true)
    (hws : ∀ w ∈ ws, w.Stands page ∧ w.Placed)
    (hdocs : ∀ g, .doc g ∈ ws → ∀ n ∈ g.tree.nodes, n.Shaped page) :
    ∀ n ∈ t.nodes, n.Shaped page := by
  refine h.forall_nodes_of_words
    (Q := fun w => (w.Stands page ∧ w.Placed) ∧ ∀ g, w = .doc g → ∀ n ∈ g.tree.nodes, n.Shaped page)
    ?_ ?_ ?_ ?_ ?_ ?_ (fun h => h.2 _ rfl) hs ?_
  · intro l hl hw
    have htext := hw.1.1.hasSpelling (by rw [hl]; decide)
    rw [Lexeme.spelling_of_carriesText (by rw [hl]; rfl)] at htext
    exact .ident htext
  · intro l hl hw
    have htext := hw.1.1.hasText (by rw [hl]; rfl)
    rw [hl] at htext
    exact .ident htext
  · intro l hl hw
    have hcarries : l.token.carriesText = true ∧ l.token ≠ .semicolon := by
      cases ht : l.token <;> first | exact ⟨rfl, by decide⟩ | (rw [ht] at hl; cases hl)
    have htext := hw.1.1.hasSpelling hcarries.2
    rw [Lexeme.spelling_of_carriesText hcarries.1] at htext
    exact .literal htext
  · intro l hl hw
    have htext := hw.1.1.hasText (by rw [hl]; rfl)
    rw [hl] at htext
    exact .dots htext
  · intro ws es fs hentries hw hfields names type hmem
    obtain ⟨xs, heq, hxs⟩ := hentries.shaping fun w hw' => (hw w hw').1
    cases heq
    obtain ⟨hnames, htype⟩ := Rules.plain_of_mem_fieldsOfEntries hfields hxs hmem
    exact .param hnames htype
  · intro s k ps ws ts hr hparts hw
    exact .row hr (hparts.shaping fun w hw' => (hw w hw').1).parts
  · rintro w hw
    refine ⟨hws w hw, ?_⟩
    rintro g rfl
    exact hdocs g hw

end Derives

end Graft
