import Graft.Proofs.Grammar.Apart
import Graft.Proofs.Grammar.Slots

/-! # Files are laid out in source order

Every node of a file of code stands in the source as the file says (`Node.LaidOut`): its tokens are
where their positions are, it begins at the least of these, the nodes in it stand inside, and the
items of its lists follow each other.

That items do not overlap comes down to where phrases end.  Take a place between two characters
behind all words of a phrase: the text up to there holds all of its words, so its tree agrees with
that text too and cannot end behind it (`FileReading.stop_le`).
-/

namespace Graft

/-! ### The front of a text -/

/-- What stands before a place between two characters stands in the text up to there. -/
theorem Source.slice?_front {a b w : List Char} {p q : Pos}
    (h : (ofText (a ++ b)).slice? ⟨p, q⟩ = some w) (hq : q ≤ .atOffset (byteLength a)) :
    (ofText a).slice? ⟨p, q⟩ = some w := by
  obtain ⟨u, v, htext, rfl, rfl⟩ := slice?_eq_some_iff.mp h
  have hle : byteLength (u ++ w) ≤ byteLength a := by
    rw [byteLength_append]
    exact Nat.le_of_add_le_add_right hq
  have htext : u ++ w ++ v = a ++ b := by
    rw [List.append_assoc]
    exact htext.symm
  obtain ⟨m, rfl, -⟩ := exists_eq_append_of_byteLength_le htext hle
  exact slice?_eq_some_iff.mpr ⟨u, m, List.append_assoc _ _ _, rfl, rfl⟩

/-- A node whose first field is a position begins there. -/
theorem Tree.start_of_head {k : Kind} {p : Pos} {fs : List Tree} (hp : p.isValid = true) :
    (node k (pos p :: fs)).start = p := by
  have hpos : (pos p).start = p := by rw [start]
  rw [start, startAll_of_isValid (by rwa [hpos]), hpos]

/-- A page with a source in which nothing changed. -/
def Page.ofSource (src : Source) : Page := ⟨some src, .ofSpans [], ""⟩

theorem Page.hasText_iff {page : Page} {src : Source} (hsrc : page.source = some src) {p : Pos}
    {text : String} : page.hasText p text = true ↔
      src.slice? ⟨p, p.advance text.utf8ByteSize⟩ = some text.toList := by
  rw [hasText, hsrc]
  simp only [Bool.and_eq_true, beq_iff_eq, and_iff_right_iff_imp]
  exact fun h => (Source.isCut_of_slice? h).1.isValid

namespace FileReading

variable {d : Dialect} {cs : List Char} (r : FileReading d cs)

/-- A word that ends before a place stands in the text up to there. -/
theorem stands_front {a b : List Char} (hcs : cs = a ++ b) {w : Word} (hw : w ∈ r.words)
    (hle : w.isSemicolon = false → w.stop ≤ .atOffset (byteLength a)) :
    w.Stands (.ofSource (.ofText a)) := by
  have hsrc : (Page.ofSource (.ofText cs)).source = some (.ofText cs) := rfl
  cases w with
  | lexeme l =>
    by_cases hsemi : l.token = .semicolon
    · exact .inl hsemi
    · have hstop := hle (by simpa [Word.isSemicolon] using hsemi)
      have htext := (Page.hasText_iff hsrc).mp ((r.stands hsrc hw).hasSpelling hsemi)
      rw [hcs] at htext
      exact .inr ((Page.hasText_iff rfl).mpr (Source.slice?_front htext hstop))
  | doc g =>
    obtain ⟨c, ds, line, rfl, hsub, -⟩ := r.exists_of_doc hw
    refine ⟨rfl, CommentGroup.agrees_tree fun c hc => (Page.hasText_iff rfl).mpr ?_⟩
    have htext := r.slice?_comment (hsub.subset hc)
    have hstop := @CommentGroup.stop_le_stop_tree _ line _ hc
    rw [hcs] at htext
    exact Source.slice?_front htext (Pos.le_trans hstop (hle rfl))

/-- **A phrase ends where its words end at the latest.** -/
theorem stop_le {s : Phrase} {ws : List Word} {t : Tree} {q : Pos} (h : Derives d s ws t)
    (hs : s.isProper = true) (hws : ∀ w ∈ ws, w ∈ r.words) (hq : IsCut cs q)
    (hle : ∀ w ∈ ws, w.isSemicolon = false → w.stop ≤ q) : t.stop ≤ q := by
  obtain ⟨a, b, hcs, rfl⟩ := hq
  have hsrc : (Page.ofSource (.ofText a)).source = some (.ofText a) := rfl
  have hagrees := h.agrees hs fun w hw => r.stands_front hcs (hws w hw) (hle w hw)
  cases hvalid : t.stop.isValid with
  | false =>
    have hnone : t.stop = .none := Pos.eq_none (by simp [hvalid])
    rw [hnone]
    exact Nat.zero_le _
  | true =>
    obtain ⟨a', b', ha, hstop⟩ := Page.isCut_stop hsrc t hagrees hvalid
    have hlength : byteLength a = byteLength a' + byteLength b' := by
      rw [← byteLength_append]
      exact congrArg byteLength ha
    rw [hstop, hlength]
    exact Nat.succ_le_succ (Nat.le_add_right _ _)

/-- Of two phrases of a file, one behind the other, the first ends before the second begins. -/
theorem separate : Word.Separate d r.words := by
  constructor
  intro s s' vs us a b hs hs' hpresent hsub ha hb
  have hvs (v : Word) (hv : v ∈ vs) : v ∈ r.words := hsub.subset (List.mem_append_left _ hv)
  have hus (w : Word) (hw : w ∈ us) : w ∈ r.words := hsub.subset (List.mem_append_right _ hw)
  obtain ⟨horder, hvalid⟩ :=
    (hb.placing (Phrase.isBare_of_isProper hs') (fun w hw => r.placed (hus w hw))
    (r.pairwise_start.sublist ((List.sublist_append_right _ _).trans hsub))).1 hs'
  have hvalid := hvalid hpresent
  -- the second begins where one of its words begins
  obtain ⟨w, hw, hsemi, -, hstart, -⟩ := horder.start (by rwa [Tree.startAll_singleton])
  rw [Tree.startAll_singleton] at hstart
  refine ⟨hvalid, ?_⟩
  rw [hstart]
  refine r.stop_le ha hs hvs (r.isCut_word (hus w hw) hsemi) fun v hv => ?_
  exact ((List.pairwise_append.mp (r.pairwise_words.sublist hsub)).2.2 v hv w hw).2

/-- The comments of a group stand apart. -/
theorem apart_comments {g : CommentGroup} (hg : .doc g ∈ r.words) :
    ∀ n ∈ g.tree.nodes, n.Apart := by
  obtain ⟨c, ds, line, rfl, hsub, -⟩ := r.exists_of_doc hg
  have hcomment (c : Comment) : (Tree.node .comment [.pos c.pos, .str c.text]).stop ≤ c.stop :=
    Nat.max_le.mpr ⟨Pos.le_refl _, Nat.zero_le _⟩
  rw [CommentGroup.ofComments, Tree.nodes_node, List.forall_mem_cons, Tree.nodesAll_singleton,
    Tree.nodes_list, Tree.forall_nodesAll]
  constructor
  · refine List.forall_mem_singleton.mpr (List.pairwise_map.mpr ?_)
    refine (r.scans.pairwise_comments.sublist hsub).imp_of_mem fun {c d} _ hd hle => ?_
    have hvalid := r.isValid_comment (hsub.subset hd)
    rw [Tree.Before, Tree.start_of_head hvalid]
    exact ⟨hvalid, Pos.le_trans (hcomment c) hle⟩
  · intro t ht
    obtain ⟨c, -, rfl⟩ := List.mem_map.mp ht
    exact List.forall_mem_singleton.mpr
      (.leaf (List.forall_mem_cons.mpr ⟨rfl, List.forall_mem_singleton.mpr rfl⟩))

end FileReading

/-! ### Tokens and brackets -/

/-- Whether a text stands in the source at a position. -/
def Source.Has (src : Source) (p : Pos) (text : String) : Prop :=
  src.slice? ⟨p, p.advance text.utf8ByteSize⟩ = some text.toList

/-- The brackets of the lists of fields in nodes of a kind. -/
def Kind.brackets : Kind → String × String
  | .structType | .interfaceType => ("\x7b", "\x7d")
  | _ => ("(", ")")

/-- What it means that a node stands in the source as it says. -/
structure Node.LaidOut (src : Source) (n : Node) : Prop where
  /-- The text of a token stands at its position, if it has one. -/
  tokens : ∀ x ∈ n.kind.fields.zip n.fields, ∀ w p text, x.1.slot = .pos w → x.2 = .pos p →
    p.isValid = true → Tree.tokenText n.fields w = some text → src.Has p text
  /-- A list of fields has both brackets or none, and which ones is a matter of the node it is
  in. -/
  brackets : ∀ m : Node, m.tree ∈ n.fields → m.kind = .fieldList →
    m.posOf .opening = .none ∧ m.posOf .closing = .none ∨
      src.Has (m.posOf .opening) n.kind.brackets.1 ∧ src.Has (m.posOf .closing) n.kind.brackets.2
  /-- The node begins at the least position in it. -/
  first : n.start ∈ n.tree.positions ∧ ∀ p ∈ n.tree.positions, n.start ≤ p
  /-- The nodes in it begin and end inside. -/
  inside : ∀ m ∈ Tree.nodesAll n.fields, n.start ≤ m.start ∧ m.stop ≤ n.stop
  /-- An item of a list ends before the next begins. -/
  apart : ∀ x ∈ n.fields, x.items.Pairwise fun a b => a.stop ≤ b.start

namespace Page

variable {page : Page} {src : Source}

theorem tokenAgrees_of_agreesFields {all ts : List Tree} {fs : List Field}
    (h : page.agreesFields all fs ts = true) : ∀ x ∈ fs.zip ts, ∀ w p, x.1.slot = .pos w →
      x.2 = .pos p →
      page.tokenAgrees all w p = true := by
  induction fs generalizing ts with
  | nil => simp
  | cons f fs ih =>
    cases ts with
    | nil => simp
    | cons t ts =>
      rw [agreesFields.eq_def] at h
      obtain ⟨hhere, hrest⟩ := (Bool.and_eq_true _ _).mp h
      refine List.forall_mem_cons.mpr ⟨fun w p hslot ht => ?_, ih hrest⟩
      dsimp only at hslot ht
      subst ht
      rw [hslot] at hhere
      exact hhere

/-- Where a node agrees with the source, its tokens stand. -/
theorem has_of_agrees (hsrc : page.source = some src) {n : Node} (h : page.agrees n.tree = true) :
    ∀ x ∈ n.kind.fields.zip n.fields, ∀ w p text, x.1.slot = .pos w → x.2 = .pos p →
      p.isValid = true → Tree.tokenText n.fields w = some text → src.Has p text := by
  intro x hx w p text hslot hpos hvalid htext
  rw [Node.tree, agrees] at h
  have htoken := tokenAgrees_of_agreesFields h x hx w p hslot hpos
  unfold tokenAgrees at htoken
  rw [if_pos hvalid, htext] at htoken
  exact (hasText_iff hsrc).mp htoken

end Page

/-- The kinds of nodes with lists of fields. -/
theorem Node.Fits.kind_of_fieldList {n m : Node} (h : n.Fits) (hm : m.tree ∈ n.fields)
    (hkind : m.kind = .fieldList) :
    n.kind ∈ [Kind.structType, .interfaceType, .funcType, .funcDecl] := by
  obtain ⟨k, fs⟩ := m
  cases hkind
  rw [← List.map_snd_zip (Nat.le_of_eq h.length)] at hm
  obtain ⟨⟨f, t⟩, hx, rfl⟩ := List.mem_map.mp hm
  have haccepts : f.slot.accepts (.node .fieldList fs) = true :=
    (h.accepts _ hx).mpr fun _ _ => nofun
  have hslot : f.slot = .node .fieldList := by
    cases hs : f.slot with
    | node c =>
      rw [hs] at haccepts
      have hall : ∀ c ∈ Category.all, Kind.fieldList.isA c = true → c = .fieldList := by decide
      rw [hall c (by cases c <;> decide) haccepts]
    | _ =>
      rw [hs] at haccepts
      cases haccepts
  have hall : ∀ k : Kind, ∀ f ∈ k.fields, f.slot = .node .fieldList →
      k ∈ [Kind.structType, .interfaceType, .funcType, .funcDecl] := by
    intro k
    cases k <;> decide
  exact hall n.kind f (List.of_mem_zip hx).1 hslot

namespace Node.Shaped

variable {page : Page} {src : Source} {n m : Node}

/-- A list of fields that is laid out by itself stands in parentheses, or has no brackets. -/
theorem parens (hsrc : page.source = some src) (h : m.Shaped page) (hkind : m.kind = .fieldList)
    (hplain : m.tree.isPlain page = true) :
    m.posOf .opening = .none ∧ m.posOf .closing = .none ∨
      src.Has (m.posOf .opening) "(" ∧ src.Has (m.posOf .closing) ")" := by
  cases h with
  | row hr hts =>
    cases hkind
    cases hr with
    | params =>
      obtain ⟨p, us, rfl, hp, xs, us, rfl, -, q, us, rfl, hq, rfl⟩ := hts
      exact .inr ⟨(Page.hasText_iff hsrc).mp (hp rfl), (Page.hasText_iff hsrc).mp (hq rfl)⟩
    | bareResult =>
      obtain ⟨us, rfl, x, us, rfl, -, us, rfl, rfl⟩ := hts
      exact .inl ⟨rfl, rfl⟩
    | members =>
      obtain ⟨p, us, rfl, hp, -⟩ := hts
      have hbrace : page.hasText p "\x7b" = true := hp rfl
      change (!page.hasText p "\x7b") = true at hplain
      rw [hbrace] at hplain
      cases hplain
  | _ => cases hkind

/-- A list of fields of a struct or an interface stands in braces. -/
theorem braces (hsrc : page.source = some src) {s : Phrase}
    (h : (Phrase.members s).Yields page m.tree) :
    src.Has (m.posOf .opening) "\x7b" ∧ src.Has (m.posOf .closing) "\x7d" := by
  obtain ⟨k, fs⟩ := m
  obtain ⟨p, xs, q, heq, hp, hq, -⟩ := h
  cases heq
  exact ⟨(Page.hasText_iff hsrc).mp hp, (Page.hasText_iff hsrc).mp hq⟩

/-- The brackets of a list of fields are those of the node it is in. -/
theorem brackets (hsrc : page.source = some src) (h : n.Shaped page) (hn : n.Fits)
    (hm : m.tree ∈ n.fields) (hshaped : m.Shaped page) (hkind : m.kind = .fieldList) :
    m.posOf .opening = .none ∧ m.posOf .closing = .none ∨
      src.Has (m.posOf .opening) n.kind.brackets.1 ∧
      src.Has (m.posOf .closing) n.kind.brackets.2 := by
  have hkinds := hn.kind_of_fieldList hm hkind
  have hopt {t : Tree} (h : t = .nil ∨ t.isPlain page = true) (hm : m.tree = t) : t.isPlain
      page = true :=
    h.resolve_left (by rintro rfl; cases hm)
  cases h with
  | row hr hts =>
    simp only [List.mem_cons, List.not_mem_nil, or_false] at hkinds
    rcases hkinds with rfl | rfl | rfl | rfl
    case inl | inr.inl =>
      cases hr
      obtain ⟨p, us, rfl, -, t, us, rfl, hmembers, rfl⟩ := hts
      simp only [List.mem_cons, List.not_mem_nil, or_false] at hm
      rcases hm with heq | rfl
      · cases heq
      · exact .inr (braces hsrc hmembers)
    case inr.inr.inl ts =>
      refine hshaped.parens hsrc hkind ?_
      obtain ⟨p, params, results, rfl, hparams, hresults⟩ : ∃ p params results,
          ts = [.pos p, params, results] ∧ params.isPlain page = true ∧
            (results = .nil ∨ results.isPlain page = true) := by
        cases hr with
        | func =>
          obtain ⟨p, us, rfl, -, params, us, rfl, hparams, results, us, rfl, hresults, rfl⟩ := hts
          exact ⟨p, params, results, rfl, hparams, hresults⟩
        | signature =>
          obtain ⟨us, rfl, params, us, rfl, hparams, results, us, rfl, hresults, rfl⟩ := hts
          exact ⟨.none, params, results, rfl, hparams, hresults⟩
      simp only [List.mem_cons, List.not_mem_nil, or_false] at hm
      rcases hm with heq | rfl | rfl
      · cases heq
      · exact hparams
      · exact hopt hresults rfl
    case inr.inr.inr =>
      refine hshaped.parens hsrc hkind ?_
      cases hr
      obtain ⟨doc, us, rfl, hdoc, p, us, rfl, -, recv, us, rfl, hrecv, name, us, rfl, hname,
        type, us, rfl, ⟨_, _, rfl, -⟩, body, us, rfl, hbody, rfl⟩ := hts
      simp only [List.mem_cons, List.not_mem_nil, or_false] at hm
      rcases hm with rfl | heq | rfl | rfl | heq | rfl
      · exact hopt hdoc rfl
      · cases heq
      · exact hopt hrecv rfl
      · exact hname
      · cases m
        cases heq
        cases hkind
      · exact hopt hbody rfl
  | _ => simp at hkinds

end Node.Shaped

/-! ### Files -/

/-- A node that begins at its least position has the nodes in it inside. -/
theorem Node.nest_of_firstLeast {n : Node} (hfirst : Pos.FirstLeast n.tree.positions)
    (hvalid : ∀ m ∈ n.tree.nodes, m.start.isValid = true) (hfull : n.tree.Full) :
    (n.start ∈ n.tree.positions ∧ ∀ p ∈ n.tree.positions, n.start ≤ p) ∧
      ∀ m ∈ Tree.nodesAll n.fields, n.start ≤ m.start ∧ m.stop ≤ n.stop := by
  have hnodes : n.tree.nodes = n :: Tree.nodesAll n.fields := by rw [Node.tree, Tree.nodes_node]
  have hleast (p : Pos) (hp : p ∈ n.tree.positions) : n.start ≤ p := Tree.start_le_of_mem hfirst hp
  refine ⟨⟨Tree.start_mem_positions (hvalid n (by simp [hnodes])), hleast⟩, fun m hm => ?_⟩
  have hm : m ∈ n.tree.nodes := by simp [hnodes, hm]
  refine ⟨hleast _ ?_, Tree.stop_nodes_le n.tree hfull m hm⟩
  exact Tree.positions_subset_of_mem_nodes n.tree m hm (Tree.start_mem_positions (hvalid m hm))

namespace FileReading

variable {d : Dialect} {cs : List Char}

theorem mem_nodes_of_code (r : FileReading d cs) {n : Node} (hn : n ∈ Tree.nodesAll r.code) :
    n ∈ r.node.tree.nodes := by
  rw [r.nodes_node]
  exact List.mem_cons_of_mem _ (List.mem_append_left _ hn)

/-- Every node of the code in a file stands somewhere. -/
theorem isValid_start (r : FileReading d cs) :
    ∀ n ∈ Tree.nodesAll r.code, n.start.isValid = true := by
  have hsrc : (Page.ofSource (.ofText cs)).source = some (.ofText cs) := rfl
  have hshaped := r.shaped hsrc
  intro n hn
  cases hkind : n.kind.isComment with
  | false => exact (r.place (r.mem_nodes_of_code hn) hkind).1.isValid
  | true =>
    cases hshaped n hn with
    | row hr =>
      rw [hr.isComment] at hkind
      cases hkind
    | ident | literal | dots | param => cases hkind
    | comment h =>
      have hvalid := Page.isValid_of_hasText h
      rwa [Node.start, Node.tree, Tree.start_of_head hvalid]
    | commentGroup hne hts =>
      obtain ⟨t, us, rfl⟩ := List.exists_cons_of_ne_nil hne
      obtain ⟨p, text, rfl⟩ := hts t List.mem_cons_self
      have hmem : ⟨.comment, [.pos p, .str text]⟩ ∈ Tree.nodesAll r.code :=
        (Tree.sublist_nodesAll _ _ hn).subset (by simp [Node.tree, Tree.nodes, Tree.nodesAll])
      have hvalid : p.isValid = true := by
        cases hshaped _ hmem with
        | row hr => cases hr
        | comment h => exact Page.isValid_of_hasText h
      have hstart : (Tree.node .comment [.pos p, .str text]).start = p := Tree.start_of_head hvalid
      rw [Node.start, Node.tree, Tree.start, Tree.startAll_singleton, Tree.start,
        Tree.startAll_of_isValid (by rwa [hstart]), hstart]
      exact hvalid

/-- The nodes of the code in a file are laid out in source order. -/
theorem laidOut_code (r : FileReading .code cs) :
    ∀ n ∈ Tree.nodesAll r.code, n.LaidOut (.ofText cs) := by
  have hsrc : (Page.ofSource (.ofText cs)).source = some (.ofText cs) := rfl
  have hshaped := r.shaped hsrc
  have hapart := r.code_derives.apart rfl (fun w hw => r.placed hw) r.separate fun g hg =>
    r.apart_comments hg
  rw [Tree.nodes_list] at hapart
  intro n hn
  have hmem := r.mem_nodes_of_code hn
  have hcode {m : Node} (hm : m ∈ n.tree.nodes) : m ∈ Tree.nodesAll r.code :=
    (Tree.sublist_nodesAll _ n hn).subset hm
  obtain ⟨hfirst, hinside⟩ := Node.nest_of_firstLeast (r.nests_code.1 n hn).first
    (fun m hm => r.isValid_start m (hcode hm)) fun m hm => r.full m (r.mem_nodes_of_code (hcode hm))
  refine ⟨?_, fun m hm hkind => ?_, hfirst, hinside, fun x hx => (hapart n hn x hx).imp And.right⟩
  · exact Page.has_of_agrees hsrc (Page.agrees_nodes r.node.tree (r.agrees hsrc) r.full n hmem)
  · have hm' : m ∈ n.tree.nodes := by
      rw [Node.tree, Tree.nodes_node]
      exact List.mem_cons_of_mem _ (Tree.mem_nodesAll.mpr
        ⟨_, hm, by simp [Node.tree, Tree.nodes_node]⟩)
    exact (hshaped n hn).brackets hsrc (r.fits n hmem) hm (hshaped m (hcode hm')) hkind

/-- The file without the list of all comments. -/
theorem set_comments (r : FileReading d cs) :
    r.node.set .comments (.list []) = ⟨.file, r.code ++ [.list []]⟩ := rfl

theorem nodes_set_comments (r : FileReading d cs) : (r.node.set .comments (.list [])).tree.nodes =
    r.node.set .comments (.list []) :: Tree.nodesAll r.code := by
  rw [r.set_comments, Node.tree, Tree.nodes_node, Tree.nodesAll_append]
  exact congrArg _ (List.append_nil _)

theorem start_set_comments (r : FileReading d cs) :
    (r.node.set .comments (.list [])).start = r.node.start := by
  rw [r.set_comments, r.start_node, Node.start, Node.tree, Tree.start, Tree.startAll_append,
    if_pos r.isValid_startAll_code]

/-- A file without the list of all comments is laid out in source order. -/
theorem laidOut_file (r : FileReading .code cs) :
    (r.node.set .comments (.list [])).LaidOut (.ofText cs) := by
  have hsrc : (Page.ofSource (.ofText cs)).source = some (.ofText cs) := rfl
  have hfirst : Pos.FirstLeast (r.node.set .comments (.list [])).tree.positions := by
    rw [r.set_comments, Node.tree, Tree.positions_node, Tree.positionsAll_append]
    exact (List.append_nil _).symm ▸ r.firstLeast_code
  have hvalid : ∀ m ∈ (r.node.set .comments (.list [])).tree.nodes, m.start.isValid = true := by
    rw [r.nodes_set_comments]
    refine List.forall_mem_cons.mpr ⟨?_, r.isValid_start⟩
    rw [r.start_set_comments, r.start_node]
    exact r.isValid_startAll_code
  have hfull : (r.node.set .comments (.list [])).tree.Full := by
    rw [Tree.Full, r.nodes_set_comments]
    exact List.forall_mem_cons.mpr ⟨rfl, fun n hn => r.full n (r.mem_nodes_of_code hn)⟩
  obtain ⟨hleast, hinside⟩ := Node.nest_of_firstLeast hfirst hvalid hfull
  refine ⟨?_, fun m hm hkind => ?_, hleast, hinside, ?_⟩
  · -- the only token of a file is its keyword
    have hpackage := (r.stands hsrc r.package_mem).hasText (by rw [r.package_token]; rfl)
    rw [r.package_token] at hpackage
    intro x hx w p text hslot hpos _ htext
    simp only [r.set_comments, code, Kind.fields, List.cons_append, List.nil_append,
      List.zip_cons_cons, List.zip_nil_right, List.mem_cons, List.not_mem_nil, or_false] at hx
    rcases hx with rfl | rfl | rfl | rfl | rfl
    · cases hslot
    · cases hslot
      cases hpos
      cases htext
      exact (Page.hasText_iff hsrc).mp hpackage
    all_goals cases hslot
  · have hm : m.tree ∈ r.node.fields := by
      rcases List.mem_append.mp (r.set_comments ▸ hm) with hm | hm
      · exact List.mem_append_left _ hm
      · cases List.mem_singleton.mp hm
    have hkinds : Kind.file ∈ [Kind.structType, .interfaceType, .funcType, .funcDecl] :=
      (r.fits r.node (by simp [r.nodes_node])).kind_of_fieldList hm hkind
    exact absurd hkinds (by decide)
  · have hapart := r.code_derives.apart_fields rfl rfl (fun w hw => r.placed hw) r.separate
    refine List.forall_mem_append.mpr ⟨fun x hx => (hapart x hx).imp And.right, ?_⟩
    exact List.forall_mem_singleton.mpr .nil

theorem stop_set_comments (r : FileReading d cs) :
    (r.node.set .comments (.list [])).stop ≤ r.node.stop := by
  exact Pos.max_le_max_left (Pos.max_le_max_left (Pos.max_le_max_left (Pos.max_le_max_left
    (Nat.zero_le _))))

end FileReading

/-- **A file is laid out in source order**, but for the list of all comments: the tokens of every
node stand where it says, it begins at its least position, the nodes in it lie inside, and the items
of lists follow each other.  Without that list the file begins where it begins with it, and ends no
later. -/
theorem parseFile_laidOut {cs : List Char} {file : Node} (h : parseFile .code cs = .ok file) :
    (∀ n ∈ (file.set .comments (.list [])).tree.nodes, n.LaidOut (.ofText cs)) ∧
      (file.set .comments (.list [])).start = file.start ∧
      (file.set .comments (.list [])).stop ≤ file.stop := by
  obtain ⟨r, rfl⟩ := exists_fileReading h
  refine ⟨?_, r.start_set_comments, r.stop_set_comments⟩
  rw [r.nodes_set_comments]
  exact List.forall_mem_cons.mpr ⟨r.laidOut_file, r.laidOut_code⟩

/-- A file with comments above its parts, names that share a type, results without brackets and dots
behind an argument. -/
theorem parseFile_laidOut_shared :
    ∃ file, parseFile .code
        "// a\npackage p\n// b\nfunc f(x, y int, z ...t) q \x7b\nreturn g(x, z...)\n\x7d\n// c\n".toList =
        .ok file ∧
      ∀ n ∈ (file.set .comments (.list [])).tree.nodes, n.LaidOut (.ofText
        "// a\npackage p\n// b\nfunc f(x, y int, z ...t) q \x7b\nreturn g(x, z...)\n\x7d\n// c\n".toList) := by
  obtain ⟨file, hfile⟩ := exists_of_isOk (show (parseFile .code
    "// a\npackage p\n// b\nfunc f(x, y int, z ...t) q \x7b\nreturn g(x, z...)\n\x7d\n// c\n".toList).isOk = true
      by decide +kernel)
  exact ⟨file, hfile, (parseFile_laidOut hfile).1⟩

/-! ### Places within the text -/

namespace FileReading

variable {d : Dialect} {cs : List Char} (r : FileReading d cs)

/-- Every place that a file records lies in its text. -/
theorem le_end {p : Pos} (hp : p ∈ r.node.tree.positions) : p ≤ .atOffset (byteLength cs) := by
  have hcomment {c : Comment} (hc : c ∈ r.comments) : c.pos ≤ .atOffset (byteLength cs) :=
    (Source.isCut_of_slice? (r.slice?_comment hc)).1.le
  have hgroup {g : CommentGroup} (hg : g ∈ r.groups) (hp : p ∈ g.tree.positions) :
      p ≤ .atOffset (byteLength cs) := by
    obtain ⟨ds, line, -, hsub, rfl⟩ := r.groups_comments.exists_comments hg
    obtain ⟨c, hc, rfl⟩ := List.mem_map.mp ((CommentGroup.positions_tree ds line).subset hp)
    exact hcomment (hsub.subset hc)
  have hnode : r.node = ⟨.file, r.code ++ [.list (r.groups.map (·.tree))]⟩ := rfl
  rw [hnode, Node.tree, Tree.positions_node, Tree.positionsAll_append, Tree.positionsAll_singleton,
    Tree.positions_list] at hp
  rcases List.mem_append.mp hp with hp | hp
  · obtain ⟨w, hw, hp⟩ := List.mem_flatMap.mp ((r.code_derives.positions_subperm rfl).subset hp)
    cases w with
    | lexeme l =>
      obtain rfl := List.mem_singleton.mp hp
      have hle := r.scans.pos_le_end r.splits.allSpelled
        (List.mem_append_left _ (Word.mem_lexemes.mpr hw))
      rwa [r.splits.texts_eq, Nat.zero_add] at hle
    | doc g => exact hgroup (r.run.mem_groups hw) hp
  · obtain ⟨t, ht, hp⟩ := Tree.mem_positionsAll.mp hp
    obtain ⟨g, hg, rfl⟩ := List.mem_map.mp ht
    exact hgroup hg hp

/-- Every node of a file ends in its text. -/
theorem stop_le_end {n : Node} (hn : n ∈ r.node.tree.nodes) :
    n.stop ≤ .atOffset (byteLength cs) := by
  let page : Page := ⟨some (Source.ofText cs), .empty, ""⟩
  have hsrc : page.source = some (Source.ofText cs) := rfl
  have hagrees := Page.agrees_nodes r.node.tree (r.agrees hsrc) r.full n hn
  by_cases hvalid : n.stop.isValid = true
  · exact (Page.isCut_stop hsrc n.tree hagrees hvalid).le
  · rw [Pos.eq_none hvalid]
    exact Nat.zero_le _

end FileReading

/-- The places of a file lie in its text, so they fit if that is short enough. -/
theorem parseFile_fits {d : Dialect} {cs : List Char} {file : Node}
    (hcs : byteLength cs < UInt32.size - 1) (h : parseFile d cs = .ok file) :
    (∀ p ∈ file.tree.positions, p.Fits) ∧ ∀ n ∈ file.tree.nodes, n.start.Fits ∧ n.stop.Fits := by
  obtain ⟨r, rfl⟩ := exists_fileReading h
  refine ⟨fun p hp => Pos.fits_of_le hcs (r.le_end hp),
    fun n hn => ⟨?_, Pos.fits_of_le hcs (r.stop_le_end hn)⟩⟩
  by_cases hvalid : n.start.isValid = true
  · exact Pos.fits_of_le hcs
      (r.le_end (Tree.positions_subset_of_mem_nodes _ n hn (Tree.start_mem_positions hvalid)))
  · rw [Pos.eq_none hvalid]
    exact Nat.zero_lt_succ _

end Graft
