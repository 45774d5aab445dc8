import Graft.Proofs.Layout.SourceOrder

/-! # Fields follow each other

In code the nodes in one field of a node end before the nodes in a later field begin
(`Derives.inRow`), as an item of a list ends before the next one begins.

The words of a row stand in the order of its fields.  A phrase ends before any word behind its own
begins (`Word.Lined.le_start`), and no node begins before all of the words it is made of.
-/

namespace Graft

theorem Pos.isValid_of_le {p q : Pos} (hp : p.isValid = true) (h : p ≤ q) : q.isValid = true := by
  rw [isValid, bne_iff_ne] at hp ⊢
  exact fun hq => hp (Nat.le_zero.mp (hq ▸ h))

/-- Whether the nodes of some values end before those of later ones begin. -/
def Tree.InRow (ts : List Tree) : Prop :=
  ts.Pairwise fun x y => ∀ a ∈ x.nodes, ∀ b ∈ y.nodes, a.stop ≤ b.start

namespace Tree.InRow

variable {t u : Tree} {ts us : List Tree}

/-- Values of which all but the first have no nodes. -/
theorem of_silent (h : ∀ u ∈ us, u.nodes = []) : InRow (t :: us) := by
  have hnone {u : Tree} (hu : u ∈ us) {p : Node → Prop} : ∀ b ∈ u.nodes, p b := by
    rw [h u hu]
    exact List.forall_mem_nil _
  refine List.pairwise_cons.mpr ⟨fun u hu a _ => hnone hu, ?_⟩
  exact List.pairwise_of_forall_mem_list fun x _ y hy a _ => hnone hy

/-- A value without nodes before others. -/
theorem cons_silent (ht : t.nodes = []) (h : InRow us) : InRow (t :: us) := by
  refine List.pairwise_cons.mpr ⟨fun u _ a ha => ?_, h⟩
  rw [ht] at ha
  cases ha

theorem of_pairwise (h : ts.Pairwise fun x y => x.stop ≤ y.start) (hfull : ∀ t ∈ ts, t.Full)
    (hfirst : ∀ t ∈ ts, Pos.FirstLeast t.positions)
    (hvalid : ∀ n ∈ nodesAll ts, n.start.isValid = true) :
    InRow ts := by
  refine h.imp_of_mem fun {x y} hx hy hle a ha b hb => ?_
  have hstart : y.start ≤ b.start := start_le_of_mem (hfirst y hy)
    (positions_subset_of_mem_nodes y b hb
      (start_mem_positions (hvalid b (mem_nodesAll.mpr ⟨y, hy, hb⟩))))
  exact Pos.le_trans (stop_nodes_le x (hfull x hx) a ha) (Pos.le_trans hle hstart)

end Tree.InRow

/-- What is known of the words of a file of code. -/
structure Word.Lined (ws : List Word) : Prop where
  placed : ∀ w ∈ ws, w.Placed
  sorted : ws.Pairwise fun v w => v.start ≤ w.start
  ordered : Ordered ws
  separate : Separate .code ws
  full : ∀ g, .doc g ∈ ws → g.tree.Full
  valid : ∀ g, .doc g ∈ ws → ∀ n ∈ g.tree.nodes, n.start.isValid = true
  /-- A phrase ends before a word behind it begins. -/
  le_start : ∀ {s : Phrase} {vs us : List Word} {t : Tree} {w : Word}, s.isProper = true →
    (vs ++ us).Sublist ws → Derives .code s vs t → w ∈ us → w.isSemicolon = false → t.stop ≤ w.start

namespace Word.Lined

variable {vs ws : List Word}

theorem sublist (h : Lined ws) (hsub : vs.Sublist ws) : Lined vs where
  placed w hw := h.placed w (hsub.subset hw)
  sorted := h.sorted.sublist hsub
  ordered := h.ordered.sublist hsub
  separate := h.separate.sublist hsub
  full g hg := h.full g (hsub.subset hg)
  valid g hg := h.valid g (hsub.subset hg)
  le_start hs hvs := h.le_start hs (hvs.trans hsub)

theorem left (h : Lined (vs ++ ws)) : Lined vs := h.sublist (List.sublist_append_left _ _)

theorem right (h : Lined (vs ++ ws)) : Lined ws := h.sublist (List.sublist_append_right _ _)

theorem tail {w : Word} (h : Lined (w :: ws)) : Lined ws := h.sublist (List.sublist_cons_self _ _)

end Word.Lined

/-- What is left of fields that fit behind one part. -/
theorem Part.exists_fits_tail {p : Part} {ps : List Part} {i : Nat} {fs : List Field}
    (h : Part.fits i (p :: ps) fs = true) : ∃ j gs, Part.fits j ps gs = true := by
  unfold Part.fits at h
  grind

namespace Derives

variable {s : Phrase} {ps : List Part} {ws : List Word} {t : Tree} {ts : List Tree}

/-- Comments come from the comments among the words. -/
theorem exists_doc {d : Dialect} (h : Derives d s ws t) (hs : s.isBare = true) :
    ∀ b ∈ t.nodes, b.kind.isComment = true → ∃ g, .doc g ∈ ws ∧ b ∈ g.tree.nodes := by
  refine h.forall_nodes_of_sublists (Q := fun vs => vs ⊆ ws)
    (P := fun b => b.kind.isComment = true → ∃ g, .doc g ∈ ws ∧ b ∈ g.tree.nodes)
    (fun hsub hws => List.Subset.trans hsub.subset hws) (fun _ _ => nofun) (fun _ _ => nofun)
    (fun _ _ => nofun)
    (fun _ _ _ => nofun) (fun _ _ _ _ _ _ => nofun) (fun hr _ _ _ hcomment => ?_)
    (fun hg n hn _ => ⟨_, hg List.mem_cons_self, hn⟩) hs (List.Subset.refl ws)
  rw [hr.isComment] at hcomment
  cases hcomment

/-- A node begins where a word begins or behind it. -/
theorem exists_word_le (h : Derives .code s ws t) (hs : s.isBare = true) (hws : Word.Lined ws)
    (hnodes : ∀ b ∈ t.nodes, b.kind.isComment = false → Begins ws b.start b.stop) :
    ∀ b ∈ t.nodes, b.start.isValid = true ∧ ∃ w ∈ ws, w.isSemicolon = false ∧
      w.start ≤ b.start := by
  intro b hb
  cases hcode : b.kind.isComment with
  | false =>
    obtain ⟨w, hw, hsemi, hvalid, hstart, -⟩ := hnodes b hb hcode
    exact ⟨(hnodes b hb hcode).isValid, w, hw, hsemi, hstart ▸ Pos.le_refl _⟩
  | true =>
    obtain ⟨g, hg, hmem⟩ := h.exists_doc hs b hb hcode
    have hvalid := hws.valid g hg b hmem
    have hsorted := hws.ordered.sublist (List.singleton_sublist.mpr hg)
    have hfirst : Pos.FirstLeast g.tree.positions :=
      (Derives.doc (d := .code) g).firstLeast rfl rfl hsorted
    have hpos := Tree.positions_subset_of_mem_nodes g.tree b hmem (Tree.start_mem_positions hvalid)
    exact ⟨hvalid, .doc g, hg, rfl, Tree.start_le_of_mem hfirst hpos⟩

theorem exists_word_le_fields (h : Derives .code (.parts ps) ws (.list ts))
    (hbare : (Phrase.parts ps).isBare = true) (hws : Word.Lined ws)
    (hfits : ∃ i fs, Part.fits i ps fs = true) :
    ∀ b ∈ Tree.nodesAll ts, ∃ w ∈ ws, w.isSemicolon = false ∧ w.start ≤ b.start := by
  obtain ⟨i, fs, hfits⟩ := hfits
  have hplacing := h.placing hbare hws.placed hws.sorted
  have horder := (hplacing.2 rfl rfl (List.length_replicate (n := i) (a := Tree.nil)) hfits).1.nodes
  exact fun b hb => (h.exists_word_le hbare hws horder.begin b hb).2

theorem isValid_start_nodes (h : Derives .code s ws t) (hs : s.isProper = true)
    (hws : Word.Lined ws) :
    ∀ b ∈ t.nodes, b.start.isValid = true := by
  have hbare := Phrase.isBare_of_isProper hs
  have hplacing := ((h.placing hbare hws.placed hws.sorted).1 hs).1.nodes
  rw [Tree.nodesAll_singleton] at hplacing
  exact fun b hb => (h.exists_word_le hbare hws hplacing.begin b hb).1

theorem stop_le_start {vs us : List Word} {q : Pos} (h : Derives .code s vs t)
    (hs : s.isProper = true) (hws : Word.Lined (vs ++ us))
    (hq : ∃ w ∈ us, w.isSemicolon = false ∧ w.start ≤ q) : t.stop ≤ q := by
  obtain ⟨w, hw, hsemi, hle⟩ := hq
  exact Pos.le_trans (hws.le_start hs (.refl _) h hw hsemi) hle

/-- Where one phrase ends before another begins, so do the nodes inside. -/
theorem cross {s' : Phrase} {vs us : List Word} {x y : Tree} (hx : Derives .code s vs x)
    (hs : s.isProper = true) (hvs : Word.Lined vs) (hy : Derives .code s' us y)
    (hs' : s'.isProper = true) (hus : Word.Lined us) (hbefore : x.stop ≤ y.start) :
    ∀ a ∈ x.nodes, ∀ b ∈ y.nodes, a.stop ≤ b.start := by
  intro a ha b hb
  have hbare := Phrase.isBare_of_isProper hs'
  have hstop : a.stop ≤ x.stop :=
    Tree.stop_nodes_le x (hx.full (Phrase.isBare_of_isProper hs) hvs.full) a ha
  have hstart : y.start ≤ b.start :=
    Tree.start_le_of_mem (hy.firstLeast hbare (Phrase.isFronted_of_isProper hs') hus.ordered)
      (Tree.positions_subset_of_mem_nodes y b hb
        (Tree.start_mem_positions (hy.isValid_start_nodes hs' hus b hb)))
  exact Pos.le_trans hstop (Pos.le_trans hbefore hstart)

/-- The first target of a loop ends before the second begins. -/
theorem targets_cross {x z : Tree} {xs : List Tree}
    (h : Derives .code (.more .expr) ws (.list (x :: z :: xs))) (hws : Word.Lined ws) :
    ∀ a ∈ x.nodes, ∀ b ∈ z.nodes, a.stop ≤ b.start := by
  obtain ⟨-, hbefore⟩ :=
    (List.pairwise_cons.mp (h.inTurn_items rfl hws.placed hws.separate).before).1 z
    List.mem_cons_self
  obtain ⟨vs, hvs, hx⟩ := h.exists_of_mem_items rfl x List.mem_cons_self
  obtain ⟨us, hus, hz⟩ := h.exists_of_mem_items rfl z (List.mem_cons_of_mem _ List.mem_cons_self)
  exact hx.cross rfl (hws.sublist hvs) hz rfl (hws.sublist hus) hbefore

/-- A parameter ends before any word behind the list begins. -/
theorem stop_params_le {us : List Word} {es : List Rules.ParamEntry} {fs : List Tree} {q : Pos}
    (h : Derives .code (.trailing .entry) ws (.list (es.map (·.field))))
    (hws : Word.Lined (ws ++ us)) (hfields : Rules.fieldsOfEntries es = .ok fs)
    (hq : ∃ w ∈ us, w.isSemicolon = false ∧ w.start ≤ q) :
    ∀ a ∈ (Tree.list fs).nodes, a.stop ≤ q := by
  have hpart {x : Tree} (hx : x ∈ es.flatMap (·.parts)) : x.Full ∧ x.stop ≤ q := by
    obtain ⟨s, vs, hs, hvs, hx⟩ := h.exists_of_mem_entries hx
    have hproper : s.isProper = true := by rcases hs with rfl | rfl <;> rfl
    have hws := hws.sublist (hvs.append (.refl us))
    exact ⟨hx.full (Phrase.isBare_of_isProper hproper) hws.left.full,
      hx.stop_le_start hproper hws hq⟩
  rw [Tree.nodes_list, Tree.forall_nodesAll]
  intro f hf
  obtain ⟨names, type, rfl, -⟩ := Rules.forall_fieldsOfEntries (P := fun _ => True)
    (Q := fun _ => True)
    (fun _ _ _ => trivial) hfields (fun _ _ => ⟨fun _ _ => trivial, trivial⟩) f hf
  have hsub := (Rules.sublist_of_mem_fieldsOfEntries hfields hf).subset
  have hnodes {x : Tree} (hx : x ∈ names ++ [type]) : ∀ a ∈ x.nodes, a.stop ≤ q := fun a ha =>
    Pos.le_trans (Tree.stop_nodes_le x (hpart (hsub hx)).1 a ha) (hpart (hsub hx)).2
  rw [Tree.forall_nodes_field]
  refine ⟨Rules.stop_plainField_le fun x hx => (hpart (hsub hx)).2, fun x hx => ?_, ?_⟩
  · exact hnodes (List.mem_append_left _ hx)
  · exact hnodes (List.mem_append_right _ List.mem_cons_self)

/-- The names of a parameter end before its type begins. -/
theorem entries_cross {es : List Rules.ParamEntry} {names : List Tree} {type : Tree}
    (h : Derives .code (.trailing .entry) ws (.list (es.map (·.field)))) (hws : Word.Lined ws)
    (hsub : (names ++ [type]).Sublist (es.flatMap (·.parts))) :
    ∀ x ∈ names, ∀ a ∈ x.nodes, ∀ b ∈ type.nodes, a.stop ≤ b.start := by
  have hparts := (h.inTurn_entries rfl rfl hws.separate).before.sublist hsub
  intro x hx
  obtain ⟨-, hbefore⟩ := (List.pairwise_append.mp hparts).2.2 x hx type List.mem_cons_self
  obtain ⟨s, vs, hs, hvs, hname⟩ :=
    h.exists_of_mem_entries (hsub.subset (List.mem_append_left _ hx))
  obtain ⟨s', us, hs', hus, htype⟩ :=
    h.exists_of_mem_entries (hsub.subset (List.mem_append_right _ List.mem_cons_self))
  have hproper {s : Phrase} (hs : s = .paramType ∨ s = .dots) : s.isProper = true := by
    rcases hs with rfl | rfl <;> rfl
  exact hname.cross (hproper hs) (hws.sublist hvs) htype (hproper hs') (hws.sublist hus) hbefore

/-- **The nodes in the fields of a row follow each other.** -/
theorem inRow_fields (h : Derives .code s ws t) (hs : s = .parts ps) (hbare : s.isBare = true)
    (hws : Word.Lined ws) (hfits : ∃ i fs, Part.fits i ps fs = true) : Tree.InRow t.items := by
  -- a phrase before fields
  have hsub {s : Phrase} {ps : List Part} {vs us : List Word} {x : Tree} {ts : List Tree}
      (hs : s.isProper = true)
      (hx : Derives .code s vs x) (hp : Derives .code (.parts ps) us (.list ts))
      (hbare : (Phrase.parts ps).isBare = true) (hws : Word.Lined (vs ++ us))
      (hfits : ∃ i fs, Part.fits i ps fs = true) :
      ∀ y ∈ ts, ∀ a ∈ x.nodes, ∀ b ∈ y.nodes, a.stop ≤ b.start := by
    intro y hy a ha b hb
    have hword :=
      hp.exists_word_le_fields hbare hws.right hfits b (Tree.mem_nodesAll.mpr ⟨y, hy, hb⟩)
    have hfull := hx.full (Phrase.isBare_of_isProper hs) hws.left.full
    exact Pos.le_trans (Tree.stop_nodes_le x hfull a ha) (hx.stop_le_start hs hws hword)
  have htail {p : Part} {ps : List Part} (h : ∃ i fs, Part.fits i (p :: ps) fs = true) :
      ∃ i fs, Part.fits i ps fs = true := by
    obtain ⟨i, fs, h⟩ := h
    exact Part.exists_fits_tail h
  induction h generalizing ps with
  | partsNil => exact .nil
  | word _ _ ih | lineEnd _ _ ih =>
    cases hs
    exact ih rfl hbare hws.tail (htail hfits)
  | noLineEnd _ ih =>
    cases hs
    exact ih rfl hbare hws (htail hfits)
  | mark _ _ ih =>
    cases hs
    exact (ih rfl hbare hws.tail (htail hfits)).cons_silent rfl
  | markIn _ _ ih =>
    cases hs
    exact ((ih rfl hbare hws.tail (htail hfits)).cons_silent rfl).cons_silent rfl
  | unmarked _ ih =>
    cases hs
    exact ((ih rfl hbare hws (htail hfits)).cons_silent rfl).cons_silent rfl
  | const _ ih =>
    cases hs
    obtain ⟨hsilent, hrest⟩ := (Bool.and_eq_true _ _).mp hbare
    exact (ih rfl hrest hws (htail hfits)).cons_silent (Part.isBare_const hsilent).1
  | sub hx hp _ ih =>
    cases hs
    obtain ⟨hproper, hrest⟩ := (Bool.and_eq_true _ _).mp hbare
    exact List.pairwise_cons.mpr ⟨hsub hproper hx hp hrest hws (htail hfits),
      ih rfl hrest hws.right (htail hfits)⟩
  | args hxs _ hp _ ih =>
    cases hs
    refine List.pairwise_cons.mpr ⟨List.forall_mem_cons.mpr ⟨fun _ _ _ => nofun, ?_⟩, ?_⟩
    · exact hsub rfl hxs hp hbare hws (htail hfits)
    · exact (ih rfl hbare hws.right (htail hfits)).cons_silent rfl
  | @targets _ _ _ xs _ hxs hp _ ih =>
    cases hs
    have hrest := ih rfl hbare hws.right (htail hfits)
    have hcross := hsub rfl hxs hp hbare hws (htail hfits)
    have hitem {x : Tree} (hx : x ∈ xs) : ∀ a ∈ x.nodes, a ∈ (Tree.list xs).nodes := fun a ha => by
      rw [Tree.nodes_list]
      exact Tree.mem_nodesAll.mpr ⟨x, hx, ha⟩
    match xs with
    | [] => exact (hrest.cons_silent rfl).cons_silent rfl
    | [x] =>
      refine List.pairwise_cons.mpr ⟨List.forall_mem_cons.mpr ⟨fun _ _ _ => nofun, ?_⟩,
        hrest.cons_silent rfl⟩
      exact fun y hy a ha => hcross y hy a (hitem List.mem_cons_self a ha)
    | x :: z :: xs =>
      have hx : x ∈ x :: z :: xs := List.mem_cons_self
      have hz : z ∈ x :: z :: xs := List.mem_cons_of_mem _ List.mem_cons_self
      refine List.pairwise_cons.mpr ⟨List.forall_mem_cons.mpr ⟨?_,
        fun y hy a ha => hcross y hy a (hitem hx a ha)⟩, List.pairwise_cons.mpr ⟨fun y hy a ha =>
        hcross y hy a (hitem hz a ha), hrest⟩⟩
      exact hxs.targets_cross hws.left
  | params hes hfields hp _ ih =>
    cases hs
    refine List.pairwise_cons.mpr ⟨fun y hy a ha b hb => ?_, ih rfl hbare hws.right (htail hfits)⟩
    have hword :=
      hp.exists_word_le_fields hbare hws.right (htail hfits) b (Tree.mem_nodesAll.mpr ⟨y, hy, hb⟩)
    exact hes.stop_params_le hws hfields hword a ha
  | cover hc => cases hs; cases hc
  | node hr => cases hs; cases hr
  | _ => cases hs

/-- **In a tree of code the nodes in the fields of every node follow each other.** -/
theorem inRow (h : Derives .code s ws t) (hs : s.isBare = true) (hws : Word.Lined ws)
    (hdocs : ∀ g, .doc g ∈ ws → ∀ n ∈ g.tree.nodes, Tree.InRow n.fields) :
    ∀ n ∈ t.nodes, Tree.InRow n.fields := by
  refine h.forall_nodes_of_sublists (P := fun n => Tree.InRow n.fields)
    (Q := fun ws => Word.Lined ws ∧ ∀ g, Word.doc g ∈ ws → ∀ n ∈ g.tree.nodes, Tree.InRow n.fields)
    (fun hsub hws => ⟨hws.1.sublist hsub, fun g hg => hws.2 g (hsub.subset hg)⟩) ?_ ?_ ?_
    (fun hd => by cases hd)
    ?_ ?_ (fun hws => hws.2 _ List.mem_cons_self) hs ⟨hws, hdocs⟩
  · exact fun _ _ => .of_silent (List.forall_mem_singleton.mpr rfl)
  · exact fun _ _ => .of_silent (List.forall_mem_singleton.mpr rfl)
  · exact fun _ _ => .of_silent (List.forall_mem_cons.mpr ⟨rfl, List.forall_mem_singleton.mpr rfl⟩)
  · intro ws es fs hes hws hfields names type hmem
    have hsub := Rules.sublist_of_mem_fieldsOfEntries hfields hmem
    refine Tree.InRow.cons_silent rfl (List.pairwise_cons.mpr
      ⟨List.forall_mem_cons.mpr ⟨?_, List.forall_mem_singleton.mpr fun _ _ => nofun⟩,
        Tree.InRow.of_silent (List.forall_mem_singleton.mpr rfl)⟩)
    rw [Tree.nodes_list, Tree.forall_nodesAll]
    exact hes.entries_cross hws.1 hsub
  · exact fun hr hp hbare hws => hp.inRow_fields rfl hbare hws.1 ⟨0, _, hr.fits_of_isBare hbare⟩

end Derives

/-- The nodes of a comment group have one field or no nodes in them. -/
theorem CommentGroup.inRow_ofComments (cs : List Comment) (lastLine : Nat) :
    ∀ n ∈ (ofComments cs lastLine).tree.nodes, Tree.InRow n.fields := by
  rw [ofComments, Tree.nodes_node, List.forall_mem_cons, Tree.nodesAll_singleton, Tree.nodes_list,
    Tree.forall_nodesAll]
  refine ⟨.of_silent (List.forall_mem_nil _), fun t ht => ?_⟩
  obtain ⟨c, -, rfl⟩ := List.mem_map.mp ht
  exact List.forall_mem_singleton.mpr (.of_silent (List.forall_mem_singleton.mpr rfl))

/-- Comments stand at some place, and end behind their beginning. -/
theorem CommentGroup.start_le_stop_ofComments {c : Comment} {cs : List Comment} (lastLine : Nat)
    (hvalid : ∀ d ∈ c :: cs, d.pos.isValid = true) :
    ∀ n ∈ (ofComments (c :: cs) lastLine).tree.nodes, n.start.isValid = true ∧
      n.start ≤ n.stop := by
  have hstart := @CommentGroup.start_tree cs lastLine c (hvalid c List.mem_cons_self)
  have hstop := @CommentGroup.stop_le_stop_tree (c :: cs) lastLine c List.mem_cons_self
  rw [ofComments] at hstart hstop ⊢
  rw [Tree.nodes_node, List.forall_mem_cons, Tree.nodesAll_singleton, Tree.nodes_list,
    Tree.forall_nodesAll]
  refine ⟨?_, fun t ht => ?_⟩
  · rw [Node.start, Node.tree, hstart]
    exact ⟨hvalid c List.mem_cons_self, Pos.le_trans (Pos.le_advance _ _) hstop⟩
  · obtain ⟨d, hd, rfl⟩ := List.mem_map.mp ht
    refine List.forall_mem_singleton.mpr ?_
    rw [Node.start, Node.tree, Tree.start_of_head (hvalid d hd)]
    exact ⟨hvalid d hd, Pos.le_trans (Pos.le_advance _ _) (Pos.le_max_left _ _)⟩

/-- **Every node of a file stands somewhere**, and ends behind its beginning. -/
theorem FileReading.start_le_stop {d : Dialect} {cs : List Char} (r : FileReading d cs) :
    ∀ n ∈ r.node.tree.nodes, n.start.isValid = true ∧ n.start ≤ n.stop := by
  intro n hn
  cases hkind : n.kind.isComment with
  | false =>
    obtain ⟨-, hlt⟩ := r.place hn hkind
    exact ⟨(r.nodesInOrder.begin n hn hkind).isValid, Nat.le_of_lt hlt⟩
  | true =>
    obtain ⟨g, hg, hmem⟩ : ∃ g ∈ r.groups, n ∈ g.tree.nodes := by
      rw [r.nodes_node, List.mem_cons, List.mem_append, Tree.nodes_list] at hn
      rcases hn with rfl | hn | hn
      · cases hkind
      · obtain ⟨g, hg, hmem⟩ := r.code_derives.exists_doc rfl n (by rwa [Tree.nodes_list]) hkind
        exact ⟨g, r.run.mem_groups hg, hmem⟩
      · obtain ⟨t, ht, hn⟩ := Tree.mem_nodesAll.mp hn
        obtain ⟨g, hg, rfl⟩ := List.mem_map.mp ht
        exact ⟨g, hg, hn⟩
    obtain ⟨ds, line, hne, hsub, rfl⟩ := r.groups_comments.exists_comments hg
    obtain ⟨c, ds, rfl⟩ := List.exists_cons_of_ne_nil hne
    exact CommentGroup.start_le_stop_ofComments line
      (fun d hd => r.isValid_comment (hsub.subset hd)) n hmem

namespace FileReading

variable {cs : List Char} (r : FileReading .code cs)

theorem lined : Word.Lined r.words where
  placed _ hw := r.placed hw
  sorted := r.pairwise_start
  ordered := r.ordered
  separate := r.separate
  full g hg := by
    obtain ⟨c, ds, line, rfl, -⟩ := r.exists_of_doc hg
    exact CommentGroup.full_ofComments _ _
  valid g hg := by
    obtain ⟨c, ds, line, rfl, hsub, -⟩ := r.exists_of_doc hg
    have hvalid (d : Comment) (hd : d ∈ c :: ds) : d.pos.isValid = true :=
      r.isValid_comment (hsub.subset hd)
    exact fun n hn => (CommentGroup.start_le_stop_ofComments line hvalid n hn).1
  le_start {s vs us t w} hs hsub ht hw hsemi := by
    have hmem (v : Word) (hv : v ∈ vs ++ us) : v ∈ r.words := hsub.subset hv
    refine r.stop_le ht hs (fun v hv => hmem v (List.mem_append_left _ hv))
      (r.isCut_word (hmem w (List.mem_append_right _ hw)) hsemi) fun v hv => ?_
    exact ((List.pairwise_append.mp (r.pairwise_words.sublist hsub)).2.2 v hv w hw).2

/-- **The nodes in the fields of every node of the code follow each other.** -/
theorem inRow_fields : Tree.InRow r.code ∧ ∀ n ∈ Tree.nodesAll r.code, Tree.InRow n.fields := by
  have hnodes := r.code_derives.inRow rfl r.lined fun g hg => by
    obtain ⟨c, ds, line, rfl, -⟩ := r.exists_of_doc hg
    exact CommentGroup.inRow_ofComments _ _
  rw [Tree.nodes_list] at hnodes
  exact ⟨r.code_derives.inRow_fields rfl rfl r.lined ⟨0, Kind.fields .file, rfl⟩, hnodes⟩

/-- The items of every list of the code follow each other. -/
theorem inRow_items : (∀ x ∈ r.code, Tree.InRow x.items) ∧
    ∀ n ∈ Tree.nodesAll r.code, ∀ x ∈ n.fields, Tree.InRow x.items := by
  have hrow {x : Tree} (hx : x.nodes ⊆ Tree.nodesAll r.code)
      (hitems : ∀ y ∈ x.items, y.kind?.isSome = true)
      (hapart : x.items.Pairwise fun a b => a.stop ≤ b.start) : Tree.InRow x.items := by
    have hmem : Tree.nodesAll x.items ⊆ Tree.nodesAll r.code := by
      cases x with
      | list ts => rwa [Tree.nodes_list] at hx
      | _ => exact List.nil_subset _
    have hin {y : Tree} (hy : y ∈ x.items) : y.nodes ⊆ Tree.nodesAll r.code := fun n hn =>
      hmem (Tree.mem_nodesAll.mpr ⟨y, hy, hn⟩)
    refine .of_pairwise hapart (fun y hy n hn => r.full n (r.mem_nodes_of_code (hin hy hn)))
      (fun y hy => ?_)
      fun n hn => (r.start_le_stop n (r.mem_nodes_of_code (hmem hn))).1
    cases y with
    | node k fs =>
      exact (r.nests_code.1 ⟨k, fs⟩
        (hin hy (by rw [Tree.nodes_node]; exact List.mem_cons_self))).first
    | _ => cases hitems _ hy
  constructor
  · intro x hx
    refine hrow (fun n hn => Tree.mem_nodesAll.mpr ⟨x, hx, hn⟩) (r.nests_code.2 x hx).2 ?_
    exact r.laidOut_file.apart x (List.mem_append_left _ hx)
  · intro n hn x hx
    have hnodes : n.tree.nodes ⊆ Tree.nodesAll r.code := (Tree.sublist_nodesAll _ n hn).subset
    rw [Node.tree, Tree.nodes_node] at hnodes
    refine hrow (fun m hm => ?_) ((r.nests_code.1 n hn).fields x hx).2
      ((r.laidOut_code n hn).apart x hx)
    exact hnodes (List.mem_cons_of_mem _ (Tree.mem_nodesAll.mpr ⟨x, hx, hm⟩))

end FileReading

end Graft
