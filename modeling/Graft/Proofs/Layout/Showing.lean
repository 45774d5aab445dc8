import Graft.Proofs.Layout.Lays
import Graft.Proofs.Layout.Spared

/-! # The copies in a printed text

What the printer writes is a row of copies with other text between (`Shows`).  Layouts follow the
fields of a node, so the copies come in the order of the nodes, and no node that could be copied is
left out: it is copied by itself or within another.  The exceptions are function types, which may be
laid out within their parents.

`FileReading.shows` says so of a whole file, for the nodes that a test `P` picks out.
-/

namespace Graft

/-! ### The nodes of a layout -/

/-- The nodes an item has. -/
def Item.nodes : Item → List Node
  | .tree t => t.nodes
  | _ => []

/-- Whether the second list lacks nodes of the first, but none that `P` picks out. -/
def Trims (P : Node → Bool) (ns ms : List Node) : Prop := ms.Sublist ns ∧ ns.filter P = ms.filter P

namespace Trims

variable {P : Node → Bool} {ns ns' ms ms' : List Node} {n : Node}

theorem refl (ns : List Node) : Trims P ns ns := ⟨.refl ns, rfl⟩

theorem append (h : Trims P ns ms) (h' : Trims P ns' ms') : Trims P (ns ++ ns') (ms ++ ms') :=
  ⟨h.1.append h'.1, by rw [List.filter_append, List.filter_append, h.2, h'.2]⟩

theorem skip (h : Trims P ns ms) (hn : P n = false) : Trims P (n :: ns) ms :=
  ⟨h.1.cons n, by rw [List.filter_cons_of_neg (by simp [hn]), h.2]⟩

end Trims

/-- Whether a test picks out nodes that can be copied, and are copied unless their parent is. -/
def PicksCopies (page : Page) (P : Node → Bool) : Prop :=
  ∀ n, P n = true → n.kind ≠ .funcType ∧ n.kind.isComment = false ∧ (page.copy? n).isSome = true

namespace Lays

variable {page : Page} {P : Node → Bool} {all ts : List Tree} {m : Ink} {fs : List Field}
  {is : List Item}

/-- A layout has the nodes of the fields in order, except for those laid out within their
parents. -/
theorem trims (hP : PicksCopies page P) (h : Lays page all m fs ts is) :
    Trims P (Tree.nodesAll ts) (is.flatMap Item.nodes) := by
  induction h with
  | nil => exact .refl _
  | @pause _ _ _ _ i is hi _ _ ih =>
    have hnodes : i.nodes = [] := by
      cases i <;> first | rfl | cases hi
    rwa [List.flatMap_cons, hnodes]
  | bare _ _ ih | absent _ ih => exact ih
  | @silent _ _ _ _ _ t _ ht _ ih =>
    have hnodes : t.nodes = [] := by
      match t, ht with
      | .pos _, _ | .nil, _ | .str _, _ | .tok _, _ | .list [], _ => rfl
    rwa [Tree.nodesAll, hnodes]
  | token _ _ _ _ _ ih => exact ih
  | tree _ _ ih | copied _ _ ih =>
    rw [Tree.nodesAll, List.flatMap_cons]
    exact (Trims.refl _).append ih
  | item _ _ ih =>
    rw [Tree.nodesAll, Tree.nodes_list] at ih
    rw [Tree.nodesAll, Tree.nodes_list, Tree.nodesAll, List.flatMap_cons, List.append_assoc]
    exact (Trims.refl _).append ih
  | @opened _ gs _ _ _ _ k _ _ hk _ _ _ ih ih' =>
    rw [Tree.nodesAll, Tree.nodes_node, List.flatMap_append]
    have hopened : P ⟨k, gs⟩ = false := by
      cases hpick : P ⟨k, gs⟩ with
      | false => rfl
      | true =>
        obtain ⟨hfunc, -, hcopy⟩ := hP _ hpick
        rcases hk with hk | hk
        · exact absurd hk hfunc
        · rw [hk] at hcopy
          cases hcopy
    exact (ih.skip hopened).append ih'

/-- The values that a layout has as trees are nodes that are laid out by themselves or copied. -/
theorem tree_cases (h : Lays page all m fs ts is) {t : Tree} (ht : .tree t ∈ is) :
    t = .nil ∨ ∃ n : Node, t = n ∧ (n.tree.isPlain page = true ∨ (page.copy? n).isSome = true) := by
  have hplain {x : Tree} (hx : x.isPlain page = true) :
      ∃ n : Node, x = n ∧ (n.tree.isPlain page = true ∨ (page.copy? n).isSome = true) := by
    cases x with
    | node k gs => exact ⟨⟨k, gs⟩, rfl, .inl hx⟩
    | _ => cases hx
  induction h with
  | nil => cases ht
  | pause hi _ _ ih =>
    rcases List.mem_cons.mp ht with rfl | ht
    · cases hi
    · exact ih ht
  | bare _ _ ih | token _ _ _ _ _ ih =>
    rcases List.mem_cons.mp ht with heq | ht
    · cases heq
    · exact ih ht
  | absent _ ih =>
    rcases List.mem_cons.mp ht with heq | ht
    · cases heq
      exact .inl rfl
    · exact ih ht
  | silent _ _ ih => exact ih ht
  | tree hx _ ih | item hx _ ih =>
    rcases List.mem_cons.mp ht with heq | ht
    · cases heq
      exact .inr (hplain hx)
    · exact ih ht
  | copied hn _ ih =>
    rcases List.mem_cons.mp ht with heq | ht
    · cases heq
      exact .inr ⟨_, rfl, .inr hn⟩
    · exact ih ht
  | opened _ _ _ _ ih ih' =>
    rcases List.mem_append.mp ht with ht | ht
    · exact ih ht
    · exact ih' ht

end Lays

/-! ### Copies in a text -/

/-- Whether a text has the copies of some nodes in order. -/
inductive Shows (page : Page) : List Char → List Node → Prop where
  | rest (w : List Char) : Shows page w []
  | copy (gap : List Char) {n : Node} {text w : List Char} {ns : List Node}
      (hn : page.copy? n = some text) (h : Shows page w ns) : Shows page (gap ++ (text ++ w))
      (n :: ns)

namespace Shows

variable {page : Page} {v w : List Char} {ms ns : List Node}

theorem behind (u : List Char) (h : Shows page w ns) : Shows page (u ++ w) ns := by
  cases h with
  | rest w => exact .rest _
  | copy gap hn h =>
    rw [← List.append_assoc]
    exact .copy _ hn h

theorem append (h : Shows page v ms) (h' : Shows page w ns) : Shows page (v ++ w) (ms ++ ns) := by
  induction h with
  | rest v => exact h'.behind v
  | copy gap hn _ ih =>
    rw [List.append_assoc, List.append_assoc]
    exact .copy gap hn ih

end Shows

/-! ### The printer -/

/-- Whether the printer adds a text that shows, of the given nodes, those that `P` picks out. -/
def Pen.Adds (page : Page) (P : Node → Bool) (pen pen' : Pen) (ns : List Node) : Prop :=
  ∃ w cs, pen'.out.toList = pen.out.toList ++ w ∧ Shows page w cs ∧ (∀ c ∈ cs, c ∈ ns) ∧
    ns.filter P = (Tree.nodesAll (cs.map Node.tree)).filter P

namespace Pen

variable {page : Page} {P : Node → Bool} {pen pen' pen'' : Pen} {ns ns' ms : List Node}

namespace Adds

theorem refl (pen : Pen) : Adds page P pen pen [] := ⟨[], [], by simp, .rest [], nofun, rfl⟩

theorem trans (h : Adds page P pen pen' ns) (h' : Adds page P pen' pen'' ns') :
    Adds page P pen pen'' (ns ++ ns') := by
  obtain ⟨w, cs, hout, hshows, hmem, hcs⟩ := h
  obtain ⟨w', cs', hout', hshows', hmem', hcs'⟩ := h'
  refine ⟨w ++ w', cs ++ cs', by rw [hout', hout, List.append_assoc], hshows.append hshows', ?_, ?_⟩
  · exact List.forall_mem_append.mpr ⟨fun c hc => List.mem_append_left _ (hmem c hc),
      fun c hc => List.mem_append_right _ (hmem' c hc)⟩
  · rw [List.map_append, Tree.nodesAll_append, List.filter_append, List.filter_append, hcs, hcs']

theorem of_trims (h : Adds page P pen pen' ms) (hns : Trims P ns ms) : Adds page P pen pen' ns := by
  obtain ⟨w, cs, hout, hshows, hmem, hcs⟩ := h
  exact ⟨w, cs, hout, hshows, fun c hc => hns.1.subset (hmem c hc), hns.2.trans hcs⟩

end Adds

theorem emit_out (pen : Pen) (page : Page) (start stop : Pos) (text : String) :
    ∃ gap, (pen.emit page start stop text).out.toList = pen.out.toList ++ (gap ++ text.toList) := by
  obtain ⟨gap, hout⟩ : ∃ gap, (pen.emit page start stop text).out = pen.out ++ gap ++ text :=
    ⟨_, rfl⟩
  exact ⟨gap.toList, by rw [hout]; simp⟩

theorem token_adds (pen : Pen) (page : Page) (p : Pos) (text : String) :
    Adds page P pen (pen.token page p text) [] := by
  unfold token
  split
  · obtain ⟨gap, hout⟩ := pen.emit_out page p (p.advance text.utf8ByteSize) text
    exact ⟨_, [], hout, .rest _, nofun, rfl⟩
  · obtain ⟨gap, hout⟩ := pen.emit_out page .none .none text
    exact ⟨_, [], hout, .rest _, nofun, rfl⟩

theorem copy_adds {n : Node} {text : List Char} (hn : page.copy? n = some text) (pen : Pen)
    (start stop : Pos) :
    Adds page P pen (pen.emit page start stop (String.ofList text)) n.tree.nodes := by
  obtain ⟨gap, hout⟩ := pen.emit_out page start stop (String.ofList text)
  rw [String.toList_ofList] at hout
  have hshows := Shows.copy gap hn (.rest [])
  rw [List.append_nil] at hshows
  refine ⟨_, [n], hout, hshows, List.forall_mem_singleton.mpr ?_, ?_⟩
  · rw [Node.tree, Tree.nodes_node]
    exact List.mem_cons_self
  · rw [List.map_singleton, Tree.nodesAll_singleton]

/-- What is added along a layout, where `node` prints a node. -/
theorem foldl_adds {node : Node → Pen → Pen} {is : List Item}
    (h : ∀ t : Tree, .tree t ∈ is →
      t = .nil ∨ ∃ n : Node, t = n ∧ ∀ pen, Adds page P pen (node n pen) n.tree.nodes) (pen : Pen) :
    Adds page P pen (is.foldl (item page node) pen) (is.flatMap Item.nodes) := by
  induction is generalizing pen with
  | nil => exact .refl pen
  | cons i is ih =>
    have hitem : Adds page P pen (item page node pen i) i.nodes := by
      cases i with
      | gap | deeper | shallower => exact .refl pen
      | token p text => exact token_adds pen page p text
      | tree t =>
        rcases h t List.mem_cons_self with rfl | ⟨n, rfl, hn⟩
        · exact .refl pen
        · exact hn pen
    exact hitem.trans (ih (fun t ht => h t (List.mem_cons_of_mem _ ht)) _)

end Pen

namespace Tree

mutual

theorem height_nodes (t : Tree) : ∀ n ∈ t.nodes, n.tree.height ≤ t.height := by
  match t with
  | .list ts =>
    rw [nodes, height]
    exact fun n hn => Nat.le_succ_of_le (height_nodesAll ts n hn)
  | .node k fs =>
    have hheight : (Tree.node k fs).height = heightAll fs + 1 := by rw [height]
    rw [nodes_node]
    refine List.forall_mem_cons.mpr ⟨Nat.le_refl _, fun n hn => ?_⟩
    rw [hheight]
    exact Nat.le_succ_of_le (height_nodesAll fs n hn)
  | .nil | .pos _ | .str _ | .tok _ =>
    rw [nodes] <;> nofun

theorem height_nodesAll (ts : List Tree) : ∀ n ∈ nodesAll ts, n.tree.height ≤ heightAll ts := by
  match ts with
  | [] => nofun
  | t :: ts =>
    rw [nodesAll, heightAll, List.forall_mem_append]
    exact ⟨fun n hn => Nat.le_trans (height_nodes t n hn) (Nat.le_max_left ..),
      fun n hn => Nat.le_trans (height_nodesAll ts n hn) (Nat.le_max_right ..)⟩

end

mutual

/-- The nodes of a node in a tree are in the tree, in the same order. -/
theorem sublist_nodes (t : Tree) : ∀ n ∈ t.nodes, n.tree.nodes.Sublist t.nodes := by
  match t with
  | .list ts =>
    rw [nodes]
    exact sublist_nodesAll ts
  | .node k fs =>
    have hnodes : (Tree.node k fs).nodes = ⟨k, fs⟩ :: nodesAll fs := nodes_node k fs
    rw [hnodes]
    refine List.forall_mem_cons.mpr ⟨?_, fun n hn => (sublist_nodesAll fs n hn).cons _⟩
    rw [← hnodes]
    exact .refl (Tree.node k fs).nodes
  | .nil | .pos _ | .str _ | .tok _ =>
    rw [nodes] <;> nofun

theorem sublist_nodesAll (ts : List Tree) :
    ∀ n ∈ nodesAll ts, n.tree.nodes.Sublist (nodesAll ts) := by
  match ts with
  | [] => nofun
  | t :: ts =>
    rw [nodesAll, List.forall_mem_append]
    exact ⟨fun n hn => (sublist_nodes t n hn).trans (List.sublist_append_left ..),
      fun n hn => (sublist_nodesAll ts n hn).trans (List.sublist_append_right ..)⟩

end

end Tree

namespace Pen

variable {page : Page} {P : Node → Bool}

/-- Along a layout the nodes of the fields are printed. -/
theorem foldl_adds_of_lays (hP : PicksCopies page P) {node : Node → Pen → Pen} {all ts : List Tree}
    {ink : Ink} {fs : List Field} {is : List Item} (hlays : Lays page all ink fs ts is)
    (hnode : ∀ m ∈ Tree.nodesAll ts, m.tree.isPlain page = true ∨ (page.copy? m).isSome = true →
      ∀ pen, Adds page P pen (node m pen) m.tree.nodes) (pen : Pen) :
    Adds page P pen (is.foldl (item page node) pen) (Tree.nodesAll ts) := by
  have htrims := hlays.trims hP
  refine (foldl_adds (fun t ht => ?_) pen).of_trims htrims
  rcases hlays.tree_cases ht with rfl | ⟨m, rfl, hm⟩
  · exact .inl rfl
  · refine .inr ⟨m, rfl, hnode m (htrims.1.subset (List.mem_flatMap.mpr ⟨_, ht, ?_⟩)) hm⟩
    rw [Item.nodes, Node.tree, Tree.nodes_node]
    exact List.mem_cons_self

theorem not_picked (hP : PicksCopies page P) {n : Node} (hcopy : page.copy? n = none) :
    P n = false := by
  cases hpick : P n with
  | false => rfl
  | true =>
    obtain ⟨-, -, hsome⟩ := hP n hpick
    rw [hcopy] at hsome
    cases hsome

/-- **A node is printed with the copies of all nodes in it** that can be copied. -/
theorem node_adds (hP : PicksCopies page P) {h : Nat} {n : Node} (hheight : n.tree.height ≤ h)
    (hshaped : ∀ m ∈ n.tree.nodes, m.Shaped page)
    (hn : n.tree.isPlain page = true ∨ (page.copy? n).isSome = true) (pen : Pen) :
    Adds page P pen (node page h n pen) n.tree.nodes := by
  induction h generalizing n pen with
  | zero =>
    rw [Node.tree, Tree.height] at hheight
    omega
  | succ h ih =>
    have hnodes : n.tree.nodes = n :: Tree.nodesAll n.fields := by rw [Node.tree, Tree.nodes_node]
    cases hcopy : page.copy? n with
    | some text =>
      rw [node, hcopy]
      exact copy_adds hcopy pen n.span.start n.span.stop
    | none =>
      rw [hcopy] at hn
      rw [hnodes, List.forall_mem_cons] at hshaped
      have hlays := hshaped.1.lays (hn.resolve_right Bool.false_ne_true)
      rw [node_of_not_copied hcopy, hnodes]
      refine (foldl_adds_of_lays hP hlays (fun m hm hm' pen => ?_) pen).of_trims
        ((Trims.refl _).skip (not_picked hP hcopy))
      have hle := Tree.height_nodesAll _ m hm
      rw [Node.tree, Tree.height] at hheight
      exact ih (by omega) (fun l hl => hshaped.2 l ((Tree.sublist_nodesAll _ m hm).subset hl)) hm'
        pen

end Pen

/-! ### Files -/

theorem CommentGroup.shaped {page : Page} {ds : List Comment} (lastLine : Nat) (hne : ds ≠ [])
    (h : ∀ c ∈ ds, page.hasText c.pos c.text = true) :
    ∀ n ∈ (ofComments ds lastLine).tree.nodes, n.Shaped page := by
  rw [ofComments, Tree.nodes_node, List.forall_mem_cons, Tree.nodesAll_singleton, Tree.nodes_list,
    Tree.forall_nodesAll]
  refine ⟨.commentGroup (by simpa using hne) fun t ht => ?_, fun t ht => ?_⟩
  · obtain ⟨c, -, rfl⟩ := List.mem_map.mp ht
    exact ⟨_, _, rfl⟩
  · obtain ⟨c, hc, rfl⟩ := List.mem_map.mp ht
    exact List.forall_mem_singleton.mpr (.comment (h c hc))

namespace FileReading

variable {d : Dialect} {cs : List Char} (r : FileReading d cs) {page : Page} {P : Node → Bool}

/-- Every node of a file has a shape. -/
theorem shaped (hsrc : page.source = some (Source.ofText cs)) :
    ∀ n ∈ Tree.nodesAll r.code, n.Shaped page := by
  have hwords {ws : List Word} (h : ∀ w ∈ ws, w ∈ r.words) : ∀ w ∈ ws, w.Stands page ∧ w.Placed :=
    fun w hw => ⟨r.stands hsrc (h w hw), r.placed (h w hw)⟩
  have hdocs {ws : List Word} (h : ∀ w ∈ ws, w ∈ r.words) (g : CommentGroup) (hg : .doc g ∈ ws) :
      ∀ n ∈ g.tree.nodes, n.Shaped page := by
    obtain ⟨ds, line, hne, hsub, rfl⟩ :=
      r.groups_comments.exists_comments (r.run.mem_groups (h _ hg))
    exact CommentGroup.shaped line hne fun c hc => r.hasText_comment hsrc (hsub.subset hc)
  rw [Tree.forall_nodesAll, code]
  simp only [List.forall_mem_cons]
  refine ⟨?_, List.forall_mem_nil _, ?_, ?_, List.forall_mem_nil _⟩
  · exact r.doc_derives.shaped rfl (hwords (by simp +contextual [FileWords.words]))
      (hdocs (by simp +contextual [FileWords.words]))
  · exact r.name_derives.shaped rfl (hwords (by simp +contextual [FileWords.words]))
      (hdocs (by simp +contextual [FileWords.words]))
  · exact r.decls_derive.shaped rfl (hwords (by simp +contextual [FileWords.words]))
      (hdocs (by simp +contextual [FileWords.words]))

/-- The layout of a file follows its fields but for the list of all comments. -/
theorem lays (hsrc : page.source = some (Source.ofText cs)) :
    Lays page r.node.fields .none (Kind.fields .file).dropLast r.code
      (Layout.items page r.node) := by
  have hwords {ws : List Word} (h : ∀ w ∈ ws, w ∈ r.words) : ∀ w ∈ ws, w.Stands page ∧ w.Placed :=
    fun w hw => ⟨r.stands hsrc (h w hw), r.placed (h w hw)⟩
  have hdoc : Phrase.doc.Yields page _ :=
    (r.doc_derives.shaping (hwords (by simp +contextual [FileWords.words]))).yields
  have hname : Phrase.ident.Yields page _ :=
    (r.name_derives.shaping (hwords (by simp +contextual [FileWords.words]))).yields
  obtain ⟨xs, heq, hxs⟩ : (Phrase.lines .decl).Yields page _ :=
    (r.decls_derive.shaping (hwords (by simp +contextual [FileWords.words]))).yields
  cases heq
  have hpackage := (r.stands hsrc r.package_mem).hasText (by rw [r.package_token]; rfl)
  rw [r.package_token] at hpackage
  rw [node, FileWords.file, Layout.items]
  simp only [List.append_assoc]
  exact .doc hdoc (.token _ rfl rfl hpackage (.gap _ (.tree hname (Lays.preceded _ hxs .nil).last)))

/-- **What a printed file shows**: the copies of its nodes, each copied by itself or within another,
in order. -/
theorem shows (hP : PicksCopies page P) (hsrc : page.source = some (Source.ofText cs)) (pen : Pen) :
    Pen.Adds page P pen (Pen.node page r.node.tree.height r.node pen) r.node.tree.nodes := by
  obtain ⟨h, hheight⟩ : ∃ h, r.node.tree.height = h + 1 := ⟨_, by rw [Node.tree, Tree.height]⟩
  rw [hheight]
  cases hcopy : page.copy? r.node with
  | some text =>
    rw [Pen.node, hcopy]
    exact Pen.copy_adds hcopy pen _ _
  | none =>
    have hcomments : Trims P (Tree.list (r.groups.map (·.tree))).nodes [] := by
      refine ⟨List.nil_sublist _, List.filter_eq_nil_iff.mpr fun n hn hpick => ?_⟩
      obtain ⟨-, hcode, -⟩ := hP n hpick
      rw [r.isComment_comments n hn] at hcode
      cases hcode
    have hnodes : Trims P r.node.tree.nodes (Tree.nodesAll r.code) := by
      rw [r.nodes_node]
      have htrims :=
        ((Trims.refl (Tree.nodesAll r.code)).append hcomments).skip (Pen.not_picked hP hcopy)
      rwa [List.append_nil] at htrims
    rw [Pen.node_of_not_copied hcopy]
    refine (Pen.foldl_adds_of_lays hP (r.lays hsrc) (fun m hm hm' pen => ?_) pen).of_trims hnodes
    have hle : m.tree.height ≤ h := by
      have hcode : Tree.nodesAll r.code ⊆ Tree.nodesAll r.node.fields := by
        rw [node, FileWords.file]
        exact (Tree.nodesAll_sublist (List.sublist_append_left r.code _)).subset
      have hle := Tree.height_nodesAll _ m (hcode hm)
      rw [Node.tree, Tree.height] at hheight
      omega
    exact Pen.node_adds hP hle
      (fun l hl => r.shaped hsrc l ((Tree.sublist_nodesAll _ m hm).subset hl)) hm' pen

end FileReading

end Graft
