import Graft.Proofs.Grammar.Order

/-! # The nodes of a tree stand in order

A node begins where one of its words begins.  The words stand in order, so the nodes of a tree do:
of two nodes the one that comes first in the tree begins first (`Derives.inOrder`).  The names in a
parameter list are the exception — a wildcard among them comes before them in the tree — so the
order is claimed for statements and declarations, each behind whatever comes before it.
-/

namespace Graft

/-- Whether nodes of the kind are comments or groups of them. -/
def Kind.isComment : Kind → Bool
  | .comment | .commentGroup => true
  | _ => false

/-- Whether nodes of the kind are statements or declarations. -/
def Kind.isStmtOrDecl (k : Kind) : Bool := k.isA .stmt || k.isA .decl

theorem Kind.isComment_of_isStmtOrDecl {k : Kind} (h : k.isStmtOrDecl = true) :
    k.isComment = false := by
  cases k <;> first | rfl | cases h

namespace Tree

/-- Whether a value is a node that is no comment. -/
def isCode : Tree → Bool
  | node k _ => !k.isComment
  | _ => false

theorem exists_of_isCode {t : Tree} (h : t.isCode = true) :
    ∃ k fs, t = node k fs ∧ k.isComment = false := by
  cases t with
  | node k fs => exact ⟨k, fs, rfl, by simpa [isCode] using h⟩
  | _ => cases h

theorem nodesAll_append (ts us : List Tree) : nodesAll (ts ++ us) = nodesAll ts ++ nodesAll us := by
  induction ts with
  | nil => rfl
  | cons t ts ih => rw [List.cons_append, nodesAll, nodesAll, ih, List.append_assoc]

theorem nodesAll_sublist {ts us : List Tree} (h : ts.Sublist us) :
    (nodesAll ts).Sublist (nodesAll us) := by
  induction h with
  | slnil => exact .slnil
  | cons t _ ih => exact ih.trans (List.sublist_append_right _ _)
  | cons_cons t _ ih => exact List.Sublist.append (.refl _) ih

theorem startAll_append (ts us : List Tree) :
    startAll (ts ++ us) = if (startAll ts).isValid then startAll ts else startAll us := by
  induction ts with
  | nil => rfl
  | cons t ts ih =>
    rw [List.cons_append, startAll, startAll]
    split
    · rfl
    · exact ih

theorem startAll_singleton (t : Tree) : startAll [t] = t.start := by
  rw [startAll, startAll]
  split
  · rfl
  · rename_i h
    exact (Pos.eq_none h).symm

theorem stopAll_le_iff {ts : List Tree} {p : Pos} : stopAll ts ≤ p ↔ ∀ t ∈ ts, t.stop ≤ p := by
  induction ts with
  | nil => exact ⟨fun _ => nofun, fun _ => Nat.zero_le _⟩
  | cons t ts ih =>
    rw [stopAll, List.forall_mem_cons, ← ih, Pos.le_def, Pos.index_max, Pos.le_def, Pos.le_def]
    omega

theorem nodesAll_singleton (t : Tree) : nodesAll [t] = t.nodes := by
  rw [nodesAll, nodesAll, List.append_nil]

mutual

/-- Without a place a value has no nodes with a place. -/
theorem not_isValid_nodes (t : Tree) (h : t.start.isValid = false) :
    ∀ n ∈ t.nodes, n.start.isValid = false := by
  match t with
  | list ts =>
    rw [start] at h
    rw [nodes]
    exact not_isValid_nodesAll ts h
  | node k fs =>
    rw [nodes, List.forall_mem_cons]
    refine ⟨h, not_isValid_nodesAll fs ?_⟩
    rwa [start] at h
  | nil | pos _ | str _ | tok _ => exact List.forall_mem_nil _

theorem not_isValid_nodesAll (ts : List Tree) (h : (startAll ts).isValid = false) :
    ∀ n ∈ nodesAll ts, n.start.isValid = false := by
  match ts with
  | [] => exact List.forall_mem_nil _
  | t :: ts =>
    rw [startAll] at h
    rw [nodesAll, List.forall_mem_append]
    split at h
    · rename_i hvalid
      rw [hvalid] at h
      cases h
    · rename_i hvalid
      exact ⟨not_isValid_nodes t (by simpa using hvalid), not_isValid_nodesAll ts h⟩

end

end Tree

/-! ### Values in order -/

/-- Whether one of the words begins at `p` and ends at `q` at the latest. -/
def Begins (ws : List Word) (p q : Pos) : Prop :=
  ∃ w ∈ ws, w.isSemicolon = false ∧ w.start.isValid = true ∧ p = w.start ∧ w.stop ≤ q

theorem Begins.isValid {ws : List Word} {p q : Pos} (h : Begins ws p q) : p.isValid = true := by
  obtain ⟨w, -, -, hvalid, rfl, -⟩ := h
  exact hvalid

theorem Begins.mono {ws ws' : List Word} {p q q' : Pos} (h : Begins ws p q)
    (hws : ∀ w ∈ ws, w ∈ ws') (hq : q ≤ q') : Begins ws' p q' := by
  obtain ⟨w, hw, hsemi, hvalid, rfl, hle⟩ := h
  exact ⟨w, hws w hw, hsemi, hvalid, rfl, Pos.le_trans hle hq⟩

/-- Whether a node that is no comment begins before another, or where that begins, if that is a
statement or a declaration. -/
def Node.Precedes (n m : Node) : Prop :=
  n.kind.isComment = false → m.kind.isStmtOrDecl = true → n.start ≤ m.start

/-- Whether nodes stand in order, each at the place of a word. -/
structure NodesInOrder (ws : List Word) (ns : List Node) : Prop where
  begin : ∀ n ∈ ns, n.kind.isComment = false → Begins ws n.start n.stop
  sorted : ns.Pairwise Node.Precedes

namespace NodesInOrder

variable {ws ws' : List Word} {ns ns' : List Node}

theorem mono (h : NodesInOrder ws ns) (hws : ∀ w ∈ ws, w ∈ ws') : NodesInOrder ws' ns where
  begin n hn hcode := (h.begin n hn hcode).mono hws (Pos.le_refl _)
  sorted := h.sorted

theorem sublist (h : NodesInOrder ws ns) (hsub : ns'.Sublist ns) : NodesInOrder ws ns' where
  begin n hn := h.begin n (hsub.subset hn)
  sorted := h.sorted.sublist hsub

theorem begin_stmt (h : NodesInOrder ws ns) {m : Node} (hm : m ∈ ns)
    (hkind : m.kind.isStmtOrDecl = true) : Begins ws m.start m.stop :=
  h.begin m hm (Kind.isComment_of_isStmtOrDecl hkind)

theorem append (h : NodesInOrder ws ns) (h' : NodesInOrder ws ns')
    (hcross : ∀ n ∈ ns, ∀ m ∈ ns', n.Precedes m) : NodesInOrder ws (ns ++ ns') where
  begin := List.forall_mem_append.mpr ⟨h.begin, h'.begin⟩
  sorted := List.pairwise_append.mpr ⟨h.sorted, h'.sorted, hcross⟩

end NodesInOrder

/-- Whether values that end at `q` and their nodes stand in order, each at the place of a word. -/
structure InOrder (ws : List Word) (ts : List Tree) (q : Pos) : Prop where
  start : (Tree.startAll ts).isValid = true → Begins ws (Tree.startAll ts) q
  first : ∀ m ∈ Tree.nodesAll ts, m.kind.isStmtOrDecl = true → Tree.startAll ts ≤ m.start
  nodes : NodesInOrder ws (Tree.nodesAll ts)

namespace InOrder

variable {ws ws' : List Word} {ts ts' : List Tree} {t : Tree} {q q' r : Pos}

theorem mono (h : InOrder ws ts q) (hws : ∀ w ∈ ws, w ∈ ws') (hq : q ≤ q') : InOrder ws' ts q' where
  start hvalid := (h.start hvalid).mono hws hq
  first := h.first
  nodes := h.nodes.mono hws

theorem of_no_nodes (hnodes : Tree.nodesAll ts = [])
    (hstart : (Tree.startAll ts).isValid = true → Begins ws (Tree.startAll ts) q) :
    InOrder ws ts q where
  start := hstart
  first := by
    rw [hnodes]
    nofun
  nodes := by
    rw [hnodes]
    exact ⟨nofun, .nil⟩

/-- A value without place and nodes. -/
theorem silent (hstart : t.start.isValid = false) (hnodes : t.nodes = []) : InOrder ws [t] q := by
  refine of_no_nodes (by rw [Tree.nodesAll_singleton, hnodes]) fun hvalid => ?_
  rw [Tree.startAll_singleton, hstart] at hvalid
  cases hvalid

theorem token {l : Lexeme} (hl : .lexeme l ∈ ws) (hvalid : l.pos.isValid = true)
    (hsemi : l.token ≠ .semicolon) (hq : l.stop ≤ q) : InOrder ws [.pos l.pos] q := by
  refine of_no_nodes rfl fun _ => ?_
  rw [Tree.startAll_singleton, Tree.start]
  exact ⟨_, hl, by simpa [Word.isSemicolon] using hsemi, hvalid, rfl, hq⟩

/-- A comment above a node. -/
theorem comment {g : CommentGroup} (hg : .doc g ∈ ws) (hvalid : g.tree.start.isValid = true)
    (hnodes : ∀ n ∈ g.tree.nodes, n.kind.isComment = true) : InOrder ws [g.tree] g.tree.stop := by
  have hcode {n : Node} (hn : n ∈ g.tree.nodes) : ¬ n.kind.isComment = false := by
    rw [hnodes n hn]
    nofun
  constructor
  · rw [Tree.startAll_singleton]
    exact fun _ => ⟨_, hg, rfl, hvalid, rfl, Pos.le_refl _⟩
  · rw [Tree.nodesAll_singleton]
    exact fun m hm hkind => absurd (Kind.isComment_of_isStmtOrDecl hkind) (hcode hm)
  · rw [Tree.nodesAll_singleton]
    exact ⟨fun n hn h => absurd h (hcode hn),
      List.pairwise_of_forall_mem_list fun n hn m _ h => absurd h (hcode hn)⟩

theorem list_iff : InOrder ws [.list ts] q ↔ InOrder ws ts q := by
  have hstart : Tree.startAll [.list ts] = Tree.startAll ts := by
    rw [Tree.startAll_singleton, Tree.start]
  have hnodes : Tree.nodesAll [.list ts] = Tree.nodesAll ts := by
    rw [Tree.nodesAll_singleton, Tree.nodes]
  constructor
  · rintro ⟨h₁, h₂, h₃⟩
    rw [hstart] at h₁ h₂
    rw [hnodes] at h₂ h₃
    exact ⟨h₁, h₂, h₃⟩
  · rintro ⟨h₁, h₂, h₃⟩
    rw [← hstart] at h₁ h₂
    rw [← hnodes] at h₂ h₃
    exact ⟨h₁, h₂, h₃⟩

/-- A node whose fields stand in order. -/
theorem node {k : Kind} (h : InOrder ws ts q) (hvalid : (Tree.startAll ts).isValid = true)
    (hq : (Tree.node k ts).stop = q) : InOrder ws [.node k ts] q := by
  have hstart : (Tree.node k ts).start = Tree.startAll ts := by rw [Tree.start]
  have hnode : (⟨k, ts⟩ : Node).start = Tree.startAll ts := hstart
  constructor
  · rw [Tree.startAll_singleton, hstart]
    exact h.start
  · rw [Tree.startAll_singleton, Tree.nodesAll_singleton, Tree.nodes_node, hstart]
    refine List.forall_mem_cons.mpr ⟨fun _ => ?_, h.first⟩
    rw [hnode]
    exact Pos.le_refl _
  · rw [Tree.nodesAll_singleton, Tree.nodes_node]
    constructor
    · refine List.forall_mem_cons.mpr ⟨fun _ => ?_, h.nodes.begin⟩
      rw [hnode, Node.stop, Node.tree, hq]
      exact h.start hvalid
    · refine List.pairwise_cons.mpr ⟨fun m hm _ hkind => ?_, h.nodes.sorted⟩
      rw [hnode]
      exact h.first m hm hkind

/-- Values behind others, where what comes first begins before the statements behind. -/
theorem join (h : InOrder ws ts q) (h' : InOrder ws ts' q)
    (hstart : (Tree.startAll ts).isValid = true →
      ∀ m ∈ Tree.nodesAll ts', m.kind.isStmtOrDecl = true → Tree.startAll ts ≤ m.start)
    (hnodes : ∀ n ∈ Tree.nodesAll ts, ∀ m ∈ Tree.nodesAll ts', n.Precedes m) :
    InOrder ws (ts ++ ts') q := by
  constructor
  · rw [Tree.startAll_append]
    split
    · exact h.start
    · exact h'.start
  · rw [Tree.startAll_append, Tree.nodesAll_append]
    intro m hm hkind
    split
    · rename_i hvalid
      rcases List.mem_append.mp hm with hm | hm
      · exact h.first m hm hkind
      · exact hstart hvalid m hm hkind
    · rename_i hvalid
      rcases List.mem_append.mp hm with hm | hm
      · have hnone := Tree.not_isValid_nodesAll ts (by simpa using hvalid) m hm
        rw [(h.nodes.begin_stmt hm hkind).isValid] at hnone
        cases hnone
      · exact h'.first m hm hkind
  · rw [Tree.nodesAll_append]
    exact h.nodes.append h'.nodes hnodes

/-- Values behind others, with their words behind those of the others. -/
theorem append (h : InOrder ws ts q) (h' : InOrder ws' ts' q')
    (hws : ∀ v ∈ ws, ∀ w ∈ ws', v.start ≤ w.start) (hq : q ≤ r) (hq' : q' ≤ r) :
    InOrder (ws ++ ws') (ts ++ ts') r := by
  have hcross {p p' : Pos} {m : Node} (hp : Begins ws p p') (hm : m ∈ Tree.nodesAll ts')
      (hkind : m.kind.isStmtOrDecl = true) : p ≤ m.start := by
    obtain ⟨v, hv, -, -, rfl, -⟩ := hp
    obtain ⟨w, hw, -, -, heq, -⟩ := h'.nodes.begin_stmt hm hkind
    rw [heq]
    exact hws v hv w hw
  refine (h.mono (fun w hw => List.mem_append_left ws' hw) hq).join
    (h'.mono (fun w hw => List.mem_append_right ws hw) hq') (fun hvalid m hm hkind => ?_)
    fun n hn m hm hcode hkind => ?_
  · exact hcross (h.start hvalid) hm hkind
  · exact hcross (h.nodes.begin n hn hcode) hm hkind

/-- A value without nodes behind others. -/
theorem snoc (h : InOrder ws ts q) (h' : InOrder ws [t] q) (ht : t.nodes = []) :
    InOrder ws (ts ++ [t]) q := by
  refine h.join h' (fun _ => ?_) fun n _ => ?_
  · rw [Tree.nodesAll_singleton, ht]
    nofun
  · rw [Tree.nodesAll_singleton, ht]
    nofun

/-- A list of nodes begins where its first node begins. -/
theorem startAll_code (hcode : t.isCode = true) (h : NodesInOrder ws (Tree.nodesAll (t :: ts))) :
    Begins ws t.start t.stop ∧ Tree.startAll (t :: ts) = t.start := by
  obtain ⟨k, fs, rfl, hk⟩ := Tree.exists_of_isCode hcode
  have hmem : (⟨k, fs⟩ : Node) ∈ Tree.nodesAll (.node k fs :: ts) := by
    simp [Tree.nodesAll, Tree.nodes_node]
  have hbegins := h.begin _ hmem hk
  exact ⟨hbegins, Tree.startAll_of_isValid hbegins.isValid⟩

/-- For a list of nodes the order of the nodes is enough. -/
theorem of_nodes (hcode : ∀ t ∈ ts, t.isCode = true) (h : NodesInOrder ws (Tree.nodesAll ts)) :
    InOrder ws ts (Tree.stopAll ts) := by
  cases ts with
  | nil => exact ⟨nofun, nofun, h⟩
  | cons t ts =>
    obtain ⟨hbegins, hstart⟩ := startAll_code (hcode t List.mem_cons_self) h
    refine ⟨fun _ => ?_, fun m hm hkind => ?_, h⟩
    · rw [hstart]
      exact hbegins.mono (fun _ h => h) (Tree.stop_le_stopAll List.mem_cons_self)
    · obtain ⟨k, fs, rfl, hk⟩ := Tree.exists_of_isCode (hcode t List.mem_cons_self)
      have hsorted := h.sorted
      rw [hstart]
      rw [Tree.nodesAll, Tree.nodes_node, List.cons_append] at hsorted hm
      rcases List.mem_cons.mp hm with rfl | hm
      · exact Pos.le_refl _
      · exact (List.pairwise_cons.mp hsorted).1 m hm hk hkind

/-- Some of the nodes of a list in order. -/
theorem sublist (h : InOrder ws ts q) (hcode : ∀ t ∈ ts, t.isCode = true) (hsub : ts'.Sublist ts) :
    InOrder ws ts' (Tree.stopAll ts') :=
  of_nodes (fun t ht => hcode t (hsub.subset ht)) (h.nodes.sublist (Tree.nodesAll_sublist hsub))

end InOrder

/-! ### Parameter lists -/

namespace Rules

theorem nodes_plainField (names : List Tree) (type : Tree) :
    (plainField names type).nodes =
      ⟨.field, [.nil, .list names, type, .nil]⟩ :: Tree.nodesAll (names ++ [type]) := by
  simp [plainField, Tree.nodes, Tree.nodesAll, Tree.nodesAll_append]

theorem start_plainField (names : List Tree) (type : Tree) :
    (plainField names type).start = Tree.startAll (names ++ [type]) := by
  rw [plainField, Tree.start, Tree.startAll_of_not_isValid rfl, Tree.startAll_append, Tree.startAll,
    Tree.start, Tree.startAll_singleton]
  split
  · rfl
  · rw [← Tree.startAll_singleton type]
    simp [Tree.startAll, Tree.start]

theorem stopAll_le_plainField (names : List Tree) (type : Tree) :
    Tree.stopAll (names ++ [type]) ≤ (plainField names type).stop := by
  rw [Tree.stopAll_le_iff]
  have hfield {t : Tree} (ht : t ∈ [.nil, .list names, type, .nil]) :
      t.stop ≤ (plainField names type).stop := Tree.stop_le_stop_node ht (Nat.le_refl 4)
  refine List.forall_mem_append.mpr ⟨fun t ht => ?_, List.forall_mem_singleton.mpr ?_⟩
  · refine Pos.le_trans ?_ (hfield (t := .list names) (by simp))
    rw [Tree.stop_list]
    exact Tree.stop_le_stopAll ht
  · exact hfield (by simp)

/-- The name and the type of an entry. -/
def ParamEntry.parts (e : ParamEntry) : List Tree := e.name.toList ++ [e.type]

variable {ws : List Word} {es : List ParamEntry} {fs names : List Tree} {type : Tree}

/-- Fields are in order if their names and types are: a field begins where its first name or its
type begins.  The statements in the fields behind are among those of `vs`. -/
theorem inOrder_field {gs vs : List Tree}
    (h : NodesInOrder ws (Tree.nodesAll (names ++ [type] ++ vs)))
    (hcode : ∀ t ∈ names ++ [type] ++ vs, t.isCode = true)
    (hgs : NodesInOrder ws (Tree.nodesAll gs))
    (hvs : ∀ m ∈ Tree.nodesAll gs, m.kind.isStmtOrDecl = true → m ∈ Tree.nodesAll vs) :
    NodesInOrder ws (Tree.nodesAll (plainField names type :: gs)) := by
  have hall : InOrder ws (names ++ [type] ++ vs) _ := .of_nodes hcode h
  have hhere : InOrder ws (names ++ [type]) _ :=
    hall.sublist hcode (List.sublist_append_left _ vs)
  have hvalid : (Tree.startAll (names ++ [type])).isValid = true := by
    obtain ⟨t, us, heq⟩ := List.exists_cons_of_ne_nil (show names ++ [type] ≠ [] by simp)
    rw [heq] at hhere hcode ⊢
    obtain ⟨hbegins, hstart⟩ := InOrder.startAll_code (hcode t (by simp)) hhere.nodes
    rw [hstart]
    exact hbegins.isValid
  have hfirst (m : Node) (hm : m ∈ Tree.nodesAll (names ++ [type] ++ vs))
      (hkind : m.kind.isStmtOrDecl = true) : (plainField names type).start ≤ m.start := by
    have hle := hall.first m hm hkind
    rwa [Tree.startAll_append, if_pos hvalid, ← start_plainField] at hle
  have hbegins := (hhere.start hvalid).mono (fun _ hw => hw) (stopAll_le_plainField names type)
  rw [← start_plainField] at hbegins
  rw [Tree.nodesAll_append _ vs] at h hfirst
  rw [Tree.nodesAll, nodes_plainField]
  have hrest : NodesInOrder ws (Tree.nodesAll (names ++ [type]) ++ Tree.nodesAll gs) := by
    refine hhere.nodes.append hgs fun n hn m hm hn' hkind => ?_
    exact (List.pairwise_append.mp h.sorted).2.2 n hn m (hvs m hm hkind) hn' hkind
  refine ⟨List.forall_mem_cons.mpr ⟨fun _ => hbegins, hrest.begin⟩,
    List.pairwise_cons.mpr ⟨fun m hm _ hkind => hfirst m ?_ hkind, hrest.sorted⟩⟩
  rcases List.mem_append.mp hm with hm | hm
  · exact List.mem_append_left _ hm
  · exact List.mem_append_right _ (hvs m hm hkind)

theorem inOrder_namedFields {pending : List Tree} (h : namedFields pending es = .ok fs)
    (hquiet : ∀ m ∈ Tree.nodesAll pending, m.kind.isStmtOrDecl = false)
    (hident : ∀ e ∈ es, e.type.isKind .ident = true →
      ∀ m ∈ e.type.nodes, m.kind.isStmtOrDecl = false)
    (hcode : ∀ t ∈ pending ++ es.flatMap (·.parts), t.isCode = true)
    (hin : NodesInOrder ws (Tree.nodesAll (pending ++ es.flatMap (·.parts)))) :
    NodesInOrder ws (Tree.nodesAll fs) ∧ ∀ m ∈ Tree.nodesAll fs, m.kind.isStmtOrDecl = true →
      m ∈ Tree.nodesAll (es.flatMap (·.parts)) := by
  -- a statement in a field is one of its type or of its names, and waiting names hold none
  have hmem {names gs vs : List Tree} {type : Tree} (e : ParamEntry) (he : e.type = type)
      (hnames : ∀ m ∈ Tree.nodesAll names, m.kind.isStmtOrDecl = true → m ∈ Tree.nodesAll e.parts)
      (hgs : ∀ m ∈ Tree.nodesAll gs, m.kind.isStmtOrDecl = true → m ∈ Tree.nodesAll vs) :
      ∀ m ∈ Tree.nodesAll (plainField names type :: gs), m.kind.isStmtOrDecl = true →
        m ∈ Tree.nodesAll (e.parts ++ vs) := by
    subst he
    intro m hm hkind
    rw [Tree.nodesAll, nodes_plainField, Tree.nodesAll_append, Tree.nodesAll_singleton] at hm
    rw [Tree.nodesAll_append]
    simp only [List.cons_append, List.mem_cons, List.mem_append] at hm ⊢
    rcases hm with rfl | (hm | hm) | hm
    · cases hkind
    · exact .inl (hnames m hm hkind)
    · refine .inl ?_
      rw [ParamEntry.parts, Tree.nodesAll_append, Tree.nodesAll_singleton]
      exact List.mem_append_right _ hm
    · exact .inr (hgs m hm hkind)
  fun_induction namedFields pending es generalizing fs with
  | case1 =>
    cases h
    exact ⟨⟨List.forall_mem_nil _, .nil⟩, List.forall_mem_nil _⟩
  | case2 => cases h
  | case3 pending name type es ih =>
    obtain ⟨gs, hgs, h⟩ := exists_of_bind_ok h
    cases h
    have hparts : pending ++ ((⟨some name, type⟩ : ParamEntry) :: es).flatMap (·.parts) =
        pending ++ [name] ++ [type] ++ es.flatMap (·.parts) := by simp [ParamEntry.parts]
    rw [hparts] at hcode hin
    have hsub : (es.flatMap (·.parts)).Sublist (pending ++ [name] ++ [type] ++
        es.flatMap (·.parts)) :=
      List.sublist_append_right _ _
    obtain ⟨hin', hgs⟩ :=
      ih hgs (List.forall_mem_nil _) (fun e he => hident e (List.mem_cons_of_mem _ he))
      (fun t ht => hcode t (hsub.subset ht)) (hin.sublist (Tree.nodesAll_sublist hsub))
    refine ⟨inOrder_field hin hcode hin' hgs, hmem ⟨some name, type⟩ rfl (fun m hm hkind => ?_) hgs⟩
    rw [Tree.nodesAll_append] at hm
    rcases List.mem_append.mp hm with hm | hm
    · rw [hquiet m hm] at hkind
      cases hkind
    · rw [ParamEntry.parts, Tree.nodesAll_append]
      exact List.mem_append_left _ hm
  | case4 pending type es _ ih =>
    obtain ⟨gs, hgs, h⟩ := exists_of_bind_ok h
    cases h
    have hparts : pending ++ ((⟨none, type⟩ : ParamEntry) :: es).flatMap (·.parts) =
        pending ++ ([] ++ [type] ++ es.flatMap (·.parts)) := by simp [ParamEntry.parts]
    rw [hparts] at hcode hin
    have hsub : (pending ++ es.flatMap ParamEntry.parts).Sublist
        (pending ++ ([] ++ [type] ++ es.flatMap ParamEntry.parts)) :=
      List.Sublist.append (.refl _) (List.sublist_append_right _ _)
    obtain ⟨hin', hgs⟩ := ih hgs hquiet (fun e he => hident e (List.mem_cons_of_mem _ he))
      (fun t ht => hcode t (hsub.subset ht)) (hin.sublist (Tree.nodesAll_sublist hsub))
    have hsub : ([] ++ [type] ++ es.flatMap ParamEntry.parts).Sublist
        (pending ++ ([] ++ [type] ++ es.flatMap ParamEntry.parts)) := List.sublist_append_right _ _
    exact ⟨inOrder_field (hin.sublist (Tree.nodesAll_sublist hsub))
      (fun t ht => hcode t (hsub.subset ht)) hin' hgs,
      hmem ⟨none, type⟩ rfl (List.forall_mem_nil _) hgs⟩
  | case5 pending type es _ hkind ih =>
    have hparts : pending ++ ((⟨none, type⟩ : ParamEntry) :: es).flatMap (·.parts) =
        pending ++ [type] ++ es.flatMap (·.parts) := by simp [ParamEntry.parts]
    rw [hparts] at hcode hin
    obtain ⟨hin', hfs⟩ := ih h (by
      rw [Tree.nodesAll_append, Tree.nodesAll_singleton]
      exact List.forall_mem_append.mpr ⟨hquiet, hident _ List.mem_cons_self hkind⟩)
      (fun e he => hident e (List.mem_cons_of_mem _ he)) hcode hin
    refine ⟨hin', fun m hm hkind => ?_⟩
    rw [List.flatMap_cons, Tree.nodesAll_append]
    exact List.mem_append_right _ (hfs m hm hkind)
  | case6 => cases h

/-- **The fields of a parameter list stand in order** if its entries do. -/
theorem inOrder_fieldsOfEntries {q : Pos} (h : fieldsOfEntries es = .ok fs)
    (hident : ∀ e ∈ es, e.type.isKind .ident = true →
      ∀ m ∈ e.type.nodes, m.kind.isStmtOrDecl = false)
    (hcode : ∀ e ∈ es, ∀ t ∈ e.parts, t.isCode = true) (hin : InOrder ws (es.map (·.field)) q) :
    InOrder ws fs (Tree.stopAll fs) := by
  have hsub : (Tree.nodesAll (es.flatMap (·.parts))).Sublist
      (Tree.nodesAll (es.map (·.field))) := by
    clear h hident hcode hin
    induction es with
    | nil => exact .slnil
    | cons e es ih =>
      rw [List.flatMap_cons, Tree.nodesAll_append, List.map_cons, Tree.nodesAll, ParamEntry.field,
        nodes_plainField]
      exact List.Sublist.append (List.sublist_cons_self _ _) ih
  unfold fieldsOfEntries at h
  split at h
  · have hcode' : ∀ t ∈ es.flatMap ParamEntry.parts, t.isCode = true := by
      intro t ht
      obtain ⟨e, he, ht⟩ := List.mem_flatMap.mp ht
      exact hcode e he t ht
    have hnodes := (inOrder_namedFields h nofun hident hcode' (hin.nodes.sublist hsub)).1
    refine .of_nodes (fun t ht => ?_) hnodes
    obtain ⟨names, type, rfl, -, -⟩ := forall_fieldsOfEntries (P := fun _ => True)
      (Q := fun _ => True)
      (fun _ _ _ => trivial) (by rw [fieldsOfEntries, if_pos ‹_›]; exact h)
      (fun e _ => ⟨fun _ _ => trivial, trivial⟩) t ht
    rfl
  · rename_i hnames
    cases h
    have hfields : es.map (fun e => plainField [] e.type) = es.map (·.field) := by
      refine List.map_congr_left fun e he => ?_
      have hname : e.name = none := by
        cases hname : e.name with
        | none => rfl
        | some x => exact absurd (List.any_eq_true.mpr ⟨e, he, by rw [hname]; rfl⟩) hnames
      rw [ParamEntry.field, hname]
      rfl
    rw [hfields]
    refine hin.sublist (fun t ht => ?_) (.refl _)
    obtain ⟨e, -, rfl⟩ := List.mem_map.mp ht
    rfl

end Rules

end Graft
