import Graft.Proofs.Layout.Showing

/-! # Statements that did not change are printed as they were

A statement or a declaration in which nothing changed is copied from the source, by itself or within
a node that is copied.  The copies come in the order of the source, so all of these texts stand in
the printed text, in the order in which they stand in the source (`printFile_keeps_statements`).
-/

namespace Graft

/-- A node, and where its text is found in another text. -/
structure Occurrence where
  node : Node
  /-- The number of characters before it. -/
  offset : Nat

namespace Occurrence

/-- The text of the node in the source. -/
def text (src : Source) (o : Occurrence) : List Char := (src.slice? o.node.span).getD []

/-- Whether the text of the node stands at the offset. -/
def StandsIn (src : Source) (out : List Char) (o : Occurrence) : Prop :=
  src.slice? o.node.span = some (o.text src) ∧ o.text src <+: out.drop o.offset

/-- Whether the text of one node comes before that of another, or begins where that begins.  A node
that ends before the other begins is found to do so. -/
def Before (src : Source) (o o' : Occurrence) : Prop :=
  o.offset ≤ o'.offset ∧ (o.node.stop ≤ o'.node.start → o.offset + (o.text src).length ≤ o'.offset)

end Occurrence

/-! ### Slices -/

namespace Source

variable {src : Source} {p q r s : Pos} {v w : List Char}

/-- The number of characters between two positions. -/
def width (src : Source) (p q : Pos) : Nat := ((src.slice? ⟨p, q⟩).getD []).length

theorem width_of_slice? (h : src.slice? ⟨p, q⟩ = some w) : src.width p q = w.length := by
  rw [width, h]
  rfl

theorem le_of_slice? (h : src.slice? ⟨p, q⟩ = some w) : p ≤ q := by
  obtain ⟨a, b, -, rfl, rfl⟩ := slice?_eq_some_iff.mp h
  rw [Pos.le_def]
  simp only [Pos.atOffset]
  omega

theorem width_add (hp : IsCut src.text p) (hq : IsCut src.text q)
    (hr : IsCut src.text r) (hpq : p ≤ q) (hqr : q ≤ r) :
    src.width p r = src.width p q + src.width q r := by
  obtain ⟨v, hv⟩ := exists_slice? hp hq hpq
  obtain ⟨w, hw⟩ := exists_slice? hq hr hqr
  rw [width_of_slice? hv, width_of_slice? hw, width_of_slice? (slice?_append hv hw),
    List.length_append]

/-- A slice of a slice stands as far behind its beginning as in the source. -/
theorem isPrefix_drop (hv : src.slice? ⟨p, s⟩ = some v)
    (hw : src.slice? ⟨q, r⟩ = some w) (hp : p ≤ q) (hr : r ≤ s) : w <+: v.drop (src.width p q) := by
  obtain ⟨x, hx⟩ := exists_slice? (isCut_of_slice? hv).1 (isCut_of_slice? hw).1 hp
  obtain ⟨y, hy⟩ := exists_slice? (isCut_of_slice? hw).2 (isCut_of_slice? hv).2 hr
  have h := slice?_append hx (slice?_append hw hy)
  obtain rfl := Option.some.inj (hv.symm.trans h)
  rw [width_of_slice? hx, List.drop_left]
  exact ⟨y, rfl⟩

end Source

/-! ### Occurrences in order -/

/-- Whether occurrences stand between two offsets of a text, one behind the other. -/
structure Occurrences (src : Source) (out : List Char) (low high : Nat) (os : List Occurrence) :
    Prop where
  stand : ∀ o ∈ os, o.StandsIn src out
  within : ∀ o ∈ os, low ≤ o.offset ∧ o.offset + (o.text src).length ≤ high
  ordered : os.Pairwise (Occurrence.Before src)

namespace Occurrences

variable {src : Source} {out : List Char} {low mid high : Nat} {os os' : List Occurrence}

theorem nil : Occurrences src out low high [] := ⟨nofun, nofun, .nil⟩

theorem append {low' mid' : Nat} (h : Occurrences src out low mid os)
    (h' : Occurrences src out mid' high os') (hlow : low' ≤ low) (hmid : mid ≤ mid')
    (hlow' : low' ≤ mid') (hhigh : mid ≤ high) : Occurrences src out low' high (os ++ os') where
  stand := List.forall_mem_append.mpr ⟨h.stand, h'.stand⟩
  within := by
    refine List.forall_mem_append.mpr ⟨fun o ho => ?_, fun o ho => ?_⟩
    · have := h.within o ho
      omega
    · have := h'.within o ho
      omega
  ordered := by
    refine List.pairwise_append.mpr ⟨h.ordered, h'.ordered, fun o ho o' ho' => ?_⟩
    have hbefore := h.within o ho
    have hbehind := h'.within o' ho'
    exact ⟨by omega, fun _ => by omega⟩

end Occurrences

/-- Whether a node stands in the source within another. -/
structure Source.Nested (src : Source) (c m : Node) : Prop where
  start : c.start ≤ m.start
  stop : m.stop ≤ c.stop
  slice : ∃ w, src.slice? ⟨m.start, m.stop⟩ = some w

namespace Occurrence

variable {src : Source} {c m n : Node} {text : List Char}

/-- Where a node stands in a copy of another that begins at the offset. -/
def inCopy (src : Source) (c : Node) (offset : Nat) (m : Node) : Occurrence :=
  ⟨m, offset + src.width c.start m.start⟩

theorem inCopy_standsIn (htext : src.slice? ⟨c.start, c.stop⟩ = some text) (hm : src.Nested c m)
    (a b : List Char) : (inCopy src c a.length m).StandsIn src (a ++ (text ++ b)) := by
  obtain ⟨w, hw⟩ := hm.slice
  have hwtext : (inCopy src c a.length m).text src = w := by
    change (src.slice? ⟨m.start, m.stop⟩).getD [] = w
    rw [hw]
    rfl
  rw [StandsIn, hwtext]
  refine ⟨hw, ?_⟩
  rw [inCopy, ← List.drop_drop, List.drop_left, List.drop_append]
  exact (Source.isPrefix_drop htext hw hm.start hm.stop).trans (List.prefix_append _ _)

theorem inCopy_within (htext : src.slice? ⟨c.start, c.stop⟩ = some text) (hm : src.Nested c m)
    (k : Nat) : k ≤ (inCopy src c k m).offset ∧
      (inCopy src c k m).offset + ((inCopy src c k m).text src).length ≤ k + text.length := by
  obtain ⟨w, hw⟩ := hm.slice
  obtain ⟨hc, hc'⟩ := Source.isCut_of_slice? htext
  obtain ⟨hm', hm''⟩ := Source.isCut_of_slice? hw
  have hle := Source.le_of_slice? hw
  have h₁ := Source.width_add hc hm' hc' hm.start (Pos.le_trans hle hm.stop)
  have h₂ := Source.width_add hm' hm'' hc' hle hm.stop
  rw [Source.width_of_slice? htext] at h₁
  change k ≤ k + _ ∧ k + _ + src.width m.start m.stop ≤ _
  omega

theorem inCopy_before (htext : src.slice? ⟨c.start, c.stop⟩ = some text) (hm : src.Nested c m)
    (hn : src.Nested c n) (hle : m.start ≤ n.start) (k : Nat) :
    (inCopy src c k m).Before src (inCopy src c k n) := by
  obtain ⟨v, hv⟩ := hm.slice
  obtain ⟨w, hw⟩ := hn.slice
  obtain ⟨hc, -⟩ := Source.isCut_of_slice? htext
  obtain ⟨hm', hm''⟩ := Source.isCut_of_slice? hv
  obtain ⟨hn', -⟩ := Source.isCut_of_slice? hw
  have h₁ := Source.width_add hc hm' hn' hm.start hle
  constructor
  · change k + _ ≤ k + _
    omega
  · intro hstop
    have h₂ := Source.width_add hm' hm'' hn' (Source.le_of_slice? hv) hstop
    change k + _ + src.width m.start m.stop ≤ k + _
    omega

end Occurrence

/-! ### Files -/

namespace Tree

mutual

/-- The nodes of a value end where it ends at the latest. -/
theorem stop_nodes_le (t : Tree) (hfull : t.Full) : ∀ n ∈ t.nodes, n.stop ≤ t.stop := by
  match t with
  | .list ts =>
    rw [Full, nodes] at hfull
    rw [nodes, stop_list]
    exact stop_nodesAll_le ts hfull fun t ht => stop_le_stopAll ht
  | .node k fs =>
    rw [Full, nodes_node, List.forall_mem_cons] at hfull
    rw [nodes_node, List.forall_mem_cons]
    refine ⟨Pos.le_refl _, stop_nodesAll_le fs hfull.2 fun t ht => ?_⟩
    exact stop_le_stop_node ht (Nat.le_of_eq hfull.1)
  | .nil | .pos _ | .str _ | .tok _ =>
    rw [nodes] <;> nofun

theorem stop_nodesAll_le (ts : List Tree)
    (hfull : ∀ n ∈ nodesAll ts, n.fields.length = n.kind.fields.length) {q : Pos}
    (hq : ∀ t ∈ ts, t.stop ≤ q) : ∀ n ∈ nodesAll ts, n.stop ≤ q := by
  match ts with
  | [] => nofun
  | t :: ts =>
    rw [nodesAll, List.forall_mem_append] at hfull ⊢
    rw [List.forall_mem_cons] at hq
    exact ⟨fun n hn => Pos.le_trans (stop_nodes_le t hfull.1 n hn) hq.1,
      stop_nodesAll_le ts hfull.2 hq.2⟩

end

end Tree

/-- Whether a node is a statement or declaration that can be copied. -/
def Page.picks (page : Page) (n : Node) : Bool := n.kind.isStmtOrDecl && (page.copy? n).isSome

theorem Page.picksCopies (page : Page) : PicksCopies page page.picks := by
  intro n hn
  obtain ⟨hkind, hcopy⟩ := (Bool.and_eq_true _ _).mp hn
  refine ⟨fun hfunc => ?_, Kind.isComment_of_isStmtOrDecl hkind, hcopy⟩
  rw [hfunc] at hkind
  cases hkind

namespace FileReading

variable {d : Dialect} {cs : List Char} (r : FileReading d cs) {page : Page} {c m : Node}

/-- There is no code in comments. -/
theorem isComment_of_mem (hsrc : page.source = some (Source.ofText cs)) (hc : c ∈ r.node.tree.nodes)
    (hm : m ∈ c.tree.nodes) (hcode : m.kind.isComment = false) : c.kind.isComment = false := by
  rw [r.nodes_node, List.mem_cons, List.mem_append] at hc
  rcases hc with rfl | hc | hc
  · rfl
  · cases hcomment : c.kind.isComment with
    | false => rfl
    | true =>
      rw [(r.shaped hsrc c hc).isComment_nodes hcomment m hm] at hcode
      cases hcode
  · rw [r.isComment_comments m ((Tree.sublist_nodes _ c hc).subset hm)] at hcode
    cases hcode

/-- A statement in a node stands between the ends of the node. -/
theorem nested (hsrc : page.source = some (Source.ofText cs)) (hc : c ∈ r.node.tree.nodes)
    (hm : m ∈ c.tree.nodes) (hpick : page.picks m = true) : (Source.ofText cs).Nested c m := by
  obtain ⟨hkind, hcopy⟩ := (Bool.and_eq_true _ _).mp hpick
  obtain ⟨text, htext⟩ := Option.isSome_iff_exists.mp hcopy
  have hsub := Tree.sublist_nodes _ c hc
  have hsorted := r.nodesInOrder.sorted.sublist hsub
  have hcode := r.isComment_of_mem hsrc hc hm (Kind.isComment_of_isStmtOrDecl hkind)
  refine ⟨?_, Tree.stop_nodes_le _ (fun n hn => r.full n (hsub.subset hn)) m hm, text,
    Page.slice?_of_copy? hsrc htext⟩
  have hnodes : c.tree.nodes = c :: Tree.nodesAll c.fields := by rw [Node.tree, Tree.nodes_node]
  rw [hnodes] at hsorted hm
  rcases List.mem_cons.mp hm with rfl | hm
  · exact Pos.le_refl _
  · exact (List.pairwise_cons.mp hsorted).1 m hm hcode hkind

theorem sorted_picks {ns : List Node} (hns : ns.Sublist r.node.tree.nodes) :
    (ns.filter page.picks).Pairwise fun m n => m.start ≤ n.start := by
  refine ((r.nodesInOrder.sorted.sublist hns).filter page.picks).imp_of_mem
    fun {m n} hm hn hmn => ?_
  obtain ⟨hm, -⟩ := (Bool.and_eq_true _ _).mp (List.mem_filter.mp hm).2
  obtain ⟨hn, -⟩ := (Bool.and_eq_true _ _).mp (List.mem_filter.mp hn).2
  exact hmn (Kind.isComment_of_isStmtOrDecl hm) hn

/-- The statements in a copy. -/
theorem occurrences_of_copy (hsrc : page.source = some (Source.ofText cs))
    (hc : c ∈ r.node.tree.nodes) {text : List Char} (hcopy : page.copy? c = some text)
    (a b : List Char) :
    Occurrences (Source.ofText cs) (a ++ (text ++ b)) a.length (a.length + text.length)
      ((c.tree.nodes.filter page.picks).map (Occurrence.inCopy (Source.ofText cs) c a.length)) := by
  have htext := Page.slice?_of_copy? hsrc hcopy
  have hnested {m : Node} (hm : m ∈ c.tree.nodes.filter page.picks) :
      (Source.ofText cs).Nested c m :=
    r.nested hsrc hc (List.mem_filter.mp hm).1 (List.mem_filter.mp hm).2
  refine ⟨List.forall_mem_map.mpr fun m hm => ?_, List.forall_mem_map.mpr fun m hm => ?_, ?_⟩
  · exact Occurrence.inCopy_standsIn htext (hnested hm) a b
  · exact Occurrence.inCopy_within htext (hnested hm) a.length
  · refine List.pairwise_map.mpr ((r.sorted_picks (Tree.sublist_nodes _ c hc)).imp_of_mem ?_)
    intro m n hm hn hle
    exact Occurrence.inCopy_before htext (hnested hm) (hnested hn) hle a.length

/-- The statements in a text that shows copies. -/
theorem exists_occurrences (hsrc : page.source = some (Source.ofText cs)) {w : List Char}
    {ns : List Node} (h : Shows page w ns) (hns : ∀ n ∈ ns, n ∈ r.node.tree.nodes)
    (a b : List Char) :
    ∃ os, os.map (·.node) = (Tree.nodesAll (ns.map Node.tree)).filter page.picks ∧
      Occurrences (Source.ofText cs) (a ++ (w ++ b)) a.length (a.length + w.length) os := by
  induction h generalizing a with
  | rest w => exact ⟨[], rfl, .nil⟩
  | @copy gap n text w ns hn _ ih =>
    obtain ⟨hmem, hns⟩ := List.forall_mem_cons.mp hns
    have hcopy := r.occurrences_of_copy hsrc hmem hn (a ++ gap) (w ++ b)
    obtain ⟨os, hos, hrest⟩ := ih hns (a ++ gap ++ text)
    have hout : a ++ (gap ++ (text ++ w) ++ b) = a ++ gap ++ (text ++ (w ++ b)) := by simp
    have hout' : a ++ gap ++ text ++ (w ++ b) = a ++ gap ++ (text ++ (w ++ b)) := by simp
    have hlength : a.length + (gap ++ (text ++ w)).length =
        (a ++ gap ++ text).length + w.length := by
      simp only [List.length_append]
      omega
    rw [hout'] at hrest
    rw [hout, hlength]
    refine ⟨_, ?_, hcopy.append hrest ?_ ?_ ?_ ?_⟩
    · rw [List.map_append, hos, List.map_map, List.map_cons, Tree.nodesAll, List.filter_append]
      exact congrArg (· ++ _) (List.map_id _)
    all_goals simp only [List.length_append]; omega

/-- A statement in which nothing changed can be copied. -/
theorem picks_eq (hsrc : page.source = some (Source.ofText cs)) {n : Node}
    (hn : n ∈ r.node.tree.nodes) :
    page.picks n = (n.kind.isStmtOrDecl && !page.changed.intersects n.span) := by
  cases hkind : n.kind.isStmtOrDecl with
  | false => rw [Page.picks, hkind, Bool.false_and, Bool.false_and]
  | true =>
    rw [Page.picks, hkind, Bool.true_and, Bool.true_and]
    cases hchanged : page.changed.intersects n.span with
    | false =>
      obtain ⟨text, hcopy, -⟩ :=
        r.copy?_of_mem hsrc hn (Kind.isComment_of_isStmtOrDecl hkind) hchanged
      rw [hcopy]
      rfl
    | true =>
      cases hcopy : page.copy? n with
      | none => rfl
      | some text =>
        rw [Page.not_intersects_of_copy? hcopy] at hchanged
        cases hchanged

end FileReading

theorem printFile_eq_append (file : Node) (src : Source) (changed : SpanSet) (indent : String) :
    ∃ w, (printFile file src changed ⟨indent, true⟩).toList =
      (Pen.node ⟨some src, changed, indent⟩ file.tree.height file (.start (.atOffset 0))).out.toList
      ++ w := by
  rw [printFile]
  dsimp only
  split
  · exact ⟨_, String.toList_append⟩
  · exact ⟨_, String.toList_append⟩

/-- **Statements and declarations in which nothing changed are printed as they were**: the text of
each stands in the output, and they stand there in the order of the source. -/
theorem printFile_keeps_statements {d : Dialect} {cs : List Char} {file : Node} (changed : SpanSet)
    (indent : String) (h : parseFile d cs = .ok file) :
    ∃ os : List Occurrence,
      os.map (·.node) =
        file.tree.nodes.filter (fun n => n.kind.isStmtOrDecl && !changed.intersects n.span) ∧
      (os.map (·.node)).Pairwise (fun m n => m.start ≤ n.start) ∧
      (∀ o ∈ os, o.StandsIn (Source.ofText cs)
        (printFile file (Source.ofText cs) changed ⟨indent, true⟩).toList) ∧
      os.Pairwise (Occurrence.Before (Source.ofText cs)) := by
  obtain ⟨r, rfl⟩ := exists_fileReading h
  let page : Page := ⟨some (Source.ofText cs), changed, indent⟩
  have hsrc : page.source = some (Source.ofText cs) := rfl
  obtain ⟨w, ns, hout, hshows, hns, hnodes⟩ := r.shows page.picksCopies hsrc (.start (.atOffset 0))
  obtain ⟨b, hprint⟩ := printFile_eq_append r.node (Source.ofText cs) changed indent
  obtain ⟨os, hos, hoccurrences⟩ := r.exists_occurrences hsrc hshows hns [] b
  have hfilter : os.map (·.node) = r.node.tree.nodes.filter page.picks := hos.trans hnodes.symm
  refine ⟨os, ?_, ?_, ?_, hoccurrences.ordered⟩
  · rw [hfilter]
    exact List.filter_congr fun n hn => r.picks_eq hsrc hn
  · rw [hfilter]
    exact r.sorted_picks (.refl _)
  · have hall : (printFile r.node (Source.ofText cs) changed ⟨indent, true⟩).toList = [] ++
        (w ++ b) := by
      rw [hprint, hout]
      rfl
    rw [hall]
    exact hoccurrences.stand

/-- Beside a statement that changes, the next one keeps its blanks: of the function, its body and
the two statements in it, only the last has not changed. -/
theorem printFile_keeps_statements_second :
    ∃ (file : Node) (os : List Occurrence),
      parseFile .code "package p\n\nfunc f() \x7b\n\tx = 1\n\ty ( 2 )\n\x7d\n".toList = .ok file ∧
      os.map (·.node) = file.tree.nodes.filter (fun n => n.kind.isStmtOrDecl &&
        !(SpanSet.ofSpans [⟨.atOffset 27, .atOffset 28⟩]).intersects n.span) ∧
      os.length = 1 ∧
      (∀ o ∈ os, o.StandsIn
        (Source.ofText "package p\n\nfunc f() \x7b\n\tx = 1\n\ty ( 2 )\n\x7d\n".toList)
        (printFile file
          (Source.ofText "package p\n\nfunc f() \x7b\n\tx = 1\n\ty ( 2 )\n\x7d\n".toList)
          (SpanSet.ofSpans [⟨.atOffset 27, .atOffset 28⟩]) .default).toList) := by
  have hrun :
      (match parseFile .code "package p\n\nfunc f() \x7b\n\tx = 1\n\ty ( 2 )\n\x7d\n".toList with
        | .ok file => (file.tree.nodes.filter (fun n => n.kind.isStmtOrDecl &&
            !(SpanSet.ofSpans [⟨.atOffset 27, .atOffset 28⟩]).intersects n.span)).length == 1
        | .error _ => false) = true := by decide +kernel
  split at hrun
  · rename_i file hfile
    obtain ⟨os, hos, -, hstand, -⟩ := printFile_keeps_statements
      (SpanSet.ofSpans [⟨.atOffset 27, .atOffset 28⟩]) "\t" hfile
    refine ⟨file, os, hfile, hos, ?_, hstand⟩
    rw [← hos, List.length_map] at hrun
    exact beq_iff_eq.mp hrun
  · cases hrun

end Graft
