import Graft.Proofs.Change.Baseline
import Graft.Proofs.Change.OnePlace
import Graft.Proofs.Layout.Fields
import Graft.Proofs.Text.Lines

/-! # What is marked inside a node stays in it

The ranges of all values inside a node lie in its own, and so do the gaps between items.  There is
one exception.  The range of an item that is gone is stretched over comments, and these are looked
up in the whole file: the last one before the item if it ends on the line above, and the first one
behind it if it begins on the line on which the item ends.  Only the neighbours of the item in its
list bound the search (`Baseline.widen_start`, `Baseline.widen_stop`).  So from the first item of a
list a range can reach back to a comment in front of the node, and from the last item to one behind
it (`Baseline.marks_confined`).
-/

namespace Graft

/-! ### Lines -/

namespace LineTable

/-- Whether a range ends on the line above the one on which a node begins, before the node. -/
def Above (t : LineTable) (g : Span) (n : Node) : Prop :=
  g.stop ≤ n.start ∧ ∃ l, t.line? g.stop = some l ∧ t.line? n.start = some (l + 1)

/-- Whether a range begins behind a node, on the line on which that ends. -/
def Trails (t : LineTable) (g : Span) (n : Node) : Prop :=
  n.stop ≤ g.start ∧ ∃ l, t.line? g.start = some l ∧ t.line? n.stop = some l

end LineTable

namespace Tree

/-- Whether a node is the first item of a list in a value. -/
def Leads (t : Tree) (n : Node) : Prop := ∃ m ∈ t.nodes, ∃ ts, .list (n.tree :: ts) ∈ m.fields

/-- Whether a node is the last item of a list in a value. -/
def Closes (t : Tree) (n : Node) : Prop := ∃ m ∈ t.nodes, ∃ ts, .list (ts ++ [n.tree]) ∈ m.fields

end Tree

namespace Baseline

variable {b : Baseline} {s enclosing : Span} {prev next : Option Pos}

/-! ### Comments -/

theorem lt_of_lineBelow {t : LineTable} {p q : Pos} (h : lineBelow (t.line? p) (t.line? q) = true) :
    p < q := by
  refine Nat.lt_of_not_le fun hle => ?_
  cases hq : t.line? q with
  | none =>
    rw [hq] at h
    cases hp : t.line? p with
    | none => rw [hp] at h; cases h
    | some => rw [hp] at h; cases h
  | some l =>
    obtain ⟨m, hp, hle⟩ := LineTable.line?_mono (t := t) (show q ≤ p from hle) hq
    rw [hq, hp] at h
    exact absurd (of_decide_eq_true h) (Nat.not_lt.mpr hle)

theorem ite_and_cases (c d : Bool) (p q : Pos) :
    (if c && d then p else q) = q ∨ (if c && d then p else q) = p ∧ c = true ∧ d = true := by
  cases c <;> cases d <;> simp

/-- Where a stretched range begins. -/
theorem widen_start (hs : s.isValid = true) (prev next : Option Pos) :
    (b.widen s prev next).start = s.start ∨
    ∃ g ∈ b.comments, (b.widen s prev next).start = g.start ∧ g.stop ≤ s.start ∧
      (∃ l, b.lines.line? g.stop = some l ∧ b.lines.line? s.start = some (l + 1)) ∧
      ∀ p ∈ prev, p < g.start := by
  unfold widen
  rw [if_neg (by rw [hs]; decide)]
  dsimp only
  cases hg : b.comments.reverse.find? fun g => decide (g.stop ≤ s.start) with
  | none => exact .inl rfl
  | some g =>
    have hbefore := List.find?_some hg
    refine (ite_and_cases _ _ _ _).imp id fun ⟨hstart, hown, hadjacent⟩ => ?_
    refine ⟨g, List.mem_reverse.mp (List.mem_of_find?_eq_some hg), hstart,
      of_decide_eq_true hbefore, ?_, ?_⟩
    · split at hadjacent
      · rename_i l m hl hm
        exact ⟨l, hl, by rw [hm, beq_iff_eq.mp hadjacent]⟩
      · cases hadjacent
    · rintro p rfl
      exact lt_of_lineBelow hown

/-- Where a stretched range ends. -/
theorem widen_stop (hs : s.isValid = true) (prev next : Option Pos) :
    (b.widen s prev next).stop = s.stop ∨
    ∃ g ∈ b.comments, (b.widen s prev next).stop = g.stop ∧ s.stop ≤ g.start ∧
      (∃ l, b.lines.line? g.start = some l ∧ b.lines.line? s.stop = some l) ∧
      ∀ q ∈ next, g.stop ≤ q := by
  unfold widen
  rw [if_neg (by rw [hs]; decide)]
  dsimp only
  cases hg : b.comments.find? fun g => decide (s.stop ≤ g.start) with
  | none => exact .inl rfl
  | some g =>
    have hbehind := List.find?_some hg
    refine (ite_and_cases _ _ _ _).imp id fun ⟨hstop, hnext, hline⟩ => ?_
    obtain ⟨hnext, hsome⟩ := (Bool.and_eq_true _ _).mp hnext
    obtain ⟨l, hl⟩ := Option.isSome_iff_exists.mp hsome
    refine ⟨g, List.mem_of_find?_eq_some hg, hstop, of_decide_eq_true hbehind, ?_, ?_⟩
    · exact ⟨l, hl, (beq_iff_eq.mp hline).symm.trans hl⟩
    · rintro q rfl
      exact of_decide_eq_true hnext

end Baseline

/-! ### Values whose regions nest -/

/-- What is known of the values in the code of a file: they nest, and fields and items follow each
other. -/
structure Tree.Arranged (t : Tree) : Prop where
  neat : t.Neat
  items : InRow t.items
  fields : ∀ n ∈ t.nodes, InRow n.fields ∧ ∀ x ∈ n.fields, InRow x.items
  spans : ∀ n ∈ t.nodes, n.start.isValid = true ∧ n.start ≤ n.stop

namespace Tree.Arranged

variable {t x : Tree} {k : Kind} {fs ts : List Tree}

theorem field (h : (node k fs).Arranged) (hx : x ∈ fs) : x.Arranged := by
  have hfields := h.fields
  have hspans := h.spans
  rw [nodes_node, List.forall_mem_cons, forall_nodesAll] at hfields hspans
  exact ⟨h.neat.field hx, hfields.1.2 x hx, hfields.2 x hx, hspans.2 x hx⟩

theorem item (h : (list ts).Arranged) (hx : x ∈ ts) : ∃ n : Node, x = n.tree ∧ x.Arranged := by
  have hfields := h.fields
  have hspans := h.spans
  rw [nodes_list, forall_nodesAll] at hfields hspans
  have hnode := h.neat.items x hx
  cases x with
  | node k fs => exact ⟨⟨k, fs⟩, rfl, h.neat.item hx, .nil, hfields _ hx, hspans _ hx⟩
  | _ => cases hnode

variable {n : Node}

theorem start_le (h : t.Arranged) (hn : n ∈ t.nodes) : t.start ≤ n.start :=
  start_le_of_mem h.neat.first
    (positions_subset_of_mem_nodes t n hn (start_mem_positions (t := n.tree) (h.spans n hn).1))

theorem stop_le (h : t.Arranged) (hn : n ∈ t.nodes) :
    n.stop ≤ t.stop := stop_nodes_le t h.neat.full n hn

theorem isValid_stop (h : t.Arranged) (hn : n ∈ t.nodes) : n.stop.isValid = true :=
  Pos.isValid_of_le (h.spans n hn).1 (h.spans n hn).2

theorem isValid_span (h : t.Arranged) (hn : n ∈ t.nodes) : n.span.isValid = true := by
  obtain ⟨hvalid, hle⟩ := h.spans n hn
  rw [Span.isValid, Bool.and_eq_true, Bool.and_eq_true]
  exact ⟨⟨hvalid, h.isValid_stop hn⟩, decide_eq_true hle⟩

end Tree.Arranged

theorem Node.mem_nodes_tree (n : Node) : n ∈ n.tree.nodes := by
  rw [Node.tree, Tree.nodes_node]
  exact List.mem_cons_self

theorem Tree.nodes_subset_list {x : Tree} {ts : List Tree} (hx : x ∈ ts) :
    x.nodes ⊆ (list ts).nodes := by
  rw [nodes_list]
  exact fun n hn => mem_nodesAll.mpr ⟨x, hx, hn⟩

theorem Tree.nodes_subset_node {x : Tree} {k : Kind} {fs : List Tree} (hx : x ∈ fs) :
    x.nodes ⊆ (node k fs).nodes := by
  rw [nodes_node]
  exact fun n hn => List.mem_cons_of_mem _ (mem_nodesAll.mpr ⟨x, hx, hn⟩)

/-- What is known of a value inside a node of a file. -/
structure Tree.Inside (file : Tree) (s : Node) (t : Tree) : Prop where
  arranged : t.Arranged
  nodes : t.nodes ⊆ s.tree.nodes
  list : ∀ ts, t = .list ts → ∃ n ∈ file.nodes, .list ts ∈ n.fields
  start : ∀ p ∈ t.positions, s.start ≤ p
  stop : t.stop ≤ s.stop

namespace Tree.Inside

variable {file t x : Tree} {s : Node} {k : Kind} {fs ts : List Tree}

theorem field (h : Inside file s (node k fs)) (hs : s.tree.nodes ⊆ file.nodes) (hx : x ∈ fs) :
    Inside file s x where
  arranged := h.arranged.field hx
  nodes n hn := h.nodes (nodes_subset_node hx hn)
  list ts hts := ⟨⟨k, fs⟩, hs (h.nodes (Node.mem_nodes_tree ⟨k, fs⟩)), hts ▸ hx⟩
  start p hp := h.start p (mem_positionsAll.mpr ⟨x, hx, hp⟩)
  stop := by
    have hlength := h.arranged.neat.full ⟨k, fs⟩ (Node.mem_nodes_tree ⟨k, fs⟩)
    exact Pos.le_trans (stop_le_stop_node hx (Nat.le_of_eq hlength)) h.stop

theorem item (h : Inside file s (.list ts)) (hx : x ∈ ts) : Inside file s x where
  arranged := (h.arranged.item hx).choose_spec.2
  nodes n hn := h.nodes (nodes_subset_list hx hn)
  list ts hts := by
    obtain ⟨n, hn, -⟩ := h.arranged.item hx
    cases hn.symm.trans hts
  start p hp := h.start p (mem_positionsAll.mpr ⟨x, hx, hp⟩)
  stop := Pos.le_trans (stop_le_stopAll hx) h.stop

end Tree.Inside

/-- What is known of the items of a list inside a node of a file. -/
def Tree.AreInside (file : Tree) (s : Node) (ts : List Tree) : Prop :=
  ∀ x ∈ ts, Inside file s x ∧ x.kind?.isSome = true

/-- Whether a range lies within another one. -/
def Span.Within (m room : Span) : Prop := room.start ≤ m.start ∧ m.stop ≤ room.stop

namespace Baseline

variable {b : Baseline} {file : Tree} {s s' root : Node} {enclosing here room m : Span}

/-- Whether a range begins and ends within another one, or at a comment above the first item of a
list in a node, or behind the last one. -/
def Confined (b : Baseline) (file : Tree) (s : Node) (room m : Span) : Prop :=
  (room.start ≤ m.start ∨ ∃ g ∈ b.comments, m.start = g.start ∧
    ∃ x ∈ s.tree.nodes, b.lines.Above g x ∧ file.Leads x) ∧
  (m.stop ≤ room.stop ∨ ∃ g ∈ b.comments, m.stop = g.stop ∧
    ∃ x ∈ s.tree.nodes, b.lines.Trails g x ∧ file.Closes x)

theorem Confined.of_within (h : m.Within room) : Confined b file s room m := ⟨.inl h.1, .inl h.2⟩

theorem orEnclosing_cases (s enclosing : Span) :
    orEnclosing s enclosing = s ∧ s.isValid = true ∨ orEnclosing s enclosing = enclosing := by
  unfold orEnclosing
  split
  · rename_i h
    exact .inl ⟨rfl, ((Bool.and_eq_true _ _).mp h).1⟩
  · exact .inr rfl

theorem within_place {t : Tree} (h : Tree.Inside file s t) (hvalid : (place t).isValid = true) :
    (place t).Within s.tree.span := by
  have hspan (hvalid : t.span.isValid = true) : t.span.Within s.tree.span := by
    rw [Span.isValid, Bool.and_assoc] at hvalid
    exact ⟨h.start _ (Tree.start_mem_positions ((Bool.and_eq_true _ _).mp hvalid).1), h.stop⟩
  cases t with
  | node => exact hspan hvalid
  | list => exact hspan hvalid
  | _ => cases hvalid

theorem within_orEnclosing {t : Tree} (h : Tree.Inside file s t)
    (he : enclosing.Within s.tree.span) :
    (orEnclosing (place t) enclosing).Within s.tree.span := by
  rcases orEnclosing_cases (place t) enclosing with ⟨heq, hvalid⟩ | heq
  · rw [heq]
    exact within_place h hvalid
  · rwa [heq]

theorem within_gapMarks (hstart : room.start ≤ prev.getD enclosing.start)
    (hstop : next.getD enclosing.stop ≤ room.stop) :
    ∀ m ∈ gapMarks enclosing prev next, m.Within room := by
  unfold gapMarks
  split
  · exact List.forall_mem_singleton.mpr ⟨hstart, hstop⟩
  · dsimp only
    split
    · exact List.forall_mem_singleton.mpr ⟨hstart, hstop⟩
    · nofun

/-- Where an item of a list begins and ends. -/
theorem place_item {x : Tree} (h : Tree.Inside file s x) (hx : x.kind?.isSome = true) :
    ∃ n ∈ s.tree.nodes, x = n.tree ∧ place x = n.span ∧ n.span.isValid = true ∧
      valid? (place x).start = some n.start ∧ valid? (place x).stop = some n.stop ∧
      n.start ≤ n.stop ∧
      n.span.Within s.span := by
  cases x with
  | node k fs =>
    have hmem := Node.mem_nodes_tree ⟨k, fs⟩
    obtain ⟨hvalid, hle⟩ := h.arranged.spans ⟨k, fs⟩ hmem
    have hspan := h.arranged.isValid_span hmem
    exact ⟨⟨k, fs⟩, h.nodes hmem, rfl, rfl, hspan, if_pos hvalid,
      if_pos (h.arranged.isValid_stop hmem), hle, within_place h hspan⟩
  | _ => cases hx

/-- A range stretched over comments leaves its surroundings only at the ends of a list. -/
theorem confined_widen {n : Node} (hn : n ∈ s.tree.nodes) (hvalid : n.span.isValid = true)
    (hwithin : n.span.Within room) (hprev : ∀ p ∈ prev, room.start ≤ p)
    (hleads : prev = none → file.Leads n) (hnext : ∀ q ∈ next, q ≤ room.stop)
    (hcloses : next = none → file.Closes n) :
    Confined b file s room (b.widen n.span prev next) := by
  constructor
  · rcases widen_start hvalid prev next with heq | ⟨g, hg, heq, hle, hline, hbehind⟩
    · exact .inl (heq ▸ hwithin.1)
    · cases prev with
      | none => exact .inr ⟨g, hg, heq, n, hn, ⟨hle, hline⟩, hleads rfl⟩
      | some p =>
        have hlt : p < g.start := hbehind p rfl
        exact .inl (heq ▸ Pos.le_trans (hprev p rfl) (Nat.le_of_lt hlt))
  · rcases widen_stop hvalid prev next with heq | ⟨g, hg, heq, hle, hline, hbefore⟩
    · exact .inl (heq ▸ hwithin.2)
    · cases next with
      | none => exact .inr ⟨g, hg, heq, n, hn, ⟨hle, hline⟩, hcloses rfl⟩
      | some q => exact .inl (heq ▸ Pos.le_trans (hbefore q rfl) (hnext q rfl))

/-- Where the items before an item of a list end. -/
theorem prevEnd_cases {ts : List Tree} (hts : Tree.AreInside file s ts) :
    ts = [] ∧ prevEnd ts = none ∨ ∃ (vs : List Tree) (n : Node), ts = vs ++ [n.tree] ∧
      prevEnd ts = some n.stop ∧
      n.start ≤ n.stop := by
  rcases List.eq_nil_or_concat ts with rfl | ⟨vs, x, rfl⟩
  · exact .inl ⟨rfl, rfl⟩
  · obtain ⟨hx, hkind⟩ := hts x (by simp)
    obtain ⟨n, -, rfl, -, -, -, hstop, hle, -⟩ := place_item hx hkind
    refine .inr ⟨vs, n, by simp, ?_, hle⟩
    rw [prevEnd, List.concat_eq_append, List.getLast?_concat]
    exact hstop

/-- Where the items behind an item of a list begin. -/
theorem nextStart_cases {ts : List Tree} (hts : Tree.AreInside file s ts) :
    ts = [] ∧ nextStart ts = none ∨ ∃ (n : Node) (vs : List Tree), ts = n.tree :: vs ∧
      nextStart ts = some n.start ∧
      n.start ≤ n.stop ∧ n.stop ≤ s.stop := by
  match ts with
  | [] => exact .inl ⟨rfl, rfl⟩
  | x :: vs =>
    obtain ⟨hx, hkind⟩ := hts x List.mem_cons_self
    obtain ⟨n, -, rfl, -, -, hstart, -, hle, hwithin⟩ := place_item hx hkind
    exact .inr ⟨n, vs, rfl, hstart, hle, hwithin.2⟩

mutual

/-- **What is marked inside a node stays in it**, but for the comments before the first and behind
the last item of a list. -/
theorem marks_confined (hs : s.tree.nodes ⊆ file.nodes) (old new : Tree) {enclosing : Span}
    (hold : Tree.Inside file s old) (he : enclosing.Within s.span) :
    ∀ m ∈ b.marks enclosing old new, Confined b file s s.span m := by
  have hhere := within_orEnclosing hold he
  match old, new with
  | .node k fs, .node l gs =>
    rw [marks]
    split
    · exact fieldMarks_confined hs fs gs (fun x hx => hold.field hs hx) hhere
    · exact List.forall_mem_singleton.mpr (.of_within hhere)
  | .list xs, .list ys =>
    rw [marks]
    exact itemMarks_confined hs xs ys [] none (listScript xs ys) (hold.list xs rfl)
      (fun x hx => ⟨hold.item hx, hold.arranged.neat.items x hx⟩) (fun _ => nofun)
      (fun _ => rfl) hhere
  | .node k fs, .nil | .node k fs, .pos _ | .node k fs, .str _ | .node k fs,
    .tok _ | .node k fs, .list _
  | .list xs, .nil | .list xs, .pos _ | .list xs, .str _ | .list xs, .tok _ | .list xs, .node _ _ =>
    exact List.forall_mem_singleton.mpr (.of_within hhere)
  | .nil, _ | .pos _, _ | .str _, _ | .tok _, _ =>
    rw [marks]
    split
    · nofun
    · exact List.forall_mem_singleton.mpr (.of_within he)

theorem fieldMarks_confined (hs : s.tree.nodes ⊆ file.nodes) (xs ys : List Tree) {here : Span}
    (hxs : ∀ x ∈ xs, Tree.Inside file s x) (hhere : here.Within s.span) :
    ∀ m ∈ b.fieldMarks here xs ys, Confined b file s s.span m := by
  match xs, ys with
  | [], _ => rw [fieldMarks] <;> nofun
  | _ :: _, [] => rw [fieldMarks] <;> nofun
  | x :: xs, y :: ys =>
    rw [List.forall_mem_cons] at hxs
    rw [fieldMarks, List.forall_mem_append]
    refine ⟨?_, fieldMarks_confined hs xs ys hxs.2 hhere⟩
    split
    · exact List.forall_mem_singleton.mpr (.of_within hhere)
    · exact marks_confined hs x y hxs.1 hhere

theorem itemMarks_confined (hs : s.tree.nodes ⊆ file.nodes) (xs ys done : List Tree)
    {enclosing : Span} (prev : Option Pos) (steps : List EditStep)
    (hlist : ∃ n ∈ file.nodes, .list (done ++ xs) ∈ n.fields) (hxs : Tree.AreInside file s xs)
    (hprev : ∀ p ∈ prev, s.start ≤ p) (hdone : prev = none → done = [])
    (he : enclosing.Within s.span) :
    ∀ m ∈ b.itemMarks enclosing prev xs ys steps, Confined b file s s.span m := by
  have hgap : s.start ≤ prev.getD enclosing.start := by
    cases prev with
    | none => exact he.1
    | some p => exact hprev p rfl
  match xs with
  | [] =>
    rw [itemMarks, List.forall_mem_flatMap]
    have hend : (none : Option Pos).getD enclosing.stop ≤ s.span.stop := he.2
    exact fun _ _ m hm => .of_within (within_gapMarks hgap hend m hm)
  | x :: xs =>
    obtain ⟨⟨hx, hkind⟩, htail⟩ := List.forall_mem_cons.mp hxs
    replace hxs : Tree.AreInside file s xs := htail
    obtain ⟨n, hn, rfl, hplace, hvalid, hstart, hstop, hle, hwithin⟩ := place_item hx hkind
    -- the rest of the list begins behind the item
    have hrest (ys : List Tree) (steps : List EditStep) :
        ∀ m ∈ b.itemMarks enclosing (some n.stop) xs ys steps, Confined b file s s.span m := by
      refine itemMarks_confined hs xs ys (done ++ [n.tree]) (some n.stop) steps ?_ hxs ?_ nofun he
      · rwa [← List.append_cons]
      · rintro _ ⟨⟩
        exact Pos.le_trans hwithin.1 hle
    rw [itemMarks, List.forall_mem_append, List.forall_mem_flatMap, hstart, hstop]
    refine ⟨fun _ _ m hm => .of_within (within_gapMarks hgap (Pos.le_trans hle hwithin.2) m hm), ?_⟩
    split
    · exact hrest _ _
    · exact List.forall_mem_append.mpr ⟨marks_confined hs _ _ hx he, hrest _ _⟩
    · refine List.forall_mem_cons.mpr ⟨?_, hrest _ _⟩
      have hleads (hnone : prev = none) : file.Leads n := by
        rw [hdone hnone, List.nil_append] at hlist
        exact ⟨_, hlist.choose_spec.1, xs, hlist.choose_spec.2⟩
      have hfollower : (∀ q ∈ nextStart xs, q ≤ s.stop) ∧
          (nextStart xs = none → file.Closes n) := by
        rcases nextStart_cases hxs with ⟨rfl, hnext⟩ | ⟨w, vs, rfl, hnext, hle, hlast⟩
        · exact ⟨by rw [hnext]; nofun, fun _ => ⟨_, hlist.choose_spec.1, done, hlist.choose_spec.2⟩⟩
        · rw [hnext]
          refine ⟨?_, nofun⟩
          rintro _ ⟨⟩
          exact Pos.le_trans hle hlast
      rcases orEnclosing_cases (b.widen n.span prev (nextStart xs)) enclosing with ⟨heq, -⟩ | heq
      · rw [hplace, ← nextStart, heq]
        exact confined_widen hn hvalid hwithin hprev hleads hfollower.1 hfollower.2
      · rw [hplace, ← nextStart, heq]
        exact .of_within he
    · exact fun _ => List.not_mem_nil.elim

end

/-- What is marked where one node became another one stays in it too. -/
theorem marks_changed (hs : s.tree.nodes ⊆ file.nodes) (harranged : s.tree.Arranged)
    (hproper : s.start < s.stop) (enclosing : Span) :
    ∀ m ∈ b.marks enclosing s.tree s'.tree, Confined b file s s.span m := by
  have hinside : Tree.Inside file s s.tree :=
    ⟨harranged, List.Subset.refl _, nofun, fun p hp => Tree.start_le_of_mem harranged.neat.first hp,
      Pos.le_refl _⟩
  have hhere (enclosing : Span) : orEnclosing s.span enclosing = s.span :=
    if_pos (SpanSet.proper_iff.mpr ⟨(harranged.spans s s.mem_nodes_tree).1, hproper⟩)
  have hmarks : b.marks enclosing s.tree s'.tree = b.marks s.span s.tree s'.tree := by
    have h (enclosing : Span) : b.marks enclosing s.tree s'.tree =
        let here := orEnclosing s.span enclosing
        if s.kind == s'.kind then b.fieldMarks here s.fields s'.fields else [here] := by
      rw [Node.tree, Node.tree, marks]
      rfl
    rw [h, h, hhere, hhere]
  rw [hmarks]
  exact marks_confined hs _ _ hinside ⟨Pos.le_refl _, Pos.le_refl _⟩

end Baseline

end Graft
