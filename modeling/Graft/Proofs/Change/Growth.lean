import Graft.Proofs.Change.Locality

/-! # What a comparison does not notice

A comparison marks ranges of the old tree, so all that is gone or different is marked, but what is
new has only the gap to be seen in that it went into.  That gap is empty between two items that
touch.  And it is empty in front of the first item of a list and behind the last one, since the gap
is taken to reach to the ends of the list, which are those of its items.  So if nothing is marked,
the new tree is the old one with items added at such places (`Baseline.compare_unnoticed`), and what
is appended to a list that has items is never noticed (`Baseline.compare_appended`).
-/

namespace Graft

namespace Tree

/-- Whether there is no gap for a new item between its neighbours: there is only one of them, or
they touch. -/
def Gapless (before behind : Option Tree) : Prop :=
  (before.isSome = true ∨ behind.isSome = true) ∧ ∀ x ∈ before, ∀ z ∈ behind, z.start ≤ x.stop

mutual

/-- Whether a tree is another one with nodes added to its lists where there is no gap. -/
inductive Grown : Tree → Tree → Prop where
  | same (t : Tree) : Grown t t
  | node (k : Kind) {fs gs : List Tree} (h : GrownFields fs gs) : Grown (.node k fs) (.node k gs)
  | list {xs ys : List Tree} (h : GrownItems none xs ys) : Grown (.list xs) (.list ys)

/-- Whether fields are others with nodes added to their lists. -/
inductive GrownFields : List Tree → List Tree → Prop where
  | nil : GrownFields [] []
  | cons {x y : Tree} {fs gs : List Tree} (h : Grown x y) (hs : GrownFields fs gs) :
    GrownFields (x :: fs) (y :: gs)

/-- Whether items are others with nodes added among them; `before` is the old item in front of
them. -/
inductive GrownItems : Option Tree → List Tree → List Tree → Prop where
  | nil (before : Option Tree) : GrownItems before [] []
  | kept {before : Option Tree} {x y : Tree} {xs ys : List Tree} (h : Grown x y)
    (hs : GrownItems (some x) xs ys) : GrownItems before (x :: xs) (y :: ys)
  | added {before : Option Tree} {xs ys : List Tree} (n : Node) (h : Gapless before xs.head?)
    (hs : GrownItems before xs ys) : GrownItems before xs (n.tree :: ys)

end

/-! ### Growth -/

mutual

/-- **A tree grows in nodes only**: if it has no more of them, it is the same. -/
theorem Grown.length_nodes {t u : Tree} (h : Grown t u) :
    t.nodes.length ≤ u.nodes.length ∧ (u.nodes.length ≤ t.nodes.length → u = t) := by
  match h with
  | .same t => exact ⟨Nat.le_refl _, fun _ => rfl⟩
  | .node k h =>
    obtain ⟨hle, heq⟩ := h.length_nodes
    rw [nodes_node, nodes_node, List.length_cons, List.length_cons]
    exact ⟨Nat.succ_le_succ hle, fun h => by rw [heq (Nat.le_of_succ_le_succ h)]⟩
  | .list h =>
    obtain ⟨hle, heq⟩ := h.length_nodes
    rw [nodes_list, nodes_list]
    exact ⟨hle, fun h => by rw [heq h]⟩

theorem GrownFields.length_nodes {fs gs : List Tree} (h : GrownFields fs gs) :
    (nodesAll fs).length ≤ (nodesAll gs).length ∧
      ((nodesAll gs).length ≤ (nodesAll fs).length → gs = fs) := by
  match h with
  | .nil => exact ⟨Nat.le_refl _, fun _ => rfl⟩
  | .cons h hs =>
    obtain ⟨hle, heq⟩ := h.length_nodes
    obtain ⟨hles, heqs⟩ := hs.length_nodes
    rw [nodesAll, nodesAll, List.length_append, List.length_append]
    exact ⟨Nat.add_le_add hle hles, fun h => by rw [heq (by omega), heqs (by omega)]⟩

theorem GrownItems.length_nodes {before : Option Tree} {xs ys : List Tree}
    (h : GrownItems before xs ys) :
    (nodesAll xs).length ≤ (nodesAll ys).length ∧
      ((nodesAll ys).length ≤ (nodesAll xs).length → ys = xs) := by
  match h with
  | .nil _ => exact ⟨Nat.le_refl _, fun _ => rfl⟩
  | .kept h hs =>
    obtain ⟨hle, heq⟩ := h.length_nodes
    obtain ⟨hles, heqs⟩ := hs.length_nodes
    rw [nodesAll, nodesAll, List.length_append, List.length_append]
    exact ⟨Nat.add_le_add hle hles, fun h => by rw [heq (by omega), heqs (by omega)]⟩
  | .added n _ hs =>
    obtain ⟨hles, -⟩ := hs.length_nodes
    have hpos := List.length_pos_of_mem n.mem_nodes_tree
    rw [nodesAll, List.length_append]
    exact ⟨by omega, fun h => absurd h (by omega)⟩

end

theorem Grown.kind?_isSome {x y : Tree} (h : Grown x y) (hy : y.kind?.isSome = true) :
    x.kind?.isSome = true := by
  cases h with
  | same => exact hy
  | node => rfl
  | list => cases hy

/-- Nodes may be added in front of items if there is no gap in front of them. -/
theorem GrownItems.append {before : Option Tree} {xs ys zs : List Tree}
    (h : GrownItems before xs ys) (hzs : ∀ z ∈ zs, z.kind?.isSome = true)
    (hgap : zs ≠ [] → Gapless before xs.head?) :
    GrownItems before xs (zs ++ ys) := by
  induction zs with
  | nil => exact h
  | cons z zs ih =>
    obtain ⟨hz, hzs⟩ := List.forall_mem_cons.mp hzs
    have hrest := ih hzs fun _ => hgap (List.cons_ne_nil _ _)
    cases z with
    | node k fs => exact .added ⟨k, fs⟩ (hgap (List.cons_ne_nil _ _)) hrest
    | _ => cases hz

end Tree

/-! ### What is marked -/

namespace Baseline

variable {b : Baseline} {s enclosing here : Span}

theorem exists_holds_iff : (∃ p, s.Holds p) ↔ (s.isValid && !s.isEmpty) = true := by
  refine ⟨fun ⟨p, hp⟩ => Decidable.byContradiction fun h => SpanSet.not_holds h hp, fun h => ?_⟩
  exact ⟨s.start, (SpanSet.holds_iff h).mpr ⟨Pos.le_refl _, (SpanSet.proper_iff.mp h).2⟩⟩

/-- If the enclosing range holds something, so does what stands for a range inside of it. -/
theorem exists_holds_orEnclosing (h : ∃ p, enclosing.Holds p) (s : Span) :
    ∃ p, (orEnclosing s enclosing).Holds p := by
  unfold orEnclosing
  split
  · exact exists_holds_iff.mpr ‹_›
  · exact h

/-- An insertion that is not marked went into no gap. -/
theorem gapless_of_gapMarks {before behind : Option Tree} (henclosing : ∃ p, enclosing.Holds p)
    (hbefore : ∀ x ∈ before, x.stop.isValid = true)
    (h : ∀ m ∈ gapMarks enclosing (before.map Tree.stop) (behind.map Tree.start), ¬ ∃ p, m.Holds
      p) :
    Tree.Gapless before behind := by
  match before, behind with
  | none, none => exact absurd henclosing (h _ List.mem_cons_self)
  | some x, none => exact ⟨.inl rfl, fun _ _ => nofun⟩
  | none, some z => exact ⟨.inr rfl, fun _ => nofun⟩
  | some x, some z =>
    refine ⟨.inl rfl, ?_⟩
    rintro _ ⟨⟩ _ ⟨⟩
    refine Nat.le_of_not_lt fun hlt => ?_
    have hgap : ((⟨x.stop, z.start⟩ : Span).isValid && !(⟨x.stop, z.start⟩ : Span).isEmpty) =
        true :=
      SpanSet.proper_iff.mpr ⟨hbefore x rfl, hlt⟩
    refine h ⟨x.stop, z.start⟩ ?_ (exists_holds_iff.mpr hgap)
    simp only [gapMarks, Option.map_some, Option.getD_some]
    rw [if_pos hgap]
    exact List.mem_singleton_self _

/-- What is known of the values in a file that was read. -/
structure Standing (t : Tree) : Prop where
  placed : ∀ n ∈ t.nodes, n.start.isValid = true ∧ n.start ≤ n.stop
  full : t.Full

/-- What is known of the values in a tree that conforms to the schema. -/
structure Regular (t : Tree) : Prop where
  conforms : t.conforms = true
  items : ∀ x ∈ t.items, x.kind?.isSome = true

section

variable {k : Kind} {fs ts : List Tree} {x : Tree}

theorem Standing.field (h : Standing (.node k fs)) (hx : x ∈ fs) : Standing x where
  placed n hn := h.placed n (Tree.nodes_subset_node hx hn)
  full n hn := h.full n (Tree.nodes_subset_node hx hn)

theorem Standing.item (h : Standing (.list ts)) (hx : x ∈ ts) : Standing x where
  placed n hn := h.placed n (Tree.nodes_subset_list hx hn)
  full n hn := h.full n (Tree.nodes_subset_list hx hn)

theorem Regular.field (h : Regular (.node k fs)) (hx : x ∈ fs) : Regular x := by
  obtain ⟨hlength, haccepts, hfields⟩ := Tree.conforms_node.mp h.conforms
  refine ⟨hfields x hx, fun y hy => ?_⟩
  obtain ⟨i, hi, rfl⟩ := List.getElem_of_mem hx
  have hslot := haccepts (k.fields[i], fs[i]) (List.mem_iff_getElem.mpr
    ⟨i, by rw [List.length_zip, ← hlength, Nat.min_self]; exact hi, List.getElem_zip⟩)
  cases hts : fs[i] with
  | list ts =>
    rw [hts] at hslot hy
    cases hf : k.fields[i].slot with
    | list c =>
      rw [hf] at hslot
      obtain ⟨n, rfl, -⟩ := Slot.accepts_list.mp hslot y hy
      rfl
    | _ =>
      rw [hf] at hslot
      cases hslot
  | _ =>
    rw [hts] at hy
    cases hy

theorem Regular.item (h : Regular (.list ts)) (hx : x ∈ ts) : Regular x := by
  refine ⟨Tree.conforms_list.mp h.conforms x hx, ?_⟩
  have hnode := h.items x hx
  cases x with
  | node => nofun
  | _ => cases hnode

theorem Standing.place (h : Standing x) (hx : x.kind?.isSome = true) :
    valid? (Baseline.place x).start = some x.start ∧ valid? (Baseline.place x).stop = some x.stop ∧
      x.stop.isValid = true := by
  cases x with
  | node k fs =>
    obtain ⟨hvalid, hle⟩ := h.placed ⟨k, fs⟩ (Node.mem_nodes_tree ⟨k, fs⟩)
    have hstop := Pos.isValid_of_le hvalid hle
    exact ⟨if_pos hvalid, if_pos hstop, hstop⟩
  | _ => cases hx

end

mutual

/-- **A tree that nothing is marked of has grown at most.** -/
theorem grown_of_marks (old new : Tree) {enclosing : Span} (hold : Standing old)
    (hnew : Regular new) (henclosing : ∃ p, enclosing.Holds p)
    (h : ∀ m ∈ b.marks enclosing old new, ¬ ∃ p, m.Holds p) :
    Tree.Grown old new := by
  have hhere := exists_holds_orEnclosing henclosing (place old)
  match old, new with
  | .node k fs, .node l gs =>
    rw [marks] at h
    split at h
    · rename_i hkind
      obtain rfl := beq_iff_eq.mp hkind
      have hlength : fs.length = gs.length :=
        (hold.full ⟨k, fs⟩ (Node.mem_nodes_tree ⟨k, fs⟩)).trans
        (Tree.conforms_node.mp hnew.conforms).1.symm
      exact .node k (grown_of_fieldMarks fs gs hlength (fun x hx => hold.field hx)
        (fun y hy => hnew.field hy) hhere h)
    · exact absurd hhere (h _ (List.mem_singleton_self _))
  | .list xs, .list ys =>
    rw [marks] at h
    exact .list (grown_of_itemMarks none xs ys (listScript_turns xs ys) (fun x hx => hold.item hx)
      (fun y hy => ⟨hnew.item hy, hnew.items y hy⟩) (fun _ => nofun) hhere h)
  | .node k fs, .nil | .node k fs, .pos _ | .node k fs, .str _ | .node k fs,
    .tok _ | .node k fs, .list _
  | .list xs, .nil | .list xs, .pos _ | .list xs, .str _ | .list xs, .tok _ | .list xs, .node _ _ =>
    exact absurd hhere (h _ (List.mem_singleton_self _))
  | .nil, new =>
    rw [marks] at h
    split at h
    · cases new with
      | nil => exact .same _
      | _ => cases ‹_›
    · exact absurd henclosing (h _ (List.mem_singleton_self _))
  | .pos _, new | .str _, new | .tok _, new =>
    rw [marks] at h
    split at h
    · rename_i heq
      rw [← beq_iff_eq.mp heq]
      exact .same _
    · exact absurd henclosing (h _ (List.mem_singleton_self _))

theorem grown_of_fieldMarks (xs ys : List Tree) {here : Span} (hlength : xs.length = ys.length)
    (hxs : ∀ x ∈ xs, Standing x) (hys : ∀ y ∈ ys, Regular y) (hhere : ∃ p, here.Holds p)
    (h : ∀ m ∈ b.fieldMarks here xs ys, ¬ ∃ p, m.Holds p) : Tree.GrownFields xs ys := by
  match xs, ys with
  | [], [] => exact .nil
  | [], _ :: _ | _ :: _, [] => cases hlength
  | x :: xs, y :: ys =>
    rw [List.forall_mem_cons] at hxs hys
    rw [fieldMarks, List.forall_mem_append] at h
    obtain ⟨hfirst, hrest⟩ := h
    refine .cons ?_ (grown_of_fieldMarks xs ys (Nat.succ.inj hlength) hxs.2 hys.2 hhere hrest)
    split at hfirst
    · exact absurd hhere (hfirst _ (List.mem_singleton_self _))
    · exact grown_of_marks x y hxs.1 hys.1 hhere hfirst

theorem grown_of_itemMarks (before : Option Tree) (xs ys : List Tree) {enclosing : Span}
    {steps : List EditStep} (hturns : EditStep.Turns xs ys steps) (hxs : ∀ x ∈ xs, Standing x)
    (hys : ∀ y ∈ ys, Regular y ∧ y.kind?.isSome = true)
    (hbefore : ∀ x ∈ before, x.stop.isValid = true) (henclosing : ∃ p, enclosing.Holds p)
    (h : ∀ m ∈ b.itemMarks enclosing (before.map Tree.stop) xs ys steps, ¬ ∃ p, m.Holds p) :
    Tree.GrownItems before xs ys := by
  match xs with
  | [] =>
    rw [itemMarks, List.forall_mem_flatMap] at h
    rw [← List.append_nil ys]
    refine (Tree.GrownItems.nil before).append (fun y hy => (hys y hy).2) fun hne => ?_
    cases hturns with
    | nil => exact absurd rfl hne
    | inserted => exact gapless_of_gapMarks henclosing hbefore (h _ List.mem_cons_self)
  | x :: xs =>
    rw [List.forall_mem_cons] at hxs
    rw [itemMarks, List.forall_mem_append, List.forall_mem_flatMap] at h
    obtain ⟨hgaps, hrest⟩ := h
    have hcases := hturns.cons_cases
    have hpos (hne : (steps.takeWhile (· == .inserted)).length ≠ 0) :
        ∀ m ∈ gapMarks enclosing (before.map Tree.stop) (valid? (place x).start), ¬ ∃ p, m.Holds
        p := by
      obtain ⟨step, hstep⟩ := List.exists_mem_of_length_pos (Nat.pos_of_ne_zero hne)
      exact hgaps step hstep
    generalize (steps.takeWhile (· == .inserted)).length = count at hcases hpos hrest
    have hdrop : ∀ y ∈ ys.drop count, Regular y ∧ y.kind?.isSome = true :=
      fun y hy => hys y (List.drop_subset _ _ hy)
    -- the item is still there, with the rest of the list behind it
    obtain ⟨hnode, hgrown⟩ : x.kind?.isSome = true ∧
        Tree.GrownItems before (x :: xs) (ys.drop count) := by
      have hkept {y : Tree} {ys' : List Tree} {steps' : List EditStep}
          (hys' : ys.drop count = y :: ys')
          (hturns : EditStep.Turns xs ys' steps') (hxy : Tree.Grown x y)
          (h : ∀ m ∈ b.itemMarks enclosing (valid? (place x).stop) xs ys' steps', ¬ ∃ p, m.Holds
            p) :
          x.kind?.isSome = true ∧ Tree.GrownItems before (x :: xs) (ys.drop count) := by
        rw [hys', List.forall_mem_cons] at hdrop
        have hnode := hxy.kind?_isSome hdrop.1.2
        obtain ⟨-, hstop, hvalid⟩ := hxs.1.place hnode
        rw [hstop] at h
        have hrest := grown_of_itemMarks (some x) xs ys' hturns hxs.2 hdrop.2
          (fun z hz => Option.some.inj hz ▸ hvalid) henclosing h
        exact ⟨hnode, by rw [hys']; exact .kept hxy hrest⟩
      rcases hcases with ⟨ys', steps', hys', hsteps, hturns⟩ | ⟨y, ys', steps', hys',
        hsteps, hturns⟩ |
        ⟨steps', hsteps, hturns⟩
      · rw [hys', hsteps] at hrest
        exact hkept hys' hturns (.same x) hrest
      · have hy : y ∈ ys.drop count := by
          rw [hys']
          exact List.mem_cons_self
        rw [hys', hsteps] at hrest
        rw [List.forall_mem_append] at hrest
        exact hkept hys' hturns (grown_of_marks x y hxs.1 (hdrop y hy).1 henclosing hrest.1) hrest.2
      · rw [hsteps] at hrest
        have hmark := exists_holds_orEnclosing henclosing
          (b.widen (place x) (before.map Tree.stop) (xs.head?.bind fun t => valid? (place t).start))
        generalize ys.drop count = zs at hrest
        cases zs with
        | nil => exact absurd hmark (hrest _ List.mem_cons_self)
        | cons => exact absurd hmark (hrest _ List.mem_cons_self)
    have hall : Tree.GrownItems before (x :: xs) (ys.take count ++ ys.drop count) := by
      refine hgrown.append (fun y hy => (hys y (List.take_subset _ _ hy)).2) fun hne => ?_
      obtain ⟨hstart, -, -⟩ := hxs.1.place hnode
      rw [hstart] at hpos
      refine gapless_of_gapMarks henclosing hbefore (hpos fun hzero => hne ?_)
      rw [hzero, List.take_zero]
    rwa [List.take_append_drop] at hall

end

end Baseline

/-! ### The whole comparison -/

theorem FileReading.standing {d : Dialect} {cs : List Char} (r : FileReading d cs) :
    Baseline.Standing r.node.tree := ⟨r.start_le_stop, r.full⟩

/-- **An edit goes unnoticed only if all it does is add nodes to lists where there is no gap**, so
one that adds no nodes is always noticed. -/
theorem Baseline.compare_unnoticed {d : Dialect} {text : List Char} {file new : Node}
    {lines : LineTable} (hfile : parseFile d text = .ok file) (hnew : new.tree.conforms = true)
    (hchanged : ((capture file lines).compare new .empty).2.changed = .empty) :
    Tree.Grown file.tree new.tree ∧
      (new.tree.nodes.length ≤ file.tree.nodes.length → new = file) := by
  obtain ⟨r, rfl⟩ := exists_fileReading hfile
  have hroot : ∃ p, r.node.span.Holds p := by
    obtain ⟨hvalid, -⟩ := r.start_le_stop r.node r.node.mem_nodes_tree
    exact exists_holds_iff.mpr
      (SpanSet.proper_iff.mpr ⟨hvalid, (r.place r.node.mem_nodes_tree rfl).2⟩)
  have hnone : ∀ m ∈ (capture r.node lines).marks r.node.span r.node.tree new.tree, ¬ ∃ p, m.Holds
      p := by
    intro m hm ⟨p, hp⟩
    have hcontains := EditLog.contains_commit_markAll hm hp
    change ((capture r.node lines).compare new .empty).2.changed.contains p = true at hcontains
    rw [hchanged, SpanSet.contains_empty] at hcontains
    cases hcontains
  have hgrown : Tree.Grown r.node.tree new.tree :=
    grown_of_marks _ _ r.standing ⟨hnew, nofun⟩ hroot hnone
  refine ⟨hgrown, fun hle => ?_⟩
  obtain ⟨hkind, hfields⟩ := Tree.node.inj (hgrown.length_nodes.2 hle)
  cases new
  cases hkind
  cases hfields
  rfl

/-- Here a call is put behind those of a function. -/
theorem Baseline.compare_unnoticed_call :
    ∃ (file new : Node) (lines : LineTable),
      parseFile .code "package p\n\nfunc f() \x7b\n\ta()\n\tb()\n\x7d\n".toList = .ok file ∧
      new.tree.conforms = true ∧
      ((capture file lines).compare new .empty).2.changed = .empty ∧ new ≠ file ∧
      Tree.Grown file.tree new.tree ∧
      (new.tree.nodes.length ≤ file.tree.nodes.length → new = file) := by
  let text := "package p\n\nfunc f() \x7b\n\ta()\n\tb()\n\x7d\n".toList
  let body : List PathStep := [.field "Decls", .item 0, .field "Body", .field "List"]
  have hruns : ((parseFile .code text).toOption.any fun file =>
      (file.tree.at? (body ++ [.item 0])).any fun call =>
        (file.tree.editAt (.insert (call.mapPos fun _ => .none)) (body ++ [.item 2])).node?.any
          fun (new : Node) =>
          new.tree.conforms && !(new.tree == file.tree) &&
            ((capture file (.ofText text)).compare new .empty).2.changed == .empty) = true := by
    decide +kernel
  obtain ⟨file, hfile, hruns⟩ := exists_of_any_toOption hruns
  simp only [Option.any_eq_true, Bool.and_eq_true, beq_iff_eq, Bool.not_eq_true'] at hruns
  obtain ⟨-, -, new, -, ⟨hconforms, hne⟩, hchanged⟩ := hruns
  refine ⟨file, new, _, hfile, hconforms, hchanged,
    fun h => ?_, compare_unnoticed hfile hconforms hchanged⟩
  rw [h] at hne
  exact absurd hne (by simp)

/-- And here one is put in front of them. -/
theorem Baseline.compare_misses_call :
    ∃ (file new : Node) (lines : LineTable),
      parseFile .code "package p\n\nfunc f() \x7b\n\ta()\n\tb()\n\x7d\n".toList = .ok file ∧
      new.tree.conforms = true ∧
      new ≠ file ∧ ((capture file lines).compare new .empty).2.changed = .empty := by
  let text := "package p\n\nfunc f() \x7b\n\ta()\n\tb()\n\x7d\n".toList
  let body : List PathStep := [.field "Decls", .item 0, .field "Body", .field "List"]
  have hruns : ((parseFile .code text).toOption.any fun file =>
      (parseFile .code "package p\n\nfunc f() \x7b\n\tc()\n\x7d\n".toList).toOption.any fun other =>
        (other.tree.at? (body ++ [.item 0])).any fun call =>
          (file.tree.editAt (.insert (call.mapPos fun _ => .none)) (body ++ [.item 0])).node?.any
            fun (new : Node) =>
            new.tree.conforms && !(new.tree == file.tree) &&
              ((capture file (.ofText text)).compare new .empty).2.changed == .empty) = true := by
    decide +kernel
  obtain ⟨file, hfile, hruns⟩ := exists_of_any_toOption hruns
  obtain ⟨other, -, hruns⟩ := exists_of_any_toOption hruns
  simp only [Option.any_eq_true, Bool.and_eq_true, beq_iff_eq, Bool.not_eq_true'] at hruns
  obtain ⟨-, -, new, -, ⟨hconforms, hne⟩, hchanged⟩ := hruns
  refine ⟨file, new, _, hfile, hconforms, fun h => ?_, hchanged⟩
  rw [h] at hne
  exact absurd hne (by simp)

/-! ### What is appended -/

namespace Baseline

variable {b : Baseline} {file t u : Tree} {root x : Node} {xs ys : List Tree}

/-- Behind the last item of a list there is no gap. -/
theorem marks_list_appended (hlist : Tree.Inside file root (.list (xs ++ [x.tree])))
    (hproper : x.start < x.stop) (ys : List Tree) (enclosing : Span) :
    b.marks enclosing (.list (xs ++ [x.tree])) (.list (xs ++ [x.tree] ++ ys)) = [] := by
  obtain ⟨hhere, hend⟩ := orEnclosing_list hlist hproper enclosing
  have hprev : prevEnd (xs ++ [x.tree]) = some x.stop := by
    have hx := (inside_items hlist x.tree (List.mem_append_right _ List.mem_cons_self)).1.arranged
    rw [prevEnd, List.getLast?_concat]
    exact if_pos (hx.isValid_stop x.mem_nodes_tree)
  have hgap : gapMarks (Tree.list (xs ++ [x.tree])).span (some x.stop) none = [] := by
    have hempty : (⟨x.stop, (Tree.list (xs ++ [x.tree])).span.stop⟩ : Span).isEmpty = true :=
      decide_eq_true hend
    have hnot : ¬ ((⟨x.stop, (Tree.list (xs ++ [x.tree])).span.stop⟩ : Span).isValid &&
        !(⟨x.stop, (Tree.list (xs ++ [x.tree])).span.stop⟩ : Span).isEmpty) = true := by
      rw [hempty, Bool.not_true, Bool.and_false]
      exact Bool.false_ne_true
    exact if_neg hnot
  have hsteps (here : Span) (steps : List EditStep) :
      b.itemMarks here none (xs ++ [x.tree]) (xs ++ [x.tree] ++ ys)
          (List.replicate (xs ++ [x.tree]).length .same ++ steps) =
        steps.flatMap fun _ => gapMarks here (prevEnd (xs ++ [x.tree])) none := by
    have h := b.itemMarks_replicate_same here none (xs ++ [x.tree]) [] ys steps
    rw [List.append_nil] at h
    rw [h, itemMarks]
    simp
  rw [marks_list, listScript_append, hhere, hsteps, hprev, hgap]
  exact List.flatMap_eq_nil_iff.mpr fun _ _ => rfl

theorem marks_appended (hroot : root.tree.nodes ⊆ file.nodes) (hproper : x.start < x.stop)
    (h : Tree.Swap (.list (xs ++ [x.tree])) (.list (xs ++ [x.tree] ++ ys)) t u)
    (ht : Tree.Inside file root t) (enclosing : Span) : b.marks enclosing t u = [] := by
  induction h generalizing enclosing with
  | here => exact marks_list_appended ht hproper ys enclosing
  | field k fs gs h ih =>
    rw [b.marks_field (h.isNil_eq rfl)]
    exact ih (ht.field hroot (List.mem_append_right _ List.mem_cons_self)) _
  | @item t u ts us h ih =>
    have hmem : t ∈ ts ++ t :: us := List.mem_append_right _ List.mem_cons_self
    have hkind := ht.arranged.neat.items t hmem
    by_cases heq : t = u
    · rw [heq]
      exact b.marks_self _ _
    · have hkinds : t.kind? = u.kind? := by
        cases h with
        | here | item => cases hkind
        | field => rfl
      rw [b.marks_item hkind hkinds heq]
      exact ih (ht.item hmem) _

end Baseline

/-- **What is appended to a list that has items is never noticed.** -/
theorem Baseline.compare_appended {text : List Char} {file new : Node} {lines : LineTable}
    {xs ys : List Tree} {x : Node} (hfile : parseFile .code text = .ok file)
    (hswap : Tree.Swap (.list (xs ++ [x.tree])) (.list (xs ++ [x.tree] ++ ys)) file.tree new.tree)
    (hx : x.kind.isComment = false) :
    ((capture file lines).compare new .empty).2.changed = .empty := by
  obtain ⟨r, rfl⟩ := exists_fileReading hfile
  have hmem : x ∈ (Tree.list (xs ++ [x.tree])).nodes :=
    Tree.nodes_subset_list (List.mem_append_right _ List.mem_cons_self) x.mem_nodes_tree
  have hproper := (r.place (hswap.nodes_subset hmem) hx).2
  obtain ⟨ts, t, us, t', hcode, hswap, hmarks⟩ := r.exists_marks hswap rfl ⟨x, hmem, hx⟩ nofun
  have ht : t ∈ r.code := by
    rw [hcode]
    exact List.mem_append_right _ List.mem_cons_self
  have hnone := marks_appended (b := capture r.node lines) (List.Subset.refl _) hproper hswap
    (r.inside_code ht)
    (orEnclosing r.node.span r.node.span)
  rw [← hmarks] at hnone
  change (EditLog.empty.markAll ((capture r.node lines).marks r.node.span r.node.tree
    new.tree)).commit.changed = _
  rw [hnone]
  rfl

end Graft
