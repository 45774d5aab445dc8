import Graft.Proofs.Layout.Canonical

/-! # Loops that are printed alike

A pending separator is overwritten by the next one, and a clause that is missing prints nothing.  So
the header of a loop keeps both its semicolons only if there is a condition between them and a
clause behind them.  Without a condition, a loop is printed as the one whose condition is its last
clause (`printTree_loop_last`); with nothing but a first clause, as the one whose condition this is
(`printTree_loop_first`).  Both loops of such a pair are read, as different code, and nothing that
reads canonical text can tell which of the two it was printed from.
-/

namespace Graft

/-! ### Heights -/

namespace Node

variable {n m : Node} {l : Label} {t : Tree}

theorem height_lt_of_mem_fields (h : t ∈ n.fields) : t.height < n.tree.height := by
  rw [Node.tree, Tree.height]
  exact Nat.lt_succ_of_le (Tree.height_le_heightAll h)

theorem height_get_lt (n : Node) (l : Label) : (n.get l).height < n.tree.height := by
  have hnil : Tree.nil.height < n.tree.height := Nat.succ_pos (Tree.heightAll n.fields)
  unfold get
  split
  · rename_i i hi
    cases hfield : n.fields[i]? with
    | none => exact hnil
    | some t => exact height_lt_of_mem_fields (List.mem_of_getElem? hfield)
  · exact hnil

theorem height_lt_of_node? (h : n.node? l = some m) : m.tree.height < n.tree.height := by
  rw [Tree.tree_of_node? h]
  exact height_get_lt n l

theorem height_lt_of_mem_list (h : t ∈ n.list l) : t.height < n.tree.height := by
  refine Nat.lt_trans ?_ (height_get_lt n l)
  unfold list at h
  cases hl : n.get l with
  | list ts =>
    rw [hl] at h
    rw [Tree.height]
    exact Nat.lt_succ_of_le (Tree.height_le_heightAll h)
  | _ =>
    rw [hl] at h
    cases h

end Node

/-- Whether an item is no tree, or one of less than the given height. -/
def Item.IsBelow (height : Nat) : Item → Prop
  | tree t => t.height < height
  | _ => True

/-- Whether all trees among some items are of less than the given height. -/
def Item.AreBelow (height : Nat) (is : List Item) : Prop := ∀ i ∈ is, i.IsBelow height

namespace Item

variable {h h' : Nat} {is js : List Item} {t : Tree} {ts : List Tree}

@[simp] theorem isBelow_gap (s : Separator) : (gap s).IsBelow h := trivial
@[simp] theorem isBelow_bare (text : String) : (bare text).IsBelow h := trivial
@[simp] theorem isBelow_deeper : deeper.IsBelow h := trivial
@[simp] theorem isBelow_shallower : shallower.IsBelow h := trivial
@[simp] theorem isBelow_tree : (tree t).IsBelow h ↔ t.height < h := Iff.rfl

namespace AreBelow

@[simp] theorem nil : AreBelow h [] := List.forall_mem_nil _

@[simp] theorem cons {i : Item} : AreBelow h (i :: is) ↔ i.IsBelow h ∧ AreBelow h is :=
  List.forall_mem_cons

@[simp] theorem append : AreBelow h (is ++ js) ↔ AreBelow h is ∧ AreBelow h js :=
  List.forall_mem_append

theorem mono (his : AreBelow h is) (hle : h ≤ h') : AreBelow h' is := by
  intro i hi
  have hbelow := his i hi
  cases i with
  | tree t => exact Nat.lt_of_lt_of_le hbelow hle
  | _ => trivial

theorem separated (s : Separator) (hts : ∀ t ∈ ts, t.height < h) : AreBelow h (separated s ts) := by
  induction ts with
  | nil => exact nil
  | cons t ts ih =>
    obtain ⟨ht, hts⟩ := List.forall_mem_cons.mp hts
    cases ts with
    | nil => exact cons.mpr ⟨ht, nil⟩
    | cons u us => exact cons.mpr ⟨ht, cons.mpr ⟨trivial, ih hts⟩⟩

theorem preceded (s : Separator) (hts : ∀ t ∈ ts, t.height < h) : AreBelow h (preceded s ts) := by
  intro i hi
  obtain ⟨t, ht, hi⟩ := List.mem_flatMap.mp hi
  rcases List.mem_pair.mp hi with rfl | rfl
  · trivial
  · exact hts t ht

@[simp] theorem ifPresent :
    AreBelow h (ifPresent t is) ↔ (t.isNil = false → AreBelow h is) := by
  unfold Item.ifPresent
  cases t.isNil <;> simp

@[simp] theorem ite {c : Prop} [Decidable c] :
    AreBelow h (if c then is else js) ↔ (c → AreBelow h is) ∧ (¬ c → AreBelow h js) := by
  split <;> simp [*]

end AreBelow

end Item

namespace Layout

open Item

variable {page : Page} {h : Nat}

section Parts

variable (n : Node) (s : Separator) (l : Label)

@[simp] theorem isBelow_child : (child n l).IsBelow n.tree.height := Node.height_get_lt n l
@[simp] theorem isBelow_mark (text : String) : (mark n l text).IsBelow h := trivial

@[simp] theorem areBelow_separated : AreBelow n.tree.height (separated s (n.list l)) :=
  .separated s fun _ => Node.height_lt_of_mem_list

@[simp] theorem areBelow_preceded : AreBelow n.tree.height (preceded s (n.list l)) :=
  .preceded s fun _ => Node.height_lt_of_mem_list

@[simp] theorem areBelow_doc : AreBelow n.tree.height (doc n) := by simp [doc]

@[simp] theorem areBelow_signature : AreBelow n.tree.height (signature n) := by
  refine AreBelow.append.mpr ⟨?_, ?_⟩
  · split
    · rename_i hparams
      simpa using Node.height_lt_of_node? hparams
    · simp
  · split
    · rename_i hresults
      simpa using Node.height_lt_of_node? hresults
    · exact .nil

@[simp] theorem areBelow_bracedFields :
    AreBelow n.tree.height (bracedFields page (n.node? l)) := by
  cases hl : n.node? l with
  | none => simp [bracedFields]
  | some fields =>
    have hlow := Node.height_lt_of_node? hl
    have hfields := (areBelow_preceded fields .newline .list).mono (Nat.le_of_lt hlow)
    simp [bracedFields, hlow, hfields]

@[simp] theorem areBelow_block (indented : Bool) :
    AreBelow n.tree.height (block page indented n) := by
  cases indented <;> simp [block]

@[simp] theorem areBelow_switchBody : AreBelow n.tree.height (switchBody page n) := by
  unfold switchBody
  split
  · rename_i body hbody
    have hlow := Node.height_lt_of_node? hbody
    have hclauses : AreBelow n.tree.height (block page false body) :=
      (areBelow_block body false).mono (Nat.le_of_lt hlow)
    simp [hlow, hclauses]
  · exact .nil

theorem areBelow_signature_of_node? {type : Node} (h : n.node? l = some type) :
    AreBelow n.tree.height (signature type) :=
  (areBelow_signature type).mono (Nat.le_of_lt (Node.height_lt_of_node? h))

@[simp] theorem areBelow_field : AreBelow n.tree.height (field n) := by
  have htype := Node.height_get_lt n .type
  unfold field
  dsimp only
  refine AreBelow.append.mpr ⟨AreBelow.append.mpr ⟨by simp, ?_⟩, by simp⟩
  split
  · rename_i type hnode
    simp [htype, areBelow_signature_of_node? n .type hnode]
  · simp [htype]

theorem height_head?_lt : (n.fields.head?.getD .nil).height < n.tree.height := by
  cases hhead : n.fields.head? with
  | none => exact Nat.succ_pos (Tree.heightAll n.fields)
  | some t => exact Node.height_lt_of_mem_fields (List.mem_of_mem_head? hhead)

@[simp] theorem areBelow_items : AreBelow n.tree.height (items page n) := by
  unfold items
  cases n.kind with
  | declStmt | exprStmt => simpa using height_head?_lt n
  | funcDecl =>
    have hrecv (recv : Node) (h : n.node? .recv = some recv) : recv.tree.height < n.tree.height :=
      Node.height_lt_of_node? h
    have htype (type : Node) (h : n.node? .type = some type) :
        AreBelow n.tree.height (signature type) := areBelow_signature_of_node? n .type h
    cases h : n.node? .recv <;> cases h' : n.node? .type <;> simp [h, h', hrecv, htype]
  | _ => simp [paramList, loopClauses, rangeTargets, specs]

end Parts

end Layout

/-! ### Printing to any height -/

namespace Pen

variable {page : Page}

/-- Where the height is enough for a node, it makes no difference. -/
theorem node_eq_of_height_le {h h' : Nat} {n : Node} (hle : n.tree.height ≤ h)
    (hle' : n.tree.height ≤ h') (pen : Pen) : node page h n pen = node page h' n pen := by
  induction h generalizing h' n pen with
  | zero => exact absurd hle (Nat.not_succ_le_zero _)
  | succ h ih =>
    cases h' with
    | zero => exact absurd hle' (Nat.not_succ_le_zero _)
    | succ h' =>
      rw [node, node]
      split
      · rfl
      · refine List.foldl_ext _ _ _ fun pen i hi => ?_
        have hbelow := Layout.areBelow_items n i hi
        cases i with
        | tree t =>
          rw [item, item]
          cases hnode : t.node? with
          | none => rfl
          | some m =>
            have hlow : m.tree.height < n.tree.height := Tree.tree_of_node? hnode ▸ hbelow
            exact ih (by omega) (by omega) pen
        | _ => rfl

section NoSource

variable (hpage : page.source = none)

include hpage

/-- Without a source a node is printed along its layout. -/
theorem node_of_no_source {h : Nat} (n : Node) (pen : Pen) :
    node page (h + 1) n pen = (Layout.items page n).foldl (item page (node page h)) pen :=
  node_of_not_copied (Page.copy?_of_no_source hpage n)

/-- A statement that is an expression is printed as the expression. -/
theorem item_exprStmt {h : Nat} {x : Tree} (hx : x.height ≤ h) (pen : Pen) :
    item page (node page (h + 1)) pen (.tree (.node .exprStmt [x])) =
      item page (node page (h + 1)) pen (.tree x) := by
  change node page (h + 1) ⟨.exprStmt, [x]⟩ pen = _
  rw [node_of_no_source hpage]
  change item page (node page h) pen (.tree x) = _
  rw [item, item]
  cases hnode : x.node? with
  | none => rfl
  | some m =>
    have hm : m.tree.height ≤ h := Tree.tree_of_node? hnode ▸ hx
    exact node_eq_of_height_le hm (Nat.le_succ_of_le hm) pen

end NoSource

end Pen

/-- Nodes are printed alike by themselves if they are to any height that is enough. -/
theorem printTree_eq_of_node_eq (style : Style) {k l : Kind} {fs us : List Tree} (bound : Nat)
    (heq : ∀ h pen, bound ≤ h → Pen.node ⟨none, .empty, style.indent⟩ h ⟨k, fs⟩ pen =
      Pen.node ⟨none, .empty, style.indent⟩ h ⟨l, us⟩ pen) :
    printTree (.node k fs) style = printTree (.node l us) style := by
  obtain ⟨h, hbound, hfs, hus⟩ :
      ∃ h, bound ≤ h ∧ (Tree.node k fs).height ≤ h ∧ (Tree.node l us).height ≤ h :=
    ⟨bound + (Tree.node k fs).height + (Tree.node l us).height, by omega, by omega, by omega⟩
  refine congrArg Pen.out (calc
    _ = Pen.node ⟨none, .empty, style.indent⟩ h ⟨k, fs⟩ (.start .none) :=
      Pen.node_eq_of_height_le (Nat.le_refl _) hfs _
    _ = Pen.node ⟨none, .empty, style.indent⟩ h ⟨l, us⟩ (.start .none) := heq h _ hbound
    _ = _ := Pen.node_eq_of_height_le hus (Nat.le_refl _) _)

/-! ### Loops -/

section Loops

open Item

/-- The layout of a loop with a first or a last clause. -/
theorem Layout.items_forStmt {page : Page} {keyword : Pos} {init cond post body : Tree}
    (h : init.isNil = false ∨ post.isNil = false) :
    items page ⟨.forStmt, [.pos keyword, init, cond, post, body]⟩ =
      [token keyword "for", gap .space, tree init, gap .semicolon, tree cond,
        gap .semicolon, tree post, gap .space, tree body] := by
  change [token keyword "for"] ++ loopClauses _ ++ [gap .space, tree body] = _
  rw [loopClauses, if_pos]
  · rfl
  · change (!init.isNil || !post.isNil) = true
    rcases h with h | h <;> simp [h]

/-- The layout of a loop with nothing but a condition. -/
theorem Layout.items_forStmt_cond {page : Page} {keyword : Pos} {cond body : Tree}
    (h : cond.isNil = false) :
    items page ⟨.forStmt, [.pos keyword, .nil, cond, .nil, body]⟩ =
      [token keyword "for", gap .space, tree cond, gap .space, tree body] := by
  change [token keyword "for"] ++ ifPresent cond [gap .space, tree cond] ++
    [gap .space, tree body] = _
  rw [ifPresent, h]
  rfl

variable (style : Style) (keyword : Pos) (init x body : Tree)

/-- **A loop without a condition is printed as the one whose condition is its last clause.** -/
theorem printTree_loop_last (hinit : init.isNil = false) :
    printTree (.node .forStmt [.pos keyword, init, .nil, .node .exprStmt [x], body]) style =
      printTree (.node .forStmt [.pos keyword, init, x, .nil, body]) style := by
  refine printTree_eq_of_node_eq style (x.height + 2) fun h pen hh => ?_
  obtain ⟨h, rfl⟩ := Nat.exists_eq_add_of_le' (Nat.le_of_add_left_le hh)
  have hx : x.height ≤ h := by omega
  have hpage : Page.source ⟨none, .empty, style.indent⟩ = none := rfl
  rw [Pen.node_of_no_source hpage, Pen.node_of_no_source hpage, Layout.items_forStmt (.inl hinit),
    Layout.items_forStmt (.inl hinit)]
  simp only [List.foldl_cons, List.foldl_nil, Pen.item_exprStmt hpage hx]
  -- the missing condition prints nothing, and of two pending semicolons only one is left
  rfl

/-- Both loops are read, as different code. -/
example :
    ((parseFile .code
      "package p\n\nfunc f() \x7b\n\tfor i := 0; ; g() \x7b\x7d\n\x7d\n".toList).toOption.any
      fun (file : Node) =>
        (parseFile .code
          "package p\n\nfunc f() \x7b\n\tfor i := 0; g(); \x7b\x7d\n\x7d\n".toList).toOption.any
          fun (other : Node) => !file.tree.sameCode other.tree &&
            printTree file.tree .default == printTree other.tree .default) = true := by
  decide +kernel

/-- **A loop with nothing but a first clause is printed as the one whose condition this is.** -/
theorem printTree_loop_first (hx : x.isNil = false) :
    printTree (.node .forStmt [.pos keyword, .node .exprStmt [x], .nil, .nil, body]) style =
      printTree (.node .forStmt [.pos keyword, .nil, x, .nil, body]) style := by
  refine printTree_eq_of_node_eq style (x.height + 2) fun h pen hh => ?_
  obtain ⟨h, rfl⟩ := Nat.exists_eq_add_of_le' (Nat.le_of_add_left_le hh)
  have hheight : x.height ≤ h := by omega
  have hpage : Page.source ⟨none, .empty, style.indent⟩ = none := rfl
  rw [Pen.node_of_no_source hpage, Pen.node_of_no_source hpage, Layout.items_forStmt (.inl rfl),
    Layout.items_forStmt_cond hx]
  simp only [List.foldl_cons, List.foldl_nil, Pen.item_exprStmt hpage hheight]
  rfl

end Loops

/-- A file that was read need not be read again: in a loop without a condition the second semicolon
is missing. -/
theorem printFile_loses_semicolon :
    ∃ file, parseFile .code
      "package p\n\nfunc f() \x7b\n\tfor i := 0; ; i++ \x7b\x7d\n\x7d\n".toList = .ok file ∧
      ¬ ∃ file', parseFile .code (printFile file
        (.ofText "package p\n\nfunc f() \x7b\n\tfor i := 0; ; i++ \x7b\x7d\n\x7d\n".toList) ⟨[]⟩
        ⟨"\t", false⟩).toList = .ok file' := by
  have hrun :
      ((parseFile .code
        "package p\n\nfunc f() \x7b\n\tfor i := 0; ; i++ \x7b\x7d\n\x7d\n".toList).toOption.any
        fun file =>
        !(parseFile .code (printFile file
          (.ofText "package p\n\nfunc f() \x7b\n\tfor i := 0; ; i++ \x7b\x7d\n\x7d\n".toList) ⟨[]⟩
          ⟨"\t", false⟩).toList).isOk) = true := by
    decide +kernel
  obtain ⟨file, hfile, hfails⟩ := exists_of_any_toOption hrun
  refine ⟨file, hfile, ?_⟩
  rintro ⟨file', hfile'⟩
  rw [hfile'] at hfails
  cases hfails

end Graft
