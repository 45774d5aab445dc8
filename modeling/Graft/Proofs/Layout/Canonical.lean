import Graft.Proofs.Layout.Spared
import Graft.Proofs.Recipe.Compiled
import Graft.Proofs.Recipe.Replacing
import Graft.Proofs.Tree.Code

/-! # Canonical text depends on the code alone

A tree printed by itself is printed without a source.  Nothing is copied then, no token is found
where the tree says, and no two places stand on one line, so positions matter only in so far as they
tell which optional tokens are there.  That much the code of a tree keeps (`Tree.code`): its layout
is the layout of the tree without places (`Layout.items_code`), and an item without places is
printed as the item is.
-/

namespace Graft

variable {page : Page}

namespace Page

theorem copy?_of_no_source (h : page.source = none) (n : Node) :
    page.copy? n = none := by rw [copy?, h]

theorem hasText_of_no_source (h : page.source = none) (p : Pos) (text : String) :
    page.hasText p text = false := by
  rw [hasText, h]

theorem sameLine_of_no_source (h : page.source = none) (p q : Pos) : page.sameLine p q = false := by
  rw [sameLine, h]

end Page

/-! ### Layouts -/

/-- The code of a node. -/
def Node.code (n : Node) : Node := n.mapPos Pos.presence

namespace Node

variable (n : Node) (l : Label)

theorem tree_code : n.code.tree = n.tree.code := tree_mapPos n

@[simp] theorem kind_code : n.code.kind = n.kind := rfl
@[simp] theorem get_code : n.code.get l = (n.get l).code := get_mapPos n l
@[simp] theorem list_code : n.code.list l = (n.list l).map Tree.code := list_mapPos n l
@[simp] theorem str?_code : n.code.str? l = n.str? l := str?_mapPos n l
@[simp] theorem tok?_code : n.code.tok? l = n.tok? l := tok?_mapPos n l
@[simp] theorem posOf_code : n.code.posOf l = (n.posOf l).presence := posOf_mapPos rfl n l
@[simp] theorem node?_code : n.code.node? l = (n.node? l).map code := node?_mapPos n l

end Node

@[simp] theorem Tree.isNil_code (t : Tree) : t.code.isNil = t.isNil := isNil_mapPos t
@[simp] theorem Tree.node?_code (t : Tree) : t.code.node? = t.node?.map Node.code := node?_mapPos t

namespace Item

/-- An item without its places. -/
def code : Item → Item
  | token p text => token p.presence text
  | tree t => tree t.code
  | i => i

@[simp] theorem code_gap (s : Separator) : (gap s).code = gap s := rfl
@[simp] theorem code_tree (t : Tree) : (tree t).code = tree t.code := rfl
@[simp] theorem code_bare (text : String) : (bare text).code = bare text := rfl
@[simp] theorem code_deeper : deeper.code = deeper := rfl
@[simp] theorem code_shallower : shallower.code = shallower := rfl

@[simp] theorem separated_code (s : Separator) (ts : List Tree) :
    separated s (ts.map Tree.code) = (separated s ts).map code := by
  induction ts with
  | nil => rfl
  | cons t ts ih =>
    cases ts with
    | nil => rfl
    | cons u us => exact congrArg (fun is => tree t.code :: gap s :: is) ih

@[simp] theorem preceded_code (s : Separator) (ts : List Tree) :
    preceded s (ts.map Tree.code) = (preceded s ts).map code := by
  simp [preceded, List.flatMap_map, List.map_flatMap]

@[simp] theorem map_code_ifPresent (t : Tree) (is : List Item) :
    (ifPresent t is).map code = ifPresent t.code (is.map code) := by
  unfold ifPresent
  rw [Tree.isNil_code]
  split <;> rfl

@[simp] theorem map_code_ite {p : Prop} [Decidable p] (is js : List Item) :
    (if p then is else js).map code = if p then is.map code else js.map code := apply_ite _ p is js

end Item

namespace Layout

open Item

@[simp] theorem child_code (n : Node) (l : Label) : child n.code l = (child n l).code := by
  rw [child, Node.get_code]
  rfl

@[simp] theorem mark_code (n : Node) (l : Label) (text : String) :
    mark n.code l text = (mark n l text).code := by
  rw [mark, Node.posOf_code]
  rfl

@[simp] theorem spelling_code (n : Node) (l : Label) (missing : String) :
    spelling n.code l missing = spelling n l missing := by
  rw [spelling, Node.tok?_code, spelling]

variable (hpage : page.source = none)

@[simp] theorem doc_code (n : Node) : doc n.code = (doc n).map code := by simp [doc]

@[simp] theorem signature_code (n : Node) : signature n.code = (signature n).map code := by
  unfold signature
  rw [Node.node?_code, Node.node?_code]
  cases n.node? .params <;> cases n.node? .results <;> simp [Node.tree_code]

@[simp] theorem isBareResult_code (n : Node) : isBareResult n.code = isBareResult n := by
  unfold isBareResult
  rw [Node.posOf_code, Pos.isValid_presence, Node.list_code]
  match n.list .list with
  | [] => rfl
  | _ :: _ :: _ => rfl
  | [f] =>
    dsimp only [List.map]
    rw [Tree.node?_code]
    cases f.node? with
    | none => rfl
    | some f => simp

@[simp] theorem paramList_code (n : Node) : paramList n.code = (paramList n).map code := by
  simp [paramList]

@[simp] theorem field_code (n : Node) : field n.code = (field n).map code := by
  unfold field
  simp only [Node.get_code, Tree.node?_code, Node.list_code, List.isEmpty_map]
  cases (n.get .type).node? with
  | none => simp
  | some t =>
    have hmethod : (decide (t.code.kind = .funcType) && !(t.code.posOf .func).isValid &&
        !(n.list .names).isEmpty) =
        (decide (t.kind = .funcType) && !(t.posOf .func).isValid && !(n.list .names).isEmpty) := by
      rw [Node.posOf_code, Pos.isValid_presence]
      rfl
    rw [Option.map_some]
    dsimp only
    rw [hmethod]
    generalize (decide (t.kind = .funcType) && !(t.posOf .func).isValid &&
      !(n.list .names).isEmpty) = isMethod
    cases isMethod <;> simp

@[simp] theorem loopClauses_code (n : Node) : loopClauses n.code = (loopClauses n).map code := by
  simp [loopClauses]

@[simp] theorem rangeTargets_code (n : Node) : rangeTargets n.code = (rangeTargets n).map code := by
  simp [rangeTargets]

@[simp] theorem specs_code (n : Node) : specs n.code = (specs n).map code := by
  simp [specs]

include hpage

theorem bracedFields_code (l : Option Node) :
    bracedFields page (l.map Node.code) = (bracedFields page l).map code := by
  cases l with
  | none => rfl
  | some l => simp [bracedFields, Page.copy?_of_no_source hpage]

theorem block_code (indented : Bool) (n : Node) :
    block page indented n.code = (block page indented n).map code := by
  cases indented <;> simp [block, Page.sameLine_of_no_source hpage, hpage]

theorem switchBody_code (n : Node) : switchBody page n.code = (switchBody page n).map code := by
  unfold switchBody
  rw [Node.node?_code]
  cases n.node? .body with
  | none => rfl
  | some body => simp [Page.copy?_of_no_source hpage, block_code hpage]

/-- The layout of a node without places is the layout of the node, without places. -/
theorem items_code (n : Node) : items page n.code = (items page n).map code := by
  have hfields : n.code.fields.head?.getD .nil = (n.fields.head?.getD .nil).code := by
    cases hn : n.fields <;> simp [Node.code, Node.mapPos, hn, Tree.code]
  unfold items
  rw [Node.kind_code]
  cases n.kind with
  | funcDecl =>
    simp
    cases n.node? .recv <;> cases n.node? .type <;> simp [Node.tree_code]
  | _ => simp [hfields, bracedFields_code hpage, block_code hpage, switchBody_code hpage]

end Layout

/-! ### Printing -/

namespace Pen

variable (hpage : page.source = none)

include hpage

theorem token_of_no_source (pen : Pen) (p : Pos) (text : String) :
    pen.token page p text = pen.emit page .none .none text := by
  rw [token, Page.hasText_of_no_source hpage]
  rfl

/-- An item without places is printed as the item is, if its nodes are. -/
theorem item_code {print : Node → Pen → Pen} (hprint : ∀ n pen, print n.code pen = print n pen)
    (pen : Pen) (i : Item) : item page print pen i.code = item page print pen i := by
  cases i with
  | token p text =>
    exact (token_of_no_source hpage pen _ text).trans (token_of_no_source hpage pen p text).symm
  | tree t =>
    rw [Item.code_tree, item, item, Tree.node?_code]
    cases t.node? with
    | none => rfl
    | some n => exact hprint n pen
  | _ => rfl

/-- A node without places is printed as the node is. -/
theorem node_code (h : Nat) (n : Node) (pen : Pen) :
    node page h n.code pen = node page h n pen := by
  induction h generalizing n pen with
  | zero => rfl
  | succ h ih =>
    rw [node_of_not_copied (Page.copy?_of_no_source hpage n.code),
      node_of_not_copied (Page.copy?_of_no_source hpage n), Layout.items_code hpage, List.foldl_map]
    congr 1
    funext pen i
    exact item_code hpage ih pen i

end Pen

/-- A value without places is printed as the value is. -/
theorem printTree_code (t : Tree) (style : Style) : printTree t.code style = printTree t style := by
  rw [printTree, printTree, Tree.node?_code]
  cases t.node? with
  | none => rfl
  | some n =>
    have hheight : t.code.height = t.height := t.height_mapPos
    rw [hheight]
    exact congrArg Pen.out (Pen.node_code rfl _ n _)

/-- Values of the same code are printed alike. -/
theorem Tree.SameCode.printTree_eq {t u : Tree} (h : t.SameCode u) (style : Style) :
    printTree t style = printTree u style := by
  rw [← printTree_code t, h.code_eq, printTree_code]

namespace Recipe

/-- Where nothing is put in place of a match, the replacement was built and spells the code of the
match. -/
theorem exists_of_replaceInto_none {r : Recipe} {c : Captures} {log log' : EditLog}
    {slot : Option Slot} {old : Node} (h : r.replaceInto c log slot (some old) = (.ok none, log')) :
    ∃ value draft, (r.build c).run ⟨((c.span? .site).getD .none).start, []⟩ = .ok (value, draft) ∧
      value.SameCode old := by
  unfold replaceInto at h
  dsimp only at h
  split at h
  · cases h
  · rename_i value draft hbuilt
    split at h
    · cases h
    · refine ⟨value, draft, hbuilt, ?_⟩
      cases value with
      | node k fs =>
        by_cases hsame : (Tree.node k fs).sameCode old
        · exact hsame
        · cases (if_neg hsame).symm.trans h
      | _ => cases h

/-- **Canonical text depends on the code alone.**  Values that spell the same code are printed alike
by themselves; so what would have replaced a match, where the driver leaves it alone as the same
code, is printed as the match is. -/
theorem printTree_sameCode :
    (∀ t u : Tree, t.SameCode u → ∀ style, printTree t style = printTree u style) ∧
    ∀ (r : Recipe) (c : Captures) (log log' : EditLog) (slot : Option Slot) (old : Node),
      r.replaceInto c log slot (some old) = (.ok none, log') →
      ∃ value draft, (r.build c).run ⟨((c.span? .site).getD .none).start, []⟩ = .ok (value, draft) ∧
        ∀ style, printTree value style = printTree old style := by
  refine ⟨fun t u h => h.printTree_eq, fun r c log log' slot old h => ?_⟩
  obtain ⟨value, draft, hbuilt, hsame⟩ := exists_of_replaceInto_none h
  exact ⟨value, draft, hbuilt, hsame.printTree_eq⟩

/-- Here two calls are spelled with and without blanks, and the first one is built anew from what it
matched. -/
theorem printTree_sameCode_call :
    ∃ (r : Recipe) (v w : Node) (c : Captures),
      compilePatchFile "@@\nvar x expression\n@@\n-f(x)\n+f( x )\n".toList = .ok [r] ∧
      v.tree.SameCode w ∧ v ≠ w ∧
      r.matchNode? v = some c ∧ r.replaceInto c .empty none (some v) = (.ok none, .empty) ∧
      printTree v .default = printTree w .default ∧
      ∃ value draft, (r.build c).run ⟨((c.span? .site).getD .none).start, []⟩ = .ok (value, draft) ∧
        printTree value .default = printTree v .default := by
  have hpasses : passes "@@\nvar x expression\n@@\n-f(x)\n+f( x )\n"
      "package p\n\nvar a = f(1) + f( 1 )\n"
      (fun r file => file.tree.nodes.any fun (v : Node) => file.tree.nodes.any fun (w : Node) =>
        v.tree.sameCode w && !(v == w) && v.kind == .callExpr && (r.matchNode? v).any fun c =>
          (r.replaceInto c .empty none (some v)).1.toOption.any (·.isNone) &&
            decide ((r.replaceInto c .empty none (some v)).2 = .empty)) = true := by decide +kernel
  obtain ⟨r, file, hr, -, hcheck⟩ := exists_of_passes hpasses
  obtain ⟨v, -, hcheck⟩ := List.any_eq_true.mp hcheck
  obtain ⟨w, -, hcheck⟩ := List.any_eq_true.mp hcheck
  simp only [Bool.and_eq_true, Bool.not_eq_true', beq_eq_false_iff_ne] at hcheck
  obtain ⟨⟨⟨hvw, hne⟩, -⟩, hfound⟩ := hcheck
  obtain ⟨c, hc, hreplaced⟩ := (Option.any_eq_true _ _).mp hfound
  obtain ⟨hnone, hlog⟩ := (Bool.and_eq_true _ _).mp hreplaced
  obtain ⟨value?, hok, hvalue⟩ := exists_of_any_toOption hnone
  obtain rfl := Option.isNone_iff_eq_none.mp hvalue
  have hreplaced : r.replaceInto c .empty none (some v) = (.ok none, .empty) :=
    Prod.ext hok (of_decide_eq_true hlog)
  obtain ⟨value, draft, hbuilt, hprinted⟩ := printTree_sameCode.2 r c _ _ _ v hreplaced
  exact ⟨r, v, w, c, hr, hvw, hne, hc, hreplaced, printTree_sameCode.1 _ _ hvw _, value, draft,
    hbuilt, hprinted _⟩

end Recipe

end Graft
