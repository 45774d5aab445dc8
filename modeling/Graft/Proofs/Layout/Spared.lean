import Graft.Proofs.Layout.Declarations
import Graft.Proofs.Recipe.Frame
import Graft.Proofs.Tree.SameCode
import Graft.Recipe.Compile

/-! # What recipes spare is printed as it was

Recipes change trees and report ranges of the source as changed.  A declaration that is still there
after them, and that no changed range meets, is copied from the source: by itself, or with the whole
file (`printFile_spared`).  The printer never takes back what it has printed, so its text is in the
output.

A changed range may meet a declaration that no recipe has touched: a new token is given the place of
the code it replaces, and reaches as far behind that place as it is wide.  Where a second recipe
replaces it, the range that counts as changed may end in the next declaration, which is printed anew
then.
-/

namespace Graft

/-! ### The printer only adds -/

namespace Pen

variable {page : Page} {pen pen' pen'' : Pen}

/-- Whether a pen has printed what another has, then perhaps more and among it the given text. -/
def Prints (text : String) (pen pen' : Pen) : Prop := ∃ a b, pen'.out = pen.out ++ (a ++ text ++ b)

theorem Prints.refl (pen : Pen) : Prints "" pen pen := ⟨"", "", by simp⟩

theorem Prints.trans {s : String} (h : Prints s pen pen') (h' : Prints "" pen' pen'') :
    Prints s pen pen'' := by
  obtain ⟨a, b, h⟩ := h
  obtain ⟨a', b', h'⟩ := h'
  exact ⟨a, b ++ (a' ++ b'), by rw [h', h]; simp [String.append_assoc]⟩

theorem Prints.trans' {s : String} (h : Prints "" pen pen') (h' : Prints s pen' pen'') :
    Prints s pen pen'' := by
  obtain ⟨a, b, h⟩ := h
  obtain ⟨a', b', h'⟩ := h'
  exact ⟨a ++ b ++ a', b', by rw [h', h]; simp [String.append_assoc]⟩

theorem Prints.weaken {s : String} (h : Prints s pen pen') : Prints "" pen pen' := by
  obtain ⟨a, b, h⟩ := h
  exact ⟨a ++ s, b, by rw [h]; simp⟩

theorem Prints.of_isInfix {v w : List Char} (h : Prints (String.ofList w) pen pen')
    (hv : v <:+: w) :
    Prints (String.ofList v) pen pen' := by
  obtain ⟨a, b, h⟩ := h
  obtain ⟨x, y, rfl⟩ := hv
  exact ⟨a ++ String.ofList x, String.ofList y ++ b, by rw [h]; simp [String.append_assoc]⟩

theorem emit_prints (pen : Pen) (page : Page) (start stop : Pos) (text : String) :
    Prints text pen (pen.emit page start stop text) := by
  obtain ⟨gap, hout⟩ : ∃ gap, (pen.emit page start stop text).out = pen.out ++ gap ++ text :=
    ⟨_, rfl⟩
  exact ⟨gap, "", by rw [hout]; simp [String.append_assoc]⟩

theorem token_prints (pen : Pen) (page : Page) (p : Pos) (text : String) :
    Prints "" pen (pen.token page p text) := by
  unfold token
  split
  · exact (emit_prints ..).weaken
  · exact (emit_prints ..).weaken

theorem item_prints {node : Node → Pen → Pen} (hnode : ∀ n pen, Prints "" pen (node n pen))
    (pen : Pen) (i : Item) : Prints "" pen (item page node pen i) := by
  cases i with
  | gap s => exact .refl pen
  | token p text => exact token_prints pen page p text
  | tree t =>
    rw [item]
    split
    · exact hnode _ pen
    · exact .refl pen
  | deeper => exact .refl pen
  | shallower => exact .refl pen

theorem foldl_prints {f : Pen → Item → Pen} (hf : ∀ pen i, Prints "" pen (f pen i)) (is : List Item)
    (pen : Pen) : Prints "" pen (is.foldl f pen) := by
  induction is generalizing pen with
  | nil => exact .refl pen
  | cons i is ih => exact (hf pen i).trans (ih _)

/-- What one item prints is printed along a layout that has it. -/
theorem foldl_prints_of_mem {f : Pen → Item → Pen} (hf : ∀ pen i, Prints "" pen (f pen i))
    {s : String} {i : Item} (hi : ∀ pen, Prints s pen (f pen i)) {is : List Item}
    (hmem : i ∈ is) (pen : Pen) :
    Prints s pen (is.foldl f pen) := by
  obtain ⟨front, back, rfl⟩ := List.append_of_mem hmem
  rw [List.foldl_append, List.foldl_cons]
  exact (foldl_prints hf front pen).trans' ((hi _).trans (foldl_prints hf back _))

theorem node_prints (page : Page) (h : Nat) (n : Node) (pen : Pen) :
    Prints "" pen (node page h n pen) := by
  induction h generalizing n pen with
  | zero => exact .refl pen
  | succ h ih =>
    rw [node]
    split
    · exact (emit_prints ..).weaken
    · exact foldl_prints (item_prints ih) _ pen

theorem node_of_not_copied {h : Nat} {n : Node} (hcopy : page.copy? n = none) :
    node page (h + 1) n pen = (Layout.items page n).foldl (item page (node page h)) pen := by
  rw [node, hcopy]

/-- A node that is copied is printed as the source has it. -/
theorem node_prints_copy {h : Nat} {n : Node} {text : List Char} (hcopy : page.copy? n = some text)
    (pen : Pen) : Prints (String.ofList text) pen (node page (h + 1) n pen) := by
  rw [node, hcopy]
  exact emit_prints ..

end Pen

/-! ### Printing a file -/

theorem Tree.height_le_heightAll {t : Tree} {ts : List Tree} (h : t ∈ ts) :
    t.height ≤ heightAll ts := by
  induction ts with
  | nil => cases h
  | cons u ts ih =>
    rw [heightAll]
    rcases List.mem_cons.mp h with rfl | h
    · omega
    · have := ih h
      omega

/-- A file is higher than its declarations. -/
theorem Node.Framed.exists_height {doc package comments : Tree} {file : Node}
    (h : file.Framed doc package comments) {n : Node} (hn : n.tree ∈ file.list .decls) :
    ∃ k, file.tree.height = k + 2 := by
  obtain ⟨name, decls, rfl⟩ := h
  change n.tree ∈ decls.items at hn
  cases decls with
  | list ds =>
    have hlist : (Tree.list ds).height ≤ Tree.heightAll [doc, package, name, .list ds, comments] :=
      Tree.height_le_heightAll (by simp)
    have hfile : (Node.tree ⟨.file, [doc, package, name, .list ds, comments]⟩).height =
        Tree.heightAll [doc, package, name, .list ds, comments] + 1 := by
        rw [Node.tree, Tree.height]
    rw [Tree.height] at hlist
    exact ⟨Tree.heightAll [doc, package, name, .list ds, comments] - 1, by omega⟩
  | _ => cases hn

theorem Node.Framed.mem_items {doc package comments : Tree} {file : Node}
    (h : file.Framed doc package comments) {t : Tree} (ht : t ∈ file.list .decls) (page : Page) :
    .tree t ∈ Layout.items page file := by
  rw [Layout.items.eq_def, h.kind]
  refine List.mem_append_right _ ?_
  exact List.mem_flatMap.mpr ⟨t, ht, by simp⟩

/-- What a file prints is in the output. -/
theorem exists_of_prints {file : Node} {src : Source} {changed : SpanSet} {indent text : String}
    (h : Pen.Prints text (.start (.atOffset 0))
      (Pen.node ⟨some src, changed, indent⟩ file.tree.height file (.start (.atOffset 0)))) :
    ∃ a b, printFile file src changed ⟨indent, true⟩ = a ++ text ++ b := by
  obtain ⟨a, b, hout⟩ := h
  unfold printFile
  simp only [if_true]
  split
  · rename_i gap _
    exact ⟨a, b ++ String.ofList gap, by rw [hout]; simp [Pen.start, String.append_assoc]⟩
  · exact ⟨a, b ++ "\n", by rw [hout]; simp [Pen.start, String.append_assoc]⟩

theorem Node.Framed.stop_le {doc package comments : Tree} {file : Node}
    (h : file.Framed doc package comments) {t : Tree} (ht : t ∈ file.list .decls) :
    t.stop ≤ file.stop := by
  obtain ⟨name, decls, rfl⟩ := h
  change t ∈ decls.items at ht
  cases decls with
  | list ds =>
    have hlist : t.stop ≤ (Tree.list ds).stop := by
      rw [Tree.stop_list]
      exact Tree.stop_le_stopAll ht
    exact Pos.le_trans hlist (Tree.stop_le_stop_node (by simp) (Nat.le_refl 5))
  | _ => cases ht

/-- A file with the frame of one that was read begins where that begins. -/
theorem FileReading.start_framed {d : Dialect} {cs : List Char} (r : FileReading d cs) {file : Node}
    (h : file.Framed r.doc (.pos r.package.pos) (.list (r.groups.map (·.tree)))) :
    file.start = r.node.start := by
  obtain ⟨name, decls, rfl⟩ := h
  have hstart (ts : List Tree) : Tree.startAll (r.doc :: .pos r.package.pos :: ts) =
      if r.doc.start.isValid then r.doc.start else r.package.pos := by
    rw [Tree.startAll, Tree.startAll, Tree.start, if_pos (r.isValid_lexeme r.package_mem)]
  rw [Node.start, Node.tree, Tree.start, hstart, Node.start, FileReading.node, FileWords.file,
    Node.tree, Tree.start, hstart]

/-- **What recipes spare is printed as it was.**  A declaration of the source that is still there is
copied exactly if no changed range meets it, and then its text is in the output. -/
theorem printFile_spared {d : Dialect} {cs : List Char} {file : Node} {rs : List Recipe}
    {opts : Recipe.Options} {s : Recipe.Session} {t : Tree} (hfile : parseFile d cs = .ok file)
    (hs : Recipe.applyAll rs file (LineTable.ofText cs) opts = .ok s) (ht : t ∈ file.list .decls)
    (hkept : t ∈ s.file.list .decls) :
    ∃ n text, t = Node.tree n ∧ (Source.ofText cs).slice? t.span = some text ∧
      (Page.copy? ⟨some (Source.ofText cs), s.changed, "\t"⟩ n = some text ↔
        s.changed.intersects t.span = false) ∧
      (s.changed.intersects t.span = false → ∃ a b,
        printFile s.file (Source.ofText cs) s.changed .default = a ++ String.ofList text ++ b) := by
  obtain ⟨r, rfl⟩ := exists_fileReading hfile
  have hframed : s.file.Framed r.doc (.pos r.package.pos) (.list (r.groups.map (·.tree))) :=
    Recipe.applyAll_framed ⟨_, _, rfl⟩ hs
  let page : Page := ⟨some (Source.ofText cs), s.changed, "\t"⟩
  have hsrc : page.source = some (Source.ofText cs) := rfl
  obtain ⟨n, rfl⟩ := r.exists_node ht
  obtain ⟨hpackage, hcut, hlt⟩ := r.decl_place ht
  have hagrees := r.agrees_decl hsrc ht
  have hstop : IsCut (Source.ofText cs).text n.stop :=
    Page.isCut_stop hsrc n hagrees (Pos.isValid_of_lt hlt)
  obtain ⟨text, htext⟩ :=
    Source.exists_slice? (show IsCut (Source.ofText cs).text n.start from hcut)
    hstop (Nat.le_of_lt hlt)
  have hcopy (hspared : page.changed.intersects n.span = false) : page.copy? n = some text := by
    obtain ⟨text', hcopy, htext'⟩ := Page.copy?_of_agrees hsrc hcut hlt hagrees hspared
    rw [hcopy, ← htext', htext]
  refine ⟨n, text, rfl, htext, ⟨fun h => Page.not_intersects_of_copy? h, hcopy⟩, fun hspared => ?_⟩
  obtain ⟨k, hheight⟩ := hframed.exists_height hkept
  apply exists_of_prints
  rw [hheight]
  cases hwhole : page.copy? s.file with
  | some whole =>
    -- the file is copied as a whole, and the declaration stands in it
    have hstart : s.file.start ≤ n.start := by
      rw [r.start_framed hframed]
      exact Pos.le_trans r.start_le_package hpackage
    have hinfix : text <:+: whole :=
      Source.isInfix_of_slice? htext (Page.slice?_of_copy? hsrc hwhole)
      hstart (hframed.stop_le hkept)
    exact (Pen.node_prints_copy hwhole _).of_isInfix hinfix
  | none =>
    have hitem (pen : Pen) : Pen.Prints (String.ofList text) pen
        (Pen.item page (Pen.node page (k + 1)) pen (.tree n)) :=
        Pen.node_prints_copy (hcopy hspared) pen
    have hnode := Pen.foldl_prints_of_mem (Pen.item_prints (Pen.node_prints page (k + 1))) hitem
      (hframed.mem_items hkept page) (.start (.atOffset 0))
    rwa [← Pen.node_of_not_copied hwhole] at hnode

/-- Beside a declaration that changes, the next one keeps its blanks. -/
theorem printFile_spared_second :
    ∃ rs file s n text,
      compilePatchFile "@@\n@@\n-x\n+z\n".toList = .ok rs ∧
      parseFile .code "package p\n\nvar a = x\nvar b = q . r\n".toList = .ok file ∧
      Recipe.applyAll rs file (LineTable.ofText "package p\n\nvar a = x\nvar b = q . r\n".toList)
        .default = .ok s ∧
      Node.tree n ∈ file.list .decls ∧ Node.tree n ∈ s.file.list .decls ∧
      s.changed.intersects n.span = false ∧
      (Source.ofText "package p\n\nvar a = x\nvar b = q . r\n".toList).slice? n.span = some text ∧
      ∃ a b, printFile s.file (Source.ofText "package p\n\nvar a = x\nvar b = q . r\n".toList)
        s.changed .default = a ++ String.ofList text ++ b := by
  have hspares :
      ((compilePatchFile "@@\n@@\n-x\n+z\n".toList).toOption.any fun rs =>
        (parseFile .code "package p\n\nvar a = x\nvar b = q . r\n".toList).toOption.any fun file =>
          (Recipe.applyAll rs file
            (LineTable.ofText "package p\n\nvar a = x\nvar b = q . r\n".toList)
            .default).toOption.any fun s =>
              (file.list .decls)[1]?.any fun t => (s.file.list .decls)[1]?.any fun t' =>
                t.agreeBy (· == ·) t' && !s.changed.intersects t.span) = true := by decide +kernel
  obtain ⟨rs, hrs, hspares⟩ := exists_of_any_toOption hspares
  obtain ⟨file, hfile, hspares⟩ := exists_of_any_toOption hspares
  obtain ⟨s, hs, hspares⟩ := exists_of_any_toOption hspares
  obtain ⟨t, ht, hspares⟩ := (Option.any_eq_true _ _).mp hspares
  obtain ⟨t', ht', hspares⟩ := (Option.any_eq_true _ _).mp hspares
  rw [Bool.and_eq_true, Bool.not_eq_true'] at hspares
  obtain ⟨hsame, hspared⟩ := hspares
  cases Tree.eq_of_agreeBy t t' hsame
  have ht := List.mem_of_getElem? ht
  have ht' := List.mem_of_getElem? ht'
  obtain ⟨n, text, rfl, htext, -, hprint⟩ := printFile_spared hfile hs ht ht'
  exact ⟨rs, file, s, n, text, hrs, hfile, hs, ht, ht', hspared, htext, hprint hspared⟩

end Graft
