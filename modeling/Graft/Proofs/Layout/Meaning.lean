import Graft.Proofs.Grammar.Chain
import Graft.Proofs.Layout.FileReading
import Graft.Recipe.Apply
import Graft.Recipe.Compile

/-! # What the printed text means

Two trees mean the same when they are equal but for places and comments (`Tree.bare`).  A printed
file means what it was printed from if it is read as a tree that means the same.

What is read is well bound (`parseFile_wellBound`), and its operands and operators in order say all
about it (`parseFile_bare_eq_iff`).  But printing puts no parentheses around operands, and recipes
put expressions in place of others whatever operators are around them.  So a file that a recipe
leaves need not be well bound, and then its text groups operands in another way
(`printFile_regroups`).
-/

namespace Graft

/-- The place of a token as far as it counts: whether a token that may be missing is there. -/
def Width.bare : Width → Pos → Pos
  | .optional _, p | .bracket, p => if p.isValid then .atOffset 0 else .none
  | _, _ => .none

/-- A field as far as it counts, where `b` is its value without comments and places. -/
def Slot.bare (s : Slot) (t b : Tree) : Tree :=
  match s, t with
  | .doc, _ | .list .commentGroup, _ => .nil
  | .pos w, .pos p => .pos (w.bare p)
  | _, _ => b

namespace Tree

mutual

/-- A tree without comments, and without places but for whether a token is there. -/
def bare : Tree → Tree
  | list ts => list (bareAll ts)
  | node k fs => node k (bareFields k.fields fs)
  | t => t

/-- The trees of a list without comments and places. -/
def bareAll : List Tree → List Tree
  | [] => []
  | t :: ts => bare t :: bareAll ts

/-- The fields of a node without comments and places. -/
def bareFields : List Field → List Tree → List Tree
  | _, [] => []
  | [], t :: ts => bare t :: bareFields [] ts
  | f :: fs, t :: ts => f.slot.bare t (bare t) :: bareFields fs ts

end

theorem tightness_bare (t : Tree) : t.bare.tightness = t.tightness := by
  cases t with
  | node k fs =>
    rw [bare]
    by_cases hbinary : k = .binaryExpr
    · subst hbinary
      match fs with
      | [] | [_] | [_, _] => rfl
      | [_, _, c] | [_, _, c, _] | _ :: _ :: c :: _ :: _ :: _ => cases c <;> rfl
    by_cases hunary : k = .unaryExpr
    · subst hunary
      match fs with
      | [] | [_] => rfl
      | [_, c] | [_, c, _] | _ :: c :: _ :: _ :: _ => cases c <;> rfl
    by_cases hstar : k = .starExpr
    · subst hstar
      match fs with
      | [] | [_] | [_, _] | _ :: _ :: _ :: _ => rfl
    rw [tightness_node hbinary hunary hstar, tightness_node hbinary hunary hstar]
  | _ => rfl

theorem binds_bare {k : Kind} {fs : List Tree} (h : (node k fs).binds = true) :
    (node k (bareFields k.fields fs)).binds = true := by
  by_cases hbinary : k = .binaryExpr
  · subst hbinary
    match fs with
    | [] | [_] | [_, _] => rfl
    | [_, _, c] | _ :: _ :: c :: _ :: _ :: _ => cases c <;> rfl
    | [x, p, c, y] =>
      cases c with
      | tok op =>
        rw [binds_binary, ← tightness_bare x, ← tightness_bare y] at h
        exact binds_binary.mpr h
      | _ => rfl
  by_cases hunary : k = .unaryExpr
  · subst hunary
    match fs with
    | [] | [_] => rfl
    | [_, c] | _ :: c :: _ :: _ :: _ => cases c <;> rfl
    | [p, c, x] =>
      cases c with
      | tok op =>
        have hx : 6 ≤ x.tightness := of_decide_eq_true h
        rw [← tightness_bare x] at hx
        exact decide_eq_true hx
      | _ => rfl
  by_cases hstar : k = .starExpr
  · subst hstar
    match fs with
    | [] | [_] | _ :: _ :: _ :: _ => rfl
    | [p, x] =>
      have hx : 6 ≤ x.tightness := of_decide_eq_true h
      rw [← tightness_bare x] at hx
      exact decide_eq_true hx
  refine binds_node hbinary hunary hstar fun hsuffix x hx => ?_
  -- what a suffix stands behind is code in every schema, so it is still the first field
  cases fs with
  | nil => cases k <;> cases hx
  | cons y fs =>
    have hhead : (bareFields k.fields (y :: fs)).head? = some y.bare := by
      cases k <;> first | rfl | cases hsuffix
    rw [hhead] at hx
    cases hx
    rw [tightness_bare]
    exact (binds_suffix hsuffix).mp h

theorem wellBound_slot {s : Slot} {t b : Tree} (hb : b.wellBound = true) :
    (s.bare t b).wellBound = true := by
  unfold Slot.bare
  split
  · rfl
  · rfl
  · rfl
  · exact hb

mutual

/-- Comments and places do not count for how a tree is bound. -/
theorem wellBound_bare (t : Tree) (h : t.wellBound = true) : t.bare.wellBound = true := by
  match t with
  | nil | pos _ | str _ | tok _ => rfl
  | list ts => exact wellBound_list.mpr (wellBound_bareAll ts (wellBound_list.mp h))
  | node k fs =>
    obtain ⟨hbinds, hfs⟩ := wellBound_node.mp h
    exact wellBound_node.mpr ⟨binds_bare hbinds, wellBound_bareFields k.fields fs hfs⟩

theorem wellBound_bareAll (ts : List Tree) (h : ∀ t ∈ ts, t.wellBound = true) :
    ∀ t ∈ bareAll ts, t.wellBound = true := by
  match ts with
  | [] => exact List.forall_mem_nil _
  | t :: ts =>
    obtain ⟨ht, hts⟩ := List.forall_mem_cons.mp h
    exact List.forall_mem_cons.mpr ⟨wellBound_bare t ht, wellBound_bareAll ts hts⟩

theorem wellBound_bareFields (fs : List Field) (ts : List Tree) (h : ∀ t ∈ ts, t.wellBound = true) :
    ∀ t ∈ bareFields fs ts, t.wellBound = true := by
  match fs, ts with
  | _, [] =>
    rw [bareFields]
    exact List.forall_mem_nil _
  | [], t :: ts =>
    obtain ⟨ht, hts⟩ := List.forall_mem_cons.mp h
    exact List.forall_mem_cons.mpr ⟨wellBound_bare t ht, wellBound_bareFields [] ts hts⟩
  | f :: fs, t :: ts =>
    obtain ⟨ht, hts⟩ := List.forall_mem_cons.mp h
    exact List.forall_mem_cons.mpr
      ⟨wellBound_slot (wellBound_bare t ht), wellBound_bareFields fs ts hts⟩

end

end Tree

/-! ### What is read is well bound -/

theorem CommentGroup.wellBound_tree (ds : List Comment) (lastLine : Nat) :
    (ofComments ds lastLine).tree.wellBound = true := by
  have hlist : (Tree.list (ds.map fun c => .node .comment [.pos c.pos, .str c.text])).wellBound =
      true := by
    rw [Tree.wellBound_list]
    intro t ht
    obtain ⟨c, -, rfl⟩ := List.mem_map.mp ht
    rfl
  exact Tree.wellBound_node.mpr ⟨rfl, List.forall_mem_singleton.mpr hlist⟩

/-- **Every file that is read is well bound.** -/
theorem FileReading.wellBound {d : Dialect} {cs : List Char} (r : FileReading d cs) :
    r.node.tree.wellBound = true := by
  have hgroup {g : CommentGroup} (hg : g ∈ r.groups) : g.tree.wellBound = true := by
    obtain ⟨ds, line, -, -, rfl⟩ := r.groups_comments.exists_comments hg
    exact CommentGroup.wellBound_tree ds line
  have hdoc {ws : List Word} (h : ∀ w ∈ ws, w ∈ r.words) (g : CommentGroup) (hg : .doc g ∈ ws) :
      g.tree.wellBound = true := hgroup (r.run.mem_groups (h _ hg))
  have hcomments : (Tree.list (r.groups.map (·.tree))).wellBound = true := by
    rw [Tree.wellBound_list]
    intro t ht
    obtain ⟨g, hg, rfl⟩ := List.mem_map.mp ht
    exact hgroup hg
  rw [node, FileWords.file, Node.tree, Tree.wellBound_node]
  refine ⟨rfl, ?_⟩
  simp only [List.forall_mem_cons]
  refine ⟨r.doc_derives.wellBound rfl (hdoc ?_), rfl, r.name_derives.wellBound rfl (hdoc ?_),
    r.decls_derive.wellBound rfl (hdoc ?_), hcomments, List.forall_mem_nil _⟩
  all_goals simp +contextual [FileWords.words]

variable {d d' : Dialect} {cs cs' : List Char} {file file' : Node}

theorem parseFile_wellBound (h : parseFile d cs = .ok file) : file.tree.bare.wellBound = true := by
  obtain ⟨r, rfl⟩ := exists_fileReading h
  exact Tree.wellBound_bare _ r.wellBound

/-- **Two files that are read mean the same** exactly if they have the same operands and operators
in order: how these are grouped is no choice of the texts. -/
theorem parseFile_bare_eq_iff (h : parseFile d cs = .ok file) (h' : parseFile d' cs' = .ok file') :
    file.tree.bare = file'.tree.bare ↔ file.tree.bare.chain = file'.tree.bare.chain :=
  ⟨fun heq => congrArg Tree.chain heq,
    fun hchain => Tree.eq_of_chain (parseFile_wellBound h) (parseFile_wellBound h') hchain⟩

/-- A sum in place of a factor: only its second operand is multiplied in the text. -/
theorem printFile_regroups :
    ∃ rs file s,
      compilePatchFile "@@\n@@\n-x\n+a+b\n".toList = .ok rs ∧
      parseFile .code "package p\n\nvar a = x * c\n".toList = .ok file ∧
      Recipe.applyAll rs file (LineTable.ofText "package p\n\nvar a = x * c\n".toList) .default =
        .ok s ∧
      printFile s.file (Source.ofText "package p\n\nvar a = x * c\n".toList) s.changed .default =
        "package p\n\nvar a = a + b * c\n" ∧
      ¬ ∃ file', parseFile .code (printFile s.file
          (Source.ofText "package p\n\nvar a = x * c\n".toList) s.changed
          .default).toList = .ok file' ∧
        s.file.tree.bare = file'.tree.bare := by
  have hrun :
      ((compilePatchFile "@@\n@@\n-x\n+a+b\n".toList).toOption.any fun rs =>
        (parseFile .code "package p\n\nvar a = x * c\n".toList).toOption.any fun file =>
          (Recipe.applyAll rs file (LineTable.ofText "package p\n\nvar a = x * c\n".toList)
            .default).toOption.any fun s =>
              printFile s.file (Source.ofText "package p\n\nvar a = x * c\n".toList) s.changed
                .default == "package p\n\nvar a = a + b * c\n" &&
                !s.file.tree.bare.wellBound) = true := by
    decide +kernel
  obtain ⟨rs, hrs, hrun⟩ := exists_of_any_toOption hrun
  obtain ⟨file, hfile, hrun⟩ := exists_of_any_toOption hrun
  obtain ⟨s, hs, hrun⟩ := exists_of_any_toOption hrun
  rw [Bool.and_eq_true, beq_iff_eq, Bool.not_eq_true'] at hrun
  refine ⟨rs, file, s, hrs, hfile, hs, hrun.1, ?_⟩
  rintro ⟨file', hfile', hbare⟩
  have hbound := parseFile_wellBound hfile'
  rw [← hbare, hrun.2] at hbound
  cases hbound

end Graft
