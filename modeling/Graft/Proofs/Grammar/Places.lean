import Graft.Proofs.Grammar.Nodes

/-! # The positions a tree records

A tree that was read records the positions of some of its words, each of them once
(`Derives.positions_subperm`).  It does not always keep their order: the dots behind an argument are
recorded behind all arguments, and a wildcard among the names of a parameter list comes before them.
-/

namespace Graft

namespace Tree

theorem positions_list (ts : List Tree) : (list ts).positions = positionsAll ts := rfl

theorem positions_node (k : Kind) (fs : List Tree) : (node k fs).positions = positionsAll fs :=
  rfl

theorem positionsAll_cons (t : Tree) (ts : List Tree) :
    positionsAll (t :: ts) = t.positions ++ positionsAll ts := rfl

theorem positionsAll_append (ts us : List Tree) :
    positionsAll (ts ++ us) = positionsAll ts ++ positionsAll us := by
  induction ts with
  | nil => rfl
  | cons t ts ih =>
    rw [List.cons_append, positionsAll_cons, positionsAll_cons, ih, List.append_assoc]

theorem positionsAll_singleton (t : Tree) : positionsAll [t] = t.positions :=
  List.append_nil _

theorem positionsAll_sublist {ts us : List Tree} (h : ts.Sublist us) :
    (positionsAll ts).Sublist (positionsAll us) := by
  induction h with
  | slnil => exact .slnil
  | cons t _ ih => exact ih.trans (List.sublist_append_right _ _)
  | cons_cons t _ ih => exact List.Sublist.append (.refl _) ih

theorem positionsAll_eq_flatMap (ts : List Tree) : positionsAll ts = ts.flatMap positions := by
  induction ts with
  | nil => rfl
  | cons t ts ih => rw [positionsAll_cons, ih, List.flatMap_cons]

theorem mem_positionsAll {ts : List Tree} {p : Pos} :
    p ∈ positionsAll ts ↔ ∃ t ∈ ts, p ∈ t.positions := by
  induction ts with
  | nil => exact ⟨nofun, nofun⟩
  | cons t ts ih => simp [positionsAll_cons, ih]

theorem positions_pos_sublist (p : Pos) : (pos p).positions.Sublist [p] := by
  rw [positions]
  split
  · exact .refl _
  · exact List.nil_sublist _

/-- The first two of some values record no more than all of them. -/
theorem positions_targets_sublist (xs : List Tree) :
    ((xs[0]?.getD nil).positions ++ (xs[1]?.getD nil).positions).Sublist (positionsAll xs) := by
  match xs with
  | [] => exact .slnil
  | [x] => exact .refl _
  | x :: y :: xs =>
    rw [positionsAll_cons, positionsAll_cons, ← List.append_assoc]
    exact List.sublist_append_left _ _

end Tree

/-! ### Parameter lists -/

namespace Rules

variable {es : List ParamEntry} {fs pending : List Tree}

theorem positions_plainField (names : List Tree) (type : Tree) :
    (plainField names type).positions = Tree.positionsAll names ++ type.positions := by
  rw [plainField, Tree.positions_node]
  simp [Tree.positionsAll, Tree.positions]

theorem positionsAll_fields_cons (e : ParamEntry) (es : List ParamEntry) :
    Tree.positionsAll ((e :: es).map (·.field)) =
      Tree.positionsAll e.name.toList ++
      (e.type.positions ++ Tree.positionsAll (es.map (·.field))) := by
  rw [List.map_cons, Tree.positionsAll_cons, ParamEntry.field, positions_plainField,
    List.append_assoc]

/-- Names that share a type are put before it, and a wildcard before the names that wait for their
type. -/
theorem positions_namedFields (h : namedFields pending es = .ok fs) :
    (Tree.positionsAll fs).Perm
        (Tree.positionsAll pending ++ Tree.positionsAll (es.map (·.field))) ∧
      ((∀ e ∈ es, e.type.isKind .dots = false) → Tree.positionsAll fs =
        Tree.positionsAll pending ++ Tree.positionsAll (es.map (·.field))) := by
  fun_induction namedFields pending es generalizing fs with
  | case1 =>
    cases h
    exact ⟨.refl _, fun _ => rfl⟩
  | case2 => cases h
  | case3 pending name type es ih =>
    obtain ⟨gs, hgs, h⟩ := exists_of_bind_ok h
    cases h
    obtain ⟨hperm, heq⟩ := ih hgs
    have hfield (rest : List Pos) : Tree.positionsAll (pending ++ [name]) ++
        type.positions ++ rest =
        Tree.positionsAll pending ++ (Tree.positionsAll [name] ++ (type.positions ++ rest)) := by
      rw [Tree.positionsAll_append, List.append_assoc, List.append_assoc]
    rw [Tree.positionsAll_cons, positions_plainField, positionsAll_fields_cons]
    refine ⟨?_, fun hdots => ?_⟩
    · rw [hfield]
      exact ((hperm.append_left _).append_left _).append_left _
    · rw [heq fun e he => hdots e (List.mem_cons_of_mem _ he)]
      exact hfield _
  | case4 pending type es hkind ih =>
    obtain ⟨gs, hgs, h⟩ := exists_of_bind_ok h
    cases h
    obtain ⟨hperm, -⟩ := ih hgs
    rw [Tree.positionsAll_cons, positions_plainField, positionsAll_fields_cons]
    refine ⟨?_, fun hdots => ?_⟩
    · exact (hperm.append_left _).trans (List.perm_append_comm_assoc _ _ _)
    · rw [hdots _ List.mem_cons_self] at hkind
      cases hkind
  | case5 pending type es _ _ ih =>
    obtain ⟨hperm, heq⟩ := ih h
    rw [Tree.positionsAll_append, Tree.positionsAll_singleton, List.append_assoc] at hperm heq
    rw [positionsAll_fields_cons]
    exact ⟨hperm, fun hdots => heq fun e he => hdots e (List.mem_cons_of_mem _ he)⟩
  | case6 => cases h

/-- The fields of a parameter list are put together from names and types, or are its entries. -/
theorem namedFields_or_fields (h : fieldsOfEntries es = .ok fs) :
    namedFields [] es = .ok fs ∨ fs = es.map (·.field) := by
  unfold fieldsOfEntries at h
  split at h
  · exact .inl h
  · rename_i hnames
    cases h
    refine .inr (List.map_congr_left fun e he => ?_)
    have hname : e.name = none := by
      cases hname : e.name with
      | none => rfl
      | some x => exact absurd (List.any_eq_true.mpr ⟨e, he, by rw [hname]; rfl⟩) hnames
    rw [ParamEntry.field, hname]
    rfl

/-- **The fields of a parameter list record what its entries record.** -/
theorem positions_fieldsOfEntries (h : fieldsOfEntries es = .ok fs) :
    (Tree.positionsAll fs).Perm (Tree.positionsAll (es.map (·.field))) ∧
      ((∀ e ∈ es, e.type.isKind .dots = false) →
        Tree.positionsAll fs = Tree.positionsAll (es.map (·.field))) := by
  rcases namedFields_or_fields h with h | rfl
  · exact positions_namedFields h
  · exact ⟨.refl _, fun _ => rfl⟩

end Rules

/-! ### Derivations -/

namespace Derives

variable {d : Dialect} {s : Phrase} {ws : List Word} {t : Tree}

/-- **A tree that was read records positions of its words**, each at most once. -/
theorem positions_subperm (h : Derives d s ws t) (hs : s.isBare = true) :
    t.positions.Subperm (Word.positionsAll ws) := by
  have hmark (l : Lexeme) : (Tree.pos l.pos).positions.Subperm [l.pos] :=
    (Tree.positions_pos_sublist l.pos).subperm
  have hleaf {l : Lexeme} {k : Kind} {fs : List Tree} (hfs : Tree.positionsAll fs = []) :
      (Tree.node k (.pos l.pos :: fs)).positions.Subperm [l.pos] := by
    rw [Tree.positions_node, Tree.positionsAll, hfs, List.append_nil]
    exact hmark l
  have hleft {ps : List Pos} {vs ws : List Word} (h : ps.Subperm (Word.positionsAll vs)) :
      ps.Subperm (Word.positionsAll (vs ++ ws)) := by
    rw [Word.positionsAll_append]
    exact h.trans (List.sublist_append_left _ _).subperm
  -- one item more, or the fields of one part more
  have hjoin {u ts : List Tree} {v ws : List Word}
      (hu : (Tree.positionsAll u).Subperm (Word.positionsAll v))
      (hts : (Tree.list ts).positions.Subperm (Word.positionsAll ws)) :
      (Tree.list (u ++ ts)).positions.Subperm (Word.positionsAll (v ++ ws)) := by
    rw [Tree.positions_list] at hts ⊢
    rw [Tree.positionsAll_append, Word.positionsAll_append]
    exact hu.append hts
  have hone {t : Tree} {ws : List Word} (h : t.positions.Subperm (Word.positionsAll ws)) :
      (Tree.positionsAll [t]).Subperm (Word.positionsAll ws) := by
    rwa [Tree.positionsAll_singleton]
  induction h with
  | ident | literal | dots | period => exact hleaf rfl
  | noDoc | none | empty | endedNil | linesNil | partsNil => exact List.nil_subperm
  | doc g => exact (List.sublist_append_left _ _).subperm
  | cover hc _ ih => exact ih (hc.isBare hs)
  | node hr _ ih => exact ih (hr.isBare hs)
  | behind _ _ ih => exact (ih (Phrase.isBare_of_isProper hs)).cons_right _
  | word _ _ ih | lineEnd _ _ ih => exact (ih hs).cons_right _
  | spread _ _ ih => exact hleft (ih rfl)
  | endedComma _ _ ih | linesSemicolon _ _ ih => exact hleft (ih hs)
  | one _ _ ih => exact hone (ih (Phrase.isBare_of_isProper hs))
  | firstName _ ih => exact hone (ih rfl)
  | more _ _ _ ih₁ ih₂ | linesItem _ _ _ ih₁ ih₂ =>
    exact hjoin (ih₁ hs) (hone (ih₂ (Phrase.isBare_of_isProper hs)))
  | nextName _ _ _ ih₁ ih₂ => exact hjoin (ih₁ rfl) ((hone (ih₂ rfl)).cons_right _)
  | noLineEnd _ ih => exact ih hs
  | @mark _ _ l _ _ _ _ ih | @markIn _ _ l _ _ _ _ ih =>
    exact hjoin (u := [.pos l.pos]) (v := [.lexeme l]) (hone (hmark l)) (ih hs)
  | unmarked _ ih => exact ih hs
  | sub _ _ ih₁ ih₂ =>
    obtain ⟨hs₁, hs₂⟩ := (Bool.and_eq_true _ _).mp hs
    exact hjoin (hone (ih₁ (Phrase.isBare_of_isProper hs₁))) (ih₂ hs₂)
  | @const t ps ws ts _ ih =>
    obtain ⟨hs₁, hs₂⟩ := (Bool.and_eq_true _ _).mp hs
    have hempty := (Part.isBare_const hs₁).2.1
    exact hjoin (u := [t]) (v := []) (hone (hempty ▸ List.nil_subperm)) (ih hs₂)
  | @args ps ws ws' xs ts p _ hp _ ih₁ ih₂ =>
    refine hjoin (u := [.list xs, .pos p]) ?_ (ih₂ hs)
    rw [Tree.positionsAll, Tree.positionsAll_singleton, Tree.positions_list]
    rcases hp with rfl | ⟨l, -, -, rfl, hp⟩
    · exact (List.append_nil _).symm ▸ ih₁ rfl
    · have hrest := (Tree.positions_pos_sublist l.pos).append (.refl (Tree.positionsAll xs))
      exact List.perm_append_comm.subperm.trans (hrest.subperm.trans hp)
  | @targets ps ws ws' xs ts _ _ ih₁ ih₂ =>
    refine hjoin (u := [xs[0]?.getD .nil, xs[1]?.getD .nil]) ?_ (ih₂ hs)
    rw [Tree.positionsAll, Tree.positionsAll_singleton]
    exact (Tree.positions_targets_sublist xs).subperm.trans (ih₁ rfl)
  | params _ hfields _ ih₁ ih₂ =>
    refine hjoin (hone ?_) (ih₂ hs)
    rw [Tree.positions_list]
    exact (Rules.positions_fieldsOfEntries hfields).1.subperm.trans (ih₁ rfl)

end Derives

end Graft
