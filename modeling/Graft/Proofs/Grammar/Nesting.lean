import Graft.Proofs.Grammar.Places
import Graft.Proofs.Grammar.Positions
import Mathlib.Data.List.Flatten

/-! # Regions nest

A node of code begins at the first position it records, and no other position it records lies before
that (`Derives.firstLeast`): whatever the order of its fields, the first of them that is there
begins first.  The same is true of the lists in its fields.  So the region of a node holds the
regions of all nodes inside it.

In patterns this is not so: a wildcard among the names of a parameter list is put before them.
-/

namespace Graft

/-- Whether the first of some positions is the least of them. -/
def Pos.FirstLeast (ps : List Pos) : Prop := ∀ p ∈ ps.head?, ∀ q ∈ ps, p ≤ q

namespace Pos.FirstLeast

variable {ps qs : List Pos}

theorem nil : FirstLeast [] := nofun

theorem of_pairwise (h : ps.Pairwise (· ≤ ·)) : FirstLeast ps := by
  cases ps with
  | nil => exact nil
  | cons p ps =>
    rintro _ ⟨⟩
    exact List.forall_mem_cons.mpr ⟨Pos.le_refl p, (List.pairwise_cons.mp h).1⟩

/-- Positions behind others; if there are others, their own order does not matter. -/
theorem append (h : FirstLeast ps) (h' : ps = [] → FirstLeast qs)
    (hle : ∀ p ∈ ps, ∀ q ∈ qs, p ≤ q) :
    FirstLeast (ps ++ qs) := by
  cases ps with
  | nil => exact h' rfl
  | cons p ps =>
    rintro _ ⟨⟩
    exact List.forall_mem_append.mpr ⟨h p rfl, hle p List.mem_cons_self⟩

end Pos.FirstLeast

namespace Tree

mutual

theorem isValid_of_mem_positions (t : Tree) : ∀ p ∈ t.positions, p.isValid = true := by
  match t with
  | pos p =>
    rw [positions]
    split
    · rename_i hvalid
      exact List.forall_mem_singleton.mpr hvalid
    · nofun
  | list ts | node _ ts =>
    rw [positions]
    exact isValid_of_mem_positionsAll ts
  | nil | str _ | tok _ =>
    rw [positions] <;> nofun

theorem isValid_of_mem_positionsAll (ts : List Tree) : ∀ p ∈ positionsAll ts, p.isValid = true := by
  match ts with
  | [] => nofun
  | t :: ts =>
    rw [positionsAll]
    exact List.forall_mem_append.mpr ⟨isValid_of_mem_positions t, isValid_of_mem_positionsAll ts⟩

end

mutual

/-- A value begins at the first position it records. -/
theorem start_eq_head (t : Tree) : t.start = t.positions.head?.getD .none := by
  match t with
  | pos p =>
    rw [start, positions]
    split
    · rfl
    · rename_i hvalid
      exact Pos.eq_none hvalid
  | list ts | node _ ts =>
    rw [start, positions]
    exact startAll_eq_head ts
  | nil | str _ | tok _ => rfl

theorem startAll_eq_head (ts : List Tree) : startAll ts = (positionsAll ts).head?.getD .none := by
  match ts with
  | [] => rfl
  | t :: ts =>
    rw [startAll, positionsAll, startAll_eq_head ts, start_eq_head t]
    cases hps : t.positions with
    | nil => rfl
    | cons p ps =>
      have hvalid : p.isValid = true :=
        isValid_of_mem_positions t p (by rw [hps]; exact List.mem_cons_self)
      simp [hvalid]

end

theorem isSome_kind? {t : Tree} (h : t.isCode = true) : t.kind?.isSome = true := by
  obtain ⟨k, fs, rfl, -⟩ := exists_of_isCode h
  rfl

theorem start_le_of_mem {t : Tree} {p : Pos} (h : Pos.FirstLeast t.positions)
    (hp : p ∈ t.positions) :
    t.start ≤ p := by
  rw [start_eq_head]
  obtain ⟨q, qs, hps⟩ := List.exists_cons_of_ne_nil (List.ne_nil_of_mem hp)
  rw [hps] at h hp ⊢
  exact h q rfl p hp

theorem firstLeast_pos (p : Pos) : Pos.FirstLeast (pos p).positions :=
  .of_pairwise ((List.pairwise_singleton _ p).sublist (positions_pos_sublist p))

/-- A node that records a single position. -/
theorem firstLeast_leaf {p : Pos} {k : Kind} {fs : List Tree} (hfs : positionsAll fs = []) :
    Pos.FirstLeast (node k (pos p :: fs)).positions := by
  rw [positions_node, positionsAll, hfs, List.append_nil]
  exact firstLeast_pos p

theorem start_mem_positions {t : Tree} (h : t.start.isValid = true) : t.start ∈ t.positions := by
  rw [start_eq_head] at h ⊢
  cases hps : t.positions with
  | nil =>
    rw [hps] at h
    cases h
  | cons p ps => exact List.mem_cons_self

mutual

/-- A node records no positions that the value it is in does not record. -/
theorem positions_subset_of_mem_nodes (t : Tree) :
    ∀ n ∈ t.nodes, n.tree.positions ⊆ t.positions := by
  match t with
  | list ts =>
    rw [nodes, positions]
    exact positions_subset_of_mem_nodesAll ts
  | node k fs =>
    rw [nodes, List.forall_mem_cons]
    refine ⟨List.Subset.refl _, ?_⟩
    rw [positions]
    exact positions_subset_of_mem_nodesAll fs
  | nil | pos _ | str _ | tok _ =>
    rw [nodes] <;> nofun

theorem positions_subset_of_mem_nodesAll (ts : List Tree) :
    ∀ n ∈ nodesAll ts, n.tree.positions ⊆ positionsAll ts := by
  match ts with
  | [] => nofun
  | t :: ts =>
    rw [nodesAll, positionsAll]
    refine List.forall_mem_append.mpr ⟨fun n hn => ?_, fun n hn => ?_⟩
    · exact List.Subset.trans (positions_subset_of_mem_nodes t n hn) (List.subset_append_left _ _)
    · exact List.Subset.trans (positions_subset_of_mem_nodesAll ts n hn)
        (List.subset_append_right _ _)

end

end Tree

/-! ### Values in order -/

/-- Whether values begin at their least positions, and none of them records a position behind one
that a later value records. -/
structure Tree.Ascend (ts : List Tree) : Prop where
  first : ∀ t ∈ ts, Pos.FirstLeast t.positions
  sorted : ts.Pairwise fun t u => ∀ p ∈ t.positions, ∀ q ∈ u.positions, p ≤ q

namespace Tree.Ascend

variable {ts us : List Tree}

theorem sublist (h : Ascend us) (hsub : ts.Sublist us) : Ascend ts :=
  ⟨fun t ht => h.first t (hsub.subset ht), h.sorted.sublist hsub⟩

theorem firstLeast (h : Ascend ts) : Pos.FirstLeast (positionsAll ts) := by
  induction ts with
  | nil => exact .nil
  | cons t ts ih =>
    obtain ⟨hcross, hrest⟩ := List.pairwise_cons.mp h.sorted
    refine (h.first t List.mem_cons_self).append
      (fun _ => ih (h.sublist (List.sublist_cons_self t ts))) ?_
    intro p hp q hq
    obtain ⟨u, hu, hq⟩ := mem_positionsAll.mp hq
    exact hcross u hu p hp q hq

theorem append (hts : Ascend ts) (hus : Ascend us)
    (hcross : ∀ p ∈ positionsAll ts, ∀ q ∈ positionsAll us, p ≤ q) : Ascend (ts ++ us) := by
  refine ⟨List.forall_mem_append.mpr ⟨hts.first, hus.first⟩,
    List.pairwise_append.mpr ⟨hts.sorted, hus.sorted, fun t ht u hu p hp q hq => ?_⟩⟩
  exact hcross p (mem_positionsAll.mpr ⟨t, ht, hp⟩) q (mem_positionsAll.mpr ⟨u, hu, hq⟩)

theorem singleton {t : Tree} (h : Pos.FirstLeast t.positions) : Ascend [t] :=
  ⟨List.forall_mem_singleton.mpr h, List.pairwise_singleton _ _⟩

end Tree.Ascend

namespace Rules

variable {es : List ParamEntry} {fs names : List Tree} {type : Tree}

theorem sublist_of_mem_namedFields {pending : List Tree} (h : namedFields pending es = .ok fs)
    (hmem : plainField names type ∈ fs) :
    (names ++ [type]).Sublist (pending ++ es.flatMap (·.parts)) := by
  fun_induction namedFields pending es generalizing fs with
  | case1 =>
    cases h
    cases hmem
  | case2 => cases h
  | case3 pending name type' es ih =>
    obtain ⟨gs, hgs, h⟩ := exists_of_bind_ok h
    cases h
    rw [List.flatMap_cons, ← List.append_assoc]
    rcases List.mem_cons.mp hmem with heq | hmem
    · cases heq
      rw [ParamEntry.parts, ← List.append_assoc]
      exact List.sublist_append_left _ _
    · exact (ih hgs hmem).trans (List.sublist_append_right _ _)
  | case4 pending type' es _ ih =>
    obtain ⟨gs, hgs, h⟩ := exists_of_bind_ok h
    cases h
    rcases List.mem_cons.mp hmem with heq | hmem
    · cases heq
      exact (List.sublist_append_left [type] (es.flatMap (·.parts))).trans
        (List.sublist_append_right _ _)
    · exact (ih hgs hmem).trans ((List.Sublist.refl _).append (List.sublist_append_right _ _))
  | case5 pending type' es _ _ ih =>
    have hsub := ih h hmem
    rwa [List.append_assoc] at hsub
  | case6 => cases h

/-- The names and the type of a parameter stand in the order of the entries. -/
theorem sublist_of_mem_fieldsOfEntries (h : fieldsOfEntries es = .ok fs)
    (hmem : plainField names type ∈ fs) : (names ++ [type]).Sublist (es.flatMap (·.parts)) := by
  unfold fieldsOfEntries at h
  split at h
  · exact sublist_of_mem_namedFields h hmem
  · cases h
    obtain ⟨e, he, heq⟩ := List.mem_map.mp hmem
    cases heq
    have hparts : [e.type].Sublist e.parts := List.sublist_append_right _ _
    exact hparts.trans (List.sublist_flatten_of_mem (List.mem_map_of_mem he))

theorem positionsAll_parts (es : List ParamEntry) :
    Tree.positionsAll (es.flatMap (·.parts)) = Tree.positionsAll (es.map (·.field)) := by
  induction es with
  | nil => rfl
  | cons e es ih =>
    rw [positionsAll_fields_cons, List.flatMap_cons, Tree.positionsAll_append, ih, ParamEntry.parts,
      Tree.positionsAll_append, Tree.positionsAll_singleton, List.append_assoc]

end Rules

/-! ### Rows -/

/-- Whether the parts that do not keep the order of their words come behind a token that is
recorded. -/
def Part.areFronted : List Part → Bool
  | [] | .mark _ :: _ | .markIn _ :: _ => true
  | .args :: _ | .targets :: _ | .params :: _ => false
  | _ :: ps => areFronted ps

theorem Row.areFronted {s : Phrase} {k : Kind} {ps : List Part} (h : Row s k ps) :
    Part.areFronted ps = true := by
  cases h <;> rfl

/-- Whether the first position of a phrase is its least. -/
def Phrase.isFronted : Phrase → Bool
  | .parts ps => Part.areFronted ps
  | _ => true

theorem Covers.isFronted {s s' : Phrase} (h : Covers s s') (hs : s.isBare = true) :
    s'.isFronted = true := by
  have hproper : s.isProper = true := by cases h <;> exact hs
  cases s' with
  | parts ps => cases h <;> cases hproper
  | _ => rfl

theorem Phrase.isFronted_of_isProper {s : Phrase} (h : s.isProper = true) : s.isFronted = true := by
  cases s with
  | parts ps => cases h
  | _ => rfl

/-- Whether a sort of phrase is a stretch of fields. -/
def Phrase.isParts : Phrase → Bool
  | .parts _ => true
  | _ => false

/-- Whether words stand in order, each at some place. -/
structure Word.Ordered (ws : List Word) : Prop where
  valid : ∀ p ∈ positionsAll ws, p.isValid = true
  sorted : (positionsAll ws).Pairwise (· ≤ ·)

namespace Word.Ordered

variable {vs ws : List Word}

theorem sublist (h : Ordered ws) (hsub : vs.Sublist ws) : Ordered vs := by
  have hpos : (positionsAll vs).Sublist (positionsAll ws) := hsub.flatMap _
  exact ⟨fun p hp => h.valid p (hpos.subset hp), h.sorted.sublist hpos⟩

theorem left (h : Ordered (vs ++ ws)) : Ordered vs := h.sublist (List.sublist_append_left _ _)

theorem right (h : Ordered (vs ++ ws)) : Ordered ws := h.sublist (List.sublist_append_right _ _)

theorem le (h : Ordered (vs ++ ws)) : ∀ p ∈ positionsAll vs, ∀ q ∈ positionsAll ws, p ≤ q := by
  have hsorted := h.sorted
  rw [positionsAll_append] at hsorted
  exact (List.pairwise_append.mp hsorted).2.2

/-- What words record, behind what the words before them record. -/
theorem firstLeast_append {ps qs : List Pos} {v : List Word} (h : Ordered (v ++ ws))
    (hps : Pos.FirstLeast ps) (hqs : ps = [] → Pos.FirstLeast qs) (hv : ps.Subperm (positionsAll v))
    (hws : qs.Subperm (positionsAll ws)) : Pos.FirstLeast (ps ++ qs) :=
  hps.append hqs fun p hp q hq => h.le p (hv.subset hp) q (hws.subset hq)

end Word.Ordered

namespace Derives

variable {s : Phrase} {ws : List Word} {t : Tree}

/-- There are no wildcards in code. -/
theorem kind_ne_dots (h : Derives .code s ws t) (hs : s.isBare = true) (hws : ∀ w ∈ ws, w.Placed) :
    ∀ n ∈ t.nodes, n.kind ≠ .dots := by
  refine h.forall_nodes_of_sublists (Q := fun ws => ∀ w ∈ ws, w.Placed)
    (fun hsub h w hw => h w (hsub.subset hw)) (fun _ _ => nofun) (fun _ _ => nofun)
    (fun _ _ => nofun)
    (fun hd => by cases hd) (fun _ _ _ _ _ _ => nofun) (fun hr _ _ _ => ?_)
    (fun hg n hn hkind => ?_)
    hs hws
  · cases hr <;> nofun
  · have hcomment := (hg _ List.mem_cons_self).2.2 n hn
    rw [hkind] at hcomment
    cases hcomment

/-- No entry of a parameter list of code is a wildcard. -/
theorem isKind_dots_entry {es : List Rules.ParamEntry}
    (h : Derives .code (.trailing .entry) ws (.list (es.map (·.field))))
    (hws : ∀ w ∈ ws, w.Placed) :
    ∀ e ∈ es, e.type.isKind .dots = false := by
  intro e he
  have hnodes := h.kind_ne_dots rfl hws
  rw [Tree.nodes_list, Tree.forall_nodesAll] at hnodes
  have htype := (Tree.forall_nodes_field.mp (hnodes _ (List.mem_map_of_mem he))).2.2
  cases hkind : e.type with
  | node k gs =>
    rw [hkind, Tree.nodes_node] at htype
    simpa [Tree.isKind, Tree.kind?] using htype _ List.mem_cons_self
  | _ => rfl

/-- The fields of a parameter list of code record the positions of its entries in their order. -/
theorem positions_params {es : List Rules.ParamEntry} {fs : List Tree}
    (h : Derives .code (.trailing .entry) ws (.list (es.map (·.field)))) (hws : ∀ w ∈ ws, w.Placed)
    (hfields : Rules.fieldsOfEntries es = .ok fs) :
    Tree.positionsAll fs = Tree.positionsAll (es.map (·.field)) :=
  (Rules.positions_fieldsOfEntries hfields).2 (h.isKind_dots_entry hws)

/-- **The first position of a phrase is its least.** -/
theorem firstLeast {d : Dialect} (h : Derives d s ws t) (hbare : s.isBare = true)
    (hs : s.isFronted = true) (hws : Word.Ordered ws) : Pos.FirstLeast t.positions := by
  have hone {t : Tree} (h : Pos.FirstLeast t.positions) : Pos.FirstLeast
      (Tree.list [t]).positions := by
    rwa [Tree.positions_list, Tree.positionsAll_singleton]
  have hsnoc {ts : List Tree} {t : Tree} {vs us : List Word} (hws : Word.Ordered (vs ++ us))
      (hts : Pos.FirstLeast (Tree.list ts).positions) (ht : Pos.FirstLeast t.positions)
      (hvs : (Tree.list ts).positions.Subperm (Word.positionsAll vs))
      (hus : t.positions.Subperm (Word.positionsAll us)) :
      Pos.FirstLeast (Tree.list (ts ++ [t])).positions := by
    rw [Tree.positions_list] at hts hvs ⊢
    rw [Tree.positionsAll_append, Tree.positionsAll_singleton]
    exact hws.firstLeast_append hts (fun _ => ht) hvs hus
  -- a token that is recorded comes before all that is behind it
  have hmark {l : Lexeme} {us : List Word} {ts : List Tree} (hws : Word.Ordered (.lexeme l :: us))
      (hts : (Tree.list ts).positions.Subperm (Word.positionsAll us)) :
      Pos.FirstLeast (Tree.list (.pos l.pos :: ts)).positions := by
    have hvalid : l.pos.isValid = true := hws.valid l.pos List.mem_cons_self
    have hpos : (Tree.pos l.pos).positions = [l.pos] := by rw [Tree.positions, if_pos hvalid]
    rw [Tree.positions_list] at hts ⊢
    rw [Tree.positionsAll, hpos]
    exact Word.Ordered.firstLeast_append (v := [.lexeme l]) hws
      (.of_pairwise (List.pairwise_singleton _ _))
      nofun (.refl _) hts
  induction h with
  | ident | literal | dots | period => exact Tree.firstLeast_leaf rfl
  | noDoc | none | empty | endedNil | linesNil | partsNil => exact .nil
  | doc g => exact .of_pairwise (hws.sorted.sublist (List.sublist_append_left _ _))
  | cover hc _ ih => exact ih (hc.isBare hbare) (hc.isFronted hbare) hws
  | node hr _ ih => exact ih (hr.isBare hbare) hr.areFronted hws
  | behind _ _ ih =>
    exact ih (Phrase.isBare_of_isProper hbare) (Phrase.isFronted_of_isProper hbare)
      (hws.sublist (List.sublist_cons_self _ _))
  | spread _ _ ih => exact ih rfl rfl hws.left
  | endedComma _ _ ih | linesSemicolon _ _ ih => exact ih hbare rfl hws.left
  | one _ _ ih =>
    exact hone (ih (Phrase.isBare_of_isProper hbare) (Phrase.isFronted_of_isProper hbare) hws)
  | firstName _ ih => exact hone (ih rfl rfl hws)
  | @more s _ _ _ _ _ hts ht ih₁ ih₂ | @linesItem s _ _ _ _ _ hts ht ih₁ ih₂ =>
    have hs' : s.isBare = true := Phrase.isBare_of_isProper hbare
    exact hsnoc hws (ih₁ hbare rfl hws.left)
      (ih₂ hs' (Phrase.isFronted_of_isProper hbare) hws.right)
      (hts.positions_subperm hbare) (ht.positions_subperm hs')
  | nextName hts _ ht ih₁ ih₂ =>
    exact hsnoc hws (ih₁ rfl rfl hws.left)
      (ih₂ rfl rfl (hws.right.sublist (List.sublist_cons_self _ _)))
      (hts.positions_subperm rfl) ((ht.positions_subperm rfl).cons_right _)
  | word _ _ ih | lineEnd _ _ ih => exact ih hbare hs (hws.sublist (List.sublist_cons_self _ _))
  | noLineEnd _ ih | unmarked _ ih => exact ih hbare hs hws
  | mark _ hp | markIn _ hp => exact hmark hws (hp.positions_subperm hbare)
  | const _ ih =>
    obtain ⟨hsilent, hrest⟩ := (Bool.and_eq_true _ _).mp hbare
    have hempty := (Part.isBare_const hsilent).2.1
    rw [Tree.positions_list, Tree.positionsAll, hempty]
    exact ih hrest hs hws
  | sub ht hp ih₁ ih₂ =>
    obtain ⟨hsub, hrest⟩ := (Bool.and_eq_true _ _).mp hbare
    have ht' := ht.positions_subperm (Phrase.isBare_of_isProper hsub)
    have hfirst := ih₁ (Phrase.isBare_of_isProper hsub) (Phrase.isFronted_of_isProper hsub) hws.left
    exact hws.firstLeast_append hfirst (fun _ => ih₂ hrest hs hws.right) ht'
      (hp.positions_subperm hrest)
  | args | targets | params => cases hs

/-- In code, the first position of each field of a node is its least, and the items of lists are
nodes. -/
theorem firstLeast_fields (h : Derives .code s ws t) (hs : s.isParts = true)
    (hbare : s.isBare = true) (hws : Word.Ordered ws) (hplaced : ∀ w ∈ ws, w.Placed) :
    ∀ x ∈ t.items, Pos.FirstLeast x.positions ∧ ∀ y ∈ x.items, y.kind?.isSome = true := by
  have tail {v : Word} {us : List Word} (h : ∀ w ∈ v :: us, w.Placed) : ∀ w ∈ us, w.Placed :=
    (List.forall_mem_cons.mp h).2
  have right {vs us : List Word} (h : ∀ w ∈ vs ++ us, w.Placed) : ∀ w ∈ us, w.Placed :=
    (List.forall_mem_append.mp h).2
  have htail {v : Word} {us : List Word} (h : Word.Ordered (v :: us)) : Word.Ordered us :=
    h.sublist (List.sublist_cons_self _ _)
  have hpos (p : Pos) : Pos.FirstLeast (Tree.pos p).positions ∧
      ∀ y ∈ (Tree.pos p).items, y.kind?.isSome = true :=
    ⟨Tree.firstLeast_pos p, nofun⟩
  have hphrase {s : Phrase} {us : List Word} {x : Tree} (h : Derives .code s us x)
      (hs : s.isProper = true)
      (hws : Word.Ordered us) (hplaced : ∀ w ∈ us, w.Placed) :
      Pos.FirstLeast x.positions ∧ ∀ y ∈ x.items, y.kind?.isSome = true :=
    ⟨h.firstLeast (Phrase.isBare_of_isProper hs) (Phrase.isFronted_of_isProper hs) hws,
      fun y hy => Tree.isSome_kind? ((h.isCode hplaced hs).2 y hy)⟩
  induction h with
  | partsNil => nofun
  | word _ _ ih | lineEnd _ _ ih => exact ih rfl hbare (htail hws) (tail hplaced)
  | noLineEnd _ ih => exact ih rfl hbare hws hplaced
  | mark _ _ ih => exact List.forall_mem_cons.mpr ⟨hpos _, ih rfl hbare (htail hws) (tail hplaced)⟩
  | markIn _ _ ih =>
    have hrest := ih rfl hbare (htail hws) (tail hplaced)
    exact List.forall_mem_cons.mpr ⟨hpos _, List.forall_mem_cons.mpr ⟨⟨.nil, nofun⟩, hrest⟩⟩
  | unmarked _ ih =>
    have hrest := ih rfl hbare hws hplaced
    exact List.forall_mem_cons.mpr ⟨hpos _, List.forall_mem_cons.mpr ⟨⟨.nil, nofun⟩, hrest⟩⟩
  | const _ ih =>
    obtain ⟨hsilent, hrest⟩ := (Bool.and_eq_true _ _).mp hbare
    obtain ⟨-, hpositions, hitems⟩ := Part.isBare_const hsilent
    refine List.forall_mem_cons.mpr ⟨?_, ih rfl hrest hws hplaced⟩
    rw [hpositions, hitems]
    exact ⟨.nil, nofun⟩
  | sub hx _ _ ih =>
    obtain ⟨hsub, hrest⟩ := (Bool.and_eq_true _ _).mp hbare
    refine List.forall_mem_cons.mpr ⟨?_, ih rfl hrest hws.right (right hplaced)⟩
    exact hphrase hx hsub hws.left (List.forall_mem_append.mp hplaced).1
  | args hxs _ _ _ ih =>
    have hrest := ih rfl hbare hws.right (right hplaced)
    have hlist := hphrase hxs rfl hws.left (List.forall_mem_append.mp hplaced).1
    exact List.forall_mem_cons.mpr ⟨hlist, List.forall_mem_cons.mpr ⟨hpos _, hrest⟩⟩
  | @targets _ ws _ xs _ hxs _ _ ih =>
    have hrest := ih rfl hbare hws.right (right hplaced)
    have htarget (i : Nat) : Pos.FirstLeast (xs[i]?.getD .nil).positions ∧
        ∀ y ∈ (xs[i]?.getD .nil).items, y.kind?.isSome = true := by
      cases hx : xs[i]? with
      | none => exact ⟨.nil, nofun⟩
      | some x =>
        obtain ⟨vs, hvs, hxs⟩ := hxs.exists_of_mem_items rfl x (List.mem_of_getElem? hx)
        refine hphrase hxs rfl (hws.left.sublist hvs) fun w hw => ?_
        exact hplaced w (List.mem_append_left _ (hvs.subset hw))
    exact List.forall_mem_cons.mpr ⟨htarget 0, List.forall_mem_cons.mpr ⟨htarget 1, hrest⟩⟩
  | @params _ _ _ _ fs _ hes hfields _ _ ih =>
    refine List.forall_mem_cons.mpr ⟨⟨?_, fun y hy => ?_⟩, ih rfl hbare hws.right (right hplaced)⟩
    · have hlist := hes.firstLeast rfl rfl hws.left
      rwa [Tree.positions_list, ← hes.positions_params (List.forall_mem_append.mp hplaced).1
        hfields, ← Tree.positions_list] at hlist
    · obtain ⟨names, type, rfl, -, -⟩ := Rules.forall_fieldsOfEntries (P := fun _ => True)
        (Q := fun _ => True) (fun _ _ _ => trivial) hfields
        (fun _ _ => ⟨fun _ _ => trivial, trivial⟩) y hy
      rfl
  | cover hc => cases hc <;> cases hs
  | node hr => cases hr <;> cases hs
  | _ => cases hs

/-- The names and types in a parameter list stand in order. -/
theorem ascend_entries {d : Dialect} {es : List Rules.ParamEntry} (h : Derives d s ws t)
    (hs : Phrase.item? s = some .entry) (ht : t.items = es.map (·.field)) (hws : Word.Ordered ws) :
    Tree.Ascend (es.flatMap (·.parts)) := by
  have hentry {e : Rules.ParamEntry} {ws : List Word} (h : Derives d .entry ws e.field)
      (hws : Word.Ordered ws) : Tree.Ascend e.parts := by
    obtain ⟨vs, us, s, rfl, hname, hs, htype⟩ := h.exists_of_entry
    have hproper : s.isProper = true := by rcases hs with rfl | rfl <;> rfl
    have hnames : Tree.Ascend e.name.toList := by
      cases hn : e.name with
      | none => exact ⟨nofun, .nil⟩
      | some x => exact .singleton ((hname x (by simp [hn])).firstLeast rfl rfl hws.left)
    have hbare := Phrase.isBare_of_isProper hproper
    have hlast := htype.firstLeast hbare (Phrase.isFronted_of_isProper hproper) hws.right
    refine hnames.append (.singleton hlast) fun p hp q hq => ?_
    obtain ⟨x, hx, hp⟩ := Tree.mem_positionsAll.mp hp
    rw [Tree.positionsAll_singleton] at hq
    exact hws.le p (((hname x hx).positions_subperm rfl).subset hp) q
      ((htype.positions_subperm hbare).subset hq)
  induction h generalizing es with
  | endedNil =>
    obtain rfl : es = [] := List.map_eq_nil_iff.mp ht.symm
    exact ⟨nofun, .nil⟩
  | endedComma _ _ ih => exact ih hs ht hws.left
  | @more s vs us ts t _ hts hlast ih _ =>
    cases hs
    obtain ⟨es, es', rfl, hes, hes'⟩ := List.map_eq_append_iff.mp ht.symm
    obtain ⟨e, rfl, he⟩ := List.map_eq_singleton_iff.mp hes'
    subst he
    have hrest := ih rfl hes.symm hws.left
    have hhere := hentry hlast hws.right
    rw [List.flatMap_append, List.flatMap_singleton]
    refine hrest.append hhere fun p hp q hq => ?_
    rw [Rules.positionsAll_parts, hes] at hp
    rw [← List.flatMap_singleton (f := Rules.ParamEntry.parts), Rules.positionsAll_parts,
      List.map_singleton, Tree.positionsAll_singleton] at hq
    have hts' := hts.positions_subperm rfl
    rw [Tree.positions_list] at hts'
    exact hws.le p (hts'.subset hp) q ((hlast.positions_subperm rfl).subset hq)
  | cover hc _ ih =>
    cases hc with
    | trailingEnded | trailingMore => exact ih hs ht hws
    | _ => cases hs
  | node hr => cases hr <;> cases hs
  | _ => cases hs

end Derives

/-- Whether a node and its fields begin at their least positions, and the items of its lists are
nodes. -/
structure Node.Nests (n : Node) : Prop where
  first : Pos.FirstLeast n.tree.positions
  fields : ∀ x ∈ n.fields, Pos.FirstLeast x.positions ∧ ∀ y ∈ x.items, y.kind?.isSome = true

/-- A node that records a single position. -/
theorem Node.Nests.leaf {p : Pos} {k : Kind} {fs : List Tree} (hfs : Tree.positionsAll fs = [])
    (hitems : ∀ x ∈ fs, x.positions = [] ∧ x.items = []) : Nests ⟨k, .pos p :: fs⟩ := by
  refine ⟨Tree.firstLeast_leaf hfs, List.forall_mem_cons.mpr ⟨⟨Tree.firstLeast_pos p, nofun⟩, ?_⟩⟩
  intro x hx
  rw [(hitems x hx).1, (hitems x hx).2]
  exact ⟨.nil, nofun⟩

theorem Tree.Ascend.nests {names : List Tree} {type : Tree} (h : Ascend (names ++ [type]))
    (hcode : ∀ x ∈ names ++ [type], x.isCode = true) :
    Node.Nests ⟨.field, [.nil, .list names, type, .nil]⟩ := by
  have hnames := h.sublist (List.sublist_append_left names [type])
  have hfield := h.firstLeast
  rw [positionsAll_append, positionsAll_singleton, ← Rules.positions_plainField] at hfield
  obtain ⟨hcode, htype⟩ := List.forall_mem_append.mp hcode
  refine ⟨hfield, ?_⟩
  simp only [List.forall_mem_cons, positions_list]
  refine ⟨⟨.nil, nofun⟩, ⟨hnames.firstLeast, fun x hx => isSome_kind? (hcode x hx)⟩,
    ⟨h.first type (by simp), ?_⟩, ⟨.nil, nofun⟩, nofun⟩
  obtain ⟨k, fs, rfl, -⟩ := exists_of_isCode (htype type List.mem_cons_self)
  nofun

namespace Derives

variable {s : Phrase} {ws : List Word} {t : Tree}

/-- **Every node of code that was read begins at its least position**, and so do its fields. -/
theorem nests (h : Derives .code s ws t) (hs : s.isBare = true) (hws : Word.Ordered ws)
    (hplaced : ∀ w ∈ ws, w.Placed) (hdocs : ∀ g, .doc g ∈ ws → ∀ n ∈ g.tree.nodes, n.Nests) :
    ∀ n ∈ t.nodes, n.Nests := by
  have hident {p : Pos} {name : String} : Node.Nests ⟨.ident, [.pos p, .str name]⟩ :=
    .leaf rfl (List.forall_mem_singleton.mpr ⟨rfl, rfl⟩)
  refine h.forall_nodes_of_sublists
    (Q := fun ws => Word.Ordered ws ∧ (∀ w ∈ ws, w.Placed) ∧
      ∀ g, .doc g ∈ ws → ∀ n ∈ g.tree.nodes, n.Nests) ?_ (fun _ _ => hident) (fun _ _ => hident) ?_
    (fun _ _ _ => .leaf rfl nofun) ?_ ?_ (fun hg => hg.2.2 _ List.mem_cons_self) hs
    ⟨hws, hplaced, hdocs⟩
  · rintro vs ws hsub ⟨hws, hplaced, hdocs⟩
    exact ⟨hws.sublist hsub, fun w hw => hplaced w (hsub.subset hw),
      fun g hg => hdocs g (hsub.subset hg)⟩
  · exact fun _ _ =>
      .leaf rfl (List.forall_mem_cons.mpr ⟨⟨rfl, rfl⟩, List.forall_mem_singleton.mpr ⟨rfl, rfl⟩⟩)
  · intro ws es fs hes hws hfields names type hmem
    have hsub := Rules.sublist_of_mem_fieldsOfEntries hfields hmem
    refine ((hes.ascend_entries rfl rfl hws.1).sublist hsub).nests fun x hx => ?_
    obtain ⟨e, he, hx⟩ := List.mem_flatMap.mp (hsub.subset hx)
    obtain ⟨vs, hvs, hentry⟩ := hes.exists_of_mem_items rfl e.field (List.mem_map_of_mem he)
    exact hentry.isCode_entry (fun w hw => hws.2.1 w (hvs.subset hw)) x hx
  · intro s k ps ws ts hr hp hbare hws
    exact ⟨hp.firstLeast hbare hr.areFronted hws.1, hp.firstLeast_fields rfl hbare hws.1 hws.2.1⟩

end Derives

end Graft
