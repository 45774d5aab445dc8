import Graft.Patch.Pairing
import Graft.Proofs.Grammar.Nesting

/-! # Nodes of trees that were read without comments

Every node of a tree that was read has all its fields and stands somewhere.  If no comments were
read, no two nodes that could have a comment above them begin at the same place
(`Derives.isRegular`): a field, a specification or a declaration begins with a token of its own, or
with a phrase in which no such node comes first (`Derives.opens`).

A tree records no semicolons (`Derives.positions_subset`), which are the only words that may stand
at the end of a text.
-/

namespace Graft

/-- What is true of every node of a tree that was read without comments. -/
structure Node.IsRegular (n : Node) : Prop where
  /-- All fields are there. -/
  full : n.fields.length = n.kind.fields.length
  /-- The node stands somewhere. -/
  placed : n.start.isValid = true
  /-- There is no comment above it. -/
  undocumented : ∀ x ∈ n.kind.fields.zip n.fields, x.1.slot = .doc → x.2 = .nil
  /-- The body of a loop is a block. -/
  body : n.kind = .forStmt → (n.get .body).isKind .blockStmt = true
  /-- If the node can have a comment above it, none inside begins where it begins. -/
  alone : n.kind.isDocumented = true →
    ∀ m ∈ Tree.nodesAll n.fields, m.kind.isDocumented = true → m.start ≠ n.start

/-! ### Words -/

/-- Whether words are lexemes, each of which stands behind the one before. -/
structure Word.ArePlain (ws : List Word) : Prop where
  noDocs : ∀ g, .doc g ∉ ws
  placed : ∀ w ∈ ws, w.Placed
  ascending : (positionsAll ws).Pairwise (· < ·)

namespace Word.ArePlain

variable {vs ws : List Word}

theorem sublist (h : ArePlain ws) (hsub : vs.Sublist ws) : ArePlain vs where
  noDocs g hg := h.noDocs g (hsub.subset hg)
  placed w hw := h.placed w (hsub.subset hw)
  ascending := h.ascending.sublist (hsub.flatMap _)

theorem left (h : ArePlain (vs ++ ws)) : ArePlain vs := h.sublist (List.sublist_append_left _ _)

theorem right (h : ArePlain (vs ++ ws)) : ArePlain ws := h.sublist (List.sublist_append_right _ _)

theorem nodup (h : ArePlain ws) : (positionsAll ws).Nodup :=
  h.ascending.imp fun hlt heq => absurd (heq ▸ hlt) (Nat.lt_irrefl _)

/-- Words behind others have no place in common with them. -/
theorem disjoint (h : ArePlain (vs ++ ws)) {p : Pos} (hp : p ∈ positionsAll vs) :
    p ∉ positionsAll ws := by
  have hnodup := h.nodup
  rw [positionsAll_append] at hnodup
  exact fun hq => (List.nodup_append.mp hnodup).2.2 p hp p hq rfl

theorem pairwise_start (h : ArePlain ws) : ws.Pairwise fun v w => v.start ≤ w.start := by
  refine (List.pairwise_flatMap.mp h.ascending).2.imp_of_mem fun {v w} hv hw hlt => ?_
  cases v with
  | doc g => exact absurd hv (h.noDocs g)
  | lexeme l =>
    cases w with
    | doc g => exact absurd hw (h.noDocs g)
    | lexeme m => exact Nat.le_of_lt (hlt l.pos List.mem_cons_self m.pos List.mem_cons_self)

end Word.ArePlain

/-! ### All nodes stand somewhere -/

theorem Row.fits_of_isBare {s : Phrase} {k : Kind} {ps : List Part} (h : Row s k ps)
    (hps : (Phrase.parts ps).isBare = true) : Part.fits 0 ps k.fields = true := by
  cases h with
  | members s hmember =>
    have hs : s.isProper = true := by simpa [Phrase.isBare, Part.isBare, Phrase.isProper] using hps
    exact (Row.members s hmember).fits hs
  | dotsMember s => exact (Row.dotsMember .ident).fits rfl
  | binary hn hop => exact (Row.binary hn hop).fits rfl
  | valueSpec hkw => exact (Row.valueSpec hkw).fits rfl
  | group hkw => exact (Row.group hkw).fits rfl
  | single hkw => exact (Row.single hkw).fits rfl
  | _ => rfl

namespace Derives

variable {d : Dialect} {s : Phrase} {ws : List Word} {t : Tree}

/-- The names and types in a parameter list are phrases of some of its words. -/
theorem exists_of_mem_entries {es : List Rules.ParamEntry} {x : Tree}
    (h : Derives d (.trailing .entry) ws (.list (es.map (·.field))))
    (hx : x ∈ es.flatMap (·.parts)) :
    ∃ s vs, (s = .paramType ∨ s = .dots) ∧ vs.Sublist ws ∧ Derives d s vs x := by
  obtain ⟨e, he, hx⟩ := List.mem_flatMap.mp hx
  obtain ⟨vs, hvs, hentry⟩ := h.exists_of_mem_items rfl e.field (List.mem_map_of_mem he)
  obtain ⟨as, bs, s, rfl, hname, hs, htype⟩ := hentry.exists_of_entry
  rcases List.mem_append.mp hx with hx | hx
  · exact ⟨_, as, .inl rfl, (List.sublist_append_left _ _).trans hvs, hname x hx⟩
  · obtain rfl := List.mem_singleton.mp hx
    exact ⟨s, bs, hs, (List.sublist_append_right _ _).trans hvs, htype⟩

/-- The names and types in a parameter list stand somewhere. -/
theorem isValid_start_entry {es : List Rules.ParamEntry} {x : Tree}
    (h : Derives d (.trailing .entry) ws (.list (es.map (·.field)))) (hws : Word.ArePlain ws)
    (hx : x ∈ es.flatMap (·.parts)) : x.start.isValid = true := by
  obtain ⟨s, vs, hs, hvs, hx⟩ := h.exists_of_mem_entries hx
  have hvs := hws.sublist hvs
  rcases hs with rfl | rfl <;>
    exact ((hx.placing rfl hvs.placed hvs.pairwise_start).1 rfl).2 rfl

/-- **Every node of a tree that was read stands somewhere.** -/
theorem isValid_start (h : Derives d s ws t) (hs : s.isBare = true) (hws : Word.ArePlain ws) :
    ∀ n ∈ t.nodes, n.start.isValid = true := by
  have hleaf {l : Lexeme} {k : Kind} {fs : List Tree} (hl : Word.ArePlain [.lexeme l]) :
      (⟨k, .pos l.pos :: fs⟩ : Node).start.isValid = true := by
    have hvalid : l.pos.isValid = true := hl.placed _ List.mem_cons_self
    have hstart : (Tree.pos l.pos).start = l.pos := by rw [Tree.start]
    change (Tree.node k (.pos l.pos :: fs)).start.isValid = true
    rwa [Tree.start, Tree.startAll_of_isValid (by rwa [hstart]), hstart]
  refine h.forall_nodes_of_sublists (Q := Word.ArePlain) (fun hsub h => h.sublist hsub)
    (fun _ => hleaf)
    (fun _ => hleaf) (fun _ => hleaf) (fun _ _ => hleaf) ?_ ?_
    (fun hg => absurd List.mem_cons_self (hg.noDocs _)) hs hws
  · intro ws es fs hes hws hfields names type hmem
    have hsub := Rules.sublist_of_mem_fieldsOfEntries hfields hmem
    have htype :=
      hes.isValid_start_entry hws (hsub.subset (List.mem_append_right _ List.mem_cons_self))
    change (Rules.plainField names type).start.isValid = true
    rw [Rules.start_plainField, Tree.startAll_append]
    split
    · assumption
    · rwa [Tree.startAll_singleton]
  · intro s k ps ws ts hr hp hbare hws
    have hplacing := hp.placing hbare hws.placed hws.pairwise_start
    change (Tree.node k ts).start.isValid = true
    rw [Tree.start]
    exact (hplacing.2 (u := []) rfl rfl rfl (hr.fits_of_isBare hbare)).2 hr.isPresent

end Derives

/-! ### Beginnings -/

/-- Whether no node that can have a comment above it begins where the value begins. -/
def Tree.Opens (t : Tree) : Prop := ∀ m ∈ t.nodes, m.kind.isDocumented = true → m.start ≠ t.start

/-- Values behind others; if the others stand somewhere, it does not matter how these begin. -/
theorem Tree.Opens.append {ts us : List Tree} (hts : (list ts).Opens)
    (hus : (startAll ts).isValid = false → (list us).Opens)
    (hplaced : ∀ n ∈ nodesAll (ts ++ us), n.start.isValid = true)
    (hdisjoint : ∀ p ∈ positionsAll ts, p ∉ positionsAll us) : (list (ts ++ us)).Opens := by
  rw [Opens, nodes_list, start] at hts ⊢
  intro m hm hdoc
  have hvalid := hplaced m hm
  rw [nodesAll_append] at hm
  rw [startAll_append]
  split
  · rename_i hstart
    rcases List.mem_append.mp hm with hm | hm
    · exact hts m hm hdoc
    · have hhere : startAll ts ∈ positionsAll ts := by
        have hmem := start_mem_positions (t := list ts) (by rwa [start])
        rwa [start, positions_list] at hmem
      rintro heq
      refine hdisjoint _ hhere ?_
      rw [← heq]
      exact positions_subset_of_mem_nodesAll us m hm (start_mem_positions hvalid)
  · rename_i hstart
    have hstart : (startAll ts).isValid = false := by simpa using hstart
    rcases List.mem_append.mp hm with hm | hm
    · rw [not_isValid_nodesAll ts hstart m hm] at hvalid
      cases hvalid
    · have hrest := hus hstart
      rw [Opens, nodes_list, start] at hrest
      exact hrest m hm hdoc

/-- A list begins as its only item. -/
theorem Tree.Opens.singleton {t : Tree} (h : t.Opens) : (list [t]).Opens := by
  rwa [Opens, nodes_list, nodesAll_singleton, start, startAll_singleton]

/-- Whether no node that can have a comment above it begins where a phrase of the sort begins, if
there are no comments. -/
def Phrase.opens : Phrase → Bool
  | .ident | .literal | .dots | .importName | .doc | .type | .typeLit | .funcType | .signature
    | .params
  | .paramType | .fieldNames => true
  | .opt s | .one s | .ended s | .more s => s.opens
  | _ => false

/-- Whether no node that can have a comment above it begins where the parts begin. -/
def Part.areOpening : List Part → Bool
  | .mark _ :: _ | .markIn _ :: _ => true
  | .const _ :: ps => areOpening ps
  | .sub s :: ps => s.opens && (s.isPresent || areOpening ps)
  | _ => false

/-- Whether no node that can have a comment above it begins where a phrase or a stretch of fields
begins. -/
def Phrase.isOpening : Phrase → Bool
  | .parts ps => Part.areOpening ps
  | s => s.opens

theorem Phrase.isOpening_of_opens {s : Phrase} (h : s.opens = true) : s.isOpening = true := by
  cases s with
  | parts ps => cases h
  | _ => exact h

/-- A phrase that opens is no node that can have a comment above it, and begins with a part that
opens. -/
theorem Row.opens {s : Phrase} {k : Kind} {ps : List Part} (h : Row s k ps) (hs : s.opens = true) :
    k.isDocumented = false ∧ Part.areOpening ps = true := by
  cases h <;> first | exact ⟨rfl, rfl⟩ | cases hs

/-- A node that can have a comment above it begins with a part that opens. -/
theorem Row.areOpening {s : Phrase} {k : Kind} {ps : List Part} (h : Row s k ps)
    (hk : k.isDocumented = true) : Part.areOpening ps = true := by
  cases h <;> first | rfl | cases hk

theorem Covers.opens {s s' : Phrase} (h : Covers s s') (hs : s.opens = true) : s'.opens = true := by
  cases h <;> first | rfl | exact hs | cases hs

namespace Derives

variable {d : Dialect} {s : Phrase} {ws : List Word} {t : Tree}

theorem isValid_start_list {ts : List Tree} (h : Derives d s ws (.list ts)) (hs : s.isBare = true)
    (hws : Word.ArePlain ws) : ∀ n ∈ Tree.nodesAll ts, n.start.isValid = true := by
  have hnodes := h.isValid_start hs hws
  rwa [Tree.nodes_list] at hnodes

/-- The values of words behind others have no place in common with theirs. -/
theorem disjoint_positions {ts us : List Tree} {vs : List Word} (h : Derives d s ws (.list us))
    (hs : s.isBare = true) (hws : Word.ArePlain (vs ++ ws))
    (hts : Tree.positionsAll ts ⊆ Word.positionsAll vs) :
    ∀ p ∈ Tree.positionsAll ts, p ∉ Tree.positionsAll us := by
  intro p hp hp'
  have hsub := (h.positions_subperm hs).subset
  rw [Tree.positions_list] at hsub
  exact hws.disjoint (hts hp) (hsub hp')

/-- **Where a phrase of an opening sort begins, no node that can have a comment above it
begins.** -/
theorem opens (h : Derives d s ws t) (hbare : s.isBare = true) (hs : s.isOpening = true)
    (hws : Word.ArePlain ws) : t.Opens := by
  have hleaf {k : Kind} {fs : List Tree} (hk : k.isDocumented = false)
      (hfs : Tree.nodesAll fs = []) :
      (Tree.node k fs).Opens := by
    rw [Tree.Opens, Tree.nodes_node, hfs]
    exact List.forall_mem_singleton.mpr fun hdoc => by simp [hk] at hdoc
  have hnone {t : Tree} (ht : t.nodes = []) : t.Opens := by
    rw [Tree.Opens, ht]
    nofun
  -- one item more
  have hsnoc {s' s'' : Phrase} {vs us : List Word} {ts : List Tree} {t : Tree}
      (h : Derives d s' vs (.list ts)) (hs' : s'.isBare = true) (ht : Derives d s'' us t)
      (hs'' : s''.isBare = true) (hws : Word.ArePlain (vs ++ us))
      (hts : (Tree.list ts).Opens) (hlast : t.Opens) : (Tree.list (ts ++ [t])).Opens := by
    have hleft := (h.positions_subperm hs').subset
    have hright := (ht.positions_subperm hs'').subset
    rw [Tree.positions_list] at hleft
    refine hts.append (fun _ => hlast.singleton) ?_ fun p hp hp' => ?_
    · rw [Tree.nodesAll_append, Tree.nodesAll_singleton]
      exact List.forall_mem_append.mpr
        ⟨h.isValid_start_list hs' hws.left, ht.isValid_start hs'' hws.right⟩
    · rw [Tree.positionsAll_singleton] at hp'
      exact hws.disjoint (hleft hp) (hright hp')
  -- the fields of one part more
  have hpart {p : Part} {ps : List Part} {v us : List Word} {u ts : List Tree}
      (h : Derives d (.parts (p :: ps)) (v ++ us) (.list (u ++ ts)))
      (hbare : (Phrase.parts (p :: ps)).isBare = true) (hp : Derives d (.parts ps) us (.list ts))
      (hbare' : (Phrase.parts ps).isBare = true) (hws : Word.ArePlain (v ++ us))
      (hu : Tree.positionsAll u ⊆ Word.positionsAll v) (hopens : (Tree.list u).Opens)
      (hrest : (Tree.startAll u).isValid = false → (Tree.list ts).Opens) :
      (Tree.list (u ++ ts)).Opens :=
    hopens.append hrest (h.isValid_start_list hbare hws) (hp.disjoint_positions hbare' hws hu)
  -- a token that is recorded is a beginning
  have hmark {l : Lexeme} {us : List Word} {fs : List Tree} {P : Prop}
      (hws : Word.ArePlain (.lexeme l :: us))
      (hinvalid : (Tree.startAll (.pos l.pos :: fs)).isValid = false) : P := by
    have hvalid : l.pos.isValid = true := hws.placed _ List.mem_cons_self
    have hstart : (Tree.pos l.pos).start = l.pos := by rw [Tree.start]
    rw [Tree.startAll_of_isValid (by rwa [hstart]), hstart, hvalid] at hinvalid
    cases hinvalid
  induction h with
  | ident | literal | dots | period => exact hleaf rfl rfl
  | noDoc | none | empty | endedNil | linesNil | partsNil => exact hnone rfl
  | doc g => exact absurd List.mem_cons_self (hws.noDocs g)
  | cover hc _ ih =>
    have hopens := hc.opens (by cases hc <;> exact hs)
    exact ih (hc.isBare hbare) (Phrase.isOpening_of_opens hopens) hws
  | node hr hp ih =>
    obtain ⟨hk, hps⟩ := hr.opens (by cases hr <;> exact hs)
    have hfields := ih (hr.isBare hbare) hps hws
    rw [Tree.Opens, Tree.nodes_list, Tree.start] at hfields
    rw [Tree.Opens, Tree.nodes_node, Tree.start]
    exact List.forall_mem_cons.mpr ⟨fun hdoc => by simp [hk] at hdoc, hfields⟩
  | one _ _ ih =>
    exact (ih (Phrase.isBare_of_isProper hbare) (Phrase.isOpening_of_opens hs) hws).singleton
  | firstName _ ih => exact (ih rfl rfl hws).singleton
  | endedComma _ _ ih => exact ih hbare hs hws.left
  | @more s _ _ _ _ _ hts ht ih₁ ih₂ =>
    have hbare' : s.isBare = true := Phrase.isBare_of_isProper hbare
    exact hsnoc hts hbare ht hbare' hws (ih₁ hbare hs hws.left)
      (ih₂ hbare' (Phrase.isOpening_of_opens hs) hws.right)
  | nextName hts _ ht ih₁ ih₂ =>
    have hws' := hws.sublist ((List.sublist_cons_self _ _).append_left _)
    exact hsnoc hts rfl ht rfl hws' (ih₁ rfl rfl hws'.left) (ih₂ rfl rfl hws'.right)
  | @mark _ _ l _ ts hl hp _ =>
    have hsub : Tree.positionsAll [.pos l.pos] ⊆ [l.pos] := by
      rw [Tree.positionsAll_singleton]
      exact (Tree.positions_pos_sublist l.pos).subset
    exact hpart (u := [.pos l.pos]) (v := [.lexeme l]) (.mark hl hp) hbare hp hbare hws
      hsub (hnone rfl)
      (hmark hws)
  | @markIn _ _ l _ ts hl hp _ =>
    have hsub : Tree.positionsAll [.pos l.pos, .tok l.token] ⊆ [l.pos] := by
      rw [Tree.positionsAll, Tree.positionsAll_singleton]
      simpa [Tree.positions] using (Tree.positions_pos_sublist l.pos).subset
    exact hpart (u := [.pos l.pos, .tok l.token]) (v := [.lexeme l]) (.markIn hl hp) hbare hp
      hbare hws hsub
      (hnone rfl) (hmark hws)
  | @const t ps _ ts hp ih =>
    obtain ⟨hconst, hbare'⟩ := (Bool.and_eq_true _ _).mp hbare
    obtain ⟨hnodes, hpositions, -⟩ := Part.isBare_const hconst
    refine hpart (u := [t]) (v := []) (.const hp) hbare hp hbare' hws ?_ (hnone hnodes).singleton
      fun _ => ih hbare' hs hws
    rw [Tree.positionsAll_singleton, hpositions]
    exact List.nil_subset _
  | @sub s ps _ _ t ts ht hp ih₁ ih₂ =>
    obtain ⟨hproper, hbare'⟩ := (Bool.and_eq_true _ _).mp hbare
    have hbare₁ : s.isBare = true := Phrase.isBare_of_isProper hproper
    obtain ⟨hopens, hrest⟩ := (Bool.and_eq_true _ _).mp hs
    refine hpart (u := [t]) (.sub ht hp) hbare hp hbare' hws ?_
      (ih₁ hbare₁ (Phrase.isOpening_of_opens hopens) hws.left).singleton fun hinvalid => ?_
    · rw [Tree.positionsAll_singleton]
      exact (ht.positions_subperm hbare₁).subset
    · rcases (Bool.or_eq_true _ _).mp hrest with hpresent | hrest
      · have hplacing := ht.placing hbare₁ hws.left.placed hws.left.pairwise_start
        rw [Tree.startAll_singleton, (hplacing.1 hproper).2 hpresent] at hinvalid
        cases hinvalid
      · exact ih₂ hbare' hrest hws.right
  | behind | spread | linesSemicolon | linesItem | word | noLineEnd | lineEnd | unmarked | args
  | targets
  | params => cases hs

end Derives

/-! ### Regular nodes -/

/-- The comment above a node is the first of its fields. -/
theorem Kind.slot_ne_doc (k : Kind) : ∀ f ∈ k.fields.tail, f.slot ≠ .doc := by
  cases k <;> decide

/-- In a row, the comment above a node comes first, or there is none. -/
theorem Row.doc_first {s : Phrase} {k : Kind} {ps : List Part} (h : Row s k ps)
    (hk : k.isDocumented = true) : ∃ ps', ps = .sub .doc :: ps' ∨ ps = .const .nil :: ps' := by
  cases h <;> first
    | exact ⟨_, .inl rfl⟩
    | exact ⟨_, .inr rfl⟩
    | cases hk

/-- There is no comment above a node if its first field is empty. -/
theorem Node.undocumented_of_head {n : Node}
    (h : n.kind.isDocumented = true → n.fields.head? = some .nil) :
    ∀ x ∈ n.kind.fields.zip n.fields, x.1.slot = .doc → x.2 = .nil := by
  obtain ⟨k, fs⟩ := n
  dsimp only at h ⊢
  have htail := k.slot_ne_doc
  rw [Kind.isDocumented] at h
  generalize k.fields = fields at h htail
  cases fields with
  | nil => simp
  | cons f fields =>
    cases fs with
    | nil => simp
    | cons t ts =>
      rw [List.zip_cons_cons]
      refine List.forall_mem_cons.mpr ⟨fun hslot => ?_, fun x hx hslot => ?_⟩
      · exact Option.some.inj
          (h (List.any_eq_true.mpr ⟨f, List.mem_cons_self, beq_iff_eq.mpr hslot⟩))
      · exact absurd hslot (htail x.1 (List.of_mem_zip hx).1)

namespace Derives

variable {d : Dialect} {s : Phrase} {ws : List Word} {t : Tree}

theorem of_mark {tok : Token} {ps : List Part} {ts : List Tree}
    (h : Derives d (.parts (.mark tok :: ps)) ws (.list ts)) :
    ∃ l us ts', ws = .lexeme l :: us ∧ ts = .pos l.pos :: ts' ∧
      Derives d (.parts ps) us (.list ts') := by
  cases h with
  | mark _ hp => exact ⟨_, _, _, rfl, rfl, hp⟩
  | cover hc => cases hc

theorem of_word {tok : Token} {ps : List Part} {ts : List Tree}
    (h : Derives d (.parts (.word tok :: ps)) ws (.list ts)) :
    ∃ l us, ws = .lexeme l :: us ∧ Derives d (.parts ps) us (.list ts) := by
  cases h with
  | word _ hp => exact ⟨_, _, rfl, hp⟩
  | cover hc => cases hc

theorem isKind_block (h : Derives d .block ws t) : t.isKind .blockStmt = true := by
  cases h with
  | node hr =>
    cases hr
    rfl
  | cover hc => cases hc

/-- The body of a loop is its last part, and is a block. -/
theorem isKind_body {ps : List Part} {ts : List Tree} (hr : Row s .forStmt ps)
    (hp : Derives d (.parts ps) ws (.list ts)) :
    ((⟨.forStmt, ts⟩ : Node).get .body).isKind .blockStmt = true := by
  cases hr with
  | forStmt =>
    obtain ⟨_, _, _, -, rfl, h₁⟩ := hp.of_mark
    obtain ⟨_, rfl, h₂⟩ := h₁.of_const
    obtain ⟨_, _, _, _, -, rfl, -, h₃⟩ := h₂.of_sub
    obtain ⟨_, rfl, h₄⟩ := h₃.of_const
    obtain ⟨_, _, _, _, -, rfl, hbody, -⟩ := h₄.of_sub
    exact hbody.isKind_block
  | forClauses =>
    obtain ⟨_, _, _, -, rfl, h₁⟩ := hp.of_mark
    obtain ⟨_, _, _, _, -, rfl, -, h₂⟩ := h₁.of_sub
    obtain ⟨_, _, -, h₃⟩ := h₂.of_word
    obtain ⟨_, _, _, _, -, rfl, -, h₄⟩ := h₃.of_sub
    obtain ⟨_, _, -, h₅⟩ := h₄.of_word
    obtain ⟨_, _, _, _, -, rfl, -, h₆⟩ := h₅.of_sub
    obtain ⟨_, _, _, _, -, rfl, hbody, -⟩ := h₆.of_sub
    exact hbody.isKind_block

/-- The parameters that a node of a parameter list is put together from. -/
theorem isRegular_field {es : List Rules.ParamEntry} {fs names : List Tree} {type : Tree}
    (h : Derives d (.trailing .entry) ws (.list (es.map (·.field)))) (hws : Word.ArePlain ws)
    (hfields : Rules.fieldsOfEntries es = .ok fs) (hmem : Rules.plainField names type ∈ fs) :
    (⟨.field, [.nil, .list names, type, .nil]⟩ : Node).IsRegular := by
  have hsub := Rules.sublist_of_mem_fieldsOfEntries hfields hmem
  have hstart : (⟨.field, [.nil, .list names, type, .nil]⟩ : Node).start =
      Tree.startAll (names ++ [type]) :=
    Rules.start_plainField names type
  have hnodes := (List.cons.inj (Tree.nodes_node .field [.nil, .list names, type, .nil] ▸
    Rules.nodes_plainField names type)).2
  have hplaces (x : Tree) (hx : x ∈ names ++ [type]) := h.isValid_start_entry hws (hsub.subset hx)
  have hitems (x : Tree) (hx : x ∈ names ++ [type]) :
      x.Opens ∧ ∀ n ∈ x.nodes, n.start.isValid = true := by
    obtain ⟨s, vs, hs, hvs, hx⟩ := h.exists_of_mem_entries (hsub.subset hx)
    have hvs := hws.sublist hvs
    rcases hs with rfl | rfl <;> exact ⟨hx.opens rfl rfl hvs, hx.isValid_start rfl hvs⟩
  have hnodup : (Tree.positionsAll (names ++ [type])).Nodup := by
    have hall := h.positions_subperm rfl
    rw [Tree.positions_list, ← Rules.positionsAll_parts] at hall
    obtain ⟨qs, hperm, hqs⟩ := (Tree.positionsAll_sublist hsub).subperm.trans hall
    exact hperm.nodup (hws.nodup.sublist hqs)
  have hopens : (Tree.list (names ++ [type])).Opens ∧
      (Tree.startAll (names ++ [type])).isValid = true := by
    obtain ⟨x, xs, heq⟩ := List.exists_cons_of_ne_nil (show names ++ [type] ≠ [] by simp)
    rw [heq] at hplaces hitems hnodup ⊢
    have hx := hplaces x List.mem_cons_self
    rw [Tree.startAll_of_isValid hx]
    refine ⟨(hitems x List.mem_cons_self).1.singleton.append (fun hinvalid => ?_) ?_ ?_, hx⟩
    · rw [Tree.startAll_singleton, hx] at hinvalid
      cases hinvalid
    · exact Tree.forall_nodesAll.mpr fun y hy => (hitems y hy).2
    · rw [Tree.positionsAll_singleton]
      exact fun p hp hp' => (List.nodup_append.mp hnodup).2.2 p hp p hp' rfl
  refine ⟨rfl, by rw [hstart]; exact hopens.2, Node.undocumented_of_head fun _ => rfl,
    nofun, fun _ => ?_⟩
  rw [hstart, hnodes]
  have hopens := hopens.1
  rwa [Tree.Opens, Tree.nodes_list, Tree.start] at hopens

/-- **Every node of a tree that was read without comments is regular.** -/
theorem isRegular (h : Derives d s ws t) (hs : s.isBare = true) (hws : Word.ArePlain ws) :
    ∀ n ∈ t.nodes, n.IsRegular := by
  have hplaced := h.isValid_start hs hws
  have hleaf {n : Node} (hfull : n.fields.length = n.kind.fields.length)
      (hplaced : n.start.isValid = true)
      (hk : n.kind.isDocumented = false) (hbody : n.kind ≠ .forStmt) : n.IsRegular :=
    ⟨hfull, hplaced, Node.undocumented_of_head (by simp [hk]),
      fun h => absurd h hbody, by simp [hk]⟩
  suffices h : ∀ n ∈ t.nodes, n.start.isValid = true → n.IsRegular from
    fun n hn => h n hn (hplaced n hn)
  refine h.forall_nodes_of_sublists (Q := Word.ArePlain) (fun hsub h => h.sublist hsub)
    (fun _ _ h => hleaf rfl h rfl nofun) (fun _ _ h => hleaf rfl h rfl nofun)
    (fun _ _ h => hleaf rfl h rfl nofun) (fun _ _ _ h => hleaf rfl h rfl nofun)
    (fun hes hws hfields _ _ hmem _ => hes.isRegular_field hws hfields hmem) ?_
    (fun hg => absurd List.mem_cons_self (hg.noDocs _)) hs hws
  intro s k ps ws ts hr hp hbare hws hplaced
  refine ⟨hp.length_parts.trans hr.arity, hplaced, Node.undocumented_of_head fun hk => ?_,
    ?_, fun hk => ?_⟩
  · obtain ⟨ps, rfl | rfl⟩ := hr.doc_first hk
    · obtain ⟨vs, us, doc, ts, rfl, rfl, hdoc, -⟩ := hp.of_sub
      rcases hdoc.doc_cases with ⟨-, rfl⟩ | ⟨g, rfl, -⟩
      · rfl
      · exact absurd List.mem_cons_self (hws.noDocs g)
    · obtain ⟨ts, rfl, -⟩ := hp.of_const
      rfl
  · rintro rfl
    exact hp.isKind_body hr
  · have hopens := hp.opens hbare (hr.areOpening hk) hws
    rwa [Tree.Opens, Tree.nodes_list, Tree.start] at hopens

end Derives

/-! ### Semicolons are not recorded -/

namespace Word

/-- The places of the lexemes among some words that are no semicolons. -/
def tokenPositions (ws : List Word) : List Pos :=
  ((lexemes ws).filter (·.token != .semicolon)).map (·.pos)

theorem tokenPositions_append (vs ws : List Word) :
    tokenPositions (vs ++ ws) = tokenPositions vs ++ tokenPositions ws := by
  simp [tokenPositions]

theorem mem_tokenPositions {l : Lexeme} {ws : List Word} (hl : .lexeme l ∈ ws)
    (hsemi : l.token ≠ .semicolon) : l.pos ∈ tokenPositions ws :=
  List.mem_map_of_mem (List.mem_filter.mpr ⟨mem_lexemes.mpr hl, by simpa using hsemi⟩)

theorem tokenPositions_sublist {vs ws : List Word} (h : vs.Sublist ws) :
    (tokenPositions vs).Sublist (tokenPositions ws) :=
  ((h.filterMap _).filter _).map _

end Word

/-- Whether the token that a part records is no semicolon. -/
def Part.skipsSemicolon : Part → Bool
  | .mark t => t != .semicolon
  | .markIn ts => ts.all (· != .semicolon)
  | _ => true

/-- Whether a phrase, or a stretch of fields, records no semicolon. -/
def Phrase.skipsSemicolons : Phrase → Bool
  | .parts ps => ps.all Part.skipsSemicolon
  | _ => true

theorem Row.skipsSemicolons {s : Phrase} {k : Kind} {ps : List Part} (h : Row s k ps) :
    (Phrase.parts ps).skipsSemicolons = true := by
  cases h with
  | @binary _ op _ hop => cases op <;> first | rfl | cases hop
  | @group kw hkw | @single kw hkw =>
    have hall : ∀ t ∈ Token.declarers, (t != .semicolon) = true := by decide
    simpa [Phrase.skipsSemicolons, Part.skipsSemicolon] using hall kw hkw
  | _ => rfl

theorem Phrase.skipsSemicolons_of_isProper {s : Phrase} (h : s.isProper = true) :
    s.skipsSemicolons = true := by
  cases s with
  | parts ps => cases h
  | _ => rfl

namespace Derives

variable {d : Dialect} {s : Phrase} {ws : List Word} {t : Tree}

/-- **A tree that was read without comments records no semicolons.** -/
theorem positions_subset (h : Derives d s ws t) (hbare : s.isBare = true)
    (hs : s.skipsSemicolons = true) (hdocs : ∀ g, .doc g ∉ ws) :
    t.positions ⊆ Word.tokenPositions ws := by
  have hmark {l : Lexeme} {ws : List Word} (hl : .lexeme l ∈ ws) (hsemi : l.token ≠ .semicolon) :
      (Tree.pos l.pos).positions ⊆ Word.tokenPositions ws := by
    intro p hp
    rw [List.mem_singleton.mp ((Tree.positions_pos_sublist l.pos).subset hp)]
    exact Word.mem_tokenPositions hl hsemi
  have hleaf {l : Lexeme} {k : Kind} {fs : List Tree} (hl : l.token ≠ .semicolon)
      (hfs : Tree.positionsAll fs = []) :
      (Tree.node k (.pos l.pos :: fs)).positions ⊆ Word.tokenPositions [.lexeme l] := by
    rw [Tree.positions_node, Tree.positionsAll, hfs, List.append_nil]
    exact hmark List.mem_cons_self hl
  have hmono {ps : List Pos} {vs ws : List Word} (h : ps ⊆ Word.tokenPositions vs)
      (hsub : vs.Sublist ws) :
      ps ⊆ Word.tokenPositions ws := List.Subset.trans h (Word.tokenPositions_sublist hsub).subset
  -- one item more, or the fields of one part more
  have hjoin {u ts : List Tree} {v ws : List Word}
      (hu : Tree.positionsAll u ⊆ Word.tokenPositions v)
      (hts : (Tree.list ts).positions ⊆ Word.tokenPositions ws) :
      (Tree.list (u ++ ts)).positions ⊆ Word.tokenPositions (v ++ ws) := by
    rw [Tree.positions_list] at hts ⊢
    rw [Tree.positionsAll_append, Word.tokenPositions_append]
    exact List.append_subset.mpr
      ⟨List.Subset.trans hu (List.subset_append_left _ _),
        List.Subset.trans hts (List.subset_append_right _ _)⟩
  have hone {t : Tree} {ps : List Pos} (h : t.positions ⊆ ps) : Tree.positionsAll [t] ⊆ ps := by
    rwa [Tree.positionsAll_singleton]
  have left {vs us : List Word} (h : ∀ g, .doc g ∉ vs ++ us) : ∀ g, .doc g ∉ vs :=
    fun g hg => h g (List.mem_append_left _ hg)
  have right {vs us : List Word} (h : ∀ g, .doc g ∉ vs ++ us) : ∀ g, .doc g ∉ us :=
    fun g hg => h g (List.mem_append_right _ hg)
  have tail {v : Word} {us : List Word} (h : ∀ g, .doc g ∉ v :: us) : ∀ g, .doc g ∉ us :=
    fun g hg => h g (List.mem_cons_of_mem _ hg)
  induction h with
  | ident hl | dots _ hl | period hl => exact hleaf (by rw [hl]; decide) rfl
  | literal hl => exact hleaf (by rintro hsemi; rw [hsemi] at hl; cases hl) rfl
  | noDoc | none | empty | endedNil | linesNil | partsNil => exact List.nil_subset _
  | doc g => exact absurd List.mem_cons_self (hdocs g)
  | cover hc _ ih =>
    have hproper := hc.isProper (by cases hc <;> exact hbare)
    exact ih (hc.isBare hbare) (Phrase.skipsSemicolons_of_isProper hproper) hdocs
  | node hr _ ih => exact ih (hr.isBare hbare) hr.skipsSemicolons hdocs
  | behind _ _ ih =>
    exact hmono (ih (Phrase.isBare_of_isProper hbare) (Phrase.skipsSemicolons_of_isProper hbare)
      (tail hdocs)) (List.sublist_cons_self _ _)
  | spread _ _ ih => exact hmono (ih rfl rfl (left hdocs)) (List.sublist_append_left _ _)
  | endedComma _ _ ih | linesSemicolon _ _ ih =>
    exact hmono (ih hbare rfl (left hdocs)) (List.sublist_append_left _ _)
  | one _ _ ih =>
    exact hone (ih (Phrase.isBare_of_isProper hbare)
      (Phrase.skipsSemicolons_of_isProper hbare) hdocs)
  | firstName _ ih => exact hone (ih rfl rfl hdocs)
  | more _ _ _ ih₁ ih₂ | linesItem _ _ _ ih₁ ih₂ =>
    exact hjoin (ih₁ hbare rfl (left hdocs)) (hone (ih₂ (Phrase.isBare_of_isProper hbare)
      (Phrase.skipsSemicolons_of_isProper hbare) (right hdocs)))
  | nextName _ _ _ ih₁ ih₂ =>
    refine hjoin (ih₁ rfl rfl (left hdocs)) (hone (hmono ?_ (List.sublist_cons_self _ _)))
    exact ih₂ rfl rfl (tail (right hdocs))
  | word _ _ ih | lineEnd _ _ ih =>
    exact hmono (ih hbare hs (tail hdocs)) (List.sublist_cons_self _ _)
  | noLineEnd _ ih | unmarked _ ih => exact ih hbare hs hdocs
  | @mark tok _ l _ _ hl _ ih =>
    obtain ⟨htok, hs⟩ := (Bool.and_eq_true _ _).mp hs
    have hsemi : l.token ≠ .semicolon := by simpa [Part.skipsSemicolon, ← hl] using htok
    exact hjoin (u := [.pos l.pos]) (v := [.lexeme l]) (hone (hmark List.mem_cons_self hsemi))
      (ih hbare hs (tail hdocs))
  | @markIn toks _ l _ _ hl _ ih =>
    obtain ⟨htoks, hs⟩ := (Bool.and_eq_true _ _).mp hs
    have hsemi : l.token ≠ .semicolon := by simpa using List.all_eq_true.mp htoks _ hl
    exact hjoin (u := [.pos l.pos]) (v := [.lexeme l]) (hone (hmark List.mem_cons_self hsemi))
      (ih hbare hs (tail hdocs))
  | @const t ps ws ts _ ih =>
    obtain ⟨hs₁, hs₂⟩ := (Bool.and_eq_true _ _).mp hbare
    have hempty := (Part.isBare_const hs₁).2.1
    exact hjoin (u := [t]) (v := []) (hone (hempty ▸ List.nil_subset _)) (ih hs₂ hs hdocs)
  | sub _ _ ih₁ ih₂ =>
    obtain ⟨hs₁, hs₂⟩ := (Bool.and_eq_true _ _).mp hbare
    exact hjoin (hone (ih₁ (Phrase.isBare_of_isProper hs₁) (Phrase.skipsSemicolons_of_isProper hs₁)
      (left hdocs))) (ih₂ hs₂ hs (right hdocs))
  | @args ps ws ws' xs ts p _ hp _ ih₁ ih₂ =>
    refine hjoin (u := [.list xs, .pos p]) ?_ (ih₂ hbare hs (right hdocs))
    rw [Tree.positionsAll, Tree.positionsAll_singleton]
    refine List.append_subset.mpr ⟨ih₁ rfl rfl (left hdocs), ?_⟩
    rcases hp with rfl | ⟨l, hl, htok, rfl, -⟩
    · exact List.nil_subset _
    · exact hmark hl (by rw [htok]; decide)
  | @targets ps ws ws' xs ts _ _ ih₁ ih₂ =>
    refine hjoin (u := [xs[0]?.getD .nil, xs[1]?.getD .nil]) ?_ (ih₂ hbare hs (right hdocs))
    rw [Tree.positionsAll, Tree.positionsAll_singleton]
    exact List.Subset.trans (Tree.positions_targets_sublist xs).subset (ih₁ rfl rfl (left hdocs))
  | params _ hfields _ ih₁ ih₂ =>
    refine hjoin (hone ?_) (ih₂ hbare hs (right hdocs))
    rw [Tree.positions_list]
    exact List.Subset.trans (Rules.positions_fieldsOfEntries hfields).1.subset
      (ih₁ rfl rfl (left hdocs))

end Derives

end Graft
