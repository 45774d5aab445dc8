import Graft.Proofs.Layout.WordOrder
import Graft.Proofs.Patch.Context
import Graft.Proofs.Recipe.Stretch

/-! # The places of wildcards

A run is filed under the place of its wildcard, so a pattern whose wildcards stand at different
places never files two runs under one key.  A tree may record a place twice, as one comment can
document several nodes; but a wildcard stands where its `...` does, which is the place of one token
and of no comment (`wildcardsApart_of_parseFragment`).  The keys of wildcards in the pattern of a
tree are such places, each used no more often than the tree records it (`Tree.DotsIn.ofTree`), and
so the sections of the pattern of a window have keys of their own (`Pattern.exists_runs_ofWindow`).
-/

namespace Graft

/-! ### Tokens and comments -/

/-- No comment begins where a token does. -/
theorem Scan.Scans.comment_pos_ne {offset : Nat} {isOpen : Bool} {ps : List Piece}
    {ls : List Lexeme} {cs : List Comment} (h : Scans offset isOpen ps ls cs)
    (hps : ∀ p ∈ ps, p.text ≠ []) {l : Lexeme} (hl : l ∈ ls) (hsemi : l.token ≠ .semicolon)
    {c : Comment} (hc : c ∈ cs) : c.pos ≠ l.pos := by
  intro heq
  rcases h.comment_apart hps hl hsemi hc with ⟨hlt, -⟩ | hlt
  · rw [heq] at hlt
    exact Nat.lt_irrefl _ hlt
  · rw [heq] at hlt
    exact Nat.lt_irrefl _ hlt

/-- The places of a comment group are those of its comments. -/
theorem CommentGroup.mem_positions {ds : List Comment} {lastLine : Nat} {p : Pos}
    (h : p ∈ (ofComments ds lastLine).tree.positions) : ∃ c ∈ ds, c.pos = p := by
  rw [ofComments, Tree.positions_node, Tree.positionsAll_singleton, Tree.positions_list,
    Tree.mem_positionsAll] at h
  obtain ⟨t, ht, h⟩ := h
  obtain ⟨c, hc, rfl⟩ := List.mem_map.mp ht
  rw [Tree.positions_node, Tree.positionsAll_cons] at h
  refine ⟨c, hc, ?_⟩
  have hplace : p ∈ (Tree.pos c.pos).positions := by
    simpa [Tree.positionsAll, Tree.positions] using h
  exact (List.mem_singleton.mp ((Tree.positions_pos_sublist c.pos).subset hplace)).symm

/-! ### Wildcards of a text -/

/-- Whether the wildcards in some values stand at places of which the values record each once. -/
def Tree.WildcardsApart (ts : List Tree) : Prop :=
  ∃ places : Pos → Bool,
    (∀ n ∈ nodesAll ts, n.kind = .dots → n.start.isValid = true ∧ places n.start = true) ∧
      ((positionsAll ts).filter places).Nodup

theorem Word.filter_positionsAll {ws : List Word} {places : Pos → Bool}
    (h : ∀ g, .doc g ∈ ws → ∀ p ∈ g.tree.positions, ¬ places p = true) :
    (positionsAll ws).filter places = ((lexemes ws).map (·.pos)).filter places := by
  induction ws with
  | nil => rfl
  | cons w ws ih =>
    have ih := ih fun g hg => h g (List.mem_cons_of_mem _ hg)
    cases w with
    | lexeme l =>
      rw [positionsAll_lexeme, lexemes_lexeme, List.map_cons, List.filter_cons,
        List.filter_cons, ih]
    | doc g =>
      have hnone := List.filter_eq_nil_iff.mpr (h g List.mem_cons_self)
      rw [positionsAll, List.flatMap_cons, List.filter_append, lexemes_doc, ← ih]
      exact congrArg (· ++ _) hnone

/-- The wildcards of a phrase are tokens of it. -/
theorem Derives.exists_of_dots {d : Dialect} {s : Phrase} {ws : List Word} {t : Tree}
    (h : Derives d s ws t) (hs : s.isBare = true)
    (hdocs : ∀ g, .doc g ∈ ws → ∀ n ∈ g.tree.nodes, n.kind.isComment = true) :
    ∀ n ∈ t.nodes, n.kind = .dots →
      ∃ l, .lexeme l ∈ ws ∧ l.token = .ellipsis ∧ n = ⟨.dots, [.pos l.pos]⟩ := by
  refine h.forall_nodes_of_words (Q := (· ∈ ws))
    nofun nofun nofun (fun hl hmem _ => ⟨_, hmem, hl, rfl⟩) nofun
    (fun hr _ _ hk => absurd hk hr.kind_ne_dots) (fun hg n hn hk => ?_) hs fun _ hw => hw
  have hcomment := hdocs _ hg n hn
  rw [hk] at hcomment
  cases hcomment

/-- **The wildcards of a fragment stand apart.** -/
theorem wildcardsApart_of_parseFragment {d : Dialect} {cs : List Char} {f : Fragment}
    (h : parseFragment d cs = .ok f) : Tree.WildcardsApart f.body.trees := by
  obtain ⟨scan, groups, hscan, hgroups, hfragment⟩ := exists_of_parseFragment h
  obtain ⟨ws₁, c, run₁, hspelled⟩ := hfragment.body
  obtain ⟨s, ws, c', run₂, hs, hbody⟩ := hspelled.exists_words
  obtain ⟨ps, hsplits, hscans⟩ := Scan.scans_of_ofText hscan
  have hpieces (p : Piece) (hp : p ∈ ps) := hsplits.text_ne_nil hp
  have hrest : scan.lexemes = Word.lexemes (ws₁ ++ ws) ++ c'.rest := (run₁.trans run₂).rest_eq
  have hlexeme {l : Lexeme} (hl : l ∈ Word.lexemes ws) : l ∈ Word.lexemes (ws₁ ++ ws) := by
    rw [Word.lexemes_append]
    exact List.mem_append_right _ hl
  have hscanned {l : Lexeme} (hl : l ∈ Word.lexemes ws) : l ∈ scan.lexemes :=
    hrest ▸ List.mem_append_left _ (hlexeme hl)
  have hdocs (g : CommentGroup) (hg : .doc g ∈ ws) := hgroups.exists_comments (run₂.mem_groups hg)
  have hdots := hbody.exists_of_dots (Phrase.isBare_of_isProper hs) fun g hg => by
    obtain ⟨ds, line, -, -, rfl⟩ := hdocs g hg
    exact CommentGroup.isComment_nodes ds line
  refine ⟨fun p => decide (∃ l ∈ Word.lexemes ws, l.token = .ellipsis ∧ l.pos = p),
    fun n hn hk => ?_, ?_⟩
  · obtain ⟨l, hl, htoken, rfl⟩ := hdots n hn hk
    have hl := Word.mem_lexemes.mpr hl
    have hvalid : l.pos.isValid = true := by
      have hle := hscans.le_pos (hscanned hl)
      rw [Pos.le_def] at hle
      simp only [Pos.atOffset, Pos.isValid, bne_iff_ne] at hle ⊢
      omega
    have hstart : (⟨.dots, [.pos l.pos]⟩ : Node).start = l.pos := if_pos hvalid
    rw [hstart]
    exact ⟨hvalid, decide_eq_true ⟨l, hl, htoken, rfl⟩⟩
  · -- the places of lexemes are all different, and no comment stands at one of them
    obtain ⟨qs, hperm, hsub⟩ := (hbody.positions_subperm (Phrase.isBare_of_isProper hs)).filter _
    rw [Word.filter_positionsAll] at hsub
    · refine hperm.nodup_iff.mp (List.Nodup.sublist (hsub.trans List.filter_sublist) ?_)
      have hpairwise := hscans.pairwise_pos hpieces
      rw [hrest, Word.lexemes_append, List.append_assoc] at hpairwise
      have hlexemes := (List.pairwise_append.mp (List.pairwise_append.mp hpairwise).2.1).1
      refine List.pairwise_map.mpr (hlexemes.imp_of_mem fun _ hm hlt heq => ?_)
      have hlt := hlt ((run₁.trans run₂).ne_eof (hscans.ended hsplits.allSpelled) _ (hlexeme hm))
      rw [heq] at hlt
      exact absurd hlt (Nat.lt_irrefl _)
    · rintro g hg p hp hplace
      obtain ⟨l, hl, htoken, rfl⟩ := of_decide_eq_true hplace
      obtain ⟨ds, line, -, hsub, rfl⟩ := hdocs g hg
      obtain ⟨comment, hcomment, heq⟩ := CommentGroup.mem_positions hp
      exact hscans.comment_pos_ne hpieces (hscanned hl) (by rw [htoken]; decide)
        (hsub.subset hcomment) heq

/-! ### Wildcards of a pattern -/

theorem subperm_flatMap {α β : Type} {as : List α} {f g : α → List β}
    (h : ∀ a ∈ as, (f a).Subperm (g a)) : (as.flatMap f).Subperm (as.flatMap g) := by
  induction as with
  | nil => exact List.nil_subperm
  | cons a as ih =>
    obtain ⟨ha, has⟩ := List.forall_mem_cons.mp h
    rw [List.flatMap_cons, List.flatMap_cons]
    exact ha.append (ih has)

namespace Tree

variable {metas : MetaTable} {places : Pos → Bool} {t : Tree} {ts : List Tree}

/-- Whether the keys of wildcards, among some keys, are given places that some positions record,
each no more often than the positions do. -/
abbrev DotsAt (places : Pos → Bool) (ks : List Key) (ps : List Pos) : Prop :=
  (ks.filter Key.isDots).Subperm ((ps.filter places).map Key.dots)

theorem DotsAt.append {ks ks' : List Key} {ps ps' : List Pos} (h : DotsAt places ks ps)
    (h' : DotsAt places ks' ps') : DotsAt places (ks ++ ks') (ps ++ ps') := by
  rw [DotsAt, List.filter_append, List.filter_append, List.map_append]
  exact List.Subperm.append h h'

theorem DotsAt.flatMap {f : Tree → List Key} (h : ∀ t ∈ ts, DotsAt places (f t) t.positions) :
    DotsAt places (ts.flatMap f) (positionsAll ts) := by
  rw [DotsAt, positionsAll_eq_flatMap, List.filter_flatMap, List.filter_flatMap, List.map_flatMap]
  exact subperm_flatMap h

/-- Whether the wildcards in a value stand at some of the given places. -/
def DotsIn (places : Pos → Bool) (t : Tree) : Prop :=
  ∀ n ∈ t.nodes, n.kind = .dots → n.start.isValid = true ∧ places n.start = true

theorem DotsIn.itemKeys (h : t.DotsIn places)
    (ht : DotsAt places (Pattern.ofTree metas t).keys t.positions) :
    DotsAt places (itemKeys metas t) t.positions := by
  rw [Tree.itemKeys]
  cases hp : t.wildcard? with
  | none => exact ht
  | some p =>
    obtain ⟨n, hn, hk, rfl⟩ := exists_dots_of_wildcard? hp
    obtain ⟨hvalid, hplace⟩ := h n hn hk
    have hmem := Node.start_mem_of_mem hn hvalid
    refine List.singleton_subperm_iff.mpr (List.mem_map_of_mem ?_)
    exact List.mem_filter.mpr ⟨hmem, hplace⟩

theorem dotsAt_ofFields (n : Node) (fs : List Field)
    (hts : ∀ t ∈ ts, DotsAt places (Pattern.ofTree metas t).keys t.positions) :
    DotsAt places (Pattern.keysAll (Pattern.ofFields metas (.ofDoc n) fs ts))
    (positionsAll ts) := by
  induction fs generalizing ts with
  | nil =>
    rw [Pattern.ofFields]
    · exact List.nil_subperm
    · intro f fs t ts hfs
      cases hfs
  | cons f fs ih =>
    cases ts with
    | nil => exact List.nil_subperm
    | cons t ts =>
      obtain ⟨ht, hts⟩ := List.forall_mem_cons.mp hts
      rw [Pattern.ofFields, Pattern.keysAll, positionsAll_cons]
      refine DotsAt.append ?_ (ih hts)
      split
      · unfold Pattern.ofDoc
        split <;> exact List.nil_subperm
      · exact ht

theorem keys_sublist_of_mem {p : Pattern} {ps : List Pattern} (h : p ∈ ps) :
    p.keys.Sublist (Pattern.keysAll ps) := by
  induction ps with
  | nil => cases h
  | cons q ps ih =>
    rw [Pattern.keysAll]
    rcases List.mem_cons.mp h with rfl | h
    · exact List.sublist_append_left _ _
    · exact (ih h).trans (List.sublist_append_right _ _)

/-- **The keys of wildcards in the pattern of a tree are places of the tree**, each recorded as
often as it is used. -/
theorem DotsIn.ofTree (h : t.DotsIn places) :
    DotsAt places (Pattern.ofTree metas t).keys t.positions := by
  induction t using Tree.induction with
  | hnil | hstr | htok => exact List.nil_subperm
  | hpos p =>
    rw [Pattern.ofTree, Pattern.keys]
    split <;> exact List.nil_subperm
  | hlist ts ih =>
    rw [keys_ofTree_list, positions_list]
    refine DotsAt.flatMap fun t ht => ?_
    have ht' : t.DotsIn places := fun n hn => h n ((subset_of_mem ht).2 hn)
    exact ht'.itemKeys (ih t ht ht')
  | hnode k fs ih =>
    have hfields : DotsAt places
        (Pattern.keysAll (Pattern.ofFields metas (.ofDoc ⟨k, fs⟩) k.fields fs))
        (positionsAll fs) := dotsAt_ofFields ⟨k, fs⟩ k.fields fun t ht =>
      ih t ht fun n hn => h n (nodes_node k fs ▸ List.mem_cons_of_mem _ ((subset_of_mem ht).2 hn))
    rw [Pattern.ofTree, positions_node]
    split
    · exact List.nil_subperm
    · split
      · exact List.nil_subperm
      · split
        · rw [Pattern.keys]
          cases k.indexOf? .body with
          | none => exact List.nil_subperm
          | some i =>
            rw [Option.elim_some]
            cases hi : (Pattern.ofFields metas (.ofDoc ⟨k, fs⟩) k.fields fs)[i]? with
            | none => exact List.nil_subperm
            | some p =>
              have hsub := keys_sublist_of_mem (List.mem_of_getElem? hi)
              exact (hsub.filter _).subperm.trans hfields
        · split
          · exact List.nil_subperm
          · exact hfields

/-- The keys of the wildcards in a stretch whose wildcards stand apart are all different. -/
theorem WildcardsApart.nodup_dotsKeys (h : WildcardsApart ts) :
    ((ts.flatMap (itemKeys metas)).filter Key.isDots).Nodup := by
  obtain ⟨places, hplaces, hnodup⟩ := h
  obtain ⟨ks, hperm, hsub⟩ : DotsAt places (ts.flatMap (itemKeys metas)) (positionsAll ts) := by
    refine DotsAt.flatMap fun t ht => ?_
    have ht' : t.DotsIn places := fun n hn => hplaces n ((subset_of_mem ht).2 hn)
    exact ht'.itemKeys ht'.ofTree
  exact hperm.nodup_iff.mp ((hnodup.map fun _ _ => Key.dots.inj).sublist hsub)

end Tree

/-! ### The sections of a window -/

namespace Pattern

theorem keys_sections_perm {sections : List (Key × List Pattern)}
    (h : ∀ s ∈ sections, s.1.isRun = true) :
    ((sectionKeys sections).filter Key.isRun).Perm
      (sections.map (·.1) ++ (sections.flatMap fun s => keysAll s.2).filter Key.isRun) := by
  induction sections with
  | nil => exact .refl _
  | cons s sections ih =>
    obtain ⟨hs, hsections⟩ := List.forall_mem_cons.mp h
    rw [sectionKeys, List.filter_cons_of_pos hs, List.map_cons, List.flatMap_cons,
      List.filter_append, List.filter_append, List.cons_append]
    exact (((ih hsections).append_left _).trans (List.perm_append_comm_assoc _ _ _)).cons _

/-- If no key of a run occurs twice in some sections, they have keys of their own, which occur in no
element of theirs. -/
theorem sections_distinct {sections : List (Key × List Pattern)}
    (hruns : ∀ s ∈ sections, s.1.isRun = true)
    (h : ((sectionKeys sections).filter Key.isRun).Nodup) :
    (sections.map (·.1)).Nodup ∧ ∀ key ∈ sections.map (·.1), ∀ s ∈ sections, key ∉ keysAll s.2 := by
  have hperm := keys_sections_perm hruns
  obtain ⟨hkeys, -, hitems⟩ := List.nodup_append.mp (hperm.nodup_iff.mp h)
  refine ⟨hkeys, fun key hkey s hs hmem => ?_⟩
  obtain ⟨s', hs', rfl⟩ := List.mem_map.mp hkey
  exact hitems _ hkey _ (List.mem_filter.mpr ⟨List.mem_flatMap.mpr ⟨s, hs, hmem⟩, hruns s' hs'⟩) rfl

theorem isRun_of_mem_sections {sections : List (Key × List Pattern)}
    (h : ∀ k ∈ runKeysIn sections, k.isRun = true) : ∀ s ∈ sections, s.1.isRun = true := by
  induction sections with
  | nil => nofun
  | cons s sections ih =>
    obtain ⟨hs, hrest⟩ := List.forall_mem_cons.mp h
    exact List.forall_mem_cons.mpr ⟨hs, ih (List.forall_mem_append.mp hrest).2⟩

variable {metas : MetaTable} {ts : List Tree} {head tail : Bool}

/-- The keys of runs in the pattern of a stretch are all different. -/
theorem nodup_runKeys_ofWindow (hts : Tree.WildcardsApart ts) :
    ((ofWindow metas ts head tail).keys.filter Key.isRun).Nodup := by
  have hdots : ((ts.flatMap (Tree.itemKeys metas)).filter Key.isDots).Nodup := hts.nodup_dotsKeys
  have hfirst := outside_notMem_keys metas (show Key.head.isOutside = true from rfl) ts
  have hlast := outside_notMem_keys metas (show Key.tail.isOutside = true from rfl) ts
  rw [← not_or, ← List.mem_append, Tree.keys_cut] at hfirst hlast
  rw [keys_ofWindow]
  generalize ts.flatMap (Tree.itemKeys metas) = ks at hdots hfirst hlast
  have hinner : ks.filter Key.isRun = ks.filter Key.isDots := by
    refine List.filter_congr fun k hk => ?_
    cases k with
    | head => exact absurd hk hfirst
    | tail => exact absurd hk hlast
    | _ => rfl
  have hhead : [Key.head].filter Key.isRun = [.head] := rfl
  have htail : [Key.tail].filter Key.isRun = [.tail] := rfl
  rw [List.filter_append, List.filter_append, hinner]
  cases head <;> cases tail <;> simp [List.nodup_append', hdots, hfirst, hlast, hhead, htail]

/-- What the list pattern of a stretch is like: it has sections with keys of their own, which are
those of runs and occur in no element of the sections; what is skipped before the stretch is the
first run, and what is skipped behind it the last one. -/
structure IsWindow (front : List Pattern) (sections : List (Key × List Pattern))
    (head tail : Bool) : Prop where
  ne_nil : sections ≠ []
  isRun : ∀ s ∈ sections, s.1.isRun = true
  nodup : (sections.map (·.1)).Nodup
  free : ∀ key ∈ sections.map (·.1), ∀ s ∈ sections, key ∉ keysAll s.2
  first : head = true → front = [] ∧ ∃ ps rest, sections = (.head, ps) :: rest
  last : tail = true → ∃ rest, sections = rest ++ [(.tail, [])]

/-- **The sections of the pattern of a stretch have keys of their own.** -/
theorem exists_runs_ofWindow (metas : MetaTable) (tail : Bool) (hts : Tree.WildcardsApart ts)
    (hne : ts ≠ []) (hhead : head = !(ts.head?.bind Tree.wildcard?).isSome) :
    ∃ front sections, ofWindow metas ts head tail = runs front sections ∧
      IsWindow front sections head tail := by
  obtain ⟨front, sections, heq, hsections, hfirst, hlast⟩ :
      ∃ front sections, ofWindow metas ts head tail = runs front sections ∧ sections ≠ [] ∧
        (head = true → front = [] ∧ ∃ ps rest, sections = (.head, ps) :: rest) ∧
        (tail = true → ∃ rest, sections = rest ++ [(.tail, [])]) := by
    rw [ofWindow]
    cases hfirst : head with
    | true =>
      refine ⟨_, _, rfl, List.cons_ne_nil _ _, fun _ => ⟨rfl, _, _, rfl⟩, ?_⟩
      rintro rfl
      exact ⟨_, rfl⟩
    | false =>
      have hsections := @sections_ne_nil metas _ _ hne hhead hfirst
      refine ⟨_, _, rfl, List.append_ne_nil_of_left_ne_nil hsections _, by rintro ⟨⟩, ?_⟩
      rintro rfl
      exact ⟨_, rfl⟩
  have hruns : ∀ k ∈ (ofWindow metas ts head tail).runKeys, k.isRun = true :=
    isRun_of_ofWindow ts head tail
  have hkeys : ((ofWindow metas ts head tail).keys.filter Key.isRun).Nodup :=
    nodup_runKeys_ofWindow hts
  rw [heq] at hruns hkeys
  rw [keys, List.filter_append] at hkeys
  have hruns := isRun_of_mem_sections (List.forall_mem_append.mp hruns).2
  obtain ⟨hnodup, hfree⟩ := sections_distinct hruns (List.nodup_append.mp hkeys).2.1
  exact ⟨front, sections, heq, hsections, hruns, hnodup, hfree, hfirst, hlast⟩

end Pattern

theorem Body.wildcardsApart_elements {b : Body} (h : Tree.WildcardsApart b.trees) :
    Tree.WildcardsApart b.elements := by
  cases b with
  | expr x =>
    obtain ⟨places, hplaces, hnodup⟩ := h
    refine ⟨places, fun n hn hk => hplaces n ?_ hk, ?_⟩
    · rw [elements, Patch.asStmt, Tree.nodesAll_singleton, Tree.nodes_node] at hn
      rcases List.mem_cons.mp hn with rfl | hn
      · cases hk
      · exact hn
    · rwa [elements, Patch.asStmt, Tree.positionsAll_singleton, Tree.positions_node]
  | _ => exact h

/-- The wildcards of a patch stand apart. -/
theorem Patch.wildcardsApart {text : List Char} {p : Patch}
    (hp : p ∈ (PatchFile.read text).patches) :
    Tree.WildcardsApart p.minus.fragment.body.elements := by
  obtain ⟨body, -, hread⟩ := PatchFile.exists_body_of_mem hp
  obtain ⟨fragment, hfragment, hminus⟩ := Side.exists_of_read hread.minus
  rw [hminus]
  exact Body.wildcardsApart_elements (wildcardsApart_of_parseFragment hfragment)

end Graft
