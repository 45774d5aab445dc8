import Graft.Proofs.Grammar.ReadFragment
import Graft.Proofs.Grammar.Regular
import Graft.Proofs.Layout.Regions

/-! # What is read fits the schema

Every node that is read has the fields of its schema, and what is read into a field is accepted by
its slot, with one exception (`parse_fits`).  The names of a field are not always names: where a
parameter or a field of a struct is written as two types, the first is taken as the name of the
second whatever it is, so that `*a int` comes out as a field named `*a`.

Which kinds of nodes a field holds is checked row by row (`Row.taken`); for the names of fields
these are the kinds that types are, and of these only identifiers are accepted.
-/

namespace Graft

/-- The kinds of nodes that are read as the names of fields. -/
def Kind.names : List Kind := .ellipsis :: Kind.types

/-- The kinds of nodes that are read into a field of a node of kind `k`. -/
def Kind.admits (k : Kind) (f : Field) : Kind → Bool :=
  if k = .field ∧ f.label = .names then Kind.names.contains else f.slot.admits

/-- **Every row of the grammar is taken by the fields of its kind.** -/
theorem Row.taken {s : Phrase} {k : Kind} {ps : List Part} (h : Row s k ps) :
    Part.taken k.admits ps k.fields = true := by
  cases h with
  | members s hs => rcases hs with rfl | rfl <;> rfl
  | _ => rfl

/-- Whether a node has the fields of its schema, and each is accepted by its slot, except that the
names of fields are accepted only if they are names. -/
structure Node.Fits (n : Node) : Prop where
  length : n.fields.length = n.kind.fields.length
  accepts : ∀ x ∈ n.kind.fields.zip n.fields, x.1.slot.accepts x.2 = true ↔
    (n.kind = .field → x.1.label = .names → ∀ y ∈ x.2.items, y.isKind .ident = true)

/-- Of the nodes that are read as names the identifiers are accepted. -/
theorem Slot.accepts_names {t : Tree} (h : (Slot.list .ident).holds Kind.names.contains t = true) :
    (Slot.list .ident).accepts t = true ↔ ∀ y ∈ t.items, y.isKind .ident = true := by
  have hkinds : ∀ k ∈ Kind.names, k.isA .ident = true ↔ k = .ident := by decide
  cases t with
  | list ts =>
    rw [Slot.holds_list] at h
    rw [Slot.accepts_eq_holds, Slot.holds_list]
    refine forall₂_congr fun y hy => ?_
    obtain ⟨k, fs, rfl, hk⟩ := h y hy
    simpa [Tree.isKind, Tree.kind?, Slot.admits] using hkinds k (by simpa using hk)
  | _ => cases h

theorem Node.Fits.of_holds {n : Node} (hlen : n.fields.length = n.kind.fields.length)
    (h : ∀ x ∈ n.kind.fields.zip n.fields, x.1.slot.holds (n.kind.admits x.1) x.2 = true) :
    n.Fits := by
  refine ⟨hlen, fun x hx => ?_⟩
  have hholds := h x hx
  unfold Kind.admits at hholds
  split at hholds
  · rename_i hnames
    obtain ⟨hkind, hlabel⟩ := hnames
    have hslot : x.1.slot = .list .ident := by
      have hall : ∀ f ∈ Kind.field.fields, f.label = .names → f.slot = .list .ident := by decide
      exact hall x.1 (hkind ▸ (List.of_mem_zip hx).1) hlabel
    rw [hslot] at hholds ⊢
    rw [Slot.accepts_names hholds]
    exact ⟨fun h _ _ => h, fun h => h hkind hlabel⟩
  · rename_i hnames
    rw [← Slot.accepts_eq_holds] at hholds
    exact ⟨fun _ hkind hlabel => absurd ⟨hkind, hlabel⟩ hnames, fun _ => hholds⟩

/-! ### Comments -/

theorem CommentGroup.fits_ofComments (ds : List Comment) (lastLine : Nat) :
    ∀ n ∈ (ofComments ds lastLine).tree.nodes, n.Fits := by
  rw [ofComments, Tree.nodes_node, List.forall_mem_cons, Tree.forall_nodesAll]
  constructor
  · refine .of_holds rfl (List.forall_mem_singleton.mpr (Slot.holds_list.mpr fun t ht => ?_))
    obtain ⟨c, -, rfl⟩ := List.mem_map.mp ht
    exact ⟨_, _, rfl, rfl⟩
  · refine List.forall_mem_singleton.mpr ?_
    rw [Tree.nodes_list, Tree.forall_nodesAll]
    intro t ht
    obtain ⟨c, -, rfl⟩ := List.mem_map.mp ht
    refine List.forall_mem_singleton.mpr (.of_holds rfl ?_)
    exact List.forall_mem_cons.mpr ⟨rfl, List.forall_mem_singleton.mpr rfl⟩

/-- Whether the comments above nodes are made of comments. -/
def Word.DocsAreComments (ws : List Word) : Prop :=
  ∀ g, .doc g ∈ ws → ∃ ds lastLine, g = CommentGroup.ofComments ds lastLine

theorem Word.DocsAreComments.areGroups {ws : List Word} (h : DocsAreComments ws) :
    DocsAreGroups ws := by
  intro g hg
  obtain ⟨ds, lastLine, rfl⟩ := h g hg
  rfl

theorem CommentGroup.Groups.docsAreComments {cs : List Comment} {gs : List CommentGroup}
    {ws : List Word} (h : Groups cs gs) (hws : ∀ g, .doc g ∈ ws → g ∈ gs) :
    Word.DocsAreComments ws := by
  intro g hg
  obtain ⟨ds, lastLine, -, -, rfl⟩ := h.exists_comments (hws g hg)
  exact ⟨ds, lastLine, rfl⟩

/-! ### Derivations -/

namespace Derives

variable {d : Dialect} {s : Phrase} {ws : List Word} {t : Tree}

/-- The fields of a parameter list, whose names and types are put together from its entries. -/
theorem fits_param {es : List Rules.ParamEntry} {fs names : List Tree} {type : Tree}
    (h : Derives d (.trailing .entry) ws (.list (es.map (·.field))))
    (hfields : Rules.fieldsOfEntries es = .ok fs) (hmem : Rules.plainField names type ∈ fs) :
    Node.Fits ⟨.field, [.nil, .list names, type, .nil]⟩ := by
  -- a wildcard is a type but no name
  have hentries := Rules.forall_fieldsOfEntries
    (P := fun x => ∃ k fs, x = .node k fs ∧ Kind.names.contains k = true)
    (Q := fun x => ∃ k fs, x = .node k fs ∧ (.dots :: Kind.names).contains k = true)
    ?_ hfields ?_
  · obtain ⟨names', type', heq, hnames, k, gs, rfl, hk⟩ := hentries _ hmem
    cases heq
    have hexpr : k.isA .expr = true := by
      have hall : ∀ k ∈ Kind.dots :: Kind.names, k.isA .expr = true := by decide
      exact hall k (by simpa using hk)
    refine .of_holds rfl ?_
    exact List.forall_mem_cons.mpr ⟨rfl, List.forall_mem_cons.mpr ⟨Slot.holds_list.mpr hnames,
      List.forall_mem_cons.mpr ⟨hexpr, List.forall_mem_singleton.mpr rfl⟩⟩⟩
  · rintro _ ⟨k, gs, rfl, -⟩ hident
    obtain rfl : k = .ident := by simpa [Tree.isKind, Tree.kind?] using hident
    exact ⟨_, _, rfl, rfl⟩
  · intro e he
    obtain ⟨vs, -, hentry⟩ := h.exists_of_mem_items rfl e.field (List.mem_map_of_mem he)
    obtain ⟨as, bs, s, rfl, hname, hs, htype⟩ := hentry.exists_of_entry
    refine ⟨fun x hx => (hname x hx).exists_of_all rfl (by decide), ?_⟩
    rcases hs with rfl | rfl
    · exact htype.exists_of_all rfl (by decide)
    · exact htype.exists_of_all rfl (by decide)

/-- **The nodes of a tree that was read fit the schema.** -/
theorem fits (h : Derives d s ws t) (hs : s.isBare = true) (hws : Word.DocsAreComments ws) :
    ∀ n ∈ t.nodes, n.Fits := by
  have hident {p : Pos} {name : String} : Node.Fits ⟨.ident, [.pos p, .str name]⟩ :=
    .of_holds rfl (List.forall_mem_cons.mpr ⟨rfl, List.forall_mem_singleton.mpr rfl⟩)
  refine h.forall_nodes_of_sublists (Q := Word.DocsAreComments) ?_ (fun _ _ => hident)
    (fun _ _ => hident)
    ?_ ?_ ?_ ?_ ?_ hs hws
  · exact fun hsub hws g hg => hws g (hsub.subset hg)
  · intro l _ _
    exact .of_holds rfl (List.forall_mem_cons.mpr
      ⟨rfl, List.forall_mem_cons.mpr ⟨rfl, List.forall_mem_singleton.mpr rfl⟩⟩)
  · intro l _ _ _
    exact .of_holds rfl (List.forall_mem_singleton.mpr rfl)
  · exact fun hentries _ hfields _ _ hmem => hentries.fits_param hfields hmem
  · intro s k ps ws ts hr hp _ hws
    exact .of_holds (hp.length_parts.trans hr.arity) (hp.holds_parts hws.areGroups hr.taken)
  · intro g hg
    obtain ⟨ds, lastLine, rfl⟩ := hg g List.mem_cons_self
    exact CommentGroup.fits_ofComments ds lastLine

end Derives

/-! ### Files and fragments -/

theorem CommentGroup.Groups.fits {cs : List Comment} {gs : List CommentGroup} (h : Groups cs gs) :
    ∀ g ∈ gs, ∀ n ∈ g.tree.nodes, n.Fits := by
  intro g hg
  obtain ⟨ds, lastLine, -, -, rfl⟩ := h.exists_comments hg
  exact fits_ofComments ds lastLine

/-- The nodes of a file fit the schema. -/
theorem FileReading.fits {d : Dialect} {cs : List Char} (r : FileReading d cs) :
    ∀ n ∈ r.node.tree.nodes, n.Fits := by
  have hdocs : Word.DocsAreComments r.words :=
    r.groups_comments.docsAreComments fun g hg => r.run.mem_groups hg
  have hcode := r.code_derives.fits rfl hdocs
  rw [Tree.nodes_list] at hcode
  rw [r.nodes_node, List.forall_mem_cons, List.forall_mem_append]
  refine ⟨.of_holds rfl ?_, hcode, ?_⟩
  · have hfields : ∀ x ∈ Kind.file.fields.zip r.code, x.1.slot.holds (Kind.file.admits x.1) x.2 =
        true :=
      r.code_derives.holds_parts hdocs.areGroups rfl
    have hcomments : (Slot.list .commentGroup).holds (Slot.list .commentGroup).admits
        (.list (r.groups.map (·.tree))) = true := by
      refine Slot.holds_list.mpr fun t ht => ?_
      obtain ⟨g, hg, rfl⟩ := List.mem_map.mp ht
      obtain ⟨ds, lastLine, -, -, rfl⟩ := r.groups_comments.exists_comments hg
      exact ⟨_, _, rfl, rfl⟩
    -- the list of all comments is the last field
    change ∀ x ∈ Kind.file.fields.zip r.code ++ [(_, _)], _
    exact List.forall_mem_append.mpr ⟨hfields, List.forall_mem_singleton.mpr hcomments⟩
  · rw [Tree.nodes_list, Tree.forall_nodesAll]
    intro t ht
    obtain ⟨g, hg, rfl⟩ := List.mem_map.mp ht
    exact r.groups_comments.fits g hg

/-- The trees of a fragment are the name of its package, its imports and the trees of its body. -/
theorem Fragment.trees_eq (f : Fragment) :
    f.trees = (f.package.map (·.2)).toList ++ (f.imports ++ f.body.trees) := by
  rw [trees, List.append_assoc]
  cases f.body <;> rfl

/-- The nodes of a fragment fit the schema. -/
theorem Fragment.Spelled.fits {d : Dialect} {cs : List Comment}
    {groups : List CommentGroup} {c : Cursor} {f : Fragment} (h : f.Spelled d groups c)
    (hgroups : CommentGroup.Groups cs groups) :
    ∀ t ∈ f.trees, ∀ n ∈ t.nodes, n.Fits := by
  have hlist {s : Phrase} {ws : List Word} {ts : List Tree} (h : Derives d s ws (.list ts))
      (hs : s.isBare = true) (hws : ∀ g, .doc g ∈ ws → g ∈ groups) :
      ∀ t ∈ ts, ∀ n ∈ t.nodes, n.Fits := by
    have hfits := h.fits hs (hgroups.docsAreComments hws)
    rw [Tree.nodes_list] at hfits
    exact Tree.forall_nodesAll.mp hfits
  rw [f.trees_eq, List.forall_mem_append, List.forall_mem_append]
  refine ⟨?_, ?_, ?_⟩
  · intro t ht
    obtain ⟨x, hx, rfl⟩ := Option.map_eq_some_iff.mp (Option.mem_toList.mp ht)
    obtain ⟨p, name, heq⟩ := h.package x hx
    rw [heq]
    refine List.forall_mem_singleton.mpr (.of_holds rfl ?_)
    exact List.forall_mem_cons.mpr ⟨rfl, List.forall_mem_singleton.mpr rfl⟩
  · obtain ⟨ws, hws, himports⟩ := h.imports
    exact hlist himports rfl hws
  · obtain ⟨_, _, -, hbody⟩ := h.body
    obtain ⟨s, ws, c', run, hs, hbody⟩ := hbody.exists_words
    exact hlist hbody (Phrase.isBare_of_isProper hs) fun g hg => run.mem_groups hg

/-- **What is read fits the schema**, whether a file or a fragment, but for the names of fields,
which need not be names. -/
theorem parse_fits (d : Dialect) (cs : List Char) :
    (∀ file, parseFile d cs = .ok file → ∀ n ∈ file.tree.nodes, n.Fits) ∧
      ∀ f, parseFragment d cs = .ok f → ∀ t ∈ f.trees, ∀ n ∈ t.nodes, n.Fits := by
  constructor
  · intro file h
    obtain ⟨r, rfl⟩ := exists_fileReading h
    exact r.fits
  · intro f h
    obtain ⟨scan, groups, -, hgroups, hspelled⟩ := exists_of_parseFragment h
    exact hspelled.fits hgroups

/-- A file and a pattern with names of their own, wildcards and a comment above a field. -/
theorem parse_fits_wildcards :
    (∃ file, parseFile .code "package p\ntype t struct \x7b\n// c\na, b *q.r\n\x7d".toList =
      .ok file ∧ ∀ n ∈ file.tree.nodes, n.Fits) ∧
    ∃ f, parseFragment .pattern "func f(a, b int, ...) \x7b\n...\n\x7d".toList = .ok f ∧
      ∀ t ∈ f.trees, ∀ n ∈ t.nodes, n.Fits := by
  obtain ⟨file, hfile⟩ := exists_of_isOk (show (parseFile .code
    "package p\ntype t struct \x7b\n// c\na, b *q.r\n\x7d".toList).isOk = true by decide +kernel)
  obtain ⟨f, hf⟩ := exists_of_isOk (show (parseFragment .pattern
    "func f(a, b int, ...) \x7b\n...\n\x7d".toList).isOk = true by decide +kernel)
  exact ⟨⟨file, hfile, (parse_fits _ _).1 file hfile⟩, f, hf, (parse_fits _ _).2 f hf⟩

/-- A parameter that is named by a pointer type does not conform to the schema. -/
theorem parseFile_pointer_name :
    ∃ file, parseFile .code "package p\n\nfunc f(*a int) \x7b\x7d\n".toList = .ok file ∧
      file.tree.conforms = false := by
  obtain ⟨file, hfile⟩ := exists_of_isOk (show (parseFile .code
    "package p\n\nfunc f(*a int) \x7b\x7d\n".toList).isOk = true by decide +kernel)
  have hconforms : ∀ file, parseFile .code "package p\n\nfunc f(*a int) \x7b\x7d\n".toList =
      .ok file →
      file.tree.conforms = false := by decide +kernel
  exact ⟨file, hfile, hconforms file hfile⟩

end Graft
