import Graft.Proofs.Recipe.Compiled
import Graft.Proofs.Recipe.Frame
import Mathlib.Data.List.Forall2

/-! # Recipes keep files well formed

Values reach the slots of a file from metavariables, runs, elided field lists, loop headers, rebuilt
containers, comments and edits of imports.  Whatever a compiled recipe puts where, the file that it
leaves conforms to the schema again, whether it finishes or stops with an error
(`Recipe.apply_isFile`).

A walk replaces the nodes of a tree one by one from the leaves up.  Each visit puts a conforming
node into the slot of the one before (`Visit.Keeps`), and that carries over to the whole walk
(`sweep_conforms`); the edits of a header are followed one by one (`Recipe.editsKeep_isFile`).
-/

namespace Graft

/-! ### Containers -/

/-- The category of the items of a level. -/
def Level.category : Level → Category
  | stmts => .stmt
  | decls => .decl

/-- The list of a container holds items of the level. -/
theorem Level.slot_of_field? {level : Level} {k : Kind} {l : Label} (h : level.field? k = some l) :
    (k.fields.find? (·.label == l)).map (·.slot) = some (.list level.category) := by
  unfold field? at h
  split at h
  all_goals first | (cases h; rfl) | cases h

theorem Node.get_set {n : Node} {l : Label} {f : Field} (h : n.tree.conforms = true)
    (hf : n.kind.fields.find? (·.label == l) = some f) (t : Tree) : (n.set l t).get l = t := by
  obtain ⟨hlength, -, -⟩ := Tree.conforms_node.mp h
  cases hi : n.kind.indexOf? l with
  | none =>
    have hno := List.findIdx?_eq_none_iff.mp hi f (List.mem_of_find?_eq_some hf)
    rw [List.find?_some hf] at hno
    cases hno
  | some i =>
    obtain ⟨f', -, hget⟩ := Kind.find?_of_indexOf? hi
    obtain ⟨hlt, -⟩ := List.getElem?_eq_some_iff.mp hget
    have hlt' : i < n.fields.length := by omega
    simp [get, set, hi, hlt']

namespace Recipe

variable {r : Recipe} {base c : Captures}

/-! ### Replacing -/

theorem matchWindow?_conform {n : Node} {level : Level} {l : Label} {offset : Nat}
    {pattern : Pattern} (hn : n.tree.conforms = true) (hl : level.field? n.kind = some l)
    (hbase : base.Conform) (h : matchWindow? n l offset pattern base = some c) : c.Conform := by
  obtain ⟨c₁, s, hmatch, rfl⟩ := exists_of_matchWindow? h
  have hitems := Node.conforms_list_items hn (Level.slot_of_field? hl)
  have hmatched : c₁.Conform := by
    refine Pattern.matchWith_conform pattern (Tree.conforms_list.mpr ?_) hbase hmatch
    exact fun t ht => (hitems t (List.mem_of_mem_drop ht)).1
  have hcontainer : (n.set l (.list ((n.list l).take offset))).tree.conforms = true :=
    Node.conforms_set_list hn (Level.slot_of_field? hl) fun t ht =>
    hitems t (List.mem_of_mem_take ht)
  have hbinding : (Binding.captured (n.set l (.list ((n.list l).take offset))) n.span).Conforms
      .container := ⟨hcontainer, nofun⟩
  exact (hmatched.bind hbinding).bind trivial

/-- A container that is filled up conforms if its list still fits. -/
theorem conforms_filled {n m : Node} {l : Label} {ts : List Tree} (hn : n.tree.conforms = true)
    (hts : ∀ t ∈ ts, t.conforms = true)
    (hm : m = match n.get l with
      | .list front => n.set l (.list (front ++ ts))
      | _ => n)
    (hfits : (m.kind.fields.find? (·.label == l)).all (fun f => f.slot.accepts (m.get l)) = true) :
    m.tree.conforms = true := by
  split at hm
  · rename_i front hfront
    have hget := Node.conforms_get (l := l) hn
    rw [hfront] at hget
    have hitems : ∀ t ∈ front ++ ts, t.conforms = true :=
      List.forall_mem_append.mpr ⟨Tree.conforms_list.mp hget, hts⟩
    rw [hm] at hfits ⊢
    refine Node.conforms_set hn (Tree.conforms_list.mpr hitems) ?_
    intro f hf
    rw [Node.kind_set, hf, Option.all_some, Node.get_set hn hf] at hfits
    exact hfits
  · rw [hm]
    exact hn

open Builder in
/-- **What a recipe builds from a conforming match conforms**; where it replaces an expression, it
is a node. -/
theorem build_conforms (hr : r.body.IsSound) (hc : c.Conform) {d d' : Draft} {v : Tree}
    (h : (r.build c).run d = .ok (v, d')) :
    v.conforms = true ∧ ∀ {p t}, r.body = .expr p t → ∃ n : Node, v = n.tree := by
  cases hbody : r.body with
  | none =>
    rw [build, hbody] at h
    cases h
    exact ⟨rfl, by rintro _ _ ⟨⟩⟩
  | expr pattern template =>
    rw [build, hbody] at h
    rw [hbody] at hr
    exact ⟨Template.build_conforms hc template hr.1 h,
      fun _ => Template.exists_node_of_build hc hr.2 h⟩
  | window level pattern template =>
    rw [hbody] at hr
    obtain ⟨n, l, built, m, hn, -, hbuilt, rfl, hm, hfits⟩ := exists_of_build hbody h
    obtain ⟨⟨container, span⟩, hcontainer, hnode⟩ := Option.bind_eq_some_iff.mp hn
    have hvalue : n.tree.conforms = true := by
      rw [Tree.tree_of_node? hnode]
      exact (hc.captured? hcontainer).1
    have hbuilt : built.conforms = true := Template.build_conforms hc template hr hbuilt
    refine ⟨conforms_filled hvalue ?_ hm hfits, by rintro _ _ ⟨⟩⟩
    split
    · exact Tree.conforms_list.mp hbuilt
    · exact List.forall_mem_singleton.mpr hbuilt

theorem replaceInto_conforms (hr : r.body.IsSound) (hc : c.Conform) {log log' : EditLog}
    {slot : Option Slot} {old : Option Node} {v : Tree}
    (h : r.replaceInto c log slot old = (.ok (some v), log')) :
    v.conforms = true ∧ (∀ s ∈ slot, s.accepts v = true) ∧
      ∀ {p t}, r.body = .expr p t → ∃ n : Node, v = n.tree := by
  obtain ⟨d, d', hbuilt, hfits⟩ := build_of_replaceInto h
  obtain ⟨hv, hnode⟩ := build_conforms hr hc hbuilt
  exact ⟨hv, hfits, hnode⟩

end Recipe

/-! ### Walks -/

/-- Whether a value may take the place of another in a slot: it conforms, fits where the other fits,
and is a node where the other is one. -/
def Tree.MayReplace (slot : Slot) (t t' : Tree) : Prop :=
  t'.conforms = true ∧ (slot.accepts t = true → slot.accepts t' = true) ∧
    ((∃ n : Node, t = n.tree) → ∃ n : Node, t' = n.tree)

theorem Tree.MayReplace.refl {slot : Slot} {t : Tree} (h : t.conforms = true) :
    Tree.MayReplace slot t t := ⟨h, id, id⟩

/-- Items that may take the place of the items of a list make a list that may take its place. -/
theorem Tree.MayReplace.list {slot : Slot} {ts ts' : List Tree}
    (h : List.Forall₂ (Tree.MayReplace slot.ofItem) ts ts') :
    Tree.MayReplace slot (.list ts) (.list ts') := by
  have hconforms : ∀ t ∈ ts', t.conforms = true := by
    induction h with
    | nil => nofun
    | cons ht _ ih => exact List.forall_mem_cons.mpr ⟨ht.1, ih⟩
  refine ⟨Tree.conforms_list.mpr hconforms, ?_, by rintro ⟨n, hn⟩; cases hn⟩
  intro haccepts
  cases slot with
  | list c =>
    rw [Slot.accepts_list] at haccepts ⊢
    clear hconforms
    induction h with
    | nil => nofun
    | @cons t t' ts ts' ht _ ih =>
      obtain ⟨⟨n, hn, hkind⟩, hts⟩ := List.forall_mem_cons.mp haccepts
      refine List.forall_mem_cons.mpr ⟨?_, ih hts⟩
      obtain ⟨n', hn'⟩ := ht.2.2 ⟨n, hn⟩
      have hfits : (Slot.node c).accepts t' = true := ht.2.1 (by rw [hn]; exact hkind)
      rw [hn'] at hfits
      exact ⟨n', hn', hfits⟩
  | _ => cases haccepts

/-- Whether a visit puts something in place of a node that may stand there. -/
def Visit.Keeps (visit : Visit) : Prop :=
  ∀ slot pass, ∀ n : Node, n.tree.conforms = true →
    Tree.MayReplace slot n.tree (visit slot n.tree pass).1

section Sweep

variable {visit : Visit}

mutual

/-- **A walk whose visits keep a tree well formed keeps it well formed.** -/
theorem sweep_conforms (hv : visit.Keeps) (slot : Slot) (t : Tree) (pass : Pass)
    (h : t.conforms = true) : Tree.MayReplace slot t (sweep visit slot t pass).1 := by
  match t with
  | .list ts =>
    rw [sweep]
    exact .list (sweepItems_conforms hv slot.ofItem ts pass (Tree.conforms_list.mp h))
  | .node k fs =>
    rw [sweep]
    split
    · exact .refl h
    · obtain ⟨hlength, hslots, hfields⟩ := Tree.conforms_node.mp h
      have hswept := sweepFields_conforms hv k.fields fs pass hlength hslots hfields
      have hvisit := hv slot (sweepFields visit k.fields fs pass).2
        ⟨k, (sweepFields visit k.fields fs pass).1⟩ (Tree.conforms_node.mpr hswept)
      refine ⟨hvisit.1, fun haccepts => hvisit.2.1 ?_, fun _ => hvisit.2.2 ⟨_, rfl⟩⟩
      rw [Node.tree, Slot.accepts_node slot k _ fs]
      exact haccepts
  | .nil | .pos _ | .str _ | .tok _ => exact .refl h

theorem sweepItems_conforms (hv : visit.Keeps) (slot : Slot) (ts : List Tree) (pass : Pass)
    (h : ∀ t ∈ ts, t.conforms = true) :
    List.Forall₂ (Tree.MayReplace slot) ts (sweepItems visit slot ts pass).1 := by
  match ts with
  | [] => exact .nil
  | t :: ts =>
    obtain ⟨ht, hts⟩ := List.forall_mem_cons.mp h
    rw [sweepItems]
    exact .cons (sweep_conforms hv slot t pass ht) (sweepItems_conforms hv slot ts _ hts)

theorem sweepFields_conforms (hv : visit.Keeps) (fs : List Field) (ts : List Tree) (pass : Pass)
    (hlength : ts.length = fs.length) (hslots : ∀ x ∈ fs.zip ts, x.1.slot.accepts x.2 = true)
    (h : ∀ t ∈ ts, t.conforms = true) :
    (sweepFields visit fs ts pass).1.length = fs.length ∧
      (∀ x ∈ fs.zip (sweepFields visit fs ts pass).1, x.1.slot.accepts x.2 = true) ∧
      ∀ t ∈ (sweepFields visit fs ts pass).1, t.conforms = true := by
  match fs, ts with
  | [], [] =>
    exact ⟨rfl, hslots, h⟩
  | f :: fs, t :: ts =>
    obtain ⟨ht, hts⟩ := List.forall_mem_cons.mp h
    obtain ⟨hslot, hslots⟩ := List.forall_mem_cons.mp hslots
    rw [sweepFields]
    obtain ⟨t', pass', hfirst, ht'⟩ : ∃ t' pass',
        (if f.slot.holdsCode = true then sweep visit f.slot t pass else (t, pass)) = (t', pass') ∧
          Tree.MayReplace f.slot t t' := by
      split
      · exact ⟨_, _, rfl, sweep_conforms hv f.slot t pass ht⟩
      · exact ⟨_, _, rfl, .refl ht⟩
    rw [hfirst]
    obtain ⟨hlength', hslots', hconforms'⟩ :=
      sweepFields_conforms hv fs ts pass' (Nat.succ.inj hlength) hslots hts
    refine ⟨by simpa using hlength', ?_, List.forall_mem_cons.mpr ⟨ht'.1, hconforms'⟩⟩
    exact List.forall_mem_cons.mpr ⟨ht'.2.1 hslot, hslots'⟩

end

end Sweep

namespace Recipe

variable {r : Recipe} {base c : Captures} {file : Node}

theorem visitExpr_keeps {pattern : Pattern} {template : Template}
    (hbody : r.body = .expr pattern template) (hr : r.body.IsSound) (hbase : base.Conform) :
    (r.visitExpr pattern base).Keeps := by
  intro slot pass n hn
  unfold visitExpr
  split
  · exact .refl hn
  · split
    · exact .refl hn
    · rename_i c₁ hmatch
      have hc : (c₁.bind .site (.span n.tree.span)).visible.Conform := by
        refine Captures.Conform.visible (Captures.Conform.bind ?_ trivial)
        exact Pattern.matchWith_conform pattern hn hbase hmatch
      dsimp only
      split
      · rename_i new log hnew
        obtain ⟨hconforms, hfits, hnode⟩ := replaceInto_conforms hr hc hnew
        exact ⟨hconforms, fun _ => hfits slot rfl, fun _ => hnode hbody⟩
      · exact .refl hn
      · exact .refl hn

section Window

variable {level : Level} {pattern : Pattern} {template : Template}
  (hbody : r.body = .window level pattern template) (hr : r.body.IsSound) (hbase : base.Conform)
include hbody hr hbase

/-- Every round leaves a conforming container of the same kind. -/
theorem rewindow_conforms {l : Label} {n : Node} (hl : level.field? n.kind = some l)
    (hn : n.tree.conforms = true) (rounds offset : Nat) (pass : Pass) :
    (r.rewindow l pattern base rounds offset n pass).1.tree.conforms = true ∧
      (r.rewindow l pattern base rounds offset n pass).1.kind = n.kind := by
  induction rounds generalizing offset n pass with
  | zero => exact ⟨hn, rfl⟩
  | succ rounds ih =>
    rw [rewindow]
    dsimp only
    split
    · exact ⟨hn, rfl⟩
    · split
      · exact ⟨hn, rfl⟩
      · rename_i c₁ hmatch
        have hc : c₁.visible.Conform := (matchWindow?_conform hn hl hbase hmatch).visible
        split
        · rename_i k fs log hnew
          obtain ⟨hconforms, -, -⟩ := replaceInto_conforms hr hc hnew
          obtain ⟨ts, hnode⟩ := node_of_replaceInto hbody hl hmatch hnew
          have hkind : k = n.kind := by
            rw [show k = (n.set l (.list ts)).kind from congrArg Node.kind hnode, Node.kind_set]
          split
          · exact ⟨hconforms, hkind⟩
          · obtain ⟨hlater, hkind'⟩ := ih (n := ⟨k, fs⟩) (by rw [hkind]; exact hl) hconforms _ _
            exact ⟨hlater, hkind'.trans hkind⟩
        · exact ⟨hn, rfl⟩
        · exact ih hl hn _ _
        · split
          · exact ⟨hn, rfl⟩
          · exact ih hl hn _ _

theorem visitContainer_conforms (slot : Slot) {n : Node} (hn : n.tree.conforms = true)
    (pass : Pass) :
    ∃ n' : Node, (r.visitContainer level pattern base slot n pass).1 = n' ∧
      n'.tree.conforms = true ∧ n'.kind = n.kind := by
  unfold visitContainer
  rw [show n.tree.node? = some n from rfl]
  dsimp only
  split
  · exact ⟨n, rfl, hn, rfl⟩
  · split
    · exact ⟨n, rfl, hn, rfl⟩
    · rename_i l hl
      exact ⟨_, rfl, rewindow_conforms hbody hr hbase hl hn _ _ _⟩

theorem visitContainer_keeps : (r.visitContainer level pattern base).Keeps := by
  intro slot pass n hn
  obtain ⟨n', hn', hconforms, hkind⟩ := visitContainer_conforms hbody hr hbase slot hn pass
  rw [hn']
  refine ⟨hconforms, fun haccepts => ?_, fun _ => ⟨n', rfl⟩⟩
  rw [Node.tree, hkind, Slot.accepts_node slot n.kind _ n.fields]
  exact haccepts

end Window

end Recipe

/-! ### Files -/

/-- Whether a node is a file that conforms to the schema. -/
def Node.IsFile (n : Node) : Prop := n.kind = .file ∧ n.tree.conforms = true

namespace Node.IsFile

variable {file : Node}

theorem slot_decls (h : file.IsFile) :
    (file.kind.fields.find? (·.label == .decls)).map (·.slot) = some (.list .decl) := by
  rw [h.1]
  rfl

theorem set_name (h : file.IsFile) (p : Pos) (name : String) :
    (file.set .name (.ident p name)).IsFile := by
  refine ⟨by rw [kind_set, h.1], conforms_set h.2 (Tree.conforms_ident p name) ?_⟩
  intro f hf
  rw [h.1] at hf
  cases hf
  rfl

theorem mapDecls? (h : file.IsFile) {f : List Tree → List Tree} {file' : Node}
    (hf : ∀ ds, (∀ d ∈ ds, d.FitsIn .decl) → ∀ d ∈ f ds, d.FitsIn .decl)
    (hmap : file.mapDecls? f = some file') : file'.IsFile := by
  unfold Node.mapDecls? at hmap
  split at hmap
  · rename_i ds hds
    cases hmap
    refine ⟨by rw [kind_set, h.1], conforms_set_list h.2 h.slot_decls (hf ds ?_)⟩
    have hdecls := conforms_list_items h.2 h.slot_decls
    rwa [Node.list, hds] at hdecls
  · cases hmap

end Node.IsFile

/-! ### Imports -/

/-- Specifications stand in one kind of list only. -/
theorem Kind.slot_specs {k : Kind} {f : Field} (h : k.fields.find? (·.label == .specs) = some f) :
    f.slot = .list .spec := by
  cases k <;> first | (cases h; rfl) | cases h

/-- The name of a specification is an identifier. -/
theorem Kind.slot_name_of_spec {k : Kind} {f : Field} (hk : k.isA .spec = true)
    (h : k.fields.find? (·.label == .name) = some f) : f.slot = .node .ident := by
  cases k <;> first | (cases h; rfl) | (cases h; done) | cases hk

theorem Tree.FitsIn.mapSpecs {decl : Tree} (h : decl.FitsIn .decl) {f : List Tree → List Tree}
    (hf : ∀ ss, (∀ s ∈ ss, s.FitsIn .spec) → ∀ s ∈ f ss, s.FitsIn .spec) :
    (decl.mapSpecs f).FitsIn .decl := by
  obtain ⟨hconforms, n, rfl, hkind⟩ := h
  unfold Tree.mapSpecs
  rw [show n.tree.node? = some n from rfl]
  dsimp only
  split
  · rename_i ss hss
    have hslot : (n.kind.fields.find? (·.label == .specs)).map (·.slot) = some (.list .spec) := by
      cases hfind : n.kind.fields.find? (·.label == .specs) with
      | none =>
        have hindex : n.kind.indexOf? .specs = none := by
          rw [Kind.indexOf?, List.findIdx?_eq_none_iff]
          simpa using hfind
        rw [Node.get, hindex] at hss
        cases hss
      | some f => exact congrArg some (Kind.slot_specs hfind)
    have hspecs := Node.conforms_list_items hconforms hslot
    rw [Node.list, hss] at hspecs
    refine ⟨Node.conforms_set_list hconforms hslot (hf ss hspecs), _, rfl, ?_⟩
    rw [Node.kind_set]
    exact hkind
  · exact ⟨hconforms, n, rfl, hkind⟩

theorem conforms_aliasTree (name : Option String) : (aliasTree name).conforms = true := by
  cases name <;> rfl

theorem fitsIn_importSpecTree (path : String) (name : Option String) :
    (importSpecTree path name).FitsIn .spec := by
  refine ⟨?_, ⟨.importSpec, _⟩, rfl, rfl⟩
  cases name <;> rfl

/-- Changing one item of a list in place keeps what holds of all of them. -/
theorem forall_mem_modify {α : Type} {P : α → Prop} {f : α → α} (hf : ∀ a, P a → P (f a)) (i : Nat)
    {l : List α} (h : ∀ a ∈ l, P a) : ∀ a ∈ l.modify i f, P a := by
  intro a ha
  obtain ⟨j, hj⟩ := List.mem_iff_getElem?.mp ha
  rw [List.getElem?_modify] at hj
  split at hj
  · obtain ⟨b, hb, rfl⟩ := Option.map_eq_some_iff.mp hj
    exact hf b (h b (List.mem_of_getElem? hb))
  · exact h a (List.mem_of_getElem? (by simpa using hj))

namespace Node.IsFile

variable {file : Node}

theorem removeImport? (h : file.IsFile) {path : String} {e : FileEdit}
    (he : removeImport? file path = some e) : e.file.IsFile := by
  unfold Graft.removeImport? at he
  obtain ⟨target, -, he⟩ := Option.bind_eq_some_iff.mp he
  obtain ⟨decl, hdecl, he⟩ := Option.bind_eq_some_iff.mp he
  dsimp only at he
  split at he
  · obtain ⟨file', hfile', he⟩ := Option.bind_eq_some_iff.mp he
    cases he
    exact h.mapDecls? (fun ds hds d hd => hds d (List.mem_of_mem_eraseIdx hd)) hfile'
  · obtain ⟨file', hfile', he⟩ := Option.bind_eq_some_iff.mp he
    cases he
    have hfits : decl.FitsIn .decl :=
      conforms_list_items h.2 h.slot_decls decl (List.mem_of_getElem? hdecl)
    have hrest : (decl.mapSpecs (·.eraseIdx target.spec)).FitsIn .decl :=
      hfits.mapSpecs fun ss hss s hs => hss s (List.mem_of_mem_eraseIdx hs)
    refine h.mapDecls? (fun ds hds d hd => ?_) hfile'
    rcases List.mem_or_eq_of_mem_set hd with hd | rfl
    · exact hds d hd
    · exact hrest

theorem renameImport? (h : file.IsFile) {path : String} {name : Option String} {e : FileEdit}
    (he : renameImport? file path name = some e) : e.file.IsFile := by
  unfold Graft.renameImport? at he
  obtain ⟨target, -, he⟩ := Option.bind_eq_some_iff.mp he
  split at he
  · cases he
  · obtain ⟨file', hfile', he⟩ := Option.bind_eq_some_iff.mp he
    cases he
    refine h.mapDecls? (fun ds hds => forall_mem_modify (fun d hd => ?_) _ hds) hfile'
    refine hd.mapSpecs fun ss hss => forall_mem_modify (fun s hs => ?_) _ hss
    obtain ⟨hconforms, n, rfl, hkind⟩ := hs
    rw [show n.tree.node? = some n from rfl]
    refine ⟨conforms_set hconforms (conforms_aliasTree name) ?_, _, rfl, ?_⟩
    · intro f hf
      rw [Kind.slot_name_of_spec hkind hf]
      cases name <;> rfl
    · rw [kind_set]
      exact hkind

theorem addImport (h : file.IsFile) (path : String) (name : Option String) :
    (addImport file path name).file.IsFile := by
  have hspec := fitsIn_importSpecTree path name
  unfold Graft.addImport
  dsimp only
  split
  · split
    · rename_i file' hfile'
      refine h.mapDecls? (fun ds hds => forall_mem_modify (fun d hd => ?_) _ hds) hfile'
      refine hd.mapSpecs fun ss hss s hs => ?_
      rcases List.mem_append.mp hs with hs | hs
      · exact hss s ((List.takeWhile_sublist _).subset hs)
      · rcases List.mem_cons.mp hs with rfl | hs
        · exact hspec
        · exact hss s (List.mem_of_mem_drop hs)
    · exact h
  · split
    · rename_i file' hfile'
      refine h.mapDecls? (fun ds hds => List.forall_mem_cons.mpr ⟨?_, hds⟩) hfile'
      refine ⟨?_, ⟨.genDecl, _⟩, rfl, rfl⟩
      cases name <;> rfl
    · exact h

end Node.IsFile

theorem Recipe.editsKeep_isFile : EditsKeep Node.IsFile where
  remove h he := h.removeImport? he
  rename h he := h.renameImport? he
  add path name h := h.addImport path name
  package p name h := h.set_name p name

/-! ### Recipes -/

namespace Recipe

variable {r : Recipe} {base c : Captures} {file : Node}

/-- What every match in a file starts from is made by binding names of imports. -/
theorem matchHeader?_keeps {P : Captures → Prop} (hempty : P .empty)
    (hmetavar : ∀ {c name p s}, P c →
      P (c.bind (.metavar name) (.metavar (.ident p s) (Tree.ident p s).span)))
    (himport : ∀ {c path s}, P c → P (c.bind (.importName path) (.name s)))
    (h : r.matchHeader? file = some base) : P base := by
  have hstep {imports : List FileImport} {c c' : Captures} {clause : ImportClause} (hc : P c)
      (h : matchImport? imports c clause = some c') : P c' := by
    unfold matchImport? at h
    obtain ⟨found, -, h⟩ := Option.bind_eq_some_iff.mp h
    extract_lets name jp at h
    have hsame {q : Prop} [Decidable q]
        (h : (if q then do let c ← some c; jp c else do let c ← none; jp c) = some c') : P c' := by
      split at h
      · cases h
        exact himport hc
      · cases h
    split at h
    · exact hsame h
    · exact hsame h
    · split at h
      · exact hsame h
      · cases h
        exact himport (hmetavar hc)
  have hfold {imports : List FileImport} {clauses : List ImportClause} {c c' : Captures}
      (hc : P c) (h : clauses.foldlM (matchImport? imports) c = some c') : P c' := by
    induction clauses generalizing c with
    | nil =>
      cases h
      exact hc
    | cons clause clauses ih =>
      rw [List.foldlM_cons] at h
      obtain ⟨c₁, h₁, h⟩ := Option.bind_eq_some_iff.mp h
      exact ih (hstep hc h₁) h
  unfold matchHeader? at h
  extract_lets jp at h
  split at h
  · obtain ⟨u, -, h⟩ := Option.bind_eq_some_iff.mp h
    exact hfold hempty h
  · exact hfold hempty h

/-- What every match in a file starts from conforms. -/
theorem matchHeader?_conform (h : r.matchHeader? file = some base) : base.Conform :=
  matchHeader?_keeps Captures.conform_empty (fun hc => hc.bind ⟨rfl, ⟨.ident, _⟩, rfl⟩)
    (fun hc => hc.bind trivial) h

theorem walkFile_isFile (hr : r.body.IsSound) (hbase : base.Conform) (h : file.IsFile)
    (log : EditLog) : (r.walkFile base file log).1.IsFile := by
  obtain ⟨hlength, hslots, hfields⟩ := Tree.conforms_node.mp h.2
  unfold walkFile
  dsimp only
  split
  · exact h
  · rename_i pattern template hbody
    exact ⟨h.1, Tree.conforms_node.mpr (sweepFields_conforms (visitExpr_keeps hbody hr hbase) _ _ _
      hlength hslots hfields)⟩
  · rename_i level pattern template hbody
    have hkeeps := visitContainer_keeps hbody hr hbase
    have hswept := sweepFields_conforms hkeeps file.kind.fields file.fields ⟨log, 0, none, none⟩
      hlength hslots hfields
    -- the file itself is visited last
    rw [Node.tree, sweep, if_neg (by simp [Node.isImportDecl, h.1])]
    obtain ⟨n', hn', hconforms, hkind⟩ := visitContainer_conforms hbody hr hbase (.node .file)
      (n := ⟨file.kind, _⟩) (Tree.conforms_node.mpr hswept)
      (sweepFields (r.visitContainer level pattern base) file.kind.fields file.fields
        ⟨log, 0, none, none⟩).2
    dsimp only
    rw [Node.tree] at hn'
    rw [hn']
    exact ⟨hkind.trans h.1, hconforms⟩

/-- **A compiled recipe leaves a conforming file**, whether it finishes or stops with an error. -/
theorem apply_isFile (hr : r.body.IsSound) (h : file.IsFile) (log : EditLog) (opts : Options) :
    (r.apply file log opts).file.IsFile :=
  editsKeep_isFile.apply h (fun _ hbase => walkFile_isFile hr (matchHeader?_conform hbase) h log)
    opts

/-! ### Several recipes -/

theorem step_isFile {opts : Options} {s s' : Session} (hr : r.body.IsSound) (h : s.file.IsFile)
    (hs : Session.step opts s r = .ok s') : s'.file.IsFile := by
  have happly : (r.apply s.file .empty opts).file.IsFile := apply_isFile hr h _ _
  unfold Session.step at hs
  dsimp only at hs
  split at hs
  · cases hs
  · split at hs
    · cases hs
      exact happly
    · cases hs
      exact happly

theorem foldlM_isFile {rs : List Recipe} {opts : Options} {s s' : Session}
    (hrs : ∀ r ∈ rs, r.body.IsSound) (h : s.file.IsFile)
    (hs : rs.foldlM (Session.step opts) s = .ok s') : s'.file.IsFile := by
  induction rs generalizing s with
  | nil =>
    cases hs
    exact h
  | cons r rs ih =>
    obtain ⟨hr, hrs⟩ := List.forall_mem_cons.mp hrs
    rw [List.foldlM_cons] at hs
    obtain ⟨s₁, h₁, hs⟩ := exists_of_bind_ok hs
    exact ih hrs (step_isFile hr h h₁) hs

theorem result_of_step_error {opts : Options} {s : Session} {e : BuildError}
    (h : Session.step opts s r = .error e) : (r.apply s.file .empty opts).result = .error e := by
  unfold Session.step at h
  dsimp only at h
  split at h
  · rename_i e' he'
    cases h
    exact he'
  · split at h
    · cases h
    · cases h

/-- **Compiled recipes keep a file well formed.**  However many are applied, the file they leave
conforms to the schema and is a file: when all of them succeed, and also when one of them stops with
an error, where the file is left as that recipe leaves it. -/
theorem applyAll_leaves_conforming {rs : List Recipe}
    (hrs : ∀ r ∈ rs, ∃ text, ∃ p ∈ (PatchFile.read text).patches, p.compile = .ok r)
    {file : Node} (hkind : file.kind = .file) (hfile : file.tree.conforms = true)
    (lines : LineTable) (opts : Options) :
    (∀ s, applyAll rs file lines opts = .ok s →
      s.file.kind = .file ∧ s.file.tree.conforms = true) ∧
    ∀ e, applyAll rs file lines opts = .error e →
      ∃ front r back s, rs = front ++ r :: back ∧ applyAll front file lines opts = .ok s ∧
        (r.apply s.file .empty opts).result = .error e ∧
        (r.apply s.file .empty opts).file.kind = .file ∧
        (r.apply s.file .empty opts).file.tree.conforms = true := by
  have hsound : ∀ r ∈ rs, r.body.IsSound := by
    intro r hr
    obtain ⟨text, p, hp, hcompile⟩ := hrs r hr
    exact Patch.isSound_of_compile hp hcompile
  have hstart : file.IsFile := ⟨hkind, hfile⟩
  constructor
  · intro s hs
    exact foldlM_isFile hsound hstart hs
  · intro e he
    obtain ⟨front, r, back, s, rfl, hfront, hfail⟩ := exists_of_foldlM_error he
    obtain ⟨hsound₁, hsound₂⟩ := List.forall_mem_append.mp hsound
    have hs : s.file.IsFile := foldlM_isFile hsound₁ hstart hfront
    refine ⟨front, r, back, s, rfl, hfront, result_of_step_error hfail, ?_⟩
    exact apply_isFile (hsound₂ r List.mem_cons_self) hs .empty opts

theorem exists_patch_of_mem {text : List Char} {rs : List Recipe}
    (h : compilePatchFile text = .ok rs) (hr : r ∈ rs) :
    ∃ p ∈ (PatchFile.read text).patches, p.compile = .ok r := by
  unfold compilePatchFile at h
  dsimp only at h
  split at h
  · cases h
    obtain ⟨compiled, hcompiled, hsome⟩ := List.mem_filterMap.mp hr
    obtain ⟨p, hp, rfl⟩ := List.mem_map.mp hcompiled
    split at hsome
    · rename_i hok
      cases hsome
      exact ⟨p, hp, hok⟩
    · cases hsome
  · cases h

/-- Here the first patch puts a call with a captured argument under a captured loop header, and the
second one has a wildcard without a counterpart, so it fails on what the first has built. -/
theorem applyAll_leaves_conforming_loop :
    ∃ r r' file s e,
      compilePatchFile ("@@\nvar f expression\n@@\n-for ... \x7b\n-\tf(x)\n-\x7d\n" ++
        "+for ... \x7b\n+\tq(f)\n+\x7d\n@@\n@@\n-q(y)\n+g(...)\n").toList = .ok [r, r'] ∧
      parseFile .code
        "package p\n\nfunc h() \x7b\n\tfor i := range s \x7b\n\t\ty(x)\n\t\x7d\n\x7d\n".toList =
        .ok file ∧
      file.kind = .file ∧ file.tree.conforms = true ∧
      applyAll [r] file ⟨[]⟩ .default = .ok s ∧ s.file.kind = .file ∧ s.file.tree.conforms = true ∧
      applyAll [r, r'] file ⟨[]⟩ .default = .error e ∧
      ∃ front q back s', [r, r'] = front ++ q :: back ∧
        applyAll front file ⟨[]⟩ .default = .ok s' ∧
        (q.apply s'.file .empty .default).result = .error e ∧
        (q.apply s'.file .empty .default).file.kind = .file ∧
        (q.apply s'.file .empty .default).file.tree.conforms = true := by
  have hpasses : passesBoth ("@@\nvar f expression\n@@\n-for ... \x7b\n-\tf(x)\n-\x7d\n" ++
        "+for ... \x7b\n+\tq(f)\n+\x7d\n@@\n@@\n-q(y)\n+g(...)\n")
      "package p\n\nfunc h() \x7b\n\tfor i := range s \x7b\n\t\ty(x)\n\t\x7d\n\x7d\n"
        (fun r r' file =>
        decide (file.kind = .file) && file.tree.conforms &&
          (applyAll [r] file ⟨[]⟩ .default).isOk &&
          !(applyAll [r, r'] file ⟨[]⟩ .default).isOk) = true := by
    decide +kernel
  obtain ⟨r, r', file, hcompile, hfile, hruns⟩ := exists_of_passesBoth hpasses
  simp only [Bool.and_eq_true, decide_eq_true_eq, Bool.not_eq_true'] at hruns
  obtain ⟨⟨⟨hkind, hconforms⟩, hok⟩, hfails⟩ := hruns
  obtain ⟨s, hs⟩ := exists_of_isOk hok
  have hfirst := applyAll_leaves_conforming
    (fun q (hq : q ∈ [r]) => ⟨_, exists_patch_of_mem hcompile (by simp_all)⟩)
    hkind hconforms ⟨[]⟩ .default
  have hboth := applyAll_leaves_conforming
    (fun q (hq : q ∈ [r, r']) => ⟨_, exists_patch_of_mem hcompile hq⟩)
    hkind hconforms ⟨[]⟩ .default
  cases he : applyAll [r, r'] file ⟨[]⟩ .default with
  | ok s' =>
    rw [he] at hfails
    cases hfails
  | error e =>
    obtain ⟨hkind', hconforms'⟩ := hfirst.1 s hs
    exact ⟨r, r', file, s, e, hcompile, hfile, hkind, hconforms, hs, hkind', hconforms', he,
      hboth.2 e he⟩

end Recipe

end Graft
