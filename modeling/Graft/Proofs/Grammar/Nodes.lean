import Graft.Proofs.Grammar.Schema
import Mathlib.Algebra.GroupWithZero.Nat

/-! # The nodes of a tree that was read

Every node of a tree that was read is a name, a literal, a wildcard, a parameter, part of a comment,
or comes from a row of the grammar (`Derives.forall_nodes`).  So what is to be shown of all nodes is
a check of the rows.  One such fact is that no node lacks a field (`Derives.full`): the parts of a
row stand for as many fields as the schema lists for its kind.
-/

namespace Graft

namespace Tree

theorem mem_nodesAll {n : Node} {ts : List Tree} : n ∈ nodesAll ts ↔ ∃ t ∈ ts, n ∈ t.nodes := by
  induction ts with
  | nil => simp [nodesAll]
  | cons t ts ih => simp [nodesAll, ih]

theorem nodes_list (ts : List Tree) : (list ts).nodes = nodesAll ts := by rw [nodes]

theorem nodes_node (k : Kind) (fs : List Tree) : (node k fs).nodes = ⟨k, fs⟩ :: nodesAll fs := by
  rw [nodes]

variable {P : Node → Prop} {ts : List Tree}

theorem forall_nodesAll : (∀ n ∈ nodesAll ts, P n) ↔ ∀ t ∈ ts, ∀ n ∈ t.nodes, P n := by
  simp only [mem_nodesAll]
  constructor
  · intro h t ht n hn
    exact h n ⟨t, ht, hn⟩
  · rintro h n ⟨t, ht, hn⟩
    exact h t ht n hn

/-- The nodes of a parameter are the field itself and the nodes of its names and of its type. -/
theorem forall_nodes_field {names : List Tree} {type : Tree} :
    (∀ n ∈ (Rules.plainField names type).nodes, P n) ↔ P ⟨.field, [nil, list names, type, nil]⟩ ∧
      (∀ x ∈ names, ∀ n ∈ x.nodes, P n) ∧ ∀ n ∈ type.nodes, P n := by
  rw [Rules.plainField, nodes_node, List.forall_mem_cons, forall_nodesAll]
  simp only [List.forall_mem_cons, nodes_list, forall_nodesAll]
  simp [nodes]

end Tree

/-! ### Rows -/

/-- Whether a part is a phrase of trees, or its fields for which no word stands are empty. -/
def Part.isBare : Part → Bool
  | .sub s => s.isProper
  | .const t => t.nodes.isEmpty && t.positions.isEmpty && t.items.isEmpty
  | _ => true

theorem Part.isBare_const {t : Tree} (h : (Part.const t).isBare = true) :
    t.nodes = [] ∧ t.positions = [] ∧ t.items = [] := by
  simpa [isBare, and_assoc] using h

/-- Whether a sort of phrase is made of sorts of trees, or is a stretch of fields of such sorts and
of empty fields. -/
def Phrase.isBare : Phrase → Bool
  | .parts ps => ps.all Part.isBare
  | s => s.isProper

theorem Phrase.isBare_of_isProper {s : Phrase} (h : s.isProper = true) : s.isBare = true := by
  cases s with
  | parts ps => cases h
  | _ => exact h

theorem Row.isBare {s : Phrase} {k : Kind} {ps : List Part} (h : Row s k ps)
    (hs : s.isBare = true) :
    (Phrase.parts ps).isBare = true := by
  cases h with
  | members s => simpa [Phrase.isBare, Part.isBare, Phrase.isProper] using hs
  | _ => rfl

theorem Covers.isBare {s s' : Phrase} (h : Covers s s') (hs : s.isBare = true) :
    s'.isBare = true := by
  cases h <;> first | rfl | exact Phrase.isBare_of_isProper hs

/-- The number of fields that a part stands for. -/
def Part.arity : Part → Nat
  | .word _ | .lineEnd => 0
  | .mark _ | .sub _ | .const _ | .params => 1
  | .markIn _ | .unmarked | .args | .targets => 2

/-- **A row stands for as many fields as its kind has.** -/
theorem Row.arity {s : Phrase} {k : Kind} {ps : List Part} (h : Row s k ps) :
    (ps.map Part.arity).sum = k.fields.length := by
  cases h <;> rfl

/-! ### Derivations -/

namespace Derives

variable {d : Dialect} {s : Phrase} {ws : List Word} {t : Tree}

/-- **What holds of the nodes of every row, and of the few nodes besides, holds of every node of a
tree that was read**, where `Q` is what is known of its words and of any of them. -/
theorem forall_nodes_of_sublists {P : Node → Prop} {Q : List Word → Prop}
    (hsub : ∀ {vs ws}, vs.Sublist ws → Q ws → Q vs)
    (hident : ∀ {l}, l.token = .ident → Q [.lexeme l] → P ⟨.ident, [.pos l.pos, .str l.text]⟩)
    (hperiod : ∀ {l}, l.token = .period → Q [.lexeme l] → P ⟨.ident, [.pos l.pos, .str "."]⟩)
    (hliteral : ∀ {l}, l.token.isLiteral = true → Q [.lexeme l] →
      P ⟨.basicLit, [.pos l.pos, .tok l.token, .str l.text]⟩)
    (hdots : ∀ {l}, d = .pattern → l.token = .ellipsis → Q [.lexeme l] → P ⟨.dots, [.pos l.pos]⟩)
    (hfield : ∀ {ws es fs}, Derives d (.trailing .entry) ws (.list (es.map (·.field))) →
      Q ws → Rules.fieldsOfEntries es = .ok fs →
      ∀ {names type}, Rules.plainField names type ∈ fs →
      P ⟨.field, [.nil, .list names, type, .nil]⟩)
    (hrow : ∀ {s k ps ws ts}, Row s k ps → Derives d (.parts ps) ws (.list ts) →
      (Phrase.parts ps).isBare = true → Q ws → P ⟨k, ts⟩)
    (hdoc : ∀ {g}, Q [.doc g] → ∀ n ∈ g.tree.nodes, P n)
    (h : Derives d s ws t) (hs : s.isBare = true) (hws : Q ws) : ∀ n ∈ t.nodes, P n := by
  have hleaf {k : Kind} {fs : List Tree} (hk : P ⟨k, fs⟩) (hfs : Tree.nodesAll fs = []) :
      ∀ n ∈ (Tree.node k fs).nodes, P n := by
    rw [Tree.nodes_node, hfs]
    exact List.forall_mem_singleton.mpr hk
  have hlist {ts : List Tree} (hts : ∀ t ∈ ts, ∀ n ∈ t.nodes, P n) :
      ∀ n ∈ (Tree.list ts).nodes, P n := by
    rw [Tree.nodes_list]
    exact Tree.forall_nodesAll.mpr hts
  have hitems {ts : List Tree} (hts : ∀ n ∈ (Tree.list ts).nodes, P n) :
      ∀ t ∈ ts, ∀ n ∈ t.nodes, P n := by
    rw [Tree.nodes_list] at hts
    exact Tree.forall_nodesAll.mp hts
  -- one item more, or the fields of one part more
  have happend {u ts : List Tree} (hu : ∀ n ∈ (Tree.list u).nodes, P n)
      (hts : ∀ n ∈ (Tree.list ts).nodes, P n) : ∀ n ∈ (Tree.list (u ++ ts)).nodes, P n :=
    hlist (List.forall_mem_append.mpr ⟨hitems hu, hitems hts⟩)
  have hone {t : Tree} (ht : ∀ n ∈ t.nodes, P n) : ∀ n ∈ (Tree.list [t]).nodes, P n :=
    hlist (List.forall_mem_singleton.mpr ht)
  induction h with
  | ident hl => exact hleaf (hident hl hws) rfl
  | period hl => exact hleaf (hperiod hl hws) rfl
  | literal hl => exact hleaf (hliteral hl hws) rfl
  | dots hd hl => exact hleaf (hdots hd hl hws) rfl
  | noDoc | none | empty | endedNil | linesNil | partsNil => nofun
  | doc g => exact hdoc hws
  | cover hc _ ih => exact ih (hc.isBare hs) hws
  | node hr hp ih =>
    have hfields := ih (hr.isBare hs) hws
    rw [Tree.nodes_node]
    rw [Tree.nodes_list] at hfields
    exact List.forall_mem_cons.mpr ⟨hrow hr hp (hr.isBare hs) hws, hfields⟩
  | behind _ _ ih => exact ih (Phrase.isBare_of_isProper hs) (hsub (List.sublist_cons_self _ _) hws)
  | spread _ _ ih => exact ih rfl (hsub (List.sublist_append_left _ _) hws)
  | endedComma _ _ ih | linesSemicolon _ _ ih =>
    exact ih hs (hsub (List.sublist_append_left _ _) hws)
  | one _ _ ih => exact hone (ih (Phrase.isBare_of_isProper hs) hws)
  | more _ _ _ ih₁ ih₂ | linesItem _ _ _ ih₁ ih₂ =>
    have h₁ := ih₁ hs (hsub (List.sublist_append_left _ _) hws)
    have h₂ := ih₂ (Phrase.isBare_of_isProper hs) (hsub (List.sublist_append_right _ _) hws)
    exact happend h₁ (hone h₂)
  | firstName _ ih => exact hone (ih rfl hws)
  | nextName _ _ _ ih₁ ih₂ =>
    have h₁ := ih₁ rfl (hsub (List.sublist_append_left _ _) hws)
    have h₂ :=
      ih₂ rfl (hsub ((List.sublist_cons_self _ _).trans (List.sublist_append_right _ _)) hws)
    exact happend h₁ (hone h₂)
  | word _ _ ih | lineEnd _ _ ih => exact ih hs (hsub (List.sublist_cons_self _ _) hws)
  | noLineEnd _ ih => exact ih hs hws
  | mark _ _ ih =>
    have hrest := ih hs (hsub (List.sublist_cons_self _ _) hws)
    exact happend (u := [_]) nofun hrest
  | markIn _ _ ih =>
    have hrest := ih hs (hsub (List.sublist_cons_self _ _) hws)
    exact happend (u := [_, _]) nofun hrest
  | unmarked _ ih => exact happend (u := [_, _]) nofun (ih hs hws)
  | sub _ _ ih₁ ih₂ =>
    obtain ⟨hs₁, hs₂⟩ := (Bool.and_eq_true _ _).mp hs
    have h₁ := ih₁ (Phrase.isBare_of_isProper hs₁) (hsub (List.sublist_append_left _ _) hws)
    have h₂ := ih₂ hs₂ (hsub (List.sublist_append_right _ _) hws)
    exact happend (u := [_]) (hone h₁) h₂
  | const _ ih =>
    obtain ⟨hs₁, hs₂⟩ := (Bool.and_eq_true _ _).mp hs
    refine happend (u := [_]) (hone ?_) (ih hs₂ hws)
    rw [(Part.isBare_const hs₁).1]
    nofun
  | args _ _ _ ih₁ ih₂ =>
    have h₁ := ih₁ rfl (hsub (List.sublist_append_left _ _) hws)
    have h₂ := ih₂ hs (hsub (List.sublist_append_right _ _) hws)
    exact happend (u := [_, _]) (happend (u := [_]) (hone h₁) (hone nofun)) h₂
  | @targets ps ws ws' xs ts _ _ ih₁ ih₂ =>
    have h₁ := ih₁ rfl (hsub (List.sublist_append_left _ _) hws)
    have h₂ := ih₂ hs (hsub (List.sublist_append_right _ _) hws)
    have htarget (i : Nat) : ∀ n ∈ (xs[i]?.getD .nil).nodes, P n := by
      cases hx : xs[i]? with
      | none => nofun
      | some x => exact hitems h₁ x (List.mem_of_getElem? hx)
    exact happend (u := [_, _]) (happend (u := [_]) (hone (htarget 0)) (hone (htarget 1))) h₂
  | params hentry hfields _ ih₁ ih₂ =>
    have hws₁ := (hsub (List.sublist_append_left _ _) hws)
    have h₁ := ih₁ rfl hws₁
    have h₂ := ih₂ hs (hsub (List.sublist_append_right _ _) hws)
    have hes (e : Rules.ParamEntry) (he : e ∈ _) :=
      Tree.forall_nodes_field.mp (hitems h₁ _ (List.mem_map_of_mem he))
    have hentries := Rules.forall_fieldsOfEntries (fun t ht _ => ht) hfields
      fun e he => (hes e he).2
    refine happend (u := [_]) (hone (hlist ?_)) h₂
    intro t ht
    obtain ⟨names, type, rfl, hnames, htype⟩ := hentries t ht
    exact Tree.forall_nodes_field.mpr ⟨hfield hentry hws₁ hfields ht, hnames, htype⟩

/-- What holds of the nodes of every row, and of the few nodes besides, holds of every node of a
tree that was read, where `Q` is what is known of each of its words. -/
theorem forall_nodes_of_words {P : Node → Prop} {Q : Word → Prop}
    (hident : ∀ {l}, l.token = .ident → Q (.lexeme l) → P ⟨.ident, [.pos l.pos, .str l.text]⟩)
    (hperiod : ∀ {l}, l.token = .period → Q (.lexeme l) → P ⟨.ident, [.pos l.pos, .str "."]⟩)
    (hliteral : ∀ {l}, l.token.isLiteral = true → Q (.lexeme l) →
      P ⟨.basicLit, [.pos l.pos, .tok l.token, .str l.text]⟩)
    (hdots : ∀ {l}, l.token = .ellipsis → Q (.lexeme l) → P ⟨.dots, [.pos l.pos]⟩)
    (hfield : ∀ {ws es fs}, Derives d (.trailing .entry) ws (.list (es.map (·.field))) →
      (∀ w ∈ ws, Q w) → Rules.fieldsOfEntries es = .ok fs →
      ∀ {names type}, Rules.plainField names type ∈ fs →
      P ⟨.field, [.nil, .list names, type, .nil]⟩)
    (hrow : ∀ {s k ps ws ts}, Row s k ps → Derives d (.parts ps) ws (.list ts) → (∀ w ∈ ws, Q w) →
      P ⟨k, ts⟩)
    (hdoc : ∀ {g}, Q (.doc g) → ∀ n ∈ g.tree.nodes, P n)
    (h : Derives d s ws t) (hs : s.isBare = true) (hws : ∀ w ∈ ws, Q w) : ∀ n ∈ t.nodes, P n := by
  have hfirst {w : Word} (h : ∀ v ∈ [w], Q v) : Q w := h w List.mem_cons_self
  exact h.forall_nodes_of_sublists (Q := fun ws => ∀ w ∈ ws, Q w)
    (fun hsub h w hw => h w (hsub.subset hw))
    (fun hl h => hident hl (hfirst h)) (fun hl h => hperiod hl (hfirst h))
    (fun hl h => hliteral hl (hfirst h)) (fun _ hl h => hdots hl (hfirst h)) hfield
    (fun hr hp _ => hrow hr hp)
    (fun h => hdoc (hfirst h)) hs hws

/-- What holds of the nodes of every row, and of the few nodes besides, holds of every node of a
tree that was read. -/
theorem forall_nodes {P : Node → Prop} (hident : ∀ p name, P ⟨.ident, [.pos p, .str name]⟩)
    (hliteral : ∀ p tok text, P ⟨.basicLit, [.pos p, .tok tok, .str text]⟩)
    (hdots : ∀ p, P ⟨.dots, [.pos p]⟩)
    (hfield : ∀ names type, P ⟨.field, [.nil, .list names, type, .nil]⟩)
    (hrow : ∀ {s k ps ws ts}, Row s k ps → Derives d (.parts ps) ws (.list ts) → P ⟨k, ts⟩)
    (h : Derives d s ws t) (hs : s.isBare = true)
    (hws : ∀ g, .doc g ∈ ws → ∀ n ∈ g.tree.nodes, P n) : ∀ n ∈ t.nodes, P n := by
  refine h.forall_nodes_of_words (Q := fun w => ∀ g, w = .doc g → ∀ n ∈ g.tree.nodes, P n)
    (fun _ _ => hident _ _) (fun _ _ => hident _ _) (fun _ _ => hliteral _ _ _) (fun _ _ => hdots _)
    (fun _ _ _ _ _ _ => hfield _ _) (fun hr hp _ => hrow hr hp) (fun h => h _ rfl) hs ?_
  rintro w hw g rfl
  exact hws g hw

theorem length_parts {ps : List Part} {ts : List Tree} (h : Derives d (.parts ps) ws (.list ts)) :
    ts.length = (ps.map Part.arity).sum := by
  generalize hs : Phrase.parts ps = s at h
  generalize ht : Tree.list ts = t at h
  induction h generalizing ps ts with
  | partsNil =>
    cases hs
    cases ht
    rfl
  | word _ _ ih | noLineEnd _ ih | lineEnd _ _ ih =>
    cases hs
    cases ht
    simpa [Part.arity] using ih rfl rfl
  | mark _ _ ih | markIn _ _ ih | unmarked _ ih | const _ ih =>
    cases hs
    cases ht
    simp only [List.length_cons, List.map_cons, List.sum_cons, Part.arity, ih rfl rfl]
    omega
  | sub _ _ _ ih | args _ _ _ _ ih | targets _ _ _ ih | params _ _ _ _ ih =>
    cases hs
    cases ht
    simp only [List.length_cons, List.map_cons, List.sum_cons, Part.arity, ih rfl rfl]
    omega
  | cover hc =>
    cases hs
    cases hc
  | node hrow =>
    cases hs
    cases hrow
  | _ => cases hs

end Derives

/-! ### All fields are there -/

/-- Whether every node of a value has as many fields as its schema lists. -/
def Tree.Full (t : Tree) : Prop := ∀ n ∈ t.nodes, n.fields.length = n.kind.fields.length

theorem CommentGroup.full_ofComments (cs : List Comment) (lastLine : Nat) :
    (ofComments cs lastLine).tree.Full := by
  rw [Tree.Full, ofComments, Tree.nodes_node, List.forall_mem_cons, Tree.forall_nodesAll]
  refine ⟨rfl, List.forall_mem_singleton.mpr ?_⟩
  rw [Tree.nodes_list, Tree.forall_nodesAll]
  intro t ht
  obtain ⟨c, -, rfl⟩ := List.mem_map.mp ht
  exact List.forall_mem_singleton.mpr rfl

/-- **The nodes of a tree that was read have all their fields.** -/
theorem Derives.full {d : Dialect} {s : Phrase} {ws : List Word} {t : Tree} (h : Derives d s ws t)
    (hs : s.isBare = true) (hws : ∀ g, .doc g ∈ ws → g.tree.Full) : t.Full := by
  refine h.forall_nodes (fun _ _ => rfl) (fun _ _ _ => rfl) (fun _ => rfl)
    (fun _ _ => rfl) ?_ hs hws
  intro s k ps ws ts hrow hparts
  exact hparts.length_parts.trans hrow.arity

end Graft
