import Graft.Proofs.Recipe.Failure
import Graft.Proofs.Recipe.Mirror

/-! # Where a walk goes

A walk visits the nodes of a file that count as code, children before their parents, and stays out
of import declarations (`Tree.sites`).  Two things about a whole walk follow from what its visits do
at these sites.  If none of them does anything, neither does the walk (`sweep_of_sites`).  And if
the walk has counted no replacement and was not stopped, then no visit has changed anything, so each
of them saw the tree as it was before the walk (`sweep_settles`).

A search looks at nodes parents first.  What it looks at is what a walk visits, import declarations
aside (`Tree.perm_sites`, `Tree.mem_codeNodes_of_mem_nodes`).
-/

namespace Graft

/-! ### Sites -/

namespace Tree

mutual

/-- The nodes of a value that a walk visits, each with its slot, in the order in which it visits
them. -/
def sites (slot : Slot) : Tree → List (Slot × Node)
  | list ts => sitesItems slot.ofItem ts
  | node k fs =>
    if Node.isImportDecl ⟨k, fs⟩ then [] else sitesFields k.fields fs ++ [(slot, ⟨k, fs⟩)]
  | _ => []

/-- The nodes of the elements of a list that a walk visits. -/
def sitesItems (slot : Slot) : List Tree → List (Slot × Node)
  | [] => []
  | t :: ts => t.sites slot ++ sitesItems slot ts

/-- The nodes of the fields of a node that a walk visits. -/
def sitesFields : List Field → List Tree → List (Slot × Node)
  | f :: fs, t :: ts => (if f.slot.holdsCode then t.sites f.slot else []) ++ sitesFields fs ts
  | _, _ => []

end

end Tree

/-! ### Walks that find nothing to do -/

section Sweep

variable {visit : Visit}

mutual

/-- **A walk does nothing if its visits do nothing at their sites.** -/
theorem sweep_of_sites (slot : Slot) (t : Tree) (pass : Pass)
    (h : ∀ x ∈ t.sites slot, ∀ pass, visit x.1 x.2 pass = (x.2.tree, pass)) :
    sweep visit slot t pass = (t, pass) := by
  match t with
  | .nil | .pos _ | .str _ | .tok _ => rfl
  | .list ts =>
    rw [Tree.sites] at h
    rw [sweep, sweepItems_of_sites slot.ofItem ts pass h]
  | .node k fs =>
    rw [Tree.sites] at h
    rw [sweep]
    split
    · rfl
    · rename_i hdecl
      rw [if_neg hdecl, List.forall_mem_append] at h
      rw [sweepFields_of_sites k.fields fs pass h.1]
      exact h.2 (slot, ⟨k, fs⟩) List.mem_cons_self pass

theorem sweepItems_of_sites (slot : Slot) (ts : List Tree) (pass : Pass)
    (h : ∀ x ∈ Tree.sitesItems slot ts, ∀ pass, visit x.1 x.2 pass = (x.2.tree, pass)) :
    sweepItems visit slot ts pass = (ts, pass) := by
  match ts with
  | [] => rfl
  | t :: ts =>
    rw [Tree.sitesItems] at h
    obtain ⟨ht, hts⟩ := List.forall_mem_append.mp h
    rw [sweepItems, sweep_of_sites slot t pass ht]
    dsimp only
    rw [sweepItems_of_sites slot ts pass hts]

theorem sweepFields_of_sites (fs : List Field) (ts : List Tree) (pass : Pass)
    (h : ∀ x ∈ Tree.sitesFields fs ts, ∀ pass, visit x.1 x.2 pass = (x.2.tree, pass)) :
    sweepFields visit fs ts pass = (ts, pass) := by
  match fs, ts with
  | [], [] | [], _ :: _ | _ :: _, [] => rfl
  | f :: fs, t :: ts =>
    rw [Tree.sitesFields] at h
    obtain ⟨ht, hts⟩ := List.forall_mem_append.mp h
    have hfirst : (if f.slot.holdsCode = true then sweep visit f.slot t pass else (t, pass)) =
        (t, pass) := by
      split
      · rename_i hf
        rw [if_pos hf] at ht
        exact sweep_of_sites f.slot t pass ht
      · rfl
    rw [sweepFields, hfirst]
    dsimp only
    rw [sweepFields_of_sites fs ts pass hts]

end

end Sweep

/-! ### Walks that have done nothing -/

/-- What a visit shows if it neither counts a replacement nor stops the walk: it has changed
nothing, and `P` holds of its site.  Counts only grow, and a walk that was stopped stays stopped. -/
structure Visit.Settles (visit : Visit) (log : EditLog) (P : Slot → Node → Prop) : Prop where
  grows : ∀ slot t pass, pass.count ≤ (visit slot t pass).2.count
  stops : ∀ slot t pass, pass.failure.isSome = true → (visit slot t pass).2.failure.isSome = true
  still : ∀ slot (n : Node) pass, pass.log = log → (visit slot n pass).2.failure = none →
    (visit slot n pass).2.count = pass.count →
      (visit slot n pass).1 = n ∧ (visit slot n pass).2.log = log ∧ P slot n

namespace Visit.Settles

variable {visit : Visit} {log : EditLog} {P : Slot → Node → Prop}

/-- Two walks in a row that count nothing and are not stopped: neither counts, and neither is
stopped. -/
theorem halves {pass₀ pass₁ pass₂ : Pass} (hcount : pass₂.count = pass₀.count)
    (hfailure : pass₂.failure = none) (hgrows : pass₀.count ≤ pass₁.count)
    (hgrows' : pass₁.count ≤ pass₂.count)
    (hstops : pass₁.failure.isSome = true → pass₂.failure.isSome = true) :
    pass₁.count = pass₀.count ∧ pass₁.failure = none ∧ pass₂.count = pass₁.count := by
  refine ⟨by omega, ?_, by omega⟩
  rw [hfailure] at hstops
  simpa using hstops

section

variable (hv : visit.Settles log P)
include hv

theorem sweep_grows (slot : Slot) (t : Tree) (pass : Pass) :
    pass.count ≤ (sweep visit slot t pass).2.count :=
  sweep_keeps (Q := fun p => pass.count ≤ p.count)
    (fun slot t p h => Nat.le_trans h (hv.grows slot t p)) slot t (Nat.le_refl _)

theorem sweepItems_grows (slot : Slot) (ts : List Tree) (pass : Pass) :
    pass.count ≤ (sweepItems visit slot ts pass).2.count :=
  sweepItems_keeps (Q := fun p => pass.count ≤ p.count)
    (fun slot t p h => Nat.le_trans h (hv.grows slot t p)) slot ts (Nat.le_refl _)

theorem sweepFields_grows (fs : List Field) (ts : List Tree) (pass : Pass) :
    pass.count ≤ (sweepFields visit fs ts pass).2.count :=
  sweepFields_keeps (Q := fun p => pass.count ≤ p.count)
    (fun slot t p h => Nat.le_trans h (hv.grows slot t p)) fs ts (Nat.le_refl _)

end

end Visit.Settles

section Settles

variable {visit : Visit} {log : EditLog} {P : Slot → Node → Prop}

mutual

/-- **A walk that has counted nothing and was not stopped has changed nothing**, and its visits saw
the sites of the tree as it was. -/
theorem sweep_settles (hv : visit.Settles log P) (slot : Slot) (t : Tree) {pass : Pass}
    (hlog : pass.log = log) (hfailure : (sweep visit slot t pass).2.failure = none)
    (hcount : (sweep visit slot t pass).2.count = pass.count) :
    (sweep visit slot t pass).1 = t ∧ (sweep visit slot t pass).2.log = log ∧
      ∀ x ∈ t.sites slot, P x.1 x.2 := by
  match t with
  | .nil | .pos _ | .str _ | .tok _ => exact ⟨rfl, hlog, List.forall_mem_nil _⟩
  | .list ts =>
    rw [Tree.sites]
    rw [sweep] at hfailure hcount ⊢
    obtain ⟨hts, hlog, hsites⟩ := sweepItems_settles hv slot.ofItem ts hlog hfailure hcount
    exact ⟨congrArg Tree.list hts, hlog, hsites⟩
  | .node k fs =>
    rw [Tree.sites]
    rw [sweep] at hfailure hcount ⊢
    split
    · exact ⟨rfl, hlog, List.forall_mem_nil _⟩
    · rename_i hdecl
      rw [if_neg hdecl] at hfailure hcount
      obtain ⟨hcount₁, hfailure₁, hcount₂⟩ := Visit.Settles.halves hcount hfailure
        (hv.sweepFields_grows k.fields fs pass) (hv.grows _ _ _) (hv.stops _ _ _)
      obtain ⟨hfs, hlog, hsites⟩ := sweepFields_settles hv k.fields fs hlog hfailure₁ hcount₁
      dsimp only at hfailure hcount₂ ⊢
      rw [hfs] at hfailure hcount₂ ⊢
      obtain ⟨hnode, hlog, hsite⟩ := hv.still slot ⟨k, fs⟩ _ hlog hfailure hcount₂
      exact ⟨hnode, hlog, List.forall_mem_append.mpr ⟨hsites, List.forall_mem_singleton.mpr hsite⟩⟩

theorem sweepItems_settles (hv : visit.Settles log P) (slot : Slot) (ts : List Tree) {pass : Pass}
    (hlog : pass.log = log) (hfailure : (sweepItems visit slot ts pass).2.failure = none)
    (hcount : (sweepItems visit slot ts pass).2.count = pass.count) :
    (sweepItems visit slot ts pass).1 = ts ∧ (sweepItems visit slot ts pass).2.log = log ∧
      ∀ x ∈ Tree.sitesItems slot ts, P x.1 x.2 := by
  match ts with
  | [] => exact ⟨rfl, hlog, List.forall_mem_nil _⟩
  | t :: ts =>
    rw [Tree.sitesItems]
    rw [sweepItems] at hfailure hcount ⊢
    obtain ⟨hcount₁, hfailure₁, hcount₂⟩ := Visit.Settles.halves hcount hfailure
      (hv.sweep_grows slot t pass) (hv.sweepItems_grows slot ts _)
      (sweepItems_keeps (Q := fun p => p.failure.isSome = true) hv.stops slot ts)
    obtain ⟨ht, hlog, hsites⟩ := sweep_settles hv slot t hlog hfailure₁ hcount₁
    obtain ⟨hts, hlog, hsites'⟩ := sweepItems_settles hv slot ts hlog hfailure hcount₂
    exact ⟨List.cons_eq_cons.mpr ⟨ht, hts⟩, hlog, List.forall_mem_append.mpr ⟨hsites, hsites'⟩⟩

theorem sweepFields_settles (hv : visit.Settles log P) (fs : List Field)
    (ts : List Tree) {pass : Pass} (hlog : pass.log = log)
    (hfailure : (sweepFields visit fs ts pass).2.failure = none)
    (hcount : (sweepFields visit fs ts pass).2.count = pass.count) :
    (sweepFields visit fs ts pass).1 = ts ∧ (sweepFields visit fs ts pass).2.log = log ∧
      ∀ x ∈ Tree.sitesFields fs ts, P x.1 x.2 := by
  match fs, ts with
  | [], [] | [], _ :: _ | _ :: _, [] => exact ⟨rfl, hlog, by simp [Tree.sitesFields]⟩
  | f :: fs, t :: ts =>
    rw [sweepFields] at hfailure hcount ⊢
    rw [Tree.sitesFields]
    by_cases hf : f.slot.holdsCode = true
    · rw [if_pos hf] at hfailure hcount ⊢
      rw [if_pos hf]
      obtain ⟨hcount₁, hfailure₁, hcount₂⟩ := Visit.Settles.halves hcount hfailure
        (hv.sweep_grows f.slot t pass) (hv.sweepFields_grows fs ts _)
        (sweepFields_keeps (Q := fun p => p.failure.isSome = true) hv.stops fs ts)
      obtain ⟨ht, hlog, hsites⟩ := sweep_settles hv f.slot t hlog hfailure₁ hcount₁
      obtain ⟨hts, hlog, hsites'⟩ := sweepFields_settles hv fs ts hlog hfailure hcount₂
      exact ⟨List.cons_eq_cons.mpr ⟨ht, hts⟩, hlog, List.forall_mem_append.mpr ⟨hsites, hsites'⟩⟩
    · rw [if_neg hf] at hfailure hcount ⊢
      rw [if_neg hf]
      obtain ⟨hts, hlog, hsites⟩ := sweepFields_settles hv fs ts hlog hfailure hcount
      exact ⟨List.cons_eq_cons.mpr ⟨rfl, hts⟩, hlog, hsites⟩

end

end Settles

/-! ### Searches -/

namespace Tree

/-- Whether a value is a declaration of imports. -/
def isImportDecl (t : Tree) : Bool := (t.node?.map (·.isImportDecl)).getD false

mutual

/-- **A walk visits the nodes that count as code, import declarations aside**, in an order of its
own. -/
theorem perm_sites (slot : Slot) (t : Tree) :
    ((t.sites slot).map (·.2.tree)).Perm (t.codeNodes.filter (!·.isImportDecl)) := by
  match t with
  | nil | pos _ | str _ | tok _ => exact .nil
  | list ts =>
    rw [sites, codeNodes]
    exact perm_sitesItems slot.ofItem ts
  | node k fs =>
    rw [sites, codeNodes, List.filter_cons, isImportDecl]
    cases hdecl : Node.isImportDecl ⟨k, fs⟩ with
    | true => simp [node?, hdecl]
    | false =>
      simp only [node?, Option.map_some, Option.getD_some, hdecl, Bool.not_false, if_true,
        Bool.false_eq_true, if_false, List.map_append, List.map_cons, List.map_nil]
      exact (List.perm_append_singleton _ _).trans ((perm_sitesFields k.fields fs).cons _)

theorem perm_sitesItems (slot : Slot) (ts : List Tree) :
    ((sitesItems slot ts).map (·.2.tree)).Perm ((codeNodesAll ts).filter (!·.isImportDecl)) := by
  match ts with
  | [] => exact .nil
  | t :: ts =>
    rw [sitesItems, codeNodesAll, List.map_append, List.filter_append]
    exact (perm_sites slot t).append (perm_sitesItems slot ts)

theorem perm_sitesFields (fs : List Field) (ts : List Tree) :
    ((sitesFields fs ts).map (·.2.tree)).Perm ((codeFields fs ts).filter (!·.isImportDecl)) := by
  match fs, ts with
  | [], [] | [], _ :: _ | _ :: _, [] => simp [sitesFields, codeFields]
  | f :: fs, t :: ts =>
    rw [sitesFields, codeFields, List.map_append, List.filter_append]
    refine List.Perm.append ?_ (perm_sitesFields fs ts)
    split
    · exact perm_sites f.slot t
    · exact .nil

end

mutual

/-- Code is among all nodes. -/
theorem codeNodes_sublist (t : Tree) : t.codeNodes.Sublist (t.nodes.map Node.tree) := by
  match t with
  | nil | pos _ | str _ | tok _ => exact List.nil_sublist _
  | list ts =>
    rw [codeNodes, nodes]
    exact codeNodesAll_sublist ts
  | node k fs =>
    rw [codeNodes, nodes]
    refine List.Sublist.cons_cons _ ?_
    split
    · exact List.nil_sublist _
    · exact codeFields_sublist k.fields fs

theorem codeNodesAll_sublist (ts : List Tree) :
    (codeNodesAll ts).Sublist ((nodesAll ts).map Node.tree) := by
  match ts with
  | [] => exact List.nil_sublist _
  | t :: ts =>
    rw [codeNodesAll, nodesAll, List.map_append]
    exact (codeNodes_sublist t).append (codeNodesAll_sublist ts)

theorem codeFields_sublist (fs : List Field) (ts : List Tree) :
    (codeFields fs ts).Sublist ((nodesAll ts).map Node.tree) := by
  match fs, ts with
  | [], [] | [], _ :: _ | _ :: _, [] => simp [codeFields]
  | f :: fs, t :: ts =>
    rw [codeFields, nodesAll, List.map_append]
    refine List.Sublist.append ?_ (codeFields_sublist fs ts)
    split
    · exact codeNodes_sublist t
    · exact List.nil_sublist _

end

end Tree

/-! ### What stands where by the schema -/

/-- The category of nodes that a slot is for. -/
def Slot.category? : Slot → Option Category
  | .node c | .list c => some c
  | .doc => some .commentGroup
  | _ => none

/-- A field of a conforming node fits a slot of its kind. -/
theorem Tree.exists_slot_of_mem {k : Kind} {fs : List Tree} (h : (Tree.node k fs).conforms = true)
    {t : Tree} (ht : t ∈ fs) : ∃ f ∈ k.fields, f.slot.accepts t = true := by
  obtain ⟨hlength, hslots, -⟩ := Tree.conforms_node.mp h
  obtain ⟨i, hi⟩ := List.mem_iff_getElem?.mp ht
  obtain ⟨hlt, -⟩ := List.getElem?_eq_some_iff.mp hi
  have hfield : k.fields[i]? = some (k.fields.get ⟨i, hlength ▸ hlt⟩) := List.getElem?_eq_getElem _
  have hpair : (_, t) ∈ k.fields.zip fs :=
    List.mem_iff_getElem?.mpr ⟨i, List.getElem?_zip_eq_some.mpr ⟨hfield, hi⟩⟩
  exact ⟨_, List.mem_of_getElem? hfield, hslots _ hpair⟩

/-- What holds of the kinds of some categories, holds of all nodes below a slot of these categories,
if the fields of these kinds are of these categories again. -/
theorem Tree.forall_kinds {S : Category → Bool} {P : Kind → Bool}
    (hS : ∀ c k, S c = true → k.isA c = true → P k = true ∧
      ∀ f ∈ k.fields, ∀ c' ∈ f.slot.category?, S c' = true)
    {slot : Slot} (hslot : ∀ c ∈ slot.category?, S c = true) {t : Tree} (ht : t.conforms = true)
    (haccepts : slot.accepts t = true) : ∀ n ∈ t.nodes, P n.kind = true := by
  induction t using Tree.induction generalizing slot with
  | hnil | hpos | hstr | htok => nofun
  | hlist ts ih =>
    cases slot with
    | list c =>
      rw [Tree.nodes_list, Tree.forall_nodesAll]
      intro t hmem
      obtain ⟨n, rfl, hkind⟩ := Slot.accepts_list.mp haccepts t hmem
      exact @ih _ hmem (.node c) hslot (Tree.conforms_list.mp ht _ hmem) hkind
    | _ => cases haccepts
  | hnode k fs ih =>
    obtain ⟨c, hc, hkind⟩ : ∃ c ∈ slot.category?, k.isA c = true := by
      cases slot with
      | node c => exact ⟨c, rfl, haccepts⟩
      | doc =>
        refine ⟨.commentGroup, rfl, ?_⟩
        rw [beq_iff_eq.mp haccepts]
        rfl
      | _ => cases haccepts
    obtain ⟨hP, hfields⟩ := hS c k (hslot c hc) hkind
    rw [Tree.nodes_node, List.forall_mem_cons, Tree.forall_nodesAll]
    refine ⟨hP, fun t hmem => ?_⟩
    obtain ⟨f, hf, hfits⟩ := Tree.exists_slot_of_mem ht hmem
    exact ih t hmem (hfields f hf) ((Tree.conforms_node.mp ht).2.2 t hmem) hfits

/-- Whether nodes of a kind stand where comments do. -/
def Kind.isRemark (k : Kind) : Bool := k == .comment || k == .commentGroup || k == .dots

/-- Where no code is looked for, there are comments at most. -/
theorem Tree.isRemark_of_accepts {slot : Slot} (hslot : slot.holdsCode = false) {t : Tree}
    (ht : t.conforms = true) (haccepts : slot.accepts t = true) :
    ∀ n ∈ t.nodes, n.kind.isRemark = true := by
  have hS (c : Category) (k : Kind) (hc : (c == .comment || c == .commentGroup) = true)
      (hk : k.isA c = true) : k.isRemark = true ∧
        ∀ f ∈ k.fields, ∀ c' ∈ f.slot.category?, (c' == .comment || c' == .commentGroup) =
        true := by
    rcases Bool.or_eq_true_iff.mp hc with hc | hc
    all_goals
      cases beq_iff_eq.mp hc
      cases k <;> first | decide | cases hk
  refine Tree.forall_kinds hS ?_ ht haccepts
  intro c hc
  cases slot with
  | node c' | list c' =>
    cases hc
    have hgroup : c = .commentGroup := by simpa [Slot.holdsCode] using hslot
    rw [hgroup]
    rfl
  | doc =>
    cases hc
    rfl
  | _ => cases hc

/-- Files stand in no field. -/
theorem Tree.ne_file_of_accepts {k : Kind} {f : Field} (hf : f ∈ k.fields) {t : Tree}
    (ht : t.conforms = true) (haccepts : f.slot.accepts t = true) :
    ∀ n ∈ t.nodes, n.kind ≠ .file := by
  have hfields (k : Kind) : ∀ f ∈ k.fields, ∀ c ∈ f.slot.category?, (c != .file) = true := by
    cases k <;> decide
  have hS (c : Category) (k : Kind) (hc : (c != .file) = true) (hk : k.isA c = true) :
      (k != .file) = true ∧ ∀ f ∈ k.fields, ∀ c' ∈ f.slot.category?, (c' != .file) = true := by
    refine ⟨bne_iff_ne.mpr fun hfile => ?_, hfields k⟩
    rw [hfile] at hk
    cases c with
    | file => exact absurd rfl (bne_iff_ne.mp hc)
    | _ => cases hk
  exact fun n hn => bne_iff_ne.mp (Tree.forall_kinds hS (hfields k f hf) ht haccepts n hn)

namespace Tree

variable {n : Node}

mutual

/-- **Whatever is no comment and in no import declaration counts as code** in a conforming value. -/
theorem mem_codeNodes_of_mem_nodes (hkind : n.kind.isRemark = false) (t : Tree)
    (ht : t.conforms = true) (hfree : ∀ d ∈ t.nodes, d.isImportDecl = true → n ∉ d.tree.nodes)
    (hn : n ∈ t.nodes) :
    n.tree ∈ t.codeNodes := by
  match t with
  | nil | pos _ | str _ | tok _ => cases hn
  | list ts =>
    rw [codeNodes]
    exact mem_codeNodesAll_of_mem_nodes hkind ts (conforms_list.mp ht) hfree hn
  | node k fs =>
    obtain ⟨hlength, hslots, hconforms⟩ := conforms_node.mp ht
    rw [nodes_node] at hn hfree
    obtain ⟨hself, hfree⟩ := List.forall_mem_cons.mp hfree
    rw [codeNodes]
    rcases List.mem_cons.mp hn with rfl | hn
    · exact List.mem_cons_self
    · rw [if_neg fun hdecl => hself hdecl
        (by rw [Node.tree, nodes_node]; exact List.mem_cons_of_mem _ hn)]
      exact List.mem_cons_of_mem _
        (mem_codeFields_of_mem_nodes hkind k.fields fs hlength hslots hconforms hfree hn)

theorem mem_codeNodesAll_of_mem_nodes (hkind : n.kind.isRemark = false) (ts : List Tree)
    (hts : ∀ t ∈ ts, t.conforms = true)
    (hfree : ∀ d ∈ nodesAll ts, d.isImportDecl = true → n ∉ d.tree.nodes) (hn : n ∈ nodesAll ts) :
    n.tree ∈ codeNodesAll ts := by
  match ts with
  | [] => cases hn
  | t :: ts =>
    rw [nodesAll] at hn hfree
    obtain ⟨hhead, htail⟩ := List.forall_mem_append.mp hfree
    obtain ⟨ht, hts⟩ := List.forall_mem_cons.mp hts
    rw [codeNodesAll]
    rcases List.mem_append.mp hn with hn | hn
    · exact List.mem_append_left _ (mem_codeNodes_of_mem_nodes hkind t ht hhead hn)
    · exact List.mem_append_right _ (mem_codeNodesAll_of_mem_nodes hkind ts hts htail hn)

theorem mem_codeFields_of_mem_nodes (hkind : n.kind.isRemark = false) (fs : List Field)
    (ts : List Tree) (hlength : ts.length = fs.length)
    (hslots : ∀ x ∈ fs.zip ts, x.1.slot.accepts x.2 = true) (hts : ∀ t ∈ ts, t.conforms = true)
    (hfree : ∀ d ∈ nodesAll ts, d.isImportDecl = true → n ∉ d.tree.nodes) (hn : n ∈ nodesAll ts) :
    n.tree ∈ codeFields fs ts := by
  match fs, ts with
  | _, [] => cases hn
  | f :: fs, t :: ts =>
    rw [nodesAll] at hn hfree
    obtain ⟨hhead, htail⟩ := List.forall_mem_append.mp hfree
    obtain ⟨hslot, hslots⟩ := List.forall_mem_cons.mp hslots
    obtain ⟨ht, hts⟩ := List.forall_mem_cons.mp hts
    rw [codeFields]
    rcases List.mem_append.mp hn with hn | hn
    · cases hf : f.slot.holdsCode with
      | true => exact List.mem_append_left _ (mem_codeNodes_of_mem_nodes hkind t ht hhead hn)
      | false =>
        rw [isRemark_of_accepts hf ht hslot n hn] at hkind
        cases hkind
    · exact List.mem_append_right _
        (mem_codeFields_of_mem_nodes hkind fs ts (Nat.succ.inj hlength) hslots hts htail hn)

end

end Tree

end Graft
