import Graft.Proofs.Grammar.ReadFragment
import Graft.Proofs.Recipe.Replacing
import Graft.Proofs.Tree.Conforms
import Graft.Recipe.Compile

/-! # Matching and building keep trees well formed

What a match captures in a conforming tree conforms (`Pattern.matchWith_conform`).  What is built
from such captures conforms (`Template.build_conforms`), since every node checks the slots of its
fields, if only the template has all fields that the schema lists; and it has, being made of a tree
that was read (`Template.isFull_ofTree`).
-/

namespace Graft

/-! ### Captures -/

/-- Whether a binding under a key holds conforming trees only: a node for a metavariable, and a loop
for a loop header. -/
def Binding.Conforms (k : Key) : Binding → Prop
  | .metavar t _ => t.conforms = true ∧ ∃ n : Node, t = n.tree
  | .run ts _ => ∀ t ∈ ts, t.conforms = true
  | .captured t _ => t.conforms = true ∧
    ∀ p, k = .loopHeader p → ∀ n, t.node? = some n → n.kind = .forStmt ∨ n.kind = .rangeStmt
  | .pos _ | .span _ | .name _ => True

namespace Captures

/-- Whether everything that captures hold conforms. -/
def Conform (c : Captures) : Prop := ∀ k b, c.get? k = some b → b.Conforms k

theorem conform_empty : Conform empty := nofun

variable {c : Captures}

theorem Conform.bind (h : c.Conform) {k : Key} {b : Binding} (hb : b.Conforms k) :
    (c.bind k b).Conform := by
  intro k' b' hb'
  rw [get?_bind] at hb'
  split at hb'
  · rename_i hk
    cases hk
    cases hb'
    exact hb
  · exact h k' b' hb'

theorem Conform.visible (h : c.Conform) : c.visible.Conform := by
  intro k b hb
  rw [get?_visible] at hb
  exact h k b hb

theorem Conform.metavar? (h : c.Conform) {name : String} {t : Tree} {s : Span}
    (ht : c.metavar? name = some (t, s)) : t.conforms = true ∧ ∃ n : Node, t = n.tree := by
  unfold Captures.metavar? at ht
  split at ht
  · rename_i hget
    cases ht
    exact h _ _ hget
  · cases ht

theorem Conform.run? (h : c.Conform) {k : Key} {ts : List Tree} {s : Span}
    (hts : c.run? k = some (ts, s)) : ∀ t ∈ ts, t.conforms = true := by
  unfold Captures.run? at hts
  split at hts
  · rename_i hget
    cases hts
    exact h _ _ hget
  · cases hts

theorem Conform.captured? (h : c.Conform) {k : Key} {t : Tree} {s : Span}
    (ht : c.captured? k = some (t, s)) : (Binding.captured t s).Conforms k := by
  unfold Captures.captured? at ht
  split at ht
  · rename_i hget
    cases ht
    exact h _ _ hget
  · cases ht

end Captures

/-! ### Matching -/

/-- A conforming loop conforms without its body. -/
theorem Node.conforms_without_body {n : Node} (h : n.tree.conforms = true)
    (hk : n.kind = .forStmt ∨ n.kind = .rangeStmt) : (n.without .body).tree.conforms = true := by
  have hslot : n.kind.fields.find? (·.label == .body) = some ⟨.body, .node .block⟩ := by
    rcases hk with hk | hk <;> rw [hk] <;> rfl
  have haccepts := accepts_get h hslot
  unfold without
  split
  · rename_i ts hts
    rw [hts] at haccepts
    cases haccepts
  · refine conforms_set h rfl ?_
    intro f hf
    rw [hslot] at hf
    cases hf
    rfl

theorem Node.kind_without (n : Node) (l : Label) : (n.without l).kind = n.kind := by
  unfold without
  split <;> exact n.kind_set l _

theorem MetaKind.exists_node_of_admits {m : MetaKind} {t : Tree} (h : m.admits t = true) :
    ∃ n : Node, t = n.tree := by
  cases t with
  | node k fs => exact ⟨⟨k, fs⟩, rfl⟩
  | _ => cases m <;> cases h

namespace Pattern

open Captures

variable {replay : Tree → Tree → Bool}

mutual

/-- **What is captured in a conforming tree conforms.** -/
theorem matchWith_conform (p : Pattern) {t : Tree} {c e : Captures} (ht : t.conforms = true)
    (hc : c.Conform) (h : matchWith replay p t c = some e) : e.Conform := by
  match p with
  | nil | anyPos | str _ | tok _ | any =>
    obtain rfl := matchWith_plain rfl h
    exact hc
  | node k ps =>
    cases t with
    | node l ts =>
      simp only [matchWith, Option.ite_none_right_eq_some] at h
      exact matchAll_conform ps (Tree.conforms_node.mp ht).2.2 hc h.2
    | _ => cases h
  | list ps =>
    cases t with
    | list ts => exact matchAll_conform ps (Tree.conforms_list.mp ht) hc h
    | _ => cases h
  | runs front sections =>
    cases t with
    | list ts =>
      have hts := Tree.conforms_list.mp ht
      simp only [matchWith, Option.ite_none_left_eq_some] at h
      obtain ⟨e₁, h₁, h₂⟩ := Option.bind_eq_some_iff.mp h.2
      have hfront : e₁.Conform :=
        matchAll_conform front (fun u hu => hts u (List.mem_of_mem_take hu)) hc h₁
      exact matchSections_conform sections hts hfront h₂
    | _ => cases h
  | pos p =>
    rcases matchWith_pos h with ⟨-, q, rfl⟩ | ⟨-, rfl⟩
    · exact hc.bind trivial
    · exact hc
  | doc p =>
    cases h
    exact hc.bind ⟨ht, nofun⟩
  | metavar name kind =>
    obtain ⟨hadmits, ⟨-, rfl⟩ | ⟨-, rfl⟩⟩ := matchWith_metavar h
    · exact hc
    · exact hc.bind ⟨ht, MetaKind.exists_node_of_admits hadmits⟩
  | fieldList p =>
    simp only [matchWith, Option.ite_none_right_eq_some, Option.some.injEq] at h
    rw [← h.2]
    exact hc.bind ⟨ht, nofun⟩
  | loop p body =>
    obtain ⟨n, c₁, s, hn, hk, h₁, rfl⟩ := matchWith_loop h
    rw [← Tree.tree_of_node? hn] at ht
    refine (matchWith_conform body (Node.conforms_get ht) hc h₁).bind ?_
    refine ⟨Node.conforms_without_body ht hk, ?_⟩
    rintro p' - m hm
    cases hm
    rw [Node.kind_without]
    exact hk

theorem matchAll_conform (ps : List Pattern) {ts : List Tree} {c e : Captures}
    (hts : ∀ t ∈ ts, t.conforms = true) (hc : c.Conform) (h : matchAll replay ps ts c = some e) :
    e.Conform := by
  match ps, ts with
  | [], [] =>
    cases h
    exact hc
  | p :: ps, t :: ts =>
    obtain ⟨ht, hts⟩ := List.forall_mem_cons.mp hts
    obtain ⟨e₁, h₁, h₂⟩ := Option.bind_eq_some_iff.mp h
    exact matchAll_conform ps hts (matchWith_conform p ht hc h₁) h₂

theorem matchSections_conform (sections : List (Key × List Pattern)) {ts : List Tree} {cursor : Nat}
    {c e : Captures} (hts : ∀ t ∈ ts, t.conforms = true) (hc : c.Conform)
    (h : matchSections replay ts sections cursor c = some e) : e.Conform := by
  match sections with
  | [] =>
    cases h
    exact hc
  | (key, items) :: rest =>
    obtain ⟨us, vs, s, i, c₁, hus, hvs, h₁, h₂⟩ := matchSections_cons h
    have hitems : c₁.Conform := matchAll_conform items (fun u hu => hts u (hus hu)) hc h₁
    have hrun : (Binding.run vs s).Conforms key := fun u hu => hts u (hvs hu)
    exact matchSections_conform rest hts (hitems.bind hrun) h₂

end

end Pattern

/-! ### Building -/

namespace Template

open Builder Captures

mutual

/-- Whether every node that a template builds has the fields of its schema. -/
def isFull : Template → Bool
  | node k fs => fs.length == k.fields.length && areFull fs
  | list items => itemsAreFull items
  | doc _ own => own.isFull
  | loop _ _ body => body.isFull
  | _ => true

/-- Whether every node that some templates build has the fields of its schema. -/
def areFull : List Template → Bool
  | [] => true
  | t :: ts => t.isFull && areFull ts

/-- Whether every node that the items of a list build has the fields of its schema. -/
def itemsAreFull : List TemplateItem → Bool
  | [] => true
  | .one t :: items => t.isFull && itemsAreFull items
  | .splice _ _ :: items => itemsAreFull items

end

theorem accepts_of_firstMisfit {k : Kind} {fs : List Tree} (h : firstMisfit k fs = none) :
    ∀ x ∈ k.fields.zip fs, x.1.slot.accepts x.2 = true := by
  intro x hx
  have hfind := List.find?_eq_none.mp (Option.map_eq_none_iff.mp h) x hx
  simpa using hfind

/-- A captured loop header becomes a conforming loop again with a block as its body. -/
theorem conforms_loop {header : Node} {body : Tree} (hheader : header.tree.conforms = true)
    (hk : header.kind = .forStmt ∨ header.kind = .rangeStmt) (hbody : body.conforms = true)
    (hblock : body.isKind .blockStmt = true) : (header.set .body body).tree.conforms = true := by
  refine Node.conforms_set hheader hbody ?_
  intro f hf
  have hslot : f = ⟨.body, .node .block⟩ := by
    rcases hk with hk | hk <;> rw [hk] at hf <;> cases hf <;> rfl
  rw [hslot]
  cases body with
  | node k fs =>
    have hkind : k = .blockStmt := by simpa [Tree.isKind, Tree.kind?] using hblock
    rw [hkind]
    rfl
  | _ => cases hblock

mutual

/-- **What is built from conforming captures conforms.** -/
theorem build_conforms {c : Captures} (hc : c.Conform) (t : Template) (ht : t.isFull = true)
    {d d' : Draft} {v : Tree} (h : (build c t).run d = .ok (v, d')) : v.conforms = true := by
  match t with
  | nil | str _ | tok _ =>
    cases h
    rfl
  | pos p counterpart =>
    rw [build] at h
    dsimp only at h
    split at h
    · cases h
      rfl
    · cases h
      rfl
  | node k fs =>
    obtain ⟨hlength, hfs⟩ := (Bool.and_eq_true _ _).mp ht
    rw [build] at h
    obtain ⟨values, d₁, h₁, h⟩ := exists_of_run_bind h
    obtain ⟨hvalues, hcount⟩ := buildAll_conforms hc fs hfs h₁
    split at h
    · cases h
    · rename_i hfits
      cases h
      refine Tree.conforms_node.mpr ⟨?_, accepts_of_firstMisfit hfits, hvalues⟩
      rw [hcount]
      exact beq_iff_eq.mp hlength
  | list items =>
    rw [build] at h
    obtain ⟨values, d₁, h₁, h⟩ := exists_of_run_bind h
    cases h
    exact Tree.conforms_list.mpr (buildItems_conforms hc items ht h₁)
  | doc counterpart own =>
    rw [build] at h
    split at h
    · split at h
      · rename_i value span hcaptured
        obtain ⟨u, d₁, h₁, h⟩ := exists_of_run_bind h
        cases h
        obtain ⟨q, -, hcaptured⟩ := Option.bind_eq_some_iff.mp hcaptured
        exact (hc.captured? hcaptured).1
      · cases h
        rfl
    · exact build_conforms hc own ht h
  | metavar name p =>
    rw [build] at h
    obtain ⟨⟨value, span⟩, d₁, h₁, h⟩ := exists_of_run_bind h
    obtain ⟨u, d₂, h₂, h⟩ := exists_of_run_bind h
    cases h
    exact (hc.metavar? (eq_of_require h₁)).1
  | fieldList dots counterpart =>
    rw [build] at h
    obtain ⟨⟨value, span⟩, d₁, h₁, h⟩ := exists_of_run_bind h
    obtain ⟨u, d₂, h₂, h⟩ := exists_of_run_bind h
    cases h
    obtain ⟨q, -, hcaptured⟩ := Option.bind_eq_some_iff.mp (eq_of_require h₁)
    exact (hc.captured? hcaptured).1
  | loop dots counterpart body =>
    rw [build] at h
    obtain ⟨⟨value, span⟩, d₁, h₁, h⟩ := exists_of_run_bind h
    obtain ⟨header, d₂, h₂, h⟩ := exists_of_run_bind h
    obtain ⟨u, d₃, h₃, h⟩ := exists_of_run_bind h
    obtain ⟨u, d₄, h₄, h⟩ := exists_of_run_bind h
    obtain ⟨built, d₅, h₅, h⟩ := exists_of_run_bind h
    have hbuilt : built.conforms = true := build_conforms hc body ht h₅
    obtain ⟨q, -, hcaptured⟩ := Option.bind_eq_some_iff.mp (eq_of_require h₁)
    obtain ⟨hvalue, hkind⟩ := hc.captured? hcaptured
    have hheader : value.node? = some header := eq_of_require h₂
    rw [← Tree.tree_of_node? hheader] at hvalue
    split at h
    · rename_i hblock
      cases h
      exact conforms_loop hvalue (hkind q rfl header hheader) hbuilt hblock
    · cases h

theorem buildAll_conforms {c : Captures} (hc : c.Conform) (ts : List Template)
    (hts : areFull ts = true) {d d' : Draft} {vs : List Tree}
    (h : (buildAll c ts).run d = .ok (vs, d')) :
    (∀ v ∈ vs, v.conforms = true) ∧ vs.length = ts.length := by
  match ts with
  | [] =>
    cases h
    exact ⟨List.forall_mem_nil _, rfl⟩
  | t :: ts =>
    obtain ⟨ht, hts⟩ := (Bool.and_eq_true _ _).mp hts
    rw [buildAll] at h
    obtain ⟨value, d₁, h₁, h⟩ := exists_of_run_bind h
    obtain ⟨values, d₂, h₂, h⟩ := exists_of_run_bind h
    cases h
    obtain ⟨hvalues, hcount⟩ := buildAll_conforms hc ts hts h₂
    exact ⟨List.forall_mem_cons.mpr ⟨build_conforms hc t ht h₁, hvalues⟩, by simp [hcount]⟩

theorem buildItems_conforms {c : Captures} (hc : c.Conform) (items : List TemplateItem)
    (hitems : itemsAreFull items = true) {d d' : Draft} {vs : List Tree}
    (h : (buildItems c items).run d = .ok (vs, d')) : ∀ v ∈ vs, v.conforms = true := by
  match items with
  | [] =>
    cases h
    exact List.forall_mem_nil _
  | .one t :: items =>
    obtain ⟨ht, hitems⟩ := (Bool.and_eq_true _ _).mp hitems
    rw [buildItems] at h
    obtain ⟨value, d₁, h₁, h⟩ := exists_of_run_bind h
    obtain ⟨values, d₂, h₂, h⟩ := exists_of_run_bind h
    cases h
    exact List.forall_mem_cons.mpr
      ⟨build_conforms hc t ht h₁, buildItems_conforms hc items hitems h₂⟩
  | .splice key dots :: items =>
    rw [buildItems] at h
    obtain ⟨⟨run, span⟩, d₁, h₁, h⟩ := exists_of_run_bind h
    obtain ⟨u, d₂, h₂, h⟩ := exists_of_run_bind h
    obtain ⟨u, d₃, h₃, h⟩ := exists_of_run_bind h
    obtain ⟨values, d₄, h₄, h⟩ := exists_of_run_bind h
    cases h
    obtain ⟨k, -, hrun⟩ := Option.bind_eq_some_iff.mp (eq_of_require h₁)
    exact List.forall_mem_append.mpr ⟨hc.run? hrun, buildItems_conforms hc items hitems h₄⟩

end

/-! ### Templates of trees that were read -/

theorem areFull_iff {ts : List Template} : areFull ts = true ↔ ∀ t ∈ ts, t.isFull = true := by
  induction ts with
  | nil => simp [areFull]
  | cons t ts ih => simp [areFull, ih]

theorem itemsAreFull_append {xs ys : List TemplateItem} :
    itemsAreFull (xs ++ ys) = (itemsAreFull xs && itemsAreFull ys) := by
  induction xs with
  | nil => rfl
  | cons x xs ih => cases x <;> simp [itemsAreFull, ih, Bool.and_assoc]

/-- A field that is missing builds nothing. -/
theorem isFull_getD {ts : List Template} (h : areFull ts = true) (i : Nat) :
    (ts[i]?.getD nil).isFull = true := by
  cases hi : ts[i]? with
  | none => rfl
  | some t => exact areFull_iff.mp h t (List.mem_of_getElem? hi)

variable {metas : MetaTable} {a : Pairing}

theorem length_ofFields (key : Option Pos) {fs : List Field}
    {ts : List Tree} (h : ts.length = fs.length) :
    (ofFields metas a key fs ts).length = fs.length := by
  induction fs generalizing ts with
  | nil =>
    cases ts with
    | nil => rfl
    | cons => cases h
  | cons f fs ih =>
    cases ts with
    | nil => cases h
    | cons t ts => simp [ofFields, ih (Nat.succ.inj h)]

variable (metas a)

mutual

/-- **The template of a tree with all fields has all fields.** -/
theorem isFull_ofTree (t : Tree) (h : t.Full) : (ofTree metas a t).isFull = true := by
  match t with
  | .nil | .pos _ | .str _ | .tok _ => rfl
  | .list ts =>
    rw [Tree.Full, Tree.nodes_list, Tree.forall_nodesAll] at h
    exact itemsAreFull_ofItems ts h
  | .node k fs =>
    rw [Tree.Full, Tree.nodes_node, List.forall_mem_cons, Tree.forall_nodesAll] at h
    have hfields (key : Option Pos) := areFull_ofFields key k.fields fs h.2
    rw [ofTree]
    split
    · rfl
    · split
      · rfl
      · split
        · rw [isFull]
          cases k.indexOf? .body with
          | none => rfl
          | some i => exact isFull_getD (hfields _) i
        · split
          · rfl
          · rw [isFull, hfields, Bool.and_true, beq_iff_eq]
            exact length_ofFields _ h.1

theorem itemsAreFull_ofItems (ts : List Tree) (h : ∀ t ∈ ts, t.Full) :
    itemsAreFull (ofItems metas a ts) = true := by
  match ts with
  | [] => rfl
  | t :: ts =>
    obtain ⟨ht, hts⟩ := List.forall_mem_cons.mp h
    have hrest := itemsAreFull_ofItems ts hts
    rw [ofItems]
    split
    · exact hrest
    · rw [itemsAreFull, isFull_ofTree t ht, hrest]
      rfl

theorem areFull_ofFields (key : Option Pos) (fs : List Field) (ts : List Tree)
    (h : ∀ t ∈ ts, t.Full) : areFull (ofFields metas a key fs ts) = true := by
  match fs, ts with
  | [], [] | [], _ :: _ => rfl
  | _ :: _, [] => rfl
  | f :: fs, t :: ts =>
    obtain ⟨ht, hts⟩ := List.forall_mem_cons.mp h
    have hfirst : (if f.slot = .doc then doc key (ofTree metas a t) else ofTree metas a t).isFull =
        true := by
      split
      · exact isFull_ofTree t ht
      · exact isFull_ofTree t ht
    rw [ofFields, areFull, hfirst, areFull_ofFields key fs ts hts]
    rfl

end

end Template

end Graft
