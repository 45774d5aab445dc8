import Graft.Proofs.Grammar.ReadFragment
import Graft.Proofs.Grammar.Slots
import Graft.Proofs.Layout.WordOrder
import Graft.Proofs.Patch.Context
import Graft.Proofs.Tree.SameCode
import Graft.Recipe.Compile

/-! # The places by which nodes are ranked

On changed lines wildcards and documented nodes are ranked by a place (`Node.rankKey?`).  A wildcard
that is a parameter or a field without a name has its place twice, once as the wildcard and once as
the field.  Of all other nodes of a fragment no two are ranked by one place
(`nodup_ownKeys_of_parseFragment`).

Each place is counted: in a phrase no place is that of more nodes than of words (`Derives.keyed`).
A documented node is ranked by its first place outside of the comment above it, so there one word
has to be left over for it.  It is, since what stands there is a token of the node itself, or a
phrase that begins with a token of a node which is not ranked (`Phrase.isFresh`).
-/

namespace Graft

/-! ### Keys -/

/-- Whether a node is a parameter or a field without a name that is a wildcard. -/
def Node.isBareDots (n : Node) : Bool := n.kind == .field && n.tree.wildcard?.isSome

/-- The place by which a node is ranked, unless that is the place of the wildcard which the node
is. -/
def Node.ownKey? (n : Node) : Option Pos := if n.isBareDots then none else n.rankKey?

/-- The places of the lexemes among some words. -/
def Word.places (ws : List Word) : List Pos := (lexemes ws).map (·.pos)

@[simp] theorem Word.places_append (vs ws : List Word) :
    places (vs ++ ws) = places vs ++ places ws := by
  rw [places, lexemes_append, List.map_append]
  rfl

@[simp] theorem Word.places_lexeme (l : Lexeme) (ws : List Word) :
    places (.lexeme l :: ws) = l.pos :: places ws := rfl

namespace Tree

/-- The places by which the nodes of a value are ranked. -/
def ownKeys (t : Tree) : List Pos := t.nodes.filterMap Node.ownKey?

/-- The first place of a value, if it has one. -/
def head (t : Tree) : List Pos := if t.start.isValid then [t.start] else []

theorem nodesAll_eq_flatMap (ts : List Tree) : nodesAll ts = ts.flatMap nodes := by
  induction ts with
  | nil => rfl
  | cons t ts ih => rw [nodesAll, ih, List.flatMap_cons]

theorem ownKeys_of_nodes {t : Tree} (h : t.nodes = []) : t.ownKeys = [] := by
  rw [ownKeys, h]
  rfl

theorem ownKeys_append (ts us : List Tree) :
    (list (ts ++ us)).ownKeys = (list ts).ownKeys ++ (list us).ownKeys := by
  rw [ownKeys, nodes_list, nodesAll_append, List.filterMap_append]
  rfl

theorem ownKeys_singleton (t : Tree) : (list [t]).ownKeys = t.ownKeys := by
  rw [ownKeys, nodes_list, nodesAll_singleton]
  rfl

theorem ownKeys_cons (t : Tree) (ts : List Tree) :
    (list (t :: ts)).ownKeys = t.ownKeys ++ (list ts).ownKeys := by
  rw [← ownKeys_singleton t, ← ownKeys_append]
  rfl

theorem ownKeys_node (k : Kind) (fs : List Tree) :
    (node k fs).ownKeys = (Node.ownKey? ⟨k, fs⟩).toList ++ (list fs).ownKeys := by
  rw [ownKeys, nodes_node, List.filterMap_cons, ownKeys, nodes_list]
  cases Node.ownKey? ⟨k, fs⟩ <;> rfl

theorem ownKeys_sublist {ts us : List Tree} (h : ts.Sublist us) :
    (list ts).ownKeys.Sublist (list us).ownKeys := by
  rw [ownKeys, ownKeys, nodes_list, nodes_list]
  exact (nodesAll_sublist h).filterMap _

theorem head_of_isValid {t : Tree} (h : t.start.isValid = true) : t.head = [t.start] := if_pos h

theorem head_of_not_isValid {t : Tree} (h : t.start.isValid = false) :
    t.head = [] := if_neg (by simp [h])

theorem head_pos_cons {p : Pos} (hp : p.isValid = true) (ts : List Tree) :
    (list (.pos p :: ts)).head = [p] := by
  rw [head, start, startAll, start, if_pos hp, if_pos hp]

theorem head_singleton (t : Tree) : (list [t]).head = t.head := by
  rw [head, start, startAll_singleton]
  rfl

theorem head_append (ts us : List Tree) :
    (list (ts ++ us)).head = if (startAll ts).isValid then (list ts).head else (list us).head := by
  rw [head, start, startAll_append]
  split
  · rename_i hvalid
    rw [head, start, if_pos hvalid]
  · rw [head, start]

/-- Values begin with the first place of some of them. -/
theorem head_append_sublist (ts us : List Tree) :
    (list (ts ++ us)).head.Sublist ((list ts).head ++ (list us).head) := by
  rw [head_append]
  split
  · exact List.sublist_append_left _ _
  · exact List.sublist_append_right _ _

theorem head_cons (t : Tree) (ts : List Tree) :
    (list (t :: ts)).head = if t.start.isValid then t.head else (list ts).head := by
  rw [← head_singleton t, ← startAll_singleton t, ← head_append]
  rfl

/-- The first two of some values have no more keys than all of them. -/
theorem ownKeys_targets_sublist (xs : List Tree) :
    (list [xs[0]?.getD nil, xs[1]?.getD nil]).ownKeys.Sublist (list xs).ownKeys := by
  match xs with
  | [] => exact .slnil
  | [x] =>
    have hnil : (list [nil]).ownKeys = [] := rfl
    change (list ([x] ++ [nil])).ownKeys.Sublist _
    rw [ownKeys_append, hnil, List.append_nil]
  | x :: y :: xs => exact ownKeys_sublist ((List.nil_sublist xs).cons_cons y |>.cons_cons x)

end Tree

/-! ### The keys of documented nodes -/

theorem Kind.fields_of_isDocumented {k : Kind} (h : k.isDocumented = true) :
    ∃ fs, k.fields = docField :: fs := by
  cases k <;> first | exact ⟨_, rfl⟩ | cases h

/-- A documented node is known by the first place behind the comment above it. -/
theorem Node.toList_docKey? {k : Kind} (doc : Tree) {ts : List Tree} (hk : k.isDocumented = true)
    (hlength : ts.length + 1 = k.fields.length) :
    (⟨k, doc :: ts⟩ : Node).docKey?.toList = (Tree.list ts).head := by
  obtain ⟨fields, hfields⟩ := Kind.fields_of_isDocumented hk
  have htail : ∀ f ∈ fields, f.slot ≠ .doc := by
    have hslots := k.slot_ne_doc
    rwa [hfields] at hslots
  have hzip : (fields.zip ts).filter (·.1.slot != .doc) = fields.zip ts :=
    List.filter_eq_self.mpr fun x hx => by simpa using htail x.1 (List.of_mem_zip hx).1
  have hvalues : (fields.zip ts).map (·.2.start) = ts.map Tree.start := by
    rw [show (fun x : Field × Tree => x.2.start) = Tree.start ∘ Prod.snd from rfl, ← List.map_map,
      List.map_snd_zip]
    rw [hfields, List.length_cons] at hlength
    omega
  have hfirst (ts : List Tree) : ((ts.map Tree.start).find? (·.isValid)).toList =
      (Tree.list ts).head := by
    induction ts with
    | nil => rfl
    | cons t ts ih =>
      rw [List.map_cons, List.find?_cons, Tree.head_cons, ← ih]
      cases hvalid : t.start.isValid with
      | true => rw [if_pos rfl, Tree.head_of_isValid hvalid]; rfl
      | false => rfl
  rw [← hfirst, ← hvalues, ← hzip, docKey?]
  dsimp only
  rw [hfields, List.zip_cons_cons, List.filter_cons_of_neg (by simp [Kind.docField])]

theorem Node.toList_rankKey? {k : Kind} (doc : Tree) {ts : List Tree} (hk : k.isDocumented = true)
    (hlength : ts.length + 1 = k.fields.length) :
    (⟨k, doc :: ts⟩ : Node).rankKey?.toList = (Tree.list ts).head := by
  have hdots : k ≠ .dots := by
    rintro rfl
    cases hk
  rw [rankKey?, if_neg hdots, if_pos hk, Node.toList_docKey? doc hk hlength]

/-! ### Parameter lists -/

namespace Rules

variable {es : List ParamEntry} {fs names pending : List Tree} {type : Tree}

theorem isBareDots_plainField (names : List Tree) (type : Tree) :
    (⟨.field, [.nil, .list names, type, .nil]⟩ : Node).isBareDots =
      (names.isEmpty && type.isKind .dots) := by
  cases names with
  | nil =>
    cases type with
    | node k fs =>
      change (if k = .dots then some (Tree.node k fs).start else none).isSome =
        (some k == some .dots)
      by_cases hk : k = .dots <;> simp [hk]
    | _ => rfl
  | cons => rfl

theorem ownKeys_plainField (names : List Tree) (type : Tree) :
    (plainField names type).ownKeys =
      (if names.isEmpty && type.isKind .dots then [] else (Tree.list (names ++ [type])).head) ++
        (Tree.list (names ++ [type])).ownKeys := by
  have hkeys : (Tree.list [.nil, .list names, type, .nil]).ownKeys =
      (Tree.list (names ++ [type])).ownKeys := by
    rw [Tree.ownKeys, Tree.ownKeys, Tree.nodes_list, Tree.nodes_list]
    exact congrArg _ (List.cons.inj (nodes_plainField names type)).2
  have hhead : (Tree.list [.list names, type, .nil]).head = (Tree.list (names ++ [type])).head := by
    have hstart := start_plainField names type
    rw [plainField, Tree.start, Tree.startAll_of_not_isValid rfl] at hstart
    rw [Tree.head, Tree.start, hstart]
    rfl
  rw [plainField, Tree.ownKeys_node, hkeys, Node.ownKey?, isBareDots_plainField]
  split
  · rfl
  · rw [Node.toList_rankKey? .nil rfl rfl, hhead]

/-- Names that wait for a type are known by their first place as those are that have a type of their
own. -/
theorem count_ownKeys_namedFields (h : namedFields pending es = .ok fs) (p : Pos) :
    (Tree.list fs).ownKeys.count p ≤ (Tree.list pending).head.count
      p + (Tree.list pending).ownKeys.count p +
      (Tree.list (es.map (·.field))).ownKeys.count p := by
  fun_induction namedFields pending es generalizing fs with
  | case1 =>
    cases h
    exact Nat.zero_le _
  | case2 => cases h
  | case3 pending name type es ih =>
    obtain ⟨gs, hgs, h⟩ := exists_of_bind_ok h
    cases h
    have hrest := ih hgs
    have hhead := (Tree.head_append_sublist pending [name, type]).count_le p
    have hfield : ParamEntry.field ⟨some name, type⟩ = plainField [name] type := rfl
    have hnames : pending ++ [name] ++ [type] = pending ++ [name, type] := List.append_assoc _ _ _
    have hempty : (pending ++ [name]).isEmpty = false := by simp
    rw [List.map_cons, hfield, Tree.ownKeys_cons, Tree.ownKeys_cons, ownKeys_plainField,
      ownKeys_plainField, hempty, hnames, Tree.ownKeys_append pending]
    simp only [List.count_append, List.isEmpty_cons, Bool.false_and, Bool.false_eq_true, if_false,
      List.singleton_append] at hhead ⊢
    have hnone : (Tree.list []).head.count p + (Tree.list []).ownKeys.count p = 0 := rfl
    omega
  | case4 pending type es hkind ih =>
    obtain ⟨gs, hgs, h⟩ := exists_of_bind_ok h
    cases h
    have hrest := ih hgs
    have hfield : ParamEntry.field ⟨none, type⟩ = plainField [] type := rfl
    rw [List.map_cons, hfield, Tree.ownKeys_cons, Tree.ownKeys_cons, List.count_append,
      List.count_append]
    omega
  | case5 pending type es hdots hkind ih =>
    have hrest := ih h
    have hhead := (Tree.head_append_sublist pending [type]).count_le p
    have hfield : ParamEntry.field ⟨none, type⟩ = plainField [] type := rfl
    rw [List.map_cons, hfield, Tree.ownKeys_cons, ownKeys_plainField, if_neg (by simpa using hdots)]
    rw [Tree.ownKeys_append pending] at hrest
    simp only [List.count_append, List.nil_append] at hrest hhead ⊢
    omega
  | case6 => cases h

theorem count_ownKeys_fieldsOfEntries (h : fieldsOfEntries es = .ok fs) (p : Pos) :
    (Tree.list fs).ownKeys.count p ≤ (Tree.list (es.map (·.field))).ownKeys.count p := by
  rcases namedFields_or_fields h with h | rfl
  · have hcount := count_ownKeys_namedFields h p
    have hnone : (Tree.list []).head.count p + (Tree.list []).ownKeys.count p = 0 := rfl
    omega
  · exact Nat.le_refl _

end Rules

/-! ### Beginnings -/

/-- Whether a lexeme has a place, and a comment group holds comments only. -/
def Word.Located : Word → Prop
  | .lexeme l => l.pos.isValid = true
  | .doc g => ∀ n ∈ g.tree.nodes, n.kind.isComment = true

/-- Whether the tree of every phrase of the sort has a place, or one of the fields has. -/
def Phrase.isPlaced : Phrase → Bool
  | .parts ps => ps.any Part.isPresent
  | s => s.isPresent

theorem Phrase.isPlaced_of_isPresent {s : Phrase} (h : s.isPresent = true) : s.isPlaced = true := by
  cases s with
  | parts ps => cases h
  | _ => exact h

/-- Whether a phrase of the sort begins with a token of a node that is not ranked, if it is not
empty. -/
def Phrase.isFresh : Phrase → Bool
  | .ident | .literal | .importName | .type | .typeLit | .funcType | .paramType | .fieldNames =>
    true
  | .opt s | .one s | .ended s | .more s => s.isFresh
  | _ => false

/-- Whether fields begin with a token that is recorded in one of them, or as a phrase does that
begins with a token of a node which is not ranked. -/
def Part.areFresh : List Part → Bool
  | .mark _ :: _ | .markIn _ :: _ => true
  | .const _ :: ps => areFresh ps
  | .sub s :: ps => s.isFresh && (s.isPresent || areFresh ps)
  | _ => false

/-- Whether a part is the comment above a node, or stands for a missing one. -/
def Part.isDoc : Part → Bool
  | .sub .doc | .const .nil => true
  | _ => false

/-- Whether a phrase or a stretch of fields begins with a token of a node that is not ranked inside
of it. -/
def Phrase.beginsFresh : Phrase → Bool
  | .parts ps => Part.areFresh ps
  | s => s.isFresh

theorem Phrase.beginsFresh_of_isFresh {s : Phrase} (h : s.isFresh = true) :
    s.beginsFresh = true := by
  cases s with
  | parts ps => cases h
  | _ => exact h

theorem Row.fresh {s : Phrase} {k : Kind} {ps : List Part} (h : Row s k ps)
    (hs : s.isFresh = true) :
    k.isDocumented = false ∧ Part.areFresh ps = true := by
  cases h <;> first | exact ⟨rfl, rfl⟩ | cases hs

theorem Row.ownKey?_eq_none {s : Phrase} {k : Kind} {ps : List Part} (h : Row s k ps)
    (hk : k.isDocumented = false) (fs : List Tree) : (⟨k, fs⟩ : Node).ownKey? = none := by
  simp [Node.ownKey?, Node.rankKey?, h.kind_ne_dots, hk]

theorem Covers.isFresh {s s' : Phrase} (h : Covers s s') (hs : s.isFresh = true) :
    s'.isFresh = true := by
  cases h <;> first | rfl | exact hs | cases hs

/-- A documented node begins with a fresh token behind its comment, unless it is a wildcard without
a name. -/
theorem Row.fresh_of_isDocumented {s : Phrase} {k : Kind} {ps : List Part} (h : Row s k ps)
    (hk : k.isDocumented = true) :
    (∃ ps', (ps = .sub .doc :: ps' ∨ ps = .const .nil :: ps') ∧ Part.areFresh ps' = true) ∨
      k = .field ∧ ps = [.const .nil, .const (.list []), .sub .dots, .const .nil] := by
  cases h <;> first
    | exact .inl ⟨_, .inl rfl, rfl⟩
    | exact .inl ⟨_, .inr rfl, rfl⟩
    | exact .inr ⟨rfl, rfl⟩
    | cases hk

namespace Derives

variable {d : Dialect} {s : Phrase} {ws : List Word} {t : Tree}

/-- Trees of sorts that are placed have a place. -/
theorem isValid_start_of_isPlaced (h : Derives d s ws t) (hs : s.isPlaced = true)
    (hws : ∀ w ∈ ws, w.Located) :
    t.start.isValid = true := by
  have left {vs us : List Word} (h : ∀ w ∈ vs ++ us, w.Located) : ∀ w ∈ vs, w.Located :=
    fun w hw => h w (List.mem_append_left _ hw)
  have right {vs us : List Word} (h : ∀ w ∈ vs ++ us, w.Located) : ∀ w ∈ us, w.Located :=
    fun w hw => h w (List.mem_append_right _ hw)
  have tail {v : Word} {us : List Word} (h : ∀ w ∈ v :: us, w.Located) : ∀ w ∈ us, w.Located :=
    fun w hw => h w (List.mem_cons_of_mem _ hw)
  have hsnoc {u : List Tree} {t : Tree} (ht : t.start.isValid = true) :
      (Tree.list (u ++ [t])).start.isValid = true := by
    rw [Tree.start, Tree.startAll_append, Tree.startAll_singleton]
    split <;> assumption
  have hcons {t : Tree} {ts : List Tree} (h : t.start.isValid = true ∨
      (Tree.list ts).start.isValid = true) :
      (Tree.list (t :: ts)).start.isValid = true := by
    rw [Tree.start, Tree.isValid_startAll_cons, Bool.or_eq_true]
    exact h
  have hleaf {l : Lexeme} {us : List Word} {ts : List Tree}
      (hws : ∀ w ∈ Word.lexeme l :: us, w.Located) :
      (Tree.list (.pos l.pos :: ts)).start.isValid = true :=
    hcons (.inl (hws _ List.mem_cons_self))
  induction h with
  | ident | literal | dots | period => exact hleaf hws
  | noDoc | doc | none | empty | endedNil | endedComma | linesNil | linesSemicolon | linesItem |
    partsNil => cases hs
  | cover hc _ ih =>
    exact ih (Phrase.isPlaced_of_isPresent (hc.isPresent (by cases hc <;> exact hs))) hws
  | node hr _ ih => exact ih hr.isPresent hws
  | behind _ _ ih => exact ih (Phrase.isPlaced_of_isPresent hs) (tail hws)
  | spread _ _ ih => exact ih rfl (left hws)
  | one _ _ ih => exact hsnoc (u := []) (ih (Phrase.isPlaced_of_isPresent hs) hws)
  | more _ _ _ _ ih => exact hsnoc (ih (Phrase.isPlaced_of_isPresent hs) (right hws))
  | firstName _ ih => exact hsnoc (u := []) (ih rfl hws)
  | nextName _ _ _ _ ih => exact hsnoc (ih rfl (tail (right hws)))
  | word _ _ ih | lineEnd _ _ ih => exact ih hs (tail hws)
  | noLineEnd _ ih => exact ih hs hws
  | mark | markIn => exact hleaf hws
  | unmarked _ ih => exact hcons (.inr (hcons (.inr (ih hs hws))))
  | const _ ih => exact hcons (.inr (ih hs hws))
  | sub _ _ ih₁ ih₂ =>
    rcases (Bool.or_eq_true _ _).mp hs with hs | hs
    · exact hcons (.inl (ih₁ (Phrase.isPlaced_of_isPresent hs) (left hws)))
    · exact hcons (.inr (ih₂ hs (right hws)))
  | args _ _ _ _ ih | targets _ _ _ ih => exact hcons (.inr (hcons (.inr (ih hs (right hws)))))
  | params _ _ _ _ ih => exact hcons (.inr (ih hs (right hws)))

end Derives

/-! ### No place is that of two nodes -/

/-- How often a place is that of ranked nodes in a tree, and how often of words. -/
structure Tree.Keyed (s : Phrase) (ws : List Word) (t : Tree) : Prop where
  keys : ∀ p, t.ownKeys.count p ≤ (Word.places ws).count p
  /-- A place is left over for the first one. -/
  fresh : s.beginsFresh = true → ∀ p, t.head.count p + t.ownKeys.count p ≤ (Word.places ws).count p
  /-- Behind the comment above a node, a place is left over for the first one. -/
  behindDoc : ∀ ps, s = .parts (.sub .doc :: ps) ∨ s = .parts (.const .nil :: ps) →
    Part.areFresh ps = true →
    ∀ p, (list t.items.tail).head.count p + t.ownKeys.count p ≤ (Word.places ws).count p

namespace Tree.Keyed

variable {s s' s'' : Phrase} {vs ws : List Word} {t : Tree} {ts : List Tree}

/-- A sort that is no stretch of fields. -/
theorem of_tree (hs : s.isParts = false) (hkeys : ∀ p, t.ownKeys.count p ≤ (Word.places ws).count p)
    (hfresh : s.isFresh = true → ∀ p, t.head.count p + t.ownKeys.count p ≤
      (Word.places ws).count p) :
    t.Keyed s ws := by
  refine ⟨hkeys, fun h => hfresh ?_, fun ps h => ?_⟩
  · cases s with
    | parts ps => cases hs
    | _ => exact h
  · rcases h with rfl | rfl <;> cases hs

/-- The same tree as a phrase of another sort, and perhaps more words. -/
theorem mono (h : t.Keyed s' vs) (hs : s.isParts = false) (hsub : vs.Sublist ws)
    (hfresh : s.isFresh = true → s'.beginsFresh = true) : t.Keyed s ws := by
  have hplaces (p : Pos) : (Word.places vs).count p ≤ (Word.places ws).count p :=
    ((hsub.filterMap _).map _).count_le p
  exact of_tree hs (fun p => Nat.le_trans (h.keys p) (hplaces p)) fun hs p =>
    Nat.le_trans (h.fresh (hfresh hs) p) (hplaces p)

/-- A tree without nodes and places. -/
theorem silent (hs : s.isParts = false) (hnodes : t.nodes = []) (hstart : t.start.isValid = false) :
    t.Keyed s ws := by
  refine of_tree hs (fun p => ?_) fun _ p => ?_
  · rw [ownKeys_of_nodes hnodes]
    exact Nat.zero_le _
  · rw [ownKeys_of_nodes hnodes, head_of_not_isValid hstart]
    exact Nat.zero_le _

/-- A node of a single token that is not ranked. -/
theorem leaf {l : Lexeme} {k : Kind} {fs : List Tree} (hs : s.isParts = false)
    (hrank : (⟨k, .pos l.pos :: fs⟩ : Node).rankKey? = none) (hnodes : nodesAll fs = [])
    (hplaces : startAll fs = .none) : (node k (.pos l.pos :: fs)).Keyed s [.lexeme l] := by
  have hkeys : (node k (.pos l.pos :: fs)).ownKeys = [] := by
    have hfields : (list (.pos l.pos :: fs)).ownKeys = [] := by
      rw [ownKeys, nodes_list, nodesAll, hnodes]
      rfl
    rw [ownKeys_node, hfields, Node.ownKey?, hrank, ite_self]
    rfl
  have hhead : (node k (.pos l.pos :: fs)).head.Sublist [l.pos] := by
    rw [head, start, startAll, hplaces, start]
    cases hvalid : l.pos.isValid with
    | true =>
      rw [if_pos rfl, if_pos hvalid]
    | false => exact List.nil_sublist _
  refine of_tree hs (fun p => ?_) fun _ p => ?_
  · rw [hkeys]
    exact Nat.zero_le _
  · rw [hkeys]
    exact hhead.count_le p

/-- A phrase as the only item of a list. -/
theorem one (h : t.Keyed s' ws) (hs : s.isParts = false)
    (hfresh : s.isFresh = true → s'.beginsFresh = true) :
    (list [t]).Keyed s ws := by
  refine of_tree hs (fun p => ?_) fun hs p => ?_
  · rw [ownKeys_singleton]
    exact h.keys p
  · rw [ownKeys_singleton, head_singleton]
    exact h.fresh (hfresh hs) p

/-- One item more. -/
theorem snoc (hts : (list ts).Keyed s' vs) (ht : t.Keyed s'' ws) (hs : s.isParts = false)
    (hfresh : s.isFresh = true → s'.beginsFresh = true ∧ s''.beginsFresh = true) :
    (list (ts ++ [t])).Keyed s (vs ++ ws) := by
  refine of_tree hs (fun p => ?_) fun hs p => ?_
  · have h₁ := hts.keys p
    have h₂ := ht.keys p
    rw [ownKeys_append, ownKeys_singleton, Word.places_append, List.count_append, List.count_append]
    omega
  · have h₁ := hts.fresh (hfresh hs).1 p
    have h₂ := ht.fresh (hfresh hs).2 p
    have hhead := (head_append_sublist ts [t]).count_le p
    rw [head_singleton, List.count_append] at hhead
    rw [ownKeys_append, ownKeys_singleton, Word.places_append, List.count_append, List.count_append]
    omega

/-- The fields `u` of one part more, which stand for the words `v`. -/
theorem part {v : List Word} {p : Part} {ps : List Part} (h : (list ts).Keyed (.parts ps) ws)
    (u : List Tree) (hu : ∀ q, (list u).ownKeys.count q ≤ (Word.places v).count q)
    (hfresh : Part.areFresh (p :: ps) = true →
      (∀ q, (list u).head.count q + (list u).ownKeys.count q ≤ (Word.places v).count q) ∧
        ((startAll u).isValid = false → Part.areFresh ps = true))
    (hdoc : p.isDoc = true → u.length = 1) :
    (list (u ++ ts)).Keyed (.parts (p :: ps)) (v ++ ws) := by
  refine ⟨fun q => ?_, fun hs q => ?_, fun ps' hps hs q => ?_⟩
  · have h₁ := hu q
    have h₂ := h.keys q
    rw [ownKeys_append, Word.places_append, List.count_append, List.count_append]
    omega
  · obtain ⟨hhere, hrest⟩ := hfresh hs
    have h₁ := hhere q
    rw [head_append, ownKeys_append, Word.places_append, List.count_append, List.count_append]
    split
    · have h₂ := h.keys q
      omega
    · rename_i hinvalid
      have h₂ := h.fresh (hrest (by simpa using hinvalid)) q
      omega
  · have hlength : u.length = 1 := hdoc (by rcases hps with hps | hps <;> cases hps <;> rfl)
    obtain ⟨t, rfl⟩ := List.length_eq_one_iff.mp hlength
    obtain rfl : ps' = ps := by rcases hps with hps | hps <;> cases hps <;> rfl
    have h₁ := hu q
    have h₂ := h.fresh hs q
    rw [ownKeys_append, Word.places_append, List.count_append, List.count_append]
    simp only [List.singleton_append, items, List.tail_cons]
    omega

/-- A part of which nothing is recorded. -/
theorem unrecorded {v : List Word} {p : Part} {ps : List Part} (h : (list ts).Keyed (.parts ps) ws)
    (hp : Part.areFresh (p :: ps) = false) (hdoc : p.isDoc = false) :
    (list ts).Keyed (.parts (p :: ps)) (v ++ ws) := by
  refine part h [] (fun _ => Nat.zero_le _) (fun hfresh => ?_) fun h => ?_
  · rw [hp] at hfresh
    cases hfresh
  · rw [hdoc] at h
    cases h

end Tree.Keyed

namespace Derives

variable {d : Dialect} {s : Phrase} {ws : List Word} {t : Tree}

theorem kind_dots (h : Derives d .dots ws t) : t.isKind .dots = true := by
  cases h with
  | dots => rfl
  | cover hc => cases hc
  | node hr => cases hr

/-- A place is left over for a node of a row. -/
theorem count_ownKeys_node {k : Kind} {ps : List Part} {ts : List Tree} (hr : Row s k ps)
    (hp : Derives d (.parts ps) ws (.list ts)) (h : Tree.Keyed (.parts ps) ws (.list ts))
    (p : Pos) :
    (Tree.node k ts).ownKeys.count p ≤ (Word.places ws).count p := by
  have hkeys := h.keys p
  rw [Tree.ownKeys_node, List.count_append]
  cases hk : k.isDocumented with
  | false =>
    rw [hr.ownKey?_eq_none hk]
    simpa using hkeys
  | true =>
    obtain ⟨ps, hps, hfresh⟩ | ⟨rfl, rfl⟩ := hr.fresh_of_isDocumented hk
    · have hcount := h.behindDoc ps (by rcases hps with rfl | rfl <;> simp) hfresh p
      have hlength := hp.length_parts.trans hr.arity
      obtain ⟨doc, ts, rfl⟩ : ∃ doc ts', ts = doc :: ts' := by
        rcases hps with rfl | rfl
        · obtain ⟨_, _, doc, ts, -, rfl, -, -⟩ := hp.of_sub
          exact ⟨doc, ts, rfl⟩
        · obtain ⟨ts, rfl, -⟩ := hp.of_const
          exact ⟨.nil, ts, rfl⟩
      have hkey := Node.toList_rankKey? doc hk hlength
      rw [Node.ownKey?]
      split
      · simpa using hkeys
      · rw [hkey]
        exact hcount
    · -- the place of the wildcard is that of the field
      obtain ⟨ts, rfl, h₁⟩ := hp.of_const
      obtain ⟨ts, rfl, h₂⟩ := h₁.of_const
      obtain ⟨_, _, t, ts, -, rfl, ht, h₃⟩ := h₂.of_sub
      obtain ⟨ts, rfl, h₄⟩ := h₃.of_const
      obtain rfl : ts = [] := List.length_eq_zero_iff.mp h₄.length_parts
      have hbare : (⟨.field, [.nil, .list [], t, .nil]⟩ : Node).isBareDots = true := by
        rw [Rules.isBareDots_plainField]
        exact ht.kind_dots
      rw [Node.ownKey?, if_pos hbare]
      simpa using hkeys

/-- **In a phrase no place is that of more ranked nodes than words.** -/
theorem keyed (h : Derives d s ws t) (hbare : s.isBare = true) (hws : ∀ w ∈ ws, w.Located) :
    t.Keyed s ws := by
  have left {vs us : List Word} (h : ∀ w ∈ vs ++ us, w.Located) : ∀ w ∈ vs, w.Located :=
    fun w hw => h w (List.mem_append_left _ hw)
  have right {vs us : List Word} (h : ∀ w ∈ vs ++ us, w.Located) : ∀ w ∈ us, w.Located :=
    fun w hw => h w (List.mem_append_right _ hw)
  have tail {v : Word} {us : List Word} (h : ∀ w ∈ v :: us, w.Located) : ∀ w ∈ us, w.Located :=
    fun w hw => h w (List.mem_cons_of_mem _ hw)
  -- a token that is recorded comes first
  have hmark {l : Lexeme} {ts : List Tree} {P : Prop} (hl : l.pos.isValid = true)
      (hnodes : Tree.nodesAll ts = []) :
      (∀ q, (Tree.list (.pos l.pos :: ts)).head.count
        q + (Tree.list (.pos l.pos :: ts)).ownKeys.count q ≤ (Word.places [.lexeme l]).count q) ∧
        ((Tree.startAll (.pos l.pos :: ts)).isValid = false → P) := by
    have hkeys : (Tree.list (.pos l.pos :: ts)).ownKeys = [] := Tree.ownKeys_of_nodes hnodes
    refine ⟨fun q => ?_, fun hinvalid => ?_⟩
    · rw [Tree.head_pos_cons hl, hkeys]
      exact Nat.le_refl _
    · rw [Tree.isValid_startAll_cons, show (Tree.pos l.pos).start = l.pos from rfl, hl] at hinvalid
      cases hinvalid
  -- what is no stretch of fields, is not fresh or is no comment above a node
  have never {P : Prop} (h : false = true) : P := absurd h Bool.false_ne_true
  induction h with
  | ident | literal | period => exact .leaf rfl rfl rfl rfl
  | @dots l _ hl =>
    have hvalid : l.pos.isValid = true := hws _ List.mem_cons_self
    have hstart : (⟨.dots, [.pos l.pos]⟩ : Node).start = l.pos := if_pos hvalid
    have hkeys : (Tree.dots l.pos).ownKeys = [l.pos] := by
      rw [Tree.dots, Tree.ownKeys_node]
      exact congrArg (fun p => [p]) hstart
    exact .of_tree rfl (fun p => by rw [hkeys]; exact Nat.le_refl _) never
  | noDoc | none | empty | endedNil | linesNil => exact .silent rfl rfl rfl
  | partsNil => exact ⟨fun _ => Nat.zero_le _, by rintro ⟨⟩, by rintro ps (h | h) <;> cases h⟩
  | doc g =>
    have hkeys : g.tree.ownKeys = [] := List.filterMap_eq_nil_iff.mpr fun n hn => by
      have hcomment := hws _ List.mem_cons_self n hn
      obtain ⟨k, fs⟩ := n
      cases k <;> first | rfl | cases hcomment
    refine .of_tree rfl (fun p => ?_) never
    rw [hkeys]
    exact Nat.zero_le _
  | cover hc _ ih =>
    exact (ih (hc.isBare hbare) hws).mono (by cases hc <;> rfl) (.refl _) fun hs =>
      Phrase.beginsFresh_of_isFresh (hc.isFresh hs)
  | node hr hp ih =>
    have hfields := ih (hr.isBare hbare) hws
    refine .of_tree (by cases hr <;> rfl) (hp.count_ownKeys_node hr hfields) fun hs p => ?_
    obtain ⟨hk, hfresh⟩ := hr.fresh hs
    rw [Tree.ownKeys_node, hr.ownKey?_eq_none hk]
    exact hfields.fresh hfresh p
  | behind _ _ ih =>
    exact (ih (Phrase.isBare_of_isProper hbare) (tail hws)).mono rfl
      (List.sublist_cons_self _ _) never
  | spread _ _ ih => exact (ih rfl (left hws)).mono rfl (List.sublist_append_left _ _) never
  | one _ _ ih =>
    exact (ih (Phrase.isBare_of_isProper hbare) hws).one rfl fun hs =>
      Phrase.beginsFresh_of_isFresh hs
  | endedComma _ _ ih => exact (ih hbare (left hws)).mono rfl (List.sublist_append_left _ _) id
  | linesSemicolon _ _ ih =>
    exact (ih hbare (left hws)).mono rfl (List.sublist_append_left _ _) never
  | more _ _ _ ih₁ ih₂ =>
    exact (ih₁ hbare (left hws)).snoc (ih₂ (Phrase.isBare_of_isProper hbare) (right hws)) rfl
      fun hs => ⟨hs, Phrase.beginsFresh_of_isFresh hs⟩
  | linesItem _ _ _ ih₁ ih₂ =>
    exact (ih₁ hbare (left hws)).snoc (ih₂ (Phrase.isBare_of_isProper hbare) (right hws)) rfl never
  | firstName _ ih => exact (ih rfl hws).one rfl fun _ => rfl
  | nextName _ _ _ ih₁ ih₂ =>
    have hlast := ih₂ rfl (tail (right hws))
    exact (ih₁ rfl (left hws)).snoc (hlast.mono (s := .ident) rfl (List.sublist_cons_self _ _) id)
      rfl
      fun _ => ⟨rfl, rfl⟩
  | @word _ _ l _ _ _ _ ih | @lineEnd _ l _ _ _ _ ih =>
    exact (ih hbare (tail hws)).unrecorded (v := [.lexeme l]) rfl rfl
  | noLineEnd _ ih => exact (ih hbare hws).unrecorded (v := []) rfl rfl
  | @mark _ _ l _ _ _ _ ih =>
    exact (ih hbare (tail hws)).part (v := [.lexeme l]) [.pos l.pos] (fun _ => Nat.zero_le _)
      (fun _ => hmark (hws _ List.mem_cons_self) rfl) never
  | @markIn _ _ l _ _ _ _ ih =>
    exact (ih hbare (tail hws)).part (v := [.lexeme l]) [.pos l.pos, .tok l.token]
      (fun _ => Nat.zero_le _)
      (fun _ => hmark (hws _ List.mem_cons_self) rfl) never
  | unmarked _ ih =>
    exact (ih hbare hws).part (v := []) [.pos .none, .tok .illegal]
      (fun _ => Nat.zero_le _) never never
  | @const t _ _ _ _ ih =>
    obtain ⟨hconst, hrest⟩ := (Bool.and_eq_true _ _).mp hbare
    obtain ⟨hnodes, hpositions, -⟩ := Part.isBare_const hconst
    have hstart : t.start.isValid = false := by rw [Tree.start_eq_head, hpositions]; rfl
    have hhere : (Tree.list [t]).Keyed .ident [] :=
      Tree.Keyed.one (.silent (s := .ident) rfl hnodes hstart) rfl id
    exact (ih hrest hws).part (v := []) [t] hhere.keys (fun hfresh => ⟨hhere.fresh rfl,
      fun _ => hfresh⟩)
      fun _ => rfl
  | @sub s _ _ _ t _ ht _ ih₁ ih₂ =>
    obtain ⟨hproper, hrest⟩ := (Bool.and_eq_true _ _).mp hbare
    have hhere := (ih₁ (Phrase.isBare_of_isProper hproper) (left hws)).one (s := .one s) rfl
      fun hs => Phrase.beginsFresh_of_isFresh hs
    refine (ih₂ hrest (right hws)).part [t] hhere.keys (fun hfresh => ?_) fun _ => rfl
    obtain ⟨hs, hnext⟩ := (Bool.and_eq_true _ _).mp hfresh
    refine ⟨hhere.fresh hs, fun hinvalid => ((Bool.or_eq_true _ _).mp hnext).resolve_left
      fun hpresent => ?_⟩
    rw [Tree.startAll_singleton,
      ht.isValid_start_of_isPlaced (Phrase.isPlaced_of_isPresent hpresent) (left hws)] at hinvalid
    cases hinvalid
  | @args _ _ _ xs _ p _ _ _ ih₁ ih₂ =>
    refine (ih₂ hbare (right hws)).part [.list xs, .pos p] (fun q => ?_) never never
    rw [Tree.ownKeys_cons, show (Tree.list [.pos p]).ownKeys = [] from rfl, List.append_nil]
    exact (ih₁ rfl (left hws)).keys q
  | @targets _ _ _ xs _ _ _ ih₁ ih₂ =>
    refine (ih₂ hbare (right hws)).part [xs[0]?.getD .nil, xs[1]?.getD .nil]
      (fun q => ?_) never never
    exact Nat.le_trans ((Tree.ownKeys_targets_sublist xs).count_le q) ((ih₁ rfl (left hws)).keys q)
  | @params _ _ _ _ fs _ _ hfields _ ih₁ ih₂ =>
    refine (ih₂ hbare (right hws)).part [.list fs] (fun q => ?_) never never
    rw [Tree.ownKeys_singleton]
    exact Nat.le_trans (Rules.count_ownKeys_fieldsOfEntries hfields q) ((ih₁ rfl (left hws)).keys q)

end Derives

/-! ### Fragments -/

/-- **No two nodes of a fragment are ranked by one place**, where wildcards without a name count
once. -/
theorem nodup_ownKeys_of_parseFragment {d : Dialect} {cs : List Char} {f : Fragment}
    (h : parseFragment d cs = .ok f) :
    (Tree.list f.trees).ownKeys.Nodup := by
  obtain ⟨scan, groups, hscan, hgroups, hfragment⟩ := exists_of_parseFragment h
  obtain ⟨vs, ws, c₁, c₂, run₁, run₂, himports, hspelled⟩ := hfragment.words
  obtain ⟨s, us, c', run₃, hs, hbody⟩ := hspelled.exists_words
  obtain ⟨ps, hsplits, hscans⟩ := Scan.scans_of_ofText hscan
  have hpieces (p : Piece) (hp : p ∈ ps) := hsplits.text_ne_nil hp
  have run := run₁.trans (run₂.trans run₃)
  have hrest : scan.lexemes = Word.lexemes (vs ++ (ws ++ us)) ++ c'.rest := run.rest_eq
  have hlocated : ∀ w ∈ ws ++ us, w.Located := fun w hw => by
    cases w with
    | lexeme l =>
      have hl : l ∈ scan.lexemes := by
        rw [hrest, Word.lexemes_append]
        exact List.mem_append_left _ (List.mem_append_right _ (Word.mem_lexemes.mpr hw))
      have hle := hscans.le_pos hl
      rw [Pos.le_def] at hle
      simp only [Word.Located, Pos.atOffset, Pos.isValid, bne_iff_ne] at hle ⊢
      omega
    | doc g =>
      obtain ⟨ds, line, -, -, rfl⟩ := hgroups.exists_comments ((run₂.trans run₃).mem_groups hw)
      exact CommentGroup.isComment_nodes ds line
  have hnodup : (Word.places (ws ++ us)).Nodup := by
    have hpairwise := hscans.pairwise_pos hpieces
    rw [hrest, Word.lexemes_append, List.append_assoc] at hpairwise
    have hlexemes := (List.pairwise_append.mp (List.pairwise_append.mp hpairwise).2.1).1
    refine List.pairwise_map.mpr (hlexemes.imp_of_mem fun _ hm hlt heq => ?_)
    have hmem := Word.lexemes_append vs _ ▸ List.mem_append_right _ hm
    have hlt := hlt (run.ne_eof (hscans.ended hsplits.allSpelled) _ hmem)
    rw [heq] at hlt
    exact absurd hlt (Nat.lt_irrefl _)
  have hpackage : (Tree.list (f.package.map (·.2)).toList).ownKeys = [] := by
    cases hx : f.package with
    | none => rfl
    | some x =>
      obtain ⟨p, name, hname⟩ := hfragment.package x hx
      change (Tree.list [x.2]).ownKeys = []
      rw [hname]
      rfl
  have hbody := hbody.keyed (Phrase.isBare_of_isProper hs) fun w hw => hlocated w
    (List.mem_append_right _ hw)
  have himports := himports.keyed rfl fun w hw => hlocated w (List.mem_append_left _ hw)
  refine List.nodup_iff_count.mpr fun p => ?_
  have hone := List.nodup_iff_count.mp hnodup p
  have h₁ := himports.keys p
  have h₂ := hbody.keys p
  rw [f.trees_eq, Tree.ownKeys_append, hpackage, List.nil_append, Tree.ownKeys_append,
    List.count_append]
  rw [Word.places_append, List.count_append] at hone
  omega

end Graft
