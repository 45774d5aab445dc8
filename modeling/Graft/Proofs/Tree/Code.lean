import Graft.Proofs.Tree.SameCode

/-! # Trees without their places

`Tree.code` keeps of every position only whether it names a byte.  What is left of a tree is the
code it spells: trees of the same code are equal without their places (`Tree.SameCode.code_eq`).

Every observation of a node commutes with moving the positions inside it (`Node.get_mapPos` and the
lemmas below it), so whatever reads a tree through these observations can be compared with what it
reads from the moved tree.
-/

namespace Graft

namespace Tree

variable {f : Pos → Pos}

theorem mapPosAll_eq_map (f : Pos → Pos) (ts : List Tree) : mapPosAll f ts = ts.map (mapPos f) := by
  induction ts with
  | nil => rfl
  | cons t ts ih => rw [mapPosAll, List.map_cons, ih]

@[simp] theorem mapPos_nil : nil.mapPos f = nil := rfl

@[simp] theorem isNil_mapPos (t : Tree) : (t.mapPos f).isNil = t.isNil := by cases t <;> rfl

@[simp] theorem kind?_mapPos (t : Tree) : (t.mapPos f).kind? = t.kind? := by cases t <;> rfl

@[simp] theorem items_mapPos (t : Tree) : (t.mapPos f).items = t.items.map (mapPos f) := by
  cases t with
  | list ts => exact mapPosAll_eq_map f ts
  | _ => rfl

theorem asPos_mapPos (hf : f .none = .none) (t : Tree) : (t.mapPos f).asPos = f t.asPos := by
  cases t with
  | pos p => rfl
  | _ => exact hf.symm

mutual

@[simp] theorem height_mapPos (t : Tree) : (t.mapPos f).height = t.height := by
  match t with
  | nil | pos _ | str _ | tok _ => rfl
  | list ts | node _ ts => exact congrArg (· + 1) (heightAll_mapPosAll ts)

theorem heightAll_mapPosAll (ts : List Tree) : heightAll (mapPosAll f ts) = heightAll ts := by
  match ts with
  | [] => rfl
  | t :: ts => rw [mapPosAll, heightAll, heightAll, height_mapPos t, heightAll_mapPosAll ts]

end

end Tree

namespace Node

variable {f : Pos → Pos}

/-- The node with every position inside replaced by what `f` makes of it. -/
def mapPos (f : Pos → Pos) (n : Node) : Node := ⟨n.kind, n.fields.map (Tree.mapPos f)⟩

theorem tree_mapPos (n : Node) : (n.mapPos f).tree = n.tree.mapPos f :=
  congrArg (Tree.node n.kind) (Tree.mapPosAll_eq_map f n.fields).symm

@[simp] theorem kind_mapPos (n : Node) : (n.mapPos f).kind = n.kind := rfl

@[simp] theorem get_mapPos (n : Node) (l : Label) : (n.mapPos f).get l = (n.get l).mapPos f := by
  unfold get
  rw [kind_mapPos]
  split
  · rename_i i _
    rw [mapPos, List.getElem?_map]
    cases n.fields[i]? <;> rfl
  · rfl

@[simp] theorem list_mapPos (n : Node) (l : Label) :
    (n.mapPos f).list l = (n.list l).map (Tree.mapPos f) := by
  rw [list, get_mapPos, Tree.items_mapPos, list]

@[simp] theorem str?_mapPos (n : Node) (l : Label) : (n.mapPos f).str? l = n.str? l := by
  rw [str?, get_mapPos, str?]
  cases n.get l <;> rfl

@[simp] theorem tok?_mapPos (n : Node) (l : Label) : (n.mapPos f).tok? l = n.tok? l := by
  rw [tok?, get_mapPos, tok?]
  cases n.get l <;> rfl

theorem posOf_mapPos (hf : f .none = .none) (n : Node) (l : Label) :
    (n.mapPos f).posOf l = f (n.posOf l) := by
  rw [posOf, get_mapPos, Tree.asPos_mapPos hf, posOf]

end Node

@[simp] theorem Tree.node?_mapPos {f : Pos → Pos} (t : Tree) :
    (t.mapPos f).node? = t.node?.map (Node.mapPos f) := by
  cases t with
  | node k fs => exact congrArg (fun ts => some (Node.mk k ts)) (mapPosAll_eq_map f fs)
  | _ => rfl

@[simp] theorem Node.node?_mapPos {f : Pos → Pos} (n : Node) (l : Label) :
    (n.mapPos f).node? l = (n.node? l).map (Node.mapPos f) := by
  rw [node?, get_mapPos, Tree.node?_mapPos, node?]

/-! ### Code -/

/-- Of a position only whether it names a byte: the first one of a text, or nowhere. -/
def Pos.presence (p : Pos) : Pos := if p.isValid then .atOffset 0 else .none

@[simp] theorem Pos.isValid_presence (p : Pos) : p.presence.isValid = p.isValid := by
  unfold presence
  split
  · rename_i h
    exact h.symm
  · rename_i h
    exact (Bool.not_eq_true _ ▸ h).symm

@[simp] theorem Pos.presence_none : Pos.none.presence = .none := rfl

theorem Pos.presence_eq_iff {p q : Pos} : p.presence = q.presence ↔ p.isValid = q.isValid := by
  constructor
  · intro h
    rw [← isValid_presence p, h, isValid_presence]
  · intro h
    rw [presence, h, presence]

namespace Tree

/-- The code a value spells, wherever it stands. -/
def code (t : Tree) : Tree := t.mapPos Pos.presence

mutual

theorem SameCode.code_eq {t u : Tree} (h : t.SameCode u) : t.code = u.code := by
  match t, u, h.builtAlike with
  | _, _, .nil | _, _, .str _ | _, _, .tok _ => rfl
  | _, _, .pos hp => exact congrArg pos (Pos.presence_eq_iff.mpr hp)
  | _, _, .list hts => exact congrArg list (codeAll_eq hts)
  | _, _, .node k hts => exact congrArg (node k) (codeAll_eq hts)

theorem codeAll_eq {ts us : List Tree} (h : SameCodeAll ts us) :
    mapPosAll Pos.presence ts = mapPosAll Pos.presence us := by
  match ts, us, h with
  | [], [], _ => rfl
  | t :: ts, u :: us, .cons hhead htail =>
    exact List.cons_eq_cons.mpr ⟨SameCode.code_eq hhead, codeAll_eq htail⟩

end

mutual

/-- What is moved to other places is the same code. -/
theorem sameCode_mapPos (hf : ∀ p, (f p).isValid = p.isValid) (t : Tree) :
    t.SameCode (t.mapPos f) := by
  rw [sameCode_iff_builtAlike]
  match t with
  | nil => exact .nil
  | pos p => exact .pos (hf p).symm
  | str s => exact .str s
  | tok tk => exact .tok tk
  | list ts => exact .list (sameCodeAll_mapPosAll hf ts)
  | node k fs => exact .node k (sameCodeAll_mapPosAll hf fs)

theorem sameCodeAll_mapPosAll (hf : ∀ p, (f p).isValid = p.isValid) (ts : List Tree) :
    SameCodeAll ts (mapPosAll f ts) := by
  match ts with
  | [] => exact .nil
  | t :: ts => exact .cons (sameCode_mapPos hf t) (sameCodeAll_mapPosAll hf ts)

end

end Tree

end Graft
