import Graft.Match.Pattern
import Graft.Proofs.Tree.SameCode

/-! # What a literal pattern compares

A further occurrence of a metavariable is compared with the first by a literal pattern.  Such a
pattern leaves out two things: the comments above nodes, and all positions.  So the two values have
the same kinds, strings and tokens everywhere (`Pattern.sameShape_of_replays`), but a token whose
presence is told by its position alone, such as the `...` behind the arguments of a call, may be
there in one and missing in the other.  Whether values of the same shape spell the same code is up
to these tokens (`Tree.sameCode_iff_presence`).
-/

namespace Graft

namespace Tree

/-! ### Shape and presence -/

mutual

/-- A value without the comments above its nodes. -/
def undocumented : Tree → Tree
  | list ts => list (undocumentedAll ts)
  | node k fs => node k (undocumentedFields k.fields fs)
  | t => t

/-- A list of values without the comments above their nodes. -/
def undocumentedAll : List Tree → List Tree
  | [] => []
  | t :: ts => t.undocumented :: undocumentedAll ts

/-- The fields of a node without the comment above it and those above its nodes. -/
def undocumentedFields : List Field → List Tree → List Tree
  | f :: fs, t :: ts => (if f.slot = .doc then nil else t.undocumented) :: undocumentedFields fs ts
  | _, _ => []

end

/-- A value with every position taken away. -/
def unplaced (t : Tree) : Tree := t.mapPos fun _ => .none

/-- Whether two values agree in all but positions and the comments above nodes. -/
def SameShape (t u : Tree) : Prop := t.undocumented.unplaced = u.undocumented.unplaced

mutual

/-- Which of the tokens that a value records by position are there, in source order. -/
def presence : Tree → List Bool
  | pos p => [p.isValid]
  | list ts => presenceAll ts
  | node _ fs => presenceAll fs
  | _ => []

/-- Which of the tokens that a list of values records by position are there. -/
def presenceAll : List Tree → List Bool
  | [] => []
  | t :: ts => t.presence ++ presenceAll ts

end

mutual

theorem length_presence_mapPos (f : Pos → Pos) (t : Tree) :
    (t.mapPos f).presence.length = t.presence.length := by
  match t with
  | nil | pos _ | str _ | tok _ => rfl
  | list ts | node _ ts => exact length_presenceAll_mapPosAll f ts

theorem length_presenceAll_mapPosAll (f : Pos → Pos) (ts : List Tree) :
    (presenceAll (mapPosAll f ts)).length = (presenceAll ts).length := by
  match ts with
  | [] => rfl
  | t :: ts =>
    rw [mapPosAll, presenceAll, presenceAll, List.length_append, List.length_append,
      length_presence_mapPos f t, length_presenceAll_mapPosAll f ts]

end

theorem length_presence_eq {t u : Tree} (h : t.unplaced = u.unplaced) :
    t.presence.length = u.presence.length := by
  rw [← length_presence_mapPos (fun _ => .none) t, ← length_presence_mapPos (fun _ => .none) u]
  exact congrArg (fun t => t.presence.length) h

mutual

theorem SameCode.unplaced_eq {t u : Tree} (h : t.SameCode u) :
    t.unplaced = u.unplaced ∧ t.presence = u.presence := by
  match t, u, h.builtAlike with
  | _, _, .nil | _, _, .str _ | _, _, .tok _ => exact ⟨rfl, rfl⟩
  | _, _, .pos hp => exact ⟨rfl, by rw [presence, presence, hp]⟩
  | _, _, .list hts =>
    obtain ⟨hunplaced, hpresence⟩ := mapPosAll_eq_of_sameCodeAll hts
    exact ⟨congrArg list hunplaced, hpresence⟩
  | _, _, .node k hts =>
    obtain ⟨hunplaced, hpresence⟩ := mapPosAll_eq_of_sameCodeAll hts
    exact ⟨congrArg (node k) hunplaced, hpresence⟩

theorem mapPosAll_eq_of_sameCodeAll {ts us : List Tree} (h : SameCodeAll ts us) :
    mapPosAll (fun _ => .none) ts = mapPosAll (fun _ => .none) us ∧
      presenceAll ts = presenceAll us := by
  match ts, us, h with
  | [], [], _ => exact ⟨rfl, rfl⟩
  | t :: ts, u :: us, .cons hhead htail =>
    obtain ⟨hunplaced, hpresence⟩ := SameCode.unplaced_eq hhead
    obtain ⟨hunplacedAll, hpresenceAll⟩ := mapPosAll_eq_of_sameCodeAll htail
    exact ⟨List.cons_eq_cons.mpr ⟨hunplaced, hunplacedAll⟩, by
      rw [presenceAll, presenceAll, hpresence, hpresenceAll]⟩

end

mutual

theorem sameCode_of_presence {t u : Tree} (h : t.unplaced = u.unplaced)
    (hp : t.presence = u.presence) :
    t.SameCode u := by
  match t, u with
  | nil, nil => exact .refl _
  | str s, str _ | tok s, tok _ =>
    cases h
    exact .refl _
  | pos p, pos q => exact BuiltAlike.sameCode (.pos (List.cons.inj hp).1)
  | list ts, list us => exact BuiltAlike.sameCode (.list (sameCodeAll_of_presence (list.inj h) hp))
  | node k ts, node l us =>
    obtain ⟨rfl, hts⟩ := node.inj h
    exact BuiltAlike.sameCode (.node k (sameCodeAll_of_presence hts hp))

theorem sameCodeAll_of_presence {ts us : List Tree}
    (h : mapPosAll (fun _ => .none) ts = mapPosAll (fun _ => .none) us)
    (hp : presenceAll ts = presenceAll us) : SameCodeAll ts us := by
  match ts, us with
  | [], [] => exact .nil
  | t :: ts, u :: us =>
    obtain ⟨hhead, htail⟩ := List.cons.inj h
    obtain ⟨hphead, hptail⟩ := List.append_inj hp (length_presence_eq hhead)
    exact .cons (sameCode_of_presence hhead hphead) (sameCodeAll_of_presence htail hptail)

end

/-- **Values spell the same code if they agree in all but positions and have the same tokens.** -/
theorem sameCode_iff_presence {t u : Tree} :
    t.sameCode u = true ↔ t.unplaced = u.unplaced ∧ t.presence = u.presence :=
  ⟨SameCode.unplaced_eq, fun h => sameCode_of_presence h.1 h.2⟩

end Tree

/-! ### Literal patterns -/

namespace Pattern

variable {replay : Tree → Tree → Bool}

mutual

/-- **What a literal pattern matches has the shape of the value it was made of.** -/
theorem sameShape_of_literal (b : Tree) {t : Tree} {c e : Captures}
    (h : matchWith replay (literal b) t c = some e) : b.SameShape t := by
  match b with
  | .nil =>
    cases t with
    | nil => rfl
    | _ => cases h
  | .pos _ =>
    cases t with
    | pos _ => rfl
    | _ => cases h
  | .str s =>
    cases t with
    | str u =>
      simp only [literal, matchWith, Option.ite_none_right_eq_some] at h
      rw [h.1]
      rfl
    | _ => cases h
  | .tok s =>
    cases t with
    | tok u =>
      simp only [literal, matchWith, Option.ite_none_right_eq_some] at h
      rw [h.1]
      rfl
    | _ => cases h
  | .list bs =>
    cases t with
    | list ts => exact congrArg Tree.list (sameShape_of_literalAll bs h)
    | _ => cases h
  | .node k bs =>
    cases t with
    | node l ts =>
      simp only [literal, matchWith, Option.ite_none_right_eq_some] at h
      obtain ⟨rfl, h⟩ := h
      exact congrArg (Tree.node k) (sameShape_of_literalFields k.fields bs h)
    | _ => cases h

theorem sameShape_of_literalAll (bs : List Tree) {ts : List Tree} {c e : Captures}
    (h : matchAll replay (literalAll bs) ts c = some e) :
    Tree.mapPosAll (fun _ => .none) (Tree.undocumentedAll bs) =
      Tree.mapPosAll (fun _ => .none) (Tree.undocumentedAll ts) := by
  match bs, ts with
  | [], [] => rfl
  | b :: bs, t :: ts =>
    obtain ⟨c₁, h₁, h₂⟩ := Option.bind_eq_some_iff.mp h
    exact List.cons_eq_cons.mpr ⟨sameShape_of_literal b h₁, sameShape_of_literalAll bs h₂⟩

theorem sameShape_of_literalFields (fs : List Field) (bs : List Tree) {ts : List Tree}
    {c e : Captures} (h : matchAll replay (literalFields fs bs) ts c = some e) :
    Tree.mapPosAll (fun _ => .none) (Tree.undocumentedFields fs bs) =
      Tree.mapPosAll (fun _ => .none) (Tree.undocumentedFields fs ts) := by
  match fs, bs, ts with
  | [], _, _ => simp [Tree.undocumentedFields]
  | _ :: _, [], [] => rfl
  | f :: fs, b :: bs, t :: ts =>
    obtain ⟨c₁, h₁, h₂⟩ := Option.bind_eq_some_iff.mp h
    rw [Tree.undocumentedFields, Tree.undocumentedFields, Tree.mapPosAll, Tree.mapPosAll,
      sameShape_of_literalFields fs bs h₂]
    -- the comment above a node is not looked at
    split at h₁
    · rename_i hdoc
      rw [if_pos hdoc, if_pos hdoc]
    · rename_i hdoc
      rw [if_neg hdoc, if_neg hdoc]
      exact congrArg (· :: _) (sameShape_of_literal b h₁)

end

/-- A further occurrence of a metavariable has the shape of the first. -/
theorem sameShape_of_replays {b t : Tree} (h : replays b t = true) : b.SameShape t := by
  obtain ⟨e, he⟩ := Option.isSome_iff_exists.mp h
  exact sameShape_of_literal b he

end Pattern

end Graft
