import Graft.Proofs.Layout.SpelledRows
import Graft.Proofs.Layout.SourceOrder

/-! # Where phrases begin and end

What is laid out by itself begins at its first word (`Spelling.headed`) and ends with its last
token, which is the last that its tree records (`FileReading.stop_spelling`).  All places that it
records are those of its tokens (`Spelling.hold`).
-/

namespace Graft

/-! ### Recorded tokens -/

namespace Tree

mutual

/-- The positions of the tokens that a value records, in its order; comments are left out. -/
def tokenPlaces : Tree → List Pos
  | pos p => if p.isValid then [p] else []
  | list ts => tokenPlacesAll ts
  | node k fs => if k.isComment then [] else tokenPlacesAll fs
  | _ => []

/-- The positions of the tokens that some values record. -/
def tokenPlacesAll : List Tree → List Pos
  | [] => []
  | t :: ts => t.tokenPlaces ++ tokenPlacesAll ts

end

theorem tokenPlaces_pos {p : Pos} (hp : p.isValid = true) : (pos p).tokenPlaces = [p] := if_pos hp

theorem tokenPlaces_list (ts : List Tree) : (list ts).tokenPlaces = tokenPlacesAll ts := rfl

theorem tokenPlaces_node {k : Kind} (hk : k.isComment = false) (fs : List Tree) :
    (node k fs).tokenPlaces = tokenPlacesAll fs := by
  rw [tokenPlaces, hk]
  rfl

theorem tokenPlacesAll_append (ts us : List Tree) :
    tokenPlacesAll (ts ++ us) = tokenPlacesAll ts ++ tokenPlacesAll us := by
  induction ts with
  | nil => rfl
  | cons t ts ih => rw [List.cons_append, tokenPlacesAll, tokenPlacesAll, ih, List.append_assoc]

theorem mem_tokenPlacesAll {ts : List Tree} {p : Pos} :
    p ∈ tokenPlacesAll ts ↔ ∃ t ∈ ts, p ∈ t.tokenPlaces := by
  induction ts with
  | nil => simp [tokenPlacesAll]
  | cons t ts ih => simp [tokenPlacesAll, ih]

mutual

/-- The positions of tokens are positions. -/
theorem tokenPlaces_sublist (t : Tree) : t.tokenPlaces.Sublist t.positions := by
  match t with
  | pos _ => exact .refl _
  | list ts => exact tokenPlacesAll_sublist ts
  | node k fs =>
    rw [tokenPlaces]
    split
    · exact List.nil_sublist _
    · exact tokenPlacesAll_sublist fs
  | nil | str _ | tok _ => exact .refl _

theorem tokenPlacesAll_sublist (ts : List Tree) :
    (tokenPlacesAll ts).Sublist (positionsAll ts) := by
  match ts with
  | [] => exact .refl _
  | t :: ts => exact (tokenPlaces_sublist t).append (tokenPlacesAll_sublist ts)

end

end Tree

theorem Rules.mem_tokenPlaces_plainField {names : List Tree} {type : Tree} {p : Pos} :
    p ∈ (plainField names type).tokenPlaces ↔ (∃ x ∈ names, p ∈ x.tokenPlaces) ∨
      p ∈ type.tokenPlaces := by
  rw [plainField, Tree.tokenPlaces_node rfl, ← Tree.mem_tokenPlacesAll]
  simp [Tree.tokenPlacesAll, Tree.tokenPlaces]

/-! ### The last token -/

/-- Whether the last of some words is a token that stands at the last of some places, but for
semicolons behind it. -/
def Word.EndAt (ws : List Word) (ps : List Pos) : Prop :=
  ∃ a l b qs, ws = a ++ .lexeme l :: b ∧ (∀ w ∈ b, w.isSemicolon = true) ∧ l.token.isLoose = false ∧
    ps = qs ++ [l.pos]

namespace Word.EndAt

variable {vs ws : List Word} {ps qs : List Pos} {l : Lexeme}

theorem single (hl : l.token.isLoose = false) : EndAt [.lexeme l] [l.pos] :=
  ⟨[], l, [], [], rfl, List.forall_mem_nil _, hl, rfl⟩

theorem right (h : EndAt ws ps) : EndAt (vs ++ ws) (qs ++ ps) := by
  obtain ⟨a, l, b, front, rfl, hb, hl, rfl⟩ := h
  exact ⟨vs ++ a, l, b, qs ++ front, (List.append_assoc _ _ _).symm, hb, hl,
    (List.append_assoc _ _ _).symm⟩

theorem left (h : EndAt vs ps) (hws : ∀ w ∈ ws, w.isSemicolon = true) : EndAt (vs ++ ws) ps := by
  obtain ⟨a, l, b, front, rfl, hb, hl, rfl⟩ := h
  exact ⟨a, l, b ++ ws, front, by simp, List.forall_mem_append.mpr ⟨hb, hws⟩, hl, rfl⟩

end Word.EndAt

theorem Word.HasToken.not_semicolons {ws : List Word} (h : HasToken ws) :
    ¬ ∀ w ∈ ws, w.isSemicolon = true := by
  obtain ⟨l, hl, hloose⟩ := h
  intro hsemi
  exact Token.ne_semicolon_of_not_isLoose hloose (by simpa [Word.isSemicolon] using hsemi _ hl)

/-- The last token of some words is among the last of them, if there is a token there. -/
theorem Word.mem_of_last {a b vs us : List Word} {l : Lexeme} (h : vs ++ us = a ++ .lexeme l :: b)
    (hb : ∀ w ∈ b, w.isSemicolon = true) (hus : HasToken us) : .lexeme l ∈ us := by
  rcases List.append_eq_append_iff.mp h with ⟨m, rfl, rfl⟩ | ⟨m, rfl, heq⟩
  · simp
  · cases m with
    | nil =>
      rw [List.nil_append] at heq
      rw [← heq]
      exact List.mem_cons_self
    | cons w m =>
      cases heq
      exact absurd (fun w hw => hb w (List.mem_append_right _ hw)) hus.not_semicolons

/-- Whether the last token of every phrase of a sort is recorded in its tree. -/
def Phrase.isEnding : Phrase → Bool
  | .doc | .arg | .entry | .ended _ | .trailing _ | .parts _ => false
  | .opt s | .orEmpty s | .one s | .lines s | .member s => s.isEnding
  | .more s | .behind _ s => s.isEnding && s.isTokened
  | _ => true

namespace Part

/-- Whether the last token of a part is recorded. -/
def isEnding : Part → Bool
  | .word t => t == .semicolon
  | .mark t => !t.isLoose
  | .markIn ts => ts.all fun t => !t.isLoose
  | .lineEnd | .unmarked => true
  | .const t => t.tokenPlaces.isEmpty
  | .sub s => s.isEnding
  | _ => false

/-- Whether the last token of some parts is recorded. -/
def finish : List Part → Bool
  | [] => true
  | p :: ps => finish ps && (ps.any isTokened || p.isEnding)

end Part

theorem Row.finish {s : Phrase} {k : Kind} {ps : List Part} (h : Row s k ps)
    (hs : s.isEnding = true) :
    Part.finish ps = true := by
  cases h with
  | entry | dotsEntry | namedEntry => cases hs
  | group hkw | single hkw =>
    simp only [Token.declarers, List.mem_cons, List.not_mem_nil, or_false] at hkw
    rcases hkw with rfl | rfl | rfl | rfl <;> rfl
  | binary =>
    simp [Part.finish, Part.isEnding, Part.isTokened, Phrase.isEnding, Phrase.isTokened,
      Phrase.isLaid]
  | _ => rfl

theorem Covers.isEnding {s s' : Phrase} (h : Covers s s') (hs : s.isEnding = true) :
    s'.isEnding = true := by
  cases h <;> first | rfl | exact hs | cases hs

namespace Derives

variable {d : Dialect} {s : Phrase} {ws : List Word} {t : Tree}

/-- What is shown of the last token of a phrase, unless it has but semicolons. -/
def Ends (ws : List Word) (ps : List Pos) : Prop :=
  (∀ w ∈ ws, w.isSemicolon = true) ∧ ps = [] ∨ Word.EndAt ws ps

theorem Ends.append {vs ws : List Word} {ps qs : List Pos} (h : Ends vs ps) (h' : Ends ws qs) :
    Ends (vs ++ ws) (ps ++ qs) := by
  rcases h' with ⟨hsemi, rfl⟩ | h'
  · rcases h with ⟨hsemi', rfl⟩ | h
    · exact .inl ⟨List.forall_mem_append.mpr ⟨hsemi', hsemi⟩, rfl⟩
    · rw [List.append_nil]
      exact .inr (h.left hsemi)
  · exact .inr h'.right

theorem Ends.endAt {ws : List Word} {ps : List Pos} (h : Ends ws ps) (hws : Word.HasToken ws) :
    Word.EndAt ws ps := h.resolve_left fun hnone => hws.not_semicolons hnone.1

theorem Ends.of_token {v ws : List Word} {p qs : List Pos} (h : Ends ws qs)
    (hws : Word.HasToken ws) :
    Ends (v ++ ws) (p ++ qs) := .inr (h.endAt hws).right

theorem Ends.nil : Ends [] [] := .inl ⟨List.forall_mem_nil _, rfl⟩

theorem Ends.semicolon {l : Lexeme} (hl : l.token = .semicolon) : Ends [.lexeme l] [] :=
  .inl ⟨List.forall_mem_singleton.mpr (by rw [Word.isSemicolon, hl]; rfl), rfl⟩

/-- The words of a part before those of the others. -/
theorem Ends.part {p : Part} {ps : List Part} {us v : List Word} {q qs : List Pos}
    (h : Part.finish (p :: ps) = true) (hrest : Part.finish ps = true → Ends us qs)
    (htoken : ps.any Part.isTokened = true → Word.HasToken us)
    (hhere : p.isEnding = true → Ends v q) :
    Ends (v ++ us) (q ++ qs) := by
  obtain ⟨hfinish, hor⟩ := (Bool.and_eq_true _ _).mp h
  rcases (Bool.or_eq_true _ _).mp hor with hfirm | hend
  · exact (hrest hfinish).of_token (htoken hfirm)
  · exact (hhere hend).append (hrest hfinish)

/-- **The last token of a phrase is recorded.** -/
theorem ends (h : Derives d s ws t) (hplaced : ∀ w ∈ ws, w.Placed) :
    (s.isEnding = true → Ends ws t.tokenPlaces) ∧
      ∀ {ps}, s = .parts ps → Part.finish ps = true → Ends ws t.tokenPlaces := by
  have hleaf {l : Lexeme} {k : Kind} {fs : List Tree} (hl : l.token.isLoose = false)
      (hk : k.isComment = false)
      (hfs : Tree.tokenPlacesAll fs = []) (hplaced : ∀ w ∈ [Word.lexeme l], w.Placed) :
      Ends [.lexeme l] (Tree.node k (.pos l.pos :: fs)).tokenPlaces := by
    rw [Tree.tokenPlaces_node hk, Tree.tokenPlacesAll, hfs,
      Tree.tokenPlaces_pos (hplaced _ List.mem_cons_self)]
    exact .inr (.single hl)
  have hone {ws : List Word} {t : Tree} (h : Ends ws t.tokenPlaces) : Ends ws
      (Tree.list [t]).tokenPlaces := by
    rwa [Tree.tokenPlaces_list, Tree.tokenPlacesAll, Tree.tokenPlacesAll, List.append_nil]
  induction h with
  | ident hl | dots _ hl | period hl =>
    exact ⟨fun _ => hleaf (by rw [hl]; rfl) rfl rfl hplaced, by rintro ps ⟨⟩⟩
  | literal hl =>
    exact ⟨fun _ => hleaf (Token.text_of_isLiteral hl).2 rfl rfl hplaced, by rintro ps ⟨⟩⟩
  | noDoc | none | empty | endedNil | linesNil | partsNil =>
    exact ⟨fun _ => .nil, fun _ _ => .nil⟩
  | cover hc _ ih => exact ⟨fun hs => (ih hplaced).1 (hc.isEnding hs), by rintro ps rfl; cases hc⟩
  | node hr _ ih =>
    refine ⟨fun hs => ?_, by rintro ps rfl; cases hr⟩
    rw [Tree.tokenPlaces_node hr.isComment]
    exact (ih hplaced).2 rfl (hr.finish hs)
  | behind _ hs ih =>
    refine ⟨fun hend => ?_, by rintro ps ⟨⟩⟩
    obtain ⟨hend, hfirm⟩ := (Bool.and_eq_true _ _).mp hend
    exact ((ih (List.forall_mem_cons.mp hplaced).2).1 hend).of_token (v := [_]) (p := [])
      (hs.hasToken hfirm)
  | one _ _ ih => exact ⟨fun hs => hone ((ih hplaced).1 hs), by rintro ps ⟨⟩⟩
  | more _ _ ht _ ih =>
    refine ⟨fun hend => ?_, by rintro ps ⟨⟩⟩
    obtain ⟨hend, hfirm⟩ := (Bool.and_eq_true _ _).mp hend
    rw [Tree.tokenPlaces_list, Tree.tokenPlacesAll_append]
    exact (hone ((ih (List.forall_mem_append.mp hplaced).2).1 hend)).of_token (ht.hasToken hfirm)
  | linesSemicolon _ hl ih =>
    refine ⟨fun hend => ?_, by rintro ps ⟨⟩⟩
    simpa using ((ih (List.forall_mem_append.mp hplaced).1).1 hend).append (.semicolon hl)
  | linesItem _ _ _ ih ih' =>
    refine ⟨fun hend => ?_, by rintro ps ⟨⟩⟩
    obtain ⟨h₁, h₂⟩ := List.forall_mem_append.mp hplaced
    rw [Tree.tokenPlaces_list, Tree.tokenPlacesAll_append]
    exact ((ih h₁).1 hend).append (hone ((ih' h₂).1 hend))
  | firstName _ ih => exact ⟨fun _ => hone ((ih hplaced).1 rfl), by rintro ps ⟨⟩⟩
  | nextName _ _ ht _ ih =>
    refine ⟨fun _ => ?_, by rintro ps ⟨⟩⟩
    rw [Tree.tokenPlaces_list, Tree.tokenPlacesAll_append]
    have hplaced := (List.forall_mem_cons.mp (List.forall_mem_append.mp hplaced).2).2
    exact (Ends.of_token (v := [.lexeme _]) (p := []) (hone ((ih hplaced).1 rfl))
      (ht.hasToken rfl)).of_token (ht.hasToken rfl).tail
  | doc | spread | endedComma => exact ⟨by rintro ⟨⟩, by rintro ps ⟨⟩⟩
  | word hl hp ih =>
    refine ⟨by rintro ⟨⟩, ?_⟩
    rintro ps ⟨⟩ hfinish
    refine .part (v := [.lexeme _]) (q := []) hfinish ((ih (List.forall_mem_cons.mp hplaced).2).2
      rfl) (hp.firm.2 rfl)
      fun hsemi => .semicolon (hl.trans ?_)
    simpa [Part.isEnding] using hsemi
  | noLineEnd hp ih =>
    refine ⟨by rintro ⟨⟩, ?_⟩
    rintro ps ⟨⟩ hfinish
    exact .part (v := []) (q := []) hfinish ((ih hplaced).2 rfl) (hp.firm.2 rfl) fun _ => .nil
  | lineEnd hl hp ih =>
    refine ⟨by rintro ⟨⟩, ?_⟩
    rintro ps ⟨⟩ hfinish
    exact .part (v := [.lexeme _])
      (q := []) hfinish ((ih (List.forall_mem_cons.mp hplaced).2).2 rfl)
      (hp.firm.2 rfl) fun _ => .semicolon hl
  | @mark tok ps l ws ts hl hp ih =>
    refine ⟨by rintro ⟨⟩, ?_⟩
    rintro ps ⟨⟩ hfinish
    obtain ⟨hvalid, hplaced⟩ := List.forall_mem_cons.mp hplaced
    rw [Tree.tokenPlaces_list, Tree.tokenPlacesAll, Tree.tokenPlaces_pos hvalid]
    refine .part (v := [.lexeme _]) hfinish ((ih hplaced).2 rfl) (hp.firm.2 rfl)
      fun htok => .inr (.single ?_)
    rw [hl]
    simpa [Part.isEnding] using htok
  | @markIn toks ps l ws ts hl hp ih =>
    refine ⟨by rintro ⟨⟩, ?_⟩
    rintro ps ⟨⟩ hfinish
    obtain ⟨hvalid, hplaced⟩ := List.forall_mem_cons.mp hplaced
    rw [Tree.tokenPlaces_list, Tree.tokenPlacesAll, Tree.tokenPlaces_pos hvalid]
    refine .part (v := [.lexeme _]) hfinish ((ih hplaced).2 rfl) (hp.firm.2 rfl)
      fun htok => .inr (.single ?_)
    simpa using List.all_eq_true.mp htok _ hl
  | unmarked hp ih =>
    refine ⟨by rintro ⟨⟩, ?_⟩
    rintro ps ⟨⟩ hfinish
    exact .part (v := []) (q := []) hfinish ((ih hplaced).2 rfl) (hp.firm.2 rfl) fun _ => .nil
  | const hp ih =>
    refine ⟨by rintro ⟨⟩, ?_⟩
    rintro ps ⟨⟩ hfinish
    refine .part (v := []) hfinish ((ih hplaced).2 rfl) (hp.firm.2 rfl) fun hempty => ?_
    rw [List.isEmpty_iff.mp hempty]
    exact .nil
  | sub _ hp ih ih' =>
    refine ⟨by rintro ⟨⟩, ?_⟩
    rintro ps ⟨⟩ hfinish
    obtain ⟨h₁, h₂⟩ := List.forall_mem_append.mp hplaced
    exact .part hfinish ((ih' h₂).2 rfl) (hp.firm.2 rfl) (ih h₁).1
  | @args ps ws ws' xs ts p _ _ hp _ ih =>
    refine ⟨by rintro ⟨⟩, ?_⟩
    rintro ps ⟨⟩ hfinish
    rw [Tree.tokenPlaces_list, Tree.tokenPlacesAll, Tree.tokenPlacesAll, ← List.append_assoc]
    exact .part hfinish ((ih (List.forall_mem_append.mp hplaced).2).2 rfl) (hp.firm.2 rfl)
      (by rintro ⟨⟩)
  | @targets ps ws ws' xs ts _ hp _ ih =>
    refine ⟨by rintro ⟨⟩, ?_⟩
    rintro ps ⟨⟩ hfinish
    rw [Tree.tokenPlaces_list, Tree.tokenPlacesAll, Tree.tokenPlacesAll, ← List.append_assoc]
    exact .part hfinish ((ih (List.forall_mem_append.mp hplaced).2).2 rfl) (hp.firm.2 rfl)
      (by rintro ⟨⟩)
  | params _ _ hp _ ih =>
    refine ⟨by rintro ⟨⟩, ?_⟩
    rintro ps ⟨⟩ hfinish
    exact .part hfinish ((ih (List.forall_mem_append.mp hplaced).2).2 rfl) (hp.firm.2 rfl)
      (by rintro ⟨⟩)

end Derives

/-! ### The first word -/

/-- Whether a place is that of the first of some words, or nowhere if there is none. -/
def Word.HeadAt (ws : List Word) (p : Pos) : Prop :=
  ws = [] ∧ p.isValid = false ∨ ∃ w us, ws = w :: us ∧ w.isSemicolon = false ∧
  w.start.isValid = true ∧ p = w.start

namespace Word.HeadAt

variable {vs ws : List Word} {p : Pos} {t : Tree} {ts us : List Tree} {l : Lexeme}

theorem head (hsemi : l.token ≠ .semicolon) (hvalid : l.pos.isValid = true) :
    HeadAt (.lexeme l :: ws) l.pos :=
  .inr ⟨_, _, rfl, by simpa [isSemicolon] using hsemi, hvalid, rfl⟩

theorem extend (h : HeadAt ws p) (hne : ws ≠ []) : HeadAt (ws ++ vs) p := by
  obtain ⟨w, us, rfl, hsemi, hvalid, hp⟩ := h.resolve_left fun h => hne h.1
  exact .inr ⟨w, us ++ vs, rfl, hsemi, hvalid, hp⟩

theorem append {u : List Tree} (h : HeadAt vs (Tree.startAll ts))
    (h' : vs = [] → HeadAt ws (Tree.startAll u)) :
    HeadAt (vs ++ ws) (Tree.startAll (ts ++ u)) := by
  rw [Tree.startAll_append]
  rcases h with ⟨rfl, hvalid⟩ | ⟨w, us, rfl, hsemi, hvalid, hp⟩
  · rw [hvalid]
    exact h' rfl
  · rw [if_pos (by rwa [hp])]
    exact .inr ⟨w, us ++ ws, rfl, hsemi, hvalid, hp⟩

theorem single (h : HeadAt ws t.start) :
    HeadAt ws (Tree.startAll [t]) := by rwa [Tree.startAll_singleton]

end Word.HeadAt

/-- Whether every phrase of a sort begins at its first word. -/
def Phrase.isHeaded : Phrase → Bool
  | .lines _ | .behind _ _ | .parts _ => false
  | .opt s | .orEmpty s | .one s | .member s => s.isHeaded
  | .ended s | .more s | .trailing s => s.isHeaded && s.isSolid
  | _ => true

/-- Whether the first of some parts with a word records it. -/
def Part.headed : List Part → Bool
  | [] => true
  | .mark t :: _ => t != .semicolon
  | .markIn ts :: _ => ts.all (· != .semicolon)
  | .unmarked :: ps => headed ps
  | .const t :: ps => !t.start.isValid && headed ps
  | .sub s :: ps => s.isHeaded && (s.isSolid || headed ps)
  | _ => false

theorem Row.headed {s : Phrase} {k : Kind} {ps : List Part} (h : Row s k ps) :
    Part.headed ps = true := by
  cases h with
  | group hkw | single hkw =>
    simp only [Token.declarers, List.mem_cons, List.not_mem_nil, or_false] at hkw
    rcases hkw with rfl | rfl | rfl | rfl <;> rfl
  | _ => rfl

theorem Covers.isHeaded {s s' : Phrase} (h : Covers s s') (hs : s.isHeaded = true) :
    s'.isHeaded = true := by
  cases h <;> first | rfl | exact hs

namespace Derives

variable {d : Dialect} {s : Phrase} {ws : List Word} {t : Tree}

/-- **A phrase begins at its first word.** -/
theorem headed (h : Derives d s ws t) (hplaced : ∀ w ∈ ws, w.Placed) :
    (s.isHeaded = true → Word.HeadAt ws t.start) ∧
      ∀ {ps}, s = .parts ps → Part.headed ps = true → Word.HeadAt ws t.start := by
  have hleaf {l : Lexeme} {k : Kind} {fs : List Tree} (hsemi : l.token ≠ .semicolon)
      (hplaced : ∀ w ∈ [Word.lexeme l], w.Placed) : Word.HeadAt [.lexeme l]
      (Tree.node k (.pos l.pos :: fs)).start := by
    rw [Tree.start_of_head (hplaced _ List.mem_cons_self)]
    exact .head hsemi (hplaced _ List.mem_cons_self)
  have hmark {l : Lexeme} {ws : List Word} {ts : List Tree} (hsemi : l.token ≠ .semicolon)
      (hvalid : l.pos.isValid = true) : Word.HeadAt (.lexeme l :: ws)
      (Tree.list (.pos l.pos :: ts)).start := by
    have hpos : (Tree.pos l.pos).start = l.pos := by rw [Tree.start]
    rw [Tree.start, Tree.startAll_of_isValid (by rwa [hpos]), hpos]
    exact .head hsemi hvalid
  have hne {ws : List Word} (h : Word.lexemes ws ≠ []) : ws ≠ [] := by
    rintro rfl
    exact h rfl
  induction h with
  | ident hl | dots _ hl | period hl =>
    exact ⟨fun _ => hleaf (by rw [hl]; decide) hplaced, by rintro ps ⟨⟩⟩
  | literal hl =>
    refine ⟨fun _ => hleaf (fun hsemi => ?_) hplaced, by rintro ps ⟨⟩⟩
    rw [hsemi] at hl
    cases hl
  | noDoc | none | empty | endedNil | linesNil | partsNil =>
    exact ⟨fun _ => .inl ⟨rfl, rfl⟩, fun _ _ => .inl ⟨rfl, rfl⟩⟩
  | doc g =>
    exact ⟨fun _ => .inr ⟨_, _, rfl, rfl, (hplaced _ List.mem_cons_self).1, rfl⟩, by rintro ps ⟨⟩⟩
  | cover hc _ ih => exact ⟨fun hs => (ih hplaced).1 (hc.isHeaded hs), by rintro ps rfl; cases hc⟩
  | node hr _ ih => exact ⟨fun _ => (ih hplaced).2 rfl hr.headed, by rintro ps rfl; cases hr⟩
  | behind | linesSemicolon | linesItem => exact ⟨by rintro ⟨⟩, by rintro ps ⟨⟩⟩
  | spread hs _ ih =>
    exact ⟨fun _ => ((ih (List.forall_mem_append.mp hplaced).1).1 rfl).extend
      (hne (hs.lexemes_ne_nil rfl)), by rintro ps ⟨⟩⟩
  | one _ _ ih => exact ⟨fun hs => ((ih hplaced).1 hs).single, by rintro ps ⟨⟩⟩
  | endedComma hs _ ih =>
    refine ⟨fun hhead => ?_, by rintro ps ⟨⟩⟩
    have hsolid := ((Bool.and_eq_true _ _).mp hhead).2
    exact ((ih (List.forall_mem_append.mp hplaced).1).1 hhead).extend
      (hne (hs.lexemes_ne_nil hsolid))
  | more _ _ _ ih ih' =>
    refine ⟨fun hhead => ?_, by rintro ps ⟨⟩⟩
    obtain ⟨h₁, h₂⟩ := List.forall_mem_append.mp hplaced
    exact ((ih h₁).1 hhead).append fun _ => ((ih' h₂).1 ((Bool.and_eq_true _ _).mp hhead).1).single
  | firstName _ ih => exact ⟨fun _ => ((ih hplaced).1 rfl).single, by rintro ps ⟨⟩⟩
  | @nextName ws ws' l ts t hs _ _ ih =>
    refine ⟨fun _ => ?_, by rintro ps ⟨⟩⟩
    have hnames := (ih (List.forall_mem_append.mp hplaced).1).1 rfl
    have hws : ws ≠ [] := hne (hs.lexemes_ne_nil rfl)
    exact hnames.append (u := [t]) fun hnil => absurd hnil hws
  | word | noLineEnd | lineEnd | args | targets | params =>
    refine ⟨by rintro ⟨⟩, ?_⟩
    rintro ps ⟨⟩ hhead
    cases hhead
  | mark hl =>
    refine ⟨by rintro ⟨⟩, ?_⟩
    rintro ps ⟨⟩ hhead
    exact hmark (by rw [hl]; simpa [Part.headed] using hhead) (hplaced _ List.mem_cons_self)
  | markIn hl =>
    refine ⟨by rintro ⟨⟩, ?_⟩
    rintro ps ⟨⟩ hhead
    exact hmark (by simpa using List.all_eq_true.mp hhead _ hl) (hplaced _ List.mem_cons_self)
  | unmarked _ ih =>
    refine ⟨by rintro ⟨⟩, ?_⟩
    rintro ps ⟨⟩ hhead
    exact (ih hplaced).2 rfl hhead
  | const _ ih =>
    refine ⟨by rintro ⟨⟩, ?_⟩
    rintro ps ⟨⟩ hhead
    obtain ⟨hsilent, hhead⟩ := (Bool.and_eq_true _ _).mp hhead
    rw [Tree.start, Tree.startAll_of_not_isValid (by simpa using hsilent)]
    exact (ih hplaced).2 rfl hhead
  | @sub s ps ws ws' t ts hs _ ih ih' =>
    refine ⟨by rintro ⟨⟩, ?_⟩
    rintro ps ⟨⟩ hhead
    obtain ⟨hfirst, hrest⟩ := (Bool.and_eq_true _ _).mp hhead
    obtain ⟨h₁, h₂⟩ := List.forall_mem_append.mp hplaced
    refine ((ih h₁).1 hfirst).single.append (u := ts) fun hnil => ?_
    rcases (Bool.or_eq_true _ _).mp hrest with hsolid | hrest
    · exact absurd hnil (hne (hs.lexemes_ne_nil hsolid))
    · exact (ih' h₂).2 rfl hrest

end Derives

/-! ### Places are those of tokens -/

/-- Whether tokens among some words stand at some places. -/
def Word.Hold (ws : List Word) (ps : List Pos) : Prop :=
  ∀ p ∈ ps, ∃ l, .lexeme l ∈ ws ∧ l.token.isLoose = false ∧ l.pos = p

namespace Word.Hold

variable {vs ws : List Word} {ps qs : List Pos} {l : Lexeme}

theorem nil : Hold ws [] := List.forall_mem_nil _

theorem mono (h : Hold vs ps) (hsub : vs ⊆ ws) : Hold ws ps := by
  intro p hp
  obtain ⟨l, hl, h⟩ := h p hp
  exact ⟨l, hsub hl, h⟩

theorem append {v : List Word} (h : Hold v ps) (h' : Hold ws qs) : Hold (v ++ ws) (ps ++ qs) :=
  List.forall_mem_append.mpr
    ⟨h.mono (List.subset_append_left _ _), h'.mono (List.subset_append_right _ _)⟩

theorem pos (hl : l.token.isLoose = false) : Hold [.lexeme l] (Tree.pos l.pos).tokenPlaces := by
  rw [Tree.tokenPlaces]
  split
  · exact List.forall_mem_singleton.mpr ⟨l, List.mem_cons_self, hl, rfl⟩
  · exact nil

end Word.Hold

/-- Whether a part is a phrase of trees, or records no separators. -/
def Part.isTight : Part → Bool
  | .mark t => !t.isLoose
  | .markIn ts => ts.all fun t => !t.isLoose
  | .sub s => s.isProper
  | .const t => t.tokenPlaces.isEmpty
  | _ => true

/-- Whether a sort of phrase is made of sorts of trees, or is a stretch of fields of such sorts and
of tokens that are no separators. -/
def Phrase.isTight : Phrase → Bool
  | .parts ps => ps.all Part.isTight
  | s => s.isProper

theorem Phrase.isTight_of_isProper {s : Phrase} (h : s.isProper = true) : s.isTight = true := by
  cases s with
  | parts ps => cases h
  | _ => exact h

theorem Row.isTight {s : Phrase} {k : Kind} {ps : List Part} (h : Row s k ps)
    (hs : s.isTight = true) :
    (Phrase.parts ps).isTight = true := by
  cases h with
  | members s => simpa [Phrase.isTight, Part.isTight, Phrase.isProper, Token.isLoose] using hs
  | group hkw | single hkw =>
    simp only [Token.declarers, List.mem_cons, List.not_mem_nil, or_false] at hkw
    rcases hkw with rfl | rfl | rfl | rfl <;> rfl
  | @binary _ op _ hop => cases op <;> first | rfl | cases hop
  | _ => rfl

theorem Covers.isTight {s s' : Phrase} (h : Covers s s') (hs : s.isTight = true) :
    s'.isTight = true := by
  cases h <;> first | rfl | exact Phrase.isTight_of_isProper hs

theorem CommentGroup.tokenPlaces_tree {g : CommentGroup} (h : (Word.doc g).Placed) :
    g.tree.tokenPlaces = [] := by
  obtain ⟨-, hkind, -⟩ := h
  cases ht : g.tree with
  | node k fs =>
    rw [ht] at hkind
    cases hkind
    rfl
  | _ => rw [ht] at hkind; cases hkind

/-- **A tree records the places of tokens.** -/
theorem Derives.hold {d : Dialect} {s : Phrase} {ws : List Word} {t : Tree} (h : Derives d s ws t)
    (hplaced : ∀ w ∈ ws, w.Placed) (hs : s.isTight = true) : Word.Hold ws t.tokenPlaces := by
  have hleaf {l : Lexeme} {k : Kind} {fs : List Tree} (hl : l.token.isLoose = false)
      (hk : k.isComment = false)
      (hfs : Tree.tokenPlacesAll fs = []) : Word.Hold [.lexeme l]
      (Tree.node k (.pos l.pos :: fs)).tokenPlaces := by
    rw [Tree.tokenPlaces_node hk, Tree.tokenPlacesAll, hfs, List.append_nil]
    exact .pos hl
  have hone {ws : List Word} {t : Tree} (h : Word.Hold ws t.tokenPlaces) :
      Word.Hold ws (Tree.list [t]).tokenPlaces := by
    rwa [Tree.tokenPlaces_list, Tree.tokenPlacesAll, Tree.tokenPlacesAll, List.append_nil]
  -- one item more
  have hsnoc {vs ws : List Word} {ts : List Tree} {t : Tree}
      (h : Word.Hold vs (Tree.list ts).tokenPlaces)
      (ht : Word.Hold ws t.tokenPlaces) : Word.Hold (vs ++ ws)
      (Tree.list (ts ++ [t])).tokenPlaces := by
    rw [Tree.tokenPlaces_list, Tree.tokenPlacesAll_append]
    exact h.append (hone ht)
  induction h with
  | ident hl | dots _ hl | period hl => exact hleaf (by rw [hl]; rfl) rfl rfl
  | literal hl => exact hleaf (Token.text_of_isLiteral hl).2 rfl rfl
  | noDoc | none | empty | endedNil | linesNil | partsNil => exact .nil
  | doc g =>
    rw [CommentGroup.tokenPlaces_tree (hplaced _ List.mem_cons_self)]
    exact .nil
  | cover hc _ ih => exact ih hplaced (hc.isTight hs)
  | node hr _ ih =>
    rw [Tree.tokenPlaces_node hr.isComment]
    exact ih hplaced (hr.isTight hs)
  | behind _ _ ih =>
    exact (ih (List.forall_mem_cons.mp hplaced).2 (Phrase.isTight_of_isProper hs)).mono
      (List.subset_cons_self _ _)
  | spread _ _ ih =>
    exact (ih (List.forall_mem_append.mp hplaced).1 rfl).mono (List.subset_append_left _ _)
  | endedComma _ _ ih | linesSemicolon _ _ ih =>
    exact (ih (List.forall_mem_append.mp hplaced).1 hs).mono (List.subset_append_left _ _)
  | one _ _ ih => exact hone (ih hplaced (Phrase.isTight_of_isProper hs))
  | firstName _ ih => exact hone (ih hplaced rfl)
  | more _ _ _ ih ih' | linesItem _ _ _ ih ih' =>
    obtain ⟨h₁, h₂⟩ := List.forall_mem_append.mp hplaced
    exact hsnoc (ih h₁ hs) (ih' h₂ (Phrase.isTight_of_isProper hs))
  | nextName _ _ _ ih ih' =>
    obtain ⟨h₁, h₂⟩ := List.forall_mem_append.mp hplaced
    exact hsnoc (ih h₁ rfl)
      ((ih' (List.forall_mem_cons.mp h₂).2 rfl).mono (List.subset_cons_self _ _))
  | word _ _ ih | lineEnd _ _ ih =>
    exact (ih (List.forall_mem_cons.mp hplaced).2 hs).mono (List.subset_cons_self _ _)
  | noLineEnd _ ih | unmarked _ ih => exact ih hplaced hs
  | mark hl _ ih =>
    obtain ⟨htok, hps⟩ := (Bool.and_eq_true _ _).mp hs
    have hrest := ih (List.forall_mem_cons.mp hplaced).2 hps
    exact .append (v := [.lexeme _]) (.pos (by rw [hl]; simpa [Part.isTight] using htok)) hrest
  | markIn hl _ ih =>
    obtain ⟨htok, hps⟩ := (Bool.and_eq_true _ _).mp hs
    have hrest := ih (List.forall_mem_cons.mp hplaced).2 hps
    exact .append (v := [.lexeme _]) (.pos (by simpa using List.all_eq_true.mp htok _ hl)) hrest
  | const _ ih =>
    obtain ⟨ht, hps⟩ := (Bool.and_eq_true _ _).mp hs
    rw [Tree.tokenPlaces_list, Tree.tokenPlacesAll, List.isEmpty_iff.mp ht]
    exact ih hplaced hps
  | sub _ _ ih ih' =>
    obtain ⟨h₁, h₂⟩ := List.forall_mem_append.mp hplaced
    obtain ⟨hs, hps⟩ := (Bool.and_eq_true _ _).mp hs
    exact (ih h₁ (Phrase.isTight_of_isProper hs)).append (ih' h₂ hps)
  | @args _ ws _ xs _ p _ hspread _ ih ih' =>
    obtain ⟨h₁, h₂⟩ := List.forall_mem_append.mp hplaced
    have hdots : Word.Hold ws (Tree.pos p).tokenPlaces := by
      rcases hspread with rfl | ⟨l, hl, htoken, rfl, -⟩
      · exact .nil
      · exact (Word.Hold.pos (by rw [htoken]; rfl)).mono (by simpa using hl)
    rw [Tree.tokenPlaces_list, Tree.tokenPlacesAll, Tree.tokenPlacesAll, ← List.append_assoc]
    exact .append (List.forall_mem_append.mpr ⟨ih h₁ rfl, hdots⟩) (ih' h₂ hs)
  | @targets _ ws _ xs _ _ _ ih ih' =>
    obtain ⟨h₁, h₂⟩ := List.forall_mem_append.mp hplaced
    have htarget (i : Nat) : Word.Hold ws (xs[i]?.getD .nil).tokenPlaces := by
      cases hx : xs[i]? with
      | none => exact .nil
      | some x =>
        exact fun p hp => ih h₁ rfl p (Tree.mem_tokenPlacesAll.mpr ⟨x, List.mem_of_getElem? hx, hp⟩)
    rw [Tree.tokenPlaces_list, Tree.tokenPlacesAll, Tree.tokenPlacesAll, ← List.append_assoc]
    exact .append (List.forall_mem_append.mpr ⟨htarget 0, htarget 1⟩) (ih' h₂ hs)
  | @params _ ws _ es fs _ _ hfields _ ih ih' =>
    obtain ⟨h₁, h₂⟩ := List.forall_mem_append.mp hplaced
    refine .append (fun p hp => ?_) (ih' h₂ hs)
    have hentry (e : Rules.ParamEntry) (he : e ∈ es) (p : Pos) (hp : p ∈ e.field.tokenPlaces) :=
      ih h₁ rfl p (Tree.mem_tokenPlacesAll.mpr ⟨_, List.mem_map_of_mem he, hp⟩)
    have hes (e : Rules.ParamEntry) (he : e ∈ es) :
        (∀ x ∈ e.name.toList, Word.Hold ws x.tokenPlaces) ∧
        Word.Hold ws e.type.tokenPlaces := by
      refine ⟨fun x hx p hp => hentry e he p ?_, fun p hp => hentry e he p ?_⟩
      · exact Rules.mem_tokenPlaces_plainField.mpr (.inl ⟨x, hx, hp⟩)
      · exact Rules.mem_tokenPlaces_plainField.mpr (.inr hp)
    obtain ⟨t, ht, hp⟩ := Tree.mem_tokenPlacesAll.mp hp
    obtain ⟨names, type, rfl, hnames, htype⟩ :=
      Rules.forall_fieldsOfEntries (fun _ h _ => h) hfields hes t ht
    rcases Rules.mem_tokenPlaces_plainField.mp hp with ⟨x, hx, hp⟩ | hp
    · exact hnames x hx p hp
    · exact htype p hp

/-! ### What is printed by itself -/

theorem Phrase.of_isLaid {s : Phrase} (h : s.isLaid = true) :
    s.isProper = true ∧ s.isHeaded = true ∧ s.isEnding = true := by
  induction s using Phrase.rec (motive_2 := fun _ => True) (motive_3 := fun _ => True)
  all_goals first | exact ⟨rfl, rfl, rfl⟩ | trivial | cases h | skip
  case member s ih => exact ih h

theorem Phrase.of_isBraced {s : Phrase} (h : s.isBraced = true) :
    s.isProper = true ∧ s.isHeaded = true ∧ s.isEnding = true := by
  unfold isBraced at h
  split at h
  · exact ⟨rfl, rfl, rfl⟩
  · exact ⟨rfl, rfl, rfl⟩
  · exact ⟨rfl, rfl, rfl⟩
  · cases h

/-- The parts of a parameter. -/
def Part.param : List Part :=
  [.const .nil, .sub (.orEmpty (.more .paramType)), .sub .paramType, .const .nil]

/-- Phrases with commas between, behind others. -/
theorem Commas.derives {d : Dialect} {s : Phrase} {us ws : List Word} {ts xs : List Tree}
    (h : Commas (Derives d s) ws ts) (hs : s.isNode = true)
    (hxs : Derives d (.ended s) us (.list xs)) (hne : ts ≠ []) : Derives d (.more s) (us ++ ws)
    (.list (xs ++ ts)) := by
  induction h generalizing us xs with
  | nil => exact absurd rfl hne
  | last h => exact .more hs hxs h
  | cons h hl htail _ ih =>
    have hall := ih (.endedComma (.more hs hxs h) hl) htail
    simpa using hall

namespace Spelling

variable {page : Page} {ws : List Word} {t : Tree}

theorem derives (h : Spelling page ws t) :
    (∃ s, (s.isLaid = true ∨ s.isBraced = true) ∧ Derives .code s ws t) ∨
      ∃ names type, t = Rules.plainField names type ∧
        Derives .code (.parts Part.param) ws (.list [.nil, .list names, type, .nil]) := by
  cases h with
  | phrase hs h => exact .inl ⟨_, .inl hs, h⟩
  | copied hs h => exact .inl ⟨_, .inr hs, h⟩
  | @param vs ws names type hnames htype =>
    have hnames : Derives .code (.orEmpty (.more .paramType)) vs (.list names) := by
      by_cases hne : names = []
      · subst hne
        cases hnames with
        | nil => exact .empty _
      · exact .cover (.orEmpty _) (hnames.derives rfl (.endedNil _) hne)
    have hparts : Derives .code (.parts Part.param) (vs ++ (ws ++ []))
        (.list [.nil, .list names, type, .nil]) :=
      .const (.sub hnames (.sub htype (.const .partsNil)))
    rw [List.append_nil] at hparts
    exact .inr ⟨names, type, rfl, hparts⟩

theorem hasToken (h : Spelling page ws t) : Word.HasToken ws := by
  rcases h.derives with ⟨s, hs | hs, h'⟩ | ⟨names, type, -, h'⟩
  · exact h'.hasToken (Phrase.isTokened_of_isLaid hs)
  · cases h' with
    | cover hc => cases hc <;> cases hs
    | node hr h' => exact h'.firm.2 rfl (by cases hr <;> first | rfl | cases hs)
    | _ => cases hs
  · exact h'.firm.2 rfl rfl

/-- What is printed by itself begins at its first word. -/
theorem headed (h : Spelling page ws t) (hplaced : ∀ w ∈ ws, w.Placed) :
    ∃ w us, ws = w :: us ∧ w.isSemicolon = false ∧ w.start.isValid = true ∧ t.start = w.start := by
  have hhead : Word.HeadAt ws t.start := by
    rcases h.derives with ⟨s, hs, h'⟩ | ⟨names, type, rfl, h'⟩
    · exact (h'.headed hplaced).1 (hs.elim Phrase.of_isLaid Phrase.of_isBraced).2.1
    · exact (h'.headed hplaced).2 rfl rfl
  refine hhead.resolve_left fun hnil => ?_
  obtain ⟨l, hl, -⟩ := h.hasToken
  rw [hnil.1] at hl
  cases hl

/-- The last token of what is printed by itself is recorded last. -/
theorem endAt (h : Spelling page ws t) (hplaced : ∀ w ∈ ws, w.Placed) :
    Word.EndAt ws t.tokenPlaces := by
  have hends : Derives.Ends ws t.tokenPlaces := by
    rcases h.derives with ⟨s, hs, h'⟩ | ⟨names, type, rfl, h'⟩
    · exact (h'.ends hplaced).1 (hs.elim Phrase.of_isLaid Phrase.of_isBraced).2.2
    · exact (h'.ends hplaced).2 rfl rfl
  exact hends.endAt h.hasToken

theorem hold (h : Spelling page ws t) (hplaced : ∀ w ∈ ws, w.Placed) :
    Word.Hold ws t.tokenPlaces := by
  rcases h.derives with ⟨s, hs, h'⟩ | ⟨names, type, rfl, h'⟩
  · exact h'.hold hplaced
      (Phrase.isTight_of_isProper (hs.elim Phrase.of_isLaid Phrase.of_isBraced).1)
  · exact h'.hold hplaced rfl

end Spelling

/-! ### Where trees end -/

theorem Phrase.isClosed_of_isBraced {s : Phrase} (h : s.isBraced = true) : s.isClosed = true := by
  unfold isBraced at h
  split at h <;> first | rfl | cases h

namespace Derives

variable {s : Phrase} {ws : List Word} {t : Tree} {l : Lexeme}

/-- A clause ends behind its colon and its statements. -/
theorem stop_clause {m : Lexeme} {a u : List Word} {x y z w : Tree} (hm : m.token = .colon)
    (hy : Derives .code (.lines .stmt) u y)
    (hws : (Word.lexemes (a ++ .lexeme m :: u)).Pairwise Lexeme.Before)
    (hl : l ∈ Word.lexemes (a ++ .lexeme m :: u)) (hsemi : l.token ≠ .semicolon) :
    l.stop ≤ (Tree.node .caseClause [x, z, w, .pos m.pos, y]).stop := by
  rw [Word.lexemes_append, Word.lexemes_lexeme] at hws hl
  obtain ⟨-, hbehind, hfront⟩ := List.pairwise_append.mp hws
  have hcolon : m.stop ≤ (Tree.node .caseClause [x, z, w, .pos m.pos, y]).stop := by
    have hwidth : m.spelling.utf8ByteSize = (Token.text .colon).utf8ByteSize := by
      rw [Lexeme.spelling_of_not_carriesText (by rw [hm]; rfl), hm]
    rw [Lexeme.stop, hwidth, Tree.stop_node]
    exact Pos.le_trans (Tree.advance_le_stopFields rfl rfl)
      (Pos.le_trans Tree.stopFields_le_cons (Pos.le_trans Tree.stopFields_le_cons
        Tree.stopFields_le_cons))
  rcases List.mem_append.mp hl with hl | hl
  · have hbefore := (hfront l hl m List.mem_cons_self).2 hsemi
    exact Pos.le_trans hbefore (Pos.le_trans (Pos.le_advance _ _) hcolon)
  · rcases List.mem_cons.mp hl with rfl | hl
    · exact hcolon
    · exact Pos.le_trans (hy.stop_lines rfl rfl (List.pairwise_cons.mp hbehind).2 hl hsemi)
        (Tree.stop_le_stop_node (by simp) (Nat.le_refl 5))

/-- What is laid out by itself ends behind its tokens. -/
theorem stop_laid (h : Derives .code s ws t) (hs : s.isLaid = true)
    (hws : (Word.lexemes ws).Pairwise Lexeme.Before) (hl : l ∈ Word.lexemes ws)
    (hsemi : l.token ≠ .semicolon) :
    l.stop ≤ t.stop := by
  generalize hd : Dialect.code = d at h
  by_cases hclosed : s.isClosed = true
  · exact h.stop_lexeme (Phrase.of_isLaid hs).1 hclosed hws hl hsemi
  · -- only the clauses of switches are left
    induction h with
    | @cover s s' _ _ hc h ih =>
      have hs' := hc.isLaid (Phrase.isTokened_of_isLaid hs)
      by_cases hclosed' : s'.isClosed = true
      · exact h.stop_lexeme (Phrase.of_isLaid hs').1 hclosed' hws hl hsemi
      · exact ih hs' hws hl hclosed'
    | node hr h _ =>
      subst hd
      cases hr with
      | case =>
        obtain ⟨ts, heq, hts⟩ := h.spelt rfl
        cases heq
        obtain ⟨k, us, xs, rfl, rfl, -, vs, us, t, xs, rfl, rfl, -, m, us, xs, rfl, rfl, hm, us,
          vs', y, xs, rfl, rfl, hy, rfl, rfl⟩ := hts
        rw [List.append_nil] at hws hl
        exact stop_clause (a := .lexeme k :: vs) hm hy hws hl hsemi
      | default =>
        obtain ⟨ts, heq, hts⟩ := h.spelt rfl
        cases heq
        obtain ⟨k, us, xs, rfl, rfl, -, xs, rfl, m, us, xs, rfl, rfl, hm, us, vs', y, xs, rfl, rfl,
            hy, rfl, rfl⟩ := hts
        rw [List.append_nil] at hws hl
        exact stop_clause (a := [.lexeme k]) hm hy hws hl hsemi
      | dotsMember =>
        obtain ⟨ts, heq, _, rfl, _, rfl, vs, us, t, xs, rfl, rfl, hdots, -⟩ := h.spelt rfl
        cases hdots with
        | dots hd => cases hd
        | cover hc => cases hc
        | node hr => cases hr
      | _ => exact absurd rfl hclosed
    | _ => first | exact absurd rfl hclosed | cases hs

end Derives

namespace FileReading

variable {cs : List Char} (r : FileReading .code cs) {page : Page} {ws : List Word} {t : Tree}

/-- Words end with their last token at the latest. -/
theorem stop_last {a b : List Word} {l : Lexeme} (hws : (a ++ .lexeme l :: b).Sublist r.words)
    (hb : ∀ w ∈ b, w.isSemicolon = true) (hl : l.token.isLoose = false) :
    IsCut cs l.stop ∧ ∀ w ∈ a ++ .lexeme l :: b, w.isSemicolon = false → w.stop ≤ l.stop := by
  have hmem : .lexeme l ∈ r.words := hws.subset (by simp)
  have hsemi : (Word.lexeme l).isSemicolon = false := by
    simpa [Word.isSemicolon] using Token.ne_semicolon_of_not_isLoose hl
  refine ⟨(r.isBreak_word hmem hsemi).2.isCut, fun w hw hw' => ?_⟩
  have horder := (List.pairwise_append.mp (r.pairwise_words.sublist hws)).2.2
  rcases List.mem_append.mp hw with hw | hw
  · exact Pos.le_trans ((horder w hw _ List.mem_cons_self).2 hw') (Pos.le_advance _ _)
  · rcases List.mem_cons.mp hw with rfl | hw
    · exact Pos.le_refl _
    · rw [hb w hw] at hw'
      cases hw'

/-- **What is printed by itself ends with its last token**, which is recorded last. -/
theorem stop_spelling (h : Spelling page ws t) (hws : ws.Sublist r.words) :
    ∃ a l b ps, ws = a ++ .lexeme l :: b ∧ (∀ w ∈ b, w.isSemicolon = true) ∧
      l.token.isLoose = false ∧
      t.tokenPlaces = ps ++ [l.pos] ∧ t.stop = l.stop := by
  have hmem : ∀ w ∈ ws, w ∈ r.words := fun w hw => hws.subset hw
  obtain ⟨a, l, b, ps, rfl, hb, hl, hp⟩ := h.endAt fun w hw => r.placed (hmem w hw)
  obtain ⟨hcut, hle⟩ := r.stop_last hws hb hl
  have hsemi : l.token ≠ .semicolon := Token.ne_semicolon_of_not_isLoose hl
  have horder : (Word.lexemes (a ++ .lexeme l :: b)).Pairwise Lexeme.Before :=
    r.pairwise_lexemes.sublist (hws.filterMap _)
  suffices hstop : t.stop ≤ l.stop ∧ l.stop ≤ t.stop from
    ⟨a, l, b, ps, rfl, hb, hl, hp, congrArg Pos.mk (Nat.le_antisymm hstop.1 hstop.2)⟩
  rcases h.derives with ⟨s, hs, h'⟩ | ⟨names, type, rfl, h'⟩
  · have hproper := (hs.elim Phrase.of_isLaid Phrase.of_isBraced).1
    refine ⟨r.stop_le h' hproper hmem hcut hle, ?_⟩
    rcases hs with hs | hs
    · exact h'.stop_laid hs horder (by simp) hsemi
    · exact h'.stop_lexeme hproper (Phrase.isClosed_of_isBraced hs) horder (by simp) hsemi
  · obtain ⟨ts, heq, xs, rfl, vs, us, _, ys, hws', rfl, hnames, vs', us', _, zs, rfl, rfl, htype, -,
        rfl, rfl, rfl⟩ :=
      h'.spelt rfl
    cases heq
    rw [List.append_nil] at hws'
    rw [hws'] at hmem hle
    obtain ⟨hmem₁, hmem₂⟩ := List.forall_mem_append.mp hmem
    obtain ⟨hle₁, hle₂⟩ := List.forall_mem_append.mp hle
    have hlast := Word.mem_of_last hws'.symm hb (htype.hasToken rfl)
    have horder' : (Word.lexemes vs').Pairwise Lexeme.Before := by
      rw [hws', Word.lexemes_append] at horder
      exact (List.pairwise_append.mp horder).2.1
    constructor
    · have h₁ := r.stop_le hnames rfl hmem₁ hcut hle₁
      have h₂ := r.stop_le htype rfl hmem₂ hcut hle₂
      exact Nat.max_le.mpr ⟨Nat.zero_le _, Nat.max_le.mpr ⟨h₁, Nat.max_le.mpr ⟨h₂, Nat.zero_le _⟩⟩⟩
    · exact Pos.le_trans (htype.stop_lexeme rfl rfl horder' (Word.mem_lexemes.mpr hlast) hsemi)
        (Tree.stop_le_stop_node (by simp) (Nat.le_refl 4))

end FileReading

end Graft
