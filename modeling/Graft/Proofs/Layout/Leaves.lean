import Graft.Proofs.Layout.SourceOrder
import Mathlib.Data.List.Nodup

/-! # Names and literals

The names and literals of a text are the leaves of the tree it is read as, in order.  There is one
construct of which the tree keeps only a part: a loop over a range holds the first two of its
targets, and what is written between the second and the token behind the targets is in no node
(`Node.skips`).  So every name and literal is in the tree once, unless a loop skips it, and then it
is not in the tree at all (`parseFile_leaves`).  The only leaf that is no name or literal of the
text is the period in front of an import.

By induction over derivations the leaves of a tree are a list of those lexemes among its words that
no loop inside skips (`Derives.keeps`).  That phrases side by side do not skip words of each other
follows from the order of the words: what a loop skips lies between two of its own.
-/

namespace Graft

/-- Whether a token is a name or a literal. -/
def Token.isLeaf (t : Token) : Bool := t == .ident || t.isLiteral

theorem Token.isLeaf_eq_false {t : Token} (h : t.isFixed = true) : t.isLeaf = false := by
  cases t <;> first | rfl | cases h

/-- Whether a lexeme is a name or a literal. -/
def Lexeme.isLeaf (l : Lexeme) : Bool := l.token.isLeaf

/-- The node that a name or a literal becomes. -/
def Lexeme.leaf (l : Lexeme) : Node :=
  if l.token = .ident then ⟨.ident, [.pos l.pos, .str l.text]⟩
  else ⟨.basicLit, [.pos l.pos, .tok l.token, .str l.text]⟩

theorem Lexeme.leaf_of_ident {l : Lexeme} (h : l.token = .ident) :
    l.leaf = ⟨.ident, [.pos l.pos, .str l.text]⟩ := if_pos h

theorem Lexeme.leaf_of_literal {l : Lexeme} (h : l.token.isLiteral = true) :
    l.leaf = ⟨.basicLit, [.pos l.pos, .tok l.token, .str l.text]⟩ := by
  refine if_neg fun hident => ?_
  rw [hident] at h
  cases h

theorem Lexeme.pos_of_leaf_eq {l m : Lexeme} (h : l.leaf = m.leaf) : l.pos = m.pos := by
  unfold leaf at h
  split at h <;> split at h
  all_goals
    simp only [Node.mk.injEq, List.cons.injEq, Tree.pos.injEq] at h
    exact h.2.1

/-- The names and literals among some words. -/
def Word.leaves (ws : List Word) : List Lexeme := (lexemes ws).filter Lexeme.isLeaf

namespace Node

/-- Whether a node is the period in front of an import, which is kept as an identifier. -/
def isPeriod (n : Node) : Bool := n.name? == some "."

/-- Whether a node is a name or a literal of the text. -/
def isSpelled (n : Node) : Bool := n.isLeaf && !n.isPeriod

/-- Whether a position lies behind the second target of a loop over a range and before the token
behind the targets. -/
def skips (n : Node) (p : Pos) : Bool :=
  n.kind == .rangeStmt && (n.get .value).kind?.isSome &&
  decide ((n.get .value).stop ≤ p ∧ p < n.posOf .tokPos)

/-- Whether a node is an import under the given name. -/
def ImportsAs (m n : Node) : Prop := m.kind = .importSpec ∧ m.get .name = n.tree

theorem kind_of_isPeriod {n : Node} (h : n.isPeriod = true) : n.kind = .ident := by
  by_contra hkind
  rw [isPeriod, name?, if_neg hkind] at h
  cases h

theorem kind_of_skips {n : Node} {p : Pos} (h : n.skips p = true) : n.kind = .rangeStmt := by
  rw [skips, Bool.and_eq_true, Bool.and_eq_true] at h
  exact beq_iff_eq.mp h.1.1

theorem isLeaf_eq_false {n : Node} (h : n.kind ≠ .ident ∧ n.kind ≠ .basicLit) :
    n.isLeaf = false := by
  rw [isLeaf, beq_eq_false_iff_ne.mpr h.1, beq_eq_false_iff_ne.mpr h.2]
  rfl

end Node

namespace Word

theorem leaves_append (vs ws : List Word) : leaves (vs ++ ws) = leaves vs ++ leaves ws := by
  rw [leaves, lexemes_append, List.filter_append, leaves, leaves]

theorem leaves_nil : leaves [] = [] := rfl

theorem leaves_lexeme {l : Lexeme} (h : l.isLeaf = false) (ws : List Word) :
    leaves (.lexeme l :: ws) = leaves ws := by
  rw [leaves, lexemes_lexeme, List.filter_cons_of_neg (by simp [h]), leaves]

theorem mem_leaves {l : Lexeme} {ws : List Word} :
    l ∈ leaves ws ↔ l ∈ lexemes ws ∧ l.isLeaf = true :=
  List.mem_filter

/-- What is known of the words of a file: they stand in order, phrases of them stand apart, no name
or literal is empty, and no name is a period. -/
structure Legible (d : Dialect) (ws : List Word) : Prop where
  sorted : (lexemes ws).Pairwise fun l m => l.pos < m.pos
  before : (lexemes ws).Pairwise Lexeme.Before
  separate : Separate d ws
  placed : ∀ w ∈ ws, w.Placed
  full : ∀ l ∈ lexemes ws, l.isLeaf = true → l.pos < l.stop
  names : ∀ l ∈ lexemes ws, l.token = .ident → l.text ≠ "."

namespace Legible

variable {d : Dialect} {vs ws : List Word}

theorem sublist (h : Legible d ws) (hsub : vs.Sublist ws) : Legible d vs where
  sorted := h.sorted.sublist (hsub.filterMap _)
  before := h.before.sublist (hsub.filterMap _)
  separate := h.separate.sublist hsub
  placed w hw := h.placed w (hsub.subset hw)
  full l hl := h.full l ((hsub.filterMap _).subset hl)
  names l hl := h.names l ((hsub.filterMap _).subset hl)

theorem left (h : Legible d (vs ++ ws)) : Legible d vs := h.sublist (List.sublist_append_left _ _)

theorem right (h : Legible d (vs ++ ws)) : Legible d ws := h.sublist (List.sublist_append_right _ _)

theorem tail {w : Word} (h : Legible d (w :: ws)) :
    Legible d ws := h.sublist (List.sublist_cons_self _ _)

theorem isSpelled_leaf (h : Legible d ws) {l : Lexeme} (hl : l ∈ lexemes ws)
    (hleaf : l.isLeaf = true) :
    l.leaf.isSpelled = true := by
  rcases (Bool.or_eq_true _ _).mp hleaf with htoken | htoken
  · have htoken := beq_iff_eq.mp htoken
    have hperiod : (Node.mk .ident [.pos l.pos, .str l.text]).isPeriod = false :=
      beq_eq_false_iff_ne.mpr fun heq => h.names l hl htoken (Option.some.inj heq)
    rw [Lexeme.leaf_of_ident htoken, Node.isSpelled, hperiod]
    rfl
  · rw [Lexeme.leaf_of_literal htoken]
    rfl

theorem lt (h : Legible d (vs ++ ws)) {l m : Lexeme} (hl : l ∈ lexemes vs) (hm : m ∈ lexemes ws) :
    l.pos < m.pos := by
  have hsorted := h.sorted
  rw [lexemes_append] at hsorted
  exact (List.pairwise_append.mp hsorted).2.2 l hl m hm

end Legible

end Word

/-- Whether the names and literals in some nodes are those among the words at places that `skips`
does not hold of, in order. -/
def Selects (skips : Pos → Bool) (ws : List Word) (ns : List Node) : Prop :=
  ns.filter Node.isSpelled = ((Word.leaves ws).filter fun l => !skips l.pos).map Lexeme.leaf

namespace Selects

variable {skips skips' : Pos → Bool} {vs ws : List Word} {ms ns : List Node}

theorem congr (h : Selects skips ws ns) (skips' : Pos → Bool)
    (heq : ∀ l ∈ Word.leaves ws, skips' l.pos = skips l.pos) : Selects skips' ws ns := by
  have hfilter : (Word.leaves ws).filter (fun l => !skips' l.pos) =
      (Word.leaves ws).filter fun l => !skips l.pos :=
      List.filter_congr fun l hl => by rw [heq l hl]
  rwa [Selects, hfilter]

theorem append (h : Selects skips vs ms) (h' : Selects skips' ws ns)
    (hleft : ∀ l ∈ Word.leaves vs, skips' l.pos = false)
    (hright : ∀ l ∈ Word.leaves ws, skips l.pos = false) :
    Selects (fun p => skips p || skips' p) (vs ++ ws) (ms ++ ns) := by
  have h : Selects (fun p => skips p || skips' p) vs ms :=
    h.congr _ fun l hl => by rw [hleft l hl, Bool.or_false]
  have h' : Selects (fun p => skips p || skips' p) ws ns :=
    h'.congr _ fun l hl => by rw [hright l hl, Bool.false_or]
  rw [Selects, List.filter_append, h, h', Word.leaves_append, List.filter_append, List.map_append]

end Selects

/-- What some nodes hold of the words they are spelled by: the names and literals that nothing
skips, neither a loop among the nodes nor, as `extra` tells, one around them.  All that is skipped
lies between words. -/
structure Keeps (extra : Pos → Bool) (ws : List Word) (ns : List Node) : Prop where
  selects : Selects (fun p => extra p || ns.any (·.skips p)) ws ns
  inside : ∀ p, (extra p || ns.any (·.skips p)) = true →
    (∃ l ∈ Word.lexemes ws, l.pos < p) ∧ ∃ l ∈ Word.lexemes ws, p < l.pos
  periods : ∀ n ∈ ns, n.isPeriod = true → ∃ m ∈ ns, m.ImportsAs n

namespace Keeps

variable {extra extra' : Pos → Bool} {vs ws : List Word} {ms ns : List Node} {n : Node}

theorem periods_append (h : ∀ n ∈ ms, n.isPeriod = true → ∃ m ∈ ms, m.ImportsAs n)
    (h' : ∀ n ∈ ns, n.isPeriod = true → ∃ m ∈ ns, m.ImportsAs n) :
    ∀ n ∈ ms ++ ns, n.isPeriod = true → ∃ m ∈ ms ++ ns, m.ImportsAs n := by
  refine List.forall_mem_append.mpr ⟨fun n hn hperiod => ?_, fun n hn hperiod => ?_⟩
  · obtain ⟨m, hm, himports⟩ := h n hn hperiod
    exact ⟨m, List.mem_append_left _ hm, himports⟩
  · obtain ⟨m, hm, himports⟩ := h' n hn hperiod
    exact ⟨m, List.mem_append_right _ hm, himports⟩

theorem or_append (a b : Bool) (p : Pos) : ((a || b) || (ms ++ ns).any (·.skips p)) =
    ((a || ms.any (·.skips p)) || (b || ns.any (·.skips p))) := by
  rw [List.any_append]
  cases a <;> cases b <;> simp

/-- **The words of one phrase behind those of another.**  What one of them skips lies between words
of its own, so the other has no words there. -/
theorem append {d : Dialect} (h : Keeps extra vs ms) (h' : Keeps extra' ws ns)
    (hws : Word.Legible d (vs ++ ws)) : Keeps (fun p => extra p || extra' p) (vs ++ ws)
    (ms ++ ns) where
  selects := by
    have hboth := h.selects.append h'.selects (fun l hl => Bool.eq_false_iff.mpr fun hskip => ?_)
      (fun l hl => Bool.eq_false_iff.mpr fun hskip => ?_)
    · exact hboth.congr _ fun l _ => or_append _ _ l.pos
    · obtain ⟨⟨m, hm, hlt⟩, -⟩ := h'.inside l.pos hskip
      exact Nat.lt_asymm (hws.lt (Word.mem_leaves.mp hl).1 hm) hlt
    · obtain ⟨-, m, hm, hlt⟩ := h.inside l.pos hskip
      exact Nat.lt_asymm (hws.lt hm (Word.mem_leaves.mp hl).1) hlt
  inside p hskip := by
    rw [or_append, Bool.or_eq_true] at hskip
    rw [Word.lexemes_append]
    rcases hskip with hskip | hskip
    · obtain ⟨⟨l, hl, hlt⟩, m, hm, hlt'⟩ := h.inside p hskip
      exact ⟨⟨l, List.mem_append_left _ hl, hlt⟩, m, List.mem_append_left _ hm, hlt'⟩
    · obtain ⟨⟨l, hl, hlt⟩, m, hm, hlt'⟩ := h'.inside p hskip
      exact ⟨⟨l, List.mem_append_right _ hl, hlt⟩, m, List.mem_append_right _ hm, hlt'⟩
  periods := periods_append h.periods h'.periods

/-- Words and nodes among which there is no name or literal. -/
theorem quiet (hws : Word.leaves ws = [])
    (hns : ∀ n ∈ ns, n.kind ≠ .ident ∧ n.kind ≠ .basicLit ∧ n.kind ≠ .rangeStmt) :
    Keeps (fun _ => false) ws ns := by
  have hskips (p : Pos) : ns.any (·.skips p) = false :=
    List.any_eq_false.mpr fun n hn hskip => (hns n hn).2.2 (Node.kind_of_skips hskip)
  refine ⟨?_, fun p hskip => ?_, fun n hn hperiod => absurd (Node.kind_of_isPeriod hperiod)
    (hns n hn).1⟩
  · rw [Selects, hws, List.filter_eq_nil_iff.mpr]
    · rfl
    · intro n hn
      rw [Node.isSpelled, Node.isLeaf_eq_false ⟨(hns n hn).1, (hns n hn).2.1⟩]
      nofun
  · rw [hskips] at hskip
    cases hskip

theorem nil (hws : Word.leaves ws = []) : Keeps (fun _ => false) ws [] :=
  quiet hws (List.forall_mem_nil _)

/-- More words, among which there is no other name or literal. -/
theorem widen (h : Keeps extra vs ns) (hsub : vs.Sublist ws)
    (hleaves : Word.leaves ws = Word.leaves vs) :
    Keeps extra ws ns where
  selects := by
    have hselects := h.selects
    rwa [Selects, ← hleaves] at hselects
  inside p hskip := by
    obtain ⟨⟨l, hl, hlt⟩, m, hm, hlt'⟩ := h.inside p hskip
    exact ⟨⟨l, (hsub.filterMap _).subset hl, hlt⟩, m, (hsub.filterMap _).subset hm, hlt'⟩
  periods := h.periods

/-- A lexeme in front that is no name or literal. -/
theorem cons {l : Lexeme} (h : Keeps extra ws ns) (hl : l.isLeaf = false) :
    Keeps extra (.lexeme l :: ws) ns :=
  h.widen (List.sublist_cons_self _ _) (Word.leaves_lexeme hl ws)

/-- A lexeme at the end that is no name or literal. -/
theorem snoc {l : Lexeme} (h : Keeps extra ws ns) (hl : l.isLeaf = false) :
    Keeps extra (ws ++ [.lexeme l]) ns := by
  refine h.widen (List.sublist_append_left _ _) ?_
  rw [Word.leaves_append, Word.leaves_lexeme hl, Word.leaves_nil, List.append_nil]

/-- A node in front that is no name or literal and skips what is skipped around the others. -/
theorem node (h : Keeps extra ws ns) (hleaf : n.isLeaf = false)
    (hskips : ∀ p, n.skips p = extra p) :
    Keeps (fun _ => false) ws (n :: ns) := by
  have hany (p : Pos) : (false || (n :: ns).any (·.skips p)) = (extra p || ns.any (·.skips p)) := by
    rw [List.any_cons, hskips, Bool.false_or]
  have hperiod : ¬ n.isPeriod = true := by
    intro hperiod
    rw [Node.isLeaf, Node.kind_of_isPeriod hperiod] at hleaf
    cases hleaf
  refine ⟨?_, fun p hskip => h.inside p (by rwa [← hany]), List.forall_mem_cons.mpr ⟨?_,
    fun m hm hm' => ?_⟩⟩
  · have hselects := h.selects.congr (fun p => false || (n :: ns).any (·.skips p))
      fun l _ => hany l.pos
    rwa [Selects, List.filter_cons_of_neg (by simp [Node.isSpelled, hleaf])]
  · exact fun h => absurd h hperiod
  · obtain ⟨k, hk, himports⟩ := h.periods m hm hm'
    exact ⟨k, List.mem_cons_of_mem _ hk, himports⟩

/-- A node more that is the period in front of an import. -/
theorem insert (h : Keeps extra ws (ms ++ ns)) (hperiod : n.isPeriod = true)
    (himports : ∃ m ∈ ms ++ ns, m.ImportsAs n) : Keeps extra ws (ms ++ n :: ns) := by
  have hskips (p : Pos) : (ms ++ n :: ns).any (·.skips p) = (ms ++ ns).any (·.skips p) := by
    have hn : n.skips p = false := Bool.eq_false_iff.mpr fun hskip => by
      have hkind := Node.kind_of_skips hskip
      rw [Node.kind_of_isPeriod hperiod] at hkind
      cases hkind
    rw [List.any_append, List.any_cons, hn, Bool.false_or, List.any_append]
  refine ⟨?_, fun p hp => h.inside p (by rwa [← hskips]), fun k hk hk' => ?_⟩
  · have hselects := h.selects.congr (fun p => extra p || (ms ++ n :: ns).any (·.skips p))
      fun l _ => by rw [hskips]
    rw [Selects, List.filter_append] at hselects
    rwa [Selects, List.filter_append, List.filter_cons_of_neg (by simp [Node.isSpelled, hperiod])]
  · have hwiden {m : Node} (hm : m ∈ ms ++ ns) : m ∈ ms ++ n :: ns := by
      rcases List.mem_append.mp hm with hm | hm
      · exact List.mem_append_left _ hm
      · exact List.mem_append_right _ (List.mem_cons_of_mem _ hm)
    have hcases : k = n ∨ k ∈ ms ++ ns := by
      rcases List.mem_append.mp hk with hk | hk
      · exact .inr (List.mem_append_left _ hk)
      · exact (List.mem_cons.mp hk).imp_right (List.mem_append_right _)
    rcases hcases with rfl | hk
    · obtain ⟨m, hm, himports⟩ := himports
      exact ⟨m, hwiden hm, himports⟩
    · obtain ⟨m, hm, himports⟩ := h.periods k hk hk'
      exact ⟨m, hwiden hm, himports⟩

/-- A name or a literal. -/
theorem leaf {d : Dialect} {l : Lexeme} (hl : l.isLeaf = true) (hws : Word.Legible d [.lexeme l]) :
    Keeps (fun _ => false) [.lexeme l] [l.leaf] := by
  have hword := hws.isSpelled_leaf List.mem_cons_self hl
  have hany (p : Pos) : (false || [l.leaf].any (·.skips p)) = false := by
    refine Bool.eq_false_iff.mpr fun hskip => ?_
    have hkind : l.leaf.kind = .rangeStmt := Node.kind_of_skips (by simpa using hskip)
    rw [Node.isSpelled, Node.isLeaf, hkind] at hword
    cases hword
  refine ⟨?_, fun p hskip => ?_, List.forall_mem_singleton.mpr fun hperiod => ?_⟩
  · have hleaves : Word.leaves [.lexeme l] = [l] := List.filter_cons_of_pos hl
    rw [Selects, hleaves, List.filter_cons_of_pos hword, List.filter_cons_of_pos
      (by rw [hany]; rfl)]
    rfl
  · rw [hany] at hskip
    cases hskip
  · rw [Node.isSpelled, hperiod, Bool.not_true, Bool.and_false] at hword
    cases hword

end Keeps

/-! ### Rows -/

/-- Whether no phrase of the sort is the name of an import, and no token in it but in its names and
literals is one. -/
def Phrase.isPlain : Phrase → Bool
  | .importName | .parts _ => false
  | .members s | .member s | .opt s | .orEmpty s | .one s | .ended s | .more s | .trailing
    s | .lines s =>
    s.isPlain
  | .behind t s => !t.isLeaf && s.isPlain
  | _ => true

namespace Part

/-- Whether a part is the targets of a loop over a range. -/
def isTargets : Part → Bool
  | .targets => true
  | _ => false

/-- Whether a part is one of some tokens. -/
def isMarkIn : Part → Bool
  | .markIn _ => true
  | _ => false

/-- Whether no part is the name of an import or a token that is a name or a literal, and a token
stands behind the targets of a loop. -/
def arePlain : List Part → Bool
  | [] => true
  | .targets :: ps => (ps.head?.map isMarkIn).getD false && arePlain ps
  | .sub s :: ps => s.isPlain && arePlain ps
  | .const t :: ps => (Part.const t).isBare && arePlain ps
  | .word t :: ps | .mark t :: ps => !t.isLeaf && arePlain ps
  | .markIn ts :: ps => ts.all (!·.isLeaf) && arePlain ps
  | .lineEnd :: ps | .unmarked :: ps | .args :: ps | .params :: ps => arePlain ps

/-- Whether the targets among the fields of a node leave out a position. -/
def skips : List Part → List Tree → Pos → Bool
  | [], _, _ => false
  | .targets :: ps, _ :: value :: ts, p =>
    (value.kind?.isSome && decide (value.stop ≤ p ∧ p < (ts.head?.getD .nil).asPos)) ||
      skips ps ts p
  | part :: ps, ts, p => skips ps (ts.drop part.arity) p

theorem skips_eq_false {ps : List Part} (h : ps.any isTargets = false) (ts : List Tree) (p : Pos) :
    skips ps ts p = false := by
  induction ps generalizing ts with
  | nil => rfl
  | cons part ps ih =>
    rw [List.any_cons, Bool.or_eq_false_iff] at h
    cases part with
    | targets => cases h.1
    | _ => exact ih h.2 _

end Part

/-- Whether no phrase of the sort is the name of an import, or whether the parts of a stretch of
fields are plain. -/
def Phrase.arePlain : Phrase → Bool
  | .parts ps => Part.arePlain ps
  | s => s.isPlain

/-- Whether the fields of a stretch leave out a position. -/
def Phrase.skips (s : Phrase) (t : Tree) (p : Pos) : Bool :=
  match s with
  | .parts ps => Part.skips ps t.items p
  | _ => false

namespace Phrase

variable {s : Phrase}

theorem arePlain_of_isPlain (h : s.isPlain = true) : s.arePlain = true := by
  cases s with
  | parts ps => cases h
  | _ => exact h

theorem skips_of_isPlain (h : s.isPlain = true) (t : Tree) : s.skips t = fun _ => false := by
  cases s with
  | parts ps => cases h
  | _ => rfl

end Phrase

theorem Covers.isPlain {s s' : Phrase} (h : Covers s s') (hs : s.arePlain = true) :
    s.isPlain = true ∧ s'.isPlain = true := by
  cases h <;> first | exact ⟨rfl, rfl⟩ | exact ⟨hs, hs⟩ | cases hs

namespace Row

variable {s : Phrase} {k : Kind} {ps : List Part}

/-- Only the row of imports has a name of an import. -/
theorem arePlain (h : Row s k ps) (hs : s.arePlain = true) :
    k = .importSpec ∧ ps = [.sub .doc, .sub (.opt .importName), .sub .literal] ∨
      Part.arePlain ps = true := by
  cases h with
  | importSpec => exact .inl ⟨rfl, rfl⟩
  | members s =>
    have hs : s.isPlain = true := hs
    exact .inr (by rw [Part.arePlain, Part.arePlain, Phrase.isPlain, Phrase.isPlain, hs]; rfl)
  | binary _ hop =>
    have hleaf := Token.isLeaf_eq_false (Token.isFixed_of_precedence hop)
    exact .inr (by rw [Part.arePlain, Part.arePlain, List.all_cons, hleaf]; rfl)
  | group hkw | single hkw =>
    have hleaf := Token.isLeaf_eq_false (Token.isFixed_of_mem_declarers hkw)
    exact .inr (by rw [Part.arePlain, Part.arePlain, List.all_cons, hleaf]; rfl)
  | _ => exact .inr rfl

theorem isLeaf (h : Row s k ps) (ts : List Tree) : (Node.mk k ts).isLeaf = false := by
  cases h <;> rfl

theorem targets (h : Row s k ps) (hk : k ≠ .rangeStmt) : ps.any Part.isTargets = false := by
  cases h <;> first | rfl | exact absurd rfl hk

/-- A node leaves out what its targets leave out. -/
theorem skips {d : Dialect} {ws : List Word} {ts : List Tree} (h : Row s k ps)
    (hp : Derives d (.parts ps) ws (.list ts)) (p : Pos) :
    (Node.mk k ts).skips p = Part.skips ps ts p := by
  by_cases hk : k = .rangeStmt
  · subst hk
    cases h with
    | rangeStmt =>
      cases hp with
      | mark _ hp =>
        obtain ⟨us, rfl, hrest⟩ := hp.of_const
        obtain ⟨vs, rfl, -⟩ := hrest.of_const
        rfl
      | cover hc => cases hc
    | rangeTargets =>
      match ts, hp.length_parts with
      | [a, key, value, tokPos, tok, range, x, body], _ => exact (Bool.or_false _).symm
  · rw [Part.skips_eq_false (h.targets hk), Node.skips]
    simp [hk]

end Row

/-! ### Targets of loops -/

/-- The items of a list, each with the words it is spelled by, among which are all names and
literals of the list. -/
def Listing (d : Dialect) (s : Phrase) (ws : List Word) (xs : List Tree) : Prop :=
  ∃ vss : List (List Word), vss.flatten.Sublist ws ∧ Word.leaves ws = Word.leaves vss.flatten ∧
    List.Forall₂ (fun vs x => Derives d s vs x ∧ Keeps (fun _ => false) vs x.nodes) vss xs

/-- A name or a literal behind a phrase stands behind its end. -/
theorem Word.Legible.stop_le_leaf {d : Dialect} {s : Phrase} {vs ws : List Word}
    {t : Tree} {l : Lexeme} (hws : Legible d ws) (h : Derives d s vs t) (hs : s.isProper = true)
    (hsub : (vs ++ [Word.lexeme l]).Sublist ws) (hl : l.isLeaf = true) : t.stop ≤ l.pos := by
  have hplaced : l.pos.isValid = true := hws.placed (.lexeme l) (hsub.subset (by simp))
  rcases (Bool.or_eq_true _ _).mp hl with htoken | htoken
  · have hident : Derives d .ident [.lexeme l] (.ident l.pos l.text) :=
      .ident (beq_iff_eq.mp htoken)
    have hbefore := (hws.separate.before hs rfl rfl hsub h hident).2
    rwa [Tree.ident, Tree.start_of_head hplaced] at hbefore
  · have hliteral : Derives d .literal [.lexeme l] _ := .literal htoken
    have hbefore := (hws.separate.before hs rfl rfl hsub h hliteral).2
    rwa [Tree.start_of_head hplaced] at hbefore

/-- Of the names and literals among the targets of a loop, those before the end of the second target
are in the first two. -/
theorem Selects.twoTargets {d : Dialect} {v₀ v₁ rest vs : List Word} {x y : Tree} {q : Pos}
    (hx : Derives d .expr v₀ x ∧ Keeps (fun _ => false) v₀ x.nodes)
    (hy : Derives d .expr v₁ y ∧ Keeps (fun _ => false) v₁ y.nodes)
    (hsub : (v₀ ++ (v₁ ++ rest)).Sublist vs)
    (hleaves : Word.leaves vs = Word.leaves (v₀ ++ (v₁ ++ rest))) (hws : Word.Legible d vs)
    (hq : ∀ l ∈ Word.lexemes vs, l.pos < q) :
    Selects (fun p => decide (y.stop ≤ p ∧ p < q) || (x.nodes ++ y.nodes).any (·.skips p)) vs
        (x.nodes ++ y.nodes) ∧
      ∀ p, (decide (y.stop ≤ p ∧ p < q) || (x.nodes ++ y.nodes).any (·.skips p)) = true →
        (∃ l ∈ Word.lexemes vs, l.pos < p) ∧ p < q := by
  have hwords : Word.Legible d (v₀ ++ (v₁ ++ rest)) := hws.sublist hsub
  obtain ⟨ls, m, hlast⟩ : ∃ ls m, Word.lexemes v₁ = ls ++ [m] :=
    ⟨_, _, (List.dropLast_concat_getLast (hy.1.lexemes_ne_nil rfl)).symm⟩
  have hm : m ∈ Word.lexemes v₁ := by simp [hlast]
  have hstop : m.pos ≤ y.stop :=
    Pos.le_trans (Pos.le_advance _ _) (hy.1.stop_last rfl rfl (by rw [hlast, List.getLast?_concat]))
  have hbefore : ∀ l ∈ Word.leaves (v₀ ++ v₁), l.pos < y.stop := by
    intro l hl
    rw [Word.leaves_append] at hl
    rcases List.mem_append.mp hl with hl | hl
    · have hlt :=
        hwords.lt (Word.mem_leaves.mp hl).1
          (Word.lexemes_append v₁ rest ▸ List.mem_append_left _ hm)
      exact Nat.lt_of_lt_of_le hlt hstop
    · obtain ⟨hl, hleaf⟩ := Word.mem_leaves.mp hl
      have hsemi : l.token ≠ .semicolon := by
        intro hsemi
        rw [Lexeme.isLeaf, hsemi] at hleaf
        cases hleaf
      have hle := hy.1.stop_lexeme rfl rfl hwords.right.left.before hl hsemi
      exact Nat.lt_of_lt_of_le (hwords.right.left.full l hl hleaf) hle
  have hbehind : ∀ l ∈ Word.leaves rest, y.stop ≤ l.pos ∧ l.pos < q := by
    intro l hl
    obtain ⟨hl, hleaf⟩ := Word.mem_leaves.mp hl
    have hone : [Word.lexeme l].Sublist rest := List.singleton_sublist.mpr (Word.mem_lexemes.mp hl)
    refine ⟨hwords.right.stop_le_leaf hy.1 rfl ((List.Sublist.refl v₁).append hone) hleaf, hq l ?_⟩
    exact (hsub.filterMap _).subset (Word.mem_lexemes.mpr (by simp [Word.mem_lexemes.mp hl]))
  have hboth :=
    hx.2.append hy.2 (hwords.sublist ((List.Sublist.refl v₀).append (List.sublist_append_left _ _)))
  constructor
  · have hrest : (Word.leaves rest).filter (fun l =>
        !(decide (y.stop ≤ l.pos ∧ l.pos < q) || (x.nodes ++ y.nodes).any (·.skips l.pos))) =
          [] := by
      refine List.filter_eq_nil_iff.mpr fun l hl => ?_
      rw [decide_eq_true (hbehind l hl)]
      nofun
    have hfront := hboth.selects.congr
      (fun p => decide (y.stop ≤ p ∧ p < q) || (x.nodes ++ y.nodes).any (·.skips p)) fun l hl => by
        rw [decide_eq_false fun h => Nat.not_le_of_lt (hbefore l hl) h.1]
        rfl
    rw [Selects, hfront, hleaves, ← List.append_assoc, Word.leaves_append _ rest,
      List.filter_append, hrest, List.append_nil]
  · have hsubset : Word.lexemes (v₀ ++ v₁) ⊆ Word.lexemes vs := by
      rw [← List.append_assoc] at hsub
      exact (((List.sublist_append_left _ _).trans hsub).filterMap _).subset
    intro p hp
    rcases (Bool.or_eq_true _ _).mp hp with hp | hp
    · obtain ⟨hle, hlt⟩ := of_decide_eq_true hp
      obtain ⟨l, hl⟩ := List.exists_mem_of_ne_nil _ (hx.1.lexemes_ne_nil rfl)
      have hbefore := hwords.lt hl (Word.lexemes_append v₁ rest ▸ List.mem_append_left _ hm)
      refine ⟨⟨l, hsubset ?_, Nat.lt_of_lt_of_le hbefore (Pos.le_trans hstop hle)⟩, hlt⟩
      rw [Word.lexemes_append]
      exact List.mem_append_left _ hl
    · obtain ⟨⟨l, hl, hlt⟩, m, hm, hlt'⟩ := hboth.inside p hp
      exact ⟨⟨l, hsubset hl, hlt⟩, Nat.lt_trans hlt' (hq m (hsubset hm))⟩

/-- **The targets of a loop and what is behind them.**  The loop skips what is behind the second
target. -/
theorem Keeps.targets {d : Dialect} {vs us : List Word} {xs : List Tree}
    {ns : List Node} {l : Lexeme} {extra : Pos → Bool} (hxs : Listing d .expr vs xs)
    (h : Keeps extra (.lexeme l :: us) ns) (hws : Word.Legible d (vs ++ .lexeme l :: us)) :
    Keeps (fun p => ((xs[1]?.getD Tree.nil).kind?.isSome &&
        decide ((xs[1]?.getD Tree.nil).stop ≤ p ∧ p < l.pos)) || extra p) (vs ++ .lexeme l :: us)
      ((xs[0]?.getD Tree.nil).nodes ++ ((xs[1]?.getD Tree.nil).nodes ++ ns)) := by
  obtain ⟨vss, hsub, hleaves, hall⟩ := hxs
  match vss, xs, hall with
  | [], [], _ => exact (Keeps.nil hleaves).append h hws
  | [v₀], [x], .cons hx .nil =>
    have hx : Keeps (fun _ => false) vs x.nodes :=
      hx.2.widen (by simpa using hsub) (by simpa using hleaves)
    exact hx.append h hws
  | v₀ :: v₁ :: vss, x :: y :: xs, .cons hx (.cons hy hrest) =>
    have hkind : y.kind?.isSome = true := by
      refine Tree.isSome_kind? ((hy.1.isCode (fun w hw => hws.placed w ?_) rfl).1 rfl)
      exact List.mem_append_left _ (hsub.subset (by simp [hw]))
    have hq : ∀ m ∈ Word.lexemes vs, m.pos < l.pos := fun m hm => hws.lt hm List.mem_cons_self
    have hafter : ∀ m ∈ Word.lexemes (.lexeme l :: us), l.pos ≤ m.pos :=
      List.forall_mem_cons.mpr ⟨Pos.le_refl _, fun m hm =>
        Nat.le_of_lt (List.rel_of_pairwise_cons hws.right.sorted hm)⟩
    obtain ⟨hselects, hinside⟩ := Selects.twoTargets (q := l.pos) hx hy hsub hleaves hws.left hq
    have hor (p : Pos) : (((y.kind?.isSome && decide (y.stop ≤ p ∧ p < l.pos)) || extra p) ||
        ((x.nodes ++ y.nodes) ++ ns).any (·.skips p)) =
        ((decide (y.stop ≤ p ∧ p < l.pos) || (x.nodes ++ y.nodes).any (·.skips p)) ||
          (extra p || ns.any (·.skips p))) := by
      rw [hkind, Bool.true_and]
      exact Keeps.or_append _ _ p
    rw [← List.append_assoc]
    refine ⟨?_, fun p hp => ?_, ?_⟩
    · refine (hselects.append h.selects (fun m hm => ?_) fun m hm => ?_).congr _ fun m _ =>
        hor m.pos
      · refine Bool.eq_false_iff.mpr fun hskip => ?_
        obtain ⟨⟨k, hk, hlt⟩, -⟩ := h.inside m.pos hskip
        exact Nat.lt_asymm (hws.lt (Word.mem_leaves.mp hm).1 hk) hlt
      · refine Bool.eq_false_iff.mpr fun hskip => ?_
        exact Nat.not_le_of_lt (hinside m.pos hskip).2 (hafter m (Word.mem_leaves.mp hm).1)
    · rw [Word.lexemes_append]
      rcases (Bool.or_eq_true _ _).mp ((hor p).symm.trans hp) with hp | hp
      · obtain ⟨⟨k, hk, hlt⟩, hlt'⟩ := hinside p hp
        exact ⟨⟨k, List.mem_append_left _ hk, hlt⟩, l, List.mem_append_right _ List.mem_cons_self,
          hlt'⟩
      · obtain ⟨⟨k, hk, hlt⟩, m, hm, hlt'⟩ := h.inside p hp
        exact ⟨⟨k, List.mem_append_right _ hk, hlt⟩, m, List.mem_append_right _ hm, hlt'⟩
    · exact Keeps.periods_append (Keeps.periods_append hx.2.periods hy.2.periods) h.periods

/-! ### Parameter lists -/

namespace Rules

variable {es : List ParamEntry} {fs pending : List Tree} {P : Node → Bool}

theorem filter_nodes_field_cons (hP : ∀ n, n.kind = .field → P n = false)
    (names : List Tree) (type : Tree) (gs : List Tree) :
    (Tree.nodesAll (plainField names type :: gs)).filter P =
      (Tree.nodesAll (names ++ [type])).filter P ++ (Tree.nodesAll gs).filter P := by
  rw [Tree.nodesAll, nodes_plainField, List.cons_append, List.filter_cons_of_neg (by simp [hP]),
    List.filter_append]

theorem filter_nodes_parts (hP : ∀ n, n.kind = .field → P n = false) (es : List ParamEntry) :
    (Tree.nodesAll (es.flatMap (·.parts))).filter P =
      (Tree.nodesAll (es.map (·.field))).filter P := by
  induction es with
  | nil => rfl
  | cons e es ih =>
    rw [List.flatMap_cons, Tree.nodesAll_append, List.filter_append, ih, List.map_cons,
      ParamEntry.field, filter_nodes_field_cons hP, ParamEntry.parts]

/-- Names that share a type are put before it, and a wildcard before the names that wait for their
type. -/
theorem filter_nodes_namedFields (hP : ∀ n, n.kind = .field → P n = false)
    (hdots : ∀ e ∈ es, e.type.isKind .dots = true → e.type.nodes.filter P = [])
    (h : namedFields pending es = .ok fs) :
    (Tree.nodesAll fs).filter P = (Tree.nodesAll (pending ++ es.flatMap (·.parts))).filter P := by
  fun_induction namedFields pending es generalizing fs with
  | case1 =>
    cases h
    rfl
  | case2 => cases h
  | case3 pending name type es ih =>
    obtain ⟨gs, hgs, h⟩ := exists_of_bind_ok h
    cases h
    rw [filter_nodes_field_cons hP, ih (fun e he => hdots e (List.mem_cons_of_mem _ he)) hgs,
      ← List.filter_append, ← Tree.nodesAll_append, List.flatMap_cons]
    simp [ParamEntry.parts]
  | case4 pending type es hkind ih =>
    obtain ⟨gs, hgs, h⟩ := exists_of_bind_ok h
    cases h
    have hnone := hdots _ List.mem_cons_self hkind
    rw [filter_nodes_field_cons hP, ih (fun e he => hdots e (List.mem_cons_of_mem _ he)) hgs,
      List.flatMap_cons, ParamEntry.parts]
    simp [Tree.nodesAll_append, Tree.nodesAll, hnone]
  | case5 pending type es _ _ ih =>
    rw [ih (fun e he => hdots e (List.mem_cons_of_mem _ he)) h, List.flatMap_cons]
    simp [ParamEntry.parts]
  | case6 => cases h

/-- The fields of a parameter list have the nodes that its entries have, in their order, but for the
fields themselves and the wildcards. -/
theorem filter_nodes_fieldsOfEntries (hP : ∀ n, n.kind = .field → P n = false)
    (hdots : ∀ e ∈ es, e.type.isKind .dots = true → e.type.nodes.filter P = [])
    (h : fieldsOfEntries es = .ok fs) :
    (Tree.nodesAll fs).filter P = (Tree.nodesAll (es.map (·.field))).filter P := by
  rcases namedFields_or_fields h with h | rfl
  · rw [filter_nodes_namedFields hP hdots h, List.nil_append, filter_nodes_parts hP]
  · rfl

end Rules

/-- The fields of a parameter list keep what its entries keep. -/
theorem Keeps.params {ws : List Word} {es : List Rules.ParamEntry} {fs : List Tree}
    (h : Keeps (fun _ => false) ws (Tree.nodesAll (es.map (·.field))))
    (hdots : ∀ e ∈ es, e.type.isKind .dots = true → ∀ n ∈ e.type.nodes, n.kind = .dots)
    (hfields : Rules.fieldsOfEntries es = .ok fs) :
    Keeps (fun _ => false) ws (Tree.nodesAll fs) := by
  have hfilter {P : Node → Bool} (hfield : ∀ n, n.kind = .field → P n = false)
      (hdot : ∀ n, n.kind = .dots → P n = false) :
      (Tree.nodesAll fs).filter P = (Tree.nodesAll (es.map (·.field))).filter P :=
    Rules.filter_nodes_fieldsOfEntries hfield (fun e he hkind => List.filter_eq_nil_iff.mpr
      fun n hn => by
      rw [hdot n (hdots e he hkind n hn)]
      nofun) hfields
  have hmem (k : Kind) (hk : k ≠ .field ∧ k ≠ .dots) {n : Node} (hn : n.kind = k) :
      n ∈ Tree.nodesAll fs ↔ n ∈ Tree.nodesAll (es.map (·.field)) := by
    have hother {m : Node} {k' : Kind} (hne : k ≠ k') (hm : m.kind = k') : (m.kind == k) = false :=
      beq_eq_false_iff_ne.mpr fun heq => hne (heq.symm.trans hm)
    have hiff :=
      congrArg (n ∈ ·) (hfilter (P := (·.kind == k)) (fun m => hother hk.1) fun m => hother hk.2)
    simpa [List.mem_filter, hn] using hiff
  have hskips (p : Pos) : (Tree.nodesAll fs).any (·.skips p) =
      (Tree.nodesAll (es.map (·.field))).any (·.skips p) := by
    rw [Bool.eq_iff_iff, List.any_eq_true, List.any_eq_true]
    refine exists_congr fun n => and_congr_left fun hn => ?_
    exact hmem .rangeStmt ⟨nofun, nofun⟩ (Node.kind_of_skips hn)
  refine ⟨?_, fun p hp => h.inside p (by rwa [← hskips]), fun n hn hperiod => ?_⟩
  · have hselects := h.selects.congr (fun p => false || (Tree.nodesAll fs).any (·.skips p))
      fun l _ => by rw [hskips]
    have hword {n : Node} (hn : n.kind = .field ∨ n.kind = .dots) : n.isSpelled = false := by
      rcases hn with hn | hn
      all_goals
        rw [Node.isSpelled, Node.isLeaf, hn]
        rfl
    rwa [Selects, hfilter (fun n hn => hword (.inl hn)) fun n hn => hword (.inr hn)]
  · obtain ⟨m, hm, himports⟩ :=
      h.periods n ((hmem .ident ⟨nofun, nofun⟩ (Node.kind_of_isPeriod hperiod)).mp hn) hperiod
    exact ⟨m, (hmem .importSpec ⟨nofun, nofun⟩ himports.1).mpr hm, himports⟩

/-! ### Derivations -/

theorem Keeps.comments {ws : List Word} {ns : List Node} (hws : Word.leaves ws = [])
    (hns : ∀ n ∈ ns, n.kind.isComment = true) : Keeps (fun _ => false) ws ns := by
  refine .quiet hws fun n hn => ⟨fun h => ?_, fun h => ?_, fun h => ?_⟩
  all_goals
    have hcomment := hns n hn
    rw [h] at hcomment
    cases hcomment

namespace Listing

variable {d : Dialect} {s : Phrase} {vs ws : List Word} {xs : List Tree} {x : Tree}

theorem nil : Listing d s [] [] := ⟨[], .slnil, rfl, .nil⟩

theorem snoc_lexeme {l : Lexeme} (h : Listing d s ws xs) (hl : l.isLeaf = false) :
    Listing d s (ws ++ [.lexeme l]) xs := by
  obtain ⟨vss, hsub, hleaves, hall⟩ := h
  refine ⟨vss, hsub.trans (List.sublist_append_left _ _), ?_, hall⟩
  rw [Word.leaves_append, Word.leaves_lexeme hl, Word.leaves_nil, List.append_nil, hleaves]

theorem snoc (h : Listing d s ws xs) (hx : Derives d s vs x)
    (hkeeps : Keeps (fun _ => false) vs x.nodes) :
    Listing d s (ws ++ vs) (xs ++ [x]) := by
  obtain ⟨vss, hsub, hleaves, hall⟩ := h
  refine ⟨vss ++ [vs], ?_, ?_, List.rel_append hall (.cons ⟨hx, hkeeps⟩ .nil)⟩
  · rw [List.flatten_append, List.flatten_singleton]
    exact hsub.append (.refl _)
  · rw [List.flatten_append, List.flatten_singleton, Word.leaves_append,
      Word.leaves_append, hleaves]

end Listing

namespace Derives

variable {d : Dialect} {s : Phrase} {ws : List Word} {t : Tree}

/-- What an induction over derivations shows of the names and literals of a phrase: the tree keeps
them, and if it is a list, so does each of its items. -/
structure Keeping (d : Dialect) (s : Phrase) (ws : List Word) (t : Tree) : Prop where
  keeps : Keeps (s.skips t) ws t.nodes
  items : ∀ {s'}, Phrase.item? s = some s' → Listing d s' ws t.items

theorem Keeping.of_keeps (h : Keeps (fun _ => false) ws t.nodes) (hs : s.isPlain = true)
    (hitem : Phrase.item? s = Option.none) : Keeping d s ws t where
  keeps := by rwa [Phrase.skips_of_isPlain hs]
  items h := by
    rw [hitem] at h
    cases h

theorem Keeping.of_parts {ps : List Part} {ts : List Tree}
    (h : Keeps (Part.skips ps ts) ws (Tree.nodesAll ts)) : Keeping d (.parts ps) ws (.list ts) where
  keeps := by
    rw [Tree.nodes_list]
    exact h
  items := nofun

/-- The tree of a phrase keeps the names and literals among its words. -/
theorem Keeping.phrase (h : Keeping d s ws t) (hs : s.isPlain = true) :
    Keeps (fun _ => false) ws t.nodes := by
  have hkeeps := h.keeps
  rwa [Phrase.skips_of_isPlain hs] at hkeeps

theorem Keeping.parts {ps : List Part} {ts : List Tree} (h : Keeping d (.parts ps) ws (.list ts)) :
    Keeps (Part.skips ps ts) ws (Tree.nodesAll ts) := by
  have hkeeps := h.keeps
  rwa [Tree.nodes_list] at hkeeps

/-- What stands behind the targets of a loop. -/
theorem of_markIn {ps : List Part} {ts : List Tree} (h : Derives d (.parts ps) ws (.list ts))
    (hps : (ps.head?.map Part.isMarkIn).getD false = true) :
    ∃ l us ts', ws = .lexeme l :: us ∧ ts = .pos l.pos :: .tok l.token :: ts' := by
  match ps, hps with
  | .markIn toks :: ps, _ =>
    cases h with
    | markIn => exact ⟨_, _, _, rfl, rfl⟩
    | cover hc => cases hc

/-- The wildcards among the entries of a parameter list have nothing inside. -/
theorem dots_entries {es : List Rules.ParamEntry}
    (h : Derives d (.trailing .entry) ws (.list (es.map (·.field)))) (hws : ∀ w ∈ ws, w.Placed) :
    ∀ e ∈ es, e.type.isKind .dots = true → ∀ n ∈ e.type.nodes, n.kind = .dots := by
  intro e he hkind
  have hnodes := h.nodes_leaf rfl hws
  rw [Tree.nodes_list, Tree.forall_nodesAll] at hnodes
  have htype := (Tree.forall_nodes_field.mp (hnodes _ (List.mem_map_of_mem he))).2.2
  cases hnode : e.type with
  | node k gs =>
    rw [hnode] at hkind htype
    obtain rfl : k = .dots := by simpa [Tree.isKind, Tree.kind?] using hkind
    rw [Tree.nodes_node] at htype ⊢
    have hempty : Tree.nodesAll gs = [] := htype _ List.mem_cons_self (.inr rfl)
    rw [hempty]
    exact List.forall_mem_singleton.mpr rfl
  | _ =>
    rw [hnode] at hkind
    cases hkind

/-- The name of an import is an identifier, or a period that is kept as one. -/
theorem importName_cases (h : Derives d (.opt .importName) ws t) : ws = [] ∧ t = .nil ∨ ∃ l,
    ws = [.lexeme l] ∧
      (l.token = .ident ∧ t = .ident l.pos l.text ∨ l.token = .period ∧ t = .ident l.pos ".") := by
  cases h with
  | none => exact .inl ⟨rfl, rfl⟩
  | cover hc h =>
    cases hc
    cases h with
    | period hl => exact .inr ⟨_, rfl, .inr ⟨hl, rfl⟩⟩
    | cover hc h =>
      cases hc
      cases h with
      | ident hl => exact .inr ⟨_, rfl, .inl ⟨hl, rfl⟩⟩
      | cover hc => cases hc
      | node hr => cases hr
    | node hr => cases hr
  | node hr => cases hr

/-- An import keeps the name it is given; if that is a period, it is the only one in the import. -/
theorem keeps_importSpec {ts : List Tree} (hws : Word.Legible d ws)
    (h : Derives d (.parts [.sub .doc, .sub (.opt .importName), .sub .literal]) ws (.list ts)) :
    Keeps (fun _ => false) ws (Tree.node .importSpec ts).nodes := by
  obtain ⟨ws₁, ws₂, doc, ts, rfl, rfl, hdoc, h⟩ := h.of_sub
  obtain ⟨ws₂, ws₃, name, ts, rfl, rfl, hname, h⟩ := h.of_sub
  obtain ⟨ws₃, ws₄, path, ts, rfl, rfl, hpath, h⟩ := h.of_sub
  obtain ⟨rfl, rfl⟩ : ws₄ = [] ∧ ts = [] := by
    cases h with
    | partsNil => exact ⟨rfl, rfl⟩
    | cover hc => cases hc
  have hdoc : Keeps (fun _ => false) ws₁ doc.nodes := by
    rcases hdoc.doc_cases with ⟨rfl, rfl⟩ | ⟨g, rfl, rfl⟩
    · exact .nil rfl
    · exact .comments rfl (hws.placed (.doc g) List.mem_cons_self).2.2
  have hpath : Keeps (fun _ => false) ws₃ path.nodes := by
    cases hpath with
    | literal hl =>
      have hkeeps := Keeps.leaf (by rw [Lexeme.isLeaf, Token.isLeaf, hl, Bool.or_true])
        hws.right.right.left
      rwa [Lexeme.leaf_of_literal hl] at hkeeps
    | cover hc => cases hc
    | node hr => cases hr
  rw [List.append_nil] at hws ⊢
  have hnodes (ns : List Node) (hns : name.nodes = ns) :
      (Tree.node .importSpec [doc, name, path]).nodes =
      ⟨.importSpec, [doc, name, path]⟩ :: (doc.nodes ++ (ns ++ path.nodes)) := by
    rw [Tree.nodes_node, Tree.nodesAll, Tree.nodesAll, Tree.nodesAll_singleton, hns]
  rcases hname.importName_cases with ⟨rfl, rfl⟩ | ⟨l, rfl, ⟨hl, rfl⟩ | ⟨hl, rfl⟩⟩
  · rw [hnodes [] rfl]
    exact (hdoc.append hpath hws).node rfl fun _ => rfl
  · rw [hnodes _ rfl]
    have hname := Keeps.leaf (by rw [Lexeme.isLeaf, hl]; rfl) hws.right.left
    rw [Lexeme.leaf_of_ident hl] at hname
    exact (hdoc.append (hname.append hpath hws.right) hws).node rfl fun _ => rfl
  · rw [hnodes [⟨.ident, [.pos l.pos, .str "."]⟩] rfl]
    have hrest := hdoc.append (hpath.cons (l := l) (by rw [Lexeme.isLeaf, hl]; rfl)) hws
    have hspec := hrest.node (n := ⟨.importSpec, [doc, .ident l.pos ".", path]⟩) rfl fun _ => rfl
    rw [← List.cons_append] at hspec
    exact hspec.insert rfl ⟨_, List.mem_append_left _ List.mem_cons_self, rfl, rfl⟩

/-- **The tree of a phrase keeps the names and literals among its words**, but for those that a loop
over a range skips. -/
theorem keeping (h : Derives d s ws t) (hs : s.arePlain = true) (hws : Word.Legible d ws) :
    Keeping d s ws t := by
  have hsilent {l : Lexeme} {tok : Token} (hl : l.token = tok) (htok : (!tok.isLeaf) = true) :
      l.isLeaf = false := by
    rw [Lexeme.isLeaf, hl]
    simpa using htok
  have hleaves {l : Lexeme} (hl : l.isLeaf = false) : Word.leaves [.lexeme l] = [] :=
    Word.leaves_lexeme hl []
  have hone {vs : List Word} {x : Tree} (h : Keeps (fun _ => false) vs x.nodes) :
      Keeps (fun _ => false) vs (Tree.list [x]).nodes := by
    rwa [Tree.nodes_list, Tree.nodesAll_singleton]
  -- one item more
  have hsnoc {vs us : List Word} {xs : List Tree} {x : Tree}
      (hxs : Keeps (fun _ => false) vs (Tree.list xs).nodes)
      (hx : Keeps (fun _ => false) us x.nodes)
      (hws : Word.Legible d (vs ++ us)) : Keeps (fun _ => false) (vs ++ us)
      (Tree.list (xs ++ [x])).nodes := by
    rw [Tree.nodes_list, Tree.nodesAll_append, Tree.nodesAll_singleton]
    exact hxs.append hx hws
  induction h with
  | ident hl =>
    have hkeeps := Keeps.leaf (by rw [Lexeme.isLeaf, hl]; rfl) hws
    exact .of_keeps (by rwa [Lexeme.leaf_of_ident hl] at hkeeps) rfl rfl
  | literal hl =>
    have hkeeps := Keeps.leaf (by rw [Lexeme.isLeaf, Token.isLeaf, hl, Bool.or_true]) hws
    exact .of_keeps (by rwa [Lexeme.leaf_of_literal hl] at hkeeps) rfl rfl
  | dots _ hl =>
    exact .of_keeps (.quiet (hleaves (hsilent hl rfl)) (List.forall_mem_singleton.mpr
      ⟨nofun, nofun, nofun⟩)) rfl rfl
  | period => cases hs
  | noDoc => exact .of_keeps (.nil rfl) rfl rfl
  | none | empty => exact .of_keeps (.nil rfl) hs rfl
  | endedNil => exact ⟨.nil rfl, fun _ => .nil⟩
  | linesNil => exact .of_keeps (.nil rfl) hs rfl
  | doc g => exact .of_keeps (.comments rfl (hws.placed (.doc g) List.mem_cons_self).2.2) rfl rfl
  | cover hc _ ih =>
    obtain ⟨hs, hs'⟩ := hc.isPlain hs
    have hkeeps := ih (Phrase.arePlain_of_isPlain hs') hws
    refine ⟨by rw [Phrase.skips_of_isPlain hs]; exact hkeeps.phrase hs',
      fun hitem => hkeeps.items ?_⟩
    cases hc <;> first | exact hitem | cases hitem
  | @node s k ps ws ts hr hp ih =>
    have hplain : s.isPlain = true := by cases hr <;> exact hs
    refine .of_keeps ?_ hplain (by cases hr <;> rfl)
    rcases hr.arePlain hs with ⟨rfl, rfl⟩ | hps
    · exact keeps_importSpec hws hp
    · rw [Tree.nodes_node]
      exact (ih hps hws).parts.node (hr.isLeaf ts) (hr.skips hp)
  | behind hl _ ih =>
    obtain ⟨htok, hs⟩ := (Bool.and_eq_true _ _).mp hs
    have hkeeps := (ih (Phrase.arePlain_of_isPlain hs) hws.tail).phrase hs
    exact .of_keeps (hkeeps.cons (hsilent hl htok)) (by rw [Phrase.isPlain, htok, hs]; rfl) rfl
  | spread _ hl ih => exact .of_keeps (((ih rfl hws.left).phrase rfl).snoc (hsilent hl rfl)) rfl rfl
  | one _ _ ih => exact .of_keeps (hone ((ih (Phrase.arePlain_of_isPlain hs) hws).phrase hs)) hs rfl
  | firstName _ ih => exact .of_keeps (hone ((ih rfl hws).phrase rfl)) rfl rfl
  | linesSemicolon _ hl ih =>
    exact .of_keeps (((ih hs hws.left).phrase hs).snoc (hsilent hl rfl)) hs rfl
  | linesItem _ _ _ ih₁ ih₂ =>
    have hlast := (ih₂ (Phrase.arePlain_of_isPlain hs) hws.right).phrase hs
    exact .of_keeps (hsnoc ((ih₁ hs hws.left).phrase hs) hlast hws) hs rfl
  | nextName _ hl _ ih₁ ih₂ =>
    have hlast := ((ih₂ rfl hws.right.tail).phrase rfl).cons (hsilent hl rfl)
    exact .of_keeps (hsnoc ((ih₁ rfl hws.left).phrase rfl) hlast hws) rfl rfl
  | @endedComma s _ _ _ _ hl ih =>
    have hrest := ih hs hws.left
    exact ⟨(hrest.phrase hs).snoc (hsilent hl rfl), fun hitem => (hrest.items hitem).snoc_lexeme
      (hsilent hl rfl)⟩
  | @more s _ _ _ _ _ _ ht ih₁ ih₂ =>
    have hrest := ih₁ hs hws.left
    have hlast := (ih₂ (Phrase.arePlain_of_isPlain hs) hws.right).phrase hs
    refine ⟨hsnoc (hrest.phrase hs) hlast hws, fun hitem => ?_⟩
    cases hitem
    exact (hrest.items rfl).snoc ht hlast
  | partsNil => exact .of_parts (.nil rfl)
  | word hl _ ih =>
    obtain ⟨htok, hs⟩ := (Bool.and_eq_true _ _).mp hs
    exact .of_parts ((ih hs hws.tail).parts.cons (hsilent hl htok))
  | noLineEnd _ ih => exact .of_parts (ih hs hws).parts
  | lineEnd hl _ ih => exact .of_parts ((ih hs hws.tail).parts.cons (hsilent hl rfl))
  | mark hl _ ih =>
    obtain ⟨htok, hs⟩ := (Bool.and_eq_true _ _).mp hs
    exact .of_parts ((ih hs hws.tail).parts.cons (hsilent hl htok))
  | markIn hl _ ih =>
    obtain ⟨htoks, hs⟩ := (Bool.and_eq_true _ _).mp hs
    exact .of_parts ((ih hs hws.tail).parts.cons (hsilent rfl (List.all_eq_true.mp htoks _ hl)))
  | unmarked _ ih => exact .of_parts (ih hs hws).parts
  | const _ ih =>
    obtain ⟨hbare, hs⟩ := (Bool.and_eq_true _ _).mp hs
    refine .of_parts ?_
    rw [Tree.nodesAll, (Part.isBare_const hbare).1]
    exact (ih hs hws).parts
  | sub _ _ ih₁ ih₂ =>
    obtain ⟨hs₁, hs₂⟩ := (Bool.and_eq_true _ _).mp hs
    have hfirst := (ih₁ (Phrase.arePlain_of_isPlain hs₁) hws.left).phrase hs₁
    exact .of_parts (hfirst.append (ih₂ hs₂ hws.right).parts hws)
  | args _ _ _ ih₁ ih₂ =>
    exact .of_parts (((ih₁ rfl hws.left).phrase rfl).append (ih₂ hs hws.right).parts hws)
  | targets _ hp ih₁ ih₂ =>
    obtain ⟨hmark, hs⟩ := (Bool.and_eq_true _ _).mp hs
    have hrest := (ih₂ hs hws.right).parts
    obtain ⟨l, us, ts, rfl, rfl⟩ := hp.of_markIn hmark
    exact .of_parts (.targets ((ih₁ rfl hws.left).items rfl) hrest hws)
  | params hes hfields _ ih₁ ih₂ =>
    have hentries := (ih₁ rfl hws.left).phrase rfl
    rw [Tree.nodes_list] at hentries
    have hdots := hes.dots_entries hws.left.placed
    exact .of_parts ((hentries.params hdots hfields).append (ih₂ hs hws.right).parts hws)

end Derives

/-! ### Files -/

/-- An identifier begins with a letter. -/
theorem Piece.recogniseToken_ident {c : Char} {cs : List Char} {n : Nat}
    (h : recogniseToken c cs = .ok (.ident, n)) : isLetter c = true := by
  unfold recogniseToken at h
  split at h
  · assumption
  split at h
  · have hmem := number_token (c :: cs)
    have ht : (number (c :: cs)).1 = .ident := (Prod.mk.inj (Except.ok.inj h)).1
    rw [ht] at hmem
    cases hmem with
    | tail _ hmem => cases hmem with | tail _ hmem => cases hmem with | tail _ hmem => cases hmem
  split at h
  · split at h
    · split at h <;> cases h
    · cases h
  · split at h
    · rename_i t hop
      obtain ⟨hmem, -⟩ := operator?_eq_some hop
      have hall : ∀ t ∈ Token.operators, t ≠ .ident := by decide
      exact absurd (Prod.mk.inj (Except.ok.inj h)).1 (hall t hmem)
    · cases h

theorem Piece.recogniseToken_of_recognise {c : Char} {cs : List Char} {t : Token} {n : Nat}
    (h : recognise c cs = .ok (.token t, n)) : recogniseToken c cs = .ok (t, n) := by
  unfold recognise at h
  repeat
    split at h
    · first | cases h | (split at h <;> cases h)
  cases hr : recogniseToken c cs with
  | error e =>
    rw [hr] at h
    cases h
  | ok x =>
    rw [hr] at h
    cases h
    rfl

theorem Piece.Splits.isLetter {cs : List Char} {ps : List Piece} (h : Splits cs ps)
    {p : Piece} (hp : p ∈ ps) (hk : p.kind = .token .ident) : ∃ c w, p.text = c :: w ∧
      isLetter c = true := by
  induction h with
  | nil => cases hp
  | @cons c _ _ _ _ hr _ ih =>
    rcases List.mem_cons.mp hp with rfl | hp
    · subst hk
      exact ⟨c, _, rfl, recogniseToken_ident (recogniseToken_of_recognise hr)⟩
    · exact ih hp

namespace FileReading

variable {d : Dialect} {cs : List Char} (r : FileReading d cs)

theorem exists_piece {l : Lexeme} (hl : l ∈ Word.lexemes r.words) (hleaf : l.isLeaf = true) :
    ∃ p ∈ r.pieces, ∃ n, p.kind = .token l.token ∧ l = Scan.lexemeAt n l.token p.text := by
  have hsemi : l.token ≠ .semicolon := by
    intro ht
    rw [Lexeme.isLeaf, ht] at hleaf
    cases hleaf
  exact r.scans.exists_piece_of_lexeme (List.mem_append_left _ hl) hsemi (r.ended.ne_eof hl)

/-- The words of a file stand in order and apart. -/
theorem legible : Word.Legible d r.words where
  sorted := by
    have hsorted := r.scans.pairwise_pos fun p hp => r.splits.text_ne_nil hp
    exact (List.pairwise_append.mp hsorted).1.imp_of_mem fun _ hm hlt => hlt (r.ended.ne_eof hm)
  before := r.pairwise_lexemes
  separate := r.separate
  placed w hw := r.placed hw
  full l hl hleaf := by
    obtain ⟨p, hp, n, hk, heq⟩ := r.exists_piece hl hleaf
    have hwidth := byteLength_pos (r.splits.text_ne_nil hp)
    rw [heq, Scan.stop_lexemeAt (r.splits.allSpelled p hp _ hk), Pos.lt_def]
    exact Nat.succ_lt_succ (Nat.lt_add_of_pos_right hwidth)
  names l hl hident hname := by
    obtain ⟨p, hp, n, hk, heq⟩ := r.exists_piece hl (by rw [Lexeme.isLeaf, hident]; rfl)
    rw [hident] at hk
    obtain ⟨c, w, hcw, hletter⟩ := r.splits.isLetter hp hk
    have htext : l.text = String.ofList p.text := by
      rw [heq, hident]
      rfl
    rw [hname, hcw] at htext
    have hperiod : ['.'] = c :: w := by
      rw [← String.toList_ofList (l := c :: w), ← htext]
      rfl
    cases hperiod
    exact absurd hletter (by decide)

/-- **A file keeps the names and literals among its words**, but for those that a loop over a range
skips. -/
theorem keeps : Keeps (fun _ => false) r.words r.node.tree.nodes := by
  have hcode := (r.code_derives.keeping rfl r.legible).parts
  have hcomments := @Keeps.comments [] _ rfl r.isComment_comments
  have hall := hcode.append hcomments (by rw [List.append_nil]; exact r.legible)
  rw [List.append_nil] at hall
  rw [r.nodes_node]
  refine hall.node rfl fun p => ?_
  rw [Part.skips_eq_false rfl]
  rfl

/-- The periods among the names of a file stand for periods of its text. -/
theorem exists_period {n : Node} (hn : n ∈ r.node.tree.nodes) (hperiod : n.isPeriod = true) :
    ∃ l ∈ Word.lexemes r.words, l.token = .period ∧ n = ⟨.ident, [.pos l.pos, .str "."]⟩ := by
  have hother {n : Node} (hkind : n.kind ≠ .ident) (h : n.isPeriod = true) :
      ∃ l ∈ Word.lexemes r.words, l.token = .period ∧ n = ⟨.ident, [.pos l.pos, .str "."]⟩ :=
    absurd (Node.kind_of_isPeriod h) hkind
  have hcomment {n : Node} (h : n.kind.isComment = true) : n.kind ≠ .ident := by
    intro hkind
    rw [hkind] at h
    cases h
  rw [r.nodes_node, List.mem_cons, List.mem_append] at hn
  rcases hn with rfl | hn | hn
  · exact hother nofun hperiod
  · refine r.code_derives.forall_nodes_of_words (Q := (· ∈ r.words)) (fun {l} hl hmem heq => ?_)
      (fun {l} hl hmem _ => ⟨l, Word.mem_lexemes.mpr hmem, hl, rfl⟩)
      (fun _ _ => hother (n := ⟨.basicLit, _⟩) nofun) (fun _ _ => hother (n := ⟨.dots, _⟩) nofun)
      (fun _ _ _ _ _ _ => hother (n := ⟨.field, _⟩) nofun) (fun hr _ _ => hother ?_)
      (fun hg m hm => hother (hcomment ((r.placed hg).2.2 m hm))) rfl (fun w hw => hw) n
      (by rwa [Tree.nodes_list]) hperiod
    · exact absurd (Option.some.inj (beq_iff_eq.mp heq))
        (r.legible.names l (Word.mem_lexemes.mpr hmem) hl)
    · cases hr <;> nofun
  · exact hother (hcomment (r.isComment_comments n hn)) hperiod

end FileReading

/-- **Every name and literal of a text is in its file once**, as an identifier or a literal with its
place and its text, unless a loop over a range skips it; then it is not in the file.  There are no
other identifiers and literals in the file but the periods in front of imports. -/
theorem parseFile_leaves {d : Dialect} {cs : List Char} {scan : Scan} {file : Node}
    (hscan : Scan.ofText d cs = .ok scan) (h : parseFile d cs = .ok file) :
    (∀ l ∈ scan.lexemes, l.isLeaf = true →
      file.tree.nodes.count l.leaf = if file.tree.nodes.any (·.skips l.pos) then 0 else 1) ∧
      ∀ n ∈ file.tree.nodes, n.isLeaf = true → (∃ l ∈ scan.lexemes, l.isLeaf = true ∧ n = l.leaf) ∨
        ∃ l ∈ scan.lexemes, l.token = .period ∧ n = ⟨.ident, [.pos l.pos, .str "."]⟩ ∧
          ∃ m ∈ file.tree.nodes, m.ImportsAs n := by
  obtain ⟨r, rfl, hlexemes, -, -⟩ := exists_fileReading_of_scan hscan h
  have hlast : r.last.isLeaf = false := by rw [Lexeme.isLeaf, r.ended.eof]; rfl
  obtain ⟨hselects, -, hperiods⟩ := r.keeps
  -- the names and literals that nothing skips, each of them once
  let kept := (Word.leaves r.words).filter fun l => !r.node.tree.nodes.any (·.skips l.pos)
  have hkept : r.node.tree.nodes.filter Node.isSpelled = kept.map Lexeme.leaf := hselects
  have hsub : kept.Sublist (Word.lexemes r.words) := List.filter_sublist.trans List.filter_sublist
  have hnodup : (kept.map Lexeme.leaf).Nodup := by
    refine List.pairwise_map.mpr ((r.legible.sorted.sublist hsub).imp fun {l m} hlt heq => ?_)
    rw [Lexeme.pos_of_leaf_eq heq] at hlt
    exact Nat.lt_irrefl _ hlt
  constructor
  · intro l hl hleaf
    rw [hlexemes, List.mem_append, List.mem_singleton] at hl
    rcases hl with hl | rfl
    · have hmem : l.leaf ∈ kept.map Lexeme.leaf ↔
          r.node.tree.nodes.any (·.skips l.pos) = false := by
        constructor
        · intro h
          obtain ⟨m, hm, heq⟩ := List.mem_map.mp h
          have hskip := (List.mem_filter.mp hm).2
          rw [Lexeme.pos_of_leaf_eq heq] at hskip
          simpa using hskip
        · intro h
          exact List.mem_map_of_mem
            (List.mem_filter.mpr ⟨Word.mem_leaves.mpr ⟨hl, hleaf⟩, by rw [h]; rfl⟩)
      rw [← List.count_filter (r.legible.isSpelled_leaf hl hleaf), hkept]
      split
      · rename_i hskip
        exact List.count_eq_zero.mpr fun h => absurd hskip (Bool.eq_false_iff.mp (hmem.mp h))
      · rename_i hskip
        exact List.count_eq_one_of_mem hnodup (hmem.mpr (Bool.eq_false_iff.mpr hskip))
    · rw [hlast] at hleaf
      cases hleaf
  · intro n hn hleaf
    by_cases hperiod : n.isPeriod = true
    · obtain ⟨l, hl, htoken, heq⟩ := r.exists_period hn hperiod
      exact .inr ⟨l, hlexemes ▸ List.mem_append_left _ hl, htoken, heq, hperiods n hn hperiod⟩
    · have hmem : n ∈ r.node.tree.nodes.filter Node.isSpelled :=
        List.mem_filter.mpr ⟨hn, by rw [Node.isSpelled, hleaf]; simpa using hperiod⟩
      rw [hkept] at hmem
      obtain ⟨l, hl, rfl⟩ := List.mem_map.mp hmem
      obtain ⟨hl, hleaf⟩ := Word.mem_leaves.mp (List.mem_filter.mp hl).1
      exact .inl ⟨l, hlexemes ▸ List.mem_append_left _ hl, hleaf, rfl⟩

/-- A dot import, and a loop with three targets, of which the last is skipped. -/
theorem parseFile_leaves_loop :
    ∃ scan file, Scan.ofText .code
        "package p\nimport . \"q\"\nfunc f() \x7b\nfor a, b, g(1) = range c \x7b\x7d\n\x7d".toList =
          .ok scan ∧
      parseFile .code
        "package p\nimport . \"q\"\nfunc f() \x7b\nfor a, b, g(1) = range c \x7b\x7d\n\x7d".toList =
          .ok file ∧
      (∀ l ∈ scan.lexemes, l.isLeaf = true →
        file.tree.nodes.count l.leaf = if file.tree.nodes.any (·.skips l.pos) then 0 else 1) ∧
      ∀ n ∈ file.tree.nodes, n.isLeaf = true → (∃ l ∈ scan.lexemes, l.isLeaf = true ∧ n = l.leaf) ∨
        ∃ l ∈ scan.lexemes, l.token = .period ∧ n = ⟨.ident, [.pos l.pos, .str "."]⟩ ∧
          ∃ m ∈ file.tree.nodes, m.ImportsAs n := by
  obtain ⟨scan, hscan⟩ := exists_of_isOk (show (Scan.ofText .code
    "package p\nimport . \"q\"\nfunc f() \x7b\nfor a, b, g(1) = range c \x7b\x7d\n\x7d".toList).isOk
    = true
      by decide +kernel)
  obtain ⟨file, hfile⟩ := exists_of_isOk (show (parseFile .code
    "package p\nimport . \"q\"\nfunc f() \x7b\nfor a, b, g(1) = range c \x7b\x7d\n\x7d".toList).isOk
    = true
      by decide +kernel)
  exact ⟨scan, file, hscan, hfile, parseFile_leaves hscan hfile⟩

/-- The third target of a loop over a range is in no node. -/
theorem parseFile_third_target :
    ∃ scan file, Scan.ofText .code
        "package p\n\nfunc f() \x7b\n\tfor a, b, c = range x \x7b\x7d\n\x7d\n".toList = .ok scan ∧
      parseFile .code "package p\n\nfunc f() \x7b\n\tfor a, b, c = range x \x7b\x7d\n\x7d\n".toList
        = .ok file ∧
      ∃ l ∈ scan.lexemes, l.token = .ident ∧ l.text = "c" ∧ file.tree.nodes.count l.leaf = 0 := by
  obtain ⟨scan, hscan⟩ := exists_of_isOk (show (Scan.ofText .code
    "package p\n\nfunc f() \x7b\n\tfor a, b, c = range x \x7b\x7d\n\x7d\n".toList).isOk = true by
    decide +kernel)
  obtain ⟨file, hfile⟩ := exists_of_isOk (show (parseFile .code
    "package p\n\nfunc f() \x7b\n\tfor a, b, c = range x \x7b\x7d\n\x7d\n".toList).isOk = true by
    decide +kernel)
  have hlost : ∀ scan, Scan.ofText .code
      "package p\n\nfunc f() \x7b\n\tfor a, b, c = range x \x7b\x7d\n\x7d\n".toList = .ok scan →
      ∀ file,
      parseFile .code "package p\n\nfunc f() \x7b\n\tfor a, b, c = range x \x7b\x7d\n\x7d\n".toList
      = .ok file →
      ∃ l ∈ scan.lexemes, l.token = .ident ∧ l.text = "c" ∧ file.tree.nodes.count l.leaf = 0 := by
    decide +kernel
  exact ⟨scan, file, hscan, hfile, hlost scan hscan file hfile⟩

end Graft
