import Graft.Proofs.Grammar.Reading
import Graft.Proofs.Tree.Code
import Mathlib.Logic.Basic

/-! # Reading inside parentheses

The lexemes of an expression may stand in a text of their own, in front of its end, or inside
another text, in front of a closing parenthesis and whatever follows.  An `Enclosure` is a pair of
such texts, where places of the first are carried over into the second.

A reader **follows** another one (`Enclosure.Follows`) if it does in the second text what the other
does in the first, as far as the other stays in front of the end of its text.  How far it has to
stay is a number: a production of expressions or types may leave the cursor right at the end, where
it finds a line end or the end of the text in one text and a parenthesis in the other, and none of
them tells these apart.  A statement does tell them apart, and is only followed if at least one more
lexeme is left, as there always is inside a block.

Cursors are followed whether or not they are at the end already: what is said of a reader there is
that it does not go back.  So readers that follow are put together step by step (`Follows.bind`)
without looking at the cursor.
-/

namespace Graft

/-- Data with places in it. -/
class Placed (α : Type) where
  /-- The data with every place replaced by what `f` makes of it. -/
  map (f : Pos → Pos) : α → α

namespace Placed

instance : Placed Pos := ⟨id⟩
instance : Placed Tree := ⟨Tree.mapPos⟩
instance : Placed Lexeme := ⟨fun f l => { l with pos := f l.pos }⟩
instance : Placed Token := ⟨fun _ => id⟩
instance : Placed Bool := ⟨fun _ => id⟩
instance : Placed Unit := ⟨fun _ => id⟩

variable {α β : Type} [Placed α] [Placed β]

instance : Placed (List α) := ⟨fun f => List.map (map f)⟩
instance : Placed (Option α) := ⟨fun f => Option.map (map f)⟩
instance : Placed (α × β) := ⟨fun f x => (map f x.1, map f x.2)⟩
instance : Placed (α ⊕ β) := ⟨fun f => Sum.map (map f) (map f)⟩

end Placed

/-- How the lexemes of an expression stand in a text of their own, and in front of a closing
parenthesis in another text. -/
structure Enclosure where
  dialect : Dialect
  /-- The lines of the text of its own. -/
  innerLines : LineTable
  /-- The lines of the other text. -/
  outerLines : LineTable
  /-- Where a place of the first text is in the other. -/
  place : Pos → Pos
  place_none : place .none = .none
  /-- The lexemes of the expression. -/
  front : List Lexeme
  /-- The end of the first text, perhaps with a line end before it. -/
  tail : List Lexeme
  /-- Where the lexeme before the expression stands in the other text. -/
  before : Option Pos
  /-- The parenthesis behind the expression in the other text. -/
  closing : Lexeme
  /-- What stands behind the parenthesis. -/
  rest : List Lexeme
  ended : Ended (front ++ tail)
  notLineEnd : ∀ l ∈ front, l.token = .semicolon → l.text ≠ "\n"
  isTail : ∀ l ∈ tail, l.token = .semicolon ∨ l.token = .eof
  closing_token : closing.token = .rparen
  tail_ne : tail ≠ []
  tail_le : tail.length ≤ rest.length + 1

namespace Enclosure

variable (E : Enclosure) {α β σ : Type} [Placed α] [Placed β] [Placed σ]

/-- Data of the first text, as it is in the other. -/
def image (a : α) : α := Placed.map E.place a

/-- What a reader of the first text knows, where a brace behind a type name may open a literal or
not. -/
def inner (literals : Bool) : Context := ⟨E.dialect, E.innerLines, [], literals⟩

/-- What a reader of the other text knows. -/
def outer (literals : Bool) : Context := ⟨E.dialect, E.outerLines, [], literals⟩

/-- The place in the other text of a cursor in the first. -/
def carry (c : Cursor) : Cursor :=
  ⟨E.image (c.rest.take (c.rest.length - E.tail.length)) ++ E.closing :: E.rest,
    (c.previous.map E.place).or E.before⟩

/-- Whether a cursor stands in the first text. -/
structure At (c : Cursor) : Prop where
  suffix : c.rest <:+ E.front ++ E.tail
  ended : Ended c.rest

/-- Whether there is more in front of a cursor than the end of the first text. -/
def Ahead (c : Cursor) : Prop := E.tail.length < c.rest.length

/-! ### Images -/

section Image

variable {E}

@[simp] theorem map_eq_image (a : α) : Placed.map E.place a = E.image a := rfl
@[simp] theorem image_pos (p : Pos) : E.image p = E.place p := rfl
@[simp] theorem image_token (t : Token) : E.image t = t := rfl
@[simp] theorem image_bool (b : Bool) : E.image b = b := rfl
@[simp] theorem image_unit (u : Unit) : E.image u = u := rfl
@[simp] theorem image_lexeme_token (l : Lexeme) : (E.image l).token = l.token := rfl
@[simp] theorem image_lexeme_text (l : Lexeme) : (E.image l).text = l.text := rfl
@[simp] theorem image_lexeme_pos (l : Lexeme) : (E.image l).pos = E.place l.pos := rfl
theorem image_eq_map (as : List α) : E.image as = as.map E.image := rfl

@[simp] theorem image_nil : E.image ([] : List α) = [] := rfl
@[simp] theorem image_cons (a : α) (as : List α) :
    E.image (a :: as) = E.image a :: E.image as := rfl
@[simp] theorem image_append (as bs : List α) :
    E.image (as ++ bs) = E.image as ++ E.image bs := List.map_append
@[simp] theorem image_none : E.image (none : Option α) = none := rfl
@[simp] theorem image_some (a : α) : E.image (some a) = some (E.image a) := rfl
@[simp] theorem image_pair (a : α) (b : β) : E.image (a, b) = (E.image a, E.image b) := rfl
@[simp] theorem image_inl (a : α) : E.image (Sum.inl a : α ⊕ β) = .inl (E.image a) := rfl
@[simp] theorem image_inr (b : β) : E.image (Sum.inr b : α ⊕ β) = .inr (E.image b) := rfl

@[simp] theorem image_tree_nil : E.image Tree.nil = .nil := rfl
@[simp] theorem image_tree_pos (p : Pos) : E.image (Tree.pos p) = .pos (E.place p) := rfl
@[simp] theorem image_tree_str (s : String) : E.image (Tree.str s) = .str s := rfl
@[simp] theorem image_tree_tok (t : Token) : E.image (Tree.tok t) = .tok t := rfl

@[simp] theorem image_tree_list (ts : List Tree) : E.image (Tree.list ts) = .list (E.image ts) :=
  congrArg Tree.list (Tree.mapPosAll_eq_map E.place ts)

@[simp] theorem image_tree_node (k : Kind) (fields : List Tree) :
    E.image (Tree.node k fields) = .node k (E.image fields) :=
  congrArg (Tree.node k) (Tree.mapPosAll_eq_map E.place fields)

@[simp] theorem image_ident (p : Pos) (name : String) :
    E.image (Tree.ident p name) = .ident (E.place p) name := rfl
@[simp] theorem image_dots (p : Pos) : E.image (Tree.dots p) = .dots (E.place p) := rfl

attribute [simp] Enclosure.place_none

@[simp] theorem kind?_image (t : Tree) : (E.image t).kind? = t.kind? := Tree.kind?_mapPos t

@[simp] theorem isKind_image (t : Tree) (k : Kind) : (E.image t).isKind k = t.isKind k := by
  rw [Tree.isKind, Tree.isKind, kind?_image]

@[simp] theorem isNil_image (t : Tree) : (E.image t).isNil = t.isNil := Tree.isNil_mapPos t

end Image

/-! ### Cursors -/

namespace At

variable {E} {c : Cursor}

theorem length_pos (h : E.At c) : 0 < c.rest.length := by
  have he := h.ended
  generalize c.rest = ls at he
  cases ls with
  | nil => cases he
  | cons => exact Nat.succ_pos _

/-- What is left in front of the end is some of the expression's lexemes. -/
theorem exists_front (h : E.At c) (hle : E.tail.length ≤ c.rest.length) :
    ∃ ls, c.rest = ls ++ E.tail ∧ ls <:+ E.front := by
  obtain ⟨ls, hls⟩ :=
    List.suffix_of_suffix_length_le (List.suffix_append E.front E.tail) h.suffix hle
  have hsuffix := h.suffix
  rw [← hls, List.suffix_append_inj_of_length_eq rfl] at hsuffix
  exact ⟨ls, hls.symm, hsuffix.1⟩

theorem exists_cons (h : E.At c) (hahead : E.Ahead c) :
    ∃ l ls, c.rest = l :: (ls ++ E.tail) ∧ l ∈ E.front := by
  obtain ⟨ls, hls, hsuffix⟩ := h.exists_front (Nat.le_of_lt hahead)
  cases ls with
  | nil => exact absurd hahead (by rw [Ahead, hls]; exact Nat.lt_irrefl _)
  | cons l ls => exact ⟨l, ls, hls, hsuffix.subset List.mem_cons_self⟩

theorem move (h : E.At c) (ht : c.front.token ≠ .eof) :
    E.At c.move ∧ c.move.rest.length + 1 = c.rest.length := by
  obtain ⟨m, ls, hrest, he, hmove⟩ := Cursor.ended_move h.ended ht
  rw [hmove, hrest]
  have hsuffix := h.suffix
  rw [hrest] at hsuffix
  exact ⟨⟨(List.suffix_cons _ _).trans hsuffix, he⟩, rfl⟩

end At

theorem carry_of_front {c : Cursor} (ls : List Lexeme) (h : c.rest = ls ++ E.tail) :
    E.carry c = ⟨E.image ls ++ E.closing :: E.rest, (c.previous.map E.place).or E.before⟩ := by
  rw [carry, h]
  simp

variable {E} {c : Cursor}

namespace At

variable (h : E.At c)

include h

theorem front_ahead (hahead : E.Ahead c) :
    c.front ∈ E.front ∧ (E.carry c).front = E.image c.front ∧
      (E.carry c).move = E.carry c.move := by
  obtain ⟨l, ls, hrest, hl⟩ := h.exists_cons hahead
  have hcarry := E.carry_of_front (l :: ls) hrest
  obtain ⟨rest, previous⟩ := c
  obtain rfl : rest = _ := hrest
  refine ⟨hl, by rw [hcarry]; rfl, ?_⟩
  have hmove : (⟨l :: (ls ++ E.tail), previous⟩ : Cursor).move = ⟨ls ++ E.tail, some l.pos⟩ := by
    cases hne : ls ++ E.tail with
    | nil => exact absurd (List.append_eq_nil_iff.mp hne).2 E.tail_ne
    | cons => rfl
  rw [hmove, E.carry_of_front (c := ⟨ls ++ E.tail, some l.pos⟩) ls rfl, hcarry, image_cons,
    List.cons_append, Option.map_some, Option.some_or]
  cases hne : E.image ls ++ E.closing :: E.rest with
  | nil => simp at hne
  | cons => rfl

theorem front_ne_eof (hahead : E.Ahead c) : c.front.token ≠ .eof := by
  obtain ⟨l, ls, hrest, -⟩ := h.exists_cons hahead
  have he := h.ended
  cases hne : ls ++ E.tail with
  | nil => exact absurd (List.append_eq_nil_iff.mp hne).2 E.tail_ne
  | cons m ms =>
    rw [hrest, hne] at he
    rw [Cursor.front, hrest]
    exact he.1

theorem front_not_ahead (hle : ¬ E.Ahead c) :
    c.front.token = .semicolon ∨ c.front.token = .eof := by
  have hsuffix := List.suffix_of_suffix_length_le h.suffix (List.suffix_append E.front E.tail)
    (Nat.le_of_not_lt hle)
  have hpos := h.length_pos
  cases hrest : c.rest with
  | nil => simp [hrest] at hpos
  | cons l ls =>
    rw [Cursor.front, hrest]
    exact E.isTail l (hsuffix.subset (by simp [hrest]))

/-- In front of a cursor stands the same in both texts, or the first one ends there and the
parenthesis stands in the other. -/
theorem front_cases (hle : E.tail.length ≤ c.rest.length) :
    (E.carry c).front = E.image c.front ∨
      (E.carry c).front.token = .rparen ∧ (c.front.token = .semicolon ∨ c.front.token = .eof) := by
  by_cases hahead : E.Ahead c
  · exact .inl (h.front_ahead hahead).2.1
  · obtain ⟨ls, hrest, -⟩ := h.exists_front hle
    have hnil : ls = [] := by
      rw [Ahead, hrest, List.length_append] at hahead
      exact List.length_eq_zero_iff.mp (by omega)
    refine .inr ⟨?_, h.front_not_ahead hahead⟩
    rw [E.carry_of_front ls hrest, hnil]
    exact E.closing_token

theorem second_ahead (hahead : E.tail.length + 1 < c.rest.length) :
    (E.carry c).second = c.second := by
  obtain ⟨ls, hrest, -⟩ := h.exists_front (by omega)
  match ls, hrest with
  | [], hrest =>
    rw [hrest, List.nil_append] at hahead
    omega
  | [_], hrest => simp [hrest] at hahead
  | l :: m :: ls, hrest =>
    rw [Cursor.second, Cursor.second, E.carry_of_front _ hrest, hrest]
    rfl

/-- Behind the last lexeme of the expression stands the parenthesis, and there is a line end or
the end of the text. -/
theorem second_last (hlast : c.rest.length = E.tail.length + 1) :
    (E.carry c).second = .rparen ∧ (c.second = .semicolon ∨ c.second = .eof) := by
  obtain ⟨ls, hrest, -⟩ := h.exists_front (by omega)
  match ls, hrest with
  | [], hrest => simp [hrest] at hlast
  | _ :: _ :: _, hrest =>
    rw [hrest, List.length_append, List.length_cons, List.length_cons] at hlast
    omega
  | [l], hrest =>
    refine ⟨?_, ?_⟩
    · rw [Cursor.second, E.carry_of_front _ hrest]
      exact E.closing_token
    · rw [Cursor.second, hrest]
      cases hne : E.tail with
      | nil => exact absurd hne E.tail_ne
      | cons m ms => exact E.isTail m (by simp [hne])

end At

end Enclosure

/-! ### Putting answers together -/

namespace Reader

variable {ctx : Context} {c c₁ c₂ : Cursor} {t : Token}

theorem gives_bind {α β : Type} {r : Reader α} {f : α → Reader β} {a : α} {b : β}
    (h : Gives r ctx c a c₁) (h' : Gives (f a) ctx c₁ b c₂) : Gives (r >>= f) ctx c b c₂ := by
  change (r ctx c >>= fun x => f x.1 ctx x.2) = _
  rw [h]
  exact h'

theorem gives_got? (ht : c.front.token = t) : Gives (got? t) ctx c (some c.front.pos) c.move := by
  refine gives_bind (show Gives current ctx c c.front c from rfl) ?_
  rw [if_pos ht]
  rfl

theorem gives_got?_none (ht : c.front.token ≠ t) : Gives (got? t) ctx c none c := by
  refine gives_bind (show Gives current ctx c c.front c from rfl) ?_
  rw [if_neg ht]
  rfl

end Reader

namespace Enclosure

open Reader

/-! ### Readers that follow -/

variable {E : Enclosure} {c : Cursor} {α β σ : Type} [Placed α] [Placed β] [Placed σ]

/-- Whether a reader of the second text does what another one does in the first, where the other
leaves the end of its text and `k` lexemes more.  Wherever it is, the other goes on by at least `s`
lexemes. -/
def Follows (E : Enclosure) (s k : Nat) (r r' : Reader α) (literals : Bool) (c : Cursor) : Prop :=
  ∀ a c', Gives r (E.inner literals) c a c' → E.At c' ∧ c'.rest.length + s ≤ c.rest.length ∧
    (E.tail.length + k ≤ c'.rest.length → Gives r' (E.outer literals) (E.carry c)
      (E.image a) (E.carry c'))

/-! A reader goes on by no lexeme or by one, and leaves none or one: what compares these is found by
itself. -/

scoped instance {n : Nat} : Fact (0 ≤ n) := ⟨Nat.zero_le n⟩

scoped instance {n : Nat} : Fact (n ≤ n) := ⟨Nat.le_refl n⟩

scoped instance {s : Nat} : Fact (0 < s + 1) := ⟨Nat.succ_pos s⟩

scoped instance {k : Nat} : Fact (0 < 1 + k) := ⟨Nat.add_pos_left Nat.zero_lt_one k⟩

namespace Follows

variable {s k : Nat} {r r' : Reader α} {f f' : α → Reader β} {literals : Bool}

theorem mono {s₁ k₁ : Nat} [hs : Fact (s ≤ s₁)] [hk : Fact (k₁ ≤ k)]
    (h : E.Follows s₁ k₁ r r' literals c) :
    E.Follows s k r r' literals c := by
  intro a c' hr
  have hs := hs.out
  have hk := hk.out
  obtain ⟨hc', hlength, hgives⟩ := h a c' hr
  exact ⟨hc', by omega, fun hle => hgives (by omega)⟩

/-- Readers follow if their parts do, one after the other. -/
theorem bind_of {s₁ k₁ s₂ : Nat} (h : E.Follows s₁ k₁ r r' literals c)
    (hf : ∀ a c₁, E.At c₁ → E.Follows s₂ k (f a) (f' (E.image a)) literals c₁) (hs : s ≤ s₁ + s₂)
    (hk : k₁ ≤ k + s₂) : E.Follows s k (r >>= f) (r' >>= f') literals c := by
  intro b c₂ hgives
  obtain ⟨a, c₁, hr, hfa⟩ := bind_ok hgives
  obtain ⟨hc₁, hlength₁, hgives₁⟩ := h a c₁ hr
  obtain ⟨hc₂, hlength₂, hgives₂⟩ := hf a c₁ hc₁ b c₂ hfa
  exact ⟨hc₂, by omega, fun hle => gives_bind (hgives₁ (by omega)) (hgives₂ hle)⟩

theorem bind {s₁ k₁ : Nat} [hs : Fact (s ≤ s₁)] [hk : Fact (k₁ ≤ k)]
    (h : E.Follows s₁ k₁ r r' literals c)
    (hf : ∀ a c₁, E.At c₁ → E.Follows 0 k (f a) (f' (E.image a)) literals c₁) :
    E.Follows s k (r >>= f) (r' >>= f') literals c := bind_of h hf hs.out hk.out

theorem bind_same (h : E.Follows 0 k r r' literals c)
    (hf : ∀ a c₁, E.At c₁ → E.Follows 0 k (f a) (f' (E.image a)) literals c₁) :
    E.Follows 0 k (r >>= f) (r' >>= f') literals c := bind_of h hf (Nat.le_refl 0) (Nat.le_refl k)

/-- What is consumed later was left before. -/
theorem bind_before [hs : Fact (s ≤ 1)] (h : E.Follows 0 1 r r' literals c)
    (hf : ∀ a c₁, E.At c₁ → E.Follows 1 0 (f a) (f' (E.image a)) literals c₁) :
    E.Follows s 0 (r >>= f) (r' >>= f') literals c := bind_of h hf (Nat.le_add_left_of_le hs.out)
    (Nat.le_refl 1)

theorem pure (hc : E.At c) {a : α} : E.Follows 0 k (pure a) (pure (E.image a)) literals c := by
  rintro _ _ ⟨⟩
  exact ⟨hc, Nat.le_refl _, fun _ => rfl⟩

theorem pure_of_eq (hc : E.At c) {a a' : α} (h : a' = E.image a) :
    E.Follows 0 k (Pure.pure a) (Pure.pure a') literals c := h ▸ pure hc

omit [Placed α] in
theorem pure_bind {a a' : α} (hf : E.Follows s k (f a) (f' a') literals c) :
    E.Follows s k (Pure.pure a >>= f) (Pure.pure a' >>= f') literals c := hf

theorem nothing (h : ∀ a c', ¬ Gives r (E.inner literals) c a c') : E.Follows s k r r' literals c :=
  fun a c' hr => absurd hr (h a c')

theorem unexpected {w : Wanted} : E.Follows s k (unexpected w : Reader α) r' literals c :=
  nothing fun _ _ => unexpected_ok

theorem refuse {p : Pos} {cause : Cause} :
    E.Follows s k (refuse p cause : Reader α) r' literals c :=
  nothing fun _ _ => refuse_ok

theorem withLiterals {allowed : Bool} (h : E.Follows s k r r' allowed c) :
    E.Follows s k (withLiterals allowed r) (Reader.withLiterals allowed r') literals c := h

/-! ### Looking at the text -/

omit [Placed α] in
/-- A reader that looks at the text first follows if it goes on the same way, at least in front of
the end. -/
theorem look {x x' : α} {g g' : α → Reader β} (hx : Gives r (E.inner literals) c x c)
    (h : E.Follows s k (g x) (g' x') literals c)
    (hx' : E.tail.length + s + k ≤ c.rest.length →
      ∃ y, Gives r' (E.outer literals) (E.carry c) y (E.carry c) ∧ g' y = g' x') :
    E.Follows s k (r >>= g) (r' >>= g') literals c := by
  intro b c₁ hgives
  obtain ⟨y, c₂, hy, hg⟩ := bind_ok hgives
  obtain ⟨rfl, rfl⟩ : x = y ∧ c = c₂ := by
    cases (show Except.ok (x, c) = _ from hx.symm.trans hy)
    exact ⟨rfl, rfl⟩
  obtain ⟨hc₁, hlength, hgives₁⟩ := h b c₁ hg
  refine ⟨hc₁, hlength, fun hle => ?_⟩
  obtain ⟨y, hy, heq⟩ := hx' (by omega)
  exact gives_bind hy (heq ▸ hgives₁ hle)

section Look

theorem ahead_of_le (hsk : 0 < s + k) (hle : E.tail.length + s + k ≤ c.rest.length) :
    E.Ahead c := by
  rw [Ahead]
  omega

variable (hc : E.At c)

include hc

theorem current [hsk : Fact (0 < s + k)] {f f' : Lexeme → Reader β}
    (h : E.Follows s k (f c.front) (f' (E.image c.front)) literals c) :
    E.Follows s k (current >>= f) (Reader.current >>= f') literals c :=
  look rfl h fun hle => ⟨_, rfl, congrArg f' (hc.front_ahead (ahead_of_le hsk.out hle)).2.1⟩

theorem token [hsk : Fact (0 < s + k)] {f f' : Token → Reader β}
    (h : E.Follows s k (f c.front.token) (f' c.front.token) literals c) :
    E.Follows s k (token >>= f) (Reader.token >>= f') literals c :=
  look rfl h fun hle =>
    ⟨_, rfl, congrArg (fun l => f' l.token) (hc.front_ahead (ahead_of_le hsk.out hle)).2.1⟩

/-- What is in front may be the end, if a parenthesis there makes no difference. -/
theorem current_end {f f' : Lexeme → Reader β}
    (h : E.Follows s k (f c.front) (f' (E.image c.front)) literals c)
    (hend : (E.carry c).front.token = .rparen → c.front.token = .semicolon ∨ c.front.token = .eof →
      f' (E.carry c).front = f' (E.image c.front)) :
    E.Follows s k (Reader.current >>= f) (Reader.current >>= f') literals c := by
  refine look rfl h fun hle => ⟨_, rfl, ?_⟩
  change f' (E.carry c).front = _
  rcases hc.front_cases (by omega) with hfront | ⟨houter, hinner⟩
  · rw [hfront]
  · exact hend houter hinner

/-- The token in front may be the end, if a parenthesis there makes no difference. -/
theorem token_end {f f' : Token → Reader β} (hsemi : f' .rparen = f' .semicolon)
    (heof : f' .rparen = f' .eof)
    (h : E.Follows s k (f c.front.token) (f' c.front.token) literals c) :
    E.Follows s k (Reader.token >>= f) (Reader.token >>= f') literals c := by
  refine look rfl h fun hle => ⟨_, rfl, ?_⟩
  change f' (E.carry c).front.token = _
  rcases hc.front_cases (by omega) with hfront | ⟨houter, hfront | hfront⟩
  · rw [hfront, image_lexeme_token]
  · rw [houter, hfront, hsemi]
  · rw [houter, hfront, heof]

theorem position [hsk : Fact (0 < s + k)] {f f' : Pos → Reader β}
    (h : E.Follows s k (f c.front.pos) (f' (E.place c.front.pos)) literals c) :
    E.Follows s k (position >>= f) (Reader.position >>= f') literals c :=
  look rfl h fun hle =>
    ⟨_, rfl, congrArg (fun l => f' l.pos) (hc.front_ahead (ahead_of_le hsk.out hle)).2.1⟩

theorem following {f f' : Token → Reader β} (hsk : 1 < s + k)
    (h : E.Follows s k (f c.second) (f' c.second) literals c) :
    E.Follows s k (following >>= f) (Reader.following >>= f') literals c :=
  look rfl h fun hle => ⟨_, rfl, congrArg f' (hc.second_ahead (by omega))⟩

/-- The token behind the one in front may be the end, if a parenthesis there makes no difference. -/
theorem following_end {f f' : Token → Reader β} (hsk : 0 < s + k)
    (hsemi : f' .rparen = f' .semicolon) (heof : f' .rparen = f' .eof)
    (h : E.Follows s k (f c.second) (f' c.second) literals c) :
    E.Follows s k (Reader.following >>= f) (Reader.following >>= f') literals c := by
  refine look rfl h fun hle => ⟨_, rfl, ?_⟩
  by_cases hlast : c.rest.length = E.tail.length + 1
  · obtain ⟨houter, hinner⟩ := hc.second_last hlast
    change f' (E.carry c).second = _
    rw [houter]
    rcases hinner with hsecond | hsecond
    · rw [hsecond, hsemi]
    · rw [hsecond, heof]
  · exact congrArg f' (hc.second_ahead (by omega))

/-- A wildcard is no end of a text, and no parenthesis. -/
theorem atDots {f f' : Bool → Reader β} (h : ∀ b, (b = true → c.front.token = .ellipsis) →
    E.Follows s k (f b) (f' b) literals c) :
    E.Follows s k (atDots >>= f) (Reader.atDots >>= f') literals c := by
  have hdots := h (E.dialect == .pattern && c.front.token == .ellipsis)
    fun hdots => beq_iff_eq.mp ((Bool.and_eq_true _ _).mp hdots).2
  refine look rfl hdots fun hle => ⟨_, rfl, congrArg f' ?_⟩
  change (E.dialect == .pattern && (E.carry c).front.token == .ellipsis) = _
  rcases hc.front_cases (by omega) with hfront | ⟨houter, hfront | hfront⟩
  · rw [hfront, image_lexeme_token]
  · rw [houter, hfront]
    rfl
  · rw [houter, hfront]
    rfl

omit hc in
theorem docFor {p p' : Pos} {f f' : Tree → Reader β}
    (h : E.Follows s k (f .nil) (f' .nil) literals c) :
    E.Follows s k (docFor p >>= f) (Reader.docFor p' >>= f') literals c :=
  look rfl h fun _ => ⟨.nil, rfl, rfl⟩

end Look

/-! ### Moving on -/

section Move

variable (hc : E.At c) {t : Token}

include hc

theorem advance (ht : c.front.token ≠ .eof) : E.Follows 1 0 advance Reader.advance literals c := by
  rintro _ _ ⟨⟩
  obtain ⟨hmove, hlength⟩ := hc.move ht
  refine ⟨hmove, Nat.le_of_eq hlength, fun hle => ?_⟩
  have hle : E.tail.length ≤ c.move.rest.length := hle
  have hcarry := (hc.front_ahead (show _ < _ by omega)).2.2
  exact congrArg (fun c => Except.ok ((), c)) hcarry

theorem take (ht : c.front.token ≠ .eof) : E.Follows 1 0 take Reader.take literals c :=
  position hc ((advance hc ht).bind fun _ _ h => pure h)

theorem dots (ht : c.front.token = .ellipsis) : E.Follows 1 0 dots Reader.dots literals c :=
  (take hc (by rw [ht]; decide)).bind fun _ _ h => pure h

theorem ident : E.Follows 1 0 ident Reader.ident literals c := by
  refine current hc ?_
  rw [image_lexeme_token]
  split
  · rename_i hident
    exact (advance hc (by rw [hident]; decide)).bind fun _ _ h => pure h
  · exact unexpected

theorem basicLit (ht : c.front.token ≠ .eof) : E.Follows 1 0 basicLit Reader.basicLit literals c :=
  current hc ((advance hc ht).bind fun _ _ h => pure h)

/-- A token that may be in front, and is neither a line end nor the parenthesis unless more is
left. -/
theorem got? [hs : Fact (s ≤ 1)] {f f' : Option Pos → Reader β}
    (ht : t ≠ .eof ∧ (s + k = 0 → t ≠ .semicolon ∧ t ≠ .rparen))
    (hsome : ∀ p c₁, E.At c₁ → E.Follows 0 k (f (some p)) (f' (some (E.place p))) literals c₁)
    (hnone : E.Follows s k (f none) (f' none) literals c) :
    E.Follows s k (got? t >>= f) (Reader.got? t >>= f') literals c := by
  have hs := hs.out
  by_cases hfront : c.front.token = t
  · intro b c₁ hgives
    obtain ⟨o, c₂, hgot, hf⟩ := bind_ok hgives
    rcases got?_ok hgot with ⟨-, rfl, rfl⟩ | ⟨hne, -⟩
    · obtain ⟨hmove, hlength⟩ := hc.move (hfront ▸ ht.1)
      obtain ⟨hc₁, hlength₁, hgives₁⟩ := hsome _ _ hmove b c₁ hf
      refine ⟨hc₁, by omega, fun hle => ?_⟩
      have hahead : E.Ahead c := show _ < _ by omega
      obtain ⟨-, houter, hcarry⟩ := hc.front_ahead hahead
      refine gives_bind (gives_got? (t := t) ?_) ?_
      · rw [houter, image_lexeme_token, hfront]
      · rw [houter, hcarry]
        exact hgives₁ hle
    · exact absurd hfront hne
  · refine look (gives_got?_none hfront) hnone fun hle => ⟨none, gives_got?_none ?_, rfl⟩
    by_cases hahead : E.Ahead c
    · rwa [(hc.front_ahead hahead).2.1, image_lexeme_token]
    · rcases hc.front_cases (by omega) with houter | ⟨houter, -⟩
      · rwa [houter, image_lexeme_token]
      · rw [houter]
        exact (ht.2 (by rw [Ahead] at hahead; omega)).2.symm

theorem expect (ht : t ≠ .eof) : E.Follows 1 0 (expect t) (Reader.expect t) literals c := by
  intro p c₁ hgives
  obtain ⟨o, c₂, hgot, hp⟩ := bind_ok hgives
  rcases got?_ok hgot with ⟨hfront, rfl, rfl⟩ | ⟨-, rfl, -⟩
  · obtain ⟨rfl, rfl⟩ := pure_ok hp
    obtain ⟨hmove, hlength⟩ := hc.move (hfront ▸ ht)
    refine ⟨hmove, Nat.le_of_eq hlength, fun hle => ?_⟩
    obtain ⟨-, houter, hcarry⟩ := hc.front_ahead (show _ < _ by omega)
    refine gives_bind (gives_got? (t := t) ?_) ?_
    · rw [houter, image_lexeme_token, hfront]
    · rw [houter, hcarry]
      rfl
  · exact absurd hp unexpected_ok

theorem endStatement : E.Follows 0 1 endStatement Reader.endStatement literals c := by
  refine token hc ?_
  split
  · rename_i hsemi
    exact (advance hc (by rw [hsemi]; decide)).mono
  · exact pure hc
  · exact pure hc
  · exact pure hc
  · exact unexpected

/-- The line ends of the first text are all at its end. -/
theorem skipLineEnd {close : Token} :
    E.Follows 0 1 (skipLineEnd close) (Reader.skipLineEnd close) literals c := by
  rintro ⟨⟩ c₁ hgives
  obtain ⟨l, c₂, h₂, hgives⟩ := bind_ok hgives
  obtain ⟨rfl, rfl⟩ := current_ok h₂
  obtain ⟨t, c₃, h₃, hgives⟩ := bind_ok hgives
  obtain ⟨rfl, rfl⟩ := following_ok h₃
  have hnot (hahead : E.Ahead c) : (decide (c.front.token = .semicolon) && c.front.text == "\n") =
      false := by
    rw [← Bool.not_eq_true, Bool.and_eq_true, decide_eq_true_eq, beq_iff_eq]
    exact fun h => E.notLineEnd _ (hc.front_ahead hahead).1 h.1 h.2
  split at hgives
  · rename_i hcond
    obtain ⟨hlineEnd, -⟩ := (Bool.and_eq_true _ _).mp hcond
    obtain rfl := advance_ok hgives
    have hsemi := of_decide_eq_true ((Bool.and_eq_true _ _).mp hlineEnd).1
    obtain ⟨hmove, hlength⟩ := hc.move (by rw [hsemi]; decide)
    refine ⟨hmove, by omega, fun hle => ?_⟩
    rw [hnot (show _ < _ by omega)] at hlineEnd
    cases hlineEnd
  · obtain ⟨-, rfl⟩ := pure_ok hgives
    refine ⟨hc, Nat.le_refl _, fun hle => ?_⟩
    have hahead : E.Ahead c := show _ < _ by omega
    refine gives_bind (a := (E.carry c).front) rfl (gives_bind (a := (E.carry c).second) rfl ?_)
    rw [(hc.front_ahead hahead).2.1, image_lexeme_token, image_lexeme_text, hnot hahead]
    rfl

end Move

/-! ### Loops -/

section Loop

variable {body body' : σ → Reader (σ ⊕ α)}

theorem loop {n n' : Nat} {x : σ} (hc : E.At c) (hn : n ≤ n')
    (round : ∀ x c₁, E.At c₁ → E.Follows 0 k (body x) (body' (E.image x)) literals c₁) :
    E.Follows 0 k (loop body n x) (Reader.loop body' n' (E.image x)) literals c := by
  induction n generalizing n' x c with
  | zero => exact nothing fun a c' h => refuse_ok (bind_ok h).choose_spec.choose_spec.2
  | succ n ih =>
    obtain ⟨n', rfl⟩ := Nat.exists_eq_add_of_le' hn
    refine bind (round x c hc) fun y c₁ h₁ => ?_
    cases y with
    | inl x => exact ih h₁ (Nat.le_add_left _ _)
    | inr a => exact pure h₁

theorem iterate {x x' : σ} (hc : E.At c) (hx : x' = E.image x)
    (round : ∀ x c₁, E.At c₁ → E.Follows 0 k (body x) (body' (E.image x)) literals c₁) :
    E.Follows 0 k (iterate x body) (Reader.iterate x' body') literals c := by
  subst hx
  have hloop : E.Follows 0 k (Reader.loop body (c.rest.length + 1) x)
      (Reader.loop body' ((E.carry c).rest.length + 1) (E.image x)) literals c := loop hc ?_ round
  · exact look (r := get) (x := c) rfl hloop fun _ => ⟨_, rfl, rfl⟩
  have htail := E.tail_le
  simp only [carry, image, Placed.map]
  simp
  omega

theorem commaList {item item' : Reader α} (hc : E.At c)
    (hitem : ∀ c₁, E.At c₁ → E.Follows 1 k item item' literals c₁) :
    E.Follows 1 k (commaList item) (Reader.commaList item') literals c := by
  refine bind (hitem c hc) fun x c₁ h₁ => iterate h₁ rfl fun xs c₂ h₂ => ?_
  refine got? h₂ ⟨by decide, fun _ => by decide⟩ (fun _ c₃ h₃ => ?_) (pure h₂)
  exact bind (hitem c₃ h₃) fun _ c₄ h₄ => pure_of_eq h₄ (by simp)

end Loop

end Follows

end Enclosure

end Graft
