import Graft.Proofs.Grammar.Derivation
import Graft.Proofs.Token.Scan

/-! # What readers consume

A reader that succeeds moves the cursor over some words.  `Run groups c ws c'` says that the cursor
goes from `c` to `c'` over the words `ws`: over lexemes one by one, and over comment groups that
stand right before the lexeme in front.  Runs compose (`Run.trans`), so what a production consumes
is put together from what its steps consume, and `Reads s r` — the reader `r` reads phrases of sort
`s` — is shown of one production after the other.

The last lexeme of a text is its end, which no reader moves past; that is the invariant `Ended`, and
every run keeps it.
-/

namespace Graft

namespace Cursor

/-- The lexeme in front. -/
def front (c : Cursor) : Lexeme := c.rest.head?.getD ⟨.eof, .none, ""⟩

/-- The token behind the one in front. -/
def second (c : Cursor) : Token := (c.rest[1]?.map (·.token)).getD .eof

/-- The cursor behind the lexeme in front, unless that is the last. -/
def move (c : Cursor) : Cursor :=
  match c.rest with
  | l :: m :: ls => ⟨m :: ls, some l.pos⟩
  | _ => c

/-- Whether a comment group stands between the lexeme before the cursor and the one in front. -/
def Precedes (c : Cursor) (g : CommentGroup) : Prop :=
  g.stop ≤ c.front.pos ∧ ∀ q, c.previous = some q → q < g.start

theorem ended_move {c : Cursor} (he : Ended c.rest) (ht : c.front.token ≠ .eof) :
    ∃ m ls, c.rest = c.front :: m :: ls ∧ Ended (m :: ls) ∧
      c.move = ⟨m :: ls, some c.front.pos⟩ := by
  obtain ⟨rest, q⟩ := c
  match rest, he with
  | [l], he => exact absurd he ht
  | l :: m :: ls, he => exact ⟨m, ls, rfl, he.2, rfl⟩

end Cursor

theorem Ended.eq_singleton {c : Cursor} (h : Ended c.rest) (heof : c.front.token = .eof) :
    ∃ l : Lexeme, l.token = .eof ∧ c.rest = [l] := by
  obtain ⟨rest, q⟩ := c
  match rest, h with
  | [l], h => exact ⟨l, h, rfl⟩
  | l :: m :: ls, h => exact absurd heof h.1

/-- The cursor goes from one place to another over some words. -/
inductive Run (groups : List CommentGroup) : Cursor → List Word → Cursor → Prop where
  | refl (c : Cursor) : Run groups c [] c
  | lexeme {l m : Lexeme} {ls : List Lexeme} {q : Option Pos} {ws : List Word} {c : Cursor}
      (h : Run groups ⟨m :: ls, some l.pos⟩ ws c) :
    Run groups ⟨l :: m :: ls, q⟩ (.lexeme l :: ws) c
  | doc {c c' : Cursor} {g : CommentGroup} {ws : List Word} (hg : g ∈ groups)
      (hp : c.Precedes g) (h : Run groups c ws c') : Run groups c (.doc g :: ws) c'

namespace Run

variable {groups : List CommentGroup} {c c' c'' : Cursor} {ws ws' : List Word}

theorem trans (h : Run groups c ws c') (h' : Run groups c' ws' c'') :
    Run groups c (ws ++ ws') c'' := by
  induction h with
  | refl => exact h'
  | lexeme _ ih => exact .lexeme (ih h')
  | doc hg hp _ ih => exact .doc hg hp (ih h')

/-- A run over a lexeme, and one over the words behind it. -/
theorem cons {l : Lexeme} (h : Run groups c [.lexeme l] c') (h' : Run groups c' ws c'') :
    Run groups c (.lexeme l :: ws) c'' := h.trans h'

theorem ended (h : Run groups c ws c') (he : Ended c.rest) : Ended c'.rest := by
  induction h with
  | refl => exact he
  | lexeme _ ih => exact ih he.2
  | doc _ _ _ ih => exact ih he

/-- A run goes over the lexemes among its words, in order. -/
theorem rest_eq (h : Run groups c ws c') : c.rest = Word.lexemes ws ++ c'.rest := by
  induction h with
  | refl => rfl
  | lexeme _ ih => simpa using ih
  | doc _ _ _ ih => simpa using ih

theorem mem_groups (h : Run groups c ws c') {g : CommentGroup} (hg : .doc g ∈ ws) : g ∈ groups := by
  induction h with
  | refl => cases hg
  | lexeme _ ih => exact ih (by simpa using hg)
  | doc hmem _ _ ih =>
    rcases List.mem_cons.mp hg with heq | hg
    · exact Word.doc.inj heq ▸ hmem
    · exact ih hg

theorem split (h : Run groups c (ws ++ ws') c'') :
    ∃ c', Run groups c ws c' ∧ Run groups c' ws' c'' := by
  generalize hvs : ws ++ ws' = vs at h
  induction h generalizing ws with
  | refl c =>
    obtain ⟨rfl, rfl⟩ := List.append_eq_nil_iff.mp hvs
    exact ⟨c, .refl c, .refl c⟩
  | lexeme h ih =>
    cases ws with
    | nil =>
      subst hvs
      exact ⟨_, .refl _, .lexeme h⟩
    | cons w ws =>
      cases hvs
      obtain ⟨c₁, h₁, h₂⟩ := ih rfl
      exact ⟨c₁, .lexeme h₁, h₂⟩
  | doc hg hp h ih =>
    cases ws with
    | nil =>
      subst hvs
      exact ⟨_, .refl _, .doc hg hp h⟩
    | cons w ws =>
      cases hvs
      obtain ⟨c₁, h₁, h₂⟩ := ih rfl
      exact ⟨c₁, .doc hg hp h₁, h₂⟩

/-- Behind a run stands its last lexeme. -/
theorem previous (h : Run groups c ws c') :
    c'.previous = ((Word.lexemes ws).getLast?.map (·.pos)).or c.previous := by
  induction h with
  | refl => rfl
  | lexeme _ ih =>
    rw [ih, Word.lexemes_lexeme, List.getLast?_cons]
    cases (Word.lexemes _).getLast? <;> rfl
  | doc _ _ _ ih => exact ih

/-- A comment group among the words of a run stands before the lexeme that follows it. -/
theorem stop_le_pos {g : CommentGroup} {l : Lexeme}
    (h : Run groups c (ws ++ .doc g :: .lexeme l :: ws') c') : g.stop ≤ l.pos := by
  obtain ⟨c₁, -, h⟩ := h.split
  cases h with
  | doc _ hp h =>
    cases h with
    | lexeme => exact hp.1

/-- A comment group among the words of a run stands behind the lexeme before it. -/
theorem pos_lt_start {g : CommentGroup} {l : Lexeme} (h : Run groups c (ws ++ .doc g :: ws') c')
    (hl : (Word.lexemes ws).getLast? = some l) : l.pos < g.start := by
  obtain ⟨c₁, h₁, h⟩ := h.split
  have hprevious := h₁.previous
  rw [hl] at hprevious
  cases h with
  | doc _ hp _ => exact hp.2 l.pos hprevious

theorem move (he : Ended c.rest) (ht : c.front.token ≠ .eof) :
    Run groups c [.lexeme c.front] c.move := by
  obtain ⟨m, ls, hrest, -, hmove⟩ := Cursor.ended_move he ht
  rw [hmove]
  obtain ⟨rest, q⟩ := c
  change rest = _ at hrest
  rw [hrest]
  exact .lexeme (.refl _)

end Run

/-! ### Inverting readers -/

namespace Reader

variable {α β : Type} {ctx : Context} {c c' : Cursor}

/-- The reader answers with `a` and leaves the cursor at `c'`. -/
def Gives (r : Reader α) (ctx : Context) (c : Cursor) (a : α) (c' : Cursor) : Prop :=
  r ctx c = .ok (a, c')

theorem bind_ok {r : Reader α} {f : α → Reader β} {b : β} (h : Gives (r >>= f) ctx c b c') :
    ∃ a c₁, Gives r ctx c a c₁ ∧ Gives (f a) ctx c₁ b c' := by
  change (r ctx c >>= fun x => f x.1 ctx x.2) = _ at h
  cases hr : r ctx c with
  | error e => rw [hr] at h; cases h
  | ok x => rw [hr] at h; exact ⟨x.1, x.2, hr, h⟩

theorem pure_ok {a b : α} (h : Gives (pure a : Reader α) ctx c b c') : a = b ∧ c = c' := by
  cases h
  exact ⟨rfl, rfl⟩

theorem current_ok {l : Lexeme} (h : Gives current ctx c l c') : c.front = l ∧ c = c' := by
  cases h
  exact ⟨rfl, rfl⟩

theorem token_ok {t : Token} (h : Gives token ctx c t c') : c.front.token = t ∧ c = c' := by
  cases h
  exact ⟨rfl, rfl⟩

theorem position_ok {p : Pos} (h : Gives position ctx c p c') : c.front.pos = p ∧ c = c' := by
  cases h
  exact ⟨rfl, rfl⟩

theorem following_ok {t : Token} (h : Gives following ctx c t c') : c.second = t ∧ c = c' := by
  cases h
  exact ⟨rfl, rfl⟩

theorem advance_ok {u : Unit} (h : Gives advance ctx c u c') : c.move = c' := by
  cases h
  rfl

theorem unexpected_ok {a : α} {w : Wanted} : ¬ Gives (unexpected w : Reader α) ctx c a c' := by
  intro h
  cases h

theorem refuse_ok {a : α} {p : Pos} {e : Cause} : ¬ Gives (refuse p e : Reader α) ctx c a c' := by
  intro h
  cases h

theorem got?_ok {t : Token} {o : Option Pos} (h : Gives (got? t) ctx c o c') :
    (c.front.token = t ∧ o = some c.front.pos ∧ c.move = c') ∨
      (c.front.token ≠ t ∧ o = none ∧ c = c') := by
  obtain ⟨l, c₁, h₁, h⟩ := bind_ok h
  obtain ⟨rfl, rfl⟩ := current_ok h₁
  split at h
  · obtain ⟨u, c₂, h₂, h⟩ := bind_ok h
    obtain rfl := advance_ok h₂
    obtain ⟨rfl, rfl⟩ := pure_ok h
    exact .inl ⟨‹_›, rfl, rfl⟩
  · obtain ⟨rfl, rfl⟩ := pure_ok h
    exact .inr ⟨‹_›, rfl, rfl⟩

theorem atDots_ok {b : Bool} (h : Gives atDots ctx c b c') :
    (ctx.dialect == .pattern && c.front.token == .ellipsis) = b ∧ c = c' := by
  cases h
  exact ⟨rfl, rfl⟩

theorem withLiterals_ok {r : Reader α} {a : α} {allowed : Bool}
    (h : Gives (withLiterals allowed r) ctx c a c') :
    Gives r { ctx with literals := allowed } c a c' := h

end Reader

/-! ### The steps of productions -/

namespace Reader

variable {ctx : Context} {c c' : Cursor}

theorem take_run {p : Pos} (he : Ended c.rest) (ht : c.front.token ≠ .eof)
    (h : Gives take ctx c p c') :
    p = c.front.pos ∧ Run ctx.groups c [.lexeme c.front] c' := by
  obtain ⟨q, c₁, h₁, h⟩ := bind_ok h
  obtain ⟨rfl, rfl⟩ := position_ok h₁
  obtain ⟨u, c₂, h₂, h⟩ := bind_ok h
  obtain rfl := advance_ok h₂
  obtain ⟨rfl, rfl⟩ := pure_ok h
  exact ⟨rfl, .move he ht⟩

theorem got?_run {t : Token} {o : Option Pos} (he : Ended c.rest) (ht : t ≠ .eof)
    (h : Gives (got? t) ctx c o c') :
    (∃ l, l.token = t ∧ o = some l.pos ∧ Run ctx.groups c [.lexeme l] c') ∨
      (c.front.token ≠ t ∧ o = none ∧ c = c') := by
  rcases got?_ok h with ⟨hf, ho, rfl⟩ | hno
  · exact .inl ⟨c.front, hf, ho, .move he (hf ▸ ht)⟩
  · exact .inr hno

theorem expect_run {t : Token} {p : Pos} (he : Ended c.rest) (ht : t ≠ .eof)
    (h : Gives (expect t) ctx c p c') :
    ∃ l, l.token = t ∧ p = l.pos ∧ Run ctx.groups c [.lexeme l] c' := by
  obtain ⟨o, c₁, h₁, h⟩ := bind_ok h
  rcases got?_run he ht h₁ with ⟨l, hl, rfl, run⟩ | ⟨-, rfl, -⟩
  · obtain ⟨rfl, rfl⟩ := pure_ok h
    exact ⟨l, hl, rfl, run⟩
  · exact absurd h unexpected_ok

/-- Words that may stand where a statement ends. -/
def IsEnd (ws : List Word) : Prop := ws = [] ∨ ∃ l : Lexeme, l.token = .semicolon ∧ ws = [.lexeme l]

theorem endStatement_run {u : Unit} (he : Ended c.rest) (h : Gives endStatement ctx c u c') :
    ∃ ws, IsEnd ws ∧ Run ctx.groups c ws c' := by
  obtain ⟨t, c₁, h₁, h⟩ := bind_ok h
  obtain ⟨rfl, rfl⟩ := token_ok h₁
  split at h
  · rename_i hf
    obtain rfl := advance_ok h
    exact ⟨_, .inr ⟨c.front, hf, rfl⟩, .move he (by rw [hf]; decide)⟩
  · obtain ⟨-, rfl⟩ := pure_ok h
    exact ⟨[], .inl rfl, .refl _⟩
  · obtain ⟨-, rfl⟩ := pure_ok h
    exact ⟨[], .inl rfl, .refl _⟩
  · obtain ⟨-, rfl⟩ := pure_ok h
    exact ⟨[], .inl rfl, .refl _⟩
  · exact absurd h unexpected_ok

/-- A line end is consumed only right before the closing token. -/
theorem skipLineEnd_run {close : Token} {u : Unit} (he : Ended c.rest)
    (h : Gives (skipLineEnd close) ctx c u c') :
    ∃ ws, IsEnd ws ∧ Run ctx.groups c ws c' ∧
      (ws = [] ∧ c = c' ∨ c'.front.token = close ∧ c.front.token = .semicolon) := by
  obtain ⟨l, c₁, h₁, h⟩ := bind_ok h
  obtain ⟨rfl, rfl⟩ := current_ok h₁
  obtain ⟨t, c₂, h₂, h⟩ := bind_ok h
  obtain ⟨rfl, rfl⟩ := following_ok h₂
  split at h
  · rename_i hcond
    obtain rfl := advance_ok h
    simp only [Bool.and_eq_true, decide_eq_true_eq, beq_iff_eq] at hcond
    obtain ⟨⟨hf, -⟩, hsecond⟩ := hcond
    have ht : c.front.token ≠ .eof := by rw [hf]; decide
    refine ⟨_, .inr ⟨c.front, hf, rfl⟩, .move he ht, .inr ⟨?_, hf⟩⟩
    obtain ⟨m, ls, hrest, -, hmove⟩ := Cursor.ended_move he ht
    rw [hmove, ← hsecond, Cursor.second, hrest]
    rfl
  · obtain ⟨-, rfl⟩ := pure_ok h
    exact ⟨[], .inl rfl, .refl _, .inl ⟨rfl, rfl⟩⟩

end Reader

/-- A reader of trees reads phrases of a sort: what it consumes spells what it answers. -/
def Reads (s : Phrase) (r : Reader Tree) : Prop :=
  ∀ ⦃ctx : Context⦄ ⦃c : Cursor⦄ ⦃t : Tree⦄ ⦃c' : Cursor⦄, Ended c.rest →
    r.Gives ctx c t c' →
    ∃ ws, Run ctx.groups c ws c' ∧ Derives ctx.dialect s ws t

theorem Reads.cover {s s' : Phrase} {r : Reader Tree} (h : Reads s' r) (hc : Covers s s') :
    Reads s r := by
  intro ctx c t c' he hr
  obtain ⟨ws, run, ht⟩ := h he hr
  exact ⟨ws, run, .cover hc ht⟩

theorem Reads.withLiterals {s : Phrase} {r : Reader Tree} (h : Reads s r) (allowed : Bool) :
    Reads s (Reader.withLiterals allowed r) := by
  intro ctx c t c' he hr
  obtain ⟨ws, run, hd⟩ := h he (Reader.withLiterals_ok hr)
  exact ⟨ws, run, hd⟩

theorem Derives.lineEnd? {d : Dialect} {ps : List Part} {ws ws' : List Word} {ts : List Tree}
    (h : Reader.IsEnd ws) (hp : Derives d (.parts ps) ws' (.list ts)) :
    Derives d (.parts (.lineEnd :: ps)) (ws ++ ws') (.list ts) := by
  rcases h with rfl | ⟨l, hl, rfl⟩
  · exact .noLineEnd hp
  · exact .lineEnd hl hp

theorem Derives.linesEnd? {d : Dialect} {s : Phrase} {ws ws' : List Word} {t : Tree}
    (hs : Derives d (.lines s) ws t) (h : Reader.IsEnd ws') :
    Derives d (.lines s) (ws ++ ws') t := by
  rcases h with rfl | ⟨l, hl, rfl⟩
  · rwa [List.append_nil]
  · exact .linesSemicolon hs hl

namespace Reader

variable {ctx : Context} {c c' : Cursor}

theorem ident_reads : Reads .ident ident := by
  intro ctx c t c' he h
  obtain ⟨l, c₁, h₁, h⟩ := bind_ok h
  obtain ⟨rfl, rfl⟩ := current_ok h₁
  split at h
  · rename_i hf
    obtain ⟨u, c₂, h₂, h⟩ := bind_ok h
    obtain rfl := advance_ok h₂
    obtain ⟨rfl, rfl⟩ := pure_ok h
    exact ⟨_, .move he (by rw [hf]; decide), .ident hf⟩
  · exact absurd h unexpected_ok

theorem basicLit_run {t : Tree} (he : Ended c.rest) (hf : c.front.token.isLiteral = true)
    (h : Gives basicLit ctx c t c') :
    ∃ ws, Run ctx.groups c ws c' ∧ Derives ctx.dialect .literal ws t := by
  obtain ⟨l, c₁, h₁, h⟩ := bind_ok h
  obtain ⟨rfl, rfl⟩ := current_ok h₁
  obtain ⟨u, c₂, h₂, h⟩ := bind_ok h
  obtain rfl := advance_ok h₂
  obtain ⟨rfl, rfl⟩ := pure_ok h
  refine ⟨_, .move he ?_, .literal hf⟩
  intro heof
  rw [heof] at hf
  cases hf

theorem dots_run {t : Tree} (he : Ended c.rest) (hd : ctx.dialect = .pattern)
    (hf : c.front.token = .ellipsis) (h : Gives dots ctx c t c') :
    ∃ ws, Run ctx.groups c ws c' ∧ Derives ctx.dialect .dots ws t := by
  obtain ⟨p, c₁, h₁, h⟩ := bind_ok h
  obtain ⟨rfl, run⟩ := take_run he (by rw [hf]; decide) h₁
  obtain ⟨rfl, rfl⟩ := pure_ok h
  exact ⟨_, run, .dots hd hf⟩

/-- The comment group that `docFor` finds stands right before the lexeme in front. -/
theorem docFor_run {t : Tree} (h : Gives (docFor c.front.pos) ctx c t c') :
    ∃ ws, c = c' ∧ Run ctx.groups c ws c ∧ Derives ctx.dialect .doc ws t := by
  obtain ⟨ctx', c₁, h₁, h⟩ := bind_ok h
  cases h₁
  split at h
  · obtain ⟨rfl, rfl⟩ := pure_ok h
    exact ⟨[], rfl, .refl _, .noDoc⟩
  · rename_i g hg
    have hmem := List.mem_of_getLast? hg
    have hstop : g.stop ≤ c.front.pos := by
      simpa using List.all_eq_true.mp List.all_takeWhile g hmem
    obtain ⟨c₂, c₃, h₂, h⟩ := bind_ok h
    cases h₂
    -- the group counts only if it stands behind the lexeme before the cursor
    have found (hnext : ∀ q, c.previous = some q → q < g.start) (ht : g.tree = t) (hc : c = c') :
        ∃ ws, c = c' ∧ Run ctx.groups c ws c ∧ Derives ctx.dialect .doc ws t := by
      subst ht
      exact ⟨[.doc g], hc, .doc ((List.takeWhile_subset _) hmem) ⟨hstop, hnext⟩ (.refl _), .doc g⟩
    split at h
    · rename_i hprev
      dsimp only at h
      split at h
      · obtain ⟨ht, hc⟩ := pure_ok h
        exact found (fun q hq => by rw [hprev] at hq; cases hq) ht hc
      · obtain ⟨rfl, rfl⟩ := pure_ok h
        exact ⟨[], rfl, .refl _, .noDoc⟩
    · rename_i q hprev
      dsimp only at h
      split at h
      · rename_i hcond
        obtain ⟨ht, hc⟩ := pure_ok h
        simp only [Bool.and_eq_true, decide_eq_true_eq] at hcond
        refine found (fun q' hq' => ?_) ht hc
        rw [hprev] at hq'
        exact Option.some.inj hq' ▸ hcond.1.2
      · obtain ⟨rfl, rfl⟩ := pure_ok h
        exact ⟨[], rfl, .refl _, .noDoc⟩

/-! ### Repetition -/

section Loop

variable {σ α : Type} {body : σ → Reader (σ ⊕ α)} {I : σ → Cursor → List Word → Prop}
  {P : α → Cursor → List Word → Prop}

/-- What holds of the words read so far after each round holds of all words in the end. -/
theorem loop_run
    (round : ∀ s w c₁ x c₂, Ended c₁.rest → I s c₁ w → Gives (body s) ctx c₁ x c₂ →
      ∃ w', Run ctx.groups c₁ w' c₂ ∧
        Sum.elim (fun s' => I s' c₂ (w ++ w')) (fun a => P a c₂ (w ++ w')) x)
    {n : Nat} {s : σ} {a : α} {w : List Word} (he : Ended c.rest) (hs : I s c w)
    (h : Gives (loop body n s) ctx c a c') :
    ∃ w', Run ctx.groups c w' c' ∧ P a c' (w ++ w') := by
  induction n generalizing s c w with
  | zero =>
    obtain ⟨p, c₁, _, h⟩ := bind_ok h
    exact absurd h refuse_ok
  | succ n ih =>
    obtain ⟨x, c₁, h₁, h⟩ := bind_ok h
    obtain ⟨w₁, run₁, hx⟩ := round s w c x c₁ he hs h₁
    cases x with
    | inl s' =>
      obtain ⟨w₂, run₂, hpost⟩ := ih (run₁.ended he) hx h
      exact ⟨w₁ ++ w₂, run₁.trans run₂, by rwa [← List.append_assoc]⟩
    | inr a' =>
      obtain ⟨rfl, rfl⟩ := pure_ok h
      exact ⟨w₁, run₁, hx⟩

theorem iterate_run
    (round : ∀ s w c₁ x c₂, Ended c₁.rest → I s c₁ w → Gives (body s) ctx c₁ x c₂ →
      ∃ w', Run ctx.groups c₁ w' c₂ ∧
        Sum.elim (fun s' => I s' c₂ (w ++ w')) (fun a => P a c₂ (w ++ w')) x)
    {s : σ} {a : α} {w : List Word} (he : Ended c.rest) (hs : I s c w)
    (h : Gives (iterate s body) ctx c a c') :
    ∃ w', Run ctx.groups c w' c' ∧ P a c' (w ++ w') := by
  obtain ⟨c₁, c₂, h₁, h⟩ := bind_ok h
  cases h₁
  exact loop_run round he hs h

end Loop

/-- Items with commas between. -/
theorem commaList_run {s : Phrase} {item : Reader Tree} {ts : List Tree} (hn : s.isNode = true)
    (hr : Reads s item) (he : Ended c.rest) (h : Gives (commaList item) ctx c ts c') :
    ∃ ws, Run ctx.groups c ws c' ∧ Derives ctx.dialect (.more s) ws (.list ts) := by
  obtain ⟨x, c₁, h₁, h⟩ := bind_ok h
  obtain ⟨ws₁, run₁, hx⟩ := hr he h₁
  have hfirst : Derives ctx.dialect (.more s) ws₁ (.list [x]) := .more hn (.endedNil s) hx
  have hloop : ∃ ws₂, Run ctx.groups c₁ ws₂ c' ∧
      Derives ctx.dialect (.more s) (ws₁ ++ ws₂) (.list ts) := by
    refine iterate_run (I := fun xs _ ws => Derives ctx.dialect (.more s) ws (.list xs))
      (P := fun xs _ ws => Derives ctx.dialect (.more s) ws (.list xs)) ?_ (run₁.ended he) hfirst h
    intro xs ws c₁ y c₂ he hxs h
    obtain ⟨o, c₃, h₃, h⟩ := bind_ok h
    rcases got?_run he (by decide) h₃ with ⟨l, hl, rfl, run₃⟩ | ⟨-, rfl, rfl⟩
    · obtain ⟨x, c₄, h₄, h⟩ := bind_ok h
      obtain ⟨ws₄, run₄, hx⟩ := hr (run₃.ended he) h₄
      obtain ⟨rfl, rfl⟩ := pure_ok h
      refine ⟨_, run₃.trans run₄, ?_⟩
      show Derives _ _ (ws ++ ([Word.lexeme l] ++ ws₄)) _
      rw [← List.append_assoc]
      exact .more hn (.endedComma hxs hl) hx
    · obtain ⟨rfl, rfl⟩ := pure_ok h
      exact ⟨[], .refl _, by simpa using hxs⟩
  obtain ⟨ws₂, run₂, hts⟩ := hloop
  exact ⟨ws₁ ++ ws₂, run₁.trans run₂, hts⟩

/-- An item of some lines and the end of its line. -/
theorem lineItem_run {s : Phrase} {item : Reader Tree} {xs : List Tree} {x : Tree} {u : Unit}
    {ws : List Word} {c₁ : Cursor} (hn : s.isNode = true) (hr : Reads s item) (he : Ended c.rest)
    (hxs : Derives ctx.dialect (.lines s) ws (.list xs)) (h : Gives item ctx c x c₁)
    (hend : Gives endStatement ctx c₁ u c') :
    ∃ ws', Run ctx.groups c ws' c' ∧
      Derives ctx.dialect (.lines s) (ws ++ ws') (.list (xs ++ [x])) := by
  obtain ⟨ws₁, run₁, hx⟩ := hr he h
  obtain ⟨ws₂, hws₂, run₂⟩ := endStatement_run (run₁.ended he) hend
  refine ⟨_, run₁.trans run₂, ?_⟩
  rw [← List.append_assoc]
  exact .linesEnd? (.linesItem hn hxs hx) hws₂

end Reader

end Graft
