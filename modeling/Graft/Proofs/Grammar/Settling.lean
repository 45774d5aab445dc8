import Graft.Proofs.Grammar.Reading

/-! # Readers that settle

The productions are defined for a grammar that is cut off at some depth, and their loops for a
number of rounds.  A reader *settles* at a cursor if neither limit shows there: it does not refuse
the text as too deep, and does the same over two grammars, of which nothing is known below the depth
they share (`Settles`).  This is put together step by step (`Settles.bind`), from what the steps do
to the cursor: which of them move it on (`Cursor.After`) and which leave it where it is, perhaps
(`Cursor.From`).

A loop settles if its rounds do and each that goes on moves the cursor on (`Settles.iterate`).

What is known of the lexemes is only that the last one is the end of a text.
-/

namespace Graft

namespace Cursor

/-- Whether the last lexeme is the end of a text. -/
def Closed (c : Cursor) : Prop := c.rest.getLast?.map (·.token) = some .eof

/-- Whether the cursor `c'` is where `c` is or further on. -/
structure From (c' c : Cursor) : Prop where
  closed : c'.Closed
  le : c'.rest.length ≤ c.rest.length

/-- Whether the cursor `c'` is further on than `c`. -/
structure After (c' c : Cursor) : Prop where
  closed : c'.Closed
  lt : c'.rest.length < c.rest.length

variable {c c' c'' : Cursor}

theorem Closed.here (h : c.Closed) : c.From c := ⟨h, Nat.le_refl _⟩

theorem Closed.length_pos (h : c.Closed) : 0 < c.rest.length := by
  rw [List.length_pos_iff]
  intro hrest
  rw [Closed, hrest] at h
  cases h

theorem After.from (h : c'.After c) : c'.From c := ⟨h.closed, Nat.le_of_lt h.lt⟩

theorem From.trans (h' : c''.From c') (h : c'.From c) :
    c''.From c := ⟨h'.closed, Nat.le_trans h'.le h.le⟩

theorem From.after (h' : c''.From c') (h : c'.After c) : c''.After c :=
  ⟨h'.closed, Nat.lt_of_le_of_lt h'.le h.lt⟩

theorem After.trans (h' : c''.After c') (h : c'.From c) : c''.After c :=
  ⟨h'.closed, Nat.lt_of_lt_of_le h'.lt h.le⟩

theorem Closed.move (h : c.Closed) : c.move.From c := by
  obtain ⟨rest, q⟩ := c
  match rest with
  | [] | [_] => exact h.here
  | l :: m :: ls =>
    refine ⟨?_, Nat.le_succ _⟩
    rwa [Closed, List.getLast?_cons_cons] at h

/-- Behind every lexeme but the end of the text there is another one. -/
theorem Closed.move_after (h : c.Closed) (ht : c.front.token ≠ .eof) : c.move.After c := by
  refine ⟨h.move.closed, ?_⟩
  obtain ⟨rest, q⟩ := c
  match rest with
  | [] => cases h
  | [l] => exact absurd (Option.some.inj h) ht
  | l :: m :: ls => exact Nat.lt_succ_self _

end Cursor

/-! ### Settling -/

namespace Reader

variable {α β σ : Type} {ctx : Context} {c : Cursor}

/-- Whether two readers do the same from a cursor on, are not stopped for depth, and when they
succeed, the answer and the cursor are as `Q` says. -/
structure Settles (Q : α → Cursor → Prop) (r r' : Reader α) (ctx : Context) (c : Cursor) :
    Prop where
  same : r ctx c = r' ctx c
  cause : ∀ e, r ctx c = .error e → e.cause ≠ .tooDeep
  gives : ∀ a c', r ctx c = .ok (a, c') → Q a c'

/-- Whether the readers settle and move the cursor on when they succeed. -/
abbrev Advances (r r' : Reader α) (ctx : Context) (c : Cursor) :
    Prop := Settles (fun _ c' => c'.After c) r r' ctx c

/-- What a round of a loop says of its answer: if the loop goes on, the cursor is behind `c`, and if
not, the answer of the loop is as `Q` says. -/
abbrev Round (Q : α → Cursor → Prop) (c : Cursor) (x : σ ⊕ α) (c' : Cursor) : Prop :=
  Sum.elim (fun _ => c'.After c) (fun a => Q a c') x

namespace Settles

variable {Q Q' : α → Cursor → Prop} {R : β → Cursor → Prop} {r r' : Reader α} {f f' : α → Reader β}

theorem mono (h : Settles Q r r' ctx c) (hQ : ∀ a c', Q a c' → Q' a c') : Settles Q' r r' ctx c :=
  ⟨h.same, h.cause, fun a c' hr => hQ a c' (h.gives a c' hr)⟩

/-- Only what the readers answer at the cursor counts. -/
theorem congr {s s' : Reader α} (h : Settles Q r r' ctx c) (hs : s ctx c = r ctx c)
    (hs' : s' ctx c = r' ctx c) :
    Settles Q s s' ctx c :=
  ⟨hs.trans (h.same.trans hs'.symm), fun e he => h.cause e (hs ▸ he),
    fun a c' ha => h.gives a c' (hs ▸ ha)⟩

theorem bind (h : Settles Q r r' ctx c) (hf : ∀ a c', Q a c' → Settles R (f a) (f' a) ctx c') :
    Settles R (r >>= f) (r' >>= f') ctx c := by
  have hrun (r : Reader α) (f : α → Reader β) : (r >>= f) ctx c = r ctx c >>= fun x =>
      f x.1 ctx x.2 := rfl
  cases hr : r ctx c with
  | error e =>
    have hr' : r' ctx c = .error e := h.same.symm.trans hr
    have herror {r : Reader α} {f : α → Reader β} (hr : r ctx c = .error e) : (r >>= f) ctx c =
        .error e := by
      rw [hrun, hr]
      rfl
    refine ⟨(herror hr).trans (herror hr').symm, fun e' he => ?_, fun a c' ha => ?_⟩
    · cases (herror hr).symm.trans he
      exact h.cause e hr
    · cases (herror hr).symm.trans ha
  | ok x =>
    have hok {r : Reader α} {f : α → Reader β} (hr : r ctx c = .ok x) : (r >>= f) ctx c =
        f x.1 ctx x.2 := by
      rw [hrun, hr]
      rfl
    have hx := hf x.1 x.2 (h.gives x.1 x.2 hr)
    have heq := hok (f := f) hr
    have heq' := hok (f := f') (h.same.symm.trans hr)
    exact ⟨heq.trans (hx.same.trans heq'.symm), fun e he => hx.cause e (heq ▸ he),
      fun b c' hb => hx.gives b c' (heq ▸ hb)⟩

theorem pure {a : α} (h : Q a c) : Settles Q (pure a) (pure a) ctx c := by
  refine ⟨rfl, nofun, ?_⟩
  rintro _ _ ⟨⟩
  exact h

theorem pure_bind {a : α} (h : Settles R (f a) (f' a) ctx c) :
    Settles R (Pure.pure a >>= f) (Pure.pure a >>= f') ctx c := h.congr rfl rfl

theorem throw {e : ParseError} (h : e.cause ≠ .tooDeep) :
    Settles Q (throw e : Reader α) (MonadExcept.throw e) ctx c := by
  refine ⟨rfl, ?_, nofun⟩
  rintro _ ⟨⟩
  exact h

theorem refuse {p : Pos} {cause : Cause} (h : cause ≠ .tooDeep) :
    Settles Q (refuse p cause) (Reader.refuse p cause) ctx c := throw (e := ⟨p, cause⟩) h

theorem unexpected {w : Wanted} : Settles Q (unexpected w) (Reader.unexpected w) ctx c :=
  ⟨rfl, by rintro _ ⟨⟩; exact nofun, nofun⟩

theorem withLiterals {allowed : Bool} (h : Settles Q r r' { ctx with literals := allowed } c) :
    Settles Q (withLiterals allowed r) (Reader.withLiterals allowed r') ctx c :=
      ⟨h.same, h.cause, h.gives⟩

/-! ### Looking at the text -/

/-- What is behind a reader that consumes nothing. -/
theorem look {a : α} (hr : r ctx c = .ok (a, c)) (h : Settles R (f a) (f' a) ctx c) :
    Settles R (r >>= f) (r >>= f') ctx c := by
  refine bind (Q := fun x c' => x = a ∧ c' = c) ⟨rfl, fun e he => ?_, fun x c' hx => ?_⟩ ?_
  · rw [hr] at he
    cases he
  · rw [hr] at hx
    cases hx
    exact ⟨rfl, rfl⟩
  · rintro _ _ ⟨rfl, rfl⟩
    exact h

theorem current {f f' : Lexeme → Reader β} (h : Settles R (f c.front) (f' c.front) ctx c) :
    Settles R (current >>= f) (Reader.current >>= f') ctx c := look rfl h

theorem token {f f' : Token → Reader β} (h : Settles R (f c.front.token) (f' c.front.token) ctx c) :
    Settles R (token >>= f) (Reader.token >>= f') ctx c := look rfl h

theorem position {f f' : Pos → Reader β} (h : Settles R (f c.front.pos) (f' c.front.pos) ctx c) :
    Settles R (position >>= f) (Reader.position >>= f') ctx c := look rfl h

theorem following {f f' : Token → Reader β} (h : Settles R (f c.second) (f' c.second) ctx c) :
    Settles R (following >>= f) (Reader.following >>= f') ctx c := look rfl h

/-- A wildcard is no end of a text. -/
theorem atDots {f f' : Bool → Reader β} (h : ∀ b, (b = true → c.front.token = .ellipsis) →
    Settles R (f b) (f' b) ctx c) : Settles R (atDots >>= f) (Reader.atDots >>= f') ctx c :=
  look rfl (h _ fun hdots => beq_iff_eq.mp ((Bool.and_eq_true _ _).mp hdots).2)

theorem docFor {p : Pos} {f f' : Tree → Reader β} (h : ∀ t, Settles R (f t) (f' t) ctx c) :
    Settles R (docFor p >>= f) (Reader.docFor p >>= f') ctx c := by
  have hdoc : Settles (fun _ c' => c' = c) (Reader.docFor p) (Reader.docFor p) ctx c := by
    refine look rfl ?_
    split
    · exact pure rfl
    · refine look rfl ?_
      split
      all_goals
        dsimp only
        split
        · exact pure rfl
        · exact pure rfl
  exact hdoc.bind fun t _ hc => hc ▸ h t

/-! ### Moving on -/

variable {t : Token}

theorem advance (hc : c.Closed) (ht : c.front.token ≠ .eof) :
    Advances advance Reader.advance ctx c := by
  refine ⟨rfl, nofun, ?_⟩
  rintro _ _ ⟨⟩
  exact hc.move_after ht

theorem take (hc : c.Closed) (ht : c.front.token ≠ .eof) : Advances take Reader.take ctx c :=
  position ((advance hc ht).bind fun _ _ h => pure h)

theorem dots (hc : c.Closed) (ht : c.front.token = .ellipsis) : Advances dots Reader.dots ctx c :=
  (take hc (by rw [ht]; decide)).bind fun _ _ h => pure h

/-- A token that may be in front. -/
theorem got? {f f' : Option Pos → Reader β} (hc : c.Closed) (ht : t ≠ .eof)
    (hsome : ∀ p c', c'.After c → Settles R (f (some p)) (f' (some p)) ctx c')
    (hnone : Settles R (f none) (f' none) ctx c) :
    Settles R (got? t >>= f) (Reader.got? t >>= f') ctx c := by
  by_cases hfront : c.front.token = t
  · have hgot : Settles (fun o c' => (∃ p, o = some p) ∧ c'.After c) (Reader.got? t)
        (Reader.got? t) ctx c := by
      refine current ?_
      rw [if_pos hfront]
      exact (advance hc (hfront ▸ ht)).bind fun _ _ h => pure ⟨⟨_, rfl⟩, h⟩
    refine hgot.bind ?_
    rintro _ c' ⟨⟨p, rfl⟩, h⟩
    exact hsome p c' h
  · have hgot : Settles (fun o c' => o = none ∧ c' = c) (Reader.got? t) (Reader.got? t) ctx c := by
      refine current ?_
      rw [if_neg hfront]
      exact pure ⟨rfl, rfl⟩
    refine hgot.bind ?_
    rintro _ _ ⟨rfl, rfl⟩
    exact hnone

theorem expect (hc : c.Closed) (ht : t ≠ .eof) : Advances (expect t) (Reader.expect t) ctx c :=
  got? hc ht (fun _ _ h => pure h) unexpected

theorem endStatement (hc : c.Closed) :
    Settles (fun _ c' => c'.From c) endStatement Reader.endStatement ctx c := by
  refine token ?_
  split
  · rename_i hsemi
    exact (advance hc (by rw [hsemi]; decide)).mono fun _ _ h => h.from
  · exact pure hc.here
  · exact pure hc.here
  · exact pure hc.here
  · exact unexpected

theorem skipLineEnd {close : Token} (hc : c.Closed) :
    Settles (fun _ c' => c'.From c) (skipLineEnd close) (Reader.skipLineEnd close) ctx c := by
  refine current (following ?_)
  split
  · rename_i hcond
    simp only [Bool.and_eq_true, decide_eq_true_eq] at hcond
    exact (advance hc (by rw [hcond.1.1]; decide)).mono fun _ _ h => h.from
  · exact pure hc.here

theorem ident (hc : c.Closed) : Advances ident Reader.ident ctx c := by
  refine current ?_
  split
  · rename_i hident
    exact (advance hc (by rw [hident]; decide)).bind fun _ _ h => pure h
  · exact unexpected

theorem basicLit (hc : c.Closed) (ht : c.front.token ≠ .eof) :
    Advances basicLit Reader.basicLit ctx c :=
  current ((advance hc ht).bind fun _ _ h => pure h)

/-! ### Loops -/

variable {body body' : σ → Reader (σ ⊕ α)}

theorem loop {n : Nat} {s : σ} (hc : c.Closed) (hn : c.rest.length ≤ n)
    (round : ∀ s c', c'.From c → Settles (Round Q c') (body s) (body' s) ctx c') :
    Settles Q (loop body n s) (Reader.loop body' n s) ctx c := by
  induction n generalizing s c with
  | zero => exact absurd hc.length_pos (Nat.not_lt_of_le hn)
  | succ n ih =>
    refine (round s c hc.here).bind fun x c' hx => ?_
    cases x with
    | inl s' =>
      have hx : c'.After c := hx
      have hlt := hx.lt
      exact ih hx.closed (by omega) fun s c'' h => round s c'' (h.trans hx.from)
    | inr a => exact pure hx

/-- **A loop settles if its rounds do**, and all but the last consume something. -/
theorem iterate {s : σ} (hc : c.Closed)
    (round : ∀ s c', c'.From c → Settles (Round Q c') (body s) (body' s) ctx c') :
    Settles Q (iterate s body) (Reader.iterate s body') ctx c :=
  look (a := c) rfl (loop hc (Nat.le_succ _) round)

theorem commaList {item item' : Reader α} (hc : c.Closed)
    (hitem : ∀ c', c'.From c → Advances item item' ctx c') :
    Advances (commaList item) (Reader.commaList item') ctx c := by
  refine (hitem c hc.here).bind fun x c₁ h₁ => iterate h₁.closed fun xs c₂ h₂ => ?_
  refine got? h₂.closed (by decide) (fun _ c₃ h₃ => ?_) (pure (h₂.after h₁))
  exact (hitem c₃ ((h₃.from.trans h₂).trans h₁.from)).bind fun _ c₄ h₄ => pure (h₄.trans h₃.from)

theorem skipSemicolons (hc : c.Closed) :
    Settles (fun _ c' => c'.From c) skipSemicolons Reader.skipSemicolons ctx c :=
  iterate hc fun _ _ h => got? h.closed (by decide) (fun _ _ h' => pure h') (pure h)

end Settles

end Reader

end Graft
