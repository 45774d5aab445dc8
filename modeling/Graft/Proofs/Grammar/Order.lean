import Graft.Proofs.Grammar.Extent
import Graft.Proofs.Grammar.Nodes

/-! # The words of a phrase in order

A comment above a node is a word like a lexeme, and it stands right before a lexeme
(`Derives.followed`).  So the words of a file stand in the order of the text, comments among them.
-/

namespace Graft

namespace Word

/-- Where a word begins. -/
def start : Word → Pos
  | lexeme l => l.pos
  | doc g => g.tree.start

/-- Where a word ends. -/
def stop : Word → Pos
  | lexeme l => l.stop
  | doc g => g.tree.stop

/-- Whether a word is a semicolon, for which a line end may stand. -/
def isSemicolon : Word → Bool
  | lexeme l => l.token == .semicolon
  | doc _ => false

/-- Whether a word stands before another. -/
def Before (v w : Word) : Prop := v.start ≤ w.start ∧ (v.isSemicolon = false → v.stop ≤ w.start)

/-- Whether no comment stands first among some words. -/
def Led (ws : List Word) : Prop := ∀ g, ws.head? ≠ some (.doc g)

/-- Whether a lexeme stands right behind every comment among some words. -/
def Followed : List Word → Prop
  | [] => True
  | .lexeme _ :: ws => Followed ws
  | .doc _ :: ws => (∃ l us, ws = .lexeme l :: us) ∧ Followed ws

variable {vs ws : List Word}

theorem Led.lexeme (l : Lexeme) (ws : List Word) : Led (.lexeme l :: ws) := nofun

theorem Led.append (hv : Led vs) (hw : vs = [] → Led ws) : Led (vs ++ ws) := by
  cases vs with
  | nil => exact hw rfl
  | cons v vs => exact hv

theorem Led.exists_lexeme (h : Led ws) (hne : lexemes ws ≠ []) : ∃ l us, ws = .lexeme l :: us := by
  match ws with
  | [] => exact absurd rfl hne
  | .lexeme l :: us => exact ⟨l, us, rfl⟩
  | .doc g :: us => exact absurd rfl (h g)

theorem Followed.append (hv : Followed vs) (hw : Followed ws) : Followed (vs ++ ws) := by
  induction vs with
  | nil => exact hw
  | cons v vs ih =>
    cases v with
    | lexeme l => exact ih hv
    | doc g =>
      obtain ⟨⟨l, us, rfl⟩, hv⟩ := hv
      exact ⟨⟨l, us ++ ws, rfl⟩, ih hv⟩

theorem Followed.exists_lexeme {g : CommentGroup} (h : Followed (vs ++ .doc g :: ws)) :
    ∃ l us, ws = .lexeme l :: us := by
  induction vs with
  | nil => exact h.1
  | cons v vs ih =>
    cases v with
    | lexeme l => exact ih h
    | doc g => exact ih h.2

end Word

/-! ### Where comments may stand -/

mutual

/-- Whether phrases of the sort begin with a lexeme, if they have words at all. -/
def Phrase.leads : Phrase → Bool
  | .doc | .structField | .interfaceField | .spec _ | .declaration | .stmt | .decl => false
  | .member s | .opt s | .orEmpty s | .one s | .ended s | .more s | .trailing s | .lines s =>
    s.leads
  | .parts ps => Part.lead ps
  | _ => true

/-- Whether parts begin with a lexeme, if they have words at all. -/
def Part.lead : List Part → Bool
  | [] | .word _ :: _ | .mark _ :: _ | .markIn _ :: _ => true
  | .sub s :: ps => s.leads && (s.isSolid || Part.lead ps)
  | _ :: ps => Part.lead ps

end

/-- Whether a sort of phrase is that of the comment above a node. -/
def Phrase.isDoc : Phrase → Bool
  | .doc => true
  | _ => false

mutual

/-- Whether a lexeme stands right behind every comment in phrases of the sort. -/
def Phrase.isProse : Phrase → Bool
  | .doc => false
  | .parts ps => Part.areProse ps
  | .members s | .member s | .opt s | .orEmpty s | .one s | .ended s | .more s | .trailing s
  | .lines s
  | .behind _ s => s.isProse
  | _ => true

/-- Whether a lexeme stands right behind every comment in some parts. -/
def Part.areProse : List Part → Bool
  | [] => true
  | .sub s :: ps =>
    (s.isProse || (s.isDoc && Part.lead ps && ps.any Part.isSolid)) && Part.areProse ps
  | _ :: ps => Part.areProse ps

end

theorem Row.leads {s : Phrase} {k : Kind} {ps : List Part} (h : Row s k ps) (hs : s.leads = true) :
    (Phrase.parts ps).leads = true := by
  cases h <;> first | rfl | cases hs

theorem Row.isProse {s : Phrase} {k : Kind} {ps : List Part} (h : Row s k ps)
    (hs : s.isProse = true) :
    (Phrase.parts ps).isProse = true := by
  cases h with
  | members s =>
    simp only [Phrase.isProse] at hs
    simp only [Phrase.isProse, Part.areProse, hs, Bool.true_or, Bool.and_self]
  | _ => rfl

theorem Covers.leads {s s' : Phrase} (h : Covers s s') (hs : s.leads = true) : s'.leads = true := by
  cases h <;> first | rfl | exact hs

theorem Covers.isProse {s s' : Phrase} (h : Covers s s') (hs : s.isProse = true) :
    s'.isProse = true := by
  cases h <;> first | rfl | exact hs

namespace Derives

variable {d : Dialect} {s : Phrase} {ws : List Word} {t : Tree}

theorem led_and_followed (h : Derives d s ws t) :
    (s.leads = true → Word.Led ws) ∧ (s.isProse = true → Word.Followed ws) := by
  induction h with
  | ident | literal | dots | period => exact ⟨fun _ => .lexeme _ _, fun _ => trivial⟩
  | noDoc | none | empty | endedNil | linesNil | partsNil => exact ⟨nofun, fun _ => trivial⟩
  | doc => exact ⟨nofun, nofun⟩
  | cover hc _ ih => exact ⟨fun hs => ih.1 (hc.leads hs), fun hs => ih.2 (hc.isProse hs)⟩
  | node hr _ ih => exact ⟨fun hs => ih.1 (hr.leads hs), fun hs => ih.2 (hr.isProse hs)⟩
  | behind _ _ ih => exact ⟨fun _ => .lexeme _ _, ih.2⟩
  | spread _ _ ih => exact ⟨fun _ => (ih.1 rfl).append nofun, fun _ => (ih.2 rfl).append trivial⟩
  | endedComma _ _ ih | linesSemicolon _ _ ih =>
    exact ⟨fun hs => (ih.1 hs).append fun _ => .lexeme _ _, fun hs => (ih.2 hs).append trivial⟩
  | one _ _ ih | firstName _ ih => exact ih
  | more _ _ _ ih₁ ih₂ | linesItem _ _ _ ih₁ ih₂ =>
    exact ⟨fun hs => (ih₁.1 hs).append fun _ => ih₂.1 hs, fun hs => (ih₁.2 hs).append (ih₂.2 hs)⟩
  | @nextName _ ws' l _ _ _ _ _ ih₁ ih₂ =>
    have hname : Word.Followed (.lexeme l :: ws') := ih₂.2 rfl
    exact ⟨fun _ => (ih₁.1 rfl).append fun _ => .lexeme _ _, fun _ => (ih₁.2 rfl).append hname⟩
  | word _ _ ih | mark _ _ ih | markIn _ _ ih | lineEnd _ _ ih =>
    exact ⟨fun _ => .lexeme _ _, ih.2⟩
  | noLineEnd _ ih | unmarked _ ih | const _ ih => exact ih
  | args _ _ _ ih₁ ih₂ | targets _ _ ih₁ ih₂ | params _ _ _ ih₁ ih₂ =>
    exact ⟨fun hs => (ih₁.1 rfl).append fun _ => ih₂.1 hs, fun hs => (ih₁.2 rfl).append (ih₂.2 hs)⟩
  | @sub s ps ws ws' t ts hs hp ih₁ ih₂ =>
    refine ⟨fun hlead => ?_, fun hprose => ?_⟩
    · change (s.leads && (s.isSolid || Part.lead ps)) = true at hlead
      rw [Bool.and_eq_true, Bool.or_eq_true] at hlead
      refine (ih₁.1 hlead.1).append fun hnil => ?_
      rcases hlead.2 with hsolid | hps
      · exact absurd (by rw [hnil]; rfl) (hs.lexemes_ne_nil hsolid)
      · exact ih₂.1 hps
    · change ((s.isProse || (s.isDoc && Part.lead ps && ps.any Part.isSolid)) && Part.areProse ps) =
        true
        at hprose
      simp only [Bool.and_eq_true, Bool.or_eq_true] at hprose
      obtain ⟨hs' | ⟨⟨hdoc, hlead⟩, hsolid⟩, hps⟩ := hprose
      · exact (ih₁.2 hs').append (ih₂.2 hps)
      · -- the comment above a node: the parts behind it begin with a lexeme
        have hlexeme := (ih₂.1 hlead).exists_lexeme (hp.solid.2 rfl hsolid)
        cases s with
        | doc =>
          rcases hs.doc_cases with ⟨rfl, -⟩ | ⟨g, rfl, -⟩
          · exact ih₂.2 hps
          · exact ⟨hlexeme, ih₂.2 hps⟩
        | _ => cases hdoc

/-- **A lexeme stands right behind every comment among the words of a phrase.** -/
theorem followed (h : Derives d s ws t) (hs : s.isProse = true) : Word.Followed ws :=
  h.led_and_followed.2 hs

end Derives

end Graft
