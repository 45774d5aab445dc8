import Graft.Proofs.Grammar.Derivation
import Graft.Proofs.Result

/-! # The rows of the grammar fit the schema

A row lists the parts of a node in order, and the schema lists its fields in order.  `Part.fits`
says that the two agree: a token that a part records is the token that the field names, and the
parts without words are ones the fields may do without.  That this is so of every row (`Row.fits`)
is checked row by row, and everything about the fields of a node that was read follows from it by
induction on its parts.
-/

namespace Graft

/-- Whether a sort of phrase is made of sorts of trees: stretches of fields are none. -/
def Phrase.isProper : Phrase → Bool
  | .parts _ => false
  | .members s | .member s | .opt s | .orEmpty s | .one s | .ended s | .more s | .trailing s
  | .lines s
  | .behind _ s => s.isProper
  | _ => true

/-- Whether the spelling of a token is fixed. -/
def Token.isFixed (t : Token) : Bool := !t.carriesText && t != .illegal

theorem Token.isFixed_iff {t : Token} :
    t.isFixed = true ↔ t.carriesText = false ∧ t ≠ .illegal := by
  simp [isFixed]

/-- Whether a field records the given token. -/
def Slot.records : Slot → Token → Bool
  | .pos (.token s), t | .pos (.optional s), t => s == t.text && t.isFixed
  | .pos .bracket, t => [Token.lparen, .rparen, .lbrace, .rbrace].contains t
  | _, _ => false

/-- A field that records a token is a position, and the spelling of the token is fixed. -/
theorem Slot.exists_of_records {s : Slot} {t : Token} (h : s.records t = true) :
    ∃ w, s = .pos w ∧ t.carriesText = false := by
  unfold Slot.records at h
  split at h
  · rw [Bool.and_eq_true, Token.isFixed_iff] at h
    exact ⟨_, rfl, h.2.1⟩
  · rw [Bool.and_eq_true, Token.isFixed_iff] at h
    exact ⟨_, rfl, h.2.1⟩
  · have hall : ∀ t ∈ [Token.lparen, .rparen, .lbrace, .rbrace], t.carriesText = false := by decide
    exact ⟨_, rfl, hall t (by simpa using h)⟩
  · cases h

/-- Whether a field may hold the given value, for which no word stands. -/
def Slot.allows : Slot → Tree → Bool
  | .pos (.optional _), .pos p | .pos .bracket, .pos p => p == .none
  | _, .nil | _, .list [] => true
  | _, _ => false

/-- Whether parts are what the given fields ask for, the first of which has number `i`. -/
def Part.fits (i : Nat) : List Part → List Field → Bool
  | [], _ => true
  | .word _ :: ps, fs | .lineEnd :: ps, fs => fits i ps fs
  | .mark t :: ps, f :: fs => f.slot.records t && fits (i + 1) ps fs
  | .markIn ts :: ps, f :: _ :: fs =>
    f.slot == .pos (.ofField (i + 1)) && ts.all Token.isFixed && fits (i + 2) ps fs
  | .unmarked :: ps, f :: _ :: fs => f.slot == .pos (.ofField (i + 1)) && fits (i + 2) ps fs
  | .sub s :: ps, _ :: fs => s.isProper && fits (i + 1) ps fs
  | .const t :: ps, f :: fs => f.slot.allows t && fits (i + 1) ps fs
  | .args :: ps, _ :: f :: fs => f.slot == .pos (.optional "...") && fits (i + 2) ps fs
  | .targets :: ps, _ :: _ :: fs => fits (i + 2) ps fs
  | .params :: ps, _ :: fs => fits (i + 1) ps fs
  | _, _ => false

theorem Token.isFixed_of_precedence {t : Token} (h : 0 < t.precedence) : t.isFixed = true := by
  cases t <;> first | rfl | cases h

theorem Token.isFixed_of_mem_declarers {t : Token} (h : t ∈ Token.declarers) :
    t.isFixed = true := by
  have hall : ∀ t ∈ Token.declarers, t.isFixed = true := by decide
  exact hall t h

/-- **Every row of the grammar fits the schema.** -/
theorem Row.fits {s : Phrase} {k : Kind} {ps : List Part} (h : Row s k ps)
    (hs : s.isProper = true) : Part.fits 0 ps k.fields = true := by
  cases h with
  | binary hn hop =>
    simp only [Part.fits, Kind.fields, Kind.spelled, List.all_cons, List.all_nil,
      Token.isFixed_of_precedence hop, Phrase.isProper]
    rfl
  | group hkw | single hkw =>
    simp only [Part.fits, Kind.fields, Kind.spelled, List.all_cons, List.all_nil,
      Token.isFixed_of_mem_declarers hkw, Phrase.isProper]
    rfl
  | members s =>
    simp only [Phrase.isProper] at hs
    simp only [Part.fits, Kind.fields, Phrase.isProper, hs]
    rfl
  | _ => rfl

theorem Covers.isProper {s s' : Phrase} (h : Covers s s') (hs : s.isProper = true) :
    s'.isProper = true := by
  cases h <;> first | rfl | exact hs

theorem Covers.isNode {s s' : Phrase} (h : Covers s s') (hs : s.isNode = true) :
    s'.isNode = true := by
  cases h <;> first | rfl | exact hs | cases hs

/-! ### Ends

Some tokens are not recorded: commas and semicolons, for example, and the dots behind an argument.
A phrase is *closed* if its last token is recorded nevertheless, and *solid* if it has a token at
all.
-/

/-- Whether there is a token in every phrase of the sort. -/
def Phrase.isSolid : Phrase → Bool
  | .doc | .opt _ | .orEmpty _ | .ended _ | .trailing _ | .lines _ | .parts _ => false
  | .member s | .one s | .more s => s.isSolid
  | _ => true

/-- Whether the tree of every phrase of the sort records its last token. -/
def Phrase.isClosed : Phrase → Bool
  | .clause | .ended _ | .trailing _ | .lines _ | .arg | .parts _ => false
  | .member s | .opt s | .orEmpty s | .one s => s.isClosed
  | .more s | .behind _ s => s.isClosed && s.isSolid
  | _ => true

namespace Part

/-- Whether a part always has a token. -/
def isSolid : Part → Bool
  | .word _ | .mark _ | .markIn _ => true
  | .sub s => s.isSolid
  | _ => false

/-- Whether a part records its last token. -/
def isClosed : Part → Bool
  | .mark _ | .markIn _ | .unmarked | .const _ => true
  | .sub s => s.isClosed
  | _ => false

/-- Whether the last token of some parts is recorded. -/
def closes : List Part → Bool
  | [] => true
  | p :: ps => closes ps && (ps.any isSolid || p.isClosed)

theorem closes_cons (p : Part) (ps : List Part) :
    closes (p :: ps) = (closes ps && (ps.any isSolid || p.isClosed)) := rfl

end Part

theorem Row.isSolid {s : Phrase} {k : Kind} {ps : List Part} (h : Row s k ps) :
    ps.any Part.isSolid = true := by
  cases h <;> rfl

theorem Row.closes {s : Phrase} {k : Kind} {ps : List Part} (h : Row s k ps)
    (hs : s.isClosed = true) : Part.closes ps = true := by
  cases h with
  | case | default => cases hs
  | _ => rfl

theorem Covers.isSolid {s s' : Phrase} (h : Covers s s') (hs : s.isSolid = true) :
    s'.isSolid = true := by
  cases h <;> first | rfl | exact hs | cases hs

theorem Covers.isClosed {s s' : Phrase} (h : Covers s s') (hs : s.isClosed = true) :
    s'.isClosed = true := by
  cases h <;> first | rfl | exact hs | cases hs

/-! ### Parameter lists -/

namespace Rules

variable {P Q : Tree → Prop} {es : List ParamEntry} {fs : List Tree}

theorem forall_namedFields {pending : List Tree} (hident : ∀ t, Q t → t.isKind .ident = true → P t)
    (h : namedFields pending es = .ok fs) (hp : ∀ x ∈ pending, P x)
    (hes : ∀ e ∈ es, (∀ x ∈ e.name.toList, P x) ∧ Q e.type) :
    ∀ t ∈ fs, ∃ names type, t = plainField names type ∧ (∀ x ∈ names, P x) ∧ Q type := by
  fun_induction namedFields pending es generalizing fs with
  | case1 =>
    cases h
    nofun
  | case2 => cases h
  | case3 pending name type es ih =>
    obtain ⟨gs, hgs, h⟩ := exists_of_bind_ok h
    cases h
    obtain ⟨⟨hname, htype⟩, hes⟩ := List.forall_mem_cons.mp hes
    refine List.forall_mem_cons.mpr ⟨⟨_, _, rfl, ?_, htype⟩, ih hgs nofun hes⟩
    exact List.forall_mem_append.mpr ⟨hp, hname⟩
  | case4 pending type es _ ih =>
    obtain ⟨gs, hgs, h⟩ := exists_of_bind_ok h
    cases h
    obtain ⟨⟨-, htype⟩, hes⟩ := List.forall_mem_cons.mp hes
    exact List.forall_mem_cons.mpr ⟨⟨_, _, rfl, nofun, htype⟩, ih hgs hp hes⟩
  | case5 pending type es _ hkind ih =>
    -- an entry of one part is a name that waits for the type of a later entry
    obtain ⟨⟨-, htype⟩, hes⟩ := List.forall_mem_cons.mp hes
    refine ih h (List.forall_mem_append.mpr ⟨hp, ?_⟩) hes
    exact List.forall_mem_singleton.mpr (hident _ htype hkind)
  | case6 => cases h

/-- The fields of a parameter list are put together from its entries: what is true of the names and
types of these is true of the names and types of the fields. -/
theorem forall_fieldsOfEntries (hident : ∀ t, Q t → t.isKind .ident = true → P t)
    (h : fieldsOfEntries es = .ok fs) (hes : ∀ e ∈ es, (∀ x ∈ e.name.toList, P x) ∧ Q e.type) :
    ∀ t ∈ fs, ∃ names type, t = plainField names type ∧ (∀ x ∈ names, P x) ∧ Q type := by
  unfold fieldsOfEntries at h
  split at h
  · exact forall_namedFields hident h nofun hes
  · cases h
    intro t ht
    obtain ⟨e, he, rfl⟩ := List.mem_map.mp ht
    exact ⟨[], e.type, rfl, nofun, (hes e he).2⟩

end Rules

end Graft
