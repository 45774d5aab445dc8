import Graft.Patch.Pairing
import Graft.Proofs.Text.Lines
import Mathlib.Data.List.Basic

/-! # Places that stand for themselves

If the two sides of a patch are one and all its lines are context lines, every place of it stands
for itself (`Pairing.get?_ofPatch`): a place before the end of the text is at some column of some
line (`Side.posAt?_of_lineCol?`), and as the text has just one line for each line of the patch, that
line is a context line (`Side.IsContext.exists_lineCol?`).
-/

namespace Graft

/-! ### Lines -/

namespace LineTable

/-- The line of a place begins at it or before it, and the next line behind it. -/
theorem exists_of_lineCol? {t : LineTable} {offset line col : Nat}
    (h : t.lineCol? (.atOffset offset) = some (line, col)) :
    ∃ start, t.start? line = some start ∧ start + col = offset ∧
      ∀ next, t.start? (line + 1) = some next → offset < next := by
  unfold lineCol? at h
  rw [Pos.offset?_atOffset, Option.bind_eq_bind, Option.bind_some] at h
  obtain ⟨start, hstart, h⟩ := Option.bind_eq_some_iff.mp h
  obtain ⟨rfl, rfl⟩ := Prod.mk.inj (Option.some.inj h)
  have hsplit : t.starts.takeWhile (· ≤ offset) ++ t.starts.dropWhile (· ≤ offset) = t.starts :=
    List.takeWhile_append_dropWhile
  have hbefore : ∀ s ∈ t.starts.takeWhile (· ≤ offset), s ≤ offset := fun s hs => by
    simpa using List.all_eq_true.mp List.all_takeWhile s hs
  have hbehind := List.head?_dropWhile_not (decide <| · ≤ offset) t.starts
  generalize t.starts.takeWhile (· ≤ offset) = before at *
  generalize t.starts.dropWhile (· ≤ offset) = behind at *
  have hmem : start ∈ before := List.mem_of_getLast? hstart
  have hlength := List.length_pos_of_mem hmem
  refine ⟨start, ?_, ?_, fun next hnext => ?_⟩
  · rw [start?, ← hsplit, List.getElem?_append_left (by omega), ← List.getLast?_eq_getElem?]
    exact hstart
  · have hle := hbefore start hmem
    omega
  · rw [start?, ← hsplit, List.getElem?_append_right (by omega),
      show before.length - 1 + 1 - before.length = 0 by omega, ← List.head?_eq_getElem?] at hnext
    rw [hnext] at hbehind
    simpa using hbehind

/-- A place before the beginning of some line is on a line before that one. -/
theorem exists_lineCol? {starts : List Nat} {offset next : Nat} (hnext : next ∈ starts)
    (hoffset : offset < next) : ∃ line col, (⟨0 :: starts⟩ : LineTable).lineCol?
      (.atOffset offset) =
      some (line, col) ∧ line < starts.length := by
  have hlength : (starts.takeWhile (· ≤ offset)).length < starts.length := by
    refine Nat.lt_of_le_of_ne (List.takeWhile_sublist _).length_le fun hlength => ?_
    rw [← (List.takeWhile_sublist _).eq_of_length hlength] at hnext
    have hle := List.all_eq_true.mp List.all_takeWhile next hnext
    simp only [decide_eq_true_eq] at hle
    omega
  have hbefore : (0 :: starts).takeWhile (· ≤ offset) = 0 :: starts.takeWhile (· ≤ offset) := by
    simp
  unfold lineCol?
  rw [Pos.offset?_atOffset, Option.bind_eq_bind, Option.bind_some, hbefore]
  dsimp only
  rw [List.getLast?_cons, Option.bind_some]
  exact ⟨_, _, rfl, hlength⟩

end LineTable

namespace Side

variable {s : Side} {p : Pos}

/-- The line and the column of a place lead back to it. -/
theorem posAt?_of_lineCol? {offset line col : Nat}
    (hp : s.lines.lineCol? (.atOffset offset) = some (line, col))
    (hoffset : offset ≤ byteLength s.text) : s.posAt? line col = some (.atOffset offset) := by
  obtain ⟨start, hstart, rfl, hnext⟩ := LineTable.exists_of_lineCol? hp
  rw [posAt?, hstart, Option.bind_eq_bind, Option.bind_some]
  refine if_pos ?_
  cases hnext' : s.lines.start? (line + 1) with
  | none => exact Nat.lt_succ_of_le hoffset
  | some next => exact hnext next hnext'

end Side

/-! ### Texts of sides -/

namespace PatchLine

theorem rawLines_eq {cs raw : List Char} (h : raw ∈ rawLines cs) :
    ∃ front, '\n' ∉ front ∧ (raw = front ∨ raw = front ++ ['\n']) := by
  induction cs generalizing raw with
  | nil => cases h
  | cons c cs ih =>
    rw [rawLines] at h
    split at h
    · rename_i hc
      rcases List.mem_cons.mp h with rfl | h
      · exact ⟨[], List.not_mem_nil, .inr (by rw [hc]; rfl)⟩
      · exact ih h
    · rename_i hc
      have hcons {front : List Char} (hfront : '\n' ∉ front) : '\n' ∉ c :: front := by
        simp [Ne.symm hc, hfront]
      split at h
      · obtain rfl := List.mem_singleton.mp h
        exact ⟨[c], hcons List.not_mem_nil, .inl rfl⟩
      · rename_i l ls hls
        rcases List.mem_cons.mp h with rfl | h
        · obtain ⟨front, hfront, heq⟩ := ih (hls ▸ List.mem_cons_self)
          refine ⟨c :: front, hcons hfront, ?_⟩
          rcases heq with rfl | rfl
          · exact .inl rfl
          · exact .inr rfl
        · exact ih (hls ▸ List.mem_cons_of_mem _ h)

/-- A line holds no line feeds. -/
theorem not_mem_text {cs : List Char} {l : PatchLine} (h : l ∈ ofText cs) : '\n' ∉ l.text := by
  have hplace {offset : Nat} {raws : List (List Char)} (h : l ∈ place offset raws) :
      ∃ raw ∈ raws, l.text = withoutEnd raw := by
    induction raws generalizing offset with
    | nil => cases h
    | cons raw raws ih =>
      rcases List.mem_cons.mp h with rfl | h
      · exact ⟨raw, List.mem_cons_self, rfl⟩
      · obtain ⟨raw, hraw, heq⟩ := ih h
        exact ⟨raw, List.mem_cons_of_mem _ hraw, heq⟩
  obtain ⟨raw, hraw, heq⟩ := hplace h
  obtain ⟨front, hfront, hraw⟩ := rawLines_eq hraw
  rw [heq, withoutEnd, List.mem_reverse]
  intro hmem
  refine hfront ?_
  rcases hraw with rfl | rfl
  · exact List.mem_reverse.mp ((List.dropWhile_sublist _).subset hmem)
  · rw [List.reverse_append, List.reverse_singleton, List.singleton_append,
      List.dropWhile_cons_of_pos (by rfl)] at hmem
    exact List.mem_reverse.mp ((List.dropWhile_sublist _).subset hmem)

end PatchLine

/-- The lines of a body hold no line feeds if the lines of the file hold none. -/
theorem BodyLine.not_mem_content {hunk : Nat} {isOpen : Bool} {ls : List PatchLine}
    (h : ∀ l ∈ ls, '\n' ∉ l.text) : ∀ b ∈ ofLines hunk isOpen ls, '\n' ∉ b.content := by
  induction ls generalizing hunk isOpen with
  | nil => nofun
  | cons l ls ih =>
    obtain ⟨hl, hls⟩ := List.forall_mem_cons.mp h
    rw [ofLines]
    split
    · rename_i heq
      rw [heq] at hl
      exact List.forall_mem_cons.mpr ⟨fun hmem => hl (List.mem_cons_of_mem _ hmem), ih hls⟩
    · rename_i heq
      rw [heq] at hl
      exact List.forall_mem_cons.mpr ⟨fun hmem => hl (List.mem_cons_of_mem _ hmem), ih hls⟩
    · dsimp only
      refine List.forall_mem_cons.mpr ⟨?_, ih hls⟩
      split
      · rename_i heq
        rw [heq] at hl
        exact fun hmem => hl (List.mem_cons_of_mem _ hmem)
      · exact List.not_mem_nil
      · exact hl

/-- A side has a line for each line of the body, and ends with a line feed. -/
theorem startsBehindNewlines_sideText (isIn : BodyLine → Bool) {ls : List BodyLine}
    (h : ∀ l ∈ ls, '\n' ∉ l.content) (offset : Nat) :
    (LineTable.startsBehindNewlines offset (sideText isIn ls)).length = ls.length ∧
      (ls ≠ [] → offset + byteLength (sideText isIn ls) ∈
        LineTable.startsBehindNewlines offset (sideText isIn ls)) := by
  induction ls generalizing offset with
  | nil => exact ⟨rfl, fun hne => absurd rfl hne⟩
  | cons l ls ih =>
    obtain ⟨hl, hls⟩ := List.forall_mem_cons.mp h
    have hcontent : '\n' ∉ (if isIn l then l.content else []) := by
      split
      · exact hl
      · exact List.not_mem_nil
    have htext : sideText isIn (l :: ls) =
        (if isIn l then l.content else []) ++ '\n' :: sideText isIn ls := by
      simp [sideText]
    generalize (if isIn l then l.content else []) = content at hcontent htext
    obtain ⟨hlength, hlast⟩ := ih hls (offset + byteLength content + '\n'.utf8Size)
    rw [htext, LineTable.startsBehindNewlines_append,
      LineTable.startsBehindNewlines_of_not_mem hcontent, List.nil_append,
      LineTable.startsBehindNewlines, if_pos rfl]
    refine ⟨by rw [List.length_cons, hlength, List.length_cons], fun _ => ?_⟩
    rw [byteLength_append, byteLength_cons, ← Nat.add_assoc, ← Nat.add_assoc]
    cases ls with
    | nil => exact List.mem_cons_self
    | cons m ls => exact List.mem_cons_of_mem _ (hlast (List.cons_ne_nil _ _))

namespace Side

theorem exists_of_read {isIn : BodyLine → Bool} {ls : List BodyLine} {s : Side}
    (h : read isIn ls = .ok s) :
    ∃ fragment, parseFragment .pattern (sideText isIn ls) = .ok fragment ∧
      s = ⟨sideText isIn ls, .ofText (sideText isIn ls), fragment, ls.map (·.origin),
        ls.map (·.offset)⟩ := by
  unfold read at h
  dsimp only at h
  split at h
  · rename_i fragment hfragment
    exact ⟨fragment, hfragment, (Except.ok.inj h).symm⟩
  · cases h

/-- Whether a side was read of context lines. -/
structure IsContext (s : Side) : Prop where
  read : ∃ isIn ls, Side.read isIn ls = .ok s ∧ ∀ l ∈ ls, '\n' ∉ l.content
  origins : ∀ o ∈ s.origins, o = .context

/-- A place before the end of the text is on a context line, at some column of it. -/
theorem IsContext.exists_lineCol? {s : Side} (h : s.IsContext) {offset : Nat}
    (hoffset : offset < byteLength s.text) :
    ∃ line col, s.lines.lineCol? (.atOffset offset) = some (line, col) ∧
      s.posAt? line col = some (.atOffset offset) ∧
      s.origin? (.atOffset offset) = some .context := by
  obtain ⟨isIn, ls, hread, hls⟩ := h.read
  obtain ⟨fragment, -, rfl⟩ := exists_of_read hread
  dsimp only at hoffset
  obtain ⟨hlength, hlast⟩ := startsBehindNewlines_sideText isIn hls 0
  have hne : ls ≠ [] := by
    rintro rfl
    cases hoffset
  obtain ⟨line, col, hline, hlt⟩ := LineTable.exists_lineCol? (hlast hne)
    (show offset < 0 + byteLength (sideText isIn ls) by omega)
  refine ⟨line, col, hline, posAt?_of_lineCol? hline (Nat.le_of_lt hoffset), ?_⟩
  rw [hlength, ← List.length_map (f := BodyLine.origin)] at hlt
  have hcontext := h.origins _ (List.getElem_mem hlt)
  rw [origin?, LineTable.line?]
  dsimp only [LineTable.ofText]
  rw [hline, Option.map_some, Option.bind_some, List.getElem?_eq_getElem hlt, hcontext]

end Side

/-! ### Pairings -/

namespace Pairing

theorem mem_insertPair {pair x : Pos × Pos} {pairs : List (Pos × Pos)}
    (h : x ∈ insertPair pair pairs) :
    x = pair ∨ x ∈ pairs := by
  induction pairs with
  | nil => exact .inl (List.mem_singleton.mp h)
  | cons q qs ih =>
    rw [insertPair] at h
    split at h
    · exact List.mem_cons.mp h
    · split at h
      · rcases List.mem_cons.mp h with h | h
        · exact .inl h
        · exact .inr (List.mem_cons_of_mem _ h)
      · rcases List.mem_cons.mp h with rfl | h
        · exact .inr List.mem_cons_self
        · rcases ih h with h | h
          · exact .inl h
          · exact .inr (List.mem_cons_of_mem _ h)

/-- All places that have a pair keep one. -/
theorem exists_mem_insertPair {pair x : Pos × Pos} {pairs : List (Pos × Pos)}
    (h : x = pair ∨ x ∈ pairs) :
    ∃ y ∈ insertPair pair pairs, y.1 = x.1 := by
  induction pairs with
  | nil =>
    rcases h with rfl | h
    · exact ⟨x, List.mem_cons_self, rfl⟩
    · cases h
  | cons q qs ih =>
    rw [insertPair]
    split
    · exact ⟨x, List.mem_cons.mpr h, rfl⟩
    · split
      · rename_i heq
        rcases h with rfl | h
        · exact ⟨x, List.mem_cons_self, rfl⟩
        · rcases List.mem_cons.mp h with rfl | h
          · exact ⟨pair, List.mem_cons_self, heq⟩
          · exact ⟨x, List.mem_cons_of_mem _ h, rfl⟩
      · rcases h with rfl | h
        · obtain ⟨y, hy, heq⟩ := ih (.inl rfl)
          exact ⟨y, List.mem_cons_of_mem _ hy, heq⟩
        · rcases List.mem_cons.mp h with rfl | h
          · exact ⟨x, List.mem_cons_self, rfl⟩
          · obtain ⟨y, hy, heq⟩ := ih (.inr h)
            exact ⟨y, List.mem_cons_of_mem _ hy, heq⟩

/-- Pairs of places with themselves, added to such pairs, leave only such pairs, and one for each
place. -/
theorem foldl_insertPair (ps : List Pos) {pairs : List (Pos × Pos)}
    (hpairs : ∀ x ∈ pairs, x.2 = x.1) :
    let all := (ps.map fun p => (p, p)).foldl (fun pairs pair => insertPair pair pairs) pairs
    (∀ x ∈ all, x.2 = x.1) ∧ ∀ p, (p ∈ ps ∨ ∃ x ∈ pairs, x.1 = p) → ∃ x ∈ all, x.1 = p := by
  induction ps generalizing pairs with
  | nil => exact ⟨hpairs, fun p hp => hp.resolve_left List.not_mem_nil⟩
  | cons q ps ih =>
    have hnext : ∀ x ∈ insertPair (q, q) pairs, x.2 = x.1 := fun x hx => by
      rcases mem_insertPair hx with rfl | hx
      · rfl
      · exact hpairs x hx
    obtain ⟨hsame, hfound⟩ := ih hnext
    refine ⟨hsame, fun p hp => hfound p ?_⟩
    rcases hp with hp | ⟨x, hx, rfl⟩
    · rcases List.mem_cons.mp hp with rfl | hp
      · exact .inr (exists_mem_insertPair (x := (p, p)) (.inl rfl))
      · exact .inl hp
    · exact .inr (exists_mem_insertPair (.inr hx))

theorem get?_of_forall {a : Pairing} (h : ∀ x ∈ a.pairs, x.2 = x.1) {p : Pos}
    (hp : ∃ x ∈ a.pairs, x.1 = p) :
    a.get? p = some p := by
  obtain ⟨x, hx, heq⟩ := hp
  rw [get?]
  cases hfind : a.pairs.find? (·.1 == p) with
  | none => exact absurd (beq_iff_eq.mpr heq) (List.find?_eq_none.mp hfind x hx)
  | some y =>
    have hy : y.1 = p := by simpa using List.find?_some hfind
    rw [Option.map_some, h y (List.mem_of_find?_eq_some hfind), hy]

/-- There are no pairs of changed lines where no line is changed. -/
theorem ofSide_eq_nil {s : Side} (h : ∀ o ∈ s.origins, o = .context) {hunkOf : Origin → Option Nat}
    (hcontext : hunkOf .context = none) : Ranked.ofSide s hunkOf = [] := by
  refine List.filterMap_eq_nil_iff.mpr fun ⟨p, kind⟩ _ => ?_
  dsimp only
  cases horigin : s.origin? p with
  | none => rfl
  | some o =>
    obtain ⟨line, -, hline⟩ := Option.bind_eq_some_iff.mp horigin
    rw [h o (List.mem_of_getElem? hline), Option.bind_some, hcontext]
    rfl

/-- **Every place of a patch of context lines stands for itself.** -/
theorem get?_ofPatch {p : Patch} (hsides : p.minus = p.plus)
    (hcontext : p.minus.IsContext) {q : Pos} (hq : q ∈ p.minus.fragment.positions)
    (hplaces : ∀ q ∈ p.minus.fragment.positions, ∃ offset, q = .atOffset offset ∧
      offset < byteLength p.minus.text) : (ofPatch p).get? q = some q := by
  have hpairs : contextPairs p.minus p.plus = p.minus.fragment.positions.map fun q => (q, q) := by
    rw [contextPairs, ← hsides, ← List.filterMap_eq_map]
    refine List.filterMap_congr fun q hq => ?_
    obtain ⟨offset, rfl, hoffset⟩ := hplaces q hq
    obtain ⟨line, col, hline, hpos, horigin⟩ := hcontext.exists_lineCol? hoffset
    rw [horigin, hline, if_pos (beq_self_eq_true _), Option.bind_some]
    dsimp only
    rw [hpos, Option.bind_some, if_pos (by simpa using hq)]
    rfl
  have hchanged : changedPairs p.minus p.plus = [] := by
    rw [changedPairs, ← hsides, ofSide_eq_nil hcontext.origins rfl]
    rfl
  have hnone : ∀ x ∈ ([] : List (Pos × Pos)), x.2 = x.1 := nofun
  obtain ⟨hsame, hfound⟩ := foldl_insertPair p.minus.fragment.positions hnone
  rw [ofPatch, hpairs, hchanged, List.append_nil]
  exact get?_of_forall hsame (hfound q (.inl hq))

end Pairing

end Graft
