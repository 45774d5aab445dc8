import Graft.Proofs.Recipe.Compiled

/-! # Sides map back to their patch

The text of a side has one line for each line of the body it was read of, blank where the line
belongs to the other side or is a remark.  So a line number means the same line of the body on both
sides, and what a line holds is part of that line of the patch file, behind its marker.

Lines and columns and positions are translated into one another without loss up to the end of a side
(`LineTable.lineCol?_eq_some_iff`, `Side.lineCol?_of_posAt?`), and a byte of a side that ends no
line is the byte of the patch file to which its position is translated (`Side.byte_of_line`).  The
lines of the two sides are those of the body, and hunks are what stands between two context lines
(`Patch.ReadOf.linesUp`).  Together: `PatchFile.read_places`.
-/

namespace Graft

/-! ### Bytes -/

/-- The bytes of a text. -/
def utf8 (cs : List Char) : List UInt8 := cs.flatMap String.utf8EncodeChar

theorem utf8_append (a b : List Char) : utf8 (a ++ b) = utf8 a ++ utf8 b := List.flatMap_append

@[simp] theorem length_utf8 (cs : List Char) : (utf8 cs).length = byteLength cs := by
  induction cs with
  | nil => rfl
  | cons c cs ih =>
    rw [utf8, List.flatMap_cons, List.length_append, String.length_utf8EncodeChar,
      byteLength_cons, ← ih, utf8]

/-- The byte that ends a line. -/
def lineFeed : UInt8 := 10

/-- A byte inside a stretch of a text is a byte of the text. -/
theorem getElem?_utf8_stretch {a w b : List Char} {i : Nat} {byte : UInt8}
    (h : (utf8 w)[i]? = some byte) :
    (utf8 (a ++ (w ++ b)))[byteLength a + i]? = some byte := by
  have hi : i < (utf8 w).length := (List.getElem?_eq_some_iff.mp h).1
  rw [utf8_append, List.getElem?_append_right (by simp), length_utf8,
    Nat.add_sub_cancel_left, utf8_append, List.getElem?_append_left hi, h]

/-! ### Lines of a text -/

/-- Some lines as a text, each with a line feed behind it. -/
def unlines (ls : List (List Char)) : List Char := ls.flatMap fun l => l ++ ['\n']

theorem unlines_cons (l : List Char) (ls : List (List Char)) :
    unlines (l :: ls) = l ++ '\n' :: unlines ls := by
  rw [unlines, List.flatMap_cons, List.append_assoc]
  rfl

theorem byteLength_unlines_cons (l : List Char) (ls : List (List Char)) :
    byteLength (unlines (l :: ls)) = byteLength l + 1 + byteLength (unlines ls) := by
  rw [unlines_cons, byteLength_append, byteLength_cons, Nat.add_assoc]
  rfl

theorem unlines_append (ls ls' : List (List Char)) :
    unlines (ls ++ ls') = unlines ls ++ unlines ls' :=
  List.flatMap_append

/-- A text of lines is cut at each of them. -/
theorem unlines_eq {ls : List (List Char)} {i : Nat} {l : List Char} (h : ls[i]? = some l) :
    unlines ls = unlines (ls.take i) ++ (l ++ '\n' :: unlines (ls.drop (i + 1))) := by
  obtain ⟨hi, hl⟩ := List.getElem?_eq_some_iff.mp h
  rw [← unlines_cons, ← unlines_append, ← hl, ← List.drop_eq_getElem_cons hi, List.take_append_drop]

namespace LineTable

/-- Behind each line a further one begins. -/
theorem startsBehindNewlines_unlines {ls : List (List Char)} (h : ∀ l ∈ ls, '\n' ∉ l)
    (offset i : Nat) :
    (startsBehindNewlines offset (unlines ls))[i]? =
      if i < ls.length then some (offset + byteLength (unlines (ls.take (i + 1)))) else none := by
  induction ls generalizing offset i with
  | nil => simp [unlines, startsBehindNewlines]
  | cons l ls ih =>
    obtain ⟨hl, hls⟩ := List.forall_mem_cons.mp h
    rw [unlines_cons, startsBehindNewlines_append, startsBehindNewlines_of_not_mem hl,
      List.nil_append, startsBehindNewlines, if_pos rfl]
    cases i with
    | zero =>
      rw [List.getElem?_cons_zero, if_pos (List.length_pos_of_mem List.mem_cons_self),
        List.take_succ_cons, List.take_zero, unlines_cons, byteLength_append, byteLength_cons,
        Nat.add_assoc]
      rfl
    | succ i =>
      rw [List.getElem?_cons_succ, ih hls, List.length_cons, List.take_succ_cons, unlines_cons,
        byteLength_append, byteLength_cons]
      simp only [Nat.add_lt_add_iff_right, Nat.add_assoc]

/-- A line begins behind the lines before it. -/
theorem start?_unlines {ls : List (List Char)} (h : ∀ l ∈ ls, '\n' ∉ l) (i : Nat) :
    (ofText (unlines ls)).start? i = if i ≤ ls.length then some (byteLength (unlines (ls.take i)))
      else none := by
  cases i with
  | zero => rfl
  | succ i =>
    rw [start?, ofText, List.getElem?_cons_succ, startsBehindNewlines_unlines h, Nat.zero_add]
    rfl

/-- **A position is on the last line that begins at or before it**, at the distance from there. -/
theorem lineCol?_eq_some_iff {cs : List Char} {offset line col : Nat} :
    (ofText cs).lineCol? (.atOffset offset) = some (line, col) ↔
      ∃ start, (ofText cs).start? line = some start ∧ start + col = offset ∧
        ∀ next, (ofText cs).start? (line + 1) = some next → offset < next := by
  refine ⟨exists_of_lineCol?, ?_⟩
  rintro ⟨start, hstart, rfl, hnext⟩
  have hsorted : (ofText cs).starts.Pairwise (· < ·) := pairwise_startsBehindNewlines 0 cs
  unfold start? at hstart hnext
  unfold lineCol?
  generalize (ofText cs).starts = starts at *
  obtain ⟨hline, hget⟩ := List.getElem?_eq_some_iff.mp hstart
  have hcut : starts = starts.take (line + 1) ++ starts.drop (line + 1) :=
    (List.take_append_drop _ _).symm
  have hlast : (starts.take (line + 1)).getLast? = some start := by
    rw [List.take_succ_eq_append_getElem hline, List.getLast?_append, List.getLast?_singleton, hget]
    rfl
  have hbefore : ∀ s ∈ starts.take (line + 1), decide (s ≤ start + col) = true := fun s hs => by
    rw [List.take_succ_eq_append_getElem hline, hget] at hs
    rcases List.mem_append.mp hs with hs | hs
    · obtain ⟨i, hi, rfl⟩ := List.mem_take_iff_getElem.mp hs
      have hlt := List.pairwise_iff_getElem.mp hsorted i line (by omega) hline (by omega)
      simp only [decide_eq_true_eq]
      omega
    · simp [List.mem_singleton.mp hs]
  have hbehind : (starts.drop (line + 1)).takeWhile (· ≤ start + col) = [] := by
    cases hdrop : starts.drop (line + 1) with
    | nil => rfl
    | cons next rest =>
      have hlt := hnext next (by rw [← List.head?_drop, hdrop]; rfl)
      exact List.takeWhile_cons_of_neg (by simpa using hlt)
  have htake : starts.takeWhile (· ≤ start + col) = starts.take (line + 1) := by
    conv_lhs => rw [hcut, List.takeWhile_append_of_pos hbefore, hbehind, List.append_nil]
  rw [Pos.offset?_atOffset, Option.bind_eq_bind, Option.bind_some]
  dsimp only
  rw [htake, hlast, List.length_take, Nat.min_eq_left hline]
  simp

end LineTable

/-! ### Lines of a patch file -/

namespace PatchLine

theorem flatten_rawLines (cs : List Char) : (rawLines cs).flatten = cs := by
  fun_induction rawLines cs with
  | case1 => rfl
  | case2 cs ih => rw [List.flatten_cons, ih, List.singleton_append]
  | case3 c cs _ hnil ih => rw [← ih, hnil]; rfl
  | case4 c cs _ l ls hcons ih => rw [← ih, hcons]; rfl

/-- A line of a patch file stands in the file where it says. -/
theorem exists_stretch {text : List Char} {l : PatchLine} (h : l ∈ ofText text) :
    ∃ front back, text = front ++ (l.text ++ back) ∧ byteLength front = l.offset := by
  have hplace {offset : Nat} {raws : List (List Char)} (h : l ∈ place offset raws) :
      ∃ front back, raws.flatten = front ++ (l.text ++ back) ∧
      offset + byteLength front = l.offset := by
    induction raws generalizing offset with
    | nil => cases h
    | cons raw raws ih =>
      rw [List.flatten_cons]
      rcases List.mem_cons.mp h with rfl | h
      · obtain ⟨ends, hends⟩ := List.dropWhile_suffix (fun c => c == '\n' || c == '\r')
          (l := raw.reverse)
        have hraw : raw = withoutEnd raw ++ ends.reverse := by
          rw [withoutEnd, ← List.reverse_append, hends, List.reverse_reverse]
        exact ⟨[], ends.reverse ++ raws.flatten, by
          rw [List.nil_append, ← List.append_assoc, ← hraw], rfl⟩
      · obtain ⟨front, back, heq, hlength⟩ := ih h
        exact ⟨raw ++ front, back, by rw [heq, List.append_assoc], by
          rw [← hlength, byteLength_append]; omega⟩
  obtain ⟨front, back, heq, hlength⟩ := hplace h
  exact ⟨front, back, by rw [← heq, flatten_rawLines], by omega⟩

theorem byteLength_withoutEnd_cons_le (c : Char) (raw : List Char) :
    byteLength (withoutEnd (c :: raw)) ≤ c.utf8Size + byteLength (withoutEnd raw) := by
  rw [withoutEnd, withoutEnd, List.reverse_cons, List.dropWhile_append]
  split
  · rw [List.dropWhile_cons]
    split <;> simp
  · rw [List.reverse_append, byteLength_append]
    simp

/-- The lines of a text are no longer than the text, but for the end of the last one. -/
theorem byteLength_unlines_ofText (cs : List Char) :
    byteLength (unlines ((ofText cs).map (·.text))) ≤ byteLength cs + 1 := by
  have hplace (offset : Nat) (raws : List (List Char)) :
      (place offset raws).map (·.text) = raws.map withoutEnd := by
    induction raws generalizing offset with
    | nil => rfl
    | cons raw raws ih => rw [place, List.map_cons, ih, List.map_cons]
  rw [ofText, hplace]
  fun_induction rawLines cs with
  | case1 => exact Nat.zero_le _
  | case2 cs ih =>
    have hfeed : byteLength (withoutEnd ['\n']) = 0 := rfl
    have hwidth : '\n'.utf8Size = 1 := rfl
    rw [List.map_cons, byteLength_unlines_cons, hfeed, byteLength_cons]
    omega
  | case3 c cs _ hnil ih =>
    have hc : byteLength (withoutEnd [c]) ≤ c.utf8Size := byteLength_withoutEnd_cons_le c []
    have hnone : byteLength (unlines []) = 0 := rfl
    rw [List.map_singleton, byteLength_unlines_cons, byteLength_cons, hnone]
    omega
  | case4 c cs _ l ls hcons ih =>
    have hc := byteLength_withoutEnd_cons_le c l
    rw [hcons, List.map_cons, byteLength_unlines_cons] at ih
    rw [List.map_cons, byteLength_unlines_cons, byteLength_cons]
    omega

end PatchLine

/-! ### Lines of a body -/

namespace BodyLine

/-- What a line of a body has of the line of the patch file it was read of. -/
structure ReadOf (b : BodyLine) (l : PatchLine) : Prop where
  /-- What the line holds ends that line, behind its marker, unless the line is blank. -/
  content : b.content = [] ∨ ∃ marker, l.text = marker ++ b.content ∧
    b.offset = l.offset + byteLength marker
  removed : (∃ hunk, b.origin = .removed hunk) ↔ l.text.head? = some '-'
  added : (∃ hunk, b.origin = .added hunk) ↔ l.text.head? = some '+'
  /-- A context line that is no remark holds all of that line but a blank in front. -/
  plain : b.origin = .context → l.text.head? ≠ some '#' → l.text = b.content ∨
    l.text = ' ' :: b.content

theorem forall₂_ofLines (hunk : Nat) (isOpen : Bool) (ls : List PatchLine) :
    List.Forall₂ ReadOf (ofLines hunk isOpen ls) ls := by
  induction ls generalizing hunk isOpen with
  | nil => exact .nil
  | cons l ls ih =>
    obtain ⟨offset, text⟩ := l
    rw [ofLines]
    split
    · rename_i cs heq
      obtain rfl : text = '-' :: cs := heq
      exact .cons ⟨.inr ⟨['-'], rfl, rfl⟩, by simp, by simp, by simp⟩ (ih ..)
    · rename_i cs heq
      obtain rfl : text = '+' :: cs := heq
      exact .cons ⟨.inr ⟨['+'], rfl, rfl⟩, by simp, by simp, by simp⟩ (ih ..)
    · rename_i hminus hplus
      dsimp only at hminus hplus ⊢
      have hremoved : text.head? ≠ some '-' := fun h => by
        obtain ⟨cs, rfl⟩ := List.head?_eq_some_iff.mp h
        exact hminus cs rfl
      have hadded : text.head? ≠ some '+' := fun h => by
        obtain ⟨cs, rfl⟩ := List.head?_eq_some_iff.mp h
        exact hplus cs rfl
      have hnotRemoved : ¬∃ i, Origin.context = .removed i := by simp
      have hnotAdded : ¬∃ i, Origin.context = .added i := by simp
      refine .cons ?_ (ih ..)
      split
      · exact ⟨.inr ⟨[' '], rfl, rfl⟩, iff_of_false hnotRemoved hremoved,
          iff_of_false hnotAdded hadded, fun _ _ => .inr rfl⟩
      · exact ⟨.inl rfl, iff_of_false hnotRemoved hremoved, iff_of_false hnotAdded hadded,
          fun _ h => absurd rfl h⟩
      · exact ⟨.inr ⟨[], rfl, rfl⟩, iff_of_false hnotRemoved hremoved,
          iff_of_false hnotAdded hadded, fun _ _ => .inl rfl⟩

theorem readOf_of_getElem? {bs : List BodyLine} {body : List PatchLine}
    (h : List.Forall₂ ReadOf bs body) {i : Nat} {b : BodyLine} {l : PatchLine}
    (hb : bs[i]? = some b) (hl : body[i]? = some l) : b.ReadOf l := by
  obtain ⟨hi, rfl⟩ := List.getElem?_eq_some_iff.mp hb
  obtain ⟨hi', rfl⟩ := List.getElem?_eq_some_iff.mp hl
  exact (List.forall₂_iff_get.mp h).2 i hi hi'

end BodyLine

/-! ### Hunks -/

/-- The hunk of a changed line. -/
def Origin.hunk? : Origin → Option Nat
  | context => none
  | removed hunk | added hunk => some hunk

/-- How the changed lines of a body are numbered: `hunk` is the number of the current hunk, and
`isOpen` tells whether it has lines yet. -/
inductive Origin.Numbered : (hunk : Nat) → (isOpen : Bool) → List Origin → Prop where
  | nil {hunk : Nat} {isOpen : Bool} : Numbered hunk isOpen []
  | changed {hunk : Nat} {isOpen : Bool} {o : Origin} {os : List Origin} (ho : o.hunk? = some hunk)
      (hos : Numbered hunk true os) : Numbered hunk isOpen (o :: os)
  | context {hunk : Nat} {isOpen : Bool} {os : List Origin}
      (hos : Numbered (if isOpen then hunk + 1 else hunk) false os) : Numbered hunk isOpen
      (context :: os)

theorem BodyLine.numbered_ofLines (hunk : Nat) (isOpen : Bool) (ls : List PatchLine) :
    Origin.Numbered hunk isOpen ((ofLines hunk isOpen ls).map (·.origin)) := by
  induction ls generalizing hunk isOpen with
  | nil => exact .nil
  | cons l ls ih =>
    rw [ofLines]
    split
    · exact .changed rfl (ih hunk true)
    · exact .changed rfl (ih hunk true)
    · exact .context (ih _ false)

namespace Origin.Numbered

variable {hunk : Nat} {isOpen : Bool} {os : List Origin} {o o' : Origin} {k k' i j : Nat}

theorem le (h : Numbered hunk isOpen os) (ho : o ∈ os) (hk : o.hunk? = some k) : hunk ≤ k := by
  induction h with
  | nil => cases ho
  | changed ho' _ ih =>
    rcases List.mem_cons.mp ho with rfl | ho
    · exact Nat.le_of_eq (Option.some.inj (ho'.symm.trans hk))
    · exact ih ho
  | context _ ih =>
    rcases List.mem_cons.mp ho with rfl | ho
    · cases hk
    · have hle := ih ho
      split at hle <;> omega

/-- In an open hunk, the lines before the next context line belong to it, and no line behind that
one does. -/
theorem eq_iff (h : Numbered hunk true os) (ho : os[j]? = some o) (hk : o.hunk? = some k) :
    hunk = k ↔ ∀ m < j, os[m]? ≠ some .context := by
  generalize hopen : true = isOpen at h
  induction h generalizing j with
  | nil => cases ho
  | changed ho' _ ih =>
    cases j with
    | zero =>
      cases ho
      exact iff_of_true (Option.some.inj (ho'.symm.trans hk)) nofun
    | succ j =>
      rw [ih ho rfl]
      refine ⟨fun hnone m hm => ?_, fun hnone m hm => hnone (m + 1) (Nat.succ_lt_succ hm)⟩
      cases m with
      | zero =>
        rintro ⟨⟩
        cases ho'
      | succ m => exact hnone m (Nat.lt_of_succ_lt_succ hm)
  | context hos _ =>
    cases j with
    | zero =>
      cases ho
      cases hk
    | succ j =>
      have hle := hos.le (List.mem_of_getElem? ho) hk
      rw [← hopen, if_pos rfl] at hle
      exact iff_of_false (by omega) fun hnone => hnone 0 (Nat.succ_pos j) rfl

/-- What stands between two places behind the front stands between them. -/
theorem between_cons : (∀ m, i + 1 < m → m < j + 1 → (o :: os)[m]? ≠ some .context) ↔
    ∀ m, i < m → m < j → os[m]? ≠ some .context := by
  refine ⟨fun h m him hmj => h (m + 1) (by omega) (by omega), fun h m him hmj => ?_⟩
  obtain ⟨m, rfl⟩ : ∃ n, m = n + 1 := ⟨m - 1, by omega⟩
  exact h m (by omega) (by omega)

/-- **Two changed lines belong to one hunk if and only if no context line stands between them.** -/
theorem hunk_eq_iff (h : Numbered hunk isOpen os) (hij : i < j) (ho : os[i]? = some o)
    (hk : o.hunk? = some k) (ho' : os[j]? = some o') (hk' : o'.hunk? = some k') :
    k = k' ↔ ∀ m, i < m → m < j → os[m]? ≠ some .context := by
  obtain ⟨j, rfl⟩ : ∃ n, j = n + 1 := ⟨j - 1, by omega⟩
  induction h generalizing i j with
  | nil => cases ho
  | changed hfirst hos ih =>
    cases i with
    | zero =>
      cases ho
      obtain rfl := Option.some.inj (hfirst.symm.trans hk)
      rw [hos.eq_iff ho' hk']
      refine ⟨fun hnone m hm hmj => ?_, fun hnone m hm => hnone (m + 1) (Nat.succ_pos m)
        (Nat.succ_lt_succ hm)⟩
      obtain ⟨m, rfl⟩ : ∃ n, m = n + 1 := ⟨m - 1, by omega⟩
      exact hnone m (Nat.lt_of_succ_lt_succ hmj)
    | succ i =>
      obtain ⟨j, rfl⟩ : ∃ n, j = n + 1 := ⟨j - 1, by omega⟩
      rw [between_cons]
      exact ih ho j (by omega) ho'
  | context hos ih =>
    cases i with
    | zero =>
      cases ho
      cases hk
    | succ i =>
      obtain ⟨j, rfl⟩ : ∃ n, j = n + 1 := ⟨j - 1, by omega⟩
      rw [between_cons]
      exact ih ho j (by omega) ho'

end Origin.Numbered

/-! ### Sides -/

namespace Side

variable {s : Side}

/-- What a line of a side holds, without the line feed that ends it. -/
def line? (s : Side) (i : Nat) : Option (List Char) := do
  let start ← s.lines.start? i
  let next ← s.lines.start? (i + 1)
  sliceBytes? s.text start (next - 1)

theorem line?_unlines {ls : List (List Char)} (hls : ∀ l ∈ ls, '\n' ∉ l)
    (htext : s.text = unlines ls) (hlines : s.lines = .ofText s.text) (i : Nat) :
    s.line? i = ls[i]? := by
  rw [line?, hlines, htext, LineTable.start?_unlines hls, LineTable.start?_unlines hls]
  by_cases hi : i < ls.length
  · have hline : ls[i]? = some ls[i] := List.getElem?_eq_getElem hi
    rw [if_pos (Nat.le_of_lt hi), if_pos (Nat.succ_le_of_lt hi), hline, Option.bind_eq_bind,
      Option.bind_some, Option.bind_some, sliceBytes?_eq_some_iff]
    refine ⟨_, _, unlines_eq hline, rfl, ?_⟩
    rw [List.take_succ_eq_append_getElem hi, unlines_append, byteLength_append, unlines_cons,
      byteLength_append]
    rfl
  · rw [if_neg (show ¬ i + 1 ≤ ls.length by omega), List.getElem?_eq_none (by omega)]
    cases (if i ≤ ls.length then _ else _) <;> rfl

/-- A position at a line and column is at that line and column. -/
theorem lineCol?_of_posAt? (hlines : s.lines = .ofText s.text) {line col : Nat} {p : Pos}
    (h : s.posAt? line col = some p) : s.lines.lineCol? p = some (line, col) := by
  unfold posAt? at h
  obtain ⟨start, hstart, h⟩ := Option.bind_eq_some_iff.mp h
  dsimp only at h
  split at h
  · rename_i hlt
    obtain rfl := Option.some.inj h
    rw [hlines] at hstart hlt ⊢
    refine LineTable.lineCol?_eq_some_iff.mpr ⟨start, hstart, rfl, fun next hnext => ?_⟩
    rwa [hnext] at hlt
  · cases h

/-- What the positions of a side have to do with the patch file that it was read of, where its body
has the given number of lines. -/
structure MapsBack (s : Side) (text : List Char) (size : Nat) : Prop where
  /-- The side has one line for each line of the body, and each is ended by a line feed. -/
  lines : ∃ ls, ls.length = size ∧ (∀ l ∈ ls, '\n' ∉ l) ∧ s.text = unlines ls ∧
    ∀ i, s.line? i = ls[i]?
  /-- A byte that ends no line stands in the patch file where its position is translated to. -/
  byte : ∀ offset b, (utf8 s.text)[offset]? = some b → b ≠ lineFeed →
    ∃ q, s.toPatch (.atOffset offset) = .atOffset q ∧ (utf8 text)[q]? = some b
  /-- The line and the column of a position lead back to it. -/
  posAt : ∀ offset ≤ byteLength s.text, ∃ line col,
    s.lines.lineCol? (.atOffset offset) = some (line, col) ∧
    s.posAt? line col = some (.atOffset offset)
  /-- The position at a line and column is at this line and column. -/
  lineCol : ∀ line col p, s.posAt? line col = some p → s.lines.lineCol? p = some (line, col)

/-- A byte that ends no line stands in one. -/
theorem exists_line_of_byte {ls : List (List Char)} (hls : ∀ l ∈ ls, '\n' ∉ l)
    {offset : Nat} {b : UInt8} (h : (utf8 (unlines ls))[offset]? = some b) (hb : b ≠ lineFeed) :
    ∃ line col, (LineTable.ofText (unlines ls)).lineCol? (.atOffset offset) = some (line, col) ∧
      (ls[line]?.bind fun l => (utf8 l)[col]?) = some b := by
  have hoffset : offset < byteLength (unlines ls) := by
    rw [← length_utf8]
    exact (List.getElem?_eq_some_iff.mp h).1
  obtain ⟨line, hline⟩ := LineTable.exists_line? (unlines ls) offset
  obtain ⟨⟨line, col⟩, hlineCol, -⟩ := Option.map_eq_some_iff.mp hline
  refine ⟨line, col, hlineCol, ?_⟩
  obtain ⟨start, hstart, rfl, hnext⟩ := LineTable.lineCol?_eq_some_iff.mp hlineCol
  rw [LineTable.start?_unlines hls] at hstart hnext
  split at hstart
  · rename_i hle
    obtain rfl := Option.some.inj hstart
    have hlt : line < ls.length := Nat.lt_of_le_of_ne hle fun heq => by
      rw [heq, List.take_length] at hoffset
      omega
    have hget : ls[line]? = some ls[line] := List.getElem?_eq_getElem hlt
    have hcol := hnext _ (if_pos (Nat.succ_le_of_lt hlt))
    rw [List.take_succ_eq_append_getElem hlt, unlines_append, byteLength_append, unlines_cons,
      byteLength_append] at hcol
    rw [unlines_eq hget, utf8_append, List.getElem?_append_right (by simp), length_utf8,
      Nat.add_sub_cancel_left, utf8_append] at h
    rw [hget, Option.bind_some]
    by_cases hinside : col < byteLength ls[line]
    · rwa [List.getElem?_append_left (by rwa [length_utf8])] at h
    · have hend : col = byteLength ls[line] := by
        have hfeed : byteLength ('\n' :: unlines []) = 1 := rfl
        omega
      have hbehind : (utf8 ls[line]).length ≤ col := Nat.le_of_eq (by rw [length_utf8, hend])
      rw [List.getElem?_append_right hbehind, length_utf8, hend, Nat.sub_self] at h
      exact absurd (Option.some.inj h).symm hb
  · cases hstart

variable {isIn : BodyLine → Bool} {text : List Char} {bs : List BodyLine} {body : List PatchLine}

theorem sideText_eq_unlines (isIn : BodyLine → Bool) (bs : List BodyLine) :
    sideText isIn bs = unlines (bs.map fun b => if isIn b then b.content else []) := by
  rw [sideText, unlines, List.flatMap_map]

/-- A byte of a line is a byte of the patch line that the line was read of. -/
theorem byte_of_line {b : BodyLine} {l : PatchLine} (hb : b.ReadOf l)
    (hl : l ∈ PatchLine.ofText text) {col : Nat} {byte : UInt8}
    (h : (utf8 (if isIn b then b.content else []))[col]? = some byte) :
    (utf8 text)[b.offset + col]? = some byte := by
  have hcontent : (utf8 b.content)[col]? = some byte := by
    split at h
    · exact h
    · cases h
  rcases hb.content with hnil | ⟨marker, htext, hoffset⟩
  · rw [hnil] at hcontent
    cases hcontent
  · obtain ⟨front, back, hstretch, hfront⟩ := PatchLine.exists_stretch hl
    rw [hoffset, ← hfront, ← byteLength_append, hstretch, htext, List.append_assoc,
      ← List.append_assoc]
    exact getElem?_utf8_stretch hcontent

/-- The lines of a side are those of the body, blank where they belong to the other side. -/
theorem line?_of_read (hcontents : ∀ b ∈ bs, '\n' ∉ b.content) (h : read isIn bs = .ok s) :
    ∃ ls, ls = bs.map (fun b => if isIn b then b.content else []) ∧ (∀ l ∈ ls, '\n' ∉ l) ∧
      s.text = unlines ls ∧ ∀ i, s.line? i = ls[i]? := by
  obtain ⟨fragment, -, rfl⟩ := exists_of_read h
  have hunlines := sideText_eq_unlines isIn bs
  have hls : ∀ l ∈ bs.map (fun b => if isIn b then b.content else []), '\n' ∉ l := fun l hl => by
    obtain ⟨b, hb, rfl⟩ := List.mem_map.mp hl
    split
    · exact hcontents b hb
    · exact List.not_mem_nil
  exact ⟨_, rfl, hls, hunlines, line?_unlines hls hunlines rfl⟩

theorem mapsBack_of_read (hbs : List.Forall₂ BodyLine.ReadOf bs body)
    (hbody : body ⊆ PatchLine.ofText text) (hcontents : ∀ b ∈ bs, '\n' ∉ b.content)
    (h : read isIn bs = .ok s) : s.MapsBack text body.length := by
  obtain ⟨ls, hmap, hls, hunlines, hline⟩ := line?_of_read hcontents h
  obtain ⟨fragment, -, rfl⟩ := exists_of_read h
  dsimp only at hunlines
  have hlength : ls.length = body.length := by rw [hmap, List.length_map, hbs.length_eq]
  refine ⟨⟨ls, hlength, hls, hunlines, hline⟩, fun offset byte hbyte hne => ?_,
    fun offset hoffset => ?_, fun line col p => lineCol?_of_posAt? rfl⟩
  · obtain ⟨line, col, hlineCol, hb⟩ := exists_line_of_byte hls (hunlines ▸ hbyte) hne
    obtain ⟨l, hl, hb⟩ := Option.bind_eq_some_iff.mp hb
    rw [hmap, List.getElem?_map] at hl
    obtain ⟨b, hget, rfl⟩ := Option.map_eq_some_iff.mp hl
    have hlt : line < body.length := hbs.length_eq ▸ (List.getElem?_eq_some_iff.mp hget).1
    have hread := BodyLine.readOf_of_getElem? hbs hget (List.getElem?_eq_getElem hlt)
    refine ⟨b.offset + col, ?_, byte_of_line hread (hbody (List.getElem_mem hlt)) hb⟩
    rw [toPatch, placeInPatch, hunlines, hlineCol]
    dsimp only
    rw [List.getElem?_map, hget]
    rfl
  · obtain ⟨line, hline⟩ := LineTable.exists_line? (sideText isIn bs) offset
    obtain ⟨⟨line, col⟩, hlineCol, -⟩ := Option.map_eq_some_iff.mp hline
    exact ⟨line, col, hlineCol, posAt?_of_lineCol? hlineCol hoffset⟩

/-- A side is no longer than the body it was read of. -/
theorem byteLength_text_le (hbs : List.Forall₂ BodyLine.ReadOf bs body) (h : read isIn bs = .ok s) :
    byteLength s.text ≤ byteLength (unlines (body.map (·.text))) := by
  obtain ⟨fragment, -, rfl⟩ := exists_of_read h
  clear h
  dsimp only
  rw [sideText_eq_unlines]
  induction hbs with
  | nil => exact Nat.le_refl _
  | @cons b l _ _ hread _ ih =>
    have hline : byteLength (if isIn b then b.content else []) ≤ byteLength l.text := by
      split
      · rcases hread.content with hnil | ⟨marker, htext, -⟩
        · rw [hnil]
          exact Nat.zero_le _
        · rw [htext, byteLength_append]
          exact Nat.le_add_left _ _
      · exact Nat.zero_le _
    rw [List.map_cons, List.map_cons, byteLength_unlines_cons, byteLength_unlines_cons]
    omega

end Side

/-! ### Patches -/

namespace Patch

/-- What the lines of the sides of a patch have to do with the lines of its body. -/
structure LinesUp (p : Patch) (body : List PatchLine) : Prop where
  origins : p.minus.origins = p.plus.origins ∧ p.minus.origins.length = body.length
  removed : ∀ (i : Nat) (l : PatchLine), body[i]? = some l →
    ((∃ hunk, p.minus.origins[i]? = some (.removed hunk)) ↔ l.text.head? = some '-')
  added : ∀ (i : Nat) (l : PatchLine), body[i]? = some l →
    ((∃ hunk, p.minus.origins[i]? = some (.added hunk)) ↔ l.text.head? = some '+')
  /-- Both sides have the context lines that are no remarks. -/
  context : ∀ (i : Nat) (l : PatchLine), body[i]? = some l → p.minus.origins[i]? = some .context →
    l.text.head? ≠ some '#' → ∃ content, p.minus.line? i = some content ∧
    p.plus.line? i = some content ∧
      (l.text = content ∨ l.text = ' ' :: content)
  /-- Changed lines are in one hunk if and only if no context line stands between them. -/
  hunks : ∀ (i j : Nat) (o o' : Origin) (k k' : Nat), i < j → p.minus.origins[i]? = some o →
    o.hunk? = some k →
    p.minus.origins[j]? = some o' → o'.hunk? = some k' →
    (k = k' ↔ ∀ m, i < m → m < j → p.minus.origins[m]? ≠ some .context)

theorem ReadOf.linesUp {p : Patch} {body : List PatchLine} (h : p.ReadOf body)
    (hcontents : ∀ l ∈ body, '\n' ∉ l.text) : p.LinesUp body := by
  have hread := BodyLine.forall₂_ofLines 0 false body
  have hnumbered := BodyLine.numbered_ofLines 0 false body
  have hfeeds : ∀ b ∈ BodyLine.ofLines 0 false body, '\n' ∉ b.content :=
    BodyLine.not_mem_content hcontents
  obtain ⟨hminusRead, hplusRead⟩ := h
  obtain ⟨_, -, hminus⟩ := Side.exists_of_read hminusRead
  obtain ⟨_, -, hplus⟩ := Side.exists_of_read hplusRead
  generalize BodyLine.ofLines 0 false body = bs at *
  have horigins : p.minus.origins = bs.map (·.origin) := by rw [hminus]
  have hlength : bs.length = body.length := hread.length_eq
  have horigin {i : Nat} {l : PatchLine} (hl : body[i]? = some l) :
      ∃ b, bs[i]? = some b ∧ p.minus.origins[i]? = some b.origin ∧ b.ReadOf l := by
    have hlt : i < bs.length := hlength ▸ (List.getElem?_eq_some_iff.mp hl).1
    have hb := List.getElem?_eq_getElem hlt
    exact ⟨bs[i], hb, by rw [horigins, List.getElem?_map, hb]; rfl,
      BodyLine.readOf_of_getElem? hread hb hl⟩
  refine ⟨⟨by rw [hminus, hplus], by rw [horigins, List.length_map, hlength]⟩, fun i l hl => ?_,
    fun i l hl => ?_, fun i l hl hcontext hremark => ?_, fun i j o o' k k' hij ho hk ho' hk' => ?_⟩
  · obtain ⟨b, -, hb, hread⟩ := horigin hl
    rw [hb, ← hread.removed]
    simp only [Option.some.injEq]
  · obtain ⟨b, -, hb, hread⟩ := horigin hl
    rw [hb, ← hread.added]
    simp only [Option.some.injEq]
  · obtain ⟨b, hget, hb, hread⟩ := horigin hl
    have hbcontext : b.origin = .context := Option.some.inj (hb.symm.trans hcontext)
    have hinMinus : b.isInMinus = true := by rw [BodyLine.isInMinus, hbcontext]
    have hinPlus : b.isInPlus = true := by rw [BodyLine.isInPlus, hbcontext]
    obtain ⟨_, rfl, -, -, hminusLine⟩ := Side.line?_of_read hfeeds hminusRead
    obtain ⟨_, rfl, -, -, hplusLine⟩ := Side.line?_of_read hfeeds hplusRead
    refine ⟨b.content, ?_, ?_, hread.plain hbcontext hremark⟩
    · rw [hminusLine, List.getElem?_map, hget, Option.map_some, if_pos hinMinus]
    · rw [hplusLine, List.getElem?_map, hget, Option.map_some, if_pos hinPlus]
  · rw [horigins] at ho ho' ⊢
    exact hnumbered.hunk_eq_iff hij ho hk ho' hk'

end Patch

/-- **Sides map back to their patch.**  For every patch of a file there are the lines of its body,
and for these the positions and the lines of both sides are as they should. -/
theorem PatchFile.read_places {text : List Char} {p : Patch} (hp : p ∈ (read text).patches) :
    ∃ front closing body back, PatchLine.ofText text = front ++ closing :: (body ++ back) ∧
      isClosing closing = true ∧ p.header.stop = .atOffset closing.stop ∧
      (∀ l ∈ body, isHeader l = false) ∧
      (∀ l ∈ back.head?, isHeader l = true) ∧
      p.minus.MapsBack text body.length ∧ p.plus.MapsBack text body.length ∧ p.LinesUp body := by
  obtain ⟨front, closing, body, back, htext, hclosing, hstop, hheaders, hnext, hread⟩ :=
    exists_section_of_mem hp
  have hbody : body ⊆ PatchLine.ofText text := fun l hl => by
    rw [htext]
    exact List.mem_append_right _ (List.mem_cons_of_mem _ (List.mem_append_left _ hl))
  have hfeeds : ∀ l ∈ body, '\n' ∉ l.text := fun l hl => PatchLine.not_mem_text (hbody hl)
  have hcontents : ∀ b ∈ BodyLine.ofLines 0 false body, '\n' ∉ b.content :=
    BodyLine.not_mem_content hfeeds
  have hlines := BodyLine.forall₂_ofLines 0 false body
  exact ⟨front, closing, body, back, htext, hclosing, hstop, hheaders, hnext,
    Side.mapsBack_of_read hlines hbody hcontents hread.minus, Side.mapsBack_of_read hlines hbody
    hcontents hread.plus, hread.linesUp hfeeds⟩

/-- A patch with context, a remark and changed lines. -/
theorem PatchFile.read_places_replacement : ∃ p body,
    p ∈ (read "@@\n@@\n foo(\n# an argument\n-\tx,\r\n+\ty,\n )\n".toList).patches ∧
      p.minus.MapsBack "@@\n@@\n foo(\n# an argument\n-\tx,\r\n+\ty,\n )\n".toList body.length ∧
      p.plus.MapsBack "@@\n@@\n foo(\n# an argument\n-\tx,\r\n+\ty,\n )\n".toList body.length ∧
      p.LinesUp body := by
  have hread : (read "@@\n@@\n foo(\n# an argument\n-\tx,\r\n+\ty,\n )\n".toList).patches ≠ [] := by
    decide +kernel
  obtain ⟨p, hp⟩ := List.exists_mem_of_ne_nil _ hread
  obtain ⟨-, -, body, -, -, -, -, -, -, hminus, hplus, hlines⟩ := read_places hp
  exact ⟨p, body, hp, hminus, hplus, hlines⟩

/-- Neither side of a patch is longer than its file, so the places of both fit if that is short
enough. -/
theorem PatchFile.fits_sides {text : List Char} {p : Patch}
    (htext : byteLength text < UInt32.size - 1) (hp : p ∈ (read text).patches) :
    ∀ s ∈ [p.minus, p.plus], ∀ offset ≤ byteLength s.text, (Pos.atOffset offset).Fits := by
  obtain ⟨front, closing, body, back, hlines, hclosing, -, -, -, hread⟩ := exists_section_of_mem hp
  have hbody : byteLength (unlines (body.map (·.text))) ≤ byteLength text := by
    have hall := PatchLine.byteLength_unlines_ofText text
    have hpos : 0 < byteLength closing.text := byteLength_pos fun hnil => by
      rw [isClosing, hnil] at hclosing
      cases hclosing
    rw [hlines, List.map_append, List.map_cons, List.map_append, unlines_append, byteLength_append,
      byteLength_unlines_cons, unlines_append, byteLength_append] at hall
    omega
  have hbs := BodyLine.forall₂_ofLines 0 false body
  have hside {isIn : BodyLine → Bool} {s : Side}
      (h : Side.read isIn (BodyLine.ofLines 0 false body) = .ok s) :
      ∀ offset ≤ byteLength s.text, (Pos.atOffset offset).Fits := fun offset hoffset =>
    Pos.fits_of_le htext (Nat.succ_le_succ (Nat.le_trans hoffset
      (Nat.le_trans (Side.byteLength_text_le hbs h) hbody)))
  simp only [List.forall_mem_cons]
  exact ⟨hside hread.minus, hside hread.plus, nofun⟩

end Graft
