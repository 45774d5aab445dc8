import Graft.Proofs.Layout.Comments
import Mathlib.Data.List.Chain

/-! # Comment groups as blocks

A comment **continues** the one before it if it stands alone on its line and no line is between.
The groups of a text are its blocks of comments that continue each other
(`CommentGroup.blocks_group`): within a block each comment continues the one before, and no block
goes on with the first comment of the next.  The flag of a group is that of its first comment only,
which need not continue anything.

What documents something that stands at a place is found among the groups (`CommentGroup.docAt`): it
is a block that ends on the line above the place (`CommentGroup.Blocks.docAt_cases`).
-/

namespace Graft

/-! ### Blocks of comments -/

namespace Comment

variable (lines : LineTable)

/-- The line on which a comment begins. -/
def firstLine (c : Comment) : Nat := (lines.line? c.pos).getD 0

/-- The line on which a comment ends. -/
def lastLine (c : Comment) : Nat := (lines.line? c.stop).getD (c.firstLine lines)

/-- Whether a comment goes on with the group of the one before it: it stands alone on its line, and
no line is between. -/
def Continues (b c : Comment) : Prop := c.ownLine = true ∧ c.firstLine lines ≤ b.lastLine lines + 1

end Comment

namespace CommentGroup

open Comment

variable {lines : LineTable} {cs : List Comment} {gs : List CommentGroup}

/-- Comments put into groups, each of which goes on as long as the next comment continues it. -/
inductive Blocks (lines : LineTable) : List Comment → List CommentGroup → Prop where
  | nil : Blocks lines [] []
  | cons {ds cs : List Comment} {c : Comment} {gs : List CommentGroup}
      (hchain : (ds ++ [c]).IsChain (Continues lines))
      (hends : ∀ e ∈ cs.head?, ¬ Continues lines c e)
      (h : Blocks lines cs gs) :
    Blocks lines (ds ++ c :: cs) (ofComments (ds ++ [c]) (c.lastLine lines) :: gs)

theorem blocks_groupFrom (ds : List Comment) {c : Comment}
    (hchain : (ds ++ [c]).IsChain (Continues lines)) (cs : List Comment) :
    Blocks lines (ds ++ c :: cs) (groupFrom lines (ds ++ [c]) (c.lastLine lines) cs) := by
  induction cs generalizing ds c with
  | nil =>
    rw [groupFrom, if_neg (by simp)]
    exact .cons hchain nofun .nil
  | cons e cs ih =>
    rw [groupFrom]
    split
    · rename_i hcond
      refine .cons hchain ?_ (ih [] (List.IsChain.singleton _))
      rintro e' ⟨⟩ ⟨hown, hline⟩
      simp [hown] at hcond
      exact absurd hline (Nat.not_le_of_lt hcond)
    · rename_i hcond
      have hcontinues : Continues lines c e := by
        simpa [Continues, Comment.firstLine] using hcond
      have hnext : ((ds ++ [c]) ++ [e]).IsChain (Continues lines) := by
        rw [List.isChain_append]
        exact ⟨hchain, List.IsChain.singleton _, by simpa using hcontinues⟩
      have h := ih _ hnext
      rwa [List.append_assoc] at h

/-- **Groups are blocks of comments that continue each other.** -/
theorem blocks_group (lines : LineTable) (cs : List Comment) :
    Blocks lines cs (group lines cs) := by
  cases cs with
  | nil => exact .nil
  | cons c cs => exact blocks_groupFrom [] (List.IsChain.singleton c) cs

/-- A group among those of some comments, with its own comments, the last of them apart, and those
around it. -/
structure Block (lines : LineTable) (cs : List Comment) (gs : List CommentGroup) where
  before : List Comment
  front : List Comment
  last : Comment
  behind : List Comment
  groupsBefore : List CommentGroup
  groupsBehind : List CommentGroup
  comments_eq : cs = before ++ (front ++ last :: behind)
  groups_eq : gs = groupsBefore ++ ofComments (front ++ [last])
    (last.lastLine lines) :: groupsBehind
  chain : (front ++ [last]).IsChain (Continues lines)
  begins : ∀ b ∈ before.getLast?, ∀ c ∈ (front ++ [last]).head?, ¬ Continues lines b c
  ends : ∀ c ∈ behind.head?, ¬ Continues lines last c
  groups_before : Groups before groupsBefore
  groups_behind : Groups behind groupsBehind

namespace Block

/-- The comments of a block. -/
def comments (b : Block lines cs gs) : List Comment := b.front ++ [b.last]

/-- The group of a block. -/
def group (b : Block lines cs gs) : CommentGroup := ofComments b.comments (b.last.lastLine lines)

theorem mem_comments (b : Block lines cs gs) {c : Comment} :
    c ∈ b.comments ↔ c ∈ b.front ∨ c = b.last := by
  rw [comments, List.mem_append, List.mem_singleton]

theorem last_mem (b : Block lines cs gs) : b.last ∈ b.comments := b.mem_comments.mpr (.inr rfl)

theorem exists_head (b : Block lines cs gs) : ∃ c, b.comments.head? = some c :=
  ⟨_, List.head?_eq_some_head (List.append_ne_nil_of_right_ne_nil _ (List.cons_ne_nil _ _))⟩

theorem mem_of_mem_comments (b : Block lines cs gs) {c : Comment} (hc : c ∈ b.comments) :
    c ∈ cs := by
  rw [b.comments_eq]
  rcases b.mem_comments.mp hc with hc | rfl <;> simp [*]

theorem mem_of_mem_behind (b : Block lines cs gs) {c : Comment} (hc : c ∈ b.behind) : c ∈ cs := by
  rw [b.comments_eq]
  simp [hc]

theorem mem_cases (b : Block lines cs gs) {c : Comment} (hc : c ∈ cs) :
    c ∈ b.before ∨ c ∈ b.comments ∨ c ∈ b.behind := by
  rw [b.comments_eq] at hc
  rw [b.mem_comments]
  simp only [List.mem_append, List.mem_cons] at hc
  tauto

section Order

variable {R : Comment → Comment → Prop}

theorem rel_before (b : Block lines cs gs) (h : cs.Pairwise R) {c d : Comment} (hc : c ∈ b.before)
    (hd : d ∈ b.comments) : R c d := by
  rw [b.comments_eq] at h
  refine (List.pairwise_append.mp h).2.2 c hc d ?_
  rcases b.mem_comments.mp hd with hd | rfl <;> simp [*]

theorem rel_front (b : Block lines cs gs) (h : cs.Pairwise R) {c : Comment} (hc : c ∈ b.front) :
    R c b.last := by
  rw [b.comments_eq] at h
  exact (List.pairwise_append.mp (List.pairwise_append.mp h).2.1).2.2 c hc b.last List.mem_cons_self

theorem rel_behind (b : Block lines cs gs) (h : cs.Pairwise R) {c d : Comment} (hc : c ∈ b.comments)
    (hd : d ∈ b.behind) : R c d := by
  rw [b.comments_eq] at h
  obtain ⟨-, hlast, hfront⟩ := List.pairwise_append.mp (List.pairwise_append.mp h).2.1
  rcases b.mem_comments.mp hc with hc | rfl
  · exact hfront c hc d (List.mem_cons_of_mem _ hd)
  · exact List.rel_of_pairwise_cons hlast hd

theorem pairwise_comments (b : Block lines cs gs) (h : cs.Pairwise R) : b.comments.Pairwise R := by
  rw [b.comments_eq, ← List.singleton_append, ← List.append_assoc b.front] at h
  exact (List.pairwise_append.mp (List.pairwise_append.mp h).2.1).1

theorem pairwise_behind (b : Block lines cs gs) (h : cs.Pairwise R) : b.behind.Pairwise R := by
  rw [b.comments_eq] at h
  exact (List.pairwise_cons.mp (List.pairwise_append.mp (List.pairwise_append.mp h).2.1).2.1).2

end Order

/-- All comments of a block stand alone if the first does. -/
theorem ownLine_of_head (b : Block lines cs gs) (h : ∀ c ∈ b.comments.head?, c.ownLine = true) :
    ∀ c ∈ b.comments, c.ownLine = true :=
  List.IsChain.induction (fun c => c.ownLine = true) b.comments b.chain (fun _ _ hnext _ => hnext.1)
    fun hne => h _ (List.head?_eq_some_head hne)

end Block

theorem Blocks.groups (h : Blocks lines cs gs) : Groups cs gs := by
  induction h with
  | nil => exact .nil
  | @cons ds cs c gs _ _ _ ih =>
    have hgroups :=
      Groups.cons (c.lastLine lines) (List.append_ne_nil_of_right_ne_nil ds (List.cons_ne_nil c []))
      ih
    rwa [List.append_assoc] at hgroups

/-- A block, with one more before it. -/
def Block.push {ds cs : List Comment} {c : Comment} {gs : List CommentGroup} (b : Block lines cs gs)
    (hends : ∀ e ∈ cs.head?, ¬ Continues lines c e) :
    Block lines (ds ++ c :: cs) (ofComments (ds ++ [c]) (c.lastLine lines) :: gs) where
  before := ds ++ c :: b.before
  front := b.front
  last := b.last
  behind := b.behind
  groupsBefore := ofComments (ds ++ [c]) (c.lastLine lines) :: b.groupsBefore
  groupsBehind := b.groupsBehind
  comments_eq := by rw [List.append_assoc, List.cons_append, ← b.comments_eq]
  groups_eq := by rw [List.cons_append, ← b.groups_eq]
  chain := b.chain
  begins e he f hf := by
    have hcs := b.comments_eq
    cases hbefore : b.before.getLast? with
    | none =>
      obtain hnil := List.getLast?_eq_none_iff.mp hbefore
      rw [hnil, List.getLast?_concat] at he
      cases he
      refine hends f ?_
      rw [hcs, hnil, List.nil_append]
      cases hfront : b.front with
      | nil => simpa [hfront] using hf
      | cons g front => simpa [hfront] using hf
    | some g =>
      refine b.begins e ?_ f hf
      rw [List.getLast?_append_cons, List.getLast?_cons, hbefore] at he
      rwa [hbefore]
  ends := b.ends
  groups_before := by
    have hgroups :=
      Groups.cons (c.lastLine lines) (List.append_ne_nil_of_right_ne_nil ds (List.cons_ne_nil c []))
      b.groups_before
    rwa [List.append_assoc] at hgroups
  groups_behind := b.groups_behind

/-- Every group is that of a block. -/
theorem Blocks.exists_block_of_groups {gs₁ gs₂ : List CommentGroup} {g : CommentGroup}
    (h : Blocks lines cs (gs₁ ++ g :: gs₂)) :
    ∃ b : Block lines cs (gs₁ ++ g :: gs₂), b.group = g ∧ b.groupsBefore = gs₁ ∧
      b.groupsBehind = gs₂ := by
  generalize hgs : gs₁ ++ g :: gs₂ = gs at h
  induction h generalizing gs₁ with
  | nil => simp at hgs
  | @cons ds cs c gs hchain hends h ih =>
    cases gs₁ with
    | nil =>
      cases hgs
      exact ⟨⟨[], ds, c, cs, [], gs₂, rfl, rfl, hchain, nofun, hends, .nil, h.groups⟩,
        rfl, rfl, rfl⟩
    | cons g' gs₁ =>
      obtain ⟨rfl, htail⟩ := List.cons.inj hgs
      obtain ⟨b, hb, hbefore, hbehind⟩ := ih htail
      exact ⟨b.push hends, hb, congrArg (_ :: ·) hbefore, hbehind⟩

/-- Every comment is in a block. -/
theorem Blocks.exists_block_of_comment {c : Comment} (h : Blocks lines cs gs) (hc : c ∈ cs) :
    ∃ b : Block lines cs gs, c ∈ b.comments := by
  induction h with
  | nil => cases hc
  | @cons ds cs e gs hchain hends h ih =>
    have hcases : c ∈ ds ++ [e] ∨ c ∈ cs := by
      rw [List.mem_append, List.mem_cons] at hc
      rw [List.mem_append, List.mem_singleton]
      tauto
    rcases hcases with hc | hc
    · exact ⟨⟨[], ds, e, cs, [], gs, rfl, rfl, hchain, nofun, hends, .nil, h.groups⟩, hc⟩
    · obtain ⟨b, hb⟩ := ih hc
      exact ⟨b.push hends, hb⟩

/-- A group ends with one of the comments. -/
theorem Groups.exists_stop (h : Groups cs gs) {g : CommentGroup} (hg : g ∈ gs) :
    ∃ c ∈ cs, g.stop = c.stop := by
  obtain ⟨ds, line, hne, hsub, rfl⟩ := h.exists_comments hg
  have hlast := List.getLast?_eq_some_getLast hne
  exact ⟨_, hsub.subset (List.getLast_mem hne), by simp [ofComments, hlast]⟩

/-! ### The group above a place -/

/-- The documentation of what stands at `p` behind a lexeme at `previous`: the last group that ends
before it, if it stands alone on its lines, ends on the line above, and no lexeme stands between. -/
def docAt (lines : LineTable) (gs : List CommentGroup) (previous : Option Pos) (p : Pos) : Tree :=
  match (gs.takeWhile fun g => decide (g.stop ≤ p)).getLast? with
  | none => .nil
  | some g =>
    if g.ownLine && previous.all (fun q => decide (q < g.start)) &&
      lines.line? p == some (g.lastLine + 1) then g.tree
    else .nil

/-- Whether a block is the documentation of what stands at `p` behind a lexeme at `previous`. -/
structure Block.Documents (b : Block lines cs gs) (previous : Option Pos) (p : Pos) : Prop where
  before : ∀ g ∈ b.groupsBefore, g.stop ≤ p
  stop_le : b.last.stop ≤ p
  behind : ∀ g ∈ b.groupsBehind.head?, ¬ g.stop ≤ p
  ownLine : ∀ c ∈ b.comments.head?, c.ownLine = true
  previous : ∀ q ∈ previous, q < b.group.start
  line : lines.line? p = some (b.last.lastLine lines + 1)

namespace Block

variable {previous : Option Pos} {p : Pos}

theorem stop_group (b : Block lines cs gs) : b.group.stop = b.last.stop := by
  simp [group, ofComments, comments]

theorem ownLine_group (b : Block lines cs gs) :
    b.group.ownLine = true ↔ ∀ c ∈ b.comments.head?, c.ownLine = true := by
  obtain ⟨c, hc⟩ := b.exists_head
  simp [group, ofComments, hc]

theorem docAt_eq (b : Block lines cs gs) (h : b.Documents previous p) :
    docAt lines gs previous p = b.group.tree := by
  have hstop : decide (b.group.stop ≤ p) = true := decide_eq_true (b.stop_group ▸ h.stop_le)
  have hbehind : b.groupsBehind.takeWhile (fun g => decide (g.stop ≤ p)) = [] := by
    cases hgs : b.groupsBehind with
    | nil => rfl
    | cons g gs =>
      have hg := h.behind g (by rw [hgs]; rfl)
      rw [List.takeWhile_cons, if_neg (by simpa using hg)]
  have htaken : (b.groupsBefore ++ b.group :: b.groupsBehind).takeWhile
      (fun g => decide (g.stop ≤ p)) =
      b.groupsBefore ++ [b.group] := by
    rw [List.takeWhile_append_of_pos fun g hg => decide_eq_true (h.before g hg),
      List.takeWhile_cons, if_pos hstop, hbehind]
  have hfound : (gs.takeWhile fun g => decide (g.stop ≤ p)).getLast? = some b.group := by
    rw [(congrArg (List.takeWhile _) b.groups_eq).trans htaken, List.getLast?_concat]
  have hprevious : previous.all (fun q => decide (q < b.group.start)) = true := by
    rw [Option.all_eq_true]
    exact fun q hq => decide_eq_true (h.previous q hq)
  rw [docAt, hfound]
  dsimp only
  rw [b.ownLine_group.mpr h.ownLine, hprevious, h.line]
  simp [group, ofComments]

end Block

/-- **What documents something is a block of comments right above it**, if anything does. -/
theorem Blocks.docAt_cases (h : Blocks lines cs gs) (previous : Option Pos) (p : Pos) :
    docAt lines gs previous p = .nil ∨
      ∃ b : Block lines cs gs, b.Documents previous p ∧
      docAt lines gs previous p = b.group.tree := by
  unfold docAt
  split
  · exact .inl rfl
  · rename_i g hg
    split
    · rename_i hcond
      simp only [Bool.and_eq_true, beq_iff_eq] at hcond
      obtain ⟨⟨hown, hprevious⟩, hline⟩ := hcond
      obtain ⟨gs₁, htaken⟩ := List.getLast?_eq_some_iff.mp hg
      have hgs : gs = gs₁ ++ g :: gs.dropWhile fun g => decide (g.stop ≤ p) := by
        rw [← List.singleton_append, ← List.append_assoc, ← htaken, List.takeWhile_append_dropWhile]
      have hdropped := List.head?_dropWhile_not (fun g : CommentGroup => decide (g.stop ≤ p)) gs
      have hbefore : ∀ g' ∈ gs₁ ++ [g], g'.stop ≤ p := fun g' hg' =>
        of_decide_eq_true (List.all_eq_true.mp List.all_takeWhile g' (htaken ▸ hg'))
      generalize gs.dropWhile (fun g => decide (g.stop ≤ p)) = gs₂ at hgs hdropped
      subst hgs
      obtain ⟨b, hb, hb₁, hb₂⟩ := h.exists_block_of_groups
      refine .inr ⟨b, ⟨fun g' hg' => ?_, ?_, fun g' hg' => ?_, ?_, fun q hq => ?_, ?_⟩, by rw [hb]⟩
      · rw [hb₁] at hg'
        exact hbefore g' (List.mem_append_left _ hg')
      · rw [← b.stop_group, hb]
        exact hbefore g (by simp)
      · rw [hb₂] at hg'
        rw [Option.mem_def.mp hg'] at hdropped
        exact of_decide_eq_false hdropped
      · rw [← b.ownLine_group, hb]
        exact hown
      · rw [hb]
        exact of_decide_eq_true ((Option.all_eq_true _ _).mp hprevious q hq)
      · exact hline.trans (congrArg (fun g => some (g.lastLine + 1)) hb.symm)
    · exact .inl rfl

end CommentGroup

end Graft
