import Graft.Proofs.Match.Alike
import Graft.Recipe.Apply

/-! # What replacing a match can do

A recipe changes a file by replacements alone, and each of them comes to one of three things
(`Recipe.replaceInto_cases`).  A replacement of a stretch keeps the container around it but for one
list, at whose end stands what the template builds (`Recipe.exists_of_build`).  Building only adds
to what is spared (`Template.build_keepsSpared`).
-/

namespace Graft

@[simp] theorem Node.kind_set (n : Node) (l : Label) (t : Tree) : (n.set l t).kind = n.kind := by
  unfold set
  split <;> rfl

@[simp] theorem Node.set_set (n : Node) (l : Label) (t u : Tree) :
    (n.set l t).set l u = n.set l u := by
  cases hl : n.kind.indexOf? l with
  | none => simp [set, hl]
  | some i => simp [set, hl]

theorem Tree.tree_of_node? {t : Tree} {n : Node} (h : t.node? = some n) : n.tree = t := by
  cases t with
  | node k fs =>
    cases h
    rfl
  | _ => cases h

theorem Builder.eq_of_run_require {α : Type} {found : Option α} {part : MissingPart} {p : Pos}
    {d d' : Draft} {a : α} (h : (require found part p).run d = .ok (a, d')) :
    found = some a ∧ d' = d := by
  cases found with
  | none => cases h
  | some b =>
    cases h
    exact ⟨rfl, rfl⟩

/-- What is answered on a condition. -/
theorem Builder.eq_of_ite {α : Type} {q : Prop} [Decidable q] {a b : α} {e : BuildError}
    {d d' : Draft} (h : (if q then pure a else throw e : Builder α).run d = .ok (b, d')) :
    q ∧ b = a ∧ d' = d := by
  split at h
  · rename_i hq
    cases h
    exact ⟨hq, rfl, rfl⟩
  · cases h

/-! ### What building spares -/

namespace Builder

variable {α β : Type}

/-- Whether building something takes back nothing that was spared before. -/
def KeepsSpared (b : Builder α) : Prop := ∀ d a d', b.run d = .ok (a, d') → d.spared ⊆ d'.spared

theorem KeepsSpared.bind {b : Builder α} {f : α → Builder β} (hb : b.KeepsSpared)
    (hf : ∀ a, (f a).KeepsSpared) : (b >>= f).KeepsSpared := by
  intro d x d' h
  obtain ⟨a, d₁, h₁, h₂⟩ := exists_of_run_bind h
  exact List.Subset.trans (hb d a d₁ h₁) (hf a d₁ x d' h₂)

theorem keepsSpared_pure (a : α) : (pure a : Builder α).KeepsSpared := by
  rintro d _ _ ⟨⟩
  exact List.Subset.refl _

theorem keepsSpared_throw (e : BuildError) : (throw e : Builder α).KeepsSpared := nofun

theorem keepsSpared_spare (s : Span) : (spare s).KeepsSpared := by
  rintro d _ _ ⟨⟩
  exact List.subset_append_left _ _

theorem keepsSpared_moveTo (p : Pos) : (moveTo p).KeepsSpared := by
  rintro d _ _ ⟨⟩
  dsimp only
  split <;> exact List.Subset.refl _

theorem keepsSpared_require (found : Option α) (part : MissingPart) (p : Pos) :
    (require found part p).KeepsSpared := by
  cases found with
  | none => exact keepsSpared_throw _
  | some a => exact keepsSpared_pure a

end Builder

namespace Template

open Builder

variable {c : Captures} {d d' : Draft}

mutual

theorem build_keepsSpared (c : Captures) (t : Template) : (build c t).KeepsSpared := by
  match t with
  | nil | str _ | tok _ => exact keepsSpared_pure _
  | pos p counterpart =>
    rw [build]
    dsimp only
    split
    · exact keepsSpared_pure _
    · rintro d _ _ ⟨⟩
      exact List.Subset.refl _
  | node k fs =>
    rw [build]
    refine (buildAll_keepsSpared c fs).bind fun values => ?_
    split
    · exact keepsSpared_throw _
    · exact keepsSpared_pure _
  | list items =>
    rw [build]
    exact (buildItems_keepsSpared c items).bind fun _ => keepsSpared_pure _
  | doc counterpart own =>
    rw [build]
    split
    · split
      · exact (keepsSpared_spare _).bind fun _ => keepsSpared_pure _
      · exact keepsSpared_pure _
    · exact build_keepsSpared c own
  | metavar _ _ | fieldList _ _ =>
    rw [build]
    exact (keepsSpared_require _ _ _).bind fun _ => (keepsSpared_spare _).bind fun _ =>
      keepsSpared_pure _
  | loop dots counterpart body =>
    rw [build]
    refine (keepsSpared_require _ _ _).bind fun _ => (keepsSpared_require _ _ _).bind fun _ => ?_
    refine (keepsSpared_spare _).bind fun _ => (keepsSpared_moveTo _).bind fun _ => ?_
    refine (build_keepsSpared c body).bind fun value => ?_
    split
    · exact keepsSpared_pure _
    · exact keepsSpared_throw _

theorem buildAll_keepsSpared (c : Captures) (ts : List Template) : (buildAll c ts).KeepsSpared := by
  match ts with
  | [] => exact keepsSpared_pure _
  | t :: ts =>
    rw [buildAll]
    exact (build_keepsSpared c t).bind fun _ => (buildAll_keepsSpared c ts).bind fun _ =>
      keepsSpared_pure _

theorem buildItems_keepsSpared (c : Captures) (items : List TemplateItem) :
    (buildItems c items).KeepsSpared := by
  match items with
  | [] => exact keepsSpared_pure _
  | .one t :: items =>
    rw [buildItems]
    exact (build_keepsSpared c t).bind fun _ => (buildItems_keepsSpared c items).bind fun _ =>
      keepsSpared_pure _
  | .splice key dots :: items =>
    rw [buildItems]
    refine (keepsSpared_require _ _ _).bind fun _ => (keepsSpared_spare _).bind fun _ => ?_
    exact (keepsSpared_moveTo _).bind fun _ => (buildItems_keepsSpared c items).bind fun _ =>
      keepsSpared_pure _

end

/-- A run that is put in is on record, and its range is spared before the rest is built. -/
theorem exists_of_run_splice {key : Option Key} {dots : Pos} {items : List TemplateItem}
    {vs : List Tree} (h : (buildItems c (.splice key dots :: items)).run d = .ok (vs, d')) :
    ∃ run span us d₁, key.bind c.run? = some (run, span) ∧ span ∈ d₁.spared ∧
      (buildItems c items).run d₁ = .ok (us, d') ∧ vs = run ++ us := by
  rw [buildItems] at h
  obtain ⟨⟨run, span⟩, d₁, hrun, h⟩ := exists_of_run_bind h
  obtain ⟨⟨⟩, d₂, hspare, h⟩ := exists_of_run_bind h
  obtain ⟨⟨⟩, d₃, hmove, h⟩ := exists_of_run_bind h
  obtain ⟨us, d₄, hitems, h⟩ := exists_of_run_bind h
  have hmem : span ∈ d₂.spared := by
    cases hspare
    exact List.mem_append_right _ List.mem_cons_self
  cases h
  exact ⟨run, span, us, d₃, eq_of_require hrun, keepsSpared_moveTo _ _ _ _ hmove hmem, hitems, rfl⟩

end Template

/-! ### Replacements -/

namespace Recipe

variable {r : Recipe} {base c : Captures}

/-- What a match of a stretch consists of: a match of its items, the container and the site. -/
theorem exists_of_matchWindow? {n : Node} {l : Label} {offset : Nat} {pattern : Pattern}
    (h : matchWindow? n l offset pattern base = some c) :
    ∃ c₁ s, pattern.match? (.list ((n.list l).drop offset)) base = some c₁ ∧
      c = (c₁.bind .container
        (.captured (n.set l (.list ((n.list l).take offset))) n.span)).bind .site (.span s) := by
  unfold matchWindow? at h
  dsimp only at h
  split at h
  · cases h
  · obtain ⟨c₁, h₁, rfl⟩ := Option.map_eq_some_iff.mp h
    unfold Pattern.matchItems? at h₁
    split at h₁
    · exact ⟨_, _, h₁, rfl⟩
    · exact ⟨_, _, h₁, rfl⟩
    · cases h₁

/-- The container that a match of a stretch holds is the one it was found in, up to where the
stretch begins. -/
theorem container_of_matchWindow? {n : Node} {l : Label} {offset : Nat} {pattern : Pattern}
    (h : matchWindow? n l offset pattern base = some c) :
    (c.visible.captured? .container).bind (·.1.node?) = some
      (n.set l (.list ((n.list l).take offset))) := by
  obtain ⟨c₂, s, -, rfl⟩ := exists_of_matchWindow? h
  rw [Captures.captured?, Captures.get?_visible, Captures.get?_bind, if_neg (by decide),
    Captures.get?_bind, if_pos rfl]
  rfl

/-- What replacing a match comes to: an error, nothing where the code stays the same, or a new value
that fits the slot, with its marks in the log. -/
theorem replaceInto_cases (r : Recipe) (c : Captures) (log : EditLog) (slot : Option Slot)
    (old : Option Node) :
    (∃ e, r.replaceInto c log slot old = (.error e, log.discard) ∧
      (e.isMisfit = true ∨ ∃ d, (r.build c).run d = .error e)) ∨
    ∃ value draft, (r.build c).run ⟨((c.span? .site).getD .none).start, []⟩ = .ok (value, draft) ∧
      (∀ s ∈ slot, s.accepts value = true) ∧
      (r.replaceInto c log slot old = (.ok none, log.discard) ∨
        r.replaceInto c log slot old = (.ok (some value),
          (draft.spared.foldl EditLog.spare (log.mark ((c.span? .site).getD .none))).commit)) := by
  unfold replaceInto
  dsimp only
  split
  · rename_i e he
    exact .inl ⟨e, rfl, .inr ⟨_, he⟩⟩
  · rename_i value draft hbuilt
    have hok (isSame : Bool) {α : Type} (x y : α) :
        (if isSame = true then x else y) = x ∨ (if isSame = true then x else y) = y := by
      cases isSame with
      | false => exact .inr rfl
      | true => exact .inl rfl
    split
    · exact .inl ⟨_, rfl, .inl rfl⟩
    · rename_i hfits
      refine .inr ⟨value, draft, hbuilt, ?_, hok _ _ _⟩
      rintro s ⟨⟩
      simpa using hfits

/-- What replaces a match has been built and fits its slot. -/
theorem build_of_replaceInto {log log' : EditLog} {slot : Option Slot} {old : Option Node}
    {value : Tree} (h : r.replaceInto c log slot old = (.ok (some value), log')) :
    ∃ d d', (r.build c).run d = .ok (value, d') ∧ ∀ s ∈ slot, s.accepts value = true := by
  rcases replaceInto_cases r c log slot old with
    ⟨e, he, -⟩ | ⟨value', draft, hbuilt, hfits, hnone | hsome⟩
  · rw [h] at he
    cases he
  · rw [h] at hnone
    cases hnone
  · rw [h] at hsome
    cases hsome
    exact ⟨_, _, hbuilt, hfits⟩

/-- What replaces a container: what the template builds, put at the end of its list, where it
fits. -/
theorem exists_of_build {level : Level} {pattern : Pattern} {template : Template}
    (hbody : r.body = .window level pattern template) {d d' : Draft} {value : Tree}
    (h : (r.build c).run d = .ok (value, d')) :
    ∃ (n : Node) (l : Label) (built : Tree) (m : Node),
      (c.captured? .container).bind (·.1.node?) = some n ∧ level.field? n.kind = some l ∧
      (template.build c).run d = .ok (built, d') ∧ value = m.tree ∧
      m = (match n.get l with
        | .list front => n.set l (.list (front ++ match built with | .list ts => ts | t => [t]))
        | _ => n) ∧
      (m.kind.fields.find? (·.label == l)).all (fun f => f.slot.accepts (m.get l)) = true := by
  unfold build at h
  rw [hbody] at h
  obtain ⟨n, d₁, hn, h₁⟩ := Builder.exists_of_run_bind h
  obtain ⟨l, d₂, hl, h₂⟩ := Builder.exists_of_run_bind h₁
  obtain ⟨built, d₃, hbuilt, h₃⟩ := Builder.exists_of_run_bind h₂
  obtain ⟨hcontainer, rfl⟩ := Builder.eq_of_run_require hn
  obtain ⟨hfield, rfl⟩ := Builder.eq_of_run_require hl
  obtain ⟨hfits, rfl, rfl⟩ := Builder.eq_of_ite h₃
  exact ⟨n, l, built, _, hcontainer, hfield, hbuilt, rfl, rfl, hfits⟩

/-- What replaces a container is the container, perhaps with another list. -/
theorem exists_of_build_window {level : Level} {pattern : Pattern} {template : Template}
    (hbody : r.body = .window level pattern template) {d d' : Draft} {value : Tree} {m : Node}
    (hm : (c.captured? .container).bind (·.1.node?) = some m)
    (h : (r.build c).run d = .ok (value, d')) :
    ∃ l, level.field? m.kind = some l ∧ (value = m ∨ ∃ ts, value = m.set l (.list ts)) := by
  obtain ⟨n, l, built, m', hn, hl, -, rfl, rfl, -⟩ := exists_of_build hbody h
  rw [hm] at hn
  cases hn
  refine ⟨l, hl, ?_⟩
  split
  · exact .inr ⟨_, rfl⟩
  · exact .inl rfl

/-- What replaces the container of a match is the container with another list. -/
theorem node_of_replaceInto {level : Level} {pattern : Pattern} {template : Template}
    (hbody : r.body = .window level pattern template) {n : Node} {l : Label} {offset : Nat}
    (hl : level.field? n.kind = some l) (hmatch : matchWindow? n l offset pattern base = some c)
    {log log' : EditLog} {slot : Option Slot} {old : Option Node} {k : Kind} {fs : List Tree}
    (h : r.replaceInto c.visible log slot old = (.ok (some (.node k fs)), log')) :
    ∃ ts, (⟨k, fs⟩ : Node) = n.set l (.list ts) := by
  have hm := container_of_matchWindow? hmatch
  obtain ⟨d, d', hbuilt, -⟩ := build_of_replaceInto h
  obtain ⟨l', hl', hvalue⟩ := exists_of_build_window hbody hm hbuilt
  rw [Node.kind_set, hl] at hl'
  cases hl'
  have hnode {m : Node} (hm : Tree.node k fs = m) : (⟨k, fs⟩ : Node) = m := by
    cases hm
    rfl
  rcases hvalue with hvalue | ⟨ts, hvalue⟩
  · exact ⟨_, hnode hvalue⟩
  · exact ⟨ts, by rw [hnode hvalue, Node.set_set]⟩

end Recipe

end Graft
