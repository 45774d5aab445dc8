import Graft.Grammar.File
import Graft.Proofs.Match.Layout
import Graft.Proofs.Recipe.Compiled
import Graft.Recipe.Compile

/-! # Recipes do not depend on layout

What a recipe finds in a value, and what it puts in its place, is up to the code that the value
spells and not up to where it stands (`Recipe.replace_sameCode`).
-/

namespace Graft

theorem Node.SameCode.list {m n : Node} (h : m.SameCode n) (l : Label) :
    Tree.SameCodeAll (m.list l) (n.list l) := (h.get l).items

theorem Pattern.matchItems?_sameCode (p : Pattern) {ts us : List Tree} {c c' : Captures}
    (h : Tree.SameCodeAll ts us) (hc : c.SameCode c') :
    Option.Rel Captures.SameCode (p.matchItems? ts c) (p.matchItems? us c') := by
  unfold matchItems?
  split
  · exact match?_sameCode _ (Tree.BuiltAlike.list h).sameCode hc
  · exact match?_sameCode _ (Tree.BuiltAlike.list h).sameCode hc
  · exact .none

theorem matchWindow?_sameCode {m n : Node} (h : m.SameCode n) (l : Label) (offset : Nat)
    (pattern : Pattern) {base base' : Captures} (hbase : base.SameCode base') :
    Option.Rel Captures.SameCode (matchWindow? m l offset pattern base)
      (matchWindow? n l offset pattern base') := by
  have hall := h.list l
  have hitems := List.forall₂_drop offset hall
  have hfront : Tree.SameCode (.list ((m.list l).take offset)) (.list ((n.list l).take offset)) :=
    Tree.BuiltAlike.sameCode (.list (List.forall₂_take offset hall))
  unfold matchWindow?
  dsimp only
  rw [hall.length_eq]
  split
  · exact .none
  · refine (pattern.matchItems?_sameCode hitems hbase).map fun c c' hc => ?_
    refine (hc.bind _ (.captured (h.set l hfront) h.span)).bind _ (.span ?_)
    generalize (List.drop offset (m.list l)).head? = x, (List.drop offset (n.list l)).head? = y,
      rel_head? hitems = hfirst
    generalize (List.drop offset (m.list l)).getLast? = x',
      (List.drop offset (n.list l)).getLast? = y',
      rel_getLast? hitems = hlast
    cases hfirst with
    | none => exact ⟨rfl, rfl⟩
    | some hfirst =>
      cases hlast with
      | none => exact ⟨rfl, rfl⟩
      | some hlast => exact ⟨hfirst.isValid_start, hlast.isValid_stop⟩

namespace Recipe

theorem matchNode?_sameCode (r : Recipe) {v w : Tree} (h : v.SameCode w) :
    Option.Rel Captures.SameCode (r.matchNode? v) (r.matchNode? w) := by
  unfold matchNode?
  split
  · exact .none
  · exact (Pattern.match?_sameCode _ h .refl_empty).map fun c c' hc => hc.bind _ (.span h.span)
  · refine h.node?.bind fun m n hmn => ?_
    rw [(Node.sameCode_iff.mp hmn).1]
    exact .bind_left _ fun l => matchWindow?_sameCode hmn l 0 _ .refl_empty

theorem built_sameCode {v w : Tree} : v.SameCode w →
    Tree.SameCodeAll
      (match v with
        | .list ts => ts
        | t => [t])
      (match w with
        | .list ts => ts
        | t => [t]) := by
  intro h
  cases h.builtAlike with
  | list hts => exact hts
  | _ => exact .cons h .nil

theorem filled_sameCode {m n : Node} (h : m.SameCode n) (l : Label) {ts us : List Tree}
    (hts : Tree.SameCodeAll ts us) :
    Node.SameCode
      (match m.get l with
        | .list front => m.set l (.list (front ++ ts))
        | _ => m)
      (match n.get l with
        | .list front => n.set l (.list (front ++ us))
        | _ => n) := by
  have hget := h.get l
  generalize m.get l = x, n.get l = y at hget
  cases hget.builtAlike with
  | list hfront => exact h.set l (Tree.BuiltAlike.list (List.rel_append hfront hts)).sameCode
  | _ => exact h

/-- Whether a container is answered, once its list is filled up. -/
theorem inStep_container {m n : Node} (h : m.SameCode n) (l : Label) :
    Builder.InStep Tree.SameCode
      (if (m.kind.fields.find? (·.label == l)).all fun f => f.slot.accepts (m.get l) then return m
        else throw (.misfit (.inContainer m.kind)))
      (if (n.kind.fields.find? (·.label == l)).all fun f => f.slot.accepts (n.get l) then return n
        else throw (.misfit (.inContainer n.kind))) := by
  have haccepts (f : Field) : f.slot.accepts (m.get l) = f.slot.accepts (n.get l) :=
    Slot.accepts_sameCode (h.get l) f.slot
  simp only [(Node.sameCode_iff.mp h).1, haccepts]
  split
  · exact Builder.inStep_pure h
  · exact Builder.inStep_throw _

theorem build_inStep (r : Recipe) {c c' : Captures} (hc : c.SameCode c') :
    Builder.InStep Tree.SameCode (r.build c) (r.build c') := by
  unfold build
  split
  · exact Builder.inStep_pure (.refl _)
  · exact Template.build_inStep hc _
  · have hcontainer := (hc.captured? .container).bind fun x y hxy => hxy.1.node?
    refine (Builder.inStep_require hcontainer _ _).bind fun m n hmn => ?_
    rw [(Node.sameCode_iff.mp hmn).1]
    refine (Builder.inStep_require (.eq_self _) _ _).bind fun l l' hl => ?_
    subst hl
    refine (Template.build_inStep hc _).bind fun v w hvw => ?_
    exact inStep_container (filled_sameCode hmn l (built_sameCode hvw)) l

theorem replace_sameOutcome (r : Recipe) {c c' : Captures} (hc : c.SameCode c')
    (log log' : EditLog) :
    SameOutcome Tree.SameCode (r.replace c log).1 (r.replace c' log').1 := by
  have hsite : ((c.span? .site).getD .none).SameEnds ((c'.span? .site).getD .none) := by
    generalize c.span? .site = x, c'.span? .site = y, hc.span? .site = hxy
    cases hxy with
    | some hs => exact hs
    | none => exact ⟨rfl, rfl⟩
  have hbuild := r.build_inStep hc ⟨((c.span? .site).getD .none).start, []⟩
    ⟨((c'.span? .site).getD .none).start, []⟩ hsite.start
  unfold replace replaceInto
  dsimp only
  generalize (r.build c).run _ = x, (r.build c').run _ = y at hbuild ⊢
  cases hbuild with
  | ok h => exact .ok h.1
  | error e => exact .error e

/-- **Rewriting does not depend on layout**: values that spell the same code are matched alike,
metavariables and runs are bound to the same code, and the replacements spell the same code or fail
alike. -/
theorem replace_sameCode (r : Recipe) {v w : Tree} (hvw : v.sameCode w = true) :
    (r.matchNode? v).isSome = (r.matchNode? w).isSome ∧
      ∀ c c', r.matchNode? v = some c → r.matchNode? w = some c' →
        (∀ name, Option.Rel (fun x y => x.1.sameCode y.1 = true) (c.metavar? name)
          (c'.metavar? name)) ∧
        (∀ key, Option.Rel (fun x y => List.Forall₂ (fun t u => t.sameCode u = true) x.1 y.1)
          (c.run? key) (c'.run? key)) ∧
        ∀ log log', SameOutcome (fun t u => t.sameCode u = true) (r.replace c log).1
          (r.replace c' log').1 := by
  have hmatch := r.matchNode?_sameCode hvw
  refine ⟨hmatch.isSome_eq, fun c c' h h' => ?_⟩
  rw [h, h'] at hmatch
  cases hmatch with
  | some hc =>
    refine ⟨fun name => ?_, fun key => ?_, r.replace_sameOutcome hc⟩
    · exact (hc.metavar? name).imp fun _ _ hx => hx.1
    · exact (hc.run? key).imp fun _ _ hx => hx.1

/-- Here a call is matched in two layouts; one metavariable occurs twice, and a wildcard skips one
of the arguments in between. -/
theorem replace_sameCode_call :
    ∃ r v w c c', compilePatchFile "@@\nvar x expression\n@@\n-f(x, ..., x)\n+g(..., x)\n".toList =
      .ok [r] ∧
      v.sameCode w = true ∧ v ≠ w ∧ r.matchNode? v = some c ∧ r.matchNode? w = some c' ∧
      SameOutcome (fun t u => t.sameCode u = true) (r.replace c .empty).1
      (r.replace c' .empty).1 := by
  have hpasses : passes "@@\nvar x expression\n@@\n-f(x, ..., x)\n+g(..., x)\n"
      "package p\n\nvar a = f(1, 2, 1)\n" (fun r file =>
        (parseFile .code "package p\n\nvar a = f(\n1, 2,\n1)\n".toList).toOption.any fun file' =>
          (file.tree.codeNodes.find? (·.isKind .callExpr)).any fun v =>
            (file'.tree.codeNodes.find? (·.isKind .callExpr)).any fun w =>
              v.sameCode w && !(v == w) && (r.matchNode? v).isSome) = true := by decide +kernel
  obtain ⟨r, file, hr, -, hcheck⟩ := exists_of_passes hpasses
  obtain ⟨file', -, hcheck⟩ := exists_of_any_toOption hcheck
  obtain ⟨v, -, hcheck⟩ := (Option.any_eq_true _ _).mp hcheck
  obtain ⟨w, -, hcheck⟩ := (Option.any_eq_true _ _).mp hcheck
  simp only [Bool.and_eq_true, Bool.not_eq_true', beq_eq_false_iff_ne] at hcheck
  obtain ⟨⟨hvw, hne⟩, hsome⟩ := hcheck
  obtain ⟨hboth, hresults⟩ := r.replace_sameCode hvw
  obtain ⟨c, hc⟩ := Option.isSome_iff_exists.mp hsome
  obtain ⟨c', hc'⟩ := Option.isSome_iff_exists.mp (hboth.symm.trans hsome)
  exact ⟨r, v, w, c, c', hr, hvw, hne, hc, hc', (hresults c c' hc hc').2.2 .empty .empty⟩

end Recipe

end Graft
