import Graft.Proofs.Change.EditLog
import Graft.Proofs.Match.Regions
import Graft.Proofs.Recipe.Wildcards

/-! # What replacing a stretch marks

The site of a match in a container is all of the list from where the match began, although only a
stretch of it is replaced.  What cuts the site back is that the template puts in again what was
skipped before and behind the stretch, and spares the ranges of these runs
(`Template.mem_spared_ofWindow`).  In a list whose elements stand apart the range of a run reaches
up to its neighbours, so that of the site there is left what lies between the beginning of the first
element of the stretch and the end of the last one (`Pattern.exists_window_within`).
-/

namespace Graft

/-! ### What is built for a stretch -/

namespace Template

open Builder

variable {c : Captures} {d d' : Draft}

/-- The range of a run that is put in is spared. -/
theorem mem_spared_of_splice {items : List TemplateItem} {k : Key} {dots : Pos}
    (hmem : .splice (some k) dots ∈ items) {run : List Tree} {span : Span}
    (hrun : c.run? k = some (run, span)) {vs : List Tree}
    (h : (buildItems c items).run d = .ok (vs, d')) : span ∈ d'.spared := by
  induction items generalizing d vs with
  | nil => cases hmem
  | cons item items ih =>
    cases item with
    | one t =>
      have hmem : .splice (some k) dots ∈ items := by simpa using hmem
      rw [buildItems] at h
      obtain ⟨value, d₁, -, h⟩ := exists_of_run_bind h
      obtain ⟨values, d₂, hitems, h⟩ := exists_of_run_bind h
      cases h
      exact ih hmem hitems
    | splice key dots' =>
      obtain ⟨run', span', us, d₁, hrun', hspared, hitems, -⟩ := exists_of_run_splice h
      rcases List.mem_cons.mp hmem with heq | hmem
      · cases heq
        rw [Option.bind_some, hrun] at hrun'
        cases hrun'
        exact buildItems_keepsSpared c items _ _ _ hitems hspared
      · exact ih hmem hitems

/-- **What is built for a stretch spares what was skipped on either side of it.** -/
theorem mem_spared_ofWindow {metas : MetaTable} {a : Pairing} {ts : List Tree} {head tail : Bool}
    (hhead : head = false → c.get? .head = none) (htail : tail = false → c.get? .tail = none)
    {v : Tree} (h : ((ofWindow metas a ts head tail).build c).run d = .ok (v, d')) {k : Key}
    (hk : k = .head ∨ k = .tail) {run : List Tree} {span : Span}
    (hrun : c.run? k = some (run, span)) : span ∈ d'.spared := by
  rw [ofWindow, build] at h
  obtain ⟨vs, d₁, h₁, h⟩ := exists_of_run_bind h
  cases h
  suffices hmem : TemplateItem.splice (some k) .none ∈ _ from mem_spared_of_splice hmem hrun h₁
  rcases hk with rfl | rfl
  · cases head with
    | true => simp
    | false =>
      rw [Captures.run?, hhead rfl] at hrun
      cases hrun
  · cases tail with
    | true => simp
    | false =>
      rw [Captures.run?, htail rfl] at hrun
      cases hrun

end Template

/-! ### What is left of the site -/

namespace Pattern

variable {metas : MetaTable} {ts us : List Tree} {head tail : Bool} {base e : Captures}

/-- What is skipped before or behind a stretch has a range on record that reaches up to the stretch,
unless there is nothing. -/
theorem skipped_fits (hts : Tree.WildcardsApart ts) (hne : ts ≠ [])
    (hhead : head = !(ts.head?.bind Tree.wildcard?).isSome) (hc : base.get? .head = none)
    (hc' : base.get? .tail = none) (hapart : Tree.AreApart us)
    (h : (ofWindow metas ts head tail).match? (.list us) base = some e) :
    (e.skipped .head = [] ∨ ∃ span after, us = e.skipped .head ++ after ∧
      e.run? .head = some (e.skipped .head, span) ∧ span.FitsRun [] (e.skipped .head) after) ∧
    (e.skipped .tail = [] ∨ ∃ before span, us = before ++ e.skipped .tail ∧
      e.run? .tail = some (e.skipped .tail, span) ∧ span.FitsRun before (e.skipped .tail) []) := by
  obtain ⟨hbefore, hbehind⟩ := skipped_eq_nil hc hc' h
  obtain ⟨front, sections, heq, hwindow⟩ := exists_runs_ofWindow metas tail hts hne hhead
  rw [heq] at h
  obtain ⟨first, parts, c₀, rfl, hmatched, hplaced⟩ := (match?_runs_iff_placed hwindow.ne_nil).mp h
  constructor
  · cases head with
    | false => exact .inl (hbefore rfl)
    | true =>
      obtain ⟨rfl, ps, rest, hsection⟩ := hwindow.first rfl
      obtain rfl : first = [] := List.length_eq_zero_iff.mp (length_eq_of_matchAll hmatched)
      obtain ⟨run, span, after, hcut, hrun, hfits⟩ :=
        hplaced.exists_fits_first hwindow.nodup hwindow.free hapart hsection
      obtain rfl := Captures.skipped_of_run? hrun
      exact .inr ⟨span, after, hcut, hrun, hfits⟩
  · cases tail with
    | false => exact .inl (hbehind rfl)
    | true =>
      obtain ⟨rest, hsection⟩ := hwindow.last rfl
      obtain ⟨before, run, span, hcut, hrun, hfits⟩ :=
        hplaced.exists_fits_last hwindow.nodup hwindow.free hapart hsection
      obtain rfl := Captures.skipped_of_run? hrun
      exact .inr ⟨before, span, hcut, hrun, hfits⟩

/-- **Outside of what is skipped, a list is the stretch**: a position between the beginning of the
list and its end which is not in the range of what is skipped before or behind the stretch lies
between the beginning of the first element of the stretch and the end of the last one. -/
theorem exists_window_within (hts : Tree.WildcardsApart ts) (hne : ts ≠ [])
    (hhead : head = !(ts.head?.bind Tree.wildcard?).isSome)
    (htail : tail = !(ts.getLast?.bind Tree.wildcard?).isSome) (hc : base.get? .head = none)
    (hc' : base.get? .tail = none) (hapart : Tree.AreApart us)
    (h : (ofWindow metas ts head tail).match? (.list us) base = some e) :
    ∃ window, us = e.skipped .head ++ window ++ e.skipped .tail ∧
      ∀ {x y p}, us.head? = some x → us.getLast? = some y → x.start ≤ p → p < y.stop →
        (∀ k run span, k = .head ∨ k = .tail → e.run? k = some (run, span) → ¬ span.Holds p) →
        ∃ t u, window.head? = some t ∧ window.getLast? = some u ∧ t.start ≤ p ∧ p < u.stop := by
  obtain ⟨front, parts, hcut, -, -⟩ := exists_cut (sections_ne_nil hne hhead) hc hc' h
  refine ⟨front ++ elements parts, hcut, fun {x y p} hx hy hle hlt hnot => ?_⟩
  obtain ⟨window, hwindow, hcut'⟩ :=
    exists_window hne hhead htail hc hc' (List.ne_nil_of_mem (List.mem_of_head? hx)) h
  obtain rfl : front ++ elements parts = window :=
    List.append_cancel_left (List.append_cancel_right (hcut.symm.trans hcut'))
  generalize front ++ elements parts = window at hwindow hcut
  obtain ⟨hfirst, hlast⟩ := skipped_fits hts hne hhead hc hc' hapart h
  have ht := List.head?_eq_some_head hwindow
  have hu := List.getLast?_eq_some_getLast hwindow
  refine ⟨_, _, ht, hu, ?_, ?_⟩
  · rw [List.append_assoc] at hcut
    have ht' : (window ++ e.skipped .tail).head? = some (window.head hwindow) := by
      rw [List.head?_append, ht, Option.some_or]
    rcases hfirst with hnil | ⟨span, after, hafter, hrun, hfits⟩
    · rw [hcut, hnil, List.nil_append, ht'] at hx
      cases hx
      exact hle
    · obtain rfl := List.append_cancel_left (hafter.symm.trans hcut)
      rw [hcut] at hx
      exact hfits.start_le hx ht' hle (hnot _ _ _ (.inl rfl) hrun)
  · have hu' : (e.skipped .head ++ window).getLast? = some (window.getLast hwindow) := by
      rw [List.getLast?_append, hu, Option.some_or]
    rcases hlast with hnil | ⟨before, span, hbefore, hrun, hfits⟩
    · rw [hcut, hnil, List.append_nil, hu'] at hy
      cases hy
      exact hlt
    · obtain rfl := List.append_cancel_right (hbefore.symm.trans hcut)
      rw [hcut] at hy
      exact hfits.lt_stop hy hu' hlt (hnot _ _ _ (.inr rfl) hrun)

end Pattern

/-! ### Replacing a stretch -/

namespace Recipe

variable {r : Recipe} {base c : Captures} {level : Level} {pattern : Pattern}
  {template : Template} {n : Node}
  {l : Label} {offset : Nat}

/-- The site of a match in a container reaches from the first of the elements that are looked at to
the last. -/
theorem exists_of_site_holds (h : matchWindow? n l offset pattern base = some c) {p : Pos}
    (hp : ((c.visible.span? .site).getD .none).Holds p) :
    ∃ x y, ((n.list l).drop offset).head? = some x ∧ ((n.list l).drop offset).getLast? = some y ∧
      x.start ≤ p ∧ p < y.stop := by
  unfold matchWindow? at h
  dsimp only at h
  split at h
  · cases h
  · obtain ⟨c₁, -, rfl⟩ := Option.map_eq_some_iff.mp h
    rw [Captures.span?, Captures.get?_visible, Captures.get?_bind, if_pos rfl] at hp
    dsimp only [Option.getD_some] at hp
    split at hp
    · rename_i x y hx hy
      exact ⟨x, y, hx, hy, hp.2⟩
    · cases hp.1

/-- A committed replacement changes what the site of the match holds, but for what is skipped before
and behind the stretch. -/
theorem changed_of_replaceInto {metas : MetaTable} {a : Pairing} {plus : List Tree}
    {head tail : Bool} (hbody : r.body = .window level pattern (.ofWindow metas a plus head tail))
    (hfirst : head = false → c.get? .head = none) (hlast : tail = false → c.get? .tail = none)
    {log log' : EditLog} (hlog : log.Normal) {slot : Option Slot} {old : Option Node} {value : Tree}
    (h : r.replaceInto c.visible log slot old = (.ok (some value), log')) {p : Pos}
    (hp : log'.changed.contains p = true) :
    log.commit.changed.contains p = true ∨ (((c.visible.span? .site).getD .none).Holds p ∧
      ∀ k run span, k = .head ∨ k = .tail → c.run? k = some (run, span) → ¬ span.Holds p) := by
  rcases replaceInto_cases r c.visible log slot old with ⟨e, he, -⟩ | ⟨value', draft, hbuilt, -,
    hnone | hsome⟩
  · rw [h] at he
    cases he
  · rw [h] at hnone
    cases hnone
  · rw [h] at hsome
    cases hsome
    obtain ⟨-, -, built, -, -, -, htemplate, -⟩ := exists_of_build hbody hbuilt
    rw [← c.get?_visible] at hfirst hlast
    refine (hlog.contains_changed_replace hp).imp_right fun ⟨hsite, hspared⟩ => ⟨hsite, ?_⟩
    intro k run span hk hrun
    rw [← Captures.run?_congr (c.get?_visible k)] at hrun
    exact hspared span (Template.mem_spared_ofWindow hfirst hlast htemplate hk hrun)

/-- **Replacing a stretch changes nothing outside of it**, for every recipe that was compiled and
every container in which the elements of the list stand apart.  A match, which goes on from captures
without runs as a header leaves them, cuts the elements that it looks at in what is skipped before
the stretch, the stretch, and what is skipped behind it.  A replacement that is committed changes a
position only between the beginning of the first element of the stretch and the end of the last one,
unless what was pending in the log changes it anyway.  The range on record for each run of the list
covers the elements of the run, and meets no element that is matched one by one. -/
theorem replaceInto_marks_window {text : List Char} {rs : List Recipe}
    (hrs : compilePatchFile text = .ok rs) (hr : r ∈ rs)
    (hbody : r.body = .window level pattern template)
    (hbase : ∀ k, k.isRun = true → base.get? k = none) (hapart : Tree.AreApart (n.list l))
    (hmatch : matchWindow? n l offset pattern base = some c) :
    (∃ window, (n.list l).drop offset = c.skipped .head ++ window ++ c.skipped .tail ∧
      ∀ {log log' : EditLog} {slot : Option Slot} {old : Option Node} {value : Tree}, log.Normal →
        r.replaceInto c.visible log slot old = (.ok (some value), log') →
        ∀ p, log'.changed.contains p = true → log.commit.changed.contains p = true ∨
          ∃ t u, window.head? = some t ∧ window.getLast? = some u ∧ t.start ≤ p ∧ p < u.stop) ∧
    ∃ front sections first parts c₀ e, pattern = .runs front sections ∧
      (n.list l).drop offset = first ++ Pattern.elements parts ∧
      Pattern.matchAll Pattern.replays front first base = some c₀ ∧
      Pattern.Placed first sections c₀ parts e ∧
      List.Forall₂ (fun s x => ∃ span, c.run? s.1 = some (x.run, span) ∧
        (∀ t ∈ x.run, span.start ≤ t.start ∧ t.stop ≤ span.stop) ∧
        ∀ u ∈ first ++ parts.flatMap (·.items), u.stop ≤ span.start ∨
        span.stop ≤ u.start) sections parts := by
  obtain ⟨patch, hpatch, minus, plus, head, tail, hminus, hne, hhead, htail, rfl, rfl⟩ :=
    exists_ofWindow_of_mem hrs hr hbody
  have hts : Tree.WildcardsApart minus := by
    rw [hminus]
    exact Patch.wildcardsApart hpatch
  obtain ⟨e, hfound, hsame⟩ := exists_found_of_matchWindow? hmatch
  have hnone₁ : base.get? .head = none := hbase _ rfl
  have hnone₂ : base.get? .tail = none := hbase _ rfl
  have hapart := hapart.sublist (List.drop_sublist offset _)
  constructor
  · obtain ⟨window, hcut, hwithin⟩ :=
      Pattern.exists_window_within hts hne hhead htail hnone₁ hnone₂ hapart hfound
    obtain ⟨hfirst, hlast⟩ := Pattern.get?_of_ofWindow hnone₁ hnone₂ hfound
    rw [← Captures.skipped_congr (hsame rfl), ← Captures.skipped_congr (hsame rfl)] at hcut
    rw [← hsame rfl] at hfirst hlast
    refine ⟨window, hcut, fun hlog hreplaced p hp => ?_⟩
    refine (changed_of_replaceInto hbody hfirst hlast hlog hreplaced hp).imp_right
      fun ⟨hsite, hspared⟩ => ?_
    obtain ⟨x, y, hx, hy, hle, hlt⟩ := exists_of_site_holds hmatch hsite
    refine hwithin hx hy hle hlt fun k run span hk hrun => hspared k run span hk ?_
    rw [Captures.run?_congr (hsame (by rcases hk with rfl | rfl <;> rfl))]
    exact hrun
  · obtain ⟨front, sections, heq, hwindow⟩ :=
      Pattern.exists_runs_ofWindow patch.metaTable tail hts hne hhead
    rw [heq] at hfound
    obtain ⟨first, parts, c₀, hcut, hmatched, hplaced⟩ :=
      (Pattern.match?_runs_iff_placed hwindow.ne_nil).mp hfound
    rw [hcut] at hapart
    refine ⟨front, sections, first, parts, c₀, e, heq, hcut, hmatched, hplaced, ?_⟩
    have hfits := (List.forall₂_and_left sections parts).mpr
      ⟨hwindow.isRun, hplaced.runs_fit hwindow.nodup hwindow.free hapart⟩
    refine hfits.imp fun s x ⟨hrun, span, hspan, hfit⟩ => ⟨span, ?_, hfit⟩
    rw [Captures.run?_congr (hsame hrun)]
    exact hspan

/-- Here one statement is skipped on either side of three: two of these have changed, and the run
between them has not. -/
theorem replaceInto_marks_middle :
    ∃ r file base n pattern template c value log window,
      compilePatchFile "@@\n@@\n-f()\n+g()\n ...\n k()\n".toList = .ok [r] ∧
      parseFile .code "package p\n\nfunc m() \x7b\n\th()\n\tf()\n\th()\n\tk()\n\th()\n\x7d\n".toList
      = .ok file ∧
      r.body = .window .stmts pattern template ∧ r.matchHeader? file = some base ∧
      n ∈ file.tree.nodes ∧
      Tree.AreApart (n.list .list) ∧ matchWindow? n .list 0 pattern base = some c ∧
      r.replaceInto c.visible .empty none (some n) = (.ok (some value), log) ∧
      n.list .list = c.skipped .head ++ window ++ c.skipped .tail ∧ (c.skipped .head).length = 1 ∧
      (c.skipped .tail).length = 1 ∧ log.changed.size = 2 ∧
      ∀ p, log.changed.contains p = true →
        ∃ t u, window.head? = some t ∧ window.getLast? = some u ∧ t.start ≤ p ∧ p < u.stop := by
  have hpasses : passesWindow "@@\n@@\n-f()\n+g()\n ...\n k()\n"
      "package p\n\nfunc m() \x7b\n\th()\n\tf()\n\th()\n\tk()\n\th()\n\x7d\n"
      (fun r file pattern base =>
        file.tree.nodes.any fun n =>
          decide (Tree.AreApart (n.list .list)) &&
            (matchWindow? n .list 0 pattern base).any fun c =>
            (c.skipped .head).length == 1 && (c.skipped .tail).length == 1 &&
              (r.replaceInto c.visible .empty none (some n)).1.toOption.any (·.isSome) &&
                (r.replaceInto c.visible .empty none (some n)).2.changed.size == 2) = true := by
                decide +kernel
  obtain ⟨r, file, pattern, template, base, hrs, hfile, hbody, hheader, hcheck⟩ :=
    exists_of_passesWindow hpasses
  obtain ⟨n, hn, hcheck⟩ := List.any_eq_true.mp hcheck
  obtain ⟨hapart, hcheck⟩ := (Bool.and_eq_true _ _).mp hcheck
  have hapart := of_decide_eq_true hapart
  obtain ⟨c, hmatch, hcheck⟩ := (Option.any_eq_true _ _).mp hcheck
  simp only [Bool.and_eq_true, beq_iff_eq] at hcheck
  obtain ⟨⟨⟨hfirst, hlast⟩, hok⟩, hsize⟩ := hcheck
  obtain ⟨filled, hok, hsome⟩ := exists_of_any_toOption hok
  obtain ⟨value, rfl⟩ := Option.isSome_iff_exists.mp hsome
  have hreplaced : r.replaceInto c.visible .empty none (some n) = (.ok (some value), _) :=
    Prod.ext hok rfl
  have hbase (k : Key) (hk : k.isRun = true) : base.get? k = none := get?_of_matchHeader? hheader hk
  obtain ⟨⟨window, hcut, hmarks⟩, -⟩ :=
    replaceInto_marks_window hrs List.mem_cons_self hbody hbase hapart hmatch
  refine ⟨r, file, base, n, pattern, template, c, value, _, window, hrs, hfile, hbody,
    hheader, hn, hapart, hmatch, hreplaced, hcut, hfirst, hlast, hsize, fun p hp => ?_⟩
  rcases hmarks EditLog.normal_empty hreplaced p hp with hpending | hwithin
  · rw [show EditLog.empty.commit.changed = .empty from rfl, SpanSet.contains_empty] at hpending
    cases hpending
  · exact hwithin

end Recipe

end Graft
