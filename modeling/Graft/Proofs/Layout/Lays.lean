import Graft.Proofs.Layout.Shape

/-! # Layouts follow the fields

The layout of a node goes through its fields in order: it has the tokens that the fields record and
the nodes in them, and between them separators and tokens that are not recorded.
`Lays page all ink fs ts is` says so of the items `is` and the values `ts` of the fields `fs`, for a
node whose field values are `all`.

Before the first token or node from the source nothing is printed, and nothing but separators stands
behind the last; `Ink` keeps track of this.  So a node is printed from its beginning to its end
wherever it is laid out.

Some nodes are not printed by themselves but laid out within their parent: the types of functions
that have a name, and, unless they are copied, field lists in braces and the bodies of switches.

That the layouts of all nodes that are read are like this (`Node.Shaped.lays`) is a check of the
rows of the grammar.
-/

namespace Graft

/-- What has been printed of a node. -/
inductive Ink where
  | none
  /-- Something, with a token at the end that is not from the source. -/
  | new
  /-- Something, with a token or node from the source at the end. -/
  | source

/-- Whether an item prints nothing by itself. -/
def Item.isPause : Item → Bool
  | .gap _ | .deeper | .shallower => true
  | _ => false

/-- Whether the value of a field is nothing to be printed. -/
def Tree.isSilent : Tree → Bool
  | .pos p => !p.isValid
  | .nil | .str _ | .tok _ | .list [] => true
  | _ => false

/-- Whether the items lay out the values `ts` of the fields `fs` in order. -/
inductive Lays (page : Page) : List Tree → Ink → List Field → List Tree → List Item → Prop where
  | nil {all : List Tree} : Lays page all .source [] [] []
  | pause {all ts : List Tree} {m : Ink} {fs : List Field} {i : Item} {is : List Item}
      (hi : i.isPause = true) (hm : m ≠ .none) (h : Lays page all m fs ts is) :
    Lays page all m fs ts (i :: is)
  | bare {all ts : List Tree} {m : Ink} {fs : List Field} {text : String} {is : List Item}
      (hm : m ≠ .none) (h : Lays page all .new fs ts is) : Lays page all m fs ts (.bare text :: is)
  | absent {all ts : List Tree} {m : Ink} {fs : List Field} {is : List Item}
      (h : Lays page all m fs ts is) : Lays page all m fs ts (.tree .nil :: is)
  | silent {all ts : List Tree} {m : Ink} {f : Field} {fs : List Field} {t : Tree} {is : List Item}
      (ht : t.isSilent = true) (h : Lays page all m fs ts is) : Lays page all m
      (f :: fs) (t :: ts) is
  | token {all ts : List Tree} {m : Ink} {f : Field} {fs : List Field} {p : Pos} {text : String}
      {is : List Item} (w : Width) (hslot : f.slot = .pos w)
      (hwidth : Tree.tokenWidth all w = text.utf8ByteSize) (htext : page.hasText p text = true)
      (h : Lays page all .source fs ts is) :
    Lays page all m (f :: fs) (.pos p :: ts) (.token p text :: is)
  | tree {all ts : List Tree} {m : Ink} {f : Field} {fs : List Field} {t : Tree} {is : List Item}
      (ht : t.isPlain page = true) (h : Lays page all .source fs ts is) :
    Lays page all m (f :: fs) (t :: ts) (.tree t :: is)
  | item {all xs ts : List Tree} {m : Ink} {f : Field} {fs : List Field} {x : Tree} {is : List Item}
      (hx : x.isPlain page = true) (h : Lays page all .source (f :: fs) (.list xs :: ts) is) :
    Lays page all m (f :: fs) (.list (x :: xs) :: ts) (.tree x :: is)
  /-- A node in braces that is copied. -/
  | copied {all gs ts : List Tree} {m : Ink} {f : Field} {fs : List Field} {k : Kind}
      {is : List Item}
      (hn : (page.copy? ⟨k, gs⟩).isSome = true) (h : Lays page all .source fs ts is) :
    Lays page all m (f :: fs) (.node k gs :: ts) (.tree (.node k gs) :: is)
  /-- A node that is laid out within its parent. -/
  | opened {all gs ts : List Tree} {m : Ink} {f : Field} {fs : List Field} {k : Kind}
      {is js : List Item}
      (hk : k = .funcType ∨ page.copy? ⟨k, gs⟩ = none) (hcode : k.isComment = false)
      (hgs : Lays page gs m k.fields gs is) (h : Lays page all .source fs ts js) :
    Lays page all m (f :: fs) (.node k gs :: ts) (is ++ js)

theorem Token.isFixed_of_mem {toks : List Token} {tok : Token}
    (hall : toks.all Token.isFixed = true) (h : tok ∈ toks) : tok.isFixed = true :=
      List.all_eq_true.mp hall tok h

namespace Lays

variable {page : Page} {all ts xs : List Tree} {m : Ink} {f g : Field} {fs : List Field}
  {is : List Item} {p : Pos} {x : Tree}

theorem mark {tok : Token} (hrec : f.slot.records tok = true)
    (hp : tok.carriesText = false → page.hasText p tok.text = true)
    (h : Lays page all .source fs ts is) :
    Lays page all m (f :: fs) (.pos p :: ts) (.token p tok.text :: is) := by
  obtain ⟨w, hslot, hcarries⟩ := Slot.exists_of_records hrec
  rw [hslot] at hrec
  exact .token w hslot (Derives.tokenWidth_of_records hrec) (hp hcarries) h

theorem markIn {tok : Token} {i : Nat} (hslot : f.slot = .pos (.ofField i))
    (hi : all[i]? = some (.tok tok)) (hfixed : tok.isFixed = true)
    (hp : tok.carriesText = false → page.hasText p tok.text = true)
    (h : Lays page all .source fs ts is) :
    Lays page all m (f :: g :: fs) (.pos p :: .tok tok :: ts) (.token p tok.text :: is) := by
  obtain ⟨hcarries, hne⟩ := Token.isFixed_iff.mp hfixed
  exact .token _ hslot (Derives.tokenWidth_ofField hi hne) (hp hcarries) (.silent rfl h)

theorem gap (s : Separator) (h : Lays page all .source fs ts is) :
    Lays page all .source fs ts (.gap s :: is) := .pause rfl nofun h

/-- More may have been printed, or the last token may be from the source. -/
theorem mono {m' : Ink} (h : Lays page all m fs ts is) (hm : m = .none ∨ m' = .source) :
    Lays page all m' fs ts is := by
  have hne {m : Ink} (hm : m = .none ∨ m' = .source) (hne : m ≠ .none) : m' ≠ .none := by
    obtain rfl := hm.resolve_left hne
    nofun
  induction h with
  | nil =>
    obtain rfl := hm.resolve_left nofun
    exact .nil
  | pause hi hm' _ ih => exact .pause hi (hne hm hm') (ih hm)
  | bare hm' h => exact .bare (hne hm hm') h
  | absent _ ih => exact .absent (ih hm)
  | silent ht _ ih => exact .silent ht (ih hm)
  | token w hslot hwidth htext h => exact .token w hslot hwidth htext h
  | tree ht h => exact .tree ht h
  | item hx h => exact .item hx h
  | copied hn h => exact .copied hn h
  | opened hk hcode _ h ih => exact .opened hk hcode (ih hm) h

/-- A node that may be missing. -/
theorem opt (hx : x = .nil ∨ x.isPlain page = true) (h : Lays page all m fs ts is) :
    Lays page all m (f :: fs) (x :: ts) (.tree x :: is) := by
  rcases hx with rfl | hx
  · exact .absent (.silent rfl h)
  · exact .tree hx (h.mono (.inr rfl))

theorem ifPresent {js : List Item} (hx : x = .nil ∨ x.isPlain page = true)
    (hnil : Lays page all m fs ts is)
    (h : x.isPlain page = true → Lays page all m (f :: fs) (x :: ts) (js ++ is)) :
    Lays page all m (f :: fs) (x :: ts) (Item.ifPresent x js ++ is) := by
  rcases hx with rfl | hx
  · exact .silent rfl hnil
  · cases x with
    | node k gs => exact h hx
    | _ => cases hx

/-- The comment above a node. -/
theorem doc (hx : x = .nil ∨ x.isPlain page = true) (h : Lays page all .none fs ts is) :
    Lays page all .none (f :: fs) (x :: ts) (Item.ifPresent x [.tree x, .gap .newline] ++ is) :=
  .ifPresent hx h fun hx => .tree hx (.gap _ (h.mono (.inl rfl)))

theorem separated (s : Separator) (hne : xs ≠ []) (hxs : ∀ x ∈ xs, x.isPlain page = true)
    (h : Lays page all .source fs ts is) :
    Lays page all m (f :: fs) (.list xs :: ts) (Item.separated s xs ++ is) := by
  fun_induction Item.separated s xs generalizing m with
  | case1 => exact absurd rfl hne
  | case2 x => exact .item (hxs x (by simp)) (.silent rfl h)
  | case3 x xs hnil ih =>
    obtain ⟨hx, hxs⟩ := List.forall_mem_cons.mp hxs
    refine .item hx (.gap s (ih ?_ hxs))
    rintro rfl
    exact hnil rfl

theorem separated_source (s : Separator) (hxs : ∀ x ∈ xs, x.isPlain page = true)
    (h : Lays page all .source fs ts is) :
    Lays page all .source (f :: fs) (.list xs :: ts) (Item.separated s xs ++ is) := by
  by_cases hne : xs = []
  · subst hne
    exact .silent rfl h
  · exact .separated s hne hxs h

theorem preceded (s : Separator) (hxs : ∀ x ∈ xs, x.isPlain page = true)
    (h : Lays page all .source fs ts is) :
    Lays page all .source (f :: fs) (.list xs :: ts) (Item.preceded s xs ++ is) := by
  induction xs with
  | nil => exact .silent rfl h
  | cons x xs ih =>
    obtain ⟨hx, hxs⟩ := List.forall_mem_cons.mp hxs
    exact .gap s (.item hx (ih hxs))

/-! At the end of a layout there are no items behind. -/

theorem last (h : Lays page all m fs ts (is ++ [])) : Lays page all m fs ts is := by
  rwa [List.append_nil] at h

end Lays

/-! ### Layouts with parts of their own -/

namespace Layout

variable {page : Page} {all xs : List Tree} {m : Ink} {f g : Field} {p q : Pos}

theorem lays_signature {x params results : Tree} (hparams : params.isPlain page = true)
    (hresults : results = .nil ∨ results.isPlain page = true) :
    Lays page all m [f, g] [params, results] (signature ⟨.funcType, [x, params, results]⟩) := by
  cases params with
  | node k gs =>
    rcases hresults with rfl | hresults
    · exact .tree hparams (.silent rfl .nil)
    · cases results with
      | node k' gs' => exact .tree hparams (.gap _ (.tree hresults .nil))
      | _ => cases hresults
  | _ => cases hparams

theorem lays_block (indented : Bool) (hp : page.hasText p "\x7b" = true)
    (hq : page.hasText q "\x7d" = true) (hxs : ∀ x ∈ xs, x.isPlain page = true) :
    Lays page [.pos p, .list xs, .pos q] m (Kind.fields .blockStmt) [.pos p, .list xs, .pos q]
      (block page indented ⟨.blockStmt, [.pos p, .list xs, .pos q]⟩) := by
  have hclose : Lays page [.pos p, .list xs, .pos q] .source [Kind.fixed .rbrace "\x7d"] [.pos q]
      [.token q "\x7d"] := .token _ rfl rfl hq .nil
  have hlist : Node.list ⟨.blockStmt, [.pos p, .list xs, .pos q]⟩ .list = xs := rfl
  simp only [block, hlist, List.append_assoc]
  refine .token _ rfl rfl hp ?_
  change Lays page _ _ _ _ (_ ++ [.token q "\x7d"])
  split
  · rename_i hnil
    obtain rfl := List.isEmpty_iff.mp hnil
    split
    · exact .gap _ (.silent rfl hclose)
    · exact .silent rfl hclose
  · rename_i hne
    rw [List.isEmpty_iff] at hne
    cases indented with
    | true =>
      simp only [if_true]
      split
      · simp only [List.append_assoc, List.cons_append, List.nil_append]
        exact .pause rfl nofun (.gap _ (.separated _ hne hxs (.pause rfl nofun (.gap _ hclose))))
      · simp only [List.append_assoc, List.cons_append, List.nil_append]
        exact .pause rfl nofun (.preceded _ hxs (.pause rfl nofun (.gap _ hclose)))
    | false =>
      simp only [Bool.false_eq_true, if_false]
      split
      · simp only [List.append_assoc, List.cons_append, List.nil_append]
        exact .gap _ (.separated _ hne hxs (.gap _ hclose))
      · simp only [List.append_assoc, List.nil_append]
        exact .preceded _ hxs (.gap _ hclose)

theorem lays_bracedFields (hp : page.hasText p "\x7b" = true) (hq : page.hasText q "\x7d" = true)
    (hxs : ∀ x ∈ xs, x.isPlain page = true) :
    Lays page all .source [f] [.node .fieldList [.pos p, .list xs, .pos q]]
      (bracedFields page (some ⟨.fieldList, [.pos p, .list xs, .pos q]⟩)) := by
  have hlist : Node.list ⟨.fieldList, [.pos p, .list xs, .pos q]⟩ .list = xs := rfl
  simp only [bracedFields, hlist]
  split
  · rename_i hcopy
    exact .gap _ (.copied hcopy .nil)
  · rename_i hcopy
    have hcopy : page.copy? ⟨.fieldList, [.pos p, .list xs, .pos q]⟩ = none := by simpa using hcopy
    split
    · rename_i hnil
      obtain rfl := List.isEmpty_iff.mp hnil
      exact (Lays.opened (.inr hcopy) rfl
        (.token _ rfl rfl hp (.silent rfl (.token _ rfl rfl hq .nil))) .nil).last
    · simp only [List.cons_append, List.nil_append]
      refine .gap _ (Lays.opened (.inr hcopy) rfl
        (.token _ rfl rfl hp (.pause rfl nofun (.preceded _ hxs ?_))) .nil).last
      exact .pause rfl nofun (.gap _ (.token _ rfl rfl hq .nil))

theorem lays_switchBody {n : Node}
    (hn : n.node? .body = some ⟨.blockStmt, [.pos p, .list xs, .pos q]⟩)
    (hp : page.hasText p "\x7b" = true) (hq : page.hasText q "\x7d" = true)
    (hxs : ∀ x ∈ xs, x.isPlain page = true) :
    Lays page all .source [f] [.node .blockStmt [.pos p, .list xs, .pos q]]
    (switchBody page n) := by
  simp only [switchBody, hn]
  split
  · rename_i hcopy
    exact .copied hcopy .nil
  · rename_i hcopy
    exact (Lays.opened (.inr (by simpa using hcopy)) rfl (lays_block false hp hq hxs) .nil).last

theorem lays_field {d type tag : Tree} (hd : d = .nil ∨ d.isPlain page = true)
    (hxs : ∀ x ∈ xs, x.isPlain page = true) (htype : type.isPlain page = true)
    (htag : tag = .nil ∨ tag.isPlain page = true) :
    Lays page all .none (Kind.fields .field) [d, .list xs, type, tag]
      (field ⟨.field, [d, .list xs, type, tag]⟩) := by
  cases type with
  | node k gs =>
    have hplain : (k = .funcType && !(Node.posOf ⟨k, gs⟩ .func).isValid && !xs.isEmpty) =
        false := by
      by_cases hk : k = .funcType
      · subst hk
        have hvalid : (Node.posOf ⟨.funcType, gs⟩ .func).isValid = true := htype
        simp [hvalid]
      · simp [hk]
    have hnames : Node.list ⟨.field, [d, .list xs, .node k gs, tag]⟩ .names = xs := rfl
    have hget : Node.get ⟨.field, [d, .list xs, .node k gs, tag]⟩ .type = .node k gs := rfl
    simp only [field, hget, Tree.node?, hplain, hnames, List.append_assoc]
    refine .doc hd ?_
    have hrest {m : Ink} : Lays page all m [⟨.type, .node .expr⟩, ⟨.tag, .node .expr⟩]
        [.node k gs, tag]
        (.tree (.node k gs) :: Item.ifPresent tag [.gap .space, .tree tag]) :=
      .tree htype (Lays.ifPresent htag .nil fun htag => .gap _ (.tree htag .nil)).last
    cases xs with
    | nil => exact .silent rfl hrest
    | cons x xs => exact .separated _ nofun hxs (.gap _ hrest)
  | _ => cases htype

theorem lays_method {d params results : Tree} (hd : d = .nil ∨ d.isPlain page = true)
    (hne : xs ≠ []) (hxs : ∀ x ∈ xs, x.isPlain page = true) (hparams : params.isPlain page = true)
    (hresults : results = .nil ∨ results.isPlain page = true) :
    Lays page all .none (Kind.fields .field)
      [d, .list xs, .node .funcType [.pos .none, params, results], .nil]
      (field ⟨.field, [d, .list xs, .node .funcType [.pos .none, params, results], .nil]⟩) := by
  cases xs with
  | nil => exact absurd rfl hne
  | cons x xs =>
    simp only [field, List.append_assoc]
    refine .doc hd (.separated _ nofun hxs ?_)
    exact .opened (.inl rfl) rfl (.silent rfl (lays_signature hparams hresults)) (.silent rfl .nil)

end Layout

/-! ### The rows -/

namespace Row

variable {page : Page} {s : Phrase} {k : Kind} {ps : List Part} {ts : List Tree}

open Layout in
theorem lays_types (h : Row s k ps) (hk : k.chapter = .types) (hts : Part.Shape page ps ts)
    (hplain : (Tree.node k ts).isPlain page = true) :
    Lays page ts .none k.fields ts (items page ⟨k, ts⟩) := by
  cases h with
  | variadic =>
    obtain ⟨p, us, rfl, hp, x, us, rfl, hx, rfl⟩ := hts
    exact .mark rfl hp (.tree hx .nil)
  | array =>
    obtain ⟨p, us, rfl, hp, x, us, rfl, hx, y, us, rfl, hy, rfl⟩ := hts
    exact .mark rfl hp (.opt hx (.bare nofun (.tree hy .nil)))
  | openArray =>
    obtain ⟨p, us, rfl, hp, us, rfl, rfl⟩ := hts
    exact .mark rfl hp (.absent (.silent rfl .nil))
  | map =>
    obtain ⟨p, us, rfl, hp, x, us, rfl, hx, y, us, rfl, hy, rfl⟩ := hts
    exact .mark rfl hp (.bare nofun (.tree hx (.bare nofun (.tree hy .nil))))
  | struct | interface =>
    obtain ⟨p, us, rfl, hp, t, us, rfl, ⟨q, xs, r, rfl, hq, hr, hxs⟩, rfl⟩ := hts
    exact .mark rfl hp (lays_bracedFields hq hr fun x hx => (hxs x hx).elim id id)
  | func =>
    obtain ⟨p, us, rfl, hp, x, us, rfl, hx, y, us, rfl, hy, rfl⟩ := hts
    exact .mark rfl hp (lays_signature hx hy)
  | signature =>
    obtain ⟨us, rfl, -⟩ := hts
    cases hplain
  | params =>
    obtain ⟨p, us, rfl, hp, xs, us, rfl, hxs, q, us, rfl, hq, rfl⟩ := hts
    have hvalid := Page.isValid_of_hasText (hp rfl)
    have hbare : isBareResult ⟨.fieldList, [.pos p, .list xs, .pos q]⟩ = false := by
      change (!p.isValid && _) = false
      rw [hvalid]
      rfl
    simp only [items, paramList, hbare, List.append_assoc]
    exact .mark rfl hp (.separated_source _ hxs (.gap _ (.mark rfl hq .nil)))
  | bareResult =>
    obtain ⟨us, rfl, t, us, rfl, ⟨x, rfl, type, rfl, htype⟩, us, rfl, rfl⟩ := hts
    exact .silent rfl (.item rfl (.silent rfl (.silent rfl .nil)))
  | bareField | entry | dotsEntry | dotsMember =>
    obtain ⟨us, rfl, us, rfl, x, us, rfl, hx, us, rfl, rfl⟩ := hts
    exact lays_field (.inl rfl) nofun hx (.inl rfl)
  | namedEntry =>
    obtain ⟨us, rfl, t, us, rfl, ⟨name, rfl, hname⟩, x, us, rfl, hx, us, rfl, rfl⟩ := hts
    exact lays_field (.inl rfl) (List.forall_mem_singleton.mpr hname) hx (.inl rfl)
  | members =>
    obtain ⟨p, us, rfl, hp, -⟩ := hts
    have hbrace : page.hasText p "\x7b" = true := hp rfl
    change (!page.hasText p "\x7b") = true at hplain
    rw [hbrace] at hplain
    cases hplain
  | embedded =>
    obtain ⟨d, us, rfl, hd, us, rfl, x, us, rfl, hx, y, us, rfl, hy, rfl⟩ := hts
    exact lays_field hd nofun hx hy
  | embeddedType =>
    obtain ⟨d, us, rfl, hd, us, rfl, x, us, rfl, hx, us, rfl, rfl⟩ := hts
    exact lays_field hd nofun hx (.inl rfl)
  | named =>
    obtain ⟨d, us, rfl, hd, t, us, rfl, ⟨xs, rfl, -, hxs⟩, x, us, rfl, hx, y, us, rfl, hy, rfl⟩ :=
      hts
    exact lays_field hd hxs hx hy
  | method =>
    obtain ⟨d, us, rfl, hd, t, us, rfl, ⟨name, rfl, hname⟩, x, us, rfl, hx, us, rfl, rfl⟩ := hts
    obtain ⟨params, results, rfl, hparams, hresults⟩ := hx
    exact lays_method hd nofun (List.forall_mem_singleton.mpr hname) hparams hresults
  | _ => cases hk

open Layout in
theorem lays_expressions (h : Row s k ps) (hk : k.chapter = .expressions)
    (hts : Part.Shape page ps ts) :
    Lays page ts .none k.fields ts (items page ⟨k, ts⟩) := by
  cases h with
  | qualified | selector =>
    obtain ⟨x, us, rfl, hx, y, us, rfl, hy, rfl⟩ := hts
    exact .tree hx (.bare nofun (.tree hy .nil))
  | pointer | deref =>
    obtain ⟨p, us, rfl, hp, x, us, rfl, hx, rfl⟩ := hts
    exact .mark rfl hp (.tree hx .nil)
  | parenType | paren =>
    obtain ⟨p, us, rfl, hp, x, us, rfl, hx, q, us, rfl, hq, rfl⟩ := hts
    exact .mark rfl hp (.tree hx (.mark rfl hq .nil))
  | funcLit =>
    obtain ⟨x, us, rfl, hx, y, us, rfl, hy, rfl⟩ := hts
    exact .tree hx (.gap _ (.tree hy .nil))
  | typeAssert =>
    obtain ⟨x, us, rfl, hx, p, us, rfl, hp, y, us, rfl, hy, q, us, rfl, hq, rfl⟩ := hts
    exact .tree hx (.bare nofun (.mark rfl hp (.tree hy (.mark rfl hq .nil))))
  | index =>
    obtain ⟨x, us, rfl, hx, p, us, rfl, hp, y, us, rfl, hy, q, us, rfl, hq, rfl⟩ := hts
    exact .tree hx (.mark rfl hp (.tree hy (.mark rfl hq .nil)))
  | slice =>
    obtain ⟨x, us, rfl, hx, p, us, rfl, hp, y, us, rfl, hy, z, us, rfl, hz, q, us, rfl, hq, rfl⟩ :=
      hts
    exact .tree hx (.mark rfl hp (.opt hy (.bare nofun (.opt hz (.mark rfl hq .nil)))))
  | call =>
    obtain ⟨x, us, rfl, hx, p, us, rfl, hp, xs, r, us, rfl, hxs, hr, q, us, rfl, hq, rfl⟩ := hts
    simp only [items, List.append_assoc]
    refine .tree hx (.mark rfl hp (.separated_source _ hxs ?_))
    change Lays page _ _ _ _ ((if r.isValid = true then [.token r "..."] else []) ++ _)
    rcases hr with rfl | hr
    · exact .silent rfl (.gap _ (.mark rfl hq .nil))
    · rw [if_pos (Page.isValid_of_hasText hr)]
      exact .token _ rfl rfl hr (.gap _ (.mark rfl hq .nil))
  | composite =>
    obtain ⟨x, us, rfl, hx, p, us, rfl, hp, t, us, rfl, ⟨xs, rfl, hxs⟩, q, us, rfl, hq, rfl⟩ := hts
    exact .tree hx (.mark rfl hp (.separated_source _ hxs (.gap _ (.mark rfl hq .nil))))
  | bareLit =>
    obtain ⟨us, rfl, p, us, rfl, hp, t, us, rfl, ⟨xs, rfl, hxs⟩, q, us, rfl, hq, rfl⟩ := hts
    exact .absent
      (.silent rfl (.mark rfl hp (.separated_source _ hxs (.gap _ (.mark rfl hq .nil)))))
  | keyValue =>
    obtain ⟨x, us, rfl, hx, p, us, rfl, hp, y, us, rfl, hy, rfl⟩ := hts
    exact .tree hx (.mark rfl hp (.gap _ (.tree hy .nil)))
  | prefixed =>
    obtain ⟨p, tok, us, rfl, htok, hp, x, us, rfl, hx, rfl⟩ := hts
    exact .markIn rfl rfl (Token.isFixed_of_mem (by decide) htok) hp (.tree hx .nil)
  | binary hn hop =>
    obtain ⟨x, us, rfl, hx, p, tok, us, rfl, htok, hp, y, us, rfl, hy, rfl⟩ := hts
    obtain rfl := List.mem_singleton.mp htok
    have hfixed := Token.isFixed_of_precedence hop
    exact .tree hx (.gap _ (.markIn rfl rfl hfixed hp (.gap _ (.tree hy .nil))))
  | _ => cases hk

open Layout in
theorem lays_declarations (h : Row s k ps) (hk : k.chapter = .declarations)
    (hts : Part.Shape page ps ts) :
    Lays page ts .none k.fields ts (items page ⟨k, ts⟩) := by
  cases h with
  | importSpec =>
    obtain ⟨d, us, rfl, hd, x, us, rfl, hx, y, us, rfl, hy, rfl⟩ := hts
    simp only [items, List.append_assoc]
    exact .doc hd (.ifPresent hx (.tree hy .nil) fun hx => .tree hx (.gap _ (.tree hy .nil)))
  | typeSpec =>
    obtain ⟨d, us, rfl, hd, x, us, rfl, hx, us, rfl, y, us, rfl, hy, rfl⟩ := hts
    simp only [items, List.append_assoc]
    exact .doc hd (.tree hx (.gap _ (.silent rfl (.tree hy .nil))))
  | aliasSpec =>
    obtain ⟨d, us, rfl, hd, x, us, rfl, hx, p, us, rfl, hp, y, us, rfl, hy, rfl⟩ := hts
    have hvalid : (Node.posOf ⟨.typeSpec, [d, x, .pos p, y]⟩ .assign).isValid = true :=
      Page.isValid_of_hasText (hp rfl)
    simp only [items, List.append_assoc, hvalid]
    exact .doc hd (.tree hx (.gap _ (.mark rfl hp (.gap _ (.tree hy .nil)))))
  | valueSpec hkw =>
    obtain ⟨d, us, rfl, hd, t, us, rfl, ⟨xs, rfl, hne, hxs⟩, y, us, rfl, hy, z, us, rfl, hz, rfl⟩ :=
      hts
    simp only [items, List.append_assoc]
    have hvalues {all : List Tree} {f : Field} : Lays page all .source [f] [z]
        (if z.items.isEmpty then []
          else [.gap .space, .bare "=", .gap .space] ++ Item.separated .comma z.items) := by
      rcases hz with rfl | ⟨zs, rfl, hne, hzs⟩
      · exact .silent rfl .nil
      · rw [if_neg (by simpa [Tree.items] using hne)]
        exact .gap _ (.bare nofun (.pause rfl nofun (Lays.separated _ hne hzs .nil).last))
    exact .doc hd (.separated _ hne hxs (.ifPresent hy hvalues fun hy => .gap _ (.tree hy hvalues)))
  | group hkw =>
    obtain ⟨d, us, rfl, hd, p, tok, us, rfl, htok, hp, q, us, rfl, hq, t, us, rfl, ⟨xs, rfl, hxs⟩,
      r, us, rfl, hr, rfl⟩ := hts
    obtain rfl := List.mem_singleton.mp htok
    have hfixed := Token.isFixed_of_mem_declarers hkw
    have hvalid : (Node.posOf ⟨.genDecl, [d, .pos p, .tok tok, .pos q, .list xs, .pos r]⟩
        .lparen).isValid
        = true := Page.isValid_of_hasText (hq rfl)
    simp only [items, specs, hvalid, Bool.true_or, if_true, List.append_assoc]
    refine .doc hd (.markIn rfl rfl hfixed hp (.gap _ (.mark rfl hq (.pause rfl nofun ?_))))
    exact .preceded _ hxs (.pause rfl nofun (.gap _ (.mark rfl hr .nil)))
  | single hkw =>
    obtain ⟨d, us, rfl, hd, p, tok, us, rfl, htok, hp, us, rfl, t, us, rfl, ⟨x, rfl, hx⟩, us,
        rfl, rfl⟩ := hts
    obtain rfl := List.mem_singleton.mp htok
    have hfixed := Token.isFixed_of_mem_declarers hkw
    simp only [items, List.append_assoc]
    refine .doc hd (.markIn rfl rfl hfixed hp (.gap _ (.silent rfl ?_)))
    exact .item hx (.silent rfl (.silent rfl .nil))
  | funcDecl =>
    obtain ⟨d, us, rfl, hd, p, us, rfl, hp, x, us, rfl, hx, y, us, rfl, hy, t, us, rfl,
      ⟨params, results, rfl, hparams, hresults⟩, z, us, rfl, hz, rfl⟩ := hts
    have hbody {all : List Tree} {f : Field} : Lays page all .source [f] [z]
        (Item.ifPresent z [.gap .space, .tree z]) :=
      (Lays.ifPresent hz .nil fun hz => .gap _ (.tree hz .nil)).last
    have hname {all : List Tree} {f g h : Field} : Lays page all .source [f, g, h]
        [y, .node .funcType [.pos .none, params, results], z]
        (.tree y :: (Layout.signature ⟨.funcType, [.pos .none, params, results]⟩ ++
          Item.ifPresent z [.gap .space, .tree z])) :=
      .tree hy (.opened (.inl rfl) rfl (.silent rfl (lays_signature hparams hresults)) hbody)
    simp only [items, List.append_assoc]
    refine .doc hd (.mark rfl hp (.gap _ ?_))
    rcases hx with rfl | hx
    · exact .silent rfl hname
    · cases x with
      | node k gs => exact .tree hx (.gap _ hname)
      | _ => cases hx
  | _ => cases hk

open Layout in
theorem lays_statements (h : Row s k ps) (hk : k.chapter = .statements)
    (hts : Part.Shape page ps ts) :
    Lays page ts .none k.fields ts (items page ⟨k, ts⟩) := by
  cases h with
  | exprStmt | declStmt =>
    obtain ⟨x, us, rfl, hx, rfl⟩ := hts
    exact .tree hx .nil
  | assign =>
    obtain ⟨t, us, rfl, ⟨xs, rfl, hne, hxs⟩, p, tok, us, rfl, htok, hp, t, us, rfl,
      ⟨ys, rfl, hne', hys⟩, rfl⟩ := hts
    have hfixed := Token.isFixed_of_mem (by decide) htok
    simp only [items, List.append_assoc]
    exact .separated _ hne hxs (.gap _ (.markIn rfl rfl hfixed hp
      (.gap _ (Lays.separated _ hne' hys .nil).last)))
  | incDec =>
    obtain ⟨x, us, rfl, hx, p, tok, us, rfl, htok, hp, rfl⟩ := hts
    exact .tree hx (.markIn rfl rfl (Token.isFixed_of_mem (by decide) htok) hp .nil)
  | goStmt | deferStmt =>
    obtain ⟨p, us, rfl, hp, x, us, rfl, hx, rfl⟩ := hts
    exact .mark rfl hp (.gap _ (.tree hx .nil))
  | returnStmt =>
    obtain ⟨p, us, rfl, hp, x, us, rfl, hx, rfl⟩ := hts
    refine .mark rfl hp ?_
    rcases hx with rfl | ⟨xs, rfl, hne, hxs⟩
    · exact .silent rfl .nil
    · change Lays page _ _ _ _ (if xs.isEmpty = true then [] else _)
      rw [if_neg (by simpa using hne)]
      exact .gap _ (Lays.separated _ hne hxs .nil).last
  | branchStmt =>
    obtain ⟨p, tok, us, rfl, htok, hp, x, us, rfl, hx, rfl⟩ := hts
    refine .markIn rfl rfl (Token.isFixed_of_mem (by decide) htok) hp ?_
    exact (Lays.ifPresent hx .nil fun hx => .gap _ (.tree hx .nil)).last
  | block | switchBody =>
    obtain ⟨p, us, rfl, hp, t, us, rfl, ⟨xs, rfl, hxs⟩, q, us, rfl, hq, rfl⟩ := hts
    exact lays_block true (hp rfl) (hq rfl) hxs
  | _ => cases hk

open Layout in
theorem lays_control (h : Row s k ps) (hk : k.chapter = .control) (hts : Part.Shape page ps ts) :
    Lays page ts .none k.fields ts (items page ⟨k, ts⟩) := by
  cases h with
  | ifStmt =>
    obtain ⟨p, us, rfl, hp, us, rfl, x, us, rfl, hx, y, us, rfl, hy, z, us, rfl, hz, rfl⟩ := hts
    simp only [items, List.append_assoc]
    refine .mark rfl hp (.gap _ (.silent rfl (.tree hx (.gap _ (.tree hy ?_)))))
    exact (Lays.ifPresent hz .nil fun hz =>
      .gap _ (.bare nofun (.pause rfl nofun (.tree hz .nil)))).last
  | ifInit =>
    obtain ⟨p, us, rfl, hp, w, us, rfl, hw, x, us, rfl, hx, y, us, rfl, hy, z, us, rfl, hz, rfl⟩ :=
      hts
    have helse {all : List Tree} {f : Field} : Lays page all .source [f] [z]
        (Item.ifPresent z [.gap .space, .bare "else", .gap .space, .tree z]) :=
      (Lays.ifPresent hz .nil fun hz =>
        .gap _ (.bare nofun (.pause rfl nofun (.tree hz .nil)))).last
    simp only [items, List.append_assoc]
    refine .mark rfl hp (.gap _ (.ifPresent hw (.tree hx (.gap _ (.tree hy helse))) fun hw => ?_))
    exact .tree hw (.gap _ (.tree hx (.gap _ (.tree hy helse))))
  | switch =>
    obtain ⟨p, us, rfl, hp, us, rfl, x, us, rfl, hx, t, us, rfl,
        ⟨q, xs, r, rfl, hq, hr, hxs⟩, rfl⟩ := hts
    simp only [items, List.append_assoc]
    refine .mark rfl hp (.silent rfl ?_)
    exact .ifPresent hx (.gap _ (lays_switchBody rfl hq hr hxs))
      fun hx => .gap _ (.tree hx (.gap _ (lays_switchBody rfl hq hr hxs)))
  | switchInit =>
    obtain ⟨p, us, rfl, hp, w, us, rfl, hw, x, us, rfl, hx, t, us, rfl,
      ⟨q, xs, r, rfl, hq, hr, hxs⟩, rfl⟩ := hts
    have htag {all : List Tree} {f g : Field} : Lays page all .source [f, g]
        [x, .node .blockStmt [.pos q, .list xs, .pos r]]
        (Item.ifPresent x [.gap .space, .tree x] ++ .gap .space ::
          Layout.switchBody page ⟨.switchStmt,
            [.pos p, w, x, .node .blockStmt [.pos q, .list xs, .pos r]]⟩) :=
      .ifPresent hx (.gap _ (lays_switchBody rfl hq hr hxs))
        fun hx => .gap _ (.tree hx (.gap _ (lays_switchBody rfl hq hr hxs)))
    simp only [items, List.append_assoc]
    exact .mark rfl hp (.ifPresent hw htag fun hw => .gap _ (.tree hw (.gap _ htag)))
  | case =>
    obtain ⟨p, tok, us, rfl, htok, hp, t, us, rfl, ⟨xs, rfl, hne, hxs⟩, q, us, rfl, hq, t, us, rfl,
      ⟨ys, rfl, hys⟩, rfl⟩ := hts
    have hempty : (Node.list ⟨.caseClause, [.pos p, .tok tok, .list xs, .pos q, .list ys]⟩
        .list).isEmpty
        = false := List.isEmpty_eq_false_iff.mpr hne
    simp only [items, List.append_assoc, hempty]
    refine .markIn rfl rfl (Token.isFixed_of_mem (by decide) htok) hp
      (.gap _ (.separated _ hne hxs ?_))
    exact .mark rfl hq (.pause rfl nofun (.preceded _ hys (.pause rfl nofun .nil)))
  | default =>
    obtain ⟨p, tok, us, rfl, htok, hp, us, rfl, q, us, rfl, hq, t, us, rfl, ⟨ys, rfl, hys⟩, rfl⟩ :=
      hts
    simp only [items, List.append_assoc]
    refine .markIn rfl rfl (Token.isFixed_of_mem (by decide) htok) hp (.silent rfl ?_)
    exact .mark rfl hq (.pause rfl nofun (.preceded _ hys (.pause rfl nofun .nil)))
  | forStmt =>
    obtain ⟨p, us, rfl, hp, us, rfl, x, us, rfl, hx, us, rfl, y, us, rfl, hy, rfl⟩ := hts
    refine .mark rfl hp (.silent rfl ?_)
    exact .ifPresent hx (.silent rfl (.gap _ (.tree hy .nil)))
      fun hx => .gap _ (.tree hx (.silent rfl (.gap _ (.tree hy .nil))))
  | forClauses =>
    obtain ⟨p, us, rfl, hp, w, us, rfl, hw, x, us, rfl, hx, z, us, rfl, hz, y, us, rfl, hy, rfl⟩ :=
      hts
    simp only [items, List.append_assoc]
    refine .mark rfl hp ?_
    change Lays page _ _ _ _ ((if (!w.isNil || !z.isNil) = true then _ else _) ++ _)
    by_cases hclauses : (!w.isNil || !z.isNil) = true
    · rw [if_pos hclauses]
      exact .gap _ (.opt hw (.gap _ (.opt hx (.gap _ (.opt hz (.gap _ (.tree hy .nil)))))))
    · rw [if_neg hclauses]
      obtain ⟨hw, hz⟩ : w.isSilent = true ∧ z.isSilent = true := by
        cases w <;> cases z <;> simp [Tree.isNil, Tree.isSilent] at *
      exact .silent hw (.ifPresent hx (.silent hz (.gap _ (.tree hy .nil)))
        fun hx => .gap _ (.tree hx (.silent hz (.gap _ (.tree hy .nil)))))
  | rangeStmt =>
    obtain ⟨p, us, rfl, hp, us, rfl, us, rfl, us, rfl, q, us, rfl, hq, x, us, rfl, hx, y, us, rfl,
        hy, rfl⟩ := hts
    refine .mark rfl hp (.gap _ (.silent rfl (.silent rfl (.silent rfl (.silent rfl ?_)))))
    exact .mark rfl hq (.gap _ (.tree hx (.gap _ (.tree hy .nil))))
  | rangeTargets =>
    obtain ⟨p, us, rfl, hp, w, v, us, rfl, hw, hv, q, tok, us, rfl, htok, hq, r, us, rfl, hr, x, us,
      rfl, hx, y, us, rfl, hy, rfl⟩ := hts
    have hrange {all : List Tree} {i : Nat} {f g h j k : Field} (hf : f.slot = .pos (.ofField i))
        (hi : all[i]? = some (.tok tok)) (hh : h.slot.records .kwRange = true) :
        Lays page all .source [f, g, h, j, k] [.pos q, .tok tok, .pos r, x, y]
          [.gap .space, .token q tok.text, .gap .space, .token r "range", .gap .space,
            .tree x, .gap .space, .tree y] :=
      .gap _ (.markIn hf hi (Token.isFixed_of_mem (by decide) htok) hq
        (.gap _ (.mark hh hr (.gap _ (.tree hx (.gap _ (.tree hy .nil)))))))
    cases w with
    | node k gs =>
      rcases hv with rfl | hv
      · exact .mark rfl hp (.gap _ (.tree hw (.silent rfl (hrange rfl rfl rfl))))
      · cases v with
        | node k' gs' =>
          exact .mark rfl hp (.gap _ (.tree hw (.gap _ (.tree hv (hrange rfl rfl rfl)))))
        | _ => cases hv
    | _ => cases hw
  | _ => cases hk

theorem lays (h : Row s k ps) (hts : Part.Shape page ps ts)
    (hplain : (Tree.node k ts).isPlain page = true) :
    Lays page ts .none k.fields ts (Layout.items page ⟨k, ts⟩) := by
  cases hk : k.chapter with
  | types => exact h.lays_types hk hts hplain
  | expressions => exact h.lays_expressions hk hts
  | declarations => exact h.lays_declarations hk hts
  | statements => exact h.lays_statements hk hts
  | control => exact h.lays_control hk hts

end Row

/-! ### All nodes -/

theorem Node.Shaped.lays {page : Page} {n : Node} (h : n.Shaped page)
    (hplain : n.tree.isPlain page = true) :
    Lays page n.fields .none n.kind.fields n.fields (Layout.items page n) := by
  cases h with
  | row hr hts => exact hr.lays hts hplain
  | ident hp | comment hp => exact .token _ rfl rfl hp (.silent rfl .nil)
  | literal hp => exact .token _ rfl rfl hp (.silent rfl (.silent rfl .nil))
  | dots hp => exact .token _ rfl rfl hp .nil
  | param hnames htype => exact Layout.lays_field (.inl rfl) hnames htype (.inl rfl)
  | commentGroup hne hts =>
    refine (Lays.separated _ hne (fun t ht => ?_) .nil).last
    obtain ⟨p, text, rfl⟩ := hts t ht
    rfl

end Graft
