import Graft.Proofs.Grammar.Binding

/-! # Operands and operators in order

The *chain* of a tree (`Tree.chain`) lists its operands and operators in the order in which they are
spelled and forgets how the operators group them; inside an operand the same is done again.  Trees
with the same chain may mean different things, but not if they are well bound: then the outermost
operator is the last one of least precedence, the others are found in the same way on both sides of
it, and the chain determines the tree (`Tree.eq_of_chain`).
-/

namespace Graft

/-- A link of a chain: an operand, or an operator that stands before, between or behind operands. -/
inductive Link where
  /-- A value without subtrees. -/
  | leaf (t : Tree)
  | list (items : List (List Link))
  | node (k : Kind) (fields : List (List Link))
  | before (k : Kind) (fields : List Tree)
  | between (p : Tree) (op : Token)
  | behind (k : Kind) (fields : List (List Link))

/-- Whether a link is an operand. -/
def Link.isOperand : Link → Bool
  | leaf _ | list _ | node _ _ => true
  | _ => false

namespace Tree

mutual

/-- The operands and operators of a tree in order, however they are grouped. -/
def chain : Tree → List Link
  | nil => [.leaf nil]
  | pos p => [.leaf (pos p)]
  | str s => [.leaf (str s)]
  | tok t => [.leaf (tok t)]
  | list ts => [.list (chainAll ts)]
  | node .binaryExpr [x, p, tok op, y] => chain x ++ .between p op :: chain y
  | node .unaryExpr [p, tok op, x] => .before .unaryExpr [p, tok op] :: chain x
  | node .starExpr [p, x] => .before .starExpr [p] :: chain x
  | node k (x :: fs) =>
    if k.isSuffix then chain x ++ [.behind k (chainAll fs)] else [.node k (chain x :: chainAll fs)]
  | node k [] => [.node k []]

/-- The chains of all trees of a list. -/
def chainAll : List Tree → List (List Link)
  | [] => []
  | t :: ts => chain t :: chainAll ts

end

/-- The forms of trees: values and nodes that are operands, and those that operators join. -/
inductive Form : Tree → Prop where
  | leaf {t : Tree} (hchain : t.chain = [.leaf t]) (htight : t.tightness = 7) : Form t
  | list {ts : List Tree} (hts : ∀ t ∈ ts, Form t) : Form (list ts)
  | node {k : Kind} {fs : List Tree} (hfs : ∀ t ∈ fs, Form t)
      (hchain : (node k fs).chain = [.node k (chainAll fs)]) (htight : (node k fs).tightness = 7) :
    Form (node k fs)
  | before {k : Kind} {fs : List Tree} {x : Tree} (hx : Form x)
      (hchain : (node k (fs ++ [x])).chain = .before k fs :: x.chain)
      (htight : (node k (fs ++ [x])).tightness = 6)
      (hbinds : (node k (fs ++ [x])).binds = true → 6 ≤ x.tightness) : Form (node k (fs ++ [x]))
  | between {x p : Tree} {op : Token} {y : Tree} (hx : Form x) (hy : Form y) :
    Form (node .binaryExpr [x, p, tok op, y])
  | behind {k : Kind} {x : Tree} {fs : List Tree} (hx : Form x) (hfs : ∀ t ∈ fs, Form t)
      (hchain : (node k (x :: fs)).chain = x.chain ++ [.behind k (chainAll fs)])
      (htight : (node k (x :: fs)).tightness = 7)
      (hbinds : (node k (x :: fs)).binds = true → 7 ≤ x.tightness) : Form (node k (x :: fs))

/-- A node has a form if its fields have. -/
theorem Form.of_fields {k : Kind} {fs : List Tree} (h : ∀ t ∈ fs, Form t) :
    Form (Tree.node k fs) := by
  by_cases hbinary : ∃ x p op y, k = .binaryExpr ∧ fs = [x, p, tok op, y]
  · obtain ⟨x, p, op, y, rfl, rfl⟩ := hbinary
    exact .between (h x (by simp)) (h y (by simp))
  by_cases hunary : ∃ p op x, k = .unaryExpr ∧ fs = [p, tok op, x]
  · obtain ⟨p, op, x, rfl, rfl⟩ := hunary
    exact @Form.before .unaryExpr [p, tok op] x (h x (by simp)) rfl rfl of_decide_eq_true
  by_cases hstar : ∃ p x, k = .starExpr ∧ fs = [p, x]
  · obtain ⟨p, x, rfl, rfl⟩ := hstar
    exact @Form.before .starExpr [p] x (h x (by simp)) rfl rfl of_decide_eq_true
  have htight : (Tree.node k fs).tightness = 7 := by
    unfold tightness
    split
    case h_1 heq => exact absurd ⟨_, _, _, _, (node.inj heq)⟩ hbinary
    case h_2 heq => exact absurd ⟨_, _, _, (node.inj heq)⟩ hunary
    case h_3 heq => exact absurd ⟨_, _, (node.inj heq)⟩ hstar
    case h_4 => rfl
  cases fs with
  | nil =>
    refine .node nofun ?_ htight
    rw [chain.eq_def]
    split <;> simp_all [chainAll]
  | cons x fs =>
    obtain ⟨hx, hfs⟩ := List.forall_mem_cons.mp h
    have hchain : (Tree.node k (x :: fs)).chain = if k.isSuffix then
        x.chain ++ [.behind k (chainAll fs)] else [.node k (x.chain :: chainAll fs)] := by
      rw [chain.eq_def]
      split <;> simp_all
    cases hsuffix : k.isSuffix with
    | false => exact .node h (by rw [hchain, hsuffix]; rfl) htight
    | true =>
      exact .behind hx hfs (by rw [hchain, hsuffix]; rfl) htight (binds_suffix hsuffix).mp

mutual

theorem form (t : Tree) : Form t := by
  match t with
  | nil | pos _ | str _ | tok _ => exact .leaf rfl rfl
  | list ts => exact .list (form_all ts)
  | node k fs => exact .of_fields (form_all fs)

theorem form_all (ts : List Tree) : ∀ t ∈ ts, Form t := by
  match ts with
  | [] => exact List.forall_mem_nil _
  | t :: ts => exact List.forall_mem_cons.mpr ⟨form t, form_all ts⟩

end

/-- All operators between the operands of a well bound tree bind as tightly as the tree. -/
theorem Form.le_precedence {t : Tree} (ht : t.Form) (h : t.wellBound = true) {p : Tree} {op : Token}
    (hop : .between p op ∈ t.chain) : t.tightness ≤ op.precedence := by
  induction ht with
  | leaf hchain | node _ hchain =>
    rw [hchain] at hop
    simp at hop
  | list =>
    rw [chain] at hop
    simp at hop
  | @before k fs x _ hchain htight hbinds ih =>
    rw [hchain] at hop
    obtain ⟨hb, hfs⟩ := wellBound_node.mp h
    have hx := ih (hfs x (by simp)) (by simpa using hop)
    rw [htight]
    exact Nat.le_trans (hbinds hb) hx
  | @between x p' op' y _ _ ihx ihy =>
    rw [chain] at hop
    obtain ⟨hb, hfs⟩ := wellBound_node.mp h
    obtain ⟨hx, hy⟩ := binds_binary.mp hb
    -- the other operators stand in operands, which bind more tightly or are to the left
    rw [tightness_binary]
    rcases List.mem_append.mp hop with hop | hop
    · exact Nat.le_trans hx (ihx (hfs x (by simp)) hop)
    · rcases List.mem_cons.mp hop with hop | hop
      · cases hop
        exact Nat.le_refl _
      · exact Nat.le_trans (Nat.le_of_lt hy) (ihy (hfs y (by simp)) hop)
  | @behind k x fs _ _ hchain htight hbinds ih =>
    rw [hchain] at hop
    obtain ⟨hb, hfs⟩ := wellBound_node.mp h
    have hx := ih (hfs x (by simp)) (by simpa using hop)
    rw [htight]
    exact Nat.le_trans (hbinds hb) hx

theorem Form.not_between {t : Tree} (ht : t.Form) (h : t.wellBound = true)
    (htight : 6 ≤ t.tightness) {p : Tree} {op : Token} (hop : .between p op ∈ t.chain) : False := by
  have hle := ht.le_precedence h hop
  have hprec := op.precedence_le
  omega

/-- No operator stands before a tree that holds together as an operand does. -/
theorem Form.ne_before {t : Tree} (ht : t.Form) (h : t.wellBound = true) (htight : 7 ≤ t.tightness)
    {k : Kind} {fs : List Tree} {ls : List Link} : t.chain ≠ .before k fs :: ls := by
  induction ht generalizing ls with
  | leaf hchain | node _ hchain => simp [hchain]
  | list => simp [chain]
  | before _ _ htight' => simp [htight'] at htight
  | @between x p op y =>
    have := op.precedence_le
    rw [tightness_binary] at htight
    omega
  | @behind k' x us _ _ hchain _ hbinds ih =>
    obtain ⟨hb, hfs⟩ := wellBound_node.mp h
    rw [hchain]
    cases hls : x.chain with
    | nil => simp
    | cons l ls' =>
      intro heq
      cases (List.cons.inj heq).1
      exact ih (hfs x (by simp)) (hbinds hb) hls

/-- Where operators bind at least as tightly as `op` before it and more tightly behind it, `op` is
the outermost: there is one such place. -/
theorem eq_of_between {ls rs ls' rs' : List Link} {p p' : Tree} {op op' : Token}
    (h : ls ++ .between p op :: rs = ls' ++ .between p' op' :: rs')
    (hls : ∀ p' op', .between p' op' ∈ ls → op.precedence ≤ op'.precedence)
    (hrs : ∀ p' op', .between p' op' ∈ rs → op.precedence < op'.precedence)
    (hls' : ∀ p op, .between p op ∈ ls' → op'.precedence ≤ op.precedence)
    (hrs' : ∀ p op, .between p op ∈ rs' → op'.precedence < op.precedence) :
    ls = ls' ∧ p = p' ∧ op = op' ∧ rs = rs' := by
  rcases List.append_eq_append_iff.mp h with ⟨mid, rfl, hmid⟩ | ⟨mid, rfl, hmid⟩
  · cases mid with
    | nil =>
      cases hmid
      simp
    | cons l mid =>
      obtain ⟨rfl, rfl⟩ := List.cons.inj hmid
      have h₁ := hrs p' op' (by simp)
      have h₂ := hls' p op (by simp)
      omega
  · cases mid with
    | nil =>
      cases hmid
      simp
    | cons l mid =>
      obtain ⟨rfl, rfl⟩ := List.cons.inj hmid
      have h₁ := hrs' p op (by simp)
      have h₂ := hls p' op' (by simp)
      omega

theorem eq_of_chainAll {ts us : List Tree}
    (ih : ∀ t ∈ ts, ∀ {y : Tree}, t.wellBound = true → y.wellBound = true →
      t.chain = y.chain → t = y)
    (hts : ∀ t ∈ ts, t.wellBound = true) (hus : ∀ t ∈ us, t.wellBound = true)
    (h : chainAll ts = chainAll us) : ts = us := by
  induction ts generalizing us with
  | nil =>
    cases us with
    | nil => rfl
    | cons u us => cases h
  | cons t ts ihts =>
    cases us with
    | nil => cases h
    | cons u us =>
      obtain ⟨hhead, htail⟩ := List.cons.inj h
      obtain ⟨ht, hts⟩ := List.forall_mem_cons.mp hts
      obtain ⟨hu, hus⟩ := List.forall_mem_cons.mp hus
      obtain ⟨iht, ih⟩ := List.forall_mem_cons.mp ih
      rw [iht ht hu hhead, ihts ih hts hus htail]

/-- A chain of one operand is the chain of a value or of a node that no operator joins. -/
theorem Form.of_single {t : Tree} (ht : t.Form) {l : Link} (hl : l.isOperand = true)
    (h : t.chain = [l]) : l = .leaf t ∨ (∃ ts, t = Tree.list ts ∧ l = .list (chainAll ts)) ∨
      ∃ k fs, t = Tree.node k fs ∧ l = .node k (chainAll fs) := by
  cases ht with
  | leaf hchain =>
    rw [hchain] at h
    cases h
    exact .inl rfl
  | list =>
    rw [chain] at h
    cases h
    exact .inr (.inl ⟨_, rfl, rfl⟩)
  | node _ hchain =>
    rw [hchain] at h
    cases h
    exact .inr (.inr ⟨_, _, rfl, rfl⟩)
  | before _ hchain =>
    rw [hchain] at h
    cases (List.cons.inj h).1
    cases hl
  | @between x p op y =>
    have hmem : .between p op ∈ [l] := by rw [← h, chain]; simp
    cases List.mem_singleton.mp hmem
    cases hl
  | @behind k x fs _ _ hchain =>
    have hmem : .behind k (chainAll fs) ∈ [l] := by rw [← h, hchain]; simp
    cases List.mem_singleton.mp hmem
    cases hl

theorem Form.eq_of_chain {x y : Tree} (hx : x.Form) (hboundx : x.wellBound = true)
    (hboundy : y.wellBound = true) (h : x.chain = y.chain) : x = y := by
  induction hx generalizing y with
  | leaf hchain =>
    rw [hchain] at h
    rcases (form y).of_single rfl h.symm with heq | ⟨ts, rfl, heq⟩ | ⟨k, fs, rfl, heq⟩
    · exact Link.leaf.inj heq
    · cases heq
    · cases heq
  | @list ts hts ih =>
    rw [chain] at h
    rcases (form y).of_single rfl h.symm with heq | ⟨us, rfl, heq⟩ | ⟨k, fs, rfl, heq⟩
    · cases heq
    · rw [eq_of_chainAll (fun t ht _ => ih t ht) (wellBound_list.mp hboundx)
        (wellBound_list.mp hboundy) (Link.list.inj heq)]
    · cases heq
  | @node k fs hfs hchain _ ih =>
    rw [hchain] at h
    rcases (form y).of_single rfl h.symm with heq | ⟨us, rfl, heq⟩ | ⟨k', us, rfl, heq⟩
    · cases heq
    · cases heq
    · obtain ⟨rfl, hfields⟩ := Link.node.inj heq
      rw [eq_of_chainAll (fun t ht _ => ih t ht) (wellBound_node.mp hboundx).2
        (wellBound_node.mp hboundy).2 hfields]
  | @before k fs x hx hchain htight hbinds ih =>
    -- a chain that begins with an operator is that of no operand
    have hy : y.tightness < 7 := Nat.lt_of_not_le fun htight' =>
      (form y).ne_before hboundy htight' (h.symm.trans hchain)
    cases form y with
    | leaf _ htight' | node _ _ htight' | behind _ _ _ htight' => omega
    | list => exact absurd hy (Nat.lt_irrefl 7)
    | @between a p op b =>
      have hop : .between p op ∈ (Tree.node k (fs ++ [x])).chain := by rw [h, chain]; simp
      have hform := Form.before hx hchain htight hbinds
      exact (hform.not_between hboundx (Nat.le_of_eq htight.symm) hop).elim
    | @before k' fs' x' _ hchain' =>
      rw [hchain, hchain'] at h
      obtain ⟨hhead, htail⟩ := List.cons.inj h
      cases hhead
      rw [ih ((wellBound_node.mp hboundx).2 x (by simp))
        ((wellBound_node.mp hboundy).2 x' (by simp)) htail]
  | @between a p op b ha hb iha ihb =>
    have hop : .between p op ∈ y.chain := by rw [← h, chain]; simp
    have hy := (form y).le_precedence hboundy hop
    have hle := op.precedence_le
    cases form y with
    | leaf _ htight' | node _ _ htight' | before _ _ htight' | behind _ _ _ htight' => omega
    | list => exact absurd hy (by simp [tightness]; omega)
    | @between a' p' op' b' ha' hb' =>
      obtain ⟨hbindsx, hfieldsx⟩ := wellBound_node.mp hboundx
      obtain ⟨hbindsy, hfieldsy⟩ := wellBound_node.mp hboundy
      rw [binds_binary] at hbindsx hbindsy
      have hxa := hfieldsx a (by simp)
      have hxb := hfieldsx b (by simp)
      have hya := hfieldsy a' (by simp)
      have hyb := hfieldsy b' (by simp)
      -- both trees split the chain at the last operator of least precedence
      obtain ⟨hl, rfl, rfl, hr⟩ := eq_of_between (by rw [← chain, ← chain]; exact h)
        (fun _ _ hmem => Nat.le_trans hbindsx.1 (ha.le_precedence hxa hmem))
        (fun _ _ hmem => Nat.lt_of_lt_of_le hbindsx.2 (hb.le_precedence hxb hmem))
        (fun _ _ hmem => Nat.le_trans hbindsy.1 (ha'.le_precedence hya hmem))
        (fun _ _ hmem => Nat.lt_of_lt_of_le hbindsy.2 (hb'.le_precedence hyb hmem))
      rw [iha hxa hya hl, ihb hxb hyb hr]
  | @behind k x fs hx hfs hchain htight hbinds ihx ihfs =>
    have hform := Form.behind hx hfs hchain htight hbinds
    have hle : 7 ≤ (Tree.node k (x :: fs)).tightness := Nat.le_of_eq htight.symm
    have hmem : .behind k (chainAll fs) ∈ y.chain := by rw [← h, hchain]; simp
    cases form y with
    | leaf hchain' | node _ hchain' => simp [hchain'] at hmem
    | list => simp [chain] at hmem
    | before _ hchain' => exact absurd (h.trans hchain') (hform.ne_before hboundx hle)
    | @between a p op b =>
      have hop : .between p op ∈ (Tree.node k (x :: fs)).chain := by rw [h, chain]; simp
      exact (hform.not_between hboundx (Nat.le_of_succ_le hle) hop).elim
    | @behind k' x' fs' _ _ hchain' =>
      rw [hchain, hchain'] at h
      obtain ⟨hhead, hlast⟩ := List.append_inj' h rfl
      obtain ⟨rfl, hfields⟩ := Link.behind.inj (List.cons.inj hlast).1
      obtain ⟨hx₁, hfs₁⟩ := List.forall_mem_cons.mp (wellBound_node.mp hboundx).2
      obtain ⟨hx₂, hfs₂⟩ := List.forall_mem_cons.mp (wellBound_node.mp hboundy).2
      rw [ihx hx₁ hx₂ hhead, eq_of_chainAll (fun t ht _ => ihfs t ht) hfs₁ hfs₂ hfields]

/-- **A well bound tree is determined by its operands and operators in order.** -/
theorem eq_of_chain {x y : Tree} (hx : x.wellBound = true) (hy : y.wellBound = true)
    (h : x.chain = y.chain) : x = y := (form x).eq_of_chain hx hy h

end Tree

end Graft
