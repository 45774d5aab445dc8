import Graft.Tree.Basic

/-! # Trees that conform to the schema

A node conforms if it has the fields of its schema, each accepted by its slot, and the values in
them conform (`Tree.conforms_node`).  Fields are read and written by name, so the lemmas here are
about `Node.get` and `Node.set`: what is read from a conforming node conforms and fits its slot, and
a conforming value that fits may be written.
-/

namespace Graft

namespace Tree

theorem conformsAll_iff {ts : List Tree} : conformsAll ts = true ↔ ∀ t ∈ ts, t.conforms = true := by
  induction ts with
  | nil => simp [conformsAll]
  | cons t ts ih => simp [conformsAll, ih]

theorem conforms_list {ts : List Tree} :
    (list ts).conforms = true ↔ ∀ t ∈ ts, t.conforms = true := by
  rw [conforms, conformsAll_iff]

theorem conforms_node {k : Kind} {fs : List Tree} :
    (node k fs).conforms = true ↔ fs.length = k.fields.length ∧
      (∀ x ∈ k.fields.zip fs, x.1.slot.accepts x.2 = true) ∧ ∀ t ∈ fs, t.conforms = true := by
  simp only [conforms, conformsAll_iff, Bool.and_eq_true, beq_iff_eq, List.all_eq_true, and_assoc]

theorem conforms_ident (p : Pos) (name : String) : (ident p name).conforms = true := rfl

/-- Whether a value is a conforming node of a category. -/
def FitsIn (c : Category) (t : Tree) : Prop :=
  t.conforms = true ∧ ∃ n : Node, t = n.tree ∧ n.kind.isA c = true

end Tree

/-- Whether a node fits a slot is up to its kind. -/
theorem Slot.accepts_node (s : Slot) (k : Kind) (fs gs : List Tree) :
    s.accepts (.node k fs) = s.accepts (.node k gs) := by
  cases s <;> rfl

/-- A list fits its slot if its items are nodes of the category asked for. -/
theorem Slot.accepts_list {c : Category} {ts : List Tree} :
    (Slot.list c).accepts (.list ts) = true ↔
      ∀ t ∈ ts, ∃ n : Node, t = n.tree ∧ n.kind.isA c = true := by
  simp only [Slot.accepts, List.all_eq_true]
  constructor
  · intro h t ht
    have hkind := h t ht
    cases t with
    | node k fs => exact ⟨⟨k, fs⟩, rfl, hkind⟩
    | _ => cases hkind
  · intro h t ht
    obtain ⟨n, rfl, hn⟩ := h t ht
    exact hn

/-- Only lists fit a slot for lists. -/
theorem Slot.exists_list_of_accepts {c : Category} {t : Tree} (h : (Slot.list c).accepts t = true) :
    ∃ ts, t = .list ts := by
  cases t with
  | list ts => exact ⟨ts, rfl⟩
  | _ => cases h

/-- The number of a field finds the field. -/
theorem Kind.find?_of_indexOf? {k : Kind} {l : Label} {i : Nat} (h : k.indexOf? l = some i) :
    ∃ f, k.fields.find? (·.label == l) = some f ∧ k.fields[i]? = some f := by
  obtain ⟨hi, -⟩ := List.findIdx?_eq_some_iff_getElem.mp h
  refine ⟨k.fields[i], ?_, List.getElem?_eq_getElem hi⟩
  rw [List.find?_eq_some_iff_getElem]
  obtain ⟨hi', hlabel, hbefore⟩ := List.findIdx?_eq_some_iff_getElem.mp h
  exact ⟨hlabel, i, hi', rfl, fun j hj => by simpa using hbefore j hj⟩

namespace Node

variable {n : Node} {l : Label} {t : Tree}

theorem conforms_get (h : n.tree.conforms = true) : (n.get l).conforms = true := by
  obtain ⟨-, -, hfields⟩ := Tree.conforms_node.mp h
  unfold get
  split
  · rename_i i hi
    cases ht : n.fields[i]? with
    | none => rfl
    | some t => exact hfields t (List.mem_of_getElem? ht)
  · rfl

/-- The value in a field of a conforming node fits the slot of the field. -/
theorem accepts_get {f : Field} (h : n.tree.conforms = true)
    (hf : n.kind.fields.find? (·.label == l) = some f) : f.slot.accepts (n.get l) = true := by
  obtain ⟨hlength, hslots, -⟩ := Tree.conforms_node.mp h
  cases hi : n.kind.indexOf? l with
  | none =>
    have hno := List.findIdx?_eq_none_iff.mp hi f (List.mem_of_find?_eq_some hf)
    have hyes := List.find?_some hf
    rw [hyes] at hno
    cases hno
  | some i =>
    obtain ⟨f', hf', hget⟩ := Kind.find?_of_indexOf? hi
    rw [hf] at hf'
    cases hf'
    obtain ⟨hlt, hfi⟩ := List.getElem?_eq_some_iff.mp hget
    have hlt' : i < n.fields.length := by omega
    refine hslots (f, n.get l) (List.mem_iff_getElem?.mpr ⟨i, ?_⟩)
    rw [List.getElem?_zip_eq_some]
    refine ⟨hget, ?_⟩
    rw [get, hi]
    simp [List.getElem?_eq_getElem hlt']

/-- A conforming value that fits the slot of a field may be written into the field. -/
theorem conforms_set (h : n.tree.conforms = true) (ht : t.conforms = true)
    (hfits : ∀ f, n.kind.fields.find? (·.label == l) = some f → f.slot.accepts t = true) :
    (n.set l t).tree.conforms = true := by
  obtain ⟨hlength, hslots, hfields⟩ := Tree.conforms_node.mp h
  unfold set
  split
  · rename_i i hi
    refine Tree.conforms_node.mpr ⟨by simpa using hlength, ?_, ?_⟩
    · intro x hx
      obtain ⟨j, hj⟩ := List.mem_iff_getElem?.mp hx
      obtain ⟨hf, hu⟩ := List.getElem?_zip_eq_some.mp hj
      rw [List.getElem?_set] at hu
      split at hu
      · rename_i hij
        obtain ⟨f, hfind, hfi⟩ := Kind.find?_of_indexOf? hi
        split at hu
        · cases hu
          rw [← hij, hfi] at hf
          cases hf
          exact hfits _ hfind
        · cases hu
      · exact hslots x (List.mem_iff_getElem?.mpr ⟨j, List.getElem?_zip_eq_some.mpr ⟨hf, hu⟩⟩)
    · intro u hu
      rcases List.mem_or_eq_of_mem_set hu with hu | rfl
      · exact hfields u hu
      · exact ht
  · exact h

/-- A list of a conforming node may be changed as long as its items still fit. -/
theorem conforms_set_list {c : Category} {ts : List Tree} (h : n.tree.conforms = true)
    (hslot : (n.kind.fields.find? (·.label == l)).map (·.slot) = some (.list c))
    (hts : ∀ t ∈ ts, t.FitsIn c) : (n.set l (.list ts)).tree.conforms = true := by
  refine conforms_set h (Tree.conforms_list.mpr fun t ht => (hts t ht).1) ?_
  intro f hf
  rw [hf] at hslot
  have hslot : f.slot = .list c := Option.some.inj hslot
  rw [hslot]
  exact Slot.accepts_list.mpr fun t ht => (hts t ht).2

/-- The items of a list of a conforming node. -/
theorem conforms_list_items {c : Category} (h : n.tree.conforms = true)
    (hslot : (n.kind.fields.find? (·.label == l)).map (·.slot) = some (.list c)) :
    ∀ t ∈ n.list l, t.FitsIn c := by
  obtain ⟨f, hf, hslot⟩ := Option.map_eq_some_iff.mp hslot
  have haccepts := accepts_get h hf
  rw [hslot] at haccepts
  obtain ⟨ts, hts⟩ := Slot.exists_list_of_accepts haccepts
  rw [hts] at haccepts
  intro t ht
  rw [list, hts] at ht
  have hconforms := conforms_get (l := l) h
  rw [hts] at hconforms
  exact ⟨Tree.conforms_list.mp hconforms t ht, Slot.accepts_list.mp haccepts t ht⟩

end Node

end Graft
