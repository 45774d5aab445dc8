/-! # Computations that may fail

A sequence of steps succeeds exactly if each of them does, and fails with the first one that does.

Two computations are compared by what they come to: both have a result, and the results are related,
or both fail for the same reason (`Option.Rel`, `SameOutcome`).
-/

namespace Option.Rel

variable {α β γ δ ε : Type} {R : α → β → Prop} {S : γ → δ → Prop} {x : Option α} {y : Option β}

theorem bind {f : α → Option γ} {g : β → Option δ} (h : Rel R x y)
    (hf : ∀ a b, R a b → Rel S (f a) (g b)) : Rel S (x.bind f) (y.bind g) := by
  cases h with
  | some hab => exact hf _ _ hab
  | none => exact .none

theorem imp {R' : α → β → Prop} (h : Rel R x y) (hR : ∀ a b, R a b → R' a b) : Rel R' x y := by
  cases h with
  | some hab => exact .some (hR _ _ hab)
  | none => exact .none

theorem eq_self (z : Option ε) : Rel Eq z z := by
  cases z with
  | some c => exact .some rfl
  | none => exact .none

theorem bind_left (z : Option ε) {f : ε → Option α} {g : ε → Option β}
    (h : ∀ c, Rel R (f c) (g c)) :
    Rel R (z.bind f) (z.bind g) := by
  cases z with
  | some c => exact h c
  | none => exact .none

theorem map {f : α → γ} {g : β → δ} (h : Rel R x y) (hf : ∀ a b, R a b → S (f a) (g b)) :
    Rel S (x.map f) (y.map g) := by
  cases h with
  | some hab => exact .some (hf _ _ hab)
  | none => exact .none

theorem orElse {x' : Option α} {y' : Option β} (h : Rel R x y) (h' : Rel R x' y') :
    Rel R (x <|> x') (y <|> y') := by
  cases h with
  | some hab => exact .some hab
  | none => exact h'

theorem isSome_eq (h : Rel R x y) : x.isSome = y.isSome := by
  cases h <;> rfl

theorem findSome? {f : γ → Option α} {g : γ → Option β} (h : ∀ c, Rel R (f c) (g c)) (cs : List γ) :
    Rel R (cs.findSome? f) (cs.findSome? g) := by
  induction cs with
  | nil => exact .none
  | cons c cs ih =>
    rw [List.findSome?_cons, List.findSome?_cons]
    generalize f c = x, g c = y, h c = hc
    cases hc with
    | some hab => exact .some hab
    | none => exact ih

end Option.Rel

namespace Graft

variable {ε α β : Type}

/-- Whether two computations both have related results, or both fail for the same reason. -/
inductive SameOutcome (R : α → β → Prop) : Except ε α → Except ε β → Prop where
  | ok {a : α} {b : β} (h : R a b) : SameOutcome R (.ok a) (.ok b)
  | error (e : ε) : SameOutcome R (.error e) (.error e)

theorem exists_of_bind_ok {x : Except ε α} {f : α → Except ε β} {b : β}
    (h : (x >>= f) = .ok b) : ∃ a, x = .ok a ∧ f a = .ok b := by
  cases x with
  | error e => cases h
  | ok a => exact ⟨a, rfl, h⟩

/-- What is asked of a result can be decided if it can be for every value. -/
instance decidableForallOk {P : α → Prop} [DecidablePred P] (x : Except ε α) :
    Decidable (∀ a, x = .ok a → P a) :=
  match x with
  | .ok a => decidable_of_iff (P a) ⟨by rintro h _ ⟨⟩; exact h, fun h => h a rfl⟩
  | .error _ => isTrue nofun

theorem exists_of_isOk {x : Except ε α} (h : x.isOk = true) : ∃ a, x = .ok a := by
  cases x with
  | error e => cases h
  | ok a => exact ⟨a, rfl⟩

theorem exists_of_any_toOption {x : Except ε α} {p : α → Bool} (h : x.toOption.any p = true) :
    ∃ a, x = .ok a ∧ p a = true := by
  cases x with
  | error e => cases h
  | ok a => exact ⟨a, rfl, h⟩

/-- Where a sequence of steps fails, one of them fails behind others that succeed. -/
theorem exists_of_foldlM_error {f : β → α → Except ε β} {as : List α} {b : β} {e : ε}
    (h : as.foldlM f b = .error e) :
    ∃ front a back b', as = front ++ a :: back ∧ front.foldlM f b = .ok b' ∧ f b' a = .error e := by
  induction as generalizing b with
  | nil => cases h
  | cons a as ih =>
    rw [List.foldlM_cons] at h
    cases hb : f b a with
    | error e' =>
      rw [hb] at h
      cases h
      exact ⟨[], a, as, b, rfl, rfl, hb⟩
    | ok b₁ =>
      rw [hb] at h
      obtain ⟨front, a', back, b', rfl, hfront, hfail⟩ := ih h
      refine ⟨a :: front, a', back, b', rfl, ?_, hfail⟩
      rw [List.foldlM_cons, hb]
      exact hfront

end Graft
