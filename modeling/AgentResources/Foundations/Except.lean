import Mathlib

/-!
# Fallible computations

Rules for computations in `Except`: when a bind or a fold goes through, and with what result.
`Returns x p Q` is the total-correctness triple of a computation without arguments: `x` returns
exactly under the condition `p`, and then with a value that satisfies `Q`. `Refines R x o` compares
`x` with an abstract computation `o` that does not say how it fails: one returns iff the other does,
and then the values are related by `R`. Both compose along binds.
-/

namespace Except

variable {ε : Type*} {α β σ : Type}

/-- A computation binds to a returned value iff its first part returns and the rest does. -/
theorem bind_eq_ok {x : Except ε α} {f : α → Except ε β} {b : β} :
    (x >>= f) = .ok b ↔ ∃ a, x = .ok a ∧ f a = .ok b := by
  cases x with
  | error e => simp [bind, Except.bind]
  | ok a => simp [bind, Except.bind]

theorem bind_eq_error {x : Except ε α} {f : α → Except ε β} {e : ε} :
    (x >>= f) = .error e ↔ x = .error e ∨ ∃ a, x = .ok a ∧ f a = .error e := by
  cases x with
  | error e => simp [bind, Except.bind]
  | ok a => simp [bind, Except.bind]

@[simp] theorem ok_bind (a : α) (f : α → Except ε β) : (Except.ok a >>= f) = f a := rfl

@[simp] theorem error_bind (e : ε) (f : α → Except ε β) : (Except.error e >>= f) = .error e := rfl

/-- A fold whose step goes through on good inputs goes through iff all inputs are good, and then it
is the pure fold. -/
theorem foldlM_eq_ok {f : σ → α → Except ε σ} {good : α → Prop} {g : σ → α → σ}
    (hstep : ∀ s a s', f s a = .ok s' ↔ good a ∧ s' = g s a) {l : List α} {s s' : σ} :
    l.foldlM f s = .ok s' ↔ (∀ a ∈ l, good a) ∧ s' = l.foldl g s := by
  induction l generalizing s with
  | nil => simp [pure, Except.pure, eq_comm]
  | cons a l ih =>
    simp only [List.foldlM_cons, bind_eq_ok, hstep, ih, List.forall_mem_cons, List.foldl_cons]
    constructor
    · rintro ⟨_, ⟨ha, rfl⟩, hl, rfl⟩
      exact ⟨⟨ha, hl⟩, rfl⟩
    · rintro ⟨⟨ha, hl⟩, rfl⟩
      exact ⟨_, ⟨ha, rfl⟩, hl, rfl⟩

/-- A fold fails only in ways its step fails. -/
theorem of_foldlM_eq_error {f : σ → α → Except ε σ} {bad : ε → Prop}
    (hstep : ∀ s a e, f s a = .error e → bad e) {l : List α} {s : σ} {e : ε}
    (h : l.foldlM f s = .error e) : bad e := by
  induction l generalizing s with
  | nil => simp [pure, Except.pure] at h
  | cons a l ih =>
    rw [List.foldlM_cons] at h
    cases hf : f s a with
    | error e' =>
      rw [hf, error_bind, Except.error.injEq] at h
      exact h ▸ hstep s a e' hf
    | ok s' =>
      rw [hf, ok_bind] at h
      exact ih h

/-- A fold over what there may be. -/
theorem foldlM_toList (f : σ → α → Except ε σ) (o : Option α) (s : σ) :
    o.toList.foldlM f s = o.elim (.ok s) (f s) := by
  cases o with
  | none => rfl
  | some a => exact bind_pure (f s a)

/-- A fold over what there is under a condition. -/
theorem foldlM_ite (f : σ → α → Except ε σ) (p : Prop) [Decidable p] (a : α) (s : σ) :
    (if p then [a] else []).foldlM f s = if p then f s a else .ok s := by
  split
  · exact bind_pure (f s a)
  · rfl

/-- The computation returns iff `p`, and then with a value that satisfies `Q`. -/
def Returns (x : Except ε α) (p : Prop) (Q : α → Prop) : Prop :=
  ((∃ a, x = .ok a) ↔ p) ∧ ∀ a, x = .ok a → Q a

namespace Returns

variable {x : Except ε α} {f : α → Except ε β} {p q : Prop} {Q Q' : α → Prop} {R : β → Prop}

/-- A value that was returned, under a condition that holds. -/
theorem ok_of {a : α} (hp : p) (h : Q a) : Returns (.ok a : Except ε α) p Q :=
  ⟨iff_of_true ⟨a, rfl⟩ hp, fun _ ha => Except.ok.inj ha ▸ h⟩

theorem ok {a : α} (h : Q a) : Returns (.ok a : Except ε α) True Q := ok_of trivial h

/-- An error, under a condition that fails. -/
theorem error (e : ε) (hp : ¬ p) : Returns (.error e : Except ε α) p Q :=
  ⟨iff_of_false (by simp) hp, by simp⟩

/-- The first part decides whether the second runs, and what it may rely on. -/
theorem bind (hx : Returns x p Q) (hf : ∀ a, Q a → Returns (f a) q R) :
    Returns (x >>= f) (p ∧ q) R := by
  refine ⟨?_, fun b hb => ?_⟩
  · constructor
    · rintro ⟨b, hb⟩
      obtain ⟨a, ha, hfa⟩ := bind_eq_ok.mp hb
      exact ⟨hx.1.mp ⟨a, ha⟩, (hf a (hx.2 a ha)).1.mp ⟨b, hfa⟩⟩
    · rintro ⟨hp, hq⟩
      obtain ⟨a, ha⟩ := hx.1.mpr hp
      obtain ⟨b, hb⟩ := (hf a (hx.2 a ha)).1.mpr hq
      exact ⟨b, by rw [ha, ok_bind, hb]⟩
  · obtain ⟨a, ha, hfa⟩ := bind_eq_ok.mp hb
    exact (hf a (hx.2 a ha)).2 b hfa

/-- Restate the condition and weaken what is promised. -/
theorem imp (hx : Returns x p Q) (hp : p ↔ q) (hQ : ∀ a, Q a → Q' a) : Returns x q Q' :=
  ⟨hx.1.trans hp, fun a ha => hQ a (hx.2 a ha)⟩

/-- A fold whose step always returns and keeps an invariant does so. -/
theorem foldlM (Inv : σ → Prop) {f : σ → α → Except ε σ}
    (hstep : ∀ s a, Inv s → Returns (f s a) True Inv) {l : List α} {s : σ} (hs : Inv s) :
    Returns (l.foldlM f s) True Inv := by
  induction l generalizing s with
  | nil => exact ok hs
  | cons a l ih =>
    rw [List.foldlM_cons]
    exact ((hstep s a hs).bind fun s' hs' => ih hs').imp (and_self_iff) fun _ => id

end Returns

/-- The computation carries out an abstract one: it returns iff that does, and then the values are
related. -/
def Refines (R : α → β → Prop) : Except ε α → Option β → Prop
  | .ok a, some b => R a b
  | .error _, none => True
  | _, _ => False

namespace Refines

variable {γ δ : Type} {R : α → β → Prop} {S : γ → δ → Prop} {x : Except ε α} {o : Option β}
  {a : α} {b : β}

theorem ok (h : R a b) : Refines R (.ok a : Except ε α) (some b) := h

theorem error (e : ε) : Refines R (.error e : Except ε α) none := trivial

/-- The first parts refine one another, and so do the rests on related values. -/
theorem bind {f : α → Except ε γ} {g : β → Option δ} (hx : Refines R x o)
    (hf : ∀ a b, R a b → Refines S (f a) (g b)) : Refines S (x >>= f) (o >>= g) := by
  cases x with
  | error e =>
    cases o with
    | none => trivial
    | some b => exact hx.elim
  | ok a =>
    cases o with
    | none => exact hx.elim
    | some b => exact hf a b hx

/-- Weaken the relation. -/
theorem imp {R' : α → β → Prop} (hx : Refines R x o) (hR : ∀ a b, R a b → R' a b) :
    Refines R' x o := by
  cases x with
  | error e =>
    cases o with
    | none => trivial
    | some b => exact hx.elim
  | ok a =>
    cases o with
    | none => exact hx.elim
    | some b => exact hR a b hx

/-- Look at a part of what the abstract computation returns. -/
theorem map {S : α → γ → Prop} {f : β → γ} (hx : Refines R x o)
    (hS : ∀ a b, R a b → S a (f b)) : Refines S x (o.map f) := by
  cases x with
  | error e =>
    cases o with
    | none => trivial
    | some b => exact hx.elim
  | ok a =>
    cases o with
    | none => exact hx.elim
    | some b => exact hS a b hx

/-- Both make the same choice. -/
theorem ite {c : Prop} [Decidable c] {y : Except ε α} {o' : Option β}
    (hpos : c → Refines R x o) (hneg : ¬ c → Refines R y o') :
    Refines R (if c then x else y) (if c then o else o') := by
  split
  · next h => exact hpos h
  · next h => exact hneg h

/-- A computation whose condition for returning is that the abstract one returns. -/
theorem of_returns {p : Prop} {Q : α → Prop} (hx : Returns x p Q) (hp : p ↔ o.isSome)
    (hQ : ∀ a b, o = some b → Q a → R a b) : Refines R x o := by
  cases x with
  | error e =>
    cases o with
    | none => trivial
    | some b =>
      obtain ⟨a, ha⟩ := hx.1.mpr (hp.mpr rfl)
      cases ha
  | ok a =>
    cases o with
    | none => exact Bool.false_ne_true (hp.mp (hx.1.mp ⟨a, rfl⟩))
    | some b => exact hQ a b rfl (hx.2 a rfl)

theorem exists_ok_iff (h : Refines R x o) {P : α → Prop} {Q : β → Prop}
    (hPQ : ∀ a b, R a b → (P a ↔ Q b)) : (∃ a, x = .ok a ∧ P a) ↔ ∃ b, o = some b ∧ Q b := by
  cases x with
  | error e =>
    cases o with
    | none => simp
    | some b => exact h.elim
  | ok a =>
    cases o with
    | none => exact h.elim
    | some b => simpa using hPQ a b h

/-- What was returned is related to what the abstract computation returns. -/
theorem exists_of_eq_ok (h : Refines R x o) (hx : x = .ok a) : ∃ b, o = some b ∧ R a b := by
  subst hx
  cases o with
  | none => exact h.elim
  | some b => exact ⟨b, rfl, h⟩

end Refines

end Except
