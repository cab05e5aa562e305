import Mathlib

/-!
# Properties along a run

A deterministic system is a step function on states; a run is the list of its inputs. `Along`
says that a property of a state and the input taken there holds at every step of a run. The rules
carry an invariant through a run: from the initial state to every step (`along_of_invariant`), to
the final state (`foldl_invariant`), and between two properties that are equivalent wherever the
invariant holds and of which one preserves it (`along_iff_of_invariant`). `answers` are what a run
gives back, and related states give the same ones (`answers_eq_of_related`).
-/

namespace Run

variable {σ α : Type*} {step : σ → α → σ} {Inv : σ → Prop} {P C : σ → α → Prop}

/-- `P` holds of the state reached and the input taken there, at every step of the run. -/
def Along (step : σ → α → σ) (P : σ → α → Prop) : σ → List α → Prop
  | _, [] => True
  | s, a :: as => P s a ∧ Along step P (step s a) as

@[simp]
theorem along_nil (s : σ) : Along step P s [] := trivial

@[simp]
theorem along_cons (s : σ) (a : α) (as : List α) :
    Along step P s (a :: as) ↔ P s a ∧ Along step P (step s a) as := Iff.rfl

/-- A property of each input of the run holds along it. -/
theorem along_of_forall_mem {s : σ} {as : List α} (h : ∀ a ∈ as, ∀ s, P s a) :
    Along step P s as := by
  induction as generalizing s with
  | nil => trivial
  | cons a as ih =>
    exact ⟨h a List.mem_cons_self s, ih fun b hb => h b (List.mem_cons_of_mem a hb)⟩

/-- A property along a run in two parts. -/
theorem along_append {s : σ} {as bs : List α} :
    Along step P s (as ++ bs) ↔ Along step P s as ∧ Along step P (as.foldl step s) bs := by
  induction as generalizing s with
  | nil => simp
  | cons a as ih =>
    rw [List.cons_append, along_cons, along_cons, ih, List.foldl_cons, and_assoc]

/-- If each step that satisfies `C` keeps the invariant, and the invariant and `C` give `P` at
that step, then `P` holds along every run that satisfies `C`. -/
theorem along_of_invariant (hstep : ∀ s a, Inv s → C s a → Inv (step s a))
    (hP : ∀ s a, Inv s → C s a → P s a) {s : σ} {as : List α} (hs : Inv s)
    (hC : Along step C s as) : Along step P s as := by
  induction as generalizing s with
  | nil => trivial
  | cons a as ih => exact ⟨hP s a hs hC.1, ih (hstep s a hs hC.1) hC.2⟩

/-- If each step that satisfies `C` keeps the invariant, the final state of a run that satisfies
`C` has it. -/
theorem foldl_invariant (hstep : ∀ s a, Inv s → C s a → Inv (step s a)) {s : σ} {as : List α}
    (hs : Inv s) (hC : Along step C s as) : Inv (as.foldl step s) := by
  induction as generalizing s with
  | nil => exact hs
  | cons a as ih => exact ih (hstep s a hs hC.1) hC.2

/-- In a run whose steps all satisfy `F`: if `C` keeps the invariant and is equivalent to `P`
wherever the invariant holds, the run satisfies `P` at every step iff it satisfies `C`. -/
theorem along_iff_of_invariant (Inv : σ → Prop) {F : σ → α → Prop}
    (hstep : ∀ s a, Inv s → F s a → C s a → Inv (step s a))
    (hiff : ∀ s a, Inv s → F s a → (P s a ↔ C s a)) {s : σ} {as : List α} (hs : Inv s)
    (hF : Along step F s as) : Along step P s as ↔ Along step C s as := by
  induction as generalizing s with
  | nil => exact Iff.rfl
  | cons a as ih =>
    rw [along_cons, along_cons, hiff s a hs hF.1]
    exact and_congr_right fun hC => ih (hstep s a hs hF.1 hC) hF.2

/-- What the steps of a run give back. -/
def answers {β : Type*} (step : σ → α → σ) (answer : σ → α → β) : σ → List α → List β
  | _, [] => []
  | s, a :: as => answer s a :: answers step answer (step s a) as

theorem answers_concat {β : Type*} (step : σ → α → σ) (answer : σ → α → β) (s : σ) (as : List α)
    (a : α) :
    answers step answer s (as ++ [a]) =
      answers step answer s as ++ [answer (as.foldl step s) a] := by
  induction as generalizing s with
  | nil => rfl
  | cons b as ih => rw [List.cons_append, answers, ih, answers, List.foldl_cons, List.cons_append]

/-- Two runs with the same inputs give the same answers if related states answer alike and stay
related. -/
theorem answers_eq_of_related {β : Type*} {answer : σ → α → β} (R : σ → σ → Prop)
    (hanswer : ∀ s s' a, R s s' → P s a → answer s a = answer s' a)
    (hstep : ∀ s s' a, R s s' → P s a → R (step s a) (step s' a)) {s s' : σ} {as : List α}
    (hs : R s s') (hP : Along step P s as) :
    answers step answer s as = answers step answer s' as := by
  induction as generalizing s s' with
  | nil => rfl
  | cons a as ih =>
    rw [answers, answers, hanswer s s' a hs hP.1, ih (hstep s s' a hs hP.1) hP.2]

end Run
