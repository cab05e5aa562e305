import AgentResources.Foundations.Run

/-!
# Machines that share a state

A machine has a state of its own and works on a state that it shares with others. It is `Isolated`
if all that it does depends on a part of the shared state only: two shared states that are the same
in that part are to it one and the same. What others do to the rest of the shared state is then not
noticed. In every `History` in which the others keep its part, the machine ends where it would have
ended alone, and it has given the same answers (`History.eq_alone`).

## Main definitions

* `Machine`, `Machine.run`, `Machine.answers`: machines, and running one alone;
* `Machine.Isolated`: the machine depends on a part of the shared state only;
* `Machine.History`: the steps of a machine, and between them those of others.
-/

/-- A machine with states `γ` of its own, on states `σ` that it shares. -/
structure Machine (σ γ α β : Type*) where
  /-- What an input does to both states. -/
  step : γ → σ → α → γ × σ
  /-- What is answered to an input. -/
  answer : γ → σ → α → β

namespace Machine

variable {σ γ α β : Type*} {M : Machine σ γ α β}

/-- Run a machine alone. -/
def run (M : Machine σ γ α β) (c : γ) (s : σ) (as : List α) : γ × σ :=
  as.foldl (fun x a => M.step x.1 x.2 a) (c, s)

/-- What a machine that runs alone answers. -/
def answers (M : Machine σ γ α β) (c : γ) (s : σ) (as : List α) : List β :=
  Run.answers (fun x a => M.step x.1 x.2 a) (fun x a => M.answer x.1 x.2 a) (c, s) as

@[simp] theorem run_nil (c : γ) (s : σ) : M.run c s [] = (c, s) := rfl

theorem run_concat (c : γ) (s : σ) (as : List α) (a : α) :
    M.run c s (as ++ [a]) = M.step (M.run c s as).1 (M.run c s as).2 a := by
  rw [run, List.foldl_append]
  rfl

theorem answers_concat (c : γ) (s : σ) (as : List α) (a : α) :
    M.answers c s (as ++ [a]) =
      M.answers c s as ++ [M.answer (M.run c s as).1 (M.run c s as).2 a] :=
  Run.answers_concat _ _ _ _ _

/-- The machine depends on a part of the shared state only: on what is the same in related states.
It is only used as `ok` allows, and then keeps its invariant. -/
structure Isolated (M : Machine σ γ α β) (same : σ → σ → Prop) (inv : γ → σ → Prop)
    (ok : γ → σ → α → Prop) : Prop where
  equivalence : Equivalence same
  inv_step : ∀ c s a, inv c s → ok c s a → inv (M.step c s a).1 (M.step c s a).2
  inv_same : ∀ c s s', same s s' → inv c s → inv c s'
  ok_same : ∀ c s s' a, same s s' → inv c s → ok c s a → ok c s' a
  step_same : ∀ c s s' a, same s s' → inv c s → ok c s a →
    (M.step c s' a).1 = (M.step c s a).1 ∧ same (M.step c s a).2 (M.step c s' a).2
  answer_same : ∀ c s s' a, same s s' → inv c s → ok c s a → M.answer c s' a = M.answer c s a

variable {same : σ → σ → Prop} {inv : γ → σ → Prop} {ok : γ → σ → α → Prop}
  {c₀ c : γ} {s₀ s : σ} {as : List α} {bs : List β}

/-- The inputs `as` with the answers `bs`, while others change the shared state, but not the part
of this machine. -/
inductive History (M : Machine σ γ α β) (same : σ → σ → Prop) (ok : γ → σ → α → Prop) (c₀ : γ)
    (s₀ : σ) : List α → List β → γ → σ → Prop
  | start : History M same ok c₀ s₀ [] [] c₀ s₀
  | others {as : List α} {bs : List β} {c : γ} {s s' : σ} :
    History M same ok c₀ s₀ as bs c s → same s s' → History M same ok c₀ s₀ as bs c s'
  | own {as : List α} {bs : List β} {c : γ} {s : σ} (a : α) :
    History M same ok c₀ s₀ as bs c s → ok c s a →
      History M same ok c₀ s₀ (as ++ [a]) (bs ++ [M.answer c s a]) (M.step c s a).1 (M.step c s a).2

/-- An isolated machine ends where it would have ended alone, with the same answers. -/
theorem History.eq_alone (hM : M.Isolated same inv ok) (hinv : inv c₀ s₀)
    (h : History M same ok c₀ s₀ as bs c s) :
    inv c s ∧ (M.run c₀ s₀ as).1 = c ∧ same (M.run c₀ s₀ as).2 s ∧ M.answers c₀ s₀ as = bs := by
  induction h with
  | start => exact ⟨hinv, rfl, hM.equivalence.refl s₀, rfl⟩
  | others _ hsame ih =>
    obtain ⟨hinv, hrun, halone, hanswers⟩ := ih
    exact ⟨hM.inv_same _ _ _ hsame hinv, hrun, hM.equivalence.trans halone hsame, hanswers⟩
  | @own as bs c s a _ hok ih =>
    obtain ⟨hinv, hrun, halone, hanswers⟩ := ih
    -- the same input in the state the machine would be in alone
    have hback := hM.equivalence.symm halone
    have hinvAlone := hM.inv_same _ _ _ hback hinv
    have hokAlone := hM.ok_same _ _ _ a hback hinv hok
    obtain ⟨hstep, hsame⟩ := hM.step_same _ _ _ a halone hinvAlone hokAlone
    rw [run_concat, answers_concat, hrun, hanswers]
    refine ⟨hM.inv_step _ _ _ hinv hok, hstep.symm, hsame, ?_⟩
    rw [hM.answer_same _ _ _ a halone hinvAlone hokAlone]

end Machine
