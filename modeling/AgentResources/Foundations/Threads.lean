import AgentResources.Foundations.Except
import AgentResources.Foundations.Ownership

/-!
# Threads on a shared state

A thread is a program of atomic actions on a state that it shares with other threads. Alone it is
run to its end; in a pool the threads take their actions in any order, and new threads may start at
any time.

What a thread may rely on is the part of the state that it owns, in the sense of `Ownership`. A
thread `Meets` its specification if each of its actions leaves the parts of all others alone; what
it knows of its own part then survives whatever the others do. `Pool.Reaches.sound` is the rule for
pools: if every thread that is started meets its specification alone, then in every order of steps
each keeps to it. `Pool.Reaches.exists_done` says when a thread has ended.

## Main definitions

* `Thread`, `Thread.run`: programs, and running one alone;
* `Pool`, `Pool.step`, `Pool.Reaches`: threads in any order of steps;
* `Thread.Meets`: what a thread promises about the part that it owns.
-/

/-- A program of atomic actions on a state. An action may fail. -/
inductive Thread (σ ε α : Type) : Type 1
  /-- The program has ended with a result. -/
  | done (a : α)
  /-- An action, and the rest of the program on what it returns. -/
  | step {β : Type} (action : σ → Except ε (β × σ)) (next : β → Thread σ ε α)

namespace Thread

variable {σ ε α β : Type}

/-- Go on with `f` at the end of a program. -/
def bind : Thread σ ε α → (α → Thread σ ε β) → Thread σ ε β
  | .done a, f => f a
  | .step action next, f => .step action fun b => (next b).bind f

instance : Monad (Thread σ ε) where
  pure := .done
  bind := .bind

/-- A program of one action. -/
def atomic (action : σ → Except ε (α × σ)) : Thread σ ε α := .step action .done

/-- A program of one action that cannot fail. -/
def call (f : σ → α × σ) : Thread σ ε α := atomic fun s => .ok (f s)

@[simp] theorem pure_eq_done (a : α) : (pure a : Thread σ ε α) = .done a := rfl

@[simp] theorem done_bind (a : α) (f : α → Thread σ ε β) : (Thread.done a >>= f) = f a := rfl

@[simp] theorem atomic_bind (action : σ → Except ε (α × σ)) (f : α → Thread σ ε β) :
    (atomic action >>= f) = .step action f := rfl

@[simp] theorem call_bind (g : σ → α × σ) (f : α → Thread σ ε β) :
    (call g >>= f) = .step (fun s => .ok (g s)) f := rfl

/-- Run a program alone. -/
def run : Thread σ ε α → σ → Except ε (α × σ)
  | .done a, s => .ok (a, s)
  | .step action next, s => do
    let (b, s) ← action s
    (next b).run s

@[simp] theorem run_done (a : α) (s : σ) : (Thread.done a : Thread σ ε α).run s = .ok (a, s) := rfl

theorem run_step (action : σ → Except ε (β × σ)) (next : β → Thread σ ε α) (s : σ) :
    (Thread.step action next).run s = action s >>= fun r => (next r.1).run r.2 := rfl

/-- The result of a program that has ended. -/
def result? : Thread σ ε α → Option α
  | .done a => some a
  | .step _ _ => none

theorem result?_eq_some {t : Thread σ ε α} {a : α} : t.result? = some a ↔ t = .done a := by
  cases t with
  | done b => simp [result?]
  | step action next => simp [result?]

/-- Take the next action. -/
def advance : Thread σ ε α → σ → Except ε (Thread σ ε α × σ)
  | .done a, s => .ok (.done a, s)
  | .step action next, s =>
    match action s with
    | .error e => .error e
    | .ok (b, s) => .ok (next b, s)

/-- The program takes at most `n` actions. -/
def Within : ℕ → Thread σ ε α → Prop
  | _, .done _ => True
  | 0, .step _ _ => False
  | n + 1, .step _ next => ∀ b, (next b).Within n

/-- A program without actions left has ended. -/
theorem Within.exists_done {t : Thread σ ε α} (h : t.Within 0) : ∃ a, t = .done a := by
  cases t with
  | done a => exact ⟨a, rfl⟩
  | step action next => exact h.elim

@[simp] theorem within_done {n : ℕ} (a : α) : (Thread.done a : Thread σ ε α).Within n := by
  cases n <;> trivial

theorem Within.mono {t : Thread σ ε α} {n m : ℕ} (h : t.Within n) (hle : n ≤ m) : t.Within m := by
  induction t generalizing n m with
  | done a => exact within_done a
  | step action next ih =>
    cases n with
    | zero => exact h.elim
    | succ n =>
      cases m with
      | zero => exact absurd hle (Nat.not_succ_le_zero n)
      | succ m => exact fun b => ih b (h b) (Nat.le_of_succ_le_succ hle)

theorem within_ite {c : Prop} [Decidable c] {n : ℕ} {t t' : Thread σ ε α}
    (hpos : t.Within n) (hneg : t'.Within n) : (if c then t else t').Within n := by
  split
  · exact hpos
  · exact hneg

/-- One action is taken, if there is one. -/
theorem Within.advance {n : ℕ} {t t' : Thread σ ε α} {s s' : σ} (h : t.Within n)
    (hrun : t.advance s = .ok (t', s')) : t'.Within (n - 1) := by
  cases t with
  | done a =>
    cases hrun
    exact within_done a
  | step action next =>
    cases n with
    | zero => exact h.elim
    | succ n =>
      rw [Thread.advance] at hrun
      cases haction : action s with
      | error e =>
        rw [haction] at hrun
        cases hrun
      | ok r =>
        rw [haction] at hrun
        cases hrun
        exact h r.1

end Thread

/-- Threads on one state, each with a label, in the order in which they were started. -/
structure Pool (σ ε α ι : Type) where
  /-- The state they share. -/
  state : σ
  /-- The threads. -/
  threads : List (ι × Thread σ ε α)

/-- What can happen in a pool. -/
inductive PoolEvent (ι : Type)
  /-- A thread is started. -/
  | start (l : ι)
  /-- The `i`-th thread takes its next action. -/
  | advance (i : ℕ)

/-- The event starts a thread. -/
def PoolEvent.isStart {ι : Type} : PoolEvent ι → Bool
  | .start _ => true
  | .advance _ => false

/-- The thread that the event starts. -/
def PoolEvent.started? {ι : Type} : PoolEvent ι → Option ι
  | .start l => some l
  | .advance _ => none

/-- The event is the turn of the `i`-th thread. -/
def PoolEvent.isTurn {ι : Type} (i : ℕ) : PoolEvent ι → Bool
  | .start _ => false
  | .advance j => i == j

namespace Pool

variable {σ ε α ι : Type} {body : ι → Thread σ ε α}

/-- A pool without threads. -/
def init (s : σ) : Pool σ ε α ι := ⟨s, []⟩

/-- One event in a pool whose threads run the programs `body`. A thread that is not there, or has
ended, takes no action. -/
def step (body : ι → Thread σ ε α) (p : Pool σ ε α ι) : PoolEvent ι → Except ε (Pool σ ε α ι)
  | .start l => .ok { p with threads := p.threads ++ [(l, body l)] }
  | .advance i =>
    match p.threads[i]? with
    | none => .ok p
    | some (l, t) =>
      match t.advance p.state with
      | .error e => .error e
      | .ok (t, s) => .ok ⟨s, p.threads.set i (l, t)⟩

/-- The pools that are reached from `s` while every action is taken where `E` holds. -/
inductive Reaches (body : ι → Thread σ ε α) (E : ι → σ → Prop) (s : σ) :
    List (PoolEvent ι) → Pool σ ε α ι → Prop
  | init : Reaches body E s [] (Pool.init s)
  | step {events : List (PoolEvent ι)} {event : PoolEvent ι} {p p' : Pool σ ε α ι} :
    Reaches body E s events p →
      (∀ i x, event = .advance i → p.threads[i]? = some x → E x.1 p.state) →
      p.step body event = .ok p' → Reaches body E s (events ++ [event]) p'

variable {E : ι → σ → Prop} {s : σ} {events : List (PoolEvent ι)} {event : PoolEvent ι}
  {p p' : Pool σ ε α ι}

/-- What an event does to the threads. -/
theorem getElem?_step (h : p.step body event = .ok p') (i : ℕ) {x : ι × Thread σ ε α}
    (hx : p.threads[i]? = some x) :
    ∃ t, p'.threads[i]? = some (x.1, t) ∧
      if event.isTurn i then ∃ s', x.2.advance p.state = .ok (t, s') else t = x.2 := by
  have hi := (List.getElem?_eq_some_iff.mp hx).1
  cases event with
  | start l =>
    cases h
    exact ⟨x.2, by rw [List.getElem?_append_left hi, hx], rfl⟩
  | advance j =>
    rw [Pool.step] at h
    rcases eq_or_ne i j with rfl | hne
    · rw [hx] at h
      dsimp only at h
      cases hrun : x.2.advance p.state with
      | error e =>
        rw [hrun] at h
        cases h
      | ok r =>
        rw [hrun] at h
        cases h
        refine ⟨r.1, List.getElem?_set_self hi, ?_⟩
        rw [if_pos (by simp [PoolEvent.isTurn])]
        exact ⟨r.2, rfl⟩
    · have hturn : (PoolEvent.advance j : PoolEvent ι).isTurn i = false := by
        simpa [PoolEvent.isTurn] using hne
      rw [hturn]
      cases hy : p.threads[j]? with
      | none =>
        rw [hy] at h
        cases h
        exact ⟨x.2, hx, by simp⟩
      | some y =>
        rw [hy] at h
        dsimp only at h
        cases hrun : y.2.advance p.state with
        | error e =>
          rw [hrun] at h
          cases h
        | ok r =>
          rw [hrun] at h
          cases h
          exact ⟨x.2, by rw [List.getElem?_set_ne hne.symm, hx], by simp⟩

/-- Every reached pool is reached under a weaker condition. -/
theorem Reaches.mono {E' : ι → σ → Prop} (h : Reaches body E s events p)
    (hE : ∀ l s, E l s → E' l s) : Reaches body E' s events p := by
  induction h with
  | init => exact .init
  | step _ hallowed hstep ih =>
    exact .step ih (fun i x hevent hx => hE _ _ (hallowed i x hevent hx)) hstep

/-- The thread that is to move is one for which `E` holds. -/
def Allowed (E : ι → σ → Prop) (p : Pool σ ε α ι) : PoolEvent ι → Prop
  | .start _ => True
  | .advance i => ∀ x ∈ p.threads[i]?, E x.1 p.state

instance [∀ l s, Decidable (E l s)] : Decidable (p.Allowed E event) :=
  match event with
  | .start _ => inferInstanceAs (Decidable True)
  | .advance i => inferInstanceAs (Decidable (∀ x ∈ p.threads[i]?, E x.1 p.state))

/-- The pool after these events, if every one of them is allowed and goes through. -/
def schedule (body : ι → Thread σ ε α) (E : ι → σ → Prop) [∀ l s, Decidable (E l s)] :
    Pool σ ε α ι → List (PoolEvent ι) → Option (Pool σ ε α ι)
  | p, [] => some p
  | p, event :: events =>
    if p.Allowed E event then
      match p.step body event with
      | .error _ => none
      | .ok p' => schedule body E p' events
    else none

/-- A schedule that goes through is one of the orders of steps. -/
theorem Reaches.schedule [∀ l s, Decidable (E l s)] (h : Reaches body E s events p)
    {later : List (PoolEvent ι)} (hlater : p.schedule body E later = some p') :
    Reaches body E s (events ++ later) p' := by
  induction later generalizing events p with
  | nil =>
    obtain rfl := Option.some.inj hlater
    rwa [List.append_nil]
  | cons event later ih =>
    rw [Pool.schedule] at hlater
    split at hlater
    · next hallowed =>
      cases hstep : p.step body event with
      | error e =>
        rw [hstep] at hlater
        cases hlater
      | ok q =>
        rw [hstep] at hlater
        rw [List.append_cons]
        refine ih (.step h (fun i x hevent hx => ?_) hstep) hlater
        subst hevent
        exact hallowed x hx
    · cases hlater

/-- What is computed of a schedule that goes through holds of a pool that is reached. -/
theorem exists_reaches (body : ι → Thread σ ε α) (E : ι → σ → Prop) [∀ l s, Decidable (E l s)]
    (s : σ) (events : List (PoolEvent ι)) {β : Type*} (f : Pool σ ε α ι → β) {b : β}
    (h : ((init s).schedule body E events).map f = some b) :
    ∃ p, Reaches body E s events p ∧ f p = b := by
  obtain ⟨p, hp, hb⟩ := Option.map_eq_some_iff.mp h
  exact ⟨p, by simpa using Reaches.init.schedule hp, hb⟩

/-- The threads are those that were started, in their order. -/
theorem Reaches.map_fst_threads (h : Reaches body E s events p) :
    p.threads.map Prod.fst = events.filterMap PoolEvent.started? := by
  induction h with
  | init => rfl
  | @step events event p p' _ _ hstep ih =>
    rw [List.filterMap_append, ← ih]
    cases event with
    | start l =>
      cases hstep
      simp [PoolEvent.started?]
    | advance i =>
      rw [List.filterMap_cons_none rfl, List.filterMap_nil, List.append_nil]
      rw [Pool.step] at hstep
      split at hstep
      · cases hstep
        rfl
      · next l t hx =>
        split at hstep
        · cases hstep
        · cases hstep
          have hlabel : (p.threads.map Prod.fst)[i]? = some l := by
            rw [List.getElem?_map, hx, Option.map_some]
          obtain ⟨hi, hget⟩ := List.getElem?_eq_some_iff.mp hlabel
          rw [List.map_set, ← hget, List.set_getElem_self]

/-- There are as many threads as were started. -/
theorem Reaches.length_eq (h : Reaches body E s events p) :
    p.threads.length = events.countP PoolEvent.isStart := by
  induction h with
  | init => rfl
  | @step events event p p' _ _ hstep ih =>
    rw [List.countP_append, ← ih, List.countP_singleton]
    cases event with
    | start l =>
      cases hstep
      simp [PoolEvent.isStart]
    | advance j =>
      rw [Pool.step] at hstep
      split at hstep
      · cases hstep
        rfl
      · split at hstep
        · cases hstep
        · cases hstep
          simp [PoolEvent.isStart]

/-- The last event. -/
theorem Reaches.exists_of_concat (h : Reaches body E s (events ++ [event]) p') :
    ∃ p, Reaches body E s events p ∧ p.step body event = .ok p' := by
  generalize hall : events ++ [event] = all at h
  cases h with
  | init => simp at hall
  | @step events' event' p p' hreach _ hstep =>
    obtain ⟨rfl, hevent⟩ := List.append_inj' hall rfl
    obtain rfl := List.singleton_inj.mp hevent
    exact ⟨p, hreach, hstep⟩

/-- No thread has more actions left than its program. -/
theorem Reaches.forall_within {n : ℕ} (hbody : ∀ l, (body l).Within n)
    (h : Reaches body E s events p) : ∀ x ∈ p.threads, x.2.Within n := by
  induction h with
  | init =>
    intro x hx
    cases hx
  | @step events event p p' _ _ hstep ih =>
    intro y hy
    obtain ⟨i, hi⟩ := List.mem_iff_getElem?.mp hy
    cases hx : p.threads[i]? with
    | some x =>
      obtain ⟨t, ht, hturn⟩ := getElem?_step hstep i hx
      obtain rfl : (x.1, t) = y := Option.some.inj (ht.symm.trans hi)
      have hwithin := ih x (List.mem_of_getElem? hx)
      split at hturn
      · obtain ⟨s', hrun⟩ := hturn
        exact (hwithin.advance hrun).mono (Nat.sub_le n 1)
      · rw [hturn]
        exact hwithin
    | none =>
      -- only a thread that is started is new
      have hlen := List.getElem?_eq_none_iff.mp hx
      cases event with
      | start l =>
        cases hstep
        rw [List.getElem?_append_right hlen, List.getElem?_singleton] at hi
        split at hi
        · cases hi
          exact hbody l
        · cases hi
      | advance j =>
        have hi' := (List.getElem?_eq_some_iff.mp hi).1
        rw [Pool.step] at hstep
        split at hstep
        · cases hstep
          omega
        · split at hstep
          · cases hstep
          · cases hstep
            rw [List.length_set] at hi'
            omega

/-- A thread that was started has ended once it had as many turns as it has actions. -/
theorem Reaches.exists_done {n i : ℕ} (hbody : ∀ l, (body l).Within n)
    {later : List (PoolEvent ι)} (h : Reaches body E s (events ++ later) p)
    (hstart : i < events.countP PoolEvent.isStart)
    (hturns : n ≤ later.countP (PoolEvent.isTurn i)) :
    ∃ l a, p.threads[i]? = some (l, .done a) := by
  -- each turn takes one step off the bound
  suffices hwithin : ∃ x, p.threads[i]? = some x ∧
      x.2.Within (n - later.countP (PoolEvent.isTurn i)) by
    obtain ⟨x, hx, hwithin⟩ := hwithin
    rw [Nat.sub_eq_zero_of_le hturns] at hwithin
    obtain ⟨a, ha⟩ := hwithin.exists_done
    exact ⟨x.1, a, by rw [hx, ← ha]⟩
  clear hturns
  induction later using List.reverseRecOn generalizing p with
  | nil =>
    rw [List.append_nil] at h
    rw [← h.length_eq] at hstart
    exact ⟨_, List.getElem?_eq_getElem hstart, h.forall_within hbody _ (List.getElem_mem hstart)⟩
  | append_singleton later event ih =>
    rw [← List.append_assoc] at h
    obtain ⟨q, hreach, hstep⟩ := h.exists_of_concat
    obtain ⟨x, hx, hwithin⟩ := ih hreach
    obtain ⟨t, ht, hturn⟩ := getElem?_step hstep i hx
    refine ⟨_, ht, ?_⟩
    rw [List.countP_append, List.countP_singleton]
    split at hturn
    · obtain ⟨s', hrun⟩ := hturn
      rw [if_pos ‹_›, ← Nat.sub_sub]
      exact hwithin.advance hrun
    · rw [if_neg ‹_›, hturn]
      exact hwithin

end Pool

namespace Thread

variable {σ ε α β ω : Type} {O : Ownership σ ω} {E : σ → Prop} {bad : Prop} {Q : α → ω → Prop}

/-- The owner of `o` runs a program in a state that satisfies `A`. What it knows is about its own
part only, each action passes the parts of others by, and at its end the result and what is still
owned satisfy `Q`. Where `E` holds, an action fails only in the case `bad`. -/
def Meets (O : Ownership σ ω) (E : σ → Prop) (bad : Prop) (Q : α → ω → Prop) :
    Thread σ ε α → ω → (σ → Prop) → Prop
  | .done a, o, _ => Q a o
  | .step action next, o, A =>
    (∀ s s', O.holds o s' → O.same o s s' → A s → A s') ∧
    ∀ s, O.inv s → O.holds o s → A s → E s →
      (∀ e, action s = .error e → bad) ∧
      ∀ b s', action s = .ok (b, s') →
        ∃ o' A', O.Passes o o' s s' ∧ A' s' ∧ (next b).Meets O E bad Q o' A'

/-- What others do leaves a thread where its specification says it is. -/
theorem Meets.of_same {t : Thread σ ε α} {o : ω} {A : σ → Prop} {s s' : σ}
    (h : t.Meets O E bad Q o A) (hA : A s) (hholds : O.holds o s') (hsame : O.same o s s') :
    ∃ A', A' s' ∧ t.Meets O E bad Q o A' := by
  cases t with
  | done a => exact ⟨fun _ => True, trivial, h⟩
  | step action next => exact ⟨A, h.1 s s' hholds hsame hA, h⟩

/-- The next action of a thread that meets its specification. -/
theorem Meets.advance {t : Thread σ ε α} {o : ω} {A : σ → Prop} {s : σ}
    (h : t.Meets O E bad Q o A) (hinv : O.inv s) (hholds : O.holds o s) (hA : A s) (hE : E s) :
    (∀ e, t.advance s = .error e → bad) ∧
      ∀ t' s', t.advance s = .ok (t', s') →
        ∃ o' A', O.Passes o o' s s' ∧ A' s' ∧ t'.Meets O E bad Q o' A' := by
  cases t with
  | done a =>
    refine ⟨fun e he => ?_, fun t' s' hok => ?_⟩
    · cases he
    cases hok
    exact ⟨o, A, .refl O hinv hholds, hA, h⟩
  | step action next =>
    obtain ⟨herror, hok⟩ := h.2 s hinv hholds hA hE
    rw [Thread.advance]
    cases haction : action s with
    | error e =>
      refine ⟨fun e' he => herror e haction, fun t' s' hrun => ?_⟩
      cases hrun
    | ok r =>
      refine ⟨fun e he => ?_, fun t' s' hrun => ?_⟩
      · cases he
      · cases hrun
        exact hok r.1 r.2 haction

/-- A program whose action leaves the state as it is. -/
theorem Meets.step_of_eq {action : σ → Except ε (β × σ)} {next : β → Thread σ ε α} {o : ω}
    {A : σ → Prop} {b : β} (hsame : ∀ s s', O.holds o s' → O.same o s s' → A s → A s')
    (haction : ∀ s, A s → action s = .ok (b, s)) (hnext : (next b).Meets O E bad Q o A) :
    (Thread.step action next).Meets O E bad Q o A := by
  refine ⟨hsame, fun s hinv hholds hA _ => ⟨fun e he => ?_, fun b' s' hok => ?_⟩⟩
  · rw [haction s hA] at he
    cases he
  · rw [haction s hA] at hok
    cases hok
    exact ⟨o, A, .refl O hinv hholds, hA, hnext⟩

end Thread

namespace Pool

variable {σ ε α ι ω : Type} {O : Ownership σ ω} {body : ι → Thread σ ε α} {E : ι → σ → Prop}
  {bad : ι → Prop} {Q : ι → α → ω → Prop} {base : ω} {s₀ : σ} {p p' : Pool σ ε α ι} {own : ℕ → ω}

/-- The threads of a pool divide its state, and each is where its specification says. -/
structure Owned (O : Ownership σ ω) (E : ι → σ → Prop) (bad : ι → Prop) (Q : ι → α → ω → Prop)
    (base : ω) (s₀ : σ) (p : Pool σ ε α ι) (own : ℕ → ω) : Prop where
  divides : O.Divides base s₀ p.state p.threads.length own
  meets : ∀ (i : ℕ) (x : ι × Thread σ ε α), p.threads[i]? = some x →
    ∃ A : σ → Prop, A p.state ∧ x.2.Meets O (E x.1) (bad x.1) (Q x.1) (own i) A

/-- A pool without threads. -/
theorem Owned.init (hinv : O.inv s₀) (hbase : O.holds base s₀) (own : ℕ → ω) :
    (Pool.init s₀ : Pool σ ε α ι).Owned O E bad Q base s₀ own where
  divides := .zero hinv hbase own
  meets i x hx := by simp [Pool.init] at hx

/-- A new thread owns nothing. -/
theorem Owned.start (h : p.Owned O E bad Q base s₀ own) (l : ι)
    (hbody : (body l).Meets O (E l) (bad l) (Q l) O.empty fun _ => True) :
    Owned O E bad Q base s₀ { p with threads := p.threads ++ [(l, body l)] }
      (Function.update own p.threads.length O.empty) := by
  refine ⟨?_, fun i x hx => ?_⟩
  · rw [List.length_append, List.length_singleton]
    exact h.divides.add
  · rcases Nat.lt_or_ge i p.threads.length with hi | hi
    · rw [List.getElem?_append_left hi] at hx
      rw [Function.update_of_ne hi.ne]
      exact h.meets i x hx
    · rw [List.getElem?_append_right hi, List.getElem?_singleton] at hx
      split at hx
      · next hzero =>
        cases hx
        obtain rfl : i = p.threads.length := by omega
        rw [Function.update_self]
        exact ⟨_, trivial, hbody⟩
      · cases hx

/-- A step of one thread passes all others by. -/
theorem Owned.pass (h : p.Owned O E bad Q base s₀ own) {i : ℕ} {x : ι × Thread σ ε α}
    (hx : p.threads[i]? = some x) {t' : Thread σ ε α} {s' : σ} {o' : ω} {A' : σ → Prop}
    (hpass : O.Passes (own i) o' p.state s') (hA' : A' s')
    (hmeets : t'.Meets O (E x.1) (bad x.1) (Q x.1) o' A') :
    Owned O E bad Q base s₀ ⟨s', p.threads.set i (x.1, t')⟩ (Function.update own i o') := by
  have hi := (List.getElem?_eq_some_iff.mp hx).1
  refine ⟨?_, fun j y hy => ?_⟩
  · rw [List.length_set]
    exact h.divides.pass hi hpass
  · rcases eq_or_ne j i with rfl | hne
    · rw [List.getElem?_set_self hi] at hy
      obtain rfl := Option.some.inj hy
      rw [Function.update_self]
      exact ⟨A', hA', hmeets⟩
    · -- what another thread knows is about its own part
      rw [List.getElem?_set_ne hne.symm] at hy
      rw [Function.update_of_ne hne]
      obtain ⟨A, hA, hm⟩ := h.meets j y hy
      have hj := (List.getElem?_eq_some_iff.mp hy).1
      obtain ⟨hholds, hsame, -⟩ := h.divides.passed hi hpass hj hne
      exact hm.of_same hA hholds hsame

/-- An event in a pool. -/
theorem Owned.step (h : p.Owned O E bad Q base s₀ own)
    (hbody : ∀ l, (body l).Meets O (E l) (bad l) (Q l) O.empty fun _ => True)
    {event : PoolEvent ι}
    (hE : ∀ i x, event = .advance i → p.threads[i]? = some x → E x.1 p.state)
    (hstep : p.step body event = .ok p') : ∃ own', p'.Owned O E bad Q base s₀ own' := by
  cases event with
  | start l =>
    cases hstep
    exact ⟨_, h.start l (hbody l)⟩
  | advance i =>
    rw [Pool.step] at hstep
    cases hx : p.threads[i]? with
    | none =>
      simp only [hx] at hstep
      cases hstep
      exact ⟨own, h⟩
    | some x =>
      simp only [hx] at hstep
      have hi := (List.getElem?_eq_some_iff.mp hx).1
      -- the thread that moves takes one step of its contract
      obtain ⟨A, hA, hmeets⟩ := h.meets i x hx
      have hadvance := (hmeets.advance h.divides.inv (h.divides.holds i hi) hA (hE i x rfl hx)).2
      cases hrun : x.2.advance p.state with
      | error e =>
        simp only [hrun] at hstep
        cases hstep
      | ok r =>
        simp only [hrun] at hstep
        cases hstep
        obtain ⟨o', A', hpass, hA', hmeets'⟩ := hadvance r.1 r.2 hrun
        exact ⟨_, h.pass hx hpass hA' hmeets'⟩

/-- In every order of steps every thread keeps to its specification. -/
theorem Reaches.sound
    (hbody : ∀ l, (body l).Meets O (E l) (bad l) (Q l) O.empty fun _ => True)
    (hinv : O.inv s₀) (hbase : O.holds base s₀) {events : List (PoolEvent ι)}
    (h : Reaches body E s₀ events p) : ∃ own, p.Owned O E bad Q base s₀ own := by
  induction h with
  | init => exact ⟨fun _ => O.empty, .init hinv hbase _⟩
  | step _ hE hstep ih =>
    obtain ⟨own, hown⟩ := ih
    exact hown.step hbody hE hstep

/-- The next event fails only in a bad case of the thread that moves. -/
theorem Owned.bad_of_error (h : p.Owned O E bad Q base s₀ own) {event : PoolEvent ι}
    (hE : ∀ i x, event = .advance i → p.threads[i]? = some x → E x.1 p.state) {e : ε}
    (hstep : p.step body event = .error e) :
    ∃ i x, event = .advance i ∧ p.threads[i]? = some x ∧ bad x.1 := by
  cases event with
  | start l => cases hstep
  | advance i =>
    rw [Pool.step] at hstep
    cases hx : p.threads[i]? with
    | none =>
      simp only [hx] at hstep
      cases hstep
    | some x =>
      simp only [hx] at hstep
      obtain ⟨A, hA, hmeets⟩ := h.meets i x hx
      have hadvance := (hmeets.advance h.divides.inv
        (h.divides.holds i (List.getElem?_eq_some_iff.mp hx).1) hA
        (hE i x rfl hx)).1
      cases hrun : x.2.advance p.state with
      | error e' => exact ⟨i, x, rfl, hx, hadvance e' hrun⟩
      | ok r =>
        simp only [hrun] at hstep
        cases hstep

/-- A thread that has ended has a result as its specification says. -/
theorem Owned.of_done (h : p.Owned O E bad Q base s₀ own) {i : ℕ} {l : ι} {a : α}
    (hx : p.threads[i]? = some (l, .done a)) : Q l a (own i) := by
  obtain ⟨A, -, hmeets⟩ := h.meets i _ hx
  exact hmeets

/-- A sum of zeros and ones counts the ones. -/
theorem sum_range_eq_countP {f : ℕ → ℕ} {P : α → Prop} [DecidablePred P] {results : List α}
    (hf : ∀ i a, results[i]? = some a → f i = if P a then 1 else 0) :
    ∑ i ∈ Finset.range results.length, f i = results.countP fun a => P a := by
  induction results using List.reverseRecOn with
  | nil => rfl
  | append_singleton results a ih =>
    have hold : ∀ i b, results[i]? = some b → f i = if P b then 1 else 0 := by
      intro i b hb
      refine hf i b ?_
      rw [List.getElem?_append_left (List.getElem?_eq_some_iff.mp hb).1, hb]
    rw [List.length_append, List.length_singleton, Finset.sum_range_succ, ih hold,
      hf results.length a (by simp), List.countP_append, List.countP_singleton]
    simp

/-- When all threads have ended, what was added is what they have left. -/
theorem Owned.total_of_done (h : p.Owned O E bad Q base s₀ own) {P : α → Prop} [DecidablePred P]
    (hQ : ∀ l a o, Q l a o → O.size o = if P a then 1 else 0) {results : List α}
    (hdone : p.threads.map (·.2) = results.map .done) :
    O.total p.state = O.total s₀ + results.countP fun a => P a := by
  have hlen : p.threads.length = results.length := by
    simpa using congrArg List.length hdone
  rw [h.divides.total_eq, hlen]
  refine congrArg _ (sum_range_eq_countP fun i a ha => ?_)
  have hx : (p.threads.map (·.2))[i]? = some (.done a) := by
    rw [hdone, List.getElem?_map, ha, Option.map_some]
  rw [List.getElem?_map, Option.map_eq_some_iff] at hx
  obtain ⟨⟨l, t⟩, hx, rfl⟩ := hx
  exact hQ l a _ (h.of_done hx)

end Pool
