import AgentResources.Grpc.Server

/-!
# Calls in any order of steps

What a call knows between two of its actions is about its own arena: that it is there, how much of
it is handed out, and what its structs hold. So every call `Serves` what its files say, whatever the
other calls do in between.

## Main results

* `callsInFlight_replies`: in every order of steps each call is answered as if it were alone;
* `callsInFlight_answered`: a call is answered once it had twelve turns;
* `callsInFlight_progress`: calls that return alone do not halt the agent;
* `callsInFlight_mappings`: what is mapped in the end are the arenas that were leaked.
-/

namespace AgentResources

variable {arch : Arch} {h : Host} {ctx : ServerContext} {s s' : Proc} {a n : ℕ}
  {cpu : SysCpu} {memory : SysMemory}

/-- The call ran out of time after its arena was created. -/
def Response.Leaked (r : Response) : Prop := r.status.code = .deadlineExceeded ∧ r.codes ≠ []

instance (r : Response) : Decidable r.Leaked := inferInstanceAs (Decidable (_ ∧ _))

/-- A fresh arena is known by its bytes. -/
theorem FreshArena.of_eqOn (hs : FreshArena a s.maps n s) (hn : n ≤ 704)
    (hmapping : requestMapping a ∈ s'.maps)
    (heq : Set.EqOn s'.mem.byte s.mem.byte (Set.Ico (requestMapping a).lo (requestMapping a).hi)) :
    FreshArena a s'.maps n s' := by
  have hheader : memArena s'.mem a = memArena s.mem a :=
    memArena_eq_of_eqOn (heq.mono (range_subset_requestMapping le_rfl
      (by simp only [arenaBase, sizeofMemArena]; omega)))
  refine ⟨hs.arenaAt.of_mem_maps hmapping hheader, ?_, rfl, fun x hx => ?_⟩
  · rw [position, hheader]
    exact hs.position_eq
  · rw [heq (range_subset_requestMapping (le_arenaBase a) (by omega) hx)]
    exact hs.zeroed x hx

/-! ## The actions of a call -/

/-- A step within the arena passes all other calls by. -/
theorem Within.passes (h : Within a s s') (hs : s.Tidy) (ha : requestMapping a ∈ s.maps) :
    Proc.parts.Passes [requestMapping a] [requestMapping a] s s' :=
  Proc.passes_of_kept hs (List.forall_mem_singleton.mpr ha) h.maps_eq
    fun r hr hapart => h.eqOn r hr (hapart _ (List.mem_singleton_self _))

/-- Handing out a struct. -/
theorem FreshArena.within_alloc (hs : FreshArena a s.maps n s) (size : UInt64)
    (hroom : n + size.toNat ≤ 704) {p : ℕ} (halloc : arenaAlloc a size s = .ok (p, s')) :
    Within a s s' := by
  have hcap : (MiB 8).toNat = 8388608 := by decide
  have hfits : HasRoom a (MiB 8) s size.toNat :=
    hs.arenaAt.hasRoom (by decide) (by rw [hs.position_eq, hcap]; omega)
  obtain ⟨s₁, halloc', -, -, hmaps, -, heq⟩ := hs.arenaAt.alloc_of_room hfits
  obtain rfl : s₁ = s' := (Prod.mk.inj (Except.ok.inj (halloc'.symm.trans halloc))).2
  refine .of_eqOn hmaps heq (Set.union_subset ?_ ?_)
  · exact range_subset_requestMapping le_rfl (by simp only [arenaBase, sizeofMemArena]; omega)
  · rw [hs.position_eq]
    exact range_subset_requestMapping ((le_arenaBase a).trans (Nat.le_add_right _ _)) (by omega)

/-! ## Serving a call -/

section Serves

variable {E : Proc → Prop} {bad : Prop} {ρ ρ' : Option Response} {o : List Mapping}
  {A A' : Proc → Prop} {β γ : Type}

/-- A thread answers what `ρ` says and still owns an arena iff it was leaked. It fails only where
there is no answer. -/
def Serves (E : Proc → Prop) (bad : Prop) (ρ : Option Response) (t : Thread Proc Halt Response)
    (o : List Mapping) (A : Proc → Prop) : Prop :=
  (ρ = none → bad) →
    t.Meets Proc.parts E bad (fun r q => ρ = some r ∧ q.length = if r.Leaked then 1 else 0) o A

/-- What is known survives the steps of other calls. -/
def Own (o : List Mapping) (A : Proc → Prop) : Prop :=
  ∀ s s', Proc.parts.holds o s' → Proc.parts.same o s s' → A s → A s'

/-- The arena is there and its bytes are the same after a step of another call. -/
theorem own_arena (hA : ∀ s s' : Proc, requestMapping a ∈ s'.maps →
      Set.EqOn s'.mem.byte s.mem.byte (Set.Ico (requestMapping a).lo (requestMapping a).hi) →
        A s → A s') : Own [requestMapping a] A :=
  fun s s' hholds hsame =>
    hA s s' (hholds _ (List.mem_singleton_self _)) (hsame _ (List.mem_singleton_self _))

namespace Serves

/-- A thread that has ended. -/
theorem done {r : Response} (ho : o.length = if r.Leaked then 1 else 0) :
    Serves E bad (some r) (.done r) o A := fun _ => ⟨rfl, ho⟩

/-- A check before the next action. -/
theorem ite {c : Prop} [Decidable c] {t t' : Thread Proc Halt Response}
    (hpos : c → Serves E bad ρ t o A) (hneg : ¬ c → Serves E bad ρ' t' o A) :
    Serves E bad (if c then ρ else ρ') (if c then t else t') o A := by
  split
  · next h => exact hpos h
  · next h => exact hneg h

/-- An action that carries out a part `f` of the answer, which may depend on what the kernel
grants. -/
theorem act {action : Proc → Except Halt (β × Proc)} {next : β → Thread Proc Halt Response}
    {f : Proc → Option γ} {x : Option γ} {k : γ → Option Response} (hown : Own o A)
    (hsome : ∀ s c, f s = some c → x = some c)
    (hnone : ∀ s, E s → f s = none → x = none ∨ bad)
    (haction : ∀ s, s.Tidy → (∀ r ∈ o, r ∈ s.maps) → A s →
      Except.Refines (fun r c => ∃ o' A', Proc.parts.Passes o o' s r.2 ∧ A' r.2 ∧
        Serves E bad (k c) (next r.1) o' A') (action s) (f s)) :
    Serves E bad (x >>= k) (.step action next) o A := by
  refine fun hbad => ⟨hown, fun s hs ho hA hE => ?_⟩
  have hrefines := haction s hs ho hA
  refine ⟨fun e he => ?_, fun b s' hok => ?_⟩
  · rw [he] at hrefines
    cases hf : f s with
    | none =>
      rcases hnone s hE hf with hx | hx
      · exact hbad (by rw [hx]; rfl)
      · exact hx
    | some c =>
      rw [hf] at hrefines
      exact hrefines.elim
  · obtain ⟨c, hc, o', A', hpass, hA', hnext⟩ := hrefines.exists_of_eq_ok hok
    have hx := hsome s c hc
    refine ⟨o', A', hpass, hA', ?_⟩
    subst hx
    exact hnext hbad

/-- An action that carries out a part of the answer. -/
theorem refines {action : Proc → Except Halt (β × Proc)} {next : β → Thread Proc Halt Response}
    {x : Option γ} {k : γ → Option Response} (hown : Own o A)
    (haction : ∀ s, s.Tidy → (∀ r ∈ o, r ∈ s.maps) → A s →
      Except.Refines (fun r c => ∃ o' A', Proc.parts.Passes o o' s r.2 ∧ A' r.2 ∧
        Serves E bad (k c) (next r.1) o' A') (action s) x) :
    Serves E bad (x >>= k) (.step action next) o A :=
  act (f := fun _ => x) hown (fun _ _ h => h) (fun _ _ h => .inl h) haction

/-- An action that always goes through. -/
theorem call {g : Proc → β × Proc} {next : β → Thread Proc Halt Response} (hown : Own o A)
    (hcall : ∀ s, s.Tidy → (∀ r ∈ o, r ∈ s.maps) → A s →
      ∃ o' A', Proc.parts.Passes o o' s (g s).2 ∧ A' (g s).2 ∧
        Serves E bad ρ (next (g s).1) o' A') :
    Serves E bad ρ (.step (fun s => .ok (g s)) next) o A :=
  refines (x := some ()) (k := fun _ => ρ) hown fun s hs ho hA => .ok (hcall s hs ho hA)

/-- A collector at work within the arena. -/
theorem collect {action : Proc → Except Halt (β × Proc)} {next : β → Thread Proc Halt Response}
    {f : Proc → Option γ} {x : Option γ} {k : γ → Option Response} (code : γ → β)
    {A' : γ → Proc → Prop} (hown : Own [requestMapping a] A)
    (hsome : ∀ s c, f s = some c → x = some c)
    (hnone : ∀ s, E s → f s = none → x = none ∨ bad)
    (haction : ∀ s, s.WellMapped → requestMapping a ∈ s.maps → A s →
      Except.Refines (fun r c => r.1 = code c ∧ Within a s r.2 ∧ A' c r.2) (action s) (f s))
    (hnext : ∀ c, Serves E bad (k c) (next (code c)) [requestMapping a] (A' c)) :
    Serves E bad (x >>= k) (.step action next) [requestMapping a] A := by
  refine act hown hsome hnone fun s hs ho hA => ?_
  have ha := ho _ (List.mem_singleton_self _)
  refine (haction s hs.wellMapped ha hA).imp fun r c hr => ?_
  obtain ⟨hcode, hwithin, hA'⟩ := hr
  refine ⟨_, A' c, hwithin.passes hs ha, hA', ?_⟩
  rw [hcode]
  exact hnext c

/-- Handing out a struct. -/
theorem alloc {size : UInt64} {next : ℕ → Thread Proc Halt Response}
    (hroom : n + size.toNat ≤ 704)
    (hA' : ∀ s, FreshArena a s.maps (n + size.toNat) s → A' s)
    (hnext : Serves E bad ρ (next (arenaBase a + n)) [requestMapping a] A') :
    Serves E bad ρ (.step (arenaAlloc a size) next) [requestMapping a]
      fun s => FreshArena a s.maps n s := by
  refine refines (x := some ()) (k := fun _ => ρ)
    (own_arena fun s s' hmapping heq hs => hs.of_eqOn (by omega) hmapping heq) fun s hs ho hA => ?_
  obtain ⟨s', halloc, hfresh⟩ := hA.alloc size (by omega)
  have hwithin := hA.within_alloc size hroom halloc
  rw [halloc]
  refine .ok ⟨_, A', hwithin.passes hs (ho _ (List.mem_singleton_self _)), hA' s' ?_, hnext⟩
  rwa [hwithin.maps_eq]

/-- Creating the arena. Without one the call can only fail. -/
theorem create {k : Kernel} {next : ℕ → Thread Proc Halt Response}
    (hE : ∀ s, E s → (k.mmap s.maps (mappingLen (MiB 8))).isSome ∨ bad)
    (hnull : bad → (next NULL).Meets Proc.parts E bad
      (fun r q => ρ = some r ∧ q.length = if r.Leaked then 1 else 0) [] fun _ => True)
    (hnext : ∀ a, (requestMapping a).hi ≤ 2 ^ 64 →
      Serves E bad ρ (next a) [requestMapping a] fun s => FreshArena a s.maps 0 s) :
    Serves E bad ρ (.step (fun s => .ok (arenaCreate k (MiB 8) s)) next) [] fun _ => True := by
  refine fun hbad => ⟨fun _ _ _ _ _ => trivial, fun s hs ho _ hEs => ?_⟩
  refine ⟨fun e he => ?_, fun b s' hok => ?_⟩
  · cases he
  cases hgrant : k.mmap s.maps (mappingLen (MiB 8)) with
  | none =>
    obtain ⟨rfl, rfl⟩ : NULL = b ∧ s = s' := by
      simpa [arenaCreate_of_refused hgrant] using hok
    refine ⟨[], _, .refl _ hs ho, trivial, hnull ((hE s hEs).resolve_left ?_)⟩
    simp [hgrant]
  | some a =>
    obtain ⟨-, -, -, htop, -⟩ := k.mmap_spec hgrant
    obtain ⟨s₀, hcreate, hfresh⟩ := freshArena_create hgrant
    obtain ⟨-, -, hmaps, heq⟩ := arenaCreate_of_granted hgrant
    rw [hcreate] at hmaps heq
    obtain ⟨rfl, rfl⟩ : a = b ∧ s₀ = s' := by simpa [hcreate] using hok
    refine ⟨[requestMapping a], _, Proc.passes_of_mmap hs hgrant hmaps heq, ?_,
      hnext a (Nat.le_of_add_right_le htop) hbad⟩
    dsimp only at hmaps ⊢
    rwa [hmaps]

/-- Destroying the arena ends a call that leaks nothing. -/
theorem destroy {r : Response} (hleak : ¬ r.Leaked) (hown : Own [requestMapping a] A)
    (hA : ∀ s, A s → ArenaAt a (MiB 8) s) :
    Serves E bad (some r) (.step (fun s => .ok ((), arenaDestroy a s)) fun _ => .done r)
      [requestMapping a] A := by
  refine call hown fun s hs ho hAs => ?_
  have hat := hA s hAs
  have hdestroy : arenaDestroy a s = s.munmap a (mappingLen (MiB 8)) := by
    rw [arenaDestroy, if_neg hat.ne_null, hat.capacity_eq]
  dsimp only
  rw [hdestroy]
  exact ⟨[], fun _ => True, Proc.passes_of_munmap hs (ho _ (List.mem_singleton_self _)), trivial,
    done (by rw [if_neg hleak]; rfl)⟩

/-- Filling the message from the struct. -/
theorem setCpu {p : ℕ} {next : CpuMessage → Thread Proc Halt Response}
    {k : CpuMessage → Option Response} (hown : Own o A)
    (hA : ∀ s, A s → s.mem.loadAs SysCpu p = cpu)
    (hnext : ∀ msg, Serves E bad (k msg) (next msg) o A) :
    Serves E bad (cpuMessageOf cpu >>= k)
      (.step (fun s => (·, s) <$> setCpu (s.mem.loadAs SysCpu p)) next) o A := by
  refine refines hown fun s hs ho hAs => ?_
  rw [hA s hAs]
  have hset := setCpu_refines cpu
  cases hcpu : AgentResources.setCpu cpu with
  | error e =>
    rw [hcpu] at hset
    cases hmsg : cpuMessageOf cpu with
    | none => exact .error e
    | some msg =>
      rw [hmsg] at hset
      exact hset.elim
  | ok msg =>
    rw [hcpu] at hset
    obtain ⟨msg', hmsg', rfl⟩ := hset.exists_of_eq_ok rfl
    rw [hmsg']
    exact .ok ⟨o, A, .refl _ hs ho, hAs, hnext msg⟩

end Serves

/-- Without an arena the first collector fails its first assertion. -/
theorem meets_error {action : Proc → Except Halt (β × Proc)} {next : β → Thread Proc Halt Response}
    {Q : Response → List Mapping → Prop} {e : Halt} (hbad : bad)
    (haction : ∀ s, action s = .error e) :
    (Thread.step action next).Meets Proc.parts E bad Q [] fun _ => True := by
  refine ⟨fun _ _ _ _ _ => trivial, fun s _ _ _ _ => ⟨fun _ _ => hbad, fun b s' hok => ?_⟩⟩
  rw [haction s] at hok
  cases hok

/-- Nothing is handed out of an arena that is not there. -/
theorem meets_alloc_null {size : UInt64} {next : ℕ → Thread Proc Halt Response}
    {Q : Response → List Mapping → Prop}
    (hnext : (next NULL).Meets Proc.parts E bad Q [] fun _ => True) :
    (Thread.step (arenaAlloc NULL size) next).Meets Proc.parts E bad Q [] fun _ => True :=
  .step_of_eq (fun _ _ _ _ _ => trivial) (fun s _ => arenaAlloc_null size s) hnext

/-- The memory that is found is the same wherever the scratch arena goes. -/
theorem memoryOf_eq_some_iff {maps : List Mapping} :
    memoryOf h maps = some memory ↔
      (h.mmap maps (mappingLen (KiB 8))).isSome ∧ memoryFound h = some memory := by
  rw [memoryOf_eq]
  cases h.mmap maps (mappingLen (KiB 8)) <;> simp

/-- Where the scratch arena is granted, only the file can be at fault. -/
theorem memoryFound_eq_none {maps : List Mapping}
    (hgrant : (h.mmap maps (mappingLen (KiB 8))).isSome ∨ bad) (hmemory : memoryOf h maps = none) :
    memoryFound h = none ∨ bad := by
  refine hgrant.imp (fun hgrant => ?_) id
  obtain ⟨q, hq⟩ := Option.isSome_iff_exists.mp hgrant
  rwa [memoryOf_eq, hq, Option.bind_some] at hmemory

/-- The kernel grants what a call asks for. -/
def Rpc.Grants (c : Rpc) (s : Proc) : Prop :=
  (c.host.mmap s.maps (mappingLen (MiB 8))).isSome ∧
    (c.host.mmap s.maps (mappingLen (KiB 8))).isSome

/-- `GetSystemResources` serves its reply. -/
theorem serves_systemThread
    (hE : ∀ s, E s → (Rpc.getSystemResources arch h ctx).Grants s ∨ bad) :
    Serves E bad (systemReply arch h ctx (memoryFound h)) (systemThread arch h ctx) []
      fun _ => True := by
  unfold systemReply systemThread
  refine .ite (fun _ => .done (by decide)) fun _ => .ite (fun _ => .done (by decide)) fun _ => ?_
  simp only [Thread.call_bind, Thread.atomic_bind]
  refine .create (fun s hs => (hE s hs).imp (·.1) id) (fun hbad => ?_) fun a htop => ?_
  · exact meets_alloc_null <| meets_alloc_null <| meets_alloc_null <| meets_alloc_null <|
      meets_error hbad fun s => onStruct_null _
  -- the four structs are allocated one behind the other
  refine .alloc (n := 0) (by decide) (fun _ hs => hs) ?_
  refine .alloc (n := 120) (by decide) (fun _ hs => hs) ?_
  refine .alloc (n := 136) (by decide) (fun _ hs => hs) ?_
  refine .alloc (n := 160) (by decide) (fun _ hs => hs.structs) ?_
  have hown : ∀ cpu memory, Own [requestMapping a] (Structs a cpu memory) :=
    fun _ _ => own_arena fun _ _ hmapping heq hs => hs.of_eqOn hmapping heq
  refine .collect (fun _ => errOk) (hown _ _) (fun _ _ h => h) (fun _ _ h => .inl h)
    (fun s _ _ hs => hs.cpuRead) fun cpu => ?_
  refine .ite (fun _ => .done ?_) fun _ => ?_
  · simp [Response.Leaked, deadlineResponse]
  refine .collect (fun _ => errOk) (f := fun s => memoryOf h s.maps) (hown _ _)
    (fun _ _ hmemory => (memoryOf_eq_some_iff.mp hmemory).2)
    (fun s hs hmemory => memoryFound_eq_none ((hE s hs).imp (·.2) id) hmemory)
    (fun s hwell ha hs => hs.sysRamRead hwell ha) fun memory => ?_
  refine .ite (fun _ => .done ?_) fun _ => ?_
  · simp [Response.Leaked, deadlineResponse]
  refine .collect id (hown _ _) (fun _ _ h => h) (fun _ _ h => .inl h)
    (fun s _ _ hs => hs.diskRead htop) fun diskCode => ?_
  refine .ite (fun _ => .done ?_) fun _ => ?_
  · simp [Response.Leaked, deadlineResponse]
  refine .collect id (hown _ _) (fun _ _ h => h) (fun _ _ h => .inl h)
    (fun s _ _ hs => hs.deviceRead) fun deviceCode => ?_
  refine .ite (fun _ => .done ?_) fun _ => ?_
  · simp [Response.Leaked, deadlineResponse]
  refine .setCpu (hown _ _) (fun s hs => hs.cpu_eq) fun msg => ?_
  -- the reply is built from the structs, and then the arena is destroyed
  refine .call (hown _ _) fun s hs ho hA => ⟨_, _, .refl _ hs ho, hA, ?_⟩
  rw [hA.memory_eq]
  exact .destroy (by simp [Response.Leaked]) (hown _ _) fun s hs => hs.disk.arenaAt

/-- `GetCpu` serves its reply. -/
theorem serves_cpuThread (hE : ∀ s, E s → (Rpc.getCpu arch h ctx).Grants s ∨ bad) :
    Serves E bad (cpuReply arch h ctx) (cpuThread arch h ctx) [] fun _ => True := by
  unfold cpuReply cpuThread
  refine .ite (fun _ => .done (by decide)) fun _ => .ite (fun _ => .done (by decide)) fun _ => ?_
  simp only [Thread.call_bind, Thread.atomic_bind]
  refine .create (fun s hs => (hE s hs).imp (·.1) id) (fun hbad => ?_) fun a htop => ?_
  · exact meets_alloc_null <| meets_error hbad fun s => onStruct_null _
  refine .alloc (n := 0) (by decide) (fun _ hs => hs.holdsStruct_cpu) ?_
  have hown : ∀ cpu : SysCpu, Own [requestMapping a] (HoldsStruct a cpu) :=
    fun _ => own_arena fun _ _ hmapping heq hs => hs.of_eqOn (by decide) hmapping heq
  refine .collect (fun _ => errOk) (hown _) (fun _ _ h => h) (fun _ _ h => .inl h)
    (fun s _ _ hs => hs.cpuRead) fun cpu => ?_
  refine .setCpu (hown _) (fun s hs => hs.load_eq) fun msg => ?_
  exact .destroy (by simp [Response.Leaked]) (hown _) fun s hs => hs.arenaAt

/-- `GetMemory` serves its reply. -/
theorem serves_ramThread (hE : ∀ s, E s → (Rpc.getMemory h ctx).Grants s ∨ bad) :
    Serves E bad (ramReply h ctx (memoryFound h)) (ramThread h ctx) [] fun _ => True := by
  unfold ramReply ramThread
  refine .ite (fun _ => .done (by decide)) fun _ => .ite (fun _ => .done (by decide)) fun _ => ?_
  simp only [Thread.call_bind, Thread.atomic_bind]
  refine .create (fun s hs => (hE s hs).imp (·.1) id) (fun hbad => ?_) fun a htop => ?_
  · exact meets_alloc_null <| meets_error hbad fun s => if_pos rfl
  refine .alloc (n := 0) (by decide) (fun _ hs => hs.arenaAt) ?_
  have hownArena : Own [requestMapping a] (ArenaAt a (MiB 8)) :=
    own_arena fun _ _ hmapping heq hs => hs.of_mem_maps hmapping (memArena_eq_of_eqOn
      (heq.mono (range_subset_requestMapping le_rfl
        (by simp only [arenaBase, sizeofMemArena]; omega))))
  have hown : ∀ memory : SysMemory, Own [requestMapping a] (HoldsStruct a memory) :=
    fun _ => own_arena fun _ _ hmapping heq hs => hs.of_eqOn (by decide) hmapping heq
  refine .collect (fun _ => errOk) (f := fun s => memoryOf h s.maps) hownArena
    (fun _ _ hmemory => (memoryOf_eq_some_iff.mp hmemory).2)
    (fun s hs hmemory => memoryFound_eq_none ((hE s hs).imp (·.2) id) hmemory)
    (fun s hwell ha hs => hs.sysRamRead hwell ha) fun memory => ?_
  refine .call (hown _) fun s hs ho hA => ⟨_, _, .refl _ hs ho, hA, ?_⟩
  rw [Nat.add_zero, hA.load_eq]
  exact .destroy (by simp [Response.Leaked]) (hown _) fun s hs => hs.arenaAt

/-- Every call serves its reply. -/
theorem Rpc.serves (c : Rpc) (hE : ∀ s, E s → c.Grants s ∨ bad) :
    Serves E bad c.reply c.thread [] fun _ => True := by
  cases c with
  | getSystemResources arch h ctx => exact serves_systemThread hE
  | getCpu arch h ctx => exact serves_cpuThread hE
  | getMemory h ctx => exact serves_ramThread hE

end Serves

/-! ## Calls in flight -/

/-- What the threads own, and where the calls have come to. -/
abbrev CallsOwned (E : Rpc → Proc → Prop) (bad : Rpc → Prop) :
    List Mapping → Proc → Pool Proc Halt Response Rpc → (ℕ → List Mapping) → Prop :=
  Pool.Owned Proc.parts E bad fun c r q => c.reply = some r ∧ q.length = if r.Leaked then 1 else 0

variable {E : Rpc → Proc → Prop} {s₀ : Proc} {events : List (PoolEvent Rpc)}
  {p : Pool Proc Halt Response Rpc}

/-- In every order of steps every call serves its reply. -/
theorem callsOwned (bad : Rpc → Prop) (hs : s₀.Tidy) (hE : ∀ c s, E c s → c.Grants s ∨ bad c)
    (hbad : ∀ c : Rpc, c.reply = none → bad c) (h : Pool.Reaches Rpc.thread E s₀ events p) :
    ∃ own, CallsOwned E bad s₀.maps s₀ p own :=
  h.sound (fun c => c.serves (hE c) (hbad c)) hs fun _ hr => hr

/-- A call with the answers of another kernel. -/
def Rpc.withKernel (k : Kernel) : Rpc → Rpc
  | .getSystemResources arch h ctx => .getSystemResources arch { h with toKernel := k } ctx
  | .getCpu arch h ctx => .getCpu arch { h with toKernel := k } ctx
  | .getMemory h ctx => .getMemory { h with toKernel := k } ctx

/-- The kernel has no part in the reply. -/
theorem Rpc.reply_withKernel (k : Kernel) (c : Rpc) : (c.withKernel k).reply = c.reply := by
  cases c <;> rfl

theorem Rpc.host_withKernel (k : Kernel) (c : Rpc) : (c.withKernel k).host.toKernel = k := by
  cases c <;> rfl

/-- What a call is answered alone, in a fresh process and by a kernel that grants memory. -/
def Rpc.alone (c : Rpc) : Except Halt (Response × Proc) :=
  (c.withKernel .above).handle .fresh

theorem Rpc.alone_refines (c : Rpc) :
    Except.Refines (fun r r' => r.1 = r') c.alone c.reply := by
  have hgrant : (c.withKernel .above).Granted [] := by
    refine ⟨[⟨4096, 4096 + pageRound (mappingLen (MiB 8))⟩], ?_, ?_⟩
    · rw [Rpc.host_withKernel]
      decide +kernel
    · rw [Rpc.host_withKernel]
      decide +kernel
  have hreply := (c.withKernel .above).outcome_of_granted hgrant
  have hrefines := (c.withKernel .above).handle_refines wellMapped_fresh
  rw [← reply_withKernel .above, ← hreply]
  exact hrefines.map fun _ _ hshow => hshow.1

/-- A call with a reply is answered alone. -/
theorem Rpc.exists_alone (c : Rpc) {r : Response} (hreply : c.reply = some r) :
    ∃ s, c.alone = .ok (r, s) := by
  have hrefines := c.alone_refines
  rw [hreply] at hrefines
  cases halone : c.alone with
  | error e =>
    rw [halone] at hrefines
    exact hrefines.elim
  | ok q =>
    rw [halone] at hrefines
    obtain rfl : q.1 = r := hrefines
    exact ⟨q.2, rfl⟩

/-- A call that has ended was answered with its reply. -/
theorem reply_of_done (hs : s₀.Tidy) (h : Pool.Reaches Rpc.thread (fun _ _ => True) s₀ events p)
    {i : ℕ} {c : Rpc} {r : Response} (hdone : p.threads[i]? = some (c, .done r)) :
    c.reply = some r := by
  obtain ⟨own, hown⟩ := callsOwned (fun _ => True) hs (fun _ _ _ => .inr trivial)
    (fun _ _ => trivial) h
  exact (hown.of_done hdone).1

/-- A call without a reply halts its handler, from every process. -/
theorem Rpc.handle_ne_ok (c : Rpc) (hreply : c.reply = none) (hs : s.WellMapped)
    (r : Response × Proc) : c.handle s ≠ .ok r := by
  intro hok
  obtain ⟨o, ho, -⟩ := (c.handle_refines hs).exists_of_eq_ok hok
  rw [c.reply_of_outcome ho] at hreply
  cases hreply

/-- In every order of steps, a call is answered as it is alone. What its handler would have
answered at any other moment is the same. -/
theorem callsInFlight_replies (hs : s₀.Tidy)
    (h : Pool.Reaches Rpc.thread (fun _ _ => True) s₀ events p) {i : ℕ} {c : Rpc} {r : Response}
    (hdone : p.threads[i]? = some (c, .done r)) :
    (∃ s, c.alone = .ok (r, s)) ∧
      ∀ s r' s', s.WellMapped → c.handle s = .ok (r', s') → r' = r := by
  have hreply := reply_of_done hs h hdone
  refine ⟨c.exists_alone hreply, fun s r' s' hs hok => ?_⟩
  obtain ⟨o, ho, hshow⟩ := (c.handle_refines hs).exists_of_eq_ok hok
  have hreply' := c.reply_of_outcome ho
  rw [hreply, ← hshow.1] at hreply'
  exact (Option.some.inj hreply').symm

instance (c : Rpc) (s : Proc) : Decidable (c.Grants s) := inferInstanceAs (Decidable (_ ∧ _))

/-- The sample host with a clock that passes the deadline once the processors were read. -/
def lateHost : Host := { sampleHost with now := fun i => if i = 0 then 0 else 2 }

/-- A call that runs out of time after its arena was created. -/
def lateRpc : Rpc := .getSystemResources .x86 lateHost sampleContext

/-- A call that is answered in time. -/
def sampleRpc : Rpc := .getMemory sampleHost sampleContext

/-- The two calls are started. -/
def sampleStarts : List (PoolEvent Rpc) := [.start lateRpc, .start sampleRpc]

/-- The two calls take `n` actions each, in turn. -/
def sampleTurns (n : ℕ) : List (PoolEvent Rpc) :=
  (List.replicate n [.advance 0, .advance 1]).flatten

/-- The threads of a pool in which the two calls were started. -/
theorem threads_sample {n : ℕ}
    (h : Pool.Reaches Rpc.thread E s₀ (sampleStarts ++ sampleTurns n) p) :
    ∃ t t', p.threads = [(lateRpc, t), (sampleRpc, t')] := by
  have hturns : (sampleTurns n).filterMap PoolEvent.started? = [] := by
    rw [List.filterMap_eq_nil_iff]
    intro event hevent
    obtain ⟨turns, hturns, hevent⟩ := List.mem_flatten.mp hevent
    obtain rfl := (List.mem_replicate.mp hturns).2
    rcases List.mem_pair.mp hevent with rfl | rfl
    · rfl
    · rfl
  have hlabels := h.map_fst_threads
  rw [List.filterMap_append, hturns] at hlabels
  obtain ⟨x, y, hthreads⟩ := List.length_eq_two.mp
    (by simpa [sampleStarts, PoolEvent.started?] using congrArg List.length hlabels)
  rw [hthreads] at hlabels ⊢
  obtain ⟨hx, hy⟩ : x.1 = lateRpc ∧ y.1 = sampleRpc := by
    simpa [sampleStarts, PoolEvent.started?] using hlabels
  exact ⟨x.2, y.2, by rw [← hx, ← hy]⟩

/-- The two calls take their actions in turn, and one of them runs out of time. -/
theorem exists_reaches_sample :
    ∃ p r r', Pool.Reaches Rpc.thread Rpc.Grants .onePage (sampleStarts ++ sampleTurns 12) p ∧
      p.threads = [(lateRpc, .done r), (sampleRpc, .done r')] ∧ r.Leaked ∧ ¬ r'.Leaked := by
  have hrun : ((Pool.init .onePage).schedule Rpc.thread Rpc.Grants
      (sampleStarts ++ sampleTurns 12)).map (fun p => p.threads.map fun x =>
        x.2.result?.map fun r => decide r.Leaked) = some [some true, some false] := by
    decide +kernel
  obtain ⟨p, hreach, hresults⟩ := Pool.exists_reaches _ _ _ _ _ hrun
  obtain ⟨t, t', hthreads⟩ := threads_sample hreach
  rw [hthreads] at hresults
  simp only [List.map_cons, List.map_nil, List.cons.injEq, and_true, Option.map_eq_some_iff,
    Thread.result?_eq_some, decide_eq_true_eq, decide_eq_false_iff_not] at hresults
  obtain ⟨⟨r, rfl, hleaked⟩, r', rfl, hleaked'⟩ := hresults
  exact ⟨p, r, r', hreach, hthreads, hleaked, hleaked'⟩

theorem callsInFlight_replies_sample :
    ∃ p r r', Pool.Reaches Rpc.thread (fun _ _ => True) .onePage
        (sampleStarts ++ sampleTurns 12) p ∧
      p.threads = [(lateRpc, .done r), (sampleRpc, .done r')] ∧
      (∃ s, lateRpc.alone = .ok (r, s)) ∧ ∃ s, sampleRpc.alone = .ok (r', s) := by
  obtain ⟨p, r, r', hreach, hthreads, -⟩ := exists_reaches_sample
  have hreach := hreach.mono fun _ _ _ => trivial
  refine ⟨p, r, r', hreach, hthreads, ?_, ?_⟩
  · exact (callsInFlight_replies Proc.tidy_onePage hreach (i := 0) (by rw [hthreads]; rfl)).1
  · exact (callsInFlight_replies Proc.tidy_onePage hreach (i := 1) (by rw [hthreads]; rfl)).1

/-- No handler makes more than twelve calls. -/
theorem Rpc.thread_within (c : Rpc) : c.thread.Within 12 := by
  cases c with
  | getSystemResources arch h ctx =>
    refine Thread.within_ite (by simp) (Thread.within_ite (by simp) ?_)
    simp only [Thread.call_bind, Thread.atomic_bind]
    refine fun _ _ _ _ _ _ => Thread.within_ite (by simp) fun _ => Thread.within_ite (by simp) ?_
    refine fun _ => Thread.within_ite (by simp) fun _ => Thread.within_ite (by simp) ?_
    exact fun _ _ _ => Thread.within_done _
  | getCpu arch h ctx =>
    refine Thread.within_ite (by simp) (Thread.within_ite (by simp) ?_)
    simp only [Thread.call_bind, Thread.atomic_bind]
    exact fun _ _ _ _ _ => Thread.within_done _
  | getMemory h ctx =>
    refine Thread.within_ite (by simp) (Thread.within_ite (by simp) ?_)
    simp only [Thread.call_bind, Thread.atomic_bind]
    exact fun _ _ _ _ _ => Thread.within_done _

/-- A call that was started is answered, as it is alone, once it had twelve turns. -/
theorem callsInFlight_answered (hs : s₀.Tidy) {later : List (PoolEvent Rpc)} {i : ℕ}
    (h : Pool.Reaches Rpc.thread (fun _ _ => True) s₀ (events ++ later) p)
    (hstart : i < events.countP PoolEvent.isStart)
    (hturns : 12 ≤ later.countP (PoolEvent.isTurn i)) :
    ∃ c r s, p.threads[i]? = some (c, .done r) ∧ c.alone = .ok (r, s) := by
  obtain ⟨c, r, hdone⟩ := h.exists_done Rpc.thread_within hstart hturns
  obtain ⟨s, halone⟩ := c.exists_alone (reply_of_done hs h hdone)
  exact ⟨c, r, s, hdone, halone⟩

theorem callsInFlight_answered_sample :
    ∃ p, Pool.Reaches Rpc.thread (fun _ _ => True) .onePage (sampleStarts ++ sampleTurns 12) p ∧
      ∀ i < 2, ∃ c r s, p.threads[i]? = some (c, .done r) ∧ c.alone = .ok (r, s) := by
  obtain ⟨p, r, r', hreach, -⟩ := exists_reaches_sample
  have hreach := hreach.mono fun _ _ _ => trivial
  have hturns : ∀ i < 2, 12 ≤ (sampleTurns 12).countP (PoolEvent.isTurn i) := by decide
  exact ⟨p, hreach, fun i hi =>
    callsInFlight_answered Proc.tidy_onePage hreach hi (hturns i hi)⟩

/-- Calls that return alone never halt the agent: while the kernel grants what is asked for, every
next event goes through. -/
theorem callsInFlight_progress (hs : s₀.Tidy) (h : Pool.Reaches Rpc.thread Rpc.Grants s₀ events p)
    (hreturn : ∀ x ∈ p.threads, ∃ s r, s.WellMapped ∧ x.1.handle s = .ok r)
    {event : PoolEvent Rpc}
    (hgrants : ∀ i x, event = .advance i → p.threads[i]? = some x → x.1.Grants p.state) :
    ∃ p', p.step Rpc.thread event = .ok p' := by
  obtain ⟨own, hown⟩ := callsOwned (fun c => c.reply = none) hs (fun _ _ hE => .inl hE)
    (fun _ hc => hc) h
  cases hstep : p.step Rpc.thread event with
  | ok p' => exact ⟨p', rfl⟩
  | error e =>
    obtain ⟨i, x, -, hx, hreply⟩ := hown.bad_of_error hgrants hstep
    obtain ⟨s, r, hs, hok⟩ := hreturn x (List.mem_of_getElem? hx)
    exact absurd hok (x.1.handle_ne_ok hreply hs r)

/-- A call of the two returns alone. -/
theorem exists_handle_sample (c : Rpc) (hkernel : c.withKernel .above = c)
    (hreply : c.reply.isSome) : ∃ s r, s.WellMapped ∧ c.handle s = .ok r := by
  obtain ⟨r, hreply⟩ := Option.isSome_iff_exists.mp hreply
  obtain ⟨s, halone⟩ := c.exists_alone hreply
  rw [Rpc.alone, hkernel] at halone
  exact ⟨.fresh, (r, s), wellMapped_fresh, halone⟩

/-- Both calls are under way, and the memory is read next. -/
theorem exists_reaches_midway :
    ∃ p t t', Pool.Reaches Rpc.thread Rpc.Grants .onePage (sampleStarts ++ sampleTurns 2) p ∧
      p.threads = [(lateRpc, t), (sampleRpc, t')] ∧ t.result? = none ∧ t'.result? = none ∧
      ∀ i x, (.advance 1 : PoolEvent Rpc) = .advance i → p.threads[i]? = some x →
        x.1.Grants p.state := by
  have hrun : ((Pool.init .onePage).schedule Rpc.thread Rpc.Grants
      (sampleStarts ++ sampleTurns 2)).map (fun p => (decide (sampleRpc.Grants p.state),
        p.threads.map fun x => x.2.result?.isSome)) = some (true, [false, false]) := by
    decide +kernel
  obtain ⟨p, hreach, hstate⟩ := Pool.exists_reaches _ _ _ _ _ hrun
  obtain ⟨hgrants, hresults⟩ := Prod.mk.inj hstate
  obtain ⟨t, t', hthreads⟩ := threads_sample hreach
  rw [hthreads] at hresults
  simp only [List.map_cons, List.map_nil, List.cons.injEq, and_true, Option.isSome_eq_false_iff,
    Option.isNone_iff_eq_none] at hresults
  refine ⟨p, t, t', hreach, hthreads, hresults.1, hresults.2, fun i x hevent hx => ?_⟩
  cases hevent
  rw [hthreads] at hx
  cases hx
  exact of_decide_eq_true hgrants

theorem callsInFlight_progress_sample :
    ∃ p p' t t', Pool.Reaches Rpc.thread Rpc.Grants .onePage (sampleStarts ++ sampleTurns 2) p ∧
      p.threads = [(lateRpc, t), (sampleRpc, t')] ∧ t.result? = none ∧ t'.result? = none ∧
      p.step Rpc.thread (.advance 1) = .ok p' := by
  obtain ⟨p, t, t', hreach, hthreads, hresult, hresult', hgrants⟩ := exists_reaches_midway
  have hreturn : ∀ x ∈ p.threads, ∃ s r, s.WellMapped ∧ x.1.handle s = .ok r := by
    rw [hthreads, List.forall_mem_cons, List.forall_mem_singleton]
    exact ⟨exists_handle_sample lateRpc rfl (by decide +kernel),
      exists_handle_sample sampleRpc rfl (by decide +kernel)⟩
  obtain ⟨p', hstep⟩ := callsInFlight_progress Proc.tidy_onePage hreach hreturn hgrants
  exact ⟨p, p', t, t', hreach, hthreads, hresult, hresult', hstep⟩

/-- What was mapped before the calls stays as it was. When all calls are answered, what is mapped
besides are the arenas of those that ran out of time. -/
theorem callsInFlight_mappings (hs : s₀.Tidy)
    (h : Pool.Reaches Rpc.thread (fun _ _ => True) s₀ events p) :
    (∀ r ∈ s₀.maps, r ∈ p.state.maps ∧
      Set.EqOn p.state.mem.byte s₀.mem.byte (Set.Ico r.lo r.hi)) ∧
    ∀ responses : List Response, p.threads.map (·.2) = responses.map .done →
      p.state.maps.length = s₀.maps.length + responses.countP (fun r => r.Leaked) := by
  obtain ⟨own, hown⟩ := callsOwned (fun _ => True) hs (fun _ _ _ => .inr trivial)
    (fun _ _ => trivial) h
  exact ⟨fun r hr => ⟨hown.divides.base_holds r hr, hown.divides.base_same r hr⟩,
    fun responses hdone => hown.total_of_done (fun _ _ _ hQ => hQ.2) hdone⟩

/-- One arena is leaked, and the page from before is there with its bytes. -/
theorem callsInFlight_mappings_sample :
    ∃ p r r', Pool.Reaches Rpc.thread (fun _ _ => True) .onePage
        (sampleStarts ++ sampleTurns 12) p ∧
      p.threads = [(lateRpc, .done r), (sampleRpc, .done r')] ∧ r.Leaked ∧ ¬ r'.Leaked ∧
      p.state.maps.length = 2 ∧ ∀ x ∈ Set.Ico 4096 8192, p.state.mem.byte x = 7 := by
  obtain ⟨p, r, r', hreach, hthreads, hleaked, hleaked'⟩ := exists_reaches_sample
  have hreach := hreach.mono fun _ _ _ => trivial
  obtain ⟨hkept, hlength⟩ := callsInFlight_mappings Proc.tidy_onePage hreach
  refine ⟨p, r, r', hreach, hthreads, hleaked, hleaked', ?_, fun x hx => ?_⟩
  · rw [hlength [r, r'] (by rw [hthreads]; rfl)]
    simp [Proc.onePage, hleaked, hleaked']
  · exact (hkept ⟨4096, 8192⟩ (List.mem_singleton_self _)).2 hx

end AgentResources
