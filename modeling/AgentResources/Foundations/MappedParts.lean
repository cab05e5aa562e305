import AgentResources.Foundations.Process
import AgentResources.Foundations.Threads

/-!
# Mappings as parts of a process

The threads of a process own mappings. What one of them does passes the others by if it writes to
its own mappings only, takes new ones from the kernel and gives back its own.
-/

/-- Two mappings have no address in common. -/
def Mapping.Apart (r q : Mapping) : Prop := r.hi ≤ q.lo ∨ q.hi ≤ r.lo

theorem Mapping.Apart.symm {r q : Mapping} (h : r.Apart q) : q.Apart r := Or.symm h

namespace Proc

variable {s s' : Proc} {o : List Mapping} {r : Mapping} {k : Kernel} {len a : ℕ}

/-- The mappings are nonempty and have no address in common. -/
structure Tidy (s : Proc) : Prop where
  wellMapped : s.WellMapped
  pairwise : s.maps.Pairwise Mapping.Apart

/-- A process with one page mapped, all of whose bytes are sevens. -/
def onePage : Proc where
  mem := ⟨fun _ => 7⟩
  maps := [⟨4096, 8192⟩]

theorem tidy_onePage : onePage.Tidy where
  wellMapped r hr := by
    obtain rfl := List.mem_singleton.mp hr
    decide
  pairwise := List.pairwise_singleton _ _

/-- The parts of a process are its mappings. -/
def parts : Ownership Proc (List Mapping) where
  inv := Tidy
  holds o s := ∀ r ∈ o, r ∈ s.maps
  apart o q := ∀ r ∈ o, ∀ r' ∈ q, r.Apart r'
  same o s s' := ∀ r ∈ o, Set.EqOn s'.mem.byte s.mem.byte (Set.Ico r.lo r.hi)
  size o := o.length
  total s := s.maps.length
  empty := []
  holds_empty s r hr := by cases hr
  apart_empty o r hr := by cases hr
  size_empty := rfl
  apart_symm h r hr r' hr' := (h r' hr' r hr).symm
  same_refl o s r hr x hx := rfl
  same_trans h h' r hr x hx := (h' r hr hx).trans (h r hr hx)

/-- A step that keeps the mappings and the bytes of those that are not owned. -/
theorem passes_of_kept (hs : s.Tidy) (ho : ∀ r ∈ o, r ∈ s.maps) (hmaps : s'.maps = s.maps)
    (hkept : ∀ r ∈ s.maps, (∀ q ∈ o, q.Apart r) →
      Set.EqOn s'.mem.byte s.mem.byte (Set.Ico r.lo r.hi)) : parts.Passes o o s s' where
  inv := ⟨fun r hr => hs.wellMapped r (hmaps ▸ hr), hmaps ▸ hs.pairwise⟩
  holds r hr := hmaps ▸ ho r hr
  others q hq hoq := by
    refine ⟨fun r hr => hmaps ▸ hq r hr, fun r hr => hkept r (hq r hr) fun p hp => ?_, hoq⟩
    exact hoq p hp r hr
  total_eq := by
    show s'.maps.length + _ = s.maps.length + _
    rw [hmaps]

/-- A write within one owned mapping. -/
theorem passes_of_write (hs : s.Tidy) (hr : r ∈ s.maps) (hmaps : s'.maps = s.maps)
    (hkept : Set.EqOn s'.mem.byte s.mem.byte (Set.Ico r.lo r.hi)ᶜ) :
    parts.Passes [r] [r] s s' := by
  refine passes_of_kept hs (List.forall_mem_singleton.mpr hr) hmaps fun q hq hapart => ?_
  refine hkept.mono fun x hx => ?_
  rw [Set.mem_Ico] at hx
  rw [Set.mem_compl_iff, Set.mem_Ico]
  have := hapart r (List.mem_singleton_self r)
  unfold Mapping.Apart at this
  omega

/-- What the kernel grants is apart from all that is mapped. -/
theorem passes_of_mmap (hs : s.Tidy) (hgrant : k.mmap s.maps len = some a)
    (hmaps : s'.maps = ⟨a, a + pageRound len⟩ :: s.maps)
    (hkept : Set.EqOn s'.mem.byte s.mem.byte (Memory.range a (pageRound len))ᶜ) :
    parts.Passes [] [⟨a, a + pageRound len⟩] s s' := by
  obtain ⟨hlen, -, -, -, hfresh⟩ := k.mmap_spec hgrant
  have hapart : ∀ r ∈ s.maps, Mapping.Apart ⟨a, a + pageRound len⟩ r :=
    fun r hr => (hfresh r hr).symm
  refine ⟨⟨fun r hr => ?_, ?_⟩, fun r hr => ?_, fun q hq _ => ⟨fun r hr => ?_, fun r hr => ?_, ?_⟩,
    ?_⟩
  · rw [hmaps] at hr
    rcases List.mem_cons.mp hr with rfl | hr
    · exact Nat.lt_add_of_pos_right (hlen.trans_le (le_pageRound _))
    · exact hs.wellMapped r hr
  · rw [hmaps]
    exact List.pairwise_cons.mpr ⟨hapart, hs.pairwise⟩
  · rw [hmaps, List.mem_singleton.mp hr]
    exact List.mem_cons_self
  · rw [hmaps]
    exact List.mem_cons_of_mem _ (hq r hr)
  · refine hkept.mono fun x hx => ?_
    rw [Set.mem_Ico] at hx
    rw [Set.mem_compl_iff, Set.mem_Ico]
    have := hfresh r (hq r hr)
    omega
  · exact fun r hr p hp => List.mem_singleton.mp hr ▸ hapart p (hq p hp)
  · show s'.maps.length + 0 = s.maps.length + 1
    rw [hmaps, List.length_cons, Nat.add_zero]

/-- Unmapping one of several mappings removes it from the list. -/
theorem flatMap_minus_eq_erase {maps : List Mapping} (hwell : ∀ r ∈ maps, r.lo < r.hi)
    (hpair : maps.Pairwise Mapping.Apart) (hr : r ∈ maps) :
    maps.flatMap (·.minus r.lo r.hi) = maps.erase r := by
  induction maps with
  | nil => cases hr
  | cons q maps ih =>
    obtain ⟨hq, hpair⟩ := List.pairwise_cons.mp hpair
    obtain ⟨hqwell, hwell⟩ := List.forall_mem_cons.mp hwell
    rw [List.flatMap_cons]
    by_cases hqr : q = r
    · subst hqr
      have hsingle : maps.flatMap (·.minus q.lo q.hi) = maps.flatMap ([·]) :=
        List.flatMap_congr fun p hp =>
          Mapping.minus_of_disjoint (hwell p hp) hqwell.le (hq p hp).symm
      rw [Mapping.minus_self hqwell.le, hsingle, List.flatMap_singleton', List.nil_append,
        List.erase_cons_head]
    · have hr : r ∈ maps := (List.mem_cons.mp hr).resolve_left (Ne.symm hqr)
      rw [Mapping.minus_of_disjoint hqwell (hwell r hr).le (hq r hr), ih hwell hpair hr,
        List.singleton_append, List.erase_cons_tail (by simpa using hqr)]

/-- Giving back an owned mapping. -/
theorem passes_of_munmap (hs : s.Tidy) (hr : (⟨a, a + pageRound len⟩ : Mapping) ∈ s.maps) :
    parts.Passes [⟨a, a + pageRound len⟩] [] s (s.munmap a len) := by
  have herase : (s.munmap a len).maps = s.maps.erase ⟨a, a + pageRound len⟩ :=
    flatMap_minus_eq_erase hs.wellMapped hs.pairwise hr
  refine ⟨⟨fun r hr => ?_, ?_⟩, parts.holds_empty _, fun q hq hapart => ⟨fun r hr => ?_,
    fun r hr x _ => rfl, parts.apart_empty q⟩, ?_⟩
  · rw [herase] at hr
    exact hs.wellMapped r (List.mem_of_mem_erase hr)
  · rw [herase]
    exact hs.pairwise.sublist List.erase_sublist
  · -- another mapping is not the one that is given back
    rw [herase]
    refine (List.mem_erase_of_ne fun h => ?_).mpr (hq r hr)
    have hwell := hs.wellMapped _ (hq r hr)
    have hself := hapart _ (List.mem_singleton_self _) r hr
    rw [h] at hself hwell
    dsimp only [Mapping.Apart] at hself hwell
    omega
  · show (s.munmap a len).maps.length + 1 = s.maps.length + 0
    rw [herase, List.length_erase_of_mem hr, Nat.add_zero]
    exact Nat.sub_add_cancel (List.length_pos_of_mem hr)

/-- A tidy process has no mapping twice. -/
theorem Tidy.nodup (hs : s.Tidy) : s.maps.Nodup := by
  refine hs.pairwise.imp_of_mem fun {r q} hr _ hapart heq => ?_
  have hwell := hs.wellMapped r hr
  subst heq
  unfold Mapping.Apart at hapart
  omega

/-- What is mapped is what was mapped at first and what is owned. -/
theorem perm_of_divides {s₀ : Proc} {n : ℕ} {own : ℕ → List Mapping}
    (h : parts.Divides s₀.maps s₀ s n own) (hs₀ : s₀.Tidy) (hnodup : ∀ i < n, (own i).Nodup) :
    s.maps.Perm ((List.range n).flatMap own ++ s₀.maps) := by
  have hself : ∀ r ∈ s.maps, ¬ r.Apart r := by
    intro r hr hapart
    have hwell := h.inv.wellMapped r hr
    unfold Mapping.Apart at hapart
    omega
  -- what different owners have is different, and not what was there at first
  have hall : ((List.range n).flatMap own ++ s₀.maps).Nodup := by
    refine List.nodup_append'.mpr ⟨List.nodup_flatMap.mpr ⟨fun i hi => ?_, ?_⟩, hs₀.nodup, ?_⟩
    · exact hnodup i (List.mem_range.mp hi)
    · refine List.nodup_range.imp_of_mem fun {i j} hi hj hij => ?_
      intro r hr hr'
      rw [List.mem_range] at hi hj
      exact hself r (h.holds i hi r hr) (h.apart i hi j hj hij r hr r hr')
    · intro r hr hr₀
      obtain ⟨i, hi, hri⟩ := List.mem_flatMap.mp hr
      rw [List.mem_range] at hi
      exact hself r (h.base_holds r hr₀) (h.base_apart i hi r hri r hr₀)
  have hsub : ((List.range n).flatMap own ++ s₀.maps) ⊆ s.maps := by
    intro r hr
    rcases List.mem_append.mp hr with hr | hr
    · obtain ⟨i, hi, hri⟩ := List.mem_flatMap.mp hr
      exact h.holds i (List.mem_range.mp hi) r hri
    · exact h.base_holds r hr
  have hlen : ((List.range n).flatMap own ++ s₀.maps).length = s.maps.length := by
    have htotal : s.maps.length = s₀.maps.length + ∑ i ∈ Finset.range n, (own i).length :=
      h.total_eq
    have hsum : ∀ m, ((List.range m).map fun i => (own i).length).sum =
        ∑ i ∈ Finset.range m, (own i).length := by
      intro m
      induction m with
      | zero => rfl
      | succ m ih => rw [List.sum_range_succ, ih, Finset.sum_range_succ]
    rw [List.length_append, List.length_flatMap, hsum, htotal, Nat.add_comm]
  exact ((List.subperm_of_subset hall hsub).perm_of_length_le hlen.ge).symm

end Proc
