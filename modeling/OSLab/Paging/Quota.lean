import OSLab.Paging.Parties
import OSLab.Paging.Rows

set_option autoImplicit false

/-! # The quota of frames

Process `i` is to have `frame_count` frames, and `page_fault_handler` evicts for a process whose
`frame_allocated` has come to that. But `frame_allocated` stays what `create_pcb` makes it, so the
test never succeeds, and a process gets frames as long as there are any (`quota_exceeded`). What is
left to keep the quota is that nobody asks for more: the requests since the last time a row was freed
name no more entries of it than its process may have frames (`quota_kept_when`).

The entries named are kept as a history beside the MMU. They depend on the requests and on the page
counts only, not on what the handler does.
-/

namespace OSLab.Paging

variable {k m f : Nat} {s : Mmu} {r : Option Request} {named : Finset Int} {x : Int}

/-- The number of valid entries in row `i`. -/
def rowValid (m : Nat) (s : Mmu) (i : Nat) : Nat :=
  Nat.count (fun q : Nat => (s.pageTable (i * m + q)).valid = true) m

/-- The entries named by requests since their rows were freed, after one more request: an accepted
page names its entry; a `PROCESS_DONE` and an illegal page have the row freed. -/
def nameEntry (m : Nat) (s : Mmu) (r : Option Request) (named : Finset Int) : Finset Int :=
  match r with
  | none => named
  | some r =>
      if Accepted s r.id r.page then insert (r.id * m + r.page : Int) named
      else named.filter fun x => ¬ InRow m r.id x

/-- The number of entries named in row `i`. -/
def rowNamed (m : Nat) (named : Finset Int) (i : Nat) : Nat :=
  Nat.count (fun q : Nat => (i * m + q : Int) ∈ named) m

/-- The MMU with the entries named. -/
def namingMachine (k m f : Nat) : Machine (Mmu × Finset Int) (Option Request) :=
  (mmuMachine k m f).withHistory ∅ (nameEntry m)

/-- With the request no row has more entries named than its process may have frames. -/
def NamesFew (k m : Nat) (t : Mmu × Finset Int) (r : Option Request) : Prop :=
  ∀ i < k, (rowNamed m (nameEntry m t.1 r t.2) i : Int) ≤ (t.1.pcbAt i).frameCount

instance (k m : Nat) (t : Mmu × Finset Int) (r : Option Request) : Decidable (NamesFew k m t r) :=
  inferInstanceAs (Decidable (∀ i < k, _))

/-- Only a fault makes an entry valid, and only the one it is on. -/
theorem valid_serveRequest (m : Nat) (s : Mmu) (r : Option Request)
    (h : ((serveRequest m s r).1.pageTable x).valid = true) :
    (s.pageTable x).valid = true
      ∨ FaultsOn m s (readRequest r).1 (readRequest r).2
        ∧ x = (readRequest r).1 * m + (readRequest r).2 := by
  cases r with
  | none => exact .inl h
  | some r =>
      rcases entry_serve m s (Int.natCast_nonneg r.id) (readRequest (some r)).2 x with
        ⟨-, hkept⟩ | ⟨hf, hx, -⟩
      · exact .inl (hkept h)
      · exact .inr ⟨hf, hx⟩

/-- A request that names no entry leaves none valid in its row. -/
theorem not_valid_of_not_accepted {r : Request} (hacc : ¬ Accepted s r.id r.page)
    (hrow : InRow m r.id x) : ((serveRequest m s (some r)).1.pageTable x).valid = false := by
  have hserve : serveRequest m s (some r) = serve m s r.id r.page := rfl
  rw [hserve]
  rcases serve_cases m s r.page (Int.natCast_nonneg r.id) with
    hd | ⟨-, -, hs⟩ | ⟨hf, -⟩ | ⟨hacc', -⟩
  · rw [hd, serve_done]
    simp only [freePages_pageTable, if_pos hrow]
  · rw [hs, serveInvalid]
    simp only [freePages_pageTable, if_pos hrow]
  · exact absurd hf.1 hacc
  · exact absurd hacc' hacc

/-- **One request**: the valid entries stay among those that are named. -/
theorem named_serveRequest (h : ∀ x, (s.pageTable x).valid = true → x ∈ named) (r : Option Request)
    (hv : ((serveRequest m s r).1.pageTable x).valid = true) : x ∈ nameEntry m s r named := by
  cases r with
  | none => exact h x hv
  | some r =>
      show x ∈ (if Accepted s r.id r.page then insert (r.id * m + r.page : Int) named
        else named.filter fun x => ¬ InRow m r.id x)
      by_cases hacc : Accepted s r.id r.page
      · rw [if_pos hacc, Finset.mem_insert]
        rcases valid_serveRequest m s (some r) hv with hold | ⟨-, hx⟩
        · exact .inr (h x hold)
        · exact .inl hx
      · rw [if_neg hacc, Finset.mem_filter]
        refine ⟨?_, fun hrow => ?_⟩
        · rcases valid_serveRequest m s (some r) hv with hold | ⟨hf, -⟩
          · exact h x hold
          · exact absurd hf.1 hacc
        · rw [not_valid_of_not_accepted hacc hrow] at hv
          cases hv

/-- **The quota is kept** in the runs in which no row has more entries named, since it was last freed,
than its process may have frames. -/
theorem quota_kept_when {k m f : Nat} {t : Mmu × Finset Int}
    (h : (namingMachine k m f).ReachableWhen (NamesFew k m) t) :
    ∀ i < k, (rowValid m t.1 i : Int) ≤ (t.1.pcbAt i).frameCount := by
  have hinv := h.invariant (I := fun t => (∀ x, (t.1.pageTable x).valid = true → x ∈ t.2)
    ∧ ∀ i < k, (rowNamed m t.2 i : Int) ≤ (t.1.pcbAt i).frameCount) ?_ ?_
  · intro i hi
    have hle : rowValid m t.1 i ≤ rowNamed m t.2 i := Nat.count_mono_left fun q _ => hinv.1 _
    have hfew := hinv.2 i hi
    omega
  · rintro ⟨s, named⟩ ⟨⟨pcb, hpcb, hcount, rfl⟩, rfl⟩
    refine ⟨fun x hx => ?_, fun i hi => ?_⟩
    · simp only [startMmu, createPageTables] at hx
      split at hx <;> cases hx
    · have hmem := pcbAt_start_mem (m := m) (f := f) hpcb.1 (Int.natCast_nonneg i)
        (by exact_mod_cast hi)
      have hzero : rowNamed m ∅ i = 0 := Nat.count_of_forall_not fun q _ => Finset.notMem_empty _
      show (rowNamed m ∅ i : Int) ≤ ((startMmu k m f pcb).pcbAt i).frameCount
      rw [hzero]
      exact (show ((0 : Nat) : Int) ≤ 1 by decide).trans (hcount _ hmem)
  · rintro ⟨s, named⟩ r ⟨s', named'⟩ ⟨hvalid, -⟩ hok hs
    obtain ⟨hnext, hnamed⟩ := Machine.withHistory_next hs
    obtain ⟨-, rfl⟩ := mmuMachine_next hnext
    obtain rfl := hnamed
    refine ⟨fun x hx => named_serveRequest hvalid r hx, fun i hi => ?_⟩
    rw [pcbAt_congr (serveRequest_pcb m s r)]
    exact hok i hi

/-- Two processes of three pages with two frames each, of which each refers to two pages, one of them
twice, and the first comes back with another page after its `PROCESS_DONE`. -/
theorem quota_kept_when_run :
    ∃ t, (namingMachine 2 3 4).ReachableWhen (NamesFew 2 3) t
      ∧ (rowValid 3 t.1 0 = 1 ∧ rowValid 3 t.1 1 = 2)
      ∧ ∀ i < 2, (rowValid 3 t.1 i : Int) ≤ (t.1.pcbAt i).frameCount := by
  obtain ⟨t, ht, hp⟩ : ∃ t, (namingMachine 2 3 4).ReachableWhen (NamesFew 2 3) t
      ∧ decide (rowValid 3 t.1 0 = 1 ∧ rowValid 3 t.1 1 = 2) = true :=
    Machine.exists_reachableWhen_of_execWhen (s := (startMmu 2 3 4 [⟨3, 2, 0⟩, ⟨3, 2, 0⟩], ∅))
      (l := [some ⟨0, 0⟩, some ⟨1, 2⟩, some ⟨0, 1⟩, some ⟨0, 0⟩, some ⟨1, 2⟩, some ⟨1, 0⟩,
        some ⟨0, -9⟩, some ⟨0, 2⟩]) ⟨⟨_, ⟨rfl, by simp⟩, by simp, rfl⟩, rfl⟩ (by decide)
  exact ⟨t, ht, of_decide_eq_true hp, quota_kept_when ht⟩

/-- **The quota is exceeded.** Two processes of two pages, one frame each: process `0` gets both
frames. -/
theorem quota_exceeded :
    ¬ ∀ s, (mmuMachine 2 2 2).Reachable s → (s.pcb.map Pcb.frameCount).sum = 2 →
      ∀ i < 2, (rowValid 2 s i : Int) ≤ (s.pcbAt i).frameCount := by
  intro h
  obtain ⟨s, hs, hp⟩ : ∃ s, (mmuMachine 2 2 2).Reachable s
      ∧ decide ((s.pcb.map Pcb.frameCount).sum = 2
        ∧ (s.pcbAt 0).frameCount < rowValid 2 s 0) = true :=
    Machine.exists_reachable_of_exec (s := startMmu 2 2 2 [⟨2, 1, 0⟩, ⟨2, 1, 0⟩])
      (l := [some ⟨0, 0⟩, some ⟨0, 1⟩]) ⟨_, ⟨rfl, by simp⟩, by simp, rfl⟩ (by decide)
  obtain ⟨hsum, hmore⟩ := of_decide_eq_true hp
  have hquota := h s hs hsum 0 (by decide)
  simp only [Nat.cast_zero] at hquota
  omega

end OSLab.Paging
