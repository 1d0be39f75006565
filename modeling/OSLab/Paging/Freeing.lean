import OSLab.Paging.Rows

set_option autoImplicit false

/-! # The frames `free_pages` gives back

`free_pages` walks row `id` of the page table and pushes the frame of each valid entry on the free
list. It does not look at the size of the list; what keeps the stack within its `f` cells is that no
frame is held twice (`FramesDistinct`). An entry that is valid then holds a frame that is not on the
stack, so the stack is not full (`push_inBounds`).

The loop is followed through the states before its iterations (`freeing`): each one has the frames
of the entries behind it on the stack, and holds the same frames as the first.
-/

namespace OSLab.Paging

/-- No frame is held twice, and no number is held that is not one of a frame. The stack index is
that of a list, if maybe an empty one, as in every state of the MMU (`current_reachable`). -/
structure FramesDistinct (k m f : Nat) (s : Mmu) : Prop where
  current : -1 ≤ s.freeList.current
  distinct : (heldFrames k m s).Nodup
  inRange : ∀ x ∈ heldFrames k m s, 0 ≤ x ∧ x < f

/-- The state before iteration `i` of the loop of `free_pages`. -/
def freeing (m : Nat) (s : Mmu) (id : Int) (i : Nat) : Mmu := (List.range i).foldl (freePage m id) s

/-- The frames of the valid entries among the first `i` of row `id`, in their order. -/
def rowFrames (m : Nat) (s : Mmu) (id : Int) (i : Nat) : List Int :=
  ((List.range i).filter fun j : Nat => (s.pageTable (id * m + j)).valid).map
    fun j : Nat => (s.pageTable (id * m + j)).frameNumber

/-- **The frames are given back once.** Iteration `i` writes `freelist[current + 1]` if it finds its
entry valid. -/
structure GivesBack (k m f : Nat) (s : Mmu) (id : Int) : Prop where
  inBounds : ∀ i < m, ((freeing m s id i).pageTable (id * m + i)).valid = true →
    0 ≤ (freeing m s id i).freeList.current + 1 ∧ (freeing m s id i).freeList.current + 1 < f
  frames : (freePages m s id).freeList.frames = s.freeList.frames ++ rowFrames m s id m
  row : ∀ i < m, ((freePages m s id).pageTable (id * m + i)).valid = false
  otherRows : ∀ x, ¬ InRow m id x → (freePages m s id).pageTable x = s.pageTable x
  distinct : FramesDistinct k m f (freePages m s id)
  again : freePages m (freePages m s id) id = freePages m s id

variable {k m f : Nat} {s : Mmu} {id : Int} {i : Nat}

theorem freeing_succ (m : Nat) (s : Mmu) (id : Int) (i : Nat) :
    freeing m s id (i + 1) = freePage m id (freeing m s id i) i := by
  rw [freeing, List.range_succ, List.foldl_append]
  rfl

/-! ## The stack index -/

theorem current_freePages (m : Nat) (s : Mmu) (id : Int) :
    s.freeList.current ≤ (freePages m s id).freeList.current := by
  have key : ∀ i, s.freeList.current ≤ (freeing m s id i).freeList.current := by
    intro i
    induction i with
    | zero => exact le_rfl
    | succ i ih =>
        rw [freeing_succ]
        exact ih.trans (current_freePage m id _ i)
  exact key m

theorem current_serve (h : -1 ≤ s.freeList.current) (m : Nat) (hid : 0 ≤ id) (p : Int) :
    -1 ≤ (serve m s id p).1.freeList.current := by
  rcases serve_cases m s p hid with rfl | ⟨-, -, hs⟩ | ⟨-, hs⟩ | ⟨-, -, hs⟩
  · rw [serve_done]
    exact h.trans (current_freePages m s id)
  · rw [hs]
    exact h.trans (current_freePages m _ id)
  · rw [hs]
    unfold servePageFault pageFaultHandler
    simp only [Mmu.setEntry_freeList]
    split
    · exact h
    case isFalse hev =>
      -- a frame is only taken from a list that is not empty
      simp only [Mmu.tick_freeList] at hev ⊢
      omega
  · rw [hs]
    exact h

/-- The stack index never falls below that of the empty list. -/
theorem current_reachable (h : (requestMachine k m f).Reachable s) : -1 ≤ s.freeList.current := by
  apply h.invariant
  · rintro s ⟨pcb, -, rfl⟩
    simp only [startMmu, createFreeList]
    omega
  · intro s r s' hc _ hs
    obtain ⟨-, rfl⟩ := mmuMachine_next (f := f) hs
    cases r with
    | none => exact hc
    | some r => exact current_serve hc m (Int.natCast_nonneg r.id) _

/-! ## Room on the stack -/

/-- There are `f` frames. -/
theorem card_heldFrames_le (h : FramesDistinct k m f s) :
    Multiset.card (heldFrames k m s) ≤ f := by
  have hsub : heldFrames k m s ⊆ (Multiset.range f).map fun i : Nat => (i : Int) := by
    intro x hx
    obtain ⟨h0, hlt⟩ := h.inRange x hx
    exact Multiset.mem_map.mpr ⟨x.toNat, Multiset.mem_range.mpr (by omega), by omega⟩
  have hle := Multiset.card_le_card ((Multiset.le_iff_subset h.distinct).mpr hsub)
  rwa [Multiset.card_map, Multiset.card_range] at hle

/-- **A valid entry leaves a cell of the stack free**, since its own frame is not on the stack. -/
theorem push_inBounds (h : FramesDistinct k m f s) {x : Nat} (hx : x < k * m)
    (hv : (s.pageTable x).valid = true) : s.freeList.current + 1 < f := by
  have hstack : Multiset.card (freeFrames s.freeList) = (s.freeList.current + 1).toNat := by
    rw [freeFrames, Multiset.card_map, Multiset.card_range]
  have htable : 0 < Multiset.card (tableFrames (k * m) s.pageTable) :=
    Multiset.card_pos_iff_exists_mem.mpr ⟨_, mem_tableFrames hx hv⟩
  have hheld := card_heldFrames_le h
  rw [heldFrames, Multiset.card_add, hstack] at hheld
  omega

/-! ## The loop -/

/-- The loop has not got to this entry yet. -/
theorem freeing_pageTable (m : Nat) (s : Mmu) (id : Int) (i : Nat) :
    (freeing m s id i).pageTable (id * m + i) = s.pageTable (id * m + i) := by
  rw [freeing, foldl_freePage_pageTable, if_neg]
  rintro ⟨j, hj, hij⟩
  have := List.mem_range.mp hj
  omega

theorem rowFrames_succ (m : Nat) (s : Mmu) (id : Int) (i : Nat) :
    rowFrames m s id (i + 1) = rowFrames m s id i
      ++ if (s.pageTable (id * m + i)).valid
        then [(s.pageTable (id * m + i)).frameNumber] else [] := by
  rw [rowFrames, List.range_succ, List.filter_append, List.map_append, rowFrames]
  congr 1
  by_cases hv : (s.pageTable (id * m + i)).valid = true
  · simp [hv]
  · simp [hv]

/-- An iteration pushes the frame of its entry, if that is valid. -/
theorem frames_freePage (m : Nat) (id : Int) (hc : -1 ≤ s.freeList.current) (i : Nat) :
    (freePage m id s i).freeList.frames = s.freeList.frames
      ++ if (s.pageTable (id * m + i)).valid
        then [(s.pageTable (id * m + i)).frameNumber] else [] := by
  unfold freePage
  simp only
  split
  · exact frames_push s.freeList hc _
  · rw [List.append_nil]

theorem framesDistinct_freePage (h : FramesDistinct k m f s) (h0 : 0 ≤ id) (hk : id < k)
    (hi : i < m) : FramesDistinct k m f (freePage m id s i) := by
  have hheld := heldFrames_freePage h.current h0 hk hi
  refine ⟨h.current.trans (current_freePage m id s i), ?_, ?_⟩
  · rw [hheld]
    exact h.distinct
  · rw [hheld]
    exact h.inRange

/-- **The loop invariant.** -/
theorem freeing_invariant (h : FramesDistinct k m f s) (h0 : 0 ≤ id) (hk : id < k) (hi : i ≤ m) :
    FramesDistinct k m f (freeing m s id i)
      ∧ (freeing m s id i).freeList.frames = s.freeList.frames ++ rowFrames m s id i := by
  induction i with
  | zero => exact ⟨h, (List.append_nil _).symm⟩
  | succ i ih =>
      obtain ⟨hdistinct, hframes⟩ := ih (by omega)
      rw [freeing_succ]
      refine ⟨framesDistinct_freePage hdistinct h0 hk (by omega), ?_⟩
      calc (freePage m id (freeing m s id i) i).freeList.frames
          = (freeing m s id i).freeList.frames
              ++ if (s.pageTable (id * m + i)).valid
                then [(s.pageTable (id * m + i)).frameNumber] else [] := by
            rw [frames_freePage m id hdistinct.current i, freeing_pageTable]
        _ = s.freeList.frames ++ rowFrames m s id (i + 1) := by
            rw [hframes, List.append_assoc, ← rowFrames_succ]

/-- A row with no valid entry has nothing to give back. -/
theorem freePages_of_no_valid (hrow : ∀ i < m, (s.pageTable (id * m + i)).valid = false) :
    freePages m s id = s := by
  have key : ∀ i ≤ m, freeing m s id i = s := by
    intro i
    induction i with
    | zero => exact fun _ => rfl
    | succ i ih =>
        intro hi
        rw [freeing_succ, ih (by omega), freePage]
        exact if_neg (by simp [hrow i hi])
  exact key m le_rfl

theorem freePages_row (m : Nat) (s : Mmu) (id : Int) :
    ∀ i < m, ((freePages m s id).pageTable (id * m + i)).valid = false := by
  intro i hi
  rw [freePages_pageTable, if_pos ⟨by omega, by omega⟩]

/-- **Freeing a process** whose frames, and everybody else's, are held once. -/
theorem freePages_givesBack {k m f : Nat} {s : Mmu} {id : Int} (h : FramesDistinct k m f s)
    (h0 : 0 ≤ id) (hk : id < k) : GivesBack k m f s id where
  inBounds := by
    intro i hi hv
    have hbefore := (freeing_invariant h h0 hk hi.le).1
    obtain ⟨x, hx, hidx⟩ := row_index h0 hk hi
    rw [hidx] at hv
    have hlow := hbefore.current
    exact ⟨by omega, push_inBounds hbefore hx hv⟩
  frames := (freeing_invariant h h0 hk le_rfl).2
  row := freePages_row m s id
  otherRows := by
    intro x hx
    rw [freePages_pageTable, if_neg hx]
  distinct := (freeing_invariant h h0 hk le_rfl).1
  again := freePages_of_no_valid (freePages_row m s id)

/-- Two processes of two pages and four frames: process `0` has faulted on both of its pages and
process `1` on one. -/
theorem freePages_givesBack_run :
    ∃ s, (requestMachine 2 2 4).Reachable s ∧ rowFrames 2 s 0 2 = [3, 1] ∧ GivesBack 2 2 4 s 0 := by
  obtain ⟨s, hs, hp⟩ : ∃ s, (requestMachine 2 2 4).Reachable s
      ∧ decide (rowFrames 2 s 0 2 = [3, 1] ∧ -1 ≤ s.freeList.current
        ∧ (heldFrames 2 2 s).Nodup ∧ ∀ x ∈ heldFrames 2 2 s, 0 ≤ x ∧ x < (4 : Nat)) = true :=
    Machine.exists_reachable_of_exec (s := startMmu 2 2 4 [⟨2, 2, 0⟩, ⟨2, 2, 0⟩])
      (l := [some ⟨0, 0⟩, some ⟨1, 0⟩, some ⟨0, 1⟩]) ⟨_, ⟨rfl, by simp⟩, rfl⟩ (by decide)
  obtain ⟨hrow, hc, hdistinct, hrange⟩ := of_decide_eq_true hp
  exact ⟨s, hs, hrow, freePages_givesBack ⟨hc, hdistinct, hrange⟩ (by decide) (by decide)⟩

end OSLab.Paging
