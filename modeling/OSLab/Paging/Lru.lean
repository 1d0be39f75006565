import OSLab.Paging.Rows

set_option autoImplicit false

/-! # Which page `page_fault_handler` replaces

The search for the least recently used page of process `id` has the tests of such a search, but not
its indices: validity and the bound of the loop are looked up at the loop index as it is, the count
and the frame number in the entry of the requested page. So the loop takes the first valid entry it
gets to in the table, the entry with that index in row `id` is invalidated, and the frame handed out
is one that the requested page had before. `pageFaultHandler_lru_iff` says when this comes to the
same as a replacement of the least recently used page.
-/

namespace OSLab.Paging

variable {m : Nat} {s : Mmu} {id p q : Int}

/-- Page `q` of process `id` is in memory. -/
def InMemory (m : Nat) (s : Mmu) (id q : Int) : Prop :=
  (0 ≤ q ∧ q < (s.pcbAt id).m) ∧ (s.pageTable (id * m + q)).valid = true

/-- No page of process `id` in memory has a smaller count. -/
def LeastRecent (m : Nat) (s : Mmu) (id q : Int) : Prop :=
  InMemory m s id q ∧ ∀ x, InMemory m s id x →
    (s.pageTable (id * m + q)).count ≤ (s.pageTable (id * m + x)).count

/-- A fault on page `p` of process `id` that has to be given the frame of another of its pages. -/
structure Replacing (m : Nat) (s : Mmu) (id p : Int) : Prop where
  process : 0 ≤ id ∧ id < s.pcb.length
  sizes : ∀ e ∈ s.pcb, e.m ≤ m
  distinct : ∀ x y, 0 ≤ x → x < s.pcb.length * m → 0 ≤ y → y < s.pcb.length * m →
    (s.pageTable x).valid = true → (s.pageTable y).valid = true →
    (s.pageTable x).frameNumber = (s.pageTable y).frameNumber → x = y
  evicts : Evicts s id
  some_page : ∃ q, InMemory m s id q
  page : 0 ≤ p ∧ p < (s.pcbAt id).m
  absent : (s.pageTable (id * m + p)).valid = false

/-- The handler takes the frame of a least recently used page, and changes nothing else. -/
def ReplacesLru (m : Nat) (s : Mmu) (id p : Int) : Prop :=
  ∃ q, LeastRecent m s id q
    ∧ pageFaultHandler m s id p
      = (s.setEntry (id * m + q) { s.pageTable (id * m + q) with valid := false },
        (s.pageTable (id * m + q)).frameNumber)

/-- What the handler does when it evicts. -/
theorem pageFaultHandler_evicts (h : Evicts s id) :
    pageFaultHandler m s id p
      = (s.setEntry (id * m + victimIndex s (id * m + p))
          { s.pageTable (id * m + victimIndex s (id * m + p)) with valid := false },
        (victim s (id * m + p)).frameNumber) :=
  if_pos h

/-- Two entries invalidated alike are one, if the first was valid. -/
theorem setEntry_invalid_inj {x y : Int} (hx : (s.pageTable x).valid = true)
    (h : s.setEntry x { s.pageTable x with valid := false }
      = s.setEntry y { s.pageTable y with valid := false }) : x = y := by
  by_contra hne
  have hentry := congrFun (congrArg Mmu.pageTable h) x
  rw [Mmu.setEntry_pageTable, Mmu.setEntry_pageTable, Function.update_self,
    Function.update_of_ne hne] at hentry
  rw [← hentry] at hx
  cases hx

/-- **When the least recently used page is replaced**: the first valid entry the loop gets to in the
table has the index of such a page in its row, and its frame is the one the requested page had. -/
theorem pageFaultHandler_lru_iff (m : Nat) (s : Mmu) (id p : Int) (h : Replacing m s id p) :
    ReplacesLru m s id p ↔ ∃ n < s.pcb.length, IsVictim s (id * m + p) n
      ∧ LeastRecent m s id n
      ∧ (s.pageTable (id * m + n)).frameNumber = (s.pageTable (id * m + p)).frameNumber := by
  rw [ReplacesLru, pageFaultHandler_evicts h.evicts]
  constructor
  · rintro ⟨q, hleast, heq⟩
    obtain ⟨hstate, hframe⟩ := Prod.mk.inj heq
    have hindex : q = victimIndex s (id * m + p) := by
      have := setEntry_invalid_inj hleast.1.2 hstate.symm
      omega
    rcases victim_cases s (id * m + p) with ⟨hv, -⟩ | ⟨n, hn, hvictim, hv⟩
    · -- without a victim the index is before the row
      have hnonneg := hleast.1.1.1
      rw [hindex, victimIndex, hv] at hnonneg
      exact absurd hnonneg (by decide)
    · have hqn : q = n := hindex.trans (congrArg Victim.mini hv)
      rw [hv, hqn] at hframe
      rw [hqn] at hleast
      exact ⟨n, hn, hvictim, hleast, hframe.symm⟩
  · rintro ⟨n, hn, hvictim, hleast, hframe⟩
    refine ⟨n, hleast, ?_⟩
    rcases victim_cases s (id * m + p) with ⟨-, hnone⟩ | ⟨j, -, -, hv⟩
    · exact absurd hvictim (hnone n hn)
    · rw [victimIndex_eq hn hvictim, hv, hframe]

/-- One process of two pages and one frame, with its first page in memory. -/
def firstPageIn (frameNumber : Int) : Mmu where
  pcb := [⟨2, 1, 0⟩]
  pageTable := fun x => if x = 0 then ⟨true, 0, 1⟩ else ⟨false, frameNumber, 0⟩
  freeList := ⟨-1, fun _ => 0⟩
  timeStamp := 2
  terminated := 0
  pageFaults := fun _ => 1
  invalidPageReferences := fun _ => 0

theorem firstPageIn_replacing (frameNumber : Int) : Replacing 2 (firstPageIn frameNumber) 0 1 where
  process := by simp [firstPageIn]
  sizes := by simp [firstPageIn]
  distinct := by
    intro x y _ _ _ _ hx hy _
    by_cases hx0 : x = 0
    · by_cases hy0 : y = 0
      · rw [hx0, hy0]
      · simp [firstPageIn, hy0] at hy
    · simp [firstPageIn, hx0] at hx
  evicts := Or.inl rfl
  some_page := ⟨0, by simp [InMemory, firstPageIn, Mmu.pcbAt]⟩
  page := by simp [firstPageIn, Mmu.pcbAt]
  absent := rfl

theorem pageFaultHandler_lru_firstPageIn :
    ReplacesLru 2 (firstPageIn 0) 0 1 ↔ ∃ n < 1, IsVictim (firstPageIn 0) 1 n
      ∧ LeastRecent 2 (firstPageIn 0) 0 n
      ∧ ((firstPageIn 0).pageTable (0 * 2 + n)).frameNumber = 0 :=
  pageFaultHandler_lru_iff 2 (firstPageIn 0) 0 1 (firstPageIn_replacing 0)

/-- **The frame is not that of the page replaced**: a fault on a page that never had a frame is
given the frame number `-1`. -/
theorem victim_frame_lost : ¬ ∀ (m : Nat) (s : Mmu) (id p : Int), Replacing m s id p →
    ReplacesLru m s id p := by
  intro h
  obtain ⟨q, ⟨hin, -⟩, heq⟩ := h 2 (firstPageIn (-1)) 0 1 (firstPageIn_replacing (-1))
  have hframe : -1 = ((firstPageIn (-1)).pageTable (0 * 2 + q)).frameNumber := congrArg Prod.snd heq
  have hq : q = 0 := by
    by_contra hne
    have hvalid := hin.2
    simp [firstPageIn, hne] at hvalid
  rw [hq] at hframe
  exact absurd hframe (by decide)

end OSLab.Paging
