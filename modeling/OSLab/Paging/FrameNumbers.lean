import OSLab.Paging.Rows
import OSLab.Paging.Parties

set_option autoImplicit false

/-! # The numbers in the frame fields

`frame_number` is `-1` in an entry that never had a frame, and a process takes a reply of `-1` for a
page fault and of `-2` for an illegal page. The numbers only move: from the free list to an entry, from
a valid entry to the free list, and by the eviction, which gives an entry its own number back or, if it
finds no victim, `-1`. So no entry ever gets `-2` (`Numbered`), and the valid entries have the number of
a frame as long as no eviction gives a page the `-1` (`Framed`).
-/

namespace OSLab.Paging

variable {m : Nat} {s : Mmu} {r : Request} {id p x : Int}

/-- The entry of the page requested. -/
def Request.target (m : Nat) (r : Request) : Int := r.id * m + r.page

/-- The three replies. -/
theorem reply_serveRequest (h : Out.reply id x ∈ (serveRequest m s (some r)).2) :
    id = r.id
      ∧ (¬ Accepted s r.id r.page ∧ x = INVALID_PAGE_NUMBER
        ∨ FaultsOn m s r.id r.page ∧ x = PAGE_FAULT
        ∨ Accepted s r.id r.page ∧ (s.pageTable (r.target m)).valid = true
          ∧ x = (s.pageTable (r.target m)).frameNumber) := by
  have hserve : serveRequest m s (some r) = serve m s r.id r.page := rfl
  rw [hserve] at h
  rcases serve_cases m s r.page (Int.natCast_nonneg r.id) with
    hd | ⟨-, hacc, hs⟩ | ⟨hf, hs⟩ | ⟨hacc, hv, hs⟩
  · rw [hd, serve_done] at h
    simp at h
  · rw [hs, serveInvalid] at h
    simp only [List.mem_cons, Out.reply.injEq, reduceCtorEq, List.not_mem_nil, or_false] at h
    exact ⟨h.1, .inl ⟨hacc, h.2⟩⟩
  · rw [hs, servePageFault] at h
    simp only [List.mem_cons, Out.reply.injEq, reduceCtorEq, List.not_mem_nil, or_false] at h
    exact ⟨h.1, .inr (.inl ⟨hf, h.2⟩)⟩
  · rw [hs, serveHit] at h
    simp only [List.mem_singleton, Out.reply.injEq] at h
    exact ⟨h.1, .inr (.inr ⟨hacc, hv, h.2⟩)⟩

/-! ## Where a frame number comes from -/

theorem freePages_freelist (m : Nat) (s : Mmu) (id x : Int) :
    (freePages m s id).freeList.freelist x = s.freeList.freelist x
      ∨ ∃ y, (s.pageTable y).valid = true
        ∧ (freePages m s id).freeList.freelist x = (s.pageTable y).frameNumber := by
  have key : ∀ (l : List Nat) (s : Mmu),
      (l.foldl (freePage m id) s).freeList.freelist x = s.freeList.freelist x
        ∨ ∃ y, (s.pageTable y).valid = true
          ∧ (l.foldl (freePage m id) s).freeList.freelist x = (s.pageTable y).frameNumber := by
    intro l
    induction l with
    | nil => exact fun _ => .inl rfl
    | cons i l ih =>
        intro s
        rw [List.foldl_cons]
        -- the number comes from a later page of the loop, from this one, or was there
        rcases ih (freePage m id s i) with hrest | ⟨y, hv, hrest⟩
        · rw [hrest, freePage]
          simp only
          split
          case isTrue hv =>
            by_cases hx : x = s.freeList.current + 1
            · exact .inr ⟨_, hv, by simp [hx]⟩
            · exact .inl (Function.update_of_ne hx _ _)
          case isFalse => exact .inl rfl
        · -- freeing one page leaves the numbers in the table alone
          rw [freePage_pageTable] at hv hrest
          split at hv
          case isTrue => cases hv
          case isFalse hy =>
            rw [if_neg hy] at hrest
            exact .inr ⟨y, hv, hrest⟩
  exact key _ s

/-- The three frames a fault can be given. -/
theorem faultFrame_cases (m : Nat) (s : Mmu) (id p : Int) :
    (¬ Evicts s id ∧ faultFrame m s id p = s.freeList.freelist s.freeList.current)
      ∨ (Evicts s id ∧ NoVictim s (id * m + p) ∧ faultFrame m s id p = -1)
      ∨ (Evicts s id ∧ ¬ NoVictim s (id * m + p)
        ∧ faultFrame m s id p = (s.pageTable (id * m + p)).frameNumber) := by
  unfold faultFrame
  by_cases hev : Evicts s id
  · rw [if_pos hev]
    rcases victim_cases s (id * m + p) with ⟨hv, hnone⟩ | ⟨n, hn, hvictim, hv⟩
    · exact .inr (.inl ⟨hev, hnone, by rw [hv]⟩)
    · exact .inr (.inr ⟨hev, fun hnone => hnone n hn hvictim, by rw [hv]⟩)
  · exact .inl ⟨hev, by rw [if_neg hev]⟩

/-- The free list of the handler is that of the request: the numbers stay where they are. -/
theorem pageFaultHandler_freelist (m : Nat) (s : Mmu) (id p : Int) :
    (pageFaultHandler m s id p).1.freeList.freelist = s.freeList.freelist := by
  unfold pageFaultHandler
  split <;> rfl

theorem freelist_serveRequest (m : Nat) (s : Mmu) (r : Request) (y : Int) :
    (serveRequest m s (some r)).1.freeList.freelist y = s.freeList.freelist y
      ∨ ∃ z, (s.pageTable z).valid = true
        ∧ (serveRequest m s (some r)).1.freeList.freelist y = (s.pageTable z).frameNumber := by
  have hserve : serveRequest m s (some r) = serve m s r.id r.page := rfl
  rw [hserve]
  rcases serve_cases m s r.page (Int.natCast_nonneg r.id) with
    hd | ⟨-, -, hs⟩ | ⟨-, hs⟩ | ⟨-, -, hs⟩
  · rw [hd, serve_done]
    exact freePages_freelist m s r.id y
  · rw [hs, serveInvalid]
    exact freePages_freelist m _ r.id y
  · rw [hs]
    exact .inl (congrFun (pageFaultHandler_freelist ..) y)
  · rw [hs]
    exact .inl rfl

/-! ## What the numbers can be -/

/-- No number is below `-1`. -/
structure Numbered (s : Mmu) : Prop where
  entries : ∀ x, -1 ≤ (s.pageTable x).frameNumber
  free : ∀ x, -1 ≤ s.freeList.freelist x

/-- The valid entries have frames, and the free list is one of frames. -/
structure Framed (s : Mmu) : Prop where
  entries : ∀ x, (s.pageTable x).valid = true → 0 ≤ (s.pageTable x).frameNumber
  free : ∀ x, 0 ≤ s.freeList.freelist x

/-- A fault on page `p` of process `id` is given a frame: one from the free list, or, where a victim is
found, the one the entry had before. -/
def GivesFrame (m : Nat) (s : Mmu) (id p : Int) : Prop :=
  ¬ Evicts s id ∨ (¬ NoVictim s (id * m + p) ∧ 0 ≤ (s.pageTable (id * m + p)).frameNumber)

instance (m : Nat) (s : Mmu) (id p : Int) : Decidable (GivesFrame m s id p) :=
  inferInstanceAs (Decidable (_ ∨ _))

theorem numbered_start (k m f : Nat) (pcb : List Pcb) : Numbered (startMmu k m f pcb) where
  entries := by
    intro x
    simp only [startMmu, createPageTables]
    split <;> decide
  free := by
    intro x
    simp only [startMmu, createFreeList]
    split <;> omega

theorem framed_start (k m f : Nat) (pcb : List Pcb) : Framed (startMmu k m f pcb) where
  entries := by
    intro x hv
    simp only [startMmu, createPageTables] at hv
    split at hv <;> cases hv
  free := by
    intro x
    simp only [startMmu, createFreeList]
    split <;> omega

theorem numbered_serveRequest (h : Numbered s) (r : Request) :
    Numbered (serveRequest m s (some r)).1 := by
  constructor
  case entries =>
    intro x
    rcases entry_serve m s (Int.natCast_nonneg r.id) r.page x with ⟨hx, -⟩ | ⟨-, -, hx⟩
    · exact (h.entries x).trans_eq hx.symm
    · refine le_of_le_of_eq ?_ hx.symm
      rcases faultFrame_cases m s r.id r.page with ⟨-, hf⟩ | ⟨-, -, hf⟩ | ⟨-, -, hf⟩
      · rw [hf]
        exact h.free _
      · rw [hf]
      · rw [hf]
        exact h.entries _
  case free =>
    intro x
    rcases freelist_serveRequest m s r x with hx | ⟨y, -, hx⟩
    · rw [hx]
      exact h.free x
    · rw [hx]
      exact h.entries y

theorem framed_serveRequest (h : Framed s) (r : Request)
    (hgives : FaultsOn m s r.id r.page → GivesFrame m s r.id r.page) :
    Framed (serveRequest m s (some r)).1 := by
  constructor
  case entries =>
    intro x hv
    rcases entry_serve m s (Int.natCast_nonneg r.id) r.page x with ⟨hx, hkept⟩ | ⟨hfault, -, hx⟩
    · exact (h.entries x (hkept hv)).trans_eq hx.symm
    · refine le_of_le_of_eq ?_ hx.symm
      -- the condition excludes the fault that finds no victim, and old numbers that are no frame
      rcases faultFrame_cases m s r.id r.page with ⟨-, hf⟩ | ⟨hev, hnone, -⟩ | ⟨hev, -, hf⟩
      · rw [hf]
        exact h.free _
      · rcases hgives hfault with hev' | ⟨hvictim, -⟩
        · exact absurd hev hev'
        · exact absurd hnone hvictim
      · rw [hf]
        rcases hgives hfault with hev' | ⟨-, hframe⟩
        · exact absurd hev hev'
        · exact hframe
  case free =>
    intro x
    rcases freelist_serveRequest m s r x with hx | ⟨y, hv, hx⟩
    · rw [hx]
      exact h.free x
    · rw [hx]
      exact h.entries y hv

end OSLab.Paging
