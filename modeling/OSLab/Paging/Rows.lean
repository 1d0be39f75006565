import OSLab.Paging.Ownership

set_option autoImplicit false

/-! # The rows of the page table

Row `id` belongs to process `id`. Two things go past it. The range check lets the page number
`pcb_ptr[id].m` pass, and if that is `m` its entry is the first of the next row. And the eviction that
finds no victim invalidates the entry before the row, which for process `0` is none of the table's: there
the store itself is the failure, whatever the memory before the segment holds (`storesTo`).
`isolated_iff` says that nothing else goes past the row.
-/

namespace OSLab.Paging

variable {k m f : Nat} {s : Mmu} {id p x : Int} {r : Request}

/-! ## The victim -/

/-- The loop that looks for a victim gets to index `n`. -/
def Scanned (s : Mmu) (n : Nat) : Prop := ∀ j ≤ n, (j : Int) < (s.pcbAt j).m

instance (s : Mmu) (n : Nat) : Decidable (Scanned s n) :=
  inferInstanceAs (Decidable (∀ j ≤ n, _))

/-- Entry `n` is the victim when entry `target` is requested: the first valid entry the loop gets to.
Its count plays no part. -/
def IsVictim (s : Mmu) (target : Int) (n : Nat) : Prop :=
  Scanned s n ∧ (s.pageTable n).valid = true ∧ (∀ j < n, (s.pageTable j).valid = false)
    ∧ (s.pageTable target).count < INT_MAX

instance (s : Mmu) (target : Int) (n : Nat) : Decidable (IsVictim s target n) :=
  inferInstanceAs (Decidable (_ ∧ _))

/-- No entry is the victim. -/
def NoVictim (s : Mmu) (target : Int) : Prop := ∀ n < s.pcb.length, ¬ IsVictim s target n

instance (s : Mmu) (target : Int) : Decidable (NoVictim s target) :=
  inferInstanceAs (Decidable (∀ n < s.pcb.length, _))

/-- After the first victim no other is taken. -/
theorem victimLoop_found (s : Mmu) (target : Int) (fuel i : Nat) {v : Victim}
    (hv : v.min ≤ (s.pageTable target).count) : victimLoop s target fuel i v = v := by
  induction fuel generalizing i with
  | zero => rfl
  | succ fuel ih =>
      unfold victimLoop
      split
      · rw [if_neg (fun hc => by omega)]
        exact ih (i + 1)
      · rfl

/-- The loop from index `i` on, when nothing has been found before it. -/
theorem victimLoop_cases (target : Int) {fuel i : Nat} {v : Victim} (hmin : v.min = INT_MAX)
    (hi : i + fuel = s.pcb.length) (hbefore : ∀ j < i, (j : Int) < (s.pcbAt j).m)
    (hnone : ∀ n < i, (s.pageTable n).valid = true → INT_MAX ≤ (s.pageTable target).count) :
    (victimLoop s target fuel i v = v ∧ NoVictim s target)
      ∨ ∃ n < s.pcb.length, IsVictim s target n ∧ victimLoop s target fuel i v
        = ⟨(s.pageTable target).count, n, (s.pageTable target).frameNumber⟩ := by
  -- a victim the loop has passed would have been taken
  have hpassed : ∀ n < i, ¬ IsVictim s target n := fun n hn hvictim =>
    absurd (hnone n hn hvictim.2.1) (not_le.mpr hvictim.2.2.2)
  induction fuel generalizing i with
  | zero =>
      refine .inl ⟨rfl, fun n hn => hpassed n ?_⟩
      omega
  | succ fuel ih =>
      unfold victimLoop
      by_cases hgo : (i : Int) < (s.pcbAt i).m
      · rw [if_pos hgo]
        have hscanned : Scanned s i := by
          intro j hj
          rcases hj.lt_or_eq with hlt | rfl
          · exact hbefore j hlt
          · exact hgo
        by_cases hfind : (s.pageTable i).valid = true ∧ (s.pageTable target).count < v.min
        · -- this is the victim, and the rest of the loop keeps it
          rw [if_pos hfind, victimLoop_found s target fuel (i + 1) le_rfl]
          rw [hmin] at hfind
          refine .inr ⟨i, by omega, ⟨hscanned, hfind.1, fun j hj => ?_, hfind.2⟩, rfl⟩
          by_contra hvalid
          exact absurd (hnone j hj (by simpa using hvalid)) (not_le.mpr hfind.2)
        · rw [if_neg hfind]
          have hnone' : ∀ n < i + 1, (s.pageTable n).valid = true →
              INT_MAX ≤ (s.pageTable target).count := by
            intro n hn hvalid
            rcases Nat.lt_succ_iff_lt_or_eq.mp hn with hlt | rfl
            · exact hnone n hlt hvalid
            · rw [hmin] at hfind
              exact not_lt.mp fun hlt => hfind ⟨hvalid, hlt⟩
          apply ih (i := i + 1) (by omega)
          · intro j hj
            exact hscanned j (by omega)
          · exact hnone'
          · intro n hn hvictim
            exact absurd (hnone' n hn hvictim.2.1) (not_le.mpr hvictim.2.2.2)
      · rw [if_neg hgo]
        refine .inl ⟨rfl, fun n _ hvictim => hpassed n ?_ hvictim⟩
        -- the loop has ended before `n`
        by_contra hle
        exact hgo (hvictim.1 i (by omega))

/-- What the loop ends with. -/
def victim (s : Mmu) (target : Int) : Victim :=
  victimLoop s target s.pcb.length 0 ⟨INT_MAX, -1, -1⟩

/-- The index of the victim. -/
def victimIndex (s : Mmu) (target : Int) : Int := (victim s target).mini

theorem victim_cases (s : Mmu) (target : Int) :
    (victim s target = ⟨INT_MAX, -1, -1⟩ ∧ NoVictim s target)
      ∨ ∃ n < s.pcb.length, IsVictim s target n
        ∧ victim s target = ⟨(s.pageTable target).count, n, (s.pageTable target).frameNumber⟩ :=
  victimLoop_cases target rfl (Nat.zero_add s.pcb.length)
    (fun j hj => absurd hj (Nat.not_lt_zero j)) (fun n hn => absurd hn (Nat.not_lt_zero n))

theorem victimIndex_cases (s : Mmu) (target : Int) :
    (victimIndex s target = -1 ∧ NoVictim s target)
      ∨ ∃ n < s.pcb.length, IsVictim s target n ∧ victimIndex s target = n := by
  rcases victim_cases s target with ⟨hv, hnone⟩ | ⟨n, hn, hvictim, hv⟩
  · exact .inl ⟨congrArg Victim.mini hv, hnone⟩
  · exact .inr ⟨n, hn, hvictim, congrArg Victim.mini hv⟩

theorem victimIndex_eq_neg_one {target : Int} (h : NoVictim s target) :
    victimIndex s target = -1 := by
  rcases victimIndex_cases s target with ⟨hv, -⟩ | ⟨n, hn, hvictim, -⟩
  · exact hv
  · exact absurd hvictim (h n hn)

/-- There is one first valid entry at most. -/
theorem victimIndex_eq {target : Int} {n : Nat} (hn : n < s.pcb.length)
    (h : IsVictim s target n) : victimIndex s target = n := by
  rcases victimIndex_cases s target with ⟨-, hnone⟩ | ⟨j, -, hj, hindex⟩
  · exact absurd h (hnone n hn)
  · rw [hindex]
    rcases lt_trichotomy j n with hlt | rfl | hlt
    · exact absurd hj.2.1 (by rw [h.2.2.1 j hlt]; decide)
    · rfl
    · exact absurd h.2.1 (by rw [hj.2.2.1 n hlt]; decide)

/-! ## What a request writes -/

/-- A fault of process `id` evicts. -/
def Evicts (s : Mmu) (id : Int) : Prop :=
  s.freeList.current = -1 ∨ (s.pcbAt id).frameCount ≤ (s.pcbAt id).frameAllocated

instance (s : Mmu) (id : Int) : Decidable (Evicts s id) := inferInstanceAs (Decidable (_ ∨ _))

/-- An index of row `id`. -/
def InRow (m : Nat) (id x : Int) : Prop := id * m ≤ x ∧ x < id * m + m

instance (m : Nat) (id x : Int) : Decidable (InRow m id x) := inferInstanceAs (Decidable (_ ∧ _))

/-- The entry an iteration looks at is not valid after it. -/
theorem freePage_pageTable (m : Nat) (id : Int) (s : Mmu) (i : Nat) (x : Int) :
    (freePage m id s i).pageTable x
      = if x = id * m + i then { s.pageTable x with valid := false } else s.pageTable x := by
  unfold freePage
  simp only
  split
  case isTrue =>
    by_cases hx : x = id * m + i
    · rw [if_pos hx, hx]
      exact Function.update_self _ _ _
    · rw [if_neg hx]
      exact Function.update_of_ne hx _ _
  case isFalse hv =>
    by_cases hx : x = id * m + i
    · rw [if_pos hx, hx, ← Bool.eq_false_of_not_eq_true hv]
    · rw [if_neg hx]

theorem foldl_freePage_pageTable (m : Nat) (id : Int) (l : List Nat) (s : Mmu) (x : Int) :
    (l.foldl (freePage m id) s).pageTable x
      = if ∃ i ∈ l, x = id * m + i then { s.pageTable x with valid := false }
        else s.pageTable x := by
  induction l generalizing s with
  | nil => simp
  | cons i l ih =>
      rw [List.foldl_cons, ih, freePage_pageTable]
      by_cases hi : x = id * m + i
      · simp [hi]
      · simp [hi]

theorem inRow_iff (m : Nat) (id x : Int) : InRow m id x ↔ ∃ i ∈ List.range m, x = id * m + i := by
  constructor
  · rintro ⟨hlow, hhigh⟩
    exact ⟨(x - id * m).toNat, List.mem_range.mpr (by omega), by omega⟩
  · rintro ⟨i, hi, rfl⟩
    have him := List.mem_range.mp hi
    exact ⟨by omega, by omega⟩

theorem freePages_pageTable (m : Nat) (s : Mmu) (id x : Int) :
    (freePages m s id).pageTable x
      = if InRow m id x then { s.pageTable x with valid := false } else s.pageTable x := by
  rw [freePages, foldl_freePage_pageTable]
  exact if_congr (inRow_iff m id x).symm rfl rfl

/-- A page in memory: its count. -/
theorem serveHit_pageTable (m : Nat) (s : Mmu) (id p x : Int) :
    (serveHit m s id p).1.pageTable x
      = if x = id * m + p then { s.pageTable x with count := s.timeStamp } else s.pageTable x := by
  unfold serveHit
  simp only [Mmu.setEntry_pageTable]
  split
  case isTrue hx => rw [hx, Function.update_self]
  case isFalse hx => rw [Function.update_of_ne hx]

/-- The search looks at the `pcb` array and the page table only. -/
theorem victim_congr {s s' : Mmu} (hpcb : s'.pcb = s.pcb) (htable : s'.pageTable = s.pageTable)
    (target : Int) : victim s' target = victim s target := by
  have hloop : ∀ fuel i v, victimLoop s' target fuel i v = victimLoop s target fuel i v := by
    intro fuel
    induction fuel with
    | zero => exact fun _ _ => rfl
    | succ fuel ih =>
        intro i v
        unfold victimLoop
        rw [ih, ih, htable, Mmu.pcbAt, Mmu.pcbAt, hpcb]
  rw [victim, victim, hloop, hpcb]

theorem victim_pageFaults (s : Mmu) (pageFaults : Int → Nat) (target : Int) :
    victim { s with pageFaults := pageFaults } target = victim s target := by
  apply victim_congr
  · rfl
  · rfl

theorem pageFaultHandler_pageTable (m : Nat) (s : Mmu) (id p x : Int) :
    (pageFaultHandler m s id p).1.pageTable x
      = if Evicts s id ∧ x = id * m + victimIndex s (id * m + p)
        then { s.pageTable x with valid := false } else s.pageTable x := by
  unfold pageFaultHandler
  show (if Evicts s id then _ else _ : Mmu × Int).1.pageTable x = _
  by_cases hev : Evicts s id
  · rw [if_pos hev]
    show Function.update s.pageTable (id * m + victimIndex s (id * m + p)) _ x = _
    by_cases hx : x = id * m + victimIndex s (id * m + p)
    · rw [if_pos ⟨hev, hx⟩, hx, Function.update_self]
      rfl
    · rw [if_neg (fun hc => hx hc.2), Function.update_of_ne hx]
  · rw [if_neg hev, if_neg (fun hc => hev hc.1)]

/-- The frame for the page. -/
def faultFrame (m : Nat) (s : Mmu) (id p : Int) : Int :=
  if Evicts s id then (victim s (id * m + p)).frameNumber
  else s.freeList.freelist s.freeList.current

/-- The clock plays no part. -/
theorem faultFrame_tick (m : Nat) (s : Mmu) (id p : Int) :
    faultFrame m s.tick id p = faultFrame m s id p := by
  have hvictim : victim s.tick (id * m + p) = victim s (id * m + p) :=
    victim_congr s.tick_pcb s.tick_pageTable _
  unfold faultFrame
  rw [hvictim]
  rfl

theorem pageFaultHandler_frame (m : Nat) (s : Mmu) (id p : Int) :
    (pageFaultHandler m s id p).2 = faultFrame m s id p := by
  unfold pageFaultHandler
  show (if Evicts s id then _ else _ : Mmu × Int).2 = _
  unfold faultFrame
  split <;> rfl

/-- A fault: the entry of the page, and that of the victim, if one is looked for. -/
theorem servePageFault_pageTable (m : Nat) (s : Mmu) (id p : Int) {x : Int} (hx : x ≠ id * m + p) :
    (servePageFault m s id p).1.pageTable x
      = if Evicts s id ∧ x = id * m + victimIndex s (id * m + p)
        then { s.pageTable x with valid := false } else s.pageTable x := by
  unfold servePageFault
  simp only [Mmu.setEntry_pageTable, Function.update_of_ne hx, pageFaultHandler_pageTable]
  rw [victimIndex, victim_pageFaults]
  rfl

/-- The entry of the page that faulted, afterwards. -/
theorem servePageFault_target (m : Nat) (s : Mmu) (id p : Int) :
    (servePageFault m s id p).1.pageTable (id * m + p)
      = ⟨true, faultFrame m s id p, s.timeStamp⟩ := by
  have htime : (pageFaultHandler m { s with
      pageFaults := Function.update s.pageFaults id (s.pageFaults id + 1) } id p).1.timeStamp
      = s.timeStamp := by
    unfold pageFaultHandler
    split <;> rfl
  unfold servePageFault
  simp only [Mmu.setEntry_pageTable, Function.update_self, pageFaultHandler_frame, faultFrame,
    victim_pageFaults, PageTableEntry.mk.injEq, true_and]
  exact ⟨rfl, htime⟩

/-- An entry keeps its frame number and is valid only if it was, or a fault is on it and it has the
frame for the fault. -/
theorem entry_serve (m : Nat) (s : Mmu) (hid : 0 ≤ id) (p x : Int) :
    (((serve m s id p).1.pageTable x).frameNumber = (s.pageTable x).frameNumber
      ∧ (((serve m s id p).1.pageTable x).valid = true → (s.pageTable x).valid = true))
    ∨ FaultsOn m s id p ∧ x = id * m + p
      ∧ ((serve m s id p).1.pageTable x).frameNumber = faultFrame m s id p := by
  have hfree : ∀ s : Mmu, ((freePages m s id).pageTable x).frameNumber = (s.pageTable x).frameNumber
      ∧ (((freePages m s id).pageTable x).valid = true → (s.pageTable x).valid = true) := by
    intro s
    rw [freePages_pageTable]
    split
    · exact ⟨rfl, fun h => by cases h⟩
    · exact ⟨rfl, fun h => h⟩
  rcases serve_cases m s p hid with rfl | ⟨-, -, hs⟩ | ⟨hf, hs⟩ | ⟨-, -, hs⟩
  · rw [serve_done]
    exact .inl (hfree s)
  · rw [hs]
    exact .inl (hfree _)
  · rw [hs]
    by_cases hx : x = id * m + p
    · -- the only entry that gets a frame
      refine .inr ⟨hf, hx, ?_⟩
      rw [hx, servePageFault_target, faultFrame_tick]
    · rw [servePageFault_pageTable _ _ _ _ hx]
      split
      · exact .inl ⟨rfl, fun h => by cases h⟩
      · exact .inl ⟨rfl, fun h => h⟩
  · rw [hs, serveHit_pageTable]
    split
    · exact .inl ⟨rfl, fun h => h⟩
    · exact .inl ⟨rfl, fun h => h⟩

/-! ## The stores -/

/-- The entries of the page table `serve` stores to, with a new value or not. -/
def storesTo (m : Nat) (s : Mmu) (id p x : Int) : Prop :=
  if Accepted s id p then
    x = id * m + p
      ∨ FaultsOn m s id p ∧ Evicts s id ∧ x = id * m + victimIndex s (id * m + p)
  else InRow m id x ∧ (s.pageTable x).valid = true

/-- The other entries stay what they are. -/
theorem pageTable_of_not_storesTo (m : Nat) (s : Mmu) (hid : 0 ≤ id) (p : Int)
    (hx : ¬ storesTo m s id p x) : (serve m s id p).1.pageTable x = s.pageTable x := by
  have hfree : ∀ t : Mmu, t.pageTable = s.pageTable → ¬ Accepted s id p →
      (freePages m t id).pageTable x = s.pageTable x := by
    intro t ht hacc
    rw [storesTo, if_neg hacc] at hx
    rw [freePages_pageTable, ht]
    split
    case isTrue hrow =>
      have hv : (s.pageTable x).valid = false := by
        by_contra hc
        exact hx ⟨hrow, by simpa using hc⟩
      rw [← hv]
    case isFalse => rfl
  have hdone : ¬ Accepted s id PROCESS_DONE := fun hc => by
    have := hc.1
    rw [PROCESS_DONE] at this
    omega
  rcases serve_cases m s p hid with rfl | ⟨-, hacc, hs⟩ | ⟨hf, hs⟩ | ⟨hacc, hv, hs⟩
  · rw [serve_done]
    exact hfree s rfl hdone
  · rw [hs]
    exact hfree _ rfl hacc
  · rw [storesTo, if_pos hf.1, not_or] at hx
    -- the search does not look at the clock
    have hsearch : victimIndex s.tick (id * m + p) = victimIndex s (id * m + p) :=
      congrArg Victim.mini (victim_congr s.tick_pcb s.tick_pageTable _)
    have hnot : ¬ (Evicts s.tick id ∧ x = id * m + victimIndex s.tick (id * m + p)) := by
      rw [hsearch]
      exact fun hc => hx.2 ⟨hf, hc⟩
    rw [hs, servePageFault_pageTable _ _ _ _ hx.1, if_neg hnot, Mmu.tick_pageTable]
  · rw [storesTo, if_pos hacc, not_or] at hx
    rw [hs, serveHit_pageTable, if_neg hx.1, Mmu.tick_pageTable]

/-! ## Isolation -/

/-- The MMU on its own, on any `pcb` array `create_pcb` may leave. -/
def requestMachine (k m f : Nat) : Machine Mmu (Option Request) where
  init s := ∃ pcb, PcbArray k m pcb ∧ s = startMmu k m f pcb
  next := (mmuMachine k m f).next

/-- A request of process `r.id` changes no entry outside of its row and stores nothing before the
table, and the frame it is answered with comes from a valid entry of the row. -/
structure Isolated (m : Nat) (s : Mmu) (r : Request) : Prop where
  frame : ∀ x, ¬ InRow m r.id x → (serveRequest m s (some r)).1.pageTable x = s.pageTable x
  inTable : ∀ x, storesTo m s r.id (readRequest (some r)).2 x → 0 ≤ x
  replies : ∀ id frameNumber, Out.reply id frameNumber ∈ (serveRequest m s (some r)).2 →
    frameNumber = PAGE_FAULT ∨ frameNumber = INVALID_PAGE_NUMBER
      ∨ ∃ x, InRow m r.id x ∧ (s.pageTable x).valid = true ∧ (s.pageTable x).frameNumber = frameNumber

/-- The request names the page after the row, or evicts and finds no victim while the entry before
the row is valid or is none of the table's. -/
def LeavesRow (m : Nat) (s : Mmu) (id p : Int) : Prop :=
  Accepted s id p ∧ (p = m ∨ ((s.pageTable (id * m + p)).valid = false ∧ Evicts s id
    ∧ NoVictim s (id * m + p) ∧ (id * m = 0 ∨ (s.pageTable (id * m - 1)).valid = true)))

instance (m : Nat) (s : Mmu) (id p : Int) : Decidable (LeavesRow m s id p) :=
  inferInstanceAs (Decidable (_ ∧ _))

/-- No process has more than `m` pages, and no entry was used later than the clock says. -/
structure Clocked (m : Nat) (s : Mmu) : Prop where
  pages : ∀ id, (s.pcbAt id).m ≤ m
  count : ∀ x, (s.pageTable x).count ≤ s.timeStamp

theorem pcbAt_congr {s s' : Mmu} (h : s'.pcb = s.pcb) (id : Int) : s'.pcbAt id = s.pcbAt id := by
  rw [Mmu.pcbAt, Mmu.pcbAt, h]

theorem pcbAt_mem_or (s : Mmu) (id : Int) : s.pcbAt id ∈ s.pcb ∨ s.pcbAt id = ⟨0, 0, 0⟩ := by
  unfold Mmu.pcbAt
  split
  · by_cases hlt : id.toNat < s.pcb.length
    · rw [List.getD_eq_getElem _ _ hlt]
      exact .inl (List.getElem_mem hlt)
    · exact .inr (List.getD_eq_default _ _ (not_lt.mp hlt))
  · exact .inr rfl

theorem clocked_start {pcb : List Pcb} (hpcb : PcbArray k m pcb) :
    Clocked m (startMmu k m f pcb) where
  pages := by
    intro id
    rcases pcbAt_mem_or (startMmu k m f pcb) id with hmem | hzero
    · exact (hpcb.2 _ hmem).2.1
    · rw [hzero]
      exact Int.natCast_nonneg m
  count := by
    intro x
    simp only [startMmu, createPageTables]
    split <;> rfl

theorem count_freePages (m : Nat) (s : Mmu) (id x : Int) :
    ((freePages m s id).pageTable x).count = (s.pageTable x).count := by
  rw [freePages_pageTable, apply_ite PageTableEntry.count, ite_self]

theorem servePageFault_timeStamp (m : Nat) (s : Mmu) (id p : Int) :
    (servePageFault m s id p).1.timeStamp = s.timeStamp := by
  unfold servePageFault pageFaultHandler
  simp only
  split <;> rfl

theorem clocked_serveRequest (h : Clocked m s) (r : Option Request) :
    Clocked m (serveRequest m s r).1 := by
  refine ⟨fun id => ?_, fun x => ?_⟩
  · rw [pcbAt_congr (serveRequest_pcb m s r)]
    exact h.pages id
  · have hx := h.count x
    cases r with
    | none => exact hx
    | some r =>
        have hserve : serveRequest m s (some r) = serve m s (readRequest (some r)).1
          (readRequest (some r)).2 := rfl
        rw [hserve]
        simp only [readRequest]
        generalize Int.bmod r.pageNumber 256 = p
        -- counts are only ever set to the clock, after it has ticked
        rcases serve_cases m s p (Int.natCast_nonneg r.id) with
          rfl | ⟨-, -, hs⟩ | ⟨-, hs⟩ | ⟨-, -, hs⟩
        · rw [serve_done]
          simpa [count_freePages] using hx
        · rw [hs]
          simp only [serveInvalid, count_freePages, freePages_timeStamp, Mmu.tick]
          omega
        · rw [hs]
          by_cases htarget : x = r.id * m + p
          · rw [htarget, servePageFault_target, servePageFault_timeStamp]
          · rw [servePageFault_pageTable _ _ _ _ htarget, servePageFault_timeStamp]
            show _ ≤ s.timeStamp + 1
            rw [apply_ite PageTableEntry.count]
            simp only [Mmu.tick_pageTable, ite_self]
            omega
        · rw [hs, serveHit_pageTable]
          show _ ≤ s.timeStamp + 1
          split
          · exact le_rfl
          · simp only [Mmu.tick]
            omega

theorem clocked_reachable (h : (requestMachine k m f).Reachable s) : Clocked m s := by
  apply h.invariant
  · rintro s ⟨pcb, hpcb, rfl⟩
    exact clocked_start hpcb
  · intro s r s' hI _ hs
    obtain ⟨-, rfl⟩ := mmuMachine_next (f := f) hs
    exact clocked_serveRequest hI r

/-- A victim's index is below the page count of some process, so it is one of the row. -/
theorem victim_inRow (hpages : ∀ id, (s.pcbAt id).m ≤ m) (id : Int) {target : Int}
    (hv : ¬ NoVictim s target) : InRow m id (id * m + victimIndex s target) := by
  rcases victimIndex_cases s target with ⟨-, hnone⟩ | ⟨n, -, hvictim, hindex⟩
  · exact absurd hnone hv
  · have hn := hvictim.1 n le_rfl
    have hm := hpages n
    rw [hindex]
    constructor <;> omega

theorem not_isolated (h : Clocked m s) (hleaves : LeavesRow m s r.id (readRequest (some r)).2) :
    ¬ Isolated m s r := by
  intro hiso
  have hframe := hiso.frame
  have hstores := hiso.inTable
  unfold serveRequest at hframe
  simp only [readRequest] at hframe hstores hleaves
  generalize Int.bmod r.pageNumber 256 = p at hframe hstores hleaves
  obtain ⟨hacc, rfl | ⟨hv, hev, hnone, hfirst | hbefore⟩⟩ := hleaves
  · -- the page after the row: its entry becomes valid, or gets a new count
    have hx := hframe (r.id * m + m) (fun hrow => lt_irrefl _ hrow.2)
    by_cases hv : (s.pageTable (r.id * m + m)).valid = true
    · rw [serve_hit hacc hv, serveHit_pageTable, if_pos rfl] at hx
      have hcount : s.timeStamp + 1 = (s.pageTable (r.id * m + m)).count :=
        congrArg PageTableEntry.count hx
      have hclock := h.count (r.id * m + m)
      omega
    · have hf : FaultsOn m s r.id m := ⟨hacc, by simpa using hv⟩
      rw [serve_fault hf, servePageFault_target] at hx
      exact hv (congrArg PageTableEntry.valid hx.symm)
  · -- no victim, and no entry before the row
    have hstore : storesTo m s r.id p (r.id * m + victimIndex s (r.id * m + p)) := by
      rw [storesTo, if_pos hacc]
      exact .inr ⟨⟨hacc, hv⟩, hev, rfl⟩
    have hin := hstores _ hstore
    rw [victimIndex_eq_neg_one hnone, hfirst] at hin
    omega
  · -- no victim: the entry before the row
    have hx := hframe (r.id * m - 1) (fun hrow => by have := hrow.1; omega)
    have hnone' : NoVictim s.tick (r.id * m + p) := hnone
    have hne : (r.id : Int) * m - 1 ≠ r.id * m + p := by
      have := hacc.1
      omega
    rw [serve_fault ⟨hacc, hv⟩, servePageFault_pageTable _ _ _ _ hne,
      victimIndex_eq_neg_one hnone', if_pos ⟨hev, by omega⟩, Mmu.tick_pageTable] at hx
    have hvalid := congrArg PageTableEntry.valid hx
    rw [hbefore] at hvalid
    cases hvalid

/-- An accepted page that is not the one after the row has its entry in the row. -/
theorem target_inRow (hpages : ∀ id, (s.pcbAt id).m ≤ m) (hacc : Accepted s id p)
    (hstays : ¬ LeavesRow m s id p) : InRow m id (id * m + p) := by
  have hne : p ≠ m := fun hc => hstays ⟨hacc, .inl hc⟩
  have hm := hpages id
  obtain ⟨h0, hle⟩ := hacc
  constructor <;> omega

/-- A fault that stays in the row. -/
theorem fault_frame (hpages : ∀ id, (s.pcbAt id).m ≤ m) (hf : FaultsOn m s id p)
    (hstays : ¬ LeavesRow m s id p) (hx : ¬ InRow m id x) :
    (servePageFault m s.tick id p).1.pageTable x = s.pageTable x := by
  have hne : x ≠ id * m + p := fun hc => hx (hc ▸ target_inRow hpages hf.1 hstays)
  rw [servePageFault_pageTable _ _ _ _ hne]
  by_cases hvictim : Evicts s.tick id ∧ x = id * m + victimIndex s.tick (id * m + p)
  · obtain ⟨hev, hindex⟩ := hvictim
    -- `x` is outside of the row, so there was no victim, and `x` was not valid before
    have hnone : NoVictim s (id * m + p) := by
      by_contra hc
      have hin := victim_inRow (s := s.tick) hpages id hc
      rw [← hindex] at hin
      exact hx hin
    have hbefore : x = id * m - 1 := by
      rw [hindex, victimIndex_eq_neg_one (s := s.tick) hnone]
      omega
    have hv : (s.pageTable x).valid = false := by
      by_contra hc
      apply hstays
      exact ⟨hf.1, .inr ⟨hf.2, hev, hnone, .inr (by simpa [hbefore] using hc)⟩⟩
    rw [if_pos ⟨hev, hindex⟩, Mmu.tick_pageTable, ← hv]
  · rw [if_neg hvictim, Mmu.tick_pageTable]

/-- A request that stays in the row stores nothing before the table. -/
theorem nonneg_of_storesTo {id : Nat} (hstays : ¬ LeavesRow m s id p)
    (hstore : storesTo m s id p x) : 0 ≤ x := by
  have hrow : (0 : Int) ≤ id * m := by positivity
  unfold storesTo at hstore
  split at hstore
  case isTrue hacc =>
    rcases hstore with hx | ⟨hf, hev, hx⟩
    · have := hacc.1
      omega
    · rcases victimIndex_cases s (id * m + p) with ⟨hindex, hnone⟩ | ⟨n, -, -, hindex⟩
      · -- without a victim there is an entry before the row
        have hfirst : (id : Int) * m ≠ 0 := fun hc =>
          hstays ⟨hacc, .inr ⟨hf.2, hev, hnone, .inl hc⟩⟩
        omega
      · omega
  case isFalse => exact hrow.trans hstore.1.1

/-- Nor does it change an entry outside of the row. -/
theorem frame_of_stays (hid : 0 ≤ id) (hpages : ∀ id, (s.pcbAt id).m ≤ m)
    (hstays : ¬ LeavesRow m s id p) (hx : ¬ InRow m id x) :
    (serve m s id p).1.pageTable x = s.pageTable x := by
  by_cases hstore : storesTo m s id p x
  · -- an entry that is stored to is freed, or is the page's, or the victim's
    unfold storesTo at hstore
    split at hstore
    case isTrue hacc =>
      rcases hstore with htarget | ⟨hf, -⟩
      · exact absurd (htarget ▸ target_inRow hpages hacc hstays) hx
      · rw [serve_fault hf]
        exact fault_frame hpages hf hstays hx
    case isFalse => exact absurd hstore.1 hx
  · exact pageTable_of_not_storesTo m s hid p hstore

theorem isolated_of_not_leavesRow (hpages : ∀ id, (s.pcbAt id).m ≤ m)
    (hstays : ¬ LeavesRow m s r.id (readRequest (some r)).2) : Isolated m s r where
  frame := fun _ hx => frame_of_stays (Int.natCast_nonneg r.id) hpages hstays hx
  inTable := fun _ hstore => nonneg_of_storesTo hstays hstore
  replies := by
    intro id frameNumber hmem
    have hserve : serveRequest m s (some r) = serve m s r.id (readRequest (some r)).2 := rfl
    generalize (readRequest (some r)).2 = p at hserve hstays
    rw [hserve] at hmem
    -- the four branches: nothing, the two error codes, and a frame of the row
    rcases serve_cases m s p (Int.natCast_nonneg r.id) with
      rfl | ⟨-, -, hs⟩ | ⟨-, hs⟩ | ⟨hacc, hv, hs⟩
    · rw [serve_done] at hmem
      simp at hmem
    · rw [hs, serveInvalid] at hmem
      simp only [List.mem_cons, Out.reply.injEq, reduceCtorEq, List.not_mem_nil, or_false] at hmem
      exact .inr (.inl hmem.2)
    · rw [hs, servePageFault] at hmem
      simp only [List.mem_cons, Out.reply.injEq, reduceCtorEq, List.not_mem_nil, or_false] at hmem
      exact .inl hmem.2
    · rw [hs, serveHit] at hmem
      simp only [List.mem_singleton, Out.reply.injEq] at hmem
      exact .inr (.inr ⟨_, target_inRow hpages hacc hstays, hv, hmem.2.symm⟩)

/-- **Isolation** of a request is lost exactly when it names the page after the row, or evicts and
finds no victim while the entry before the row is valid or is none of the table's. -/
theorem isolated_iff {k m f : Nat} {s : Mmu} {r : Request}
    (h : (requestMachine k m f).Reachable s) :
    Isolated m s r ↔ ¬ LeavesRow m s r.id (readRequest (some r)).2 := by
  have hclock := clocked_reachable h
  constructor
  · intro hiso hleaves
    exact not_isolated hclock hleaves hiso
  · exact isolated_of_not_leavesRow hclock.pages

/-- Two processes of three pages and one, with a frame each. Process `0` holds both frames; when it
refers to page `1` again nothing else changes, and when process `1` refers to page `0`, it takes the
last page from process `0`. The same store of process `0`, when process `1` holds both frames, falls
before the table. -/
theorem isolated_iff_run :
    (∃ s, (requestMachine 2 3 2).Reachable s ∧ Isolated 3 s ⟨0, 1⟩ ∧ ¬ Isolated 3 s ⟨1, 0⟩)
      ∧ ∃ s, (requestMachine 2 2 2).Reachable s ∧ ¬ Isolated 2 s ⟨0, 0⟩ := by
  obtain ⟨s, hs, hp⟩ : ∃ s, (requestMachine 2 3 2).Reachable s
      ∧ decide (¬ LeavesRow 3 s 0 1 ∧ LeavesRow 3 s 1 0) = true :=
    Machine.exists_reachable_of_exec (s := startMmu 2 3 2 [⟨3, 1, 0⟩, ⟨1, 1, 0⟩])
      (l := [some ⟨0, 1⟩, some ⟨0, 2⟩]) ⟨_, ⟨rfl, by simp⟩, rfl⟩ (by decide)
  obtain ⟨t, ht, hq⟩ : ∃ s, (requestMachine 2 2 2).Reachable s
      ∧ decide (LeavesRow 2 s 0 0) = true :=
    Machine.exists_reachable_of_exec (s := startMmu 2 2 2 [⟨1, 1, 0⟩, ⟨2, 1, 0⟩])
      (l := [some ⟨1, 0⟩, some ⟨1, 1⟩]) ⟨_, ⟨rfl, by simp⟩, rfl⟩ (by decide)
  obtain ⟨hstays, hleaves⟩ := of_decide_eq_true hp
  refine ⟨⟨s, hs, ?_, ?_⟩, t, ht, ?_⟩
  · exact (isolated_iff hs).mpr hstays
  · intro hiso
    exact (isolated_iff hs).mp hiso hleaves
  · intro hiso
    exact (isolated_iff ht).mp hiso (of_decide_eq_true hq)

/-- **The page after the row.** Two processes of one page: when process `0` refers to page `1`, which
it does not have, the entry of process `1` becomes valid. -/
theorem page_after_row :
    ¬ ∀ s r, (requestMachine 2 1 2).Reachable s → r.id < 2 →
      (0 ≤ r.pageNumber ∧ r.pageNumber ≤ 127 ∨ r.pageNumber = PROCESS_DONE) → Isolated 1 s r := by
  intro h
  have hstart : (requestMachine 2 1 2).Reachable (startMmu 2 1 2 [⟨1, 1, 0⟩, ⟨1, 1, 0⟩]) :=
    .init ⟨_, ⟨rfl, by simp⟩, rfl⟩
  have hframe := (h _ ⟨0, 1⟩ hstart (by decide) (by decide)).frame 1 (by decide)
  revert hframe
  decide

end OSLab.Paging
