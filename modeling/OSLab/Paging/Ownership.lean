import OSLab.Paging.Mmu
import OSLab.Lib.Count
import Mathlib.Data.List.GetD

set_option autoImplicit false

/-! # Who owns the frames

The frames are `0, …, f - 1`. A frame is held by the free list or by a valid page-table entry;
`heldFrames` collects both as a multiset, so that a frame held twice shows. Ownership is that
`heldFrames` is each frame once (`Owned`).

Freeing a page, serving a page in memory and taking a frame from the free list keep it. The
eviction does not: `page_fault_handler` hands out the frame number of the requested entry,
which is not valid, and invalidates an entry it picked by position, so its frame is gone
(`frames_not_owned`). Since `frame_allocated` is never raised, the eviction runs exactly when
a fault finds the free list empty; the other way to lose a frame is a fault on the cell after
the table. In the runs that do neither, every frame stays owned (`frames_owned_when`).
-/

namespace OSLab.Paging

/-! ## The frames held -/

/-- The frame a page-table entry holds. -/
def PageTableEntry.frames (e : PageTableEntry) : Multiset Int :=
  if e.valid then {e.frameNumber} else 0

/-- The frames of the valid entries among the first `N`. -/
def tableFrames (N : Nat) (pt : Int → PageTableEntry) : Multiset Int :=
  ∑ i ∈ Finset.range N, (pt i).frames

/-- The frames in `freelist[0..current]`. -/
def freeFrames (fl : FreeList) : Multiset Int :=
  (Multiset.range (fl.current + 1).toNat).map fun i : Nat => fl.freelist i

/-- The same frames, from the bottom of the stack to its top. -/
def FreeList.frames (fl : FreeList) : List Int :=
  (List.range (fl.current + 1).toNat).map fun i : Nat => fl.freelist i

/-- The frames in the free list and in the table. -/
def heldFrames (k m : Nat) (s : Mmu) : Multiset Int :=
  freeFrames s.freeList + tableFrames (k * m) s.pageTable

/-- Each frame held once, and the stack index in range. -/
structure Owned (k m f : Nat) (s : Mmu) : Prop where
  current : -1 ≤ s.freeList.current
  held : heldFrames k m s = (Multiset.range f).map fun i : Nat => (i : Int)

/-- What the owner of the frames wants: no frame twice, every frame in range, no frame lost,
and no valid entry without a frame. -/
structure FrameOwnership (k m f : Nat) (s : Mmu) : Prop where
  distinct : (heldFrames k m s).Nodup
  inRange : ∀ x ∈ heldFrames k m s, 0 ≤ x ∧ x < f
  complete : ∀ x : Int, 0 ≤ x → x < f → x ∈ heldFrames k m s
  framed : ∀ i < k * m, (s.pageTable i).valid = true → (s.pageTable i).frameNumber ≠ -1

variable {k m f : Nat} {s : Mmu}

theorem tableFrames_set {N x : Nat} (hx : x < N) (pt : Int → PageTableEntry)
    (e : PageTableEntry) :
    tableFrames N (Function.update pt x e) + (pt x).frames = tableFrames N pt + e.frames := by
  have h := sum_change (f := fun i : Nat => (pt i).frames)
    (g := fun i : Nat => (Function.update pt (x : Int) e i).frames) hx
    (fun j _ hj => by rw [Function.update_of_ne (by omega)])
  simpa [tableFrames] using h

theorem mem_tableFrames {N i : Nat} {pt : Int → PageTableEntry} (hi : i < N)
    (hv : (pt i).valid = true) : (pt i).frameNumber ∈ tableFrames N pt := by
  have hle : (pt i).frames ≤ tableFrames N pt :=
    Finset.single_le_sum (f := fun i : Nat => (pt i).frames) (fun _ _ => Multiset.zero_le _)
      (Finset.mem_range.mpr hi)
  exact Multiset.mem_of_le hle (by simp [PageTableEntry.frames, hv])

theorem coe_frames (fl : FreeList) : (fl.frames : Multiset Int) = freeFrames fl := rfl

/-- A push goes on top. -/
theorem frames_push (fl : FreeList) (hc : -1 ≤ fl.current) (x : Int) :
    FreeList.frames ⟨fl.current + 1, Function.update fl.freelist (fl.current + 1) x⟩
      = fl.frames ++ [x] := by
  obtain ⟨c, hc⟩ : ∃ c : Nat, fl.current + 1 = c := ⟨(fl.current + 1).toNat, by omega⟩
  have hn : ((c : Int) + 1).toNat = c + 1 := by omega
  simp only [FreeList.frames, hn, hc, Int.toNat_natCast, List.range_succ, List.map_append,
    List.map_singleton, Function.update_self]
  congr 1
  refine List.map_congr_left fun i hi => ?_
  have := List.mem_range.mp hi
  rw [Function.update_of_ne (by omega)]

theorem freeFrames_push (fl : FreeList) (hc : -1 ≤ fl.current) (x : Int) :
    freeFrames ⟨fl.current + 1, Function.update fl.freelist (fl.current + 1) x⟩
      = x ::ₘ freeFrames fl := by
  rw [← coe_frames, ← coe_frames, frames_push fl hc, Multiset.cons_coe]
  exact Multiset.coe_eq_coe.mpr (List.perm_append_singleton x fl.frames)

theorem freeFrames_pop (fl : FreeList) (hc : 0 ≤ fl.current) :
    freeFrames fl = fl.freelist fl.current ::ₘ freeFrames { fl with current := fl.current - 1 } := by
  obtain ⟨c, hc⟩ : ∃ c : Nat, fl.current = c := ⟨fl.current.toNat, by omega⟩
  have h₁ : ((c : Int) + 1).toNat = c + 1 := by omega
  simp [freeFrames, hc, h₁, Multiset.range_succ]

/-- What the owner wants follows from each frame being held once. -/
theorem Owned.ownership (h : Owned k m f s) : FrameOwnership k m f s where
  distinct := by
    rw [h.held]
    exact (Multiset.nodup_map_iff_of_injective Nat.cast_injective).mpr (Multiset.nodup_range f)
  inRange := by
    intro x hx
    rw [h.held] at hx
    obtain ⟨i, hi, rfl⟩ := Multiset.mem_map.mp hx
    have := Multiset.mem_range.mp hi
    omega
  complete := by
    intro x h0 hf
    rw [h.held]
    exact Multiset.mem_map.mpr ⟨x.toNat, Multiset.mem_range.mpr (by omega), by omega⟩
  framed := by
    intro i hi hv hneg
    have hmem : (s.pageTable i).frameNumber ∈ heldFrames k m s :=
      Multiset.mem_add.mpr (.inr (mem_tableFrames hi hv))
    rw [h.held] at hmem
    obtain ⟨j, -, hj⟩ := Multiset.mem_map.mp hmem
    omega

theorem owned_start (pcb : List Pcb) : Owned k m f (startMmu k m f pcb) where
  current := by simp only [startMmu, createFreeList]; omega
  held := by
    have htable : tableFrames (k * m) (startMmu k m f pcb).pageTable = 0 := by
      refine Finset.sum_eq_zero fun i _ => ?_
      simp only [startMmu, createPageTables]
      split_ifs <;> rfl
    have hn : ((f : Int) - 1 + 1).toNat = f := by omega
    rw [heldFrames, htable, add_zero]
    simp only [freeFrames, startMmu, createFreeList, hn]
    refine Multiset.map_congr rfl fun i hi => ?_
    have := Multiset.mem_range.mp hi
    rw [if_pos (by omega)]

/-! ## The paths of `serve_request` -/

/-- An index of row `id`, and so of the table. -/
theorem row_index {id : Int} (h0 : 0 ≤ id) (hk : id < k) {i : Nat} (hi : i < m) :
    ∃ x : Nat, x < k * m ∧ id * m + i = x := by
  obtain ⟨a, rfl⟩ : ∃ a : Nat, id = a := ⟨id.toNat, by omega⟩
  refine ⟨a * m + i, ?_, by push_cast; ring⟩
  have ha : a + 1 ≤ k := by omega
  calc a * m + i < a * m + m := by omega
    _ = (a + 1) * m := by ring
    _ ≤ k * m := Nat.mul_le_mul_right m ha

/-- A page freed takes its frame from the table to the free list. -/
theorem heldFrames_freePage (hc : -1 ≤ s.freeList.current) {id : Int} (h0 : 0 ≤ id) (hk : id < k)
    {i : Nat} (hi : i < m) : heldFrames k m (freePage m id s i) = heldFrames k m s := by
  obtain ⟨x, hx, hidx⟩ := row_index h0 hk hi
  unfold freePage
  rw [hidx]
  simp only
  split_ifs with hv
  · have hset := tableFrames_set hx s.pageTable { s.pageTable x with valid := false }
    simp only [PageTableEntry.frames, hv, if_true, Bool.false_eq_true, if_false, add_zero] at hset
    rw [heldFrames, heldFrames, freeFrames_push _ hc, ← hset]
    simp only [← Multiset.singleton_add]
    abel
  · rfl

theorem current_freePage (m : Nat) (id : Int) (s : Mmu) (i : Nat) :
    s.freeList.current ≤ (freePage m id s i).freeList.current := by
  unfold freePage
  simp only
  split
  · simp only
    omega
  · exact le_refl _

theorem owned_freePage (h : Owned k m f s) {id : Int} (h0 : 0 ≤ id) (hk : id < k) {i : Nat}
    (hi : i < m) : Owned k m f (freePage m id s i) where
  current := h.current.trans (current_freePage m id s i)
  held := (heldFrames_freePage h.current h0 hk hi).trans h.held

theorem owned_freePages (h : Owned k m f s) {id : Int} (h0 : 0 ≤ id) (hk : id < k) :
    Owned k m f (freePages m s id) := by
  refine List.foldlRecOn _ _ h ?_
  intro t ht i hi
  exact owned_freePage ht h0 hk (List.mem_range.mp hi)

/-- A new frame number for no entry, a new count for any. -/
theorem owned_setCount (h : Owned k m f s) (x c : Int) :
    Owned k m f (s.setEntry x { s.pageTable x with count := c }) := by
  refine ⟨h.current, ?_⟩
  rw [← h.held, heldFrames, heldFrames]
  congr 1
  refine Finset.sum_congr rfl fun i _ => ?_
  by_cases hix : (i : Int) = x
  · simp [Mmu.setEntry, hix, PageTableEntry.frames]
  · rw [Mmu.setEntry_pageTable, Function.update_of_ne hix]

/-- A frame from the free list goes to an entry that was not valid. -/
theorem owned_takeFrame (h : Owned k m f s) {x : Nat} (hx : x < k * m)
    (hv : (s.pageTable x).valid = false) (hc : s.freeList.current ≠ -1) (c : Int) :
    Owned k m f
      ({ s with freeList := { s.freeList with current := s.freeList.current - 1 } }.setEntry x
        ⟨true, s.freeList.freelist s.freeList.current, c⟩) := by
  have hcur := h.current
  refine ⟨by simp only [Mmu.setEntry]; omega, ?_⟩
  have hset := tableFrames_set hx s.pageTable
    ⟨true, s.freeList.freelist s.freeList.current, c⟩
  simp only [PageTableEntry.frames, hv, if_true, Bool.false_eq_true, if_false, add_zero] at hset
  rw [← h.held, heldFrames, heldFrames, freeFrames_pop s.freeList (by omega)]
  simp only [Mmu.setEntry, hset, ← Multiset.singleton_add]
  abel

/-! ## Requests -/

/-- If the request faults, the free list is not empty and the page's entry lies in the table. -/
def FaultIsServable (k m : Nat) (s : Mmu) (r : Option Request) : Prop :=
  FaultsOn m s (readRequest r).1 (readRequest r).2 →
    s.freeList.current ≠ -1 ∧ (readRequest r).1 * m + (readRequest r).2 < k * m

instance (k m : Nat) (s : Mmu) (r : Option Request) : Decidable (FaultIsServable k m s r) :=
  inferInstanceAs (Decidable (_ → _ ∧ _))

/-- Every process may hold more frames than its `frame_allocated` says it holds. -/
def Entitled (k : Nat) (s : Mmu) : Prop :=
  ∀ id : Int, 0 ≤ id → id < k → (s.pcbAt id).frameAllocated < (s.pcbAt id).frameCount

/-- No request changes the `pcb` array. -/
theorem serveRequest_pcb (m : Nat) (s : Mmu) (r : Option Request) :
    (serveRequest m s r).1.pcb = s.pcb := by
  unfold serveRequest serve serveInvalid servePageFault serveHit pageFaultHandler
  simp only
  split_ifs <;> simp

/-- A servable fault takes its frame from the free list. -/
theorem owned_servePageFault (h : Owned k m f s) {id p : Int} (h0 : 0 ≤ id)
    (hent : (s.pcbAt id).frameAllocated < (s.pcbAt id).frameCount) (hf : FaultsOn m s id p)
    (hc : s.freeList.current ≠ -1) (hx : id * m + p < k * m) :
    Owned k m f (servePageFault m s id p).1 := by
  have hneg : 0 ≤ id * m + p := by
    have := Int.mul_nonneg h0 (Int.natCast_nonneg m)
    have := hf.1.1
    omega
  obtain ⟨x, hxk⟩ : ∃ x : Nat, id * m + p = x := ⟨(id * m + p).toNat, by omega⟩
  have hv := hf.2
  rw [hxk] at hv hx
  have htake := owned_takeFrame h (x := x) (by exact_mod_cast hx) hv hc s.timeStamp
  rw [servePageFault, pageFaultHandler, if_neg (by simp only [Mmu.pcbAt] at hent ⊢; omega)]
  simp only [hxk]
  exact ⟨htake.current, htake.held⟩

/-- **One request.** A request of one of the processes whose fault, if it is one, can be served
keeps every frame owned. -/
theorem owned_serveRequest {r : Option Request} (h : Owned k m f s) (he : Entitled k s)
    (hr : ∀ q ∈ r, q.id < k) (hok : FaultIsServable k m s r) :
    Owned k m f (serveRequest m s r).1 := by
  cases r with
  | none => simpa [serveRequest, serve, readRequest] using h
  | some q =>
      have hid : (q.id : Int) < k := by exact_mod_cast hr q rfl
      have h0 : (0 : Int) ≤ q.id := by omega
      have htick : Owned k m f s.tick := ⟨h.current, h.held⟩
      simp only [FaultIsServable, readRequest] at hok
      rw [serveRequest, readRequest]
      generalize Int.bmod q.pageNumber 256 = p at hok ⊢
      rcases serve_cases m s p h0 with rfl | ⟨-, -, hs⟩ | ⟨hf, hs⟩ | ⟨-, -, hs⟩
      · rw [serve_done]
        have := owned_freePages h h0 hid
        exact ⟨this.current, this.held⟩
      · rw [hs, serveInvalid]
        refine owned_freePages ?_ h0 hid
        exact ⟨htick.current, htick.held⟩
      · obtain ⟨hc, hx⟩ := hok hf
        rw [hs]
        exact owned_servePageFault htick h0 (he _ h0 hid) hf hc hx
      · rw [hs]
        exact owned_setCount htick _ _

/-- The `pcb` of a process is in the array. -/
theorem pcbAt_start_mem {pcb : List Pcb} (hlen : pcb.length = k) {id : Int} (h0 : 0 ≤ id)
    (hk : id < k) : (startMmu k m f pcb).pcbAt id ∈ pcb := by
  have hlt : id.toNat < pcb.length := by
    rw [hlen]
    omega
  simp only [Mmu.pcbAt, startMmu, if_pos h0, List.getD_eq_getElem _ _ hlt]
  exact List.getElem_mem hlt

theorem entitled_start {pcb : List Pcb} (hp : PcbArray k m pcb) (hc : ∀ p ∈ pcb, 1 ≤ p.frameCount) :
    Entitled k (startMmu k m f pcb) := by
  intro id h0 hk
  have hmem := pcbAt_start_mem (m := m) (f := f) hp.1 h0 hk
  have hcount := hc _ hmem
  have hnone := (hp.2 _ hmem).2.2
  omega

/-- **Every frame stays owned** in the runs in which a request that faults finds a free frame and
names an entry of the table. -/
theorem frames_owned_when {k m f : Nat} {s : Mmu}
    (h : (mmuMachine k m f).ReachableWhen (FaultIsServable k m) s) : FrameOwnership k m f s := by
  have hent : ∀ s, (mmuMachine k m f).ReachableWhen (FaultIsServable k m) s → Entitled k s := by
    intro s h
    refine h.invariant ?_ ?_
    · rintro s ⟨pcb, hp, hc, rfl⟩
      exact entitled_start hp hc
    · intro s r s' he _ hs id h0 hk
      obtain ⟨-, rfl⟩ := mmuMachine_next hs
      have := he id h0 hk
      simpa only [Mmu.pcbAt, serveRequest_pcb] using this
  refine (h.invariant_of hent (I := Owned k m f) ?_ ?_).ownership
  · rintro s ⟨pcb, -, -, rfl⟩
    exact owned_start pcb
  · intro s r s' he ho hok hs
    obtain ⟨hr, rfl⟩ := mmuMachine_next hs
    exact owned_serveRequest ho he hr hok

/-- The condition is met in a run of two processes with every kind of request: a fault and the
retry of each, an illegal page and the `PROCESS_DONE` after it, and the last `PROCESS_DONE`. -/
theorem frames_owned_when_run :
    ∃ s, (mmuMachine 2 2 2).ReachableWhen (FaultIsServable 2 2) s ∧ s.terminated = 2
      ∧ FrameOwnership 2 2 2 s := by
  obtain ⟨s, hs, hp⟩ : ∃ s, (mmuMachine 2 2 2).ReachableWhen (FaultIsServable 2 2) s
      ∧ (s.terminated == 2) = true :=
    Machine.exists_reachableWhen_of_execWhen (s := startMmu 2 2 2 [⟨2, 1, 0⟩, ⟨1, 1, 0⟩])
      (l := [some ⟨0, 1⟩, some ⟨0, 1⟩, some ⟨1, 0⟩, some ⟨1, 0⟩, none, some ⟨1, 7⟩, some ⟨1, -9⟩,
        some ⟨0, -9⟩])
      ⟨_, ⟨rfl, by simp⟩, by simp, rfl⟩ (by decide)
  exact ⟨s, hs, by simpa using hp, frames_owned_when hs⟩

/-- **Frames are lost otherwise.** One process of two pages and one frame: after it has referred
to page `0`, again to page `0`, and to page `1`, the valid entry of page `1` holds `-1`. -/
theorem frames_not_owned :
    ¬ ∀ s, (mmuMachine 1 2 1).Reachable s → FrameOwnership 1 2 1 s := by
  intro h
  obtain ⟨s, hs, hp⟩ := Machine.exists_reachable_of_exec (M := mmuMachine 1 2 1)
    (s := startMmu 1 2 1 [⟨2, 1, 0⟩]) (l := [some ⟨0, 0⟩, some ⟨0, 0⟩, some ⟨0, 1⟩])
    (p := fun s => (s.pageTable 1).valid && (s.pageTable 1).frameNumber == -1)
    ⟨_, ⟨rfl, by simp⟩, by simp, rfl⟩ (by decide)
  simp only [Bool.and_eq_true, beq_iff_eq] at hp
  exact (h s hs).framed 1 (by decide) hp.1 hp.2

end OSLab.Paging
