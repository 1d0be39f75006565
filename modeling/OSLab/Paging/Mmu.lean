import OSLab.Lib.Machine
import Mathlib.Tactic

set_option autoImplicit false

/-! # The memory-management unit of `mmu.c`

`serve_request` takes one message from a process and works on the three shared structures
`master.c` builds: the page table (one array, row `id` at `id * m`), the free list (a stack
with top index `current`) and the `pcb` array. The model computes the new structures and the
messages sent, in the order they are sent.

The page table is indexed by integers and has no bounds, because the source indexes it without
a check: `page_number` may be one past the row, and the index of the evicted entry may be one
before it. Cells outside `0 … k*m - 1` are memory around the segment, zero at the start, which the
source may not be allowed to touch: a result about the entries says itself which of them are stored
to (`storesTo` in `Rows`). The `pcb` array is the list of the `k` entries; what lies past it in its page is zero too.

`prev` and the lines written to the terminal and to `result.txt` are left out.
-/

namespace OSLab.Paging

/-- The `page_table_entry`. -/
structure PageTableEntry where
  valid : Bool
  frameNumber : Int
  count : Int
  deriving DecidableEq, Repr

/-- The `pcb`, without the `pid` that no function here reads. -/
structure Pcb where
  m : Int
  frameCount : Int
  frameAllocated : Int
  deriving DecidableEq, Repr

/-- The `free_list`: the free frames are `freelist[0..current]`. -/
structure FreeList where
  current : Int
  freelist : Int → Int

/-- The shared structures and the counters of the MMU. -/
structure Mmu where
  pcb : List Pcb
  pageTable : Int → PageTableEntry
  freeList : FreeList
  timeStamp : Int
  terminated : Nat
  pageFaults : Int → Nat
  invalidPageReferences : Int → Nat

/-- A message a process sends: `struct mmumsg_send` of `proc.c`. -/
structure Request where
  id : Nat
  pageNumber : Int
  deriving DecidableEq, Repr

/-- What the MMU tells the scheduler. -/
inductive Notice
  | pageFaultHandled
  | processTerm
  deriving DecidableEq, Repr

/-- A message the MMU sends: to process `id`, or to the scheduler. -/
inductive Out
  | reply (id : Int) (frameNumber : Int)
  | notify (type : Notice)
  deriving DecidableEq, Repr

def PAGE_FAULT : Int := -1
def INVALID_PAGE_NUMBER : Int := -2
def PROCESS_DONE : Int := -9
def INT_MAX : Int := 2147483647

/-- `pcb_ptr[i]`. -/
def Mmu.pcbAt (s : Mmu) (i : Int) : Pcb :=
  if 0 ≤ i then s.pcb.getD i.toNat ⟨0, 0, 0⟩ else ⟨0, 0, 0⟩

def Mmu.setEntry (s : Mmu) (x : Int) (e : PageTableEntry) : Mmu :=
  { s with pageTable := Function.update s.pageTable x e }

@[simp] theorem Mmu.setEntry_pageTable (s : Mmu) (x : Int) (e : PageTableEntry) :
    (s.setEntry x e).pageTable = Function.update s.pageTable x e := rfl
@[simp] theorem Mmu.setEntry_freeList (s : Mmu) (x : Int) (e : PageTableEntry) :
    (s.setEntry x e).freeList = s.freeList := rfl
@[simp] theorem Mmu.setEntry_pcb (s : Mmu) (x : Int) (e : PageTableEntry) :
    (s.setEntry x e).pcb = s.pcb := rfl

/-- `read_request`: the `id` and the page number the MMU sees. Its `struct msg` declares the
page number a `char`, so it takes the low byte of the sender's `int`, with its sign. On an
interrupted `msgrcv` (`none`) it returns `-1` and `id` keeps its initial `-1`. -/
def readRequest : Option Request → Int × Int
  | none => (-1, -1)
  | some r => (r.id, Int.bmod r.pageNumber 256)

/-! ## `free_pages` -/

/-- The body of the loop of `free_pages`. -/
def freePage (m : Nat) (id : Int) (s : Mmu) (i : Nat) : Mmu :=
  let x := id * m + i
  if (s.pageTable x).valid then
    { s with
      freeList :=
        { current := s.freeList.current + 1
          freelist := Function.update s.freeList.freelist (s.freeList.current + 1)
            (s.pageTable x).frameNumber }
      pageTable := Function.update s.pageTable x { s.pageTable x with valid := false } }
  else s

def freePages (m : Nat) (s : Mmu) (id : Int) : Mmu := (List.range m).foldl (freePage m id) s

/-- Freeing works on the free list and the page table only. -/
theorem freePages_frame (m : Nat) (s : Mmu) (id : Int) :
    ∃ fl pt, freePages m s id = { s with freeList := fl, pageTable := pt } := by
  refine List.foldlRecOn (motive := fun t => ∃ fl pt, t = { s with freeList := fl, pageTable := pt })
    _ _ ⟨s.freeList, s.pageTable, rfl⟩ ?_
  rintro t ⟨fl, pt, rfl⟩ i -
  unfold freePage
  simp only
  split
  · exact ⟨_, _, rfl⟩
  · exact ⟨fl, pt, rfl⟩

@[simp] theorem freePages_pcb (m : Nat) (s : Mmu) (id : Int) : (freePages m s id).pcb = s.pcb := by
  obtain ⟨fl, pt, h⟩ := freePages_frame m s id
  rw [h]

@[simp] theorem freePages_terminated (m : Nat) (s : Mmu) (id : Int) :
    (freePages m s id).terminated = s.terminated := by
  obtain ⟨fl, pt, h⟩ := freePages_frame m s id
  rw [h]

@[simp] theorem freePages_timeStamp (m : Nat) (s : Mmu) (id : Int) :
    (freePages m s id).timeStamp = s.timeStamp := by
  obtain ⟨fl, pt, h⟩ := freePages_frame m s id
  rw [h]

/-! ## `page_fault_handler` -/

/-- The variables of the victim search. -/
structure Victim where
  min : Int
  mini : Int
  frameNumber : Int

/-- The loop `for (i = 0; i < pcb_ptr[i].m; i++)`, whose bound, like the entries it tests, is
read at the loop index and not in row `id`, and which takes count and frame number from the
entry `target` of the requested page. Past the `pcb` array the bound is `0`, so `fuel` is the
number of entries left. -/
def victimLoop (s : Mmu) (target : Int) : Nat → Nat → Victim → Victim
  | 0, _, v => v
  | fuel + 1, i, v =>
      if (i : Int) < (s.pcbAt i).m then
        if (s.pageTable i).valid ∧ (s.pageTable target).count < v.min then
          victimLoop s target fuel (i + 1)
            ⟨(s.pageTable target).count, i, (s.pageTable target).frameNumber⟩
        else victimLoop s target fuel (i + 1) v
      else v

/-- The new structures and the frame for the page. -/
def pageFaultHandler (m : Nat) (s : Mmu) (id pageNumber : Int) : Mmu × Int :=
  if s.freeList.current = -1 ∨ (s.pcbAt id).frameCount ≤ (s.pcbAt id).frameAllocated then
    let v := victimLoop s (id * m + pageNumber) s.pcb.length 0 ⟨INT_MAX, -1, -1⟩
    let x := id * m + v.mini
    (s.setEntry x { s.pageTable x with valid := false }, v.frameNumber)
  else
    ({ s with freeList := { s.freeList with current := s.freeList.current - 1 } },
      s.freeList.freelist s.freeList.current)

/-! ## `serve_request` -/

/-- The illegal-page branch. -/
def serveInvalid (m : Nat) (s : Mmu) (id : Int) : Mmu × List Out :=
  let s := { s with
    invalidPageReferences :=
      Function.update s.invalidPageReferences id (s.invalidPageReferences id + 1) }
  (freePages m s id, [.reply id INVALID_PAGE_NUMBER, .notify .processTerm])

/-- The page-fault branch. -/
def servePageFault (m : Nat) (s : Mmu) (id pageNumber : Int) : Mmu × List Out :=
  let s := { s with pageFaults := Function.update s.pageFaults id (s.pageFaults id + 1) }
  let (s, frameNumber) := pageFaultHandler m s id pageNumber
  (s.setEntry (id * m + pageNumber) ⟨true, frameNumber, s.timeStamp⟩,
    [.reply id PAGE_FAULT, .notify .pageFaultHandled])

/-- The branch for a page in memory. -/
def serveHit (m : Nat) (s : Mmu) (id pageNumber : Int) : Mmu × List Out :=
  let x := id * m + pageNumber
  (s.setEntry x { s.pageTable x with count := s.timeStamp },
    [.reply id (s.pageTable x).frameNumber])

/-- `serve_request` past `read_request`, on what that delivered: the new structures, and the
messages in the order they are sent. -/
def serve (m : Nat) (s : Mmu) (id pageNumber : Int) : Mmu × List Out :=
  if pageNumber = -1 ∧ id = -1 then (s, [])
  else if pageNumber = PROCESS_DONE then
    let s := freePages m s id
    ({ s with terminated := s.terminated + 1 }, [.notify .processTerm])
  else
    let s := { s with timeStamp := s.timeStamp + 1 }
    if pageNumber < 0 ∨ (s.pcbAt id).m < pageNumber then serveInvalid m s id
    else if (s.pageTable (id * m + pageNumber)).valid = false then
      servePageFault m s id pageNumber
    else serveHit m s id pageNumber

def serveRequest (m : Nat) (s : Mmu) (r : Option Request) : Mmu × List Out :=
  serve m s (readRequest r).1 (readRequest r).2

/-! Which branch a delivered pair takes. -/

/-- `page_number < 0 || pcb_ptr[id].m < page_number` fails: the page is taken for legal. -/
def Accepted (s : Mmu) (id p : Int) : Prop := 0 ≤ p ∧ p ≤ (s.pcbAt id).m

/-- The page-fault branch. -/
def FaultsOn (m : Nat) (s : Mmu) (id p : Int) : Prop :=
  Accepted s id p ∧ (s.pageTable (id * m + p)).valid = false

instance (s : Mmu) (id p : Int) : Decidable (Accepted s id p) := inferInstanceAs (Decidable (_ ∧ _))

instance (m : Nat) (s : Mmu) (id p : Int) : Decidable (FaultsOn m s id p) :=
  inferInstanceAs (Decidable (_ ∧ _))

/-- The clock tick of a request that is not `PROCESS_DONE`. -/
def Mmu.tick (s : Mmu) : Mmu := { s with timeStamp := s.timeStamp + 1 }

@[simp] theorem Mmu.tick_pcb (s : Mmu) : s.tick.pcb = s.pcb := rfl
@[simp] theorem Mmu.tick_pcbAt (s : Mmu) (id : Int) : s.tick.pcbAt id = s.pcbAt id := rfl
@[simp] theorem Mmu.tick_pageTable (s : Mmu) : s.tick.pageTable = s.pageTable := rfl
@[simp] theorem Mmu.tick_freeList (s : Mmu) : s.tick.freeList = s.freeList := rfl

variable {m : Nat} {s : Mmu} {id p : Int}

theorem serve_done (m : Nat) (s : Mmu) (id : Int) :
    serve m s id PROCESS_DONE
      = ({ freePages m s id with terminated := (freePages m s id).terminated + 1 },
        [.notify .processTerm]) := by
  simp [serve, PROCESS_DONE]

theorem serve_invalid (hid : 0 ≤ id) (hp : p ≠ PROCESS_DONE) (hacc : ¬ Accepted s id p) :
    serve m s id p = serveInvalid m s.tick id := by
  have hinv : p < 0 ∨ (s.tick.pcbAt id).m < p := by
    simp only [Accepted, Mmu.tick_pcbAt] at hacc ⊢
    omega
  rw [serve, if_neg (by omega), if_neg hp]
  exact if_pos hinv

theorem serve_fault (h : FaultsOn m s id p) : serve m s id p = servePageFault m s.tick id p := by
  obtain ⟨⟨h0, hm⟩, hv⟩ := h
  have hinv : ¬ (p < 0 ∨ (s.tick.pcbAt id).m < p) := by
    rw [Mmu.tick_pcbAt]
    omega
  rw [serve, if_neg (by omega), if_neg (by rw [PROCESS_DONE]; omega)]
  exact (if_neg hinv).trans (if_pos hv)

theorem serve_hit (hacc : Accepted s id p) (hv : (s.pageTable (id * m + p)).valid = true) :
    serve m s id p = serveHit m s.tick id p := by
  obtain ⟨h0, hm⟩ := hacc
  have hinv : ¬ (p < 0 ∨ (s.tick.pcbAt id).m < p) := by
    rw [Mmu.tick_pcbAt]
    omega
  rw [serve, if_neg (by omega), if_neg (by rw [PROCESS_DONE]; omega)]
  exact (if_neg hinv).trans (if_neg (by simp [hv]))

/-- The four branches of a request from a process. -/
theorem serve_cases (m : Nat) (s : Mmu) {id : Int} (p : Int) (hid : 0 ≤ id) :
    p = PROCESS_DONE
      ∨ (p ≠ PROCESS_DONE ∧ ¬ Accepted s id p ∧ serve m s id p = serveInvalid m s.tick id)
      ∨ (FaultsOn m s id p ∧ serve m s id p = servePageFault m s.tick id p)
      ∨ (Accepted s id p ∧ (s.pageTable (id * m + p)).valid = true
        ∧ serve m s id p = serveHit m s.tick id p) := by
  by_cases hp : p = PROCESS_DONE
  · exact .inl hp
  by_cases hacc : Accepted s id p
  · by_cases hv : (s.pageTable (id * m + p)).valid = true
    · exact .inr (.inr (.inr ⟨hacc, hv, serve_hit hacc hv⟩))
    · have hf : FaultsOn m s id p := ⟨hacc, by simpa using hv⟩
      exact .inr (.inr (.inl ⟨hf, serve_fault hf⟩))
  · exact .inr (.inl ⟨hp, hacc, serve_invalid hid hp hacc⟩)

/-! ## What `master.c` builds -/

/-- `create_page_tables`, and zeros around the segment. -/
def createPageTables (k m : Nat) : Int → PageTableEntry := fun x =>
  if 0 ≤ x ∧ x < k * m then ⟨false, -1, 0⟩ else ⟨false, 0, 0⟩

def createFreeList (f : Nat) : FreeList where
  current := f - 1
  freelist := fun i => if 0 ≤ i ∧ i < f then i else 0

/-- The MMU at its start, on a `pcb` array. -/
def startMmu (k m f : Nat) (pcb : List Pcb) : Mmu where
  pcb := pcb
  pageTable := createPageTables k m
  freeList := createFreeList f
  timeStamp := 0
  terminated := 0
  pageFaults := fun _ => 0
  invalidPageReferences := fun _ => 0

/-- A `pcb` array `create_pcb` may leave for `k` processes: page counts in `1 … m`, and no
frame allocated. Its frame counts are those the caller asks for. -/
def PcbArray (k m : Nat) (pcb : List Pcb) : Prop :=
  pcb.length = k ∧ ∀ p ∈ pcb, 1 ≤ p.m ∧ p.m ≤ m ∧ p.frameAllocated = 0

/-- The MMU on its own: any sequence of requests from the `k` processes, in any order, and of
interrupted receives. Every process has at least one frame to its name. -/
def mmuMachine (k m f : Nat) : Machine Mmu (Option Request) where
  init s := ∃ pcb, PcbArray k m pcb ∧ (∀ p ∈ pcb, 1 ≤ p.frameCount) ∧ s = startMmu k m f pcb
  next s r := if ∀ q ∈ r, q.id < k then some (serveRequest m s r).1 else none

theorem mmuMachine_next {k m f : Nat} {s s' : Mmu} {r : Option Request}
    (h : (mmuMachine k m f).next s r = some s') :
    (∀ q ∈ r, q.id < k) ∧ s' = (serveRequest m s r).1 := by
  simp only [mmuMachine] at h
  split at h
  case isTrue hr => exact ⟨hr, (Option.some.inj h).symm⟩
  case isFalse => cases h

end OSLab.Paging
