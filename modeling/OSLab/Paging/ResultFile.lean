import OSLab.Paging.Residence

set_option autoImplicit false

/-! # The result file

`serve_request` writes a line to `result.txt` for each reference, with the time stamp, and one more for an
illegal page or a page fault; before that a line with the process, where it is not the one of the request
before (`prev`). At the end `main` writes the two counters of each process. The lines do not enter
the state of the MMU, so they are kept as a record beside it. In every run, whatever the references, the
record goes with the counters (`ResultFile`).
-/

namespace OSLab.Paging

variable {k m f : Nat} {refs : Nat → List Int} {s s' : Sys} {t : Mmu} {r : Request} {i : Nat}

/-! ## Writing -/

/-- The lines of `result.txt`, by what is printed into their formats. -/
inductive ResultLine
  | request (id : Int)                                -- MMU: Request => Process ID: %d
  | reference (timeStamp id pageNumber : Int)         -- Page Reference : ( %d, %d, %d )
  | invalid (id pageNumber : Int)                     -- INVALID Page Reference : ( %d, %d )
  | pageFault (id pageNumber : Int)                   -- PAGE FAULT     : ( %d, %d )
  deriving DecidableEq, Repr

/-- The file so far, and `prev`. -/
structure Result where
  prev : Int
  lines : List ResultLine

def Result.write (R : Result) (line : ResultLine) : Result := { R with lines := R.lines ++ [line] }

/-- The first lines of `serve_request`. -/
def Result.heading (R : Result) (id : Int) : Result :=
  if id ≠ R.prev then { R.write (.request id) with prev := id } else R

/-- What `serve_request` writes, past `read_request`. -/
def writeLines (s : Mmu) (m : Nat) (R : Result) (id pageNumber : Int) : Result :=
  let R := R.heading id
  if pageNumber = -1 ∧ id = -1 then R
  else if pageNumber = PROCESS_DONE then R
  else
    let s := { s with timeStamp := s.timeStamp + 1 }
    let R := R.write (.reference s.timeStamp id pageNumber)
    if pageNumber < 0 ∨ (s.pcbAt id).m < pageNumber then R.write (.invalid id pageNumber)
    else if (s.pageTable (id * m + pageNumber)).valid = false then R.write (.pageFault id pageNumber)
    else R

/-- A step of the MMU that receives a request writes its lines. -/
def recordLines (m : Nat) (s : Sys) (a : Party) (R : Result) : Result :=
  match a, s.mmuPc, s.requests with
  | .mmu, .idle, r :: _ => writeLines s.mmu m R (readRequest (some r)).1 (readRequest (some r)).2
  | _, _, _ => R

/-- The system with the file. -/
def reportedMachine (k m f : Nat) (refs : Nat → List Int) : Machine (Sys × Result) Party :=
  (pagingMachine k m f refs).withHistory ⟨-1, []⟩ (recordLines m)

/-! ## What the file says -/

def ResultLine.isReferenceOf (i : Nat) : ResultLine → Bool
  | .reference _ id _ => id = i
  | _ => false

def ResultLine.isInvalidOf (i : Nat) : ResultLine → Bool
  | .invalid id _ => id = i
  | _ => false

def ResultLine.isPageFaultOf (i : Nat) : ResultLine → Bool
  | .pageFault id _ => id = i
  | _ => false

def ResultLine.stamp : ResultLine → Option Int
  | .reference timeStamp _ _ => some timeStamp
  | _ => none

/-- The process of a line. -/
def ResultLine.id : ResultLine → Int
  | .request id => id
  | .reference _ id _ => id
  | .invalid id _ => id
  | .pageFault id _ => id

/-- Each line stands below the last `request` line of its process, where `prev` is the process before. -/
def headed (prev : Int) : List ResultLine → Bool
  | [] => true
  | .request id :: lines => id ≠ prev && headed id lines
  | line :: lines => line.id = prev && headed prev lines

/-- **The file goes with the run**: the time stamps are `1, 2, 3, …` in this order, the counters are the
numbers of lines, and each line stands below its process. -/
structure ResultFile (s : Sys) (R : Result) : Prop where
  stamps : ∃ n : Nat, s.mmu.timeStamp = n
    ∧ R.lines.filterMap ResultLine.stamp = (List.range n).map fun j : Nat => (j : Int) + 1
  references : ∀ i, R.lines.countP (ResultLine.isReferenceOf i) = s.served i
  invalid : ∀ i : Nat, R.lines.countP (ResultLine.isInvalidOf i) = s.mmu.invalidPageReferences i
  pageFaults : ∀ i : Nat, R.lines.countP (ResultLine.isPageFaultOf i) = s.mmu.pageFaults i
  headed : headed (-1) R.lines = true

/-! ## One request -/

/-- The lines about a request, below the one of its process. -/
def linesOf (m : Nat) (t : Mmu) (r : Request) : List ResultLine :=
  if r.IsDone then []
  else .reference (t.timeStamp + 1) r.id r.page :: (
    if ¬ Accepted t r.id r.page then [.invalid r.id r.page]
    else if FaultsOn m t r.id r.page then [.pageFault r.id r.page] else [])

theorem heading_prev (R : Result) (id : Int) : (R.heading id).prev = id := by
  unfold Result.heading
  split
  case isTrue => rfl
  case isFalse h => exact (not_not.mp h).symm

theorem writeLines_eq (t : Mmu) (m : Nat) (R : Result) (r : Request) :
    writeLines t m R r.id r.page
      = ⟨r.id, (R.heading r.id).lines ++ linesOf m t r⟩ := by
  have hprev := heading_prev R r.id
  unfold writeLines linesOf
  simp only
  generalize R.heading r.id = R' at hprev ⊢
  obtain ⟨prev, lines⟩ := R'
  obtain rfl : prev = r.id := hprev
  rw [if_neg (by omega)]
  by_cases hd : r.page = PROCESS_DONE
  · have hdone : r.IsDone := hd
    rw [if_pos hd, if_pos hdone, List.append_nil]
  · have hdone : ¬ r.IsDone := hd
    rw [if_neg hd, if_neg hdone]
    by_cases hacc : Accepted t r.id r.page
    · have hin : ¬ (r.page < 0 ∨ (t.pcbAt r.id).m < r.page) := by
        have := hacc.1
        have := hacc.2
        omega
      have hin' : ¬ (r.page < 0
          ∨ (Mmu.pcbAt { t with timeStamp := t.timeStamp + 1 } r.id).m < r.page) := hin
      rw [if_neg hin', if_neg (not_not.mpr hacc)]
      by_cases hv : (t.pageTable (r.id * m + r.page)).valid = false
      · rw [if_pos hv, if_pos ⟨hacc, hv⟩]
        simp [Result.write]
      · rw [if_neg hv, if_neg (fun hf => hv hf.2)]
        simp [Result.write]
    · have hout : r.page < 0
          ∨ (Mmu.pcbAt { t with timeStamp := t.timeStamp + 1 } r.id).m < r.page := by
        have heq : Mmu.pcbAt { t with timeStamp := t.timeStamp + 1 } r.id = t.pcbAt r.id := rfl
        rw [heq]
        unfold Accepted at hacc
        omega
      rw [if_pos hout, if_pos hacc]
      simp [Result.write]

/-- The heading adds nothing to what is counted. -/
theorem heading_countP (R : Result) (id : Int) {p : ResultLine → Bool} (hp : p (.request id) = false) :
    (R.heading id).lines.countP p = R.lines.countP p := by
  unfold Result.heading
  split
  · simp [Result.write, hp]
  · rfl

/-- What the lines about a request are. -/
theorem linesOf_counts (m : Nat) (t : Mmu) (r : Request) (i : Nat) :
    ((linesOf m t r).countP (ResultLine.isReferenceOf i)
        = if r.id = i ∧ ¬ r.IsDone then 1 else 0)
      ∧ ((linesOf m t r).countP (ResultLine.isInvalidOf i)
        = if (i : Int) = r.id ∧ ¬ r.IsDone ∧ ¬ Accepted t r.id r.page then 1 else 0)
      ∧ ((linesOf m t r).countP (ResultLine.isPageFaultOf i)
        = if (i : Int) = r.id ∧ FaultsOn m t r.id r.page then 1 else 0)
      ∧ (linesOf m t r).filterMap ResultLine.stamp
        = if r.IsDone then [] else [t.timeStamp + 1] := by
  have hcomm : (i : Int) = r.id ↔ r.id = i := by omega
  unfold linesOf
  by_cases hd : r.IsDone
  · have hf : ¬ FaultsOn m t r.id r.page := fun hf => not_accepted_of_isDone hd hf.1
    simp [hd, hf]
  · by_cases hacc : Accepted t r.id r.page
    · by_cases hf : FaultsOn m t r.id r.page
      · simp [hd, hacc, hf, hcomm, ResultLine.isReferenceOf, ResultLine.isInvalidOf,
          ResultLine.isPageFaultOf, ResultLine.stamp, List.countP_cons]
      · simp [hd, hacc, hf, ResultLine.isReferenceOf, ResultLine.isInvalidOf,
          ResultLine.isPageFaultOf, ResultLine.stamp]
    · have hf : ¬ FaultsOn m t r.id r.page := fun hf => hacc hf.1
      simp [hd, hacc, hf, hcomm, ResultLine.isReferenceOf, ResultLine.isInvalidOf,
        ResultLine.isPageFaultOf, ResultLine.stamp, List.countP_cons]

/-! ## The headings -/

/-- The process of the last line. -/
def lastId (prev : Int) : List ResultLine → Int
  | [] => prev
  | line :: lines => lastId line.id lines

theorem headed_append (prev : Int) (l l' : List ResultLine) :
    headed prev (l ++ l') = (headed prev l && headed (lastId prev l) l') := by
  induction l generalizing prev with
  | nil => simp [headed, lastId]
  | cons line l ih =>
      cases line with
      | request id => simp only [List.cons_append, headed, lastId, ResultLine.id, ih, Bool.and_assoc]
      | reference _ id _ | invalid id _ | pageFault id _ =>
          by_cases hid : id = prev
          · simp [headed, lastId, ResultLine.id, ih, hid]
          · simp [headed, ResultLine.id, hid]

theorem lastId_append (prev : Int) (l l' : List ResultLine) :
    lastId prev (l ++ l') = lastId (lastId prev l) l' := by
  induction l generalizing prev with
  | nil => rfl
  | cons line l ih => exact ih line.id

/-- The lines about a request are lines of its process. -/
theorem headed_linesOf (m : Nat) (t : Mmu) (r : Request) :
    headed r.id (linesOf m t r) = true ∧ lastId r.id (linesOf m t r) = r.id := by
  unfold linesOf
  split_ifs <;> simp [headed, lastId, ResultLine.id]

/-- The file is headed, and `prev` is the process of its last line. -/
def Headed (R : Result) : Prop := headed (-1) R.lines = true ∧ lastId (-1) R.lines = R.prev

theorem headed_heading {R : Result} (h : Headed R) (id : Int) : Headed (R.heading id) := by
  unfold Result.heading
  split
  case isTrue hid =>
    constructor
    · simp only [Result.write]
      rw [headed_append, h.1, h.2]
      simpa [headed] using hid
    · simp only [Result.write]
      rw [lastId_append]
      rfl
  case isFalse => exact h

theorem headed_writeLines {R : Result} (h : Headed R) (t : Mmu) (m : Nat) (r : Request) :
    Headed (writeLines t m R r.id r.page) := by
  have hheading := headed_heading h r.id
  have hprev := heading_prev R r.id
  obtain ⟨hlines, hlast⟩ := headed_linesOf m t r
  rw [writeLines_eq]
  constructor
  · simp only
    rw [headed_append, hheading.1, hheading.2, hprev, hlines]
    rfl
  · simp only
    rw [lastId_append, hheading.2, hprev, hlast]

/-! ## A run -/

theorem resultFile_receive {R : Result} {rest : List Request} (h : ResultFile s R) (hR : Headed R)
    (hidle : s.mmuPc = .idle) :
    ResultFile (s.receive m r rest) (writeLines s.mmu m R r.id r.page) := by
  obtain ⟨hfaults, hinvalid, htime⟩ := serveRequest_counters m s.mmu r
  have hmmu : (s.receive m r rest).mmu = (serveRequest m s.mmu (some r)).1 := rfl
  have hserved : ∀ i, (s.receive m r rest).served i
      = s.served i + if r.id = i ∧ ¬ r.IsDone then 1 else 0 := by
    intro i
    simp [Sys.served, Sys.receive, hidle]
  constructor
  case stamps =>
    obtain ⟨n, hn, hstamps⟩ := h.stamps
    have hhead : (R.heading r.id).lines.filterMap ResultLine.stamp
        = R.lines.filterMap ResultLine.stamp := by
      unfold Result.heading
      split
      · simp [Result.write, ResultLine.stamp]
      · rfl
    rw [writeLines_eq, hmmu, htime, hn]
    simp only [List.filterMap_append, hhead, hstamps, (linesOf_counts m s.mmu r 0).2.2.2]
    by_cases hd : r.IsDone
    · exact ⟨n, by simp [hd], by simp [hd]⟩
    · refine ⟨n + 1, by simp [hd], ?_⟩
      simp [hd, hn, List.range_succ]
  case references =>
    intro i
    rw [writeLines_eq, hserved, List.countP_append, heading_countP _ _ rfl,
      (linesOf_counts m s.mmu r i).1, h.references i]
  case invalid =>
    intro i
    rw [writeLines_eq, hmmu, hinvalid, List.countP_append, heading_countP _ _ rfl,
      (linesOf_counts m s.mmu r i).2.1, h.invalid i]
  case pageFaults =>
    intro i
    rw [writeLines_eq, hmmu, hfaults, List.countP_append, heading_countP _ _ rfl,
      (linesOf_counts m s.mmu r i).2.2.1, h.pageFaults i]
  case headed => exact (headed_writeLines hR s.mmu m r).1

theorem ResultFile.same {R : Result} (h : ResultFile s R) (hmmu : s'.mmu = s.mmu)
    (hserved : ∀ i, s'.served i = s.served i) : ResultFile s' R where
  stamps := by
    rw [hmmu]
    exact h.stamps
  references i := (h.references i).trans (hserved i).symm
  invalid i := by
    rw [hmmu]
    exact h.invalid i
  pageFaults i := by
    rw [hmmu]
    exact h.pageFaults i
  headed := h.headed

theorem resultFile_next {a : Party} {R : Result} (hc : Calls k s) (h : ResultFile s R) (hR : Headed R)
    (hs : (pagingMachine k m f refs).next s a = some s') :
    ResultFile s' (recordLines m s a R) ∧ Headed (recordLines m s a R) := by
  rcases pagingMachine_cases hs with ⟨j, -, rfl, hm⟩ | ⟨rfl, hm⟩ | ⟨rfl, hm⟩
  · refine ⟨h.same (procMove_mmu hm) fun i => ?_, hR⟩
    cases hm <;> rfl
  · refine ⟨h.same ?_ fun i => ?_, hR⟩
    · cases hm <;> rfl
    · cases hm <;> rfl
  · by_cases hidle : s.mmuPc = .idle
    · cases hm with
      | receive r rest _ _ hreq =>
          have hrecord : recordLines m s .mmu R = writeLines s.mmu m R r.id r.page := by
            unfold recordLines
            rw [hidle, hreq]
            rfl
          rw [hrecord]
          exact ⟨resultFile_receive h hR hidle, headed_writeLines hR s.mmu m r⟩
      | silent _ hpc | last _ _ hpc | send _ _ _ _ hpc =>
          rw [hidle] at hpc
          cases hpc
    · have hrecord : recordLines m s .mmu R = R := by
        unfold recordLines
        split
        · exact absurd ‹_› hidle
        · rfl
      rw [hrecord]
      have hsame : ∀ i, SamePages i s s' := fun i =>
        (samePages_mmuMove hc i hm).resolve_right fun ⟨_, _, hpc, _⟩ => hidle hpc
      exact ⟨h.same (hsame 0).session.mmu fun i => (hsame i).served, hR⟩

/-- The two counters that `main` prints for each process. -/
def resultTable (k : Nat) (t : Mmu) : List (Nat × Nat × Nat) :=
  (List.range k).map fun i => (i, t.pageFaults i, t.invalidPageReferences i)

/-- **The result file goes with every run**, and the table at its end counts its lines. -/
theorem result_file {t : Sys × Result} (h : (reportedMachine k m f refs).Reachable t) :
    ResultFile t.1 t.2 ∧ resultTable k t.1.mmu = (List.range k).map fun i =>
      (i, t.2.lines.countP (ResultLine.isPageFaultOf i),
        t.2.lines.countP (ResultLine.isInvalidOf i)) := by
  have hcalls : ∀ t, (reportedMachine k m f refs).Reachable t → Calls k t.1 := fun t ht =>
    calls_reachable (Machine.ReachableWhen.of_withHistory ht)
  have hfile : ResultFile t.1 t.2 ∧ Headed t.2 := by
    refine h.invariant_of hcalls (I := fun t => ResultFile t.1 t.2 ∧ Headed t.2) ?_ ?_
    · rintro ⟨s, R⟩ ⟨⟨pcb, -, rfl⟩, rfl⟩
      exact ⟨⟨⟨0, rfl, rfl⟩, fun _ => rfl, fun _ => rfl, fun _ => rfl, rfl⟩, rfl, rfl⟩
    · rintro t a t' hc ⟨hI, hR⟩ - hs
      obtain ⟨hnext, hrecord⟩ := Machine.withHistory_next hs
      rw [hrecord]
      exact resultFile_next hc hI hR hnext
  refine ⟨hfile.1, List.map_congr_left fun i _ => ?_⟩
  rw [hfile.1.pageFaults i, hfile.1.invalid i]

/-- A fault, the page again, and an illegal page. -/
theorem result_file_run : ∃ t, (reportedMachine 1 1 1 (fun _ => [0, 5])).Reachable t
    ∧ t.2.lines = [.request 0, .reference 1 0 0, .pageFault 0 0, .reference 2 0 0, .reference 3 0 5,
      .invalid 0 5]
    ∧ ResultFile t.1 t.2 := by
  obtain ⟨t, ht, hp⟩ := Machine.exists_reachable_of_exec
    (M := reportedMachine 1 1 1 (fun _ => [0, 5])) (s := (startSys 1 1 1 [⟨1, 1, 0⟩], ⟨-1, []⟩))
    (l := [.proc 0, .sched, .sched, .proc 0, .proc 0, .mmu, .mmu, .mmu, .proc 0, .proc 0, .mmu, .mmu,
      .proc 0, .proc 0, .mmu])
    (p := fun t => decide (t.2.lines = [.request 0, .reference 1 0 0, .pageFault 0 0, .reference 2 0 0,
      .reference 3 0 5, .invalid 0 5]))
    ⟨⟨_, ⟨rfl, by simp⟩, rfl⟩, rfl⟩ (by decide +kernel)
  exact ⟨t, ht, of_decide_eq_true hp, (result_file ht).1⟩

end OSLab.Paging
