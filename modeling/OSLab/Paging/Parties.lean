import OSLab.Paging.Mmu

set_option autoImplicit false

/-! # Processes, scheduler and MMU as message-passing parties

The main loops of `proc.c`, `sched.c` and `mmu.c` over the three queues `master.c` creates. A
`msgrcv` takes the oldest message of its type, so each queue is kept as one list for each type
that is received from it: the ready queue as the announcements to the scheduler (`FROM`) and
the dispatch messages to each process (`TO + id`), `msgq3` as the requests to the MMU and the
replies to each process, `msgq2`, which is read with type `0`, as one list. The queues are
never full.

One step is one send or one receive with the local work up to the next one. The MMU works out
its answer when it receives a request, since nobody else touches its structures, and then
sends the messages one at a time.

Three things are recorded that no party reads: the process whose request caused a notification
(`Note.cause`), the processes the scheduler has reported terminated, and the requests the MMU
has handled.
-/

namespace OSLab.Paging

/-- Where a process is in the `main` of `proc.c`. -/
inductive ProcPc
  | register                    -- before its announcement on the ready queue
  | awaitDispatch               -- waiting for `FROM + id` on the ready queue
  | request (count : Nat)       -- at the test of `while (count < total_pages)`
  | awaitReply (count : Nat)    -- waiting for the reply about `page_number[count]`
  | done                        -- past the loop, before the `PROCESS_DONE` message
  | exited
  deriving DecidableEq, Repr

/-- Where the scheduler is in the loop of `sched.c`; `left` is past its `break`. -/
inductive SchedPc
  | readReady
  | dispatch (id : Nat)
  | readNotice (id : Nat)
  | requeue (id : Nat)
  | left
  deriving DecidableEq, Repr

/-- The MMU is at its `msgrcv`, or has these messages left to send for a request. -/
inductive MmuPc
  | idle
  | serving (r : Request) (outs : List Out)
  deriving DecidableEq, Repr

/-- A message on `msgq2`. -/
structure Note where
  type : Notice
  cause : Nat
  deriving DecidableEq, Repr

structure Sys where
  proc : Nat → ProcPc
  readyFrom : List Nat
  readyTo : Nat → Nat
  msgq2 : List Note
  requests : List Request
  replies : Nat → List Int
  sched : SchedPc
  termCount : Nat
  reported : List Nat
  mmu : Mmu
  mmuPc : MmuPc
  handled : List Request

/-- Who moves. -/
inductive Party
  | proc (i : Nat)
  | sched
  | mmu
  deriving DecidableEq, Repr

/-! ## `proc.c` -/

/-- Where a process goes with a reply. -/
def afterReply (count : Nat) (frameNumber : Int) : ProcPc :=
  if frameNumber = PAGE_FAULT then .request count
  else if frameNumber = INVALID_PAGE_NUMBER then .done
  else .request (count + 1)

/-- One step of process `i`, whose reference string is `pages`. -/
def procNext (pages : List Int) (i : Nat) (s : Sys) : Option Sys :=
  match s.proc i with
  | .register => some { s with
      proc := Function.update s.proc i .awaitDispatch
      readyFrom := s.readyFrom ++ [i] }
  | .awaitDispatch =>
      if 0 < s.readyTo i then some { s with
        proc := Function.update s.proc i (.request 0)
        readyTo := Function.update s.readyTo i (s.readyTo i - 1) }
      else none
  | .request count =>
      match pages[count]? with
      | some page => some { s with
          proc := Function.update s.proc i (.awaitReply count)
          requests := s.requests ++ [⟨i, page⟩] }
      | none => some { s with proc := Function.update s.proc i .done }
  | .awaitReply count =>
      match s.replies i with
      | [] => none
      | x :: rest => some { s with
          proc := Function.update s.proc i (afterReply count x)
          replies := Function.update s.replies i rest }
  | .done => some { s with
      proc := Function.update s.proc i .exited
      requests := s.requests ++ [⟨i, PROCESS_DONE⟩] }
  | .exited => none

/-! ## `sched.c` -/

def schedNext (k : Nat) (s : Sys) : Option Sys :=
  match s.sched with
  | .readReady =>
      match s.readyFrom with
      | [] => none
      | id :: rest => some { s with readyFrom := rest, sched := .dispatch id }
  | .dispatch id => some { s with
      readyTo := Function.update s.readyTo id (s.readyTo id + 1)
      sched := .readNotice id }
  | .readNotice id =>
      match s.msgq2 with
      | [] => none
      | ⟨.pageFaultHandled, _⟩ :: rest => some { s with msgq2 := rest, sched := .requeue id }
      | ⟨.processTerm, _⟩ :: rest => some { s with
          msgq2 := rest
          termCount := s.termCount + 1
          reported := s.reported ++ [id]
          sched := if s.termCount + 1 = k then .left else .readReady }
  | .requeue id => some { s with readyFrom := s.readyFrom ++ [id], sched := .readReady }
  | .left => none

/-! ## `mmu.c` -/

/-- `send_reply` and `notify_scheduler`, on behalf of a request of `cause`. -/
def Sys.post (s : Sys) (cause : Nat) : Out → Sys
  | .reply id x => { s with
      replies := Function.update s.replies id.toNat (s.replies id.toNat ++ [x]) }
  | .notify type => { s with msgq2 := s.msgq2 ++ [⟨type, cause⟩] }

/-- The request is handled: back to `while (terminated < k)`. -/
def Sys.finish (s : Sys) (r : Request) : Sys :=
  { s with mmuPc := .idle, handled := s.handled ++ [r] }

/-- `read_request` delivers `r`, and `serve_request` works out what to send. -/
def Sys.receive (m : Nat) (s : Sys) (r : Request) (rest : List Request) : Sys :=
  { s with
    requests := rest
    mmu := (serveRequest m s.mmu (some r)).1
    mmuPc := .serving r (serveRequest m s.mmu (some r)).2 }

def mmuNext (k m : Nat) (s : Sys) : Option Sys :=
  match s.mmuPc with
  | .idle =>
      if s.mmu.terminated < k then
        match s.requests with
        | [] => none
        | r :: rest => some (s.receive m r rest)
      else none
  | .serving r [] => some (s.finish r)
  | .serving r [o] => some ((s.post r.id o).finish r)
  | .serving r (o :: o' :: outs) =>
      some { s.post r.id o with mmuPc := .serving r (o' :: outs) }

/-! ## The system -/

/-- All queues empty, everybody at the start. -/
def startSys (k m f : Nat) (pcb : List Pcb) : Sys where
  proc := fun _ => .register
  readyFrom := []
  readyTo := fun _ => 0
  msgq2 := []
  requests := []
  replies := fun _ => []
  sched := .readReady
  termCount := 0
  reported := []
  mmu := startMmu k m f pcb
  mmuPc := .idle
  handled := []

/-- `k` processes with the reference strings `refs`, the scheduler and the MMU. -/
def pagingMachine (k m f : Nat) (refs : Nat → List Int) : Machine Sys Party where
  init s := ∃ pcb, PcbArray k m pcb ∧ s = startSys k m f pcb
  next s
    | .proc i => if i < k then procNext (refs i) i s else none
    | .sched => schedNext k s
    | .mmu => mmuNext k m s

/-! ## What a step is

One constructor for each send, receive and local step of the three loops. -/

/-- The ways process `i` can move, and where to. -/
inductive ProcMove (pages : List Int) (i : Nat) (s : Sys) : Sys → Prop
  | register : s.proc i = .register → ProcMove pages i s { s with
      proc := Function.update s.proc i .awaitDispatch
      readyFrom := s.readyFrom ++ [i] }
  | dispatched : s.proc i = .awaitDispatch → 0 < s.readyTo i → ProcMove pages i s { s with
      proc := Function.update s.proc i (.request 0)
      readyTo := Function.update s.readyTo i (s.readyTo i - 1) }
  | ask (count : Nat) (page : Int) : s.proc i = .request count → pages[count]? = some page →
      ProcMove pages i s { s with
        proc := Function.update s.proc i (.awaitReply count)
        requests := s.requests ++ [⟨i, page⟩] }
  | leave (count : Nat) : s.proc i = .request count → pages[count]? = none →
      ProcMove pages i s { s with proc := Function.update s.proc i .done }
  | answered (count : Nat) (x : Int) (rest : List Int) : s.proc i = .awaitReply count →
      s.replies i = x :: rest → ProcMove pages i s { s with
        proc := Function.update s.proc i (afterReply count x)
        replies := Function.update s.replies i rest }
  | exit : s.proc i = .done → ProcMove pages i s { s with
      proc := Function.update s.proc i .exited
      requests := s.requests ++ [⟨i, PROCESS_DONE⟩] }

/-- The ways the scheduler can move. -/
inductive SchedMove (k : Nat) (s : Sys) : Sys → Prop
  | readReady (id : Nat) (rest : List Nat) : s.sched = .readReady → s.readyFrom = id :: rest →
      SchedMove k s { s with readyFrom := rest, sched := .dispatch id }
  | dispatch (id : Nat) : s.sched = .dispatch id → SchedMove k s { s with
      readyTo := Function.update s.readyTo id (s.readyTo id + 1)
      sched := .readNotice id }
  | faultHandled (id cause : Nat) (rest : List Note) : s.sched = .readNotice id →
      s.msgq2 = ⟨.pageFaultHandled, cause⟩ :: rest →
      SchedMove k s { s with msgq2 := rest, sched := .requeue id }
  | terminated (id cause : Nat) (rest : List Note) : s.sched = .readNotice id →
      s.msgq2 = ⟨.processTerm, cause⟩ :: rest → SchedMove k s { s with
        msgq2 := rest
        termCount := s.termCount + 1
        reported := s.reported ++ [id]
        sched := if s.termCount + 1 = k then .left else .readReady }
  | requeue (id : Nat) : s.sched = .requeue id →
      SchedMove k s { s with readyFrom := s.readyFrom ++ [id], sched := .readReady }

/-- The ways the MMU can move. -/
inductive MmuMove (k m : Nat) (s : Sys) : Sys → Prop
  | receive (r : Request) (rest : List Request) : s.mmuPc = .idle → s.mmu.terminated < k →
      s.requests = r :: rest → MmuMove k m s (s.receive m r rest)
  | silent (r : Request) : s.mmuPc = .serving r [] → MmuMove k m s (s.finish r)
  | last (r : Request) (o : Out) : s.mmuPc = .serving r [o] →
      MmuMove k m s ((s.post r.id o).finish r)
  | send (r : Request) (o o' : Out) (outs : List Out) : s.mmuPc = .serving r (o :: o' :: outs) →
      MmuMove k m s { s.post r.id o with mmuPc := .serving r (o' :: outs) }

variable {k m f : Nat} {refs : Nat → List Int} {s s' : Sys} {i : Nat}

theorem procMove_of_next {pages : List Int} (h : procNext pages i s = some s') :
    ProcMove pages i s s' := by
  unfold procNext at h
  split at h
  · obtain rfl := Option.some.inj h
    exact .register ‹_›
  · split at h
    · obtain rfl := Option.some.inj h
      exact .dispatched ‹_› ‹_›
    · cases h
  · split at h
    · obtain rfl := Option.some.inj h
      exact .ask _ _ ‹_› ‹_›
    · obtain rfl := Option.some.inj h
      exact .leave _ ‹_› ‹_›
  · split at h
    · cases h
    · obtain rfl := Option.some.inj h
      exact .answered _ _ _ ‹_› ‹_›
  · obtain rfl := Option.some.inj h
    exact .exit ‹_›
  · cases h

theorem schedMove_of_next (h : schedNext k s = some s') : SchedMove k s s' := by
  unfold schedNext at h
  split at h
  · split at h
    · cases h
    · obtain rfl := Option.some.inj h
      exact .readReady _ _ ‹_› ‹_›
  · obtain rfl := Option.some.inj h
    exact .dispatch _ ‹_›
  · split at h
    · cases h
    · obtain rfl := Option.some.inj h
      exact .faultHandled _ _ _ ‹_› ‹_›
    · obtain rfl := Option.some.inj h
      exact .terminated _ _ _ ‹_› ‹_›
  · obtain rfl := Option.some.inj h
    exact .requeue _ ‹_›
  · cases h

theorem mmuMove_of_next (h : mmuNext k m s = some s') : MmuMove k m s s' := by
  unfold mmuNext at h
  split at h
  · split at h
    · split at h
      · cases h
      · obtain rfl := Option.some.inj h
        exact .receive _ _ ‹_› ‹_› ‹_›
    · cases h
  · obtain rfl := Option.some.inj h
    exact .silent _ ‹_›
  · obtain rfl := Option.some.inj h
    exact .last _ _ ‹_›
  · obtain rfl := Option.some.inj h
    exact .send _ _ _ _ ‹_›

/-- **The steps of the system.** -/
theorem pagingMachine_cases {a : Party} (h : (pagingMachine k m f refs).next s a = some s') :
    (∃ i < k, a = .proc i ∧ ProcMove (refs i) i s s') ∨ (a = .sched ∧ SchedMove k s s')
      ∨ (a = .mmu ∧ MmuMove k m s s') := by
  cases a with
  | proc i =>
      simp only [pagingMachine] at h
      split at h
      · exact .inl ⟨i, ‹_›, rfl, procMove_of_next h⟩
      · cases h
  | sched => exact .inr (.inl ⟨rfl, schedMove_of_next h⟩)
  | mmu => exact .inr (.inr ⟨rfl, mmuMove_of_next h⟩)

/-! ## What the MMU answers -/

/-- The page number as the MMU sees it. -/
def Request.page (r : Request) : Int := (readRequest (some r)).2

/-- A page number that fits the `char` arrives as it is. -/
theorem page_eq (id : Nat) {page : Int} (h : 0 ≤ page ∧ page < 128) :
    (⟨id, page⟩ : Request).page = page := by
  show Int.bmod page 256 = page
  apply Int.bmod_eq_of_le_mul_two
  · omega
  · omega

/-- The MMU takes the request for a `PROCESS_DONE`. -/
def Request.IsDone (r : Request) : Prop := r.page = PROCESS_DONE

instance (r : Request) : Decidable r.IsDone := inferInstanceAs (Decidable (_ = _))

/-- The four answers: to a `PROCESS_DONE`, to an illegal page, to a fault and to a page in
memory. The two in the middle are a reply and a notification. -/
theorem serveRequest_outs (m : Nat) (s : Mmu) (r : Request) :
    (r.IsDone ∧ (serveRequest m s (some r)).2 = [.notify .processTerm])
      ∨ (¬ r.IsDone ∧ ¬ Accepted s r.id r.page ∧ (serveRequest m s (some r)).2
          = [.reply r.id INVALID_PAGE_NUMBER, .notify .processTerm])
      ∨ (¬ r.IsDone ∧ FaultsOn m s r.id r.page ∧ (serveRequest m s (some r)).2
          = [.reply r.id PAGE_FAULT, .notify .pageFaultHandled])
      ∨ (¬ r.IsDone ∧ Accepted s r.id r.page ∧ ¬ FaultsOn m s r.id r.page
          ∧ ∃ x, (serveRequest m s (some r)).2 = [.reply r.id x]) := by
  have hpos : ∀ {p}, Accepted s r.id p → p ≠ PROCESS_DONE := by
    intro p hp hc
    have := hp.1
    rw [hc, PROCESS_DONE] at this
    omega
  have hserve : serveRequest m s (some r) = serve m s r.id r.page := rfl
  rw [hserve]
  unfold Request.IsDone
  rcases serve_cases m s r.page (Int.natCast_nonneg r.id) with
    hd | ⟨hd, hacc, hs⟩ | ⟨hf, hs⟩ | ⟨hacc, hv, hs⟩
  · exact .inl ⟨hd, by rw [hd, serve_done]⟩
  · exact .inr (.inl ⟨hd, hacc, by rw [hs]; rfl⟩)
  · exact .inr (.inr (.inl ⟨hpos hf.1, hf, by rw [hs]; rfl⟩))
  · refine .inr (.inr (.inr ⟨hpos hacc, hacc, fun hf => ?_, _, by rw [hs]; rfl⟩))
    simp [hf.2] at hv

end OSLab.Paging
