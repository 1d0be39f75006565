import OSLab.Paging.Parties

set_option autoImplicit false

/-! # When the scheduler leaves its loop

The scheduler counts `PROCESS_TERM` notifications and leaves at the `k`-th. The MMU sends one
for a `PROCESS_DONE`, and one for an illegal page, after which the process still sends its
`PROCESS_DONE`. So a process with an illegal page is counted twice, and the scheduler can leave
before the MMU has handled every `PROCESS_DONE` (`left_before_done`).

In the runs without an illegal page, and without a page the MMU misreads as a `PROCESS_DONE`, the
count is right (`left_when_all_done`). The
notifications are then as many as the `PROCESS_DONE`s handled (`Tally`), and no process has two
handled: it sends a message only when the last one is answered, and a `PROCESS_DONE` has no
answer. The second part holds in every run and is the invariant `Calls`: the calls of a process
that it has not got past, wherever they are between its `msgsnd` and its `msgrcv`, are at most
one, and none where it can send.
-/

namespace OSLab.Paging

variable {k m f : Nat} {refs : Nat → List Int} {s s' : Sys} {i : Nat}

/-! ## One call at a time -/

/-- An answer to process `i`. -/
def Out.isReplyTo (i : Nat) : Out → Bool
  | .reply id _ => id = i
  | .notify _ => false

/-- The calls of process `i` the MMU is working on. -/
def MmuPc.owes (i : Nat) : MmuPc → Nat
  | .idle => 0
  | .serving r outs =>
      if r.IsDone then if r.id = i then 1 else 0 else outs.countP (Out.isReplyTo i)

/-- The `PROCESS_DONE`s of process `i` that the MMU has handled. -/
def Sys.handledDone (s : Sys) (i : Nat) : Nat := s.handled.countP fun r => r.id = i ∧ r.IsDone

/-- The calls of process `i` it has not got past: queued, being served, answered but not
received, or never to be answered. -/
def Sys.openCalls (s : Sys) (i : Nat) : Nat :=
  s.requests.countP (fun r => r.id = i) + s.mmuPc.owes i + (s.replies i).length + s.handledDone i

/-- The process waits for an answer, or waits for nothing any more. -/
def ProcPc.Waits : ProcPc → Prop
  | .awaitReply _ => True
  | .exited => True
  | _ => False

/-- What the MMU has left to send for a request. -/
def WellServed (r : Request) (outs : List Out) : Prop :=
  (r.IsDone → outs = [.notify .processTerm]) ∧ ∀ id x, Out.reply id x ∈ outs → id = r.id

/-- **One call at a time.** -/
structure Calls (k : Nat) (s : Sys) : Prop where
  atMostOne : ∀ i, s.openCalls i ≤ 1
  getPast : ∀ i, ¬ (s.proc i).Waits → s.openCalls i = 0
  outside : ∀ i, k ≤ i → s.proc i = .register
  serving : ∀ r outs, s.mmuPc = .serving r outs → WellServed r outs

theorem not_waits_afterReply (count : Nat) (x : Int) : ¬ (afterReply count x).Waits := by
  unfold afterReply
  split_ifs <;> simp [ProcPc.Waits]

theorem calls_start (pcb : List Pcb) : Calls k (startSys k m f pcb) where
  atMostOne := by intro i; simp [Sys.openCalls, Sys.handledDone, startSys, MmuPc.owes]
  getPast := by intro i _; simp [Sys.openCalls, Sys.handledDone, startSys, MmuPc.owes]
  outside := by intro i _; rfl
  serving := by intro r outs h; cases h

/-! A step of process `i` leaves the calls of the others alone. -/

theorem Calls.of_proc {pc : ProcPc} (h : Calls k s) (hi : i < k)
    (hproc : s'.proc = Function.update s.proc i pc) (hmmu : s'.mmuPc = s.mmuPc)
    (hother : ∀ j, j ≠ i → s'.openCalls j = s.openCalls j)
    (hle : s'.openCalls i ≤ 1) (hpast : ¬ pc.Waits → s'.openCalls i = 0) : Calls k s' where
  atMostOne := by
    intro j
    by_cases hj : j = i
    · exact hj ▸ hle
    · exact hother j hj ▸ h.atMostOne j
  getPast := by
    intro j hw
    by_cases hj : j = i
    · subst hj
      rw [hproc, Function.update_self] at hw
      exact hpast hw
    · rw [hproc, Function.update_of_ne hj] at hw
      exact hother j hj ▸ h.getPast j hw
  outside := by
    intro j hj
    rw [hproc, Function.update_of_ne (by omega)]
    exact h.outside j hj
  serving := by
    intro r outs hs
    exact h.serving r outs (hmmu ▸ hs)

theorem calls_procMove {pages : List Int} (h : Calls k s) (hi : i < k)
    (hm : ProcMove pages i s s') : Calls k s' := by
  cases hm with
  | register hpc =>
      have h0 := h.getPast i (by rw [hpc]; exact id)
      exact h.of_proc hi rfl rfl (fun j _ => rfl) (h0.trans_le (by omega)) (fun _ => h0)
  | dispatched hpc _ =>
      have h0 := h.getPast i (by rw [hpc]; exact id)
      exact h.of_proc hi rfl rfl (fun j _ => rfl) (h0.trans_le (by omega)) (fun _ => h0)
  | leave count hpc _ =>
      have h0 := h.getPast i (by rw [hpc]; exact id)
      exact h.of_proc hi rfl rfl (fun j _ => rfl) (h0.trans_le (by omega)) (fun _ => h0)
  | ask count page hpc _ =>
      have h0 := h.getPast i (by rw [hpc]; exact id)
      refine h.of_proc hi rfl rfl (fun j hj => ?_) ?_ (fun hw => absurd trivial hw)
      · simp [Sys.openCalls, Sys.handledDone, Ne.symm hj]
      · simp only [Sys.openCalls, Sys.handledDone] at h0 ⊢
        simp only [List.countP_append, List.countP_singleton, decide_true, if_true]
        omega
  | exit hpc =>
      have h0 := h.getPast i (by rw [hpc]; exact id)
      refine h.of_proc hi rfl rfl (fun j hj => ?_) ?_ (fun hw => absurd trivial hw)
      · simp [Sys.openCalls, Sys.handledDone, Ne.symm hj]
      · simp only [Sys.openCalls, Sys.handledDone] at h0 ⊢
        simp only [List.countP_append, List.countP_singleton, decide_true, if_true]
        omega
  | answered count x rest hpc hr =>
      -- the answer was the one open call of `i`
      have h1 := h.atMostOne i
      have h0 : Sys.openCalls { s with
          proc := Function.update s.proc i (afterReply count x)
          replies := Function.update s.replies i rest } i = 0 := by
        simp only [Sys.openCalls, Sys.handledDone, hr, List.length_cons] at h1
        simp only [Sys.openCalls, Sys.handledDone, Function.update_self]
        omega
      refine h.of_proc hi rfl rfl (fun j hj => ?_) (h0.trans_le (by omega)) (fun _ => h0)
      simp [Sys.openCalls, Sys.handledDone, Function.update_of_ne hj]

theorem calls_schedMove (h : Calls k s) (hm : SchedMove k s s') : Calls k s' := by
  cases hm <;> exact ⟨h.atMostOne, h.getPast, h.outside, h.serving⟩

/-! A step of the MMU moves a call of process `i` on, and opens and closes none. -/

theorem Calls.of_mmu (h : Calls k s) (hproc : s'.proc = s.proc)
    (hcalls : ∀ j, s'.openCalls j = s.openCalls j)
    (hserve : ∀ r outs, s'.mmuPc = .serving r outs → WellServed r outs) : Calls k s' where
  atMostOne := by intro j; exact hcalls j ▸ h.atMostOne j
  getPast := by intro j hw; exact hcalls j ▸ h.getPast j (hproc ▸ hw)
  outside := by intro j hj; exact hproc ▸ h.outside j hj
  serving := hserve

theorem wellServed_serveRequest (m : Nat) (s : Mmu) (r : Request) :
    WellServed r (serveRequest m s (some r)).2 := by
  rcases serveRequest_outs m s r with ⟨hd, ho⟩ | ⟨hd, -, ho⟩ | ⟨hd, -, ho⟩ | ⟨hd, -, -, x, ho⟩
  all_goals simp [WellServed, ho, hd]

/-- A request is answered once, or it is a `PROCESS_DONE`. -/
theorem owes_serveRequest (m : Nat) (s : Mmu) (r : Request) (i : Nat) :
    (MmuPc.serving r (serveRequest m s (some r)).2).owes i = if r.id = i then 1 else 0 := by
  rcases serveRequest_outs m s r with ⟨hd, ho⟩ | ⟨hd, -, ho⟩ | ⟨hd, -, ho⟩ | ⟨hd, -, -, x, ho⟩
  all_goals simp [MmuPc.owes, ho, hd, Out.isReplyTo, List.countP_cons]

theorem length_replies_post (s : Sys) {r : Request} {o : Out}
    (ho : ∀ id x, o = .reply id x → id = r.id) (i : Nat) :
    ((s.post r.id o).replies i).length
      = (s.replies i).length + if o.isReplyTo i then 1 else 0 := by
  cases o with
  | notify type => simp [Out.isReplyTo, Sys.post]
  | reply id x =>
      obtain rfl := ho id x rfl
      by_cases hi : i = r.id
      · simp [Out.isReplyTo, Sys.post, hi]
      · simp [Out.isReplyTo, Sys.post, Function.update_of_ne hi, Ne.symm hi]

@[simp] theorem post_requests (s : Sys) (c : Nat) (o : Out) :
    (s.post c o).requests = s.requests := by cases o <;> rfl
@[simp] theorem post_handled (s : Sys) (c : Nat) (o : Out) :
    (s.post c o).handled = s.handled := by cases o <;> rfl
@[simp] theorem post_proc (s : Sys) (c : Nat) (o : Out) :
    (s.post c o).proc = s.proc := by cases o <;> rfl
@[simp] theorem post_sched (s : Sys) (c : Nat) (o : Out) :
    (s.post c o).sched = s.sched := by cases o <;> rfl
@[simp] theorem post_termCount (s : Sys) (c : Nat) (o : Out) :
    (s.post c o).termCount = s.termCount := by cases o <;> rfl

theorem calls_mmuMove (h : Calls k s) (hm : MmuMove k m s s') : Calls k s' := by
  cases hm with
  | receive r rest hpc _ hreq =>
      refine h.of_mmu rfl (fun j => ?_) (fun r' outs hs => ?_)
      · -- the call leaves the queue and is owed an answer
        have howes := owes_serveRequest m s.mmu r j
        have hidle : s.mmuPc.owes j = 0 := by rw [hpc]; rfl
        simp only [Sys.openCalls, Sys.handledDone, Sys.receive, howes, hidle, hreq, List.countP_cons,
          decide_eq_true_eq]
        omega
      · cases hs
        exact wellServed_serveRequest m s.mmu r
  | silent r hpc =>
      have hserve := h.serving r [] hpc
      have hd : ¬ r.IsDone := fun hd => by cases hserve.1 hd
      refine h.of_mmu rfl (fun j => ?_) (fun r' outs hs => by cases hs)
      simp [Sys.openCalls, Sys.handledDone, Sys.finish, hpc, MmuPc.owes, hd]
  | last r o hpc =>
      have hserve := h.serving r [o] hpc
      have hid : ∀ id x, o = .reply id x → id = r.id := fun id x ho => hserve.2 id x (by simp [ho])
      refine h.of_mmu (post_proc s r.id o) (fun j => ?_) (fun r' outs hs => by cases hs)
      have hlen := length_replies_post s hid j
      simp only [Sys.openCalls, Sys.handledDone, Sys.finish, post_requests, post_handled, hpc,
        MmuPc.owes, List.countP_append, List.countP_singleton, hlen]
      -- after its last message a request counts as handled
      by_cases hd : r.IsDone
      · have hnot : o = .notify .processTerm := by simpa using hserve.1 hd
        simp only [hd, hnot, and_true, decide_eq_true_eq, if_true, Out.isReplyTo,
          Bool.false_eq_true, if_false]
        omega
      · simp only [hd, and_false, decide_false, if_false, Bool.false_eq_true]
        omega
  | send r o o' outs hpc =>
      have hserve := h.serving r _ hpc
      have hid : ∀ id x, o = .reply id x → id = r.id := fun id x ho => hserve.2 id x (by simp [ho])
      have hd : ¬ r.IsDone := fun hd => by cases hserve.1 hd
      refine h.of_mmu (post_proc s r.id o) (fun j => ?_) (fun r' outs' hs => ?_)
      · have hlen := length_replies_post s hid j
        simp only [Sys.openCalls, Sys.handledDone, post_requests, post_handled, hpc, hd, if_false,
          MmuPc.owes, hlen, List.countP_cons]
        omega
      · cases hs
        exact ⟨fun h => absurd h hd, fun id x hx => hserve.2 id x (List.mem_cons_of_mem o hx)⟩

theorem calls_next {a : Party} (h : Calls k s)
    (hs : (pagingMachine k m f refs).next s a = some s') : Calls k s' := by
  rcases pagingMachine_cases hs with ⟨i, hi, -, hm⟩ | ⟨-, hm⟩ | ⟨-, hm⟩
  · exact calls_procMove h hi hm
  · exact calls_schedMove h hm
  · exact calls_mmuMove h hm

theorem calls_reachable (h : (pagingMachine k m f refs).Reachable s) : Calls k s := by
  refine h.invariant ?_ fun s a s' hc _ hs => calls_next hc hs
  rintro s ⟨pcb, -, rfl⟩
  exact calls_start pcb

/-! ## Notifications and `PROCESS_DONE`s -/

/-- A request the MMU receives was sent as a `PROCESS_DONE`, or its page, as the MMU reads it,
passes the range check of `serve_request`. -/
def NoIllegalPage (s : Sys) (a : Party) : Prop :=
  a = .mmu → s.mmuPc = .idle → ∀ r ∈ s.requests.head?,
    r.pageNumber = PROCESS_DONE ∨ Accepted s.mmu r.id r.page

instance (s : Sys) (a : Party) : Decidable (NoIllegalPage s a) :=
  inferInstanceAs (Decidable (_ → _ → _))

/-- A `PROCESS_DONE` is read as one. -/
theorem isDone_of_sent {r : Request} (h : r.pageNumber = PROCESS_DONE) : r.IsDone := by
  show Int.bmod r.pageNumber 256 = PROCESS_DONE
  rw [h]
  rfl

theorem not_accepted_of_isDone {t : Mmu} {r : Request} (h : r.IsDone) :
    ¬ Accepted t r.id r.page := by
  intro hacc
  have := hacc.1
  rw [h, PROCESS_DONE] at this
  omega

theorem NoIllegalPage.accepted {a : Party} {r : Request} (h : NoIllegalPage s a) (ha : a = .mmu)
    (hpc : s.mmuPc = .idle) (hr : r ∈ s.requests.head?) :
    r.IsDone ∨ Accepted s.mmu r.id r.page :=
  (h ha hpc r hr).imp_left isDone_of_sent

/-- The scheduler's count and the notifications under way are the `PROCESS_DONE`s handled. -/
structure Tally (k : Nat) (s : Sys) : Prop where
  tally : s.termCount + s.msgq2.countP (fun n => n.type = .processTerm)
    = s.handled.countP (fun r => r.IsDone)
  serving : ∀ r outs, s.mmuPc = .serving r outs → ¬ r.IsDone → Out.notify .processTerm ∉ outs
  left : s.sched = .left → s.termCount = k

theorem tally_start (pcb : List Pcb) : Tally k (startSys k m f pcb) where
  tally := rfl
  serving := by intro r outs h; cases h
  left := by intro h; cases h

theorem tally_procMove {pages : List Int} (h : Tally k s) (hm : ProcMove pages i s s') :
    Tally k s' := by
  cases hm <;> exact ⟨h.tally, h.serving, h.left⟩

theorem tally_schedMove (h : Tally k s) (hm : SchedMove k s s') : Tally k s' := by
  cases hm with
  | readReady id rest _ _ => exact ⟨h.tally, h.serving, fun hc => by cases hc⟩
  | dispatch id _ => exact ⟨h.tally, h.serving, fun hc => by cases hc⟩
  | requeue id _ => exact ⟨h.tally, h.serving, fun hc => by cases hc⟩
  | faultHandled id cause rest _ hq =>
      have ht := h.tally
      rw [hq] at ht
      exact ⟨by simpa using ht, h.serving, fun hc => by cases hc⟩
  | terminated id cause rest _ hq =>
      have ht := h.tally
      rw [hq, List.countP_cons] at ht
      refine ⟨?_, h.serving, fun hc => ?_⟩
      · simp only [decide_true, if_true] at ht
        show s.termCount + 1 + rest.countP (fun n => n.type = .processTerm)
          = s.handled.countP (fun r => r.IsDone)
        omega
      · simp only at hc
        split at hc
        · assumption
        · cases hc

/-- A message that is no `PROCESS_TERM` changes no tally. -/
theorem tally_post {o : Out} (c : Nat) (ho : o ≠ .notify .processTerm) :
    (s.post c o).msgq2.countP (fun n => n.type = .processTerm)
      = s.msgq2.countP (fun n => n.type = .processTerm) := by
  cases o with
  | reply id x => rfl
  | notify type =>
      have ht : type ≠ .processTerm := fun hc => ho (by rw [hc])
      simp [Sys.post, ht]

theorem tally_mmuMove (hc : Calls k s) (h : Tally k s) (hok : NoIllegalPage s .mmu)
    (hm : MmuMove k m s s') : Tally k s' := by
  cases hm with
  | receive r rest hpc _ hreq =>
      refine ⟨h.tally, fun r' outs hs hd => ?_, h.left⟩
      have hacc := hok.accepted (r := r) rfl hpc (by simp [hreq])
      cases hs
      rcases serveRequest_outs m s.mmu r with ⟨hd', -⟩ | ⟨-, hn, -⟩ | ⟨-, -, ho⟩ | ⟨-, -, -, x, ho⟩
      · exact absurd hd' hd
      · exact absurd hacc (by simp [hd, hn])
      · simp [ho]
      · simp [ho]
  | silent r hpc =>
      have hd : ¬ r.IsDone := fun hd => by cases (hc.serving r [] hpc).1 hd
      refine ⟨?_, (fun r' outs hs => by cases hs), h.left⟩
      simpa [Sys.finish, hd] using h.tally
  | last r o hpc =>
      refine ⟨?_, (fun r' outs hs => by cases hs), by simpa [Sys.finish] using h.left⟩
      have ht := h.tally
      by_cases hd : r.IsDone
      · -- the only message for a `PROCESS_DONE` is the one that is counted
        have hterm : o = .notify .processTerm := by simpa using (hc.serving r [o] hpc).1 hd
        subst hterm
        simp only [Sys.finish, Sys.post, List.countP_append, List.countP_singleton, hd,
          decide_true, if_true]
        omega
      · have hterm : o ≠ .notify .processTerm := fun hc =>
          h.serving r [o] hpc hd (by simp [hc])
        have hpost := tally_post (s := s) r.id hterm
        simp only [Sys.finish, post_handled, post_termCount, hpost, List.countP_append,
          List.countP_singleton, hd, decide_false, Bool.false_eq_true, if_false]
        omega
  | send r o o' outs hpc =>
      -- two messages are for a page fault
      have hd : ¬ r.IsDone := fun hd => by cases (hc.serving r _ hpc).1 hd
      have hterm := h.serving r _ hpc hd
      refine ⟨?_, fun r' outs' hs _ hmem => ?_, by simpa using h.left⟩
      · have hpost := tally_post (s := s) r.id (o := o) (fun hc => hterm (by simp [hc]))
        simp only [post_handled, post_termCount, hpost]
        exact h.tally
      · cases hs
        exact hterm (List.mem_cons_of_mem o hmem)

theorem tally_reachable (h : (pagingMachine k m f refs).ReachableWhen NoIllegalPage s) :
    Tally k s := by
  refine h.invariant_of (fun s hr => calls_reachable hr.reachable) ?_ ?_
  · rintro s ⟨pcb, -, rfl⟩
    exact tally_start pcb
  · intro s a s' hc ht hok hs
    rcases pagingMachine_cases hs with ⟨i, -, -, hm⟩ | ⟨-, hm⟩ | ⟨rfl, hm⟩
    · exact tally_procMove ht hm
    · exact tally_schedMove ht hm
    · exact tally_mmuMove hc ht hok hm

/-! ## Leaving the loop -/

/-- What the MMU takes for a `PROCESS_DONE` was sent as one. -/
structure DoneSent (s : Sys) : Prop where
  handled : ∀ r ∈ s.handled, r.IsDone → r.pageNumber = PROCESS_DONE
  serving : ∀ r outs, s.mmuPc = .serving r outs → r.IsDone → r.pageNumber = PROCESS_DONE

theorem doneSent_mmuMove (h : DoneSent s) (hok : NoIllegalPage s .mmu) (hm : MmuMove k m s s') :
    DoneSent s' := by
  -- a request that is being served joins the handled ones
  have hfinish : ∀ r outs, s.mmuPc = .serving r outs →
      ∀ r' ∈ s.handled ++ [r], r'.IsDone → r'.pageNumber = PROCESS_DONE := by
    intro r outs hpc r' hr' hd
    rcases List.mem_append.mp hr' with hr' | hr'
    · exact h.handled r' hr' hd
    · obtain rfl := List.mem_singleton.mp hr'
      exact h.serving r' outs hpc hd
  cases hm with
  | receive r rest hpc _ hreq =>
      refine ⟨h.handled, fun r' outs hs hd => ?_⟩
      cases hs
      rcases hok rfl hpc r (by simp [hreq]) with hsent | hacc
      · exact hsent
      · exact absurd hacc (not_accepted_of_isDone hd)
  | silent r hpc => exact ⟨hfinish r _ hpc, fun r' outs hs => by cases hs⟩
  | last r o hpc =>
      refine ⟨?_, fun r' outs hs => by cases hs⟩
      simp only [Sys.finish, post_handled]
      exact hfinish r _ hpc
  | send r o o' outs hpc =>
      refine ⟨?_, fun r' outs' hs => ?_⟩
      · simp only [post_handled]
        exact h.handled
      · cases hs
        exact h.serving r _ hpc

theorem doneSent_reachable (h : (pagingMachine k m f refs).ReachableWhen NoIllegalPage s) :
    DoneSent s := by
  refine h.invariant ?_ ?_
  · rintro s ⟨pcb, -, rfl⟩
    exact ⟨fun r hr => (List.not_mem_nil hr).elim, fun r outs hs => by cases hs⟩
  · intro s a s' hd hok hs
    rcases pagingMachine_cases hs with ⟨i, -, -, hm⟩ | ⟨-, hm⟩ | ⟨rfl, hm⟩
    · cases hm <;> exact ⟨hd.handled, hd.serving⟩
    · cases hm <;> exact ⟨hd.handled, hd.serving⟩
    · exact doneSent_mmuMove hd hok hm

/-- The MMU has handled a `PROCESS_DONE` that process `i` sent. -/
def HandledDone (s : Sys) (i : Nat) : Prop :=
  ∃ r ∈ s.handled, r.id = i ∧ r.pageNumber = PROCESS_DONE

instance (s : Sys) (i : Nat) : Decidable (HandledDone s i) := inferInstanceAs (Decidable (∃ _ ∈ _, _))

/-- `k` different numbers below `k` are all of them. -/
theorem mem_of_nodup_of_length {l : List Nat} (hnd : l.Nodup) (hlt : ∀ x ∈ l, x < k)
    (hk : k ≤ l.length) (hi : i < k) : i ∈ l := by
  have hsub : l.toFinset ⊆ Finset.range k := fun x hx =>
    Finset.mem_range.mpr (hlt x (List.mem_toFinset.mp hx))
  have hcard : (Finset.range k).card ≤ l.toFinset.card := by
    rw [List.toFinset_card_of_nodup hnd, Finset.card_range]
    exact hk
  have heq := Finset.eq_of_subset_of_card_le hsub hcard
  exact List.mem_toFinset.mp (heq ▸ Finset.mem_range.mpr hi)

/-- The processes with a handled `PROCESS_DONE`, one entry for each. -/
def Sys.doneIds (s : Sys) : List Nat := (s.handled.filter fun r => r.IsDone).map Request.id

theorem nodup_doneIds (h : Calls k s) : s.doneIds.Nodup := by
  refine List.nodup_iff_count_le_one.mpr fun i => ?_
  have hone := h.atMostOne i
  have hcount : s.doneIds.count i = s.handledDone i := by
    rw [Sys.doneIds, List.count, List.countP_map, List.countP_filter]
    refine List.countP_congr fun r _ => ?_
    simp
  simp only [Sys.openCalls] at hone
  omega

theorem lt_of_mem_doneIds (h : Calls k s) (hi : i ∈ s.doneIds) : i < k := by
  by_contra hk
  have hnone := h.getPast i (by rw [h.outside i (by omega)]; exact id)
  have hpos : 0 < s.handledDone i := by
    obtain ⟨r, hr, hid⟩ := List.mem_map.mp hi
    obtain ⟨hr, hd⟩ := List.mem_filter.mp hr
    exact List.countP_pos_iff.mpr ⟨r, hr, by simpa [hid] using hd⟩
  simp only [Sys.openCalls] at hnone
  omega

/-- **Termination agreement.** In the runs in which the MMU receives no illegal page, it has
handled the `PROCESS_DONE` of every process when the scheduler leaves its loop. -/
theorem left_when_all_done {k m f : Nat} {refs : Nat → List Int} {s : Sys}
    (h : (pagingMachine k m f refs).ReachableWhen NoIllegalPage s) (hl : s.sched = .left) :
    ∀ i < k, HandledDone s i := by
  intro i hi
  have hc := calls_reachable h.reachable
  have ht := tally_reachable h
  have hlen : k ≤ s.doneIds.length := by
    have := ht.tally
    have := ht.left hl
    rw [Sys.doneIds, List.length_map, ← List.countP_eq_length_filter]
    omega
  have hmem : i ∈ s.doneIds :=
    mem_of_nodup_of_length (nodup_doneIds hc) (fun x hx => lt_of_mem_doneIds hc hx) hlen hi
  obtain ⟨r, hr, hid⟩ := List.mem_map.mp hmem
  obtain ⟨hr, hd⟩ := List.mem_filter.mp hr
  exact ⟨r, hr, hid, (doneSent_reachable h).handled r hr (by simpa using hd)⟩

/-- Two processes, of which one refers to a page, run to the end of the scheduler's loop. -/
theorem left_when_all_done_run :
    ∃ s, (pagingMachine 2 1 2 (fun i => if i = 0 then [0] else [])).ReachableWhen NoIllegalPage s
      ∧ s.sched = .left ∧ ∀ i < 2, HandledDone s i := by
  obtain ⟨s, hs, hp⟩ : ∃ s, (pagingMachine 2 1 2 (fun i => if i = 0 then [0] else [])).ReachableWhen
      NoIllegalPage s ∧ (s.sched == .left) = true := Machine.exists_reachableWhen_of_execWhen
    (s := startSys 2 1 2 [⟨1, 1, 0⟩, ⟨1, 1, 0⟩])
    (l := [.proc 1, .proc 0, .sched, .sched, .proc 1, .proc 1, .proc 1, .mmu, .mmu, .sched,
      .sched, .sched, .proc 0, .proc 0, .mmu, .mmu, .mmu, .sched, .sched, .proc 0, .proc 0, .mmu,
      .mmu, .proc 0, .proc 0, .proc 0, .mmu, .mmu, .sched, .sched, .sched])
    ⟨_, ⟨rfl, by simp⟩, rfl⟩ (by decide)
  have hl : s.sched = .left := by simpa using hp
  exact ⟨s, hs, hl, left_when_all_done hs hl⟩

/-- **The scheduler leaves early otherwise.** One process with one page refers to page `5`: the
scheduler leaves before the process has sent its `PROCESS_DONE`. -/
theorem left_before_done :
    ¬ ∀ s, (pagingMachine 1 1 1 (fun _ => [5])).Reachable s → s.sched = .left →
      ∀ i < 1, HandledDone s i := by
  intro h
  obtain ⟨s, hs, hp⟩ := Machine.exists_reachable_of_exec (M := pagingMachine 1 1 1 (fun _ => [5]))
    (s := startSys 1 1 1 [⟨1, 1, 0⟩]) (p := fun s => s.sched == .left && !decide (HandledDone s 0))
    (l := [.proc 0, .sched, .sched, .proc 0, .proc 0, .mmu, .mmu, .mmu, .sched])
    ⟨_, ⟨rfl, by simp⟩, rfl⟩ (by decide)
  simp only [Bool.and_eq_true, beq_iff_eq, Bool.not_eq_true', decide_eq_false_iff_not] at hp
  exact hp.2 (h s hs hp.1 0 (by decide))

end OSLab.Paging
