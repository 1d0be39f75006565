import OSLab.Paging.Residence
import OSLab.Paging.Progress

set_option autoImplicit false

/-! # The whole assignment runs to its end

Where memory has a frame for each page that is referred to, every run of the processes, the scheduler and
the MMU is finite: each page faults once, each reference is served once more, and each of these requests
causes a bounded number of steps (`rank`). A run ends only where everything is over: all processes have
exited, the scheduler and the MMU have left their loops, and all frames are free.
-/

namespace OSLab.Paging

variable {k m f : Nat} {refs : Nat → List Int} {pages : List Int} {s s' : Sys} {i : Nat}

/-! ## Where a run ends -/

/-- Fitting references are no illegal pages. -/
theorem reachable_noIllegalPage (h : (pagingMachine k m f refs).Reachable s)
    (hu : Fits k f refs s.mmu) : (pagingMachine k m f refs).ReachableWhen NoIllegalPage s := by
  induction h with
  | init h => exact .init h
  | @step s s' a hr _ hs ih =>
      have hu := hu.of_pcb (pcb_next hs)
      refine .step (ih hu) ?_ hs
      intro _ _ r hr'
      obtain ⟨rest, hreq⟩ : ∃ rest, s.requests = r :: rest := by
        cases hq : s.requests with
        | nil => simp [hq] at hr'
        | cons q rest =>
            rw [hq, List.head?_cons, Option.mem_some_iff] at hr'
            exact ⟨rest, by rw [hr']⟩
      have hfits := request_fits (calls_reachable hr) (fromRefs_reachable hr) hu hreq
      exact hfits.2.imp And.left fun hp => ⟨hp.2.2.1, hp.2.2.2.le⟩

/-- When nobody can move, the scheduler has left its loop. -/
theorem Flow.left (h : Flow k s) (hstuck : (pagingMachine k m f refs).Stuck s) : s.sched = .left := by
  have hmmu : ∀ a, answerNext k s a = none := answerNext_none (m := m) (hstuck .mmu)
  have hprocs : ∀ i < k, (s.proc i = .awaitDispatch ∧ s.readyTo i = 0) ∨ s.proc i = .exited := by
    intro i hi
    have hnone : (if i < k then procNext (refs i) i s else none) = none := hstuck (.proc i)
    rw [if_pos hi] at hnone
    rcases stuck_proc hnone with hpc | ⟨count, hpc, hnil⟩ | hpc
    · exact .inl hpc
    · exact (h.no_reply hi hmmu hpc hnil).elim
    · exact .inr hpc
  rcases stuck_sched (hstuck .sched) with ⟨hpc, hnil⟩ | ⟨id, hpc, hnil⟩ | hpc
  · -- the ready queue would be empty before all processes are terminated
    have hall : Nat.count (fun i => s.proc i ≠ .register) k = k := by
      apply Nat.count_iff_forall.mpr
      intro i hi
      rcases hprocs i hi with ⟨hp, -⟩ | hp <;> simp [hp]
    have hroll := h.roll
    have hrem := h.remaining (by simp [hpc])
    rw [hpc, hnil, hall, List.length_nil] at hroll
    simp only [SchedPc.inHand] at hroll
    omega
  · exact (h.awaits_notice hpc hnil hmmu hprocs).elim
  · exact hpc

/-- Everything is over. -/
structure Complete (k m f : Nat) (refs : Nat → List Int) (s : Sys) : Prop where
  exited : ∀ i < k, s.proc i = .exited
  left : s.sched = .left
  terminated : s.mmu.terminated = k
  free : s.mmu.freeList.current = f - 1
  faults : ∀ i < k, s.mmu.pageFaults i = (refs i).toFinset.card

/-- **A run ends only where everything is over.** -/
theorem ends_complete (hk : 1 ≤ k) (h : (pagingMachine k m f refs).Reachable s)
    (hu : Fits k f refs s.mmu) (hstuck : (pagingMachine k m f refs).Stuck s) :
    Complete k m f refs s := by
  have hpages : PagesArrive k refs := fun i hi page hpage =>
    ⟨(hu.legal i hi page hpage).1.1, (hu.legal i hi page hpage).2⟩
  have hwhen := reachable_noIllegalPage h hu
  have hflow := flow_reachable hk hpages (answering_of_paging hwhen)
  have hres := resident_reachable h hu
  have hleft := hflow.left hstuck
  have hcount : s.termCount = k := (tally_reachable hwhen).left hleft
  -- the scheduler has counted a `PROCESS_DONE` for each process
  have hle := Nat.count_le (p := fun i => s.proc i = .exited) (n := k)
  have hexits := hflow.exits
  have hterms : s.termCount ≤ s.terms := (Nat.le_add_right _ _).trans (Nat.le_add_right _ _)
  have hexited : ∀ i < k, s.proc i = .exited := Nat.count_iff_forall.mp (by omega)
  have hnone : s.requests.countP (fun r => r.IsDone) = 0 := by omega
  have hgone : ∀ i < k, Gone m (refs i) i s := by
    intro i hi
    refine (hres.holds i hi).state.resolve_left fun hp => ?_
    obtain ⟨r, hr, hd⟩ := hp.exiting (hexited i hi)
    have := List.countP_eq_zero.mp hnone r (mem_own.mp hr).1
    simp [hd] at this
  constructor
  case exited => exact hexited
  case left => exact hleft
  case terminated =>
    have := hflow.terminated
    omega
  case free =>
    have huse := hres.owned.frames_in_use
    have hzero : ∑ i ∈ Finset.range k, (residentPages m s.mmu i).card = 0 :=
      Finset.sum_eq_zero fun i hi => by
        rw [(hgone i (Finset.mem_range.mp hi)).freed, Finset.card_empty]
    have := hres.owned.current
    omega
  case faults => exact fun i hi => (hgone i hi).faults

/-- The run of one process, up to where nobody can move. -/
def wholeRun : List Party := shortRun ++ [.mmu, .mmu] ++ List.replicate 9 .sched

theorem ends_complete_run : ∃ s, (pagingMachine 1 2 2 shortRefs).Reachable s
    ∧ (pagingMachine 1 2 2 shortRefs).Stuck s ∧ Complete 1 2 2 shortRefs s := by
  obtain ⟨s, hs, hp⟩ := Machine.exists_reachable_of_exec (M := pagingMachine 1 2 2 shortRefs)
    (s := startSys 1 2 2 [⟨2, 2, 0⟩]) (l := wholeRun)
    (p := fun s => decide (s.proc 0 = .exited ∧ s.sched = .left ∧ s.mmuPc = .idle
      ∧ s.mmu.terminated = 1 ∧ LegalRefs 1 shortRefs s.mmu ∧ s.mmu.pcb = [⟨2, 2, 0⟩]))
    ⟨_, ⟨rfl, by simp⟩, rfl⟩ (by decide +kernel)
  obtain ⟨hpc, hleft, hidle, hterm, hlegal, hpcb⟩ := of_decide_eq_true hp
  have hu := fits_shortRefs hlegal hpcb
  have hstuck : (pagingMachine 1 2 2 shortRefs).Stuck s := by
    intro a
    cases a with
    | proc i =>
        simp only [pagingMachine]
        split
        · obtain rfl : i = 0 := by omega
          rw [procNext, hpc]
        · rfl
    | sched => simp only [pagingMachine, schedNext, hleft]
    | mmu => simp [pagingMachine, mmuNext, hidle, hterm]
  exact ⟨s, hs, hstuck, ends_complete (by decide) hs hu hstuck⟩

/-! ## Every run ends

The weights are such that each step lowers the sum: what is sent weighs less than what it takes to send
it, a fault has the weight of the second request that it causes, and there are no more faults than pages. -/

def ProcPc.weight (n : Nat) : ProcPc → Nat
  | .register => 17 * n + 23
  | .awaitDispatch => 17 * n + 18
  | .request count => 17 * (n - count) + 18
  | .awaitReply count => 17 * (n - count) + 1
  | .done => 17
  | .exited => 0

def replyWeight (x : Int) : Nat := if x = PAGE_FAULT then 18 else 1

def Out.weight : Out → Nat
  | .reply _ x => replyWeight x
  | .notify _ => 10

def MmuPc.weight : MmuPc → Nat
  | .idle => 0
  | .serving _ outs => 1 + (outs.map fun o => o.weight + 1).sum

def SchedPc.weight : SchedPc → Nat
  | .readReady => 0
  | .dispatch _ => 3
  | .readNotice _ => 1
  | .requeue _ => 6
  | .left => 0

/-- The share of process `i`: where it is, what is on its way to it, and the faults it has not had. -/
def Sys.share (refs : Nat → List Int) (s : Sys) (i : Nat) : Nat :=
  (s.proc i).weight (refs i).length + s.readyTo i + ((s.replies i).map replyWeight).sum
    + 17 * ((refs i).toFinset.card - s.mmu.pageFaults i)

/-- A bound on the number of steps from `s` on. -/
def rank (k : Nat) (refs : Nat → List Int) (s : Sys) : Nat :=
  ∑ i ∈ Finset.range k, s.share refs i + 15 * s.requests.length + s.mmuPc.weight
    + 10 * s.msgq2.length + 4 * s.readyFrom.length + s.sched.weight

/-- A step of process `i` changes its own share only. -/
theorem share_procMove (hi : i < k) (hm : ProcMove (refs i) i s s') :
    ∑ j ∈ Finset.range k, s'.share refs j + s.share refs i
      = ∑ j ∈ Finset.range k, s.share refs j + s'.share refs i := by
  refine sum_change hi fun j _ hj => ?_
  unfold Sys.share
  cases hm <;> simp only [Function.update_of_ne hj]

theorem rank_procMove (hi : i < k) (h : Holds m (refs i) i s) (hm : ProcMove (refs i) i s s') :
    rank k refs s' < rank k refs s := by
  have hshare := share_procMove hi hm
  unfold rank
  generalize ∑ j ∈ Finset.range k, s.share refs j = before at hshare ⊢
  generalize ∑ j ∈ Finset.range k, s'.share refs j = after at hshare ⊢
  cases hm with
  | register hpc =>
      simp only [Sys.share, hpc, Function.update_self, ProcPc.weight] at hshare
      simp only [List.length_append, List.length_singleton]
      omega
  | dispatched hpc hto =>
      simp only [Sys.share, hpc, Function.update_self, ProcPc.weight, Nat.sub_zero] at hshare
      simp only
      omega
  | ask count page hpc hpage =>
      simp only [Sys.share, hpc, Function.update_self, ProcPc.weight] at hshare
      simp only [List.length_append, List.length_singleton]
      omega
  | leave count hpc hpage =>
      simp only [Sys.share, hpc, Function.update_self, ProcPc.weight] at hshare
      simp only
      omega
  | exit hpc =>
      simp only [Sys.share, hpc, Function.update_self, ProcPc.weight] at hshare
      simp only [List.length_append, List.length_singleton]
      omega
  | answered count x rest hpc hr =>
      obtain ⟨page, hpage, -, hx⟩ := h.call.received hpc hr
      have hlt := (List.getElem?_eq_some_iff.mp hpage).1
      simp only [Sys.share, hpc, hr, Function.update_self, ProcPc.weight, List.map_cons,
        List.sum_cons] at hshare
      simp only
      rcases hx with hx | rfl
      · have hnext : afterReply count x = .request (count + 1) := by
          rw [afterReply, if_neg (by rw [PAGE_FAULT]; omega),
            if_neg (by rw [INVALID_PAGE_NUMBER]; omega)]
        have hweight : replyWeight x = 1 := if_neg (by rw [PAGE_FAULT]; omega)
        rw [hnext, hweight] at hshare
        simp only at hshare
        omega
      · have hnext : afterReply count PAGE_FAULT = .request count := if_pos rfl
        have hweight : replyWeight PAGE_FAULT = 18 := rfl
        rw [hnext, hweight] at hshare
        simp only at hshare
        omega

/-- One number at one index goes up by one. -/
theorem sum_update_succ_le (k : Nat) (g : Nat → Nat) (id : Nat) (w : Nat) :
    ∑ j ∈ Finset.range k, Function.update g id (g id + w) j ≤ ∑ j ∈ Finset.range k, g j + w := by
  by_cases hid : id < k
  · have hsum := sum_change (f := g) (g := Function.update g id (g id + w)) hid
      fun j _ hj => (Function.update_of_ne hj _ _).symm
    rw [Function.update_self] at hsum
    omega
  · refine (le_of_eq (Finset.sum_congr rfl fun j hj => ?_)).trans (Nat.le_add_right _ _)
    have := Finset.mem_range.mp hj
    exact Function.update_of_ne (by omega) _ _

theorem rank_schedMove (hm : SchedMove k s s') : rank k refs s' < rank k refs s := by
  unfold rank
  cases hm with
  | readReady id rest hpc hready =>
      simp only [hpc, hready, SchedPc.weight, List.length_cons]
      have hsame : ∀ i, Sys.share refs { s with readyFrom := rest, sched := .dispatch id } i
          = s.share refs i := fun _ => rfl
      simp only [hsame]
      omega
  | dispatch id hpc =>
      have hle := sum_update_succ_le k s.readyTo id 1
      simp only [Sys.share, Finset.sum_add_distrib, hpc, SchedPc.weight]
      omega
  | faultHandled id cause rest hpc hq =>
      simp only [hpc, hq, SchedPc.weight, List.length_cons]
      have hsame : ∀ i, Sys.share refs { s with msgq2 := rest, sched := .requeue id } i
          = s.share refs i := fun _ => rfl
      simp only [hsame]
      omega
  | terminated id cause rest hpc hq =>
      have hzero : (if s.termCount + 1 = k then SchedPc.left else .readReady).weight = 0 := by
        split <;> rfl
      have hone : (SchedPc.readNotice id).weight = 1 := rfl
      simp only [hpc, hq, hzero, hone, List.length_cons, Sys.share]
      omega
  | requeue id hpc =>
      simp only [hpc, SchedPc.weight, List.length_append, List.length_singleton, Sys.share]
      omega

/-- What is sent weighs less than what was left to send. -/
theorem weight_post (k : Nat) (refs : Nat → List Int) (s : Sys) (c : Nat) (o : Out) :
    ∑ i ∈ Finset.range k, (s.post c o).share refs i + 10 * (s.post c o).msgq2.length
      ≤ ∑ i ∈ Finset.range k, s.share refs i + 10 * s.msgq2.length + o.weight := by
  cases o with
  | notify type =>
      simp only [Sys.post, Sys.share, Out.weight, List.length_append, List.length_singleton]
      omega
  | reply id x =>
      have hle := sum_update_succ_le k (fun i => ((s.replies i).map replyWeight).sum) id.toNat
        (replyWeight x)
      have hsame : ∀ i, ((Function.update s.replies id.toNat (s.replies id.toNat ++ [x]) i).map
            replyWeight).sum
          = Function.update (fun i => ((s.replies i).map replyWeight).sum) id.toNat
            (((s.replies id.toNat).map replyWeight).sum + replyWeight x) i := by
        intro i
        by_cases hi : i = id.toNat
        · subst hi
          simp
        · simp only [Function.update_of_ne hi]
      simp only [Sys.post, Sys.share, Out.weight, Finset.sum_add_distrib, hsame]
      omega

/-- There are no more faults than pages. -/
theorem Holds.faults_le (h : Holds m pages i s) : s.mmu.pageFaults i ≤ pages.toFinset.card := by
  rcases h.state with hp | hg
  · exact hp.faults.trans_le (Finset.card_le_card h.subset)
  · exact hg.faults.le

/-- A fault takes its weight from the share of the process. -/
theorem share_receive {r : Request} {rest : List Request} (hid : r.id < k)
    (hle : (s.receive m r rest).mmu.pageFaults r.id ≤ (refs r.id).toFinset.card) :
    ∑ j ∈ Finset.range k, (s.receive m r rest).share refs j
        + (if FaultsOn m s.mmu r.id r.page then 17 else 0)
      = ∑ j ∈ Finset.range k, s.share refs j := by
  have hfaults : ∀ j : Nat, (s.receive m r rest).mmu.pageFaults j
      = s.mmu.pageFaults j + if (j : Int) = r.id ∧ FaultsOn m s.mmu r.id r.page then 1 else 0 :=
    fun j => (serveRequest_counters m s.mmu r).1 j
  have hchange := sum_change (f := s.share refs) (g := (s.receive m r rest).share refs) hid
    fun j _ hj => by
      have hsame := hfaults j
      rw [if_neg (fun hc => hj (by exact_mod_cast hc.1)), Nat.add_zero] at hsame
      unfold Sys.share
      rw [hsame]
      rfl
  have hown : (s.receive m r rest).share refs r.id
      + (if FaultsOn m s.mmu r.id r.page then 17 else 0) = s.share refs r.id := by
    have hadd := hfaults r.id
    show (s.proc r.id).weight (refs r.id).length + s.readyTo r.id
        + ((s.replies r.id).map replyWeight).sum
        + 17 * ((refs r.id).toFinset.card - (s.receive m r rest).mmu.pageFaults r.id)
        + _ = _
    unfold Sys.share
    by_cases hf : FaultsOn m s.mmu r.id r.page
    · rw [if_pos ⟨rfl, hf⟩] at hadd
      rw [if_pos hf]
      omega
    · rw [if_neg (fun hc => hf hc.2)] at hadd
      rw [if_neg hf, hadd]
      omega
  omega

theorem rank_receive {r : Request} {rest : List Request} (hid : r.id < k)
    (hframed : Framed s.mmu) (hacc : r.IsDone ∨ Accepted s.mmu r.id r.page)
    (hle : (s.receive m r rest).mmu.pageFaults r.id ≤ (refs r.id).toFinset.card)
    (hidle : s.mmuPc = .idle) (hreq : s.requests = r :: rest) :
    rank k refs (s.receive m r rest) < rank k refs s := by
  have hshare := share_receive hid hle
  have hweight : (s.receive m r rest).mmuPc.weight
      < 15 + if FaultsOn m s.mmu r.id r.page then 17 else 0 := by
    show 1 + ((serveRequest m s.mmu (some r)).2.map fun o => o.weight + 1).sum < _
    rcases serveRequest_outs m s.mmu r with
      ⟨-, ho⟩ | ⟨hd, hno, -⟩ | ⟨-, hf, ho⟩ | ⟨-, -, hf, x, ho⟩
    · simp only [ho, List.map_singleton, List.sum_singleton, Out.weight]
      omega
    · exact absurd hacc (not_or.mpr ⟨hd, hno⟩)
    · rw [if_pos hf, ho]
      simp [Out.weight, replyWeight]
    · -- a frame is no page fault
      have hx := frame_of_reply hframed hacc hf (by simp [ho] : Out.reply r.id x ∈ _)
      have hone : replyWeight x = 1 := if_neg (by rw [PAGE_FAULT]; omega)
      simp only [ho, List.map_singleton, List.sum_singleton, Out.weight, hone]
      omega
  have hzero : MmuPc.idle.weight = 0 := rfl
  simp only [rank, hidle, hreq, hzero, List.length_cons]
  have hrest : (s.receive m r rest).requests = rest := rfl
  have hmsgs : (s.receive m r rest).msgq2 = s.msgq2 := rfl
  have hready : (s.receive m r rest).readyFrom = s.readyFrom := rfl
  have hsched : (s.receive m r rest).sched = s.sched := rfl
  rw [hrest, hmsgs, hready, hsched]
  omega

/-- The MMU sends a message. -/
theorem rank_send {r : Request} {o : Out} {outs : List Out} (hpc : s.mmuPc = .serving r (o :: outs))
    (hshare : ∀ i, s'.share refs i = (s.post r.id o).share refs i)
    (hmsgs : s'.msgq2 = (s.post r.id o).msgq2) (hreq : s'.requests = s.requests)
    (hready : s'.readyFrom = s.readyFrom) (hsched : s'.sched = s.sched)
    (hleft : s'.mmuPc.weight ≤ 1 + (outs.map fun o => o.weight + 1).sum) :
    rank k refs s' < rank k refs s := by
  have hpost := weight_post k refs s r.id o
  have hbefore : s.mmuPc.weight = 1 + (o.weight + 1 + (outs.map fun o => o.weight + 1).sum) := by
    rw [hpc, MmuPc.weight, List.map_cons, List.sum_cons]
  simp only [rank, hshare, hmsgs, hreq, hready, hsched, hbefore]
  omega

theorem rank_mmuMove (hm : MmuMove k m s s')
    (hreceive : ∀ r rest, s.mmuPc = .idle → s.requests = r :: rest → s' = s.receive m r rest →
      rank k refs s' < rank k refs s) : rank k refs s' < rank k refs s := by
  cases hm with
  | receive r rest hpc _ hreq => exact hreceive r rest hpc hreq rfl
  | silent r hpc =>
      simp only [rank, Sys.finish, Sys.share, hpc, MmuPc.weight]
      omega
  | last r o hpc =>
      apply rank_send hpc
      · exact fun _ => rfl
      · rfl
      · exact post_requests s r.id o
      · cases o <;> rfl
      · exact post_sched s r.id o
      · exact Nat.zero_le _
  | send r o o' outs hpc =>
      apply rank_send hpc
      · exact fun _ => rfl
      · rfl
      · exact post_requests s r.id o
      · cases o <;> rfl
      · exact post_sched s r.id o
      · exact Nat.le_refl _

theorem rank_next {a : Party} (hc : Calls k s) (hfrom : FromRefs k refs s)
    (hu : Fits k f refs s.mmu) (h : Resident k m f refs s)
    (hs : (pagingMachine k m f refs).next s a = some s') : rank k refs s' < rank k refs s := by
  rcases pagingMachine_cases hs with ⟨i, hi, -, hm⟩ | ⟨-, hm⟩ | ⟨-, hm⟩
  · exact rank_procMove hi (h.holds i hi) hm
  · exact rank_schedMove hm
  · refine rank_mmuMove hm fun r rest hidle hreq heq => ?_
    subst heq
    obtain ⟨hid, hfits⟩ := request_fits hc hfrom hu hreq
    have hcase := hfits.imp_left (And.imp_left isDone_of_sent)
    refine rank_receive hid h.framed ?_ ?_ hidle hreq
    · exact hcase.imp And.left fun hp => ⟨hp.2.2.1, hp.2.2.2.le⟩
    · exact ((resident_receive hc hfrom hu h hidle hreq).holds r.id hid).faults_le

/-- **Every run ends**, whatever the interleaving, where memory has a frame for each page. -/
theorem paging_ends (h : (pagingMachine k m f refs).Reachable s) (hu : Fits k f refs s.mmu) :
    ¬ ∃ run : Nat → Sys, run 0 = s
      ∧ ∀ i, ∃ a, (pagingMachine k m f refs).next (run i) a = some (run (i + 1)) := by
  rintro ⟨run, rfl, hrun⟩
  refine Machine.not_infinite_from
    (I := fun s => (pagingMachine k m f refs).Reachable s ∧ Fits k f refs s.mmu) (fun _ _ => True)
    (rank k refs) ?_ ⟨h, hu⟩ fun i => (hrun i).imp fun a ha => ⟨trivial, ha⟩
  rintro s a s' ⟨hr, hu⟩ - hs
  refine ⟨⟨.step hr trivial hs, hu.of_pcb (pcb_next hs).symm⟩, ?_⟩
  exact rank_next (calls_reachable hr) (fromRefs_reachable hr) hu (resident_reachable hr hu) hs

theorem paging_ends_run : ∃ s, (pagingMachine 1 2 2 shortRefs).Reachable s ∧ s.proc 0 = .exited
    ∧ ¬ ∃ run : Nat → Sys, run 0 = s
      ∧ ∀ i, ∃ a, (pagingMachine 1 2 2 shortRefs).next (run i) a = some (run (i + 1)) := by
  obtain ⟨s, hs, hpc, hu⟩ := shortRun_reachable
  exact ⟨s, hs, hpc, paging_ends hs hu⟩

end OSLab.Paging
