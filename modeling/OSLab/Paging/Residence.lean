import OSLab.Paging.Retries

set_option autoImplicit false

/-! # Memory for every page

`mmu.c` takes a frame from a process only in the eviction, and evicts only where a fault finds the free
list empty. So if memory has a frame for each page that some process refers to (`EnoughFrames`), nothing
is ever evicted: a page that has been brought in stays until the `PROCESS_DONE` of its process. What is
in memory of process `i` are then the pages it has got past, and the one it is at if the MMU has seen the
request (`Resident`), and each of them has cost one page fault.
-/

namespace OSLab.Paging

variable {k m f : Nat} {refs : Nat → List Int} {pages : List Int} {s s' : Sys} {t : Mmu} {r : Request}
  {i : Nat} {page : Int}

/-- Memory has a frame for each page that some process refers to. -/
def EnoughFrames (k f : Nat) (refs : Nat → List Int) : Prop :=
  ∑ i ∈ Finset.range k, (refs i).toFinset.card ≤ f

instance (k f : Nat) (refs : Nat → List Int) : Decidable (EnoughFrames k f refs) :=
  inferInstanceAs (Decidable (_ ≤ _))

/-- The pages of process `i` that are in memory. -/
def residentPages (m : Nat) (t : Mmu) (i : Nat) : Finset Int :=
  ((Finset.range m).filter fun q : Nat => (t.pageTable (i * m + q)).valid = true).image
    fun q : Nat => (q : Int)

theorem mem_residentPages :
    page ∈ residentPages m t i
      ↔ (0 ≤ page ∧ page < m) ∧ (t.pageTable (i * m + page)).valid = true := by
  simp only [residentPages, Finset.mem_image, Finset.mem_filter, Finset.mem_range]
  constructor
  · rintro ⟨q, ⟨hlt, hv⟩, rfl⟩
    exact ⟨⟨by omega, by omega⟩, hv⟩
  · rintro ⟨⟨h0, hlt⟩, hv⟩
    obtain ⟨q, rfl⟩ := Int.eq_ofNat_of_zero_le h0
    exact ⟨q, ⟨by omega, hv⟩, rfl⟩

/-! ## The counters -/

/-- The handler changes the free list and the table only. -/
theorem pageFaultHandler_changes (m : Nat) (t : Mmu) (id p : Int) :
    ∃ fl pt, (pageFaultHandler m t id p).1 = { t with freeList := fl, pageTable := pt } := by
  unfold pageFaultHandler
  split
  · exact ⟨t.freeList, _, rfl⟩
  · exact ⟨_, t.pageTable, rfl⟩

/-- What a request adds to the two counters of each process and to the clock. -/
theorem serveRequest_counters (m : Nat) (t : Mmu) (r : Request) :
    (∀ id, (serveRequest m t (some r)).1.pageFaults id
        = t.pageFaults id + if id = r.id ∧ FaultsOn m t r.id r.page then 1 else 0)
      ∧ (∀ id, (serveRequest m t (some r)).1.invalidPageReferences id
        = t.invalidPageReferences id
          + if id = r.id ∧ ¬ r.IsDone ∧ ¬ Accepted t r.id r.page then 1 else 0)
      ∧ (serveRequest m t (some r)).1.timeStamp = t.timeStamp + if r.IsDone then 0 else 1 := by
  have hserve : serveRequest m t (some r) = serve m t r.id r.page := rfl
  have hupdate : ∀ (g : Int → Nat) (id : Int),
      Function.update g r.id (g r.id + 1) id = g id + if id = r.id then 1 else 0 := by
    intro g id
    by_cases hid : id = (r.id : Int)
    · rw [hid, Function.update_self, if_pos rfl]
    · rw [Function.update_of_ne hid, if_neg hid, Nat.add_zero]
  rw [hserve]
  rcases serve_cases m t r.page (Int.natCast_nonneg r.id) with
    hd | ⟨hd, hacc, hs⟩ | ⟨hf, hs⟩ | ⟨hacc, hv, hs⟩
  · have hdone : r.IsDone := hd
    have hnot : ¬ Accepted t r.id r.page := not_accepted_of_isDone hdone
    have hfault : ¬ FaultsOn m t r.id r.page := fun hf => hnot hf.1
    obtain ⟨fl, pt, hfree⟩ := freePages_frame m t r.id
    rw [hd, serve_done, hfree]
    rw [hd] at hfault
    simp [hdone, hfault]
  · have hdone : ¬ r.IsDone := hd
    have hfault : ¬ FaultsOn m t r.id r.page := fun hf => hacc hf.1
    obtain ⟨fl, pt, hfree⟩ := freePages_frame m { t.tick with
      invalidPageReferences := Function.update t.tick.invalidPageReferences r.id
        (t.tick.invalidPageReferences r.id + 1) } r.id
    rw [hs, serveInvalid]
    simp only [hfree]
    simp [hdone, hacc, hfault, hupdate, Mmu.tick]
  · have hdone : ¬ r.IsDone := fun hd => not_accepted_of_isDone hd hf.1
    obtain ⟨fl, pt, hhandler⟩ := pageFaultHandler_changes m { t.tick with
      pageFaults := Function.update t.tick.pageFaults r.id (t.tick.pageFaults r.id + 1) } r.id r.page
    rw [hs, servePageFault]
    simp only [hhandler]
    simp [hdone, hf, hf.1, hupdate, Mmu.tick, Mmu.setEntry]
  · have hdone : ¬ r.IsDone := fun hd => not_accepted_of_isDone hd hacc
    have hfault : ¬ FaultsOn m t r.id r.page := fun hf => by simp [hf.2] at hv
    rw [hs, serveHit]
    simp [hdone, hacc, hfault, Mmu.tick, Mmu.setEntry]

/-! ## The rows -/

theorem residentPages_congr {t' : Mmu}
    (h : ∀ page : Int, 0 ≤ page → page < m → (t'.pageTable (i * m + page)).valid
      = (t.pageTable (i * m + page)).valid) : residentPages m t' i = residentPages m t i := by
  ext page
  rw [mem_residentPages, mem_residentPages]
  refine and_congr_right fun hpage => ?_
  rw [h page hpage.1 hpage.2]

/-- A request of another process leaves row `i` alone. -/
theorem residentPages_other (hpages : ∀ id, (t.pcbAt id).m ≤ m)
    (hstays : ¬ LeavesRow m t r.id r.page) (hne : r.id ≠ i) :
    residentPages m (serveRequest m t (some r)).1 i = residentPages m t i := by
  refine residentPages_congr fun page h0 hlt => ?_
  rw [(isolated_of_not_leavesRow hpages hstays).frame]
  intro hrow
  have hown : InRow m i (i * m + page) := ⟨by omega, by omega⟩
  exact hne (by exact_mod_cast inRow_unique hrow hown)

/-- A `PROCESS_DONE` empties its row. -/
theorem residentPages_done (h : r.IsDone) :
    residentPages m (serveRequest m t (some r)).1 r.id = ∅ := by
  have hserve : serveRequest m t (some r) = serve m t r.id r.page := rfl
  rw [Finset.eq_empty_iff_forall_notMem]
  intro page hpage
  obtain ⟨⟨h0, hlt⟩, hv⟩ := mem_residentPages.mp hpage
  have hrow : InRow m r.id (r.id * m + page) := ⟨by omega, by omega⟩
  rw [hserve, h, serve_done] at hv
  simp only [freePages_pageTable, if_pos hrow] at hv
  cases hv

/-- A legal request that does not evict brings its page in, and nothing else goes. -/
theorem residentPages_request (hpage : Legal t i page ∧ page < 128)
    (hpages : ∀ id, (t.pcbAt id).m ≤ m) (hfree : FaultsOn m t i page → ¬ Evicts t i) :
    residentPages m (serveRequest m t (some ⟨i, page⟩)).1 i = insert page (residentPages m t i) := by
  have hread := page_eq i ⟨hpage.1.1, hpage.2⟩
  have hlt : page < m := lt_of_lt_of_le hpage.1.2 (hpages i)
  have hserve : serveRequest m t (some ⟨i, page⟩) = serve m t i page :=
    congrArg (serve m t i) hread
  have hacc : Accepted t i page := ⟨hpage.1.1, hpage.1.2.le⟩
  ext q
  rw [Finset.mem_insert, mem_residentPages, mem_residentPages]
  by_cases hq : q = page
  · subst hq
    exact iff_of_true ⟨⟨hpage.1.1, hlt⟩, valid_own hpage⟩ (.inl rfl)
  · have hne : (i : Int) * m + q ≠ i * m + page := fun hc => hq (by omega)
    have hvalid : ((serve m t i page).1.pageTable (i * m + q)).valid
        = (t.pageTable (i * m + q)).valid := by
      by_cases hv : (t.pageTable (i * m + page)).valid = true
      · rw [serve_hit hacc hv, serveHit_pageTable, if_neg hne]
        rfl
      · have hf : FaultsOn m t i page := ⟨hacc, by simpa using hv⟩
        have hev : ¬ Evicts t.tick i := hfree hf
        rw [serve_fault hf, servePageFault_pageTable _ _ _ _ hne, if_neg (fun hc => hev hc.1)]
        rfl
    rw [hserve, hvalid, or_iff_right hq]

/-! ## The frames in use -/

/-- The frames in the table are as many as the pages in memory. -/
theorem card_tableFrames (k m : Nat) (t : Mmu) :
    Multiset.card (tableFrames (k * m) t.pageTable)
      = ∑ i ∈ Finset.range k, (residentPages m t i).card := by
  have hrow : ∀ i : Nat, (residentPages m t i).card
      = ∑ q ∈ Finset.range m, Multiset.card (t.pageTable ((i * m + q : Nat) : Int)).frames := by
    intro i
    rw [residentPages, Finset.card_image_of_injective _ Nat.cast_injective, Finset.card_filter]
    refine Finset.sum_congr rfl fun q _ => ?_
    push_cast
    unfold PageTableEntry.frames
    split <;> rfl
  rw [tableFrames, Multiset.card_sum]
  simp only [hrow]
  induction k with
  | zero => simp
  | succ k ih =>
      rw [Nat.succ_mul, Finset.sum_range_add, ih, Finset.sum_range_succ]

/-- Free frames and pages in memory together are all the frames. -/
theorem Owned.frames_in_use (h : Owned k m f t) :
    (t.freeList.current + 1).toNat + ∑ i ∈ Finset.range k, (residentPages m t i).card = f := by
  have hcard := congrArg Multiset.card h.held
  rwa [heldFrames, Multiset.card_add, card_tableFrames, freeFrames, Multiset.card_map,
    Multiset.card_range, Multiset.card_map, Multiset.card_range] at hcard

/-! ## What the MMU has served -/

/-- The requests for a page of process `i` that the MMU has received. -/
def Sys.served (s : Sys) (i : Nat) : Nat :=
  s.handled.countP (fun r => r.id = i ∧ ¬ r.IsDone) + match s.mmuPc with
    | .idle => 0
    | .serving r _ => if r.id = i ∧ ¬ r.IsDone then 1 else 0

/-- The requests of process `i` in the queue. -/
def Sys.own (s : Sys) (i : Nat) : List Request := s.requests.filter fun r => r.id = i

theorem mem_own : r ∈ s.own i ↔ r ∈ s.requests ∧ r.id = i := by
  rw [Sys.own, List.mem_filter, decide_eq_true_eq]

/-- Nothing changes that matters to the pages of process `i`. -/
structure SamePages (i : Nat) (s s' : Sys) : Prop where
  session : SameSession i s s'
  own : s'.own i = s.own i
  served : s'.served i = s.served i

theorem samePages_mmuMove (hc : Calls k s) (i : Nat) (hm : MmuMove k m s s') :
    SamePages i s s'
      ∨ ∃ r rest, s.mmuPc = .idle ∧ s.requests = r :: rest ∧ s' = s.receive m r rest := by
  have hsession := session_mmuMove hc i hm
  have hbusy : ∀ {r : Request} {outs : List Out}, s.mmuPc = .serving r outs →
      ¬ ∃ r rest, s.mmuPc = .idle ∧ s.requests = r :: rest ∧ s' = s.receive m r rest := by
    rintro r outs hpc ⟨-, -, hidle, -⟩
    rw [hpc] at hidle
    cases hidle
  cases hm with
  | receive r rest hpc _ hreq => exact .inr ⟨r, rest, hpc, hreq, rfl⟩
  | silent r hpc =>
      refine .inl ⟨hsession.resolve_right (hbusy hpc), rfl, ?_⟩
      simp [Sys.served, Sys.finish, hpc, List.countP_append, List.countP_singleton]
  | last r o hpc =>
      refine .inl ⟨hsession.resolve_right (hbusy hpc), ?_, ?_⟩
      · simp only [Sys.own, Sys.finish, post_requests]
      · simp [Sys.served, Sys.finish, hpc, List.countP_append, List.countP_singleton]
  | send r o o' outs hpc =>
      refine .inl ⟨hsession.resolve_right (hbusy hpc), ?_, ?_⟩
      · simp only [Sys.own, post_requests]
      · simp [Sys.served, hpc]

theorem samePages_procMove {j : Nat} {pages : List Int} (hji : j ≠ i) (hm : ProcMove pages j s s') :
    SamePages i s s' := by
  refine ⟨sameSession_procMove hji hm, ?_, ?_⟩
  · cases hm <;> simp [Sys.own, hji]
  · cases hm <;> rfl

/-- **What a step is to the pages of process `i`.** -/
theorem pages_cases (hc : Calls k s) (i : Nat) {a : Party}
    (h : (pagingMachine k m f refs).next s a = some s') :
    (i < k ∧ ProcMove (refs i) i s s') ∨ SamePages i s s'
      ∨ ∃ r rest, s.mmuPc = .idle ∧ s.requests = r :: rest ∧ s' = s.receive m r rest := by
  rcases pagingMachine_cases h with ⟨j, hj, -, hm⟩ | ⟨-, hm⟩ | ⟨-, hm⟩
  · by_cases hji : j = i
    · subst hji
      exact .inl ⟨hj, hm⟩
    · exact .inr (.inl (samePages_procMove hji hm))
  · refine .inr (.inl ⟨sameSession_schedMove i hm, ?_, ?_⟩)
    · cases hm <;> rfl
    · cases hm <;> rfl
  · exact .inr (samePages_mmuMove hc i hm)

/-! ## A process and its pages -/

/-- The references a process of `n` references has got past. -/
def ProcPc.passed (n : Nat) : ProcPc → Nat
  | .register | .awaitDispatch => 0
  | .request count | .awaitReply count => count
  | .done | .exited => n

/-- A reply under way: the page is in memory, and the process gets a frame or is to ask again. -/
def BroughtIn (m : Nat) (t : Mmu) (i : Nat) (page x : Int) : Prop :=
  page ∈ residentPages m t i ∧ (0 ≤ x ∨ x = PAGE_FAULT)

/-- The MMU has not received the `PROCESS_DONE` of process `i`: what is in memory has cost a fault each,
and the pages the process has got past are. -/
structure Present (m : Nat) (pages : List Int) (i : Nat) (s : Sys) : Prop where
  faults : s.mmu.pageFaults i = (residentPages m s.mmu i).card
  passed : ∀ q ∈ pages.take ((s.proc i).passed pages.length), q ∈ residentPages m s.mmu i
  exiting : s.proc i = .exited → ∃ r ∈ s.own i, r.IsDone

/-- The MMU has received the `PROCESS_DONE` of process `i`. -/
structure Gone (m : Nat) (pages : List Int) (i : Nat) (s : Sys) : Prop where
  exited : s.proc i = .exited
  faults : s.mmu.pageFaults i = pages.toFinset.card
  freed : residentPages m s.mmu i = ∅
  last : s.own i = []

/-- A process and its pages. Each of the references it has got past has been served once with a frame, and
each page in memory once with a page fault before that. -/
structure Holds (m : Nat) (pages : List Int) (i : Nat) (s : Sys) : Prop where
  call : InCall pages i (BroughtIn m s.mmu i) s
  subset : residentPages m s.mmu i ⊆ pages.toFinset
  reached : (s.proc i).passed pages.length ≤ pages.length
  served : s.served i = (s.proc i).passed pages.length + s.mmu.pageFaults i
    + (s.answers i).countP fun x => 0 ≤ x
  legal : s.mmu.invalidPageReferences i = 0
  state : Present m pages i s ∨ Gone m pages i s

/-- When all references are behind the process, all its pages are in memory. -/
theorem Present.all (h : Present m pages i s) (hsub : residentPages m s.mmu i ⊆ pages.toFinset)
    (hpassed : (s.proc i).passed pages.length = pages.length) :
    residentPages m s.mmu i = pages.toFinset := by
  refine hsub.antisymm fun q hq => h.passed q ?_
  rw [hpassed, List.take_length]
  exact List.mem_toFinset.mp hq

theorem Holds.same (h : Holds m pages i s) (hs : SamePages i s s') : Holds m pages i s' := by
  have hsession := hs.session
  constructor
  case call => exact hsession.mmu ▸ h.call.same hsession
  case subset => exact hsession.mmu ▸ h.subset
  case reached => exact hsession.proc ▸ h.reached
  case served =>
    rw [hs.served, hsession.proc, hsession.mmu, hsession.answers]
    exact h.served
  case legal => exact hsession.mmu ▸ h.legal
  case state =>
    refine h.state.imp (fun hp => ⟨?_, ?_, ?_⟩) (fun hg => ⟨?_, ?_, ?_, ?_⟩)
    · exact hsession.mmu ▸ hp.faults
    · rw [hsession.proc, hsession.mmu]
      exact hp.passed
    · rw [hsession.proc, hs.own]
      exact hp.exiting
    · exact hsession.proc.trans hg.exited
    · exact hsession.mmu ▸ hg.faults
    · exact hsession.mmu ▸ hg.freed
    · exact hs.own.trans hg.last

/-- The process moves, and has not exited before. -/
theorem Holds.moved {pc : ProcPc} (h : Holds m pages i s)
    (hcall : InCall pages i (BroughtIn m s.mmu i) s') (hmmu : s'.mmu = s.mmu)
    (hserved : s'.served i = s.served i) (hpc : s.proc i ≠ .exited) (hproc : s'.proc i = pc)
    (hreached : pc.passed pages.length ≤ pages.length)
    (hframes : pc.passed pages.length + (s'.answers i).countP (fun x => 0 ≤ x)
      = (s.proc i).passed pages.length + (s.answers i).countP fun x => 0 ≤ x)
    (hpassed : ∀ q ∈ pages.take (pc.passed pages.length), q ∈ residentPages m s.mmu i)
    (hexit : pc = .exited → ∃ r ∈ s'.own i, r.IsDone) : Holds m pages i s' := by
  have hpresent := h.state.resolve_right fun hg => hpc hg.exited
  subst hproc
  constructor
  case call => exact hmmu ▸ hcall
  case subset => exact hmmu ▸ h.subset
  case reached => exact hreached
  case served =>
    have hbefore := h.served
    rw [hserved, hmmu]
    omega
  case legal => exact hmmu ▸ h.legal
  case state => exact .inl ⟨hmmu ▸ hpresent.faults, hmmu ▸ hpassed, hexit⟩

theorem holds_procMove (hc : Calls k s) (hi : i < k) (h : Holds m pages i s)
    (hm : ProcMove pages i s s') : Holds m pages i s' := by
  have hcall : InCall pages i (BroughtIn m s.mmu i) s' := inCall_procMove hc hi hm
  have hreached := h.reached
  have hpassed : s.proc i ≠ .exited →
      ∀ q ∈ pages.take ((s.proc i).passed pages.length), q ∈ residentPages m s.mmu i := fun hpc =>
    (h.state.resolve_right fun hg => hpc hg.exited).passed
  cases hm with
  | register hpc | dispatched hpc _ =>
      have hne : s.proc i ≠ .exited := by simp [hpc]
      have hpassed := hpassed hne
      rw [hpc] at hpassed hreached
      apply h.moved hcall rfl rfl hne (Function.update_self ..) hreached
      · rw [hpc]
        rfl
      · exact hpassed
      · intro he
        cases he
  | ask count page hpc hpage =>
      have hne : s.proc i ≠ .exited := by simp [hpc]
      have hpassed := hpassed hne
      rw [hpc] at hpassed hreached
      apply h.moved hcall rfl rfl hne (Function.update_self ..) hreached
      · rw [hpc]
        rfl
      · exact hpassed
      · intro he
        cases he
  | leave count hpc hpage =>
      -- it has got past all its references
      have hne : s.proc i ≠ .exited := by simp [hpc]
      have hpassed := hpassed hne
      rw [hpc] at hpassed hreached
      have hcount : count = pages.length :=
        le_antisymm hreached (List.getElem?_eq_none_iff.mp hpage)
      subst hcount
      apply h.moved hcall rfl rfl hne (Function.update_self ..) (Nat.le_refl _)
      · rw [hpc]
        rfl
      · exact hpassed
      · intro he
        cases he
  | exit hpc =>
      have hne : s.proc i ≠ .exited := by simp [hpc]
      have hpassed := hpassed hne
      rw [hpc] at hpassed hreached
      apply h.moved hcall rfl rfl hne (Function.update_self ..) hreached
      · rw [hpc]
        rfl
      · exact hpassed
      · refine fun _ => ⟨⟨i, PROCESS_DONE⟩, ?_, rfl⟩
        exact mem_own.mpr ⟨List.mem_append_right _ (List.mem_singleton_self _), rfl⟩
  | answered count x rest hpc hr =>
      obtain ⟨page, hpage, hin, hx⟩ := h.call.received hpc hr
      have hne : s.proc i ≠ .exited := by simp [hpc]
      have hlt := (List.getElem?_eq_some_iff.mp hpage).1
      have hpassed := hpassed hne
      rw [hpc] at hpassed
      rcases hx with hx | rfl
      · -- a frame: on to the next reference
        have hnext : afterReply count x = .request (count + 1) := by
          rw [afterReply, if_neg (by rw [PAGE_FAULT]; omega),
            if_neg (by rw [INVALID_PAGE_NUMBER]; omega)]
        apply h.moved hcall rfl rfl hne ((Function.update_self ..).trans hnext) hlt
        · simp only [Sys.answers, hr, hpc, Function.update_self, ProcPc.passed, List.cons_append,
            List.countP_cons_of_pos (p := fun x : Int => decide (0 ≤ x)) (decide_eq_true hx)]
          omega
        · simp only [ProcPc.passed, List.take_add_one, hpage]
          intro q hq
          rcases List.mem_append.mp hq with hq | hq
          · exact hpassed q hq
          · rwa [List.mem_singleton.mp hq]
        · intro he
          cases he
      · -- a page fault: the same reference again
        have hnext : afterReply count PAGE_FAULT = .request count := if_pos rfl
        apply h.moved hcall rfl rfl hne ((Function.update_self ..).trans hnext) hlt.le
        · simp [Sys.answers, hr, hpc, ProcPc.passed, PAGE_FAULT]
        · exact hpassed
        · intro he
          cases he

/-! ## The MMU receives a request -/

/-- A reply that is neither about an illegal page nor about a fault is a frame. -/
theorem frame_of_reply {id x : Int} (hframed : Framed t) (hr : r.IsDone ∨ Accepted t r.id r.page)
    (hf : ¬ FaultsOn m t r.id r.page) (h : Out.reply id x ∈ (serveRequest m t (some r)).2) : 0 ≤ x := by
  have hd : ¬ r.IsDone := by
    intro hd
    rw [(wellServed_serveRequest m t r).1 hd] at h
    simp at h
  rcases (reply_serveRequest h).2 with ⟨hno, -⟩ | ⟨hf', -⟩ | ⟨-, hv, hx⟩
  · exact absurd hr (not_or.mpr ⟨hd, hno⟩)
  · exact absurd hf' hf
  · exact (hframed.entries _ hv).trans_eq hx.symm

/-- A request for a page of the process is answered with a frame, or it is a page fault. -/
theorem frames_sent (hframed : Framed t) (hr : r.IsDone ∨ Accepted t r.id r.page) (i : Nat) :
    ((serveRequest m t (some r)).2.filterMap (Out.replyTo i)).countP (fun x => 0 ≤ x)
        + (if r.id = i ∧ FaultsOn m t r.id r.page then 1 else 0)
      = if r.id = i ∧ ¬ r.IsDone then 1 else 0 := by
  by_cases hi : r.id = i
  · subst hi
    rcases serveRequest_outs m t r with
      ⟨hd, ho⟩ | ⟨hd, hacc, -⟩ | ⟨hd, hf, ho⟩ | ⟨hd, -, hf, x, ho⟩
    · have hfault : ¬ FaultsOn m t r.id r.page := fun hf => not_accepted_of_isDone hd hf.1
      simp [ho, hd, hfault, Out.replyTo]
    · exact absurd hr (not_or.mpr ⟨hd, hacc⟩)
    · simp [ho, hd, hf, Out.replyTo, List.filterMap_cons, PAGE_FAULT]
    · have hx := frame_of_reply hframed hr hf (by simp [ho] : Out.reply r.id x ∈ _)
      simp [ho, hd, hf, Out.replyTo, hx]
  · have hother : (serveRequest m t (some r)).2.filterMap (Out.replyTo i) = [] := by
      rw [List.filterMap_eq_nil_iff]
      intro o ho
      cases o with
      | notify type => rfl
      | reply id x =>
          have hid := (wellServed_serveRequest m t r).2 id x ho
          exact if_neg fun hc => hi (by rw [hid] at hc; exact_mod_cast hc)
    simp [hother, hi]

/-- The page of a legal request is in memory or is faulted on. -/
theorem faultsOn_iff (hpage : Legal t i page) (hpages : ∀ id, (t.pcbAt id).m ≤ m) :
    FaultsOn m t i page ↔ page ∉ residentPages m t i := by
  have hlt : page < m := lt_of_lt_of_le hpage.2 (hpages i)
  have hacc : Accepted t i page := ⟨hpage.1, hpage.2.le⟩
  simp [FaultsOn, mem_residentPages, hacc, hpage.1, hlt]

section Receive

variable {rest : List Request} (h : Holds m pages i s) (hidle : s.mmuPc = .idle)
  (hreq : s.requests = r :: rest) (hpages : ∀ id, (s.mmu.pcbAt id).m ≤ m) (hframed : Framed s.mmu)
  (hacc : r.IsDone ∨ Accepted s.mmu r.id r.page)

include h hidle hframed hacc

/-- What the MMU has served of process `i` and what it answers go together. -/
theorem served_receive :
    (s.receive m r rest).served i = (s.proc i).passed pages.length
      + (s.receive m r rest).mmu.pageFaults i
      + ((s.receive m r rest).answers i).countP fun x => 0 ≤ x := by
  have hserved := h.served
  have hfaults := (serveRequest_counters m s.mmu r).1 i
  have hsent := frames_sent (m := m) hframed hacc i
  have hcast : ((i : Int) = r.id ∧ FaultsOn m s.mmu r.id r.page)
      ↔ (r.id = i ∧ FaultsOn m s.mmu r.id r.page) := by
    refine and_congr_left fun _ => ?_
    rw [eq_comm, Nat.cast_inj]
  simp only [hcast] at hfaults
  simp only [Sys.served, Sys.receive, Sys.answers, MmuPc.answersTo, List.countP_append, hidle,
    List.append_nil, Nat.add_zero] at hserved ⊢
  omega

include hreq hpages

/-- The request is one of another process. -/
theorem holds_receive_other (hstays : ¬ LeavesRow m s.mmu r.id r.page) (hne : r.id ≠ i) :
    Holds m pages i (s.receive m r rest) := by
  have hrow : residentPages m (s.receive m r rest).mmu i = residentPages m s.mmu i :=
    residentPages_other hpages hstays hne
  obtain ⟨hfaults, hlegal, -⟩ := serveRequest_counters m s.mmu r
  have hcast : ¬ (i : Int) = r.id := fun hc => hne (by exact_mod_cast hc.symm)
  have hsame : (s.receive m r rest).mmu.pageFaults i = s.mmu.pageFaults i := by
    have := hfaults i
    rwa [if_neg (fun hc => hcast hc.1)] at this
  have hown : (s.receive m r rest).own i = s.own i := by
    rw [Sys.own, Sys.own, hreq, List.filter_cons_of_neg (by simp [hne])]
    rfl
  constructor
  case call =>
    refine inCall_receive h.call hreq ?_ ?_
    · rintro count page x - - ⟨hin, hx⟩
      exact ⟨hrow.symm ▸ hin, hx⟩
    · rintro count page x rfl
      exact absurd rfl hne
  case subset => exact hrow.symm ▸ h.subset
  case reached => exact h.reached
  case served => exact served_receive h hidle hframed hacc
  case legal =>
    have := hlegal i
    rw [if_neg (fun hc => hcast hc.1)] at this
    exact this.trans h.legal
  case state =>
    refine h.state.imp (fun hp => ⟨?_, ?_, ?_⟩) (fun hg => ⟨?_, ?_, ?_, ?_⟩)
    · rw [hsame, hrow]
      exact hp.faults
    · rw [hrow]
      exact hp.passed
    · rw [hown]
      exact hp.exiting
    · exact hg.exited
    · exact hsame.trans hg.faults
    · exact hrow.trans hg.freed
    · exact hown.trans hg.last

omit hpages in
/-- The request is the `PROCESS_DONE` of the process. -/
theorem holds_receive_done (hc : Calls k s) (hd : r.IsDone) (hri : r.id = i)
    (hpc : s.proc i = .exited) : Holds m pages i (s.receive m r rest) := by
  have hmem : r ∈ s.own i := mem_own.mpr ⟨by simp [hreq], hri⟩
  have hpresent : Present m pages i s := by
    refine h.state.resolve_right fun hg => ?_
    rw [hg.last] at hmem
    cases hmem
  obtain ⟨hfaults, hlegal, -⟩ := serveRequest_counters m s.mmu r
  have hfreed : residentPages m (s.receive m r rest).mmu i = ∅ := by
    rw [← hri]
    exact residentPages_done hd
  have hnot : ¬ FaultsOn m s.mmu r.id r.page := fun hf => not_accepted_of_isDone hd hf.1
  have hall := hpresent.all h.subset (by rw [hpc]; rfl)
  -- it was the one open call of the process
  have hlast : (s.receive m r rest).own i = [] := by
    have hone := hc.atMostOne i
    simp only [Sys.openCalls, hreq, List.countP_cons, hri, decide_true, if_true] at hone
    have hnone : rest.countP (fun q => q.id = i) = 0 := by omega
    rw [List.countP_eq_length_filter] at hnone
    exact List.eq_nil_of_length_eq_zero hnone
  constructor
  case call =>
    refine inCall_receive h.call hreq ?_ ?_
    · intro count page x hwait
      rw [hpc] at hwait
      cases hwait
    · intro count page x _ hnd
      exact absurd hd hnd
  case subset =>
    rw [hfreed]
    exact Finset.empty_subset _
  case reached => exact h.reached
  case served => exact served_receive h hidle hframed hacc
  case legal =>
    have := hlegal i
    rw [if_neg (fun hc => hc.2.1 hd)] at this
    exact this.trans h.legal
  case state =>
    refine .inr ⟨hpc, ?_, hfreed, hlast⟩
    have := hfaults i
    rw [if_neg (fun hc => hnot hc.2)] at this
    rw [← hall]
    exact this.trans hpresent.faults

/-- The request is one of the process, for a page. -/
theorem holds_receive_page (hfree : FaultsOn m s.mmu r.id r.page → ¬ Evicts s.mmu r.id)
    (hlegal : ∀ page ∈ pages, Legal s.mmu i page ∧ page < 128) (hd : ¬ r.IsDone) (hri : r.id = i) :
    Holds m pages i (s.receive m r rest) := by
  obtain ⟨count, hwait, hget⟩ := h.call.asks r (mem_asks hreq hri hd)
  obtain ⟨page, rfl⟩ : ∃ page, r = ⟨i, page⟩ := ⟨r.pageNumber, by rw [← hri]⟩
  have hmem := List.mem_of_getElem? hget
  have hpage := hlegal page hmem
  have hread := page_eq i ⟨hpage.1.1, hpage.2⟩
  rw [hread] at hfree hacc
  have hrow : residentPages m (s.receive m ⟨i, page⟩ rest).mmu i
      = insert page (residentPages m s.mmu i) := residentPages_request hpage hpages hfree
  have hpresent : Present m pages i s := by
    refine h.state.resolve_right fun hg => ?_
    rw [hg.exited] at hwait
    cases hwait
  obtain ⟨hfaults, hinvalid, -⟩ := serveRequest_counters m s.mmu ⟨i, page⟩
  rw [hread] at hfaults hinvalid
  constructor
  case call =>
    refine inCall_receive h.call hreq ?_ ?_
    · rintro count page x - - ⟨hin, hx⟩
      rw [BroughtIn, hrow]
      exact ⟨Finset.mem_insert_of_mem hin, hx⟩
    · rintro c q x hq - hc hq' hx
      obtain rfl : page = q := by
        cases hq
        rfl
      rw [BroughtIn, hrow]
      refine ⟨Finset.mem_insert_self .., ?_⟩
      rcases (reply_serveRequest hx).2 with ⟨hno, -⟩ | ⟨-, hx⟩ | ⟨-, hv, hx⟩
      · rw [hread] at hno
        exact absurd ⟨hpage.1.1, hpage.1.2.le⟩ hno
      · exact .inr hx
      · exact .inl ((hframed.entries _ hv).trans_eq hx.symm)
  case subset =>
    rw [hrow]
    exact Finset.insert_subset (List.mem_toFinset.mpr hmem) h.subset
  case reached => exact h.reached
  case served => exact served_receive h hidle hframed (by rw [hread]; exact hacc)
  case legal =>
    have := hinvalid i
    rw [if_neg (fun hc => hc.2.2 ⟨hpage.1.1, hpage.1.2.le⟩)] at this
    exact this.trans h.legal
  case state =>
    refine .inl ⟨?_, ?_, ?_⟩
    · -- a page that was not in memory has cost a fault
      have hcount := hfaults i
      have hbefore := hpresent.faults
      have hmmu : (s.receive m ⟨i, page⟩ rest).mmu
          = (serveRequest m s.mmu (some ⟨i, page⟩)).1 := rfl
      rw [hrow, hmmu, hcount, hbefore]
      by_cases hin : page ∈ residentPages m s.mmu i
      · rw [Finset.insert_eq_of_mem hin,
          if_neg (fun hc => (faultsOn_iff hpage.1 hpages).mp hc.2 hin)]
        rfl
      · rw [Finset.card_insert_of_notMem hin,
          if_pos ⟨rfl, (faultsOn_iff hpage.1 hpages).mpr hin⟩]
    · rw [hrow]
      exact fun q hq => Finset.mem_insert_of_mem (hpresent.passed q hq)
    · intro hpc
      have hwait' : (s.receive m ⟨i, page⟩ rest).proc i = .awaitReply count := hwait
      rw [hwait'] at hpc
      cases hpc

end Receive

/-! ## The system -/

/-- The references are legal, every process may have a frame, and there is one for each page. -/
structure Fits (k f : Nat) (refs : Nat → List Int) (t : Mmu) : Prop where
  legal : LegalRefs k refs t
  entitled : Entitled k t
  frames : EnoughFrames k f refs

/-- What a run keeps. -/
structure Resident (k m f : Nat) (refs : Nat → List Int) (s : Sys) : Prop where
  counts : ∀ id, (s.mmu.pcbAt id).m ≤ m
  framed : Framed s.mmu
  owned : Owned k m f s.mmu
  holds : ∀ i < k, Holds m (refs i) i s

theorem Fits.of_pcb {t t' : Mmu} (h : Fits k f refs t') (hpcb : t'.pcb = t.pcb) : Fits k f refs t where
  legal := by
    intro j hj page hpage
    have hp := h.legal j hj page hpage
    unfold Legal at hp ⊢
    rwa [pcbAt_congr hpcb] at hp
  entitled := by
    intro id h0 hlt
    have he := h.entitled id h0 hlt
    rwa [pcbAt_congr hpcb] at he
  frames := h.frames

/-- **A fault finds a free frame**: otherwise all frames would hold pages that are referred to, and the
page of the fault would be one more. -/
theorem Resident.not_evicts (h : Resident k m f refs s) (hu : Fits k f refs s.mmu) (hi : i < k)
    (hpage : page ∈ refs i) (hf : FaultsOn m s.mmu i page) : ¬ Evicts s.mmu i := by
  rintro (hempty | hquota)
  · have hlegal := (hu.legal i hi page hpage).1
    have hnot := (faultsOn_iff hlegal h.counts).mp hf
    have hlt : ∑ j ∈ Finset.range k, (residentPages m s.mmu j).card
        < ∑ j ∈ Finset.range k, (refs j).toFinset.card := by
      refine Finset.sum_lt_sum (fun j hj => ?_) ⟨i, Finset.mem_range.mpr hi, ?_⟩
      · exact Finset.card_le_card (h.holds j (Finset.mem_range.mp hj)).subset
      · refine Finset.card_lt_card (Finset.ssubset_iff_of_subset (h.holds i hi).subset |>.mpr ?_)
        exact ⟨page, List.mem_toFinset.mpr hpage, hnot⟩
    have huse := h.owned.frames_in_use
    have hframes := hu.frames
    rw [hempty] at huse
    unfold EnoughFrames at hframes
    omega
  · have := hu.entitled i (Int.natCast_nonneg i) (by exact_mod_cast hi)
    omega

/-- What the MMU receives is one of the references, or the last request of its process. -/
theorem request_fits (hc : Calls k s) (hfrom : FromRefs k refs s) (hu : Fits k f refs s.mmu)
    {rest : List Request} (hreq : s.requests = r :: rest) :
    r.id < k ∧ ((r.pageNumber = PROCESS_DONE ∧ s.proc r.id = .exited)
      ∨ (r.page = r.pageNumber ∧ r.page ∈ refs r.id ∧ Legal s.mmu r.id r.page)) := by
  rcases hfrom r (by simp [hreq]) with ⟨hd, hpc⟩ | ⟨hid, hmem⟩
  · refine ⟨?_, .inl ⟨hd, hpc⟩⟩
    by_contra hk
    rw [hc.outside r.id (by omega)] at hpc
    cases hpc
  · obtain ⟨hpage, hsmall⟩ := hu.legal r.id hid r.pageNumber hmem
    have hread : r.page = r.pageNumber := page_eq r.id ⟨hpage.1, hsmall⟩
    refine ⟨hid, .inr ⟨hread, ?_, ?_⟩⟩
    · rwa [hread]
    · rwa [hread]

theorem resident_receive {rest : List Request} (hc : Calls k s) (hfrom : FromRefs k refs s)
    (hu : Fits k f refs s.mmu) (h : Resident k m f refs s) (hidle : s.mmuPc = .idle)
    (hreq : s.requests = r :: rest) : Resident k m f refs (s.receive m r rest) := by
  obtain ⟨hid, hfits⟩ := request_fits hc hfrom hu hreq
  have hcase := hfits.imp_left (And.imp_left isDone_of_sent)
  have hfree : FaultsOn m s.mmu r.id r.page → ¬ Evicts s.mmu r.id := by
    intro hf
    rcases hcase with ⟨hd, -⟩ | ⟨-, hmem, -⟩
    · exact absurd hf.1 (not_accepted_of_isDone hd)
    · exact h.not_evicts hu hid hmem hf
  have hacc : r.IsDone ∨ Accepted s.mmu r.id r.page :=
    hcase.imp And.left fun hp => ⟨hp.2.2.1, hp.2.2.2.le⟩
  have hstays : ¬ LeavesRow m s.mmu r.id r.page :=
    stays_of_legal h.counts (hcase.imp And.left fun hp => hp.2.2) fun hf => .inl (hfree hf)
  constructor
  case counts =>
    intro id
    have hpcb : (s.receive m r rest).mmu.pcb = s.mmu.pcb := serveRequest_pcb m s.mmu (some r)
    rw [pcbAt_congr hpcb]
    exact h.counts id
  case framed => exact framed_serveRequest h.framed r fun hf => .inl (hfree hf)
  case owned =>
    refine owned_serveRequest h.owned hu.entitled ?_ ?_
    · rintro q hq
      obtain rfl : r = q := Option.some.inj hq
      exact hid
    · intro hf
      refine ⟨fun hempty => hfree hf (.inl hempty), ?_⟩
      have hpos : 0 ≤ r.page := hf.1.1
      have hrow : InRow m r.id (r.id * m + r.page) := target_inRow h.counts hf.1 hstays
      have hlt : r.page.toNat < m := by
        have := hrow.2
        omega
      obtain ⟨x, hx, hindex⟩ := row_index (Int.natCast_nonneg r.id) (by exact_mod_cast hid) hlt
      rw [Int.toNat_of_nonneg hpos] at hindex
      show (r.id : Int) * m + r.page < k * m
      rw [hindex]
      exact_mod_cast hx
  case holds =>
    intro i hi
    by_cases hri : r.id = i
    · rcases hcase with ⟨hd, hpc⟩ | ⟨hread, -, hlegal⟩
      · exact holds_receive_done (h.holds i hi) hidle hreq h.framed hacc hc hd hri (hri ▸ hpc)
      · refine holds_receive_page (h.holds i hi) hidle hreq h.counts h.framed hacc hfree
          (hu.legal i hi) ?_ hri
        intro hd
        exact not_accepted_of_isDone hd ⟨hlegal.1, hlegal.2.le⟩
    · exact holds_receive_other (h.holds i hi) hidle hreq h.counts h.framed hacc hstays hri

theorem mmu_next {a : Party} (hc : Calls k s) (hs : (pagingMachine k m f refs).next s a = some s') :
    s'.mmu = s.mmu ∨ ∃ r rest, s.mmuPc = .idle ∧ s.requests = r :: rest ∧ s' = s.receive m r rest := by
  rcases pages_cases hc 0 hs with ⟨-, hm⟩ | hsame | hreceive
  · exact .inl (procMove_mmu hm)
  · exact .inl hsame.session.mmu
  · exact .inr hreceive

theorem resident_next {a : Party} (hc : Calls k s) (hfrom : FromRefs k refs s)
    (hu : Fits k f refs s.mmu) (h : Resident k m f refs s)
    (hs : (pagingMachine k m f refs).next s a = some s') : Resident k m f refs s' := by
  rcases mmu_next hc hs with hmmu | ⟨r, rest, hidle, hreq, rfl⟩
  · constructor
    case counts => exact hmmu ▸ h.counts
    case framed => exact hmmu ▸ h.framed
    case owned => exact hmmu ▸ h.owned
    case holds =>
      intro i hi
      rcases pages_cases hc i hs with ⟨-, hm⟩ | hsame | ⟨r, rest, hidle, hreq, rfl⟩
      · exact holds_procMove hc hi (h.holds i hi) hm
      · exact (h.holds i hi).same hsame
      · exact (resident_receive hc hfrom hu h hidle hreq).holds i hi
  · exact resident_receive hc hfrom hu h hidle hreq

theorem holds_start (pcb : List Pcb) : Holds m pages i (startSys k m f pcb) := by
  have hnone : residentPages m (startMmu k m f pcb) i = ∅ := by
    rw [Finset.eq_empty_iff_forall_notMem]
    intro page hpage
    have hv := (mem_residentPages.mp hpage).2
    simp only [startMmu, createPageTables] at hv
    split at hv <;> cases hv
  constructor
  case call => exact inCall_start pcb
  case subset =>
    rw [show (startSys k m f pcb).mmu = startMmu k m f pcb from rfl, hnone]
    exact Finset.empty_subset _
  case reached => exact Nat.zero_le _
  case served => rfl
  case legal => rfl
  case state =>
    refine .inl ⟨?_, ?_, ?_⟩
    · rw [show (startSys k m f pcb).mmu = startMmu k m f pcb from rfl, hnone]
      rfl
    · intro q hq
      cases hq
    · intro hpc
      cases hpc

theorem resident_reachable (h : (pagingMachine k m f refs).Reachable s)
    (hu : Fits k f refs s.mmu) : Resident k m f refs s := by
  have hruns : ∀ s, (pagingMachine k m f refs).Reachable s → Calls k s ∧ FromRefs k refs s :=
    fun s hs => ⟨calls_reachable hs, fromRefs_reachable hs⟩
  refine h.invariant_of hruns (I := fun s => Fits k f refs s.mmu → Resident k m f refs s) ?_ ?_ hu
  · rintro s ⟨pcb, hpcb, rfl⟩ -
    exact ⟨(clocked_start hpcb).pages, framed_start k m f pcb, owned_start pcb,
      fun i _ => holds_start pcb⟩
  · intro s a s' ⟨hc, hfrom⟩ hI _ hs hu'
    have hu := hu'.of_pcb (pcb_next hs)
    exact resident_next hc hfrom hu (hI hu) hs

/-- **Nothing is evicted** where memory has a frame for each page: every frame stays owned, a fault finds
a free one, and the pages a running process has got past are all in memory. -/
theorem nothing_evicted (h : (pagingMachine k m f refs).Reachable s) (hu : Fits k f refs s.mmu) :
    FrameOwnership k m f s.mmu
      ∧ (∀ i < k, ∀ page ∈ refs i, FaultsOn m s.mmu i page → ¬ Evicts s.mmu i)
      ∧ ∀ i < k, s.proc i ≠ .exited →
        ∀ page ∈ (refs i).take ((s.proc i).passed (refs i).length),
          (s.mmu.pageTable (i * m + page)).valid = true := by
  have hres := resident_reachable h hu
  refine ⟨hres.owned.ownership, fun i hi page hpage => hres.not_evicts hu hi hpage, ?_⟩
  intro i hi hpc page hpage
  have hpresent := (hres.holds i hi).state.resolve_right fun hg => hpc hg.exited
  exact (mem_residentPages.mp (hpresent.passed page hpage)).2

/-- A process that has exited: its pages are counted once. -/
theorem Holds.counts (h : Holds m pages i s) (hpc : s.proc i = .exited) :
    s.mmu.pageFaults i = pages.toFinset.card ∧ s.mmu.invalidPageReferences i = 0
      ∧ s.served i = pages.length + pages.toFinset.card := by
  have hanswers : s.answers i = [] := by
    refine List.eq_nil_iff_forall_not_mem.mpr fun x hx => ?_
    obtain ⟨count, page, hwait, -⟩ := h.call.answers x hx
    rw [hpc] at hwait
    cases hwait
  have hfaults : s.mmu.pageFaults i = pages.toFinset.card := by
    rcases h.state with hp | hg
    · rw [hp.faults, hp.all h.subset (by rw [hpc]; rfl)]
    · exact hg.faults
  have hserved := h.served
  rw [hpc, hanswers, hfaults] at hserved
  exact ⟨hfaults, h.legal, hserved⟩

/-- **What the result file says of a process** where memory has a frame for each page: it has had as many
page faults as it refers to different pages, no illegal reference, and one request for each reference and
one for each fault. -/
theorem faults_of_exited (h : (pagingMachine k m f refs).Reachable s) (hu : Fits k f refs s.mmu)
    (hi : i < k) (hpc : s.proc i = .exited) :
    s.mmu.pageFaults i = (refs i).toFinset.card ∧ s.mmu.invalidPageReferences i = 0
      ∧ s.served i = (refs i).length + (refs i).toFinset.card :=
  ((resident_reachable h hu).holds i hi).counts hpc

/-- One process of two pages, which refers to the first of them twice. -/
def shortRefs : Nat → List Int := fun _ => [0, 1, 0]

/-- The process runs to its end. -/
def shortRun : List Party :=
  [.proc 0, .sched, .sched, .proc 0, .proc 0, .mmu, .mmu, .mmu, .proc 0, .proc 0, .mmu, .mmu, .proc 0,
    .proc 0, .mmu, .mmu, .mmu, .proc 0, .proc 0, .mmu, .mmu, .proc 0, .proc 0, .mmu, .mmu, .proc 0,
    .proc 0, .proc 0]

theorem fits_shortRefs {t : Mmu} (hlegal : LegalRefs 1 shortRefs t) (hpcb : t.pcb = [⟨2, 2, 0⟩]) :
    Fits 1 2 shortRefs t := by
  refine ⟨hlegal, fun id h0 hlt => ?_, by decide⟩
  obtain rfl : id = 0 := by omega
  simp [Mmu.pcbAt, hpcb]

theorem shortRun_reachable : ∃ s, (pagingMachine 1 2 2 shortRefs).Reachable s
    ∧ s.proc 0 = .exited ∧ Fits 1 2 shortRefs s.mmu := by
  obtain ⟨s, hs, hp⟩ : ∃ s, (pagingMachine 1 2 2 shortRefs).Reachable s
      ∧ decide (s.proc 0 = .exited ∧ LegalRefs 1 shortRefs s.mmu ∧ s.mmu.pcb = [⟨2, 2, 0⟩]) = true :=
    Machine.exists_reachable_of_exec (s := startSys 1 2 2 [⟨2, 2, 0⟩]) (l := shortRun)
      ⟨_, ⟨rfl, by simp⟩, rfl⟩ (by decide +kernel)
  obtain ⟨hpc, hlegal, hpcb⟩ := of_decide_eq_true hp
  exact ⟨s, hs, hpc, fits_shortRefs hlegal hpcb⟩

theorem nothing_evicted_run : ∃ s, (pagingMachine 1 2 2 shortRefs).Reachable s
    ∧ s.proc 0 = .exited ∧ FrameOwnership 1 2 2 s.mmu := by
  obtain ⟨s, hs, hpc, hu⟩ := shortRun_reachable
  exact ⟨s, hs, hpc, (nothing_evicted hs hu).1⟩

theorem faults_of_exited_run : ∃ s, (pagingMachine 1 2 2 shortRefs).Reachable s
    ∧ s.mmu.pageFaults 0 = 2 ∧ s.served 0 = 5 := by
  obtain ⟨s, hs, hpc, hu⟩ := shortRun_reachable
  obtain ⟨hfaults, -, hserved⟩ := faults_of_exited hs hu (i := 0) (by decide) hpc
  exact ⟨s, hs, hfaults, hserved⟩

end OSLab.Paging
