import OSLab.Paging.References
import Mathlib.Data.List.Chain

set_option autoImplicit false

/-! # The requests of a process

After a page fault the process asks for the page again. The MMU has made the entry valid, so the second
reply is the frame number in it, and the loop of `proc.c` makes two requests for a page at most. But an
eviction may have put a `-1` into the entry. The process takes this for another page fault, and asks for
ever (`asked_too_often`). In the runs in which every fault is given a frame, processes with legal references
are through after twice as many requests as they have references (`loop_bounded_when`).
-/

namespace OSLab.Paging

variable {k m f : Nat} {refs : Nat → List Int} {pages : List Int} {s s' : Sys} {i : Nat}
  {log : List (Int × Int)}

/-- The references of every process are to pages it has, and arrive as such. -/
def LegalRefs (k : Nat) (refs : Nat → List Int) (s : Mmu) : Prop :=
  ∀ j < k, ∀ page ∈ refs j, Legal s j page ∧ page < 128

instance (k : Nat) (refs : Nat → List Int) (s : Mmu) : Decidable (LegalRefs k refs s) :=
  inferInstanceAs (Decidable (∀ j < k, ∀ _ ∈ _, _))

/-- A request for which the MMU finds the page not in memory is given a frame. -/
def FaultsServed (m : Nat) (s : Sys) (a : Party) : Prop :=
  a = .mmu → s.mmuPc = .idle → ∀ r ∈ s.requests.head?,
    FaultsOn m s.mmu r.id r.page → GivesFrame m s.mmu r.id r.page

instance (m : Nat) (s : Sys) (a : Party) : Decidable (FaultsServed m s a) :=
  inferInstanceAs (Decidable (_ → _ → _))

/-- After a page fault comes a frame, for the same page. -/
def FaultThenFrame (e e' : Int × Int) : Prop := e.2 = PAGE_FAULT → e'.1 = e.1 ∧ 0 ≤ e'.2

/-- The process waits for a reply. -/
def ProcPc.waiting : ProcPc → Nat
  | .awaitReply _ => 1
  | _ => 0

/-- The requests process `i` has made in its loop. -/
def requestsMade (s : Sys) (i : Nat) (log : List (Int × Int)) : Nat :=
  log.length + (s.proc i).waiting

/-- What the loop of `proc.c` relies on. -/
structure LoopBounded (pages : List Int) (i : Nat) (s : Sys) (log : List (Int × Int)) : Prop where
  retried : log.IsChain FaultThenFrame
  requests : requestsMade s i log ≤ 2 * pages.length

/-! ## The requests in the queue -/

/-- A request is the last one of a process that has exited, or one of its references. -/
def FromRefs (k : Nat) (refs : Nat → List Int) (s : Sys) : Prop :=
  ∀ r ∈ s.requests, (r.pageNumber = PROCESS_DONE ∧ s.proc r.id = .exited)
    ∨ (r.id < k ∧ r.pageNumber ∈ refs r.id)

theorem fromRefs_procMove (h : FromRefs k refs s) (hi : i < k) (hm : ProcMove (refs i) i s s') :
    FromRefs k refs s' := by
  -- nothing follows the exit of a process
  have hold : ∀ r ∈ s.requests, (r.pageNumber = PROCESS_DONE ∧ s'.proc r.id = .exited)
      ∨ (r.id < k ∧ r.pageNumber ∈ refs r.id) := by
    intro r hr
    refine (h r hr).imp_left fun ⟨hd, hpc⟩ => ⟨hd, ?_⟩
    by_cases hri : r.id = i
    · rw [hri] at hpc
      cases hm with
      | exit hpc' => rw [hri]; exact Function.update_self ..
      | register hpc' | dispatched hpc' _ | ask _ _ hpc' _ | leave _ hpc' _
      | answered _ _ _ hpc' _ =>
          rw [hpc] at hpc'
          cases hpc'
    · rw [← hpc]
      cases hm <;> exact Function.update_of_ne hri _ _
  cases hm with
  | ask count page _ hpage =>
      intro r hr
      rcases List.mem_append.mp hr with hr | hr
      · exact hold r hr
      · rw [List.mem_singleton.mp hr]
        exact .inr ⟨hi, List.mem_of_getElem? hpage⟩
  | exit _ =>
      intro r hr
      rcases List.mem_append.mp hr with hr | hr
      · exact hold r hr
      · rw [List.mem_singleton.mp hr]
        exact .inl ⟨rfl, Function.update_self ..⟩
  | register _ | dispatched _ _ | leave _ _ _ | answered _ _ _ _ _ => exact hold

theorem fromRefs_reachable (h : (pagingMachine k m f refs).Reachable s) : FromRefs k refs s := by
  apply h.invariant
  · rintro s ⟨pcb, -, rfl⟩ r hr
    cases hr
  · intro s a s' hI _ hs
    rcases pagingMachine_cases hs with ⟨i, hi, -, hm⟩ | ⟨-, hm⟩ | ⟨-, hm⟩
    · exact fromRefs_procMove hI hi hm
    · cases hm <;> exact hI
    · cases hm with
      | receive r rest _ _ hreq =>
          intro q hq
          refine hI q ?_
          rw [hreq]
          exact List.mem_cons_of_mem r hq
      | silent _ _ => exact hI
      | last r o _ => cases o <;> exact hI
      | send r o _ _ _ => cases o <;> exact hI

/-! ## What a request does to the rows -/

theorem inRow_unique {a b x : Int} (ha : InRow m a x) (hb : InRow m b x) : a = b := by
  have hle : ∀ {a b : Int}, InRow m a x → InRow m b x → a ≤ b := by
    intro a b ha hb
    have hlt : a * m < (b + 1) * m := by
      calc a * m ≤ x := ha.1
        _ < b * m + m := hb.2
        _ = (b + 1) * m := by ring
    have hab := lt_of_mul_lt_mul_right hlt (Int.natCast_nonneg m)
    omega
  exact le_antisymm (hle ha hb) (hle hb ha)

/-- A legal request that is given a frame, if it needs one, stays in its row. -/
theorem stays_of_legal {t : Mmu} {r : Request} (hpages : ∀ id, (t.pcbAt id).m ≤ m)
    (hlegal : r.IsDone ∨ Legal t r.id r.page)
    (hgives : FaultsOn m t r.id r.page → GivesFrame m t r.id r.page) :
    ¬ LeavesRow m t r.id r.page := by
  rintro ⟨hacc, hcase⟩
  rcases hlegal with hd | ⟨-, hlt⟩
  · have h0 := hacc.1
    rw [hd, PROCESS_DONE] at h0
    omega
  · rcases hcase with hpage | ⟨hv, hev, hnone, -⟩
    · have hm := hpages r.id
      omega
    · rcases hgives ⟨hacc, hv⟩ with hfree | ⟨hvictim, -⟩
      · exact hfree hev
      · exact hvictim hnone

/-- So the entries of the other processes stay what they are. -/
theorem entry_other {t : Mmu} {r : Request} {page : Int} (hpages : ∀ id, (t.pcbAt id).m ≤ m)
    (hstays : ¬ LeavesRow m t r.id r.page) (hne : r.id ≠ i) (hpage : Legal t i page) :
    (serveRequest m t (some r)).1.pageTable (i * m + page) = t.pageTable (i * m + page) := by
  apply (isolated_of_not_leavesRow hpages hstays).frame
  intro hrow
  have hm := hpages i
  obtain ⟨h0, hlt⟩ := hpage
  have hown : InRow m i (i * m + page) := ⟨by omega, by omega⟩
  exact hne (by exact_mod_cast inRow_unique hrow hown)

/-- And the entry of the page requested is valid. -/
theorem valid_own {t : Mmu} {page : Int} (hpage : Legal t i page ∧ page < 128) :
    ((serveRequest m t (some ⟨i, page⟩)).1.pageTable (i * m + page)).valid = true := by
  obtain ⟨⟨h0, hlt⟩, hsmall⟩ := hpage
  have hserve : serveRequest m t (some ⟨i, page⟩) = serve m t i (⟨i, page⟩ : Request).page := rfl
  rw [hserve, page_eq i ⟨h0, hsmall⟩]
  have hacc : Accepted t i page := ⟨h0, hlt.le⟩
  by_cases hv : (t.pageTable (i * m + page)).valid = true
  · rw [serve_hit hacc hv, serveHit_pageTable, if_pos rfl]
    exact hv
  · rw [serve_fault ⟨hacc, by simpa using hv⟩, servePageFault_target]

/-! ## A process and its log -/

/-- The last reply was a page fault. -/
def AfterFault (log : List (Int × Int)) : Prop := ∃ e ∈ log.getLast?, e.2 = PAGE_FAULT

instance (log : List (Int × Int)) : Decidable (AfterFault log) :=
  inferInstanceAs (Decidable (∃ e ∈ log.getLast?, _))

theorem afterFault_concat (log : List (Int × Int)) (e : Int × Int) :
    AfterFault (log ++ [e]) ↔ e.2 = PAGE_FAULT := by
  simp [AfterFault]

/-- A reply under way is a frame, or a page fault that follows no other and has made the entry valid. -/
def RetryReply (m : Nat) (s : Mmu) (i : Nat) (log : List (Int × Int)) (page x : Int) : Prop :=
  0 ≤ x ∨ (x = PAGE_FAULT ∧ ¬ AfterFault log ∧ (s.pageTable (i * m + page)).valid = true)

/-- The process is at reference `count`. -/
def AtCount (s : Sys) (i count : Nat) : Prop :=
  s.proc i = .request count ∨ s.proc i = .awaitReply count

theorem AtCount.unique {c c' : Nat} (h : AtCount s i c) (h' : AtCount s i c') : c = c' := by
  rcases h with h | h
  · rcases h' with h' | h' <;> rw [h] at h' <;> cases h'
    rfl
  · rcases h' with h' | h' <;> rw [h] at h' <;> cases h'
    rfl

/-- The log goes with where the process is: the last page fault is for the page it is at, which is in
memory by now, and there are at most two entries for a reference it has got past. -/
structure Retries (m : Nat) (pages : List Int) (i : Nat) (s : Sys) (log : List (Int × Int)) :
    Prop where
  retry : ∀ e ∈ log.getLast?, e.2 = PAGE_FAULT →
    (∃ count, AtCount s i count ∧ pages[count]? = some e.1)
      ∧ (s.mmu.pageTable (i * m + e.1)).valid = true
  chain : log.IsChain FaultThenFrame
  fresh : s.proc i = .register ∨ s.proc i = .awaitDispatch → log = []
  reached : ∀ count, s.proc i = .request count → count ≤ pages.length
  asked : ∀ count, s.proc i = .awaitReply count → count < pages.length
  bound : ∀ count, AtCount s i count →
    log.length ≤ 2 * count + if AfterFault log then 1 else 0
  ended : s.proc i = .done ∨ s.proc i = .exited → log.length ≤ 2 * pages.length

/-- Before the first request. -/
theorem retries_nil (h : s.proc i = .register ∨ s.proc i = .awaitDispatch ∨ s.proc i = .request 0) :
    Retries m pages i s [] where
  retry := nofun
  chain := List.isChain_nil
  fresh := fun _ => rfl
  reached := by
    intro count hpc
    rcases h with h | h | h
    · rw [hpc] at h; cases h
    · rw [hpc] at h; cases h
    · rw [hpc] at h; cases h; exact Nat.zero_le _
  asked := by
    intro count hpc
    simp [hpc] at h
  bound := fun _ _ => Nat.zero_le _
  ended := fun _ => Nat.zero_le _

/-- At a reference. -/
theorem retries_request {count : Nat} (hpc : s.proc i = .request count)
    (hretry : ∀ e ∈ log.getLast?, e.2 = PAGE_FAULT →
      pages[count]? = some e.1 ∧ (s.mmu.pageTable (i * m + e.1)).valid = true)
    (hchain : log.IsChain FaultThenFrame) (hle : count ≤ pages.length)
    (hlen : log.length ≤ 2 * count + if AfterFault log then 1 else 0) :
    Retries m pages i s log where
  retry := fun e he hx => ⟨⟨count, .inl hpc, (hretry e he hx).1⟩, (hretry e he hx).2⟩
  chain := hchain
  fresh := by simp [hpc]
  reached := by
    intro c hc
    rw [hpc] at hc
    cases hc
    exact hle
  asked := by simp [hpc]
  bound := by
    intro c hc
    obtain rfl := hc.unique (.inl hpc)
    exact hlen
  ended := by simp [hpc]

/-- Past the loop. -/
theorem retries_ended (hpc : s.proc i = .done ∨ s.proc i = .exited) (hfault : ¬ AfterFault log)
    (hchain : log.IsChain FaultThenFrame) (hlen : log.length ≤ 2 * pages.length) :
    Retries m pages i s log where
  retry := fun e he hx => absurd ⟨e, he, hx⟩ hfault
  chain := hchain
  fresh := by
    intro h
    rcases hpc with hpc | hpc <;> simp [hpc] at h
  reached := by
    intro count h
    simp [h] at hpc
  asked := by
    intro count h
    simp [h] at hpc
  bound := by
    intro count h
    rcases h with h | h <;> simp [h] at hpc
  ended := fun _ => hlen

/-- After a page fault the process is at a reference. -/
theorem Retries.not_afterFault (h : Retries m pages i s log) (hpc : ∀ count, AtCount s i count →
    pages[count]? = none) : ¬ AfterFault log := by
  rintro ⟨e, he, hx⟩
  obtain ⟨⟨count, hat, hpage⟩, -⟩ := h.retry e he hx
  rw [hpc count hat] at hpage
  cases hpage

/-- The process receives a reply. -/
theorem retries_answered {count : Nat} {page x : Int} (h : Retries m pages i s log)
    (hpc : s.proc i = .awaitReply count) (hpage : pages[count]? = some page)
    (hreply : RetryReply m s.mmu i log page x) (hmmu : s'.mmu = s.mmu)
    (hproc : s'.proc i = afterReply count x) : Retries m pages i s' (log ++ [(page, x)]) := by
  have hlen := h.bound count (.inr hpc)
  have hlt := h.asked count hpc
  have hchain : (log ++ [(page, x)]).IsChain FaultThenFrame := by
    apply h.chain.append (List.isChain_singleton _)
    intro e he e' he' hx
    obtain rfl : (page, x) = e' := by simpa using he'
    rcases hreply with hframe | ⟨-, hnot, -⟩
    · -- the page is the one of the fault, for the process has not moved on
      obtain ⟨⟨c, hat, hpage'⟩, -⟩ := h.retry e he hx
      obtain rfl := hat.unique (.inr hpc)
      rw [hpage] at hpage'
      exact ⟨Option.some.inj hpage', hframe⟩
    · exact absurd ⟨e, he, hx⟩ hnot
  rcases hreply with hframe | ⟨rfl, hnot, hv⟩
  · -- a frame: on to the next reference, with two entries for this one at most
    have hnext : s'.proc i = .request (count + 1) := by
      rw [hproc, afterReply, if_neg (by rw [PAGE_FAULT]; omega),
        if_neg (by rw [INVALID_PAGE_NUMBER]; omega)]
    have hx : ¬ AfterFault (log ++ [(page, x)]) := by
      rw [afterFault_concat]
      show x ≠ PAGE_FAULT
      rw [PAGE_FAULT]
      omega
    apply retries_request hnext (fun e he hx' => absurd ⟨e, he, hx'⟩ hx) hchain hlt
    rw [List.length_append, List.length_singleton]
    split at hlen <;> omega
  · -- a page fault: the same reference again
    have hnext : s'.proc i = .request count := by
      rw [hproc, afterReply, if_pos rfl]
    have hx : AfterFault (log ++ [(page, PAGE_FAULT)]) := (afterFault_concat ..).mpr rfl
    apply retries_request hnext ?_ hchain hlt.le
    · rw [if_pos hx, List.length_append, List.length_singleton]
      rw [if_neg hnot] at hlen
      omega
    · intro e he _
      obtain rfl : (page, PAGE_FAULT) = e := by simpa using he
      exact ⟨hpage, hmmu ▸ hv⟩

theorem retries_procMove (h : Retries m pages i s log)
    (hcall : InCall pages i (RetryReply m s.mmu i log) s) (hm : ProcMove pages i s s') :
    Retries m pages i s' (log ++ answeredNow pages i s) := by
  cases hm with
  | register hpc =>
      rw [append_answeredNow hpc nofun, h.fresh (.inl hpc)]
      exact retries_nil (.inr (.inl (Function.update_self ..)))
  | dispatched hpc _ =>
      rw [append_answeredNow hpc nofun, h.fresh (.inr hpc)]
      exact retries_nil (.inr (.inr (Function.update_self ..)))
  | ask count page hpc hpage =>
      rw [append_answeredNow hpc nofun]
      have hlen := h.bound count (.inl hpc)
      constructor
      case retry =>
        intro e he hx
        obtain ⟨⟨c, hc, hpage'⟩, hv⟩ := h.retry e he hx
        obtain rfl := hc.unique (.inl hpc)
        exact ⟨⟨c, .inr (Function.update_self ..), hpage'⟩, hv⟩
      case chain => exact h.chain
      case fresh =>
        intro hc
        simp only [Function.update_self, reduceCtorEq, or_self] at hc
      case reached =>
        intro c hc
        simp only [Function.update_self, reduceCtorEq] at hc
      case asked =>
        intro c hc
        simp only [Function.update_self, ProcPc.awaitReply.injEq] at hc
        exact hc ▸ (List.getElem?_eq_some_iff.mp hpage).1
      case bound =>
        rintro c (hc | hc)
        · simp only [Function.update_self, reduceCtorEq] at hc
        · simp only [Function.update_self, ProcPc.awaitReply.injEq] at hc
          exact hc ▸ hlen
      case ended =>
        intro hc
        simp only [Function.update_self, reduceCtorEq, or_self] at hc
  | leave count hpc hpage =>
      -- a process that is to ask again does not leave
      rw [append_answeredNow hpc nofun]
      have hfault : ¬ AfterFault log := by
        apply h.not_afterFault
        intro c hc
        obtain rfl := hc.unique (.inl hpc)
        exact hpage
      have hlen := h.bound count (.inl hpc)
      rw [if_neg hfault] at hlen
      have hle := h.reached count hpc
      exact retries_ended (.inl (Function.update_self ..)) hfault h.chain (by omega)
  | exit hpc =>
      rw [append_answeredNow hpc nofun]
      have hfault : ¬ AfterFault log := by
        apply h.not_afterFault
        rintro c (hc | hc)
        · rw [hpc] at hc; cases hc
        · rw [hpc] at hc; cases hc
      exact retries_ended (.inr (Function.update_self ..)) hfault h.chain (h.ended (.inl hpc))
  | answered count x rest hpc hr =>
      obtain ⟨page, hpage, hreply⟩ := hcall.received hpc hr
      rw [answeredNow_eq hpc hr hpage]
      exact retries_answered h hpc hpage hreply rfl (Function.update_self ..)

/-! ## A run -/

/-- What a run keeps for process `i`. -/
structure Retrying (m : Nat) (pages : List Int) (i : Nat) (s : Sys) (log : List (Int × Int)) :
    Prop where
  counts : ∀ id, (s.mmu.pcbAt id).m ≤ m
  framed : Framed s.mmu
  call : InCall pages i (RetryReply m s.mmu i log) s
  retries : Retries m pages i s log

/-- The MMU receives a request. The entry of the page the process is at stays valid: a request of
another process stays in the other's row, and the one of the process itself is for this page. -/
theorem valid_receive {r : Request} {rest : List Request} {count : Nat} {page : Int}
    (h : Retrying m pages i s log) (hreq : s.requests = r :: rest)
    (hfrom : (r.IsDone ∧ s.proc r.id = .exited) ∨ Legal s.mmu r.id r.page)
    (hgives : FaultsOn m s.mmu r.id r.page → GivesFrame m s.mmu r.id r.page)
    (hlegal : ∀ page ∈ pages, Legal s.mmu i page ∧ page < 128) (hat : AtCount s i count)
    (hpage : pages[count]? = some page) (hv : (s.mmu.pageTable (i * m + page)).valid = true) :
    ((serveRequest m s.mmu (some r)).1.pageTable (i * m + page)).valid = true := by
  have hp := hlegal page (List.mem_of_getElem? hpage)
  by_cases hri : r.id = i
  · -- its `PROCESS_DONE` comes when it has exited
    have hnot : ¬ r.IsDone := by
      intro hd
      have hexited : s.proc i = .exited := by
        rcases hfrom with ⟨-, hpc⟩ | ⟨h0, -⟩
        · rwa [hri] at hpc
        · rw [hd, PROCESS_DONE] at h0
          omega
      rcases hat with hat | hat <;> rw [hexited] at hat <;> cases hat
    obtain ⟨c, hwait, hpage'⟩ := h.call.asks r (mem_asks hreq hri hnot)
    obtain rfl := hat.unique (.inr hwait)
    obtain rfl : r = ⟨i, page⟩ := by
      rw [hpage] at hpage'
      rw [← hri, Option.some.inj hpage']
    exact valid_own hp
  · have hstays := stays_of_legal h.counts (hfrom.imp_left And.left) hgives
    rw [entry_other h.counts hstays hri hp.1]
    exact hv

theorem retrying_receive {r : Request} {rest : List Request} (h : Retrying m pages i s log)
    (hreq : s.requests = r :: rest)
    (hfrom : (r.IsDone ∧ s.proc r.id = .exited) ∨ Legal s.mmu r.id r.page)
    (hgives : FaultsOn m s.mmu r.id r.page → GivesFrame m s.mmu r.id r.page)
    (hlegal : ∀ page ∈ pages, Legal s.mmu i page ∧ page < 128) :
    Retrying m pages i (s.receive m r rest) log := by
  have hkeeps : ∀ count page, AtCount s i count → pages[count]? = some page →
      (s.mmu.pageTable (i * m + page)).valid = true →
      ((serveRequest m s.mmu (some r)).1.pageTable (i * m + page)).valid = true :=
    fun count page => valid_receive h hreq hfrom hgives hlegal
  constructor
  case counts =>
    have hpcb : (s.receive m r rest).mmu.pcb = s.mmu.pcb := serveRequest_pcb m s.mmu (some r)
    intro id
    rw [pcbAt_congr hpcb]
    exact h.counts id
  case framed => exact framed_serveRequest h.framed r hgives
  case call =>
    refine inCall_receive h.call hreq ?_ ?_
    · intro count page x hwait hpage hx
      refine hx.imp_right fun ⟨hfault, hnot, hv⟩ => ⟨hfault, hnot, ?_⟩
      exact hkeeps count page (.inr hwait) hpage hv
    · rintro count page x rfl - hwait hpage hx
      have hp := hlegal page (List.mem_of_getElem? hpage)
      have hread := page_eq i ⟨hp.1.1, hp.2⟩
      rcases (reply_serveRequest hx).2 with ⟨hno, -⟩ | ⟨hf, hfault⟩ | ⟨-, hv, hframe⟩
      · rw [hread] at hno
        exact absurd ⟨hp.1.1, hp.1.2.le⟩ hno
      · refine .inr ⟨hfault, ?_, valid_own hp⟩
        -- after a page fault the entry is valid
        rintro ⟨e, he, hlast⟩
        obtain ⟨⟨c, hat, hpage'⟩, hv⟩ := h.retries.retry e he hlast
        obtain rfl := hat.unique (.inr hwait)
        rw [hpage] at hpage'
        rw [← Option.some.inj hpage'] at hv
        rw [hread] at hf
        exact absurd hv (by rw [hf.2]; decide)
      · rw [hframe]
        exact .inl (h.framed.entries _ hv)
  case retries =>
    have hr := h.retries
    refine ⟨fun e he hx => ?_, hr.chain, hr.fresh, hr.reached, hr.asked, hr.bound, hr.ended⟩
    obtain ⟨⟨count, hat, hpage⟩, hv⟩ := hr.retry e he hx
    exact ⟨⟨count, hat, hpage⟩, hkeeps count e.1 hat hpage hv⟩

/-- A step that is nothing to process `i`. -/
theorem Retrying.same (h : Retrying m pages i s log) (hs : SameSession i s s') :
    Retrying m pages i s' log := by
  constructor
  case counts => exact hs.mmu ▸ h.counts
  case framed => exact hs.mmu ▸ h.framed
  case call => exact hs.mmu ▸ h.call.same hs
  case retries =>
    have hr := h.retries
    constructor
    case retry => simpa only [AtCount, hs.proc, hs.mmu] using hr.retry
    case chain => exact hr.chain
    case fresh => simpa only [hs.proc] using hr.fresh
    case reached => simpa only [hs.proc] using hr.reached
    case asked => simpa only [hs.proc] using hr.asked
    case bound => simpa only [AtCount, hs.proc] using hr.bound
    case ended => simpa only [hs.proc] using hr.ended

theorem retrying_next {a : Party} {l : Log} (hc : Calls k s) (hfrom : FromRefs k refs s) (hi : i < k)
    (hlegal : LegalRefs k refs s.mmu) (h : Retrying m (refs i) i s (l i)) (hok : FaultsServed m s a)
    (hs : (pagingMachine k m f refs).next s a = some s') :
    Retrying m (refs i) i s' (logStep refs s a l i) := by
  rcases session_cases hc i hs with ⟨-, rfl, hm⟩ | ⟨ha, hsame⟩ | ⟨rfl, r, rest, hpc, hreq, rfl⟩
  · rw [logStep_self]
    have hmmu := procMove_mmu hm
    constructor
    case counts => exact hmmu ▸ h.counts
    case framed => exact hmmu ▸ h.framed
    case call => exact inCall_procMove hc hi hm
    case retries => exact retries_procMove h.retries h.call hm
  · rw [logStep_other ha]
    exact h.same hsame
  · show Retrying m (refs i) i (s.receive m r rest) (l i)
    apply retrying_receive h hreq
    · refine (hfrom r (by simp [hreq])).imp (And.imp_left isDone_of_sent) fun ⟨hid, hmem⟩ => ?_
      obtain ⟨hpage, hsmall⟩ := hlegal r.id hid r.pageNumber hmem
      have hread : r.page = r.pageNumber := page_eq r.id ⟨hpage.1, hsmall⟩
      rwa [hread]
    · exact hok rfl hpc r (by simp [hreq])
    · exact hlegal i hi

/-- No step changes the page counts. -/
theorem pcb_next {a : Party} (hs : (pagingMachine k m f refs).next s a = some s') :
    s'.mmu.pcb = s.mmu.pcb := by
  rcases pagingMachine_cases hs with ⟨i, -, -, hm⟩ | ⟨-, hm⟩ | ⟨-, hm⟩
  · rw [procMove_mmu hm]
  · cases hm <;> rfl
  · cases hm with
    | receive r rest _ _ _ => exact serveRequest_pcb m s.mmu (some r)
    | silent _ _ => rfl
    | last r o _ => cases o <;> rfl
    | send r o _ _ _ => cases o <;> rfl

theorem Retrying.bounded (h : Retrying m pages i s log) : LoopBounded pages i s log := by
  have hr := h.retries
  refine ⟨hr.chain, ?_⟩
  unfold requestsMade
  cases hpc : s.proc i with
  | register =>
      rw [hr.fresh (.inl hpc)]
      exact Nat.zero_le _
  | awaitDispatch =>
      rw [hr.fresh (.inr hpc)]
      exact Nat.zero_le _
  | request count =>
      have hlen := hr.bound count (.inl hpc)
      have hle := hr.reached count hpc
      by_cases hfault : AfterFault log
      · -- the process is to ask again, so it is not at the end
        have hlt : count < pages.length := by
          obtain ⟨e, he, hx⟩ := hfault
          obtain ⟨⟨c, hat, hpage⟩, -⟩ := hr.retry e he hx
          obtain rfl := hat.unique (.inl hpc)
          exact (List.getElem?_eq_some_iff.mp hpage).1
        rw [if_pos hfault] at hlen
        simp only [ProcPc.waiting]
        omega
      · rw [if_neg hfault] at hlen
        simp only [ProcPc.waiting]
        omega
  | awaitReply count =>
      have hlen := hr.bound count (.inr hpc)
      have hlt := hr.asked count hpc
      simp only [ProcPc.waiting]
      split at hlen <;> omega
  | done => exact hr.ended (.inl hpc)
  | exited => exact hr.ended (.inr hpc)

/-- **Two requests for a reference at most**, if the references are legal, in the runs in which every
fault is given a frame. -/
theorem loop_bounded_when {k m f : Nat} {refs : Nat → List Int} {t : Sys × Log}
    (hlegal : LegalRefs k refs t.1.mmu)
    (h : (loggedMachine k m f refs).ReachableWhen (fun t a => FaultsServed m t.1 a) t) :
    ∀ i < k, LoopBounded (refs i) i t.1 (t.2 i) := by
  intro i hi
  have hruns : ∀ t, (loggedMachine k m f refs).ReachableWhen (fun t a => FaultsServed m t.1 a) t →
      Calls k t.1 ∧ FromRefs k refs t.1 := by
    intro t ht
    have hreach := (Machine.ReachableWhen.of_withHistory ht).reachable
    exact ⟨calls_reachable hreach, fromRefs_reachable hreach⟩
  have hretrying := h.invariant_of hruns
    (I := fun t => LegalRefs k refs t.1.mmu → Retrying m (refs i) i t.1 (t.2 i)) ?_ ?_
  · exact (hretrying hlegal).bounded
  · rintro ⟨s, l⟩ ⟨⟨pcb, hpcb, rfl⟩, rfl⟩ -
    constructor
    case counts => exact (clocked_start hpcb).pages
    case framed => exact framed_start k m f pcb
    case call => exact inCall_start pcb
    case retries => exact retries_nil (.inl rfl)
  · intro t a t' ⟨hc, hfrom⟩ hI hok hs hlegal'
    obtain ⟨hnext, hlog⟩ := Machine.withHistory_next hs
    -- legal is what it was before the step
    have hlegal : LegalRefs k refs t.1.mmu := by
      intro j hj page hpage
      have hp := hlegal' j hj page hpage
      unfold Legal at hp ⊢
      rwa [pcbAt_congr (pcb_next hnext)] at hp
    rw [hlog]
    exact retrying_next hc hfrom hi hlegal (hI hlegal) hok hnext

/-- The condition is met in a run of one process with two frames for its two pages. -/
theorem loop_bounded_when_run :
    ∃ t, (loggedMachine 1 2 2 (fun _ => [0, 1, 0])).ReachableWhen (fun t a => FaultsServed 2 t.1 a) t
      ∧ t.1.proc 0 = .exited
      ∧ t.2 0 = [(0, PAGE_FAULT), (0, 1), (1, PAGE_FAULT), (1, 0), (0, 1)]
      ∧ LoopBounded [0, 1, 0] 0 t.1 (t.2 0) := by
  obtain ⟨t, ht, hp⟩ : ∃ t, (loggedMachine 1 2 2 (fun _ => [0, 1, 0])).ReachableWhen
      (fun t a => FaultsServed 2 t.1 a) t
      ∧ decide (LegalRefs 1 (fun _ => [0, 1, 0]) t.1.mmu ∧ t.1.proc 0 = .exited
        ∧ t.2 0 = [(0, PAGE_FAULT), (0, 1), (1, PAGE_FAULT), (1, 0), (0, 1)]) = true :=
    Machine.exists_reachableWhen_of_execWhen
      (s := (startSys 1 2 2 [⟨2, 2, 0⟩], fun _ => []))
      (l := [.proc 0, .sched, .sched, .proc 0, .proc 0, .mmu, .mmu, .mmu, .proc 0, .proc 0, .mmu,
        .mmu, .proc 0, .proc 0, .mmu, .mmu, .mmu, .proc 0, .proc 0, .mmu, .mmu, .proc 0, .proc 0,
        .mmu, .mmu, .proc 0, .proc 0, .proc 0])
      ⟨⟨_, ⟨rfl, by simp⟩, rfl⟩, rfl⟩ (by decide +kernel)
  obtain ⟨hlegal, hpc, hlog⟩ := of_decide_eq_true hp
  exact ⟨t, ht, hpc, hlog, loop_bounded_when hlegal ht 0 (by decide)⟩

/-- **A process asks too often.** It has two pages and one frame; the eviction for page `1` leaves it
with the frame number `-1`, and the process makes a fifth request. -/
theorem asked_too_often :
    ¬ ∀ t, (loggedMachine 1 2 1 (fun _ => [0, 1])).Reachable t →
      LegalRefs 1 (fun _ => [0, 1]) t.1.mmu → LoopBounded [0, 1] 0 t.1 (t.2 0) := by
  intro h
  obtain ⟨t, ht, hp⟩ : ∃ t, (loggedMachine 1 2 1 (fun _ => [0, 1])).Reachable t
      ∧ decide (LegalRefs 1 (fun _ => [0, 1]) t.1.mmu ∧ requestsMade t.1 0 (t.2 0) = 5) = true :=
    Machine.exists_reachable_of_exec (s := (startSys 1 2 1 [⟨2, 1, 0⟩], fun _ => []))
      (l := [.proc 0, .sched, .sched, .proc 0, .proc 0, .mmu, .mmu, .mmu, .proc 0, .proc 0, .mmu,
        .mmu, .proc 0, .proc 0, .mmu, .mmu, .mmu, .proc 0, .proc 0, .mmu, .mmu, .proc 0, .proc 0])
      ⟨⟨_, ⟨rfl, by simp⟩, rfl⟩, rfl⟩ (by decide +kernel)
  obtain ⟨hlegal, hfive⟩ := of_decide_eq_true hp
  have htwice : requestsMade t.1 0 (t.2 0) ≤ 4 := (h t ht hlegal).requests
  omega

end OSLab.Paging
