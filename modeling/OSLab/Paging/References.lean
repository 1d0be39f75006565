import OSLab.Paging.Sessions
import OSLab.Paging.FrameNumbers

set_option autoImplicit false

/-! # Illegal references

A process stops at a reply of `-2`, which the MMU is to send for exactly the page numbers outside of
`0 … m_i - 1`. Its range check lets `m_i` itself pass, so a process that refers to page `m_i` gets a
frame and goes on (`boundary_answered`). In the runs in which the MMU receives no such request from the
process, it stops at its first illegal reference and nowhere else (`illegal_stops_when`).
-/

namespace OSLab.Paging

variable {k m f : Nat} {refs : Nat → List Int} {pages : List Int} {s s' : Sys} {i : Nat}
  {log : List (Int × Int)}

/-- A page process `i` has. -/
def Legal (s : Mmu) (i : Nat) (page : Int) : Prop := 0 ≤ page ∧ page < (s.pcbAt i).m

instance (s : Mmu) (i : Nat) (page : Int) : Decidable (Legal s i page) :=
  inferInstanceAs (Decidable (_ ∧ _))

/-- The reply to a reference that process `i` should get. -/
def RightReply (s : Mmu) (i : Nat) (page x : Int) : Prop :=
  x = INVALID_PAGE_NUMBER ↔ ¬ Legal s i page

/-- Every reference of process `i` was answered right; it has got past legal ones only; and if it is
through, all were legal, or the last that was answered is the first that was not. -/
structure Stops (pages : List Int) (i : Nat) (s : Sys) (log : List (Int × Int)) : Prop where
  answered : ∀ e ∈ log, RightReply s.mmu i e.1 e.2
  advance : ∀ count, s.proc i = .request count ∨ s.proc i = .awaitReply count →
    ∀ page ∈ pages.take count, Legal s.mmu i page
  stopped : s.proc i = .done ∨ s.proc i = .exited → (∀ page ∈ pages, Legal s.mmu i page)
    ∨ ∃ count page, pages[count]? = some page ∧ ¬ Legal s.mmu i page
      ∧ (∀ q ∈ pages.take count, Legal s.mmu i q)
      ∧ log.getLast? = some (page, INVALID_PAGE_NUMBER)

/-- The MMU does not receive a request of process `i` for the page number `m_i`. -/
def OffBoundary (i : Nat) (s : Sys) (a : Party) : Prop :=
  a = .mmu → s.mmuPc = .idle → ∀ r ∈ s.requests.head?, r.id = i → r.page ≠ (s.mmu.pcbAt i).m

instance (i : Nat) (s : Sys) (a : Party) : Decidable (OffBoundary i s a) :=
  inferInstanceAs (Decidable (_ → _ → _))

/-! ## One reference -/

theorem legal_serveRequest (m : Nat) (s : Mmu) (r : Option Request) (i : Nat) (page : Int) :
    Legal (serveRequest m s r).1 i page ↔ Legal s i page := by
  unfold Legal
  rw [pcbAt_congr (serveRequest_pcb m s r)]

/-- The MMU answers right, the page number `m_i` apart. -/
theorem rightReply_serveRequest {t : Mmu} {page x : Int} (h : Numbered t)
    (hpage : 0 ≤ page ∧ page < 128) (hoff : page ≠ (t.pcbAt i).m)
    (hmem : Out.reply i x ∈ (serveRequest m t (some ⟨i, page⟩)).2) : RightReply t i page x := by
  have hread := page_eq i hpage
  have hacc : Accepted t i page ↔ Legal t i page := by
    unfold Accepted Legal
    omega
  unfold RightReply
  rcases (reply_serveRequest hmem).2 with ⟨hno, rfl⟩ | ⟨hf, rfl⟩ | ⟨hyes, -, rfl⟩
  · rw [hread, hacc] at hno
    exact iff_of_true rfl hno
  · rw [hread] at hf
    exact iff_of_false (by decide) (not_not.mpr (hacc.mp hf.1))
  · -- a page in memory: its frame number is no reply code
    rw [hread] at hyes
    refine iff_of_false (fun hx => ?_) (not_not.mpr (hacc.mp hyes))
    have hnum := h.entries ((⟨i, page⟩ : Request).target m)
    rw [hx, INVALID_PAGE_NUMBER] at hnum
    omega

/-! ## A run -/

theorem stops_procMove (h : Stops pages i s log) (hcall : InCall pages i (RightReply s.mmu i) s)
    (hm : ProcMove pages i s s') : Stops pages i s' (log ++ answeredNow pages i s) := by
  cases hm with
  | register hpc =>
      rw [append_answeredNow hpc nofun]
      refine ⟨h.answered, fun c hc => ?_, fun hc => ?_⟩
      · simp only [Function.update_self, reduceCtorEq, or_self] at hc
      · simp only [Function.update_self, reduceCtorEq, or_self] at hc
  | dispatched hpc _ =>
      rw [append_answeredNow hpc nofun]
      refine ⟨h.answered, fun c hc => ?_, fun hc => ?_⟩
      · simp only [Function.update_self, ProcPc.request.injEq, reduceCtorEq, or_false] at hc
        subst hc
        rw [List.take_zero]
        exact fun page hp => absurd hp List.not_mem_nil
      · simp only [Function.update_self, reduceCtorEq, or_self] at hc
  | ask count page hpc _ =>
      rw [append_answeredNow hpc nofun]
      refine ⟨h.answered, fun c hc => ?_, fun hc => ?_⟩
      · simp only [Function.update_self, ProcPc.awaitReply.injEq, reduceCtorEq, false_or] at hc
        exact h.advance c (.inl (by rw [hpc, hc]))
      · simp only [Function.update_self, reduceCtorEq, or_self] at hc
  | leave count hpc hpage =>
      -- it has got past all its references
      rw [append_answeredNow hpc nofun]
      refine ⟨h.answered, fun c hc => ?_, fun _ => .inl ?_⟩
      · simp only [Function.update_self, reduceCtorEq, or_self] at hc
      · have hall := h.advance count (.inl hpc)
        rwa [List.take_of_length_le (List.getElem?_eq_none_iff.mp hpage)] at hall
  | exit hpc =>
      rw [append_answeredNow hpc nofun]
      refine ⟨h.answered, fun c hc => ?_, fun _ => h.stopped (.inl hpc)⟩
      simp only [Function.update_self, reduceCtorEq, or_self] at hc
  | answered count x rest hpc hr =>
      obtain ⟨page, hpage, hright⟩ := hcall.received hpc hr
      rw [answeredNow_eq hpc hr hpage]
      have hlegal := h.advance count (.inr hpc)
      constructor
      case answered =>
        intro e he
        rcases List.mem_append.mp he with he | he
        · exact h.answered e he
        · rw [List.mem_singleton.mp he]
          exact hright
      case advance =>
        intro c hc
        simp only [Function.update_self] at hc
        unfold afterReply at hc
        split_ifs at hc with hfault hinvalid
        · simp only [ProcPc.request.injEq, or_false] at hc
          exact hc ▸ hlegal
        · simp only [or_self] at hc
        · -- the process goes on, so this page was legal as well
          simp only [ProcPc.request.injEq, or_false] at hc
          rw [← hc, List.take_add_one, hpage]
          intro q hq
          rcases List.mem_append.mp hq with hq | hq
          · exact hlegal q hq
          · rw [List.mem_singleton.mp hq]
            exact not_not.mp fun hno => hinvalid (hright.mpr hno)
      case stopped =>
        intro hc
        simp only [Function.update_self] at hc
        unfold afterReply at hc
        split_ifs at hc with hfault hinvalid
        · simp only [or_self] at hc
        · -- the reply says illegal, and is right
          refine .inr ⟨count, page, hpage, hright.mp hinvalid, hlegal, ?_⟩
          rw [List.getLast?_concat, hinvalid]
        · simp only [or_self] at hc

/-- The process does not move, and no page count changes. -/
theorem Stops.of_frame (h : Stops pages i s log) (hproc : s'.proc i = s.proc i)
    (hpcb : s'.mmu.pcb = s.mmu.pcb) : Stops pages i s' log := by
  have hlegal : ∀ page, Legal s'.mmu i page ↔ Legal s.mmu i page := by
    intro page
    unfold Legal
    rw [pcbAt_congr hpcb]
  constructor
  case answered => simpa only [RightReply, hlegal] using h.answered
  case advance => simpa only [hproc, hlegal] using h.advance
  case stopped => simpa only [hproc, hlegal] using h.stopped

/-- What a run keeps for process `i`. -/
structure Checked (pages : List Int) (i : Nat) (s : Sys) (log : List (Int × Int)) : Prop where
  numbered : Numbered s.mmu
  call : InCall pages i (RightReply s.mmu i) s
  stops : Stops pages i s log

theorem checked_next {a : Party} {l : Log} (hc : Calls k s) (h : Checked (refs i) i s (l i))
    (hpages : ∀ page ∈ refs i, 0 ≤ page ∧ page < 128) (hok : OffBoundary i s a)
    (hs : (pagingMachine k m f refs).next s a = some s') :
    Checked (refs i) i s' (logStep refs s a l i) := by
  rcases session_cases hc i hs with ⟨hi, rfl, hm⟩ | ⟨ha, hsame⟩ | ⟨rfl, r, rest, hpc, hreq, rfl⟩
  · rw [logStep_self]
    have hmmu := procMove_mmu hm
    exact ⟨hmmu ▸ h.numbered, inCall_procMove hc hi hm, stops_procMove h.stops h.call hm⟩
  · rw [logStep_other ha]
    constructor
    case numbered => exact hsame.mmu ▸ h.numbered
    case call => exact hsame.mmu ▸ h.call.same hsame
    case stops => exact h.stops.of_frame hsame.proc (by rw [hsame.mmu])
  · -- the request may be one of process `i`, and is then for the page it waits for
    show Checked (refs i) i (s.receive m r rest) (l i)
    constructor
    case numbered => exact numbered_serveRequest h.numbered r
    case call =>
      have hright : ∀ page x, RightReply s.mmu i page x →
          RightReply (serveRequest m s.mmu (some r)).1 i page x := by
        intro page x hx
        unfold RightReply
        rwa [legal_serveRequest]
      apply inCall_receive h.call hreq fun _ page x _ _ => hright page x
      rintro count page x rfl - - hpage hx
      have hp := hpages page (List.mem_of_getElem? hpage)
      have hoff := hok rfl hpc ⟨i, page⟩ (by simp [hreq]) rfl
      rw [page_eq i hp] at hoff
      exact hright page x (rightReply_serveRequest h.numbered hp hoff hx)
    case stops => exact h.stops.of_frame rfl (serveRequest_pcb m s.mmu (some r))

/-- **Illegal references stop a process, legal ones do not**, in the runs in which the MMU receives no
request of it for the page number `m_i`. -/
theorem illegal_stops_when {k m f : Nat} {refs : Nat → List Int} {i : Nat} {t : Sys × Log}
    (hpages : ∀ page ∈ refs i, 0 ≤ page ∧ page < 128)
    (h : (loggedMachine k m f refs).ReachableWhen (fun t a => OffBoundary i t.1 a) t) :
    Stops (refs i) i t.1 (t.2 i) := by
  have hcalls : ∀ t, (loggedMachine k m f refs).ReachableWhen (fun t a => OffBoundary i t.1 a) t →
      Calls k t.1 := by
    intro t ht
    exact calls_reachable (Machine.ReachableWhen.of_withHistory ht).reachable
  refine Checked.stops (h.invariant_of hcalls (I := fun t => Checked (refs i) i t.1 (t.2 i)) ?_ ?_)
  · rintro ⟨s, l⟩ ⟨⟨pcb, -, rfl⟩, rfl⟩
    constructor
    case numbered => exact numbered_start k m f pcb
    case call => exact inCall_start pcb
    case stops =>
      constructor
      · exact fun e he => absurd he List.not_mem_nil
      · exact fun count hpc => by simp [startSys] at hpc
      · exact fun hpc => by simp [startSys] at hpc
  · intro t a t' hc hI hok hs
    obtain ⟨hnext, hlog⟩ := Machine.withHistory_next hs
    rw [hlog]
    exact checked_next hc hI hpages hok hnext

/-- The condition is met in a run of a process with one page, which refers to it and then to page `5`. -/
theorem illegal_stops_when_run :
    ∃ t, (loggedMachine 1 1 1 (fun _ => [0, 5])).ReachableWhen (fun t a => OffBoundary 0 t.1 a) t
      ∧ t.1.proc 0 = .exited
      ∧ t.2 0 = [(0, PAGE_FAULT), (0, 0), (5, INVALID_PAGE_NUMBER)]
      ∧ Stops [0, 5] 0 t.1 (t.2 0) := by
  obtain ⟨t, ht, hp⟩ : ∃ t, (loggedMachine 1 1 1 (fun _ => [0, 5])).ReachableWhen
      (fun t a => OffBoundary 0 t.1 a) t
      ∧ decide (t.1.proc 0 = .exited
        ∧ t.2 0 = [(0, PAGE_FAULT), (0, 0), (5, INVALID_PAGE_NUMBER)]) = true :=
    Machine.exists_reachableWhen_of_execWhen
      (s := (startSys 1 1 1 [⟨1, 1, 0⟩], fun _ => []))
      (l := [.proc 0, .sched, .sched, .proc 0, .proc 0, .mmu, .mmu, .mmu, .proc 0, .proc 0, .mmu,
        .mmu, .proc 0, .proc 0, .mmu, .mmu, .mmu, .proc 0, .proc 0])
      ⟨⟨_, ⟨rfl, by simp⟩, rfl⟩, rfl⟩ (by decide)
  obtain ⟨hpc, hlog⟩ := of_decide_eq_true hp
  exact ⟨t, ht, hpc, hlog, illegal_stops_when (by decide) ht⟩

/-- **Page `m_i` is answered.** The process has one page and refers to page `1`; the reply is a page
fault. -/
theorem boundary_answered :
    ¬ ∀ t, (loggedMachine 1 1 1 (fun _ => [1])).Reachable t → Stops [1] 0 t.1 (t.2 0) := by
  intro h
  obtain ⟨t, ht, hp⟩ : ∃ t, (loggedMachine 1 1 1 (fun _ => [1])).Reachable t
      ∧ decide ((1, PAGE_FAULT) ∈ t.2 0 ∧ ¬ Legal t.1.mmu 0 1) = true :=
    Machine.exists_reachable_of_exec (s := (startSys 1 1 1 [⟨1, 1, 0⟩], fun _ => []))
      (l := [.proc 0, .sched, .sched, .proc 0, .proc 0, .mmu, .mmu, .mmu, .proc 0])
      ⟨⟨_, ⟨rfl, by simp⟩, rfl⟩, rfl⟩ (by decide)
  obtain ⟨hmem, hillegal⟩ := of_decide_eq_true hp
  have hright : PAGE_FAULT = INVALID_PAGE_NUMBER := ((h t ht).answered _ hmem).mpr hillegal
  cases hright

end OSLab.Paging
