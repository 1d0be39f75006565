import OSLab.Paging.Termination

set_option autoImplicit false

/-! # One process and the MMU

What process `i` has asked and not received an answer to is in two lists: the requests in the queue
(`Sys.asks`) and the replies the MMU has left to send, or has sent (`Sys.answers`). Sending a reply moves
nothing between them, and no step of another party but the MMU's `msgrcv` matters to them
(`session_cases`). `InCall` says what holds of the two lists: the process waits, and they are about the
page it waits for.

`loggedMachine` keeps a log beside the system: the pages each process has referred to, with the reply it
received each time.
-/

namespace OSLab.Paging

variable {k m f : Nat} {refs : Nat → List Int} {pages : List Int} {s s' : Sys} {i : Nat}
  {R R' : Int → Int → Prop}

/-! ## Questions and answers -/

/-- The frame number of a reply to process `i`. -/
def Out.replyTo (i : Nat) : Out → Option Int
  | .reply id x => if id = i then some x else none
  | .notify _ => none

/-- The replies to process `i` the MMU has left to send. -/
def MmuPc.answersTo (i : Nat) : MmuPc → List Int
  | .idle => []
  | .serving _ outs => outs.filterMap (Out.replyTo i)

/-- The requests for a page of process `i` the MMU has not received. -/
def Sys.asks (s : Sys) (i : Nat) : List Request :=
  s.requests.filter fun r => r.id = i ∧ ¬ r.IsDone

/-- The replies process `i` has not received. -/
def Sys.answers (s : Sys) (i : Nat) : List Int := s.replies i ++ s.mmuPc.answersTo i

theorem mem_asks {r : Request} {rest : List Request} (hreq : s.requests = r :: rest)
    (hid : r.id = i) (hd : ¬ r.IsDone) : r ∈ s.asks i := by
  rw [Sys.asks, hreq]
  exact List.mem_filter.mpr ⟨List.mem_cons_self, by simp [hid, hd]⟩

/-- **One call at a time**, as the lists have it. -/
theorem length_session (h : Calls k s) (i : Nat) :
    (s.asks i).length + (s.answers i).length ≤ s.openCalls i := by
  have hasks : (s.asks i).length ≤ s.requests.countP (fun r => r.id = i) := by
    rw [Sys.asks, ← List.countP_eq_length_filter]
    refine List.countP_mono_left fun r _ hr => ?_
    simp only [decide_eq_true_eq] at hr ⊢
    exact hr.1
  have howes : (s.mmuPc.answersTo i).length ≤ s.mmuPc.owes i := by
    cases hpc : s.mmuPc with
    | idle => exact le_rfl
    | serving r outs =>
        have hserve := h.serving r outs hpc
        simp only [MmuPc.answersTo, MmuPc.owes]
        by_cases hd : r.IsDone
        · -- a `PROCESS_DONE` has no reply
          rw [hserve.1 hd]
          exact Nat.zero_le _
        · rw [if_neg hd, List.length_filterMap_eq_countP]
          refine List.countP_mono_left fun o _ ho => ?_
          cases o with
          | reply id x =>
              simp only [Out.replyTo] at ho
              split at ho
              · simpa [Out.isReplyTo]
              · cases ho
          | notify type => cases ho
  rw [Sys.openCalls, Sys.answers, List.length_append]
  omega

/-- A process that can send has no call under way. -/
theorem session_nil (h : Calls k s) (hw : ¬ (s.proc i).Waits) : s.asks i = [] ∧ s.answers i = [] := by
  have hlen := length_session h i
  have hnone := h.getPast i hw
  constructor
  · exact List.eq_nil_of_length_eq_zero (by omega)
  · exact List.eq_nil_of_length_eq_zero (by omega)

theorem replies_post (s : Sys) {r : Request} {o : Out} (ho : ∀ id x, o = .reply id x → id = r.id)
    (i : Nat) : (s.post r.id o).replies i = s.replies i ++ (o.replyTo i).toList := by
  cases o with
  | notify type => simp [Out.replyTo, Sys.post]
  | reply id x =>
      obtain rfl := ho id x rfl
      by_cases hi : i = r.id
      · simp [Out.replyTo, Sys.post, hi]
      · simp [Out.replyTo, Sys.post, Function.update_of_ne hi, Ne.symm hi]

/-! ## What a step does to the session of a process -/

/-- Nothing changes that the session of process `i` depends on. -/
structure SameSession (i : Nat) (s s' : Sys) : Prop where
  proc : s'.proc i = s.proc i
  asks : s'.asks i = s.asks i
  answers : s'.answers i = s.answers i
  mmu : s'.mmu = s.mmu

theorem sameSession_procMove {j : Nat} (hji : j ≠ i) (hm : ProcMove pages j s s') :
    SameSession i s s' := by
  have hij : i ≠ j := Ne.symm hji
  cases hm with
  | ask count page _ _ =>
      exact ⟨Function.update_of_ne hij _ _, by simp [Sys.asks, hji], rfl, rfl⟩
  | exit _ => exact ⟨Function.update_of_ne hij _ _, by simp [Sys.asks, hji], rfl, rfl⟩
  | answered count x rest _ _ =>
      exact ⟨Function.update_of_ne hij _ _, rfl, by simp [Sys.answers, Function.update_of_ne hij], rfl⟩
  | register _ => exact ⟨Function.update_of_ne hij _ _, rfl, rfl, rfl⟩
  | dispatched _ _ => exact ⟨Function.update_of_ne hij _ _, rfl, rfl, rfl⟩
  | leave _ _ _ => exact ⟨Function.update_of_ne hij _ _, rfl, rfl, rfl⟩

theorem sameSession_schedMove (i : Nat) (hm : SchedMove k s s') : SameSession i s s' := by
  cases hm <;> exact ⟨rfl, rfl, rfl, rfl⟩

/-- Sending a message: it is an answer before and after. -/
theorem sameSession_send (hc : Calls k s) {r : Request} {o : Out} {outs : List Out}
    (hpc : s.mmuPc = .serving r (o :: outs)) (hproc : s'.proc = s.proc)
    (hreq : s'.requests = s.requests) (hmmu : s'.mmu = s.mmu)
    (hreplies : s'.replies = (s.post r.id o).replies)
    (hleft : s'.mmuPc.answersTo i = outs.filterMap (Out.replyTo i)) : SameSession i s s' := by
  have hid : ∀ id x, o = .reply id x → id = r.id := fun id x ho =>
    (hc.serving r _ hpc).2 id x (by simp [ho])
  constructor
  case proc => rw [hproc]
  case asks => rw [Sys.asks, Sys.asks, hreq]
  case answers =>
    rw [Sys.answers, Sys.answers, hreplies, hleft, replies_post s hid, hpc, MmuPc.answersTo,
      List.append_assoc]
    cases ho : o.replyTo i with
    | none => rw [List.filterMap_cons_none ho, Option.toList_none, List.nil_append]
    | some x => rw [List.filterMap_cons_some ho, Option.toList_some, List.singleton_append]
  case mmu => exact hmmu

theorem session_mmuMove (hc : Calls k s) (i : Nat) (hm : MmuMove k m s s') :
    SameSession i s s'
      ∨ ∃ r rest, s.mmuPc = .idle ∧ s.requests = r :: rest ∧ s' = s.receive m r rest := by
  cases hm with
  | receive r rest hpc _ hreq => exact .inr ⟨r, rest, hpc, hreq, rfl⟩
  | silent r hpc => exact .inl ⟨rfl, rfl, by simp [Sys.answers, Sys.finish, hpc, MmuPc.answersTo], rfl⟩
  | last r o hpc =>
      left
      apply sameSession_send hc hpc
      · exact post_proc s r.id o
      · exact post_requests s r.id o
      · cases o <;> rfl
      · rfl
      · rfl
  | send r o o' outs hpc =>
      left
      apply sameSession_send hc hpc
      · exact post_proc s r.id o
      · exact post_requests s r.id o
      · cases o <;> rfl
      · rfl
      · rfl

theorem procMove_mmu {j : Nat} (hm : ProcMove pages j s s') : s'.mmu = s.mmu := by
  cases hm <;> rfl

/-- **What a step is to process `i`.** -/
theorem session_cases (hc : Calls k s) (i : Nat) {a : Party}
    (h : (pagingMachine k m f refs).next s a = some s') :
    (i < k ∧ a = .proc i ∧ ProcMove (refs i) i s s')
      ∨ (a ≠ .proc i ∧ SameSession i s s')
      ∨ (a = .mmu ∧ ∃ r rest, s.mmuPc = .idle ∧ s.requests = r :: rest ∧ s' = s.receive m r rest) := by
  rcases pagingMachine_cases h with ⟨j, hj, rfl, hm⟩ | ⟨rfl, hm⟩ | ⟨rfl, hm⟩
  · by_cases hji : j = i
    · subst hji
      exact .inl ⟨hj, rfl, hm⟩
    · refine .inr (.inl ⟨fun hc => hji ?_, sameSession_procMove hji hm⟩)
      cases hc
      rfl
  · exact .inr (.inl ⟨nofun, sameSession_schedMove i hm⟩)
  · rcases session_mmuMove hc i hm with hsame | hrecv
    · exact .inr (.inl ⟨nofun, hsame⟩)
    · exact .inr (.inr ⟨rfl, hrecv⟩)

/-! ## What a call is about -/

/-- Questions and answers are about the page process `i` waits for, and the answers are right. -/
structure InCall (pages : List Int) (i : Nat) (R : Int → Int → Prop) (s : Sys) : Prop where
  asks : ∀ r ∈ s.asks i, ∃ count, s.proc i = .awaitReply count ∧ pages[count]? = some r.pageNumber
  answers : ∀ x ∈ s.answers i, ∃ count page, s.proc i = .awaitReply count
    ∧ pages[count]? = some page ∧ R page x

theorem inCall_start (pcb : List Pcb) : InCall pages i R (startSys k m f pcb) where
  asks := by
    intro r hr
    simp [Sys.asks, startSys] at hr
  answers := by
    intro x hx
    simp [Sys.answers, startSys, MmuPc.answersTo] at hx

theorem InCall.same (h : InCall pages i R s) (hs : SameSession i s s') : InCall pages i R s' where
  asks := by
    rw [hs.asks, hs.proc]
    exact h.asks
  answers := by
    rw [hs.answers, hs.proc]
    exact h.answers

/-- The reply a process receives is right for the page it waits for. -/
theorem InCall.received {count : Nat} {x : Int} {rest : List Int} (h : InCall pages i R s)
    (hpc : s.proc i = .awaitReply count) (hr : s.replies i = x :: rest) :
    ∃ page, pages[count]? = some page ∧ R page x := by
  have hmem : x ∈ s.answers i := by
    rw [Sys.answers, hr]
    exact List.mem_append_left _ List.mem_cons_self
  obtain ⟨c, page, hc, hpage, hx⟩ := h.answers x hmem
  rw [hpc] at hc
  cases hc
  exact ⟨page, hpage, hx⟩

/-- After a step of its own, a process has asked, or no call of it is under way. -/
theorem inCall_procMove (hc : Calls k s) (hi : i < k) (hm : ProcMove pages i s s') :
    InCall pages i R s' := by
  have hc' := calls_procMove hc hi hm
  have hquiet : s'.asks i = [] → s'.answers i = [] → InCall pages i R s' := by
    intro hasks hanswers
    constructor
    · rw [hasks]
      exact fun r hr => absurd hr List.not_mem_nil
    · rw [hanswers]
      exact fun x hx => absurd hx List.not_mem_nil
  have hpast : ¬ (s'.proc i).Waits → InCall pages i R s' := by
    intro hw
    obtain ⟨hasks, hanswers⟩ := session_nil hc' hw
    exact hquiet hasks hanswers
  cases hm with
  | register _ | dispatched _ _ | leave _ _ _ =>
      apply hpast
      simp only [Function.update_self]
      exact fun hw => hw
  | answered count x rest _ _ =>
      apply hpast
      simp only [Function.update_self]
      exact not_waits_afterReply count x
  | ask count page hpc hpage =>
      -- nothing was under way, so the new request is the only one
      obtain ⟨hasks, hanswers⟩ := session_nil hc (i := i) (by rw [hpc]; exact fun hw => hw)
      constructor
      case asks =>
        intro r hr
        simp only [Sys.asks, List.filter_append, List.mem_append] at hr hasks
        rw [hasks] at hr
        rcases hr with hr | hr
        · cases hr
        · obtain rfl := List.mem_singleton.mp (List.mem_filter.mp hr).1
          exact ⟨count, Function.update_self .., hpage⟩
      case answers =>
        intro x hx
        have hnone : x ∈ s.answers i := hx
        rw [hanswers] at hnone
        cases hnone
  | exit hpc =>
      obtain ⟨hasks, hanswers⟩ := session_nil hc (i := i) (by rw [hpc]; exact fun hw => hw)
      apply hquiet
      · have hdone : (⟨i, PROCESS_DONE⟩ : Request).IsDone := rfl
        simp only [Sys.asks, List.filter_append] at hasks ⊢
        rw [hasks, List.nil_append]
        simp [hdone]
      · exact hanswers

/-- The MMU receives a request: what it answers process `i`, if the request is its, must be right. -/
theorem inCall_receive (h : InCall pages i R s) {r : Request} {rest : List Request}
    (hreq : s.requests = r :: rest)
    (hR : ∀ count page x, s.proc i = .awaitReply count → pages[count]? = some page → R page x →
      R' page x)
    (hserve : ∀ count page x, r = ⟨i, page⟩ → ¬ r.IsDone → s.proc i = .awaitReply count →
      pages[count]? = some page → Out.reply i x ∈ (serveRequest m s.mmu (some r)).2 → R' page x) :
    InCall pages i R' (s.receive m r rest) where
  asks := by
    intro q hq
    refine h.asks q ?_
    rw [Sys.asks, hreq]
    obtain ⟨hmem, hown⟩ := List.mem_filter.mp hq
    exact List.mem_filter.mpr ⟨List.mem_cons_of_mem r hmem, hown⟩
  answers := by
    intro x hx
    rcases List.mem_append.mp hx with hx | hx
    · -- a reply that was there before
      have hold : x ∈ s.answers i := List.mem_append_left _ hx
      obtain ⟨count, page, hwait, hpage, hr⟩ := h.answers x hold
      exact ⟨count, page, hwait, hpage, hR count page x hwait hpage hr⟩
    · obtain ⟨o, ho, hox⟩ := List.mem_filterMap.mp hx
      have hreply : o = .reply i x := by
        cases o with
        | notify type => cases hox
        | reply id y =>
            simp only [Out.replyTo] at hox
            split at hox
            case isTrue hid => rw [hid, Option.some.inj hox]
            case isFalse => cases hox
      -- a reply to this request: the request is one of the process, and no `PROCESS_DONE`
      rw [hreply] at ho
      have hwell := wellServed_serveRequest m s.mmu r
      have hid : i = r.id := by exact_mod_cast hwell.2 i x ho
      have hd : ¬ r.IsDone := by
        intro hd
        rw [hwell.1 hd] at ho
        simp at ho
      obtain ⟨count, hwait, hpage⟩ := h.asks r (mem_asks hreq hid.symm hd)
      refine ⟨count, r.pageNumber, hwait, hpage, hserve count _ x ?_ hd hwait hpage ho⟩
      rw [hid]

/-! ## The log -/

/-- For each process the pages it has referred to, with the replies, oldest first. -/
abbrev Log := Nat → List (Int × Int)

/-- What a step of process `i` adds. -/
def answeredNow (pages : List Int) (i : Nat) (s : Sys) : List (Int × Int) :=
  match s.proc i, s.replies i with
  | .awaitReply count, x :: _ => pages[count]?.toList.map fun page => (page, x)
  | _, _ => []

def logStep (refs : Nat → List Int) (s : Sys) (a : Party) (log : Log) : Log :=
  match a with
  | .proc i => Function.update log i (log i ++ answeredNow (refs i) i s)
  | _ => log

/-- The system with the log. -/
def loggedMachine (k m f : Nat) (refs : Nat → List Int) : Machine (Sys × Log) Party :=
  (pagingMachine k m f refs).withHistory (fun _ => []) (logStep refs)

theorem logStep_self (log : Log) :
    logStep refs s (.proc i) log i = log i ++ answeredNow (refs i) i s := Function.update_self ..

theorem logStep_other {a : Party} (ha : a ≠ .proc i) (log : Log) :
    logStep refs s a log i = log i := by
  cases a with
  | proc j =>
      have hij : i ≠ j := fun hc => ha (by rw [hc])
      exact Function.update_of_ne hij _ _
  | sched => rfl
  | mmu => rfl

theorem answeredNow_eq {count : Nat} {page x : Int} {rest : List Int}
    (hpc : s.proc i = .awaitReply count) (hr : s.replies i = x :: rest)
    (hpage : pages[count]? = some page) : answeredNow pages i s = [(page, x)] := by
  simp [answeredNow, hpc, hr, hpage]

/-- Elsewhere the process receives no reply. -/
theorem append_answeredNow {pc : ProcPc} (hpc : s.proc i = pc) (hw : ∀ count, pc ≠ .awaitReply count)
    (log : List (Int × Int)) : log ++ answeredNow pages i s = log := by
  have hnil : answeredNow pages i s = [] := by
    unfold answeredNow
    split
    case h_1 hpc' _ => exact absurd (hpc.symm.trans hpc') (hw _)
    case h_2 => rfl
  rw [hnil, List.append_nil]

end OSLab.Paging
