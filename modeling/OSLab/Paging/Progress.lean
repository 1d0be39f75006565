import OSLab.Paging.Termination
import OSLab.Lib.Count

set_option autoImplicit false

/-! # On legal runs nobody waits for ever

The processes and the scheduler with an MMU that answers a page as it likes: with a page fault, of
which it then notifies the scheduler, or with a frame (`answeringMachine`). The MMU of `mmu.c` is one
such MMU as long as it receives no illegal page (`answering_of_paging`).

After a fault the scheduler puts the process back into the ready queue and dispatches it again,
although it asks on without waiting. So the ready queue holds processes that run, and processes that
have exited. What keeps the system going is a count (`Flow`): the ready queue, with the process the
scheduler has in hand, is as long as there are registered processes not yet counted as terminated. If
all who have been dispatched had exited, and the scheduler waited for another notification, then the
ready queue alone would hold all the others, and be too short by one for it (`awaits_notice`).
-/

namespace OSLab.Paging

variable {k m f : Nat} {refs : Nat → List Int} {s s' : Sys} {i : Nat}

/-! ## An MMU that answers as it likes -/

/-- What the MMU does about a request for a page: whatever it does to its own structures, and the
frame it answers with, or `none` for a page fault. -/
structure Answer where
  mmu : Mmu
  frame : Option Int

/-- The messages the MMU sends for a request. -/
def answerOuts (r : Request) : Option Int → List Out
  | none => [.reply r.id PAGE_FAULT, .notify .pageFaultHandled]
  | some x => [.reply r.id x]

def Sys.receiveAnswer (s : Sys) (r : Request) (rest : List Request) (a : Answer) : Sys :=
  if r.IsDone then { s with
    requests := rest
    mmu := { a.mmu with terminated := s.mmu.terminated + 1 }
    mmuPc := .serving r [.notify .processTerm] }
  else { s with
    requests := rest
    mmu := { a.mmu with terminated := s.mmu.terminated }
    mmuPc := .serving r (answerOuts r a.frame) }

/-- One step of such an MMU. -/
def answerNext (k : Nat) (s : Sys) (a : Answer) : Option Sys :=
  match s.mmuPc with
  | .idle =>
      if s.mmu.terminated < k then
        match s.requests with
        | [] => none
        | r :: rest => some (s.receiveAnswer r rest a)
      else none
  | .serving _ _ => mmuNext k 0 s

/-- Who moves, and what the MMU answers. -/
inductive Mover
  | proc (i : Nat)
  | sched
  | mmu (a : Answer)

/-- `k` processes with the reference strings `refs`, the scheduler, and an MMU that answers as it
likes. -/
def answeringMachine (k m f : Nat) (refs : Nat → List Int) : Machine Sys Mover where
  init := (pagingMachine k m f refs).init
  next s
    | .proc i => if i < k then procNext (refs i) i s else none
    | .sched => schedNext k s
    | .mmu a => answerNext k s a

/-- Every reference arrives at the MMU as a page number, not as a `PROCESS_DONE`. -/
def PagesArrive (k : Nat) (refs : Nat → List Int) : Prop :=
  ∀ i < k, ∀ page ∈ refs i, 0 ≤ page ∧ page < 128

theorem not_isDone_of_page (id : Nat) {page : Int} (hp : 0 ≤ page ∧ page < 128) :
    ¬ (⟨id, page⟩ : Request).IsDone := by
  unfold Request.IsDone
  rw [page_eq id hp, PROCESS_DONE]
  omega

/-! ## The counts -/

/-- The replies to process `i` that the MMU has left to send. -/
def MmuPc.repliesTo (i : Nat) : MmuPc → Nat
  | .idle => 0
  | .serving _ outs => outs.countP (Out.isReplyTo i)

/-- The `PROCESS_TERM`s the MMU has left to send. -/
def MmuPc.terms : MmuPc → Nat
  | .idle => 0
  | .serving _ outs => outs.countP (· = .notify .processTerm)

@[simp] theorem MmuPc.repliesTo_idle (i : Nat) : MmuPc.idle.repliesTo i = 0 := rfl
@[simp] theorem MmuPc.repliesTo_serving (i : Nat) (r : Request) (outs : List Out) :
    (MmuPc.serving r outs).repliesTo i = outs.countP (Out.isReplyTo i) := rfl
@[simp] theorem MmuPc.terms_idle : MmuPc.idle.terms = 0 := rfl
@[simp] theorem MmuPc.terms_serving (r : Request) (outs : List Out) :
    (MmuPc.serving r outs).terms = outs.countP (· = .notify .processTerm) := rfl

/-- The replies to process `i` that are under way, from its request on. -/
def Sys.awaited (s : Sys) (i : Nat) : Nat :=
  s.requests.countP (fun r => r.id = i ∧ ¬ r.IsDone) + s.mmuPc.repliesTo i + (s.replies i).length

/-- The `PROCESS_TERM`s the MMU has decided on. -/
def Sys.terms (s : Sys) : Nat :=
  s.termCount + s.msgq2.countP (fun n => n.type = .processTerm) + s.mmuPc.terms

/-- The scheduler has an id in hand. -/
def SchedPc.inHand : SchedPc → Nat
  | .readReady => 0
  | .dispatch _ => 1
  | .readNotice _ => 1
  | .requeue _ => 1
  | .left => 0

/-- **The flow of ids and messages.** -/
structure Flow (k : Nat) (s : Sys) : Prop where
  awaited : ∀ i count, s.proc i = .awaitReply count → 0 < s.awaited i
  exits : Nat.count (fun i => s.proc i = .exited) k
    = s.terms + s.requests.countP (fun r => r.IsDone)
  terminated : s.mmu.terminated = s.terms
  roll : s.readyFrom.length + s.sched.inHand + s.termCount
    = Nat.count (fun i => s.proc i ≠ .register) k
  listed : ∀ i, s.proc i = .awaitDispatch → s.readyTo i = 0 →
    i ∈ s.readyFrom ∨ s.sched = .dispatch i
  remaining : s.sched ≠ .left → s.termCount < k
  serving : ∀ r outs, s.mmuPc = .serving r outs → ∀ id x, Out.reply id x ∈ outs → id = r.id

theorem flow_start (hk : 1 ≤ k) (pcb : List Pcb) : Flow k (startSys k m f pcb) := by
  constructor
  case exits => simp [startSys, Sys.terms, MmuPc.terms]
  case terminated => rfl
  case roll => simp [startSys, SchedPc.inHand]
  case remaining => exact fun _ => hk
  case awaited => exact fun _ _ h => by cases h
  case listed => exact fun _ h => by cases h
  case serving => exact fun _ _ h => by cases h

/-! ## The steps of the processes -/

theorem procMove_ne {pages : List Int} (hm : ProcMove pages i s s') {j : Nat} (hj : j ≠ i) :
    s'.proc j = s.proc j := by
  cases hm <;> exact Function.update_of_ne hj _ _

theorem awaited_procMove {pages : List Int} (h : Flow k s) (hm : ProcMove pages i s s')
    (hpages : ∀ page ∈ pages, 0 ≤ page ∧ page < 128) {j count : Nat}
    (hj : s'.proc j = .awaitReply count) : 0 < s'.awaited j := by
  by_cases hji : j = i
  · -- only a process that asks starts to wait
    subst hji
    cases hm with
    | ask c page _ hpage =>
        have hnot := not_isDone_of_page j (hpages page (List.mem_of_getElem? hpage))
        simp only [Sys.awaited, List.countP_append, List.countP_singleton, hnot,
          not_false_eq_true, and_self, decide_true, if_true]
        omega
    | answered c x rest _ _ =>
        simp only [Function.update_self] at hj
        exact absurd (hj ▸ trivial : (afterReply c x).Waits) (not_waits_afterReply c x)
    | _ =>
        simp only [Function.update_self] at hj
        cases hj
  · rw [procMove_ne hm hji] at hj
    have hold := h.awaited j count hj
    cases hm with
    | ask c page _ _ => simpa [Sys.awaited, Ne.symm hji] using hold
    | exit _ => simpa [Sys.awaited, Ne.symm hji] using hold
    | answered c x rest _ _ => simpa [Sys.awaited, Function.update_of_ne hji] using hold
    | _ => exact hold

theorem exits_procMove {pages : List Int} (hm : ProcMove pages i s s') (hi : i < k)
    (hpages : ∀ page ∈ pages, 0 ≤ page ∧ page < 128) :
    Nat.count (fun j => s'.proc j = .exited) k + s.requests.countP (fun r => r.IsDone)
      = Nat.count (fun j => s.proc j = .exited) k + s'.requests.countP (fun r => r.IsDone) := by
  have hc := count_change (p := fun j => s.proc j = .exited) (q := fun j => s'.proc j = .exited) hi
    (fun j _ hj => by rw [procMove_ne hm hj])
  cases hm with
  | ask c page hpc hpage =>
      have hnot := not_isDone_of_page i (hpages page (List.mem_of_getElem? hpage))
      simp only [Function.update_self, hpc, reduceCtorEq, if_false] at hc
      simp only [List.countP_append, List.countP_singleton, hnot, decide_false,
        Bool.false_eq_true, if_false]
      omega
  | exit hpc =>
      have hdone : (⟨i, PROCESS_DONE⟩ : Request).IsDone := rfl
      simp only [Function.update_self, hpc, reduceCtorEq, if_false, if_true] at hc
      simp only [List.countP_append, List.countP_singleton, hdone, decide_true, if_true]
      omega
  | answered c x rest hpc _ =>
      have hne : afterReply c x ≠ .exited := fun heq =>
        not_waits_afterReply c x (heq ▸ trivial)
      simp only [Function.update_self, hpc, hne, reduceCtorEq, if_false] at hc ⊢
      omega
  | register hpc | dispatched hpc _ | leave _ hpc _ =>
      simp only [Function.update_self, hpc, reduceCtorEq, if_false] at hc ⊢
      omega

theorem registered_procMove {pages : List Int} (hm : ProcMove pages i s s') (hi : i < k) :
    s'.readyFrom.length + Nat.count (fun j => s.proc j ≠ .register) k
      = s.readyFrom.length + Nat.count (fun j => s'.proc j ≠ .register) k := by
  have hc := count_change (p := fun j => s.proc j ≠ .register)
    (q := fun j => s'.proc j ≠ .register) hi (fun j _ hj => by rw [procMove_ne hm hj])
  cases hm with
  | register hpc =>
      simp only [Function.update_self, hpc, ne_eq, not_true_eq_false, reduceCtorEq,
        not_false_eq_true, if_false, if_true] at hc ⊢
      rw [List.length_append, List.length_singleton]
      omega
  | answered c x rest hpc _ =>
      have hne : afterReply c x ≠ .register := by
        unfold afterReply
        split_ifs <;> nofun
      simp only [Function.update_self, hpc, hne, ne_eq, reduceCtorEq, not_false_eq_true,
        if_true] at hc ⊢
      omega
  | dispatched hpc _ | ask _ _ hpc _ | leave _ hpc _ | exit hpc =>
      simp only [Function.update_self, hpc, ne_eq, reduceCtorEq, not_false_eq_true, if_true] at hc ⊢
      omega

theorem listed_procMove {pages : List Int} (h : Flow k s) (hm : ProcMove pages i s s') {j : Nat}
    (hj : s'.proc j = .awaitDispatch) (hto : s'.readyTo j = 0) :
    j ∈ s'.readyFrom ∨ s'.sched = .dispatch j := by
  by_cases hji : j = i
  · -- only a process that registers starts to wait for a dispatch
    subst hji
    cases hm with
    | register _ => exact .inl (List.mem_append_right _ (List.mem_singleton.mpr rfl))
    | answered c x rest _ _ =>
        simp only [Function.update_self] at hj
        unfold afterReply at hj
        split_ifs at hj
    | _ =>
        simp only [Function.update_self] at hj
        cases hj
  · rw [procMove_ne hm hji] at hj
    cases hm with
    | register _ => exact (h.listed j hj hto).imp (List.mem_append_left _) id
    | dispatched _ _ =>
        simp only [Function.update_of_ne hji] at hto
        exact h.listed j hj hto
    | _ => exact h.listed j hj hto

theorem flow_procMove (h : Flow k s) {pages : List Int} (hm : ProcMove pages i s s') (hi : i < k)
    (hpages : ∀ page ∈ pages, 0 ≤ page ∧ page < 128) : Flow k s' := by
  have hexits := exits_procMove hm hi hpages
  have hroll := registered_procMove hm hi
  have hsame : s'.terms = s.terms ∧ s'.mmu = s.mmu ∧ s'.mmuPc = s.mmuPc ∧ s'.sched = s.sched
      ∧ s'.termCount = s.termCount := by
    cases hm <;> exact ⟨rfl, rfl, rfl, rfl, rfl⟩
  obtain ⟨hterms, hmmu, hmmuPc, hsched, hcount⟩ := hsame
  constructor
  case awaited => exact fun j c => awaited_procMove h hm hpages
  case exits =>
    have := h.exits
    omega
  case terminated => rw [hmmu, hterms, h.terminated]
  case roll =>
    have := h.roll
    rw [hsched, hcount]
    omega
  case listed => exact fun j => listed_procMove h hm
  case remaining =>
    rw [hsched, hcount]
    exact h.remaining
  case serving =>
    rw [hmmuPc]
    exact h.serving

/-! ## The steps of the scheduler -/

theorem flow_schedMove (h : Flow k s) (hm : SchedMove k s s') : Flow k s' := by
  have hroll := h.roll
  cases hm with
  | readReady id rest hpc hready =>
      constructor
      case awaited => exact h.awaited
      case exits => exact h.exits
      case terminated => exact h.terminated
      case roll =>
        rw [hpc, hready, List.length_cons] at hroll
        simp only [SchedPc.inHand] at hroll ⊢
        omega
      case listed =>
        intro j hj hto
        have hold := h.listed j hj hto
        rw [hready, hpc] at hold
        rcases hold with hmem | hc
        · rcases List.mem_cons.mp hmem with rfl | hmem
          · exact .inr rfl
          · exact .inl hmem
        · cases hc
      case remaining => exact fun _ => h.remaining (by rw [hpc]; nofun)
      case serving => exact h.serving
  | dispatch id hpc =>
      constructor
      case awaited => exact h.awaited
      case exits => exact h.exits
      case terminated => exact h.terminated
      case roll =>
        rw [hpc] at hroll
        exact hroll
      case listed =>
        intro j hj hto
        have hji : j ≠ id := by
          rintro rfl
          simp only [Function.update_self] at hto
          omega
        simp only [Function.update_of_ne hji] at hto
        rcases h.listed j hj hto with hmem | hc
        · exact .inl hmem
        · rw [hpc] at hc
          cases hc
          exact absurd rfl hji
      case remaining => exact fun _ => h.remaining (by rw [hpc]; nofun)
      case serving => exact h.serving
  | faultHandled id cause rest hpc hq =>
      have hterms : Sys.terms { s with msgq2 := rest, sched := .requeue id } = s.terms := by
        simp [Sys.terms, hq]
      constructor
      case awaited => exact h.awaited
      case exits => exact hterms ▸ h.exits
      case terminated => exact hterms ▸ h.terminated
      case roll =>
        rw [hpc] at hroll
        exact hroll
      case listed =>
        intro j hj hto
        rcases h.listed j hj hto with hmem | hc
        · exact .inl hmem
        · rw [hpc] at hc
          cases hc
      case remaining => exact fun _ => h.remaining (by rw [hpc]; nofun)
      case serving => exact h.serving
  | terminated id cause rest hpc hq =>
      have hlt := h.remaining (by rw [hpc]; nofun)
      have hterms : Sys.terms { s with
          msgq2 := rest
          termCount := s.termCount + 1
          reported := s.reported ++ [id]
          sched := if s.termCount + 1 = k then .left else .readReady } = s.terms := by
        simp only [Sys.terms, hq, List.countP_cons, decide_true, if_true]
        omega
      constructor
      case awaited => exact h.awaited
      case exits => exact hterms ▸ h.exits
      case terminated => exact hterms ▸ h.terminated
      case roll =>
        -- the id in hand is dropped
        rw [hpc] at hroll
        simp only [SchedPc.inHand] at hroll
        show _ + SchedPc.inHand (if _ then _ else _) + _ = _
        split <;> simp only [SchedPc.inHand] <;> omega
      case listed =>
        intro j hj hto
        rcases h.listed j hj hto with hmem | hc
        · exact .inl hmem
        · rw [hpc] at hc
          cases hc
      case remaining =>
        intro hleft
        simp only at hleft ⊢
        split at hleft
        · exact absurd rfl hleft
        · omega
      case serving => exact h.serving
  | requeue id hpc =>
      constructor
      case awaited => exact h.awaited
      case exits => exact h.exits
      case terminated => exact h.terminated
      case roll =>
        rw [hpc] at hroll
        simp only [SchedPc.inHand] at hroll ⊢
        rw [List.length_append, List.length_singleton]
        omega
      case listed =>
        intro j hj hto
        rcases h.listed j hj hto with hmem | hc
        · exact .inl (List.mem_append_left _ hmem)
        · rw [hpc] at hc
          cases hc
      case remaining => exact fun _ => h.remaining (by rw [hpc]; nofun)
      case serving => exact h.serving

/-! ## The steps of the MMU -/

/-- A step of the MMU that only moves messages on. -/
theorem Flow.of_mmu (h : Flow k s) (hproc : s'.proc = s.proc) (hready : s'.readyFrom = s.readyFrom)
    (hto : s'.readyTo = s.readyTo) (hsched : s'.sched = s.sched)
    (hcount : s'.termCount = s.termCount) (hawaited : ∀ j, s'.awaited j = s.awaited j)
    (hexits : s'.terms + s'.requests.countP (fun r => r.IsDone)
      = s.terms + s.requests.countP (fun r => r.IsDone))
    (hterminated : s'.mmu.terminated = s'.terms)
    (hserving : ∀ r outs, s'.mmuPc = .serving r outs → ∀ id x, Out.reply id x ∈ outs → id = r.id) :
    Flow k s' := by
  constructor
  case awaited =>
    intro j c hj
    rw [hawaited]
    exact h.awaited j c (hproc ▸ hj)
  case exits => rw [hproc, h.exits, hexits]
  case terminated => exact hterminated
  case roll => rw [hready, hsched, hcount, hproc, h.roll]
  case listed =>
    rw [hproc, hto, hready, hsched]
    exact h.listed
  case remaining =>
    rw [hsched, hcount]
    exact h.remaining
  case serving => exact hserving

theorem repliesTo_answerOuts (r : Request) (x : Option Int) (j : Nat) :
    (MmuPc.serving r (answerOuts r x)).repliesTo j = if r.id = j then 1 else 0 := by
  cases x <;> simp [answerOuts, Out.isReplyTo, List.countP_cons]

theorem flow_receive (h : Flow k s) {r : Request} {rest : List Request} (a : Answer)
    (hpc : s.mmuPc = .idle) (hreq : s.requests = r :: rest) :
    Flow k (s.receiveAnswer r rest a) := by
  have hterminated := h.terminated
  rw [Sys.terms, hpc, MmuPc.terms_idle] at hterminated
  unfold Sys.receiveAnswer
  split
  -- `PROCESS_DONE` has no reply, and one termination to be announced
  case isTrue hdone =>
    apply h.of_mmu
    case hawaited =>
      intro j
      simp [Sys.awaited, hpc, hreq, hdone, Out.isReplyTo]
    case hexits =>
      simp only [Sys.terms, hpc, MmuPc.terms_idle, MmuPc.terms_serving, hreq, List.countP_cons,
        List.countP_nil, hdone, decide_true, if_true]
      omega
    case hterminated => simp [Sys.terms, hterminated]
    case hserving =>
      intro r' outs hs id x hx
      cases hs
      simp at hx
    all_goals rfl
  -- a page has at most one reply, to the process that asks
  case isFalse hdone =>
    have hterms : (MmuPc.serving r (answerOuts r a.frame)).terms = 0 := by
      cases a.frame <;> rfl
    apply h.of_mmu
    case hawaited =>
      intro j
      simp only [Sys.awaited, repliesTo_answerOuts, hpc, MmuPc.repliesTo_idle, hreq,
        List.countP_cons, hdone, not_false_eq_true, and_true, decide_eq_true_eq]
      omega
    case hexits => simp [Sys.terms, hterms, hpc, hreq, hdone]
    case hterminated => simp only [Sys.terms, hterms, hterminated]
    case hserving =>
      intro r' outs hs id x hx
      cases hs
      cases hf : a.frame <;> simp [answerOuts, hf] at hx <;> exact hx.1
    all_goals rfl

theorem terms_post (s : Sys) (c : Nat) (o : Out) :
    (s.post c o).msgq2.countP (fun n => n.type = .processTerm)
      = s.msgq2.countP (fun n => n.type = .processTerm)
        + if o = .notify .processTerm then 1 else 0 := by
  cases o with
  | reply id x => simp [Sys.post]
  | notify type => simp [Sys.post, List.countP_append, List.countP_singleton]

@[simp] theorem post_mmu (s : Sys) (c : Nat) (o : Out) : (s.post c o).mmu = s.mmu := by
  cases o <;> rfl
@[simp] theorem post_readyFrom (s : Sys) (c : Nat) (o : Out) :
    (s.post c o).readyFrom = s.readyFrom := by cases o <;> rfl
@[simp] theorem post_readyTo (s : Sys) (c : Nat) (o : Out) :
    (s.post c o).readyTo = s.readyTo := by cases o <;> rfl

/-- One message goes from the MMU into its queue. -/
theorem Flow.send {r : Request} {o : Out} {outs : List Out} {pc : MmuPc} {served : List Request}
    (h : Flow k s) (hpc : s.mmuPc = .serving r (o :: outs))
    (hreplies : ∀ j, pc.repliesTo j = outs.countP (Out.isReplyTo j))
    (hterms : pc.terms = outs.countP (· = .notify .processTerm))
    (hserving : ∀ r' outs', pc = .serving r' outs' → r' = r ∧ outs' = outs) :
    Flow k { s.post r.id o with mmuPc := pc, handled := served } := by
  have hid : ∀ id x, o = .reply id x → id = r.id := fun id x ho =>
    h.serving r _ hpc id x (by simp [ho])
  have hsame : Sys.terms { s.post r.id o with mmuPc := pc, handled := served } = s.terms := by
    simp only [Sys.terms, terms_post, post_termCount, hpc, hterms, MmuPc.terms_serving,
      List.countP_cons, decide_eq_true_eq]
    omega
  apply h.of_mmu
  case hproc => exact post_proc s r.id o
  case hready => exact post_readyFrom s r.id o
  case hto => exact post_readyTo s r.id o
  case hsched => exact post_sched s r.id o
  case hcount => exact post_termCount s r.id o
  case hawaited =>
    intro j
    have hlen := length_replies_post s hid j
    simp only [Sys.awaited, post_requests, hlen, hpc, hreplies, MmuPc.repliesTo_serving,
      List.countP_cons]
    omega
  case hexits => rw [hsame, post_requests]
  case hterminated =>
    rw [hsame]
    exact (congrArg Mmu.terminated (post_mmu s r.id o)).trans h.terminated
  case hserving =>
    intro r' outs' hs id x hx
    obtain ⟨rfl, rfl⟩ := hserving r' outs' hs
    exact h.serving r' _ hpc id x (List.mem_cons_of_mem o hx)

theorem flow_serving (h : Flow k s) (hm : MmuMove k m s s') (hbusy : s.mmuPc ≠ .idle) :
    Flow k s' := by
  cases hm with
  | receive r rest hpc _ _ => exact absurd hpc hbusy
  | silent r hpc =>
      apply h.of_mmu
      case hawaited => exact fun j => by simp [Sys.awaited, Sys.finish, hpc]
      case hexits => simp [Sys.terms, Sys.finish, hpc]
      case hterminated => simpa [Sys.terms, Sys.finish, hpc] using h.terminated
      case hserving => exact fun _ _ hs => by cases hs
      all_goals rfl
  | last r o hpc => exact h.send hpc (fun _ => rfl) rfl fun _ _ hs => by cases hs
  | send r o o' outs hpc =>
      exact h.send hpc (fun _ => rfl) rfl fun _ _ hs => by
        cases hs
        exact ⟨rfl, rfl⟩

/-! ## Every reachable state -/

theorem flow_next (h : Flow k s) (hpages : PagesArrive k refs) {a : Mover}
    (hs : (answeringMachine k m f refs).next s a = some s') : Flow k s' := by
  cases a with
  | proc i =>
      simp only [answeringMachine] at hs
      split_ifs at hs with hi
      exact flow_procMove h (procMove_of_next hs) hi (hpages i hi)
  | sched => exact flow_schedMove h (schedMove_of_next hs)
  | mmu a =>
      simp only [answeringMachine, answerNext] at hs
      cases hpc : s.mmuPc with
      | idle =>
          rw [hpc] at hs
          simp only at hs
          split_ifs at hs
          cases hreq : s.requests with
          | nil =>
              rw [hreq] at hs
              cases hs
          | cons r rest =>
              rw [hreq] at hs
              obtain rfl := Option.some.inj hs
              exact flow_receive h a hpc hreq
      | serving r outs =>
          rw [hpc] at hs
          exact flow_serving h (mmuMove_of_next hs) (by rw [hpc]; nofun)

theorem flow_reachable (hk : 1 ≤ k) (hpages : PagesArrive k refs)
    (h : (answeringMachine k m f refs).Reachable s) : Flow k s := by
  apply h.invariant
  · rintro s ⟨pcb, -, rfl⟩
    exact flow_start hk pcb
  · exact fun s a s' hI _ hs => flow_next hI hpages hs

/-! ## Who cannot move -/

theorem stuck_proc {pages : List Int} (hn : procNext pages i s = none) :
    (s.proc i = .awaitDispatch ∧ s.readyTo i = 0)
      ∨ (∃ count, s.proc i = .awaitReply count ∧ s.replies i = []) ∨ s.proc i = .exited := by
  unfold procNext at hn
  split at hn
  case h_2 hpc =>
    split at hn
    · cases hn
    · exact .inl ⟨hpc, by omega⟩
  case h_4 count hpc =>
    split at hn
    case h_1 hnil => exact .inr (.inl ⟨count, hpc, hnil⟩)
    case h_2 => cases hn
  case h_6 hpc => exact .inr (.inr hpc)
  case h_3 => split at hn <;> cases hn
  all_goals cases hn

theorem stuck_sched (hn : schedNext k s = none) :
    (s.sched = .readReady ∧ s.readyFrom = [])
      ∨ (∃ id, s.sched = .readNotice id ∧ s.msgq2 = []) ∨ s.sched = .left := by
  unfold schedNext at hn
  split at hn
  case h_1 hpc =>
    split at hn
    case h_1 hnil => exact .inl ⟨hpc, hnil⟩
    case h_2 => cases hn
  case h_3 id hpc =>
    split at hn
    case h_1 hnil => exact .inr (.inl ⟨id, hpc, hnil⟩)
    all_goals cases hn
  case h_5 hpc => exact .inr (.inr hpc)
  all_goals cases hn

theorem stuck_mmu (hn : ∀ a, answerNext k s a = none) :
    s.mmuPc = .idle ∧ (k ≤ s.mmu.terminated ∨ s.requests = []) := by
  have hn := hn ⟨s.mmu, none⟩
  unfold answerNext at hn
  split at hn
  case h_1 hpc =>
    refine ⟨hpc, ?_⟩
    split at hn
    · split at hn
      case h_1 hnil => exact .inr hnil
      case h_2 => cases hn
    · exact .inl (by omega)
  case h_2 r outs hpc =>
    rw [mmuNext, hpc] at hn
    rcases outs with _ | ⟨o, _ | ⟨o', outs⟩⟩ <;> cases hn

/-- Nobody waits for a reply when nothing moves. -/
theorem Flow.no_reply (h : Flow k s) (hi : i < k) (hmmu : ∀ a, answerNext k s a = none)
    {count : Nat} (hpc : s.proc i = .awaitReply count) (hnil : s.replies i = []) : False := by
  obtain ⟨hidle, hstop⟩ := stuck_mmu hmmu
  have hawaited := h.awaited i count hpc
  rcases hstop with hdone | hreq
  · -- process `i` has not exited, so the MMU is still in its loop
    have hle : Nat.count (fun j => s.proc j = .exited) k < k := by
      apply lt_of_le_of_ne (Nat.count_le _)
      intro heq
      have := Nat.count_iff_forall.mp heq i hi
      rw [hpc] at this
      cases this
    have := h.exits
    have := h.terminated
    omega
  · simp [Sys.awaited, hidle, hreq, hnil] at hawaited

/-- **The scheduler does not wait for a notification for ever**: when nothing else moves, the ready
queue would have to hold more processes than are left. -/
theorem Flow.awaits_notice (h : Flow k s) {id : Nat} (hsched : s.sched = .readNotice id)
    (hnil : s.msgq2 = []) (hmmu : ∀ a, answerNext k s a = none)
    (hprocs : ∀ i < k, (s.proc i = .awaitDispatch ∧ s.readyTo i = 0) ∨ s.proc i = .exited) :
    False := by
  obtain ⟨hidle, hstop⟩ := stuck_mmu hmmu
  have hall : Nat.count (fun i => s.proc i ≠ .register) k = k := by
    apply Nat.count_iff_forall.mpr
    intro i hi
    rcases hprocs i hi with ⟨hpc, -⟩ | hpc <;> rw [hpc] <;> nofun
  have hleft : Nat.count (fun i => ¬ s.proc i = .exited) k ≤ s.readyFrom.length := by
    apply count_le_length
    intro i hi hne
    obtain ⟨hpc, hto⟩ := (hprocs i hi).resolve_right hne
    rcases h.listed i hpc hto with hmem | hc
    · exact hmem
    · rw [hsched] at hc
      cases hc
  have hsum := count_add_count_not (fun i => s.proc i = .exited) k
  have hterms : s.terms = s.termCount := by simp [Sys.terms, hnil, hidle]
  have hroll := h.roll
  have hexits := h.exits
  have hterminated := h.terminated
  have hrem := h.remaining (by rw [hsched]; nofun)
  rw [hsched, hall] at hroll
  simp only [SchedPc.inHand] at hroll
  -- no request is left, since the MMU is in its loop
  have hreq : s.requests = [] := hstop.resolve_left (by omega)
  rw [hreq, List.countP_nil] at hexits
  omega

/-- **No deadlock.** With references that are page numbers below 128, whatever the MMU answers, in
every state any interleaving reaches somebody can move until the scheduler has left its loop. -/
theorem paging_progress (hk : 1 ≤ k) (hpages : PagesArrive k refs)
    (h : (answeringMachine k m f refs).Reachable s) (hsched : s.sched ≠ .left) :
    ¬ (answeringMachine k m f refs).Stuck s := by
  intro hstuck
  have hflow := flow_reachable hk hpages h
  have hmmu : ∀ a, answerNext k s a = none := fun a => hstuck (.mmu a)
  have hprocs : ∀ i < k, (s.proc i = .awaitDispatch ∧ s.readyTo i = 0) ∨ s.proc i = .exited := by
    intro i hi
    have hnone : (if i < k then procNext (refs i) i s else none) = none := hstuck (.proc i)
    rw [if_pos hi] at hnone
    rcases stuck_proc hnone with hpc | ⟨count, hpc, hnil⟩ | hpc
    · exact .inl hpc
    · exact (hflow.no_reply hi hmmu hpc hnil).elim
    · exact .inr hpc
  rcases stuck_sched (hstuck .sched) with ⟨hpc, hnil⟩ | ⟨id, hpc, hnil⟩ | hpc
  · -- all ids are used up only when all processes are terminated
    have hall : Nat.count (fun i => s.proc i ≠ .register) k = k := by
      apply Nat.count_iff_forall.mpr
      intro i hi
      rcases hprocs i hi with ⟨hp, -⟩ | hp <;> rw [hp] <;> nofun
    have hroll := hflow.roll
    have hrem := hflow.remaining hsched
    rw [hpc, hnil, hall, List.length_nil] at hroll
    simp only [SchedPc.inHand] at hroll
    omega
  · exact hflow.awaits_notice hpc hnil hmmu hprocs
  · exact hsched hpc

/-- Process `0` runs after a fault, has a dispatch message that it will not read, and is in the ready
queue no more, while the scheduler waits for its notification. -/
theorem paging_progress_stale :
    ∃ s, (answeringMachine 2 1 2 (fun _ => [0])).Reachable s
      ∧ s.sched = .readNotice 0 ∧ s.readyTo 0 = 1 ∧ s.proc 0 = .request 0
      ∧ ¬ (answeringMachine 2 1 2 (fun _ => [0])).Stuck s := by
  obtain ⟨s, hs, hp⟩ : ∃ s, (answeringMachine 2 1 2 (fun _ => [0])).Reachable s
      ∧ decide (s.sched = .readNotice 0 ∧ s.readyTo 0 = 1 ∧ s.proc 0 = .request 0) = true :=
    Machine.exists_reachable_of_exec (s := startSys 2 1 2 [⟨1, 1, 0⟩, ⟨1, 1, 0⟩])
      (l := [.proc 0, .sched, .sched, .proc 0, .proc 0, .mmu ⟨startMmu 2 1 2 [], none⟩,
        .mmu ⟨startMmu 2 1 2 [], none⟩, .mmu ⟨startMmu 2 1 2 [], none⟩, .proc 0, .sched, .sched,
        .sched, .sched])
      ⟨_, ⟨rfl, by simp⟩, rfl⟩ (by decide)
  obtain ⟨hsched, hto, hpc⟩ := of_decide_eq_true hp
  have hpages : PagesArrive 2 (fun _ => [0]) := fun _ _ page hpage => by
    rw [List.mem_singleton] at hpage
    omega
  exact ⟨s, hs, hsched, hto, hpc, paging_progress (by decide) hpages hs (by rw [hsched]; nofun)⟩

/-! ## The MMU of `mmu.c` -/

theorem pageFaultHandler_terminated (m : Nat) (s : Mmu) (id p : Int) :
    (pageFaultHandler m s id p).1.terminated = s.terminated := by
  unfold pageFaultHandler
  split_ifs <;> rfl

theorem serveRequest_terminated (m : Nat) (s : Mmu) (r : Request) :
    (serveRequest m s (some r)).1.terminated
      = s.terminated + if r.IsDone then 1 else 0 := by
  have hserve : serveRequest m s (some r) = serve m s r.id r.page := rfl
  have hnot : ∀ {p}, Accepted s r.id p → p ≠ PROCESS_DONE := fun hacc hc => by
    have := hacc.1
    rw [hc, PROCESS_DONE] at this
    omega
  rcases serve_cases m s r.page (Int.natCast_nonneg r.id) with
    hd | ⟨hd, -, hs⟩ | ⟨hf, hs⟩ | ⟨hacc, -, hs⟩
  · have hdone : r.IsDone := hd
    rw [if_pos hdone, hserve, hd, serve_done]
    simp
  · have hdone : ¬ r.IsDone := hd
    rw [if_neg hdone, hserve, hs]
    simp [serveInvalid, Mmu.tick]
  · have hdone : ¬ r.IsDone := hnot hf.1
    rw [if_neg hdone, hserve, hs]
    exact pageFaultHandler_terminated ..
  · have hdone : ¬ r.IsDone := hnot hacc
    rw [if_neg hdone, hserve, hs]
    rfl

/-- What `serve_request` does with a request that is no illegal page is an answer. -/
theorem receive_eq_receiveAnswer (m : Nat) {r : Request} (rest : List Request)
    (hr : r.IsDone ∨ Accepted s.mmu r.id r.page) :
    ∃ a, s.receive m r rest = s.receiveAnswer r rest a := by
  have hterm := serveRequest_terminated m s.mmu r
  unfold Sys.receive Sys.receiveAnswer
  generalize hserve : serveRequest m s.mmu (some r) = served at hterm
  obtain ⟨mmu, outs⟩ := served
  have houts := serveRequest_outs m s.mmu r
  rw [hserve] at houts
  rcases houts with ⟨hd, rfl⟩ | ⟨hd, hacc, -⟩ | ⟨hd, -, rfl⟩ | ⟨hd, -, -, x, rfl⟩
  · refine ⟨⟨mmu, none⟩, ?_⟩
    rw [if_pos hd] at hterm ⊢
    rw [← hterm]
  · exact absurd hr (not_or.mpr ⟨hd, hacc⟩)
  · refine ⟨⟨mmu, none⟩, ?_⟩
    rw [if_neg hd, add_zero] at hterm
    rw [if_neg hd, ← hterm]
    rfl
  · refine ⟨⟨mmu, some x⟩, ?_⟩
    rw [if_neg hd, add_zero] at hterm
    rw [if_neg hd, ← hterm]
    rfl

/-- **The system of `mmu.c` is an instance**, in its runs without an illegal page. -/
theorem answering_of_paging (h : (pagingMachine k m f refs).ReachableWhen NoIllegalPage s) :
    (answeringMachine k m f refs).Reachable s := by
  induction h with
  | init h => exact .init h
  | @step s s' a _ hok hs ih =>
      cases a with
      | proc i => exact .step (a := .proc i) ih trivial hs
      | sched => exact .step (a := .sched) ih trivial hs
      | mmu =>
          -- the answer the MMU gives is one of those that are allowed
          have hmove : ∃ b, answerNext k s b = some s' := by
            have hs' : mmuNext k m s = some s' := hs
            unfold answerNext
            cases hpc : s.mmuPc with
            | serving r outs =>
                refine ⟨⟨s.mmu, none⟩, ?_⟩
                rw [mmuNext, hpc] at hs'
                rw [mmuNext, hpc]
                rcases outs with _ | ⟨o, _ | ⟨o', outs⟩⟩ <;> exact hs'
            | idle =>
                rw [mmuNext, hpc] at hs'
                simp only at hs' ⊢
                split_ifs at hs' ⊢
                cases hreq : s.requests with
                | nil =>
                    rw [hreq] at hs'
                    cases hs'
                | cons r rest =>
                    rw [hreq] at hs'
                    obtain ⟨b, hb⟩ := receive_eq_receiveAnswer m rest
                      (hok.accepted (r := r) rfl hpc (by simp [hreq]))
                    exact ⟨b, (congrArg some hb.symm).trans hs'⟩
          obtain ⟨b, hb⟩ := hmove
          exact .step (a := .mmu b) ih trivial hb

/-- Whether the MMU moves does not depend on its answer. -/
theorem answerNext_none (hn : mmuNext k m s = none) (a : Answer) : answerNext k s a = none := by
  unfold answerNext
  cases hpc : s.mmuPc with
  | serving r outs =>
      rw [mmuNext, hpc] at hn
      rcases outs with _ | ⟨o, _ | ⟨o', outs⟩⟩ <;> cases hn
  | idle =>
      rw [mmuNext, hpc] at hn
      simp only at hn ⊢
      split_ifs at hn ⊢ with hloop
      · cases hreq : s.requests with
        | nil => rfl
        | cons r rest =>
            rw [hreq] at hn
            cases hn
      · rfl

end OSLab.Paging
