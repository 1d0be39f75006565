import OSLab.Paging.Termination

set_option autoImplicit false

/-! # One dispatched process at a time

The scheduler sends one process off and takes the next notification for that process's. A
process waits to be dispatched only once, though: after a page fault it asks again without
waiting, while the scheduler has put it back into the ready queue and dispatches another. So
two processes ask at once, and a notification can be another process's (`two_ask_at_once`). An
illegal page has the same effect through the `PROCESS_DONE` sent after it.

What `proc.c` lacks is the wait, so the condition is on the order of the steps: a process that is
told of a page fault or of an illegal page takes that answer up only when it has been dispatched
again (`GoesOnInTurn`). In these runs nobody has the processor, or the scheduler has a process in
hand, or a process `i` runs, or it has been stopped by an answer, or the last process is alone, or
the scheduler has left (`Phase`). While `i` runs, exactly one thing is under way, the token: a first
dispatch message, process `i` itself in its loop, its request, the MMU's answer, a reply or a
notification (`Sys.token`). An answer that stops `i` is two messages, a reply, which stays where it
is, and a notification, with which the scheduler goes on (`Stopping`).
-/

namespace OSLab.Paging

variable {k m f : Nat} {refs : Nat → List Int} {s s' : Sys} {i j : Nat}

/-- What the scheduler relies on while it waits for a notification. -/
structure OneAtATime (k : Nat) (refs : Nat → List Int) (s : Sys) : Prop where
  asks : ∀ i, s.sched = .readNotice i → ∀ j < k, ∀ count page,
    s.proc j = .request count → (refs j)[count]? = some page → j = i
  notice : ∀ i, s.sched = .readNotice i → ∀ n ∈ s.msgq2.head?, n.cause = i

/-- The answers to a page fault and to an illegal page. -/
def IsStop (x : Int) : Prop := x = PAGE_FAULT ∨ x = INVALID_PAGE_NUMBER

instance (x : Int) : Decidable (IsStop x) := inferInstanceAs (Decidable (_ ∨ _))

/-- A process that has been told of a page fault, or of an illegal page, takes that answer up only
when it has been dispatched again, the scheduler waiting for the next notification, or when it is
the only one that is not reported terminated. -/
def GoesOnInTurn (k : Nat) (s : Sys) (a : Party) : Prop :=
  ∀ j < k, a = .proc j → ∀ x ∈ (s.replies j).head?, IsStop x →
    (s.sched = .readNotice j ∧ s.mmuPc = .idle ∧ s.msgq2 = [])
      ∨ (j ∉ s.reported ∧ s.termCount + 1 = k)

instance (k : Nat) (s : Sys) (a : Party) : Decidable (GoesOnInTurn k s a) :=
  inferInstanceAs (Decidable (∀ j < k, _ → _))

/-! ## Who is where -/

/-- Nothing but an answer that stops it waits for process `j`. -/
def Held (s : Sys) (j : Nat) : Prop := ∀ x ∈ s.replies j, IsStop x

/-- A process that does not run: it has not been dispatched yet, or has been stopped by a page fault,
or is reported terminated. -/
inductive Quiet (s : Sys) (j : Nat) : Prop
  | unregistered : s.proc j = .register → s.readyTo j = 0 → s.readyFrom.count j = 0 →
      j ∉ s.reported → s.replies j = [] → Quiet s j
  | registered : s.proc j = .awaitDispatch → s.readyTo j = 0 → s.readyFrom.count j = 1 →
      j ∉ s.reported → s.replies j = [] → Quiet s j
  | faulted : (s.proc j).Waits → s.readyFrom.count j = 1 → j ∉ s.reported →
      s.replies j = [PAGE_FAULT] → Quiet s j
  | retired : (s.proc j).Waits → s.readyFrom.count j = 0 → j ∈ s.reported → Held s j → Quiet s j

/-- No request and no notification is under way, and the replies are not for those who run. -/
structure Silent (s : Sys) : Prop where
  requests : s.requests = []
  mmuPc : s.mmuPc = .idle
  msgq2 : s.msgq2 = []
  replies : ∀ j, Held s j

/-- Every request, reply and notification under way is about process `i`, but for the answers that
have stopped others. -/
structure OnlyOf (i : Nat) (s : Sys) : Prop where
  requests : ∀ r ∈ s.requests, r.id = i
  serving : ∀ r outs, s.mmuPc = .serving r outs → r.id = i
  notes : ∀ n ∈ s.msgq2, n.cause = i
  replies : ∀ j, j ≠ i → Held s j

/-- The process is in its loop, before a `msgsnd`. -/
def ProcPc.atLoop : ProcPc → Nat
  | .request _ => 1
  | .done => 1
  | _ => 0

/-- The messages the MMU has left to send. -/
def MmuPc.unsent : MmuPc → Nat
  | .idle => 0
  | .serving _ outs => outs.length

/-- The dispatch messages a process waits for: it takes the first one only. -/
def ProcPc.told (readyTo : Nat) : ProcPc → Nat
  | .awaitDispatch => readyTo
  | _ => 0

/-- What is under way while process `i` runs. -/
def Sys.token (s : Sys) (i : Nat) : Nat :=
  (s.proc i).told (s.readyTo i) + (s.proc i).atLoop + s.requests.length + s.mmuPc.unsent
    + (s.replies i).length + s.msgq2.length

/-- Process `i` has been dispatched and has not been stopped since. -/
structure Running (i : Nat) (s : Sys) : Prop where
  sched : s.sched = .readNotice i
  started : s.proc i ≠ .register
  told : s.proc i = .awaitDispatch → 0 < s.readyTo i
  unlisted : s.readyFrom.count i = 0
  unreported : i ∉ s.reported
  only : OnlyOf i s
  terms : ∀ n ∈ s.msgq2, n.type = .processTerm
  serving : ∀ r outs, s.mmuPc = .serving r outs →
    outs ≠ [] ∧ Out.notify .pageFaultHandled ∉ outs
  token : s.token i = 1

/-- An answer that stops a process, and the notification that goes with it. -/
def StopPair (x : Int) (type : Notice) : Prop :=
  (x = PAGE_FAULT ∧ type = .pageFaultHandled) ∨ (x = INVALID_PAGE_NUMBER ∧ type = .processTerm)

/-- How far the MMU has got with an answer that stops process `i`. -/
inductive Stage (i : Nat) (x : Int) (type : Notice) (s : Sys) : Prop
  | answered (r : Request) : s.mmuPc = .serving r [.reply r.id x, .notify type] →
      s.replies i = [] → s.msgq2 = [] → Stage i x type s
  | replied (r : Request) : s.mmuPc = .serving r [.notify type] → s.replies i = [x] →
      s.msgq2 = [] → Stage i x type s
  | notified (cause : Nat) : s.mmuPc = .idle → s.replies i = [x] → s.msgq2 = [⟨type, cause⟩] →
      Stage i x type s

/-- Process `i` has been dispatched and is stopped by the answer to its request. -/
structure Stopping (i : Nat) (s : Sys) : Prop where
  sched : s.sched = .readNotice i
  waits : (s.proc i).Waits
  unlisted : s.readyFrom.count i = 0
  unreported : i ∉ s.reported
  only : OnlyOf i s
  noRequest : s.requests = []
  stage : ∃ x type, StopPair x type ∧ Stage i x type s

/-- The scheduler has process `i` in hand: it waits for its first dispatch, or has been stopped by a
page fault. -/
structure InHand (i : Nat) (s : Sys) : Prop where
  sched : s.sched = .dispatch i ∨ s.sched = .requeue i
  silent : Silent s
  ready : (s.proc i = .awaitDispatch ∧ s.readyTo i = 0 ∧ s.replies i = [])
    ∨ ((s.proc i).Waits ∧ s.replies i = [PAGE_FAULT])
  unlisted : s.readyFrom.count i = 0
  unreported : i ∉ s.reported

/-- Process `i` is the only one not reported terminated. -/
structure Solo (k i : Nat) (s : Sys) : Prop where
  others : ∀ j < k, j ≠ i → (s.proc j).Waits ∧ j ∈ s.reported
  only : OnlyOf i s
  listed : ∀ j ∈ s.readyFrom, j = i
  sched : s.sched = .readReady ∨ s.sched = .dispatch i ∨ s.sched = .readNotice i
    ∨ s.sched = .requeue i
  unreported : i ∉ s.reported
  last : s.termCount + 1 = k

/-- The phases while at least two processes are not reported terminated. -/
inductive Shared (k : Nat) (s : Sys) : Prop
  | free : s.sched = .readReady → Silent s → (∀ j < k, Quiet s j) → Shared k s
  | inHand (i : Nat) : i < k → InHand i s → (∀ j < k, j ≠ i → Quiet s j) → Shared k s
  | running (i : Nat) : i < k → Running i s → (∀ j < k, j ≠ i → Quiet s j) → Shared k s
  | stopping (i : Nat) : i < k → Stopping i s → (∀ j < k, j ≠ i → Quiet s j) → Shared k s

/-- All phases. -/
inductive Phase (k : Nat) (s : Sys) : Prop
  | shared : s.termCount + 1 ≠ k → Shared k s → Phase k s
  | solo (i : Nat) : i < k → Solo k i s → Phase k s
  | left : s.sched = .left → Phase k s

/-- The processes in the ready queue, and those reported terminated, each once. -/
structure Roll (k : Nat) (s : Sys) : Prop where
  listed : ∀ j ∈ s.readyFrom, j < k
  reported : ∀ j ∈ s.reported, j < k
  once : s.reported.Nodup
  counted : s.reported.length = s.termCount

/-! ## Quiet processes -/

theorem Quiet.congr (h : Quiet s j) (hproc : s'.proc j = s.proc j)
    (hto : s'.readyTo j = s.readyTo j)
    (hfrom : s'.readyFrom.count j = s.readyFrom.count j)
    (hrep : j ∈ s'.reported ↔ j ∈ s.reported) (hreplies : s'.replies j = s.replies j) :
    Quiet s' j := by
  cases h with
  | unregistered h₁ h₂ h₃ h₄ h₅ =>
      exact .unregistered (hproc.trans h₁) (hto.trans h₂) (hfrom.trans h₃)
        (fun h => h₄ (hrep.mp h)) (hreplies.trans h₅)
  | registered h₁ h₂ h₃ h₄ h₅ =>
      exact .registered (hproc.trans h₁) (hto.trans h₂) (hfrom.trans h₃)
        (fun h => h₄ (hrep.mp h)) (hreplies.trans h₅)
  | faulted h₁ h₂ h₃ h₄ =>
      exact .faulted (hproc ▸ h₁) (hfrom.trans h₂) (fun h => h₃ (hrep.mp h)) (hreplies.trans h₄)
  | retired h₁ h₂ h₃ h₄ =>
      exact .retired (hproc ▸ h₁) (hfrom.trans h₂) (hrep.mpr h₃) (fun x hx => h₄ x (hreplies ▸ hx))

theorem Quiet.held (h : Quiet s j) : Held s j := by
  intro x hx
  cases h with
  | unregistered _ _ _ _ h₅ => simp [h₅] at hx
  | registered _ _ _ _ h₅ => simp [h₅] at hx
  | faulted _ _ _ h₄ =>
      rw [h₄] at hx
      exact .inl (List.mem_singleton.mp hx)
  | retired _ _ _ h₄ => exact h₄ x hx

/-- It is not the turn of process `j`: an answer that has stopped it keeps it stopped. -/
def NotItsTurn (s : Sys) (j : Nat) : Prop := ∀ x ∈ (s.replies j).head?, ¬ IsStop x

/-- When the scheduler does not wait for process `j`, it is not its turn. -/
theorem GoesOnInTurn.not_its_turn (h : GoesOnInTurn k s (.proc j)) (hj : j < k)
    (hsched : s.sched = .readNotice j → s.mmuPc ≠ .idle ∨ s.msgq2 ≠ [])
    (hmany : j ∈ s.reported ∨ s.termCount + 1 ≠ k) : NotItsTurn s j := by
  intro x hx hstop
  rcases h j hj rfl x hx hstop with ⟨hpc, hmmu, hq⟩ | ⟨hrep, hlast⟩
  · rcases hsched hpc with hne | hne
    · exact hne hmmu
    · exact hne hq
  · rcases hmany with hmem | hne
    · exact hrep hmem
    · exact hne hlast

/-- The announcement of process `j`. -/
def Sys.announce (s : Sys) (j : Nat) : Sys :=
  { s with proc := Function.update s.proc j .awaitDispatch, readyFrom := s.readyFrom ++ [j] }

/-- A process that waits, out of its turn and with nothing but an answer that stops it, does not
move. -/
theorem Held.not_move {pages : List Int} (h : Held s j) (hw : (s.proc j).Waits)
    (hturn : NotItsTurn s j) : ¬ ProcMove pages j s s' := by
  intro hm
  cases hm with
  | register hpc => rw [hpc] at hw; exact hw
  | dispatched hpc _ => rw [hpc] at hw; exact hw
  | ask _ _ hpc _ => rw [hpc] at hw; exact hw
  | leave _ hpc _ => rw [hpc] at hw; exact hw
  | answered count x rest hpc hr => exact hturn x (by simp [hr]) (h x (by simp [hr]))
  | exit hpc => rw [hpc] at hw; exact hw

/-- A quiet process can only announce itself. -/
theorem Quiet.move {pages : List Int} (h : Quiet s j) (hturn : NotItsTurn s j)
    (hm : ProcMove pages j s s') : s' = s.announce j ∧ Quiet s' j := by
  cases h with
  | unregistered h₁ h₂ h₃ h₄ h₅ =>
      cases hm with
      | register hpc =>
          refine ⟨rfl, .registered (by simp) h₂ ?_ h₄ h₅⟩
          show (s.readyFrom ++ [j]).count j = 1
          simp [h₃]
      | dispatched hpc _ => rw [h₁] at hpc; cases hpc
      | ask _ _ hpc _ => rw [h₁] at hpc; cases hpc
      | leave _ hpc _ => rw [h₁] at hpc; cases hpc
      | answered _ _ _ hpc _ => rw [h₁] at hpc; cases hpc
      | exit hpc => rw [h₁] at hpc; cases hpc
  | registered h₁ h₂ h₃ h₄ h₅ =>
      cases hm with
      | register hpc => rw [h₁] at hpc; cases hpc
      | dispatched _ hpos => omega
      | ask _ _ hpc _ => rw [h₁] at hpc; cases hpc
      | leave _ hpc _ => rw [h₁] at hpc; cases hpc
      | answered _ _ _ hpc _ => rw [h₁] at hpc; cases hpc
      | exit hpc => rw [h₁] at hpc; cases hpc
  | faulted h₁ h₂ h₃ h₄ =>
      have hheld : Held s j := (Quiet.faulted h₁ h₂ h₃ h₄).held
      exact absurd hm (hheld.not_move h₁ hturn)
  | retired h₁ _ _ h₄ => exact absurd hm (h₄.not_move h₁ hturn)

/-- The announcement of another process changes nothing for a quiet one. -/
theorem Quiet.announce (h : Quiet s j) (hij : j ≠ i) : Quiet (s.announce i) j := by
  refine h.congr (Function.update_of_ne hij _ _) rfl ?_ Iff.rfl rfl
  show (s.readyFrom ++ [i]).count j = s.readyFrom.count j
  simp [Ne.symm hij]

/-- A process that has announced itself changes nothing for a quiet one. -/
theorem Quiet.other {pages : List Int} (h : Quiet s j) (hm : ProcMove pages i s s')
    (hji : j ≠ i) (hi : s.proc i ≠ .register) : Quiet s' j := by
  have hproc : ∀ pc, Function.update s.proc i pc j = s.proc j := fun pc =>
    Function.update_of_ne hji _ _
  cases hm with
  | register hpc => exact absurd hpc hi
  | dispatched _ _ =>
      exact h.congr (hproc _) (Function.update_of_ne hji _ _) rfl Iff.rfl rfl
  | ask _ _ _ _ => exact h.congr (hproc _) rfl rfl Iff.rfl rfl
  | leave _ _ _ => exact h.congr (hproc _) rfl rfl Iff.rfl rfl
  | answered _ _ _ _ _ =>
      exact h.congr (hproc _) rfl rfl Iff.rfl (Function.update_of_ne hji _ _)
  | exit _ => exact h.congr (hproc _) rfl rfl Iff.rfl rfl

theorem quiet_not_asking {count : Nat} (h : Quiet s j) : s.proc j ≠ .request count := by
  intro hpc
  cases h with
  | unregistered h₁ _ _ _ _ => rw [hpc] at h₁; cases h₁
  | registered h₁ _ _ _ _ => rw [hpc] at h₁; cases h₁
  | faulted h₁ _ _ _ => rw [hpc] at h₁; exact h₁
  | retired h₁ _ _ _ => rw [hpc] at h₁; exact h₁

theorem Roll.announce (h : Roll k s) (hi : i < k) : Roll k (s.announce i) where
  listed := by
    intro j hj
    rcases List.mem_append.mp hj with hj | hj
    · exact h.listed j hj
    · rw [List.mem_singleton.mp hj]
      exact hi
  reported := h.reported
  once := h.once
  counted := h.counted

/-- When all but one are reported, there is the one. -/
theorem exists_not_reported (hroll : Roll k s) (hlast : s.termCount + 1 = k) :
    ∃ i < k, i ∉ s.reported := by
  by_contra hall
  have hsub : List.range k ⊆ s.reported := by
    intro j hj
    by_contra hrep
    exact hall ⟨j, List.mem_range.mp hj, hrep⟩
  have hle := (List.subperm_of_subset List.nodup_range hsub).length_le
  have hcounted := hroll.counted
  rw [List.length_range] at hle
  omega

/-- If all but one are reported, the others are retired. -/
theorem retired_of_last (hroll : Roll k s) (hi : i < k) (hrep : i ∉ s.reported)
    (hlast : s.termCount + 1 = k) (hq : ∀ j < k, j ≠ i → Quiet s j) :
    ∀ j < k, j ≠ i → ((s.proc j).Waits ∧ j ∈ s.reported) ∧ s.readyFrom.count j = 0 := by
  intro j hj hji
  -- process `i` and those reported are `k` different processes, so all
  have hmem : j ∈ i :: s.reported := by
    refine mem_of_nodup_of_length (k := k) (List.nodup_cons.mpr ⟨hrep, hroll.once⟩) ?_ ?_ hj
    · intro x hx
      rcases List.mem_cons.mp hx with rfl | hx
      · exact hi
      · exact hroll.reported x hx
    · have := hroll.counted
      rw [List.length_cons]
      omega
  -- and a quiet process that is reported is retired
  have hmem : j ∈ s.reported := (List.mem_cons.mp hmem).resolve_left hji
  cases hq j hj hji with
  | unregistered _ _ _ h₄ _ => exact absurd hmem h₄
  | registered _ _ _ h₄ _ => exact absurd hmem h₄
  | faulted _ _ h₃ _ => exact absurd hmem h₃
  | retired h₁ h₂ _ _ => exact ⟨⟨h₁, hmem⟩, h₂⟩

/-! ## Whose messages are under way -/

theorem OnlyOf.announce (h : OnlyOf i s) (j : Nat) : OnlyOf i (s.announce j) :=
  ⟨h.requests, h.serving, h.notes, h.replies⟩

/-- Process `i` sends nothing for others. -/
theorem OnlyOf.procMove {pages : List Int} (h : OnlyOf i s) (hm : ProcMove pages i s s') :
    OnlyOf i s' := by
  have happend : ∀ page, ∀ r ∈ s.requests ++ [⟨i, page⟩], r.id = i := by
    intro page r hr
    rcases List.mem_append.mp hr with hr | hr
    · exact h.requests r hr
    · rw [List.mem_singleton.mp hr]
  cases hm with
  | register _ => exact ⟨h.requests, h.serving, h.notes, h.replies⟩
  | dispatched _ _ => exact ⟨h.requests, h.serving, h.notes, h.replies⟩
  | leave _ _ _ => exact ⟨h.requests, h.serving, h.notes, h.replies⟩
  | ask count page _ _ => exact ⟨happend page, h.serving, h.notes, h.replies⟩
  | exit _ => exact ⟨happend PROCESS_DONE, h.serving, h.notes, h.replies⟩
  | answered count x rest _ _ =>
      refine ⟨h.requests, h.serving, h.notes, fun j hj x hx => h.replies j hj x ?_⟩
      simpa [Function.update_of_ne hj] using hx

/-- A message sent for a request of process `i` is about process `i`. -/
theorem OnlyOf.post {o : Out} (h : OnlyOf i s) (ho : ∀ id x, o = .reply id x → id = i) :
    (∀ n ∈ (s.post i o).msgq2, n.cause = i) ∧ ∀ j, j ≠ i → Held (s.post i o) j := by
  cases o with
  | notify type =>
      refine ⟨fun n hn => ?_, h.replies⟩
      rcases List.mem_append.mp hn with hn | hn
      · exact h.notes n hn
      · rw [List.mem_singleton.mp hn]
  | reply id x =>
      obtain rfl := ho id x rfl
      refine ⟨h.notes, fun j hj y hy => h.replies j hj y ?_⟩
      simpa [Sys.post, Function.update_of_ne hj] using hy

theorem OnlyOf.mmuMove (hc : Calls k s) (h : OnlyOf i s) (hm : MmuMove k m s s') :
    OnlyOf i s' := by
  cases hm with
  | receive r rest hpc _ hreq =>
      have hid := h.requests r (by simp [hreq])
      have hrest : ∀ r' ∈ rest, r'.id = i := fun r' hr' => h.requests r' (by simp [hreq, hr'])
      refine ⟨hrest, fun r' outs hs => ?_, h.notes, h.replies⟩
      cases hs
      exact hid
  | silent r _ => exact ⟨h.requests, (fun r' outs hs => by cases hs), h.notes, h.replies⟩
  | last r o hpc =>
      obtain rfl := h.serving r [o] hpc
      have hpost := h.post (o := o) fun id x ho => (hc.serving r [o] hpc).2 id x (by simp [ho])
      refine ⟨?_, (fun r' outs hs => by cases hs), hpost.1, hpost.2⟩
      show ∀ r' ∈ (s.post r.id o).requests, r'.id = r.id
      rw [post_requests]
      exact h.requests
  | send r o o' outs hpc =>
      obtain rfl := h.serving r _ hpc
      have hpost := h.post (o := o) fun id x ho => (hc.serving r _ hpc).2 id x (by simp [ho])
      refine ⟨?_, (fun r' outs' hs => by cases hs; rfl), hpost.1, hpost.2⟩
      show ∀ r' ∈ (s.post r.id o).requests, r'.id = r.id
      rw [post_requests]
      exact h.requests

/-! ## The token -/

theorem token_afterReply (count : Nat) (x : Int) (n : Nat) :
    (afterReply count x).told n + (afterReply count x).atLoop = 1 := by
  unfold afterReply
  split_ifs <;> rfl

/-- The running process passes the token on. -/
theorem Running.procMove {pages : List Int} (h : Running i s) (hm : ProcMove pages i s s') :
    Running i s' := by
  have hto := h.token
  have honly := h.only.procMove hm
  cases hm with
  | register hpc => exact absurd hpc h.started
  -- the token passes from the dispatch to the request, the reply and back
  | dispatched hpc hpos =>
      refine ⟨h.sched, by simp, fun hc => by simp at hc, h.unlisted, h.unreported, honly, h.terms,
        h.serving, ?_⟩
      simp only [Sys.token, hpc, ProcPc.told, ProcPc.atLoop, Function.update_self] at hto ⊢
      omega
  | ask count page hpc _ =>
      refine ⟨h.sched, by simp, fun hc => by simp at hc, h.unlisted, h.unreported, honly, h.terms,
        h.serving, ?_⟩
      simp only [Sys.token, hpc, ProcPc.told, ProcPc.atLoop, Function.update_self,
        List.length_append, List.length_singleton] at hto ⊢
      omega
  | leave count hpc _ =>
      refine ⟨h.sched, by simp, fun hc => by simp at hc, h.unlisted, h.unreported, honly, h.terms,
        h.serving, ?_⟩
      simp only [Sys.token, hpc, ProcPc.told, ProcPc.atLoop, Function.update_self] at hto ⊢
      omega
  | answered count x rest hpc hrep =>
      have hloop := token_afterReply count x (s.readyTo i)
      refine ⟨h.sched, fun hc => ?_, fun hc => ?_, h.unlisted, h.unreported, honly, h.terms,
        h.serving, ?_⟩
      · simp only [Function.update_self] at hc
        rw [hc] at hloop
        cases hloop
      · simp only [Function.update_self, afterReply] at hc
        split_ifs at hc
      · have hwait : (s.proc i).told (s.readyTo i) = 0 ∧ (s.proc i).atLoop = 0 := by
          rw [hpc]
          exact ⟨rfl, rfl⟩
        simp only [Sys.token, hwait.1, hwait.2, hrep, Function.update_self,
          List.length_cons] at hto ⊢
        omega
  | exit hpc =>
      refine ⟨h.sched, by simp, fun hc => by simp at hc, h.unlisted, h.unreported, honly, h.terms,
        h.serving, ?_⟩
      simp only [Sys.token, hpc, ProcPc.told, ProcPc.atLoop, Function.update_self,
        List.length_append, List.length_singleton] at hto ⊢
      omega

theorem Running.announce (h : Running i s) (hij : i ≠ j) : Running i (s.announce j) where
  sched := h.sched
  started := by
    show Function.update s.proc j _ i ≠ _
    rw [Function.update_of_ne hij]
    exact h.started
  told := by
    show Function.update s.proc j _ i = _ → _
    rw [Function.update_of_ne hij]
    exact h.told
  unlisted := by
    show (s.readyFrom ++ [j]).count i = 0
    simpa [Ne.symm hij] using h.unlisted
  unreported := h.unreported
  only := h.only.announce j
  terms := h.terms
  serving := h.serving
  token := by
    have hto := h.token
    simp only [Sys.token, Sys.announce, Function.update_of_ne hij] at hto ⊢
    exact hto

/-- Only the answer that stops it is there for a process that is being stopped. -/
theorem Stopping.held (h : Stopping i s) : Held s i := by
  obtain ⟨x, type, hpair, hstage⟩ := h.stage
  have hstop : IsStop x := hpair.imp And.left And.left
  intro y hy
  cases hstage with
  | answered _ _ hnone _ => simp [hnone] at hy
  | replied _ _ hone _ =>
      rw [hone] at hy
      exact List.mem_singleton.mp hy ▸ hstop
  | notified _ _ hone _ =>
      rw [hone] at hy
      exact List.mem_singleton.mp hy ▸ hstop

theorem Stopping.announce (h : Stopping i s) (hij : i ≠ j) : Stopping i (s.announce j) where
  sched := h.sched
  waits := by
    show (Function.update s.proc j _ i).Waits
    rw [Function.update_of_ne hij]
    exact h.waits
  unlisted := by
    show (s.readyFrom ++ [j]).count i = 0
    simpa [Ne.symm hij] using h.unlisted
  unreported := h.unreported
  only := h.only.announce j
  noRequest := h.noRequest
  stage := by
    obtain ⟨x, type, hpair, hstage⟩ := h.stage
    refine ⟨x, type, hpair, ?_⟩
    cases hstage with
    | answered r hpc hreplies hq => exact .answered r hpc hreplies hq
    | replied r hpc hreplies hq => exact .replied r hpc hreplies hq
    | notified cause hpc hreplies hq => exact .notified cause hpc hreplies hq

/-- With the last message out, the token is with the process or with the scheduler. -/
theorem Running.last {r : Request} {o : Out} (hc : Calls k s) (h : Running i s)
    (hpc : s.mmuPc = .serving r [o]) (honly : OnlyOf i ((s.post r.id o).finish r)) :
    Running i ((s.post r.id o).finish r) := by
  have hid := h.only.serving r [o] hpc
  have hto := h.token
  have hser := h.serving r [o] hpc
  cases o with
  | notify type =>
      refine ⟨h.sched, h.started, h.told, h.unlisted, h.unreported, honly, fun n hn => ?_,
        (fun r' outs hs => by cases hs), ?_⟩
      · rcases List.mem_append.mp hn with hn | hn
        · exact h.terms n hn
        · rw [List.mem_singleton.mp hn]
          cases type with
          | processTerm => rfl
          | pageFaultHandled => exact absurd (by simp) hser.2
      · simp only [Sys.token, Sys.finish, Sys.post, hpc, MmuPc.unsent, List.length_append,
          List.length_singleton] at hto ⊢
        omega
  -- a reply goes to the process that asked, which is the one that runs
  | reply id x =>
      have hid' : id = r.id := (hc.serving r _ hpc).2 id x (by simp)
      subst hid
      refine ⟨h.sched, h.started, h.told, h.unlisted, h.unreported, honly, h.terms,
        (fun r' outs hs => by cases hs), ?_⟩
      simp only [Sys.token, Sys.finish, Sys.post, hpc, hid', MmuPc.unsent, Int.toNat_natCast,
        Function.update_self, List.length_append, List.length_singleton] at hto ⊢
      omega

/-- While the token is elsewhere, the process waits. -/
theorem Running.waits (h : Running i s) (helse : 0 < s.requests.length + s.msgq2.length) :
    (s.proc i).Waits := by
  have hto := h.token
  simp only [Sys.token] at hto
  cases hpc : s.proc i with
  | register => exact absurd hpc h.started
  | awaitDispatch =>
      have := h.told hpc
      simp only [hpc, ProcPc.told] at hto
      omega
  | request count =>
      simp only [hpc, ProcPc.atLoop] at hto
      omega
  | done =>
      simp only [hpc, ProcPc.atLoop] at hto
      omega
  | awaitReply count => trivial
  | exited => trivial

/-! ## The last process -/

/-- The last process stays alone, whatever it asks for. -/
theorem Solo.procMove {pages : List Int} (h : Solo k i s) (hj : j < k)
    (hok : GoesOnInTurn k s (.proc j)) (hm : ProcMove pages j s s') : Solo k i s' := by
  by_cases hji : j = i
  · subst hji
    have honly := h.only.procMove hm
    have hothers : ∀ pc, ∀ j' < k, j' ≠ j →
        (Function.update s.proc j pc j').Waits ∧ j' ∈ s.reported := by
      intro pc j' hj' hne
      rw [Function.update_of_ne hne]
      exact h.others j' hj' hne
    cases hm with
    | register _ =>
        refine ⟨hothers _, honly, fun j' hj' => ?_, h.sched, h.unreported, h.last⟩
        rcases List.mem_append.mp hj' with hj' | hj'
        · exact h.listed j' hj'
        · exact List.mem_singleton.mp hj'
    | dispatched _ _ => exact ⟨hothers _, honly, h.listed, h.sched, h.unreported, h.last⟩
    | ask _ _ _ _ => exact ⟨hothers _, honly, h.listed, h.sched, h.unreported, h.last⟩
    | leave _ _ _ => exact ⟨hothers _, honly, h.listed, h.sched, h.unreported, h.last⟩
    | answered _ _ _ _ _ => exact ⟨hothers _, honly, h.listed, h.sched, h.unreported, h.last⟩
    | exit _ => exact ⟨hothers _, honly, h.listed, h.sched, h.unreported, h.last⟩
  · -- the others are reported, and stay stopped
    obtain ⟨hw, hrep⟩ := h.others j hj hji
    have hturn : NotItsTurn s j := by
      refine hok.not_its_turn hj (fun hpc => ?_) (.inl hrep)
      have hsched := h.sched
      simp only [hpc, reduceCtorEq, SchedPc.readNotice.injEq, false_or, or_false] at hsched
      exact absurd hsched hji
    exact absurd hm ((h.only.replies j hji).not_move hw hturn)

theorem Solo.mmuMove (hc : Calls k s) (h : Solo k i s) (hm : MmuMove k m s s') :
    Solo k i s' := by
  have honly := h.only.mmuMove hc hm
  have hframe : s'.proc = s.proc ∧ s'.readyFrom = s.readyFrom ∧ s'.sched = s.sched
      ∧ s'.reported = s.reported ∧ s'.termCount = s.termCount := by
    cases hm with
    | receive _ _ _ _ _ => exact ⟨rfl, rfl, rfl, rfl, rfl⟩
    | silent _ _ => exact ⟨rfl, rfl, rfl, rfl, rfl⟩
    | last _ o _ => cases o <;> exact ⟨rfl, rfl, rfl, rfl, rfl⟩
    | send _ o _ _ _ => cases o <;> exact ⟨rfl, rfl, rfl, rfl, rfl⟩
  obtain ⟨hproc, hlist, hsched, hrep, hterm⟩ := hframe
  exact ⟨by rw [hproc, hrep]; exact h.others, honly, by rw [hlist]; exact h.listed,
    by rw [hsched]; exact h.sched, by rw [hrep]; exact h.unreported, by rw [hterm]; exact h.last⟩

theorem Solo.schedMove (hi : i < k) (h : Solo k i s) (hm : SchedMove k s s') : Phase k s' := by
  cases hm with
  | readReady id rest _ hq =>
      obtain rfl := h.listed id (by simp [hq])
      refine .solo id hi ⟨h.others, ⟨h.only.requests, h.only.serving, h.only.notes,
        h.only.replies⟩, fun j hj => h.listed j (by simp [hq, hj]), .inr (.inl rfl), h.unreported, h.last⟩
  | dispatch id hpc =>
      obtain rfl : id = i := by simpa [hpc] using h.sched
      exact .solo id hi ⟨h.others, ⟨h.only.requests, h.only.serving, h.only.notes,
        h.only.replies⟩, h.listed, .inr (.inr (.inl rfl)), h.unreported, h.last⟩
  | faultHandled id cause rest hpc hq =>
      obtain rfl : id = i := by simpa [hpc] using h.sched
      exact .solo id hi ⟨h.others, ⟨h.only.requests, h.only.serving,
        fun n hn => h.only.notes n (by simp [hq, hn]), h.only.replies⟩, h.listed,
        .inr (.inr (.inr rfl)), h.unreported, h.last⟩
  | terminated id cause rest hpc hq =>
      exact .left (if_pos h.last)
  | requeue id hpc =>
      obtain rfl : id = i := by simpa [hpc] using h.sched
      refine .solo id hi ⟨h.others, ⟨h.only.requests, h.only.serving, h.only.notes,
        h.only.replies⟩, fun j hj => ?_, .inl rfl, h.unreported, h.last⟩
      rcases List.mem_append.mp hj with hj | hj
      · exact h.listed j hj
      · exact List.mem_singleton.mp hj

/-- Nobody has the processor: at least two processes are left, or one is alone. -/
theorem phase_of_free (hroll : Roll k s) (hpc : s.sched = .readReady) (hsil : Silent s)
    (hq : ∀ j < k, Quiet s j) : Phase k s := by
  by_cases hlast : s.termCount + 1 = k
  · obtain ⟨i, hi, hrep⟩ := exists_not_reported hroll hlast
    have hothers := retired_of_last hroll hi hrep hlast fun j hj _ => hq j hj
    refine .solo i hi ⟨fun j hj hji => (hothers j hj hji).1, ?_, fun j hj => ?_, .inl hpc, hrep, hlast⟩
    · exact ⟨by simp [hsil.requests], by simp [hsil.mmuPc], by simp [hsil.msgq2],
        fun j _ => hsil.replies j⟩
    · by_contra hji
      have hpos : 0 < s.readyFrom.count j := List.count_pos_iff.mpr hj
      have hzero := (hothers j (hroll.listed j hj) hji).2
      omega
  · exact .shared hlast (.free hpc hsil hq)

/-! ## The MMU answers -/

/-- The MMU takes the request of the running process: to a page in memory and to a `PROCESS_DONE`
it has one message to send; any other answer stops the process. -/
theorem Running.receive {r : Request} {rest : List Request} (h : Running i s)
    (hpc : s.mmuPc = .idle) (hreq : s.requests = r :: rest) (honly : OnlyOf i (s.receive m r rest)) :
    Running i (s.receive m r rest) ∨ Stopping i (s.receive m r rest) := by
  have hto := h.token
  have hw := h.waits (by simp only [hreq, List.length_cons]; omega)
  simp only [Sys.token, hpc, hreq, MmuPc.unsent, List.length_cons] at hto
  have hone : ∀ o, o ≠ .notify .pageFaultHandled → (serveRequest m s.mmu (some r)).2 = [o] →
      Running i (s.receive m r rest) := by
    intro o hne ho
    refine ⟨h.sched, h.started, h.told, h.unlisted, h.unreported, honly, h.terms,
      fun r' outs hs => ?_, ?_⟩
    · cases hs
      rw [ho]
      exact ⟨by simp, by simpa using Ne.symm hne⟩
    · simp only [Sys.token, Sys.receive, ho, MmuPc.unsent, List.length_cons, List.length_nil]
      omega
  -- the reply and the notification that stop the process
  have htwo : ∀ x type, StopPair x type →
      (serveRequest m s.mmu (some r)).2 = [.reply r.id x, .notify type] →
      Stopping i (s.receive m r rest) := by
    intro x type hpair ho
    have hrest : rest = [] := List.length_eq_zero_iff.mp (by omega)
    have hreplies : s.replies i = [] := List.length_eq_zero_iff.mp (by omega)
    have hq : s.msgq2 = [] := List.length_eq_zero_iff.mp (by omega)
    refine ⟨h.sched, hw, h.unlisted, h.unreported, honly, hrest, x, type, hpair, ?_⟩
    exact .answered r (by simp only [Sys.receive, ho]) hreplies hq
  rcases serveRequest_outs m s.mmu r with ⟨-, ho⟩ | ⟨-, -, ho⟩ | ⟨-, -, ho⟩ | ⟨-, -, -, x, ho⟩
  · exact .inl (hone _ (by simp) ho)
  · exact .inr (htwo _ _ (.inr ⟨rfl, rfl⟩) ho)
  · exact .inr (htwo _ _ (.inl ⟨rfl, rfl⟩) ho)
  · exact .inl (hone _ (by simp) ho)

theorem Running.mmuMove (hc : Calls k s) (h : Running i s) (hm : MmuMove k m s s') :
    Running i s' ∨ Stopping i s' := by
  have honly := h.only.mmuMove hc hm
  cases hm with
  | receive r rest hpc _ hreq => exact h.receive hpc hreq honly
  | silent r hpc => exact absurd rfl (h.serving r [] hpc).1
  | last r o hpc => exact .inl (h.last hc hpc honly)
  | send r o o' outs hpc =>
      -- two messages to send would be two tokens
      have hto := h.token
      simp only [Sys.token, hpc, MmuPc.unsent, List.length_cons] at hto
      omega

/-- The MMU sends the reply that stops the process, and then the notification. -/
theorem Stopping.mmuMove (hc : Calls k s) (h : Stopping i s) (hm : MmuMove k m s s') :
    Stopping i s' := by
  have honly := h.only.mmuMove hc hm
  obtain ⟨x, type, hpair, hstage⟩ := h.stage
  cases hstage with
  | answered r hpc hreplies hq =>
      have hid := h.only.serving r _ hpc
      cases hm with
      | receive _ _ hpc' _ _ => rw [hpc] at hpc'; cases hpc'
      | silent _ hpc' => rw [hpc] at hpc'; cases hpc'
      | last _ _ hpc' => rw [hpc] at hpc'; cases hpc'
      | send r' o o' outs hpc' =>
          rw [hpc] at hpc'
          cases hpc'
          refine ⟨h.sched, h.waits, h.unlisted, h.unreported, honly, h.noRequest, x, type, hpair, ?_⟩
          refine .replied r rfl ?_ hq
          show Function.update s.replies (r.id : Int).toNat _ i = [x]
          simp [hid, hreplies]
  | replied r hpc hreplies hq =>
      cases hm with
      | receive _ _ hpc' _ _ => rw [hpc] at hpc'; cases hpc'
      | silent _ hpc' => rw [hpc] at hpc'; cases hpc'
      | send _ _ _ _ hpc' => rw [hpc] at hpc'; cases hpc'
      | last r' o hpc' =>
          rw [hpc] at hpc'
          cases hpc'
          refine ⟨h.sched, h.waits, h.unlisted, h.unreported, honly, h.noRequest, x, type, hpair, ?_⟩
          refine .notified r.id rfl hreplies ?_
          show s.msgq2 ++ [⟨type, r.id⟩] = _
          rw [hq, List.nil_append]
  | notified cause hpc _ _ =>
      have hnone := h.noRequest
      cases hm with
      | receive _ _ _ _ hreq => rw [hnone] at hreq; cases hreq
      | silent _ hpc' => rw [hpc] at hpc'; cases hpc'
      | last _ _ hpc' => rw [hpc] at hpc'; cases hpc'
      | send _ _ _ _ hpc' => rw [hpc] at hpc'; cases hpc'

/-- What the MMU sends does not touch a process that does not run. -/
theorem quiet_mmuMove (hc : Calls k s) (h : Quiet s j) (honly : OnlyOf i s) (hji : j ≠ i)
    (hm : MmuMove k m s s') : Quiet s' j := by
  -- a reply goes to the process that asked
  have hpost : ∀ r outs o, s.mmuPc = .serving r outs → o ∈ outs → Quiet (s.post r.id o) j := by
    intro r outs o hpc ho
    cases o with
    | notify type => exact h.congr rfl rfl rfl Iff.rfl rfl
    | reply id x =>
        have hid : id = i := by
          rw [(hc.serving r outs hpc).2 id x ho, honly.serving r outs hpc]
        refine h.congr rfl rfl rfl Iff.rfl ?_
        show Function.update s.replies id.toNat _ j = _
        exact Function.update_of_ne (by rw [hid, Int.toNat_natCast]; exact hji) _ _
  cases hm with
  | receive _ _ _ _ _ => exact h.congr rfl rfl rfl Iff.rfl rfl
  | silent _ _ => exact h.congr rfl rfl rfl Iff.rfl rfl
  | last r o hpc => exact (hpost r _ o hpc (by simp)).congr rfl rfl rfl Iff.rfl rfl
  | send r o o' outs hpc => exact (hpost r _ o hpc (by simp)).congr rfl rfl rfl Iff.rfl rfl

/-! ## The scheduler goes on -/

/-- The notification is the token, so process `i` waits and nothing else is under way. -/
theorem Running.silent {n : Note} {rest : List Note} (h : Running i s) (hq : s.msgq2 = n :: rest) :
    (s.proc i).Waits ∧ Silent { s with msgq2 := rest } := by
  have hto := h.token
  simp only [Sys.token, hq, List.length_cons] at hto
  have hmmu : s.mmuPc = .idle := by
    cases hpc : s.mmuPc with
    | idle => rfl
    | serving r outs =>
        have hne := List.length_pos_iff.mpr (h.serving r outs hpc).1
        simp only [hpc, MmuPc.unsent] at hto
        omega
  have hrep : s.replies i = [] := List.length_eq_zero_iff.mp (by omega)
  have hreq : s.requests = [] := List.length_eq_zero_iff.mp (by omega)
  have hrest : rest = [] := List.length_eq_zero_iff.mp (by omega)
  refine ⟨h.waits (by simp only [hq, List.length_cons]; omega), hreq, hmmu, hrest, fun j => ?_⟩
  by_cases hji : j = i
  · intro x hx
    simp [hji, hrep] at hx
  · exact h.only.replies j hji

/-- A process is reported, and the others stay as they are. -/
theorem phase_of_terminated {rest : List Note} (hroll : Roll k { s with
      msgq2 := rest
      termCount := s.termCount + 1
      reported := s.reported ++ [i]
      sched := if s.termCount + 1 = k then .left else .readReady })
    (hmany : s.termCount + 1 ≠ k) (hw : (s.proc i).Waits) (hlist : s.readyFrom.count i = 0)
    (hsil : Silent { s with msgq2 := rest }) (hothers : ∀ j < k, j ≠ i → Quiet s j) : Phase k { s with
      msgq2 := rest
      termCount := s.termCount + 1
      reported := s.reported ++ [i]
      sched := if s.termCount + 1 = k then .left else .readReady } := by
  refine phase_of_free hroll (if_neg hmany) ⟨hsil.requests, hsil.mmuPc, hsil.msgq2, hsil.replies⟩ ?_
  intro j hj
  by_cases hji : j = i
  · -- the process stopped for good, and is reported
    subst hji
    exact .retired hw hlist (by simp) (hsil.replies j)
  · exact (hothers j hj hji).congr rfl rfl rfl (by simp [hji]) rfl

theorem Running.schedMove (h : Running i s) (hroll : Roll k s') (hmany : s.termCount + 1 ≠ k)
    (hq : ∀ j < k, j ≠ i → Quiet s j) (hm : SchedMove k s s') : Phase k s' := by
  have hpc := h.sched
  cases hm with
  | readReady id rest hpc' _ => rw [hpc] at hpc'; cases hpc'
  | dispatch id hpc' => rw [hpc] at hpc'; cases hpc'
  | requeue id hpc' => rw [hpc] at hpc'; cases hpc'
  | faultHandled id cause rest _ hn => cases h.terms ⟨.pageFaultHandled, cause⟩ (by simp [hn])
  | terminated id cause rest hpc' hn =>
      obtain rfl : i = id := by simpa [hpc] using hpc'
      obtain ⟨hw, hsil⟩ := h.silent hn
      exact phase_of_terminated hroll hmany hw h.unlisted hsil hq

/-- With its notification a stopped process is in the hand of the scheduler, or is reported. -/
theorem Stopping.schedMove (hi : i < k) (h : Stopping i s) (hroll : Roll k s')
    (hmany : s.termCount + 1 ≠ k) (hq : ∀ j < k, j ≠ i → Quiet s j) (hm : SchedMove k s s') :
    Phase k s' := by
  have hpc := h.sched
  obtain ⟨x, type, hpair, hstage⟩ := h.stage
  have hstop : IsStop x := hpair.imp And.left And.left
  -- the notification is the one that goes with the reply
  have hnote : ∀ n rest, s.msgq2 = n :: rest → n.type = type ∧ s.replies i = [x]
      ∧ Silent { s with msgq2 := rest } := by
    intro n rest hn
    cases hstage with
    | answered _ _ _ hnone => rw [hnone] at hn; cases hn
    | replied _ _ _ hnone => rw [hnone] at hn; cases hn
    | notified cause hmmu hreplies hone =>
        rw [hone] at hn
        cases hn
        refine ⟨rfl, hreplies, h.noRequest, hmmu, rfl, fun j y hy => ?_⟩
        by_cases hji : j = i
        · have hy' : y ∈ s.replies i := hji ▸ hy
          rw [hreplies, List.mem_singleton] at hy'
          exact hy' ▸ hstop
        · exact h.only.replies j hji y hy
  cases hm with
  | readReady id rest hpc' _ => rw [hpc] at hpc'; cases hpc'
  | dispatch id hpc' => rw [hpc] at hpc'; cases hpc'
  | requeue id hpc' => rw [hpc] at hpc'; cases hpc'
  | faultHandled id cause rest hpc' hn =>
      obtain rfl : i = id := by simpa [hpc] using hpc'
      obtain ⟨htype, hreplies, hsil⟩ := hnote _ _ hn
      have hx : x = PAGE_FAULT := by
        rcases hpair with ⟨hx, -⟩ | ⟨-, ht⟩
        · exact hx
        · rw [ht] at htype
          cases htype
      refine .shared hmany (.inHand i hi ⟨.inr rfl, ?_, .inr ⟨h.waits, hx ▸ hreplies⟩, h.unlisted,
        h.unreported⟩ fun j hj hji => (hq j hj hji).congr rfl rfl rfl Iff.rfl rfl)
      exact ⟨hsil.requests, hsil.mmuPc, hsil.msgq2, hsil.replies⟩
  | terminated id cause rest hpc' hn =>
      obtain rfl : i = id := by simpa [hpc] using hpc'
      obtain ⟨-, -, hsil⟩ := hnote _ _ hn
      exact phase_of_terminated hroll hmany h.waits h.unlisted hsil hq

/-- The process at the head of the ready queue is waiting to be dispatched. -/
theorem hand_over {rest : List Nat} (hroll : Roll k s) (hsil : Silent s)
    (hq : ∀ j < k, Quiet s j) (hfrom : s.readyFrom = i :: rest) :
    Shared k { s with readyFrom := rest, sched := .dispatch i } := by
  have hi : i < k := hroll.listed i (by simp [hfrom])
  have hpos : s.readyFrom.count i ≠ 0 := by simp [hfrom]
  have hothers : ∀ j < k, j ≠ i → Quiet { s with readyFrom := rest, sched := .dispatch i } j := by
    intro j hj hji
    refine (hq j hj).congr rfl rfl ?_ Iff.rfl rfl
    simp [hfrom, Ne.symm hji]
  have hsil' : Silent { s with readyFrom := rest, sched := .dispatch i } :=
    ⟨hsil.requests, hsil.mmuPc, hsil.msgq2, hsil.replies⟩
  cases hq i hi with
  | unregistered _ _ h₃ _ _ => exact absurd h₃ hpos
  | retired _ h₂ _ _ => exact absurd h₂ hpos
  -- it was in the queue once, so it is not in the rest
  | registered h₁ h₂ h₃ h₄ h₅ =>
      have hrest : rest.count i = 0 := by simpa [hfrom] using h₃
      exact .inHand i hi ⟨.inl rfl, hsil', .inl ⟨h₁, h₂, h₅⟩, hrest, h₄⟩ hothers
  | faulted h₁ h₂ h₃ h₄ =>
      have hrest : rest.count i = 0 := by simpa [hfrom] using h₂
      exact .inHand i hi ⟨.inl rfl, hsil', .inr ⟨h₁, h₄⟩, hrest, h₃⟩ hothers

/-- The first dispatch message is the token; later the reply is that has stopped the process. -/
theorem InHand.start (h : InHand i s) : Running i { s with
    readyTo := Function.update s.readyTo i (s.readyTo i + 1)
    sched := .readNotice i } := by
  have hsil := h.silent
  have honly : OnlyOf i { s with
      readyTo := Function.update s.readyTo i (s.readyTo i + 1)
      sched := .readNotice i } :=
    ⟨by simp [hsil.requests], by simp [hsil.mmuPc], by simp [hsil.msgq2],
      fun j _ => hsil.replies j⟩
  have hserving : ∀ r outs, s.mmuPc = .serving r outs →
      outs ≠ [] ∧ Out.notify .pageFaultHandled ∉ outs := by simp [hsil.mmuPc]
  rcases h.ready with ⟨hpc, hto, hrep⟩ | ⟨hw, hrep⟩
  · refine ⟨rfl, by simp [hpc], fun _ => by simp, h.unlisted, h.unreported, honly,
      by simp [hsil.msgq2], hserving, ?_⟩
    simp [Sys.token, hpc, hto, hrep, hsil.requests, hsil.mmuPc, hsil.msgq2, MmuPc.unsent,
      ProcPc.told, ProcPc.atLoop]
  · have hne : s.proc i ≠ .register ∧ s.proc i ≠ .awaitDispatch := by
      constructor <;> intro hc <;> rw [hc] at hw <;> exact hw
    refine ⟨rfl, hne.1, fun hc => absurd hc hne.2, h.unlisted, h.unreported, honly,
      by simp [hsil.msgq2], hserving, ?_⟩
    cases hpc : s.proc i <;> simp_all [Sys.token, hsil.requests, hsil.mmuPc, hsil.msgq2,
      MmuPc.unsent, ProcPc.told, ProcPc.atLoop, ProcPc.Waits]

/-- The scheduler has put the process back. -/
theorem InHand.put_back (hi : i < k) (h : InHand i s) (hq : ∀ j < k, j ≠ i → Quiet s j) :
    ∀ j < k, Quiet { s with readyFrom := s.readyFrom ++ [i], sched := .readReady } j := by
  intro j hj
  have hcount : (s.readyFrom ++ [i]).count i = 1 := by simp [h.unlisted]
  by_cases hji : j = i
  · subst hji
    rcases h.ready with ⟨hpc, hto, hrep⟩ | ⟨hw, hrep⟩
    · exact .registered hpc hto hcount h.unreported hrep
    · exact .faulted hw hcount h.unreported hrep
  · refine (hq j hj hji).congr rfl rfl ?_ Iff.rfl rfl
    show (s.readyFrom ++ [i]).count j = s.readyFrom.count j
    simp [Ne.symm hji]

/-! ## The phases -/

theorem Silent.announce (h : Silent s) (j : Nat) : Silent (s.announce j) :=
  ⟨h.requests, h.mmuPc, h.msgq2, h.replies⟩

/-- A process that is not the one in hand, running or stopped only announces itself. -/
theorem quiet_announce (hq : ∀ j' < k, j' ≠ i → Quiet s j') (hqj : Quiet (s.announce j) j) :
    ∀ j' < k, j' ≠ i → Quiet (s.announce j) j' := by
  intro j' hj' hne
  by_cases hjj : j' = j
  · exact hjj ▸ hqj
  · exact (hq j' hj' hne).announce hjj

/-- A process moves: the running one, or one that only announces itself. -/
theorem shared_procMove {pages : List Int} (hmany : s.termCount + 1 ≠ k) (h : Shared k s)
    (hj : j < k) (hok : GoesOnInTurn k s (.proc j)) (hm : ProcMove pages j s s') : Shared k s' := by
  have hturn : (s.sched = .readNotice j → s.mmuPc ≠ .idle ∨ s.msgq2 ≠ []) → NotItsTurn s j :=
    fun hsched => hok.not_its_turn hj hsched (.inr hmany)
  cases h with
  | free hpc hsil hq =>
      obtain ⟨rfl, hqj⟩ := (hq j hj).move (hturn fun hc => by rw [hpc] at hc; cases hc) hm
      refine .free hpc (hsil.announce j) fun j' hj' => ?_
      by_cases hjj : j' = j
      · exact hjj ▸ hqj
      · exact (hq j' hj').announce hjj
  | inHand i hi hhand hq =>
      have hnot := hturn fun hc => by
        rcases hhand.sched with hpc | hpc <;> rw [hpc] at hc <;> cases hc
      by_cases hji : j = i
      · -- the process still waits for its first message, or is stopped
        subst hji
        rcases hhand.ready with ⟨hpc, hto, -⟩ | ⟨hw, -⟩
        · cases hm with
          | register hpc' => rw [hpc] at hpc'; cases hpc'
          | dispatched _ hpos => omega
          | ask _ _ hpc' _ => rw [hpc] at hpc'; cases hpc'
          | leave _ hpc' _ => rw [hpc] at hpc'; cases hpc'
          | answered _ _ _ hpc' _ => rw [hpc] at hpc'; cases hpc'
          | exit hpc' => rw [hpc] at hpc'; cases hpc'
        · exact absurd hm ((hhand.silent.replies j).not_move hw hnot)
      · obtain ⟨rfl, hqj⟩ := (hq j hj hji).move hnot hm
        have hproc : (s.announce j).proc i = s.proc i := Function.update_of_ne (Ne.symm hji) _ _
        refine .inHand i hi ⟨hhand.sched, hhand.silent.announce j, hproc ▸ hhand.ready, ?_,
          hhand.unreported⟩ (quiet_announce hq hqj)
        show (s.readyFrom ++ [j]).count i = 0
        simpa [hji] using hhand.unlisted
  | running i hi hrun hq =>
      by_cases hji : j = i
      · subst hji
        exact .running j hi (hrun.procMove hm)
          fun j' hj' hne => (hq j' hj' hne).other hm hne hrun.started
      · have hnot := hturn fun hc => by
          rw [hrun.sched] at hc
          exact absurd (SchedPc.readNotice.inj hc).symm hji
        obtain ⟨rfl, hqj⟩ := (hq j hj hji).move hnot hm
        exact .running i hi (hrun.announce (Ne.symm hji)) (quiet_announce hq hqj)
  | stopping i hi hstop hq =>
      obtain ⟨x, type, -, hstage⟩ := hstop.stage
      by_cases hji : j = i
      · subst hji
        have hnot := hturn fun _ => by
          cases hstage with
          | answered _ hpc _ _ => exact .inl (by rw [hpc]; exact fun hc => by cases hc)
          | replied _ hpc _ _ => exact .inl (by rw [hpc]; exact fun hc => by cases hc)
          | notified _ _ _ hone => exact .inr (by rw [hone]; exact List.cons_ne_nil _ _)
        exact absurd hm (hstop.held.not_move hstop.waits hnot)
      · have hnot := hturn fun hc => by
          rw [hstop.sched] at hc
          exact absurd (SchedPc.readNotice.inj hc).symm hji
        obtain ⟨rfl, hqj⟩ := (hq j hj hji).move hnot hm
        exact .stopping i hi (hstop.announce (Ne.symm hji)) (quiet_announce hq hqj)

/-- The scheduler moves. -/
theorem shared_schedMove (hroll : Roll k s) (hroll' : Roll k s') (hmany : s.termCount + 1 ≠ k)
    (h : Shared k s) (hm : SchedMove k s s') : Phase k s' := by
  cases h with
  | free hpc hsil hq =>
      cases hm with
      | readReady id rest _ hfrom => exact .shared hmany (hand_over hroll hsil hq hfrom)
      | dispatch id hpc' => rw [hpc] at hpc'; cases hpc'
      | faultHandled id cause rest hpc' _ => rw [hpc] at hpc'; cases hpc'
      | terminated id cause rest hpc' _ => rw [hpc] at hpc'; cases hpc'
      | requeue id hpc' => rw [hpc] at hpc'; cases hpc'
  | inHand i hi hhand hq =>
      cases hm with
      | readReady id rest hpc' _ => simpa [hpc'] using hhand.sched
      | dispatch id hpc' =>
          obtain rfl : id = i := by simpa [hpc'] using hhand.sched
          refine .shared hmany (.running id hi hhand.start fun j hj hji => ?_)
          exact (hq j hj hji).congr rfl (Function.update_of_ne hji _ _) rfl Iff.rfl rfl
      | faultHandled id cause rest hpc' _ => simpa [hpc'] using hhand.sched
      | terminated id cause rest hpc' _ => simpa [hpc'] using hhand.sched
      | requeue id hpc' =>
          obtain rfl : id = i := by simpa [hpc'] using hhand.sched
          have hsil := hhand.silent
          exact .shared hmany (.free rfl ⟨hsil.requests, hsil.mmuPc, hsil.msgq2, hsil.replies⟩
            (hhand.put_back hi hq))
  | running i hi hrun hq => exact hrun.schedMove hroll' hmany hq hm
  | stopping i hi hstop hq => exact hstop.schedMove hi hroll' hmany hq hm

/-- The MMU moves: on behalf of the process that runs or is being stopped, for nobody else has asked
for anything. -/
theorem shared_mmuMove (hc : Calls k s) (h : Shared k s) (hm : MmuMove k m s s') : Shared k s' := by
  have hsilent : Silent s → False := by
    intro hsil
    cases hm with
    | receive _ _ _ _ hreq => rw [hsil.requests] at hreq; cases hreq
    | silent _ hpc => rw [hsil.mmuPc] at hpc; cases hpc
    | last _ _ hpc => rw [hsil.mmuPc] at hpc; cases hpc
    | send _ _ _ _ hpc => rw [hsil.mmuPc] at hpc; cases hpc
  cases h with
  | free _ hsil _ => exact (hsilent hsil).elim
  | inHand i _ hhand _ => exact (hsilent hhand.silent).elim
  | running i hi hrun hq =>
      have hothers := fun j hj hji => quiet_mmuMove hc (hq j hj hji) hrun.only hji hm
      rcases hrun.mmuMove hc hm with hrun' | hstop
      · exact .running i hi hrun' hothers
      · exact .stopping i hi hstop hothers
  | stopping i hi hstop hq =>
      exact .stopping i hi (hstop.mmuMove hc hm)
        fun j hj hji => quiet_mmuMove hc (hq j hj hji) hstop.only hji hm

/-! ## The roll -/

theorem roll_procMove {pages : List Int} (h : Roll k s) (hi : i < k) (hm : ProcMove pages i s s') :
    Roll k s' := by
  cases hm with
  | register _ => exact h.announce hi
  | dispatched _ _ => exact ⟨h.listed, h.reported, h.once, h.counted⟩
  | ask _ _ _ _ => exact ⟨h.listed, h.reported, h.once, h.counted⟩
  | leave _ _ _ => exact ⟨h.listed, h.reported, h.once, h.counted⟩
  | answered _ _ _ _ _ => exact ⟨h.listed, h.reported, h.once, h.counted⟩
  | exit _ => exact ⟨h.listed, h.reported, h.once, h.counted⟩

theorem roll_mmuMove (h : Roll k s) (hm : MmuMove k m s s') : Roll k s' := by
  cases hm with
  | receive _ _ _ _ _ => exact ⟨h.listed, h.reported, h.once, h.counted⟩
  | silent _ _ => exact ⟨h.listed, h.reported, h.once, h.counted⟩
  | last _ o _ => cases o <;> exact ⟨h.listed, h.reported, h.once, h.counted⟩
  | send _ o _ _ _ => cases o <;> exact ⟨h.listed, h.reported, h.once, h.counted⟩

/-- The process whose notification the scheduler waits for, or which it puts back into the ready
queue, is one of the `k` and not reported. -/
theorem Phase.busy {id : Nat} (h : Phase k s)
    (hpc : s.sched = .readNotice id ∨ s.sched = .requeue id) : id < k ∧ id ∉ s.reported := by
  cases h with
  | shared _ h =>
      cases h with
      | free hpc' _ _ => simp [hpc'] at hpc
      | inHand i hi hhand _ =>
          have hsched := hhand.sched
          rcases hpc with hpc | hpc
          · simp [hpc] at hsched
          · obtain rfl : id = i := by simpa [hpc] using hsched
            exact ⟨hi, hhand.unreported⟩
      | running i hi hrun _ =>
          obtain rfl : i = id := by simpa [hrun.sched] using hpc
          exact ⟨hi, hrun.unreported⟩
      | stopping i hi hstop _ =>
          obtain rfl : i = id := by simpa [hstop.sched] using hpc
          exact ⟨hi, hstop.unreported⟩
  | solo i hi hsolo =>
      have hsched := hsolo.sched
      rcases hpc with hpc | hpc
      · obtain rfl : id = i := by simpa [hpc] using hsched
        exact ⟨hi, hsolo.unreported⟩
      · obtain rfl : id = i := by simpa [hpc] using hsched
        exact ⟨hi, hsolo.unreported⟩
  | left hpc' => simp [hpc'] at hpc

theorem roll_schedMove (h : Roll k s) (hp : Phase k s) (hm : SchedMove k s s') : Roll k s' := by
  cases hm with
  | readReady id rest _ hfrom =>
      exact ⟨fun j hj => h.listed j (by simp [hfrom, hj]), h.reported, h.once, h.counted⟩
  | dispatch _ _ => exact ⟨h.listed, h.reported, h.once, h.counted⟩
  | faultHandled _ _ _ _ _ => exact ⟨h.listed, h.reported, h.once, h.counted⟩
  | terminated id cause rest hpc _ =>
      obtain ⟨hid, hnew⟩ := hp.busy (.inl hpc)
      refine ⟨h.listed, fun j hj => ?_, ?_, by simpa using h.counted⟩
      · rcases List.mem_append.mp hj with hj | hj
        · exact h.reported j hj
        · rw [List.mem_singleton.mp hj]
          exact hid
      · show (s.reported ++ [id]).Nodup
        exact List.nodup_append.mpr ⟨h.once, List.nodup_singleton id, fun x hx y hy hxy =>
          hnew (by rwa [← List.mem_singleton.mp hy, ← hxy])⟩
  | requeue id hpc =>
      refine ⟨fun j hj => ?_, h.reported, h.once, h.counted⟩
      rcases List.mem_append.mp hj with hj | hj
      · exact h.listed j hj
      · rw [List.mem_singleton.mp hj]
        exact (hp.busy (.inr hpc)).1

/-! ## The run -/

/-- **One step keeps to the phases.** -/
theorem phase_next {a : Party} (hc : Calls k s) (hroll : Roll k s) (h : Phase k s)
    (hok : GoesOnInTurn k s a) (hs : (pagingMachine k m f refs).next s a = some s') :
    Roll k s' ∧ Phase k s' := by
  rcases pagingMachine_cases hs with ⟨j, hj, rfl, hm⟩ | ⟨-, hm⟩ | ⟨-, hm⟩
  · refine ⟨roll_procMove hroll hj hm, ?_⟩
    have hframe : s'.termCount = s.termCount ∧ s'.sched = s.sched := by
      cases hm <;> exact ⟨rfl, rfl⟩
    cases h with
    | shared hmany h => exact .shared (hframe.1 ▸ hmany) (shared_procMove hmany h hj hok hm)
    | solo i hi hsolo => exact .solo i hi (hsolo.procMove hj hok hm)
    | left hpc => exact .left (hframe.2.trans hpc)
  · have hroll' := roll_schedMove hroll h hm
    refine ⟨hroll', ?_⟩
    cases h with
    | shared hmany h => exact shared_schedMove hroll hroll' hmany h hm
    | solo i hi hsolo => exact hsolo.schedMove hi hm
    | left hpc => cases hm <;> simp_all
  · refine ⟨roll_mmuMove hroll hm, ?_⟩
    have hframe : s'.termCount = s.termCount ∧ s'.sched = s.sched := by
      cases hm with
      | receive _ _ _ _ _ => exact ⟨rfl, rfl⟩
      | silent _ _ => exact ⟨rfl, rfl⟩
      | last _ o _ => cases o <;> exact ⟨rfl, rfl⟩
      | send _ o _ _ _ => cases o <;> exact ⟨rfl, rfl⟩
    cases h with
    | shared hmany h => exact .shared (hframe.1 ▸ hmany) (shared_mmuMove hc h hm)
    | solo i hi hsolo => exact .solo i hi (hsolo.mmuMove hc hm)
    | left hpc => exact .left (hframe.2.trans hpc)

theorem phase_reachable (h : (pagingMachine k m f refs).ReachableWhen (GoesOnInTurn k) s) :
    Roll k s ∧ Phase k s := by
  refine h.invariant_of (I := fun s => Roll k s ∧ Phase k s)
    (fun s hr => calls_reachable hr.reachable) ?_ fun s a s' hc ⟨hroll, hp⟩ hok hs =>
      phase_next hc hroll hp hok hs
  rintro s ⟨pcb, -, rfl⟩
  have hroll : Roll k (startSys k m f pcb) :=
    ⟨by simp [startSys], by simp [startSys], List.nodup_nil, rfl⟩
  refine ⟨hroll, phase_of_free hroll rfl ⟨rfl, rfl, rfl, ?_⟩ fun j _ => ?_⟩
  · intro j x hx
    simp [startSys] at hx
  · exact .unregistered rfl rfl rfl (by simp [startSys]) rfl

/-- **One dispatched process at a time.** In the runs in which a process that is stopped goes on only
when it has been dispatched again, no process but the dispatched one asks for a page before the next
notification, and that notification is about the dispatched process. -/
theorem one_at_a_time_when {k m f : Nat} {refs : Nat → List Int} {s : Sys}
    (h : (pagingMachine k m f refs).ReachableWhen (GoesOnInTurn k) s) :
    OneAtATime k refs s := by
  have honly : ∀ i, s.sched = .readNotice i →
      (∀ j < k, j ≠ i → ∀ count, s.proc j ≠ .request count) ∧ OnlyOf i s := by
    intro i hpc
    cases (phase_reachable h).2 with
    | shared _ hp =>
        cases hp with
        | free hpc' _ _ => rw [hpc] at hpc'; cases hpc'
        | inHand i' _ hhand _ => simpa [hpc] using hhand.sched
        | running i' _ hrun hq =>
            obtain rfl : i = i' := by simpa [hpc] using hrun.sched
            exact ⟨fun j hj hji count => quiet_not_asking (hq j hj hji), hrun.only⟩
        | stopping i' hi hstop hq =>
            obtain rfl : i = i' := by simpa [hpc] using hstop.sched
            exact ⟨fun j hj hji count => quiet_not_asking (hq j hj hji), hstop.only⟩
    | solo i' hi hsolo =>
        obtain rfl : i = i' := by simpa [hpc] using hsolo.sched
        refine ⟨fun j hj hji count hc => ?_, hsolo.only⟩
        have hw := (hsolo.others j hj hji).1
        rw [hc] at hw
        exact hw
    | left hpc' => rw [hpc] at hpc'; cases hpc'
  refine ⟨fun i hpc j hj count page hask _ => ?_, fun i hpc n hn => ?_⟩
  · by_contra hji
    exact (honly i hpc).1 j hj hji count hask
  · exact (honly i hpc).2.notes n (List.mem_of_mem_head? hn)

/-- Two processes that refer to two pages and to one. Each is stopped by its page faults, and the
scheduler goes back and forth between them. -/
theorem one_at_a_time_when_run :
    ∃ s, (pagingMachine 2 2 4 (fun i => if i = 0 then [0, 1] else [0])).ReachableWhen
        (GoesOnInTurn 2) s
      ∧ s.sched = .left
      ∧ OneAtATime 2 (fun i => if i = 0 then [0, 1] else [0]) s := by
  obtain ⟨s, hs, hp⟩ : ∃ s, (pagingMachine 2 2 4 (fun i => if i = 0 then [0, 1] else [0])).ReachableWhen
      (GoesOnInTurn 2) s ∧ (s.sched == .left) = true := Machine.exists_reachableWhen_of_execWhen
    (s := startSys 2 2 4 [⟨2, 2, 0⟩, ⟨1, 2, 0⟩])
    (l := [
      -- both are announced, process 0 is dispatched and faults, and is put back
      .proc 0, .proc 1, .sched, .sched, .proc 0, .proc 0, .mmu, .mmu, .mmu, .sched, .sched,
      -- so does process 1
      .sched, .sched, .proc 1, .proc 1, .mmu, .mmu, .mmu, .sched, .sched,
      -- process 0 goes on to its second page
      .sched, .sched, .proc 0, .proc 0, .mmu, .mmu, .proc 0, .proc 0, .mmu, .mmu, .mmu, .sched, .sched,
      -- process 1 comes to its end
      .sched, .sched, .proc 1, .proc 1, .mmu, .mmu, .proc 1, .proc 1, .proc 1, .mmu, .mmu, .sched,
      -- and process 0 to its
      .sched, .sched, .proc 0, .proc 0, .mmu, .mmu, .proc 0, .proc 0, .proc 0, .mmu, .mmu, .sched])
    ⟨_, ⟨rfl, by simp⟩, rfl⟩ (by decide)
  exact ⟨s, hs, by simpa using hp, one_at_a_time_when hs⟩

/-- **Two ask at once otherwise.** After the fault of process `0` the scheduler dispatches
process `1`, and process `0` asks again. -/
theorem two_ask_at_once :
    ¬ ∀ s, (pagingMachine 2 1 2 (fun _ => [0])).Reachable s → OneAtATime 2 (fun _ => [0]) s := by
  intro h
  obtain ⟨s, hs, hp⟩ := Machine.exists_reachable_of_exec (M := pagingMachine 2 1 2 (fun _ => [0]))
    (s := startSys 2 1 2 [⟨1, 1, 0⟩, ⟨1, 1, 0⟩])
    (p := fun s => s.sched == .readNotice 1 && s.proc 0 == .request 0)
    (l := [.proc 0, .proc 1, .sched, .sched, .proc 0, .proc 0, .mmu, .mmu, .mmu, .proc 0, .sched,
      .sched, .sched, .sched])
    ⟨_, ⟨rfl, by simp⟩, rfl⟩ (by decide)
  simp only [Bool.and_eq_true, beq_iff_eq] at hp
  exact absurd ((h s hs).asks 1 hp.1 0 (by decide) 0 0 hp.2 rfl) (by decide)

end OSLab.Paging
