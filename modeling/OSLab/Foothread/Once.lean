import OSLab.Foothread.Barrier

set_option autoImplicit false

/-! # Threads that meet at one barrier once

When each of the `n` threads calls `foothread_barrier_wait` once, nobody can come back before all have
returned, so the phases of `Barrier.lean` are gone through in order. Two more facts make the runs
end well. When `reached` is `n`, somebody is on the way to open the barrier (`SomebodyOpens`). And
the tokens in the semaphore with those that have been taken are what the opener put there
(`OncePhase`), which is `n` as long as `n` is a value of `sem_op`, a `short`. So everybody is
released for `n` up to `32767`, and for no larger `n` (`once_releases_iff`).
-/

namespace OSLab.Foothread

variable {n t u : Nat} {s s' : State} {pc p : BarrierPc} {mem : Mem}

/-- Threads that have called do not call again. -/
def onceMachine (n : Nat) : Machine State Nat where
  init := (barrierMachine n).init
  next s t := if s.place t = none ∧ s.entered t ≠ 0 then none else (barrierMachine n).next s t

theorem onceMachine_next (h : (onceMachine n).next s t = some s') :
    (barrierMachine n).next s t = some s' ∧ (s.place t = none → s.entered t = 0) := by
  simp only [onceMachine] at h
  split at h
  case isTrue => cases h
  case isFalse hcalls => exact ⟨h, fun hp => not_not.mp fun hne => hcalls ⟨hp, hne⟩⟩

/-- A thread is in its call, before it or after it. -/
theorem once_calls (h : (onceMachine n).Reachable s) : Calls s ∧ ∀ t, s.entered t ≤ 1 := by
  refine h.invariant (I := fun s => Calls s ∧ ∀ t, s.entered t ≤ 1) ?_ ?_
  · rintro s ⟨mem, -, rfl⟩
    exact ⟨fun t => rfl, fun t => Nat.zero_le 1⟩
  · rintro s t s' ⟨hcalls, hone⟩ - hs
    obtain ⟨hb, hfirst⟩ := onceMachine_next hs
    refine ⟨calls_next hcalls hb, fun u => ?_⟩
    obtain ⟨-, ⟨hp, rfl⟩ | ⟨pc, mem, p, -, -, rfl⟩ | ⟨pc, mem, -, -, rfl⟩⟩ := barrierMachine_cases hb
    · by_cases hut : u = t
      · have hzero := hfirst hp
        simp [State.enter, hut, hzero]
      · simpa [State.enter, Function.update_of_ne hut] using hone u
    · exact hone u
    · exact hone u

/-! ## Somebody opens the barrier -/

/-- The thread has found `reached == count`, or will, and has not reset `reached` yet. -/
def willOpen : Place → Bool
  | some .test | some (.unlock true) | some (.unlockOp true _) | some .setRelease | some .release
  | some (.releaseOp _) | some .reset => true
  | _ => false

/-- When `reached` is `n`, somebody opens the barrier. -/
def SomebodyOpens (n : Nat) (s : State) : Prop := s.mem.reached = n → ∃ t < n, willOpen (s.place t) = true

/-- One that opens the barrier goes on to do so. -/
theorem willOpen_next (hm : BarrierMove 0 s.mem pc mem (.next p)) (hfix : Fixed n s.mem)
    (hreached : mem.reached = n) (hn : 1 ≤ n) (hopens : willOpen (some pc) = true) :
    willOpen (some p) = true := by
  cases hm with
  | test =>
      have hlast : (s.mem.barriers 0).reached = (s.mem.barriers 0).count := by
        rw [hfix.count]
        exact hreached
      rw [decide_eq_true hlast]
      rfl
  | reset =>
      rw [setReached_reached] at hreached
      omega
  | unlock last =>
      cases last with
      | true => rfl
      | false => cases hopens
  | unlockOp last =>
      cases last with
      | true => rfl
      | false => cases hopens
  | setRelease => rfl
  | release => rfl
  | releaseOp => rfl
  | _ => cases hopens

theorem full_goto (h : SomebodyOpens n s) (hfix : Fixed n s.mem) (hn : 1 ≤ n) (ht : t < n)
    (hp : s.place t = some pc) (hm : BarrierMove 0 s.mem pc mem (.next p)) :
    SomebodyOpens n (s.goto t mem p) := by
  intro hreached
  change mem.reached = n at hreached
  -- whoever opens it before the step does so after it
  have key : s.mem.reached = n → ∃ u < n, willOpen ((s.goto t mem p).place u) = true := by
    intro hfull
    obtain ⟨u, hu, hopens⟩ := h hfull
    refine ⟨u, hu, ?_⟩
    by_cases hut : u = t
    · rw [hut, hp] at hopens
      rw [hut, goto_place_self]
      exact willOpen_next hm hfix hreached hn hopens
    · rw [goto_place_ne s mem p hut]
      exact hopens
  cases hm with
  | writeReached r =>
      refine ⟨t, ht, ?_⟩
      rw [goto_place_self]
      rfl
  | reset =>
      rw [setReached_reached] at hreached
      omega
  | _ => exact key hreached

/-- **The last to arrive opens the barrier.** -/
theorem full_reachable (hn : 1 ≤ n) (h : (barrierMachine n).ReachableWhen (PreviousPhaseOver n) s) :
    SomebodyOpens n s := by
  refine h.invariant_of (I := SomebodyOpens n) (J := fun s => Fixed n s.mem) ?_ ?_ ?_
  · intro s hs
    cases phase_reachable hs with
    | filling g hf => exact hf.fixed
    | opening g l hl ho => exact ho.fixed
    | draining g hd => exact hd.fixed
  · rintro s ⟨mem, -, rfl⟩ hreached
    have hzero : (0 : Int) = n := by simpa [foothreadBarrierInit, Mem.reached] using hreached
    omega
  · rintro s t s' hfix hfull - hs
    obtain ⟨ht, ⟨hp, rfl⟩ | ⟨pc, mem, p, hp, hm, rfl⟩ | ⟨pc, mem, hp, hm, rfl⟩⟩ :=
      barrierMachine_cases hs
    · intro hreached
      obtain ⟨u, hu, hopens⟩ := hfull hreached
      have hut : u ≠ t := fun hut => by
        rw [hut, hp] at hopens
        cases hopens
      exact ⟨u, hu, by simpa [State.enter, Function.update_of_ne hut] using hopens⟩
    · exact full_goto hfull hfix hn ht hp hm
    · intro hreached
      cases hm with
      | passOp op v _ =>
          obtain ⟨u, hu, hopens⟩ := hfull hreached
          have hut : u ≠ t := fun hut => by
            rw [hut, hp] at hopens
            cases hopens
          exact ⟨u, hu, by rwa [return_place_ne s _ hut]⟩

/-! ## The phases of the one call -/

/-- The phases, the last one when all have returned. What the opener puts into the semaphore is
still there or has been taken. -/
inductive OncePhase (n : Nat) (s : State) : Prop
  | filling : Filling n 0 s → OncePhase n s
  | opening (l : Nat) : l < n → Opening n 0 l s → OncePhase n s
  | draining : Draining n 0 s →
      s.mem.tokens + Nat.count (fun t => s.returned t = 1) n = (toShort n).toNat → OncePhase n s
  | done : (∀ t < n, s.returned t = 1) → s.mem.tokens = 0 → (toShort n).toNat = n → OncePhase n s

/-- Who looks for a token does not change their number. -/
theorem tokens_waiting (hpl : some pc = some .reset ∨ Waiting (some pc))
    (hm : BarrierMove 0 s.mem pc mem (.next p)) : mem.tokens = s.mem.tokens := by
  cases hm with
  | reset => exact setReached_tokens _ _
  | pass => rfl
  | _ => exact absurd hpl (by simp [Waiting])

theorem oncePhase_next (hc : Calls s) (hone : ∀ t, s.entered t ≤ 1)
    (h : OncePhase n s) (hs : (onceMachine n).next s t = some s') : OncePhase n s' := by
  obtain ⟨hb, hfirst⟩ := onceMachine_next hs
  have hcall := hc t
  have hle := hone t
  obtain ⟨ht, ⟨hp, rfl⟩ | ⟨pc, mem, p, hp, hm, rfl⟩ | ⟨pc, mem, hp, hm, rfl⟩⟩ :=
    barrierMachine_cases hb
  · have hzero := hfirst hp
    cases h with
    | filling hf => exact .filling (hf.enter ht hp)
    | opening l hl ho => exact absurd hp (ho.in_call ht)
    | draining hd _ =>
        -- one that is not in its call has returned
        have hpl := hd.place t ht
        rw [hp] at hpl
        have hret := hpl.resolve_left fun hc => by simp [Waiting] at hc
        omega
    | done hall _ _ =>
        have hret := hall t ht
        omega
  · rw [if_neg (by simp [hp])] at hcall
    cases h with
    | filling hf =>
        rcases filling_next hf ht hp hm with hf' | ho
        · exact .filling hf'
        · exact .opening t ht ho
    | opening l hl ho =>
        by_cases htl : t = l
        · subst htl
          rcases opener_next ho ht hp hm with ho' | ⟨hd, htok⟩
          · exact .opening t hl ho'
          · refine .draining hd ?_
            have hnone : Nat.count (fun u => s.returned u = 1) n = 0 :=
              Nat.count_iff_forall_not.mpr fun u hu => by
                rw [ho.returned u hu]
                omega
            calc mem.tokens + Nat.count (fun u => s.returned u = 1) n
                = (toShort n).toNat + 0 := by rw [hnone, ← htok]
              _ = (toShort n).toNat := Nat.add_zero _
        · exact .opening l hl (opening_other ho ht htl hp hm)
    | draining hd htok =>
        have hpl := hd.place t ht
        rw [hp] at hpl
        obtain ⟨-, hwait⟩ := hpl.resolve_right fun hc => by omega
        refine .draining (draining_next hd ht hp hm ?_) ?_
        · rintro op rfl
          simp [Waiting] at hwait
        · rw [← htok, ← tokens_waiting hwait hm]
          rfl
    | done hall _ _ =>
        have hret := hall t ht
        omega
  · rw [if_neg (by simp [hp])] at hcall
    cases h with
    | filling hf => exact absurd hm (hf.not_return ht hp)
    | opening l hl ho => exact absurd hm (ho.not_return ht hp)
    | draining hd htok =>
        obtain ⟨hphase, hret, htaken⟩ := draining_return hd ht hp hm
        have hcount : Nat.count (fun u => (s.return t mem).returned u = 1) n
            = Nat.count (fun u => s.returned u = 1) n + 1 :=
          count_gain ht (fun u _ hut => by rw [return_returned_ne s mem hut]) (by omega)
            (by rw [return_returned_self, hret])
        have hsum : mem.tokens + Nat.count (fun u => (s.return t mem).returned u = 1) n
            = (toShort n).toNat := by omega
        rcases hphase with hd' | hf
        · exact .draining hd' hsum
        · have hall : Nat.count (fun u => (s.return t mem).returned u = 1) n = n :=
            Nat.count_iff_forall.mpr hf.returned
          have hzero : mem.tokens = 0 := hf.tokens
          exact .done hf.returned hzero (by omega)
    | done hall _ _ =>
        have hret := hall t ht
        omega

/-! ## The runs -/

/-- With one call each, nobody comes back too early. -/
theorem once_in_phase (h : (onceMachine n).Reachable s) :
    (barrierMachine n).ReachableWhen (PreviousPhaseOver n) s := by
  induction h with
  | init h => exact .init h
  | step hr _ hs ih =>
      refine .step ih (fun _ u _ => ?_) (onceMachine_next hs).1
      have hle := (once_calls hr).2
      exact (hle _).trans (Nat.le_add_left 1 _)

theorem oncePhase_reachable (hn : 1 ≤ n) (h : (onceMachine n).Reachable s) : OncePhase n s := by
  refine h.invariant_of (I := OncePhase n) (fun s hs => once_calls hs) ?_
    fun s t s' hc hph _ hs => oncePhase_next hc.1 hc.2 hph hs
  intro s hinit
  have hph := phase_reachable (.init (M := barrierMachine n) hinit)
  obtain ⟨mem, -, rfl⟩ := hinit
  -- nobody is in a call yet
  cases hph with
  | filling g hf =>
      obtain rfl : 0 = g := hf.returned 0 hn
      exact .filling hf
  | opening g l hl ho => exact absurd rfl (ho.in_call hl)
  | draining g hd =>
      obtain ⟨t, ht, hg⟩ := hd.behind
      rcases hd.place t ht with ⟨-, hpl⟩ | ⟨hg', -⟩
      · simp [Waiting] at hpl
      · omega

/-! ## Somebody can move -/

/-- A thread whose statement does not block moves. -/
theorem once_moves (ht : t < n) (hp : s.place t = some pc) (hw : (barrierWait 0 s.mem pc).isSome) :
    ∃ t s', (onceMachine n).next s t = some s' := by
  obtain ⟨⟨mem, c⟩, hwait⟩ := Option.isSome_iff_exists.mp hw
  have hnext : (onceMachine n).next s t = (barrierMachine n).next s t :=
    if_neg fun hc => by rw [hp] at hc; cases hc.1
  cases c with
  | next p => exact ⟨t, s.goto t mem p, by simp only [hnext, barrierMachine, if_pos ht, hp, hwait]⟩
  | ret => exact ⟨t, s.return t mem, by simp only [hnext, barrierMachine, if_pos ht, hp, hwait]⟩
  | clone p => cases barrierMove_of_wait hwait
  | exit => cases barrierMove_of_wait hwait

theorem once_enters (ht : t < n) (hp : s.place t = none) (hzero : s.entered t = 0) :
    ∃ t s', (onceMachine n).next s t = some s' := by
  have hnext : (onceMachine n).next s t = (barrierMachine n).next s t :=
    if_neg fun hc => hc.2 hzero
  exact ⟨t, s.enter t, by simp only [hnext, barrierMachine, if_pos ht, hp]⟩

/-- An operation that the semaphore lets through. -/
theorem perform_isSome {P : Type} {mem : Mem} {id : Nat} {op : Int} {c : Ctl P}
    (h : 0 < op ∨ op = -1 ∧ 0 < mem.semval id) : (mem.perform id op c).isSome := by
  rw [Mem.perform, Option.isSome_map]
  rcases h with hpos | ⟨rfl, hval⟩
  · rw [semop, if_pos hpos]
    rfl
  · rw [Option.isSome_iff_exists]
    exact ⟨mem.semval id - 1, semop_neg_one.mpr (by omega)⟩

/-- While the phase is filling, somebody can move: one that has not called, one that has the mutex,
one that can get it. All others wait for the barrier to be opened, and somebody opens it. -/
theorem filling_moves (hc : Calls s) (hfull : SomebodyOpens n s) (h : Filling n 0 s) :
    ∃ t s', (onceMachine n).next s t = some s' := by
  by_cases hnone : ∃ t < n, s.place t = none
  · obtain ⟨t, ht, hp⟩ := hnone
    have hcall := hc t
    rw [if_pos hp, h.returned t ht] at hcall
    exact once_enters ht hp hcall
  by_cases hholder : ∃ t < n, holds (s.place t) = true
  · obtain ⟨t, ht, hh⟩ := hholder
    have hpl := h.place t ht
    cases hp : s.place t with
    | none => exact absurd ⟨t, ht, hp⟩ hnone
    | some pc =>
        rw [hp] at hh hpl
        refine once_moves ht hp ?_
        cases pc with
        | unlockOp last op =>
            cases last with
            | true => exact (hpl.elim id id).elim
            | false => exact perform_isSome (.inl (by rw [show op = 1 from hpl]; decide))
        | readReached | writeReached _ | test | unlock _ => rfl
        | _ => cases hh
  have hmutex : 0 < s.mem.mutexValue := by
    have hzero : Nat.count (fun t => holds (s.place t) = true) n = 0 :=
      Nat.count_iff_forall_not.mpr fun t ht hh => hholder ⟨t, ht, hh⟩
    have := h.mutex
    omega
  by_cases hall : ∀ t < n, wrote (s.place t) = true
  · have hreached : s.mem.reached = n := by
      rw [h.reached, Nat.count_iff_forall.mpr hall]
    obtain ⟨t, ht, hopens⟩ := hfull hreached
    have hwait := (h.place t ht).waiting (hall t ht) (by simpa using fun hh => hholder ⟨t, ht, hh⟩)
    cases hp : s.place t with
    | none => exact absurd ⟨t, ht, hp⟩ hnone
    | some pc =>
        rw [hp] at hopens hwait
        cases pc with
        | pass => cases hopens
        | passOp op => cases hopens
        | _ => exact hwait.elim
  · obtain ⟨t, hnot⟩ := not_forall.mp hall
    obtain ⟨ht, hw⟩ := Classical.not_imp.mp hnot
    have hpl := h.place t ht
    have hh : ¬ holds (s.place t) = true := fun hh => hholder ⟨t, ht, hh⟩
    cases hp : s.place t with
    | none => exact absurd ⟨t, ht, hp⟩ hnone
    | some pc =>
        rw [hp] at hw hpl hh
        refine once_moves ht hp ?_
        cases pc with
        | setPop | setVop | lock => rfl
        | lockOp op =>
            exact perform_isSome (.inr ⟨hpl.resolve_right id, hmutex⟩)
        | readReached | writeReached _ => exact absurd rfl hh
        | _ => exact absurd rfl hw

theorem opening_moves {l : Nat} (hn : 0 < toShort n) (hl : l < n) (h : Opening n 0 l s) :
    ∃ t s', (onceMachine n).next s t = some s' := by
  have hopen := h.opener
  cases hp : s.place l with
  | none => exact absurd hp (h.in_call hl)
  | some pc =>
      rw [hp] at hopen
      refine once_moves hl hp ?_
      cases pc with
      | unlock last | setRelease | release => rfl
      | unlockOp last op =>
          cases last with
          | false => exact hopen.elim
          | true => exact perform_isSome (.inl (by rw [show op = 1 from hopen]; decide))
      | releaseOp op => exact perform_isSome (.inl (by rw [show op = toShort n from hopen]; exact hn))
      | _ => exact hopen.elim

theorem draining_moves (h : Draining n 0 s)
    (htok : s.mem.tokens + Nat.count (fun t => s.returned t = 1) n = n) :
    ∃ t s', (onceMachine n).next s t = some s' := by
  obtain ⟨t, ht, hzero⟩ := h.behind
  obtain ⟨-, hpl⟩ := (h.place t ht).resolve_right fun hc => by omega
  -- one has not taken its token, so it is still there
  have htokens : 0 < s.mem.tokens := by
    by_contra hc
    have hall : Nat.count (fun t => s.returned t = 1) n = n := by omega
    have := Nat.count_iff_forall.mp hall t ht
    omega
  rcases hpl with hreset | hwait
  · exact once_moves ht hreset rfl
  · cases hp : s.place t with
    | none => rw [hp] at hwait; exact hwait.elim
    | some pc =>
        rw [hp] at hwait
        refine once_moves ht hp ?_
        cases pc with
        | pass => rfl
        | passOp op => exact perform_isSome (.inr ⟨hwait, htokens⟩)
        | _ => exact hwait.elim

theorem toShort_eq (hle : n ≤ SEMVMX) : toShort n = n := by
  rw [SEMVMX] at hle
  exact Int.bmod_eq_of_le (by omega) (by omega)

/-- **Somebody can move** until all have returned. -/
theorem once_progress (hn : 1 ≤ n) (hle : n ≤ SEMVMX) (h : (onceMachine n).Reachable s)
    (hnot : ∃ t < n, s.returned t = 0) : ∃ t s', (onceMachine n).next s t = some s' := by
  have hshort := toShort_eq hle
  cases oncePhase_reachable hn h with
  | filling hf => exact filling_moves (once_calls h).1 (full_reachable hn (once_in_phase h)) hf
  | opening l hl ho => exact opening_moves (by omega) hl ho
  | draining hd htok => exact draining_moves hd (by omega)
  | done hall _ _ =>
      obtain ⟨t, ht, hzero⟩ := hnot
      have := hall t ht
      omega

/-! ## The runs end -/

/-- The steps from a place to the end of the call, the longer way. -/
def stepsLeft : Place → Nat
  | none => 0
  | some .setPop => 15
  | some .setVop => 14
  | some .lock => 13
  | some (.lockOp _) => 12
  | some .readReached => 11
  | some (.writeReached _) => 10
  | some .test => 9
  | some (.unlock _) => 8
  | some (.unlockOp _ _) => 7
  | some .setRelease => 6
  | some .release => 5
  | some (.releaseOp _) => 4
  | some .reset => 3
  | some .pass => 2
  | some (.passOp _) => 1

/-- What a thread has left to do. -/
def threadRank (s : State) (t : Nat) : Nat :=
  (if s.entered t = 0 then 16 else 0) + stepsLeft (s.place t)

def rank (n : Nat) (s : State) : Nat := ∑ t ∈ Finset.range n, threadRank s t

theorem stepsLeft_next (hm : BarrierMove 0 s.mem pc mem (.next p)) :
    stepsLeft (some p) < stepsLeft (some pc) := by
  cases hm with
  | unlockOp last => cases last <;> simp [stepsLeft]
  | _ => simp [stepsLeft]

theorem rank_next (h : (onceMachine n).next s t = some s') : rank n s' < rank n s := by
  obtain ⟨hb, hfirst⟩ := onceMachine_next h
  have hothers : ∀ u, u ≠ t → s'.entered u = s.entered u ∧ s'.place u = s.place u := by
    intro u hut
    obtain ⟨-, ⟨-, rfl⟩ | ⟨_, _, _, -, -, rfl⟩ | ⟨_, _, -, -, rfl⟩⟩ := barrierMachine_cases hb
    · simp [State.enter, Function.update_of_ne hut]
    · simp [State.goto, Function.update_of_ne hut]
    · simp [State.return, Function.update_of_ne hut]
  have hthread : threadRank s' t < threadRank s t := by
    obtain ⟨-, ⟨hp, rfl⟩ | ⟨pc, mem, p, hp, hm, rfl⟩ | ⟨pc, mem, hp, hm, rfl⟩⟩ :=
      barrierMachine_cases hb
    · simp [threadRank, State.enter, hp, hfirst hp, stepsLeft]
    · have hlt := stepsLeft_next hm
      rw [threadRank, threadRank, goto_place_self, hp]
      exact Nat.add_lt_add_left hlt _
    · rw [threadRank, threadRank, return_place_self, hp]
      cases hm with
      | passOp op v _ => exact Nat.lt_succ_self _
  have ht : t < n := (barrierMachine_cases hb).1
  have hsum := sum_change (f := threadRank s) (g := threadRank s') ht fun u _ hut => by
    rw [threadRank, threadRank, (hothers u hut).1, (hothers u hut).2]
  rw [rank, rank]
  omega

/-! ## Who is released -/

/-- What a barrier used once is for. -/
structure ReleasesEverybody (n : Nat) : Prop where
  progress : ∀ s, (onceMachine n).Reachable s → (∀ t < n, s.entered t = 1) →
    (∃ t < n, s.returned t = 0) → ∃ t s', (onceMachine n).next s t = some s'
  ends : ∀ run, ¬ (onceMachine n).InfiniteRun run
  final : ∀ s, (onceMachine n).Reachable s → (onceMachine n).Stuck s →
    (∀ t < n, s.returned t = 1) ∧ s.mem.tokens = 0

theorem releases_of_le (hn : 1 ≤ n) (hle : n ≤ SEMVMX) : ReleasesEverybody n where
  progress := fun s hs _ hnot => once_progress hn hle hs hnot
  ends := Machine.not_infiniteRun fun _ _ _ hs => rank_next hs
  final := by
    intro s hs hstuck
    have hret : ∀ t < n, s.returned t ≠ 0 := by
      intro t ht hzero
      obtain ⟨u, s', hnext⟩ := once_progress hn hle hs ⟨t, ht, hzero⟩
      rw [hstuck u] at hnext
      cases hnext
    cases oncePhase_reachable hn hs with
    | filling hf => exact absurd (hf.returned 0 hn) (hret 0 hn)
    | opening l hl ho => exact absurd (ho.returned l hl) (hret l hl)
    | draining hd _ =>
        obtain ⟨t, ht, hzero⟩ := hd.behind
        exact absurd hzero (hret t ht)
    | done hall htok _ => exact ⟨hall, htok⟩

/-- A larger count is not what `sem_op` holds: too few tokens are put into the semaphore, or none. -/
theorem toShort_lt (hlt : SEMVMX < n) : (toShort n).toNat < n := by
  rw [SEMVMX] at hlt
  unfold toShort Int.bmod
  simp only
  split <;> omega

theorem not_releases_of_lt (hlt : SEMVMX < n) : ¬ ReleasesEverybody n := by
  intro h
  have hn : 1 ≤ n := by omega
  have hshort := toShort_lt hlt
  have hinit : (onceMachine n).Reachable
      ⟨foothreadBarrierInit zeroMem 0 n, fun _ => none, fun _ => 0, fun _ => 0⟩ :=
    .init ⟨zeroMem, le_rfl, rfl⟩
  -- the run ends somewhere, and there not all have returned
  obtain ⟨s, hs, hstuck⟩ := Machine.exists_stuck (fun _ _ _ hs => rank_next hs) hinit
  obtain ⟨hall, -⟩ := h.final s hs hstuck
  cases oncePhase_reachable hn hs with
  | filling hf =>
      have := hf.returned 0 hn
      have := hall 0 hn
      omega
  | opening l hl ho =>
      have := ho.returned l hl
      have := hall l hl
      omega
  | draining _ htok =>
      have := Nat.count_iff_forall.mpr hall
      omega
  | done _ _ heq => omega

/-- **A barrier used once releases everybody**, for as many threads as a semaphore counts. -/
theorem once_releases_iff (n : Nat) (hn : 1 ≤ n) : ReleasesEverybody n ↔ n ≤ SEMVMX :=
  ⟨fun h => not_lt.mp fun hlt => not_releases_of_lt hlt h, releases_of_le hn⟩

theorem once_releases_two : ReleasesEverybody 2 ↔ 2 ≤ SEMVMX := once_releases_iff 2 (by decide)

/-- **Too many threads.** -/
theorem barrier_count_truncated : ¬ ∀ n, 1 ≤ n → ReleasesEverybody n := by
  intro h
  exact not_releases_of_lt (n := 32768) (by decide) (h 32768 (by decide))

end OSLab.Foothread
