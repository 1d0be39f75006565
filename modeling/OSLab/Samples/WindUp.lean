import OSLab.Samples.Arrays

set_option autoImplicit false

/-! # How the workers wind up

`wdone` is the number of workers that have stopped working (`counted`). A worker that goes to sleep
has seen it below `N`, so the last one is still to come, or is on its way to the broadcast
(`WindingUp`): nobody sleeps for ever. With `mdone` set every step brings some thread closer to its
end (`left`), so the runs end, and they end with all threads at theirs (`quiet_finished`).

Without spurious wakeups nobody gets past the wait before `wdone` is `N` (`Passed`): the workers leave
together. One that wakes up by itself does not look again and leaves alone.
-/

namespace OSLab.Samples.Workers

open Pthread

variable {rand : Nat → Nat} {s s' : State} {w u : Nat} {p p' q : WorkerPc} {x x' : Shared}

/-! ## The invariant -/

/-- The worker has added itself to `wdone`. -/
def counted : WorkerPc → Bool
  | .testWdone | .wait | .asleep | .woken | .broadcast | .unlockExit | .exited => true
  | _ => false

/-- The worker has made `wdone` what it is and not yet acted on it. -/
def deciding : WorkerPc → Bool
  | .testWdone | .broadcast => true
  | _ => false

structure WindingUp (s : State) : Prop where
  wdone : s.data.wdone = number counted s
  value : ∀ u v, s.place (.worker u) = some (.writeWdone v) → v = s.data.wdone
  wait : ∀ u, s.place (.worker u) = some .wait → s.data.wdone < N
  asleep : ∀ u, s.place (.worker u) = some .asleep →
    s.data.wdone < N ∨ ∃ t p, s.place (.worker t) = some p ∧ deciding p = true

theorem windingUp_start : WindingUp (start rand) where
  wdone := by simp [start, number, isAt]
  value u v h := by cases h
  wait u h := by cases h
  asleep u h := by cases h

/-- A worker that decides does not move by itself. -/
theorem Stays.deciding (h : Stays s s' u) (hp : s.place (.worker u) = some p)
    (hd : deciding p = true) : s'.place (.worker u) = some p := by
  rcases h with hsame | ⟨hb, -⟩ | ⟨hb, -⟩
  · exact hsame.trans hp
  · obtain rfl := Option.some.inj (hb.symm.trans hp)
    cases hd
  · rw [hp] at hb
    cases hb

theorem WindingUp.stays (h : WindingUp s) {b : Bool} {k : Nat}
    (hdata : s'.data = { s.data with mdone := b, calls := k }) (hstays : ∀ u, Stays s s' u) :
    WindingUp s' where
  wdone := by
    rw [hdata, number_stays hstays rfl rfl]
    exact h.wdone
  value u v hq := by
    rw [hdata]
    exact h.value u v ((hstays u).same hq WorkerPc.noConfusion WorkerPc.noConfusion)
  wait u hq := by
    rw [hdata]
    exact h.wait u ((hstays u).same hq WorkerPc.noConfusion WorkerPc.noConfusion)
  asleep u hq := by
    rw [hdata]
    have hq := (hstays u).same hq WorkerPc.noConfusion WorkerPc.noConfusion
    refine (h.asleep u hq).imp_right fun ⟨t, p, hp, hd⟩ => ⟨t, p, ?_, hd⟩
    exact (hstays t).deciding hp hd

/-! ## One move of a worker -/

section Move

variable (h : WorkerMove rand w x p x' p')
include h

/-- `wdone` goes up by one when the worker is counted, and is kept otherwise. -/
theorem WorkerMove.wdone {n n' : Nat} (hvalue : ∀ v, p = .writeWdone v → v = x.wdone)
    (hn : n' + (if counted p = true then 1 else 0) = n + if counted p' = true then 1 else 0)
    (hw : x.wdone = n) : x'.wdone = n' := by
  cases h with
  | @writeWdone v =>
      have hlen : n' = n + 1 := by simpa [counted] using hn
      have hv := hvalue v rfl
      simp only
      omega
  | _ =>
      have hlen : n' = n := by simpa [counted] using hn
      exact hw.trans hlen.symm

theorem WorkerMove.keeps_wdone : x'.wdone = x.wdone ∨ ∃ v, p = .writeWdone v ∧ p' = .testWdone := by
  cases h with
  | writeWdone => exact .inr ⟨_, rfl, rfl⟩
  | _ => exact .inl rfl

theorem WorkerMove.reads_wdone {v : Nat} (hp : p' = .writeWdone v) : v = x'.wdone := by
  cases h with
  | readWdone =>
      cases hp
      rfl
  | _ => cases hp

theorem WorkerMove.to_wait (hp : p' = .wait) : x'.wdone < N := by
  cases h with
  | notLast hlt => exact hlt
  | _ => cases hp

theorem WorkerMove.to_asleep (hp : p' = .asleep) : p = .wait ∧ x' = x := by
  cases h with
  | wait => exact ⟨rfl, rfl⟩
  | _ => cases hp

/-- A worker that decides goes on to, waits for more, or has broadcast. -/
theorem WorkerMove.decides (hd : deciding p = true) :
    deciding p' = true ∨ x'.wdone < N ∨ p = .broadcast := by
  cases h with
  | notLast hlt => exact .inr (.inl hlt)
  | last => exact .inl rfl
  | broadcast => exact .inr (.inr rfl)
  | _ => cases hd

end Move

theorem WindingUp.move (h : WindingUp s) (hb : Basic s) (hw : w < N)
    (hp : s.place (.worker w) = some p) (hp' : s'.place (.worker w) = some p')
    (hm : WorkerMove rand w s.data p s'.data p') (hstays : ∀ u, u ≠ w → Stays s s' u)
    (hwakes : p = .broadcast → ∀ u, u ≠ w → s'.place (.worker u) ≠ some .asleep) :
    WindingUp s' where
  wdone := hm.wdone (fun v hv => h.value w v (hv ▸ hp)) (number_move hw hp hp' hstays rfl rfl) h.wdone
  value u v hq := by
    by_cases hu : u = w
    · subst hu
      exact hm.reads_wdone (Option.some.inj (hp'.symm.trans hq))
    · have hq := (hstays u hu).same hq WorkerPc.noConfusion WorkerPc.noConfusion
      rcases hm.keeps_wdone with hsame | ⟨v', rfl, -⟩
      · rw [hsame]
        exact h.value u v hq
      · exact absurd (Tid.worker.inj (hb.exclusive.unique (m := .done) hq hp rfl rfl)) hu
  wait u hq := by
    by_cases hu : u = w
    · subst hu
      exact hm.to_wait (Option.some.inj (hp'.symm.trans hq))
    · have hq := (hstays u hu).same hq WorkerPc.noConfusion WorkerPc.noConfusion
      rcases hm.keeps_wdone with hsame | ⟨v', rfl, -⟩
      · rw [hsame]
        exact h.wait u hq
      · exact absurd (Tid.worker.inj (hb.exclusive.unique (m := .done) hq hp rfl rfl)) hu
  asleep u hq := by
    by_cases hu : u = w
    · subst hu
      obtain ⟨hwait, hdata⟩ := hm.to_asleep (Option.some.inj (hp'.symm.trans hq))
      rw [hdata]
      exact .inl (h.wait u (hwait ▸ hp))
    · have hq' := (hstays u hu).same hq WorkerPc.noConfusion WorkerPc.noConfusion
      rcases h.asleep u hq' with hlt | ⟨t, r, hr, hd⟩
      · rcases hm.keeps_wdone with hsame | ⟨v, -, rfl⟩
        · rw [hsame]
          exact .inl hlt
        · exact .inr ⟨w, _, hp', rfl⟩
      · by_cases ht : t = w
        · subst ht
          obtain rfl := Option.some.inj (hp.symm.trans hr)
          rcases hm.decides hd with hd' | hlt | hbroadcast
          · exact .inr ⟨t, p', hp', hd'⟩
          · exact .inl hlt
          · exact absurd hq (hwakes hbroadcast u hu)
        · exact .inr ⟨t, r, (hstays t ht).deciding hr hd, hd⟩

theorem windingUp_reachable {ok : State → Label Tid → Prop}
    (h : (machine rand).ReachableWhen ok s) : WindingUp s := by
  refine h.invariant_of (J := Basic) (fun s hs => basic_reachable hs) ?_ ?_
  · rintro s rfl
    exact windingUp_start
  · intro s a s' hb hi _ hs
    obtain ⟨w, p, p', hw, hp, hp', hm, hstays, hwakes⟩ | ⟨⟨b, k, hdata⟩, hstays⟩ := change_cases hb hs
    · exact hi.move hb hw hp hp' hm hstays hwakes
    · exact hi.stays hdata hstays

/-! ## Nobody sleeps for ever -/

/-- The workers have exited and the master has joined them. -/
def Finished (rand : Nat → Nat) (s : State) : Prop :=
  s.halted (code rand) .master = true ∧ ∀ w < N, s.place (.worker w) = some .exited

/-- A thread at which nothing is left but to wait. -/
theorem quiet_worker (hb : Basic s) (hq : Quiet (code rand) all s)
    (hp : s.place (.worker w) = some p) : p = .asleep ∨ p = .exited := by
  rcases quiet_cases disciplined hb.exclusive hq hp with ⟨c, next, hc⟩ | ⟨u, next, hc, -⟩ | hc
  · obtain ⟨v, hcode, -⟩ := asleep_cases hc
    cases hcode
    exact .inl rfl
  · cases p <;> cases hc
  · cases p with
    | exited => exact .inr rfl
    | _ => cases hc

/-- **No deadlock and no lost wakeup**: when no thread can move but by a spurious wakeup, the program
is over. Then `C` adds up to the counts of the workers, and `A[i]` is what `C[i]` updates make of its
first value. -/
theorem quiet_finished (h : (machine rand).Reachable s) (hq : Quiet (code rand) all s) :
    Finished rand s
      ∧ ∑ i ∈ Finset.range S, s.data.C i = ∑ w ∈ Finset.range N, s.data.count w
      ∧ ∀ i, s.data.A i = newValue^[s.data.C i] (initArrays rand i) := by
  have hb := basic_reachable h
  have hi := windingUp_reachable h
  have ha := accounts_reachable h
  obtain ⟨q, hmaster, -, hmade⟩ := hb.master
  -- the master is past the creation of the workers
  have hcases := quiet_cases disciplined hb.exclusive hq hmaster
  have hjoin : ∃ i, q = .join i := by
    cases q with
    | join i => exact ⟨i, rfl⟩
    | _ => rcases hcases with ⟨_, _, hc⟩ | ⟨_, _, hc, -⟩ | hc <;> cases hc
  obtain ⟨i, rfl⟩ := hjoin
  have hplace : ∀ w < N, s.place (.worker w) = some .asleep ∨ s.place (.worker w) = some .exited := by
    intro w hw
    obtain ⟨p, hp⟩ := Option.ne_none_iff_exists'.mp ((hmade w).mpr hw)
    rcases quiet_worker hb hq hp with rfl | rfl
    · exact .inl hp
    · exact .inr hp
  -- so all workers have been counted, and nobody has gone to sleep before the last
  have hall : s.data.wdone = N := by
    rw [hi.wdone]
    refine Nat.count_iff_forall.mpr fun w hw => ?_
    rcases hplace w hw with hp | hp <;> simp [isAt, hp, counted]
  have hexited : ∀ w < N, s.place (.worker w) = some .exited := by
    intro w hw
    refine (hplace w hw).resolve_left fun hp => ?_
    rcases hi.asleep w hp with hlt | ⟨t, r, hr, hd⟩
    · omega
    · rcases quiet_worker hb hq hr with rfl | rfl <;> cases hd
  have hnone : ∀ f : WorkerPc → Bool, f .exited = false → number f s = 0 := by
    intro f hf
    refine Nat.count_iff_forall_not.mpr fun w hw => ?_
    simp [isAt, hexited w hw, hf]
  refine ⟨⟨?_, hexited⟩, ?_, fun i => ?_⟩
  · by_cases hi : i < N
    · rcases hcases with ⟨_, _, hc⟩ | ⟨u, next, hc, hu⟩ | hc
      · simp [code, masterCode, hi] at hc
      · simp only [code, masterCode, hi, if_true] at hc
        cases hc
        rw [halted_iff.mpr ⟨_, hexited i hi, rfl⟩] at hu
        cases hu
      · simp [code, masterCode, hi] at hc
    · exact halted_iff.mpr ⟨_, hmaster, by simp [code, masterCode, hi]⟩
  · have htotal := ha.total
    rw [hnone uncounted rfl] at htotal
    exact htotal
  · have harray := ha.arrays i
    rw [hnone (updated i) rfl] at harray
    exact harray

/-- `n` steps of thread `t`. -/
def steps (n : Nat) (t : Tid) : List (Label Tid) := List.replicate n (.step t none)

/-- A run in which the first worker updates an entry before the others are made; then the workers find
`mdone` set, the last of them broadcasts, and the others leave and are joined. -/
def shortRun : List (Label Tid) :=
  steps 1 .master ++ steps 11 (.worker 0) ++ steps 7 .master ++ (List.range 3).flatMap (fun w => steps 6 (.worker w)) ++ steps 7 (.worker 3)
    ++ (List.range 3).flatMap (fun w => steps 2 (.worker w)) ++ steps 4 .master

theorem listed_start : (start rand).Listed := by
  intro t ht
  cases t with
  | master => exact List.mem_singleton.mpr rfl
  | worker w => exact absurd rfl ht

theorem quiet_finished_run : ∃ s, (machine fun _ => 0).Reachable s ∧ s.data.C 0 = 1
    ∧ Finished (fun _ => 0) s ∧ s.data.A 0 = newValue (initArrays (fun _ => 0) 0) := by
  obtain ⟨s, hr, hs⟩ := Machine.exists_reachable_of_exec (M := machine fun _ => 0)
    (s := start fun _ => 0) (l := shortRun)
    (p := fun s => s.threads.all (s.blocked (code fun _ => 0)) && s.data.C 0 == 1) rfl
    (by decide +kernel)
  obtain ⟨hblocked, hupdated⟩ := Bool.and_eq_true_iff.mp hs
  have hq : Quiet (code fun _ => 0) all s :=
    quiet_of_blocked (listed_wakeMachine listed_start hr) hblocked
  obtain ⟨hfinished, -, harrays⟩ := quiet_finished hr hq
  have ha := harrays 0
  rw [beq_iff_eq.mp hupdated] at ha
  exact ⟨s, hr, beq_iff_eq.mp hupdated, hfinished, ha⟩

/-! ## With `mdone` set the runs end -/

/-- How many steps a worker is from its end at most, when it leaves at the next test of `mdone`. -/
def left : WorkerPc → Nat
  | .exited => 0
  | .unlockExit => 1
  | .woken => 2
  | .asleep => 3
  | .wait | .broadcast => 4
  | .testWdone => 5
  | .writeWdone _ => 6
  | .readWdone => 7
  | .testMdone => 8
  | .lockDone => 9
  | .addCount => 10
  | .unlockCs => 11
  | .writeC _ _ => 12
  | .readC _ => 13
  | .writeA _ _ => 14
  | .readA _ => 15
  | .lockCs _ => 16
  | .draw => 17
  | .unlockDone => 18

/-- The same for the master, who makes workers with nine steps to go. -/
def MasterPc.left : MasterPc → Nat
  | .create i => 10 * (N - i) + N + 4
  | .lock => N + 3
  | .setMdone => N + 2
  | .unlock => N + 1
  | .join i => N - i

/-- The steps of the worker that the master makes. -/
def MasterPc.brings : MasterPc → Nat
  | .create i => if i < N then Workers.left .lockDone else 0
  | _ => 0

def leftAt (s : State) (w : Nat) : Nat := (s.place (.worker w)).elim 0 left

def rank (s : State) : Nat :=
  (s.place .master).elim 0 MasterPc.left + ∑ w ∈ Finset.range N, leftAt s w

theorem WorkerMove.left_lt (h : WorkerMove rand w x p x' p') (hm : x.mdone = true) :
    left p' < left p ∧ x'.mdone = true := by
  cases h with
  | work hc =>
      rw [hm] at hc
      cases hc
  | _ => exact ⟨by simp [left], hm⟩

theorem MasterMove.left_lt {p p' : MasterPc} (h : MasterMove x p x' p') :
    p'.left + p.brings < p.left ∧ (x.mdone = true → x'.mdone = true) := by
  cases h with
  | @create i hi =>
      refine ⟨?_, id⟩
      simp only [MasterPc.left, MasterPc.brings, hi, if_true, Workers.left]
      omega
  | @created i hi =>
      refine ⟨?_, id⟩
      simp only [MasterPc.left, MasterPc.brings, hi, if_false]
      omega
  | @join i hi =>
      refine ⟨?_, id⟩
      simp only [MasterPc.left, MasterPc.brings]
      omega
  | setMdone => exact ⟨by simp [MasterPc.left, MasterPc.brings], fun _ => rfl⟩
  | _ => exact ⟨by simp [MasterPc.left, MasterPc.brings], id⟩

/-- **With `mdone` set every step is one closer to the end.** -/
theorem rank_lt {a : Label Tid} (hb : Basic s) (hm : s.data.mdone = true)
    (hs : (machine rand).next s a = some s') : s'.data.mdone = true ∧ rank s' < rank s := by
  cases change_of_next hs with
  | @master pick p p' before after move makes others =>
      obtain ⟨hleft, hmdone⟩ := move.left_lt
      refine ⟨hmdone hm, ?_⟩
      -- one worker more at most
      have hsum : ∑ u ∈ Finset.range N, leftAt s' u
          ≤ (∑ u ∈ Finset.range N, leftAt s u) + p.brings := by
        by_cases hnew : ∃ i, p = .create i ∧ i < N
        · obtain ⟨i, rfl, hi⟩ := hnew
          have hchange := sum_change (f := leftAt s) (g := leftAt s') hi fun u _ hu => by
            rcases others u with ⟨hcreate, -⟩ | hsame
            · exact absurd (MasterPc.create.inj hcreate).symm hu
            · rw [leftAt, leftAt, hsame]
          have hbrings : leftAt s' i = (MasterPc.create i).brings := by
            simp [leftAt, makes i rfl hi, MasterPc.brings, hi]
          omega
        · refine (Finset.sum_le_sum fun u hu => ?_).trans (Nat.le_add_right _ _)
          have hsame := (others u).resolve_left fun hc => hnew ⟨u, hc⟩
          rw [leftAt, leftAt, hsame]
      simp only [rank, before, after, Option.elim_some]
      omega
  | @worker pick w p p' before after move others wakes hmaster =>
      obtain ⟨hleft, hmdone⟩ := move.left_lt hm
      refine ⟨hmdone, ?_⟩
      have hsum : ∑ u ∈ Finset.range N, leftAt s' u < ∑ u ∈ Finset.range N, leftAt s u := by
        refine Finset.sum_lt_sum (fun u _ => ?_)
          ⟨w, Finset.mem_range.mpr (hb.worker_lt before), ?_⟩
        · by_cases hu : u = w
          · subst hu
            simpa [leftAt, before, after] using hleft.le
          · rcases others u hu with hsame | ⟨-, hasleep, hwoken⟩
            · rw [leftAt, leftAt, hsame]
            · simp [leftAt, hasleep, hwoken, left]
        · simpa [leftAt, before, after] using hleft
      simp only [rank, hmaster]
      omega
  | @spurious w before after same others hmaster =>
      refine ⟨same ▸ hm, ?_⟩
      have hsum : ∑ u ∈ Finset.range N, leftAt s' u < ∑ u ∈ Finset.range N, leftAt s u := by
        refine Finset.sum_lt_sum (fun u _ => ?_)
          ⟨w, Finset.mem_range.mpr (hb.worker_lt before), ?_⟩
        · by_cases hu : u = w
          · subst hu
            simp [leftAt, before, after, left]
          · rw [leftAt, leftAt, others u hu]
        · simp [leftAt, before, after, left]
      simp only [rank, hmaster]
      omega

/-- **Once the master has set `mdone`, the program ends**, in whatever order the threads go on. -/
theorem ends_after_mdone (h : (machine rand).Reachable s) (hm : s.data.mdone = true) :
    ¬ ∃ run : Nat → State, run 0 = s ∧ ∀ i, ∃ a, (machine rand).next (run i) a = some (run (i + 1)) := by
  rintro ⟨run, rfl, hrun⟩
  refine Machine.not_infinite_from (I := fun s => Basic s ∧ s.data.mdone = true) (fun _ _ => True)
    rank ?_ ⟨basic_reachable h, hm⟩ fun i => (hrun i).imp fun a ha => ⟨trivial, ha⟩
  rintro s a s' ⟨hb, hm⟩ - hs
  obtain ⟨hm', hlt⟩ := rank_lt hb hm hs
  exact ⟨⟨basic_next hb hs, hm'⟩, hlt⟩

theorem ends_after_mdone_run : ∃ s, (machine fun _ => 0).Reachable s ∧ s.data.mdone = true
    ∧ ¬ ∃ run : Nat → State, run 0 = s
      ∧ ∀ i, ∃ a, (machine fun _ => 0).next (run i) a = some (run (i + 1)) := by
  obtain ⟨s, hr, hs⟩ := Machine.exists_reachable_of_exec (M := machine fun _ => 0)
    (s := start fun _ => 0) (l := steps 8 .master) (p := fun s => s.data.mdone) rfl
    (by decide +kernel)
  exact ⟨s, hr, hs, ends_after_mdone hr hs⟩

/-! ## Without spurious wakeups -/

/-- The worker has found that it is the last, or has been let through. -/
def passed : WorkerPc → Bool
  | .broadcast | .woken | .unlockExit | .exited => true
  | _ => false

/-- Whoever is past the wait has seen all workers counted. -/
def Passed (s : State) : Prop :=
  ∀ u p, s.place (.worker u) = some p → passed p = true → N ≤ s.data.wdone

theorem WorkerMove.passed (h : WorkerMove rand w x p x' p') (hp : Workers.passed p' = true) :
    Workers.passed p = true ∨ N ≤ x'.wdone := by
  cases h with
  | last hlt => exact .inr (Nat.le_of_not_lt hlt)
  | _ => first | exact .inl rfl | cases hp

theorem passed_next {a : Label Tid} (hi : WindingUp s) (h : Passed s)
    (ha : NotSpurious s a) (hs : (machine rand).next s a = some s') : Passed s' := by
  intro u q hq hpassed
  cases change_of_next hs with
  | @master pick p p' before after move makes others =>
      have hdata : s'.data.wdone = s.data.wdone := by
        generalize s'.data = x' at move ⊢
        cases move <;> rfl
      rw [hdata]
      rcases others u with ⟨hp, hu⟩ | hsame
      · rw [makes u hp hu] at hq
        obtain rfl := Option.some.inj hq
        cases hpassed
      · exact h u q (hsame.symm.trans hq) hpassed
  | @worker pick w p p' before after move others wakes hmaster =>
      -- `wdone` does not go down
      have hle : s.data.wdone ≤ s'.data.wdone := by
        have hvalue : ∀ v, p = .writeWdone v → v = s.data.wdone :=
          fun v hv => hi.value w v (hv ▸ before)
        generalize s'.data = x' at move ⊢
        cases move with
        | @writeWdone v =>
            have hv := hvalue v rfl
            simp only
            omega
        | _ => exact Nat.le_refl _
      by_cases hu : u = w
      · subst hu
        obtain rfl := Option.some.inj (after.symm.trans hq)
        exact (move.passed hpassed).elim (fun hp => (h u p before hp).trans hle) id
      · rcases others u hu with hsame | ⟨rfl, -, -⟩
        · exact (h u q (hsame.symm.trans hq) hpassed).trans hle
        · exact (h w .broadcast before rfl).trans hle
  | spurious => exact ha.elim

/-- **The workers leave together**: in a run without spurious wakeups no worker exits before all
workers have stopped working. -/
theorem leave_together (h : (machine rand).ReachableWhen NotSpurious s)
    (hw : s.place (.worker w) = some .exited) (hu : u < N) :
    ∃ p, s.place (.worker u) = some p ∧ counted p = true := by
  have hpassed : Passed s := by
    refine h.invariant_of (J := WindingUp) (I := Passed) (fun s hs => windingUp_reachable hs) ?_ ?_
    · rintro s rfl u p hp
      cases hp
    · intro s a s' hi hpassed ha hs
      exact passed_next hi hpassed ha hs
  have hle := hpassed w .exited hw rfl
  have hall : number counted s = N :=
    le_antisymm (Nat.count_le _) ((windingUp_reachable h).wdone ▸ hle)
  exact isAt_iff.mp (Nat.count_iff_forall.mp hall u hu)

theorem leave_together_run : ∃ s, (machine fun _ => 0).ReachableWhen NotSpurious s
    ∧ s.place (.worker 0) = some .exited
    ∧ ∃ p, s.place (.worker 3) = some p ∧ counted p = true := by
  have hrun : ((machine fun _ => 0).execWhen NotSpurious (start fun _ => 0) shortRun).any
      (fun s => decide (s.place (.worker 0) = some .exited)) = true := by decide +kernel
  obtain ⟨s, hr, hs⟩ := Machine.exists_reachableWhen_of_execWhen rfl hrun
  exact ⟨s, hr, of_decide_eq_true hs, leave_together hr (of_decide_eq_true hs) (by decide)⟩

end OSLab.Samples.Workers
