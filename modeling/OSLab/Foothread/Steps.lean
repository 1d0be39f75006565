import OSLab.Foothread.Setup

set_option autoImplicit false

/-! # The steps of the tree sum

What every run of `computeSum` keeps, whatever the interleaving: the memory is as the library
needs it (`Base`), and the barriers work (`Gate`). Both are shown for one step of one thread, by
the place the thread is at; the step of a library call is what the call's own lemma says of it.
-/

namespace OSLab.Foothread

variable {n : Nat} {lines : List (Nat × Nat)} {values : Nat → Int} {g : Globals}
variable {lo v i : Nat} {s s' : Prog} {mem : Mem}

/-! ## What every run keeps -/

/-- Operations taken from `pop` are negative. -/
def NegOp : BarrierPc → Prop
  | .passOp op => op < 0
  | _ => True

/-- What a place of a node thread says about the node. -/
def NodeOk (lo : Nat) (g : Globals) (v : Nat) : NodePc → Prop
  | .wait pc => Inner g v ∧ NegOp pc
  | .lock _ | .setSum | .scan _ | .unlock _ => Inner g v
  | .addChild i | .addOwn i _ | .store i _ =>
      Inner g v ∧ i < g.numNodes ∧ (g.tree i).parent = v
  | .leaf => (g.tree v).children = 0
  | .waitParent pc => ∃ b : Nat, (g.tree v).parent = b ∧ Inner g b ∧ NegOp pc
  | .exit pc => ExitOk lo pc
  | _ => True

/-- The new thread is made. -/
def cloned : CreatePc → Bool
  | .setTid _ | .setParent _ | .setJoin _ | .setValid _ | .setSem _ | .setVal _ | .unlock
  | .unlockOp _ => true
  | _ => false

/-- The memory is as the library needs it, `pop` is negative once `main` has set it, and the
threads are made one after the other. -/
structure Base (lo : Nat) (g : Globals) (s : Prog) : Prop where
  mem : MemOk lo s.mem
  barriers : BarriersOk lo g s.mem
  pop : s.main = createLoop g.numNodes 0 ∧ (∀ v, s.node v = none) ∨ s.mem.pop < 0
  main : ∀ pc, s.main = .exit pc → ExitOk lo pc
  fresh : ∀ i pc, s.main = .create i pc →
    i < g.numNodes ∧ ∀ v, i ≤ v → (cloned pc = true → i < v) → s.node v = none
  node : ∀ v pc, s.node v = some pc → v < g.numNodes ∧ NodeOk lo g v pc

/-- **The steps of the program.** -/
theorem computeSum_cases {t : Nat} (h : (computeSum n lines values).next s t = some s') :
    (t = 0 ∧ mainNext (setup n lines values).1 s s.main = some s')
      ∨ ∃ v pc, t = v + 1 ∧ s.node v = some pc
        ∧ nodeNext (setup n lines values).1 v s pc = some s' := by
  simp only [computeSum] at h
  split at h
  · cases h
  · split at h
    · exact .inl ⟨rfl, h⟩
    · split at h
      · cases h
      · exact .inr ⟨_, _, rfl, ‹_›, h⟩

/-- A step of a library call of a node. -/
theorem call_cases {P : Type} {place : P → NodePc} {after : NodePc} {r : Option (Mem × Ctl P)}
    (h : s.call v place after r = some s') :
    (∃ mem pc, r = some (mem, .next pc) ∧ s' = s.put v mem (place pc))
      ∨ (∃ mem, r = some (mem, .ret) ∧ s' = s.put v mem after)
      ∨ (∃ mem, r = some (mem, .exit) ∧ s' = { s with exited := true }) := by
  unfold Prog.call at h
  split at h
  · exact .inl ⟨_, _, rfl, (Option.some.inj h).symm⟩
  · exact .inr (.inl ⟨_, rfl, (Option.some.inj h).symm⟩)
  · exact .inr (.inr ⟨_, rfl, (Option.some.inj h).symm⟩)
  · cases h
  · cases h

/-! ### Memory and places -/

theorem memOk_move {b : Nat} {mem mem' : Mem} {pc : BarrierPc} {c : Ctl BarrierPc}
    (h : MemOk lo mem) (hm : BarrierMove b mem pc mem' c) :
    MemOk lo mem' ∧ (mem'.pop = mem.pop ∨ mem'.pop < 0) := by
  cases hm with
  | setPop => exact ⟨⟨h.mutexSemaphore, h.mutex, h.table, h.next⟩, .inr neg_one_lt_zero⟩
  | _ => exact ⟨⟨h.mutexSemaphore, h.mutex, h.table, h.next⟩, .inl rfl⟩

theorem negOp_move {b : Nat} {mem mem' : Mem} {pc pc' : BarrierPc} (hpop : mem.pop < 0)
    (hm : BarrierMove b mem pc mem' (.next pc')) : NegOp pc' := by
  cases hm with
  | pass => exact hpop
  | unlockOp last _ _ _ => cases last <;> trivial
  | _ => trivial

theorem Base.popNeg {pc : NodePc} (h : Base lo g s) (hpc : s.node v = some pc) :
    s.mem.pop < 0 := by
  refine h.pop.resolve_left fun hc => ?_
  rw [hc.2 v] at hpc
  cases hpc

/-- A node thread moves. -/
theorem Base.put {mem : Mem} {pc pc' : NodePc} (h : Base lo g s) (hpc : s.node v = some pc)
    (hmem : MemOk lo mem) (hbar : BarriersOk lo g mem) (hpop : mem.pop = s.mem.pop ∨ mem.pop < 0)
    (hok : NodeOk lo g v pc') : Base lo g (s.put v mem pc') where
  mem := hmem
  barriers := hbar
  pop := by
    refine .inr ?_
    rcases hpop with heq | hneg
    · exact heq.trans_lt (h.popNeg hpc)
    · exact hneg
  main := h.main
  fresh := by
    intro i cpc hmain
    obtain ⟨hi, hnone⟩ := h.fresh i cpc hmain
    refine ⟨hi, fun w hw hc => ?_⟩
    have hwn := hnone w hw hc
    -- `v` has a thread, so it is none of the nodes that are still to get one
    have hwv : w ≠ v := fun he => by rw [he, hpc] at hwn; cases hwn
    show Function.update s.node v _ w = none
    rw [Function.update_of_ne hwv]
    exact hwn
  node := by
    intro w wpc hw
    by_cases hwv : w = v
    · subst hwv
      have hw' : some pc' = some wpc := by simpa [Prog.put] using hw
      cases hw'
      exact ⟨(h.node w pc hpc).1, hok⟩
    · have hw' : s.node w = some wpc := by simpa [Prog.put, Function.update_of_ne hwv] using hw
      exact h.node w wpc hw'

theorem Base.putBenign {mem : Mem} {pc pc' : NodePc} (h : Base lo g s) (hpc : s.node v = some pc)
    (hmem : Benign lo s.mem mem) (hok : NodeOk lo g v pc') : Base lo g (s.put v mem pc') :=
  h.put hpc hmem.ok (h.barriers.benign hmem) hmem.pop hok

theorem Base.setSum (h : Base lo g s) (v : Nat) (x : Int) : Base lo g (s.setSum v x) :=
  ⟨h.mem, h.barriers, h.pop, h.main, h.fresh, h.node⟩

theorem Base.walk {pc pc' : NodePc} (h : Base lo g s) (hpc : s.node v = some pc)
    (hok : NodeOk lo g v pc') : Base lo g (s.put v s.mem pc') :=
  h.putBenign hpc (benign_refl h.mem) hok

theorem Base.exit (h : Base lo g s) : Base lo g { s with exited := true } :=
  ⟨h.mem, h.barriers, h.pop, h.main, h.fresh, h.node⟩

/-- A step of a call that has nothing to do with the barriers. -/
theorem Base.call {P : Type} {place : P → NodePc} {after pc : NodePc} {r : Option (Mem × Ctl P)}
    (h : Base lo g s) (hpc : s.node v = some pc) (hs : s.call v place after r = some s')
    (hmem : ∀ mem c, r = some (mem, c) → Benign lo s.mem mem)
    (hplace : ∀ mem pc', r = some (mem, .next pc') → NodeOk lo g v (place pc'))
    (hafter : NodeOk lo g v after) : Base lo g s' := by
  rcases call_cases hs with ⟨mem, pc', hm, rfl⟩ | ⟨mem, hm, rfl⟩ | ⟨mem, hm, rfl⟩
  · exact h.putBenign hpc (hmem _ _ hm) (hplace mem pc' hm)
  · exact h.putBenign hpc (hmem _ _ hm) hafter
  · exact h.exit

/-- A step of `foothread_barrier_wait`. -/
theorem Base.wait {b : Nat} {bpc : BarrierPc} {place : BarrierPc → NodePc} {after pc : NodePc}
    (h : Base lo g s) (hpc : s.node v = some pc)
    (hs : s.call v place after (barrierWait b s.mem bpc) = some s')
    (hplace : ∀ pc', NegOp pc' → NodeOk lo g v (place pc')) (hafter : NodeOk lo g v after) :
    Base lo g s' := by
  have hneg := h.popNeg hpc
  rcases call_cases hs with ⟨mem, pc', hm, rfl⟩ | ⟨mem, hm, rfl⟩ | ⟨mem, hm, rfl⟩
  · have hmove := barrierMove_of_wait hm
    obtain ⟨hmem, hpop⟩ := memOk_move h.mem hmove
    exact h.put hpc hmem (h.barriers.move hmove) hpop (hplace pc' (negOp_move hneg hmove))
  · have hmove := barrierMove_of_wait hm
    obtain ⟨hmem, hpop⟩ := memOk_move h.mem hmove
    exact h.put hpc hmem (h.barriers.move hmove) hpop hafter
  · exact h.exit

theorem base_node (ht : TreeOk n lines values g) (h : Base lo g s) {pc : NodePc}
    (hpc : s.node v = some pc) (hs : nodeNext g v s pc = some s') : Base lo g s' := by
  obtain ⟨hv, hok⟩ := h.node v pc hpc
  have hvn : v < n := ht.numNodes ▸ hv
  cases pc with
  | start =>
      cases hs
      refine h.walk hpc ?_
      split
      · exact ⟨⟨hv, ‹_›⟩, trivial⟩
      · have hnn : (g.tree v).children = 0 := by
          have := ht.children v hvn
          omega
        exact hnn
  | wait bpc => exact h.wait hpc hs (fun _ hneg => ⟨hok.1, hneg⟩) hok.1
  | lock lpc => exact h.call hpc hs (fun _ _ => mutexLock_benign h.mem) (fun _ _ _ => hok) hok
  | setSum =>
      cases hs
      exact (h.setSum v _).walk (s := s.setSum v _) hpc hok
  | scan i =>
      simp only [nodeNext] at hs
      split at hs
      · cases hs
        refine h.walk hpc ?_
        split
        · exact ⟨hok, ‹_›, ‹_›⟩
        · exact hok
      · cases hs
        exact h.walk hpc hok
  | addChild i =>
      cases hs
      exact h.walk hpc hok
  | addOwn i x =>
      cases hs
      exact h.walk hpc hok
  | store i y =>
      cases hs
      exact (h.setSum v _).walk (s := s.setSum v _) hpc hok.1
  | unlock upc =>
      exact h.call hpc hs (fun _ _ => mutexUnlock_benign h.mem) (fun _ _ _ => hok) trivial
  | leaf =>
      cases hs
      exact (h.setSum v _).walk (s := s.setSum v _) hpc trivial
  | up =>
      cases hs
      refine h.walk hpc ?_
      -- a node with a parent field other than `-1` has a parent, and that is an inner node
      split
      · rename_i hp
        cases hfp : fileParent lines v with
        | none => exact absurd (by rw [ht.parent v hvn, hfp]; rfl) hp
        | some p =>
            have hpp : (g.tree v).parent = p := (ht.parent_eq hvn).mpr hfp
            exact ⟨p, hpp, ht.inner hvn hpp, trivial⟩
      · trivial
  | waitParent bpc =>
      obtain ⟨b, hb, hin, hop⟩ := hok
      have hto : (g.tree v).parent.toNat = b := by rw [hb]; rfl
      simp only [nodeNext, hto] at hs
      exact h.wait hpc hs (fun _ hneg => ⟨b, hb, hin, hneg⟩) trivial
  | check =>
      cases hs
      refine h.walk hpc ?_
      split <;> trivial
  | lockReport lpc =>
      exact h.call hpc hs (fun _ _ => mutexLock_benign h.mem) (fun _ _ _ => trivial) trivial
  | report =>
      cases hs
      exact h.walk hpc trivial
  | unlockReport upc =>
      exact h.call hpc hs (fun _ _ => mutexUnlock_benign h.mem) (fun _ _ _ => trivial) trivial
  | exit epc =>
      refine h.call hpc hs (fun mem c hm => ?_) (fun mem pc' hm => ?_) trivial
      · exact (foothreadExit_benign h.mem hok hm).1
      · exact (foothreadExit_benign h.mem hok hm).2 pc' rfl
  | finished => cases hs

/-! ### `main` -/

theorem cloned_next {t child : Nat} {mem mem' : Mem} {pc pc' : CreatePc}
    (hm : foothreadCreate t child mem pc = some (mem', .next pc')) : cloned pc' = cloned pc := by
  cases pc with
  | lockOp op =>
      obtain ⟨v, -, -, hc⟩ := perform_eq_some hm
      cases hc
      rfl
  | unlockOp op =>
      obtain ⟨v, -, -, hc⟩ := perform_eq_some hm
      cases hc
  | getSem =>
      simp only [foothreadCreate] at hm
      split at hm <;> cases hm <;> rfl
  | search i =>
      simp only [foothreadCreate] at hm
      split at hm
      · split at hm
        · cases hm
          rfl
        · cases hm
          split <;> rfl
      · cases hm
        rfl
  | clone i => cases hm
  | full => cases hm
  | _ =>
      cases hm
      rfl

theorem cloned_clone {t child : Nat} {mem mem' : Mem} {pc pc' : CreatePc}
    (hm : foothreadCreate t child mem pc = some (mem', .clone pc')) :
    cloned pc = false ∧ cloned pc' = true := by
  cases pc with
  | lockOp op =>
      obtain ⟨v, -, -, hc⟩ := perform_eq_some hm
      cases hc
  | unlockOp op =>
      obtain ⟨v, -, -, hc⟩ := perform_eq_some hm
      cases hc
  | getSem =>
      simp only [foothreadCreate] at hm
      split at hm <;> cases hm
  | search i =>
      simp only [foothreadCreate] at hm
      split at hm
      · split at hm <;> cases hm
      · cases hm
  | clone i =>
      cases hm
      exact ⟨rfl, rfl⟩
  | _ => cases hm

theorem cloned_ret {t child : Nat} {mem mem' : Mem} {pc : CreatePc}
    (hm : foothreadCreate t child mem pc = some (mem', .ret)) : cloned pc = true := by
  cases pc with
  | lockOp op =>
      obtain ⟨v, -, -, hc⟩ := perform_eq_some hm
      cases hc
  | unlockOp op => rfl
  | getSem =>
      simp only [foothreadCreate] at hm
      split at hm <;> cases hm
  | search i =>
      simp only [foothreadCreate] at hm
      split at hm
      · split at hm <;> cases hm
      · cases hm
  | _ => cases hm

/-- The first statement of a call of the library makes `pop` negative. -/
theorem Base.popMain {mem : Mem} (h : Base lo g s) (hb : Benign lo s.mem mem)
    (hset : s.main = createLoop g.numNodes 0 → mem.pop < 0) : mem.pop < 0 := by
  rcases h.pop with ⟨hmain, -⟩ | hneg
  · exact hset hmain
  · rcases hb.pop with heq | hneg'
    · exact heq.trans_lt hneg
    · exact hneg'

theorem createLoop_create {N i : Nat} {pc : CreatePc} (h : createLoop N 0 = .create i pc) :
    pc = .setPop := by
  unfold createLoop at h
  split at h <;> cases h
  rfl

theorem createLoop_exit {N i : Nat} {pc : ExitPc} (h : createLoop N i = .exit pc) :
    pc = .setPop := by
  unfold createLoop at h
  split at h <;> cases h
  rfl

theorem ne_createLoop {N i : Nat} : (∀ pc, MainPc.lock pc ≠ createLoop N i)
    ∧ MainPc.print ≠ createLoop N i ∧ ∀ pc, MainPc.unlock pc ≠ createLoop N i := by
  unfold createLoop
  split <;> simp

/-- `main` moves, past its first statement. -/
theorem Base.mainMove {mem : Mem} {pc : MainPc} {printed : Option Int} (h : Base lo g s)
    (hb : Benign lo s.mem mem) (hpop : mem.pop < 0)
    (hexit : ∀ epc, pc = .exit epc → ExitOk lo epc)
    (hfresh : ∀ i cpc, pc = .create i cpc → i < g.numNodes ∧
      ∀ v, i ≤ v → (cloned cpc = true → i < v) → s.node v = none) :
    Base lo g { s with mem := mem, main := pc, printed := printed } where
  mem := hb.ok
  barriers := h.barriers.benign hb
  pop := .inr hpop
  main := hexit
  fresh := hfresh
  node := h.node

/-- `main` in `foothread_create`. -/
theorem base_create {i : Nat} {cpc : CreatePc} (h : Base lo g s) (hmain : s.main = .create i cpc)
    (hs : mainNext g s s.main = some s') : Base lo g s' := by
  obtain ⟨hi, hnone⟩ := h.fresh i cpc hmain
  rw [hmain] at hs
  simp only [mainNext] at hs
  have hset : ∀ {mem c}, foothreadCreate 0 (i + 1) s.mem cpc = some (mem, c) →
      s.main = createLoop g.numNodes 0 → mem.pop < 0 := by
    intro mem c hm hc
    obtain rfl := createLoop_create (hc.symm.trans hmain)
    cases hm
    exact neg_one_lt_zero
  split at hs
  · rename_i mem pc' hm
    cases hs
    have hb := foothreadCreate_benign h.mem hm
    refine h.mainMove hb (h.popMain hb (hset hm)) (fun _ hc => by cases hc) fun j pc hc => ?_
    cases hc
    exact ⟨hi, by rw [cloned_next hm]; exact hnone⟩
  · -- the new thread is at its start
    rename_i mem pc' hm
    cases hs
    have hb := foothreadCreate_benign h.mem hm
    obtain ⟨hold, hnew⟩ := cloned_clone hm
    refine ⟨hb.ok, h.barriers.benign hb, .inr (h.popMain hb (hset hm)),
      (fun _ hc => by cases hc), fun j pc hc => ?_, fun v pc hv => ?_⟩
    · cases hc
      refine ⟨hi, fun v hv hcv => ?_⟩
      have hvi : v ≠ i := by
        have := hcv hnew
        omega
      show Function.update s.node i _ v = none
      rw [Function.update_of_ne hvi]
      exact hnone v hv fun hc => by rw [hold] at hc; cases hc
    · by_cases hvi : v = i
      · subst hvi
        have hpc : some NodePc.start = some pc := by simpa using hv
        cases hpc
        exact ⟨hi, trivial⟩
      · have hv' : s.node v = some pc := by simpa [Function.update_of_ne hvi] using hv
        exact h.node v pc hv'
  · -- the call returns, and the loop goes on to the next node
    rename_i mem hm
    cases hs
    have hb := foothreadCreate_benign h.mem hm
    have hold := cloned_ret hm
    refine h.mainMove hb (h.popMain hb (hset hm)) (fun epc hc => ?_) fun j pc hc => ?_
    · rw [createLoop_exit hc]
      trivial
    · unfold createLoop at hc
      split at hc
      · cases hc
        exact ⟨‹_›, fun v hv _ => hnone v (by omega) fun _ => by omega⟩
      · cases hc
  · cases hs
    exact h.exit
  · cases hs

theorem base_main (h : Base lo g s) (hs : mainNext g s s.main = some s') : Base lo g s' := by
  cases hmain : s.main with
  | create i cpc => exact base_create h hmain hs
  -- the main thread waits for the threads it has started
  | exit epc =>
      have hok := h.main epc hmain
      rw [hmain] at hs
      simp only [mainNext] at hs
      have hset : ∀ {mem c}, foothreadExit 0 s.mem epc = some (mem, c) →
          s.main = createLoop g.numNodes 0 → mem.pop < 0 := by
        intro mem c hm hc
        obtain rfl := createLoop_exit (hc.symm.trans hmain)
        cases hm
        exact neg_one_lt_zero
      split at hs
      · rename_i mem pc' hm
        cases hs
        obtain ⟨hb, hnext⟩ := foothreadExit_benign h.mem hok hm
        exact h.mainMove hb (h.popMain hb (hset hm))
          (fun _ hc => by cases hc; exact hnext pc' rfl) fun _ _ hc => by cases hc
      · rename_i mem hm
        cases hs
        have hb := (foothreadExit_benign h.mem hok hm).1
        exact h.mainMove hb (h.popMain hb (hset hm)) (fun _ hc => by cases hc)
          fun _ _ hc => by cases hc
      · cases hs
  | lock lpc =>
      have hne : s.main ≠ createLoop g.numNodes 0 := hmain ▸ ne_createLoop.1 lpc
      rw [hmain] at hs
      simp only [mainNext] at hs
      split at hs
      · cases hs
        have hb := mutexLock_benign h.mem ‹_›
        exact h.mainMove hb (h.popMain hb fun hc => absurd hc hne) (fun _ hc => by cases hc)
          fun _ _ hc => by cases hc
      · cases hs
        have hb := mutexLock_benign h.mem ‹_›
        exact h.mainMove hb (h.popMain hb fun hc => absurd hc hne) (fun _ hc => by cases hc)
          fun _ _ hc => by cases hc
      · cases hs
  | print =>
      have hne : s.main ≠ createLoop g.numNodes 0 := hmain ▸ ne_createLoop.2.1
      rw [hmain] at hs
      cases hs
      have hb := benign_refl h.mem
      exact h.mainMove hb (h.popMain hb fun hc => absurd hc hne) (fun _ hc => by cases hc)
        fun _ _ hc => by cases hc
  | unlock upc =>
      have hne : s.main ≠ createLoop g.numNodes 0 := hmain ▸ ne_createLoop.2.2 upc
      rw [hmain] at hs
      simp only [mainNext] at hs
      split at hs
      · cases hs
        have hb := mutexUnlock_benign h.mem ‹_›
        exact h.mainMove hb (h.popMain hb fun hc => absurd hc hne) (fun _ hc => by cases hc)
          fun _ _ hc => by cases hc
      · cases hs
        have hb := mutexUnlock_benign h.mem ‹_›
        exact h.mainMove hb (h.popMain hb fun hc => absurd hc hne) (fun _ hc => by cases hc)
          fun _ _ hc => by cases hc
      · cases hs
        exact h.exit
      · cases hs
  | finished =>
      rw [hmain] at hs
      cases hs

theorem base_start (h : SetupOk n lines values g mem) : Base mem.nextSem g (startProg g mem) where
  mem := h.memory
  barriers := h.barriers
  pop := .inl ⟨rfl, fun _ => rfl⟩
  main := by
    intro pc hc
    rw [createLoop_exit hc]
    trivial
  fresh := by
    intro i pc hc
    refine ⟨?_, fun _ _ _ => rfl⟩
    simp only [startProg, createLoop] at hc
    split at hc
    · cases hc
      exact ‹_›
    · cases hc
  node := by intro v pc hc; cases hc

/-! ## The barriers -/

/-- The stages of the node threads. -/
def stages (s : Prog) : Nat → Stage := fun v => stage (s.node v)

theorem stages_put (s : Prog) (v : Nat) (mem : Mem) (pc : NodePc) :
    stages (s.put v mem pc) = Function.update (stages s) v (stage (some pc)) := by
  funext w
  by_cases hw : w = v
  · subst hw
    simp [stages, Prog.put]
  · simp [stages, Prog.put, Function.update_of_ne hw]

/-- A step beside the barriers. -/
theorem gate_put {mem : Mem} {pc pc' : NodePc} (hB : BarriersOk lo g s.mem)
    (h : Gate g s.mem (stages s)) (hpc : s.node v = some pc) (hmem : Benign lo s.mem mem)
    (hstage : stage (some pc') = stage (some pc)) : Gate g mem (stages (s.put v mem pc')) := by
  have hsame : stages (s.put v mem pc') = stages s := by
    have hv : stage (some pc') = stages s v := by rw [hstage, ← hpc, stages]
    rw [stages_put, hv, Function.update_eq_self]
  rw [hsame]
  exact gate_benign hB h hmem

/-- A call beside the barriers. -/
theorem gate_call {P : Type} {place : P → NodePc} {after pc : NodePc} {r : Option (Mem × Ctl P)}
    (hB : BarriersOk lo g s.mem) (h : Gate g s.mem (stages s)) (hpc : s.node v = some pc)
    (hs : s.call v place after r = some s')
    (hmem : ∀ mem c, r = some (mem, c) → Benign lo s.mem mem)
    (hplace : ∀ pc', stage (some (place pc')) = stage (some pc))
    (hafter : stage (some after) = stage (some pc)) : Gate g s'.mem (stages s') := by
  rcases call_cases hs with ⟨mem, pc', hm, rfl⟩ | ⟨mem, hm, rfl⟩ | ⟨mem, hm, rfl⟩
  · exact gate_put hB h hpc (hmem _ _ hm) (hplace pc')
  · exact gate_put hB h hpc (hmem _ _ hm) hafter
  · exact h

theorem gate_node (ht : TreeOk n lines values g) (hb : Base lo g s) (h : Gate g s.mem (stages s))
    {pc : NodePc} (hpc : s.node v = some pc) (hs : nodeNext g v s pc = some s') :
    Gate g s'.mem (stages s') := by
  obtain ⟨hv, hok⟩ := hb.node v pc hpc
  have hvn : v < n := ht.numNodes ▸ hv
  have hst : stages s v = stage (some pc) := by rw [← hpc, stages]
  have hquiet : ∀ {pc'}, stage (some pc') = stage (some pc) →
      Gate g s.mem (stages (s.put v s.mem pc')) :=
    fun hstage => gate_put hb.barriers h hpc (benign_refl hb.mem) hstage
  have hbar : ∀ {k bpc b mem c}, stages s v = .at k bpc → spot g v k = (b : Nat) → Inner g b →
      barrierWait b s.mem bpc = some (mem, .next c) →
      Gate g mem (Function.update (stages s) v (.at k c)) := by
    intro k bpc b mem c hk hspot hin hm
    exact gate_move hb.barriers h hv hk hspot hin
      (fun k' hk' => ht.spot_unique hvn hspot hk') (barrierMove_of_wait hm)
  cases pc with
  | start =>
      cases hs
      show Gate g s.mem (stages (s.put v s.mem _))
      rw [stages_put]
      refine gate_walk h (fun k hw => ?_) (fun k bpc hx => ?_) fun hin hp => ?_
      · rw [hst] at hw
        cases hw
      · split at hx
        · cases hx
          rfl
        · cases hx
      · rw [if_pos hin.2] at hp
        cases hp
  | wait bpc =>
      rcases call_cases hs with ⟨mem, pc', hm, rfl⟩ | ⟨mem, hm, rfl⟩ | ⟨mem, hm, rfl⟩
      · rw [stages_put]
        exact hbar hst rfl hok.1 hm
      · rw [stages_put]
        refine gate_leave (k := .own) hb.barriers h hst rfl hok.1 (fun op hop => ?_)
          (barrierMove_of_wait hm)
        subst hop
        exact hok.2
      · exact h
  | lock lpc =>
      exact gate_call hb.barriers h hpc hs (fun _ _ => mutexLock_benign hb.mem) (fun _ => rfl) rfl
  | setSum =>
      cases hs
      exact hquiet rfl
  | scan i =>
      simp only [nodeNext] at hs
      split at hs
      · cases hs
        refine hquiet ?_
        split <;> rfl
      · cases hs
        exact hquiet rfl
  | addChild i =>
      cases hs
      exact hquiet rfl
  | addOwn i x =>
      cases hs
      exact hquiet rfl
  | store i y =>
      cases hs
      exact hquiet rfl
  | unlock upc =>
      exact gate_call hb.barriers h hpc hs (fun _ _ => mutexUnlock_benign hb.mem) (fun _ => rfl) rfl
  | leaf =>
      cases hs
      exact hquiet rfl
  | up =>
      cases hs
      show Gate g s.mem (stages (s.put v s.mem _))
      rw [stages_put]
      -- the node has written its sum, so it may count as past its own barrier
      refine gate_walk h (fun k hw => ?_) (fun k bpc hx => ?_) fun _ _ => by rw [hst]; rfl
      · rw [hst] at hw
        cases k with
        | own => split <;> rfl
        | parent => cases hw
      · split at hx
        · cases hx
          rfl
        · cases hx
  | waitParent bpc =>
      obtain ⟨b, hb', hin, hop⟩ := hok
      have hto : (g.tree v).parent.toNat = b := by rw [hb']; rfl
      simp only [nodeNext, hto] at hs
      rcases call_cases hs with ⟨mem, pc', hm, rfl⟩ | ⟨mem, hm, rfl⟩ | ⟨mem, hm, rfl⟩
      · rw [stages_put]
        exact hbar hst hb' hin hm
      · rw [stages_put]
        refine gate_leave (k := .parent) hb.barriers h hst hb' hin (fun op hpop => ?_)
          (barrierMove_of_wait hm)
        subst hpop
        exact hop
      · exact h
  | check =>
      cases hs
      refine hquiet ?_
      split <;> rfl
  | lockReport lpc =>
      exact gate_call hb.barriers h hpc hs (fun _ _ => mutexLock_benign hb.mem) (fun _ => rfl) rfl
  | report =>
      cases hs
      exact hquiet rfl
  | unlockReport upc =>
      exact gate_call hb.barriers h hpc hs (fun _ _ => mutexUnlock_benign hb.mem) (fun _ => rfl) rfl
  | exit epc =>
      refine gate_call hb.barriers h hpc hs (fun mem c hm => ?_) (fun _ => rfl) rfl
      exact (foothreadExit_benign hb.mem hok hm).1
  | finished => cases hs

/-- `main` writes no sum and leaves the barriers alone; a thread it makes is at its start. -/
theorem main_frame (hb : Base lo g s) (hs : mainNext g s s.main = some s') :
    Benign lo s.mem s'.mem ∧ s'.sum = s.sum
      ∧ (s'.node = s.node ∨ ∃ i, s.node i = none ∧ s'.node = Function.update s.node i (some .start))
      := by
  cases hmain : s.main with
  | create i cpc =>
      obtain ⟨-, hnone⟩ := hb.fresh i cpc hmain
      rw [hmain] at hs
      simp only [mainNext] at hs
      split at hs
      · cases hs
        exact ⟨foothreadCreate_benign hb.mem ‹_›, rfl, .inl rfl⟩
      · rename_i hm
        cases hs
        -- `clone` starts the thread of a node that has none
        refine ⟨foothreadCreate_benign hb.mem hm, rfl, .inr ⟨i, hnone i le_rfl fun hc => ?_, rfl⟩⟩
        rw [(cloned_clone hm).1] at hc
        cases hc
      · cases hs
        exact ⟨foothreadCreate_benign hb.mem ‹_›, rfl, .inl rfl⟩
      · cases hs
        exact ⟨benign_refl hb.mem, rfl, .inl rfl⟩
      · cases hs
  | exit epc =>
      have hok := hb.main epc hmain
      rw [hmain] at hs
      simp only [mainNext] at hs
      split at hs
      · cases hs
        exact ⟨(foothreadExit_benign hb.mem hok ‹_›).1, rfl, .inl rfl⟩
      · cases hs
        exact ⟨(foothreadExit_benign hb.mem hok ‹_›).1, rfl, .inl rfl⟩
      · cases hs
  | lock lpc =>
      rw [hmain] at hs
      simp only [mainNext] at hs
      split at hs
      · cases hs
        exact ⟨mutexLock_benign hb.mem ‹_›, rfl, .inl rfl⟩
      · cases hs
        exact ⟨mutexLock_benign hb.mem ‹_›, rfl, .inl rfl⟩
      · cases hs
  | print =>
      rw [hmain] at hs
      cases hs
      exact ⟨benign_refl hb.mem, rfl, .inl rfl⟩
  | unlock upc =>
      rw [hmain] at hs
      simp only [mainNext] at hs
      split at hs
      · cases hs
        exact ⟨mutexUnlock_benign hb.mem ‹_›, rfl, .inl rfl⟩
      · cases hs
        exact ⟨mutexUnlock_benign hb.mem ‹_›, rfl, .inl rfl⟩
      · cases hs
        exact ⟨benign_refl hb.mem, rfl, .inl rfl⟩
      · cases hs
  | finished =>
      rw [hmain] at hs
      cases hs

theorem gate_main (hb : Base lo g s) (h : Gate g s.mem (stages s))
    (hs : mainNext g s s.main = some s') : Gate g s'.mem (stages s') := by
  obtain ⟨hmem, -, hnode⟩ := main_frame hb hs
  have hsame : stages s' = stages s := by
    rcases hnode with heq | ⟨i, hnone, heq⟩
    · unfold stages
      rw [heq]
    · funext w
      by_cases hw : w = i
      · subst hw
        simp only [stages, heq, Function.update_self, hnone]
        rfl
      · simp only [stages, heq, Function.update_of_ne hw]
  rw [hsame]
  exact gate_benign hb.barriers h hmem

theorem gate_start (h : SetupOk n lines values g mem) :
    Gate g (startProg g mem).mem (stages (startProg g mem)) where
  reached := by
    intro b hb
    show (mem.barriers b).reached ≤ _
    rw [h.reached b hb]
    exact Int.natCast_nonneg _
  writing := fun _ _ _ _ _ _ hs => nomatch hs
  opening := fun _ _ _ _ _ _ hs => nomatch hs
  tokens := by
    intro b hb hpos
    have hzero : (startProg g mem).mem.semval ((startProg g mem).mem.barriers b).semaphore = 0 :=
      h.empty b hb
    omega
  past := fun _ _ hp => nomatch hp

/-! ## Runs -/

variable {root : Nat}

theorem base_reachable (h : RootedTree n lines root)
    (hs : (computeSum n lines values).Reachable s) :
    Base (setup n lines values).2.nextSem (setup n lines values).1 s := by
  have hok := setup_ok h values
  refine Machine.ReachableWhen.invariant (fun s hs => ?_) (fun s t s' hb _ hstep => ?_) hs
  · obtain rfl := hs
    exact base_start hok
  · rcases computeSum_cases hstep with ⟨-, hmain⟩ | ⟨v, pc, -, hpc, hnode⟩
    · exact base_main hb hmain
    · exact base_node hok.tree hb hpc hnode

theorem gate_reachable (h : RootedTree n lines root)
    (hs : (computeSum n lines values).Reachable s) :
    Gate (setup n lines values).1 s.mem (stages s) := by
  have hok := setup_ok h values
  refine Machine.ReachableWhen.invariant_of
    (I := fun s => Gate (setup n lines values).1 s.mem (stages s))
    (fun s hs => base_reachable h hs) (fun s hs => ?_) (fun s t s' hb hg _ hstep => ?_) hs
  · obtain rfl := hs
    exact gate_start hok
  · rcases computeSum_cases hstep with ⟨-, hmain⟩ | ⟨v, pc, -, hpc, hnode⟩
    · exact gate_main hb hg hmain
    · exact gate_node hok.tree hb hg hpc hnode

end OSLab.Foothread
