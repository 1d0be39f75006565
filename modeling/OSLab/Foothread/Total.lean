import OSLab.Foothread.NodeSums
import OSLab.Foothread.ThreadTable

set_option autoImplicit false

/-! # The total

`main` waits in `foothread_exit` for as many tokens as it has threads, and each thread adds one
when it exits, so `main` prints the final sum at the root (`printed_total`) — in the runs in which
both read from `pop` and `vop` what they have put there (`OperandsKept`). These variables belong
to all threads, and between the assignment in `foothread_exit` and its `semop` any call of the
library by another thread may overwrite them: `main` then waits for one token and not for all
(`total_missed`).
-/

namespace OSLab.Foothread

variable {n : Nat} {lines : List (Nat × Nat)} {values : Nat → Int} {g : Globals} {root : Nat}
variable {lo v i : Nat} {s s' : Prog}

/-! ## What is counted -/

/-- The thread of a node has added its token. -/
def signalledNode : Option NodePc → Bool
  | some (.exit pc) => signalled pc
  | some .finished => true
  | _ => false

/-- `main` has got its tokens. -/
def joined : MainPc → Bool
  | .create _ _ => false
  | .exit pc => joinedExit pc
  | _ => true

/-- `main`'s wait and the signals of the nodes use the operands they were given: `pop` is minus
the number of children when `main` comes to wait for them, and `vop` is `1` when a node comes to
signal its parent. -/
def operandsKept (s : Prog) : Nat → Bool
  | 0 =>
      match s.main with
      | .exit pc => readsOwnPop s.mem pc
      | _ => true
  | v + 1 =>
      match s.node v with
      | some (.exit pc) => readsOwnVop s.mem pc
      | _ => true

def OperandsKept (s : Prog) (t : Nat) : Prop := operandsKept s t = true

instance (s : Prog) (t : Nat) : Decidable (OperandsKept s t) := inferInstanceAs (Decidable (_ = _))

/-- **The invariant of the wait.** -/
structure Waits (n lo : Nat) (s : Prog) : Prop where
  parents : Parents s.mem
  node : ∀ v pc, s.node v = some (.exit pc) → Childless pc ∧ AddsOne pc
  create : ∀ i pc, s.main = .create i pc → Table lo (inUse i pc) s.mem ∧ CreateOk i s.mem pc
  exit : ∀ pc, s.main = .exit pc → joinedExit pc = false → Table lo (n + 1) s.mem ∧ JoinOk lo n pc
  tokens : joined s.main = false →
    s.mem.semval lo ≤ Nat.count (fun v => signalledNode (s.node v) = true) n
  done : joined s.main = true → ∀ v < n, signalledNode (s.node v) = true

/-! ## The nodes -/

/-- Node `v` moves from `pc` to `pc'`: it adds at most one token, and only when it signals. -/
theorem Waits.put {mem : Mem} {pc pc' : NodePc} (h : Waits n lo s) (hv : v < n)
    (hpc : s.node v = some pc)
    (hsame : mem.threadTable = s.mem.threadTable ∧ mem.init = s.mem.init
      ∧ mem.nextSem = s.mem.nextSem)
    (htokens : mem.semval lo = s.mem.semval lo ∨ signalledNode (some pc) = false
      ∧ mem.semval lo = s.mem.semval lo + 1 ∧ signalledNode (some pc') = true)
    (hexit : ∀ epc, pc' = .exit epc → Childless epc ∧ AddsOne epc)
    (hmono : signalledNode (some pc) = true → signalledNode (some pc') = true) :
    Waits n lo (s.put v mem pc') := by
  obtain ⟨htable, hinit, hnext⟩ := hsame
  have hself : (s.put v mem pc').node v = some pc' := Function.update_self _ _ _
  have hother : ∀ w, w ≠ v → (s.put v mem pc').node w = s.node w :=
    fun w hw => Function.update_of_ne hw _ _
  have hkeep : ∀ w, signalledNode (s.node w) = true →
      signalledNode ((s.put v mem pc').node w) = true := by
    intro w hw
    by_cases hwv : w = v
    · subst hwv
      rw [hself]
      exact hmono (hpc ▸ hw)
    · rw [hother w hwv]
      exact hw
  -- only node `v` moves, and the table stays
  refine ⟨h.parents.of_same htable, fun w epc hw => ?_, fun i cpc hc => ?_, fun epc he hj => ?_,
    fun hj => ?_, fun hj w hw => hkeep w (h.done hj w hw)⟩
  · by_cases hwv : w = v
    · subst hwv
      rw [hself] at hw
      exact hexit epc (Option.some.inj hw)
    · rw [hother w hwv] at hw
      exact h.node w epc hw
  · obtain ⟨ht, hok⟩ := h.create i cpc hc
    refine ⟨ht.of_same htable hinit hnext, ?_⟩
    have hok' : CreateOk i (s.put v mem pc').mem cpc = CreateOk i s.mem cpc := by
      cases cpc <;> simp only [CreateOk, Prog.put, htable, hinit]
    rw [hok']
    exact hok
  · obtain ⟨ht, hok⟩ := h.exit epc he hj
    exact ⟨ht.of_same htable hinit hnext, hok⟩
  · -- a token is added by a thread that starts to count
    have hle := h.tokens hj
    have hmonoCount : Nat.count (fun w => signalledNode (s.node w) = true) n
        ≤ Nat.count (fun w => signalledNode ((s.put v mem pc').node w) = true) n :=
      Nat.count_mono_left fun w _ hw => hkeep w hw
    rcases htokens with heq | ⟨hold, heq, hnew⟩
    · show mem.semval lo ≤ _
      omega
    · have hgain := count_gain (p := fun w => signalledNode (s.node w) = true)
        (q := fun w => signalledNode ((s.put v mem pc').node w) = true) hv
        (fun w _ hwv => by rw [hother w hwv]) (by rw [hpc, hold]; decide) (by rw [hself, hnew])
      show mem.semval lo ≤ _
      omega

theorem Waits.setSum (h : Waits n lo s) (v : Nat) (x : Int) : Waits n lo (s.setSum v x) :=
  ⟨h.parents, h.node, h.create, h.exit, h.tokens, h.done⟩

/-- A node that does not exit yet moves. -/
theorem Waits.walk {mem : Mem} {pc pc' : NodePc} (h : Waits n lo s) (hv : v < n)
    (hpc : s.node v = some pc) (hnot : signalledNode (some pc) = false)
    (hq : Quiet lo s.mem mem) (hexit : ∀ epc, pc' = .exit epc → epc = .setPop) :
    Waits n lo (s.put v mem pc') := by
  refine h.put hv hpc ⟨hq.table, hq.init, hq.next⟩ (.inl hq.tokens) (fun epc he => ?_) fun hs => ?_
  · obtain rfl := hexit epc he
    exact ⟨trivial, trivial⟩
  · rw [hnot] at hs
    cases hs

theorem waits_call {P : Type} {place : P → NodePc} {after : NodePc} {r : Option (Mem × Ctl P)}
    {pc : NodePc} (hs : s.call v place after r = some s') (h : Waits n lo s) (hv : v < n)
    (hpc : s.node v = some pc) (hnot : signalledNode (some pc) = false)
    (hq : ∀ mem c, r = some (mem, c) → Quiet lo s.mem mem)
    (hplace : ∀ p epc, place p ≠ .exit epc) (hafter : ∀ epc, after = .exit epc → epc = .setPop) :
    Waits n lo s' := by
  rcases call_cases hs with ⟨mem, pc', hr, rfl⟩ | ⟨mem, hr, rfl⟩ | ⟨mem, hr, rfl⟩
  · exact h.walk hv hpc hnot (hq mem _ hr) fun epc he => absurd he (hplace pc' epc)
  · exact h.walk hv hpc hnot (hq mem _ hr) hafter
  · exact ⟨h.parents, h.node, h.create, h.exit, h.tokens, h.done⟩

theorem waits_node (ht : TreeOk n lines values g) (hb : Base lo g s) (h : Waits n lo s)
    {pc : NodePc} (hpc : s.node v = some pc) (hkept : OperandsKept s (v + 1))
    (hs : nodeNext g v s pc = some s') : Waits n lo s' := by
  obtain ⟨hvg, hok⟩ := hb.node v pc hpc
  have hv : v < n := ht.numNodes ▸ hvg
  have hquiet : Quiet lo s.mem s.mem := ⟨rfl, rfl, rfl, rfl⟩
  -- the semaphores of the barriers are below `lo`
  have hbar : ∀ b, Inner g b → ∀ (bpc : BarrierPc) mem c,
      barrierWait b s.mem bpc = some (mem, c) → Quiet lo s.mem mem := by
    intro b hin bpc mem c hm
    refine quiet_barrier ?_ (hb.barriers.semaphore b hin).2.ne hm
    rw [hb.barriers.mutex b hin, BAR_SEM_KEY]
    have := hb.mem.next.1
    omega
  cases pc with
  | start =>
      cases hs
      refine h.walk hv hpc rfl hquiet fun epc he => ?_
      split at he <;> cases he
  | wait bpc =>
      exact waits_call hs h hv hpc rfl (fun _ _ hr => hbar v hok.1 _ _ _ hr)
        (fun _ _ he => by cases he) fun _ he => by cases he
  | lock lpc =>
      exact waits_call hs h hv hpc rfl (fun _ _ hr => quiet_lock hb.mem hr)
        (fun _ _ he => by cases he) fun _ he => by cases he
  | setSum =>
      cases hs
      exact (h.setSum v _).walk hv hpc rfl hquiet fun _ he => by cases he
  | scan i =>
      simp only [nodeNext] at hs
      split at hs
      · cases hs
        refine h.walk hv hpc rfl hquiet fun epc he => ?_
        split at he <;> cases he
      · cases hs
        exact h.walk hv hpc rfl hquiet fun _ he => by cases he
  | addChild i =>
      cases hs
      exact h.walk hv hpc rfl hquiet fun _ he => by cases he
  | addOwn i x =>
      cases hs
      exact h.walk hv hpc rfl hquiet fun _ he => by cases he
  | store i y =>
      cases hs
      exact (h.setSum v _).walk hv hpc rfl hquiet fun _ he => by cases he
  | unlock upc =>
      exact waits_call hs h hv hpc rfl (fun _ _ hr => quiet_unlock hb.mem hr)
        (fun _ _ he => by cases he) fun _ he => by cases he
  | leaf =>
      cases hs
      exact (h.setSum v _).walk hv hpc rfl hquiet fun _ he => by cases he
  | up =>
      cases hs
      refine h.walk hv hpc rfl hquiet fun epc he => ?_
      split at he <;> cases he
  | waitParent bpc =>
      obtain ⟨b, hpar, hin, -⟩ := hok
      have hto : (g.tree v).parent.toNat = b := by rw [hpar]; rfl
      simp only [nodeNext, hto] at hs
      exact waits_call hs h hv hpc rfl (fun _ _ hr => hbar b hin _ _ _ hr)
        (fun _ _ he => by cases he) fun _ he => by cases he
  | check =>
      cases hs
      refine h.walk hv hpc rfl hquiet fun epc he => ?_
      split at he <;> cases he
      rfl
  | lockReport lpc =>
      exact waits_call hs h hv hpc rfl (fun _ _ hr => quiet_lock hb.mem hr)
        (fun _ _ he => by cases he) fun _ he => by cases he
  | report =>
      cases hs
      exact h.walk hv hpc rfl hquiet fun _ he => by cases he
  | unlockReport upc =>
      exact waits_call hs h hv hpc rfl (fun _ _ hr => quiet_unlock hb.mem hr)
        (fun _ _ he => by cases he) fun _ he => by cases he; rfl
  | exit epc =>
      obtain ⟨hchild, hone⟩ := h.node v epc hpc
      have hop : readsOwnVop s.mem epc = true := by
        simpa [OperandsKept, operandsKept, hpc] using hkept
      have hstep : ∀ {mem c}, foothreadExit (v + 1) s.mem epc = some (mem, c) →
          ChildStep lo s.mem mem epc c :=
        fun hm => exit_child hb.mem (Nat.succ_pos v) h.parents hchild hone hop hm
      rcases call_cases hs with ⟨mem, pc', hm, rfl⟩ | ⟨mem, hm, rfl⟩ | ⟨mem, hm, rfl⟩
      · have hst := hstep hm
        obtain ⟨hc, ho, hmono⟩ := hst.next pc' rfl
        refine h.put hv hpc hst.same (hst.tokens.imp id fun hx => ⟨hx.1, hx.2.1, hx.2.2 pc' rfl⟩)
          (fun epc' he => ?_) hmono
        cases he
        exact ⟨hc, ho⟩
      · have hst := hstep hm
        have hsig := hst.noRet rfl
        refine h.put hv hpc hst.same (hst.tokens.imp id fun hx => ?_) (fun _ he => by cases he)
          fun _ => rfl
        exact ⟨hx.1, hx.2.1, rfl⟩
      · exact ⟨h.parents, h.node, h.create, h.exit, h.tokens, h.done⟩
  | finished => cases hs

/-! ## `main` -/

/-- A node that is not made yet, or has just been made, has added nothing. -/
theorem signalled_made {node : Nat → Option NodePc} (hnone : node i = none) (w : Nat) :
    signalledNode (Function.update node i (some .start) w) = signalledNode (node w) := by
  by_cases hw : w = i
  · subst hw
    rw [Function.update_self, hnone]
    rfl
  · rw [Function.update_of_ne hw]

/-- `main` is past its wait. -/
theorem Waits.past (h : Waits n lo s) {mem : Mem} {pc : MainPc} {printed : Option Int}
    (hp : Parents mem) (hpc : joined pc = true)
    (hdone : ∀ v < n, signalledNode (s.node v) = true) :
    Waits n lo { s with mem := mem, main := pc, printed := printed } where
  parents := hp
  node := h.node
  create := fun i cpc hc => by
    obtain rfl : pc = .create i cpc := hc
    cases hpc
  exit := fun epc he hj => by
    obtain rfl : pc = .exit epc := he
    rw [show joinedExit epc = true from hpc] at hj
    cases hj
  tokens := fun hj => by
    rw [show joined pc = true from hpc] at hj
    cases hj
  done := fun _ => hdone

/-- The tokens still count threads when they are kept or taken back. -/
theorem Waits.fewer (h : Waits n lo s) (hj : joined s.main = false) {mem : Mem}
    (htokens : mem.semval lo = s.mem.semval lo ∨ mem.semval lo = 0) :
    mem.semval lo ≤ Nat.count (fun v => signalledNode (s.node v) = true) n := by
  rcases htokens with heq | heq
  · rw [heq]
    exact h.tokens hj
  · rw [heq]
    exact Nat.zero_le _

/-- The next thread is to be made, or `main` exits. -/
theorem Waits.loop (h : Waits n lo s) (hj : joined s.main = false) {mem : Mem}
    (hp : Parents mem) (htokens : mem.semval lo = s.mem.semval lo ∨ mem.semval lo = 0)
    (hi : i ≤ n) (hpos : 0 < i) (ht : Table lo (i + 1) mem) :
    Waits n lo { s with mem := mem, main := createLoop n i } where
  parents := hp
  node := h.node
  create := fun k cpc hc => by
    have hc' : createLoop n i = .create k cpc := hc
    unfold createLoop at hc'
    split at hc' <;> cases hc'
    have huse : inUse i .setPop = i + 1 := if_neg hpos.ne'
    exact ⟨huse ▸ ht, trivial⟩
  exit := fun epc he _ => by
    have he' : createLoop n i = .exit epc := he
    unfold createLoop at he'
    split at he' <;> cases he'
    have hin : i = n := by omega
    exact ⟨hin ▸ ht, trivial⟩
  tokens := fun _ => h.fewer hj htokens
  done := fun hd => by
    have hd' : joined (createLoop n i) = true := hd
    unfold createLoop at hd'
    split at hd' <;> cases hd'

theorem waits_create (hsmall : n + 1 ≤ MAX_THREADS) (hg : g.numNodes = n) (hb : Base lo g s)
    (h : Waits n lo s) {cpc : CreatePc} (hmain : s.main = .create i cpc)
    (hs : mainNext g s s.main = some s') : Waits n lo s' := by
  obtain ⟨hi, hnone⟩ := hb.fresh i cpc hmain
  obtain ⟨ht, hok⟩ := h.create i cpc hmain
  have hj : joined s.main = false := by rw [hmain]; rfl
  have hin : i < n := hg ▸ hi
  rw [hmain] at hs
  simp only [mainNext] at hs
  have hstep : ∀ {mem c}, foothreadCreate 0 (i + 1) s.mem cpc = some (mem, c) →
      CreateStep lo i s.mem mem c := fun hm => create_step hb.mem (by omega) ht hok hm
  split at hs
  · rename_i mem pc' hm
    cases hs
    have hst := hstep hm
    refine ⟨hst.parents h.parents, h.node, fun k cpc' hc => ?_, (fun _ he => by cases he),
      fun _ => h.fewer hj hst.tokens, fun hd => by cases hd⟩
    cases hc
    exact hst.next pc' (.inl rfl)
  · rename_i mem pc' hm
    cases hs
    have hst := hstep hm
    have hnew : s.node i = none := hnone i le_rfl fun hc => by
      rw [(cloned_clone hm).1] at hc
      cases hc
    refine ⟨hst.parents h.parents, fun w epc hw => ?_, fun k cpc' hc => ?_,
      (fun _ he => by cases he), fun _ => ?_, fun hd => by cases hd⟩
    · by_cases hwi : w = i
      · subst hwi
        simp at hw
      · exact h.node w epc (by simpa [Function.update_of_ne hwi] using hw)
    · cases hc
      exact hst.next pc' (.inr rfl)
    · -- a thread at its start has added nothing
      simp only [signalled_made hnew]
      exact h.fewer hj hst.tokens
  · rename_i mem hm
    cases hs
    have hst := hstep hm
    rw [hg]
    exact h.loop hj (hst.parents h.parents) hst.tokens hin (Nat.succ_pos i) (hst.ret rfl)
  · cases hs
    exact ⟨h.parents, h.node, h.create, h.exit, h.tokens, h.done⟩
  · cases hs

/-- `main` in `foothread_exit`: when it has its tokens, every thread has added one. -/
theorem waits_exit (hsmall : n + 1 ≤ MAX_THREADS) (hpos : 0 < n) (hb : Base lo g s)
    (h : Waits n lo s) (hkept : OperandsKept s 0) {epc : ExitPc} (hmain : s.main = .exit epc)
    (hs : mainNext g s s.main = some s') : Waits n lo s' := by
  rw [hmain] at hs
  simp only [mainNext] at hs
  cases hj : joinedExit epc with
  | true =>
      have hdone := h.done (by rw [hmain]; exact hj)
      split at hs
      · rename_i mem pc' hm
        cases hs
        obtain ⟨hp, hnext⟩ := exit_joined hj h.parents hm
        exact h.past hp (hnext pc' rfl) hdone
      · rename_i mem hm
        cases hs
        exact h.past (exit_joined hj h.parents hm).1 rfl hdone
      · cases hs
  | false =>
      obtain ⟨ht, hok⟩ := h.exit epc hmain hj
      have hop : readsOwnPop s.mem epc = true := by
        simpa [OperandsKept, operandsKept, hmain] using hkept
      have hstep : ∀ {mem c}, foothreadExit 0 s.mem epc = some (mem, c) → _ :=
        fun hm => exit_creator hb.mem ⟨hpos, hsmall⟩ ht hok hj hop hm
      have hle := h.tokens (by rw [hmain]; exact hj)
      split at hs
      · rename_i mem pc' hm
        cases hs
        obtain ⟨pc, hpc, ⟨hq, hnext, hj'⟩ | ⟨hall, htable, hj'⟩⟩ := hstep hm
        · cases hpc
          refine ⟨h.parents.of_same hq.table, h.node, (fun _ _ hc => by cases hc),
            fun epc' he _ => ?_, fun _ => ?_, fun hd => ?_⟩
          · cases he
            exact ⟨ht.quiet hq, hnext⟩
          · show mem.semval lo ≤ _
            rw [hq.tokens]
            exact hle
          · rw [show joinedExit pc' = true from hd] at hj'
            cases hj'
        · cases hpc
          -- as many tokens as threads, and each has added one at most
          refine h.past (h.parents.of_same htable) hj' fun v hv => ?_
          exact of_count_le (p := fun v => signalledNode (s.node v) = true)
            (q := fun _ => True) (fun _ _ _ => trivial) (by simp; omega) v hv trivial
      · rename_i mem hm
        obtain ⟨pc, hpc, -⟩ := hstep hm
        cases hpc
      · cases hs

theorem waits_main (hsmall : n + 1 ≤ MAX_THREADS) (hpos : 0 < n) (hg : g.numNodes = n)
    (hb : Base lo g s) (h : Waits n lo s) (hkept : OperandsKept s 0)
    (hs : mainNext g s s.main = some s') : Waits n lo s' := by
  cases hmain : s.main with
  | create i cpc => exact waits_create hsmall hg hb h hmain hs
  | exit epc => exact waits_exit hsmall hpos hb h hkept hmain hs
  | lock lpc =>
      have hdone := h.done (by rw [hmain]; rfl)
      rw [hmain] at hs
      simp only [mainNext] at hs
      split at hs
      · cases hs
        exact h.past (h.parents.of_same (quiet_lock hb.mem ‹_›).table) rfl hdone
      · cases hs
        exact h.past (h.parents.of_same (quiet_lock hb.mem ‹_›).table) rfl hdone
      · cases hs
  | print =>
      have hdone := h.done (by rw [hmain]; rfl)
      rw [hmain] at hs
      cases hs
      exact h.past h.parents rfl hdone
  | unlock upc =>
      have hdone := h.done (by rw [hmain]; rfl)
      rw [hmain] at hs
      simp only [mainNext] at hs
      split at hs
      · cases hs
        exact h.past (h.parents.of_same (quiet_unlock hb.mem ‹_›).table) rfl hdone
      · cases hs
        exact h.past (h.parents.of_same (quiet_unlock hb.mem ‹_›).table) rfl hdone
      · cases hs
        exact ⟨h.parents, h.node, h.create, h.exit, h.tokens, h.done⟩
      · cases hs
  | finished =>
      rw [hmain] at hs
      cases hs

/-! ## Runs -/

theorem waits_start (h : RootedTree n lines root) :
    Waits n (setup n lines values).2.nextSem
      (startProg (setup n lines values).1 (setup n lines values).2) := by
  have hok := setup_ok h values
  have hpos : 0 < n := Nat.zero_lt_of_lt h.root_lt
  have hlo := hok.memory.next.1
  -- the table is empty, and the thread of node `0` is the first to be made
  refine ⟨fun j => ?_, (fun _ _ hc => by cases hc), fun i cpc hc => ?_, fun epc he _ => ?_,
    fun _ => ?_, fun hd => ?_⟩
  · show ((setup n lines values).2.threadTable j).parentTid = 0 ∨ _
    rw [hok.table j]
    exact .inl rfl
  · have hc' : createLoop (setup n lines values).1.numNodes 0 = .create i cpc := hc
    rw [hok.tree.numNodes, createLoop, if_pos hpos] at hc'
    cases hc'
    refine ⟨⟨(fun h0 => absurd h0 (Nat.lt_irrefl 0)), (fun j hj => absurd hj (Nat.not_lt_zero j)),
      fun j _ => ?_, fun j _ => ?_, (fun h0 => absurd h0 (Nat.lt_irrefl 0)), (fun _ => rfl),
      fun h0 => absurd h0 (Nat.lt_irrefl 0)⟩, trivial⟩
    · show ((setup n lines values).2.threadTable j).valid = false
      rw [hok.table j]
    · show ((setup n lines values).2.threadTable j).semaphore ≠ _
      rw [hok.table j]
      exact (Nat.zero_lt_of_lt hlo).ne
  · have he' : createLoop (setup n lines values).1.numNodes 0 = .exit epc := he
    rw [hok.tree.numNodes, createLoop, if_pos hpos] at he'
    cases he'
  · exact hok.unused.trans_le (Nat.zero_le _)
  · have hd' : joined (createLoop (setup n lines values).1.numNodes 0) = true := hd
    rw [hok.tree.numNodes, createLoop, if_pos hpos] at hd'
    cases hd'

theorem waits_reachable (h : RootedTree n lines root)
    (hs : (computeSum n lines values).ReachableWhen OperandsKept s) :
    Waits n (setup n lines values).2.nextSem s := by
  have hok := setup_ok h values
  have hsmall : n + 1 ≤ MAX_THREADS := Nat.succ_le_succ h.small
  refine Machine.ReachableWhen.invariant_of
    (I := Waits n (setup n lines values).2.nextSem) (fun s hs => base_reachable h hs.reachable)
    (fun s hs => ?_) (fun s t s' hb hw hkept hstep => ?_) hs
  · obtain rfl := hs
    exact waits_start h
  · rcases computeSum_cases hstep with ⟨rfl, hmain⟩ | ⟨v, pc, rfl, hpc, hnode⟩
    · exact waits_main hsmall (Nat.zero_lt_of_lt h.root_lt) hok.tree.numNodes hb hw hkept hmain
    · exact waits_node hok.tree hb hw hpc hkept hnode

/-- A node that has added its token has stored its sum. -/
theorem stored_of_signalled {o : Option NodePc} (h : signalledNode o = true) :
    ∃ pc, o = some pc ∧ stored pc = true := by
  cases o with
  | none => cases h
  | some pc => cases pc <;> first | exact ⟨_, rfl, rfl⟩ | cases h

/-- What is printed is the sum at the root when `main` comes to print it. -/
theorem printed_next (hs : mainNext g s s.main = some s') :
    s'.printed = s.printed ∨ s.main = .print ∧ s'.printed = some (s.sum g.root) := by
  cases hmain : s.main with
  | print =>
      rw [hmain] at hs
      cases hs
      exact .inr ⟨rfl, rfl⟩
  | create i cpc =>
      rw [hmain] at hs
      simp only [mainNext] at hs
      split at hs <;> cases hs <;> exact .inl rfl
  | exit epc =>
      rw [hmain] at hs
      simp only [mainNext] at hs
      split at hs <;> cases hs <;> exact .inl rfl
  | lock lpc =>
      rw [hmain] at hs
      simp only [mainNext] at hs
      split at hs <;> cases hs <;> exact .inl rfl
  | unlock upc =>
      rw [hmain] at hs
      simp only [mainNext] at hs
      split at hs <;> cases hs <;> exact .inl rfl
  | finished =>
      rw [hmain] at hs
      cases hs

theorem node_printed {pc : NodePc} (hs : nodeNext g v s pc = some s') :
    s'.printed = s.printed := by
  have hcall : ∀ {P : Type} {place : P → NodePc} {after : NodePc} {r : Option (Mem × Ctl P)},
      s.call v place after r = some s' → s'.printed = s.printed := by
    intro P place after r hc
    rcases call_cases hc with ⟨mem, pc', -, rfl⟩ | ⟨mem, -, rfl⟩ | ⟨mem, -, rfl⟩ <;> rfl
  cases pc with
  | scan i =>
      simp only [nodeNext] at hs
      split at hs <;> cases hs <;> rfl
  | finished => cases hs
  | wait _ => exact hcall hs
  | lock _ => exact hcall hs
  | unlock _ => exact hcall hs
  | waitParent _ => exact hcall hs
  | lockReport _ => exact hcall hs
  | unlockReport _ => exact hcall hs
  | exit _ => exact hcall hs
  | _ =>
      cases hs
      rfl

/-- The sum of all leaf values. -/
def leafTotal (n : Nat) (lines : List (Nat × Nat)) (values : Nat → Int) : Int :=
  ∑ v ∈ Finset.range n with ∀ c ∈ Finset.range n, fileParent lines c ≠ some v, values v

theorem subtreeSum_root (h : RootedTree n lines root) :
    subtreeSum n lines values root = leafTotal n lines values := by
  obtain ⟨depth, hd⟩ := h.descending
  have hall := hd.under_root fun u hu => h.root_of_none (Finset.mem_range.mp hu)
  rw [subtreeSum, Forest.leafSum_root hall, leafTotal]
  classical
  refine Finset.sum_congr ?_ fun _ _ => rfl
  ext u
  rw [Finset.mem_filter, Finset.mem_filter]
  rfl

/-- **The printed total is right** in every run in which the operands are kept. -/
theorem printed_total (h : RootedTree n lines root) (hleaves : LeavesFit n lines values)
    (hfit : FitsInt (leafTotal n lines values))
    (hs : (computeSum n lines values).ReachableWhen OperandsKept s) :
    ∀ x, s.printed = some x → x = leafTotal n lines values := by
  refine Machine.ReachableWhen.invariant_of
    (I := fun s => ∀ x, s.printed = some x → x = leafTotal n lines values)
    (fun s hs => And.intro (waits_reachable h hs) (sums_reachable h hleaves hs.reachable))
    (fun s hs => ?_) (fun s t s' hJ hI _ hstep => ?_) hs
  · obtain rfl := hs
    intro x hx
    cases hx
  · obtain ⟨hw, hsums⟩ := hJ
    rcases computeSum_cases hstep with ⟨-, hmain⟩ | ⟨v, pc, -, -, hnode⟩
    · rcases printed_next hmain with heq | ⟨hprint, heq⟩
      · rw [heq]
        exact hI
      · -- all nodes have signalled, so the root has stored its sum
        have hdone := hw.done (by rw [hprint]; rfl) root h.root_lt
        obtain ⟨pc, hpc, hst⟩ := stored_of_signalled hdone
        have hsum := (hsums root pc hpc).final hst
        rw [subtreeSum_root h, toInt_of_fits hfit] at hsum
        intro x hx
        rw [heq, setup_root h, hsum] at hx
        exact (Option.some.inj hx).symm
    · rw [node_printed hnode]
      exact hI

/-- Two nodes, one after the other: `main` waits, then the leaf and the root go through. -/
theorem printed_total_pair : ∃ s,
    (computeSum 2 [(0, 0), (1, 0)] fun _ => 5).ReachableWhen OperandsKept s
      ∧ s.printed = some 5 ∧ 5 = leafTotal 2 [(0, 0), (1, 0)] fun _ => 5 := by
  have htree : RootedTree 2 [(0, 0), (1, 0)] 0 :=
    ⟨by decide, by decide, by decide, by decide, ⟨id, by decide⟩, by decide⟩
  obtain ⟨s, hs, hp⟩ : ∃ s, (computeSum 2 [(0, 0), (1, 0)] fun _ => 5).ReachableWhen OperandsKept s
      ∧ (s.printed = some 5 : Bool) = true :=
    Machine.exists_reachableWhen_of_execWhen (l := List.replicate 106 0 ++ List.replicate 11 1
      ++ List.replicate 99 2 ++ List.replicate 117 1 ++ List.replicate 24 0) rfl
      (by decide +kernel)
  have hp' := of_decide_eq_true hp
  exact ⟨s, hs, hp', printed_total htree (fun _ _ _ => by decide) (by decide) hs 5 hp'⟩

/-- **`main` misses a thread.** When `main` has set `pop` to `-2`, the thread of the root sets it
to `-1` for its barrier. `main` waits for one token, gets that of the leaf, and prints the sum of
a root that has not added anything up. -/
theorem total_missed : RootedTree 2 [(0, 0), (1, 0)] 0
    ∧ leafTotal 2 [(0, 0), (1, 0)] (fun _ => 5) = 5
    ∧ ∃ s, (computeSum 2 [(0, 0), (1, 0)] fun _ => 5).Reachable s ∧ s.printed = some 0 := by
  have htree : RootedTree 2 [(0, 0), (1, 0)] 0 :=
    ⟨by decide, by decide, by decide, by decide, ⟨id, by decide⟩, by decide⟩
  obtain ⟨s, hs, hp⟩ : ∃ s, (computeSum 2 [(0, 0), (1, 0)] fun _ => 5).Reachable s
      ∧ (s.printed = some 0 : Bool) = true :=
    Machine.exists_reachable_of_exec (l := List.replicate 105 0 ++ List.replicate 2 1 ++ [0]
      ++ List.replicate 9 1 ++ List.replicate 99 2 ++ List.replicate 24 0) rfl
      (by decide +kernel)
  exact ⟨htree, by decide, s, hs, of_decide_eq_true hp⟩

end OSLab.Foothread
