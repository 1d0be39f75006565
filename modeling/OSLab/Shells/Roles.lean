import OSLab.Shells.Children
import Mathlib.Data.List.Infix

set_option autoImplicit false

/-! # The shells keep complementary roles

Both children look for `swaprole` in the chunks of one stream, and both cut the stream at the same
places, so they agree about the roles. What breaks the agreement is the rest of a long line: the
child that has sent `swaprole` goes on to execute what its `stdin` still holds of the line. The
roles are complementary in every run in which nothing is left there (`complementary_when`).

The invariant has one child `x` that speaks and the other that listens. The listener's `stdin` and
the pipe together are a queue of whole chunks, the speaker hears nothing; `swaprole` can only be
the last chunk of the queue, and then the speaker has stopped.
-/

namespace OSLab.Shells

/-! ## Chunks -/

theorem text_append (a b : List Byte) : text (a ++ b) = text a ++ text b := List.map_append

@[simp] theorem text_tag (l : List Char) (b : Bool) :
    text (l.map fun ch => Byte.mk ch b) = l := by
  simp [text, Function.comp_def]

/-- A chunk as `fgets` takes it. -/
abbrev Line (c : List Char) : Prop := IsChunk (· == '\n') (MAX - 2) c

theorem fgets_text {l buff rest : List Byte} (h : fgets l = some (buff, rest)) :
    takeChunk (· == '\n') (MAX - 2) (text l) = some (text buff, text rest) :=
  takeChunk_map (fun _ => rfl) h

theorem fgets_line {l buff rest : List Byte} (h : fgets l = some (buff, rest)) :
    l = buff ++ rest ∧ Line (text buff) :=
  ⟨(takeChunk_spec h).1, (takeChunk_spec (fgets_text h)).2⟩

/-- A chunk without its newline: the newline is the last character, if there is one. -/
theorem cut_of_isChunk {k : Nat} {c : List Char} (h : IsChunk (· == '\n') k c) :
    c = cut c ∨ c = cut c ++ ['\n'] := by
  induction k generalizing c with
  | zero =>
      have h : c = [] := h
      subst h
      exact Or.inl rfl
  | succ k ih =>
      cases c with
      | nil => exact h.elim
      | cons a c =>
          simp only [IsChunk] at h
          split at h
          · rename_i ha
            subst h
            right
            simp_all [cut]
          · rename_i ha
            have hcut : cut (a :: c) = a :: cut c := by simp_all [cut]
            rw [hcut]
            rcases ih h with hc | hc
            · exact Or.inl (congrArg _ hc)
            · exact Or.inr (congrArg _ hc)

theorem strstr_iff {buff pat : List Char} : strstr buff pat = true ↔ pat <:+: buff := by
  rw [List.infix_iff_prefix_suffix, strstr, List.any_eq_true]
  constructor
  · rintro ⟨t, ht, hp⟩
    exact ⟨t, List.isPrefixOf_iff_prefix.mp hp, (List.mem_tails _ _).mp ht⟩
  · rintro ⟨t, hp, ht⟩
    exact ⟨t, (List.mem_tails _ _).mpr ht, List.isPrefixOf_iff_prefix.mpr hp⟩

/-- A pattern without newlines is found in a line as well as in the line cut at its newline. -/
theorem strstr_cut {c pat : List Char} (h : Line c) (hp : '\n' ∉ pat) :
    strstr (cut c) pat = strstr c pat := by
  rcases cut_of_isChunk h with hc | hc
  · rw [← hc]
  · rw [Bool.eq_iff_iff, strstr_iff, strstr_iff]
    constructor
    · intro hi
      rw [hc]
      exact hi.trans (List.prefix_append _ _).isInfix
    · intro hi
      rw [hc, List.infix_concat_iff, List.suffix_concat_iff] at hi
      rcases hi with (rfl | ⟨t, rfl, -⟩) | hi
      · exact List.nil_infix
      · exact absurd (List.mem_append_right t List.mem_cons_self) hp
      · exact hi

theorem exits_cut {c : List Char} (h : Line c) : exits (cut c) = exits c :=
  strstr_cut h (by decide)

theorem swaps_cut {c : List Char} (h : Line c) : swaps (cut c) = swaps c :=
  strstr_cut h (by decide)

/-! ## The invariant -/

/-- A chunk at which the roles change. -/
def Swap (c : List Char) : Prop := exits c = false ∧ swaps c = true

instance (c : List Char) : Decidable (Swap c) := inferInstanceAs (Decidable (_ ∧ _))

/-- Child `x` speaks, and the other child has the chunks of `queue` still to take. `swapping`: the
last thing `x` has said is `swaprole`. -/
structure Agreed (s : State) (x : Child) (queue : List (List Char)) (swapping : Bool) : Prop where
  listener : (s.shell x.other).mode = .execute
  speaker : (s.shell x).mode = if swapping then .execute else .input
  stream : text (s.shell x.other).stdin ++ s.pipe x = queue.flatten
  lines : ∀ c ∈ queue, Line c
  silent : s.pipe x.other = []
  typed : ∀ b ∈ (s.shell x).stdin, b.typed = true
  stopped : swapping = true → (s.shell x).stdin = []
  /-- Only the last chunk can change the roles, and only when `x` has stopped. -/
  inner : ∀ c ∈ queue.dropLast, ¬ Swap c
  last : swapping = false → ∀ c ∈ queue, ¬ Swap c
  sent : ((s.shell x.other).executed ++ queue.map cut).Sublist ((s.shell x).commands.map cut)
  heard : (s.shell x).executed.Sublist ((s.shell x.other).commands.map cut)

/-- What is executed of what is sent, whoever speaks. -/
theorem Agreed.complementary {s : State} {x : Child} {queue : List (List Char)} {swapping : Bool}
    (h : Agreed s x queue swapping) : Complementary s := by
  have hsent : (s.shell x.other).executed.Sublist ((s.shell x).commands.map cut) :=
    (List.sublist_append_left _ _).trans h.sent
  have hl := h.listener
  have hheard := h.heard
  constructor
  · rintro ⟨hC, hE⟩
    cases x with
    | C =>
        rw [Child.other, hE] at hl
        cases hl
    | E =>
        rw [Child.other, hC] at hl
        cases hl
  · intro c
    rcases Child.eq_or_eq_other c x with rfl | rfl
    · exact hheard
    · rw [Child.other_other]
      exact hsent

theorem agreed_start (terminal : Child → List Char) : Agreed (start terminal) .C [] false where
  listener := rfl
  speaker := rfl
  stream := rfl
  lines c hc := by cases hc
  silent := rfl
  typed b hb := by cases hb
  stopped h := by cases h
  inner c hc := by cases hc
  last _ c hc := by cases hc
  sent := List.Sublist.refl _
  heard := List.Sublist.refl _

variable {s s' : State} {x : Child} {queue : List (List Char)} {swapping : Bool} {n : Nat}

/-! ## Reads -/

/-- The speaker reads its terminal. -/
theorem Agreed.read_speaker (h : Agreed s x queue swapping) (hs : readStep s x n = some s') :
    Agreed s' x queue swapping := by
  have hne := x.other_ne
  unfold readStep at hs
  simp only at hs
  split at hs
  · rename_i hn
    split at hs <;> rename_i hmode
    · split at hs
      · cases hs
        refine ⟨?_, ?_, ?_, h.lines, h.silent, ?_, ?_, h.inner, h.last, ?_, ?_⟩
        · rw [State.put_shell_ne _ _ hne]
          exact h.listener
        · rw [State.put_shell_self]
          exact h.speaker
        · rw [State.put_shell_ne _ _ hne]
          exact h.stream
        · rw [State.put_shell_self]
          intro b hb
          rcases List.mem_append.mp hb with hb | hb
          · exact h.typed b hb
          · obtain ⟨ch, -, rfl⟩ := List.mem_map.mp hb
            rfl
        · intro hsw
          have hsp := h.speaker
          rw [hmode, hsw] at hsp
          cases hsp
        · rw [State.put_shell_ne _ _ hne, State.put_shell_self]
          exact h.sent
        · rw [State.put_shell_ne _ _ hne, State.put_shell_self]
          exact h.heard
      · cases hs
    · split at hs
      · rename_i hlen
        rw [h.silent, List.length_nil] at hlen
        omega
      · cases hs
  · cases hs

/-- The listener reads the pipe. -/
theorem Agreed.read_listener (h : Agreed s x queue swapping)
    (hs : readStep s x.other n = some s') : Agreed s' x queue swapping := by
  have hne : x ≠ x.other := x.other_ne.symm
  unfold readStep at hs
  simp only [h.listener, Child.other_other] at hs
  split at hs
  · split at hs
    · cases hs
      refine ⟨?_, ?_, ?_, h.lines, ?_, ?_, ?_, h.inner, h.last, ?_, ?_⟩
      · rw [State.put_shell_self]
      · rw [State.put_shell_ne _ _ hne]
        exact h.speaker
      · -- bytes go from the front of the pipe to the end of `stdin`
        rw [State.put_shell_self, State.put_pipe, State.setPipe_self, text_append, text_tag,
          List.append_assoc, List.take_append_drop]
        exact h.stream
      · rw [State.put_pipe, State.setPipe_ne _ _ hne.symm]
        exact h.silent
      · rw [State.put_shell_ne _ _ hne]
        exact h.typed
      · rw [State.put_shell_ne _ _ hne]
        exact h.stopped
      · rw [State.put_shell_ne _ _ hne, State.put_shell_self]
        exact h.sent
      · rw [State.put_shell_ne _ _ hne, State.put_shell_self]
        exact h.heard
    · cases hs
  · cases hs

/-! ## Turns -/

/-- The speaker takes a chunk from its terminal and sends it. With `swaprole` in it the roles are
about to change, and nothing must be left in `stdin`. -/
theorem Agreed.turn_speaker (h : Agreed s x queue false) {buff rest : List Byte}
    (hf : fgets (s.shell x).stdin = some (buff, rest)) (hrest : Swap (text buff) → rest = []) :
    Agreed (inputTurn s x buff rest) x (queue ++ [text buff]) (decide (Swap (text buff))) := by
  have hne := x.other_ne
  obtain ⟨hsplit, hline⟩ := fgets_line hf
  have hall : ∀ b ∈ buff ++ rest, b.typed = true := hsplit ▸ h.typed
  have hbuff : buff.all Byte.typed = true :=
    List.all_eq_true.mpr fun b hb => hall b (List.mem_append_left _ hb)
  refine ⟨?_, ?_, ?_, ?_, ?_, ?_, ?_, ?_, ?_, ?_, ?_⟩
  · rw [inputTurn, State.put_shell_ne _ _ hne]
    exact h.listener
  · rw [inputTurn, State.put_shell_self]
    by_cases hs : Swap (text buff)
    · simp [hs, hs.1, hs.2]
    · have : (!exits (text buff) && swaps (text buff)) = false := by
        rw [Bool.eq_false_iff]
        intro hb
        rw [Bool.and_eq_true, Bool.not_eq_true'] at hb
        exact hs hb
      simp [hs, this]
  · rw [inputTurn, State.put_shell_ne _ _ hne, State.put_pipe, State.setPipe_self,
      State.setPipe_shell, ← List.append_assoc, h.stream, List.flatten_append]
    simp
  · intro c hc
    rcases List.mem_append.mp hc with hc | hc
    · exact h.lines c hc
    · rw [List.mem_singleton.mp hc]
      exact hline
  · rw [inputTurn, State.put_pipe, State.setPipe_ne _ _ hne]
    exact h.silent
  · rw [inputTurn, State.put_shell_self]
    exact fun b hb => hall b (List.mem_append_right _ hb)
  · rw [inputTurn, State.put_shell_self]
    exact fun hs => hrest (of_decide_eq_true hs)
  · rw [List.dropLast_concat]
    exact h.last rfl
  · intro hs c hc
    rcases List.mem_append.mp hc with hc | hc
    · exact h.last rfl c hc
    · rw [List.mem_singleton.mp hc]
      exact of_decide_eq_false hs
  · rw [inputTurn, State.put_shell_ne _ _ hne, State.put_shell_self, if_pos hbuff, List.map_append,
      List.map_append, ← List.append_assoc]
    exact h.sent.append (List.Sublist.refl _)
  · rw [inputTurn, State.put_shell_ne _ _ hne, State.put_shell_self]
    exact h.heard

/-- The queue without its first chunk, which the listener has run or passed over. -/
theorem Agreed.taken {c : List Char} (h : Agreed s x (c :: queue) swapping) {k : Shell}
    (hmode : k.mode = .execute) (hstream : text k.stdin ++ s.pipe x = queue.flatten)
    (hcommands : k.commands = (s.shell x.other).commands)
    (hexecuted : k.executed.Sublist ((s.shell x.other).executed ++ [cut c])) :
    Agreed (s.put x.other k) x queue swapping := by
  have hne : x ≠ x.other := x.other_ne.symm
  refine ⟨?_, ?_, ?_, fun d hd => h.lines d (List.mem_cons_of_mem _ hd), h.silent, ?_, ?_, ?_,
    fun hs d hd => h.last hs d (List.mem_cons_of_mem _ hd), ?_, ?_⟩
  · rw [State.put_shell_self]
    exact hmode
  · rw [State.put_shell_ne _ _ hne]
    exact h.speaker
  · rw [State.put_shell_self, State.put_pipe]
    exact hstream
  · rw [State.put_shell_ne _ _ hne]
    exact h.typed
  · rw [State.put_shell_ne _ _ hne]
    exact h.stopped
  · intro d hd
    refine h.inner d ?_
    cases queue with
    | nil => cases hd
    | cons e l => exact List.mem_cons_of_mem _ hd
  · have hs := h.sent
    rw [List.map_cons, ← List.singleton_append, ← List.append_assoc] at hs
    rw [State.put_shell_ne _ _ hne, State.put_shell_self]
    exact (hexecuted.append (List.Sublist.refl _)).trans hs
  · rw [State.put_shell_ne _ _ hne, State.put_shell_self, hcommands]
    exact h.heard

/-- The listener takes `swaprole`, the last chunk of the queue, and speaks from now on. -/
theorem Agreed.swapped {c : List Char} (h : Agreed s x (c :: queue) swapping) (hc : Swap c)
    {k : Shell} (hmode : k.mode = .input)
    (hstream : text k.stdin ++ s.pipe x = queue.flatten)
    (hcommands : k.commands = (s.shell x.other).commands)
    (hexecuted : k.executed.Sublist ((s.shell x.other).executed ++ [cut c])) :
    Agreed (s.put x.other k) x.other [] false := by
  have hne : x ≠ x.other := x.other_ne.symm
  have hswap : swapping = true := by
    by_contra hn
    exact h.last (Bool.eq_false_iff.mpr hn) c List.mem_cons_self hc
  have hqueue : queue = [] := by
    cases queue with
    | nil => rfl
    | cons d l => exact absurd hc (h.inner c List.mem_cons_self)
  subst hqueue hswap
  obtain ⟨hstdin, hpipe⟩ := List.append_eq_nil_iff.mp hstream
  have hempty : k.stdin = [] := List.map_eq_nil_iff.mp hstdin
  refine ⟨?_, ?_, ?_, (by simp), ?_, ?_, (by simp), (by simp), (by simp), ?_, ?_⟩
  · rw [Child.other_other, State.put_shell_ne _ _ hne]
    exact h.speaker
  · rw [State.put_shell_self]
    exact hmode
  · rw [Child.other_other, State.put_shell_ne _ _ hne, h.stopped rfl, State.put_pipe, h.silent]
    rfl
  · rw [Child.other_other, State.put_pipe]
    exact hpipe
  · rw [State.put_shell_self, hempty]
    exact fun b hb => by cases hb
  · rw [Child.other_other, State.put_shell_ne _ _ hne, State.put_shell_self, hcommands,
      List.map_nil, List.append_nil]
    exact h.heard
  · have hs := h.sent
    rw [List.map_cons, List.map_nil] at hs
    rw [Child.other_other, State.put_shell_ne _ _ hne, State.put_shell_self]
    exact hexecuted.trans hs

/-- What a turn in execute mode does, for either child. -/
theorem executeTurn_spec (c : Child) (buff rest : List Byte) (hm : (s.shell c).mode = .execute)
    (hl : Line (text buff)) :
    ∃ k, executeTurn s c buff rest n = s.put c k ∧ k.stdin = rest
      ∧ k.commands = (s.shell c).commands
      ∧ k.executed.Sublist ((s.shell c).executed ++ [cut (text buff)])
      ∧ k.mode = if Swap (text buff) then .input else .execute := by
  unfold executeTurn Swap
  simp only [exits_cut hl, swaps_cut hl]
  have hskip : (s.shell c).executed.Sublist ((s.shell c).executed ++ [cut (text buff)]) :=
    List.sublist_append_left _ _
  by_cases he : exits (text buff) = true
  · rw [if_pos he]
    exact ⟨_, rfl, rfl, rfl, hskip, by simp [he, hm]⟩
  · rw [if_neg he]
    by_cases hs : swaps (text buff) = true
    · -- child `C` runs the chunk before it changes its mode, child `E` does not
      cases c with
      | C => exact ⟨_, rfl, rfl, rfl, List.Sublist.refl _, by simp [he, hs]⟩
      | E => exact ⟨_, rfl, by simp [hs], by simp [hs], by simp [hs], by simp [he, hs]⟩
    · cases c with
      | C => exact ⟨_, rfl, rfl, rfl, List.Sublist.refl _, by simp [hs]⟩
      | E => exact ⟨_, rfl, by simp [hs], by simp [hs], by simp [hs], by simp [hs, hm]⟩

/-- The listener takes its turn. -/
theorem Agreed.turn_listener (h : Agreed s x queue swapping) {buff rest : List Byte}
    (hf : fgets (s.shell x.other).stdin = some (buff, rest)) :
    ∃ y queue' swapping', Agreed (executeTurn s x.other buff rest n) y queue' swapping' := by
  obtain ⟨queue', rfl, hstream⟩ := takeChunk_flatten h.lines (by decide) (fgets_text hf) h.stream
  obtain ⟨k, he, hstdin, hcommands, hexecuted, hmode⟩ :=
    executeTurn_spec (n := n) x.other buff rest h.listener (h.lines _ List.mem_cons_self)
  rw [he]
  subst hstdin
  by_cases hs : Swap (text buff)
  · rw [if_pos hs] at hmode
    exact ⟨_, _, _, h.swapped hs hmode hstream hcommands hexecuted⟩
  · rw [if_neg hs] at hmode
    exact ⟨_, _, _, h.taken hmode hstream hcommands hexecuted⟩

theorem Agreed.turn (h : Agreed s x queue swapping) {c : Child}
    (hok : SwapEndsInput s (.turn c n)) (hs : turnStep s c n = some s') :
    ∃ y queue' swapping', Agreed s' y queue' swapping' := by
  unfold turnStep at hs
  split at hs
  · obtain ⟨⟨buff, rest⟩, hf, rfl⟩ := Option.map_eq_some_iff.mp hs
    rcases Child.eq_or_eq_other c x with rfl | rfl
    · cases swapping with
      | true =>
          -- a speaker that has stopped has an empty `stdin`
          rw [h.stopped rfl] at hf
          cases hf
      | false =>
          have hmode : (s.shell c).mode = .input := h.speaker
          simp only [hmode]
          refine ⟨c, _, _, h.turn_speaker hf fun hswap => ?_⟩
          exact hok hmode (buff, rest) hf hswap.1 hswap.2
    · simp only [h.listener]
      exact h.turn_listener hf
  · cases hs

/-- **Complementary roles.** The shells keep their roles in every run in which a child that sends
`swaprole` has nothing left in its `stdin`. -/
theorem complementary_when (s : State) (h : machine.ReachableWhen SwapEndsInput s) :
    Complementary s := by
  have hagreed : ∃ x queue swapping, Agreed s x queue swapping := by
    refine h.invariant (I := fun s => ∃ x queue swapping, Agreed s x queue swapping) ?_ ?_
    · rintro s ⟨terminal, -, rfl⟩
      exact ⟨_, _, _, agreed_start terminal⟩
    · rintro s a s' ⟨x, queue, swapping, hi⟩ hok hs
      cases a with
      | read c n =>
          rcases Child.eq_or_eq_other c x with rfl | rfl
          · exact ⟨_, _, _, hi.read_speaker hs⟩
          · exact ⟨_, _, _, hi.read_listener hs⟩
      | turn c n => exact hi.turn hok hs
  obtain ⟨x, queue, swapping, hi⟩ := hagreed
  exact hi.complementary

/-- `ls` and `swaprole`, typed at the terminal of child `C`. -/
theorem complementary_swap :
    ∃ s, ((s.shell .E).mode = .input ∧ (s.shell .E).executed = ["ls".toList])
      ∧ Complementary s := by
  obtain ⟨s, hr, hp⟩ : ∃ s, machine.ReachableWhen SwapEndsInput s
      ∧ decide ((s.shell .E).mode = .input ∧ (s.shell .E).executed = ["ls".toList]) = true :=
    Machine.exists_reachableWhen_of_execWhen
      (s := start fun c => if c = .C then "ls\nswaprole\n".toList else [])
      (l := [.read .C 3, .turn .C 0, .read .E 3, .turn .E 0, .read .C 9, .turn .C 0, .read .E 9,
        .turn .E 0])
      ⟨_, fun c => by cases c <;> decide, rfl⟩ (by decide +kernel)
  exact ⟨s, of_decide_eq_true hp, complementary_when s hr⟩

/-- A line with `swaprole` at its start and, after the first 98 bytes, at its end: child `C`
executes what is left of its own line, and both children come to be in command-input mode. -/
theorem both_in_input : ∃ s, machine.Reachable s
    ∧ ((s.shell .C).mode = .input ∧ (s.shell .E).mode = .input)
    ∧ ((s.shell .C).executed = ["swaprole".toList] ∧ (s.shell .E).commands = [])
    ∧ ¬ Complementary s := by
  obtain ⟨s, hr, hp⟩ := Machine.exists_reachable_of_exec (M := machine)
    (s := start fun c =>
      if c = .C then "swaprole".toList ++ List.replicate 90 'x' ++ "swaprole\n".toList else [])
    (l := [.read .C 107, .turn .C 0, .turn .C 0, .read .E 98, .turn .E 0])
    (p := fun s => decide (((s.shell .C).mode = .input ∧ (s.shell .E).mode = .input)
      ∧ ((s.shell .C).executed = ["swaprole".toList] ∧ (s.shell .E).commands = [])))
    ⟨_, fun c => by cases c <;> decide, rfl⟩ (by decide +kernel)
  obtain ⟨hmode, hrun⟩ := of_decide_eq_true hp
  exact ⟨s, hr, hmode, hrun, fun h => h.1 hmode⟩

end OSLab.Shells
