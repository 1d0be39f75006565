import OSLab.Paging.Mmu
import Mathlib.Data.List.GetD
import Mathlib.Data.Rat.Floor

set_option autoImplicit false

/-! # The frames `create_pcb` allots

`master.c` gives every process one frame and shares out the other `f - k` in proportion to the page
counts. The shares are rounded one by one, so they add up to `f - k` only by chance, and what is
missing or too much goes to the process with index `maxi`. The division is modelled as exact;
`round` rounds to the nearest integer, halves away from zero; an operation on `int`s whose result is
none has no value, and neither has a store past the page of memory that holds the `pcb`s.

The loop means `maxi` to be the index of a largest process, but compares the page counts with the
index and not with `max` (`maxi_largest_when`). The frame counts always add up to `f`; that nobody
goes without a frame is another matter (`createPcb_usable_iff`).
-/

namespace OSLab.Paging

/-- The result of an operation on `int`s, where it has one. -/
def intOf (z : Int) : Option Int := if -INT_MAX - 1 ≤ z ∧ z ≤ INT_MAX then some z else none

/-- `round` of the mathematics library. -/
def roundAway (q : ℚ) : Int := if 0 ≤ q then ⌊q + 1 / 2⌋ else ⌈q - 1 / 2⌉

/-- What `create_pcb` has done after some processes: their entries and its local variables. -/
structure AllotState where
  pcb : List Pcb
  sumAllocatedFrames : Int
  maxi : Nat
  max : Int
  deriving DecidableEq

/-- `sum_pages`, after the first loop. -/
def sumPages (ms : List Int) : Option Int := ms.foldlM (fun sum m => intOf (sum + m)) 0

/-- One iteration of the second loop, for a process with `m` pages. -/
def allotOne (room sum : Int) (s : AllotState) (m : Int) : Option AllotState := do
  let product ← intOf (m * room)
  let curAllocatedFrames ← intOf (1 + roundAway (product / sum))
  let sumAllocatedFrames ← intOf (s.sumAllocatedFrames + curAllocatedFrames)
  let larger : Bool := m > s.maxi
  pure
    { pcb := s.pcb ++ [⟨m, curAllocatedFrames, 0⟩]
      sumAllocatedFrames := sumAllocatedFrames
      maxi := if larger then s.pcb.length else s.maxi
      max := if larger then m else s.max }

/-- The `pcb`s there is room for: `shmget` is asked for `sizeof(pcb)`, which is 16, and gives a page
of 4096 bytes. -/
def pcbRoom : Nat := 4096 / 16

/-- Both loops, for `f` frames and processes with these page counts. -/
def allotment (f : Int) (ms : List Int) : Option AllotState := do
  guard (ms.length ≤ pcbRoom)
  let sum ← sumPages ms
  ms.foldlM (allotOne (f - ms.length) sum) ⟨[], 0, 0, 0⟩

def createPcb (f : Int) (ms : List Int) : Option (List Pcb) := do
  let s ← allotment f ms
  let rest ← intOf (f - s.sumAllocatedFrames)
  let frameCount ← intOf ((s.pcb.getD s.maxi ⟨0, 0, 0⟩).frameCount + rest)
  pure (s.pcb.modify s.maxi fun p => { p with frameCount := frameCount })

/-- The share of the room a process with `m` pages gets, before its own frame. -/
def share (room sum m : Int) : Int := roundAway ((m * room : Int) / sum)

/-- The `pcb` entry after the second loop. -/
def shareEntry (room sum m : Int) : Pcb := ⟨m, 1 + share room sum m, 0⟩

/-! ## The index `maxi` -/

/-- The indices `maxi` may take: `0`, and from an index the next one whose page count exceeds it. -/
inductive Climb (pages : Nat → Int) : Nat → Prop
  | start : Climb pages 0
  | next {i j : Nat} : Climb pages i → i < j → (i : Int) < pages j →
      (∀ x, i < x → x < j → pages x ≤ i) → Climb pages j

/-- The index where the climb comes to an end. -/
def Charged (pages : Nat → Int) (j : Nat) : Prop := Climb pages j ∧ ∀ x, j < x → pages x ≤ j

/-- The page counts by their index. -/
def pagesAt (ms : List Int) (i : Nat) : Int := ms.getD i 0

/-- `maxi` after the first `n` processes. -/
def maxiAfter (pages : Nat → Int) : Nat → Nat
  | 0 => 0
  | n + 1 => if (maxiAfter pages n : Int) < pages n then n else maxiAfter pages n

variable {pages : Nat → Int} {ms : List Int} {room sum f m : Int} {i j n : Nat}
  {s t : AllotState} {pcb : List Pcb}

/-- As long as no page count exceeds it, `maxi` stays. -/
theorem maxiAfter_stays (h : maxiAfter pages i = j) (hin : i ≤ n)
    (hle : ∀ x, i ≤ x → x < n → pages x ≤ j) : maxiAfter pages n = j := by
  induction n, hin using Nat.le_induction with
  | base => exact h
  | succ n hin ih =>
      have hn := ih fun x hx hxn => hle x hx (by omega)
      have hpages := hle n hin (Nat.lt_succ_self n)
      rw [maxiAfter, hn, if_neg (by omega)]

/-- An index of the climb is where `maxi` stands once the loop has passed it. -/
theorem Climb.maxiAfter_succ (h : Climb pages j) : maxiAfter pages (j + 1) = j := by
  induction h with
  | start => simp [maxiAfter]
  | next hi hij hlt hgap ih =>
      have hbefore := maxiAfter_stays ih hij fun x hx hxj => hgap x (by omega) hxj
      rw [maxiAfter, hbefore, if_pos hlt]

theorem climb_maxiAfter (pages : Nat → Int) (n : Nat) :
    Climb pages (maxiAfter pages n)
      ∧ (maxiAfter pages n < n ∨ maxiAfter pages n = 0)
      ∧ ∀ x, maxiAfter pages n < x → x < n → pages x ≤ maxiAfter pages n := by
  induction n with
  | zero => exact ⟨.start, .inr rfl, fun x _ hx => absurd hx (Nat.not_lt_zero x)⟩
  | succ n ih =>
      obtain ⟨hclimb, hlt, hle⟩ := ih
      rw [maxiAfter]
      split
      case isTrue hn =>
          refine ⟨?_, .inl (Nat.lt_succ_self n), fun x hx hxn => by omega⟩
          rcases Nat.eq_or_lt_of_le (show maxiAfter pages n ≤ n by omega) with heq | hlt
          · rwa [← heq]
          · exact .next hclimb hlt hn hle
      case isFalse hn =>
          refine ⟨hclimb, by omega, fun x hx hxn => ?_⟩
          rcases Nat.eq_or_lt_of_le (Nat.lt_succ_iff.mp hxn) with rfl | hxn
          · omega
          · exact hle x hx hxn

/-- **Where the loop ends** is where the climb comes to an end, and nowhere else. -/
theorem charged_iff : Charged (pagesAt ms) j ↔ j = maxiAfter (pagesAt ms) ms.length := by
  have hout : ∀ x, ms.length ≤ x → pagesAt ms x = 0 := fun x hx => List.getD_eq_default _ _ hx
  constructor
  · rintro ⟨hclimb, hend⟩
    symm
    rcases Nat.lt_or_ge j ms.length with hj | hj
    · exact maxiAfter_stays hclimb.maxiAfter_succ hj fun x hx _ => hend x hx
    · have hj0 : j = 0 := by
        cases hclimb with
        | start => rfl
        | next _ _ hlt _ =>
            rw [hout j hj] at hlt
            omega
      have hlen : ms.length = 0 := by omega
      rw [hj0, hlen, maxiAfter]
  · rintro rfl
    obtain ⟨hclimb, -, hle⟩ := climb_maxiAfter (pagesAt ms) ms.length
    refine ⟨hclimb, fun x hx => ?_⟩
    rcases Nat.lt_or_ge x ms.length with hxn | hxn
    · exact hle x hx hxn
    · rw [hout x hxn]
      exact Int.natCast_nonneg _

/-! ## The loops -/

theorem intOf_eq_some_iff {z y : Int} :
    intOf z = some y ↔ (-INT_MAX - 1 ≤ z ∧ z ≤ INT_MAX) ∧ y = z := by
  rw [intOf]
  split
  case isTrue h =>
      rw [Option.some.injEq, eq_comm]
      exact (and_iff_right h).symm
  case isFalse h => exact iff_of_false nofun fun hz => h hz.1

theorem intOf_of_range {z : Int} (h0 : 0 ≤ z) (h : z ≤ INT_MAX) : intOf z = some z :=
  intOf_eq_some_iff.mpr ⟨⟨by rw [INT_MAX]; omega, h⟩, rfl⟩

theorem share_nonneg (hroom : 0 ≤ room) (hsum : 0 ≤ sum) (hm : 0 ≤ m) :
    0 ≤ share room sum m := by
  have hproduct : (0 : ℚ) ≤ (m * room : Int) := by exact_mod_cast Int.mul_nonneg hm hroom
  have hquot : (0 : ℚ) ≤ (m * room : Int) / sum := div_nonneg hproduct (by exact_mod_cast hsum)
  rw [share, roundAway, if_pos hquot]
  exact Int.floor_nonneg.mpr (by linarith)

theorem shares_nonneg (hroom : 0 ≤ room) (hsum : 0 ≤ sum) (hms : ∀ m ∈ ms, 1 ≤ m) :
    0 ≤ (ms.map (share room sum)).sum := by
  apply List.sum_nonneg
  intro x hx
  obtain ⟨m, hm, rfl⟩ := List.mem_map.mp hx
  have := hms m hm
  exact share_nonneg hroom hsum (by omega)

/-- The page counts are added up as long as the sum is an `int`. -/
theorem foldlM_add_eq_some_iff : ∀ {ms : List Int} {sum total : Int}, (∀ m ∈ ms, 1 ≤ m) →
    0 ≤ sum → sum ≤ INT_MAX →
    (ms.foldlM (fun sum m => intOf (sum + m)) sum = some total
      ↔ sum + ms.sum ≤ INT_MAX ∧ total = sum + ms.sum)
  | [], sum, total, _, _, hle => by
      simp only [List.foldlM_nil, List.sum_nil, Int.add_zero]
      constructor
      · intro h
        exact ⟨hle, (Option.some.inj h).symm⟩
      · rintro ⟨-, rfl⟩
        rfl
  | m :: ms, sum, total, hms, h0, hle => by
      have hm := hms m List.mem_cons_self
      have hrest : ∀ m ∈ ms, 1 ≤ m := fun x hx => hms x (List.mem_cons_of_mem _ hx)
      have hnonneg : 0 ≤ ms.sum := List.sum_nonneg fun x hx => by have := hrest x hx; omega
      rw [List.foldlM_cons, List.sum_cons]
      constructor
      · intro h
        obtain ⟨next, hnext, h⟩ := Option.bind_eq_some_iff.mp h
        obtain ⟨⟨-, hfits⟩, rfl⟩ := intOf_eq_some_iff.mp hnext
        obtain ⟨hall, rfl⟩ := (foldlM_add_eq_some_iff hrest (by omega) hfits).mp h
        exact ⟨by omega, by omega⟩
      · rintro ⟨hall, rfl⟩
        have hnext : intOf (sum + m) = some (sum + m) := intOf_of_range (by omega) (by omega)
        refine Option.bind_eq_some_iff.mpr ⟨sum + m, hnext, ?_⟩
        exact (foldlM_add_eq_some_iff hrest (by omega) (by omega)).mpr ⟨by omega, by omega⟩

theorem sumPages_eq_some_iff (hms : ∀ m ∈ ms, 1 ≤ m) :
    sumPages ms = some sum ↔ ms.sum ≤ INT_MAX ∧ sum = ms.sum := by
  rw [sumPages, foldlM_add_eq_some_iff hms le_rfl (by decide)]
  simp only [Int.zero_add]

/-- The state after one more process, when all results are `int`s. -/
def AllotState.after (s : AllotState) (room sum m : Int) : AllotState where
  pcb := s.pcb ++ [shareEntry room sum m]
  sumAllocatedFrames := s.sumAllocatedFrames + (1 + share room sum m)
  maxi := if (s.maxi : Int) < m then s.pcb.length else s.maxi
  max := if (s.maxi : Int) < m then m else s.max

theorem allotOne_eq_some_iff (hroom : 0 ≤ room) (hsum : 0 ≤ sum) (hm : 1 ≤ m)
    (h0 : 0 ≤ s.sumAllocatedFrames) :
    allotOne room sum s m = some t
      ↔ m * room ≤ INT_MAX ∧ s.sumAllocatedFrames + (1 + share room sum m) ≤ INT_MAX
        ∧ t = s.after room sum m := by
  have hproduct : 0 ≤ m * room := Int.mul_nonneg (by omega) hroom
  have hshare := share_nonneg hroom hsum (m := m) (by omega)
  constructor
  · intro h
    obtain ⟨_, hp, h⟩ := Option.bind_eq_some_iff.mp h
    obtain ⟨⟨-, hproductLe⟩, rfl⟩ := intOf_eq_some_iff.mp hp
    obtain ⟨_, hc, h⟩ := Option.bind_eq_some_iff.mp h
    obtain ⟨-, rfl⟩ := intOf_eq_some_iff.mp hc
    obtain ⟨_, hs, h⟩ := Option.bind_eq_some_iff.mp h
    obtain ⟨⟨-, hsumLe⟩, rfl⟩ := intOf_eq_some_iff.mp hs
    refine ⟨hproductLe, hsumLe, (Option.some.inj h).symm.trans ?_⟩
    simp only [AllotState.after, shareEntry, share, gt_iff_lt, decide_eq_true_eq]
  · rintro ⟨hp, hs, rfl⟩
    have hproductInt := intOf_of_range hproduct hp
    have hcurInt : intOf (1 + roundAway ((m * room : Int) / sum)) = some (1 + share room sum m) :=
      intOf_of_range (by rw [← share]; omega) (by rw [← share]; omega)
    have hsumInt := intOf_of_range (z := s.sumAllocatedFrames + (1 + share room sum m))
      (by omega) hs
    simp only [allotOne, hproductInt, Option.bind_eq_bind, Option.bind_some, hcurInt, hsumInt,
      AllotState.after, shareEntry, gt_iff_lt, decide_eq_true_eq]
    rfl

/-- The frames for these processes, before the correction. -/
def sharedFrames (room sum : Int) (ms : List Int) : Int := (ms.map fun m => 1 + share room sum m).sum

theorem sharedFrames_eq : sharedFrames room sum ms = ms.length + (ms.map (share room sum)).sum := by
  induction ms with
  | nil => rfl
  | cons m ms ih =>
      rw [List.map_cons, List.sum_cons, List.length_cons]
      calc sharedFrames room sum (m :: ms)
          = 1 + share room sum m + sharedFrames room sum ms := by
            rw [sharedFrames, List.map_cons, List.sum_cons, ← sharedFrames]
        _ = 1 + share room sum m + (ms.length + (ms.map (share room sum)).sum) := by rw [ih]
        _ = (ms.length + 1 : Nat) + (share room sum m + (ms.map (share room sum)).sum) := by
            push_cast
            ring

/-- What the loop leaves, from a state with the entries of some processes: by induction on the
processes to come. -/
theorem allot_some (hroom : 0 ≤ room) (hsum : 0 ≤ sum) : ∀ {ms : List Int} {s : AllotState},
    (∀ m ∈ ms, 1 ≤ m) → 0 ≤ s.sumAllocatedFrames → s.sumAllocatedFrames ≤ INT_MAX →
    ms.foldlM (allotOne room sum) s = some t →
    (∀ m ∈ ms, m * room ≤ INT_MAX)
      ∧ s.sumAllocatedFrames + sharedFrames room sum ms ≤ INT_MAX
      ∧ t.pcb = s.pcb ++ ms.map (shareEntry room sum)
      ∧ t.sumAllocatedFrames = s.sumAllocatedFrames + sharedFrames room sum ms
  | [], s, _, _, hle, h => by
      obtain rfl := Option.some.inj h
      simp [sharedFrames, hle]
  | m :: ms, s, hms, h0, hle, h => by
      have hm := hms m List.mem_cons_self
      have hshare := share_nonneg hroom hsum (m := m) (by omega)
      rw [List.foldlM_cons] at h
      obtain ⟨next, hnext, h⟩ := Option.bind_eq_some_iff.mp h
      obtain ⟨hp, hs, rfl⟩ := (allotOne_eq_some_iff hroom hsum hm h0).mp hnext
      obtain ⟨hproducts, htotal, hpcb, hframes⟩ := allot_some hroom hsum
        (fun x hx => hms x (List.mem_cons_of_mem _ hx)) (s := s.after room sum m)
        (by simp only [AllotState.after]; omega) hs h
      simp only [AllotState.after] at htotal hpcb hframes
      have hcons : sharedFrames room sum (m :: ms)
          = 1 + share room sum m + sharedFrames room sum ms := rfl
      refine ⟨List.forall_mem_cons.mpr ⟨hp, hproducts⟩, by omega, ?_, by omega⟩
      rw [hpcb, List.append_assoc, List.singleton_append, List.map_cons]

/-- The loop comes to its end when all results are `int`s. -/
theorem allot_exists (hroom : 0 ≤ room) (hsum : 0 ≤ sum) : ∀ {ms : List Int} {s : AllotState},
    (∀ m ∈ ms, 1 ≤ m) → 0 ≤ s.sumAllocatedFrames → (∀ m ∈ ms, m * room ≤ INT_MAX) →
    s.sumAllocatedFrames + sharedFrames room sum ms ≤ INT_MAX →
    ∃ t, ms.foldlM (allotOne room sum) s = some t
  | [], s, _, _, _, _ => ⟨s, rfl⟩
  | m :: ms, s, hms, h0, hp, htotal => by
      have hm := hms m List.mem_cons_self
      have hrest : ∀ m ∈ ms, 1 ≤ m := fun x hx => hms x (List.mem_cons_of_mem _ hx)
      have hshare := share_nonneg hroom hsum (m := m) (by omega)
      have hshares := shares_nonneg hroom hsum hrest
      have hcons : sharedFrames room sum (m :: ms)
          = 1 + share room sum m + sharedFrames room sum ms := rfl
      have hframes : sharedFrames room sum ms = ms.length + (ms.map (share room sum)).sum :=
        sharedFrames_eq
      have hnext := (allotOne_eq_some_iff hroom hsum hm h0 (t := s.after room sum m)).mpr
        ⟨hp m List.mem_cons_self, by omega, rfl⟩
      obtain ⟨t, ht⟩ := allot_exists hroom hsum hrest (s := s.after room sum m)
        (by simp only [AllotState.after]; omega)
        (fun x hx => hp x (List.mem_cons_of_mem _ hx)) (by simp only [AllotState.after]; omega)
      refine ⟨t, ?_⟩
      rw [List.foldlM_cons]
      exact Option.bind_eq_some_iff.mpr ⟨_, hnext, ht⟩

/-- `maxi` goes its way whatever the shares are. -/
theorem allot_maxi (pages : Nat → Int) : ∀ {ms : List Int} {s : AllotState},
    (∀ i < ms.length, pages (s.pcb.length + i) = ms.getD i 0) →
    s.maxi = maxiAfter pages s.pcb.length →
    ms.foldlM (allotOne room sum) s = some t →
    t.maxi = maxiAfter pages (s.pcb.length + ms.length)
  | [], s, _, hmaxi, h => by
      obtain rfl := Option.some.inj h
      exact hmaxi
  | m :: ms, s, hpages, hmaxi, h => by
      rw [List.foldlM_cons] at h
      obtain ⟨next, hnext, h⟩ := Option.bind_eq_some_iff.mp h
      have hm : pages s.pcb.length = m := hpages 0 (Nat.succ_pos _)
      obtain ⟨_, -, hnext⟩ := Option.bind_eq_some_iff.mp hnext
      obtain ⟨cur, -, hnext⟩ := Option.bind_eq_some_iff.mp hnext
      obtain ⟨_, -, hnext⟩ := Option.bind_eq_some_iff.mp hnext
      obtain rfl := Option.some.inj hnext
      have hlen : (s.pcb ++ [Pcb.mk m cur 0]).length = s.pcb.length + 1 := by simp
      have hrest := allot_maxi pages ?_ ?_ h
      · rw [hrest, List.length_cons]
        simp only [hlen]
        congr 1
        omega
      · intro i hi
        have hnth := hpages (i + 1) (Nat.succ_lt_succ hi)
        simp only [hlen]
        rw [Nat.add_assoc, Nat.add_comm 1 i, hnth]
        rfl
      · simp only [hlen]
        rw [maxiAfter, hm, ← hmaxi]
        simp only [gt_iff_lt, decide_eq_true_eq]

theorem allotment_eq_some_iff : allotment f ms = some s ↔ ms.length ≤ pcbRoom
    ∧ ∃ sum, sumPages ms = some sum
      ∧ ms.foldlM (allotOne (f - ms.length) sum) ⟨[], 0, 0, 0⟩ = some s := by
  by_cases hroom : ms.length ≤ pcbRoom
  · simp [allotment, guard, hroom, Option.bind_eq_some_iff]
  · simp [allotment, guard, hroom]

/-- The index the second loop ends with. -/
theorem allotment_maxi (h : allotment f ms = some s) : s.maxi = maxiAfter (pagesAt ms) ms.length := by
  obtain ⟨-, sum, -, h⟩ := allotment_eq_some_iff.mp h
  have hmaxi := allot_maxi (pagesAt ms) (fun i _ => by rw [List.length_nil, Nat.zero_add]; rfl) rfl h
  rwa [List.length_nil, Nat.zero_add] at hmaxi

/-! ## The arguments -/

/-- What rounding adds to the exact share of a process with `m` pages, times `sum`: the remainder of
`m * room` is dropped, or made up to `sum` if it is half of it or more. -/
def roundGain (room sum m : Int) : Int :=
  let remainder := m * room % sum
  if 2 * remainder < sum then -remainder else sum - remainder

/-- The `pcb`s fit their page, and the results of `create_pcb` are `int`s: the page counts, the
products, and the frame counts, which are as many as there are frames but for the rounding. -/
structure InBounds (f : Int) (ms : List Int) : Prop where
  room : ms.length ≤ pcbRoom
  pages : ms.sum ≤ INT_MAX
  products : ∀ m ∈ ms, m * (f - ms.length) ≤ INT_MAX
  frames : f * ms.sum + (ms.map (roundGain (f - ms.length) ms.sum)).sum ≤ INT_MAX * ms.sum

/-- The shares of all the processes but one. -/
def otherShares (f : Int) (ms : List Int) (j : Nat) : Int :=
  ((ms.eraseIdx j).map (share (f - ms.length) ms.sum)).sum

/-- Arguments `main` lets through, for `k` page counts. -/
structure Arguments (f : Int) (ms : List Int) : Prop where
  some_process : 1 ≤ ms.length
  enough : ms.length ≤ f
  int : f ≤ INT_MAX
  pages : ∀ m ∈ ms, 1 ≤ m

theorem Arguments.room_nonneg (h : Arguments f ms) : 0 ≤ f - ms.length := by
  have := h.enough
  omega

theorem Arguments.sum_nonneg (h : Arguments f ms) : 0 ≤ ms.sum :=
  List.sum_nonneg fun m hm => by
    have := h.pages m hm
    omega

theorem Arguments.sum_pos (h : Arguments f ms) : 0 < ms.sum := by
  obtain ⟨m, hm⟩ := List.exists_mem_of_length_pos h.some_process
  have hle := List.single_le_sum (fun x hx => by have := h.pages x hx; omega) m hm
  have := h.pages m hm
  omega

theorem Arguments.others_nonneg (h : Arguments f ms) (j : Nat) : 0 ≤ otherShares f ms j :=
  shares_nonneg h.room_nonneg h.sum_nonneg fun m hm => h.pages m (List.mem_of_mem_eraseIdx hm)

/-- One process and the others. -/
theorem sum_shares_eq (f : Int) (hj : j < ms.length) :
    (ms.map (share (f - ms.length) ms.sum)).sum
      = share (f - ms.length) ms.sum ms[j] + otherShares f ms j := by
  have hperm := (List.getElem_cons_eraseIdx_perm hj).map (share (f - ms.length) ms.sum)
  calc (ms.map (share (f - ms.length) ms.sum)).sum
      = ((ms[j] :: ms.eraseIdx j).map (share (f - ms.length) ms.sum)).sum := hperm.sum_eq.symm
    _ = share (f - ms.length) ms.sum ms[j] + otherShares f ms j := by
        rw [List.map_cons, List.sum_cons, otherShares]

theorem charged_lt (h : Charged (pagesAt ms) j) (hlen : 1 ≤ ms.length) : j < ms.length := by
  have hmaxi := climb_maxiAfter (pagesAt ms) ms.length
  rw [← charged_iff.mp h] at hmaxi
  omega

/-! ## The rounding -/

/-- The nearest integer of a quotient, in integers. -/
theorem roundAway_div {a z : Int} (ha : 0 ≤ a) (hsum : 0 < sum) (hlow : 2 * sum * z ≤ 2 * a + sum)
    (hhigh : 2 * a + sum < 2 * sum * (z + 1)) : roundAway ((a : ℚ) / sum) = z := by
  have hpos : (0 : ℚ) < sum := by exact_mod_cast hsum
  have hquot : (0 : ℚ) ≤ (a : ℚ) / sum := div_nonneg (by exact_mod_cast ha) hpos.le
  have hhalf : (a : ℚ) / sum + 1 / 2 = (2 * a + sum) / (2 * sum) := by
    field_simp
  have htwice : (0 : ℚ) < 2 * sum := by linarith
  rw [roundAway, if_pos hquot, hhalf, Int.floor_eq_iff]
  constructor
  · rw [le_div_iff₀ htwice]
    have hcast : (2 * sum * z : ℚ) ≤ 2 * a + sum := by exact_mod_cast hlow
    linarith
  · rw [div_lt_iff₀ htwice]
    have hcast : (2 * a + sum : ℚ) < 2 * sum * (z + 1) := by exact_mod_cast hhigh
    linarith

/-- A rounded share is the exact one and the gain. -/
theorem share_mul_sum (hroom : 0 ≤ room) (hsum : 0 < sum) (hm : 0 ≤ m) :
    share room sum m * sum = m * room + roundGain room sum m := by
  have hproduct : 0 ≤ m * room := Int.mul_nonneg hm hroom
  have hdiv := Int.emod_add_mul_ediv (m * room) sum
  have hnonneg := Int.emod_nonneg (m * room) hsum.ne'
  have hlt := Int.emod_lt_of_pos (m * room) hsum
  rw [share]
  simp only [roundGain]
  split
  case isTrue hdown =>
    have hshare : roundAway ((m * room : Int) / sum) = m * room / sum :=
      roundAway_div hproduct hsum (by linarith) (by linarith)
    rw [hshare]
    linarith
  case isFalse hup =>
    have hshare : roundAway ((m * room : Int) / sum) = m * room / sum + 1 :=
      roundAway_div hproduct hsum (by linarith) (by linarith)
    rw [hshare]
    linarith

theorem shares_mul_sum (hroom : 0 ≤ room) (hsum : 0 < sum) : ∀ {ms : List Int},
    (∀ m ∈ ms, 1 ≤ m) → (ms.map (share room sum)).sum * sum
      = ms.sum * room + (ms.map (roundGain room sum)).sum
  | [], _ => by simp
  | m :: ms, hms => by
      have hm := hms m List.mem_cons_self
      have hone := share_mul_sum hroom hsum (m := m) (by omega)
      have hrest := shares_mul_sum hroom hsum fun x hx => hms x (List.mem_cons_of_mem m hx)
      simp only [List.map_cons, List.sum_cons]
      linarith

/-- The frame counts are `int`s: with the rounded shares, and with what rounding adds. -/
theorem frames_le_iff (h : Arguments f ms) :
    ms.length + (ms.map (share (f - ms.length) ms.sum)).sum ≤ INT_MAX
      ↔ f * ms.sum + (ms.map (roundGain (f - ms.length) ms.sum)).sum ≤ INT_MAX * ms.sum := by
  have hshares := shares_mul_sum h.room_nonneg h.sum_pos h.pages
  rw [← mul_le_mul_iff_left₀ h.sum_pos, add_mul, hshares]
  constructor <;> intro hle <;> linarith

/-- The shares of the others leave a frame to process `j`: with the rounded shares, and with what
rounding adds to them. -/
theorem otherShares_le_iff (h : Arguments f ms) (hj : j < ms.length) :
    otherShares f ms j ≤ f - ms.length
      ↔ ((ms.eraseIdx j).map (roundGain (f - ms.length) ms.sum)).sum
        ≤ pagesAt ms j * (f - ms.length) := by
  have hothers : ((ms.eraseIdx j).map (share (f - ms.length) ms.sum)).sum * ms.sum
      = (ms.eraseIdx j).sum * (f - ms.length)
        + ((ms.eraseIdx j).map (roundGain (f - ms.length) ms.sum)).sum :=
    shares_mul_sum h.room_nonneg h.sum_pos fun m hm => h.pages m (List.mem_of_mem_eraseIdx hm)
  have hsum : ms.sum = ms[j] + (ms.eraseIdx j).sum := by
    rw [← (List.getElem_cons_eraseIdx_perm hj).sum_eq, List.sum_cons]
  have hpages : pagesAt ms j = ms[j] := List.getD_eq_getElem _ _ hj
  have hrest : (ms.eraseIdx j).sum = ms.sum - ms[j] := by omega
  rw [← mul_le_mul_iff_left₀ h.sum_pos, otherShares, hothers, hpages, hrest]
  constructor <;> intro hle <;> linarith

/-! ## The frame counts -/

/-- The loops come to their end just when they stay in bounds. -/
theorem allotment_some_iff (h : Arguments f ms) : (∃ s, allotment f ms = some s) ↔ InBounds f ms := by
  constructor
  · rintro ⟨s, hs⟩
    obtain ⟨hroom, sum, hsum, hs⟩ := allotment_eq_some_iff.mp hs
    obtain ⟨hpages, rfl⟩ := (sumPages_eq_some_iff h.pages).mp hsum
    obtain ⟨hproducts, htotal, -⟩ :=
      allot_some h.room_nonneg h.sum_nonneg h.pages le_rfl (by decide) hs
    rw [sharedFrames_eq, Int.zero_add] at htotal
    exact ⟨hroom, hpages, hproducts, (frames_le_iff h).mp htotal⟩
  · rintro ⟨hroom, hpages, hproducts, htotal⟩
    have hsum := (sumPages_eq_some_iff h.pages).mpr ⟨hpages, rfl⟩
    obtain ⟨s, hs⟩ := allot_exists h.room_nonneg h.sum_nonneg (s := ⟨[], 0, 0, 0⟩) h.pages le_rfl
      hproducts (by rw [sharedFrames_eq, Int.zero_add]; exact (frames_le_iff h).mpr htotal)
    exact ⟨s, allotment_eq_some_iff.mpr ⟨hroom, _, hsum, hs⟩⟩

theorem allotment_pcb (h : Arguments f ms) (hs : allotment f ms = some s) :
    s.pcb = ms.map (shareEntry (f - ms.length) ms.sum)
      ∧ s.sumAllocatedFrames = ms.length + (ms.map (share (f - ms.length) ms.sum)).sum := by
  obtain ⟨-, sum, hsum, hs⟩ := allotment_eq_some_iff.mp hs
  obtain ⟨-, rfl⟩ := (sumPages_eq_some_iff h.pages).mp hsum
  obtain ⟨-, -, hpcb, hframes⟩ :=
    allot_some h.room_nonneg h.sum_nonneg h.pages le_rfl (by decide) hs
  rw [sharedFrames_eq, Int.zero_add] at hframes
  exact ⟨hpcb, hframes⟩

/-- The process that is charged ends up with what the others leave. -/
theorem createPcb_eq_some_iff (h : Arguments f ms) (hj : Charged (pagesAt ms) j) :
    createPcb f ms = some pcb ↔ InBounds f ms
      ∧ pcb = (ms.map (shareEntry (f - ms.length) ms.sum)).modify j
        fun p => { p with frameCount := 1 + (f - ms.length) - otherShares f ms j } := by
  have hlt := charged_lt hj h.some_process
  -- what the correction works on, once the loops are through
  have key : ∀ s, allotment f ms = some s → s.maxi = j
      ∧ f - s.sumAllocatedFrames = f - ms.length - share (f - ms.length) ms.sum ms[j]
          - otherShares f ms j
      ∧ (s.pcb.getD s.maxi ⟨0, 0, 0⟩).frameCount = 1 + share (f - ms.length) ms.sum ms[j] := by
    intro s hs
    obtain ⟨hpcb, hframes⟩ := allotment_pcb h hs
    have hmaxi : s.maxi = j := (allotment_maxi hs).trans (charged_iff.mp hj).symm
    refine ⟨hmaxi, by rw [hframes, sum_shares_eq f hlt]; ring, ?_⟩
    rw [hpcb, hmaxi, List.getD_eq_getElem _ _ (by rwa [List.length_map]), List.getElem_map]
    rfl
  have hshare := share_nonneg h.room_nonneg h.sum_nonneg (m := ms[j])
    (by have := h.pages _ (List.getElem_mem hlt); omega)
  have hothers := h.others_nonneg j
  have hroom := h.room_nonneg
  have hint := h.int
  constructor
  · intro hc
    obtain ⟨s, hs, hc⟩ := Option.bind_eq_some_iff.mp hc
    obtain ⟨hmaxi, hrest, hcount⟩ := key s hs
    obtain ⟨_, hr, hc⟩ := Option.bind_eq_some_iff.mp hc
    obtain ⟨-, rfl⟩ := intOf_eq_some_iff.mp hr
    obtain ⟨_, hf, hc⟩ := Option.bind_eq_some_iff.mp hc
    obtain ⟨-, rfl⟩ := intOf_eq_some_iff.mp hf
    refine ⟨(allotment_some_iff h).mp ⟨s, hs⟩, (Option.some.inj hc).symm.trans ?_⟩
    rw [hrest, hcount, hmaxi, (allotment_pcb h hs).1]
    congr 1
    funext p
    congr 1
    ring
  · rintro ⟨hfits, rfl⟩
    obtain ⟨s, hs⟩ := (allotment_some_iff h).mpr hfits
    obtain ⟨hmaxi, hrest, hcount⟩ := key s hs
    have htotal := (frames_le_iff h).mpr hfits.frames
    rw [sum_shares_eq f hlt] at htotal
    have hlen := h.some_process
    have hr : intOf (f - s.sumAllocatedFrames) = some (f - s.sumAllocatedFrames) :=
      intOf_eq_some_iff.mpr ⟨by omega, rfl⟩
    have hf : intOf ((s.pcb.getD s.maxi ⟨0, 0, 0⟩).frameCount + (f - s.sumAllocatedFrames))
        = some (1 + (f - ms.length) - otherShares f ms j) :=
      intOf_eq_some_iff.mpr ⟨by omega, by rw [hrest, hcount]; ring⟩
    refine Option.bind_eq_some_iff.mpr ⟨s, hs, ?_⟩
    refine Option.bind_eq_some_iff.mpr ⟨_, hr, ?_⟩
    refine Option.bind_eq_some_iff.mpr ⟨_, hf, ?_⟩
    rw [(allotment_pcb h hs).1, hmaxi]
    rfl

/-- An entry is worked on, the others stay. -/
theorem modify_perm {α : Type} (l : List α) (g : α → α) (hj : j < l.length) :
    (l.modify j g).Perm (g l[j] :: l.eraseIdx j) := by
  have hperm := List.getElem_cons_eraseIdx_perm (l := l.modify j g) (n := j) (by simpa using hj)
  rw [List.getElem_modify_eq, List.eraseIdx_modify_of_eq] at hperm
  exact hperm.symm

/-- Usable or not, the array is one the MMU is started with. -/
theorem createPcb_pcbArray {m : Nat} (h : Arguments f ms) (hm : ∀ p ∈ ms, p ≤ m)
    (hc : createPcb f ms = some pcb) : PcbArray ms.length m pcb := by
  have hj : Charged (pagesAt ms) (maxiAfter (pagesAt ms) ms.length) := charged_iff.mpr rfl
  obtain ⟨-, rfl⟩ := (createPcb_eq_some_iff h hj).mp hc
  have hentry : ∀ p ∈ ms.map (shareEntry (f - ms.length) ms.sum),
      1 ≤ p.m ∧ p.m ≤ m ∧ p.frameAllocated = 0 := by
    intro p hp
    obtain ⟨x, hx, rfl⟩ := List.mem_map.mp hp
    exact ⟨h.pages x hx, hm x hx, rfl⟩
  have hlt := charged_lt hj h.some_process
  have hlen : maxiAfter (pagesAt ms) ms.length
      < (ms.map (shareEntry (f - ms.length) ms.sum)).length := by rwa [List.length_map]
  refine ⟨by rw [List.length_modify, List.length_map], fun p hp => ?_⟩
  rcases List.mem_cons.mp ((modify_perm _ _ hlen).mem_iff.mp hp) with rfl | hp
  · have hcharged := hentry _ (List.getElem_mem hlen)
    exact hcharged
  · exact hentry p (List.mem_of_mem_eraseIdx hp)

/-- The frames of the others, with the one frame each. -/
theorem sum_otherFrames (f : Int) (hj : j < ms.length) :
    (((ms.eraseIdx j).map (shareEntry (f - ms.length) ms.sum)).map Pcb.frameCount).sum
      = ms.length - 1 + otherShares f ms j := by
  have hlen := List.length_eraseIdx_add_one hj
  calc (((ms.eraseIdx j).map (shareEntry (f - ms.length) ms.sum)).map Pcb.frameCount).sum
      = sharedFrames (f - ms.length) ms.sum (ms.eraseIdx j) := by
        rw [List.map_map]
        rfl
    _ = (ms.eraseIdx j).length + otherShares f ms j := sharedFrames_eq
    _ = ms.length - 1 + otherShares f ms j := by omega

/-- **When the allotment is usable**: `create_pcb` stays in bounds, and rounding adds no more to the
shares of the others than the exact share of the process that is charged. -/
theorem createPcb_usable_iff (f : Int) (ms : List Int) (h : Arguments f ms) :
    (∃ pcb, createPcb f ms = some pcb ∧ (pcb.map Pcb.frameCount).sum = f
        ∧ ∀ p ∈ pcb, 1 ≤ p.frameCount)
      ↔ InBounds f ms ∧ ∃ j, Charged (pagesAt ms) j
        ∧ ((ms.eraseIdx j).map (roundGain (f - ms.length) ms.sum)).sum
          ≤ pagesAt ms j * (f - ms.length) := by
  have hj : Charged (pagesAt ms) (maxiAfter (pagesAt ms) ms.length) := charged_iff.mpr rfl
  generalize maxiAfter (pagesAt ms) ms.length = j at hj
  have hlt := charged_lt hj h.some_process
  have hperm := modify_perm (ms.map (shareEntry (f - ms.length) ms.sum))
    (fun p => { p with frameCount := 1 + (f - ms.length) - otherShares f ms j })
    (by rwa [List.length_map])
  rw [List.eraseIdx_map] at hperm
  constructor
  · rintro ⟨pcb, hpcb, -, hpos⟩
    obtain ⟨hfits, rfl⟩ := (createPcb_eq_some_iff h hj).mp hpcb
    have hcharged := hpos _ (hperm.mem_iff.mpr List.mem_cons_self)
    refine ⟨hfits, j, hj, (otherShares_le_iff h hlt).mp ?_⟩
    simp only at hcharged
    omega
  · rintro ⟨hfits, i, hi, hgains⟩
    obtain rfl : i = j := (charged_iff.mp hi).trans (charged_iff.mp hj).symm
    have hothers := (otherShares_le_iff h hlt).mpr hgains
    refine ⟨_, (createPcb_eq_some_iff h hj).mpr ⟨hfits, rfl⟩, ?_, ?_⟩
    · rw [(hperm.map Pcb.frameCount).sum_eq, List.map_cons, List.sum_cons, sum_otherFrames f hlt]
      ring
    · intro p hp
      rcases List.mem_cons.mp (hperm.mem_iff.mp hp) with rfl | hp
      · simp only
        omega
      · obtain ⟨m, hm, rfl⟩ := List.mem_map.mp hp
        have hpages := h.pages m (List.mem_of_mem_eraseIdx hm)
        have hshare := share_nonneg h.room_nonneg h.sum_nonneg (m := m) (by omega)
        simp only [shareEntry]
        omega

/-- Seven frames for two pages, one and three: the second share is rounded up, the first down. -/
theorem createPcb_usable_three :
    ∃ pcb, createPcb 7 [2, 1, 3] = some pcb ∧ (pcb.map Pcb.frameCount).sum = 7
      ∧ ∀ p ∈ pcb, 1 ≤ p.frameCount :=
  (createPcb_usable_iff 7 [2, 1, 3] ⟨by decide, by decide, by decide, by decide⟩).mpr
    ⟨⟨by decide, by decide, by decide, by decide⟩, 2, charged_iff.mpr (by decide), by decide⟩

/-- **A process goes without a frame**: four processes of one page each and six frames. -/
theorem allotment_starves :
    ¬ ∀ (f : Int) (ms : List Int), Arguments f ms →
      ∃ pcb, createPcb f ms = some pcb ∧ (pcb.map Pcb.frameCount).sum = f
        ∧ ∀ p ∈ pcb, 1 ≤ p.frameCount := by
  intro h
  obtain ⟨pcb, hpcb, -, hpos⟩ :=
    h 6 [1, 1, 1, 1] ⟨by decide, by decide, by decide, by decide⟩
  have heval : createPcb 6 [1, 1, 1, 1]
      = some [⟨1, 2, 0⟩, ⟨1, 0, 0⟩, ⟨1, 2, 0⟩, ⟨1, 2, 0⟩] := by decide +kernel
  obtain rfl := Option.some.inj (heval.symm.trans hpcb)
  exact absurd (hpos ⟨1, 0, 0⟩ (by simp)) (by decide)

/-! ## A largest process -/

/-- Process `p` is the first one with a largest page count among the first `n`. -/
def FirstLargest (pages : Nat → Int) (n p : Nat) : Prop :=
  (∀ x < n, pages x ≤ pages p) ∧ ∀ x < p, pages x < pages p

/-- A comparison with the index comes out as the one with the largest page count so far. -/
def ComparesRight (ms : List Int) : Prop :=
  ∀ i < ms.length, ∀ p < i, FirstLargest (pagesAt ms) i p →
    ((p : Int) < pagesAt ms i ↔ pagesAt ms p < pagesAt ms i)

/-- Process `j` is a largest one, its page count is no less than its index, and no process after it has
more pages than that index. -/
structure HoldsPlace (ms : List Int) (j : Nat) : Prop where
  largest : ∀ i, pagesAt ms i ≤ pagesAt ms j
  reached : (j : Int) ≤ pagesAt ms j
  kept : ∀ i, j < i → pagesAt ms i ≤ j

theorem maxiAfter_of_comparesRight (hright : ComparesRight ms) {n : Nat} (hn : 1 ≤ n)
    (hlen : n ≤ ms.length) :
    maxiAfter (pagesAt ms) n < n
      ∧ FirstLargest (pagesAt ms) n (maxiAfter (pagesAt ms) n) := by
  induction n, hn using Nat.le_induction with
  | base =>
      have hfirst : maxiAfter (pagesAt ms) 1 = 0 := by simp [maxiAfter]
      rw [hfirst]
      exact ⟨Nat.one_pos, fun x hx => by rw [Nat.lt_one_iff.mp hx], fun x hx => by omega⟩
  | succ n hn ih =>
      obtain ⟨hlt, hfirst⟩ := ih (by omega)
      have hcompare := hright n (by omega) _ hlt hfirst
      rw [maxiAfter]
      split
      case isTrue hgt =>
        have hmore := hcompare.mp hgt
        have hbefore : ∀ x < n, pagesAt ms x < pagesAt ms n := fun x hx =>
          (hfirst.1 x hx).trans_lt hmore
        refine ⟨Nat.lt_succ_self n, fun x hx => ?_, hbefore⟩
        rcases Nat.lt_succ_iff_lt_or_eq.mp hx with hx | rfl
        · exact (hbefore x hx).le
        · exact le_rfl
      case isFalse hle =>
        refine ⟨by omega, fun x hx => ?_, hfirst.2⟩
        rcases Nat.lt_succ_iff_lt_or_eq.mp hx with hx | rfl
        · exact hfirst.1 x hx
        · exact not_lt.mp fun hmore => hle (hcompare.mpr hmore)

/-- The loop stops at a largest process that holds its place. -/
theorem maxiAfter_of_holdsPlace (h : HoldsPlace ms j) (hj : j < ms.length)
    (hpos : 1 ≤ pagesAt ms j) : maxiAfter (pagesAt ms) ms.length = j := by
  have hreached : (maxiAfter (pagesAt ms) j : Int) < pagesAt ms j := by
    have := h.reached
    rcases (climb_maxiAfter (pagesAt ms) j).2.1 with hlt | hzero <;> omega
  have hat : maxiAfter (pagesAt ms) (j + 1) = j := by rw [maxiAfter, if_pos hreached]
  exact maxiAfter_stays hat hj fun x hx _ => h.kept x hx

/-- **When the remainder goes to a largest process**: when the comparisons come out as they should, or
a largest process holds its place. With no more processes than a largest one has pages, it is the only
way. -/
theorem maxi_largest_when (f : Int) (ms : List Int) (h : Arguments f ms) :
    (InBounds f ms → (ComparesRight ms ∨ ∃ j, HoldsPlace ms j) →
        ∃ s, allotment f ms = some s ∧ ∀ i, pagesAt ms i ≤ pagesAt ms s.maxi)
      ∧ ((∃ i, (ms.length : Int) ≤ pagesAt ms i) →
        (∃ s, allotment f ms = some s ∧ ∀ i, pagesAt ms i ≤ pagesAt ms s.maxi) →
          InBounds f ms ∧ ∃ j, HoldsPlace ms j) := by
  have hout : ∀ i, ms.length ≤ i → pagesAt ms i = 0 := fun i hi => List.getD_eq_default _ _ hi
  have hfirst : 1 ≤ pagesAt ms 0 := by
    rw [pagesAt, List.getD_eq_getElem _ _ h.some_process]
    exact h.pages _ (List.getElem_mem _)
  refine ⟨fun hbounds hcase => ?_, fun ⟨i, hi⟩ ⟨s, hs, hlargest⟩ => ?_⟩
  · obtain ⟨s, hs⟩ := (allotment_some_iff h).mpr hbounds
    refine ⟨s, hs, ?_⟩
    rw [allotment_maxi hs]
    rcases hcase with hright | ⟨j, hj⟩
    · obtain ⟨hlt, hfirstLargest⟩ := maxiAfter_of_comparesRight hright h.some_process le_rfl
      intro i
      rcases Nat.lt_or_ge i ms.length with hi | hi
      · exact hfirstLargest.1 i hi
      · have hpos := hfirstLargest.1 0 h.some_process
        rw [hout i hi]
        omega
    · have hpos : 1 ≤ pagesAt ms j := hfirst.trans (hj.largest 0)
      have hlt : j < ms.length := by
        by_contra hge
        rw [hout j (by omega)] at hpos
        omega
      rw [maxiAfter_of_holdsPlace hj hlt hpos]
      exact hj.largest
  · obtain ⟨-, hlt, hkept⟩ := climb_maxiAfter (pagesAt ms) ms.length
    rw [allotment_maxi hs] at hlargest
    refine ⟨(allotment_some_iff h).mp ⟨s, hs⟩, _, hlargest, ?_, fun x hx => ?_⟩
    · -- the index is below the number of processes, which no largest page count is
      have hsome := h.some_process
      have hmany := hi.trans (hlargest i)
      omega
    · rcases Nat.lt_or_ge x ms.length with hxn | hxn
      · exact hkept x hx hxn
      · rw [hout x hxn]
        exact Int.natCast_nonneg _

/-- The second process is the largest of three. -/
theorem maxi_largest_second :
    ∃ s, allotment 9 [1, 4, 1] = some s ∧ ∀ i, pagesAt [1, 4, 1] i ≤ pagesAt [1, 4, 1] s.maxi := by
  refine (maxi_largest_when 9 [1, 4, 1] ⟨by decide, by decide, by decide, by decide⟩).1
    ⟨by decide, by decide, by decide, by decide⟩ (.inr ⟨1, ?_, by decide, ?_⟩)
  · intro i
    rcases i with _ | _ | _ | i <;> simp [pagesAt]
  · intro i hi
    rcases i with _ | _ | _ | i <;> simp_all [pagesAt]

/-- **The index is compared, not the largest page count so far.** -/
theorem maxi_not_largest :
    ¬ ∀ (f : Int) (ms : List Int) (s : AllotState), 1 ≤ ms.length → ms.length ≤ f →
      (∀ m ∈ ms, 1 ≤ m) → allotment f ms = some s →
      ∀ i, pagesAt ms i ≤ pagesAt ms s.maxi := by
  intro h
  have hlargest := h 2 [3, 1] ⟨[⟨3, 1, 0⟩, ⟨1, 1, 0⟩], 2, 1, 1⟩ (by decide) (by decide)
    (by decide) (by decide +kernel) 0
  exact absurd hlargest (by decide)

end OSLab.Paging
