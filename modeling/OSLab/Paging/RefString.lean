import OSLab.Paging.Mmu
import OSLab.Lib.Text
import Mathlib.Data.Rat.Floor

set_option autoImplicit false

/-! # The reference strings

`create_processes` draws the page references of a process and prints them, each with a bar after it,
into a buffer sized by the bound `m` on the page counts; `process_ref_string` cuts the string into
tokens and stores their values in `page_number`, an array of fixed size. Both are modelled with a
check of the bounds, `sprintf` with room for its closing `'\0'`. `rand` gives the results of
`rand()`, and the quotient that is compared with `INVALID_PAGE_PROBABILITY` is modelled as exact.

What is stored is what was printed (`processRefString_refText`), as far as the array goes. The
buffer is always large enough, but the number of references grows with the page count of the
process, and nobody compares it with `MAX_PAGES` (`refString_fits_iff`).
-/

namespace OSLab.Paging

open Text (decimal atoi strtok strtok_length_lt IsInt)

/-! ## `process_ref_string` -/

def MAX_PAGES : Nat := 1024

/-- The variables `page_number` and `total_pages`. -/
structure RefTable where
  pageNumber : Nat → Int
  totalPages : Nat

/-- `page_number[total_pages++] = page`. -/
def RefTable.store (s : RefTable) (page : Int) : Option RefTable :=
  if s.totalPages < MAX_PAGES then
    some ⟨Function.update s.pageNumber s.totalPages page, s.totalPages + 1⟩
  else none

/-- The loop over the tokens, on what is left of the string. -/
def storeTokens (l : List Char) (s : RefTable) : Option RefTable :=
  match h : strtok '|' l with
  | none => some s
  | some (tok, rest) =>
      have : rest.length < l.length := strtok_length_lt h
      (s.store (atoi tok)).bind fun s => storeTokens rest s
termination_by l.length

/-- The global variables are zero at the start. -/
def processRefString (refString : List Char) : Option RefTable :=
  storeTokens refString ⟨fun _ => 0, 0⟩

/-! ## `create_processes` -/

/-- What `"%d|"` prints for each page. -/
def refText (pages : List Int) : List Char := pages.flatMap fun page => decimal page ++ ['|']

/-- `sprintf(ref_str + off_set, "%d|", page)` in a buffer of `size` bytes. -/
def sprintfRef (size : Nat) (refStr : List Char) (page : Int) : Option (List Char) :=
  let refStr := refStr ++ (decimal page ++ ['|'])
  if refStr.length + 1 ≤ size then some refStr else none

def INVALID_PAGE_PROBABILITY : ℚ := 2 / 100

/-- One page reference, and how often `rand()` has been called after it. -/
def drawPage (m mi : Nat) (rand : Nat → Nat) (calls : Nat) : Int × Nat :=
  let page : Int := (rand calls % mi : Nat)
  if ((1 + rand (calls + 1) % 100 : Nat) : ℚ) / 100 < INVALID_PAGE_PROBABILITY then
    ((mi + rand (calls + 2) % (10 * m) : Nat), calls + 3)
  else (page, calls + 2)

/-- The loop, with so many references to go. -/
def drawRefs (m mi : Nat) (rand : Nat → Nat) : Nat → Nat → List Char → Option (List Char × Nat)
  | 0, calls, refStr => some (refStr, calls)
  | togo + 1, calls, refStr => do
      let (page, calls) := drawPage m mi rand calls
      let refStr ← sprintfRef (m * 20 * 40) refStr page
      drawRefs m mi rand togo calls refStr

/-- `ref_str` for a process with `mi` pages, when `rand()` has been called so many times. -/
def createRefString (m mi : Nat) (rand : Nat → Nat) (calls : Nat) : Option (List Char × Nat) :=
  let refStrLen := 1 + 2 * mi + rand calls % (8 * mi)
  drawRefs m mi rand refStrLen (calls + 1) []

variable {m mi calls : Nat} {rand : Nat → Nat} {pages done : List Int} {page : Int}

/-! ## What is printed is stored -/

theorem storeTokens_nil (s : RefTable) : storeTokens [] s = some s := by
  rw [storeTokens]
  rfl

/-- The next token. -/
theorem storeTokens_token (h : IsInt page) (rest : List Char) (s : RefTable) :
    storeTokens (decimal page ++ '|' :: rest) s
      = (s.store page).bind fun s => storeTokens rest s := by
  have htok := Text.strtok_token (Text.decimal_ne_nil page)
    (Text.not_mem_decimal page (c := '|') rfl (by decide)) rest
  have hatoi := Text.atoi_decimal h Text.noDigit_nil
  rw [List.append_nil] at hatoi
  rw [storeTokens]
  split
  case h_1 hnone =>
    rw [htok] at hnone
    cases hnone
  case h_2 tok rest' hsome =>
    rw [htok] at hsome
    obtain ⟨rfl, rfl⟩ := Prod.mk.inj (Option.some.inj hsome)
    rw [hatoi]

/-- **Decoding the text** stores the pages one after the other. -/
theorem storeTokens_refText (h : ∀ page ∈ pages, IsInt page) (s : RefTable) :
    storeTokens (refText pages) s = pages.foldlM RefTable.store s := by
  induction pages generalizing s with
  | nil => exact storeTokens_nil s
  | cons page pages ih =>
      have hrest := ih fun p hp => h p (List.mem_cons_of_mem page hp)
      have htext : refText (page :: pages) = decimal page ++ '|' :: refText pages := by
        rw [refText, List.flatMap_cons, List.append_assoc]
        rfl
      rw [htext, storeTokens_token (h page List.mem_cons_self), List.foldlM_cons]
      simp only [hrest]
      rfl

/-- The pages that fit the array. -/
theorem foldlM_store (s : RefTable) (pages : List Int)
    (h : s.totalPages + pages.length ≤ MAX_PAGES) :
    ∃ t, pages.foldlM RefTable.store s = some t ∧ t.totalPages = s.totalPages + pages.length
      ∧ (∀ j < s.totalPages, t.pageNumber j = s.pageNumber j)
      ∧ ∀ (j : Nat) (hj : j < pages.length), t.pageNumber (s.totalPages + j) = pages[j] := by
  induction pages generalizing s with
  | nil => exact ⟨s, rfl, rfl, fun _ _ => rfl, fun j hj => absurd hj (Nat.not_lt_zero j)⟩
  | cons page pages ih =>
      rw [List.length_cons] at h
      have hstore : s.store page
          = some ⟨Function.update s.pageNumber s.totalPages page, s.totalPages + 1⟩ :=
        if_pos (by omega)
      obtain ⟨t, hrun, htotal, hbefore, hpages⟩ := ih
        ⟨Function.update s.pageNumber s.totalPages page, s.totalPages + 1⟩ (by simp only; omega)
      simp only at htotal hbefore hpages
      refine ⟨t, ?_, ?_, fun j hj => ?_, fun j hj => ?_⟩
      · rw [List.foldlM_cons, hstore]
        exact hrun
      · rw [htotal, List.length_cons]
        omega
      · rw [hbefore j (by omega), Function.update_of_ne hj.ne]
      · cases j with
        | zero => rw [Nat.add_zero, hbefore _ (Nat.lt_succ_self _), Function.update_self]; rfl
        | succ j =>
            have hj' : j < pages.length := by
              rw [List.length_cons] at hj
              omega
            have hindex : s.totalPages + (j + 1) = s.totalPages + 1 + j := by omega
            rw [hindex, hpages j hj', List.getElem_cons_succ]

/-- One page too many. -/
theorem foldlM_store_none (s : RefTable) (pages : List Int) (hs : s.totalPages ≤ MAX_PAGES)
    (h : MAX_PAGES < s.totalPages + pages.length) : pages.foldlM RefTable.store s = none := by
  induction pages generalizing s with
  | nil =>
      rw [List.length_nil] at h
      omega
  | cons page pages ih =>
      rw [List.length_cons] at h
      rw [List.foldlM_cons, RefTable.store]
      split
      · apply ih
        · simp only
          omega
        · simp only
          omega
      · rfl

/-- **The references survive the trip** to the process: `page_number` holds them in their order, and
`total_pages` their number. -/
theorem processRefString_refText {pages : List Int} (hlen : pages.length ≤ MAX_PAGES)
    (h : ∀ page ∈ pages, IsInt page) :
    ∃ s, processRefString (refText pages) = some s ∧ s.totalPages = pages.length
      ∧ ∀ (j : Nat) (hj : j < pages.length), s.pageNumber j = pages[j] := by
  obtain ⟨s, hrun, htotal, -, hpages⟩ := foldlM_store ⟨fun _ => 0, 0⟩ pages (by simp only; omega)
  simp only [Nat.zero_add] at htotal hpages
  refine ⟨s, ?_, htotal, hpages⟩
  rw [processRefString, storeTokens_refText h]
  exact hrun

/-- Three pages, one of them `0` and one of them the largest `int`. -/
theorem processRefString_refText_three :
    refText [12, 0, 2147483647] = "12|0|2147483647|".toList
      ∧ ∃ s, processRefString (refText [12, 0, 2147483647]) = some s ∧ s.totalPages = 3
        ∧ ∀ (j : Nat) (hj : j < 3), s.pageNumber j = [12, 0, 2147483647][j] :=
  ⟨by decide, processRefString_refText (by decide) (by decide)⟩

/-! ## What is drawn fits the buffer -/

/-- A page is below `11 * m`, be it one of the process or an illegal one. -/
theorem drawPage_range (hmi : 1 ≤ mi) (hm : mi ≤ m) (rand : Nat → Nat) (calls : Nat) :
    0 ≤ (drawPage m mi rand calls).1 ∧ (drawPage m mi rand calls).1 < 11 * m := by
  have hlegal := Nat.mod_lt (rand calls) (y := mi) (by omega)
  have hillegal := Nat.mod_lt (rand (calls + 2)) (y := 10 * m) (by omega)
  rw [drawPage]
  split
  · simp only
    omega
  · simp only
    omega

/-- Pages of up to `k` digits. -/
theorem length_refText_le {k : Nat} (hk : 0 < k) (h : ∀ page ∈ pages, 0 ≤ page ∧ page < 10 ^ k) :
    (refText pages).length ≤ (k + 1) * pages.length := by
  induction pages with
  | nil => exact Nat.zero_le _
  | cons page pages ih =>
      have hrest := ih fun p hp => h p (List.mem_cons_of_mem page hp)
      obtain ⟨n, rfl⟩ := Int.eq_ofNat_of_zero_le (h page List.mem_cons_self).1
      have hn : n < 10 ^ k := by exact_mod_cast (h n List.mem_cons_self).2
      have hdigits := (Text.length_decimal_le_iff hk).mpr hn
      calc (refText (n :: pages)).length
          = (decimal n).length + 1 + (refText pages).length := by
            rw [refText, List.flatMap_cons, List.length_append, List.length_append]
            rfl
        _ ≤ k + 1 + (k + 1) * pages.length := by omega
        _ = (k + 1) * (pages.length + 1) := by ring

/-- One more reference, up to ten for each page a process may have: they take nine bytes each. -/
theorem sprintfRef_refText (hint : 800 * (m : Int) ≤ INT_MAX)
    (h : ∀ p ∈ done ++ [page], 0 ≤ p ∧ p < 11 * m) (hroom : done.length < 10 * m) :
    sprintfRef (m * 20 * 40) (refText done) page = some (refText (done ++ [page])) := by
  rw [INT_MAX] at hint
  have hlen := length_refText_le (k := 8) (by decide) fun p hp => by
    obtain ⟨h0, hlt⟩ := h p hp
    exact ⟨h0, by omega⟩
  rw [List.length_append, List.length_singleton] at hlen
  have htext : refText done ++ (decimal page ++ ['|']) = refText (done ++ [page]) := by
    rw [refText, refText, List.flatMap_append, List.flatMap_singleton]
  rw [sprintfRef, htext]
  exact if_pos (by omega)

/-- **The loop** prints every page it draws. -/
theorem drawRefs_spec (hmi : 1 ≤ mi) (hm : mi ≤ m) (hint : 800 * (m : Int) ≤ INT_MAX)
    (rand : Nat → Nat) (togo : Nat) :
    ∀ (calls : Nat) (done : List Int), (∀ p ∈ done, 0 ≤ p ∧ p < 11 * m) →
      done.length + togo ≤ 10 * m →
      ∃ pages calls', drawRefs m mi rand togo calls (refText done) = some (refText pages, calls')
        ∧ pages.length = done.length + togo ∧ ∀ p ∈ pages, 0 ≤ p ∧ p < 11 * m := by
  induction togo with
  | zero => exact fun calls done hdone _ => ⟨done, calls, rfl, rfl, hdone⟩
  | succ togo ih =>
      intro calls done hdone hroom
      have hpage := drawPage_range hmi hm rand calls
      rw [drawRefs]
      generalize drawPage m mi rand calls = drawn at hpage ⊢
      obtain ⟨page, next⟩ := drawn
      have hmore : ∀ p ∈ done ++ [page], 0 ≤ p ∧ p < 11 * m := by
        intro p hp
        rcases List.mem_append.mp hp with hold | hnew
        · exact hdone p hold
        · rw [List.mem_singleton.mp hnew]
          exact hpage
      have hlen : (done ++ [page]).length = done.length + 1 := List.length_append
      obtain ⟨pages, calls', hrun, hlength, hrange⟩ := ih next (done ++ [page]) hmore (by omega)
      refine ⟨pages, calls', ?_, by omega, hrange⟩
      simp only [sprintfRef_refText hint hmore (by omega), Option.bind_eq_bind, Option.bind_some]
      exact hrun

/-- The text is that of as many pages as were asked for. -/
theorem createRefString_spec (hmi : 1 ≤ mi) (hm : mi ≤ m) (hint : 800 * (m : Int) ≤ INT_MAX)
    (rand : Nat → Nat) (calls : Nat) :
    ∃ pages calls', createRefString m mi rand calls = some (refText pages, calls')
      ∧ pages.length = 1 + 2 * mi + rand calls % (8 * mi)
      ∧ ∀ page ∈ pages, 0 ≤ page ∧ page < 11 * m := by
  have hdraw := Nat.mod_lt (rand calls) (y := 8 * mi) (by omega)
  obtain ⟨pages, calls', hrun, hlength, hrange⟩ := drawRefs_spec hmi hm hint rand
    (1 + 2 * mi + rand calls % (8 * mi)) (calls + 1) []
    (fun page hmem => absurd hmem List.not_mem_nil) (by
      rw [List.length_nil]
      omega)
  exact ⟨pages, calls', hrun, hlength.trans (Nat.zero_add _), hrange⟩

/-- What is stored is in bounds if there are pages enough in the array. -/
theorem processRefString_isSome_iff (h : ∀ page ∈ pages, IsInt page) :
    (processRefString (refText pages)).isSome = true ↔ pages.length ≤ MAX_PAGES := by
  rw [processRefString, storeTokens_refText h]
  by_cases hlen : pages.length ≤ MAX_PAGES
  · obtain ⟨t, hrun, -⟩ := foldlM_store ⟨fun _ => 0, 0⟩ pages (by simp only; omega)
    simp [hrun, hlen]
  · have hnone := foldlM_store_none ⟨fun _ => 0, 0⟩ pages (Nat.zero_le _) (by simp only; omega)
    simp [hnone, hlen]

/-- The reference string of a process, from the draw of its length to the last store: the text fits
its buffer, and every store is within `page_number`. -/
def RefStringFits (m mi : Nat) (rand : Nat → Nat) (calls : Nat) : Prop :=
  ∃ refStr calls', createRefString m mi rand calls = some (refStr, calls')
    ∧ (processRefString refStr).isSome = true

theorem refStringFits_iff_length (hmi : 1 ≤ mi) (hm : mi ≤ m) (hint : 800 * (m : Int) ≤ INT_MAX) :
    RefStringFits m mi rand calls ↔ 1 + 2 * mi + rand calls % (8 * mi) ≤ MAX_PAGES := by
  obtain ⟨pages, calls', hrun, hlength, hrange⟩ := createRefString_spec hmi hm hint rand calls
  have hints : ∀ page ∈ pages, IsInt page := by
    intro page hmem
    obtain ⟨h0, hlt⟩ := hrange page hmem
    rw [INT_MAX] at hint
    exact ⟨by omega, by omega⟩
  have hstores := processRefString_isSome_iff hints
  rw [← hlength, ← hstores, RefStringFits]
  constructor
  · rintro ⟨refStr, calls'', hrun', hsome⟩
    rw [hrun] at hrun'
    obtain ⟨rfl, -⟩ := Prod.mk.inj (Option.some.inj hrun')
    exact hsome
  · exact fun hsome => ⟨refText pages, calls', hrun, hsome⟩

/-- **The buffers suffice** exactly when the draw of the length leaves the number of references
within the array of the process; the buffer of the text is always large enough. -/
theorem refString_fits_iff {m mi calls : Nat} {rand : Nat → Nat} (hmi : 1 ≤ mi) (hm : mi ≤ m)
    (hint : 800 * (m : Int) ≤ INT_MAX) :
    RefStringFits m mi rand calls ↔ 2 * mi + rand calls % (8 * mi) < MAX_PAGES := by
  rw [refStringFits_iff_length hmi hm hint]
  constructor
  · intro hle
    omega
  · intro hlt
    omega

/-- A process of `200` pages, with the shortest reference string it may get. -/
theorem refString_fits_iff_shortest :
    RefStringFits 200 200 (fun _ => 1600) 0 ∧ 2 * 200 + 1600 % (8 * 200) < MAX_PAGES := by
  have hlt : 2 * 200 + 1600 % (8 * 200) < MAX_PAGES := by decide
  refine ⟨?_, hlt⟩
  apply (refString_fits_iff (by decide) (by decide) (by decide)).mpr
  exact hlt

/-- **A reference too many.** A process of `103` pages may get `1030` references. -/
theorem refString_overflows :
    ¬ ∀ (m mi : Nat) (rand : Nat → Nat) (calls : Nat), 1 ≤ m → 11 * (m : Int) ≤ INT_MAX →
      800 * (m : Int) ≤ INT_MAX → 1 ≤ mi → mi ≤ m → RefStringFits m mi rand calls := by
  intro h
  have hfits := h 103 103 (fun _ => 823) 0 (by decide) (by decide) (by decide) (by decide) le_rfl
  have hlen := (refStringFits_iff_length (by decide) le_rfl (by decide)).mp hfits
  exact absurd hlen (by decide)

/-- **The page counts that are safe** whatever is drawn: up to `102`. -/
theorem refString_fits_all_draws_iff (hmi : 1 ≤ mi) (hm : mi ≤ m)
    (hint : 800 * (m : Int) ≤ INT_MAX) :
    (∀ rand calls, RefStringFits m mi rand calls) ↔ mi ≤ 102 := by
  constructor
  · intro hall
    -- the longest string
    have hlongest := (refStringFits_iff_length hmi hm hint).mp (hall (fun _ => 8 * mi - 1) 0)
    rw [Nat.mod_eq_of_lt (by omega), MAX_PAGES] at hlongest
    omega
  · intro hle rand calls
    have hdraw := Nat.mod_lt (rand calls) (y := 8 * mi) (by omega)
    apply (refStringFits_iff_length hmi hm hint).mpr
    rw [MAX_PAGES]
    omega

end OSLab.Paging
