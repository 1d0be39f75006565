import OSLab.Lib.Chunk
import Mathlib.Data.List.TakeWhile
import Mathlib.Tactic

set_option autoImplicit false

/-! # Text as the C library reads and writes it

A text is a list of characters; a C string is one without its closing `'\0'`. `decimal` is what
`%d` prints. `scanInt` is the conversion `%d` of the `scanf` functions, `atoi` the function of that
name, `fgets` reads a line into a buffer, and `strtok` cuts the next token off a string. What is
printed is read back: a number (`scanInt_decimal`), a line that fits the buffer (`fgets_line`), a
token (`strtok_token`).
-/

namespace OSLab.Text

variable {c sep : Char} {l tok rest : List Char} {z : Int} {n size : Nat}

/-! ## Numbers -/

/-- `%d` for output. -/
def decimal : Int → List Char
  | .ofNat n => Nat.toDigits 10 n
  | .negSucc n => '-' :: Nat.toDigits 10 (n + 1)

/-- `isspace` of the C locale. -/
def isSpace (c : Char) : Bool :=
  c = ' ' || c = '\t' || c = '\n' || c = '\x0b' || c = '\x0c' || c = '\r'

/-- The sign of a number, if it has one: whether it is a minus, and what follows. -/
def scanSign : List Char → Bool × List Char
  | '-' :: l => (true, l)
  | '+' :: l => (false, l)
  | l => (false, l)

/-- `%d` for input: white space, a sign, and digits. Without a digit it gives nothing, but the white
space and the sign are gone. -/
def scanInt (l : List Char) : Option Int × List Char :=
  let q := scanSign (l.dropWhile isSpace)
  let digits := q.2.takeWhile Char.isDigit
  if digits = [] then (none, q.2)
  else
    let n : Int := Nat.ofDigitChars 10 digits 0
    (some (if q.1 then -n else n), q.2.dropWhile Char.isDigit)

/-- A number scanned, as it is stored in an `int`: it is limited to the range of a `long` first. -/
def asInt (z : Int) : Int := Int.bmod (max (-(2 ^ 63)) (min z (2 ^ 63 - 1))) (2 ^ 32)

def atoi (l : List Char) : Int := asInt ((scanInt l).1.getD 0)

/-- The numbers an `int` holds. -/
def IsInt (z : Int) : Prop := -(2 ^ 31) ≤ z ∧ z < 2 ^ 31

instance (z : Int) : Decidable (IsInt z) := inferInstanceAs (Decidable (_ ∧ _))

/-- What comes next does not go on with a digit. -/
def NoDigit (l : List Char) : Prop := ∀ c ∈ l.head?, c.isDigit = false

theorem asInt_eq (h : IsInt z) : asInt z = z := by
  obtain ⟨hlow, hhigh⟩ := h
  rw [asInt, min_eq_left (by omega), max_eq_right (by omega)]
  apply Int.bmod_eq_of_le
  · omega
  · omega

theorem noDigit_nil : NoDigit [] := by
  intro c hc
  cases hc

theorem noDigit_cons (h : c.isDigit = false) : NoDigit (c :: l) := by
  intro d hd
  cases hd
  exact h

/-- The digits before such a rest are taken whole. -/
theorem takeWhile_digits (hl : ∀ d ∈ l, d.isDigit = true) (hr : NoDigit rest) :
    (l ++ rest).takeWhile Char.isDigit = l ∧ (l ++ rest).dropWhile Char.isDigit = rest := by
  induction l with
  | nil =>
      cases rest with
      | nil => exact ⟨rfl, rfl⟩
      | cons c rest =>
          have hc : c.isDigit = false := hr c rfl
          simp [hc]
  | cons d l ih =>
      have hd := hl d List.mem_cons_self
      obtain ⟨htake, hdrop⟩ := ih fun d hd => hl d (List.mem_cons_of_mem _ hd)
      simp [hd, htake, hdrop]

theorem not_isSpace_of_isDigit (h : c.isDigit = true) : isSpace c = false := by
  have hval : '0'.toNat ≤ c.toNat := (Char.isDigit_iff_toNat.mp h).1
  by_contra hs
  have hs : isSpace c = true := by simpa using hs
  simp only [isSpace, Bool.or_eq_true, decide_eq_true_eq] at hs
  rcases hs with ((((rfl | rfl) | rfl) | rfl) | rfl) | rfl <;> exact absurd hval (by decide)

theorem toDigits_isDigit (n : Nat) : ∀ c ∈ Nat.toDigits 10 n, c.isDigit = true :=
  fun _ hc => Nat.isDigit_of_mem_toDigits (by decide) (by decide) hc

/-- A scan only takes from the front. -/
theorem scanInt_suffix (l : List Char) : (scanInt l).2 <:+ l := by
  have hsign : ∀ l : List Char, (scanSign l).2 <:+ l := by
    intro l
    rw [scanSign.eq_def]
    split
    · exact List.suffix_cons _ _
    · exact List.suffix_cons _ _
    · exact List.suffix_rfl
  have hfront : (scanSign (l.dropWhile isSpace)).2 <:+ l :=
    (hsign _).trans (List.dropWhile_suffix _)
  rw [scanInt]
  split
  · exact hfront
  · exact (List.dropWhile_suffix _).trans hfront

/-- White space before a number is skipped. -/
theorem scanInt_space (hc : isSpace c = true) (l : List Char) : scanInt (c :: l) = scanInt l := by
  rw [scanInt, scanInt, List.dropWhile_cons_of_pos hc]

/-- A natural number is read back, up to what follows its digits. -/
theorem scanInt_toDigits (n : Nat) (hr : NoDigit rest) :
    scanInt (Nat.toDigits 10 n ++ rest) = (some (n : Int), rest) := by
  obtain ⟨htake, hdrop⟩ := takeWhile_digits (toDigits_isDigit n) hr
  have hne : Nat.toDigits 10 n ≠ [] := Nat.toDigits_ne_nil
  obtain ⟨d, ds, hds⟩ := List.exists_cons_of_ne_nil hne
  have hd : d.isDigit = true := toDigits_isDigit n d (by rw [hds]; exact List.mem_cons_self)
  have hspace : (Nat.toDigits 10 n ++ rest).dropWhile isSpace = Nat.toDigits 10 n ++ rest := by
    rw [hds, List.cons_append, List.dropWhile_cons_of_neg]
    rw [not_isSpace_of_isDigit hd]
    exact Bool.false_ne_true
  have hsign : scanSign (Nat.toDigits 10 n ++ rest) = (false, Nat.toDigits 10 n ++ rest) := by
    rw [hds, List.cons_append, scanSign]
    · rintro l hl
      rw [(List.cons.inj hl).1] at hd
      exact absurd hd (by decide)
    · rintro l hl
      rw [(List.cons.inj hl).1] at hd
      exact absurd hd (by decide)
  simp only [scanInt, hspace, hsign, htake, hdrop, if_neg hne]
  simp

/-- **A number is read back** from what `%d` printed, up to what follows it. -/
theorem scanInt_decimal (z : Int) (hr : NoDigit rest) :
    scanInt (decimal z ++ rest) = (some z, rest) := by
  cases z with
  | ofNat n => exact scanInt_toDigits n hr
  | negSucc n =>
      obtain ⟨htake, hdrop⟩ := takeWhile_digits (toDigits_isDigit (n + 1)) hr
      have hne : Nat.toDigits 10 (n + 1) ≠ [] := Nat.toDigits_ne_nil
      have hspace : ('-' :: (Nat.toDigits 10 (n + 1) ++ rest)).dropWhile isSpace
          = '-' :: (Nat.toDigits 10 (n + 1) ++ rest) := rfl
      simp only [decimal, List.cons_append, scanInt, hspace, scanSign, htake, hdrop, if_neg hne]
      rw [if_pos trivial, Nat.ofDigitChars_ten_toDigits]
      rfl

/-- A number in the range of an `int` is read back by `atoi`. -/
theorem atoi_decimal (h : IsInt z) (hr : NoDigit rest) : atoi (decimal z ++ rest) = z := by
  rw [atoi, scanInt_decimal z hr, Option.getD_some, asInt_eq h]

theorem atoi_toDigits (h : n < 2 ^ 31) (hr : NoDigit rest) :
    atoi (Nat.toDigits 10 n ++ rest) = n :=
  atoi_decimal (z := n) ⟨by omega, by omega⟩ hr

theorem decimal_ne_nil (z : Int) : decimal z ≠ [] := by
  cases z with
  | ofNat n => exact Nat.toDigits_ne_nil
  | negSucc n => exact List.cons_ne_nil _ _

/-- A number is printed with digits and a minus. -/
theorem not_mem_decimal (z : Int) (hd : c.isDigit = false) (hm : c ≠ '-') : c ∉ decimal z := by
  have hdigits : ∀ n, c ∉ Nat.toDigits 10 n := by
    intro n hc
    rw [toDigits_isDigit n c hc] at hd
    cases hd
  cases z with
  | ofNat n => exact hdigits n
  | negSucc n => exact List.not_mem_cons_of_ne_of_not_mem hm (hdigits (n + 1))

theorem length_decimal_le_iff {k : Nat} (hk : 0 < k) : (decimal n).length ≤ k ↔ n < 10 ^ k :=
  Nat.length_toDigits_le_iff (by decide) hk

/-- A text of pieces that are not empty is at least as long as their number. -/
theorem length_le_flatMap {α : Type*} {f : α → List Char} {l : List α} (h : ∀ a ∈ l, f a ≠ []) :
    l.length ≤ (l.flatMap f).length := by
  induction l with
  | nil => exact Nat.le_refl 0
  | cons a l ih =>
      have ha := List.length_pos_of_ne_nil (h a List.mem_cons_self)
      have hl := ih fun b hb => h b (List.mem_cons_of_mem a hb)
      rw [List.length_cons, List.flatMap_cons, List.length_append]
      omega

/-! ## Lines -/

/-- `fgets(buffer, size, file)`: the next line, or the part of it that fits, or what is left of
the file; nothing at its end. -/
def fgets (size : Nat) (l : List Char) : Option (List Char × List Char) :=
  if l = [] then none else some ((takeChunk (· == '\n') (size - 1) l).getD (l, []))

/-- Characters without a newline, and the newline after them, are a chunk when they fit. -/
theorem isChunk_line (hl : '\n' ∉ l) (hn : l.length < n) :
    IsChunk (· == '\n') n (l ++ ['\n']) := by
  induction l generalizing n with
  | nil =>
      obtain ⟨n, rfl⟩ : ∃ m, n = m + 1 := ⟨n - 1, by simp at hn; omega⟩
      simp [IsChunk]
  | cons c l ih =>
      rw [List.length_cons] at hn
      obtain ⟨n, rfl⟩ : ∃ m, n = m + 1 := ⟨n - 1, by omega⟩
      have hc : c ≠ '\n' := fun h => hl (h ▸ List.mem_cons_self)
      have hrest := ih (fun h => hl (List.mem_cons_of_mem _ h)) (n := n) (by omega)
      simpa [IsChunk, hc] using hrest

/-- **A line that fits the buffer** is read whole. -/
theorem fgets_line (hl : '\n' ∉ l) (hn : l.length + 1 < size) (rest : List Char) :
    fgets size (l ++ '\n' :: rest) = some (l ++ ['\n'], rest) := by
  have hchunk := takeChunk_of_isChunk (isChunk_line hl (n := size - 1) (by omega)) rest
  rw [List.append_assoc, List.singleton_append] at hchunk
  rw [fgets, if_neg (by simp), hchunk, Option.getD_some]

/-- The last line has no newline. -/
theorem fgets_last (hne : l ≠ []) (hl : '\n' ∉ l) (hn : l.length < size) :
    fgets size l = some (l, []) := by
  have key : ∀ (k : Nat) (l : List Char), '\n' ∉ l → l.length ≤ k →
      (takeChunk (· == '\n') k l).getD (l, []) = (l, []) := by
    intro k
    induction k with
    | zero =>
        intro l _ hk
        rw [List.length_eq_zero_iff.mp (Nat.le_zero.mp hk)]
        rfl
    | succ k ih =>
        intro l hl hk
        cases l with
        | nil => rfl
        | cons c l =>
            have hc : c ≠ '\n' := fun h => hl (h ▸ List.mem_cons_self)
            have hrest := ih l (fun h => hl (List.mem_cons_of_mem _ h)) (by simpa using hk)
            simp only [takeChunk, beq_iff_eq, hc, if_false]
            cases ht : takeChunk (· == '\n') k l with
            | none => rfl
            | some q =>
                rw [ht, Option.getD_some] at hrest
                rw [hrest]
                rfl
  rw [fgets, if_neg hne, key (size - 1) l hl (by omega)]

/-! ## Tokens -/

/-- `strtok` with the one separator `sep`: the next token and what is left after its separator. -/
def strtok (sep : Char) (l : List Char) : Option (List Char × List Char) :=
  let l := l.dropWhile (· == sep)
  if l = [] then none
  else some (l.takeWhile (· != sep), (l.dropWhile (· != sep)).drop 1)

theorem takeWhile_token (h : sep ∉ tok) (rest : List Char) :
    (tok ++ sep :: rest).takeWhile (· != sep) = tok
      ∧ (tok ++ sep :: rest).dropWhile (· != sep) = sep :: rest := by
  induction tok with
  | nil => simp
  | cons c tok ih =>
      have hc : c ≠ sep := fun he => h (he ▸ List.mem_cons_self)
      obtain ⟨htake, hdrop⟩ := ih fun he => h (List.mem_cons_of_mem _ he)
      simp [hc, htake, hdrop]

theorem dropWhile_sep (hne : tok ≠ []) (h : sep ∉ tok) (rest : List Char) :
    (tok ++ rest).dropWhile (· == sep) = tok ++ rest := by
  obtain ⟨c, tok, rfl⟩ := List.exists_cons_of_ne_nil hne
  have hc : c ≠ sep := fun he => h (he ▸ List.mem_cons_self)
  rw [List.cons_append, List.dropWhile_cons_of_neg (by simpa using hc)]

/-- **A token** before its separator. -/
theorem strtok_token (hne : tok ≠ []) (h : sep ∉ tok) (rest : List Char) :
    strtok sep (tok ++ sep :: rest) = some (tok, rest) := by
  obtain ⟨htake, hdrop⟩ := takeWhile_token h rest
  have hl : tok ++ sep :: rest ≠ [] := by simp
  simp only [strtok, dropWhile_sep hne h, if_neg hl, htake, hdrop, List.drop_one, List.tail_cons]

/-- What is left after a token is shorter. -/
theorem strtok_length_lt (h : strtok sep l = some (tok, rest)) : rest.length < l.length := by
  have hskip := (List.dropWhile_suffix (· == sep) (l := l)).length_le
  have htoken := (List.dropWhile_suffix (· != sep) (l := l.dropWhile (· == sep))).length_le
  rw [strtok] at h
  split at h
  case isTrue => cases h
  case isFalse hne =>
    have hpos := List.length_pos_of_ne_nil hne
    obtain ⟨-, rfl⟩ := Prod.mk.inj (Option.some.inj h)
    rw [List.length_drop]
    omega

/-- The last token is what is left of the string. -/
theorem strtok_last (hne : tok ≠ []) (h : sep ∉ tok) : strtok sep tok = some (tok, []) := by
  have hdrop := dropWhile_sep hne h []
  rw [List.append_nil] at hdrop
  have hall : ∀ c ∈ tok, (c != sep) = true := fun c hc => by
    have hcs : c ≠ sep := fun he => h (he ▸ hc)
    simpa using hcs
  have htake : tok.takeWhile (· != sep) = tok := List.takeWhile_eq_self_iff.mpr hall
  have hrest : tok.dropWhile (· != sep) = [] := List.dropWhile_eq_nil_iff.mpr hall
  simp only [strtok, hdrop, if_neg hne, htake, hrest, List.drop_nil]

end OSLab.Text
