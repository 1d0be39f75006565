import Mathlib.Data.List.Basic

set_option autoImplicit false

/-! # Chunks of a stream

A bounded reader takes from a stream up to `k` elements, but nothing after the first one that ends
a line. `takeChunk` is such a reader; it waits (`none`) as long as the elements at hand do not
make up a chunk. Two readers with the same bound cut a stream at the same places, however it
arrives: what one has taken, `takeChunk_append` takes from the stream at the other side.
-/

namespace OSLab

variable {α β : Type*} {p : α → Bool} {k : Nat} {l m c r : List α}

/-- The first chunk of `l` and what follows it, if `l` holds a whole chunk: `k` elements, or fewer
through the first one with `p`. -/
def takeChunk (p : α → Bool) : Nat → List α → Option (List α × List α)
  | 0, l => some ([], l)
  | _ + 1, [] => none
  | k + 1, a :: l => if p a then some ([a], l) else (takeChunk p k l).map fun q => (a :: q.1, q.2)

/-- A list that a reader of bound `k` takes as one chunk. -/
def IsChunk (p : α → Bool) : Nat → List α → Prop
  | 0, c => c = []
  | _ + 1, [] => False
  | k + 1, a :: c => if p a then c = [] else IsChunk p k c

/-- A chunk and the rest make up the stream. -/
theorem takeChunk_spec (h : takeChunk p k l = some (c, r)) : l = c ++ r ∧ IsChunk p k c := by
  induction k generalizing l c with
  | zero =>
      cases h
      exact ⟨rfl, rfl⟩
  | succ k ih =>
      cases l with
      | nil => cases h
      | cons a l =>
          simp only [takeChunk] at h
          split at h
          · rename_i ha
            cases h
            exact ⟨rfl, by simp [IsChunk, ha]⟩
          · rename_i ha
            obtain ⟨q, hq, he⟩ := Option.map_eq_some_iff.mp h
            cases he
            obtain ⟨rfl, hc⟩ := ih hq
            exact ⟨rfl, by simpa [IsChunk, ha] using hc⟩

/-- What arrives later does not change the chunk at hand. -/
theorem takeChunk_append (h : takeChunk p k l = some (c, r)) (m : List α) :
    takeChunk p k (l ++ m) = some (c, r ++ m) := by
  induction k generalizing l c with
  | zero =>
      cases h
      rfl
  | succ k ih =>
      cases l with
      | nil => cases h
      | cons a l =>
          simp only [takeChunk, List.cons_append] at h ⊢
          split at h
          · rename_i ha
            cases h
            rw [if_pos ha]
          · rename_i ha
            obtain ⟨q, hq, he⟩ := Option.map_eq_some_iff.mp h
            cases he
            rw [if_neg ha, ih hq, Option.map_some]

/-- **The reader at the other side takes the same chunk.** -/
theorem takeChunk_of_isChunk (h : IsChunk p k c) (r : List α) :
    takeChunk p k (c ++ r) = some (c, r) := by
  induction k generalizing c with
  | zero =>
      have h : c = [] := h
      subst h
      rfl
  | succ k ih =>
      cases c with
      | nil => exact h.elim
      | cons a c =>
          simp only [IsChunk] at h
          simp only [takeChunk, List.cons_append]
          split at h
          · rename_i ha
            subst h
            rw [if_pos ha, List.nil_append]
          · rename_i ha
            rw [if_neg ha, ih h, Option.map_some]

/-- Chunks are cut by what `p` sees. -/
theorem takeChunk_map {q : β → Bool} {f : α → β} (hf : ∀ a, q (f a) = p a)
    (h : takeChunk p k l = some (c, r)) : takeChunk q k (l.map f) = some (c.map f, r.map f) := by
  induction k generalizing l c with
  | zero =>
      cases h
      rfl
  | succ k ih =>
      cases l with
      | nil => cases h
      | cons a l =>
          simp only [takeChunk, List.map_cons, hf] at h ⊢
          split at h
          · rename_i ha
            cases h
            rw [if_pos ha]
            rfl
          · rename_i ha
            obtain ⟨q', hq, he⟩ := Option.map_eq_some_iff.mp h
            cases he
            rw [if_neg ha, ih hq, Option.map_some]
            rfl

/-- A reader of a stream of chunks takes the first of them. -/
theorem takeChunk_flatten {queue : List (List α)} (hq : ∀ c ∈ queue, IsChunk p k c) (hk : 0 < k)
    (h : takeChunk p k l = some (c, r)) (hl : l ++ m = queue.flatten) :
    ∃ rest, queue = c :: rest ∧ r ++ m = rest.flatten := by
  have ht := takeChunk_append h m
  rw [hl] at ht
  cases queue with
  | nil =>
      obtain ⟨k, rfl⟩ := Nat.exists_eq_succ_of_ne_zero (Nat.ne_of_gt hk)
      cases ht
  | cons c' rest =>
      rw [List.flatten_cons, takeChunk_of_isChunk (hq c' List.mem_cons_self)] at ht
      obtain ⟨hc, hr⟩ := Prod.mk.inj (Option.some.inj ht)
      exact ⟨rest, hc ▸ rfl, hr.symm⟩

end OSLab
