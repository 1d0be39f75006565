import OSLab.Lib.Bytes
import OSLab.Paging.Mmu

set_option autoImplicit false

/-! # The bytes of a request

`proc.c` sends a `struct mmumsg_send` and `mmu.c` receives a `struct msg`. Past the `msg_type` both
are eight bytes long: two `int`s on the one side, an `int`, a `char` and three bytes of padding on
the other. So `msgsnd` and `msgrcv` agree on the length, and the `char` is the low byte of the
sender's `page_number`.
-/

namespace OSLab.Paging

/-- The text of a `struct mmumsg_send`. -/
def sendText (r : Request) : List UInt8 := leBytes 4 r.id ++ leBytes 4 r.pageNumber

/-- What `read_request` makes of the text of a `struct msg`: `msg.id` and `msg.page_number`. -/
def readText (text : List UInt8) : Int × Int :=
  (ofLeBytes (text.take 4), ofLeBytes ((text.drop 4).take 1))

/-- The bytes of a request from a process arrive as `readRequest` says. -/
theorem readText_sendText {r : Request} (hid : (r.id : Int) < 2 ^ 31) :
    readText (sendText r) = readRequest (some r) := by
  have htake : (sendText r).take 4 = leBytes 4 r.id := by
    rw [sendText, List.take_append_of_le_length (by rw [length_leBytes]), take_leBytes le_rfl]
  have hdrop : ((sendText r).drop 4).take 1 = leBytes 1 r.pageNumber := by
    rw [sendText, List.drop_append_of_le_length (by rw [length_leBytes]),
      List.drop_of_length_le (by rw [length_leBytes]), List.nil_append, take_leBytes (by omega)]
  rw [readText, htake, hdrop, ofLeBytes_of_fits (by omega) (by omega), ofLeBytes_leBytes,
    readRequest]
  rfl

/-- **Encoding and decoding agree exactly on the page numbers below 128.** For an `id` and a page
number that are `int`s, the page number being a page or `PROCESS_DONE`. -/
theorem request_delivered_iff {r : Request} (hid : (r.id : Int) < 2 ^ 31)
    (hpage : r.pageNumber = PROCESS_DONE ∨ 0 ≤ r.pageNumber ∧ r.pageNumber < 2 ^ 31) :
    readText (sendText r) = ((r.id : Int), r.pageNumber) ↔ r.pageNumber < 128 := by
  rw [readText_sendText hid, readRequest, Prod.mk.injEq]
  constructor
  · rintro ⟨-, heq⟩
    have hlt := Int.bmod_lt (x := r.pageNumber) (m := 256) (by omega)
    omega
  · intro hlt
    refine ⟨rfl, Int.bmod_eq_of_le_mul_two ?_ (by omega)⟩
    rcases hpage with heq | ⟨hnonneg, -⟩
    · rw [heq, PROCESS_DONE]
      omega
    · omega

/-- Page `5` of process `3`, and its `PROCESS_DONE`. -/
theorem request_delivered_pair :
    readText (sendText ⟨3, 5⟩) = (3, 5) ∧ readText (sendText ⟨3, PROCESS_DONE⟩) = (3, -9) :=
  ⟨(request_delivered_iff (r := ⟨3, 5⟩) (by decide) (.inr (by decide))).mpr (by decide),
    (request_delivered_iff (r := ⟨3, PROCESS_DONE⟩) (by decide) (.inl rfl)).mpr (by decide)⟩

/-- **A page request arrives as `PROCESS_DONE`**, for a page number the generator can make of `23`
pages. -/
theorem page_taken_for_done :
    (247 : Int) ≤ 11 * 23 - 1 ∧ readText (sendText ⟨0, 247⟩) = (0, PROCESS_DONE) := by
  decide

end OSLab.Paging
