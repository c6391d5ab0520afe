import Mathlib.Algebra.Order.Archimedean.Basic
import Mathlib.Tactic.Linarith
import Boxing.Serial.Polling

/-!
# Does the client finish?

`ser.write` reports the length of what it has written, and `serialclient.py` takes
a frame as sent when that is 15.  The id is written in four digits or more, so
frame 10000 has 16 bytes: it is written, found to be 16 bytes long and written
again, for ever.  Up to 9999 frames the client comes through, whatever is echoed,
if it can read it: `decode()` of one byte raises an exception from 128 on, and the
inner loop goes on as long as a byte is waiting.
-/

namespace Boxing.Serial

open C

/-- What the byte that is read can be decoded to. -/
def Readable (p : Poll) (s : Loop) : Prop :=
  ∀ start_time sent b, s.place = .reading start_time sent → p.waiting = some b → b < 128

section Finish

variable {uart : Uart} {polls : Nat → Poll}

/-- Through the loop with exactly the frames that were asked for. -/
def Finishes (uart : Uart) (polls : Nat → Poll) : Prop :=
  ∃ n, (polled uart polls n).place = .summary ∧ (polled uart polls n).send_num = uart.count

/-- A run that comes through is not at an answer that lasts for ever, nor behind an
exception. -/
theorem Finishes.exists_summary (h : Finishes uart polls) (n : Nat) :
    ∃ m ≥ n, (polled uart polls m).place = .summary := by
  obtain ⟨k, hk, -⟩ := h
  rcases le_total n k with hle | hle
  · exact ⟨k, hle, hk⟩
  · exact ⟨n, le_refl n, by rw [polled_end (Or.inl hk) hle, hk]⟩

theorem Finishes.readable (h : Finishes uart polls) (n : Nat) :
    Readable (polls n) (polled uart polls n) := by
  intro start_time sent b hplace hw
  by_contra hb
  have hraised : (polled uart polls (n + 1)).place = .raised := by
    rw [polled, step_reading hplace, Loop.poll, hw]
    show (if b < 128 then _ else _ : Loop).place = _
    rw [if_neg hb]
  obtain ⟨m, hm, hsum⟩ := h.exists_summary (n + 1)
  rw [polled_end (Or.inr hraised) hm, hraised] at hsum
  cases hsum

end Finish

end Boxing.Serial
