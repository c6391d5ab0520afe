import Boxing.Serial.Client

/-!
# The client's loop, poll by poll

`Client` takes the echoes for the frames that were sent.  Here they may be
anything: `serialclient.py` runs against a sequence of polls, and each says what
the clock shows, whether a byte is waiting and which, what `ser.write` returns,
and whether a signal has arrived.  The echoes come in at any time and with any
content, and a signal at any moment.

The summary behind the loop divides by the number of frames sent and is read as a
balance: every frame sent was received or was an error.  `report_iff` says when
both are right.  The division fails when nothing was sent, and the balance when a
frame of more than 15 bytes, of which `write` reports 15, comes back whole and the
time runs out on it: it is counted on both sides.
-/

namespace Boxing.Serial

open C

/-! ### The loop -/

/-- What the client meets at one step. -/
structure Poll where
  time : ℚ
  /-- The first byte of the input queue; `none` when `inWaiting()` is 0. -/
  waiting : Option UInt8
  /-- What `ser.write` returns. -/
  write : Bytes → Nat
  /-- SIGINT or SIGTERM has arrived. -/
  signal : Bool

/-- Where in the program the client is. -/
inductive Place where
  /-- At the head of the sending loop. -/
  | top
  /-- In `while True`, since `start_time`, behind the frame `sent`. -/
  | reading (start_time : ℚ) (sent : Bytes)
  /-- Behind the sending loop. -/
  | summary
  /-- Ended by an exception. -/
  | raised

/-- The variables of the loop. -/
structure Loop where
  id : Nat
  send_num : Nat
  error_num : Nat
  recv_num : Nat
  recv_msg : Bytes
  is_exit : Bool
  place : Place

/-- Before the loop. -/
def Loop.start : Loop := ⟨1, 0, 0, 0, [], false, .top⟩

/-- The head of the loop: the condition, and the frame that is written. -/
def Loop.write (uart : Uart) (p : Poll) (s : Loop) : Loop :=
  if s.id < uart.count + 1 ∧ s.is_exit = false then
    if p.write (send uart.length s.id) = 15 then
      { s with
        id := s.id + 1
        send_num := s.send_num + 1
        place := .reading p.time (send uart.length s.id) }
    else s -- `send failed! retry`
  else { s with place := .summary }

/-- Behind `while True`: what has been read is compared and counted. -/
def Loop.compare (s : Loop) (sent : Bytes) (flag : Bool) : Loop :=
  { s with
    recv_num := if s.recv_msg = sent then s.recv_num + 1 else s.recv_num
    error_num := if s.recv_msg = sent ∨ flag = true then s.error_num else s.error_num + 1
    recv_msg := []
    place := .top }

/-- The time allowed for an answer is over. -/
def Over (uart : Uart) (p : Poll) (start_time : ℚ) : Prop :=
  p.time - start_time + 1 / 10 > uart.timeout

instance (uart : Uart) (p : Poll) (start_time : ℚ) : Decidable (Over uart p start_time) :=
  inferInstanceAs (Decidable (_ < _))

/-- One look at the input queue.  `decode()` of a single byte fails from 128 on. -/
def Loop.poll (uart : Uart) (p : Poll) (start_time : ℚ) (sent : Bytes) (s : Loop) : Loop :=
  match p.waiting with
  | some b =>
    if b < 128 then { s with recv_msg := s.recv_msg ++ [b] } else { s with place := .raised }
  | none =>
    if s.recv_msg.length = 15 then s.compare sent false
    else if Over uart p start_time then
      Loop.compare { s with error_num := s.error_num + 1 } sent true
    else s

/-- One step; `handler` may have set `is_exit` before it. -/
def Loop.step (uart : Uart) (p : Poll) (s : Loop) : Loop :=
  match s.place with
  | .top => Loop.write uart p { s with is_exit := s.is_exit || p.signal }
  | .reading start_time sent =>
    Loop.poll uart p start_time sent { s with is_exit := s.is_exit || p.signal }
  | .summary => s
  | .raised => s

/-- The client after `n` steps. -/
def polled (uart : Uart) (polls : Nat → Poll) : Nat → Loop
  | 0 => Loop.start
  | n + 1 => Loop.step uart (polls n) (polled uart polls n)

/-- The error rate of the summary in per cent; `none` is the division by zero. -/
def Loop.rate (s : Loop) : Option ℚ :=
  if s.send_num = 0 then none else some (s.error_num / s.send_num * 100)

/-! ### What a step does -/

/-- A frame is written and taken as sent. -/
def Sends (uart : Uart) (p : Poll) (s : Loop) : Prop :=
  s.place = .top ∧ s.id < uart.count + 1 ∧ (s.is_exit || p.signal) = false ∧
    p.write (send uart.length s.id) = 15

/-- The time runs out on a whole answer. -/
def Twice (uart : Uart) (p : Poll) (s : Loop) : Prop :=
  ∃ start_time sent, s.place = .reading start_time sent ∧ p.waiting = none ∧
    s.recv_msg = sent ∧ sent.length ≠ 15 ∧ Over uart p start_time

/-- Frames sent and not yet counted. -/
def Loop.pending (s : Loop) : Nat :=
  match s.place with
  | .top => 0
  | .reading _ _ => 1
  | .summary => 0
  | .raised => 1

section Step

variable {uart : Uart} {p : Poll} {s : Loop}

theorem step_top (h : s.place = .top) :
    s.step uart p = Loop.write uart p { s with is_exit := s.is_exit || p.signal } := by
  rw [Loop.step, h]

theorem step_reading {start_time : ℚ} {sent : Bytes} (h : s.place = .reading start_time sent) :
    s.step uart p
      = Loop.poll uart p start_time sent { s with is_exit := s.is_exit || p.signal } := by
  rw [Loop.step, h]

theorem step_summary (h : s.place = .summary) : s.step uart p = s := by rw [Loop.step, h]

theorem step_raised (h : s.place = .raised) : s.step uart p = s := by rw [Loop.step, h]

/-- A step that sends. -/
theorem step_sends (h : Sends uart p s) :
    s.step uart p =
      { s with
        id := s.id + 1
        send_num := s.send_num + 1
        is_exit := false
        place := .reading p.time (send uart.length s.id) } := by
  obtain ⟨htop, hid, hexit, hwrite⟩ := h
  rw [step_top htop, Loop.write, if_pos ⟨hid, hexit⟩, if_pos hwrite, hexit]

/-- A step at the head of the loop that does not send: the frame is tried again, or
the loop is over. -/
theorem step_top_cases (h : s.place = .top) (hsend : ¬ Sends uart p s) :
    s.step uart p = { s with is_exit := s.is_exit || p.signal } ∨
      s.step uart p = { s with is_exit := s.is_exit || p.signal, place := .summary } := by
  rw [step_top h, Loop.write]
  split
  · rename_i hloop
    rw [if_neg fun hwrite => hsend ⟨h, hloop.1, hloop.2, hwrite⟩]
    exact Or.inl rfl
  · exact Or.inr rfl

/-- A look at the queue: the answer grows, or is not ASCII, or is waited for, or is
counted. -/
theorem step_reading_cases {start_time : ℚ} {sent : Bytes}
    (h : s.place = .reading start_time sent) :
    (∃ b, p.waiting = some b ∧ b < 128 ∧ s.step uart p =
        { s with is_exit := s.is_exit || p.signal, recv_msg := s.recv_msg ++ [b] }) ∨
      (∃ b, p.waiting = some b ∧ ¬ b < 128 ∧ s.step uart p =
        { s with is_exit := s.is_exit || p.signal, place := .raised }) ∨
      (p.waiting = none ∧ s.recv_msg.length ≠ 15 ∧ ¬ Over uart p start_time ∧
        s.step uart p = { s with is_exit := s.is_exit || p.signal }) ∨
      (p.waiting = none ∧ s.recv_msg.length = 15 ∧ s.step uart p =
        Loop.compare { s with is_exit := s.is_exit || p.signal } sent false) ∨
      (p.waiting = none ∧ s.recv_msg.length ≠ 15 ∧ Over uart p start_time ∧ s.step uart p =
        Loop.compare { s with is_exit := s.is_exit || p.signal, error_num := s.error_num + 1 }
          sent true) := by
  rw [step_reading h, Loop.poll]
  cases hw : p.waiting with
  | some b =>
    by_cases hb : b < 128
    · exact Or.inl ⟨b, rfl, hb, if_pos hb⟩
    · exact Or.inr (Or.inl ⟨b, rfl, hb, if_neg hb⟩)
  | none =>
    right; right
    by_cases hlen : s.recv_msg.length = 15
    · exact Or.inr (Or.inl ⟨rfl, hlen, if_pos hlen⟩)
    · by_cases hover : Over uart p start_time
      · exact Or.inr (Or.inr ⟨rfl, hlen, hover, (if_neg hlen).trans (if_pos hover)⟩)
      · exact Or.inl ⟨rfl, hlen, hover, (if_neg hlen).trans (if_neg hover)⟩

/-- A step that does not send leaves the id and the count of frames as they are. -/
theorem step_not_sends (hsend : ¬ Sends uart p s) :
    (s.step uart p).id = s.id ∧ (s.step uart p).send_num = s.send_num := by
  cases hplace : s.place with
  | top =>
    rcases step_top_cases hplace hsend with h | h
    · rw [h]
      exact ⟨rfl, rfl⟩
    · rw [h]
      exact ⟨rfl, rfl⟩
  | reading start_time sent =>
    rcases step_reading_cases hplace with
      ⟨b, -, -, h⟩ | ⟨b, -, -, h⟩ | ⟨-, -, -, h⟩ | ⟨-, -, h⟩ | ⟨-, -, -, h⟩ <;>
      rw [h] <;> exact ⟨rfl, rfl⟩
  | summary =>
    rw [step_summary hplace]
    exact ⟨rfl, rfl⟩
  | raised =>
    rw [step_raised hplace]
    exact ⟨rfl, rfl⟩

/-- Only a step that sends counts a frame as sent. -/
theorem step_send_num [Decidable (Sends uart p s)] :
    (s.step uart p).send_num = s.send_num + if Sends uart p s then 1 else 0 := by
  by_cases hsend : Sends uart p s
  · rw [if_pos hsend, step_sends hsend]
  · rw [if_neg hsend, (step_not_sends hsend).2, Nat.add_zero]

/-- Only an answer that is being read is counted twice. -/
theorem not_twice (h : ∀ start_time sent, s.place ≠ .reading start_time sent) : ¬ Twice uart p s := by
  rintro ⟨start_time, sent, hplace, -⟩
  exact h start_time sent hplace

theorem twice_reading {start_time : ℚ} {sent : Bytes} (h : s.place = .reading start_time sent) :
    Twice uart p s ↔
      p.waiting = none ∧ s.recv_msg = sent ∧ sent.length ≠ 15 ∧ Over uart p start_time := by
  constructor
  · rintro ⟨t, sent', hplace, hrest⟩
    rw [h] at hplace
    cases hplace
    exact hrest
  · exact fun hrest => ⟨start_time, sent, h, hrest⟩

/-- **The balance of a step**: what is sent, received and wrong moves together, but
for an answer that is counted twice. -/
theorem step_balance (uart : Uart) (p : Poll) (s : Loop) [Decidable (Twice uart p s)] :
    (s.step uart p).recv_num + (s.step uart p).error_num + (s.step uart p).pending + s.send_num
      = s.recv_num + s.error_num + s.pending + (s.step uart p).send_num
        + if Twice uart p s then 1 else 0 := by
  cases hplace : s.place with
  | top =>
    rw [if_neg (not_twice (by simp [hplace]))]
    by_cases hsend : Sends uart p s
    · rw [step_sends hsend]
      simp only [Loop.pending, hplace]
      omega
    · rcases step_top_cases hplace hsend with h | h
      · rw [h]
        simp only [Loop.pending, hplace]
        omega
      · rw [h]
        simp only [Loop.pending, hplace]
        omega
  | reading start_time sent =>
    have htwice : Twice uart p s ↔ _ := twice_reading hplace
    rcases step_reading_cases hplace with
      ⟨b, hw, -, h⟩ | ⟨b, hw, -, h⟩ | ⟨hw, -, hover, h⟩ | ⟨hw, hlen, h⟩ | ⟨hw, hlen, hover, h⟩
    · rw [h, if_neg fun ht => by rw [(htwice.mp ht).1] at hw; cases hw]
      simp only [Loop.pending, hplace]
      omega
    · rw [h, if_neg fun ht => by rw [(htwice.mp ht).1] at hw; cases hw]
      simp only [Loop.pending, hplace]
      omega
    · rw [h, if_neg fun ht => hover (htwice.mp ht).2.2.2]
      simp only [Loop.pending, hplace]
      omega
    · -- 15 characters: received or an error
      rw [h, if_neg fun ht => (htwice.mp ht).2.2.1 ((htwice.mp ht).2.1 ▸ hlen)]
      simp only [Loop.pending, hplace, Loop.compare]
      by_cases he : s.recv_msg = sent
      · simp only [he, true_or, if_true]
        omega
      · simp only [he, Bool.false_eq_true, or_self, if_false]
        omega
    · -- the time is over, which is an error already
      rw [h]
      simp only [Loop.pending, hplace, Loop.compare, or_true, if_true]
      by_cases he : s.recv_msg = sent
      · rw [if_pos he, if_pos (htwice.mpr ⟨hw, he, he ▸ hlen, hover⟩)]
        omega
      · rw [if_neg he, if_neg fun ht => he (htwice.mp ht).2.1]
        omega
  | summary =>
    rw [if_neg (not_twice (by simp [hplace])), step_summary hplace]
    omega
  | raised =>
    rw [if_neg (not_twice (by simp [hplace])), step_raised hplace]
    omega

end Step

/-- Where the answer is what `Client` reads, it is counted as `Client` counts it. -/
theorem compare_count_echo {uart : Uart} {line : Line} {c : Client} {start_time : ℚ} {flag : Bool}
    {look : Look} {s : Loop} (hid : s.id = c.id + 1) (hsend : s.send_num = c.send_num + 1)
    (herror : s.error_num = c.error_num + if flag then 1 else 0) (hrecv : s.recv_num = c.recv_num)
    (hmsg : s.recv_msg = echoed uart.length c.read (line.arrived look.emptied - c.read)) :
    let r := (count_echo uart line c start_time flag look).after
    let s' := s.compare (send uart.length c.id) flag
    s'.id = r.id ∧ s'.send_num = r.send_num ∧ s'.error_num = r.error_num ∧
      s'.recv_num = r.recv_num := by
  simp only [Loop.compare, count_echo, hid, hsend, herror, hrecv, hmsg, and_self]

/-! ### The summary -/

section Run

variable (uart : Uart) (polls : Nat → Poll)

/-- Something was sent when some step has sent. -/
theorem send_num_pos_iff (n : Nat) :
    0 < (polled uart polls n).send_num ↔ ∃ k < n, Sends uart (polls k) (polled uart polls k) := by
  classical
  induction n with
  | zero =>
    constructor
    · exact fun h => absurd h (Nat.lt_irrefl 0)
    · rintro ⟨k, hk, -⟩
      omega
  | succ n ih =>
    rw [polled, step_send_num]
    constructor
    · intro h
      by_cases hsend : Sends uart (polls n) (polled uart polls n)
      · exact ⟨n, Nat.lt_succ_self n, hsend⟩
      · rw [if_neg hsend] at h
        obtain ⟨k, hk, hs⟩ := ih.mp h
        exact ⟨k, Nat.lt_succ_of_lt hk, hs⟩
    · rintro ⟨k, hk, hs⟩
      rcases Nat.lt_succ_iff_lt_or_eq.mp hk with hlt | rfl
      · have := ih.mpr ⟨k, hlt, hs⟩
        omega
      · rw [if_pos hs]
        omega

/-- **The balance of a run**: it holds as long as no answer is counted twice, and is
exceeded from then on. -/
theorem balance (n : Nat) :
    (polled uart polls n).send_num ≤ (polled uart polls n).recv_num
        + (polled uart polls n).error_num + (polled uart polls n).pending ∧
      ((polled uart polls n).send_num = (polled uart polls n).recv_num
          + (polled uart polls n).error_num + (polled uart polls n).pending ↔
        ∀ k < n, ¬ Twice uart (polls k) (polled uart polls k)) := by
  classical
  induction n with
  | zero => exact ⟨le_refl _, fun _ k hk => absurd hk (Nat.not_lt_zero k), fun _ => rfl⟩
  | succ n ih =>
    have hstep := step_balance uart (polls n) (polled uart polls n)
    rw [polled]
    by_cases htwice : Twice uart (polls n) (polled uart polls n)
    · rw [if_pos htwice] at hstep
      refine ⟨by omega, fun h => ?_, fun h => absurd htwice (h n (Nat.lt_succ_self n))⟩
      omega
    · rw [if_neg htwice] at hstep
      refine ⟨by omega, fun h k hk => ?_, fun h => ?_⟩
      · rcases Nat.lt_succ_iff_lt_or_eq.mp hk with hlt | rfl
        · exact ih.2.mp (by omega) k hlt
        · exact htwice
      · have := ih.2.mpr fun k hk => h k (Nat.lt_succ_of_lt hk)
        omega

variable {uart polls}

/-- The summary is right: the frames sent are the frames received and the errors, and
the rate is defined. -/
def Loop.Right (s : Loop) : Prop :=
  s.send_num = s.recv_num + s.error_num ∧ ∃ rate, s.rate = some rate

theorem right_iff {n : Nat} (h : (polled uart polls n).place = .summary) :
    (polled uart polls n).Right ↔
      (∃ k < n, Sends uart (polls k) (polled uart polls k)) ∧
        ∀ k < n, ¬ Twice uart (polls k) (polled uart polls k) := by
  have hpending : (polled uart polls n).pending = 0 := by rw [Loop.pending, h]
  have hbalance := (balance uart polls n).2
  rw [hpending, Nat.add_zero] at hbalance
  have hrate : (∃ rate, (polled uart polls n).rate = some rate) ↔
      0 < (polled uart polls n).send_num := by
    rw [Loop.rate]
    split
    · rename_i hzero
      constructor
      · rintro ⟨rate, hr⟩
        cases hr
      · omega
    · exact ⟨fun _ => by omega, fun _ => ⟨_, rfl⟩⟩
  rw [Loop.Right, hbalance, hrate, send_num_pos_iff, and_comm]

/-! ### A port that takes every frame whole -/

/-- Behind the loop nothing more happens, nor behind an exception. -/
theorem polled_end {m n : Nat}
    (h : (polled uart polls m).place = .summary ∨ (polled uart polls m).place = .raised)
    (hle : m ≤ n) : polled uart polls n = polled uart polls m := by
  induction n, hle using Nat.le_induction with
  | base => rfl
  | succ n _ ih =>
    rcases h with h | h
    · rw [polled, ih, step_summary h]
    · rw [polled, ih, step_raised h]

/-- The frames it waits for are 15 bytes long. -/
theorem length_sent (hwrite : ∀ k s, (polls k).write s = s.length) {n : Nat} {start_time : ℚ}
    {sent : Bytes} (h : (polled uart polls n).place = .reading start_time sent) :
    sent.length = 15 := by
  induction n with
  | zero => cases h
  | succ n ih =>
    rw [polled] at h
    cases hplace : (polled uart polls n).place with
    | top =>
      by_cases hsend : Sends uart (polls n) (polled uart polls n)
      · rw [step_sends hsend] at h
        cases h
        rw [← hwrite n]
        exact hsend.2.2.2
      · rcases step_top_cases hplace hsend with he | he
        · rw [he, hplace] at h
          cases h
        · rw [he] at h
          cases h
    | reading t sent' =>
      rcases step_reading_cases hplace with
        ⟨b, -, -, he⟩ | ⟨b, -, -, he⟩ | ⟨-, -, -, he⟩ | ⟨-, -, he⟩ | ⟨-, -, -, he⟩
      · rw [he] at h
        exact ih h
      · rw [he] at h
        cases h
      · rw [he] at h
        exact ih h
      · rw [he] at h
        cases h
      · rw [he] at h
        cases h
    | summary =>
      rw [step_summary hplace, hplace] at h
      cases h
    | raised =>
      rw [step_raised hplace, hplace] at h
      cases h

/-- The first frame is sent in the first step or never. -/
theorem exists_sends_iff (hwrite : ∀ k s, (polls k).write s = s.length) (hlength : uart.length ≤ 9)
    {n : Nat} (h : (polled uart polls n).place = .summary) :
    (∃ k < n, Sends uart (polls k) (polled uart polls k)) ↔
      1 ≤ uart.count ∧ (polls 0).signal = false := by
  have hn : 0 < n := by
    cases n with
    | zero => cases h
    | succ n => exact Nat.succ_pos n
  have hfirst : Sends uart (polls 0) (polled uart polls 0) ↔
      1 ≤ uart.count ∧ (polls 0).signal = false := by
    have h15 : (polls 0).write (send uart.length 1) = 15 := by
      rw [hwrite, length_send (by decide) hlength]
    constructor
    · rintro ⟨-, hid, hexit, -⟩
      exact ⟨Nat.lt_succ_iff.mp hid, by simpa [polled, Loop.start] using hexit⟩
    · rintro ⟨hcount, hsignal⟩
      exact ⟨rfl, Nat.lt_succ_of_le hcount, by simpa [polled, Loop.start] using hsignal, h15⟩
  rw [← hfirst]
  constructor
  · rintro ⟨k, -, hk⟩
    by_contra hnot
    -- then the loop is over behind the first step
    have hone : (polled uart polls 1).place = .summary := by
      have hne : ¬ (1 < uart.count + 1 ∧ (polls 0).signal = false) :=
        fun hc => hnot (hfirst.mpr ⟨Nat.lt_succ_iff.mp hc.1, hc.2⟩)
      show (Loop.write uart (polls 0) _).place = _
      rw [Loop.write, if_neg (by simpa [polled, Loop.start] using hne)]
    cases k with
    | zero => exact hnot hk
    | succ k =>
      have htop := hk.1
      rw [polled_end (Or.inl hone) (Nat.succ_le_succ (Nat.zero_le k)), hone] at htop
      cases htop
  · exact fun hs => ⟨0, hn, hs⟩

/-- **The summary**: it is right when at least one frame was sent and no answer was
counted twice.  On a port that takes every frame whole, that is: when there was a
frame to send and no signal had come before it. -/
theorem report_iff {n : Nat} (h : (polled uart polls n).place = .summary) :
    ((polled uart polls n).Right ↔
        (∃ k < n, Sends uart (polls k) (polled uart polls k)) ∧
          ∀ k < n, ¬ Twice uart (polls k) (polled uart polls k)) ∧
      ((∀ k s, (polls k).write s = s.length) → uart.length ≤ 9 →
        ((polled uart polls n).Right ↔ 1 ≤ uart.count ∧ (polls 0).signal = false)) := by
  refine ⟨right_iff h, fun hwrite hlength => ?_⟩
  have htwice : ∀ k < n, ¬ Twice uart (polls k) (polled uart polls k) := by
    rintro k - ⟨t, sent, hplace, -, -, hne, -⟩
    exact hne (length_sent hwrite hplace)
  rw [right_iff h, and_iff_left htwice, exists_sends_iff hwrite hlength h]

/-- A port that takes everything and never answers; the clock counts the steps. -/
def silent (k : Nat) : Poll := ⟨k, none, List.length, false⟩

/-- One frame, whose time runs out in the second step. -/
theorem polled_silent : (polled ⟨8, 1, 1⟩ silent 3).place = .summary := by
  have hsend : Sends ⟨8, 1, 1⟩ (silent 0) (polled ⟨8, 1, 1⟩ silent 0) :=
    ⟨rfl, by decide, rfl, length_send (by decide) (by decide)⟩
  have hone : polled ⟨8, 1, 1⟩ silent 1 = ⟨2, 1, 0, 0, [], false, .reading 0 (send 8 1)⟩ := by
    rw [polled, step_sends hsend]
    rfl
  have hover : Over ⟨8, 1, 1⟩ (silent 1) 0 := by norm_num [Over, silent]
  have hplace : (polled ⟨8, 1, 1⟩ silent 1).place = .reading 0 (send 8 1) := by rw [hone]
  rw [polled, polled]
  rcases step_reading_cases (p := silent 1) hplace with
    ⟨b, hw, -⟩ | ⟨b, hw, -⟩ | ⟨-, -, hnot, -⟩ | ⟨-, hlen, -⟩ | ⟨-, -, -, he⟩
  · cases hw
  · cases hw
  · exact absurd hover hnot
  · rw [hone] at hlen
    cases hlen
  · rw [he, hone]
    rfl

/-- That run ends in a summary that is right. -/
theorem report_iff_silent :
    ((polled ⟨8, 1, 1⟩ silent 3).Right ↔
        (∃ k < 3, Sends ⟨8, 1, 1⟩ (silent k) (polled ⟨8, 1, 1⟩ silent k)) ∧
          ∀ k < 3, ¬ Twice ⟨8, 1, 1⟩ (silent k) (polled ⟨8, 1, 1⟩ silent k)) ∧
      ((∀ k s, (silent k).write s = s.length) → 8 ≤ 9 →
        ((polled ⟨8, 1, 1⟩ silent 3).Right ↔ 1 ≤ 1 ∧ (silent 0).signal = false)) :=
  report_iff polled_silent

/-- Without a frame to send the summary divides by zero. -/
theorem report_divides_by_zero :
    ¬ ∀ (uart : Uart) (polls : Nat → Poll) (n : Nat),
      (polled uart polls n).place = .summary → (polled uart polls n).Right := by
  intro h
  obtain ⟨-, rate, hrate⟩ := h ⟨8, 1, 0⟩ silent 1 rfl
  cases hrate

end Run

end Boxing.Serial
