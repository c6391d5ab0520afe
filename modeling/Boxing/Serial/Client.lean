import Mathlib.Algebra.Order.Ring.Unbundled.Rat
import Mathlib.Tactic.NormNum
import Boxing.Serial.Reassembly

/-!
# The client's count of echoes

`serialclient.py` sends a frame, reads what comes back until it has 15 characters
or the time is up, and counts the frame as received or as an error.  It knows an
echo only by what is in the input queue when it looks.  An echo that comes too
late is still in the queue, or on its way there, when the next frame is sent, and
nothing throws it away: the next frame's answer begins with it.

The echoes are the frames sent, in order, so the line is described by the number
of bytes that have arrived at each time, and a frame by the times at which the
client looked.  `late_echo_iff` says that the frame behind a late echo is never
counted as received, in whatever way the arrivals and the looks interleave.
-/

namespace Boxing.Serial

open C

/-! ### Frames and echoes -/

/-- The frame with this id: `datacon` in the order in which it is sent. -/
def send (datalength id : Nat) : Bytes :=
  frameOf id datalength (1 <<< datalength)
    (zfill 4 (dec (crc_sum (crc_data id datalength (1 <<< datalength))
      (crc_data id datalength (1 <<< datalength)).length)))

/-- Byte `n` of everything that is echoed, in frames of 15 bytes. -/
def echo (datalength n : Nat) : UInt8 := (send datalength (n / 15 + 1)).getD (n % 15) 0

/-- `len` bytes of it, from byte `start` on. -/
def echoed (datalength start len : Nat) : Bytes :=
  (List.range len).map fun i => echo datalength (start + i)

/-- How many bytes of echo have arrived at each time. -/
structure Line where
  arrived : ℚ → Nat
  mono : Monotone arrived

/-! ### The client -/

/-- The options the loop reads. -/
structure Uart where
  length : Nat
  timeout : ℚ
  count : Nat

/-- The counters, and how many bytes have been read from the port. -/
structure Client where
  id : Nat
  send_num : Nat
  error_num : Nat
  recv_num : Nat
  read : Nat
deriving DecidableEq, Repr

/-- Before the loop. -/
def Client.start : Client := ⟨1, 0, 0, 0, 0⟩

/-- One turn of `while True`: the time at which `inWaiting()` found nothing more,
and `end_time`. -/
structure Look where
  emptied : ℚ
  end_time : ℚ

/-- The times of one frame. -/
structure Turn where
  start_time : ℚ
  looks : List Look

/-- A frame that has been dealt with, and the time from which on its echo is late:
the time allowed is over, and the client has looked for the last time. -/
structure Report where
  before : Client
  after : Client
  ended : ℚ

/-- `while True`: `flag`, and the turn with the `break`. -/
def wait (line : Line) (timeout start_time : ℚ) (read : Nat) : List Look → Option (Bool × Look)
  | [] => none
  | look :: looks =>
    if line.arrived look.emptied - read = 15 then some (false, look)
    else if look.end_time - start_time + 1 / 10 > timeout then some (true, look)
    else wait line timeout start_time read looks

/-- Behind the loop: what has been read is compared and counted. -/
def count_echo (uart : Uart) (line : Line) (c : Client) (start_time : ℚ) (flag : Bool) (look : Look) :
    Report :=
  let recv_msg := echoed uart.length c.read (line.arrived look.emptied - c.read)
  let timeouts := if flag then 1 else 0
  { before := c
    after :=
      { id := c.id + 1
        send_num := c.send_num + 1
        error_num := if recv_msg = send uart.length c.id ∨ flag = true then c.error_num + timeouts
          else c.error_num + timeouts + 1
        recv_num := if recv_msg = send uart.length c.id then c.recv_num + 1 else c.recv_num
        read := line.arrived look.emptied }
    ended := max (start_time + uart.timeout - 1 / 10) look.emptied }

/-- One frame.  `write` returns the length of the frame, and where that is not 15
the client sends it again for ever. -/
def turn (uart : Uart) (line : Line) (c : Client) (t : Turn) : Option Report :=
  if c.id < uart.count + 1 ∧ (send uart.length c.id).length = 15 then
    (wait line uart.timeout t.start_time c.read t.looks).map fun x =>
      count_echo uart line c t.start_time x.1 x.2
  else none

/-- A run of the client, frame by frame. -/
def run (uart : Uart) (line : Line) : Client → List Turn → Option (List Report)
  | _, [] => some []
  | c, t :: ts =>
    (turn uart line c t).bind fun r => (run uart line r.after ts).map fun rs => r :: rs

/-- Counted as received and not as an error. -/
def Counted (r : Report) : Prop :=
  r.after.recv_num = r.before.recv_num + 1 ∧ r.after.error_num = r.before.error_num

/-- The complete echo of frame `k` has arrived when its time is over. -/
def InTime (line : Line) (k : Nat) (r : Report) : Prop := 15 * (k + 1) ≤ line.arrived r.ended

/-- It has not: its last byte is still to come. -/
def Late (line : Line) (k : Nat) (r : Report) : Prop := line.arrived r.ended < 15 * (k + 1)

/-! ### An answer that begins too early -/

theorem length_zfill_dec_le (w n : Nat) : w ≤ (zfill w (dec n)).length := by
  rw [zfill, List.length_append, List.length_replicate]
  omega

theorem isDigit_of_mem_zfill_dec {w n : Nat} : ∀ c ∈ zfill w (dec n), isDigit c = true :=
  isDigit_of_mem_zfill fun _ => isDigit_of_mem_dec

theorem frameOf_eq (i length data : Nat) (c : Bytes) :
    frameOf i length data c
      = chS :: (zfill 4 (dec i) ++ (zfill 2 (dec length) ++ zfill 3 (dec data) ++ c ++ [chD])) := by
  have hS : asc "S" = [chS] := by decide
  have hD : asc "D" = [chD] := by decide
  simp only [frameOf, hS, hD, List.append_assoc, List.cons_append, List.nil_append]

/-- A frame of 15 bytes is an `S`, the id in four digits, nine more digits and a `D`. -/
theorem send_eq {datalength id : Nat} (h : (send datalength id).length = 15) :
    ∃ s : Bytes, send datalength id = chS :: (zfill 4 (dec id) ++ (s ++ [chD])) ∧
      (zfill 4 (dec id)).length = 4 ∧ ∀ c ∈ s, isDigit c = true := by
  unfold send at h ⊢
  generalize crc_sum (crc_data id datalength (1 <<< datalength))
    (crc_data id datalength (1 <<< datalength)).length = crc at h ⊢
  have h4 := length_zfill_dec_le 4 id
  have h2 := length_zfill_dec_le 2 datalength
  have h3 := length_zfill_dec_le 3 (1 <<< datalength)
  have hc := length_zfill_dec_le 4 crc
  rw [frameOf_eq] at h ⊢
  simp only [List.length_cons, List.length_append] at h
  refine ⟨_, rfl, by omega, fun c hc => ?_⟩
  rcases List.mem_append.mp hc with hc | hc
  · rcases List.mem_append.mp hc with hc | hc
    · exact isDigit_of_mem_zfill_dec c hc
    · exact isDigit_of_mem_zfill_dec c hc
  · exact isDigit_of_mem_zfill_dec c hc

/-- Ids up to 9999 and up to nine data bits give frames of 15 bytes. -/
theorem length_send {datalength id : Nat} (hid : id < 10 ^ 4) (hlength : datalength ≤ 9) :
    (send datalength id).length = 15 := by
  have hdata : 1 <<< datalength < 10 ^ 3 := by
    rw [Nat.one_shiftLeft]
    exact Nat.lt_of_le_of_lt (Nat.pow_le_pow_right (by decide) hlength) (by decide)
  have hcrc : crc_sum (crc_data id datalength (1 <<< datalength))
      (crc_data id datalength (1 <<< datalength)).length < 10 ^ 4 :=
    Nat.lt_trans (Nat.mod_lt _ (by decide)) (by decide)
  have l1 := length_zfill (length_dec_le (by decide : 0 < 4) hid)
  have l2 := length_zfill (length_dec_le (by decide : 0 < 2) (by omega : datalength < 10 ^ 2))
  have l3 := length_zfill (length_dec_le (by decide : 0 < 3) hdata)
  have l4 := length_zfill (length_dec_le (by decide : 0 < 4) hcrc)
  rw [send, frameOf_eq]
  simp only [List.length_cons, List.length_append, List.length_nil]
  omega

/-- The `S` of a frame is its first byte and no other. -/
theorem getD_send {datalength id n : Nat} (h : (send datalength id).length = 15) (hn : n < 15)
    (hS : (send datalength id).getD n 0 = chS) : n = 0 := by
  obtain ⟨s, he, -, hs⟩ := send_eq h
  cases n with
  | zero => rfl
  | succ n =>
    rw [he, List.length_cons] at h
    rw [he, List.getD_cons_succ, List.getD_eq_getElem _ _ (by omega)] at hS
    have hmem := List.getElem_mem (l := zfill 4 (dec id) ++ (s ++ [chD])) (n := n) (by omega)
    rw [hS] at hmem
    rcases List.mem_append.mp hmem with hm | hm
    · exact absurd rfl (ne_chS_of_isDigit (isDigit_of_mem_zfill_dec _ hm))
    · rcases List.mem_append.mp hm with hm | hm
      · exact absurd rfl (ne_chS_of_isDigit (hs _ hm))
      · exact absurd hm (by decide)

/-- The digits can be read back from their characters. -/
theorem map_toNat_digits {n : Nat} :
    ((Nat.digits 10 n).map fun d => UInt8.ofNat (48 + d)).map (fun c => c.toNat - 48)
      = Nat.digits 10 n := by
  rw [List.map_map]
  refine (List.map_congr_left fun d hd => ?_).trans (List.map_id _)
  have := toNat_digit (Nat.digits_lt_base (by decide : 1 < 10) hd)
  show (UInt8.ofNat (48 + d)).toNat - 48 = d
  omega

/-- `str` of positive numbers is injective, and stays so under `zfill`. -/
theorem zfill_dec_inj {w m n : Nat} (hm : 0 < m) (hn : 0 < n)
    (h : zfill w (dec m) = zfill w (dec n)) : m = n := by
  have hdec : dec m = dec n := by
    rw [← dropZeros_dec hm, ← dropZeros_dec hn, ← dropZeros_zfill w, ← dropZeros_zfill w (dec n), h]
  rw [dec_of_pos hm, dec_of_pos hn] at hdec
  have hmap := congrArg (List.map fun c => c.toNat - 48) (List.reverse_injective hdec)
  rw [map_toNat_digits, map_toNat_digits] at hmap
  exact Nat.digits_inj_iff.mp hmap

/-- Frames with different ids differ. -/
theorem send_inj {datalength m n : Nat} (hm : 0 < m) (hn : 0 < n)
    (hlm : (send datalength m).length = 15) (hln : (send datalength n).length = 15)
    (h : send datalength m = send datalength n) : m = n := by
  obtain ⟨s, hes, hls, -⟩ := send_eq hlm
  obtain ⟨t, het, hlt, -⟩ := send_eq hln
  rw [hes, het] at h
  exact zfill_dec_inj hm hn (List.append_inj_left (List.cons.inj h).2 (hls.trans hlt.symm))

theorem length_echoed (datalength start len : Nat) : (echoed datalength start len).length = len := by
  rw [echoed, List.length_map, List.length_range]

/-- The echo of one frame, cut out of the stream, is that frame. -/
theorem echoed_frame {datalength k : Nat} (h : (send datalength (k + 1)).length = 15) :
    echoed datalength (15 * k) 15 = send datalength (k + 1) := by
  apply List.ext_getElem (by rw [length_echoed, h])
  intro i h₁ h₂
  rw [h] at h₂
  simp only [echoed, List.getElem_map, List.getElem_range, echo]
  rw [show (15 * k + i) / 15 = k by omega, show (15 * k + i) % 15 = i by omega,
    List.getD_eq_getElem]

/-- **An answer that begins too early.**  What is read from before the echo of a
frame on is not that frame: it begins inside an earlier one, or is an earlier one. -/
theorem echoed_ne_send {datalength k start len : Nat} (hstart : start < 15 * k)
    (hlen : ∀ m ≤ k, (send datalength (m + 1)).length = 15) :
    echoed datalength start len ≠ send datalength (k + 1) := by
  intro h
  have h15 : len = 15 := by rw [← length_echoed datalength start len, h, hlen k (le_refl k)]
  subst h15
  have hfirst : echo datalength start = chS := by
    obtain ⟨s, he, -⟩ := send_eq (hlen k (le_refl k))
    have := congrArg (fun l => l.getD 0 0) h
    rw [he] at this
    simpa [echoed, List.range_succ_eq_map] using this
  have hzero : start % 15 = 0 :=
    getD_send (hlen (start / 15) (by omega)) (Nat.mod_lt _ (by decide)) hfirst
  have hframe : echoed datalength start 15 = send datalength (start / 15 + 1) := by
    have := echoed_frame (hlen (start / 15) (by omega))
    rwa [show 15 * (start / 15) = start by omega] at this
  have := send_inj (by omega) (by omega) (hlen (start / 15) (by omega)) (hlen k (le_refl k))
    (hframe.symm.trans h)
  omega

/-! ### Runs -/

section Run

variable {uart : Uart} {line : Line}

/-- What one frame does. -/
theorem turn_spec {c : Client} {t : Turn} {r : Report} (h : turn uart line c t = some r) :
    r.before = c ∧ r.after.id = c.id + 1 ∧ (send uart.length c.id).length = 15 ∧
      r.after.read ≤ line.arrived r.ended ∧
      (Counted r → ∃ len, echoed uart.length c.read len = send uart.length c.id) := by
  unfold turn at h
  split at h
  · rename_i hid
    obtain ⟨⟨flag, look⟩, -, rfl⟩ := Option.map_eq_some_iff.mp h
    refine ⟨rfl, rfl, hid.2, line.mono (le_max_right _ _), fun hc => ?_⟩
    by_contra hne
    have hneq : echoed uart.length c.read (line.arrived look.emptied - c.read)
        ≠ send uart.length c.id := fun he => hne ⟨_, he⟩
    have := hc.1
    simp only [count_echo, if_neg hneq] at this
    omega
  · cases h

/-- Frame `k` of a run has the id `k` from the first one on, and was 15 bytes long. -/
theorem run_frame : ∀ {ts : List Turn} {c : Client} {rs : List Report},
    run uart line c ts = some rs → ∀ {k : Nat} {r : Report}, rs[k]? = some r →
    r.before.id = c.id + k ∧ ∃ t, turn uart line r.before t = some r := by
  intro ts
  induction ts with
  | nil =>
    intro c rs h k r hr
    rw [← Option.some.inj h] at hr
    simp at hr
  | cons t ts ih =>
    intro c rs h k r hr
    obtain ⟨r₀, hturn, hrest⟩ := Option.bind_eq_some_iff.mp h
    obtain ⟨rs', hrs, rfl⟩ := Option.map_eq_some_iff.mp hrest
    obtain ⟨hbefore, hid, -⟩ := turn_spec hturn
    cases k with
    | zero =>
      obtain rfl : r₀ = r := by simpa using hr
      rw [hbefore]
      exact ⟨rfl, t, hturn⟩
    | succ k =>
      obtain ⟨hk, ht⟩ := ih hrs (k := k) (r := r) (by simpa using hr)
      exact ⟨by rw [hk, hid]; omega, ht⟩

/-- The next frame begins where this one has ended. -/
theorem run_next : ∀ {ts : List Turn} {c : Client} {rs : List Report},
    run uart line c ts = some rs → ∀ {k : Nat} {r r' : Report}, rs[k]? = some r →
    rs[k + 1]? = some r' → r'.before = r.after := by
  intro ts
  induction ts with
  | nil =>
    intro c rs h k r r' hr
    rw [← Option.some.inj h] at hr
    simp at hr
  | cons t ts ih =>
    intro c rs h k r r' hr hr'
    obtain ⟨r₀, hturn, hrest⟩ := Option.bind_eq_some_iff.mp h
    obtain ⟨rs', hrs, rfl⟩ := Option.map_eq_some_iff.mp hrest
    rw [List.getElem?_cons_succ] at hr'
    cases k with
    | zero =>
      obtain rfl : r₀ = r := by simpa using hr
      cases ts with
      | nil =>
        rw [← Option.some.inj hrs] at hr'
        simp at hr'
      | cons t' ts =>
        obtain ⟨r₁, hturn', hrest'⟩ := Option.bind_eq_some_iff.mp hrs
        obtain ⟨rs'', -, rfl⟩ := Option.map_eq_some_iff.mp hrest'
        obtain rfl : r₁ = r' := by simpa using hr'
        exact (turn_spec hturn').1
    | succ k => exact ih hrs (by simpa using hr) hr'

/-- **The frame behind a late echo** is not counted. -/
theorem not_counted_of_late {ts : List Turn} {rs : List Report}
    (h : run uart line Client.start ts = some rs) {k : Nat} {r r' : Report} (hr : rs[k]? = some r)
    (hr' : rs[k + 1]? = some r') (hlate : Late line k r) : ¬ Counted r' := by
  intro hc
  obtain ⟨-, t, hturn⟩ := run_frame h hr
  obtain ⟨hid', t', hturn'⟩ := run_frame h hr'
  obtain ⟨-, -, -, hread, -⟩ := turn_spec hturn
  obtain ⟨-, -, -, -, hcount⟩ := turn_spec hturn'
  obtain ⟨len, he⟩ := hcount hc
  rw [run_next h hr hr'] at he hid'
  rw [hid'] at he
  have hid : Client.start.id + (k + 1) = k + 1 + 1 := by
    show 1 + (k + 1) = k + 1 + 1
    omega
  rw [hid] at he
  refine echoed_ne_send (Nat.lt_of_le_of_lt hread hlate) (fun m hm => ?_) he
  -- every frame up to this one has been sent
  have hm' : m < rs.length := by
    have := (List.getElem?_eq_some_iff.mp hr').1
    omega
  obtain ⟨hidm, tm, hturnm⟩ := run_frame h (List.getElem?_eq_getElem hm')
  have := (turn_spec hturnm).2.2.1
  rwa [hidm, show Client.start.id + m = m + 1 from Nat.add_comm 1 m] at this

/-- Of a late frame and a later one in time, some two stand next to each other. -/
theorem exists_late_next {rs : List Report} {i : Nat} {ri : Report} (hi : rs[i]? = some ri)
    (hlate : Late line i ri) : ∀ n {rj : Report}, rs[i + 1 + n]? = some rj →
    InTime line (i + 1 + n) rj → ∃ k r r', i ≤ k ∧ rs[k]? = some r ∧ rs[k + 1]? = some r' ∧
      Late line k r ∧ InTime line (k + 1) r' := by
  intro n
  induction n with
  | zero =>
    intro rj hj htime
    exact ⟨i, ri, rj, le_refl i, hi, hj, hlate, htime⟩
  | succ n ih =>
    intro rj hj htime
    have hlt : i + 1 + n < rs.length := by
      have := (List.getElem?_eq_some_iff.mp hj).1
      omega
    have hn := List.getElem?_eq_getElem hlt
    -- either the frame before this one is late, or it is in time and stands nearer to `i`
    rcases Nat.lt_or_ge (line.arrived rs[i + 1 + n].ended) (15 * (i + 1 + n + 1)) with hl | ht
    · exact ⟨i + 1 + n, _, rj, by omega, hn, hj, hl, htime⟩
    · exact ih hn ht

/-- **What a late echo costs.**  The frames behind a late echo whose own echoes are in
time are all counted only where there are none: the first of them is not. -/
theorem late_echo_iff (uart : Uart) (line : Line) (ts : List Turn) (rs : List Report)
    (h : run uart line Client.start ts = some rs) :
    (∀ i j ri rj, i < j → rs[i]? = some ri → rs[j]? = some rj → Late line i ri →
        InTime line j rj → Counted rj) ↔
      ∀ i j ri rj, i < j → rs[i]? = some ri → rs[j]? = some rj → Late line i ri →
        ¬ InTime line j rj := by
  constructor
  · intro hall i j ri rj hij hi hj hlate htime
    obtain ⟨n, rfl⟩ : ∃ n, j = i + 1 + n := ⟨j - (i + 1), by omega⟩
    obtain ⟨k, r, r', -, hr, hr', hk, hk'⟩ := exists_late_next hi hlate n hj htime
    exact not_counted_of_late h hr hr' hk (hall k (k + 1) r r' (by omega) hr hr' hk hk')
  · intro hnone i j ri rj hij hi hj hlate htime
    exact absurd htime (hnone i j ri rj hij hi hj hlate)

end Run

/-! ### A late echo

The first echo comes half a second after its time was over, the second one in time. -/

/-- When the bytes arrive. -/
def lateLine : Line where
  arrived t := if t < 2 then 0 else if t < 11 / 5 then 15 else 30
  mono := by
    intro a b hab
    dsimp only
    split_ifs <;> first | omega | (exfalso; linarith)

/-- Eight data bits, a second for each frame. -/
def lateUart : Uart := ⟨8, 1, 2⟩

def lateTurns : List Turn := [⟨0, [⟨1, 1⟩]⟩, ⟨3 / 2, [⟨2, 2⟩]⟩]

/-- The first frame is counted as an error, its time being over. -/
def lateFirst : Report := ⟨⟨1, 0, 0, 0, 0⟩, ⟨2, 1, 1, 0, 0⟩, 1⟩

/-- So is the second, the answer being the first. -/
def lateSecond : Report := ⟨⟨2, 1, 1, 0, 0⟩, ⟨3, 2, 2, 0, 15⟩, 12 / 5⟩

theorem length_send_lateUart (c : Client) (h : c.id < 10 ^ 4) :
    (send lateUart.length c.id).length = 15 := length_send h (by decide)

/-- The whole run. -/
theorem run_lateTurns :
    run lateUart lateLine Client.start lateTurns = some [lateFirst, lateSecond] := by
  have hwait : wait lateLine 1 0 0 [⟨1, 1⟩] = some (true, ⟨1, 1⟩) := by
    simp only [wait, lateLine]
    norm_num
  have hwait' : wait lateLine 1 (3 / 2) 0 [⟨2, 2⟩] = some (false, ⟨2, 2⟩) := by
    simp only [wait, lateLine]
    norm_num
  have hempty : echoed 8 0 0 ≠ send 8 1 := by
    intro h
    have := congrArg List.length h
    rw [length_echoed, length_send (by decide) (by decide)] at this
    cases this
  have hfirst : echoed 8 0 15 ≠ send 8 2 :=
    echoed_ne_send (by decide) fun m hm => length_send (by omega) (by decide)
  have hturn : turn lateUart lateLine Client.start ⟨0, [⟨1, 1⟩]⟩ = some lateFirst := by
    rw [turn, if_pos ⟨by decide, length_send_lateUart _ (by decide)⟩]
    show (wait lateLine 1 0 0 [⟨1, 1⟩]).map _ = _
    rw [hwait, Option.map_some, count_echo]
    have harr : lateLine.arrived 1 = 0 := by norm_num [lateLine]
    simp only [harr, Client.start, lateUart, Nat.sub_zero, hempty, false_or, if_true, if_false]
    norm_num [lateFirst]
  have hturn' : turn lateUart lateLine ⟨2, 1, 1, 0, 0⟩ ⟨3 / 2, [⟨2, 2⟩]⟩ = some lateSecond := by
    rw [turn, if_pos ⟨by decide, length_send_lateUart _ (by decide)⟩]
    show (wait lateLine 1 (3 / 2) 0 [⟨2, 2⟩]).map _ = _
    rw [hwait', Option.map_some, count_echo]
    have harr : lateLine.arrived 2 = 15 := by norm_num [lateLine]
    simp only [harr, lateUart, Nat.sub_zero, hfirst, false_or, if_false]
    norm_num [lateSecond]
  rw [lateTurns, run, hturn, Option.bind_some, run]
  show Option.map _ ((turn lateUart lateLine ⟨2, 1, 1, 0, 0⟩ ⟨3 / 2, [⟨2, 2⟩]⟩).bind _) = _
  rw [hturn', Option.bind_some, run]
  rfl

theorem late_lateFirst : Late lateLine 0 lateFirst := by
  norm_num [Late, lateLine, lateFirst]

theorem inTime_lateSecond : InTime lateLine 1 lateSecond := by
  norm_num [InTime, lateLine, lateSecond]

/-- That run fails on both sides: the second frame stands behind a late one, in time. -/
theorem late_echo_iff_lateTurns :
    (∀ i j ri rj, i < j → [lateFirst, lateSecond][i]? = some ri →
        [lateFirst, lateSecond][j]? = some rj → Late lateLine i ri → InTime lateLine j rj →
        Counted rj) ↔
      ∀ i j ri rj, i < j → [lateFirst, lateSecond][i]? = some ri →
        [lateFirst, lateSecond][j]? = some rj → Late lateLine i ri → ¬ InTime lateLine j rj :=
  late_echo_iff lateUart lateLine lateTurns _ run_lateTurns

/-- The second echo comes in time and is counted as an error. -/
theorem echo_behind_late_not_counted :
    ¬ ∀ (uart : Uart) (line : Line) (ts : List Turn) (rs : List Report),
      run uart line Client.start ts = some rs → ∀ i j ri rj, i < j → rs[i]? = some ri →
        rs[j]? = some rj → Late line i ri → InTime line j rj → Counted rj := by
  intro h
  exact absurd (h lateUart lateLine lateTurns _ run_lateTurns 0 1 lateFirst lateSecond (by decide)
    rfl rfl late_lateFirst inTime_lateSecond).1 (by decide)

end Boxing.Serial
