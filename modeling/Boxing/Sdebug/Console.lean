import Mathlib.Data.List.Count
import Mathlib.Data.List.GetD
import Boxing.C.Lines

/-!
# The serial console

`sdebug_main` reads what is typed into `consoleBuf`, behind what is still there of an
unfinished line.  When it comes to the end of a line it sends the line with CR LF to the
device, and clears the buffer.

It clears all of it.  What a read has brought behind the end of a line is never sent: typed
lines come one at a time, pasted ones do not.  A CR counts as the end of a line, and a NUL
inside a line is where `strcat` puts the CR LF.  Apart from these every line is sent once
(`forwarded_iff`).

For the other direction the run keeps accounts.  Each line that is sent is one byte longer
than what it was made of and has a newline in it, so there cannot be a byte too few as long
as there is no newline too many (`Tally`).
-/

namespace Boxing.Sdebug

open C

/-- `sizeof(consoleBuf)`. -/
def consoleSize : Nat := 1024

/-- The buffer, and what has been written to the device. -/
structure Console where
  consoleBuf : Bytes
  nConsoleLen : Nat
  sent : Bytes
  quit : Bool
deriving Repr

/-- `tolower`. -/
def tolower (c : UInt8) : UInt8 := if 65 ≤ c ∧ c ≤ 90 then c + 32 else c

/-- `strncasecmp(s, word, 6) == 0`, for a word of six letters. -/
def begins (s word : Bytes) : Bool := (s.take 6).map tolower == word

/-- The word that ends the program. -/
def quitit : Bytes := asc "quitit"

/-- The word that is sent as one byte. -/
def ctrlz : Bytes := asc "ctrl+z"

/-- `strcat(m, s)`. -/
def strcat (m s : Bytes) : Option Bytes := (strlen m).bind fun k => strcpy m k s

/-- The end of a line at `i`: the line is sent and the buffer cleared. -/
def send_line (s : Console) (i : Nat) : Option Console :=
  (store s.consoleBuf i [0]).bind fun buf =>
    (strcat buf [13, 10]).bind fun buf =>
      if i + 2 ≤ buf.length then
        some { s with
          consoleBuf := List.replicate consoleSize 0
          nConsoleLen := 0
          sent := s.sent ++ buf.take (i + 2) }
      else none

/-- `for (i = 0; i < nConsoleLen; i++)`, from `i` on.  Behind a line that has been sent
`nConsoleLen` is 0, and the loop ends. -/
def scan (s : Console) (i : Nat) : Option Console :=
  if i < s.nConsoleLen then
    if s.consoleBuf.getD i 0 = 13 ∨ s.consoleBuf.getD i 0 = 10 then send_line s i
    else scan s (i + 1)
  else some s
termination_by s.nConsoleLen - i

/-- One round with `d` from the console; `none` outside the buffer. -/
def turn (s : Console) (d : Bytes) : Option Console :=
  if s.quit = true then some s
  else
    (store s.consoleBuf s.nConsoleLen d).bind fun buf =>
      if begins buf quitit = true then
        some { s with consoleBuf := buf, nConsoleLen := s.nConsoleLen + d.length, quit := true }
      else if begins buf ctrlz = true then
        scan { s with
          consoleBuf := List.replicate consoleSize 0
          nConsoleLen := 0
          sent := s.sent ++ [0x1A] } 0
      else scan { s with consoleBuf := buf, nConsoleLen := s.nConsoleLen + d.length } 0

/-- The rounds for a sequence of reads. -/
def turns (s : Console) (reads : List Bytes) : Option Console := reads.foldlM turn s

/-- Before anything is typed. -/
def Console.start : Console := ⟨List.replicate consoleSize 0, 0, [], false⟩

/-- No `read` brings more than there is room for. -/
def Fits : Console → List Bytes → Prop
  | _, [] => True
  | s, d :: reads => s.nConsoleLen + d.length ≤ consoleSize ∧
      ∀ s', turn s d = some s' → Fits s' reads

/-- A line as it may be typed. -/
structure Typed (l : Bytes) : Prop where
  newline : 10 ∉ l
  length_lt : l.length < 1000
  quitit : begins l quitit = false
  ctrlz : begins l ctrlz = false

/-- Each line has been sent with CR LF, in order. -/
def Forwarded (lines : List Bytes) (reads : List Bytes) : Prop :=
  ∃ s', turns .start reads = some s' ∧ s'.sent = lines.flatMap (· ++ [13, 10])

/-! ### The buffer -/

/-- `p` waits in the buffer, an unfinished line. -/
structure Console.Holds (s : Console) (p : Bytes) : Prop where
  buf : s.consoleBuf = padded consoleSize p
  len : s.nConsoleLen = p.length
  le : p.length ≤ consoleSize
  open_ : 10 ∉ p ∧ 13 ∉ p
  running : s.quit = false

theorem start_holds : Console.start.Holds [] where
  buf := (padded_nil _).symm
  len := rfl
  le := Nat.zero_le _
  open_ := ⟨List.not_mem_nil, List.not_mem_nil⟩
  running := rfl

section Buffer

variable {s s' : Console} {p d e r l : Bytes} {c : UInt8} {i n : Nat}

theorem store_behind (h : p.length + d.length ≤ n) :
    store (padded n p) p.length d = some (padded n (p ++ d)) := by
  have := store_padded (n := n) (s := p) d [] (by simp) (by simpa using h)
  rwa [List.append_nil] at this

theorem length_of_store {m : Bytes} {pos : Nat} (h : store m pos d = some r) :
    pos + d.length ≤ m.length ∧ r.length = m.length := by
  rw [store] at h
  split at h
  · rename_i hle
    refine ⟨hle, ?_⟩
    rw [← Option.some.inj h]
    simp only [List.length_append, List.length_take, List.length_drop]
    omega
  · cases h

theorem getD_padded (p d : Bytes) (c : UInt8) (n : Nat) :
    (padded n (p ++ c :: d)).getD p.length 0 = c := by
  rw [padded, List.getD_append _ _ _ _ (by simp), List.getD_append_right _ _ _ _ (le_refl _),
    Nat.sub_self, List.getD_cons_zero]

/-- Up to the end of a line nothing happens. -/
theorem scan_append (hbuf : s.consoleBuf = padded consoleSize (p ++ (e ++ r)))
    (hlen : s.nConsoleLen = (p ++ (e ++ r)).length) (he : 10 ∉ e ∧ 13 ∉ e) :
    scan s p.length = scan s (p ++ e).length := by
  induction e generalizing p with
  | nil => rw [List.append_nil]
  | cons c e ih =>
    obtain ⟨h10, h10e⟩ := List.ne_and_not_mem_of_not_mem_cons he.1
    obtain ⟨h13, h13e⟩ := List.ne_and_not_mem_of_not_mem_cons he.2
    have hget : s.consoleBuf.getD p.length 0 = c := by rw [hbuf, List.cons_append, getD_padded]
    have hlt : p.length < s.nConsoleLen := by
      rw [hlen]
      simp only [List.length_append, List.length_cons]
      omega
    have hshift : p ++ (c :: e ++ r) = (p ++ [c]) ++ (e ++ r) := by simp
    rw [scan, if_pos hlt, hget, if_neg (by rintro (h | h); exacts [h13 h.symm, h10 h.symm])]
    have := ih (p := p ++ [c]) (hshift ▸ hbuf) (hshift ▸ hlen) ⟨h10e, h13e⟩
    rw [List.length_append, List.length_singleton] at this
    rw [this, List.append_assoc, List.singleton_append]

/-- A buffer without the end of a line. -/
theorem scan_open (hbuf : s.consoleBuf = padded consoleSize p) (hlen : s.nConsoleLen = p.length)
    (hp : 10 ∉ p ∧ 13 ∉ p) : scan s 0 = some s := by
  have h := scan_append (p := []) (e := p) (r := []) (by simpa using hbuf) (by simpa using hlen) hp
  rw [List.length_nil, List.nil_append] at h
  rw [h, scan, if_neg (by omega)]

/-- The first end of a line. -/
theorem scan_line (hbuf : s.consoleBuf = padded consoleSize (e ++ c :: r))
    (hlen : s.nConsoleLen = (e ++ c :: r).length) (he : 10 ∉ e ∧ 13 ∉ e) (hc : c = 13 ∨ c = 10) :
    scan s 0 = send_line s e.length := by
  have h := scan_append (p := []) (by simpa using hbuf) (by simpa using hlen) he
  rw [List.length_nil, List.nil_append] at h
  have hlt : e.length < s.nConsoleLen := by
    rw [hlen, List.length_append, List.length_cons]
    omega
  have hget : s.consoleBuf.getD e.length 0 = c := by rw [hbuf, getD_padded]
  rw [h, scan, if_pos hlt, hget, if_pos hc]

/-! ### A line that is sent -/

/-- The length up to the first NUL. -/
theorem strlen_append (a b : Bytes) : strlen (a ++ 0 :: b) = some (str a).length := by
  induction a with
  | nil => rfl
  | cons c a ih =>
    rw [List.cons_append, strlen]
    by_cases hc : c = 0
    · rw [if_pos hc, hc]
      rfl
    · have hstr : str (c :: a) = c :: str a := List.takeWhile_cons_of_pos (by simpa using hc)
      rw [if_neg hc, ih, hstr]
      rfl

theorem str_begins (a : Bytes) : str a <+: a := List.takeWhile_prefix _

theorem length_str_le (a : Bytes) : (str a).length ≤ a.length := (str_begins a).length_le

/-- What is sent ends a line, and is one byte longer than the line with its end. -/
theorem send_line_some (h : send_line s i = some s') : ∃ piece : Bytes,
    s' = { s with
      consoleBuf := List.replicate consoleSize 0
      nConsoleLen := 0
      sent := s.sent ++ piece } ∧ piece.length = i + 2 ∧ 10 ∈ piece := by
  obtain ⟨buf, hbuf, h⟩ := Option.bind_eq_some_iff.mp h
  obtain ⟨buf', hcat, h⟩ := Option.bind_eq_some_iff.mp h
  split at h
  swap
  · cases h
  rename_i hle
  refine ⟨buf'.take (i + 2), (Option.some.inj h).symm, List.length_take_of_le hle, ?_⟩
  -- the NUL at `i` is the first one, or behind it
  rw [store] at hbuf
  split at hbuf
  swap
  · cases hbuf
  rename_i hi
  have hsplit : buf = s.consoleBuf.take i ++ 0 :: s.consoleBuf.drop (i + 1) := by
    rw [← Option.some.inj hbuf]
    simp
  have hk : (str (s.consoleBuf.take i)).length ≤ i :=
    (length_str_le _).trans (List.length_take_le _ _)
  rw [strcat, hsplit, strlen_append, Option.bind_some, strcpy, store] at hcat
  split at hcat
  swap
  · cases hcat
  rename_i hroom
  generalize (str (s.consoleBuf.take i)).length = k at hk hcat hroom
  rw [← Option.some.inj hcat]
  generalize s.consoleBuf.take i ++ 0 :: s.consoleBuf.drop (i + 1) = m at hroom ⊢
  have hklen : (m.take k).length = k := List.length_take_of_le (by simp at hroom; omega)
  have hpre : m.take k ++ [13, 10] <+: (m.take k ++ ([13, 10] ++ [0])
      ++ m.drop (k + ([13, 10] ++ [0] : Bytes).length)).take (i + 2) := by
    rw [List.prefix_take_iff]
    refine ⟨⟨0 :: m.drop (k + 3), by simp⟩, ?_⟩
    rw [List.length_append, hklen]
    exact Nat.add_le_add_right hk 2
  exact hpre.subset (by simp)

/-- What a line is sent as. -/
def piece (l : Bytes) : Bytes :=
  (str l ++ [13, 10, 0] ++ (padded consoleSize l).drop ((str l).length + 3)).take (l.length + 2)

theorem length_piece (hl : l.length + 3 ≤ consoleSize) : (piece l).length = l.length + 2 := by
  have hk := length_str_le l
  rw [piece, List.length_take]
  simp only [List.length_append, List.length_drop, List.length_cons, List.length_nil]
  rw [length_padded (by omega)]
  omega

theorem piece_of_not_mem (h : 0 ∉ l) : piece l = l ++ [13, 10] := by
  rw [piece, str_of_not_mem l h]
  simp [List.take_append]

theorem not_mem_of_piece (h : piece l = l ++ [13, 10]) : 0 ∉ l := by
  intro h0
  obtain ⟨a, t, rfl, ha⟩ := List.eq_append_cons_of_mem h0
  have hget := congrArg (·[a.length]?) h
  rw [piece, str_append_zero a t ha, List.getElem?_take_of_lt (by simp; omega)] at hget
  simp at hget

/-- A whole line goes to the device. -/
theorem send_line_last (hbuf : s.consoleBuf = padded consoleSize (l ++ [c]))
    (hl : l.length + 3 ≤ consoleSize) : send_line s l.length = some { s with
      consoleBuf := List.replicate consoleSize 0
      nConsoleLen := 0
      sent := s.sent ++ piece l } := by
  have hcut : store s.consoleBuf l.length [0] = some (padded consoleSize l) := by
    have hsplit : padded consoleSize (l ++ [c])
        = l ++ [c] ++ List.replicate (consoleSize - l.length - 1) 0 := by
      rw [padded, List.length_append, List.length_singleton, Nat.sub_sub]
    have hstore := store_append (a := l) (b := [c])
      (c := List.replicate (consoleSize - l.length - 1) 0) [0] rfl
    rw [hbuf, hsplit, hstore, padded_eq (by omega), List.append_assoc, List.singleton_append]
  have hk := length_str_le l
  have hcat : strcat (padded consoleSize l) [13, 10]
      = some (str l ++ [13, 10, 0] ++ (padded consoleSize l).drop ((str l).length + 3)) := by
    have hlen : (padded consoleSize l).length = consoleSize := length_padded (by omega)
    have hstrlen : strlen (padded consoleSize l) = some (str l).length := by
      rw [padded_eq (by omega), strlen_append]
    have htake : (padded consoleSize l).take (str l).length = str l := by
      rw [padded, List.take_append_of_le_length hk]
      exact List.prefix_iff_eq_take.mp (str_begins l) |>.symm
    rw [strcat, hstrlen, Option.bind_some, strcpy, store, if_pos (by rw [hlen]; simp; omega), htake]
    rfl
  have hlen := length_piece hl
  rw [piece, List.length_take] at hlen
  rw [send_line, hcut, Option.bind_some, hcat, Option.bind_some, if_pos (by omega)]
  rfl

/-! ### One read -/

/-- Up to its end a line is without CR and LF. -/
theorem line_cases (d : Bytes) : (10 ∉ d ∧ 13 ∉ d) ∨
    ∃ e c r, d = e ++ c :: r ∧ (10 ∉ e ∧ 13 ∉ e) ∧ (c = 13 ∨ c = 10) := by
  induction d with
  | nil => exact Or.inl ⟨List.not_mem_nil, List.not_mem_nil⟩
  | cons c d ih =>
    by_cases hc : c = 13 ∨ c = 10
    · exact Or.inr ⟨[], c, d, rfl, ⟨List.not_mem_nil, List.not_mem_nil⟩, hc⟩
    · obtain ⟨h13, h10⟩ := not_or.mp hc
      rcases ih with ⟨hd10, hd13⟩ | ⟨e, c', r, rfl, ⟨he10, he13⟩, hc'⟩
      · exact Or.inl ⟨by simp [Ne.symm h10, hd10], by simp [Ne.symm h13, hd13]⟩
      · exact Or.inr ⟨c :: e, c', r, rfl,
          ⟨by simp [Ne.symm h10, he10], by simp [Ne.symm h13, he13]⟩, hc'⟩

theorem length_of_begins {w : Bytes} (hw : w.length = 6) (h : begins p w = true) : 6 ≤ p.length := by
  have hlen := congrArg List.length (beq_iff_eq.mp h)
  rw [List.length_map, List.length_take, hw] at hlen
  omega

/-- The zeros behind the text are not part of a word. -/
theorem begins_padded {w : Bytes} (hw : w.length = 6) (h0 : 0 ∉ w) :
    begins (padded consoleSize p) w = begins p w := by
  rcases Nat.lt_or_ge p.length 6 with hlt | hge
  · have hfalse : begins p w = false := by
      rw [← Bool.not_eq_true]
      intro h
      have := length_of_begins hw h
      omega
    rw [hfalse, ← Bool.not_eq_true]
    intro h
    refine h0 ?_
    rw [← beq_iff_eq.mp h]
    refine List.mem_map.mpr ⟨0, ?_, rfl⟩
    rw [padded_eq (by unfold consoleSize; omega), List.take_append]
    obtain ⟨k, hk⟩ := Nat.exists_eq_add_of_lt hlt
    rw [hk, show p.length + k + 1 - p.length = k + 1 by omega, List.take_succ_cons]
    simp
  · rw [begins, begins, padded, List.take_append_of_le_length hge]

/-- What a read does. -/
inductive Turned (s : Console) (p d : Bytes) (s' : Console) : Prop
  /-- the program ends -/
  | full (quit : s'.quit = true) (sent : s'.sent = s.sent) (len : 6 ≤ (p ++ d).length)
  /-- the word is sent as one byte, and the rest is gone -/
  | word (holds : s'.Holds []) (sent : s'.sent = s.sent ++ [0x1A]) (len : 6 ≤ (p ++ d).length)
  /-- the line goes on -/
  | more (holds : s'.Holds (p ++ d)) (sent : s'.sent = s.sent)
  /-- the line is at its end, and what is behind it is gone -/
  | line (e : Bytes) (c : UInt8) (r sent : Bytes) (eq : d = e ++ c :: r) (open_ : 10 ∉ e ∧ 13 ∉ e)
    (end_ : c = 13 ∨ c = 10) (holds : s'.Holds []) (sent_eq : s'.sent = s.sent ++ sent)
    (len : sent.length = (p ++ e).length + 2) (newline : 10 ∈ sent)

theorem holds_cleared (sent : Bytes) :
    Console.Holds ⟨List.replicate consoleSize 0, 0, sent, false⟩ [] :=
  { start_holds with }

/-- **One read**, as far as the buffer is not left. -/
theorem turn_cases (h : s.Holds p) (ht : turn s d = some s') : Turned s p d s' := by
  obtain ⟨consoleBuf, nConsoleLen, sent, quit⟩ := s
  obtain ⟨rfl, rfl, hle, hopen, rfl⟩ := h
  unfold turn at ht
  rw [if_neg Bool.false_ne_true] at ht
  obtain ⟨buf, hbuf, ht⟩ := Option.bind_eq_some_iff.mp ht
  dsimp only at hbuf ht hle hopen
  have hfit := (length_of_store hbuf).1
  rw [length_padded hle] at hfit
  rw [store_behind hfit] at hbuf
  obtain rfl := Option.some.inj hbuf
  have hlen : (p ++ d).length ≤ consoleSize := by rw [List.length_append]; exact hfit
  rw [begins_padded rfl (by decide), begins_padded rfl (by decide)] at ht
  split at ht
  · rename_i hq
    rw [← Option.some.inj ht]
    exact .full rfl rfl (length_of_begins rfl hq)
  split at ht
  · rename_i hz
    rw [scan, if_neg (Nat.lt_irrefl 0)] at ht
    rw [← Option.some.inj ht]
    exact .word (holds_cleared _) rfl (length_of_begins rfl hz)
  rcases line_cases d with hd | ⟨e, c, r, rfl, he, hc⟩
  · have hopen' : 10 ∉ p ++ d ∧ 13 ∉ p ++ d := by simp [hopen, hd]
    rw [scan_open rfl (by simp) hopen'] at ht
    rw [← Option.some.inj ht]
    exact .more ⟨rfl, by simp, hlen, hopen', rfl⟩ rfl
  · have hopen' : 10 ∉ p ++ e ∧ 13 ∉ p ++ e := by simp [hopen, he]
    rw [scan_line (e := p ++ e) (c := c) (r := r) (by simp) (by simp) hopen' hc] at ht
    obtain ⟨piece, rfl, hpiece, hnl⟩ := send_line_some ht
    exact .line e c r piece rfl he hc (holds_cleared _) rfl hpiece hnl

/-- A read that leaves the line open. -/
theorem turn_more (h : s.Holds p) (hfit : s.nConsoleLen + d.length ≤ consoleSize)
    (hq : begins (p ++ d) quitit = false) (hz : begins (p ++ d) ctrlz = false)
    (hd : 10 ∉ d ∧ 13 ∉ d) : ∃ s', turn s d = some s' ∧ s'.Holds (p ++ d) ∧ s'.sent = s.sent := by
  obtain ⟨consoleBuf, nConsoleLen, sent, quit⟩ := s
  obtain ⟨rfl, rfl, hle, hopen, rfl⟩ := h
  dsimp only at hfit hle hopen
  have hlen : (p ++ d).length ≤ consoleSize := by rw [List.length_append]; exact hfit
  have hopen' : 10 ∉ p ++ d ∧ 13 ∉ p ++ d := by simp [hopen, hd]
  refine ⟨⟨padded consoleSize (p ++ d), (p ++ d).length, sent, false⟩, ?_,
    ⟨rfl, rfl, hlen, hopen', rfl⟩, rfl⟩
  unfold turn
  rw [if_neg Bool.false_ne_true, store_behind hfit, Option.bind_some, begins_padded rfl (by decide),
    begins_padded rfl (by decide), hq, hz, if_neg (by decide), if_neg (by decide),
    scan_open rfl (by simp) hopen', List.length_append]

/-- A read that ends with the line. -/
theorem turn_line (h : s.Holds p) (hfit : s.nConsoleLen + (e ++ [10]).length ≤ consoleSize)
    (hq : begins (p ++ (e ++ [10])) quitit = false) (hz : begins (p ++ (e ++ [10])) ctrlz = false)
    (he : 10 ∉ e ∧ 13 ∉ e) (hroom : (p ++ e).length + 3 ≤ consoleSize) :
    ∃ s', turn s (e ++ [10]) = some s' ∧ s'.Holds [] ∧ s'.sent = s.sent ++ piece (p ++ e) := by
  obtain ⟨consoleBuf, nConsoleLen, sent, quit⟩ := s
  obtain ⟨rfl, rfl, hle, hopen, rfl⟩ := h
  dsimp only at hfit hle hopen
  have hlen : (p ++ (e ++ [10])).length ≤ consoleSize := by rw [List.length_append]; exact hfit
  have hopen' : 10 ∉ p ++ e ∧ 13 ∉ p ++ e := by simp [hopen, he]
  refine ⟨_, ?_, holds_cleared _, rfl⟩
  unfold turn
  rw [if_neg Bool.false_ne_true, store_behind hfit, Option.bind_some, begins_padded rfl (by decide),
    begins_padded rfl (by decide), hq, hz, if_neg (by decide), if_neg (by decide),
    scan_line (e := p ++ e) (c := 10) (r := []) (by simp) (by simp) hopen' (Or.inr rfl),
    send_line_last (c := 10) (by simp) hroom]

/-- A line that is no word does not become one with its newline. -/
theorem not_begins_of_shorter {w : Bytes} (hw : w.length = 6) (h10 : 10 ∉ w) (hl : begins l w = false)
    (hp : p <+: l ++ [10]) : begins p w = false := by
  rw [← Bool.not_eq_true]
  intro h
  have h6 := length_of_begins hw h
  have htake : p.take 6 = (l ++ [10]).take 6 := by
    obtain ⟨t, ht⟩ := hp
    rw [← ht, List.take_append_of_le_length h6]
  rcases Nat.lt_or_ge l.length 6 with hlt | hge
  · refine h10 ?_
    rw [← beq_iff_eq.mp h, htake, List.take_of_length_le (by simp; omega)]
    exact List.mem_map.mpr ⟨10, by simp, rfl⟩
  · rw [List.take_append_of_le_length hge] at htake
    rw [begins, htake] at h
    exact Bool.noConfusion (hl.symm.trans h)

/-- The same with lines of which it is the beginning. -/
theorem not_begins_of_lines {w rest : Bytes} {lines : List Bytes} (hw : w.length = 6) (h10 : 10 ∉ w)
    (hbegins : ∀ l ∈ lines, begins l w = false) (hp : 10 ∉ p)
    (htext : p ++ rest = lines.flatMap (· ++ [10])) : begins p w = false := by
  cases lines with
  | nil =>
    rw [(List.append_eq_nil_iff.mp htext).1, ← Bool.not_eq_true]
    intro h
    exact absurd (length_of_begins hw h) (by decide)
  | cons l lines =>
    refine not_begins_of_shorter hw h10 (hbegins l List.mem_cons_self) ?_
    have hone : p <+: p ++ rest := List.prefix_append _ _
    have htwo : l ++ [10] <+: p ++ rest :=
      ⟨lines.flatMap (· ++ [10]), by rw [htext, List.flatMap_cons]⟩
    rcases List.prefix_or_prefix_of_prefix hone htwo with h | h
    · exact h
    · exact absurd (h.subset (by simp)) hp

/-- A read with a newline that can only be its last byte. -/
theorem eq_append_newline (hd : 10 ∈ d) (hlast : 10 ∉ d.dropLast) : ∃ e, d = e ++ [10] ∧ 10 ∉ e := by
  have hsplit := List.dropLast_append_getLast (List.ne_nil_of_mem hd)
  rw [← hsplit] at hd
  rcases List.mem_append.mp hd with h | h
  · exact absurd h hlast
  · exact ⟨d.dropLast, by rw [List.mem_singleton.mp h]; exact hsplit.symm, hlast⟩

end Buffer

/-! ### Reads that end with their line -/

section Run

variable {s s' : Console} {p : Bytes} {lines reads : List Bytes}

/-- **One line a read.**  Whatever a line holds, it is sent once as its `piece`. -/
theorem turns_good (hp : s.Holds p) (hfits : Fits s reads) (hlines : ∀ l ∈ lines, Typed l)
    (htext : p ++ reads.flatten = lines.flatMap (· ++ [10])) (hreads : ∀ d ∈ reads, 10 ∉ d.dropLast)
    (hcr : 13 ∉ reads.flatten) :
    ∃ s', turns s reads = some s' ∧ s'.sent = s.sent ++ lines.flatMap piece := by
  induction reads generalizing s p lines with
  | nil =>
    cases lines with
    | nil => exact ⟨s, rfl, (List.append_nil _).symm⟩
    | cons l lines =>
      rw [List.flatten_nil, List.append_nil] at htext
      exact absurd (by rw [htext]; simp) hp.open_.1
  | cons d reads ih =>
    obtain ⟨hfit, hfits⟩ := hfits
    rw [List.flatten_cons] at htext hcr
    obtain ⟨hd13, hrest13⟩ := not_or.mp (fun h => hcr (List.mem_append.mpr h))
    have hreads' : ∀ d' ∈ reads, 10 ∉ d'.dropLast := fun d' h => hreads d' (List.mem_cons_of_mem d h)
    by_cases hd : 10 ∈ d
    · -- the newline is the last byte that is read
      obtain ⟨e, rfl, he10⟩ := eq_append_newline hd (hreads d List.mem_cons_self)
      have he : 10 ∉ e ∧ 13 ∉ e := ⟨he10, fun h => hd13 (List.mem_append_left _ h)⟩
      cases lines with
      | nil => simp at htext
      | cons l lines =>
        have hl := hlines l List.mem_cons_self
        have hpe : 10 ∉ p ++ e := by simp [hp.open_.1, he10]
        have hsplit : (p ++ e) ++ 10 :: reads.flatten = l ++ 10 :: lines.flatMap (· ++ [10]) := by
          simpa using htext
        obtain ⟨rfl, htext'⟩ := first_line hpe hl.newline hsplit
        have hpre : p ++ (e ++ [10]) <+: p ++ e ++ [10] := by rw [List.append_assoc]
        have hlen := hl.length_lt
        obtain ⟨s₁, hturn, hheld, hsent⟩ := turn_line hp hfit
          (not_begins_of_shorter rfl (by decide) hl.quitit hpre)
          (not_begins_of_shorter rfl (by decide) hl.ctrlz hpre)
          he (by unfold consoleSize; omega)
        obtain ⟨s', hturns, hsent'⟩ := ih hheld (hfits s₁ hturn)
          (fun l h => hlines l (List.mem_cons_of_mem _ h)) (by rw [List.nil_append]; exact htext')
          hreads' hrest13
        refine ⟨s', ?_, by rw [hsent', hsent, List.flatMap_cons, List.append_assoc]⟩
        rw [turns, List.foldlM_cons, hturn]
        exact hturns
    · have hpd : 10 ∉ p ++ d := by simp [hp.open_.1, hd]
      rw [← List.append_assoc] at htext
      obtain ⟨s₁, hturn, hheld, hsent⟩ := turn_more hp hfit
        (not_begins_of_lines rfl (by decide) (fun l h => (hlines l h).quitit) hpd htext)
        (not_begins_of_lines rfl (by decide) (fun l h => (hlines l h).ctrlz) hpd htext) ⟨hd, hd13⟩
      obtain ⟨s', hturns, hsent'⟩ := ih hheld (hfits s₁ hturn) hlines htext hreads' hrest13
      refine ⟨s', ?_, by rw [hsent', hsent]⟩
      rw [turns, List.foldlM_cons, hturn]
      exact hturns

/-! ### The accounts of a run -/

theorem turns_quit (h : s.quit = true) : ∀ reads, turns s reads = some s := by
  intro reads
  induction reads with
  | nil => rfl
  | cons d reads ih =>
    have hd : turn s d = some s := if_pos h
    rw [turns, List.foldlM_cons, hd]
    exact ih

/-- From `s`, with `p` waiting, the bytes `fed` have become what is sent in `s'`: all but
`lost`, and one more for each of the `ends` of lines. -/
structure Tally (s : Console) (p fed : Bytes) (s' : Console) (lost ends : Nat) : Prop where
  length : s'.sent.length + lost = s.sent.length + p.length + fed.length + ends
  newlines : s.sent.count 10 + ends ≤ s'.sent.count 10

/-- One read more in front, with what it has lost and the lines it has ended. -/
theorem Tally.read {s₁ : Console} {p₁ d fed : Bytes} {lost ends more n : Nat}
    (h : Tally s₁ p₁ fed s' lost ends)
    (hlength : s₁.sent.length + p₁.length + more = s.sent.length + p.length + d.length + n)
    (hnewlines : s.sent.count 10 + n ≤ s₁.sent.count 10) :
    Tally s p (d ++ fed) s' (lost + more) (ends + n) where
  length := by
    have := h.length
    rw [List.length_append]
    omega
  newlines := by
    have := h.newlines
    omega

/-- **What a run loses.**  If it loses nothing, every read ends with its line. -/
theorem exists_tally (hp : s.Holds p) (h : turns s reads = some s') :
    ∃ lost ends, Tally s p reads.flatten s' lost ends ∧ (lost = 0 →
      (∀ d ∈ reads, 10 ∉ d.dropLast) ∧ ends = reads.flatten.count 10 + reads.flatten.count 13) := by
  induction reads generalizing s p with
  | nil =>
    obtain rfl : s = s' := Option.some.inj h
    exact ⟨p.length, 0, ⟨by simp, by simp⟩, fun _ => ⟨by simp, rfl⟩⟩
  | cons d reads ih =>
    rw [turns, List.foldlM_cons] at h
    obtain ⟨s₁, hturn, hrest⟩ := Option.bind_eq_some_iff.mp h
    rw [List.flatten_cons]
    cases turn_cases hp hturn with
    | full hquit hsent hlen =>
      obtain rfl := Option.some.inj ((turns_quit hquit reads).symm.trans hrest)
      refine ⟨(p ++ d).length + reads.flatten.length, 0, ⟨?_, by rw [hsent]; simp⟩, fun h => by omega⟩
      rw [hsent]
      simp only [List.length_append]
      omega
    | word hheld hsent hlen =>
      obtain ⟨lost, ends, htally, -⟩ := ih hheld hrest
      rw [List.length_append] at hlen
      refine ⟨lost + (p.length + d.length - 1), ends, htally.read (n := 0) ?_ ?_, fun h => by omega⟩
      · rw [hsent, List.length_append, List.length_singleton, List.length_nil]
        omega
      · rw [hsent, List.count_append]
        omega
    | more hheld hsent =>
      obtain ⟨lost, ends, htally, hgood⟩ := ih hheld hrest
      have hopen := hheld.open_
      simp only [List.mem_append, not_or] at hopen
      have hlength : s₁.sent.length + (p ++ d).length + 0 = s.sent.length + p.length + d.length + 0 := by
        rw [hsent, List.length_append]
        omega
      have hnewlines : s.sent.count 10 + 0 ≤ s₁.sent.count 10 := by rw [hsent, Nat.add_zero]
      refine ⟨lost, ends, htally.read hlength hnewlines, fun h => ?_⟩
      obtain ⟨hreads, hends⟩ := hgood h
      refine ⟨fun d' hd' => ?_, ?_⟩
      · rcases List.mem_cons.mp hd' with rfl | hd'
        · exact fun hmem => hopen.1.2 (List.dropLast_subset _ hmem)
        · exact hreads d' hd'
      · rw [List.count_append, List.count_append, List.count_eq_zero_of_not_mem hopen.1.2,
          List.count_eq_zero_of_not_mem hopen.2.2, hends]
        omega
    | line e c r sent heq hopen hc hheld hsent hlen hnewline =>
      subst heq
      obtain ⟨lost, ends, htally, hgood⟩ := ih hheld hrest
      have hone := List.count_pos_iff.mpr hnewline
      rw [List.length_append] at hlen
      refine ⟨lost + r.length, ends + 1, htally.read ?_ ?_, fun h => ?_⟩
      · rw [hsent, List.length_append, hlen]
        simp only [List.length_append, List.length_cons, List.length_nil]
        omega
      · rw [hsent, List.count_append]
        omega
      · obtain rfl := List.length_eq_zero_iff.mp (show r.length = 0 by omega)
        obtain ⟨hreads, hends⟩ := hgood (by omega)
        refine ⟨fun d' hd' => ?_, ?_⟩
        · rcases List.mem_cons.mp hd' with rfl | hd'
          · rw [List.dropLast_concat]
            exact hopen.1
          · exact hreads d' hd'
        · simp only [List.count_append, List.count_eq_zero_of_not_mem hopen.1,
            List.count_eq_zero_of_not_mem hopen.2, hends]
          rcases hc with rfl | rfl
          · simp
            omega
          · simp
            omega

end Run

/-! ### Every line once -/

section Lines

variable {lines : List Bytes}

theorem length_crlf (lines : List Bytes) : (lines.flatMap (· ++ [13, 10])).length
    = (lines.flatMap (· ++ [10])).length + lines.length := by
  induction lines with
  | nil => rfl
  | cons l lines ih =>
    simp only [List.flatMap_cons, List.length_append, List.length_cons, List.length_nil, ih]
    omega

theorem count_newlines (h : ∀ l ∈ lines, 10 ∉ l) (t : Bytes) (ht : t.count 10 = 1) :
    (lines.flatMap (· ++ t)).count 10 = lines.length := by
  induction lines with
  | nil => rfl
  | cons l lines ih =>
    rw [List.flatMap_cons, List.count_append, List.count_append, ht,
      List.count_eq_zero_of_not_mem (h l List.mem_cons_self),
      ih fun l hl => h l (List.mem_cons_of_mem _ hl), List.length_cons]
    omega

/-- Pieces of the same lengths stand for each other one by one. -/
theorem pieces_eq {f g : Bytes → Bytes} (hlen : ∀ l ∈ lines, (f l).length = (g l).length)
    (h : lines.flatMap f = lines.flatMap g) : ∀ l ∈ lines, f l = g l := by
  induction lines with
  | nil => simp
  | cons l lines ih =>
    rw [List.flatMap_cons, List.flatMap_cons] at h
    obtain ⟨hl, hrest⟩ := List.append_inj h (hlen l List.mem_cons_self)
    intro l' hl'
    rcases List.mem_cons.mp hl' with rfl | hl'
    · exact hl
    · exact ih (fun l hl => hlen l (List.mem_cons_of_mem _ hl)) hrest l' hl'

/-- A run that sends every line has lost nothing. -/
theorem reads_of_forwarded {reads : List Bytes} (hlf : ∀ l ∈ lines, 10 ∉ l)
    (htext : reads.flatten = lines.flatMap (· ++ [10])) (h : Forwarded lines reads) :
    (∀ d ∈ reads, 10 ∉ d.dropLast) ∧ 13 ∉ reads.flatten := by
  obtain ⟨s', hturns, hsent⟩ := h
  obtain ⟨lost, ends, htally, hgood⟩ := exists_tally start_holds hturns
  -- as many newlines are sent as there are lines, so no byte is missing
  have hlength := htally.length
  have hnew := htally.newlines
  rw [hsent, length_crlf, htext] at hlength
  rw [hsent, count_newlines hlf _ rfl] at hnew
  have hstart : Console.start.sent.length = 0 ∧ Console.start.sent.count 10 = 0 := ⟨rfl, rfl⟩
  rw [hstart.1, List.length_nil] at hlength
  rw [hstart.2] at hnew
  obtain ⟨hreads, hends⟩ := hgood (by omega)
  rw [htext, count_newlines hlf [10] rfl, ← htext] at hends
  exact ⟨hreads, List.count_eq_zero.mp (by omega)⟩

end Lines

/-- **The console.**  Every line is sent once, with CR LF and in order, exactly when no read
goes on behind the end of a line and no line has a NUL or a CR in it. -/
theorem forwarded_iff (lines reads : List Bytes) (hlines : ∀ l ∈ lines, Typed l)
    (htext : reads.flatten = lines.flatMap (· ++ [10])) (hfits : Fits .start reads) :
    Forwarded lines reads ↔
      (∀ d ∈ reads, 10 ∉ d.dropLast) ∧ ∀ l ∈ lines, 0 ∉ l ∧ 13 ∉ l := by
  have hlf : ∀ l ∈ lines, 10 ∉ l := fun l hl => (hlines l hl).newline
  have hpiece : ∀ l ∈ lines, (piece l).length = (l ++ [13, 10]).length := by
    intro l hl
    have hlt := (hlines l hl).length_lt
    rw [length_piece (by unfold consoleSize; omega), List.length_append]
    rfl
  constructor
  · intro h
    obtain ⟨hreads, hcr⟩ := reads_of_forwarded hlf htext h
    obtain ⟨s', hturns, hsent⟩ := h
    refine ⟨hreads, fun l hl => ⟨?_, fun h => hcr ?_⟩⟩
    · obtain ⟨s'', hturns', hsent'⟩ := turns_good start_holds hfits hlines htext hreads hcr
      obtain rfl := Option.some.inj (hturns.symm.trans hturns')
      exact not_mem_of_piece (pieces_eq hpiece (hsent'.symm.trans hsent) l hl)
    · rw [htext]
      exact List.mem_flatMap.mpr ⟨l, hl, List.mem_append_left _ h⟩
  · rintro ⟨hreads, hclean⟩
    have hcr : 13 ∉ reads.flatten := by
      rw [htext]
      intro h
      obtain ⟨l, hl, h⟩ := List.mem_flatMap.mp h
      rcases List.mem_append.mp h with h | h
      · exact (hclean l hl).2 h
      · exact absurd (List.mem_singleton.mp h) (by decide)
    obtain ⟨s', hturns, hsent⟩ := turns_good start_holds hfits hlines htext hreads hcr
    refine ⟨s', hturns, ?_⟩
    rw [hsent]
    exact List.flatMap_congr fun l hl => piece_of_not_mem (hclean l hl).1

/-- The line of one letter. -/
theorem typed_letter : Typed [97] where
  newline := by decide
  length_lt := by decide
  quitit := by decide
  ctrlz := by decide

/-- Two lines typed one after the other. -/
theorem forwarded_iff_typed :
    Forwarded [[97], [97]] [[97, 10], [97, 10]] ↔
      (∀ d ∈ ([[97, 10], [97, 10]] : List Bytes), 10 ∉ d.dropLast) ∧
        ∀ l ∈ ([[97], [97]] : List Bytes), 0 ∉ l ∧ 13 ∉ l :=
  forwarded_iff [[97], [97]] [[97, 10], [97, 10]] (by simp [typed_letter]) rfl (by
    obtain ⟨s₁, hturn, hheld, -⟩ := turn_line (e := [97]) start_holds (by decide) (by decide)
      (by decide) (by decide) (by decide)
    refine ⟨by decide, fun s' h => ?_⟩
    obtain rfl := Option.some.inj (hturn.symm.trans h)
    exact ⟨by rw [hheld.len]; decide, fun _ _ => trivial⟩)

/-- Two lines that are pasted come in one read, and the second one is lost. -/
theorem pasted_line_lost :
    ¬ ∀ lines reads : List Bytes, (∀ l ∈ lines, Typed l) →
      reads.flatten = lines.flatMap (· ++ [10]) → Fits .start reads → Forwarded lines reads := by
  intro hall
  have hlines : ∀ l ∈ ([[97], [97]] : List Bytes), Typed l := by simp [typed_letter]
  have htext : ([[97, 10, 97, 10]] : List Bytes).flatten = [[97], [97]].flatMap (· ++ [10]) := rfl
  have h := hall [[97], [97]] [[97, 10, 97, 10]] hlines htext ⟨by decide, fun _ _ => trivial⟩
  have hreads := (reads_of_forwarded (fun l hl => (hlines l hl).newline) htext h).1
  exact hreads _ List.mem_cons_self (by decide)

end Boxing.Sdebug
