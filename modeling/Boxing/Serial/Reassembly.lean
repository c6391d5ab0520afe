import Boxing.Serial.Checksum

/-!
# Putting frames together from what `read` delivers

`read_cb` reads at most `sizeof(buf-1)` bytes at a time, which is the size of a
pointer, so a frame of 15 bytes arrives in pieces.  `pars_data` keeps the
unfinished frame in a static buffer of 1024 bytes and sorts each piece by where
`S` and `D` stand in it: a piece that starts with `S` starts the buffer anew, one
that ends with `D` finishes it, one with both inside finishes a frame and starts
the next, and any other piece is appended.

`feed_frames` says that on a stream of frames this is reassembly: whatever the
cut into pieces of one to eight bytes, the frames the checksum accepts come out
in order, and the buffer holds the unfinished rest.  Eight is what makes the four
cases complete: a piece is too short to hold an `S` and the `D` of the same frame.
-/

namespace Boxing.Serial

open C

/-- `'S'`, which opens a frame. -/
def chS : UInt8 := 83

/-- `'D'`, which closes it. -/
def chD : UInt8 := 68

/-- `tmp_buf[strlen(tmp_buf)] = c`. -/
def putc (tmp_buf : Bytes) (c : UInt8) : Option Bytes :=
  (strlen tmp_buf).bind fun k => store tmp_buf k [c]

/-- What `pars_data` hands back for a finished text: the text if `crc_para`
accepts it, else NULL. -/
def checked (abi : Abi) (com_buf : Bytes) : Option Bytes :=
  if crc_para abi com_buf = 0 then some com_buf else none

/-- `pars_data(data, ret)`: the static `tmp_buf` before and after, and the result.
`none` is an access outside a buffer. -/
def pars_data (abi : Abi) (tmp_buf data : Bytes) : Option (Bytes × Option Bytes) :=
  if data.head? = some chS then
    (strncpy tmp_buf (str data) 1024).map fun tmp => (tmp, none)
  else
    match (str data).getLast? with
    | none => none -- `data[strlen(data)-1]` of the empty string is `data[-1]`
    | some last =>
      if last = chD then
        (strncat tmp_buf (str data) (str data).length).map fun tmp =>
          (padded 1024 [], checked abi (str tmp))
      else if chS ∈ str data ∧ chD ∈ str data then
        (((str data).takeWhile (· ≠ chS)).foldlM putc tmp_buf).bind fun tmp =>
          (strlen tmp).bind fun _ =>
            (strncpy (padded 1024 []) ((str data).dropWhile (· ≠ chS))
              ((str data).dropWhile (· ≠ chS)).length).map fun tmp' =>
                (tmp', checked abi (str tmp))
      else
        (strncat tmp_buf (str data) 1024).map fun tmp => (tmp, none)

/-- `read_cb` on the bytes that `read` put at the start of its zeroed buffer. -/
def read_cb (abi : Abi) (tmp_buf chunk : Bytes) : Option (Bytes × Option Bytes) :=
  if chunk = [] then some (tmp_buf, none) else pars_data abi tmp_buf (padded 1024 chunk)

/-- `read_cb` over a sequence of pieces: the buffer at the end, and what was
written back on the way. -/
def feed (abi : Abi) : Bytes → List Bytes → Option (Bytes × List Bytes)
  | tmp_buf, [] => some (tmp_buf, [])
  | tmp_buf, chunk :: chunks =>
    (read_cb abi tmp_buf chunk).bind fun x =>
      (feed abi x.1 chunks).map fun y => (y.1, x.2.toList ++ y.2)

/-! ### Frames -/

/-- An `S`, thirteen digits, a `D`. -/
structure Frame where
  digits : Bytes
  length_digits : digits.length = 13
  isDigit_digits : ∀ c ∈ digits, isDigit c = true

/-- The 15 bytes on the wire. -/
def Frame.bytes (f : Frame) : Bytes := chS :: (f.digits ++ [chD])

@[simp] theorem Frame.length_bytes (f : Frame) : f.bytes.length = 15 := by
  simp [Frame.bytes, f.length_digits]

theorem ne_chS_of_isDigit {c : UInt8} (h : isDigit c = true) : c ≠ chS := by
  rintro rfl
  exact absurd h (by decide)

theorem ne_chD_of_isDigit {c : UInt8} (h : isDigit c = true) : c ≠ chD := by
  rintro rfl
  exact absurd h (by decide)

theorem ne_zero_of_isDigit {c : UInt8} (h : isDigit c = true) : c ≠ 0 := by
  rintro rfl
  exact absurd h (by decide)

theorem zero_not_mem_of_isDigit {s : Bytes} (h : ∀ c ∈ s, isDigit c = true) : 0 ∉ s :=
  fun h0 => ne_zero_of_isDigit (h 0 h0) rfl

/-- A proper beginning of a frame is empty, or an `S` and digits. -/
theorem Frame.prefix_cases (f : Frame) {s : Bytes} (h : s <+: f.bytes) (hlen : s.length < 15) :
    s = [] ∨ ∃ d, s = chS :: d ∧ d <+: f.digits := by
  cases s with
  | nil => exact Or.inl rfl
  | cons c d =>
    right
    rw [Frame.bytes, List.cons_prefix_cons] at h
    refine ⟨d, by rw [h.1], ?_⟩
    rcases List.prefix_concat_iff.mp h.2 with he | hp
    · rw [List.length_cons, he, List.length_append, f.length_digits] at hlen
      exact absurd hlen (by simp)
    · exact hp

/-- What is left of a frame behind an `S` and digits is digits and the `D`. -/
theorem Frame.suffix_eq (f : Frame) {d s : Bytes} (h : chS :: d ++ s = f.bytes)
    (hd : d <+: f.digits) : ∃ e, s = e ++ [chD] ∧ d ++ e = f.digits := by
  obtain ⟨e, he⟩ := hd
  refine ⟨e, ?_, he⟩
  rw [Frame.bytes, ← he, List.cons_append, List.append_assoc] at h
  exact List.append_cancel_left (List.cons.inj h).2

/-- Behind the first byte of a frame stands no other `S`. -/
theorem Frame.head_behind (f : Frame) {acc s : Bytes} (h : acc ++ s <+: f.bytes) (hne : acc ≠ []) :
    s.head? ≠ some chS := by
  obtain ⟨c, a, rfl⟩ := List.exists_cons_of_ne_nil hne
  rw [List.cons_append, Frame.bytes, List.cons_prefix_cons] at h
  intro hs
  rcases List.mem_append.mp (h.2.subset (List.mem_append_right a (List.mem_of_mem_head? hs)))
    with hd | hd
  · exact ne_chS_of_isDigit (f.isDigit_digits chS hd) rfl
  · exact absurd hd (by decide)

/-! ### One piece -/

/-- `pars_data` on the texts in its buffers: the text in `tmp_buf` afterwards, and
the text handed to `crc_para`, if there is one. -/
def join (acc s : Bytes) : Bytes × Option Bytes :=
  if s.head? = some chS then (s, none)
  else if s.getLast? = some chD then ([], some (acc ++ s))
  else if chS ∈ s ∧ chD ∈ s then
    (s.dropWhile (· ≠ chS), some (acc ++ s.takeWhile (· ≠ chS)))
  else (acc ++ s, none)

/-- `join` over a sequence of pieces, as far as `tmp_buf` can hold the text. -/
def joins : Bytes → List Bytes → Option (Bytes × List Bytes)
  | acc, [] => some (acc, [])
  | acc, s :: ss =>
    if acc.length + s.length < 1024 then
      (joins (join acc s).1 ss).map fun y => (y.1, (join acc s).2.toList ++ y.2)
    else none

theorem zero_not_mem_join {acc s : Bytes} (h : 0 ∉ acc) (hs : 0 ∉ s) : 0 ∉ (join acc s).1 := by
  have happ : 0 ∉ acc ++ s := by
    rw [List.mem_append, not_or]
    exact ⟨h, hs⟩
  rw [join]
  split
  · exact hs
  · split
    · exact List.not_mem_nil
    · split
      · exact fun h0 => hs ((List.dropWhile_suffix _).subset h0)
      · exact happ

theorem putc_padded {acc : Bytes} {c : UInt8} (h0 : 0 ∉ acc) (h : acc.length < 1024) :
    putc (padded 1024 acc) c = some (padded 1024 (acc ++ [c])) := by
  rw [putc, strlen_padded h h0, Option.bind_some]
  exact store_padded [c] [] (by simp) (by simp; omega)

/-- Copying a text into the buffer character by character appends it. -/
theorem foldlM_putc : ∀ (s acc : Bytes), 0 ∉ acc → 0 ∉ s → acc.length + s.length < 1024 →
    s.foldlM putc (padded 1024 acc) = some (padded 1024 (acc ++ s)) := by
  intro s
  induction s with
  | nil => intro acc _ _ _; rw [List.append_nil]; rfl
  | cons c s ih =>
    intro acc h0 hs hlen
    obtain ⟨hc, hs'⟩ := List.ne_and_not_mem_of_not_mem_cons hs
    rw [List.length_cons] at hlen
    have h0' : 0 ∉ acc ++ [c] := by
      rw [List.mem_append, not_or]
      exact ⟨h0, by simpa using hc⟩
    rw [List.foldlM_cons, putc_padded h0 (by omega)]
    show s.foldlM putc (padded 1024 (acc ++ [c])) = _
    rw [ih (acc ++ [c]) h0' hs' (by rw [List.length_append, List.length_singleton]; omega),
      List.append_assoc, List.singleton_append]

/-- `strncpy` of a whole text into a buffer that `memset` has cleared. -/
theorem strncpy_cleared {s : Bytes} (h : s.length ≤ 1024) :
    strncpy (padded 1024 []) s s.length = some (padded 1024 s) := by
  rw [strncpy, List.take_left]
  have := store_padded (n := 1024) (s := []) s [] (by simp) (by simpa using h)
  rwa [List.append_nil, List.nil_append] at this

/-- What a piece puts behind the text in `tmp_buf`: the whole of it, or what stands
before its `S`. -/
def appended (s : Bytes) : Bytes :=
  if s.getLast? ≠ some chD ∧ chS ∈ s ∧ chD ∈ s then s.takeWhile (· ≠ chS) else s

theorem length_appended_le (s : Bytes) : (appended s).length ≤ s.length := by
  rw [appended]
  split
  · exact (List.takeWhile_prefix _).length_le
  · exact le_refl _

/-- There is room for a text: it starts the buffer anew, or what it adds leaves
room for the terminator. -/
def Room (acc s : Bytes) : Prop :=
  s ≠ [] ∧ (s.head? = some chS ∨ acc.length + (appended s).length < 1024)

instance (acc s : Bytes) : Decidable (Room acc s) := instDecidableAnd

/-- The text of a buffer is that of the piece in it, whatever stands in the piece. -/
theorem str_padded_1024 {chunk : Bytes} (h : chunk.length < 1024) :
    str (padded 1024 chunk) = str chunk := by
  rw [padded_eq h, str, List.takeWhile_append]
  split
  · rename_i hall
    have hchunk : chunk.takeWhile (· ≠ 0) = chunk :=
      (List.takeWhile_prefix _).eq_of_length hall
    rw [List.takeWhile_cons_of_neg (by simp), List.append_nil, str, hchunk]
  · rfl

/-- The buffer starts with an `S` when its text does. -/
theorem head_padded {chunk : Bytes} :
    (padded 1024 chunk).head? = some chS ↔ (str chunk).head? = some chS := by
  cases chunk with
  | nil =>
    rw [padded_nil]
    exact ⟨fun h => absurd h (by decide), fun h => absurd h (by decide)⟩
  | cons c t =>
    rw [padded, List.cons_append, List.head?_cons, str]
    by_cases hc : c = 0
    · rw [List.takeWhile_cons_of_neg (by simp [hc]), hc]
      exact ⟨fun h => absurd h (by decide), fun h => absurd h (by decide)⟩
    · rw [List.takeWhile_cons_of_pos (by simp [hc]), List.head?_cons]

/-- **One piece.**  Where there is room for its text, `pars_data` does to the buffers
what `join` does to the texts in them. -/
theorem pars_data_join {abi : Abi} {acc chunk : Bytes} (h0 : 0 ∉ acc) (hacc : acc.length < 1024)
    (hlen : chunk.length < 1024) (hroom : Room acc (str chunk)) :
    pars_data abi (padded 1024 acc) (padded 1024 chunk)
      = some (padded 1024 (join acc (str chunk)).1,
          (join acc (str chunk)).2.bind (checked abi)) := by
  obtain ⟨hne, hfit⟩ := hroom
  have hs := zero_not_mem_str chunk
  have hle : (str chunk).length ≤ chunk.length := (List.takeWhile_prefix _).length_le
  simp only [pars_data, head_padded, str_padded_1024 hlen, join]
  generalize str chunk = s at hne hfit hs hle
  have happ : 0 ∉ acc ++ s := by
    rw [List.mem_append, not_or]
    exact ⟨h0, hs⟩
  split
  · rw [strncpy_full (length_padded (by omega)) (by omega)]
    rfl
  · rename_i hhead
    have hfit' := hfit.resolve_left hhead
    obtain ⟨last, hlast⟩ : ∃ x, s.getLast? = some x := ⟨_, List.getLast?_eq_some_getLast hne⟩
    rw [hlast]
    simp only [Option.some.injEq]
    split
    · rename_i hD
      rw [appended, if_neg (by rw [hlast, hD]; simp)] at hfit'
      rw [strncat_padded h0 (le_refl _) hfit', Option.map_some,
        str_padded (by rw [List.length_append]; exact hfit') happ]
      rfl
    · rename_i hD
      split
      · -- the end of one frame and the beginning of the next
        rename_i hboth
        rw [appended, if_pos ⟨by rw [hlast]; simpa using hD, hboth⟩] at hfit'
        have hpre : s.takeWhile (· ≠ chS) <+: s := List.takeWhile_prefix _
        have hpre0 : 0 ∉ acc ++ s.takeWhile (· ≠ chS) := by
          rw [List.mem_append, not_or]
          exact ⟨h0, fun h => hs (hpre.subset h)⟩
        have hle' := (List.dropWhile_suffix (l := s) (· ≠ chS)).length_le
        rw [foldlM_putc _ acc h0 (fun h => hs (hpre.subset h)) hfit', Option.bind_some,
          strlen_padded (by rw [List.length_append]; exact hfit') hpre0, Option.bind_some,
          strncpy_cleared (by omega), Option.map_some,
          str_padded (by rw [List.length_append]; exact hfit') hpre0]
        rfl
      · rename_i hboth
        rw [appended, if_neg fun h => hboth h.2] at hfit'
        rw [strncat_padded h0 (by omega) hfit']
        rfl

/-- **One piece of text.**  While it fits, `read_cb` does what `join` does. -/
theorem read_cb_join {abi : Abi} {acc s : Bytes} (hne : s ≠ []) (hs : 0 ∉ s) (h0 : 0 ∉ acc)
    (hlen : acc.length + s.length < 1024) :
    read_cb abi (padded 1024 acc) s
      = some (padded 1024 (join acc s).1, (join acc s).2.bind (checked abi)) := by
  have hstr : str s = s := str_of_not_mem s hs
  have happ := length_appended_le s
  have hroom : Room acc (str s) := ⟨by rwa [hstr], Or.inr (by rw [hstr]; omega)⟩
  rw [read_cb, if_neg hne, pars_data_join h0 (by omega) (by omega) hroom, hstr]

theorem toList_checked (abi : Abi) (s : Bytes) :
    (checked abi s).toList = [s].filter fun m => crc_para abi m = 0 := by
  rw [checked]
  split <;> simp [*]

/-- **A sequence of pieces.**  What comes out is the texts that `joins` finishes
and `crc_para` accepts. -/
theorem feed_joins {abi : Abi} : ∀ {chunks : List Bytes} {acc t : Bytes} {outs : List Bytes},
    (∀ c ∈ chunks, c ≠ [] ∧ 0 ∉ c) → 0 ∉ acc → joins acc chunks = some (t, outs) →
    feed abi (padded 1024 acc) chunks
      = some (padded 1024 t, outs.filter fun m => crc_para abi m = 0) := by
  intro chunks
  induction chunks with
  | nil =>
    intro acc t outs _ _ h
    obtain ⟨rfl, rfl⟩ := Prod.mk.inj (Option.some.inj h)
    rfl
  | cons c cs ih =>
    intro acc t outs hcs h0 h
    obtain ⟨hne, hc⟩ := hcs c (by simp)
    rw [joins] at h
    split at h
    · rename_i hlen
      obtain ⟨⟨t', outs'⟩, hj, he⟩ := Option.map_eq_some_iff.mp h
      obtain ⟨rfl, rfl⟩ := Prod.mk.inj he
      rw [feed, read_cb_join hne hc h0 hlen, Option.bind_some,
        ih (fun x hx => hcs x (List.mem_cons_of_mem c hx)) (zero_not_mem_join h0 hc) hj,
        Option.map_some, List.filter_append]
      cases (join acc c).2 with
      | none => rfl
      | some m => rw [Option.bind_some, toList_checked]; rfl
    · cases h

/-! ### A stream of pieces -/

theorem join_open (acc s : Bytes) : join acc (chS :: s) = (chS :: s, none) := if_pos rfl

theorem head_ne_of_not_mem {s : Bytes} {c : UInt8} (h : c ∉ s) : s.head? ≠ some c :=
  fun he => h (List.mem_of_mem_head? he)

theorem last_ne_of_not_mem {s : Bytes} {c : UInt8} (h : c ∉ s) : s.getLast? ≠ some c :=
  fun he => h (List.mem_of_getLast? he)

/-- A piece with neither letter is appended. -/
theorem join_more {acc s : Bytes} (hS : chS ∉ s) (hD : chD ∉ s) : join acc s = (acc ++ s, none) := by
  rw [join, if_neg (head_ne_of_not_mem hS), if_neg (last_ne_of_not_mem hD),
    if_neg fun h => hS h.1]

/-- A piece that ends in `D` and has no `S` finishes a text. -/
theorem join_close {acc s : Bytes} (hS : chS ∉ s) :
    join acc (s ++ [chD]) = ([], some (acc ++ (s ++ [chD]))) := by
  have hS' : chS ∉ s ++ [chD] := by
    rw [List.mem_append, not_or]
    exact ⟨hS, by decide⟩
  rw [join, if_neg (head_ne_of_not_mem hS'), if_pos (by rw [List.getLast?_concat])]

/-- A piece that finishes a text and opens the next. -/
theorem join_both {acc s t : Bytes} (hne : s ≠ []) (hS : chS ∉ s) (hD : chD ∈ s)
    (ht : (chS :: t).getLast? ≠ some chD) :
    join acc (s ++ chS :: t) = (chS :: t, some (acc ++ s)) := by
  have hhead : (s ++ chS :: t).head? ≠ some chS := by
    rw [List.head?_append_of_ne_nil s hne]
    exact head_ne_of_not_mem hS
  have hlast : (s ++ chS :: t).getLast? ≠ some chD := by
    rwa [List.getLast?_append_of_ne_nil _ (List.cons_ne_nil _ _)]
  have hpre : ∀ c ∈ s, decide (c ≠ chS) = true := by
    intro c hc
    simp only [ne_eq, decide_eq_true_eq]
    exact fun h => hS (h ▸ hc)
  rw [join, if_neg hhead, if_neg hlast,
    if_pos ⟨by simp, List.mem_append_left _ hD⟩, List.dropWhile_append_of_pos hpre,
    List.dropWhile_cons_of_neg (by simp), List.takeWhile_append_of_pos hpre,
    List.takeWhile_cons_of_neg (by simp), List.append_nil]

/-- The beginning of a stream of frames, up to the length of a frame, begins a
frame. -/
theorem exists_frame_prefix {part x y : Bytes} {g : Frame} (hg : part <+: g.bytes)
    (fs : List Frame) (h : x ++ y = fs.flatMap Frame.bytes ++ part) (hx : x.length ≤ 15) :
    ∃ f : Frame, x <+: f.bytes := by
  cases fs with
  | nil =>
    rw [List.flatMap_nil, List.nil_append] at h
    exact ⟨g, (List.prefix_append x y).trans (h ▸ hg)⟩
  | cons f fs =>
    rw [List.flatMap_cons, List.append_assoc] at h
    exact ⟨f, List.prefix_of_prefix_length_le (List.prefix_append x y)
      (h ▸ List.prefix_append f.bytes _) (by rw [f.length_bytes]; exact hx)⟩

section Step

variable {f : Frame} {acc chunk : Bytes}

/-- A piece inside a frame goes into the buffer. -/
theorem join_inside (h : acc ++ chunk <+: f.bytes) (hlen : (acc ++ chunk).length < 15)
    (hne : chunk ≠ []) : join acc chunk = (acc ++ chunk, none) := by
  rcases f.prefix_cases h hlen with he | ⟨d, he, hd⟩
  · exact absurd (List.append_eq_nil_iff.mp he).2 hne
  · have hdig : ∀ c ∈ d, isDigit c = true := fun c hc => f.isDigit_digits c (hd.subset hc)
    cases acc with
    | nil =>
      rw [List.nil_append] at he ⊢
      rw [he]
      exact join_open [] d
    | cons s a =>
      rw [List.cons_append] at he
      have hchunk : ∀ c ∈ chunk, isDigit c = true := by
        intro c hc
        refine hdig c ?_
        rw [← (List.cons.inj he).2]
        exact List.mem_append_right a hc
      exact join_more (fun h => ne_chS_of_isDigit (hchunk _ h) rfl)
        (fun h => ne_chD_of_isDigit (hchunk _ h) rfl)

/-- A frame never begins and ends in one piece: at its end the buffer holds an
`S` and digits, and the piece brings the other digits and the `D`. -/
theorem frame_split (h : acc ++ chunk = f.bytes) (h8 : chunk.length ≤ 8)
    (hlen : acc.length < 15) : ∃ e, chunk = e ++ [chD] ∧ chS ∉ e := by
  have hacc : acc <+: f.bytes := ⟨chunk, h⟩
  rcases f.prefix_cases hacc hlen with rfl | ⟨d, rfl, hd⟩
  · have := congrArg List.length h
    rw [List.nil_append, f.length_bytes] at this
    omega
  · obtain ⟨e, rfl, he⟩ := f.suffix_eq h hd
    refine ⟨e, rfl, fun hS => ne_chS_of_isDigit (f.isDigit_digits chS ?_) rfl⟩
    rw [← he]
    exact List.mem_append_right d hS

/-- The piece that brings the last byte of a frame, and with it the beginning of
the next, `rest`. -/
theorem join_end {rest : Bytes} {g : Frame} (h : acc ++ chunk = f.bytes)
    (hg : rest <+: g.bytes) (h8 : (chunk ++ rest).length ≤ 8) (hlen : acc.length < 15) :
    join acc (chunk ++ rest) = (rest, some f.bytes) := by
  rw [List.length_append] at h8
  obtain ⟨e, rfl, he⟩ := frame_split h (by omega) hlen
  rcases g.prefix_cases hg (by omega) with rfl | ⟨d, rfl, hd⟩
  · rw [List.append_nil, join_close he, h]
  · have hlast : (chS :: d).getLast? ≠ some chD := by
      refine last_ne_of_not_mem ?_
      rw [List.mem_cons, not_or]
      exact ⟨by decide, fun hm => ne_chD_of_isDigit (g.isDigit_digits _ (hd.subset hm)) rfl⟩
    have heS : chS ∉ e ++ [chD] := by
      rw [List.mem_append, not_or]
      exact ⟨he, by decide⟩
    rw [join_both (by simp) heS (by simp) hlast, h]

end Step

/-- **Where a piece ends.**  The buffer holds the beginning `acc` of the first frame
still to come: the piece stays inside that frame, or ends it and brings the
beginning `r` of what follows. -/
theorem piece_cases {acc c rest part : Bytes} {g : Frame} (hpart : part <+: g.bytes)
    (hlpart : part.length < 15) (fs : List Frame) (hne : c ≠ []) (h8 : c.length ≤ 8)
    (hacc : acc.length < 15) (h : acc ++ (c ++ rest) = fs.flatMap Frame.bytes ++ part) :
    (acc ≠ [] → c.head? ≠ some chS) ∧
      ((join acc c = (acc ++ c, none) ∧ (acc ++ c).length < 15) ∨
        ∃ f fs' r, fs = f :: fs' ∧ join acc c = (r, some f.bytes) ∧ r.length < 15 ∧
          r ++ rest = fs'.flatMap Frame.bytes ++ part) := by
  rcases Nat.lt_or_ge (acc ++ c).length 15 with hlt | hge
  · obtain ⟨f, hf⟩ := exists_frame_prefix (x := acc ++ c) hpart fs
      (by rw [← h, List.append_assoc]) (by omega)
    exact ⟨fun ha => f.head_behind hf ha, Or.inl ⟨join_inside hf hlt hne, hlt⟩⟩
  · rw [List.length_append] at hge
    cases fs with
    | nil =>
      have := congrArg List.length h
      simp only [List.flatMap_nil, List.nil_append, List.length_append] at this
      omega
    | cons f fs =>
      rw [List.flatMap_cons, List.append_assoc] at h
      have hsplit : acc ++ c.take (15 - acc.length) = f.bytes := by
        have h₁ : (acc ++ (c ++ rest)).take 15 = f.bytes := by
          rw [h, List.take_append_of_le_length (by rw [f.length_bytes]),
            List.take_of_length_le (by rw [f.length_bytes])]
        rw [← List.append_assoc, List.take_append_of_le_length (by rw [List.length_append]; omega),
          List.take_append, List.take_of_length_le (by omega)] at h₁
        exact h₁
      have hrest : c.drop (15 - acc.length) ++ rest = fs.flatMap Frame.bytes ++ part := by
        rw [← List.take_append_drop (15 - acc.length) c, List.append_assoc, ← List.append_assoc,
          hsplit] at h
        exact List.append_cancel_left h
      obtain ⟨f', hf'⟩ := exists_frame_prefix hpart fs hrest (by rw [List.length_drop]; omega)
      have hread := join_end hsplit hf' (by rwa [List.take_append_drop]) hacc
      rw [List.take_append_drop] at hread
      refine ⟨fun ha => ?_, Or.inr ⟨f, fs, _, rfl, hread, by rw [List.length_drop]; omega, hrest⟩⟩
      have := f.head_behind (by rw [hsplit]) ha
      rwa [List.head?_take, if_neg (by omega)] at this

/-- The induction behind `feed_frames`: the buffer holds `acc`, the beginning of
the first frame still to come. -/
theorem joins_from {part : Bytes} {g : Frame} (hpart : part <+: g.bytes)
    (hlpart : part.length < 15) : ∀ (chunks : List Bytes) (fs : List Frame) (acc : Bytes),
    (∀ c ∈ chunks, 1 ≤ c.length ∧ c.length ≤ 8) → acc.length < 15 →
    acc ++ chunks.flatten = fs.flatMap Frame.bytes ++ part →
    joins acc chunks = some (part, fs.map Frame.bytes) := by
  intro chunks
  induction chunks with
  | nil =>
    intro fs acc _ hacc h
    rw [List.flatten_nil, List.append_nil] at h
    cases fs with
    | nil =>
      rw [List.flatMap_nil, List.nil_append] at h
      rw [h]
      rfl
    | cons f fs =>
      -- the buffer is too short to hold the first frame
      have := congrArg List.length h
      simp only [List.flatMap_cons, List.length_append, f.length_bytes] at this
      omega
  | cons c cs ih =>
    intro fs acc hcs hacc h
    obtain ⟨hc1, hc8⟩ := hcs c (by simp)
    have hcs' : ∀ x ∈ cs, 1 ≤ x.length ∧ x.length ≤ 8 :=
      fun x hx => hcs x (List.mem_cons_of_mem c hx)
    rw [List.flatten_cons] at h
    rw [joins, if_pos (by omega)]
    obtain ⟨-, ⟨hj, hlt⟩ | ⟨f, fs', r, rfl, hj, hr, hrest⟩⟩ :=
      piece_cases hpart hlpart fs (List.length_pos_iff.mp hc1) hc8 hacc h
    · rw [hj, ih fs (acc ++ c) hcs' hlt (by rw [List.append_assoc]; exact h)]
      rfl
    · rw [hj, ih fs' r hcs' hr hrest]
      rfl

theorem zero_not_mem_bytes (f : Frame) : 0 ∉ f.bytes := by
  rw [Frame.bytes, List.mem_cons, List.mem_append, not_or, not_or]
  exact ⟨by decide, zero_not_mem_of_isDigit f.isDigit_digits, by decide⟩

theorem zero_not_mem_flatMap (fs : List Frame) : 0 ∉ fs.flatMap Frame.bytes := by
  intro h
  obtain ⟨f, -, hf⟩ := List.mem_flatMap.mp h
  exact zero_not_mem_bytes f hf

/-- The pieces of a stream without a NUL are texts. -/
theorem texts_of_flatten {chunks : List Bytes} (hchunks : ∀ c ∈ chunks, 1 ≤ c.length ∧ c.length ≤ 8)
    (h0 : 0 ∉ chunks.flatten) : ∀ c ∈ chunks, c ≠ [] ∧ 0 ∉ c := fun c hc =>
  ⟨List.length_pos_iff.mp (hchunks c hc).1, fun h => h0 (List.mem_flatten.mpr ⟨c, hc, h⟩)⟩

/-- **Reassembly does not depend on the cut.**  A stream of frames `fs` and the
beginning `part` of another, in any pieces of one to eight bytes: what comes out
is the frames that `crc_para` accepts, in order, and what stays is `part`. -/
theorem feed_frames (abi : Abi) (fs : List Frame) (g : Frame) (part : Bytes)
    (hpart : part <+: g.bytes) (hlpart : part.length < 15) (chunks : List Bytes)
    (hchunks : ∀ c ∈ chunks, 1 ≤ c.length ∧ c.length ≤ 8)
    (h : chunks.flatten = fs.flatMap Frame.bytes ++ part) :
    feed abi (padded 1024 []) chunks
      = some (padded 1024 part, (fs.map Frame.bytes).filter fun m => crc_para abi m = 0) := by
  have h0 : 0 ∉ chunks.flatten := by
    rw [h, List.mem_append, not_or]
    exact ⟨zero_not_mem_flatMap fs, fun hm => zero_not_mem_bytes g (hpart.subset hm)⟩
  exact feed_joins (texts_of_flatten hchunks h0) List.not_mem_nil
    (joins_from hpart hlpart chunks fs [] hchunks (by simp) h)

/-- The frame `S0008082560013D`. -/
def frame8 : Frame := ⟨asc "0008082560013", by decide, List.all_eq_true.mp (by decide)⟩

/-- Two frames and an `S`, in pieces of 8, 8, 8 and 7. -/
theorem feed_frames_8887 :
    feed ⟨true, true⟩ (padded 1024 [])
        [asc "S0008082", asc "560013DS", asc "00080825", asc "60013DS"]
      = some (padded 1024 (asc "S"),
        ([frame8, frame8].map Frame.bytes).filter fun m => crc_para ⟨true, true⟩ m = 0) :=
  feed_frames ⟨true, true⟩ [frame8, frame8] frame8 (asc "S") (by decide) (by decide) _
    (by decide) (by decide)

end Boxing.Serial
