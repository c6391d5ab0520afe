import Boxing.Serial.Reassembly

/-!
# Line noise

`feed_frames` is about a stream of frames.  Here the line brings anything, and
`read` may fail: `read_cb` returns at once when nothing was read, but it does not
look at a negative length, and hands its zeroed buffer to `pars_data`.

Two things can then happen.  A buffer without a text, from a failed `read` or a
piece that begins with a NUL, makes `data[strlen(data)-1]` the byte before
`data`.  And a text without an `S` in front or a `D` at its end is appended with
`strncat`, whose bound `sizeof(tmp_buf)` counts what is appended and not what is
there, so it runs out of `tmp_buf` when the line goes on for 1024 characters.
`serve_safe_iff` says that nothing else goes wrong.
-/

namespace Boxing.Serial

open C

/-- What `read` does: it fails, or delivers a piece, which is empty at the end of
the file. -/
inductive Read where
  | failed
  | got (chunk : Bytes)
deriving DecidableEq, Repr

/-- How many bytes it has put into the buffer. -/
def Read.size : Read → Nat
  | .failed => 0
  | .got chunk => chunk.length

/-- `read_cb` from the return of `read` on. -/
def after_read (abi : Abi) (tmp_buf : Bytes) : Read → Option (Bytes × Option Bytes)
  | .failed => pars_data abi tmp_buf (padded 1024 [])
  | .got chunk => read_cb abi tmp_buf chunk

/-- `while (1) read_cb(fd)` over a sequence of reads: the buffer at the end, and
what was written back on the way. -/
def serve (abi : Abi) : Bytes → List Read → Option (Bytes × List Bytes)
  | tmp_buf, [] => some (tmp_buf, [])
  | tmp_buf, r :: rs =>
    (after_read abi tmp_buf r).bind fun x =>
      (serve abi x.1 rs).map fun y => (y.1, x.2.toList ++ y.2)

/-- The text that `pars_data` finds, if it is called. -/
def Read.text : Read → Option Bytes
  | .failed => some []
  | .got chunk => if chunk = [] then none else some (str chunk)

/-- Every text of the sequence finds room behind the text before it. -/
def Rooms : Bytes → List Read → Prop
  | _, [] => True
  | acc, r :: rs =>
    match r.text with
    | none => Rooms acc rs
    | some s => Room acc s ∧ Rooms (join acc s).1 rs

/-! ### Where there is no room -/

theorem store_eq_none {m s : Bytes} {pos : Nat} (h : m.length < pos + s.length) :
    store m pos s = none := if_neg (by omega)

/-- `strncat` beyond the end of the buffer. -/
theorem strncat_full {n k : Nat} {s t : Bytes} (hs : 0 ∉ s) (hlen : s.length < n)
    (hk : t.length ≤ k) (h : n ≤ s.length + t.length) : strncat (padded n s) t k = none := by
  rw [strncat, strlen_padded hlen hs, Option.bind_some, List.take_of_length_le hk]
  apply store_eq_none
  rw [length_padded (by omega), List.length_append, List.length_singleton]
  omega

/-- Characters that fill the buffer leave no terminator in it, and one more finds
no place. -/
theorem foldlM_putc_full : ∀ (s acc : Bytes), 0 ∉ acc → 0 ∉ s → acc.length ≤ 1024 →
    1024 ≤ acc.length + s.length → (s.foldlM putc (padded 1024 acc)).bind strlen = none := by
  intro s
  induction s with
  | nil =>
    intro acc h0 _ hle hge
    have hfull : padded 1024 acc = acc := by
      rw [List.length_nil] at hge
      rw [padded, show 1024 - acc.length = 0 by omega, List.replicate_zero, List.append_nil]
    rw [hfull]
    exact strlen_eq_none h0
  | cons c s ih =>
    intro acc h0 hs hle hge
    obtain ⟨hc, hs'⟩ := List.ne_and_not_mem_of_not_mem_cons hs
    rw [List.length_cons] at hge
    rw [List.foldlM_cons]
    by_cases hlt : acc.length < 1024
    · have h0' : 0 ∉ acc ++ [c] := by
        rw [List.mem_append, not_or]
        exact ⟨h0, by simpa using hc⟩
      rw [putc_padded h0 hlt]
      exact ih (acc ++ [c]) h0' hs' (by rw [List.length_append, List.length_singleton]; omega)
        (by rw [List.length_append, List.length_singleton]; omega)
    · have hfull : padded 1024 acc = acc := by
        rw [padded, show 1024 - acc.length = 0 by omega, List.replicate_zero, List.append_nil]
      have hput : putc (padded 1024 acc) c = none := by
        rw [putc, hfull, strlen_eq_none h0, Option.bind_none]
      rw [hput]
      rfl

/-- **No room.**  `pars_data` then leaves one of its buffers. -/
theorem pars_data_eq_none {abi : Abi} {acc chunk : Bytes} (h0 : 0 ∉ acc)
    (hacc : acc.length < 1024) (hlen : chunk.length < 1024) (hroom : ¬ Room acc (str chunk)) :
    pars_data abi (padded 1024 acc) (padded 1024 chunk) = none := by
  have hs := zero_not_mem_str chunk
  have hle : (str chunk).length ≤ chunk.length := (List.takeWhile_prefix _).length_le
  simp only [pars_data, head_padded, str_padded_1024 hlen]
  rw [Room] at hroom
  generalize str chunk = s at hroom hs hle
  cases hlast : s.getLast? with
  | none =>
    -- `data[strlen(data)-1]` of the empty text
    rw [List.getLast?_eq_none_iff] at hlast
    rw [hlast]
    exact if_neg (by decide)
  | some last =>
    have hne : s ≠ [] := by
      rintro rfl
      exact absurd hlast (by simp)
    have hhead : s.head? ≠ some chS := fun h => hroom ⟨hne, Or.inl h⟩
    have hfull : 1024 ≤ acc.length + (appended s).length := by
      by_contra h
      exact hroom ⟨hne, Or.inr (by omega)⟩
    rw [if_neg hhead]
    simp only
    split
    · rename_i hD
      rw [appended, if_neg (by rw [hlast, hD]; simp)] at hfull
      rw [strncat_full h0 hacc (le_refl _) hfull, Option.map_none]
    · rename_i hD
      split
      · rename_i hboth
        rw [appended, if_pos ⟨by rw [hlast]; simpa using hD, hboth⟩] at hfull
        have hpre : s.takeWhile (· ≠ chS) <+: s := List.takeWhile_prefix _
        have hnone := foldlM_putc_full _ acc h0 (fun h => hs (hpre.subset h)) (by omega) hfull
        cases hfold : (s.takeWhile (· ≠ chS)).foldlM putc (padded 1024 acc) with
        | none => rfl
        | some tmp =>
          rw [hfold, Option.bind_some] at hnone
          rw [Option.bind_some, hnone, Option.bind_none]
      · rename_i hboth
        rw [appended, if_neg fun h => hboth h.2] at hfull
        rw [strncat_full h0 hacc (by omega) hfull, Option.map_none]

/-! ### A sequence of reads -/

/-- The text that is left fits as the one before did. -/
theorem length_join_lt {acc s : Bytes} (hs : s.length < 1024) (hroom : Room acc s) :
    (join acc s).1.length < 1024 := by
  obtain ⟨-, hfit⟩ := hroom
  rw [join]
  split
  · exact hs
  · rename_i hhead
    have hfit' := hfit.resolve_left hhead
    split
    · exact Nat.zero_lt_succ 1023
    · split
      · exact Nat.lt_of_le_of_lt (List.dropWhile_suffix _).length_le hs
      · rename_i hboth
        rw [appended, if_neg fun h => hboth h.2] at hfit'
        rw [List.length_append]
        exact hfit'

/-- One read: what it does to the buffer is what its text does. -/
theorem after_read_text {abi : Abi} {acc : Bytes} {r : Read} (h0 : 0 ∉ acc)
    (hacc : acc.length < 1024) (hr : r.size < 1024) :
    after_read abi (padded 1024 acc) r =
      match r.text with
      | none => some (padded 1024 acc, none)
      | some s =>
        if Room acc s then some (padded 1024 (join acc s).1, (join acc s).2.bind (checked abi))
        else none := by
  have hpars : ∀ chunk : Bytes, chunk.length < 1024 →
      pars_data abi (padded 1024 acc) (padded 1024 chunk) =
        if Room acc (str chunk) then
          some (padded 1024 (join acc (str chunk)).1, (join acc (str chunk)).2.bind (checked abi))
        else none := by
    intro chunk hlen
    by_cases hroom : Room acc (str chunk)
    · rw [pars_data_join h0 hacc hlen hroom, if_pos hroom]
    · rw [pars_data_eq_none h0 hacc hlen hroom, if_neg hroom]
  cases r with
  | failed => exact hpars [] hr
  | got chunk =>
    by_cases hne : chunk = []
    · rw [after_read, read_cb, if_pos hne, Read.text, if_pos hne]
    · rw [after_read, read_cb, if_neg hne, Read.text, if_neg hne]
      exact hpars chunk hr

/-- The text of a read is a text, and no longer than what was read. -/
theorem Read.text_spec {r : Read} {s : Bytes} (h : r.text = some s) :
    0 ∉ s ∧ s.length ≤ r.size := by
  cases r with
  | failed =>
    rw [← Option.some.inj h]
    exact ⟨List.not_mem_nil, le_refl _⟩
  | got chunk =>
    rw [Read.text] at h
    split at h
    · cases h
    · rw [← Option.some.inj h]
      exact ⟨zero_not_mem_str chunk, (List.takeWhile_prefix _).length_le⟩

/-- The induction behind `serve_safe_iff`: the buffer holds `acc`. -/
theorem serve_from (abi : Abi) : ∀ (reads : List Read) (acc : Bytes), 0 ∉ acc →
    acc.length < 1024 → (∀ r ∈ reads, r.size < 1024) →
    ((∃ t outs, 0 ∉ t ∧ t.length < 1024 ∧
      serve abi (padded 1024 acc) reads = some (padded 1024 t, outs)) ↔ Rooms acc reads) := by
  intro reads
  induction reads with
  | nil => exact fun acc h0 hacc _ => ⟨fun _ => trivial, fun _ => ⟨acc, [], h0, hacc, rfl⟩⟩
  | cons r rs ih =>
    intro acc h0 hacc hsize
    have hrs : ∀ x ∈ rs, x.size < 1024 := fun x hx => hsize x (List.mem_cons_of_mem r hx)
    have hr := hsize r (by simp)
    rw [serve, after_read_text h0 hacc hr, Rooms]
    cases htext : r.text with
    | none =>
      rw [← ih acc h0 hacc hrs]
      simp only [Option.bind_some, Option.toList_none, List.nil_append, Prod.mk.eta,
        Option.map_id']
    | some s =>
      obtain ⟨hs, hle⟩ := Read.text_spec htext
      by_cases hroom : Room acc s
      · have hnext := ih (join acc s).1 (zero_not_mem_join h0 hs)
          (length_join_lt (by omega) hroom) hrs
        simp only [if_pos hroom, Option.bind_some, Option.map_eq_some_iff, Prod.mk.injEq]
        rw [and_iff_right hroom, ← hnext]
        constructor
        · rintro ⟨t, outs, h0t, hlt, ⟨t', outs'⟩, hserve, ht', -⟩
          exact ⟨t, outs', h0t, hlt, by rw [hserve, ← ht']⟩
        · rintro ⟨t, outs, h0t, hlt, hserve⟩
          exact ⟨t, _, h0t, hlt, (padded 1024 t, outs), hserve, rfl, rfl⟩
      · simp only [if_neg hroom, Option.bind_none]
        constructor
        · rintro ⟨t, outs, -, -, h⟩
          cases h
        · exact fun h => absurd h.1 hroom

/-- **The server and line noise.**  Over reads of at most a pointer's size, it stays
inside its buffers, and `tmp_buf` holds a text and its terminator, exactly as long
as every piece is a text and finds room. -/
theorem serve_safe_iff (abi : Abi) (reads : List Read) (hsize : ∀ r ∈ reads, r.size ≤ abi.ptrSize) :
    (∃ t outs, 0 ∉ t ∧ t.length < 1024 ∧
      serve abi (padded 1024 []) reads = some (padded 1024 t, outs)) ↔ Rooms [] reads := by
  have hptr : abi.ptrSize ≤ 8 := by
    rw [Abi.ptrSize]
    split
    · decide
    · decide
  exact serve_from abi reads [] List.not_mem_nil (by decide) fun r hr => by
    have := hsize r hr
    omega

/-- Noise in front of a frame, and a `read` that finds the end of the file. -/
theorem serve_safe_noise :
    (∃ t outs, 0 ∉ t ∧ t.length < 1024 ∧
      serve ⟨true, true⟩ (padded 1024 []) [.got [255, 7], .got [], .got (asc "S00")]
        = some (padded 1024 t, outs)) ↔ Rooms [] [.got [255, 7], .got [], .got (asc "S00")] :=
  serve_safe_iff ⟨true, true⟩ _ (by decide)

/-- A NUL on the line sends the server in front of its buffer. -/
theorem serve_unsafe_nul :
    ¬ ∀ (abi : Abi) (reads : List Read), (∀ r ∈ reads, r.size ≤ abi.ptrSize) →
      ∃ t outs, 0 ∉ t ∧ t.length < 1024 ∧
        serve abi (padded 1024 []) reads = some (padded 1024 t, outs) := by
  intro h
  obtain ⟨t, outs, -, -, hserve⟩ := h ⟨true, true⟩ [.got [0]] (by decide)
  have hnone : serve ⟨true, true⟩ (padded 1024 []) [.got [0]] = none := by decide
  rw [hnone] at hserve
  cases hserve

end Boxing.Serial
