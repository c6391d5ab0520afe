import Boxing.C.Num

/-!
# Sending a file to the picture server

The client sends a `PICTUREINFO`, the name of the file and the number of bytes to
come, and the file behind it.  `event_cb` writes blocks of 4906 bytes and counts
down from `nFileSize`; the server's `Read_cb` takes at most 4906 bytes a call,
makes out the header in the first and appends the rest to a file, until it has
counted up to `nFileSize`.

Both count on the first block being a full one.  The client takes 4906 from
`nFileSize` without looking, and the number is unsigned; the server takes whatever
the first call brings for the whole header.  `arrives_intact_iff` has the two
conditions under which a file arrives.
-/

namespace Boxing.Libevent

open C

/-- `sizeof(PICTUREINFO)`: a name of 260 characters and a `long`. -/
def sizeofInfo : Nat := 264

/-- `BufferLen`, and the number the client has in its place. -/
def BufferLen : Nat := 4906

/-! ### The client -/

/-- `fread(buf + off, n, 1, f)`, with `f` what is left of the file. -/
def fread (buf : Bytes) (off n : Nat) (f : Bytes) : Bytes :=
  buf.take off ++ f.take n ++ buf.drop (off + (f.take n).length)

/-- `while (FileSize >= 4906)` and what follows it: the bytes written. -/
def send_rest (FileSize : Nat) (buf f : Bytes) : Bytes :=
  if 4906 ≤ FileSize then
    (fread buf 0 4906 f).take 4906 ++ send_rest (FileSize - 4906) (fread buf 0 4906 f) (f.drop 4906)
  else if 0 < FileSize then (fread buf 0 FileSize f).take FileSize
  else []
termination_by FileSize
decreasing_by omega

/-- `PICTUREINFO`: the name in its field, and the size. -/
def pictureInfo (name : Bytes) (nFileSize : Nat) : Bytes := padded 260 name ++ intBytes nFileSize

/-- `event_cb` on `BEV_EVENT_CONNECTED` when `test.png` is `file`: the bytes
written to the connection. -/
def event_cb (file : Bytes) : Bytes :=
  let FileSize := (file.length % 2 ^ 32 + sizeofInfo) % 2 ^ 32
  let buf := padded 10001 (pictureInfo (asc "test.png") FileSize)
  let buf' := fread buf sizeofInfo (4906 - sizeofInfo) file
  buf'.take 4906
    ++ send_rest ((FileSize + (2 ^ 32 - 4906)) % 2 ^ 32) buf' (file.drop (4906 - sizeofInfo))

/-! ### The server -/

/-- `Client_Item`.  A file is its name and what has been written to it; `finished`
is the file at each time the count was complete. -/
structure Client_Item where
  fd : Nat
  in_buf : Bytes
  f : Option (Bytes × Bytes)
  szImgName : Bytes
  nFileSize : Int
  nReceiveTotal : Int
  finished : List (Option (Bytes × Bytes))
deriving Repr

/-- `clearparam()`. -/
def Client_Item.clearparam (pThis : Client_Item) : Client_Item :=
  { pThis with
    f := none
    nFileSize := 0
    nReceiveTotal := 0
    fd := 0
    szImgName := List.replicate 260 0 }

/-- `bufferevent_read(bev, in_buf, size)`, and the count of it. -/
def bufferevent_read (pThis : Client_Item) (size : Nat) (input : Bytes) :
    Option (Client_Item × Nat × Bytes) :=
  (store pThis.in_buf 0 (input.take size)).map fun buf =>
    ({ pThis with
        in_buf := buf
        nReceiveTotal := int32 (pThis.nReceiveTotal + (input.take size).length) },
      (input.take size).length, input.drop size)

/-- `if (fwrite(s, ..., 1, f) < 1) clearparam()`: a write of no bytes is not a
write of one item. -/
def write_or_clear (pThis : Client_Item) (s : Bytes) : Option Client_Item :=
  match pThis.f with
  | none => none -- the NULL of a file that could not be opened
  | some (name, written) =>
    if s = [] then some pThis.clearparam else some { pThis with f := some (name, written ++ s) }

/-- `strcpy_s(szImgName, sizeof(szImgName), szFileName)`; it does not come back from
a text without an end. -/
def strcpy_s (pThis : Client_Item) : Option Client_Item :=
  if 0 ∈ pThis.in_buf.take 260 then
    (store pThis.szImgName 0 (str pThis.in_buf ++ [0])).map fun name => { pThis with szImgName := name }
  else none

/-- The header of the first call, and the part of the file behind it. -/
def take_header (fopen_s : Bytes → Bool) (pThis : Client_Item) : Option Client_Item :=
  (strcpy_s { pThis with nFileSize := int pThis.in_buf 260 }).bind fun p =>
    let p := { p with f := if fopen_s (str p.szImgName) then some (str p.szImgName, []) else none }
    -- a total under 264 is a huge length here
    if 264 ≤ p.nReceiveTotal ∧ p.nReceiveTotal ≤ p.in_buf.length then
      write_or_clear p ((p.in_buf.take p.nReceiveTotal.toNat).drop sizeofInfo)
    else none

/-- The three branches of `Read_cb`. -/
def receive (fopen_s : Bytes → Bool) (pThis : Client_Item) (input : Bytes) :
    Option (Client_Item × Bytes) :=
  if pThis.nFileSize = 0 then
    (bufferevent_read pThis BufferLen input).bind fun (p, nReceived, input') =>
      if sizeofInfo ≤ nReceived then (take_header fopen_s p).map fun p => (p, input')
      else some (p, input')
  else if int32 (pThis.nFileSize - pThis.nReceiveTotal) ≥ BufferLen then
    (bufferevent_read pThis BufferLen input).bind fun (p, nReceived, input') =>
      (write_or_clear p (p.in_buf.take nReceived)).map fun p => (p, input')
  else if int32 (pThis.nFileSize - pThis.nReceiveTotal) ≥ 0 then
    (bufferevent_read pThis (int32 (pThis.nFileSize - pThis.nReceiveTotal)).toNat input).bind
      fun (p, nReceived, input') =>
        (write_or_clear p (p.in_buf.take nReceived)).map fun p => (p, input')
  else some (pThis, input)

/-- `if (nReceiveTotal == nFileSize)` at the end of `Read_cb`. -/
def finish (pThis : Client_Item) : Client_Item :=
  if pThis.nReceiveTotal = pThis.nFileSize then
    { pThis.clearparam with finished := pThis.finished ++ [pThis.f] }
  else pThis

/-- `Read_cb` with `input` waiting: the item and what still waits; `none` when the
server crashes. -/
def Read_cb (fopen_s : Bytes → Bool) (pThis : Client_Item) (input : Bytes) :
    Option (Client_Item × Bytes) :=
  (receive fopen_s pThis input).map fun (p, input') => (finish p, input')

/-- `Read_cb` for each arrival. -/
def receives (fopen_s : Bytes → Bool) : Client_Item → Bytes → List Bytes →
    Option (Client_Item × Bytes)
  | pThis, input, [] => some (pThis, input)
  | pThis, input, a :: arrivals =>
    (Read_cb fopen_s pThis (input ++ a)).bind fun (p, input') =>
      receives fopen_s p input' arrivals

/-- An item with no transfer under way.  Its `in_buf` comes from `new` and is not
initialised. -/
structure Client_Item.Initial (pThis : Client_Item) : Prop where
  f : pThis.f = none
  szImgName : pThis.szImgName = List.replicate 260 0
  nFileSize : pThis.nFileSize = 0
  nReceiveTotal : pThis.nReceiveTotal = 0

/-! ### What the client sends -/

theorem length_fread {buf f : Bytes} {off n : Nat} (h : off + n ≤ buf.length) :
    (fread buf off n f).length = buf.length := by
  have := List.length_take_le n f
  simp only [fread, List.length_append, List.length_take, List.length_drop] at this ⊢
  omega

/-- Whatever the file, as many bytes are written as `FileSize` says. -/
theorem length_send_rest (FileSize : Nat) (buf f : Bytes) (h : 4906 ≤ buf.length) :
    (send_rest FileSize buf f).length = FileSize := by
  induction FileSize using Nat.strong_induction_on generalizing buf f with
  | _ FileSize ih =>
    rw [send_rest]
    split
    · rename_i hbig
      have hlen : (fread buf 0 4906 f).length = buf.length := length_fread (by omega)
      rw [List.length_append, List.length_take, hlen, ih _ (by omega) _ _ (by omega)]
      omega
    · split
      · rw [List.length_take, length_fread (by omega)]
        omega
      · rw [List.length_nil]
        omega

/-- If that is what is left of the file, the file is written. -/
theorem send_rest_eq (buf f : Bytes) (h : 4906 ≤ buf.length) : send_rest f.length buf f = f := by
  induction hn : f.length using Nat.strong_induction_on generalizing buf f with
  | _ n ih =>
    have htake : ∀ k, (fread buf 0 k f).take (f.take k).length = f.take k := by
      intro k
      rw [fread, List.take_zero, List.nil_append, List.take_left]
    rw [send_rest]
    split
    · rename_i hbig
      have h4906 : (f.take 4906).length = 4906 := by rw [List.length_take]; omega
      have hfirst := htake 4906
      rw [h4906] at hfirst
      have hrest := ih (f.length - 4906) (by omega) (fread buf 0 4906 f) (f.drop 4906)
        (by rw [length_fread (by omega)]; exact h) (by rw [List.length_drop])
      rw [hfirst, ← hn, hrest, List.take_append_drop]
    · split
      · have := htake n
        rw [List.take_of_length_le (Nat.le_of_eq hn), hn] at this
        exact this
      · exact (List.length_eq_zero_iff.mp (by omega)).symm

theorem length_pictureInfo (nFileSize : Nat) :
    (pictureInfo (asc "test.png") nFileSize).length = sizeofInfo := by
  rw [pictureInfo, List.length_append, length_padded (by decide)]
  rfl

theorem sizes {file : Bytes} (hsize : file.length + sizeofInfo < 2 ^ 31) :
    (file.length % 2 ^ 32 + sizeofInfo) % 2 ^ 32 = file.length + sizeofInfo := by
  rw [Nat.mod_eq_of_lt (by omega), Nat.mod_eq_of_lt (by omega)]

/-- The client takes 4906 from the size: below zero that is 2³² more bytes. -/
theorem length_event_cb {file : Bytes} (hsize : file.length + sizeofInfo < 2 ^ 31) :
    (event_cb file).length = if 4642 ≤ file.length then file.length + sizeofInfo
      else file.length + sizeofInfo + 2 ^ 32 := by
  have hbuf : (padded 10001 (pictureInfo (asc "test.png") (file.length + sizeofInfo))).length
      = 10001 := length_padded (by rw [length_pictureInfo]; decide)
  have hread := @length_fread _ file sizeofInfo (4906 - sizeofInfo) (by rw [hbuf]; decide)
  rw [event_cb, sizes hsize, List.length_append, List.length_take, hread, hbuf,
    length_send_rest _ _ _ (by rw [hread, hbuf]; decide)]
  unfold sizeofInfo at hsize ⊢
  split <;> omega

/-- **What the client sends** when the first block is a full one. -/
theorem event_cb_eq {file : Bytes} (hsize : file.length + sizeofInfo < 2 ^ 31)
    (hfull : 4642 ≤ file.length) :
    event_cb file = pictureInfo (asc "test.png") (file.length + sizeofInfo) ++ file := by
  have hinfo := length_pictureInfo (file.length + sizeofInfo)
  have hbuf : (padded 10001 (pictureInfo (asc "test.png") (file.length + sizeofInfo))).length
      = 10001 := length_padded (by rw [hinfo]; decide)
  have hread := @length_fread _ file sizeofInfo (4906 - sizeofInfo) (by rw [hbuf]; decide)
  have hrest : (file.length + sizeofInfo + (2 ^ 32 - 4906)) % 2 ^ 32
      = (file.drop (4906 - sizeofInfo)).length := by
    rw [List.length_drop]
    unfold sizeofInfo at hsize ⊢
    omega
  have hfirst : (fread (padded 10001 (pictureInfo (asc "test.png") (file.length + sizeofInfo)))
      sizeofInfo (4906 - sizeofInfo) file).take 4906
        = pictureInfo (asc "test.png") (file.length + sizeofInfo) ++ file.take (4906 - sizeofInfo) := by
    have htake : (padded 10001 (pictureInfo (asc "test.png") (file.length + sizeofInfo))).take sizeofInfo
        = pictureInfo (asc "test.png") (file.length + sizeofInfo) := by
      rw [padded, List.take_append_of_le_length (Nat.le_of_eq hinfo.symm),
        List.take_of_length_le (Nat.le_of_eq hinfo)]
    rw [fread, htake, List.take_append_of_le_length, List.take_of_length_le]
    · rw [List.length_append, hinfo, List.length_take]
      unfold sizeofInfo
      omega
    · rw [List.length_append, hinfo, List.length_take]
      unfold sizeofInfo
      omega
  rw [event_cb, sizes hsize, hrest, hfirst, send_rest_eq _ _ (by rw [hread, hbuf]; decide), List.append_assoc,
    List.take_append_drop]

/-! ### What the server makes of it -/

/-- In the middle of a transfer: `written` of `file` is in the receiver's file. -/
structure Receiving (file written : Bytes) (p : Client_Item) : Prop where
  in_buf : p.in_buf.length = BufferLen
  f : p.f = some (asc "test.png", written)
  nFileSize : p.nFileSize = (file.length + sizeofInfo : Nat)
  nReceiveTotal : p.nReceiveTotal = (written.length + sizeofInfo : Nat)

/-- What a call leaves: the transfer goes on, or the file is there and the item as
at the beginning. -/
def Step (file written rest : Bytes) (fin : List (Option (Bytes × Bytes))) (p : Client_Item) : Prop :=
  (rest ≠ [] ∧ Receiving file written p ∧ p.finished = fin) ∨
    (rest = [] ∧ p.Initial ∧ p.finished = fin ++ [some (asc "test.png", file)])

theorem finish_step {file written rest : Bytes} {p : Client_Item} (h : Receiving file written p)
    (hfile : file = written ++ rest) : Step file written rest p.finished (finish p) := by
  have hlen : file.length = written.length + rest.length := by rw [hfile, List.length_append]
  rw [finish, h.nFileSize, h.nReceiveTotal]
  by_cases hrest : rest = []
  · subst hrest
    rw [List.append_nil] at hfile
    rw [if_pos (by rw [hfile]), h.f, ← hfile]
    exact Or.inr ⟨rfl, ⟨rfl, rfl, rfl, rfl⟩, rfl⟩
  · have := List.length_pos_iff.mpr hrest
    rw [if_neg (by omega)]
    exact Or.inl ⟨hrest, h, rfl⟩

/-- `bufferevent_read` of all that waits. -/
theorem bufferevent_read_all {p : Client_Item} {a : Bytes} {size : Nat}
    (hbuf : p.in_buf.length = BufferLen) (hsize : a.length ≤ size) (ha : a.length ≤ BufferLen) :
    bufferevent_read p size a = some ({ p with
        in_buf := a ++ p.in_buf.drop a.length
        nReceiveTotal := int32 (p.nReceiveTotal + a.length) }, a.length, []) := by
  rw [bufferevent_read, List.take_of_length_le hsize, List.drop_of_length_le hsize,
    store_zero (by omega), Option.map_some]

theorem length_received {m a : Bytes} (hm : m.length = BufferLen) (ha : a.length ≤ BufferLen) :
    (a ++ m.drop a.length).length = BufferLen := by
  rw [List.length_append, List.length_drop, hm]
  omega

section Transfer

variable {fopen_s : Bytes → Bool} {file written rest a : Bytes} {p : Client_Item}

/-- **One more arrival.** -/
theorem Read_cb_receiving (h : Receiving file written p) (hfile : file = written ++ (a ++ rest))
    (hsize : file.length + sizeofInfo < 2 ^ 31) (ha : 1 ≤ a.length) (ha' : a.length ≤ BufferLen) :
    ∃ p', Read_cb fopen_s p a = some (p', []) ∧
      Step file (written ++ a) rest p.finished p' := by
  have hlen : file.length = written.length + (a.length + rest.length) := by
    rw [hfile, List.length_append, List.length_append]
  have hleft : int32 (p.nFileSize - p.nReceiveTotal) = (a.length + rest.length : Nat) := by
    rw [h.nFileSize, h.nReceiveTotal, int32_of_lt (by omega) (by omega)]
    omega
  have htotal : int32 (p.nReceiveTotal + a.length) = ((written ++ a).length + sizeofInfo : Nat) := by
    rw [h.nReceiveTotal, int32_of_lt (by omega) (by omega), List.length_append]
    omega
  -- whichever the branch, all that waits is read and appended
  have hread : ∀ size, a.length ≤ size →
      ((bufferevent_read p size a).bind fun (p, nReceived, input') =>
        (write_or_clear p (p.in_buf.take nReceived)).map fun p => (p, input'))
      = some ({ p with
          in_buf := a ++ p.in_buf.drop a.length
          nReceiveTotal := int32 (p.nReceiveTotal + a.length)
          f := some (asc "test.png", written ++ a) }, []) := by
    intro size hle
    rw [bufferevent_read_all h.in_buf hle ha', Option.bind_some]
    dsimp only
    rw [write_or_clear, h.f, List.take_left]
    dsimp only
    rw [if_neg (List.length_pos_iff.mp ha)]
    rfl
  have hreceive : receive fopen_s p a = some ({ p with
      in_buf := a ++ p.in_buf.drop a.length
      nReceiveTotal := int32 (p.nReceiveTotal + a.length)
      f := some (asc "test.png", written ++ a) }, []) := by
    unfold receive
    rw [hleft, if_neg (by rw [h.nFileSize]; unfold sizeofInfo; omega)]
    split
    · exact hread BufferLen ha'
    · rw [if_pos (by omega)]
      exact hread _ (by omega)
  rw [Read_cb, hreceive]
  refine ⟨_, rfl, ?_⟩
  refine finish_step ⟨length_received h.in_buf ha', rfl, h.nFileSize, htotal⟩ ?_
  rw [hfile, List.append_assoc]

/-- The arrivals that follow the first one. -/
theorem receives_rest {fin : List (Option (Bytes × Bytes))}
    (hsize : file.length + sizeofInfo < 2 ^ 31) : ∀ (arrivals : List Bytes) (written : Bytes)
    (p : Client_Item), (∀ a ∈ arrivals, 1 ≤ a.length ∧ a.length ≤ BufferLen) →
    file = written ++ arrivals.flatten → Step file written arrivals.flatten fin p →
    ∃ p', receives fopen_s p [] arrivals = some (p', []) ∧ p'.Initial ∧
      p'.finished = fin ++ [some (asc "test.png", file)] := by
  intro arrivals
  induction arrivals with
  | nil =>
    intro written p _ _ h
    rcases h with ⟨hne, -⟩ | ⟨-, hinit, hfin⟩
    · exact absurd rfl hne
    · exact ⟨p, rfl, hinit, hfin⟩
  | cons a arrivals ih =>
    intro written p hlen hfile h
    obtain ⟨ha, ha'⟩ := hlen a (by simp)
    have hlen' : ∀ x ∈ arrivals, 1 ≤ x.length ∧ x.length ≤ BufferLen :=
      fun x hx => hlen x (List.mem_cons_of_mem a hx)
    rw [List.flatten_cons] at hfile h
    rcases h with ⟨-, hp, hfin⟩ | ⟨hnil, -⟩
    · obtain ⟨p₁, hread, hstep⟩ := @Read_cb_receiving fopen_s _ _ _ _ _ hp hfile hsize ha ha'
      rw [hfin] at hstep
      obtain ⟨p', hrest, hinit, hfin'⟩ := ih (written ++ a) p₁ hlen'
        (by rw [List.append_assoc]; exact hfile) hstep
      refine ⟨p', ?_, hinit, hfin'⟩
      rw [receives, List.nil_append, hread, Option.bind_some]
      exact hrest
    · rw [(List.append_eq_nil_iff.mp hnil).1] at ha
      exact absurd ha (by decide)

theorem zero_not_mem_name : 0 ∉ asc "test.png" := by decide

/-- The size in the header, whatever stands behind it. -/
theorem int_pictureInfo {n : Nat} (hn : n < 2 ^ 31) (m : Bytes) :
    int (pictureInfo (asc "test.png") n ++ m) 260 = n := by
  have hpad : (padded 260 (asc "test.png")).length = 260 := length_padded (by decide)
  have hint := int_intBytes hn (padded 260 (asc "test.png")) m
  rwa [hpad, ← List.append_assoc] at hint

/-- And the name. -/
theorem strcpy_s_pictureInfo {n : Nat} {m : Bytes}
    (hbuf : p.in_buf = pictureInfo (asc "test.png") n ++ m)
    (hname : p.szImgName = List.replicate 260 0) :
    strcpy_s p = some { p with szImgName := padded 260 (asc "test.png") } := by
  have hpad : (padded 260 (asc "test.png")).length = 260 := length_padded (by decide)
  have hsplit : p.in_buf = padded 260 (asc "test.png") ++ (intBytes n ++ m) := by
    rw [hbuf, pictureInfo, List.append_assoc]
  have htake : p.in_buf.take 260 = padded 260 (asc "test.png") := by
    rw [hsplit, List.take_append_of_le_length (Nat.le_of_eq hpad.symm),
      List.take_of_length_le (Nat.le_of_eq hpad)]
  have hstr : str p.in_buf = asc "test.png" := by
    rw [hsplit, padded_eq (by decide), List.append_assoc, List.cons_append,
      str_append_zero _ _ zero_not_mem_name]
  have hstore : store p.szImgName 0 (asc "test.png" ++ [0]) = some (padded 260 (asc "test.png")) := by
    have := store_padded (n := 260) (s := []) (asc "test.png") [0] (by simp) (by decide)
    rwa [padded_nil, ← hname, List.nil_append] at this
  rw [strcpy_s, htake, if_pos (by rw [padded_eq (by decide)]; simp), hstr, hstore]
  rfl

/-- What the first arrival leaves: the header taken, and what stands behind it written. -/
def Client_Item.begun (p : Client_Item) (a written : Bytes) : Client_Item :=
  { p with
    in_buf := a ++ p.in_buf.drop a.length
    nReceiveTotal := int32 (p.nReceiveTotal + a.length)
    nFileSize := int (a ++ p.in_buf.drop a.length) 260
    szImgName := padded 260 (asc "test.png")
    f := some (asc "test.png", written) }

/-- **The first arrival**, when it brings the header and something behind it. -/
theorem Read_cb_first (hp : p.Initial) (hbuf : p.in_buf.length = BufferLen)
    (hopen : fopen_s (asc "test.png") = true) (hsize : file.length + sizeofInfo < 2 ^ 31)
    (ha : a = pictureInfo (asc "test.png") (file.length + sizeofInfo) ++ written)
    (ha' : a.length ≤ BufferLen) (hne : written ≠ []) (hfile : file = written ++ rest) :
    ∃ p', Read_cb fopen_s p a = some (p', []) ∧ Step file written rest p.finished p' := by
  have hinfo := length_pictureInfo (file.length + sizeofInfo)
  have hlen : a.length = sizeofInfo + written.length := by rw [ha, List.length_append, hinfo]
  have htotal : int32 (p.nReceiveTotal + a.length) = (written.length + sizeofInfo : Nat) := by
    have : written.length ≤ file.length := by rw [hfile, List.length_append]; omega
    rw [hp.nReceiveTotal, int32_of_lt (by omega) (by omega)]
    omega
  have hfull : (a ++ p.in_buf.drop a.length).length = BufferLen := length_received hbuf ha'
  have hread : a ++ p.in_buf.drop a.length = pictureInfo (asc "test.png") (file.length + sizeofInfo)
      ++ (written ++ p.in_buf.drop a.length) := by
    conv_lhs => rw [ha, List.append_assoc, ← ha]
  have hwritten : ((a ++ p.in_buf.drop a.length).take (written.length + sizeofInfo)).drop sizeofInfo
      = written := by
    have hlen' : written.length + sizeofInfo = a.length := by omega
    rw [hlen', List.take_left, ha, List.drop_left' hinfo]
  have hint : int (a ++ p.in_buf.drop a.length) 260 = (file.length + sizeofInfo : Nat) := by
    rw [hread, int_pictureInfo hsize]
  have hcpy := strcpy_s_pictureInfo (p := { p with
      in_buf := a ++ p.in_buf.drop a.length
      nReceiveTotal := int32 (p.nReceiveTotal + a.length)
      nFileSize := int (a ++ p.in_buf.drop a.length) 260 }) hread hp.szImgName
  have hheader : take_header fopen_s { p with
      in_buf := a ++ p.in_buf.drop a.length
      nReceiveTotal := int32 (p.nReceiveTotal + a.length) } = some (p.begun a written) := by
    rw [take_header, hcpy, Option.bind_some]
    dsimp only
    rw [str_padded (by decide) zero_not_mem_name, if_pos hopen, htotal, hfull,
      if_pos ⟨by unfold sizeofInfo; omega, by omega⟩, write_or_clear]
    dsimp only
    rw [Int.toNat_natCast, hwritten, if_neg hne, Client_Item.begun, htotal]
    rfl
  have hreceive : receive fopen_s p a = some (p.begun a written, []) := by
    rw [receive, if_pos hp.nFileSize, bufferevent_read_all hbuf ha' ha', Option.bind_some]
    dsimp only
    rw [if_pos (by omega), hheader]
    rfl
  have hgot : Receiving file written (p.begun a written) := by
    refine ⟨hfull, rfl, ?_, htotal⟩
    unfold Client_Item.begun
    dsimp only
    exact hint
  rw [Read_cb, hreceive]
  exact ⟨_, rfl, finish_step hgot hfile⟩

end Transfer

/-! ### A first arrival without the whole header -/

/-- The text differs from `file`, and still does when more is written behind it. -/
def Spoilt (file written : Bytes) : Prop := ∃ (i : Nat) (b : UInt8),
  written[i]? = some b ∧ file[i]? ≠ some b

theorem Spoilt.append {file written : Bytes} (h : Spoilt file written) (s : Bytes) :
    Spoilt file (written ++ s) := by
  obtain ⟨i, b, hb, hne⟩ := h
  exact ⟨i, b, by rw [List.getElem?_append_left (List.getElem?_eq_some_iff.mp hb).1]; exact hb, hne⟩

theorem Spoilt.ne {file written : Bytes} (h : Spoilt file written) : written ≠ file := by
  rintro rfl
  obtain ⟨i, b, hb, hne⟩ := h
  exact hne hb

/-- An uninitialised buffer that differs from the file wherever it can be taken for
a part of it. -/
def other (file : Bytes) : Bytes :=
  List.replicate 264 0 ++ (List.range 4642).map fun i => file.getD i 0 + 1

theorem length_other (file : Bytes) : (other file).length = BufferLen := by
  rw [other, List.length_append, List.length_replicate, List.length_map, List.length_range]
  rfl

theorem other_ne {file : Bytes} {j : Nat} (h : 264 ≤ j) (h' : j < BufferLen) :
    ∃ b, (other file)[j]? = some b ∧ file[j - 264]? ≠ some b := by
  unfold BufferLen at h'
  refine ⟨file.getD (j - 264) 0 + 1, ?_, ?_⟩
  · rw [other, List.getElem?_append_right (by rw [List.length_replicate]; exact h),
      List.length_replicate, List.getElem?_map, List.getElem?_range (by omega), Option.map_some]
  · intro hc
    have hx := congrArg (fun o => (o.getD 0).toNat) hc
    simp only [Option.getD_some, List.getD_eq_getElem?_getD, UInt8.toNat_add] at hx
    have hlt := (file[j - 264]?.getD 0).toNat_lt
    have h1 : (1 : UInt8).toNat = 1 := rfl
    omega

section Lost

variable {fopen_s : Bytes → Bool} {file : Bytes} {fin : List (Option (Bytes × Bytes))}

/-- Before a header has been made out: the bytes counted reach further than the
bytes that have ever been in the buffer. -/
structure Astray (file : Bytes) (T : Nat) (p : Client_Item) : Prop where
  in_buf : p.in_buf.length = BufferLen
  nFileSize : p.nFileSize = 0
  nReceiveTotal : p.nReceiveTotal = T
  junk : ∃ M, M < T ∧ ∀ j, M ≤ j → 264 ≤ j → p.in_buf[j]? = (other file)[j]?

/-- From here on no transfer of `file` comes to a good end: the first one that
comes to an end has another text. -/
inductive Lost (file : Bytes) (fin : List (Option (Bytes × Bytes))) :
    Nat → Client_Item → Bytes → Prop
  | ended {T p input} (x : Option (Bytes × Bytes)) (xs : List (Option (Bytes × Bytes)))
      (hfin : p.finished = fin ++ x :: xs) (hx : x ≠ some (asc "test.png", file)) :
      Lost file fin T p input
  | writing {T p input} (name written : Bytes) (hfin : p.finished = fin)
      (hf : p.f = some (name, written)) (hsize : p.nFileSize ≠ 0) (h : Spoilt file written) :
      Lost file fin T p input
  | astray {T p} (hfin : p.finished = fin) (h : Astray file T p) : Lost file fin T p []

theorem Lost.not_arrived {T : Nat} {p : Client_Item} {input : Bytes} (h : Lost file fin T p input) :
    p.finished ≠ fin ++ [some (asc "test.png", file)] := by
  intro he
  cases h with
  | ended x xs hfin hx =>
    rw [hfin] at he
    exact hx (List.cons.inj (List.append_cancel_left he)).1
  | writing name written hfin =>
    rw [hfin] at he
    exact absurd (List.append_right_eq_self.mp he.symm) (by simp)
  | astray hfin =>
    rw [hfin] at he
    exact absurd (List.append_right_eq_self.mp he.symm) (by simp)

theorem write_or_clear_cases {p p' : Client_Item} {s : Bytes} (h : write_or_clear p s = some p') :
    ∃ name written, p.f = some (name, written) ∧
      ((s = [] ∧ p' = p.clearparam) ∨
        (s ≠ [] ∧ p' = { p with f := some (name, written ++ s) })) := by
  unfold write_or_clear at h
  split at h
  · cases h
  · rename_i name written hf
    refine ⟨name, written, hf, ?_⟩
    split at h
    · rename_i hs
      exact Or.inl ⟨hs, (Option.some.inj h).symm⟩
    · rename_i hs
      exact Or.inr ⟨hs, (Option.some.inj h).symm⟩

theorem finished_finish (p : Client_Item) : ∃ xs, (finish p).finished = p.finished ++ xs := by
  rw [finish]
  split
  · exact ⟨_, rfl⟩
  · exact ⟨[], (List.append_nil _).symm⟩

/-- What the first branch makes of a header: the file behind it is written, or there
is nothing behind it and the item is cleared. -/
theorem take_header_cases {p p' : Client_Item} (h : take_header fopen_s p = some p') :
    264 ≤ p.nReceiveTotal ∧ p.nReceiveTotal ≤ p.in_buf.length ∧ p'.finished = p.finished ∧
      ((p'.f = none ∧ p'.nFileSize = 0 ∧ p'.nReceiveTotal = 0) ∨
        ((p.in_buf.take p.nReceiveTotal.toNat).drop sizeofInfo ≠ [] ∧
          p'.in_buf = p.in_buf ∧ p'.nReceiveTotal = p.nReceiveTotal ∧
          ∃ name, p'.f = some (name, (p.in_buf.take p.nReceiveTotal.toNat).drop sizeofInfo))) := by
  unfold take_header at h
  obtain ⟨q, hq, h⟩ := Option.bind_eq_some_iff.mp h
  generalize int p.in_buf 260 = size at hq
  obtain ⟨image, rfl⟩ : ∃ image, q = { p with nFileSize := size, szImgName := image } := by
    unfold strcpy_s at hq
    split at hq
    · obtain ⟨image, -, rfl⟩ := Option.map_eq_some_iff.mp hq
      exact ⟨image, rfl⟩
    · cases hq
  dsimp only at h
  split at h
  · rename_i hlen
    refine ⟨hlen.1, hlen.2, ?_⟩
    obtain ⟨name, written, hf, ⟨-, rfl⟩ | ⟨hne, rfl⟩⟩ := write_or_clear_cases h
    · exact ⟨rfl, Or.inl ⟨rfl, rfl, rfl⟩⟩
    · refine ⟨rfl, Or.inr ⟨hne, rfl, rfl, name, ?_⟩⟩
      dsimp only at hf
      split at hf
      · rw [(Prod.mk.inj (Option.some.inj hf)).2.symm, List.nil_append]
      · cases hf
  · cases h

theorem bufferevent_read_cases {p p' : Client_Item} {size n : Nat} {input input' : Bytes}
    (h : bufferevent_read p size input = some (p', n, input')) :
    n = (input.take size).length ∧ input' = input.drop size ∧ p' = { p with
        in_buf := input.take size ++ p.in_buf.drop (input.take size).length
        nReceiveTotal := int32 (p.nReceiveTotal + (input.take size).length) } ∧
      (input.take size).length ≤ p.in_buf.length := by
  obtain ⟨buf, hbuf, he⟩ := Option.map_eq_some_iff.mp h
  obtain ⟨hp, he'⟩ := Prod.mk.inj he
  obtain ⟨rfl, rfl⟩ := Prod.mk.inj he'
  rw [← hp]
  rw [store] at hbuf
  split at hbuf
  · rename_i hle
    rw [List.take_zero, List.nil_append, Nat.zero_add] at hbuf
    rw [Nat.zero_add] at hle
    exact ⟨rfl, rfl, by rw [← Option.some.inj hbuf], hle⟩
  · cases hbuf

/-- **What a call can do.** -/
theorem receive_cases {p p' : Client_Item} {input input' : Bytes}
    (h : receive fopen_s p input = some (p', input')) :
    p'.finished = p.finished ∧
      ((p.nFileSize = 0 ∧ ∃ q n, bufferevent_read p BufferLen input = some (q, n, input') ∧
          (264 ≤ n ∧ take_header fopen_s q = some p' ∨ n < 264 ∧ p' = q)) ∨
        (p.nFileSize ≠ 0 ∧ (p' = p ∨ p'.f = none ∧ p'.nFileSize = 0 ∧ p'.nReceiveTotal = 0 ∨
          p'.nFileSize = p.nFileSize ∧ ∃ name written s,
            p.f = some (name, written) ∧ p'.f = some (name, written ++ s)))) := by
  -- the second and the third branch differ in how much they ask for
  have hwrite : ∀ size, ((bufferevent_read p size input).bind fun (q, n, input') =>
      (write_or_clear q (q.in_buf.take n)).map fun q => (q, input')) = some (p', input') →
      p'.finished = p.finished ∧ (p'.f = none ∧ p'.nFileSize = 0 ∧ p'.nReceiveTotal = 0 ∨
          p'.nFileSize = p.nFileSize ∧ ∃ name written s,
            p.f = some (name, written) ∧ p'.f = some (name, written ++ s)) := by
    intro size hs
    obtain ⟨⟨q, n, i⟩, hread, hs⟩ := Option.bind_eq_some_iff.mp hs
    obtain ⟨q', hw, he⟩ := Option.map_eq_some_iff.mp hs
    obtain ⟨rfl, rfl⟩ := Prod.mk.inj he
    obtain ⟨-, -, rfl, -⟩ := bufferevent_read_cases hread
    obtain ⟨name, written, hf, ⟨-, rfl⟩ | ⟨-, rfl⟩⟩ := write_or_clear_cases hw
    · exact ⟨rfl, Or.inl ⟨rfl, rfl, rfl⟩⟩
    · exact ⟨rfl, Or.inr ⟨rfl, name, written, _, hf, rfl⟩⟩
  unfold receive at h
  split at h
  · rename_i hsize
    obtain ⟨⟨q, n, i⟩, hread, h⟩ := Option.bind_eq_some_iff.mp h
    obtain ⟨-, -, hq, -⟩ := bufferevent_read_cases hread
    dsimp only at h
    split at h
    · rename_i hn
      obtain ⟨q', hhead, he⟩ := Option.map_eq_some_iff.mp h
      obtain ⟨rfl, rfl⟩ := Prod.mk.inj he
      refine ⟨?_, Or.inl ⟨hsize, q, n, hread, Or.inl ⟨hn, hhead⟩⟩⟩
      rw [(take_header_cases hhead).2.2.1, hq]
    · rename_i hn
      obtain ⟨rfl, rfl⟩ := Prod.mk.inj (Option.some.inj h)
      exact ⟨by rw [hq], Or.inl ⟨hsize, q, n, hread, Or.inr ⟨by unfold sizeofInfo at hn; omega, rfl⟩⟩⟩
  · rename_i hsize
    split at h
    · obtain ⟨hfin, hcase⟩ := hwrite _ h
      exact ⟨hfin, Or.inr ⟨hsize, Or.inr hcase⟩⟩
    · split at h
      · obtain ⟨hfin, hcase⟩ := hwrite _ h
        exact ⟨hfin, Or.inr ⟨hsize, Or.inr hcase⟩⟩
      · obtain ⟨rfl, rfl⟩ := Prod.mk.inj (Option.some.inj h)
        exact ⟨rfl, Or.inr ⟨hsize, Or.inl rfl⟩⟩

/-- A transfer of a spoilt text is lost, going on or coming to its end. -/
theorem lost_finish {T : Nat} {p : Client_Item} {input name written : Bytes} (hfin : p.finished = fin)
    (hf : p.f = some (name, written)) (h : Spoilt file written)
    (hsize : p.nReceiveTotal ≠ p.nFileSize → p.nFileSize ≠ 0) : Lost file fin T (finish p) input := by
  rw [finish]
  split
  · refine .ended (some (name, written)) [] (by rw [← hfin, ← hf]) fun hx => ?_
    exact h.ne (Prod.mk.inj (Option.some.inj hx)).2
  · rename_i hne
    exact .writing name written hfin hf (hsize hne) h

/-- An item that has been cleared counts nothing up to nothing. -/
theorem lost_cleared {T : Nat} {p : Client_Item} {input : Bytes} (hfin : p.finished = fin)
    (hf : p.f = none) (hsize : p.nFileSize = 0) (htotal : p.nReceiveTotal = 0) :
    Lost file fin T (finish p) input := by
  rw [finish, if_pos (htotal.trans hsize.symm)]
  exact .ended none [] (by rw [← hfin, ← hf]) (by simp)

theorem getElem?_received {m a : Bytes} {j : Nat} (h : a.length ≤ j) :
    (a ++ m.drop a.length)[j]? = m[j]? := by
  rw [List.getElem?_append_right h, List.getElem?_drop, Nat.add_sub_cancel' h]

/-- A header made out by mistake: with it goes a byte that never arrived. -/
theorem Astray.spoilt {T M : Nat} {p : Client_Item} (hT : p.nReceiveTotal = T)
    (hlen : p.nReceiveTotal ≤ p.in_buf.length) (hbuf : p.in_buf.length = BufferLen) (hM : M < T)
    (h264 : 264 ≤ M) (hjunk : p.in_buf[M]? = (other file)[M]?) :
    Spoilt file ((p.in_buf.take p.nReceiveTotal.toNat).drop sizeofInfo) := by
  obtain ⟨b, hb, hne⟩ := @other_ne file M h264 (by omega)
  refine ⟨M - 264, b, ?_, hne⟩
  rw [List.getElem?_drop, show sizeofInfo + (M - 264) = M by unfold sizeofInfo; omega,
    List.getElem?_take, if_pos (by omega), hjunk, hb]

/-- **Lost stays lost.** -/
theorem lost_step {T : Nat} {p p' : Client_Item} {input input' a : Bytes}
    (h : Lost file fin T p input) (ha : 1 ≤ a.length) (ha' : a.length ≤ BufferLen)
    (hT : T + a.length < 2 ^ 31) (hread : Read_cb fopen_s p (input ++ a) = some (p', input')) :
    Lost file fin (T + a.length) p' input' := by
  obtain ⟨⟨q, i⟩, hrec, he⟩ := Option.map_eq_some_iff.mp hread
  obtain ⟨rfl, rfl⟩ := Prod.mk.inj he
  obtain ⟨hsame, hcases⟩ := receive_cases hrec
  cases h with
  | ended x xs hfin hx =>
    obtain ⟨ys, hys⟩ := finished_finish q
    exact .ended x (xs ++ ys) (by rw [hys, hsame, hfin, List.append_assoc, List.cons_append]) hx
  | writing name written hfin hf hsize h =>
    rcases hcases with ⟨h0, -⟩ | ⟨-, rfl | ⟨hnone, hsize', htotal⟩ | ⟨hsize', name', w, s, hf', hq⟩⟩
    · exact absurd h0 hsize
    · exact lost_finish hfin hf h fun _ => hsize
    · exact lost_cleared (hsame.trans hfin) hnone hsize' htotal
    · obtain ⟨rfl, rfl⟩ := Prod.mk.inj (Option.some.inj (hf.symm.trans hf'))
      exact lost_finish (hsame.trans hfin) hq (h.append s) fun _ => by rwa [hsize']
  | astray hfin h =>
    rw [List.nil_append] at hcases hrec
    rcases hcases with ⟨-, r, n, hr, hcase⟩ | ⟨hne, -⟩
    · obtain ⟨hn, rfl, hr', -⟩ := bufferevent_read_cases hr
      rw [List.take_of_length_le ha'] at hn hr'
      rw [List.drop_of_length_le ha']
      subst hn
      obtain ⟨M, hM, hjunk⟩ := h.junk
      have htotal : r.nReceiveTotal = (T + a.length : Nat) := by
        rw [hr']
        dsimp only
        rw [h.nReceiveTotal, int32_of_lt (by omega) (by omega)]
        omega
      have hr : Astray file (T + a.length) r := by
        refine ⟨?_, ?_, htotal, max M a.length, by omega, fun j hj h264 => ?_⟩
        · rw [hr']
          exact length_received h.in_buf ha'
        · rw [hr']
          exact h.nFileSize
        · rw [hr']
          dsimp only
          rw [getElem?_received (by omega), hjunk j (by omega) h264]
      rcases hcase with ⟨hn, hhead⟩ | ⟨hn, rfl⟩
      · obtain ⟨h264, hlen, -, ⟨hnone, hsize, hzero⟩ | ⟨hne, hbuf, htot, name, hf⟩⟩ :=
          take_header_cases hhead
        · exact lost_cleared (hsame.trans hfin) hnone hsize hzero
        · obtain ⟨M', hM', hjunk'⟩ := hr.junk
          have hspoilt := Astray.spoilt (M := max M' 264) htotal hlen hr.in_buf (by omega)
            (le_max_right _ _) (hjunk' _ (le_max_left _ _) (le_max_right _ _))
          by_cases hzero : q.nFileSize = 0
          · rw [finish, if_neg (by rw [htot, htotal, hzero]; omega)]
            exact .astray (hsame.trans hfin)
              ⟨hbuf ▸ hr.in_buf, hzero, htot.trans htotal, M', hM', hbuf ▸ hjunk'⟩
          · exact lost_finish (hsame.trans hfin) hf hspoilt fun _ => hzero
      · rw [finish, if_neg (by rw [htotal, hr.nFileSize]; omega)]
        exact .astray (hsame.trans hfin) hr
    · exact absurd h.nFileSize hne

theorem lost_receives : ∀ (arrivals : List Bytes) (T : Nat) (p p' : Client_Item)
    (input input' : Bytes), Lost file fin T p input →
    (∀ a ∈ arrivals, 1 ≤ a.length ∧ a.length ≤ BufferLen) → T + arrivals.flatten.length < 2 ^ 31 →
    receives fopen_s p input arrivals = some (p', input') →
    p'.finished ≠ fin ++ [some (asc "test.png", file)] := by
  intro arrivals
  induction arrivals with
  | nil =>
    intro T p p' input input' h _ _ hrec
    obtain ⟨rfl, rfl⟩ := Prod.mk.inj (Option.some.inj hrec)
    exact h.not_arrived
  | cons a arrivals ih =>
    intro T p p' input input' h hlen hT hrec
    obtain ⟨ha, ha'⟩ := hlen a (by simp)
    rw [List.flatten_cons, List.length_append] at hT
    obtain ⟨⟨q, i⟩, hread, hrest⟩ := Option.bind_eq_some_iff.mp hrec
    exact ih (T + a.length) q p' i input' (lost_step h ha ha' (by omega) hread)
      (fun x hx => hlen x (List.mem_cons_of_mem a hx)) (by omega) hrest

/-- **A first arrival of no more than a header** is the end of the transfer. -/
theorem lost_first {p p' : Client_Item} {input' a : Bytes} (hp : p.Initial)
    (hbuf : p.in_buf = other file) (hfin : p.finished = fin) (ha : 1 ≤ a.length)
    (hshort : a.length ≤ sizeofInfo) (hread : Read_cb fopen_s p ([] ++ a) = some (p', input')) :
    Lost file fin a.length p' input' := by
  obtain ⟨⟨q, i⟩, hrec, he⟩ := Option.map_eq_some_iff.mp hread
  obtain ⟨rfl, rfl⟩ := Prod.mk.inj he
  obtain ⟨hsame, hcases⟩ := receive_cases hrec
  unfold sizeofInfo at hshort
  rw [List.nil_append] at hcases
  rcases hcases with ⟨-, r, n, hr, hcase⟩ | ⟨hne, -⟩
  · obtain ⟨hn, rfl, hr', -⟩ := bufferevent_read_cases hr
    have ha' : a.length ≤ BufferLen := by unfold BufferLen; omega
    rw [List.take_of_length_le ha'] at hn hr'
    rw [List.drop_of_length_le ha']
    subst hn
    have htotal : r.nReceiveTotal = a.length := by
      rw [hr']
      dsimp only
      rw [hp.nReceiveTotal, int32_of_lt (by omega) (by omega)]
      omega
    rcases hcase with ⟨hn, hhead⟩ | ⟨hn, hq⟩
    · -- the header alone: nothing is written, and that is taken for a failure
      obtain ⟨-, -, -, ⟨hnone, hsize, hzero⟩ | ⟨hne, -⟩⟩ := take_header_cases hhead
      · exact lost_cleared (hsame.trans hfin) hnone hsize hzero
      · refine absurd (List.drop_eq_nil_iff.mpr ?_) hne
        rw [htotal, List.length_take]
        unfold sizeofInfo
        omega
    · subst hq
      have hnone : q.nFileSize = 0 := by rw [hr']; exact hp.nFileSize
      rw [finish, if_neg (by rw [htotal, hnone]; omega)]
      refine .astray (hsame.trans hfin) ⟨?_, hnone, htotal, 0, by omega, fun j _ h264 => ?_⟩
      · rw [hr']
        exact length_received (by rw [hbuf, length_other]) ha'
      · rw [hr']
        dsimp only
        rw [getElem?_received (by omega), hbuf]
  · exact absurd hp.nFileSize hne

/-- A file whose first arrival is no more than a header does not arrive. -/
theorem not_arrived_of_short {fopen_s : Bytes → Bool} {file a : Bytes} {as : List Bytes}
    (hlen : ∀ x ∈ a :: as, 1 ≤ x.length ∧ x.length ≤ BufferLen)
    (htotal : (a :: as).flatten.length < 2 ^ 31) (hshort : a.length ≤ sizeofInfo) :
    ¬ ∀ p : Client_Item, p.Initial → p.in_buf.length = BufferLen →
      ∃ p', receives fopen_s p [] (a :: as) = some (p', []) ∧ p'.Initial ∧
        p'.finished = p.finished ++ [some (asc "test.png", file)] := by
  intro hall
  have hp : Client_Item.Initial ⟨0, other file, none, List.replicate 260 0, 0, 0, []⟩ :=
    ⟨rfl, rfl, rfl, rfl⟩
  obtain ⟨p', hrec, -, hfin⟩ := hall _ hp (length_other file)
  obtain ⟨⟨q, i⟩, hread, hrest⟩ := Option.bind_eq_some_iff.mp hrec
  have hlost := lost_first hp rfl rfl (hlen a (by simp)).1 hshort hread
  rw [List.flatten_cons, List.length_append] at htotal
  exact lost_receives as _ _ _ _ _ hlost (fun x hx => hlen x (List.mem_cons_of_mem a hx)) htotal
    hrest hfin

end Lost

theorem int_lt (m : Bytes) (off : Nat) : int m off < 2 ^ 31 := int32_lt _

/-- **When a file arrives.**  The client sends as many bytes as its header says, and
the server, whatever was in its buffer, ends up with the file and with an item as
at the beginning, if and only if the file fills the first block and the first
arrival brings more than the header. -/
theorem arrives_intact_iff (fopen_s : Bytes → Bool) (file : Bytes) (arrivals : List Bytes)
    (hopen : fopen_s (asc "test.png") = true) (hsize : file.length + sizeofInfo < 2 ^ 31)
    (hlen : ∀ a ∈ arrivals, 1 ≤ a.length ∧ a.length ≤ BufferLen)
    (hstream : arrivals.flatten = event_cb file) :
    ((event_cb file).length = int (event_cb file) 260 ∧
        ∀ p : Client_Item, p.Initial → p.in_buf.length = BufferLen →
          ∃ p', receives fopen_s p [] arrivals = some (p', []) ∧ p'.Initial ∧
            p'.finished = p.finished ++ [some (asc "test.png", file)]) ↔
      4642 ≤ file.length ∧ ∃ a as, arrivals = a :: as ∧ sizeofInfo < a.length := by
  have hinfo := length_pictureInfo (file.length + sizeofInfo)
  by_cases hfull : 4642 ≤ file.length
  · rw [event_cb_eq hsize hfull, int_pictureInfo hsize, List.length_append, hinfo]
    rw [event_cb_eq hsize hfull] at hstream
    have htotal : arrivals.flatten.length = sizeofInfo + file.length := by
      rw [hstream, List.length_append, hinfo]
    obtain ⟨a, as, rfl⟩ : ∃ a as, arrivals = a :: as := by
      refine List.exists_cons_of_ne_nil ?_
      rintro rfl
      rw [List.flatten_nil, List.length_nil] at htotal
      unfold sizeofInfo at htotal
      omega
    obtain ⟨ha, ha'⟩ := hlen a (by simp)
    have hlen' : ∀ x ∈ as, 1 ≤ x.length ∧ x.length ≤ BufferLen :=
      fun x hx => hlen x (List.mem_cons_of_mem a hx)
    rw [List.flatten_cons] at hstream
    constructor
    · rintro ⟨-, hall⟩
      refine ⟨hfull, a, as, rfl, ?_⟩
      by_contra hshort
      exact not_arrived_of_short hlen (by omega) (by omega) hall
    · rintro ⟨-, a', as', he, hlong⟩
      obtain ⟨rfl, rfl⟩ := List.cons.inj he
      refine ⟨by omega, fun p hp hbuf => ?_⟩
      rcases List.append_eq_append_iff.mp hstream with ⟨a', ha₁, -⟩ | ⟨written, ha₁, hfile⟩
      · have := congrArg List.length ha₁
        rw [List.length_append, hinfo] at this
        omega
      · have hne : written ≠ [] := by
          rintro rfl
          rw [ha₁, List.append_nil, hinfo] at hlong
          omega
        obtain ⟨p₁, hread, hstep⟩ := Read_cb_first hp hbuf hopen hsize ha₁ ha' hne hfile
        obtain ⟨p', hrest, hinit, hfin⟩ := @receives_rest fopen_s _ _ hsize as written p₁ hlen'
          hfile hstep
        refine ⟨p', ?_, hinit, hfin⟩
        rw [receives, List.nil_append, hread, Option.bind_some]
        exact hrest
  · refine iff_of_false ?_ fun h => hfull h.1
    rintro ⟨hcount, -⟩
    have hlt := int_lt (event_cb file) 260
    rw [← hcount, length_event_cb hsize, if_neg hfull] at hlt
    omega

/-- A file that is sent in three blocks. -/
def picture : Bytes := List.replicate 12000 7

/-- What is sent for it, in three arrivals that are cut elsewhere. -/
def pieces : List Bytes :=
  [(event_cb picture).take 3000, ((event_cb picture).drop 3000).take 4906,
    (event_cb picture).drop 7906]

/-- It arrives. -/
theorem arrives_intact_iff_pieces :
    (event_cb picture).length = int (event_cb picture) 260 ∧
      ∀ p : Client_Item, p.Initial → p.in_buf.length = BufferLen →
        ∃ p', receives (fun _ => true) p [] pieces = some (p', []) ∧ p'.Initial ∧
          p'.finished = p.finished ++ [some (asc "test.png", picture)] := by
  have hpicture : picture.length = 12000 := List.length_replicate
  have hsize : picture.length + sizeofInfo < 2 ^ 31 := by
    rw [hpicture]
    decide
  have hstream : (event_cb picture).length = 12264 := by
    rw [length_event_cb hsize, hpicture, if_pos (by decide)]
    rfl
  have hlen : ∀ a ∈ pieces, 1 ≤ a.length ∧ a.length ≤ BufferLen := by
    have hbuf : BufferLen = 4906 := rfl
    intro a ha
    simp only [pieces, List.mem_cons, List.not_mem_nil, or_false] at ha
    rcases ha with h | h | h
    · rw [h, List.length_take, hstream, hbuf]
      decide
    · rw [h, List.length_take, List.length_drop, hstream, hbuf]
      decide
    · rw [h, List.length_drop, hstream, hbuf]
      decide
  have hwhole : pieces.flatten = event_cb picture := by
    have hdrop : (event_cb picture).drop 7906 = ((event_cb picture).drop 3000).drop 4906 := by
      rw [List.drop_drop]
    rw [pieces, List.flatten_cons, List.flatten_cons, List.flatten_singleton, hdrop,
      List.take_append_drop, List.take_append_drop]
  refine (arrives_intact_iff (fun _ => true) picture pieces rfl hsize hlen hwhole).mpr
    ⟨by rw [hpicture]; decide, _, _, rfl, ?_⟩
  rw [List.length_take, hstream]
  decide

/-- The smallest file that fills the first block. -/
def smallest : Bytes := List.replicate 4642 7

theorem length_smallest : smallest.length = 4642 := List.length_replicate

theorem event_cb_smallest :
    event_cb smallest = pictureInfo (asc "test.png") (smallest.length + sizeofInfo) ++ smallest :=
  event_cb_eq (by rw [length_smallest]; decide) (by rw [length_smallest])

/-- That file, with the header in an arrival of its own: the server takes the
nothing behind it for a failed write and drops the transfer. -/
theorem header_alone :
    ¬ ∀ (fopen_s : Bytes → Bool) (file : Bytes) (arrivals : List Bytes),
      fopen_s (asc "test.png") = true → file.length + sizeofInfo < 2 ^ 31 →
      (∀ a ∈ arrivals, 1 ≤ a.length ∧ a.length ≤ BufferLen) → arrivals.flatten = event_cb file →
      (event_cb file).length = int (event_cb file) 260 ∧
        ∀ p : Client_Item, p.Initial → p.in_buf.length = BufferLen →
          ∃ p', receives fopen_s p [] arrivals = some (p', []) ∧ p'.Initial ∧
            p'.finished = p.finished ++ [some (asc "test.png", file)] := by
  intro hall
  have hinfo := length_pictureInfo (smallest.length + sizeofInfo)
  have hlen : ∀ a ∈ [pictureInfo (asc "test.png") (smallest.length + sizeofInfo), smallest],
      1 ≤ a.length ∧ a.length ≤ BufferLen := by
    intro a ha
    rcases List.mem_cons.mp ha with rfl | ha
    · rw [hinfo]
      decide
    · rw [List.mem_singleton.mp ha, length_smallest]
      decide
  have hshort : (pictureInfo (asc "test.png") (smallest.length + sizeofInfo)).length ≤ sizeofInfo := by
    rw [hinfo]
  refine not_arrived_of_short hlen ?_ hshort (hall (fun _ => true) smallest _ rfl
    (by rw [length_smallest]; decide) hlen (by rw [event_cb_smallest]; simp)).2
  rw [List.flatten_cons, List.flatten_singleton, List.length_append, hinfo, length_smallest]
  decide

end Boxing.Libevent
