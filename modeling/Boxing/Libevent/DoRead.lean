import Mathlib.Data.List.Forall2
import Boxing.C.Num

/-!
# The packets of the TCP server

Every packet begins with a `Head`: a mark, the length of the packet and the number
of the function it is for.  libevent calls `DoRead` whenever bytes have arrived.
`DoRead` moves them into the connection's `in_buf`, and then takes complete
packets from the start of `in_buf`, calls their handlers and moves the rest of the
buffer down; an incomplete packet waits for the next call.

The bytes are moved to the *start* of `in_buf`, whatever waits there.  A packet
that comes in two arrivals is overwritten by its own second part, and when the
two together are more than the buffer holds, the loop that empties the input ends
in taking nothing at a time.  `handlers_invoked_once` is about arrivals that bring
whole packets, and there it says what the server is for: each handler is called
once, in order, and finds its packet at the start of `in_buf`.
-/

namespace Boxing.Libevent

open C

/-- `emStx`. -/
def emStx : Int := 860805

/-- `emMaxBuffLen`. -/
def emMaxBuffLen : Nat := 4096

/-- `sizeof(Head)`. -/
def sizeofHead : Nat := 8

/-- `emFunClosed`. -/
def emFunClosed : Int := 0

/-- `emFunBase`. -/
def emFunBase : Int := 1000

/-- `emFunLogin`. -/
def emFunLogin : Int := 1001

/-- `emFunLogout`. -/
def emFunLogout : Int := 1002

/-- `emFunReturClose`. -/
def emFunReturClose : Int := 1

/-- `emFunReturnSend`. -/
def emFunReturnSend : Int := 2

/-! ### The header -/

structure Head where
  stx : Int
  pkglen : Int
  nFunID : Int
deriving DecidableEq, Repr

/-- `(Head*)in_buf`. -/
def head (in_buf : Bytes) : Head := ⟨int in_buf 0, short in_buf 4, short in_buf 6⟩

/-! ### Connections and handlers -/

/-- What a handler writes: `out_buf` and `out_buf_len`. -/
structure Out where
  out_buf : Bytes
  out_buf_len : Int
deriving Repr

/-- A handler reads `in_buf`, writes its answer and returns what to do with it. -/
abbrev lpFunPtr := Bytes → Out → Out × Int

/-- A connection, with the handlers called on it so far and what they found in
`in_buf`, and what has been handed to libevent to be sent. -/
structure Conn where
  in_buf : Bytes
  in_buf_len : Nat
  out : Out
  calls : List (Int × Bytes)
  sent : Bytes
  closed : Bool
deriving Repr

section Server

variable (m_FunPtrList : Int → Option lpFunPtr)

/-- `DispatchFunction(nFunID, pItem)` with a connection. -/
def DispatchFunction (nFunID : Int) (pItem : Conn) : Conn × Int :=
  match m_FunPtrList nFunID with
  | none => (pItem, 0)
  | some f =>
    ({ pItem with
        out := (f pItem.in_buf pItem.out).1
        calls := pItem.calls ++ [(nFunID, pItem.in_buf)] }, (f pItem.in_buf pItem.out).2)

/-- `CloseConn(c)`. -/
def CloseConn (pConn : Conn) : Conn :=
  { (DispatchFunction m_FunPtrList emFunClosed { pConn with in_buf_len := 0 }).1 with closed := true }

/-- `evbuffer_add(output, out_buf, out_buf_len)`; `none` when that is more than
`out_buf` has. -/
def evbuffer_add (c : Conn) : Option Conn :=
  if 0 ≤ c.out.out_buf_len ∧ c.out.out_buf_len ≤ c.out.out_buf.length then
    some { c with sent := c.sent ++ c.out.out_buf.take c.out.out_buf_len.toNat }
  else none

/-- `while (evbuffer_get_length(input)) c->in_buf_len += evbuffer_remove(...)`;
`none` when it never ends. -/
def drain (c : Conn) (input : Bytes) : Option Conn :=
  if input = [] then some c
  else
    let n := min (emMaxBuffLen - c.in_buf_len) input.length
    if n = 0 then none -- there is no room left, and nothing is taken any more
    else
      match store c.in_buf 0 (input.take n) with
      | none => none
      | some buf => drain { c with in_buf := buf, in_buf_len := c.in_buf_len + n } (input.drop n)
termination_by input.length
decreasing_by
  rw [List.length_drop]
  omega

/-- Behind a packet of `pkglen` bytes: the rest of the buffer moves down, if there is
a rest. -/
def advance (c : Conn) (pkglen : Nat) : Option (Conn × Bool) :=
  let len := c.in_buf_len - pkglen
  if len = 0 then some ({ c with in_buf_len := 0 }, false)
  else
    (store c.in_buf 0 ((c.in_buf.drop pkglen).take len)).map fun buf =>
      ({ c with in_buf := buf, in_buf_len := len }, true)

/-- The body of `while(true)`: the connection afterwards, and whether to go round
again. -/
def turn (c : Conn) : Option (Conn × Bool) :=
  let h := head c.in_buf
  if c.in_buf_len < sizeofHead then some (c, false)
  -- a negative `pkglen` is a large one in these comparisons
  else if h.pkglen < 0 ∨ h.pkglen > (emMaxBuffLen - sizeofHead : Nat) ∨ h.pkglen < sizeofHead
      ∨ h.stx ≠ emStx then some (CloseConn m_FunPtrList c, false)
  else if c.in_buf_len < h.pkglen then some (c, false)
  else if h.nFunID > emFunBase ∧ (m_FunPtrList h.nFunID).isSome then
    let r := DispatchFunction m_FunPtrList h.nFunID c
    if r.2 = emFunReturClose then some (CloseConn m_FunPtrList r.1, false)
    else
      (if r.2 = emFunReturnSend then evbuffer_add r.1 else some r.1).bind fun c' =>
        advance c' h.pkglen.toNat
  else some (CloseConn m_FunPtrList c, false)

theorem in_buf_len_DispatchFunction (nFunID : Int) (c : Conn) :
    (DispatchFunction m_FunPtrList nFunID c).1.in_buf_len = c.in_buf_len := by
  rw [DispatchFunction]
  split <;> rfl

theorem in_buf_len_evbuffer_add {c c' : Conn} (h : evbuffer_add c = some c') :
    c'.in_buf_len = c.in_buf_len := by
  rw [evbuffer_add] at h
  split at h
  · rw [← Option.some.inj h]
  · cases h

theorem in_buf_len_advance {c c' : Conn} {k : Nat} (h : advance c k = some (c', true)) :
    c'.in_buf_len = c.in_buf_len - k ∧ c.in_buf_len - k ≠ 0 := by
  unfold advance at h
  dsimp only at h
  split at h
  · simp at h
  · rename_i hlen
    obtain ⟨buf, -, he⟩ := Option.map_eq_some_iff.mp h
    obtain ⟨rfl, -⟩ := Prod.mk.inj he
    exact ⟨rfl, hlen⟩

/-- Going round again takes a packet from the buffer. -/
theorem turn_lt {c c' : Conn} (h : turn m_FunPtrList c = some (c', true)) :
    c'.in_buf_len < c.in_buf_len := by
  unfold turn at h
  dsimp only at h
  split at h
  · simp at h
  split at h
  · simp at h
  rename_i hlen hform
  split at h
  · simp at h
  split at h
  · split at h
    · simp at h
    · obtain ⟨c₁, h₁, h₂⟩ := Option.bind_eq_some_iff.mp h
      have hkeep : c₁.in_buf_len = c.in_buf_len := by
        split at h₁
        · rw [in_buf_len_evbuffer_add h₁, in_buf_len_DispatchFunction]
        · rw [← Option.some.inj h₁, in_buf_len_DispatchFunction]
      obtain ⟨he, hne⟩ := in_buf_len_advance h₂
      have hpkg : ¬ (head c.in_buf).pkglen < sizeofHead := fun hlt => hform (Or.inr (Or.inr (Or.inl hlt)))
      clear hform
      unfold sizeofHead at hpkg hlen
      omega
  · simp at h

/-- `while(true)`. -/
def packets_loop (c : Conn) : Option Conn :=
  match _h : turn m_FunPtrList c with
  | none => none
  | some (c', false) => some c'
  | some (c', true) => packets_loop c'
termination_by c.in_buf_len
decreasing_by exact turn_lt m_FunPtrList _h

/-- `DoRead` with `input` waiting; `none` when it does not return, or leaves a
buffer.  Nothing arrives on a closed connection. -/
def DoRead (c : Conn) (input : Bytes) : Option Conn :=
  if c.closed = true ∨ input = [] then some c
  else (drain c input).bind (packets_loop m_FunPtrList)

/-- The calls of `DoRead` for a sequence of arrivals. -/
def DoReads (c : Conn) (arrivals : List Bytes) : Option Conn :=
  arrivals.foldlM (DoRead m_FunPtrList) c

end Server

/-! ### Packets -/

/-- A packet `DoRead` takes: the right mark, its own length, and a function above
`emFunBase`. -/
structure Packet where
  bytes : Bytes
  stx_eq : (head bytes).stx = emStx
  pkglen_eq : (head bytes).pkglen = bytes.length
  sizeof_le : sizeofHead ≤ bytes.length
  length_le : bytes.length ≤ emMaxBuffLen - sizeofHead
  base_lt : emFunBase < (head bytes).nFunID

/-- The function a packet is for. -/
def Packet.id (p : Packet) : Int := (head p.bytes).nFunID

/-- The header is in the first eight bytes. -/
theorem head_append {s : Bytes} (h : sizeofHead ≤ s.length) (t : Bytes) : head (s ++ t) = head s := by
  unfold sizeofHead at h
  unfold head
  rw [int_append (by omega), short_append (by omega), short_append (by omega)]

/-- A call is the handler's of `p`, with `p` at the start of `in_buf`. -/
def Invoked (p : Packet) (call : Int × Bytes) : Prop := call.1 = p.id ∧ p.bytes <+: call.2

theorem invoked_self {p : Packet} {in_buf : Bytes} (h : p.bytes <+: in_buf) :
    Invoked p (p.id, in_buf) := by
  unfold Invoked
  dsimp only
  exact ⟨rfl, h⟩

section Run

variable {m_FunPtrList : Int → Option lpFunPtr}

/-- Every packet has a handler, which does not close the connection and has written
no more than `out_buf` holds when it asks for its answer to be sent. -/
def Answered (m_FunPtrList : Int → Option lpFunPtr) : Out → List Packet → Prop
  | _, [] => True
  | out, p :: ps => ∃ f, m_FunPtrList p.id = some f ∧ ∀ in_buf, p.bytes <+: in_buf →
      (f in_buf out).2 ≠ emFunReturClose ∧
      ((f in_buf out).2 = emFunReturnSend →
        0 ≤ (f in_buf out).1.out_buf_len ∧
          (f in_buf out).1.out_buf_len ≤ (f in_buf out).1.out_buf.length) ∧
      Answered m_FunPtrList (f in_buf out).1 ps

/-- `in_buf` after the bytes `s` have been moved to its start. -/
def Conn.received (c : Conn) (s : Bytes) : Conn :=
  { c with in_buf := s ++ c.in_buf.drop s.length, in_buf_len := c.in_buf_len + s.length }

theorem drain_nil (c : Conn) : drain c [] = some c := by rw [drain, if_pos rfl]

/-- What fits is moved in one go, to the start of the buffer. -/
theorem drain_one {c : Conn} {input : Bytes} (hbuf : c.in_buf.length = emMaxBuffLen)
    (hne : input ≠ []) (hfit : c.in_buf_len + input.length ≤ emMaxBuffLen) :
    drain c input = some (c.received input) := by
  have hpos := List.length_pos_iff.mpr hne
  have hmin : min (emMaxBuffLen - c.in_buf_len) input.length = input.length := by omega
  have hstore := @store_zero c.in_buf input (by omega)
  rw [drain, if_neg hne]
  simp only [hmin]
  rw [if_neg (by omega), List.take_of_length_le (le_refl _), hstore, List.drop_of_length_le (le_refl _)]
  exact drain_nil _

/-- Without room for all of it the input is never emptied: when the buffer is full
`evbuffer_remove` takes nothing, for ever. -/
theorem drain_eq_none_iff {c : Conn} {input : Bytes} (hbuf : c.in_buf.length = emMaxBuffLen)
    (hlen : c.in_buf_len ≤ emMaxBuffLen) :
    drain c input = none ↔ input ≠ [] ∧ emMaxBuffLen < c.in_buf_len + input.length := by
  have hfull : ∀ (c' : Conn) (rest : Bytes), c'.in_buf_len = emMaxBuffLen → rest ≠ [] →
      drain c' rest = none := by
    intro c' rest h hne
    rw [drain, if_neg hne]
    simp only [h, Nat.sub_self, Nat.zero_min, if_true]
  constructor
  · intro h
    by_cases hne : input = []
    · rw [hne, drain_nil] at h
      cases h
    · refine ⟨hne, ?_⟩
      by_contra hfit
      rw [drain_one hbuf hne (by omega)] at h
      cases h
  · rintro ⟨hne, hover⟩
    rcases Nat.eq_or_lt_of_le hlen with he | hroom
    · exact hfull c input he hne
    · have hmin : min (emMaxBuffLen - c.in_buf_len) input.length = emMaxBuffLen - c.in_buf_len := by
        omega
      rw [drain, if_neg hne]
      simp only [hmin]
      rw [if_neg (by omega)]
      split
      · rfl
      · refine hfull _ _ (by dsimp only; omega) ?_
        rw [ne_eq, List.drop_eq_nil_iff]
        omega

/-- A connection at the start of a packet: its `in_buf` holds `s`. -/
structure Conn.Holds (c : Conn) (s : Bytes) : Prop where
  length : c.in_buf.length = emMaxBuffLen
  buf : s <+: c.in_buf
  len : c.in_buf_len = s.length

theorem Conn.Holds.received {c : Conn} {s : Bytes} (h : c.Holds []) (hs : s.length ≤ emMaxBuffLen) :
    (c.received s).Holds s where
  length := by
    show (s ++ c.in_buf.drop s.length).length = emMaxBuffLen
    rw [List.length_append, List.length_drop, h.length]
    omega
  buf := List.prefix_append _ _
  len := by
    show c.in_buf_len + s.length = s.length
    rw [h.len, List.length_nil, Nat.zero_add]

/-- Behind a packet `s` the buffer holds what followed it. -/
theorem advance_holds {c : Conn} {s rest : Bytes} (h : c.Holds (s ++ rest)) :
    ∃ c', advance c s.length = some (c', decide (rest ≠ [])) ∧ c'.Holds rest ∧ c'.out = c.out ∧
      c'.closed = c.closed ∧ c'.calls = c.calls := by
  obtain ⟨t, ht⟩ := h.buf
  have hlen : c.in_buf_len - s.length = rest.length := by
    rw [h.len, List.length_append]
    omega
  have hcap : s.length + rest.length ≤ c.in_buf.length := by
    rw [← List.length_append]
    exact h.buf.length_le
  unfold advance
  dsimp only
  rw [hlen]
  by_cases hrest : rest = []
  · subst hrest
    rw [List.length_nil, if_pos rfl]
    exact ⟨_, rfl, ⟨h.length, List.nil_prefix, rfl⟩, rfl, rfl, rfl⟩
  · have hmove : (c.in_buf.drop s.length).take rest.length = rest := by
      rw [← ht, List.append_assoc, List.drop_left, List.take_left]
    rw [if_neg (by simpa using hrest), hmove, store_zero (by omega), Option.map_some,
      decide_eq_true hrest]
    refine ⟨_, rfl, ⟨?_, List.prefix_append _ _, rfl⟩, rfl, rfl, rfl⟩
    rw [List.length_append, List.length_drop, ← h.length]
    omega

/-- **One packet.**  Its handler is called on it, and the buffer moves on by it. -/
theorem turn_packet {c : Conn} {p : Packet} {ps : List Packet} {rest : Bytes}
    (h : c.Holds (p.bytes ++ rest)) (hans : Answered m_FunPtrList c.out (p :: ps)) :
    ∃ c', turn m_FunPtrList c = some (c', decide (rest ≠ [])) ∧ c'.Holds rest ∧
      Answered m_FunPtrList c'.out ps ∧ c'.closed = c.closed ∧
      c'.calls = c.calls ++ [(p.id, c.in_buf)] := by
  obtain ⟨t, ht⟩ := h.buf
  have hhead : head c.in_buf = head p.bytes := by
    rw [← ht, List.append_assoc, head_append p.sizeof_le]
  have hpre : p.bytes <+: c.in_buf := (List.prefix_append p.bytes rest).trans h.buf
  have hlen : c.in_buf_len = p.bytes.length + rest.length := by rw [h.len, List.length_append]
  obtain ⟨f, hf, hret⟩ := hans
  obtain ⟨hclose, hsend, hrest⟩ := hret c.in_buf hpre
  have hle := p.sizeof_le
  have hle' := p.length_le
  have hdisp : DispatchFunction m_FunPtrList p.id c
      = ({ c with out := (f c.in_buf c.out).1, calls := c.calls ++ [(p.id, c.in_buf)] },
        (f c.in_buf c.out).2) := by rw [DispatchFunction, hf]
  have hsome : (m_FunPtrList p.id).isSome = true := by rw [hf]; rfl
  have hid : (head p.bytes).nFunID = p.id := rfl
  -- the answer is sent, if there is one
  obtain ⟨c₁, hadd, hbuf, hlen₁, hout, hclosed, hcalls⟩ : ∃ c₁,
      (if (f c.in_buf c.out).2 = emFunReturnSend then
          evbuffer_add (DispatchFunction m_FunPtrList p.id c).1
        else some (DispatchFunction m_FunPtrList p.id c).1) = some c₁ ∧
      c₁.in_buf = c.in_buf ∧ c₁.in_buf_len = c.in_buf_len ∧ c₁.out = (f c.in_buf c.out).1 ∧
      c₁.closed = c.closed ∧ c₁.calls = c.calls ++ [(p.id, c.in_buf)] := by
    rw [hdisp]
    split
    · rename_i hs
      rw [evbuffer_add, if_pos (hsend hs)]
      exact ⟨_, rfl, rfl, rfl, rfl, rfl, rfl⟩
    · exact ⟨_, rfl, rfl, rfl, rfl, rfl, rfl⟩
  have hholds : c₁.Holds (p.bytes ++ rest) :=
    ⟨hbuf ▸ h.length, hbuf ▸ h.buf, hlen₁ ▸ h.len⟩
  obtain ⟨c', hadv, hholds', hout', hclosed', hcalls'⟩ := advance_holds hholds
  refine ⟨c', ?_, hholds', by rw [hout', hout]; exact hrest, hclosed'.trans hclosed,
    hcalls'.trans hcalls⟩
  unfold turn
  rw [hhead]
  dsimp only
  rw [hid, p.pkglen_eq, p.stx_eq, if_neg (by omega), if_neg (by omega), if_neg (by omega),
    if_pos ⟨p.base_lt, hsome⟩, congrArg Prod.snd hdisp, if_neg hclose, hadd, Option.bind_some]
  exact hadv

theorem packets_loop_eq (c : Conn) : packets_loop m_FunPtrList c
    = (turn m_FunPtrList c).bind fun r =>
        if r.2 = true then packets_loop m_FunPtrList r.1 else some r.1 := by
  rw [packets_loop]
  split
  · rename_i h
    rw [h]
    rfl
  · rename_i h
    rw [h]
    rfl
  · rename_i h
    rw [h]
    rfl

/-- A call that finds no complete packet only takes the bytes in. -/
theorem packets_loop_stop {c c' : Conn} (h : turn m_FunPtrList c = some (c', false)) :
    packets_loop m_FunPtrList c = some c' := by
  rw [packets_loop_eq, h]
  rfl

theorem Packet.bytes_ne_nil (p : Packet) : p.bytes ≠ [] := by
  have h := p.sizeof_le
  unfold sizeofHead at h
  exact List.length_pos_iff.mp (by omega)

/-- Between `c` and `c'` the handlers of `ps` have been called, and those of `qs` can
follow. -/
structure Served (m_FunPtrList : Int → Option lpFunPtr) (c c' : Conn) (ps qs : List Packet) :
    Prop where
  answered : Answered m_FunPtrList c'.out qs
  closed : c'.closed = c.closed
  calls : ∃ calls, c'.calls = c.calls ++ calls ∧ List.Forall₂ Invoked ps calls

theorem Served.trans {c c' c'' : Conn} {ps ps' qs qs' : List Packet}
    (h : Served m_FunPtrList c c' ps qs) (h' : Served m_FunPtrList c' c'' ps' qs') :
    Served m_FunPtrList c c'' (ps ++ ps') qs' := by
  obtain ⟨calls, hcalls, hinv⟩ := h.calls
  obtain ⟨calls', hcalls', hinv'⟩ := h'.calls
  exact ⟨h'.answered, h'.closed.trans h.closed, calls ++ calls',
    by rw [hcalls', hcalls, List.append_assoc], List.rel_append hinv hinv'⟩

theorem Served.refl {c : Conn} {qs : List Packet} (h : Answered m_FunPtrList c.out qs) :
    Served m_FunPtrList c c [] qs :=
  ⟨h, rfl, [], (List.append_nil _).symm, .nil⟩

/-- **The packets in the buffer.**  They are taken one by one until it is empty. -/
theorem loop_packets {qs : List Packet} : ∀ (ps : List Packet) (c : Conn),
    c.Holds (ps.flatMap Packet.bytes) → Answered m_FunPtrList c.out (ps ++ qs) →
    ∃ c', packets_loop m_FunPtrList c = some c' ∧ c'.Holds [] ∧
      Served m_FunPtrList c c' ps qs := by
  intro ps
  induction ps with
  | nil =>
    intro c h hans
    rw [List.flatMap_nil] at h
    have hlen : c.in_buf_len < sizeofHead := by
      rw [h.len]
      decide
    refine ⟨c, ?_, h, Served.refl hans⟩
    rw [packets_loop_eq, turn, if_pos hlen]
    rfl
  | cons p ps ih =>
    intro c h hans
    rw [List.flatMap_cons] at h
    obtain ⟨c₁, hturn, hholds, hans₁, hclosed, hcalls⟩ := turn_packet h hans
    have hpre : p.bytes <+: c.in_buf :=
      (List.prefix_append p.bytes (ps.flatMap Packet.bytes)).trans h.buf
    have hinv : Invoked p (p.id, c.in_buf) := invoked_self hpre
    have hserved : Served m_FunPtrList c c₁ [p] (ps ++ qs) :=
      ⟨hans₁, hclosed, [(p.id, c.in_buf)], hcalls, .cons hinv .nil⟩
    rw [packets_loop_eq, hturn, Option.bind_some]
    by_cases hrest : ps.flatMap Packet.bytes = []
    · -- it was the last packet
      have hps : ps = [] := by
        cases ps with
        | nil => rfl
        | cons p' ps => exact absurd (List.append_eq_nil_iff.mp hrest).1 p'.bytes_ne_nil
      subst hps
      rw [List.flatMap_nil] at hholds ⊢
      exact ⟨c₁, rfl, hholds, hserved⟩
    · obtain ⟨c', hloop, hholds', hserved'⟩ := ih c₁ hholds hans₁
      refine ⟨c', ?_, hholds', hserved.trans hserved'⟩
      rw [if_pos (decide_eq_true hrest)]
      exact hloop

/-- **One arrival of whole packets.** -/
theorem DoRead_packets {c : Conn} {ps qs : List Packet} (h : c.Holds []) (hopen : c.closed = false)
    (hlen : (ps.flatMap Packet.bytes).length ≤ emMaxBuffLen)
    (hans : Answered m_FunPtrList c.out (ps ++ qs)) :
    ∃ c', DoRead m_FunPtrList c (ps.flatMap Packet.bytes) = some c' ∧ c'.Holds [] ∧
      Served m_FunPtrList c c' ps qs := by
  have hlen0 : c.in_buf_len = 0 := h.len
  by_cases hne : ps.flatMap Packet.bytes = []
  · have hps : ps = [] := by
      cases ps with
      | nil => rfl
      | cons p ps => exact absurd (List.append_eq_nil_iff.mp hne).1 p.bytes_ne_nil
    subst hps
    exact ⟨c, if_pos (Or.inr rfl), h, Served.refl hans⟩
  · have hdrain := drain_one h.length hne (by rw [hlen0, Nat.zero_add]; exact hlen)
    rw [DoRead, if_neg (by rw [not_or, hopen]; exact ⟨by decide, hne⟩), hdrain, Option.bind_some]
    obtain ⟨c', hloop, hholds, hserved⟩ := loop_packets ps _ (h.received hlen) hans
    exact ⟨c', hloop, hholds, hserved.answered, hserved.closed, hserved.calls⟩

/-- **Whole packets in every arrival.** -/
theorem DoReads_packets : ∀ (groups : List (List Packet)) (c : Conn), c.Holds [] →
    c.closed = false → (∀ ps ∈ groups, (ps.flatMap Packet.bytes).length ≤ emMaxBuffLen) →
    Answered m_FunPtrList c.out groups.flatten →
    ∃ c', DoReads m_FunPtrList c (groups.map fun ps => ps.flatMap Packet.bytes) = some c' ∧
      Served m_FunPtrList c c' groups.flatten [] := by
  intro groups
  induction groups with
  | nil => exact fun c _ _ _ hans => ⟨c, rfl, Served.refl hans⟩
  | cons ps groups ih =>
    intro c h hopen hlen hans
    rw [List.flatten_cons] at hans ⊢
    obtain ⟨c₁, hread, hholds, hserved⟩ := DoRead_packets h hopen (hlen ps (by simp)) hans
    obtain ⟨c', hreads, hserved'⟩ := ih c₁ hholds (hserved.closed.trans hopen)
      (fun x hx => hlen x (List.mem_cons_of_mem ps hx)) hserved.answered
    refine ⟨c', ?_, hserved.trans hserved'⟩
    rw [DoReads, List.map_cons, List.foldlM_cons, hread]
    exact hreads

end Run

/-- The arrivals bring whole packets: none begins inside one. -/
def WholePackets (packets : List Packet) (arrivals : List Bytes) : Prop :=
  ∃ groups : List (List Packet), groups.flatten = packets ∧
    arrivals = groups.map fun ps => ps.flatMap Packet.bytes

/-- **Framing.**  When no arrival begins inside a packet, the handlers are called
once for each packet, in order, with the packet at the start of `in_buf`. -/
theorem handlers_invoked_once (m_FunPtrList : Int → Option lpFunPtr) (c : Conn)
    (packets : List Packet) (arrivals : List Bytes) (hnew : c.Holds []) (hopen : c.closed = false)
    (hans : Answered m_FunPtrList c.out packets)
    (hlen : ∀ a ∈ arrivals, a.length ≤ emMaxBuffLen) (hwhole : WholePackets packets arrivals) :
    ∃ c' calls, DoReads m_FunPtrList c arrivals = some c' ∧ c'.closed = false ∧
      c'.calls = c.calls ++ calls ∧ List.Forall₂ Invoked packets calls := by
  obtain ⟨groups, rfl, rfl⟩ := hwhole
  obtain ⟨c', hreads, hserved⟩ := DoReads_packets groups c hnew hopen
    (fun ps hps => hlen _ (List.mem_map_of_mem hps)) hans
  obtain ⟨calls, hcalls, hinv⟩ := hserved.calls
  exact ⟨c', calls, hreads, hserved.closed.trans hopen, hcalls, hinv⟩

/-! ### The handlers of the server -/

/-- `CLibUserFunction::Login`. -/
def Login : lpFunPtr := fun in_buf out =>
  if (head in_buf).pkglen ≠ 10 then (out, emFunReturClose)
  else
    ({ out_buf := in_buf.take 4 ++ [10, 0] ++ (in_buf.drop 6).take 2 ++ [1, 0] ++ out.out_buf.drop 10
       out_buf_len := (out.out_buf_len + 10).bmod (2 ^ 16) }, emFunReturnSend)

/-- `CLibUserFunction::Logout`. -/
def Logout : lpFunPtr := fun _ out => (out, emFunReturClose)

/-- `CLibUserFunction::DisConnect`. -/
def DisConnect : lpFunPtr := fun _ out => (out, 0)

/-- What `LoadFuns` and `StartServer` register. -/
def registered (nFunID : Int) : Option lpFunPtr :=
  if nFunID = emFunLogin then some Login
  else if nFunID = emFunLogout then some Logout
  else if 0 ≤ nFunID ∧ nFunID ≤ 3 then some DisConnect -- `Connect` is the same
  else none

/-- `Login` adds ten bytes to `out_buf_len` each time, which nothing takes back: the
answers fit as long as all of them together do. -/
theorem answered_logins : ∀ (ps : List Packet) (out : Out),
    (∀ p ∈ ps, p.id = emFunLogin ∧ p.bytes.length = 10) → out.out_buf.length = emMaxBuffLen →
    0 ≤ out.out_buf_len → out.out_buf_len + 10 * ps.length ≤ emMaxBuffLen →
    Answered registered out ps := by
  intro ps
  induction ps with
  | nil => intros; trivial
  | cons p ps ih =>
    intro out hps hbuf h0 hfit
    obtain ⟨hid, hlen⟩ := hps p (by simp)
    refine ⟨Login, by rw [hid]; rfl, fun in_buf hpre => ?_⟩
    obtain ⟨t, rfl⟩ := hpre
    have hpkg : (head (p.bytes ++ t)).pkglen = 10 := by
      rw [head_append p.sizeof_le, p.pkglen_eq, hlen]
      rfl
    rw [List.length_cons] at hfit
    unfold emMaxBuffLen at hfit hbuf
    have hbmod : (out.out_buf_len + 10).bmod (2 ^ 16) = out.out_buf_len + 10 :=
      Int.bmod_eq_of_le (by omega) (by omega)
    unfold Login
    rw [if_neg (by rw [hpkg]; decide)]
    dsimp only
    have hbuf' : ((p.bytes ++ t).take 4 ++ [10, 0] ++ ((p.bytes ++ t).drop 6).take 2 ++ [1, 0]
        ++ out.out_buf.drop 10).length = 4096 := by
      simp only [List.length_append, List.length_take, List.length_drop, List.length_cons,
        List.length_nil]
      omega
    rw [hbmod]
    refine ⟨by decide, fun _ => ⟨by omega, by rw [hbuf']; omega⟩, ?_⟩
    exact ih _ (fun q hq => hps q (List.mem_cons_of_mem p hq)) hbuf' (by dsimp only; omega)
      (by dsimp only; unfold emMaxBuffLen; omega)

/-- The request to log in: mark, length 10, function 1001, user 1. -/
def login : Packet where
  bytes := [133, 34, 13, 0, 10, 0, 233, 3, 1, 0]
  stx_eq := by decide
  pkglen_eq := by decide
  sizeof_le := by decide
  length_le := by decide
  base_lt := by decide

/-- A connection nothing has happened on. -/
def accepted : Conn where
  in_buf := List.replicate emMaxBuffLen 0
  in_buf_len := 0
  out := ⟨List.replicate emMaxBuffLen 0, 0⟩
  calls := []
  sent := []
  closed := false

theorem accepted_holds : accepted.Holds [] := ⟨List.length_replicate, List.nil_prefix, rfl⟩

theorem answered_login {ps : List Packet} (h : ∀ p ∈ ps, p = login) (hlen : ps.length ≤ 409) :
    Answered registered accepted.out ps := by
  refine answered_logins ps _ (fun p hp => ?_) List.length_replicate (Int.le_refl 0) ?_
  · rw [h p hp]
    exact ⟨by decide, rfl⟩
  · show (0 : Int) + 10 * ps.length ≤ (4096 : Nat)
    omega

/-- Two requests that arrive together. -/
theorem handlers_invoked_once_login :
    ∃ c' calls, DoReads registered accepted [[login, login].flatMap Packet.bytes] = some c' ∧
      c'.closed = false ∧ c'.calls = accepted.calls ++ calls ∧
      List.Forall₂ Invoked [login, login] calls :=
  handlers_invoked_once registered accepted [login, login] _ accepted_holds rfl
    (answered_login (by simp) (by decide)) (by decide) ⟨[[login, login]], rfl, rfl⟩

/-- A packet whose end is still to come waits. -/
theorem turn_waits (m_FunPtrList : Int → Option lpFunPtr) {c : Conn} {p : Packet} {s : Bytes}
    (h : c.Holds s) (hs : s <+: p.bytes) (h8 : sizeofHead ≤ s.length)
    (hlt : s.length < p.bytes.length) : turn m_FunPtrList c = some (c, false) := by
  obtain ⟨t, ht⟩ := h.buf
  obtain ⟨u, hu⟩ := hs
  have hhead : head c.in_buf = head p.bytes := by rw [← ht, ← hu, head_append h8, head_append h8]
  have hle := p.sizeof_le
  have hle' := p.length_le
  have hlen := h.len
  unfold turn
  rw [hhead]
  dsimp only
  rw [p.pkglen_eq, p.stx_eq, if_neg (by omega), if_neg (by omega), if_pos (by omega)]

/-- A wrong mark closes the connection. -/
theorem turn_closes (m_FunPtrList : Int → Option lpFunPtr) {c : Conn}
    (h8 : sizeofHead ≤ c.in_buf_len) (hstx : (head c.in_buf).stx ≠ emStx) :
    turn m_FunPtrList c = some (CloseConn m_FunPtrList c, false) := by
  unfold turn
  dsimp only
  rw [if_neg (by omega), if_pos (Or.inr (Or.inr (Or.inr hstx)))]

/-- The last byte of a request comes alone, is put over its first, and the server
finds a wrong mark and hangs up. -/
theorem packet_in_two_arrivals :
    ¬ ∀ (m_FunPtrList : Int → Option lpFunPtr) (c : Conn) (packets : List Packet)
      (arrivals : List Bytes), c.Holds [] → c.closed = false →
      Answered m_FunPtrList c.out packets → (∀ a ∈ arrivals, a.length ≤ emMaxBuffLen) →
      arrivals.flatten = packets.flatMap Packet.bytes →
      ∃ c' calls, DoReads m_FunPtrList c arrivals = some c' ∧ c'.closed = false ∧
        c'.calls = c.calls ++ calls ∧ List.Forall₂ Invoked packets calls := by
  intro hall
  obtain ⟨c', calls, hreads, hopen, -⟩ := hall registered accepted [login]
    [[133, 34, 13, 0, 10, 0, 233, 3, 1], [0]] accepted_holds rfl
    (answered_login (by simp) (by decide)) (by decide) rfl
  have hheld := accepted_holds
  have hclosed : accepted.closed = false := rfl
  generalize accepted = c at hreads hheld hclosed
  -- nine bytes are read, and wait for the tenth
  have hlen0 : c.in_buf_len = 0 := hheld.len
  have hheld₁ := hheld.received (s := [133, 34, 13, 0, 10, 0, 233, 3, 1]) (by decide)
  have hread₁ : DoRead registered c [133, 34, 13, 0, 10, 0, 233, 3, 1]
      = some (c.received [133, 34, 13, 0, 10, 0, 233, 3, 1]) := by
    rw [DoRead, if_neg (by rw [hclosed]; decide),
      drain_one hheld.length (by simp) (by rw [hlen0]; decide), Option.bind_some]
    exact packets_loop_stop (turn_waits registered (p := login) hheld₁ ⟨[0], rfl⟩ (by decide) (by decide))
  -- the tenth goes to the place of the first
  have hread₂ : DoRead registered (c.received [133, 34, 13, 0, 10, 0, 233, 3, 1]) [0]
      = some (CloseConn registered ((c.received [133, 34, 13, 0, 10, 0, 233, 3, 1]).received [0])) := by
    rw [DoRead, if_neg (by rw [show (c.received _).closed = c.closed from rfl, hclosed]; decide),
      drain_one hheld₁.length (by simp) (by rw [hheld₁.len]; decide), Option.bind_some]
    refine packets_loop_stop (turn_closes registered ?_ ?_)
    · show sizeofHead ≤ c.in_buf_len + 9 + 1
      rw [hlen0]
      decide
    · have hbuf : ((c.received [133, 34, 13, 0, 10, 0, 233, 3, 1]).received [0]).in_buf
          = [0, 34, 13, 0, 10, 0, 233, 3, 1] ++ c.in_buf.drop 9 := rfl
      rw [hbuf, head_append (by decide)]
      decide
  rw [DoReads, List.foldlM_cons, hread₁] at hreads
  change (DoReads registered (c.received _) [[0]]) = _ at hreads
  rw [DoReads, List.foldlM_cons, hread₂] at hreads
  obtain rfl := Option.some.inj hreads
  exact Bool.noConfusion hopen

end Boxing.Libevent
