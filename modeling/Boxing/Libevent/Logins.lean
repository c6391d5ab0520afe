import Boxing.Device.Trace
import Boxing.Libevent.Returns

/-!
# The answers to the logins

`Login` puts its answer at the start of `out_buf` and adds the length of it to `out_buf_len`,
and `DoRead` sends as many bytes as `out_buf_len` says.  Nothing takes that length back: not
the sending, not the end of the connection, not the next client that is given the object.  So
the first login of a connection object is answered with ten bytes, the second one with twenty,
and from the 410th on with more than `out_buf` has.

A run is the life of a connection object from its construction on, one round of the loops of
`DoRead` at a time.  `one_response_iff` says that a run answers all its logins with one packet
exactly when there is no more than one.
-/

namespace Boxing.Libevent

open C Device

/-! ### The life of a connection object -/

/-- `emFunConnected`, `emFunTimeout`, `emFunError` and `emFunNull`. -/
def emFunConnected : Int := 3
def emFunTimeout : Int := 1
def emFunError : Int := 2
def emFunNull : Int := -1

/-- What happens to a connection object. -/
inductive Happening
  | DoAccept
  | DoRead (input : Bytes)
  | round
  | DoError (error : Nat)

/-- The `id` of `DoError`. -/
def errorId (error : Nat) : Int :=
  if error &&& 0x40 ≠ 0 then emFunTimeout
  else if error &&& 0x10 ≠ 0 then emFunClosed
  else if error &&& 0x20 ≠ 0 then emFunError
  else emFunNull

section Server

variable (m_FunPtrList : Int → Option lpFunPtr)

/-- `CloseConn(pConn, nFunID)`. -/
def CloseConnFor (pConn : Conn) (nFunID : Int) : Conn :=
  { (DispatchFunction m_FunPtrList nFunID { pConn with in_buf_len := 0 }).1 with closed := true }

theorem CloseConn_eq (pConn : Conn) :
    CloseConn m_FunPtrList pConn = CloseConnFor m_FunPtrList pConn emFunClosed := rfl

/-- What `DoAccept` does to the object it has taken from the pool. -/
def accept (pConn : Conn) : Conn :=
  (DispatchFunction m_FunPtrList emFunConnected { pConn with closed := false }).1

/-- An object in the pool is closed; libevent reports what arrives, and the end of the
connection, of one that is not.  It always says why the connection ended: there is no
`m_FunPtrList[emFunNull]`. -/
inductive Lives : Phase → Happening → Phase → Prop
  | accept {c : Conn} (h : c.closed = true) :
      Lives (.returned c) .DoAccept (.returned (accept m_FunPtrList c))
  | arrives {c : Conn} (h : c.closed = false) (input : Bytes) :
      Lives (.returned c) (.DoRead input) (.start c input)
  | round {p q : Phase} (h : ReadStep m_FunPtrList p q) : Lives p .round q
  | error {c : Conn} {error : Nat} (h : c.closed = false) (hid : errorId error ≠ emFunNull) :
      Lives (.returned c) (.DoError error)
        (.returned (CloseConnFor m_FunPtrList c (errorId error)))

end Server

/-- The object. -/
def Phase.conn : Phase → Conn
  | .filling c _ => c
  | .taking c => c
  | .returned c => c

/-- `_Conn()`: the buffers come from `new` and are not initialised. -/
structure Conn.New (c : Conn) : Prop where
  in_buf : c.in_buf.length = emMaxBuffLen
  out_buf : c.out.out_buf.length = emMaxBuffLen
  in_buf_len : c.in_buf_len = 0
  out_buf_len : c.out.out_buf_len = 0
  closed : c.closed = true

/-- `sizeof(Head) + sizeof(Proto_Login_Req)`, and with `Proto_Login_Rsp` the same. -/
def sizeofLogin : Nat := sizeofHead + 2

/-- A login is next: `in_buf` begins with a request to log in, and all of it is there. -/
def Conn.logsIn (c : Conn) : Bool :=
  decide (sizeofLogin ≤ c.in_buf_len ∧ head c.in_buf = ⟨emStx, sizeofLogin, emFunLogin⟩)

/-- The round of `DoRead` that takes a request to log in. -/
def Phase.logsIn : Phase → Bool
  | .taking c => c.logsIn
  | _ => false

theorem Phase.logsIn_filling (c : Conn) (input : Bytes) : (filling c input).logsIn = false := rfl

theorem Phase.logsIn_returned (c : Conn) : (returned c).logsIn = false := rfl

/-- How many requests to log in a run takes. -/
def logins (t : List (Move Phase Happening)) : Nat := t.countP fun m => m.before.logsIn

/-- The request has been answered by one packet, and `out_buf` holds what there is to be sent. -/
structure OneResponse (m : Move Phase Happening) : Prop where
  response : m.before.logsIn = true → ∃ rsp : Bytes, m.after.conn.sent = m.before.conn.sent ++ rsp ∧
    rsp.length = sizeofLogin ∧ (head rsp).pkglen = rsp.length
  out_buf_len : m.after.conn.out.out_buf_len ≤ emMaxBuffLen

theorem logins_cons_of_pos {p q : Phase} {e : Happening} (h : p.logsIn = true)
    (t : List (Move Phase Happening)) : logins (⟨p, e, q⟩ :: t) = logins t + 1 :=
  List.countP_cons_of_pos (p := fun m : Move Phase Happening => m.before.logsIn) h

theorem logins_cons_of_neg {p q : Phase} {e : Happening} (h : p.logsIn = false)
    (t : List (Move Phase Happening)) : logins (⟨p, e, q⟩ :: t) = logins t :=
  List.countP_cons_of_neg (p := fun m : Move Phase Happening => m.before.logsIn)
    (Bool.eq_false_iff.mp h)

theorem logins_append (t t' : List (Move Phase Happening)) :
    logins (t ++ t') = logins t + logins t' := List.countP_append

/-! ### What a round leaves -/

/-- The buffers have their size, and `n` bytes are to be sent. -/
structure Conn.Ready (c : Conn) (n : Nat) : Prop where
  in_buf : c.in_buf.length = emMaxBuffLen
  out_buf : c.out.out_buf.length = emMaxBuffLen
  out_buf_len : c.out.out_buf_len = n

section Runs

variable {c c' : Conn} {b : Bool} {p q : Phase} {e : Happening} {n k : Nat}

theorem advance_keeps (h : advance c k = some (c', b)) :
    c'.in_buf.length = c.in_buf.length ∧ c'.out = c.out ∧ c'.sent = c.sent := by
  unfold advance at h
  dsimp only at h
  split at h
  · obtain ⟨rfl, -⟩ := Prod.mk.inj (Option.some.inj h)
    exact ⟨rfl, rfl, rfl⟩
  · obtain ⟨buf, hbuf, heq⟩ := Option.map_eq_some_iff.mp h
    obtain ⟨rfl, -⟩ := Prod.mk.inj heq
    exact ⟨length_store hbuf, rfl, rfl⟩

/-- What is behind the packet of a handler. -/
theorem advance_called {f : lpFunPtr} {sent : Bytes}
    (h : advance { c.called f with sent := sent } k = some (c', b)) :
    c'.in_buf.length = c.in_buf.length ∧ c'.out = (f c.in_buf c.out).1 ∧ c'.sent = sent :=
  advance_keeps h

/-- The functions for the connection itself do nothing. -/
theorem DispatchFunction_small {nFunID : Int} (h : nFunID ≤ 3) (c : Conn) :
    (DispatchFunction registered nFunID c).1.in_buf = c.in_buf ∧
      (DispatchFunction registered nFunID c).1.out = c.out := by
  have hf : registered nFunID = none ∨ registered nFunID = some DisConnect := by
    unfold registered emFunLogin emFunLogout
    rw [if_neg (by omega), if_neg (by omega)]
    split
    · exact Or.inr rfl
    · exact Or.inl rfl
  unfold DispatchFunction
  rcases hf with hf | hf
  · rw [hf]
    exact ⟨rfl, rfl⟩
  · rw [hf]
    exact ⟨rfl, rfl⟩

theorem Conn.Ready.of_eq (h : c.Ready n) (hin : c'.in_buf.length = c.in_buf.length)
    (hout : c'.out = c.out) : c'.Ready n :=
  ⟨hin.trans h.in_buf, hout ▸ h.out_buf, hout ▸ h.out_buf_len⟩

theorem Conn.Ready.CloseConnFor {nFunID : Int} (h : c.Ready n) (hid : nFunID ≤ 3) :
    (CloseConnFor registered c nFunID).Ready n := by
  obtain ⟨hin, hout⟩ := DispatchFunction_small hid { c with in_buf_len := 0 }
  exact h.of_eq (congrArg List.length hin) hout

/-- Above `emFunBase` there are two functions. -/
theorem registered_eq_some {nFunID : Int} {f : lpFunPtr} (hbase : emFunBase < nFunID)
    (h : registered nFunID = some f) : nFunID = emFunLogin ∧ f = Login ∨ f = Logout := by
  unfold registered at h
  split at h
  · rename_i hid
    exact Or.inl ⟨hid, (Option.some.inj h).symm⟩
  split at h
  · exact Or.inr (Option.some.inj h).symm
  · unfold emFunBase at hbase
    rw [if_neg (by omega)] at h
    cases h

theorem logsIn_iff : c.logsIn = true ↔
    sizeofLogin ≤ c.in_buf_len ∧ head c.in_buf = ⟨emStx, sizeofLogin, emFunLogin⟩ := by
  rw [Conn.logsIn, decide_eq_true_iff]

theorem complete_of_logsIn (h : c.logsIn = true) : c.Complete := by
  obtain ⟨hlen, hhead⟩ := logsIn_iff.mp h
  have hsize : sizeofLogin = 10 := rfl
  refine ⟨by rw [hhead], ?_, ?_, ?_, ?_⟩
  · rw [hhead]
    decide
  · rw [hhead]
    decide
  · rw [hhead]
    exact Int.ofNat_le.mpr hlen
  · rw [hhead]
    decide

/-- **A round that is no login** leaves what is to be sent. -/
theorem turn_other (h : Turn registered c (c', b)) (hl : c.logsIn = false) (hr : c.Ready n) :
    c'.Ready n := by
  have hno : ∀ f, c.Complete → registered (head c.in_buf).nFunID = some f →
      f c.in_buf c.out = (c.out, emFunReturClose) := by
    intro f hc hf
    rcases registered_eq_some hc.base hf with ⟨hid, rfl⟩ | rfl
    · refine if_pos fun hpkglen => ?_
      -- it would be a request to log in
      have hhead : head c.in_buf = ⟨emStx, sizeofLogin, emFunLogin⟩ := by
        rw [← hc.stx, ← hid, show (sizeofLogin : Int) = 10 from rfl, ← hpkglen]
      have hlen := hc.le_in_buf_len
      rw [hhead] at hlen
      exact Bool.noConfusion (hl.symm.trans (logsIn_iff.mpr ⟨Int.ofNat_le.mp hlen, hhead⟩))
    · rfl
  cases round_of_turn h with
  | waits => exact hr
  | closes =>
    rw [CloseConn_eq]
    exact hr.CloseConnFor (by decide)
  | @hangs_up f hc hf hret =>
    have hcalled : (c.called f).Ready n := hr.of_eq rfl (congrArg Prod.fst (hno f hc hf))
    rw [CloseConn_eq]
    exact hcalled.CloseConnFor (by decide)
  | @goes_on f sent r hc hf hret => exact absurd (congrArg Prod.snd (hno f hc hf)) hret

/-- The answer to a login, at the start of `out_buf`. -/
def answer (in_buf : Bytes) : Bytes := in_buf.take 4 ++ [10, 0] ++ (in_buf.drop 6).take 2 ++ [1, 0]

theorem length_answer {in_buf : Bytes} (h : in_buf.length = emMaxBuffLen) :
    (answer in_buf).length = sizeofLogin := by
  have hsize : sizeofLogin = 10 := rfl
  unfold emMaxBuffLen at h
  simp only [answer, List.length_append, List.length_take, List.length_drop, List.length_cons,
    List.length_nil]
  omega

theorem pkglen_answer {in_buf : Bytes} (h : in_buf.length = emMaxBuffLen) :
    (head (answer in_buf)).pkglen = sizeofLogin := by
  have h4 : (in_buf.take 4).length = 4 := by
    unfold emMaxBuffLen at h
    rw [List.length_take]
    omega
  have hshort := short_behind (in_buf.take 4) ((in_buf.drop 6).take 2 ++ [1, 0]) 10 0
  rw [h4] at hshort
  rw [answer, List.append_assoc, List.append_assoc, List.cons_append, List.cons_append,
    List.nil_append]
  simp only [head]
  rw [hshort]
  decide

theorem registered_login : registered emFunLogin = some Login := if_pos rfl

/-- `Login` adds to what is to be sent. -/
theorem Login_eq {in_buf : Bytes} {out : Out} (hpkglen : (head in_buf).pkglen = sizeofLogin)
    (hlen : out.out_buf_len = n) (hfit : n + sizeofLogin ≤ emMaxBuffLen) : Login in_buf out
      = (⟨answer in_buf ++ out.out_buf.drop 10, (n + sizeofLogin : Nat)⟩, emFunReturnSend) := by
  have hsize : sizeofLogin = 10 := rfl
  have hbmod : (out.out_buf_len + 10).bmod (2 ^ 16) = (n + sizeofLogin : Nat) := by
    unfold emMaxBuffLen at hfit
    rw [hlen, Int.bmod_eq_of_le (by omega) (by omega), hsize, Nat.cast_add]
    rfl
  unfold Login
  rw [if_neg (by rw [hpkglen]; decide), hbmod, answer]

/-- **A login.**  Ten bytes more are to be sent, and all of them are. -/
theorem turn_login (h : Turn registered c (c', b)) (hl : c.logsIn = true) (hr : c.Ready n)
    (hfit : n + sizeofLogin ≤ emMaxBuffLen) : c'.Ready (n + sizeofLogin) ∧
      c'.sent = c.sent ++ (answer c.in_buf ++ c.out.out_buf.drop 10).take (n + sizeofLogin) := by
  obtain ⟨-, hhead⟩ := logsIn_iff.mp hl
  have hc := complete_of_logsIn hl
  have hid : registered (head c.in_buf).nFunID = some Login := by rw [hhead, registered_login]
  have hlogin := Login_eq (by rw [hhead]) hr.out_buf_len hfit
  have hout : (answer c.in_buf ++ c.out.out_buf.drop 10).length = emMaxBuffLen := by
    have hsize : sizeofLogin = 10 := rfl
    have hmax : emMaxBuffLen = 4096 := rfl
    rw [List.length_append, length_answer hr.in_buf, List.length_drop, hr.out_buf]
    omega
  cases round_of_turn h with
  | waits hnot => exact absurd hc hnot
  | closes hnot =>
    rcases hnot with hnot | hnone
    · exact absurd hc hnot
    · cases hid.symm.trans hnone
  | @hangs_up f _ hf hret =>
    rw [hid] at hf
    rw [← Option.some.inj hf, hlogin] at hret
    exact absurd hret (show ¬ emFunReturnSend = emFunReturClose by decide)
  | @goes_on f sent r _ hf _ hsent hadvance =>
    obtain ⟨hin, hout', hsent'⟩ := advance_called hadvance
    rw [hid] at hf
    rw [← Option.some.inj hf, hlogin] at hsent hout'
    have hsent := hsent rfl (Int.natCast_nonneg _) (by
      dsimp only
      rw [hout]
      exact Int.ofNat_le.mpr hfit)
    dsimp only at hsent
    rw [Int.toNat_natCast] at hsent
    refine ⟨⟨hin.trans hr.in_buf, ?_, ?_⟩, hsent'.trans hsent⟩
    · rw [hout', hout]
    · rw [hout']

@[simp] theorem Phase.conn_start (c : Conn) (input : Bytes) : (Phase.start c input).conn = c := by
  unfold Phase.start
  split
  · rfl
  · rfl

theorem errorId_le (error : Nat) : errorId error ≤ 3 := by
  unfold errorId
  split
  · decide
  split
  · decide
  split
  · decide
  · decide

/-- **Whatever is no login** leaves what is to be sent: neither the end of a connection nor the
next client takes anything back. -/
theorem lives_other (h : Lives registered p e q) (hl : p.logsIn = false) (hr : p.conn.Ready n) :
    q.conn.Ready n := by
  cases h with
  | @accept c hclosed =>
    have hid : emFunConnected ≤ 3 := by decide
    obtain ⟨hin, hout⟩ := DispatchFunction_small hid { c with closed := false }
    exact hr.of_eq (congrArg List.length hin) hout
  | arrives hopen input =>
    rw [Phase.conn_start]
    exact hr
  | round hstep =>
    cases hstep with
    | remove hne hbuf => exact hr.of_eq (length_store hbuf) rfl
    | filled => exact hr
    | again hturn => exact turn_other hturn hl hr
    | leave hturn => exact turn_other hturn hl hr
  | error hopen hid => exact hr.CloseConnFor (errorId_le _)

theorem lives_login (h : Lives registered p e q) (hl : p.logsIn = true) (hr : p.conn.Ready n)
    (hfit : n + sizeofLogin ≤ emMaxBuffLen) : q.conn.Ready (n + sizeofLogin) ∧
      q.conn.sent = p.conn.sent
        ++ (answer p.conn.in_buf ++ p.conn.out.out_buf.drop 10).take (n + sizeofLogin) := by
  cases h with
  | accept => cases hl
  | arrives => cases hl
  | error => cases hl
  | round hstep =>
    cases hstep with
    | remove => cases hl
    | filled => cases hl
    | again hturn => exact turn_login hturn hl hr hfit
    | leave hturn => exact turn_login hturn hl hr hfit

/-- Only the first login is answered with one packet. -/
theorem one_response_login (h : Lives registered p e q) (hl : p.logsIn = true)
    (hr : p.conn.Ready n) (hfit : n + sizeofLogin ≤ emMaxBuffLen) :
    OneResponse ⟨p, e, q⟩ ↔ n = 0 := by
  obtain ⟨hr', hsent⟩ := lives_login h hl hr hfit
  have hanswer := length_answer hr.in_buf
  constructor
  · intro hone
    obtain ⟨rsp, hrsp, hlen, -⟩ := hone.response hl
    rw [List.append_cancel_left (hrsp.symm.trans hsent), List.length_take, List.length_append,
      hanswer, List.length_drop, hr.out_buf] at hlen
    unfold sizeofLogin sizeofHead emMaxBuffLen at *
    omega
  · rintro rfl
    refine ⟨fun _ => ⟨answer p.conn.in_buf, ?_, hanswer, ?_⟩, ?_⟩
    · rw [hsent, Nat.zero_add, ← hanswer, List.take_left]
    · rw [pkglen_answer hr.in_buf, hanswer]
    · rw [hr'.out_buf_len]
      exact Int.ofNat_le.mpr hfit

/-- **The logins of a run**, with `k` of them before it. -/
theorem one_response_of {t : List (Move Phase Happening)} (h : Trace (Lives registered) p t q)
    (hk : k ≤ 1) (hr : p.conn.Ready (sizeofLogin * k)) :
    (∀ m ∈ t, OneResponse m) ↔ k + logins t ≤ 1 := by
  induction h generalizing k with
  | nil => exact iff_of_true (List.forall_mem_nil _) hk
  | @cons p p' q e t hstep htrace ih =>
    have hfit : sizeofLogin * k + sizeofLogin ≤ emMaxBuffLen := by
      unfold sizeofLogin sizeofHead emMaxBuffLen
      omega
    rw [List.forall_mem_cons]
    by_cases hl : p.logsIn = true
    · have hone := one_response_login hstep hl hr hfit
      have hr' : p'.conn.Ready (sizeofLogin * (k + 1)) := (lives_login hstep hl hr hfit).1
      rw [logins_cons_of_pos hl]
      rcases Nat.eq_zero_or_pos k with rfl | hpos
      · rw [and_iff_right (hone.mpr rfl), Nat.zero_add, Nat.add_comm]
        exact ih (le_refl 1) hr'
      · -- the second login of this object
        have hne : sizeofLogin * k ≠ 0 := Nat.mul_ne_zero (by decide) (Nat.ne_of_gt hpos)
        exact iff_of_false (fun hall => hne (hone.mp hall.1)) (by omega)
    · have hl := Bool.eq_false_iff.mpr hl
      have hr' := lives_other hstep hl hr
      have hone : OneResponse ⟨p, e, p'⟩ := by
        refine ⟨fun hlogs => Bool.noConfusion (hl.symm.trans hlogs), ?_⟩
        rw [hr'.out_buf_len]
        exact Int.ofNat_le.mpr (Nat.le_of_add_right_le hfit)
      rw [and_iff_right hone, logins_cons_of_neg hl]
      exact ih hk hr'

end Runs

theorem Conn.New.ready {c : Conn} (h : c.New) : c.Ready (sizeofLogin * 0) :=
  ⟨h.in_buf, h.out_buf, h.out_buf_len⟩

/-- **The answers of `DoRead`.**  Every login in the life of a connection object is answered by
one packet, and what is to be sent stays within `out_buf`, exactly when there is no more than
one. -/
theorem one_response_iff (c : Conn) (t : List (Move Phase Happening)) (q : Phase) (hnew : c.New)
    (h : Trace (Lives registered) (.returned c) t q) :
    (∀ m ∈ t, OneResponse m) ↔ logins t ≤ 1 := by
  have hiff := one_response_of h (Nat.zero_le 1) hnew.ready
  rwa [Nat.zero_add] at hiff

/-! ### Logins one after the other -/

/-- Bytes arrive, and all of them are moved into `in_buf`. -/
theorem exists_trace_received {c : Conn} {input : Bytes} (h : c.Holds []) (hopen : c.closed = false)
    (hne : input ≠ []) (hlen : input.length ≤ emMaxBuffLen) :
    ∃ t, Trace (Lives registered) (.returned c) t (.taking (c.received input)) ∧ logins t = 0 := by
  have hlen0 : c.in_buf_len = 0 := h.len
  have hstart : Phase.start c input = .filling c input := by
    rw [Phase.start, if_neg]
    rintro (hclosed | hnil)
    · exact Bool.noConfusion (hopen.symm.trans hclosed)
    · exact hne hnil
  have harrives : Lives registered (.returned c) (.DoRead input) (.filling c input) :=
    hstart ▸ .arrives hopen input
  have hremove : Lives registered (.filling c input) .round (.filling (c.received input) []) :=
    .round (step_received h.length hne (by rw [hlen0, Nat.zero_add]; exact hlen))
  have hfilled : Lives registered (.filling (c.received input) []) .round
      (.taking (c.received input)) := .round (.filled _)
  refine ⟨_, .cons harrives (.cons hremove (.single hfilled)), ?_⟩
  rw [logins_cons_of_neg (Phase.logsIn_returned c), logins_cons_of_neg (Phase.logsIn_filling c _),
    logins_cons_of_neg (Phase.logsIn_filling _ [])]
  rfl

theorem logsIn_received {c : Conn} (h : c.Holds []) : (c.received login.bytes).logsIn = true := by
  have hheld : (c.received login.bytes).Holds login.bytes := h.received (by decide)
  refine logsIn_iff.mpr ⟨?_, ?_⟩
  · rw [hheld.len]
    decide
  · obtain ⟨tail, htail⟩ := hheld.buf
    rw [← htail, head_append (by decide)]
    decide

theorem answered_one {c : Conn} {n : Nat} (hr : c.Ready n) (hfit : n + sizeofLogin ≤ emMaxBuffLen) :
    Answered registered c.out [login] := by
  refine answered_logins [login] _ (fun p hp => ?_) hr.out_buf ?_ ?_
  · rw [List.mem_singleton.mp hp]
    exact ⟨by decide, rfl⟩
  · rw [hr.out_buf_len]
    exact Int.natCast_nonneg n
  · rw [hr.out_buf_len]
    exact Int.ofNat_le.mpr hfit

/-- A request that arrives whole is answered, and the object is where it was, with ten bytes
more to be sent. -/
theorem exists_trace_login {c : Conn} {n : Nat} (h : c.Holds []) (hopen : c.closed = false)
    (hr : c.Ready n) (hfit : n + sizeofLogin ≤ emMaxBuffLen) :
    ∃ t c', Trace (Lives registered) (.returned c) t (.returned c') ∧
      logins t = 1 ∧ c'.Holds [] ∧ c'.closed = false ∧ c'.Ready (n + sizeofLogin) := by
  obtain ⟨t, htrace, hlogins⟩ :=
    exists_trace_received h hopen login.bytes_ne_nil (by decide : login.bytes.length ≤ emMaxBuffLen)
  have hheld : (c.received login.bytes).Holds (login.bytes ++ []) := by
    rw [List.append_nil]
    exact h.received (by decide)
  have hready : (c.received login.bytes).Ready n := ⟨hheld.length, hr.out_buf, hr.out_buf_len⟩
  obtain ⟨c', hturn, hheld', -, hclosed, -⟩ := turn_packet hheld (answered_one hready hfit)
  have hlogs := logsIn_received h
  have hleave : Lives registered (.taking (c.received login.bytes)) .round (.returned c') :=
    .round (.leave (Or.inl hturn))
  refine ⟨_, c', htrace.append (.single hleave), ?_, hheld', hclosed.trans hopen,
    (turn_login (Or.inl hturn) hlogs hready hfit).1⟩
  have htakes : (Phase.taking (c.received login.bytes)).logsIn = true := hlogs
  rw [logins_append, hlogins, logins_cons_of_pos htakes]
  rfl

/-- The object a new one becomes for its first client. -/
theorem accept_new {c : Conn} (hnew : c.New) : (accept registered c).Holds [] ∧
    (accept registered c).closed = false ∧ (accept registered c).Ready (sizeofLogin * 0) := by
  obtain ⟨hin, hout⟩ := DispatchFunction_small (by decide : emFunConnected ≤ 3)
    { c with closed := false }
  have hin : (accept registered c).in_buf = c.in_buf := hin
  have hout : (accept registered c).out = c.out := hout
  refine ⟨⟨?_, List.nil_prefix, ?_⟩, ?_, hnew.ready.of_eq (congrArg List.length hin) hout⟩
  · rw [hin, hnew.in_buf]
  · exact (in_buf_len_DispatchFunction registered emFunConnected { c with closed := false }).trans
      hnew.in_buf_len
  · rfl

/-- A new object in the pool. -/
def pooled : Conn := { accepted with closed := true }

theorem pooled_new : pooled.New :=
  ⟨List.length_replicate, List.length_replicate, rfl, rfl, rfl⟩

/-- A client, and its request. -/
theorem exists_trace_first {c : Conn} (hnew : c.New) :
    ∃ t c', Trace (Lives registered) (.returned c) t (.returned c') ∧ logins t = 1 ∧
      c'.Holds [] ∧ c'.closed = false ∧ c'.Ready sizeofLogin := by
  obtain ⟨hheld, hopen, hready⟩ := accept_new hnew
  have haccept := Trace.single (@Lives.accept registered c hnew.closed)
  obtain ⟨t, c', htrace, hlogins, hheld', hopen', hready'⟩ :=
    exists_trace_login hheld hopen hready (by decide)
  refine ⟨_, c', haccept.append htrace, ?_, hheld', hopen', hready'⟩
  rw [logins_append, logins_cons_of_neg (Phase.logsIn_returned c), hlogins]
  rfl

theorem one_response_iff_first : ∃ t q, pooled.New ∧
    Trace (Lives registered) (.returned pooled) t q ∧ logins t = 1 ∧ ((∀ m ∈ t, OneResponse m) ↔ logins t ≤ 1) := by
  obtain ⟨t, c', htrace, hlogins, -, -, -⟩ := exists_trace_first pooled_new
  exact ⟨t, _, pooled_new, htrace, hlogins, one_response_iff pooled t _ pooled_new htrace⟩

/-- The second request of a client is answered with twenty bytes. -/
theorem second_login_twenty : ¬ ∀ (c : Conn) (t : List (Move Phase Happening)) (q : Phase), c.New →
    Trace (Lives registered) (.returned c) t q → ∀ m ∈ t, OneResponse m := by
  intro hall
  obtain ⟨t, c₁, htrace, hlogins, hheld, hopen, hready⟩ := exists_trace_first pooled_new
  obtain ⟨t', c₂, htrace', hlogins', -, -, -⟩ :=
    exists_trace_login hheld hopen hready (by decide)
  have hrun := htrace.append htrace'
  have hone := (one_response_of hrun (Nat.zero_le 1) pooled_new.ready).mp
    (hall pooled _ _ pooled_new hrun)
  rw [logins_append, hlogins, hlogins'] at hone
  omega

end Boxing.Libevent
