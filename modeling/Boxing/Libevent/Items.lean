import Mathlib.Data.List.Nodup
import Boxing.Device.Trace
import Boxing.Libevent.Transfer

/-!
# The clients of a worker

A worker of the picture server makes a `Client_Item` for each connection it is given and keeps
it in `itemlist`.  When the connection ends, `Error_cb` looks for the item in the list by its
descriptor, takes it out and deletes it; `Stop` deletes what is left in the list.

`clearparam` sets the descriptor of an item to zero when a file has arrived, and the connection
goes on.  Of two clients in that state the one that came first is taken out of the list when
the other one ends: the list has then lost a client, and keeps one that is deleted.
`items_exact_iff` says that nothing else can happen to the list.
-/

namespace Boxing.Libevent

open C Device

/-! ### The worker -/

/-- A client: the item, the descriptor of its `bufferevent`, and what waits in that. -/
structure Client where
  item : Client_Item
  socket : Nat
  input : Bytes

/-- `_SUB_THREAD`, with the items there are, by their addresses. -/
structure Sub_Thread where
  heap : Nat → Option Client
  itemlist : List Nat

/-- `PopItem(est)`: the list afterwards; `none` when it reads an item that is deleted. -/
def PopItem (heap : Nat → Option Client) (est : Nat) : List Nat → Option (List Nat)
  | [] => some []
  | it :: rest =>
    match heap it with
    | none => none
    | some c => if c.item.fd = est then some rest else (PopItem heap est rest).map (it :: ·)

/-- `new Client_Item`, and its descriptor.  `f` has no value before there is a file. -/
def Client_Item.new (in_buf : Bytes) (evsock : Nat) : Client_Item where
  fd := evsock
  in_buf := in_buf
  f := none
  szImgName := List.replicate 260 0
  nFileSize := 0
  nReceiveTotal := 0
  finished := []

/-- `nFinished` of `Error_cb`: a timeout, the end of the stream or an error. -/
def nFinished (error : Nat) : Nat :=
  if error &&& 0x40 ≠ 0 then 1
  else if error &&& 0x10 ≠ 0 then 1
  else if error &&& 0x20 ≠ 0 then 1
  else 0

/-- What libevent calls, for the item at an address: `pipe_process` with the new one and what is
in its buffer, `Read_cb` with what has arrived and what `fopen_s` can open, `Error_cb`. -/
inductive Callback
  | pipe_process (p : Nat) (evsock : Nat) (in_buf : Bytes)
  | Read_cb (p : Nat) (fopen_s : Bytes → Bool) (arrived : Bytes)
  | Error_cb (p : Nat) (error : Nat)

/-- What the callback does; `none` when it crashes. -/
def handle (w : Sub_Thread) : Callback → Option Sub_Thread
  | .pipe_process p evsock in_buf =>
    some ⟨Function.update w.heap p (some ⟨.new in_buf evsock, evsock, []⟩), w.itemlist ++ [p]⟩
  | .Read_cb p fopen_s arrived =>
    (w.heap p).bind fun c => (Read_cb fopen_s c.item (c.input ++ arrived)).map fun r =>
      { w with heap := Function.update w.heap p (some { c with item := r.1, input := r.2 }) }
  | .Error_cb p error =>
    (w.heap p).bind fun c =>
      if nFinished error = 1 then
        (PopItem w.heap c.item.fd w.itemlist).map fun itemlist =>
          ⟨Function.update w.heap p none, itemlist⟩
      else some w

/-- What libevent can call: a new item is nowhere else, its descriptor is of no connection that
is open, and the other callbacks are for the items there are. -/
def Possible (w : Sub_Thread) : Callback → Prop
  | .pipe_process p evsock in_buf => w.heap p = none ∧
      (∀ q c, w.heap q = some c → c.socket ≠ evsock) ∧ in_buf.length = BufferLen
  | .Read_cb p _ arrived => w.heap p ≠ none ∧ arrived ≠ []
  | .Error_cb p _ => w.heap p ≠ none

/-- A callback. -/
def Calls (w : Sub_Thread) (cb : Callback) (w' : Sub_Thread) : Prop :=
  Possible w cb ∧ handle w cb = some w'

/-- A worker without clients. -/
def Sub_Thread.start : Sub_Thread := ⟨fun _ => none, []⟩

/-- The loop of `Stop` over a worker's list; `none` when it frees what is deleted. -/
def Stop (heap : Nat → Option Client) : List Nat → Option (Nat → Option Client)
  | [] => some heap
  | it :: rest =>
    match heap it with
    | none => none
    | some _ => Stop (Function.update heap it none) rest

/-- The list holds every item there is once and no other, and `Stop` frees each of them. -/
structure Exact (w : Sub_Thread) : Prop where
  nodup : w.itemlist.Nodup
  mem : ∀ p, p ∈ w.itemlist ↔ w.heap p ≠ none
  stop : Stop w.heap w.itemlist = some fun _ => none

/-- When a client ends whose descriptor has been set to zero, no client before it in the list has
a descriptor of zero. -/
def Unambiguous (w : Sub_Thread) : Callback → Prop
  | .Error_cb p error => nFinished error = 1 → ∀ c, w.heap p = some c → c.item.fd = 0 →
      ∀ before rest, w.itemlist = before ++ p :: rest →
        ∀ q ∈ before, ∀ d, w.heap q = some d → d.item.fd ≠ 0
  | _ => True

/-! ### What a transfer does to an item -/

/-- The descriptor is kept, or set to zero, and no file is finished. -/
structure Kept (p p' : Client_Item) : Prop where
  fd : p'.fd = 0 ∨ p'.fd = p.fd
  finished : p'.finished = p.finished

section Transfer

variable {fopen_s : Bytes → Bool} {p p' p'' : Client_Item} {input rest : Bytes}

theorem Kept.refl (p : Client_Item) : Kept p p := ⟨Or.inr rfl, rfl⟩

theorem Kept.trans (h : Kept p p') (h' : Kept p' p'') : Kept p p'' where
  fd := by
    rcases h'.fd with h0 | hsame
    · exact Or.inl h0
    · rw [hsame]
      exact h.fd
  finished := h'.finished.trans h.finished

theorem kept_bufferevent_read {size n : Nat}
    (h : bufferevent_read p size input = some (p', n, rest)) : Kept p p' := by
  obtain ⟨buf, -, heq⟩ := Option.map_eq_some_iff.mp h
  obtain ⟨rfl, -⟩ := Prod.mk.inj heq
  exact ⟨Or.inr rfl, rfl⟩

theorem kept_write_or_clear {s : Bytes} (h : write_or_clear p s = some p') : Kept p p' := by
  unfold write_or_clear at h
  split at h
  · cases h
  · split at h
    · rw [← Option.some.inj h]
      exact ⟨Or.inl rfl, rfl⟩
    · rw [← Option.some.inj h]
      exact ⟨Or.inr rfl, rfl⟩

theorem kept_strcpy_s (h : strcpy_s p = some p') : Kept p p' := by
  unfold strcpy_s at h
  split at h
  · obtain ⟨name, -, rfl⟩ := Option.map_eq_some_iff.mp h
    exact ⟨Or.inr rfl, rfl⟩
  · cases h

theorem kept_take_header (h : take_header fopen_s p = some p') : Kept p p' := by
  obtain ⟨p₁, hcpy, h⟩ := Option.bind_eq_some_iff.mp h
  have h₁ := kept_strcpy_s hcpy
  dsimp only at h
  split at h
  · have h₂ := kept_write_or_clear h
    exact Kept.trans ⟨h₁.fd, h₁.finished⟩ ⟨h₂.fd, h₂.finished⟩
  · cases h

/-- A read and what is done with the bytes. -/
theorem kept_read_then {size : Nat} {f : Client_Item × Nat × Bytes → Option (Client_Item × Bytes)}
    (hf : ∀ {p₁ n input' p' rest}, f (p₁, n, input') = some (p', rest) → Kept p₁ p')
    (h : (bufferevent_read p size input).bind f = some (p', rest)) : Kept p p' := by
  obtain ⟨⟨p₁, n, input'⟩, hread, h⟩ := Option.bind_eq_some_iff.mp h
  exact (kept_bufferevent_read hread).trans (hf h)

theorem kept_write_then {s : Bytes}
    (h : (write_or_clear p s).map (fun p => (p, input)) = some (p', rest)) : Kept p p' := by
  obtain ⟨p₁, hwritten, heq⟩ := Option.map_eq_some_iff.mp h
  obtain ⟨rfl, -⟩ := Prod.mk.inj heq
  exact kept_write_or_clear hwritten

theorem kept_receive (h : receive fopen_s p input = some (p', rest)) : Kept p p' := by
  unfold receive at h
  split at h
  · refine kept_read_then (fun {p₁ n input' p' rest} h => ?_) h
    dsimp only at h
    split at h
    · obtain ⟨p₂, hheader, heq⟩ := Option.map_eq_some_iff.mp h
      obtain ⟨rfl, -⟩ := Prod.mk.inj heq
      exact kept_take_header hheader
    · obtain ⟨rfl, -⟩ := Prod.mk.inj (Option.some.inj h)
      exact Kept.refl _
  split at h
  · exact kept_read_then kept_write_then h
  split at h
  · exact kept_read_then kept_write_then h
  · obtain ⟨rfl, -⟩ := Prod.mk.inj (Option.some.inj h)
    exact Kept.refl _

/-- **`Read_cb`** keeps the descriptor or sets it to zero, and it does so when a file is
finished. -/
theorem fd_Read_cb (h : Read_cb fopen_s p input = some (p', rest)) :
    p'.fd = 0 ∨ p'.fd = p.fd ∧ p'.finished = p.finished := by
  obtain ⟨⟨p₁, input'⟩, hreceive, heq⟩ := Option.map_eq_some_iff.mp h
  obtain ⟨rfl, -⟩ := Prod.mk.inj heq
  have hkept := kept_receive hreceive
  unfold finish
  split
  · exact Or.inl rfl
  · exact hkept.fd.imp_right fun hsame => ⟨hsame, hkept.finished⟩

end Transfer

/-! ### Taking an item out -/

/-- The descriptors of the items there are. -/
def HasFd (heap : Nat → Option Client) (est p : Nat) : Prop :=
  ∃ c, heap p = some c ∧ c.item.fd = est

section List

variable {heap : Nat → Option Client} {est p : Nat} {before rest : List Nat}

/-- The first item with the descriptor goes. -/
theorem PopItem_append (hbefore : ∀ q ∈ before, heap q ≠ none ∧ ¬ HasFd heap est q)
    (hp : HasFd heap est p) : PopItem heap est (before ++ p :: rest) = some (before ++ rest) := by
  induction before with
  | nil =>
    obtain ⟨c, hc, hfd⟩ := hp
    rw [List.nil_append, PopItem, hc]
    exact if_pos hfd
  | cons q before ih =>
    obtain ⟨⟨hlive, hother⟩, hbefore⟩ := List.forall_mem_cons.mp hbefore
    obtain ⟨d, hd⟩ := Option.ne_none_iff_exists'.mp hlive
    rw [List.cons_append, PopItem, hd]
    dsimp only
    rw [if_neg fun hfd => hother ⟨d, hd, hfd⟩, ih hbefore]
    rfl

/-- What is behind an item with the descriptor stays. -/
theorem mem_PopItem {l : List Nat} {q : Nat} (hq : q ∈ before) (hfd : HasFd heap est q)
    (h : PopItem heap est (before ++ p :: rest) = some l) : p ∈ l := by
  induction before generalizing l with
  | nil => cases hq
  | cons q' before ih =>
    rw [List.cons_append, PopItem] at h
    split at h
    · cases h
    rename_i c hc
    split at h
    · rw [← Option.some.inj h]
      exact List.mem_append_right _ List.mem_cons_self
    rename_i hother
    obtain ⟨l', hl', rfl⟩ := Option.map_eq_some_iff.mp h
    rcases List.mem_cons.mp hq with rfl | hq
    · obtain ⟨d, hd, hfd⟩ := hfd
      obtain rfl := Option.some.inj (hc.symm.trans hd)
      exact absurd hfd hother
    · exact List.mem_cons_of_mem _ (ih hq hl')

/-- Freeing the items of a list that holds each of them once frees all there are. -/
theorem Stop_eq : ∀ (l : List Nat) (heap : Nat → Option Client), l.Nodup →
    (∀ p, p ∈ l ↔ heap p ≠ none) → Stop heap l = some fun _ => none := by
  intro l
  induction l with
  | nil =>
    intro heap _ hmem
    refine congrArg some (funext fun p => ?_)
    by_contra hp
    exact List.not_mem_nil ((hmem p).mpr hp)
  | cons p l ih =>
    intro heap hnodup hmem
    obtain ⟨hp, hnodup⟩ := List.nodup_cons.mp hnodup
    obtain ⟨c, hc⟩ := Option.ne_none_iff_exists'.mp ((hmem p).mp List.mem_cons_self)
    rw [Stop, hc]
    refine ih _ hnodup fun q => ?_
    by_cases hq : q = p
    · rw [hq, Function.update_self]
      exact iff_of_false hp fun h => h rfl
    · rw [Function.update_of_ne hq, ← hmem, List.mem_cons, or_iff_right hq]

end List

/-! ### Every run -/

/-- Beyond the list: a descriptor in an item is that of its connection or zero, and no two
connections have the same. -/
structure Sub_Thread.Good (w : Sub_Thread) : Prop where
  nodup : w.itemlist.Nodup
  mem : ∀ p, p ∈ w.itemlist ↔ w.heap p ≠ none
  fd : ∀ p c, w.heap p = some c → c.item.fd = 0 ∨ c.item.fd = c.socket
  distinct : ∀ p q c d, w.heap p = some c → w.heap q = some d → c.socket = d.socket → p = q

section Runs

variable {w w' : Sub_Thread} {cb : Callback}

theorem Sub_Thread.Good.exact (h : w.Good) : Exact w := ⟨h.nodup, h.mem, Stop_eq _ _ h.nodup h.mem⟩

theorem good_start : Sub_Thread.start.Good where
  nodup := List.nodup_nil
  mem _ := iff_of_false List.not_mem_nil fun h => h rfl
  fd _ _ h := by cases h
  distinct _ _ _ _ h := by cases h

theorem update_eq_some {heap : Nat → Option Client} {p q : Nat} {c d : Client} :
    Function.update heap p (some c) q = some d ↔ q = p ∧ c = d ∨ q ≠ p ∧ heap q = some d := by
  by_cases hq : q = p
  · rw [hq, Function.update_self]
    simp
  · rw [Function.update_of_ne hq]
    simp [hq]

/-- A client is connected. -/
theorem Sub_Thread.Good.connect {p evsock : Nat} (h : w.Good) (in_buf : Bytes)
    (hnew : w.heap p = none) (hfree : ∀ q c, w.heap q = some c → c.socket ≠ evsock) :
    Sub_Thread.Good ⟨Function.update w.heap p (some ⟨.new in_buf evsock, evsock, []⟩),
      w.itemlist ++ [p]⟩ where
  nodup := by
    rw [List.nodup_append_comm]
    exact List.nodup_cons.mpr ⟨fun hp => (h.mem p).mp hp hnew, h.nodup⟩
  mem q := by
    rw [List.mem_append, List.mem_singleton, h.mem]
    dsimp only
    by_cases hq : q = p
    · rw [hq, Function.update_self]
      exact iff_of_true (Or.inr rfl) (Option.some_ne_none _)
    · rw [Function.update_of_ne hq, or_iff_left hq]
  fd q c hc := by
    rcases update_eq_some.mp hc with ⟨-, rfl⟩ | ⟨-, hc⟩
    · exact Or.inr rfl
    · exact h.fd q c hc
  distinct q q' c d hc hd hsocket := by
    rcases update_eq_some.mp hc with ⟨hq, rfl⟩ | ⟨-, hc⟩
    · rcases update_eq_some.mp hd with ⟨hq', rfl⟩ | ⟨-, hd⟩
      · exact hq.trans hq'.symm
      · exact absurd hsocket.symm (hfree q' d hd)
    · rcases update_eq_some.mp hd with ⟨-, rfl⟩ | ⟨-, hd⟩
      · exact absurd hsocket (hfree q c hc)
      · exact h.distinct q q' c d hc hd hsocket

/-- Something arrives from a client. -/
theorem Sub_Thread.Good.read {p : Nat} {c : Client} {item : Client_Item} (h : w.Good)
    (hc : w.heap p = some c) (hfd : item.fd = 0 ∨ item.fd = c.item.fd) (input : Bytes) :
    Sub_Thread.Good ⟨Function.update w.heap p (some { c with item := item, input := input }),
      w.itemlist⟩ where
  nodup := h.nodup
  mem q := by
    rw [h.mem]
    dsimp only
    by_cases hq : q = p
    · rw [hq, Function.update_self, hc]
      exact iff_of_true (Option.some_ne_none _) (Option.some_ne_none _)
    · rw [Function.update_of_ne hq]
  fd q d hd := by
    rcases update_eq_some.mp hd with ⟨-, rfl⟩ | ⟨-, hd⟩
    · rcases hfd with h0 | hsame
      · exact Or.inl h0
      · dsimp only
        rw [hsame]
        exact h.fd p c hc
    · exact h.fd q d hd
  distinct q q' d d' hd hd' hsocket := by
    -- the item there was at the address has the same descriptor
    have hold : ∀ {q d}, Function.update w.heap p (some { c with item := item, input := input }) q
        = some d → ∃ d', w.heap q = some d' ∧ d'.socket = d.socket := by
      intro q d hd
      rcases update_eq_some.mp hd with ⟨rfl, rfl⟩ | ⟨-, hd⟩
      · exact ⟨c, hc, rfl⟩
      · exact ⟨d, hd, rfl⟩
    obtain ⟨x, hx, hxd⟩ := hold hd
    obtain ⟨x', hx', hxd'⟩ := hold hd'
    exact h.distinct q q' x x' hx hx' (by rw [hxd, hxd', hsocket])

/-- An item is taken out of the list and deleted. -/
theorem Sub_Thread.Good.close {p : Nat} {before rest : List Nat} (h : w.Good)
    (hlist : w.itemlist = before ++ p :: rest) :
    Sub_Thread.Good ⟨Function.update w.heap p none, before ++ rest⟩ := by
  have hnodup := h.nodup
  rw [hlist, List.nodup_middle] at hnodup
  obtain ⟨hp, hrest⟩ := List.nodup_cons.mp hnodup
  have hold : ∀ {q d}, Function.update w.heap p none q = some d → w.heap q = some d := by
    intro q d hd
    by_cases hq : q = p
    · rw [hq, Function.update_self] at hd
      cases hd
    · rwa [Function.update_of_ne hq] at hd
  refine ⟨hrest, fun q => ?_, fun q d hd => h.fd q d (hold hd),
    fun q q' d d' hd hd' => h.distinct q q' d d' (hold hd) (hold hd')⟩
  have hmem := h.mem q
  rw [hlist, List.mem_append, List.mem_cons, or_left_comm, ← List.mem_append] at hmem
  dsimp only
  by_cases hq : q = p
  · rw [hq, Function.update_self]
    exact iff_of_false hp fun hne => hne rfl
  · rw [Function.update_of_ne hq, ← hmem, or_iff_right hq]

/-- **The right item is found** when no item before it has a descriptor of zero as well. -/
theorem Sub_Thread.Good.found {p : Nat} {c : Client} {before rest : List Nat} (h : w.Good)
    (hc : w.heap p = some c) (hlist : w.itemlist = before ++ p :: rest)
    (hzero : c.item.fd = 0 → ∀ q ∈ before, ∀ d, w.heap q = some d → d.item.fd ≠ 0) :
    PopItem w.heap c.item.fd w.itemlist = some (before ++ rest) := by
  rw [hlist]
  refine PopItem_append (fun q hq => ⟨?_, ?_⟩) ⟨c, hc, rfl⟩
  · exact (h.mem q).mp (hlist ▸ List.mem_append_left _ hq)
  · rintro ⟨d, hd, hfd⟩
    by_cases h0 : c.item.fd = 0
    · exact hzero h0 q hq d hd (hfd.trans h0)
    · -- two connections with one descriptor
      have hcs := (h.fd p c hc).resolve_left h0
      have hds := (h.fd q d hd).resolve_left (hfd ▸ h0)
      obtain rfl := h.distinct q p d c hd hc (hds.symm.trans (hfd.trans hcs))
      have hnodup := h.nodup
      rw [hlist, List.nodup_middle] at hnodup
      exact (List.nodup_cons.mp hnodup).1 (List.mem_append_left _ hq)

/-- **One callback** that is not ambiguous. -/
theorem Sub_Thread.Good.calls (h : w.Good) (hcalls : Calls w cb w') (hu : Unambiguous w cb) :
    w'.Good := by
  obtain ⟨hpossible, hhandle⟩ := hcalls
  cases cb with
  | pipe_process p evsock in_buf =>
    obtain ⟨hnew, hfree, -⟩ := hpossible
    rw [← Option.some.inj hhandle]
    exact h.connect in_buf hnew hfree
  | Read_cb p fopen_s arrived =>
    obtain ⟨c, hc, hhandle⟩ := Option.bind_eq_some_iff.mp hhandle
    obtain ⟨⟨item, input⟩, hread, rfl⟩ := Option.map_eq_some_iff.mp hhandle
    exact h.read hc ((fd_Read_cb hread).imp_right And.left) input
  | Error_cb p error =>
    obtain ⟨c, hc, hhandle⟩ := Option.bind_eq_some_iff.mp hhandle
    split at hhandle
    · rename_i hfinished
      have hmem : p ∈ w.itemlist := (h.mem p).mpr (by rw [hc]; exact Option.some_ne_none c)
      obtain ⟨before, rest, hlist⟩ := List.append_of_mem hmem
      rw [h.found hc hlist fun h0 => hu hfinished c hc h0 before rest hlist] at hhandle
      rw [← Option.some.inj hhandle]
      exact h.close hlist
    · rwa [← Option.some.inj hhandle]

/-- **An ambiguous one** takes another item out, and keeps the one it deletes. -/
theorem not_exact_of_ambiguous (hcalls : Calls w cb w') (hu : ¬ Unambiguous w cb) : ¬ Exact w' := by
  obtain ⟨-, hhandle⟩ := hcalls
  cases cb with
  | pipe_process => exact absurd trivial hu
  | Read_cb => exact absurd trivial hu
  | Error_cb p error =>
    simp only [Unambiguous, not_forall, ne_eq, not_not, exists_prop] at hu
    obtain ⟨hfinished, c, hc, h0, before, rest, hlist, q, hq, d, hd, hd0⟩ := hu
    rw [handle, hc, Option.bind_some, if_pos hfinished, hlist] at hhandle
    obtain ⟨l, hpop, rfl⟩ := Option.map_eq_some_iff.mp hhandle
    intro hexact
    have hp : p ∈ l := mem_PopItem hq ⟨d, hd, hd0.trans h0.symm⟩ hpop
    exact (hexact.mem p).mp hp (Function.update_self p none w.heap)

end Runs

/-- **The list of a worker.**  It holds exactly the clients there are after every callback of a
run, if and only if no client that ends is ambiguous. -/
theorem items_exact_iff (t : List (Move Sub_Thread Callback)) (w : Sub_Thread)
    (h : Trace Calls Sub_Thread.start t w) :
    (∀ m ∈ t, Exact m.after) ↔ ∀ m ∈ t, Unambiguous m.before m.event :=
  h.forall_iff (G := fun _ _ w' => Exact w')
    (fun hg hcalls hu => ⟨(hg.calls hcalls hu).exact, hg.calls hcalls hu⟩)
    (fun _ hcalls hu => not_exact_of_ambiguous hcalls hu) good_start

/-! ### Two clients -/

/-- A file of one byte, behind its header. -/
def stream : Bytes := pictureInfo (asc "test.png") 265 ++ [7]

/-- When it has arrived the descriptor is zero. -/
theorem Read_cb_stream (evsock : Nat) {in_buf : Bytes} (hbuf : in_buf.length = BufferLen) :
    ∃ item, Read_cb (fun _ => true) (.new in_buf evsock) stream = some (item, []) ∧ item.fd = 0 := by
  have hinit : (Client_Item.new in_buf evsock).Initial := ⟨rfl, rfl, rfl, rfl⟩
  have hlen : stream.length ≤ BufferLen := by
    rw [stream, List.length_append, length_pictureInfo]
    decide
  obtain ⟨item, hread, hstep⟩ := @Read_cb_first (fun _ => true) [7] [7] [] stream _ hinit hbuf rfl
    (by decide) rfl hlen (List.cons_ne_nil _ _) rfl
  refine ⟨item, hread, (fd_Read_cb hread).resolve_right ?_⟩
  rintro ⟨-, hsame⟩
  rcases hstep with ⟨hne, -⟩ | ⟨-, -, hfinished⟩
  · exact hne rfl
  · rw [hsame] at hfinished
    cases hfinished

/-- What is in the buffer of a new item. -/
def blankBuf : Bytes := List.replicate BufferLen 0

section Two

variable {w : Sub_Thread} {p evsock : Nat}

/-- A client connects and sends the file. -/
theorem exists_trace_stream (hnew : w.heap p = none)
    (hfree : ∀ q c, w.heap q = some c → c.socket ≠ evsock) :
    ∃ item t, item.fd = 0 ∧ Trace Calls w t
      ⟨Function.update w.heap p (some ⟨item, evsock, []⟩), w.itemlist ++ [p]⟩ := by
  have hbuf : blankBuf.length = BufferLen := List.length_replicate
  obtain ⟨item, hread, hfd⟩ := Read_cb_stream evsock hbuf
  have hconnect : Calls w (.pipe_process p evsock blankBuf)
      ⟨Function.update w.heap p (some ⟨.new blankBuf evsock, evsock, []⟩), w.itemlist ++ [p]⟩ :=
    ⟨⟨hnew, hfree, hbuf⟩, rfl⟩
  have hstream : Calls
      ⟨Function.update w.heap p (some ⟨.new blankBuf evsock, evsock, []⟩), w.itemlist ++ [p]⟩
      (.Read_cb p (fun _ => true) stream)
      ⟨Function.update w.heap p (some ⟨item, evsock, []⟩), w.itemlist ++ [p]⟩ := by
    refine ⟨⟨?_, ?_⟩, ?_⟩
    · dsimp only
      rw [Function.update_self]
      exact Option.some_ne_none _
    · exact List.append_ne_nil_of_right_ne_nil _ (List.cons_ne_nil _ _)
    · rw [handle]
      dsimp only
      rw [Function.update_self, Option.bind_some, List.nil_append, hread, Option.map_some,
        Function.update_idem]
  exact ⟨item, _, hfd, .cons hconnect (.single hstream)⟩

/-- A client ends. -/
theorem calls_end {c : Client} {l : List Nat} (hc : w.heap p = some c)
    (hpop : PopItem w.heap c.item.fd w.itemlist = some l) :
    Calls w (.Error_cb p 0x10) ⟨Function.update w.heap p none, l⟩ := by
  refine ⟨?_, ?_⟩
  · show w.heap p ≠ none
    rw [hc]
    exact Option.some_ne_none c
  · rw [handle, hc, Option.bind_some, if_pos (by decide), hpop]
    rfl

end Two

/-- A client that sends the file and ends. -/
theorem items_exact_iff_alone : ∃ t w, Trace Calls Sub_Thread.start t w ∧ w.itemlist = [] ∧
    ((∀ m ∈ t, Exact m.after) ↔ ∀ m ∈ t, Unambiguous m.before m.event) := by
  obtain ⟨item, t, -, ht⟩ := @exists_trace_stream .start 0 5 rfl fun _ _ h => by cases h
  have hend := @calls_end ⟨Function.update (fun _ => none) 0 (some ⟨item, 5, []⟩), [0]⟩ 0
    ⟨item, 5, []⟩ [] rfl (@PopItem_append _ _ 0 [] [] (by simp) ⟨⟨item, 5, []⟩, rfl, rfl⟩)
  have htrace := ht.append (.single hend)
  exact ⟨_, _, htrace, rfl, items_exact_iff _ _ htrace⟩

/-- Both clients have sent a file, and the second one ends: the first one is taken out of the
list, and the second stays in it, deleted. -/
theorem other_client_removed :
    ¬ ∀ (t : List (Move Sub_Thread Callback)) (w : Sub_Thread),
      Trace Calls Sub_Thread.start t w → ∀ m ∈ t, Exact m.after := by
  intro hall
  obtain ⟨item₀, t₀, hfd₀, ht₀⟩ := @exists_trace_stream .start 0 5 rfl fun _ _ h => by cases h
  have hfree : ∀ q c,
      Function.update (fun _ => none) 0 (some (⟨item₀, 5, []⟩ : Client)) q = some c → c.socket ≠ 6 := by
    intro q c hc
    rcases update_eq_some.mp hc with ⟨-, rfl⟩ | ⟨-, hc⟩
    · exact Nat.ne_of_lt (Nat.lt_succ_self 5)
    · cases hc
  obtain ⟨item₁, t₁, hfd₁, ht₁⟩ := @exists_trace_stream ⟨_, [0]⟩ 1 6 rfl hfree
  have hend := @calls_end ⟨Function.update (Function.update (fun _ => none) 0
    (some ⟨item₀, 5, []⟩)) 1 (some ⟨item₁, 6, []⟩), [0, 1]⟩ 1 ⟨item₁, 6, []⟩ [1] rfl
    (@PopItem_append _ _ 0 [] [1] (by simp) ⟨⟨item₀, 5, []⟩, rfl, hfd₀.trans hfd₁.symm⟩)
  have hexact := hall _ _ ((ht₀.append ht₁).append (.single hend)) _
    (List.mem_append_right _ (List.mem_singleton_self _))
  exact (hexact.mem 1).mp (List.mem_singleton_self 1) rfl

end Boxing.Libevent
