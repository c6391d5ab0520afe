import Mathlib.Data.Finset.Card
import Mathlib.Order.Interval.Finset.Nat
import Boxing.C.Linked
import Boxing.Device.Trace

/-!
# The pool of connections

A worker of the TCP server makes all its connections when it starts, one more than it may
serve, and keeps the free ones in a linked list.  `DoAccept` takes the first of them and
`CloseConn` puts one behind the last.  The last one is never taken, so the list is never empty
and no operation has to look for that.

What a connection points at while it is handed out does not matter, nor what the last free one
points at: the list ends at `tail`, and `PutFreeConn` writes the pointer of the last node when
there is one behind it.  `pool_sound` says that the pool keeps what it has: the list holds the
connections that are not handed out, each once.
-/

namespace Boxing.Libevent

open C Device

/-! ### The list -/

/-- `_ConnList`: a connection is its place in `plistConn`, and `next` are the pointers of all of
them. -/
structure ConnList where
  next : Nat → Option Nat
  head : Option Nat
  tail : Option Nat

/-- `for (int j=0; j<connnum; j++)`: every node points at the one behind it. -/
def link (connnum : Nat) (next : Nat → Option Nat) : Nat → Option Nat :=
  (List.range connnum).foldl (fun next j => Function.update next j (some (j + 1))) next

/-- The list of a worker as `StartServer` leaves it, of `connnum + 1` nodes. -/
def StartServer (connnum : Nat) : ConnList where
  next := Function.update (link connnum fun _ => none) connnum none
  head := some 0
  tail := some connnum

/-- `GetFreeConn()`: the connection, or NULL, and the list; `none` when it reads the pointer of
NULL. -/
def GetFreeConn (pListConn : ConnList) : Option (Option Nat × ConnList) :=
  if pListConn.head ≠ pListConn.tail then
    pListConn.head.map fun pItem => (some pItem, { pListConn with head := pListConn.next pItem })
  else some (none, pListConn)

/-- `PutFreeConn(pItem)`. -/
def PutFreeConn (pListConn : ConnList) (pItem : Nat) : Option ConnList :=
  pListConn.tail.map fun tail =>
    { pListConn with
      next := Function.update pListConn.next tail (some pItem)
      tail := some pItem }

/-- The list and the connections that are handed out. -/
structure Pool where
  list : ConnList
  out : Finset Nat

/-- What is done with the pool. -/
inductive PoolOp
  | GetFreeConn
  | PutFreeConn (pItem : Nat)

/-- An operation.  Only a connection that is handed out is put back. -/
inductive PoolStep : Pool → PoolOp → Pool → Prop
  | taken {s : Pool} {pItem : Nat} {list : ConnList}
      (h : GetFreeConn s.list = some (some pItem, list)) :
      PoolStep s .GetFreeConn ⟨list, insert pItem s.out⟩
  | null {s : Pool} {list : ConnList} (h : GetFreeConn s.list = some (none, list)) :
      PoolStep s .GetFreeConn ⟨list, s.out⟩
  | put {s : Pool} {pItem : Nat} {list : ConnList} (hout : pItem ∈ s.out)
      (h : PutFreeConn s.list pItem = some list) :
      PoolStep s (.PutFreeConn pItem) ⟨list, s.out.erase pItem⟩

/-- A pool that nothing has been taken from. -/
def Pool.start (connnum : Nat) : Pool := ⟨StartServer connnum, ∅⟩

/-! ### A list of free nodes -/

/-- The nodes from `head` up to `tail`. -/
def ConnList.Reaches (pListConn : ConnList) (nodes : List Nat) : Prop :=
  ∃ p q, pListConn.head = some p ∧ pListConn.tail = some q ∧ Segment pListConn.next p nodes q

section Operations

variable {l : ConnList} {nodes : List Nat} {pItem pItem' : Nat}

theorem link_apply (connnum : Nat) (next : Nat → Option Nat) (p : Nat) :
    link connnum next p = if p < connnum then some (p + 1) else next p := by
  induction connnum with
  | zero => rw [if_neg (Nat.not_lt_zero p)]; rfl
  | succ n ih =>
    have hsucc : link (n + 1) next = Function.update (link n next) n (some (n + 1)) := by
      rw [link, List.range_succ, List.foldl_append]
      rfl
    rw [hsucc]
    by_cases hp : p = n
    · rw [hp, Function.update_self, if_pos (Nat.lt_succ_self n)]
    · rw [Function.update_of_ne hp, ih]
      exact if_congr (by omega) rfl rfl

/-- The nodes from `p` on, as they are linked at the start. -/
theorem segment_start (connnum : Nat) : ∀ (k p : Nat), p + k = connnum →
    Segment (StartServer connnum).next p (List.range' p (k + 1)) connnum := by
  intro k
  induction k with
  | zero =>
    intro p hp
    obtain rfl : p = connnum := hp
    exact .last p
  | succ k ih =>
    intro p hp
    have hnext : (StartServer connnum).next p = some (p + 1) := by
      show Function.update (link connnum fun _ => none) connnum none p = _
      rw [Function.update_of_ne (by omega), link_apply, if_pos (by omega)]
    rw [List.range'_succ]
    exact .cons hnext (ih (p + 1) (by omega))

theorem reaches_start (connnum : Nat) :
    (StartServer connnum).Reaches (List.range (connnum + 1)) := by
  refine ⟨0, connnum, rfl, rfl, ?_⟩
  rw [List.range_eq_range']
  exact segment_start connnum connnum 0 (Nat.zero_add _)

/-- **Taking.**  With another node behind it the first one is taken. -/
theorem GetFreeConn_cons (h : l.Reaches (pItem :: pItem' :: nodes))
    (hnodup : (pItem :: pItem' :: nodes).Nodup) :
    GetFreeConn l = some (some pItem, { l with head := some pItem' }) ∧
      ConnList.Reaches { l with head := some pItem' } (pItem' :: nodes) := by
  obtain ⟨p, q, hhead, htail, hsegment⟩ := h
  obtain rfl : p = pItem := by cases hsegment; rfl
  obtain ⟨hne, hnext, hrest⟩ := hsegment.pop hnodup
  refine ⟨?_, pItem', q, rfl, htail, hrest⟩
  rw [GetFreeConn, if_pos (by rw [hhead, htail]; simpa using hne), hhead, Option.map_some, hnext]

/-- The last node stays. -/
theorem GetFreeConn_singleton (h : l.Reaches [pItem]) : GetFreeConn l = some (none, l) := by
  obtain ⟨p, q, hhead, htail, hsegment⟩ := h
  have hpq : p = q := by
    cases hsegment with
    | last => rfl
    | cons _ h => cases h
  rw [GetFreeConn, if_neg (by rw [hhead, htail, hpq]; simp)]

/-- **Putting back.** -/
theorem PutFreeConn_reaches (h : l.Reaches nodes) (hnodup : nodes.Nodup) (pItem : Nat) :
    ∃ l', PutFreeConn l pItem = some l' ∧ l'.Reaches (nodes ++ [pItem]) := by
  obtain ⟨p, q, hhead, htail, hsegment⟩ := h
  refine ⟨⟨Function.update l.next q (some pItem), l.head, some pItem⟩, ?_, p, pItem, hhead, rfl,
    hsegment.push hnodup pItem⟩
  rw [PutFreeConn, htail]
  rfl

theorem ConnList.Reaches.exists_cons (h : l.Reaches nodes) : ∃ p rest, nodes = p :: rest := by
  obtain ⟨p, q, -, -, hsegment⟩ := h
  cases hsegment with
  | last => exact ⟨p, [], rfl⟩
  | cons => exact ⟨p, _, rfl⟩

end Operations

/-! ### Every run -/

/-- The list holds the nodes that are not handed out, each once. -/
structure Divided (connnum : Nat) (s : Pool) (nodes : List Nat) : Prop where
  reaches : s.list.Reaches nodes
  nodup : nodes.Nodup
  mem : ∀ c, c ∈ nodes ↔ c ≤ connnum ∧ c ∉ s.out
  out_le : ∀ c ∈ s.out, c ≤ connnum

section Runs

variable {connnum : Nat} {s s' : Pool} {nodes : List Nat}

theorem divided_start (connnum : Nat) :
    Divided connnum (Pool.start connnum) (List.range (connnum + 1)) where
  reaches := reaches_start connnum
  nodup := List.nodup_range
  mem c := by
    rw [List.mem_range, Nat.lt_succ_iff]
    exact (and_iff_left (Finset.notMem_empty c)).symm
  out_le c hc := absurd hc (Finset.notMem_empty c)

/-- All the nodes there are. -/
theorem Divided.length_add_card (h : Divided connnum s nodes) :
    nodes.length + s.out.card = connnum + 1 := by
  have hsub : s.out ⊆ Finset.range (connnum + 1) := fun c hc =>
    Finset.mem_range.mpr (Nat.lt_succ_of_le (h.out_le c hc))
  have hfree : nodes.toFinset = Finset.range (connnum + 1) \ s.out := by
    ext c
    rw [List.mem_toFinset, h.mem, Finset.mem_sdiff, Finset.mem_range, Nat.lt_succ_iff]
  have hcard := Finset.card_sdiff_add_card_eq_card hsub
  rwa [← hfree, List.toFinset_card_of_nodup h.nodup, Finset.card_range] at hcard

/-- A node that is taken moves from one side to the other. -/
theorem Divided.take {p p' : Nat} (h : Divided connnum s (p :: p' :: nodes)) :
    Divided connnum ⟨{ s.list with head := some p' }, insert p s.out⟩ (p' :: nodes) where
  reaches := (GetFreeConn_cons h.reaches h.nodup).2
  nodup := (List.nodup_cons.mp h.nodup).2
  mem c := by
    have hp := (List.nodup_cons.mp h.nodup).1
    have hmem := h.mem c
    rw [List.mem_cons] at hmem
    rw [Finset.mem_insert, not_or]
    constructor
    · intro hc
      obtain ⟨hle, hout⟩ := hmem.mp (Or.inr hc)
      exact ⟨hle, ne_of_mem_of_not_mem hc hp, hout⟩
    · rintro ⟨hle, hne, hout⟩
      exact (hmem.mpr ⟨hle, hout⟩).resolve_left hne
  out_le c hc := by
    rcases Finset.mem_insert.mp hc with rfl | hc
    · exact ((h.mem c).mp List.mem_cons_self).1
    · exact h.out_le c hc

/-- So does one that is put back. -/
theorem Divided.put {pItem : Nat} {list : ConnList} (h : Divided connnum s nodes)
    (hout : pItem ∈ s.out) (hput : PutFreeConn s.list pItem = some list) :
    Divided connnum ⟨list, s.out.erase pItem⟩ (nodes ++ [pItem]) := by
  obtain ⟨list', hput', hreaches⟩ := PutFreeConn_reaches h.reaches h.nodup pItem
  obtain rfl := Option.some.inj (hput.symm.trans hput')
  have hnot : pItem ∉ nodes := fun hmem => ((h.mem pItem).mp hmem).2 hout
  refine ⟨hreaches, ?_, fun c => ?_, fun c hc => h.out_le c (Finset.mem_of_mem_erase hc)⟩
  · rw [List.nodup_append_comm]
    exact List.nodup_cons.mpr ⟨hnot, h.nodup⟩
  · rw [List.mem_append, List.mem_singleton, h.mem, Finset.mem_erase, not_and_or, not_not]
    constructor
    · rintro (⟨hle, hc⟩ | rfl)
      · exact ⟨hle, Or.inr hc⟩
      · exact ⟨h.out_le c hout, Or.inl rfl⟩
    · rintro ⟨hle, hc | hc⟩
      · exact Or.inr hc
      · exact Or.inl ⟨hle, hc⟩

/-- **One operation** keeps the division. -/
theorem Divided.step {op : PoolOp} (h : Divided connnum s nodes) (hstep : PoolStep s op s') :
    ∃ nodes', Divided connnum s' nodes' := by
  obtain ⟨p, rest, rfl⟩ := h.reaches.exists_cons
  cases hstep with
  | taken hget =>
    cases rest with
    | nil =>
      rw [GetFreeConn_singleton h.reaches] at hget
      cases hget
    | cons p' rest =>
      rw [(GetFreeConn_cons h.reaches h.nodup).1] at hget
      cases hget
      exact ⟨_, h.take⟩
  | null hget =>
    cases rest with
    | nil =>
      rw [GetFreeConn_singleton h.reaches] at hget
      cases hget
      exact ⟨_, h⟩
    | cons p' rest =>
      rw [(GetFreeConn_cons h.reaches h.nodup).1] at hget
      cases hget
  | put hout hput => exact ⟨_, h.put hout hput⟩

/-- What `GetFreeConn` answers. -/
theorem Divided.get (h : Divided connnum s nodes) : ∃ pItem list,
    GetFreeConn s.list = some (pItem, list) ∧ (∀ c, pItem = some c → c ≤ connnum ∧ c ∉ s.out) ∧
      (pItem = none ↔ s.out.card = connnum) := by
  have hall := h.length_add_card
  obtain ⟨p, rest, rfl⟩ := h.reaches.exists_cons
  cases rest with
  | nil =>
    rw [List.length_singleton] at hall
    exact ⟨none, s.list, GetFreeConn_singleton h.reaches,
      fun c hc => absurd hc.symm (Option.some_ne_none c), iff_of_true rfl (by omega)⟩
  | cons p' rest =>
    rw [List.length_cons, List.length_cons] at hall
    refine ⟨some p, _, (GetFreeConn_cons h.reaches h.nodup).1, ?_, ?_⟩
    · rintro c ⟨⟩
      exact (h.mem p).mp List.mem_cons_self
    · exact iff_of_false (Option.some_ne_none p) (by omega)

end Runs

/-- What a pool is to be: the nodes from `head` up to `tail` are the ones that are not handed
out, each once; a connection that is taken is one of them, and there is none to take when
`connnum` are handed out, and only then; and one that is handed out can be put back. -/
structure Sound (connnum : Nat) (s : Pool) : Prop where
  free : ∃ nodes, s.list.Reaches nodes ∧ nodes.Nodup ∧ ∀ c, c ∈ nodes ↔ c ≤ connnum ∧ c ∉ s.out
  get : ∃ pItem list, GetFreeConn s.list = some (pItem, list) ∧
    (∀ c, pItem = some c → c ≤ connnum ∧ c ∉ s.out) ∧ (pItem = none ↔ s.out.card = connnum)
  put : ∀ c ∈ s.out, c ≤ connnum ∧ ∃ list, PutFreeConn s.list c = some list

/-- **The pool** never hands out a connection twice and never loses one, whatever the number of
connections and the order in which they are taken and put back. -/
theorem pool_sound (connnum : Nat) (t : List (Move Pool PoolOp)) (s : Pool)
    (h : Trace PoolStep (Pool.start connnum) t s) : Sound connnum s := by
  obtain ⟨nodes, hdivided⟩ := h.keeps (I := fun s => ∃ nodes, Divided connnum s nodes)
    (fun ⟨_, hd⟩ hstep => hd.step hstep) ⟨_, divided_start connnum⟩
  refine ⟨⟨nodes, hdivided.reaches, hdivided.nodup, hdivided.mem⟩, hdivided.get, fun c hc => ?_⟩
  obtain ⟨list, hput, -⟩ := PutFreeConn_reaches hdivided.reaches hdivided.nodup c
  exact ⟨hdivided.out_le c hc, list, hput⟩

/-- One connection: it is taken, put back, and then the other node is taken. -/
theorem pool_sound_refilled : ∃ t s, Trace PoolStep (Pool.start 1) t s ∧ t.length = 3 ∧
    s.out = {1} ∧ Sound 1 s := by
  have htrace : Trace PoolStep (Pool.start 1) _ _ :=
    .cons (@PoolStep.taken _ 0 _ rfl) (.cons (@PoolStep.put _ 0 _ (Finset.mem_insert_self 0 ∅) rfl)
      (.single (@PoolStep.taken _ 1 _ rfl)))
  exact ⟨_, _, htrace, rfl, rfl, pool_sound 1 _ _ htrace⟩

end Boxing.Libevent
