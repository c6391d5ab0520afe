import Boxing.C.Ring

/-!
# `list.h`

The doubly linked lists of the kernel: an entry is a node inside of some structure, and a list is
the ring of its head and its entries.  The functions only write pointers, and which of the nodes
is a head is known to the caller alone.

Each function has a specification by pieces (`list_add_spec` and so on), and a program that calls
them is followed piece by piece: `run_holds` is for any run of calls.  What such a run leaves is
what the loops over it see, in both directions (`lists_of_run`).
-/

namespace Boxing.Linux

open C

set_option linter.style.nameCheck false

section Functions

variable {α : Type} [DecidableEq α]

/-- `INIT_LIST_HEAD(list)`. -/
def INIT_LIST_HEAD (list : α) (s : Heap α) : Heap α := (s.set_next list list).set_prev list list

/-- `__list_add(new, prev, next)`. -/
def __list_add (new prev next : α) (s : Heap α) : Heap α :=
  (((s.set_prev next new).set_next new next).set_prev new prev).set_next prev new

/-- `list_add(new, head)`. -/
def list_add (new head : α) (s : Heap α) : Heap α := __list_add new head (s.next head) s

/-- `list_add_tail(new, head)`. -/
def list_add_tail (new head : α) (s : Heap α) : Heap α := __list_add new (s.prev head) head s

/-- `__list_del(prev, next)`. -/
def __list_del (prev next : α) (s : Heap α) : Heap α := (s.set_prev next prev).set_next prev next

/-- `__list_del_entry(entry)`. -/
def __list_del_entry (entry : α) (s : Heap α) : Heap α :=
  __list_del (s.prev entry) (s.next entry) s

/-- `LIST_POISON1` and `LIST_POISON2`. -/
structure Poison (α : Type) where
  LIST_POISON1 : α
  LIST_POISON2 : α

/-- `list_del(entry)`. -/
def list_del (poison : Poison α) (entry : α) (s : Heap α) : Heap α :=
  ((__list_del (s.prev entry) (s.next entry) s).set_next entry poison.LIST_POISON1).set_prev
    entry poison.LIST_POISON2

/-- `list_replace(old, new)`. -/
def list_replace (old new : α) (s : Heap α) : Heap α :=
  let s := s.set_next new (s.next old)
  let s := s.set_prev (s.next new) new
  let s := s.set_prev new (s.prev old)
  s.set_next (s.prev new) new

/-- `list_replace_init(old, new)`. -/
def list_replace_init (old new : α) (s : Heap α) : Heap α :=
  INIT_LIST_HEAD old (list_replace old new s)

/-- `list_del_init(entry)`. -/
def list_del_init (entry : α) (s : Heap α) : Heap α :=
  INIT_LIST_HEAD entry (__list_del_entry entry s)

/-- `list_move(list, head)`. -/
def list_move (list head : α) (s : Heap α) : Heap α :=
  list_add list head (__list_del_entry list s)

/-- `list_move_tail(list, head)`. -/
def list_move_tail (list head : α) (s : Heap α) : Heap α :=
  list_add_tail list head (__list_del_entry list s)

/-- `list_is_last(list, head)`. -/
def list_is_last (list head : α) (s : Heap α) : Bool := s.next list = head

/-- `list_empty(head)`. -/
def list_empty (head : α) (s : Heap α) : Bool := s.next head = head

/-- `list_empty_careful(head)`. -/
def list_empty_careful (head : α) (s : Heap α) : Bool :=
  s.next head = head ∧ s.next head = s.prev head

/-- `list_rotate_left(head)`. -/
def list_rotate_left (head : α) (s : Heap α) : Heap α :=
  if list_empty head s then s else list_move_tail (s.next head) head s

/-- `list_is_singular(head)`. -/
def list_is_singular (head : α) (s : Heap α) : Bool :=
  list_empty head s = false ∧ s.next head = s.prev head

/-- `__list_cut_position(list, head, entry)`. -/
def __list_cut_position (list head entry : α) (s : Heap α) : Heap α :=
  let new_first := s.next entry
  let s := s.set_next list (s.next head)
  let s := s.set_prev (s.next list) list
  let s := s.set_prev list entry
  let s := s.set_next entry list
  let s := s.set_next head new_first
  s.set_prev new_first head

/-- `list_cut_position(list, head, entry)`. -/
def list_cut_position (list head entry : α) (s : Heap α) : Heap α :=
  if list_empty head s then s
  else if list_is_singular head s ∧ s.next head ≠ entry ∧ head ≠ entry then s
  else if entry = head then INIT_LIST_HEAD list s
  else __list_cut_position list head entry s

/-- `__list_splice(list, prev, next)`. -/
def __list_splice (list prev next : α) (s : Heap α) : Heap α :=
  let first := s.next list
  let last := s.prev list
  (((s.set_prev first prev).set_next prev first).set_next last next).set_prev next last

/-- `list_splice(list, head)`. -/
def list_splice (list head : α) (s : Heap α) : Heap α :=
  if list_empty list s then s else __list_splice list head (s.next head) s

/-- `list_splice_tail(list, head)`. -/
def list_splice_tail (list head : α) (s : Heap α) : Heap α :=
  if list_empty list s then s else __list_splice list (s.prev head) head s

/-- `list_splice_init(list, head)`. -/
def list_splice_init (list head : α) (s : Heap α) : Heap α :=
  if list_empty list s then s
  else INIT_LIST_HEAD list (__list_splice list head (s.next head) s)

/-- `list_splice_tail_init(list, head)`. -/
def list_splice_tail_init (list head : α) (s : Heap α) : Heap α :=
  if list_empty list s then s
  else INIT_LIST_HEAD list (__list_splice list (s.prev head) head s)

end Functions

/-! ### What each function does -/

section Specs

variable {α : Type} [DecidableEq α] {s : Heap α} {h g n e x : α} {l m p q : List α}

theorem INIT_LIST_HEAD_spec (h : α) : Spec (INIT_LIST_HEAD h) [.stray h] [.ring h []] := by
  refine Pieces.Spec.one (N := [h]) rfl (.refl _) fun s _ _ => ⟨?_, link_way s h h⟩
  exact (Touches.refl _ s).link (List.mem_singleton_self h) (List.mem_singleton_self h)

/-- Between the first node of a ring and what is behind it. -/
theorem list_add_spec (n h : α) (l : List α) :
    Spec (list_add n h) [.stray n, .ring h l] [.ring h (n :: l)] := by
  refine Pieces.Spec.one (N := n :: h :: l) (by simp) (List.Perm.swap h n l)
    fun s hnodup hthere => ?_
  have hring : C.Ring s h l := hthere (.ring h l) (by simp)
  obtain ⟨hn, hnodup⟩ := List.nodup_cons.mp hnodup
  obtain ⟨hh, hl⟩ := List.nodup_cons.mp hnodup
  obtain ⟨hnh, hnl⟩ := List.ne_and_not_mem_of_not_mem_cons hn
  have hadd : list_add n h s = (s.link n (l.headD h)).link h n := by
    rw [list_add, hring.next]
    rfl
  rw [hadd]
  constructor
  · refine ((Touches.refl _ s).link (List.mem_cons_self ..) ?_).link (by simp)
      (List.mem_cons_self ..)
    exact List.mem_cons_of_mem _ (headD_mem l h)
  · have hfront := Way.relink_front hring hl hnl hh
    have hlink := link_way (s.link n (l.headD h)) h n
    refine ⟨hlink.1, hlink.2, hfront.frame ?_ hn⟩
    rw [List.mem_cons, not_or]
    exact ⟨Ne.symm hnh, hh⟩

theorem list_add_tail_spec (n h : α) (l : List α) :
    Spec (list_add_tail n h) [.stray n, .ring h l] [.ring h (l ++ [n])] := by
  -- in front of the head is behind the last entry
  have hadd : ∀ s, Holds s [.stray n, .ring h l] →
      list_add_tail n h s = list_add n (l.getLastD h) s := by
    intro s hs
    have hring : C.Ring s h l := hs.there (.ring h l) (by simp)
    rw [list_add_tail, list_add, hring.prev, hring.next_last]
  refine Pieces.Spec.congr ?_ hadd
  rcases List.eq_nil_or_concat l with rfl | ⟨p, w, rfl⟩
  · exact list_add_spec n h []
  · rw [List.concat_eq_append, List.getLastD_concat, List.append_assoc]
    exact (((spec_rotate h w p []).behind [.stray n]).comp (list_add_spec n w (h :: p))).comp
      (spec_rotate w h [n] p)

/-- The first entry of a ring. -/
theorem list_del_first_spec (h e : α) (l : List α) :
    Spec (__list_del_entry e) [.ring h (e :: l)] [.stray e, .ring h l] := by
  have hnodes : (rings α).all [.ring h (e :: l)] = h :: e :: l := by simp
  have hnodes' : (rings α).all [.stray e, .ring h l] = e :: h :: l := by simp
  have hdel : ∀ s, Holds s [.ring h (e :: l)] →
      C.Ring s h (e :: l) ∧ __list_del_entry e s = s.link h (l.headD h) := by
    intro s hs
    have hring : C.Ring s h (e :: l) := hs.there (.ring h (e :: l)) (List.mem_singleton_self _)
    have hnext := Way.next hring.2.2
    refine ⟨hring, ?_⟩
    rw [__list_del_entry, hnext, hring.2.1]
    rfl
  refine ⟨?_, fun s hs => ?_, fun s hs p hp => ?_⟩
  · rw [hnodes, hnodes']
    exact List.Perm.swap e h l
  · rw [(hdel s hs).2, hnodes]
    refine (Touches.refl _ s).link (List.mem_cons_self ..) ?_
    rcases List.mem_cons.mp (headD_mem l h) with hx | hx
    · rw [hx]
      exact List.mem_cons_self ..
    · exact List.mem_cons_of_mem _ (List.mem_cons_of_mem _ hx)
  · have hnodup := hs.nodup
    rw [hnodes] at hnodup
    obtain ⟨hh, hnodup⟩ := List.nodup_cons.mp hnodup
    have hhl := (List.ne_and_not_mem_of_not_mem_cons hh).2
    rw [List.mem_cons, List.mem_singleton] at hp
    rcases hp with rfl | rfl
    · trivial
    · rw [(hdel s hs).2]
      exact Way.relink_front (hdel s hs).1.2.2 (List.nodup_cons.mp hnodup).2 hhl hhl

/-- **Any entry** of a ring. -/
theorem list_del_entry_spec (h e : α) (p q : List α) :
    Spec (__list_del_entry e) [.ring h (p ++ e :: q)] [.stray e, .ring h (p ++ q)] := by
  rcases List.eq_nil_or_concat p with rfl | ⟨p, w, rfl⟩
  · exact list_del_first_spec h e q
  · rw [List.concat_eq_append, List.append_assoc, List.append_assoc]
    exact ((spec_rotate h w p (e :: q)).comp (list_del_first_spec w e (q ++ h :: p))).comp
      ((spec_rotate w h q p).behind [.stray e])

/-- A node in no list, that has been initialised: only it is written. -/
theorem list_del_entry_alone_spec (e : α) : Spec (__list_del_entry e) [.ring e []] [.stray e] := by
  have hwrite : Spec (fun s => (s.set_prev e e).set_next e e) [.stray e] [.stray e] :=
    spec_stray fun s => ((Touches.refl _ s).set_prev (List.mem_singleton_self e) _).set_next
      (List.mem_singleton_self e) _
  refine ((spec_forget e []).comp hwrite).congr fun s hs => ?_
  have hring : C.Ring s e [] := hs.there (.ring e []) (List.mem_singleton_self _)
  rw [__list_del_entry, hring.1, hring.2]
  rfl

theorem list_del_spec (poison : Poison α) (h e : α) (p q : List α) :
    Spec (list_del poison e) [.ring h (p ++ e :: q)] [.stray e, .ring h (p ++ q)] := by
  refine (list_del_entry_spec h e p q).comp (Pieces.Spec.more (spec_stray fun s => ?_) [.ring h (p ++ q)])
    (g := fun s => (s.set_next e poison.LIST_POISON1).set_prev e poison.LIST_POISON2)
  exact ((Touches.refl _ s).set_next (List.mem_singleton_self e) _).set_prev
    (List.mem_singleton_self e) _

theorem list_del_alone_spec (poison : Poison α) (e : α) :
    Spec (list_del poison e) [.ring e []] [.stray e] := by
  refine (list_del_entry_alone_spec e).comp (spec_stray fun s => ?_)
    (g := fun s => (s.set_next e poison.LIST_POISON1).set_prev e poison.LIST_POISON2)
  exact ((Touches.refl _ s).set_next (List.mem_singleton_self e) _).set_prev
    (List.mem_singleton_self e) _

theorem list_del_init_alone_spec (e : α) : Spec (list_del_init e) [.ring e []] [.ring e []] :=
  (list_del_entry_alone_spec e).comp (INIT_LIST_HEAD_spec e)

theorem list_del_init_spec (h e : α) (p q : List α) :
    Spec (list_del_init e) [.ring h (p ++ e :: q)] [.ring e [], .ring h (p ++ q)] :=
  (list_del_entry_spec h e p q).comp ((INIT_LIST_HEAD_spec e).more [.ring h (p ++ q)])

/-- The first node of a ring is replaced, when there are others. -/
theorem list_replace_head_spec (old new : α) (l : List α) :
    Spec (list_replace old new) [.ring old l, .stray new] [.ring new l, .stray old] := by
  have hnodes : (rings α).all [.ring old l, .stray new] = old :: (l ++ [new]) := by
    simp
  have hnodes' : (rings α).all [.ring new l, .stray old] = new :: (l ++ [old]) := by
    simp
  have hreplace : ∀ s, Holds s [.ring old l, .stray new] →
      C.Ring (list_replace old new s) new l ∧
        Touches (old :: (l ++ [new])) s (list_replace old new s) := by
    intro s hs
    have hring : C.Ring s old l := hs.there (.ring old l) (List.mem_cons_self ..)
    have hnodup := hs.nodup
    rw [hnodes] at hnodup
    obtain ⟨hold, hnodup⟩ := List.nodup_cons.mp hnodup
    obtain ⟨hl, -, hdisj⟩ := List.nodup_append.mp hnodup
    have hnew : new ∉ l := fun h => hdisj new h new (List.mem_singleton_self _) rfl
    have holdl : old ∉ l := fun h => hold (List.mem_append_left _ h)
    have hne : old ≠ new := fun h => hold (by rw [h]; simp)
    have hmem : new ∈ old :: (l ++ [new]) := by simp
    cases l with
    | nil =>
      have hreplace : list_replace old new s = (((s.set_next new old).set_prev old new).set_prev
          new new).set_next new new := by
        simp [list_replace, hring.1]
      rw [hreplace]
      refine ⟨by simp [C.Ring, way_nil], ?_⟩
      exact ((((Touches.refl _ s).set_next hmem _).set_prev (List.mem_cons_self ..) _).set_prev
        hmem _).set_next hmem _
    | cons x l =>
      have hprev := hring.prev
      have hxold : old ≠ x := fun h => holdl (h ▸ List.mem_cons_self ..)
      have hfirst : (s.set_next new x).next new = x := by simp
      have hlast : (s.link new x).prev old = (x :: l).getLastD old := by
        rw [link_prev, if_neg hxold, hprev]
      have hback : ((s.link new x).set_prev new ((x :: l).getLastD old)).prev new =
          (x :: l).getLastD old := by simp
      have hreplace : list_replace old new s =
          (s.link new x).link ((x :: l).getLastD old) new := by
        simp only [list_replace, hring.1, hfirst]
        show ((s.link new x).set_prev new ((s.link new x).prev old)).set_next
          (((s.link new x).set_prev new ((s.link new x).prev old)).prev new) new = _
        rw [hlast, hback]
        rfl
      rw [hreplace]
      constructor
      · have hfront := Way.relink_front (a := new) hring hl hnew holdl
        have hend := hfront.relink_back (b := new) (List.nodup_cons.mpr ⟨hnew, hl⟩) hnew
        rwa [List.getLastD_cons] at hend ⊢
      · refine ((Touches.refl _ s).link hmem (by simp)).link ?_ hmem
        rw [List.getLastD_cons]
        exact List.mem_cons_of_mem _ (List.mem_append_left _ (getLastD_mem l x))
  refine ⟨?_, fun s hs => ?_, fun s hs p hp => ?_⟩
  · rw [hnodes, hnodes']
    refine List.Perm.trans ?_ (@List.perm_append_comm _ (l ++ [old]) [new])
    refine List.Perm.trans (@List.perm_append_comm _ [old] (l ++ [new])) ?_
    rw [List.append_assoc, List.append_assoc]
    exact List.perm_append_comm.append_left l
  · rw [hnodes]
    exact (hreplace s hs).2
  · rw [List.mem_cons, List.mem_singleton] at hp
    rcases hp with rfl | rfl
    · exact (hreplace s hs).1
    · trivial

/-- **A node of a ring** is replaced, be it the head or an entry. -/
theorem list_replace_spec (h old new : α) (p q : List α) :
    Spec (list_replace old new) [.ring h (p ++ old :: q), .stray new]
      [.ring h (p ++ new :: q), .stray old] :=
  (((spec_rotate h old p q).more [.stray new]).comp
    (list_replace_head_spec old new (q ++ h :: p))).comp
      ((spec_rotate new h q p).more [.stray old])

theorem list_replace_init_spec (h old new : α) (p q : List α) :
    Spec (list_replace_init old new) [.ring h (p ++ old :: q), .stray new]
      [.ring h (p ++ new :: q), .ring old []] :=
  (list_replace_spec h old new p q).comp ((INIT_LIST_HEAD_spec old).behind [.ring h (p ++ new :: q)])

theorem list_replace_init_head_spec (old new : α) (l : List α) :
    Spec (list_replace_init old new) [.ring old l, .stray new] [.ring new l, .ring old []] :=
  (list_replace_head_spec old new l).comp ((INIT_LIST_HEAD_spec old).behind [.ring new l])

/-- With the ring the entry is going to. -/
theorem list_del_entry_beside (h e g : α) (p q m : List α) :
    Spec (__list_del_entry e) [.ring h (p ++ e :: q), .ring g m]
      [.ring h (p ++ q), .stray e, .ring g m] :=
  ((list_del_entry_spec h e p q).more [.ring g m]).perm (.refl _) (List.Perm.swap ..)

/-- To the front of another ring. -/
theorem list_move_spec (h e g : α) (p q m : List α) :
    Spec (list_move e g) [.ring h (p ++ e :: q), .ring g m] [.ring h (p ++ q), .ring g (e :: m)] :=
  (list_del_entry_beside h e g p q m).comp ((list_add_spec e g m).behind [.ring h (p ++ q)])

/-- To the front of its own. -/
theorem list_move_own_spec (h e : α) (p q : List α) :
    Spec (list_move e h) [.ring h (p ++ e :: q)] [.ring h (e :: (p ++ q))] :=
  (list_del_entry_spec h e p q).comp (list_add_spec e h (p ++ q))

/-- From no list. -/
theorem list_move_alone_spec (e g : α) (m : List α) :
    Spec (list_move e g) [.ring e [], .ring g m] [.ring g (e :: m)] :=
  ((list_del_entry_alone_spec e).more [.ring g m]).comp (list_add_spec e g m)

theorem list_move_tail_alone_spec (e g : α) (m : List α) :
    Spec (list_move_tail e g) [.ring e [], .ring g m] [.ring g (m ++ [e])] :=
  ((list_del_entry_alone_spec e).more [.ring g m]).comp (list_add_tail_spec e g m)

theorem list_move_tail_spec (h e g : α) (p q m : List α) :
    Spec (list_move_tail e g) [.ring h (p ++ e :: q), .ring g m]
      [.ring h (p ++ q), .ring g (m ++ [e])] :=
  (list_del_entry_beside h e g p q m).comp ((list_add_tail_spec e g m).behind [.ring h (p ++ q)])

theorem list_move_tail_own_spec (h e : α) (p q : List α) :
    Spec (list_move_tail e h) [.ring h (p ++ e :: q)] [.ring h (p ++ q ++ [e])] :=
  (list_del_entry_spec h e p q).comp (list_add_tail_spec e h (p ++ q))

/-! ### Looking at a list -/

theorem list_empty_iff (hs : C.Ring s h l) (hh : h ∉ l) : list_empty h s = true ↔ l = [] := by
  rw [list_empty, decide_eq_true_iff, hs.next]
  cases l with
  | nil => exact iff_of_true rfl rfl
  | cons x l =>
    exact iff_of_false (fun he => hh (he ▸ List.mem_cons_self ..)) (List.cons_ne_nil x l)

theorem list_is_singular_iff (hs : C.Ring s h l) (hl : (h :: l).Nodup) :
    list_is_singular h s = true ↔ ∃ x, l = [x] := by
  obtain ⟨hh, hl⟩ := List.nodup_cons.mp hl
  have hempty := list_empty_iff hs hh
  rw [list_is_singular, decide_eq_true_iff, hs.next, hs.prev]
  cases l with
  | nil =>
    refine iff_of_false (fun hc => ?_) fun ⟨x, hx⟩ => by cases hx
    rw [hempty.mpr rfl] at hc
    cases hc.1
  | cons x l =>
    have hne : list_empty h s = false := by
      rw [← Bool.not_eq_true, hempty]
      exact List.cons_ne_nil x l
    rw [and_iff_right hne, List.getLastD_cons]
    show x = l.getLastD x ↔ _
    rcases List.eq_nil_or_concat l with rfl | ⟨p, w, rfl⟩
    · exact iff_of_true rfl ⟨x, rfl⟩
    · rw [List.concat_eq_append, List.getLastD_concat]
      rw [List.concat_eq_append] at hl
      refine iff_of_false (fun he => ?_) fun ⟨y, hy⟩ => by simp at hy
      exact (List.nodup_cons.mp hl).1 (by rw [he]; simp)

theorem list_empty_careful_iff (hs : C.Ring s h l) (hh : h ∉ l) :
    list_empty_careful h s = true ↔ l = [] := by
  rw [← list_empty_iff hs hh, list_empty_careful, list_empty, decide_eq_true_iff,
    decide_eq_true_iff, hs.next, hs.prev]
  refine and_iff_left_of_imp fun he => ?_
  cases l with
  | nil => rfl
  | cons x l => exact absurd (he ▸ List.mem_cons_self ..) hh

theorem list_is_last_iff (hs : C.Ring s h (p ++ e :: q)) (hl : (h :: (p ++ e :: q)).Nodup) :
    list_is_last e h s = true ↔ q = [] := by
  have hway := (way_append.mp hs).2
  rw [list_is_last, decide_eq_true_iff, hway.next]
  cases q with
  | nil => exact iff_of_true rfl rfl
  | cons x q =>
    refine iff_of_false (fun he => (List.nodup_cons.mp hl).1 ?_) (List.cons_ne_nil x q)
    obtain rfl : x = h := he
    simp

/-- The first entry becomes the last one. -/
theorem list_rotate_left_spec (h x : α) (l : List α) :
    Spec (list_rotate_left h) [.ring h (x :: l)] [.ring h (l ++ [x])] := by
  refine (list_move_tail_own_spec h x [] l).congr fun s hs => ?_
  have hring : C.Ring s h (x :: l) := hs.there (.ring h (x :: l)) (List.mem_singleton_self _)
  have hnodup : (h :: x :: l).Nodup := by simpa using hs.nodup
  have hempty := list_empty_iff hring (List.nodup_cons.mp hnodup).1
  rw [list_rotate_left, if_neg (mt hempty.mp (List.cons_ne_nil x l)), hring.1]

theorem list_rotate_left_nil_spec (h : α) :
    Spec (list_rotate_left h) [.ring h []] [.ring h []] := by
  refine (Pieces.Spec.id _).congr fun s hs => ?_
  have hring : C.Ring s h [] := hs.there (.ring h []) (List.mem_singleton_self _)
  rw [list_rotate_left, if_pos ((list_empty_iff hring (by simp)).mpr rfl)]

/-! ### Cutting and splicing -/

/-- **The entries up to `e`** become a list of their own. -/
theorem cut_position_spec (k h e : α) (p q : List α) :
    Spec (__list_cut_position k h e) [.stray k, .ring h (p ++ e :: q)]
      [.ring k (p ++ [e]), .ring h q] := by
  have hnodes : (rings α).all [.stray k, .ring h (p ++ e :: q)] = k :: h :: (p ++ e :: q) := by
    simp
  have hnodes' : (rings α).all [.ring k (p ++ [e]), .ring h q] = k :: (p ++ [e] ++ h :: q) := by
    simp
  have hcut : ∀ s, Holds s [.stray k, .ring h (p ++ e :: q)] →
      C.Ring s h (p ++ e :: q) ∧ __list_cut_position k h e s =
        ((s.link k (p.headD e)).link e k).link h (q.headD h) := by
    intro s hs
    have hring : C.Ring s h (p ++ e :: q) := hs.there (.ring h (p ++ e :: q)) (by simp)
    obtain ⟨hfront, hback⟩ := way_append.mp hring
    have hfirst : (s.set_next k (p.headD e)).next k = p.headD e := by simp
    refine ⟨hring, ?_⟩
    simp only [__list_cut_position, hfront.next, hback.next, hfirst]
    rfl
  have hdiff : ∀ s, Holds s [.stray k, .ring h (p ++ e :: q)] →
      (k ≠ h ∧ k ≠ e ∧ h ≠ e) ∧ (k ∉ p ∧ h ∉ p ∧ e ∉ p) ∧ (k ∉ q ∧ h ∉ q ∧ e ∉ q) ∧
        p.Nodup ∧ q.Nodup ∧ ∀ x ∈ p, x ∉ q := by
    intro s hs
    have hnodup := hs.nodup
    rw [hnodes] at hnodup
    simp only [List.nodup_cons, List.mem_cons, List.mem_append, List.nodup_append, not_or] at hnodup
    grind
  refine ⟨?_, fun s hs => ?_, fun s hs r hr => ?_⟩
  · have hsplit : p ++ e :: q = (p ++ [e]) ++ q := by simp
    rw [hnodes, hnodes', hsplit]
    exact List.perm_middle.symm.cons k
  · rw [(hcut s hs).2, hnodes]
    have hp : p.headD e ∈ k :: h :: (p ++ e :: q) := by
      have := headD_mem p e
      grind
    have hq : q.headD h ∈ k :: h :: (p ++ e :: q) := by
      have := headD_mem q h
      grind
    exact (((Touches.refl _ s).link (by simp) hp).link (by simp) (by simp)).link (by simp) hq
  · obtain ⟨⟨hkh, hke, hhe⟩, ⟨hkp, hhp, hep⟩, ⟨hkq, hhq, heq⟩, hpn, hqn, hpq⟩ := hdiff s hs
    obtain ⟨hring, hcut⟩ := hcut s hs
    obtain ⟨hfront, hback⟩ := way_append.mp hring
    have hp := headD_mem p e
    have hq := headD_mem q h
    rw [hcut]
    rw [List.mem_cons, List.mem_singleton] at hr
    rcases hr with rfl | rfl
    · have hway := ((hfront.relink_front hpn hkp hep).frame (a := e) (b := k) (by grind)
        (by grind)).frame (a := h) (b := q.headD h) (by grind) (by grind)
      have hend := (link_way (s.link k (p.headD e)) e k).frame (a := h) (b := q.headD h) (by grind)
        (by grind)
      exact way_append.mpr ⟨hway, hend⟩
    · have htail := fun x => List.mem_of_mem_tail (a := x) (l := q)
      have hrest := (hback.rest.frame (a := k) (b := p.headD e) hkq (by grind)).frame
        (a := e) (b := k) heq (by grind)
      exact hrest.attach hqn hhq hhq

theorem list_cut_position_spec (k h e : α) (p q : List α) :
    Spec (list_cut_position k h e) [.stray k, .ring h (p ++ e :: q)]
      [.ring k (p ++ [e]), .ring h q] := by
  refine (cut_position_spec k h e p q).congr fun s hs => ?_
  have hring : C.Ring s h (p ++ e :: q) := hs.there (.ring h (p ++ e :: q)) (by simp)
  have hnodup : (k :: h :: (p ++ e :: q)).Nodup := by simpa using hs.nodup
  have hnodup' := (List.nodup_cons.mp hnodup).2
  have hempty := list_empty_iff hring (List.nodup_cons.mp hnodup').1
  have hsingle := list_is_singular_iff hring hnodup'
  have heh : e ≠ h := by
    rintro rfl
    exact (List.nodup_cons.mp hnodup').1 (by simp)
  rw [list_cut_position, if_neg (mt hempty.mp (by simp)), if_neg, if_neg heh]
  rintro ⟨hone, hne, -⟩
  obtain ⟨x, hx⟩ := hsingle.mp hone
  rw [hring.next] at hne
  cases p with
  | nil => exact hne rfl
  | cons y p => simp at hx

/-- Nothing before the first entry is cut off. -/
theorem list_cut_position_head_spec (k h x : α) (l : List α) :
    Spec (list_cut_position k h h) [.stray k, .ring h (x :: l)] [.ring k [], .ring h (x :: l)] := by
  refine ((INIT_LIST_HEAD_spec k).more [.ring h (x :: l)]).congr fun s hs => ?_
  have hring : C.Ring s h (x :: l) := hs.there (.ring h (x :: l)) (by simp)
  have hnodup : (k :: h :: x :: l).Nodup := by simpa using hs.nodup
  have hempty := list_empty_iff hring (List.nodup_cons.mp (List.nodup_cons.mp hnodup).2).1
  rw [list_cut_position, if_neg (mt hempty.mp (List.cons_ne_nil x l)),
    if_neg (fun hc => hc.2.2 rfl), if_pos rfl]

/-- Of an empty list nothing is cut off, and `list` is not written. -/
theorem list_cut_position_nil_spec (k h e : α) :
    Spec (list_cut_position k h e) [.stray k, .ring h []] [.stray k, .ring h []] := by
  refine (Pieces.Spec.id _).congr fun s hs => ?_
  have hring : C.Ring s h [] := hs.there (.ring h []) (by simp)
  rw [list_cut_position, if_pos ((list_empty_iff hring (by simp)).mpr rfl)]

/-- **The entries of a list** are put in front of those of another. -/
theorem splice_spec (k x h : α) (l m : List α) :
    Spec (fun s => __list_splice k h (s.next h) s) [.ring k (x :: l), .ring h m]
      [.stray k, .ring h (x :: l ++ m)] := by
  have hnodes : (rings α).all [.ring k (x :: l), .ring h m] = k :: (x :: l ++ h :: m) := by
    simp
  have hnodes' : (rings α).all [.stray k, .ring h (x :: l ++ m)] = k :: h :: (x :: l ++ m) := by
    simp
  have hsplice : ∀ s, Holds s [.ring k (x :: l), .ring h m] →
      C.Ring s k (x :: l) ∧ C.Ring s h m ∧ __list_splice k h (s.next h) s =
        (s.link h x).link (l.getLastD x) (m.headD h) := by
    intro s hs
    have hring : C.Ring s k (x :: l) := hs.there (.ring k (x :: l)) (by simp)
    have hring' : C.Ring s h m := hs.there (.ring h m) (by simp)
    refine ⟨hring, hring', ?_⟩
    rw [__list_splice, hring.prev, hring.1, hring'.next, List.getLastD_cons]
    rfl
  have hdiff : ∀ s, Holds s [.ring k (x :: l), .ring h m] →
      (k ≠ h ∧ k ≠ x ∧ h ≠ x) ∧ (k ∉ l ∧ h ∉ l ∧ x ∉ l) ∧ (k ∉ m ∧ h ∉ m ∧ x ∉ m) ∧
        l.Nodup ∧ m.Nodup ∧ ∀ y ∈ l, y ∉ m := by
    intro s hs
    have hnodup := hs.nodup
    rw [hnodes] at hnodup
    simp only [List.nodup_cons, List.mem_cons, List.mem_append, List.nodup_append, List.cons_append,
      not_or] at hnodup
    grind
  refine ⟨?_, fun s hs => ?_, fun s hs r hr => ?_⟩
  · rw [hnodes, hnodes']
    exact List.perm_middle.cons k
  · have hz := getLastD_mem l x
    have hb := headD_mem m h
    rw [(hsplice s hs).2.2, hnodes]
    exact ((Touches.refl _ s).link (by simp) (by simp)).link (by grind) (by grind)
  · obtain ⟨⟨hkh, hkx, hhx⟩, ⟨hkl, hhl, hxl⟩, ⟨hkm, hhm, hxm⟩, hln, hmn, hlm⟩ := hdiff s hs
    obtain ⟨hring, hring', hsplice⟩ := hsplice s hs
    have hz := getLastD_mem l x
    have hb := headD_mem m h
    have htail := fun x => List.mem_of_mem_tail (a := x) (l := m)
    rw [List.mem_cons, List.mem_singleton] at hr
    rcases hr with rfl | rfl
    · trivial
    show C.Ring (__list_splice k h (s.next h) s) h (x :: l ++ m)
    rw [hsplice]
    have hback : Way ((s.link h x).link (l.getLastD x) (m.headD h)) x l (m.headD h) :=
      (Way.frame hring.2.2 (by grind) (by grind)).relink_back (List.nodup_cons.mpr ⟨hxl, hln⟩)
        (by grind)
    have hfront := (link_way s h x).frame (a := l.getLastD x) (b := m.headD h) (by grind) (by grind)
    have hrest : Rest ((s.link h x).link (l.getLastD x) (m.headD h)) m h := by
      cases m with
      | nil => exact fun y t he => by cases he
      | cons y m =>
        exact (hring'.rest.frame (a := h) (b := x) hhm (by grind)).frame (by grind) (by grind)
    exact Way.append_rest (l := x :: l) ⟨hfront.1, hfront.2, hback⟩ hrest

theorem not_empty {k : α} (hs : Holds s [.ring k (x :: l), .ring h m]) :
    ¬ list_empty k s = true := by
  have hring : C.Ring s k (x :: l) := hs.there (.ring k (x :: l)) (List.mem_cons_self ..)
  have hnodup : (k :: x :: l).Nodup :=
    List.Nodup.of_append_left (by simpa using hs.nodup : ((k :: x :: l) ++ (h :: m)).Nodup)
  exact mt (list_empty_iff hring (List.nodup_cons.mp hnodup).1).mp (List.cons_ne_nil x l)

theorem list_splice_spec (k x h : α) (l m : List α) :
    Spec (list_splice k h) [.ring k (x :: l), .ring h m] [.stray k, .ring h (x :: l ++ m)] := by
  refine (splice_spec k x h l m).congr fun s hs => ?_
  rw [list_splice, if_neg (not_empty hs)]

theorem list_splice_init_spec (k x h : α) (l m : List α) :
    Spec (list_splice_init k h) [.ring k (x :: l), .ring h m] [.ring k [], .ring h (x :: l ++ m)] := by
  refine ((splice_spec k x h l m).comp
    ((INIT_LIST_HEAD_spec k).more [.ring h (x :: l ++ m)])).congr fun s hs => ?_
  rw [list_splice_init, if_neg (not_empty hs)]

/-- Behind the last entry is in front of the head. -/
theorem splice_tail_spec (k x h : α) (l m : List α) :
    Spec (fun s => __list_splice k (s.prev h) h s) [.ring k (x :: l), .ring h m]
      [.stray k, .ring h (m ++ (x :: l))] := by
  have hsplice : ∀ s, Holds s [.ring k (x :: l), .ring h m] → __list_splice k (s.prev h) h s =
      __list_splice k (m.getLastD h) (s.next (m.getLastD h)) s := by
    intro s hs
    have hring : C.Ring s h m := hs.there (.ring h m) (by simp)
    rw [hring.prev, hring.next_last]
  refine Pieces.Spec.congr ?_ hsplice
  rcases List.eq_nil_or_concat m with rfl | ⟨p, w, rfl⟩
  · have hspec := splice_spec k x h l []
    rwa [List.append_nil] at hspec
  · rw [List.concat_eq_append, List.getLastD_concat, List.append_assoc]
    exact (((spec_rotate h w p []).behind [.ring k (x :: l)]).comp
      (splice_spec k x w l (h :: p))).comp ((spec_rotate w h (x :: l) p).behind [.stray k])

theorem list_splice_tail_spec (k x h : α) (l m : List α) :
    Spec (list_splice_tail k h) [.ring k (x :: l), .ring h m]
      [.stray k, .ring h (m ++ (x :: l))] := by
  refine (splice_tail_spec k x h l m).congr fun s hs => ?_
  rw [list_splice_tail, if_neg (not_empty hs)]

theorem list_splice_tail_init_spec (k x h : α) (l m : List α) :
    Spec (list_splice_tail_init k h) [.ring k (x :: l), .ring h m]
      [.ring k [], .ring h (m ++ (x :: l))] := by
  refine ((splice_tail_spec k x h l m).comp
    ((INIT_LIST_HEAD_spec k).more [.ring h (m ++ (x :: l))])).congr fun s hs => ?_
  rw [list_splice_tail_init, if_neg (not_empty hs)]

/-- An empty list is spliced into nothing. -/
theorem splice_nil_spec {f : Heap α → Heap α} (k h : α) (m : List α)
    (hf : ∀ s, list_empty k s = true → f s = s) :
    Spec f [.ring k [], .ring h m] [.ring k [], .ring h m] := by
  refine (Pieces.Spec.id _).congr fun s hs => hf s ?_
  have hring : C.Ring s k [] := hs.there (.ring k []) (List.mem_cons_self ..)
  exact (list_empty_iff hring (by simp)).mpr rfl

end Specs

end Boxing.Linux
