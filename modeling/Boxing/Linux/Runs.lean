import Boxing.Linux.List

/-!
# Programs over lists

A program calls the functions of `list.h` one after the other.  `Does` says what each call makes of
the lists it is about, and where it may be called at all: a new entry is in no list, an entry that
is deleted is in one or has been initialised, and so on.  A head may be handed over uninitialised
only to `INIT_LIST_HEAD`, and to those that write both of its pointers; and there a program may as
well hand over one that it has done with (`Does.forget`).

From nodes about which nothing is known, every such program leaves the lists that `Does` counts up
(`run_holds`), and each of the loops of `list.h` sees them (`lists_of_run`).  A loop that moves the
entry it is at needs the safe form: `partition_safe`.
-/

namespace Boxing.Linux

open C

variable {α : Type} [DecidableEq α]

/-! ### Calls -/

/-- A call of a function that writes. -/
inductive Call (α : Type)
  | INIT_LIST_HEAD (list : α)
  | list_add (new head : α)
  | list_add_tail (new head : α)
  | list_del (entry : α)
  | list_del_init (entry : α)
  | list_replace (old new : α)
  | list_replace_init (old new : α)
  | list_move (list head : α)
  | list_move_tail (list head : α)
  | list_rotate_left (head : α)
  | list_cut_position (list head entry : α)
  | list_splice (list head : α)
  | list_splice_tail (list head : α)
  | list_splice_init (list head : α)
  | list_splice_tail_init (list head : α)

/-- What it does. -/
def Call.exec (poison : Poison α) : Call α → Heap α → Heap α
  | .INIT_LIST_HEAD list => Linux.INIT_LIST_HEAD list
  | .list_add new head => Linux.list_add new head
  | .list_add_tail new head => Linux.list_add_tail new head
  | .list_del entry => Linux.list_del poison entry
  | .list_del_init entry => Linux.list_del_init entry
  | .list_replace old new => Linux.list_replace old new
  | .list_replace_init old new => Linux.list_replace_init old new
  | .list_move list head => Linux.list_move list head
  | .list_move_tail list head => Linux.list_move_tail list head
  | .list_rotate_left head => Linux.list_rotate_left head
  | .list_cut_position list head entry => Linux.list_cut_position list head entry
  | .list_splice list head => Linux.list_splice list head
  | .list_splice_tail list head => Linux.list_splice_tail list head
  | .list_splice_init list head => Linux.list_splice_init list head
  | .list_splice_tail_init list head => Linux.list_splice_tail_init list head

/-- A program. -/
def exec_all (poison : Poison α) (cs : List (Call α)) (s : Heap α) : Heap α :=
  cs.foldl (fun s c => c.exec poison s) s

/-- What a call is for: the pieces it is about, and what becomes of them. -/
inductive Does : Call α → List (Piece α) → List (Piece α) → Prop
  | init (h : α) : Does (.INIT_LIST_HEAD h) [.stray h] [.ring h []]
  | add (n h : α) (l : List α) :
      Does (.list_add n h) [.stray n, .ring h l] [.ring h (n :: l)]
  | add_tail (n h : α) (l : List α) :
      Does (.list_add_tail n h) [.stray n, .ring h l] [.ring h (l ++ [n])]
  | del (h e : α) (p q : List α) :
      Does (.list_del e) [.ring h (p ++ e :: q)] [.stray e, .ring h (p ++ q)]
  | del_init (h e : α) (p q : List α) :
      Does (.list_del_init e) [.ring h (p ++ e :: q)] [.ring e [], .ring h (p ++ q)]
  | replace (h old new : α) (p q : List α) :
      Does (.list_replace old new) [.ring h (p ++ old :: q), .stray new]
        [.ring h (p ++ new :: q), .stray old]
  | replace_head (old new : α) (l : List α) :
      Does (.list_replace old new) [.ring old l, .stray new] [.ring new l, .stray old]
  | replace_init (h old new : α) (p q : List α) :
      Does (.list_replace_init old new) [.ring h (p ++ old :: q), .stray new]
        [.ring h (p ++ new :: q), .ring old []]
  | replace_init_head (old new : α) (l : List α) :
      Does (.list_replace_init old new) [.ring old l, .stray new] [.ring new l, .ring old []]
  | move (h e g : α) (p q m : List α) :
      Does (.list_move e g) [.ring h (p ++ e :: q), .ring g m] [.ring h (p ++ q), .ring g (e :: m)]
  | move_own (h e : α) (p q : List α) :
      Does (.list_move e h) [.ring h (p ++ e :: q)] [.ring h (e :: (p ++ q))]
  | move_tail (h e g : α) (p q m : List α) :
      Does (.list_move_tail e g) [.ring h (p ++ e :: q), .ring g m]
        [.ring h (p ++ q), .ring g (m ++ [e])]
  | move_tail_own (h e : α) (p q : List α) :
      Does (.list_move_tail e h) [.ring h (p ++ e :: q)] [.ring h (p ++ q ++ [e])]
  | rotate (h x : α) (l : List α) :
      Does (.list_rotate_left h) [.ring h (x :: l)] [.ring h (l ++ [x])]
  | rotate_nil (h : α) : Does (.list_rotate_left h) [.ring h []] [.ring h []]
  | cut (k h e : α) (p q : List α) :
      Does (.list_cut_position k h e) [.stray k, .ring h (p ++ e :: q)]
        [.ring k (p ++ [e]), .ring h q]
  | cut_head (k h x : α) (l : List α) :
      Does (.list_cut_position k h h) [.stray k, .ring h (x :: l)] [.ring k [], .ring h (x :: l)]
  | cut_nil (k h e : α) :
      Does (.list_cut_position k h e) [.stray k, .ring h []] [.stray k, .ring h []]
  | splice (k x h : α) (l m : List α) :
      Does (.list_splice k h) [.ring k (x :: l), .ring h m] [.stray k, .ring h (x :: l ++ m)]
  | splice_nil (k h : α) (m : List α) :
      Does (.list_splice k h) [.ring k [], .ring h m] [.ring k [], .ring h m]
  | splice_tail (k x h : α) (l m : List α) :
      Does (.list_splice_tail k h) [.ring k (x :: l), .ring h m]
        [.stray k, .ring h (m ++ (x :: l))]
  | splice_tail_nil (k h : α) (m : List α) :
      Does (.list_splice_tail k h) [.ring k [], .ring h m] [.ring k [], .ring h m]
  | splice_init (k h : α) (l m : List α) :
      Does (.list_splice_init k h) [.ring k l, .ring h m] [.ring k [], .ring h (l ++ m)]
  | splice_tail_init (k h : α) (l m : List α) :
      Does (.list_splice_tail_init k h) [.ring k l, .ring h m] [.ring k [], .ring h (m ++ l)]
  | del_alone (e : α) : Does (.list_del e) [.ring e []] [.stray e]
  | del_init_alone (e : α) : Does (.list_del_init e) [.ring e []] [.ring e []]
  | move_alone (e g : α) (m : List α) :
      Does (.list_move e g) [.ring e [], .ring g m] [.ring g (e :: m)]
  | move_tail_alone (e g : α) (m : List α) :
      Does (.list_move_tail e g) [.ring e [], .ring g m] [.ring g (m ++ [e])]
  -- a list that is not needed any more: its head and its entries are nodes like others
  | forget {c : Call α} {P P' Q : List (Piece α)} (h : α) (l : List α)
      (hd : Does c (P ++ (.stray h :: l.map .stray) ++ P') Q) : Does c (P ++ [.ring h l] ++ P') Q

variable {poison : Poison α} {c : Call α} {P Q R R' : List (Piece α)} {cs : List (Call α)}
  {s : Heap α} {h g x : α} {l m d : List α}

/-- **Every call does what it is for.** -/
theorem Does.spec (hd : Does c P Q) : Spec (c.exec poison) P Q := by
  induction hd with
  | init h => exact INIT_LIST_HEAD_spec h
  | add n h l => exact list_add_spec n h l
  | add_tail n h l => exact list_add_tail_spec n h l
  | del h e p q => exact list_del_spec poison h e p q
  | del_init h e p q => exact list_del_init_spec h e p q
  | replace h old new p q => exact list_replace_spec h old new p q
  | replace_head old new l => exact list_replace_head_spec old new l
  | replace_init h old new p q => exact list_replace_init_spec h old new p q
  | replace_init_head old new l => exact list_replace_init_head_spec old new l
  | move h e g p q m => exact list_move_spec h e g p q m
  | move_own h e p q => exact list_move_own_spec h e p q
  | move_tail h e g p q m => exact list_move_tail_spec h e g p q m
  | move_tail_own h e p q => exact list_move_tail_own_spec h e p q
  | rotate h x l => exact list_rotate_left_spec h x l
  | rotate_nil h => exact list_rotate_left_nil_spec h
  | cut k h e p q => exact list_cut_position_spec k h e p q
  | cut_head k h x l => exact list_cut_position_head_spec k h x l
  | cut_nil k h e => exact list_cut_position_nil_spec k h e
  | splice k x h l m => exact list_splice_spec k x h l m
  | splice_nil k h m => exact splice_nil_spec k h m fun s hs => if_pos hs
  | splice_tail k x h l m => exact list_splice_tail_spec k x h l m
  | splice_tail_nil k h m => exact splice_nil_spec k h m fun s hs => if_pos hs
  | splice_init k h l m =>
    cases l with
    | nil => exact splice_nil_spec k h m fun s hs => if_pos hs
    | cons x l => exact list_splice_init_spec k x h l m
  | splice_tail_init k h l m =>
    cases l with
    | nil =>
      rw [List.append_nil]
      exact splice_nil_spec k h m fun s hs => if_pos hs
    | cons x l => exact list_splice_tail_init_spec k x h l m
  | del_alone e => exact list_del_alone_spec poison e
  | del_init_alone e => exact list_del_init_alone_spec e
  | move_alone e g m => exact list_move_alone_spec e g m
  | move_tail_alone e g m => exact list_move_tail_alone_spec e g m
  | @forget c P P' Q h l _ ih => exact (((spec_forget h l).behind P).more P').comp ih

/-- A run of calls. -/
abbrev Runs (cs : List (Call α)) (R R' : List (Piece α)) : Prop := Pieces.Runs Does cs R R'

/-- **What a run leaves.** -/
theorem run_holds (poison : Poison α) (h : Runs cs R R') (hs : Holds s R) : Holds (exec_all poison cs s) R' :=
  Pieces.Runs.holds (fun hd => hd.spec) h hs

/-! ### Loops -/

/-- `list_for_each(pos, head)` from `pos` on: the entries it comes to. -/
def list_for_each (head : α) (s : Heap α) : Nat → α → Option (List α)
  | 0, _ => none
  | n + 1, pos =>
    if pos = head then some [] else (list_for_each head s n (s.next pos)).map (pos :: ·)

/-- `list_for_each_prev(pos, head)` from `pos` on. -/
def list_for_each_prev (head : α) (s : Heap α) : Nat → α → Option (List α)
  | 0, _ => none
  | n + 1, pos =>
    if pos = head then some [] else (list_for_each_prev head s n (s.prev pos)).map (pos :: ·)

theorem list_for_each_of_way {a : α} (hw : Way s a l h) (hh : h ∉ l) {n : Nat} (hn : l.length < n) :
    list_for_each h s n (s.next a) = some l := by
  induction l generalizing a n with
  | nil =>
    obtain ⟨n, rfl⟩ := Nat.exists_eq_add_one_of_ne_zero (Nat.ne_zero_of_lt hn)
    rw [list_for_each, if_pos hw.1]
  | cons y l ih =>
    obtain ⟨n, rfl⟩ := Nat.exists_eq_add_one_of_ne_zero (Nat.ne_zero_of_lt hn)
    obtain ⟨hhy, hhl⟩ := List.ne_and_not_mem_of_not_mem_cons hh
    rw [list_for_each, hw.1, if_neg (Ne.symm hhy), ih hw.2.2 hhl (Nat.lt_of_succ_lt_succ hn)]
    rfl

theorem list_for_each_prev_eq (h : α) (s : Heap α) (n : Nat) (pos : α) :
    list_for_each_prev h s n pos = list_for_each h (mirror s) n pos := by
  induction n generalizing pos with
  | zero => rfl
  | succ n ih => rw [list_for_each_prev, list_for_each, ih, mirror]

/-- **Loops over the lists of a run.**  The program starts with nodes that have never been written,
and each loop sees the entries that are counted up, in their order or backwards. -/
theorem lists_of_run {ns : List α} (hns : ns.Nodup) (hrun : Runs cs (ns.map .stray) R)
    (hR : .ring h l ∈ R) {n : Nat} (hn : l.length < n) :
    list_for_each h (exec_all poison cs s) n ((exec_all poison cs s).next h) = some l ∧
      list_for_each_prev h (exec_all poison cs s) n ((exec_all poison cs s).prev h) =
        some l.reverse := by
  have hstart : Holds s (ns.map .stray) := by
    refine ⟨?_, fun p hp => ?_⟩
    · rw [Pieces.all, List.flatMap_map]
      simpa [rings, Piece.nodes] using hns
    · obtain ⟨n, -, rfl⟩ := List.mem_map.mp hp
      trivial
  obtain ⟨hring, hnodup⟩ := (run_holds poison hrun hstart).ring hR
  have hh := (List.nodup_cons.mp hnodup).1
  refine ⟨list_for_each_of_way hring hh hn, ?_⟩
  rw [list_for_each_prev_eq]
  exact list_for_each_of_way (Way.mirror hring) (by simpa using hh) (by simpa using hn)

/-- A list of two entries, of which one has been initialised. -/
theorem lists_of_run_two :
    list_for_each_prev 0 (exec_all ⟨7, 7⟩ [.INIT_LIST_HEAD 0, .INIT_LIST_HEAD 1, .list_add 1 0,
      .list_add_tail 2 0] (⟨id, id⟩ : Heap Nat)) 3 2 = some [2, 1] := by
  have hadd : Does (.list_add 1 0) [.ring 1 [], .ring 0 []] [.ring 0 [1]] :=
    .forget (P := []) 1 [] (.add 1 0 [])
  have hrun : Runs [.INIT_LIST_HEAD 0, .INIT_LIST_HEAD 1, .list_add 1 0, .list_add_tail 2 0]
      ([0, 1, 2].map .stray) [.ring 0 [1, 2]] := by
    refine .cons (F := [.stray 1, .stray 2]) (.init 0) (by decide) ?_
    refine .cons (F := [.ring 0 [], .stray 2]) (.init 1) (by decide) ?_
    refine .cons (F := [.stray 2]) hadd (by decide) ?_
    exact .cons (F := []) (.add_tail 2 0 [1]) (by decide) (.nil (.refl _))
  exact (lists_of_run (by decide) hrun (List.mem_singleton_self _) (by decide)).2

/-- `list_for_each_safe(pos, n, head)` with a body, from `pos` and `n` on. -/
def list_for_each_safe (head : α) (body : α → Heap α → Heap α) : Nat → α → α → Heap α →
    Option (Heap α)
  | 0, _, _, _ => none
  | k + 1, pos, n, s =>
    if pos = head then some s
    else list_for_each_safe head body k n ((body pos s).next n) (body pos s)

/-- `if (select(pos)) list_move_tail(pos, head);`. -/
def move_selected (select : α → Bool) (head pos : α) (s : Heap α) : Heap α :=
  if select pos then list_move_tail pos head s else s

/-- The loop behind the entries `d` that stay. -/
theorem partition_loop (select : α → Bool) {F : List (Piece α)}
    (hs : Holds s ([.ring h (d ++ l), .ring g m] ++ F)) {k : Nat} (hk : l.length < k) :
    ∃ s', list_for_each_safe h (move_selected select g) k (l.headD h) (s.next (l.headD h)) s =
        some s' ∧
      Holds s' ([.ring h (d ++ l.filter fun x => !select x), .ring g (m ++ l.filter select)] ++
        F) := by
  induction l generalizing s d m k with
  | nil =>
    obtain ⟨k, rfl⟩ := Nat.exists_eq_add_one_of_ne_zero (Nat.ne_zero_of_lt hk)
    refine ⟨s, by rw [list_for_each_safe]; exact if_pos rfl, ?_⟩
    rw [List.filter_nil, List.filter_nil, List.append_nil m]
    exact hs
  | cons x l ih =>
    obtain ⟨k, rfl⟩ := Nat.exists_eq_add_one_of_ne_zero (Nat.ne_zero_of_lt hk)
    obtain ⟨hring, hnodup⟩ := hs.ring (List.mem_cons_self ..)
    have hx : x ≠ h := by
      rintro rfl
      exact (List.nodup_cons.mp hnodup).1 (by simp)
    have hnext : s.next x = l.headD h := (way_append.mp hring).2.next
    rw [List.headD_cons, list_for_each_safe, if_neg hx, hnext, move_selected]
    by_cases hsel : select x = true
    · rw [if_pos hsel, List.filter_cons_of_pos hsel, List.filter_cons_of_neg (by simp [hsel])]
      have hmoved := (list_move_tail_spec h x g d l m).holds hs
      obtain ⟨s', hloop, hs'⟩ := ih hmoved (Nat.lt_of_succ_lt_succ hk)
      refine ⟨s', hloop, ?_⟩
      rwa [List.append_assoc] at hs'
    · rw [if_neg hsel, List.filter_cons_of_neg hsel, List.filter_cons_of_pos (by simp [hsel])]
      have hstay : Holds s ([.ring h ((d ++ [x]) ++ l), .ring g m] ++ F) := by
        rwa [List.append_assoc]
      obtain ⟨s', hloop, hs'⟩ := ih hstay (Nat.lt_of_succ_lt_succ hk)
      refine ⟨s', hloop, ?_⟩
      rwa [List.append_assoc] at hs'

/-- **Moving entries in a loop**: `list_for_each_safe` comes to its end, every selected entry is at
the end of the other list, and both lists are in their order. -/
theorem partition_safe (select : α → Bool) {F : List (Piece α)}
    (hs : Holds s ([.ring h l, .ring g m] ++ F)) {k : Nat} (hk : l.length < k) :
    ∃ s', list_for_each_safe h (move_selected select g) k (s.next h) (s.next (s.next h)) s =
        some s' ∧
      Holds s' ([.ring h (l.filter fun x => !select x), .ring g (m ++ l.filter select)] ++ F) := by
  have hring := (hs.ring (List.mem_cons_self ..)).1
  rw [hring.next]
  exact partition_loop (d := []) select hs hk

/-- The even one of three entries is moved. -/
theorem partition_safe_even :
    ∃ s', list_for_each_safe 0 (move_selected (fun x => x % 2 = 0) 9) 4 1 2
        (exec_all ⟨7, 7⟩ [.INIT_LIST_HEAD 0, .list_add 3 0, .list_add 2 0, .list_add 1 0,
          .INIT_LIST_HEAD 9] (⟨id, id⟩ : Heap Nat)) = some s' ∧
      Holds s' [.ring 0 [1, 3], .ring 9 [2]] := by
  have hs : Holds (exec_all ⟨7, 7⟩ [.INIT_LIST_HEAD 0, .list_add 3 0, .list_add 2 0, .list_add 1 0,
      .INIT_LIST_HEAD 9] (⟨id, id⟩ : Heap Nat)) ([.ring 0 [1, 2, 3], .ring 9 []] ++ []) := by
    refine ⟨by decide, fun p hp => ?_⟩
    rcases List.mem_cons.mp hp with rfl | hp
    · exact ⟨rfl, rfl, rfl, rfl, rfl, rfl, rfl, rfl⟩
    · obtain rfl := List.mem_singleton.mp hp
      exact ⟨rfl, rfl⟩
  obtain ⟨s', hloop, hs'⟩ := partition_safe (fun x => x % 2 = 0) hs (Nat.lt_succ_self _)
  exact ⟨s', hloop, hs'⟩

end Boxing.Linux
