import Boxing.Linux.Hlist

/-!
# Programs over hash lists

As in `Runs`, a program calls the functions of hash lists one after the other, and `HDoes` says
where each may be called.  An entry that is put in must not be in a list; one that is taken out may
be anywhere in one, or pretend to be in one; the entry before which another is put must be in a
list, for its `pprev` is written through.

No such program writes through NULL, and it leaves the lists that are counted up
(`hlists_of_run`).  A loop may take out the entries it comes to (`purge_safe`).
-/

namespace Boxing.Linux

open C

variable {α β : Type} [DecidableEq α] [DecidableEq β]

/-- A call of a function that writes. -/
inductive HCall (α β : Type)
  | INIT_HLIST_HEAD (ptr : β)
  | INIT_HLIST_NODE (h : α)
  | hlist_del (n : α)
  | hlist_del_init (n : α)
  | hlist_add_head (n : α) (h : β)
  | hlist_add_before (n next : α)
  | hlist_add_after (n next : α)
  | hlist_add_fake (n : α)
  | hlist_move_list (old new : β)

/-- What it does, if it does not crash. -/
def HCall.exec (poison : HPoison α β) : HCall α β → Hlists α β → Option (Hlists α β)
  | .INIT_HLIST_HEAD ptr => fun s => some (Linux.INIT_HLIST_HEAD ptr s)
  | .INIT_HLIST_NODE h => fun s => some (Linux.INIT_HLIST_NODE h s)
  | .hlist_del n => Linux.hlist_del poison n
  | .hlist_del_init n => Linux.hlist_del_init n
  | .hlist_add_head n h => fun s => some (Linux.hlist_add_head n h s)
  | .hlist_add_before n next => Linux.hlist_add_before n next
  | .hlist_add_after n next => fun s => some (Linux.hlist_add_after n next s)
  | .hlist_add_fake n => fun s => some (Linux.hlist_add_fake n s)
  | .hlist_move_list old new => fun s => some (Linux.hlist_move_list old new s)

/-- A program. -/
def hexec_all (poison : HPoison α β) (cs : List (HCall α β)) (s : Hlists α β) :
    Option (Hlists α β) :=
  cs.foldlM (fun s c => c.exec poison s) s

/-- The entry `n` is in no list. -/
inductive HPiece.Node : HPiece α β → α → Prop
  | free (n : α) : Node (.free n) n
  | unhashed (n : α) : Node (.unhashed n) n
  | fake (n : α) : Node (.fake n) n

/-- What a call is for: the pieces it is about, and what becomes of them. -/
inductive HDoes : HCall α β → List (HPiece α β) → List (HPiece α β) → Prop
  | init_head (h : β) : HDoes (.INIT_HLIST_HEAD h) [.raw h] [.chain (.first h) []]
  | init_head_again (h : β) (l : List α) :
      HDoes (.INIT_HLIST_HEAD h) [.chain (.first h) l] (.chain (.first h) [] :: l.map .free)
  | init_node (n : α) {r : HPiece α β} (hr : r.Node n) :
      HDoes (.INIT_HLIST_NODE n) [r] [.unhashed n]
  | del (n : α) (p : Slot α β) (l m : List α) :
      HDoes (.hlist_del n) [.chain p (l ++ n :: m)] [.free n, .chain p (l ++ m)]
  | del_fake (n : α) : HDoes (.hlist_del n) [.fake n] [.free n]
  | del_init (n : α) (p : Slot α β) (l m : List α) :
      HDoes (.hlist_del_init n) [.chain p (l ++ n :: m)] [.unhashed n, .chain p (l ++ m)]
  | del_init_unhashed (n : α) : HDoes (.hlist_del_init n) [.unhashed n] [.unhashed n]
  | del_init_fake (n : α) : HDoes (.hlist_del_init n) [.fake n] [.unhashed n]
  | add_head (n : α) (h : β) (l : List α) {r : HPiece α β} (hr : r.Node n) :
      HDoes (.hlist_add_head n h) [r, .chain (.first h) l] [.chain (.first h) (n :: l)]
  | add_before (n x : α) (p : Slot α β) (l m : List α) {r : HPiece α β} (hr : r.Node n) :
      HDoes (.hlist_add_before n x) [r, .chain p (l ++ x :: m)] [.chain p (l ++ n :: x :: m)]
  | add_after (x n : α) (p : Slot α β) (l m : List α) {r : HPiece α β} (hr : r.Node n) :
      HDoes (.hlist_add_after x n) [r, .chain p (l ++ x :: m)] [.chain p (l ++ x :: n :: m)]
  | add_fake (n : α) : HDoes (.hlist_add_fake n) [.unhashed n] [.fake n]
  | move_list (old new : β) (l m : List α) :
      HDoes (.hlist_move_list old new) [.chain (.first old) l, .chain (.first new) m]
        (.chain (.first new) l :: .chain (.first old) [] :: m.map .free)
  | move_list_raw (old new : β) (l : List α) :
      HDoes (.hlist_move_list old new) [.chain (.first old) l, .raw new]
        [.chain (.first new) l, .chain (.first old) []]

variable {poison : HPoison α β} {c : HCall α β} {P Q R R' : List (HPiece α β)}
  {cs : List (HCall α β)} {s : Hlists α β} {f : Hlists α β → Hlists α β}
  {o : Hlists α β → Option (Hlists α β)} {h : β} {n x : α} {l m : List α}

/-! ### Every call does what it is for -/

omit [DecidableEq α] [DecidableEq β] in
theorem HPiece.Node.forget {r : HPiece α β} (hr : r.Node n) :
    (hlists α β).Spec (fun s => s) [r] [.free n] := by
  refine .one (N := [.pprev n, .value (.next n)]) ?_ (.refl _) fun s _ _ => ⟨.refl _ s, trivial⟩
  cases hr <;> rfl

omit [DecidableEq α] [DecidableEq β] in
/-- The entries of a list that is given up. -/
theorem spec_abandon (h : β) (l : List α) :
    (hlists α β).Spec (fun s => s) [.chain (.first h) l] (.raw h :: l.map .free) := by
  have hall : (hlists α β).all (.raw h :: l.map .free) = cells (.first h) l := by
    rw [Pieces.all, List.flatMap_cons, List.flatMap_map]
    rfl
  refine ⟨?_, fun s _ => .refl _ s, fun s _ r hr => ?_⟩
  · rw [hall]
    simp [Pieces.all, hlists, HPiece.cells]
  · rcases List.mem_cons.mp hr with rfl | hr
    · trivial
    · obtain ⟨x, -, rfl⟩ := List.mem_map.mp hr
      trivial

omit [DecidableEq α] [DecidableEq β] in
/-- Behind the entries `l` the list is one of its own. -/
theorem safe_behind {A B : List (HPiece α β)} (p : Slot α β) (l m m' : List α)
    (h : (hlists α β).Safe o (A ++ [.chain (last p l) m]) (B ++ [.chain (last p l) m'])) :
    (hlists α β).Safe o (A ++ [.chain p (l ++ m)]) (B ++ [.chain p (l ++ m')]) := by
  have hswap : ∀ (C : List (HPiece α β)) (t : List α),
      (C ++ [HPiece.chain (last p l) t] ++ [HPiece.upto p l]).Perm
        (C ++ [HPiece.upto p l, HPiece.chain (last p l) t]) :=
    fun C t => by
      rw [List.append_assoc]
      exact (List.Perm.swap ..).append_left C
  exact .within ((spec_split p l m).behind A) ((h.more [.upto p l]).perm (hswap A m) (hswap B m'))
    ((spec_join p l m').behind B)

omit [DecidableEq α] [DecidableEq β] in
/-- An entry that is in no list may have been initialised. -/
theorem HPiece.Node.safe {r : HPiece α β} (hr : r.Node n)
    (h : (hlists α β).Safe o (.free n :: P) Q) : (hlists α β).Safe o (r :: P) Q :=
  .within (hr.forget.more P) h (.id Q)

omit [DecidableEq α] [DecidableEq β] in
theorem last_append_singleton (p : Slot α β) (l : List α) (x : α) :
    last p (l ++ [x]) = .next x := by
  induction l generalizing p with
  | nil => rfl
  | cons n l ih => exact ih (.next n)

/-- **Every call does what it is for**, and does not crash. -/
theorem HDoes.safe (poison : HPoison α β) (hd : HDoes c P Q) : (hlists α β).Safe (c.exec poison) P Q := by
  cases hd with
  | init_head h => exact (INIT_HLIST_HEAD_spec h).safe fun _ _ => rfl
  | init_head_again h l =>
    exact ((spec_abandon h l).comp ((INIT_HLIST_HEAD_spec h).more _)).safe fun _ _ => rfl
  | init_node n hr => exact hr.safe ((INIT_HLIST_NODE_spec n).safe fun _ _ => rfl)
  | del n p l m =>
    exact safe_behind (A := []) (B := [.free n]) p l (n :: m) m (hlist_del_spec poison n _ m)
  | del_fake n => exact hlist_del_fake_spec poison n
  | del_init n p l m =>
    exact safe_behind (A := []) (B := [.unhashed n]) p l (n :: m) m (hlist_del_init_spec n _ m)
  | del_init_unhashed n => exact hlist_del_init_unhashed_spec n
  | del_init_fake n => exact hlist_del_init_fake_spec n
  | add_head n h l hr => exact hr.safe ((hlist_add_head_spec n h l).safe fun _ _ => rfl)
  | add_before n x p l m hr =>
    exact hr.safe (safe_behind (A := [.free n]) (B := []) p l (x :: m) (n :: x :: m)
      (hlist_add_before_spec n x _ m))
  | add_after x n p l m hr =>
    have hadd : (hlists α β).Safe (fun s => some (hlist_add_after x n s))
        [.free n, .chain (.next x) m] [.chain (.next x) (n :: m)] :=
      (hlist_add_after_spec x n m).safe fun _ _ => rfl
    rw [← last_append_singleton p l x] at hadd
    have hat := safe_behind (A := [.free n]) (B := []) p (l ++ [x]) m (n :: m) hadd
    rw [List.append_assoc, List.append_assoc] at hat
    exact hr.safe hat
  | add_fake n => exact (hlist_add_fake_spec n).safe fun _ _ => rfl
  | move_list old new l m =>
    have hmove := (hlist_move_list_spec old new l).more (m.map .free)
    exact (((spec_abandon new m).behind [.chain (.first old) l]).comp hmove).safe fun _ _ => rfl
  | move_list_raw old new l => exact (hlist_move_list_spec old new l).safe fun _ _ => rfl

/-! ### What a program leaves -/

/-- `hlist_for_each(pos, head)` from `pos` on: the entries it comes to. -/
def hlist_for_each (s : Hlists α β) : Nat → Option α → Option (List α)
  | 0, _ => none
  | _ + 1, none => some []
  | n + 1, some pos => (hlist_for_each s n (s.value (.next pos))).map (pos :: ·)

omit [DecidableEq α] [DecidableEq β] in
theorem Chain.for_each {p : Slot α β} (hl : Chain s p l) {k : Nat} (hk : l.length < k) :
    hlist_for_each s k (s.value p) = some l := by
  induction l generalizing p k with
  | nil =>
    obtain ⟨k, rfl⟩ := Nat.exists_eq_add_one_of_ne_zero (Nat.ne_zero_of_lt hk)
    rw [hl.head]
    rfl
  | cons x l ih =>
    obtain ⟨k, rfl⟩ := Nat.exists_eq_add_one_of_ne_zero (Nat.ne_zero_of_lt hk)
    rw [hl.1, hlist_for_each, ih hl.2.2 (Nat.lt_of_succ_lt_succ hk)]
    rfl

omit [DecidableEq α] [DecidableEq β] in
/-- Every entry of a list says that it is in one. -/
theorem Chain.hashed {p : Slot α β} (hl : Chain s p l) (hx : x ∈ l) :
    hlist_unhashed x s = false := by
  induction l generalizing p with
  | nil => exact absurd hx List.not_mem_nil
  | cons y l ih =>
    rcases List.mem_cons.mp hx with rfl | hx
    · rw [hlist_unhashed, hl.2.1]
      rfl
    · exact ih hl.2.2 hx

omit [DecidableEq α] [DecidableEq β] in
theorem links_nodup (hl : l.Nodup) : (links l : List (Cell α β)).Nodup := by
  refine List.nodup_flatMap.mpr ⟨fun x _ => by simp, hl.imp fun {x y} hxy c hx hy => hxy ?_⟩
  cases c with
  | value p =>
    have hpx : p = .next x := by simpa using hx
    have hpy : p = .next y := by simpa using hy
    exact Slot.next.inj (hpx.symm.trans hpy)
  | pprev n =>
    have hnx : n = x := by simpa using hx
    have hny : n = y := by simpa using hy
    exact hnx.symm.trans hny

omit [DecidableEq α] [DecidableEq β] in
/-- Memory about which nothing is known but what is an entry and what is a head. -/
theorem holds_start {ns : List α} {hs : List β} (hns : ns.Nodup) (hhs : hs.Nodup) :
    (hlists α β).Holds s (ns.map .free ++ hs.map .raw) := by
  refine ⟨?_, fun r hr => ?_⟩
  · have hfree : (hlists α β).all (ns.map .free) = links ns := by
      rw [Pieces.all, List.flatMap_map]
      rfl
    have hraw : (hlists α β).all (hs.map .raw) = hs.map fun h => .value (.first h) := by
      rw [Pieces.all, List.flatMap_map]
      exact List.map_eq_flatMap.symm
    rw [Pieces.all_append, hfree, hraw]
    refine List.nodup_append'.mpr ⟨links_nodup hns, hhs.map fun h g heq => ?_, ?_⟩
    · exact Slot.first.inj (Cell.value.inj heq)
    · intro c hc hch
      obtain ⟨h, -, rfl⟩ := List.mem_map.mp hch
      exact first_not_mem_links h ns hc
  · rcases List.mem_append.mp hr with hr | hr
    · obtain ⟨x, -, rfl⟩ := List.mem_map.mp hr
      trivial
    · obtain ⟨x, -, rfl⟩ := List.mem_map.mp hr
      trivial

/-- **The hash lists of a run.**  It does not write through NULL; a loop sees the entries that are
counted up, in their order; and a list is empty, and an entry in none, where the program can ask
for it. -/
theorem hlists_of_run {ns : List α} {hs : List β} (hns : ns.Nodup) (hhs : hs.Nodup)
    (hrun : Pieces.Runs HDoes cs (ns.map .free ++ hs.map .raw) R) :
    ∃ s', hexec_all poison cs s = some s' ∧
      (∀ h l, .chain (.first h) l ∈ R → hlist_empty h s' = l.isEmpty ∧
        (∀ k, l.length < k → hlist_for_each s' k (s'.value (.first h)) = some l) ∧
        ∀ x ∈ l, hlist_unhashed x s' = false) ∧
      ∀ n, .unhashed n ∈ R → hlist_unhashed n s' = true := by
  obtain ⟨s', hexec, hs'⟩ := Pieces.Runs.holds_safe (fun hd => hd.safe poison) hrun
    (holds_start (s := s) hns hhs)
  refine ⟨s', hexec, fun h l hl => ?_, fun n hn => ?_⟩
  · have hchain : Chain s' (.first h) l := hs'.there _ hl
    refine ⟨?_, fun k hk => hchain.for_each hk, fun x hx => hchain.hashed hx⟩
    rw [hlist_empty, hchain.head]
    cases l <;> rfl
  · have hun : s'.value (.next n) = none ∧ s'.pprev n = none := hs'.there _ hn
    rw [hlist_unhashed, hun.2]
    rfl

/-- A list of three entries, of which the second is put before the first. -/
theorem hlists_of_run_three :
    ∃ s', hexec_all ⟨9, .next 9⟩ [.INIT_HLIST_HEAD 0, .hlist_add_head 1 0, .hlist_add_before 2 1,
        .hlist_add_after 1 3] (⟨fun _ => some 5, fun _ => none⟩ : Hlists Nat Nat) = some s' ∧
      hlist_for_each s' 4 (s'.value (.first 0)) = some [2, 1, 3] := by
  have hrun : Pieces.Runs HDoes [.INIT_HLIST_HEAD 0, .hlist_add_head 1 0, .hlist_add_before 2 1,
      .hlist_add_after 1 3] ([1, 2, 3].map .free ++ [0].map .raw)
      [HPiece.chain (Slot.first 0) [2, 1, 3]] := by
    refine .cons (F := [.free 1, .free 2, .free 3]) (.init_head 0) (by decide) ?_
    refine .cons (F := [.free 2, .free 3]) (.add_head 1 0 [] (.free 1)) (by decide) ?_
    refine .cons (F := [.free 3]) (.add_before 2 1 (.first 0) [] [] (.free 2)) (by decide) ?_
    exact .cons (F := []) (.add_after 1 3 (.first 0) [2] [] (.free 3)) (by decide) (.nil (.refl _))
  obtain ⟨s', hexec, hlists, -⟩ := hlists_of_run (by decide) (by decide) hrun
  exact ⟨s', hexec, (hlists 0 [2, 1, 3] (List.mem_singleton_self _)).2.1 4 (by decide)⟩

/-! ### Taking entries out in a loop -/

/-- `hlist_for_each_safe(pos, n, head)` with a body, from `pos` on. -/
def hlist_for_each_safe (body : α → Hlists α β → Option (Hlists α β)) :
    Nat → Option α → Hlists α β → Option (Hlists α β)
  | 0, _, _ => none
  | _ + 1, none, s => some s
  | k + 1, some pos, s =>
    let n := s.value (.next pos)
    (body pos s).bind (hlist_for_each_safe body k n)

/-- `if (select(pos)) hlist_del(pos);`. -/
def delete_selected (poison : HPoison α β) (select : α → Bool) (pos : α) (s : Hlists α β) :
    Option (Hlists α β) :=
  if select pos then hlist_del poison pos s else some s

/-- The loop behind the entries `d` that stay. -/
theorem purge_loop (select : α → Bool) {p : Slot α β} {d : List α} {F : List (HPiece α β)}
    (hs : (hlists α β).Holds s (.chain p (d ++ l) :: F)) {k : Nat} (hk : l.length < k) :
    ∃ s', hlist_for_each_safe (delete_selected poison select) k l.head? s = some s' ∧
      (hlists α β).Holds s' (.chain p (d ++ l.filter fun x => !select x) ::
        ((l.filter select).map .free ++ F)) := by
  induction l generalizing s d k F with
  | nil =>
    obtain ⟨k, rfl⟩ := Nat.exists_eq_add_one_of_ne_zero (Nat.ne_zero_of_lt hk)
    exact ⟨s, rfl, hs⟩
  | cons x l ih =>
    obtain ⟨k, rfl⟩ := Nat.exists_eq_add_one_of_ne_zero (Nat.ne_zero_of_lt hk)
    have hx : Chain s p (d ++ x :: l) := hs.there _ (List.mem_cons_self ..)
    have hnext : s.value (.next x) = l.head? := (chain_append.mp hx).2.2.2.head
    rw [List.head?_cons, hlist_for_each_safe, hnext]
    by_cases hsel : select x = true
    · obtain ⟨s₁, hdel, hs₁⟩ := ((HDoes.del x p d l).safe poison).holds hs
      have hbody : delete_selected poison select x s = some s₁ := by
        rw [delete_selected, if_pos hsel]
        exact hdel
      have hperm : ([HPiece.free x, .chain p (d ++ l)] ++ F).Perm
          (.chain p (d ++ l) :: .free x :: F) := List.Perm.swap ..
      obtain ⟨s', hloop, hs'⟩ := ih (hs₁.perm hperm) (Nat.lt_of_succ_lt_succ hk)
      refine ⟨s', by rw [hbody]; exact hloop, ?_⟩
      rw [List.filter_cons_of_pos hsel, List.filter_cons_of_neg (by simp [hsel])]
      exact hs'.perm (List.perm_middle.cons _)
    · have hbody : delete_selected poison select x s = some s := by
        rw [delete_selected, if_neg hsel]
      have hstay : (hlists α β).Holds s (.chain p ((d ++ [x]) ++ l) :: F) := by
        rwa [List.append_assoc]
      obtain ⟨s', hloop, hs'⟩ := ih hstay (Nat.lt_of_succ_lt_succ hk)
      refine ⟨s', by rw [hbody]; exact hloop, ?_⟩
      rw [List.filter_cons_of_neg hsel, List.filter_cons_of_pos (by simp [hsel])]
      rwa [List.append_assoc] at hs'

/-- **Taking entries out in a loop**: `hlist_for_each_safe` comes to its end though `next` of what
was taken out is poison, and exactly the selected entries are in the list no more. -/
theorem purge_safe (select : α → Bool) {F : List (HPiece α β)}
    (hs : (hlists α β).Holds s (.chain (.first h) l :: F)) {k : Nat} (hk : l.length < k) :
    ∃ s', hlist_for_each_safe (delete_selected poison select) k (s.value (.first h)) s = some s' ∧
      (hlists α β).Holds s' (.chain (.first h) (l.filter fun x => !select x) ::
        ((l.filter select).map .free ++ F)) := by
  have hchain : Chain s (.first h) l := hs.there _ (List.mem_cons_self ..)
  rw [hchain.head]
  exact purge_loop (d := []) select hs hk

/-- The second of two entries. -/
theorem purge_safe_even :
    let s : Hlists Nat Nat :=
      (hlist_add_head 1 0 ∘ hlist_add_head 2 0) ⟨fun _ => none, fun _ => none⟩
    ∃ s', hlist_for_each_safe (delete_selected ⟨9, .next 9⟩ fun x => x % 2 = 0) 3
        (s.value (.first 0)) s = some s' ∧
      (hlists Nat Nat).Holds s' [.chain (.first 0) [1], .free 2] := by
  intro s
  have hs : (hlists Nat Nat).Holds s [.chain (.first 0) [1, 2]] := by
    refine ⟨by decide, fun r hr => ?_⟩
    obtain rfl := List.mem_singleton.mp hr
    exact ⟨rfl, rfl, rfl, rfl, rfl⟩
  exact purge_safe _ hs (Nat.lt_succ_self _)

end Boxing.Linux
