import Mathlib.Logic.Function.Basic
import Boxing.C.Pieces

/-!
# Rings of nodes

A node has a pointer to the next one and one to the one before.  `Way s a l b` is the way from `a`
over the nodes `l` to `b`, with the pointers right in both directions, and a ring is a way from a
node back to itself (`Ring`).  Where a ring begins does not matter (`Ring.rotate`), so that what is
done at some place of it needs to be looked at only at its first node.

Most of what is done to rings is a `link`: two nodes are made to point at each other.  A way is
left alone when its first node is none of those whose `next` is written, and its last none of
those whose `prev` is (`Way.frame`); the end of a way can be moved (`Way.relink_front`,
`Way.relink_back`).

As pieces of memory there are rings, and nodes of which nothing is known but that they are there
(`rings`).
-/

namespace Boxing.C

/-- The two pointers of every node. -/
structure Heap (α : Type) where
  next : α → α
  prev : α → α

variable {α : Type}

/-- The way from `a` over `l` to `b`. -/
def Way (s : Heap α) : α → List α → α → Prop
  | a, [], b => s.next a = b ∧ s.prev b = a
  | a, x :: l, b => s.next a = x ∧ s.prev x = a ∧ Way s x l b

/-- The ring of a node and the nodes behind it. -/
def Ring (s : Heap α) (h : α) (l : List α) : Prop := Way s h l h

variable {s s' : Heap α} {a b c h x y : α} {l m : List α}

/-! ### Ways -/

theorem way_nil : Way s a [] b ↔ s.next a = b ∧ s.prev b = a := Iff.rfl

theorem way_cons : Way s a (x :: l) b ↔ s.next a = x ∧ s.prev x = a ∧ Way s x l b := Iff.rfl

theorem way_append : Way s a (l ++ x :: m) b ↔ Way s a l x ∧ Way s x m b := by
  induction l generalizing a with
  | nil => rw [List.nil_append, way_cons, way_nil, and_assoc]
  | cons y l ih => rw [List.cons_append, way_cons, way_cons, ih, and_assoc, and_assoc]

/-- The first node of a way. -/
theorem Way.next (hw : Way s a l b) : s.next a = l.headD b := by
  cases l with
  | nil => exact hw.1
  | cons y l => exact hw.1

/-- The last node of a way. -/
theorem Way.prev (hw : Way s a l b) : s.prev b = l.getLastD a := by
  induction l generalizing a with
  | nil => exact hw.2
  | cons y l ih => rw [List.getLastD_cons, ih hw.2.2]

/-- The last node of a way points at its end. -/
theorem Way.next_last (hw : Way s a l b) : s.next (l.getLastD a) = b := by
  induction l generalizing a with
  | nil => exact hw.1
  | cons y l ih => rw [List.getLastD_cons, ih hw.2.2]

/-- Only the pointers on the way matter. -/
theorem Way.congr (hw : Way s a l b) (hnext : ∀ x ∈ a :: l, s'.next x = s.next x)
    (hprev : ∀ x ∈ b :: l, s'.prev x = s.prev x) : Way s' a l b := by
  induction l generalizing a with
  | nil =>
    exact ⟨(hnext a (List.mem_cons_self ..)).trans hw.1,
      (hprev b (List.mem_cons_self ..)).trans hw.2⟩
  | cons y l ih =>
    refine ⟨(hnext a (List.mem_cons_self ..)).trans hw.1, (hprev y (by simp)).trans hw.2.1, ?_⟩
    refine ih hw.2.2 (fun x hx => hnext x (List.mem_cons_of_mem _ hx)) fun x hx => hprev x ?_
    rcases List.mem_cons.mp hx with rfl | hx
    · exact List.mem_cons_self ..
    · exact List.mem_cons_of_mem _ (List.mem_cons_of_mem _ hx)

/-- **A ring can begin anywhere.** -/
theorem Ring.rotate : Ring s h (l ++ x :: m) ↔ Ring s x (m ++ h :: l) := by
  rw [Ring, Ring, way_append, way_append, and_comm]

theorem headD_mem (l : List α) (b : α) : l.headD b ∈ b :: l := by
  cases l with
  | nil => exact List.mem_cons_self ..
  | cons y l => exact List.mem_cons_of_mem _ (List.mem_cons_self ..)

theorem getLastD_mem (l : List α) (a : α) : l.getLastD a ∈ a :: l := by
  induction l generalizing a with
  | nil => exact List.mem_cons_self ..
  | cons y l ih =>
    rw [List.getLastD_cons]
    exact List.mem_cons_of_mem _ (ih y)

/-- `next` and `prev` change places. -/
def mirror (s : Heap α) : Heap α := ⟨s.prev, s.next⟩

theorem Way.mirror (hw : Way s a l b) : Way (C.mirror s) b l.reverse a := by
  induction l generalizing a with
  | nil => exact ⟨hw.2, hw.1⟩
  | cons y l ih =>
    rw [List.reverse_cons]
    exact way_append.mpr ⟨ih hw.2.2, hw.2.1, hw.1⟩

/-- What is behind the beginning of a way. -/
def Rest (s : Heap α) (l : List α) (b : α) : Prop := ∀ y t, l = y :: t → Way s y t b

theorem Way.rest (hw : Way s a l b) : Rest s l b := by
  rintro y t rfl
  exact hw.2.2

/-- A way to the beginning of another one. -/
theorem Way.append_rest (hw : Way s a l (m.headD b)) (hr : Rest s m b) : Way s a (l ++ m) b := by
  cases m with
  | nil => rwa [List.append_nil]
  | cons y m => exact way_append.mpr ⟨hw, hr y m rfl⟩

/-! ### Links -/

section Link

variable [DecidableEq α]

/-- `a->next = b;`. -/
def Heap.set_next (s : Heap α) (a b : α) : Heap α := ⟨Function.update s.next a b, s.prev⟩

/-- `a->prev = b;`. -/
def Heap.set_prev (s : Heap α) (a b : α) : Heap α := ⟨s.next, Function.update s.prev a b⟩

/-- `a` and `b` are made to point at each other. -/
def Heap.link (s : Heap α) (a b : α) : Heap α := (s.set_next a b).set_prev b a

@[simp] theorem set_next_next : (s.set_next a b).next x = if x = a then b else s.next x :=
  Function.update_apply ..

@[simp] theorem set_next_prev : (s.set_next a b).prev x = s.prev x := rfl

@[simp] theorem set_prev_next : (s.set_prev a b).next x = s.next x := rfl

@[simp] theorem set_prev_prev : (s.set_prev a b).prev x = if x = a then b else s.prev x :=
  Function.update_apply ..

@[simp] theorem link_next : (s.link a b).next x = if x = a then b else s.next x :=
  Function.update_apply ..

@[simp] theorem link_prev : (s.link a b).prev x = if x = b then a else s.prev x :=
  Function.update_apply ..

theorem link_way (s : Heap α) (a b : α) : Way (s.link a b) a [] b := by
  simp [way_nil]

/-- A way with other ends is left alone. -/
theorem Way.frame (hw : Way s c l h) (ha : a ∉ c :: l) (hb : b ∉ h :: l) :
    Way (s.link a b) c l h := by
  refine hw.congr (fun x hx => ?_) fun x hx => ?_
  · rw [link_next, if_neg (ne_of_mem_of_not_mem hx ha)]
  · rw [link_prev, if_neg (ne_of_mem_of_not_mem hx hb)]

theorem Rest.frame (hw : Rest s l h) (ha : a ∉ l) (hb : b ∉ h :: l.tail) :
    Rest (s.link a b) l h := by
  rintro y t rfl
  exact (hw y t rfl).frame ha hb

/-- **A beginning is put** in front of a way. -/
theorem Rest.attach (hw : Rest s l b) (hl : l.Nodup) (ha : a ∉ l) (hb : b ∉ l) :
    Way (s.link a (l.headD b)) a l b := by
  cases l with
  | nil => exact link_way s a b
  | cons y l =>
    obtain ⟨hy, hl⟩ := List.nodup_cons.mp hl
    have hyb : y ∉ b :: l := by
      rw [List.mem_cons, not_or]
      exact ⟨fun he => hb (he ▸ List.mem_cons_self ..), hy⟩
    have hfront := link_way s a y
    exact ⟨hfront.1, hfront.2, Way.frame (hw y l rfl) ha hyb⟩

/-- **The beginning of a way is moved** to `a`. -/
theorem Way.relink_front (hw : Way s c l b) (hl : l.Nodup) (ha : a ∉ l) (hb : b ∉ l) :
    Way (s.link a (l.headD b)) a l b :=
  hw.rest.attach hl ha hb

/-- **The end of a way is moved** to `b`. -/
theorem Way.relink_back (hw : Way s a l c) (hl : (a :: l).Nodup) (hb : b ∉ l) :
    Way (s.link (l.getLastD a) b) a l b := by
  induction l generalizing a with
  | nil => exact link_way s a b
  | cons y l ih =>
    obtain ⟨ha, hl⟩ := List.nodup_cons.mp hl
    obtain ⟨hyb, hbl⟩ := List.ne_and_not_mem_of_not_mem_cons hb
    rw [List.getLastD_cons]
    have hlast : a ≠ l.getLastD y := fun he => ha (he ▸ getLastD_mem l y)
    refine ⟨?_, ?_, ih hw.2.2 hl hbl⟩
    · rw [link_next, if_neg hlast, hw.1]
    · rw [link_prev, if_neg (Ne.symm hyb), hw.2.1]

end Link

/-! ### Pieces of memory -/

/-- A node, or a ring. -/
inductive Piece (α : Type)
  | stray (n : α)
  | ring (h : α) (l : List α)
deriving DecidableEq

/-- The nodes of a piece. -/
def Piece.nodes : Piece α → List α
  | .stray n => [n]
  | .ring h l => h :: l

/-- A ring is there; of a stray node nothing is known. -/
def Piece.There (s : Heap α) : Piece α → Prop
  | .stray _ => True
  | .ring h l => Ring s h l

theorem Piece.There.congr {p : Piece α} (hp : p.There s)
    (hsame : ∀ x ∈ p.nodes, s'.next x = s.next x ∧ s'.prev x = s.prev x) : p.There s' := by
  cases p with
  | stray n => trivial
  | ring h l => exact Way.congr hp (fun x hx => (hsame x hx).1) fun x hx => (hsame x hx).2

/-- Memory as rings. -/
def rings (α : Type) : Pieces (Heap α) α (Piece α) where
  nodes := Piece.nodes
  There := Piece.There
  Same := fun s s' x => s'.next x = s.next x ∧ s'.prev x = s.prev x
  refl := fun _ _ => ⟨rfl, rfl⟩
  trans := fun h h' => ⟨h'.1.trans h.1, h'.2.trans h.2⟩
  congr := Piece.There.congr

abbrev Holds (s : Heap α) (P : List (Piece α)) : Prop := (rings α).Holds s P

abbrev Touches (N : List α) (s s' : Heap α) : Prop := (rings α).Touches N s s'

abbrev Spec (f : Heap α → Heap α) (P Q : List (Piece α)) : Prop := (rings α).Spec f P Q

@[simp] theorem all_nil : (rings α).all [] = [] := rfl

@[simp] theorem all_stray (n : α) (P : List (Piece α)) :
    (rings α).all (.stray n :: P) = n :: (rings α).all P := rfl

@[simp] theorem all_ring (h : α) (l : List α) (P : List (Piece α)) :
    (rings α).all (.ring h l :: P) = h :: (l ++ (rings α).all P) := rfl

theorem Holds.ring {P : List (Piece α)} (hs : Holds s P) (hmem : .ring h l ∈ P) :
    Ring s h l ∧ (h :: l).Nodup :=
  hs.piece hmem

theorem Touches.refl (N : List α) (s : Heap α) : Touches N s s := Pieces.Touches.refl N s

section Touches

variable [DecidableEq α] {N : List α}

theorem Touches.set_next (h : Touches N s s') (ha : a ∈ N) (b : α) :
    Touches N s (s'.set_next a b) := by
  refine h.trans fun x hx => ⟨?_, rfl⟩
  rw [set_next_next, if_neg (ne_of_mem_of_not_mem ha hx).symm]

theorem Touches.set_prev (h : Touches N s s') (ha : a ∈ N) (b : α) :
    Touches N s (s'.set_prev a b) := by
  refine h.trans fun x hx => ⟨rfl, ?_⟩
  rw [set_prev_prev, if_neg (ne_of_mem_of_not_mem ha hx).symm]

theorem Touches.link (h : Touches N s s') (ha : a ∈ N) (hb : b ∈ N) :
    Touches N s (s'.link a b) :=
  Touches.set_prev (Touches.set_next h ha b) hb a

end Touches

/-- A stray node can be written. -/
theorem spec_stray {f : Heap α → Heap α} {n : α} (hf : ∀ s, Touches [n] s (f s)) :
    Spec f [.stray n] [.stray n] :=
  .one (N := [n]) rfl (.refl _) fun s _ _ => ⟨hf s, trivial⟩

/-- A ring may be forgotten. -/
theorem spec_forget (h : α) (l : List α) :
    Spec (fun s => s) [.ring h l] (.stray h :: l.map .stray) := by
  have hall : (rings α).all (l.map .stray) = l := by
    rw [Pieces.all, List.flatMap_map]
    exact List.flatMap_singleton' l
  refine ⟨?_, fun s _ => .refl _ s, fun s _ p hp => ?_⟩
  · rw [all_stray, hall, all_ring, all_nil, List.append_nil]
  · rcases List.mem_cons.mp hp with rfl | hp
    · trivial
    · obtain ⟨x, -, rfl⟩ := List.mem_map.mp hp
      trivial

/-- A ring is one from any of its nodes. -/
theorem spec_rotate (h x : α) (l m : List α) :
    Spec (fun s => s) [.ring h (l ++ x :: m)] [.ring x (m ++ h :: l)] := by
  refine .one (N := h :: (l ++ x :: m)) (by simp) ?_ fun s _ hthere => ⟨.refl _ s, ?_⟩
  · exact @List.perm_append_comm _ (h :: l) (x :: m)
  · exact Ring.rotate.mp (hthere (.ring h (l ++ x :: m)) (List.mem_singleton_self _))

end Boxing.C
