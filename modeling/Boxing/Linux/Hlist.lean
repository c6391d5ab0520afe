import Boxing.C.Pieces
import Mathlib.Logic.Function.Basic

/-!
# The hash lists of `list.h`

A hash list has one pointer in its head, and an entry points back not at the entry before it but at
the pointer that points at it.  That pointer is a `Slot`: `first` of a head, or `next` of an entry.

The two pointers of an entry belong to different parts of a list, so the pieces here are made of
single cells: a list may be taken apart before any entry (`spec_split`), and what is put in or
taken out there is put in or taken out at the beginning of the second part (`spec_insert`,
`spec_remove`).
-/

namespace Boxing.Linux

set_option linter.style.nameCheck false

open C

/-- A pointer to an entry: `first` of a head, or `next` of an entry. -/
inductive Slot (α β : Type)
  | first (h : β)
  | next (n : α)
deriving DecidableEq

/-- What the pointers are, with none for NULL. -/
structure Hlists (α β : Type) where
  value : Slot α β → Option α
  pprev : α → Option (Slot α β)

section Functions

variable {α β : Type} [DecidableEq α]

/-- `n->pprev = p;`. -/
def Hlists.set_pprev (s : Hlists α β) (n : α) (p : Option (Slot α β)) : Hlists α β :=
  ⟨s.value, Function.update s.pprev n p⟩

/-- `if (n) n->pprev = p;`. -/
def Hlists.repoint (s : Hlists α β) (n : Option α) (p : Option (Slot α β)) : Hlists α β :=
  n.elim s fun n => s.set_pprev n p

@[simp] theorem Hlists.value_set_pprev (s : Hlists α β) (n : α) (p : Option (Slot α β)) :
    (s.set_pprev n p).value = s.value := rfl

@[simp] theorem Hlists.set_pprev_pprev (s : Hlists α β) (n : α) (p : Option (Slot α β)) :
    (s.set_pprev n p).pprev = Function.update s.pprev n p := rfl

@[simp] theorem Hlists.value_repoint (s : Hlists α β) (n : Option α) (p : Option (Slot α β)) :
    (s.repoint n p).value = s.value := by
  cases n <;> rfl

@[simp] theorem Hlists.repoint_pprev (s : Hlists α β) (n : Option α) (p : Option (Slot α β))
    (x : α) : (s.repoint n p).pprev x = if n = some x then p else s.pprev x := by
  cases n with
  | none => rfl
  | some y =>
    by_cases hxy : x = y
    · subst hxy
      simp [repoint]
    · simp [repoint, hxy, Ne.symm hxy]

variable [DecidableEq β]

/-- `*p = n;`. -/
def Hlists.set (s : Hlists α β) (p : Slot α β) (n : Option α) : Hlists α β :=
  ⟨Function.update s.value p n, s.pprev⟩

@[simp] theorem Hlists.set_value (s : Hlists α β) (p : Slot α β) (n : Option α) :
    (s.set p n).value = Function.update s.value p n := rfl

@[simp] theorem Hlists.pprev_set (s : Hlists α β) (p : Slot α β) (n : Option α) :
    (s.set p n).pprev = s.pprev := rfl

/-- `INIT_HLIST_HEAD(ptr)`. -/
def INIT_HLIST_HEAD (ptr : β) (s : Hlists α β) : Hlists α β := s.set (.first ptr) none

/-- `INIT_HLIST_NODE(h)`. -/
def INIT_HLIST_NODE (h : α) (s : Hlists α β) : Hlists α β :=
  (s.set (.next h) none).set_pprev h none

/-- `hlist_unhashed(h)`. -/
def hlist_unhashed (h : α) (s : Hlists α β) : Bool := (s.pprev h).isNone

/-- `hlist_empty(h)`. -/
def hlist_empty (h : β) (s : Hlists α β) : Bool := (s.value (.first h)).isNone

/-- `__hlist_del(n)`; `*NULL` is a crash. -/
def __hlist_del (n : α) (s : Hlists α β) : Option (Hlists α β) :=
  (s.pprev n).map fun pprev =>
    (s.set pprev (s.value (.next n))).repoint (s.value (.next n)) (some pprev)

/-- `LIST_POISON1` and `LIST_POISON2`, as they are stored here. -/
structure HPoison (α β : Type) where
  LIST_POISON1 : α
  LIST_POISON2 : Slot α β

/-- `hlist_del(n)`. -/
def hlist_del (poison : HPoison α β) (n : α) (s : Hlists α β) : Option (Hlists α β) :=
  (__hlist_del n s).map fun s =>
    (s.set (.next n) (some poison.LIST_POISON1)).set_pprev n (some poison.LIST_POISON2)

/-- `hlist_del_init(n)`. -/
def hlist_del_init (n : α) (s : Hlists α β) : Option (Hlists α β) :=
  if hlist_unhashed n s then some s else (__hlist_del n s).map (INIT_HLIST_NODE n)

/-- `hlist_add_head(n, h)`. -/
def hlist_add_head (n : α) (h : β) (s : Hlists α β) : Hlists α β :=
  let first := s.value (.first h)
  (((s.set (.next n) first).repoint first (some (.next n))).set (.first h) (some n)).set_pprev n
    (some (.first h))

/-- `hlist_add_before(n, next)`; `*NULL` is a crash. -/
def hlist_add_before (n next : α) (s : Hlists α β) : Option (Hlists α β) :=
  let s := ((s.set_pprev n (s.pprev next)).set (.next n) (some next)).set_pprev next
    (some (.next n))
  (s.pprev n).map fun pprev => s.set pprev (some n)

/-- `hlist_add_after(n, next)`: `next` comes behind `n`. -/
def hlist_add_after (n next : α) (s : Hlists α β) : Hlists α β :=
  let s := s.set (.next next) (s.value (.next n))
  let s := s.set (.next n) (some next)
  let s := s.set_pprev next (some (.next n))
  s.repoint (s.value (.next next)) (some (.next next))

/-- `hlist_add_fake(n)`. -/
def hlist_add_fake (n : α) (s : Hlists α β) : Hlists α β := s.set_pprev n (some (.next n))

/-- `hlist_move_list(old, new)`. -/
def hlist_move_list (old new : β) (s : Hlists α β) : Hlists α β :=
  let s := s.set (.first new) (s.value (.first old))
  let s := s.repoint (s.value (.first new)) (some (.first new))
  s.set (.first old) none

end Functions

/-! ### Pieces of lists -/

section Lists

variable {α β : Type}

/-- A pointer in memory. -/
inductive Cell (α β : Type)
  | value (p : Slot α β)
  | pprev (n : α)
deriving DecidableEq

/-- Entries that are in no list, heads, and parts of lists. -/
inductive HPiece (α β : Type)
  | free (n : α)
  | unhashed (n : α)
  | fake (n : α)
  | raw (h : β)
  | upto (p : Slot α β) (l : List α)
  | chain (p : Slot α β) (l : List α)
deriving DecidableEq

/-- The pointers of the entries `l`. -/
def links (l : List α) : List (Cell α β) := l.flatMap fun n => [.pprev n, .value (.next n)]

/-- And the pointer to the first of them. -/
def cells (p : Slot α β) (l : List α) : List (Cell α β) := .value p :: links l

/-- Without the last pointer. -/
def cells_upto : Slot α β → List α → List (Cell α β)
  | _, [] => []
  | p, n :: l => .value p :: .pprev n :: cells_upto (.next n) l

/-- The pointer behind the entries `l`. -/
def last : Slot α β → List α → Slot α β
  | p, [] => p
  | _, n :: l => last (.next n) l

/-- The entries `l`, and NULL behind them. -/
def Chain (s : Hlists α β) : Slot α β → List α → Prop
  | p, [] => s.value p = none
  | p, n :: l => s.value p = some n ∧ s.pprev n = some p ∧ Chain s (.next n) l

/-- The entries `l`. -/
def Upto (s : Hlists α β) : Slot α β → List α → Prop
  | _, [] => True
  | p, n :: l => s.value p = some n ∧ s.pprev n = some p ∧ Upto s (.next n) l

/-- The cells of a piece. -/
def HPiece.cells : HPiece α β → List (Cell α β)
  | .free n => [.pprev n, .value (.next n)]
  | .unhashed n => [.pprev n, .value (.next n)]
  | .fake n => [.pprev n, .value (.next n)]
  | .raw h => [.value (.first h)]
  | .upto p l => cells_upto p l
  | .chain p l => Linux.cells p l

/-- What is known of a piece. -/
def HPiece.There (s : Hlists α β) : HPiece α β → Prop
  | .free _ => True
  | .unhashed n => s.value (.next n) = none ∧ s.pprev n = none
  | .fake n => s.value (.next n) = none ∧ s.pprev n = some (.next n)
  | .raw _ => True
  | .upto p l => Upto s p l
  | .chain p l => Chain s p l

/-- A cell is as it was. -/
def Cell.Same (s s' : Hlists α β) : Cell α β → Prop
  | .value p => s'.value p = s.value p
  | .pprev n => s'.pprev n = s.pprev n

variable {s s' : Hlists α β} {p τ : Slot α β} {n x : α} {l m q : List α}

theorem links_cons (n : α) (l : List α) :
    links (n :: l) = (.pprev n : Cell α β) :: .value (.next n) :: links l := rfl

theorem pprev_mem_links (hx : x ∈ l) : (.pprev x : Cell α β) ∈ links l :=
  List.mem_flatMap.mpr ⟨x, hx, List.mem_cons_self ..⟩

/-- The pointers of entries are not the head of a list. -/
theorem first_not_mem_links (h : β) (l : List α) : Cell.value (.first h) ∉ links l := by
  simp [links]

theorem Chain.congr (h : Chain s p l) (hsame : ∀ c ∈ cells p l, c.Same s s') : Chain s' p l := by
  induction l generalizing p with
  | nil => exact (hsame (.value p) (by simp [cells])).trans h
  | cons n l ih =>
    refine ⟨(hsame (.value p) (by simp [cells])).trans h.1,
      (hsame (.pprev n) (by simp [cells, links_cons])).trans h.2.1, ih h.2.2 fun c hc => hsame c ?_⟩
    exact List.mem_cons_of_mem _ (List.mem_cons_of_mem _ hc)

theorem Upto.congr (h : Upto s p l) (hsame : ∀ c ∈ cells_upto p l, c.Same s s') :
    Upto s' p l := by
  induction l generalizing p with
  | nil => trivial
  | cons n l ih =>
    refine ⟨(hsame (.value p) (by simp [cells_upto])).trans h.1,
      (hsame (.pprev n) (by simp [cells_upto])).trans h.2.1, ih h.2.2 fun c hc => hsame c ?_⟩
    exact List.mem_cons_of_mem _ (List.mem_cons_of_mem _ hc)

/-- The pointer to a list points at its first entry. -/
theorem Chain.head (h : Chain s p l) : s.value p = l.head? := by
  cases l with
  | nil => exact h
  | cons n l => exact h.1

/-- Memory as hash lists. -/
def hlists (α β : Type) : Pieces (Hlists α β) (Cell α β) (HPiece α β) where
  nodes := HPiece.cells
  There := HPiece.There
  Same := Cell.Same
  refl := fun _ c => by cases c <;> rfl
  trans := fun {_ _ _ c} h h' => by
    cases c with
    | value p => exact Eq.trans h' h
    | pprev n => exact Eq.trans h' h
  congr := fun {s s' r} h hsame => by
    cases r with
    | free n => trivial
    | unhashed n =>
      exact ⟨(hsame (.value (.next n)) (by simp [HPiece.cells])).trans h.1,
        (hsame (.pprev n) (by simp [HPiece.cells])).trans h.2⟩
    | fake n =>
      exact ⟨(hsame (.value (.next n)) (by simp [HPiece.cells])).trans h.1,
        (hsame (.pprev n) (by simp [HPiece.cells])).trans h.2⟩
    | raw h => trivial
    | upto p l => exact Upto.congr h hsame
    | chain p l => exact Chain.congr h hsame

theorem cells_append (p : Slot α β) (l m : List α) :
    cells p (l ++ m) = cells_upto p l ++ cells (last p l) m := by
  induction l generalizing p with
  | nil => rfl
  | cons n l ih =>
    have hrest := ih (.next n)
    rw [cells] at hrest
    rw [List.cons_append, cells, links_cons, hrest]
    rfl

theorem chain_append : Chain s p (l ++ m) ↔ Upto s p l ∧ Chain s (last p l) m := by
  induction l generalizing p with
  | nil => exact ⟨fun h => ⟨trivial, h⟩, fun h => h.2⟩
  | cons n l ih => rw [List.cons_append, Chain, ih, Upto, last, and_assoc, and_assoc]

theorem all_split (p : Slot α β) (l m : List α) :
    (hlists α β).all [.upto p l, .chain (last p l) m] = (hlists α β).all [.chain p (l ++ m)] := by
  have hcells := cells_append p l m
  simpa [Pieces.all, hlists, HPiece.cells] using hcells.symm

/-- **A list is taken apart**, -/
theorem spec_split (p : Slot α β) (l m : List α) :
    (hlists α β).Spec (fun s => s) [.chain p (l ++ m)] [.upto p l, .chain (last p l) m] := by
  refine ⟨.of_eq (all_split p l m).symm, fun s _ => .refl _ s, fun s hs r hr => ?_⟩
  obtain ⟨hupto, hchain⟩ := chain_append.mp (hs.there _ (List.mem_singleton_self _))
  rcases List.mem_cons.mp hr with rfl | hr
  · exact hupto
  · obtain rfl := List.mem_singleton.mp hr
    exact hchain

/-- and put together again. -/
theorem spec_join (p : Slot α β) (l m : List α) :
    (hlists α β).Spec (fun s => s) [.upto p l, .chain (last p l) m] [.chain p (l ++ m)] := by
  refine ⟨.of_eq (all_split p l m), fun s _ => .refl _ s, fun s hs r hr => ?_⟩
  obtain rfl := List.mem_singleton.mp hr
  exact chain_append.mpr ⟨hs.there _ (List.mem_cons_self ..),
    hs.there _ (List.mem_cons_of_mem _ (List.mem_singleton_self _))⟩

/-! ### Putting in and taking out -/

/-- `n` is put in at the pointer `τ`. -/
structure Inserted (n : α) (τ : Slot α β) (s s' : Hlists α β) : Prop where
  front : s'.value τ = some n
  back : s'.pprev n = some τ
  next : s'.value (.next n) = s.value τ
  behind : ∀ x, s.value τ = some x → s'.pprev x = some (.next n)
  values : ∀ p, p ≠ τ → p ≠ .next n → s'.value p = s.value p
  pprevs : ∀ x, x ≠ n → s.value τ ≠ some x → s'.pprev x = s.pprev x

/-- `n` is taken out at the pointer `τ`. -/
structure Removed (n : α) (τ : Slot α β) (s s' : Hlists α β) : Prop where
  front : s'.value τ = s.value (.next n)
  behind : ∀ x, s.value (.next n) = some x → s'.pprev x = some τ
  values : ∀ p, p ≠ τ → p ≠ .next n → s'.value p = s.value p
  pprevs : ∀ x, x ≠ n → s.value (.next n) ≠ some x → s'.pprev x = s.pprev x

theorem Chain.head_ne (h : Chain s p l) (hx : x ∉ l) : s.value p ≠ some x := by
  rw [h.head]
  exact fun hhead => hx (List.mem_of_mem_head? hhead)

/-- The rest of a list behind its first entry is left alone. -/
theorem rest_same {a b : Slot α β} {r : α}
    (hnodup : (Cell.value a :: .pprev r :: .value b :: links q).Nodup)
    (hvalues : ∀ p, p ≠ a → p ≠ b → s'.value p = s.value p)
    (hpprevs : ∀ x, x ≠ r → s.value p ≠ some x → s'.pprev x = s.pprev x) (hq : Chain s p q)
    {y : α} {t : List α} (hyt : q = y :: t) : Chain s' (.next y) t := by
  subst hyt
  simp only [links_cons, List.nodup_cons, List.mem_cons, not_or] at hnodup
  obtain ⟨⟨-, -, -, hay, hat⟩, ⟨-, hry, -, hrt⟩, ⟨-, hby, hbt⟩, ⟨-, hyt⟩, -⟩ := hnodup
  refine hq.2.2.congr fun c hc => ?_
  rcases List.mem_cons.mp hc with rfl | hc
  · exact hvalues _ (fun h => hay (h ▸ rfl)) fun h => hby (h ▸ rfl)
  · cases c with
    | value p => exact hvalues p (fun h => hat (h ▸ hc)) fun h => hbt (h ▸ hc)
    | pprev x =>
      refine hpprevs x (fun h => hrt (h ▸ hc)) fun h => hyt ?_
      rw [hq.1] at h
      exact Option.some.inj h ▸ hc

/-- The pointer that points at an entry is not its own, and it is in the list once. -/
theorem cells_cons_nodup (h : (cells τ (n :: q)).Nodup) : τ ≠ .next n ∧ n ∉ q := by
  rw [cells, links_cons, List.nodup_cons, List.nodup_cons] at h
  refine ⟨fun hτ => h.1 (by simp [hτ]), fun hn => h.2.1 ?_⟩
  exact List.mem_cons_of_mem _ (pprev_mem_links hn)

/-- **Putting in at the beginning.** -/
theorem spec_insert {f : Hlists α β → Hlists α β} (n : α) (τ : Slot α β) (q : List α)
    (hf : ∀ s, (cells τ (n :: q)).Nodup → Chain s τ q → Inserted n τ s (f s)) :
    (hlists α β).Spec f [.free n, .chain τ q] [.chain τ (n :: q)] := by
  have hperm : ([Cell.pprev n, .value (.next n)] ++ cells τ q).Perm (cells τ (n :: q)) :=
    @List.perm_middle _ _ [Cell.pprev n, .value (.next n)] _
  refine .one (N := [Cell.pprev n, .value (.next n)] ++ cells τ q)
    (by simp [Pieces.all, hlists, HPiece.cells]) hperm fun s hnodup hthere => ?_
  rw [hperm.nodup_iff] at hnodup
  have hq : Chain s τ q := hthere (.chain τ q) (by simp)
  have h := hf s hnodup hq
  refine ⟨fun c hc => ?_, h.front, h.back, ?_⟩
  · rw [hperm.mem_iff, cells, links_cons, List.mem_cons, List.mem_cons, List.mem_cons, not_or,
      not_or, not_or] at hc
    cases c with
    | value p => exact h.values p (fun e => hc.1 (e ▸ rfl)) fun e => hc.2.2.1 (e ▸ rfl)
    | pprev x =>
      exact h.pprevs x (fun e => hc.2.1 (e ▸ rfl)) (hq.head_ne fun hx => hc.2.2.2
        (pprev_mem_links hx))
  · cases q with
    | nil => exact h.next.trans hq
    | cons y t =>
      exact ⟨h.next.trans hq.1, h.behind y hq.1,
        rest_same hnodup h.values h.pprevs hq rfl⟩

/-- **Taking out at the beginning.** -/
theorem spec_remove {f : Hlists α β → Hlists α β} (n : α) (τ : Slot α β) (q : List α)
    (hf : ∀ s, (cells τ (n :: q)).Nodup → Chain s τ (n :: q) → Removed n τ s (f s)) :
    (hlists α β).Spec f [.chain τ (n :: q)] [.free n, .chain τ q] := by
  have hperm : (cells τ (n :: q)).Perm ([Cell.pprev n, .value (.next n)] ++ cells τ q) :=
    (@List.perm_middle _ _ [Cell.pprev n, .value (.next n)] _).symm
  have hall : (hlists α β).all [.chain τ (n :: q)] = cells τ (n :: q) := by
    simp [Pieces.all, hlists, HPiece.cells]
  have hremoved : ∀ s, (hlists α β).Holds s [.chain τ (n :: q)] →
      (cells τ (n :: q)).Nodup ∧ Chain s τ (n :: q) ∧ Removed n τ s (f s) := fun s hs =>
    have hchain := hs.there _ (List.mem_singleton_self _)
    ⟨hall ▸ hs.nodup, hchain, hf s (hall ▸ hs.nodup) hchain⟩
  refine ⟨?_, fun s hs c hc => ?_, fun s hs r hr => ?_⟩
  · rw [hall]
    simpa [Pieces.all, hlists, HPiece.cells] using hperm
  · obtain ⟨-, hchain, h⟩ := hremoved s hs
    rw [hall, cells, links_cons, List.mem_cons, List.mem_cons, List.mem_cons, not_or, not_or,
      not_or] at hc
    cases c with
    | value p => exact h.values p (fun e => hc.1 (e ▸ rfl)) fun e => hc.2.2.1 (e ▸ rfl)
    | pprev x =>
      exact h.pprevs x (fun e => hc.2.1 (e ▸ rfl)) (hchain.2.2.head_ne fun hx => hc.2.2.2
        (pprev_mem_links hx))
  · obtain ⟨hnodup, hchain, h⟩ := hremoved s hs
    rcases List.mem_cons.mp hr with rfl | hr
    · trivial
    · obtain rfl := List.mem_singleton.mp hr
      cases q with
      | nil => exact h.front.trans hchain.2.2
      | cons y t =>
        exact ⟨h.front.trans hchain.2.2.1, h.behind y hchain.2.2.1,
          rest_same hnodup h.values h.pprevs hchain.2.2 rfl⟩

/-- Writing both pointers of an entry. -/
theorem spec_node {f : Hlists α β → Hlists α β} (n : α) (r : HPiece α β)
    (hr : r.cells = [.pprev n, .value (.next n)])
    (hf : ∀ s, r.There (f s) ∧ (∀ p, p ≠ .next n → (f s).value p = s.value p) ∧
      ∀ x, x ≠ n → (f s).pprev x = s.pprev x) :
    (hlists α β).Spec f [.free n] [r] := by
  refine .one (N := [.pprev n, .value (.next n)]) rfl (.of_eq hr.symm) fun s _ _ => ?_
  obtain ⟨hthere, hvalues, hpprevs⟩ := hf s
  refine ⟨fun c hc => ?_, hthere⟩
  cases c with
  | value p => exact hvalues p fun h => hc (by simp [h])
  | pprev x => exact hpprevs x fun h => hc (by simp [h])

end Lists

/-! ### What the functions do -/

section Specs

variable {α β : Type} [DecidableEq α] [DecidableEq β]

theorem hlist_add_head_spec (n : α) (h : β) (q : List α) :
    (hlists α β).Spec (hlist_add_head n h) [.free n, .chain (.first h) q]
      [.chain (.first h) (n :: q)] := by
  refine spec_insert n _ q fun s hnodup hq => ?_
  have hn := hq.head_ne (cells_cons_nodup hnodup).2
  refine ⟨?_, ?_, ?_, fun x hx => ?_, fun p hp hpn => ?_, fun x hxn hx => ?_⟩
  · simp [hlist_add_head]
  · simp [hlist_add_head]
  · simp [hlist_add_head]
  · have hxn : x ≠ n := by
      rintro rfl
      exact hn hx
    simp [hlist_add_head, hx, hxn]
  · simp [hlist_add_head, hp, hpn]
  · simp [hlist_add_head, hxn, hx]

theorem hlist_add_after_spec (n y : α) (q : List α) :
    (hlists α β).Spec (hlist_add_after n y) [.free y, .chain (.next n) q]
      [.chain (.next n) (y :: q)] := by
  refine spec_insert y _ q fun s hnodup hq => ?_
  obtain ⟨hny, hyq⟩ := cells_cons_nodup hnodup
  have hy := hq.head_ne hyq
  refine ⟨?_, ?_, ?_, fun x hx => ?_, fun p hp hpn => ?_, fun x hxn hx => ?_⟩
  · simp [hlist_add_after]
  · simp [hlist_add_after, Function.update_of_ne hny.symm, hy]
  · simp [hlist_add_after, Function.update_of_ne hny.symm]
  · simp [hlist_add_after, Function.update_of_ne hny.symm, hx]
  · simp [hlist_add_after, hp, hpn]
  · simp [hlist_add_after, Function.update_of_ne hny.symm, hx, hxn]

theorem hlist_add_before_spec (n x : α) (τ : Slot α β) (q : List α) :
    (hlists α β).Safe (hlist_add_before n x) [.free n, .chain τ (x :: q)]
      [.chain τ (n :: x :: q)] := by
  have hspec : (hlists α β).Spec (fun s => (((s.set_pprev n (some τ)).set (.next n)
      (some x)).set_pprev x (some (.next n))).set τ (some n)) [.free n, .chain τ (x :: q)]
      [.chain τ (n :: x :: q)] := by
    refine spec_insert n τ (x :: q) fun s hnodup hq => ?_
    obtain ⟨hτn, hnx, -⟩ : τ ≠ .next n ∧ n ≠ x ∧ n ∉ q := by
      simpa using cells_cons_nodup hnodup
    refine ⟨?_, ?_, ?_, fun y hy => ?_, fun p hp hpn => ?_, fun y hyn hy => ?_⟩
    · simp
    · simp [hnx]
    · simp [Function.update_of_ne hτn.symm, hq.1]
    · obtain rfl : x = y := by simpa [hq.1] using hy
      simp
    · simp [hp, hpn]
    · have hxy : y ≠ x := by
        rintro rfl
        exact hy hq.1
      simp [hyn, hxy]
  refine hspec.safe fun s hs => ?_
  have hq : Chain s τ (x :: q) := hs.there (.chain τ (x :: q)) (by simp)
  have hnx : n ≠ x := by
    rintro rfl
    have hnodup := hs.nodup
    simp [Pieces.all, hlists, HPiece.cells, cells, links_cons] at hnodup
  simp [hlist_add_before, hq.2.1, hnx]

theorem __hlist_del_spec (n : α) (τ : Slot α β) (q : List α) :
    (hlists α β).Safe (__hlist_del n) [.chain τ (n :: q)] [.free n, .chain τ q] := by
  have hspec : (hlists α β).Spec (fun s =>
      (s.set τ (s.value (.next n))).repoint (s.value (.next n)) (some τ)) [.chain τ (n :: q)]
      [.free n, .chain τ q] := by
    refine spec_remove n τ q fun s _ _ => ?_
    refine ⟨?_, fun x hx => ?_, fun p hp hpn => ?_, fun x hxn hx => ?_⟩
    · simp
    · simp [hx]
    · simp [hp]
    · simp [hx]
  refine hspec.safe fun s hs => ?_
  have hq : Chain s τ (n :: q) := hs.there (.chain τ (n :: q)) (by simp)
  rw [__hlist_del, hq.2.1]
  rfl

theorem INIT_HLIST_NODE_spec (n : α) :
    (hlists α β).Spec (INIT_HLIST_NODE n) [.free n] [.unhashed n] := by
  refine spec_node n _ rfl fun s => ⟨?_, fun p hp => ?_, fun x hx => ?_⟩
  · simp [INIT_HLIST_NODE, HPiece.There]
  · simp [INIT_HLIST_NODE, hp]
  · simp [INIT_HLIST_NODE, hx]

theorem poison_spec (poison : HPoison α β) (n : α) :
    (hlists α β).Spec (fun s => (s.set (.next n) (some poison.LIST_POISON1)).set_pprev n
      (some poison.LIST_POISON2)) [.free n] [.free n] := by
  refine spec_node n _ rfl fun s => ⟨trivial, fun p hp => ?_, fun x hx => ?_⟩
  · simp [hp]
  · simp [hx]

theorem hlist_del_spec (poison : HPoison α β) (n : α) (τ : Slot α β) (q : List α) :
    (hlists α β).Safe (hlist_del poison n) [.chain τ (n :: q)] [.free n, .chain τ q] :=
  (__hlist_del_spec n τ q).map ((poison_spec poison n).more [.chain τ q])

/-- An entry that says it is in a list. -/
theorem hlist_del_init_hashed {n : α} {s : Hlists α β} (hn : hlist_unhashed n s = false) :
    hlist_del_init n s = (__hlist_del n s).map (INIT_HLIST_NODE n) := by
  rw [hlist_del_init, hn]
  rfl

theorem hlist_del_init_spec (n : α) (τ : Slot α β) (q : List α) :
    (hlists α β).Safe (hlist_del_init n) [.chain τ (n :: q)] [.unhashed n, .chain τ q] := by
  refine ((__hlist_del_spec n τ q).map ((INIT_HLIST_NODE_spec n).more [.chain τ q])).congr
    fun s hs => hlist_del_init_hashed ?_
  have hq : Chain s τ (n :: q) := hs.there (.chain τ (n :: q)) (by simp)
  rw [hlist_unhashed, hq.2.1]
  rfl

theorem hlist_del_init_unhashed_spec (n : α) :
    (hlists α β).Safe (hlist_del_init n) [.unhashed n] [.unhashed n] := by
  refine (Pieces.Spec.id [HPiece.unhashed n]).safe fun s hs => ?_
  have hn : s.value (.next n) = none ∧ s.pprev n = none := hs.there (.unhashed n) (by simp)
  rw [hlist_del_init, hlist_unhashed, hn.2]
  rfl

omit [DecidableEq β] in
theorem hlist_add_fake_spec (n : α) :
    (hlists α β).Spec (hlist_add_fake n) [.unhashed n] [.fake n] := by
  refine .one (N := [.pprev n, .value (.next n)]) rfl (.refl _) fun s _ hthere => ?_
  have hn : s.value (.next n) = none ∧ s.pprev n = none := hthere (.unhashed n) (by simp)
  refine ⟨fun c hc => ?_, ?_⟩
  · cases c with
    | value p => rfl
    | pprev x =>
      have hxn : x ≠ n := fun h => hc (by simp [h])
      exact Function.update_of_ne hxn ..
  · simp [hlist_add_fake, hlists, HPiece.There, hn.1]

/-- An entry that is in no list but says it is can be taken out. -/
theorem __hlist_del_fake_spec (n : α) :
    (hlists α β).Safe (__hlist_del n) [.fake n] [.free n] := by
  have hspec : (hlists α β).Spec (fun s => s.set (.next n) none) [.fake n] [.free n] := by
    refine .one (N := [.pprev n, .value (.next n)]) rfl (.refl _) fun s _ _ => ?_
    refine ⟨fun c hc => ?_, trivial⟩
    cases c with
    | value p =>
      have hp : p ≠ .next n := fun h => hc (by simp [h])
      exact Function.update_of_ne hp ..
    | pprev x => rfl
  refine hspec.safe fun s hs => ?_
  have hn : s.value (.next n) = none ∧ s.pprev n = some (.next n) :=
    hs.there (.fake n) (by simp)
  rw [__hlist_del, hn.2, hn.1]
  rfl

theorem hlist_del_fake_spec (poison : HPoison α β) (n : α) :
    (hlists α β).Safe (hlist_del poison n) [.fake n] [.free n] :=
  (__hlist_del_fake_spec n).map (poison_spec poison n)

theorem hlist_del_init_fake_spec (n : α) :
    (hlists α β).Safe (hlist_del_init n) [.fake n] [.unhashed n] := by
  refine ((__hlist_del_fake_spec n).map (INIT_HLIST_NODE_spec n)).congr
    fun s hs => hlist_del_init_hashed ?_
  have hn : s.value (.next n) = none ∧ s.pprev n = some (.next n) :=
    hs.there (.fake n) (by simp)
  rw [hlist_unhashed, hn.2]
  rfl

theorem INIT_HLIST_HEAD_spec (h : β) :
    (hlists α β).Spec (INIT_HLIST_HEAD h) [.raw h] [.chain (.first h) []] := by
  refine .one (N := [.value (.first h)]) rfl (.refl _) fun s _ _ => ⟨fun c hc => ?_, ?_⟩
  · cases c with
    | value p =>
      have hp : p ≠ .first h := fun h => hc (by simp [h])
      exact Function.update_of_ne hp ..
    | pprev x => rfl
  · exact Function.update_self ..

theorem hlist_move_list_spec (old new : β) (l : List α) :
    (hlists α β).Spec (hlist_move_list old new) [.chain (.first old) l, .raw new]
      [.chain (.first new) l, .chain (.first old) []] := by
  have hall : (hlists α β).all [.chain (.first old) l, .raw new] =
      .value (.first old) :: (links l ++ [.value (.first new)]) := by
    simp [Pieces.all, hlists, HPiece.cells, cells]
  have hperm : (Cell.value (.first old) :: (links l ++ [Cell.value (.first new)])).Perm
      (.value (.first new) :: (links l ++ [.value (.first old)])) := by
    refine ((List.perm_append_singleton _ _).cons _).trans (.trans (.swap ..) ?_)
    exact (List.perm_append_singleton _ _).symm.cons _
  refine ⟨?_, fun s hs c hc => ?_, fun s hs r hr => ?_⟩
  · rw [hall]
    simpa [Pieces.all, hlists, HPiece.cells, cells, links] using hperm
  · rw [hall, List.mem_cons, List.mem_append, List.mem_singleton, not_or, not_or] at hc
    have hl : Chain s (.first old) l := hs.there (.chain (.first old) l) (by simp)
    cases c with
    | value p =>
      have hpo : p ≠ .first old := fun h => hc.1 (h ▸ rfl)
      have hpn : p ≠ .first new := fun h => hc.2.2 (h ▸ rfl)
      simp [hlist_move_list, hlists, Cell.Same, hpo, hpn]
    | pprev x =>
      have hx := hl.head_ne fun hx => hc.2.1 (pprev_mem_links hx)
      simp [hlist_move_list, hlists, Cell.Same, hx]
  · have hl : Chain s (.first old) l := hs.there (.chain (.first old) l) (by simp)
    have hnodup := hs.nodup
    rw [hall] at hnodup
    rcases List.mem_cons.mp hr with rfl | hr
    · have hne : new ≠ old := by
        rintro rfl
        exact (List.nodup_cons.mp hnodup).1 (by simp)
      cases l with
      | nil => simpa [hlist_move_list, hlists, HPiece.There, Chain, hne] using hl
      | cons y t =>
        refine ⟨by simp [hlist_move_list, hne, hl.1], by simp [hlist_move_list, hl.1],
          hl.2.2.congr fun c hc => ?_⟩
        cases c with
        | value p =>
          have hp : ∀ h : β, p ≠ .first h := by
            rintro h rfl
            exact first_not_mem_links h t (by simpa [cells] using hc)
          simp [hlist_move_list, Cell.Same, hp]
        | pprev x =>
          have hx : y ≠ x := by
            rintro rfl
            have hlinks : (links (y :: t) : List (Cell α β)).Nodup :=
              (List.nodup_cons.mp hnodup).2.of_append_left
            exact (List.nodup_cons.mp hlinks).1 hc
          simp [hlist_move_list, Cell.Same, hl.1, hx]
    · obtain rfl := List.mem_singleton.mp hr
      simp [hlist_move_list, hlists, HPiece.There, Chain]

end Specs

end Boxing.Linux
