import Mathlib.Data.List.Perm.Basic
import Mathlib.Data.List.Nodup

/-!
# Memory in pieces

What is known of memory is a list of pieces.  A piece has nodes, and says something of them that
only depends on them; the nodes of all pieces are different (`Holds`).

`Spec f P Q` says that `f` makes of the pieces `P` the pieces `Q` and touches no other node.  So it
does where there are more pieces (`Spec.holds`, `Spec.more`), and one after the other
(`Spec.comp`).  `Safe` says besides that a function that may crash does not.  A program of such
functions, each of which finds its pieces among those there are, leaves the pieces that are counted
up (`Runs.holds`, `Runs.holds_safe`).
-/

namespace Boxing.C

/-- A kind of memory `S` with nodes `A`, and the pieces `P` it can have. -/
structure Pieces (S A P : Type) where
  nodes : P → List A
  There : S → P → Prop
  Same : S → S → A → Prop
  refl : ∀ s x, Same s s x
  trans : ∀ {s s' s'' x}, Same s s' x → Same s' s'' x → Same s s'' x
  congr : ∀ {s s' p}, There s p → (∀ x ∈ nodes p, Same s s' x) → There s' p

namespace Pieces

variable {S A T : Type} {M : Pieces S A T} {s s' s'' : S} {N : List A} {P P' Q Q' F : List T}
  {f g : S → S}

/-- The nodes of some pieces. -/
def all (M : Pieces S A T) (P : List T) : List A := P.flatMap M.nodes

/-- The pieces are there, and all nodes are different. -/
structure Holds (M : Pieces S A T) (s : S) (P : List T) : Prop where
  nodup : (M.all P).Nodup
  there : ∀ p ∈ P, M.There s p

/-- Only the nodes `N` have changed. -/
def Touches (M : Pieces S A T) (N : List A) (s s' : S) : Prop := ∀ x ∉ N, M.Same s s' x

theorem Touches.refl (N : List A) (s : S) : M.Touches N s s := fun x _ => M.refl s x

theorem Touches.trans (h : M.Touches N s s') (h' : M.Touches N s' s'') : M.Touches N s s'' :=
  fun x hx => M.trans (h x hx) (h' x hx)

theorem all_append (P Q : List T) : M.all (P ++ Q) = M.all P ++ M.all Q := List.flatMap_append

theorem all_perm (h : P.Perm Q) : (M.all P).Perm (M.all Q) := h.flatMap_right _

theorem Holds.perm (hs : M.Holds s P) (h : P.Perm Q) : M.Holds s Q :=
  ⟨(all_perm h).nodup_iff.mp hs.nodup, fun p hp => hs.there p (h.mem_iff.mpr hp)⟩

theorem Holds.left (hs : M.Holds s (P ++ Q)) : M.Holds s P := by
  have hnodup := hs.nodup
  rw [all_append] at hnodup
  exact ⟨hnodup.of_append_left, fun p hp => hs.there p (List.mem_append_left _ hp)⟩

/-- One of the pieces. -/
theorem Holds.piece (hs : M.Holds s P) {p : T} (hp : p ∈ P) : M.There s p ∧ (M.nodes p).Nodup :=
  ⟨hs.there p hp, (List.nodup_flatMap.mp hs.nodup).1 p hp⟩

/-- `f` makes of the pieces `P` the pieces `Q`, and touches no other node. -/
structure Spec (M : Pieces S A T) (f : S → S) (P Q : List T) : Prop where
  nodes : (M.all P).Perm (M.all Q)
  frame : ∀ s, M.Holds s P → M.Touches (M.all P) s (f s)
  there : ∀ s, M.Holds s P → ∀ p ∈ Q, M.There (f s) p

theorem Spec.id (P : List T) : M.Spec (fun s => s) P P :=
  ⟨.refl _, fun s _ => .refl _ s, fun _ hs => hs.there⟩

/-- **The other pieces** are left alone. -/
theorem Spec.holds (h : M.Spec f P Q) (hs : M.Holds s (P ++ F)) : M.Holds (f s) (Q ++ F) := by
  have hnodup := hs.nodup
  rw [all_append] at hnodup
  refine ⟨?_, fun p hp => ?_⟩
  · rw [all_append]
    exact (h.nodes.append_right _).nodup_iff.mp hnodup
  · rcases List.mem_append.mp hp with hp | hp
    · exact h.there s hs.left p hp
    · have hthere := hs.there p (List.mem_append_right _ hp)
      refine M.congr hthere fun x hx => h.frame s hs.left x fun hxP => ?_
      exact List.disjoint_of_nodup_append hnodup hxP (List.mem_flatMap.mpr ⟨p, hp, hx⟩)

theorem Spec.turns (h : M.Spec f P Q) (hs : M.Holds s P) : M.Holds (f s) Q :=
  ⟨h.nodes.nodup_iff.mp hs.nodup, h.there s hs⟩

/-- Only the states that have the pieces matter. -/
theorem Spec.congr (h : M.Spec f P Q) (hfg : ∀ s, M.Holds s P → g s = f s) : M.Spec g P Q := by
  refine ⟨h.nodes, fun s hs => ?_, fun s hs => ?_⟩
  · rw [hfg s hs]
    exact h.frame s hs
  · rw [hfg s hs]
    exact h.there s hs

/-- One after the other. -/
theorem Spec.comp (h : M.Spec f P Q) (h' : M.Spec g Q P') : M.Spec (fun s => g (f s)) P P' := by
  refine ⟨h.nodes.trans h'.nodes, fun s hs x hx => ?_, fun s hs => h'.there _ (h.turns hs)⟩
  exact M.trans (h.frame s hs x hx)
    (h'.frame _ (h.turns hs) x fun hxQ => hx (h.nodes.mem_iff.mpr hxQ))

/-- In another order. -/
theorem Spec.perm (h : M.Spec f P Q) (hP : P.Perm P') (hQ : Q.Perm Q') : M.Spec f P' Q' := by
  refine ⟨((all_perm hP).symm.trans h.nodes).trans (all_perm hQ), fun s hs x hx => ?_,
    fun s hs p hp => h.there s (hs.perm hP.symm) p (hQ.mem_iff.mpr hp)⟩
  exact h.frame s (hs.perm hP.symm) x fun hxP => hx ((all_perm hP).mem_iff.mp hxP)

/-- With more pieces. -/
theorem Spec.more (h : M.Spec f P Q) (F : List T) : M.Spec f (P ++ F) (Q ++ F) := by
  refine ⟨?_, fun s hs x hx => ?_, fun s hs => (h.holds hs).there⟩
  · rw [all_append, all_append]
    exact h.nodes.append_right _
  · rw [all_append] at hx
    exact h.frame s hs.left x fun hxP => hx (List.mem_append_left _ hxP)

theorem Spec.behind (h : M.Spec f P Q) (F : List T) : M.Spec f (F ++ P) (F ++ Q) :=
  (h.more F).perm List.perm_append_comm List.perm_append_comm

/-- What a function does to one piece, or to some that become one. -/
theorem Spec.one {r : T} (hP : M.all P = N) (hnodes : N.Perm (M.nodes r))
    (hf : ∀ s, N.Nodup → (∀ p ∈ P, M.There s p) → M.Touches N s (f s) ∧ M.There (f s) r) :
    M.Spec f P [r] := by
  subst hP
  refine ⟨?_, fun s hs => (hf s hs.nodup hs.there).1, fun s hs p hp => ?_⟩
  · simpa [all] using hnodes
  · obtain rfl := List.mem_singleton.mp hp
    exact (hf s hs.nodup hs.there).2

/-! ### Functions that may crash -/

/-- `f` does not crash where the pieces `P` are, and makes `Q` of them. -/
structure Safe (M : Pieces S A T) (f : S → Option S) (P Q : List T) : Prop where
  runs : ∀ s, M.Holds s P → (f s).isSome
  spec : M.Spec (fun s => (f s).getD s) P Q

theorem Spec.safe {f : S → Option S} (h : M.Spec g P Q)
    (hfg : ∀ s, M.Holds s P → f s = some (g s)) : M.Safe f P Q := by
  refine ⟨fun s hs => ?_, h.congr fun s hs => ?_⟩
  · rw [hfg s hs]
    rfl
  · rw [hfg s hs]
    rfl

theorem Safe.holds {f : S → Option S} (h : M.Safe f P Q) (hs : M.Holds s (P ++ F)) :
    ∃ s', f s = some s' ∧ M.Holds s' (Q ++ F) := by
  obtain ⟨s', hf⟩ := Option.isSome_iff_exists.mp (h.runs s hs.left)
  refine ⟨s', hf, ?_⟩
  have hQ := h.spec.holds hs
  rwa [hf] at hQ

theorem Safe.turns {f : S → Option S} (h : M.Safe f P Q) (hs : M.Holds s P) :
    ∃ s', f s = some s' ∧ M.Holds s' Q := by
  obtain ⟨s', hf⟩ := Option.isSome_iff_exists.mp (h.runs s hs)
  refine ⟨s', hf, ?_⟩
  have hQ := h.spec.turns hs
  rwa [hf] at hQ

theorem Safe.map {f : S → Option S} (h : M.Safe f P Q) (h' : M.Spec g Q P') :
    M.Safe (fun s => (f s).map g) P P' := by
  refine ⟨fun s hs => ?_, (h.spec.comp h').congr fun s hs => ?_⟩
  · rw [Option.isSome_map]
    exact h.runs s hs
  · obtain ⟨s', hf, -⟩ := h.turns hs
    rw [hf]
    rfl

theorem Safe.congr {f g : S → Option S} (h : M.Safe f P Q)
    (hfg : ∀ s, M.Holds s P → g s = f s) : M.Safe g P Q := by
  refine ⟨fun s hs => ?_, h.spec.congr fun s hs => ?_⟩
  · rw [hfg s hs]
    exact h.runs s hs
  · rw [hfg s hs]

/-- The pieces may be told apart in another way before and after. -/
theorem Safe.within {f : S → Option S} (hP : M.Spec (fun s => s) P P') (h : M.Safe f P' Q')
    (hQ : M.Spec (fun s => s) Q' Q) : M.Safe f P Q :=
  ⟨fun s hs => h.runs s (hP.turns hs), (hP.comp h.spec).comp hQ⟩

theorem Safe.perm {f : S → Option S} (h : M.Safe f P Q) (hP : P.Perm P') (hQ : Q.Perm Q') :
    M.Safe f P' Q' :=
  ⟨fun s hs => h.runs s (hs.perm hP.symm), h.spec.perm hP hQ⟩

theorem Safe.more {f : S → Option S} (h : M.Safe f P Q) (F : List T) :
    M.Safe f (P ++ F) (Q ++ F) :=
  ⟨fun s hs => h.runs s hs.left, h.spec.more F⟩

/-! ### Programs -/

/-- A run of commands, each of which finds its pieces among those there are. -/
inductive Runs {C : Type} (does : C → List T → List T → Prop) : List C → List T → List T → Prop
  | nil {R R' : List T} (h : R.Perm R') : Runs does [] R R'
  | cons {c : C} {cs : List C} {P Q F R R' : List T} (hd : does c P Q) (hR : R.Perm (P ++ F))
      (h : Runs does cs (Q ++ F) R') : Runs does (c :: cs) R R'

/-- **What a run leaves** are the pieces it counts up. -/
theorem Runs.holds {C : Type} {does : C → List T → List T → Prop} {exec : C → S → S}
    (hdoes : ∀ {c P Q}, does c P Q → M.Spec (exec c) P Q) {cs : List C} {R R' : List T}
    (h : Runs does cs R R') (hs : M.Holds s R) :
    M.Holds (cs.foldl (fun s c => exec c s) s) R' := by
  induction h generalizing s with
  | nil h => exact hs.perm h
  | cons hd hR _ ih => exact ih ((hdoes hd).holds (hs.perm hR))

/-- And no call of it crashes. -/
theorem Runs.holds_safe {C : Type} {does : C → List T → List T → Prop} {exec : C → S → Option S}
    (hdoes : ∀ {c P Q}, does c P Q → M.Safe (exec c) P Q) {cs : List C} {R R' : List T}
    (h : Runs does cs R R') (hs : M.Holds s R) :
    ∃ s', cs.foldlM (fun s c => exec c s) s = some s' ∧ M.Holds s' R' := by
  induction h generalizing s with
  | nil h => exact ⟨s, rfl, hs.perm h⟩
  | cons hd hR _ ih =>
    obtain ⟨s₁, hexec, hs₁⟩ := (hdoes hd).holds (hs.perm hR)
    obtain ⟨s', hrun, hs'⟩ := ih hs₁
    exact ⟨s', by rw [List.foldlM_cons, hexec]; exact hrun, hs'⟩

end Pieces

end Boxing.C
