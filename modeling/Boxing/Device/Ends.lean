import Boxing.Device.Prog

/-!
# Programs that always come to an end

A loop that can go on for ever has runs like any other, all of them to `none`, and a
statement about runs does not see the difference.  `Ends S p w` does: from `w` every
execution of `p` is finite, whatever its calls are answered.  It is built up from the ends,
so that there is no room for an execution without one.

`Ends.iterate` takes a measure to show it of a loop, and `not_ends_iterate` an invariant to
refute it: a state from which the body can always go round again.
-/

namespace Boxing.Device

variable {Call : Type} {Ret : Call → Type} {W : Type}

/-- Every execution of `p` from `w` is finite. -/
inductive Ends (S : Sem Ret W) : {α : Type} → Prog Ret α → W → Prop
  | pure {α : Type} (a : α) (w : W) : Ends S (.pure a) w
  | call {α : Type} {c : Call} {k : Ret c → Prog Ret α} {w : W} :
      (∀ r w', S.step w c r w' → Ends S (k r) w') → Ends S (.call c k) w
  | loop {σ β α : Type} {body : σ → Prog Ret (σ ⊕ β)} {s : σ} {k : β → Prog Ret α} {w : W} :
      Ends S (body s) w →
      (∀ s' w', Run S (body s) w (some (.inl s')) w' → Ends S (.loop body s' k) w') →
      (∀ b w', Run S (body s) w (some (.inr b)) w' → Ends S (k b) w') → Ends S (.loop body s k) w

variable {S : Sem Ret W} {σ β : Type} {body : σ → Prog Ret (σ ⊕ β)} {I : σ → W → Prop} {s : σ}
  {w : W}

/-- A loop ends when every round ends, and makes a measure smaller or leaves. -/
theorem Ends.iterate (m : σ → Nat)
    (hb : ∀ s w, I s w → Ends S (body s) w ∧
      ∀ s' w', Run S (body s) w (some (.inl s')) w' → I s' w' ∧ m s' < m s) (hI : I s w) :
    Ends S (Prog.iterate body s) w := by
  induction hn : m s using Nat.strongRecOn generalizing s w with
  | ind n ih =>
    obtain ⟨hends, hnext⟩ := hb s w hI
    refine .loop hends (fun s' w' hr => ?_) fun b w' _ => .pure b w'
    obtain ⟨hI', hlt⟩ := hnext s' w' hr
    exact ih (m s') (hn ▸ hlt) hI' rfl

/-- A loop that can always go round again does not end. -/
theorem not_ends_iterate
    (hb : ∀ s w, I s w → ∃ s' w', Run S (body s) w (some (.inl s')) w' ∧ I s' w') (hI : I s w) :
    ¬ Ends S (Prog.iterate body s) w := by
  intro h
  rw [Prog.iterate] at h
  generalize hp : Prog.loop body s Prog.pure = p at h
  induction h generalizing s with
  | pure => cases hp
  | call => cases hp
  | loop _ _ _ _ ih =>
    cases hp
    obtain ⟨s', w', hr, hI'⟩ := hb _ _ hI
    exact ih s' w' hr hb hI' rfl

end Boxing.Device
