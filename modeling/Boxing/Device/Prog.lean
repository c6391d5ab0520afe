import Mathlib.Logic.Basic

/-!
# Programs that drive a device, and where they can stop

A program on a small board does two things: it computes, and it calls the
outside — opens a partition, erases a sector, waits for a child.  `Prog Ret α`
is such a program as a tree: it ends in an `α`, or makes a call `c` and goes on
with the answer of type `Ret c`, or runs a loop whose body says either how to go
round again or how to leave.

What a call does to the world is not the program's business.  A `Sem` says it,
twice: `step` relates the world before and after a call that came back, with its
answer, and `cut` relates the world before a call to every world a power loss
inside the call may leave.  `Run S p w o w'` then says that `p`, started in `w`,
can be found in `w'`: with `o = some a` it came to its end with the value `a`,
and with `o = none` the power went between two calls or inside one.

A loop has no fuel.  A loop that never ends has runs to `none` only, so a
statement about runs to `some a` says nothing of it, and a statement about
`none` speaks of all its finite beginnings.
-/

namespace Boxing.Device

variable {Call : Type}

/-- A program over calls `c : Call` answered in `Ret c`. -/
inductive Prog (Ret : Call → Type) : Type → Type 1
  | pure {α : Type} (a : α) : Prog Ret α
  | call {α : Type} (c : Call) (k : Ret c → Prog Ret α) : Prog Ret α
  | loop {σ β α : Type} (body : σ → Prog Ret (σ ⊕ β)) (s : σ) (k : β → Prog Ret α) : Prog Ret α

namespace Prog

variable {Ret : Call → Type} {α β σ : Type}

/-- Run `p`, hand its value to `f`. -/
def bind {α β : Type} : Prog Ret α → (α → Prog Ret β) → Prog Ret β
  | pure a, f => f a
  | call c k, f => call c fun r => bind (k r) f
  | loop body s k, f => loop body s fun b => bind (k b) f

instance : Monad (Prog Ret) where
  pure := pure
  bind := bind

/-- One call, with its answer as the value. -/
def ask (c : Call) : Prog Ret (Ret c) := call c pure

/-- A loop by itself: from `s`, repeat `body` until it answers `.inr b`. -/
def iterate (body : σ → Prog Ret (σ ⊕ β)) (s : σ) : Prog Ret β := loop body s pure

@[simp] theorem pure_eq (a : α) : (Pure.pure a : Prog Ret α) = pure a := rfl

@[simp] theorem pure_bind (a : α) (f : α → Prog Ret β) : ((pure a : Prog Ret α) >>= f) = f a := rfl

@[simp] theorem ask_bind (c : Call) (f : Ret c → Prog Ret β) : (ask c >>= f) = call c f := rfl

@[simp] theorem iterate_bind (body : σ → Prog Ret (σ ⊕ α)) (s : σ) (f : α → Prog Ret β) :
    (iterate body s >>= f) = loop body s f := rfl

theorem call_bind (c : Call) (k : Ret c → Prog Ret α) (f : α → Prog Ret β) :
    (call c k >>= f) = call c fun r => k r >>= f := rfl

theorem loop_bind {γ : Type} (body : σ → Prog Ret (σ ⊕ γ)) (s : σ) (k : γ → Prog Ret α)
    (f : α → Prog Ret β) : (loop body s k >>= f) = loop body s fun b => k b >>= f := rfl

end Prog

/-- What the calls do to a world `W`: when they come back, and when the power
goes while they are at work. -/
structure Sem (Ret : Call → Type) (W : Type) where
  step : W → (c : Call) → Ret c → W → Prop
  cut : W → Call → W → Prop

/-- Each call has at most one outcome. -/
def Sem.Determined {Ret : Call → Type} {W : Type} (S : Sem Ret W) : Prop :=
  ∀ {w : W} {c : Call} {r₁ r₂ : Ret c} {w₁ w₂ : W},
    S.step w c r₁ w₁ → S.step w c r₂ w₂ → r₂ = r₁ ∧ w₂ = w₁

/-- `Run S p w o w'`: started in `w`, the program `p` can be found in `w'`, at
its end with value `a` when `o = some a`, stopped by a power loss when
`o = none`. -/
inductive Run {Ret : Call → Type} {W : Type} (S : Sem Ret W) :
    {α : Type} → Prog Ret α → W → Option α → W → Prop
  | off {α : Type} (p : Prog Ret α) (w : W) : Run S p w none w
  | ret {α : Type} (a : α) (w : W) : Run S (.pure a) w (some a) w
  | call {α : Type} {c : Call} {k : Ret c → Prog Ret α} {w w' w'' : W} {r : Ret c}
      {o : Option α} : S.step w c r w' → Run S (k r) w' o w'' → Run S (.call c k) w o w''
  | cut {α : Type} {c : Call} {k : Ret c → Prog Ret α} {w w' : W} :
      S.cut w c w' → Run S (.call c k) w none w'
  | again {σ β α : Type} {body : σ → Prog Ret (σ ⊕ β)} {s s' : σ} {k : β → Prog Ret α}
      {w w' w'' : W} {o : Option α} : Run S (body s) w (some (.inl s')) w' →
      Run S (.loop body s' k) w' o w'' → Run S (.loop body s k) w o w''
  | leave {σ β α : Type} {body : σ → Prog Ret (σ ⊕ β)} {s : σ} {b : β} {k : β → Prog Ret α}
      {w w' w'' : W} {o : Option α} : Run S (body s) w (some (.inr b)) w' →
      Run S (k b) w' o w'' → Run S (.loop body s k) w o w''
  | inside {σ β α : Type} {body : σ → Prog Ret (σ ⊕ β)} {s : σ} {k : β → Prog Ret α}
      {w w' : W} : Run S (body s) w none w' → Run S (.loop body s k) w none w'

namespace Run

variable {Ret : Call → Type} {W : Type} {S : Sem Ret W} {α β : Type}

theorem pure_inv {a : α} {w w' : W} {o : Option α} (h : Run S (.pure a) w o w') :
    w' = w ∧ (o = none ∨ o = some a) := by
  cases h with
  | off => exact ⟨rfl, Or.inl rfl⟩
  | ret => exact ⟨rfl, Or.inr rfl⟩

theorem some_pure {a b : α} {w w' : W} :
    Run S (.pure a) w (some b) w' ↔ b = a ∧ w' = w := by
  constructor
  · intro h
    cases h
    exact ⟨rfl, rfl⟩
  · rintro ⟨rfl, rfl⟩
    exact .ret b w'

theorem some_call {c : Call} {k : Ret c → Prog Ret α} {b : α} {w w'' : W} :
    Run S (.call c k) w (some b) w'' ↔ ∃ r w', S.step w c r w' ∧ Run S (k r) w' (some b) w'' := by
  constructor
  · intro h
    cases h with
    | call hs hr => exact ⟨_, _, hs, hr⟩
  · rintro ⟨r, w', hs, hr⟩
    exact .call hs hr

/-- A call that has one answer and leaves the world as it is. -/
theorem some_call_eq {c : Call} {k : Ret c → Prog Ret α} {b : α} {w w'' : W} {a : Ret c}
    (h : ∀ r w', S.step w c r w' ↔ r = a ∧ w' = w) :
    Run S (.call c k) w (some b) w'' ↔ Run S (k a) w (some b) w'' := by
  rw [some_call]
  constructor
  · rintro ⟨r, w', hs, hr⟩
    obtain ⟨rfl, rfl⟩ := (h r w').mp hs
    exact hr
  · intro hr
    exact ⟨a, w, (h a w).mpr ⟨rfl, rfl⟩, hr⟩

/-- A run of `p` to its end, followed by a run of what `p` is continued with. -/
theorem bind {p : Prog Ret α} {f : α → Prog Ret β} {w w' w'' : W} {a : α} {o : Option β}
    (h : Run S p w (some a) w') (h' : Run S (f a) w' o w'') : Run S (p >>= f) w o w'' := by
  generalize ho : some a = o' at h
  induction h with
  | off => exact absurd ho (by simp)
  | ret b w => obtain rfl := Option.some.inj ho; exact h'
  | call hs _ ih => exact .call hs (ih h' ho)
  | cut => exact absurd ho (by simp)
  | again hb _ _ ih => exact .again hb (ih h' ho)
  | leave hb _ _ ih => exact .leave hb (ih h' ho)
  | inside => exact absurd ho (by simp)

/-- A run of `p >>= f` stops inside `p`, or comes to the end of `p` and goes on
with `f`. -/
theorem of_bind {p : Prog Ret α} {f : α → Prog Ret β} {w w' : W} {o : Option β}
    (h : Run S (p >>= f) w o w') :
    (o = none ∧ Run S p w none w') ∨
      ∃ a w₁, Run S p w (some a) w₁ ∧ Run S (f a) w₁ o w' := by
  generalize hq : (p >>= f) = q at h
  induction h generalizing p with
  | off q w => exact Or.inl ⟨rfl, .off p w⟩
  | ret b w =>
    cases p with
    | pure a => exact Or.inr ⟨a, w, .ret a w, by rw [Prog.pure_bind] at hq; rw [hq]; exact .ret b w⟩
    | call c k => rw [Prog.call_bind] at hq; cases hq
    | loop body s k => rw [Prog.loop_bind] at hq; cases hq
  | @call _ c k w w₁ w₂ r o hs hk ih =>
    cases p with
    | pure a =>
      rw [Prog.pure_bind] at hq
      exact Or.inr ⟨a, w, .ret a w, by rw [hq]; exact .call hs hk⟩
    | call c' k' =>
      rw [Prog.call_bind] at hq
      cases hq
      rcases ih rfl with ⟨ho, hp⟩ | ⟨a, w₃, hp, hf⟩
      · exact Or.inl ⟨ho, .call hs hp⟩
      · exact Or.inr ⟨a, w₃, .call hs hp, hf⟩
    | loop body s k' => rw [Prog.loop_bind] at hq; cases hq
  | @cut _ c k w w₁ hc =>
    cases p with
    | pure a =>
      rw [Prog.pure_bind] at hq
      exact Or.inr ⟨a, w, .ret a w, by rw [hq]; exact .cut hc⟩
    | call c' k' =>
      rw [Prog.call_bind] at hq
      cases hq
      exact Or.inl ⟨rfl, .cut hc⟩
    | loop body s k' => rw [Prog.loop_bind] at hq; cases hq
  | @again _ _ _ body s s' k w w₁ w₂ o hb hk _ ih =>
    cases p with
    | pure a =>
      rw [Prog.pure_bind] at hq
      exact Or.inr ⟨a, w, .ret a w, by rw [hq]; exact .again hb hk⟩
    | call c' k' => rw [Prog.call_bind] at hq; cases hq
    | loop body' s'' k' =>
      rw [Prog.loop_bind] at hq
      cases hq
      rcases ih (p := .loop body s' k') rfl with ⟨ho, hp⟩ | ⟨a, w₃, hp, hf⟩
      · exact Or.inl ⟨ho, .again hb hp⟩
      · exact Or.inr ⟨a, w₃, .again hb hp, hf⟩
  | @leave _ _ _ body s b k w w₁ w₂ o hb hk _ ih =>
    cases p with
    | pure a =>
      rw [Prog.pure_bind] at hq
      exact Or.inr ⟨a, w, .ret a w, by rw [hq]; exact .leave hb hk⟩
    | call c' k' => rw [Prog.call_bind] at hq; cases hq
    | loop body' s'' k' =>
      rw [Prog.loop_bind] at hq
      cases hq
      rcases ih rfl with ⟨ho, hp⟩ | ⟨a, w₃, hp, hf⟩
      · exact Or.inl ⟨ho, .leave hb hp⟩
      · exact Or.inr ⟨a, w₃, .leave hb hp, hf⟩
  | @inside _ _ _ body s k w w₁ hb =>
    cases p with
    | pure a =>
      rw [Prog.pure_bind] at hq
      exact Or.inr ⟨a, w, .ret a w, by rw [hq]; exact .inside hb⟩
    | call c' k' => rw [Prog.call_bind] at hq; cases hq
    | loop body' s'' k' =>
      rw [Prog.loop_bind] at hq
      cases hq
      exact Or.inl ⟨rfl, .inside hb⟩

theorem some_bind {p : Prog Ret α} {f : α → Prog Ret β} {b : β} {w w' : W} :
    Run S (p >>= f) w (some b) w' ↔ ∃ a w₁, Run S p w (some a) w₁ ∧ Run S (f a) w₁ (some b) w' := by
  constructor
  · intro h
    rcases h.of_bind with ⟨ho, -⟩ | h
    · exact absurd ho (by simp)
    · exact h
  · rintro ⟨a, w₁, hp, hf⟩
    exact hp.bind hf

/-- One round of a loop: it goes on from the new state, or the loop is left. -/
theorem some_iterate {σ : Type} {body : σ → Prog Ret (σ ⊕ β)} {s : σ} {b : β} {w w' : W} :
    Run S (Prog.iterate body s) w (some b) w' ↔ ∃ r w₁, Run S (body s) w (some r) w₁ ∧
      r.elim (fun s' => Run S (Prog.iterate body s') w₁ (some b) w') (fun b' => b = b' ∧ w' = w₁) := by
  constructor
  · intro h
    cases h with
    | again hb hk => exact ⟨.inl _, _, hb, hk⟩
    | leave hb hk => exact ⟨.inr _, _, hb, some_pure.mp hk⟩
  · rintro ⟨r, w₁, hb, h⟩
    cases r with
    | inl s' => exact .again hb h
    | inr b' =>
      obtain ⟨rfl, rfl⟩ := h
      exact .leave hb (.ret b w')

/-- A run on one device is one on another, seen through `f`, that has all the outcomes. -/
theorem map {V : Type} {S' : Sem Ret V} (f : W → V)
    (hstep : ∀ {w c r w'}, S.step w c r w' → S'.step (f w) c r (f w'))
    (hcut : ∀ {w c w'}, S.cut w c w' → S'.cut (f w) c (f w')) {p : Prog Ret α} {o : Option α}
    {w w' : W} (h : Run S p w o w') : Run S' p (f w) o (f w') := by
  induction h with
  | off p w => exact .off p (f w)
  | ret a w => exact .ret a (f w)
  | call hs _ ih => exact .call (hstep hs) ih
  | cut hc => exact .cut (hcut hc)
  | again _ _ ihb ih => exact .again ihb ih
  | leave _ _ ihb ih => exact .leave ihb ih
  | inside _ ih => exact .inside ih

/-- With more outcomes of the calls there are all the runs, and more. -/
theorem weaken {S' : Sem Ret W} (hstep : ∀ {w c r w'}, S.step w c r w' → S'.step w c r w')
    (hcut : ∀ {w c w'}, S.cut w c w' → S'.cut w c w') {p : Prog Ret α} {o : Option α} {w w' : W}
    (h : Run S p w o w') : Run S' p w o w' := h.map id hstep hcut

/-- On a device that leaves no choice a run that comes to its end is the only one. -/
theorem unique (hS : S.Determined) {p : Prog Ret α} {w w₁ w₂ : W} {a b : α}
    (h : Run S p w (some a) w₁) (h' : Run S p w (some b) w₂) : b = a ∧ w₂ = w₁ := by
  generalize ho : some a = o at h
  induction h generalizing w₂ with
  | off => cases ho
  | ret => obtain rfl := Option.some.inj ho; exact some_pure.mp h'
  | @call _ c k w w' w'' r o hs _ ih =>
    obtain ⟨r', v, hs', hk⟩ := some_call.mp h'
    obtain ⟨rfl, rfl⟩ := hS hs hs'
    exact ih hk ho
  | cut => cases ho
  | again _ _ ihb ih =>
    cases h' with
    | again hb hk =>
      obtain ⟨he, rfl⟩ := ihb hb rfl
      obtain rfl := Sum.inl.inj he
      exact ih hk ho
    | leave hb => exact absurd (ihb hb rfl).1 (by simp)
  | leave _ _ ihb ih =>
    cases h' with
    | again hb => exact absurd (ihb hb rfl).1 (by simp)
    | leave hb hk =>
      obtain ⟨he, rfl⟩ := ihb hb rfl
      obtain rfl := Sum.inr.inj he
      exact ih hk ho
  | inside => cases ho

end Run

end Boxing.Device
