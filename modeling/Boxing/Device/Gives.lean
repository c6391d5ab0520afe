import Boxing.Device.Wp

/-!
# Programs on a device that leaves no choice

`Sem.fixed` is the device on which the answer to a call, and the world behind it, are
functions of the world before.  A program without loops has one run on it, and `Gives` says
what comes of that run.
-/

namespace Boxing.Device

variable {Call : Type} {Ret : Call → Type} {W : Type} {α β : Type}

/-- Every call has its answer and its effect, and the power does not go. -/
def Sem.fixed (answer : (c : Call) → W → Ret c) (effect : Call → W → W) : Sem Ret W where
  step w c r w' := r = answer c w ∧ w' = effect c w
  cut _ _ _ := False

/-- The program has one run to its end, and this is what comes of it. -/
def Gives (S : Sem Ret W) (p : Prog Ret α) (w : W) (a : α) (w' : W) : Prop :=
  ∀ b v, Run S p w (some b) v ↔ b = a ∧ v = w'

variable {S : Sem Ret W} {answer : (c : Call) → W → Ret c} {effect : Call → W → W} {w w' w₁ : W}
  {a : α} {b : β}

theorem gives_pure (S : Sem Ret W) (a : α) (w : W) : Gives S (.pure a) w a w :=
  fun _ _ => Run.some_pure

theorem Gives.bind {p : Prog Ret α} {f : α → Prog Ret β} (hp : Gives S p w a w₁)
    (hf : Gives S (f a) w₁ b w') : Gives S (p >>= f) w b w' := by
  intro c v
  rw [Run.some_bind, ← hf c v]
  constructor
  · rintro ⟨a', w₂, hr, hk⟩
    obtain ⟨rfl, rfl⟩ := (hp a' w₂).mp hr
    exact hk
  · exact fun hk => ⟨a, w₁, (hp a w₁).mpr ⟨rfl, rfl⟩, hk⟩

/-- One call. -/
theorem gives_ask {c : Call} {f : Ret c → Prog Ret α}
    (h : Gives (Sem.fixed answer effect) (f (answer c w)) (effect c w) a w') :
    Gives (Sem.fixed answer effect) (Prog.ask c >>= f) w a w' := by
  intro b v
  rw [Prog.ask_bind, Run.some_call, ← h b v]
  constructor
  · rintro ⟨_, _, ⟨rfl, rfl⟩, hr⟩
    exact hr
  · exact fun hr => ⟨_, _, ⟨rfl, rfl⟩, hr⟩

theorem gives_self (c : Call) (w : W) :
    Gives (Sem.fixed answer effect) (Prog.ask c) w (answer c w) (effect c w) :=
  gives_ask (f := Prog.pure) (gives_pure _ _ _)

/-- The run of a program without loops. -/
def Prog.eval (answer : (c : Call) → W → Ret c) (effect : Call → W → W) {α : Type} :
    Prog Ret α → W → Option (α × W)
  | .pure a, w => some (a, w)
  | .call c k, w => (k (answer c w)).eval answer effect (effect c w)
  | .loop _ _ _, _ => none

theorem gives_of_eval {p : Prog Ret α} (h : p.eval answer effect w = some (a, w')) :
    Gives (Sem.fixed answer effect) p w a w' := by
  induction p generalizing w with
  | pure b =>
    obtain ⟨rfl, rfl⟩ := Prod.mk.inj (Option.some.inj h)
    exact gives_pure _ _ _
  | call c k ih => exact gives_ask (c := c) (f := k) (ih (answer c w) h)
  | loop => cases h

/-- There is no loop, and every call satisfies `P`. -/
def Prog.Straight (P : Call → Prop) : {α : Type} → Prog Ret α → Prop
  | _, .pure _ => True
  | _, .call c k => P c ∧ ∀ r, Prog.Straight P (k r)
  | _, .loop _ _ _ => False

theorem Prog.Straight.bind {P : Call → Prop} {p : Prog Ret α} {f : α → Prog Ret β}
    (hp : p.Straight P) (hf : ∀ a, (f a).Straight P) : (p >>= f).Straight P := by
  induction p with
  | pure a => exact hf a
  | call c k ih => exact ⟨hp.1, fun r => ih r (hp.2 r) hf⟩
  | loop => exact hp.elim

theorem Prog.Straight.ite {P : Call → Prop} {c : Prop} [Decidable c] {p q : Prog Ret α}
    (hp : p.Straight P) (hq : q.Straight P) : (if c then p else q).Straight P := by
  by_cases h : c
  · rw [if_pos h]
    exact hp
  · rw [if_neg h]
    exact hq

theorem Prog.Straight.mono {P Q : Call → Prop} {p : Prog Ret α} (hp : p.Straight P)
    (h : ∀ c, P c → Q c) : p.Straight Q := by
  induction p with
  | pure a => trivial
  | call c k ih => exact ⟨h c hp.1, fun r => ih r (hp.2 r)⟩
  | loop => exact hp.elim

theorem Prog.Straight.only {P : Call → Prop} {p : Prog Ret α} (hp : p.Straight P) : p.Only P := by
  induction p with
  | pure a => trivial
  | call c k ih => exact ⟨hp.1, fun r => ih r (hp.2 r)⟩
  | loop => exact hp.elim

/-- Something comes of a program without loops. -/
theorem Prog.Straight.gives {P : Call → Prop} {p : Prog Ret α} (hp : p.Straight P)
    (answer : (c : Call) → W → Ret c) (effect : Call → W → W) (w : W) :
    ∃ a w', Gives (Sem.fixed answer effect) p w a w' := by
  induction p generalizing w with
  | pure a => exact ⟨a, w, gives_pure _ _ _⟩
  | call c k ih =>
    obtain ⟨a, w', h⟩ := ih (answer c w) (hp.2 _) (effect c w)
    exact ⟨a, w', gives_ask (c := c) (f := k) h⟩
  | loop => exact hp.elim

/-- Only one thing comes of it. -/
theorem Gives.unique {p : Prog Ret α} {a₁ a₂ : α} {w₁ w₂ : W} (h₁ : Gives S p w a₁ w₁)
    (h₂ : Gives S p w a₂ w₂) : a₂ = a₁ ∧ w₂ = w₁ := (h₁ a₂ w₂).mp ((h₂ a₂ w₂).mpr ⟨rfl, rfl⟩)

/-- The run. -/
theorem Gives.run {p : Prog Ret α} (h : Gives S p w a w') : Run S p w (some a) w' :=
  (h a w').mpr ⟨rfl, rfl⟩

/-- The program comes to its end, and what comes of it is as it should be. -/
def Comes (S : Sem Ret W) (p : Prog Ret α) (w : W) (P : α → W → Prop) : Prop :=
  (∃ a w', Run S p w (some a) w') ∧ ∀ a w', Run S p w (some a) w' → P a w'

theorem Gives.comes {p : Prog Ret α} {P : α → W → Prop} (h : Gives S p w a w') :
    Comes S p w P ↔ P a w' := by
  constructor
  · exact fun hall => hall.2 a w' h.run
  · intro hP
    refine ⟨⟨a, w', h.run⟩, fun b v hr => ?_⟩
    obtain ⟨rfl, rfl⟩ := (h b v).mp hr
    exact hP

theorem comes_pure {P : α → W → Prop} : Comes S (.pure a) w P ↔ P a w := (gives_pure S a w).comes

theorem comes_ite {c : Prop} [Decidable c] {p q : Prog Ret α} {P : α → W → Prop} :
    Comes S (if c then p else q) w P ↔ (c → Comes S p w P) ∧ (¬ c → Comes S q w P) := by
  by_cases h : c <;> simp [h]

/-- Behind a part with one run, all depends on the rest. -/
theorem Gives.comes_bind {p : Prog Ret α} {f : α → Prog Ret β} {P : β → W → Prop}
    (h : Gives S p w a w₁) : Comes S (p >>= f) w P ↔ Comes S (f a) w₁ P := by
  have hrun : ∀ b v, Run S (p >>= f) w (some b) v ↔ Run S (f a) w₁ (some b) v := by
    intro b v
    rw [Run.some_bind]
    constructor
    · rintro ⟨a', w₂, hp, hf⟩
      obtain ⟨rfl, rfl⟩ := (h a' w₂).mp hp
      exact hf
    · exact fun hf => ⟨a, w₁, h.run, hf⟩
  simp only [Comes, hrun]

theorem comes_ask {c : Call} {f : Ret c → Prog Ret α} {P : α → W → Prop} :
    Comes (Sem.fixed answer effect) (Prog.ask c >>= f) w P ↔
      Comes (Sem.fixed answer effect) (f (answer c w)) (effect c w) P := (gives_self c w).comes_bind

end Boxing.Device
