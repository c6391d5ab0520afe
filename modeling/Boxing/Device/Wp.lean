import Boxing.Device.Prog

/-!
# What holds wherever a program stops

`wp S p Q C w`: every run of `p` from `w` that comes to its end does so with a
value and in a world that satisfy `Q`, and every world in which the power can go
satisfies `C`.  The rules follow the three shapes of a program: `wp_call` asks
for `C` before the call, for `C` wherever the call can be cut, and for the rest
of the program after every answer; `wp_loop` asks for an invariant that the body
hands to itself or to the continuation.

`Run.keeps` is the rule for the parts of a program that leave a property alone:
if every call the program can make keeps `I`, cut or not, so does the program,
loops included, and nobody has to look inside.  `Run.iterate_ends` goes the other
way: it makes a run of a loop out of a measure.
-/

namespace Boxing.Device

variable {Call : Type} {Ret : Call → Type} {W : Type} {S : Sem Ret W} {α β γ σ : Type}

/-- At its end `p` satisfies `Q`, and wherever the power can go, `C`. -/
def wp (S : Sem Ret W) (p : Prog Ret α) (Q : α → W → Prop) (C : W → Prop) (w : W) : Prop :=
  (∀ a w', Run S p w (some a) w' → Q a w') ∧ ∀ w', Run S p w none w' → C w'

theorem wp.stop {p : Prog Ret α} {Q : α → W → Prop} {C : W → Prop} {w : W}
    (h : wp S p Q C w) : C w := h.2 w (.off p w)

/-- `Q` at every end, `C` at every stop: the two halves of `wp` at once. -/
theorem wp.run {p : Prog Ret α} {Q : α → W → Prop} {C : W → Prop} {w w' : W} {o : Option α}
    (h : wp S p Q C w) (hr : Run S p w o w') : o.elim (C w') (fun a => Q a w') := by
  cases o with
  | none => exact h.2 w' hr
  | some a => exact h.1 a w' hr

theorem wp_mono {p : Prog Ret α} {Q Q' : α → W → Prop} {C C' : W → Prop} {w : W}
    (h : wp S p Q C w) (hQ : ∀ a w', Q a w' → Q' a w') (hC : ∀ w', C w' → C' w') :
    wp S p Q' C' w :=
  ⟨fun a w' hr => hQ a w' (h.1 a w' hr), fun w' hr => hC w' (h.2 w' hr)⟩

@[simp] theorem wp_pure {a : α} {Q : α → W → Prop} {C : W → Prop} {w : W} :
    wp S (.pure a) Q C w ↔ Q a w ∧ C w := by
  constructor
  · intro h
    exact ⟨h.1 a w (.ret a w), h.stop⟩
  · rintro ⟨hQ, hC⟩
    refine ⟨fun b w' hr => ?_, fun w' hr => ?_⟩
    · obtain ⟨rfl, ho | ho⟩ := hr.pure_inv
      · exact absurd ho (by simp)
      · obtain rfl := Option.some.inj ho
        exact hQ
    · obtain ⟨rfl, -⟩ := hr.pure_inv
      exact hC

theorem wp_call {c : Call} {k : Ret c → Prog Ret α} {Q : α → W → Prop} {C : W → Prop} {w : W} :
    wp S (.call c k) Q C w ↔
      C w ∧ (∀ w', S.cut w c w' → C w') ∧ ∀ r w', S.step w c r w' → wp S (k r) Q C w' := by
  constructor
  · intro h
    refine ⟨h.stop, fun w' hc => h.2 w' (.cut hc), fun r w' hs => ⟨?_, ?_⟩⟩
    · exact fun a w'' hr => h.1 a w'' (.call hs hr)
    · exact fun w'' hr => h.2 w'' (.call hs hr)
  · rintro ⟨hw, hcut, hk⟩
    refine ⟨fun a w' hr => ?_, fun w' hr => ?_⟩
    · cases hr with
      | call hs hr' => exact (hk _ _ hs).1 a w' hr'
    · cases hr with
      | off => exact hw
      | call hs hr' => exact (hk _ _ hs).2 w' hr'
      | cut hc => exact hcut w' hc

theorem wp_bind {p : Prog Ret α} {f : α → Prog Ret β} {Q : β → W → Prop} {C : W → Prop} {w : W}
    (h : wp S p (fun a w' => wp S (f a) Q C w') C w) : wp S (p >>= f) Q C w := by
  refine ⟨fun b w' hr => ?_, fun w' hr => ?_⟩
  · rcases hr.of_bind with ⟨ho, -⟩ | ⟨a, w₁, hp, hf⟩
    · exact absurd ho (by simp)
    · exact (h.1 a w₁ hp).1 b w' hf
  · rcases hr.of_bind with ⟨-, hp⟩ | ⟨a, w₁, hp, hf⟩
    · exact h.2 w' hp
    · exact (h.1 a w₁ hp).2 w' hf

/-- **The loop rule.**  An invariant `I` that holds on entry and that the body
hands on, either to the next round or to what follows the loop. -/
theorem wp_loop {body : σ → Prog Ret (σ ⊕ β)} {s : σ} {k : β → Prog Ret α} {Q : α → W → Prop}
    {C : W → Prop} {w : W} (I : σ → W → Prop) (hI : I s w)
    (hb : ∀ s w, I s w →
      wp S (body s) (fun r w' => r.elim (fun s' => I s' w') (fun b => wp S (k b) Q C w')) C w) :
    wp S (.loop body s k) Q C w := by
  have key : ∀ {p : Prog Ret α} {o : Option α} {w w' : W}, Run S p w o w' →
      ∀ s, p = .loop body s k → I s w → o.elim (C w') (fun a => Q a w') := by
    intro p o w w' hr
    -- one case per way round the loop; only the rule `again` needs the hypothesis
    induction hr with
    | off p w => intro s hp hI; subst hp; exact (hb s w hI).stop
    | ret => intro s hp; cases hp
    | call => intro s hp; cases hp
    | cut => intro s hp; cases hp
    | again hbody hk _ ih =>
      intro s hp hI
      cases hp
      exact ih hb _ rfl ((hb _ _ hI).1 _ _ hbody)
    | leave hbody hk _ _ =>
      intro s hp hI
      cases hp
      exact wp.run ((hb _ _ hI).1 _ _ hbody) hk
    | inside hbody _ => intro s hp hI; cases hp; exact (hb _ _ hI).2 _ hbody
  exact ⟨fun a w' hr => key hr s rfl hI, fun w' hr => key hr s rfl hI⟩

/-! ### Programs that keep out of the way -/

/-- Every call `p` can make satisfies `P`. -/
def Prog.Only (P : Call → Prop) : {α : Type} → Prog Ret α → Prop
  | _, .pure _ => True
  | _, .call c k => P c ∧ ∀ r, Prog.Only P (k r)
  | _, .loop body _ k => (∀ s, Prog.Only P (body s)) ∧ ∀ b, Prog.Only P (k b)

@[simp] theorem Prog.only_pure {P : Call → Prop} (a : α) :
    Prog.Only P (.pure a : Prog Ret α) := trivial

@[simp] theorem Prog.only_call {P : Call → Prop} {c : Call} {k : Ret c → Prog Ret α} :
    Prog.Only P (.call c k) ↔ P c ∧ ∀ r, Prog.Only P (k r) := Iff.rfl

@[simp] theorem Prog.only_loop {P : Call → Prop} {body : σ → Prog Ret (σ ⊕ β)} {s : σ}
    {k : β → Prog Ret α} :
    Prog.Only P (.loop body s k) ↔ (∀ s, Prog.Only P (body s)) ∧ ∀ b, Prog.Only P (k b) := Iff.rfl

theorem Prog.Only.bind {P : Call → Prop} {p : Prog Ret α} {f : α → Prog Ret β}
    (hp : Prog.Only P p) (hf : ∀ a, Prog.Only P (f a)) : Prog.Only P (p >>= f) := by
  induction p with
  | pure a => exact hf a
  | call c k ih => exact ⟨hp.1, fun r => ih r (hp.2 r) hf⟩
  | loop body s k _ ih => exact ⟨hp.1, fun b => ih b (hp.2 b) hf⟩

theorem Prog.Only.ite {P : Call → Prop} {c : Prop} [Decidable c] {p q : Prog Ret α}
    (hp : Prog.Only P p) (hq : Prog.Only P q) : Prog.Only P (if c then p else q) := by
  by_cases h : c
  · rw [if_pos h]
    exact hp
  · rw [if_neg h]
    exact hq

theorem Prog.Only.mono {P Q : Call → Prop} {p : Prog Ret α} (hp : Prog.Only P p)
    (h : ∀ c, P c → Q c) : Prog.Only Q p := by
  induction p with
  | pure a => trivial
  | call c k ih => exact ⟨h c hp.1, fun r => ih r (hp.2 r)⟩
  | loop body s k ihb ih => exact ⟨fun s => ihb s (hp.1 s), fun b => ih b (hp.2 b)⟩

theorem Prog.only_true (p : Prog Ret α) : Prog.Only (fun _ => True) p := by
  induction p with
  | pure a => trivial
  | call c k ih => exact ⟨trivial, ih⟩
  | loop body s k ihb ih => exact ⟨ihb, ih⟩

/-- **A program whose calls all keep `I` keeps `I`**, wherever it stops. -/
theorem Run.keeps {P : Call → Prop} {I : W → Prop}
    (hstep : ∀ w c r w', P c → I w → S.step w c r w' → I w')
    (hcut : ∀ w c w', P c → I w → S.cut w c w' → I w')
    {p : Prog Ret α} {w w' : W} {o : Option α} (hr : Run S p w o w') (hp : Prog.Only P p)
    (hI : I w) : I w' := by
  induction hr with
  | off => exact hI
  | ret => exact hI
  | call hs _ ih => exact ih (hp.2 _) (hstep _ _ _ _ hp.1 hI hs)
  | cut hc => exact hcut _ _ _ hp.1 hI hc
  | again _ _ ihb ih => exact ih hp (ihb (hp.1 _) hI)
  | leave _ _ ihb ih => exact ih (hp.2 _) (ihb (hp.1 _) hI)
  | inside _ ih => exact ih (hp.1 _) hI

/-- What none of its calls changes is the same after a run. -/
theorem Run.keeps_eq {P : Call → Prop} {γ : Type} (f : W → γ)
    (hstep : ∀ w c r w', P c → S.step w c r w' → f w' = f w)
    (hcut : ∀ w c w', P c → S.cut w c w' → f w' = f w)
    {p : Prog Ret α} {w w' : W} {o : Option α} (hr : Run S p w o w') (hp : Prog.Only P p) :
    f w' = f w := by
  apply hr.keeps (P := P) (I := fun v => f v = f w)
  · intro v c r v' hc hv hs
    exact (hstep v c r v' hc hs).trans hv
  · intro v c v' hc hv hs
    exact (hcut v c v' hc hs).trans hv
  · exact hp
  · rfl

theorem wp_keeps {P : Call → Prop} {I : W → Prop}
    (hstep : ∀ w c r w', P c → I w → S.step w c r w' → I w')
    (hcut : ∀ w c w', P c → I w → S.cut w c w' → I w')
    {p : Prog Ret α} {w : W} (hp : Prog.Only P p) (hI : I w) :
    wp S p (fun _ => I) I w :=
  ⟨fun _ _ hr => hr.keeps hstep hcut hp hI, fun _ hr => hr.keeps hstep hcut hp hI⟩

/-! ### Loops that come to an end -/

/-- A loop whose body can always go round with a smaller measure, or leave, can
come to its end. -/
theorem Run.iterate_ends {body : σ → Prog Ret (σ ⊕ β)} {I : σ → W → Prop} {P : β → W → Prop}
    (m : σ → Nat)
    (hb : ∀ s w, I s w → ∃ r w', Run S (body s) w (some r) w' ∧
      r.elim (fun s' => I s' w' ∧ m s' < m s) (fun b => P b w')) {s : σ} {w : W} (hI : I s w) :
    ∃ b w', Run S (Prog.iterate body s) w (some b) w' ∧ P b w' := by
  induction hn : m s using Nat.strongRecOn generalizing s w with
  | ind n ih =>
    obtain ⟨r, w₁, hr, hnext⟩ := hb s w hI
    cases r with
    | inl s' =>
      obtain ⟨hI', hlt⟩ := hnext
      obtain ⟨b, w', hrun, hP⟩ := ih (m s') (hn ▸ hlt) hI' rfl
      exact ⟨b, w', .again hr hrun, hP⟩
    | inr b => exact ⟨b, w₁, .leave hr (.ret b w₁), hnext⟩

/-- The same with a world that stays as it is. -/
theorem Run.iterate_ends_same {body : σ → Prog Ret (σ ⊕ β)} {w : W} {I : σ → Prop}
    {P : β → Prop} (m : σ → Nat)
    (hb : ∀ s, I s → ∃ r, Run S (body s) w (some r) w ∧
      r.elim (fun s' => I s' ∧ m s' < m s) P) {s : σ} (hI : I s) :
    ∃ b, Run S (Prog.iterate body s) w (some b) w ∧ P b := by
  have hb' : ∀ s v, (v = w ∧ I s) → ∃ r v', Run S (body s) v (some r) v' ∧
      r.elim (fun s' => (v' = w ∧ I s') ∧ m s' < m s) (fun b => v' = w ∧ P b) := by
    rintro s v ⟨rfl, hs⟩
    obtain ⟨r, hr, hnext⟩ := hb s hs
    refine ⟨r, v, hr, ?_⟩
    cases r with
    | inl s' => exact ⟨⟨rfl, hnext.1⟩, hnext.2⟩
    | inr b => exact ⟨rfl, hnext⟩
  obtain ⟨b, w', hrun, rfl, hP⟩ := Run.iterate_ends m hb' (And.intro rfl hI)
  exact ⟨b, hrun, hP⟩

end Boxing.Device
