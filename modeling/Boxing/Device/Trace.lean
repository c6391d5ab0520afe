import Mathlib.Data.List.Basic

/-!
# Runs of a system

A system is a relation between a state, an event and the next state.  A run is written down
move by move, with the state before and after each event, so that a statement about every
moment of it is one about the members of a list.

`Trace.keeps` is induction over a run for an invariant.  `Trace.forall_iff` is the same for a
system that can go wrong: when a move is good exactly where its condition holds, and good moves
keep the invariant, the runs that are good throughout are the ones that meet the condition
throughout.  After the first bad move nothing needs to be known.
-/

namespace Boxing.Device

/-- A move of a run. -/
structure Move (σ ε : Type) where
  before : σ
  event : ε
  after : σ

variable {σ ε : Type} {step : σ → ε → σ → Prop}

/-- The moves of a run from one state to another. -/
inductive Trace (step : σ → ε → σ → Prop) : σ → List (Move σ ε) → σ → Prop
  | nil (s : σ) : Trace step s [] s
  | cons {s s' s'' : σ} {e : ε} {t : List (Move σ ε)} (hstep : step s e s')
      (htrace : Trace step s' t s'') : Trace step s (⟨s, e, s'⟩ :: t) s''

variable {s s' s'' : σ} {e : ε} {t t' : List (Move σ ε)}

theorem Trace.single (h : step s e s') : Trace step s [⟨s, e, s'⟩] s' := .cons h (.nil s')

theorem Trace.append (h : Trace step s t s') (h' : Trace step s' t' s'') :
    Trace step s (t ++ t') s'' := by
  induction h with
  | nil => exact h'
  | cons hstep _ ih => exact .cons hstep (ih h')

/-- **An invariant** holds at the end of every run. -/
theorem Trace.keeps {I : σ → Prop} (hkeep : ∀ {s e s'}, I s → step s e s' → I s')
    (h : Trace step s t s') (hs : I s) : I s' := by
  induction h with
  | nil => exact hs
  | cons hstep _ ih => exact ih (hkeep hs hstep)

/-- **The exact condition** for every move of a run to be good. -/
theorem Trace.forall_iff {I : σ → Prop} {C : σ → ε → Prop} {G : σ → ε → σ → Prop}
    (hgood : ∀ {s e s'}, I s → step s e s' → C s e → G s e s' ∧ I s')
    (hbad : ∀ {s e s'}, I s → step s e s' → ¬ C s e → ¬ G s e s')
    (h : Trace step s t s') (hs : I s) :
    (∀ m ∈ t, G m.before m.event m.after) ↔ ∀ m ∈ t, C m.before m.event := by
  induction h with
  | nil => exact iff_of_true (List.forall_mem_nil _) (List.forall_mem_nil _)
  | cons hstep _ ih =>
    rw [List.forall_mem_cons, List.forall_mem_cons]
    constructor
    · rintro ⟨hfirst, hrest⟩
      have hc := not_not.mp fun hc => hbad hs hstep hc hfirst
      exact ⟨hc, (ih (hgood hs hstep hc).2).mp hrest⟩
    · rintro ⟨hc, hrest⟩
      obtain ⟨hfirst, hs'⟩ := hgood hs hstep hc
      exact ⟨hfirst, (ih hs').mpr hrest⟩

end Boxing.Device
