import Mathlib.Logic.Basic
import Mathlib.Data.List.Infix

/-!
# Computations that leave a log

A computation can stop at an access that is not allowed.  What it has done until then is still
done, so the log is kept beside the result and not in it: `Logged ε α` has the events in their
order, and a result unless it stopped.
-/

namespace Boxing.Device

/-- The events, and the result; `none` when the computation has stopped. -/
structure Logged (ε α : Type) where
  log : List ε
  result : Option α

namespace Logged

variable {ε α β : Type}

/-- What follows happens only if there is a result. -/
def bind (x : Logged ε α) (f : α → Logged ε β) : Logged ε β :=
  match x.result with
  | none => ⟨x.log, none⟩
  | some a => ⟨x.log ++ (f a).log, (f a).result⟩

instance : Monad (Logged ε) where
  pure a := ⟨[], some a⟩
  bind := bind

/-- One event. -/
def emit (e : ε) : Logged ε Unit := ⟨[e], some ()⟩

/-- No event. -/
def lift (o : Option α) : Logged ε α := ⟨[], o⟩

@[simp] theorem log_pure (a : α) : (pure a : Logged ε α).log = [] := rfl

@[simp] theorem result_pure (a : α) : (pure a : Logged ε α).result = some a := rfl

@[simp] theorem emit_bind (e : ε) (f : Unit → Logged ε β) :
    emit e >>= f = ⟨e :: (f ()).log, (f ()).result⟩ := rfl

@[simp] theorem log_lift (o : Option α) : (lift o : Logged ε α).log = [] := rfl

@[simp] theorem result_lift (o : Option α) : (lift o : Logged ε α).result = o := rfl

@[simp] theorem pure_bind (a : α) (f : α → Logged ε β) : pure a >>= f = f a := rfl

@[simp] theorem result_bind (x : Logged ε α) (f : α → Logged ε β) :
    (x >>= f).result = x.result.bind fun a => (f a).result := by
  show (bind x f).result = _
  unfold bind
  cases x.result with
  | none => rfl
  | some a => rfl

theorem log_bind_none {x : Logged ε α} (h : x.result = none) (f : α → Logged ε β) :
    (x >>= f).log = x.log := by
  show (bind x f).log = _
  rw [bind, h]

theorem log_bind_some {x : Logged ε α} {a : α} (h : x.result = some a) (f : α → Logged ε β) :
    (x >>= f).log = x.log ++ (f a).log := by
  show (bind x f).log = _
  rw [bind, h]

@[simp] theorem log_bind_pure (x : Logged ε α) (f : α → β) :
    (x >>= fun a => pure (f a)).log = x.log := by
  cases h : x.result with
  | none => rw [log_bind_none h]
  | some a => rw [log_bind_some h, log_pure, List.append_nil]

/-- What has happened stays in the log. -/
theorem log_prefix_bind (x : Logged ε α) (f : α → Logged ε β) : x.log <+: (x >>= f).log := by
  cases h : x.result with
  | none => rw [log_bind_none h]
  | some a =>
    rw [log_bind_some h]
    exact List.prefix_append _ _

/-- **A property of every event.** -/
theorem forall_log_bind {P : ε → Prop} {x : Logged ε α} {f : α → Logged ε β}
    (hx : ∀ e ∈ x.log, P e) (hf : ∀ a, ∀ e ∈ (f a).log, P e) : ∀ e ∈ (x >>= f).log, P e := by
  cases h : x.result with
  | none =>
    rw [log_bind_none h]
    exact hx
  | some a =>
    rw [log_bind_some h]
    exact List.forall_mem_append.mpr ⟨hx, hf a⟩

end Logged

end Boxing.Device
