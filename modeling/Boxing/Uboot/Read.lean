import Boxing.Uboot.WriteOne

/-!
# Reading one variable

`read_ubootcfg(name)` is to give the value of the variable `name`, or NULL when
there is none: `lookup` is that, on the list of entries, with the value cut to
what the static buffer of 64 bytes holds.

The code takes the first entry that has `name` anywhere in its text
(`strstr(ptmp, name)`), in its name or in its value, and returns what stands
behind its first `=`.  So the answer is right when that entry has the name, and
otherwise only by luck: `read_ubootcfg_iff`.
-/

namespace Boxing.Uboot

open C Device

/-! ### The source -/

/-- `snprintf(buf, sizeof(buf), "%s", pos+1)` with `char buf[64]`. -/
def printed (pos : Bytes) : Bytes := pos.tail.take 63

/-- One round of the loop: `pos = strstr(ptmp, name)`, and where that is not null
`pos = index(ptmp, '=')` and the value behind it.  A missing `=` is none: `pos+1`
is then the address 1. -/
def look_at (name ptmp : Bytes) : Option (Option Bytes) :=
  if (strstr ptmp name).isSome then (index ptmp 61).map fun pos => some (printed pos)
  else some none

/-- `read_ubootcfg(name)`: the value or NULL.  An access outside the buffer, or
through a null pointer, is none. -/
def read_ubootcfg (abi : Abi) (name : Bytes) : Prog EnvRet (Option (Option Bytes)) := do
  let fp : Bool ← askEnv .fopenRead
  if fp = false then pure (some none) else do
  let envptr : Bool ← askEnv .malloc
  if envptr = false then pure (some none) else do
  let env : EnvBlock ← askEnv .readBlock
  if crc_int abi env.data ≠ env.crc then pure (some none) else
  pure (scan (look_at name) env.data)

/-! ### The lookup -/

/-- The value of an entry, as far as the buffer holds it. -/
def shown (e : Bytes) : Bytes := ((e.dropWhile (· ≠ 61)).tail).take 63

/-- The value of the first entry with the name. -/
def lookup (es : List Bytes) (name : Bytes) : Option Bytes :=
  (es.find? fun e => nameOf e = name).map shown

/-- The first entry that contains `name` has that name, or shows the same value as
the first one behind it that has. -/
def FoundByName (es : List Bytes) (name : Bytes) : Prop :=
  ∀ before e behind, es = before ++ e :: behind → (∀ x ∈ before, ¬ name <:+: x) → name <:+: e →
    nameOf e = name ∨ lookup behind name = some (shown e)

section Read

variable {abi : Abi} {env : EnvBlock} {es : List Bytes} {name tail : Bytes}

theorem look_at_found {e : Bytes} (h : name <:+: e) (heq : 61 ∈ e) :
    look_at name e = some (some (shown e)) := by
  rw [look_at, if_pos (strstr_isSome_iff.mpr h), index, if_pos heq]
  rfl

theorem look_at_passed {e : Bytes} (h : ¬ name <:+: e) : look_at name e = some none := by
  rw [look_at, if_neg (fun hs => h (strstr_isSome_iff.mp hs))]

/-- A run of `read_ubootcfg` on a block with a good CRC. -/
theorem run_read_ubootcfg {r : Option (Option Bytes)} {env' : EnvBlock}
    (hcrc : crc_int abi env.data = env.crc) :
    Run allOk (read_ubootcfg abi name) env (some r) env' ↔
      r = scan (look_at name) env.data ∧ env' = env := by
  simp [read_ubootcfg, Run.some_call, Run.some_pure, allOk, allOkStep, hcrc]

/-- A list has a first entry that contains the name, or none that does. -/
theorem exists_first (es : List Bytes) (name : Bytes) :
    (∀ e ∈ es, ¬ name <:+: e) ∨
      ∃ before e behind, es = before ++ e :: behind ∧ (∀ x ∈ before, ¬ name <:+: x) ∧
        name <:+: e := by
  induction es with
  | nil => exact Or.inl fun e he => absurd he List.not_mem_nil
  | cons a es ih =>
    by_cases ha : name <:+: a
    · exact Or.inr ⟨[], a, es, rfl, fun x hx => absurd hx List.not_mem_nil, ha⟩
    · rcases ih with hnone | ⟨before, e, behind, rfl, hbefore, he⟩
      · left
        intro e he
        rcases List.mem_cons.mp he with rfl | he
        · exact ha
        · exact hnone e he
      · refine Or.inr ⟨a :: before, e, behind, rfl, ?_, he⟩
        intro x hx
        rcases List.mem_cons.mp hx with rfl | hx
        · exact ha
        · exact hbefore x hx

/-- There is only one first entry that contains the name. -/
theorem first_unique {before behind before' behind' : List Bytes} {e e' : Bytes}
    (h : before ++ e :: behind = before' ++ e' :: behind')
    (hbefore : ∀ x ∈ before, ¬ name <:+: x) (hbefore' : ∀ x ∈ before', ¬ name <:+: x)
    (he : name <:+: e) (he' : name <:+: e') :
    before' = before ∧ e' = e ∧ behind' = behind := by
  rcases List.append_eq_append_iff.mp h with ⟨m, hm, hcons⟩ | ⟨m, hm, hcons⟩
  · cases m with
    | nil =>
      rw [List.nil_append, List.cons.injEq] at hcons
      exact ⟨by rw [hm, List.append_nil], hcons.1.symm, hcons.2.symm⟩
    | cons x m =>
      rw [List.cons_append, List.cons.injEq] at hcons
      exact absurd (hcons.1 ▸ he) (hbefore' x (by rw [hm]; simp))
  · cases m with
    | nil =>
      rw [List.nil_append, List.cons.injEq] at hcons
      exact ⟨by rw [hm, List.append_nil], hcons.1, hcons.2⟩
    | cons x m =>
      rw [List.cons_append, List.cons.injEq] at hcons
      exact absurd (hcons.1 ▸ he') (hbefore x (by rw [hm]; simp))

/-- The search ends at the first entry that contains the name. -/
theorem scan_look_at {before behind : List Bytes} {e : Bytes}
    (hes : Entries (before ++ e :: behind)) (hbefore : ∀ x ∈ before, ¬ name <:+: x)
    (he : name <:+: e) (m : Bytes) :
    scan (look_at name) (pack (before ++ e :: behind) ++ m) = look_at name e := by
  have hent : Entries before := fun x hx => hes x (List.mem_append_left _ hx)
  obtain ⟨hne, h0⟩ := hes e (by simp)
  rw [pack_append, pack_cons, List.append_assoc, scan_append before _ hent
    fun x hx => look_at_passed (hbefore x hx), List.append_assoc, List.cons_append,
    scan_cons _ hne h0, look_at, if_pos (strstr_isSome_iff.mpr he)]
  cases index e 61 with
  | none => rfl
  | some pos => rfl

theorem scan_look_at_none (hes : Entries es) (h : ∀ e ∈ es, ¬ name <:+: e) (m : Bytes) :
    scan (look_at name) (pack es ++ m) = scan (look_at name) m :=
  scan_append es m hes fun e he => look_at_passed (h e he)

/-- An entry that does not contain the name does not have it. -/
theorem nameOf_ne_of_not_infix {e : Bytes} (h : ¬ name <:+: e) : nameOf e ≠ name := by
  intro hn
  apply h
  have hpre := nameOf_prefix e
  rw [← hn]
  exact hpre.isInfix

theorem lookup_eq_none (h : ∀ e ∈ es, ¬ name <:+: e) : lookup es name = none := by
  have : es.find? (fun e => nameOf e = name) = none := by
    apply List.find?_eq_none.mpr
    intro e he
    simpa using nameOf_ne_of_not_infix (h e he)
  rw [lookup, this]
  rfl

theorem lookup_append {before behind : List Bytes} {e : Bytes}
    (h : ∀ x ∈ before, ¬ name <:+: x) :
    lookup (before ++ e :: behind) name =
      if nameOf e = name then some (shown e) else lookup behind name := by
  have hbefore : before.find? (fun e => nameOf e = name) = none := by
    apply List.find?_eq_none.mpr
    intro x hx
    simpa using nameOf_ne_of_not_infix (h x hx)
  rw [lookup, List.find?_append, hbefore, Option.none_or, List.find?_cons]
  by_cases hn : nameOf e = name
  · rw [if_pos hn, decide_eq_true hn]
    rfl
  · rw [if_neg hn, decide_eq_false hn]
    rfl

/-- What the search finds is what the lookup finds, exactly when the first entry
that contains the name has it, or shows the same value. -/
theorem scan_eq_lookup_iff (hes : Entries es) (heq : ∀ e ∈ es, 61 ∈ e) :
    scan (look_at name) (pack es ++ 0 :: tail) = some (lookup es name) ↔
      FoundByName es name := by
  rcases exists_first es name with hnone | ⟨before, e, behind, rfl, hbefore, he⟩
  · rw [scan_look_at_none hes hnone, scan_zero, lookup_eq_none hnone]
    apply iff_of_true rfl
    intro before e behind hsplit _ he
    exact absurd he (hnone e (by rw [hsplit]; simp))
  · rw [scan_look_at hes hbefore he, look_at_found he (heq e (by simp)),
      lookup_append hbefore, Option.some_inj]
    constructor
    · intro h before' e' behind' hsplit hbefore' he'
      obtain ⟨rfl, rfl, rfl⟩ := first_unique hsplit hbefore hbefore' he he'
      by_cases hn : nameOf e' = name
      · exact Or.inl hn
      · rw [if_neg hn] at h
        exact Or.inr h.symm
    · intro h
      rcases h before e behind rfl hbefore he with hn | hl
      · rw [if_pos hn]
      · by_cases hn : nameOf e = name
        · rw [if_pos hn]
        · rw [if_neg hn, hl]

/-- **When `read_ubootcfg` looks up by exact name.**  On a block with a good CRC
and a closed list of entries `name=value`, it returns, and only, what the lookup
finds if and only if the first entry that contains the name has it, or shows the
value of the first one that has. -/
theorem read_ubootcfg_iff (hcrc : crc_int abi env.data = env.crc) (hes : Entries es)
    (heq : ∀ e ∈ es, 61 ∈ e) (hdata : env.data = pack es ++ 0 :: tail) :
    (∀ r env', Run allOk (read_ubootcfg abi name) env (some r) env' ↔
        r = some (lookup es name) ∧ env' = env) ↔
      FoundByName es name := by
  have hscan : scan (look_at name) env.data = some (lookup es name) ↔ FoundByName es name := by
    rw [hdata]
    exact scan_eq_lookup_iff hes heq
  rw [← hscan]
  constructor
  · intro h
    have hrun : Run allOk (read_ubootcfg abi name) env (some (scan (look_at name) env.data)) env :=
      (run_read_ubootcfg hcrc).mpr ⟨rfl, rfl⟩
    exact ((h _ _).mp hrun).1
  · intro h r env'
    rw [run_read_ubootcfg hcrc, h]

end Read

/-- `ethaddr2` is contained in its own entry only. -/
theorem read_ubootcfg_ethaddr2 :
    (∀ r env', Run allOk (read_ubootcfg ⟨true, false⟩ (asc "ethaddr2"))
          (sealed ⟨true, false⟩ (pack [asc "ethaddr=1", asc "ethaddr2=2"] ++ padded 40 []))
          (some r) env' ↔
        r = some (lookup [asc "ethaddr=1", asc "ethaddr2=2"] (asc "ethaddr2")) ∧
          env' = sealed ⟨true, false⟩ (pack [asc "ethaddr=1", asc "ethaddr2=2"] ++ padded 40 [])) ↔
      FoundByName [asc "ethaddr=1", asc "ethaddr2=2"] (asc "ethaddr2") :=
  have hdata : pack [asc "ethaddr=1", asc "ethaddr2=2"] ++ padded 40 []
      = pack [asc "ethaddr=1", asc "ethaddr2=2"] ++ 0 :: List.replicate 39 0 := rfl
  read_ubootcfg_iff rfl (by decide) (by decide) hdata

/-- Where `ethaddr2` stands first, `read_ubootcfg("ethaddr")` is its value. -/
theorem read_ubootcfg_takes_ethaddr2 :
    ¬ ∀ (abi : Abi) (env : EnvBlock) (es : List Bytes) (tail name : Bytes),
      crc_int abi env.data = env.crc → Entries es → (∀ e ∈ es, 61 ∈ e) →
      env.data = pack es ++ 0 :: tail → name ≠ [] → 0 ∉ name →
      ∀ r env', Run allOk (read_ubootcfg abi name) env (some r) env' ↔
        r = some (lookup es name) ∧ env' = env := by
  intro h
  have hent : Entries [asc "ethaddr2=2", asc "ethaddr=1"] := by decide
  have hrun := (h ⟨true, false⟩
    (sealed ⟨true, false⟩ (pack [asc "ethaddr2=2", asc "ethaddr=1"] ++ 0 :: List.replicate 65510 0))
    _ (List.replicate 65510 0) (asc "ethaddr") rfl hent (by decide) rfl (by decide) (by decide) _ _).mpr
    ⟨rfl, rfl⟩
  have hlookup := ((run_read_ubootcfg rfl).mp hrun).1
  have hscan : scan (look_at (asc "ethaddr"))
      (pack ([] ++ asc "ethaddr2=2" :: [asc "ethaddr=1"]) ++ 0 :: List.replicate 65510 0)
      = look_at (asc "ethaddr") (asc "ethaddr2=2") :=
    scan_look_at hent (fun x hx => absurd hx List.not_mem_nil) (by decide) _
  exact absurd (hlookup.trans hscan) (by decide)

end Boxing.Uboot
