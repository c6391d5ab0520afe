import Boxing.C.Str

/-!
# `strsep`

`strsep(&p, ";")` cuts one token off a string: it looks for the delimiter or the
closing NUL, puts a NUL there, and leaves `p` behind a delimiter or null at the
end of the string.  In a buffer that holds neither, it reads on behind the end:
`none`.
-/

namespace Boxing.C

/-- The token, and where `p` points afterwards. -/
def strsep (delim : UInt8) : Bytes → Option (Bytes × Option Bytes)
  | [] => none
  | c :: m =>
    if c = 0 then some ([], none)
    else if c = delim then some ([], some m)
    else (strsep delim m).map fun r => (c :: r.1, r.2)

/-- What is left is shorter. -/
theorem length_of_strsep {delim : UInt8} : ∀ {m : Bytes} {tok rest : Bytes},
    strsep delim m = some (tok, some rest) → rest.length < m.length := by
  intro m
  induction m with
  | nil => intro tok rest h; cases h
  | cons c m ih =>
    intro tok rest h
    rw [strsep] at h
    by_cases h0 : c = 0
    · rw [if_pos h0] at h
      exact absurd (Option.some.inj h) (by simp)
    by_cases hd : c = delim
    · rw [if_neg h0, if_pos hd] at h
      obtain ⟨-, rfl⟩ : [] = tok ∧ m = rest := by simpa using h
      exact Nat.lt_succ_self _
    · rw [if_neg h0, if_neg hd] at h
      obtain ⟨⟨tok', rest'⟩, h', he⟩ := Option.map_eq_some_iff.mp h
      obtain ⟨-, rfl⟩ : c :: tok' = tok ∧ rest' = some rest := by simpa using he
      exact Nat.lt_succ_of_lt (ih h')

section

variable {delim : UInt8} {t : Bytes}

/-- Up to the delimiter or the NUL nothing happens. -/
theorem strsep_append (h : delim ∉ t) (h0 : 0 ∉ t) (m : Bytes) :
    strsep delim (t ++ m) = (strsep delim m).map fun r => (t ++ r.1, r.2) := by
  induction t with
  | nil => rw [List.nil_append]; exact Option.map_id'.symm
  | cons c t ih =>
    obtain ⟨hc, ht⟩ := List.ne_and_not_mem_of_not_mem_cons h
    obtain ⟨hc0, ht0⟩ := List.ne_and_not_mem_of_not_mem_cons h0
    rw [List.cons_append, strsep, if_neg (Ne.symm hc0), if_neg (Ne.symm hc), ih ht ht0,
      Option.map_map]
    rfl

theorem strsep_delim (hd : delim ≠ 0) (h : delim ∉ t) (h0 : 0 ∉ t) (m : Bytes) :
    strsep delim (t ++ delim :: m) = some (t, some m) := by
  rw [strsep_append h h0, strsep, if_neg hd, if_pos rfl, Option.map_some, List.append_nil]

theorem strsep_zero (h : delim ∉ t) (h0 : 0 ∉ t) (m : Bytes) :
    strsep delim (t ++ 0 :: m) = some (t, none) := by
  rw [strsep_append h h0, strsep, if_pos rfl, Option.map_some, List.append_nil]

/-- A string with its NUL has a token. -/
theorem strsep_ne_none (h : 0 ∈ t) : strsep delim t ≠ none := by
  induction t with
  | nil => exact absurd h List.not_mem_nil
  | cons c t ih =>
    unfold strsep
    by_cases h0 : c = 0
    · rw [if_pos h0]
      simp
    · rw [if_neg h0]
      by_cases hd : c = delim
      · rw [if_pos hd]
        simp
      · rw [if_neg hd]
        intro hn
        exact ih ((List.mem_cons.mp h).resolve_left (Ne.symm h0)) (Option.map_eq_none_iff.mp hn)

/-- The token ends at the NUL, or at the delimiter that `strsep` stepped over. -/
theorem strsep_eq_some {tok : Bytes} {rest : Option Bytes}
    (h : strsep delim t = some (tok, rest)) :
    0 ∉ tok ∧ ((rest = none ∧ ∃ m, t = tok ++ 0 :: m) ∨
      ∃ m, rest = some m ∧ t = tok ++ delim :: m) := by
  induction t generalizing tok rest with
  | nil => cases h
  | cons c t ih =>
    unfold strsep at h
    by_cases h0 : c = 0
    · rw [if_pos h0] at h
      obtain ⟨rfl, rfl⟩ : [] = tok ∧ none = rest := by simpa using h
      exact ⟨List.not_mem_nil, Or.inl ⟨rfl, t, by rw [h0]; rfl⟩⟩
    · rw [if_neg h0] at h
      by_cases hd : c = delim
      · rw [if_pos hd] at h
        obtain ⟨rfl, rfl⟩ : [] = tok ∧ some t = rest := by simpa using h
        exact ⟨List.not_mem_nil, Or.inr ⟨t, rfl, by rw [hd]; rfl⟩⟩
      · rw [if_neg hd] at h
        obtain ⟨⟨tok', rest'⟩, h', he⟩ := Option.map_eq_some_iff.mp h
        obtain ⟨rfl, rfl⟩ : c :: tok' = tok ∧ rest' = rest := by simpa using he
        obtain ⟨hz, hr⟩ := ih h'
        refine ⟨by simp [Ne.symm h0, hz], ?_⟩
        rcases hr with ⟨hr, m, rfl⟩ | ⟨m, hr, rfl⟩
        · exact Or.inl ⟨hr, m, rfl⟩
        · exact Or.inr ⟨m, hr, rfl⟩

theorem strsep_eq_none (h : delim ∉ t) (h0 : 0 ∉ t) : strsep delim t = none := by
  have := strsep_append h h0 []
  rwa [List.append_nil] at this

end

end Boxing.C
