import Mathlib.Tactic.Common
import Boxing.C.Str

/-!
# Topics and subscriptions

A topic is a path of levels with slashes between them.  In a subscription a level may be `+`, which
stands for any level, and the last one may be `#`, which stands for all that are left, or for none.

`mosquitto_topic_matches_sub` goes through both texts together, a character at a time.  What it is
for is said by the levels alone (`matchLevels`), and on texts that pass the checks the two are the
same (`topic_matches_iff`).
-/

namespace Boxing.Mosquitto

open C

def MOSQ_ERR_SUCCESS : Int := 0

def MOSQ_ERR_INVAL : Int := 3

def TOPIC_HIERARCHY_LIMIT : Nat := 200

/-- `+` -/
def plus : UInt8 := 43

/-- `#` -/
def hash : UInt8 := 35

/-- `/` -/
def slash : UInt8 := 47

/-- `$` -/
def dollar : UInt8 := 36

/-- Some character is `+` or `#`. -/
def Wild (s : Bytes) : Prop := plus ∈ s ∨ hash ∈ s

instance (s : Bytes) : Decidable (Wild s) := inferInstanceAs (Decidable (_ ∨ _))

/-- `mosquitto_pub_topic_check(str)`, as the broker is built (`WITH_BROKER`). -/
def mosquitto_pub_topic_check (str : Bytes) : Int :=
  if Wild str then MOSQ_ERR_INVAL
  else if str.length > 65535 then MOSQ_ERR_INVAL
  else if str.count slash > TOPIC_HIERARCHY_LIMIT then MOSQ_ERR_INVAL
  else MOSQ_ERR_SUCCESS

/-- The loop of `mosquitto_sub_topic_check`, with the character before. -/
def sub_topic_loop : Option UInt8 → Bytes → Bool
  | _, [] => true
  | c, s :: str =>
    if s = plus then
      if (c ≠ none ∧ c ≠ some slash) ∨ (str ≠ [] ∧ str.head? ≠ some slash) then false
      else sub_topic_loop (some s) str
    else if s = hash then
      if (c ≠ none ∧ c ≠ some slash) ∨ str ≠ [] then false else sub_topic_loop (some s) str
    else sub_topic_loop (some s) str

/-- `mosquitto_sub_topic_check(str)`, as the broker is built. -/
def mosquitto_sub_topic_check (str : Bytes) : Int :=
  if sub_topic_loop none str = false then MOSQ_ERR_INVAL
  else if str.length > 65535 then MOSQ_ERR_INVAL
  else if str.count slash > TOPIC_HIERARCHY_LIMIT then MOSQ_ERR_INVAL
  else MOSQ_ERR_SUCCESS

/-- A `#` that is not the last character. -/
def hash_inside : Bytes → Bool
  | [] => false
  | c :: sub => (c = hash ∧ sub ≠ []) ∨ hash_inside sub

/-- The loop of `mosquitto_topic_matches_sub2`, with the character before `sub`. -/
def matches_loop : Option UInt8 → Bytes → Bytes → Int × Bool
  | _, [], topic => (if Wild topic then MOSQ_ERR_INVAL else MOSQ_ERR_SUCCESS, false)
  | prev, s :: sub, topic =>
    if topic.head? = some plus ∨ topic.head? = some hash then (MOSQ_ERR_INVAL, false)
    else if topic.head? ≠ some s then
      if s = plus then
        if prev ≠ none ∧ prev ≠ some slash then (MOSQ_ERR_INVAL, false)
        else if sub ≠ [] ∧ sub.head? ≠ some slash then (MOSQ_ERR_INVAL, false)
        else if Wild (topic.takeWhile (· ≠ slash)) then (MOSQ_ERR_INVAL, false)
        else if topic.dropWhile (· ≠ slash) = [] ∧ sub = [] then (MOSQ_ERR_SUCCESS, true)
        else matches_loop (some s) sub (topic.dropWhile (· ≠ slash))
      else if s = hash then
        if prev ≠ none ∧ prev ≠ some slash then (MOSQ_ERR_INVAL, false)
        else if sub ≠ [] then (MOSQ_ERR_INVAL, false)
        else if Wild topic then (MOSQ_ERR_INVAL, false)
        else (MOSQ_ERR_SUCCESS, true)
      else if topic = [] ∧ prev = some plus ∧ s = slash ∧ sub.head? = some hash then
        (MOSQ_ERR_SUCCESS, true)
      else if hash_inside (s :: sub) then (MOSQ_ERR_INVAL, false)
      else (MOSQ_ERR_SUCCESS, false)
    else if topic.tail = [] ∧ sub = [slash, hash] then (MOSQ_ERR_SUCCESS, true)
    else if sub = [] ∧ topic.tail = [] then (MOSQ_ERR_SUCCESS, true)
    else if topic.tail = [] ∧ sub = [plus] then
      if s ≠ slash then (MOSQ_ERR_INVAL, false) else (MOSQ_ERR_SUCCESS, true)
    else matches_loop (some s) sub topic.tail

/-- `mosquitto_topic_matches_sub(sub, topic, result)`. -/
def mosquitto_topic_matches_sub (sub topic : Bytes) : Int × Bool :=
  if sub = [] ∨ topic = [] then (MOSQ_ERR_INVAL, false)
  else if (sub.head? = some dollar ∧ topic.head? ≠ some dollar) ∨
      (topic.head? = some dollar ∧ sub.head? ≠ some dollar) then (MOSQ_ERR_SUCCESS, false)
  else matches_loop none sub topic

/-! ### Levels -/

/-- The levels of a text. -/
def levels (s : Bytes) : List Bytes := s.splitOnP (· = slash)

/-- The levels of a subscription match those of a topic. -/
def matchLevels : List Bytes → List Bytes → Bool
  | [], [] => true
  | [], _ :: _ => false
  | f :: fs, [] => f = [hash] ∧ fs = []
  | f :: fs, t :: ts => (f = [hash] ∧ fs = []) ∨ ((f = [plus] ∨ f = t) ∧ matchLevels fs ts)

variable {s sub topic : Bytes} {c : UInt8} {prev : Option UInt8} {f t : Bytes}
  {fs ts : List Bytes}

theorem levels_nil : levels [] = [[]] := rfl

theorem levels_slash (s : Bytes) : levels (slash :: s) = [] :: levels s := by
  rw [levels, List.splitOnP_cons_eq_if_modifyHead]
  rfl

theorem levels_cons (hc : c ≠ slash) (s : Bytes) :
    levels (c :: s) = (levels s).modifyHead (c :: ·) := by
  rw [levels, List.splitOnP_cons_eq_if_modifyHead, if_neg (by simpa using hc)]
  rfl

theorem wild_cons : ¬ Wild (c :: s) ↔ c ≠ plus ∧ c ≠ hash ∧ ¬ Wild s := by
  simp only [Wild, List.mem_cons, not_or, ne_eq, eq_comm (a := c)]
  tauto

/-- The first level, and what is behind it. -/
theorem levels_eq (s : Bytes) : ∃ rest, levels s = s.takeWhile (· ≠ slash) :: rest ∧
    levels (s.dropWhile (· ≠ slash)) = [] :: rest := by
  induction s with
  | nil => exact ⟨[], rfl, rfl⟩
  | cons c s ih =>
    by_cases hc : c = slash
    · subst hc
      refine ⟨levels s, ?_, ?_⟩
      · rw [levels_slash, List.takeWhile_cons_of_neg (by simp)]
      · rw [List.dropWhile_cons_of_neg (by simp), levels_slash]
    · obtain ⟨rest, htake, hdrop⟩ := ih
      refine ⟨rest, ?_, ?_⟩
      · rw [levels_cons hc, htake, List.takeWhile_cons_of_pos (by simpa using hc)]
        rfl
      · rw [List.dropWhile_cons_of_pos (by simpa using hc), hdrop]

theorem matchLevels_plain (hf : ¬ Wild f) :
    matchLevels (f :: fs) (t :: ts) = (decide (f = t) && matchLevels fs ts) := by
  have hhash : f ≠ [hash] := by
    rintro rfl
    exact hf (Or.inr (List.mem_singleton_self _))
  have hplus : f ≠ [plus] := by
    rintro rfl
    exact hf (Or.inl (List.mem_singleton_self _))
  simp [matchLevels, hhash, hplus]

theorem matchLevels_plus : matchLevels ([plus] :: fs) (t :: ts) = matchLevels fs ts := by
  have hne : ([plus] : Bytes) ≠ [hash] := by decide
  simp [matchLevels, hne]

/-- In the middle of a level there is neither `+` nor `#`. -/
theorem first_plain (h : sub_topic_loop (some c) sub = true) (hc : c ≠ slash) :
    ¬ Wild (sub.takeWhile (· ≠ slash)) := by
  induction sub generalizing c with
  | nil => simp [Wild]
  | cons s sub ih =>
    by_cases hs : s = slash
    · rw [List.takeWhile_cons_of_neg (by simpa using hs)]
      simp [Wild]
    · rw [List.takeWhile_cons_of_pos (by simpa using hs), wild_cons]
      have hprev : (some c ≠ none ∧ some c ≠ some slash) := ⟨by simp, by simpa using hc⟩
      rw [sub_topic_loop] at h
      split at h
      · rw [if_pos (Or.inl hprev)] at h
        cases h
      · rename_i hp
        split at h
        · rw [if_pos (Or.inl hprev)] at h
          cases h
        · rename_i hh
          exact ⟨hp, hh, ih h hs⟩

theorem hash_inside_eq (h : sub_topic_loop prev sub = true) : hash_inside sub = false := by
  induction sub generalizing prev with
  | nil => rfl
  | cons s sub ih =>
    rw [sub_topic_loop] at h
    have hrest : sub_topic_loop (some s) sub = true ∧ ¬ (s = hash ∧ sub ≠ []) := by
      split at h
      · rename_i hp
        split at h
        · cases h
        · exact ⟨h, fun hs => absurd (hp.symm.trans hs.1) (by decide)⟩
      · split at h
        · split at h
          · cases h
          · rename_i hor
            exact ⟨h, fun hs => hor (Or.inr hs.2)⟩
        · rename_i hh
          exact ⟨h, fun hs => hh hs.1⟩
    simp [hash_inside, hrest.2, ih hrest.1]

/-! ### What the check accepts -/

/-- A level with `+` or `#` in it is only that, and `#` is the last. -/
def WellFormed : List Bytes → Prop
  | [] => True
  | f :: fs => (Wild f → f = [plus] ∨ (f = [hash] ∧ fs = [])) ∧ WellFormed fs

/-- Where a level begins. -/
def Start (prev : Option UInt8) : Prop := prev = none ∨ prev = some slash

theorem not_start_iff : ¬ Start prev ↔ prev ≠ none ∧ prev ≠ some slash := not_or

theorem not_wild_nil : ¬ Wild [] := by
  simp [Wild]

theorem levels_eq_nil_iff : levels s = [[]] ↔ s = [] := by
  refine ⟨fun h => ?_, fun h => h ▸ levels_nil⟩
  cases s with
  | nil => rfl
  | cons c s =>
    by_cases hc : c = slash
    · subst hc
      rw [levels_slash] at h
      exact absurd (List.cons.inj h).2 (List.splitOnP_ne_nil _ _)
    · obtain ⟨fs, hs, -⟩ := levels_eq s
      rw [levels_cons hc, hs, List.modifyHead_cons] at h
      exact absurd (List.cons.inj h).1 (List.cons_ne_nil _ _)

/-- The next character ends the level. -/
theorem next_iff (hs : levels s = f :: fs) : (s ≠ [] ∧ s.head? ≠ some slash) ↔ f ≠ [] := by
  cases s with
  | nil =>
    obtain ⟨rfl, -⟩ := List.cons.inj (hs.symm.trans levels_nil)
    simp
  | cons c s =>
    by_cases hc : c = slash
    · subst hc
      obtain ⟨rfl, -⟩ := List.cons.inj (hs.symm.trans (levels_slash s))
      simp
    · obtain ⟨gs, hgs, -⟩ := levels_eq s
      rw [levels_cons hc, hgs, List.modifyHead_cons] at hs
      obtain ⟨rfl, -⟩ := List.cons.inj hs
      simp [hc]

/-- From the middle of a level on. -/
theorem sub_topic_loop_iff (hs : levels s = f :: fs) :
    sub_topic_loop prev s = true ↔
      (Wild f → Start prev ∧ (f = [plus] ∨ (f = [hash] ∧ fs = []))) ∧ WellFormed fs := by
  induction s generalizing prev f fs with
  | nil =>
    obtain ⟨rfl, rfl⟩ := List.cons.inj (hs.symm.trans levels_nil)
    simp [sub_topic_loop, WellFormed, not_wild_nil]
  | cons c s ih =>
    obtain ⟨gs, hgs, -⟩ := levels_eq s
    rw [sub_topic_loop]
    by_cases hc : c = slash
    · subst hc
      obtain ⟨rfl, rfl⟩ := List.cons.inj (hs.symm.trans (levels_slash s))
      rw [if_neg (by decide), if_neg (by decide), ih hgs, hgs]
      simp [WellFormed, Start, not_wild_nil]
    rw [levels_cons hc, hgs, List.modifyHead_cons] at hs
    obtain ⟨rfl, rfl⟩ := List.cons.inj hs
    by_cases hp : c = plus
    · subst hp
      have hwild : Wild (plus :: s.takeWhile (· ≠ slash)) := Or.inl (List.mem_cons_self ..)
      have hcond := or_congr (@not_start_iff prev).symm (next_iff hgs)
      rw [if_pos rfl]
      by_cases hst : Start prev
      · by_cases hnil : s.takeWhile (· ≠ slash) = []
        · rw [if_neg (mt hcond.mp (not_or.mpr ⟨not_not.mpr hst, not_not.mpr hnil⟩)), ih hgs, hnil]
          simp [not_wild_nil, hst]
        · rw [if_pos (hcond.mpr (Or.inr hnil))]
          simp only [Bool.false_eq_true, false_iff, not_and]
          intro h
          rcases (h hwild).2 with heq | ⟨heq, -⟩
          · exact absurd (List.cons.inj heq).2 hnil
          · exact absurd (List.cons.inj heq).1 (by decide)
      · rw [if_pos (hcond.mpr (Or.inl hst))]
        simp only [Bool.false_eq_true, false_iff, not_and]
        exact fun h => absurd (h hwild).1 hst
    rw [if_neg hp]
    by_cases hh : c = hash
    · subst hh
      have hwild : Wild (hash :: s.takeWhile (· ≠ slash)) := Or.inr (List.mem_cons_self ..)
      rw [if_pos rfl]
      by_cases hst : Start prev
      · by_cases hnil : s = []
        · subst hnil
          obtain ⟨hgs, rfl⟩ := List.cons.inj (hgs.symm.trans levels_nil)
          rw [if_neg fun h => h.elim (fun h => not_start_iff.mpr h hst) fun h => h rfl]
          simp [hst, sub_topic_loop, WellFormed]
        · rw [if_pos (Or.inr hnil)]
          simp only [Bool.false_eq_true, false_iff, not_and]
          intro h
          rcases (h hwild).2 with heq | ⟨heq, rfl⟩
          · exact absurd (List.cons.inj heq).1 (by decide)
          · rw [(List.cons.inj heq).2] at hgs
            exact absurd (levels_eq_nil_iff.mp hgs) hnil
      · rw [if_pos (Or.inl (not_start_iff.mp hst))]
        simp only [Bool.false_eq_true, false_iff, not_and]
        exact fun h => absurd (h hwild).1 hst
    · have hwild : Wild (c :: s.takeWhile (· ≠ slash)) ↔ Wild (s.takeWhile (· ≠ slash)) := by
        rw [← not_iff_not, wild_cons]
        simp [hp, hh]
      rw [if_neg hh, ih hgs, hwild]
      simp [Start, hc, hp, hh]

theorem length_levels (s : Bytes) : (levels s).length = s.count slash + 1 := by
  induction s with
  | nil => rfl
  | cons c s ih =>
    by_cases hc : c = slash
    · subst hc
      rw [levels_slash, List.length_cons, ih, List.count_cons_self]
    · rw [levels_cons hc, List.length_modifyHead, ih, List.count_cons_of_ne hc]

/-- **What `mosquitto_sub_topic_check` accepts**: well formed levels, and neither too many of them
nor too long a text. -/
theorem sub_topic_check_iff : mosquitto_sub_topic_check s = MOSQ_ERR_SUCCESS ↔
    WellFormed (levels s) ∧ s.length ≤ 65535 ∧ (levels s).length ≤ TOPIC_HIERARCHY_LIMIT + 1 := by
  obtain ⟨fs, hs, -⟩ := levels_eq s
  have hloop : sub_topic_loop none s = true ↔ WellFormed (levels s) := by
    rw [sub_topic_loop_iff hs, hs, WellFormed]
    simp [Start]
  have hcount := length_levels s
  have hne : MOSQ_ERR_INVAL ≠ MOSQ_ERR_SUCCESS := by decide
  rw [mosquitto_sub_topic_check, ← hloop]
  split
  · rename_i hbad
    simp [hne, hbad]
  · rename_i hgood
    split
    · rename_i hlong
      simp only [hne, false_iff, not_and]
      omega
    · split
      · rename_i hmany
        simp only [hne, false_iff, not_and]
        omega
      · simp only [true_iff]
        refine ⟨by simpa using hgood, by omega, by omega⟩

/-! ### What the loop is for -/

theorem wild_takeWhile (h : ¬ Wild s) : ¬ Wild (s.takeWhile (· ≠ slash)) := fun hw =>
  h (hw.imp (fun hp => (List.takeWhile_prefix _).subset hp)
    fun hh => (List.takeWhile_prefix _).subset hh)

theorem wild_dropWhile (h : ¬ Wild s) : ¬ Wild (s.dropWhile (· ≠ slash)) := fun hw =>
  h (hw.imp (fun hp => (List.dropWhile_suffix _).subset hp)
    fun hh => (List.dropWhile_suffix _).subset hh)

/-- The same character is passed in both texts. -/
theorem match_same (h : sub_topic_loop (some c) sub = true) (hp : c ≠ plus) (hh : c ≠ hash) :
    matchLevels (levels (c :: sub)) (levels (c :: topic)) =
      matchLevels (levels sub) (levels topic) := by
  by_cases hc : c = slash
  · subst hc
    rw [levels_slash, levels_slash, matchLevels_plain not_wild_nil]
    simp
  · obtain ⟨fs, hsub, -⟩ := levels_eq sub
    obtain ⟨ts, htopic, -⟩ := levels_eq topic
    have hplain := first_plain h hc
    rw [levels_cons hc, levels_cons hc, hsub, htopic, List.modifyHead_cons, List.modifyHead_cons,
      matchLevels_plain hplain, matchLevels_plain (wild_cons.mpr ⟨hp, hh, hplain⟩)]
    simp

/-- Texts that differ in a character that is no wildcard do not match. -/
theorem match_differ (h : sub_topic_loop (some c) sub = true) (hp : c ≠ plus) (hh : c ≠ hash)
    (hhead : topic.head? ≠ some c) (hend : ¬ (c = slash ∧ topic = [])) :
    matchLevels (levels (c :: sub)) (levels topic) = false := by
  obtain ⟨ts, htopic, -⟩ := levels_eq topic
  rw [htopic]
  by_cases hc : c = slash
  · subst hc
    rw [levels_slash, matchLevels_plain not_wild_nil]
    cases topic with
    | nil => exact absurd ⟨rfl, rfl⟩ hend
    | cons d topic =>
      have hd : d ≠ slash := fun hd => hhead (congrArg some hd)
      rw [List.takeWhile_cons_of_pos (by simpa using hd)]
      simp
  · obtain ⟨fs, hsub, -⟩ := levels_eq sub
    rw [levels_cons hc, hsub, List.modifyHead_cons,
      matchLevels_plain (wild_cons.mpr ⟨hp, hh, first_plain h hc⟩)]
    cases topic with
    | nil => simp
    | cons d topic =>
      have hd : c ≠ d := fun hd => hhead (congrArg some hd.symm)
      by_cases hs : d = slash
      · simp [hs]
      · simp [hs, hd]

/-- At the end of the topic only `#` is left to match. -/
theorem match_end (h : sub.head? ≠ some hash) :
    matchLevels (levels (slash :: sub)) (levels []) = false := by
  obtain ⟨fs, hsub, -⟩ := levels_eq sub
  rw [levels_slash, levels_nil, matchLevels_plain not_wild_nil, hsub]
  have hne : sub.takeWhile (· ≠ slash) ≠ [hash] := by
    cases sub with
    | nil => simp
    | cons d sub =>
      have hd : d ≠ hash := fun hd => h (congrArg some hd)
      by_cases hs : d = slash
      · simp [hs]
      · simp [hs, hd]
  have hlast : matchLevels (sub.takeWhile (· ≠ slash) :: fs) [] = false :=
    decide_eq_false fun h => hne h.1
  rw [hlast, Bool.and_false]

/-- What the checks of `+` and `#` leave. -/
theorem sub_topic_plus (h : sub_topic_loop prev (plus :: sub) = true) :
    ¬ (prev ≠ none ∧ prev ≠ some slash) ∧ ¬ (sub ≠ [] ∧ sub.head? ≠ some slash) ∧
      sub_topic_loop (some plus) sub = true := by
  rw [sub_topic_loop, if_pos rfl] at h
  split at h
  · cases h
  · rename_i hor
    exact ⟨fun hprev => hor (Or.inl hprev), fun hnext => hor (Or.inr hnext), h⟩

theorem sub_topic_hash (h : sub_topic_loop prev (hash :: sub) = true) :
    ¬ (prev ≠ none ∧ prev ≠ some slash) ∧ sub = [] := by
  rw [sub_topic_loop, if_neg (by decide), if_pos rfl] at h
  split at h
  · cases h
  · rename_i hor
    exact ⟨fun hprev => hor (Or.inl hprev), not_not.mp fun hnext => hor (Or.inr hnext)⟩

theorem sub_topic_plain (hp : c ≠ plus) (hh : c ≠ hash) :
    sub_topic_loop prev (c :: sub) = sub_topic_loop (some c) sub := by
  rw [sub_topic_loop, if_neg hp, if_neg hh]

/-- A level that is `+`. -/
theorem match_plus (h : ¬ (sub ≠ [] ∧ sub.head? ≠ some slash)) :
    matchLevels (levels (plus :: sub)) (levels topic) =
      matchLevels (levels sub) (levels (topic.dropWhile (· ≠ slash))) := by
  obtain ⟨ts, htopic, hdrop⟩ := levels_eq topic
  obtain ⟨fs, hsub⟩ : ∃ fs, levels sub = [] :: fs := by
    cases sub with
    | nil => exact ⟨[], rfl⟩
    | cons d sub =>
      obtain rfl : d = slash := by simpa using h
      exact ⟨levels sub, levels_slash sub⟩
  rw [levels_cons (by decide), hsub, List.modifyHead_cons, htopic, hdrop, matchLevels_plus,
    matchLevels_plain not_wild_nil]
  simp

/-- **The loop** goes on where the levels that are left decide. -/
theorem matches_loop_eq (hv : sub_topic_loop prev sub = true) (ht : ¬ Wild topic)
    (hne : ¬ (sub = [] ∧ topic = [])) (hend : topic = [] → sub = [slash, hash] → prev = some plus) :
    matches_loop prev sub topic = (MOSQ_ERR_SUCCESS, matchLevels (levels sub) (levels topic)) := by
  induction sub generalizing prev topic with
  | nil =>
    rw [matches_loop, if_neg ht, levels_nil]
    cases topic with
    | nil => exact absurd ⟨rfl, rfl⟩ hne
    | cons c topic =>
      by_cases hc : c = slash
      · subst hc
        obtain ⟨ts, htopic, -⟩ := levels_eq topic
        rw [levels_slash, matchLevels_plain not_wild_nil, htopic]
        simp [matchLevels]
      · obtain ⟨ts, htopic, -⟩ := levels_eq topic
        rw [levels_cons hc, htopic, List.modifyHead_cons, matchLevels_plain not_wild_nil]
        simp
  | cons s sub ih =>
    have hhead : ¬ (topic.head? = some plus ∨ topic.head? = some hash) := fun h =>
      ht (h.imp List.mem_of_mem_head? List.mem_of_mem_head?)
    rw [matches_loop, if_neg hhead]
    by_cases hs : topic.head? = some s
    · obtain ⟨r, rfl⟩ := List.head?_eq_some_iff.mp hs
      obtain ⟨hp, hh, hr⟩ := wild_cons.mp ht
      rw [sub_topic_plain hp hh] at hv
      rw [if_neg (not_not.mpr hs), match_same hv hp hh, List.tail_cons]
      by_cases hhash : r = [] ∧ sub = [slash, hash]
      · obtain ⟨rfl, rfl⟩ := hhash
        rfl
      rw [if_neg hhash]
      by_cases hboth : sub = [] ∧ r = []
      · obtain ⟨rfl, rfl⟩ := hboth
        rfl
      rw [if_neg hboth]
      by_cases hplus : r = [] ∧ sub = [plus]
      · obtain ⟨rfl, rfl⟩ := hplus
        have hslash : ¬ s ≠ slash := fun hne => (sub_topic_plus hv).1 ⟨by simp, by simpa using hne⟩
        rw [if_pos ⟨rfl, rfl⟩, if_neg hslash]
        rfl
      rw [if_neg hplus]
      exact ih hv hr hboth fun hr hsub => absurd ⟨hr, hsub⟩ hhash
    · rw [if_pos hs]
      by_cases hp : s = plus
      · subst hp
        obtain ⟨hprev, hnext, hv'⟩ := sub_topic_plus hv
        rw [if_pos rfl, if_neg hprev, if_neg hnext, if_neg (wild_takeWhile ht), match_plus hnext]
        by_cases hboth : topic.dropWhile (· ≠ slash) = [] ∧ sub = []
        · rw [if_pos hboth, hboth.1, hboth.2]
          rfl
        · rw [if_neg hboth]
          exact ih hv' (wild_dropWhile ht) (fun h => hboth ⟨h.2, h.1⟩) fun _ _ => rfl
      · rw [if_neg hp]
        by_cases hh : s = hash
        · subst hh
          obtain ⟨hprev, rfl⟩ := sub_topic_hash hv
          obtain ⟨ts, htopic, -⟩ := levels_eq topic
          rw [if_pos rfl, if_neg hprev, if_neg (not_not.mpr rfl), if_neg ht, htopic]
          rfl
        · rw [if_neg hh]
          have hinside := hash_inside_eq hv
          rw [sub_topic_plain hp hh] at hv
          by_cases hlast : s = slash ∧ topic = []
          · obtain ⟨rfl, rfl⟩ := hlast
            by_cases hhash : sub.head? = some hash
            · obtain ⟨r, rfl⟩ := List.head?_eq_some_iff.mp hhash
              obtain ⟨-, rfl⟩ := sub_topic_hash hv
              rw [if_pos ⟨rfl, hend rfl rfl, rfl, rfl⟩]
              rfl
            · rw [if_neg fun h => hhash h.2.2.2, hinside, match_end hhash]
              rfl
          · rw [if_neg fun h => hlast ⟨h.2.2.1, h.1⟩, hinside, match_differ hv hp hh hs hlast]
            rfl

/-- **Matching**: what passes the checks for a subscription and for a topic is accepted, and matches
exactly where the levels do and either both begin with `$` or none. -/
theorem topic_matches_iff (hsub : mosquitto_sub_topic_check sub = MOSQ_ERR_SUCCESS)
    (htopic : mosquitto_pub_topic_check topic = MOSQ_ERR_SUCCESS) (hs : sub ≠ [])
    (ht : topic ≠ []) :
    mosquitto_topic_matches_sub sub topic = (MOSQ_ERR_SUCCESS,
      decide (sub.head? = some dollar ↔ topic.head? = some dollar) &&
        matchLevels (levels sub) (levels topic)) := by
  have hv : sub_topic_loop none sub = true := by
    rw [mosquitto_sub_topic_check] at hsub
    split at hsub
    · exact absurd hsub (by decide)
    · rename_i hloop
      simpa using hloop
  have hw : ¬ Wild topic := by
    rw [mosquitto_pub_topic_check] at htopic
    split at htopic
    · exact absurd htopic (by decide)
    · assumption
  rw [mosquitto_topic_matches_sub, if_neg (by simp [hs, ht]),
    matches_loop_eq hv hw (fun h => hs h.1) fun h => absurd h ht]
  by_cases hds : sub.head? = some dollar <;> by_cases hdt : topic.head? = some dollar <;>
    simp [hds, hdt]

/-- `a/+/#` and the topic `a/b`. -/
theorem topic_matches_parent : mosquitto_topic_matches_sub (asc "a/+/#") (asc "a/b") =
    (MOSQ_ERR_SUCCESS, true) :=
  topic_matches_iff (by decide) (by decide) (by decide) (by decide)

end Boxing.Mosquitto
