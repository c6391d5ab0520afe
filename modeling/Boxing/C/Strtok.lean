import Mathlib.Data.List.Forall2
import Mathlib.Data.List.GetD
import Boxing.C.Str

/-!
# `strtok`

`strtok(src, " ")` and then `strtok(NULL, " ")` cut a string into its fields where it
lies: the byte behind each field becomes a NUL, and a field is a place in the buffer.
An array of such places keeps its old ones where no field is written over them.

`fields` is the mathematical cut, a function of the string alone.  `tokens_spec` says
that the loop stores one place for each field, in order, and that the field can be
read there afterwards.
-/

namespace Boxing.C

/-- One call: the place of the field, the buffer, and where the next call begins. -/
def strtok (delim : UInt8) (buf : Bytes) (pos : Nat) : Option (Nat × Bytes × Nat) :=
  let start := pos + ((buf.drop pos).takeWhile (· = delim)).length
  let stop := start + ((buf.drop start).takeWhile fun c => c ≠ delim ∧ c ≠ 0).length
  if buf.getD start 0 = 0 then none
  else if buf.getD stop 0 = 0 then some (start, buf, stop)
  else some (start, buf.set stop 0, stop + 1)

/-- The loop `*dest++ = strtok(..)`: the buffer and the array afterwards.  There is no
room behind the array. -/
def tokens (delim : UInt8) :
    List (Option Nat) → Bytes → Nat → Option (Bytes × List (Option Nat))
  | [], buf, pos =>
    match strtok delim buf pos with
    | none => some (buf, [])
    | some _ => none
  | old :: dest, buf, pos =>
    match strtok delim buf pos with
    | none => some (buf, old :: dest)
    | some (tok, buf, pos) => (tokens delim dest buf pos).map fun r => (r.1, some tok :: r.2)

/-- The fields of a string of which `acc` has been read. -/
def fieldsFrom (delim : UInt8) : Bytes → Bytes → List Bytes
  | acc, [] => if acc = [] then [] else [acc]
  | acc, c :: s =>
    if c = delim then
      if acc = [] then fieldsFrom delim [] s else acc :: fieldsFrom delim [] s
    else fieldsFrom delim (acc ++ [c]) s

/-- The fields of a string. -/
def fields (delim : UInt8) (s : Bytes) : List Bytes := fieldsFrom delim [] s

/-! ### Fields -/

section

variable {delim : UInt8}

theorem fieldsFrom_append {t : Bytes} (ht : delim ∉ t) :
    ∀ (acc s : Bytes), fieldsFrom delim acc (t ++ s) = fieldsFrom delim (acc ++ t) s := by
  induction t with
  | nil => intro acc s; rw [List.nil_append, List.append_nil]
  | cons c t ih =>
    intro acc s
    obtain ⟨hc, ht⟩ := List.ne_and_not_mem_of_not_mem_cons ht
    rw [List.cons_append, fieldsFrom, if_neg (Ne.symm hc), ih ht, List.append_assoc]
    rfl

theorem fields_replicate_append (j : Nat) (s : Bytes) :
    fields delim (List.replicate j delim ++ s) = fields delim s := by
  induction j with
  | zero => rfl
  | succ j ih =>
    rw [List.replicate_succ, List.cons_append, fields, fieldsFrom, if_pos rfl, if_pos rfl]
    exact ih

theorem fields_last {t : Bytes} (ht : delim ∉ t) (hne : t ≠ []) : fields delim t = [t] := by
  have := fieldsFrom_append ht [] []
  rw [List.append_nil, List.nil_append] at this
  rw [fields, this, fieldsFrom, if_neg hne]

theorem fields_append_delim {t : Bytes} (ht : delim ∉ t) (hne : t ≠ []) (s : Bytes) :
    fields delim (t ++ delim :: s) = t :: fields delim s := by
  rw [fields, fieldsFrom_append ht, List.nil_append, fieldsFrom, if_pos rfl, if_neg hne]
  rfl

/-- A string is delimiters only, or delimiters and a field to its end, or delimiters,
a field, and a delimiter before the rest. -/
theorem fields_cases (delim : UInt8) (s : Bytes) :
    (∃ j, s = List.replicate j delim ∧ fields delim s = []) ∨
    (∃ j t, t ≠ [] ∧ delim ∉ t ∧ s = List.replicate j delim ++ t ∧ fields delim s = [t]) ∨
    (∃ j t s', t ≠ [] ∧ delim ∉ t ∧ s = List.replicate j delim ++ (t ++ delim :: s') ∧
      fields delim s = t :: fields delim s') := by
  induction s with
  | nil => exact Or.inl ⟨0, rfl, rfl⟩
  | cons c s ih =>
    by_cases hc : c = delim
    · subst hc
      rcases ih with ⟨j, hs, -⟩ | ⟨j, t, hne, ht, hs, -⟩ | ⟨j, t, s', hne, ht, hs, -⟩
      · refine Or.inl ⟨j + 1, by rw [List.replicate_succ, hs], ?_⟩
        have := @fields_replicate_append c (j + 1) []
        rwa [List.append_nil, List.replicate_succ, ← hs] at this
      · refine Or.inr (Or.inl ⟨j + 1, t, hne, ht, by rw [List.replicate_succ, hs]; rfl, ?_⟩)
        have := @fields_replicate_append c (j + 1) t
        rwa [List.replicate_succ, List.cons_append, ← hs, fields_last ht hne] at this
      · refine Or.inr (Or.inr ⟨j + 1, t, s', hne, ht, by rw [List.replicate_succ, hs]; rfl, ?_⟩)
        have := @fields_replicate_append c (j + 1) (t ++ c :: s')
        rwa [List.replicate_succ, List.cons_append, ← hs, fields_append_delim ht hne] at this
    · -- the field that begins here goes as far as there is no delimiter
      by_cases hmem : delim ∈ s
      · obtain ⟨t, s', rfl, ht⟩ := List.eq_append_cons_of_mem hmem
        have ht' : delim ∉ c :: t := by simp [Ne.symm hc, ht]
        exact Or.inr (Or.inr ⟨0, c :: t, s', List.cons_ne_nil _ _, ht', rfl,
          fields_append_delim ht' (List.cons_ne_nil _ _) s'⟩)
      · have ht : delim ∉ c :: s := by simp [Ne.symm hc, hmem]
        exact Or.inr (Or.inl ⟨0, c :: s, List.cons_ne_nil _ _, ht, rfl,
          fields_last ht (List.cons_ne_nil _ _)⟩)

/-- What follows a string can change its last field only. -/
theorem dropLast_fieldsFrom (u : Bytes) : ∀ (s acc : Bytes),
    (fieldsFrom delim acc s).dropLast <+: fieldsFrom delim acc (s ++ u) := by
  intro s
  induction s with
  | nil =>
    intro acc
    rw [fieldsFrom]
    split
    · exact List.nil_prefix
    · exact List.nil_prefix
  | cons c s ih =>
    intro acc
    rw [List.cons_append, fieldsFrom, fieldsFrom]
    split
    · split
      · exact ih []
      · cases hF : fieldsFrom delim [] s with
        | nil => exact List.nil_prefix
        | cons f F =>
          have := ih []
          rw [hF] at this
          rw [List.dropLast_cons_of_ne_nil (List.cons_ne_nil _ _)]
          exact List.cons_prefix_cons.mpr ⟨rfl, this⟩
    · exact ih _

theorem fields_getElem?_of_prefix {s v : Bytes} (h : s <+: v) {k : Nat}
    (hk : k + 1 < (fields delim s).length) : (fields delim v)[k]? = (fields delim s)[k]? := by
  obtain ⟨u, rfl⟩ := h
  obtain ⟨w, hw⟩ := @dropLast_fieldsFrom delim u s []
  have hlt : k < (fields delim s).dropLast.length := by
    rw [List.length_dropLast]
    omega
  calc (fields delim (s ++ u))[k]? = ((fields delim s).dropLast ++ w)[k]? := by
        rw [fields, ← hw]
        rfl
    _ = (fields delim s).dropLast[k]? := List.getElem?_append_left hlt
    _ = (fields delim s)[k]? := by rw [List.getElem?_dropLast, if_pos (by omega)]

/-! ### One call -/

theorem takeWhile_append_neg {p : UInt8 → Bool} {w : Bytes} {a : UInt8} (hw : ∀ c ∈ w, p c = true)
    (ha : p a = false) (r : Bytes) : (w ++ a :: r).takeWhile p = w := by
  rw [List.takeWhile_append_of_pos hw, List.takeWhile_cons_of_neg (by simp [ha]), List.append_nil]

theorem strtok_none (hd : delim ≠ 0) (pre : Bytes) (j : Nat) (post : Bytes) :
    strtok delim (pre ++ (List.replicate j delim ++ 0 :: post)) pre.length = none := by
  have hspan : (List.replicate j delim ++ 0 :: post).takeWhile (· = delim)
      = List.replicate j delim :=
    takeWhile_append_neg (fun c hc => by simpa using List.eq_of_mem_replicate hc)
      (by simpa using Ne.symm hd) post
  have hget : (pre ++ (List.replicate j delim ++ 0 :: post)).getD (pre.length + j) 0 = 0 := by
    rw [List.getD_append_right _ _ _ _ (by omega), List.getD_append_right _ _ _ _ (by simp)]
    simp
  unfold strtok
  rw [List.drop_left, hspan, List.length_replicate]
  exact if_pos hget

/-- The field is found, and the byte behind it, a NUL or a delimiter, becomes a NUL. -/
theorem strtok_some (hd : delim ≠ 0) {t : Bytes} (hne : t ≠ []) (ht : delim ∉ t) (ht0 : 0 ∉ t)
    {c : UInt8} (hc : c = 0 ∨ c = delim) (pre : Bytes) (j : Nat) (post : Bytes) :
    strtok delim (pre ++ (List.replicate j delim ++ (t ++ c :: post))) pre.length
      = some (pre.length + j, pre ++ (List.replicate j delim ++ (t ++ 0 :: post)),
          if c = 0 then pre.length + j + t.length else pre.length + j + t.length + 1) := by
  obtain ⟨a, t', rfl⟩ := List.exists_cons_of_ne_nil hne
  obtain ⟨had, -⟩ := List.ne_and_not_mem_of_not_mem_cons ht
  obtain ⟨ha0, -⟩ := List.ne_and_not_mem_of_not_mem_cons ht0
  have hspan : (List.replicate j delim ++ ((a :: t') ++ c :: post)).takeWhile (· = delim)
      = List.replicate j delim := by
    rw [List.cons_append]
    exact takeWhile_append_neg (fun c hc => by simpa using List.eq_of_mem_replicate hc)
      (by simpa using Ne.symm had) _
  have hword : ((a :: t') ++ c :: post).takeWhile (fun c => decide (c ≠ delim ∧ c ≠ 0))
      = a :: t' := by
    refine takeWhile_append_neg (fun x hx => ?_) ?_ post
    · simp only [decide_eq_true_eq]
      exact ⟨fun h => ht (h ▸ hx), fun h => ht0 (h ▸ hx)⟩
    · rcases hc with rfl | rfl <;> simp
  have hpre : pre ++ (List.replicate j delim ++ ((a :: t') ++ c :: post))
      = (pre ++ List.replicate j delim) ++ ((a :: t') ++ c :: post) := by simp
  have hlen : (pre ++ List.replicate j delim).length = pre.length + j := by simp
  have hstart : (pre ++ (List.replicate j delim ++ ((a :: t') ++ c :: post))).getD
      (pre.length + j) 0 = a := by
    rw [hpre, List.getD_append_right _ _ _ _ (by omega), hlen, Nat.sub_self]
    rfl
  have hstop : (pre ++ (List.replicate j delim ++ ((a :: t') ++ c :: post))).getD
      (pre.length + j + (a :: t').length) 0 = c := by
    rw [hpre, List.getD_append_right _ _ _ _ (by omega), hlen,
      List.getD_append_right _ _ _ _ (by omega), Nat.add_sub_cancel_left, Nat.sub_self]
    rfl
  have hset : (pre ++ (List.replicate j delim ++ ((a :: t') ++ c :: post))).set
      (pre.length + j + (a :: t').length) 0
      = pre ++ (List.replicate j delim ++ ((a :: t') ++ 0 :: post)) := by
    rw [hpre, List.set_append_right _ _ (by omega), hlen, Nat.add_sub_cancel_left,
      List.set_append_right _ _ (by omega), Nat.sub_self]
    simp
  have hdrop : (pre ++ (List.replicate j delim ++ ((a :: t') ++ c :: post))).drop (pre.length + j)
      = (a :: t') ++ c :: post := by
    rw [hpre, ← hlen, List.drop_left]
  unfold strtok
  rw [List.drop_left, hspan, List.length_replicate]
  dsimp only
  rw [hdrop, hword, hstart, hstop, hset, if_neg (Ne.symm ha0)]
  by_cases hc0 : c = 0
  · rw [if_pos hc0, if_pos hc0, hc0]
  · rw [if_neg hc0, if_neg hc0]

/-- The field can be read at its place. -/
theorem str_drop_field {t : Bytes} (ht0 : 0 ∉ t) (pre : Bytes) (j : Nat) (post : Bytes) :
    str ((pre ++ ((List.replicate j delim ++ t) ++ 0 :: post)).drop (pre.length + j)) = t := by
  have hlen : pre.length + j = (pre ++ List.replicate j delim).length := by simp
  rw [hlen, List.append_assoc (List.replicate j delim), ← List.append_assoc pre, List.drop_left]
  exact str_append_zero t post ht0

/-- One call on the string `s` behind `pre` takes the field `t`: it is at `place`, and behind
the bytes `m` the rest `s'` of the string is left, whatever becomes of that. -/
structure Cuts (delim : UInt8) (pre s post t s' m : Bytes) (place : Nat) : Prop where
  fields : fields delim s = t :: fields delim s'
  zero : 0 ∉ s'
  call : strtok delim (pre ++ (s ++ 0 :: post)) pre.length
    = some (place, pre ++ m ++ (s' ++ 0 :: post), (pre ++ m).length)
  length : m.length + s'.length = s.length
  head? : m.head? = s.head?
  ne_nil : m ≠ []
  le : pre.length ≤ place
  lt : place < (pre ++ m).length
  read : ∀ r : Bytes, r.length = s'.length → str ((pre ++ m ++ (r ++ 0 :: post)).drop place) = t

theorem head?_replicate_append {t : Bytes} (hne : t ≠ []) (j : Nat) (a b : Bytes) :
    (List.replicate j delim ++ (t ++ a)).head? = (List.replicate j delim ++ (t ++ b)).head? := by
  obtain ⟨c, t, rfl⟩ := List.exists_cons_of_ne_nil hne
  cases j with
  | zero => rfl
  | succ j => rfl

/-- **One call takes one field**, if there is one. -/
theorem strtok_spec (hd : delim ≠ 0) {s : Bytes} (h0 : 0 ∉ s) (pre post : Bytes) :
    fields delim s = [] ∧ strtok delim (pre ++ (s ++ 0 :: post)) pre.length = none ∨
    ∃ t s' m place, Cuts delim pre s post t s' m place := by
  rcases fields_cases delim s with ⟨j, rfl, hf⟩ | ⟨j, t, hne, ht, rfl, hf⟩ |
    ⟨j, t, s', hne, ht, rfl, hf⟩
  · exact Or.inl ⟨hf, strtok_none hd pre j post⟩
  · -- the last field: behind it stands the NUL of the string
    have ht0 : 0 ∉ t := fun h => h0 (List.mem_append_right _ h)
    have hlen := List.length_pos_iff.mpr hne
    refine Or.inr ⟨t, [], List.replicate j delim ++ t, pre.length + j, hf, List.not_mem_nil, ?_, rfl,
      rfl, List.append_ne_nil_of_right_ne_nil _ hne, Nat.le_add_right _ _, ?_, fun r hr => ?_⟩
    · have hone := strtok_some hd hne ht ht0 (Or.inl rfl) pre j post
      rw [if_pos rfl] at hone
      rw [List.append_assoc, hone, List.nil_append, List.append_assoc, List.append_assoc,
        List.length_append, List.length_append, List.length_replicate, Nat.add_assoc]
    · rw [List.length_append, List.length_append, List.length_replicate]
      omega
    · rw [List.length_eq_zero_iff.mp hr, List.nil_append, List.append_assoc pre]
      exact str_drop_field ht0 pre j post
  · have ht0 : 0 ∉ t := fun h => h0 (List.mem_append_right _ (List.mem_append_left _ h))
    have hs0 : 0 ∉ s' := fun h =>
      h0 (List.mem_append_right _ (List.mem_append_right _ (List.mem_cons_of_mem _ h)))
    refine Or.inr ⟨t, s', List.replicate j delim ++ (t ++ [0]), pre.length + j, hf, hs0, ?_, ?_,
      ?_, ?_, Nat.le_add_right _ _, ?_, fun r _ => ?_⟩
    · have hone := strtok_some hd hne ht ht0 (Or.inr rfl) pre j (s' ++ 0 :: post)
      have hpos : pre.length + j + t.length + 1
          = (pre ++ (List.replicate j delim ++ (t ++ [0]))).length := by
        simp only [List.length_append, List.length_replicate, List.length_singleton]
        omega
      rw [if_neg hd, hpos] at hone
      simp only [List.append_assoc, List.cons_append, List.nil_append] at hone ⊢
      exact hone
    · simp only [List.length_append, List.length_replicate, List.length_cons, List.length_nil]
      omega
    · exact head?_replicate_append hne j [0] (delim :: s')
    · exact List.append_ne_nil_of_right_ne_nil _ (List.append_ne_nil_of_left_ne_nil hne _)
    · simp only [List.length_append, List.length_replicate, List.length_singleton]
      omega
    · have hread := @str_drop_field delim t ht0 pre j (r ++ 0 :: post)
      simp only [List.append_assoc, List.cons_append, List.nil_append] at hread ⊢
      exact hread

/-! ### The loop -/

/-- With a place for each field, the loop stores the fields' places in order, writes
behind the first byte of the string only, and leaves what stands around the string. -/
theorem tokens_spec (hd : delim ≠ 0) : ∀ (dest : List (Option Nat)) {pre s post : Bytes}, 0 ∉ s →
    (fields delim s).length ≤ dest.length →
    ∃ m places, tokens delim dest (pre ++ (s ++ 0 :: post)) pre.length
        = some (pre ++ (m ++ 0 :: post), places.map some ++ dest.drop places.length) ∧
      m.length = s.length ∧ m.head? = s.head? ∧ (∀ p ∈ places, pre.length ≤ p) ∧
      (∀ p ∈ places.tail, pre.length < p) ∧
      List.Forall₂ (fun p f => str ((pre ++ (m ++ 0 :: post)).drop p) = f) places
        (fields delim s) := by
  intro dest
  induction dest with
  | nil =>
    intro pre s post h0 hle
    rcases strtok_spec hd h0 pre post with ⟨hf, hone⟩ | ⟨t, s', m, place, hcut⟩
    · refine ⟨s, [], by rw [tokens, hone]; rfl, rfl, rfl, by simp, by simp, ?_⟩
      rw [hf]
      exact .nil
    · rw [hcut.fields] at hle
      cases hle
  | cons old dest ih =>
    intro pre s post h0 hle
    rcases strtok_spec hd h0 pre post with ⟨hf, hone⟩ | ⟨t, s', m, place, hcut⟩
    · refine ⟨s, [], by rw [tokens, hone]; rfl, rfl, rfl, by simp, by simp, ?_⟩
      rw [hf]
      exact .nil
    · rw [hcut.fields, List.length_cons, List.length_cons] at hle
      obtain ⟨m', places, htok, hlen, -, hge, -, hfor⟩ := @ih (pre ++ m) s' post hcut.zero (by omega)
      have hbuf : pre ++ m ++ (m' ++ 0 :: post) = pre ++ ((m ++ m') ++ 0 :: post) := by simp
      have hread := hcut.read m' hlen
      have hlt : ∀ p ∈ places, pre.length < p := fun p hp =>
        hcut.le.trans_lt (hcut.lt.trans_le (hge p hp))
      rw [hbuf] at htok hfor hread
      refine ⟨m ++ m', place :: places, ?_, ?_, ?_, ?_, hlt, ?_⟩
      · rw [tokens, hcut.call]
        dsimp only
        rw [htok]
        rfl
      · rw [List.length_append, hlen, hcut.length]
      · rw [List.head?_append_of_ne_nil _ hcut.ne_nil, hcut.head?]
      · exact List.forall_mem_cons.mpr ⟨hcut.le, fun p hp => Nat.le_of_lt (hlt p hp)⟩
      · rw [hcut.fields]
        exact .cons hread hfor

/-- With more fields than places it writes behind the array. -/
theorem tokens_eq_none (hd : delim ≠ 0) : ∀ (dest : List (Option Nat)) {pre s post : Bytes},
    0 ∉ s → dest.length < (fields delim s).length →
    tokens delim dest (pre ++ (s ++ 0 :: post)) pre.length = none := by
  intro dest
  induction dest with
  | nil =>
    intro pre s post h0 hlt
    rcases strtok_spec hd h0 pre post with ⟨hf, -⟩ | ⟨t, s', m, place, hcut⟩
    · rw [hf] at hlt
      cases hlt
    · rw [tokens, hcut.call]
  | cons old dest ih =>
    intro pre s post h0 hlt
    rcases strtok_spec hd h0 pre post with ⟨hf, -⟩ | ⟨t, s', m, place, hcut⟩
    · rw [hf] at hlt
      cases hlt
    · rw [hcut.fields, List.length_cons, List.length_cons] at hlt
      rw [tokens, hcut.call]
      dsimp only
      rw [ih hcut.zero (by omega)]
      rfl

end

end Boxing.C
