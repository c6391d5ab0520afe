import Boxing.C.Lines
import Boxing.Intools.Dialogue

/-!
# What was typed at the prompts

One answer is one line, for whoever sits at the terminal: the `k`-th prompted field
becomes the `k`-th line, or stays as it is without one (`typed`).  The program reads
with `fgets` into the one `tmpbuf` of 128 bytes, does not look at what it returns,
and drops the last character.  A long line is so parted over two prompts, a line
without its newline loses a character, and behind the end of the text every prompt
finds the last answer again, a character shorter each time.

`Proper` are the texts on which none of this shows, and `dialogue_right_iff` says that
on these, and no others, the fields and the last question get what was typed for them.
-/

namespace Boxing.Intools

open C Device Uboot

/-! ### What the operator means -/

/-- The `k`-th line, or the old value when that is empty or not there. -/
def typed (ls : List Bytes) (k : Nat) (old : Bytes) : Bytes :=
  match ls[k]? with
  | none => old
  | some l => if l = [] then old else l

/-- The dialogue does what was typed: the `k`-th prompted field becomes the `k`-th
line, and the block changes only when the line for the last question begins with `y`. -/
structure Right (v : Variant) (mac : Option (Vector UInt8 6)) (t t' : Talk (Bytes × Nat)) : Prop where
  fields : ∀ k (hk : k < (prompted v t.buf).length), t'.buf (prompted v t.buf)[k]
    = typed (lines t.stdin) k (current v mac t.buf (prompted v t.buf)[k])
  saved : ∀ abi env r env', Run allOk (save abi v t') env (some r) env' → env' ≠ env →
    ∃ l, (lines t.stdin)[(prompted v t.buf).length]? = some l ∧ Yes l

/-! ### The texts that work -/

/-- One `fgets` takes the line with its newline, and `strcpy` all of it. -/
def Whole (l : Bytes) : Prop := l.length < 127 ∧ 0 ∉ l

/-- The text ends with the line `l`, and the fields with the values `old` are still to be
asked for: the line is empty, or they happen to have the values that the prompts put
there, and the last question does not take what is left for a yes. -/
def Harmless (l : Bytes) (old : List Bytes) : Prop :=
  l = [] ∨ old.length ≤ l.length ∧
    (∀ i (h : i < old.length), old[i] = l.take (l.length - (i + 1))) ∧ (old.length < l.length → ¬ Yes l)

/-- The lines for the fields with the values `old` are taken whole, and when there are
not more of them the last is closed and harmless. -/
def Proper (stdin : Bytes) (old : List Bytes) : Prop :=
  (∀ l ∈ (lines stdin).take old.length, Whole l) ∧
    ((lines stdin).length ≤ old.length →
      Closed stdin ∧
        ∀ l, (lines stdin).getLast? = some l → Harmless l (old.drop (lines stdin).length))

/-! ### The prompts -/

/-- `old.length` prompts and the last question answered as the lines `ls` say. -/
def Heard (ls old : List Bytes) (tmpbuf : Option Bytes) (stdin : Bytes) : Prop :=
  ∃ r, listen old.length tmpbuf stdin = some r ∧
    (∀ k (hk : k < old.length), (r.1[k]?.join).getD old[k] = typed ls k old[k]) ∧
    ∀ s, (fgets r.2.1 r.2.2).1 = some s → Yes s → ∃ l, ls[old.length]? = some l ∧ Yes l

/-- What an answer leaves in `tmpbuf`. -/
def held (l : Bytes) : Bytes := if l = [] then asc "\n" else l

section Prompts

variable {ls old : List Bytes} {o l s rest x stdin : Bytes} {tmpbuf : Option Bytes}
  {a : Option Bytes × Bytes} {n : Nat}

theorem line_eq (n : Nat) (s : Bytes) : line n s = (gets n s, s.drop (gets n s).length) := by
  induction n generalizing s with
  | zero => rfl
  | succ n ih =>
    cases s with
    | nil => rfl
    | cons c s =>
      rw [line, gets]
      by_cases hc : c = 10
      · rw [if_pos hc, if_pos hc]
        rfl
      · rw [if_neg hc, if_neg hc, ih]
        rfl

theorem fgets_eq (h : stdin ≠ []) :
    fgets tmpbuf stdin = (some (str (gets 127 stdin)), stdin.drop (gets 127 stdin).length) := by
  rw [fgets, if_neg h, line_eq]
  rfl

theorem typed_zero : typed (l :: ls) 0 o = if l = [] then o else l := rfl

theorem typed_nil (k : Nat) : typed [] k o = o := rfl

theorem typed_tail (k : Nat) : typed ls.tail k o = typed ls (k + 1) o := by
  rw [typed, typed, List.getElem?_tail]

/-- One prompt with an answer. -/
theorem heard_cons (ha : (fgets tmpbuf stdin).1.bind reply = some a) :
    Heard ls (o :: old) tmpbuf stdin ↔
      a.1.getD o = typed ls 0 o ∧ Heard ls.tail old (some a.2) (fgets tmpbuf stdin).2 := by
  have hlisten : listen (o :: old).length tmpbuf stdin
      = (listen old.length (some a.2) (fgets tmpbuf stdin).2).map fun r => (a.1 :: r.1, r.2) := by
    rw [List.length_cons, listen, ha, Option.bind_some]
  constructor
  · rintro ⟨r, hr, hfields, hyes⟩
    rw [hlisten] at hr
    obtain ⟨q, hq, rfl⟩ := Option.map_eq_some_iff.mp hr
    refine ⟨hfields 0 (Nat.zero_lt_succ _), q, hq, fun k hk => ?_, fun s hs hy => ?_⟩
    · rw [typed_tail]
      exact hfields (k + 1) (Nat.succ_lt_succ hk)
    · rw [List.getElem?_tail]
      exact hyes s hs hy
  · rintro ⟨hzero, q, hq, hfields, hyes⟩
    refine ⟨(a.1 :: q.1, q.2), by rw [hlisten, hq]; rfl, fun k hk => ?_, fun s hs hy => ?_⟩
    · cases k with
      | zero => exact hzero
      | succ k =>
        rw [← typed_tail]
        exact hfields k (Nat.lt_of_succ_lt_succ hk)
    · obtain ⟨l, hl, hly⟩ := hyes s hs hy
      rw [List.getElem?_tail] at hl
      exact ⟨l, hl, hly⟩

theorem not_heard (ha : (fgets tmpbuf stdin).1.bind reply = none) :
    ¬ Heard ls (o :: old) tmpbuf stdin := by
  rintro ⟨r, hr, -⟩
  rw [List.length_cons, listen, ha] at hr
  cases hr

theorem ne_newline (h : 10 ∉ s) : s ≠ asc "\n" := by
  rintro rfl
  exact h (by decide)

/-- What a prompt makes of a string that is not a lone newline. -/
theorem reply_of_not_mem (h : 10 ∉ s) (hne : s ≠ []) : reply s = some (some s.dropLast, s.dropLast) := by
  rw [reply, if_neg (ne_newline h), if_neg hne]

/-- A line taken whole. -/
theorem reply_line (l : Bytes) :
    reply (l ++ [10]) = some (if l = [] then none else some l, held l) := by
  by_cases h : l = []
  · rw [h, held, if_pos rfl, if_pos rfl]
    rfl
  · have hne : l ++ [10] ≠ asc "\n" := by
      intro he
      have hd : asc "\n" = [] ++ [10] := by decide
      rw [hd] at he
      exact h (List.append_cancel_right he)
    rw [reply, if_neg hne, if_neg (by simp), List.dropLast_concat, held, if_neg h, if_neg h]

theorem heard_whole (hl : 10 ∉ l) (hw : Whole l) :
    Heard (lines (l ++ 10 :: rest)) (o :: old) tmpbuf (l ++ 10 :: rest) ↔
      Heard (lines rest) old (some (held l)) rest := by
  have hgets : gets 127 (l ++ 10 :: rest) = l ++ [10] := gets_line hl hw.1 rest
  have hstr : str (l ++ [10]) = l ++ [10] := by
    refine List.takeWhile_eq_self_iff.mpr fun c hc => ?_
    have hc0 : c ≠ 0 := by
      rintro rfl
      rcases List.mem_append.mp hc with h | h
      · exact hw.2 h
      · exact absurd h (by decide)
    simpa using hc0
  have hrest : (l ++ 10 :: rest).drop (l ++ [10]).length = rest := by
    rw [List.append_cons l 10 rest]
    exact List.drop_left
  have hfgets : fgets tmpbuf (l ++ 10 :: rest) = (some (l ++ [10]), rest) := by
    rw [fgets_eq (by simp), hgets, hstr, hrest]
  have hreply : (fgets tmpbuf (l ++ 10 :: rest)).1.bind reply
      = some (if l = [] then none else some l, held l) := by
    rw [hfgets, Option.bind_some, reply_line]
  rw [heard_cons hreply, hfgets, lines_append hl, typed_zero, List.tail_cons]
  refine and_iff_right ?_
  split
  · rfl
  · rfl

/-- A piece of a line is not the line. -/
theorem not_heard_piece (hx : 10 ∉ x) (hne : x ≠ []) (hpre : s <+: x)
    (hs : (fgets tmpbuf stdin).1 = some s) : ¬ Heard (x :: ls) (o :: old) tmpbuf stdin := by
  have hs10 : 10 ∉ s := fun h => hx (hpre.subset h)
  by_cases hempty : s = []
  · apply not_heard
    rw [hs, Option.bind_some, hempty]
    rfl
  · rw [heard_cons (by rw [hs, Option.bind_some, reply_of_not_mem hs10 hempty])]
    rintro ⟨h, -⟩
    rw [typed_zero, if_neg hne] at h
    have hlen : s.dropLast.length = x.length := congrArg List.length h
    have hpos := List.length_pos_iff.mpr hempty
    have hle := hpre.length_le
    rw [List.length_dropLast] at hlen
    omega

/-- A line that is too long or has a NUL in it. -/
theorem not_heard_broken (hl : 10 ∉ l) (hw : ¬ Whole l) :
    ¬ Heard (lines (l ++ 10 :: rest)) (o :: old) tmpbuf (l ++ 10 :: rest) := by
  have hpre : str (gets 127 (l ++ 10 :: rest)) <+: l := by
    rw [gets_append hl]
    by_cases hlen : l.length < 127
    · have h0 : 0 ∈ l := by
        by_contra h0
        exact hw ⟨hlen, h0⟩
      rw [List.take_of_length_le (by rw [List.length_append, List.length_singleton]; omega), str]
      obtain ⟨a, b, rfl, ha⟩ := List.eq_append_cons_of_mem h0
      rw [List.append_assoc, List.takeWhile_append_of_pos fun c hc => ?_, List.cons_append,
        List.takeWhile_cons_of_neg (by simp), List.append_nil]
      · exact List.prefix_append _ _
      · have hc0 : c ≠ 0 := by
          rintro rfl
          exact ha hc
        simpa using hc0
    · rw [List.take_append_of_le_length (by omega)]
      exact (List.takeWhile_prefix _).trans (List.take_prefix _ _)
  have hne : l ≠ [] := by
    rintro rfl
    exact hw ⟨by decide, by simp⟩
  rw [lines_append hl]
  exact not_heard_piece hl hne hpre (by rw [fgets_eq (by simp)])

/-- A line without its newline. -/
theorem not_heard_open (hl : 10 ∉ l) (hne : l ≠ []) :
    ¬ Heard (lines l) (o :: old) tmpbuf l := by
  have hpre : str (gets 127 l) <+: l := by
    rw [gets_of_not_mem fun h => hl (List.mem_of_mem_take h)]
    exact (List.takeWhile_prefix _).trans (List.take_prefix _ _)
  rw [lines_open hl hne]
  exact not_heard_piece hl hne hpre (by rw [fgets_eq hne])

theorem fgets_end (s : Bytes) : fgets (some s) [] = (some s, []) := rfl

theorem yes_dropLast (h : 2 ≤ s.length) : Yes s.dropLast ↔ Yes s := by
  cases s with
  | nil => exact absurd h (by decide)
  | cons c s =>
    cases s with
    | nil => exact absurd h (by simp)
    | cons d s => rfl

/-- Behind the end the last question finds the answer that is in `tmpbuf`. -/
theorem heard_end_nil : Heard [] [] (some x) [] ↔ ¬ Yes x := by
  constructor
  · rintro ⟨r, hr, -, hyes⟩ hy
    obtain rfl := Option.some.inj hr
    obtain ⟨l, hl, -⟩ := hyes x rfl hy
    cases hl
  · intro hno
    refine ⟨_, rfl, fun k hk => absurd hk (Nat.not_lt_zero k), fun s hs hy => ?_⟩
    obtain rfl := Option.some.inj hs
    exact absurd hy hno

/-- Behind the end, with the last answer in `tmpbuf`: every prompt takes a character off. -/
theorem heard_end (hx : 10 ∉ x) :
    Heard [] old (some x) [] ↔
      old.length ≤ x.length ∧ (∀ i (h : i < old.length), old[i] = x.take (x.length - (i + 1))) ∧
        (old.length < x.length → ¬ Yes x) := by
  induction old generalizing x with
  | nil =>
    rw [heard_end_nil]
    constructor
    · exact fun h => ⟨Nat.zero_le _, fun i hi => absurd hi (Nat.not_lt_zero i), fun _ => h⟩
    · rintro ⟨-, -, h⟩ hy
      refine h (List.length_pos_iff.mpr ?_) hy
      rintro rfl
      rcases hy with h | h <;> cases h
  | cons o old ih =>
    by_cases hempty : x = []
    · refine iff_of_false (not_heard (by rw [fgets_end, hempty]; rfl)) fun h => ?_
      rw [hempty] at h
      exact absurd h.1 (by simp)
    · have hpos := List.length_pos_iff.mpr hempty
      have hdrop : ∀ k, x.dropLast.take (x.dropLast.length - k) = x.take (x.length - (k + 1)) := by
        intro k
        rw [List.dropLast_eq_take, List.take_take, List.length_take]
        congr 1
        omega
      rw [heard_cons (by rw [fgets_end, Option.bind_some, reply_of_not_mem hx hempty]), fgets_end,
        List.tail_nil, ih fun h => hx (List.dropLast_subset x h), typed_nil]
      have hlen : x.dropLast.length = x.length - 1 := List.length_dropLast
      have hcons : (o :: old).length = old.length + 1 := rfl
      constructor
      · rintro ⟨ho, hle, hold, hyes⟩
        refine ⟨by omega, fun i hi => ?_, fun hlt hy => ?_⟩
        · cases i with
          | zero =>
            rw [List.getElem_cons_zero, ← ho]
            exact List.dropLast_eq_take
          | succ i =>
            rw [List.getElem_cons_succ, hold i (by omega), hdrop]
        · exact hyes (by omega) ((yes_dropLast (by omega)).mpr hy)
      · rintro ⟨hle, hold, hyes⟩
        refine ⟨?_, by omega, fun i hi => ?_, fun hlt hy => ?_⟩
        · have := hold 0 (Nat.zero_lt_succ _)
          rw [List.getElem_cons_zero] at this
          rw [this]
          exact List.dropLast_eq_take
        · have := hold (i + 1) (Nat.succ_lt_succ hi)
          rw [List.getElem_cons_succ] at this
          rw [this, hdrop]
        · exact hyes (by omega) ((yes_dropLast (by omega)).mp hy)

/-- Behind the end, after an empty line: every prompt finds the newline again. -/
theorem heard_end_newline (old : List Bytes) : Heard [] old (some (asc "\n")) [] := by
  induction old with
  | nil => exact heard_end_nil.mpr (by decide)
  | cons o old ih =>
    rw [heard_cons (by rw [fgets_end]; rfl)]
    exact ⟨rfl, ih⟩

theorem heard_end_held (hl : 10 ∉ l) : Heard [] old (some (held l)) [] ↔ Harmless l old := by
  rw [held, Harmless]
  by_cases h : l = []
  · rw [if_pos h]
    exact iff_of_true (heard_end_newline old) (Or.inl h)
  · rw [if_neg h, heard_end hl]
    exact (or_iff_right h).symm

/-- The answer to the last question is its line. -/
theorem heard_nil (h : stdin ≠ []) : Heard (lines stdin) [] tmpbuf stdin := by
  refine ⟨_, rfl, fun k hk => absurd hk (Nat.not_lt_zero k), fun s hs hy => ?_⟩
  obtain ⟨s', hs', hiff⟩ := yes_fgets h tmpbuf
  obtain rfl := Option.some.inj (hs.symm.trans hs')
  have hyes := hiff.mp hy
  obtain ⟨c, rest, rfl⟩ := List.exists_cons_of_ne_nil h
  have hc : c ≠ 10 := by
    rintro rfl
    rcases hyes with h | h <;> exact absurd h (by simp)
  obtain ⟨l, ls, hl⟩ := head_lines hc rest
  exact ⟨c :: l, by rw [hl]; rfl, hyes⟩

/-- What is still to come, after the line `l`. -/
def ProperAfter (l stdin : Bytes) (old : List Bytes) : Prop :=
  (∀ x ∈ (lines stdin).take old.length, Whole x) ∧
    ((lines stdin).length ≤ old.length →
      (stdin = [] ∨ Closed stdin) ∧
        ∀ x, (l :: lines stdin).getLast? = some x → Harmless x (old.drop (lines stdin).length))

theorem properAfter_nil : ProperAfter l [] old ↔ Harmless l old := by
  simp [ProperAfter]

theorem properAfter_cons (hx : 10 ∉ x) :
    ProperAfter l (x ++ 10 :: rest) (o :: old) ↔ Whole x ∧ ProperAfter x rest old := by
  have hclosed : Closed (x ++ 10 :: rest) ↔ rest = [] ∨ Closed rest := by
    rw [closed_append (List.cons_ne_nil _ _)]
    by_cases h : rest = []
    · rw [h]
      exact iff_of_true rfl (Or.inl rfl)
    · rw [closed_cons h]
      exact (or_iff_right h).symm
  have hne : x ++ 10 :: rest ≠ [] := by simp
  rw [ProperAfter, ProperAfter, lines_append hx, List.length_cons, List.length_cons,
    List.take_succ_cons, List.forall_mem_cons, Nat.add_le_add_iff_right, or_iff_right hne, hclosed,
    List.getLast?_cons_cons, List.drop_succ_cons, and_assoc]

/-- **The prompts on the text**, after an answer. -/
theorem heard_iff (hl : 10 ∉ l) :
    Heard (lines stdin) old (some (held l)) stdin ↔ ProperAfter l stdin old := by
  induction old generalizing l stdin with
  | nil =>
    by_cases h : stdin = []
    · rw [h, lines_nil, properAfter_nil]
      exact heard_end_held hl
    · have hlen := List.length_pos_iff.mpr (lines_ne_nil h)
      refine iff_of_true (heard_nil h) ⟨by simp, fun hle => ?_⟩
      rw [List.length_nil] at hle
      omega
  | cons o old ih =>
    by_cases h : stdin = []
    · rw [h, lines_nil, properAfter_nil]
      exact heard_end_held hl
    · rcases text_cases stdin with hopen | ⟨x, rest, rfl, hx⟩
      · refine iff_of_false (not_heard_open hopen h) fun hp => ?_
        rcases (hp.2 (by rw [lines_open hopen h]; simp)).1 with he | hc
        · exact h he
        · exact not_closed hopen hc
      · rw [properAfter_cons hx]
        by_cases hw : Whole x
        · rw [heard_whole hx hw, ih hx, and_iff_right hw]
        · exact iff_of_false (not_heard_broken hx hw) fun hp => hw hp.1

/-- **The prompts on the text**, from the first on, where `tmpbuf` is not set. -/
theorem heard_none_iff (h : old ≠ []) : Heard (lines stdin) old none stdin ↔ Proper stdin old := by
  obtain ⟨o, old, rfl⟩ := List.exists_cons_of_ne_nil h
  by_cases he : stdin = []
  · refine iff_of_false (not_heard (by rw [he]; rfl)) fun hp => ?_
    rw [he] at hp
    have hclosed := (hp.2 (Nat.zero_le _)).1
    cases hclosed
  · have hsame : Heard (lines stdin) (o :: old) none stdin
        ↔ Heard (lines stdin) (o :: old) (some (held [])) stdin := by
      have hlisten : listen (o :: old).length none stdin
          = listen (o :: old).length (some (held [])) stdin := by
        rw [List.length_cons, listen, listen, fgets_eq he, fgets_eq he]
      rw [Heard, Heard, hlisten]
    have hlast : ([] :: lines stdin).getLast? = (lines stdin).getLast? :=
      List.getLast?_cons_of_ne_nil (lines_ne_nil he)
    rw [hsame, heard_iff (by simp), ProperAfter, Proper, hlast, or_iff_right he]

end Prompts

/-! ### The dialogue -/

/-- The values in the brackets of the prompts. -/
def bracketed (v : Variant) (mac : Option (Vector UInt8 6)) (buf : Field → Bytes) : List Bytes :=
  (prompted v buf).map (current v mac buf)

/-- The fields as they were typed. -/
def filled (v : Variant) (mac : Option (Vector UInt8 6)) (buf : Field → Bytes) (ls : List Bytes)
    (f : Field) : Bytes :=
  if f ∈ prompted v buf then typed ls ((prompted v buf).idxOf f) (current v mac buf f)
  else current v mac buf f

section Dialogue

variable {v : Variant} {mac : Option (Vector UInt8 6)} {t : Talk (Bytes × Nat)} {buf : Field → Bytes}
  {ls : List Bytes} {as : List (Option Bytes)}

/-- The answers are the lines. -/
def Agrees (v : Variant) (mac : Option (Vector UInt8 6)) (buf : Field → Bytes) (ls : List Bytes)
    (as : List (Option Bytes)) : Prop :=
  ∀ k (hk : k < (bracketed v mac buf).length),
    (as[k]?.join).getD (bracketed v mac buf)[k] = typed ls k (bracketed v mac buf)[k]

theorem length_bracketed : (bracketed v mac buf).length = (prompted v buf).length := List.length_map _

/-- Field by field. -/
theorem agrees_iff (hlen : as.length = (prompted v buf).length) :
    Agrees v mac buf ls as ↔ ∀ k (hk : k < (prompted v buf).length),
      answered (current v mac buf) (prompted v buf) as (prompted v buf)[k]
        = typed ls k (current v mac buf (prompted v buf)[k]) := by
  have hone : ∀ k (hk : k < (prompted v buf).length),
      answered (current v mac buf) (prompted v buf) as (prompted v buf)[k]
        = (as[k]?.join).getD (current v mac buf (prompted v buf)[k]) := by
    exact fun k hk => answered_getElem (nodup_prompted v buf) hlen hk
  constructor
  · intro h k hk
    have := h k (by rw [length_bracketed]; exact hk)
    simp only [bracketed, List.getElem_map] at this
    rw [hone k hk, this]
  · intro h k hk
    rw [length_bracketed] at hk
    simp only [bracketed, List.getElem_map]
    rw [← hone k hk, h k hk]

/-- And all at once. -/
theorem answered_eq_filled (hlen : as.length = (prompted v buf).length)
    (h : Agrees v mac buf ls as) :
    answered (current v mac buf) (prompted v buf) as = filled v mac buf ls := by
  funext f
  by_cases hf : f ∈ prompted v buf
  · have hk := List.idxOf_lt_length_iff.mpr hf
    have := (agrees_iff hlen).mp h _ hk
    rw [List.getElem_idxOf hk] at this
    rw [this, filled, if_pos hf]
  · rw [answered_of_not_mem hf, filled, if_neg hf]

/-- A block other than the one that is saved. -/
theorem exists_ne (new : EnvBlock) : ∃ env : EnvBlock, new ≠ env := by
  refine ⟨⟨new.crc, 0 :: new.data⟩, fun h => ?_⟩
  have := congrArg (fun env : EnvBlock => env.data.length) h
  simp at this

theorem written_ne_nil (v : Variant) : writtenFields v ≠ [] := by cases v <;> decide

theorem prompted_ne_nil (v : Variant) (buf : Field → Bytes) : prompted v buf ≠ [] := by
  rw [prompted]
  simp [lastFields]

theorem listen_set {n : Nat} {s stdin : Bytes} {r : List (Option Bytes) × Option Bytes × Bytes}
    (hr : listen n (some s) stdin = some r) : ∃ s', r.2.1 = some s' := by
  induction n generalizing s stdin r with
  | zero => exact ⟨s, by rw [← Option.some.inj hr]⟩
  | succ n ih =>
    obtain ⟨a, -, ha⟩ := Option.bind_eq_some_iff.mp hr
    obtain ⟨q, hq, rfl⟩ := Option.map_eq_some_iff.mp ha
    exact show ∃ s', q.2.1 = some s' from ih hq

/-- After a prompt the last question has something to look at. -/
theorem fgets_listen {n : Nat} {tmpbuf : Option Bytes} {stdin : Bytes}
    {r : List (Option Bytes) × Option Bytes × Bytes} (hn : 0 < n)
    (hr : listen n tmpbuf stdin = some r) : ∃ s, (fgets r.2.1 r.2.2).1 = some s := by
  obtain ⟨n, rfl⟩ : ∃ m, n = m + 1 := ⟨n - 1, by omega⟩
  obtain ⟨a, -, ha⟩ := Option.bind_eq_some_iff.mp hr
  obtain ⟨q, hq, rfl⟩ := Option.map_eq_some_iff.mp ha
  obtain ⟨s, hs⟩ := listen_set hq
  rw [hs, fgets]
  split
  · exact ⟨s, rfl⟩
  · exact ⟨_, rfl⟩

/-- **The dialogue does what was typed** on the proper texts and no others, where the
data area has room for the fields. -/
theorem dialogue_right_iff (v : Variant) (mac : Option (Vector UInt8 6)) (out : Bytes × Nat)
    (stdin : Bytes) (buf : Field → Bytes) :
    (∃ t', dialogue putMem v mac ⟨out, stdin, none, buf⟩ = some t' ∧
        Right v mac ⟨out, stdin, none, buf⟩ t') ↔
      Proper stdin (bracketed v mac buf) ∧
        out.2 + size (writtenFields v) (filled v mac buf (lines stdin)) ≤ out.1.length := by
  have hold : bracketed v mac buf ≠ [] := by
    rw [bracketed, Ne, List.map_eq_nil_iff]
    exact prompted_ne_nil v buf
  rw [← heard_none_iff hold, dialogue_eq, turn]
  simp only
  constructor
  · rintro ⟨t', ht', hright⟩
    obtain ⟨r, hr, ht'⟩ := Option.bind_eq_some_iff.mp ht'
    obtain ⟨out', hout, rfl⟩ := Option.map_eq_some_iff.mp ht'
    have hlen := length_listen hr
    have hagrees : Agrees v mac buf (lines stdin) r.1 := (agrees_iff hlen).mpr hright.fields
    refine ⟨⟨r, by rw [length_bracketed]; exact hr, hagrees, fun s hs hy => ?_⟩, ?_⟩
    · rw [length_bracketed]
      obtain ⟨env, hne⟩ := exists_ne ⟨crc_int ⟨true, false⟩ out'.1, out'.1⟩
      exact hright.saved ⟨true, false⟩ env 0 _ ((run_save_iff hs).mpr ⟨rfl, rfl⟩)
        (by rw [if_pos hy]; exact hne)
    · rw [answered_eq_filled hlen hagrees] at hout
      exact (writes_iff.mp ⟨out', hout⟩).resolve_left (written_ne_nil v)
  · rintro ⟨⟨r, hr, hagrees, hyes⟩, hroom⟩
    rw [length_bracketed] at hr hyes
    have hlen := length_listen hr
    have hfilled := answered_eq_filled hlen hagrees
    obtain ⟨out', hout⟩ := writes_iff.mpr (Or.inr hroom)
    refine ⟨_, by rw [hr, Option.bind_some, hfilled, hout]; rfl, ⟨fun k hk => ?_, ?_⟩⟩
    · rw [← hfilled]
      exact (agrees_iff hlen).mp hagrees k hk
    · intro abi env rv env' hrun hne
      obtain ⟨s, hs⟩ := fgets_listen (List.length_pos_iff.mpr (prompted_ne_nil v buf)) hr
      obtain ⟨-, henv⟩ := (run_save_iff hs).mp hrun
      by_cases hy : Yes s
      · exact hyes s hs hy
      · rw [if_neg hy] at henv
        exact absurd henv hne

end Dialogue

/-- Nine empty lines and a product number with a `Y`, and nothing for the last question:
the block is saved. -/
theorem saves_product_number :
    ¬ ∀ (v : Variant) (mac : Option (Vector UInt8 6)) (out : Bytes × Nat) (stdin : Bytes)
      (buf : Field → Bytes) (t' : Talk (Bytes × Nat)),
      dialogue putMem v mac ⟨out, stdin, none, buf⟩ = some t' →
        Right v mac ⟨out, stdin, none, buf⟩ t' := by
  intro h
  have hlisten : listen 10 none (List.replicate 9 10 ++ asc "Y1\n")
      = some (List.replicate 9 none ++ [some (asc "Y1")], some (asc "Y1"), []) := by decide
  have hlen : (prompted .other (initial .other)).length = 10 := rfl
  obtain ⟨out, hout⟩ : ∃ out, writes putMem (writtenFields .other)
      (answered (initial .other) (prompted .other (initial .other))
        (List.replicate 9 none ++ [some (asc "Y1")])) (List.replicate 1000 0, 0) = some out :=
    writes_iff.mpr (Or.inr (by
      rw [List.length_replicate]
      decide +kernel))
  have hdialogue : dialogue putMem .other none ⟨(List.replicate 1000 0, 0),
      List.replicate 9 10 ++ asc "Y1\n", none, initial .other⟩
      = some ⟨out, [], some (asc "Y1"), answered (initial .other) (prompted .other (initial .other))
          (List.replicate 9 none ++ [some (asc "Y1")])⟩ := by
    rw [dialogue_eq, turn]
    simp only
    rw [hlen, hlisten, Option.bind_some]
    exact congrArg (Option.map _) hout
  obtain ⟨env, hne⟩ := exists_ne ⟨crc_int ⟨true, false⟩ out.1, out.1⟩
  have hyes : Yes (asc "Y1") := Or.inr rfl
  obtain ⟨l, hl, -⟩ := (h _ _ _ _ _ _ hdialogue).saved ⟨true, false⟩ env 0 _
    ((run_save_iff (s := asc "Y1") rfl).mpr ⟨rfl, rfl⟩) (by rw [if_pos hyes]; exact hne)
  have hnone : (lines (List.replicate 9 10 ++ asc "Y1\n"))[10]? = none := by decide
  rw [hlen, hnone] at hl
  cases hl

end Boxing.Intools
