import Boxing.C.StrList
import Boxing.Iburn.Upgrade

/-!
# The version in the boot environment

After the boot loader `upgrade_main_board` looks for the version in the environment
that comes with it.  `iburn.c` has all of it in one buffer of 64 KiB; here the size of
the buffer is a parameter (`find_version_eq`), so that the scan can be compared with
the one of `iburn_ig9.c`, which has smaller ones.

The scan compares seven characters, and takes what stands behind the eighth.  On a
closed list that is the value of the first entry that begins with `version`, and the
scan stays inside the list: `run_set_version_in`.
-/

namespace Boxing.Iburn

open C Device

/-! ### Entries that begin with the name -/

/-- `strncmp(pbuf,"version",strlen("version")) == 0`. -/
def Begun (e : Bytes) : Prop := asc "version" <+: e

instance (e : Bytes) : Decidable (Begun e) := inferInstanceAs (Decidable (_ <+: _))

/-- The string at `pbuf+strlen("version")+1`, with the entries `rest` behind `e`: when `e`
is no longer than the name, the next one. -/
def given (e : Bytes) (rest : List Bytes) : Bytes := if e.length = 7 then rest.headD [] else e.drop 8

/-- What the entries that begin with the name give, in order. -/
def hits : List Bytes → List Bytes
  | [] => []
  | e :: es => if Begun e then given e es :: hits es else hits es

/-- The value of the first entry named exactly `version`. -/
def version (es : List Bytes) : Option Bytes :=
  (es.find? fun e => asc "version=" <+: e).map (·.drop 8)

section Entries

variable {e m t : Bytes} {es before rest : List Bytes}

theorem strncmpEq_begun : strncmpEq e (asc "version") 7 = true ↔ Begun e :=
  strncmpEq_iff (a := e) (b := asc "version") (by decide)

theorem hits_cons_of_begun (h : Begun e) : hits (e :: es) = given e es :: hits es := if_pos h

theorem hits_cons_of_not (h : ¬ Begun e) : hits (e :: es) = hits es := if_neg h

theorem hits_eq_nil_iff : hits es = [] ↔ ∀ e ∈ es, ¬ Begun e := by
  induction es with
  | nil => simp [hits]
  | cons e es ih =>
    rw [List.forall_mem_cons]
    by_cases h : Begun e
    · rw [hits_cons_of_begun h]
      simp [h]
    · rw [hits_cons_of_not h, ih]
      simp [h]

theorem hits_append (h : ∀ e ∈ before, ¬ Begun e) : hits (before ++ rest) = hits rest := by
  induction before with
  | nil => rfl
  | cons e before ih =>
    rw [List.cons_append, hits_cons_of_not (h e (by simp)), ih fun x hx => h x (by simp [hx])]

/-- The first entry that begins with the name, if there is one. -/
theorem exists_begun (es : List Bytes) :
    (∀ e ∈ es, ¬ Begun e) ∨
      ∃ before e rest, es = before ++ e :: rest ∧ (∀ x ∈ before, ¬ Begun x) ∧ Begun e := by
  induction es with
  | nil => exact Or.inl fun e he => absurd he List.not_mem_nil
  | cons e es ih =>
    by_cases h : Begun e
    · exact Or.inr ⟨[], e, es, rfl, fun x hx => absurd hx List.not_mem_nil, h⟩
    · rcases ih with hno | ⟨before, f, rest, rfl, hbefore, hf⟩
      · exact Or.inl (List.forall_mem_cons.mpr ⟨h, hno⟩)
      · exact Or.inr ⟨e :: before, f, rest, rfl, List.forall_mem_cons.mpr ⟨h, hbefore⟩, hf⟩

theorem length_of_begun (h : Begun e) : 7 ≤ e.length := h.length_le

/-- Behind the name stands the string that is given, with its NUL. -/
theorem drop_begun (h : Begun e) (hes : Entries (e :: es)) (t : Bytes) :
    ∃ m, (e ++ 0 :: (pack es ++ 0 :: t)).drop 8 = given e es ++ 0 :: m ∧ 0 ∉ given e es := by
  have hlen := length_of_begun h
  by_cases h7 : e.length = 7
  · have hdrop : (e ++ 0 :: (pack es ++ 0 :: t)).drop 8 = pack es ++ 0 :: t := by
      rw [List.append_cons]
      exact List.drop_left' (by rw [List.length_append, List.length_singleton, h7])
    rw [hdrop, given, if_pos h7]
    cases es with
    | nil => exact ⟨t, rfl, List.not_mem_nil⟩
    | cons f es => exact ⟨pack es ++ 0 :: t, by simp, (hes f (by simp)).2⟩
  · refine ⟨pack es ++ 0 :: t, ?_, ?_⟩
    · rw [given, if_neg h7, List.drop_append_of_le_length (by omega)]
    · rw [given, if_neg h7]
      exact fun h0 => (hes e (by simp)).2 (List.mem_of_mem_drop h0)

end Entries

/-! ### The scan -/

/-- `find_version` with a buffer of `size` bytes. -/
def find_version_in (size : Nat) (mem : Bytes) (pbuf : Nat) : Option Nat :=
  match _h : mem.drop pbuf with
  | [] => none
  | c :: m =>
    if c = 0 ∨ size ≤ pbuf then some pbuf
    else
      match strlen (c :: m) with
      | none => none
      | some k =>
        if strncmpEq ((c :: m).take k) (asc "version") 7 then some pbuf
        else find_version_in size mem (pbuf + k + 1)
termination_by mem.length - pbuf
decreasing_by
  have hlen := congrArg List.length _h
  rw [List.length_drop, List.length_cons] at hlen
  omega

/-- `set_version` with a buffer of `size` bytes. -/
def set_version_in (size : Nat) (mem : Bytes) : Prog MbRet Bool :=
  match find_version_in size mem 4 with
  | none => pure false
  | some pbuf =>
    if mem.getD pbuf 0 ≠ 0 ∧ pbuf < size then
      match strlen (mem.drop (pbuf + 8)) with
      | none => pure false
      | some _ => do
        let _ : Int ← askMb (.bootenv_set (asc "version") (str (mem.drop (pbuf + 8))))
        pure true
    else pure true

theorem find_version_in_nil {size pbuf : Nat} {mem : Bytes} (h : mem.drop pbuf = []) :
    find_version_in size mem pbuf = none := by
  rw [find_version_in]
  split
  · rfl
  · rename_i hcons
    rw [h] at hcons
    cases hcons

theorem find_version_in_cons {size pbuf : Nat} {mem m : Bytes} {c : UInt8}
    (h : mem.drop pbuf = c :: m) :
    find_version_in size mem pbuf
      = if c = 0 ∨ size ≤ pbuf then some pbuf
        else
          match strlen (c :: m) with
          | none => none
          | some k =>
            if strncmpEq ((c :: m).take k) (asc "version") 7 then some pbuf
            else find_version_in size mem (pbuf + k + 1) := by
  rw [find_version_in]
  split
  · rename_i hnil
    rw [h] at hnil
    cases hnil
  · rename_i hcons
    obtain ⟨rfl, rfl⟩ := List.cons.inj (h.symm.trans hcons)
    rfl

/-- The code scans a buffer of 64 KiB. -/
theorem find_version_eq (mem : Bytes) (pbuf : Nat) :
    find_version mem pbuf = find_version_in bufSize mem pbuf := by
  induction hn : mem.length - pbuf using Nat.strongRecOn generalizing pbuf with
  | ind n ih =>
    rw [find_version]
    split
    · rename_i hnil
      rw [find_version_in_nil hnil]
    · rename_i c m hdrop
      have hlen := congrArg List.length hdrop
      rw [List.length_drop, List.length_cons] at hlen
      rw [find_version_in_cons hdrop]
      by_cases hstop : c = 0 ∨ bufSize ≤ pbuf
      · rw [if_pos hstop, if_pos hstop]
      · rw [if_neg hstop, if_neg hstop]
        cases strlen (c :: m) with
        | none => rfl
        | some k =>
          simp only
          rw [ih _ (show mem.length - (pbuf + k + 1) < n by omega) _ rfl]

theorem set_version_eq (mem : Bytes) : set_version mem = set_version_in bufSize mem := by
  rw [set_version, find_version_eq]
  rfl

section Scan

variable {size pbuf : Nat} {mem e m t : Bytes} {es : List Bytes}

theorem lt_of_drop {c : UInt8} (h : mem.drop pbuf = c :: m) : pbuf < mem.length := by
  by_contra hge
  rw [List.drop_of_length_le (Nat.le_of_not_lt hge)] at h
  cases h

theorem find_version_zero (h : mem.drop pbuf = 0 :: t) :
    find_version_in size mem pbuf = some pbuf := by
  rw [find_version_in_cons h, if_pos (Or.inl rfl)]

theorem find_version_entry (h : mem.drop pbuf = e ++ 0 :: m) (hne : e ≠ []) (h0 : 0 ∉ e)
    (hsize : pbuf < size) :
    find_version_in size mem pbuf
      = if Begun e then some pbuf else find_version_in size mem (pbuf + e.length + 1) := by
  obtain ⟨c, s, rfl⟩ := List.exists_cons_of_ne_nil hne
  have hc : c ≠ 0 := fun hc => h0 (by simp [hc])
  have hlen : strlen (c :: (s ++ 0 :: m)) = some (c :: s).length := strlen_append_zero (c :: s) m h0
  have htake : (c :: (s ++ 0 :: m)).take (c :: s).length = c :: s := List.take_left
  rw [List.cons_append] at h
  rw [find_version_in_cons h, if_neg (not_or.mpr ⟨hc, Nat.not_le.mpr hsize⟩), hlen]
  simp only [htake, strncmpEq_begun]

/-- What lies behind an entry. -/
theorem drop_entry (h : mem.drop pbuf = e ++ 0 :: m) : mem.drop (pbuf + e.length + 1) = m := by
  rw [Nat.add_assoc, ← List.drop_drop, h, List.append_cons]
  exact List.drop_left' (by rw [List.length_append, List.length_singleton])

/-- On a closed list the scan stops at the first entry that begins with the name, or at
the end. -/
theorem find_version_pack {before : List Bytes} (h : mem.drop pbuf = pack before ++ m)
    (hes : Entries before) (hno : ∀ x ∈ before, ¬ Begun x) (hsize : mem.length ≤ size) :
    find_version_in size mem pbuf = find_version_in size mem (pbuf + (pack before).length) := by
  induction before generalizing pbuf with
  | nil => rfl
  | cons e before ih =>
    obtain ⟨hne, h0⟩ := hes e (by simp)
    rw [pack_cons, List.append_assoc, List.cons_append] at h
    obtain ⟨c, s, hcs⟩ := List.exists_cons_of_ne_nil hne
    have hlt : pbuf < mem.length := by
      rw [hcs] at h
      exact lt_of_drop h
    rw [find_version_entry h hne h0 (hlt.trans_le hsize), if_neg (hno e (by simp)),
      ih (drop_entry h) hes.tail fun x hx => hno x (by simp [hx])]
    congr 1
    rw [pack_cons, List.length_append, List.length_cons]
    omega

/-- Where the scan of a closed list stops. -/
theorem drop_pack_left {before : List Bytes} (h : mem.drop pbuf = pack before ++ m) :
    mem.drop (pbuf + (pack before).length) = m := by
  rw [← List.drop_drop, h, List.drop_left]

end Scan

/-! ### Runs -/

/-- What `bootenv_set` is given for the version is noted. -/
def noted : Sem MbRet (List Bytes) where
  step := fun w c _ w' =>
    match c with
    | .bootenv_set name value => w' = if name = asc "version" then w ++ [value] else w
    | _ => w' = w
  cut := fun _ _ _ => False

/-- **The scan in one piece** of a block with a closed list gives the first entry that
begins with the name, and stays inside the block. -/
theorem run_set_version_in {crc : Bytes} (tail : Bytes) {es : List Bytes} (hcrc : crc.length = 4)
    (hes : Entries es) (w : List Bytes) (ok : Bool) (w' : List Bytes) :
    Run noted (set_version_in (crc ++ (pack es ++ 0 :: tail)).length (crc ++ (pack es ++ 0 :: tail)))
        w (some ok) w' ↔ ok = true ∧ w' = w ++ (hits es).head?.toList := by
  have hdrop : (crc ++ (pack es ++ 0 :: tail)).drop 4 = pack es ++ 0 :: tail :=
    List.drop_left' hcrc
  generalize hmem : crc ++ (pack es ++ 0 :: tail) = mem at hdrop
  rcases exists_begun es with hno | ⟨before, e, rest, rfl, hno, he⟩
  · have hpos := drop_pack_left hdrop
    have hfind : find_version_in mem.length mem 4 = some (4 + (pack es).length) := by
      rw [find_version_pack hdrop hes hno le_rfl, find_version_zero hpos]
    have hzero : mem.getD (4 + (pack es).length) 0 = 0 := by
      rw [List.getD_eq_getElem?_getD, ← Nat.add_zero (4 + (pack es).length), ← List.getElem?_drop, hpos]
      rfl
    rw [set_version_in, hfind, hits_eq_nil_iff.mpr hno]
    simp only [hzero]
    rw [if_neg (fun h => h.1 rfl), Prog.pure_eq, Run.some_pure, List.head?_nil, Option.toList_none, List.append_nil]
  · rw [pack_append, pack_cons, List.append_assoc, List.append_assoc, List.cons_append] at hdrop
    have hbefore : Entries before := fun x hx => hes x (by simp [hx])
    have hrest : Entries (e :: rest) := fun x hx => hes x (List.mem_append_right _ hx)
    obtain ⟨hne, h0⟩ := hrest e (by simp)
    have hpos := drop_pack_left hdrop
    obtain ⟨m, hm, hm0⟩ := drop_begun he hrest tail
    have hlt : 4 + (pack before).length < mem.length := by
      obtain ⟨c, s, rfl⟩ := List.exists_cons_of_ne_nil hne
      exact lt_of_drop hpos
    have hfind : find_version_in mem.length mem 4 = some (4 + (pack before).length) := by
      rw [find_version_pack hdrop hbefore hno le_rfl, find_version_entry hpos hne h0 hlt, if_pos he]
    have hvalue : mem.drop (4 + (pack before).length + 8) = given e rest ++ 0 :: m := by
      rw [← List.drop_drop, hpos, hm]
    have hget : mem.getD (4 + (pack before).length) 0 ≠ 0 := by
      obtain ⟨c, s, rfl⟩ := List.exists_cons_of_ne_nil hne
      rw [List.getD_eq_getElem?_getD, ← Nat.add_zero (4 + (pack before).length), ← List.getElem?_drop,
        hpos]
      exact fun h => h0 (by simp at h; simp [h])
    rw [set_version_in, hfind]
    simp only
    rw [if_pos ⟨hget, hlt⟩, hvalue, strlen_append_zero _ _ hm0, str_append_zero _ _ hm0,
      hits_append hno, hits_cons_of_begun he]
    simp only [Prog.ask_bind, Prog.pure_eq, Run.some_call, Run.some_pure]
    constructor
    · rintro ⟨r, w₁, hw, rfl, rfl⟩
      exact ⟨rfl, hw⟩
    · rintro ⟨rfl, rfl⟩
      exact ⟨0, _, rfl, rfl, rfl⟩

end Boxing.Iburn
