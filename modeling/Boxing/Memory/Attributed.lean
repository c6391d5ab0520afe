import Boxing.Memory.Check

/-!
# Whose line it is

An entry that finds no line of its own finds in the buffer what an earlier entry of the
same scan has left there, and takes it: its first field is still a pid, and `revbuf[2]`
still points at a size.  `scan_iff` says that this is the only way in which a scan can
go wrong, but for a line of more fields than `revbuf` has room for: a scan attributes
every line to the entry it belongs to exactly when no entry without a line comes behind
one with a line, as far as the scan gets.

The scans of a run share nothing but the watch list, so a run attributes its lines
exactly when each of its scans does: `attributed_iff`.
-/

namespace Boxing.Memory

open C

/-! ### What a line says -/

/-- A size in the `VSZ` column, in kilobytes. -/
def kilobytes (text : Bytes) : Int :=
  if chM ∈ text then int32 (atoi (text.takeWhile (· ≠ chM)) * 1024) else atoi text

/-- The first column. -/
def Line.pid (l : Line) : Int := atoi ((fields blank l.text).getD 0 [])

/-- The third one. -/
def Line.size (l : Line) : Int := kilobytes ((fields blank l.text).getD 2 [])

/-- What `fgets` takes of a line. -/
def Line.read (l : Line) : Bytes := (l.text ++ [10]).take (bufSize - 1)

def Action.pid : Action → Int
  | initialised pid _ => pid
  | compared pid _ _ => pid

def Action.size : Action → Int
  | initialised _ size => size
  | compared _ size _ => size

variable (grep : Bytes → Bytes → Bool)

/-- An entry without a line is left alone, and an entry is given, or compared with, what
a line of its own says. -/
structure Attributed (r : Record) : Prop where
  kept : matching grep r.before.name r.table = [] → r.after.flag = r.before.flag ∧
    r.after.pid = r.before.pid ∧ r.after.size = r.before.size
  own : ∀ a, r.action = some a →
    ∃ l ∈ matching grep r.before.name r.table, a.pid = l.pid ∧ a.size = l.size

/-- The scan ends here: the entry has grown and the log cannot be written. -/
def Stops (e : Memory_Check) (l : Line) (log_file : Bool) : Prop :=
  e.flag ≠ -1 ∧ e.pid = l.pid ∧ e.size < l.size ∧ log_file = false

/-- No entry without a line comes behind one with a line, as far as the scan gets, and
`revbuf` has room for the fields of every line that is read.  `seen` says whether there
has been a line. -/
def Ordered : Bool → List Memory_Check → (Nat → Look) → Prop
  | _, [], _ => True
  | seen, e :: es, looks =>
    match (looks 0).ps with
    | none => True
    | some table =>
      match matching grep e.name table with
      | [] => seen = false ∧ Ordered seen es fun n => looks (n + 1)
      | l :: _ => (fields blank l.read).length ≤ recvNum ∧
          (Stops e l (looks 0).log_file ∨ Ordered true es fun n => looks (n + 1))

/-- Every scan of a run is like that, in the state in which it begins. -/
def AllOrdered : List Memory_Check → List (Nat → Look) → Prop
  | _, [] => True
  | es, looks :: scans => Ordered grep false es looks ∧
      ∀ es' rs, Check_Fork_Memroy grep es looks = some (0, es', rs) → AllOrdered es' scans

/-! ### Reading a line -/

namespace Line

variable (l : Line)

theorem zero_not_mem_read : 0 ∉ l.read := by
  intro h
  rcases List.mem_append.mp (List.mem_of_mem_take h) with h | h
  · exact (l.clean 0 h).1 rfl
  · exact absurd (List.mem_singleton.mp h) (by decide)

theorem read_ne_nil : l.read ≠ [] := by
  intro h
  have := congrArg List.length h
  rw [read, List.length_take, List.length_append, List.length_singleton] at this
  simp only [bufSize, List.length_nil] at this
  omega

/-- The columns that count are read as they stand. -/
theorem fields_read {k : Nat} (hk : k < 3) :
    (fields blank l.read)[k]? = some ((fields blank l.text).getD k []) := by
  have hcol := l.columns
  have hsome : ∀ {s : Bytes}, k < (fields blank s).length →
      (fields blank s)[k]? = some ((fields blank s).getD k []) := fun h => by
    rw [List.getD_eq_getElem _ _ h]
    exact List.getElem?_eq_getElem h
  rcases Nat.lt_or_ge l.text.length (bufSize - 1) with hlt | hge
  · -- the whole line
    rw [List.take_of_length_le (by omega)] at hcol
    have hread : l.read = l.text ++ [10] := by
      rw [read, List.take_of_length_le]
      rw [List.length_append, List.length_singleton]
      omega
    rw [hread, fields_getElem?_of_prefix (List.prefix_append _ _) (by omega)]
    exact hsome (by omega)
  · -- as much of it as there is room for
    have hread : l.read = l.text.take (bufSize - 1) := by
      rw [read, List.take_append_of_le_length hge]
    have hsame : (fields blank l.text)[k]? = (fields blank (l.text.take (bufSize - 1)))[k]? :=
      fields_getElem?_of_prefix (List.take_prefix (bufSize - 1) l.text) (by omega)
    have hlt : k < (fields blank l.text).length :=
      (List.getElem?_eq_some_iff.mp (hsame.trans (List.getElem?_eq_getElem (by omega)))).1
    rw [hread, ← hsame]
    exact hsome hlt

end Line

/-! ### The buffer -/

/-- A NUL written into a string cuts it. -/
theorem str_set : ∀ {m : Bytes} {i : Nat}, i < m.length → str (m.set i 0) = (str m).take i := by
  intro m
  induction m with
  | nil => intro i h; cases h
  | cons c m ih =>
    intro i h
    cases i with
    | zero => rw [List.set_cons_zero, str, List.takeWhile_cons_of_neg (by simp), List.take_zero]
    | succ i =>
      rw [List.set_cons_succ, str, str]
      by_cases hc : c = 0
      · rw [List.takeWhile_cons_of_neg (by simpa using hc),
          List.takeWhile_cons_of_neg (by simpa using hc), List.take_nil]
      · rw [List.takeWhile_cons_of_pos (by simpa using hc),
          List.takeWhile_cons_of_pos (by simpa using hc), List.take_succ_cons]
        exact congrArg (c :: ·) (ih (by simpa using h))

/-- The string is empty only where the first byte is a NUL. -/
theorem str_eq_nil_iff {c : UInt8} {m : Bytes} : str (c :: m) = [] ↔ c = 0 := by
  by_cases hc : c = 0
  · rw [str, List.takeWhile_cons_of_neg (by simpa using hc)]
    simp [hc]
  · rw [str, List.takeWhile_cons_of_pos (by simpa using hc)]
    simp [hc]

theorem str_ne_nil_of_head? {a b : Bytes} (h : a.head? = b.head?) (hb : str b ≠ []) :
    str a ≠ [] := by
  cases b with
  | nil => exact absurd rfl hb
  | cons c b =>
    cases a with
    | nil => cases h
    | cons d a =>
      obtain rfl : d = c := by simpa using h
      exact fun ha => hb (str_eq_nil_iff.mpr (str_eq_nil_iff.mp ha))

/-- The place of a field. -/
theorem exists_place {R : Nat → Bytes → Prop} {places : List Nat} {fs : List Bytes}
    (h : List.Forall₂ R places fs) : ∀ {k : Nat} {f : Bytes}, fs[k]? = some f →
    ∃ p, places[k]? = some p ∧ R p f := by
  induction h with
  | nil => intro k f hk; simp at hk
  | cons hR _ ih =>
    intro k f hk
    cases k with
    | zero =>
      obtain rfl := Option.some.inj hk
      exact ⟨_, rfl, hR⟩
    | succ k => exact ih hk

/-! ### One entry -/

section Turn

variable {grep} {e : Memory_Check} {table : List Line} {log_file : Bool} {loc : Locals}

theorem output_nil (h : matching grep e.name table = []) : output grep e.name table = [] := by
  rw [output, h]
  rfl

/-- The first line that is let through is what the buffer holds. -/
theorem fgets_output {l : Line} {ls : List Line} (h : matching grep e.name table = l :: ls)
    (buf : Bytes) : ∃ post, fgets buf (output grep e.name table) = l.read ++ 0 :: post := by
  have hout : output grep e.name table = l.text ++ 10 :: ls.flatMap fun l => l.text ++ [10] := by
    rw [output, h, List.flatMap_cons, List.append_assoc]
    rfl
  have h10 : 10 ∉ l.text := fun hm => (l.clean 10 hm).2 rfl
  rw [fgets, if_neg (by rw [hout]; simp), hout, gets_append h10]
  exact ⟨_, rfl⟩

/-- Reading the size of the third field changes the buffer behind its first byte only. -/
theorem read_size_spec {p : Nat} {f : Bytes} (hp : loc.revbuf.getD 2 none = some p) (hpos : 0 < p)
    (hf : str (loc.buf.drop p) = f) : ∃ buf, read_size loc = some (kilobytes f, ⟨buf, loc.revbuf⟩) ∧
      buf.head? = loc.buf.head? := by
  unfold read_size
  rw [hp, Option.map_some]
  dsimp only
  rw [hf]
  by_cases hm : chM ∈ f
  · have hle : (f.takeWhile (· ≠ chM)).length < f.length := by
      obtain ⟨a, b, rfl, ha⟩ := List.eq_append_cons_of_mem hm
      rw [takeWhile_append_neg (fun c hc => by simpa using fun h : c = chM => ha (h ▸ hc)) (by simp),
        List.length_append, List.length_cons]
      omega
    have hlen : p + (f.takeWhile (· ≠ chM)).length < loc.buf.length := by
      have := (List.takeWhile_sublist (p := fun c => decide (c ≠ 0)) (l := loc.buf.drop p)).length_le
      rw [show (loc.buf.drop p).takeWhile (fun c => decide (c ≠ 0)) = f from hf,
        List.length_drop] at this
      omega
    rw [if_pos hm]
    refine ⟨loc.buf.set (p + (f.takeWhile (· ≠ chM)).length) 0, ?_, ?_⟩
    · rw [List.drop_set, if_neg (by omega), Nat.add_sub_cancel_left,
        str_set (by rw [List.length_drop]; omega), hf,
        ← List.prefix_iff_eq_take.mp (List.takeWhile_prefix _), kilobytes, if_pos hm]
    · cases hb : loc.buf with
      | nil => rfl
      | cons c m =>
        rw [show p + (f.takeWhile (· ≠ chM)).length = (p - 1 + (f.takeWhile (· ≠ chM)).length) + 1 by
          omega, List.set_cons_succ]
        rfl
  · rw [if_neg hm]
    exact ⟨loc.buf, by rw [kilobytes, if_neg hm], rfl⟩

theorem message_ne_nil (size : Int) (limit : String) : message e size limit ≠ [] := by
  intro h
  rcases List.take_eq_nil_iff.mp h with h | h
  · exact absurd h (by decide)
  · have := congrArg List.length h
    simp only [List.length_append, asc, List.length_map] at this
    simp at this

theorem leak_ne_nil_iff {size : Int} : leak e size ≠ [] ↔ e.size < size := by
  unfold leak
  split
  · rename_i h
    exact iff_of_true (message_ne_nil _ _) (by omega)
  · split
    · rename_i h
      exact iff_of_true (message_ne_nil _ _) (by omega)
    · exact iff_of_false (fun h => h rfl) (by omega)

/-- With the pid and the size of a line of its own, an entry is attributed. -/
theorem assign_matched {l : Line} (hm : l ∈ matching grep e.name table)
    (hpid : read_pid loc = some l.pid) {loc' : Locals} (hsize : read_size loc = some (l.size, loc')) :
    ∃ r ret, assign e table log_file loc = some (r, ret, loc') ∧ Attributed grep r ∧
      (ret ≠ 0 ↔ Stops e l log_file) := by
  have hne : matching grep e.name table ≠ [] := List.ne_nil_of_mem hm
  unfold assign
  rw [hpid, Option.bind_some]
  by_cases hnew : e.flag = -1 ∨ e.pid ≠ l.pid
  · rw [if_pos hnew, hsize]
    refine ⟨_, _, rfl, ⟨fun h => absurd h hne, ?_⟩, ?_⟩
    · rintro a ⟨⟩
      exact ⟨l, hm, rfl, rfl⟩
    · exact iff_of_false (fun h => h rfl) fun h => hnew.elim h.1 fun hp => hp h.2.1
  · obtain ⟨hflag, hsame⟩ := not_or.mp hnew
    rw [if_neg hnew, Memroy_Check, hsize]
    refine ⟨_, _, rfl, ⟨fun h => absurd h hne, ?_⟩, ?_⟩
    · rintro a ⟨⟩
      exact ⟨l, hm, rfl, rfl⟩
    · constructor
      · intro hret
        by_contra hstop
        exact hret (if_neg fun h => hstop ⟨hflag, not_not.mp hsame, leak_ne_nil_iff.mp h.1, h.2⟩)
      · intro hstop
        dsimp only
        rw [if_pos ⟨leak_ne_nil_iff.mpr hstop.2.2.1, hstop.2.2.2⟩]
        decide

/-- Where `assign` returns, something has been done with the entry. -/
theorem assign_some {r : Record} {ret : Int} {loc' : Locals}
    (h : assign e table log_file loc = some (r, ret, loc')) :
    r.before = e ∧ r.table = table ∧ ∃ a, r.action = some a := by
  obtain ⟨pid, -, h⟩ := Option.bind_eq_some_iff.mp h
  by_cases hnew : e.flag = -1 ∨ e.pid ≠ pid
  · rw [if_pos hnew] at h
    obtain ⟨x, -, hx⟩ := Option.map_eq_some_iff.mp h
    obtain ⟨rfl, -⟩ := Prod.mk.inj hx
    exact ⟨rfl, rfl, _, rfl⟩
  · rw [if_neg hnew] at h
    obtain ⟨x, -, hx⟩ := Option.map_eq_some_iff.mp h
    obtain ⟨rfl, -⟩ := Prod.mk.inj hx
    exact ⟨rfl, rfl, _, rfl⟩

/-- The pointers that the loop has stored. -/
theorem getD_places {places : List Nat} {k p : Nat} (h : places[k]? = some p)
    (rest : List (Option Nat)) : (places.map some ++ rest).getD k none = some p := by
  have hlt : k < (places.map some).length := by
    rw [List.length_map]
    exact (List.getElem?_eq_some_iff.mp h).1
  rw [List.getD_eq_getElem?_getD, List.getElem?_append_left hlt, List.getElem?_map, h]
  rfl

/-- A line with room for its fields: the entry gets what the line says. -/
theorem turn_matched {l : Line} {ls : List Line} (hm : matching grep e.name table = l :: ls)
    (hroom : loc.revbuf.length = recvNum) (hfit : (fields blank l.read).length ≤ recvNum) :
    ∃ r ret loc', turn grep e table log_file loc = some (r, ret, loc') ∧ Attributed grep r ∧
      loc'.revbuf.length = recvNum ∧ str loc'.buf ≠ [] ∧ (ret ≠ 0 ↔ Stops e l log_file) := by
  obtain ⟨post, hbuf⟩ := fgets_output hm loc.buf
  have hstr : str (l.read ++ 0 :: post) = l.read := str_append_zero _ _ l.zero_not_mem_read
  obtain ⟨m, places, htok, hlen, hhead, -, htail, hfor⟩ :=
    @tokens_spec blank (by decide) loc.revbuf [] l.read post l.zero_not_mem_read (by omega)
  rw [List.nil_append, List.nil_append, List.length_nil] at htok
  obtain ⟨p₀, hp₀, hf₀⟩ := exists_place hfor (l.fields_read (by decide : 0 < 3))
  obtain ⟨p₂, hp₂, hf₂⟩ := exists_place hfor (l.fields_read (by decide : 2 < 3))
  rw [List.nil_append] at hf₀ hf₂
  have hpos : 0 < p₂ := by
    refine htail p₂ (List.mem_of_getElem? (i := 1) ?_)
    rw [List.getElem?_tail]
    exact hp₂
  have hd₀ := getD_places hp₀ (loc.revbuf.drop places.length)
  have hd₂ := getD_places hp₂ (loc.revbuf.drop places.length)
  have hdest : (places.map some ++ loc.revbuf.drop places.length).length = recvNum := by
    have := hfor.length_eq
    rw [List.length_append, List.length_map, List.length_drop]
    omega
  generalize places.map some ++ loc.revbuf.drop places.length = dest at htok hd₀ hd₂ hdest
  have hpid : read_pid ⟨m ++ 0 :: post, dest⟩ = some l.pid := by
    rw [read_pid, hd₀, Option.map_some, hf₀, Line.pid]
  obtain ⟨buf, hsize, hfirst⟩ := @read_size_spec ⟨m ++ 0 :: post, dest⟩ p₂ _ hd₂ hpos hf₂
  obtain ⟨r, ret, hassign, hr, hret⟩ := @assign_matched _ e table log_file _ l
    (hm ▸ List.mem_cons_self) hpid _ hsize
  refine ⟨r, ret, ⟨buf, dest⟩, ?_, hr, hdest, ?_, hret⟩
  · unfold turn
    dsimp only
    rw [hbuf, hstr, if_neg l.read_ne_nil, Split]
    dsimp only
    rw [hstr, if_neg l.read_ne_nil, htok]
    exact hassign
  · refine str_ne_nil_of_head? (hfirst.trans ?_) (by rw [hstr]; exact l.read_ne_nil)
    obtain ⟨c, s, hs⟩ := List.exists_cons_of_ne_nil l.read_ne_nil
    rw [hs] at hhead ⊢
    obtain ⟨d, m, rfl⟩ := List.exists_cons_of_ne_nil (l := m) (by rintro rfl; cases hhead)
    exact hhead

/-- A line with too many fields is written behind `revbuf`. -/
theorem turn_overflow {l : Line} {ls : List Line} (hm : matching grep e.name table = l :: ls)
    (hroom : loc.revbuf.length < (fields blank l.read).length) :
    turn grep e table log_file loc = none := by
  obtain ⟨post, hbuf⟩ := fgets_output hm loc.buf
  have htok := @tokens_eq_none blank (by decide) loc.revbuf [] l.read post l.zero_not_mem_read hroom
  rw [List.nil_append, List.length_nil] at htok
  unfold turn
  dsimp only
  rw [hbuf, str_append_zero _ _ l.zero_not_mem_read, if_neg l.read_ne_nil, Split,
    str_append_zero _ _ l.zero_not_mem_read, if_neg l.read_ne_nil, htok]
  rfl

/-- With no line and nothing in the buffer the entry is left alone. -/
theorem turn_unmatched (hm : matching grep e.name table = []) (hbuf : str loc.buf = []) :
    turn grep e table log_file loc = some (⟨e, table, none, e⟩, 0, loc) := by
  unfold turn
  dsimp only
  rw [output_nil hm, fgets, if_pos rfl, if_pos hbuf]

/-- With no line and something in the buffer the entry takes it. -/
theorem turn_leftover {r : Record} {ret : Int} {loc' : Locals}
    (hm : matching grep e.name table = []) (hbuf : str loc.buf ≠ [])
    (h : turn grep e table log_file loc = some (r, ret, loc')) : ¬ Attributed grep r := by
  intro hr
  unfold turn at h
  dsimp only at h
  rw [output_nil hm, fgets, if_pos rfl, if_neg hbuf, Split, if_neg hbuf] at h
  obtain ⟨x, hx, h⟩ := Option.bind_eq_some_iff.mp h
  obtain ⟨y, -, rfl⟩ := Option.map_eq_some_iff.mp hx
  obtain ⟨he, ht, a, ha⟩ := assign_some h
  obtain ⟨l, hl, -⟩ := hr.own a ha
  rw [he, ht, hm] at hl
  cases hl

end Turn

/-! ### A scan -/

/-- What is recorded of an entry is about this entry. -/
theorem turn_before {e : Memory_Check} {table : List Line} {log_file : Bool} {loc loc' : Locals}
    {r : Record} {ret : Int} (h : turn grep e table log_file loc = some (r, ret, loc')) :
    r.before = e := by
  unfold turn at h
  dsimp only at h
  split at h
  · obtain ⟨rfl, -⟩ := Prod.mk.inj (Option.some.inj h)
    rfl
  · obtain ⟨x, -, h⟩ := Option.bind_eq_some_iff.mp h
    split at h
    · obtain ⟨rfl, -⟩ := Prod.mk.inj (Option.some.inj h)
      rfl
    · exact (assign_some h).1

section Loop

variable {grep} {e : Memory_Check} {es es' : List Memory_Check} {looks : Nat → Look}
  {table : List Line} {loc loc' : Locals} {r : Record} {ret : Int} {rs : List Record}

/-- **What the loop does with one entry**: it ends with it, or goes on behind it. -/
theorem loop_cons (hps : (looks 0).ps = some table)
    (h : loop grep (e :: es) looks loc = some (ret, es', rs)) :
    ∃ r ret' loc', turn grep e table (looks 0).log_file loc = some (r, ret', loc') ∧
      ((ret' ≠ 0 ∧ es' = r.after :: es ∧ rs = [r]) ∨
        (ret' = 0 ∧ ∃ es'' rs', loop grep es (fun n => looks (n + 1)) loc' = some (ret, es'', rs') ∧
          es' = r.after :: es'' ∧ rs = r :: rs')) := by
  rw [loop, hps] at h
  obtain ⟨⟨r, ret', loc'⟩, hturn, h⟩ := Option.bind_eq_some_iff.mp h
  refine ⟨r, ret', loc', hturn, ?_⟩
  dsimp only at h
  split at h
  · rename_i hret
    obtain ⟨-, rfl, rfl⟩ : -1 = ret ∧ r.after :: es = es' ∧ [r] = rs := by simpa using h
    exact Or.inl ⟨hret, rfl, rfl⟩
  · rename_i hret
    obtain ⟨⟨ret'', es'', rs'⟩, hrest, hx⟩ := Option.map_eq_some_iff.mp h
    obtain ⟨rfl, rfl, rfl⟩ : ret'' = ret ∧ r.after :: es'' = es' ∧ r :: rs' = rs := by
      simpa using hx
    exact Or.inr ⟨not_not.mp hret, es'', rs', hrest, rfl, rfl⟩

/-- The watch list before and after a scan: the entries that the records are about, and
behind them those that the scan did not reach. -/
theorem loop_entries (h : loop grep es looks loc = some (ret, es', rs)) :
    ∃ rest, es = rs.map (·.before) ++ rest ∧ es' = rs.map (·.after) ++ rest := by
  induction es generalizing looks loc ret es' rs with
  | nil =>
    obtain ⟨-, rfl, rfl⟩ : 0 = ret ∧ es' = [] ∧ rs = [] := by simpa [loop, eq_comm] using h
    exact ⟨[], rfl, rfl⟩
  | cons e es ih =>
    cases hps : (looks 0).ps with
    | none =>
      rw [loop, hps] at h
      obtain ⟨-, rfl, rfl⟩ : -1 = ret ∧ es' = e :: es ∧ rs = [] := by simpa [eq_comm] using h
      exact ⟨e :: es, rfl, rfl⟩
    | some table =>
      obtain ⟨r, ret', loc', hturn, ⟨-, rfl, rfl⟩ | ⟨-, es'', rs', hrest, rfl, rfl⟩⟩ :=
        loop_cons hps h
      · exact ⟨es, by rw [List.map_singleton, turn_before grep hturn]; rfl, rfl⟩
      · obtain ⟨rest, h₁, h₂⟩ := ih hrest
        exact ⟨rest, by rw [List.map_cons, turn_before grep hturn, h₁]; rfl,
          by rw [List.map_cons, h₂]; rfl⟩

end Loop

/-- From here on the scan is defined and attributes every line. -/
def Sound (es : List Memory_Check) (looks : Nat → Look) (loc : Locals) : Prop :=
  ∃ ret es' rs, loop grep es looks loc = some (ret, es', rs) ∧ ∀ r ∈ rs, Attributed grep r

section Sound

variable {grep} {e : Memory_Check} {es : List Memory_Check} {looks : Nat → Look}
  {table : List Line} {loc loc' : Locals} {r : Record} {ret : Int}

/-- An entry behind which the scan goes on. -/
theorem sound_cons (hps : (looks 0).ps = some table)
    (hturn : turn grep e table (looks 0).log_file loc = some (r, 0, loc')) :
    Sound grep (e :: es) looks loc ↔
      Attributed grep r ∧ Sound grep es (fun n => looks (n + 1)) loc' := by
  constructor
  · rintro ⟨ret, es', rs, h, hall⟩
    obtain ⟨r', ret', loc'', hturn', hcase⟩ := loop_cons hps h
    obtain ⟨rfl, rfl, rfl⟩ : r = r' ∧ 0 = ret' ∧ loc' = loc'' := by simpa [hturn] using hturn'
    rcases hcase with ⟨hret, -⟩ | ⟨-, es'', rs', hrest, -, rfl⟩
    · exact absurd rfl hret
    · exact ⟨hall r List.mem_cons_self, ret, es'', rs', hrest,
        fun x hx => hall x (List.mem_cons_of_mem r hx)⟩
  · rintro ⟨hr, ret, es', rs, hrest, hall⟩
    refine ⟨ret, r.after :: es', r :: rs, ?_, fun x hx => ?_⟩
    · rw [loop, hps]
      dsimp only
      rw [hturn, Option.bind_some, if_neg (fun h => h rfl), hrest]
      rfl
    · rcases List.mem_cons.mp hx with rfl | hx
      · exact hr
      · exact hall x hx

/-- An entry with which the scan ends. -/
theorem sound_stop (hps : (looks 0).ps = some table)
    (hturn : turn grep e table (looks 0).log_file loc = some (r, ret, loc')) (hret : ret ≠ 0)
    (hr : Attributed grep r) : Sound grep (e :: es) looks loc := by
  refine ⟨-1, r.after :: es, [r], ?_, fun x hx => by rwa [List.mem_singleton.mp hx]⟩
  rw [loop, hps]
  dsimp only
  rw [hturn, Option.bind_some, if_pos hret]

/-- An entry that takes what the earlier ones have left. -/
theorem not_sound_leftover (hps : (looks 0).ps = some table)
    (hm : matching grep e.name table = []) (hbuf : str loc.buf ≠ []) :
    ¬ Sound grep (e :: es) looks loc := by
  rintro ⟨ret, es', rs, h, hall⟩
  obtain ⟨r, ret', loc', hturn, hcase⟩ := loop_cons hps h
  have hmem : r ∈ rs := by
    rcases hcase with ⟨-, -, rfl⟩ | ⟨-, es'', rs', -, -, rfl⟩
    · exact List.mem_cons_self
    · exact List.mem_cons_self
  exact turn_leftover hm hbuf hturn (hall r hmem)

/-- A line that `revbuf` has no room for. -/
theorem not_sound_overflow (hps : (looks 0).ps = some table) {l : Line} {ls : List Line}
    (hm : matching grep e.name table = l :: ls)
    (hroom : loc.revbuf.length < (fields blank l.read).length) :
    ¬ Sound grep (e :: es) looks loc := by
  rintro ⟨ret, es', rs, h, -⟩
  obtain ⟨r, ret', loc', hturn, -⟩ := loop_cons hps h
  rw [turn_overflow hm hroom] at hturn
  cases hturn

end Sound

/-- **One scan.**  By induction on the watch list, `seen` standing for what the buffer
holds. -/
theorem sound_iff : ∀ (es : List Memory_Check) (looks : Nat → Look) (seen : Bool) (loc : Locals),
    loc.revbuf.length = recvNum → (seen = true ↔ str loc.buf ≠ []) →
    (Sound grep es looks loc ↔ Ordered grep seen es looks) := by
  intro es
  induction es with
  | nil =>
    intro looks seen loc _ _
    exact iff_of_true ⟨0, [], [], rfl, by simp⟩ trivial
  | cons e es ih =>
    intro looks seen loc hroom hseen
    cases hps : (looks 0).ps with
    | none =>
      refine iff_of_true ⟨-1, e :: es, [], by rw [loop, hps], by simp⟩ ?_
      rw [Ordered, hps]
      trivial
    | some table =>
      rw [Ordered, hps]
      dsimp only
      cases hm : matching grep e.name table with
      | nil =>
        dsimp only
        by_cases hbuf : str loc.buf = []
        · have hfalse : seen = false := by
            cases seen with
            | false => rfl
            | true => exact absurd hbuf (hseen.mp rfl)
          rw [sound_cons hps (turn_unmatched hm hbuf), ih _ seen loc hroom hseen]
          refine and_congr (iff_of_true ⟨fun _ => ⟨rfl, rfl, rfl⟩, ?_⟩ hfalse) Iff.rfl
          rintro a ⟨⟩
        · refine iff_of_false (not_sound_leftover hps hm hbuf) fun h => ?_
          rw [hseen.mpr hbuf] at h
          exact absurd h.1 (by decide)
      | cons l ls =>
        dsimp only
        by_cases hfit : (fields blank l.read).length ≤ recvNum
        · obtain ⟨r, ret, loc', hturn, hr, hroom', hbuf, hret⟩ :=
            @turn_matched grep e table (looks 0).log_file loc l ls hm hroom hfit
          by_cases hstop : Stops e l (looks 0).log_file
          · exact iff_of_true (sound_stop hps hturn (hret.mpr hstop) hr) ⟨hfit, Or.inl hstop⟩
          · obtain rfl : ret = 0 := by
              by_contra h
              exact hstop (hret.mp h)
            rw [sound_cons hps hturn, ih _ true loc' hroom' (iff_of_true rfl hbuf)]
            exact ⟨fun h => ⟨hfit, Or.inr h.2⟩, fun h => ⟨hr, h.2.resolve_left hstop⟩⟩
        · exact iff_of_false (not_sound_overflow hps hm (by omega)) fun h => hfit h.1

/-- A scan begins with an empty buffer. -/
theorem scan_iff (es : List Memory_Check) (looks : Nat → Look) :
    (∃ ret es' rs, Check_Fork_Memroy grep es looks = some (ret, es', rs) ∧
      ∀ r ∈ rs, Attributed grep r) ↔ Ordered grep false es looks :=
  sound_iff grep es looks false Locals.start (by decide) (iff_of_false (by decide) (by decide))

/-- The scans of a run, one by one. -/
theorem main_cons_iff (es : List Memory_Check) (looks : Nat → Look) (scans : List (Nat → Look)) :
    (∃ rss, main grep es (looks :: scans) = some rss ∧ ∀ rs ∈ rss, ∀ r ∈ rs, Attributed grep r) ↔
      ∃ ret es' rs, Check_Fork_Memroy grep es looks = some (ret, es', rs) ∧
        (∀ r ∈ rs, Attributed grep r) ∧ (ret = 0 →
          ∃ rss, main grep es' scans = some rss ∧ ∀ rs ∈ rss, ∀ r ∈ rs, Attributed grep r) := by
  rw [main]
  constructor
  · rintro ⟨rss, h, hall⟩
    obtain ⟨⟨ret, es', rs⟩, hscan, h⟩ := Option.bind_eq_some_iff.mp h
    dsimp only at h
    split at h
    · rename_i hret
      obtain rfl := Option.some.inj h
      exact ⟨ret, es', rs, hscan, hall rs List.mem_cons_self, fun h0 => absurd h0 hret⟩
    · obtain ⟨rest, hrest, rfl⟩ := Option.map_eq_some_iff.mp h
      exact ⟨ret, es', rs, hscan, hall rs List.mem_cons_self, fun _ =>
        ⟨rest, hrest, fun x hx => hall x (List.mem_cons_of_mem _ hx)⟩⟩
  · rintro ⟨ret, es', rs, hscan, hall, hrest⟩
    rw [hscan, Option.bind_some]
    dsimp only
    by_cases hret : ret = 0
    · obtain ⟨rest, hmain, hall'⟩ := hrest hret
      rw [if_neg (not_not.mpr hret), hmain]
      refine ⟨rs :: rest, rfl, fun x hx => ?_⟩
      rcases List.mem_cons.mp hx with rfl | hx
      · exact hall
      · exact hall' x hx
    · rw [if_pos hret]
      exact ⟨[rs], rfl, fun x hx => by rwa [List.mem_singleton.mp hx]⟩

/-- **Every run of the watcher** attributes its lines exactly when its scans are ordered. -/
theorem attributed_iff (es : List Memory_Check) (scans : List (Nat → Look)) :
    (∃ rss, main grep es scans = some rss ∧ ∀ rs ∈ rss, ∀ r ∈ rs, Attributed grep r) ↔
      AllOrdered grep es scans := by
  induction scans generalizing es with
  | nil => exact iff_of_true ⟨[], rfl, by simp⟩ trivial
  | cons looks scans ih =>
    rw [main_cons_iff, AllOrdered, ← scan_iff]
    constructor
    · rintro ⟨ret, es', rs, hscan, hall, hrest⟩
      refine ⟨⟨ret, es', rs, hscan, hall⟩, fun es'' rs'' h' => ?_⟩
      rw [hscan] at h'
      obtain ⟨rfl, rfl, rfl⟩ : ret = 0 ∧ es' = es'' ∧ rs = rs'' := by simpa using h'
      exact (ih es').mp (hrest rfl)
    · rintro ⟨⟨ret, es', rs, hscan, hall⟩, hrest⟩
      refine ⟨ret, es', rs, hscan, hall, fun hret => (ih es').mpr ?_⟩
      subst hret
      exact hrest es' rs hscan

/-! ### `init` alone -/

/-- A word of the line, `grep` itself left out. -/
def lets_through (name text : Bytes) : Bool :=
  decide (name <:+: text) && !decide (asc "grep" <:+: text)

/-- The only process there is. -/
def initLine : Line where
  text := asc "    1 root      1588 S    init"
  clean c hc := by
    have := List.all_eq_true.mp (by decide : (asc "    1 root      1588 S    init").all
      fun c => decide (c ≠ 0 ∧ c ≠ 10)) c hc
    simpa using this
  columns := by decide

/-- `syswatcher` is not running, and becomes a process of pid 1. -/
theorem syswatcher_is_init :
    ¬ ∀ (grep : Bytes → Bytes → Bool) (scans : List (Nat → Look)),
      ∃ rss, main grep g_forkinfo scans = some rss ∧ ∀ rs ∈ rss, ∀ r ∈ rs, Attributed grep r := by
  intro h
  obtain ⟨ret, es', rs, hscan, hall, -⟩ :=
    (main_cons_iff _ _ _ _).mp (h lets_through [fun _ => ⟨some [initLine], true⟩])
  have hord := (scan_iff _ _ _).mp ⟨ret, es', rs, hscan, hall⟩
  have hinit : matching lets_through (asc "init") [initLine] = [initLine] :=
    List.filter_cons_of_pos (by decide)
  have hsys : matching lets_through (asc "syswatcher") [initLine] = [] :=
    List.filter_cons_of_neg (by decide)
  obtain ⟨es, hes⟩ : ∃ es, g_forkinfo
      = ⟨asc "init", -1, 0, -1⟩ :: ⟨asc "syswatcher", -1, 0, -1⟩ :: es := ⟨_, rfl⟩
  rw [hes, Ordered] at hord
  dsimp only at hord
  rw [hinit] at hord
  rcases hord.2 with hstop | hord
  · exact hstop.1 rfl
  · rw [Ordered] at hord
    dsimp only at hord
    rw [hsys] at hord
    exact absurd hord.1 (by decide)

example : (Check_Fork_Memroy lets_through (g_forkinfo.take 2) fun _ => ⟨some [initLine], true⟩).map
    (fun r => r.2.1.map fun e => (e.flag, e.pid, e.size)) = some [(1, 1, 1588), (1, 1, 1588)] := by
  decide

end Boxing.Memory
