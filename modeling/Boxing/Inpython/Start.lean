import Boxing.C.Decimal
import Boxing.C.Lines

/-!
# The apps to start

The start file is a JSON array with an entry for each app.  `parse_json_and_exec` goes over
it once: it reads an entry, makes two CLI commands of it and has them carried out, and goes
on to the next one.  At the end it starts Python and saves the configuration.

The four values an entry may have are kept in variables outside the loop, of which only two
are cleared.  An entry without `enable` or `logsize` gets what an earlier entry had
(`same_text_iff`).
-/

namespace Boxing.Inpython

open C

/-- A JSON value, as far as it is looked at. -/
inductive Json
  | null
  | boolean (b : Bool)
  | integer (n : Int)
  | real
  | string (s : Bytes)
  | array (elems : List Json)
  | object (fields : List (Bytes × Json))

/-- What `json_object_foreach` goes over. -/
def Json.fields : Json → List (Bytes × Json)
  | .object fields => fields
  | _ => []

/-- The variables of an entry. -/
structure Vars where
  name : Bytes
  enable : Bool
  cmd : Bytes
  logsize : Int
deriving DecidableEq

/-- Before the loop. -/
def Vars.start : Vars := ⟨[], false, [], 0⟩

/-- One round of `json_object_foreach`; an error is the return value. -/
def set_key (v : Vars) (field : Bytes × Json) : Except Int Vars :=
  if field.1 = asc "name" then
    match field.2 with
    | .string s => .ok { v with name := strlcpy s 64 }
    | _ => .error 3
  else if field.1 = asc "enable" then
    match field.2 with
    | .boolean b => .ok { v with enable := b }
    | _ => .error 3
  else if field.1 = asc "cmd" then
    match field.2 with
    | .string s => .ok { v with cmd := strlcpy s 128 }
    | _ => .error 3
  else if field.1 = asc "logsize" then
    match field.2 with
    | .integer n => if int32 n < 0 ∨ int32 n > 70 then .error 4 else .ok { v with logsize := int32 n }
    | _ => .error 3
  else .ok v

/-- An entry: `name` and `cmd` are cleared first. -/
def read_entry (v : Vars) (entry : Json) : Except Int Vars :=
  entry.fields.foldlM set_key { v with name := [], cmd := [] }

/-- `char_replace`. -/
def char_replace (s : Bytes) (c d : UInt8) : Bytes := s.map fun x => if x = c then d else x

/-- The text for the CLI, as `snprintf` leaves it in `cli`. -/
def cli_text (index : Nat) (v : Vars) : Bytes :=
  snprintf 512 (asc "python import web " ++ decText (int32 (index + 1)) ++ asc " "
    ++ char_replace v.cmd 32 43 ++ asc " logsize " ++ decText v.logsize ++ asc "\npython app "
    ++ decText (int32 (index + 1)) ++ asc " " ++ if v.enable = true then asc "on" else asc "off")

/-- The commands `strtok(.., "\r\n")` finds in a text. -/
def commands (text : Bytes) : List Bytes :=
  (text.splitOnP fun c => c = 13 || c = 10).filter (· ≠ [])

/-- `ERR_OK`.  Its header is not here: `do_mtd_read` returns it, and `mtd_main` takes `err == 0` for
a success. -/
def ERR_OK : Int := 0

section Exec

/- What `cli_do_cmd` returns for a command, behind those that have been given before. -/
variable (cli_do_cmd : List Bytes → Bytes → Int)

/-- The loop of `service_exec_cli`: the commands that have been carried out, with what they
returned. -/
def exec_commands : List Bytes → List (Bytes × Int) → List (Bytes × Int)
  | [], done => done
  | pcmd :: rest, done =>
    let ret := cli_do_cmd (done.map Prod.fst) pcmd
    if ret ≠ ERR_OK then done ++ [(pcmd, ret)] else exec_commands rest (done ++ [(pcmd, ret)])

/-- `service_exec_cli`.  What it returns is 0 in any case. -/
def service_exec_cli (text : Bytes) (done : List (Bytes × Int)) : List (Bytes × Int) :=
  exec_commands cli_do_cmd (commands text) done

/-- What has come of a call: its return value, the texts of the entries, and the commands that
have been carried out. -/
structure Outcome where
  ret : Int
  texts : List Bytes
  done : List (Bytes × Int)

/-- The loop over the entries, and what follows it. -/
def exec_entries : Vars → Nat → List Json → List Bytes → List (Bytes × Int) → Outcome
  | _, _, [], texts, done =>
    ⟨0, texts, service_exec_cli cli_do_cmd (asc "copy running-config startup-config")
      (service_exec_cli cli_do_cmd (asc "python enable") done)⟩
  | v, index, entry :: entries, texts, done =>
    match read_entry v entry with
    | .error ret => ⟨ret, texts, done⟩
    | .ok v' => exec_entries v' (index + 1) entries (texts ++ [cli_text index v'])
        (service_exec_cli cli_do_cmd (cli_text index v') done)

/-- `parse_json_and_exec`, with the result of `fopen`. -/
def parse_json_and_exec (fp : Bool) (obj : Option Json) : Outcome :=
  match obj with
  | none => ⟨-1, [], []⟩
  | some obj =>
    if fp = false then ⟨-1, [], []⟩
    else
      match obj with
      | .array entries => exec_entries cli_do_cmd .start 0 entries [] []
      | _ => ⟨1, [], []⟩

end Exec

/-! ### What an entry sets -/

section Entries

variable {v v' w w' u : Vars} {field : Bytes × Json} {fields fields' : List (Bytes × Json)}
  {e : Json} {es : List Json} {key : Bytes} {ret : Int} {α : Type}

/-- The last value that has been given to a key. -/
def last_of (key : Bytes) : List (Bytes × Json) → Option Json
  | [] => none
  | field :: fields => (last_of key fields).or (if field.1 = key then some field.2 else none)

theorem last_of_append (key : Bytes) (fields fields' : List (Bytes × Json)) :
    last_of key (fields ++ fields') = (last_of key fields').or (last_of key fields) := by
  induction fields with
  | nil => rw [List.nil_append, last_of, Option.or_none]
  | cons field fields ih => rw [List.cons_append, last_of, last_of, ih, Option.or_assoc]

/-- A value as a `BOOL`. -/
def Json.enable : Json → Bool
  | .boolean b => b
  | _ => false

/-- A value as the text of a command. -/
def Json.cmd : Json → Bytes
  | .string s => strlcpy s 128
  | _ => []

/-- A value as an `int`. -/
def Json.logsize : Json → Int
  | .integer n => int32 n
  | _ => int32 0

/-- A variable holds what it held, unless the key is its own. -/
structure Kept (get : Vars → α) (key : Bytes) (decode : Json → α) : Prop where
  of_ok {v v' : Vars} {field : Bytes × Json} (h : set_key v field = .ok v') :
    get v' = if field.1 = key then decode field.2 else get v

theorem set_key_ok (h : set_key v field = .ok v') :
    (v'.enable = if field.1 = asc "enable" then field.2.enable else v.enable) ∧
      (v'.cmd = if field.1 = asc "cmd" then field.2.cmd else v.cmd) ∧
      v'.logsize = if field.1 = asc "logsize" then field.2.logsize else v.logsize := by
  obtain ⟨key, value⟩ := field
  unfold set_key at h
  dsimp only at h ⊢
  by_cases hname : key = asc "name"
  · subst hname
    rw [if_pos rfl] at h
    cases value <;> cases h
    exact ⟨rfl, rfl, rfl⟩
  rw [if_neg hname] at h
  by_cases henable : key = asc "enable"
  · subst henable
    rw [if_pos rfl] at h
    cases value <;> cases h
    exact ⟨rfl, rfl, rfl⟩
  rw [if_neg henable] at h ⊢
  by_cases hcmd : key = asc "cmd"
  · subst hcmd
    rw [if_pos rfl] at h
    cases value <;> cases h
    exact ⟨rfl, rfl, rfl⟩
  rw [if_neg hcmd] at h ⊢
  by_cases hlogsize : key = asc "logsize"
  · subst hlogsize
    rw [if_pos rfl] at h
    cases value with
    | integer n =>
      dsimp only at h
      split at h
      · cases h
      · cases h
        exact ⟨rfl, rfl, rfl⟩
    | _ => cases h
  rw [if_neg hlogsize] at h ⊢
  cases h
  exact ⟨rfl, rfl, rfl⟩

theorem kept_enable : Kept Vars.enable (asc "enable") Json.enable := ⟨fun h => (set_key_ok h).1⟩

theorem kept_cmd : Kept Vars.cmd (asc "cmd") Json.cmd := ⟨fun h => (set_key_ok h).2.1⟩

theorem kept_logsize : Kept Vars.logsize (asc "logsize") Json.logsize :=
  ⟨fun h => (set_key_ok h).2.2⟩

/-- What the fields leave in a variable. -/
theorem Kept.after {get : Vars → α} {decode : Json → α} (hk : Kept get key decode)
    (h : fields.foldlM set_key v = .ok v') :
    get v' = ((last_of key fields).map decode).getD (get v) := by
  induction fields generalizing v with
  | nil =>
    cases h
    rfl
  | cons field fields ih =>
    rw [List.foldlM_cons] at h
    cases hset : set_key v field with
    | error ret =>
      rw [hset] at h
      cases h
    | ok u =>
      rw [hset] at h
      rw [ih h, hk.of_ok hset, last_of]
      cases last_of key fields with
      | some value => rfl
      | none =>
        rw [Option.none_or]
        split
        · rfl
        · rfl

/-- The checks do not look at the variables. -/
theorem set_key_error (h : set_key v field = .error ret) (w : Vars) :
    set_key w field = .error ret := by
  unfold set_key at h ⊢
  split_ifs at h ⊢ with hname henable hcmd hlogsize
  · cases hvalue : field.2 <;> rw [hvalue] at h <;> cases h <;> rfl
  · cases hvalue : field.2 <;> rw [hvalue] at h <;> cases h <;> rfl
  · cases hvalue : field.2 <;> rw [hvalue] at h <;> cases h <;> rfl
  · cases hvalue : field.2 with
    | integer n =>
      rw [hvalue] at h
      dsimp only at h ⊢
      split_ifs at h ⊢
      exact h
    | _ =>
      rw [hvalue] at h
      exact h

theorem foldlM_error (h : fields.foldlM set_key v = .error ret) (w : Vars) :
    fields.foldlM set_key w = .error ret := by
  induction fields generalizing v w with
  | nil => cases h
  | cons field fields ih =>
    rw [List.foldlM_cons] at h ⊢
    cases hset : set_key v field with
    | error r =>
      rw [hset] at h
      rw [set_key_error hset w]
      exact h
    | ok u =>
      rw [hset] at h
      cases hset' : set_key w field with
      | error r =>
        rw [set_key_error hset' v] at hset
        cases hset
      | ok u' => exact ih h u'

/-- The values of the errors. -/
theorem error_of_set_key (h : set_key v field = .error ret) : ret = 3 ∨ ret = 4 := by
  unfold set_key at h
  split_ifs at h with hname henable hcmd hlogsize
  · cases hvalue : field.2 <;> rw [hvalue] at h <;> cases h <;> exact Or.inl rfl
  · cases hvalue : field.2 <;> rw [hvalue] at h <;> cases h <;> exact Or.inl rfl
  · cases hvalue : field.2 <;> rw [hvalue] at h <;> cases h <;> exact Or.inl rfl
  · cases hvalue : field.2 with
    | integer n =>
      rw [hvalue] at h
      dsimp only at h
      split_ifs at h
      cases h
      exact Or.inr rfl
    | _ =>
      rw [hvalue] at h
      cases h
      exact Or.inl rfl

theorem error_of_foldlM (h : fields.foldlM set_key v = .error ret) : ret = 3 ∨ ret = 4 := by
  induction fields generalizing v with
  | nil => cases h
  | cons field fields ih =>
    rw [List.foldlM_cons] at h
    cases hset : set_key v field with
    | error r =>
      rw [hset] at h
      cases h
      exact error_of_set_key hset
    | ok u =>
      rw [hset] at h
      exact ih h

/-- An entry can be read. -/
def Readable (e : Json) : Prop := ∃ v, read_entry .start e = .ok v

theorem readable_iff (v : Vars) : Readable e ↔ ∃ v', read_entry v e = .ok v' := by
  have hsame : ∀ {v w : Vars}, (∃ v', read_entry v e = .ok v') → ∃ w', read_entry w e = .ok w' := by
    rintro v w ⟨v', hv⟩
    cases hw : read_entry w e with
    | ok w' => exact ⟨w', rfl⟩
    | error ret =>
      have := foldlM_error hw { v with name := [], cmd := [] }
      rw [read_entry, this] at hv
      cases hv
  exact ⟨hsame, hsame⟩

/-- What an entry leaves in the variables: what it does not say is what was there, but for the
command. -/
theorem read_entry_ok (h : read_entry v e = .ok v') :
    v'.enable = ((last_of (asc "enable") e.fields).map Json.enable).getD v.enable ∧
      v'.cmd = ((last_of (asc "cmd") e.fields).map Json.cmd).getD [] ∧
      v'.logsize = ((last_of (asc "logsize") e.fields).map Json.logsize).getD v.logsize := by
  have hread : e.fields.foldlM set_key { v with name := [], cmd := [] } = .ok v' := h
  have henable := kept_enable.after hread
  have hcmd := kept_cmd.after hread
  have hlogsize := kept_logsize.after hread
  exact ⟨henable, hcmd, hlogsize⟩

end Entries

/-! ### The text of an entry -/

section Texts

variable {cli_do_cmd cli_do_cmd' : List Bytes → Bytes → Int} {v v' w w' : Vars} {e : Json}
  {es a b : List Json} {index k : Nat} {texts : List Bytes} {done : List (Bytes × Int)}

/-- What stands in a text before the size of the log. -/
def text_head (index : Nat) (cmd : Bytes) : Bytes :=
  asc "python import web " ++ decText (int32 (index + 1)) ++ asc " " ++ char_replace cmd 32 43
    ++ asc " logsize "

/-- What stands behind it. -/
def text_tail (index : Nat) (enable : Bool) : Bytes :=
  asc "python app " ++ decText (int32 (index + 1)) ++ asc " "
    ++ if enable = true then asc "on" else asc "off"

theorem length_text_head (index : Nat) {cmd : Bytes} (hcmd : cmd.length ≤ 127) :
    (text_head index cmd).length ≤ 170 := by
  have hindex := length_decText_int32 (index + 1)
  have hweb : (asc "python import web ").length = 18 := by decide
  have hblank : (asc " ").length = 1 := by decide
  have hlogsize : (asc " logsize ").length = 9 := by decide
  rw [text_head]
  simp only [List.length_append, char_replace, List.length_map]
  omega

theorem length_text_tail (index : Nat) (enable : Bool) : (text_tail index enable).length ≤ 26 := by
  have hindex := length_decText_int32 (index + 1)
  have happ : (asc "python app ").length = 11 := by decide
  have hblank : (asc " ").length = 1 := by decide
  have hon : (if enable = true then asc "on" else asc "off").length ≤ 3 := by
    split <;> decide
  rw [text_tail]
  simp only [List.length_append]
  omega

theorem text_tail_injective (index : Nat) : Function.Injective (text_tail index) := by
  intro x y h
  have hend := List.append_cancel_left h
  cases x <;> cases y
  · rfl
  · exact absurd hend (by decide)
  · exact absurd hend (by decide)
  · rfl

theorem length_cmd (h : read_entry v e = .ok v') : v'.cmd.length ≤ 127 := by
  rw [(read_entry_ok h).2.1]
  cases last_of (asc "cmd") e.fields with
  | none => exact Nat.zero_le _
  | some value =>
    cases value with
    | string s => exact List.length_take_le _ _
    | _ => exact Nat.zero_le _

/-- The buffer has room for the text. -/
theorem cli_text_eq (hcmd : v.cmd.length ≤ 127) (hlogsize : ∃ n, v.logsize = int32 n) :
    cli_text index v
      = text_head index v.cmd ++ (decText v.logsize ++ 10 :: text_tail index v.enable) := by
  have hhead := length_text_head index hcmd
  have htail := length_text_tail index v.enable
  have hsize : (decText v.logsize).length ≤ 11 := by
    obtain ⟨n, hn⟩ := hlogsize
    exact hn ▸ length_decText_int32 n
  have hwhole : cli_text index v
      = (text_head index v.cmd ++ (decText v.logsize ++ 10 :: text_tail index v.enable)).take 511 := by
    have hnewline : asc "\npython app " = 10 :: asc "python app " := by decide
    rw [cli_text, snprintf, hnewline]
    simp only [text_head, text_tail, List.append_assoc, List.cons_append]
  rw [hwhole]
  refine List.take_of_length_le ?_
  simp only [List.length_append, List.length_cons]
  omega

/-- With the same command, the texts are the same if the other two values are. -/
theorem cli_text_inj (hcmd : v.cmd = w.cmd) (hlen : v.cmd.length ≤ 127)
    (hv : ∃ n, v.logsize = int32 n) (hw : ∃ n, w.logsize = int32 n) :
    cli_text index v = cli_text index w ↔ v.enable = w.enable ∧ v.logsize = w.logsize := by
  have h10 : ∀ n, 10 ∉ decText n := not_mem_decText (by decide) (by decide)
  rw [cli_text_eq hlen hv, cli_text_eq (hcmd ▸ hlen) hw, hcmd, List.append_cancel_left_eq]
  constructor
  · intro h
    obtain ⟨hsize, htail⟩ := first_line (h10 _) (h10 _) h
    exact ⟨text_tail_injective index htail, decText_injective hsize⟩
  · rintro ⟨henable, hlogsize⟩
    rw [henable, hlogsize]

/-- What the entries leave in a variable that is not cleared. -/
def left_by {α : Type} (key : Bytes) (decode : Json → α) (old : α) (es : List Json) : α :=
  ((last_of key (es.flatMap Json.fields)).map decode).getD old

/-- What has become of `enable`. -/
def enable_after (es : List Json) : Bool := left_by (asc "enable") Json.enable false es

/-- What has become of `logsize`. -/
def logsize_after (es : List Json) : Int := left_by (asc "logsize") Json.logsize 0 es

theorem left_by_cons {α : Type} (key : Bytes) (decode : Json → α) (old : α) (e : Json) (es : List Json) :
    left_by key decode old (e :: es)
      = left_by key decode (((last_of key e.fields).map decode).getD old) es := by
  rw [left_by, left_by, List.flatMap_cons, last_of_append]
  cases last_of key (es.flatMap Json.fields) with
  | some value => rfl
  | none => rw [Option.none_or, Option.map_none, Option.getD_none]

/-- Every text stays where it is. -/
theorem texts_le (cli_do_cmd : List Bytes → Bytes → Int) (v : Vars) (index : Nat) (es : List Json)
    (texts : List Bytes) (done : List (Bytes × Int)) :
    texts <+: (exec_entries cli_do_cmd v index es texts done).texts := by
  induction es generalizing v index texts done with
  | nil => exact List.prefix_rfl
  | cons e es ih =>
    unfold exec_entries
    split
    · exact List.prefix_rfl
    · exact (List.prefix_append _ _).trans (ih _ _ _ _)

/-- A file is accepted when all of its entries can be read. -/
theorem ret_exec_entries (cli_do_cmd : List Bytes → Bytes → Int) (v : Vars) (index : Nat)
    (es : List Json) (texts : List Bytes) (done : List (Bytes × Int)) :
    (exec_entries cli_do_cmd v index es texts done).ret = 0 ↔ ∀ e ∈ es, Readable e := by
  induction es generalizing v index texts done with
  | nil => simp [exec_entries]
  | cons e es ih =>
    rw [exec_entries, List.forall_mem_cons, readable_iff v]
    cases hread : read_entry v e with
    | error ret =>
      have hret : ret ≠ 0 := by
        rcases error_of_foldlM hread with rfl | rfl <;> decide
      simp [hret]
    | ok v' => simp [ih]

/-- **The run over the entries.**  The text of each of them is made of what it says, and of
what the entries before it have left. -/
theorem texts_exec_entries (v : Vars) (index : Nat) (texts : List Bytes) (done : List (Bytes × Int))
    (hread : ∀ e ∈ es, Readable e) (hk : es[k]? = some e) :
    ∃ u u' : Vars, read_entry u e = .ok u' ∧
      u.enable = left_by (asc "enable") Json.enable v.enable (es.take k) ∧
      u.logsize = left_by (asc "logsize") Json.logsize v.logsize (es.take k) ∧
      (exec_entries cli_do_cmd v index es texts done).texts[texts.length + k]?
        = some (cli_text (index + k) u') := by
  induction es generalizing v index texts done k with
  | nil => cases hk
  | cons e' es ih =>
    obtain ⟨v', hv'⟩ := (readable_iff v).mp (hread e' List.mem_cons_self)
    rw [exec_entries, hv']
    dsimp only
    cases k with
    | zero =>
      obtain rfl : e' = e := Option.some.inj hk
      obtain ⟨t, ht⟩ := texts_le cli_do_cmd v' (index + 1) es
        (texts ++ [cli_text index v']) (service_exec_cli cli_do_cmd (cli_text index v') done)
      refine ⟨v, v', hv', rfl, rfl, ?_⟩
      rw [← ht]
      simp
    | succ k =>
      obtain ⟨u, u', hu, henable, hlogsize, htext⟩ :=
        ih v' (index + 1) (texts ++ [cli_text index v'])
          (service_exec_cli cli_do_cmd (cli_text index v') done)
          (fun e he => hread e (List.mem_cons_of_mem _ he)) hk
      obtain ⟨h1, -, h2⟩ := read_entry_ok hv'
      refine ⟨u, u', hu, ?_, ?_, ?_⟩
      · rw [henable, List.take_succ_cons, left_by_cons, h1]
      · rw [hlogsize, List.take_succ_cons, left_by_cons, h2]
      · rw [Nat.add_comm k 1, ← Nat.add_assoc, ← Nat.add_assoc]
        rw [List.length_append, List.length_singleton] at htext
        exact htext

/-- A value that is there, or what was there before. -/
theorem getD_eq_getD_iff {α : Type} (o : Option α) (x y : α) :
    o.getD x = o.getD y ↔ o.isSome = true ∨ x = y := by
  cases o <;> simp

theorem logsize_int32 (o : Option Json) {n : Int} (hn : ∃ m, n = int32 m) :
    ∃ m, (o.map Json.logsize).getD n = int32 m := by
  cases o with
  | none => exact hn
  | some value =>
    cases value with
    | integer m => exact ⟨m, rfl⟩
    | _ => exact ⟨0, rfl⟩

/-- **One entry, in two files.**  Its text is the same exactly when what it does not say has
been left the same by the entries before it. -/
theorem same_text_iff (cli_do_cmd cli_do_cmd' : List Bytes → Bytes → Int)
    (ha : (parse_json_and_exec cli_do_cmd true (some (.array a))).ret = 0)
    (hb : (parse_json_and_exec cli_do_cmd' true (some (.array b))).ret = 0)
    (hka : a[k]? = some e) (hkb : b[k]? = some e) :
    (parse_json_and_exec cli_do_cmd true (some (.array a))).texts[k]?
        = (parse_json_and_exec cli_do_cmd' true (some (.array b))).texts[k]? ↔
      ((last_of (asc "enable") e.fields).isSome = true ∨
          enable_after (a.take k) = enable_after (b.take k)) ∧
        ((last_of (asc "logsize") e.fields).isSome = true ∨
          logsize_after (a.take k) = logsize_after (b.take k)) := by
  have hreada := (ret_exec_entries cli_do_cmd .start 0 a [] []).mp ha
  have hreadb := (ret_exec_entries cli_do_cmd' .start 0 b [] []).mp hb
  obtain ⟨u, u', hu, hu1, hu2, htext⟩ := texts_exec_entries .start 0 [] [] hreada hka
  obtain ⟨w, w', hw, hw1, hw2, htext'⟩ :=
    texts_exec_entries .start 0 [] [] hreadb hkb
  rw [List.length_nil, Nat.zero_add] at htext htext'
  show (exec_entries cli_do_cmd .start 0 a [] []).texts[k]?
    = (exec_entries cli_do_cmd' .start 0 b [] []).texts[k]? ↔ _
  obtain ⟨hu3, hu4, hu5⟩ := read_entry_ok hu
  obtain ⟨hw3, hw4, hw5⟩ := read_entry_ok hw
  have hzero : ∃ m, (Vars.start.logsize : Int) = int32 m := ⟨0, by decide⟩
  rw [htext, htext', Option.some_inj,
    cli_text_inj (hu4.trans hw4.symm) (length_cmd hu)
      (hu5 ▸ logsize_int32 _ (hu2 ▸ logsize_int32 _ hzero))
      (hw5 ▸ logsize_int32 _ (hw2 ▸ logsize_int32 _ hzero)),
    hu3, hw3, hu5, hw5, getD_eq_getD_iff, getD_eq_getD_iff, Option.isSome_map, Option.isSome_map,
    hu1, hu2, hw1, hw2]
  exact Iff.rfl

/-- An app that is switched on. -/
def camera : Json := .object [(asc "cmd", .string (asc "camera")), (asc "enable", .boolean true)]

/-- An app of which only the command is given. -/
def logger : Json := .object [(asc "cmd", .string (asc "logger"))]

theorem same_text_iff_logger :
    (parse_json_and_exec (fun _ _ => 0) true (some (.array [camera, logger]))).texts[1]?
        = (parse_json_and_exec (fun _ _ => 0) true (some (.array [logger, logger]))).texts[1]? ↔
      ((last_of (asc "enable") logger.fields).isSome = true ∨
          enable_after [camera] = enable_after [logger]) ∧
        ((last_of (asc "logsize") logger.fields).isSome = true ∨
          logsize_after [camera] = logsize_after [logger]) :=
  same_text_iff _ _ rfl rfl rfl rfl

/-- Behind the camera, the logger is switched on as well. -/
theorem logger_not_on_its_own :
    ¬ ∀ (cli_do_cmd cli_do_cmd' : List Bytes → Bytes → Int) (a b : List Json) (k : Nat) (e : Json),
      (parse_json_and_exec cli_do_cmd true (some (.array a))).ret = 0 →
      (parse_json_and_exec cli_do_cmd' true (some (.array b))).ret = 0 →
      a[k]? = some e → b[k]? = some e →
      (parse_json_and_exec cli_do_cmd true (some (.array a))).texts[k]?
        = (parse_json_and_exec cli_do_cmd' true (some (.array b))).texts[k]? := by
  intro hall
  have htext : cli_text 1 ⟨[], true, asc "logger", 0⟩ = cli_text 1 ⟨[], false, asc "logger", 0⟩ :=
    Option.some.inj (hall (fun _ _ => 0) (fun _ _ => 0) [camera, logger] [logger, logger] 1 logger
      rfl rfl rfl rfl)
  have hzero : ∃ m, (0 : Int) = int32 m := ⟨0, by decide⟩
  have hlen : (asc "logger").length ≤ 127 := by decide
  have hsame : true = false ∧ (0 : Int) = 0 :=
    (cli_text_inj (v := ⟨[], true, asc "logger", 0⟩) (w := ⟨[], false, asc "logger", 0⟩) rfl hlen
      hzero hzero).mp htext
  exact Bool.noConfusion hsame.1

end Texts

end Boxing.Inpython
