import Boxing.Inpython.Start

/-!
# All or nothing

`parse_json_and_exec` carries out the commands of an entry before it looks at the next one.
So a bad entry ends the loop behind the commands of all the good ones before it, and these
are not taken back.

A command that fails ends its own text only.  `service_exec_cli` does not say so, and the
next text is carried out as if nothing had happened.

`all_or_nothing_iff` says which files are applied as a whole: those that are bad from the
first entry on, and those with all entries good and all commands successful.
-/

namespace Boxing.Inpython

open C

section Commands

/- What `cli_do_cmd` returns for a command, behind those that have been given before. -/
variable (cli_do_cmd : List Bytes → Bytes → Int)

/-- The commands all succeed, one after the other, behind those that have been given. -/
def Succeed : List Bytes → List Bytes → Prop
  | _, [] => True
  | given, pcmd :: rest => cli_do_cmd given pcmd = ERR_OK ∧ Succeed (given ++ [pcmd]) rest

/-- The commands of the entries, and of the end of the file. -/
def file_commands : Vars → Nat → List Json → List Bytes
  | _, _, [] => commands (asc "python enable") ++ commands (asc "copy running-config startup-config")
  | v, index, e :: es =>
    match read_entry v e with
    | .error _ => []
    | .ok v' => commands (cli_text index v') ++ file_commands v' (index + 1) es

/-- Nothing has been carried out if there is an error; and if there is none, every command
has succeeded, with that which saves the configuration among them. -/
structure AllOrNothing (r : Outcome) : Prop where
  nothing : r.ret ≠ 0 → r.done = []
  all : r.ret = 0 → (∀ c ∈ r.done, c.2 = ERR_OK) ∧
    (asc "copy running-config startup-config", ERR_OK) ∈ r.done

variable {cli_do_cmd} {cmds cmds' given : List Bytes} {done : List (Bytes × Int)} {v v' : Vars}
  {index : Nat} {e : Json} {es : List Json} {texts : List Bytes} {text : Bytes}

theorem succeed_append : Succeed cli_do_cmd given (cmds ++ cmds') ↔
    Succeed cli_do_cmd given cmds ∧ Succeed cli_do_cmd (given ++ cmds) cmds' := by
  induction cmds generalizing given with
  | nil => simp [Succeed]
  | cons pcmd cmds ih => simp [Succeed, ih, and_assoc]

/-- **One text.**  All that has been carried out is successful exactly when it was before, and
the commands of the text succeed. -/
theorem forall_exec_commands : (∀ c ∈ exec_commands cli_do_cmd cmds done, c.2 = ERR_OK) ↔
    (∀ c ∈ done, c.2 = ERR_OK) ∧ Succeed cli_do_cmd (done.map Prod.fst) cmds := by
  induction cmds generalizing done with
  | nil => simp [exec_commands, Succeed]
  | cons pcmd cmds ih =>
    rw [exec_commands, Succeed]
    by_cases hret : cli_do_cmd (done.map Prod.fst) pcmd = ERR_OK
    · rw [if_neg (not_not.mpr hret), ih, List.map_append, List.forall_mem_append,
        List.forall_mem_singleton]
      simp only [hret, true_and, and_true, List.map_cons, List.map_nil]
    · simp only [ne_eq, hret, not_false_eq_true, if_true, false_and, and_false, iff_false]
      intro hall
      exact hret (hall _ (List.mem_append_right _ List.mem_cons_self))

theorem exec_commands_eq (h : Succeed cli_do_cmd (done.map Prod.fst) cmds) :
    exec_commands cli_do_cmd cmds done = done ++ cmds.map fun pcmd => (pcmd, ERR_OK) := by
  induction cmds generalizing done with
  | nil => rw [exec_commands, List.map_nil, List.append_nil]
  | cons pcmd cmds ih =>
    obtain ⟨hret, hrest⟩ := h
    rw [exec_commands, hret, if_neg (by decide), ih (by rw [List.map_append]; exact hrest),
      List.map_cons, List.append_assoc, List.singleton_append]

theorem map_exec_commands (h : Succeed cli_do_cmd (done.map Prod.fst) cmds) :
    (exec_commands cli_do_cmd cmds done).map Prod.fst = done.map Prod.fst ++ cmds := by
  rw [exec_commands_eq h, List.map_append, List.map_map]
  exact congrArg (done.map Prod.fst ++ ·) (List.map_id cmds)

/-- **Two texts**, one after the other. -/
theorem forall_exec_append : (∀ c ∈ exec_commands cli_do_cmd cmds done, c.2 = ERR_OK) ∧
      Succeed cli_do_cmd ((exec_commands cli_do_cmd cmds done).map Prod.fst) cmds' ↔
    (∀ c ∈ done, c.2 = ERR_OK) ∧ Succeed cli_do_cmd (done.map Prod.fst) (cmds ++ cmds') := by
  rw [forall_exec_commands, succeed_append, and_assoc]
  refine and_congr_right fun _ => and_congr_right fun h => ?_
  rw [map_exec_commands h]

/-- **The whole file**, if all of it can be read. -/
theorem forall_exec_entries (v : Vars) (index : Nat) (texts : List Bytes) (done : List (Bytes × Int))
    (hread : ∀ e ∈ es, Readable e) :
    (∀ c ∈ (exec_entries cli_do_cmd v index es texts done).done, c.2 = ERR_OK) ↔
      (∀ c ∈ done, c.2 = ERR_OK) ∧
        Succeed cli_do_cmd (done.map Prod.fst) (file_commands v index es) := by
  induction es generalizing v index texts done with
  | nil =>
    rw [exec_entries, file_commands]
    exact forall_exec_commands.trans forall_exec_append
  | cons e es ih =>
    obtain ⟨v', hv'⟩ := (readable_iff v).mp (hread e List.mem_cons_self)
    rw [exec_entries, file_commands, hv']
    exact (ih v' _ _ _ fun e he => hread e (List.mem_cons_of_mem _ he)).trans forall_exec_append

/-- What has been carried out stays so. -/
theorem exec_commands_le (cli_do_cmd : List Bytes → Bytes → Int) (cmds : List Bytes)
    (done : List (Bytes × Int)) : done <+: exec_commands cli_do_cmd cmds done := by
  induction cmds generalizing done with
  | nil => exact List.prefix_rfl
  | cons pcmd cmds ih =>
    unfold exec_commands
    dsimp only
    split
    · exact List.prefix_append _ _
    · exact (List.prefix_append _ _).trans (ih _)

theorem exec_commands_ne_nil (hcmds : cmds ≠ []) : exec_commands cli_do_cmd cmds done ≠ [] := by
  cases cmds with
  | nil => exact absurd rfl hcmds
  | cons pcmd cmds =>
    unfold exec_commands
    dsimp only
    split
    · exact List.append_ne_nil_of_right_ne_nil _ (List.cons_ne_nil _ _)
    · intro h
      have hle := exec_commands_le cli_do_cmd cmds (done ++ [(pcmd, cli_do_cmd (done.map Prod.fst) pcmd)])
      rw [h] at hle
      exact List.append_ne_nil_of_right_ne_nil _ (List.cons_ne_nil _ _) (List.prefix_nil.mp hle)

/-- What has been carried out before a bad entry is not taken back. -/
theorem exec_entries_ne_nil (v : Vars) (index : Nat) (es : List Json) (texts : List Bytes)
    (hdone : done ≠ []) : (exec_entries cli_do_cmd v index es texts done).done ≠ [] := by
  have hstays : ∀ {cmds : List Bytes} {done : List (Bytes × Int)}, done ≠ [] →
      exec_commands cli_do_cmd cmds done ≠ [] := fun hdone h =>
    hdone (List.prefix_nil.mp (h ▸ exec_commands_le cli_do_cmd _ _))
  induction es generalizing v index texts done with
  | nil => exact hstays (hstays hdone)
  | cons e es ih =>
    unfold exec_entries
    split
    · exact hdone
    · exact ih _ _ _ (hstays hdone)

/-- A text that does not begin with the end of a line has a command in it. -/
theorem commands_ne_nil {c : UInt8} {text : Bytes} (hc : ¬ (c = 13 ∨ c = 10)) :
    commands (c :: text) ≠ [] := by
  rw [commands, List.splitOnP_cons_eq_if_modifyHead, if_neg (by simpa using hc)]
  obtain ⟨word, words, hwords⟩ := List.exists_cons_of_ne_nil
    (List.splitOnP_ne_nil (fun c => decide (c = 13) || decide (c = 10)) text)
  rw [hwords, List.modifyHead_cons, List.filter_cons_of_pos (by simp)]
  exact List.cons_ne_nil _ _

theorem commands_cli_text (index : Nat) (v : Vars) : commands (cli_text index v) ≠ [] :=
  commands_ne_nil (c := 112) (by decide)

/-- The configuration is saved at the end. -/
theorem exists_copy (cli_do_cmd : List Bytes → Bytes → Int) (v : Vars) (index : Nat)
    (texts : List Bytes) (done : List (Bytes × Int)) (hread : ∀ e ∈ es, Readable e) :
    ∃ done', (exec_entries cli_do_cmd v index es texts done).done
      = exec_commands cli_do_cmd [asc "copy running-config startup-config"] done' := by
  induction es generalizing v index texts done with
  | nil => exact ⟨_, rfl⟩
  | cons e es ih =>
    obtain ⟨v', hv'⟩ := (readable_iff v).mp (hread e List.mem_cons_self)
    rw [exec_entries, hv']
    exact ih v' _ _ _ fun e he => hread e (List.mem_cons_of_mem _ he)

theorem mem_copy (hread : ∀ e ∈ es, Readable e)
    (h : ∀ c ∈ (exec_entries cli_do_cmd v index es texts done).done, c.2 = ERR_OK) :
    (asc "copy running-config startup-config", ERR_OK)
      ∈ (exec_entries cli_do_cmd v index es texts done).done := by
  obtain ⟨done', hdone⟩ := exists_copy cli_do_cmd v index texts done hread
  rw [hdone] at h ⊢
  rw [exec_commands_eq (forall_exec_commands.mp h).2]
  exact List.mem_append_right _ List.mem_cons_self

/-- A file with a bad entry has no effect exactly when the first one is bad. -/
theorem done_eq_nil_iff (hbad : ¬ ∀ e ∈ es, Readable e) :
    (exec_entries cli_do_cmd .start 0 es [] []).done = []
      ↔ ∃ e, es.head? = some e ∧ ¬ Readable e := by
  cases es with
  | nil => exact absurd (List.forall_mem_nil _) hbad
  | cons e es =>
    rw [exec_entries]
    cases hread : read_entry .start e with
    | error ret =>
      refine iff_of_true rfl ⟨e, rfl, ?_⟩
      rintro ⟨v, hv⟩
      rw [hread] at hv
      cases hv
    | ok v =>
      refine iff_of_false ?_ ?_
      · exact exec_entries_ne_nil v 1 es _ (exec_commands_ne_nil (commands_cli_text 0 v))
      · rintro ⟨e', he', hnot⟩
        exact hnot (Option.some.inj he' ▸ ⟨v, hread⟩)

/-- An array. -/
theorem all_or_nothing_exec_entries : AllOrNothing (exec_entries cli_do_cmd .start 0 es [] []) ↔
    (∃ e, es.head? = some e ∧ ¬ Readable e) ∨
      (∀ e ∈ es, Readable e) ∧ Succeed cli_do_cmd [] (file_commands .start 0 es) := by
  have hret := ret_exec_entries cli_do_cmd .start 0 es [] []
  by_cases hread : ∀ e ∈ es, Readable e
  · have hgood : ¬ ∃ e, es.head? = some e ∧ ¬ Readable e := fun ⟨e, he, hnot⟩ =>
      hnot (hread e (List.mem_of_head? he))
    have hall : (∀ c ∈ (exec_entries cli_do_cmd .start 0 es [] []).done, c.2 = ERR_OK) ↔
        Succeed cli_do_cmd [] (file_commands .start 0 es) :=
      (forall_exec_entries .start 0 [] [] hread).trans
        (and_iff_right (List.forall_mem_nil _))
    rw [or_iff_right hgood, and_iff_right hread, ← hall]
    exact ⟨fun h => (h.all (hret.mpr hread)).1,
      fun h => ⟨fun hne => absurd (hret.mpr hread) hne, fun _ => ⟨h, mem_copy hread h⟩⟩⟩
  · have hne := mt hret.mp hread
    rw [or_iff_left fun h => hread h.1, ← done_eq_nil_iff hread]
    exact ⟨fun h => h.nothing hne, fun h => ⟨fun _ => h, fun h0 => absurd h0 hne⟩⟩

/-- **Applying a start file.**  It is all or nothing exactly when the file is no array of
entries, its first entry is bad, or all its entries are good and all their commands succeed. -/
theorem all_or_nothing_iff (cli_do_cmd : List Bytes → Bytes → Int) (fp : Bool) (obj : Option Json) :
    AllOrNothing (parse_json_and_exec cli_do_cmd fp obj) ↔
      ∀ es, obj = some (.array es) → fp = true →
        (∃ e, es.head? = some e ∧ ¬ Readable e) ∨
          (∀ e ∈ es, Readable e) ∧ Succeed cli_do_cmd [] (file_commands .start 0 es) := by
  have hnothing : ∀ ret : Int, ret ≠ 0 → AllOrNothing ⟨ret, [], []⟩ := fun ret hret =>
    ⟨fun _ => rfl, fun h => absurd h hret⟩
  unfold parse_json_and_exec
  cases obj with
  | none => exact iff_of_true (hnothing _ (by decide)) fun es h => by cases h
  | some obj =>
    dsimp only
    cases fp with
    | false => exact iff_of_true (hnothing _ (by decide)) fun es _ h => Bool.noConfusion h
    | true =>
      rw [if_neg (by decide)]
      cases obj with
      | array es =>
        refine all_or_nothing_exec_entries.trans ⟨fun h es' hes _ => ?_, fun h => h es rfl rfl⟩
        cases hes
        exact h
      | _ => exact iff_of_true (hnothing _ (by decide)) fun es h => by cases h

/-- Behind a good entry, a bad one comes too late. -/
theorem applied_and_refused :
    ¬ ∀ (cli_do_cmd : List Bytes → Bytes → Int) (fp : Bool) (obj : Option Json),
      AllOrNothing (parse_json_and_exec cli_do_cmd fp obj) := by
  intro hall
  have hbad : ¬ ∀ e ∈ [camera, .object [(asc "logsize", .integer 71)]], Readable e := by
    intro hread
    obtain ⟨v, hv⟩ := hread _ (List.mem_cons_of_mem _ List.mem_cons_self)
    cases hv
  have hdone := (hall (fun _ _ => 0) true
    (some (.array [camera, .object [(asc "logsize", .integer 71)]]))).nothing (by decide)
  obtain ⟨e, he, hnot⟩ := (done_eq_nil_iff hbad).mp hdone
  exact hnot (Option.some.inj he ▸ ⟨_, rfl⟩)

end Commands

end Boxing.Inpython
