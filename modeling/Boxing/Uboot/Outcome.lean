import Boxing.Uboot.WriteMulti

/-!
# What the return code says about flash

The writers of `uboot.c` answer 0 for success and -1 for failure, and print
`Revise successfully`.  Between the erase and the end they look at one answer only,
whether the device opens again: what `flash_erase` and `fwrite` return is dropped.

An `Outcome` says how each device call of one run ends and what it leaves in
flash.  `tellsTruth_iff` says for which outcomes the return code is right: those
that stop before the erase, those where erase, reopening and writing all work,
and besides these only those where the flash happens to hold the right block.
-/

namespace Boxing.Uboot

open C Device

/-- How the device calls of one run end.  A read that fails leaves `readLeft` in the
buffer; an erase that fails, whatever its code, leaves `eraseLeft` in flash; a
write leaves what it is given when the block has been erased and `fwrite` writes all
of it, and `writeLeft` otherwise. -/
structure Outcome where
  fopenRead : Bool
  readOk : Bool
  readLeft : EnvBlock
  eraseCode : Int
  eraseOk : Bool
  eraseLeft : EnvBlock
  fopenWrite : Bool
  fwriteOk : Bool
  writeLeft : EnvBlock

/-- What the buffer holds after the `fread`. -/
def Outcome.read (o : Outcome) (env : EnvBlock) : EnvBlock := if o.readOk then env else o.readLeft

/-- What flash holds after the `flash_erase`. -/
def Outcome.erase (o : Outcome) (env : EnvBlock) : EnvBlock :=
  if o.eraseOk then env.erased else o.eraseLeft

/-- What flash holds after the `fwrite`. -/
def Outcome.write (o : Outcome) (new : EnvBlock) : EnvBlock :=
  if o.eraseOk && o.fwriteOk then new else o.writeLeft

/-- The calls end as the outcome says; memory may be there or not. -/
def givenStep (o : Outcome) : EnvBlock → (c : EnvCall) → EnvRet c → EnvBlock → Prop
  | env, .fopenRead, r, env' => r = o.fopenRead ∧ env' = env
  | env, .malloc, _, env' => env' = env
  | env, .readBlock, r, env' => r = o.read env ∧ env' = env
  | env, .flashErase, r, env' => r = o.eraseCode ∧ env' = o.erase env
  | env, .fopenWrite, r, env' => r = o.fopenWrite ∧ env' = env
  | _, .writeBlock new, _, env' => env' = o.write new
  | env, c, r, env' => allOkStep env c r env'

def given (o : Outcome) : Sem EnvRet EnvBlock where
  step := givenStep o
  cut := fun _ _ _ => False

/-- A request to one of the two writers. -/
inductive Request
  | one (var value : Bytes)
  | multi (cfgbuf : Bytes)

/-- The middle of the writer. -/
def Request.build : Request → Bytes → Nat → Option Bytes
  | .one var value => build_single var value
  | .multi cfgbuf => build_multi cfgbuf

/-- The writer. -/
def Request.prog (abi : Abi) : Request → Prog EnvRet Int
  | .one var value => write_ubootcfg abi var value
  | .multi cfgbuf => write_multi_ubootcfg abi cfgbuf

/-- The newly built block, out of the one in the buffer. -/
def Request.new (abi : Abi) (q : Request) (buf : EnvBlock) : Option EnvBlock :=
  ((countLen buf.data).bind (q.build buf.data)).map fun data => ⟨crc_int abi data, data⟩

/-- **The return code tells the truth about flash**: 0 and the new block is there, or
-1 and the old one is. -/
def TellsTruth (abi : Abi) (o : Outcome) (q : Request) (env : EnvBlock) : Prop :=
  ∀ r env', Run (given o) (q.prog abi) env (some r) env' →
    (r = 0 → q.new abi (o.read env) = some env') ∧ (r = -1 → env' = env)

/-- The writer stops before it touches flash. -/
def Outcome.StopsEarly (abi : Abi) (o : Outcome) (env : EnvBlock) : Prop :=
  o.fopenRead = false ∨ crc_int abi (o.read env).data ≠ (o.read env).crc

/-- Once the erase is reached: erase, reopening and write all work, or what failed
has left the right block all the same. -/
def Outcome.EndsWell (o : Outcome) (env new : EnvBlock) : Prop :=
  if o.fopenWrite then (o.eraseOk = true ∧ o.fwriteOk = true) ∨ o.writeLeft = new
  else o.erase env = env

section

variable {abi : Abi} {o : Outcome} {q : Request} {env env' : EnvBlock} {r : Int}

theorem prog_eq_revise (abi : Abi) (q : Request) : q.prog abi = revise abi q.build := by
  cases q with
  | one var value => rfl
  | multi cfgbuf => rfl

/-- How a run ends: it stops before the erase, or it goes outside a buffer while it
builds the block, or it erases, and then the device opens again or not. -/
theorem run_cases (hr : Run (given o) (q.prog abi) env (some r) env') :
    (r = -1 ∧ env' = env) ∨
      (¬ o.StopsEarly abi env ∧
        (q.new abi (o.read env) = none ∨ ∃ new, q.new abi (o.read env) = some new ∧
          ((o.fopenWrite = false ∧ r = -1 ∧ env' = o.erase env) ∨
            (o.fopenWrite = true ∧ r = 0 ∧ env' = o.write new)))) := by
  rw [prog_eq_revise, revise] at hr
  simp only [Prog.ask_bind, Run.some_call, given, givenStep] at hr
  obtain ⟨fp, w₁, ⟨rfl, rfl⟩, hr₁⟩ := hr
  by_cases hfp : o.fopenRead = false
  · rw [if_pos hfp] at hr₁
    exact Or.inl (Run.some_pure.mp hr₁)
  rw [if_neg hfp] at hr₁
  simp only [Run.some_call] at hr₁
  obtain ⟨envptr, w₂, rfl, hr₂⟩ := hr₁
  by_cases hm : envptr = false
  · rw [if_pos hm] at hr₂
    exact Or.inl (Run.some_pure.mp hr₂)
  rw [if_neg hm] at hr₂
  simp only [Run.some_call] at hr₂
  obtain ⟨buf, w₃, ⟨rfl, rfl⟩, hr₃⟩ := hr₂
  by_cases hcrc : crc_int abi (o.read w₃).data ≠ (o.read w₃).crc
  · rw [if_pos hcrc] at hr₃
    exact Or.inl (Run.some_pure.mp hr₃)
  rw [if_neg hcrc] at hr₃
  have hgo : ¬ o.StopsEarly abi w₃ := not_or.mpr ⟨hfp, hcrc⟩
  cases hlen : countLen (o.read w₃).data with
  | none => exact Or.inr ⟨hgo, Or.inl (by rw [Request.new, hlen]; rfl)⟩
  | some datalen =>
    rw [hlen] at hr₃
    simp only [Run.some_call] at hr₃
    obtain ⟨p, w₄, rfl, hr₄⟩ := hr₃
    by_cases hp : p = false
    · rw [if_pos hp] at hr₄
      exact Or.inl (Run.some_pure.mp hr₄)
    rw [if_neg hp] at hr₄
    refine Or.inr ⟨hgo, ?_⟩
    cases hbuild : q.build (o.read w₄).data datalen with
    | none => exact Or.inl (by rw [Request.new, hlen, Option.bind_some, hbuild]; rfl)
    | some data =>
      rw [hbuild] at hr₄
      simp only [Run.some_call] at hr₄
      obtain ⟨_, w₅, ⟨-, rfl⟩, fp, w₆, ⟨rfl, rfl⟩, hr₅⟩ := hr₄
      refine Or.inr ⟨⟨crc_int abi data, data⟩, ?_, ?_⟩
      · rw [Request.new, hlen, Option.bind_some, hbuild]
        rfl
      · by_cases hw : o.fopenWrite = false
        · rw [if_pos hw] at hr₅
          exact Or.inl ⟨hw, Run.some_pure.mp hr₅⟩
        · rw [if_neg hw] at hr₅
          simp only [Run.some_call] at hr₅
          obtain ⟨_, w₇, rfl, hr₆⟩ := hr₅
          exact Or.inr ⟨by simpa using hw, Run.some_pure.mp hr₆⟩

/-- With memory there, a run that does not stop early comes to its end. -/
theorem run_ends {new : EnvBlock} (hgo : ¬ o.StopsEarly abi env)
    (hnew : q.new abi (o.read env) = some new) :
    Run (given o) (q.prog abi) env
      (some (if o.fopenWrite then 0 else -1)) (if o.fopenWrite then o.write new else o.erase env) := by
  obtain ⟨hfp, hcrc⟩ := not_or.mp hgo
  obtain ⟨data, hbind, rfl⟩ := Option.map_eq_some_iff.mp hnew
  obtain ⟨datalen, hlen, hbuild⟩ := Option.bind_eq_some_iff.mp hbind
  rw [not_not] at hcrc
  rw [prog_eq_revise]
  cases hw : o.fopenWrite with
  | false =>
    simp [revise, Run.some_call, Run.some_pure, given, givenStep, hfp, hcrc, hlen, hbuild, hw]
  | true =>
    simp [revise, Run.some_call, Run.some_pure, given, givenStep, hfp, hcrc, hlen, hbuild, hw]

/-- Outside its buffers it may end in any way. -/
theorem run_ends_none (hgo : ¬ o.StopsEarly abi env) (hnew : q.new abi (o.read env) = none) :
    Run (given o) (q.prog abi) env (some r) env' := by
  obtain ⟨hfp, hcrc⟩ := not_or.mp hgo
  rw [not_not] at hcrc
  have hu : Run (given o) (askEnv .undefined) env (some r) env' :=
    .call (show givenStep o env .undefined r env' from trivial) (.ret r env')
  rw [prog_eq_revise]
  rw [Request.new, Option.map_eq_none_iff] at hnew
  cases hlen : countLen (o.read env).data with
  | none =>
    have hrun := Or.inr (a := Run (given o) (.pure (-1)) env (some r) env') hu
    simpa [revise, Run.some_call, given, givenStep, hfp, hcrc, hlen] using hrun
  | some datalen =>
    rw [hlen, Option.bind_some] at hnew
    have hrun := Or.inr (a := Run (given o) (.pure (-1)) env (some r) env') hu
    simpa [revise, Run.some_call, given, givenStep, hfp, hcrc, hlen, hnew] using hrun

/-- Ending well is ending with the right block: the new one where the device opens again,
the old one where it does not. -/
theorem endsWell_iff {new : EnvBlock} :
    o.EndsWell env new ↔ if o.fopenWrite then o.write new = new else o.erase env = env := by
  unfold Outcome.EndsWell Outcome.write
  cases o.fopenWrite with
  | false => exact Iff.rfl
  | true =>
    rw [if_pos rfl, if_pos rfl, ← Bool.and_eq_true]
    by_cases hok : (o.eraseOk && o.fwriteOk) = true
    · rw [if_pos hok]
      exact iff_of_true (Or.inl hok) rfl
    · rw [if_neg hok]
      exact or_iff_right hok

/-- A run that could build the new block tells the truth where it ends well. -/
theorem truth_of_endsWell {new : EnvBlock} (hwell : o.EndsWell env new)
    (hend : (o.fopenWrite = false ∧ r = -1 ∧ env' = o.erase env) ∨
      (o.fopenWrite = true ∧ r = 0 ∧ env' = o.write new)) :
    (r = 0 → new = env') ∧ (r = -1 → env' = env) := by
  rw [endsWell_iff] at hwell
  rcases hend with ⟨hw, rfl, rfl⟩ | ⟨hw, rfl, rfl⟩
  · rw [hw] at hwell
    exact ⟨fun h0 => absurd h0 (by decide), fun _ => hwell⟩
  · rw [hw, if_pos rfl] at hwell
    exact ⟨fun _ => hwell.symm, fun h0 => absurd h0 (by decide)⟩

/-- **When the return code tells the truth.**  For every block, request and outcome
of the device calls: exactly when the run stops before the erase, or the new block
could be built and erase, reopening and write all work, or the flash holds the
right block although they did not. -/
theorem tellsTruth_iff :
    TellsTruth abi o q env ↔
      o.StopsEarly abi env ∨
        ∃ new, q.new abi (o.read env) = some new ∧ o.EndsWell env new := by
  constructor
  · intro h
    by_contra hno
    obtain ⟨hgo, hnot⟩ := not_or.mp hno
    cases hnew : q.new abi (o.read env) with
    | none =>
      -- any block can be found after -1, so also another one
      obtain ⟨-, hold⟩ := h (-1) ⟨env.crc + 1, env.data⟩ (run_ends_none hgo hnew)
      have hcrc := congrArg EnvBlock.crc (hold rfl)
      simp at hcrc
    | some new =>
      apply hnot
      refine ⟨new, hnew, endsWell_iff.mpr ?_⟩
      have hrun := h _ _ (run_ends hgo hnew)
      cases hw : o.fopenWrite with
      | false =>
        rw [hw] at hrun
        exact hrun.2 rfl
      | true =>
        rw [hw, hnew] at hrun
        exact (Option.some.inj (hrun.1 rfl)).symm
  · intro h r env' hr
    rcases run_cases hr with ⟨rfl, rfl⟩ | ⟨hgo, hend⟩
    · exact ⟨fun h0 => absurd h0 (by decide), fun _ => rfl⟩
    · obtain ⟨new, hnew, hwell⟩ := h.resolve_left hgo
      rw [hnew] at hend ⊢
      rcases hend with hnone | ⟨new', hsome, hend⟩
      · cases hnone
      · obtain rfl := Option.some.inj hsome
        obtain ⟨h0, h1⟩ := truth_of_endsWell hwell hend
        exact ⟨fun hr => congrArg some (h0 hr), h1⟩

end

section Blocks

variable {abi : Abi} {n : Nat} {es : List Bytes} {var value : Bytes}

/-- The block that `write_ubootcfg` builds out of a well formed one. -/
theorem new_listBlock (hes : Entries es) (h : (pack es).length < n)
    (h' : (pack (setOne es var value)).length < n) :
    (Request.one var value).new abi (listBlock abi n es)
      = some (listBlock abi n (setOne es var value)) := by
  have hfit : (pack (keptBy var es ++ [entry var value])).length
      ≤ (pack es ++ 0 :: List.replicate (n - (pack es).length - 1) 0).length := by
    rw [← padded_eq h, length_padded h.le]
    exact h'.le
  have hbuild := build_single_pack hes hfit
  rw [← padded_eq h] at hbuild
  rw [Request.new, listBlock_data, countLen_padded hes h, Option.bind_some, Request.build, hbuild,
    Option.map_some]
  show some (sealed abi (written es _ var value)) = _
  rw [written_padded h]
  rfl

theorem erased_listBlock_ne (h : 0 < n) :
    (listBlock abi n []).erased ≠ listBlock abi n [] := by
  intro he
  have hdata := congrArg EnvBlock.data he
  rw [EnvBlock.erased, listBlock_data, pack_nil, padded_nil, List.length_replicate] at hdata
  have hhead := congrArg List.head? hdata
  rw [List.head?_replicate, List.head?_replicate, if_neg (by omega), if_neg (by omega)] at hhead
  exact absurd hhead (by decide)

end Blocks

/-- Everything works but the second opening. -/
def noReopen : Outcome where
  fopenRead := true
  readOk := true
  readLeft := ⟨0, []⟩
  eraseCode := 0
  eraseOk := true
  eraseLeft := ⟨0, []⟩
  fopenWrite := false
  fwriteOk := true
  writeLeft := ⟨0, []⟩

/-- The erase works and the device does not open again: -1, and the block is gone. -/
theorem reopen_fails_block_gone :
    ¬ ∀ (abi : Abi) (o : Outcome) (q : Request) (env : EnvBlock), TellsTruth abi o q env := by
  intro h
  have hnew : (Request.one (asc "a") (asc "1")).new ⟨true, false⟩
      (listBlock ⟨true, false⟩ 65532 []) = some _ :=
    new_listBlock entries_nil (by decide) (by decide)
  have hgo : ¬ noReopen.StopsEarly ⟨true, false⟩ (listBlock ⟨true, false⟩ 65532 []) :=
    not_or.mpr ⟨by decide, not_not.mpr listBlock_crc⟩
  have hold : noReopen.erase (listBlock ⟨true, false⟩ 65532 []) = listBlock ⟨true, false⟩ 65532 [] :=
    (h _ _ _ _ _ _ (run_ends hgo hnew)).2 rfl
  exact erased_listBlock_ne (by decide) hold

end Boxing.Uboot
