import Boxing.Intools.Lists

/-!
# The dialogue on lists

The prompts are written over a `put`.  With `putList` each appends one entry to a
list, and `Follows` says what that has to do with the code: as long as the list at
the end fits, the same steps with `putMem` leave the data area that holds it.  The
relation is closed under sequence and repetition, so it is enough to see it for one
prompt.

`run_intools` puts the session together.  What can go wrong on the way is an answer
buffer that is unset or empty when a prompt looks at it; `Answered` counts off the
prompts on the text at the terminal and says that this does not happen.
-/

namespace Boxing.Intools

open C Device Uboot

/-! ### From lists to memory -/

/-- `put` on a list of entries. -/
def putList (out : List Bytes) (name value : Bytes) : Option (List Bytes) :=
  some (out ++ [name ++ value])

/-- The dialogue with the list laid out in a data area of `n` bytes. -/
def Talk.toMem (n : Nat) (t : Talk (List Bytes)) : Talk (Bytes × Nat) :=
  ⟨(padded n (pack t.out), (pack t.out).length), t.stdin, t.tmpbuf, t.buf⟩

/-- The step `mem` does in memory what `list` does on lists, while the list fits. -/
def Follows (n : Nat) (mem : Talk (Bytes × Nat) → Option (Talk (Bytes × Nat)))
    (list : Talk (List Bytes) → Option (Talk (List Bytes))) : Prop :=
  ∀ t t', list t = some t' →
    (pack t.out).length ≤ (pack t'.out).length ∧
      ((pack t'.out).length ≤ n → mem (t.toMem n) = some (t'.toMem n))

section Follows

variable {n : Nat}

theorem Follows.comp {m₁ m₂ : Talk (Bytes × Nat) → Option (Talk (Bytes × Nat))}
    {l₁ l₂ : Talk (List Bytes) → Option (Talk (List Bytes))} (h₁ : Follows n m₁ l₁)
    (h₂ : Follows n m₂ l₂) :
    Follows n (fun t => (m₁ t).bind m₂) (fun t => (l₁ t).bind l₂) := by
  intro t t' h
  obtain ⟨t₁, ht₁, ht'⟩ := Option.bind_eq_some_iff.mp h
  obtain ⟨hle₁, hm₁⟩ := h₁ t t₁ ht₁
  obtain ⟨hle₂, hm₂⟩ := h₂ t₁ t' ht'
  refine ⟨hle₁.trans hle₂, fun hn => ?_⟩
  show (m₁ (t.toMem n)).bind m₂ = _
  rw [hm₁ (hle₂.trans hn), Option.bind_some, hm₂ hn]

theorem Follows.foldlM {m : Field → Talk (Bytes × Nat) → Option (Talk (Bytes × Nat))}
    {l : Field → Talk (List Bytes) → Option (Talk (List Bytes))}
    (h : ∀ f, Follows n (m f) (l f)) (fs : List Field) :
    Follows n (fun t => fs.foldlM (fun t f => m f t) t)
      (fun t => fs.foldlM (fun t f => l f t) t) := by
  induction fs with
  | nil =>
    intro t t' ht
    obtain rfl := Option.some.inj ht
    exact ⟨le_refl _, fun _ => rfl⟩
  | cons f fs ih => exact (h f).comp ih

theorem putMem_pack {es : List Bytes} {name value : Bytes}
    (h : (pack (es ++ [name ++ value])).length ≤ n) :
    putMem (padded n (pack es), (pack es).length) name value
      = some (padded n (pack (es ++ [name ++ value])), (pack (es ++ [name ++ value])).length) := by
  rw [length_pack_concat, List.length_append] at h
  -- the NUL of the name is overwritten by the value
  have hname : strcpy (padded n (pack es)) (pack es).length name
      = some (padded n (pack es ++ name)) :=
    store_padded name [0] (by simp) (by rw [List.length_singleton]; omega)
  have hvalue : strcpy (padded n (pack es ++ name)) ((pack es).length + name.length) value
      = some (padded n (pack (es ++ [name ++ value]))) := by
    have hlen : (pack es ++ name).length + (value ++ [(0 : UInt8)]).length + 0 ≤ n := by
      simp only [List.length_append, List.length_singleton]
      omega
    have := store_padded (s := pack es ++ name) (value ++ [0]) [] (by simp) hlen
    rw [List.append_nil, List.length_append, List.append_assoc, ← List.append_assoc name] at this
    rw [strcpy, this, pack_concat]
  rw [putMem]
  simp only
  rw [hname, Option.bind_some, hvalue, Option.map_some, length_pack_concat, List.length_append,
    Nat.add_assoc (pack es).length]

theorem hear_toMem (f : Field) (t : Talk (List Bytes)) :
    hear f (t.toMem n) = (hear f t).map (Talk.toMem n) := by
  rw [hear, hear, Talk.toMem]
  simp only
  cases (fgets t.tmpbuf t.stdin).1 with
  | none => rfl
  | some s =>
    rw [Option.bind_some, Option.bind_some]
    split
    · rfl
    · split
      · rfl
      · rfl

theorem hear_out {σ : Type} {f : Field} {t t' : Talk σ} (h : hear f t = some t') :
    t'.out = t.out := by
  rw [hear] at h
  obtain ⟨s, -, hs⟩ := Option.bind_eq_some_iff.mp h
  split at hs
  · rw [← Option.some.inj hs]
  · split at hs
    · cases hs
    · rw [← Option.some.inj hs]

theorem hear_follows (f : Field) : Follows n (hear f) (hear f) := by
  intro t t' h
  rw [hear_out h, hear_toMem, h]
  exact ⟨le_refl _, fun _ => rfl⟩

theorem tell_follows (f : Field) : Follows n (tell putMem f) (tell putList f) := by
  intro t t' h
  obtain rfl : { t with out := t.out ++ [f.name ++ t.buf f] } = t' := Option.some.inj h
  refine ⟨by simp only; rw [length_pack_concat]; omega, fun hn => ?_⟩
  rw [tell, Talk.toMem]
  simp only
  rw [putMem_pack hn]
  rfl

theorem asks_follows (fs : List Field) : Follows n (asks putMem fs) (asks putList fs) :=
  Follows.foldlM (fun f => (hear_follows f).comp (tell_follows f)) fs

theorem tells_follows (fs : List Field) : Follows n (tells putMem fs) (tells putList fs) :=
  Follows.foldlM tell_follows fs

theorem board_follows (v : Variant) :
    Follows n (board_prompts putMem v) (board_prompts putList v) := by
  intro t t' h
  rw [board_prompts] at h ⊢
  rw [show (t.toMem n).buf = t.buf from rfl]
  by_cases hv : v = .IG9
  · rw [if_pos hv] at h ⊢
    by_cases hr : realtime t.buf = true
    · rw [if_pos hr] at h ⊢
      exact asks_follows _ t t' h
    · rw [if_neg hr] at h ⊢
      exact tells_follows _ t t' h
  · rw [if_neg hv] at h ⊢
    exact asks_follows _ t t' h

end Follows

/-! ### Answers for every prompt -/

/-- What a prompt leaves in `tmpbuf`. -/
def leftover (s : Bytes) : Bytes := if s = asc "\n" then s else s.dropLast

/-- In the next `n` prompts `tmpbuf` is set and not empty. -/
def Answered : Nat → Option Bytes → Bytes → Prop
  | 0, _, _ => True
  | n + 1, tmpbuf, stdin =>
    ∃ s, (fgets tmpbuf stdin).1 = some s ∧ s ≠ [] ∧
      Answered n (some (leftover s)) (fgets tmpbuf stdin).2

/-- No NUL in the entries, the fields and the answer buffer. -/
structure Talk.Clean (t : Talk (List Bytes)) : Prop where
  out : Entries t.out
  buf : ∀ f, 0 ∉ t.buf f
  tmpbuf : ∀ s, t.tmpbuf = some s → 0 ∉ s

section Answered

variable {t : Talk (List Bytes)}

theorem zero_not_mem_fgets {tmpbuf : Option Bytes} {stdin s : Bytes}
    (h : ∀ s, tmpbuf = some s → 0 ∉ s) (hs : (fgets tmpbuf stdin).1 = some s) : 0 ∉ s := by
  rw [fgets] at hs
  split at hs
  · exact h s hs
  · rw [← Option.some.inj hs]
    exact zero_not_mem_str _

theorem name_ne_nil (f : Field) : f.name ≠ [] := by cases f <;> decide

theorem zero_not_mem_name (f : Field) : 0 ∉ f.name := by cases f <;> decide

theorem clean_tell (h : t.Clean) (f : Field) :
    ({ t with out := t.out ++ [f.name ++ t.buf f] } : Talk (List Bytes)).Clean := by
  refine ⟨h.out.append (entries_singleton ?_ ?_), h.buf, h.tmpbuf⟩
  · exact fun he => name_ne_nil f (List.append_eq_nil_iff.mp he).1
  · rw [List.mem_append, not_or]
    exact ⟨zero_not_mem_name f, h.buf f⟩

/-- One prompt with an answer. -/
theorem ask_answered (h : t.Clean) (f : Field) {k : Nat}
    (ha : Answered (k + 1) t.tmpbuf t.stdin) :
    ∃ t', ask putList f t = some t' ∧ t'.Clean ∧ Answered k t'.tmpbuf t'.stdin ∧
      t'.tmpbuf ≠ none ∧ ∀ g, g ≠ f → t'.buf g = t.buf g := by
  obtain ⟨s, hs, hne, hrest⟩ := ha
  have h0 := zero_not_mem_fgets h.tmpbuf hs
  by_cases hn : s = asc "\n"
  · -- an empty line keeps the old value
    have hhear : hear f t
        = some { t with stdin := (fgets t.tmpbuf t.stdin).2, tmpbuf := some s } := by
      rw [hear, hs, Option.bind_some, if_pos hn]
    have hclean : ({ t with stdin := (fgets t.tmpbuf t.stdin).2, tmpbuf := some s } :
        Talk (List Bytes)).Clean :=
      ⟨h.out, h.buf, fun x hx => by rw [← Option.some.inj hx]; exact h0⟩
    rw [leftover, if_pos hn] at hrest
    refine ⟨_, by rw [ask, hhear]; rfl, clean_tell hclean f, hrest, by simp, fun g _ => rfl⟩
  · have hhear : hear f t = some { t with
        stdin := (fgets t.tmpbuf t.stdin).2
        tmpbuf := some s.dropLast
        buf := Function.update t.buf f s.dropLast } := by
      rw [hear, hs, Option.bind_some, if_neg hn, if_neg hne]
    have hdrop : 0 ∉ s.dropLast := fun hm => h0 (List.dropLast_subset s hm)
    have hclean : ({ t with
        stdin := (fgets t.tmpbuf t.stdin).2
        tmpbuf := some s.dropLast
        buf := Function.update t.buf f s.dropLast } : Talk (List Bytes)).Clean := by
      refine ⟨h.out, fun g => ?_, fun x hx => by rw [← Option.some.inj hx]; exact hdrop⟩
      by_cases hg : g = f
      · subst hg
        simpa using hdrop
      · simp only [Function.update_of_ne hg]
        exact h.buf g
    rw [leftover, if_neg hn] at hrest
    exact ⟨_, by rw [ask, hhear]; rfl, clean_tell hclean f, hrest, by simp,
      fun g hg => Function.update_of_ne hg _ _⟩

theorem asks_answered : ∀ (fs : List Field) (k : Nat) (t : Talk (List Bytes)), t.Clean →
    Answered (fs.length + k) t.tmpbuf t.stdin →
    ∃ t', asks putList fs t = some t' ∧ t'.Clean ∧ Answered k t'.tmpbuf t'.stdin ∧
      (fs ≠ [] → t'.tmpbuf ≠ none) ∧ ∀ g, g ∉ fs → t'.buf g = t.buf g := by
  intro fs
  induction fs with
  | nil =>
    intro k t h ha
    rw [List.length_nil, Nat.zero_add] at ha
    exact ⟨t, rfl, h, ha, fun hne => absurd rfl hne, fun g _ => rfl⟩
  | cons f fs ih =>
    intro k t h ha
    rw [List.length_cons, Nat.add_right_comm] at ha
    obtain ⟨t₁, ht₁, hc₁, ha₁, hset, hbuf₁⟩ := ask_answered h f ha
    obtain ⟨t', ht', hc', ha', hset', hbuf'⟩ := ih k t₁ hc₁ ha₁
    refine ⟨t', ?_, hc', ha', fun _ => ?_, fun g hg => ?_⟩
    · rw [asks, List.foldlM_cons, ht₁]
      exact ht'
    · by_cases hfs : fs = []
      · subst hfs
        obtain rfl := Option.some.inj ht'
        exact hset
      · exact hset' hfs
    · rw [List.mem_cons, not_or] at hg
      rw [hbuf' g hg.2, hbuf₁ g hg.1]

theorem tells_clean : ∀ (fs : List Field) (t : Talk (List Bytes)), t.Clean →
    ∃ t', tells putList fs t = some t' ∧ t'.Clean ∧ t'.tmpbuf = t.tmpbuf ∧ t'.stdin = t.stdin := by
  intro fs
  induction fs with
  | nil => intro t h; exact ⟨t, rfl, h, rfl, rfl⟩
  | cons f fs ih =>
    intro t h
    obtain ⟨t', ht', hc', htmp, hstdin⟩ := ih _ (clean_tell h f)
    exact ⟨t', ht', hc', htmp, hstdin⟩

/-- How many of the board's own prompts there are. -/
def boardPrompts (v : Variant) (buf : Field → Bytes) : Nat :=
  if v = .IG9 then if realtime buf then 3 else 0 else 1 + if v = .VG9 then 1 else 0

theorem board_answered (v : Variant) {k : Nat} (h : t.Clean)
    (ha : Answered (boardPrompts v t.buf + k) t.tmpbuf t.stdin) :
    ∃ t', board_prompts putList v t = some t' ∧ t'.Clean ∧ Answered k t'.tmpbuf t'.stdin := by
  rw [boardPrompts] at ha
  rw [board_prompts]
  by_cases hv : v = .IG9
  · rw [if_pos hv] at ha ⊢
    by_cases hr : realtime t.buf = true
    · rw [if_pos hr] at ha ⊢
      obtain ⟨t', ht', hc', ha', -⟩ := asks_answered [.re_mac, .re1_mac, .re2_mac] k t h ha
      exact ⟨t', ht', hc', ha'⟩
    · rw [if_neg hr, Nat.zero_add] at ha
      rw [if_neg hr]
      obtain ⟨t', ht', hc', htmp, hstdin⟩ := tells_clean [.re_mac, .re1_mac, .re2_mac] t h
      exact ⟨t', ht', hc', by rw [htmp, hstdin]; exact ha⟩
  · rw [if_neg hv] at ha ⊢
    have hlen : ([Field.wlanmac] ++ if v = .VG9 then [Field.wlanmac_5g] else []).length
        = 1 + if v = .VG9 then 1 else 0 := by
      split
      · rfl
      · rfl
    rw [← hlen] at ha
    obtain ⟨t', ht', hc', ha', -⟩ := asks_answered _ k t h ha
    exact ⟨t', ht', hc', ha'⟩

end Answered

/-! ### The session -/

/-- The dialogue of a session on lists, after the fields were taken out. -/
def talk (v : Variant) (es : List Bytes) (stdin : Bytes) (mac : Option (Vector UInt8 6)) :
    Option (Talk (List Bytes)) :=
  (asks putList (firstFields v) ⟨(loaded v (cutList es)).1, stdin, none,
      (loaded v (cutList es)).2⟩).bind fun t =>
    (board_prompts putList v { t with
      buf := if v.factoryMac then Function.update t.buf .wlanmac (eeprom_get_wlanmac mac)
        else t.buf }).bind (asks putList lastFields)

/-- The prompts of a session. -/
def prompts (v : Variant) (es : List Bytes) : Nat :=
  (firstFields v).length + (boardPrompts v (loaded v (cutList es)).2 + lastFields.length)

section Session

variable {v : Variant} {es : List Bytes} {stdin : Bytes}

theorem zero_not_mem_initial (v : Variant) (f : Field) : 0 ∉ initial v f := by
  cases v <;> cases f <;> decide

theorem zero_not_mem_eeprom (mac : Option (Vector UInt8 6)) : 0 ∉ eeprom_get_wlanmac mac := by
  have hdigit : ∀ n < 16, (0 : UInt8) ≠ hexDigit n := by decide
  have hex : ∀ b : UInt8, 0 ∉ hex2 b := by
    intro b
    have hb : b.toNat < 256 := b.toNat_lt
    rw [hex2, List.mem_cons, not_or, List.mem_singleton]
    exact ⟨hdigit _ (by omega), hdigit _ (by omega)⟩
  cases mac with
  | none => decide
  | some mac =>
    have key : ∀ l : List UInt8, 0 ∉ (asc ":").intercalate (l.map hex2) := by
      intro l
      induction l with
      | nil => decide
      | cons b l ih =>
        by_cases hl : l = []
        · rw [hl, List.map_singleton, List.intercalate_singleton]
          exact hex b
        · rw [List.map_cons, List.intercalate_cons_of_ne_nil (by simpa using hl), List.mem_append,
            List.mem_append, not_or, not_or]
          exact ⟨⟨hex b, by decide⟩, ih⟩
    exact key _

theorem clean_loaded (hes : Entries es) : ∀ (st : List Bytes × (Field → Bytes)),
    Entries st.1 → (∀ f, 0 ∉ st.2 f) →
    Entries (es.foldl (loadStep v) st).1 ∧ ∀ f, 0 ∉ (es.foldl (loadStep v) st).2 f := by
  induction es with
  | nil => intro st h h'; exact ⟨h, h'⟩
  | cons e es ih =>
    intro st h h'
    obtain ⟨hne, h0⟩ := hes e (by simp)
    have hstep : Entries (loadStep v st e).1 ∧ ∀ f, 0 ∉ (loadStep v st e).2 f := by
      rw [loadStep]
      split
      · rename_i f _
        refine ⟨h, fun g => ?_⟩
        by_cases hg : g = f
        · subst hg
          simp only [Function.update_self]
          exact fun hm => h0 (List.mem_of_mem_drop hm)
        · simp only [Function.update_of_ne hg]
          exact h' g
      · exact ⟨h.append (entries_singleton hne h0), h'⟩
    exact ih hes.tail _ hstep.1 hstep.2

/-- The address from the factory partition keeps the dialogue clean. -/
theorem Talk.Clean.withMac {t : Talk (List Bytes)} (h : t.Clean) (v : Variant)
    (mac : Option (Vector UInt8 6)) :
    ({ t with
      buf := if v.factoryMac then Function.update t.buf .wlanmac (eeprom_get_wlanmac mac)
        else t.buf } : Talk (List Bytes)).Clean := by
  refine ⟨h.out, fun f => ?_, h.tmpbuf⟩
  simp only
  split
  · by_cases hf : f = .wlanmac
    · rw [hf, Function.update_self]
      exact zero_not_mem_eeprom mac
    · rw [Function.update_of_ne hf]
      exact h.buf f
  · exact h.buf f

/-- **Every prompt answered**: the dialogue comes to its end with a list of
entries, whatever address is in the factory partition. -/
theorem talk_answered (hes : Entries es) (ha : Answered (prompts v es) none stdin)
    (mac : Option (Vector UInt8 6)) :
    ∃ t, talk v es stdin mac = some t ∧ t.Clean ∧ t.tmpbuf ≠ none := by
  have hload := clean_loaded (v := v) (entries_cutList hes) ([], initial v) entries_nil
    (zero_not_mem_initial v)
  have hclean : (⟨(loaded v (cutList es)).1, stdin, none, (loaded v (cutList es)).2⟩ :
      Talk (List Bytes)).Clean := ⟨hload.1, hload.2, fun s hs => absurd hs (by simp)⟩
  obtain ⟨t₁, ht₁, hc₁, ha₁, -, hbuf₁⟩ := asks_answered _ _ _ hclean ha
  have hc₁' := hc₁.withMac v mac
  -- the prompts so far touch neither model nor product number, and no board with a
  -- factory address asks about them
  have hcount : boardPrompts v (if v.factoryMac then
      Function.update t₁.buf .wlanmac (eeprom_get_wlanmac mac) else t₁.buf)
      = boardPrompts v (loaded v (cutList es)).2 := by
    rw [boardPrompts, boardPrompts]
    by_cases hv : v = .IG9
    · have hno : v.factoryMac = false := by rw [hv]; rfl
      have hreal : realtime t₁.buf = realtime (loaded v (cutList es)).2 := by
        rw [realtime, realtime, hbuf₁ .modelname (by rw [hv]; decide),
          hbuf₁ .productnum (by rw [hv]; decide)]
      rw [if_pos hv, if_pos hv, hno, if_neg Bool.false_ne_true, hreal]
    · rw [if_neg hv, if_neg hv]
  obtain ⟨t₂, ht₂, hc₂, ha₂⟩ := board_answered v hc₁' (by rw [hcount]; exact ha₁)
  obtain ⟨t, ht, hc, -, hset, -⟩ := asks_answered lastFields 0 t₂ hc₂ ha₂
  refine ⟨t, ?_, hc, hset (by decide)⟩
  rw [talk, ht₁, Option.bind_some, ht₂]
  exact ht

end Session

end Boxing.Intools
