import Boxing.Intools.Runs

/-!
# Updates that do not fit

No writer of the environment knows how long its data area is.  Each appends entry by
entry with `strcpy`, `sprintf` or `memcpy` and saves what has come of it, so an
update whose list does not fit is not refused: `too_big_not_refused`.  What happens
instead is `Op.Overflows`: the last entries go outside the data area, or, when the
list without its closing empty string fits exactly, the block is saved unclosed.

The data area is followed here through steps that succeed, from the end to the
beginning: `Returns` is the converse of `Follows`.
-/

namespace Boxing.Intools

open C Device Uboot

/-! ### What the writers leave in the data area -/

/-- The data area of a session before the last question. -/
def session_area (v : Variant) (data stdin : Bytes) (mac : Option (Vector UInt8 6)) :
    Option Bytes :=
  (count_cut data 0).bind fun r =>
    (load_fields v r.1 r.2).bind fun st =>
      (asks putMem (firstFields v) ⟨st.1, stdin, none, st.2⟩).bind fun t =>
        ((board_prompts putMem v { t with
          buf := if v.factoryMac then Function.update t.buf .wlanmac (eeprom_get_wlanmac mac)
            else t.buf }).bind (asks putMem lastFields)).map fun t => t.out.1

/-- The data area a writer builds out of `data`; `none` when it goes outside a
buffer.  A session may find any address in the factory partition. -/
def Op.area (v : Variant) (data : Bytes) (datalen : Nat) (mac : Option (Vector UInt8 6)) :
    Op → Option Bytes
  | .set var value => build_single var value data datalen
  | .setMulti ps => build_multi (request ps) data datalen
  | .session stdin => session_area v data stdin mac

/-- The writer goes outside a buffer, or leaves a list without its end. -/
def Op.Overflows (v : Variant) (data : Bytes) (datalen : Nat) (op : Op) : Prop :=
  ∃ mac, ∀ data', op.area v data datalen mac = some data' → split data' = none

/-- The operation reports failure and leaves the block in flash as it is.  After an
access outside a buffer neither is certain. -/
def Refused (p : Prog EnvRet Int) (env : EnvBlock) : Prop :=
  ∀ r env', Run allOk p env (some r) env' → r = -1 ∧ env' = env

section Writers

variable {es : List Bytes} {tail var value : Bytes} {n : Nat}

theorem store_some {m s m' : Bytes} {pos : Nat} (h : store m pos s = some m') :
    pos + s.length ≤ m.length ∧ m' = m.take pos ++ s ++ m.drop (pos + s.length) := by
  unfold store at h
  by_cases hle : pos + s.length ≤ m.length
  · rw [if_pos hle] at h
    exact ⟨hle, (Option.some.inj h).symm⟩
  · rw [if_neg hle] at h
    cases h

/-- Where `strcpy` behind a list succeeds, the entry fits. -/
theorem strcpy_pack_some {e rest m : Bytes}
    (h : strcpy (pack es ++ rest) (pack es).length e = some m) :
    ∃ rest', m = pack (es ++ [e]) ++ rest' ∧ m.length = (pack es ++ rest).length := by
  obtain ⟨hle, rfl⟩ := store_some h
  rw [List.length_append, List.length_append, List.length_singleton] at hle
  refine ⟨rest.drop (e.length + 1), ?_, ?_⟩
  · rw [List.take_left, List.length_append, List.length_singleton, List.drop_append,
      List.drop_of_length_le (by omega), List.nil_append, Nat.add_sub_cancel_left, pack_concat]
  · simp only [List.length_append, List.length_take, List.length_drop, List.length_singleton]
    omega

/-- A list that fills its data area is not closed. -/
theorem split_full {rest : Bytes} (hes : Entries es)
    (h : (pack es ++ rest).length ≤ (pack es).length) : split (pack es ++ rest) = none := by
  rw [List.length_append] at h
  obtain rfl : rest = [] := List.length_eq_zero_iff.mp (by omega)
  exact split_open hes List.not_mem_nil

theorem overflows_single (hes : Entries es) (hvar : 0 ∉ var) (hvalue : 0 ∉ value)
    (hbig : (pack es ++ 0 :: tail).length ≤ (pack (setOne es var value)).length) {data : Bytes}
    (h : build_single var value (pack es ++ 0 :: tail) (pack es).length = some data) :
    split data = none := by
  have hle := length_pack_filter_le (fun e => !strncmpEq e var var.length) es
  rw [build_single, refill_pack hes tail (d := fun e => strncmpEq e var var.length)
    fun e _ => rfl, Option.bind_some] at h
  obtain ⟨rest, rfl, hlen⟩ := strcpy_pack_some h
  apply split_full (entries_setOne hes hvar hvalue)
  rw [setOne, keptBy] at hbig
  simp only [List.length_append, List.length_cons, List.length_drop, List.length_replicate]
    at hlen hbig hle ⊢
  omega

/-- Where the writing loop succeeds, the pairs are entries behind the list. -/
theorem write_pairs_some : ∀ (ps : List (Bytes × Bytes)) (es : List Bytes) (rest : Bytes)
    (st : Bytes × Nat), (∀ p ∈ ps, IsPair p ∧ 59 ∉ p.1) →
    write_pairs (pack es ++ rest, (pack es).length) (request ps ++ [0]) = some st →
    ∃ rest', st.1 = pack (es ++ ps.map fun p => entry p.1 p.2) ++ rest' ∧
      st.1.length = (pack es ++ rest).length := by
  intro ps
  induction ps with
  | nil =>
    intro es rest st _ h
    rw [show request [] ++ [0] = 0 :: [] from rfl, write_pairs_zero] at h
    rw [← Option.some.inj h, List.map_nil, List.append_nil]
    exact ⟨rest, rfl, rfl⟩
  | cons p ps ih =>
    intro es rest st hps h
    obtain ⟨hp, hn⟩ := hps p (by simp)
    have hps' : ∀ q ∈ ps, IsPair q ∧ 59 ∉ q.1 := fun q hq => hps q (List.mem_cons_of_mem p hq)
    have hcat : es ++ (p :: ps).map (fun p => entry p.1 p.2)
        = (es ++ [entry p.1 p.2]) ++ ps.map fun p => entry p.1 p.2 := by
      rw [List.map_cons, List.append_assoc, List.singleton_append]
    rw [hcat]
    by_cases hnil : ps = []
    · subst hnil
      rw [request_singleton, write_pairs_last hp hn] at h
      by_cases hshort : (entry p.1 p.2).length + 1 ≤ tmpbufSize
      · rw [if_pos hshort] at h
        obtain ⟨data, hdata, rfl⟩ := Option.map_eq_some_iff.mp h
        obtain ⟨rest', hm, hlen⟩ := strcpy_pack_some hdata
        rw [List.map_nil, List.append_nil]
        exact ⟨rest', hm, hlen⟩
      · rw [if_neg hshort] at h
        cases h
    · rw [request_cons p hnil, List.append_assoc, List.cons_append, write_pairs_cons hp hn] at h
      by_cases hshort : (entry p.1 p.2).length + 1 ≤ tmpbufSize
      · rw [if_pos hshort] at h
        obtain ⟨data, hdata, hgo⟩ := Option.bind_eq_some_iff.mp h
        obtain ⟨rest', rfl, hlen⟩ := strcpy_pack_some hdata
        rw [← length_pack_concat] at hgo
        obtain ⟨rest'', hm, hlen'⟩ := ih _ rest' st hps' hgo
        exact ⟨rest'', hm, hlen'.trans hlen⟩
      · rw [if_neg hshort] at h
        cases h

theorem overflows_multi {ps : List (Bytes × Bytes)} (hes : Entries es) (hps : ∀ p ∈ ps, IsPair p)
    (hbig : (pack es ++ 0 :: tail).length ≤ (pack (setMany es ps)).length) {data : Bytes}
    (h : build_multi (request ps) (pack es ++ 0 :: tail) (pack es).length = some data) :
    split data = none := by
  obtain ⟨st, hst, hwrite⟩ := Option.bind_eq_some_iff.mp h
  obtain ⟨st', hst', rfl⟩ := Option.map_eq_some_iff.mp hwrite
  -- it came through, so no name holds a `;` and the copy was long enough
  have hgood : ∀ p ∈ ps, IsPair p ∧ 59 ∉ p.1 := by
    intro p hp
    refine ⟨hps p hp, fun hn => ?_⟩
    rw [write_pairs_eq_none ps st hps ⟨p, hp, Or.inl hn⟩] at hst'
    cases hst'
  have hfind : ∀ e ∈ es, find_revised e (tmpcopy tmpbufSize (request ps)) = some (begun ps e) := by
    intro e he
    obtain ⟨hcovered, hnot⟩ := find_revised_request e ps tmpbufSize hgood
    by_cases hc : Covered tmpbufSize ps e
    · exact hcovered hc
    · rw [refill_eq_none hes tail he (hnot hc)] at hst
      cases hst
  rw [refill_pack hes tail hfind] at hst
  obtain rfl := Option.some.inj hst
  have hle := length_pack_filter_le (fun e => !begun ps e) es
  obtain ⟨rest, hm, hlen⟩ := write_pairs_some ps _ _ st' hgood hst'
  rw [hm] at hlen ⊢
  apply split_full (entries_setMany hes hps)
  rw [setMany] at hbig
  simp only [List.length_append, List.length_cons, List.length_drop, List.length_replicate]
    at hlen hbig hle ⊢
  omega

end Writers

/-! ### The session, from its end to its beginning -/

/-- Where the step `mem` succeeds in memory, `list` succeeds on lists, and what `mem`
leaves is the list laid out in its area. -/
def Returns (n : Nat) (mem : Talk (Bytes × Nat) → Option (Talk (Bytes × Nat)))
    (list : Talk (List Bytes) → Option (Talk (List Bytes))) : Prop :=
  ∀ t s, (pack t.out).length ≤ n → mem (t.toMem n) = some s →
    ∃ t', list t = some t' ∧ s = t'.toMem n ∧ (pack t'.out).length ≤ n

section Returns

variable {n : Nat}

theorem Returns.comp {m₁ m₂ : Talk (Bytes × Nat) → Option (Talk (Bytes × Nat))}
    {l₁ l₂ : Talk (List Bytes) → Option (Talk (List Bytes))} (h₁ : Returns n m₁ l₁)
    (h₂ : Returns n m₂ l₂) :
    Returns n (fun t => (m₁ t).bind m₂) (fun t => (l₁ t).bind l₂) := by
  intro t s hn h
  obtain ⟨s₁, hs₁, hs⟩ := Option.bind_eq_some_iff.mp h
  obtain ⟨t₁, ht₁, rfl, hn₁⟩ := h₁ t s₁ hn hs₁
  obtain ⟨t', ht', rfl, hn'⟩ := h₂ t₁ s hn₁ hs
  refine ⟨t', ?_, rfl, hn'⟩
  show (l₁ t).bind l₂ = _
  rw [ht₁, Option.bind_some, ht']

theorem Returns.foldlM {m : Field → Talk (Bytes × Nat) → Option (Talk (Bytes × Nat))}
    {l : Field → Talk (List Bytes) → Option (Talk (List Bytes))}
    (h : ∀ f, Returns n (m f) (l f)) (fs : List Field) :
    Returns n (fun t => fs.foldlM (fun t f => m f t) t)
      (fun t => fs.foldlM (fun t f => l f t) t) := by
  induction fs with
  | nil =>
    intro t s hn hs
    exact ⟨t, rfl, (Option.some.inj hs).symm, hn⟩
  | cons f fs ih => exact (h f).comp ih

theorem length_of_strcpy {m s m' : Bytes} {pos : Nat} (h : strcpy m pos s = some m') :
    pos + s.length + 1 ≤ m.length ∧ m'.length = m.length := by
  obtain ⟨hle, rfl⟩ := store_some h
  rw [List.length_append, List.length_singleton] at hle
  refine ⟨by omega, ?_⟩
  simp only [List.length_append, List.length_take, List.length_drop, List.length_singleton]
  omega

theorem hear_returns (f : Field) : Returns n (hear f) (hear f) := by
  intro t s hn h
  rw [hear_toMem] at h
  obtain ⟨t', ht', rfl⟩ := Option.map_eq_some_iff.mp h
  refine ⟨t', ht', rfl, ?_⟩
  rw [hear_out ht']
  exact hn

theorem tell_returns (f : Field) : Returns n (tell putMem f) (tell putList f) := by
  intro t s hn h
  have hfit : (pack (t.out ++ [f.name ++ t.buf f])).length ≤ n := by
    obtain ⟨out, hput, -⟩ := Option.map_eq_some_iff.mp h
    obtain ⟨data, hname, hrest⟩ := Option.bind_eq_some_iff.mp hput
    obtain ⟨data', hvalue, -⟩ := Option.map_eq_some_iff.mp hrest
    have hlen := (length_of_strcpy hname).2
    have hle := (length_of_strcpy hvalue).1
    rw [length_pack_concat, List.length_append]
    simp only [Talk.toMem] at hlen hle
    rw [hlen, length_padded hn] at hle
    omega
  refine ⟨{ t with out := t.out ++ [f.name ++ t.buf f] }, rfl, ?_, hfit⟩
  have hfollows := (tell_follows f t { t with out := t.out ++ [f.name ++ t.buf f] } rfl).2 hfit
  exact Option.some.inj (h.symm.trans hfollows)

theorem asks_returns (fs : List Field) : Returns n (asks putMem fs) (asks putList fs) :=
  Returns.foldlM (fun f => (hear_returns f).comp (tell_returns f)) fs

theorem tells_returns (fs : List Field) : Returns n (tells putMem fs) (tells putList fs) :=
  Returns.foldlM tell_returns fs

theorem board_returns (v : Variant) :
    Returns n (board_prompts putMem v) (board_prompts putList v) := by
  intro t s hn h
  rw [board_prompts] at h ⊢
  rw [show (t.toMem n).buf = t.buf from rfl] at h
  by_cases hv : v = .IG9
  · rw [if_pos hv] at h ⊢
    by_cases hr : realtime t.buf = true
    · rw [if_pos hr] at h ⊢
      exact asks_returns _ t s hn h
    · rw [if_neg hr] at h ⊢
      exact tells_returns _ t s hn h
  · rw [if_neg hv] at h ⊢
    exact asks_returns _ t s hn h

end Returns

section Session

variable {v : Variant} {es : List Bytes} {tail stdin : Bytes} {n : Nat}

/-- The loop over the copy comes to its end only with fields that fit. -/
theorem fieldsFit_of_some : ∀ (es : List Bytes) (st : List Bytes × (Field → Bytes))
    (s : (Bytes × Nat) × (Field → Bytes)), (pack st.1).length + (pack es).length ≤ n →
    es.foldlM (load_entry v) ((padded n (pack st.1), (pack st.1).length), st.2) = some s →
    FieldsFit v es := by
  intro es
  induction es with
  | nil =>
    intro st s _ _ e he
    exact absurd he List.not_mem_nil
  | cons e es ih =>
    intro st s hlen h
    rw [pack_cons, List.length_append, List.length_cons] at hlen
    rw [List.foldlM_cons] at h
    obtain ⟨s₁, hs₁, hs⟩ := Option.bind_eq_some_iff.mp h
    unfold load_entry at hs₁
    intro x hx f hf
    cases hm : match_field v e with
    | some g =>
      rw [hm] at hs₁
      simp only at hs₁
      by_cases hfit : (e.drop g.name.length).length < bufLen
      · rw [if_pos hfit] at hs₁
        obtain rfl := Option.some.inj hs₁
        rcases List.mem_cons.mp hx with rfl | hx
        · obtain rfl : g = f := Option.some.inj (hm.symm.trans hf)
          exact hfit
        · exact ih (st.1, Function.update st.2 g (e.drop g.name.length)) s (by simp only; omega)
            hs x hx f hf
      · rw [if_neg hfit] at hs₁
        cases hs₁
    | none =>
      rw [hm] at hs₁
      have hone : (pack (st.1 ++ [e])).length ≤ n := by rw [length_pack_concat]; omega
      simp only at hs₁
      rw [strcpy_pack hone, Option.map_some, ← length_pack_concat] at hs₁
      obtain rfl := Option.some.inj hs₁
      rcases List.mem_cons.mp hx with rfl | hx
      · rw [hm] at hf
        cases hf
      · exact ih (st.1 ++ [e], st.2) s (by rw [length_pack_concat]; omega) hs x hx f hf

/-- The entries that stay are some of the old ones. -/
theorem length_pack_loaded : ∀ (es : List Bytes) (st : List Bytes × (Field → Bytes)),
    (pack (es.foldl (loadStep v) st).1).length ≤ (pack st.1).length + (pack es).length := by
  intro es
  induction es with
  | nil =>
    intro st
    exact Nat.le_add_right _ _
  | cons e es ih =>
    intro st
    rw [List.foldl_cons, pack_cons, List.length_append, List.length_cons]
    unfold loadStep
    cases match_field v e with
    | some f =>
      have := ih (st.1, Function.update st.2 f (e.drop f.name.length))
      simp only at this ⊢
      exact this.trans (by omega)
    | none =>
      have := ih (st.1 ++ [e], st.2)
      simp only [length_pack_concat] at this ⊢
      exact this.trans (by omega)

theorem ask_clean {t t' : Talk (List Bytes)} {f : Field} (h : t.Clean)
    (ht : ask putList f t = some t') : t'.Clean := by
  obtain ⟨t₁, hhear, -⟩ := Option.bind_eq_some_iff.mp ht
  obtain ⟨s, hs, hrest⟩ := Option.bind_eq_some_iff.mp hhear
  have hne : s ≠ [] := by
    rintro rfl
    rw [if_neg (by decide), if_pos rfl] at hrest
    cases hrest
  obtain ⟨t₂, ht₂, hclean, -⟩ := ask_answered h f (k := 0) ⟨s, hs, hne, trivial⟩
  obtain rfl := Option.some.inj (ht.symm.trans ht₂)
  exact hclean

theorem asks_clean : ∀ (fs : List Field) (t t' : Talk (List Bytes)), t.Clean →
    asks putList fs t = some t' → t'.Clean := by
  intro fs
  induction fs with
  | nil =>
    intro t t' h ht
    rw [← Option.some.inj ht]
    exact h
  | cons f fs ih =>
    intro t t' h ht
    obtain ⟨t₁, ht₁, hrest⟩ := Option.bind_eq_some_iff.mp ht
    exact ih t₁ t' (ask_clean h ht₁) hrest

theorem board_clean {t t' : Talk (List Bytes)} (h : t.Clean)
    (ht : board_prompts putList v t = some t') : t'.Clean := by
  rw [board_prompts] at ht
  by_cases hv : v = .IG9
  · rw [if_pos hv] at ht
    by_cases hr : realtime t.buf = true
    · rw [if_pos hr] at ht
      exact asks_clean _ t t' h ht
    · rw [if_neg hr] at ht
      obtain ⟨t₁, ht₁, hclean, -⟩ := tells_clean [.re_mac, .re1_mac, .re2_mac] t h
      obtain rfl := Option.some.inj (ht.symm.trans ht₁)
      exact hclean
  · rw [if_neg hv] at ht
    exact asks_clean _ t t' h ht

/-- The dialogue, when it comes to its end, ends with a list of entries. -/
theorem entries_talk {mac : Option (Vector UInt8 6)} {t : Talk (List Bytes)} (hes : Entries es)
    (ht : talk v es stdin mac = some t) : Entries t.out := by
  have hload := clean_loaded (v := v) (entries_cutList hes) ([], initial v) entries_nil
    (zero_not_mem_initial v)
  have hclean : (⟨(loaded v (cutList es)).1, stdin, none, (loaded v (cutList es)).2⟩ :
      Talk (List Bytes)).Clean := ⟨hload.1, hload.2, fun s hs => absurd hs (by simp)⟩
  obtain ⟨t₁, ht₁, hrest⟩ := Option.bind_eq_some_iff.mp ht
  obtain ⟨t₂, ht₂, hlast⟩ := Option.bind_eq_some_iff.mp hrest
  have hc₁ := asks_clean _ _ _ hclean ht₁
  exact (asks_clean _ _ _ (board_clean (hc₁.withMac v mac) ht₂) hlast).out

/-- A session that comes through the prompts leaves its list at the start of the
data area. -/
theorem session_area_some {mac : Option (Vector UInt8 6)} {data : Bytes} (hes : Entries es)
    (h : session_area v (pack es ++ 0 :: tail) stdin mac = some data) :
    ∃ t, talk v es stdin mac = some t ∧
      data = padded (pack es ++ 0 :: tail).length (pack t.out) ∧
      (pack t.out).length ≤ (pack es ++ 0 :: tail).length := by
  obtain ⟨data₀, hc, hl, htake⟩ := count_cut_pack es [] tail hes
  rw [pack_nil, List.nil_append, List.length_nil, List.nil_append] at hc
  rw [pack_nil, List.nil_append] at hl
  rw [List.nil_append] at htake
  have hle := length_pack_sublist (cutList_sublist es)
  have hn : (pack (cutList es)).length ≤ (pack es ++ 0 :: tail).length := by
    rw [List.length_append]
    omega
  generalize hN : (pack es ++ 0 :: tail).length = n at *
  unfold session_area at h
  rw [hc, Option.bind_some] at h
  obtain ⟨st, hst, h₁⟩ := Option.bind_eq_some_iff.mp h
  obtain ⟨s₁, hs₁, h₂⟩ := Option.bind_eq_some_iff.mp h₁
  obtain ⟨s, hs, rfl⟩ := Option.map_eq_some_iff.mp h₂
  -- the entries that stay and the fields
  have hload := hst
  rw [load_fields, hl, htake, walk_pack _ _ _ (entries_cutList hes)] at hload
  have hpad : ((List.replicate n (0 : UInt8), 0), initial v)
      = ((padded n (pack ([] : List Bytes)), (pack ([] : List Bytes)).length), initial v) := by
    rw [pack_nil, padded_nil, List.length_nil]
  rw [hpad] at hload
  have hfit := fieldsFit_of_some (cutList es) ([], initial v) st (by
    rw [pack_nil, List.length_nil]
    omega) hload
  have hloaded := foldlM_load_entry (n := n) (cutList es) ([], initial v) hfit (by
    rw [pack_nil, List.length_nil]
    omega)
  obtain rfl := Option.some.inj (hload.symm.trans hloaded)
  have hkept : (pack (loaded v (cutList es)).1).length ≤ n := by
    have := length_pack_loaded (v := v) (cutList es) ([], initial v)
    rw [pack_nil, List.length_nil, Nat.zero_add] at this
    exact this.trans hn
  obtain ⟨t₁, ht₁, rfl, hn₁⟩ := asks_returns (firstFields v)
    ⟨(loaded v (cutList es)).1, stdin, none, (loaded v (cutList es)).2⟩ s₁ hkept hs₁
  obtain ⟨t, ht, rfl, hnt⟩ := ((board_returns v).comp (asks_returns lastFields))
    { t₁ with
      buf := if v.factoryMac then Function.update t₁.buf .wlanmac (eeprom_get_wlanmac mac)
        else t₁.buf } s hn₁ hs
  refine ⟨t, ?_, rfl, hnt⟩
  rw [talk, ht₁, Option.bind_some]
  exact ht

theorem overflows_session {mac : Option (Vector UInt8 6)} {t : Talk (List Bytes)} {data : Bytes}
    (hes : Entries es) (ht : talk v es stdin mac = some t)
    (hbig : (pack es ++ 0 :: tail).length ≤ (pack t.out).length)
    (h : session_area v (pack es ++ 0 :: tail) stdin mac = some data) : split data = none := by
  obtain ⟨t', ht', rfl, hle⟩ := session_area_some hes h
  obtain rfl := Option.some.inj (ht.symm.trans ht')
  rw [padded]
  apply split_full (entries_talk hes ht)
  rw [List.length_append, List.length_replicate]
  omega

end Session

/-! ### The runs -/

section Runs

variable {abi : Abi} {v : Variant} {env : EnvBlock} {es : List Bytes} {tail : Bytes}

/-- Whatever the middle of a writer does, the writer can return 0. -/
theorem run_revise_zero {build : Bytes → Nat → Option Bytes}
    (hcrc : crc_int abi env.data = env.crc) :
    ∃ env', Run allOk (revise abi build) env (some 0) env' := by
  have hu : Run allOk (askEnv .undefined) env (some 0) env := run_undefined
  cases hlen : countLen env.data with
  | none => exact ⟨env, by simpa [revise, Run.some_call, allOk, allOkStep, hcrc, hlen] using hu⟩
  | some datalen =>
    cases hb : build env.data datalen with
    | none => exact ⟨env, run_revise_none hcrc hlen hb⟩
    | some data => exact ⟨_, (run_revise hcrc hlen hb).mpr ⟨rfl, rfl⟩⟩

theorem run_save_zero (t : Talk (Bytes × Nat)) (env : EnvBlock) :
    ∃ env', Run allOk (save abi v t) env (some 0) env' := by
  cases hs : (fgets t.tmpbuf t.stdin).1 with
  | none =>
    rw [save, hs]
    exact ⟨env, run_undefined⟩
  | some s => exact ⟨_, (run_save_iff hs).mpr ⟨rfl, rfl⟩⟩

/-- A session can return 0 as well. -/
theorem run_intools_zero (abi : Abi) (v : Variant) (stdin : Bytes) (env : EnvBlock) :
    ∃ env', Run allOk (intools_main abi v stdin) env (some 0) env' := by
  -- the calls before the dialogue succeed
  have hcalls := fun {env' : EnvBlock} => @run_intools_main abi v stdin env env'
  cases hload : (load abi v env).bind fun data => count_cut data 0 with
  | none =>
    rw [hload] at hcalls
    exact ⟨env, hcalls run_undefined⟩
  | some r =>
    obtain ⟨data, datalen⟩ := r
    rw [hload] at hcalls
    have hmalloc : ∀ {q : Prog EnvRet Int} {env' : EnvBlock}, Run allOk q env (some 0) env' →
        Run allOk (askEnv .malloc >>= fun p : Bool => if p = false then pure (-1) else q) env
          (some 0) env' := by
      intro q env' hr
      rw [Prog.ask_bind]
      refine Run.some_call.mpr ⟨true, env, ⟨rfl, rfl⟩, ?_⟩
      rw [if_neg (by simp)]
      exact hr
    cases hfields : (load_fields v data datalen).bind fun st =>
        asks putMem (firstFields v) ⟨st.1, stdin, none, st.2⟩ with
    | none =>
      refine ⟨env, hcalls (hmalloc ?_)⟩
      rw [hfields]
      exact run_undefined
    | some t =>
      obtain ⟨buf, hbuf⟩ : ∃ buf, Run allOk (factory_mac v t.buf) env (some buf) env :=
        ⟨_, run_factory_iff.mpr ⟨rfl, Vector.replicate 6 0, rfl⟩⟩
      cases hrest : (board_prompts putMem v { t with buf := buf }).bind
          (asks putMem lastFields) with
      | none =>
        refine ⟨env, hcalls (hmalloc ?_)⟩
        rw [hfields]
        refine Run.some_bind.mpr ⟨buf, env, hbuf, ?_⟩
        rw [hrest]
        exact run_undefined
      | some t' =>
        obtain ⟨env', hsave⟩ := (run_save_zero t' env : ∃ env', Run allOk (save abi v t') env (some 0) env')
        refine ⟨env', hcalls (hmalloc ?_)⟩
        rw [hfields]
        refine Run.some_bind.mpr ⟨buf, env, hbuf, ?_⟩
        rw [hrest]
        exact hsave

/-- **Updates that do not fit are not refused.**  On every block with a good CRC and
a closed list, for every operation whose list with its end is longer than the data
area: it can return 0, and the data area it builds goes outside a buffer or is not
closed. -/
theorem too_big_not_refused {op : Op} (hcrc : crc_int abi env.data = env.crc) (hes : Entries es)
    (hdata : env.data = pack es ++ 0 :: tail) (hlegal : op.Legal)
    (hbig : ¬ op.Fits v env.data.length es) :
    ¬ Refused (op.prog abi v) env ∧ op.Overflows v env.data (pack es).length := by
  constructor
  · intro h
    have hzero : ∃ env', Run allOk (op.prog abi v) env (some 0) env' := by
      cases op with
      | set var value => exact run_revise_zero hcrc
      | setMulti ps => exact run_revise_zero hcrc
      | session stdin => exact run_intools_zero abi v stdin env
    obtain ⟨env', hr⟩ := hzero
    exact absurd (h 0 env' hr).1 (by decide)
  · rw [hdata] at hbig ⊢
    cases op with
    | set var value =>
      exact ⟨none, fun data h => overflows_single hes hlegal.1 hlegal.2 (Nat.le_of_not_lt hbig) h⟩
    | setMulti ps => exact ⟨none, fun data h => overflows_multi hes hlegal (Nat.le_of_not_lt hbig) h⟩
    | session stdin =>
      have hbig' : ∃ mac t, talk v es stdin mac = some t ∧
          (pack es ++ 0 :: tail).length ≤ (pack t.out).length := by
        by_contra hno
        apply hbig
        intro mac t ht
        by_contra hlt
        exact hno ⟨mac, t, ht, Nat.le_of_not_lt hlt⟩
      obtain ⟨mac, t, ht, hle⟩ := hbig'
      exact ⟨mac, fun data h => overflows_session hes ht hle h⟩

end Runs

/-- A value of seven characters for a data area of eight bytes. -/
theorem too_big_1234567 :
    ¬ Refused ((Op.set (asc "b") (asc "1234567")).prog ⟨true, false⟩ .other)
        (sealed ⟨true, false⟩ (pack [asc "a=1"] ++ [0, 0, 0, 0])) ∧
      (Op.set (asc "b") (asc "1234567")).Overflows .other
        (sealed ⟨true, false⟩ (pack [asc "a=1"] ++ [0, 0, 0, 0])).data (pack [asc "a=1"]).length :=
  have hes : Entries [asc "a=1"] := by decide
  too_big_not_refused rfl hes rfl ⟨by decide, by decide⟩
    (show ¬ (pack (setOne [asc "a=1"] (asc "b") (asc "1234567"))).length < 8 by decide)

/-- One variable as long as the whole data area of 64 KiB: `write_ubootcfg` can return 0. -/
theorem write_ubootcfg_accepts_too_big :
    ¬ ∀ (abi : Abi) (v : Variant) (env : EnvBlock) (es : List Bytes) (tail : Bytes) (op : Op),
      env.data.length = 65532 → crc_int abi env.data = env.crc → Entries es →
      env.data = pack es ++ 0 :: tail → op.Legal → ¬ op.Fits v env.data.length es →
      Refused (op.prog abi v) env := by
  intro h
  have hdata : (listBlock ⟨true, false⟩ 65532 []).data = pack [] ++ 0 :: List.replicate 65531 0 :=
    padded_eq (by decide)
  have hlen : (listBlock ⟨true, false⟩ 65532 []).data.length = 65532 := length_padded (by decide)
  have hvalue : 0 ∉ List.replicate 65530 (98 : UInt8) := by
    rw [List.mem_replicate]
    decide
  have hbig : ¬ (Op.set (asc "a") (List.replicate 65530 98)).Fits .other
      (listBlock ⟨true, false⟩ 65532 []).data.length [] := by
    rw [hlen]
    show ¬ (pack ([] ++ [entry (asc "a") (List.replicate 65530 98)])).length < 65532
    have ha : (asc "a").length = 1 := by decide
    have heq : (asc "=").length = 1 := by decide
    rw [length_pack_concat, entry, List.length_append, List.length_append, List.length_replicate, ha,
      heq]
    omega
  obtain ⟨env', hr⟩ : ∃ env', Run allOk
      (revise ⟨true, false⟩ (build_single (asc "a") (List.replicate 65530 98)))
      (listBlock ⟨true, false⟩ 65532 []) (some 0) env' := run_revise_zero listBlock_crc
  exact absurd (h _ .other _ [] _ (.set (asc "a") (List.replicate 65530 98)) hlen listBlock_crc
    entries_nil hdata ⟨by decide, hvalue⟩ hbig 0 env' hr).1 (by decide)

end Boxing.Intools
