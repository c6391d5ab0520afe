import Mathlib.Data.List.Nodup
import Boxing.Intools.Dialogue

/-!
# A session without edits

A session takes the fields it knows out of the list, writes the rest back at the
front and the fields behind it, in another order and with the fields of the board.
`rewritten` is the list it saves when every prompt is answered with an empty line.
A variable that the listing loop has not cut off is in it with its old value,
whatever its name and wherever it stood; the one exception is the wireless address
on the boards that fetch it from the factory partition: `run_intools_unedited`.
-/

namespace Boxing.Intools

open C Device Uboot

/-! ### The value of a variable -/

/-- What stands behind the `=`. -/
def valueOf (e : Bytes) : Bytes := (e.dropWhile (· ≠ 61)).tail

/-- The value of the first entry with the name. -/
def getenv (es : List Bytes) (name : Bytes) : Option Bytes :=
  (es.find? fun e => nameOf e = name).map valueOf

section Getenv

variable {es fs : List Bytes} {e name value : Bytes}

theorem getenv_of_mem (hnd : (es.map nameOf).Nodup) (he : e ∈ es) :
    getenv es (nameOf e) = some (valueOf e) := by
  induction es with
  | nil => cases he
  | cons x es ih =>
    rw [List.map_cons, List.nodup_cons] at hnd
    rw [getenv, List.find?_cons]
    rcases List.mem_cons.mp he with rfl | he
    · simp
    · have hx : nameOf x ≠ nameOf e := fun h => hnd.1 (h ▸ List.mem_map_of_mem he)
      simp only [hx, decide_false]
      exact ih hnd.2 he

theorem getenv_eq_some (h : getenv es name = some value) :
    ∃ e ∈ es, nameOf e = name ∧ valueOf e = value := by
  obtain ⟨e, he, rfl⟩ := Option.map_eq_some_iff.mp h
  exact ⟨e, List.mem_of_find?_eq_some he, by simpa using List.find?_some he, rfl⟩

theorem getenv_append_left (h : getenv es name = some value) :
    getenv (es ++ fs) name = some value := by
  obtain ⟨e, he, rfl⟩ := Option.map_eq_some_iff.mp h
  rw [getenv, List.find?_append, he]
  rfl

theorem getenv_append_right (h : ∀ e ∈ es, nameOf e ≠ name) :
    getenv (es ++ fs) name = getenv fs name := by
  have hnone : es.find? (fun e => nameOf e = name) = none := by
    rw [List.find?_eq_none]
    exact fun e he => by simpa using h e he
  rw [getenv, List.find?_append, hnone]
  rfl

theorem eq_of_nameOf_eq {x : Bytes} (hnd : (es.map nameOf).Nodup) (he : e ∈ es) (hx : x ∈ es)
    (h : nameOf x = nameOf e) : x = e := List.inj_on_of_nodup_map hnd hx he h

end Getenv

/-! ### The fields in a list -/

/-- The name of a field, without its `=`. -/
def Field.key (f : Field) : Bytes := f.name.dropLast

section Fields

variable {v : Variant} {es : List Bytes} {f : Field} {e value : Bytes} {buf : Field → Bytes}
  {mac : Option (Vector UInt8 6)}

theorem name_eq_key (f : Field) : f.name = f.key ++ [61] := by cases f <;> decide

theorem equals_not_mem_key (f : Field) : 61 ∉ f.key := by cases f <;> decide

theorem entryOf_eq (buf : Field → Bytes) (f : Field) : entryOf buf f = entry f.key (buf f) := by
  rw [entryOf, entry, name_eq_key]
  rfl

theorem valueOf_entry {var : Bytes} (hvar : 61 ∉ var) : valueOf (entry var value) = value := by
  have hpos : ∀ c ∈ var, decide (c ≠ 61) = true := by
    intro c hc
    simp only [ne_eq, decide_eq_true_eq]
    exact fun h => hvar (h ▸ hc)
  have hd : asc "=" = [61] := by decide
  rw [valueOf, entry, List.append_assoc, List.dropWhile_append_of_pos hpos, hd,
    List.singleton_append, List.dropWhile_cons_of_neg (by simp), List.tail_cons]

/-- An entry is its name, a `=` and its value. -/
theorem entry_of_mem (h : 61 ∈ e) : e = entry (nameOf e) (valueOf e) := by
  have hsplit := List.takeWhile_append_dropWhile (p := fun c : UInt8 => decide (c ≠ 61)) (l := e)
  have hne : e.dropWhile (fun c => decide (c ≠ 61)) ≠ [] := by
    rw [Ne, List.dropWhile_eq_nil_iff]
    exact fun hall => absurd (hall 61 h) (by simp)
  have hhead : (e.dropWhile (fun c => decide (c ≠ 61))).head hne = 61 := by
    simpa using List.head_dropWhile_not (fun c : UInt8 => decide (c ≠ 61)) hne
  have hrest : e.dropWhile (fun c => decide (c ≠ 61))
      = 61 :: (e.dropWhile (fun c => decide (c ≠ 61))).tail := by
    calc e.dropWhile (fun c => decide (c ≠ 61))
        = (e.dropWhile (fun c => decide (c ≠ 61))).head hne
            :: (e.dropWhile (fun c => decide (c ≠ 61))).tail := (List.cons_head_tail hne).symm
      _ = 61 :: (e.dropWhile (fun c => decide (c ≠ 61))).tail := by rw [hhead]
  have hd : asc "=" = [61] := by decide
  rw [entry, nameOf, valueOf, hd, List.append_assoc, List.singleton_append, ← hrest, hsplit]

/-- The name of a field begins an entry when it is the name of the entry. -/
theorem prefix_iff_nameOf (h : 61 ∈ e) : f.name <+: e ↔ nameOf e = f.key := by
  constructor
  · rintro ⟨s, rfl⟩
    rw [name_eq_key]
    exact nameOf_entry (equals_not_mem_key f)
  · intro hn
    refine ⟨valueOf e, ?_⟩
    have := entry_of_mem h
    rw [hn] at this
    rw [name_eq_key]
    exact this.symm

theorem key_injective : Function.Injective Field.key := by
  have hall : ∀ f, f ∈ ([.lanmac, .lan2mac, .wlanmac, .btmac, .wlanmac_5g, .re_mac, .re1_mac,
      .re2_mac, .productnum, .serialnum, .desc, .hdinit, .familyname, .modelname, .oemname] :
      List Field) := by
    intro f
    cases f <;> decide
  exact fun f g h => List.inj_on_of_nodup_map (by decide) (hall f) (hall g) h

theorem match_field_some (h : match_field v e = some f) :
    f ∈ chain v ∧ strncmpEq e f.name f.name.length = true := by
  rw [match_field] at h
  exact ⟨List.mem_of_find?_eq_some h, by simpa using List.find?_some h⟩

theorem match_field_iff (h : 61 ∈ e) : match_field v e = some f ↔ f ∈ chain v ∧ nameOf e = f.key := by
  have hmatch : ∀ g : Field, strncmpEq e g.name g.name.length = true ↔ nameOf e = g.key :=
    fun g => (strncmpEq_iff (zero_not_mem_name g)).trans (prefix_iff_nameOf h)
  constructor
  · intro hf
    obtain ⟨hc, hs⟩ := match_field_some hf
    exact ⟨hc, (hmatch f).mp hs⟩
  · rintro ⟨hf, hn⟩
    cases hm : match_field v e with
    | none => exact absurd ((hmatch f).mpr hn) (List.find?_eq_none.mp hm f hf)
    | some g =>
      have hg := (hmatch g).mp (match_field_some hm).2
      rw [key_injective (hg.symm.trans hn)]

theorem foldl_loadStep_fst : ∀ (es : List Bytes) (st : List Bytes × (Field → Bytes)),
    (es.foldl (loadStep v) st).1 = st.1 ++ es.filter fun e => match_field v e = none := by
  intro es
  induction es with
  | nil => intro st; exact (List.append_nil _).symm
  | cons e es ih =>
    intro st
    rw [List.foldl_cons, ih, loadStep]
    cases h : match_field v e with
    | some f => rw [List.filter_cons_of_neg (by simp [h])]
    | none => rw [List.filter_cons_of_pos (by simp [h]), List.append_assoc, List.singleton_append]

/-- A field has the value that all its entries agree on. -/
theorem foldl_loadStep_snd (f : Field) (value : Bytes) :
    ∀ (es : List Bytes) (st : List Bytes × (Field → Bytes)),
    (∀ e ∈ es, match_field v e = some f → e.drop f.name.length = value) →
    (∃ e ∈ es, match_field v e = some f) ∨ st.2 f = value →
    (es.foldl (loadStep v) st).2 f = value := by
  intro es
  induction es with
  | nil =>
    intro st _ h
    rcases h with ⟨e, he, -⟩ | h
    · cases he
    · exact h
  | cons e es ih =>
    intro st hall h
    rw [List.foldl_cons]
    apply ih _ fun x hx => hall x (List.mem_cons_of_mem e hx)
    by_cases hm : match_field v e = some f
    · right
      rw [loadStep, hm]
      simp only [Function.update_self]
      exact hall e (by simp) hm
    · rcases h with ⟨x, hx, hxf⟩ | h
      · rcases List.mem_cons.mp hx with rfl | hx
        · exact absurd hxf hm
        · exact Or.inl ⟨x, hx, hxf⟩
      · right
        rw [loadStep]
        split
        · rename_i g hg
          have hne : f ≠ g := by
            rintro rfl
            exact hm hg
          exact (Function.update_of_ne hne _ _).trans h
        · exact h

/-- The list a session saves when no field is edited. -/
def rewritten (v : Variant) (mac : Option (Vector UInt8 6)) (es : List Bytes) : List Bytes :=
  (loaded v es).1 ++ (writtenFields v).map (entryOf (current v mac (loaded v es).2))

theorem chain_subset (v : Variant) : ∀ f ∈ chain v, f ∈ writtenFields v := by cases v <;> decide

/-- A field that is written is found with its value. -/
theorem getenv_fields (hf : f ∈ writtenFields v) (buf : Field → Bytes) :
    getenv ((writtenFields v).map (entryOf buf)) f.key = some (buf f) := by
  have hnames : ((writtenFields v).map (entryOf buf)).map nameOf = (writtenFields v).map Field.key := by
    rw [List.map_map]
    refine List.map_congr_left fun g _ => ?_
    rw [Function.comp_apply, entryOf_eq, nameOf_entry (equals_not_mem_key g)]
  have hnd : (((writtenFields v).map (entryOf buf)).map nameOf).Nodup := by
    rw [hnames]
    cases v <;> decide
  have := getenv_of_mem hnd (List.mem_map_of_mem (f := entryOf buf) hf)
  rw [entryOf_eq, nameOf_entry (equals_not_mem_key f), valueOf_entry (equals_not_mem_key f)] at this
  exact this

/-- No entry that stays has the name of a field. -/
theorem nameOf_ne_key (heq : ∀ e ∈ es, 61 ∈ e) (hf : f ∈ chain v) (he : e ∈ (loaded v es).1) :
    nameOf e ≠ f.key := by
  rw [loaded, foldl_loadStep_fst, List.nil_append, List.mem_filter] at he
  intro hn
  have hm := (match_field_iff (v := v) (heq e he.1)).mpr ⟨hf, hn⟩
  simp [hm] at he

/-- **Every variable stays**, apart from a wireless address out of the factory partition. -/
theorem getenv_rewritten (heq : ∀ e ∈ es, 61 ∈ e) (hnd : (es.map nameOf).Nodup) {name : Bytes}
    (hmac : v.factoryMac = true → name ≠ Field.wlanmac.key) (h : getenv es name = some value) :
    getenv (rewritten v mac es) name = some value := by
  obtain ⟨e, he, rfl, rfl⟩ := getenv_eq_some h
  cases hm : match_field v e with
  | none =>
    have hkept : e ∈ (loaded v es).1 := by
      rw [loaded, foldl_loadStep_fst, List.nil_append, List.mem_filter]
      exact ⟨he, by simp [hm]⟩
    have hsub : (loaded v es).1.Sublist es := by
      rw [loaded, foldl_loadStep_fst, List.nil_append]
      exact List.filter_sublist
    exact getenv_append_left (getenv_of_mem (hnd.sublist (hsub.map nameOf)) hkept)
  | some f =>
    obtain ⟨hf, hn⟩ := (match_field_iff (heq e he)).mp hm
    have hvalue : (loaded v es).2 f = valueOf e := by
      refine foldl_loadStep_snd f (valueOf e) es _ (fun x hx hxm => ?_) (Or.inl ⟨e, he, hm⟩)
      obtain ⟨-, hxn⟩ := (match_field_iff (heq x hx)).mp hxm
      obtain rfl := eq_of_nameOf_eq hnd he hx (hxn.trans hn.symm)
      have hx' := entry_of_mem (heq x hx)
      rw [hn] at hx'
      rw [hx', valueOf_entry (equals_not_mem_key f), name_eq_key]
      exact List.drop_left
    have hcurrent : current v mac (loaded v es).2 f = (loaded v es).2 f := by
      rw [current]
      split
      · rename_i hv
        exact Function.update_of_ne (fun hfw => hmac hv (by rw [hn, hfw])) _ _
      · rfl
    rw [hn, rewritten, getenv_append_right fun x hx => nameOf_ne_key heq hf hx,
      getenv_fields (chain_subset v f hf), hcurrent, hvalue]

/-- The wireless address of these boards is the one in the factory partition. -/
theorem getenv_wlanmac (heq : ∀ e ∈ es, 61 ∈ e) (hv : v.factoryMac = true) :
    getenv (rewritten v mac es) Field.wlanmac.key = some (eeprom_get_wlanmac mac) := by
  have hchain : ∀ v : Variant, v.factoryMac = true → Field.wlanmac ∈ chain v := by
    intro v
    cases v <;> decide
  rw [rewritten, getenv_append_right fun x hx => nameOf_ne_key heq (hchain v hv) hx,
    getenv_fields (chain_subset v _ (hchain v hv)), current, if_pos hv, Function.update_self]

end Fields

/-! ### The session -/

/-- A wireless address, a version and a LAN address, in this order. -/
def threeVariables : List Bytes :=
  [asc "wlanaddr=02:00:00:00:00:01", asc "version=1.1.3", asc "ethaddr=02:00:00:00:00:02"]

/-- A variable of 131 characters behind another. -/
def longVariable : List Bytes := [asc "a=1", asc "b=" ++ List.replicate 129 120]

section Session

variable {abi : Abi} {v : Variant} {env env' : EnvBlock} {es : List Bytes} {tail answer : Bytes}
  {r : Int} {mac : Option (Vector UInt8 6)}

/-- Behind the first entry of a cut list no value is too long for its buffer. -/
theorem fieldsFit_cutList (h : ∀ e, es.head? = some e → ∀ f, match_field v e = some f →
    (e.drop f.name.length).length < bufLen) : FieldsFit v (cutList es) := by
  cases es with
  | nil => exact fun e he => absurd he List.not_mem_nil
  | cons e es =>
    intro x hx f hf
    rcases List.mem_cons.mp hx with rfl | hx
    · exact h x rfl f hf
    · have hlen := List.mem_takeWhile_imp hx
      have hname := List.length_pos_iff.mpr (name_ne_nil f)
      rw [decide_eq_true_eq] at hlen
      rw [List.length_drop, bufLen]
      omega

theorem length_prompted (v : Variant) (es : List Bytes) :
    (prompted v (loaded v (cutList es)).2).length = prompts v es := by
  rw [prompted, prompts, boardPrompts, boardFields, List.length_append, List.length_append,
    Nat.add_assoc]
  cases v with
  | IG9 => cases realtime (loaded .IG9 (cutList es)).2 <;> rfl
  | _ => rfl

/-- The rewritten list is one of entries. -/
theorem entries_rewritten (hes : Entries es) (mac : Option (Vector UInt8 6)) :
    Entries (rewritten v mac es) := by
  obtain ⟨hkept, hbuf⟩ := clean_loaded (v := v) hes ([], initial v) entries_nil
    (zero_not_mem_initial v)
  refine hkept.append fun x hx => ?_
  obtain ⟨f, -, rfl⟩ := List.mem_map.mp hx
  have hcurrent : 0 ∉ current v mac (loaded v es).2 f := by
    by_cases hf : f = .wlanmac
    · rw [hf, current]
      split
      · rw [Function.update_self]
        exact zero_not_mem_eeprom mac
      · exact hbuf _
    · rw [current_of_ne hf]
      exact hbuf f
  rw [entryOf]
  refine ⟨fun h => name_ne_nil f (List.append_eq_nil_iff.mp h).1, ?_⟩
  rw [List.mem_append, not_or]
  exact ⟨zero_not_mem_name f, hcurrent⟩

/-- The dialogue with an empty line for every prompt. -/
theorem dialogue_empty {n : Nat} {buf : Field → Bytes} {l : List Bytes}
    (hfit : (pack (l ++ (writtenFields v).map (entryOf (current v mac buf)))).length ≤ n) :
    dialogue putMem v mac ⟨(padded n (pack l), (pack l).length),
        List.replicate (prompted v buf).length 10 ++ answer, none, buf⟩
      = some ⟨(padded n (pack (l ++ (writtenFields v).map (entryOf (current v mac buf)))),
          (pack (l ++ (writtenFields v).map (entryOf (current v mac buf)))).length), answer,
          if (prompted v buf).length = 0 then none else some (asc "\n"), current v mac buf⟩ := by
  rw [dialogue_eq, turn]
  simp only
  rw [listen_newlines, Option.bind_some, answered_replicate, writes_pack hfit]
  rfl

/-- **What the session saves** after empty lines and a yes: the rewritten list. -/
theorem run_intools_rewritten (hcrc : crc_int abi env.data = env.crc) (hes : Entries es)
    (hdata : env.data = pack es ++ 0 :: tail)
    (hfirst : ∀ e, es.head? = some e → ∀ f, match_field v e = some f →
      (e.drop f.name.length).length < bufLen)
    (hyes : Yes answer)
    (hfit : ∀ mac, (pack (rewritten v mac (cutList es))).length < env.data.length) :
    Run allOk (intools_main abi v (List.replicate (prompts v es) 10 ++ answer)) env (some r) env' ↔
      r = 0 ∧ ∃ mac : Vector UInt8 6,
        env' = listBlock abi env.data.length (rewritten v (some mac) (cutList es)) := by
  obtain ⟨data, hcount, hfields⟩ := load_fields_closed hes (fieldsFit_cutList hfirst) tail
  rw [← hdata] at hcount hfields
  have hload : ((load abi v env).bind fun data => count_cut data 0)
      = some (data, (pack (cutList es)).length) := by
    rw [load, if_neg (not_not.mpr hcrc), Option.bind_some, hcount]
  have hanswer : answer ≠ [] := by
    rintro rfl
    rcases hyes with h | h <;> cases h
  obtain ⟨s, hs, hsy⟩ := yes_fgets hanswer
    (if (prompted v (loaded v (cutList es)).2).length = 0 then none else some (asc "\n"))
  rw [run_intools_iff hload hfields, ← length_prompted]
  have hsave : ∀ mac : Vector UInt8 6,
      (∀ t, dialogue putMem v (some mac) ⟨(padded env.data.length (pack (loaded v (cutList es)).1),
          (pack (loaded v (cutList es)).1).length),
          List.replicate (prompted v (loaded v (cutList es)).2).length 10 ++ answer, none,
          (loaded v (cutList es)).2⟩ = some t → Run allOk (save abi v t) env (some r) env') ↔
        r = 0 ∧ env' = listBlock abi env.data.length (rewritten v (some mac) (cutList es)) := by
    intro mac
    rw [dialogue_empty (hfit (some mac)).le]
    simp only [Option.some.injEq, forall_eq']
    rw [run_save_iff hs, if_pos (hsy.mpr hyes)]
    rfl
  constructor
  · rintro ⟨mac, h⟩
    obtain ⟨hr, henv⟩ := (hsave mac).mp h
    exact ⟨hr, mac, henv⟩
  · rintro ⟨hr, mac, henv⟩
    exact ⟨mac, (hsave mac).mpr ⟨hr, henv⟩⟩

/-- **A session without edits** keeps the variables of the list as far as the listing
loop leaves it, with their values.  The wireless address of an IR8 or an IP812 is
then the one of the factory partition. -/
theorem run_intools_unedited (hcrc : crc_int abi env.data = env.crc) (hes : Entries es)
    (heq : ∀ e ∈ es, 61 ∈ e) (hnames : (es.map nameOf).Nodup)
    (hdata : env.data = pack es ++ 0 :: tail)
    (hfirst : ∀ e, es.head? = some e → ∀ f, match_field v e = some f →
      (e.drop f.name.length).length < bufLen)
    (hyes : Yes answer)
    (hfit : ∀ mac, (pack (rewritten v mac (cutList es))).length < env.data.length)
    (hr : Run allOk (intools_main abi v (List.replicate (prompts v es) 10 ++ answer)) env (some r)
      env') :
    crc_int abi env'.data = env'.crc ∧ ∃ l, split env'.data = some l ∧
      (∀ name value, getenv (cutList es) name = some value →
        (v.factoryMac = true → name ≠ asc "wlanaddr") → getenv l name = some value) ∧
      (v.factoryMac = true → ∃ mac : Vector UInt8 6,
        getenv l (asc "wlanaddr") = some (eeprom_get_wlanmac (some mac))) := by
  obtain ⟨-, mac, rfl⟩ := (run_intools_rewritten hcrc hes hdata hfirst hyes hfit).mp hr
  have heq' : ∀ e ∈ cutList es, 61 ∈ e := fun e he => heq e ((cutList_sublist es).subset he)
  have hnames' := hnames.sublist ((cutList_sublist es).map nameOf)
  have hkey : Field.wlanmac.key = asc "wlanaddr" := by decide
  refine ⟨listBlock_crc, rewritten v (some mac) (cutList es), ?_, ?_, ?_⟩
  · exact split_padded (entries_rewritten (entries_cutList hes) _) (hfit (some mac))
  · intro name value hvalue hname
    exact getenv_rewritten heq' hnames' (by rw [hkey]; exact hname) hvalue
  · intro hv
    refine ⟨mac, ?_⟩
    rw [← hkey]
    exact getenv_wlanmac heq' hv

end Session

/-- Three variables of a board with nothing in the factory partition. -/
theorem run_intools_unedited_version :
    ∃ l, split (listBlock ⟨true, false⟩ 1000 (rewritten .other none threeVariables)).data = some l ∧
      getenv l (asc "version") = some (asc "1.1.3") ∧
      getenv l (asc "wlanaddr") = some (asc "02:00:00:00:00:01") := by
  have hes : Entries threeVariables := by decide
  have hcut : cutList threeVariables = threeVariables := by decide
  have hdata : (listBlock ⟨true, false⟩ 1000 threeVariables).data
      = pack threeVariables ++ 0 :: List.replicate _ 0 := padded_eq (by decide)
  have hlen : (listBlock ⟨true, false⟩ 1000 threeVariables).data.length = 1000 :=
    length_padded (by decide)
  have hfirst : ∀ e, threeVariables.head? = some e → ∀ f, match_field .other e = some f →
      (e.drop f.name.length).length < bufLen := by
    intro e he f _
    obtain rfl := Option.some.inj he
    rw [List.length_drop]
    exact (Nat.sub_le _ _).trans_lt (by decide)
  have hfit : ∀ mac, (pack (rewritten .other mac (cutList threeVariables))).length
      < (listBlock ⟨true, false⟩ 1000 threeVariables).data.length := by
    intro mac
    rw [hlen, hcut]
    exact show (pack (rewritten .other none threeVariables)).length < 1000 by decide +kernel
  have hyes : Yes (asc "y\n") := Or.inl rfl
  have hrun := (run_intools_rewritten (v := .other) (r := 0) listBlock_crc hes hdata hfirst hyes
    hfit).mpr ⟨rfl, Vector.replicate 6 0, rfl⟩
  obtain ⟨-, l, hl, hkeep, -⟩ := run_intools_unedited listBlock_crc hes (by decide) (by decide) hdata
    hfirst hyes hfit hrun
  rw [hlen, hcut] at hl
  rw [hcut] at hkeep
  exact ⟨l, hl, hkeep _ _ (by decide) (by decide), hkeep _ _ (by decide) (by decide)⟩

/-- A session without edits on a list that is in a block. -/
structure Unedited (abi : Abi) (v : Variant) (env : EnvBlock) (es : List Bytes) (answer : Bytes)
    (env' : EnvBlock) (r : Int) : Prop where
  crc : crc_int abi env.data = env.crc
  entries : Entries es
  equals : ∀ e ∈ es, 61 ∈ e
  names : (es.map nameOf).Nodup
  data : ∃ tail, env.data = pack es ++ 0 :: tail
  yes : Yes answer
  fit : ∀ mac, (pack (rewritten v mac (cutList es))).length < env.data.length
  run : Run allOk (intools_main abi v (List.replicate (prompts v es) 10 ++ answer)) env (some r) env'

/-- Each variable of the list is in the block with its value. -/
def AllKept (es : List Bytes) (env' : EnvBlock) : Prop :=
  ∃ l, split env'.data = some l ∧
    ∀ name value, getenv es name = some value → getenv l name = some value

/-- A list in a block of 1000 bytes, and what a session saves. -/
theorem unedited_listBlock (abi : Abi) {v : Variant} {es : List Bytes} (hes : Entries es)
    (heq : ∀ e ∈ es, 61 ∈ e) (hnames : (es.map nameOf).Nodup) (hlt : (pack es).length < 1000)
    (hfirst : ∀ e, es.head? = some e → ∀ f, match_field v e = some f →
      (e.drop f.name.length).length < bufLen)
    (hfit : ∀ mac, (pack (rewritten v mac (cutList es))).length < 1000) (mac : Vector UInt8 6) :
    Unedited abi v (listBlock abi 1000 es) es (asc "y\n")
      (listBlock abi 1000 (rewritten v (some mac) (cutList es))) 0 := by
  have hlen : (listBlock abi 1000 es).data.length = 1000 := length_padded hlt.le
  have hdata : (listBlock abi 1000 es).data = pack es ++ 0 :: List.replicate _ 0 := padded_eq hlt
  have hyes : Yes (asc "y\n") := Or.inl rfl
  have hfit' : ∀ mac, (pack (rewritten v mac (cutList es))).length
      < (listBlock abi 1000 es).data.length := fun mac => (hfit mac).trans_eq hlen.symm
  refine ⟨listBlock_crc, hes, heq, hnames, ⟨_, hdata⟩, hyes, hfit', ?_⟩
  refine (run_intools_rewritten listBlock_crc hes hdata hfirst hyes hfit').mpr ⟨rfl, mac, ?_⟩
  rw [hlen]

theorem AllKept.value {abi : Abi} {v : Variant} {es : List Bytes} {mac : Vector UInt8 6}
    (hes : Entries es) (hfit : ∀ mac, (pack (rewritten v mac (cutList es))).length < 1000)
    (h : AllKept es (listBlock abi 1000 (rewritten v (some mac) (cutList es))))
    {name value : Bytes} (hvalue : getenv es name = some value) :
    getenv (rewritten v (some mac) (cutList es)) name = some value := by
  obtain ⟨l, hl, hkeep⟩ := h
  rw [listBlock_data, split_padded (entries_rewritten (entries_cutList hes) _) (hfit (some mac))] at hl
  obtain rfl := Option.some.inj hl
  exact hkeep name value hvalue

theorem length_eeprom_get_wlanmac (mac : Option (Vector UInt8 6)) :
    (eeprom_get_wlanmac mac).length = 17 := by
  match mac with
  | none => rfl
  | some ⟨⟨[_, _, _, _, _, _]⟩, _⟩ => rfl

theorem length_pack_map {α : Type} {f g : α → Bytes} {l : List α}
    (h : ∀ a ∈ l, (f a).length = (g a).length) :
    (pack (l.map f)).length = (pack (l.map g)).length := by
  induction l with
  | nil => rfl
  | cons a l ih =>
    rw [List.map_cons, List.map_cons, pack_cons, pack_cons, List.length_append, List.length_append,
      List.length_cons, List.length_cons, h a (.head l), ih fun b hb => h b (.tail a hb)]

/-- One address takes as much room as another. -/
theorem length_rewritten (v : Variant) (mac mac' : Option (Vector UInt8 6)) (es : List Bytes) :
    (pack (rewritten v mac es)).length = (pack (rewritten v mac' es)).length := by
  rw [rewritten, rewritten, pack_append, pack_append, List.length_append, List.length_append]
  refine congrArg _ (length_pack_map fun f _ => ?_)
  rw [entryOf, entryOf, List.length_append, List.length_append, current, current]
  split
  · by_cases hf : f = .wlanmac
    · rw [hf, Function.update_self, Function.update_self, length_eeprom_get_wlanmac,
        length_eeprom_get_wlanmac]
    · rw [Function.update_of_ne hf, Function.update_of_ne hf]
  · rfl

/-- The listing loop cuts the list, and the session saves what is left.  Of a list that is not cut
an IR8 does not keep the wireless address. -/
theorem unedited_drops_long :
    (¬ ∀ (abi : Abi) (v : Variant) (env env' : EnvBlock) (es : List Bytes) (answer : Bytes) (r : Int),
      Unedited abi v env es answer env' r → AllKept es env') ∧
    ¬ ∀ (abi : Abi) (v : Variant) (env env' : EnvBlock) (es : List Bytes) (answer : Bytes) (r : Int),
      cutList es = es → Unedited abi v env es answer env' r → AllKept es env' := by
  constructor
  · intro h
    have hes : Entries longVariable := by decide +kernel
    have hcut : cutList longVariable = [asc "a=1"] := by decide +kernel
    have hfirst : ∀ e, longVariable.head? = some e → ∀ f, match_field .other e = some f →
        (e.drop f.name.length).length < bufLen := by
      intro e he f _
      obtain rfl := Option.some.inj he
      rw [List.length_drop]
      exact (Nat.sub_le _ _).trans_lt (by decide)
    have hfit : ∀ mac, (pack (rewritten .other mac (cutList longVariable))).length < 1000 := by
      intro mac
      rw [hcut]
      exact show (pack (rewritten .other none [asc "a=1"])).length < 1000 by decide +kernel
    have hrun := unedited_listBlock ⟨true, false⟩ hes (by decide +kernel)
      (by decide +kernel) (by decide +kernel) hfirst hfit (Vector.replicate 6 0)
    have hkept := (h _ _ _ _ _ _ _ hrun).value hes hfit
      (show getenv longVariable (asc "b") = some (List.replicate 129 120) by decide +kernel)
    have hgone : getenv (rewritten .other none [asc "a=1"]) (asc "b") = none := by decide +kernel
    rw [hcut] at hkept
    cases hgone.symm.trans hkept
  · intro h
    have hes : Entries threeVariables := by decide
    have hcut : cutList threeVariables = threeVariables := by decide
    have hfirst : ∀ e, threeVariables.head? = some e → ∀ f, match_field .IR8 e = some f →
        (e.drop f.name.length).length < bufLen := by
      intro e he f _
      obtain rfl := Option.some.inj he
      rw [List.length_drop]
      exact (Nat.sub_le _ _).trans_lt (by decide)
    have hfit : ∀ mac, (pack (rewritten .IR8 mac (cutList threeVariables))).length < 1000 := by
      intro mac
      rw [hcut, length_rewritten .IR8 mac none]
      decide +kernel
    have hrun := unedited_listBlock ⟨true, false⟩ hes (by decide) (by decide)
      (by decide +kernel) hfirst hfit (Vector.replicate 6 0)
    have hkept := (h _ _ _ _ _ _ _ hcut hrun).value hes hfit
      (show getenv threeVariables (asc "wlanaddr") = some (asc "02:00:00:00:00:01") by decide)
    have hother : getenv (rewritten .IR8 (some (Vector.replicate 6 0)) threeVariables)
        (asc "wlanaddr") = some (asc "00:00:00:00:00:00") := by decide +kernel
    rw [hcut, hother] at hkept
    exact absurd hkept (by decide)

end Boxing.Intools
