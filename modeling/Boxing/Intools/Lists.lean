import Boxing.Intools.Session

/-!
# The session on lists

On a well formed block the session can be read without its pointers: the listing
loop keeps the first entry and those behind it up to one of more than 128 bytes
(`cutList`), the loop over the copy parts the rest into the entries that stay and
the fields (`loaded`), and the prompts append one entry each (`asks_toMem`).

`run_intools` puts this together.  What can go wrong on the way is an answer
buffer that is unset or empty when a prompt looks at it, and a first entry whose
value does not fit the buffer of its field; `Answered` and `FieldsFit` say that
neither happens.
-/

namespace Boxing.Intools

open C Device Uboot

/-! ### Reading the list -/

/-- What the listing loop leaves of a list. -/
def cutList : List Bytes → List Bytes
  | [] => []
  | e :: es => e :: es.takeWhile fun e => e.length ≤ 128

/-- What the loop over the copy makes of one entry: an entry that stays, or the
value of a field. -/
def loadStep (v : Variant) (st : List Bytes × (Field → Bytes)) (e : Bytes) :
    List Bytes × (Field → Bytes) :=
  match match_field v e with
  | some f => (st.1, Function.update st.2 f (e.drop f.name.length))
  | none => (st.1 ++ [e], st.2)

/-- The entries that stay, and the fields. -/
def loaded (v : Variant) (es : List Bytes) : List Bytes × (Field → Bytes) :=
  es.foldl (loadStep v) ([], initial v)

/-- The values of the fields fit their buffers. -/
def FieldsFit (v : Variant) (es : List Bytes) : Prop :=
  ∀ e ∈ es, ∀ f, match_field v e = some f → (e.drop f.name.length).length < bufLen

section Reading

variable {v : Variant} {es : List Bytes} {n : Nat}

theorem cutList_sublist (es : List Bytes) : (cutList es).Sublist es := by
  cases es with
  | nil => exact List.Sublist.refl _
  | cons e es => exact (List.takeWhile_sublist _).cons_cons e

theorem entries_cutList (h : Entries es) : Entries (cutList es) :=
  fun e he => h e ((cutList_sublist es).subset he)

theorem drop_pack (done : List Bytes) (m : Bytes) :
    (pack done ++ m).drop (pack done).length = m := List.drop_left

/-- Behind `done` the loop stands at the entry `e`, and looks at what follows. -/
theorem count_cut_cons {done : List Bytes} {e m : Bytes} (he : e ≠ [] ∧ 0 ∉ e) :
    count_cut (pack done ++ (e ++ 0 :: m)) (pack done).length =
      match strlen m with
      | none => none
      | some k =>
        if 128 < k then
          (store (pack done ++ (e ++ 0 :: m)) (pack (done ++ [e])).length [0]).map fun data =>
            (data, (pack (done ++ [e])).length)
        else count_cut (pack done ++ (e ++ 0 :: m)) (pack (done ++ [e])).length := by
  obtain ⟨n, hn⟩ : ∃ n, e.length = n + 1 :=
    ⟨e.length - 1, by have := List.length_pos_iff.mpr he.1; omega⟩
  have hpos : (pack done).length + (n + 1) + 1 = (pack (done ++ [e])).length := by
    rw [length_pack_concat, hn]
  have hdrop : (pack done ++ (e ++ 0 :: m)).drop (pack (done ++ [e])).length = m := by
    have : pack done ++ (e ++ 0 :: m) = pack (done ++ [e]) ++ m := by
      rw [pack_concat]
      simp
    rw [this, drop_pack]
  rw [count_cut]
  split
  · rename_i h
    rw [drop_pack, strlen_append_zero _ _ he.2] at h
    cases h
  · rename_i h
    rw [drop_pack, strlen_append_zero _ _ he.2, hn] at h
    cases h
  · rename_i k h
    rw [drop_pack, strlen_append_zero _ _ he.2, hn] at h
    obtain rfl : n = k := by simpa using h
    cases hm : strlen m with
    | none => simp only [hpos, hdrop, hm]
    | some k => simp only [hpos, hdrop, hm]

theorem count_cut_end (done : List Bytes) (m : Bytes) :
    count_cut (pack done ++ 0 :: m) (pack done).length
      = some (pack done ++ 0 :: m, (pack done).length) := by
  rw [count_cut]
  split
  · rename_i h
    rw [drop_pack, strlen, if_pos rfl] at h
    cases h
  · rfl
  · rename_i h
    rw [drop_pack, strlen, if_pos rfl] at h
    cases h

/-- `*ptmp = '\0'`: the list ends here. -/
theorem store_nul (l : List Bytes) {m : Bytes} (hm : m ≠ []) :
    store (pack l ++ m) (pack l).length [0] = some (pack l ++ 0 :: m.drop 1) := by
  obtain ⟨c, m, rfl⟩ := List.exists_cons_of_ne_nil hm
  have := store_append (a := pack l) (b := [c]) (c := m) [0] rfl
  simpa using this

/-- **The listing loop** leaves the cut list, closed, and its length. -/
theorem count_cut_pack : ∀ (es done : List Bytes) (t : Bytes), Entries es →
    ∃ data, count_cut (pack done ++ (pack es ++ 0 :: t)) (pack done).length
        = some (data, (pack (done ++ cutList es)).length) ∧
      data.length = (pack done ++ (pack es ++ 0 :: t)).length ∧
      data.take ((pack (done ++ cutList es)).length + 1) = pack (done ++ cutList es) ++ [0] := by
  intro es
  induction es with
  | nil =>
    intro done t _
    refine ⟨_, by rw [pack_nil, List.nil_append, cutList, List.append_nil]; exact count_cut_end _ _,
      rfl, ?_⟩
    rw [cutList, List.append_nil]
    exact take_closed done t
  | cons e es ih =>
    intro done t h
    have he := h e (by simp)
    have hcat : pack done ++ (pack (e :: es) ++ 0 :: t)
        = pack done ++ (e ++ 0 :: (pack es ++ 0 :: t)) := by simp
    have hcat' : pack done ++ (e ++ 0 :: (pack es ++ 0 :: t))
        = pack (done ++ [e]) ++ (pack es ++ 0 :: t) := by rw [pack_concat]; simp
    rw [hcat, count_cut_cons he]
    cases es with
    | nil =>
      obtain ⟨data, hc, hl, ht⟩ := ih (done ++ [e]) t h.tail
      refine ⟨data, ?_, by rw [hl, hcat'], ?_⟩
      · rw [← hcat'] at hc
        simpa [strlen, cutList] using hc
      · simpa [cutList] using ht
    | cons f fs =>
      have hf := h f (by simp)
      have hlen : strlen (pack (f :: fs) ++ 0 :: t) = some f.length := by
        rw [pack_cons, List.append_assoc, List.cons_append]
        exact strlen_append_zero _ _ hf.2
      rw [hlen]
      by_cases hcut : 128 < f.length
      · have hstore := @store_nul (done ++ [e]) (pack (f :: fs) ++ 0 :: t) (by simp)
        have hlist : cutList (e :: f :: fs) = [e] := by
          rw [cutList, List.takeWhile_cons_of_neg (by simpa using hcut)]
        refine ⟨pack (done ++ [e]) ++ 0 :: (pack (f :: fs) ++ 0 :: t).drop 1, ?_, ?_, ?_⟩
        · simp only
          rw [if_pos hcut, hcat', hstore, hlist]
          rfl
        · simp only [hcat', List.length_append, List.length_cons, List.length_drop]
          omega
        · rw [hlist]
          exact take_closed _ _
      · obtain ⟨data, hc, hl, ht⟩ := ih (done ++ [e]) t h.tail
        have hlist : cutList (e :: f :: fs) = e :: cutList (f :: fs) := by
          rw [cutList, cutList, List.takeWhile_cons_of_pos (by simpa using hcut)]
        have happ : done ++ cutList (e :: f :: fs) = done ++ [e] ++ cutList (f :: fs) := by
          rw [hlist, List.append_assoc, List.singleton_append]
        refine ⟨data, ?_, by rw [hl, hcat'], by rw [happ]; exact ht⟩
        simp only
        rw [if_neg hcut, happ, hcat']
        exact hc

/-- The loop over the copy, with the entries that stay at the front of the cleared
area. -/
theorem foldlM_load_entry : ∀ (es : List Bytes) (st : List Bytes × (Field → Bytes)),
    FieldsFit v es → (pack st.1).length + (pack es).length ≤ n →
    es.foldlM (load_entry v) ((padded n (pack st.1), (pack st.1).length), st.2)
      = some ((padded n (pack (es.foldl (loadStep v) st).1),
          (pack (es.foldl (loadStep v) st).1).length), (es.foldl (loadStep v) st).2) := by
  intro es
  induction es with
  | nil => intro st _ _; rfl
  | cons e es ih =>
    intro st hfit hlen
    have hfit' : FieldsFit v es := fun x hx => hfit x (List.mem_cons_of_mem e hx)
    rw [pack_cons, List.length_append, List.length_cons] at hlen
    rw [List.foldlM_cons, List.foldl_cons, load_entry, loadStep]
    cases hf : match_field v e with
    | some f =>
      simp only
      rw [if_pos (hfit e (by simp) f hf)]
      exact ih (st.1, Function.update st.2 f (e.drop f.name.length)) hfit' (by simp only; omega)
    | none =>
      have hone : (pack (st.1 ++ [e])).length ≤ n := by rw [length_pack_concat]; omega
      simp only
      rw [strcpy_pack hone, Option.map_some, ← length_pack_concat]
      exact ih (st.1 ++ [e], st.2) hfit' (by rw [length_pack_concat]; omega)

/-- **What the session starts from**, whatever stands behind the closed list. -/
theorem load_fields_closed (hes : Entries es) (hfit : FieldsFit v (cutList es)) (tail : Bytes) :
    ∃ data, count_cut (pack es ++ 0 :: tail) 0 = some (data, (pack (cutList es)).length) ∧
      load_fields v data (pack (cutList es)).length
        = some ((padded (pack es ++ 0 :: tail).length (pack (loaded v (cutList es)).1),
            (pack (loaded v (cutList es)).1).length), (loaded v (cutList es)).2) := by
  obtain ⟨data, hc, hl, ht⟩ := count_cut_pack es [] tail hes
  rw [pack_nil, List.length_nil, List.nil_append, List.nil_append] at hc
  rw [pack_nil, List.nil_append] at hl
  rw [List.nil_append] at ht
  refine ⟨data, hc, ?_⟩
  have hle := length_pack_sublist (cutList_sublist es)
  have := foldlM_load_entry (n := (pack es ++ 0 :: tail).length) (cutList es) ([], initial v) hfit
    (by rw [pack_nil, List.length_nil, List.length_append]; omega)
  rw [pack_nil, padded_nil, List.length_nil] at this
  rw [load_fields, hl, ht, walk_pack _ _ _ (entries_cutList hes)]
  exact this

theorem load_fields_list (hes : Entries es) (h : (pack es).length < n)
    (hfit : FieldsFit v (cutList es)) :
    ((some (padded n (pack es))).bind fun data => count_cut data 0).bind
        (fun r => load_fields v r.1 r.2)
      = some ((padded n (pack (loaded v (cutList es)).1), (pack (loaded v (cutList es)).1).length),
          (loaded v (cutList es)).2) := by
  obtain ⟨data, hc, hf⟩ :=
    load_fields_closed hes hfit (List.replicate (n - (pack es).length - 1) 0)
  rw [← padded_eq h] at hc hf
  rw [Option.bind_some, hc, Option.bind_some, hf, length_padded h.le]

end Reading

end Boxing.Intools
