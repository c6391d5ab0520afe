import Boxing.Fdt.Lookup
import Boxing.Fit.Covers

/-!
# The integrity check on the bytes of an image

`image-fit.c` has nothing but the address of the image: its nodes are offsets, and a property is
a place in memory and a length.  Nothing it is given says how far a walk can go, so the loops
have a bound here like those of `libfdt`.

In an image where there is a list of tags (`Image`) every one of the loops comes to its end, and
the answer is that of the check on the list: none of the functions sees more of the bytes than
the tags say.  What is known of the check (`fit_all_image_verify_iff`) is then known of the bytes
(`passes_iff`).
-/

namespace Boxing.Fit

open C Fdt

/-! ### The format -/

/-- `FIT_DESC_PROP`. -/
def FIT_DESC_PROP : Bytes := asc "description"

/-- `FIT_IMAGE_DESC`. -/
def FIT_IMAGE_DESC : Bytes := asc "Inhand IG5X2 image"

/-- `fit_check_format(fit)`: the description is looked at for 255 characters. -/
def fit_check_format (fit : Blob) : Bool :=
  match fdt_getprop fit.tags FIT_DESC_PROP with
  | none => false
  | some (value, behind) =>
    if (strstr ((str (value ++ behind)).take 255) FIT_IMAGE_DESC).isNone then false
    else (fdt_path_offset fit FIT_IMAGES_PATH).isOk

end Boxing.Fit

namespace Boxing.Fit.Raw

open C Fdt Fdt.Raw

/-! ### The functions -/

/-- `fit_image_get_data(fit, noffset, &data, &size)`. -/
def fit_image_get_data (fit : Bytes) (n : Nat) (noffset : Int) : Option (Except Int (Int × Int)) :=
  fdt_getprop fit n noffset FIT_DATA_PROP

/-- `fit_image_hash_get_algo(fit, noffset, &algo)`. -/
def fit_image_hash_get_algo (fit : Bytes) (n : Nat) (noffset : Int) :
    Option (Except Int (Int × Int)) :=
  fdt_getprop fit n noffset FIT_ALGO_PROP

/-- `fit_image_hash_get_value(fit, noffset, &value, &value_len)`. -/
def fit_image_hash_get_value (fit : Bytes) (n : Nat) (noffset : Int) :
    Option (Except Int (Int × Int)) :=
  fdt_getprop fit n noffset FIT_VALUE_PROP

/-- `fit_image_hash_get_ignore(fit, noffset, &ignore)`: what is in `ignore`. -/
def fit_image_hash_get_ignore (fit : Bytes) (n : Nat) (noffset : Int) : Option Int :=
  (fdt_getprop fit n noffset FIT_IGNORE_PROP).map fun r =>
    match r with
    | .error _ => 0
    | .ok (value, len) => if len = 4 then int (memory fit value) 0 else 0

/-- The end of `fit_image_check_hash`, from `calculate_hash` on. -/
def compare_hash (cfg : Config) (fit : Bytes) (data algo fit_value fit_value_len : Int)
    (size : Int) : Except String Unit :=
  match calculate_hash cfg ((memory fit data).take size.toNat) (memory fit algo) with
  | none => .error "Unsupported hash algorithm"
  | some (value, value_len) =>
    if (value_len : Int) ≠ fit_value_len then .error "Bad hash value len"
    else if value.take value_len ≠ (memory fit fit_value).take value_len then
      .error "Bad hash value"
    else .ok ()

/-- `if (IMAGE_ENABLE_IGNORE) { ...; if (ignore) ... }`. -/
def skips (cfg : Config) (fit : Bytes) (n : Nat) (noffset : Int) : Option Bool :=
  if cfg.IMAGE_ENABLE_IGNORE then
    (fit_image_hash_get_ignore fit n noffset).map fun ignore => decide (ignore ≠ 0)
  else some false

/-- `fit_image_check_hash(fit, noffset, data, size, &err_msg)`. -/
def fit_image_check_hash (cfg : Config) (fit : Bytes) (n : Nat) (noffset data size : Int) :
    Option (Except String Unit) :=
  (fit_image_hash_get_algo fit n noffset).bind fun r =>
    match r with
    | .error _ => some (.error "Can't get hash algo property")
    | .ok (algo, _) =>
      (skips cfg fit n noffset).bind fun skipped =>
        if skipped then some (.ok ())
        else
          (fit_image_hash_get_value fit n noffset).map fun r =>
            match r with
            | .error _ => .error "Can't get hash value property"
            | .ok (fit_value, fit_value_len) =>
              compare_hash cfg fit data algo fit_value fit_value_len size

/-- `fdt_for_each_subnode(noffset, fit, image_noffset)` from one of them on, and the test behind
it; a node without a name would crash. -/
def fit_image_verify_loop (cfg : Config) (fit : Bytes) (n : Nat) (data size : Int) :
    Nat → Int → Option Bool
  | 0, _ => none
  | k + 1, noffset =>
    if noffset < 0 then
      some (¬ (noffset = -FDT_ERR_TRUNCATED ∨ noffset = -FDT_ERR_BADSTRUCTURE))
    else
      (fdt_get_name fit noffset).bind fun name =>
        if strncmpEq name FIT_HASH_NODENAME FIT_HASH_NODENAME.length then
          (fit_image_check_hash cfg fit n noffset data size).bind fun r =>
            if r.isOk then
              (fdt_next_subnode fit n noffset).bind (fit_image_verify_loop cfg fit n data size k)
            else some false
        else (fdt_next_subnode fit n noffset).bind (fit_image_verify_loop cfg fit n data size k)

/-- `fit_image_verify(fit, image_noffset)`. -/
def fit_image_verify (cfg : Config) (fit : Bytes) (n : Nat) (image_noffset : Int) : Option Bool :=
  (fit_image_get_data fit n image_noffset).bind fun r =>
    match r with
    | .error _ => some false
    | .ok (data, size) =>
      (fdt_first_subnode fit n image_noffset).bind (fit_image_verify_loop cfg fit n data size n)

/-- `for (...; (noffset >= 0) && (ndepth > 0); ...)` of `fit_all_image_verify`. -/
def fit_all_image_verify_loop (cfg : Config) (fit : Bytes) (n : Nat) : Nat → Int → Int → Option Bool
  | 0, _, _ => none
  | k + 1, noffset, ndepth =>
    if 0 ≤ noffset ∧ 0 < ndepth then
      if ndepth = 1 then
        (fit_image_verify cfg fit n noffset).bind fun ok =>
          if ok then
            (fdt_next_node fit n noffset ndepth).bind fun r =>
              fit_all_image_verify_loop cfg fit n k r.1 r.2
          else some false
      else
        (fdt_next_node fit n noffset ndepth).bind fun r =>
          fit_all_image_verify_loop cfg fit n k r.1 r.2
    else some true

/-- `fit_all_image_verify(fit)`. -/
def fit_all_image_verify (cfg : Config) (fit : Bytes) (n : Nat) : Option Bool :=
  (fdt_path_offset fit n FIT_IMAGES_PATH).bind fun images_noffset =>
    if images_noffset < 0 then some false
    else
      (fdt_next_node fit n images_noffset 0).bind fun r =>
        fit_all_image_verify_loop cfg fit n n r.1 r.2

/-- `fit_check_format(fit)`. -/
def fit_check_format (fit : Bytes) (n : Nat) : Option Bool :=
  (fdt_getprop fit n 0 FIT_DESC_PROP).bind fun r =>
    match r with
    | .error _ => some false
    | .ok (p, _) =>
      if (strstr ((str (memory fit p)).take 255) FIT_IMAGE_DESC).isNone then some false
      else (fdt_path_offset fit n FIT_IMAGES_PATH).map fun offset => decide (0 ≤ offset)

variable {cfg : Config} {fit : Bytes} {b : Blob} {n o : Nat} {l : List Tag} {s : Stop}

/-! ### A hash -/

/-- A property is found at both levels, or at neither. -/
theorem getprop_cases (hm : Mapped fit) (h : Place fit o l s) {t : Bytes} (ht : 0 ∉ t)
    (hn : l.length < n) :
    (∃ e, fdt_getprop fit n o t = some (.error e) ∧ Fdt.fdt_getprop l t = none) ∨
      ∃ (p : Int) (value behind : Bytes), memory fit p = value ++ behind ∧
        fdt_getprop fit n o t = some (.ok (p, value.length)) ∧
          Fdt.fdt_getprop l t = some (value, behind) := by
  obtain ⟨v, hv, hfound⟩ := fdt_getprop_at hm h ht hn
  rw [hv]
  generalize Fdt.fdt_getprop l t = r at hfound
  cases hfound with
  | none he => exact Or.inl ⟨_, rfl, rfl⟩
  | some hmem => exact Or.inr ⟨_, _, _, hmem, rfl, rfl⟩

theorem int_append (value behind : Bytes) (hlen : value.length = 4) :
    int (value ++ behind) 0 = int value 0 := by
  have hget : ∀ i < 4, (value ++ behind).getD i 0 = value.getD i 0 := by
    intro i hi
    exact List.getD_append _ _ _ _ (by omega)
  rw [int, int, hget 0 (by decide), hget (0 + 1) (by decide), hget (0 + 2) (by decide),
    hget (0 + 3) (by decide)]

theorem fit_image_hash_get_ignore_at (hm : Mapped fit) (h : Place fit o l s)
    (hn : l.length < n) :
    fit_image_hash_get_ignore fit n o = some (Fit.fit_image_hash_get_ignore l) := by
  rw [fit_image_hash_get_ignore, Fit.fit_image_hash_get_ignore]
  rcases getprop_cases hm h (t := FIT_IGNORE_PROP) (by decide) hn with
    ⟨e, hv, hr⟩ | ⟨p, value, behind, hmem, hv, hr⟩
  · rw [hv, hr]
    rfl
  · rw [hv, hr, Option.map_some]
    simp only [hmem]
    by_cases hlen : value.length = 4
    · rw [if_pos hlen, if_pos (by omega), int_append value behind hlen]
    · rw [if_neg hlen, if_neg (by omega)]

theorem skips_at (hm : Mapped fit) (h : Place fit o l s) (hn : l.length < n) :
    skips cfg fit n o =
      some (decide (cfg.IMAGE_ENABLE_IGNORE = true ∧ Fit.fit_image_hash_get_ignore l ≠ 0)) := by
  rw [skips, fit_image_hash_get_ignore_at hm h hn]
  by_cases hignore : cfg.IMAGE_ENABLE_IGNORE = true
  · simp [hignore]
  · simp [hignore]

/-- **`fit_image_check_hash`** on the bytes and on the tags. -/
theorem fit_image_check_hash_at (hm : Mapped fit) (h : Place fit o l s) (hn : l.length < n)
    {p : Int} {data behind : Bytes} (hdata : memory fit p = data ++ behind) :
    fit_image_check_hash cfg fit n o p data.length =
      some (Fit.fit_image_check_hash cfg l data) := by
  rw [fit_image_check_hash, Fit.fit_image_check_hash, fit_image_hash_get_algo]
  rcases getprop_cases hm h (t := FIT_ALGO_PROP) (by decide) hn with
    ⟨e, hv, hr⟩ | ⟨q, algo, rest, halgo, hv, hr⟩
  · rw [hv, hr]
    rfl
  rw [hv, hr, Option.bind_some]
  simp only [skips_at hm h hn, Option.bind_some, decide_eq_true_eq]
  by_cases hskip : cfg.IMAGE_ENABLE_IGNORE = true ∧ Fit.fit_image_hash_get_ignore l ≠ 0
  · rw [if_pos hskip, if_pos hskip]
  rw [if_neg hskip, if_neg hskip, fit_image_hash_get_value]
  rcases getprop_cases hm h (t := FIT_VALUE_PROP) (by decide) hn with
    ⟨e, hv, hr⟩ | ⟨v, value, rest', hvalue, hv, hr⟩
  · rw [hv, hr]
    rfl
  rw [hv, hr, Option.map_some]
  simp only
  rw [compare_hash, hdata, halgo, hvalue, Int.toNat_natCast, List.take_left]
  cases hhash : calculate_hash cfg data (algo ++ rest) with
  | none => rfl
  | some c =>
    obtain ⟨c, len⟩ := c
    simp only
    by_cases hlen : len = value.length
    · have hlen' : ¬ (len : Int) ≠ value.length := by omega
      have htake : (value ++ rest').take len = value.take len := by
        rw [hlen, List.take_left, List.take_length]
      rw [if_neg hlen', if_neg (not_not.mpr hlen), htake]
    · rw [if_pos (by omega), if_pos hlen]

/-! ### The loops -/

/-- The next subnode of a node is one. -/
theorem node_of_first {nodes : List (List Tag)} {l' : List Tag} (h : first nodes = .ok l') :
    l' ∈ nodes := by
  cases nodes with
  | nil => cases h
  | cons node nodes =>
    cases h
    exact List.mem_cons_self ..

theorem node_of_next_subnode {l' : List Tag} (h : Fdt.fdt_next_subnode b l = .ok l') :
    ∃ name l'', l' = .begin_node name :: l'' := by
  rcases node_cases l with ⟨name, l₀, rfl⟩ | ⟨-, hnext⟩
  · rw [fdt_next_subnode_eq] at h
    exact exists_of_mem_level (node_of_first h)
  · rw [Fdt.fdt_next_subnode, fdt_next_subnode_loop_of_error (hnext b 1)] at h
    cases h

theorem node_of_first_subnode {l' : List Tag} (h : Fdt.fdt_first_subnode b l = .ok l') :
    ∃ name l'', l' = .begin_node name :: l'' := by
  rcases node_cases l with ⟨name, l₀, rfl⟩ | ⟨-, hnext⟩
  · rw [fdt_first_subnode_eq] at h
    exact exists_of_mem_level (node_of_first h)
  · rw [Fdt.fdt_first_subnode, hnext b 0] at h
    cases h

theorem fdt_first_subnode_length {l' : List Tag} (h : Fdt.fdt_first_subnode b l = .ok l') :
    l'.length < l.length := by
  rw [Fdt.fdt_first_subnode] at h
  split at h
  · cases h
  · rename_i hnext
    split at h
    · cases h
    · cases h
      exact fdt_next_node_length hnext

/-- The loop of `fit_image_verify`. -/
theorem fit_image_verify_loop_at (hm : Mapped fit) (hcheck : fdt_check_header fit = 0)
    {p : Int} {data behind : Bytes} (hdata : memory fit p = data ++ behind)
    (h : Place fit o l b.stop) (hnode : ∃ name l', l = .begin_node name :: l') (hn : l.length < n)
    {k : Nat} (hk : l.length < k) :
    fit_image_verify_loop cfg fit n p data.length k o =
      some (Fit.fit_image_verify_loop cfg b data l) := by
  induction k generalizing o l with
  | zero => exact absurd hk (Nat.not_lt_zero _)
  | succ k ih =>
    obtain ⟨name, l₀, rfl⟩ := hnode
    have hname : fdt_get_name fit o = some name := fdt_get_name_at hm hcheck h
    have hhash : strncmpEq name FIT_HASH_NODENAME FIT_HASH_NODENAME.length =
        hash_named (.begin_node name :: l₀) := rfl
    rw [fit_image_verify_loop, if_neg (by omega), hname, Option.bind_some, hhash,
      fit_image_check_hash_at hm h hn hdata, Option.bind_some]
    by_cases hpass : Passes cfg data (.begin_node name :: l₀)
    · -- the loop goes on
      obtain ⟨o', hnext, hat⟩ := fdt_next_subnode_at hm h hn
      have hgo : (fdt_next_subnode fit n o).bind (fit_image_verify_loop cfg fit n p data.length k) =
          some (Fit.fit_image_verify_loop cfg b data (.begin_node name :: l₀)) := by
        rw [hnext, Option.bind_some]
        cases hr : Fdt.fdt_next_subnode b (.begin_node name :: l₀) with
        | error e =>
          rw [hr] at hat
          rw [fit_image_verify_loop_of_error hpass hr]
          cases hat with
          | error he =>
            obtain ⟨k, rfl⟩ := Nat.exists_eq_add_one_of_ne_zero (n := k) (by
              rw [List.length_cons] at hk
              omega)
            rw [fit_image_verify_loop, if_pos he]
        | ok l' =>
          have hlt := fdt_next_subnode_length hr
          rw [hr] at hat
          rw [fit_image_verify_loop_of_ok hpass hr]
          cases hat with
          | ok h' => exact ih h' (node_of_next_subnode hr) (by omega) (by omega)
      by_cases hh : hash_named (.begin_node name :: l₀) = true
      · rw [if_pos hh, if_pos (hpass hh)]
        exact hgo
      · rw [if_neg hh]
        exact hgo
    · obtain ⟨hh, hfail⟩ := not_passes_iff.mpr hpass
      rw [if_pos hh, hfail, if_neg (by decide), Fit.fit_image_verify_loop, if_pos ⟨hh, hfail⟩]

/-- **`fit_image_verify`** on the bytes and on the tags. -/
theorem fit_image_verify_at (hm : Mapped fit) (hcheck : fdt_check_header fit = 0)
    (h : Place fit o l b.stop) (hn : l.length < n) :
    fit_image_verify cfg fit n o = some (Fit.fit_image_verify cfg b l) := by
  rw [fit_image_verify, Fit.fit_image_verify, fit_image_get_data]
  rcases getprop_cases hm h (t := FIT_DATA_PROP) (by decide) hn with
    ⟨e, hv, hr⟩ | ⟨p, data, behind, hdata, hv, hr⟩
  · rw [hv, hr]
    rfl
  rw [hv, hr, Option.bind_some]
  simp only
  obtain ⟨o', hfirst, hat⟩ := fdt_first_subnode_at hm h (Nat.le_of_lt hn)
  rw [hfirst, Option.bind_some]
  cases hr : Fdt.fdt_first_subnode b l with
  | error e =>
    rw [hr] at hat
    cases hat with
    | error he =>
      obtain ⟨n, rfl⟩ := Nat.exists_eq_add_one_of_ne_zero (Nat.ne_zero_of_lt hn)
      rw [fit_image_verify_loop, if_pos he]
  | ok l' =>
    rw [hr] at hat
    cases hat with
    | ok h' =>
      have hlt := fdt_first_subnode_length hr
      exact fit_image_verify_loop_at hm hcheck hdata h' (node_of_first_subnode hr) (by omega)
        (by omega)

/-- The loop of `fit_all_image_verify`. -/
theorem fit_all_image_verify_loop_at (hm : Mapped fit) (hcheck : fdt_check_header fit = 0)
    (h : Place fit o l b.stop) (hn : l.length < n) (ndepth : Int) {k : Nat} (hk : l.length + 1 < k) :
    fit_all_image_verify_loop cfg fit n k o ndepth =
      some (Fit.fit_all_image_verify_loop cfg b l ndepth) := by
  induction k generalizing o l ndepth with
  | zero => exact absurd hk (Nat.not_lt_zero _)
  | succ k ih =>
    rw [fit_all_image_verify_loop]
    by_cases hdepth : 0 < ndepth
    swap
    · rw [if_neg (fun hc => hdepth hc.2), Fit.fit_all_image_verify_loop, if_pos hdepth]
    rw [if_pos ⟨Int.natCast_nonneg o, hdepth⟩, fit_image_verify_at hm hcheck h hn,
      Option.bind_some]
    by_cases hpass : ndepth = 1 → Fit.fit_image_verify cfg b l = true
    · -- the loop goes on
      obtain ⟨o', hnext, hat⟩ := fdt_next_node_at hm h ndepth (Nat.le_of_lt hn)
      have hgo : ((fdt_next_node fit n o ndepth).bind fun r =>
          fit_all_image_verify_loop cfg fit n k r.1 r.2) =
            some (Fit.fit_all_image_verify_loop cfg b l ndepth) := by
        rw [hnext, Option.bind_some]
        rcases hr : Fdt.fdt_next_node b l ndepth with ⟨r, d⟩
        rw [hr] at hat
        cases hat with
        | error he =>
          obtain ⟨k, rfl⟩ := Nat.exists_eq_add_one_of_ne_zero (n := k) (by omega)
          rw [fit_all_image_verify_loop_of_error hdepth hpass hr, fit_all_image_verify_loop,
            if_neg (by simp only; omega)]
        | ok h' =>
          have hlt := fdt_next_node_length hr
          rw [fit_all_image_verify_loop_of_ok hdepth hpass hr]
          exact ih h' (by omega) d (by omega)
      by_cases hone : ndepth = 1
      · rw [if_pos hone, hpass hone, if_pos rfl]
        exact hgo
      · rw [if_neg hone]
        exact hgo
    · obtain ⟨hone, hfail⟩ := Classical.not_imp.mp hpass
      rw [Bool.not_eq_true] at hfail
      rw [if_pos hone, hfail, if_neg (by decide), Fit.fit_all_image_verify_loop,
        if_neg (not_not.mpr hdepth), if_pos ⟨hone, hfail⟩]

/-- A path is found only in a blob with a header that is right. -/
theorem check_header_of_path {path : Bytes} {images : List Tag}
    (h : Fdt.fdt_path_offset b path = .ok images) : b.fdt_check_header = 0 := by
  rw [Fdt.fdt_path_offset] at h
  split at h
  · cases h
  · rename_i hcheck
    exact not_not.mp hcheck

theorem fdt_path_offset_loop_length {k : Nat} {p : Bytes} {l' : List Tag}
    (h : Fdt.fdt_path_offset_loop b k p l = .ok l') : l'.length ≤ l.length := by
  induction k generalizing p l with
  | zero =>
    cases h
    exact Nat.le_refl _
  | succ k ih =>
    rw [Fdt.fdt_path_offset_loop] at h
    split at h
    · cases h
      exact Nat.le_refl _
    split at h
    · cases h
      exact Nat.le_refl _
    split at h
    · cases h
    · rename_i hname
      exact Nat.le_trans (ih h) (fdt_subnode_offset_namelen_length hname)

theorem fdt_path_offset_length {path : Bytes} {l' : List Tag}
    (h : Fdt.fdt_path_offset b path = .ok l') : l'.length ≤ b.tags.length := by
  rw [Fdt.fdt_path_offset] at h
  split at h
  · cases h
  · exact fdt_path_offset_loop_length h

/-- **`fit_all_image_verify`** on the bytes and on the tags. -/
theorem fit_all_image_verify_at (hm : Mapped fit) (hi : Image fit b)
    (hn : b.tags.length + 2 ≤ n) :
    fit_all_image_verify cfg fit n = some (Fit.fit_all_image_verify cfg b) := by
  obtain ⟨o', hpath, hat⟩ := fdt_path_offset_at hm hi FIT_IMAGES_PATH (by decide)
    (by decide) hn
  rw [fit_all_image_verify, Fit.fit_all_image_verify, hpath, Option.bind_some]
  cases hr : Fdt.fdt_path_offset b FIT_IMAGES_PATH with
  | error e =>
    rw [hr] at hat
    cases hat with
    | error he => rw [if_pos he]
  | ok images =>
    have hcheck : fdt_check_header fit = 0 := hi.header ▸ check_header_of_path hr
    have hle := fdt_path_offset_length hr
    rw [hr] at hat
    cases hat with
    | ok h =>
      obtain ⟨o', hnext, hat⟩ := fdt_next_node_at hm h 0 (n := n) (by omega)
      rw [if_neg (by omega), hnext, Option.bind_some]
      rcases hr : Fdt.fdt_next_node b images 0 with ⟨r, d⟩
      rw [hr] at hat
      simp only [hr]
      cases hat with
      | error he =>
        obtain ⟨n, rfl⟩ := Nat.exists_eq_add_one_of_ne_zero (n := n) (by omega)
        rw [fit_all_image_verify_loop, if_neg (by omega)]
      | ok h' =>
        have hlt := fdt_next_node_length hr
        exact fit_all_image_verify_loop_at hm hcheck h' (by omega) d (by omega)

/-- **`fit_check_format`** on the bytes and on the tags. -/
theorem fit_check_format_at (hm : Mapped fit) (hi : Image fit b) (hn : b.tags.length + 2 ≤ n) :
    fit_check_format fit n = some (Fit.fit_check_format b) := by
  rw [fit_check_format, Fit.fit_check_format]
  rcases getprop_cases hm hi.place (t := FIT_DESC_PROP) (n := n) (by decide) (by omega) with
    ⟨e, hv, hr⟩ | ⟨p, value, behind, hmem, hv, hr⟩
  · rw [Int.natCast_zero] at hv
    rw [hv, hr]
    rfl
  rw [Int.natCast_zero] at hv
  rw [hv, hr, Option.bind_some]
  simp only [hmem]
  split
  · rfl
  · obtain ⟨o', hpath, hat⟩ := fdt_path_offset_at hm hi FIT_IMAGES_PATH (by decide)
      (by decide) hn
    rw [hpath, Option.map_some]
    generalize Fdt.fdt_path_offset b FIT_IMAGES_PATH = r at hat
    cases hat with
    | ok h =>
      rw [decide_eq_true (Int.natCast_nonneg _)]
      rfl
    | error he =>
      rw [decide_eq_false (Int.not_le.mpr he)]
      rfl

/-! ### An image -/

/-- So many turns are enough for any loop. -/
def turns (fit : Bytes) : Nat := fdt_totalsize fit + 3

/-- The blob that is read from memory where no length wraps. -/
theorem exists_image (hm : Mapped fit) (hwraps : ∀ o, Reached fit 0 o → ¬ Wraps fit o) :
    ∃ b, Image fit b ∧ b.tags.length + 2 ≤ turns fit := by
  obtain ⟨l, s, h⟩ := (exists_reads_iff hm rfl (by decide)).mpr hwraps
  have hlt := h.length_lt hm rfl (Nat.succ_pos _)
  refine ⟨⟨fdt_check_header fit, l, s⟩, ⟨rfl, h⟩, ?_⟩
  show l.length + 2 ≤ fdt_totalsize fit + 3
  omega

/-- **The checks on the bytes** of an image in memory come to their ends, with the answers of those
on the list of its tags, unless a length wraps. -/
theorem checks_on_bytes (cfg : Config) (hm : Mapped fit)
    (hwraps : ∀ o, Reached fit 0 o → ¬ Wraps fit o) :
    ∃ b, Image fit b ∧ ∀ n, turns fit ≤ n →
      fit_check_format fit n = some (Fit.fit_check_format b) ∧
        fit_all_image_verify cfg fit n = some (Fit.fit_all_image_verify cfg b) := by
  obtain ⟨b, hi, hlen⟩ := exists_image hm hwraps
  refine ⟨b, hi, fun n hn => ⟨?_, ?_⟩⟩
  · exact fit_check_format_at hm hi (Nat.le_trans hlen hn)
  · exact fit_all_image_verify_at hm hi (Nat.le_trans hlen hn)

/-- An image in memory: a description, and a kernel with its checksum. -/
def tinyFit : Bytes :=
  ([0xd00dfeed, 244, 56, 216, 40, 17, 16, 0, 28, 160, 0, 0, 0, 0].flatMap htonl ++
    htonl 1 ++ [0, 0, 0, 0] ++
    htonl 3 ++ htonl 19 ++ htonl 0 ++ FIT_IMAGE_DESC ++ [0, 0] ++
    htonl 1 ++ asc "images" ++ [0, 0] ++
    htonl 1 ++ asc "kernel@1" ++ [0, 0, 0, 0] ++
    htonl 3 ++ htonl 9 ++ htonl 12 ++ asc "123456789" ++ [0, 0, 0] ++
    htonl 1 ++ asc "hash@1" ++ [0, 0] ++
    htonl 3 ++ htonl 6 ++ htonl 17 ++ asc "crc32" ++ [0, 0, 0] ++
    htonl 3 ++ htonl 4 ++ htonl 22 ++ [0xcb, 0xf4, 0x39, 0x26] ++
    htonl 2 ++ htonl 2 ++ htonl 2 ++ htonl 2 ++ htonl 9) ++
    FIT_DESC_PROP ++ [0] ++ FIT_DATA_PROP ++ [0] ++ FIT_ALGO_PROP ++ [0] ++ FIT_VALUE_PROP ++ [0]

theorem mapped_tinyFit : Mapped tinyFit := ⟨by decide +kernel, by decide +kernel⟩

/-- No length wraps in it. -/
theorem not_wraps_tinyFit : ∀ o, Reached tinyFit 0 o → ¬ Wraps tinyFit o := by
  have h := @Reads.stop tinyFit 156 160 (by decide +kernel)
  replace h := Reads.end_node (o := 152) (by decide +kernel) h
  replace h := Reads.end_node (o := 148) (by decide +kernel) h
  replace h := Reads.end_node (o := 144) (by decide +kernel) h
  replace h := Reads.end_node (o := 140) (by decide +kernel) h
  replace h := Reads.prop (o := 124) (by decide +kernel) (by decide +kernel) h
  replace h := Reads.prop (o := 104) (by decide +kernel) (by decide +kernel) h
  replace h := Reads.begin_node (o := 92) (by decide +kernel) h
  replace h := Reads.prop (o := 68) (by decide +kernel) (by decide +kernel) h
  replace h := Reads.begin_node (o := 52) (by decide +kernel) h
  replace h := Reads.begin_node (o := 40) (by decide +kernel) h
  replace h := Reads.prop (o := 8) (by decide +kernel) (by decide +kernel) h
  replace h := Reads.begin_node (o := 0) (by decide +kernel) h
  exact (exists_reads_iff mapped_tinyFit rfl (by decide)).mp ⟨_, _, h⟩

/-- What the checks say of it. -/
theorem checks_on_bytes_tinyFit :
    fit_all_image_verify plainConfig tinyFit (turns tinyFit) = some true ∧
      ∃ b, Image tinyFit b ∧ Fit.fit_all_image_verify plainConfig b = true := by
  obtain ⟨b, hi, hb⟩ := checks_on_bytes plainConfig mapped_tinyFit not_wraps_tinyFit
  have hpass : fit_all_image_verify plainConfig tinyFit (turns tinyFit) = some true := by
    decide +kernel
  have hsame := (hb _ (Nat.le_refl _)).2
  rw [hpass] at hsame
  exact ⟨hpass, b, hi, (Option.some.inj hsame).symm⟩

end Boxing.Fit.Raw
