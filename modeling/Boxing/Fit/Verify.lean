import Boxing.Fdt.Tags
import Boxing.Uboot.Crc32

/-!
# The integrity check of `image-fit.c`

`fit_all_image_verify` goes over the subnodes of `/images`, and `fit_image_verify` over the
hash subnodes of one of them: each hash that is not to be ignored is computed again from the
`data` property.  Both leave their loop when there is no next node, for whatever reason.

`image.h` is not in the repository.  The names and lengths it defines are those of the
compiled `image-fit.o`; which algorithms are compiled in is a field of a `Config`, and so are
the digests of the crypto library.
-/

namespace Boxing.Fit

open C Fdt

/-- `FIT_IMAGES_PATH`. -/
def FIT_IMAGES_PATH : Bytes := asc "/images"

/-- `FIT_HASH_NODENAME`. -/
def FIT_HASH_NODENAME : Bytes := asc "hash"

/-- `FIT_DATA_PROP`. -/
def FIT_DATA_PROP : Bytes := asc "data"

/-- `FIT_ALGO_PROP`. -/
def FIT_ALGO_PROP : Bytes := asc "algo"

/-- `FIT_VALUE_PROP`. -/
def FIT_VALUE_PROP : Bytes := asc "value"

/-- `FIT_IGNORE_PROP`. -/
def FIT_IGNORE_PROP : Bytes := asc "uboot-ignore"

/-- `FIT_MAX_HASH_LEN`. -/
def FIT_MAX_HASH_LEN : Nat := 32

/-- The build, and the digests with their lengths. -/
structure Config where
  abi : Abi
  IMAGE_ENABLE_CRC32 : Bool
  IMAGE_ENABLE_SHA1 : Bool
  IMAGE_ENABLE_SHA256 : Bool
  IMAGE_ENABLE_MD5 : Bool
  IMAGE_ENABLE_IGNORE : Bool
  SHA1 : Bytes → Bytes
  SHA256 : Bytes → Bytes
  MD5 : Bytes → Bytes
  sha1_length : ∀ data, (SHA1 data).length = 20
  sha256_length : ∀ data, (SHA256 data).length = FIT_MAX_HASH_LEN
  md5_length : ∀ data, (MD5 data).length = 16

/-- `strcmp(a, b) == 0`. -/
def strcmpEq (a b : Bytes) : Bool := strncmpEq a b (b.length + 1)

/-- `calculate_hash(data, data_len, algo, value, &value_len)`: what is in `value`, and
`value_len`. -/
def calculate_hash (cfg : Config) (data algo : Bytes) : Option (Bytes × Nat) :=
  if cfg.IMAGE_ENABLE_CRC32 ∧ strcmpEq algo (asc "crc32") then
    some (htonl ((Uboot.crc32 cfg.abi 0 data).setWidth 32).toNat, 4)
  else if cfg.IMAGE_ENABLE_SHA1 ∧ strcmpEq algo (asc "sha1") then
    some (cfg.SHA1 data, 20)
  else if cfg.IMAGE_ENABLE_SHA256 ∧ strcmpEq algo (asc "sha256") then
    some (cfg.SHA256 data, FIT_MAX_HASH_LEN)
  else if cfg.IMAGE_ENABLE_MD5 ∧ strcmpEq algo (asc "md5") then
    some (cfg.MD5 data, 16)
  else none

/-- `fit_image_hash_get_ignore`. -/
def fit_image_hash_get_ignore (noffset : List Tag) : Int :=
  match fdt_getprop noffset FIT_IGNORE_PROP with
  | none => 0
  | some (value, _) => if value.length = 4 then int value 0 else 0

/-- `fit_image_check_hash`, with its `*err_msgp`; `algo` is read as a string wherever it
ends. -/
def fit_image_check_hash (cfg : Config) (noffset : List Tag) (data : Bytes) :
    Except String Unit :=
  match fdt_getprop noffset FIT_ALGO_PROP with
  | none => .error "Can't get hash algo property"
  | some (algo, behind) =>
    if cfg.IMAGE_ENABLE_IGNORE ∧ fit_image_hash_get_ignore noffset ≠ 0 then .ok ()
    else
      match fdt_getprop noffset FIT_VALUE_PROP with
      | none => .error "Can't get hash value property"
      | some (fit_value, _) =>
        match calculate_hash cfg data (algo ++ behind) with
        | none => .error "Unsupported hash algorithm"
        | some (value, value_len) =>
          if value_len ≠ fit_value.length then .error "Bad hash value len"
          else if value.take value_len ≠ fit_value.take value_len then .error "Bad hash value"
          else .ok ()

/-- `!strncmp(name, FIT_HASH_NODENAME, strlen(FIT_HASH_NODENAME))`. -/
def hash_named (noffset : List Tag) : Bool :=
  match fdt_get_name noffset with
  | none => false
  | some name => strncmpEq name FIT_HASH_NODENAME FIT_HASH_NODENAME.length

/-- `fdt_for_each_subnode(noffset, fit, image_noffset)`, from one of the subnodes on, and the
test behind it. -/
def fit_image_verify_loop (cfg : Config) (fit : Blob) (data : Bytes) (noffset : List Tag) : Bool :=
  if hash_named noffset ∧ (fit_image_check_hash cfg noffset data).isOk = false then false
  else
    match _h : fdt_next_subnode fit noffset with
    | .error e => ¬ (e = -FDT_ERR_TRUNCATED ∨ e = -FDT_ERR_BADSTRUCTURE)
    | .ok l => fit_image_verify_loop cfg fit data l
termination_by noffset.length
decreasing_by exact fdt_next_subnode_length _h

/-- `fit_image_verify(fit, image_noffset)`. -/
def fit_image_verify (cfg : Config) (fit : Blob) (image_noffset : List Tag) : Bool :=
  match fdt_getprop image_noffset FIT_DATA_PROP with
  | none => false
  | some (data, _) =>
    match fdt_first_subnode fit image_noffset with
    | .error e => ¬ (e = -FDT_ERR_TRUNCATED ∨ e = -FDT_ERR_BADSTRUCTURE)
    | .ok noffset => fit_image_verify_loop cfg fit data noffset

/-- `for (...; (noffset >= 0) && (ndepth > 0); ...)` of `fit_all_image_verify`, from one of
the nodes on. -/
def fit_all_image_verify_loop (cfg : Config) (fit : Blob) (noffset : List Tag) (ndepth : Int) :
    Bool :=
  if ¬ 0 < ndepth then true
  else if ndepth = 1 ∧ fit_image_verify cfg fit noffset = false then false
  else
    match _h : fdt_next_node fit noffset ndepth with
    | (.error _, _) => true
    | (.ok l, d) => fit_all_image_verify_loop cfg fit l d
termination_by noffset.length
decreasing_by exact fdt_next_node_length _h

/-- `fit_all_image_verify(fit)`. -/
def fit_all_image_verify (cfg : Config) (fit : Blob) : Bool :=
  match fdt_path_offset fit FIT_IMAGES_PATH with
  | .error _ => false
  | .ok images_noffset =>
    match fdt_next_node fit images_noffset 0 with
    | (.error _, _) => true
    | (.ok noffset, ndepth) => fit_all_image_verify_loop cfg fit noffset ndepth

/-! ### What is checked -/

/-- The hash node need not match. -/
def Skipped (cfg : Config) (node : List Tag) : Prop :=
  cfg.IMAGE_ENABLE_IGNORE = true ∧ fit_image_hash_get_ignore node ≠ 0

/-- The hash is the stored value. -/
def Matches (cfg : Config) (data : Bytes) (node : List Tag) : Prop :=
  ∃ algo behind value rest, fdt_getprop node FIT_ALGO_PROP = some (algo, behind) ∧
    fdt_getprop node FIT_VALUE_PROP = some (value, rest) ∧
      calculate_hash cfg data (algo ++ behind) = some (value, value.length)

section Checks

variable {cfg : Config} {fit : Blob} {data : Bytes} {node l : List Tag} {name : Bytes}

@[simp] theorem isOk_ok : (Except.ok () : Except String Unit).isOk = true := rfl

@[simp] theorem isOk_error (e : String) : (Except.error e : Except String Unit).isOk = false := rfl

/-- A hash has the length that is told. -/
theorem calculate_hash_length {algo value : Bytes} {n : Nat}
    (h : calculate_hash cfg data algo = some (value, n)) : value.length = n := by
  rw [calculate_hash] at h
  split at h
  · cases h
    rfl
  split at h
  · cases h
    exact cfg.sha1_length data
  split at h
  · cases h
    exact cfg.sha256_length data
  split at h
  · cases h
    exact cfg.md5_length data
  · cases h

/-- **A hash node passes** when it has an algorithm, and is skipped or matches. -/
theorem fit_image_check_hash_iff :
    (fit_image_check_hash cfg node data).isOk = true ↔
      (fdt_getprop node FIT_ALGO_PROP).isSome ∧ (Skipped cfg node ∨ Matches cfg data node) := by
  rw [fit_image_check_hash]
  cases halgo : fdt_getprop node FIT_ALGO_PROP with
  | none => simp
  | some a =>
    obtain ⟨algo, behind⟩ := a
    simp only [Option.isSome_some, true_and]
    split
    · rename_i hskip
      exact iff_of_true rfl (Or.inl hskip)
    rename_i hskip
    cases hvalue : fdt_getprop node FIT_VALUE_PROP with
    | none =>
      refine iff_of_false (by simp) ?_
      rintro (h | ⟨_, _, _, _, -, h, -⟩)
      · exact hskip h
      · rw [hvalue] at h
        cases h
    | some v =>
      obtain ⟨fit_value, rest⟩ := v
      -- what matching says with the two properties known
      have hmatch : Skipped cfg node ∨ Matches cfg data node ↔
          calculate_hash cfg data (algo ++ behind) = some (fit_value, fit_value.length) := by
        constructor
        · rintro (h | ⟨_, _, _, _, ha, hv, h⟩)
          · exact absurd h hskip
          · rw [halgo] at ha
            rw [hvalue] at hv
            cases ha
            cases hv
            exact h
        · intro h
          exact Or.inr ⟨algo, behind, fit_value, rest, halgo, hvalue, h⟩
      rw [hmatch]
      cases hhash : calculate_hash cfg data (algo ++ behind) with
      | none => simp
      | some p =>
        obtain ⟨value, n⟩ := p
        have hlen := calculate_hash_length hhash
        simp only
        split
        · rename_i hne
          refine iff_of_false (by simp) fun h => ?_
          cases h
          exact hne rfl
        rename_i heq
        rw [not_not] at heq
        rw [List.take_of_length_le (Nat.le_of_eq hlen), List.take_of_length_le (Nat.le_of_eq heq.symm)]
        split
        · rename_i hne
          refine iff_of_false (by simp) fun h => ?_
          cases h
          exact hne rfl
        · rename_i hsame
          rw [not_not] at hsame
          rw [hsame, heq]
          exact iff_of_true rfl rfl

/-! ### The loops -/

/-- A hash subnode passes, and any other one. -/
def Passes (cfg : Config) (data : Bytes) (node : List Tag) : Prop :=
  hash_named node = true → (fit_image_check_hash cfg node data).isOk = true

theorem not_passes_iff :
    hash_named node = true ∧ (fit_image_check_hash cfg node data).isOk = false ↔
      ¬ Passes cfg data node := by
  rw [Passes, Classical.not_imp, Bool.not_eq_true]

theorem fit_image_verify_loop_of_error {e : Int} (hpass : Passes cfg data node)
    (h : fdt_next_subnode fit node = .error e) :
    fit_image_verify_loop cfg fit data node =
      decide (¬ (e = -FDT_ERR_TRUNCATED ∨ e = -FDT_ERR_BADSTRUCTURE)) := by
  rw [fit_image_verify_loop, if_neg (fun hc => not_passes_iff.mp hc hpass)]
  split
  · rename_i he
    rw [h] at he
    cases he
    rfl
  · rename_i he
    rw [h] at he
    cases he

theorem fit_image_verify_loop_of_ok (hpass : Passes cfg data node)
    (h : fdt_next_subnode fit node = .ok l) :
    fit_image_verify_loop cfg fit data node = fit_image_verify_loop cfg fit data l := by
  rw [fit_image_verify_loop, if_neg (fun hc => not_passes_iff.mp hc hpass)]
  split
  · rename_i he
    rw [h] at he
    cases he
  · rename_i he
    rw [h] at he
    cases he
    rfl

/-- The loop from a subnode on: it and those behind it pass. -/
theorem fit_image_verify_loop_iff (cfg : Config) (fit : Blob) (data name : Bytes) (l : List Tag) :
    fit_image_verify_loop cfg fit data (.begin_node name :: l) = true ↔
      ∀ node ∈ (.begin_node name :: l) :: level l 1, Passes cfg data node := by
  induction hn : l.length using Nat.strongRecOn generalizing name l with
  | ind n ih =>
    rw [List.forall_mem_cons]
    by_cases hpass : Passes cfg data (.begin_node name :: l)
    · have hnext := fdt_next_subnode_eq fit name l
      rw [and_iff_right hpass]
      rcases level_cases l 1 with hnil | ⟨name', l', hcons, hlt⟩
      · rw [hnil] at hnext
        rw [fit_image_verify_loop_of_error hpass hnext, hnil]
        simp [FDT_ERR_NOTFOUND, FDT_ERR_TRUNCATED, FDT_ERR_BADSTRUCTURE]
      · rw [hcons] at hnext
        rw [fit_image_verify_loop_of_ok hpass hnext, hcons]
        exact ih _ (hn ▸ hlt) name' l' rfl
    · rw [fit_image_verify_loop, if_pos (not_passes_iff.mpr hpass)]
      simp [hpass]

/-- **An image passes** when it has data and all its hash subnodes pass. -/
theorem fit_image_verify_iff (cfg : Config) (fit : Blob) (name : Bytes) (l : List Tag) :
    fit_image_verify cfg fit (.begin_node name :: l) = true ↔
      ∃ data behind, fdt_getprop (.begin_node name :: l) FIT_DATA_PROP = some (data, behind) ∧
        ∀ node ∈ subnodes (.begin_node name :: l), Passes cfg data node := by
  rw [fit_image_verify]
  cases hdata : fdt_getprop (.begin_node name :: l) FIT_DATA_PROP with
  | none => simp
  | some d =>
    obtain ⟨data, behind⟩ := d
    have hall : (∃ data' behind', some (data, behind) = some (data', behind') ∧
        ∀ node ∈ subnodes (.begin_node name :: l), Passes cfg data' node) ↔
          ∀ node ∈ level l 0, Passes cfg data node := by
      constructor
      · rintro ⟨data', behind', he, h⟩
        cases he
        exact h
      · intro h
        exact ⟨data, behind, rfl, h⟩
    rw [hall]
    have hfirst := fdt_first_subnode_eq fit name l
    rcases level_cases l 0 with hnil | ⟨name', l', hcons, -⟩
    · rw [hnil] at hfirst
      simp [hfirst, hnil, first, FDT_ERR_NOTFOUND, FDT_ERR_TRUNCATED, FDT_ERR_BADSTRUCTURE]
    · rw [hcons] at hfirst
      simp only [hfirst, first, hcons]
      exact fit_image_verify_loop_iff cfg fit data name' l'

/-- A node that passes does not end the loop. -/
theorem not_failed {ndepth : Int} (hpass : ndepth = 1 → fit_image_verify cfg fit node = true) :
    ¬ (ndepth = 1 ∧ fit_image_verify cfg fit node = false) := by
  rintro ⟨hone, hfail⟩
  rw [hpass hone] at hfail
  cases hfail

theorem fit_all_image_verify_loop_of_ok {ndepth d : Int} (hdepth : 0 < ndepth)
    (hpass : ndepth = 1 → fit_image_verify cfg fit node = true)
    (h : fdt_next_node fit node ndepth = (.ok l, d)) :
    fit_all_image_verify_loop cfg fit node ndepth = fit_all_image_verify_loop cfg fit l d := by
  rw [fit_all_image_verify_loop, if_neg (not_not.mpr hdepth), if_neg (not_failed hpass)]
  split
  · rename_i he
    rw [h] at he
    cases he
  · rename_i he
    rw [h] at he
    cases he
    rfl

theorem fit_all_image_verify_loop_of_error {ndepth d e : Int} (hdepth : 0 < ndepth)
    (hpass : ndepth = 1 → fit_image_verify cfg fit node = true)
    (h : fdt_next_node fit node ndepth = (.error e, d)) :
    fit_all_image_verify_loop cfg fit node ndepth = true := by
  rw [fit_all_image_verify_loop, if_neg (not_not.mpr hdepth), if_neg (not_failed hpass)]
  split
  · rfl
  · rename_i he
    rw [h] at he
    cases he

/-- The loop from a node on: it passes if it is an image, and so do the images behind it. -/
theorem fit_all_image_verify_loop_iff (cfg : Config) (fit : Blob) (name : Bytes) (l : List Tag)
    (depth : Nat) :
    fit_all_image_verify_loop cfg fit (.begin_node name :: l) (depth + 1 : Nat) = true ↔
      (depth = 0 → fit_image_verify cfg fit (.begin_node name :: l) = true) ∧
        ∀ image ∈ level l (depth + 1), fit_image_verify cfg fit image = true := by
  induction hn : l.length using Nat.strongRecOn generalizing name l depth with
  | ind n ih =>
    have hdepth : (0 : Int) < (depth + 1 : Nat) := by omega
    by_cases hpass : depth = 0 → fit_image_verify cfg fit (.begin_node name :: l) = true
    · rw [and_iff_right hpass]
      have hpass' : ((depth + 1 : Nat) : Int) = 1 →
          fit_image_verify cfg fit (.begin_node name :: l) = true := fun h => hpass (by omega)
      rcases fdt_next_node_cases fit name l (depth + 1) with
        ⟨d, name', l', hbelow, -, -, hlt, hnext⟩ | ⟨hbelow, -, l', hnext⟩ | ⟨hbelow, -, d, hnext⟩
      · rw [fit_all_image_verify_loop_of_ok hdepth hpass' hnext, ih _ (hn ▸ hlt) name' l' d rfl]
        cases d with
        | zero =>
          rw [level_eq_cons hbelow, List.forall_mem_cons]
          exact and_congr_left' (by simp)
        | succ d =>
          rw [level_eq_of_deeper hbelow]
          exact and_iff_right (fun h => by cases h)
      · rw [fit_all_image_verify_loop_of_ok hdepth hpass' hnext, level_eq_nil hbelow,
          fit_all_image_verify_loop, if_pos (by decide)]
        simp
      · rw [fit_all_image_verify_loop_of_error hdepth hpass' hnext, level_eq_nil hbelow]
        simp
    · obtain ⟨rfl, hfail⟩ := Classical.not_imp.mp hpass
      rw [Bool.not_eq_true] at hfail
      rw [fit_all_image_verify_loop, if_neg (not_not.mpr hdepth), if_pos ⟨rfl, hfail⟩]
      simp [hfail]

/-- The node found for `/images`. -/
theorem images_path_eq (fit : Blob) :
    fdt_path_offset fit FIT_IMAGES_PATH =
      fdt_subnode_offset_namelen fit fit.tags (asc "images") := by
  have hplain : (asc "images").all (fun b => b ≠ 47 ∧ b ≠ 58) = true := rfl
  refine fdt_path_offset_eq fit (by decide) fun b hb => ?_
  simpa using List.all_eq_true.mp hplain b hb

theorem exists_of_images_path {images : List Tag}
    (h : fdt_path_offset fit FIT_IMAGES_PATH = .ok images) :
    ∃ name l, images = .begin_node name :: l := by
  rw [images_path_eq, fdt_subnode_offset_namelen_iff] at h
  have hname := List.find?_some h.2
  exact exists_of_nodename hname

/-- **All images pass** when there is a node for them, and each of its subnodes passes. -/
theorem fit_all_image_verify_iff (cfg : Config) (fit : Blob) :
    fit_all_image_verify cfg fit = true ↔
      ∃ name l, fdt_path_offset fit FIT_IMAGES_PATH = .ok (.begin_node name :: l) ∧
        ∀ image ∈ subnodes (.begin_node name :: l), fit_image_verify cfg fit image = true := by
  rw [fit_all_image_verify]
  cases hpath : fdt_path_offset fit FIT_IMAGES_PATH with
  | error e =>
    refine iff_of_false (by simp) ?_
    rintro ⟨_, _, h, -⟩
    cases h
  | ok images =>
    obtain ⟨name, l, rfl⟩ := exists_of_images_path hpath
    have hall : (∃ name' l',
        Except.ok (.begin_node name :: l) = (Except.ok (.begin_node name' :: l') : Offset) ∧
        ∀ image ∈ subnodes (.begin_node name' :: l'), fit_image_verify cfg fit image = true) ↔
          ∀ image ∈ level l 0, fit_image_verify cfg fit image = true := by
      constructor
      · rintro ⟨name', l', he, h⟩
        cases he
        exact h
      · intro h
        exact ⟨name, l, rfl, h⟩
    rw [hall]
    rcases fdt_next_node_cases fit name l 0 with
      ⟨d, name', l', hbelow, -, hle, -, hnext⟩ | ⟨hbelow, -, l', hnext⟩ | ⟨hbelow, -, d, hnext⟩
    · obtain rfl : d = 0 := Nat.le_zero.mp hle
      rw [Int.natCast_zero] at hnext
      simp only [hnext]
      rw [fit_all_image_verify_loop_iff, level_eq_cons hbelow, List.forall_mem_cons]
      exact and_congr_left' (by simp)
    · rw [Int.natCast_zero] at hnext
      simp only [hnext, level_eq_nil hbelow]
      rw [fit_all_image_verify_loop, if_pos (by decide)]
      simp
    · rw [Int.natCast_zero] at hnext
      simp [hnext, level_eq_nil hbelow]

end Checks

end Boxing.Fit
