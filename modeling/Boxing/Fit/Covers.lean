import Boxing.Fit.Verify

/-!
# What the integrity check covers

The check goes over the images and their hash nodes and stops at the first one that is wrong.
It does not ask whether there was anything to go over: a tree without images passes, an image
without a hash node passes, and so does one whose hash nodes are all to be ignored.  And it
takes a walk that ends in an error for one that is finished.

So passing means that the whole image is covered exactly when the tree itself sees to that
(`gateCovers_iff`): there are images, the walk over them comes to its end, and each has a hash
node that is not skipped.  In any tree it means that every image has data and every hash node
of it matches the data or is to be ignored (`images_match`).
-/

namespace Boxing.Fit

open C Fdt

/-- The hash nodes of an image. -/
def hashes (image : List Tag) : List (List Tag) := (subnodes image).filter hash_named

section Statement

variable (cfg : Config) (fit : Blob)

/-- The walk over the subnodes of a node ends where the node does, or at `FDT_END`, where
`libfdt` says that nothing was found. -/
def Walked (node : List Tag) : Prop := closed node.tail 0 = true ∨ fit.stop = .fdt_end

/-- An image that is covered: it has data, some hash of it is checked, and each that is
matches. -/
def ImageCovered (image : List Tag) : Prop :=
  ∃ data behind, fdt_getprop image FIT_DATA_PROP = some (data, behind) ∧
    (∃ node ∈ hashes image, ¬ Skipped cfg node) ∧
      ∀ node ∈ hashes image, ¬ Skipped cfg node → Matches cfg data node

/-- The check passes only when the whole tree is covered. -/
def GateCovers : Prop :=
  fit_all_image_verify cfg fit = true →
    ∃ images, fdt_path_offset fit FIT_IMAGES_PATH = .ok images ∧ subnodes images ≠ [] ∧
      Walked fit images ∧ ∀ image ∈ subnodes images, ImageCovered cfg image

/-- An image that is found wrong: it has no data, or a hash node without an algorithm, or one
that is not skipped and does not match. -/
def ImageWrong (image : List Tag) : Prop :=
  ∀ data behind, fdt_getprop image FIT_DATA_PROP = some (data, behind) →
    ∃ node ∈ hashes image, fdt_getprop node FIT_ALGO_PROP = none ∨
      ¬ Skipped cfg node ∧ ¬ Matches cfg data node

/-- There is no `/images`, or something is wrong with an image. -/
def Wrong : Prop :=
  ∀ images, fdt_path_offset fit FIT_IMAGES_PATH = .ok images →
    ∃ image ∈ subnodes images, ImageWrong cfg image

/-- There are images, the walk over them comes to its end, and each has a hash node that is
not skipped. -/
def Whole : Prop :=
  ∃ images, fdt_path_offset fit FIT_IMAGES_PATH = .ok images ∧ subnodes images ≠ [] ∧
    Walked fit images ∧ ∀ image ∈ subnodes images, ∃ node ∈ hashes image, ¬ Skipped cfg node

end Statement

section Covers

variable {cfg : Config} {fit : Blob} {image : List Tag} {data : Bytes}

/-- The hash nodes of an image pass when each has an algorithm, and is skipped or matches. -/
theorem forall_passes_iff :
    (∀ node ∈ subnodes image, Passes cfg data node) ↔
      ∀ node ∈ hashes image, fdt_getprop node FIT_ALGO_PROP ≠ none ∧
        (Skipped cfg node ∨ Matches cfg data node) := by
  have hpasses : ∀ node, Passes cfg data node ↔ (hash_named node = true →
      fdt_getprop node FIT_ALGO_PROP ≠ none ∧ (Skipped cfg node ∨ Matches cfg data node)) := by
    intro node
    rw [Passes, fit_image_check_hash_iff, Option.isSome_iff_ne_none]
  constructor
  · intro h node hnode
    obtain ⟨hmem, hname⟩ := List.mem_filter.mp hnode
    exact (hpasses node).mp (h node hmem) hname
  · intro h node hmem
    exact (hpasses node).mpr fun hname => h node (List.mem_filter.mpr ⟨hmem, hname⟩)

/-- An image passes when nothing is wrong with it. -/
theorem image_passes_iff {name : Bytes} {l : List Tag} :
    fit_image_verify cfg fit (.begin_node name :: l) = true ↔
      ¬ ImageWrong cfg (.begin_node name :: l) := by
  rw [fit_image_verify_iff]
  constructor
  · rintro ⟨data, behind, hdata, hpass⟩ hwrong
    obtain ⟨node, hnode, hbad⟩ := hwrong data behind hdata
    obtain ⟨halgo, hgood⟩ := forall_passes_iff.mp hpass node hnode
    rcases hbad with hnone | ⟨hskip, hmatch⟩
    · exact halgo hnone
    · rcases hgood with h | h
      · exact hskip h
      · exact hmatch h
  · intro hright
    simp only [ImageWrong, Classical.not_forall] at hright
    obtain ⟨data, behind, hdata, hnone⟩ := hright
    refine ⟨data, behind, hdata, forall_passes_iff.mpr fun node hnode => ?_⟩
    constructor
    · exact fun h => hnone ⟨node, hnode, Or.inl h⟩
    · by_contra hbad
      exact hnone ⟨node, hnode, Or.inr (not_or.mp hbad)⟩

/-- **The check passes** when nothing is wrong. -/
theorem fit_all_image_verify_iff_right : fit_all_image_verify cfg fit = true ↔ ¬ Wrong cfg fit := by
  have himage : ∀ {images image : List Tag}, image ∈ subnodes images →
      (fit_image_verify cfg fit image = true ↔ ¬ ImageWrong cfg image) := by
    intro images image hmem
    obtain ⟨name, l, rfl⟩ := exists_of_mem_subnodes hmem
    exact image_passes_iff
  rw [fit_all_image_verify_iff]
  constructor
  · rintro ⟨name, l, hpath, hpass⟩ hwrong
    obtain ⟨image, hmem, hbad⟩ := hwrong _ hpath
    exact (himage hmem).mp (hpass image hmem) hbad
  · intro hright
    simp only [Wrong, Classical.not_forall] at hright
    obtain ⟨images, hpath, hnone⟩ := hright
    obtain ⟨name, l, rfl⟩ := exists_of_images_path hpath
    exact ⟨name, l, hpath, fun image hmem =>
      (himage hmem).mpr fun hbad => hnone ⟨image, hmem, hbad⟩⟩

/-- **How the tags end is never asked**: a tree that breaks off passes like one that ends
there. -/
theorem fit_all_image_verify_stop (cfg : Config) (fit : Blob) (stop : Stop) :
    fit_all_image_verify cfg { fit with stop := stop } = fit_all_image_verify cfg fit := by
  have hpath : ∀ node, fdt_path_offset { fit with stop := stop } FIT_IMAGES_PATH = .ok node ↔
      fdt_path_offset fit FIT_IMAGES_PATH = .ok node := by
    intro node
    rw [images_path_eq, images_path_eq, fdt_subnode_offset_namelen_iff,
      fdt_subnode_offset_namelen_iff]
  have himage : ∀ {images image : List Tag}, image ∈ subnodes images →
      (fit_image_verify cfg { fit with stop := stop } image = true ↔
        fit_image_verify cfg fit image = true) := by
    intro images image hmem
    obtain ⟨name, l, rfl⟩ := exists_of_mem_subnodes hmem
    rw [fit_image_verify_iff, fit_image_verify_iff]
  rw [Bool.eq_iff_iff, fit_all_image_verify_iff, fit_all_image_verify_iff]
  constructor
  · rintro ⟨name, l, h, hall⟩
    exact ⟨name, l, (hpath _).mp h, fun image hmem => (himage hmem).mp (hall image hmem)⟩
  · rintro ⟨name, l, h, hall⟩
    exact ⟨name, l, (hpath _).mpr h, fun image hmem => (himage hmem).mpr (hall image hmem)⟩

/-- In an image that is not wrong the hashes that are checked match. -/
theorem imageCovered_of_right (hright : ¬ ImageWrong cfg image)
    (hchecked : ∃ node ∈ hashes image, ¬ Skipped cfg node) : ImageCovered cfg image := by
  simp only [ImageWrong, Classical.not_forall] at hright
  obtain ⟨data, behind, hdata, hnone⟩ := hright
  refine ⟨data, behind, hdata, hchecked, fun node hnode hskip => ?_⟩
  by_contra hmatch
  exact hnone ⟨node, hnode, Or.inr ⟨hskip, hmatch⟩⟩

/-- **When passing means that the image is covered**: exactly when something is wrong with
the tree, so that it does not pass, or the tree itself has what is to be checked. -/
theorem gateCovers_iff (cfg : Config) (fit : Blob) :
    GateCovers cfg fit ↔ Wrong cfg fit ∨ Whole cfg fit := by
  constructor
  · intro hcovers
    by_cases hwrong : Wrong cfg fit
    · exact Or.inl hwrong
    obtain ⟨images, hpath, hsome, hwalked, hall⟩ :=
      hcovers (fit_all_image_verify_iff_right.mpr hwrong)
    refine Or.inr ⟨images, hpath, hsome, hwalked, fun image hmem => ?_⟩
    obtain ⟨data, behind, -, hchecked, -⟩ := hall image hmem
    exact hchecked
  · intro hgood hpass
    have hright := fit_all_image_verify_iff_right.mp hpass
    obtain ⟨images, hpath, hsome, hwalked, hall⟩ := hgood.resolve_left hright
    refine ⟨images, hpath, hsome, hwalked, fun image hmem => ?_⟩
    refine imageCovered_of_right (fun hbad => hright fun images' hpath' => ?_) (hall image hmem)
    obtain rfl : images = images' := Except.ok.inj (hpath.symm.trans hpath')
    exact ⟨image, hmem, hbad⟩

end Covers

/-! ### Some trees -/

/-- Digests of zeros. -/
def plainConfig : Config where
  abi := ⟨true, false⟩
  IMAGE_ENABLE_CRC32 := true
  IMAGE_ENABLE_SHA1 := true
  IMAGE_ENABLE_SHA256 := true
  IMAGE_ENABLE_MD5 := true
  IMAGE_ENABLE_IGNORE := true
  SHA1 := fun _ => List.replicate 20 0
  SHA256 := fun _ => List.replicate 32 0
  MD5 := fun _ => List.replicate 16 0
  sha1_length := fun _ => List.length_replicate
  sha256_length := fun _ => List.length_replicate
  md5_length := fun _ => List.length_replicate

/-- A tree with these tags in `/images`. -/
def imagesOf (tags : List Tag) : Blob where
  fdt_check_header := 0
  tags := .begin_node [] :: .begin_node (asc "images") :: (tags ++ [.end_node, .end_node])
  stop := .fdt_end

/-- An image of one hash node. -/
def imageOf (data : Bytes) (hash : List Tag) : List Tag :=
  [.begin_node (asc "kernel@1"), .prop FIT_DATA_PROP data [], .begin_node (asc "hash@1"),
    .prop FIT_ALGO_PROP (asc "crc32" ++ [0]) []] ++ hash ++ [.end_node, .end_node]

/-- The checksum is the right one. -/
def goodImage : Blob :=
  imagesOf (imageOf (asc "123456789") [.prop FIT_VALUE_PROP [0xcb, 0xf4, 0x39, 0x26] []])

/-- There is none, and it is to be ignored. -/
def ignoredImage : Blob :=
  imagesOf (imageOf (asc "123456789") [.prop FIT_IGNORE_PROP [0, 0, 0, 1] []])

section Trees

variable {tags : List Tag}

/-- The path to it. -/
theorem path_imagesOf (tags : List Tag) :
    fdt_path_offset (imagesOf tags) FIT_IMAGES_PATH =
      .ok (.begin_node (asc "images") :: (tags ++ [.end_node, .end_node])) := by
  rw [images_path_eq, fdt_subnode_offset_namelen_iff]
  exact ⟨rfl, List.find?_cons_of_pos (p := fun node => fdt_nodename_eq node (asc "images")) rfl⟩

/-- A tree passes when the images in it do. -/
theorem verify_imagesOf (h : ∀ image ∈ level (tags ++ [.end_node, .end_node]) 0,
    fit_image_verify plainConfig (imagesOf tags) image = true) :
    fit_all_image_verify plainConfig (imagesOf tags) = true :=
  (fit_all_image_verify_iff _ _).mpr ⟨_, _, path_imagesOf tags, h⟩

/-- One image passes when its hash node does. -/
theorem verify_imageOf (data : Bytes) (hash : List Tag)
    (hone : level (imageOf data hash ++ [.end_node, .end_node]) 0 =
      [imageOf data hash ++ [.end_node, .end_node]])
    (hnode : ∀ node ∈ subnodes (imageOf data hash ++ [.end_node, .end_node]),
      (fit_image_check_hash plainConfig node data).isOk = true) :
    fit_all_image_verify plainConfig (imagesOf (imageOf data hash)) = true := by
  refine verify_imagesOf fun image hmem => ?_
  rw [hone, List.mem_singleton] at hmem
  subst hmem
  exact (fit_image_verify_iff _ _ _ _).mpr ⟨data, [], rfl, fun node h _ => hnode node h⟩

end Trees

/-! ### What passing means -/

/-- **What passing means in any tree**: every image has data, and every hash node of it has an
algorithm and matches the data, unless it is to be ignored. -/
theorem images_match {cfg : Config} {fit : Blob}
    (h : fit_all_image_verify cfg fit = true) :
    ∃ images, fdt_path_offset fit FIT_IMAGES_PATH = .ok images ∧
      ∀ image ∈ subnodes images, ∃ data behind,
        fdt_getprop image FIT_DATA_PROP = some (data, behind) ∧
          ∀ node ∈ hashes image, fdt_getprop node FIT_ALGO_PROP ≠ none ∧
            (¬ Skipped cfg node → Matches cfg data node) := by
  obtain ⟨name, l, hpath, hpass⟩ := (fit_all_image_verify_iff cfg fit).mp h
  refine ⟨_, hpath, fun image hmem => ?_⟩
  have himage := hpass image hmem
  obtain ⟨name', l', rfl⟩ := exists_of_mem_subnodes hmem
  obtain ⟨data, behind, hdata, hall⟩ := (fit_image_verify_iff cfg fit name' l').mp himage
  refine ⟨data, behind, hdata, fun node hnode => ?_⟩
  obtain ⟨halgo, hgood⟩ := forall_passes_iff.mp hall node hnode
  exact ⟨halgo, fun hskip => hgood.resolve_left hskip⟩

/-- The image that is right passes, and matches. -/
theorem images_match_goodImage :
    ∃ images, fdt_path_offset goodImage FIT_IMAGES_PATH = .ok images ∧
      ∀ image ∈ subnodes images, ∃ data behind,
        fdt_getprop image FIT_DATA_PROP = some (data, behind) ∧
          ∀ node ∈ hashes image, fdt_getprop node FIT_ALGO_PROP ≠ none ∧
            (¬ Skipped plainConfig node → Matches plainConfig data node) :=
  images_match (verify_imageOf _ _ rfl (by decide +kernel))

/-- Nothing is checked in a tree without images, nor in one whose hash is to be ignored, and
both pass. -/
theorem gate_not_covers :
    ¬ GateCovers plainConfig (imagesOf []) ∧ ¬ GateCovers plainConfig ignoredImage := by
  constructor
  · intro h
    have hpass : fit_all_image_verify plainConfig (imagesOf []) = true :=
      verify_imagesOf fun image hmem => by cases hmem
    obtain ⟨images, hpath, hsome, -⟩ := h hpass
    rw [path_imagesOf] at hpath
    obtain rfl := Except.ok.inj hpath
    exact hsome rfl
  · intro h
    have hpass : fit_all_image_verify plainConfig ignoredImage = true :=
      verify_imageOf _ _ rfl (by decide +kernel)
    obtain ⟨images, hpath, -, -, hall⟩ := h hpass
    rw [ignoredImage, path_imagesOf] at hpath
    obtain rfl := Except.ok.inj hpath
    obtain ⟨data, behind, -, ⟨node, hnode, hskip⟩, -⟩ := hall _ (List.mem_singleton.mpr rfl)
    have hone : ∀ node ∈ hashes (imageOf (asc "123456789") [.prop FIT_IGNORE_PROP [0, 0, 0, 1] []] ++
        [.end_node, .end_node]), fit_image_hash_get_ignore node ≠ 0 := by decide +kernel
    exact hskip ⟨rfl, hone node hnode⟩

end Boxing.Fit
