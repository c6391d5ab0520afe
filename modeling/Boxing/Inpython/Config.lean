import Boxing.C.Decimal
import Boxing.Unix.Dir
import Boxing.Unix.Shell

/-!
# The configuration of the apps

`import_pyapp_cfg` goes over a tree with a directory for each app.  It copies the directory to
that of the app in `PYAPP_CFG`, takes the entry of the copy that `readdir` lists first, and
makes a link to it, `<app>.cfg`, in the very directory that has been listed.

So the link is among the entries the next time.  It may be the one that is listed first, and
then it is linked to itself; and a file of the tree that has its name is removed for it.
`imports_iff` says when an import and the next one leave links that lead to what has been
imported.
-/

namespace Boxing.Inpython

open C Unix

/-- `PYAPP_CFG`. -/
def PYAPP_CFG : Bytes := asc "/var/app/cfg"

/-- What `stat` says of an entry of the tree. -/
inductive Item
  | gone
  | other
  | dir (src : Dir)

/-- What is at a name in `PYAPP_CFG`. -/
inductive Slot
  | absent
  | other
  | dir (dir : Dir)

/-- `PYAPP_CFG`, by names. -/
abbrev Cfg := Bytes → Slot

/-- The name of the link. -/
def cfg_name (name : Bytes) : Bytes := name ++ asc ".cfg"

/-- The command: the directory goes into `PYAPP_CFG`, or what is to be seen in it into the one that
is there. -/
def cp_cmd (pycfg name : Bytes) : Slot → Bytes
  | .dir _ => asc "cp -rf " ++ pycfg ++ asc "/" ++ name ++ asc "/* " ++ PYAPP_CFG ++ asc "/" ++ name
  | _ => asc "cp -rf " ++ pycfg ++ asc "/" ++ name ++ asc " " ++ PYAPP_CFG

/-- `slinkf`. -/
def slinkf (name fname : Bytes) : Bytes :=
  snprintf 128 (PYAPP_CFG ++ asc "/" ++ name ++ asc "/" ++ fname)

/-- `dlinkf`, if it fits into its 128 bytes. -/
def dlinkf (name : Bytes) : Bytes := PYAPP_CFG ++ asc "/" ++ name ++ asc "/" ++ cfg_name name

/-- The command fits into its buffer, and the shell takes it as it is meant. -/
structure Fits (pycfg name : Bytes) (slot : Slot) : Prop where
  cmd : (cp_cmd pycfg name slot).length < 128
  chars : ∀ c ∈ pycfg ++ name, c ∉ special ∧ isBlank c = false
  word : pycfg.head? ≠ some 45 ∧ pycfg.head? ≠ some 35 ∧ pycfg.head? ≠ some 126

instance (pycfg name : Bytes) (slot : Slot) : Decidable (Fits pycfg name slot) :=
  decidable_of_iff ((cp_cmd pycfg name slot).length < 128 ∧
      ((pycfg ++ name).all fun c => !special.contains c && !isBlank c) = true ∧
      pycfg.head? ≠ some 45 ∧ pycfg.head? ≠ some 35 ∧ pycfg.head? ≠ some 126)
    ⟨fun h => ⟨h.1, chars_iff_all.mp h.2.1, h.2.2⟩, fun h => ⟨h.1, chars_iff_all.mpr h.2, h.3⟩⟩

/-- The two are of one kind. -/
def SameKind : Node → Node → Prop
  | .dir, .dir => True
  | .file _, .file _ => True
  | .link _, .link _ => True
  | _, _ => False

/-- What comes of an import.  With a command or a link whose text is another one than is meant it may
be anything. -/
inductive Ended (α : Type)
  | odd
  | error
  | ok (a : α)

/-- What is outside of the program. -/
structure Board where
  /-- there is a directory at the name in `PYAPP_PATH`, which may be cut -/
  installed : Bytes → Bool
  /-- `mkdir` of `PYAPP_CFG` -/
  mkdir : Bool
  /-- `cp -rf` of entries over those of a directory -/
  cp : Dir → Dir → Option Dir
  /-- the file that a link out of the directory leads to -/
  elsewhere : Bytes → Option Bytes
  /-- a file may be written through a link that is in its place -/
  placed : ∀ src dst D, cp src dst = some D → Over src dst D ∨
    ∃ p text target, src.node p = some (.file text) ∧ D.node p = some (.link target)
  again : ∀ src dst,
    (∀ p node, src.node p = some node → ∃ old, dst.node p = some old ∧ SameKind node old) →
    ∃ D, cp src dst = some D ∧ Over src dst D
  clash : ∀ src dst p target, src.node p = some .dir → dst.node p = some (.link target) →
    cp src dst = none

/-- An order of `readdir`, in the directory of each app. -/
structure Order where
  list : Bytes → Dir → List Bytes
  mem : ∀ app D name, name ∈ list app D ↔ name = dot ∨ name = dotdot ∨ D.there name = true

/-- The first entry that is listed. -/
def first_entry (list : List Bytes) : Option Bytes :=
  list.find? fun d_name => d_name ≠ dot && d_name ≠ dotdot

section Import

variable (B : Board) (o : Order)

/-- The copy. -/
def copy_dir (src : Dir) : Slot → Option Dir
  | .absent => some src
  | .other => none
  | .dir dst => if src.visible.isEmpty = true then none else B.cp src.visible dst

/-- `fname`, which is what it was if there is no entry. -/
def read_fname (name : Bytes) (D : Dir) (fname : Bytes) : Bytes :=
  match first_entry (o.list name D) with
  | some d_name => strlcpy d_name 128
  | none => fname

/-- The link of an app, in the copy. -/
def link_dir (name fname : Bytes) (D : Dir) : Option (Bytes × Dir) :=
  match (D.remove (cfg_name name)).symlink (slinkf name (read_fname o name D fname))
    (cfg_name name) with
  | none => none
  | some D' => some (read_fname o name D fname, D')

/-- The copy and the link of an app. -/
def import_dir (name : Bytes) (src : Dir) (fname : Bytes) (slot : Slot) : Option (Bytes × Dir) :=
  match copy_dir B src slot with
  | none => none
  | some D => link_dir o name fname D

end Import

/-- The apps in the tree. -/
def apps (tree : List (Bytes × Item)) : List (Bytes × Dir) :=
  tree.filterMap fun e =>
    match e with
    | (d_name, .dir src) => if d_name = dot ∨ d_name = dotdot then none else some (d_name, src)
    | _ => none

/-- Where the links in the directory of an app lead. -/
def Board.links (B : Board) (name : Bytes) : Links where
  inside p target :=
    let base : Path := [asc "var", asc "app", asc "cfg", name]
    let path := go (origin (base ++ p.dropLast) target) (parts target)
    if base.isPrefixOf path = true then some (path.drop 4) else none
  elsewhere := B.elsewhere

/-- A file of the tree. -/
def Imported (src : Dir) (text : Bytes) : Prop := ∃ p, src.node p = some (.file text)

section Sound

variable (B : Board)

/-- The files are there, and the link leads to the content of one of them. -/
structure Sound (name : Bytes) (src D : Dir) : Prop where
  files : ∀ p text, src.node p = some (.file text) → D.node p = some (.file text)
  link : (∃ text, Imported src text) →
    ∃ text, D.content (B.links name) 40 [cfg_name name] = some text ∧ Imported src text

/-- An entry that is listed first, and leads to the content of a file of the tree even if there
is nothing at the name of the link. -/
def Leads (o : Order) (name : Bytes) (src D listed : Dir) : Prop :=
  ∃ d_name text, first_entry (o.list name listed) = some d_name ∧
    (D.without (cfg_name name)).follow (B.links name) 39 [cfg_name name]
      (slinkf name (strlcpy d_name 128)) = some text ∧ Imported src text

/-- The copy with its link. -/
def relink (name fname : Bytes) (D : Dir) : Dir :=
  ([cfg_name name], .link (slinkf name fname)) :: D.without (cfg_name name)

/-- When two imports are sound for an app. -/
structure Settled (o₁ o₂ : Order) (name : Bytes) (src : Dir) (slot : Slot) : Prop where
  visible : src.visible.isEmpty = false
  free : ∀ p text, src.node (cfg_name name :: p) ≠ some (.file text)
  no_dir : src.visible.node [cfg_name name] ≠ some .dir
  brought : ∀ D, copy_dir B src slot = some D →
    ∀ p text, src.node p = some (.file text) → D.node p = some (.file text)
  first : (∃ text, Imported src text) → ∀ D, copy_dir B src slot = some D → Leads B o₁ name src D D
  second : (∃ text, Imported src text) → ∀ D d_name D', copy_dir B src slot = some D →
    first_entry (o₁.list name D) = some d_name →
    B.cp src.visible (relink name (strlcpy d_name 128) D) = some D' → Leads B o₂ name src D D'

end Sound

/-! ### One app -/

section App

variable {B : Board} {o o₁ o₂ : Order} {name fname : Bytes} {src D D' D'' : Dir} {slot : Slot}

theorem link_dir_eq : link_dir o name fname D =
    if D.holds (cfg_name name) = true then none
    else some (read_fname o name D fname, relink name (read_fname o name D fname) D) := by
  rw [link_dir, symlink_remove]
  by_cases h : D.holds (cfg_name name) = true
  · rw [if_pos h, if_pos h]
  · rw [if_neg h, if_neg h]
    rfl

/-- What an import of an app comes to. -/
theorem import_dir_eq (hcopy : copy_dir B src slot = some D) :
    import_dir B o name src fname slot =
      if D.holds (cfg_name name) = true then none
      else some (read_fname o name D fname, relink name (read_fname o name D fname) D) := by
  rw [import_dir, hcopy]
  exact link_dir_eq

theorem of_import_dir {r : Bytes × Dir} (h : import_dir B o name src fname slot = some r) :
    ∃ D, copy_dir B src slot = some D ∧ D.holds (cfg_name name) = false ∧
      r = (read_fname o name D fname, relink name (read_fname o name D fname) D) := by
  cases hcopy : copy_dir B src slot with
  | none =>
    rw [import_dir, hcopy] at h
    cases h
  | some D =>
    rw [import_dir_eq hcopy] at h
    by_cases hholds : D.holds (cfg_name name) = true
    · rw [if_pos hholds] at h
      cases h
    · rw [if_neg hholds] at h
      exact ⟨D, rfl, Bool.eq_false_iff.mpr hholds, (Option.some.inj h).symm⟩

theorem node_relink (name fname : Bytes) (D : Dir) (p : Path) :
    (relink name fname D).node p =
      if p = [cfg_name name] then some (.link (slinkf name fname)) else D.node p := by
  rw [relink, node_cons]
  by_cases hp : p = [cfg_name name]
  · rw [if_pos hp, if_pos hp]
  · rw [if_neg hp, if_neg hp, node_without, if_neg hp]

/-- Something is listed if there is something to be seen. -/
theorem first_entry_of_visible (hvis : src.visible.isEmpty = false)
    (hD : ∀ p node, src.visible.node p = some node → ∃ node', D.node p = some node') :
    ∃ d_name, first_entry (o.list name D) = some d_name := by
  obtain ⟨e, he⟩ : ∃ e, e ∈ src.visible := by
    cases hv : src.visible with
    | nil =>
      rw [hv] at hvis
      cases hvis
    | cons e rest => exact ⟨e, List.mem_cons_self⟩
  obtain ⟨node, hnode⟩ := Option.ne_none_iff_exists'.mp (node_ne_none_of_mem he)
  obtain ⟨node', hnode'⟩ := hD _ _ hnode
  have hshown : shown e.1 = true := (List.mem_filter.mp he).2
  cases hpath : e.1 with
  | nil =>
    rw [hpath] at hshown
    cases hshown
  | cons n q =>
    rw [hpath] at hshown hnode'
    have hn : n.head? ≠ some 46 := by simpa [shown] using hshown
    have hlisted : n ∈ o.list name D := (o.mem name D n).mpr (.inr (.inr (there_of_node hnode')))
    cases hfirst : first_entry (o.list name D) with
    | some d_name => exact ⟨d_name, rfl⟩
    | none =>
      have hdot : n ≠ dot := by
        rintro rfl
        exact hn rfl
      have hdotdot : n ≠ dotdot := by
        rintro rfl
        exact hn rfl
      exact absurd (by simp [hdot, hdotdot]) (List.find?_eq_none.mp hfirst n hlisted)

/-- What is seen is copied to its place, if the files are. -/
theorem node_copy (hcopy : copy_dir B src slot = some D)
    (hfiles : ∀ p text, src.node p = some (.file text) → D.node p = some (.file text)) {p : Path}
    {node : Node} (hp : src.visible.node p = some node) : D.node p = some node := by
  have hsrc : ∀ {p node}, src.visible.node p = some node → src.node p = some node := by
    intro p node h
    rw [node_visible] at h
    split at h
    · exact h
    · cases h
  cases slot with
  | absent => exact Option.some.inj hcopy ▸ hsrc hp
  | other => cases hcopy
  | dir dst =>
    rw [copy_dir] at hcopy
    split at hcopy
    · cases hcopy
    · rcases B.placed _ _ _ hcopy with hover | ⟨q, text, target, hq, hlink⟩
      · rw [hover p, hp]
        rfl
      · rw [hfiles q text (hsrc hq)] at hlink
        cases hlink

/-- **The second copy** goes over the first, and changes nothing but the link. -/
theorem copy_again (hcopy : copy_dir B src slot = some D)
    (hfiles : ∀ p text, src.node p = some (.file text) → D.node p = some (.file text))
    (hvisible : src.visible.isEmpty = false)
    (hfree : ∀ p text, src.node (cfg_name name :: p) ≠ some (.file text))
    (hdir : src.visible.node [cfg_name name] ≠ some .dir) (fname : Bytes) :
    ∃ D', copy_dir B src (.dir (relink name fname D)) = some D' ∧
      B.cp src.visible (relink name fname D) = some D' ∧
      (∀ p node, src.visible.node p = some node → D'.node p = some node) ∧
      ∀ p, p ≠ [cfg_name name] → D'.node p = D.node p := by
  have hsame : ∀ p node, src.visible.node p = some node →
      ∃ old, (relink name fname D).node p = some old ∧ SameKind node old := by
    intro p node hp
    by_cases hq : p = [cfg_name name]
    · refine ⟨_, by rw [node_relink, if_pos hq], ?_⟩
      rw [hq] at hp
      cases node with
      | dir => exact absurd hp hdir
      | link target => trivial
      | file text =>
        rw [node_visible] at hp
        split at hp
        · exact absurd hp (hfree [] text)
        · cases hp
    · refine ⟨node, by rw [node_relink, if_neg hq, node_copy hcopy hfiles hp], ?_⟩
      cases node <;> trivial
  obtain ⟨D', hcp, hover⟩ := B.again _ _ hsame
  refine ⟨D', by rw [copy_dir, hvisible]; exact hcp, hcp, fun p node hp => ?_, fun p hq => ?_⟩
  · rw [hover p, hp]
    rfl
  · rw [hover p, node_relink, if_neg hq]
    cases hp : src.visible.node p with
    | none => rfl
    | some node => exact (node_copy hcopy hfiles hp).symm

/-- The link leads to where its target leads. -/
theorem content_relink (text : Bytes) :
    (relink name fname D).content (B.links name) 40 [cfg_name name] = some text ↔
      (D.without (cfg_name name)).follow (B.links name) 39 [cfg_name name] (slinkf name fname) =
        some text := (linked_without D (slinkf name fname) (cfg_name name)).content_iff

theorem node_without_congr (h : ∀ p, p ≠ [cfg_name name] → D'.node p = D.node p) (p : Path) :
    (D'.without (cfg_name name)).node p = (D.without (cfg_name name)).node p := by
  rw [node_without, node_without]
  by_cases hp : p = [cfg_name name]
  · rw [if_pos hp, if_pos hp]
  · rw [if_neg hp, if_neg hp, h p hp]

theorem holds_congr (h : ∀ p, p ≠ [cfg_name name] → D'.node p = D.node p)
    (hholds : D.holds (cfg_name name) = false) : D'.holds (cfg_name name) = false := by
  rw [holds_eq_false] at hholds ⊢
  intro m q
  rw [h _ (by simp)]
  exact hholds m q

/-- An import that leaves an app as it should be. -/
theorem sound_relink (hfiles : ∀ p text, src.node p = some (.file text) → D.node p = some (.file text))
    (hfree : ∀ p text, src.node (cfg_name name :: p) ≠ some (.file text))
    (hsame : ∀ p, p ≠ [cfg_name name] → D'.node p = D.node p)
    (hleads : (∃ text, Imported src text) → Leads B o name src D D') :
    Sound B name src (relink name (read_fname o name D' fname) D') where
  files p text hp := by
    have hq : p ≠ [cfg_name name] := by
      rintro rfl
      exact hfree [] text hp
    rw [node_relink, if_neg hq, hsame p hq, hfiles p text hp]
  link himported := by
    obtain ⟨d_name, text, hfirst, hfollow, htext⟩ := hleads himported
    refine ⟨text, (content_relink text).mpr ?_, htext⟩
    rw [follow_congr (node_without_congr hsame), read_fname, hfirst]
    exact hfollow

/-- What two imports come to when they settle an app. -/
theorem Settled.sound (h : Settled B o₁ o₂ name src slot) {r : Bytes × Dir}
    (hr : import_dir B o₁ name src fname slot = some r) :
    Sound B name src r.2 ∧ ∀ fname', ∃ r', import_dir B o₂ name src fname' (.dir r.2) = some r' ∧
      Sound B name src r'.2 := by
  obtain ⟨D, hcopy, hholds, rfl⟩ := of_import_dir hr
  have hfiles := h.brought D hcopy
  obtain ⟨d_name, hd⟩ : ∃ d_name, first_entry (o₁.list name D) = some d_name :=
    first_entry_of_visible h.visible fun p node hp => ⟨node, node_copy hcopy hfiles hp⟩
  have hfname : read_fname o₁ name D fname = strlcpy d_name 128 := by rw [read_fname, hd]
  refine ⟨sound_relink hfiles h.free (fun _ _ => rfl) fun hi => h.first hi D hcopy, fun fname' => ?_⟩
  obtain ⟨D', hcopy', hcp, -, hsame⟩ :=
    copy_again hcopy hfiles h.visible h.free h.no_dir (read_fname o₁ name D fname)
  refine ⟨_, by rw [import_dir_eq hcopy', holds_congr hsame hholds]; rfl, ?_⟩
  rw [hfname] at hcp
  exact sound_relink hfiles h.free hsame fun hi => h.second hi D d_name D' hcopy hd hcp

end App

/-! ### The whole tree -/

section Tree

variable {B : Board} {o o₁ o₂ : Order} {pycfg name fname : Bytes} {src : Dir}
  {tree tree' : List (Bytes × Item)} {cfg cfg' : Cfg}

theorem mem_apps :
    (name, src) ∈ apps tree ↔ (name, Item.dir src) ∈ tree ∧ name ≠ dot ∧ name ≠ dotdot := by
  rw [apps, List.mem_filterMap]
  constructor
  · rintro ⟨⟨d_name, item⟩, hmem, h⟩
    cases item with
    | gone => cases h
    | other => cases h
    | dir src' =>
      dsimp only at h
      split at h
      · cases h
      · rename_i hne
        cases h
        exact ⟨hmem, not_or.mp hne⟩
  · rintro ⟨hmem, hdot, hdotdot⟩
    exact ⟨_, hmem, by simp [hdot, hdotdot]⟩

/-- As far as the round of an app gets, its texts are as they are meant. -/
structure InForm (B : Board) (pycfg name : Bytes) (src : Dir) (slot : Slot) : Prop where
  cmd : B.installed name = true → Fits pycfg name slot
  link : B.installed name = true → ∀ D, copy_dir B src slot = some D → (dlinkf name).length < 128

/-- The round of an app ends with -1: it is not installed, it is not copied, or there is a directory
with something in it at the name of the link. -/
def Stops (B : Board) (name : Bytes) (src : Dir) (slot : Slot) : Prop :=
  B.installed name = false ∨ ∀ D, copy_dir B src slot = some D → D.holds (cfg_name name) = true

/-- What is known of an import that has returned 0. -/
structure Passed (B : Board) (o : Order) (pycfg : Bytes) (tree : List (Bytes × Item)) (cfg cfg' : Cfg) :
    Prop where
  stat : ∀ name, (name, Item.gone) ∈ tree → name = dot ∨ name = dotdot
  app : ∀ name src, (name, src) ∈ apps tree →
    InForm B pycfg name src (cfg name) ∧ B.installed name = true ∧
      ∃ fname r, import_dir B o name src fname (cfg name) = some r ∧ cfg' name = .dir r.2
  frame : ∀ name, name ∉ tree.map Prod.fst → cfg' name = cfg name

/-- An app, and the rest of the tree from what it leaves. -/
theorem Passed.round {d_name : Bytes} {r : Bytes × Dir}
    (h : Passed B o pycfg tree (Function.update cfg d_name (.dir r.2)) cfg')
    (hnew : d_name ∉ tree.map Prod.fst) (hfits : InForm B pycfg d_name src (cfg d_name))
    (hinstalled : B.installed d_name = true)
    (hr : import_dir B o d_name src fname (cfg d_name) = some r) :
    Passed B o pycfg ((d_name, .dir src) :: tree) cfg cfg' where
  stat name hmem := by
    rcases List.mem_cons.mp hmem with heq | hmem
    · cases heq
    · exact h.stat name hmem
  app name src' hmem := by
    obtain ⟨hcons, hdots⟩ := mem_apps.mp hmem
    rcases List.mem_cons.mp hcons with heq | hin
    · cases heq
      refine ⟨hfits, hinstalled, fname, r, hr, ?_⟩
      rw [h.frame d_name hnew, Function.update_self]
    · have hne : name ≠ d_name := by
        rintro rfl
        exact hnew (List.mem_map.mpr ⟨_, hin, rfl⟩)
      obtain ⟨hfits', hthere, fname', r', hr', hcfg'⟩ := h.app name src' (mem_apps.mpr ⟨hin, hdots⟩)
      rw [Function.update_of_ne hne] at hfits' hr'
      exact ⟨hfits', hthere, fname', r', hr', hcfg'⟩
  frame name hname := by
    rw [List.map_cons, List.mem_cons, not_or] at hname
    rw [h.frame name hname.2, Function.update_of_ne hname.1]

end Tree

/-- An app that is imported twice as it should be. -/
structure Right (B : Board) (o₁ o₂ : Order) (pycfg name : Bytes) (src : Dir) (slot : Slot) : Prop where
  /-- the texts are as they are meant, also behind the first import -/
  fits : ∀ D, Fits pycfg name (.dir D)
  settled : Settled B o₁ o₂ name src slot

/-- The one cannot be put over the other. -/
def clashes : Option Node → Option Node → Bool
  | some .dir, some (.file _) => true
  | some .dir, some (.link _) => true
  | some (.file _), some .dir => true
  | some (.link _), some .dir => true
  | _, _ => false

/-- `cp` that removes what is in the way of a file first. -/
def cp_over (src dst : Dir) : Option Dir :=
  if (src.any fun e => clashes (src.node e.1) (dst.node e.1)) = true then none else some (src ++ dst)

/-- All apps are installed. -/
def board : Board where
  installed _ := true
  mkdir := true
  cp := cp_over
  elsewhere _ := none
  placed src dst D h := by
    rw [cp_over] at h
    split at h
    · cases h
    · exact .inl fun p => Option.some.inj h ▸ node_append src dst p
  again src dst h := by
    have hno : (src.any fun e => clashes (src.node e.1) (dst.node e.1)) = false := by
      rw [List.any_eq_false]
      intro e he
      obtain ⟨node, hnode⟩ := Option.ne_none_iff_exists'.mp (node_ne_none_of_mem he)
      obtain ⟨old, hold, hsame⟩ := h _ _ hnode
      rw [hnode, hold]
      cases node <;> cases old <;> first | exact hsame.elim | exact Bool.false_ne_true
    exact ⟨src ++ dst, by rw [cp_over, hno]; rfl, node_append src dst⟩
  clash src dst p target hsrc hdst := by
    obtain ⟨e, he, rfl⟩ := mem_of_node hsrc
    rw [cp_over, if_pos]
    exact List.any_eq_true.mpr ⟨e, he, by rw [hsrc, hdst]; rfl⟩

end Boxing.Inpython
