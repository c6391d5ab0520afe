import Mathlib.Tactic.Common
import Boxing.C.Str

/-!
# Paths

A path is the list of names that leads to a file from the root, without links and without
`.` and `..`.  `resolve` gets from the text of a path name to the path it stands for: it
follows links, but not one that is the last name, and a name that ends in a slash is as if
there were a dot behind it.

`Lost` says which files are gone, and that nothing else has happened.
-/

namespace Boxing.Unix

open C

/-- The names from the root on. -/
abbrev Path := List Bytes

/-- What can stand at a path. -/
inductive Node
  | dir
  | file (content : Bytes)
  | link (target : Bytes)

/-- A file system. -/
abbrev Fs := Path → Option Node

/-- `.` -/
def dot : Bytes := [46]

/-- `..` -/
def dotdot : Bytes := [46, 46]

/-- The names in a path name. -/
def names (s : Bytes) : List Bytes := (s.splitOnP (· = 47)).filter (· ≠ [])

/-- With the dot for a slash at the end. -/
def parts (s : Bytes) : List Bytes := names s ++ if s.getLast? = some 47 then [dot] else []

/-- Where a path name begins. -/
def origin (cwd : Path) (s : Bytes) : Path := if s.head? = some 47 then [] else cwd

/-- From a directory on, following at most so many links. -/
def walk (fs : Fs) (links : Nat) (cur : Path) (rest : List Bytes) : Option Path :=
  match rest with
  | [] => some cur
  | name :: rest =>
    if name = dot then walk fs links cur rest
    else if name = dotdot then walk fs links cur.dropLast rest
    else
      match fs (cur ++ [name]) with
      | none => none
      | some .dir => walk fs links (cur ++ [name]) rest
      | some (.file _) => if rest = [] then some (cur ++ [name]) else none
      | some (.link target) =>
        if rest = [] then some (cur ++ [name])
        else
          match _h : links with
          | 0 => none
          | links + 1 => walk fs links (origin cur target) (parts target ++ rest)
termination_by (links, rest.length)

/-- The path a name stands for. -/
def resolve (fs : Fs) (cwd : Path) (s : Bytes) : Option Path := walk fs 40 (origin cwd s) (parts s)

/-- Some of the files are gone. -/
def Lost (some_of : Path → Prop) (fs fs' : Fs) : Prop :=
  ∀ p, fs' p = fs p ∨ fs' p = none ∧ some_of p

section Names

variable {s t : Bytes} {fs fs' fs'' : Fs} {cur : Path} {P Q : Path → Prop}

theorem names_append (s t : Bytes) : names (s ++ 47 :: t) = names s ++ names t := by
  rw [names, List.splitOnP_append_cons s t (by decide), List.filter_append]
  rfl

/-- A name is made of what the path name is made of. -/
theorem mem_of_mem_splitOnP {p : UInt8 → Bool} {word : Bytes} {c : UInt8}
    (h : word ∈ s.splitOnP p) (hc : c ∈ word) : c ∈ s := by
  induction s generalizing word with
  | nil =>
    rw [List.splitOnP_nil, List.mem_singleton] at h
    exact h ▸ hc
  | cons x s ih =>
    rw [List.splitOnP_cons_eq_if_modifyHead] at h
    split at h
    · rcases List.mem_cons.mp h with rfl | h
      · cases hc
      · exact List.mem_cons_of_mem _ (ih h hc)
    · obtain ⟨first, others, hsplit⟩ := List.exists_cons_of_ne_nil (List.splitOnP_ne_nil p s)
      rw [hsplit, List.modifyHead_cons] at h
      rcases List.mem_cons.mp h with rfl | h
      · rcases List.mem_cons.mp hc with rfl | hc
        · exact List.mem_cons_self
        · exact List.mem_cons_of_mem _ (ih (hsplit ▸ List.mem_cons_self) hc)
      · exact List.mem_cons_of_mem _ (ih (hsplit ▸ List.mem_cons_of_mem _ h) hc)

theorem mem_of_mem_names {name : Bytes} {c : UInt8} (h : name ∈ names s) (hc : c ∈ name) : c ∈ s :=
  mem_of_mem_splitOnP (List.mem_filter.mp h).1 hc

@[simp] theorem walk_nil (fs : Fs) (links : Nat) (cur : Path) : walk fs links cur [] = some cur := by
  rw [walk]

theorem walk_dot (fs : Fs) (links : Nat) (cur : Path) (rest : List Bytes) :
    walk fs links cur (dot :: rest) = walk fs links cur rest := by
  rw [walk, if_pos rfl]

/-- Dots lead nowhere. -/
theorem walk_dots (fs : Fs) (links : Nat) (cur : Path) {ds : List Bytes} (h : ∀ d ∈ ds, d = dot)
    (rest : List Bytes) : walk fs links cur (ds ++ rest) = walk fs links cur rest := by
  induction ds with
  | nil => rfl
  | cons d ds ih =>
    rw [List.cons_append, h d List.mem_cons_self, walk_dot,
      ih fun d' hd' => h d' (List.mem_cons_of_mem _ hd')]

/-- One name, and dots in front of it. -/
theorem eq_dots_append {name : Bytes} {rest : List Bytes} (h : rest.filter (· ≠ dot) = [name])
    (hlast : rest.getLast? ≠ some dot) : ∃ ds, rest = ds ++ [name] ∧ ∀ d ∈ ds, d = dot := by
  induction rest with
  | nil => cases h
  | cons x rest ih =>
    by_cases hx : x = dot
    · rw [List.filter_cons_of_neg (by simpa using hx)] at h
      have hne : rest ≠ [] := by
        rintro rfl
        cases h
      rw [List.getLast?_cons_of_ne_nil hne] at hlast
      obtain ⟨ds, hrest, hds⟩ := ih h hlast
      refine ⟨x :: ds, by rw [hrest, List.cons_append], fun d hd => ?_⟩
      exact (List.mem_cons.mp hd).elim (fun hd => hd.trans hx) (hds d)
    · rw [List.filter_cons_of_pos (by simpa using hx)] at h
      obtain ⟨rfl, hnil⟩ := List.cons.inj h
      by_cases hne : rest = []
      · exact ⟨[], by rw [hne, List.nil_append], List.forall_mem_nil _⟩
      · rw [List.getLast?_cons_of_ne_nil hne, List.getLast?_eq_some_getLast hne] at hlast
        have hmem : rest.getLast hne ∈ rest.filter (· ≠ dot) :=
          List.mem_filter.mpr ⟨List.getLast_mem hne, by simpa using hlast⟩
        rw [hnil] at hmem
        cases hmem

/-- Through directories. -/
theorem walk_through {ds : List Bytes} {rest : List Bytes} {links : Nat}
    (hplain : ∀ d ∈ ds, d ≠ dot ∧ d ≠ dotdot)
    (hdirs : ∀ p, p <+: ds → p ≠ [] → fs (cur ++ p) = some .dir) :
    walk fs links cur (ds ++ rest) = walk fs links (cur ++ ds) rest := by
  induction ds generalizing cur with
  | nil => rw [List.nil_append, List.append_nil]
  | cons d ds ih =>
    obtain ⟨hdot, hdotdot⟩ := hplain d List.mem_cons_self
    have hd : fs (cur ++ [d]) = some .dir :=
      hdirs [d] (List.cons_prefix_cons.mpr ⟨rfl, List.nil_prefix⟩) (List.cons_ne_nil _ _)
    rw [List.cons_append, walk, if_neg hdot, if_neg hdotdot, hd]
    dsimp only
    rw [@ih (cur ++ [d]) (fun d' hd' => hplain d' (List.mem_cons_of_mem _ hd')) fun p hp _ => ?_,
      List.append_assoc, List.singleton_append]
    rw [List.append_assoc]
    exact hdirs (d :: p) (List.cons_prefix_cons.mpr ⟨rfl, hp⟩) (List.cons_ne_nil _ _)

/-- Through directories that are there, or are not: there is no link on the way. -/
theorem walk_append {ds : List Bytes} {rest : List Bytes} {q : Path} {links : Nat}
    (hplain : ∀ d ∈ ds, d ≠ dot ∧ d ≠ dotdot) (hrest : rest ≠ [])
    (hlinks : ∀ p, p <+: ds → ∀ target, fs (cur ++ p) ≠ some (.link target))
    (h : walk fs links cur (ds ++ rest) = some q) : walk fs links (cur ++ ds) rest = some q := by
  induction ds generalizing cur with
  | nil => rwa [List.append_nil]
  | cons d ds ih =>
    obtain ⟨hdot, hdotdot⟩ := hplain d List.mem_cons_self
    have hne : ds ++ rest ≠ [] := List.append_ne_nil_of_right_ne_nil _ hrest
    rw [List.cons_append, walk, if_neg hdot, if_neg hdotdot] at h
    have hd : ∀ target, fs (cur ++ [d]) ≠ some (.link target) :=
      hlinks [d] (List.cons_prefix_cons.mpr ⟨rfl, List.nil_prefix⟩)
    cases hnode : fs (cur ++ [d]) with
    | none =>
      rw [hnode] at h
      cases h
    | some node =>
      rw [hnode] at h
      cases node with
      | dir =>
        have hnext := @ih (cur ++ [d]) (fun d' hd' => hplain d' (List.mem_cons_of_mem _ hd'))
          (fun p hp target => ?_) h
        · rwa [List.append_assoc, List.singleton_append] at hnext
        · rw [List.append_assoc]
          exact hlinks (d :: p) (List.cons_prefix_cons.mpr ⟨rfl, hp⟩) target
      | file content =>
        dsimp only at h
        rw [if_neg hne] at h
        cases h
      | link target => exact absurd hnode (hd target)

/-- The last name is not followed, and neither is one with a dot behind it if it is no link. -/
theorem walk_last {name : Bytes} {tail : List Bytes} {links : Nat} {q : Path} (hdot : name ≠ dot)
    (hdotdot : name ≠ dotdot)
    (htail : tail = [] ∨ tail = [dot] ∧ ∀ target, fs (cur ++ [name]) ≠ some (.link target))
    (h : walk fs links cur (name :: tail) = some q) : q = cur ++ [name] := by
  rw [walk, if_neg hdot, if_neg hdotdot] at h
  cases hnode : fs (cur ++ [name]) with
  | none =>
    rw [hnode] at h
    cases h
  | some node =>
    rw [hnode] at h
    rcases htail with rfl | ⟨rfl, hlink⟩
    · cases node with
      | dir =>
        dsimp only at h
        rw [walk_nil] at h
        exact (Option.some.inj h).symm
      | file content => exact (Option.some.inj h).symm
      | link target => exact (Option.some.inj h).symm
    · cases node with
      | dir =>
        dsimp only at h
        rw [walk_dot, walk_nil] at h
        exact (Option.some.inj h).symm
      | file content => cases h
      | link target => exact absurd hnode (hlink target)

/-- Where the names lead when there are directories everywhere. -/
def go : Path → List Bytes → Path
  | cur, [] => cur
  | cur, name :: rest =>
    if name = dot then go cur rest
    else if name = dotdot then go cur.dropLast rest
    else go (cur ++ [name]) rest

theorem walk_dirs (links : Nat) (cur : Path) (rest : List Bytes) :
    walk (fun _ => some .dir) links cur rest = some (go cur rest) := by
  induction rest generalizing cur with
  | nil => exact walk_nil _ _ _
  | cons name rest ih =>
    rw [walk, go]
    split
    · exact ih cur
    · split
      · exact ih cur.dropLast
      · exact ih (cur ++ [name])

/-- Nothing comes up on the way that is not in the names. -/
theorem mem_go {rest : List Bytes} {name : Bytes} (h : name ∈ go cur rest) :
    name ∈ cur ∨ name ∈ rest := by
  induction rest generalizing cur with
  | nil => exact Or.inl h
  | cons x rest ih =>
    rw [go] at h
    split at h
    · exact (ih h).imp_right (List.mem_cons_of_mem _)
    · split at h
      · exact (ih h).imp List.mem_of_mem_dropLast (List.mem_cons_of_mem _)
      · rcases ih h with h | h
        · rcases List.mem_append.mp h with h | h
          · exact Or.inl h
          · exact Or.inr (List.mem_singleton.mp h ▸ List.mem_cons_self)
        · exact Or.inr (List.mem_cons_of_mem _ h)

theorem go_append (cur : Path) (a b : List Bytes) : go cur (a ++ b) = go (go cur a) b := by
  induction a generalizing cur with
  | nil => rfl
  | cons x a ih =>
    rw [List.cons_append, go, go]
    split
    · exact ih cur
    · split
      · exact ih _
      · exact ih _

/-- Names without dots. -/
theorem go_plain {ds : List Bytes} (h : ∀ d ∈ ds, d ≠ dot ∧ d ≠ dotdot) : go cur ds = cur ++ ds := by
  induction ds generalizing cur with
  | nil => exact (List.append_nil cur).symm
  | cons d ds ih =>
    obtain ⟨hdot, hdotdot⟩ := h d List.mem_cons_self
    rw [go, if_neg hdot, if_neg hdotdot, ih fun d' hd' => h d' (List.mem_cons_of_mem _ hd'),
      List.append_assoc, List.singleton_append]

theorem go_filter (cur : Path) (rest : List Bytes) : go cur rest = go cur (rest.filter (· ≠ dot)) := by
  induction rest generalizing cur with
  | nil => rfl
  | cons x rest ih =>
    by_cases hx : x = dot
    · rw [go, if_pos hx, List.filter_cons_of_neg (by simpa using hx), ih]
    · rw [List.filter_cons_of_pos (by simpa using hx), go, go, if_neg hx, if_neg hx]
      split
      · exact ih _
      · exact ih _

/-- Without links the slash at the end makes no difference. -/
theorem go_parts (cur : Path) (s : Bytes) : go cur (parts s) = go cur (names s) := by
  rw [parts, go_append]
  split
  · rw [go, if_pos rfl, go]
  · rw [go]

/-- A character that is no slash is in one of the names. -/
theorem exists_mem_names {c : UInt8} (hc : c ∈ s) (h47 : c ≠ 47) : ∃ name ∈ names s, c ∈ name := by
  obtain ⟨name, hname, hmem⟩ : ∃ name ∈ s.splitOnP (· = 47), c ∈ name := by
    induction s with
    | nil => cases hc
    | cons x s ih =>
      rw [List.splitOnP_cons_eq_if_modifyHead]
      obtain ⟨first, others, hsplit⟩ :=
        List.exists_cons_of_ne_nil (List.splitOnP_ne_nil (fun c : UInt8 => decide (c = 47)) s)
      rw [hsplit] at ih ⊢
      split
      · rename_i hx
        have hne : c ≠ x := fun h => h47 (h.trans (by simpa using hx))
        obtain ⟨name, hname, hmem⟩ := ih ((List.mem_cons.mp hc).resolve_left hne)
        exact ⟨name, List.mem_cons_of_mem _ hname, hmem⟩
      · rw [List.modifyHead_cons]
        rcases List.mem_cons.mp hc with rfl | hc
        · exact ⟨_, List.mem_cons_self, List.mem_cons_self⟩
        · obtain ⟨name, hname, hmem⟩ := ih hc
          rcases List.mem_cons.mp hname with rfl | hname
          · exact ⟨_, List.mem_cons_self, List.mem_cons_of_mem _ hmem⟩
          · exact ⟨name, List.mem_cons_of_mem _ hname, hmem⟩
  exact ⟨name, List.mem_filter.mpr ⟨hname, by simpa using List.ne_nil_of_mem hmem⟩, hmem⟩

theorem Lost.refl (P : Path → Prop) (fs : Fs) : Lost P fs fs := fun _ => Or.inl rfl

theorem Lost.trans (h : Lost P fs fs') (h' : Lost P fs' fs'') : Lost P fs fs'' := fun p => by
  rcases h' p with heq | hgone
  · exact heq ▸ h p
  · exact Or.inr hgone

theorem Lost.mono (h : Lost P fs fs') (hPQ : ∀ p, P p → Q p) : Lost Q fs fs' := fun p =>
  (h p).imp_right fun hgone => ⟨hgone.1, hPQ p hgone.2⟩

/-- Nothing new comes up. -/
theorem Lost.node (h : Lost P fs fs') {p : Path} {node : Node} (hp : fs' p = some node) :
    fs p = some node := by
  rcases h p with heq | ⟨hnone, -⟩
  · exact heq ▸ hp
  · rw [hnone] at hp
    cases hp

end Names

end Boxing.Unix
