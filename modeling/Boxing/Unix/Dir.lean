import Boxing.Unix.Path

/-!
# A directory with links in it

A directory is the list of what is in it, at paths from the directory on.  `content` reads a
file in it and follows links, also within the directory.

A link that is put where nothing was does not get in the way of its own target: what it leads
to is the same as if it were not there (`follow_link_iff`).  For if it were on the way, the
way would begin anew and never end.
-/

namespace Boxing.Unix

open C

/-- What is in a directory. -/
abbrev Dir := List (Path × Node)

/-- What is at a path. -/
def Dir.node (D : Dir) (p : Path) : Option Node := D.lookup p

/-- Where the links lead: to a path in the directory, or out of it, to a file there may be. -/
structure Links where
  inside : Path → Bytes → Option Path
  elsewhere : Bytes → Option Bytes

/-- The file at a path, behind at most so many links. -/
def Dir.content (V : Links) (D : Dir) : Nat → Path → Option Bytes
  | 0, p =>
    match D.node p with
    | some (.file text) => some text
    | _ => none
  | links + 1, p =>
    match D.node p with
    | some (.file text) => some text
    | some (.link target) =>
      match V.inside p target with
      | some q => D.content V links q
      | none => V.elsewhere target
    | _ => none

/-- The file a link at a path leads to. -/
def Dir.follow (V : Links) (D : Dir) (links : Nat) (p : Path) (target : Bytes) : Option Bytes :=
  match V.inside p target with
  | some q => D.content V links q
  | none => V.elsewhere target

/-- In an entry without a dot in front. -/
def shown : Path → Bool
  | [] => false
  | name :: _ => name.head? ≠ some 46

/-- The entries that `*` stands for. -/
def Dir.visible (D : Dir) : Dir := D.filter fun e => shown e.1

/-- There is something in an entry of a directory. -/
def Dir.holds (D : Dir) (name : Bytes) : Bool :=
  D.any fun e =>
    match e.1 with
    | n :: _ :: _ => n = name
    | _ => false

/-- There is an entry of this name. -/
def Dir.there (D : Dir) (name : Bytes) : Bool := D.any fun e => e.1.head? = some name

/-- Without an entry. -/
def Dir.without (D : Dir) (name : Bytes) : Dir := D.filter fun e => e.1 ≠ [name]

/-- `remove` of an entry. -/
def Dir.remove (D : Dir) (name : Bytes) : Dir :=
  if D.holds name = true then D else D.without name

/-- `symlink`. -/
def Dir.symlink (D : Dir) (target name : Bytes) : Option Dir :=
  if D.there name = true then none else some (([name], .link target) :: D)

/-- The one has been put over the other. -/
def Over (src dst D : Dir) : Prop := ∀ p, D.node p = (src.node p).or (dst.node p)

section Dir

variable {V : Links} {D D' src dst : Dir} {p q : Path} {links more : Nat} {text target name : Bytes}

theorem node_filter (D : Dir) (f : Path → Bool) (p : Path) :
    Dir.node (D.filter fun e => f e.1) p = if f p = true then D.node p else none := by
  unfold Dir.node
  induction D with
  | nil => rw [List.filter_nil, List.lookup_nil, ite_self]
  | cons e D ih =>
    rw [List.filter_cons, List.lookup_cons]
    by_cases hp : p = e.1
    · rw [hp] at ih ⊢
      by_cases hf : f e.1 = true
      · rw [if_pos hf, if_pos hf, List.lookup_cons, beq_self_eq_true]
      · rw [if_neg hf, ih]
        rw [if_neg hf, if_neg hf]
    · rw [beq_eq_false_iff_ne.mpr hp, ← ih]
      split
      · rw [List.lookup_cons, beq_eq_false_iff_ne.mpr hp]
      · rfl

theorem node_cons (p q : Path) (node : Node) (D : Dir) :
    Dir.node ((q, node) :: D) p = if p = q then some node else D.node p := by
  rw [Dir.node, List.lookup_cons]
  by_cases hq : p = q
  · rw [if_pos hq, beq_iff_eq.mpr hq]
  · rw [if_neg hq, beq_eq_false_iff_ne.mpr hq]
    rfl

theorem node_append (D D' : Dir) (p : Path) : Dir.node (D ++ D') p = (D.node p).or (D'.node p) :=
  List.lookup_append

theorem content_of_file (h : D.node p = some (.file text)) (links : Nat) :
    D.content V links p = some text := by
  cases links with
  | zero => rw [Dir.content, h]
  | succ links => rw [Dir.content, h]

theorem content_of_link (h : D.node p = some (.link target)) (links : Nat) :
    D.content V (links + 1) p = D.follow V links p target := by
  rw [Dir.content, h]
  rfl

/-- With more in the directory, and with more links. -/
theorem content_mono (hD : ∀ p node, D.node p = some node → D'.node p = some node)
    (hle : links ≤ more) (h : D.content V links p = some text) :
    D'.content V more p = some text := by
  induction links generalizing p more with
  | zero =>
    rw [Dir.content] at h
    cases hnode : D.node p with
    | none => simp [hnode] at h
    | some node =>
      cases node with
      | dir => simp [hnode] at h
      | link target => simp [hnode] at h
      | file text =>
        rw [hnode] at h
        rw [content_of_file (hD _ _ hnode)]
        exact h
  | succ links ih =>
    obtain ⟨more, rfl⟩ := Nat.exists_eq_add_of_le' (Nat.one_le_of_lt hle)
    cases hnode : D.node p with
    | none => simp [Dir.content, hnode] at h
    | some node =>
      cases node with
      | dir => simp [Dir.content, hnode] at h
      | file text => rw [content_of_file (hD _ _ hnode), ← h, content_of_file hnode]
      | link target =>
        rw [content_of_link hnode] at h
        rw [content_of_link (hD _ _ hnode)]
        unfold Dir.follow at h ⊢
        cases hq : V.inside p target with
        | none => rwa [hq] at h
        | some q =>
          rw [hq] at h
          exact ih (Nat.le_of_succ_le_succ hle) h

theorem follow_mono (hD : ∀ p node, D.node p = some node → D'.node p = some node)
    (hle : links ≤ more) (h : D.follow V links p target = some text) :
    D'.follow V more p target = some text := by
  unfold Dir.follow at h ⊢
  cases hq : V.inside p target with
  | none => rwa [hq] at h
  | some q =>
    rw [hq] at h
    exact content_mono hD hle h

theorem content_congr (hD : ∀ p, D'.node p = D.node p) :
    D'.content V links p = D.content V links p := by
  induction links generalizing p with
  | zero => rw [Dir.content, Dir.content, hD]
  | succ links ih => simp only [Dir.content, hD, ih]

theorem follow_congr (hD : ∀ p, D'.node p = D.node p) :
    D'.follow V links p target = D.follow V links p target := by
  unfold Dir.follow
  simp only [content_congr hD]

/-- `D'` is `D` with one more link. -/
structure Linked (D : Dir) (q : Path) (target : Bytes) (D' : Dir) : Prop where
  before : D.node q = none
  link : D'.node q = some (.link target)
  other : ∀ p, p ≠ q → D'.node p = D.node p

/-- The new link is not on the way, or behind it there are less links left. -/
theorem Linked.content (h : Linked D q target D') (hc : D'.content V links p = some text) :
    D.content V links p = some text ∨ ∃ fewer < links, D'.follow V fewer q target = some text := by
  induction links generalizing p with
  | zero =>
    left
    by_cases hp : p = q
    · rw [hp, Dir.content, h.link] at hc
      cases hc
    · rwa [Dir.content, h.other p hp, ← Dir.content] at hc
  | succ links ih =>
    by_cases hp : p = q
    · rw [hp, content_of_link h.link] at hc
      exact .inr ⟨links, Nat.lt_succ_self links, hc⟩
    · cases hnode : D.node p with
      | none => simp [Dir.content, h.other p hp, hnode] at hc
      | some node =>
        have hnode' := (h.other p hp).trans hnode
        cases node with
        | dir => simp [Dir.content, hnode'] at hc
        | file text =>
          rw [content_of_file hnode'] at hc
          exact .inl (hc ▸ content_of_file hnode _)
        | link target' =>
          rw [content_of_link hnode'] at hc
          rw [content_of_link hnode]
          unfold Dir.follow at hc ⊢
          cases hq : V.inside p target' with
          | none =>
            rw [hq] at hc
            exact .inl hc
          | some p' =>
            rw [hq] at hc
            rcases ih hc with h' | ⟨fewer, hlt, h'⟩
            · exact .inl h'
            · exact .inr ⟨fewer, hlt.trans (Nat.lt_succ_self links), h'⟩

/-- **A new link leads where its target leads without it.** -/
theorem Linked.follow_iff (h : Linked D q target D') :
    D'.follow V links q target = some text ↔ D.follow V links q target = some text := by
  have hmono : ∀ p node, D.node p = some node → D'.node p = some node := by
    intro p node hp
    have hne : p ≠ q := by
      rintro rfl
      rw [h.before] at hp
      cases hp
    rwa [h.other p hne]
  constructor
  · intro hf
    induction links using Nat.strongRecOn with
    | ind links ih =>
      have hf' := hf
      unfold Dir.follow at hf' ⊢
      cases hp : V.inside q target with
      | none => rwa [hp] at hf'
      | some p =>
        rw [hp] at hf'
        rcases h.content hf' with hc | ⟨fewer, hlt, hfewer⟩
        · exact hc
        · have hD := follow_mono (fun _ _ hn => hn) hlt.le (ih fewer hlt hfewer)
          rwa [Dir.follow, hp] at hD
  · exact follow_mono hmono le_rfl

/-- Where the link is read from. -/
theorem Linked.content_iff (h : Linked D q target D') :
    D'.content V (links + 1) q = some text ↔ D.follow V links q target = some text := by
  rw [content_of_link h.link, h.follow_iff]

theorem node_without (D : Dir) (name : Bytes) (p : Path) :
    (D.without name).node p = if p = [name] then none else D.node p := by
  rw [Dir.without, node_filter D (fun p => decide (p ≠ [name]))]
  by_cases hp : p = [name]
  · rw [if_pos hp, if_neg (by simpa using hp)]
  · rw [if_neg hp, if_pos (by simpa using hp)]

theorem node_visible (D : Dir) (p : Path) :
    D.visible.node p = if shown p = true then D.node p else none := node_filter D shown p

theorem node_ne_none_of_mem {e : Path × Node} (h : e ∈ D) : D.node e.1 ≠ none := by
  rw [Dir.node, ne_eq, List.lookup_eq_none_iff, not_forall]
  exact ⟨e, fun hall => by simpa using hall h⟩

theorem mem_of_node {node : Node} (h : D.node p = some node) : ∃ e ∈ D, e.1 = p := by
  by_contra hno
  have hnone : D.node p = none := by
    rw [Dir.node, List.lookup_eq_none_iff]
    exact fun e he => by simpa using fun heq : p = e.1 => hno ⟨e, he, heq.symm⟩
  rw [hnone] at h
  cases h

theorem there_of_node {node : Node} (h : D.node (name :: p) = some node) : D.there name = true := by
  obtain ⟨e, he, hp⟩ := mem_of_node h
  exact List.any_eq_true.mpr ⟨e, he, by rw [hp]; simp⟩

/-- There is nothing in an entry. -/
theorem holds_eq_false : D.holds name = false ↔ ∀ m q, D.node (name :: m :: q) = none := by
  rw [Dir.holds, List.any_eq_false]
  constructor
  · intro h m q
    cases hnode : D.node (name :: m :: q) with
    | none => rfl
    | some node =>
      obtain ⟨e, he, hp⟩ := mem_of_node hnode
      have hno := h e he
      rw [hp] at hno
      simp at hno
  · rintro h ⟨path, node⟩ he
    match path with
    | [] => simp
    | [_] => simp
    | n :: m :: q =>
      simp only [decide_eq_true_eq]
      rintro rfl
      exact node_ne_none_of_mem he (h m q)

theorem there_remove (D : Dir) (name : Bytes) : (D.remove name).there name = D.holds name := by
  rw [Dir.remove]
  by_cases h : D.holds name = true
  · rw [if_pos h, h]
    obtain ⟨⟨path, node⟩, he, hpath⟩ := List.any_eq_true.mp h
    match path with
    | [] => simp at hpath
    | [_] => simp at hpath
    | n :: m :: q => exact List.any_eq_true.mpr ⟨_, he, by simpa using hpath⟩
  · rw [if_neg h, Bool.eq_false_iff.mpr h, Dir.there, List.any_eq_false]
    rintro ⟨path, node⟩ he
    obtain ⟨hmem, hne⟩ := List.mem_filter.mp he
    match path with
    | [] => simp
    | [n] => simpa using hne
    | n :: m :: q =>
      have hno := List.any_eq_false.mp (Bool.eq_false_iff.mpr h) _ hmem
      simpa using hno

/-- An old entry is removed, and a link is put in its place. -/
theorem symlink_remove (D : Dir) (target name : Bytes) :
    (D.remove name).symlink target name =
      if D.holds name = true then none else some (([name], .link target) :: D.without name) := by
  rw [Dir.symlink, there_remove]
  by_cases h : D.holds name = true
  · rw [if_pos h, if_pos h]
  · rw [if_neg h, if_neg h, Dir.remove, if_neg h]

theorem linked_without (D : Dir) (target name : Bytes) :
    Linked (D.without name) [name] target (([name], .link target) :: D.without name) where
  before := by rw [node_without, if_pos rfl]
  link := by rw [node_cons, if_pos rfl]
  other p hp := by rw [node_cons, if_neg hp]

end Dir

end Boxing.Unix
