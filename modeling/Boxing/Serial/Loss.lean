import Boxing.Serial.Reassembly

/-!
# Bytes lost on the line

The tester counts errors, so one error should count once: bytes missing from one
frame should cost that frame and no other.  `pars_data` knows a frame by where
`S` stands in a piece.  At the head of the piece it starts anew, inside it starts
anew when the piece has a `D` as well and does not end in one, and otherwise the
`S` is text like any other and the frame it opens is joined to what was there.

So the loss reaches a neighbour through the piece it shares with the damage:
`behind` is what follows the frame in front in the piece of its last byte,
`before` what precedes the frame behind in the piece of its first.
`loss_costs_one_frame_iff` says for which of these the neighbours survive.
-/

namespace Boxing.Serial

open C

/-! ### Cuts -/

/-- In the piece that a cut after `k` bytes of the stream divides: what is behind
the cut. -/
def behind : Nat → List Bytes → Bytes
  | _, [] => []
  | k, c :: cs =>
    if k < c.length then (if k = 0 then [] else c.drop k) else behind (k - c.length) cs

/-- In the piece that a cut after `k` bytes of the stream divides: what is before
the cut. -/
def before : Nat → List Bytes → Bytes
  | _, [] => []
  | k, c :: cs => if k < c.length then c.take k else before (k - c.length) cs

theorem behind_zero (cs : List Bytes) : behind 0 cs = [] := by
  induction cs with
  | nil => rfl
  | cons c cs ih =>
    rw [behind]
    split
    · exact if_pos rfl
    · rw [Nat.zero_sub]
      exact ih

theorem behind_cons (c : Bytes) (cs : List Bytes) (k : Nat) :
    behind (c.length + k) (c :: cs) = behind k cs := by
  rw [behind, if_neg (by omega), Nat.add_sub_cancel_left]

theorem before_cons (c : Bytes) (cs : List Bytes) (k : Nat) :
    before (c.length + k) (c :: cs) = before k cs := by
  rw [before, if_neg (by omega), Nat.add_sub_cancel_left]

theorem behind_append (cs cs' : List Bytes) (k : Nat) :
    behind (cs.flatten.length + k) (cs ++ cs') = behind k cs' := by
  induction cs with
  | nil => rw [List.flatten_nil, List.length_nil, Nat.zero_add, List.nil_append]
  | cons c cs ih =>
    rw [List.flatten_cons, List.length_append, Nat.add_assoc, List.cons_append, behind_cons, ih]

theorem before_append (cs cs' : List Bytes) (k : Nat) :
    before (cs.flatten.length + k) (cs ++ cs') = before k cs' := by
  induction cs with
  | nil => rw [List.flatten_nil, List.length_nil, Nat.zero_add, List.nil_append]
  | cons c cs ih =>
    rw [List.flatten_cons, List.length_append, Nat.add_assoc, List.cons_append, before_cons, ih]

theorem before_cut {a b : Bytes} {cs : List Bytes} (hb : b ≠ []) :
    before a.length ((a ++ b) :: cs) = a := by
  have := List.length_pos_iff.mpr hb
  rw [before, if_pos (by rw [List.length_append]; omega), List.take_left]

theorem behind_cut {a b : Bytes} {cs : List Bytes} (ha : a ≠ []) (hb : b ≠ []) :
    behind a.length ((a ++ b) :: cs) = b := by
  have := List.length_pos_iff.mpr hb
  have := List.length_pos_iff.mpr ha
  rw [behind, if_pos (by rw [List.length_append]; omega), if_neg (by omega), List.drop_left]

/-- No piece reaches past the end of the stream. -/
theorem before_end (cs : List Bytes) : before cs.flatten.length cs = [] := by
  have := before_append cs [] 0
  rwa [List.append_nil, Nat.add_zero, before] at this

/-- A piece ends inside the bytes `x` to come, or reaches past them. -/
theorem inside_or_over {c rest x y : Bytes} (h : c ++ rest = x ++ y) :
    (∃ x', x = c ++ x' ∧ rest = x' ++ y) ∨ ∃ v, v ≠ [] ∧ c = x ++ v ∧ v ++ rest = y := by
  rcases List.append_eq_append_iff.mp h with ⟨x', hx, hr⟩ | ⟨v, hc, hy⟩
  · exact Or.inl ⟨x', hx, hr⟩
  · by_cases hv : v = []
    · subst hv
      exact Or.inl ⟨[], by rw [hc]; simp, hy.symm⟩
    · exact Or.inr ⟨v, hv, hc, hy.symm⟩

/-- A cut of the stream falls between two pieces or into one. -/
theorem exists_cut : ∀ (chunks : List Bytes) (x y : Bytes), chunks.flatten = x ++ y →
    (∃ cs cs', chunks = cs ++ cs' ∧ cs.flatten = x ∧ cs'.flatten = y) ∨
      ∃ cs a b cs', chunks = cs ++ (a ++ b) :: cs' ∧ cs.flatten ++ a = x ∧ b ++ cs'.flatten = y ∧
        a ≠ [] ∧ b ≠ [] := by
  intro chunks
  induction chunks with
  | nil =>
    intro x y h
    obtain ⟨rfl, rfl⟩ := List.append_eq_nil_iff.mp h.symm
    exact Or.inl ⟨[], [], rfl, rfl, rfl⟩
  | cons c cs ih =>
    intro x y h
    by_cases hx : x = []
    · subst hx
      exact Or.inl ⟨[], c :: cs, rfl, rfl, h⟩
    rw [List.flatten_cons] at h
    rcases inside_or_over h with ⟨x', rfl, h'⟩ | ⟨b, hb, rfl, h'⟩
    · rcases ih x' y h' with ⟨ds, ds', rfl, rfl, hy⟩ | ⟨ds, a, b, ds', rfl, rfl, hy, ha, hb⟩
      · exact Or.inl ⟨c :: ds, ds', rfl, rfl, hy⟩
      · exact Or.inr ⟨c :: ds, a, b, ds', rfl, by rw [List.flatten_cons, List.append_assoc], hy, ha, hb⟩
    · exact Or.inr ⟨[], x, b, cs, rfl, rfl, h', hx, hb⟩

/-! ### What the neighbours survive -/

/-- The frame in front is returned as it is: nothing follows it in its last piece,
or what follows opens with `S` and does not end in `D`. -/
def EndsClean (y : Bytes) : Prop := y = [] ∨ y.head? = some chS ∧ y.getLast? ≠ some chD

/-- The frame behind is started anew: it is at the head of its first piece, or
what precedes it there has a `D` and no `S`. -/
def StartsClean (u : Bytes) : Prop := u = [] ∨ chD ∈ u ∧ chS ∉ u

instance (y : Bytes) : Decidable (EndsClean y) :=
  inferInstanceAs (Decidable (y = [] ∨ y.head? = some chS ∧ y.getLast? ≠ some chD))

instance (u : Bytes) : Decidable (StartsClean u) :=
  inferInstanceAs (Decidable (u = [] ∨ chD ∈ u ∧ chS ∉ u))

theorem joins_append : ∀ (xs ys : List Bytes) (acc t : Bytes) (outs : List Bytes),
    joins acc xs = some (t, outs) →
    joins acc (xs ++ ys) = (joins t ys).map fun y => (y.1, outs ++ y.2) := by
  intro xs ys
  induction xs with
  | nil =>
    intro acc t outs h
    obtain ⟨rfl, rfl⟩ := Prod.mk.inj (Option.some.inj h)
    rw [List.nil_append]
    cases joins acc ys <;> rfl
  | cons c xs ih =>
    intro acc t outs h
    rw [joins] at h
    split at h
    · rename_i hlen
      obtain ⟨⟨t', outs'⟩, hj, he⟩ := Option.map_eq_some_iff.mp h
      obtain ⟨rfl, rfl⟩ := Prod.mk.inj he
      rw [List.cons_append, joins, if_pos hlen, ih _ _ _ hj, Option.map_map]
      congr 1
      funext y
      exact Prod.ext rfl (List.append_assoc _ _ _).symm
    · cases h

/-- What stands in front of the text in the buffer stays there, and is handed on
with it, until a piece starts anew. -/
theorem join_append_left {s : Bytes} (hs : s.head? ≠ some chS) (w acc : Bytes) :
    ((join acc s).2 = none → join (w ++ acc) s = (w ++ (join acc s).1, none)) ∧
      ∀ m, (join acc s).2 = some m → join (w ++ acc) s = ((join acc s).1, some (w ++ m)) := by
  unfold join
  rw [if_neg hs, if_neg hs]
  split
  · exact ⟨fun h => by simp at h, fun m h => by rw [← Option.some.inj h, List.append_assoc]⟩
  · split
    · exact ⟨fun h => by simp at h, fun m h => by rw [← Option.some.inj h, List.append_assoc]⟩
    · exact ⟨fun _ => by rw [List.append_assoc], fun m h => by simp at h⟩

/-- Anything in front of a frame in the buffer costs that frame, and only that one. -/
theorem joins_behind {w : Bytes} (hw : w.length < 900) : ∀ (chunks : List Bytes) (q : Frame)
    (fs : List Frame) (acc : Bytes), (∀ c ∈ chunks, 1 ≤ c.length ∧ c.length ≤ 8) → acc ≠ [] →
    acc.length < 15 → acc ++ chunks.flatten = (q :: fs).flatMap Frame.bytes →
    joins (w ++ acc) chunks = some ([], (w ++ q.bytes) :: fs.map Frame.bytes) := by
  intro chunks
  induction chunks with
  | nil =>
    intro q fs acc _ _ hacc h
    have := congrArg List.length h
    simp only [List.flatten_nil, List.flatMap_cons, List.length_append, q.length_bytes,
      List.length_nil] at this
    omega
  | cons c cs ih =>
    intro q fs acc hcs hne hacc h
    obtain ⟨hc1, hc8⟩ := hcs c (by simp)
    have hcs' : ∀ x ∈ cs, 1 ≤ x.length ∧ x.length ≤ 8 :=
      fun x hx => hcs x (List.mem_cons_of_mem c hx)
    have h' : acc ++ (c ++ cs.flatten) = (q :: fs).flatMap Frame.bytes ++ [] := by
      rwa [List.append_nil]
    rw [joins, if_pos (by rw [List.length_append]; omega)]
    obtain ⟨hhead, hcase⟩ := piece_cases (List.nil_prefix (l := q.bytes)) (by simp) (q :: fs)
      (List.length_pos_iff.mp hc1) hc8 hacc h'
    obtain ⟨hnone, hsome⟩ := join_append_left (hhead hne) w acc
    rcases hcase with ⟨hj, hlt⟩ | ⟨f, fs', r, he, hj, hr, hrest⟩
    · rw [hnone (by rw [hj]), hj, ih q fs (acc ++ c) hcs' (by simp [hne]) hlt
        (by rw [List.append_assoc]; exact h)]
      rfl
    · obtain ⟨rfl, rfl⟩ := List.cons.inj he
      rw [hsome q.bytes (by rw [hj]), hj,
        joins_from (List.nil_prefix (l := q.bytes)) (by simp) cs fs r hcs' hr hrest]
      rfl

/-! ### Through the damage -/

/-- The texts of the length of a frame. -/
def framed (outs : List Bytes) : List Bytes := outs.filter fun m => m.length = 15

theorem framed_append (xs ys : List Bytes) : framed (xs ++ ys) = framed xs ++ framed ys :=
  List.filter_append ..

theorem framed_of_eq {m : Bytes} (h : m.length = 15) : framed [m] = [m] := by simp [framed, h]

theorem framed_of_ne {m : Bytes} (h : m.length ≠ 15) : framed [m] = [] := by simp [framed, h]

theorem framed_bytes (fs : List Frame) : framed (fs.map Frame.bytes) = fs.map Frame.bytes := by
  refine List.filter_eq_self.mpr fun m hm => ?_
  obtain ⟨f, -, rfl⟩ := List.mem_map.mp hm
  rw [f.length_bytes]
  rfl

/-- With `n` bytes of the damaged frame to come, the text is too short to reach the
length of a frame, or past it. -/
def Broken (acc : Bytes) (n : Nat) : Prop := acc.length + n < 15 ∨ 15 < acc.length

section Damage

variable {u v : Bytes}

/-- The first byte of the frame behind, with what precedes it in its piece. -/
theorem join_over (acc : Bytes) (hv : v.head? = some chS) (hD : chD ∉ v) :
    (StartsClean u → (join acc (u ++ v)).1 = v) ∧
      (¬ StartsClean u →
        ∃ w, w.length ≤ acc.length + u.length ∧ w ≠ [] ∧ (join acc (u ++ v)).1 = w ++ v) := by
  obtain ⟨d, rfl⟩ : ∃ d, v = chS :: d := by
    cases v with
    | nil => cases hv
    | cons c d => exact ⟨d, by rw [Option.some.inj hv]⟩
  refine ⟨?_, fun hbad => ?_⟩
  · rintro (rfl | ⟨huD, huS⟩)
    · rw [List.nil_append, join_open]
    · rw [join_both (List.ne_nil_of_mem huD) huS huD (last_ne_of_not_mem hD)]
  · have hu : u ≠ [] := fun h => hbad (Or.inl h)
    have huacc : (acc ++ u).length = acc.length + u.length := List.length_append
    have hlast : (u ++ chS :: d).getLast? ≠ some chD := by
      rw [List.getLast?_append_of_ne_nil _ (List.cons_ne_nil _ _)]
      exact last_ne_of_not_mem hD
    rw [join, if_neg hlast]
    split
    · exact ⟨u, by omega, hu, rfl⟩
    · split
      · -- the piece starts anew at an `S` in front of the frame
        rename_i h
        have huD : chD ∈ u := (List.mem_append.mp h.2).resolve_right hD
        have huS : chS ∈ u := by
          by_contra hn
          exact hbad (Or.inr ⟨huD, hn⟩)
        have hne : u.dropWhile (· ≠ chS) ≠ [] := by
          intro he
          have := List.dropWhile_eq_nil_iff.mp he chS huS
          simp at this
        refine ⟨u.dropWhile (· ≠ chS), ?_, hne, ?_⟩
        · have := (List.dropWhile_suffix (l := u) (· ≠ chS)).length_le
          omega
        · rw [List.dropWhile_append, if_neg (by simpa using hne)]
      · exact ⟨acc ++ u, by omega, by simp [hu], (List.append_assoc _ _ _).symm⟩

theorem length_takeWhile_le (hv : v = [] ∨ v.head? = some chS) :
    ((u ++ v).takeWhile (· ≠ chS)).length ≤ u.length := by
  have hv' : v.takeWhile (· ≠ chS) = [] := by
    cases v with
    | nil => rfl
    | cons c d =>
      have hc : c = chS := by simpa using hv
      rw [List.takeWhile_cons_of_neg (by simpa using hc)]
  rw [List.takeWhile_append, hv', List.append_nil]
  split
  · exact le_refl _
  · exact (List.takeWhile_prefix _).length_le

/-- Nothing that a piece finishes in the damage has the length of a frame. -/
theorem join_damaged {acc : Bytes} (h : Broken acc u.length)
    (hv : v = [] ∨ v.head? = some chS ∧ chD ∉ v) :
    framed (join acc (u ++ v)).2.toList = [] := by
  have key : ∀ m, (join acc (u ++ v)).2 = some m →
      acc.length ≤ m.length ∧ m.length ≤ acc.length + u.length := by
    intro m hm
    unfold join at hm
    split at hm
    · cases hm
    · split at hm
      · rename_i hD
        have hnil : v = [] := by
          by_contra hne
          rw [List.getLast?_append_of_ne_nil _ hne] at hD
          exact last_ne_of_not_mem (hv.resolve_left hne).2 hD
        obtain rfl := Option.some.inj hm
        rw [hnil, List.append_nil, List.length_append]
        omega
      · split at hm
        · obtain rfl := Option.some.inj hm
          have := length_takeWhile_le (u := u) (hv.imp_right And.left)
          rw [List.length_append]
          omega
        · cases hm
  cases hj : (join acc (u ++ v)).2 with
  | none => rfl
  | some m =>
    have hm := key m hj
    refine framed_of_ne ?_
    unfold Broken at h
    omega

/-- A piece that ends inside the damage, behind what it brings of the frame in
front, leaves a broken text. -/
theorem broken_join {acc a : Bytes} {n : Nat} (hS : chS ∉ a) (h : Broken (acc ++ (a ++ u)) n)
    (hlt : u.length + n < 15) :
    Broken (join acc (a ++ u)).1 n ∧ (join acc (a ++ u)).1.length ≤ (acc ++ (a ++ u)).length := by
  have hpre : ∀ c ∈ a, decide (c ≠ chS) = true := by
    intro c hc
    simp only [ne_eq, decide_eq_true_eq]
    exact fun h => hS (h ▸ hc)
  have hdrop := (List.dropWhile_suffix (l := u) (· ≠ chS)).length_le
  have hlen : (acc ++ (a ++ u)).length = acc.length + (a.length + u.length) := by
    rw [List.length_append, List.length_append]
  unfold join
  split
  · rename_i hhead
    have ha : a = [] := by
      by_contra ha
      rw [List.head?_append_of_ne_nil a ha] at hhead
      exact head_ne_of_not_mem hS hhead
    subst ha
    refine ⟨Or.inl hlt, ?_⟩
    rw [hlen]
    simp
  · split
    · exact ⟨Or.inl (by rw [List.length_nil]; omega), Nat.zero_le _⟩
    · split
      · rw [List.dropWhile_append_of_pos hpre]
        exact ⟨Or.inl (by dsimp only; omega), by dsimp only; omega⟩
      · exact ⟨h, le_refl _⟩

/-- The piece that brings the end `a` of the frame in front, and something behind it. -/
theorem join_last {acc a y : Bytes} (ha : a ≠ []) (hS : chS ∉ a) (hD : chD ∈ a)
    (hq : (acc ++ a).length = 15) (hy : y ≠ []) :
    framed (join acc (a ++ y)).2.toList = if EndsClean y then [acc ++ a] else [] := by
  have hhead : (a ++ y).head? ≠ some chS := by
    rw [List.head?_append_of_ne_nil a ha]
    exact head_ne_of_not_mem hS
  have hpos := List.length_pos_iff.mpr hy
  have hpre : ∀ c ∈ a, decide (c ≠ chS) = true := by
    intro c hc
    simp only [ne_eq, decide_eq_true_eq]
    exact fun h => hS (h ▸ hc)
  rw [join, if_neg hhead, List.getLast?_append_of_ne_nil a hy]
  by_cases hlast : y.getLast? = some chD
  · have hlen : (acc ++ (a ++ y)).length ≠ 15 := by
      rw [← List.append_assoc, List.length_append, hq]
      omega
    rw [if_pos hlast, if_neg (by rintro (h | h); exacts [hy h, h.2 hlast])]
    exact framed_of_ne hlen
  · rw [if_neg hlast]
    by_cases hyS : chS ∈ y
    · rw [if_pos ⟨List.mem_append_right a hyS, List.mem_append_left y hD⟩,
        List.takeWhile_append_of_pos hpre, ← List.append_assoc]
      obtain ⟨c, t, rfl⟩ := List.exists_cons_of_ne_nil hy
      by_cases hc : c = chS
      · have hclean : EndsClean (c :: t) := Or.inr ⟨by rw [hc]; rfl, hlast⟩
        rw [List.takeWhile_cons_of_neg (by simpa using hc), List.append_nil, if_pos hclean]
        exact framed_of_eq hq
      · have hclean : ¬ EndsClean (c :: t) := by
          rintro (h | h)
          · exact hy h
          · exact hc (by simpa using h.1)
        rw [List.takeWhile_cons_of_pos (by simpa using hc), if_neg hclean]
        refine framed_of_ne ?_
        rw [List.length_append, hq, List.length_cons]
        omega
    · have hn : ¬ (chS ∈ a ++ y ∧ chD ∈ a ++ y) := fun h => (List.mem_append.mp h.1).elim hS hyS
      rw [if_neg hn, if_neg (by rintro (h | h); exacts [hy h, head_ne_of_not_mem hyS h.1])]
      rfl

end Damage

/-- From the piece with the first byte of the frame behind on. -/
theorem joins_over {acc v : Bytes} (u : Bytes) {cs : List Bytes} {post : List Frame} (hv : v ≠ [])
    (hv8 : v.length ≤ 8) (hacc : acc.length + u.length < 900)
    (hcs : ∀ c ∈ cs, 1 ≤ c.length ∧ c.length ≤ 8)
    (h : v ++ cs.flatten = post.flatMap Frame.bytes) :
    v.head? = some chS ∧ chD ∉ v ∧
      ∃ t outs, joins (join acc (u ++ v)).1 cs = some (t, outs) ∧
        framed outs = (if StartsClean u then post else post.tail).map Frame.bytes := by
  cases post with
  | nil => exact absurd (List.append_eq_nil_iff.mp h).1 hv
  | cons q qs =>
    have hvq : v <+: q.bytes := by
      rw [List.flatMap_cons] at h
      exact List.prefix_of_prefix_length_le (List.prefix_append v cs.flatten)
        (h ▸ List.prefix_append q.bytes _) (by rw [q.length_bytes]; omega)
    obtain ⟨d, rfl, hd⟩ := (q.prefix_cases hvq (by omega)).resolve_left hv
    have hvD : chD ∉ chS :: d := by
      rw [List.mem_cons, not_or]
      exact ⟨by decide, fun hm => ne_chD_of_isDigit (q.isDigit_digits _ (hd.subset hm)) rfl⟩
    refine ⟨rfl, hvD, ?_⟩
    obtain ⟨hgood, hbad⟩ := join_over acc (u := u) (v := chS :: d) rfl hvD
    by_cases hc : StartsClean u
    · rw [hgood hc, if_pos hc]
      exact ⟨[], _, joins_from (List.nil_prefix (l := q.bytes)) (by simp) cs (q :: qs) (chS :: d) hcs
        (by omega) (by rw [List.append_nil]; exact h), framed_bytes _⟩
    · obtain ⟨w, hwlen, hw, hj⟩ := hbad hc
      rw [hj, if_neg hc]
      refine ⟨[], _, joins_behind (by omega) cs q qs (chS :: d) hcs hv (by omega) h, ?_⟩
      have hwpos := List.length_pos_iff.mpr hw
      have hlen : (w ++ q.bytes).length ≠ 15 := by
        rw [List.length_append, q.length_bytes]
        omega
      rw [← List.singleton_append, framed_append, framed_of_ne hlen, framed_bytes]
      rfl

/-- **Through the damage.**  With `h` of the damaged frame to come and a broken text
in the buffer, no frame comes out until the next begins, and then either that
frame or the one behind it is the first. -/
theorem joins_damage : ∀ (chunks : List Bytes) (acc h : Bytes) (post : List Frame),
    (∀ c ∈ chunks, 1 ≤ c.length ∧ c.length ≤ 8) → Broken acc h.length → h.length < 15 →
    acc.length + h.length < 100 → chunks.flatten = h ++ post.flatMap Frame.bytes →
    ∃ t outs, joins acc chunks = some (t, outs) ∧
      framed outs
        = (if StartsClean (before h.length chunks) then post else post.tail).map Frame.bytes := by
  intro chunks
  induction chunks with
  | nil =>
    intro acc h post _ _ _ _ hflat
    obtain ⟨-, hpost⟩ := List.append_eq_nil_iff.mp hflat.symm
    cases post with
    | nil => exact ⟨acc, [], rfl, by split <;> rfl⟩
    | cons q qs =>
      have := congrArg List.length hpost
      simp only [List.flatMap_cons, List.length_append, q.length_bytes, List.length_nil] at this
      omega
  | cons c cs ih =>
    intro acc h post hcs hbroken hlt hbound hflat
    obtain ⟨hc1, hc8⟩ := hcs c (by simp)
    have hcs' : ∀ x ∈ cs, 1 ≤ x.length ∧ x.length ≤ 8 :=
      fun x hx => hcs x (List.mem_cons_of_mem c hx)
    rw [List.flatten_cons] at hflat
    rw [joins, if_pos (by omega)]
    rcases inside_or_over hflat with ⟨h', rfl, hrest⟩ | ⟨v, hv, rfl, hrest⟩
    · -- the piece is inside the damage
      rw [List.length_append] at hbroken hlt hbound
      have hbroken' : Broken (acc ++ ([] ++ c)) h'.length := by
        unfold Broken at hbroken ⊢
        simp only [List.length_append, List.nil_append]
        omega
      obtain ⟨hb, hlen⟩ := broken_join List.not_mem_nil hbroken' hlt
      rw [List.nil_append] at hb hlen
      rw [List.length_append] at hlen
      obtain ⟨t, outs, hj, hframed⟩ := ih _ h' post hcs' hb (by omega) (by omega) hrest
      have hout : framed (join acc (c ++ [])).2.toList = [] :=
        join_damaged (by unfold Broken at hbroken ⊢; omega) (Or.inl rfl)
      rw [List.append_nil] at hout
      refine ⟨t, _, by rw [hj]; rfl, ?_⟩
      rw [framed_append, hout, List.nil_append, hframed, List.length_append, before_cons]
    · -- it reaches the next frame
      rw [List.length_append] at hc8
      obtain ⟨hhead, hD, t, outs, hj, hframed⟩ :=
        joins_over h hv (by omega) (show acc.length + h.length < 900 by omega) hcs' hrest
      refine ⟨t, _, by rw [hj]; rfl, ?_⟩
      rw [framed_append, join_damaged hbroken (Or.inr ⟨hhead, hD⟩), List.nil_append, hframed,
        before_cut hv]

/-- A piece cut at the end of a stream of frames holds the end of the last one. -/
theorem exists_last {pre : List Frame} {x a : Bytes} (h : x ++ a = pre.flatMap Frame.bytes)
    (ha : a ≠ []) (h8 : a.length ≤ 8) :
    ∃ pre' q p, pre = pre' ++ [q] ∧ p ++ a = q.bytes ∧ x = pre'.flatMap Frame.bytes ++ p := by
  rcases List.eq_nil_or_concat pre with rfl | ⟨pre', q, rfl⟩
  · exact absurd (List.append_eq_nil_iff.mp h).2 ha
  · rw [List.concat_eq_append, List.flatMap_append, List.flatMap_singleton] at h
    rcases List.append_eq_append_iff.mp h with ⟨a', hq, ha'⟩ | ⟨p, hx, hq⟩
    · -- the piece is shorter than a frame
      have := congrArg List.length ha'
      rw [List.length_append, q.length_bytes] at this
      omega
    · exact ⟨pre', q, p, List.concat_eq_append, hq.symm, hx⟩

/-- The piece `a ++ y` ends a frame and has `y` of the damage: what comes out behind the frame. -/
theorem joins_last_piece {p a y h : Bytes} {cs : List Bytes} {post : List Frame} (ha : chS ∉ a)
    (hpa : p.length + a.length = 15) (hypos : 0 < y.length) (hc8 : a.length + y.length ≤ 8)
    (hlt : h.length < 15) (hcs : ∀ c ∈ cs, 1 ≤ c.length ∧ c.length ≤ 8)
    (hrest : y ++ cs.flatten = h ++ post.flatMap Frame.bytes) :
    ∃ t outs, joins (join p (a ++ y)).1 cs = some (t, outs) ∧
      framed outs = (if StartsClean (before (a.length + h.length) ((a ++ y) :: cs)) then post
        else post.tail).map Frame.bytes := by
  rcases inside_or_over hrest with ⟨h', rfl, hrest'⟩ | ⟨v, hv, rfl, hrest'⟩
  · -- the damage goes on in the next pieces
    rw [List.length_append] at hlt
    have hbroken : Broken (p ++ (a ++ y)) h'.length :=
      Or.inr (by rw [List.length_append, List.length_append]; omega)
    obtain ⟨hb, hlen⟩ := broken_join ha hbroken hlt
    rw [List.length_append, List.length_append] at hlen
    rw [@List.length_append _ y h', ← Nat.add_assoc, ← @List.length_append _ a y, before_cons]
    exact joins_damage cs _ h' post hcs hb (by omega) (by omega) hrest'
  · -- it ends in this one
    rw [@List.length_append _ h v] at hc8 hypos
    rw [← List.append_assoc, ← List.length_append, before_cut hv]
    exact (joins_over _ hv (by omega) (by rw [List.length_append]; omega) hcs hrest').2.2

/-- **What comes out around the damage**, among the texts of the length of a frame:
every frame but, as the pieces have it, the one in front and the one behind. -/
theorem joins_around {pre post : List Frame} {f : Frame} {h : Bytes} {chunks : List Bytes}
    (hlt : h.length < 15) (hchunks : ∀ c ∈ chunks, 1 ≤ c.length ∧ c.length ≤ 8)
    (hflat : chunks.flatten = pre.flatMap Frame.bytes ++ (h ++ post.flatMap Frame.bytes)) :
    ∃ t outs, joins [] chunks = some (t, outs) ∧
      framed outs = ((if pre = [] ∨ EndsClean (behind (pre.flatMap Frame.bytes).length chunks)
            then pre else pre.dropLast)
          ++ if StartsClean (before ((pre.flatMap Frame.bytes).length + h.length) chunks)
            then post else post.tail).map Frame.bytes := by
  have hnil : ∀ n, n < 15 → Broken [] n := fun n hn => Or.inl (by simpa using hn)
  rcases exists_cut chunks _ _ hflat with
    ⟨cs, cs', rfl, hpre, hrest⟩ | ⟨cs, a, y, cs', rfl, hpre, hrest, ha, hy⟩
  · -- the last piece of the frame in front ends with it
    have hj := joins_from (List.nil_prefix (l := f.bytes)) (by simp) cs pre []
      (fun c hc => hchunks c (List.mem_append_left _ hc)) (by simp) (by simp [hpre])
    obtain ⟨t, outs, hj', hframed⟩ := joins_damage cs' [] h post
      (fun c hc => hchunks c (List.mem_append_right _ hc)) (hnil _ hlt) hlt (by simp; omega) hrest
    have hclean : EndsClean (behind (pre.flatMap Frame.bytes).length (cs ++ cs')) := by
      have := behind_append cs cs' 0
      rw [Nat.add_zero, hpre, behind_zero] at this
      exact Or.inl this
    refine ⟨t, _, by rw [joins_append _ _ _ _ _ hj, hj']; rfl, ?_⟩
    rw [framed_append, framed_bytes, hframed, if_pos (Or.inr hclean), ← hpre, before_append,
      List.map_append]
  · -- the last piece of the frame in front has `y` of the damage
    have hc8 := (hchunks (a ++ y) (by simp)).2
    rw [List.length_append] at hc8
    have hcs' : ∀ c ∈ cs', 1 ≤ c.length ∧ c.length ≤ 8 := fun c hc => hchunks c (by simp [hc])
    have hypos := List.length_pos_iff.mpr hy
    have hapos := List.length_pos_iff.mpr ha
    obtain ⟨pre', q, p, rfl, hq, hx⟩ := exists_last hpre ha (by omega)
    have hplen : p.length + a.length = 15 := by rw [← List.length_append, hq, q.length_bytes]
    have hj := joins_from ⟨a, hq⟩ (by omega) cs pre' []
      (fun c hc => hchunks c (List.mem_append_left _ hc)) (by simp) (by simpa using hx)
    obtain ⟨e, rfl, he⟩ := frame_split hq (by omega) (by omega)
    have heS : chS ∉ e ++ [chD] := by
      rw [List.mem_append, not_or]
      exact ⟨he, by decide⟩
    have hlast := join_last ha heS (by simp) (by rw [hq, q.length_bytes]) hy
    have hbehind : behind ((pre' ++ [q]).flatMap Frame.bytes).length
        (cs ++ (e ++ [chD] ++ y) :: cs') = y := by
      rw [← hpre, List.length_append, behind_append, behind_cut ha hy]
    obtain ⟨t, outs, hj', hframed⟩ := joins_last_piece heS hplen hypos hc8 hlt hcs' hrest
    rw [← before_append cs, ← Nat.add_assoc, ← List.length_append, hpre] at hframed
    refine ⟨t, pre'.map Frame.bytes ++ ((join p (e ++ [chD] ++ y)).2.toList ++ outs), ?_, ?_⟩
    · rw [joins_append _ _ _ _ _ hj, joins, if_pos (by simp at hc8 ⊢; omega), hj']
      rfl
    · rw [framed_append, framed_append, framed_bytes, hlast, hframed, hbehind, hq]
      by_cases hc : EndsClean y
      · rw [if_pos hc, if_pos (Or.inr hc)]
        simp
      · have hc' : ¬ (pre' ++ [q] = [] ∨ EndsClean y) := by simp [hc]
        rw [if_neg hc, if_neg hc']
        simp

/-! ### The cost of a loss -/

section Loss

variable {abi : Abi} {pre post : List Frame}

/-- The frames around the damage are among the texts returned when nothing of them
is missing in what `joins_around` counts, and only then. -/
theorem sublist_iff {fs kept : List Frame} {outs : List Bytes} (hkept : kept.Sublist fs)
    (hacc : ∀ g ∈ fs, crc_para abi g.bytes = 0) (hframed : framed outs = kept.map Frame.bytes) :
    (fs.map Frame.bytes).Sublist (outs.filter fun m => crc_para abi m = 0) ↔
      kept.length = fs.length := by
  constructor
  · intro hsub
    have h₁ : (framed (fs.map Frame.bytes)).Sublist
        (framed (outs.filter fun m => crc_para abi m = 0)) := hsub.filter _
    have h₂ : (framed (outs.filter fun m => crc_para abi m = 0)).Sublist (framed outs) :=
      List.filter_sublist.filter _
    have hle := (h₁.trans h₂).length_le
    rw [framed_bytes, hframed, List.length_map, List.length_map] at hle
    exact le_antisymm hkept.length_le hle
  · intro hlen
    have hall : (fs.map Frame.bytes).filter (fun m => crc_para abi m = 0) = fs.map Frame.bytes := by
      refine List.filter_eq_self.mpr fun m hm => ?_
      obtain ⟨g, hg, rfl⟩ := List.mem_map.mp hm
      simpa using hacc g hg
    rw [hkept.eq_of_length hlen] at hframed
    rw [← hall, ← hframed]
    exact List.filter_sublist.filter _

theorem kept_sublist (b₁ b₂ : Prop) [Decidable b₁] [Decidable b₂] :
    ((if b₁ then pre else pre.dropLast) ++ if b₂ then post else post.tail).Sublist (pre ++ post) := by
  refine List.Sublist.append ?_ ?_
  · split
    · exact List.Sublist.refl _
    · exact List.dropLast_sublist _
  · split
    · exact List.Sublist.refl _
    · exact List.tail_sublist _

theorem kept_length_iff {b₁ b₂ : Prop} [Decidable b₁] [Decidable b₂] (h₁ : ¬ b₁ → pre ≠ [])
    (h₂ : ¬ b₂ → post ≠ []) :
    ((if b₁ then pre else pre.dropLast) ++ if b₂ then post else post.tail).length
      = (pre ++ post).length ↔ b₁ ∧ b₂ := by
  have hpre : ¬ b₁ → 0 < pre.length := fun h => List.length_pos_iff.mpr (h₁ h)
  have hpost : ¬ b₂ → 0 < post.length := fun h => List.length_pos_iff.mpr (h₂ h)
  rw [List.length_append, List.length_append]
  by_cases hb₁ : b₁
  · by_cases hb₂ : b₂
    · simp [hb₁, hb₂]
    · have := hpost hb₂
      simp only [hb₁, hb₂, if_true, if_false, List.length_tail, and_false, iff_false]
      omega
  · have := hpre hb₁
    have hle : (if b₂ then post else post.tail).length ≤ post.length := by
      split
      · exact le_refl _
      · exact (List.tail_sublist post).length_le
    simp only [hb₁, if_false, List.length_dropLast, false_and, iff_false]
    omega

/-- **What a loss costs.**  Bytes are missing from one frame `f` of a stream, `h` is
what is left of it.  The other frames all come back, unchanged and in order, if
and only if the frame in front ends clean and the frame behind starts clean in
the pieces they share with the damage. -/
theorem loss_costs_one_frame_iff (abi : Abi) (pre post : List Frame) (f : Frame) (h : Bytes)
    (chunks : List Bytes) (hsub : h.Sublist f.bytes) (hlt : h.length < 15)
    (hacc : ∀ g ∈ pre ++ post, crc_para abi g.bytes = 0)
    (hchunks : ∀ c ∈ chunks, 1 ≤ c.length ∧ c.length ≤ 8)
    (hflat : chunks.flatten = pre.flatMap Frame.bytes ++ (h ++ post.flatMap Frame.bytes)) :
    (∃ tmp_buf outs, feed abi (padded 1024 []) chunks = some (tmp_buf, outs) ∧
        ((pre ++ post).map Frame.bytes).Sublist outs) ↔
      (pre = [] ∨ EndsClean (behind (pre.flatMap Frame.bytes).length chunks)) ∧
        StartsClean (before ((pre.flatMap Frame.bytes).length + h.length) chunks) := by
  have h0 : 0 ∉ chunks.flatten := by
    rw [hflat, List.mem_append, List.mem_append, not_or, not_or]
    exact ⟨zero_not_mem_flatMap pre, fun hm => zero_not_mem_bytes f (hsub.subset hm),
      zero_not_mem_flatMap post⟩
  obtain ⟨t, outs, hj, hframed⟩ := joins_around (f := f) hlt hchunks hflat
  have hfeed := @feed_joins abi _ _ _ _ (texts_of_flatten hchunks h0) List.not_mem_nil hj
  have hpost : post = [] → StartsClean (before ((pre.flatMap Frame.bytes).length + h.length) chunks) := by
    rintro rfl
    have := before_end chunks
    rw [hflat, List.length_append, List.length_append] at this
    exact Or.inl this
  have hfeed_iff : (∃ tmp_buf outs, feed abi (padded 1024 []) chunks = some (tmp_buf, outs) ∧
      ((pre ++ post).map Frame.bytes).Sublist outs) ↔
        ((pre ++ post).map Frame.bytes).Sublist (outs.filter fun m => crc_para abi m = 0) := by
    constructor
    · rintro ⟨tmp, o, ho, hs⟩
      rw [hfeed] at ho
      obtain ⟨-, rfl⟩ := Prod.mk.inj (Option.some.inj ho)
      exact hs
    · exact fun hs => ⟨_, _, hfeed, hs⟩
  rw [hfeed_iff, sublist_iff (kept_sublist _ _) hacc hframed]
  exact kept_length_iff (fun hn => hn ∘ Or.inl) (fun hn => hn ∘ hpost)

end Loss

theorem frame8_accepted : crc_para ⟨true, true⟩ frame8.bytes = 0 := by decide

/-- The checksum of the first frame is lost; the pieces happen to be cut so that
the second is restored. -/
theorem loss_costs_one_frame_iff_spared :
    (∃ tmp_buf outs, feed ⟨true, true⟩ (padded 1024 [])
          [asc "S0008082", asc "56D", asc "S0008082", asc "560013D"] = some (tmp_buf, outs) ∧
        (([] ++ [frame8]).map Frame.bytes).Sublist outs) ↔
      (([] : List Frame) = [] ∨ EndsClean (behind (([] : List Frame).flatMap Frame.bytes).length
          [asc "S0008082", asc "56D", asc "S0008082", asc "560013D"])) ∧
        StartsClean (before ((([] : List Frame).flatMap Frame.bytes).length
            + (asc "S000808256D").length)
          [asc "S0008082", asc "56D", asc "S0008082", asc "560013D"]) :=
  loss_costs_one_frame_iff ⟨true, true⟩ [] [frame8] frame8 (asc "S000808256D") _ (by decide)
    (by decide) (by simpa using frame8_accepted) (by decide) (by decide)

/-- The `D` of the first of two frames is lost, and the `S` of the second comes in a
piece without a `D`: the second frame is joined to the first and lost as well. -/
theorem loss_takes_next_frame :
    ¬ ∀ (abi : Abi) (pre post : List Frame) (f : Frame) (h : Bytes) (chunks : List Bytes),
      h.Sublist f.bytes → h.length < 15 → (∀ g ∈ pre ++ f :: post, crc_para abi g.bytes = 0) →
      (∀ c ∈ chunks, 1 ≤ c.length ∧ c.length ≤ 8) →
      chunks.flatten = pre.flatMap Frame.bytes ++ (h ++ post.flatMap Frame.bytes) →
      ∃ tmp_buf outs, feed abi (padded 1024 []) chunks = some (tmp_buf, outs) ∧
        ((pre ++ post).map Frame.bytes).Sublist outs := by
  intro hall
  obtain ⟨tmp, outs, hfeed, hsub⟩ := hall ⟨true, true⟩ [] [frame8] frame8 (asc "S0008082560013")
    [asc "S0008082", asc "560013S0", asc "00808256", asc "0013D"] (by decide) (by decide)
    (by simpa using frame8_accepted) (by decide) (by decide)
  have hjoins : joins [] [asc "S0008082", asc "560013S0", asc "00808256", asc "0013D"]
      = some ([], [asc "S0008082560013S0008082560013D"]) := by decide
  rw [feed_joins (by decide) (by decide) hjoins] at hfeed
  obtain ⟨-, rfl⟩ := Prod.mk.inj (Option.some.inj hfeed)
  exact absurd (hsub.trans List.filter_sublist) (by decide)

end Boxing.Serial
