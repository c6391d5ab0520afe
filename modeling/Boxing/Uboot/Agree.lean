import Boxing.Uboot.WriteMulti

/-!
# When the two writers agree

On a well formed block the batch writer, where it stays inside its buffers, goes
to the block of `setMany es ps` (`run_setMulti`), and the calls of the single
writer go to the block of `setEach es ps` (`run_each`).  The first drops at once
all entries that some name begins, the second drops and appends pair by pair; when
no name begins another, a later call drops nothing that an earlier one appended,
and the two lists are one (`setEach_eq_setMany`).

So agreement is decided by whether the batch writer stays inside its buffers, and
`write_multi_iff` is the exact condition.
-/

namespace Boxing.Uboot

open C Device

/-! ### The lists -/

section Lists

variable {es : List Bytes} {ps : List (Bytes × Bytes)} {p q : Bytes × Bytes}

/-- A name that begins a written pair begins its name. -/
theorem prefix_of_prefix_entry {var value x : Bytes} (hx : 61 ∉ x) (h : x <+: entry var value) :
    x <+: var := by
  have hd : asc "=" = [61] := by decide
  have hname : var ++ [61] <+: entry var value := by
    rw [entry, hd]
    exact List.prefix_append _ _
  rcases List.prefix_or_prefix_of_prefix hname h with h' | h'
  · exact absurd (h'.subset (by simp)) hx
  · rcases List.prefix_concat_iff.mp h' with rfl | h'
    · exact absurd (by simp) hx
    · exact h'

theorem begun_cons (p : Bytes × Bytes) (ps : List (Bytes × Bytes)) (e : Bytes) :
    begun (p :: ps) e = (strncmpEq e p.1 p.1.length || begun ps e) := rfl

/-- The pairs done so far stay, and the old entries go name by name. -/
theorem foldl_setOne : ∀ (ps : List (Bytes × Bytes)) (es done : List Bytes),
    (∀ p ∈ ps, ∀ e ∈ done, strncmpEq e p.1 p.1.length = false) →
    ps.Pairwise (fun p q => strncmpEq (entry p.1 p.2) q.1 q.1.length = false) →
    ps.foldl (fun es p => setOne es p.1 p.2) (es ++ done)
      = (es.filter fun e => !begun ps e) ++ (done ++ ps.map fun p => entry p.1 p.2) := by
  intro ps
  induction ps with
  | nil =>
    intro es done _ _
    simp [begun]
  | cons p ps ih =>
    intro es done hdone hps
    rw [List.pairwise_cons] at hps
    have hkeep : keptBy p.1 done = done :=
      List.filter_eq_self.mpr fun e he => by rw [hdone p (by simp) e he]; rfl
    have hone : setOne (es ++ done) p.1 p.2 = keptBy p.1 es ++ (done ++ [entry p.1 p.2]) := by
      rw [setOne, keptBy, List.filter_append, ← keptBy, ← keptBy, hkeep, List.append_assoc]
    have hdone' : ∀ q ∈ ps, ∀ e ∈ done ++ [entry p.1 p.2], strncmpEq e q.1 q.1.length = false := by
      intro q hq e he
      rcases List.mem_append.mp he with he | he
      · exact hdone q (List.mem_cons_of_mem p hq) e he
      · rw [List.mem_singleton.mp he]
        exact hps.1 q hq
    rw [List.foldl_cons, hone, ih _ _ hdone' hps.2, keptBy, List.filter_filter, List.map_cons,
      List.append_assoc done, List.singleton_append]
    congr 2
    funext e
    rw [begun_cons, Bool.not_or, Bool.and_comm]

/-- **Name by name or all at once.**  When no name begins another, the single
writer's calls and the batch writer leave the same list. -/
theorem setEach_eq_setMany (hps : ∀ p ∈ ps, IsPair p)
    (hpre : ps.Pairwise fun p q => ¬ p.1 <+: q.1 ∧ ¬ q.1 <+: p.1) (es : List Bytes) :
    setEach es ps = setMany es ps := by
  have hpair : ps.Pairwise fun p q => strncmpEq (entry p.1 p.2) q.1 q.1.length = false := by
    refine (List.Pairwise.imp_of_mem ?_) hpre
    intro p q _ hq h
    rw [← Bool.not_eq_true, strncmpEq_iff (hps q hq).2.1]
    exact fun hq' => h.2 (prefix_of_prefix_entry (hps q hq).1 hq')
  have := foldl_setOne ps es [] (by simp) hpair
  rwa [List.append_nil, List.nil_append] at this

theorem entries_setMany (hes : Entries es) (hps : ∀ p ∈ ps, IsPair p) :
    Entries (setMany es ps) := by
  refine (hes.filter _).append fun e he => ?_
  obtain ⟨p, hp, rfl⟩ := List.mem_map.mp he
  exact ⟨entry_ne_nil, (hps p hp).zero_not_mem⟩

end Lists

/-! ### The runs -/

section Runs

variable {abi : Abi} {n : Nat} {es : List Bytes} {ps : List (Bytes × Bytes)} {env' : EnvBlock}

/-- The names and pairs with which the writing loop stays inside its buffer. -/
def Writable (ps : List (Bytes × Bytes)) : Prop :=
  ∀ p ∈ ps, 59 ∉ p.1 ∧ (entry p.1 p.2).length < tmpbufSize

theorem build_multi_list (hes : Entries es) (h : (pack es).length < n) (hps : ∀ p ∈ ps, IsPair p)
    (hw : Writable ps) (hc : ∀ e ∈ es, Covered tmpbufSize ps e)
    (hfit : (pack (setMany es ps)).length ≤ n) :
    build_multi (request ps) (padded n (pack es)) (pack es).length
      = some (padded n (pack (setMany es ps))) := by
  have hgood : ∀ p ∈ ps, IsPair p ∧ 59 ∉ p.1 := fun p hp => ⟨hps p hp, (hw p hp).1⟩
  have hfind : ∀ e ∈ es, find_revised e (tmpcopy tmpbufSize (request ps)) = some (begun ps e) :=
    fun e he => (find_revised_request e ps tmpbufSize hgood).1 (hc e he)
  rw [build_multi, refill_padded hes h hfind, Option.bind_some,
    write_pairs_request ps _ (fun p hp => ⟨hps p hp, hw p hp⟩) hfit]
  rfl

/-- Outside these conditions the batch writer leaves its buffers. -/
theorem build_multi_eq_none (hes : Entries es) (h : (pack es).length < n)
    (hps : ∀ p ∈ ps, IsPair p)
    (hbad : ¬ (Writable ps ∧ ∀ e ∈ es, Covered tmpbufSize ps e)) :
    build_multi (request ps) (padded n (pack es)) (pack es).length = none := by
  by_cases hw : Writable ps
  · -- the search for some old entry goes on behind the copy
    have hgood : ∀ p ∈ ps, IsPair p ∧ 59 ∉ p.1 := fun p hp => ⟨hps p hp, (hw p hp).1⟩
    obtain ⟨e, he, hc⟩ : ∃ e ∈ es, ¬ Covered tmpbufSize ps e := by
      by_contra hno
      refine hbad ⟨hw, fun e he => ?_⟩
      by_contra hc
      exact hno ⟨e, he, hc⟩
    have hnone := (find_revised_request e ps tmpbufSize hgood).2 hc
    rw [build_multi, padded_eq h, refill_eq_none hes _ he hnone]
    rfl
  · have hloop : ∃ p ∈ ps, 59 ∈ p.1 ∨ tmpbufSize ≤ (entry p.1 p.2).length := by
      by_contra hno
      refine hw fun p hp => ⟨fun h59 => hno ⟨p, hp, Or.inl h59⟩, ?_⟩
      by_contra hlen
      exact hno ⟨p, hp, Or.inr (by omega)⟩
    have hnone : ∀ st, write_pairs st (request ps ++ [0]) = none :=
      fun st => write_pairs_eq_none ps st hps hloop
    rw [build_multi]
    cases refill _ (padded n (pack es)) (pack es).length with
    | none => rfl
    | some st => rw [Option.bind_some, hnone]; rfl

/-- **The batch writer on well formed blocks.** -/
theorem run_setMulti {r : Int} (hes : Entries es) (h : (pack es).length < n)
    (hps : ∀ p ∈ ps, IsPair p) (hw : Writable ps) (hc : ∀ e ∈ es, Covered tmpbufSize ps e)
    (hfit : (pack (setMany es ps)).length < n) :
    Run allOk (write_multi_ubootcfg abi (request ps)) (listBlock abi n es) (some r) env' ↔
      r = 0 ∧ env' = listBlock abi n (setMany es ps) :=
  run_revise listBlock_crc (countLen_padded hes h) (build_multi_list hes h hps hw hc hfit.le)

/-- The single writer's calls, one after the other. -/
theorem run_each : ∀ (ps : List (Bytes × Bytes)) (es : List Bytes), Entries es →
    (∀ p ∈ ps, IsPair p) → (∀ qs, qs <+: ps → (pack (setEach es qs)).length < n) →
    (Run allOk (write_each abi ps) (listBlock abi n es) (some ()) env' ↔
      env' = listBlock abi n (setEach es ps)) := by
  intro ps
  induction ps with
  | nil =>
    intro es _ _ _
    exact Run.some_pure.trans (and_iff_right rfl)
  | cons p ps ih =>
    intro es hes hps hfit
    have h := hfit [] List.nil_prefix
    have h' : (pack (setOne es p.1 p.2)).length < n :=
      hfit [p] (by rw [List.cons_prefix_cons]; exact ⟨rfl, List.nil_prefix⟩)
    have hp := hps p (by simp)
    have hrest := ih (setOne es p.1 p.2) (entries_setOne hes hp.2.1 hp.2.2.2)
      (fun q hq => hps q (List.mem_cons_of_mem p hq))
      (fun qs hqs => hfit (p :: qs) (by rw [List.cons_prefix_cons]; exact ⟨rfl, hqs⟩))
    have hstep : setEach es (p :: ps) = setEach (setOne es p.1 p.2) ps := rfl
    rw [write_each, Run.some_bind, hstep, ← hrest]
    constructor
    · rintro ⟨r, w, hw, hr⟩
      obtain ⟨-, rfl⟩ := (run_set hes h h').mp hw
      exact hr
    · intro hr
      exact ⟨0, _, (run_set hes h h').mpr ⟨rfl, rfl⟩, hr⟩

end Runs

/-- Where the two writers agree, the batch writer stayed inside its buffers:
otherwise it may leave any block at all. -/
theorem of_agree {abi : Abi} {n : Nat} {es : List Bytes} {ps : List (Bytes × Bytes)}
    (hes : Entries es) (h : (pack es).length < n) (hps : ∀ p ∈ ps, IsPair p)
    (hfit : ∀ qs, qs <+: ps → (pack (setEach es qs)).length < n)
    (hagree : ∀ r w₁ w₂,
      Run allOk (write_multi_ubootcfg abi (request ps)) (listBlock abi n es) (some r) w₁ →
      Run allOk (write_each abi ps) (listBlock abi n es) (some ()) w₂ →
      split w₁.data = split w₂.data ∧ w₁ = w₂) :
    Writable ps ∧ ∀ e ∈ es, Covered tmpbufSize ps e := by
  by_contra hbad
  have hnone := build_multi_eq_none hes h hps hbad
  have hany : ∀ w, Run allOk (write_multi_ubootcfg abi (request ps)) (listBlock abi n es)
      (some 0) w := fun w => run_revise_none listBlock_crc (countLen_padded hes h) hnone
  have hw := fun w => (hagree 0 w _ (hany w) ((run_each ps es hes hps hfit).mpr rfl)).2
  have hcrc := congrArg EnvBlock.crc ((hw ⟨0, []⟩).trans (hw ⟨1, []⟩).symm)
  exact absurd hcrc (by decide)

/-- **When the batch writer agrees with the single writer.**  On a well formed
block, for names of which none begins another, every run of the batch and every
run of the calls one by one leave the same list and the same block, if and only if
no name holds a `;`, every pair is shorter than the buffer, and for every old entry
the search in the copy comes to an end. -/
theorem write_multi_iff {abi : Abi} {env : EnvBlock} {es : List Bytes}
    {ps : List (Bytes × Bytes)} (hwf : WellFormed abi env) (hes : split env.data = some es)
    (hps : ∀ p ∈ ps, IsPair p) (hpre : ps.Pairwise fun p q => ¬ p.1 <+: q.1 ∧ ¬ q.1 <+: p.1)
    (hfit : ∀ qs, qs <+: ps → (pack (setEach es qs)).length + 1 ≤ env.data.length) :
    (∀ r w₁ w₂, Run allOk (write_multi_ubootcfg abi (request ps)) env (some r) w₁ →
        Run allOk (write_each abi ps) env (some ()) w₂ →
        split w₁.data = split w₂.data ∧ w₁ = w₂) ↔
      (∀ p ∈ ps, 59 ∉ p.1 ∧ (entry p.1 p.2).length < tmpbufSize) ∧
        ∀ e ∈ es, Covered tmpbufSize ps e := by
  obtain ⟨es', hes', hlt, henv⟩ := hwf.eq_listBlock
  obtain rfl : es' = es := by
    rw [henv, listBlock_data, split_padded hes' hlt] at hes
    exact Option.some.inj hes
  have hlast := hfit ps (List.prefix_refl ps)
  rw [setEach_eq_setMany hps hpre es'] at hlast
  constructor
  · intro hagree
    rw [henv] at hagree
    exact of_agree hes' hlt hps hfit hagree
  · rintro ⟨hw, hc⟩ r w₁ w₂ h₁ h₂
    rw [henv] at h₁ h₂
    obtain ⟨-, rfl⟩ := (run_setMulti hes' hlt hps hw hc (by omega)).mp h₁
    obtain rfl := (run_each ps es' hes' hps hfit).mp h₂
    rw [setEach_eq_setMany hps hpre es']
    exact ⟨rfl, rfl⟩

/-- Two short pairs into a list of one entry. -/
theorem write_multi_netmask_stdin :
    (∀ r w₁ w₂, Run allOk (write_multi_ubootcfg ⟨true, false⟩
          (request [(asc "netmask", asc "0"), (asc "stdin", asc "serial")]))
          (listBlock ⟨true, false⟩ 60 [asc "netmask=1"]) (some r) w₁ →
        Run allOk (write_each ⟨true, false⟩
          [(asc "netmask", asc "0"), (asc "stdin", asc "serial")])
          (listBlock ⟨true, false⟩ 60 [asc "netmask=1"]) (some ()) w₂ →
        split w₁.data = split w₂.data ∧ w₁ = w₂) ↔
      (∀ p ∈ [(asc "netmask", asc "0"), (asc "stdin", asc "serial")],
          59 ∉ p.1 ∧ (entry p.1 p.2).length < tmpbufSize) ∧
        ∀ e ∈ [asc "netmask=1"],
          Covered tmpbufSize [(asc "netmask", asc "0"), (asc "stdin", asc "serial")] e :=
  write_multi_iff (wellFormed_listBlock (by decide) (by decide))
    (split_padded (by decide) (by decide)) (by decide) (by decide) (by
      intro qs hqs
      have hall : ∀ qs ∈ [(asc "netmask", asc "0"), (asc "stdin", asc "serial")].inits,
          (pack (setEach [asc "netmask=1"] qs)).length + 1 ≤ 60 := by decide
      rw [listBlock_data, length_padded (by decide)]
      exact hall qs ((List.mem_inits _ _).mpr hqs))

/-! ### A pair that does not fit -/

/-- Six hundred letters. -/
def longValue : Bytes := List.replicate 600 97

theorem length_entry_longValue : (entry (asc "a") longValue).length = 602 := by
  have ha : (asc "a").length = 1 := by decide
  have hd : (asc "=").length = 1 := by decide
  rw [entry, List.length_append, List.length_append, ha, hd, longValue, List.length_replicate]

theorem isPair_longValue : ∀ p ∈ [(asc "a", longValue)], IsPair p := by
  intro p hp
  obtain rfl := List.mem_singleton.mp hp
  have hmem : ∀ c ∈ longValue, c = 97 := fun c hc => List.eq_of_mem_replicate hc
  exact ⟨show 61 ∉ asc "a" by decide, show 0 ∉ asc "a" by decide,
    fun h => absurd (hmem 59 h) (by decide), fun h => absurd (hmem 0 h) (by decide)⟩

theorem not_writable_longValue : ¬ Writable [(asc "a", longValue)] := by
  intro hw
  have hlong : (entry (asc "a") longValue).length < tmpbufSize := (hw _ List.mem_cons_self).2
  rw [length_entry_longValue] at hlong
  exact absurd hlong (by decide)

/-- A pair of 602 bytes: the single writer sets it, the batch writer leaves its
buffer. -/
theorem write_multi_long_pair :
    ¬ ∀ (abi : Abi) (env : EnvBlock) (es : List Bytes) (ps : List (Bytes × Bytes)),
      WellFormed abi env → split env.data = some es →
      (∀ p ∈ ps, p.1 ≠ [] ∧ IsPair p) →
      (ps.Pairwise fun p q => ¬ p.1 <+: q.1 ∧ ¬ q.1 <+: p.1) →
      (∀ qs, qs <+: ps → (pack (setEach es qs)).length + 1 ≤ env.data.length) →
      ∀ r w₁ w₂, Run allOk (write_multi_ubootcfg abi (request ps)) env (some r) w₁ →
        Run allOk (write_each abi ps) env (some ()) w₂ →
        split w₁.data = split w₂.data ∧ w₁ = w₂ := by
  intro h
  have hfit : ∀ qs, qs <+: [(asc "a", longValue)] → (pack (setEach [] qs)).length < 700 := by
    intro qs hqs
    rcases List.prefix_cons_iff.mp hqs with rfl | ⟨t, rfl, ht⟩
    · decide
    · obtain rfl := List.prefix_nil.mp ht
      have he : setEach [] [(asc "a", longValue)] = [] ++ [entry (asc "a") longValue] := rfl
      rw [he, length_pack_concat, length_entry_longValue, pack_nil, List.length_nil]
      omega
  have hsize : (listBlock ⟨true, false⟩ 700 []).data.length = 700 :=
    length_padded (by decide)
  have hagree := h ⟨true, false⟩ (listBlock ⟨true, false⟩ 700 []) [] [(asc "a", longValue)]
    (wellFormed_listBlock entries_nil (by decide)) (split_padded entries_nil (by decide))
    (fun p hp => ⟨by rw [List.mem_singleton.mp hp]; decide, isPair_longValue p hp⟩)
    (List.pairwise_singleton _ _) (fun qs hqs => by rw [hsize]; exact hfit qs hqs)
  exact not_writable_longValue (of_agree entries_nil (by decide) isPair_longValue hfit hagree).1

end Boxing.Uboot
