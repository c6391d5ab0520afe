import Boxing.Uboot.WriteOne

/-!
# Well formed blocks

A block is well formed when its CRC is that of the data area, and the data area
is a closed list with zeros behind it.  Such a block is determined by its size and
its list: it is `listBlock abi n es`.

On these blocks a writer can be read on the lists alone.  `run_set` is the single
writer: the block of the old list goes to the block of `setOne es var value`, the
entries that `var` does not begin and the new one.  It is the zeros behind the
list that close the new one, and they are there again afterwards.
-/

namespace Boxing.Uboot

open C Device

/-- The stored CRC is that of the data area, which holds a closed list and then
only zeros. -/
def WellFormed (abi : Abi) (env : EnvBlock) : Prop :=
  env.crc = crc_int abi env.data ∧
    ∃ es k, Entries es ∧ env.data = pack es ++ 0 :: List.replicate k 0

/-- The well formed block with a data area of `n` bytes and the list `es`. -/
def listBlock (abi : Abi) (n : Nat) (es : List Bytes) : EnvBlock := sealed abi (padded n (pack es))

/-- The list after `write_ubootcfg`. -/
def setOne (es : List Bytes) (var value : Bytes) : List Bytes :=
  keptBy var es ++ [entry var value]

section

variable {abi : Abi} {n : Nat} {es : List Bytes} {var value : Bytes}

@[simp] theorem listBlock_data : (listBlock abi n es).data = padded n (pack es) := rfl

theorem listBlock_crc : crc_int abi (listBlock abi n es).data = (listBlock abi n es).crc := rfl

theorem split_padded (hes : Entries es) (h : (pack es).length < n) :
    split (padded n (pack es)) = some es := by
  rw [padded_eq h]
  exact split_pack hes _

theorem wellFormed_listBlock (hes : Entries es) (h : (pack es).length < n) :
    WellFormed abi (listBlock abi n es) :=
  ⟨rfl, es, n - (pack es).length - 1, hes, padded_eq h⟩

/-- A well formed block is the block of its list. -/
theorem WellFormed.eq_listBlock {env : EnvBlock} (h : WellFormed abi env) :
    ∃ es, Entries es ∧ (pack es).length < env.data.length ∧
      env = listBlock abi env.data.length es := by
  obtain ⟨hcrc, es, k, hes, hdata⟩ := h
  have hlen : env.data.length = (pack es).length + (k + 1) := by
    rw [hdata, List.length_append, List.length_cons, List.length_replicate]
  have hpad : padded env.data.length (pack es) = env.data := by
    rw [padded_eq (by omega), hlen, hdata]
    congr 3
    omega
  refine ⟨es, hes, by omega, ?_⟩
  rw [listBlock, hpad, sealed, ← hcrc]

theorem countLen_padded (hes : Entries es) (h : (pack es).length < n) :
    countLen (padded n (pack es)) = some (pack es).length := by
  rw [padded_eq h]
  exact countLen_pack hes _

/-- The copy loop on a well formed block. -/
theorem refill_padded {drop : Bytes → Option Bool} {d : Bytes → Bool} (hes : Entries es)
    (h : (pack es).length < n) (hd : ∀ e ∈ es, drop e = some (d e)) :
    refill drop (padded n (pack es)) (pack es).length
      = some (padded n (pack (es.filter fun e => !d e)),
        (pack (es.filter fun e => !d e)).length) := by
  have hle := length_pack_filter_le (fun e => !d e) es
  rw [padded_eq h, refill_pack hes _ hd, List.replicate_append_replicate, List.drop_replicate,
    padded]
  congr 4
  omega

theorem entries_setOne (hes : Entries es) (hvar : 0 ∉ var) (hvalue : 0 ∉ value) :
    Entries (setOne es var value) :=
  (hes.filter _).append (entries_singleton entry_ne_nil (zero_not_mem_entry hvar hvalue))

/-- With zeros behind the old list there are zeros behind the new one. -/
theorem written_padded (h : (pack es).length < n) :
    written es (List.replicate (n - (pack es).length - 1) 0) var value
      = padded n (pack (setOne es var value)) := by
  rw [written, behind, List.replicate_append_replicate, List.drop_replicate, padded, setOne]
  congr 2
  omega

/-- **The single writer on well formed blocks.** -/
theorem run_set {r : Int} {env' : EnvBlock} (hes : Entries es) (h : (pack es).length < n)
    (h' : (pack (setOne es var value)).length < n) :
    Run allOk (write_ubootcfg abi var value) (listBlock abi n es) (some r) env' ↔
      r = 0 ∧ env' = listBlock abi n (setOne es var value) := by
  have hfit : (pack (keptBy var es ++ [entry var value])).length
      ≤ (listBlock abi n es).data.length := by
    rw [listBlock_data, length_padded (by omega)]
    exact h'.le
  rw [run_write_ubootcfg listBlock_crc hes (padded_eq h) hfit, written_padded h]
  rfl

end

end Boxing.Uboot
