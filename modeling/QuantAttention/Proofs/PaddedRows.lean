import QuantAttention.Layout
import QuantAttention.Proofs.Mask

/-! The rows that come out of the preparation of a mask. Whether it uses the caller's entries or
copies them into the scratch, they are the rows of the mask, each padded to a multiple of sixteen;
neither the scratch nor what follows the last row of the mask has a part in them. -/

namespace QuantAttention

namespace KeptFrom

variable {α : Type} {first stop : Nat} {xs ys : Array α}

theorem mono (h : KeptFrom first xs ys) (hLe : first ≤ stop) : KeptFrom stop xs ys :=
  ⟨h.size_eq, fun i hi => h.kept i (Nat.le_trans hLe hi)⟩

/-- What is kept from its first entry on is the same, so a buffer of which nothing may be written is
returned as it was. -/
theorem eq (h : KeptFrom 0 xs ys) : ys = xs :=
  Array.ext_getElem? fun i => h.kept i (Nat.zero_le i)

end KeptFrom

/-- A buffer has at least `n` numbers, and the count of its bytes is a size. -/
structure HasNumbers (xs : Array Binary32) (n : Nat) : Prop where
  le_size : n ≤ xs.size
  bytes_lt : Layout.numberBytes * xs.size < Size.limit

namespace HasNumbers

variable {xs : Array Binary32} {n : Nat}

theorem within (h : HasNumbers xs n) : Within xs.size n := by
  obtain ⟨hLe, hBytes⟩ := h
  simp only [Layout.numberBytes] at hBytes
  exact ⟨hLe, by omega⟩

/-- Numbers have four bytes, so a buffer has far fewer of them than there are sizes. -/
theorem add_lt (h : HasNumbers xs n) : n + 16 < Size.limit := by
  obtain ⟨hLe, hBytes⟩ := h
  simp only [Layout.numberBytes, Size.limit] at hBytes ⊢
  omega

end HasNumbers

namespace PreparedMask

variable {mask other scratch : Array Binary32} {batch seqK : Nat} {prepared : PreparedMask}

/-- The mask has an entry for every key of its rows, so no entry is taken from a default. -/
theorem some_paddedEntry (hMask : batch * seqK ≤ mask.size) {b : Nat} (hb : b < batch) (c : Nat) :
    some (paddedEntry mask seqK b c) =
      if c < seqK then mask[b * seqK + c]? else some maskPadding := by
  rw [paddedEntry]
  split
  · next hKey =>
    have hIn : b * seqK + c < mask.size := Nat.lt_of_lt_of_le (mul_add_lt_mul hb hKey) hMask
    rw [Array.getD_eq_getD_getElem?, Array.getElem?_eq_getElem hIn, Option.getD_some]
  · rfl

/-- The rows of a mask, each padded to a multiple of sixteen entries. -/
def paddedRows (mask : Array Binary32) (batch seqK : Nat) : Array Binary32 :=
  Array.ofFn fun p : Fin (batch * pad seqK 16) =>
    paddedEntry mask seqK (p / pad seqK 16) (p % pad seqK 16)

theorem getElem?_paddedRows {b c : Nat} (hb : b < batch) (hc : c < pad seqK 16) :
    (paddedRows mask batch seqK)[b * pad seqK 16 + c]? = some (paddedEntry mask seqK b c) := by
  rw [paddedRows, Array.getElem?_ofFn, dif_pos (mul_add_lt_mul hb hc)]
  simp only [mul_add_div_self b hc, mul_add_mod_self b hc]

/-- Padded rows are made of the entries of the rows alone. What stands behind them in the buffer
does not matter. -/
theorem paddedRows_congr (h : ∀ i < batch * seqK, other[i]? = mask[i]?) :
    paddedRows other batch seqK = paddedRows mask batch seqK := by
  have hEntry (b c : Nat) (hb : b < batch) :
      paddedEntry other seqK b c = paddedEntry mask seqK b c := by
    rw [paddedEntry, paddedEntry]
    split
    · next hc =>
      rw [Array.getD_eq_getD_getElem?, Array.getD_eq_getD_getElem?, h _ (mul_add_lt_mul hb hc)]
    · rfl
  rw [paddedRows, paddedRows]
  congr 1
  funext p
  exact hEntry _ _ (div_lt_of_lt_mul p.isLt)

/-- Both ways to prepare a mask give its padded rows, and a reader of the rows cannot tell which was
taken. -/
theorem rows_prepare (hMask : batch * seqK ≤ mask.size)
    (h : prepare mask scratch batch seqK = .ok prepared) :
    prepared.rows = paddedRows mask batch seqK := by
  have hSize := size_rows_prepare h
  apply Array.ext
  · rw [hSize, paddedRows, Array.size_ofFn]
  · intro p hp _
    have hb : p / pad seqK 16 < batch := div_lt_of_lt_mul (hSize ▸ hp)
    have hc : p % pad seqK 16 < pad seqK 16 :=
      Nat.mod_lt _ (Nat.pos_of_lt_mul_left (hSize ▸ hp))
    have hEntry := getD_rows_prepare hMask h hb hc
    rw [Nat.div_add_mod', Array.getD_eq_getD_getElem?, Array.getElem?_eq_getElem hp,
      Option.getD_some] at hEntry
    simp only [hEntry, paddedRows, Array.getElem_ofFn]

/-- The used part of the scratch is at most what the padded rows take. -/
theorem used_le : used batch seqK ≤ batch * pad seqK 16 := by
  rw [used]
  split
  · exact Nat.zero_le _
  · exact Nat.le_refl _

/-- A mask is prepared if the buffers have its rows and `seqK` can be padded. One that has a row
has so many entries that it can. -/
theorem exists_prepare (hKeys : 0 < batch ∨ seqK + 16 < Size.limit)
    (hMask : HasNumbers mask (batch * seqK))
    (hScratch : HasNumbers scratch (batch * pad seqK 16)) :
    ∃ prepared, prepare mask scratch batch seqK = .ok prepared := by
  -- Padding `seqK` starts with this sum, even where there is no row to pad.
  have hPadded : seqK + 16 < Size.limit := by
    rcases hKeys with hRows | hFits
    · have hRow : seqK ≤ batch * seqK := Nat.le_mul_of_pos_left seqK hRows
      have hAll := hMask.add_lt
      omega
    · exact hFits
  exact (prepare_faultsOnly hPadded hMask.within hScratch.within).exists_value

/-- A mask is prepared to the padded rows of its first `batch * seqK` entries, whatever the scratch
holds. A mask whose rows need no padding leaves the scratch as it is, any other at most writes to
the part that the padded rows take. -/
theorem prepare_pads (hKeys : 0 < batch ∨ seqK + 16 < Size.limit)
    (hMask : HasNumbers mask (batch * seqK))
    (hScratch : HasNumbers scratch (batch * pad seqK 16)) :
    ∃ prepared, prepare mask scratch batch seqK = .ok prepared ∧
      prepared.rows.size = batch * pad seqK 16 ∧
      (∀ b < batch, ∀ c < pad seqK 16, prepared.rows[b * pad seqK 16 + c]? =
        if c < seqK then mask[b * seqK + c]? else some (.ofInt (-1000))) ∧
      (∀ other scratch', HasNumbers other (batch * seqK) →
        HasNumbers scratch' (batch * pad seqK 16) →
        (∀ i < batch * seqK, other[i]? = mask[i]?) →
        ∃ again, prepare other scratch' batch seqK = .ok again ∧ again.rows = prepared.rows) ∧
      (16 ∣ seqK → prepared.scratch = scratch) ∧
      KeptFrom (batch * pad seqK 16) scratch prepared.scratch := by
  obtain ⟨prepared, hPrepared⟩ := exists_prepare hKeys hMask hScratch
  have hRows := rows_prepare hMask.le_size hPrepared
  obtain ⟨-, hKept⟩ := keptFrom_prepare hPrepared
  refine ⟨prepared, hPrepared, size_rows_prepare hPrepared, ?entry, ?alone, ?untouched, ?behind⟩
  case entry =>
    intro b hb c hc
    rw [hRows, getElem?_paddedRows hb hc, some_paddedEntry hMask.le_size hb, maskPadding]
  case alone =>
    intro other scratch' hOther hScratch' hSame
    obtain ⟨again, hAgain⟩ := exists_prepare hKeys hOther hScratch'
    exact ⟨again, hAgain, by rw [rows_prepare hOther.le_size hAgain, hRows, paddedRows_congr hSame]⟩
  case untouched =>
    intro hWhole
    rw [used, if_pos (Nat.mod_eq_zero_of_dvd hWhole)] at hKept
    exact hKept.eq
  case behind =>
    exact hKept.mono used_le

/-- Two rows of three entries with one entry behind them, copied into the front of a scratch, and a
row of sixteen, used as it is. -/
theorem prepare_pads_both_ways :
    (∃ prepared, prepare #[⟨1⟩, ⟨2⟩, .nan, ⟨3⟩, ⟨4⟩, ⟨5⟩, ⟨6⟩] (.replicate 33 ⟨7⟩) 2 3 =
        .ok prepared ∧ prepared.rows.size = 32 ∧ prepared.rows[2]? = some .nan ∧
      prepared.rows[3]? = some (.ofInt (-1000)) ∧ prepared.rows[18]? = some ⟨5⟩ ∧
      (∃ again, prepare #[⟨1⟩, ⟨2⟩, .nan, ⟨3⟩, ⟨4⟩, ⟨5⟩] (.replicate 32 ⟨8⟩) 2 3 = .ok again ∧
        again.rows = prepared.rows) ∧
      prepared.scratch[32]? = some ⟨7⟩) ∧
    ∃ prepared, prepare (.replicate 17 .nan) (.replicate 16 ⟨7⟩) 1 16 = .ok prepared ∧
      prepared.rows[15]? = some .nan ∧ prepared.scratch = .replicate 16 ⟨7⟩ := by
  have hThree : HasNumbers #[⟨1⟩, ⟨2⟩, .nan, ⟨3⟩, ⟨4⟩, ⟨5⟩, ⟨6⟩] (2 * 3) :=
    ⟨by decide, by decide⟩
  have hFront : HasNumbers #[⟨1⟩, ⟨2⟩, .nan, ⟨3⟩, ⟨4⟩, ⟨5⟩] (2 * 3) := ⟨by decide, by decide⟩
  have hRoom : HasNumbers (.replicate 33 ⟨7⟩) (2 * pad 3 16) := ⟨by decide, by decide⟩
  have hOther : HasNumbers (.replicate 32 ⟨8⟩) (2 * pad 3 16) := ⟨by decide, by decide⟩
  have hSixteen : HasNumbers (.replicate 17 .nan) (1 * 16) := ⟨by decide, by decide⟩
  have hSame : HasNumbers (.replicate 16 ⟨7⟩) (1 * pad 16 16) := ⟨by decide, by decide⟩
  constructor
  · obtain ⟨prepared, hPrepared, hSize, hEntry, hAlone, -, hKept⟩ :=
      prepare_pads (.inl (by decide)) hThree hRoom
    exact ⟨prepared, hPrepared, hSize, hEntry 0 (by decide) 2 (by decide),
      hEntry 0 (by decide) 3 (by decide), hEntry 1 (by decide) 2 (by decide),
      hAlone _ _ hFront hOther (by decide), hKept.kept 32 (by decide)⟩
  · obtain ⟨prepared, hPrepared, -, hEntry, -, hUntouched, -⟩ :=
      prepare_pads (.inl (by decide)) hSixteen hSame
    exact ⟨prepared, hPrepared, hEntry 0 (by decide) 15 (by decide), hUntouched (by decide)⟩

/-- Without rows no buffer bounds the entries per row. The greatest size that is a multiple of
sixteen needs no padding, but finding that out starts with a sum that is no size. -/
theorem not_prepared_at_limit :
    HasNumbers #[⟨5⟩] (0 * 18446744073709551600) ∧
      HasNumbers #[⟨6⟩] (0 * pad 18446744073709551600 16) ∧
      ¬∃ prepared, prepare #[⟨5⟩] #[⟨6⟩] 0 18446744073709551600 = .ok prepared := by
  refine ⟨⟨by decide, by decide⟩, ⟨by decide, by decide⟩, ?_⟩
  rintro ⟨prepared, hPrepared⟩
  have hOverflow : prepare #[⟨5⟩] #[⟨6⟩] 0 18446744073709551600 = .error .sizeOverflow := rfl
  rw [hOverflow] at hPrepared
  cases hPrepared

end PreparedMask

end QuantAttention
