import QuantAttention.Proofs.Rewritten
import QuantAttention.Workspace

/-! Where the bytes of the regions stand in a workspace. -/

namespace QuantAttention

namespace KeptFrom

variable {first : Nat}

theorem bytesOfEntries {xs ys : Array Int8} (h : KeptFrom first xs ys) :
    KeptFrom first (bytesOfEntries xs) (bytesOfEntries ys) where
  size_eq := by simp only [QuantAttention.bytesOfEntries, Array.size_map, h.size_eq]
  kept := fun i hi => by
    simp only [QuantAttention.bytesOfEntries, Array.getElem?_map, h.kept i hi]

theorem bytesOfNumbers {xs ys : Array Binary32} (h : KeptFrom first xs ys) :
    KeptFrom (4 * first) (bytesOfNumbers xs) (bytesOfNumbers ys) where
  size_eq := by simp only [QuantAttention.bytesOfNumbers, Array.size_ofFn, h.size_eq]
  kept := fun i hi => by
    have hNumber := h.kept (i / 4) (by omega)
    simp only [QuantAttention.bytesOfNumbers, Array.getElem?_ofFn, Array.getD_eq_getD_getElem?,
      hNumber, h.size_eq]

end KeptFrom

namespace WorkspaceRegions

def parts (r : WorkspaceRegions) : List (Array UInt8) :=
  [bytesOfNumbers r.mask, bytesOfEntries r.keys, bytesOfEntries r.values,
    bytesOfNumbers r.valueScale, r.scratch]

def Fills (r : WorkspaceRegions) (l : Layout) : Prop :=
  r.parts.map Array.size = l.regions.map Region.length

variable {r : WorkspaceRegions} {l : Layout} {region : Region} {bytes : Array UInt8} {i : Nat}

theorem size_part (hFills : r.Fills l) (hPart : (region, bytes) ∈ l.regions.zip r.parts) :
    bytes.size = region.length := by
  simp only [Fills, parts, Layout.regions, List.map_cons, List.map_nil, List.cons.injEq,
    and_true] at hFills
  obtain ⟨hMask, hKeys, hValues, hScale, hScratch⟩ := hFills
  simp only [Layout.regions, parts, List.zip_cons_cons, List.zip_nil_right, List.mem_cons,
    Prod.mk.injEq, List.not_mem_nil, or_false] at hPart
  rcases hPart with ⟨rfl, rfl⟩ | ⟨rfl, rfl⟩ | ⟨rfl, rfl⟩ | ⟨rfl, rfl⟩ | ⟨rfl, rfl⟩ <;> assumption

/-- The bytes of a region stand from its offset on, since the parts before it fill the bytes up to
there. -/
theorem getElem?_toBytes (hLayout : l.Contiguous) (hFills : r.Fills l)
    (hPart : (region, bytes) ∈ l.regions.zip r.parts) (hi : i < region.length) :
    r.toBytes[region.offset + i]? = bytes[i]? := by
  -- The bytes before the region are as many as its offset says, and those behind it are not met.
  have hMiddle (before after : Array UInt8) (hJoin : r.toBytes = before ++ bytes ++ after)
      (hBefore : before.size = region.offset) : r.toBytes[region.offset + i]? = bytes[i]? := by
    have hBytes := size_part hFills hPart
    rw [hJoin, Array.getElem?_append_left (by rw [Array.size_append]; omega),
      Array.getElem?_append_right (by omega), ← hBefore, Nat.add_sub_cancel_left]
  obtain ⟨hMask, hKeys, hValues, hScale, hScratch⟩ := hLayout
  simp only [Fills, parts, Layout.regions, List.map_cons, List.map_nil, List.cons.injEq,
    and_true] at hFills
  obtain ⟨hMaskSize, hKeysSize, hValuesSize, hScaleSize, -⟩ := hFills
  simp only [Layout.regions, parts, List.zip_cons_cons, List.zip_nil_right, List.mem_cons,
    Prod.mk.injEq, List.not_mem_nil, or_false] at hPart
  rcases hPart with ⟨rfl, rfl⟩ | ⟨rfl, rfl⟩ | ⟨rfl, rfl⟩ | ⟨rfl, rfl⟩ | ⟨rfl, rfl⟩
  · exact hMiddle #[] (bytesOfEntries r.keys ++ bytesOfEntries r.values ++
      bytesOfNumbers r.valueScale ++ r.scratch ++ r.tail)
      (by simp only [toBytes, Array.empty_append, Array.append_assoc]) hMask.symm
  · exact hMiddle (bytesOfNumbers r.mask) (bytesOfEntries r.values ++ bytesOfNumbers r.valueScale ++
      r.scratch ++ r.tail) (by simp only [toBytes, Array.append_assoc]) (by omega)
  · exact hMiddle (bytesOfNumbers r.mask ++ bytesOfEntries r.keys)
      (bytesOfNumbers r.valueScale ++ r.scratch ++ r.tail)
      (by simp only [toBytes, Array.append_assoc]) (by rw [Array.size_append]; omega)
  · exact hMiddle (bytesOfNumbers r.mask ++ bytesOfEntries r.keys ++ bytesOfEntries r.values)
      (r.scratch ++ r.tail) (by simp only [toBytes, Array.append_assoc])
      (by simp only [Array.size_append]; omega)
  · exact hMiddle (bytesOfNumbers r.mask ++ bytesOfEntries r.keys ++ bytesOfEntries r.values ++
      bytesOfNumbers r.valueScale) r.tail rfl (by simp only [Array.size_append]; omega)

/-- The regions end where the tail begins, as they stand one behind the other from the first byte
on. -/
theorem size_regions (hLayout : l.Contiguous) (hFills : r.Fills l) :
    (bytesOfNumbers r.mask ++ bytesOfEntries r.keys ++ bytesOfEntries r.values ++
      bytesOfNumbers r.valueScale ++ r.scratch).size = l.scratch.offset + l.scratch.length := by
  obtain ⟨hMask, hKeys, hValues, hScale, hScratch⟩ := hLayout
  simp only [Fills, parts, Layout.regions, List.map_cons, List.map_nil, List.cons.injEq,
    and_true] at hFills
  simp only [Array.size_append]
  omega

/-- The parts of a workspace have as many bytes together as the workspace they were taken from. -/
theorem size_toBytes (hLayout : l.Contiguous) (hFills : r.Fills l) :
    r.toBytes.size = l.scratch.offset + l.scratch.length + r.tail.size := by
  rw [toBytes, Array.size_append, size_regions hLayout hFills]

/-- Behind the regions stands the tail, byte by byte. -/
theorem getElem?_toBytes_tail (hLayout : l.Contiguous) (hFills : r.Fills l)
    (hi : l.scratch.offset + l.scratch.length ≤ i) :
    r.toBytes[i]? = r.tail[i - (l.scratch.offset + l.scratch.length)]? := by
  have hSize := size_regions hLayout hFills
  rw [toBytes, Array.getElem?_append_right (by omega), hSize]

end WorkspaceRegions

namespace Workspace

variable {w : Workspace} {l : Layout} {regions : WorkspaceRegions}

theorem size_regionBytes {r : Region} (h : r.offset + r.length ≤ w.bytes.size) :
    (w.regionBytes r).size = r.length := by
  rw [regionBytes, Array.size_extract]
  omega

/-- A workspace that has been divided reaches to the end of the layout. -/
theorem le_size_of_split (hSplit : w.split l = .ok (.ok regions)) :
    l.scratch.offset + l.scratch.length ≤ w.bytes.size := by
  obtain ⟨needed, hNeeded, h⟩ := Checked.bind_eq_ok.1 hSplit
  obtain ⟨-, rfl⟩ := Region.stop_eq_ok.1 hNeeded
  split at h
  · cases h
  · next hLong => exact Nat.not_lt.1 hLong

/-- The parts are the bytes of the regions. -/
theorem parts_split (hLayout : l.Contiguous) (hSplit : w.split l = .ok (.ok regions)) :
    regions.parts = l.regions.map w.regionBytes := by
  have hLong := le_size_of_split hSplit
  obtain ⟨needed, -, h⟩ := Checked.bind_eq_ok.1 hSplit
  split at h
  · cases h
  · split at h
    · cases h
    · next hAligned =>
      cases h
      obtain ⟨hMask, hKeys, hValues, hScale, hScratch⟩ := hLayout
      have hWhole : w.holdsNumbers l.mask ∧ w.holdsNumbers l.valueScale := by simpa using hAligned
      simp only [holdsNumbers, Bool.and_eq_true, decide_eq_true_eq] at hWhole
      have hMaskSize := size_regionBytes (w := w) (r := l.mask) (by omega)
      have hScaleSize := size_regionBytes (w := w) (r := l.valueScale) (by omega)
      simp only [WorkspaceRegions.parts, bytesOfEntries_entriesOfBytes]
      rw [bytesOfNumbers_numbersOfBytes (by omega), bytesOfNumbers_numbersOfBytes (by omega)]
      rfl

/-- The parts into which a workspace was divided are as long as its regions. -/
theorem fills_split (hLayout : l.Contiguous) (hSplit : w.split l = .ok (.ok regions)) :
    regions.Fills l := by
  have hLong := le_size_of_split hSplit
  rw [WorkspaceRegions.Fills, parts_split hLayout hSplit]
  obtain ⟨hMask, hKeys, hValues, hScale, hScratch⟩ := hLayout
  simp only [Layout.regions, List.map_cons, List.map_nil]
  rw [size_regionBytes (by omega), size_regionBytes (by omega), size_regionBytes (by omega),
    size_regionBytes (by omega), size_regionBytes (by omega)]

end Workspace

end QuantAttention
