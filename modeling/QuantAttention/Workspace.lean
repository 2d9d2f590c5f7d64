import QuantAttention.Binary32.Arithmetic
import QuantAttention.Layout
import QuantAttention.View

/-!
The workspace of a call: its bytes, where they start in memory, and their division into typed
regions. `toBytes_split` says that the division loses nothing.
-/

namespace QuantAttention

/-- Bytes with the address of the first one, of which only the alignment matters. -/
structure Workspace where
  address : Nat
  bytes : Array UInt8
  deriving DecidableEq, Repr

/-- The regions of a workspace as what they hold, and the bytes behind the last region. -/
structure WorkspaceRegions where
  mask : Array Binary32
  keys : Array Int8
  values : Array Int8
  valueScale : Array Binary32
  scratch : Array UInt8
  tail : Array UInt8
  deriving DecidableEq

/-- The numbers whose bytes these are; bytes behind the last whole number are left out. -/
def numbersOfBytes (bytes : Array UInt8) : Array Binary32 :=
  Array.ofFn fun i : Fin (bytes.size / 4) => .ofBytes fun k => bytes.getD (4 * i + k) 0

def bytesOfNumbers (numbers : Array Binary32) : Array UInt8 :=
  Array.ofFn fun i : Fin (4 * numbers.size) => (numbers.getD (i / 4) 0).byte (i % 4)

@[simp] theorem numbersOfBytes_bytesOfNumbers (numbers : Array Binary32) :
    numbersOfBytes (bytesOfNumbers numbers) = numbers := by
  apply Array.ext
  · simp [numbersOfBytes, bytesOfNumbers]
  · intro i h₁ h₂
    have hBytes : ∀ k < 4, (bytesOfNumbers numbers).getD (4 * i + k) 0 = numbers[i].byte k := by
      intro k hk
      have hDiv : (4 * i + k) / 4 = i := by omega
      have hMod : (4 * i + k) % 4 = k := by omega
      simp [bytesOfNumbers, Array.getD_eq_getD_getElem?, hDiv, hMod, h₂,
        show 4 * i + k < 4 * numbers.size by omega]
    rw [← Binary32.ofBytes_byte numbers[i]]
    simp only [numbersOfBytes, Array.getElem_ofFn, Binary32.ofBytes, hBytes, Nat.reduceLT]

theorem bytesOfNumbers_numbersOfBytes {bytes : Array UInt8} (h : bytes.size % 4 = 0) :
    bytesOfNumbers (numbersOfBytes bytes) = bytes := by
  apply Array.ext
  · simp only [bytesOfNumbers, numbersOfBytes, Array.size_ofFn]
    omega
  · intro i h₁ h₂
    have hIndex : i / 4 < bytes.size / 4 := by omega
    have hSplit : 4 * (i / 4) + i % 4 = i := by omega
    simp [bytesOfNumbers, numbersOfBytes, Array.getD_eq_getD_getElem?, Array.getElem?_ofFn, hIndex,
      Binary32.byte_ofBytes _ (Nat.mod_lt i (by decide : 4 > 0)), hSplit, h₂]

/-- The signed entries that bytes stand for. -/
def entriesOfBytes (bytes : Array UInt8) : Array Int8 := bytes.map UInt8.toInt8

def bytesOfEntries (entries : Array Int8) : Array UInt8 := entries.map Int8.toUInt8

@[simp] theorem bytesOfEntries_entriesOfBytes (bytes : Array UInt8) :
    bytesOfEntries (entriesOfBytes bytes) = bytes := by
  simp [bytesOfEntries, entriesOfBytes, Function.comp_def]

@[simp] theorem entriesOfBytes_bytesOfEntries (entries : Array Int8) :
    entriesOfBytes (bytesOfEntries entries) = entries := by
  simp [bytesOfEntries, entriesOfBytes, Function.comp_def]

namespace WorkspaceRegions

/-- The bytes of all regions and of what is behind them. -/
def toBytes (r : WorkspaceRegions) : Array UInt8 :=
  bytesOfNumbers r.mask ++ bytesOfEntries r.keys ++ bytesOfEntries r.values ++
    bytesOfNumbers r.valueScale ++ r.scratch ++ r.tail

end WorkspaceRegions

namespace Workspace

/-- Workspaces are made of lines of this many bytes and start at a multiple of it. -/
def lineBytes : Nat := 64

/-- A workspace has fewer lines than this. -/
def lineLimit : Nat := 144115188075855872

/-- A workspace of zeros that starts at a line. -/
def zeros (length : Nat) : Checked Workspace := do
  require ((length + lineBytes - 1) / lineBytes < lineLimit) .sizeOverflow
  return ⟨0, Array.replicate length 0⟩

def debugText (w : Workspace) : String :=
  "Workspace \x7b len: " ++ toString w.bytes.size ++ " \x7d"

def isAligned (w : Workspace) : Bool := w.address % lineBytes = 0

def set (w : Workspace) (position : Nat) (byte : UInt8) : Checked Workspace := do
  require (position < w.bytes.size) .outOfBounds
  return { w with bytes := w.bytes.setIfInBounds position byte }

def fill (w : Workspace) (byte : UInt8) : Workspace :=
  { w with bytes := Array.replicate w.bytes.size byte }

/-- `count` bytes from byte `first` on. -/
def read (w : Workspace) (first count : Nat) : Checked (Array UInt8) := do
  return (← (← (View.ofArray w.bytes).drop first).take count).toArray

/-- The workspace from byte `count` on. -/
def drop (w : Workspace) (count : Nat) : Checked Workspace := do
  require (count ≤ w.bytes.size) .outOfBounds
  return ⟨w.address + count, w.bytes.extract count w.bytes.size⟩

def regionBytes (w : Workspace) (r : Region) : Array UInt8 :=
  w.bytes.extract r.offset (r.offset + r.length)

/-- Whether a region may be read as single-precision numbers: it starts at a multiple of four and
holds whole numbers. -/
def holdsNumbers (w : Workspace) (r : Region) : Bool :=
  (w.address + r.offset) % 4 = 0 && r.length % 4 = 0

/-- The regions of a workspace under a layout. -/
def split (w : Workspace) (l : Layout) : Checked (Except AttentionError WorkspaceRegions) := do
  let needed ← l.totalBytes
  if w.bytes.size < needed then
    return .error (.workspaceTooSmall needed w.bytes.size)
  if !(w.holdsNumbers l.mask && w.holdsNumbers l.valueScale) then
    return .error (.misalignedBuffer "workspace")
  return .ok {
    mask := numbersOfBytes (w.regionBytes l.mask)
    keys := entriesOfBytes (w.regionBytes l.keys)
    values := entriesOfBytes (w.regionBytes l.values)
    valueScale := numbersOfBytes (w.regionBytes l.valueScale)
    scratch := w.regionBytes l.scratch
    tail := w.bytes.extract needed w.bytes.size }

theorem toBytes_split {w : Workspace} {l : Layout} {regions : WorkspaceRegions}
    (hLayout : l.Contiguous) (hSplit : w.split l = .ok (.ok regions)) :
    regions.toBytes = w.bytes := by
  obtain ⟨needed, hNeeded, h⟩ := Checked.bind_eq_ok.1 hSplit
  obtain ⟨-, rfl⟩ := Region.stop_eq_ok.1 hNeeded
  split at h
  · cases h
  · split at h
    · cases h
    · next hLong hAligned =>
      cases h
      obtain ⟨hMask, hKeys, hValues, hScale, hScratch⟩ := hLayout
      have hWhole : w.holdsNumbers l.mask ∧ w.holdsNumbers l.valueScale := by simpa using hAligned
      simp only [holdsNumbers, Bool.and_eq_true, decide_eq_true_eq] at hWhole
      have hSize (r : Region) (hr : r.offset + r.length ≤ w.bytes.size) :
          (w.regionBytes r).size = r.length := by
        simp only [regionBytes, Array.size_extract]
        omega
      have hMaskSize := hSize l.mask (by omega)
      have hScaleSize := hSize l.valueScale (by omega)
      simp only [WorkspaceRegions.toBytes, bytesOfEntries_entriesOfBytes]
      rw [bytesOfNumbers_numbersOfBytes (by omega), bytesOfNumbers_numbersOfBytes (by omega)]
      have hJoin (i j : Nat) (hij : i ≤ j) :
          w.bytes.extract 0 i ++ w.bytes.extract i j = w.bytes.extract 0 j := by
        rw [Array.extract_append_extract, Nat.zero_min, Nat.max_eq_right hij]
      simp only [regionBytes, ← hKeys, ← hValues, ← hScale, ← hScratch]
      rw [hMask, hJoin _ _ (by omega), hJoin _ _ (by omega), hJoin _ _ (by omega),
        hJoin _ _ (by omega), hJoin _ _ (by omega), Array.extract_size]

end Workspace

end QuantAttention
