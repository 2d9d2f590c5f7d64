import QuantAttention.Proofs.Positions
import QuantAttention.Proofs.Session

/-! What is written to the scratch of sessions. Slot after slot has its bytes in the region, so a
byte of the region holds what the last write through its slot put there, and one that no write
reaches keeps what it held when the slots were cut. -/

namespace QuantAttention

/-- The slot, of `workers`, that a caller gets. -/
def Caller.slot (workers : Nat) : Caller → Nat
  | worker i => i % workers
  | outside => 0

theorem Caller.number_mod (caller : Caller) (workers : Nat) :
    caller.number % workers = caller.slot workers := by
  cases caller with
  | worker i => rfl
  | outside => exact Nat.zero_mod workers

/-- Bytes that a caller writes to its scratch, over those from byte `first` of it on. -/
structure ScratchWrite where
  caller : Caller
  first : Nat
  bytes : Array UInt8
  deriving DecidableEq, Repr

/-- What a write puts at byte `i` of the scratch, if it reaches it. -/
def ScratchWrite.put (w : ScratchWrite) (i : Nat) : Option UInt8 :=
  if w.first ≤ i then w.bytes[i - w.first]? else none

/-- An entry of an array over which the bytes were written. -/
theorem ScratchWrite.getD_splice (w : ScratchWrite) {xs : Array UInt8} {i : Nat}
    (hi : i < xs.size) :
    (splice xs w.first w.bytes).getD i 0 = (w.put i).getD (xs.getD i 0) := by
  rw [Array.getD_eq_getD_getElem?, getElem?_splice _ _ _ _ hi, put]
  by_cases hFirst : w.first ≤ i
  · by_cases hLast : i < w.first + w.bytes.size
    · rw [if_pos ⟨hFirst, hLast⟩, if_pos hFirst, Array.getElem?_eq_getElem (by omega),
        Option.getD_some, Option.getD_some]
    · have hBehind : w.bytes[i - w.first]? = none := Array.getElem?_eq_none (by omega)
      rw [if_neg (by omega), if_pos hFirst, hBehind, Option.getD_none, Array.getD_eq_getD_getElem?]
  · rw [if_neg (by omega), if_neg hFirst, Option.getD_none, Array.getD_eq_getD_getElem?]

/-- What the last of the writes through a slot that reaches byte `i` of it puts there. -/
def lastPut (workers slot i : Nat) (writes : List ScratchWrite) : Option UInt8 :=
  writes.reverse.findSome? fun w => if w.caller.slot workers = slot then w.put i else none

/-- What stands in a byte is told by the latest write that reached it, and by earlier ones only
where later ones did not. -/
theorem lastPut_cons (workers slot i : Nat) (w : ScratchWrite) (rest : List ScratchWrite) :
    lastPut workers slot i (w :: rest) = (lastPut workers slot i rest).or
      (if w.caller.slot workers = slot then w.put i else none) :=
  findSome?_reverse_cons _ w rest

namespace Sessions

variable {s t : Sessions} {perWorker workers : Nat} {rest region : Array UInt8}

def write (s : Sessions) (w : ScratchWrite) : Checked Sessions := do
  s.setScratch w.caller (← overwrite (← s.scratch w.caller) w.first w.bytes)

def byte (s : Sessions) (slot i : Nat) : UInt8 := (s.slots.getD slot default).scratch.getD i 0

/-- The slots stand in the region one after the other. -/
theorem Cut.getElem?_region (h : s.Cut perWorker workers rest) (x : Nat) :
    s.region[x]? = if x < workers * perWorker then some (s.byte (x / perWorker) (x % perWorker))
      else rest[x - workers * perWorker]? := by
  have hScratches : s.slots.map (·.scratch) =
      Array.ofFn fun r : Fin workers => Array.ofFn fun c : Fin perWorker => s.byte r c := by
    apply Array.ext
    · simp [h.slots]
    · intro r hr _
      have hSlot : r < s.slots.size := by simpa using hr
      have hSize := h.scratch _ (Array.getElem_mem hSlot)
      apply Array.ext
      · simp [hSize]
      · intro c hc _
        simp only [Array.getElem_map, Array.getElem_ofFn, byte, Array.getD_eq_getD_getElem?,
          Array.getElem?_eq_getElem hSlot, Option.getD_some]
        rw [Array.getElem?_eq_getElem (by simpa using hc), Option.getD_some]
  rw [region, hScratches, flatten_ofFn, h.behind, Array.getElem?_append, Array.size_ofFn,
    Array.getElem?_ofFn]
  split <;> rfl

/-- A write that its slot has room for puts its bytes there and leaves all others. -/
theorem Cut.write (h : s.Cut perWorker workers rest) (hWorkers : 0 < workers) {w : ScratchWrite}
    (hFits : w.first + w.bytes.size ≤ perWorker) :
    ∃ t, s.write w = .ok t ∧ t.Cut perWorker workers rest ∧ ∀ slot, ∀ i < perWorker,
      t.byte slot i =
        (if w.caller.slot workers = slot then w.put i else none).getD (s.byte slot i) := by
  have hSlotOf : s.slotOf w.caller = .ok (w.caller.slot workers) := by
    rw [slotOf_eq s _ (h.slots ▸ hWorkers), h.slots, Caller.number_mod]
  have hSlot : w.caller.slot workers < s.slots.size := slotOf_lt hSlotOf
  obtain ⟨old, hOld⟩ : ∃ old, s.scratch w.caller = .ok old :=
    ⟨_, by rw [Sessions.scratch, hSlotOf]; rfl⟩
  have hSize : old.size = perWorker := h.size_scratch hOld
  have hOverwrite : overwrite old w.first w.bytes = .ok (splice old w.first w.bytes) :=
    Checked.bind_eq_ok.2 ⟨(), require_eq_ok.2 (hSize ▸ hFits), rfl⟩
  obtain ⟨t, hSet⟩ : ∃ t, s.setScratch w.caller (splice old w.first w.bytes) = .ok t :=
    ⟨_, by rw [Sessions.setScratch, hSlotOf]; rfl⟩
  have hRun : s.write w = .ok t :=
    Checked.bind_eq_ok.2 ⟨old, hOld, Checked.bind_eq_ok.2 ⟨_, hOverwrite, hSet⟩⟩
  refine ⟨t, hRun, h.setScratch (by rw [size_splice, hSize]) hSet, fun slot i hi => ?_⟩
  rw [Sessions.setScratch, hSlotOf] at hSet
  rw [Sessions.scratch, hSlotOf] at hOld
  cases hSet
  cases hOld
  rw [byte, getD_modify hSlot]
  by_cases hSame : slot = w.caller.slot workers
  · subst hSame
    rw [if_pos rfl, if_pos rfl]
    exact w.getD_splice (hSize ▸ hi)
  · rw [if_neg hSame, if_neg (Ne.symm hSame), Option.getD_none, byte]

/-- After any number of writes every byte is that of the last one to reach it, or what it was before
if none did. The induction is on the writes. -/
theorem Cut.writes (hWorkers : 0 < workers) (writes : List ScratchWrite)
    (hFits : ∀ w ∈ writes, w.first + w.bytes.size ≤ perWorker)
    (h : s.Cut perWorker workers rest) :
    ∃ t, writes.foldlM Sessions.write s = .ok t ∧ t.Cut perWorker workers rest ∧
      ∀ slot, ∀ i < perWorker,
        t.byte slot i = (lastPut workers slot i writes).getD (s.byte slot i) := by
  induction writes generalizing s with
  | nil => exact ⟨s, rfl, h, fun _ _ _ => rfl⟩
  | cons w rest ih =>
      obtain ⟨t, hFirst, hCut, hByte⟩ := h.write hWorkers (hFits w List.mem_cons_self)
      obtain ⟨u, hRest, hEnd, hBytes⟩ := ih (fun v hv => hFits v (List.mem_cons_of_mem _ hv)) hCut
      refine ⟨u, ?_, hEnd, fun slot i hi => ?_⟩
      · rw [List.foldlM_cons]
        exact Checked.bind_eq_ok.2 ⟨t, hFirst, hRest⟩
      · rw [hBytes slot i hi, hByte slot i hi, lastPut_cons, Option.getD_or]

/-- A region that was cut has its slots in front and the rest behind them. -/
theorem cut_carve (h : carve region perWorker workers = .ok s) : s.Cut perWorker workers s.rest :=
  have ⟨hSlots, hScratch⟩ := carve_spec h
  ⟨hSlots, fun slot hSlot => (hScratch slot hSlot).1, rfl⟩

/-- A region can be cut if it is long enough and a table can have that many slots. Neither condition
follows from the other, as slots may be empty. -/
theorem exists_carve_iff : (∃ s, carve region perWorker workers = .ok s) ↔
    workers * perWorker ≤ region.size ∧ workers < slotLimit := by
  constructor
  · rintro ⟨s, hCarve⟩
    have hRegion := (cut_carve hCarve).le_size_region
    obtain ⟨_, hLimit, -⟩ := Checked.bind_eq_ok.1 hCarve
    exact ⟨region_carve hCarve ▸ hRegion, require_eq_ok.1 hLimit⟩
  · rintro ⟨hRegion, hLimit⟩
    exact (carve_faultsOnly hLimit hRegion).exists_value

/-- A region is cut if it is long enough for the slots of a table. Then, whoever writes to the
scratch of slots, a byte of the region is what the last write through its slot put there, and it is
what it was at the start if none did or if it is behind all slots. -/
theorem carve_then_write (region : Array UInt8) (perWorker workers : Nat) :
    ((∃ s, carve region perWorker workers = .ok s) ↔
        workers * perWorker ≤ region.size ∧ workers < slotLimit) ∧
      ∀ s, carve region perWorker workers = .ok s → 0 < workers → ∀ writes : List ScratchWrite,
        (∀ w ∈ writes, w.first + w.bytes.size ≤ perWorker) →
        ∃ t, writes.foldlM write s = .ok t ∧ ∀ x, t.region[x]? =
          if x < workers * perWorker then
            (lastPut workers (x / perWorker) (x % perWorker) writes).or region[x]?
          else region[x]? := by
  refine ⟨exists_carve_iff, fun s hCarve hWorkers writes hFits => ?_⟩
  have hCut := cut_carve hCarve
  obtain ⟨t, hRun, hEnd, hBytes⟩ := hCut.writes hWorkers writes hFits
  refine ⟨t, hRun, fun x => ?_⟩
  rw [← region_carve hCarve, hEnd.getElem?_region, hCut.getElem?_region]
  by_cases hInside : x < workers * perWorker
  · have hOffset : x % perWorker < perWorker := Nat.mod_lt _ (Nat.pos_of_lt_mul_left hInside)
    rw [if_pos hInside, if_pos hInside, if_pos hInside, hBytes _ _ hOffset]
    cases lastPut workers (x / perWorker) (x % perWorker) writes <;> rfl
  · rw [if_neg hInside, if_neg hInside, if_neg hInside]

/-- Two slots of two bytes and one byte behind them. Worker 3 shares the second slot with worker 1,
and a caller from outside the first with worker 0. -/
theorem carve_then_write_shared : ∃ s t, carve #[1, 2, 3, 4, 5] 2 2 = .ok s ∧
    [⟨.worker 0, 1, #[9]⟩, ⟨.outside, 0, #[7, 8]⟩, ⟨.worker 3, 0, #[6]⟩].foldlM write s = .ok t ∧
    t.region[0]? = some 7 ∧ t.region[1]? = some 8 ∧ t.region[2]? = some 6 ∧
    t.region[3]? = some 4 ∧ t.region[4]? = some 5 := by
  obtain ⟨hCarved, hWritten⟩ := carve_then_write #[1, 2, 3, 4, 5] 2 2
  obtain ⟨s, hCarve⟩ := hCarved.2 (by decide)
  obtain ⟨t, hRun, hRegion⟩ := hWritten s hCarve (by decide)
    [⟨.worker 0, 1, #[9]⟩, ⟨.outside, 0, #[7, 8]⟩, ⟨.worker 3, 0, #[6]⟩] (by decide)
  exact ⟨s, t, hCarve, hRun, hRegion 0, hRegion 1, hRegion 2, hRegion 3, hRegion 4⟩

/-- An empty region has room for any number of empty slots, a table has not. This is why the second
condition is there. -/
theorem carve_slotLimit : ¬((∃ s, carve #[] 0 slotLimit = .ok s) ↔
    slotLimit * 0 ≤ (#[] : Array UInt8).size) := by
  intro h
  have hLimit := (exists_carve_iff.1 (h.2 (Nat.le_refl 0))).2
  exact Nat.lt_irrefl _ hLimit

end Sessions

end QuantAttention
