import QuantAttention.Proofs.Faults
import QuantAttention.Proofs.Rewritten
import QuantAttention.Session

/-! Pools in which every thread has a slot of its own. Whatever their workers do, a slot that is
ready stands for loaded registers, the scratch of every slot keeps its length, and no byte of the
region changes but those of slots. -/

namespace QuantAttention

variable {allowed : Fault → Prop}

theorem getD_modify {α : Type} {xs : Array α} {i j : Nat} {f : α → α} {d : α} (h : i < xs.size) :
    (xs.modify i f).getD j d = if j = i then f (xs.getD i d) else xs.getD j d := by
  simp only [Array.getD_eq_getD_getElem?, Array.getElem?_modify]
  by_cases hj : i = j
  · subst hj
    simp [h]
  · rw [if_neg hj, if_neg (Ne.symm hj)]

/-- Looking from the end, the first of a list comes last. -/
theorem findSome?_reverse_cons {α β : Type} (f : α → Option β) (x : α) (xs : List α) :
    (x :: xs).reverse.findSome? f = (xs.reverse.findSome? f).or (f x) := by
  rw [List.reverse_cons, List.findSome?_append, List.findSome?_singleton]

namespace Sessions

variable {s t : Sessions} {caller : Caller} {perWorker workers : Nat} {region : Array UInt8}

/-- A caller has the slot of its number, counted around where there are fewer slots. -/
theorem slotOf_eq (s : Sessions) (caller : Caller) (h : 0 < s.slots.size) :
    s.slotOf caller = .ok (caller.number % s.slots.size) := by
  rw [slotOf, if_neg (by omega)]

/-- Where there are slots enough a caller has that of its number. -/
theorem slotOf_number (h : caller.number < s.slots.size) : s.slotOf caller = .ok caller.number := by
  rw [slotOf_eq s _ (Nat.zero_lt_of_lt h), Nat.mod_eq_of_lt h]

/-- Slots that were just cut off a region: each has a scratch of the same length, and none says that
its registers are loaded. -/
theorem carve_spec (h : carve region perWorker workers = .ok s) :
    s.slots.size = workers ∧ ∀ slot ∈ s.slots, slot.scratch.size = perWorker ∧
      slot.tilesReady = false := by
  obtain ⟨_, -, h⟩ := Checked.bind_eq_ok.1 h
  refine Checked.iterate_induction (fun i s => s.slots.size = i ∧ ∀ slot ∈ s.slots,
    slot.scratch.size = perWorker ∧ slot.tilesReady = false) ⟨rfl, by simp⟩ ?_ h
  rintro i s t - ⟨hSize, hSlots⟩ hStep
  obtain ⟨_, hRequire, hStep⟩ := Checked.bind_eq_ok.1 hStep
  have hFits := require_eq_ok.1 hRequire
  cases hStep
  refine ⟨by rw [Array.size_push, hSize], fun slot hSlot => ?_⟩
  rcases Array.mem_push.1 hSlot with hOld | rfl
  · exact hSlots slot hOld
  · exact ⟨by simp only [Array.size_extract]; omega, rfl⟩

/-- A region that is long enough can be cut. -/
theorem carve_faultsOnly (hWorkers : workers < slotLimit)
    (hRegion : workers * perWorker ≤ region.size) :
    FaultsOnly allowed (carve region perWorker workers) := by
  refine .bind_require hWorkers (.iterate
    (fun i s => i * perWorker + s.rest.size = region.size) (by simp) fun i s hi hSize => ?_)
  have hLe := Nat.mul_le_mul_right perWorker hi
  rw [Nat.succ_mul] at hLe
  have hFits : perWorker ≤ s.rest.size := by omega
  refine ⟨.bind_require hFits (.pure _), fun t hStep => ?_⟩
  obtain ⟨_, -, hStep⟩ := Checked.bind_eq_ok.1 hStep
  cases hStep
  simp only [Array.size_extract, Nat.succ_mul]
  omega

/-- Changing one slot, but not the length of its scratch, leaves all scratches as long as they were.
-/
theorem size_scratch_modify {slots : Array Session} {slot : Nat} {f : Session → Session}
    (h : ∀ x ∈ slots, x.scratch.size = perWorker)
    (hChange : ∀ x, x.scratch.size = perWorker → (f x).scratch.size = perWorker) :
    ∀ x ∈ slots.modify slot f, x.scratch.size = perWorker := by
  intro x hMem
  obtain ⟨i, hi, rfl⟩ := Array.getElem_of_mem hMem
  rw [Array.size_modify] at hi
  have hOld := h _ (Array.getElem_mem hi)
  rw [Array.getElem_modify]
  split
  · exact hChange _ hOld
  · exact hOld

/-- `workers` slots have `perWorker` bytes of scratch each, and `rest` is behind them. -/
structure Cut (s : Sessions) (perWorker workers : Nat) (rest : Array UInt8) : Prop where
  slots : s.slots.size = workers
  scratch : ∀ slot ∈ s.slots, slot.scratch.size = perWorker
  behind : s.rest = rest

variable {rest : Array UInt8}

/-- The slots take as many bytes of the region as their number times the length of a scratch. -/
theorem Cut.size_scratches (h : s.Cut perWorker workers rest) :
    (s.slots.map (·.scratch)).flatten.size = workers * perWorker := by
  have hSizes : (s.slots.map (·.scratch)).map Array.size = Array.replicate workers perWorker := by
    apply Array.ext
    · simp [h.slots]
    · intro i h₁ h₂
      simp [h.scratch]
  rw [Array.size_flatten, hSizes, Array.sum_replicate_nat]

/-- A change to one slot that keeps the length of its scratch keeps the division of the region. -/
theorem Cut.modify (h : s.Cut perWorker workers rest) {slot : Nat} {f : Session → Session}
    (hChange : ∀ x, x.scratch.size = perWorker → (f x).scratch.size = perWorker) :
    Cut { s with slots := s.slots.modify slot f } perWorker workers rest where
  slots := by rw [Array.size_modify, h.slots]
  scratch := size_scratch_modify h.scratch hChange
  behind := h.behind

/-- Between two states of the same slots only bytes of slots differ, and the rest of the region is
kept. -/
theorem Cut.keptFrom_region (hs : s.Cut perWorker workers rest) (ht : t.Cut perWorker workers rest) :
    KeptFrom (workers * perWorker) s.region t.region where
  size_eq := by
    rw [Sessions.region, Sessions.region, Array.size_append, Array.size_append, hs.size_scratches,
      ht.size_scratches, hs.behind, ht.behind]
  kept := fun i hi => by
    rw [Sessions.region, Sessions.region, hs.behind, ht.behind,
      Array.getElem?_append_right (by rw [ht.size_scratches]; exact hi),
      Array.getElem?_append_right (by rw [hs.size_scratches]; exact hi), hs.size_scratches,
      ht.size_scratches]

theorem Cut.le_size_region (h : s.Cut perWorker workers rest) :
    workers * perWorker ≤ s.region.size := by
  rw [Sessions.region, Array.size_append, h.size_scratches]
  exact Nat.le_add_right _ _

theorem Cut.size_scratch (h : s.Cut perWorker workers rest) {bytes : Array UInt8}
    (hBytes : s.scratch caller = .ok bytes) : bytes.size = perWorker := by
  obtain ⟨slot, hSlot, hBytes⟩ := Checked.bind_eq_ok.1 hBytes
  cases hBytes
  have hLt := slotOf_lt hSlot
  rw [Array.getD_eq_getD_getElem?, Array.getElem?_eq_getElem hLt]
  exact h.scratch _ (Array.getElem_mem hLt)

/-- So does leaving other bytes of the same length in a scratch. -/
theorem Cut.setScratch (h : s.Cut perWorker workers rest) {bytes : Array UInt8}
    (hBytes : bytes.size = perWorker) (hSet : s.setScratch caller bytes = .ok t) :
    t.Cut perWorker workers rest := by
  obtain ⟨slot, -, hSet⟩ := Checked.bind_eq_ok.1 hSet
  cases hSet
  exact h.modify fun _ _ => hBytes

/-- Whether a slot is ready has no part in the region. -/
theorem Cut.setTilesReady (h : s.Cut perWorker workers rest) {ready : Bool}
    (hSet : s.setTilesReady caller ready = .ok t) : t.Cut perWorker workers rest := by
  obtain ⟨slot, -, hSet⟩ := Checked.bind_eq_ok.1 hSet
  cases hSet
  exact h.modify fun _ hx => hx

end Sessions

namespace Pool

variable {p q : Pool} {perWorker w workers : Nat} {rest : Array UInt8}

/-- Every thread has a slot of its own with the same length of scratch, and registers, which are
loaded where the slot says so. -/
structure Steady (p : Pool) (perWorker : Nat) : Prop where
  slots : p.sessions.slots.size = p.size
  scratch : ∀ slot ∈ p.sessions.slots, slot.scratch.size = perWorker
  threads : p.size ≤ p.registers.threads.size
  loaded : ∀ i (h : i < p.sessions.slots.size), p.sessions.slots[i].tilesReady = true →
    (p.registers.loaded i).isSome = true

theorem slotOf_worker (h : p.Steady perWorker) (hw : w < p.size) :
    p.sessions.slotOf (.worker w) = .ok w :=
  Sessions.slotOf_number (h.slots.symm ▸ hw)

theorem tilesReady_worker (h : p.Steady perWorker) (hw : w < p.sessions.slots.size) :
    p.sessions.tilesReady (.worker w) = .ok p.sessions.slots[w].tilesReady := by
  rw [Sessions.tilesReady, slotOf_worker h (h.slots ▸ hw)]
  show Except.ok _ = _
  rw [Array.getD_eq_getD_getElem?, Array.getElem?_eq_getElem hw]
  rfl

theorem scratch_worker (h : p.Steady perWorker) (hw : w < p.sessions.slots.size) :
    p.sessions.scratch (.worker w) = .ok p.sessions.slots[w].scratch := by
  rw [Sessions.scratch, slotOf_worker h (h.slots ▸ hw)]
  show Except.ok _ = _
  rw [Array.getD_eq_getD_getElem?, Array.getElem?_eq_getElem hw]
  rfl

/-- A thread that has been configured has its registers loaded, and no other thread has changed. -/
theorem loaded_configure {r t : TileRegisters} {pair : Nat} {config : TileConfig}
    (hThread : w < r.threads.size) (h : r.configure pair w config = .ok t) :
    t.threads.size = r.threads.size ∧
      ∀ i, t.loaded i = if i = w then some config else r.loaded i := by
  obtain ⟨_, -, h⟩ := Checked.bind_eq_ok.1 h
  cases h
  refine ⟨Array.size_setIfInBounds, fun i => ?_⟩
  simp only [TileRegisters.loaded, Array.getElem?_setIfInBounds, hThread, if_true]
  by_cases hi : w = i
  · simp [hi]
  · rw [if_neg hi, if_neg (Ne.symm hi)]

/-- After a worker has asked for the tile registers they are loaded on its thread, and the other
workers have theirs as they had. -/
theorem steady_ensureTiles (h : p.Steady perWorker) (hw : w < p.size)
    (hRun : p.ensureTiles (.worker w) .fullInt8 = .ok q) :
    q.size = p.size ∧ q.Steady perWorker ∧ (q.registers.loaded w).isSome = true := by
  have hSlot : w < p.sessions.slots.size := h.slots ▸ hw
  rw [ensureTiles, tilesReady_worker h hSlot] at hRun
  change (if p.sessions.slots[w].tilesReady = true then _ else _) = _ at hRun
  split at hRun
  · next hReady =>
    cases hRun
    exact ⟨rfl, h, h.loaded w hSlot hReady⟩
  · obtain ⟨registers, hConfigure, hRun⟩ := Checked.bind_eq_ok.1 hRun
    obtain ⟨sessions, hSessions, hRun⟩ := Checked.bind_eq_ok.1 hRun
    cases hRun
    rw [Sessions.setTilesReady, slotOf_worker h hw] at hSessions
    cases hSessions
    obtain ⟨hThreads, hLoaded⟩ := loaded_configure (Nat.lt_of_lt_of_le hw h.threads) hConfigure
    refine ⟨rfl, ⟨?_, ?_, ?_, ?_⟩, ?_⟩
    · simp only [Array.size_modify, h.slots]
    · dsimp only
      exact Sessions.size_scratch_modify h.scratch fun _ hx => hx
    · exact hThreads ▸ h.threads
    · intro i hi hReady
      rw [Array.size_modify] at hi
      rw [hLoaded]
      rw [Array.getElem_modify] at hReady
      split at hReady
      · next hSame => simp [hSame]
      · next hOther =>
        rw [if_neg (Ne.symm hOther)]
        exact h.loaded i hi hReady
    · rw [hLoaded, if_pos rfl]
      rfl

/-- A worker of the pool gets its registers without a fault, whether or not they were loaded before.
-/
theorem ensureTiles_faultsOnly (h : p.Steady perWorker) (hw : w < p.size) :
    FaultsOnly allowed (p.ensureTiles (.worker w) .fullInt8) := by
  rw [ensureTiles, tilesReady_worker h (h.slots ▸ hw)]
  refine .bind_ok rfl ?_
  split
  · exact .pure _
  · refine .bind (.bind_require TileConfig.isValid_fullInt8 (.pure _)) fun registers _ => ?_
    rw [Sessions.setTilesReady, slotOf_worker h hw]
    exact .bind_ok rfl (.pure _)

/-- A worker may leave anything of the same length in its scratch, and the pool stays as its tasks
need it. -/
theorem steady_setScratch (h : p.Steady perWorker) (hw : w < p.size) {bytes : Array UInt8}
    (hBytes : bytes.size = perWorker) {sessions : Sessions}
    (hRun : p.sessions.setScratch (.worker w) bytes = .ok sessions) :
    Steady { p with sessions } perWorker := by
  rw [Sessions.setScratch, slotOf_worker h hw] at hRun
  cases hRun
  refine ⟨?_, ?_, h.threads, ?_⟩
  · simp only [Array.size_modify, h.slots]
  · dsimp only
    exact Sessions.size_scratch_modify h.scratch fun _ _ => hBytes
  · intro i hi hReady
    rw [Array.size_modify] at hi
    rw [Array.getElem_modify] at hReady
    split at hReady <;> exact h.loaded i hi hReady

/-- Releasing does not fault where there are slots, since every worker finds the slot of its number.
-/
theorem releaseAll_faultsOnly (h : 0 < p.sessions.slots.size) :
    FaultsOnly allowed p.releaseAll := by
  refine .iterate (fun _ state => 0 < state.1.sessions.slots.size) h ?_
  rintro w ⟨q, released⟩ - hSlots
  have hSlot := Sessions.slotOf_eq q.sessions (.worker w) hSlots
  have hSet : q.sessions.setTilesReady (.worker w) false = .ok { q.sessions with
      slots := q.sessions.slots.modify (w % q.sessions.slots.size) fun x =>
        { x with tilesReady := false } } := by
    rw [Sessions.setTilesReady, hSlot]
    rfl
  have hOne : ∃ next more, q.releaseOne w = .ok (next, more) ∧
      next.sessions.slots.size = q.sessions.slots.size := by
    rw [releaseOne, Sessions.tilesReady, hSlot]
    change ∃ next more, (if _ = true then _ else _) = _ ∧ _
    split
    · rw [hSet]
      exact ⟨_, _, rfl, by simp⟩
    · exact ⟨_, _, rfl, rfl⟩
  obtain ⟨next, more, hRun, hSize⟩ := hOne
  refine ⟨.bind_ok hRun (.pure _), ?_⟩
  rintro ⟨last, total⟩ hStep
  obtain ⟨_, hLast, hStep⟩ := Checked.bind_eq_ok.1 hStep
  obtain rfl := Except.ok.inj (hLast.symm.trans hRun)
  cases hStep
  exact hSize ▸ hSlots

/-- Loading registers leaves the scratch alone. -/
theorem cut_ensureTiles (h : p.sessions.Cut perWorker workers rest) {caller : Caller}
    {config : TileConfig} (hRun : p.ensureTiles caller config = .ok q) :
    q.sessions.Cut perWorker workers rest := by
  obtain ⟨ready, -, hRun⟩ := Checked.bind_eq_ok.1 hRun
  cases ready with
  | true =>
      cases hRun
      exact h
  | false =>
      obtain ⟨registers, -, hRun⟩ := Checked.bind_eq_ok.1 hRun
      obtain ⟨sessions, hSet, hRun⟩ := Checked.bind_eq_ok.1 hRun
      cases hRun
      exact h.setTilesReady hSet

/-- So does giving back those of one worker. -/
theorem cut_releaseOne (h : p.sessions.Cut perWorker workers rest) {released : Nat}
    (hRun : p.releaseOne w = .ok (q, released)) : q.sessions.Cut perWorker workers rest := by
  obtain ⟨ready, -, hRun⟩ := Checked.bind_eq_ok.1 hRun
  cases ready with
  | false =>
      cases hRun
      exact h
  | true =>
      obtain ⟨sessions, hSet, hRun⟩ := Checked.bind_eq_ok.1 hRun
      cases hRun
      exact h.setTilesReady hSet

/-- Releasing the registers leaves the scratch alone. -/
theorem cut_releaseAll (h : p.sessions.Cut perWorker workers rest) {released : Nat}
    (hRun : p.releaseAll = .ok (q, released)) : q.sessions.Cut perWorker workers rest := by
  refine Checked.iterate_induction
    (fun _ state => state.1.sessions.Cut perWorker workers rest) h ?_ hRun
  rintro w ⟨s, n⟩ ⟨t, m⟩ - hBefore hStep
  obtain ⟨⟨next, more⟩, hOne, hStep⟩ := Checked.bind_eq_ok.1 hStep
  cases hStep
  exact cut_releaseOne hBefore hOne

end Pool

end QuantAttention
