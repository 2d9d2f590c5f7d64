import Mathlib.Data.List.Nodup
import QuantAttention.Proofs.Session

/-! What pools do to tile registers. A caller has its registers loaded unless its slot says that
they are, and a release gives back what is loaded on the threads of workers whose slots say so.
Where only workers ask, a list names those that have loaded their registers; slots, registers and
counts follow from it. -/

namespace QuantAttention

namespace TileRegisters

variable {r t : TileRegisters} {thread : Nat} {config : TileConfig}

def countsOf (r : TileRegisters) (pair : Nat) : TileCounts := r.counts.getD pair {}

def providerCounts (r : TileRegisters) : TileCounts := r.counts.getD 0 {}

theorem loaded_initial (threads pairs i : Nat) : (initial threads pairs).loaded i = none := by
  simp only [initial, loaded, Array.getElem?_replicate]
  split <;> rfl

/-- Loading puts the configuration onto one thread and counts it in one pair. -/
theorem configure_spec {pair : Nat} (hThread : thread < r.threads.size)
    (hPair : pair < r.counts.size) (h : r.configure pair thread config = .ok t) :
    t.threads.size = r.threads.size ∧ t.counts.size = r.counts.size ∧
      (∀ i, t.loaded i = if i = thread then some config else r.loaded i) ∧
      ∀ i, t.countsOf i = if i = pair then
        { r.countsOf pair with configured := (r.countsOf pair).configured + 1 }
      else r.countsOf i := by
  obtain ⟨hSize, hLoaded⟩ := Pool.loaded_configure hThread h
  obtain ⟨_, -, h⟩ := Checked.bind_eq_ok.1 h
  cases h
  exact ⟨hSize, Array.size_modify, hLoaded, fun _ => getD_modify hPair⟩

/-- What is loaded is given back and counted. Where nothing is loaded, neither registers nor counts
change. -/
theorem release_spec {pair : Nat} (thread : Nat) (hPair : pair < r.counts.size) :
    (r.release pair thread).threads.size = r.threads.size ∧
      (r.release pair thread).counts.size = r.counts.size ∧
      (∀ i, (r.release pair thread).loaded i = if i = thread then none else r.loaded i) ∧
      ∀ i, (r.release pair thread).countsOf i = if i = pair then
        { r.countsOf pair with released := (r.countsOf pair).released +
          if (r.loaded thread).isSome then 1 else 0 } else r.countsOf i := by
  rw [release]
  by_cases hSome : (r.loaded thread).isSome = true
  · rw [if_pos hSome, if_pos hSome]
    refine ⟨Array.size_setIfInBounds, Array.size_modify, fun i => ?_, fun _ => getD_modify hPair⟩
    simp only [loaded, Array.getElem?_setIfInBounds]
    by_cases hi : thread = i
    · subst hi
      rw [if_pos rfl, if_pos rfl]
      split <;> rfl
    · rw [if_neg hi, if_neg (Ne.symm hi)]
  · rw [if_neg hSome, if_neg hSome]
    refine ⟨rfl, rfl, fun i => ?_, fun i => ?_⟩
    · split
      · next hi => rw [hi, Option.not_isSome_iff_eq_none.1 hSome]
      · rfl
    · split
      · next hi => rw [hi, Nat.add_zero]
      · rfl

end TileRegisters

namespace Sessions

variable {s t : Sessions} {caller : Caller} {w i : Nat}

def ready (s : Sessions) (slot : Nat) : Bool := (s.slots.getD slot default).tilesReady

theorem tilesReady_eq (caller : Caller) (h : caller.number < s.slots.size) :
    s.tilesReady caller = .ok (s.ready caller.number) := by
  rw [tilesReady, slotOf_number h]
  rfl

/-- A change to one slot changes what that slot says, and no other. -/
theorem ready_modify (hSlot : w < s.slots.size) {f : Session → Session} :
    ready { s with slots := s.slots.modify w f } i =
      if i = w then (f (s.slots.getD w default)).tilesReady else s.ready i := by
  rw [ready, getD_modify hSlot]
  split <;> rfl

/-- Setting what a slot says sets it for the slot of the caller's number alone. -/
theorem setTilesReady_spec {value : Bool} (h : s.setTilesReady caller value = .ok t)
    (hSlot : caller.number < s.slots.size) :
    t.slots.size = s.slots.size ∧
      ∀ i, t.ready i = if i = caller.number then value else s.ready i := by
  rw [setTilesReady, slotOf_number hSlot] at h
  cases h
  exact ⟨Array.size_modify, fun i => ready_modify hSlot⟩

theorem setScratch_ready {bytes : Array UInt8} (h : s.setScratch caller bytes = .ok t)
    (hSlot : caller.number < s.slots.size) :
    t.slots.size = s.slots.size ∧ ∀ i, t.ready i = s.ready i := by
  rw [setScratch, slotOf_number hSlot] at h
  cases h
  refine ⟨Array.size_modify, fun i => ?_⟩
  rw [ready_modify hSlot]
  by_cases hi : i = caller.number
  · rw [if_pos hi, hi]
    rfl
  · rw [if_neg hi]

end Sessions

namespace Pool

variable {p q : Pool} {start : TileRegisters} {workers : List Nat} {w : Nat}

structure Loading (p : Pool) (caller : Caller) (config : TileConfig) (q : Pool) : Prop where
  size : q.size = p.size
  slots : q.sessions.slots.size = p.sessions.slots.size
  threads : q.registers.threads.size = p.registers.threads.size
  pairs : q.registers.counts.size = p.registers.counts.size
  ready : ∀ i, q.sessions.ready i = if i = caller.number then true else p.sessions.ready i
  loaded : ∀ i, q.registers.loaded i =
    if i = caller.thread p.size then some config else p.registers.loaded i
  counts : q.registers.providerCounts = { p.registers.providerCounts with
    configured := p.registers.providerCounts.configured + 1 }

/-- Nothing is done for a caller whose slot is ready. For any other the registers are loaded on its
thread and its slot says so. -/
theorem ensureTiles_cases {caller : Caller} {config : TileConfig}
    (hSlot : caller.number < p.sessions.slots.size)
    (hThread : caller.thread p.size < p.registers.threads.size)
    (hPairs : 0 < p.registers.counts.size) (hRun : p.ensureTiles caller config = .ok q) :
    (p.sessions.ready caller.number = true ∧ q = p) ∨
      (p.sessions.ready caller.number = false ∧ p.Loading caller config q) := by
  rw [ensureTiles, Sessions.tilesReady_eq caller hSlot] at hRun
  change (if p.sessions.ready caller.number = true then _ else _) = _ at hRun
  cases hReady : p.sessions.ready caller.number with
  | true =>
      rw [hReady] at hRun
      cases hRun
      exact .inl ⟨rfl, rfl⟩
  | false =>
      rw [hReady] at hRun
      obtain ⟨registers, hConfigure, hRun⟩ := Checked.bind_eq_ok.1 hRun
      obtain ⟨sessions, hSessions, hRun⟩ := Checked.bind_eq_ok.1 hRun
      cases hRun
      obtain ⟨hThreads, hCounts, hLoaded, hProvider⟩ :=
        TileRegisters.configure_spec hThread hPairs hConfigure
      obtain ⟨hSlots, hReadyAfter⟩ := Sessions.setTilesReady_spec hSessions hSlot
      exact .inr ⟨rfl, rfl, hSlots, hThreads, hCounts, hReadyAfter, hLoaded,
        (hProvider 0).trans (if_pos rfl)⟩

/-- A pool with slots serves whoever asks for a valid configuration, whatever is loaded already. -/
theorem exists_ensureTiles {caller : Caller} {config : TileConfig}
    (hSlot : caller.number < p.sessions.slots.size)
    (hValid : config.isValid = true) : ∃ q, p.ensureTiles caller config = .ok q := by
  rw [ensureTiles, Sessions.tilesReady_eq caller hSlot]
  change ∃ q, (if p.sessions.ready caller.number = true then _ else _) = _
  split
  · exact ⟨p, rfl⟩
  · rw [TileRegisters.configure, Sessions.setTilesReady, Sessions.slotOf_number hSlot, require,
      if_pos hValid]
    exact ⟨_, rfl⟩

/-- Since the registers were those of `start`, the given workers have loaded them, each once, and
nothing has been released. -/
structure Loads (start : TileRegisters) (workers : List Nat) (p : Pool) : Prop where
  slots : p.sessions.slots.size = p.size
  threads : p.registers.threads.size = start.threads.size
  pairs : p.registers.counts.size = start.counts.size
  nodup : workers.Nodup
  inside : ∀ w ∈ workers, w < p.size
  ready : ∀ w < p.size, p.sessions.ready w = true ↔ w ∈ workers
  loaded : ∀ i, p.registers.loaded i =
    if i ∈ workers then some .fullInt8 else start.loaded i
  counts : p.registers.providerCounts = { start.providerCounts with
    configured := start.providerCounts.configured + workers.length }

/-- Registers for every worker, and counts for the provider. -/
structure Roomy (start : TileRegisters) (size : Nat) : Prop where
  threads : size ≤ start.threads.size
  pairs : 0 < start.counts.size

/-- The list of workers after worker `w` has asked for its registers. -/
def addLoad (workers : List Nat) (w : Nat) : List Nat :=
  if w ∈ workers then workers else workers ++ [w]

theorem mem_addLoad {i : Nat} : i ∈ addLoad workers w ↔ i ∈ workers ∨ i = w := by
  rw [addLoad]
  split
  · next hOld =>
    constructor
    · exact .inl
    · rintro (h | rfl)
      · exact h
      · exact hOld
  · simp

/-- A worker that has asked for its registers has them, and has loaded them only if it had to. Of
the others nothing has changed. -/
theorem loads_ensureTiles (h : p.Loads start workers) (hRoomy : Roomy start p.size)
    (hw : w < p.size) (hRun : p.ensureTiles (.worker w) .fullInt8 = .ok q) :
    q.size = p.size ∧ q.Loads start (addLoad workers w) ∧
      q.registers.loaded w = some .fullInt8 := by
  obtain ⟨hReady, rfl⟩ | ⟨hReady, hLoading⟩ := ensureTiles_cases (h.slots ▸ hw)
    (Nat.lt_of_lt_of_le hw (h.threads ▸ hRoomy.threads)) (h.pairs ▸ hRoomy.pairs) hRun
  · have hMem := (h.ready w hw).1 hReady
    rw [addLoad, if_pos hMem]
    exact ⟨rfl, h, (h.loaded w).trans (if_pos hMem)⟩
  · have hNew : w ∉ workers := fun hMem =>
      Bool.false_ne_true (hReady.symm.trans ((h.ready w hw).2 hMem))
    refine ⟨hLoading.size, ?_, (hLoading.loaded w).trans (if_pos rfl)⟩
    exact {
      slots := by rw [hLoading.slots, h.slots, hLoading.size]
      threads := hLoading.threads.trans h.threads
      pairs := hLoading.pairs.trans h.pairs
      nodup := by
        rw [addLoad, if_neg hNew, ← List.concat_eq_append]
        exact h.nodup.concat hNew
      inside := fun i hi => by
        rw [hLoading.size]
        rcases mem_addLoad.1 hi with hOld | rfl
        · exact h.inside i hOld
        · exact hw
      ready := fun i hi => by
        rw [mem_addLoad, ← h.ready i (hLoading.size ▸ hi), hLoading.ready]
        by_cases hi : i = w <;> simp [Caller.number, hi]
      loaded := fun i => by
        rw [hLoading.loaded, h.loaded]
        simp only [mem_addLoad, Caller.thread]
        by_cases hi : i = w <;> simp [hi]
      counts := by
        rw [hLoading.counts, h.counts, addLoad, if_neg hNew, List.length_append]
        rfl }

/-- What a worker leaves in its scratch does not matter. -/
theorem Loads.setScratch (h : p.Loads start workers) (hw : w < p.size) {bytes : Array UInt8}
    {sessions : Sessions} (hRun : p.sessions.setScratch (.worker w) bytes = .ok sessions) :
    Loads start workers { p with sessions } := by
  obtain ⟨hSlots, hReady⟩ := Sessions.setScratch_ready hRun (h.slots ▸ hw)
  exact { h with
    slots := hSlots.trans h.slots
    ready := fun i hi => by rw [hReady, h.ready i hi] }

/-- How many of the first `turn` slots say that their registers are loaded. -/
def readyBelow (p : Pool) (turn : Nat) : Nat := (List.range turn).countP p.sessions.ready

/-- How many of the first `turn` slots say so rightly. -/
def heldBelow (p : Pool) (turn : Nat) : Nat :=
  (List.range turn).countP fun i => p.sessions.ready i && (p.registers.loaded i).isSome

/-- Slots are counted in the order in which a release visits them. -/
theorem readyBelow_succ (p : Pool) (turn : Nat) : p.readyBelow (turn + 1) =
    p.readyBelow turn + if p.sessions.ready turn = true then 1 else 0 := by
  rw [readyBelow, List.range_succ, List.countP_append, List.countP_singleton, readyBelow]

theorem heldBelow_succ (p : Pool) (turn : Nat) : p.heldBelow (turn + 1) = p.heldBelow turn +
    if (p.sessions.ready turn && (p.registers.loaded turn).isSome) = true then 1 else 0 := by
  rw [heldBelow, List.range_succ, List.countP_append, List.countP_singleton, heldBelow]

/-- Where slots are right about the registers they say are loaded, all of these are, and a release
gives back as many as it finds ready. -/
theorem heldBelow_eq {turn : Nat} (h : ∀ i < turn, p.sessions.ready i = true →
    (p.registers.loaded i).isSome = true) : p.heldBelow turn = p.readyBelow turn := by
  refine List.countP_congr fun i hi => ?_
  rw [Bool.and_eq_true]
  exact and_iff_left_of_imp (h i (List.mem_range.1 hi))

/-- The first `turn` workers have been asked to give back their registers. -/
structure Releasing (p : Pool) (turn : Nat) (q : Pool) (released : Nat) : Prop where
  size : q.size = p.size
  slots : q.sessions.slots.size = p.sessions.slots.size
  threads : q.registers.threads.size = p.registers.threads.size
  pairs : q.registers.counts.size = p.registers.counts.size
  ready : ∀ i, q.sessions.ready i = (decide (turn ≤ i) && p.sessions.ready i)
  loaded : ∀ i, q.registers.loaded i =
    if i < turn ∧ p.sessions.ready i = true then none else p.registers.loaded i
  counts : q.registers.providerCounts = { p.registers.providerCounts with
    released := p.registers.providerCounts.released + p.heldBelow turn }
  released : released = p.readyBelow turn

/-- Before its first turn a release has changed nothing. -/
theorem Releasing.zero (p : Pool) : p.Releasing 0 p 0 where
  size := rfl
  slots := rfl
  threads := rfl
  pairs := rfl
  ready := fun i => by rw [decide_eq_true (Nat.zero_le i), Bool.true_and]
  loaded := fun i => by rw [if_neg fun h => Nat.not_lt_zero i h.1]
  counts := rfl
  released := rfl

/-- A worker whose slot is not ready is passed over, and any other gives back what its thread has
loaded. -/
theorem Releasing.step {turn released more : Nat} {next : Pool} (h : p.Releasing turn q released)
    (hPairs : 0 < p.registers.counts.size) (hTurn : turn < p.sessions.slots.size)
    (hRun : q.releaseOne turn = .ok (next, more)) :
    p.Releasing (turn + 1) next (released + more) := by
  have hSlot : turn < q.sessions.slots.size := h.slots ▸ hTurn
  have hReady : q.sessions.ready turn = p.sessions.ready turn := by
    rw [h.ready, decide_eq_true (Nat.le_refl turn), Bool.true_and]
  have hLoaded : q.registers.loaded turn = p.registers.loaded turn := by
    rw [h.loaded, if_neg fun hBefore => Nat.lt_irrefl turn hBefore.1]
  have hLater {i : Nat} (hi : i ≠ turn) : turn + 1 ≤ i ↔ turn ≤ i := by omega
  have hEarlier {i : Nat} (hi : i ≠ turn) : i < turn + 1 ↔ i < turn := by omega
  rw [releaseOne, Sessions.tilesReady_eq (.worker turn) hSlot] at hRun
  change (if q.sessions.ready turn = true then _ else _) = _ at hRun
  rw [hReady] at hRun
  cases hAsked : p.sessions.ready turn with
  | true =>
      rw [hAsked] at hRun
      obtain ⟨sessions, hSet, hRun⟩ := Checked.bind_eq_ok.1 hRun
      cases hRun
      obtain ⟨hThreads, hCounts, hAfter, hReleased⟩ :=
        TileRegisters.release_spec turn (h.pairs ▸ hPairs)
      obtain ⟨hSlots, hReadyAfter⟩ := Sessions.setTilesReady_spec hSet hSlot
      change ∀ i, sessions.ready i = if i = turn then false else q.sessions.ready i at hReadyAfter
      exact {
        size := h.size
        slots := hSlots.trans h.slots
        threads := hThreads.trans h.threads
        pairs := hCounts.trans h.pairs
        ready := fun i => by
          rw [hReadyAfter, h.ready]
          by_cases hi : i = turn
          · rw [if_pos hi, hi, decide_eq_false (Nat.not_succ_le_self turn), Bool.false_and]
          · simp only [if_neg hi, hLater hi]
        loaded := fun i => by
          rw [hAfter, h.loaded]
          by_cases hi : i = turn
          · simp [hi, hAsked]
          · simp only [if_neg hi, hEarlier hi]
        counts := by
          have hProvider : q.registers.countsOf 0 = _ := h.counts
          refine (hReleased 0).trans ((if_pos rfl).trans ?_)
          rw [hProvider, hLoaded, heldBelow_succ, hAsked, Bool.true_and, ← Nat.add_assoc]
        released := by rw [h.released, readyBelow_succ, hAsked]; rfl }
  | false =>
      rw [hAsked] at hRun
      cases hRun
      exact { h with
        ready := fun i => by
          rw [h.ready]
          by_cases hi : i = turn
          · rw [hi, hAsked, Bool.and_false, Bool.and_false]
          · simp only [hLater hi]
        loaded := fun i => by
          rw [h.loaded]
          by_cases hi : i = turn
          · simp [hi, hAsked]
          · simp only [hEarlier hi]
        counts := by rw [h.counts, heldBelow_succ, hAsked]; rfl
        released := by rw [h.released, readyBelow_succ, hAsked]; rfl }

/-- A release gives back what is loaded on the threads of the workers whose slots are ready. The
induction is on the turns of its loop. -/
theorem releasing_releaseAll {released : Nat} (hSlots : p.size ≤ p.sessions.slots.size)
    (hPairs : 0 < p.registers.counts.size) (hRun : p.releaseAll = .ok (q, released)) :
    p.Releasing p.size q released := by
  refine Checked.iterate_induction (fun turn state => p.Releasing turn state.1 state.2)
    (.zero p) ?_ hRun
  rintro turn ⟨s, n⟩ ⟨t, m⟩ hTurn hBefore hStep
  obtain ⟨⟨next, more⟩, hOne, hStep⟩ := Checked.bind_eq_ok.1 hStep
  cases hStep
  exact hBefore.step hPairs (Nat.lt_of_lt_of_le hTurn hSlots) hOne

/-- Slots that are ready are those of the workers that have loaded their registers. -/
theorem Loads.readyBelow_eq (h : p.Loads start workers) : p.readyBelow p.size = workers.length := by
  rw [readyBelow, List.countP_eq_length_filter]
  refine List.Perm.length_eq ((List.perm_ext_iff_of_nodup (List.nodup_range.filter _) h.nodup).2
    fun w => ?_)
  rw [List.mem_filter, List.mem_range]
  constructor
  · rintro ⟨hw, hReady⟩
    exact (h.ready w hw).1 hReady
  · intro hMem
    exact ⟨h.inside w hMem, (h.ready w (h.inside w hMem)).2 hMem⟩

/-- What a release finds loaded are the registers of the workers that have loaded theirs. -/
theorem Loads.heldBelow_eq (h : p.Loads start workers) : p.heldBelow p.size = workers.length := by
  rw [Pool.heldBelow_eq, h.readyBelow_eq]
  intro w hw hReady
  rw [h.loaded, if_pos ((h.ready w hw).1 hReady), Option.isSome_some]

/-- A release gives back what the workers have loaded, each of them once, and nothing else. -/
theorem releaseAll_spec {released : Nat} (h : p.Loads start workers)
    (hPairs : 0 < start.counts.size) (hRun : p.releaseAll = .ok (q, released)) :
    released = workers.length ∧ q.registers.threads.size = start.threads.size ∧
      q.registers.counts.size = start.counts.size ∧
      (∀ i, q.registers.loaded i = if i ∈ workers then none else start.loaded i) ∧
      q.registers.providerCounts = {
        configured := start.providerCounts.configured + workers.length
        released := start.providerCounts.released + workers.length } := by
  have hAll := releasing_releaseAll (Nat.le_of_eq h.slots.symm) (h.pairs ▸ hPairs) hRun
  refine ⟨hAll.released.trans h.readyBelow_eq, hAll.threads.trans h.threads,
    hAll.pairs.trans h.pairs, fun i => ?_, by rw [hAll.counts, h.counts, h.heldBelow_eq]⟩
  rw [hAll.loaded, h.loaded]
  by_cases hMem : i ∈ workers
  · have hInside := h.inside i hMem
    rw [if_pos ⟨hInside, (h.ready i hInside).2 hMem⟩, if_pos hMem]
  · rw [if_neg hMem, if_neg hMem, if_neg fun hReady => hMem ((h.ready i hReady.1).1 hReady.2)]

end Pool

end QuantAttention
