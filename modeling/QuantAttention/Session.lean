import QuantAttention.Tile.Registers

/-!
Sessions of the workers of one call. Each slot owns a part of the scratch region and remembers
whether its worker has loaded the tile registers during the call. Slots are taken by worker number,
wrapped around where there are fewer of them; a caller that is no worker takes the first.
`region_carve` says that the slots and the rest of the region are the whole of it.
-/

namespace QuantAttention

/-- Who asks for a session: a worker of the pool, or a thread outside it. -/
inductive Caller where
  | worker (number : Nat)
  | outside
  deriving DecidableEq, Repr

namespace Caller

/-- The number by which the caller's slot is chosen. -/
def number : Caller → Nat
  | worker i => i
  | outside => 0

/-- The registers of the caller, where the workers of a pool of `pool` threads come first. -/
def thread (pool : Nat) : Caller → Nat
  | worker i => i
  | outside => pool

end Caller

structure Session where
  scratch : Array UInt8
  /-- Whether this slot has loaded the tile registers and not released them. -/
  tilesReady : Bool
  deriving DecidableEq, Repr, Inhabited

structure Sessions where
  slots : Array Session
  /-- What of the region belongs to no slot. -/
  rest : Array UInt8
  deriving DecidableEq, Repr

namespace Sessions

/-- A table has fewer slots than this. -/
def slotLimit : Nat := 288230376151711744

/-- Cut the scratch of one more slot off the rest of the region. -/
def carveOne (perWorker : Nat) (s : Sessions) : Checked Sessions := do
  require (perWorker ≤ s.rest.size) .outOfBounds
  return {
    slots := s.slots.push ⟨s.rest.extract 0 perWorker, false⟩
    rest := s.rest.extract perWorker s.rest.size }

/-- Slots for `workers` workers, with `perWorker` bytes of the region each. -/
def carve (region : Array UInt8) (perWorker workers : Nat) : Checked Sessions := do
  require (workers < slotLimit) .sizeOverflow
  Checked.iterate workers (fun _ s => carveOne perWorker s) ⟨#[], region⟩

/-- The bytes of the region, as the slots left them. -/
def region (s : Sessions) : Array UInt8 := (s.slots.map (·.scratch)).flatten ++ s.rest

theorem region_carveOne {perWorker : Nat} {s t : Sessions} (h : carveOne perWorker s = .ok t) :
    t.region = s.region := by
  obtain ⟨_, hRequire, h⟩ := Checked.bind_eq_ok.1 h
  have hFits := require_eq_ok.1 hRequire
  cases h
  have hJoin : s.rest.extract 0 perWorker ++ s.rest.extract perWorker s.rest.size = s.rest := by
    rw [Array.extract_append_extract, Nat.zero_min, Nat.max_eq_right hFits, Array.extract_size]
  simp only [region, Array.map_push, Array.flatten_push, Array.append_assoc, hJoin]

theorem region_carve {region : Array UInt8} {perWorker workers : Nat} {s : Sessions}
    (h : carve region perWorker workers = .ok s) : s.region = region := by
  obtain ⟨_, _, h⟩ := Checked.bind_eq_ok.1 h
  refine Checked.iterate_induction (fun _ t => t.region = region) ?_ ?_ h
  · simp [Sessions.region]
  · intro _ _ _ _ hBefore hStep
    exact (region_carveOne hStep).trans hBefore

def slotOf (s : Sessions) (caller : Caller) : Checked Nat :=
  if s.slots.size = 0 then .error .divideByZero else .ok (caller.number % s.slots.size)

def scratch (s : Sessions) (caller : Caller) : Checked (Array UInt8) := do
  return (s.slots.getD (← s.slotOf caller) default).scratch

def setScratch (s : Sessions) (caller : Caller) (bytes : Array UInt8) : Checked Sessions := do
  return { s with slots := s.slots.modify (← s.slotOf caller) fun x => { x with scratch := bytes } }

theorem slotOf_lt {s : Sessions} {caller : Caller} {slot : Nat}
    (h : s.slotOf caller = .ok slot) : slot < s.slots.size := by
  rw [slotOf] at h
  split at h
  · cases h
  · cases h
    exact Nat.mod_lt _ (by omega)

theorem scratch_setScratch {s t : Sessions} {caller : Caller} {bytes : Array UInt8}
    (h : s.setScratch caller bytes = .ok t) : t.scratch caller = .ok bytes := by
  obtain ⟨slot, hSlot, h⟩ := Checked.bind_eq_ok.1 h
  cases h
  have hLt := slotOf_lt hSlot
  have hSame : Sessions.slotOf { s with
      slots := s.slots.modify slot fun x => { x with scratch := bytes } } caller = .ok slot := by
    rw [← hSlot, slotOf, slotOf, Array.size_modify]
  rw [scratch, hSame]
  show Except.ok _ = _
  rw [Array.getD_eq_getD_getElem?, Array.getElem?_modify, if_pos rfl, Array.getElem?_eq_getElem hLt]
  rfl

def tilesReady (s : Sessions) (caller : Caller) : Checked Bool := do
  return (s.slots.getD (← s.slotOf caller) default).tilesReady

def setTilesReady (s : Sessions) (caller : Caller) (ready : Bool) : Checked Sessions := do
  return { s with
    slots := s.slots.modify (← s.slotOf caller) fun x => { x with tilesReady := ready } }

end Sessions

/-- The sessions of a pool together with the tile registers of its threads. The registers are
counted in pair `0`. -/
structure Pool where
  size : Nat
  sessions : Sessions
  registers : TileRegisters
  deriving DecidableEq

namespace Pool

/-- Load the configuration on the caller's thread, unless its slot has it already. -/
def ensureTiles (p : Pool) (caller : Caller) (config : TileConfig) : Checked Pool := do
  if ← p.sessions.tilesReady caller then return p
  let registers ← p.registers.configure 0 (caller.thread p.size) config
  let sessions ← p.sessions.setTilesReady caller true
  return { p with sessions, registers }

/-- Release the registers of one worker, if its slot has them loaded. Returns how many slots were
released, none or one. -/
def releaseOne (p : Pool) (worker : Nat) : Checked (Pool × Nat) := do
  let caller := Caller.worker worker
  if ← p.sessions.tilesReady caller then
    let sessions ← p.sessions.setTilesReady caller false
    return ({ p with sessions, registers := p.registers.release 0 worker }, 1)
  return (p, 0)

/-- Release the registers on every worker of the pool whose slot has them loaded. Returns how many
slots were released. -/
def releaseAll (p : Pool) : Checked (Pool × Nat) :=
  Checked.iterate p.size (fun worker (p, released) => do
    let (p, more) ← p.releaseOne worker
    return (p, released + more)) (p, 0)

/-- Set every scratch byte of a caller. Returns how many there are. -/
def fillScratch (p : Pool) (caller : Caller) (byte : UInt8) : Checked (Pool × Nat) := do
  let bytes ← p.sessions.scratch caller
  let sessions ← p.sessions.setScratch caller (Array.replicate bytes.size byte)
  return ({ p with sessions }, bytes.size)

end Pool

end QuantAttention
