import QuantAttention.Tile.Config

/-!
Tile registers. Each thread has registers of its own, loaded with a configuration or not. Loads and
releases are counted in pairs of counters; a handle works on one pair, which clones of the handle
share, and a kernel provider has a pair for all handles it gives out. What is done through handles is
done effect by effect, so that a fault leaves behind what came before it.
-/

namespace QuantAttention

/-- How often a configuration was loaded, and how often a loaded one was given back. -/
structure TileCounts where
  configured : Nat := 0
  released : Nat := 0
  deriving DecidableEq, Repr, Inhabited

/-- The registers of all threads, and all pairs of counters. -/
structure TileRegisters where
  threads : Array (Option TileConfig)
  counts : Array TileCounts
  deriving DecidableEq

namespace TileRegisters

/-- Nothing is loaded and nothing has been counted. -/
def initial (threads pairs : Nat) : TileRegisters :=
  ⟨Array.replicate threads none, Array.replicate pairs {}⟩

/-- What thread `thread` has loaded. -/
def loaded (r : TileRegisters) (thread : Nat) : Option TileConfig := r.threads[thread]?.join

/-- Load a configuration on a thread, in place of what is loaded there. -/
def configure (r : TileRegisters) (pair thread : Nat) (config : TileConfig) :
    Checked TileRegisters := do
  require config.isValid .contract
  return {
    threads := r.threads.setIfInBounds thread (some config)
    counts := r.counts.modify pair fun c => { c with configured := c.configured + 1 } }

/-- Give back what is loaded on a thread. Where nothing is loaded, nothing happens. -/
def release (r : TileRegisters) (pair thread : Nat) : TileRegisters :=
  if (r.loaded thread).isSome then
    { threads := r.threads.setIfInBounds thread none
      counts := r.counts.modify pair fun c => { c with released := c.released + 1 } }
  else r

end TileRegisters

/-- Registers with the handles on them. Pair `0` belongs to the kernel provider. -/
structure RegisterHandles where
  registers : TileRegisters
  /-- The pair of counters of each handle. -/
  pairs : Array Nat
  deriving DecidableEq

/-- Through whom the registers are used, and so whose counters count the use: the provider, which
has one pair for all handles it gives out, or a handle made apart from it. -/
inductive RegisterOwner where
  | provider
  | handle (number : Nat)
  deriving DecidableEq, Repr

/-- One use of the registers of a thread, or the making of a handle. -/
inductive RegisterUse where
  | configure (owner : RegisterOwner) (thread : Nat) (config : TileConfig)
  | release (owner : RegisterOwner) (thread : Nat)
  | newHandle
  | cloneHandle (handle : Nat)
  deriving DecidableEq, Repr

/-- A use for which the configuration has yet to be made from a tile shape. -/
inductive RegisterStep where
  | configure (handle thread : Nat) (param : TileParam)
  | release (handle thread : Nat)
  | newHandle
  | cloneHandle (handle : Nat)
  | providerConfigure (thread : Nat) (param : TileParam)
  | providerRelease (thread : Nat)
  deriving DecidableEq, Repr

def RegisterStep.toUse : RegisterStep → Checked RegisterUse
  | .configure handle thread param =>
    return .configure (.handle handle) thread (← TileConfig.ofParam param)
  | .release handle thread => return .release (.handle handle) thread
  | .newHandle => return .newHandle
  | .cloneHandle handle => return .cloneHandle handle
  | .providerConfigure thread param =>
    return .configure .provider thread (← TileConfig.ofParam param)
  | .providerRelease thread => return .release .provider thread

namespace RegisterHandles

/-- The provider and one handle of its own counters, nothing loaded. -/
def initial (threads : Nat) : RegisterHandles := ⟨.initial threads 2, #[1]⟩

def provider : Nat := 0

def pairOf (h : RegisterHandles) : RegisterOwner → Checked Nat
  | .provider => .ok provider
  | .handle number =>
    match h.pairs[number]? with
    | some pair => .ok pair
    | none => .error .outOfBounds

/-- Effects on registers and handles. A fault ends them, and what was done before it stays done. -/
abbrev Effects := EStateM Fault RegisterHandles

/-- Go on with the value, or end in the fault. -/
def check {α : Type} (x : Checked α) : Effects α := fun h =>
  match x with
  | .ok a => .ok a h
  | .error fault => .error fault h

def setThread (thread : Nat) (config : Option TileConfig) (h : RegisterHandles) :
    RegisterHandles :=
  { h with registers := { h.registers with
      threads := h.registers.threads.setIfInBounds thread config } }

def count (pair : Nat) (f : TileCounts → TileCounts) (h : RegisterHandles) : RegisterHandles :=
  { h with registers := { h.registers with counts := h.registers.counts.modify pair f } }

def perform : RegisterUse → Effects Unit
  | .configure owner thread config => do
    let pair ← check ((← get).pairOf owner)
    check (require config.isValid .contract)
    modify (setThread thread (some config))
    modify (count pair fun c => { c with configured := c.configured + 1 })
  | .release owner thread => do
    let pair ← check ((← get).pairOf owner)
    let held := (← get).registers.loaded thread
    modify (setThread thread none)
    if held.isSome then
      modify (count pair fun c => { c with released := c.released + 1 })
  | .newHandle =>
    modify fun h => {
      registers := { h.registers with counts := h.registers.counts.push {} }
      pairs := h.pairs.push h.registers.counts.size }
  | .cloneHandle handle => do
    let pair ← check ((← get).pairOf (.handle handle))
    modify fun h => { h with pairs := h.pairs.push pair }

def step (h : RegisterHandles) (s : RegisterStep) : Checked RegisterHandles := do
  match (perform (← s.toUse)).run h with
  | .ok () after => return after
  | .error fault _ => throw fault

def countsOf (h : RegisterHandles) (pair : Nat) : TileCounts := h.registers.counts.getD pair {}

end RegisterHandles

end QuantAttention
