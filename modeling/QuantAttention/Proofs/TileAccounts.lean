import Mathlib.Algebra.BigOperators.Group.Finset.Basic
import Mathlib.Algebra.BigOperators.Group.Finset.Piecewise
import QuantAttention.Proofs.TileLoads

/-! Accounts of the tile registers over whole runs. A load may be booked on one pair of counters and
its release on another, so no pair is in balance by itself. All pairs together are: what was loaded
and not released is still loaded, or was loaded over. A further provider is a handle with a pair of
its own, of which all handles that it gives out are clones. -/

namespace QuantAttention

namespace TileRegisters

variable {r t : TileRegisters} {thread i : Nat}

def loadedThreads (r : TileRegisters) : Finset Nat :=
  {i ∈ Finset.range r.threads.size | (r.loaded i).isSome = true}

theorem mem_loadedThreads : i ∈ r.loadedThreads ↔ (r.loaded i).isSome = true := by
  rw [loadedThreads, Finset.mem_filter, Finset.mem_range]
  refine and_iff_right_of_imp fun hSome => ?_
  by_contra hi
  rw [loaded, Array.getElem?_eq_none (Nat.le_of_not_lt hi)] at hSome
  cases hSome

/-- Loading on a thread that has something loaded adds no thread. On any other it adds one, and the
account has to tell the two apart. -/
theorem card_loadedThreads_load {config : TileConfig}
    (h : ∀ i, t.loaded i = if i = thread then some config else r.loaded i) :
    t.loadedThreads.card + (if (r.loaded thread).isSome = true then 1 else 0) =
      r.loadedThreads.card + 1 := by
  have hInsert : t.loadedThreads = insert thread r.loadedThreads := by
    ext i
    rw [Finset.mem_insert, mem_loadedThreads, mem_loadedThreads, h]
    by_cases hi : i = thread <;> simp [hi]
  rw [hInsert]
  split
  · next hSome => rw [Finset.card_insert_of_mem (mem_loadedThreads.2 hSome)]
  · next hNone =>
    rw [Finset.card_insert_of_notMem fun hMem => hNone (mem_loadedThreads.1 hMem), Nat.add_zero]

/-- Releasing what a thread has loaded takes it away. -/
theorem card_loadedThreads_release
    (h : ∀ i, t.loaded i = if i = thread then none else r.loaded i) :
    t.loadedThreads.card + (if (r.loaded thread).isSome = true then 1 else 0) =
      r.loadedThreads.card := by
  have hErase : t.loadedThreads = r.loadedThreads.erase thread := by
    ext i
    rw [Finset.mem_erase, mem_loadedThreads, mem_loadedThreads, h]
    by_cases hi : i = thread <;> simp [hi]
  rw [hErase]
  split
  · next hSome => exact Finset.card_erase_add_one (mem_loadedThreads.2 hSome)
  · next hNone =>
    rw [Finset.erase_eq_of_notMem fun hMem => hNone (mem_loadedThreads.1 hMem), Nat.add_zero]

/-- A thread that has nothing loaded may be emptied. -/
theorem setIfInBounds_none (h : r.loaded thread = none) :
    r.threads.setIfInBounds thread none = r.threads := by
  apply Array.ext
  · exact Array.size_setIfInBounds
  · intro i _ hi
    rw [Array.getElem_setIfInBounds]
    split
    · next hSame =>
      subst hSame
      rw [loaded, Array.getElem?_eq_getElem hi] at h
      exact h.symm
    · rfl

end TileRegisters

/-- The owner is there when that many handles have been made. -/
def RegisterOwner.Exists (handles : Nat) : RegisterOwner → Prop
  | provider => True
  | handle number => number < handles

namespace RegisterUse

/-- What the use leaves on a thread, if it is a use of that thread. -/
def leaves (thread : Nat) : RegisterUse → Option (Option TileConfig)
  | configure _ used config => if thread = used then some (some config) else none
  | release _ used => if thread = used then some none else none
  | newHandle => none
  | cloneHandle _ => none

/-- The use is of a thread and through an owner that are there, and a configuration that it loads is
valid. -/
def Possible (threads handles : Nat) : RegisterUse → Prop
  | configure owner thread config =>
    owner.Exists handles ∧ thread < threads ∧ config.isValid = true
  | release owner thread => owner.Exists handles ∧ thread < threads
  | newHandle => True
  | cloneHandle handle => handle < handles

def handlesAfter (handles : Nat) : RegisterUse → Nat
  | newHandle => handles + 1
  | cloneHandle _ => handles + 1
  | _ => handles

/-- All uses are possible, each after those before it. -/
def PossibleAlong (threads : Nat) : (handles : Nat) → List RegisterUse → Prop
  | _, [] => True
  | handles, use :: rest =>
    use.Possible threads handles ∧ PossibleAlong threads (use.handlesAfter handles) rest

/-- After the uses a thread still has the configuration of its latest load: it has not been used
since, neither for a load nor for a release. -/
def Held (uses : List RegisterUse) (thread : Nat) (config : TileConfig) : Prop :=
  ∃ before owner after, uses = before ++ configure owner thread config :: after ∧
    ∀ use ∈ after, use.leaves thread = none

/-- What the last use of a thread leaves on it. -/
def lastLeft (uses : List RegisterUse) (thread : Nat) : Option (Option TileConfig) :=
  uses.reverse.findSome? (leaves thread)

variable {uses : List RegisterUse} {use : RegisterUse} {thread : Nat} {config : TileConfig}

/-- What a thread is left with is told by its latest use, and by earlier ones only if there was none
since. -/
theorem lastLeft_cons (use : RegisterUse) (uses : List RegisterUse) (thread : Nat) :
    lastLeft (use :: uses) thread = (lastLeft uses thread).or (use.leaves thread) :=
  findSome?_reverse_cons _ use uses

theorem leaves_eq_some_iff : use.leaves thread = some (some config) ↔
    ∃ owner, use = configure owner thread config := by
  cases use with
  | configure owner used other =>
      by_cases hUsed : thread = used
      · simp [leaves, hUsed]
      · simp [leaves, hUsed, Ne.symm hUsed]
  | release owner used =>
      by_cases hUsed : thread = used <;> simp [leaves, hUsed]
  | newHandle => simp [leaves]
  | cloneHandle handle => simp [leaves]

/-- A thread is left with a configuration exactly if it has loaded it and not been released since.
-/
theorem lastLeft_eq_some_iff :
    lastLeft uses thread = some (some config) ↔ Held uses thread config := by
  rw [lastLeft, List.findSome?_eq_some_iff]
  constructor
  · rintro ⟨after, use, before, hUses, hUse, hAfter⟩
    obtain ⟨owner, rfl⟩ := leaves_eq_some_iff.1 hUse
    refine ⟨before.reverse, owner, after.reverse, ?_,
      fun use hMem => hAfter use (List.mem_reverse.1 hMem)⟩
    rw [← List.reverse_reverse uses, hUses]
    simp
  · rintro ⟨before, owner, after, rfl, hAfter⟩
    refine ⟨after.reverse, configure owner thread config, before.reverse, by simp,
      leaves_eq_some_iff.2 ⟨owner, rfl⟩, fun use hMem => hAfter use (List.mem_reverse.1 hMem)⟩

end RegisterUse

namespace RegisterHandles

open RegisterUse

variable {h t : RegisterHandles} {owner : RegisterOwner} {use : RegisterUse}
  {uses : List RegisterUse} {config : TileConfig} {handles n pair thread threads : Nat}

/-- The pairs of counters in use: the provider's, and those of handles, where clones share one. -/
def counterPairs (h : RegisterHandles) : Finset Nat := insert provider h.pairs.toList.toFinset

/-- How many configurations were loaded, whoever counted it. -/
def configured (h : RegisterHandles) : Nat := ∑ pair ∈ h.counterPairs, (h.countsOf pair).configured

/-- How many loaded configurations were given back, whoever counted it. -/
def released (h : RegisterHandles) : Nat := ∑ pair ∈ h.counterPairs, (h.countsOf pair).released

/-- Whether the use loads a configuration over another: once or not at all. -/
def overloads (h : RegisterHandles) : RegisterUse → Nat
  | .configure _ thread _ => if (h.registers.loaded thread).isSome = true then 1 else 0
  | _ => 0

/-- How many of the uses load a configuration over another. -/
def overloadsAlong : RegisterHandles → List RegisterUse → Nat
  | _, [] => 0
  | h, use :: rest => h.overloads use + match (perform use).run h with
    | .ok () after => overloadsAlong after rest
    | .error _ _ => 0

/-- What was loaded and not given back is on threads, apart from `n` loads over others. -/
def Balanced (h : RegisterHandles) (n : Nat) : Prop :=
  h.configured = h.released + h.registers.loadedThreads.card + n

/-- Registers of `threads` threads, and `handles` handles with pairs of counters that there are. -/
structure Proper (threads handles : Nat) (h : RegisterHandles) : Prop where
  threads : h.registers.threads.size = threads
  handles : h.pairs.size = handles
  provider : provider < h.registers.counts.size
  pairs : ∀ pair ∈ h.pairs, pair < h.registers.counts.size

/-- What one use does. -/
structure After (threads handles : Nat) (h : RegisterHandles) (use : RegisterUse)
    (t : RegisterHandles) : Prop where
  proper : t.Proper threads (use.handlesAfter handles)
  loaded : ∀ thread, t.registers.loaded thread =
    (use.leaves thread).getD (h.registers.loaded thread)
  balanced : ∀ n, h.Balanced n → t.Balanced (n + h.overloads use)

/-- A computation that has a value leaves the handles as they are. -/
theorem run_check_ok {α : Type} {x : Checked α} {a : α} (hx : x = .ok a) :
    (check x).run h = .ok a h := by
  rw [hx]
  rfl

theorem run_check_error {α : Type} {x : Checked α} {fault : Fault} (hx : x = .error fault) :
    (check x).run h = .error fault h := by
  rw [hx]
  rfl

/-- A valid configuration is loaded, and counted for the owner. What the thread had loaded before is
lost without being counted. -/
theorem run_configure (hPair : h.pairOf owner = .ok pair) (hValid : config.isValid = true)
    (thread : Nat) :
    ∃ r, h.registers.configure pair thread config = .ok r ∧
      (perform (.configure owner thread config)).run h = .ok () { h with registers := r } := by
  have hRequire : require (config.isValid = true) .contract = .ok () := if_pos hValid
  refine ⟨_, Checked.bind_eq_ok.2 ⟨(), hRequire, rfl⟩, ?_⟩
  simp [perform, run_check_ok hPair, run_check_ok hRequire, setThread, count]

/-- What a thread has loaded is given back, and counted for the owner, who need not be the one that
has loaded it. -/
theorem run_release (hPair : h.pairOf owner = .ok pair) (thread : Nat) :
    (perform (.release owner thread)).run h =
      .ok () { h with registers := h.registers.release pair thread } := by
  cases hLoaded : h.registers.loaded thread with
  | none =>
      simp [perform, run_check_ok hPair, hLoaded, TileRegisters.release, setThread,
        TileRegisters.setIfInBounds_none hLoaded]
  | some config =>
      simp [perform, run_check_ok hPair, hLoaded, TileRegisters.release, setThread, count]

/-- A release of a thread that has nothing loaded changes nothing, whoever makes it. -/
theorem run_release_unloaded (hPair : h.pairOf owner = .ok pair)
    (hLoaded : h.registers.loaded thread = none) :
    (perform (.release owner thread)).run h = .ok () h := by
  rw [run_release hPair, TileRegisters.release, hLoaded]
  rfl

/-- A configuration that is not valid is refused before anything is changed. Not even the counters
are touched. -/
theorem run_configure_invalid (hPair : h.pairOf owner = .ok pair)
    (hValid : config.isValid = false) :
    (perform (.configure owner thread config)).run h = .error .contract h := by
  have hRequire : require (config.isValid = true) .contract = .error .contract :=
    if_neg (Bool.eq_false_iff.1 hValid)
  simp [perform, run_check_ok hPair, run_check_error hRequire]

/-- The pairs in use are that of the provider and those of handles. -/
theorem mem_counterPairs {i : Nat} : i ∈ h.counterPairs ↔ i = provider ∨ i ∈ h.pairs := by
  rw [counterPairs, Finset.mem_insert, List.mem_toFinset, Array.mem_toList_iff]

/-- An owner that is there has a pair of counters that there is. -/
theorem Proper.exists_pair (hProper : h.Proper threads handles) (owner : RegisterOwner)
    (hOwner : owner.Exists handles) :
    ∃ pair, h.pairOf owner = .ok pair ∧ pair ∈ h.counterPairs ∧ pair < h.registers.counts.size := by
  cases owner with
  | provider => exact ⟨_, rfl, mem_counterPairs.2 (.inl rfl), hProper.provider⟩
  | handle number =>
      have hNumber : number < h.pairs.size := hProper.handles ▸ hOwner
      have hMem : h.pairs[number] ∈ h.pairs := Array.getElem_mem hNumber
      refine ⟨h.pairs[number], ?_, mem_counterPairs.2 (.inr hMem), hProper.pairs _ hMem⟩
      rw [pairOf, Array.getElem?_eq_getElem hNumber]

/-- A sum in which one term grows. -/
theorem sum_add_single {pairs : Finset Nat} {f g : Nat → Nat} {more : Nat} (hMem : pair ∈ pairs)
    (h : ∀ i, g i = f i + if i = pair then more else 0) :
    ∑ i ∈ pairs, g i = ∑ i ∈ pairs, f i + more := by
  simp only [h, Finset.sum_add_distrib, Finset.sum_ite_eq', if_pos hMem]

/-- A use of the registers of a thread that is counted in one pair. Both kinds of use are of this
form. -/
theorem After.of_registers {r : TileRegisters} (loads releases : Nat)
    (hProper : h.Proper threads handles) (hHandles : use.handlesAfter handles = handles)
    (hMem : pair ∈ h.counterPairs)
    (hThreads : r.threads.size = h.registers.threads.size)
    (hCounts : r.counts.size = h.registers.counts.size)
    (hLoaded : ∀ i, r.loaded i = (use.leaves i).getD (h.registers.loaded i))
    (hCounted : ∀ i, r.countsOf i = if i = pair then
        ⟨(h.registers.countsOf pair).configured + loads,
          (h.registers.countsOf pair).released + releases⟩
      else h.registers.countsOf i)
    (hCard : r.loadedThreads.card + releases + h.overloads use =
      h.registers.loadedThreads.card + loads) :
    After threads handles h use { h with registers := r } where
  proper := by
    rw [hHandles]
    exact {
      threads := hThreads.trans hProper.threads
      handles := hProper.handles
      provider := hCounts ▸ hProper.provider
      pairs := fun i hi => hCounts ▸ hProper.pairs i hi }
  loaded := hLoaded
  balanced := fun n hBalanced => by
    have hConfigured : configured { h with registers := r } = h.configured + loads := by
      refine sum_add_single hMem fun i => ?_
      change (r.countsOf i).configured = (h.registers.countsOf i).configured + _
      rw [hCounted]
      split
      · next hi => rw [hi]
      · rfl
    have hReleased : released { h with registers := r } = h.released + releases := by
      refine sum_add_single hMem fun i => ?_
      change (r.countsOf i).released = (h.registers.countsOf i).released + _
      rw [hCounted]
      split
      · next hi => rw [hi]
      · rfl
    change configured _ = released _ + r.loadedThreads.card + _
    rw [Balanced] at hBalanced
    omega

/-- A valid configuration can be loaded by any owner that exists, and is counted once. -/
theorem after_configure (hProper : h.Proper threads handles) (hOwner : owner.Exists handles)
    (hThread : thread < threads) (hValid : config.isValid = true) :
    ∃ t, (perform (.configure owner thread config)).run h = .ok () t ∧
      After threads handles h (.configure owner thread config) t := by
  obtain ⟨pair, hPair, hMem, hLt⟩ := hProper.exists_pair owner hOwner
  obtain ⟨r, hConfigure, hRun⟩ := run_configure hPair hValid thread
  obtain ⟨hThreads, hCounts, hLoaded, hCounted⟩ :=
    TileRegisters.configure_spec (hProper.threads ▸ hThread) hLt hConfigure
  refine ⟨_, hRun, .of_registers 1 0 hProper rfl hMem hThreads hCounts (fun i => ?_) hCounted
    (TileRegisters.card_loadedThreads_load hLoaded)⟩
  rw [hLoaded, leaves]
  split <;> rfl

/-- A release can be made by any owner that exists. It is counted only if the thread had something
to give back. -/
theorem after_release (hProper : h.Proper threads handles) (hOwner : owner.Exists handles)
    (thread : Nat) :
    ∃ t, (perform (.release owner thread)).run h = .ok () t ∧
      After threads handles h (.release owner thread) t := by
  obtain ⟨pair, hPair, hMem, hLt⟩ := hProper.exists_pair owner hOwner
  obtain ⟨hThreads, hCounts, hLoaded, hCounted⟩ := TileRegisters.release_spec thread hLt
  refine ⟨_, run_release hPair thread, .of_registers 0 _ hProper rfl hMem hThreads hCounts
    (fun i => ?_) hCounted (TileRegisters.card_loadedThreads_release hLoaded)⟩
  rw [hLoaded, leaves]
  split <;> rfl

/-- A handle that is made counts in a pair that is in use, or that has counted nothing. -/
theorem After.of_handle (hProper : h.Proper threads handles)
    (hHandles : use.handlesAfter handles = handles + 1) (hLeaves : ∀ i, use.leaves i = none)
    (hOverloads : h.overloads use = 0) (hThreads : t.registers.threads = h.registers.threads)
    (hCounts : h.registers.counts.size ≤ t.registers.counts.size)
    (hCounted : ∀ i, t.countsOf i = h.countsOf i) (hPairs : t.pairs = h.pairs.push pair)
    (hLt : pair < t.registers.counts.size) (hPair : pair ∉ h.counterPairs → h.countsOf pair = {}) :
    After threads handles h use t where
  proper := by
    rw [hHandles]
    refine ⟨hThreads ▸ hProper.threads, by rw [hPairs, Array.size_push, hProper.handles],
      Nat.lt_of_lt_of_le hProper.provider hCounts, fun i hi => ?_⟩
    rw [hPairs, Array.mem_push] at hi
    rcases hi with hOld | rfl
    · exact Nat.lt_of_lt_of_le (hProper.pairs i hOld) hCounts
    · exact hLt
  loaded := fun i => by
    rw [hLeaves, Option.getD_none, TileRegisters.loaded, hThreads, TileRegisters.loaded]
  balanced := fun n hBalanced => by
    have hInsert : t.counterPairs = insert pair h.counterPairs := by
      ext i
      rw [Finset.mem_insert, mem_counterPairs, mem_counterPairs, hPairs, Array.mem_push, ← or_assoc,
        or_comm]
    have hSum (f : TileCounts → Nat) (hNone : f {} = 0) :
        ∑ i ∈ t.counterPairs, f (t.countsOf i) = ∑ i ∈ h.counterPairs, f (h.countsOf i) := by
      simp only [hInsert, hCounted]
      exact Finset.sum_insert_of_eq_zero_if_notMem fun hNew => by rw [hPair hNew, hNone]
    have hLoaded : t.registers.loadedThreads = h.registers.loadedThreads := by
      ext i
      rw [TileRegisters.mem_loadedThreads, TileRegisters.mem_loadedThreads, TileRegisters.loaded,
        hThreads, TileRegisters.loaded]
    rw [Balanced, configured, released, hSum (·.configured) rfl, hSum (·.released) rfl, hLoaded,
      hOverloads]
    exact hBalanced

theorem countsOf_size (h : RegisterHandles) : h.countsOf h.registers.counts.size = {} := by
  rw [countsOf, Array.getD_eq_getD_getElem?, Array.getElem?_eq_none (Nat.le_refl _),
    Option.getD_none]

/-- A handle of its own starts with a new pair, in which nothing is counted yet. -/
theorem after_newHandle (hProper : h.Proper threads handles) :
    ∃ t, (perform .newHandle).run h = .ok () t ∧ After threads handles h .newHandle t := by
  refine ⟨_, rfl, .of_handle hProper rfl (fun _ => rfl) rfl rfl ?_ (fun i => ?_) rfl ?_
    fun _ => h.countsOf_size⟩
  · rw [Array.size_push]
    exact Nat.le_succ _
  · rw [countsOf, Array.getD_eq_getD_getElem?, Array.getElem?_push]
    split
    · next hNew => rw [hNew, countsOf_size, Option.getD_some]
    · rw [countsOf, Array.getD_eq_getD_getElem?]
  · rw [Array.size_push]
    exact Nat.lt_succ_self _

/-- A clone counts in the pair of its original, so no pair is added to those in use. -/
theorem after_cloneHandle {handle : Nat} (hProper : h.Proper threads handles)
    (hHandle : handle < handles) :
    ∃ t, (perform (.cloneHandle handle)).run h = .ok () t ∧
      After threads handles h (.cloneHandle handle) t := by
  obtain ⟨pair, hPair, hMem, hLt⟩ := hProper.exists_pair (.handle handle) hHandle
  have hRun : (perform (.cloneHandle handle)).run h =
      .ok () { h with pairs := h.pairs.push pair } := by
    simp [perform, run_check_ok hPair]
  exact ⟨_, hRun, .of_handle hProper rfl (fun _ => rfl) rfl rfl (Nat.le_refl _) (fun _ => rfl)
    rfl hLt fun hNew => absurd hMem hNew⟩

/-- Every use that is possible can be made, and its effect is known. -/
theorem exists_after (hProper : h.Proper threads handles)
    (hPossible : use.Possible threads handles) :
    ∃ t, (perform use).run h = .ok () t ∧ After threads handles h use t := by
  cases use with
  | configure owner thread config =>
      obtain ⟨hOwner, hThread, hValid⟩ := hPossible
      exact after_configure hProper hOwner hThread hValid
  | release owner thread => exact after_release hProper hPossible.1 thread
  | newHandle => exact after_newHandle hProper
  | cloneHandle handle => exact after_cloneHandle hProper hPossible

/-- What a run of uses does. The induction is on the uses, with what one use does for its step. -/
theorem run_uses (hProper : h.Proper threads handles)
    (hPossible : PossibleAlong threads handles uses) :
    ∃ t, (uses.forM perform).run h = .ok () t ∧
      (∀ thread, t.registers.loaded thread =
        (lastLeft uses thread).getD (h.registers.loaded thread)) ∧
      ∀ n, h.Balanced n → t.Balanced (n + h.overloadsAlong uses) := by
  induction uses generalizing h handles with
  | nil => exact ⟨h, rfl, fun _ => rfl, fun _ hBalanced => hBalanced⟩
  | cons use rest ih =>
      obtain ⟨middle, hFirst, hAfter⟩ := exists_after hProper hPossible.1
      obtain ⟨t, hRest, hLoaded, hBalanced⟩ := ih hAfter.proper hPossible.2
      refine ⟨t, ?_, fun thread => ?_, fun n hBefore => ?_⟩
      · change (perform use >>= fun _ => rest.forM perform).run h = _
        rw [EStateM.run_bind, hFirst]
        exact hRest
      · rw [hLoaded, hAfter.loaded, lastLeft_cons, Option.getD_or]
      · rw [overloadsAlong, hFirst, ← Nat.add_assoc]
        exact hBalanced _ (hAfter.balanced n hBefore)

/-- At the start there is the provider with its pair, and no handle. -/
theorem proper_initial (threads : Nat) : (initial threads).Proper threads 1 where
  threads := Array.size_replicate
  handles := rfl
  provider := by simp [initial, TileRegisters.initial, provider]
  pairs := by simp [initial, TileRegisters.initial]

/-- Nothing is counted and nothing loaded, so the account is balanced. -/
theorem balanced_initial (threads : Nat) : (initial threads).Balanced 0 := by
  have hCounts (i : Nat) : (initial threads).countsOf i = {} := by
    simp only [countsOf, initial, TileRegisters.initial, Array.getD_eq_getD_getElem?,
      Array.getElem?_replicate]
    split <;> rfl
  have hThreads : (initial threads).registers.loadedThreads = ∅ := by
    refine Finset.eq_empty_of_forall_notMem fun i hMem => ?_
    rw [TileRegisters.mem_loadedThreads, initial, TileRegisters.loaded_initial] at hMem
    cases hMem
  simp only [Balanced, configured, released, hCounts, hThreads, Finset.sum_const_zero,
    Finset.card_empty, Nat.add_zero]

/-- Whatever handles are made and whichever of them are used on whichever threads, what all of them
have loaded and not released is what threads have loaded and what was loaded over. A thread has the
configuration of its latest load loaded unless it was released since. A release of a thread that has
nothing loaded, and a configuration that is not valid, change nothing. -/
theorem run_accounts (threads : Nat) (uses : List RegisterUse)
    (hPossible : PossibleAlong threads 1 uses) :
    ∃ h, (uses.forM perform).run (initial threads) = .ok () h ∧
      h.configured = h.released + h.registers.loadedThreads.card +
        (initial threads).overloadsAlong uses ∧
      (∀ thread config, h.registers.loaded thread = some config ↔ Held uses thread config) ∧
      (∀ owner pair thread, h.pairOf owner = .ok pair → h.registers.loaded thread = none →
        (perform (.release owner thread)).run h = .ok () h) ∧
      ∀ owner pair thread config, h.pairOf owner = .ok pair → config.isValid = false →
        (perform (.configure owner thread config)).run h = .error .contract h := by
  obtain ⟨h, hRun, hLoaded, hBalanced⟩ := run_uses (proper_initial threads) hPossible
  have hAccounts := hBalanced 0 (balanced_initial threads)
  rw [Balanced, Nat.zero_add] at hAccounts
  refine ⟨h, hRun, hAccounts, fun thread config => ?_,
    fun _ _ _ hPair hNone => run_release_unloaded hPair hNone,
    fun _ _ _ _ hPair hInvalid => run_configure_invalid hPair hInvalid⟩
  rw [hLoaded, ← lastLeft_eq_some_iff, initial, TileRegisters.loaded_initial]
  cases lastLeft uses thread <;> simp

/-- A handle loads a configuration, and a second one loads over it. A clone of the second gives back
what there is, and the provider, which has loaded another thread, finds nothing more to give back.
-/
def exchanges : List RegisterUse :=
  [.configure (.handle 0) 0 .fullInt8, .newHandle, .configure (.handle 1) 0 .fullInt8,
    .cloneHandle 1, .configure .provider 1 .fullInt8, .release (.handle 2) 0, .release .provider 0]

/-- Three loads and one release leave one thread loaded, as one load was over another. A release
without anything to give back counts for nothing. -/
theorem run_accounts_exchanges : PossibleAlong 2 1 exchanges ∧
    ∃ h, (exchanges.forM perform).run (initial 2) = .ok () h ∧
      h.configured = h.released + h.registers.loadedThreads.card + 1 ∧
      h.registers.loaded 1 = some .fullInt8 := by
  have hPossible : PossibleAlong 2 1 exchanges := by
    simp [exchanges, PossibleAlong, Possible, RegisterOwner.Exists, handlesAfter,
      TileConfig.isValid_fullInt8]
  obtain ⟨h, hRun, hAccounts, hHeld, -⟩ := run_accounts 2 exchanges hPossible
  have hOverloads : (initial 2).overloadsAlong exchanges = 1 := by decide
  have hLast : Held exchanges 1 .fullInt8 :=
    ⟨exchanges.take 4, .provider, [.release (.handle 2) 0, .release .provider 0], rfl,
      by simp [leaves]⟩
  exact ⟨hPossible, h, hRun, hOverloads ▸ hAccounts, (hHeld 1 .fullInt8).2 hLast⟩

end RegisterHandles

end QuantAttention
