import QuantAttention.Proofs.TileLoads

/-! Callers that ask for the tile registers, and releases, in any order. A slot is chosen by the
number of its caller, while registers belong to threads: a caller from outside has the slot of the
first worker and registers of its own. So the slots keep in step with the registers exactly if the
two never share a slot between releases, and no release comes while the registers of the outside are
loaded. -/

namespace QuantAttention

/-- What can happen to a pool. Runs and histories are lists of these. -/
inductive SessionStep where
  | ensure (caller : Caller)
  | releaseAll
  deriving DecidableEq, Repr

namespace SessionStep

/-- The callers that have asked for their registers since the last release. The history has the
latest step first. -/
def since : List SessionStep → List Caller
  | ensure caller :: past => caller :: since past
  | _ => []

theorem ensure_mem_of_mem_since {caller : Caller} {past : List SessionStep}
    (h : caller ∈ since past) : ensure caller ∈ past := by
  induction past with
  | nil => cases h
  | cons s past ih =>
      cases s with
      | releaseAll => cases h
      | ensure other =>
          rcases List.mem_cons.1 h with rfl | hBefore
          · exact List.mem_cons_self
          · exact List.mem_cons_of_mem _ (ih hBefore)

/-- An ensure is fair if no other caller has taken the slot since the last release, and a release if
only workers have asked since. -/
def Fair (past : List SessionStep) : SessionStep → Prop
  | ensure caller => ∀ other ∈ since past, other.number = caller.number → other = caller
  | releaseAll => .outside ∉ since past

/-- All steps are fair, each after those before it. -/
def FairAlong : (past steps : List SessionStep) → Prop
  | _, [] => True
  | past, s :: rest => Fair past s ∧ FairAlong (s :: past) rest

instance (past : List SessionStep) : (s : SessionStep) → Decidable (Fair past s)
  | ensure caller => inferInstanceAs
      (Decidable (∀ other ∈ since past, other.number = caller.number → other = caller))
  | releaseAll => inferInstanceAs (Decidable (.outside ∉ since past))

instance decidableFairAlong : (past steps : List SessionStep) → Decidable (FairAlong past steps)
  | _, [] => inferInstanceAs (Decidable True)
  | past, s :: rest =>
    have := decidableFairAlong (s :: past) rest
    inferInstanceAs (Decidable (Fair past s ∧ FairAlong (s :: past) rest))

end SessionStep

open SessionStep

/-- Callers with a number that belongs to the pool have different threads. The caller from outside
has one of its own, though it shares a slot. -/
theorem Caller.thread_injective {size : Nat} {c d : Caller} (hc : c.number < size)
    (hd : d.number < size) (h : c.thread size = d.thread size) : c = d := by
  cases c with
  | worker i =>
      cases d with
      | worker j => exact congrArg worker h
      | outside => exact absurd h (Nat.ne_of_lt hc)
  | outside =>
      cases d with
      | worker j => exact absurd h.symm (Nat.ne_of_lt hd)
      | outside => rfl

theorem Caller.thread_eq_number {size : Nat} {c : Caller} (hc : c ≠ .outside) :
    c.thread size = c.number := by
  cases c with
  | worker i => rfl
  | outside => exact absurd rfl hc

theorem Caller.thread_le {size : Nat} {c : Caller} (hc : c.number < size) :
    c.thread size ≤ size := by
  cases c with
  | worker i => exact Nat.le_of_lt hc
  | outside => exact Nat.le_refl size

namespace Pool

variable {p q : Pool} {config : TileConfig} {asked : List Caller} {past steps : List SessionStep}
  {s : SessionStep} {caller : Caller}

/-- Take a step. Returns how many slots were released. -/
def perform (p : Pool) (config : TileConfig) : SessionStep → Checked (Pool × Nat)
  | .ensure caller => do return (← p.ensureTiles caller config, 0)
  | .releaseAll => p.releaseAll

/-- What a step should do. Whoever asks has the configuration loaded, and nothing is done for it if
it has asked already. A release returns by how much the count of releases has grown, and leaves
nothing loaded on the threads of callers that ever asked. -/
def Kept (config : TileConfig) (past : List SessionStep) (p : Pool) :
    SessionStep → Pool × Nat → Prop
  | .ensure caller, (q, _) => q.registers.loaded (caller.thread p.size) = some config ∧
      (caller ∈ since past → q.registers = p.registers)
  | .releaseAll, (q, released) =>
      q.registers.providerCounts.released = p.registers.providerCounts.released + released ∧
      ∀ caller, .ensure caller ∈ past → q.registers.loaded (caller.thread p.size) = none

/-- Since the last release the given callers have asked, no two of them with the same slot. Their
slots are ready and their threads have the configuration loaded, and none else. -/
structure InStep (config : TileConfig) (asked : List Caller) (p : Pool) : Prop where
  slots : p.sessions.slots.size = p.size
  threads : p.size < p.registers.threads.size
  pairs : 0 < p.registers.counts.size
  inside : ∀ c ∈ asked, c.number < p.size
  single : ∀ c ∈ asked, ∀ d ∈ asked, c.number = d.number → c = d
  ready : ∀ i, p.sessions.ready i = true ↔ ∃ c ∈ asked, c.number = i
  loaded : ∀ i, p.registers.loaded i =
    if ∃ c ∈ asked, c.thread p.size = i then some config else none

namespace InStep

/-- No one has asked where no slot is ready and nothing is loaded. This is where a pool starts, and
where every release leads back to. -/
theorem nil (hSlots : p.sessions.slots.size = p.size) (hThreads : p.size < p.registers.threads.size)
    (hPairs : 0 < p.registers.counts.size) (hReady : ∀ i, p.sessions.ready i = false)
    (hLoaded : ∀ i, p.registers.loaded i = none) : p.InStep config [] where
  slots := hSlots
  threads := hThreads
  pairs := hPairs
  inside := by simp
  single := by simp
  ready := by simp [hReady]
  loaded := by simp [hLoaded]

/-- Only which callers have asked matters, not in which order nor how often. -/
theorem congr {others : List Caller} (h : p.InStep config asked)
    (hSame : ∀ c, c ∈ others ↔ c ∈ asked) :
    p.InStep config others where
  slots := h.slots
  threads := h.threads
  pairs := h.pairs
  inside := by simpa only [hSame] using h.inside
  single := by simpa only [hSame] using h.single
  ready := by simpa only [hSame] using h.ready
  loaded := by simpa only [hSame] using h.loaded

variable (h : p.InStep config asked)
include h

/-- The registers of a caller are loaded if and only if the caller has asked for them. Threads of
different callers are different, so no one loads those of another. -/
theorem loaded_thread (caller : Caller) (hCaller : caller.number < p.size) :
    p.registers.loaded (caller.thread p.size) = if caller ∈ asked then some config else none := by
  have hAsked : (∃ c ∈ asked, c.thread p.size = caller.thread p.size) ↔ caller ∈ asked := by
    constructor
    · rintro ⟨c, hc, hThread⟩
      rwa [← Caller.thread_injective (h.inside c hc) hCaller hThread]
    · intro hCaller
      exact ⟨caller, hCaller, rfl⟩
  rw [h.loaded]
  simp only [hAsked]

/-- A caller whose slot no one has taken gets its registers loaded, on the thread that it runs on.
-/
theorem loading (hCaller : caller.number < p.size) (hFree : p.sessions.ready caller.number = false)
    (hLoading : p.Loading caller config q) : q.InStep config (caller :: asked) := by
  have hOther {d : Caller} (hd : d ∈ asked) : d.number ≠ caller.number := fun hSame =>
    Bool.false_ne_true (hFree.symm.trans ((h.ready _).2 ⟨d, hd, hSame⟩))
  exact {
    slots := by rw [hLoading.slots, h.slots, hLoading.size]
    threads := by rw [hLoading.size, hLoading.threads]; exact h.threads
    pairs := by rw [hLoading.pairs]; exact h.pairs
    inside := by
      rw [hLoading.size]
      exact List.forall_mem_cons.2 ⟨hCaller, h.inside⟩
    single := by
      intro c hc d hd hSame
      rcases List.mem_cons.1 hc with rfl | hOld
      · rcases List.mem_cons.1 hd with rfl | hBefore
        · rfl
        · exact absurd hSame.symm (hOther hBefore)
      · rcases List.mem_cons.1 hd with rfl | hBefore
        · exact absurd hSame (hOther hOld)
        · exact h.single c hOld d hBefore hSame
    ready := fun i => by
      rw [hLoading.ready, List.exists_mem_cons_iff, ← h.ready i]
      by_cases hi : i = caller.number
      · simp [hi]
      · simp [hi, Ne.symm hi]
    loaded := fun i => by
      rw [hLoading.loaded, hLoading.size, h.loaded]
      simp only [List.exists_mem_cons_iff]
      by_cases hi : i = caller.thread p.size
      · simp [hi]
      · simp [hi, Ne.symm hi] }

/-- The slot of a caller that has asked says so. -/
theorem ready_number (hCaller : caller ∈ asked) : p.sessions.ready caller.number = true :=
  (h.ready _).2 ⟨caller, hCaller, rfl⟩

/-- Only slots of the pool can be ready. -/
theorem inside_of_ready {i : Nat} (hReady : p.sessions.ready i = true) : i < p.size := by
  obtain ⟨c, hc, rfl⟩ := (h.ready i).1 hReady
  exact h.inside c hc

/-- Where only workers have asked, slots are right about the registers of the thread of their
number. -/
theorem loaded_of_ready (hOwn : .outside ∉ asked) {i : Nat} (hReady : p.sessions.ready i = true) :
    p.registers.loaded i = some config := by
  obtain ⟨c, hc, rfl⟩ := (h.ready i).1 hReady
  rw [h.loaded, if_pos ⟨c, hc, Caller.thread_eq_number fun hOut => hOwn (hOut ▸ hc)⟩]

/-- After a release of the registers of workers nothing is loaded, and every slot is free again. -/
theorem releasing {released : Nat} (hOwn : .outside ∉ asked)
    (hAll : p.Releasing p.size q released) : q.InStep config [] := by
  have hNoneReady (i : Nat) : q.sessions.ready i = false := by
    rw [hAll.ready, Bool.and_eq_false_iff, decide_eq_false_iff_not]
    by_cases hi : i < p.size
    · exact .inl (Nat.not_le_of_lt hi)
    · exact .inr (Bool.eq_false_iff.2 fun hReady => hi (h.inside_of_ready hReady))
  have hNoneLoaded (i : Nat) : q.registers.loaded i = none := by
    rw [hAll.loaded, h.loaded]
    split
    · rfl
    · next hKept =>
      refine if_neg ?_
      rintro ⟨c, hc, rfl⟩
      have hNumber : c.thread p.size = c.number :=
        Caller.thread_eq_number fun hOut => hOwn (hOut ▸ hc)
      exact hKept (hNumber ▸ ⟨h.inside c hc, h.ready_number hc⟩)
  refine .nil ?_ ?_ ?_ hNoneReady hNoneLoaded
  · rw [hAll.slots, h.slots, hAll.size]
  · rw [hAll.size, hAll.threads]
    exact h.threads
  · rw [hAll.pairs]
    exact h.pairs

end InStep

/-- An ensure does what it should if and only if it is fair, that is if no other caller has taken
its slot since the last release. -/
theorem InStep.ensure (h : p.InStep config (since past)) (hValid : config.isValid = true)
    (hCaller : caller.number < p.size) :
    ∃ q, p.ensureTiles caller config = .ok q ∧
      (Kept config past p (.ensure caller) (q, 0) ↔ Fair past (.ensure caller)) ∧
      (Fair past (.ensure caller) → q.size = p.size ∧ q.InStep config (caller :: since past)) := by
  have hSlot : caller.number < p.sessions.slots.size := h.slots ▸ hCaller
  obtain ⟨q, hRun⟩ := exists_ensureTiles hSlot hValid
  refine ⟨q, hRun, ?_⟩
  obtain ⟨hReady, rfl⟩ | ⟨hFree, hLoading⟩ := ensureTiles_cases hSlot
    (Nat.lt_of_le_of_lt (Caller.thread_le hCaller) h.threads) h.pairs hRun
  · -- The slot is taken, so the caller has its registers only if it is the one that took it.
    have hAsked : Fair past (.ensure caller) ↔ caller ∈ since past := by
      obtain ⟨other, hOther, hSame⟩ := (h.ready _).1 hReady
      constructor
      · intro hFair
        exact hFair other hOther hSame ▸ hOther
      · intro hCaller other hOther hSame
        exact h.single other hOther caller hCaller hSame
    have hLoaded : q.registers.loaded (caller.thread q.size) = some config ↔
        caller ∈ since past := by
      rw [h.loaded_thread caller hCaller]
      split <;> simp [*]
    refine ⟨?_, fun hFair => ⟨rfl, h.congr fun c => ?_⟩⟩
    · rw [hAsked, ← hLoaded]
      exact and_iff_left fun _ => rfl
    · rw [List.mem_cons]
      exact or_iff_right_of_imp fun hc => hc ▸ hAsked.1 hFair
  · -- No one has taken it.
    have hNone (other : Caller) (hOther : other ∈ since past) : other.number ≠ caller.number :=
      fun hSame => Bool.false_ne_true (hFree.symm.trans (hSame ▸ h.ready_number hOther))
    have hFair : Fair past (.ensure caller) := fun other hOther hSame =>
      absurd hSame (hNone other hOther)
    refine ⟨iff_of_true ⟨?_, fun hCaller => absurd rfl (hNone caller hCaller)⟩ hFair,
      fun _ => ⟨hLoading.size, h.loading hCaller hFree hLoading⟩⟩
    rw [hLoading.loaded, if_pos rfl]

/-- A release does what it should if and only if it is fair, that is if the caller from outside has
not asked since the one before it. -/
theorem InStep.releaseAll (h : p.InStep config (since past)) (hWorkers : 0 < p.size) :
    ∃ q released, p.releaseAll = .ok (q, released) ∧
      (Kept config past p .releaseAll (q, released) ↔ Fair past .releaseAll) ∧
      (Fair past .releaseAll → q.size = p.size ∧ q.InStep config []) := by
  obtain ⟨⟨q, released⟩, hRun⟩ := (releaseAll_faultsOnly (h.slots ▸ hWorkers)).exists_value
  have hAll := releasing_releaseAll (Nat.le_of_eq h.slots.symm) h.pairs hRun
  refine ⟨q, released, hRun, ⟨?_, fun hFair => ⟨?_, ?_⟩⟩,
    fun hFair => ⟨hAll.size, h.releasing hFair hAll⟩⟩
  · -- No worker gives back what is loaded on the thread outside.
    rintro ⟨-, hNone⟩ hOutside
    have hLoaded := hNone .outside (ensure_mem_of_mem_since hOutside)
    rw [hAll.loaded, if_neg fun hBefore => Nat.lt_irrefl _ hBefore.1,
      h.loaded_thread .outside hWorkers, if_pos hOutside] at hLoaded
    cases hLoaded
  · rw [hAll.counts, hAll.released, heldBelow_eq]
    intro i _ hReady
    rw [h.loaded_of_ready hFair hReady, Option.isSome_some]
  · intro caller _
    rw [(h.releasing hFair hAll).loaded]
    simp

/-- A step can be taken, and does what it should if and only if it is fair. Fair steps keep the pool
in step. -/
theorem InStep.perform (h : p.InStep config (since past)) (hWorkers : 0 < p.size)
    (hValid : config.isValid = true)
    (hStep : ∀ caller, s = .ensure caller → caller.number < p.size) :
    ∃ q released, p.perform config s = .ok (q, released) ∧
      (Kept config past p s (q, released) ↔ Fair past s) ∧
      (Fair past s → q.size = p.size ∧ q.InStep config (since (s :: past))) := by
  cases s with
  | ensure caller =>
      obtain ⟨q, hRun, hKept, hNext⟩ := h.ensure hValid (hStep caller rfl)
      exact ⟨q, 0, Checked.bind_eq_ok.2 ⟨q, hRun, rfl⟩, hKept, hNext⟩
  | releaseAll => exact h.releaseAll hWorkers

end Pool

end QuantAttention
