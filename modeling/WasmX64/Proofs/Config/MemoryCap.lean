import Mathlib.Algebra.Ring.Nat
import WasmX64.Config.Basic

/-!
# Caps on memory

Besides its limits in pages a configuration may cap the size of memory in bytes.  The number
of whole pages under such a cap is cut to 32 bits before it is compared with the limits, so
that a cap of 2 ^ 48 bytes or more is kept as it is written only if what is left of it does
not fall below a maximum.
-/

namespace WasmX64.Config

def pagesUnder (config : Config) (cap : Nat) : Nat :=
  if config.maxPages = 0 then cap else min config.maxPages.toNat cap

/-- The maximum in pages is below the minimum. -/
def Crossed (config : Config) : Prop :=
  config.maxPages ≠ 0 ∧ config.maxPages < config.minPages

instance (config : Config) : Decidable config.Crossed :=
  inferInstanceAs (Decidable (_ ∧ _))

/-- The host of a configuration has the limits that a cap of a number of pages asks for.  There
is none exactly if the mode is unknown or no room is left for the minimum. -/
structure CappedAt (config : Config) (cap : Nat) : Prop where
  limits : ∀ host, config.host = .ok host →
    BoundsMode.ofName? config.boundsChecks = some host.bounds ∧
      host.minPages = config.minPages ∧ host.maxPages.toNat = config.pagesUnder cap ∧
      host.minPages ≤ host.maxPages
  refused : (∃ error, config.host = .error error) ↔
    BoundsMode.ofName? config.boundsChecks = none ∨ config.Crossed ∨
      config.pagesUnder cap < config.minPages.toNat

variable {config : Config} {bytes : Int}

/-- Of the number of whole pages the low 32 bits are kept. -/
theorem toNat_pagesOf (positive : 0 ≤ bytes) :
    (pagesOf bytes).toNat = (bytes / pageSize).toNat % 2 ^ 32 := by
  have quotient : bytes.tdiv pageSize = bytes / pageSize :=
    Int.tdiv_eq_ediv_of_nonneg positive
  have whole : 0 ≤ bytes / (pageSize : Int) := Int.ediv_nonneg positive (by decide)
  rw [pagesOf, quotient, UInt32.toNat_ofNat']
  omega

theorem host_run (config : Config) :
    config.host =
      match BoundsMode.ofName? config.boundsChecks with
      | none => .error (.boundsMode config.boundsChecks)
      | some bounds =>
        if config.Crossed then .error (.memoryLimits config.maxPages config.minPages)
        else
          config.capMemory { bounds, minPages := config.minPages, maxPages := config.maxPages } := by
  unfold host
  cases BoundsMode.ofName? config.boundsChecks with
  | none => rfl
  | some bounds =>
    by_cases crossed : config.Crossed
    · exact (if_pos crossed).trans (if_pos crossed).symm
    · exact (if_neg crossed).trans (if_neg crossed).symm

theorem capMemory_run (bounds : BoundsMode) (capped : config.maxMemory.isEmpty = false)
    (reads : Size.parse config.maxMemory = .ok bytes) (positive : 0 ≤ bytes) :
    let cap := config.pagesUnder ((bytes / pageSize).toNat % 2 ^ 32)
    ∃ maxPages : UInt32, maxPages.toNat = cap ∧
      config.capMemory { bounds, minPages := config.minPages, maxPages := config.maxPages } =
        if cap < config.minPages.toNat then .error (.maxMemoryLow config.maxMemory)
        else .ok { bounds, minPages := config.minPages, maxPages } := by
  let maxPages :=
    if config.maxPages = 0 ∨ pagesOf bytes < config.maxPages then pagesOf bytes
    else config.maxPages
  have kept : maxPages.toNat = config.pagesUnder ((bytes / pageSize).toNat % 2 ^ 32) := by
    rw [← toNat_pagesOf positive, pagesUnder]
    by_cases unlimited : config.maxPages = 0
    · rw [if_pos unlimited]
      exact congrArg UInt32.toNat (if_pos (.inl unlimited))
    · rw [if_neg unlimited]
      by_cases fewer : pagesOf bytes < config.maxPages
      · rw [Nat.min_eq_right (Nat.le_of_lt (UInt32.lt_iff_toNat_lt.mp fewer))]
        exact congrArg UInt32.toNat (if_pos (.inr fewer))
      · rw [Nat.min_eq_left (Nat.le_of_not_lt (mt UInt32.lt_iff_toNat_lt.mpr fewer))]
        exact congrArg UInt32.toNat (if_neg (not_or.mpr ⟨unlimited, fewer⟩))
  refine ⟨maxPages, kept, ?_⟩
  have runs : config.capMemory
      { bounds, minPages := config.minPages, maxPages := config.maxPages } =
      if maxPages < config.minPages then .error (.maxMemoryLow config.maxMemory)
      else .ok { bounds, minPages := config.minPages, maxPages } := by
    unfold capMemory
    rw [capped, reads]
    change (if maxPages < config.minPages then _ else _ : Except ConfigError Host) = _
    split
    · rfl
    · rfl
  rw [runs, ← kept]
  simp only [UInt32.lt_iff_toNat_lt]

/-- The limits are those of the cap with its number of pages cut to 32 bits. -/
theorem cappedAt_low (capped : config.maxMemory.isEmpty = false)
    (reads : Size.parse config.maxMemory = .ok bytes) (positive : 0 ≤ bytes) :
    config.CappedAt ((bytes / pageSize).toNat % 2 ^ 32) := by
  have runs := config.host_run
  cases mode : BoundsMode.ofName? config.boundsChecks with
  | none =>
    rw [mode] at runs
    exact ⟨fun host given => by simp [runs] at given, by simp [runs, mode]⟩
  | some bounds =>
    obtain ⟨maxPages, same, limits⟩ := capMemory_run bounds capped reads positive
    generalize (bytes / pageSize).toNat % 2 ^ 32 = cap at same limits ⊢
    simp only [mode, limits] at runs
    by_cases crossed : config.Crossed
    · rw [if_pos crossed] at runs
      exact ⟨fun host given => by simp [runs] at given, by simp [runs, crossed]⟩
    · rw [if_neg crossed] at runs
      by_cases low : config.pagesUnder cap < config.minPages.toNat
      · rw [if_pos low] at runs
        exact ⟨fun host given => by simp [runs] at given, by simp [runs, low]⟩
      · rw [if_neg low] at runs
        refine ⟨fun host given => ?_, by simp [runs, mode, crossed, low]⟩
        obtain rfl := Except.ok.inj (runs.symm.trans given)
        exact ⟨mode, rfl, same, UInt32.le_iff_toNat_le.mpr (same ▸ Nat.le_of_not_lt low)⟩

theorem CappedAt.congr {cap other : Nat} (limited : config.CappedAt cap)
    (same : config.pagesUnder cap = config.pagesUnder other) : config.CappedAt other := by
  refine ⟨?_, ?_⟩
  · rw [← same]
    exact limited.limits
  · rw [← same]
    exact limited.refused

theorem CappedAt.refuses {cap other : Nat} (limited : config.CappedAt cap)
    (refused : BoundsMode.ofName? config.boundsChecks = none ∨ config.Crossed) :
    config.CappedAt other := by
  have cause : ∀ pages, BoundsMode.ofName? config.boundsChecks = none ∨ config.Crossed ∨
      config.pagesUnder pages < config.minPages.toNat :=
    fun _ => refused.imp_right .inl
  obtain ⟨error, fails⟩ := limited.refused.mpr (cause cap)
  exact ⟨fun host given => by simp [fails] at given, iff_of_true ⟨error, fails⟩ (cause other)⟩

/-- A configuration keeps a cap in bytes as it is written exactly if it is refused anyway, the
number of whole pages has 32 bits, or what the low 32 bits make of it does not fall below a
maximum. -/
theorem memoryCap_kept_iff (capped : config.maxMemory.isEmpty = false)
    (reads : Size.parse config.maxMemory = .ok bytes) (positive : 0 ≤ bytes) :
    let pages := (bytes / pageSize).toNat
    config.CappedAt (pages % 2 ^ 32) ∧
      (config.CappedAt pages ↔
        BoundsMode.ofName? config.boundsChecks = none ∨ config.Crossed ∨ pages < 2 ^ 32 ∨
          config.maxPages ≠ 0 ∧ config.maxPages.toNat ≤ pages % 2 ^ 32) := by
  intro pages
  have low : config.CappedAt (pages % 2 ^ 32) := cappedAt_low capped reads positive
  have small := config.maxPages.toNat_lt
  have smallMin := config.minPages.toNat_lt
  refine ⟨low, fun kept => ?_, fun keeps => ?_⟩
  · apply Classical.byContradiction
    intro lost
    simp only [not_or, not_and, Nat.not_lt, Nat.not_le] at lost
    obtain ⟨named, ordered, many, below⟩ := lost
    -- The cap is above every limit, but what is compared is less than the maximum.
    have roomy : ¬ config.pagesUnder pages < config.minPages.toNat := by
      unfold pagesUnder
      split
      · omega
      · rename_i limited
        have order := mt UInt32.lt_iff_toNat_lt.mpr (fun less => ordered ⟨limited, less⟩)
        omega
    cases outcome : config.host with
    | error error =>
      rcases kept.refused.mp ⟨error, outcome⟩ with mode | crossed | tight
      · exact named mode
      · exact ordered crossed
      · exact roomy tight
    | ok host =>
      have same := (low.limits host outcome).2.2.1.symm.trans (kept.limits host outcome).2.2.1
      unfold pagesUnder at same
      split at same
      · omega
      · rename_i limited
        have less := below limited
        omega
  · rcases keeps with mode | crossed | few | ⟨limited, above⟩
    · exact low.refuses (.inl mode)
    · exact low.refuses (.inr crossed)
    · rwa [Nat.mod_eq_of_lt few] at low
    · refine low.congr ?_
      rw [pagesUnder, pagesUnder, if_neg limited, if_neg limited, Nat.min_eq_left above,
        Nat.min_eq_left (Nat.le_trans above (Nat.mod_le _ _))]

def tenPages (size : String) : Config :=
  { boundsChecks := "dynamic", minPages := 1, maxPages := 10, maxMemory := size }

/-- Of 257 TiB less than the maximum is cut off. -/
theorem memoryCap_kept_large :
    Size.parse "257TiB" = .ok 282574488338432 ∧ (tenPages "257TiB").CappedAt 4311744512 := by
  have reads : Size.parse "257TiB" = .ok 282574488338432 := rfl
  have outcome := @memoryCap_kept_iff (tenPages "257TiB") _ (by decide) reads (by decide)
  exact ⟨reads, outcome.2.mpr (.inr (.inr (.inr (by decide))))⟩

/-- A cap of 256 TiB leaves no page of ten. -/
theorem memoryCap_lost :
    Size.parse "256TiB" = .ok 281474976710656 ∧
      (tenPages "256TiB").host = .error (.maxMemoryLow "256TiB") ∧
      ¬ (tenPages "256TiB").CappedAt (281474976710656 / pageSize) := by
  have reads : Size.parse "256TiB" = .ok 281474976710656 := rfl
  have outcome : (tenPages "256TiB").host = .error (.maxMemoryLow "256TiB") := rfl
  refine ⟨reads, outcome, fun kept => ?_⟩
  have refused := kept.refused.mp ⟨_, outcome⟩
  revert refused
  decide

end WasmX64.Config
