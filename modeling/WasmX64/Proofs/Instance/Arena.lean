import Mathlib.Algebra.Ring.Int.Defs
import Mathlib.Algebra.Ring.Nat
import WasmX64.Instance.Arena

/-!
# Calls on an arena

The places of an arena are handed out one after the other: aligned, inside and apart, and only
until it becomes executable.  Where a place ends is reckoned in machine words, so that a size
whose sum with its start wraps around passes for one that fits.  What the calls on an arena are
meant to keep they keep exactly as long as none of them asks for such a size.
-/

namespace WasmX64

/-- Code whose length is a machine word. -/
abbrev Slice := {code : List UInt8 // code.length < 2 ^ 63}

/-- One of two regions ends before the other begins. -/
def Region.Apart (first second : Region) : Prop :=
  first.start.toInt + first.size.toInt ≤ second.start.toInt ∨
    second.start.toInt + second.size.toInt ≤ first.start.toInt

namespace Arena

/-- A call on an arena. -/
inductive Call where
  | reserve (count : Int64)
  | write (code : Slice)
  | freeze
deriving DecidableEq

/-- The number of bytes that a call asks for. -/
def Call.count : Call → Int64
  | reserve count => count
  | write code => .ofNat code.val.length
  | freeze => 0

/-- The next multiple of sixteen. -/
def align (used : Nat) : Nat := (used + 15) / 16 * 16

/-- Where the bytes end that a call asks for. -/
def Call.finish (call : Call) (arena : Arena) : Int :=
  align arena.used.toNatClampNeg + call.count.toInt

/-- Bytes are asked for that end behind every machine word. -/
def Call.Overflows (call : Call) (arena : Arena) : Prop :=
  arena.isSealed = false ∧ 0 < call.count ∧ 2 ^ 63 ≤ call.finish arena

instance (call : Call) (arena : Arena) : Decidable (call.Overflows arena) :=
  inferInstanceAs (Decidable (_ ∧ _ ∧ _))

/-- What a call does.  One that asks for bytes is answered with their place. -/
def Call.perform : Call → ArenaM (Option Region)
  | reserve count => some <$> Arena.reserve count
  | write code => some <$> Arena.write code.val
  | freeze => (fun _ => none) <$> Arena.freeze

/-- A call that was made, with the arena before and after it and the place it was given. -/
structure Step where
  call : Call
  before : Arena
  answer : Except ArenaError (Option Region)
  after : Arena

/-- Makes a call. -/
def Call.step (call : Call) (arena : Arena) : Step :=
  match call.perform arena with
  | .ok region after => ⟨call, arena, .ok region, after⟩
  | .error error after => ⟨call, arena, .error error, after⟩

/-- Makes calls one after the other. -/
def trace (arena : Arena) : List Call → List Step
  | [] => []
  | call :: rest => call.step arena :: trace (call.step arena).after rest

namespace Step

/-- The call is answered with an error. -/
def Fails (step : Step) : Prop := ∃ error, step.answer = .error error

/-- The region that a call was given. -/
def region? (step : Step) : Option Region :=
  match step.answer with
  | .ok region? => region?
  | .error _ => none

/-- A region is as large as it was asked for, and lies aligned inside the arena. -/
structure Places (step : Step) (region : Region) : Prop where
  positive : 0 < region.size
  size : region.size = step.call.count
  aligned : 16 ∣ region.start.toInt
  start : 0 ≤ region.start
  finish : region.start.toInt + region.size.toInt ≤ step.before.size.toInt

/-- What one call on an arena is meant to keep. -/
structure Orderly (step : Step) : Prop where
  fails_iff : step.Fails ↔ step.call ≠ .freeze ∧
    (step.before.isSealed = true ∨ step.call.count ≤ 0 ∨ step.before.size.toInt < step.call.finish step.before)
  kept : step.Fails → step.after = step.before
  given : ¬ step.Fails → step.call ≠ .freeze → step.region?.isSome
  places : ∀ region, step.region? = some region → step.Places region
  grows : step.before.used ≤ step.after.used
  within : step.after.used ≤ step.after.size
  same : step.after.size = step.before.size

end Step

/-- What calls on an arena are meant to keep, one after the other. -/
structure Orderly (steps : List Step) : Prop where
  each : ∀ step ∈ steps, step.Orderly
  apart : (steps.filterMap Step.region?).Pairwise Region.Apart
  frozen : steps.Pairwise fun earlier later =>
    earlier.call = .freeze → later.after = earlier.after

/-- Clearing the four low bits rounds down to a multiple of sixteen. -/
theorem ofNat_mask (place : Nat) :
    Int64.ofNat place &&& ~~~15 = Int64.ofNat (place / 16 * 16) := by
  apply Int64.toBitVec_inj.mp
  change BitVec.ofNat 64 place &&& ~~~15#64 = BitVec.ofNat 64 (place / 16 * 16)
  have rounded : place / 16 * 16 = place >>> 4 <<< 4 := by
    rw [Nat.shiftRight_eq_div_pow, Nat.shiftLeft_eq]
  have low : ∀ bit, (15 : Nat).testBit bit = decide (bit < 4) :=
    fun bit => Nat.testBit_two_pow_sub_one 4 bit
  refine BitVec.eq_of_getLsbD_eq fun bit inside => ?_
  simp only [BitVec.getLsbD_and, BitVec.getLsbD_not, BitVec.getLsbD_ofNat, rounded, low,
    Nat.testBit_shiftLeft, Nat.testBit_shiftRight, inside, decide_true, Bool.true_and]
  by_cases high : bit < 4
  · simp [high, show ¬ 4 ≤ bit by omega]
  · simp [high, show bit ≥ 4 by omega, show 4 + (bit - 4) = bit by omega]

theorem le_align (used : Nat) : used ≤ align used := by
  unfold align
  omega

/-- An arena of a size, taken up to a place and open for more. -/
structure Taken (arena : Arena) (used size : Nat) : Prop where
  used : arena.used = .ofNat used
  size : arena.size = .ofNat size
  isOpen : arena.isSealed = false

theorem reserve_run (arena : Arena) (count : Int64) :
    reserve count arena =
      if arena.isSealed = true then .error .isSealed arena
      else if count ≤ 0 ∨ arena.size < arena.next + count then
        .error (.exhausted count arena.next arena.size) arena
      else if arena.next < 0 ∨ arena.next + count < arena.next then
        .error .unmapped { arena with used := arena.next + count }
      else .ok ⟨arena.next, count⟩ { arena with used := arena.next + count } := by
  unfold reserve
  change (if _ then _ else _ : ArenaM _) arena = _
  split
  · rfl
  · split
    · rfl
    · change (if _ then _ else _ : ArenaM _) _ = _
      split
      · rfl
      · rfl

theorem next_ofNat {arena : Arena} {used : Nat} (taken : arena.used = .ofNat used) :
    arena.next = .ofNat (align used) := by
  rw [next, taken]
  exact (congrArg (· &&& ~~~(15 : Int64)) (Int64.ofNat_add used 15).symm).trans (ofNat_mask _)

/-- Bytes are reserved as long as they end inside. -/
theorem Taken.reserve {arena : Arena} {used size count : Nat} (taken : arena.Taken used size)
    (positive : 0 < count) (large : size < 2 ^ 63) (room : align used + count < 2 ^ 63) :
    Arena.reserve (.ofNat count) arena =
      if size < align used + count then
        .error (.exhausted (.ofNat count) (.ofNat (align used)) arena.size) arena
      else
        .ok ⟨.ofNat (align used), .ofNat count⟩
          { arena with used := .ofNat (align used + count) } := by
  have start : arena.next = .ofNat (align used) := next_ofNat taken.used
  have finish : Int64.ofNat (align used) + .ofNat count = .ofNat (align used + count) :=
    (Int64.ofNat_add _ _).symm
  have counted : ¬ Int64.ofNat count ≤ 0 := by
    rw [Int64.le_iff_toInt_le, Int64.toInt_ofNat_of_lt (by omega), Int64.toInt_zero]
    omega
  have short : arena.size < .ofNat (align used + count) ↔ size < align used + count := by
    rw [taken.size, Int64.lt_iff_toInt_lt, Int64.toInt_ofNat_of_lt large,
      Int64.toInt_ofNat_of_lt room]
    omega
  have within : ¬ (Int64.ofNat (align used) < 0 ∨
      Int64.ofNat (align used + count) < .ofNat (align used)) := by
    rw [Int64.lt_iff_toInt_lt, Int64.lt_iff_toInt_lt, Int64.toInt_ofNat_of_lt room,
      Int64.toInt_ofNat_of_lt (by omega), Int64.toInt_zero]
    omega
  rw [reserve_run, if_neg (by simp [taken.isOpen]), start, finish]
  by_cases less : size < align used + count
  · rw [if_pos (.inr (short.mpr less)), if_pos less]
  · rw [if_neg (not_or.mpr ⟨counted, fun shorter => less (short.mp shorter)⟩), if_neg within, if_neg less]

theorem freeze_run (arena : Arena) :
    freeze arena =
      if arena.isSealed = true then .ok () arena
      else if arena.size = 0 then .error .released arena
      else .ok () { arena with isSealed := true } := by
  unfold freeze
  change (if _ then _ else _ : ArenaM _) arena = _
  split
  · rfl
  · split
    · rfl
    · rfl

theorem write_run (code : List UInt8) (arena : Arena) :
    write code arena =
      if code = [] then .error .emptyCode arena
      else
        match reserve (.ofNat code.length) arena with
        | .ok region after =>
          .ok region { after with
            writes := (region.start, code.take region.size.toNatClampNeg) :: after.writes }
        | .error error after => .error error after := by
  cases code with
  | nil => rfl
  | cons byte rest =>
    unfold write
    change (do
      let region ← reserve (.ofNat (byte :: rest).length)
      fill region (byte :: rest)
      return region : ArenaM _) arena = _
    rw [if_neg (List.cons_ne_nil _ _)]
    change EStateM.bind _ _ arena = _
    rw [EStateM.bind]
    cases reserve (.ofNat (byte :: rest).length) arena with
    | ok region after => rfl
    | error error after => rfl

/-- An arena in use has whole pages, of which a part is taken. -/
structure Sound (arena : Arena) : Prop where
  positive : 0 < arena.size.toInt
  whole : 4096 ∣ arena.size.toInt
  taken : 0 ≤ arena.used.toInt
  within : arena.used.toInt ≤ arena.size.toInt

/-- What a call can do: it is refused, it makes the arena executable, or it takes the next
bytes. -/
inductive Step.Lawful (step : Step) : Prop
  | refused (error : ArenaError) (fails : step.answer = .error error)
    (requests : step.call ≠ .freeze)
    (cause : step.before.isSealed = true ∨ step.call.count ≤ 0 ∨
      step.before.size.toInt < step.call.finish step.before)
    (kept : step.after = step.before)
  | frozen (call : step.call = .freeze) (succeeds : step.answer = .ok none)
    (after : step.after = { step.before with isSealed := true })
  | placed (region : Region) (succeeds : step.answer = .ok (some region))
    (requests : step.call ≠ .freeze)
    (isOpen : step.before.isSealed = false)
    (start : region.start.toInt = align step.before.used.toNatClampNeg)
    (count : region.size = step.call.count) (positive : 0 < step.call.count)
    (inside : step.call.finish step.before ≤ step.before.size.toInt)
    (used : step.after.used.toInt = step.call.finish step.before)
    (size : step.after.size = step.before.size)
    (stays : step.after.isSealed = false)

variable {arena : Arena} {call : Call}

theorem exists_ofNat {number : Int64} (positive : 0 ≤ number.toInt) :
    ∃ count < 2 ^ 63, number = .ofNat count := by
  have small := Int64.toInt_lt number
  refine ⟨number.toInt.toNat, by omega, ?_⟩
  apply Int64.toInt_inj.mp
  rw [Int64.toInt_ofNat_of_lt (by omega)]
  omega

theorem Call.perform_run (arena : Arena) (requests : call ≠ .freeze) :
    (call.count ≤ 0 ∧ ∃ error, call.perform arena = .error error arena) ∨
      ∃ fills : Region → Arena → List (Int64 × List UInt8), call.perform arena =
        match Arena.reserve call.count arena with
        | .ok region after => .ok (some region) { after with writes := fills region after }
        | .error error after => .error error after := by
  cases call with
  | reserve count =>
    refine .inr ⟨fun _ after => after.writes, ?_⟩
    change EStateM.map _ _ arena = _
    rw [EStateM.map, Call.count]
    cases Arena.reserve count arena <;> rfl
  | write code =>
    change _ ∨ ∃ _, EStateM.map _ _ arena = _
    rw [EStateM.map, write_run]
    by_cases empty : code.val = []
    · refine .inl ⟨?_, .emptyCode, ?_⟩
      · rw [count, empty]
        decide
      · change EStateM.map _ _ arena = _
        rw [EStateM.map, write_run, if_pos empty]
    · refine .inr ⟨fun region after => (region.start, code.val.take region.size.toNatClampNeg) ::
        after.writes, ?_⟩
      rw [if_neg empty, Call.count]
      cases Arena.reserve (.ofNat code.val.length) arena <;> rfl
  | freeze => exact absurd rfl requests

theorem Sound.counts (sound : arena.Sound) :
    ∃ used size, arena.used = .ofNat used ∧ arena.size = .ofNat size ∧ used ≤ size ∧
      size + 15 < 2 ^ 63 ∧ align used ≤ size := by
  obtain ⟨positive, ⟨pages, whole⟩, taken, within⟩ := sound
  obtain ⟨used, usedSmall, usedIs⟩ := exists_ofNat taken
  obtain ⟨size, sizeSmall, sizeIs⟩ := exists_ofNat (Int.le_of_lt positive)
  rw [sizeIs, Int64.toInt_ofNat_of_lt sizeSmall] at whole within
  rw [usedIs, Int64.toInt_ofNat_of_lt usedSmall] at within
  refine ⟨used, size, usedIs, sizeIs, by omega, by omega, ?_⟩
  unfold align
  omega

theorem step_of_ok {region? : Option Region} {after : Arena}
    (runs : call.perform arena = .ok region? after) :
    call.step arena = ⟨call, arena, .ok region?, after⟩ := by
  rw [Call.step, runs]

theorem step_of_error {error : ArenaError} {after : Arena}
    (runs : call.perform arena = .error error after) :
    call.step arena = ⟨call, arena, .error error, after⟩ := by
  rw [Call.step, runs]

theorem Sound.freeze_lawful (sound : arena.Sound) : (Call.freeze.step arena).Lawful := by
  have some : arena.size ≠ 0 := fun none => absurd sound.positive (by rw [none]; decide)
  have runs : Call.freeze.perform arena = .ok none { arena with isSealed := true } := by
    change EStateM.map _ _ arena = _
    rw [EStateM.map, freeze_run, if_neg some]
    by_cases closed : arena.isSealed = true
    · rw [if_pos closed, ← closed]
    · rw [if_neg closed]
  rw [step_of_ok runs]
  exact .frozen rfl rfl rfl

/-- A call that does not ask for too much is refused, or takes the next bytes. -/
theorem Sound.step_lawful (sound : arena.Sound) (bounded : ¬ call.Overflows arena) :
    (call.step arena).Lawful := by
  by_cases requests : call = .freeze
  · rw [requests]
    exact sound.freeze_lawful
  rcases Call.perform_run arena requests with ⟨none, error, runs⟩ | ⟨fills, runs⟩
  · rw [step_of_error runs]
    exact .refused error rfl requests (.inr (.inl none)) rfl
  by_cases closed : arena.isSealed = true
  · rw [reserve_run, if_pos closed] at runs
    rw [step_of_error runs]
    exact .refused _ rfl requests (.inl closed) rfl
  by_cases none : call.count ≤ 0
  · rw [reserve_run, if_neg closed, if_pos (.inl none)] at runs
    rw [step_of_error runs]
    exact .refused _ rfl requests (.inr (.inl none)) rfl
  have isOpen : arena.isSealed = false := Bool.eq_false_iff.mpr closed
  obtain ⟨used, size, usedIs, sizeIs, within, large, aligned⟩ := sound.counts
  have positive : 0 < call.count := Int64.not_le.mp none
  have counts : 0 < call.count.toInt := Int64.lt_iff_toInt_lt.mp positive
  obtain ⟨count, small, countIs⟩ := exists_ofNat (Int.le_of_lt counts)
  have start : align arena.used.toNatClampNeg = align used := by
    rw [usedIs, Int64.toNatClampNeg_ofNat_of_lt (by omega)]
  have finish : call.finish arena = align used + count := by
    rw [Call.finish, start, countIs, Int64.toInt_ofNat_of_lt small]
  have room : align used + count < 2 ^ 63 := by
    have ends : ¬ 2 ^ 63 ≤ call.finish arena := fun much => bounded ⟨isOpen, positive, much⟩
    omega
  have taken : arena.Taken used size := ⟨usedIs, sizeIs, isOpen⟩
  rw [countIs, Int64.toInt_ofNat_of_lt small] at counts
  rw [countIs, taken.reserve (by omega) (by omega) room] at runs
  have sized : arena.size.toInt = size := by
    rw [sizeIs, Int64.toInt_ofNat_of_lt (by omega)]
  by_cases less : size < align used + count
  · rw [if_pos less] at runs
    rw [step_of_error runs]
    refine .refused _ rfl requests (.inr (.inr ?_)) rfl
    change arena.size.toInt < call.finish arena
    omega
  · rw [if_neg less] at runs
    rw [step_of_ok runs]
    refine .placed _ rfl requests isOpen ?_ countIs.symm positive ?_ ?_ rfl isOpen
    · change (Int64.ofNat (align used)).toInt = align arena.used.toNatClampNeg
      rw [start, Int64.toInt_ofNat_of_lt (by omega)]
    · change call.finish arena ≤ arena.size.toInt
      omega
    · change (Int64.ofNat (align used + count)).toInt = call.finish arena
      rw [finish, Int64.toInt_ofNat_of_lt room]
      omega

namespace Step

variable {step : Step}

theorem fails_of_error {error : ArenaError} (answer : step.answer = .error error) :
    step.Fails ∧ step.region? = none :=
  ⟨⟨error, answer⟩, by rw [region?, answer]⟩

theorem region_of_ok {place : Option Region} (answer : step.answer = .ok place) :
    ¬ step.Fails ∧ step.region? = place := by
  refine ⟨?_, by rw [region?, answer]⟩
  rintro ⟨error, fails⟩
  rw [answer] at fails
  cases fails

theorem Lawful.sound (lawful : step.Lawful) (sound : step.before.Sound) : step.after.Sound := by
  cases lawful with
  | refused _ _ _ _ kept => rwa [kept]
  | frozen _ _ after =>
    rw [after]
    exact ⟨sound.positive, sound.whole, sound.taken, sound.within⟩
  | placed region _ _ _ _ _ positive inside used size =>
    have more : 0 < step.call.count.toInt := Int64.lt_iff_toInt_lt.mp positive
    refine ⟨by rw [size]; exact sound.positive, by rw [size]; exact sound.whole, ?_, ?_⟩
    · rw [used, Call.finish]
      omega
    · rw [used, size]
      exact inside

theorem Lawful.between (lawful : step.Lawful) (sound : step.before.Sound) {region : Region}
    (given : step.region? = some region) :
    step.before.used.toInt ≤ region.start.toInt ∧
      region.start.toInt + region.size.toInt = step.after.used.toInt := by
  cases lawful with
  | refused _ fails =>
    rw [(fails_of_error fails).2] at given
    cases given
  | frozen _ succeeds =>
    rw [(region_of_ok succeeds).2] at given
    cases given
  | placed place succeeds _ _ start count _ _ used =>
    rw [(region_of_ok succeeds).2] at given
    cases given
    obtain ⟨taken, _, usedIs, _, _, large, _⟩ := sound.counts
    have least := le_align taken
    rw [used, Call.finish, start, count, usedIs, Int64.toNatClampNeg_ofNat_of_lt (by omega),
      Int64.toInt_ofNat_of_lt (by omega)]
    omega

theorem Lawful.orderly (lawful : step.Lawful) (sound : step.before.Sound) : step.Orderly := by
  have after := lawful.sound sound
  have between := fun region (given : step.region? = some region) => lawful.between sound given
  cases lawful with
  | refused error fails requests cause kept =>
    obtain ⟨failed, none⟩ := fails_of_error fails
    exact {
      fails_iff := iff_of_true failed ⟨requests, cause⟩
      kept := fun _ => kept
      given := fun succeeds => absurd failed succeeds
      places := fun region given => by rw [none] at given; cases given
      grows := by rw [kept]; exact Int64.le_refl _
      within := Int64.le_iff_toInt_le.mpr after.within
      same := by rw [kept] }
  | frozen call succeeds later =>
    obtain ⟨succeeded, none⟩ := region_of_ok succeeds
    exact {
      fails_iff := iff_of_false succeeded fun requests => requests.1 call
      kept := fun failed => absurd failed succeeded
      given := fun _ requests => absurd call requests
      places := fun region given => by rw [none] at given; cases given
      grows := by rw [later]; exact Int64.le_refl _
      within := Int64.le_iff_toInt_le.mpr after.within
      same := by rw [later] }
  | placed region succeeds requests isOpen start count positive inside used size =>
    obtain ⟨succeeded, given⟩ := region_of_ok succeeds
    have between := between region given
    have more : 0 < step.call.count.toInt := Int64.lt_iff_toInt_lt.mp positive
    rw [used, count] at between
    refine {
      fails_iff := iff_of_false succeeded ?_
      kept := fun failed => absurd failed succeeded
      given := fun _ _ => by rw [given]; rfl
      places := fun other same => ?_
      grows := by rw [Int64.le_iff_toInt_le]; omega
      within := Int64.le_iff_toInt_le.mpr after.within
      same := size }
    · rintro ⟨_, closed | none | less⟩
      · rw [isOpen] at closed
        cases closed
      · exact Int64.not_le.mpr positive none
      · omega
    · rw [given] at same
      cases same
      refine ⟨count ▸ positive, count, ?_, ?_, ?_⟩
      · rw [start, align]
        omega
      · rw [Int64.le_iff_toInt_le, start, Int64.toInt_zero]
        omega
      · rw [count]
        omega

end Step

/-- A call that asks for too much is refused after the arena has been changed. -/
theorem Sound.not_orderly (sound : arena.Sound) (overflows : call.Overflows arena) :
    ¬ (call.step arena).Orderly := by
  obtain ⟨isOpen, positive, much⟩ := overflows
  intro orderly
  have requests : call ≠ .freeze := by
    rintro rfl
    exact absurd positive (by decide)
  obtain ⟨used, size, usedIs, sizeIs, within, large, aligned⟩ := sound.counts
  have counts : 0 < call.count.toInt := Int64.lt_iff_toInt_lt.mp positive
  have small := Int64.toInt_lt call.count
  have start : arena.next.toInt = align used := by
    rw [next_ofNat usedIs, Int64.toInt_ofNat_of_lt (by omega)]
  -- the sum with the start is negative
  have wraps : (arena.next + call.count).toInt = align used + call.count.toInt - 2 ^ 64 := by
    rw [Call.finish, usedIs, Int64.toNatClampNeg_ofNat_of_lt (by omega)] at much
    rw [Int64.toInt_add, start, Int.bmod_def]
    omega
  have none : ¬ call.count ≤ 0 := Int64.not_le.mpr positive
  have passes : ¬ arena.size < arena.next + call.count := by
    have positive := sound.positive
    rw [Int64.lt_iff_toInt_lt, wraps]
    omega
  have strays : arena.next + call.count < arena.next := by
    rw [Int64.lt_iff_toInt_lt, wraps, start]
    omega
  rcases Call.perform_run arena requests with ⟨none', _⟩ | ⟨fills, runs⟩
  · exact none none'
  rw [reserve_run, if_neg (by simp [isOpen]), if_neg (not_or.mpr ⟨none, passes⟩),
    if_pos (.inr strays)] at runs
  rw [step_of_error runs] at orderly
  have kept := congrArg (fun arena => arena.used.toInt) (orderly.kept ⟨_, rfl⟩)
  have taken := sound.taken
  change (arena.next + call.count).toInt = arena.used.toInt at kept
  omega

variable {calls : List Call}

theorem step_fields (call : Call) (arena : Arena) :
    (call.step arena).call = call ∧ (call.step arena).before = arena := by
  rw [Call.step]
  cases call.perform arena <;> exact ⟨rfl, rfl⟩

/-- Nothing changes an arena that is executable. -/
theorem Sound.trace_sealed (sound : arena.Sound) (closed : arena.isSealed = true) :
    ∀ step ∈ trace arena calls, step.after = arena := by
  induction calls with
  | nil => exact fun step inside => absurd inside List.not_mem_nil
  | cons call rest ih =>
    have bounded : ¬ call.Overflows arena := by
      rintro ⟨isOpen, _⟩
      rw [closed] at isOpen
      cases isOpen
    have same : (call.step arena).after = arena := by
      have fields := (step_fields call arena).2
      cases sound.step_lawful bounded with
      | refused _ _ _ _ kept => rw [kept, fields]
      | frozen _ _ after => rw [after, fields, ← closed]
      | placed _ _ _ isOpen =>
        rw [fields, closed] at isOpen
        cases isOpen
    rw [trace, same]
    exact List.forall_mem_cons.mpr ⟨same, ih⟩

theorem Sound.trace_orderly (sound : arena.Sound)
    (bounded : ∀ step ∈ trace arena calls, ¬ step.call.Overflows step.before) :
    Orderly (trace arena calls) ∧
      ∀ region ∈ (trace arena calls).filterMap Step.region?,
        arena.used.toInt ≤ region.start.toInt := by
  induction calls generalizing arena with
  | nil =>
    refine ⟨⟨?_, List.Pairwise.nil, List.Pairwise.nil⟩, ?_⟩
    · exact fun step inside => absurd inside List.not_mem_nil
    · exact fun region inside => absurd inside List.not_mem_nil
  | cons call rest ih =>
    obtain ⟨here, later⟩ := List.forall_mem_cons.mp bounded
    obtain ⟨callIs, beforeIs⟩ := step_fields call arena
    rw [callIs, beforeIs] at here
    have lawful := sound.step_lawful here
    rw [← beforeIs] at sound
    have after := lawful.sound sound
    have orderly := lawful.orderly sound
    obtain ⟨⟨each, apart, frozen⟩, behind⟩ := ih after later
    have grows := Int64.le_iff_toInt_le.mp orderly.grows
    rw [beforeIs] at grows
    refine ⟨⟨List.forall_mem_cons.mpr ⟨orderly, each⟩, ?_, ?_⟩, ?_⟩
    · rw [trace, List.filterMap_cons]
      cases given : (call.step arena).region? with
      | none => exact apart
      | some region =>
        have between := (lawful.between sound given).2
        refine List.pairwise_cons.mpr ⟨fun other inside => .inl ?_, apart⟩
        rw [between]
        exact behind other inside
    · refine List.pairwise_cons.mpr ⟨fun step inside freezes => ?_, frozen⟩
      cases lawful with
      | refused _ _ requests => exact absurd freezes requests
      | frozen _ _ closes => exact after.trace_sealed (by rw [closes]) step inside
      | placed _ _ requests => exact absurd freezes requests
    · rw [trace, List.filterMap_cons]
      cases given : (call.step arena).region? with
      | none => exact fun region inside => Int.le_trans grows (behind region inside)
      | some region =>
        have between := (lawful.between sound given).1
        rw [beforeIs] at between
        exact List.forall_mem_cons.mpr
          ⟨between, fun other inside => Int.le_trans grows (behind other inside)⟩

theorem Sound.trace_bounded (sound : arena.Sound)
    (orderly : ∀ step ∈ trace arena calls, step.Orderly) :
    ∀ step ∈ trace arena calls, ¬ step.call.Overflows step.before := by
  induction calls generalizing arena with
  | nil => exact fun step inside => absurd inside List.not_mem_nil
  | cons call rest ih =>
    obtain ⟨here, later⟩ := List.forall_mem_cons.mp orderly
    obtain ⟨callIs, beforeIs⟩ := step_fields call arena
    have bounded : ¬ call.Overflows arena := fun overflows => sound.not_orderly overflows here
    have after := (sound.step_lawful bounded).sound (by rwa [beforeIs])
    refine List.forall_mem_cons.mpr ⟨?_, ih after later⟩
    rwa [callIs, beforeIs]

theorem whole_roundUp (bytes : Int64) : 4096 ∣ (roundUp bytes).toInt := by
  have sized : page.toInt = 4096 := rfl
  rw [roundUp, Int64.toInt_mul, sized, Int.bmod_def]
  omega

/-- A fresh arena has whole pages, none of which is taken. -/
theorem create_sound {bytes : Int64} (created : create bytes = .ok arena) : arena.Sound := by
  unfold create at created
  split at created
  · cases created
  split at created
  · cases created
  · rename_i some
    cases created
    have positive : 0 < (roundUp bytes).toInt := Int64.lt_iff_toInt_lt.mp (Int64.not_le.mp some)
    exact ⟨positive, whole_roundUp bytes, Int.le_refl _, Int.le_of_lt positive⟩

/-- Calls on a fresh arena get regions that are aligned, inside and apart, are refused exactly
when there is no room, and change nothing once it is executable, as long as none of them asks
for bytes that end behind every machine word. -/
theorem calls_orderly_iff {bytes : Int64} (created : create bytes = .ok arena)
    (calls : List Call) :
    Orderly (trace arena calls) ↔
      ∀ step ∈ trace arena calls, ¬ step.call.Overflows step.before := by
  have sound := create_sound created
  constructor
  · intro orderly
    exact sound.trace_bounded orderly.each
  · intro bounded
    exact (sound.trace_orderly bounded).1

/-- On an arena of one page, two places can be taken before it is executable. -/
theorem calls_orderly_iff_page :
    Orderly (trace { size := 4096 }
      [.reserve 1024, .write ⟨[0xC3], by decide⟩, .reserve 4096, .freeze, .reserve 1]) := by
  refine (calls_orderly_iff (show create 4000 = .ok { size := 4096 } by rfl) _).mpr ?_
  decide

/-- Bytes are asked for that end at `2 ^ 63`: the call does not go through, but the arena is not
what it was. -/
theorem not_orderly_wide :
    create 4096 = .ok { size := 4096 } ∧
      ¬ Orderly (trace { size := 4096 } [.reserve 1024, .reserve 9223372036854774784]) := by
  refine ⟨rfl, fun orderly => ?_⟩
  have second := orderly.each _ (.tail _ (.head _))
  exact absurd (congrArg Arena.used (second.kept ⟨.unmapped, rfl⟩)) (by decide)

end Arena

end WasmX64
