import WasmX64.Instance.Load
import WasmX64.Proofs.LinearMemory.Growth

/-!
# The limits of memory

Memory starts with the larger of the two minima, its own and that of the host, and any number of
growths leaves it at most at the smaller of the two maxima, or where it started.
-/

namespace WasmX64

theorem follow_constant {dst : Register} (suits : Compile.Suits .gp dst) (value : Int32)
    (machine : Processor) :
    ∃ next, Processor.follow none machine
        (Sequence.loadConstant .i32 dst (Slot.constBits .i32 value)) = some (.falls next) ∧
      next.memory = machine.memory ∧ next.regs dst = value.toBitVec.setWidth 64 := by
  have fits : Suits .i32 dst := ⟨rfl, Register.isMachine_of_isAllocable suits.1, suits.2⟩
  obtain ⟨instructions, next, runs, memory, regs⟩ :=
    Sequence.loadConstant_runs fits rfl value machine
  refine ⟨next, Processor.follow_runs runs, memory, ?_⟩
  rw [regs, Processor.regs_setReg, if_pos rfl, Sequence.constBits_i32]
  simp [ValueType.clip, narrow, ValueType.size, ValueType.is64]

namespace Compile

variable {subject : Subject} {state : Compilation}

/-- Without a maximum the size stays. -/
theorem lowerMemoryGrow_refuses (orderly : Orderly subject state)
    (memory : subject.module.memory.isSome = true) (offers : Offers state [.i32])
    (fixed : subject.host.maxPages = 0) :
    Compiles lowerMemoryGrow subject state fun _ after parts =>
      ∃ dst, after.layout.top? = some (.inReg .i32 dst) ∧
        ∀ addresses (machine : Processor),
          machine.Aside state.layout.height (addresses .memorySize 0) 8 →
          ∃ next, machine.followParts addresses parts = some (.falls next) ∧
            next.memorySize addresses = machine.memorySize addresses := by
  refine .bind (demandMemory_compiles memory (.bind (offers.expect orderly.books rfl (.bind
    (.read ?_)))))
  rw [if_pos fixed]
  refine .bind ((dropOperand_compiles orderly offers).mono ?_)
  rintro _ dropped _ ⟨rest, slots, rfl⟩
  obtain ⟨spare, suits, _⟩ := @exists_spare .gp [] (by decide)
  refine .bind ((takeRegister_compiles rest suits (RegSet.has_empty spare)).mono ?_)
  intro dst taken spilling free
  refine .bind (.emit (.modifyLayout ⟨dst, top?_push _ _, ?_⟩))
  intro addresses machine aside
  obtain ⟨middle, runs, _, persists⟩ := free.spills.follows addresses machine
  obtain ⟨next, loads, kept, _⟩ := follow_constant free.suits (-1) middle
  refine ⟨next, ?_, ?_⟩
  · simp only [List.nil_append, List.append_nil]
    rw [Processor.followParts_falls runs]
    exact Processor.followParts_steps loads
  · rw [Processor.memorySize, kept]
    refine persists.read (fun _ _ => id) fun offset inside index small => ?_
    have fewer : dropped.layout.height ≤ state.layout.height := by
      simp [Layout.height, slots]
    exact aside offset inside index (Nat.lt_of_lt_of_le small fewer)

theorem lowerMemorySize_compiles (orderly : Orderly subject state)
    (memory : subject.module.memory.isSome = true) :
    Compiles lowerMemorySize subject state fun _ after parts =>
      ∃ dst, after.layout.top? = some (.inReg .i32 dst) ∧
        ∀ addresses (machine : Processor) pages, pages < 2 ^ 32 →
          (subject.host.maxPages = 0 → pages = subject.host.minPages.toNat) →
          machine.memorySize addresses = BitVec.ofNat 64 (pages * pageSize) →
          machine.Aside state.layout.height (addresses .memorySize 0) 8 →
          ∃ next, machine.followParts addresses parts = some (.falls next) ∧
            next.regs dst = BitVec.ofNat 64 pages := by
  obtain ⟨spare, suits, _⟩ := @exists_spare .gp [] (by decide)
  refine .bind (demandMemory_compiles memory (.bind (.read (.bind
    ((takeRegister_compiles orderly suits (RegSet.has_empty spare)).mono ?_)))))
  intro dst taken spilling free
  by_cases fixed : subject.host.maxPages = 0
  · rw [if_pos fixed]
    refine .bind (.emit (.modifyLayout ⟨dst, top?_push _ _, ?_⟩))
    intro addresses machine pages few constant _ _
    obtain ⟨middle, runs, _, _⟩ := free.spills.follows addresses machine
    obtain ⟨next, loads, _, value⟩ := follow_constant free.suits subject.host.minPages.toInt32 middle
    refine ⟨next, ?_, ?_⟩
    · simp only [List.nil_append, List.append_nil]
      rw [Processor.followParts_falls runs]
      exact Processor.followParts_steps loads
    · rw [value, constant fixed]
      exact (BitVec.ofNat_toNat 64 _).symm
  · rw [if_neg fixed]
    refine .bind (.machine fun events => .bind (.loadRef fun output refs => .emit ?_))
    refine fun events => .modifyLayout ⟨dst, top?_push _ _, ?_⟩
    intro addresses machine pages few _ size aside
    obtain ⟨middle, runs, _, persists⟩ := free.spills.follows addresses machine
    obtain ⟨next, loads, value, _⟩ :=
      @Processor.followParts_loadPages addresses dst dst middle free.suits.present
    have sized : middle.memorySize addresses = BitVec.ofNat 64 (pages * pageSize) := by
      rw [← size]
      exact persists.read (fun _ _ => id) aside
    refine ⟨next, ?_, ?_⟩
    · simp only [List.nil_append, List.append_nil, List.cons_append]
      rw [Processor.followParts_falls runs]
      exact loads
    · rw [value, sized, shiftRight_pages (by omega)]

theorem Offers.operand_lt {types : List ValueType} (offers : Offers state (.i32 :: types))
    (machine : Processor) : (state.layout.operand machine 0).toNat < 2 ^ 32 := by
  obtain ⟨slot, found, type⟩ := offers.slots 0 .i32 rfl
  have clipped := machine.clip_slotValue slot (state.layout.height - 1 - 0)
  simp only [Layout.operand, found]
  rw [← clipped, type]
  simp only [ValueType.clip, narrow, BitVec.toNat_setWidth]
  exact Nat.lt_of_le_of_lt (Nat.mod_le _ _) (Nat.mod_lt _ (by decide))

end Compile

open Compile

/-- A place in the code of a module, under a host, where a memory instruction can stand. -/
structure MemorySite (module : Module) (host : Host) where
  subject : Subject
  state : Compilation
  module_eq : subject.module = module
  host_eq : subject.host = host.narrow module.memory
  orderly : Orderly subject state

structure GrowthSite (module : Module) (host : Host) extends MemorySite module host where
  offers : Offers state [.i32]

/-- The number of pages to add is in a clean register, if it is in a register. -/
def GrowthSite.Clean {module : Module} {host : Host} (site : GrowthSite module host)
    (machine : Processor) : Prop :=
  ∀ slot, site.state.layout.top? = some slot → machine.Clean slot

namespace MemorySite

variable {module : Module} {host : Host}

structure Meets (site : MemorySite module host) (addresses : RefKind → UInt32 → BitVec 64)
    (machine : Processor) (size : BitVec 64) : Prop where
  size : machine.memorySize addresses = size
  aside : machine.Aside site.state.layout.height (addresses .memorySize 0) 8

/-- Code stands for an instruction at a site and leaves its result in a register. -/
def Codes (site : MemorySite module host) (action : Compile Unit) (code : List Part)
    (result : Register) : Prop :=
  ∃ after, action site.subject site.state = .ok () after ∧ site.state.Gains code after ∧
    after.layout.top? = some (.inReg .i32 result)

/-- Code for growing memory, run at some site, takes one size of memory to another. -/
def Resizes (addresses : RefKind → UInt32 → BitVec 64) (code : GrowthSite module host → List Part)
    (before after : BitVec 64) : Prop :=
  ∃ site : GrowthSite module host, ∃ machine next, site.Meets addresses machine before ∧
    site.Clean machine ∧ machine.followParts addresses (code site) = some (.falls next) ∧
    next.memorySize addresses = after

/-- A number of pages that a narrowed host allows: where memory starts, or up to the maximum. -/
structure Allowed (host : Host) (pages : Nat) : Prop where
  least : host.minPages.toNat ≤ pages
  most : pages = host.minPages.toNat ∨ pages ≤ host.maxPages.toNat

theorem memory_isSome (site : MemorySite module host) (declared : module.memory.isSome = true) :
    site.subject.module.memory.isSome = true := by
  rw [site.module_eq]
  exact declared

theorem Allowed.lt {pages : Nat} (allowed : Allowed host pages) : pages < 2 ^ 32 := by
  have minimum := host.minPages.toNat_lt
  have maximum := host.maxPages.toNat_lt
  have most := allowed.most
  omega

theorem grow_allowed (site : GrowthSite module host) (declared : module.memory.isSome = true)
    (below : (host.narrow module.memory).maxPages.toNat < 2 ^ 31) :
    ∃ parts dst, site.Codes lowerMemoryGrow parts dst ∧
      ∀ addresses machine pages, Allowed (host.narrow module.memory) pages →
        site.Meets addresses machine (BitVec.ofNat 64 (pages * pageSize)) → site.Clean machine →
        ∃ next, machine.followParts addresses parts = some (.falls next) ∧
          ∃ later, Allowed (host.narrow module.memory) later ∧
            next.memorySize addresses = BitVec.ofNat 64 (later * pageSize) := by
  have memory := site.memory_isSome declared
  by_cases fixed : site.subject.host.maxPages = 0
  · obtain ⟨_, after, lowers, parts, gains, dst, top, follows⟩ :=
      lowerMemoryGrow_refuses site.orderly memory site.offers fixed
    refine ⟨parts, dst, ⟨after, lowers, gains, top⟩, ?_⟩
    intro addresses machine pages allowed meets _
    obtain ⟨next, falls, same⟩ := follows addresses machine meets.aside
    exact ⟨next, falls, pages, allowed, same.trans meets.size⟩
  · obtain ⟨_, after, lowers, parts, gains, dst, top, follows⟩ :=
      lowerMemoryGrow_compiles site.orderly memory site.offers fixed
    refine ⟨parts, dst, ⟨after, lowers, gains, top⟩, ?_⟩
    intro addresses machine pages allowed meets clean
    obtain ⟨next, falls, grown, _⟩ := follows addresses machine pages
      (site.state.layout.operand machine 0).toNat allowed.lt (site.offers.operand_lt machine)
      clean (by simp) meets.size meets.aside
    refine ⟨next, falls, ?_⟩
    rw [site.host_eq, growthLimit_of_lt below] at grown
    unfold Processor.Grown at grown
    split at grown
    · rename_i inside
      exact ⟨_, ⟨Nat.le_trans allowed.least (Nat.le_add_right _ _), .inr inside⟩, grown.2⟩
    · exact ⟨pages, allowed, grown.2.trans meets.size⟩

theorem size_allowed (site : MemorySite module host) (declared : module.memory.isSome = true) :
    ∃ parts dst, site.Codes lowerMemorySize parts dst ∧
      ∀ addresses machine pages, Allowed (host.narrow module.memory) pages →
        site.Meets addresses machine (BitVec.ofNat 64 (pages * pageSize)) →
        ∃ next, machine.followParts addresses parts = some (.falls next) ∧
          next.regs dst = BitVec.ofNat 64 pages := by
  obtain ⟨_, after, lowers, parts, gains, dst, top, follows⟩ :=
    lowerMemorySize_compiles site.orderly (site.memory_isSome declared)
  refine ⟨parts, dst, ⟨after, lowers, gains, top⟩, ?_⟩
  intro addresses machine pages allowed meets
  refine follows addresses machine pages allowed.lt ?_ meets.size meets.aside
  rw [site.host_eq]
  intro fixed
  have most := allowed.most
  have least := allowed.least
  rw [fixed] at most
  change pages = _ ∨ pages ≤ 0 at most
  omega

end MemorySite

theorem Instance.load_host {module : Module} {functions : List Compiled} {host : Host}
    {arenaSize : Int64} {bases : Bases} {inst : Instance}
    (loads : Instance.load module functions host arenaSize bases = .ok inst) :
    inst.module = module ∧ inst.host = host.narrow module.memory := by
  unfold Instance.load at loads
  dsimp only at loads
  by_cases differs : functions.length ≠ module.functions.size
  · rw [if_pos differs] at loads
    cases loads
  · rw [if_neg differs] at loads
    obtain ⟨arena, _, fills⟩ := Except.bind_inv loads
    split at fills
    · cases fills
    · cases fills
      exact ⟨rfl, rfl⟩

theorem Module.limits_le {module : Module} (valid : module.validate = .ok ()) {least most : UInt32}
    (memory : module.memory = some ⟨least, some most⟩) : least.toNat ≤ most.toNat := by
  unfold Module.validate at valid
  obtain ⟨_, _, valid⟩ := Except.bind_inv valid
  obtain ⟨_, _, valid⟩ := Except.bind_inv valid
  obtain ⟨_, _, valid⟩ := Except.bind_inv valid
  obtain ⟨_, _, valid⟩ := Except.bind_inv valid
  obtain ⟨_, _, valid⟩ := Except.bind_inv valid
  rw [memory] at valid
  dsimp only at valid
  split at valid
  · cases valid
  · rename_i inOrder
    exact Nat.le_of_not_lt inOrder

/-- What declared limits and a host promise about the number of pages. -/
structure Limits.Keeps (limits : Limits) (host : Host) (pages : Nat) : Prop where
  least : limits.min.toNat ≤ pages
  most : ∀ maximum, limits.max = some maximum → host.minPages ≤ maximum → pages ≤ maximum.toNat
  stays : ∀ maximum, limits.max = some maximum → maximum < host.minPages →
    pages = host.minPages.toNat

theorem Host.narrow_minPages (host : Host) (limits : Limits) :
    (host.narrow (some limits)).minPages.toNat = max host.minPages.toNat limits.min.toNat := by
  change (if host.minPages ≤ limits.min then limits.min else host.minPages).toNat = _
  split
  · rename_i less
    exact (Nat.max_eq_right less).symm
  · rename_i more
    exact (Nat.max_eq_left (Nat.le_of_not_le more)).symm

theorem Host.narrow_maxPages_le (host : Host) {limits : Limits} {maximum : UInt32}
    (declared : limits.max = some maximum) :
    (host.narrow (some limits)).maxPages.toNat ≤ maximum.toNat := by
  have narrowed : (host.narrow (some limits)).maxPages =
      if host.maxPages ≤ maximum then host.maxPages else maximum := by
    simp only [Host.narrow, declared]
    rfl
  rw [narrowed]
  split
  · rename_i less
    exact less
  · exact Nat.le_refl _

theorem MemorySite.Allowed.keeps {module : Module} {host : Host} {limits : Limits} {pages : Nat}
    (valid : module.validate = .ok ()) (declared : module.memory = some limits)
    (allowed : Allowed (host.narrow module.memory) pages) : limits.Keeps host pages := by
  rw [declared] at allowed
  have least := allowed.least
  have most := allowed.most
  rw [Host.narrow_minPages] at least most
  have ordered : ∀ maximum, limits.max = some maximum → limits.min.toNat ≤ maximum.toNat := by
    intro maximum found
    apply Module.limits_le valid
    rw [declared, ← found]
  constructor
  · omega
  · intro maximum found inside
    have bound := Host.narrow_maxPages_le host found
    have inOrder := ordered maximum found
    have inside : host.minPages.toNat ≤ maximum.toNat := inside
    omega
  · intro maximum found above
    have bound := Host.narrow_maxPages_le host found
    have inOrder := ordered maximum found
    have above : maximum.toNat < host.minPages.toNat := above
    omega

open MemorySite in
/-- Whatever grows memory, its size in pages keeps the declared limits: it is never below the
declared minimum, and above the declared maximum only if the host starts memory there, where it
stays. -/
theorem memory_limits_kept {module : Module} {host : Host} {limits : Limits}
    {functions : List Compiled} {arenaSize : Int64} {bases : Bases} {inst : Instance}
    (valid : module.validate = .ok ()) (declared : module.memory = some limits)
    (loads : Instance.load module functions host arenaSize bases = .ok inst)
    (below : inst.host.maxPages.toNat < 2 ^ 31) :
    ∃ (grow : GrowthSite module host → List Part) (grown : GrowthSite module host → Register)
      (size : MemorySite module host → List Part) (told : MemorySite module host → Register),
      (∀ site : GrowthSite module host, site.Codes lowerMemoryGrow (grow site) (grown site)) ∧
      (∀ site : MemorySite module host, site.Codes lowerMemorySize (size site) (told site)) ∧
      ∀ addresses cell,
        Relation.ReflTransGen (Resizes addresses grow) (BitVec.ofNat 64 inst.memorySize) cell →
        (∀ (site : GrowthSite module host) machine, site.Meets addresses machine cell →
          site.Clean machine →
          ∃ next, machine.followParts addresses (grow site) = some (.falls next)) ∧
        ∀ (site : MemorySite module host) machine, site.Meets addresses machine cell →
          ∃ next, machine.followParts addresses (size site) = some (.falls next) ∧
            limits.Keeps host (next.regs (told site)).toNat := by
  obtain ⟨sameModule, sameHost⟩ := Instance.load_host loads
  have present : module.memory.isSome = true := by rw [declared]; rfl
  rw [sameHost] at below
  choose grow grown grows follows using fun site : GrowthSite module host =>
    grow_allowed site present below
  choose size told sizes tells using fun site : MemorySite module host =>
    site.size_allowed present
  refine ⟨grow, grown, size, told, grows, sizes, ?_⟩
  intro addresses cell run
  have start : inst.memorySize = (host.narrow module.memory).minPages.toNat * pageSize := by
    rw [Instance.memorySize, sameModule, sameHost, if_pos present]
  have reached : ∃ pages, Allowed (host.narrow module.memory) pages ∧
      cell = BitVec.ofNat 64 (pages * pageSize) := by
    induction run with
    | refl => exact ⟨_, ⟨Nat.le_refl _, .inl rfl⟩, congrArg _ start⟩
    | tail _ step ih =>
      obtain ⟨pages, allowed, rfl⟩ := ih
      obtain ⟨site, machine, next, meets, clean, falls, rfl⟩ := step
      obtain ⟨other, otherFalls, later, laterAllowed, laterSize⟩ :=
        follows site addresses machine pages allowed meets clean
      rw [falls] at otherFalls
      cases otherFalls
      exact ⟨later, laterAllowed, laterSize⟩
  obtain ⟨pages, allowed, rfl⟩ := reached
  constructor
  · intro site machine meets clean
    obtain ⟨next, falls, _⟩ := follows site addresses machine pages allowed meets clean
    exact ⟨next, falls⟩
  · intro site machine meets
    obtain ⟨next, falls, value⟩ := tells site addresses machine pages allowed meets
    have few := allowed.lt
    have same : (next.regs (told site)).toNat = pages := by
      rw [value, BitVec.toNat_ofNat, Nat.mod_eq_of_lt (by omega)]
    rw [← same] at allowed
    exact ⟨next, falls, allowed.keeps valid declared⟩

def servingSite (limits : Limits) (host : Host) :
    GrowthSite { Module.declaring #[] with memory := some limits } host where
  subject := serving limits host
  state := offering 1
  module_eq := rfl
  host_eq := rfl
  orderly := offering_orderly limits host 1
  offers := offering_offers 1

theorem servingSite_meets (limits : Limits) (host : Host) (pages : Nat) :
    (servingSite limits host).Meets oneCell (sized pages)
      (BitVec.ofNat 64 (pages * pageSize)) :=
  ⟨sized_memorySize pages, sized_aside pages 1⟩

/-- A processor with a frame and a size of memory in bytes. -/
def holding (size : BitVec 64) : Processor :=
  { sized 1 with memory := ByteMemory.write (fun _ => 0) 0x1000 8 size }

theorem servingSite_meets_holding (limits : Limits) (host : Host) (size : BitVec 64) :
    (servingSite limits host).Meets oneCell (holding size) size := by
  refine ⟨?_, sized_aside 1 1⟩
  have back := ByteMemory.read_write (fun _ => 0) 0x1000 size (Nat.le_refl 8)
  rw [narrow_eq_self] at back
  exact back

/-- Memory starts with one page, is grown by a page, and says how large it is. -/
theorem memory_limits_kept_twoPages :
    ∃ inst, Instance.load { memory := some ⟨1, some 2⟩ } [] { maxPages := 8 } 4096 {} = .ok inst ∧
      ∃ growing delta grown parts dst next,
        (servingSite ⟨1, some 2⟩ { maxPages := 8 }).Codes lowerMemoryGrow growing delta ∧
        (sized 1).followParts oneCell growing = some (.falls grown) ∧
        (servingSite ⟨1, some 2⟩ { maxPages := 8 }).Codes lowerMemorySize parts dst ∧
        (holding (grown.memorySize oneCell)).followParts oneCell parts = some (.falls next) ∧
        Limits.Keeps ⟨1, some 2⟩ { maxPages := 8 } (next.regs dst).toNat := by
  refine ⟨_, rfl, ?_⟩
  obtain ⟨grow, delta, size, told, grows, codes, keeps⟩ :=
    @memory_limits_kept { memory := some ⟨1, some 2⟩ } { maxPages := 8 } ⟨1, some 2⟩ [] 4096 {} _
      rfl rfl rfl (by decide)
  let site := servingSite ⟨1, some 2⟩ { maxPages := 8 }
  have meets := servingSite_meets ⟨1, some 2⟩ { maxPages := 8 } 1
  obtain ⟨grown, follows⟩ := (keeps oneCell _ .refl).1 site (sized 1) meets (sized_clean 1 1)
  have step :
      MemorySite.Resizes oneCell grow (BitVec.ofNat 64 pageSize) (grown.memorySize oneCell) :=
    ⟨site, sized 1, grown, meets, sized_clean 1 1, follows, rfl⟩
  obtain ⟨next, falls, kept⟩ := (keeps oneCell _ (.single step)).2 site.toMemorySite _
    (servingSite_meets_holding ⟨1, some 2⟩ { maxPages := 8 } _)
  exact ⟨_, _, grown, _, _, next, grows site, follows, codes site.toMemorySite, falls, kept⟩

/-- A host that starts with five pages passes a declared maximum of two. -/
theorem memory_starts_above_maximum :
    ∃ inst, ({ memory := some ⟨1, some 2⟩ } : Module).validate = .ok () ∧
      Instance.load { memory := some ⟨1, some 2⟩ } [] { minPages := 5, maxPages := 8 } 4096 {} =
        .ok inst ∧
      (sized 5).memorySize oneCell = BitVec.ofNat 64 inst.memorySize ∧
      ∃ parts dst next,
        (servingSite ⟨1, some 2⟩ { minPages := 5, maxPages := 8 }).Codes lowerMemorySize parts dst ∧
        (sized 5).followParts oneCell parts = some (.falls next) ∧
        2 < (next.regs dst).toNat := by
  refine ⟨_, rfl, rfl, sized_memorySize 5, ?_⟩
  obtain ⟨parts, dst, codes, tells⟩ := MemorySite.size_allowed
    (servingSite ⟨1, some 2⟩ { minPages := 5, maxPages := 8 }).toMemorySite rfl
  obtain ⟨next, falls, value⟩ := tells oneCell (sized 5) 5 ⟨by decide, .inl rfl⟩
    (servingSite_meets _ _ 5)
  refine ⟨parts, dst, next, codes, falls, ?_⟩
  rw [value]
  decide

end WasmX64
