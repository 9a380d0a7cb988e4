/-
**From the entry of `kernel_main` to `irq_enable` (`src/kernel.c`).**

`kernel_main` installs the vectors, switches on the MMU, and initialises the allocator, the scheduler, the
interrupt controller, the UART and the timer.  Then it unmasks interrupts.  When the MMU cannot be switched
on it stops before anything else is touched.  What the functions have left by then is what the runs of the
allocator, of the scheduler and of the kernel under its interrupts start from.

The tables of the MMU lie in the kernel.  No run of the scheduler, of the allocator and of their clients
writes there, so that the addresses are translated in the same way for ever.

Outside the calls of the functions of the UART and of the timer, the words that come in meanwhile are taken
to come in before or after the accesses of `uart_init`; the other functions do not access the device.  Other
devices are quiet until `irq_enable`.

Main definitions:

* `KernelMain.Image` — what the linker has placed, with what it guarantees;
* `KernelMain.kernelMain` — **the calls up to `irq_enable`**.

Main results:

* `KernelMain.mem_step` — no step of the scheduler or of a client writes before the managed pages;
* `KernelMain.kernel_main_establishes` — **`kernel_main` leaves what all the runs start from, or stops**;
* `KernelMain.translation_stays` — **from then on, every run leaves the translation as it is**.
-/

import MiniOs.Boot
import MiniOs.InterruptRun
import MiniOs.MmuInit
import MiniOs.TaskOwnership
import MiniOs.UartInit

set_option relaxedAutoImplicit false
set_option autoImplicit false

namespace MiniOs

namespace KernelMain

open Mmu (Tables mmuInit)
open PageAlloc (pageAllocInit initialStart)
open MiniOs.Task (Sys Owns taskInit taskMaxCount)

/-! ### What a run of the scheduler writes -/

section Memory

variable {N : ℕ} [NeZero N] {bootstrap kernelEnd : Word} {s t : Sys N} {op : Task.Op N} {a : Word}

/-- A page that is out lies beyond the start of the managed region. -/
theorem not_inPage_of_out {alloc : PageAlloc.State} {out : Finset Word}
    (h : (PageAlloc.clients kernelEnd).Reachable ⟨alloc, out⟩) {page : Word} (hpage : page ∈ out)
    (ha : a.toNat < (initialStart kernelEnd).toNat) : ¬ PageAlloc.InPage page a := by
  obtain ⟨idle, P, hP, hheld, hstart, -⟩ := PageAlloc.reachable_represents h
  have hmem : page ∈ P.held := by
    rw [hheld]
    exact hpage
  obtain ⟨hlow, hhigh⟩ := Boot.start_le_of_pool hP hstart (Or.inr hmem)
  exact Boot.not_inPage_of_lt (by omega) hhigh

/-- A reap writes only in pages. -/
theorem mem_taskReap {u v : Task.State N} {clients out : Finset Word}
    (hown : Owns kernelEnd ⟨u, clients⟩ out) {id : BitVec 32} {reaped : Bool}
    (h : Task.taskReap id u = some (reaped, v)) (ha : a.toNat < (initialStart kernelEnd).toNat) :
    v.alloc.mem a = u.alloc.mem a := by
  rcases Task.taskReap_cases h with ⟨-, rfl⟩ | ⟨i, -, -, ⟨-, -, rfl⟩ | ⟨-, -, hslot⟩⟩
  · rfl
  · rw [Task.recordStackError_alloc]
  · obtain ⟨alloc, hfree, rfl⟩ := Task.reapSlot_cases hslot
    have hmem := Boot.mem_step (PageAlloc.reachable_represents hown.reachable)
      (PageAlloc.Step.free hfree) ha
    split <;> exact hmem

/-- **No step of the scheduler or of a client writes before the managed pages.** -/
theorem mem_step (hsched : Task.SchedInv s.kernel) {out : Finset Word} (hown : Owns kernelEnd s out)
    (hstep : Task.Step bootstrap s op t) (ha : a.toNat < (initialStart kernelEnd).toNat) :
    t.kernel.alloc.mem a = s.kernel.alloc.mem a := by
  have hinv := PageAlloc.reachable_represents hown.reachable
  cases hregs : op.regs with
  | some regs =>
      obtain ⟨-, hleave⟩ := Task.step_leave hsched hstep hregs
      rw [hsched.leave_alloc hleave]
  | none =>
      cases hstep with
      | yield regs => cases hregs
      | exit regs => cases hregs
      | @create entry argument result t hcreate =>
          rcases Task.taskCreate_cases hcreate with ⟨-, rfl⟩ | ⟨alloc, hres, -, rfl⟩ |
            ⟨i, stackPage, alloc, -, hres, hnull, -, rfl⟩
          · rfl
          · exact Boot.mem_step hinv (PageAlloc.Step.alloc hres) ha
          · -- the page is cleared, and the canary is put at its bottom
            have hzero := Boot.mem_step hinv (PageAlloc.Step.alloc hres) ha
            obtain ⟨-, -, hreach⟩ := PageAlloc.reachable_alloc hown.reachable hres hnull
            have hnot := not_inPage_of_out hreach (Finset.mem_insert_self stackPage out) ha
            have hne : a ≠ stackPage := by
              rintro rfl
              exact hnot (PageAlloc.inPage_self a)
            exact (Function.update_of_ne hne _ _).trans hzero
      | @reap id reaped t hreap => exact mem_taskReap hown hreap ha
      | @reapFinished count t hreap =>
          refine (Task.taskReapFinished_invariant (P := fun u => Task.SchedInv u ∧
            (∃ out, Owns kernelEnd ⟨u, s.clients⟩ out) ∧
              u.alloc.mem a = s.kernel.alloc.mem a) ?_ ⟨hsched, ⟨out, hown⟩, rfl⟩ hreap).2.2
          rintro id u reaped v ⟨hinv, ⟨out, hown⟩, hsame⟩ hone
          exact ⟨hinv.inv_taskReap hone, Task.owns_taskReap hinv ⟨out, hown⟩ hone,
            (mem_taskReap hown hone ha).trans hsame⟩
      | @client op alloc clients hfree hclient =>
          cases hclient with
          | alloc halloc => exact Boot.mem_step hinv (PageAlloc.Step.alloc halloc) ha
          | free hfreed => exact Boot.mem_step hinv (PageAlloc.Step.free hfreed) ha
          | write contents hpage =>
              exact PageAlloc.writePage_outside _ _
                (not_inPage_of_out hown.reachable (hown.client_mem hpage) ha)
      | @writeStack i contents hne =>
          exact PageAlloc.writePage_outside _ _
            (not_inPage_of_out hown.reachable (hown.stackPage_mem hne) ha)

/-- The memory before the managed pages stays as it is. -/
theorem mem_after (h : (Task.kernel bootstrap kernelEnd).Reachable s)
    (ht : ((Task.kernel bootstrap kernelEnd).after s).Reachable t)
    (ha : a.toNat < (initialStart kernelEnd).toNat) :
    t.kernel.alloc.mem a = s.kernel.alloc.mem a := by
  refine (ht.invariant (P := fun t => (Task.kernel bootstrap kernelEnd).Reachable t ∧
    t.kernel.alloc.mem a = s.kernel.alloc.mem a) ?_ ?_).2
  · rintro _ rfl
    exact ⟨h, rfl⟩
  · rintro t op u - ⟨hreach, hsame⟩ hstep
    obtain ⟨out, hown⟩ := Task.reachable_owns hreach
    exact ⟨hreach.step hstep,
      (mem_step (Task.reachable_schedInv hreach) hown hstep ha).trans hsame⟩

end Memory

/-! ### The calls -/

/-- What the linker has placed: the vectors, the tables of the MMU, which lie in the kernel, and the end of
the kernel, which lies in RAM. -/
structure Image where
  exceptionVectors : Word
  tables : Tables
  /-- `__kernel_end`. -/
  kernelEnd : Word
  separate : tables.Separate
  level1 : tables.level1Table.toNat + 4096 ≤ kernelEnd.toNat
  device : tables.deviceLevel2Table.toNat + 4096 ≤ kernelEnd.toNat
  ram : tables.ramLevel2Table.toNat + 4096 ≤ kernelEnd.toNat
  kernelEnd_le : kernelEnd.toNat ≤ 0x48000000

/-- The registers and the static variables.  The memory is that of the allocator, and `uart` holds the
UART, its driver and the interrupt controller. -/
structure State where
  vbarEl1 : Word
  regs : Mmu.SystemRegisters
  installed : Bool
  sched : Task.State taskMaxCount
  uart : Uart.Init
  timer : Timer.State
  counter : ℕ
  unexpectedCount : Word
  /-- The bit I of `DAIF`. -/
  irqMasked : Bool

/-- What comes from outside: what the UART does between two accesses, and how many of these there are; the
frequency of the counter, its value when `timer_init` reads it, and its value at the end. -/
structure Outside where
  env : ℕ → Uart.Meanwhile
  accesses : ℕ
  frequency : Word
  origin : ℕ
  counter : ℕ
  le : origin ≤ counter

/-- Where `kernel_main` gets to: the loop after `mmu_init`, or the end of `irq_enable`. -/
inductive Outcome
  | stopped (s : State)
  | ready (s : State)

/-- What `mmu_init` works on. -/
def State.mmu (s : State) : Mmu.State := ⟨s.regs, s.installed, s.sched.alloc.mem⟩

/-- What `mmu_init` has left. -/
def State.withMmu (s : State) (m : Mmu.State) : State :=
  { s with
    regs := m.regs
    installed := m.installed
    sched := { s.sched with alloc := { s.sched.alloc with mem := m.mem } } }

/-- Model of `kernel_main` **up to `irq_enable`**; `none` while `uart_init` has not returned. -/
def kernelMain (image : Image) (o : Outside) (s : State) : Option Outcome :=
  let s := { s with vbarEl1 := image.exceptionVectors }
  let (switched, m) := mmuInit image.tables s.mmu
  let s := s.withMmu m
  if switched then do
    let alloc := pageAllocInit image.kernelEnd s.sched.alloc
    let sched := taskInit { s.sched with alloc := alloc }
    let controller ← Gic.gicInit s.uart.controller
    let uart ← Driven.run Uart.initStep o.env o.accesses { s.uart with controller := controller }
    if Uart.uartInit.length ≤ uart.pc then
      let controller ← uart.controller.enable Irq.timerInterruptId 0x80
      let timer := Timer.timerInit o.frequency (BitVec.ofNat 64 o.origin) s.timer
      return .ready { s with
        sched := sched
        uart := { uart with controller := controller }
        timer := timer
        counter := o.counter
        irqMasked := false }
    else none
  else some (.stopped s)

/-- `_start` has called `kernel_main`: static variables are zero, interrupts are masked, and none is
active. -/
structure Called (mem : Memory) (s : State) : Prop where
  installed : s.installed = false
  sched : ∃ cpu, s.sched = Task.State.boot (PageAlloc.State.boot mem) cpu
  rx : s.uart.rx = Uart.Rx.boot
  uart : s.uart.Starts
  timer : ∃ cntpCval cntpCtl, s.timer = Timer.State.boot cntpCval cntpCtl
  unexpectedCount : s.unexpectedCount = 0
  active : s.uart.controller.active = []
  irqMasked : s.irqMasked = true

/-- The kernel as the interrupts see it, with any other flags of the UART and any lines of the other
devices. -/
def State.system (s : State) (flags : BitVec 32) (otherLines : ℕ → Bool) : Irq.System where
  controller := s.uart.controller
  counter := s.counter
  timer := s.timer
  device := ⟨s.uart.device.rxFifo, flags, s.uart.device.mis, s.uart.device.regs .icr,
    s.uart.device.regs .rsrEcr⟩
  driver := ⟨s.uart.rx, Uart.Pop.idle⟩
  otherLines := otherLines
  unexpectedCount := s.unexpectedCount
  handler := Irq.Handler.idle

/-- What the interrupts are told of the initialisation. -/
def State.boot (s : State) (o : Outside) : Irq.Boot := ⟨o.frequency, o.origin, s.uart.drained⟩

/-! ### What it leaves -/

variable {image : Image} {o : Outside} {s t : State} {mem : Memory}

/-- **The ways `kernel_main` can go.** -/
inductive Goes (image : Image) (o : Outside) (s : State) : Outcome → Prop
  | stopped {m : Mmu.State} : ¬ Mmu.Accepts s.regs → m.regs = s.regs → m.installed = false →
      Goes image o s (.stopped (State.withMmu { s with vbarEl1 := image.exceptionVectors } m))
  | ready {m : Mmu.State} {c d : Gic.Controller} {u : Uart.Init} : Mmu.Accepts s.regs →
      m = ⟨Mmu.installedRegisters image.tables s.regs, true,
        Mmu.buildTranslationTables image.tables s.sched.alloc.mem⟩ →
      Gic.gicInit s.uart.controller = some c →
      Driven.run Uart.initStep o.env o.accesses { s.uart with controller := c } = some u →
      u.Returned → u.controller.enable Irq.timerInterruptId 0x80 = some d →
      Goes image o s (.ready { s.withMmu m with
        vbarEl1 := image.exceptionVectors
        sched := taskInit { s.sched with
          alloc := pageAllocInit image.kernelEnd { s.sched.alloc with mem := m.mem } }
        uart := { u with controller := d }
        timer := Timer.timerInit o.frequency (BitVec.ofNat 64 o.origin) s.timer
        counter := o.counter
        irqMasked := false })

theorem mmuInit_called (haccepts : Mmu.Accepts s.regs) :
    mmuInit image.tables (State.mmu { s with vbarEl1 := image.exceptionVectors }) =
      (true, ⟨Mmu.installedRegisters image.tables s.regs, true,
        Mmu.buildTranslationTables image.tables s.sched.alloc.mem⟩) :=
  Mmu.mmuInit_of_accepts haccepts

theorem kernelMain_goes (hinstalled : s.installed = false) {outcome : Outcome}
    (h : kernelMain image o s = some outcome) : Goes image o s outcome := by
  by_cases haccepts : Mmu.Accepts s.regs
  · simp only [kernelMain, mmuInit_called haccepts, if_true, Option.bind_eq_bind] at h
    obtain ⟨c, hc, h⟩ := Option.bind_eq_some_iff.1 h
    obtain ⟨u, hu, h⟩ := Option.bind_eq_some_iff.1 h
    obtain ⟨hreturned, h⟩ := Option.ite_none_right_eq_some.1 h
    obtain ⟨d, hd, h⟩ := Option.bind_eq_some_iff.1 h
    cases h
    exact Goes.ready haccepts rfl hc hu (List.getElem?_eq_none hreturned) hd
  · obtain ⟨hfalse, hregs, hfresh⟩ := Mmu.mmuInit_of_not_accepts (t := image.tables)
      (s := State.mmu { s with vbarEl1 := image.exceptionVectors }) haccepts hinstalled
    simp only [kernelMain, hfalse] at h
    cases h
    exact Goes.stopped haccepts hregs hfresh

/-- The scheduler and the allocator start. -/
theorem sched_starts {m : Mmu.State} (hs : Called mem s) (bootstrap : Word) :
    (Task.kernel bootstrap image.kernelEnd).init
      ⟨taskInit { s.sched with
        alloc := pageAllocInit image.kernelEnd { s.sched.alloc with mem := m.mem } }, ∅⟩ := by
  obtain ⟨cpu, hsched⟩ := hs.sched
  refine ⟨m.mem, cpu, ?_⟩
  rw [hsched]
  rfl

/-- The kernel before anything comes in. -/
def emptied (k : Irq.System) : Irq.System :=
  { k with device := { k.device with rxFifo := [], mis := 0 } }

/-- What comes in before `irq_enable` might as well come in first of all after it. -/
theorem reachable_of_emptied {b : Irq.Boot} {k : Irq.System} (h : Irq.Booted b (emptied k))
    (hok : k.device.Ok) : ∃ log, (Irq.loggedSystem b).Reachable (k, log) ∧
      log.arrived = k.device.rxFifo := by
  have hnone : (0#32 &&& Uart.uartIntErrorMask) &&& ~~~k.device.mis = 0 := by
    rw [BitVec.zero_and, BitVec.zero_and]
    rfl
  have hstep : Irq.Step (emptied k) (Irq.Event.arrive k.device.rxFifo k.device.mis) k :=
    Irq.Step.arrive (s := emptied k) k.device.rxFifo hok hnone
  have hfirst : (Irq.loggedSystem b).Reachable (emptied k, ⟨[], [], [], [], 0, []⟩) :=
    Lts.Reachable.init ⟨h, rfl⟩
  exact ⟨_, hfirst.step (e := Irq.Event.arrive k.device.rxFifo k.device.mis) ⟨hstep, rfl⟩, rfl⟩

/-- **The kernel under its interrupts starts.** -/
theorem interrupts_start {c d : Gic.Controller} {u : Uart.Init} (hs : Called mem s)
    (hinit : Gic.gicInit s.uart.controller = some c)
    (hrun : Driven.run Uart.initStep o.env o.accesses { s.uart with controller := c } = some u)
    (hreturned : u.Returned) (henable : u.controller.enable Irq.timerInterruptId 0x80 = some d)
    (ht : t.uart = { u with controller := d })
    (htimer : t.timer = Timer.timerInit o.frequency (BitVec.ofNat 64 o.origin) s.timer)
    (hcounter : t.counter = o.counter) (hcount : t.unexpectedCount = 0) (flags : BitVec 32)
    (otherLines : ℕ → Bool) : ∃ log,
      (Irq.loggedSystem (t.boot o)).Reachable (t.system flags otherLines, log) ∧
        t.uart.drained ++ log.arrived = t.uart.arrived := by
  have hstart : Uart.Init.Starts { s.uart with controller := c } := ⟨hs.uart.pc, hs.uart.drained⟩
  have hinv := Uart.reached_inv hstart hrun
  have huart := hinv.enabled (hreturned.mem (by decide))
  have hdelivered := hinv.delivered (hreturned.mem (by decide))
  have himsc : u.device.regs .imsc = Uart.uartRxInterruptMask :=
    hinv.last_written hreturned (by decide)
  have hok : (t.system flags otherLines).device.Ok := by
    rw [State.system, ht]
    constructor
    · change (u.device.ris &&& u.device.regs .imsc) &&& ~~~Uart.uartRxInterruptMask = 0
      rw [himsc, BitVec.and_assoc, BitVec.and_not_self]
      exact BitVec.and_zero
    · exact hinv.withdrawn hreturned
  have hbooted : Irq.Booted (t.boot o) (emptied (t.system flags otherLines)) := by
    constructor
    case controller =>
      refine ⟨s.uart.controller, hs.active, ?_⟩
      simp only [Irq.enableInterrupts, hinit, Option.bind_eq_bind, Option.bind_some]
      rw [huart, Option.bind_some, henable, emptied, State.system, ht]
    case timer =>
      obtain ⟨cntpCval, cntpCtl, hboot⟩ := hs.timer
      refine ⟨cntpCval, cntpCtl, htimer.trans ?_⟩
      rw [hboot]
      rfl
    case counter =>
      change o.origin ≤ t.counter
      rw [hcounter]
      exact o.le
    case rxFifo => rfl
    case mis => rfl
    case driver =>
      have hrx : u.rx = (Uart.drainRxFifo (u.drained.map (·.setWidth 32)) s.uart.rx).2 := hinv.rx
      rw [hs.rx] at hrx
      change (⟨t.uart.rx, Uart.Pop.idle⟩ : Uart.Driver) =
        ⟨(Uart.drainRxFifo (t.uart.drained.map (·.setWidth 32)) Uart.Rx.boot).2, Uart.Pop.idle⟩
      rw [ht, ← hrx]
    case unexpectedCount => exact hcount
    case handler => rfl
  obtain ⟨log, hreach, harrived⟩ := reachable_of_emptied hbooted hok
  refine ⟨log, hreach, ?_⟩
  rw [harrived, State.system, ht]
  exact hdelivered.symm

/-- When the MMU can be switched on, `kernel_main` gets to `irq_enable` in the end. -/
theorem kernelMain_completes (hs : Called mem s) (haccepts : Mmu.Accepts s.regs)
    (hslow : ∀ i, (o.env i).words.length ≤ 1)
    (hfair : Driven.Fair (fun e : Uart.Meanwhile => e.busy = false ∧ e.words = []) o.env) :
    ∃ n t, kernelMain image { o with accesses := n } s = some (.ready t) := by
  obtain ⟨c, hinit, -⟩ := Gic.gicInit_spec s.uart.controller
  have hstart : Uart.Init.Starts { s.uart with controller := c } := ⟨hs.uart.pc, hs.uart.drained⟩
  obtain ⟨n, u, hrun, -, hreturned⟩ := Uart.init_returns hstart hslow hfair
  obtain ⟨d, henable, -⟩ := Gic.Controller.enable_spec Irq.timerInterruptId (by decide) (by decide)
    u.controller
  have hinit' : Gic.gicInit (State.withMmu { s with vbarEl1 := image.exceptionVectors }
      ⟨Mmu.installedRegisters image.tables s.regs, true,
        Mmu.buildTranslationTables image.tables s.sched.alloc.mem⟩).uart.controller = some c := hinit
  have hrun' : Driven.run Uart.initStep o.env n { s.uart with controller := c } = some u := hrun
  have hpc : Uart.uartInit.length ≤ u.pc := List.getElem?_eq_none_iff.1 hreturned
  refine ⟨n, ?_⟩
  simp only [kernelMain, mmuInit_called haccepts, if_true, Option.bind_eq_bind, hinit',
    Option.bind_some]
  change ∃ t, (Driven.run Uart.initStep o.env n { s.uart with controller := c }).bind _ = _
  rw [hrun', Option.bind_some, if_pos hpc, henable, Option.bind_some]
  exact ⟨_, rfl⟩

/-- **`kernel_main` leaves what all the runs start from, or it stops.**  It stops just when `mmu_init` does
not accept what the boot loader has left; then no device was accessed, no register of the MMU was written,
nothing is initialised, and interrupts stay masked.  Else, when it has enabled interrupts, the vectors and
the MMU are on, the scheduler with the allocator is in an initial state of its system, and the kernel under
its interrupts is in a reachable state of its own.  The words that came in since the FIFO of the UART was
switched on are those `uart_init` has received, followed by those that have arrived there.  That it gets to
enable interrupts, if the words come in with pauses, is `kernelMain_completes`. -/
theorem kernel_main_establishes (hs : Called mem s) {outcome : Outcome}
    (h : kernelMain image o s = some outcome) :
    (∀ t, outcome = .stopped t → ¬ Mmu.Accepts s.regs ∧ t.regs = s.regs ∧ t.uart = s.uart ∧
      t.timer = s.timer ∧ t.sched.alloc.initialized = false ∧ t.sched.initialized = false ∧
      t.irqMasked = true) ∧
    ∀ t, outcome = .ready t → Mmu.Accepts s.regs ∧ t.irqMasked = false ∧
      t.vbarEl1 = image.exceptionVectors ∧
      t.regs = Mmu.installedRegisters image.tables s.regs ∧
      (∀ bootstrap, (Task.kernel bootstrap image.kernelEnd).init ⟨t.sched, ∅⟩) ∧
      ∀ flags otherLines, ∃ log,
        (Irq.loggedSystem (t.boot o)).Reachable (t.system flags otherLines, log) ∧
          t.uart.drained ++ log.arrived = t.uart.arrived := by
  cases kernelMain_goes hs.installed h with
  | stopped haccepts hregs hinstalled =>
      refine ⟨fun t ht => ?_, fun t ht => Outcome.noConfusion ht⟩
      cases ht
      obtain ⟨cpu, hsched⟩ := hs.sched
      refine ⟨haccepts, hregs, rfl, rfl, ?_, ?_, hs.irqMasked⟩
      · simp only [State.withMmu, hsched]
        rfl
      · simp only [State.withMmu, hsched]
        rfl
  | ready haccepts hm hinit hrun hreturned henable =>
      refine ⟨fun t ht => Outcome.noConfusion ht, fun t ht => ?_⟩
      cases ht
      subst hm
      exact ⟨haccepts, rfl, rfl, rfl, sched_starts hs, interrupts_start hs hinit hrun hreturned
        henable rfl rfl rfl hs.unexpectedCount⟩

/-- A kernel that ends 0x20000 behind its beginning, and begins with its tables. -/
def smallImage : Image where
  exceptionVectors := 0x40080800#64
  tables := ⟨0x40090000#64, 0x40091000#64, 0x40092000#64⟩
  kernelEnd := 0x400a0000#64
  separate := ⟨by decide, by decide, by decide, by decide, by decide, by decide⟩
  level1 := by decide
  device := by decide
  ram := by decide
  kernelEnd_le := by decide

/-- A character is typed while the kernel starts. -/
def typed : Outside := ⟨Uart.typing, 0, 62500000#64, 5, 7, by decide⟩

/-- The MMU and the caches are off. -/
def called : State where
  vbarEl1 := 0
  regs := ⟨0#64, 0#64, 0#64, 0#64, 0#64, 2#64⟩
  installed := false
  sched := Task.State.boot (PageAlloc.State.boot fun _ => 0) Task.zeroCpu
  uart := Uart.used
  timer := Timer.State.boot 0 0
  counter := 0
  unexpectedCount := 0
  irqMasked := true

theorem called_spec : Called (fun _ => 0) called where
  installed := rfl
  sched := ⟨Task.zeroCpu, rfl⟩
  rx := rfl
  uart := ⟨rfl, rfl⟩
  timer := ⟨0, 0, rfl⟩
  unexpectedCount := rfl
  active := rfl
  irqMasked := rfl

theorem called_ready :
    ∃ n t, kernelMain smallImage { typed with accesses := n } called = some (.ready t) :=
  kernelMain_completes called_spec ⟨rfl, rfl, rfl, by decide⟩ Uart.typing_slow Uart.typing_fair

/-- It gets to `irq_enable`. -/
theorem kernel_main_establishes_typed : ∃ n t,
    kernelMain smallImage { typed with accesses := n } called = some (.ready t) ∧
      t.irqMasked = false ∧
      (Task.kernel 0x40080000#64 0x400a0000#64).init ⟨t.sched, ∅⟩ := by
  obtain ⟨n, t, h⟩ := called_ready
  have hready := (kernel_main_establishes called_spec h).2 t rfl
  exact ⟨n, t, h, hready.2.1, hready.2.2.2.2.1 _⟩

/-! ### The translation -/

/-- The managed pages begin where the kernel has ended. -/
theorem kernelEnd_le_start (image : Image) :
    image.kernelEnd.toNat ≤ (initialStart image.kernelEnd).toNat := by
  obtain ⟨-, -, hhigh, hbetween⟩ := PageAlloc.initialStart_spec image.kernelEnd
  have hend := image.kernelEnd_le
  rcases Nat.lt_or_eq_of_le hhigh with hlt | heq
  · exact hbetween hlt
  · omega

/-- The translation depends on the memory of the kernel only. -/
theorem walk_stays (image : Image) {mem mem' : Memory} (hsame : ∀ a : Word,
    a.toNat < image.kernelEnd.toNat → mem' a = Mmu.buildTranslationTables image.tables mem a)
    (va : BitVec 32) : PageWalk.walk mem' image.tables.level1Table va = Mmu.identityMap va := by
  obtain ⟨hlevel1, hdevice, hram⟩ := Mmu.contents_build image.separate mem
  have htable : ∀ {table : Word} {entries : ℕ → Word}, PageWalk.IsTableAddress table →
      table.toNat + 4096 ≤ image.kernelEnd.toNat →
      PageWalk.IsTable (Mmu.buildTranslationTables image.tables mem) table entries →
      PageWalk.IsTable mem' table entries := by
    intro table entries haddress hle hentries i hi
    rw [hsame _ (by rw [PageWalk.entryAddress_toNat haddress hi]; omega)]
    exact hentries i hi
  exact Mmu.walk_of_contents image.separate
    ⟨htable image.separate.level1 image.level1 hlevel1,
      htable image.separate.device image.device hdevice,
      htable image.separate.ram image.ram hram⟩ va

/-- **Every run leaves the translation as it is.**  Whatever the tasks and the other clients of the
allocator do once `kernel_main` has enabled interrupts, nothing before `__kernel_end` changes by it, and the
walk through the tables in the memory as it is then translates each address to itself, or faults, just as
the tables were built to do.  The static variables and the stack of the boot flow lie there too, but they
are not part of this memory. -/
theorem translation_stays (hs : Called mem s) (h : kernelMain image o s = some (.ready t))
    (bootstrap : Word) {k : Sys taskMaxCount}
    (hk : ((Task.kernel bootstrap image.kernelEnd).after ⟨t.sched, ∅⟩).Reachable k) :
    (∀ a : Word, a.toNat < image.kernelEnd.toNat →
      k.kernel.alloc.mem a = t.sched.alloc.mem a) ∧
    ∀ va, PageWalk.walk k.kernel.alloc.mem t.regs.ttbr0El1 va = Mmu.identityMap va := by
  obtain ⟨cpu, hsched⟩ := hs.sched
  generalize hout : Outcome.ready t = outcome at h
  cases kernelMain_goes hs.installed h with
  | stopped haccepts hregs hinstalled => exact Outcome.noConfusion hout
  | ready haccepts hm hinit hrun hreturned henable =>
      obtain rfl := Outcome.ready.inj hout
      subst hm
      have hkeeps := fun (a : Word) (ha : a.toNat < image.kernelEnd.toNat) =>
        mem_after (Lts.Reachable.init (sched_starts hs bootstrap)) hk
          (Nat.lt_of_lt_of_le ha (kernelEnd_le_start image))
      have hbuilt : ∀ a : Word, a.toNat < image.kernelEnd.toNat →
          k.kernel.alloc.mem a = Mmu.buildTranslationTables image.tables s.sched.alloc.mem a := by
        intro a ha
        rw [hkeeps a ha, Task.taskInit_alloc, PageAlloc.pageAllocInit_mem]
      exact ⟨hkeeps, walk_stays image hbuilt⟩

/-- The first page of RAM is where it was when a task was created, and has got its stack page. -/
theorem translation_stays_typed : ∃ n t, ∃ k : Sys taskMaxCount,
    kernelMain smallImage { typed with accesses := n } called = some (.ready t) ∧
      k.kernel = (Task.taskCreate 0x40080000#64 0x40081000#64 7 t.sched).2 ∧
      PageWalk.walk k.kernel.alloc.mem t.regs.ttbr0El1 0x40000000#32 =
        Mmu.identityMap 0x40000000#32 := by
  obtain ⟨n, t, h⟩ := called_ready
  have hstep : Task.Step 0x40080000#64 (⟨t.sched, ∅⟩ : Sys taskMaxCount)
      (Task.Op.create 0x40081000#64 7)
      ⟨(Task.taskCreate 0x40080000#64 0x40081000#64 7 t.sched).2, ∅⟩ := Task.Step.create rfl
  have hcreated : ((Task.kernel 0x40080000#64 smallImage.kernelEnd).after ⟨t.sched, ∅⟩).Reachable
      ⟨(Task.taskCreate 0x40080000#64 0x40081000#64 7 t.sched).2, ∅⟩ :=
    (Lts.Reachable.init rfl).step hstep
  exact ⟨n, t, _, h, rfl, (translation_stays called_spec h 0x40080000#64 hcreated).2 _⟩

end KernelMain

end MiniOs
