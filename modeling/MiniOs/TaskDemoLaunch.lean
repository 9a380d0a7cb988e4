/-
**The demonstration of the scheduler from its first call to its end.**

The command starts in a state of the scheduler in which nobody else is READY.  It creates two
workers if slots and pages suffice for both, and a single one or none if they do not.  In each case
the workers it has created are run to their end and reaped before it returns.

Main definitions:

* `TaskDemo.Restores` — **the slots are as they were**;
* `TaskDemo.Launch` — the state in which the command makes its first call;
* `TaskDemo.Launch.one`, `TaskDemo.Launch.two` — the workers it has created;
* `TaskDemo.Launched` — what it has created, whatever fails;
* `TaskDemo.Passes` — what a passed demonstration prints and counts.

Main results:

* `TaskDemo.leads_restores` — from the first call to the end, in each case;
* `TaskDemo.taskdemo_interleaves` — **the lines of the two workers alternate**;
* `TaskDemo.taskdemo_no_residue` — **whatever fails, nothing is left behind**.
-/

import MiniOs.TaskDemoRun

set_option relaxedAutoImplicit false
set_option autoImplicit false

namespace MiniOs

namespace TaskDemo

open Driven (Leads)
open PageAlloc (pageFreePages)
open Shell (bytes)
open MiniOs.Task

variable {N : ℕ} [NeZero N]

/-! ### No residue -/

/-- **The slots are as they were**: those that were UNUSED are UNUSED, the others were not touched,
apart from the record and the count of the boot flow, which has the CPU. -/
structure Restores (s t : State N) : Prop where
  currentTask : t.currentTask = 0
  unused : ∀ i, (s.tasks i).state = .unused → (t.tasks i).state = .unused
  others : ∀ i, i ≠ 0 → (s.tasks i).state ≠ .unused → t.tasks i = s.tasks i
  boot : (t.tasks 0).entry = (s.tasks 0).entry ∧ (t.tasks 0).argument = (s.tasks 0).argument ∧
    (t.tasks 0).stackPage = (s.tasks 0).stackPage ∧
    (t.tasks 0).stackCorrupted = (s.tasks 0).stackCorrupted

theorem state_ne_unused_zero {s : State N} (h : SchedInv s) :
    (s.tasks 0).state ≠ .unused := by
  rcases h.boot with hrun | hready
  · rw [hrun]
    decide
  · rw [hready]
    decide

theorem Restores.refl {s : State N} (h : s.currentTask = 0) : Restores s s :=
  ⟨h, fun _ hi => hi, fun _ _ _ => rfl, rfl, rfl, rfl, rfl⟩

theorem Reaping.restores {T : Team N} {s t : State N} (h : Reaping T T.slots [] t)
    (hinv : SchedInv s) (hslots : ∀ w ∈ T.slots, (s.tasks w).state = .unused)
    (hothers : ∀ i, i ∉ T.slots → T.start.kernel.tasks i = s.tasks i) : Restores s t where
  currentTask := h.currentTask
  unused i hi := by
    by_cases hmem : i ∈ T.slots
    · exact h.unused i hmem
    · have hzero : i ≠ 0 := fun heq => state_ne_unused_zero hinv (heq ▸ hi)
      rw [h.others i hzero hmem, hothers i hmem, hi]
  others i hi hused := by
    have hmem : i ∉ T.slots := fun hmem => hused (hslots i hmem)
    rw [h.others i hi hmem, hothers i hmem]
  boot := by
    rw [← hothers 0 fun hmem => T.ne_zero 0 hmem rfl]
    exact h.boot

theorem Restores.live_iff {s t : State N} (h : Restores s t) (i : Fin N) : Live t i ↔ Live s i := by
  by_cases hi : (s.tasks i).state = .unused
  · exact iff_of_false (fun hl => hl.2 (h.unused i hi)) fun hl => hl.2 hi
  · refine ⟨fun hl => ⟨hl.1, hi⟩, fun hl => ⟨hl.1, ?_⟩⟩
    rw [h.others i hl.1 hi]
    exact hi

theorem Restores.stackPages_eq {s t : State N} (h : Restores s t) : stackPages t = stackPages s := by
  unfold stackPages
  rw [Finset.filter_congr fun i _ => h.live_iff i]
  refine Finset.image_congr fun i hi => ?_
  have hlive : Live s i := (Finset.mem_filter.1 hi).2
  exact congrArg TaskSlot.stackPage (h.others i hlive.1 hlive.2)

/-- The same pages are outstanding. -/
theorem Restores.pages {bootstrap kernelEnd : Word} {clients : Finset Word} {s t : State N}
    (h : Restores s t) (hs : (kernel bootstrap kernelEnd).Reachable ⟨s, clients⟩)
    (ht : (kernel bootstrap kernelEnd).Reachable ⟨t, clients⟩) :
    t.alloc.usedPages = s.alloc.usedPages ∧
      (PageAlloc.clients kernelEnd).Reachable ⟨s.alloc, clients ∪ stackPages s⟩ ∧
      (PageAlloc.clients kernelEnd).Reachable ⟨t.alloc, clients ∪ stackPages s⟩ := by
  obtain ⟨out, hown⟩ := reachable_owns hs
  obtain ⟨out', hown'⟩ := reachable_owns ht
  have hout := out_eq (reachable_schedInv hs) hown
  have hout' := out_eq (reachable_schedInv ht) hown'
  dsimp only at hout hout'
  rw [h.stackPages_eq] at hout'
  subst hout hout'
  refine ⟨BitVec.eq_of_toNat_eq ?_, hown.reachable, hown'.reachable⟩
  exact (PageAlloc.reachable_used hown'.reachable).trans
    (PageAlloc.reachable_used hown.reachable).symm

/-! ### The workers that were created -/

/-- **The command in front of its first call**: the boot flow has the CPU, and nobody is READY. -/
structure Launch (N : ℕ) [NeZero N] where
  bootstrap : Word
  kernelEnd : Word
  entry : Word
  base : Word
  clients : Finset Word
  kernel : State N
  rounds : ℕ
  reachable : (Task.kernel bootstrap kernelEnd).Reachable ⟨kernel, clients⟩
  currentTask : kernel.currentTask = 0
  quiet : ∀ i, (kernel.tasks i).state ≠ .ready
  rounds_pos : 0 < rounds
  rounds_lt : rounds + 1 < 2 ^ 64

omit [NeZero N] in
theorem demoWorkers_rounds {d : Demo N} {rounds : Word} (h : d.workers = demoWorkers rounds)
    (k : Fin 2) : (d.workers k).rounds = rounds := by
  rw [h]
  match k with
  | 0 => rfl
  | 1 => rfl

namespace Launch

variable (L : Launch N) {d : Demo N} {first second : Fin N} {middle : State N}

abbrev step : Input → Demo N → Option (Demo N) := demoStep L.bootstrap L.entry L.base

theorem schedInv : SchedInv L.kernel := reachable_schedInv L.reachable

/-- Only one worker could be created; it reads the entry `k` of the array. -/
def one {k : Fin 2} (hN : N ≤ 2 ^ 32)
    (hfirst : Creates L.kernel d.kernel L.entry (workerAddress L.base k) first)
    (hshell : d.shell = .cleanup first)
    (hworkers : d.workers = demoWorkers (BitVec.ofNat 64 L.rounds)) : Team N where
  bootstrap := L.bootstrap
  kernelEnd := L.kernelEnd
  entry := L.entry
  base := L.base
  clients := L.clients
  start := d
  slots := [first]
  which _ := k
  rounds := L.rounds
  sorted := List.pairwise_singleton _ _
  ne_nil := List.cons_ne_nil _ _
  ne_zero w hw := by
    rw [List.mem_singleton.1 hw]
    exact hfirst.ne_zero
  rounds_pos := L.rounds_pos
  rounds_lt := L.rounds_lt
  rounds_eq := demoWorkers_rounds hworkers
  quiet i _ hout := by
    rw [hfirst.others i fun heq => hout (List.mem_singleton.2 heq)]
    exact L.quiet i
  waits _ _ hd hinv hready :=
    shellStep_cleanup_ready hN hinv (hd.trans hshell) (hready first List.mem_cons_self)

/-- The slot that was filled in first comes first. -/
theorem first_lt_second {argument argument' : Word}
    (hfirst : Creates L.kernel middle L.entry argument first)
    (hsecond : Creates middle d.kernel L.entry argument' second) : first < second := by
  have hne : second ≠ first := by
    rintro rfl
    have hunused := hsecond.unused
    rw [hfirst.state] at hunused
    cases hunused
  refine lt_of_le_of_ne (not_lt.1 fun hlt => ?_) hne.symm
  refine hfirst.first second hsecond.ne_zero hlt ?_
  rw [← hfirst.others second hne]
  exact hsecond.unused

/-- Both workers were created; they read the entries `j` and `k`. -/
def two {j k : Fin 2} (hN : N ≤ 2 ^ 32)
    (hfirst : Creates L.kernel middle L.entry (workerAddress L.base j) first)
    (hsecond : Creates middle d.kernel L.entry (workerAddress L.base k) second)
    (hshell : d.shell = .waiting first second)
    (hworkers : d.workers = demoWorkers (BitVec.ofNat 64 L.rounds)) : Team N where
  bootstrap := L.bootstrap
  kernelEnd := L.kernelEnd
  entry := L.entry
  base := L.base
  clients := L.clients
  start := d
  slots := [first, second]
  which w := if w = first then j else k
  rounds := L.rounds
  sorted := List.pairwise_pair.2 (L.first_lt_second hfirst hsecond)
  ne_nil := List.cons_ne_nil _ _
  ne_zero w hw := by
    rcases List.mem_pair.1 hw with rfl | rfl
    · exact hfirst.ne_zero
    · exact hsecond.ne_zero
  rounds_pos := L.rounds_pos
  rounds_lt := L.rounds_lt
  rounds_eq := demoWorkers_rounds hworkers
  quiet i _ hout := by
    have hne : i ≠ first := fun heq => hout (List.mem_pair.2 (.inl heq))
    have hne' : i ≠ second := fun heq => hout (List.mem_pair.2 (.inr heq))
    rw [hsecond.others i hne', hfirst.others i hne]
    exact L.quiet i
  waits _ _ hd hinv hready :=
    shellStep_waiting_ready hN hinv (hd.trans hshell) (hready first List.mem_cons_self)

/-- The single worker is run to its end and reaped. -/
theorem leads_one (hN : N ≤ 2 ^ 32)
    (hreach : (Task.kernel L.bootstrap L.kernelEnd).Reachable ⟨d.kernel, L.clients⟩)
    (hfirst : Creates L.kernel d.kernel L.entry (workerAddress L.base 0) first)
    (hshell : d.shell = .cleanup first)
    (hworkers : d.workers = demoWorkers (BitVec.ofNat 64 L.rounds))
    (hpoint : d.worker first = .bootstrap) :
    Leads L.step (fun t => t.shell = .returned ∧ Restores L.kernel t.kernel) d := by
  have hfresh : ∀ w ∈ [first], Fresh (L.one hN hfirst hshell hworkers) w := by
    intro w hw
    rw [List.mem_singleton.1 hw]
    exact ⟨hfirst.state, hpoint, hfirst.entry, hfirst.argument, hfirst.stackCorrupted,
      hfirst.canary⟩
  have hbetween := between_start (L.one hN hfirst hshell hworkers) hreach
    (hfirst.currentTask.trans L.currentTask) hfresh
  refine (leads_cleanup _ hN hbetween hshell rfl).trans fun t ⟨ht, hreaping⟩ => Leads.here ⟨ht, ?_⟩
  refine hreaping.restores L.schedInv (fun w hw => ?_) fun i hi => ?_
  · rw [List.mem_singleton.1 hw]
    exact hfirst.unused
  · exact hfirst.others i fun heq => hi (List.mem_singleton.2 heq)

/-- **Both workers are run to their end and reaped.** -/
theorem leads_two (hN : N ≤ 2 ^ 32)
    (hreach : (Task.kernel L.bootstrap L.kernelEnd).Reachable ⟨d.kernel, L.clients⟩)
    (hfirst : Creates L.kernel middle L.entry (workerAddress L.base 0) first)
    (hsecond : Creates middle d.kernel L.entry (workerAddress L.base 1) second)
    (hshell : d.shell = .waiting first second)
    (hworkers : d.workers = demoWorkers (BitVec.ofNat 64 L.rounds))
    (hpoint : d.worker first = .bootstrap) (hpoint' : d.worker second = .bootstrap) :
    Leads L.step (fun t => t.shell = .returned ∧
      t.output = d.output ++ (L.two hN hfirst hsecond hshell hworkers).text L.rounds ++
        bytes "taskdemo: PASS\n" ∧
      t.yields = d.yields + L.rounds ∧
      Reaping (L.two hN hfirst hsecond hshell hworkers) [first, second] [] t.kernel) d := by
  have hlt := L.first_lt_second hfirst hsecond
  have hother := hsecond.others first (ne_of_lt hlt)
  have hfresh : ∀ w ∈ [first, second], Fresh (L.two hN hfirst hsecond hshell hworkers) w := by
    intro w hw
    rcases List.mem_pair.1 hw with rfl | rfl
    · have haddress : (d.kernel.tasks w).argument =
          workerAddress L.base (if w = w then 0 else 1) := by
        rw [hother, if_pos rfl]
        exact hfirst.argument
      exact ⟨hother ▸ hfirst.state, hpoint, hother ▸ hfirst.entry, haddress,
        hother ▸ hfirst.stackCorrupted, hsecond.canaries w hfirst.canary⟩
    · have haddress : (d.kernel.tasks w).argument =
          workerAddress L.base (if w = first then 0 else 1) := by
        rw [if_neg (ne_of_gt hlt)]
        exact hsecond.argument
      exact ⟨hsecond.state, hpoint', hsecond.entry, haddress, hsecond.stackCorrupted,
        hsecond.canary⟩
  have hbetween := between_start (L.two hN hfirst hsecond hshell hworkers) hreach
    (hsecond.currentTask.trans (hfirst.currentTask.trans L.currentTask)) hfresh
  exact leads_waiting _ hN hbetween hshell rfl

/-- Two workers that were reaped have left the slots as they were. -/
theorem two_restores {t : State N} (hN : N ≤ 2 ^ 32)
    (hfirst : Creates L.kernel middle L.entry (workerAddress L.base 0) first)
    (hsecond : Creates middle d.kernel L.entry (workerAddress L.base 1) second)
    (hshell : d.shell = .waiting first second)
    (hworkers : d.workers = demoWorkers (BitVec.ofNat 64 L.rounds))
    (h : Reaping (L.two hN hfirst hsecond hshell hworkers) [first, second] [] t) :
    Restores L.kernel t := by
  have hne : second ≠ first := ne_of_gt (L.first_lt_second hfirst hsecond)
  refine h.restores L.schedInv (fun w hw => ?_) fun i hi => ?_
  · rcases List.mem_pair.1 hw with rfl | rfl
    · exact hfirst.unused
    · rw [← hfirst.others w hne]
      exact hsecond.unused
  · exact (hsecond.others i fun heq => hi (List.mem_pair.2 (.inr heq))).trans
      (hfirst.others i fun heq => hi (List.mem_pair.2 (.inl heq)))

end Launch

/-! ### Creating the workers -/

/-- No task can be created. -/
def Short (s : State N) : Prop :=
  (∀ i, i ≠ 0 → (s.tasks i).state ≠ .unused) ∨ (pageFreePages s.alloc).toNat = 0

/-- **What the command has created** when it goes to its loop, or returns without one. -/
inductive Launched (L : Launch N) (d : Demo N) : Demo N → Prop
  | none {t : Demo N} : (L.entry = null ∨ Short L.kernel) → t.kernel = L.kernel →
      t.shell = .returned → Launched L d t
  | one {t : Demo N} {first : Fin N} : Short t.kernel →
      Creates L.kernel t.kernel L.entry (workerAddress L.base 0) first →
      (kernel L.bootstrap L.kernelEnd).Reachable ⟨t.kernel, L.clients⟩ →
      t.shell = .cleanup first → t.workers = demoWorkers (BitVec.ofNat 64 L.rounds) →
      t.worker first = .bootstrap → Launched L d t
  | two {t : Demo N} {first second : Fin N} {middle : State N} :
      Creates L.kernel middle L.entry (workerAddress L.base 0) first →
      Creates middle t.kernel L.entry (workerAddress L.base 1) second →
      (kernel L.bootstrap L.kernelEnd).Reachable ⟨t.kernel, L.clients⟩ →
      t.shell = .waiting first second → t.workers = demoWorkers (BitVec.ofNat 64 L.rounds) →
      t.worker first = .bootstrap → t.worker second = .bootstrap →
      t.output = d.output ++ bytes "Cooperative task demo:\n" → t.yields = d.yields → Launched L d t

section Create

variable {bootstrap entry base : Word} {input : Input} {d : Demo N} {first second : Fin N}
  {t : State N}

theorem shellStep_createFirst_none (hshell : d.shell = .createFirst)
    (hcreate : taskCreate bootstrap entry (workerAddress base 0) d.kernel = (none, t)) :
    shellStep bootstrap entry base input d =
      some { d.say (bytes "taskdemo: could not create task A\n") with
        kernel := t
        shell := .returned } := by
  rw [shellStep, hshell]
  dsimp only
  rw [hcreate]

theorem shellStep_createFirst_some (hshell : d.shell = .createFirst)
    (hcreate : taskCreate bootstrap entry (workerAddress base 0) d.kernel = (some first, t)) :
    shellStep bootstrap entry base input d =
      some { d with
        kernel := t
        worker := Function.update d.worker first .bootstrap
        shell := .createSecond first } := by
  rw [shellStep, hshell]
  dsimp only
  rw [hcreate]

theorem shellStep_createSecond_none (hshell : d.shell = .createSecond first)
    (hcreate : taskCreate bootstrap entry (workerAddress base 1) d.kernel = (none, t)) :
    shellStep bootstrap entry base input d =
      some { d.say (bytes "taskdemo: could not create task B\n") with
        kernel := t
        shell := .cleanup first } := by
  rw [shellStep, hshell]
  dsimp only
  rw [hcreate]

theorem shellStep_createSecond_some (hshell : d.shell = .createSecond first)
    (hcreate : taskCreate bootstrap entry (workerAddress base 1) d.kernel = (some second, t)) :
    shellStep bootstrap entry base input d =
      some { d.say (bytes "Cooperative task demo:\n") with
        kernel := t
        worker := Function.update d.worker second .bootstrap
        shell := .waiting first second } := by
  rw [shellStep, hshell]
  dsimp only
  rw [hcreate]

end Create

section Launching

variable (L : Launch N) {d : Demo N}

/-- The second creation. -/
theorem leads_createSecond {e : Demo N} {first : Fin N} (hentry : L.entry ≠ null)
    (hreach : (kernel L.bootstrap L.kernelEnd).Reachable ⟨d.kernel, L.clients⟩)
    (hfirst : Creates L.kernel d.kernel L.entry (workerAddress L.base 0) first)
    (hshell : d.shell = .createSecond first)
    (hworkers : d.workers = demoWorkers (BitVec.ofNat 64 L.rounds))
    (hpoint : d.worker first = .bootstrap) (houtput : d.output = e.output)
    (hyields : d.yields = e.yields) : Leads L.step (Launched L e) d := by
  refine Leads.of_step fun input => ?_
  have hstep : L.step input d = shellStep L.bootstrap L.entry L.base input d :=
    demoStep_boot (reachable_schedInv hreach) (hfirst.currentTask.trans L.currentTask)
  rcases taskCreate_creates hreach hentry (workerAddress L.base 1) with
    ⟨hcreate, hshort⟩ | ⟨second, t, hcreate, hsecond⟩
  · rw [shellStep_createSecond_none hshell hcreate] at hstep
    exact ⟨_, hstep, Leads.here (.one hshort hfirst hreach rfl hworkers hpoint)⟩
  · rw [shellStep_createSecond_some hshell hcreate] at hstep
    have hpoint' : Function.update d.worker second .bootstrap first = .bootstrap := by
      rw [Function.update_of_ne (ne_of_lt (L.first_lt_second (d := { d with kernel := t }) hfirst
        hsecond))]
      exact hpoint
    exact ⟨_, hstep, Leads.here (.two hfirst hsecond (reachable_taskCreate hreach hcreate) rfl
      hworkers hpoint' (Function.update_self _ _ _)
      (congrArg (· ++ bytes "Cooperative task demo:\n") houtput) hyields)⟩

/-- Both creations. -/
theorem leads_launched (hkernel : d.kernel = L.kernel) (hshell : d.shell = .createFirst)
    (hworkers : d.workers = demoWorkers (BitVec.ofNat 64 L.rounds)) :
    Leads L.step (Launched L d) d := by
  refine Leads.of_step fun input => ?_
  have hstep : L.step input d = shellStep L.bootstrap L.entry L.base input d :=
    demoStep_boot (hkernel ▸ L.schedInv) (hkernel ▸ L.currentTask)
  by_cases hentry : L.entry = null
  · have hcreate : taskCreate L.bootstrap L.entry (workerAddress L.base 0) L.kernel =
        (none, L.kernel) := if_pos (.inr hentry)
    rw [shellStep_createFirst_none hshell (hkernel ▸ hcreate)] at hstep
    exact ⟨_, hstep, Leads.here (.none (.inl hentry) hkernel rfl)⟩
  · rcases taskCreate_creates L.reachable hentry (workerAddress L.base 0) with
      ⟨hcreate, hshort⟩ | ⟨first, t, hcreate, hfirst⟩
    · rw [shellStep_createFirst_none hshell (hkernel ▸ hcreate)] at hstep
      exact ⟨_, hstep, Leads.here (.none (.inr hshort) hkernel rfl)⟩
    · rw [shellStep_createFirst_some hshell (hkernel ▸ hcreate)] at hstep
      exact ⟨_, hstep, leads_createSecond L hentry (reachable_taskCreate L.reachable hcreate) hfirst
        rfl hworkers (Function.update_self _ _ _) rfl rfl⟩

/-- **Whatever could be created, the command returns and leaves the slots as they were.** -/
theorem leads_restores (hN : N ≤ 2 ^ 32) (hkernel : d.kernel = L.kernel)
    (hshell : d.shell = .createFirst)
    (hworkers : d.workers = demoWorkers (BitVec.ofNat 64 L.rounds)) :
    Leads L.step (fun t => t.shell = .returned ∧ Restores L.kernel t.kernel) d := by
  refine (leads_launched L hkernel hshell hworkers).trans fun t ht => ?_
  cases ht with
  | none _ hkernel hshell =>
      refine Leads.here ⟨hshell, ?_⟩
      rw [hkernel]
      exact .refl L.currentTask
  | one _ hfirst hreach hshell hworkers hpoint =>
      exact L.leads_one hN hreach hfirst hshell hworkers hpoint
  | two hfirst hsecond hreach hshell hworkers hpoint hpoint' =>
      refine (L.leads_two hN hreach hfirst hsecond hshell hworkers hpoint hpoint').trans ?_
      rintro u ⟨hu, -, -, hreaping⟩
      exact Leads.here ⟨hu, L.two_restores hN hfirst hsecond hshell hworkers hreaping⟩

end Launching

/-- The command from its beginning, whatever its arguments are. -/
theorem leads_start {bootstrap kernelEnd entry base : Word} {clients : Finset Word}
    {d : Demo taskMaxCount} {arguments : List (List Byte)}
    (h : (kernel bootstrap kernelEnd).Reachable ⟨d.kernel, clients⟩)
    (hcur : d.kernel.currentTask = 0) (hquiet : ∀ i, (d.kernel.tasks i).state ≠ .ready)
    (hshell : d.shell = .start arguments) :
    Leads (demoStep bootstrap entry base)
      (fun t => t.shell = .returned ∧ Restores d.kernel t.kernel) d := by
  have hinv : SchedInv d.kernel := reachable_schedInv h
  refine Leads.of_step fun input => ?_
  rw [demoStep_boot hinv hcur, shellStep, hshell]
  dsimp only
  rcases roundsOf_cases arguments with ⟨text, htext⟩ | ⟨rounds, hrounds, hpos, hmax⟩
  · rw [htext]
    exact ⟨_, rfl, Leads.here ⟨rfl, .refl hcur⟩⟩
  · rw [hrounds]
    refine ⟨_, rfl, ?_⟩
    have hlt : rounds.toNat + 1 < 2 ^ 64 := (Nat.succ_le_succ hmax).trans_lt (by decide)
    have hN : taskMaxCount ≤ 2 ^ 32 := by decide
    refine leads_restores ⟨bootstrap, kernelEnd, entry, base, clients, d.kernel, rounds.toNat, h, hcur,
      hquiet, hpos, hlt⟩ hN rfl rfl ?_
    exact congrArg demoWorkers ((BitVec.ofNat_toNat 64 rounds).trans (BitVec.setWidth_eq _)).symm

/-! ### A passed demonstration -/

/-- What both workers print in `n` rounds. -/
def interleaved (n : ℕ) : List Byte :=
  (List.range n).flatMap fun r => line 0x41#8 (r + 1) ++ line 0x42#8 (r + 1)

/-- **A passed demonstration of `n` rounds**: what is printed, and what is counted. -/
structure Passes (n : ℕ) (d t : Demo N) : Prop where
  returned : t.shell = .returned
  output : t.output = d.output ++ bytes "Cooperative task demo:\n" ++ interleaved n ++
    bytes "taskdemo: PASS\n"
  yields : t.yields = d.yields + n
  contextSwitches : t.kernel.contextSwitches =
    d.kernel.contextSwitches + BitVec.ofNat 64 (3 * n)
  yieldCalls : t.kernel.yieldCalls = d.kernel.yieldCalls + BitVec.ofNat 64 (3 * n - 2)
  createdTasks : t.kernel.createdTasks = d.kernel.createdTasks + 2
  exitedTasks : t.kernel.exitedTasks = d.kernel.exitedTasks + 2
  reapedTasks : t.kernel.reapedTasks = d.kernel.reapedTasks + 2
  scheduleCount : (t.kernel.tasks 0).scheduleCount =
    (d.kernel.tasks 0).scheduleCount + BitVec.ofNat 64 n
  stackErrors : t.kernel.stackErrors = d.kernel.stackErrors

section Pass

variable (L : Launch N) {d : Demo N} {first second : Fin N} {middle t : State N}

theorem Launch.two_text (hN : N ≤ 2 ^ 32)
    (hfirst : Creates L.kernel middle L.entry (workerAddress L.base 0) first)
    (hsecond : Creates middle d.kernel L.entry (workerAddress L.base 1) second)
    (hshell : d.shell = .waiting first second)
    (hworkers : d.workers = demoWorkers (BitVec.ofNat 64 L.rounds)) (n : ℕ) :
    (L.two hN hfirst hsecond hshell hworkers).text n = interleaved n := by
  have hne : ¬ second = first := ne_of_gt (L.first_lt_second hfirst hsecond)
  refine congrArg (List.range n).flatMap (funext fun r => ?_)
  have hlines : (L.two hN hfirst hsecond hshell hworkers).lines r [first, second] =
      line (d.workers (if first = first then 0 else 1)).label (r + 1) ++
        line (d.workers (if second = first then 0 else 1)).label (r + 1) := by
    rw [Team.lines, List.flatMap_cons, List.flatMap_singleton]
    rfl
  rw [if_pos rfl, if_neg hne, hworkers] at hlines
  exact hlines

/-- The counters after both workers were reaped. -/
theorem Launch.two_passes {e u : Demo N} (hN : N ≤ 2 ^ 32) (hkernel : e.kernel = L.kernel)
    (hfirst : Creates L.kernel middle L.entry (workerAddress L.base 0) first)
    (hsecond : Creates middle d.kernel L.entry (workerAddress L.base 1) second)
    (hshell : d.shell = .waiting first second)
    (hworkers : d.workers = demoWorkers (BitVec.ofNat 64 L.rounds))
    (houtput : d.output = e.output ++ bytes "Cooperative task demo:\n")
    (hyields : d.yields = e.yields) (hreturned : u.shell = .returned)
    (htext : u.output = d.output ++ (L.two hN hfirst hsecond hshell hworkers).text L.rounds ++
      bytes "taskdemo: PASS\n") (hturns : u.yields = d.yields + L.rounds)
    (h : Reaping (L.two hN hfirst hsecond hshell hworkers) [first, second] [] u.kernel) :
    Passes L.rounds e u := by
  have hboot : d.kernel.tasks 0 = e.kernel.tasks 0 := by
    rw [hsecond.others 0 hsecond.ne_zero.symm, hfirst.others 0 hfirst.ne_zero.symm, hkernel]
  have hpos := L.rounds_pos
  have hsplit : 3 * L.rounds = 3 * L.rounds - 2 + 2 := by omega
  refine ⟨hreturned, ?_, by rw [hturns, hyields], ?_, ?_, ?_, ?_, ?_, ?_, ?_⟩
  · rw [htext, houtput, L.two_text]
  · refine h.contextSwitches.trans ?_
    rw [hkernel, ← hfirst.contextSwitches, ← hsecond.contextSwitches]
    rfl
  · have hcalls : u.kernel.yieldCalls + BitVec.ofNat 64 2 =
        d.kernel.yieldCalls + BitVec.ofNat 64 (3 * L.rounds) := h.yieldCalls
    rw [hsplit, BitVec.ofNat_add, ← BitVec.add_assoc, BitVec.add_left_inj, hsecond.yieldCalls,
      hfirst.yieldCalls] at hcalls
    rw [hcalls, hkernel]
  · refine h.createdTasks.trans ?_
    have hcreated : d.kernel.createdTasks = L.kernel.createdTasks + 1 + 1 := by
      rw [hsecond.createdTasks, hfirst.createdTasks]
    rw [hkernel]
    exact hcreated.trans (BitVec.add_assoc _ _ _)
  · refine h.exitedTasks.trans ?_
    rw [hkernel, ← hfirst.exitedTasks, ← hsecond.exitedTasks]
    rfl
  · refine h.reapedTasks.trans ?_
    rw [hkernel, ← hfirst.reapedTasks, ← hsecond.reapedTasks]
    rfl
  · rw [← hboot]
    exact h.scheduleCount
  · rw [hkernel, ← hfirst.stackErrors, ← hsecond.stackErrors]
    exact h.stackErrors

/-- With two slots and two pages both workers can be created. -/
theorem leads_passes (hN : N ≤ 2 ^ 32) (hkernel : d.kernel = L.kernel)
    (hshell : d.shell = .createFirst)
    (hworkers : d.workers = demoWorkers (BitVec.ofNat 64 L.rounds)) (hentry : L.entry ≠ null)
    {i j : Fin N} (hij : i ≠ j) (hi : i ≠ 0) (hj : j ≠ 0)
    (hi' : (L.kernel.tasks i).state = .unused) (hj' : (L.kernel.tasks j).state = .unused)
    (hfree : 2 ≤ (pageFreePages L.kernel.alloc).toNat) : Leads L.step (Passes L.rounds d) d := by
  refine (leads_launched L hkernel hshell hworkers).trans fun t ht => ?_
  cases ht with
  | none hshort =>
      rcases hshort with hnull | hslots | hpages
      · exact absurd hnull hentry
      · exact absurd hi' (hslots i hi)
      · omega
  | @one first hshort hfirst =>
      -- one of the two slots is left, and one page
      rcases hshort with hslots | hpages
      · rcases eq_or_ne i first with rfl | hne
        · refine absurd ?_ (hslots j hj)
          rw [hfirst.others j hij.symm, hj']
        · refine absurd ?_ (hslots i hi)
          rw [hfirst.others i hne, hi']
      · have hleft := hfirst.freePages
        omega
  | two hfirst hsecond hreach hshell hworkers hpoint hpoint' houtput hyields =>
      refine (L.leads_two hN hreach hfirst hsecond hshell hworkers hpoint hpoint').trans ?_
      rintro u ⟨hu, htext, hturns, hreaping⟩
      exact Leads.here (L.two_passes hN hkernel hfirst hsecond hshell hworkers houtput hyields hu
        htext hturns hreaping)

end Pass

/-! ### Runs of the command -/

section Command

variable {bootstrap kernelEnd entry base : Word} {clients : Finset Word} {d : Demo taskMaxCount}

/-- **The lines of the two workers alternate.**  When the boot flow has the CPU, nobody is READY, and
two slots and two pages are free, the command with its workers prints the lines of both workers in
turn, round after round, yields once in each round and reports that the demonstration has passed. -/
theorem taskdemo_interleaves {n : ℕ}
    (h : (kernel bootstrap kernelEnd).Reachable ⟨d.kernel, clients⟩)
    (hcur : d.kernel.currentTask = 0) (hquiet : ∀ i, (d.kernel.tasks i).state ≠ .ready)
    (hslots : ∃ i j : Fin taskMaxCount, i ≠ j ∧ i ≠ 0 ∧ j ≠ 0 ∧
      (d.kernel.tasks i).state = .unused ∧ (d.kernel.tasks j).state = .unused)
    (hfree : 2 ≤ (pageFreePages d.kernel.alloc).toNat) (hentry : entry ≠ null) (hn : 1 ≤ n)
    (hn' : n < 2 ^ 64 - 1) (hshell : d.shell = .createFirst)
    (hworkers : d.workers = demoWorkers (BitVec.ofNat 64 n)) (env : ℕ → Input) :
    ∃ k t, Driven.run (demoStep bootstrap entry base) env k d = some t ∧ Passes n d t := by
  obtain ⟨i, j, hij, hi, hj, hi', hj'⟩ := hslots
  have hN : taskMaxCount ≤ 2 ^ 32 := by decide
  exact leads_passes ⟨bootstrap, kernelEnd, entry, base, clients, d.kernel, n, h, hcur, hquiet, hn,
    Nat.add_lt_of_lt_sub hn'⟩ hN rfl hshell hworkers hentry hij hi hj hi' hj' hfree env

/-- The command at boot, with three rounds. -/
def bootDemo : Demo taskMaxCount where
  kernel := bootKernel
  workers := demoWorkers 3#64
  shell := .createFirst
  worker _ := .bootstrap
  output := []
  yields := 0

/-- Inputs that are all zero. -/
def zeroInput : Input := ⟨zeroCpu, fun _ => 0, Vector.replicate 20 0⟩

/-- Three rounds at boot. -/
theorem taskdemo_interleaves_boot : ∃ k t, Driven.run
    (demoStep 0x40080000#64 0x40081000#64 0x40090000#64) (fun _ => zeroInput) k bootDemo = some t ∧
      t.yields = 3 ∧ t.kernel.contextSwitches = 9 := by
  have hquiet : ∀ i, (bootKernel.tasks i).state ≠ .ready := by decide
  have hslots : ∃ i j : Fin taskMaxCount, i ≠ j ∧ i ≠ 0 ∧ j ≠ 0 ∧
      (bootKernel.tasks i).state = .unused ∧ (bootKernel.tasks j).state = .unused :=
    ⟨1, 2, by decide, by decide, by decide, rfl, rfl⟩
  have hfree : 2 ≤ (pageFreePages bootKernel.alloc).toNat := by decide
  have hentry : 0x40081000#64 ≠ null := by decide
  obtain ⟨k, t, hrun, hpass⟩ := taskdemo_interleaves (d := bootDemo) (n := 3) reachable_bootKernel rfl
    hquiet hslots hfree hentry (by decide) (by decide) rfl rfl fun _ => zeroInput
  exact ⟨k, t, hrun, hpass.yields, hpass.contextSwitches⟩

/-- **Whatever fails, nothing is left behind.**  When the boot flow has the CPU and nobody is READY,
the command returns, whatever its arguments, the slots and the pages are.  Then the boot flow has the
CPU; the slots that were UNUSED are UNUSED, and the others are as they were; the same pages are
outstanding; and no slot is left that could get the CPU. -/
theorem taskdemo_no_residue {arguments : List (List Byte)}
    (h : (kernel bootstrap kernelEnd).Reachable ⟨d.kernel, clients⟩)
    (hcur : d.kernel.currentTask = 0) (hquiet : ∀ i, (d.kernel.tasks i).state ≠ .ready)
    (hshell : d.shell = .start arguments) (env : ℕ → Input) :
    ∃ k t, Driven.run (demoStep bootstrap entry base) env k d = some t ∧ t.shell = .returned ∧
      t.kernel.currentTask = 0 ∧ (t.kernel.tasks 0).state = .running ∧
      (∀ i, (d.kernel.tasks i).state = .unused → (t.kernel.tasks i).state = .unused) ∧
      (∀ i, i ≠ 0 → (d.kernel.tasks i).state ≠ .unused → t.kernel.tasks i = d.kernel.tasks i) ∧
      ((t.kernel.tasks 0).entry = (d.kernel.tasks 0).entry ∧
        (t.kernel.tasks 0).argument = (d.kernel.tasks 0).argument ∧
        (t.kernel.tasks 0).stackPage = (d.kernel.tasks 0).stackPage ∧
        (t.kernel.tasks 0).stackCorrupted = (d.kernel.tasks 0).stackCorrupted) ∧
      t.kernel.alloc.usedPages = d.kernel.alloc.usedPages ∧
      (PageAlloc.clients kernelEnd).Reachable ⟨d.kernel.alloc, clients ∪ stackPages d.kernel⟩ ∧
      (PageAlloc.clients kernelEnd).Reachable ⟨t.kernel.alloc, clients ∪ stackPages d.kernel⟩ ∧
      (kernel bootstrap kernelEnd).Reachable ⟨t.kernel, clients⟩ ∧
      ∀ i, i ≠ 0 → (t.kernel.tasks i).state = .unused ∨
        (t.kernel.tasks i).state = .finished ∧ t.kernel.tasks i = d.kernel.tasks i := by
  have hinv : SchedInv d.kernel := reachable_schedInv h
  have hleads : Leads (demoStep bootstrap entry base)
      (fun t => t.shell = .returned ∧ Restores d.kernel t.kernel) d :=
    leads_start h hcur hquiet hshell
  obtain ⟨k, t, hrun, hreturned, ht⟩ := hleads env
  have hreach : (kernel bootstrap kernelEnd).Reachable ⟨t.kernel, clients⟩ :=
    Driven.run_invariant (P := fun d => (kernel bootstrap kernelEnd).Reachable ⟨d.kernel, clients⟩)
      (fun _ _ _ hs hstep => demoStep_reachable hs hstep) h hrun
  have hrunning := ((reachable_schedInv hreach).running 0).2 ht.currentTask.symm
  obtain ⟨hused, hpages, hpages'⟩ := ht.pages h hreach
  refine ⟨k, t, hrun, hreturned, ht.currentTask, hrunning, ht.unused, ht.others, ht.boot, hused,
    hpages, hpages', hreach, ?_⟩
  intro i hi
  by_cases hunused : (d.kernel.tasks i).state = .unused
  · exact .inl (ht.unused i hunused)
  · have hsame := ht.others i hi hunused
    refine .inr ⟨?_, hsame⟩
    rw [hsame]
    cases hst : (d.kernel.tasks i).state with
    | unused => exact absurd hst hunused
    | ready => exact absurd hst (hquiet i)
    | running => exact absurd (((hinv.running i).1 hst).trans hcur) hi
    | finished => rfl

/-- The command in a kernel that has left one page of the RAM. -/
def onePageCommand : Demo taskMaxCount :=
  { bootDemo with
    kernel := taskInit
      (State.boot (PageAlloc.pageAllocInit 0x47fff000#64 (PageAlloc.State.boot fun _ => 0)) zeroCpu)
    shell := .start [bytes "taskdemo", bytes "2"] }

/-- Where there is no page for the second task, the command returns, and the page of the first one is free
again. -/
theorem taskdemo_no_residue_one_page : (pageFreePages onePageCommand.kernel.alloc).toNat = 1 ∧
    ∃ k t, Driven.run (demoStep 0x40080000#64 0x40081000#64 0x40090000#64) (fun _ => zeroInput) k
      onePageCommand = some t ∧ t.shell = .returned ∧ t.kernel.alloc.usedPages = 0 := by
  have hreach : (kernel 0x40080000#64 0x47fff000#64).Reachable ⟨onePageCommand.kernel, ∅⟩ :=
    Lts.Reachable.init ⟨fun _ => 0, zeroCpu, rfl⟩
  have hquiet : ∀ i, (onePageCommand.kernel.tasks i).state ≠ .ready := by decide
  obtain ⟨k, t, hrun, hreturned, -, -, -, -, -, hused, -⟩ :=
    taskdemo_no_residue (d := onePageCommand) hreach rfl hquiet rfl fun _ => zeroInput
  exact ⟨by decide, k, t, hrun, hreturned, hused⟩

end Command

end TaskDemo

end MiniOs
