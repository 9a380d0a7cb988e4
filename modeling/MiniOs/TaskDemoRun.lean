/-
**Runs of the demonstration of the scheduler.**

Between two yields of the boot flow every worker of the command gets the CPU once, in the order of
the slots, and prints its line.  In the last round the workers exit instead of yielding, and then
the command finds them finished and reaps them.  This holds for one worker as well as for two, so
that the cleanup after a failed creation runs in the same way.

Main definitions:

* `TaskDemo.Team` — the workers of the command, before the first round;
* `TaskDemo.Kept` — what the run of the workers has changed in the scheduler so far;
* `TaskDemo.Between`, `TaskDemo.Turn` — **between two rounds, and inside a round**;
* `TaskDemo.Reaping` — after the last round.

Main results:

* `TaskDemo.leads_turn`, `TaskDemo.leads_turns` — one turn, and the turns of a round;
* `TaskDemo.leads_rounds` — **all rounds**;
* `TaskDemo.leads_cleanup`, `TaskDemo.leads_waiting` — **one worker, and two workers**, from the first
  round to the end of the command.
-/

import MiniOs.TaskDemo

set_option relaxedAutoImplicit false
set_option autoImplicit false

namespace MiniOs

namespace TaskDemo

open Driven (Leads)
open Shell (bytes)
open MiniOs.Task

variable {N : ℕ} [NeZero N]

/-! ### Workers in front of their first round -/

/-- **The workers of the command**, in the order of their slots, and the state in which it goes to
its loop.  It yields as long as all of them are READY. -/
structure Team (N : ℕ) [NeZero N] where
  bootstrap : Word
  kernelEnd : Word
  entry : Word
  base : Word
  clients : Finset Word
  start : Demo N
  slots : List (Fin N)
  which : Fin N → Fin 2
  rounds : ℕ
  sorted : slots.Pairwise (· < ·)
  ne_nil : slots ≠ []
  ne_zero : ∀ w ∈ slots, w ≠ 0
  rounds_pos : 0 < rounds
  rounds_lt : rounds + 1 < 2 ^ 64
  rounds_eq : ∀ k, (start.workers k).rounds = BitVec.ofNat 64 rounds
  quiet : ∀ i, i ≠ 0 → i ∉ slots → (start.kernel.tasks i).state ≠ .ready
  waits : ∀ (input : Input) (d : Demo N), d.shell = start.shell → SchedInv d.kernel →
    (∀ w ∈ slots, (d.kernel.tasks w).state = .ready) →
    shellStep bootstrap entry base input d =
      some { d with kernel := taskYield input.regs d.kernel, yields := d.yields + 1 }

namespace Team

variable (T : Team N)

/-- One step of the command or of a worker. -/
abbrev step : Input → Demo N → Option (Demo N) := demoStep T.bootstrap T.entry T.base

/-- The lines that some of the workers print in round `r`, the first round being round 0. -/
def lines (r : ℕ) (slots : List (Fin N)) : List Byte :=
  slots.flatMap fun w => line (T.start.workers (T.which w)).label (r + 1)

/-- The lines of the first `r` rounds. -/
def text (r : ℕ) : List Byte := (List.range r).flatMap fun q => T.lines q T.slots

theorem lines_snoc (r : ℕ) (done : List (Fin N)) (w : Fin N) :
    T.lines r (done ++ [w]) =
      T.lines r done ++ line (T.start.workers (T.which w)).label (r + 1) := by
  rw [lines, lines, List.flatMap_append, List.flatMap_singleton]

theorem text_succ (r : ℕ) : T.text (r + 1) = T.text r ++ T.lines r T.slots := by
  rw [text, text, List.range_succ, List.flatMap_append, List.flatMap_singleton]

/-- Where a worker goes on after `r` rounds, if there is another one. -/
def point (w : Fin N) (r : ℕ) : WorkerPoint :=
  if r = 0 then .bootstrap
  else .test (workerAddress T.base (T.which w)) (BitVec.ofNat 64 (r + 1))

/-- How many workers have exited when `k` of them have had their turn after `r` rounds. -/
def exits (r k : ℕ) : ℕ :=
  if r + 1 < T.rounds then 0 else if r < T.rounds then k else T.slots.length

theorem exits_zero {r : ℕ} (h : r < T.rounds) : T.exits r 0 = 0 := by
  unfold exits
  rw [if_pos h, ite_self]

theorem exits_all {r : ℕ} (h : r < T.rounds) :
    T.exits r T.slots.length = T.exits (r + 1) 0 := by
  unfold exits
  split_ifs <;> omega

theorem exits_succ (r k : ℕ) (h : r < T.rounds) :
    T.exits r (k + 1) = T.exits r k + if r + 1 < T.rounds then 0 else 1 := by
  unfold exits
  split_ifs <;> omega

/-- The state of a worker that does not have the CPU after `r` rounds. -/
def stateAfter (r : ℕ) : TaskState := if r < T.rounds then .ready else .finished

end Team

/-! ### What a run keeps -/

/-- **What the run of the workers has changed in the scheduler**: there were `c` switches, `e` of
them by an exit, and `z` of them to the boot flow. -/
structure Kept (T : Team N) (s : State N) (c e z : ℕ) : Prop where
  reachable : (kernel T.bootstrap T.kernelEnd).Reachable ⟨s, T.clients⟩
  canary : ∀ w ∈ T.slots, StackCanaryOk w s
  clean : ∀ w ∈ T.slots, (s.tasks w).stackCorrupted = false
  entry : ∀ w ∈ T.slots, (s.tasks w).entry = T.entry
  argument : ∀ w ∈ T.slots, (s.tasks w).argument = workerAddress T.base (T.which w)
  others : ∀ i, i ≠ 0 → i ∉ T.slots → s.tasks i = T.start.kernel.tasks i
  boot : (s.tasks 0).entry = (T.start.kernel.tasks 0).entry ∧
    (s.tasks 0).argument = (T.start.kernel.tasks 0).argument ∧
    (s.tasks 0).stackPage = (T.start.kernel.tasks 0).stackPage ∧
    (s.tasks 0).stackCorrupted = (T.start.kernel.tasks 0).stackCorrupted
  scheduleCount : (s.tasks 0).scheduleCount =
    (T.start.kernel.tasks 0).scheduleCount + BitVec.ofNat 64 z
  contextSwitches : s.contextSwitches = T.start.kernel.contextSwitches + BitVec.ofNat 64 c
  exitedTasks : s.exitedTasks = T.start.kernel.exitedTasks + BitVec.ofNat 64 e
  yieldCalls : s.yieldCalls + BitVec.ofNat 64 e =
    T.start.kernel.yieldCalls + BitVec.ofNat 64 c
  createdTasks : s.createdTasks = T.start.kernel.createdTasks
  reapedTasks : s.reapedTasks = T.start.kernel.reapedTasks
  stackErrors : s.stackErrors = T.start.kernel.stackErrors

/-- A counter goes on by one. -/
theorem counter_succ (x : Word) (c : ℕ) :
    x + BitVec.ofNat 64 c + 1 = x + BitVec.ofNat 64 (c + 1) := by
  rw [BitVec.add_assoc, BitVec.ofNat_add]
  rfl

namespace Kept

variable {T : Team N} {s t : State N} {c e z : ℕ}

theorem useStack (h : Kept T s c e z) (contents : ℕ → Word) :
    Kept T (Task.useStack contents s) c e z := by
  obtain ⟨mem, hmem⟩ := useStack_eq contents s
  have hreach := reachable_useStack contents h.reachable
  have hcanary : ∀ w ∈ T.slots, StackCanaryOk w (Task.useStack contents s) :=
    fun w hw => (useStack_canary contents h.reachable).2 (h.canary w hw)
  rw [hmem] at hreach hcanary ⊢
  exact ⟨hreach, hcanary, h.clean, h.entry, h.argument, h.others, h.boot, h.scheduleCount,
    h.contextSwitches, h.exitedTasks, h.yieldCalls, h.createdTasks, h.reapedTasks, h.stackErrors⟩

/-- The CPU goes from one worker to another, or from or to the boot flow. -/
theorem hands (h : Kept T s c e z) {previous next : Fin N} {state : TaskState}
    (hh : Hands s t previous next state)
    (hreach : (kernel T.bootstrap T.kernelEnd).Reachable ⟨t, T.clients⟩)
    (hprevious : previous = 0 ∨ previous ∈ T.slots) (hnext : next = 0 ∨ next ∈ T.slots) {x : ℕ}
    (hexit : t.exitedTasks = s.exitedTasks + BitVec.ofNat 64 x)
    (hyield : t.yieldCalls + BitVec.ofNat 64 x = s.yieldCalls + 1) :
    Kept T t (c + 1) (e + x) (if next = 0 then z + 1 else z) where
  reachable := hreach
  canary w hw := by
    have hok := h.canary w hw
    unfold StackCanaryOk at hok ⊢
    rw [(hh.slot w).2.2.1, hh.alloc]
    exact hok
  clean w hw := (hh.slot w).2.2.2.trans (h.clean w hw)
  entry w hw := (hh.slot w).1.trans (h.entry w hw)
  argument w hw := (hh.slot w).2.1.trans (h.argument w hw)
  others i hi hout := by
    have hne : ∀ {j : Fin N}, j = 0 ∨ j ∈ T.slots → i ≠ j := by
      rintro j (rfl | hj) rfl
      · exact hi rfl
      · exact hout hj
    rw [hh.others i (hne hprevious) (hne hnext), h.others i hi hout]
  boot := by
    obtain ⟨hentry, hargument, hpage, hflag⟩ := hh.slot 0
    rw [hentry, hargument, hpage, hflag]
    exact h.boot
  scheduleCount := by
    rw [hh.scheduleCount, h.scheduleCount]
    by_cases hzero : next = 0
    · rw [if_pos hzero.symm, if_pos hzero, counter_succ]
    · rw [if_neg (Ne.symm hzero), if_neg hzero]
  contextSwitches := by rw [hh.contextSwitches, h.contextSwitches, counter_succ]
  exitedTasks := by rw [hexit, h.exitedTasks, BitVec.add_assoc, BitVec.ofNat_add]
  yieldCalls := by
    calc t.yieldCalls + BitVec.ofNat 64 (e + x)
        = t.yieldCalls + BitVec.ofNat 64 x + BitVec.ofNat 64 e := by
          rw [BitVec.ofNat_add, BitVec.add_comm (BitVec.ofNat 64 e), BitVec.add_assoc]
      _ = s.yieldCalls + BitVec.ofNat 64 e + 1 := by
          rw [hyield, BitVec.add_assoc, BitVec.add_comm 1, BitVec.add_assoc]
      _ = T.start.kernel.yieldCalls + BitVec.ofNat 64 (c + 1) := by
          rw [h.yieldCalls, counter_succ]
  createdTasks := hh.createdTasks.trans h.createdTasks
  reapedTasks := hh.reapedTasks.trans h.reapedTasks
  stackErrors := hh.stackErrors.trans h.stackErrors

end Kept

/-! ### How far the workers are -/

/-- A worker that does not have the CPU has had `r` turns. -/
structure Took (T : Team N) (d : Demo N) (w : Fin N) (r : ℕ) : Prop where
  point : r < T.rounds → d.worker w = T.point w r
  state : (d.kernel.tasks w).state = T.stateAfter r

theorem Took.hands {T : Team N} {d d' : Demo N} {v previous next : Fin N} {r : ℕ}
    {state : TaskState} (h : Took T d v r) (hh : Hands d.kernel d'.kernel previous next state)
    (hprevious : v ≠ previous) (hnext : v ≠ next) (hworker : d'.worker v = d.worker v) :
    Took T d' v r where
  point hr := hworker.trans (h.point hr)
  state := by rw [hh.state, if_neg hnext, if_neg hprevious, h.state]

theorem Took.of_hands {T : Team N} {d' : Demo N} {s : State N} {w next : Fin N} {r : ℕ}
    {state : TaskState} (hh : Hands s d'.kernel w next state) (hne : next ≠ w)
    (hstate : state = T.stateAfter r) (hpoint : r < T.rounds → d'.worker w = T.point w r) :
    Took T d' w r where
  point := hpoint
  state := by rw [hh.state, if_neg (Ne.symm hne), if_pos rfl, hstate]

/-- **Within a round**, after `r` rounds: some workers have had their turn, at most one has the CPU,
the others wait for it. -/
structure Progress (T : Team N) (r : ℕ) (done : List (Fin N)) (current : Option (Fin N))
    (rest : List (Fin N)) (c z : ℕ) (d : Demo N) : Prop where
  slots : T.slots = done ++ (current.toList ++ rest)
  currentTask : d.kernel.currentTask = current.getD 0
  kept : Kept T d.kernel c (T.exits r done.length) z
  took_done : ∀ w ∈ done, Took T d w (r + 1)
  took_rest : ∀ w ∈ rest, Took T d w r
  shell : d.shell = T.start.shell
  workers : d.workers = T.start.workers

theorem ne_getD {w : Fin N} {o : Option (Fin N)} (hzero : w ≠ 0) (h : ∀ v ∈ o, w ≠ v) :
    w ≠ o.getD 0 := by
  cases o with
  | none => exact hzero
  | some v => exact h v rfl

theorem getD_mem {slots : List (Fin N)} {o : Option (Fin N)} (h : ∀ v ∈ o, v ∈ slots) :
    o.getD 0 = 0 ∨ o.getD 0 ∈ slots := by
  cases o with
  | none => exact .inl rfl
  | some v => exact .inr (h v rfl)

namespace Progress

variable {T : Team N} {r : ℕ} {done rest : List (Fin N)} {current : Option (Fin N)} {c z : ℕ}
  {d : Demo N}

theorem useStack (h : Progress T r done current rest c z d) (contents : ℕ → Word) :
    Progress T r done current rest c z
      { d with kernel := Task.useStack contents d.kernel } where
  slots := h.slots
  currentTask := (useStack_currentTask contents d.kernel).trans h.currentTask
  kept := h.kept.useStack contents
  took_done w hw := by
    refine ⟨(h.took_done w hw).point, ?_⟩
    rw [useStack_tasks]
    exact (h.took_done w hw).state
  took_rest w hw := by
    refine ⟨(h.took_rest w hw).point, ?_⟩
    rw [useStack_tasks]
    exact (h.took_rest w hw).state
  shell := h.shell
  workers := h.workers

theorem schedInv (h : Progress T r done current rest c z d) : SchedInv d.kernel :=
  reachable_schedInv h.kept.reachable

theorem sorted (h : Progress T r done current rest c z d) :
    (done ++ (current.toList ++ rest)).Pairwise (· < ·) := h.slots ▸ T.sorted

theorem mem_slots (h : Progress T r done current rest c z d) {w : Fin N}
    (hw : w ∈ current.toList ++ rest) : w ∈ T.slots := h.slots ▸ List.mem_append_right _ hw

theorem lt_of_mem_done (h : Progress T r done current rest c z d) {v w : Fin N} (hv : v ∈ done)
    (hw : w ∈ current.toList ++ rest) : v < w := (List.pairwise_append.1 h.sorted).2.2 v hv w hw

theorem rest_sorted (h : Progress T r done current rest c z d) :
    (current.toList ++ rest).Pairwise (· < ·) := (List.pairwise_append.1 h.sorted).2.1

theorem pos (h : Progress T r done current rest c z d) {w : Fin N}
    (hw : w ∈ current.toList ++ rest) : 0 < w :=
  Fin.pos_iff_ne_zero.2 (T.ne_zero w (h.mem_slots hw))

/-- Who can be READY. -/
theorem ready_cases (h : Progress T r done current rest c z d) {i : Fin N}
    (hi : i ≠ d.kernel.currentTask) (hready : (d.kernel.tasks i).state = .ready) :
    i = 0 ∨ i ∈ done ∨ i ∈ rest := by
  by_cases hzero : i = 0
  · exact .inl hzero
  refine .inr ?_
  by_cases hmem : i ∈ T.slots
  · rw [h.slots, List.mem_append, List.mem_append] at hmem
    rcases hmem with hdone | hcur | hrest
    · exact .inl hdone
    · rw [h.currentTask, Option.mem_toList.1 hcur] at hi
      exact absurd rfl hi
    · exact .inr hrest
  · rw [h.kept.others i hzero hmem] at hready
    exact absurd hready (T.quiet i hzero hmem)

/-- The canary of the flow of control that has the CPU is in place. -/
theorem canary (h : Progress T r done current rest c z d) :
    StackCanaryOk d.kernel.currentTask d.kernel := by
  rw [h.currentTask]
  cases current with
  | none => exact .inl h.schedInv.bootPage
  | some w => exact h.kept.canary w (h.mem_slots List.mem_cons_self)

theorem rest_ready (h : Progress T r done current rest c z d) (hr : r < T.rounds) {w : Fin N}
    (hw : w ∈ rest) : (d.kernel.tasks w).state = .ready := by
  rw [(h.took_rest w hw).state, Team.stateAfter, if_pos hr]

/-- After the boot flow it is the turn of the first worker. -/
theorem findNextReady_first (h : Progress T r [] none rest c z d) (hne : rest ≠ [])
    (hr : r < T.rounds) : findNextReady d.kernel = some (rest.head?.getD 0) := by
  have hcur : d.kernel.currentTask = 0 := h.currentTask
  obtain ⟨w, rest, rfl⟩ := List.exists_cons_of_ne_nil hne
  refine findNextReady_of_lt ?_ (h.rest_ready hr List.mem_cons_self) fun i hi hready => .inl ?_
  · rw [hcur]
    exact h.pos List.mem_cons_self
  · rcases h.ready_cases hi hready with rfl | hdone | hrest
    · exact absurd hcur.symm hi
    · exact absurd hdone List.not_mem_nil
    · rcases List.mem_cons.1 hrest with rfl | hrest
      · exact le_rfl
      · exact le_of_lt ((List.pairwise_cons.1 h.rest_sorted).1 i hrest)

/-- After a worker it is the turn of the next one, and after the last one that of the boot flow. -/
theorem findNextReady_next {w : Fin N} (h : Progress T r done (some w) rest c z d)
    (hr : r < T.rounds) : findNextReady d.kernel = some (rest.head?.getD 0) := by
  have hcur : d.kernel.currentTask = w := h.currentTask
  have hpos : 0 < w := h.pos List.mem_cons_self
  cases rest with
  | nil =>
      have hboot : (d.kernel.tasks 0).state = .ready :=
        h.schedInv.boot_ready (hcur.symm ▸ ne_of_gt hpos)
      refine findNextReady_of_gt (hcur.symm ▸ hpos) hboot fun i hi hready => ?_
      refine ⟨Fin.zero_le i, hcur.symm ▸ ?_⟩
      rcases h.ready_cases hi hready with rfl | hdone | hrest
      · exact hpos
      · exact h.lt_of_mem_done hdone List.mem_cons_self
      · exact absurd hrest List.not_mem_nil
  | cons v rest =>
      obtain ⟨hlt, hsorted⟩ := List.pairwise_cons.1 h.rest_sorted
      refine findNextReady_of_lt (hcur.symm ▸ hlt v List.mem_cons_self)
        (h.rest_ready hr List.mem_cons_self) fun i hi hready => ?_
      rw [hcur]
      rcases h.ready_cases hi hready with rfl | hdone | hrest
      · exact .inr hpos
      · exact .inr (h.lt_of_mem_done hdone List.mem_cons_self)
      · rcases List.mem_cons.1 hrest with rfl | hrest
        · exact .inl le_rfl
        · exact .inl (le_of_lt ((List.pairwise_cons.1 hsorted).1 i hrest))

/-- The CPU goes on to the next worker, or back to the boot flow. -/
theorem hands (h : Progress T r done current rest c z d) {d' : Demo N} {state : TaskState} {x : ℕ}
    (hh : Hands d.kernel d'.kernel (current.getD 0) (rest.head?.getD 0) state)
    (hreach : (kernel T.bootstrap T.kernelEnd).Reachable ⟨d'.kernel, T.clients⟩)
    (hexit : d'.kernel.exitedTasks = d.kernel.exitedTasks + BitVec.ofNat 64 x)
    (hyield : d'.kernel.yieldCalls + BitVec.ofNat 64 x = d.kernel.yieldCalls + 1)
    (hexits : T.exits r (done ++ current.toList).length = T.exits r done.length + x)
    (hturn : ∀ w ∈ current, Took T d' w (r + 1))
    (hworker : ∀ w, w ∉ current → d'.worker w = d.worker w)
    (hshell : d'.shell = d.shell) (hworkers : d'.workers = d.workers) :
    Progress T r (done ++ current.toList) rest.head? rest.tail (c + 1)
      (if rest.head?.getD 0 = 0 then z + 1 else z) d' := by
  have hslots : T.slots = (done ++ current.toList) ++ (rest.head?.toList ++ rest.tail) := by
    rw [h.slots, ← List.append_assoc]
    cases rest <;> rfl
  have hhead : ∀ {v : Fin N}, v ∈ rest.head? → v ∈ current.toList ++ rest :=
    fun hv => List.mem_append_right _ (List.mem_of_mem_head? hv)
  have hcurrent : ∀ {v : Fin N}, v ∈ current → v ∈ current.toList ++ rest :=
    fun hv => List.mem_append_left _ (Option.mem_toList.2 hv)
  refine ⟨hslots, hh.currentTask, ?_, ?_, ?_, hshell.trans h.shell, hworkers.trans h.workers⟩
  · rw [hexits]
    exact h.kept.hands hh hreach (getD_mem fun v hv => h.mem_slots (hcurrent hv))
      (getD_mem fun v hv => h.mem_slots (hhead hv)) hexit hyield
  · intro w hw
    rcases List.mem_append.1 hw with hw | hw
    · have hzero : w ≠ 0 := T.ne_zero w (by rw [h.slots]; exact List.mem_append_left _ hw)
      have hne : ∀ v ∈ current, w ≠ v := fun v hv => ne_of_lt (h.lt_of_mem_done hw (hcurrent hv))
      exact (h.took_done w hw).hands hh (ne_getD hzero hne)
        (ne_getD hzero fun v hv => ne_of_lt (h.lt_of_mem_done hw (hhead hv)))
        (hworker w fun hv => hne w hv rfl)
    · exact hturn w (Option.mem_toList.1 hw)
  · intro w hw
    have hrest := List.mem_of_mem_tail hw
    have hzero : w ≠ 0 := T.ne_zero w (h.mem_slots (List.mem_append_right _ hrest))
    have hsorted := List.pairwise_append.1 h.rest_sorted
    have hne : ∀ v ∈ current, w ≠ v := fun v hv =>
      ne_of_gt (hsorted.2.2 v (Option.mem_toList.2 hv) w hrest)
    refine (h.took_rest w hrest).hands hh (ne_getD hzero hne) (ne_getD hzero fun v hv => ?_)
      (hworker w fun hv => hne w hv rfl)
    cases rest with
    | nil => exact absurd hw List.not_mem_nil
    | cons u rest =>
        obtain rfl : u = v := Option.some_inj.1 hv
        exact ne_of_gt ((List.pairwise_cons.1 hsorted.2.1).1 w hw)

end Progress

/-! ### Between two rounds, and inside a round -/

/-- **Between two rounds**: the boot flow has the CPU. -/
structure Between (T : Team N) (r : ℕ) (d : Demo N) : Prop
    extends Progress T r [] none T.slots ((T.slots.length + 1) * r) r d where
  output : d.output = T.start.output ++ T.text r
  yields : d.yields = T.start.yields + r

/-- **Inside a round**: a worker has the CPU. -/
structure Turn (T : Team N) (r : ℕ) (done : List (Fin N)) (w : Fin N) (rest : List (Fin N))
    (d : Demo N) : Prop
    extends Progress T r done (some w) rest ((T.slots.length + 1) * r + 1 + done.length) r d where
  lt : r < T.rounds
  point : d.worker w = T.point w r
  output : d.output = T.start.output ++ (T.text r ++ T.lines r done)
  yields : d.yields = T.start.yields + (r + 1)

/-- The next one has the CPU. -/
def After (T : Team N) (r : ℕ) (done : List (Fin N)) : (rest : List (Fin N)) → Demo N → Prop
  | [], d => Between T (r + 1) d
  | w :: rest, d => Turn T r done w rest d

theorem Progress.after {T : Team N} {r : ℕ} {done rest : List (Fin N)} {d : Demo N}
    (h : Progress T r done rest.head? rest.tail ((T.slots.length + 1) * r + 1 + done.length)
      (if rest.head?.getD 0 = 0 then r + 1 else r) d)
    (hr : r < T.rounds) (hpoint : ∀ w ∈ rest.head?, d.worker w = T.point w r)
    (houtput : d.output = T.start.output ++ (T.text r ++ T.lines r done))
    (hyields : d.yields = T.start.yields + (r + 1)) : After T r done rest d := by
  cases rest with
  | nil =>
      have hdone : T.slots = done := h.slots.trans (List.append_nil _)
      subst hdone
      have hkept := h.kept
      have hswitches : (T.slots.length + 1) * r + 1 + T.slots.length =
          (T.slots.length + 1) * (r + 1) := by
        rw [Nat.mul_succ]
        omega
      rw [T.exits_all hr, hswitches] at hkept
      refine ⟨⟨rfl, h.currentTask, hkept, fun w hw => absurd hw List.not_mem_nil, h.took_done, h.shell,
        h.workers⟩, ?_, hyields⟩
      rw [houtput, T.text_succ]
  | cons w rest =>
      have hzero : ¬ w = 0 := ne_of_gt (h.pos List.mem_cons_self)
      have hturn := h
      rw [List.head?_cons, Option.getD_some, if_neg hzero] at hturn
      exact ⟨hturn, hr, hpoint w rfl, houtput, hyields⟩

/-! ### What a worker does when it has the CPU -/

omit [NeZero N] in
theorem argumentAt_workerAddress (d : Demo N) (base : Word) (k : Fin 2) :
    d.argumentAt base (workerAddress base k) = some (d.workers k) := by
  match k with
  | 0 => exact if_pos rfl
  | 1 =>
      have hne : ¬ workerAddress base 1 = workerAddress base 0 := by
        rw [workerAddress, workerAddress]
        bv_omega
      rw [Demo.argumentAt, if_neg hne, if_pos rfl]

theorem Team.point_succ (T : Team N) (w : Fin N) (r : ℕ) :
    T.point w (r + 1) = .test (workerAddress T.base (T.which w)) (BitVec.ofNat 64 (r + 1) + 1) := by
  rw [Team.point, if_neg r.succ_ne_zero, BitVec.ofNat_add]
  rfl

/-- A worker after `r` rounds prints its line and yields unless it was the last one; after the last
round it exits. -/
theorem workerLoop_eq (T : Team N) {d : Demo N} (hworkers : d.workers = T.start.workers) {r : ℕ}
    (hr : r ≤ T.rounds) (w : Fin N) (input : Input) :
    workerLoop T.base input (workerAddress T.base (T.which w)) (BitVec.ofNat 64 (r + 1)) d =
      if r < T.rounds then
        let d := { d with
          output := d.output ++ line (T.start.workers (T.which w)).label (r + 1)
          worker := Function.update d.worker d.kernel.currentTask (T.point w (r + 1)) }
        if r + 1 < T.rounds then some { d with kernel := taskYield input.regs d.kernel } else some d
      else some { d with kernel := taskExit input.regs d.kernel } := by
  have hlt := T.rounds_lt
  have hround : (BitVec.ofNat 64 (r + 1)).toNat = r + 1 :=
    Nat.mod_eq_of_lt ((Nat.succ_le_succ hr).trans_lt hlt)
  have hrounds : (BitVec.ofNat 64 T.rounds).toNat = T.rounds :=
    Nat.mod_eq_of_lt ((Nat.le_succ _).trans_lt hlt)
  have hle : BitVec.ofNat 64 (r + 1) ≤ BitVec.ofNat 64 T.rounds ↔ r < T.rounds := by
    rw [BitVec.le_def, hround, hrounds]
    exact Iff.rfl
  have hne : BitVec.ofNat 64 (r + 1) ≠ BitVec.ofNat 64 T.rounds ↔ r + 1 ≠ T.rounds := by
    rw [ne_eq, ← BitVec.toNat_inj, hround, hrounds]
  have hworker : d.workers (T.which w) = T.start.workers (T.which w) := by rw [hworkers]
  rw [workerLoop, argumentAt_workerAddress, hworker]
  dsimp only
  rw [T.rounds_eq, roundLine_eq, hround, T.point_succ]
  by_cases hlast : r < T.rounds
  · rw [if_pos (hle.2 hlast), if_pos hlast]
    dsimp only [Demo.say]
    by_cases hmore : r + 1 < T.rounds
    · rw [if_pos (hne.2 (ne_of_lt hmore)), if_pos hmore]
    · rw [if_neg (not_not.2 (not_not.1 (mt hne.1 (by omega)))), if_neg hmore]
  · rw [if_neg (mt hle.1 hlast), if_neg hlast]

/-- A worker that has the CPU goes on after its last round. -/
theorem workerStep_eq (T : Team N) {d : Demo N} {w : Fin N} {r : ℕ}
    (hcur : d.kernel.currentTask = w) (hpoint : d.worker w = T.point w r)
    (hentry : (d.kernel.tasks w).entry = T.entry)
    (hargument : (d.kernel.tasks w).argument = workerAddress T.base (T.which w)) (input : Input) :
    workerStep T.entry T.base input d =
      workerLoop T.base input (workerAddress T.base (T.which w)) (BitVec.ofNat 64 (r + 1)) d := by
  rw [workerStep, hcur, hpoint]
  cases r with
  | zero =>
      change (if (d.kernel.tasks d.kernel.currentTask).entry = T.entry then
        workerLoop T.base input (d.kernel.tasks d.kernel.currentTask).argument 1 d else none) = _
      rw [hcur, if_pos hentry, hargument]
      rfl
  | succ r => rfl

/-! ### Rounds -/

/-- The stack of the boot flow is not in a page. -/
theorem demoStep_boot {bootstrap entry base : Word} {input : Input} {d : Demo N}
    (h : SchedInv d.kernel) (hcur : d.kernel.currentTask = 0) :
    demoStep bootstrap entry base input d = shellStep bootstrap entry base input d := by
  have hpage : (d.kernel.tasks d.kernel.currentTask).stackPage = null := by
    rw [hcur]
    exact h.bootPage
  rw [demoStep, useStack, if_pos hpage]
  exact if_pos hcur

section Rounds

variable {T : Team N} {r c z : ℕ} {done rest : List (Fin N)} {w : Fin N} {d : Demo N}

/-- Printing changes nothing else. -/
theorem Progress.print (h : Progress T r done (some w) rest c z d) (worker : WorkerPoint)
    (output : List Byte) : Progress T r done (some w) rest c z
      { d with output := output, worker := Function.update d.worker w worker } where
  slots := h.slots
  currentTask := h.currentTask
  kept := h.kept
  took_done v hv := by
    have hne : v ≠ w := ne_of_lt (h.lt_of_mem_done hv List.mem_cons_self)
    exact ⟨fun hr => (Function.update_of_ne hne _ _).trans ((h.took_done v hv).point hr),
      (h.took_done v hv).state⟩
  took_rest v hv := by
    have hne : v ≠ w := ne_of_gt ((List.pairwise_cons.1 h.rest_sorted).1 v hv)
    exact ⟨fun hr => (Function.update_of_ne hne _ _).trans ((h.took_rest v hv).point hr),
      (h.took_rest v hv).state⟩
  shell := h.shell
  workers := h.workers

theorem Progress.currentTask_ne_zero (h : Progress T r done (some w) rest c z d) :
    d.kernel.currentTask ≠ 0 := by
  rw [h.currentTask]
  exact ne_of_gt (h.pos List.mem_cons_self)

/-- The worker that has the CPU makes a step. -/
theorem Progress.step_eq {q : ℕ} (h : Progress T r done (some w) rest c z d)
    (hpoint : d.worker w = T.point w q) (input : Input) :
    T.step input d = workerLoop T.base input (workerAddress T.base (T.which w))
      (BitVec.ofNat 64 (q + 1)) { d with kernel := Task.useStack input.stack d.kernel } := by
  have hw : w ∈ T.slots := h.mem_slots List.mem_cons_self
  have hp := h.useStack input.stack
  rw [Team.step, demoStep, runningStep, if_neg hp.currentTask_ne_zero]
  refine workerStep_eq T hp.currentTask ?_ (hp.kept.entry w hw) (hp.kept.argument w hw) input
  exact hpoint

/-- The boot flow finds the workers READY and yields. -/
theorem leads_boot (h : Between T r d) (hr : r < T.rounds) :
    Leads T.step (After T r [] T.slots) d := by
  refine Leads.of_step fun input => ?_
  have hp := h.toProgress
  have hnext := hp.findNextReady_first T.ne_nil hr
  obtain ⟨hh, hyield, hexit⟩ := taskYield_hands hp.schedInv hp.canary hnext input.regs
  have hstep := T.waits input d hp.shell hp.schedInv fun w hw => hp.rest_ready hr hw
  rw [← demoStep_boot hp.schedInv hp.currentTask] at hstep
  refine ⟨_, hstep, Leads.here (Progress.after ?_ hr ?_ ?_ ?_)⟩
  · rw [hp.currentTask] at hh
    exact hp.hands hh (reachable_taskYield hp.kept.reachable _) (hexit.trans (BitVec.add_zero _).symm)
      ((BitVec.add_zero _).trans hyield) rfl (fun w hw => absurd hw (Option.not_mem_none w))
      (fun _ _ => rfl) rfl rfl
  · intro w hw
    exact (h.took_rest w (List.mem_of_mem_head? hw)).point hr
  · exact h.output.trans (congrArg _ (List.append_nil _).symm)
  · exact congrArg Nat.succ h.yields

/-- A worker that has printed its line gives up the CPU. -/
theorem Progress.turn {next : Fin N} {t : State N} {x : ℕ}
    (h : Progress T r done (some w) rest ((T.slots.length + 1) * r + 1 + done.length) r d)
    (hr : r < T.rounds) (hnext : next = rest.head?.getD 0) (hne : next ≠ w)
    (hh : Hands d.kernel t w next (T.stateAfter (r + 1)))
    (hreach : (kernel T.bootstrap T.kernelEnd).Reachable ⟨t, T.clients⟩)
    (hx : x = if r + 1 < T.rounds then 0 else 1)
    (hexit : t.exitedTasks = d.kernel.exitedTasks + BitVec.ofNat 64 x)
    (hyield : t.yieldCalls + BitVec.ofNat 64 x = d.kernel.yieldCalls + 1)
    (hpoint : r + 1 < T.rounds → d.worker w = T.point w (r + 1))
    (houtput : d.output = T.start.output ++ (T.text r ++ T.lines r (done ++ [w])))
    (hyields : d.yields = T.start.yields + (r + 1)) :
    After T r (done ++ [w]) rest { d with kernel := t } := by
  have hcount : (done ++ [w]).length = done.length + 1 := List.length_append
  subst hnext
  refine Progress.after ?_ hr ?_ houtput hyields
  · rw [hcount]
    refine h.hands hh hreach hexit hyield ?_ ?_ (fun _ _ => rfl) rfl rfl
    · rw [hx, ← T.exits_succ r done.length hr]
      exact congrArg _ hcount
    · rintro v ⟨⟩
      exact .of_hands hh hne rfl hpoint
  · intro v hv
    exact (h.took_rest v (List.mem_of_mem_head? hv)).point hr

/-- A worker after its last line finds that it has no other round and exits. -/
theorem leads_exit
    (h : Progress T r done (some w) rest ((T.slots.length + 1) * r + 1 + done.length) r d)
    (hr : r < T.rounds) (hlast : ¬ r + 1 < T.rounds) (hpoint : d.worker w = T.point w (r + 1))
    (houtput : d.output = T.start.output ++ (T.text r ++ T.lines r (done ++ [w])))
    (hyields : d.yields = T.start.yields + (r + 1)) :
    Leads T.step (After T r (done ++ [w]) rest) d := by
  refine Leads.of_step fun input => ?_
  have hp := h.useStack input.stack
  have hcur : (useStack input.stack d.kernel).currentTask = w := hp.currentTask
  have hstep := h.step_eq hpoint input
  rw [workerLoop_eq T hp.workers hr w input, if_neg hlast] at hstep
  have hnext := hp.findNextReady_next hr
  obtain ⟨hh, hyield, hexit⟩ :=
    taskExit_hands hp.schedInv hp.currentTask_ne_zero hp.canary hnext input.regs
  have hne := (findNextReady_some hnext).1
  rw [hcur] at hh hne
  refine ⟨_, hstep, Leads.here (hp.turn hr rfl hne ?_ (reachable_taskExit hp.kept.reachable _)
    (if_neg hlast).symm hexit (congrArg (· + 1) hyield) (fun _ => hpoint) houtput hyields)⟩
  rwa [Team.stateAfter, if_neg hlast]

/-- A worker has its turn: it prints its line and yields, or exits after its last line. -/
theorem leads_turn (h : Turn T r done w rest d) : Leads T.step (After T r (done ++ [w]) rest) d := by
  refine Leads.of_step fun input => ?_
  have hstep := h.toProgress.step_eq h.point input
  have hp := (h.toProgress.useStack input.stack).print (T.point w (r + 1))
    (d.output ++ line (T.start.workers (T.which w)).label (r + 1))
  have hcur : (useStack input.stack d.kernel).currentTask = w := hp.currentTask
  rw [workerLoop_eq T (h.toProgress.useStack input.stack).workers (le_of_lt h.lt), if_pos h.lt]
    at hstep
  dsimp only at hstep
  rw [hcur] at hstep
  have hpoint : Function.update d.worker w (T.point w (r + 1)) w = T.point w (r + 1) :=
    Function.update_self _ _ _
  have houtput : d.output ++ line (T.start.workers (T.which w)).label (r + 1) =
      T.start.output ++ (T.text r ++ T.lines r (done ++ [w])) := by
    rw [h.output, T.lines_snoc, List.append_assoc, List.append_assoc]
  by_cases hmore : r + 1 < T.rounds
  · rw [if_pos hmore] at hstep
    have hnext := hp.findNextReady_next h.lt
    obtain ⟨hh, hyield, hexit⟩ := taskYield_hands hp.schedInv hp.canary hnext input.regs
    have hne := (findNextReady_some hnext).1
    rw [hp.currentTask] at hh hne
    refine ⟨_, hstep, Leads.here (hp.turn h.lt rfl hne ?_ (reachable_taskYield hp.kept.reachable _)
      (if_pos hmore).symm (hexit.trans (BitVec.add_zero _).symm) ((BitVec.add_zero _).trans hyield)
      (fun _ => hpoint) houtput h.yields)⟩
    rwa [Team.stateAfter, if_pos hmore]
  · rw [if_neg hmore] at hstep
    exact ⟨_, hstep, leads_exit hp h.lt hmore hpoint houtput h.yields⟩

/-- The rest of a round. -/
theorem leads_turns (h : After T r done rest d) : Leads T.step (Between T (r + 1)) d := by
  induction rest generalizing done d with
  | nil => exact Leads.here h
  | cons w rest ih => exact (leads_turn h).trans fun t ht => ih ht

/-- **All rounds.** -/
theorem leads_rounds (h : Between T 0 d) : Leads T.step (Between T T.rounds) d := by
  refine Leads.loop (fun r hr s hs => ?_) h
  exact (leads_boot hs hr).trans fun t ht => leads_turns ht

end Rounds

/-! ### Reaping -/

/-- **After the last round**: the boot flow has reaped some workers, the others are FINISHED. -/
structure Reaping (T : Team N) (done rest : List (Fin N)) (s : State N) : Prop where
  slots : T.slots = done ++ rest
  reachable : (kernel T.bootstrap T.kernelEnd).Reachable ⟨s, T.clients⟩
  currentTask : s.currentTask = 0
  unused : ∀ w ∈ done, (s.tasks w).state = .unused
  finished : ∀ w ∈ rest, (s.tasks w).state = .finished
  clean : ∀ w ∈ rest, (s.tasks w).stackCorrupted = false
  canary : ∀ w ∈ rest, StackCanaryOk w s
  others : ∀ i, i ≠ 0 → i ∉ T.slots → s.tasks i = T.start.kernel.tasks i
  boot : (s.tasks 0).entry = (T.start.kernel.tasks 0).entry ∧
    (s.tasks 0).argument = (T.start.kernel.tasks 0).argument ∧
    (s.tasks 0).stackPage = (T.start.kernel.tasks 0).stackPage ∧
    (s.tasks 0).stackCorrupted = (T.start.kernel.tasks 0).stackCorrupted
  scheduleCount : (s.tasks 0).scheduleCount =
    (T.start.kernel.tasks 0).scheduleCount + BitVec.ofNat 64 T.rounds
  contextSwitches : s.contextSwitches =
    T.start.kernel.contextSwitches + BitVec.ofNat 64 ((T.slots.length + 1) * T.rounds)
  exitedTasks : s.exitedTasks = T.start.kernel.exitedTasks + BitVec.ofNat 64 T.slots.length
  yieldCalls : s.yieldCalls + BitVec.ofNat 64 T.slots.length =
    T.start.kernel.yieldCalls + BitVec.ofNat 64 ((T.slots.length + 1) * T.rounds)
  createdTasks : s.createdTasks = T.start.kernel.createdTasks
  reapedTasks : s.reapedTasks = T.start.kernel.reapedTasks + BitVec.ofNat 64 done.length
  stackErrors : s.stackErrors = T.start.kernel.stackErrors

namespace Reaping

variable {T : Team N} {done rest : List (Fin N)} {w : Fin N} {d : Demo N} {s : State N}

theorem of_between (h : Between T T.rounds d) : Reaping T [] T.slots d.kernel := by
  have hkept := h.kept
  have hexits : T.exits T.rounds 0 = T.slots.length := by
    rw [Team.exits, if_neg (Nat.not_lt.2 (Nat.le_succ _)), if_neg (lt_irrefl _)]
  rw [List.length_nil, hexits] at hkept
  refine ⟨rfl, hkept.reachable, h.currentTask, fun w hw => absurd hw List.not_mem_nil, ?_,
    hkept.clean, hkept.canary, hkept.others, hkept.boot, hkept.scheduleCount,
    hkept.contextSwitches, hkept.exitedTasks, hkept.yieldCalls, hkept.createdTasks, ?_,
    hkept.stackErrors⟩
  · intro w hw
    rw [(h.took_rest w hw).state, Team.stateAfter, if_neg (lt_irrefl _)]
  · exact hkept.reapedTasks.trans (BitVec.add_zero _).symm

/-- The boot flow reaps the next worker. -/
theorem reap (hN : N ≤ 2 ^ 32) (h : Reaping T done (w :: rest) s) :
    ∃ t, taskReap (taskId w) s = some (true, t) ∧ Reaping T (done ++ [w]) rest t := by
  have hmem : w ∈ T.slots := by
    rw [h.slots]
    exact List.mem_append_right _ List.mem_cons_self
  have hsorted := T.sorted
  rw [h.slots] at hsorted
  obtain ⟨-, hrest, hdone⟩ := List.pairwise_append.1 hsorted
  have hne_done : ∀ v ∈ done, v ≠ w := fun v hv => ne_of_lt (hdone v hv w List.mem_cons_self)
  have hne_rest : ∀ v ∈ rest, v ≠ w := fun v hv => ne_of_gt ((List.pairwise_cons.1 hrest).1 v hv)
  have hin : ∀ v ∈ rest, v ∈ w :: rest := fun v hv => List.mem_cons_of_mem w hv
  obtain ⟨t, hreap, ht⟩ := taskReap_clears h.reachable h.currentTask
    (h.finished w List.mem_cons_self) (h.clean w List.mem_cons_self)
    (h.canary w List.mem_cons_self) (taskId_toNat hN w)
  have hboot : t.tasks 0 = s.tasks 0 := ht.others 0 (T.ne_zero w hmem).symm
  refine ⟨t, hreap, ?_⟩
  exact {
    slots := by rw [h.slots, List.append_assoc]; rfl
    reachable := reachable_taskReap h.reachable hreap
    currentTask := ht.currentTask.trans h.currentTask
    unused := by
      intro v hv
      rcases List.mem_append.1 hv with hv | hv
      · rw [ht.others v (hne_done v hv)]
        exact h.unused v hv
      · rw [List.mem_singleton.1 hv]
        exact ht.state
    finished := fun v hv => by rw [ht.others v (hne_rest v hv), h.finished v (hin v hv)]
    clean := fun v hv => by rw [ht.others v (hne_rest v hv), h.clean v (hin v hv)]
    canary := fun v hv => ht.canaries v (h.canary v (hin v hv))
    others := fun i hi hout => by
      rw [ht.others i fun heq => hout (heq ▸ hmem), h.others i hi hout]
    boot := by rw [hboot]; exact h.boot
    scheduleCount := by rw [hboot, h.scheduleCount]
    contextSwitches := ht.contextSwitches.trans h.contextSwitches
    exitedTasks := ht.exitedTasks.trans h.exitedTasks
    yieldCalls := by rw [ht.yieldCalls, h.yieldCalls]
    createdTasks := ht.createdTasks.trans h.createdTasks
    reapedTasks := by
      rw [ht.reapedTasks, h.reapedTasks, counter_succ, List.length_append, List.length_singleton]
    stackErrors := ht.stackErrors.trans h.stackErrors }

end Reaping

/-! ### The loops of the command -/

section Loops

variable {bootstrap entry base : Word} {input : Input} {d : Demo N} {first second : Fin N}
  {t u : State N}

theorem shellStep_cleanup_ready (hN : N ≤ 2 ^ 32) (h : SchedInv d.kernel)
    (hshell : d.shell = .cleanup first) (hfirst : (d.kernel.tasks first).state = .ready) :
    shellStep bootstrap entry base input d =
      some { d with kernel := taskYield input.regs d.kernel, yields := d.yields + 1 } := by
  rw [shellStep, hshell]
  dsimp only
  rw [taskFinishedState_eq hN h, hfirst]
  rfl

theorem shellStep_cleanup_finished (hN : N ≤ 2 ^ 32) (h : SchedInv d.kernel)
    (hshell : d.shell = .cleanup first) (hfirst : (d.kernel.tasks first).state = .finished)
    (hreap : taskReap (taskId first) d.kernel = some (true, t)) :
    shellStep bootstrap entry base input d = some { d with kernel := t, shell := .returned } := by
  rw [shellStep, hshell]
  dsimp only
  rw [taskFinishedState_eq hN h, hfirst, hreap]
  rfl

theorem shellStep_waiting_ready (hN : N ≤ 2 ^ 32) (h : SchedInv d.kernel)
    (hshell : d.shell = .waiting first second)
    (hfirst : (d.kernel.tasks first).state = .ready) :
    shellStep bootstrap entry base input d =
      some { d with kernel := taskYield input.regs d.kernel, yields := d.yields + 1 } := by
  rw [shellStep, hshell]
  dsimp only
  rw [taskFinishedState_eq hN h, taskFinishedState_eq hN h, hfirst]
  rfl

theorem shellStep_waiting_finished (hN : N ≤ 2 ^ 32) (h : SchedInv d.kernel)
    (hshell : d.shell = .waiting first second)
    (hfirst : (d.kernel.tasks first).state = .finished)
    (hsecond : (d.kernel.tasks second).state = .finished)
    (hreap : taskReap (taskId first) d.kernel = some (true, t))
    (hreap' : taskReap (taskId second) t = some (true, u)) :
    shellStep bootstrap entry base input d =
      some { d.say (bytes "taskdemo: PASS\n") with kernel := u, shell := .returned } := by
  rw [shellStep, hshell]
  dsimp only
  rw [taskFinishedState_eq hN h, taskFinishedState_eq hN h, hfirst, hsecond, hreap,
    Option.bind_eq_bind, Option.bind_some]
  dsimp only
  rw [hreap', Option.bind_some]
  rfl

end Loops

/-! ### From the first round to the end -/

/-- A worker that was just created. -/
structure Fresh (T : Team N) (w : Fin N) : Prop where
  state : (T.start.kernel.tasks w).state = .ready
  point : T.start.worker w = .bootstrap
  entry : (T.start.kernel.tasks w).entry = T.entry
  argument : (T.start.kernel.tasks w).argument = workerAddress T.base (T.which w)
  clean : (T.start.kernel.tasks w).stackCorrupted = false
  canary : StackCanaryOk w T.start.kernel

section Runs

variable (T : Team N)

theorem between_start (hreach : (kernel T.bootstrap T.kernelEnd).Reachable
      ⟨T.start.kernel, T.clients⟩) (hcur : T.start.kernel.currentTask = 0)
    (hfresh : ∀ w ∈ T.slots, Fresh T w) : Between T 0 T.start := by
  have hzero : ∀ x : Word, x = x + BitVec.ofNat 64 0 := fun x => (BitVec.add_zero x).symm
  have hkept : Kept T T.start.kernel ((T.slots.length + 1) * 0) (T.exits 0 0) 0 := by
    rw [T.exits_zero T.rounds_pos]
    exact ⟨hreach, fun w hw => (hfresh w hw).canary, fun w hw => (hfresh w hw).clean,
      fun w hw => (hfresh w hw).entry, fun w hw => (hfresh w hw).argument, fun _ _ _ => rfl,
      ⟨rfl, rfl, rfl, rfl⟩, hzero _, hzero _, hzero _, rfl, rfl, rfl, rfl⟩
  refine ⟨⟨rfl, hcur, hkept, fun w hw => absurd hw List.not_mem_nil, fun w hw => ?_, rfl, rfl⟩,
    (List.append_nil _).symm, rfl⟩
  refine ⟨fun _ => (hfresh w hw).point, ?_⟩
  rw [Team.stateAfter, if_pos T.rounds_pos]
  exact (hfresh w hw).state

/-- The run of a single worker. -/
theorem leads_cleanup (hN : N ≤ 2 ^ 32) (h : Between T 0 T.start) {first : Fin N}
    (hshell : T.start.shell = .cleanup first) (hslots : T.slots = [first]) :
    Leads T.step (fun t => t.shell = .returned ∧ Reaping T T.slots [] t.kernel) T.start := by
  refine (leads_rounds h).trans fun d hd => Leads.of_step fun input => ?_
  have hreaping := Reaping.of_between hd
  have hfirst : first ∈ T.slots := hslots ▸ List.mem_cons_self
  have hfinished := hreaping.finished first hfirst
  rw [hslots] at hreaping
  obtain ⟨t, hreap, ht⟩ := hreaping.reap hN
  have hstep : T.step input d = some { d with kernel := t, shell := .returned } :=
    (demoStep_boot hd.schedInv hd.currentTask).trans
      (shellStep_cleanup_finished hN hd.schedInv (hd.shell.trans hshell) hfinished hreap)
  refine ⟨_, hstep, Leads.here ⟨rfl, ?_⟩⟩
  rw [hslots]
  exact ht

/-- **The run of both workers.** -/
theorem leads_waiting (hN : N ≤ 2 ^ 32) (h : Between T 0 T.start) {first second : Fin N}
    (hshell : T.start.shell = .waiting first second) (hslots : T.slots = [first, second]) :
    Leads T.step (fun t => t.shell = .returned ∧
      t.output = T.start.output ++ T.text T.rounds ++ bytes "taskdemo: PASS\n" ∧
      t.yields = T.start.yields + T.rounds ∧ Reaping T T.slots [] t.kernel) T.start := by
  refine (leads_rounds h).trans fun d hd => Leads.of_step fun input => ?_
  have hreaping := Reaping.of_between hd
  have hfirst : first ∈ T.slots := hslots ▸ List.mem_cons_self
  have hsecond : second ∈ T.slots := hslots ▸ List.mem_cons_of_mem _ List.mem_cons_self
  have hfinished := hreaping.finished first hfirst
  have hfinished' := hreaping.finished second hsecond
  rw [hslots] at hreaping
  obtain ⟨t, hreap, ht⟩ := hreaping.reap hN
  obtain ⟨u, hreap', hu⟩ := ht.reap hN
  have hstep : T.step input d =
      some { d.say (bytes "taskdemo: PASS\n") with kernel := u, shell := .returned } :=
    (demoStep_boot hd.schedInv hd.currentTask).trans (shellStep_waiting_finished hN hd.schedInv
      (hd.shell.trans hshell) hfinished hfinished' hreap hreap')
  refine ⟨_, hstep, Leads.here ⟨rfl, congrArg (· ++ bytes "taskdemo: PASS\n") hd.output,
    hd.yields, ?_⟩⟩
  rw [hslots]
  exact hu

end Runs

end TaskDemo

end MiniOs
