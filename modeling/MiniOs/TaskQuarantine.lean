/-
**A task whose stack overflow was detected is put away for good.**

The canary of a slot is looked at by `task_yield`, `task_exit` and `task_reap`.  The first of them
that finds it changed marks the slot and counts an error; a marked slot is FINISHED, and nothing
changes it any more: it is not dispatched, not filled in again and not reaped, and its page goes
neither back to the allocator nor to anybody else.  A record keeps which slots were ever found with a
changed canary.

Main definitions:

* `Task.Examines`, `Task.Detects` — an operation looks at the canary of a slot, and finds it changed;
* `Task.kernelWithDamaged` — the system with a record of the slots found with a changed canary;
* `Task.PassesToFree` — a call of `task_reap` gets as far as `page_free`.

Main results:

* `Task.step_detects` — **what an operation marks, and what it counts**;
* `Task.step_marked` — no operation changes a marked slot;
* `Task.quarantine` — **detection, quarantine, and what a successful reap says**.
-/

import MiniOs.TaskOwnership

set_option relaxedAutoImplicit false
set_option autoImplicit false

namespace MiniOs

namespace Task

open PageAlloc (pageAlloc pageFree)

variable {N : ℕ} [NeZero N]

/-! ### Examinations -/

/-- The operation looks at the canary of the slot. -/
def Examines (s : State N) : Op N → Fin N → Prop
  | .yield _, i => i = s.currentTask
  | .exit _, i => i = s.currentTask
  | .reap id, i => id.toNat = i ∧ s.currentTask = 0 ∧ i ≠ s.currentTask ∧
      (s.tasks i).state = .finished ∧ (s.tasks i).stackPage ≠ null
  | _, _ => False

instance (s : State N) : ∀ op : Op N, DecidablePred (Examines s op)
  | .yield _ => fun i => inferInstanceAs (Decidable (i = s.currentTask))
  | .exit _ => fun i => inferInstanceAs (Decidable (i = s.currentTask))
  | .reap id => fun i => inferInstanceAs (Decidable (id.toNat = i ∧ s.currentTask = 0 ∧
      i ≠ s.currentTask ∧ (s.tasks i).state = .finished ∧ (s.tasks i).stackPage ≠ null))
  | .create _ _ => fun _ => inferInstanceAs (Decidable False)
  | .reapFinished => fun _ => inferInstanceAs (Decidable False)
  | .client _ => fun _ => inferInstanceAs (Decidable False)
  | .writeStack _ _ => fun _ => inferInstanceAs (Decidable False)

/-- The operation finds the canary of the slot changed, for the first time. -/
def Detects (s : State N) (op : Op N) (i : Fin N) : Prop :=
  Examines s op i ∧ ¬ StackCanaryOk i s ∧ (s.tasks i).stackCorrupted = false

/-- The slots that were ever found with a changed canary, after one more examination. -/
def examine (damaged : Fin N → Bool) (s : State N) (op : Op N) (i : Fin N) : Bool :=
  damaged i || decide (Examines s op i ∧ ¬ StackCanaryOk i s)

/-- The loop of `task_reap_finished`, as far as it looks at canaries. -/
def examineSlots : List ℕ → (Fin N → Bool) → State N → Fin N → Bool
  | [], damaged, _ => damaged
  | id :: ids, damaged, s =>
      match taskReap (BitVec.ofNat 32 id) s with
      | none => damaged
      | some (_, t) => examineSlots ids (examine damaged s (.reap (BitVec.ofNat 32 id))) t

/-- The slots that were ever found with a changed canary, after an operation. -/
def recordDamaged (damaged : Fin N → Bool) (s : Sys N) (op : Op N) (_ : Sys N) : Fin N → Bool :=
  match op with
  | .reapFinished => examineSlots (List.range' 1 (N - 1)) damaged s.kernel
  | op => examine damaged s.kernel op

/-- The system with a record of the slots that were ever found with a changed canary. -/
def kernelWithDamaged (bootstrap kernelEnd : Word) : Lts (Sys N × (Fin N → Bool)) (Op N) :=
  (kernel bootstrap kernelEnd).withHistory (fun _ => false) recordDamaged

/-- The call `task_reap(id)` gets as far as `page_free`, and passes this page to it. -/
def PassesToFree (s : State N) (id : BitVec 32) (page : Word) : Prop :=
  ∃ i, Examines s (.reap id) i ∧ ((recordStackError i s).tasks i).stackCorrupted = false ∧
    (s.tasks i).stackPage = page

/-! ### What an examination does -/

omit [NeZero N] in
theorem recordStackError_stackErrors (i : Fin N) (s : State N) :
    (recordStackError i s).stackErrors =
      if (s.tasks i).stackCorrupted = false ∧ ¬ StackCanaryOk i s then s.stackErrors + 1
      else s.stackErrors := by
  unfold recordStackError
  split
  · rfl
  · rfl

variable {s t : State N} {i : Fin N} {id : BitVec 32} {reaped : Bool}

/-- What `task_reap` does to a slot it looks at. -/
theorem taskReap_of_examines (h : SchedInv s) (hex : Examines s (.reap id) i) :
    taskReap id s = if ((recordStackError i s).tasks i).stackCorrupted
      then some (false, recordStackError i s) else reapSlot i (recordStackError i s) := by
  obtain ⟨hid, hcur, hne, hst, hpage⟩ := hex
  have hlt : id.toNat < N := hid ▸ i.isLt
  obtain rfl : (⟨id.toNat, hlt⟩ : Fin N) = i := Fin.ext hid
  rw [taskReap, dif_pos hlt]
  have hguard : ¬ (s.initialized = false ∨ s.currentTask ≠ 0 ∨
      (⟨id.toNat, hlt⟩ : Fin N) = s.currentTask) := by
    simp only [not_or, not_not]
    exact ⟨by simp [h.initialized], hcur, hne⟩
  dsimp only
  rw [if_neg hguard, if_neg (by simp [hst, hpage])]

/-- `task_reap` that looks at no slot does nothing. -/
theorem taskReap_of_not_examines (hex : ∀ i, ¬ Examines s (.reap id) i) :
    taskReap id s = some (false, s) := by
  rw [taskReap]
  split
  · next hlt =>
      dsimp only
      split
      · rfl
      · next hguard =>
          simp only [not_or, not_not] at hguard
          rw [if_pos]
          by_contra hslot
          simp only [not_or, not_not] at hslot
          exact hex ⟨id.toNat, hlt⟩ ⟨rfl, hguard.2.1, hguard.2.2, hslot.1, hslot.2⟩
  · rfl

/-- What an operation marks and counts: a slot is marked when its canary is found changed, and an
error is counted when the slot was not marked before. -/
structure Marks (s : State N) (op : Op N) (t : State N) : Prop where
  corrupted : ∀ i, (t.tasks i).stackCorrupted =
    ((s.tasks i).stackCorrupted || decide (Examines s op i ∧ ¬ StackCanaryOk i s))
  counted : (∃ i, Detects s op i) → t.stackErrors = s.stackErrors + 1
  uncounted : (¬ ∃ i, Detects s op i) → t.stackErrors = s.stackErrors

variable {op : Op N}

/-- An operation that looks at one slot records its error. -/
theorem Marks.of_record (hex : ∀ j, Examines s op j ↔ j = i)
    (hflags : ∀ j, (t.tasks j).stackCorrupted = ((recordStackError i s).tasks j).stackCorrupted)
    (herrors : t.stackErrors = (recordStackError i s).stackErrors) : Marks s op t := by
  rw [recordStackError_stackErrors] at herrors
  refine ⟨?_, ?_, ?_⟩
  · intro j
    rw [hflags, recordStackError_tasks]
    refine congrArg (fun found => (s.tasks j).stackCorrupted || found) (decide_eq_decide.2 ?_)
    rw [hex]
    constructor
    · rintro ⟨rfl, hbad⟩
      exact ⟨rfl, hbad⟩
    · rintro ⟨rfl, hbad⟩
      exact ⟨rfl, hbad⟩
  · rintro ⟨j, hj, hbad, hclean⟩
    obtain rfl := (hex j).1 hj
    rw [herrors, if_pos ⟨hclean, hbad⟩]
  · intro hnone
    rw [herrors, if_neg]
    rintro ⟨hclean, hbad⟩
    exact hnone ⟨i, (hex i).2 rfl, hbad, hclean⟩

/-- An operation that looks at no slot marks and counts nothing. -/
theorem Marks.of_same (hex : ∀ i, ¬ Examines s op i)
    (hflags : ∀ i, (t.tasks i).stackCorrupted = (s.tasks i).stackCorrupted)
    (herrors : t.stackErrors = s.stackErrors) : Marks s op t := by
  refine ⟨?_, ?_, fun _ => herrors⟩
  · intro i
    rw [hflags, decide_eq_false fun hbad => hex i hbad.1, Bool.or_false]
  · rintro ⟨i, hi, -⟩
    exact absurd hi (hex i)

/-- The call `task_reap(id)` looks at one slot at most. -/
theorem examines_reap_iff (hex : Examines s (.reap id) i) (j : Fin N) :
    Examines s (.reap id) j ↔ j = i := by
  constructor
  · intro hj
    exact Fin.ext (hj.1.symm.trans hex.1)
  · rintro rfl
    exact hex

omit [NeZero N] in
/-- A slot that is not marked after its canary was looked at was not marked before, and its canary is in
place. -/
theorem canaryOk_of_clean (hclean : ((recordStackError i s).tasks i).stackCorrupted = false) :
    (s.tasks i).stackCorrupted = false ∧ StackCanaryOk i s := by
  rw [recordStackError_tasks] at hclean
  obtain ⟨hflag, hok⟩ := Bool.or_eq_false_iff.1 hclean
  exact ⟨hflag, by_contra fun hbad => of_decide_eq_false hok ⟨rfl, hbad⟩⟩

theorem marks_taskReap (h : SchedInv s) (hreap : taskReap id s = some (reaped, t)) :
    Marks s (.reap id) t := by
  by_cases hex : ∃ i, Examines s (.reap id) i
  · obtain ⟨i, hi⟩ := hex
    rw [taskReap_of_examines h hi] at hreap
    cases hmark : ((recordStackError i s).tasks i).stackCorrupted with
    | true =>
        rw [if_pos hmark] at hreap
        obtain ⟨-, rfl⟩ := Prod.mk.inj (Option.some_inj.1 hreap)
        exact Marks.of_record (examines_reap_iff hi) (fun _ => rfl) rfl
    | false =>
        obtain ⟨hflag, hok⟩ := canaryOk_of_clean hmark
        rw [if_neg (by simp [hmark]), recordStackError_of_ok hok] at hreap
        obtain ⟨alloc, -, rfl⟩ := reapSlot_cases hreap
        refine Marks.of_record (examines_reap_iff hi) (fun j => ?_) ?_
        · rw [recordStackError_of_ok hok]
          cases reaped with
          | false => rfl
          | true =>
              rcases eq_or_ne j i with rfl | hj
              · simp [emptySlot, State.setSlot, clearSlot, hflag]
              · simp [emptySlot, State.setSlot, hj]
        · rw [recordStackError_of_ok hok]
          cases reaped with
          | false => rfl
          | true => rfl
  · rw [not_exists] at hex
    rw [taskReap_of_not_examines hex] at hreap
    obtain ⟨-, rfl⟩ := Prod.mk.inj (Option.some_inj.1 hreap)
    exact Marks.of_same hex (fun _ => rfl) rfl

/-- Whoever yields or exits for a while has its canary in place. -/
theorem canaryOk_of_not_exits (h : SchedInv s) {regs : Cpu} (hregs : op.regs = some regs)
    (hnot : ¬ Exits s op) : StackCanaryOk s.currentTask s := by
  rcases Op.eq_of_regs hregs with rfl | rfl
  · by_contra hbad
    exact hnot (h.forced_iff.2 hbad)
  · have hcur : s.currentTask = 0 := not_not.1 hnot
    rw [hcur]
    exact Or.inl h.bootPage

theorem marks_leave (h : SchedInv s) {regs : Cpu} (hregs : op.regs = some regs)
    (hl : Leave regs s (Exits s op) t) : Marks s op t := by
  have hex (j : Fin N) : Examines s op j ↔ j = s.currentTask := by
    rcases Op.eq_of_regs hregs with rfl | rfl
    · exact Iff.rfl
    · exact Iff.rfl
  cases hl with
  | stay hnot _ =>
      have hok := canaryOk_of_not_exits h hregs hnot
      exact Marks.of_record hex (fun j => by rw [recordStackError_of_ok hok])
        (by rw [recordStackError_of_ok hok])
  | suspend hnot _ =>
      have hok := canaryOk_of_not_exits h hregs hnot
      refine Marks.of_record hex (fun j => ?_) ?_
      · rw [recordStackError_of_ok hok, dispatch_stackCorrupted]
        rcases eq_or_ne j s.currentTask with rfl | hj
        · simp [suspend, State.setSlot]
        · simp [suspend, State.setSlot, hj]
      · rw [recordStackError_of_ok hok]
        rfl
  | finish _ _ _ _ _ =>
      refine Marks.of_record hex (fun j => ?_) rfl
      rw [dispatch_stackCorrupted]
      rcases eq_or_ne j s.currentTask with rfl | hj
      · simp [retire, State.setSlot]
      · simp [retire, State.setSlot, hj]

/-- **What an operation marks, and what it counts**; `task_reap_finished` is a run of reaps. -/
theorem step_detects {bootstrap : Word} {s t : Sys N} {op : Op N} (h : SchedInv s.kernel)
    (hstep : Step bootstrap s op t) (hop : op ≠ .reapFinished) : Marks s.kernel op t.kernel := by
  cases hregs : op.regs with
  | some regs => exact marks_leave h hregs (step_leave h hstep hregs).2
  | none =>
      cases hstep with
      | @create entry argument result t hcreate =>
          have hexamines : ∀ i, ¬ Examines s.kernel (.create entry argument) i := fun _ => not_false
          have hsame := Marks.of_same (t := t) hexamines
          rcases taskCreate_cases hcreate with
            ⟨-, rfl⟩ | ⟨alloc, -, -, rfl⟩ | ⟨i, stackPage, alloc, hi, -, -, -, rfl⟩
          · exact hsame (fun _ => rfl) rfl
          · exact hsame (fun _ => rfl) rfl
          · obtain ⟨-, hst⟩ := findUnused_some hi
            refine hsame (fun j => ?_) rfl
            rcases eq_or_ne j i with rfl | hj
            · have hclean := h.clean_of_ne_finished (i := j) (by simp [hst])
              simp [fillSlot, State.setSlot, newSlot, clearSlot, hclean]
            · simp [fillSlot, State.setSlot, hj]
      | yield _ => exact absurd hregs (by simp [Op.regs])
      | exit _ => exact absurd hregs (by simp [Op.regs])
      | reap hreap => exact marks_taskReap h hreap
      | reapFinished _ => exact absurd rfl hop
      | client _ _ => exact Marks.of_same (fun _ => not_false) (fun _ => rfl) rfl
      | writeStack _ _ => exact Marks.of_same (fun _ => not_false) (fun _ => rfl) rfl

/-! ### The record of what was found -/

/-- The record says which slots are marked. -/
def DamagedInv (s : State N) (damaged : Fin N → Bool) : Prop :=
  ∀ i, damaged i = (s.tasks i).stackCorrupted

theorem Marks.damagedInv {damaged : Fin N → Bool} (hm : Marks s op t)
    (hd : DamagedInv s damaged) : DamagedInv t (examine damaged s op) := by
  intro i
  rw [examine, hd i, hm.corrupted i]

theorem damagedInv_reapSlots {damaged : Fin N → Bool} {ids : List ℕ} {count total : ℕ}
    (h : SchedInv s) (hd : DamagedInv s damaged) (hreap : reapSlots ids count s = some (total, t)) :
    DamagedInv t (examineSlots ids damaged s) := by
  induction ids generalizing damaged count s with
  | nil =>
      obtain ⟨-, rfl⟩ := Prod.mk.inj (Option.some_inj.1 hreap)
      exact hd
  | cons id ids ih =>
      rw [reapSlots] at hreap
      rw [examineSlots]
      cases hid : taskReap (BitVec.ofNat 32 id) s with
      | none =>
          rw [hid] at hreap
          exact absurd hreap (by simp)
      | some r =>
          obtain ⟨reaped, u⟩ := r
          rw [hid] at hreap
          exact ih (h.inv_taskReap hid) ((marks_taskReap h hid).damagedInv hd) hreap

theorem damagedInv_step {bootstrap : Word} {s t : Sys N} {op : Op N} {damaged : Fin N → Bool}
    (h : SchedInv s.kernel) (hd : DamagedInv s.kernel damaged) (hstep : Step bootstrap s op t) :
    DamagedInv t.kernel (recordDamaged damaged s op t) := by
  by_cases hop : op = .reapFinished
  · subst hop
    cases hstep with
    | reapFinished hreap =>
        rw [taskReapFinished, if_neg (by simp [h.initialized])] at hreap
        exact damagedInv_reapSlots h hd hreap
  · have hrecord : recordDamaged damaged s op t = examine damaged s.kernel op := by
      cases op with
      | reapFinished => exact absurd rfl hop
      | _ => rfl
    rw [hrecord]
    exact (step_detects h hstep hop).damagedInv hd

/-- The record says which slots are marked, in every reachable state. -/
theorem reachable_damagedInv {bootstrap kernelEnd : Word} {p : Sys N × (Fin N → Bool)}
    (h : (kernelWithDamaged bootstrap kernelEnd).Reachable p) : DamagedInv p.1.kernel p.2 := by
  refine Lts.Reachable.history_invariant (P := fun s damaged => DamagedInv s.kernel damaged) ?_ ?_ h
  · rintro _ ⟨mem, cpu, rfl⟩ i
    rcases eq_or_ne i 0 with rfl | hi
    · rfl
    · simp [taskInit, State.boot, clearSlot, hi]
  · intro s damaged op t hr hs hstep
    exact damagedInv_step (reachable_schedInv hr) hs hstep

/-! ### Quarantine -/

/-- A reap leaves a marked slot alone. -/
theorem taskReap_marked (h : SchedInv s) (hmark : (s.tasks i).stackCorrupted = true)
    (hreap : taskReap id s = some (reaped, t)) : t.tasks i = s.tasks i := by
  rcases taskReap_cases hreap with ⟨-, rfl⟩ | ⟨j, -, -, ⟨-, -, rfl⟩ | ⟨-, hclean, hslot⟩⟩
  · rfl
  · rw [recordStackError_tasks, hmark, Bool.true_or, ← hmark]
  · -- the slot whose stack is given back is not marked
    have hij : i ≠ j := by
      rintro rfl
      rw [hmark] at hclean
      exact absurd hclean (by simp)
    obtain ⟨alloc, -, rfl⟩ := reapSlot_cases hslot
    cases reaped with
    | false => rfl
    | true => exact Function.update_of_ne hij _ _

/-- **No operation changes a marked slot.** -/
theorem step_marked {bootstrap : Word} {s t : Sys N} {op : Op N} (h : SchedInv s.kernel)
    (hstep : Step bootstrap s op t) (hmark : (s.kernel.tasks i).stackCorrupted = true) :
    t.kernel.tasks i = s.kernel.tasks i := by
  have hfin := h.corrupted i hmark
  cases hregs : op.regs with
  | some regs =>
      -- the slot neither runs nor is READY, so it neither loses nor gets the CPU
      have hleave := (step_leave h hstep hregs).2
      have hcur : i ≠ s.kernel.currentTask := h.ne_current (by simp [hfin])
      refine h.leave_others hleave hcur ?_
      intro hnext
      have hready := h.leave_next hleave (by rw [← hnext]; exact hcur)
      rw [← hnext, hfin] at hready
      exact absurd hready (by simp)
  | none =>
      cases hstep with
      | @create entry argument result t hcreate =>
          rcases taskCreate_cases hcreate with
            ⟨-, rfl⟩ | ⟨alloc, -, -, rfl⟩ | ⟨j, stackPage, alloc, hj, -, -, -, rfl⟩
          · rfl
          · rfl
          · have hij : i ≠ j := by
              rintro rfl
              rw [(findUnused_some hj).2] at hfin
              exact absurd hfin (by simp)
            exact Function.update_of_ne hij _ _
      | yield _ => exact absurd hregs (by simp [Op.regs])
      | exit _ => exact absurd hregs (by simp [Op.regs])
      | reap hreap => exact taskReap_marked h hmark hreap
      | @reapFinished count t hreap =>
          have hkeep := taskReapFinished_invariant
            (P := fun u => SchedInv u ∧ u.tasks i = s.kernel.tasks i)
            (fun _ _ _ _ hu hid => ⟨hu.1.inv_taskReap hid,
              (taskReap_marked hu.1 (by rw [hu.2]; exact hmark) hid).trans hu.2⟩)
            ⟨h, rfl⟩ hreap
          exact hkeep.2
      | client _ _ => rfl
      | writeStack _ _ => rfl

/-- What follows a state leaves the slots alone that are marked in it. -/
theorem after_marked {bootstrap kernelEnd : Word} {s t : Sys N}
    (h : (kernel bootstrap kernelEnd).Reachable s)
    (hmark : (s.kernel.tasks i).stackCorrupted = true)
    (ht : ((kernel bootstrap kernelEnd).after s).Reachable t) :
    t.kernel.tasks i = s.kernel.tasks i := by
  have hkeep : (kernel bootstrap kernelEnd).Reachable t ∧
      t.kernel.tasks i = s.kernel.tasks i := by
    refine ht.invariant (P := fun t => (kernel bootstrap kernelEnd).Reachable t ∧
      t.kernel.tasks i = s.kernel.tasks i) ?_ ?_
    · rintro _ rfl
      exact ⟨h, rfl⟩
    · intro u op v _ hu hstep
      refine ⟨hu.1.step hstep, ?_⟩
      rw [step_marked (reachable_schedInv hu.1) hstep (by rw [hu.2]; exact hmark), hu.2]
  exact hkeep.2

/-- A marked slot is not picked by `task_create`. -/
theorem taskCreate_ne_marked (h : SchedInv s) (hmark : (s.tasks i).stackCorrupted = true)
    (bootstrap entry argument : Word) : (taskCreate bootstrap entry argument s).1 ≠ some i := by
  obtain ⟨result, t, hcreate⟩ : ∃ result t, taskCreate bootstrap entry argument s = (result, t) :=
    ⟨_, _, rfl⟩
  rw [hcreate]
  rcases taskCreate_cases hcreate with
    ⟨rfl, -⟩ | ⟨alloc, -, rfl, -⟩ | ⟨j, stackPage, alloc, hj, -, -, rfl, -⟩
  · nofun
  · nofun
  · intro hij
    obtain rfl := Option.some_inj.1 hij
    have hst := h.corrupted j hmark
    rw [(findUnused_some hj).2] at hst
    exact absurd hst (by simp)

/-- A reap of a marked slot returns 0 and does nothing. -/
theorem taskReap_eq_of_marked (h : SchedInv s) (hmark : (s.tasks i).stackCorrupted = true)
    (hid : id.toNat = i) : taskReap id s = some (false, s) := by
  by_cases hex : Examines s (.reap id) i
  · rw [taskReap_of_examines h hex, recordStackError_of_corrupted hmark, if_pos hmark]
  · refine taskReap_of_not_examines fun j hj => hex ?_
    obtain rfl : j = i := Fin.ext (hj.1.symm.trans hid)
    exact hj

/-- A reap that succeeds **found the canary in place**, in a slot that was FINISHED and not marked. -/
theorem taskReap_success (h : SchedInv s) (hreap : taskReap id s = some (true, t)) :
    ∃ i, Examines s (.reap id) i ∧ StackCanaryOk i s ∧ (s.tasks i).stackCorrupted = false := by
  by_contra hnone
  have hfail : taskReap id s = some (false, s) ∨
      ∃ i, taskReap id s = some (false, recordStackError i s) := by
    by_cases hex : ∃ i, Examines s (.reap id) i
    · obtain ⟨i, hi⟩ := hex
      refine Or.inr ⟨i, ?_⟩
      rw [taskReap_of_examines h hi, if_pos]
      by_contra hclean
      obtain ⟨hflag, hok⟩ := canaryOk_of_clean (Bool.eq_false_iff.2 hclean)
      exact hnone ⟨i, hi, hok, hflag⟩
    · exact Or.inl (taskReap_of_not_examines (not_exists.1 hex))
  rcases hfail with heq | ⟨i, heq⟩
  · exact absurd (Prod.mk.inj (Option.some_inj.1 (heq.symm.trans hreap))).1 (by simp)
  · exact absurd (Prod.mk.inj (Option.some_inj.1 (heq.symm.trans hreap))).1 (by simp)

/-- **A slot is put away for good, with its stack page**: it is FINISHED and does not run, the next
operations neither fill it in nor reap it, and its page is neither held by another client nor handed
to anybody nor given back. -/
structure Quarantined (bootstrap : Word) (i : Fin N) (page : Word) (s : Sys N) : Prop where
  state : (s.kernel.tasks i).state = .finished
  idle : s.kernel.currentTask ≠ i
  unpicked : ∀ entry argument, (taskCreate bootstrap entry argument s.kernel).1 ≠ some i
  unreaped : ∀ id : BitVec 32, id.toNat = i → taskReap id s.kernel = some (false, s.kernel)
  unheld : page ∉ s.clients
  unallocated : (pageAlloc s.kernel.alloc).1 ≠ page
  unfreed : ∀ id page', PassesToFree s.kernel id page' → page' ≠ page

/-- A marked slot is put away. -/
theorem quarantined_of_marked {bootstrap kernelEnd : Word} {s : Sys N}
    (h : (kernel bootstrap kernelEnd).Reachable s)
    (hmark : (s.kernel.tasks i).stackCorrupted = true) :
    Quarantined bootstrap i (s.kernel.tasks i).stackPage s := by
  have hinv := reachable_schedInv h
  obtain ⟨out, hown⟩ := reachable_owns h
  have hfin := hinv.corrupted i hmark
  have hpage := hinv.stackPage_of_finished hfin
  refine ⟨hfin, (hinv.ne_current (by simp [hfin])).symm, taskCreate_ne_marked hinv hmark bootstrap,
    fun _ => taskReap_eq_of_marked hinv hmark, hown.disjoint i hpage, hown.pageAlloc_ne hpage, ?_⟩
  -- what a reap gives back is the page of a slot that is not marked
  rintro id page' ⟨j, -, hclean, rfl⟩ heq
  obtain rfl := hown.distinct i j hpage heq.symm
  rw [(canaryOk_of_clean hclean).1] at hmark
  exact absurd hmark (by simp)

/-! ### Reaping all finished slots -/

/-- One call of `task_reap` on the slots `ids` stands for after the other. -/
theorem reapSlots_reaps {bootstrap : Word} {clients : Finset Word} {ids : List ℕ}
    {count total : ℕ} (hreap : reapSlots ids count s = some (total, t)) :
    Relation.ReflTransGen (fun u v => ∃ id, Step bootstrap u (Op.reap id) v)
      ⟨s, clients⟩ ⟨t, clients⟩ := by
  induction ids generalizing count s with
  | nil =>
      obtain ⟨-, rfl⟩ := Prod.mk.inj (Option.some_inj.1 hreap)
      exact Relation.ReflTransGen.refl
  | cons id ids ih =>
      rw [reapSlots] at hreap
      cases hid : taskReap (BitVec.ofNat 32 id) s with
      | none =>
          rw [hid] at hreap
          exact absurd hreap (by simp)
      | some r =>
          obtain ⟨reaped, u⟩ := r
          rw [hid] at hreap
          have hstep : Step bootstrap ⟨s, clients⟩ (Op.reap (BitVec.ofNat 32 id)) ⟨u, clients⟩ :=
            Step.reap hid
          exact (ih hreap).head ⟨_, hstep⟩

/-- `task_reap_finished` **is a sequence of reaps**. -/
theorem step_reapFinished {bootstrap : Word} {s t : Sys N}
    (hstep : Step bootstrap s Op.reapFinished t) :
    Relation.ReflTransGen (fun u v => ∃ id, Step bootstrap u (Op.reap id) v) s t := by
  cases hstep with
  | reapFinished hreap =>
      unfold taskReapFinished at hreap
      split at hreap
      · obtain ⟨-, rfl⟩ := Prod.mk.inj (Option.some_inj.1 hreap)
        exact Relation.ReflTransGen.refl
      · exact reapSlots_reaps hreap

/-! ### Detection and quarantine -/

/-- **Detection and quarantine.**  In every state the tasks and the clients can reach, whoever
overwrites the canaries, the marked slots are those that were ever found with a changed canary.  The
operation that finds a canary changed marks the slot, and an error is counted exactly if the slot was
not marked before; if this is a yield of a task other than the boot flow, the slot is FINISHED after
it and another one runs.  A marked slot is put away, and stays as it is, in every later state.
A successful reap found a FINISHED slot whose canary is in place and never was found changed.
`task_reap_finished` is a sequence of reaps, so that all this holds of each of them. -/
theorem quarantine {bootstrap kernelEnd : Word} {s : Sys N} {damaged : Fin N → Bool}
    (h : (kernelWithDamaged bootstrap kernelEnd).Reachable (s, damaged)) :
    (∀ i, damaged i = (s.kernel.tasks i).stackCorrupted) ∧
    (∀ op t, Step bootstrap s op t → op ≠ .reapFinished → Marks s.kernel op t.kernel) ∧
    (∀ regs t, Step bootstrap s (.yield regs) t → s.kernel.currentTask ≠ 0 →
      ¬ StackCanaryOk s.kernel.currentTask s.kernel →
      (t.kernel.tasks s.kernel.currentTask).stackCorrupted = true ∧
        (t.kernel.tasks s.kernel.currentTask).state = .finished ∧
        t.kernel.currentTask ≠ s.kernel.currentTask) ∧
    (∀ i, (s.kernel.tasks i).stackCorrupted = true →
      ∀ t, ((kernel bootstrap kernelEnd).after s).Reachable t →
        t.kernel.tasks i = s.kernel.tasks i ∧
          Quarantined bootstrap i (s.kernel.tasks i).stackPage t) ∧
    (∀ id t, taskReap id s.kernel = some (true, t) →
      ∃ i : Fin N, id.toNat = i ∧ (s.kernel.tasks i).state = .finished ∧
        StackCanaryOk i s.kernel ∧ damaged i = false) ∧
    ∀ t, Step bootstrap s .reapFinished t →
      Relation.ReflTransGen (fun u v => ∃ id, Step bootstrap u (.reap id) v) s t := by
  have hinv := reachable_schedInv h.fst
  have hdamaged := reachable_damagedInv h
  refine ⟨hdamaged, fun op t => step_detects hinv, ?_, ?_, ?_, fun t => step_reapFinished⟩
  · intro regs t hstep hcur hbad
    obtain ⟨next, -, hne, -, hnext, hfin⟩ := step_exits hinv hstep ⟨hcur, hbad⟩
    refine ⟨?_, hfin, hnext ▸ hne⟩
    rw [(step_detects hinv hstep (by simp)).corrupted,
      decide_eq_true (p := Examines s.kernel (.yield regs) _ ∧ _) ⟨rfl, hbad⟩, Bool.or_true]
  · intro i hmark t ht
    have hkeep := after_marked h.fst hmark ht
    refine ⟨hkeep, ?_⟩
    rw [← hkeep]
    exact quarantined_of_marked (h.fst.of_after ht) (by rw [hkeep]; exact hmark)
  · intro id t hreap
    obtain ⟨i, hex, hok, hclean⟩ := taskReap_success hinv hreap
    exact ⟨i, hex.1, hex.2.2.2.1, hok, (hdamaged i).trans hclean⟩

/-- The task that runs first, after its stack was overwritten with zeros. -/
def overflowRun : State taskMaxCount :=
  { firstRun with
    alloc := { firstRun.alloc with
      mem := PageAlloc.writePage (firstRun.tasks 1).stackPage (fun _ => 0) firstRun.alloc.mem } }

theorem step_overflowRun : Step 0x40080000#64 ⟨firstRun, ∅⟩ (Op.writeStack 1 fun _ => 0)
    ⟨overflowRun, ∅⟩ := Step.writeStack (fun _ => 0) (by decide)

theorem not_canaryOk_overflowRun : ¬ StackCanaryOk 1 overflowRun := by
  rintro (hnull | hmem)
  · exact absurd hnull (by decide)
  · have hzero : overflowRun.alloc.mem (overflowRun.tasks 1).stackPage = 0 :=
      PageAlloc.writePage_self (firstRun.tasks 1).stackPage (fun _ => 0) firstRun.alloc.mem
    rw [hzero] at hmem
    exact absurd hmem (by decide)

/-- The task whose stack was overwritten is finished by its next yield, and not reaped later. -/
theorem quarantine_overflow : ((taskYield zeroCpu overflowRun).tasks 1).state = .finished ∧
    taskReap 1 (taskYield zeroCpu overflowRun) = some (false, taskYield zeroCpu overflowRun) := by
  have hrun := reachable_firstRun.step step_overflowRun
  obtain ⟨before, hbefore⟩ : ∃ damaged, (kernelWithDamaged 0x40080000#64 0x40100000#64).Reachable
      (⟨overflowRun, ∅⟩, damaged) := hrun.exists_history
  have hyield : Step 0x40080000#64 ⟨overflowRun, ∅⟩ (Op.yield zeroCpu)
      ⟨taskYield zeroCpu overflowRun, ∅⟩ := Step.yield zeroCpu
  obtain ⟨hmark, hfin, -⟩ := (quarantine hbefore).2.2.1 zeroCpu _ hyield
    (show (1 : Fin taskMaxCount) ≠ 0 by decide) not_canaryOk_overflowRun
  obtain ⟨damaged, hafter⟩ : ∃ damaged, (kernelWithDamaged 0x40080000#64 0x40100000#64).Reachable
      (⟨taskYield zeroCpu overflowRun, ∅⟩, damaged) := (hrun.step hyield).exists_history
  exact ⟨hfin, ((quarantine hafter).2.2.2.1 1 hmark _ (Lts.Reachable.init rfl)).2.unreaped 1 rfl⟩

end Task

end MiniOs
