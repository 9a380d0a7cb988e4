/-
**Who owns the stack pages.**

The scheduler is a client of the page allocator like any other: the pages it holds are the stacks
of the tasks that were created and not reaped yet.  Seen from the allocator, every run of the
scheduler and the other clients is a run of `MiniOs/PageOwnership.lean`, in which the outstanding
pages are those of the other clients and the stacks.  A task's canary and the link of the free list
are the same word of memory, so this is also why a canary that nobody overwrites stays in place;
whether somebody did is recorded beside the state of the code.

Main definitions:

* `Task.Live`, `Task.stackPages` — the slots in use after the first, and their stack pages;
* `Task.Owns` — **the allocator and the scheduler agree about every page**;
* `Task.kernelWithTouched` — the system with a record of the slots whose canary was overwritten.

Main results:

* `Task.Owns.setPage` — the agreement survives that one slot gets or loses its page;
* `Task.owns_step` — every step keeps the agreement;
* `Task.stack_ownership` — **stack pages belong to one task each, and a canary that nobody
  overwrites stays in place**.
-/

import MiniOs.TaskRun

set_option relaxedAutoImplicit false
set_option autoImplicit false

namespace MiniOs

namespace Task

open NullChain
open PageAlloc (pageAlloc pageFree pageAllocInit writePage zeroPage release Managed)

variable {N : ℕ}

/-! ### Agreement between scheduler and allocator -/

/-- **The allocator and the scheduler agree**: in a run of the allocator the outstanding pages are
`out`, and these are the pages of the other clients and the stacks, no page being held twice. -/
structure Owns (kernelEnd : Word) (s : Sys N) (out : Finset Word) : Prop where
  reachable : (PageAlloc.clients kernelEnd).Reachable ⟨s.kernel.alloc, out⟩
  mem_out : ∀ p, p ∈ out ↔ p ∈ s.clients ∨ p ≠ null ∧ ∃ i, (s.kernel.tasks i).stackPage = p
  disjoint : ∀ i, (s.kernel.tasks i).stackPage ≠ null →
    (s.kernel.tasks i).stackPage ∉ s.clients
  distinct : ∀ i j, (s.kernel.tasks i).stackPage ≠ null →
    (s.kernel.tasks i).stackPage = (s.kernel.tasks j).stackPage → i = j

namespace Owns

variable {kernelEnd : Word} {s t : Sys N} {out : Finset Word}

/-- A stack page is outstanding. -/
theorem stackPage_mem (h : Owns kernelEnd s out) {i : Fin N}
    (hi : (s.kernel.tasks i).stackPage ≠ null) : (s.kernel.tasks i).stackPage ∈ out :=
  (h.mem_out _).2 (Or.inr ⟨hi, i, rfl⟩)

/-- A page of another client is outstanding. -/
theorem client_mem (h : Owns kernelEnd s out) {p : Word} (hp : p ∈ s.clients) : p ∈ out :=
  (h.mem_out p).2 (Or.inl hp)

/-- No stack page is allocated again. -/
theorem pageAlloc_ne (h : Owns kernelEnd s out) {i : Fin N}
    (hi : (s.kernel.tasks i).stackPage ≠ null) :
    (pageAlloc s.kernel.alloc).1 ≠ (s.kernel.tasks i).stackPage := by
  -- what is allocated next was not outstanding
  intro heq
  have hne : (pageAlloc s.kernel.alloc).1 ≠ null := heq ▸ hi
  obtain ⟨hfresh, -, -⟩ := PageAlloc.reachable_alloc h.reachable
    (p := (pageAlloc s.kernel.alloc).1) (t := (pageAlloc s.kernel.alloc).2) rfl hne
  exact hfresh (heq ▸ h.stackPage_mem hi)

/-- The agreement speaks only of the allocator, the stack pages and the other clients. -/
theorem congr (h : Owns kernelEnd s out)
    (halloc : (PageAlloc.clients kernelEnd).Reachable ⟨t.kernel.alloc, out⟩)
    (hpage : ∀ i, (t.kernel.tasks i).stackPage = (s.kernel.tasks i).stackPage)
    (hclients : t.clients = s.clients) : Owns kernelEnd t out where
  reachable := halloc
  mem_out p := by
    rw [h.mem_out, hclients]
    simp only [hpage]
  disjoint i hi := by
    rw [hpage] at hi ⊢
    rw [hclients]
    exact h.disjoint i hi
  distinct i j hi hij := by
    rw [hpage] at hi hij
    rw [hpage] at hij
    exact h.distinct i j hi hij

/-- An outstanding page is not at the null address. -/
theorem out_ne_null (h : Owns kernelEnd s out) {p : Word} (hp : p ∈ out) : p ≠ null :=
  (PageAlloc.reachable_mem h.reachable hp).2.1

/-- **One slot changes its page.**  The page it had is not outstanding any more, the one it has now
was not before, and the agreement goes on. -/
theorem setPage (h : Owns kernelEnd s out) {i : Fin N} {out' : Finset Word}
    (halloc : (PageAlloc.clients kernelEnd).Reachable ⟨t.kernel.alloc, out'⟩)
    (hclients : t.clients = s.clients)
    (hother : ∀ j, j ≠ i → (t.kernel.tasks j).stackPage = (s.kernel.tasks j).stackPage)
    (hnew : (t.kernel.tasks i).stackPage ∉ out)
    (hout : ∀ p, p ∈ out' ↔ p ≠ null ∧ p = (t.kernel.tasks i).stackPage ∨
      p ∈ out ∧ p ≠ (s.kernel.tasks i).stackPage) : Owns kernelEnd t out' where
  reachable := halloc
  mem_out p := by
    rw [hout, hclients]
    constructor
    · rintro (⟨hp, rfl⟩ | ⟨hp, hold⟩)
      · exact Or.inr ⟨hp, i, rfl⟩
      · rcases (h.mem_out p).1 hp with hp | ⟨hp, j, rfl⟩
        · exact Or.inl hp
        · exact Or.inr ⟨hp, j, hother j fun hji => hold (by rw [hji])⟩
    · rintro (hp | ⟨hp, j, rfl⟩)
      · -- the page of another client is not the one the slot had
        have hpout := h.client_mem hp
        refine Or.inr ⟨hpout, ?_⟩
        rintro rfl
        exact h.disjoint i (h.out_ne_null hpout) hp
      · rcases eq_or_ne j i with rfl | hji
        · exact Or.inl ⟨hp, rfl⟩
        · rw [hother j hji] at hp ⊢
          exact Or.inr ⟨h.stackPage_mem hp, fun hji' => hji (h.distinct j i hp hji')⟩
  disjoint j hj := by
    rw [hclients]
    rcases eq_or_ne j i with rfl | hji
    · exact fun hmem => hnew (h.client_mem hmem)
    · rw [hother j hji] at hj ⊢
      exact h.disjoint j hj
  distinct j k hj hjk := by
    -- no other slot has the new page
    have hfresh : ∀ l, l ≠ i → (t.kernel.tasks l).stackPage ≠ null →
        (t.kernel.tasks l).stackPage ≠ (t.kernel.tasks i).stackPage := by
      intro l hl hne heq
      rw [hother l hl] at hne heq
      exact hnew (heq ▸ h.stackPage_mem hne)
    rcases eq_or_ne j i with rfl | hji
    · rcases eq_or_ne k j with rfl | hkj
      · rfl
      · exact absurd hjk.symm (hfresh k hkj (hjk ▸ hj))
    · rcases eq_or_ne k i with rfl | hki
      · exact absurd hjk (hfresh j hji hj)
      · rw [hother j hji] at hj hjk
        rw [hother k hki] at hjk
        exact h.distinct j k hj hjk

/-- A new task takes a page that nobody holds. -/
theorem fillSlot (h : Owns kernelEnd s out) {i : Fin N} {stackPage : Word}
    {alloc : PageAlloc.State} (hi : (s.kernel.tasks i).stackPage = null)
    (hres : pageAlloc s.kernel.alloc = (stackPage, alloc)) (hnull : stackPage ≠ null)
    (bootstrap entry argument : Word) :
    Owns kernelEnd
      ⟨Task.fillSlot bootstrap entry argument i stackPage { s.kernel with alloc := alloc },
        s.clients⟩ (insert stackPage out) := by
  obtain ⟨hnot, -, hreach⟩ := PageAlloc.reachable_alloc h.reachable hres hnull
  have hself : ((Task.fillSlot bootstrap entry argument i stackPage
      { s.kernel with alloc := alloc }).tasks i).stackPage = stackPage := by
    simp [Task.fillSlot, State.setSlot, newSlot]
  refine h.setPage (i := i) ?_ rfl ?_ ?_ ?_
  · exact PageAlloc.reachable_store hreach (Finset.mem_insert_self _ _) (stackCanary i)
  · intro j hj
    simp [Task.fillSlot, State.setSlot, hj]
  · rw [hself]
    exact hnot
  · intro p
    rw [hself, hi, Finset.mem_insert]
    constructor
    · rintro (rfl | hp)
      · exact Or.inl ⟨hnull, rfl⟩
      · exact Or.inr ⟨hp, h.out_ne_null hp⟩
    · rintro (⟨-, hp⟩ | ⟨hp, -⟩)
      · exact Or.inl hp
      · exact Or.inr hp

/-- A reaped task gives its page back. -/
theorem emptySlot (h : Owns kernelEnd s out) {i : Fin N}
    (hi : (s.kernel.tasks i).stackPage ≠ null) :
    Owns kernelEnd
      ⟨Task.emptySlot i
        { s.kernel with alloc := release (s.kernel.tasks i).stackPage s.kernel.alloc },
        s.clients⟩ (out.erase (s.kernel.tasks i).stackPage) := by
  obtain ⟨-, hreach⟩ := PageAlloc.reachable_free h.reachable (h.stackPage_mem hi)
  have hself : ((Task.emptySlot i
      { s.kernel with alloc := release (s.kernel.tasks i).stackPage s.kernel.alloc }).tasks
        i).stackPage = null := by
    simp [Task.emptySlot, State.setSlot, clearSlot]
  refine h.setPage (i := i) hreach rfl ?_ ?_ ?_
  · intro j hj
    simp [Task.emptySlot, State.setSlot, hj]
  · rw [hself]
    exact fun hmem => h.out_ne_null hmem rfl
  · intro p
    rw [hself, Finset.mem_erase]
    constructor
    · rintro ⟨hne, hp⟩
      exact Or.inr ⟨hp, hne⟩
    · rintro (⟨hp, hnull⟩ | ⟨hp, hne⟩)
      · exact absurd hnull hp
      · exact ⟨hne, hp⟩

/-- A step of another client. -/
theorem client (h : Owns kernelEnd s out) {op : PageAlloc.Op} {alloc : PageAlloc.State}
    {clients : Finset Word} (hown : ∀ page, op = PageAlloc.Op.free page → page ∈ s.clients)
    (hstep : PageAlloc.Step ⟨s.kernel.alloc, s.clients⟩ op ⟨alloc, clients⟩) :
    ∃ out', Owns kernelEnd ⟨{ s.kernel with alloc := alloc }, clients⟩ out' := by
  cases hstep with
  | @alloc page alloc hres =>
      rcases eq_or_ne page null with rfl | hnull
      · -- nothing was left
        rw [PageAlloc.reachable_alloc_null h.reachable hres]
        exact ⟨out, h.congr h.reachable (fun _ => rfl) (by simp)⟩
      · obtain ⟨hnot, -, hreach⟩ := PageAlloc.reachable_alloc h.reachable hres hnull
        rw [if_neg hnull]
        refine ⟨insert page out, ⟨hreach, ?_, ?_, h.distinct⟩⟩
        · intro p
          rw [Finset.mem_insert, h.mem_out, Finset.mem_insert]
          exact or_assoc.symm
        · intro i hi hmem
          rcases Finset.mem_insert.1 hmem with hpage | hmem
          · exact hnot (hpage ▸ h.stackPage_mem hi)
          · exact h.disjoint i hi hmem
  | @free page accepted alloc hres =>
      have hmem := hown page rfl
      obtain ⟨hfree, hreach⟩ := PageAlloc.reachable_free h.reachable (h.client_mem hmem)
      obtain ⟨rfl, rfl⟩ := Prod.mk.inj (Option.some_inj.1 (hfree.symm.trans hres))
      refine ⟨out.erase page, ⟨hreach, ?_, ?_, h.distinct⟩⟩
      · intro p
        rw [if_pos rfl, Finset.mem_erase, h.mem_out, Finset.mem_erase]
        constructor
        · rintro ⟨hne, hp | hp⟩
          · exact Or.inl ⟨hne, hp⟩
          · exact Or.inr hp
        · rintro (hp | ⟨hp, i, hi⟩)
          · exact ⟨hp.1, Or.inl hp.2⟩
          · refine ⟨fun hpage => ?_, Or.inr ⟨hp, i, hi⟩⟩
            rw [← hi] at hp hpage
            exact h.disjoint i hp (hpage ▸ hmem)
      · intro i hi hp
        rw [if_pos rfl] at hp
        exact h.disjoint i hi (Finset.mem_of_mem_erase hp)
  | @write page contents hmem =>
      exact ⟨out, h.congr (PageAlloc.reachable_write h.reachable (h.client_mem hmem) contents)
        (fun _ => rfl) rfl⟩

/-- A step of another client does not touch the first word of a stack page. -/
theorem client_frame (h : Owns kernelEnd s out) {op : PageAlloc.Op} {alloc : PageAlloc.State}
    {clients : Finset Word} (hown : ∀ page, op = PageAlloc.Op.free page → page ∈ s.clients)
    (hstep : PageAlloc.Step ⟨s.kernel.alloc, s.clients⟩ op ⟨alloc, clients⟩) {i : Fin N}
    (hi : (s.kernel.tasks i).stackPage ≠ null) :
    alloc.mem (s.kernel.tasks i).stackPage = s.kernel.alloc.mem (s.kernel.tasks i).stackPage := by
  have hpage := h.stackPage_mem hi
  have hal := (PageAlloc.reachable_mem h.reachable hpage).1
  -- the page of a client is not a stack page
  have hne : ∀ {page}, page ∈ s.clients → page ≠ (s.kernel.tasks i).stackPage :=
    fun hmem hpage => h.disjoint i hi (hpage ▸ hmem)
  cases hstep with
  | @alloc page alloc hres =>
      rcases eq_or_ne page null with rfl | hnull
      · rw [PageAlloc.reachable_alloc_null h.reachable hres]
      · obtain ⟨hnot, hmem, hreach⟩ := PageAlloc.reachable_alloc h.reachable hres hnull
        have hal' := (PageAlloc.reachable_mem hreach (Finset.mem_insert_self _ _)).1
        rw [hmem]
        exact PageAlloc.zeroPage_of_ne hal' hal (fun hp => hnot (hp ▸ hpage)) _
  | @free page accepted alloc hres =>
      have hmem := hown page rfl
      obtain ⟨hfree, -⟩ := PageAlloc.reachable_free h.reachable (h.client_mem hmem)
      obtain ⟨rfl, rfl⟩ := Prod.mk.inj (Option.some_inj.1 (hfree.symm.trans hres))
      rw [PageAlloc.release_mem]
      exact Function.update_of_ne (hne hmem).symm _ _
  | @write page contents hmem =>
      have hal' := (PageAlloc.reachable_mem h.reachable (h.client_mem hmem)).1
      exact PageAlloc.writePage_of_ne hal' hal (hne hmem) contents _

end Owns

variable [NeZero N]

namespace SchedInv

variable {s u : State N}

/-- Giving up the CPU does not touch the allocator and the memory. -/
theorem leave_alloc (h : SchedInv s) {regs : Cpu} {final : Prop} (hl : Leave regs s final u) :
    u.alloc = s.alloc := by
  rcases h.leave_cases hl with rfl | ⟨next, v, -, -, hv, rfl⟩
  · rfl
  · rw [dispatch_alloc, hv.alloc]

/-- Giving up the CPU does not touch the stack pages. -/
theorem leave_stackPage (h : SchedInv s) {regs : Cpu} {final : Prop} (hl : Leave regs s final u)
    (i : Fin N) : (u.tasks i).stackPage = (s.tasks i).stackPage := by
  rcases h.leave_cases hl with rfl | ⟨next, v, -, -, hv, rfl⟩
  · rfl
  · rw [dispatch_stackPage, hv.stackPage]

end SchedInv

/-! ### Every step keeps the agreement -/

variable {bootstrap kernelEnd : Word}

/-- A reap that gets as far as `page_free` is never refused there. -/
theorem owns_taskReap {clients : Finset Word} {s t : State N} {id : BitVec 32} {reaped : Bool}
    (h : SchedInv s) (hown : ∃ out, Owns kernelEnd ⟨s, clients⟩ out)
    (hreap : taskReap id s = some (reaped, t)) : ∃ out, Owns kernelEnd ⟨t, clients⟩ out := by
  obtain ⟨out, hown⟩ := hown
  rcases taskReap_cases hreap with ⟨-, rfl⟩ | ⟨i, -, hst, ⟨-, -, rfl⟩ | ⟨-, -, hslot⟩⟩
  · exact ⟨out, hown⟩
  · refine ⟨out, hown.congr ?_ ?_ rfl⟩
    · rw [recordStackError_alloc]
      exact hown.reachable
    · intro j
      rw [recordStackError_tasks]
  · obtain ⟨alloc, hfree, rfl⟩ := reapSlot_cases hslot
    have hi := h.stackPage_of_finished hst
    obtain ⟨hacc, -⟩ := PageAlloc.reachable_free hown.reachable (hown.stackPage_mem hi)
    obtain ⟨rfl, rfl⟩ := Prod.mk.inj (Option.some_inj.1 (hacc.symm.trans hfree))
    exact ⟨_, hown.emptySlot hi⟩

theorem owns_step {s t : Sys N} {op : Op N} (h : SchedInv s.kernel)
    (hown : ∃ out, Owns kernelEnd s out) (hstep : Step bootstrap s op t) :
    ∃ out, Owns kernelEnd t out := by
  cases hregs : op.regs with
  | some regs =>
      obtain ⟨hclients, hleave⟩ := step_leave h hstep hregs
      obtain ⟨out, hown⟩ := hown
      refine ⟨out, hown.congr ?_ (h.leave_stackPage hleave) hclients⟩
      rw [h.leave_alloc hleave]
      exact hown.reachable
  | none =>
      cases hstep with
      | @create entry argument result t hcreate =>
          obtain ⟨out, hown⟩ := hown
          rcases taskCreate_cases hcreate with ⟨rfl, rfl⟩ | ⟨alloc, hres, rfl, rfl⟩ |
            ⟨i, stackPage, alloc, hi, hres, hnull, rfl, rfl⟩
          · exact ⟨out, hown⟩
          · rw [PageAlloc.reachable_alloc_null hown.reachable hres]
            exact ⟨out, hown⟩
          · obtain ⟨hi0, hst⟩ := findUnused_some hi
            exact ⟨_, hown.fillSlot ((h.unused i hi0).1 hst) hres hnull bootstrap entry argument⟩
      | yield _ => exact absurd hregs (by simp [Op.regs])
      | exit _ => exact absurd hregs (by simp [Op.regs])
      | reap hreap => exact owns_taskReap h hown hreap
      | @reapFinished count t hreap =>
          exact (taskReapFinished_invariant
            (P := fun k => SchedInv k ∧ ∃ out, Owns kernelEnd ⟨k, s.clients⟩ out)
            (fun _ _ _ _ hs hid => ⟨hs.1.inv_taskReap hid, owns_taskReap hs.1 hs.2 hid⟩)
            ⟨h, hown⟩ hreap).2
      | client hfree hclient =>
          obtain ⟨out, hown⟩ := hown
          exact hown.client hfree hclient
      | writeStack contents hi =>
          obtain ⟨out, hown⟩ := hown
          exact ⟨out, hown.congr (PageAlloc.reachable_write hown.reachable
            (hown.stackPage_mem hi) contents) (fun _ => rfl) rfl⟩

/-- The allocator and the scheduler **agree in every reachable state**. -/
theorem reachable_owns {s : Sys N} (h : (kernel bootstrap kernelEnd).Reachable s) :
    ∃ out, Owns kernelEnd s out := by
  refine h.invariant (P := fun s => ∃ out, Owns kernelEnd s out) ?_ ?_
  · rintro _ ⟨mem, cpu, rfl⟩
    have hpage : ∀ i : Fin N, ((taskInit (State.boot (pageAllocInit kernelEnd
        (PageAlloc.State.boot mem)) cpu)).tasks i).stackPage = null := by
      intro i
      by_cases hi : i = 0 <;> simp [taskInit, State.boot, clearSlot, hi]
    refine ⟨∅, ⟨Lts.Reachable.init ⟨mem, rfl⟩, ?_, ?_, ?_⟩⟩
    · intro p
      simp only [hpage, Finset.notMem_empty, false_or, exists_const, false_iff, not_and]
      exact fun hp hnull => hp hnull.symm
    · intro i hi
      exact absurd (hpage i) hi
    · intro i j hi
      exact absurd (hpage i) hi
  · intro s op t hr hs hstep
    exact owns_step (reachable_schedInv hr) hs hstep

/-- A slot after the first that is in use. -/
def Live (s : State N) (i : Fin N) : Prop := i ≠ 0 ∧ (s.tasks i).state ≠ .unused

instance (s : State N) : DecidablePred (Live s) := fun _ => inferInstanceAs (Decidable (_ ∧ _))

/-- The stack pages of the slots in use. -/
def stackPages (s : State N) : Finset Word :=
  (Finset.univ.filter (Live s)).image fun i => (s.tasks i).stackPage

/-! ### Canaries -/

/-- The slots whose canary was overwritten since they were filled in: a write into their stack page
changed its lowest word. -/
def recordTouched (bootstrap : Word) (touched : Fin N → Bool) (s : Sys N) (op : Op N) (_ : Sys N) :
    Fin N → Bool :=
  match op with
  | .create entry argument =>
      match (taskCreate bootstrap entry argument s.kernel).1 with
      | some i => Function.update touched i false
      | none => touched
  | .writeStack i contents =>
      if contents 0 = s.kernel.alloc.mem (s.kernel.tasks i).stackPage then touched
      else Function.update touched i true
  | _ => touched

/-- The system, with a record of the slots whose canary was overwritten. -/
def kernelWithTouched (bootstrap kernelEnd : Word) : Lts (Sys N × (Fin N → Bool)) (Op N) :=
  (kernel bootstrap kernelEnd).withHistory (fun _ => false) (recordTouched bootstrap)

/-- A canary that was not overwritten is in place, and no error was recorded for its slot. -/
def CanaryInv (s : State N) (touched : Fin N → Bool) : Prop :=
  ∀ i, (s.tasks i).stackPage ≠ null → touched i = false →
    s.alloc.mem (s.tasks i).stackPage = stackCanary i ∧ (s.tasks i).stackCorrupted = false

/-- Giving up the CPU records no error for a slot whose canary is in place. -/
theorem SchedInv.leave_stackCorrupted {s u : State N} {regs : Cpu} {final : Prop}
    (hl : Leave regs s final u) {i : Fin N} (hok : StackCanaryOk i s) :
    (u.tasks i).stackCorrupted = (s.tasks i).stackCorrupted := by
  cases hl with
  | stay _ _ => rfl
  | suspend _ _ =>
      rw [dispatch_stackCorrupted]
      rcases eq_or_ne i s.currentTask with rfl | hi
      · simp [Task.suspend, State.setSlot]
      · simp [Task.suspend, State.setSlot, hi]
  | finish _ _ _ _ _ =>
      rw [dispatch_stackCorrupted]
      rcases eq_or_ne i s.currentTask with rfl | hi
      · simp [retire, State.setSlot, recordStackError_of_ok hok]
      · simp [retire, State.setSlot, hi, recordStackError_tasks]

theorem canaryInv_taskReap {clients : Finset Word} {touched : Fin N → Bool} {s t : State N}
    {id : BitVec 32} {reaped : Bool} {out : Finset Word} (h : SchedInv s)
    (hown : Owns kernelEnd ⟨s, clients⟩ out) (hcan : CanaryInv s touched)
    (hreap : taskReap id s = some (reaped, t)) : CanaryInv t touched := by
  intro j hj htouched
  rcases taskReap_cases hreap with ⟨-, rfl⟩ | ⟨i, -, hst, ⟨-, hbad, rfl⟩ | ⟨-, -, hslot⟩⟩
  · exact hcan j hj htouched
  · -- an error is recorded, but not for this slot
    simp only [recordStackError_tasks, recordStackError_alloc] at hj ⊢
    obtain ⟨hmem, hclean⟩ := hcan j hj htouched
    refine ⟨hmem, ?_⟩
    rcases eq_or_ne j i with rfl | hji
    · exact absurd (Or.inr hmem) hbad
    · simp [hclean, hji]
  · obtain ⟨alloc, hfree, rfl⟩ := reapSlot_cases hslot
    have hi := h.stackPage_of_finished hst
    obtain ⟨hacc, -⟩ := PageAlloc.reachable_free hown.reachable (hown.stackPage_mem hi)
    obtain ⟨rfl, rfl⟩ := Prod.mk.inj (Option.some_inj.1 (hacc.symm.trans hfree))
    rcases eq_or_ne j i with rfl | hji
    · exact absurd (by simp [emptySlot, State.setSlot, clearSlot]) hj
    · simp only [if_true, emptySlot, State.setSlot, Function.update_of_ne hji] at hj ⊢
      obtain ⟨hmem, hclean⟩ := hcan j hj htouched
      refine ⟨?_, hclean⟩
      rw [PageAlloc.release_mem, Function.update_of_ne]
      · exact hmem
      · exact fun heq => hji (hown.distinct j i hj heq)

omit [NeZero N] in
/-- A new task gets its canary, and no other canary is touched. -/
theorem canaryInv_fillSlot {s : Sys N} {i : Fin N} {stackPage : Word} {alloc : PageAlloc.State}
    {out : Finset Word} {touched : Fin N → Bool} (hown : Owns kernelEnd s out)
    (hcan : CanaryInv s.kernel touched) (hres : pageAlloc s.kernel.alloc = (stackPage, alloc))
    (hnull : stackPage ≠ null) (entry argument : Word) :
    CanaryInv (fillSlot bootstrap entry argument i stackPage { s.kernel with alloc := alloc })
      (Function.update touched i false) := by
  obtain ⟨hnot, hmem, hreach⟩ := PageAlloc.reachable_alloc hown.reachable hres hnull
  intro j hj htouched
  rcases eq_or_ne j i with rfl | hji
  · simp [fillSlot, State.setSlot, newSlot, clearSlot]
  · simp only [fillSlot, State.setSlot, Function.update_of_ne hji] at hj htouched ⊢
    obtain ⟨hword, hclean⟩ := hcan j hj htouched
    have hpage := hown.stackPage_mem hj
    have hne : stackPage ≠ (s.kernel.tasks j).stackPage := fun heq => hnot (heq ▸ hpage)
    have hal := (PageAlloc.reachable_mem hown.reachable hpage).1
    have hal' := (PageAlloc.reachable_mem hreach (Finset.mem_insert_self _ _)).1
    refine ⟨?_, hclean⟩
    rw [Function.update_of_ne hne.symm, hmem, PageAlloc.zeroPage_of_ne hal' hal hne]
    exact hword

theorem canaryInv_taskCreate {s : Sys N} {t : State N} {entry argument : Word}
    {result : Option (Fin N)} {out : Finset Word} {touched : Fin N → Bool}
    (hown : Owns kernelEnd s out) (hcan : CanaryInv s.kernel touched)
    (hcreate : taskCreate bootstrap entry argument s.kernel = (result, t)) :
    CanaryInv t (result.elim touched fun i => Function.update touched i false) := by
  rcases taskCreate_cases hcreate with
    ⟨rfl, rfl⟩ | ⟨alloc, hres, rfl, rfl⟩ | ⟨i, stackPage, alloc, hi, hres, hnull, rfl, rfl⟩
  · exact hcan
  · rw [PageAlloc.reachable_alloc_null hown.reachable hres]
    exact hcan
  · exact canaryInv_fillSlot hown hcan hres hnull entry argument

omit [NeZero N] in
/-- A write into a stack page changes no other canary, nor its own unless it is recorded. -/
theorem canaryInv_writeStack {s : Sys N} {i : Fin N} {out : Finset Word} {touched : Fin N → Bool}
    (hown : Owns kernelEnd s out) (hcan : CanaryInv s.kernel touched)
    (hpage : (s.kernel.tasks i).stackPage ≠ null) (contents : ℕ → Word) :
    CanaryInv { s.kernel with
      alloc := { s.kernel.alloc with
        mem := writePage (s.kernel.tasks i).stackPage contents s.kernel.alloc.mem } }
      (if contents 0 = s.kernel.alloc.mem (s.kernel.tasks i).stackPage then touched
        else Function.update touched i true) := by
  intro j hj htouched
  have hj' : (s.kernel.tasks j).stackPage ≠ null := hj
  change writePage _ contents s.kernel.alloc.mem (s.kernel.tasks j).stackPage = _ ∧ _
  rcases eq_or_ne j i with rfl | hji
  · -- the page itself: its lowest word is as it was
    by_cases hsame : contents 0 = s.kernel.alloc.mem (s.kernel.tasks j).stackPage
    · rw [if_pos hsame] at htouched
      rw [PageAlloc.writePage_self, hsame]
      exact hcan j hj' htouched
    · simp [hsame] at htouched
  · have htouched' : touched j = false := by
      split at htouched
      · exact htouched
      · rwa [Function.update_of_ne hji] at htouched
    have hal := (PageAlloc.reachable_mem hown.reachable (hown.stackPage_mem hpage)).1
    have hal' := (PageAlloc.reachable_mem hown.reachable (hown.stackPage_mem hj')).1
    rw [PageAlloc.writePage_of_ne hal hal' fun heq => hji (hown.distinct i j hpage heq).symm]
    exact hcan j hj' htouched'

theorem canaryInv_step {s t : Sys N} {op : Op N} {touched : Fin N → Bool} (h : SchedInv s.kernel)
    (hown : ∃ out, Owns kernelEnd s out) (hcan : CanaryInv s.kernel touched)
    (hstep : Step bootstrap s op t) :
    CanaryInv t.kernel (recordTouched bootstrap touched s op t) := by
  have hleave : ∀ {regs}, op.regs = some regs → CanaryInv t.kernel touched := by
    intro regs hregs i hi htouched
    have hl := (step_leave h hstep hregs).2
    rw [h.leave_stackPage hl] at hi ⊢
    obtain ⟨hmem, hclean⟩ := hcan i hi htouched
    rw [h.leave_alloc hl, SchedInv.leave_stackCorrupted hl (Or.inr hmem)]
    exact ⟨hmem, hclean⟩
  cases hstep with
  | yield _ => exact hleave rfl
  | exit _ => exact hleave rfl
  | create hcreate =>
      obtain ⟨out, hown⟩ := hown
      have hinv := canaryInv_taskCreate hown hcan hcreate
      simp only [recordTouched, hcreate]
      split <;> exact hinv
  | reap hreap =>
      obtain ⟨out, hown⟩ := hown
      exact canaryInv_taskReap h hown hcan hreap
  | @reapFinished count t hreap =>
      exact (taskReapFinished_invariant
        (P := fun k => SchedInv k ∧ (∃ out, Owns kernelEnd ⟨k, s.clients⟩ out) ∧
          CanaryInv k touched)
        (fun _ _ _ _ hs hid => ⟨hs.1.inv_taskReap hid, owns_taskReap hs.1 hs.2.1 hid,
          canaryInv_taskReap hs.1 hs.2.1.choose_spec hs.2.2 hid⟩)
        ⟨h, hown, hcan⟩ hreap).2.2
  | client hfree hclient =>
      obtain ⟨out, hown⟩ := hown
      intro i hi htouched
      obtain ⟨hmem, hclean⟩ := hcan i hi htouched
      exact ⟨(hown.client_frame hfree hclient hi).trans hmem, hclean⟩
  | writeStack contents hpage =>
      obtain ⟨out, hown⟩ := hown
      exact canaryInv_writeStack hown hcan hpage contents

/-- The canaries that nobody overwrote are in place **in every reachable state**. -/
theorem reachable_canaryInv {p : Sys N × (Fin N → Bool)}
    (h : (kernelWithTouched bootstrap kernelEnd).Reachable p) : CanaryInv p.1.kernel p.2 := by
  refine Lts.Reachable.history_invariant (P := fun s touched => CanaryInv s.kernel touched) ?_ ?_ h
  · rintro _ ⟨mem, cpu, rfl⟩ i hi
    refine absurd ?_ hi
    rcases eq_or_ne i 0 with rfl | hi0
    · exact (SchedInv.inv_taskInit _ cpu).bootPage
    · refine ((SchedInv.inv_taskInit _ cpu).unused i hi0).1 ?_
      simp [taskInit, State.boot, clearSlot, hi0]
  · intro s touched op t hr hs hstep
    exact canaryInv_step (reachable_schedInv hr) (reachable_owns hr) hs hstep

/-! ### Ownership of the stack pages -/

/-- In a state that keeps the invariant, the slots in use are those with a stack page. -/
theorem SchedInv.live_iff {s : State N} (h : SchedInv s) (i : Fin N) :
    Live s i ↔ (s.tasks i).stackPage ≠ null := by
  rcases eq_or_ne i 0 with rfl | hi
  · exact ⟨fun hl => absurd rfl hl.1, fun hp => absurd h.bootPage hp⟩
  · have hun := not_congr (h.unused i hi)
    exact ⟨fun hl => hun.1 hl.2, fun hp => ⟨hi, hun.2 hp⟩⟩

/-- The outstanding pages are those of the other clients and the stack pages. -/
theorem out_eq {s : Sys N} {out : Finset Word} (h : SchedInv s.kernel)
    (hown : Owns kernelEnd s out) : out = s.clients ∪ stackPages s.kernel := by
  ext p
  simp only [hown.mem_out, Finset.mem_union, stackPages, Finset.mem_image, Finset.mem_filter,
    Finset.mem_univ, true_and, h.live_iff]
  constructor
  · rintro (hp | ⟨hp, i, rfl⟩)
    · exact Or.inl hp
    · exact Or.inr ⟨i, hp, rfl⟩
  · rintro (hp | ⟨i, hp, rfl⟩)
    · exact Or.inl hp
    · exact Or.inr ⟨hp, i, rfl⟩

/-- No page is held twice, so that the outstanding pages are counted by clients and slots. -/
theorem card_out {s : Sys N} {out : Finset Word} (h : SchedInv s.kernel)
    (hown : Owns kernelEnd s out) :
    out.card = (Finset.univ.filter (Live s.kernel)).card + s.clients.card := by
  have hdisjoint : Disjoint s.clients (stackPages s.kernel) := by
    rw [Finset.disjoint_left]
    intro p hp hstack
    obtain ⟨i, hi, rfl⟩ := Finset.mem_image.1 hstack
    exact hown.disjoint i ((h.live_iff i).1 (Finset.mem_filter.1 hi).2) hp
  have hinj : Set.InjOn (fun i => (s.kernel.tasks i).stackPage)
      (Finset.univ.filter (Live s.kernel) : Finset (Fin N)) := by
    intro i hi j _ hij
    exact hown.distinct i j ((h.live_iff i).1 (Finset.mem_filter.1 hi).2) hij
  rw [out_eq h hown, Finset.card_union_of_disjoint hdisjoint, stackPages,
    Finset.card_image_of_injOn hinj, Nat.add_comm]

/-- **Ownership of the stack pages.**  In every state the tasks and the clients can reach, the stack
pages of the slots in use are pairwise distinct; to the allocator they are outstanding, beside the
pages of the other clients, so they are not on the free list, not held by another client and not
returned by the next allocation; the counter counts slots in use and pages of other clients; and a
task other than the boot flow runs on such a page.  The call of `page_free` in `task_reap` is never
refused, and a failed `task_create` changes nothing.  The canary of a task stays in place, and no
error is recorded for it, as long as nobody changes the lowest word of its stack page. -/
theorem stack_ownership {s : Sys N} {touched : Fin N → Bool}
    (h : (kernelWithTouched bootstrap kernelEnd).Reachable (s, touched)) :
    (∀ i j, Live s.kernel i → Live s.kernel j →
      (s.kernel.tasks i).stackPage = (s.kernel.tasks j).stackPage → i = j) ∧
    (PageAlloc.clients kernelEnd).Reachable
      ⟨s.kernel.alloc, s.clients ∪ stackPages s.kernel⟩ ∧
    (∃ idle, Chain s.kernel.alloc.mem null s.kernel.alloc.freeList idle ∧
      ∀ i, Live s.kernel i → Managed s.kernel.alloc (s.kernel.tasks i).stackPage ∧
        (s.kernel.tasks i).stackPage ∉ idle ∧ (s.kernel.tasks i).stackPage ∉ s.clients ∧
        (pageAlloc s.kernel.alloc).1 ≠ (s.kernel.tasks i).stackPage) ∧
    s.kernel.alloc.usedPages.toNat =
      (Finset.univ.filter (Live s.kernel)).card + s.clients.card ∧
    (s.kernel.currentTask ≠ 0 → Live s.kernel s.kernel.currentTask) ∧
    (∀ i, (s.kernel.tasks i).state = .finished → pageFree (s.kernel.tasks i).stackPage
      s.kernel.alloc = some (true, release (s.kernel.tasks i).stackPage s.kernel.alloc)) ∧
    (∀ entry argument t, taskCreate bootstrap entry argument s.kernel = (none, t) →
      t = s.kernel) ∧
    ∀ i, Live s.kernel i → touched i = false →
      s.kernel.alloc.mem (s.kernel.tasks i).stackPage = stackCanary i ∧
        (s.kernel.tasks i).stackCorrupted = false ∧ recordStackError i s.kernel = s.kernel := by
  have hinv := reachable_schedInv h.fst
  obtain ⟨out, hown⟩ := reachable_owns h.fst
  have hcan := reachable_canaryInv h
  have hlive : ∀ {i}, Live s.kernel i → (s.kernel.tasks i).stackPage ≠ null :=
    fun hl => (hinv.live_iff _).1 hl
  refine ⟨?_, ?_, ?_, ?_, ?_, ?_, ?_, ?_⟩
  · intro i j hi _ hij
    exact hown.distinct i j (hlive hi) hij
  · rw [← out_eq hinv hown]
    exact hown.reachable
  · obtain ⟨idle, hchain, hnot⟩ := PageAlloc.reachable_not_listed hown.reachable
    refine ⟨idle, hchain, ?_⟩
    intro i hi
    have hpage := hown.stackPage_mem (hlive hi)
    exact ⟨(PageAlloc.reachable_mem hown.reachable hpage).2.2, hnot _ hpage,
      hown.disjoint i (hlive hi), hown.pageAlloc_ne (hlive hi)⟩
  · rw [PageAlloc.reachable_used hown.reachable, card_out hinv hown]
  · intro hcur
    exact ⟨hcur, by rw [(hinv.running _).2 rfl]; simp⟩
  · intro i hi
    exact (PageAlloc.reachable_free hown.reachable
      (hown.stackPage_mem (hinv.stackPage_of_finished hi))).1
  · intro entry argument t hcreate
    rcases taskCreate_cases hcreate with
      ⟨-, rfl⟩ | ⟨alloc, hres, -, rfl⟩ | ⟨i, stackPage, alloc, -, -, -, hsome, -⟩
    · rfl
    · rw [PageAlloc.reachable_alloc_null hown.reachable hres]
    · cases hsome
  · intro i hi htouched
    obtain ⟨hmem, hclean⟩ := hcan i (hlive hi) htouched
    exact ⟨hmem, hclean, recordStackError_of_ok (Or.inr hmem)⟩

/-- After the first task was created and got the CPU, the allocator has one page out. -/
theorem stack_ownership_first_task : firstRun.alloc.usedPages.toNat = 1 := by
  obtain ⟨touched, hreach⟩ : ∃ touched, (kernelWithTouched 0x40080000#64 0x40100000#64).Reachable
      (⟨firstRun, ∅⟩, touched) := reachable_firstRun.exists_history
  have hused := (stack_ownership hreach).2.2.2.1
  have hlive : (Finset.univ.filter (Live firstRun)).card = 1 := by decide
  rw [hlive, Finset.card_empty] at hused
  exact hused

end Task

end MiniOs
