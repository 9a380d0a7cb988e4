/-
**Who owns a page: the page allocator over whole runs.**

`MiniOs/PagePool.lean` shows what one call does.  Here the allocator runs with its clients: after
`page_alloc_init` they allocate, free any address at all, and write into the pages they hold, in
any order.  The outstanding pages — returned by `page_alloc` and not accepted by `page_free` since
— are recorded beside the state of the code, which does not store them.

Main definitions:

* `PageAlloc.Owned`, `PageAlloc.Op`, `PageAlloc.clients` — the allocator and its clients as a
  transition system;
* `PageAlloc.allocMany` — consecutive calls of `page_alloc`.

Main results:

* `PageAlloc.reachable_represents` — every reachable state represents a pool whose held set is the
  set of outstanding pages;
* `PageAlloc.ownership` — **the free list and the outstanding pages partition the pages handed out
  so far**, and a fresh allocation overlaps nothing;
* `PageAlloc.free_iff_outstanding` — **`page_free` accepts exactly the outstanding pages**, and
  changes nothing when it refuses;
* `PageAlloc.no_page_lost` — **every free page can be allocated**.
-/

import MiniOs.Lts
import MiniOs.PagePool

set_option relaxedAutoImplicit false
set_option autoImplicit false

namespace MiniOs

namespace PageAlloc

open NullChain

/-! ### The allocator and its clients -/

/-- The state of the allocator, and the set of outstanding pages. -/
structure Owned where
  alloc : State
  out : Finset Word

/-- What the clients do. -/
inductive Op
  | alloc
  | free (page : Word)
  | write (page : Word) (contents : ℕ → Word)

/-- One step of the clients.  They may free any address, but write only into pages they hold. -/
inductive Step : Owned → Op → Owned → Prop
  | alloc {s : Owned} {page : Word} {t : State} : pageAlloc s.alloc = (page, t) →
      Step s Op.alloc ⟨t, if page = null then s.out else insert page s.out⟩
  | free {s : Owned} {page : Word} {accepted : Bool} {t : State} :
      pageFree page s.alloc = some (accepted, t) →
      Step s (Op.free page) ⟨t, if accepted then s.out.erase page else s.out⟩
  | write {s : Owned} {page : Word} (contents : ℕ → Word) : page ∈ s.out →
      Step s (Op.write page contents)
        ⟨{ s.alloc with mem := writePage page contents s.alloc.mem }, s.out⟩

/-- A page that is returned is outstanding from now on. -/
theorem Step.alloc_page {a t : State} {page : Word} (out : Finset Word)
    (h : pageAlloc a = (page, t)) (hne : page ≠ null) :
    Step ⟨a, out⟩ Op.alloc ⟨t, insert page out⟩ := by
  have hstep : Step ⟨a, out⟩ Op.alloc ⟨t, if page = null then out else insert page out⟩ :=
    Step.alloc h
  rwa [if_neg hne] at hstep

/-- A page that is taken back is outstanding no longer. -/
theorem Step.free_page {a t : State} {page : Word} (out : Finset Word)
    (h : pageFree page a = some (true, t)) :
    Step ⟨a, out⟩ (Op.free page) ⟨t, out.erase page⟩ := by
  have hstep : Step ⟨a, out⟩ (Op.free page) ⟨t, if true then out.erase page else out⟩ :=
    Step.free h
  rwa [if_pos rfl] at hstep

/-- **The allocator and its clients**, from `page_alloc_init` on, over any initial memory. -/
def clients (kernelEnd : Word) : Lts Owned Op where
  init s := ∃ mem, s = ⟨pageAllocInit kernelEnd (State.boot mem), ∅⟩
  step := Step

/-- The state represents a pool whose held set is the set of outstanding pages, and the two
variables that only `page_alloc_init` writes are as it left them. -/
def Inv (kernelEnd : Word) (s : Owned) : Prop :=
  ∃ idle P, Represents s.alloc idle P ∧ P.held = s.out ∧
    s.alloc.managedStart = initialStart kernelEnd ∧
    s.alloc.totalPages = (qemuRamEnd - initialStart kernelEnd) / pageSize

theorem inv_init (kernelEnd : Word) (mem : Memory) :
    Inv kernelEnd ⟨pageAllocInit kernelEnd (State.boot mem), ∅⟩ := by
  obtain ⟨P, hP, hheld⟩ := represents_init kernelEnd mem
  exact ⟨[], P, hP, hheld, by rw [pageAllocInit_boot], by rw [pageAllocInit_boot]⟩

theorem inv_step {kernelEnd : Word} {s t : Owned} {op : Op} (h : Inv kernelEnd s)
    (hstep : Step s op t) : Inv kernelEnd t := by
  obtain ⟨idle, P, hP, hheld, hstart, htotal⟩ := h
  cases hstep with
  | @alloc page t halloc =>
      rcases hP.alloc_cases with ⟨-, hnull⟩ | ⟨p, u, l, Q, htake, hres, hQ, hst, htot, -⟩
      · rw [hnull] at halloc
        obtain ⟨rfl, rfl⟩ := Prod.mk.inj halloc
        exact ⟨idle, P, hP, by simpa using hheld, hstart, htotal⟩
      · rw [hres] at halloc
        obtain ⟨rfl, rfl⟩ := Prod.mk.inj halloc
        obtain ⟨-, hQheld⟩ := Pool.take_eq_some_iff.1 htake
        have hne : p ≠ null := hP.ne_null (Or.inl (Pool.mem_of_take htake))
        exact ⟨l, Q, hQ, by simp [hne, hQheld, hheld], hst.trans hstart, htot.trans htotal⟩
  | @free page accepted t hfree =>
      rcases hP.free_cases page with ⟨-, href⟩ | ⟨hp, hacc, hrel⟩
      · rw [href] at hfree
        obtain ⟨rfl, rfl⟩ := Prod.mk.inj (Option.some_inj.1 hfree)
        exact ⟨idle, P, hP, hheld, hstart, htotal⟩
      · rw [hacc] at hfree
        obtain ⟨rfl, rfl⟩ := Prod.mk.inj (Option.some_inj.1 hfree)
        exact ⟨page :: idle, P.give page hp, hrel, by simp [hheld], hstart, htotal⟩
  | @write page contents hmem =>
      exact ⟨idle, P, hP.write (hheld ▸ hmem) contents, hheld, hstart, htotal⟩

/-- Every reachable state **represents a pool** whose held set is the set of outstanding pages. -/
theorem reachable_represents {kernelEnd : Word} {s : Owned}
    (h : (clients kernelEnd).Reachable s) : Inv kernelEnd s := by
  refine h.invariant ?_ ?_
  · intro s ⟨mem, hs⟩
    rw [hs]
    exact inv_init kernelEnd mem
  · intro s op t _ hs hstep
    exact inv_step hs hstep

/-! ### What a client can rely on -/

section Client

variable {kernelEnd p : Word} {a t : State} {out : Finset Word}

/-- What the code does not store: the pool whose held set is the set of outstanding pages. -/
theorem reachable_pool (h : (clients kernelEnd).Reachable ⟨a, out⟩) :
    ∃ idle P, Represents a idle P ∧ P.held = out := by
  obtain ⟨idle, P, hP, hheld, -, -⟩ := reachable_represents h
  exact ⟨idle, P, hP, hheld⟩

/-- The allocator has been initialized. -/
theorem reachable_initialized (h : (clients kernelEnd).Reachable ⟨a, out⟩) :
    a.initialized = true := by
  obtain ⟨idle, P, hP, -⟩ := reachable_pool h
  exact hP.initialized

/-- An outstanding page is aligned, and not at the null address. -/
theorem reachable_mem (h : (clients kernelEnd).Reachable ⟨a, out⟩) (hp : p ∈ out) :
    Aligned p ∧ p ≠ null ∧ Managed a p := by
  obtain ⟨idle, P, hP, hheld⟩ := reachable_pool h
  rw [← hheld] at hp
  exact ⟨(hP.isPage (Or.inr hp)).1, hP.ne_null (Or.inr hp), (hP.managed p).1 (Or.inr hp)⟩

/-- A call that returns `null` changes nothing. -/
theorem reachable_alloc_null (h : (clients kernelEnd).Reachable ⟨a, out⟩)
    (hres : pageAlloc a = (null, t)) : t = a := by
  obtain ⟨idle, P, hP, -⟩ := reachable_pool h
  rcases hP.alloc_cases with ⟨-, hnull⟩ | ⟨q, u, l, Q, htake, hq, -⟩
  · exact ((Prod.mk.inj (hnull.symm.trans hres)).2).symm
  · have hne : q ≠ null := hP.ne_null (Or.inl (Pool.mem_of_take htake))
    exact absurd (Prod.mk.inj (hq.symm.trans hres)).1 hne

/-- A page that is returned was not outstanding, is outstanding from now on, and is cleared. -/
theorem reachable_alloc (h : (clients kernelEnd).Reachable ⟨a, out⟩)
    (hres : pageAlloc a = (p, t)) (hne : p ≠ null) :
    p ∉ out ∧ t.mem = zeroPage p a.mem ∧ (clients kernelEnd).Reachable ⟨t, insert p out⟩ := by
  have hreach := h.step (Step.alloc_page out hres hne)
  obtain ⟨idle, P, hP, hheld⟩ := reachable_pool h
  rcases hP.alloc_cases with ⟨-, hnull⟩ | ⟨q, u, l, Q, htake, hq, -, -, -, hmem⟩
  · exact absurd (Prod.mk.inj (hnull.symm.trans hres)).1.symm hne
  · obtain ⟨rfl, rfl⟩ := Prod.mk.inj (hq.symm.trans hres)
    refine ⟨?_, hmem, hreach⟩
    rw [← hheld]
    exact Pool.take_not_held htake

/-- An outstanding page is taken back. -/
theorem reachable_free (h : (clients kernelEnd).Reachable ⟨a, out⟩) (hp : p ∈ out) :
    pageFree p a = some (true, release p a) ∧
      (clients kernelEnd).Reachable ⟨release p a, out.erase p⟩ := by
  obtain ⟨idle, P, hP, hheld⟩ := reachable_pool h
  rcases hP.free_cases p with ⟨hnot, -⟩ | ⟨-, hfree, -⟩
  · rw [hheld] at hnot
    exact absurd hp hnot
  · exact ⟨hfree, h.step (Step.free_page out hfree)⟩

/-- Two pages are allocated at boot, and the first one is freed. -/
theorem reachable_second {one two : State} {q : Word} {mem : Memory}
    (hfirst : pageAlloc (pageAllocInit kernelEnd (State.boot mem)) = (p, one)) (hp : p ≠ null)
    (hsecond : pageAlloc one = (q, two)) (hq : q ≠ null) :
    (clients kernelEnd).Reachable ⟨release p two, {q}⟩ := by
  have hboot : (clients kernelEnd).Reachable ⟨pageAllocInit kernelEnd (State.boot mem), ∅⟩ :=
    Lts.Reachable.init ⟨mem, rfl⟩
  obtain ⟨-, -, hone⟩ := reachable_alloc hboot hfirst hp
  obtain ⟨hnew, -, htwo⟩ := reachable_alloc hone hsecond hq
  have hfreed := (reachable_free htwo (Finset.mem_insert_of_mem (Finset.mem_insert_self p ∅))).2
  have hne : q ≠ p := fun hsame => hnew (hsame ▸ Finset.mem_insert_self p ∅)
  rwa [Finset.erase_insert_of_ne hne, Finset.erase_insert (Finset.notMem_empty p)] at hfreed

/-- A client may rewrite an outstanding page. -/
theorem reachable_write (h : (clients kernelEnd).Reachable ⟨a, out⟩) (hp : p ∈ out)
    (contents : ℕ → Word) :
    (clients kernelEnd).Reachable ⟨{ a with mem := writePage p contents a.mem }, out⟩ := by
  have hstep : Step ⟨a, out⟩ (Op.write p contents)
      ⟨{ a with mem := writePage p contents a.mem }, out⟩ := Step.write contents hp
  exact h.step hstep

/-- A client may store to any address of an outstanding page. -/
theorem reachable_storeAt (h : (clients kernelEnd).Reachable ⟨a, out⟩) (hp : p ∈ out) {x : Word}
    (hx : InPage p x) (v : Word) :
    (clients kernelEnd).Reachable ⟨{ a with mem := Function.update a.mem x v }, out⟩ := by
  have hstore : Function.update a.mem x v =
      writePage p (fun offset => Function.update a.mem x v (p + BitVec.ofNat 64 offset)) a.mem := by
    funext b
    unfold writePage
    by_cases hb : InPage p b
    · have hoff : p + BitVec.ofNat 64 (b - p).toNat = b := by
        rw [BitVec.ofNat_toNat, BitVec.setWidth_eq, BitVec.add_comm, BitVec.sub_add_cancel]
      simp only [if_pos hb, hoff]
    · rw [if_neg hb]
      refine Function.update_of_ne (fun hbx => hb ?_) _ _
      rwa [hbx]
  rw [hstore]
  exact reachable_write h hp _

/-- A client may store to the first word of an outstanding page. -/
theorem reachable_store (h : (clients kernelEnd).Reachable ⟨a, out⟩) (hp : p ∈ out) (v : Word) :
    (clients kernelEnd).Reachable ⟨{ a with mem := Function.update a.mem p v }, out⟩ :=
  reachable_storeAt h hp (inPage_self p) v

/-- The counter counts the outstanding pages. -/
theorem reachable_used (h : (clients kernelEnd).Reachable ⟨a, out⟩) :
    a.usedPages.toNat = out.card := by
  obtain ⟨idle, P, hP, hheld⟩ := reachable_pool h
  rw [← hheld]
  exact hP.used

/-- What is free and what is out make up what the kernel leaves. -/
theorem reachable_freePages (h : (clients kernelEnd).Reachable ⟨a, out⟩) :
    (pageFreePages a).toNat + out.card =
      ((qemuRamEnd - initialStart kernelEnd) / pageSize).toNat := by
  obtain ⟨idle, P, hP, hheld, -, htotal⟩ := reachable_represents h
  have hcapacity := hP.total
  rw [htotal, Pool.capacity, hheld] at hcapacity
  rw [hP.freePages, hcapacity]

/-- A call returns `null` just when nothing is free. -/
theorem reachable_alloc_null_iff (h : (clients kernelEnd).Reachable ⟨a, out⟩) :
    (pageAlloc a).1 = null ↔ (pageFreePages a).toNat = 0 := by
  obtain ⟨idle, P, hP, -⟩ := reachable_pool h
  rw [hP.freePages, List.length_eq_zero_iff]
  rcases hP.alloc_cases with ⟨hempty, hnull⟩ | ⟨q, u, l, Q, htake, halloc, -⟩
  · rw [hnull]
    exact iff_of_true rfl hempty
  · obtain ⟨havail, -⟩ := Pool.take_eq_some_iff.1 htake
    rw [halloc, havail]
    exact iff_of_false (hP.ne_null (Or.inl (Pool.mem_of_take htake))) (List.cons_ne_nil _ _)

/-- The first listed page is the next one handed out. -/
theorem reachable_alloc_listed (h : (clients kernelEnd).Reachable ⟨a, out⟩)
    (hne : a.freeList ≠ null) : (pageAlloc a).1 = a.freeList := by
  rw [pageAlloc_listed (reachable_initialized h) hne]
  rfl

/-- An address that is not that of an outstanding page is refused. -/
theorem reachable_free_refused (h : (clients kernelEnd).Reachable ⟨a, out⟩) (hp : p ∉ out) :
    pageFree p a = some (false, a) := by
  obtain ⟨idle, P, hP, hheld⟩ := reachable_pool h
  rcases hP.free_cases p with ⟨-, hfree⟩ | ⟨hmem, -⟩
  · exact hfree
  · rw [hheld] at hmem
    exact absurd hmem hp

/-- No outstanding page is on the free list. -/
theorem reachable_not_listed (h : (clients kernelEnd).Reachable ⟨a, out⟩) :
    ∃ idle, Chain a.mem null a.freeList idle ∧ ∀ p ∈ out, p ∉ idle := by
  obtain ⟨idle, P, hP, hheld⟩ := reachable_pool h
  refine ⟨idle, hP.chain, fun p hp hmem => ?_⟩
  rw [← hheld] at hp
  exact P.disjoint p hp (hP.idle_subset p hmem)

end Client

/-! ### The ownership invariant -/

/-- **The ownership invariant.**  In every state the clients can reach, the links from the free
list end in `null` and repeat nothing, so the loop of `page_free` ends; the listed pages and the
outstanding pages are disjoint and together are the pages handed out so far; the counter counts
the outstanding pages; and a page handed out next is a whole page of RAM past the kernel, not
outstanding, and cleared. -/
theorem ownership {kernelEnd : Word} {s : Owned} (h : (clients kernelEnd).Reachable s) :
    (∃ idle, Chain s.alloc.mem null s.alloc.freeList idle ∧ idle.Nodup ∧
      (∀ p ∈ idle, Managed s.alloc p) ∧ (∀ p ∈ s.out, p ∉ idle) ∧
      ∀ p, Managed s.alloc p ↔ p ∈ idle ∨ p ∈ s.out) ∧
    (∀ p, pageFree p s.alloc ≠ none) ∧
    s.alloc.usedPages.toNat = s.out.card ∧
    s.alloc.usedPages.toNat ≤ s.alloc.totalPages.toNat ∧
    ∀ p t, pageAlloc s.alloc = (p, t) → p ≠ null →
      Aligned p ∧ kernelEnd.toNat ≤ p.toNat ∧ 0x40000000 ≤ p.toNat ∧
        p.toNat + 4096 ≤ 0x48000000 ∧ p ∉ s.out ∧
        ∀ i < 512, t.mem (p + BitVec.ofNat 64 (8 * i)) = 0 := by
  obtain ⟨idle, P, hP, hheld, hstart, -⟩ := reachable_represents h
  have hused := hP.used
  have htotal := hP.total
  rw [Pool.capacity] at htotal
  rw [hheld] at hused htotal
  refine ⟨⟨idle, hP.chain, hP.chain.nodup, ?_, ?_, ?_⟩, ?_, hused, by omega, ?_⟩
  · intro p hp
    exact (hP.managed p).1 (Or.inl hp)
  · intro p hp hmem
    rw [← hheld] at hp
    exact P.disjoint p hp (hP.idle_subset p hmem)
  · intro p
    rw [← hheld]
    exact (hP.managed p).symm
  · intro p hnone
    rcases hP.free_cases p with ⟨-, hfree⟩ | ⟨-, hfree, -⟩
    · rw [hfree] at hnone
      exact absurd hnone (by simp)
    · rw [hfree] at hnone
      exact absurd hnone (by simp)
  · intro p t hres hne
    rcases hP.alloc_cases with ⟨-, hnull⟩ | ⟨q, u, l, Q, htake, halloc, hQ, -, -, hmem⟩
    · rw [hnull] at hres
      exact absurd (Prod.mk.inj hres).1.symm hne
    · rw [halloc] at hres
      obtain ⟨rfl, rfl⟩ := Prod.mk.inj hres
      obtain ⟨hal, hlo, hhi⟩ := hP.isPage (Or.inl (Pool.mem_of_take htake))
      obtain ⟨-, hram, -, hkernel⟩ := initialStart_spec kernelEnd
      rw [hstart] at hlo
      rw [qemuRamEnd_toNat] at hhi
      refine ⟨hal, ?_, by omega, hhi, ?_, ?_⟩
      · exact (hkernel (by omega)).trans hlo
      · rw [← hheld]
        exact Pool.take_not_held htake
      · intro i hi
        rw [hmem]
        exact zeroPage_inside q s.alloc.mem hi

/-- After one allocation from a kernel that ends at `0x40100000`, the next page is the second one. -/
theorem ownership_second_page :
    Aligned 0x40101000#64 ∧ 0x40101000#64 ∉ ({0x40100000#64} : Finset Word) := by
  have hreach : (clients 0x40100000#64).Reachable
      ⟨(pageAlloc (pageAllocInit 0x40100000#64 (State.boot fun _ => 0))).2, {0x40100000#64}⟩ :=
    Lts.Reachable.step (Lts.Reachable.init ⟨fun _ => 0, rfl⟩) (Step.alloc rfl)
  obtain ⟨hal, -, -, -, hnot, -⟩ := (ownership hreach).2.2.2.2 0x40101000#64 _ rfl (by decide)
  exact ⟨hal, hnot⟩

/-! ### What `page_free` accepts -/

/-- **`page_free` accepts exactly the outstanding pages.**  When it refuses, nothing changes; when
it accepts, the page moves to the front of the free list, no other word of memory changes, and one
more page is free. -/
theorem free_iff_outstanding {kernelEnd : Word} {s : Owned}
    (h : (clients kernelEnd).Reachable s) (p : Word) :
    ∃ accepted t, pageFree p s.alloc = some (accepted, t) ∧ (accepted = true ↔ p ∈ s.out) ∧
      (accepted = false → t = s.alloc) ∧
      (accepted = true → t.managedStart = s.alloc.managedStart ∧
        t.bumpNext = s.alloc.bumpNext ∧ t.totalPages = s.alloc.totalPages ∧
        (∀ a, a ≠ p → t.mem a = s.alloc.mem a) ∧
        (∀ idle, Chain s.alloc.mem null s.alloc.freeList idle →
          Chain t.mem null t.freeList (p :: idle)) ∧
        t.usedPages.toNat + 1 = s.alloc.usedPages.toNat ∧
        (pageFreePages t).toNat = (pageFreePages s.alloc).toNat + 1) ∧
      ∀ u, Step s (Op.free p) u → u = ⟨t, s.out.erase p⟩ := by
  obtain ⟨idle, P, hP, hheld, -, -⟩ := reachable_represents h
  rcases hP.free_cases p with ⟨hp, hfree⟩ | ⟨hp, hfree, hrel⟩
  · -- refused: the page is not out
    rw [hheld] at hp
    refine ⟨false, s.alloc, hfree, by simp [hp], fun _ => rfl, by simp, ?_⟩
    intro u hu
    cases hu with
    | @free _ accepted t hu =>
        rw [hfree] at hu
        obtain ⟨rfl, rfl⟩ := Prod.mk.inj (Option.some_inj.1 hu)
        simp [Finset.erase_eq_of_notMem hp]
  · -- accepted: the page is out, and the pool gets it back
    have hused := hP.used
    have hused' := hrel.used
    have hpos : 0 < P.held.card := Finset.card_pos.2 ⟨p, hp⟩
    rw [Pool.give_held, Finset.card_erase_of_mem hp] at hused'
    refine ⟨true, release p s.alloc, hfree, by simp [← hheld, hp], by simp, ?_, ?_⟩
    · intro _
      refine ⟨rfl, rfl, rfl, ?_, ?_, by omega, ?_⟩
      · intro a ha
        exact Function.update_of_ne ha _ _
      · intro l hl
        rw [hl.unique hP.chain]
        exact hrel.chain
      · rw [hrel.freePages, hP.freePages, Pool.give_avail, List.length_cons]
    · intro u hu
      cases hu with
      | @free _ accepted t hu =>
          rw [hfree] at hu
          obtain ⟨rfl, rfl⟩ := Prod.mk.inj (Option.some_inj.1 hu)
          rfl

/-- The allocator of a kernel that ends at `0x40100000`, when two pages were allocated and the first one
was freed. -/
def secondOut : State :=
  release 0x40100000#64
    (pageAlloc (pageAlloc (pageAllocInit 0x40100000#64 (State.boot fun _ => 0))).2).2

theorem reachable_secondOut :
    (clients 0x40100000#64).Reachable ⟨secondOut, {0x40101000#64}⟩ := by
  have hfirst : pageAlloc (pageAllocInit 0x40100000#64 (State.boot fun _ => 0)) =
      (0x40100000#64, (pageAlloc (pageAllocInit 0x40100000#64 (State.boot fun _ => 0))).2) := rfl
  have hsecond : pageAlloc (pageAlloc (pageAllocInit 0x40100000#64 (State.boot fun _ => 0))).2 =
      (0x40101000#64,
        (pageAlloc (pageAlloc (pageAllocInit 0x40100000#64 (State.boot fun _ => 0))).2).2) := rfl
  exact reachable_second hfirst (by decide) hsecond (by decide)

/-- Then the page that is out is accepted, and the one that is free is not. -/
theorem free_iff_outstanding_second : (∃ t, pageFree 0x40101000#64 secondOut = some (true, t)) ∧
    pageFree 0x40100000#64 secondOut = some (false, secondOut) := by
  obtain ⟨accepted, t, hfree, hiff, -⟩ := free_iff_outstanding reachable_secondOut 0x40101000#64
  obtain ⟨refused, u, hfree', hiff', hsame, -⟩ :=
    free_iff_outstanding reachable_secondOut 0x40100000#64
  have haccepted : accepted = true := hiff.2 (Finset.mem_singleton_self _)
  have hrefused : refused = false := by simpa using hiff'
  refine ⟨⟨t, haccepted ▸ hfree⟩, ?_⟩
  rw [hfree', hsame hrefused, hrefused]

/-! ### No page is lost -/

/-- `n` consecutive calls of `page_alloc`, with the addresses they return. -/
def allocMany : ℕ → State → List Word × State
  | 0, s => ([], s)
  | n + 1, s =>
      let (page, t) := pageAlloc s
      let (pages, u) := allocMany n t
      (page :: pages, u)

/-- Consecutive calls of `page_alloc` take from the pool one page after the other. -/
theorem allocMany_of_takeMany {n : ℕ} {s : State} {idle pages : List Word} {P Q : Pool Word}
    (h : Represents s idle P) (htake : Pool.takeMany n P = some (pages, Q)) :
    ∃ t l, allocMany n s = (pages, t) ∧ Represents t l Q := by
  induction n generalizing s idle P pages with
  | zero =>
      obtain ⟨rfl, rfl⟩ := Prod.mk.inj (Option.some_inj.1 htake)
      exact ⟨s, idle, rfl, h⟩
  | succ n ih =>
      rcases h.alloc_cases with ⟨hempty, -⟩ | ⟨p, t, l, R, hp, halloc, hR, -, -, -⟩
      · rw [Pool.takeMany, Pool.take_eq_none_iff.2 hempty] at htake
        simp at htake
      · cases hrest : Pool.takeMany n R with
        | none =>
            rw [Pool.takeMany, hp] at htake
            simp [hrest] at htake
        | some r =>
            obtain ⟨rest, S⟩ := r
            rw [Pool.takeMany_succ hp hrest] at htake
            obtain ⟨rfl, rfl⟩ := Prod.mk.inj (Option.some_inj.1 htake)
            obtain ⟨u, m, hu, hS⟩ := ih hR hrest
            exact ⟨u, m, by simp [allocMany, halloc, hu], hS⟩

/-- **No page is lost.**  In every state the clients can reach, `page_alloc` fails exactly when no
page is free, and as many consecutive calls as there are free pages return pages that are all
different; the number of managed pages is that of the whole pages between the end of the kernel,
rounded up, and the end of RAM; and initialising again changes nothing. -/
theorem no_page_lost {kernelEnd : Word} {s : Owned} (h : (clients kernelEnd).Reachable s) :
    ((pageAlloc s.alloc).1 = null ↔ pageFreePages s.alloc = 0) ∧
    (∃ pages t, allocMany (pageFreePages s.alloc).toNat s.alloc = (pages, t) ∧
      pages.length = (pageFreePages s.alloc).toNat ∧ pages.Nodup ∧
      (∀ p ∈ pages, p ≠ null ∧ p ∉ s.out) ∧ (pageAlloc t).1 = null) ∧
    s.alloc.totalPages.toNat =
      (if 0x40000000 ≤ (kernelEnd.toNat + 4095) / 4096 * 4096 ∧
          (kernelEnd.toNat + 4095) / 4096 * 4096 ≤ 0x48000000 then
        (0x48000000 - (kernelEnd.toNat + 4095) / 4096 * 4096) / 4096
      else 0) ∧
    ∀ end', pageAllocInit end' s.alloc = s.alloc := by
  obtain ⟨idle, P, hP, hheld, -, htotal⟩ := reachable_represents h
  have hfree := hP.freePages
  have hzero : pageFreePages s.alloc = 0 ↔ P.avail = [] := by
    rw [← List.length_eq_zero_iff, ← hfree, ← BitVec.toNat_inj]
    rfl
  refine ⟨?_, ?_, ?_, ?_⟩
  · rw [hzero]
    rcases hP.alloc_cases with ⟨hempty, hnull⟩ | ⟨p, t, l, Q, htake, halloc, -⟩
    · simp [hnull, hempty]
    · obtain ⟨havail, -⟩ := Pool.take_eq_some_iff.1 htake
      have hne : p ≠ null := hP.ne_null (Or.inl (Pool.mem_of_take htake))
      simp [halloc, havail, hne]
  · obtain ⟨Q, htake, hempty⟩ := Pool.takeMany_all P
    obtain ⟨t, l, hmany, hQ⟩ := allocMany_of_takeMany hP htake
    rw [hfree]
    refine ⟨P.avail, t, hmany, rfl, P.nodup, ?_, ?_⟩
    · intro p hp
      refine ⟨hP.ne_null (Or.inl hp), fun hmem => P.disjoint p ?_ hp⟩
      rwa [hheld]
    · rcases hQ.alloc_cases with ⟨-, hnull⟩ | ⟨p, u, m, R, htake', -, -⟩
      · rw [hnull]
      · rw [(Pool.take_eq_some_iff.1 htake').1] at hempty
        exact absurd hempty (by simp)
  · rw [htotal, initialTotal_toNat, initialStart_toNat]
    split
    · rfl
    · omega
  · intro end'
    simp [pageAllocInit, hP.initialized]

/-- With one page out and one on the free list, 32511 pages can be allocated, and none after them. -/
theorem no_page_lost_second : ∃ pages t, allocMany 32511 secondOut = (pages, t) ∧
    pages.length = 32511 ∧ 0x40101000#64 ∉ pages ∧ (pageAlloc t).1 = null := by
  have hfree : (pageFreePages secondOut).toNat = 32511 := by decide
  obtain ⟨pages, t, hmany, hlength, -, hnew, hnull⟩ := (no_page_lost reachable_secondOut).2.1
  rw [hfree] at hmany hlength
  refine ⟨pages, t, hmany, hlength, fun hmem => ?_, hnull⟩
  exact (hnew _ hmem).2 (Finset.mem_singleton_self _)

end PageAlloc

end MiniOs
