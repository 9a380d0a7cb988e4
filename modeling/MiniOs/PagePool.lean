/-
**The page allocator refines a pool of pages.**

The code keeps the free pages in two places, a list threaded through the pages that came back and
a region of pages that were never handed out, and keeps no record of the pages that are out.  Here
it is related to the pool of `MiniOs/ResourcePool.lean`: the available stack is the list followed
by the region, and the held set is what the code does not store.  Each operation of the code is an
operation of the pool, so whatever is true of the pool over a run is true of the code.

Main definitions:

* `PageAlloc.pagesFrom` — consecutive pages;
* `PageAlloc.Represents` — **the state of the code represents a pool**;
* `PageAlloc.IsPage` — an address is that of a managed page, inside RAM.

Main results:

* `PageAlloc.Represents.isPage` — every resource of a represented pool is a page;
* `PageAlloc.represents_init` — `page_alloc_init` builds a pool of all whole pages after the kernel;
* `PageAlloc.Represents.alloc_cases`, `PageAlloc.Represents.free_cases`,
  `PageAlloc.Represents.write` — **each operation of the code is the operation of the pool**.
-/

import MiniOs.PageAlloc
import MiniOs.ResourcePool

set_option relaxedAutoImplicit false
set_option autoImplicit false

namespace MiniOs

namespace PageAlloc

open NullChain

/-! ### Consecutive pages -/

/-- The `n` pages from the address `a` on. -/
def pagesFrom (a : Word) : ℕ → List Word
  | 0 => []
  | n + 1 => a :: pagesFrom (a + pageSize) n

@[simp] theorem pagesFrom_length (a : Word) (n : ℕ) : (pagesFrom a n).length = n := by
  induction n generalizing a with
  | zero => rfl
  | succ n ih => simp [pagesFrom, ih]

theorem toNat_add_pageSize {a : Word} (h : a.toNat < 2 ^ 64 - 4096) :
    (a + pageSize).toNat = a.toNat + 4096 := by
  simp only [pageSize]
  bv_omega

/-- The addresses of consecutive pages below the top of the address space. -/
theorem mem_pagesFrom {a p : Word} {n : ℕ} (h : a.toNat + 4096 * n < 2 ^ 64) :
    p ∈ pagesFrom a n ↔
      a.toNat ≤ p.toNat ∧ p.toNat < a.toNat + 4096 * n ∧ p.toNat % 4096 = a.toNat % 4096 := by
  induction n generalizing a with
  | zero => simp [pagesFrom]; omega
  | succ n ih =>
      rw [Nat.mul_succ] at h ⊢
      have hnext := toNat_add_pageSize (a := a) (by omega)
      rw [pagesFrom, List.mem_cons, ih (by omega), hnext, ← BitVec.toNat_inj]
      omega

theorem pagesFrom_nodup {a : Word} {n : ℕ} (h : a.toNat + 4096 * n < 2 ^ 64) :
    (pagesFrom a n).Nodup := by
  induction n generalizing a with
  | zero => exact List.nodup_nil
  | succ n ih =>
      rw [Nat.mul_succ] at h
      have hnext := toNat_add_pageSize (a := a) (by omega)
      refine List.nodup_cons.2 ⟨?_, ih (by omega)⟩
      rw [mem_pagesFrom (by omega)]
      omega

/-! ### The represented pool -/

/-- An address is that of a page of the region handed out so far. -/
def Managed (s : State) (p : Word) : Prop :=
  Aligned p ∧ s.managedStart.toNat ≤ p.toNat ∧ p.toNat < s.bumpNext.toNat

/-- An address is that of a whole page between the start of the managed region and the end of
RAM. -/
def IsPage (s : State) (p : Word) : Prop :=
  Aligned p ∧ s.managedStart.toNat ≤ p.toNat ∧ p.toNat + 4096 ≤ qemuRamEnd.toNat

/-- **The state `s` represents the pool `P`**, with the free list going through `idle`. -/
structure Represents (s : State) (idle : List Word) (P : Pool Word) : Prop where
  initialized : s.initialized = true
  /-- The links from `freeList` go through `idle` and end in `null`. -/
  chain : Chain s.mem null s.freeList idle
  /-- What is available is the free list, then the pages up to the end of RAM. -/
  avail : ∃ n, P.avail = idle ++ pagesFrom s.bumpNext n ∧
    s.bumpNext.toNat + 4096 * n = qemuRamEnd.toNat
  /-- The listed pages and the held pages are those handed out so far. -/
  managed : ∀ p, p ∈ idle ∨ p ∈ P.held ↔ Managed s p
  /-- The managed region starts in RAM, before the pages never handed out. -/
  start : qemuRamStart.toNat ≤ s.managedStart.toNat ∧ s.managedStart.toNat ≤ s.bumpNext.toNat
  used : s.usedPages.toNat = P.held.card
  total : s.totalPages.toNat = P.capacity

theorem qemuRamStart_toNat : qemuRamStart.toNat = 0x40000000 := rfl

theorem qemuRamEnd_toNat : qemuRamEnd.toNat = 0x48000000 := rfl

namespace Represents

variable {s : State} {idle : List Word} {P : Pool Word}

/-- The next page never handed out is aligned, and not past the end of RAM. -/
theorem bump (h : Represents s idle P) : Aligned s.bumpNext ∧ s.bumpNext.toNat ≤ 0x48000000 := by
  obtain ⟨n, -, hn⟩ := h.avail
  rw [qemuRamEnd_toNat] at hn
  unfold Aligned
  omega

/-- **Every resource of a represented pool is a page.** -/
theorem isPage (h : Represents s idle P) {p : Word} (hp : p ∈ P.avail ∨ p ∈ P.held) :
    IsPage s p := by
  obtain ⟨n, havail, hn⟩ := h.avail
  have hbump := h.bump
  have hstart := h.start
  rw [qemuRamEnd_toNat] at hn
  unfold IsPage
  rw [qemuRamEnd_toNat]
  -- a page is on the free list or held, hence below `bumpNext`, or it was never handed out
  have hcase : Managed s p ∨ p ∈ pagesFrom s.bumpNext n := by
    rw [havail, List.mem_append] at hp
    rcases hp with (hp | hp) | hp
    · exact Or.inl ((h.managed p).1 (Or.inl hp))
    · exact Or.inr hp
    · exact Or.inl ((h.managed p).1 (Or.inr hp))
  rcases hcase with ⟨hal, hlo, hhi⟩ | hmem
  · refine ⟨hal, hlo, ?_⟩
    have hb := hbump.1
    unfold Aligned at hal hb
    omega
  · rw [mem_pagesFrom (by omega)] at hmem
    have hb := hbump.1
    unfold Aligned at hb ⊢
    omega

/-- No page of a represented pool is at the null address. -/
theorem ne_null (h : Represents s idle P) {p : Word} (hp : p ∈ P.avail ∨ p ∈ P.held) :
    p ≠ null := by
  rintro rfl
  have hlo := (h.isPage hp).2.1
  have hstart := h.start
  rw [qemuRamStart_toNat] at hstart
  have hzero : null.toNat = 0 := rfl
  omega

theorem idle_subset (h : Represents s idle P) : ∀ p ∈ idle, p ∈ P.avail := by
  obtain ⟨n, havail, -⟩ := h.avail
  intro p hp
  rw [havail]
  exact List.mem_append_left _ hp

/-- Rewriting memory only inside a page that is not listed leaves the represented pool alone. -/
theorem chain_of_outside (h : Represents s idle P) {p : Word} {mem : Memory} (hp : Aligned p)
    (hnot : p ∉ idle) (hmem : ∀ a, ¬ InPage p a → mem a = s.mem a) :
    Chain mem null s.freeList idle := by
  refine h.chain.congr fun q hq => hmem q fun hin => hnot ?_
  have hq' := (h.isPage (Or.inl (h.idle_subset q hq))).1
  rwa [eq_of_inPage hp hq' hin]

/-! ### The operations of the code are those of the pool -/

/-- Handing out a page, in either of the two ways `page_alloc` does it, is taking from the pool. -/
theorem handOut {p fl b : Word} {l : List Word} {n : ℕ} {Q : Pool Word}
    (h : Represents s idle P) (htake : P.take = some (p, Q)) (hsub : ∀ q ∈ l, q ∈ idle)
    (hlist : Chain s.mem null fl l) (hQ : Q.avail = l ++ pagesFrom b n)
    (hn : b.toNat + 4096 * n = qemuRamEnd.toNat) (hb : s.bumpNext.toNat ≤ b.toNat)
    (hman : ∀ q, q ∈ l ∨ q = p ∨ q ∈ P.held ↔
      Aligned q ∧ s.managedStart.toNat ≤ q.toNat ∧ q.toNat < b.toNat) :
    Represents (handOut p { s with freeList := fl, bumpNext := b }).2 l Q := by
  obtain ⟨havail, hheld⟩ := Pool.take_eq_some_iff.1 htake
  have hal := (h.isPage (Or.inl (Pool.mem_of_take htake))).1
  have hnot : p ∉ l := by
    intro hmem
    have hnd := P.nodup
    rw [havail, hQ] at hnd
    exact (List.nodup_cons.1 hnd).1 (List.mem_append_left _ hmem)
  constructor
  · exact h.initialized
  · -- clearing the page does not touch the links of the listed pages
    refine hlist.congr fun q hq => zeroPage_outside _ fun hin => hnot ?_
    have hq' := (h.isPage (Or.inl (h.idle_subset q (hsub q hq)))).1
    rwa [eq_of_inPage hal hq' hin]
  · exact ⟨n, hQ, hn⟩
  · intro q
    rw [hheld, Finset.mem_insert]
    exact hman q
  · exact ⟨h.start.1, h.start.2.trans hb⟩
  · have hused := h.used
    have htotal := h.total
    have hlt := s.totalPages.isLt
    rw [Pool.capacity, havail, List.length_cons] at htotal
    rw [hheld, Finset.card_insert_of_notMem (Pool.take_not_held htake)]
    change (s.usedPages + 1).toNat = _
    have hone : (1 : Word).toNat = 1 := rfl
    rw [BitVec.toNat_add_of_lt (by omega), hused, hone]
  · rw [Pool.take_capacity htake]
    exact h.total

/-- What `page_alloc` does in a state that represents a pool: it **takes from the pool**, clears
the page and returns it, or returns `null` and changes nothing when the pool has nothing left. -/
theorem alloc_cases (h : Represents s idle P) :
    (P.avail = [] ∧ pageAlloc s = (null, s)) ∨
      ∃ p t l Q, P.take = some (p, Q) ∧ pageAlloc s = (p, t) ∧ Represents t l Q ∧
        t.managedStart = s.managedStart ∧ t.totalPages = s.totalPages ∧
        t.mem = zeroPage p s.mem := by
  obtain ⟨n, havail, hn⟩ := h.avail
  have hinit : ¬ s.initialized = false := by simp [h.initialized]
  cases idle with
  | cons p l =>
      -- the list is not empty: its first page is handed out
      right
      obtain ⟨hfree, hlist⟩ := h.chain.cons_inv
      obtain ⟨Q, htake, hQ, -⟩ := Pool.exists_take havail
      have hne : s.freeList ≠ null := hfree ▸ h.ne_null (Or.inl (h.idle_subset p (by simp)))
      refine ⟨p, (PageAlloc.handOut p { s with freeList := s.mem p }).2, l, Q, htake, ?_, ?_,
        handOut_managedStart _ _, handOut_totalPages _ _, handOut_mem _ _⟩
      · rw [pageAlloc_listed h.initialized hne, hfree]
        rfl
      · refine h.handOut htake (fun q hq => List.mem_cons_of_mem p hq) hlist hQ hn le_rfl ?_
        intro q
        have hm := h.managed q
        rw [List.mem_cons] at hm
        change _ ↔ Managed s q
        rw [← hm, or_assoc, or_left_comm]
  | nil =>
      have hfree : ¬ s.freeList ≠ null := not_not.2 h.chain.eq_null
      rw [qemuRamEnd_toNat] at hn
      cases n with
      | zero =>
          -- the region is used up as well
          left
          refine ⟨havail, ?_⟩
          rw [pageAlloc, if_neg hinit, if_neg hfree, if_pos (by
            rw [BitVec.le_def, qemuRamEnd_toNat]; omega)]
      | succ n =>
          right
          rw [Nat.mul_succ] at hn
          have hroom : ¬ qemuRamEnd ≤ s.bumpNext := by
            rw [BitVec.le_def, qemuRamEnd_toNat]
            omega
          obtain ⟨Q, htake, hQ, -⟩ := Pool.exists_take havail
          have hnext : (s.bumpNext + pageSize).toNat = s.bumpNext.toNat + 4096 :=
            toNat_add_pageSize (lt_of_le_of_lt h.bump.2 (by decide))
          refine ⟨s.bumpNext, (PageAlloc.handOut s.bumpNext
            { s with bumpNext := s.bumpNext + pageSize }).2, [], Q, htake, ?_, ?_,
            handOut_managedStart _ _, handOut_totalPages _ _, handOut_mem _ _⟩
          · rw [pageAlloc, if_neg hinit, if_neg hfree, if_neg hroom]
            rfl
          · refine h.handOut htake (by simp) (h.chain.eq_null ▸ Chain.nil) hQ ?_ ?_ ?_
            · rw [hnext, qemuRamEnd_toNat]
              omega
            · omega
            · intro q
              have hm := h.managed q
              have hb := h.bump.1
              have hstart := h.start
              rw [hnext, ← BitVec.toNat_inj]
              simp only [List.not_mem_nil, false_or, Managed, Aligned] at hm hb ⊢
              rw [hm]
              omega

/-- In a state that represents a pool, the first test of `page_free` lets through the addresses of
the pages handed out so far, as long as some page is out. -/
theorem rejects_iff (h : Represents s idle P) (p : Word) :
    Rejects s p ↔ ¬ Managed s p ∨ P.held = ∅ := by
  have hstart := h.start
  have hbump := h.bump.2
  have hused : s.usedPages = 0 ↔ P.held = ∅ := by
    rw [← BitVec.toNat_inj, h.used, ← Finset.card_eq_zero]
    rfl
  have hnull : p = null ↔ p.toNat = 0 := by
    rw [← BitVec.toNat_inj]
    rfl
  rw [qemuRamStart_toNat] at hstart
  unfold Rejects Managed
  rw [hused, hnull, Ne, and_mask_eq_zero_iff, BitVec.lt_def, BitVec.le_def, BitVec.le_def,
    qemuRamEnd_toNat, h.initialized]
  simp only [Bool.true_eq_false, false_or]
  constructor
  · rintro (hp | hp | hp | hp | hp | hp)
    · exact Or.inl fun hm => by omega
    · exact Or.inl fun hm => hp hm.1
    · exact Or.inl fun hm => by omega
    · exact Or.inl fun hm => by omega
    · exact Or.inl fun hm => by omega
    · exact Or.inr hp
  · rintro (hp | hp)
    · by_cases hal : Aligned p
      · by_cases hlo : s.managedStart.toNat ≤ p.toNat
        · have hhi : s.bumpNext.toNat ≤ p.toNat := not_lt.1 fun hlt => hp ⟨hal, hlo, hlt⟩
          exact Or.inr (Or.inr (Or.inr (Or.inl hhi)))
        · exact Or.inr (Or.inr (Or.inl (not_le.1 hlo)))
      · exact Or.inr (Or.inl hal)
    · exact Or.inr (Or.inr (Or.inr (Or.inr (Or.inr hp))))

/-- `page_free_pages` counts what is available. -/
theorem freePages (h : Represents s idle P) : (pageFreePages s).toNat = P.avail.length := by
  have hused := h.used
  have htotal := h.total
  rw [Pool.capacity] at htotal
  rw [pageFreePages, BitVec.toNat_sub_of_le (by rw [BitVec.le_def]; omega), hused, htotal]
  omega

/-- The loop of `page_free` **ends**, and finds out whether the page is listed. -/
theorem onFreeList_eq (h : Represents s idle P) (p : Word) :
    onFreeList s p = some (decide (p ∈ idle)) := by
  have hlen := h.chain.length_lt_card
  rw [← FinEnum.card_eq_fintypeCard, FinEnum.card_bitVec] at hlen
  exact search_eq_of_chain h.chain hlen

/-- What `page_free` does in a state that represents a pool: it **gives a held page back**, and
refuses every other address without changing anything. -/
theorem free_cases (h : Represents s idle P) (p : Word) :
    (p ∉ P.held ∧ pageFree p s = some (false, s)) ∨
      ∃ hp : p ∈ P.held, pageFree p s = some (true, release p s) ∧
        Represents (release p s) (p :: idle) (P.give p hp) := by
  by_cases hp : p ∈ P.held
  · right
    have hm : Managed s p := (h.managed p).1 (Or.inr hp)
    have hnot : p ∉ idle := fun hmem => P.disjoint p hp (h.idle_subset p hmem)
    have hrej : ¬ Rejects s p := by
      rw [h.rejects_iff]
      rintro (hp' | hempty)
      · exact hp' hm
      · rw [hempty] at hp
        exact absurd hp (Finset.notMem_empty p)
    refine ⟨hp, ?_, ?_⟩
    · rw [pageFree, if_neg hrej, h.onFreeList_eq]
      simp [hnot]
    · obtain ⟨n, havail, hn⟩ := h.avail
      have hpos : 0 < P.held.card := Finset.card_pos.2 ⟨p, hp⟩
      have hused := h.used
      constructor
      · exact h.initialized
      · exact h.chain.push (h.ne_null (Or.inr hp)) hnot
      · exact ⟨n, by rw [Pool.give_avail, havail]; rfl, hn⟩
      · intro q
        have hq := h.managed q
        rw [Pool.give_held, Finset.mem_erase, List.mem_cons]
        change _ ↔ Managed s q
        rw [← hq]
        constructor
        · rintro ((rfl | hq') | hq')
          · exact Or.inr hp
          · exact Or.inl hq'
          · exact Or.inr hq'.2
        · rintro (hq' | hq')
          · exact Or.inl (Or.inr hq')
          · by_cases hqp : q = p
            · exact Or.inl (Or.inl hqp)
            · exact Or.inr ⟨hqp, hq'⟩
      · exact h.start
      · have hone : (1 : Word).toNat = 1 := rfl
        rw [release_usedPages, Pool.give_held, Finset.card_erase_of_mem hp,
          BitVec.toNat_sub_of_le (by rw [BitVec.le_def]; omega), hused, hone]
      · rw [release_totalPages, Pool.give_capacity]
        exact h.total
  · left
    refine ⟨hp, ?_⟩
    by_cases hrej : Rejects s p
    · rw [pageFree, if_pos hrej]
    · -- an address let through is a page handed out so far, hence listed
      rw [h.rejects_iff, not_or, not_not] at hrej
      have hmem : p ∈ idle := ((h.managed p).2 hrej.1).resolve_right hp
      rw [pageFree, if_neg (by rw [h.rejects_iff, not_or, not_not]; exact hrej), h.onFreeList_eq]
      simp [hmem]

/-- A client that writes into a page it holds **does not touch the allocator**. -/
theorem write (h : Represents s idle P) {p : Word} (hp : p ∈ P.held) (contents : ℕ → Word) :
    Represents { s with mem := writePage p contents s.mem } idle P where
  initialized := h.initialized
  chain := h.chain_of_outside (h.isPage (Or.inr hp)).1
    (fun hmem => P.disjoint p hp (h.idle_subset p hmem)) fun _ => writePage_outside contents s.mem
  avail := h.avail
  managed := h.managed
  start := h.start
  used := h.used
  total := h.total

end Represents

/-! ### The initial pool -/

/-- The start of the managed region that `page_alloc_init` computes. -/
def initialStart (kernelEnd : Word) : Word :=
  if alignUpToPage kernelEnd < qemuRamStart ∨ qemuRamEnd < alignUpToPage kernelEnd then qemuRamEnd
  else alignUpToPage kernelEnd

/-- The managed region starts at the end of the kernel rounded up to a page when that lies in RAM,
and at the end of RAM otherwise; the wrap of the rounding does not matter. -/
theorem initialStart_toNat (kernelEnd : Word) :
    (initialStart kernelEnd).toNat =
      if 0x40000000 ≤ (kernelEnd.toNat + 4095) / 4096 * 4096 ∧
          (kernelEnd.toNat + 4095) / 4096 * 4096 ≤ 0x48000000 then
        (kernelEnd.toNat + 4095) / 4096 * 4096
      else 0x48000000 := by
  have hup := alignUpToPage_toNat kernelEnd
  have hlt := kernelEnd.isLt
  unfold initialStart
  split
  · next hout =>
      rw [BitVec.lt_def, BitVec.lt_def, qemuRamStart_toNat, qemuRamEnd_toNat] at hout
      rw [qemuRamEnd_toNat]
      split at hup <;> split <;> omega
  · next hin =>
      rw [BitVec.lt_def, BitVec.lt_def, qemuRamStart_toNat, qemuRamEnd_toNat] at hin
      split at hup <;> split <;> omega

/-- The initial start of the region is aligned, in RAM, and past the kernel unless the region is
empty. -/
theorem initialStart_spec (kernelEnd : Word) :
    Aligned (initialStart kernelEnd) ∧ 0x40000000 ≤ (initialStart kernelEnd).toNat ∧
      (initialStart kernelEnd).toNat ≤ 0x48000000 ∧
      ((initialStart kernelEnd).toNat < 0x48000000 →
        kernelEnd.toNat ≤ (initialStart kernelEnd).toNat) := by
  unfold Aligned
  rw [initialStart_toNat]
  split <;> omega

/-- `page_alloc_init` does not write to the pages. -/
theorem pageAllocInit_mem (kernelEnd : Word) (s : State) : (pageAllocInit kernelEnd s).mem = s.mem := by
  simp only [pageAllocInit]
  split
  · rfl
  · -- whether or not the kernel has left pages
    split <;> rfl

/-- What `page_alloc_init` leaves behind at boot. -/
theorem pageAllocInit_boot (kernelEnd : Word) (mem : Memory) :
    pageAllocInit kernelEnd (State.boot mem) =
      { managedStart := initialStart kernelEnd
        bumpNext := initialStart kernelEnd
        freeList := null
        totalPages := (qemuRamEnd - initialStart kernelEnd) / pageSize
        usedPages := 0
        initialized := true
        mem := mem } := by
  unfold pageAllocInit initialStart State.boot
  simp only [Bool.false_eq_true, if_false]
  split
  · rfl
  · rfl

/-- The number of pages `page_alloc_init` counts. -/
theorem initialTotal_toNat (kernelEnd : Word) :
    ((qemuRamEnd - initialStart kernelEnd) / pageSize).toNat =
      (0x48000000 - (initialStart kernelEnd).toNat) / 4096 := by
  have hspec := initialStart_spec kernelEnd
  rw [BitVec.toNat_udiv, BitVec.toNat_sub_of_le (by rw [BitVec.le_def, qemuRamEnd_toNat]; omega)]
  rfl

/-- `page_alloc_init` **builds a pool** of all the whole pages between the kernel and the end of
RAM. -/
theorem represents_init (kernelEnd : Word) (mem : Memory) :
    ∃ P : Pool Word, Represents (pageAllocInit kernelEnd (State.boot mem)) [] P ∧ P.held = ∅ := by
  obtain ⟨hal, hlo, hhi, -⟩ := initialStart_spec kernelEnd
  obtain ⟨n, hn⟩ : ∃ n, (initialStart kernelEnd).toNat + 4096 * n = 0x48000000 :=
    ⟨(0x48000000 - (initialStart kernelEnd).toNat) / 4096, by unfold Aligned at hal; omega⟩
  refine ⟨Pool.full (pagesFrom (initialStart kernelEnd) n) (pagesFrom_nodup (by omega)), ?_, rfl⟩
  rw [pageAllocInit_boot]
  constructor
  · rfl
  · exact Chain.nil
  · exact ⟨n, rfl, hn⟩
  · intro p
    simp only [Pool.full, List.not_mem_nil, Finset.notMem_empty, or_self, Managed, false_iff]
    omega
  · exact ⟨hlo, le_rfl⟩
  · rfl
  · change _ = (pagesFrom (initialStart kernelEnd) n).length + (∅ : Finset Word).card
    rw [initialTotal_toNat, pagesFrom_length, Finset.card_empty]
    omega

end PageAlloc

end MiniOs
