/-
**The physical page allocator (`src/page_alloc.c`).**

The allocator manages the 4 KiB pages between the end of the kernel image and the end of RAM.
Pages that were never handed out form a region from `bumpNext` on; pages that came back form a
list threaded through their own first words.  This module is the code, function by function, over
a memory of 64-bit words; what it does over whole runs is `MiniOs/PagePool.lean`.

Main definitions:

* `PageAlloc.State` — the static variables of the file, and the memory;
* `PageAlloc.zeroPage`, `PageAlloc.writePage` — clearing a page, and a client rewriting one;
* `PageAlloc.pageAllocInit`, `PageAlloc.pageAlloc`, `PageAlloc.pageFree`,
  `PageAlloc.pageFreePages` — the interface of the file.

Main results:

* `PageAlloc.alignUpToPage_toNat` — rounding up to a page, with the wrap at the top of the address
  space;
* `PageAlloc.zeroPage_inside`, `PageAlloc.zeroPage_outside` — clearing a page clears its words and
  no others.
-/

import Mathlib.Data.FinEnum
import Mathlib.Logic.Function.Basic
import MiniOs.Machine
import MiniOs.NullChain

set_option relaxedAutoImplicit false
set_option autoImplicit false

namespace MiniOs

namespace PageAlloc

/-! ### Constants and state -/

/-- `PAGE_SIZE`. -/
def pageSize : Word := 4096#64

/-- `QEMU_RAM_START`. -/
def qemuRamStart : Word := 0x40000000#64

/-- `QEMU_RAM_END`. -/
def qemuRamEnd : Word := 0x48000000#64

/-- The static variables of the allocator, together with the memory that holds the pages. -/
structure State where
  managedStart : Word
  bumpNext : Word
  /-- The first page that came back, or `null`; the link to the next one is its first word. -/
  freeList : Word
  totalPages : Word
  usedPages : Word
  initialized : Bool
  mem : Memory

/-- The state at boot: static variables are zero, the memory is anything. -/
def State.boot (mem : Memory) : State where
  managedStart := 0
  bumpNext := 0
  freeList := null
  totalPages := 0
  usedPages := 0
  initialized := false
  mem := mem

/-! ### The words of a page -/

/-- The loop of `zero_page` after its first `n` iterations, which have stored zero to the first `n`
words of the page. -/
def zeroWords (page : Word) : ℕ → Memory → Memory
  | 0, mem => mem
  | n + 1, mem => Function.update (zeroWords page n mem) (page + BitVec.ofNat 64 (8 * n)) 0

/-- Model of `zero_page`. -/
@[irreducible] def zeroPage (page : Word) (mem : Memory) : Memory := zeroWords page 512 mem

/-- The address `a` lies in the page that starts at `page`. -/
def InPage (page a : Word) : Prop := (a - page).toNat < 4096

instance (page a : Word) : Decidable (InPage page a) := inferInstanceAs (Decidable (_ < _))

/-- A client rewrites the page that starts at `page`: afterwards the word at each offset is the
one `contents` gives.  Every store of a client into its page is such a rewriting. -/
def writePage (page : Word) (contents : ℕ → Word) (mem : Memory) : Memory :=
  fun a => if InPage page a then contents (a - page).toNat else mem a

/-! ### The functions of the file -/

/-- Model of `align_up_to_page`. -/
def alignUpToPage (address : Word) : Word := (address + pageSize - 1) &&& ~~~(pageSize - 1)

/-- Model of `page_alloc_init`; `kernelEnd` is the address of the linker symbol `__kernel_end`. -/
def pageAllocInit (kernelEnd : Word) (s : State) : State :=
  let start := alignUpToPage kernelEnd
  if s.initialized then s
  else
    let s := { s with freeList := null, usedPages := 0, initialized := true }
    -- the kernel ends outside RAM, or rounding its end up has wrapped
    if start < qemuRamStart ∨ qemuRamEnd < start then
      { s with managedStart := qemuRamEnd, bumpNext := qemuRamEnd, totalPages := 0 }
    else
      { s with
        managedStart := start
        bumpNext := start
        totalPages := (qemuRamEnd - start) / pageSize }

/-- The common end of `page_alloc`: count the page, clear it and return it. -/
def handOut (page : Word) (s : State) : Word × State :=
  (page, { s with usedPages := s.usedPages + 1, mem := zeroPage page s.mem })

@[simp] theorem handOut_managedStart (page : Word) (s : State) :
    (handOut page s).2.managedStart = s.managedStart := rfl

@[simp] theorem handOut_bumpNext (page : Word) (s : State) :
    (handOut page s).2.bumpNext = s.bumpNext := rfl

@[simp] theorem handOut_freeList (page : Word) (s : State) :
    (handOut page s).2.freeList = s.freeList := rfl

@[simp] theorem handOut_totalPages (page : Word) (s : State) :
    (handOut page s).2.totalPages = s.totalPages := rfl

@[simp] theorem handOut_mem (page : Word) (s : State) :
    (handOut page s).2.mem = zeroPage page s.mem := rfl

/-- Model of `page_alloc`. -/
def pageAlloc (s : State) : Word × State :=
  if s.initialized = false then (null, s)
  -- a page that came back goes out again before one that was never handed out
  else if s.freeList ≠ null then handOut s.freeList { s with freeList := s.mem s.freeList }
  else if qemuRamEnd ≤ s.bumpNext then (null, s)
  else handOut s.bumpNext { s with bumpNext := s.bumpNext + pageSize }

/-- The three ways `page_alloc` ends: it refuses and changes nothing, or hands out the first listed
page, or hands out the first page of the region. -/
theorem pageAlloc_cases {page : Word} {s t : State} (h : pageAlloc s = (page, t)) :
    page = null ∧ t = s ∨
      (s.freeList ≠ null ∧ page = s.freeList ∧
        t = (handOut page { s with freeList := s.mem page }).2) ∨
      (s.freeList = null ∧ s.bumpNext < qemuRamEnd ∧ page = s.bumpNext ∧
        t = (handOut page { s with bumpNext := s.bumpNext + pageSize }).2) := by
  unfold pageAlloc at h
  split at h
  · obtain ⟨rfl, rfl⟩ := Prod.mk.inj h
    exact Or.inl ⟨rfl, rfl⟩
  · split at h
    · next hlist =>
        obtain ⟨rfl, rfl⟩ := Prod.mk.inj h
        exact Or.inr (Or.inl ⟨hlist, rfl, rfl⟩)
    · next hlist =>
        split at h
        · obtain ⟨rfl, rfl⟩ := Prod.mk.inj h
          exact Or.inl ⟨rfl, rfl⟩
        · next hroom =>
            obtain ⟨rfl, rfl⟩ := Prod.mk.inj h
            exact Or.inr (Or.inr ⟨not_not.1 hlist, BitVec.not_le.1 hroom, rfl, rfl⟩)

/-- The first listed page is the next one handed out. -/
theorem pageAlloc_listed {s : State} (hinit : s.initialized = true) (hne : s.freeList ≠ null) :
    pageAlloc s = handOut s.freeList { s with freeList := s.mem s.freeList } := by
  have hready : ¬ s.initialized = false := by simp [hinit]
  rw [pageAlloc, if_neg hready, if_pos hne]

/-- The first test of `page_free`: the address cannot be that of an outstanding page. -/
def Rejects (s : State) (page : Word) : Prop :=
  s.initialized = false ∨ page = null ∨ page &&& (pageSize - 1) ≠ 0 ∨ page < s.managedStart ∨
    s.bumpNext ≤ page ∨ qemuRamEnd ≤ page ∨ s.usedPages = 0

instance (s : State) (page : Word) : Decidable (Rejects s page) := by
  unfold Rejects
  infer_instance

/-- The loop of `page_free` over the free list.  A walk that has not ended after `2 ^ 64` steps
has repeated an address and never ends (`NullChain.search_card`). -/
def onFreeList (s : State) (page : Word) : Option Bool :=
  NullChain.search s.mem null page (2 ^ 64) s.freeList

/-- A walk over the free list that ends under any bound ends with the same answer under the bound of
the model. -/
theorem onFreeList_of_search {s : State} {page : Word} {fuel : ℕ} {b : Bool} (hp : page ≠ null)
    (h : NullChain.search s.mem null page fuel s.freeList = some b) : onFreeList s page = some b := by
  have hcard := NullChain.search_card hp h
  rwa [← FinEnum.card_eq_fintypeCard, FinEnum.card_bitVec] at hcard

/-- The end of `page_free`: put the page in front of the free list and stop counting it. -/
def release (page : Word) (s : State) : State :=
  { s with
    mem := Function.update s.mem page s.freeList
    freeList := page
    usedPages := s.usedPages - 1 }

@[simp] theorem release_totalPages (page : Word) (s : State) :
    (release page s).totalPages = s.totalPages := rfl

@[simp] theorem release_usedPages (page : Word) (s : State) :
    (release page s).usedPages = s.usedPages - 1 := rfl

@[simp] theorem release_mem (page : Word) (s : State) :
    (release page s).mem = Function.update s.mem page s.freeList := rfl

/-- Model of `page_free`, which returns whether it took the page back; `none` when the loop over
the free list does not end. -/
def pageFree (page : Word) (s : State) : Option (Bool × State) :=
  if Rejects s page then some (false, s)
  else
    match onFreeList s page with
    | none => none
    | some true => some (false, s)
    | some false => some (true, release page s)

/-- The two ways `page_free` ends: it refuses and changes nothing, or takes the page back. -/
theorem pageFree_cases {page : Word} {s t : State} {freed : Bool}
    (h : pageFree page s = some (freed, t)) :
    freed = false ∧ t = s ∨ freed = true ∧ t = release page s := by
  unfold pageFree at h
  split at h
  · obtain ⟨rfl, rfl⟩ := Prod.mk.inj (Option.some_inj.1 h)
    exact Or.inl ⟨rfl, rfl⟩
  · split at h
    · exact absurd h (by simp)
    · obtain ⟨rfl, rfl⟩ := Prod.mk.inj (Option.some_inj.1 h)
      exact Or.inl ⟨rfl, rfl⟩
    · obtain ⟨rfl, rfl⟩ := Prod.mk.inj (Option.some_inj.1 h)
      exact Or.inr ⟨rfl, rfl⟩

/-- Model of `page_free_pages`. -/
def pageFreePages (s : State) : Word := s.totalPages - s.usedPages

/-! ### Alignment -/

/-- An address is the address of a page. -/
def Aligned (a : Word) : Prop := a.toNat % 4096 = 0

theorem toNat_and_mask (a : Word) : (a &&& (pageSize - 1)).toNat = a.toNat % 4096 := by
  have h : (pageSize - 1).toNat = 2 ^ 12 - 1 := by decide
  rw [BitVec.toNat_and, h, Nat.and_two_pow_sub_one_eq_mod]

/-- The mask test of `page_free` is the test for alignment. -/
theorem and_mask_eq_zero_iff (a : Word) : a &&& (pageSize - 1) = 0 ↔ Aligned a := by
  rw [← BitVec.toNat_inj, toNat_and_mask]
  rfl

/-- Clearing the low bits rounds down to a page. -/
theorem toNat_and_not_mask (a : Word) :
    (a &&& ~~~(pageSize - 1)).toNat = a.toNat - a.toNat % 4096 := by
  have hsum : (a &&& ~~~(pageSize - 1)) + (a &&& (pageSize - 1)) = a := by
    have hdisj : (a &&& ~~~(pageSize - 1)) &&& (a &&& (pageSize - 1)) = 0#64 := by
      ext i hi
      simp only [BitVec.getElem_and, BitVec.getElem_not, BitVec.getElem_zero]
      cases a[i] <;> cases (pageSize - 1)[i] <;> rfl
    rw [BitVec.add_eq_or_of_and_eq_zero _ _ hdisj]
    ext i hi
    simp only [BitVec.getElem_and, BitVec.getElem_or, BitVec.getElem_not]
    cases a[i] <;> cases (pageSize - 1)[i] <;> rfl
  have hle : (a &&& ~~~(pageSize - 1)).toNat ≤ a.toNat := by
    rw [BitVec.toNat_and]
    exact Nat.and_le_left
  have hmod := toNat_and_mask a
  have hnat := congrArg BitVec.toNat hsum
  rw [BitVec.toNat_add, hmod] at hnat
  have hlt := a.isLt
  omega

/-- **Rounding up to a page.**  The sum with the page size may wrap; the result then is zero. -/
theorem alignUpToPage_toNat (a : Word) :
    (alignUpToPage a).toNat = if a.toNat + 4095 < 2 ^ 64 then (a.toNat + 4095) / 4096 * 4096
      else 0 := by
  have hsum : (a + pageSize - 1).toNat = (a.toNat + 4095) % 2 ^ 64 := by
    simp only [pageSize]
    bv_omega
  have hlt := a.isLt
  rw [alignUpToPage, toNat_and_not_mask, hsum]
  split <;> omega

/-! ### The words of a page -/

/-- Two pages that overlap are the same page. -/
theorem eq_of_inPage {p q : Word} (hp : Aligned p) (hq : Aligned q) (h : InPage p q) : p = q := by
  unfold Aligned at hp hq
  unfold InPage at h
  bv_omega

/-- Different pages share no address. -/
theorem not_inPage_of_ne {p q a : Word} (hp : Aligned p) (hq : Aligned q) (hne : p ≠ q)
    (h : InPage p a) : ¬ InPage q a := by
  unfold Aligned at hp hq
  unfold InPage at h ⊢
  intro h'
  apply hne
  bv_omega

@[simp] theorem inPage_self (p : Word) : InPage p p := by simp [InPage]

/-- The words of a page lie in it. -/
theorem inPage_word (page : Word) {i : ℕ} (hi : i < 512) :
    InPage page (page + BitVec.ofNat 64 (8 * i)) := by
  have hoff : (page + BitVec.ofNat 64 (8 * i) - page).toNat = 8 * i := by
    rw [BitVec.add_comm, BitVec.add_sub_cancel, BitVec.toNat_ofNat]
    omega
  unfold InPage
  omega

/-- Writing a page changes none of the words outside it. -/
theorem writePage_outside {page a : Word} (contents : ℕ → Word) (mem : Memory)
    (h : ¬ InPage page a) : writePage page contents mem a = mem a := if_neg h

theorem zeroWords_inside (page : Word) (mem : Memory) {n i : ℕ} (hi : i < n) :
    zeroWords page n mem (page + BitVec.ofNat 64 (8 * i)) = 0 := by
  induction n with
  | zero => omega
  | succ n ih =>
      rw [zeroWords, Function.update_apply]
      split
      · rfl
      · next hne =>
          refine ih ?_
          rcases Nat.lt_succ_iff_lt_or_eq.1 hi with hi | rfl
          · exact hi
          · exact absurd rfl hne

theorem zeroWords_outside {page a : Word} (mem : Memory) {n : ℕ}
    (h : ∀ i < n, a ≠ page + BitVec.ofNat 64 (8 * i)) : zeroWords page n mem a = mem a := by
  induction n with
  | zero => rfl
  | succ n ih =>
      rw [zeroWords, Function.update_of_ne (h n (by omega))]
      exact ih fun i hi => h i (by omega)

/-- A **cleared page holds zero in each of its words**. -/
theorem zeroPage_inside (page : Word) (mem : Memory) {i : ℕ} (hi : i < 512) :
    zeroPage page mem (page + BitVec.ofNat 64 (8 * i)) = 0 := by
  unfold zeroPage
  exact zeroWords_inside page mem hi

/-- Clearing a page changes none of the words outside it. -/
theorem zeroPage_outside {page a : Word} (mem : Memory) (h : ¬ InPage page a) :
    zeroPage page mem a = mem a := by
  unfold zeroPage
  refine zeroWords_outside mem ?_
  rintro i hi rfl
  exact h (inPage_word page hi)

/-- Clearing a page does not touch the first word of another. -/
theorem zeroPage_of_ne {p q : Word} (hp : Aligned p) (hq : Aligned q) (hne : p ≠ q) (mem : Memory) :
    zeroPage p mem q = mem q := zeroPage_outside mem fun h => hne (eq_of_inPage hp hq h)

/-- Writing a page does not touch the first word of another. -/
theorem writePage_of_ne {p q : Word} (hp : Aligned p) (hq : Aligned q) (hne : p ≠ q)
    (contents : ℕ → Word) (mem : Memory) : writePage p contents mem q = mem q :=
  writePage_outside contents mem fun h => hne (eq_of_inPage hp hq h)

/-- The first word of a written page is the one the client gave. -/
@[simp] theorem writePage_self (p : Word) (contents : ℕ → Word) (mem : Memory) :
    writePage p contents mem p = contents 0 := by simp [writePage]

end PageAlloc

end MiniOs
