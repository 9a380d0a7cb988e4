/-
**The self test of the page allocator (`command_memtest` in `src/shell.c`).**

The command allocates three pages, writes to them, frees one of them twice, frees the others and
allocates once more.  It may be called in any state that the clients of the allocator can reach, also
when there are not three pages left.  Its arrays are lists here; the entries that a loop did not get
to are null, as the initialisers leave them.

Main definitions:

* `Memtest.allocatePages`, `Memtest.writePatterns`, `Memtest.checkPatterns`, `Memtest.freePages` —
  the loops of the command;
* `Memtest.commandMemtest` — **the command**;
* `Memtest.Preserves` — the contents of pages are unchanged.

Main results:

* `Memtest.allocatePages_spec`, `Memtest.writePatterns_spec`, `Memtest.freePages_spec` — what each
  loop does;
* `Memtest.memtest_sound` — **the test passes just when three pages are free, and leaves the
  allocator and the outstanding pages as they were**.
-/

import MiniOs.PageOwnership
import MiniOs.ShellCommands

set_option relaxedAutoImplicit false
set_option autoImplicit false

namespace MiniOs

namespace Memtest

open PageAlloc
open NullChain (Chain)

/-! ### The loops -/

/-- `MEMORY_TEST_PAGE_COUNT`. -/
def memoryTestPageCount : ℕ := 3

/-- The address of `words[index]`. -/
def wordAddress (page : Word) (index : ℕ) : Word := page + BitVec.ofNat 64 (8 * index)

/-- Model of `page_is_zero`. -/
def pageIsZero (mem : Memory) (page : Word) : Bool :=
  (List.range 512).all fun index => mem (wordAddress page index) = 0

/-- The first loop, with `n` iterations to go: whether it has passed, the rest of the array `pages`,
and the state. -/
def allocatePages : ℕ → State → Bool × List Word × State
  | 0, s => (true, [], s)
  | n + 1, s =>
      let (page, s) := pageAlloc s
      if page = null ∨ page &&& (pageSize - 1) ≠ 0 ∨ pageIsZero s.mem page = false then
        (false, page :: List.replicate n null, s)
      else
        let (passed, pages, s) := allocatePages n s
        (passed, page :: pages, s)

/-- The stores into the page at `index` of the array. -/
def writePattern (index : ℕ) (page : Word) (mem : Memory) : Memory :=
  let mem := Function.update mem (wordAddress page 0) (BitVec.ofNat 64 (0xa000 + index))
  let mem := Function.update mem (wordAddress page 256) (BitVec.ofNat 64 (0xb000 + index))
  Function.update mem (wordAddress page 511) (BitVec.ofNat 64 (0xc000 + index))

/-- The loop that writes to the pages, from an index on. -/
def writePatterns : ℕ → List Word → Memory → Memory
  | _, [], mem => mem
  | index, page :: pages, mem => writePatterns (index + 1) pages (writePattern index page mem)

/-- The loop that reads the pages, from an index on: whether all the words are as written. -/
def checkPatterns (mem : Memory) : ℕ → List Word → Bool
  | _, [] => true
  | index, page :: pages =>
      mem (wordAddress page 0) = BitVec.ofNat 64 (0xa000 + index) &&
        mem (wordAddress page 256) = BitVec.ofNat 64 (0xb000 + index) &&
        mem (wordAddress page 511) = BitVec.ofNat 64 (0xc000 + index) &&
        checkPatterns mem (index + 1) pages

/-- The loop that frees the pages: whether each call has returned 1. -/
def freePages : List Word → State → Option (Bool × State)
  | [], s => some (true, s)
  | page :: pages, s =>
      if page ≠ null then do
        let (freed, s) ← pageFree page s
        let (allFreed, s) ← freePages pages s
        return (freed && allFreed, s)
      else freePages pages s

/-! ### The command -/

/-- The verdict of the command. -/
def verdict (passed : Bool) : List Byte :=
  Shell.bytes (if passed then "memtest: PASS\n" else "memtest: FAIL\n")

/-- The command from the loop that frees the pages on. -/
def finish (freeBefore : Word) (originalPages : List Word) (passed : Bool) (pages : List Word)
    (s : State) : Option (List Byte × State) := do
  let (allFreed, s) ← freePages pages s
  let passed := passed && allFreed
  let (passed, reusedPage, s) :=
    if passed && pageFreePages s = freeBefore then
      let (reusedPage, s) := pageAlloc s
      (reusedPage ≠ null && pageIsZero s.mem reusedPage && originalPages.contains reusedPage,
        reusedPage, s)
    else (false, null, s)
  let (passed, s) ←
    if reusedPage ≠ null then do
      let (freed, s) ← pageFree reusedPage s
      pure (passed && freed, s)
    else pure (passed, s)
  return (verdict (passed && pageFreePages s = freeBefore), s)

/-- Model of `command_memtest`: what it prints, and the state afterwards; `none` when a call of
`page_free` does not end. -/
def commandMemtest (s : State) : Option (List Byte × State) := do
  let freeBefore := pageFreePages s
  let (passed, pages, s) := allocatePages memoryTestPageCount s
  let originalPages := pages
  let s := if passed then { s with mem := writePatterns 0 pages s.mem } else s
  if passed && checkPatterns s.mem 0 pages then
    let (freed, s) ← pageFree (pages.getD 0 null) s
    if freed then
      let (freedAgain, s) ← pageFree (pages.getD 0 null) s
      if freedAgain then return (Shell.bytes "memtest: FAIL (double-free was accepted)\n", s)
      else finish freeBefore originalPages true (pages.set 0 null) s
    else finish freeBefore originalPages false pages s
  else finish freeBefore originalPages false pages s

/-! ### Contents of pages -/

/-- The pages have the same contents in both states. -/
def Preserves (out : Finset Word) (s t : State) : Prop :=
  ∀ p ∈ out, ∀ x, InPage p x → t.mem x = s.mem x

theorem Preserves.refl (out : Finset Word) (s : State) : Preserves out s s := fun _ _ _ _ => rfl

theorem Preserves.trans {out : Finset Word} {s t u : State} (h : Preserves out s t)
    (h' : Preserves out t u) : Preserves out s u := fun p hp x hx =>
  (h' p hp x hx).trans (h p hp x hx)

theorem Preserves.subset {out out' : Finset Word} {s t : State} (h : Preserves out s t)
    (hsub : out' ⊆ out) : Preserves out' s t := fun p hp => h p (hsub hp)

theorem pageIsZero_zeroPage (page : Word) (mem : Memory) :
    pageIsZero (zeroPage page mem) page = true := by
  rw [pageIsZero, List.all_eq_true]
  intro index hindex
  exact decide_eq_true (zeroPage_inside page mem (List.mem_range.1 hindex))

section Loops

variable {kernelEnd : Word} {s : State} {out : Finset Word}

/-- Clearing a page that is not out preserves the pages that are. -/
theorem preserves_zeroPage (h : (clients kernelEnd).Reachable ⟨s, out⟩) {p : Word}
    (hal : Aligned p) (hp : p ∉ out) {t : State} (ht : t.mem = zeroPage p s.mem) :
    Preserves out s t := by
  intro q hq x hx
  have hqp : q ≠ p := fun heq => hp (heq ▸ hq)
  rw [ht]
  exact zeroPage_outside _ (not_inPage_of_ne (reachable_mem h hq).1 hal hqp hx)

/-- A store into a page that is out preserves the others. -/
theorem preserves_update (h : (clients kernelEnd).Reachable ⟨s, out⟩) {p x : Word} (hp : p ∈ out)
    (hx : InPage p x) {t : State} {v : Word} (ht : t.mem = Function.update s.mem x v) :
    Preserves (out.erase p) s t := by
  intro q hq y hy
  obtain ⟨hqp, hq⟩ := Finset.mem_erase.1 hq
  have hout := not_inPage_of_ne (reachable_mem h hq).1 (reachable_mem h hp).1 hqp hy
  rw [ht]
  exact Function.update_of_ne (fun heq : y = x => hout (by rwa [heq])) _ _

/-- **The first loop** gets as many pages as there are, up to the number it asks for; the pages are
all different, and were not out. -/
theorem allocatePages_spec (n : ℕ) (h : (clients kernelEnd).Reachable ⟨s, out⟩) :
    ∃ pages t passed,
      allocatePages n s = (passed, pages ++ List.replicate (n - pages.length) null, t) ∧
      (passed = true ↔ n ≤ (pageFreePages s).toNat) ∧ (passed = true → pages.length = n) ∧
      pages.Nodup ∧ (∀ p ∈ pages, p ∉ out) ∧
      (clients kernelEnd).Reachable ⟨t, out ∪ pages.toFinset⟩ ∧ Preserves out s t := by
  induction n generalizing s out with
  | zero =>
      refine ⟨[], s, true, rfl, by simp, by simp, List.nodup_nil, by simp, ?_, Preserves.refl _ _⟩
      simpa using h
  | succ n ih =>
      obtain ⟨page, t, halloc⟩ : ∃ page t, pageAlloc s = (page, t) := ⟨_, _, rfl⟩
      have hfree := reachable_alloc_null_iff h
      rw [halloc] at hfree
      by_cases hnull : page = null
      · -- nothing is left
        have hzero := hfree.1 hnull
        rw [hnull] at halloc
        have ht : t = s := reachable_alloc_null h halloc
        refine ⟨[], t, false, ?_, by rw [hzero]; simp, by simp, List.nodup_nil, by simp, ?_, ?_⟩
        · rw [allocatePages, halloc]
          rfl
        · simpa [ht] using h
        · rw [ht]
          exact Preserves.refl _ _
      · -- the page passes all the tests of the loop
        obtain ⟨hnotOut, hmem, hreach⟩ := reachable_alloc h halloc hnull
        obtain ⟨hal, -, -⟩ := reachable_mem hreach (Finset.mem_insert_self page out)
        obtain ⟨pages, u, passed, hrest, hpassed, hlength, hnodup, hnew, hreach', hpres⟩ := ih hreach
        have htests : ¬ (page = null ∨ page &&& (pageSize - 1) ≠ 0 ∨
            pageIsZero t.mem page = false) := by
          rw [hmem, pageIsZero_zeroPage, Ne, and_mask_eq_zero_iff]
          rintro (hbad | hbad | hbad)
          · exact hnull hbad
          · exact hbad hal
          · cases hbad
        have hcount := reachable_freePages h
        have hcount' := reachable_freePages hreach
        rw [Finset.card_insert_of_notMem hnotOut] at hcount'
        refine ⟨page :: pages, u, passed, ?_, ?_, ?_, ?_, ?_, ?_, ?_⟩
        · rw [allocatePages, halloc]
          simp only [if_neg htests, hrest, List.length_cons, Nat.add_sub_add_right,
            List.cons_append]
        · rw [hpassed]
          omega
        · intro h
          rw [List.length_cons, hlength h]
        · refine List.nodup_cons.2 ⟨fun hmem => ?_, hnodup⟩
          exact hnew page hmem (Finset.mem_insert_self page out)
        · intro p hp
          rcases List.mem_cons.1 hp with rfl | hp
          · exact hnotOut
          · exact fun hout => hnew p hp (Finset.mem_insert_of_mem hout)
        · rwa [List.toFinset_cons, Finset.union_insert, ← Finset.insert_union]
        · exact (preserves_zeroPage h hal hnotOut hmem).trans
            (hpres.subset (Finset.subset_insert page out))

/-! ### The patterns -/

theorem writePattern_outside {index : ℕ} {page x : Word} (mem : Memory) (h : ¬ InPage page x) :
    writePattern index page mem x = mem x := by
  have hne : ∀ {i}, i < 512 → x ≠ wordAddress page i := by
    rintro i hi rfl
    exact h (inPage_word page hi)
  rw [writePattern, Function.update_of_ne (hne (by decide)), Function.update_of_ne (hne (by decide)),
    Function.update_of_ne (hne (by decide))]

theorem writePatterns_outside {index : ℕ} {pages : List Word} {x : Word} (mem : Memory)
    (h : ∀ p ∈ pages, ¬ InPage p x) : writePatterns index pages mem x = mem x := by
  induction pages generalizing index mem with
  | nil => rfl
  | cons page pages ih =>
      rw [List.forall_mem_cons] at h
      rw [writePatterns, ih _ h.2, writePattern_outside mem h.1]

/-- Different words of a page have different addresses. -/
theorem wordAddress_ne {page : Word} {i j : ℕ} (hi : i < 512) (hj : j < 512) (hne : i ≠ j) :
    wordAddress page i ≠ wordAddress page j := by
  intro h
  have hsum := congrArg (· - page) h
  simp only [wordAddress, BitVec.add_comm page, BitVec.add_sub_cancel] at hsum
  have hvalue := congrArg BitVec.toNat hsum
  rw [BitVec.toNat_ofNat, BitVec.toNat_ofNat] at hvalue
  omega

/-- The words of a page are as written. -/
theorem writePattern_words (index : ℕ) (page : Word) (mem : Memory) :
    writePattern index page mem (wordAddress page 0) = BitVec.ofNat 64 (0xa000 + index) ∧
      writePattern index page mem (wordAddress page 256) = BitVec.ofNat 64 (0xb000 + index) ∧
      writePattern index page mem (wordAddress page 511) = BitVec.ofNat 64 (0xc000 + index) := by
  have h0 : wordAddress page 0 ≠ wordAddress page 256 :=
    wordAddress_ne (by decide) (by decide) (by decide)
  have h0' : wordAddress page 0 ≠ wordAddress page 511 :=
    wordAddress_ne (by decide) (by decide) (by decide)
  have h1 : wordAddress page 256 ≠ wordAddress page 511 :=
    wordAddress_ne (by decide) (by decide) (by decide)
  unfold writePattern
  refine ⟨?_, ?_, Function.update_self _ _ _⟩
  · rw [Function.update_of_ne h0', Function.update_of_ne h0, Function.update_self]
  · rw [Function.update_of_ne h1, Function.update_self]

/-- **The patterns are read as written**, since the pages share no address. -/
theorem checkPatterns_writePatterns {index : ℕ} {pages : List Word} (hnodup : pages.Nodup)
    (hal : ∀ p ∈ pages, Aligned p) (mem : Memory) :
    checkPatterns (writePatterns index pages mem) index pages = true := by
  induction pages generalizing index mem with
  | nil => rfl
  | cons page pages ih =>
      obtain ⟨hnot, hnodup⟩ := List.nodup_cons.1 hnodup
      rw [List.forall_mem_cons] at hal
      -- the later pages leave the words of this one alone
      have hkept : ∀ {i}, i < 512 →
          writePatterns (index + 1) pages (writePattern index page mem) (wordAddress page i) =
            writePattern index page mem (wordAddress page i) := by
        intro i hi
        refine writePatterns_outside _ fun p hp => ?_
        have hne : page ≠ p := fun heq => hnot (heq ▸ hp)
        exact not_inPage_of_ne hal.1 (hal.2 p hp) hne (inPage_word page hi)
      obtain ⟨h0, h1, h2⟩ := writePattern_words index page mem
      rw [writePatterns, checkPatterns, hkept (by decide), hkept (by decide), hkept (by decide),
        h0, h1, h2, ih hnodup hal.2]
      simp

theorem reachable_writePattern (h : (clients kernelEnd).Reachable ⟨s, out⟩) {page : Word}
    (hp : page ∈ out) (index : ℕ) :
    (clients kernelEnd).Reachable ⟨{ s with mem := writePattern index page s.mem }, out⟩ := by
  have hword : ∀ {i}, i < 512 → InPage page (wordAddress page i) := inPage_word page
  have hfirst := reachable_storeAt h hp (hword (by decide : 0 < 512))
    (BitVec.ofNat 64 (0xa000 + index))
  have hsecond := reachable_storeAt hfirst hp (hword (by decide : 256 < 512))
    (BitVec.ofNat 64 (0xb000 + index))
  have hthird := reachable_storeAt hsecond hp (hword (by decide : 511 < 512))
    (BitVec.ofNat 64 (0xc000 + index))
  rw [writePattern]
  exact hthird

/-- Writing the patterns is something clients may do. -/
theorem writePatterns_spec {index : ℕ} {pages : List Word} (hpages : ∀ p ∈ pages, p ∈ out)
    (h : (clients kernelEnd).Reachable ⟨s, out⟩) :
    (clients kernelEnd).Reachable ⟨{ s with mem := writePatterns index pages s.mem }, out⟩ := by
  induction pages generalizing index s with
  | nil => exact h
  | cons page pages ih =>
      rw [List.forall_mem_cons] at hpages
      exact ih hpages.2 (reachable_writePattern h hpages.1 index)

/-- The patterns preserve the pages that were out before. -/
theorem preserves_writePatterns {index : ℕ} {pages : List Word}
    (h : (clients kernelEnd).Reachable ⟨s, out ∪ pages.toFinset⟩)
    (hnew : ∀ p ∈ pages, p ∉ out) :
    Preserves out s { s with mem := writePatterns index pages s.mem } := by
  intro q hq x hx
  refine writePatterns_outside _ fun p hp => ?_
  have hne : q ≠ p := fun heq => hnew p hp (heq ▸ hq)
  have hp' := reachable_mem h (Finset.mem_union_right _ (List.mem_toFinset.2 hp))
  exact not_inPage_of_ne (reachable_mem h (Finset.mem_union_left _ hq)).1 hp'.1 hne hx

/-! ### Giving the pages back -/

/-- **The loop that frees the pages**: it gives back the pages in the array, and leaves one of them
in front of the free list. -/
theorem freePages_spec {pages : List Word} (h : (clients kernelEnd).Reachable ⟨s, out⟩)
    (hmem : ∀ p ∈ pages, p ≠ null → p ∈ out)
    (hdistinct : pages.Pairwise fun p q => p = null ∨ p ≠ q) :
    ∃ t, freePages pages s = some (true, t) ∧
      (clients kernelEnd).Reachable ⟨t, out \ pages.toFinset⟩ ∧
      Preserves (out \ pages.toFinset) s t ∧
      ((t = s ∧ ∀ p ∈ pages, p = null) ∨ (t.freeList ∈ pages ∧ t.freeList ≠ null)) := by
  induction pages generalizing s out with
  | nil =>
      refine ⟨s, rfl, ?_, Preserves.refl _ _, .inl ⟨rfl, by simp⟩⟩
      simpa using h
  | cons page pages ih =>
      rw [List.forall_mem_cons] at hmem
      rw [List.pairwise_cons] at hdistinct
      by_cases hnull : page = null
      · -- an entry that was never filled, or is taken back already
        have hnotOut : null ∉ out := fun hout => (reachable_mem h hout).2.1 rfl
        have hsdiff : out \ (page :: pages).toFinset = out \ pages.toFinset := by
          rw [List.toFinset_cons, hnull, Finset.sdiff_insert, Finset.erase_eq_of_notMem]
          exact fun hin => hnotOut (Finset.mem_sdiff.1 hin).1
        obtain ⟨t, hrest, hreach, hpres, hlast⟩ := ih h hmem.2 hdistinct.2
        rw [hsdiff]
        refine ⟨t, ?_, hreach, hpres, ?_⟩
        · rw [freePages, if_neg (not_not.2 hnull), hrest]
        · rcases hlast with ⟨rfl, hnone⟩ | ⟨hin, hne⟩
          · exact .inl ⟨rfl, List.forall_mem_cons.2 ⟨hnull, hnone⟩⟩
          · exact .inr ⟨List.mem_cons_of_mem page hin, hne⟩
      · have hout : page ∈ out := hmem.1 hnull
        obtain ⟨hfree, hreach⟩ := reachable_free h hout
        have hmem' : ∀ p ∈ pages, p ≠ null → p ∈ out.erase page := by
          intro p hp hne
          rcases hdistinct.1 p hp with heq | hpp
          · exact absurd heq hnull
          · exact Finset.mem_erase.2 ⟨hpp.symm, hmem.2 p hp hne⟩
        obtain ⟨t, hrest, hreach', hpres, hlast⟩ := ih hreach hmem' hdistinct.2
        have hsdiff : out \ (page :: pages).toFinset = out.erase page \ pages.toFinset := by
          rw [List.toFinset_cons, Finset.sdiff_insert, Finset.erase_sdiff_comm]
        have hpage : Preserves (out.erase page) s (release page s) :=
          preserves_update h hout (inPage_self page) rfl
        rw [hsdiff]
        refine ⟨t, ?_, hreach', (hpage.subset Finset.sdiff_subset).trans hpres, .inr ?_⟩
        · rw [freePages, if_pos hnull, hfree]
          simp only [Option.bind_eq_bind, Option.bind_some, hrest, Bool.true_and]
          rfl
        · rcases hlast with ⟨rfl, -⟩ | ⟨hin, hne⟩
          · exact ⟨List.mem_cons_self, hnull⟩
          · exact ⟨List.mem_cons_of_mem page hin, hne⟩

/-- The command from the loop that frees the pages on: if all went well so far and a page is given
back in the loop, that page is handed out again, and the test is passed. -/
theorem finish_spec {originalPages pages : List Word} {passed : Bool} {out' : Finset Word}
    {freeBefore : Word} (h : (clients kernelEnd).Reachable ⟨s, out'⟩)
    (hmem : ∀ p ∈ pages, p ≠ null → p ∈ out')
    (hdistinct : pages.Pairwise fun p q => p = null ∨ p ≠ q) (hout : out' \ pages.toFinset = out)
    (hbefore : (freeBefore.toNat + out.card =
      ((qemuRamEnd - initialStart kernelEnd) / pageSize).toNat))
    (hpassed : passed = true → (∃ p ∈ pages, p ≠ null) ∧ ∀ p ∈ pages, p ≠ null → p ∈ originalPages) :
    ∃ t, finish freeBefore originalPages passed pages s = some (verdict passed, t) ∧
      (clients kernelEnd).Reachable ⟨t, out⟩ ∧ Preserves out s t := by
  obtain ⟨t, hfreed, hreach, hpres, hlast⟩ := freePages_spec h hmem hdistinct
  rw [hout] at hreach hpres
  have hcount : ∀ {u : State}, (clients kernelEnd).Reachable ⟨u, out⟩ →
      pageFreePages u = freeBefore := by
    intro u hu
    have hfree := reachable_freePages hu
    exact BitVec.eq_of_toNat_eq (by omega)
  cases passed with
  | false =>
      refine ⟨t, ?_, hreach, hpres⟩
      simp [finish, hfreed]
  | true =>
      obtain ⟨⟨p, hp, hpnull⟩, horiginal⟩ := hpassed rfl
      obtain ⟨hfirst, hnull⟩ : t.freeList ∈ pages ∧ t.freeList ≠ null := by
        rcases hlast with ⟨-, hnone⟩ | hfirst
        · exact absurd (hnone p hp) hpnull
        · exact hfirst
      obtain ⟨u, halloc⟩ : ∃ u, pageAlloc t = (t.freeList, u) :=
        ⟨_, Prod.ext (reachable_alloc_listed hreach hnull) rfl⟩
      obtain ⟨hnotOut, hmemory, hreach'⟩ := reachable_alloc hreach halloc hnull
      have hself := Finset.mem_insert_self t.freeList out
      obtain ⟨hfree, hreach''⟩ := reachable_free hreach' hself
      rw [Finset.erase_insert hnotOut] at hreach''
      have hzero : pageIsZero u.mem t.freeList = true := by rw [hmemory, pageIsZero_zeroPage]
      have hcontains : t.freeList ∈ originalPages := horiginal _ hfirst hnull
      have hgiven : Preserves out u (release t.freeList u) := by
        have herase := preserves_update hreach' hself (inPage_self _) (release_mem t.freeList u)
        rwa [Finset.erase_insert hnotOut] at herase
      refine ⟨release t.freeList u, ?_, hreach'', ?_⟩
      · simp [finish, hfreed, hcount hreach, halloc, hnull, hzero, hcontains, hfree,
          hcount hreach'']
      · exact (hpres.trans (preserves_zeroPage hreach (reachable_mem hreach' hself).1 hnotOut
          hmemory)).trans hgiven

end Loops

/-- When there are not enough pages, those that were handed out are given back. -/
theorem commandMemtest_of_failed {kernelEnd : Word} {a s : State} {out : Finset Word}
    {pages : List Word} {m : ℕ} (h : (clients kernelEnd).Reachable ⟨a, out⟩)
    (halloc : allocatePages memoryTestPageCount a = (false, pages ++ List.replicate m null, s))
    (hnodup : pages.Nodup) (hnew : ∀ p ∈ pages, p ∉ out)
    (hreach : (clients kernelEnd).Reachable ⟨s, out ∪ pages.toFinset⟩) :
    ∃ t, commandMemtest a = some (verdict false, t) ∧
      (clients kernelEnd).Reachable ⟨t, out⟩ ∧ Preserves out s t := by
  have hin : ∀ p ∈ pages ++ List.replicate m null, p ≠ null → p ∈ pages := by
    intro p hp hne
    rcases List.mem_append.1 hp with hp | hp
    · exact hp
    · exact absurd (List.eq_of_mem_replicate hp) hne
  have hdistinct : (pages ++ List.replicate m null).Pairwise fun p q => p = null ∨ p ≠ q := by
    refine List.pairwise_append.2 ⟨hnodup.imp fun h => .inr h, ?_, ?_⟩
    · exact List.pairwise_replicate.2 (.inr (.inl rfl))
    · intro p hp q hq
      rw [List.eq_of_mem_replicate hq]
      exact .inr (reachable_mem hreach (Finset.mem_union_right _ (List.mem_toFinset.2 hp))).2.1
  have hout : (out ∪ pages.toFinset) \ (pages ++ List.replicate m null).toFinset = out := by
    ext p
    rw [Finset.mem_sdiff, Finset.mem_union, List.mem_toFinset, List.mem_toFinset]
    constructor
    · rintro ⟨hp | hp, hnot⟩
      · exact hp
      · exact absurd (List.mem_append_left _ hp) hnot
    · intro hp
      refine ⟨.inl hp, fun hmem => ?_⟩
      exact hnew p (hin p hmem (reachable_mem h hp).2.1) hp
  have hresult : commandMemtest a = finish (pageFreePages a) (pages ++ List.replicate m null) false
      (pages ++ List.replicate m null) s := by
    simp [commandMemtest, halloc]
  rw [hresult]
  exact finish_spec hreach
    (fun p hp hne => Finset.mem_union_right _ (List.mem_toFinset.2 (hin p hp hne))) hdistinct hout
    (reachable_freePages h) (fun hfalse => Bool.noConfusion hfalse)

/-- When the first page was given back already, the other two are all that is left to give back. -/
theorem erase_sdiff_pages {out : Finset Word} {p₀ p₁ p₂ : Word}
    (hnew : ∀ p ∈ [p₀, p₁, p₂], p ∉ out) (hnull : null ∉ out) :
    (out ∪ [p₀, p₁, p₂].toFinset).erase p₀ \ [null, p₁, p₂].toFinset = out := by
  ext p
  rw [Finset.mem_sdiff, Finset.mem_erase, Finset.mem_union, List.mem_toFinset, List.mem_toFinset]
  constructor
  · rintro ⟨⟨hp₀, hp | hp⟩, hnot⟩
    · exact hp
    · rcases List.mem_cons.1 hp with heq | hp
      · exact absurd heq hp₀
      · exact absurd (List.mem_cons_of_mem null hp) hnot
  · intro hp
    refine ⟨⟨fun heq => hnew p₀ (.head _) (heq ▸ hp), .inl hp⟩, fun hin => ?_⟩
    rcases List.mem_cons.1 hin with rfl | hin
    · exact hnull hp
    · exact hnew p (List.mem_cons_of_mem p₀ hin) hp

/-- When there are three pages, the patterns are read as written, the second free of the first page
is refused, and the other two are given back. -/
theorem commandMemtest_of_passed {kernelEnd : Word} {a s : State} {out : Finset Word}
    {p₀ p₁ p₂ : Word} (h : (clients kernelEnd).Reachable ⟨a, out⟩)
    (halloc : allocatePages memoryTestPageCount a = (true, [p₀, p₁, p₂], s))
    (hnodup : [p₀, p₁, p₂].Nodup) (hnew : ∀ p ∈ [p₀, p₁, p₂], p ∉ out)
    (hreach : (clients kernelEnd).Reachable ⟨s, out ∪ [p₀, p₁, p₂].toFinset⟩) :
    ∃ t, commandMemtest a = some (verdict true, t) ∧
      (clients kernelEnd).Reachable ⟨t, out⟩ ∧ Preserves out s t := by
  have hmem : ∀ p ∈ [p₀, p₁, p₂], p ∈ out ∪ [p₀, p₁, p₂].toFinset := fun p hp =>
    Finset.mem_union_right _ (List.mem_toFinset.2 hp)
  have hsubset : out ⊆ (out ∪ [p₀, p₁, p₂].toFinset).erase p₀ := by
    intro p hp
    refine Finset.mem_erase.2 ⟨fun heq => hnew p₀ (.head _) (heq ▸ hp), ?_⟩
    exact Finset.mem_union_left _ hp
  obtain ⟨u, hu⟩ : ∃ u : State, u = { s with mem := writePatterns 0 [p₀, p₁, p₂] s.mem } :=
    ⟨_, rfl⟩
  have hwritten : (clients kernelEnd).Reachable ⟨u, out ∪ [p₀, p₁, p₂].toFinset⟩ := by
    rw [hu]
    exact writePatterns_spec hmem hreach
  have hmemory : u.mem = writePatterns 0 [p₀, p₁, p₂] s.mem := by rw [hu]
  have hcheck : checkPatterns u.mem 0 [p₀, p₁, p₂] = true := by
    rw [hmemory]
    exact checkPatterns_writePatterns hnodup (fun p hp => (reachable_mem hreach (hmem p hp)).1) _
  obtain ⟨hfree, hfreed⟩ := reachable_free hwritten (hmem p₀ (.head _))
  have hagain := reachable_free_refused hfreed (Finset.notMem_erase p₀ _)
  have hresult : commandMemtest a =
      finish (pageFreePages a) [p₀, p₁, p₂] true [null, p₁, p₂] (release p₀ u) := by
    rw [commandMemtest]
    simp [halloc, ← hu, hcheck, hfree, hagain]
  -- what is left to give back are the other two pages
  have hne : ∀ p ∈ [p₁, p₂], p ≠ p₀ := by
    rintro p hp rfl
    exact (List.nodup_cons.1 hnodup).1 hp
  have hleft : ∀ p ∈ [null, p₁, p₂], p ≠ null → p ∈ [p₁, p₂] := by
    intro p hp hnull
    rcases List.mem_cons.1 hp with heq | hp
    · exact absurd heq hnull
    · exact hp
  have hout := erase_sdiff_pages hnew fun hnull => (reachable_mem h hnull).2.1 rfl
  have hdistinct : [null, p₁, p₂].Pairwise fun p q => p = null ∨ p ≠ q :=
    List.pairwise_cons.2 ⟨fun _ _ => .inl rfl, (List.nodup_cons.1 hnodup).2.imp fun h => .inr h⟩
  have hheld : ∀ p ∈ [null, p₁, p₂], p ≠ null → p ∈ (out ∪ [p₀, p₁, p₂].toFinset).erase p₀ :=
    fun p hp hnull => Finset.mem_erase.2 ⟨hne p (hleft p hp hnull),
      hmem p (List.mem_cons_of_mem p₀ (hleft p hp hnull))⟩
  have hsome : ∃ p ∈ [null, p₁, p₂], p ≠ null :=
    ⟨p₁, .tail _ (.head _), (reachable_mem hreach (hmem p₁ (.tail _ (.head _)))).2.1⟩
  have horiginal : ∀ p ∈ [null, p₁, p₂], p ≠ null → p ∈ [p₀, p₁, p₂] :=
    fun p hp hnull => List.mem_cons_of_mem p₀ (hleft p hp hnull)
  obtain ⟨t, hfinish, hreach', hpres⟩ := finish_spec hfreed hheld hdistinct hout
    (reachable_freePages h) (fun _ : true = true => ⟨hsome, horiginal⟩)
  refine ⟨t, hresult.trans hfinish, hreach', ?_⟩
  have hpatterns : Preserves out s u := by
    rw [hu]
    exact preserves_writePatterns hreach hnew
  have hrelease := preserves_update hwritten (hmem p₀ (.head _)) (inPage_self p₀)
    (release_mem p₀ u)
  exact (hpatterns.trans (hrelease.subset hsubset)).trans hpres

/-- **The self test is sound and leaves no trace.**  In every state that the clients of the allocator
can reach, the command returns.  It prints that the test has passed just when `page_free_pages` was
at least 3, and that it has failed otherwise.  In both cases as many pages are in use as before, the
outstanding pages are the same, with the same contents, and the free list goes once through pages
that are not outstanding; in particular the state is again one that the clients can reach. -/
theorem memtest_sound {kernelEnd : Word} {a : State} {out : Finset Word}
    (h : (clients kernelEnd).Reachable ⟨a, out⟩) :
    ∃ text t, commandMemtest a = some (text, t) ∧
      (text = Shell.bytes "memtest: PASS\n" ↔ 3 ≤ (pageFreePages a).toNat) ∧
      (text ≠ Shell.bytes "memtest: PASS\n" → text = Shell.bytes "memtest: FAIL\n") ∧
      t.usedPages = a.usedPages ∧ (clients kernelEnd).Reachable ⟨t, out⟩ ∧
      (∀ p ∈ out, ∀ x, InPage p x → t.mem x = a.mem x) ∧
      ∃ idle, Chain t.mem null t.freeList idle ∧ idle.Nodup ∧ ∀ p ∈ idle, p ∉ out := by
  suffices hrun : ∃ t, commandMemtest a =
      some (verdict (decide (3 ≤ (pageFreePages a).toNat)), t) ∧
      (clients kernelEnd).Reachable ⟨t, out⟩ ∧ Preserves out a t by
    obtain ⟨t, hresult, hreach, hpres⟩ := hrun
    obtain ⟨idle, hchain, hidle⟩ := reachable_not_listed hreach
    refine ⟨_, t, hresult, ?_, ?_, ?_, hreach, hpres, idle, hchain, hchain.nodup,
      fun p hp hout => hidle p hout hp⟩
    · by_cases hfree : 3 ≤ (pageFreePages a).toNat
      · rw [decide_eq_true hfree]
        exact iff_of_true rfl hfree
      · rw [decide_eq_false hfree]
        exact iff_of_false (by decide) hfree
    · intro hfail
      cases hpassed : decide (3 ≤ (pageFreePages a).toNat) with
      | false => rfl
      | true => exact absurd (congrArg verdict hpassed) hfail
    · apply BitVec.eq_of_toNat_eq
      rw [reachable_used hreach, reachable_used h]
  obtain ⟨pages, s, passed, halloc, hpassed, hlength, hnodup, hnew, hreach, hpres⟩ :=
    allocatePages_spec 3 h
  have hdecide : decide (3 ≤ (pageFreePages a).toNat) = passed := by
    cases passed with
    | false => exact decide_eq_false fun hfree => Bool.false_ne_true (hpassed.2 hfree)
    | true => exact decide_eq_true (hpassed.1 rfl)
  rw [hdecide]
  cases passed with
  | false =>
      obtain ⟨t, hresult, hreach', hpres'⟩ := commandMemtest_of_failed h halloc hnodup hnew hreach
      exact ⟨t, hresult, hreach', hpres.trans hpres'⟩
  | true =>
      obtain ⟨p₀, p₁, p₂, rfl⟩ := List.length_eq_three.1 (hlength rfl)
      obtain ⟨t, hresult, hreach', hpres'⟩ := commandMemtest_of_passed h halloc hnodup hnew hreach
      exact ⟨t, hresult, hreach', hpres.trans hpres'⟩

/-- Right after boot the test passes; a kernel that leaves two pages fails it. -/
theorem memtest_sound_at_boot :
    (∃ t, commandMemtest (pageAllocInit 0x40100000#64 (State.boot fun _ => 0)) =
      some (Shell.bytes "memtest: PASS\n", t)) ∧
    ∃ t, commandMemtest (pageAllocInit 0x47ffe000#64 (State.boot fun _ => 0)) =
      some (Shell.bytes "memtest: FAIL\n", t) := by
  constructor
  · obtain ⟨text, t, hresult, hpass, -⟩ := memtest_sound (Lts.Reachable.init ⟨fun _ => 0, rfl⟩ :
      (clients 0x40100000#64).Reachable ⟨pageAllocInit 0x40100000#64 (State.boot fun _ => 0), ∅⟩)
    rw [hpass.2 (by decide)] at hresult
    exact ⟨t, hresult⟩
  · obtain ⟨text, t, hresult, hpass, hfail, -⟩ :=
      memtest_sound (Lts.Reachable.init ⟨fun _ => 0, rfl⟩ :
        (clients 0x47ffe000#64).Reachable ⟨pageAllocInit 0x47ffe000#64 (State.boot fun _ => 0), ∅⟩)
    have hnot : text ≠ Shell.bytes "memtest: PASS\n" := fun heq => absurd (hpass.1 heq) (by decide)
    rw [hfail hnot] at hresult
    exact ⟨t, hresult⟩

end Memtest

end MiniOs
