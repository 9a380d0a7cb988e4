/-
**From the linker script to the first page (`linker.ld`, `src/boot.S`).**

The linker places the sections of the kernel one after the other in RAM, then the stack, and the page
allocator manages what is left.  `_start` clears `.bss`, double word by double word, and it may write a
few bytes beyond the end of the section.  Here the sections have any sizes and alignments for which the
link succeeds.

Main definitions:

* `Boot.link`, `Boot.Layout` — **the linker script**, and the addresses it defines;
* `Boot.clearBss`, `Boot.start` — the loop `.Lclear_bss`, and `_start`.

Main results:

* `Boot.link_spec` — what holds of the addresses;
* `Boot.start_clears_bss` — **`.bss` is cleared, and nothing else that is in use is written**;
* `Boot.regions_disjoint` — **the kernel, its stack and the pages are apart, and they fill the RAM**.
-/

import MiniOs.ByteMemory
import MiniOs.MmuIdentity

set_option relaxedAutoImplicit false
set_option autoImplicit false

namespace MiniOs

namespace Boot

open ByteMemory (Mem store)
open PageAlloc (Owned clients initialStart)

/-! ### The linker script -/

/-- `ALIGN` of the linker script: the next multiple of `a`. -/
def align (a dot : ℕ) : ℕ := (dot + (a - 1)) / a * a

/-- The next multiple is not before the address, and is less than `a` beyond it. -/
theorem align_spec {a : ℕ} (ha : 0 < a) (dot : ℕ) :
    dot ≤ align a dot ∧ align a dot < dot + a ∧ a ∣ align a dot := by
  have hdiv := Nat.div_add_mod (dot + (a - 1)) a
  have hmod := Nat.mod_lt (dot + (a - 1)) ha
  rw [Nat.mul_comm] at hdiv
  refine ⟨?_, ?_, Nat.dvd_mul_left _ _⟩ <;> unfold align <;> omega

/-- The next multiple is the least one. -/
theorem align_le {a dot n : ℕ} (ha : 0 < a) (hn : a ∣ n) (hle : dot ≤ n) : align a dot ≤ n := by
  obtain ⟨k, rfl⟩ := hn
  obtain ⟨-, hlt, m, hm⟩ := align_spec ha dot
  rw [hm] at hlt ⊢
  have hmk : a * m < a * (k + 1) := by
    rw [Nat.mul_succ]
    omega
  exact Nat.mul_le_mul_left a (Nat.le_of_lt_succ (Nat.lt_of_mul_lt_mul_left hmk))

/-- The contents of a section: its size, and its alignment, which the script makes 16 at least. -/
structure Section where
  size : ℕ
  alignment : ℕ
  pos : 0 < alignment
  dvd : 16 ∣ alignment

/-- The addresses the script defines, and the ends of the sections. -/
structure Layout where
  textStart : ℕ
  textEnd : ℕ
  rodataStart : ℕ
  rodataEnd : ℕ
  dataStart : ℕ
  dataEnd : ℕ
  /-- `__bss_start`. -/
  bssStart : ℕ
  /-- `__bss_end`. -/
  bssEnd : ℕ
  /-- The lowest address of the stack, which has no name in the script. -/
  stackBottom : ℕ
  /-- `__stack_top`. -/
  stackTop : ℕ
  /-- `__kernel_end`. -/
  kernelEnd : ℕ

/-- **The linker script.**  The link fails when the kernel does not fit into the RAM. -/
def link (text rodata data bss : Section) : Option Layout :=
  let textStart := align text.alignment 0x40080000
  let textEnd := textStart + text.size
  let rodataStart := align rodata.alignment textEnd
  let rodataEnd := rodataStart + rodata.size
  let dataStart := align data.alignment rodataEnd
  let dataEnd := dataStart + data.size
  let bssStart := align bss.alignment dataEnd
  let bssEnd := bssStart + bss.size
  let stackBottom := align 16 bssEnd
  let stackTop := stackBottom + 0x10000
  let kernelEnd := align 0x1000 stackTop
  if kernelEnd ≤ 0x48000000 then
    some ⟨textStart, textEnd, rodataStart, rodataEnd, dataStart, dataEnd, bssStart, bssEnd,
      stackBottom, stackTop, kernelEnd⟩
  else none

/-- **What holds of the addresses**: each part begins where the one before it has ended, or later. -/
structure Layout.Ok (l : Layout) : Prop where
  text : 0x40080000 ≤ l.textStart ∧ l.textStart ≤ l.textEnd
  rodata : l.textEnd ≤ l.rodataStart ∧ l.rodataStart ≤ l.rodataEnd
  data : l.rodataEnd ≤ l.dataStart ∧ l.dataStart ≤ l.dataEnd
  bss : l.dataEnd ≤ l.bssStart ∧ l.bssStart ≤ l.bssEnd
  bss_aligned : 16 ∣ l.bssStart
  stack : l.bssEnd ≤ l.stackBottom ∧ l.stackTop = l.stackBottom + 0x10000
  stack_least : ∀ n, 16 ∣ n → l.bssEnd ≤ n → l.stackBottom ≤ n
  stack_aligned : 16 ∣ l.stackTop
  kernel : l.stackTop ≤ l.kernelEnd ∧ l.kernelEnd < l.stackTop + 0x1000
  kernel_aligned : 0x1000 ∣ l.kernelEnd
  kernel_le : l.kernelEnd ≤ 0x48000000

theorem link_spec {text rodata data bss : Section} {l : Layout}
    (h : link text rodata data bss = some l) : l.Ok := by
  simp only [link, Option.ite_none_right_eq_some, Option.some_inj] at h
  obtain ⟨hle, rfl⟩ := h
  have hstack := align_spec (a := 16) (by decide)
  have hkernel := align_spec (a := 0x1000) (by decide)
  constructor
  case text => exact ⟨(align_spec text.pos _).1, Nat.le_add_right _ _⟩
  case rodata => exact ⟨(align_spec rodata.pos _).1, Nat.le_add_right _ _⟩
  case data => exact ⟨(align_spec data.pos _).1, Nat.le_add_right _ _⟩
  case bss => exact ⟨(align_spec bss.pos _).1, Nat.le_add_right _ _⟩
  case bss_aligned => exact bss.dvd.trans (align_spec bss.pos _).2.2
  case stack => exact ⟨(hstack _).1, rfl⟩
  case stack_least => exact fun n hn hle => align_le (by decide) hn hle
  case stack_aligned => exact (Nat.dvd_add_right (hstack _).2.2).2 (by decide)
  case kernel => exact ⟨(hkernel _).1, (hkernel _).2.1⟩
  case kernel_aligned => exact (hkernel _).2.2
  case kernel_le => exact hle

/-! ### Clearing `.bss` -/

/-- The registers of the loop, and the memory. -/
structure Cpu where
  x0 : Word
  x1 : Word
  mem : Mem 64

/-- The loop `.Lclear_bss`, with a bound on its passes. -/
def clearBss : ℕ → Cpu → Option Cpu
  | 0, _ => none
  | n + 1, m =>
      if m.x1 ≤ m.x0 then some m
      else clearBss n { m with x0 := m.x0 + 8, mem := store m.mem m.x0 0 }

/-- What a CPU does after `_start`. -/
inductive Entry
  | park
  | kernelMain (sp : Word) (mem : Mem 64)

/-- Model of `_start`: the first CPU clears `.bss` and calls `kernel_main`, the others park. -/
def start (passes : ℕ) (mpidr : Word) (l : Layout) (mem : Mem 64) : Option Entry :=
  if mpidr &&& 0xff ≠ 0 then some .park
  else do
    let m ← clearBss passes ⟨BitVec.ofNat 64 l.bssStart, BitVec.ofNat 64 l.bssEnd, mem⟩
    return .kernelMain (BitVec.ofNat 64 l.stackTop) m.mem

/-- Clearing a double word clears its eight bytes. -/
theorem store_zero {a x : Word} (mem : Mem 64) (h : a.toNat + 8 < 2 ^ 64) :
    store mem a 0 x = if a.toNat ≤ x.toNat ∧ x.toNat < a.toNat + 8 then 0 else mem x := by
  have hx := x.isLt
  have hsub : (x - a).toNat < 8 ↔ a.toNat ≤ x.toNat ∧ x.toNat < a.toNat + 8 := by
    rw [BitVec.toNat_sub]
    omega
  rw [store, ← if_congr hsub rfl rfl]
  split
  · simp
  · rfl

/-- **The loop clears what it passes.**  It makes `k` passes, and the last one may go beyond the end. -/
theorem clearBss_spec {k : ℕ} {m : Cpu} (hstop : m.x1.toNat ≤ m.x0.toNat + 8 * k)
    (hmore : ∀ i < k, m.x0.toNat + 8 * i < m.x1.toNat) (hwrap : m.x0.toNat + 8 * k < 2 ^ 64)
    {passes : ℕ} (hpasses : k < passes) :
    ∃ m', clearBss passes m = some m' ∧ ∀ x, m'.mem x =
      if m.x0.toNat ≤ x.toNat ∧ x.toNat < m.x0.toNat + 8 * k then 0 else m.mem x := by
  obtain ⟨passes, rfl⟩ := Nat.exists_eq_succ_of_ne_zero (Nat.ne_of_gt (Nat.zero_lt_of_lt hpasses))
  induction k generalizing m passes with
  | zero =>
      refine ⟨m, ?_, fun x => ?_⟩
      · rw [clearBss, if_pos (BitVec.le_def.2 hstop)]
      · rw [if_neg (by omega)]
  | succ k ih =>
      have hlt := hmore 0 (Nat.succ_pos k)
      have hx0 : (m.x0 + 8).toNat = m.x0.toNat + 8 := by
        rw [BitVec.toNat_add]
        exact Nat.mod_eq_of_lt (by change m.x0.toNat + 8 < 2 ^ 64; omega)
      obtain ⟨passes, rfl⟩ := Nat.exists_eq_succ_of_ne_zero (n := passes) (by omega)
      have hstop' : m.x1.toNat ≤ (m.x0 + 8).toNat + 8 * k := by omega
      have hmore' : ∀ i < k, (m.x0 + 8).toNat + 8 * i < m.x1.toNat := by
        intro i hi
        have hnext := hmore (i + 1) (by omega)
        omega
      have hwrap' : (m.x0 + 8).toNat + 8 * k < 2 ^ 64 := by omega
      obtain ⟨m', hm', hmem⟩ := ih (m := { m with x0 := m.x0 + 8, mem := store m.mem m.x0 0 })
        hstop' hmore' hwrap' passes (by omega)
      refine ⟨m', ?_, fun x => ?_⟩
      · rw [clearBss, if_neg (by rw [BitVec.le_def]; omega)]
        exact hm'
      · have hstore := store_zero (x := x) m.mem (a := m.x0) (by omega)
        rw [hmem]
        dsimp only
        rw [hx0, hstore]
        split_ifs <;> first | rfl | omega

/-- **`.bss` is cleared, and nothing else that is in use is written.**  For sections of any sizes that
can be linked and any memory, the first CPU gets to `kernel_main` with its stack pointer at the top of
the stack, which is aligned.  Each byte of `.bss` is zero by then, and each byte before `.bss`, in the
stack and beyond it is what it was, although the loop may run past the end of `.bss`.  Any other CPU
parks. -/
theorem start_clears_bss {text rodata data bss : Section} {l : Layout}
    (h : link text rodata data bss = some l) (mem : Mem 64) :
    (∀ mpidr : Word, mpidr &&& 0xff = 0 → ∃ n, ∀ passes > n, ∃ mem',
      start passes mpidr l mem = some (.kernelMain (BitVec.ofNat 64 l.stackTop) mem') ∧
      (∀ x : Word, l.bssStart ≤ x.toNat → x.toNat < l.bssEnd → mem' x = 0) ∧
      ∀ x : Word, x.toNat < l.bssStart ∨ l.stackBottom ≤ x.toNat → mem' x = mem x) ∧
    (∀ mpidr : Word, mpidr &&& 0xff ≠ 0 → ∀ passes, start passes mpidr l mem = some .park) ∧
    16 ∣ l.stackTop := by
  have hok := link_spec h
  refine ⟨fun mpidr hfirst => ?_, fun mpidr hother passes => if_pos hother, hok.stack_aligned⟩
  have hbss := hok.bss
  have hstack := hok.stack
  have hkernel := hok.kernel
  have hle := hok.kernel_le
  have hstart : (BitVec.ofNat 64 l.bssStart).toNat = l.bssStart := by
    rw [BitVec.toNat_ofNat]
    exact Nat.mod_eq_of_lt (by omega)
  have hend : (BitVec.ofNat 64 l.bssEnd).toNat = l.bssEnd := by
    rw [BitVec.toNat_ofNat]
    exact Nat.mod_eq_of_lt (by omega)
  -- the loop stops before the next multiple of 16
  obtain ⟨k, hk⟩ : ∃ k, k = (l.bssEnd - l.bssStart + 7) / 8 := ⟨_, rfl⟩
  have hover : l.bssStart + 8 * k ≤ l.stackBottom := by
    have hmultiple : 16 ∣ l.stackBottom := by
      have hdvd := hok.stack_aligned
      rw [hstack.2] at hdvd
      exact (Nat.dvd_add_left (by decide)).1 hdvd
    obtain ⟨i, hi⟩ := hok.bss_aligned
    obtain ⟨j, hj⟩ := hmultiple
    omega
  refine ⟨k, fun passes hpasses => ?_⟩
  obtain ⟨m', hm', hmem⟩ := clearBss_spec
    (m := ⟨BitVec.ofNat 64 l.bssStart, BitVec.ofNat 64 l.bssEnd, mem⟩)
    (by rw [hstart, hend]; omega) (fun i hi => by rw [hstart, hend]; omega)
    (by rw [hstart]; omega) hpasses
  rw [hstart] at hmem
  refine ⟨m'.mem, ?_, fun x hlow hhigh => ?_, fun x houtside => ?_⟩
  · rw [start, if_neg (not_not.2 hfirst), hm']
    rfl
  · rw [hmem, if_pos ⟨hlow, by omega⟩]
  · rw [hmem, if_neg (by omega)]

/-! ### The pages -/

section Pages

variable {kernelEnd : Word} {s t : Owned} {op : PageAlloc.Op}

/-- A page of the pool lies beyond the start of the managed region. -/
theorem start_le_of_pool {idle : List Word} {P : Pool Word}
    (hP : PageAlloc.Represents s.alloc idle P)
    (hstart : s.alloc.managedStart = initialStart kernelEnd) {p : Word}
    (hp : p ∈ P.avail ∨ p ∈ P.held) :
    (initialStart kernelEnd).toNat ≤ p.toNat ∧ p.toNat + 4096 ≤ 0x48000000 := by
  obtain ⟨-, hlow, hhigh⟩ := hP.isPage hp
  rw [hstart] at hlow
  rw [PageAlloc.qemuRamEnd_toNat] at hhigh
  exact ⟨hlow, hhigh⟩

/-- An address before a page is not in it. -/
theorem not_inPage_of_lt {p a : Word} (h : a.toNat < p.toNat) (hp : p.toNat + 4096 ≤ 0x48000000) :
    ¬ PageAlloc.InPage p a := by
  rw [PageAlloc.InPage, BitVec.toNat_sub]
  omega

/-- **What one step writes**: nothing before the managed region. -/
theorem mem_step (h : PageAlloc.Inv kernelEnd s) (hstep : PageAlloc.Step s op t) {a : Word}
    (ha : a.toNat < (initialStart kernelEnd).toNat) : t.alloc.mem a = s.alloc.mem a := by
  obtain ⟨idle, P, hP, hheld, hstart, -⟩ := h
  cases hstep with
  | @alloc page t halloc =>
      rcases hP.alloc_cases with ⟨-, hnull⟩ | ⟨p, u, l, Q, htake, hres, -, -, -, hmem⟩
      · rw [hnull] at halloc
        rw [(Prod.mk.inj halloc).2]
      · rw [hres] at halloc
        obtain ⟨rfl, rfl⟩ := Prod.mk.inj halloc
        obtain ⟨hlow, hhigh⟩ := start_le_of_pool hP hstart (Or.inl (Pool.mem_of_take htake))
        rw [hmem]
        exact PageAlloc.zeroPage_outside _ (not_inPage_of_lt (by omega) hhigh)
  | @free page accepted t hfree =>
      rcases hP.free_cases page with ⟨-, href⟩ | ⟨hp, hacc, -⟩
      · rw [href] at hfree
        rw [(Prod.mk.inj (Option.some_inj.1 hfree)).2]
      · rw [hacc] at hfree
        obtain ⟨hlow, -⟩ := start_le_of_pool hP hstart (Or.inr hp)
        rw [← (Prod.mk.inj (Option.some_inj.1 hfree)).2, PageAlloc.release_mem]
        refine Function.update_of_ne ?_ _ _
        rintro rfl
        omega
  | @write page contents hmem =>
      obtain ⟨hlow, hhigh⟩ := start_le_of_pool hP hstart (Or.inr (hheld ▸ hmem))
      exact PageAlloc.writePage_outside _ _ (not_inPage_of_lt (by omega) hhigh)

end Pages

/-- **The kernel, its stack and the pages are apart, and they fill the RAM.**  For sections that can be
linked, the page allocator manages all of the RAM beyond `__kernel_end`.  In every state its clients can
reach, the pages that are out lie there, so they touch neither a section nor the stack; and from any
reachable state on, whatever the clients do, the memory before `__kernel_end` stays as it is; the static
variables of the allocator lie there too, but are not part of this memory.  The walk through the tables
that `mmu.c` builds maps each address of the kernel, of its stack and of the pages to itself as normal
memory. -/
theorem regions_disjoint {text rodata data bss : Section} {l : Layout}
    (h : link text rodata data bss = some l) {s : Owned}
    (hs : (clients (BitVec.ofNat 64 l.kernelEnd)).Reachable s) :
    s.alloc.totalPages.toNat * 4096 = 0x48000000 - l.kernelEnd ∧
    (∀ page ∈ s.out, l.bssEnd ≤ page.toNat ∧ l.stackTop ≤ page.toNat ∧
      l.kernelEnd ≤ page.toNat ∧ page.toNat + 4096 ≤ 0x48000000) ∧
    (∀ t, ((clients (BitVec.ofNat 64 l.kernelEnd)).after s).Reachable t →
      ∀ a : Word, a.toNat < l.kernelEnd → t.alloc.mem a = s.alloc.mem a) ∧
    ∀ (tables : Mmu.Tables) (mem : Memory) (va : BitVec 32), tables.Separate →
      l.textStart ≤ va.toNat → va.toNat < 0x48000000 →
      PageWalk.walk (Mmu.buildTranslationTables tables mem) tables.level1Table va =
        some ⟨va.setWidth 64, Mmu.normalMemory⟩ := by
  have hok := link_spec h
  have hbss := hok.bss
  have hstack := hok.stack
  have hkernel := hok.kernel
  have hle := hok.kernel_le
  have htext : 0x40080000 ≤ l.textStart ∧ l.textStart ≤ l.kernelEnd := by
    have htext := hok.text
    have hrodata := hok.rodata
    have hdata := hok.data
    omega
  have hend : (BitVec.ofNat 64 l.kernelEnd).toNat = l.kernelEnd := by
    rw [BitVec.toNat_ofNat]
    exact Nat.mod_eq_of_lt (by omega)
  have hmultiple : (l.kernelEnd + 4095) / 4096 * 4096 = l.kernelEnd := by
    obtain ⟨k, hk⟩ := hok.kernel_aligned
    omega
  have hstart : (initialStart (BitVec.ofNat 64 l.kernelEnd)).toNat = l.kernelEnd := by
    rw [PageAlloc.initialStart_toNat, hend, hmultiple]
    split <;> omega
  have htotal' := PageAlloc.initialTotal_toNat (BitVec.ofNat 64 l.kernelEnd)
  rw [hstart] at htotal'
  obtain ⟨idle, P, hP, hheld, hmanaged, htotal⟩ := PageAlloc.reachable_represents hs
  refine ⟨?_, fun page hpage => ?_, fun t ht a ha => ?_, fun tables mem va hsep hlow hhigh => ?_⟩
  · have hpages := (congrArg BitVec.toNat htotal).trans htotal'
    have hdvd : 4096 ∣ 0x48000000 - l.kernelEnd := Nat.dvd_sub (by decide) hok.kernel_aligned
    exact (congrArg (· * 4096) hpages).trans (Nat.div_mul_cancel hdvd)
  · obtain ⟨hlow, hhigh⟩ := start_le_of_pool hP hmanaged (Or.inr (hheld ▸ hpage))
    omega
  · refine (ht.invariant (P := fun t => PageAlloc.Inv (BitVec.ofNat 64 l.kernelEnd) t ∧
      t.alloc.mem a = s.alloc.mem a) ?_ ?_).2
    · rintro _ rfl
      exact ⟨PageAlloc.reachable_represents hs, rfl⟩
    · rintro t op u - ⟨hinv, hsame⟩ hstep
      exact ⟨PageAlloc.inv_step hinv hstep, (mem_step hinv hstep (by omega)).trans hsame⟩
  · rw [Mmu.walk_build hsep]
    exact Mmu.identityMap_ram ⟨by omega, hhigh⟩

/-! ### A kernel -/

/-- A kernel with sections of some sizes, the vectors in the first and page tables in the last. -/
def smallKernel : Option Layout :=
  link ⟨0x5801, 0x800, by decide, by decide⟩ ⟨0x123, 16, by decide, by decide⟩
    ⟨5, 16, by decide, by decide⟩ ⟨0x3765, 0x1000, by decide, by decide⟩

/-- The addresses of `smallKernel`. -/
def smallLayout : Layout :=
  ⟨0x40080000, 0x40085801, 0x40085810, 0x40085933, 0x40085940, 0x40085945, 0x40086000, 0x40089765,
    0x40089770, 0x40099770, 0x4009a000⟩

theorem smallKernel_eq : smallKernel = some smallLayout := rfl

/-- The loop writes three bytes beyond the end of `.bss` here, and none of them is in the stack. -/
theorem start_clears_bss_small : ∃ n, ∀ passes > n, ∃ mem',
    start passes 0 smallLayout (fun _ => 1) = some (.kernelMain 0x40099770#64 mem') ∧
      mem' 0x40089770#64 = 1 := by
  obtain ⟨n, hn⟩ := (start_clears_bss smallKernel_eq fun _ => 1).1 0 rfl
  refine ⟨n, fun passes hpasses => ?_⟩
  obtain ⟨mem', hstart, -, hkept⟩ := hn passes hpasses
  exact ⟨mem', hstart, hkept _ (Or.inr (by decide))⟩

/-- Its allocator at boot. -/
def smallBoot : PageAlloc.State :=
  PageAlloc.pageAllocInit 0x4009a000#64 (PageAlloc.State.boot fun _ => 0)

/-- When two pages were allocated and the first one was freed, the second one lies beyond the kernel, and
the page at the end of `.bss` is as it was. -/
theorem regions_disjoint_small : ∃ s, (clients (BitVec.ofNat 64 smallLayout.kernelEnd)).Reachable s ∧
    s.out = {0x4009b000#64} ∧ (∀ page ∈ s.out, smallLayout.kernelEnd ≤ page.toNat) ∧
    ∀ t, ((clients (BitVec.ofNat 64 smallLayout.kernelEnd)).after s).Reachable t →
      t.alloc.mem 0x40089770#64 = s.alloc.mem 0x40089770#64 := by
  have hfirst : PageAlloc.pageAlloc smallBoot = (0x4009a000#64, (PageAlloc.pageAlloc smallBoot).2) := rfl
  have hsecond : PageAlloc.pageAlloc (PageAlloc.pageAlloc smallBoot).2 =
      (0x4009b000#64, (PageAlloc.pageAlloc (PageAlloc.pageAlloc smallBoot).2).2) := rfl
  have hs : (clients 0x4009a000#64).Reachable ⟨_, {0x4009b000#64}⟩ :=
    PageAlloc.reachable_second hfirst (by decide) hsecond (by decide)
  have hend : BitVec.ofNat 64 smallLayout.kernelEnd = 0x4009a000#64 := rfl
  rw [← hend] at hs
  obtain ⟨-, hpages, hmem, -⟩ := regions_disjoint smallKernel_eq hs
  exact ⟨_, hs, rfl, fun page hpage => (hpages page hpage).2.2.1,
    fun t ht => hmem t ht 0x40089770#64 (by decide)⟩

end Boot

end MiniOs
