/-
**Fresh memory is taken only at the peak of demand.**

`page_alloc` prefers the pages that came back, so the region of pages never handed out shrinks only
when every page handed out before is out again.  How far it has shrunk is therefore the greatest
number of pages that have been out at once.  To say so, the runs of `MiniOs/PageOwnership.lean`
carry a record of their past: the values `used_pages` has had, and the pages `page_alloc` has
returned.

Main definitions:

* `PageAlloc.Past` — the record;
* `PageAlloc.freshTaken` — how many pages the region has given.

Main results:

* `PageAlloc.reachable_freshTaken` — what the region gave is what is listed and what is out;
* `PageAlloc.tracks_usedPages` — the two facts that make it the high-water mark of `used_pages`;
* `PageAlloc.past_handed` — the recorded pages are those below `bump_next`;
* `PageAlloc.fresh_at_peak` — **`bump_next` stands at the peak of `used_pages`**, never moves back,
  and moves on only when no page that came back is available.
-/

import MiniOs.PageOwnership
import MiniOs.Watermark

set_option relaxedAutoImplicit false
set_option autoImplicit false

namespace MiniOs

namespace PageAlloc

open NullChain

/-! ### What the region has given -/

/-- How many pages the region of pages never handed out has given so far. -/
def freshTaken (s : State) : ℕ := ((s.bumpNext - s.managedStart) / pageSize).toNat

/-- A step leaves `bump_next` alone, or is a call of `page_alloc` that finds the list empty and
moves it by one page. -/
theorem Step.bump_cases {s t : Owned} {op : Op} (h : Step s op t) :
    t.alloc.managedStart = s.alloc.managedStart ∧
      (t.alloc.bumpNext = s.alloc.bumpNext ∨
        op = Op.alloc ∧ s.alloc.freeList = null ∧ t.alloc.freeList = null ∧
          s.alloc.bumpNext < qemuRamEnd ∧ t.alloc.bumpNext = s.alloc.bumpNext + pageSize) := by
  cases h with
  | @alloc page t halloc =>
      rcases pageAlloc_cases halloc with ⟨-, rfl⟩ | ⟨-, -, rfl⟩ | ⟨hnull, hroom, -, rfl⟩
      · exact ⟨rfl, Or.inl rfl⟩
      · exact ⟨rfl, Or.inl rfl⟩
      · refine ⟨handOut_managedStart _ _, Or.inr ⟨rfl, hnull, ?_, hroom, handOut_bumpNext _ _⟩⟩
        rw [handOut_freeList, hnull]
  | @free page accepted t hfree =>
      -- accepted or refused, the region is not touched
      rcases pageFree_cases hfree with ⟨-, rfl⟩ | ⟨-, rfl⟩
      · exact ⟨rfl, Or.inl rfl⟩
      · exact ⟨rfl, Or.inl rfl⟩
  | write contents hmem => exact ⟨rfl, Or.inl rfl⟩

section Reachable

variable {kernelEnd : Word} {s t : Owned}

/-- **What the region gave is listed or out**, and it gave whole pages. -/
theorem reachable_freshTaken (h : (clients kernelEnd).Reachable s) :
    ∃ idle, Chain s.alloc.mem null s.alloc.freeList idle ∧
      (∀ p, Managed s.alloc p ↔ p ∈ idle ∨ p ∈ s.out) ∧
      freshTaken s.alloc = idle.length + s.alloc.usedPages.toNat ∧
      s.alloc.bumpNext.toNat = s.alloc.managedStart.toNat + 4096 * freshTaken s.alloc ∧
      s.alloc.bumpNext.toNat ≤ 0x48000000 := by
  obtain ⟨idle, P, hP, hheld, hstart, htotal⟩ := reachable_represents h
  obtain ⟨hal, -, hhi, -⟩ := initialStart_spec kernelEnd
  obtain ⟨n, havail, hn⟩ := hP.avail
  have hle := hP.start.2
  have hcapacity := hP.total
  have hpage : pageSize.toNat = 4096 := rfl
  rw [htotal, initialTotal_toNat, Pool.capacity, havail, List.length_append, pagesFrom_length]
    at hcapacity
  rw [qemuRamEnd_toNat] at hn
  have hfresh : freshTaken s.alloc = (s.alloc.bumpNext.toNat - s.alloc.managedStart.toNat) / 4096 := by
    rw [freshTaken, BitVec.toNat_udiv, BitVec.toNat_sub_of_le (BitVec.le_def.2 hle), hpage]
  unfold Aligned at hal
  refine ⟨idle, hP.chain, ?_, ?_, ?_, hP.bump.2⟩
  · intro p
    rw [← hheld]
    exact (hP.managed p).symm
  · rw [hfresh, hP.used, hstart]
    rw [hstart] at hle
    omega
  · rw [hfresh, hstart]
    rw [hstart] at hle
    omega

/-- When the list is empty, what the region gave is out. -/
theorem freshTaken_eq_used (h : (clients kernelEnd).Reachable s) (hnull : s.alloc.freeList = null) :
    freshTaken s.alloc = s.alloc.usedPages.toNat := by
  obtain ⟨idle, hchain, -, hcount, -⟩ := reachable_freshTaken h
  rw [hnull] at hchain
  rw [hcount, hchain.eq_nil, List.length_nil, Nat.zero_add]

/-- No step moves the start of the region. -/
theorem after_managedStart (h : ((clients kernelEnd).after s).Reachable t) :
    t.alloc.managedStart = s.alloc.managedStart := by
  refine h.invariant (P := fun t => t.alloc.managedStart = s.alloc.managedStart) ?_ ?_
  · rintro _ rfl
    rfl
  · intro t op u _ ih hstep
    exact (Step.bump_cases hstep).1.trans ih

/-- **The region keeps track of `used_pages`**: it never gave less than what is out, and a step that
takes from it ends with everything it gave out. -/
theorem tracks_usedPages (kernelEnd : Word) :
    Watermark.Tracks (clients kernelEnd) (fun s => s.alloc.usedPages.toNat)
      (fun s => freshTaken s.alloc) where
  above := by
    intro s h
    obtain ⟨idle, -, -, hcount, -⟩ := reachable_freshTaken h
    rw [hcount]
    exact Nat.le_add_left _ _
  rises := by
    intro s op t h hstep
    obtain ⟨hstart, hsame | ⟨-, -, hnull, hroom, hnext⟩⟩ := Step.bump_cases hstep
    · left
      rw [freshTaken, freshTaken, hstart, hsame]
    · right
      have ht := h.step hstep
      obtain ⟨-, -, -, -, hbump, -⟩ := reachable_freshTaken h
      obtain ⟨-, -, -, -, hbump', -⟩ := reachable_freshTaken ht
      rw [BitVec.lt_def, qemuRamEnd_toNat] at hroom
      rw [hnext, toNat_add_pageSize (by omega), hstart] at hbump'
      exact ⟨by omega, freshTaken_eq_used ht hnull⟩

end Reachable

/-! ### The record -/

/-- What a run has done so far. -/
structure Past where
  /-- The values `used_pages` has had. -/
  used : Finset ℕ
  /-- The pages `page_alloc` has returned. -/
  handed : Finset Word

/-- The record after `page_alloc_init`, which sets `used_pages` to zero. -/
def Past.start : Past := ⟨{0}, ∅⟩

/-- What a step adds to the record. -/
def Past.remember (past : Past) (s : Owned) (op : Op) (t : Owned) : Past where
  used := insert t.alloc.usedPages.toNat past.used
  handed :=
    match op with
    | Op.alloc =>
        if (pageAlloc s.alloc).1 = null then past.handed
        else insert (pageAlloc s.alloc).1 past.handed
    | Op.free _ => past.handed
    | Op.write _ _ => past.handed

/-- The clients, with a record of what they have done. -/
def remembered (kernelEnd : Word) : Lts (Owned × Past) Op :=
  (clients kernelEnd).withHistory Past.start Past.remember

/-- Which pages were handed out depends on the bounds of the region given so far. -/
theorem managed_congr {a b : State} (hstart : a.managedStart = b.managedStart)
    (hbump : a.bumpNext = b.bumpNext) (p : Word) : Managed a p ↔ Managed b p := by
  rw [Managed, Managed, hstart, hbump]

section Record

variable {kernelEnd : Word} {s : Owned} {past : Past}

/-- A step that leaves the region alone hands out only pages that were handed out before. -/
theorem managed_of_alloc {p : Word} {t : State} (h : (clients kernelEnd).Reachable s)
    (halloc : pageAlloc s.alloc = (p, t)) (hne : p ≠ null) :
    Managed s.alloc p ∧ t.bumpNext = s.alloc.bumpNext ∨
      s.alloc.freeList = null ∧ p = s.alloc.bumpNext ∧
        t.bumpNext.toNat = s.alloc.bumpNext.toNat + 4096 := by
  obtain ⟨idle, hchain, hmanaged, -, -, hle⟩ := reachable_freshTaken h
  rcases pageAlloc_cases halloc with ⟨hnull, -⟩ | ⟨hlist, rfl, rfl⟩ | ⟨hnull, -, rfl, rfl⟩
  · exact absurd hnull hne
  · left
    obtain ⟨l, rfl, -⟩ := hchain.eq_cons hlist
    exact ⟨(hmanaged _).2 (Or.inl List.mem_cons_self), rfl⟩
  · right
    exact ⟨hnull, rfl, toNat_add_pageSize (by omega)⟩

/-- **What the region gave is the greatest recorded value of `used_pages`.** -/
theorem past_used (h : (remembered kernelEnd).Reachable (s, past)) :
    IsGreatest (past.used : Set ℕ) (freshTaken s.alloc) := by
  have hinit : ∀ s, (clients kernelEnd).init s →
      IsGreatest (Past.start.used : Set ℕ) (freshTaken s.alloc) := by
    rintro _ ⟨mem, rfl⟩
    have hempty := freshTaken_eq_used (Lts.Reachable.init (S := clients kernelEnd) ⟨mem, rfl⟩)
    rw [pageAllocInit_boot] at hempty ⊢
    rw [hempty rfl, Past.start, Finset.coe_singleton]
    exact isGreatest_singleton
  have hupd : ∀ past s op t, ((Past.remember past s op t).used : Set ℕ) =
      insert t.alloc.usedPages.toNat (past.used : Set ℕ) :=
    fun past s op t => Finset.coe_insert _ _
  exact (tracks_usedPages kernelEnd).isGreatest (fun past => (past.used : Set ℕ)) hinit hupd h

/-- **The recorded pages are those below `bump_next`.** -/
theorem past_handed (h : (remembered kernelEnd).Reachable (s, past)) (p : Word) :
    p ∈ past.handed ↔ Managed s.alloc p := by
  refine Lts.Reachable.history_invariant
    (P := fun s past => ∀ p, p ∈ past.handed ↔ Managed s.alloc p) ?_ ?_ h p
  · rintro _ ⟨mem, rfl⟩ p
    rw [pageAllocInit_boot]
    simp only [Past.start, Finset.notMem_empty, Managed, false_iff]
    omega
  · intro s past op t hs ih hstep p
    have hstart := (Step.bump_cases hstep).1
    cases hstep with
    | @alloc page t halloc =>
        simp only [Past.remember, halloc]
        split
        · next hnull =>
            rw [hnull] at halloc
            rw [reachable_alloc_null hs halloc]
            exact ih p
        · next hne =>
            rw [Finset.mem_insert, ih]
            rcases managed_of_alloc hs halloc hne with ⟨hmanaged, hbump⟩ | ⟨-, rfl, hbump⟩
            · rw [managed_congr hstart hbump]
              exact or_iff_right_of_imp fun heq => heq ▸ hmanaged
            · obtain ⟨idle, P, hP, -⟩ := reachable_represents hs
              have hal := hP.bump.1
              have hle := hP.start.2
              unfold Managed Aligned at *
              rw [hstart, hbump, ← BitVec.toNat_inj]
              omega
    | @free page accepted t hfree =>
        obtain ⟨-, hsame | ⟨hop, -⟩⟩ := Step.bump_cases (Step.free hfree)
        · rw [managed_congr hstart hsame]
          exact ih p
        · exact absurd hop (by simp)
    | write contents hmem => exact ih p

end Record

/-! ### Fresh memory and the peak of demand -/

/-- **Fresh memory is taken only at the peak of demand.**  In every run the pages the region has
given, `(bump_next - managed_start) / 4096`, are the greatest value `used_pages` has had so far; so
`bump_next` never moves back and never passes the end of RAM, and a page that was never handed out
is returned only when the free list is empty and every page handed out before is out. -/
theorem fresh_at_peak {kernelEnd : Word} {s : Owned} {past : Past}
    (h : (remembered kernelEnd).Reachable (s, past)) :
    IsGreatest (past.used : Set ℕ) (freshTaken s.alloc) ∧
    s.alloc.bumpNext.toNat = s.alloc.managedStart.toNat + 4096 * freshTaken s.alloc ∧
    s.alloc.bumpNext.toNat ≤ 0x48000000 ∧
    (∀ t, ((clients kernelEnd).after s).Reachable t →
      s.alloc.bumpNext.toNat ≤ t.alloc.bumpNext.toNat) ∧
    ∀ p t, pageAlloc s.alloc = (p, t) → p ≠ null → p ∉ past.handed →
      s.alloc.freeList = null ∧ ∀ q ∈ past.handed, q ∈ s.out := by
  have hs : (clients kernelEnd).Reachable s := h.fst
  obtain ⟨idle, hchain, hmanaged, -, hbump, hle⟩ := reachable_freshTaken hs
  refine ⟨past_used h, hbump, hle, ?_, ?_⟩
  · intro t ht
    have hmono := (tracks_usedPages kernelEnd).mono hs ht
    obtain ⟨-, -, -, -, hbump', -⟩ := reachable_freshTaken (hs.of_after ht)
    rw [hbump, hbump', after_managedStart ht]
    exact Nat.add_le_add_left (Nat.mul_le_mul_left _ hmono) _
  · intro p t halloc hne hfresh
    rw [past_handed h] at hfresh
    rcases managed_of_alloc hs halloc hne with ⟨hold, -⟩ | ⟨hnull, -⟩
    · exact absurd hold hfresh
    · refine ⟨hnull, fun q hq => ?_⟩
      rw [hnull] at hchain
      obtain rfl := hchain.eq_nil
      rw [past_handed h, hmanaged] at hq
      exact hq.resolve_left List.not_mem_nil

/-- After one allocation from a kernel that ends at `0x40100000`, the peak is one page, and so is
what the region gave. -/
theorem fresh_at_peak_first_page :
    (pageAlloc (pageAllocInit 0x40100000#64 (State.boot fun _ => 0))).2.bumpNext.toNat =
        0x40100000 + 4096 * 1 ∧ IsGreatest (({1, 0} : Finset ℕ) : Set ℕ) 1 := by
  have hstep : Step ⟨pageAllocInit 0x40100000#64 (State.boot fun _ => 0), ∅⟩ Op.alloc
      ⟨(pageAlloc (pageAllocInit 0x40100000#64 (State.boot fun _ => 0))).2, {0x40100000#64}⟩ :=
    Step.alloc rfl
  have hpast : (⟨{1, 0}, {0x40100000#64}⟩ : Past) = Past.start.remember
      ⟨pageAllocInit 0x40100000#64 (State.boot fun _ => 0), ∅⟩ Op.alloc
      ⟨(pageAlloc (pageAllocInit 0x40100000#64 (State.boot fun _ => 0))).2, {0x40100000#64}⟩ := rfl
  have hinit : (remembered 0x40100000#64).Reachable
      (⟨pageAllocInit 0x40100000#64 (State.boot fun _ => 0), ∅⟩, Past.start) :=
    Lts.Reachable.init ⟨⟨fun _ => 0, rfl⟩, rfl⟩
  have hreach : (remembered 0x40100000#64).Reachable
      (⟨(pageAlloc (pageAllocInit 0x40100000#64 (State.boot fun _ => 0))).2, {0x40100000#64}⟩,
        ⟨{1, 0}, {0x40100000#64}⟩) := hinit.step ⟨hstep, hpast⟩
  have hfresh : freshTaken (pageAlloc (pageAllocInit 0x40100000#64 (State.boot fun _ => 0))).2 = 1 :=
    rfl
  obtain ⟨hpeak, hbump, -⟩ := fresh_at_peak hreach
  rw [hfresh] at hpeak hbump
  exact ⟨hbump, hpeak⟩

end PageAlloc

end MiniOs
