/-
**Frees followed by allocations unwind.**

The pages that came back are a stack, so giving pages back and allocating as many returns them in
reverse order.  The stack is kept in the pages themselves: each first word holds the link to the
page below, over whatever the client has left there.  `page_alloc` reads that link before it clears
the page, which is why the links underneath come through and the list ends as it began.

Main definitions:

* `PageAlloc.freeMany` — consecutive calls of `page_free`;
* `PageAlloc.clearAll` — what is left of the pages afterwards.

Main results:

* `PageAlloc.pageAlloc_release` — a page that is freed and allocated again leaves the static
  variables alone;
* `PageAlloc.freeMany_allocMany` — so does a list of pages, by induction;
* `PageAlloc.free_alloc_unwind` — **frees followed by as many allocations unwind exactly.**
-/

import MiniOs.PageOwnership

set_option relaxedAutoImplicit false
set_option autoImplicit false

namespace MiniOs

namespace PageAlloc

open NullChain

/-! ### Clearing several pages -/

/-- The memory after the pages have been cleared, the last one first. -/
def clearAll : List Word → Memory → Memory
  | [], mem => mem
  | page :: pages, mem => zeroPage page (clearAll pages mem)

theorem zeroWords_congr {page x : Word} {mem mem' : Memory} (n : ℕ) (h : mem x = mem' x) :
    zeroWords page n mem x = zeroWords page n mem' x := by
  induction n with
  | zero => exact h
  | succ n ih => rw [zeroWords, zeroWords, Function.update_apply, Function.update_apply, ih]

/-- What a word is after a page has been cleared depends on what that word was. -/
theorem zeroPage_congr {page x : Word} {mem mem' : Memory} (h : mem x = mem' x) :
    zeroPage page mem x = zeroPage page mem' x := by
  unfold zeroPage
  exact zeroWords_congr 512 h

theorem clearAll_congr {pages : List Word} {x : Word} {mem mem' : Memory} (h : mem x = mem' x) :
    clearAll pages mem x = clearAll pages mem' x := by
  induction pages with
  | nil => exact h
  | cons page pages ih => exact zeroPage_congr ih

/-- Clearing pages changes none of the words outside them. -/
theorem clearAll_outside {pages : List Word} {x : Word} (mem : Memory)
    (h : ∀ p ∈ pages, ¬ InPage p x) : clearAll pages mem x = mem x := by
  induction pages with
  | nil => rfl
  | cons page pages ih =>
      rw [List.forall_mem_cons] at h
      rw [clearAll, zeroPage_outside _ h.1, ih h.2]

/-- Clearing pages clears each of their words. -/
theorem clearAll_inside {pages : List Word} {p : Word} {i : ℕ} (mem : Memory)
    (hal : ∀ q ∈ pages, Aligned q) (hp : p ∈ pages) (hi : i < 512) :
    clearAll pages mem (p + BitVec.ofNat 64 (8 * i)) = 0 := by
  induction pages with
  | nil => exact absurd hp List.not_mem_nil
  | cons page pages ih =>
      rw [List.forall_mem_cons] at hal
      by_cases hpage : p = page
      · rw [hpage]
        exact zeroPage_inside page _ hi
      · have hp : p ∈ pages := (List.mem_cons.1 hp).resolve_left hpage
        have hout := not_inPage_of_ne (hal.2 p hp) hal.1 hpage (inPage_word p hi)
        rw [clearAll, zeroPage_outside _ hout]
        exact ih hal.2 hp

/-- A link stored in a page does not outlive its clearing. -/
theorem clearAll_update (page : Word) (pages : List Word) (mem : Memory) (v : Word) :
    clearAll (page :: pages) (Function.update mem page v) = clearAll (page :: pages) mem := by
  funext x
  by_cases hx : x = page
  · have hzero : ∀ mem, zeroPage page mem page = 0 := fun mem => by
      simpa using zeroPage_inside page mem (i := 0) (by omega)
    rw [hx, clearAll, clearAll, hzero, hzero]
  · exact clearAll_congr (Function.update_of_ne hx _ _)

/-! ### One page -/

/-- A page that is returned has been cleared. -/
theorem pageAlloc_mem {p : Word} {s t : State} (h : pageAlloc s = (p, t)) (hne : p ≠ null) :
    t.mem = zeroPage p s.mem := by
  rcases pageAlloc_cases h with ⟨hnull, -⟩ | ⟨-, -, rfl⟩ | ⟨-, -, -, rfl⟩
  · exact absurd hnull hne
  · exact handOut_mem _ _
  · exact handOut_mem _ _

/-- The page freed last is the one allocated next, and the static variables are as before the
`page_free`; all this takes is that its link has not been overwritten since. -/
theorem pageAlloc_release {s : State} {p : Word} {mem : Memory} (hinit : s.initialized = true)
    (hne : p ≠ null) (hlink : mem p = s.freeList) :
    pageAlloc { release p s with mem := mem } = (p, { s with mem := zeroPage p mem }) := by
  have hlisted := pageAlloc_listed (s := { release p s with mem := mem }) hinit hne
  have hused : s.usedPages - 1 + 1 = s.usedPages := BitVec.sub_add_cancel _ _
  rw [hlisted]
  simp only [handOut, release, hlink, hused]

/-! ### Several pages -/

/-- Consecutive calls of `page_free`, with what they return; `none` when one does not end. -/
def freeMany : List Word → State → Option (List Bool × State)
  | [], s => some ([], s)
  | page :: pages, s => do
      let (freed, s) ← pageFree page s
      let (results, s) ← freeMany pages s
      return (freed :: results, s)

theorem freeMany_cons {p : Word} {pages : List Word} {s t u : State} {freed : Bool}
    {results : List Bool} (h : pageFree p s = some (freed, t))
    (h' : freeMany pages t = some (results, u)) :
    freeMany (p :: pages) s = some (freed :: results, u) := by
  simp [freeMany, h, h']

/-- Calls of `page_alloc` go on where others have ended. -/
theorem allocMany_add (m n : ℕ) (s : State) :
    allocMany (m + n) s =
      ((allocMany m s).1 ++ (allocMany n (allocMany m s).2).1,
        (allocMany n (allocMany m s).2).2) := by
  induction m generalizing s with
  | zero => simp [allocMany]
  | succ m ih => simp [Nat.succ_add, allocMany, ih]

@[simp] theorem allocMany_length (n : ℕ) (s : State) : (allocMany n s).1.length = n := by
  induction n generalizing s with
  | zero => rfl
  | succ n ih => simp [allocMany, ih]

/-- One more call of `page_alloc`. -/
theorem allocMany_succ {n : ℕ} {s t u : State} {pages : List Word} {p : Word}
    (h : allocMany n s = (pages, t)) (h' : pageAlloc t = (p, u)) :
    allocMany (n + 1) s = (pages ++ [p], u) := by
  rw [allocMany_add, h]
  simp only [allocMany, h']

/-- Each of the calls returns what `page_alloc` returns after the calls before it. -/
theorem allocMany_getElem {n k : ℕ} (s : State) (hk : k < (allocMany n s).1.length) :
    (allocMany n s).1[k] = (pageAlloc (allocMany k s).2).1 := by
  have hlength := hk
  rw [allocMany_length] at hlength
  obtain ⟨m, rfl⟩ : ∃ m, n = k + (m + 1) := ⟨n - (k + 1), by omega⟩
  have hsplit : (allocMany (k + (m + 1)) s).1 = (allocMany k s).1 ++
      (pageAlloc (allocMany k s).2).1 :: (allocMany m (pageAlloc (allocMany k s).2).2).1 :=
    congrArg Prod.fst (allocMany_add k (m + 1) s)
  rw [List.getElem_of_eq hsplit, List.getElem_append_right (by simp)]
  simp

section Reachable

variable {kernelEnd : Word} {a : State} {out : Finset Word}

/-- **Freeing pages and allocating as many** returns them in reverse order, clears them, and leaves
the static variables and the outstanding pages as they were.  The induction is on the list: its
first page is the one freed first and allocated last, so between the two the other pages unwind
without touching it. -/
theorem freeMany_allocMany {pages : List Word} (h : (clients kernelEnd).Reachable ⟨a, out⟩)
    (hnd : pages.Nodup) (hout : ∀ p ∈ pages, p ∈ out) :
    ∃ u, freeMany pages a = some (List.replicate pages.length true, u) ∧
      allocMany pages.length u = (pages.reverse, { a with mem := clearAll pages a.mem }) ∧
      (clients kernelEnd).Run ⟨a, out⟩
        (pages.map Op.free ++ List.replicate pages.length Op.alloc)
        ⟨{ a with mem := clearAll pages a.mem }, out⟩ := by
  induction pages generalizing a out with
  | nil => exact ⟨a, rfl, rfl, Lts.Run.nil⟩
  | cons p pages ih =>
      obtain ⟨hnot, hnd⟩ := List.nodup_cons.1 hnd
      rw [List.forall_mem_cons] at hout
      obtain ⟨hal, hne, -⟩ := reachable_mem h hout.1
      obtain ⟨hfree, hreach⟩ := reachable_free h hout.1
      have hout' : ∀ q ∈ pages, q ∈ out.erase p := fun q hq =>
        Finset.mem_erase.2 ⟨fun heq => hnot (heq ▸ hq), hout.2 q hq⟩
      obtain ⟨u, hfrees, hallocs, hrun⟩ := ih hreach hnd hout'
      -- the other pages do not share the word that holds the link
      have hlink : clearAll pages (release p a).mem p = a.freeList := by
        rw [clearAll_outside _ ?_, release_mem, Function.update_self]
        intro q hq hin
        rw [eq_of_inPage (reachable_mem h (hout.2 q hq)).1 hal hin] at hq
        exact hnot hq
      have halloc := pageAlloc_release (reachable_initialized h) hne hlink
      rw [release_mem, ← clearAll, clearAll_update] at halloc
      refine ⟨u, freeMany_cons hfree hfrees, ?_, ?_⟩
      · rw [List.reverse_cons]
        exact allocMany_succ hallocs halloc
      · have hback := Step.alloc_page (out.erase p) halloc hne
        rw [Finset.insert_erase hout.1] at hback
        rw [List.length_cons, List.replicate_succ', ← List.append_assoc]
        exact (Lts.Run.cons (Step.free_page out hfree) hrun).append (Lts.Run.cons hback Lts.Run.nil)

end Reachable

/-! ### Unwinding -/

/-- **Frees followed by as many allocations unwind exactly.**  In every state the clients can reach,
freeing any list of different outstanding pages succeeds, and as many allocations return the pages
in reverse order, each cleared.  Afterwards the static variables, the free list with all its links
and the outstanding pages are as at the start, and the outstanding pages that were not freed have
kept their contents. -/
theorem free_alloc_unwind {kernelEnd : Word} {s : Owned} (h : (clients kernelEnd).Reachable s)
    {pages : List Word} (hnd : pages.Nodup) (hout : ∀ p ∈ pages, p ∈ s.out) :
    ∃ u t, freeMany pages s.alloc = some (List.replicate pages.length true, u) ∧
      allocMany pages.length u = (pages.reverse, t) ∧
      (∀ k (hk : k < pages.reverse.length), ∃ v,
        pageAlloc (allocMany k u).2 = (pages.reverse[k], v) ∧
          ∀ i < 512, v.mem (pages.reverse[k] + BitVec.ofNat 64 (8 * i)) = 0) ∧
      (∀ p ∈ pages, ∀ i < 512, t.mem (p + BitVec.ofNat 64 (8 * i)) = 0) ∧
      t.freeList = s.alloc.freeList ∧
      (∃ idle, Chain s.alloc.mem null s.alloc.freeList idle ∧ Chain t.mem null t.freeList idle ∧
        ∀ q ∈ idle, t.mem q = s.alloc.mem q) ∧
      t.bumpNext = s.alloc.bumpNext ∧ t.usedPages = s.alloc.usedPages ∧
      t.managedStart = s.alloc.managedStart ∧ t.totalPages = s.alloc.totalPages ∧
      (clients kernelEnd).Run s (pages.map Op.free ++ List.replicate pages.length Op.alloc)
        ⟨t, s.out⟩ ∧
      ∀ q ∈ s.out, q ∉ pages → ∀ x, InPage q x → t.mem x = s.alloc.mem x := by
  obtain ⟨a, out⟩ := s
  obtain ⟨u, hfrees, hallocs, hrun⟩ := freeMany_allocMany h hnd hout
  have hal : ∀ p ∈ pages, Aligned p := fun p hp => (reachable_mem h (hout p hp)).1
  refine ⟨u, _, hfrees, hallocs, ?_, ?_, rfl, ?_, rfl, rfl, rfl, rfl, hrun, ?_⟩
  · -- a call in the middle returns what all the calls together return at its place
    intro k hk
    have hlist : (allocMany pages.length u).1 = pages.reverse := congrArg Prod.fst hallocs
    have hpage : (pageAlloc (allocMany k u).2).1 = pages.reverse[k] := by
      rw [← allocMany_getElem u (hlist ▸ hk), List.getElem_of_eq hlist]
    have hcall : pageAlloc (allocMany k u).2 = (pages.reverse[k], (pageAlloc (allocMany k u).2).2) :=
      Prod.ext hpage rfl
    have hmem : pages.reverse[k] ∈ pages := List.mem_reverse.1 (List.getElem_mem hk)
    have hne : pages.reverse[k] ≠ null := (reachable_mem h (hout _ hmem)).2.1
    refine ⟨_, hcall, fun i hi => ?_⟩
    rw [pageAlloc_mem hcall hne]
    exact zeroPage_inside _ _ hi
  · intro p hp i hi
    exact clearAll_inside _ hal hp hi
  · -- the listed pages are none of those that were freed
    obtain ⟨idle, P, hP, hheld⟩ := reachable_pool h
    have hlinks : ∀ q ∈ idle, clearAll pages a.mem q = a.mem q := by
      intro q hq
      refine clearAll_outside _ fun p hp hin => ?_
      have hq' := (hP.isPage (Or.inl (hP.idle_subset q hq))).1
      rw [← eq_of_inPage (hal p hp) hq' hin] at hq
      refine P.disjoint p ?_ (hP.idle_subset p hq)
      rw [hheld]
      exact hout p hp
    exact ⟨idle, hP.chain, hP.chain.congr hlinks, hlinks⟩
  · intro q hq hnot x hx
    refine clearAll_outside _ fun p hp => ?_
    have hne : q ≠ p := fun heq => hnot (heq ▸ hp)
    exact not_inPage_of_ne (reachable_mem h hq).1 (hal p hp) hne hx

/-- The first two pages after a kernel that ends at `0x40100000`, freed in the order in which they
were allocated, come back in the other order. -/
theorem free_alloc_unwind_two_pages :
    ∃ u t, freeMany [0x40100000#64, 0x40101000#64]
        (allocMany 2 (pageAllocInit 0x40100000#64 (State.boot fun _ => 0))).2 =
          some ([true, true], u) ∧
      allocMany 2 u = ([0x40101000#64, 0x40100000#64], t) := by
  have hinit : (clients 0x40100000#64).Reachable
      ⟨pageAllocInit 0x40100000#64 (State.boot fun _ => 0), ∅⟩ :=
    Lts.Reachable.init ⟨fun _ => 0, rfl⟩
  have hfirst : (clients 0x40100000#64).Reachable
      ⟨(pageAlloc (pageAllocInit 0x40100000#64 (State.boot fun _ => 0))).2, {0x40100000#64}⟩ :=
    hinit.step (Step.alloc rfl)
  have hsecond : (clients 0x40100000#64).Reachable
      ⟨(allocMany 2 (pageAllocInit 0x40100000#64 (State.boot fun _ => 0))).2,
        {0x40101000#64, 0x40100000#64}⟩ := hfirst.step (Step.alloc rfl)
  have hnd : [0x40100000#64, 0x40101000#64].Nodup := by decide
  obtain ⟨u, t, hfrees, hallocs, -⟩ := free_alloc_unwind hsecond hnd (by simp)
  exact ⟨u, t, hfrees, hallocs⟩

end PageAlloc

end MiniOs
