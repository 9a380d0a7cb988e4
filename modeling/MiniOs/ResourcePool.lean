/-
**A pool of resources handed out last in, first out.**

What an allocator of equal-sized blocks is for, with its representation left out: some resources
are available, stacked in the order in which they will be handed out, and the others are held by
clients.  Taking pops the stack, giving a held resource back pushes it.  A resource is never on
both sides and never on the stack twice; both facts are fields of the structure, so that every
pool met in a proof satisfies them.

Main definitions:

* `Pool` — the available stack and the held set;
* `Pool.take`, `Pool.give`, `Pool.takeMany` — handing out, giving back, handing out several.

Main results:

* `Pool.take_eq_none_iff` — **nothing is handed out only when nothing is available**;
* `Pool.take_capacity`, `Pool.give_capacity` — no resource appears or gets lost;
* `Pool.takeMany_all` — **everything available can be handed out**, in the order of the stack.
-/

import Mathlib.Data.Finset.Card
import Mathlib.Data.Finset.Insert

set_option relaxedAutoImplicit false
set_option autoImplicit false

universe u

/-- A pool: the stack of available resources and the set of held ones. -/
@[ext] structure Pool (α : Type u) where
  /-- The available resources, the next one to be handed out first. -/
  avail : List α
  /-- The resources held by clients. -/
  held : Finset α
  /-- No resource is available twice. -/
  nodup : avail.Nodup
  /-- No resource is both held and available. -/
  disjoint : ∀ a ∈ held, a ∉ avail

namespace Pool

variable {α : Type u}

/-- The number of resources of a pool. -/
def capacity (P : Pool α) : ℕ := P.avail.length + P.held.card

/-- A pool nobody has taken from yet. -/
def full (l : List α) (h : l.Nodup) : Pool α := ⟨l, ∅, h, by simp⟩

variable [DecidableEq α]

/-! ### Handing out -/

/-- Hand out the resource on top of the stack, if there is one. -/
def take (P : Pool α) : Option (α × Pool α) :=
  match P with
  | ⟨[], _, _, _⟩ => none
  | ⟨a :: l, held, hnd, hdis⟩ =>
      some (a, ⟨l, insert a held, (List.nodup_cons.1 hnd).2, by
        intro b hb hmem
        rcases Finset.mem_insert.1 hb with rfl | hb
        · exact (List.nodup_cons.1 hnd).1 hmem
        · exact hdis b hb (List.mem_cons_of_mem a hmem)⟩)

/-- **Nothing is handed out only when nothing is available.** -/
theorem take_eq_none_iff {P : Pool α} : P.take = none ↔ P.avail = [] := by
  obtain ⟨l, held, hnd, hdis⟩ := P
  cases l <;> simp [take]

/-- What is handed out is the top of the stack, which then is held. -/
theorem take_eq_some_iff {P Q : Pool α} {a : α} :
    P.take = some (a, Q) ↔ P.avail = a :: Q.avail ∧ Q.held = insert a P.held := by
  obtain ⟨l, held, hnd, hdis⟩ := P
  cases l with
  | nil => simp [take]
  | cons b l =>
      simp only [take, Option.some.injEq, Prod.mk.injEq, List.cons.injEq, Pool.ext_iff]
      constructor
      · rintro ⟨rfl, rfl, hheld⟩
        exact ⟨⟨rfl, rfl⟩, hheld.symm⟩
      · rintro ⟨⟨rfl, rfl⟩, hheld⟩
        exact ⟨rfl, rfl, hheld.symm⟩

/-- Something is handed out as soon as something is available. -/
theorem exists_take {P : Pool α} {a : α} {l : List α} (h : P.avail = a :: l) :
    ∃ Q : Pool α, P.take = some (a, Q) ∧ Q.avail = l ∧ Q.held = insert a P.held := by
  obtain ⟨_, held, hnd, hdis⟩ := P
  cases h
  exact ⟨_, rfl, rfl, rfl⟩

/-- What is handed out was available. -/
theorem mem_of_take {P Q : Pool α} {a : α} (h : P.take = some (a, Q)) : a ∈ P.avail := by
  rw [(take_eq_some_iff.1 h).1]
  exact List.mem_cons_self

/-- What is handed out was not held before. -/
theorem take_not_held {P Q : Pool α} {a : α} (h : P.take = some (a, Q)) : a ∉ P.held :=
  fun hmem => P.disjoint a hmem (mem_of_take h)

/-- Handing out keeps the number of resources. -/
theorem take_capacity {P Q : Pool α} {a : α} (h : P.take = some (a, Q)) :
    Q.capacity = P.capacity := by
  obtain ⟨havail, hheld⟩ := take_eq_some_iff.1 h
  rw [capacity, capacity, havail, hheld, Finset.card_insert_of_notMem (take_not_held h),
    List.length_cons]
  omega

/-! ### Giving back -/

/-- Put a held resource on top of the stack. -/
def give (P : Pool α) (a : α) (h : a ∈ P.held) : Pool α where
  avail := a :: P.avail
  held := P.held.erase a
  nodup := List.nodup_cons.2 ⟨P.disjoint a h, P.nodup⟩
  disjoint := by
    intro b hb hmem
    obtain ⟨hne, hb⟩ := Finset.mem_erase.1 hb
    rcases List.mem_cons.1 hmem with rfl | hmem
    · exact hne rfl
    · exact P.disjoint b hb hmem

@[simp] theorem give_avail (P : Pool α) (a : α) (h : a ∈ P.held) :
    (P.give a h).avail = a :: P.avail := rfl

@[simp] theorem give_held (P : Pool α) (a : α) (h : a ∈ P.held) :
    (P.give a h).held = P.held.erase a := rfl

/-- Giving back keeps the number of resources. -/
theorem give_capacity (P : Pool α) (a : α) (h : a ∈ P.held) :
    (P.give a h).capacity = P.capacity := by
  have hpos : 0 < P.held.card := Finset.card_pos.2 ⟨a, h⟩
  rw [capacity, capacity, give_avail, give_held, Finset.card_erase_of_mem h, List.length_cons]
  omega

/-! ### Handing out several -/

/-- Hand out `n` resources one after the other. -/
def takeMany : ℕ → Pool α → Option (List α × Pool α)
  | 0, P => some ([], P)
  | n + 1, P => do
      let (a, Q) ← P.take
      let (l, R) ← takeMany n Q
      return (a :: l, R)

theorem takeMany_succ {P Q R : Pool α} {a : α} {l : List α} {n : ℕ} (h : P.take = some (a, Q))
    (h' : takeMany n Q = some (l, R)) : takeMany (n + 1) P = some (a :: l, R) := by
  simp [takeMany, h, h']

/-- **Everything available can be handed out**, in the order of the stack, and then nothing is
available any more. -/
theorem takeMany_all (P : Pool α) :
    ∃ R : Pool α, takeMany P.avail.length P = some (P.avail, R) ∧ R.avail = [] := by
  obtain ⟨l, hl⟩ : ∃ l, P.avail = l := ⟨_, rfl⟩
  induction l generalizing P with
  | nil => exact ⟨P, by simp [hl, takeMany], hl⟩
  | cons a l ih =>
      obtain ⟨Q, hQ, havail, -⟩ := exists_take hl
      obtain ⟨R, hR, hempty⟩ := ih Q havail
      rw [havail] at hR
      exact ⟨R, by rw [hl, List.length_cons]; exact takeMany_succ hQ hR, hempty⟩

end Pool
