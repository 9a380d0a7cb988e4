/-
**Chains of links that end in a null value.**

A singly linked list held in memory is a starting address and a function that reads the link
stored at an address; it is well formed when following the links comes to the null address.  This
module develops such chains over an arbitrary type of addresses: what they determine, which
changes of the links they survive, and how a loop that walks one behaves.

Main definitions:

* `NullChain.Chain` — the list of addresses visited from a starting address up to the null one;
* `NullChain.search` — the walking loop that looks for an address, with a bound on its iterations.

Main results:

* `NullChain.Chain.unique`, `NullChain.Chain.nodup` — **a chain is determined by its start and
  never repeats an address**;
* `NullChain.Chain.congr`, `NullChain.Chain.push` — a chain only depends on the links of its own
  addresses, and grows by a fresh address in front;
* `NullChain.Chain.length_lt_card`, `NullChain.search_eq_of_chain` — over a finite type a chain is
  shorter than the type, so a loop bounded by the number of addresses finds out whether an address
  is on it;
* `NullChain.search_card` — **the bound is harmless**: a search that ends under any bound ends with
  the same answer under that one, so a search it cuts short would never end.
-/

import Mathlib.Data.Fintype.Card
import Mathlib.Logic.Function.Basic

set_option relaxedAutoImplicit false
set_option autoImplicit false

universe u

namespace NullChain

variable {α : Type u} {next : α → α} {null : α}

/-! ### Chains -/

/-- Following `next` from the first argument visits exactly the addresses of the list, in order,
and then comes to `null`. -/
inductive Chain (next : α → α) (null : α) : α → List α → Prop
  | nil : Chain next null null []
  | cons {a : α} {l : List α} : a ≠ null → Chain next null (next a) l → Chain next null a (a :: l)

theorem Chain.ne_null {a : α} {l : List α} (h : Chain next null a l) : ∀ x ∈ l, x ≠ null := by
  induction h with
  | nil => simp
  | cons hne _ ih =>
      intro x hx
      rcases List.mem_cons.1 hx with rfl | hx
      · exact hne
      · exact ih x hx

/-- The chain from `null` is empty. -/
theorem Chain.eq_nil {l : List α} (h : Chain next null null l) : l = [] := by
  cases h with
  | nil => rfl
  | cons hne _ => exact absurd rfl hne

/-- A chain that visits nothing starts at `null`. -/
theorem Chain.eq_null {a : α} (h : Chain next null a []) : a = null := by
  cases h with
  | nil => rfl

/-- A chain from an address other than `null` visits that address first. -/
theorem Chain.eq_cons {a : α} {l : List α} (h : Chain next null a l) (ha : a ≠ null) :
    ∃ t, l = a :: t ∧ Chain next null (next a) t := by
  cases h with
  | nil => exact absurd rfl ha
  | cons _ ht => exact ⟨_, rfl, ht⟩

/-- A chain through some address first starts there, and goes on with the link stored there. -/
theorem Chain.cons_inv {a b : α} {l : List α} (h : Chain next null a (b :: l)) :
    a = b ∧ Chain next null (next b) l := by
  cases h with
  | cons _ ht => exact ⟨rfl, ht⟩

/-- A **chain is determined by its start.** -/
theorem Chain.unique {a : α} {l l' : List α} (h : Chain next null a l)
    (h' : Chain next null a l') : l = l' := by
  induction h generalizing l' with
  | nil => exact h'.eq_nil.symm
  | cons hne _ ih =>
      obtain ⟨t, rfl, ht⟩ := h'.eq_cons hne
      rw [ih ht]

/-- Every address of a chain starts a chain of its own, no longer than the rest. -/
theorem Chain.exists_of_mem {a x : α} {l : List α} (h : Chain next null a l) (hx : x ∈ l) :
    ∃ m, Chain next null x m ∧ m.length ≤ l.length := by
  induction h with
  | nil => simp at hx
  | @cons b t hne ht ih =>
      rcases List.mem_cons.1 hx with rfl | hx
      · exact ⟨x :: t, Chain.cons hne ht, le_rfl⟩
      · obtain ⟨m, hm, hlen⟩ := ih hx
        exact ⟨m, hm, by simp only [List.length_cons]; omega⟩

/-- A **chain never repeats an address**: a repeated address would start two chains of different
lengths. -/
theorem Chain.nodup {a : α} {l : List α} (h : Chain next null a l) : l.Nodup := by
  induction h with
  | nil => exact List.nodup_nil
  | @cons a t hne ht ih =>
      refine List.nodup_cons.2 ⟨?_, ih⟩
      intro hmem
      obtain ⟨m, hm, hlen⟩ := ht.exists_of_mem hmem
      rw [hm.unique (Chain.cons hne ht), List.length_cons] at hlen
      omega

/-- A chain only depends on the links stored at its own addresses. -/
theorem Chain.congr {next' : α → α} {a : α} {l : List α} (h : Chain next null a l)
    (hag : ∀ x ∈ l, next' x = next x) : Chain next' null a l := by
  induction h with
  | nil => exact Chain.nil
  | @cons a t hne _ ih =>
      refine Chain.cons hne ?_
      rw [hag a List.mem_cons_self]
      exact ih fun x hx => hag x (List.mem_cons_of_mem a hx)

/-- A **chain grows in front**: storing its start as the link of a fresh address puts that address
in front of it. -/
theorem Chain.push [DecidableEq α] {a x : α} {l : List α} (h : Chain next null a l)
    (hx : x ≠ null) (hfresh : x ∉ l) : Chain (Function.update next x a) null x (x :: l) := by
  refine Chain.cons hx ?_
  rw [Function.update_self]
  refine h.congr fun y hy => Function.update_of_ne ?_ _ _
  rintro rfl
  exact hfresh hy

/-- Over a finite type a chain is shorter than the type, since it repeats nothing and avoids
`null`. -/
theorem Chain.length_lt_card [Fintype α] {a : α} {l : List α} (h : Chain next null a l) :
    l.length < Fintype.card α := by
  have hnd : (null :: l).Nodup :=
    List.nodup_cons.2 ⟨fun hmem => h.ne_null null hmem rfl, h.nodup⟩
  have hle := hnd.length_le_card
  rw [List.length_cons] at hle
  omega

/-! ### The walking loop -/

section Search

variable [DecidableEq α]

/-- The loop that walks from the last argument along `next` looking for `x`: `some true` when it
meets `x`, `some false` when it comes to `null` first, and `none` when neither happens within the
given number of iterations. -/
def search (next : α → α) (null x : α) : ℕ → α → Option Bool
  | 0, _ => none
  | fuel + 1, a =>
      if a = null then some false
      else if a = x then some true
      else search next null x fuel (next a)

theorem search_null (x : α) (fuel : ℕ) : search next null x (fuel + 1) null = some false := by
  simp [search]

theorem search_succ {a x : α} (fuel : ℕ) (ha : a ≠ null) :
    search next null x (fuel + 1) a =
      if a = x then some true else search next null x fuel (next a) := by
  simp [search, ha]

/-- On a chain the loop decides membership, given more iterations than the chain is long. -/
theorem search_eq_of_chain {a x : α} {l : List α} {fuel : ℕ} (h : Chain next null a l)
    (hfuel : l.length < fuel) : search next null x fuel a = some (decide (x ∈ l)) := by
  obtain ⟨n, rfl⟩ : ∃ n, fuel = n + 1 := ⟨fuel - 1, by omega⟩
  induction h generalizing n with
  | nil => simp [search]
  | @cons a t hne _ ih =>
      rw [search_succ n hne]
      split
      · next heq => simp [heq]
      · next hne' =>
          obtain ⟨m, rfl⟩ : ∃ m, n = m + 1 := ⟨n - 1, by simp only [List.length_cons] at hfuel; omega⟩
          rw [ih m (by simpa using hfuel)]
          simp [Ne.symm hne']

/-- A search that ends walks a chain to `null`, or a chain to the address it looks for. -/
theorem chain_of_search {a x : α} {fuel : ℕ} {b : Bool}
    (h : search next null x fuel a = some b) :
    ∃ l, (b = false ∧ x ∉ l ∧ Chain next null a l) ∨ (b = true ∧ null ∉ l ∧ Chain next x a l) := by
  induction fuel generalizing a with
  | zero => simp [search] at h
  | succ n ih =>
      by_cases ha : a = null
      · subst ha
        rw [search_null] at h
        exact ⟨[], Or.inl ⟨(Option.some_inj.1 h).symm, by simp, Chain.nil⟩⟩
      · rw [search_succ n ha] at h
        by_cases hx : a = x
        · subst hx
          simp only [if_true, Option.some_inj] at h
          exact ⟨[], Or.inr ⟨h.symm, by simp, Chain.nil⟩⟩
        · rw [if_neg hx] at h
          obtain ⟨l, ⟨hb, hmem, hc⟩ | ⟨hb, hmem, hc⟩⟩ := ih h
          · exact ⟨a :: l, Or.inl ⟨hb, by simp [hmem, Ne.symm hx], Chain.cons ha hc⟩⟩
          · exact ⟨a :: l, Or.inr ⟨hb, by simp [hmem, Ne.symm ha], Chain.cons hx hc⟩⟩

/-- Walking a chain to the address looked for finds it. -/
theorem search_eq_true {a x : α} {l : List α} {fuel : ℕ} (h : Chain next x a l)
    (hnull : null ∉ l) (hx : x ≠ null) (hfuel : l.length < fuel) :
    search next null x fuel a = some true := by
  obtain ⟨n, rfl⟩ : ∃ n, fuel = n + 1 := ⟨fuel - 1, by omega⟩
  induction h generalizing n with
  | nil => simp [search, hx]
  | @cons a t hne _ ih =>
      have ha : a ≠ null := fun heq => hnull (by simp [heq])
      obtain ⟨m, rfl⟩ : ∃ m, n = m + 1 := ⟨n - 1, by simp only [List.length_cons] at hfuel; omega⟩
      rw [search_succ (m + 1) ha, if_neg hne]
      exact ih (fun hmem => hnull (List.mem_cons_of_mem a hmem)) m (by simpa using hfuel)

/-- Bounding the loop by the number of addresses loses nothing: a search that ends under some
bound ends with the same answer under this one. -/
theorem search_card [Fintype α] {a x : α} {fuel : ℕ} {b : Bool} (hx : x ≠ null)
    (h : search next null x fuel a = some b) :
    search next null x (Fintype.card α) a = some b := by
  obtain ⟨l, ⟨rfl, hmem, hc⟩ | ⟨rfl, hmem, hc⟩⟩ := chain_of_search h
  · rw [search_eq_of_chain hc hc.length_lt_card]
    simp [hmem]
  · exact search_eq_true hc hmem hx hc.length_lt_card

end Search

end NullChain
