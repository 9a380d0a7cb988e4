/-
**The ring of earlier lines holds the most recent ones.**

`history_add` skips blank lines and a line that equals the newest one, and writes the others to the
eight rows of the ring in turn.  What the ring stands for is a list: the lines completed so far,
without the blank ones and with each run of equal lines collapsed to one.

Main definitions:

* `Console.RowHolds` — the line that a row of the ring holds;
* `Console.HistoryHolds` — **the ring holds the most recent lines of a list**;
* `Console.remembered` — the lines worth remembering among those completed.

Main results:

* `Console.copyString_eq` — `copy_string` cuts a string to the room there is;
* `Console.HistoryHolds.historyEntry_eq` — `history_entry` reads a row that was filled;
* `Console.HistoryHolds.historyAdd_eq` — **`history_add` keeps up with the list**.
-/

import MiniOs.Console
import MiniOs.RecentRing

set_option relaxedAutoImplicit false
set_option autoImplicit false

namespace MiniOs

namespace Console

open CString

/-! ### Strings -/

/-- A text of printable characters. -/
def Printable (w : List Byte) : Prop := ∀ c ∈ w, IsPrintable c

theorem isPrintable_ne_zero {c : Byte} (h : IsPrintable c) : c ≠ 0 := by
  rintro rfl
  exact absurd h (by decide)

theorem Printable.take {w : List Byte} (h : Printable w) (n : ℕ) : Printable (w.take n) :=
  fun c hc => h c (List.mem_of_mem_take hc)

/-- An empty line, or one of spaces only. -/
def IsBlank (w : List Byte) : Prop := ∀ c ∈ w, c = space

instance : DecidablePred IsBlank := fun w => inferInstanceAs (Decidable (∀ c ∈ w, c = space))

theorem stringsEqual_eq {left right u v : List Byte} (hu : StringAt left 0 u)
    (hv : StringAt right 0 v) : stringsEqual left right = some (decide (u = v)) := by
  induction u generalizing v left right with
  | nil =>
      obtain ⟨left, rfl⟩ := stringAt_nil.1 hu
      cases v with
      | nil =>
          obtain ⟨right, rfl⟩ := stringAt_nil.1 hv
          rfl
      | cons d v =>
          obtain ⟨right, rfl, hd, -⟩ := stringAt_cons.1 hv
          rw [stringsEqual, if_neg fun h => h.1 rfl]
          exact congrArg some (decide_eq_decide.2 (iff_of_false hd.symm (by simp)))
  | cons c u ih =>
      obtain ⟨left, rfl, hc, hu'⟩ := stringAt_cons.1 hu
      cases v with
      | nil =>
          obtain ⟨right, rfl⟩ := stringAt_nil.1 hv
          rw [stringsEqual, if_neg fun h => h.2 rfl]
          exact congrArg some (decide_eq_decide.2 (iff_of_false hc (by simp)))
      | cons d v =>
          obtain ⟨right, rfl, hd, hv'⟩ := stringAt_cons.1 hv
          rw [stringsEqual, if_pos ⟨hc, hd⟩]
          rcases eq_or_ne c d with rfl | hne
          · rw [if_neg (not_not.2 rfl), ih hu' hv']
            simp
          · rw [if_pos hne]
            simp [hne]

theorem isBlankLine_eq {line w : List Byte} (h : StringAt line 0 w) :
    isBlankLine line = some (decide (IsBlank w)) := by
  induction w generalizing line with
  | nil =>
      obtain ⟨line, rfl⟩ := stringAt_nil.1 h
      simp [isBlankLine, IsBlank]
  | cons c w ih =>
      obtain ⟨line, rfl, hc, h'⟩ := stringAt_cons.1 h
      rw [isBlankLine, if_pos hc]
      rcases eq_or_ne c space with rfl | hne
      · rw [if_neg (not_not.2 rfl), ih h']
        exact congrArg some (decide_eq_decide.2 (by simp [IsBlank]))
      · rw [if_pos hne]
        simp [IsBlank, hne]

/-- What the loop of `copy_string` does from the `length`-th character on. -/
theorem copyFrom_eq {capacity length : ℕ} {destination source w : List Byte}
    (h : StringAt source 0 w) (hlt : length < capacity) (hle : capacity ≤ destination.length) :
    ∃ copy, copyFrom capacity length destination source =
        some (copy, length + (w.take (capacity - 1 - length)).length) ∧
      copy.length = destination.length ∧
      destination.take length ++ w.take (capacity - 1 - length) ++ [0] <+: copy := by
  induction w generalizing length destination source with
  | nil =>
      obtain ⟨source, rfl⟩ := stringAt_nil.1 h
      refine ⟨destination.set length 0, ?_, List.length_set .., ?_⟩
      · simp [copyFrom, store_of_lt (lt_of_lt_of_le hlt hle)]
      · rw [List.take_nil, List.append_nil]
        exact prefix_set (lt_of_lt_of_le hlt hle) 0
  | cons c w ih =>
      obtain ⟨source, rfl, hc, h'⟩ := stringAt_cons.1 h
      rcases Nat.lt_or_ge (length + 1) capacity with hroom | hfull
      · have hroom' : capacity - 1 - length = capacity - 1 - (length + 1) + 1 := by omega
        have hle' : capacity ≤ (destination.set length c).length := by rwa [List.length_set]
        obtain ⟨copy, hcopy, hlen, hpre⟩ := ih h' hroom hle'
        refine ⟨copy, ?_, by rw [hlen, List.length_set], ?_⟩
        · rw [copyFrom, if_pos ⟨hc, hroom⟩, store_of_lt (by omega), Option.bind_eq_bind,
            Option.bind_some, hcopy, hroom', List.take_succ_cons, List.length_cons]
          congr 2
          omega
        · rw [take_set (by omega)] at hpre
          rw [hroom', List.take_succ_cons]
          simpa using hpre
      · have hroom' : capacity - 1 - length = 0 := by omega
        refine ⟨destination.set length 0, ?_, List.length_set .., ?_⟩
        · rw [copyFrom, if_neg (by omega), store_of_lt (by omega), hroom']
          rfl
        · rw [hroom', List.take_zero, List.append_nil]
          exact prefix_set (by omega) 0

/-- **`copy_string` cuts a string to the room there is**, and stays inside its destination. -/
theorem copyString_eq {capacity : ℕ} {destination source w : List Byte} (h : StringAt source 0 w)
    (hpos : 0 < capacity) (hle : capacity ≤ destination.length) :
    ∃ copy, copyString destination capacity source = some (copy, (w.take (capacity - 1)).length) ∧
      copy.length = destination.length ∧ StringAt copy 0 (w.take (capacity - 1)) := by
  obtain ⟨copy, hcopy, hlen, hpre⟩ := copyFrom_eq h hpos hle
  rw [Nat.sub_zero, Nat.zero_add] at hcopy
  refine ⟨copy, ?_, hlen, fun hmem => h.1 (List.mem_of_mem_take hmem), ?_⟩
  · rw [copyString, if_neg (by omega), hcopy]
  · simpa using hpre

/-- What the loop of `save_line` does from the `copied`-th character on. -/
theorem saveFrom_eq {capacity length copied : ℕ} {destination source : List Byte}
    (hlt : length < capacity) (hle : capacity ≤ destination.length) (hcopied : copied ≤ length)
    (hsource : length - copied ≤ source.length) :
    ∃ saved, saveFrom capacity length copied destination source = some saved ∧
      saved.length = destination.length ∧
      destination.take copied ++ source.take (length - copied) ++ [0] <+: saved := by
  induction source generalizing copied destination with
  | nil =>
      rw [List.length_nil, Nat.le_zero] at hsource
      obtain rfl : copied = length := by omega
      refine ⟨destination.set copied 0, ?_, List.length_set .., ?_⟩
      · rw [saveFrom, if_neg (by omega), store_of_lt (by omega)]
      · rw [List.take_nil, List.append_nil]
        exact prefix_set (by omega) 0
  | cons c source ih =>
      rcases Nat.lt_or_ge copied length with hmore | hdone
      · have hleft : length - copied = length - (copied + 1) + 1 := by omega
        have hle' : capacity ≤ (destination.set copied c).length := by rwa [List.length_set]
        have hsource' : length - (copied + 1) ≤ source.length := by
          rw [List.length_cons] at hsource
          omega
        obtain ⟨saved, hsaved, hlen, hpre⟩ := ih hle' hmore hsource'
        refine ⟨saved, ?_, by rw [hlen, List.length_set], ?_⟩
        · rw [saveFrom, if_pos ⟨hmore, by omega⟩, store_of_lt (by omega), Option.bind_eq_bind,
            Option.bind_some, hsaved]
        · rw [take_set (by omega)] at hpre
          rw [hleft, List.take_succ_cons]
          simpa using hpre
      · obtain rfl : copied = length := by omega
        refine ⟨destination.set copied 0, ?_, List.length_set .., ?_⟩
        · rw [saveFrom, if_neg (by omega), store_of_lt (by omega)]
        · rw [Nat.sub_self, List.take_zero, List.append_nil]
          exact prefix_set (by omega) 0

/-- **`save_line` saves the beginning of a line** as a string, and stays inside its destination. -/
theorem saveLine_eq {capacity length : ℕ} {destination source : List Byte}
    (hlt : length < capacity) (hle : capacity ≤ destination.length)
    (hsource : length ≤ source.length) (h0 : (0 : Byte) ∉ source.take length) :
    ∃ saved, saveLine destination capacity source length = some saved ∧
      saved.length = destination.length ∧ StringAt saved 0 (source.take length) := by
  obtain ⟨saved, hsaved, hlen, hpre⟩ := saveFrom_eq hlt hle (Nat.zero_le length) hsource
  refine ⟨saved, ?_, hlen, h0, ?_⟩
  · rw [saveLine, if_neg (by omega), hsaved]
  · simpa using hpre

/-! ### The ring -/

/-- A row of the ring holds a line. -/
structure RowHolds (row : Row) (w : List Byte) : Prop where
  filled : row.filled = true
  text : StringAt row.bytes 0 w
  printable : Printable w
  notBlank : ¬ IsBlank w

/-- **The ring holds the most recent lines of a list.** -/
structure HistoryHolds (h : History) (items : List (List Byte)) : Prop where
  row_length : ∀ row ∈ h.history, row.bytes.length = consoleLineCapacity
  ring : RecentRing.Represents historyDepth RowHolds h.history h.historyNext h.historyCount items

theorem historyHolds_boot : HistoryHolds History.boot [] where
  row_length row hrow := by
    rw [List.eq_of_mem_replicate hrow]
    exact List.length_replicate
  ring := RecentRing.represents_nil RowHolds (by decide) List.length_replicate

/-- The lines worth remembering: those that are not blank, with runs of equal ones collapsed. -/
def remembered (lines : List (List Byte)) : List (List Byte) :=
  (lines.filter fun w => ¬ IsBlank w).destutter (· ≠ ·)

/-- A completed line is remembered unless it is blank or equals the one remembered last. -/
theorem remembered_concat (lines : List (List Byte)) (w : List Byte) :
    remembered (lines ++ [w]) =
      if IsBlank w then remembered lines
      else if (remembered lines).getLast? = some w then remembered lines
      else remembered lines ++ [w] := by
  rw [remembered, List.filter_append]
  by_cases hblank : IsBlank w
  · rw [if_pos hblank, List.filter_cons_of_neg (by simpa using hblank), List.filter_nil,
      List.append_nil]
    rfl
  · rw [if_neg hblank, List.filter_cons_of_pos (by simpa using hblank), List.filter_nil,
      RecentRing.destutter_concat]
    rfl

namespace HistoryHolds

variable {h : History} {items : List (List Byte)}

/-- **`history_entry` reads a row that was filled**, as far back as the count says. -/
theorem historyEntry_eq (hh : HistoryHolds h items) {k : ℕ} (hk : 1 ≤ k)
    (hk' : k ≤ h.historyCount) :
    ∃ row w, historyEntry h k = some row.bytes ∧ items[items.length - k]? = some w ∧
      RowHolds row w ∧ row.bytes.length = consoleLineCapacity := by
  obtain ⟨row, w, hrow, hw, hholds⟩ := hh.ring.entry k hk hk'
  refine ⟨row, w, ?_, hw, hholds, hh.row_length row (List.mem_of_getElem? hrow)⟩
  have hrow' : h.history[(h.historyNext + historyDepth - k) % historyDepth]? = some row := hrow
  rw [historyEntry, hrow', Option.bind_eq_bind, Option.bind_some, if_pos hholds.filled]
  rfl

/-- The same, for the lines that the ring keeps. -/
theorem historyEntry_recent (hh : HistoryHolds h items) {k : ℕ} {w : List Byte}
    (hw : (RecentRing.recent historyDepth items)[k]? = some w) :
    ∃ row, historyEntry h (k + 1) = some row.bytes ∧ RowHolds row w := by
  obtain ⟨hlt, -⟩ := List.getElem?_eq_some_iff.1 hw
  have hle : k + 1 ≤ h.historyCount := by
    rw [hh.ring.count_eq_length]
    exact hlt
  obtain ⟨row, v, hrow, hv, hholds, -⟩ := hh.historyEntry_eq (Nat.succ_pos k) hle
  rw [RecentRing.recent_getElem? hlt, hv, Option.some_inj] at hw
  exact ⟨row, hrow, hw ▸ hholds⟩

theorem equalsNewest_eq (hh : HistoryHolds h items) {line w : List Byte} (hw : StringAt line 0 w) :
    equalsNewest line h = some (decide (items.getLast? = some w)) := by
  have hcount := hh.ring.count_eq
  rw [equalsNewest]
  rcases Nat.eq_zero_or_pos h.historyCount with hzero | hpos
  · have hnil : items = [] := List.length_eq_zero_iff.1 (by
      rw [hzero, historyDepth] at hcount
      omega)
    rw [if_neg (not_not.2 hzero), hnil]
    rfl
  · obtain ⟨row, v, hrow, hv, hholds, -⟩ := hh.historyEntry_eq (Nat.le_refl 1) hpos
    rw [if_pos (by omega), hrow, Option.bind_eq_bind, Option.bind_some,
      stringsEqual_eq hw hholds.text, List.getLast?_eq_getElem?, hv]
    exact congrArg some (decide_eq_decide.2 (by rw [Option.some_inj, eq_comm]))

/-- Filling the next row appends a line to the list. -/
theorem historyFill_eq (hh : HistoryHolds h items) {line w : List Byte} (hw : StringAt line 0 w)
    (hprint : Printable w) (hblank : ¬ IsBlank w) (hlt : w.length < consoleLineCapacity) :
    ∃ h', historyFill line h = some h' ∧ HistoryHolds h' (items ++ [w]) := by
  have hnext : h.historyNext < h.history.length := by
    rw [hh.ring.length]
    exact hh.ring.next_lt
  have hlen := hh.row_length _ (List.getElem_mem hnext)
  -- a completed line is short enough not to be cut
  obtain ⟨copy, hcopy, hclen, hctext⟩ := copyString_eq hw (by decide) hlen.ge
  rw [List.take_of_length_le (by omega)] at hctext
  have hfilled : RowHolds ⟨copy, true⟩ w := ⟨rfl, hctext, hprint, hblank⟩
  refine ⟨{ history := h.history.set h.historyNext ⟨copy, true⟩, .. }, ?_, ?_, hh.ring.push hfilled⟩
  · rw [historyFill, List.getElem?_eq_getElem hnext, Option.bind_eq_bind, Option.bind_some, hcopy]
    rfl
  · intro row hrow
    rcases List.mem_or_eq_of_mem_set hrow with hold | rfl
    · exact hh.row_length row hold
    · exact hclen.trans hlen

/-- **`history_add` keeps up with the list of completed lines.** -/
theorem historyAdd_eq {lines : List (List Byte)} (hh : HistoryHolds h (remembered lines))
    {line w : List Byte} (hw : StringAt line 0 w) (hprint : Printable w)
    (hlt : w.length < consoleLineCapacity) :
    ∃ h', historyAdd line h = some h' ∧ HistoryHolds h' (remembered (lines ++ [w])) := by
  -- the two tests of the code are those by which a line is remembered or not
  rw [historyAdd, isBlankLine_eq hw, Option.bind_eq_bind, Option.bind_some, remembered_concat]
  by_cases hblank : IsBlank w
  · rw [if_pos (decide_eq_true hblank), if_pos hblank]
    exact ⟨h, rfl, hh⟩
  · rw [if_neg (by simpa using hblank), if_neg hblank, hh.equalsNewest_eq hw,
      Option.bind_some]
    by_cases hsame : (remembered lines).getLast? = some w
    · rw [if_pos (decide_eq_true hsame), if_pos hsame]
      exact ⟨h, rfl, hh⟩
    · rw [if_neg (by simpa using hsame), if_neg hsame]
      exact hh.historyFill_eq hw hprint hblank hlt

end HistoryHolds

end Console

end MiniOs
