import FlowTree.Text.Extending
import FlowTree.Text.Hidden

/-!
# FlowTree.Text.Printable

Characters that can be shown as they are.

* `isPrintable` — neither hidden nor extending the character before it;
* `inRanges_iff` — a table of ascending ranges holds what lies between the ends of
  one of them.
-/

namespace FlowTree

/-- Whether a number lies in one of some ascending ranges. -/
def inRanges (n : Nat) : List (Nat × Nat) → Bool
  | [] => false
  | (low, high) :: rest => if n < low then false else n ≤ high || inRanges n rest

/-- Whether ranges start at a bound or beyond it, each past the end of the one before. -/
def ascendsFrom (least : Nat) : List (Nat × Nat) → Bool
  | [] => true
  | (low, high) :: rest => least ≤ low && low ≤ high && ascendsFrom (high + 1) rest

theorem le_of_ascendsFrom {least : Nat} {ranges : List (Nat × Nat)} {r : Nat × Nat}
    (h : ascendsFrom least ranges = true) (hr : r ∈ ranges) : least ≤ r.1 := by
  induction ranges generalizing least with
  | nil => cases hr
  | cons q rest ih =>
    simp only [ascendsFrom, Bool.and_eq_true, decide_eq_true_eq] at h
    rcases List.mem_cons.mp hr with rfl | hr
    · exact h.1.1
    · exact Nat.le_trans (by omega) (ih h.2 hr)

/-- Ascending ranges hold exactly the numbers between the ends of one of them. -/
theorem inRanges_iff {n least : Nat} {ranges : List (Nat × Nat)}
    (h : ascendsFrom least ranges = true) :
    inRanges n ranges = true ↔ ∃ r ∈ ranges, r.1 ≤ n ∧ n ≤ r.2 := by
  induction ranges generalizing least with
  | nil => simp [inRanges]
  | cons q rest ih =>
    have tail : ascendsFrom (q.2 + 1) rest = true := by
      simp only [ascendsFrom, Bool.and_eq_true] at h
      exact h.2
    by_cases low : n < q.1
    · have order : q.1 ≤ q.2 := by
        simp only [ascendsFrom, Bool.and_eq_true, decide_eq_true_eq] at h
        exact h.1.2
      simp only [inRanges, low, if_true, Bool.false_eq_true, List.mem_cons, false_iff]
      rintro ⟨r, rfl | hr, hlow, -⟩
      · omega
      · have := le_of_ascendsFrom tail hr
        omega
    · simp [inRanges, low, ih tail, Nat.le_of_not_lt low]

/-- Whether a character shows, and stands apart from the one before it. -/
def isPrintable (c : Char) : Bool :=
  !inRanges c.toNat hiddenRanges && !inRanges c.toNat extendingRanges

example : ascendsFrom 0 hiddenRanges && ascendsFrom 0 extendingRanges = true := by
  decide +kernel

example : isPrintable ' ' && isPrintable '~' && isPrintable 'é' = true := by decide

example : (isPrintable '\x7f' || isPrintable '\x1f') = false := by decide

end FlowTree
