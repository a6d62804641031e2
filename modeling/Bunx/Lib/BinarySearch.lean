/-
Module: Bunx.Lib.BinarySearch
Purpose: Search for the first index of an interval at which a test fails, where the
  test may itself fail to answer.
Trusted boundary: none
Main exports: partitionPoint, partitionPoint_eq, takeWhile_test
-/
namespace Bunx.Lib

/-- Halve `[lo, hi)` until it is empty; `none` when a test gives no answer or the
fuel is used up. -/
def partitionPoint (p : Nat → Option Bool) : Nat → Nat → Nat → Option Nat
  | 0, lo, hi => if lo < hi then none else some lo
  | fuel + 1, lo, hi =>
      if lo < hi then do
        let mid := lo + (hi - lo) / 2
        if ← p mid then partitionPoint p fuel (mid + 1) hi
        else partitionPoint p fuel lo mid
      else some lo

/-- A test that holds below `k` and nowhere else is searched down to `k`. -/
theorem partitionPoint_eq {p : Nat → Option Bool} {k fuel lo hi : Nat}
    (test : ∀ i, lo ≤ i → i < hi → p i = some (decide (i < k))) (above : lo ≤ k)
    (below : k ≤ hi) (enough : hi - lo ≤ fuel) : partitionPoint p fuel lo hi = some k := by
  induction fuel generalizing lo hi with
  | zero =>
      have same : lo = k := by omega
      rw [partitionPoint, if_neg (by omega), same]
  | succ fuel ih =>
      rw [partitionPoint]
      split
      · have answer := test (lo + (hi - lo) / 2) (by omega) (by omega)
        simp only [answer, Option.bind_eq_bind, Option.bind_some, decide_eq_true_eq]
        split
        · apply ih _ (by omega) below (by omega)
          intro i lower upper
          exact test i (by omega) upper
        · apply ih _ above (by omega) (by omega)
          intro i lower upper
          exact test i lower (by omega)
      · have same : lo = k := by omega
        rw [same]

/-- In a list that is never false before it is true, the test holds below the length
of the leading run and nowhere else. -/
theorem takeWhile_test {α : Type} {p : α → Bool} {xs : List α}
    (monotone : xs.Pairwise fun a b => p b = true → p a = true) {i : Nat} {x : α}
    (isElement : xs[i]? = some x) : p x = decide (i < (xs.takeWhile p).length) := by
  induction xs generalizing i with
  | nil => cases isElement
  | cons y ys ih =>
      obtain ⟨first, rest⟩ := List.pairwise_cons.mp monotone
      cases holds : p y with
      | true =>
          rw [List.takeWhile_cons_of_pos holds, List.length_cons]
          cases i with
          | zero =>
              cases isElement
              simp [holds]
          | succ i =>
              rw [ih rest isElement]
              simp
      | false =>
          have stops : ¬p y = true := by simp [holds]
          rw [List.takeWhile_cons_of_neg stops]
          cases i with
          | zero =>
              cases isElement
              simp [holds]
          | succ i =>
              have later : ¬p x = true := fun isTrue =>
                stops (first x (List.mem_of_getElem? isElement) isTrue)
              simpa using later

end Bunx.Lib
