/-
Module: Bunx.Lib.Ring
Purpose: The queue that a ring of slots holds: its view from the head on, and what
  moving the head, overwriting slots and shifting slots do to the view.
Trusted boundary: none
Main exports:
  overwrite, view, view_rotate, view_drop, view_prepend, view_overwrite, view_append,
  ringIndex, view_getElem?
-/
import Mathlib.Data.List.Rotate

namespace Bunx.Lib

variable {α : Type}

/-- Replace the slots from `p` on by `src`. -/
def overwrite (l : List α) (p : Nat) (src : List α) : List α :=
  l.take p ++ src ++ l.drop (p + src.length)

theorem overwrite_length {l src : List α} {p : Nat} (fits : p + src.length ≤ l.length) :
    (overwrite l p src).length = l.length := by
  simp only [overwrite, List.length_append, List.length_take, List.length_drop]
  omega

theorem overwrite_getElem? {l src : List α} {p i : Nat} (fits : p + src.length ≤ l.length) :
    (overwrite l p src)[i]? =
      if i < p then l[i]? else if i < p + src.length then src[i - p]? else l[i]? := by
  have front : (l.take p).length = p := by
    rw [List.length_take]
    omega
  rw [overwrite, List.append_assoc]
  split
  next before =>
    rw [List.getElem?_append_left (by omega), List.getElem?_take, if_pos before]
  next notBefore =>
    rw [List.getElem?_append_right (by omega), front]
    split
    next inside => rw [List.getElem?_append_left (by omega)]
    next behind =>
      rw [List.getElem?_append_right (by omega), List.getElem?_drop]
      congr 1
      omega

theorem overwrite_zero {l src : List α} :
    overwrite l 0 src = src ++ l.drop src.length := by
  simp [overwrite]

theorem overwrite_nil {l : List α} {p : Nat} : overwrite l p [] = l := by
  simp [overwrite]

/-- Overwriting twice in a row overwrites once. -/
theorem overwrite_append {l first second : List α} {p : Nat}
    (fits : p + (first.length + second.length) ≤ l.length) :
    overwrite (overwrite l p first) (p + first.length) second =
      overwrite l p (first ++ second) := by
  apply List.ext_getElem?
  intro i
  rw [overwrite_getElem? (by rw [overwrite_length (by omega)]; omega),
    overwrite_getElem? (by omega), overwrite_getElem? (by rw [List.length_append]; omega),
    List.length_append, List.getElem?_append]
  grind

/-- The slot that lies `i` places behind the head. -/
def ringIndex (n head i : Nat) : Nat := if head + i < n then head + i else head + i - n

theorem ringIndex_lt {n head i : Nat} (inside : head < n) (few : i ≤ n) :
    ringIndex n head i < n := by
  unfold ringIndex
  split <;> omega

theorem ringIndex_eq_mod {n head i : Nat} (inside : head < n) (few : i ≤ n) :
    (head + i) % n = ringIndex n head i := by
  unfold ringIndex
  split
  next small => exact Nat.mod_eq_of_lt small
  next wrapped =>
    rw [Nat.mod_eq_sub_mod (by omega)]
    exact Nat.mod_eq_of_lt (by omega)

/-- The `count` slots from the head on, in ring order. -/
def view (buf : List α) (head count : Nat) : List α := (buf.rotate head).take count

section View

variable {buf : List α} {head count : Nat}

theorem view_length (few : count ≤ buf.length) : (view buf head count).length = count := by
  rw [view, List.length_take, List.length_rotate, Nat.min_eq_left few]

theorem view_getElem? (inside : head < buf.length) (few : count ≤ buf.length) {i : Nat}
    (early : i < count) : (view buf head count)[i]? = buf[ringIndex buf.length head i]? := by
  rw [view, List.getElem?_take, if_pos early, List.getElem?_rotate (by omega),
    Nat.add_comm, ringIndex_eq_mod inside (by omega)]

theorem view_zero : view buf 0 count = buf.take count := by
  rw [view, List.rotate_zero]

/-- Rotating the slots and moving the head back by as much changes nothing. -/
theorem view_rotate {n : Nat} (few : n ≤ head) (small : n ≤ buf.length) :
    view (buf.drop n ++ buf.take n) (head - n) count = view buf head count := by
  rw [view, view, ← List.rotate_eq_drop_append_take small, List.rotate_rotate,
    Nat.add_sub_cancel' few]

/-- Moving the head on drops what it passes. -/
theorem view_drop {n : Nat} (passed : n ≤ count) (few : count ≤ buf.length) :
    view buf ((head + n) % buf.length) (count - n) = (view buf head count).drop n := by
  have small : n ≤ (buf.rotate head).length := by
    rw [List.length_rotate]
    omega
  rw [view, view, List.rotate_mod, ← List.rotate_rotate, List.drop_take,
    List.rotate_eq_drop_append_take small, List.take_append_of_le_length]
  rw [List.length_drop, List.length_rotate]
  omega

/-- Moving the head back puts the slots it passes in front. -/
theorem view_prepend {n : Nat} (room : count + n ≤ buf.length) :
    view buf ((head + (buf.length - n)) % buf.length) (count + n) =
      view buf ((head + (buf.length - n)) % buf.length) n ++ view buf head count := by
  have back : ((head + (buf.length - n)) % buf.length + n) % buf.length =
      head % buf.length := by
    rw [Nat.mod_add_mod, show head + (buf.length - n) + n = head + buf.length by omega,
      Nat.add_mod_right]
  generalize (head + (buf.length - n)) % buf.length = start at back ⊢
  have rest : view buf ((start + n) % buf.length) (count + n - n) =
      (view buf start (count + n)).drop n := view_drop (Nat.le_add_left n count) room
  have front : view buf start n = (view buf start (count + n)).take n := by
    rw [view, view, List.take_take, Nat.min_eq_left (Nat.le_add_left n count)]
  rw [back, Nat.add_sub_cancel] at rest
  have same : view buf (head % buf.length) count = view buf head count := by
    rw [view, view, List.rotate_mod]
  rw [← same, rest, front, List.take_append_drop]

/-- Overwriting slots of the queue overwrites the queue. -/
theorem view_overwrite {src : List α} {k : Nat} (inside : head < buf.length)
    (few : count ≤ buf.length) (within : k + src.length ≤ count)
    (fits : ringIndex buf.length head k + src.length ≤ buf.length) :
    view (overwrite buf (ringIndex buf.length head k) src) head count =
      overwrite (view buf head count) k src := by
  have length := overwrite_length fits
  apply List.ext_getElem?
  intro i
  by_cases early : i < count
  · rw [view_getElem? (by omega) (by omega) early, length, overwrite_getElem? fits,
      overwrite_getElem? (by rw [view_length few]; omega), view_getElem? inside few early]
    unfold ringIndex at fits ⊢
    grind
  · rw [List.getElem?_eq_none (by rw [view_length (by omega)]; omega),
      List.getElem?_eq_none (by
        rw [overwrite_length (by rw [view_length few]; omega), view_length few]
        omega)]

/-- Overwriting the slots behind the queue appends to it. -/
theorem view_append {src : List α} (inside : head < buf.length)
    (few : count + src.length ≤ buf.length)
    (fits : ringIndex buf.length head count + src.length ≤ buf.length) :
    view (overwrite buf (ringIndex buf.length head count) src) head (count + src.length) =
      view buf head count ++ src := by
  rw [view_overwrite inside few (Nat.le_refl _) fits, overwrite, List.drop_eq_nil_of_le,
    List.append_nil]
  · congr 1
    rw [view, view, List.take_take, Nat.min_eq_left (Nat.le_add_right ..)]
  · rw [view_length few]

/-- Taking out one item, when the slots behind it move up. -/
theorem view_eraseIdx {buf' : List α} {i : Nat} (inside : head < buf.length)
    (few : count ≤ buf.length) (early : i < count) (length : buf'.length = buf.length)
    (moved : ∀ k, k < count - 1 → buf'[ringIndex buf.length head k]? =
      buf[ringIndex buf.length head (if k < i then k else k + 1)]?) :
    view buf' head (count - 1) = (view buf head count).eraseIdx i := by
  apply List.ext_getElem?
  intro k
  by_cases within : k < count - 1
  · rw [view_getElem? (by omega) (by omega) within, length, moved k within,
      List.getElem?_eraseIdx]
    split
    next before => rw [view_getElem? inside few (by omega)]
    next behind => rw [view_getElem? inside few (by omega)]
  · rw [List.getElem?_eq_none (by rw [view_length (by omega)]; omega),
      List.getElem?_eq_none (by
        rw [List.length_eraseIdx_of_lt (by rw [view_length few]; exact early),
          view_length few]
        omega)]

end View

end Bunx.Lib
