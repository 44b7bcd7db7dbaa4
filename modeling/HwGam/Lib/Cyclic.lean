import Mathlib.Data.List.Basic
import Mathlib.Data.List.Nodup
import Mathlib.Data.List.Perm.Subperm
import Mathlib.Data.List.Range
import Mathlib.Data.Nat.ModEq

/-!
# A cyclic buffer

A buffer of `n` cells is a function of the position. `window n buf a k` reads `k` cells from
position `a` on and `put n buf a xs` writes `xs` there, both going on at cell `0` after the last.
`slice` and `memcpy` are their straight counterparts.
-/

namespace HwGam.Lib

variable {α : Type*} {n a b k p : Nat} {buf : Nat → α} {xs ys : List α}

def window (n : Nat) (buf : Nat → α) (a k : Nat) : List α :=
  (List.range k).map fun i => buf ((a + i) % n)

/-- The cells from position `a` up to `b`. -/
def slice (buf : Nat → α) (a b : Nat) : List α :=
  (List.range (b - a)).map fun i => buf (a + i)

def memcpy (buf : Nat → α) (a : Nat) (xs : List α) : Nat → α := fun p =>
  if a ≤ p then (xs[p - a]?).getD (buf p) else buf p

/-- How far position `p` lies behind `a`. -/
def offset (n a p : Nat) : Nat := (p + n - a) % n

def put (n : Nat) (buf : Nat → α) (a : Nat) (xs : List α) : Nat → α := fun p =>
  if p < n then (xs[offset n a p]?).getD (buf p) else buf p

@[simp] theorem length_window : (window n buf a k).length = k := by simp [window]

@[simp] theorem length_slice : (slice buf a b).length = b - a := by simp [slice]

theorem offset_eq (ha : a < n) (hp : p < n) :
    offset n a p = if a ≤ p then p - a else p + n - a := by
  rw [offset]
  split
  · rw [show p + n - a = p - a + n by omega, Nat.add_mod_right, Nat.mod_eq_of_lt (by omega)]
  · rw [Nat.mod_eq_of_lt (by omega)]

/-- The position `k` cells behind `a`, for at most one turn. -/
theorem wrap_eq (ha : a < n) (hk : k ≤ n) :
    (a + k) % n = if a + k < n then a + k else a + k - n := by
  split
  · rw [Nat.mod_eq_of_lt (by omega)]
  · rw [Nat.mod_eq_sub_mod (by omega), Nat.mod_eq_of_lt (by omega)]

theorem offset_wrap (ha : a < n) (hk : k < n) : offset n a ((a + k) % n) = k := by
  rw [offset_eq ha (Nat.mod_lt _ (by omega)), wrap_eq ha hk.le]
  split <;> split <;> omega

/-- Within one turn different distances lead to different cells. -/
theorem wrap_inj {i j : Nat} (ha : a < n) (hi : i < n) (hj : j < n)
    (h : (a + i) % n = (a + j) % n) : i = j := by
  rw [← offset_wrap ha hi, h, offset_wrap ha hj]

/-- One turn visits every cell once. -/
theorem range_turn (ha : a < n) : ((List.range n).map fun i => (a + i) % n).Perm (List.range n) := by
  refine (List.subperm_of_subset ?_ ?_).perm_of_length_le (by simp)
  · refine List.Nodup.map_on ?_ List.nodup_range
    intro i hi j hj
    exact wrap_inj ha (List.mem_range.mp hi) (List.mem_range.mp hj)
  · intro p hp
    obtain ⟨i, -, rfl⟩ := List.mem_map.mp hp
    exact List.mem_range.mpr (Nat.mod_lt _ (by omega))

theorem offset_add (ha : a < n) (hp : p < n) (hk : k ≤ n) :
    offset n ((a + k) % n) p =
      if k ≤ offset n a p then offset n a p - k else offset n a p + n - k := by
  rw [offset_eq (Nat.mod_lt _ (by omega)) hp, offset_eq ha hp, wrap_eq ha hk]
  split_ifs <;> omega

/-- Writing in two parts, the second where the first ended. -/
theorem put_put (ha : a < n) (hlen : xs.length + ys.length ≤ n) :
    put n (put n buf a xs) ((a + xs.length) % n) ys = put n buf a (xs ++ ys) := by
  funext p
  simp only [put]
  by_cases hp : p < n
  · rw [if_pos hp, if_pos hp, if_pos hp, offset_add ha hp (by omega), List.getElem?_append]
    by_cases hx : offset n a p < xs.length
    · rw [if_neg (by omega), if_pos hx, List.getElem?_eq_none (l := ys) (by omega), Option.getD_none]
    · rw [if_pos (by omega), if_neg hx, List.getElem?_eq_none (l := xs) (by omega), Option.getD_none]
  · rw [if_neg hp, if_neg hp, if_neg hp]

theorem put_nil : put n buf a [] = buf := by
  funext p
  simp [put]

/-- A read behind the cells written before and over the new ones. -/
theorem window_put (ha : a < n) (hlen : k + xs.length ≤ n) :
    window n (put n buf ((a + k) % n) xs) a (k + xs.length) = window n buf a k ++ xs := by
  refine List.ext_getElem? fun i => ?_
  simp only [window, List.getElem?_append, List.getElem?_map, List.length_map, List.length_range]
  by_cases hi : i < k + xs.length
  · have hin : (a + i) % n < n := Nat.mod_lt _ (by omega)
    rw [List.getElem?_range hi, Option.map_some, put, if_pos hin, offset_add ha hin (by omega),
      offset_wrap ha (by omega)]
    by_cases hik : i < k
    · rw [if_neg (by omega), if_pos hik, List.getElem?_range hik, List.getElem?_eq_none (by omega)]
      rfl
    · rw [if_pos (by omega), if_neg hik, List.getElem?_eq_getElem (by omega)]
      rfl
  · rw [List.getElem?_eq_none (by simpa using hi), if_neg (by omega),
      List.getElem?_eq_none (by omega)]
    rfl

theorem window_eq_slice (h : a + k ≤ n) : window n buf a k = slice buf a (a + k) := by
  rw [window, slice, Nat.add_sub_cancel_left]
  apply List.map_congr_left
  intro i hi
  rw [Nat.mod_eq_of_lt (by have := List.mem_range.mp hi; omega)]

theorem window_append {j : Nat} : window n buf a (k + j) = window n buf a k ++ window n buf (a + k) j := by
  simp only [window, List.range_add, List.map_append, List.map_map]
  congr 1
  apply List.map_congr_left
  intro i _
  simp [Nat.add_assoc]

theorem window_add_size : window n buf (a + n) k = window n buf a k := by
  apply List.map_congr_left
  intro i _
  rw [show a + n + i = a + i + n by omega, Nat.add_mod_right]

/-- A read that goes over the last cell. -/
theorem window_eq_slices (ha : a < n) (h : n ≤ a + k) (hk : k ≤ n) :
    window n buf a k = slice buf a n ++ slice buf 0 (a + k - n) := by
  have hsplit : k = (n - a) + (a + k - n) := by omega
  rw [hsplit, window_append, window_eq_slice (by omega), show a + (n - a) = 0 + n by omega,
    window_add_size, window_eq_slice (by omega), ← hsplit]
  simp

/-- A straight copy that stays in the buffer. -/
theorem put_eq_memcpy (ha : a < n) (h : a + xs.length ≤ n) :
    put n buf a xs = memcpy buf a xs := by
  funext p
  simp only [put, memcpy]
  by_cases hp : p < n
  · rw [if_pos hp, offset_eq ha hp]
    split
    · rfl
    · rw [List.getElem?_eq_none (by omega)]
      rfl
  · rw [if_neg hp]
    split
    · rw [List.getElem?_eq_none (by omega)]
      rfl
    · rfl

/-- A copy in two parts: up to the last cell, and from the first cell on. -/
theorem put_eq_memcpy_memcpy (ha : a < n) (h : n ≤ a + xs.length) (hlen : xs.length ≤ n) :
    put n buf a xs = memcpy (memcpy buf a (xs.take (n - a))) 0 (xs.drop (n - a)) := by
  have hb : (a + (xs.take (n - a)).length) % n = 0 := by
    rw [List.length_take, Nat.min_eq_left (by omega), show a + (n - a) = n by omega, Nat.mod_self]
  have hput : put n (put n buf a (xs.take (n - a))) ((a + (xs.take (n - a)).length) % n)
      (xs.drop (n - a)) = put n buf a (xs.take (n - a) ++ xs.drop (n - a)) := by
    apply put_put ha
    rw [← List.length_append, List.take_append_drop]
    exact hlen
  rw [List.take_append_drop, hb] at hput
  rw [← hput, put_eq_memcpy ha (by simp; omega), put_eq_memcpy (by omega) (by simp; omega)]

end HwGam.Lib
