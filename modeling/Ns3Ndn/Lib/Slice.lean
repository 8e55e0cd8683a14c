import Mathlib

/-!
# Ranges of an array

The elements of a list in a range of positions, and writing a list over those from a position on.

* **`slice_overwrite_of_disjoint`**: a write is not seen outside its range;
* `slice_overwrite_inside`, `overwrite_overwrite`: it is seen inside, and writes compose.
-/

namespace SliceLib

variable {α : Type} {l src : List α} {lo mid hi off : ℕ}

def slice (l : List α) (lo hi : ℕ) : List α := (l.drop lo).take (hi - lo)

def overwrite (l : List α) (off : ℕ) (src : List α) : List α := l.take off ++ src ++ l.drop (off + src.length)

theorem getElem?_slice (l : List α) (lo hi k : ℕ) : (slice l lo hi)[k]? = if k < hi - lo then l[lo + k]? else none := by
  rw [slice, List.getElem?_take]
  split_ifs
  · rw [List.getElem?_drop]
  · rfl

theorem length_slice (h : hi ≤ l.length) : (slice l lo hi).length = hi - lo := by
  rw [slice, List.length_take, List.length_drop]
  omega

theorem length_overwrite (h : off + src.length ≤ l.length) : (overwrite l off src).length = l.length := by
  rw [overwrite, List.length_append, List.length_append, List.length_take, List.length_drop]
  omega

theorem getElem?_overwrite (h : off + src.length ≤ l.length) (k : ℕ) :
    (overwrite l off src)[k]? = if k < off then l[k]? else if k < off + src.length then src[k - off]? else l[k]? := by
  have htake : (l.take off).length = off := by
    rw [List.length_take]
    omega
  rw [overwrite, List.getElem?_append, List.getElem?_append, List.length_append, htake]
  by_cases hk : k < off
  · rw [if_pos (by omega), if_pos hk, if_pos hk, List.getElem?_take_of_lt hk]
  · rw [if_neg hk]
    by_cases hk' : k < off + src.length
    · rw [if_pos hk', if_neg hk, if_pos hk']
    · rw [if_neg hk', if_neg hk, if_neg hk', List.getElem?_drop]
      congr 1
      omega

@[simp] theorem slice_self (l : List α) (lo : ℕ) : slice l lo lo = [] := by
  rw [slice, Nat.sub_self, List.take_zero]

theorem slice_eq_nil (h : hi ≤ lo) : slice l lo hi = [] := by
  rw [slice, Nat.sub_eq_zero_of_le h, List.take_zero]

theorem slice_append_slice (hlo : lo ≤ mid) (hhi : mid ≤ hi) (h : mid ≤ l.length) :
    slice l lo mid ++ slice l mid hi = slice l lo hi := by
  refine List.ext_getElem? fun k => ?_
  rw [List.getElem?_append, length_slice h, getElem?_slice, getElem?_slice, getElem?_slice]
  by_cases hk : k < mid - lo
  · rw [if_pos hk, if_pos hk, if_pos (by omega)]
  · rw [if_neg hk]
    have hsame : mid + (k - (mid - lo)) = lo + k := by omega
    rw [hsame]
    by_cases hk' : k < hi - lo
    · rw [if_pos hk', if_pos (by omega)]
    · rw [if_neg hk', if_neg (by omega)]

theorem drop_slice (l : List α) (lo hi n : ℕ) : (slice l lo hi).drop n = slice l (lo + n) hi := by
  rw [slice, slice, List.drop_take, List.drop_drop, Nat.sub_sub]

theorem take_slice (l : List α) (lo hi n : ℕ) : (slice l lo hi).take n = slice l lo (min hi (lo + n)) := by
  rw [slice, slice, List.take_take]
  congr 1
  omega

/-- **A write elsewhere.** -/
theorem slice_overwrite_of_disjoint (h : off + src.length ≤ l.length) (hdisj : hi ≤ off ∨ off + src.length ≤ lo) :
    slice (overwrite l off src) lo hi = slice l lo hi := by
  refine List.ext_getElem? fun k => ?_
  rw [getElem?_slice, getElem?_slice]
  split_ifs with hk
  · rw [getElem?_overwrite h]
    rcases hdisj with hdisj | hdisj
    · rw [if_pos (by omega)]
    · rw [if_neg (by omega), if_neg (by omega)]
  · rfl

theorem slice_overwrite_self (h : off + src.length ≤ l.length) :
    slice (overwrite l off src) off (off + src.length) = src := by
  refine List.ext_getElem? fun k => ?_
  rw [getElem?_slice]
  split_ifs with hk
  · rw [getElem?_overwrite h, if_neg (by omega), if_pos (by omega)]
    congr 1
    omega
  · exact (List.getElem?_eq_none (by omega)).symm

theorem slice_overwrite_inside {x y : ℕ} (h : off + src.length ≤ l.length) (hy : y ≤ src.length) :
    slice (overwrite l off src) (off + x) (off + y) = slice src x y := by
  refine List.ext_getElem? fun k => ?_
  rw [getElem?_slice, getElem?_slice]
  by_cases hk : k < y - x
  · rw [if_pos (by omega), if_pos hk, getElem?_overwrite h, if_neg (by omega), if_pos (by omega)]
    congr 1
    omega
  · rw [if_neg (by omega), if_neg hk]

/-- **A write that is `k` places too far**: what was there comes first. -/
theorem slice_overwrite_shifted {k : ℕ} (h : off + k + src.length ≤ l.length) :
    slice (overwrite l (off + k) src) off (off + src.length) = ((l.drop off).take k ++ src).take src.length := by
  refine List.ext_getElem? fun x => ?_
  have hold : ((l.drop off).take k).length = k := by
    rw [List.length_take, List.length_drop]
    omega
  rw [getElem?_slice, List.getElem?_take, Nat.add_sub_cancel_left]
  split_ifs with hx
  · rw [getElem?_overwrite h, List.getElem?_append, hold]
    by_cases hk : x < k
    · rw [if_pos (by omega), if_pos hk, List.getElem?_take_of_lt hk, List.getElem?_drop]
    · rw [if_neg (by omega), if_pos (by omega), if_neg hk, Nat.add_sub_add_left]
  · rfl

theorem slice_slice {x y : ℕ} (h : lo + y ≤ hi) : slice (slice l lo hi) x y = slice l (lo + x) (lo + y) := by
  refine List.ext_getElem? fun k => ?_
  rw [getElem?_slice, getElem?_slice, getElem?_slice]
  by_cases hk : k < y - x
  · rw [if_pos hk, if_pos (by omega), if_pos (by omega)]
    congr 1
    omega
  · rw [if_neg hk, if_neg (by omega)]

theorem overwrite_nil (l : List α) (off : ℕ) : overwrite l off [] = l := by
  rw [overwrite, List.append_nil, List.length_nil, Nat.add_zero, List.take_append_drop]

theorem overwrite_overwrite {src' : List α} (h : off + src.length + src'.length ≤ l.length) :
    overwrite (overwrite l off src) (off + src.length) src' = overwrite l off (src ++ src') := by
  have hlen : (overwrite l off src).length = l.length := length_overwrite (by omega)
  refine List.ext_getElem? fun k => ?_
  rw [getElem?_overwrite (by omega), getElem?_overwrite (by omega),
    getElem?_overwrite (by rw [List.length_append]; omega), List.length_append, List.getElem?_append]
  by_cases hk : k < off
  · have h₁ : k < off + src.length := by omega
    simp only [hk, h₁, if_true]
  by_cases hk' : k < off + src.length
  · have h₁ : k < off + (src.length + src'.length) := by omega
    have h₂ : k - off < src.length := by omega
    simp only [hk, hk', h₁, h₂, if_true, if_false]
  have h₁ : ¬ k - off < src.length := by omega
  have h₂ : k - off - src.length = k - (off + src.length) := by omega
  simp only [hk, hk', h₁, h₂, if_false, Nat.add_assoc]

end SliceLib
