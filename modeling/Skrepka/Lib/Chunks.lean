import Mathlib.Data.List.Defs
import Mathlib.Data.List.Basic

/-! A list cut into pieces of bounded length. -/
namespace Chunks

variable {α : Type} {n : ℕ}

theorem flatten_go (xs : List α) {piece : Array α} {done : Array (List α)} :
    (List.toChunks.go n xs piece done).flatten = done.toList.flatten ++ (piece.toList ++ xs) := by
  induction xs generalizing piece done with
  | nil => simp [List.toChunks.go]
  | cons x xs ih =>
    simp only [List.toChunks.go]
    split
    · rw [ih]
      simp
    · rw [ih]
      simp

/-- The pieces together are the list. -/
theorem flatten_toChunks (xs : List α) : (xs.toChunks n).flatten = xs := by
  cases xs with
  | nil => simp [List.toChunks]
  | cons x xs =>
    cases n with
    | zero => simp [List.toChunks]
    | succ n =>
      rw [List.toChunks, flatten_go]
      · simp
      · exact Nat.succ_ne_zero n

theorem bounds_go (hn : 0 < n) {xs : List α} {piece : Array α} {done : Array (List α)}
    (hpiece : 0 < piece.size ∧ piece.size ≤ n) (hdone : ∀ ys ∈ done, ys ≠ [] ∧ ys.length ≤ n) :
    ∀ ys ∈ List.toChunks.go n xs piece done, ys ≠ [] ∧ ys.length ≤ n := by
  induction xs generalizing piece done with
  | nil =>
    intro ys hys
    simp only [List.toChunks.go, Array.toList_push, List.mem_append, List.mem_singleton] at hys
    obtain hys | rfl := hys
    · exact hdone ys (Array.mem_toList_iff.mp hys)
    · exact ⟨List.length_pos_iff.mp (by simpa using hpiece.1),by simpa using hpiece.2⟩
  | cons x xs ih =>
    simp only [List.toChunks.go]
    split
    · refine ih (by simpa using Nat.succ_le_of_lt hn) fun ys hys => ?_
      obtain hys | rfl := Array.mem_push.mp hys
      · exact hdone ys hys
      · exact ⟨List.length_pos_iff.mp (by simpa using hpiece.1),by simpa using hpiece.2⟩
    · rename_i hroom
      have hne : piece.size ≠ n := by simpa using hroom
      refine ih ?_ hdone
      rw [Array.size_push]
      omega

/-- No piece is empty, or longer than it may be. -/
theorem bounds_toChunks (hn : 0 < n) (xs : List α) : ∀ ys ∈ xs.toChunks n, ys ≠ [] ∧ ys.length ≤ n := by
  cases xs with
  | nil => simp [List.toChunks]
  | cons x xs =>
    obtain ⟨k,rfl⟩ := Nat.exists_eq_add_of_lt hn
    exact bounds_go hn (by simp) (by simp)

end Chunks
