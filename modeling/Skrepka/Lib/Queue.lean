import Mathlib.Data.List.Basic

/-! How a queue evolves: its items stay in order, each is kept in some form or lost for some
reason, and others are put between them or behind them. -/
namespace Queue

variable {α : Type*}

/-- `same` relates an item to the form it is kept in, `added` says what may be new, and `lost k`
what may have been lost at position `k`. -/
inductive Evolves (same : α → α → Prop) (added : α → Prop) (lost : ℕ → α → Prop) :
    ℕ → List α → List α → Prop
  | nil (k : ℕ) : Evolves same added lost k [] []
  | keep {k x y xs ys} (h : same x y) (hs : Evolves same added lost (k+1) xs ys) :
      Evolves same added lost k (x :: xs) (y :: ys)
  | lose {k x xs ys} (h : lost k x) (hs : Evolves same added lost (k+1) xs ys) :
      Evolves same added lost k (x :: xs) ys
  | add {k y xs ys} (h : added y) (hs : Evolves same added lost k xs ys) :
      Evolves same added lost k xs (y :: ys)

namespace Evolves
variable {same : α → α → Prop} {added : α → Prop} {lost : ℕ → α → Prop}

theorem mono {same' : α → α → Prop} {added' : α → Prop} {lost' : ℕ → α → Prop} {k : ℕ}
    {xs ys : List α} (h : Evolves same added lost k xs ys)
    (hsame : ∀ x y, same x y → same' x y) (hadded : ∀ y, added y → added' y)
    (hlost : ∀ j x, lost j x → lost' j x) : Evolves same' added' lost' k xs ys := by
  induction h with
  | nil k => exact .nil k
  | keep h _ ih => exact .keep (hsame _ _ h) ih
  | lose h _ ih => exact .lose (hlost _ _ h) ih
  | add h _ ih => exact .add (hadded _ h) ih

theorem map {f : α → α} (hf : ∀ x, same x (f x)) (k : ℕ) (xs : List α) :
    Evolves same added lost k xs (xs.map f) := by
  induction xs generalizing k with
  | nil => exact .nil k
  | cons x xs ih => exact .keep (hf x) (ih (k+1))

theorem refl (hs : ∀ x, same x x) (k : ℕ) (xs : List α) : Evolves same added lost k xs xs := by
  simpa using map (f := id) hs k xs

theorem append {k : ℕ} {xs ys xs' ys' : List α} (h : Evolves same added lost k xs ys)
    (h' : Evolves same added lost (k+xs.length) xs' ys') :
    Evolves same added lost k (xs ++ xs') (ys ++ ys') := by
  induction h with
  | nil k => simpa using h'
  | keep h _ ih => exact .keep h (ih (by simpa [Nat.add_assoc, Nat.add_comm 1] using h'))
  | lose h _ ih => exact .lose h (ih (by simpa [Nat.add_assoc, Nat.add_comm 1] using h'))
  | add h _ ih => exact .add h (ih h')

theorem adds {ys : List α} (h : ∀ y ∈ ys, added y) (k : ℕ) :
    Evolves same added lost k [] ys := by
  induction ys with
  | nil => exact .nil k
  | cons y ys ih =>
    exact .add (h y List.mem_cons_self) (ih fun z hz => h z (List.mem_cons_of_mem y hz))

/-- New items at the back. -/
theorem append_new {k : ℕ} {xs ys new : List α} (h : Evolves same added lost k xs ys)
    (hn : ∀ y ∈ new, added y) : Evolves same added lost k xs (ys ++ new) := by
  simpa using h.append (adds hn _)

/-- Changing one item. -/
theorem modify {f : α → α} {n : ℕ} (hs : ∀ x, same x x) (xs : List α)
    (hf : ∀ h : n < xs.length, same xs[n] (f xs[n])) (k : ℕ) :
    Evolves same added lost k xs (xs.modify n f) := by
  induction xs generalizing n k with
  | nil => simpa using nil k
  | cons x xs ih =>
    cases n with
    | zero => exact .keep (hf (by simp)) (refl hs (k+1) xs)
    | succ n => exact .keep (hs x) (ih (fun h => hf (by simpa using h)) (k+1))

/-- Dropping items from the front. -/
theorem drop {n k : ℕ} (hs : ∀ x, same x x) (xs : List α)
    (hl : ∀ j x, k ≤ j → j < k+n → lost j x) : Evolves same added lost k xs (xs.drop n) := by
  induction n generalizing k xs with
  | zero => exact refl hs k xs
  | succ n ih =>
    cases xs with
    | nil => exact .nil k
    | cons x xs =>
      exact .lose (hl k x (Nat.le_refl k) (by omega))
        (ih xs fun j y h₁ h₂ => hl j y (by omega) (by omega))

/-- Changing items and then dropping some of them. -/
theorem filter_map {f : α → α} {p : α → Bool} {k : ℕ} (hf : ∀ x, same x (f x)) (xs : List α)
    (hl : ∀ j x, k ≤ j → j < k+xs.length → x ∈ xs → p (f x) = false → lost j x) :
    Evolves same added lost k xs ((xs.map f).filter p) := by
  induction xs generalizing k with
  | nil => exact .nil k
  | cons x xs ih =>
    have htail := ih (k := k+1) fun j y h₁ h₂ hy =>
      hl j y (by omega) (by simp only [List.length_cons]; omega) (List.mem_cons_of_mem x hy)
    simp only [List.map_cons, List.filter_cons]
    split
    · exact .keep (hf x) htail
    · rename_i hp
      exact .lose (hl k x (Nat.le_refl k) (by simp) List.mem_cons_self (by simpa using hp)) htail

theorem filter {p : α → Bool} (hs : ∀ x, same x x) (xs : List α)
    (hl : ∀ j x, p x = false → lost j x) (k : ℕ) :
    Evolves same added lost k xs (xs.filter p) := by
  simpa using filter_map (f := id) hs xs fun j x _ _ _ hp => hl j x hp

/-- A second change that loses items for a reason that does not depend on their position. -/
theorem trans {same' : α → α → Prop} {lost' : α → Prop} {j k : ℕ} {xs ys zs : List α}
    (h : Evolves same added lost k xs ys)
    (h' : Evolves same' (fun _ => False) (fun _ => lost') j ys zs)
    (hsame : ∀ x y z, same x y → same' y z → same x z)
    (hadded : ∀ y z, added y → same' y z → added z)
    (hlost : ∀ i x y, same x y → lost' y → lost i x) : Evolves same added lost k xs zs := by
  induction h generalizing j zs with
  | nil k =>
    cases h' with
    | nil => exact .nil k
    | add h => exact h.elim
  | keep h _ ih =>
    cases h' with
    | keep hyz h' => exact .keep (hsame _ _ _ h hyz) (ih h')
    | lose hl h' => exact .lose (hlost _ _ _ h hl) (ih h')
    | add h => exact h.elim
  | lose h _ ih => exact .lose h (ih h')
  | add h _ ih =>
    cases h' with
    | keep hyz h' => exact .add (hadded _ _ h hyz) (ih h')
    | lose _ h' => exact ih h'
    | add h => exact h.elim

/-- What is in the queue was in it before, in some form, or is new. -/
theorem mem {k : ℕ} {xs ys : List α} (h : Evolves same added lost k xs ys) {y : α}
    (hy : y ∈ ys) : (∃ x ∈ xs, same x y) ∨ added y := by
  induction h with
  | nil k => simp at hy
  | @keep _ x _ xs _ h _ ih =>
    rcases List.mem_cons.mp hy with rfl | hy
    · exact .inl ⟨x,List.mem_cons_self,h⟩
    · exact (ih hy).imp (fun ⟨z,hz,hs⟩ => ⟨z,List.mem_cons_of_mem x hz,hs⟩) id
  | @lose _ x xs _ _ _ ih =>
    exact (ih hy).imp (fun ⟨z,hz,hs⟩ => ⟨z,List.mem_cons_of_mem x hz,hs⟩) id
  | add h _ ih =>
    rcases List.mem_cons.mp hy with rfl | hy
    · exact .inr h
    · exact ih hy

end Evolves
end Queue
