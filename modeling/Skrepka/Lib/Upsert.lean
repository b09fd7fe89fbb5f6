import Mathlib.Data.List.Basic

/-! Queues in which a newer item takes the place of the first that it replaces, or goes to the
back when there is none. -/
namespace Queue

variable {α : Type*}

def upsert (p : α → Bool) (f : α → α) (a : α) (q : List α) : List α :=
  match q.findIdx? p with
  | some k => q.modify k f
  | none => q ++ [a]

section
variable {p : α → Bool} {f : α → α} {a : α}

@[simp] theorem upsert_nil : upsert p f a [] = [a] := rfl

theorem upsert_cons (x : α) (q : List α) :
    upsert p f a (x :: q) = if p x then f x :: q else x :: upsert p f a q := by
  cases hx : p x with
  | true => simp [upsert, List.findIdx?_cons, hx]
  | false =>
    simp only [upsert, List.findIdx?_cons, hx]
    cases List.findIdx? p q <;> simp

/-- What is replaced is the first of its kind. -/
theorem filter_upsert (hf : ∀ x, p x → p (f x)) (ha : p a) (q : List α) :
    (upsert p f a q).filter p = match q.filter p with
      | [] => [a]
      | x :: xs => f x :: xs := by
  induction q with
  | nil => simp [ha]
  | cons x q ih =>
    rw [upsert_cons]
    cases hx : p x with
    | true => simp [hx, hf x hx]
    | false => simpa [hx] using ih

/-- What is of another kind stays as it is. -/
theorem filter_upsert_other {r : α → Bool} (hr : ∀ x, p x → r x = false) (hf : ∀ x, p x → p (f x))
    (ha : p a) (q : List α) : (upsert p f a q).filter r = q.filter r := by
  induction q with
  | nil => simp [hr a ha]
  | cons x q ih =>
    rw [upsert_cons]
    cases hx : p x with
    | true => simp [hr x hx, hr _ (hf x hx)]
    | false => simp [List.filter_cons, ih]

/-- An item after an upsert was there before, or is the new one or one that was replaced. -/
theorem mem_upsert {y : α} {q : List α} (h : y ∈ upsert p f a q) :
    y ∈ q ∨ y = a ∨ ∃ x ∈ q, p x ∧ y = f x := by
  induction q with
  | nil => exact .inr (.inl (List.mem_singleton.mp h))
  | cons x q ih =>
    rw [upsert_cons] at h
    split at h
    · rename_i hx
      obtain rfl | h := List.mem_cons.mp h
      · exact .inr (.inr ⟨x,List.mem_cons_self,hx,rfl⟩)
      · exact .inl (List.mem_cons_of_mem x h)
    · obtain rfl | h := List.mem_cons.mp h
      · exact .inl List.mem_cons_self
      · obtain hq | ha | ⟨z,hz,hpz,hy⟩ := ih h
        · exact .inl (List.mem_cons_of_mem x hq)
        · exact .inr (.inl ha)
        · exact .inr (.inr ⟨z,List.mem_cons_of_mem x hz,hpz,hy⟩)

end
end Queue
