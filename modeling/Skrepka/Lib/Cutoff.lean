import Mathlib.Algebra.BigOperators.Group.Finset.Basic
import Mathlib.Algebra.Order.BigOperators.Group.Finset
import Mathlib.Data.List.Sort
import Mathlib.Data.List.Perm.Subperm

/-! Sorting a list by insertion and cutting it off: which entries stay, where ties are in the order in
which they came; and how many stay when there is room for so many of each kind. -/
namespace Cutoff

variable {α : Type*} {r : α → α → Prop} {s : List α} {n : ℕ} {a b : α}

/-- What is kept goes before what is cut off. -/
theorem rel_of_take_drop (h : s.Pairwise r) (ha : a ∈ s.take n) (hb : b ∈ s.drop n) : r a b := by
  rw [← List.take_append_drop n s, List.pairwise_append] at h
  exact h.2.2 a ha b hb

theorem mem_drop_of_not_mem_take (ha : a ∈ s) (h : a ∉ s.take n) : a ∈ s.drop n := by
  rw [← List.take_append_drop n s] at ha
  exact (List.mem_append.mp ha).resolve_left h

/-- What comes before an entry that is kept is kept. -/
theorem mem_take_of_pair (hs : s.Nodup) (hpair : [b,a].Sublist s) (ha : a ∈ s.take n) : b ∈ s.take n := by
  by_contra hb
  have hdisjoint : ∀ c, c ∈ s.take n → c ∉ s.drop n := by
    rw [← List.take_append_drop n s, List.nodup_append] at hs
    exact fun c hc hc' => hs.2.2 c hc c hc' rfl
  rw [← List.take_append_drop n s] at hpair
  obtain ⟨kept,cut,hsplit,hkept,hcut⟩ := List.sublist_append_iff.mp hpair
  cases kept with
  | nil =>
    obtain rfl : [b,a] = cut := hsplit
    exact hdisjoint a ha (hcut.subset (by simp))
  | cons c kept =>
    obtain rfl : b = c := (List.cons.inj hsplit).1
    exact hb (hkept.subset List.mem_cons_self)

/-- Of entries that come last in the order as many are left as the cut leaves room for. -/
theorem countP_drop {p : α → Bool} (h : s.Pairwise fun a b => p a → p b) (n : ℕ) :
    (s.drop n).countP p = min (s.length-n) (s.countP p) := by
  induction s generalizing n with
  | nil => simp
  | cons a s ih =>
    obtain ⟨ha,hs⟩ := List.pairwise_cons.mp h
    cases n with
    | zero => rw [List.drop_zero, Nat.sub_zero, min_eq_right List.countP_le_length]
    | succ n =>
      rw [List.drop_succ_cons, ih hs, List.length_cons, Nat.add_sub_add_right]
      cases hp : p a with
      | false => rw [List.countP_cons_of_neg (by simp [hp])]
      | true =>
        have hall : s.countP p = s.length := List.countP_eq_length.mpr fun b hb => ha b hb hp
        rw [List.countP_cons_of_pos hp, hall]
        omega

variable [DecidableRel r]

theorem orderedInsert_of_forall_rel {a : α} {l : List α} (h : ∀ b ∈ l, r a b) : l.orderedInsert r a = a :: l := by
  cases l with
  | nil => rfl
  | cons b l => simp [h b List.mem_cons_self]

theorem orderedInsert_append_of_rel {x : α} (hx : r x a) (p q : List α) :
    (p ++ a :: q).orderedInsert r x = p.orderedInsert r x ++ a :: q := by
  induction p with
  | nil => simp [hx]
  | cons b p ih =>
    by_cases hb : r x b
    · simp [hb]
    · simp [hb, ih]

theorem orderedInsert_append_of_not {x : α} {p : List α} (hx : ∀ b ∈ p, ¬ r x b) (ha : ¬ r x a)
    (q : List α) : (p ++ a :: q).orderedInsert r x = p ++ a :: q.orderedInsert r x := by
  induction p with
  | nil => simp [ha]
  | cons b p ih =>
    have hb := hx b List.mem_cons_self
    simp [hb, ih fun c hc => hx c (List.mem_cons_of_mem b hc)]

/-- The last entry goes right behind all that may come before it. -/
theorem insertionSort_append_singleton [IsTrans α r] (l : List α) (a : α) :
    (l ++ [a]).insertionSort r = (l.filter fun b => r b a).insertionSort r ++
      a :: (l.filter fun b => ¬ r b a).insertionSort r := by
  induction l with
  | nil => simp
  | cons x l ih =>
    rw [List.cons_append, List.insertionSort_cons, ih]
    by_cases hx : r x a
    · rw [List.filter_cons_of_pos (by simpa using hx), List.filter_cons_of_neg (by simpa using hx),
        List.insertionSort_cons, orderedInsert_append_of_rel hx]
    · have hbefore : ∀ b ∈ (l.filter fun b => r b a).insertionSort r, ¬ r x b := by
        intro b hb hxb
        rw [List.mem_insertionSort, List.mem_filter] at hb
        exact hx (trans_of r hxb (of_decide_eq_true hb.2))
      rw [List.filter_cons_of_neg (by simpa using hx), List.filter_cons_of_pos (by simpa using hx),
        List.insertionSort_cons, orderedInsert_append_of_not hbefore hx]

variable [Std.Total r]

/-- An entry that no more than so many others precede, itself counted, is kept. -/
theorem mem_take_of_countP_le (h : s.Pairwise r) (ha : a ∈ s) (hn : s.countP (fun b => r b a) ≤ n) :
    a ∈ s.take n := by
  by_contra hcut
  have hdrop := mem_drop_of_not_mem_take ha hcut
  have hall : (s.take n).countP (fun b => r b a) = (s.take n).length :=
    List.countP_eq_length.mpr fun b hb => decide_eq_true (rel_of_take_drop h hb hdrop)
  have hself : 0 < (s.drop n).countP fun b => r b a :=
    List.countP_pos_iff.mpr ⟨a,hdrop,decide_eq_true (refl_of r a)⟩
  have hlen : n < s.length := by
    by_contra hshort
    rw [List.drop_of_length_le (by omega)] at hdrop
    exact List.not_mem_nil hdrop
  rw [← List.take_append_drop n s, List.countP_append, hall, List.length_take] at hn
  omega

variable [IsTrans α r]

/-- The new entries stay exactly if each is preceded by few enough, ties counted. -/
theorem keeps_new_iff {old new : List α} (hnodup : (old ++ new).Nodup) :
    (∀ a ∈ new, a ∈ ((old ++ new).insertionSort r).take n) ↔
      ∀ a ∈ new, (old ++ new).countP (fun b => r b a) ≤ n := by
  have hperm := List.perm_insertionSort r (old ++ new)
  have hsorted := List.pairwise_insertionSort r (old ++ new)
  have hsnodup := hperm.nodup_iff.mpr hnodup
  constructor
  · intro h a ha
    have hkept : ∀ b ∈ old ++ new, r b a → b ∈ ((old ++ new).insertionSort r).take n := by
      intro b hb hba
      obtain hold | hnew := List.mem_append.mp hb
      · have hpair : [b,a].Sublist (old ++ new) :=
          (List.singleton_sublist.mpr hold).append (List.singleton_sublist.mpr ha)
        exact mem_take_of_pair hsnodup (List.pair_sublist_insertionSort hba hpair) (h a ha)
      · exact h b hnew
    have hsub : ((old ++ new).filter fun b => r b a).Subperm (((old ++ new).insertionSort r).take n) := by
      refine (hnodup.filter _).subperm fun b hb => ?_
      obtain ⟨hb,hba⟩ := List.mem_filter.mp hb
      exact hkept b hb (of_decide_eq_true hba)
    rw [List.countP_eq_length_filter]
    exact hsub.length_le.trans (List.length_take_le _ _)
  · intro h a ha
    refine mem_take_of_countP_le hsorted (hperm.mem_iff.mpr (List.mem_append_right _ ha)) ?_
    rw [hperm.countP_eq]
    exact h a ha

/-- When the front of the sorted list is cut off, the last entry stays exactly if it is not in it. -/
theorem mem_drop_iff {l : List α} :
    a ∈ ((l ++ [a]).insertionSort r).drop n ↔ n ≤ l.countP fun b => r b a := by
  have hlen : ((l.filter fun b => r b a).insertionSort r).length = l.countP fun b => r b a := by
    rw [List.length_insertionSort, List.countP_eq_length_filter]
  have hlater : a ∉ (l.filter fun b => ¬ r b a).insertionSort r := by
    rw [List.mem_insertionSort, List.mem_filter]
    simp [refl_of r a]
  rw [insertionSort_append_singleton, List.drop_append, hlen]
  constructor
  · intro h
    by_contra hlt
    rw [List.drop_of_length_le (by omega), List.nil_append] at h
    obtain ⟨k,hk⟩ : ∃ k, n-l.countP (fun b => decide (r b a)) = k+1 := ⟨n-l.countP (fun b => r b a)-1,by omega⟩
    rw [hk, List.drop_succ_cons] at h
    exact hlater (List.mem_of_mem_drop h)
  · intro hle
    rw [Nat.sub_eq_zero_of_le hle, List.drop_zero]
    exact List.mem_append_right _ List.mem_cons_self

/-- Entries may change or go before the sort or after it, where the order among them stays. -/
theorem insertionSort_filterMap {f : α → Option α}
    (hf : ∀ a b a' b', f a = some a' → f b = some b' → (r a b ↔ r a' b')) (l : List α) :
    (l.filterMap f).insertionSort r = (l.insertionSort r).filterMap f := by
  have hinsert : ∀ (a : α) (s : List α), s.Pairwise r → (s.orderedInsert r a).filterMap f =
      (f a).elim (s.filterMap f) fun a' => (s.filterMap f).orderedInsert r a' := by
    intro a s hs
    induction s with
    | nil => cases ha : f a <;> simp [ha]
    | cons b s ih =>
      obtain ⟨hb,hs⟩ := List.pairwise_cons.mp hs
      by_cases hab : r a b
      · rw [List.orderedInsert_cons, if_pos hab, List.filterMap_cons]
        cases ha : f a with
        | none => rfl
        | some a' =>
          refine (orderedInsert_of_forall_rel fun c' hc' => ?_).symm
          obtain ⟨c,hc,hfc⟩ := List.mem_filterMap.mp hc'
          obtain rfl | hc := List.mem_cons.mp hc
          · exact (hf _ _ _ _ ha hfc).mp hab
          · exact (hf _ _ _ _ ha hfc).mp (trans_of r hab (hb c hc))
      · rw [List.orderedInsert_cons, if_neg hab, List.filterMap_cons, ih hs, List.filterMap_cons]
        cases ha : f a with
        | none => rfl
        | some a' =>
          cases hfb : f b with
          | none => rfl
          | some b' =>
            have hab' : ¬ r a' b' := fun h => hab ((hf _ _ _ _ ha hfb).mpr h)
            simp only [Option.elim_some, List.orderedInsert_cons, if_neg hab']
  induction l with
  | nil => rfl
  | cons a l ih =>
    rw [List.insertionSort_cons, hinsert a _ (List.pairwise_insertionSort r l), ← ih, List.filterMap_cons]
    cases f a <;> rfl

section
variable {κ : Type*} [BEq κ] [LawfulBEq κ] [DecidableEq κ] {R : ℕ} {xs ys : List κ}

/-- How many entries are left when no more than so many of each kind stay. -/
def left {κ : Type*} [BEq κ] [DecidableEq κ] (R : ℕ) (kinds : List κ) : ℕ := ∑ k ∈ kinds.toFinset, min R (kinds.count k)

theorem left_eq_sum {s : Finset κ} (h : xs.toFinset ⊆ s) : left R xs = ∑ k ∈ s, min R (xs.count k) := by
  refine Finset.sum_subset h fun k _ hk => ?_
  rw [List.mem_toFinset] at hk
  rw [List.count_eq_zero_of_not_mem hk, Nat.min_zero]

theorem left_mono (h : ∀ k, min R (xs.count k) ≤ ys.count k) : left R xs ≤ left R ys := by
  have hxs : xs.toFinset ⊆ xs.toFinset ∪ ys.toFinset := Finset.subset_union_left
  have hys : ys.toFinset ⊆ xs.toFinset ∪ ys.toFinset := Finset.subset_union_right
  rw [left_eq_sum (R := R) hxs, left_eq_sum (R := R) hys]
  exact Finset.sum_le_sum fun k _ => le_min (min_le_left _ _) (h k)

theorem left_congr (h : ∀ k, min R (xs.count k) = min R (ys.count k)) : left R xs = left R ys :=
  le_antisymm (left_mono fun k => (h k).le.trans (min_le_right _ _))
    (left_mono fun k => (h k).ge.trans (min_le_right _ _))

theorem left_of_count_le (h : ∀ k, xs.count k ≤ R) : left R xs = xs.length := by
  rw [left, ← List.sum_toFinset_count_eq_length]
  refine Finset.sum_congr rfl fun k _ => ?_
  exact (min_eq_right (h k)).trans (List.countP_congr fun a _ => by simp)

end

end Cutoff
