import Mathlib.Data.List.Sort
import Mathlib.Data.List.DropRight

/-! Sorting by a key that keeps ties in the order in which they came, one insertion at a time, and the
greatest entries of such a sort. -/
namespace StableSort

variable {α β : Type} [LinearOrder β] {key : α → β}

/-- `s` is in the order of its keys, and holds those of every key in the order of `l`. -/
structure Sorts (key : α → β) (l s : List α) : Prop where
  sorted : s.Pairwise fun a b => key a ≤ key b
  ties (k : β) : s.filter (key · = k) = l.filter (key · = k)

theorem Sorts.mem_iff {l s : List α} (h : Sorts key l s) {a : α} : a ∈ s ↔ a ∈ l := by
  have hties := congrArg (a ∈ ·) (h.ties (key a))
  simpa using hties

/-- There is one such sort. -/
theorem Sorts.unique {l s t : List α} (hs : Sorts key l s) (ht : Sorts key l t) : s = t := by
  induction s generalizing l t with
  | nil =>
    cases t with
    | nil => rfl
    | cons b t => exact absurd (hs.mem_iff.mpr (ht.mem_iff.mp List.mem_cons_self)) List.not_mem_nil
  | cons a s ih =>
    cases t with
    | nil => exact absurd (ht.mem_iff.mpr (hs.mem_iff.mp List.mem_cons_self)) List.not_mem_nil
    | cons b t =>
      obtain ⟨hsa,hs'⟩ := List.pairwise_cons.mp hs.sorted
      obtain ⟨htb,ht'⟩ := List.pairwise_cons.mp ht.sorted
      have hkey : key a = key b := by
        apply le_antisymm
        · have hb := hs.mem_iff.mpr (ht.mem_iff.mp List.mem_cons_self)
          obtain rfl | hb := List.mem_cons.mp hb
          · exact le_rfl
          · exact hsa b hb
        · have ha := ht.mem_iff.mpr (hs.mem_iff.mp List.mem_cons_self)
          obtain rfl | ha := List.mem_cons.mp ha
          · exact le_rfl
          · exact htb a ha
      -- The heads are the first of one key, so they are equal; the tails sort one list again.
      have hhead : a = b ∧ s.filter (key · = key a) = t.filter (key · = key a) := by
        have hties := (hs.ties (key a)).trans (ht.ties (key a)).symm
        simpa [List.filter_cons, hkey] using hties
      obtain rfl := hhead.1
      have hst : Sorts key s t := by
        refine ⟨ht',fun k => ?_⟩
        have hties := (ht.ties k).trans (hs.ties k).symm
        by_cases hk : key a = k
        · simpa [List.filter_cons, hk] using hties
        · simpa [List.filter_cons, hk] using hties
      rw [ih ⟨hs',fun _ => rfl⟩ hst]

/-- Within each key a sort keeps what its list has of an order. -/
theorem Sorts.pairwise_lex {l s : List α} (h : Sorts key l s) {r : α → α → Prop} (hl : l.Pairwise r) :
    s.Pairwise fun a b => key a < key b ∨ key a = key b ∧ r a b := by
  rw [List.pairwise_iff_forall_sublist]
  intro a b hab
  obtain hlt | heq := (List.pairwise_iff_forall_sublist.mp h.sorted hab).lt_or_eq
  · exact .inl hlt
  · right
    have htied : [a,b].Sublist (l.filter (key · = key b)) := by
      rw [← h.ties]
      simpa [heq] using hab.filter (key · = key b)
    exact ⟨heq,List.pairwise_iff_forall_sublist.mp hl (htied.trans List.filter_sublist)⟩

theorem sorts_mergeSort (key : α → β) (l : List α) :
    Sorts key l (l.mergeSort fun a b => decide (key a ≤ key b)) := by
  have htrans : ∀ a b c : α, decide (key a ≤ key b) = true → decide (key b ≤ key c) = true →
      decide (key a ≤ key c) = true := by
    intro a b c hab hbc
    simp only [decide_eq_true_eq] at hab hbc ⊢
    exact hab.trans hbc
  have htotal : ∀ a b : α, (decide (key a ≤ key b) || decide (key b ≤ key a)) = true := by
    intro a b
    simpa using le_total (key a) (key b)
  refine ⟨?_,fun k => ?_⟩
  · simpa using List.pairwise_mergeSort htrans htotal l
  · have hpair : (l.filter (key · = k)).Pairwise fun a b => decide (key a ≤ key b) = true := by
      rw [List.pairwise_filter]
      refine List.pairwise_of_forall fun a b ha hb => ?_
      simp only [decide_eq_true_eq] at ha hb ⊢
      exact (ha.trans hb.symm).le
    have hsub := (List.sublist_mergeSort htrans htotal hpair List.filter_sublist).filter (key · = k)
    rw [List.filter_filter] at hsub
    simp only [Bool.and_self] at hsub
    exact (hsub.eq_of_length ((List.mergeSort_perm l _).filter _).length_eq.symm).symm

/-- Put `a` behind every entry whose key is not greater, up to the first one whose key is. -/
def insertAfter (key : α → β) (a : α) : List α → List α
  | [] => [a]
  | b :: l => if key b ≤ key a then b :: insertAfter key a l else a :: b :: l

theorem mem_insertAfter {a b : α} {l : List α} : b ∈ insertAfter key a l ↔ b = a ∨ b ∈ l := by
  induction l with
  | nil => simp [insertAfter]
  | cons c l ih =>
    simp only [insertAfter]
    split
    · simp only [List.mem_cons, ih]
      tauto
    · simp only [List.mem_cons]

theorem insertAfter_sorted {l : List α} (h : l.Pairwise fun a b => key a ≤ key b) (a : α) :
    (insertAfter key a l).Pairwise fun a b => key a ≤ key b := by
  induction l with
  | nil => exact List.pairwise_singleton _ a
  | cons b l ih =>
    obtain ⟨hb,hl⟩ := List.pairwise_cons.mp h
    simp only [insertAfter]
    split
    · rename_i hle
      refine List.pairwise_cons.mpr ⟨fun c hc => ?_,ih hl⟩
      obtain rfl | hc := mem_insertAfter.mp hc
      · exact hle
      · exact hb c hc
    · rename_i hlt
      refine List.pairwise_cons.mpr ⟨fun c hc => ?_,h⟩
      obtain rfl | hc := List.mem_cons.mp hc
      · exact (not_le.mp hlt).le
      · exact (not_le.mp hlt).le.trans (hb c hc)

/-- In a list in order, what has the key of the new entry is all in front of it. -/
theorem filter_insertAfter {l : List α} (h : l.Pairwise fun a b => key a ≤ key b) (a : α) (k : β) :
    (insertAfter key a l).filter (key · = k) = (l ++ [a]).filter (key · = k) := by
  induction l with
  | nil => rfl
  | cons b l ih =>
    obtain ⟨hb,hl⟩ := List.pairwise_cons.mp h
    simp only [insertAfter]
    split
    · rw [List.cons_append, List.filter_cons, List.filter_cons, ih hl]
    · rename_i hlt
      by_cases ha : key a = k
      · have hnone : (b :: l).filter (key · = k) = [] := by
          apply List.filter_eq_nil_iff.mpr
          intro c hc
          have hac : key a < key c := by
            obtain rfl | hc := List.mem_cons.mp hc
            · exact not_le.mp hlt
            · exact (not_le.mp hlt).trans_le (hb c hc)
          simpa using fun hck => (hac.trans_eq hck).ne ha
        rw [List.filter_append, hnone, List.filter_cons, hnone, List.nil_append, List.filter_singleton]
        simp [ha]
      · rw [List.filter_cons, List.filter_append]
        simp [ha]

theorem Sorts.insertAfter {l s : List α} (h : Sorts key l s) (a : α) :
    Sorts key (l ++ [a]) (insertAfter key a s) := by
  refine ⟨insertAfter_sorted h.sorted a,fun k => ?_⟩
  rw [filter_insertAfter h.sorted, List.filter_append, List.filter_append, h.ties]

/-- Entries inserted one at a time are sorted. -/
theorem sorts_foldl (key : α → β) (l : List α) :
    Sorts key l (l.foldl (fun s a => insertAfter key a s) []) := by
  induction l using List.reverseRecOn with
  | nil => exact ⟨List.Pairwise.nil,fun _ => rfl⟩
  | append_singleton l a ih =>
    rw [List.foldl_append]
    exact ih.insertAfter a

theorem rtake_cons {a : α} {l : List α} {n : ℕ} (h : n ≤ l.length) :
    (a :: l).rtake n = l.rtake n := by
  rw [List.rtake, List.rtake, List.length_cons, Nat.succ_sub h, List.drop_succ_cons]

theorem length_insertAfter (a : α) (l : List α) : (insertAfter key a l).length = l.length+1 := by
  induction l with
  | nil => rfl
  | cons b l ih =>
    simp only [insertAfter]
    split
    · rw [List.length_cons, ih, List.length_cons]
    · rfl

/-- The least entry of a list that is long enough is not missed when another one is inserted. -/
theorem rtake_insertAfter_cons {b : α} {l : List α} {n : ℕ}
    (h : (b :: l).Pairwise fun a b => key a ≤ key b) (hn : n ≤ l.length) (a : α) :
    (insertAfter key a (b :: l)).rtake n = (insertAfter key a l).rtake n := by
  simp only [insertAfter]
  split
  · apply rtake_cons
    rw [length_insertAfter]
    omega
  · rename_i hlt
    rw [rtake_cons (by simpa using hn.trans (Nat.le_succ _)), rtake_cons hn]
    cases l with
    | nil => rw [Nat.le_zero.mp hn, List.rtake_zero, List.rtake_zero]
    | cons c l =>
      have hc : ¬ key c ≤ key a :=
        not_le.mpr ((not_le.mp hlt).trans_le (List.pairwise_cons.mp h |>.1 c List.mem_cons_self))
      rw [insertAfter, if_neg hc, rtake_cons hn]

/-- Among the greatest entries after an insertion are only the greatest before it. -/
theorem rtake_insertAfter {l : List α} (h : l.Pairwise fun a b => key a ≤ key b) (n : ℕ) (a : α) :
    (insertAfter key a (l.rtake n)).rtake n = (insertAfter key a l).rtake n := by
  induction l with
  | nil => rw [List.rtake_nil]
  | cons b l ih =>
    by_cases hn : n ≤ l.length
    · rw [rtake_cons hn, ih (List.pairwise_cons.mp h).2, rtake_insertAfter_cons h hn]
    · have hall : (b :: l).rtake n = b :: l := by
        rw [List.rtake, List.length_cons, Nat.sub_eq_zero_of_le (by omega), List.drop_zero]
      rw [hall]

/-- Keeping the greatest entries after every insertion keeps those that the sort of all has at last. -/
theorem rtake_foldl (key : α → β) (n : ℕ) (l : List α) :
    l.foldl (fun s a => (insertAfter key a s).rtake n) [] =
      (l.foldl (fun s a => insertAfter key a s) []).rtake n := by
  induction l using List.reverseRecOn with
  | nil => rw [List.foldl_nil, List.foldl_nil, List.rtake_nil]
  | append_singleton l a ih =>
    rw [List.foldl_append, List.foldl_append, ih]
    exact rtake_insertAfter (sorts_foldl key l).sorted n a

/-- How many entries a new one with the key `k` is put in front of. -/
def behind (key : α → β) (k : β) (l : List α) : ℕ := (l.dropWhile (key · ≤ k)).length

theorem behind_cons (key : α → β) (k : β) (b : α) (l : List α) :
    behind key k (b :: l) = if key b ≤ k then behind key k l else l.length+1 := by
  simp only [behind, List.dropWhile_cons, decide_eq_true_eq]
  split
  · rfl
  · exact List.length_cons

theorem behind_le_length (key : α → β) (k : β) (l : List α) : behind key k l ≤ l.length :=
  (List.dropWhile_sublist _).length_le

theorem behind_insertAfter (k : β) (a : α) (l : List α) :
    behind key k (insertAfter key a l) ≤ behind key k l+1 := by
  induction l with
  | nil => exact (behind_le_length key k [a]).trans (Nat.le_add_left _ _)
  | cons b l ih =>
    simp only [insertAfter]
    split
    · rw [behind_cons, behind_cons, length_insertAfter]
      split
      · exact ih
      · exact le_rfl
    · rw [behind_cons key k a]
      split
      · exact Nat.le_succ _
      · rename_i hb ha
        -- The next entry has a greater key still.
        rw [behind_cons, if_neg fun hk => hb (hk.trans (not_le.mp ha).le), List.length_cons]

theorem behind_drop (key : α → β) (k : β) (n : ℕ) (l : List α) :
    behind key k (l.drop n) ≤ behind key k l := by
  induction l generalizing n with
  | nil => rw [List.drop_nil]
  | cons b l ih =>
    cases n with
    | zero => exact le_rfl
    | succ n =>
      rw [List.drop_succ_cons, behind_cons]
      split
      · exact ih n
      · exact (ih n).trans ((behind_le_length key k l).trans (Nat.le_succ _))

theorem sublist_insertAfter (a : α) (l : List α) : l.Sublist (insertAfter key a l) := by
  induction l with
  | nil => exact List.nil_sublist _
  | cons b l ih =>
    simp only [insertAfter]
    split
    · exact ih.cons_cons b
    · exact List.sublist_cons_self a _

theorem drop_insertAfter (a : α) (n : ℕ) (l : List α) :
    (l.drop n).Sublist ((insertAfter key a l).drop n) := by
  induction l generalizing n with
  | nil =>
    rw [List.drop_nil]
    exact List.nil_sublist _
  | cons b l ih =>
    cases n with
    | zero => exact sublist_insertAfter a _
    | succ n =>
      simp only [insertAfter]
      split
      · exact ih n
      · exact List.drop_sublist_drop_left (b :: l) (Nat.le_succ n)

/-- One insertion pushes an entry down by one place at most. -/
theorem mem_rtake_insertAfter {b : α} {l : List α} {n : ℕ} (h : b ∈ l.rtake n) (a : α) :
    b ∈ (insertAfter key a l).rtake (n+1) := by
  rw [List.rtake, length_insertAfter, Nat.add_sub_add_right]
  exact (drop_insertAfter a _ l).subset h

/-- A new entry stands right in front of those that it is put in front of. -/
theorem self_mem_rtake_insertAfter (a : α) (l : List α) :
    a ∈ (insertAfter key a l).rtake (behind key (key a) l+1) := by
  induction l with
  | nil => simp [insertAfter, behind, List.rtake]
  | cons b l ih =>
    rw [behind_cons]
    simp only [insertAfter]
    split
    · rw [rtake_cons ?_]
      · exact ih
      · rw [length_insertAfter]
        exact Nat.succ_le_succ (behind_le_length key _ l)
    · simp [List.rtake]

theorem mem_rtake_of_le {a : α} {l : List α} {m n : ℕ} (h : a ∈ l.rtake m) (hmn : m ≤ n) :
    a ∈ l.rtake n :=
  List.drop_subset_drop_left l (Nat.sub_le_sub_left hmn _) h

theorem rtake_rtake {l : List α} {m n : ℕ} (h : m ≤ n) : (l.rtake n).rtake m = l.rtake m := by
  simp only [List.rtake, List.length_drop, List.drop_drop]
  congr 1
  omega

end StableSort
