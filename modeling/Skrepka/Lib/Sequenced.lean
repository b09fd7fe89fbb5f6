import Mathlib.Data.List.Nodup
import Skrepka.Lib.Cutoff

/-! Rows that carry a sequence number: sorting by it, and dropping the oldest of them. -/
namespace Sequenced

variable {α : Type*} (key : α → ℤ)

def sortBy (rows : List α) : List α := rows.insertionSort fun a b => key a ≤ key b

/-- The key of the last of the `n` oldest rows. -/
def threshold (n : ℕ) (rows : List α) : ℤ := ((sortBy key rows).take n).getLast?.elim 0 key

theorem sortBy_perm (rows : List α) : (sortBy key rows).Perm rows := List.perm_insertionSort _ _

@[simp] theorem mem_sortBy {rows : List α} {a : α} : a ∈ sortBy key rows ↔ a ∈ rows :=
  (sortBy_perm key rows).mem_iff

@[simp] theorem length_sortBy (rows : List α) : (sortBy key rows).length = rows.length :=
  (sortBy_perm key rows).length_eq

theorem drop_sortBy_subperm (rows : List α) (n : ℕ) : ((sortBy key rows).drop n).Subperm rows :=
  (List.drop_sublist _ _).subperm.trans (sortBy_perm key rows).subperm

theorem sortBy_le (rows : List α) : (sortBy key rows).Pairwise fun a b => key a ≤ key b :=
  @List.pairwise_insertionSort _ (fun a b => key a ≤ key b) _ ⟨fun _ _ => le_total _ _⟩
    ⟨fun _ _ _ => le_trans⟩ rows

variable {key}

/-- Rows with distinct keys are strictly ordered by them. -/
theorem sortBy_lt {rows : List α} (h : (rows.map key).Nodup) :
    (sortBy key rows).Pairwise fun a b => key a < key b := by
  have hne : (sortBy key rows).Pairwise fun a b => key a ≠ key b :=
    List.pairwise_map.mp (((sortBy_perm key rows).map key).nodup_iff.mpr h)
  exact (sortBy_le key rows).imp₂ (fun _ _ hle hne => lt_of_le_of_ne hle hne) hne

theorem take_lt_drop {rows : List α} (h : (rows.map key).Nodup) {n : ℕ} {a b : α}
    (ha : a ∈ (sortBy key rows).take n) (hb : b ∈ (sortBy key rows).drop n) : key a < key b := by
  have hsorted := sortBy_lt h
  rw [← List.take_append_drop n (sortBy key rows), List.pairwise_append] at hsorted
  exact hsorted.2.2 a ha b hb

/-- Below the threshold are the `n` oldest rows. -/
theorem le_threshold_iff {rows : List α} (h : (rows.map key).Nodup) {n : ℕ} (hn : 0 < n)
    (hlen : n ≤ rows.length) {a : α} (ha : a ∈ rows) :
    key a ≤ threshold key n rows ↔ a ∈ (sortBy key rows).take n := by
  have htake : (sortBy key rows).take n ≠ [] := by
    refine List.ne_nil_of_length_pos ?_
    rw [List.length_take, length_sortBy]
    omega
  obtain ⟨front,last,hsplit⟩ := List.eq_nil_or_concat'  _ |>.resolve_left htake
  have hthreshold : threshold key n rows = key last := by
    rw [threshold, hsplit]
    simp
  rw [hthreshold]
  constructor
  · intro hle
    have hmem : a ∈ (sortBy key rows).take n ++ (sortBy key rows).drop n := by
      rw [List.take_append_drop]
      exact (mem_sortBy key).mpr ha
    obtain hmem | hmem := List.mem_append.mp hmem
    · exact hmem
    · have hlast : last ∈ (sortBy key rows).take n := by simp [hsplit]
      have := take_lt_drop h hlast hmem
      omega
  · intro hmem
    have hsorted : ((sortBy key rows).take n).Pairwise fun a b => key a < key b :=
      (sortBy_lt h).sublist (List.take_sublist n _)
    rw [hsplit] at hmem hsorted
    obtain hmem | hmem := List.mem_append.mp hmem
    · exact ((List.pairwise_append.mp hsorted).2.2 a hmem last (by simp)).le
    · rw [List.mem_singleton.mp hmem]

/-- As many rows are below the threshold. -/
theorem countP_le_threshold {rows : List α} (h : (rows.map key).Nodup) {n : ℕ} (hn : 0 < n)
    (hlen : n ≤ rows.length) :
    rows.countP (fun a => decide (key a ≤ threshold key n rows)) = n := by
  rw [← (sortBy_perm key rows).countP_eq, ← List.take_append_drop n (sortBy key rows),
    List.countP_append]
  have hfront : ((sortBy key rows).take n).countP
      (fun a => decide (key a ≤ threshold key n rows)) = n := by
    rw [List.countP_eq_length.mpr, List.length_take, length_sortBy, min_eq_left hlen]
    intro a ha
    have hmem : a ∈ rows := (mem_sortBy key).mp (List.mem_of_mem_take ha)
    exact decide_eq_true ((le_threshold_iff h hn hlen hmem).mpr ha)
  have hback : ((sortBy key rows).drop n).countP
      (fun a => decide (key a ≤ threshold key n rows)) = 0 := by
    refine List.countP_eq_zero.mpr fun a ha => ?_
    have hmem : a ∈ rows := (mem_sortBy key).mp (List.mem_of_mem_drop ha)
    rw [decide_eq_true_eq, le_threshold_iff h hn hlen hmem]
    intro htake
    exact lt_irrefl _ (take_lt_drop h htake ha)
  omega

/-- Of the rows from some key on, as many are left as the cut leaves room for. -/
theorem countP_drop_sortBy (rows : List α) (e : ℕ) (n : ℤ) :
    ((sortBy key rows).drop e).countP (fun a => decide (n ≤ key a)) =
      min (rows.length-e) (rows.countP fun a => decide (n ≤ key a)) := by
  rw [Cutoff.countP_drop ((sortBy_le key rows).imp fun hle h => ?_), length_sortBy,
    (sortBy_perm key rows).countP_eq]
  exact decide_eq_true ((of_decide_eq_true h).trans hle)

/-- A row stays if there is room for the rows from it on. -/
theorem mem_drop_sortBy_iff {rows : List α} (h : (rows.map key).Nodup) {e : ℕ} {a : α} (ha : a ∈ rows) :
    a ∈ (sortBy key rows).drop e ↔ rows.countP (fun b => decide (key a ≤ key b)) ≤ rows.length-e := by
  have hsplit := (sortBy_perm key rows).countP_eq fun b => decide (key a ≤ key b)
  rw [← List.take_append_drop e (sortBy key rows), List.countP_append, countP_drop_sortBy] at hsplit
  constructor
  · intro hmem
    have hfront : ((sortBy key rows).take e).countP (fun b => decide (key a ≤ key b)) = 0 := by
      refine List.countP_eq_zero.mpr fun b hb => ?_
      rw [decide_eq_true_eq, not_le]
      exact take_lt_drop h hb hmem
    omega
  · intro hle
    by_contra hcut
    have hmem : a ∈ (sortBy key rows).take e ++ (sortBy key rows).drop e := by
      rw [List.take_append_drop]
      exact (mem_sortBy key).mpr ha
    have hself : 0 < ((sortBy key rows).take e).countP fun b => decide (key a ≤ key b) :=
      List.countP_pos_iff.mpr ⟨a,(List.mem_append.mp hmem).resolve_right hcut,decide_eq_true le_rfl⟩
    omega

/-- The oldest rows are those that too few are older than. -/
theorem mem_take_sortBy_iff {rows : List α} (h : (rows.map key).Nodup) {n : ℕ} {a : α} (ha : a ∈ rows) :
    a ∈ (sortBy key rows).take n ↔ rows.countP (fun b => decide (key b < key a)) < n := by
  have hsplit := (sortBy_perm key rows).countP_eq fun b => decide (key b < key a)
  rw [← List.take_append_drop n (sortBy key rows), List.countP_append] at hsplit
  constructor
  · intro htake
    have hback : ((sortBy key rows).drop n).countP (fun b => decide (key b < key a)) = 0 := by
      refine List.countP_eq_zero.mpr fun b hb => ?_
      have := take_lt_drop h htake hb
      rw [decide_eq_true_eq]
      omega
    have hself := List.length_eq_countP_add_countP (fun b => decide (key b < key a))
      (l := (sortBy key rows).take n)
    have hnot : 0 < ((sortBy key rows).take n).countP fun b => ¬ decide (key b < key a) = true :=
      List.countP_pos_iff.mpr ⟨a,htake,by simp⟩
    have hlen := List.length_take_le n (sortBy key rows)
    omega
  · intro hlt
    by_contra hcut
    have hdrop := Cutoff.mem_drop_of_not_mem_take ((mem_sortBy key).mpr ha) hcut
    have hall : ((sortBy key rows).take n).countP (fun b => decide (key b < key a)) =
        ((sortBy key rows).take n).length :=
      List.countP_eq_length.mpr fun b hb => decide_eq_true (take_lt_drop h hb hdrop)
    have hlong : n ≤ (sortBy key rows).length := by
      by_contra hshort
      rw [List.drop_of_length_le (by omega)] at hdrop
      exact List.not_mem_nil hdrop
    rw [hall, List.length_take] at hsplit
    omega

end Sequenced
