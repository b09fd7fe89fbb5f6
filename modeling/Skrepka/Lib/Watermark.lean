import Mathlib.Data.List.Basic
import Mathlib.Order.Lattice

/-! A watermark over arrivals from one source. An arrival is let through if it reaches the
watermark, which then moves to its stamp: the arrival's own mark, but not past the clock. -/
namespace Watermark

/-- What is compared with the watermark, and the clock when it is. -/
structure Mark (α : Type*) where
  reach : α
  now : α

variable {ι α : Type*} [LinearOrder α]

def Mark.stamp (a : Mark α) : α := min a.reach a.now

section
variable (mark : ι → Mark α)

def advance (w : α) (i : ι) : α := if w ≤ (mark i).reach then (mark i).stamp else w

/-- The watermark that arrivals leave behind. -/
def level (w : α) (is : List ι) : α := is.foldl (advance mark) w

/-- The last arrival that was let through. -/
def latest (w : α) : List ι → Option ι
  | [] => none
  | i :: is =>
    (latest (advance mark w i) is).or (if w ≤ (mark i).reach then some i else none)

/-- All the arrivals that were let through. -/
def passed (w : α) : List ι → List ι
  | [] => []
  | i :: is =>
    (if w ≤ (mark i).reach then [i] else []) ++ passed (advance mark w i) is

/-- An arrival is let through after those before it. -/
def Passes (w : α) (before : List ι) (i : ι) : Prop := level mark w before ≤ (mark i).reach

/-- The clock has not run backwards since the watermark was stamped. -/
def Forward (w : α) (is : List ι) : Prop := (w :: is.map fun i => (mark i).now).Pairwise (· ≤ ·)

end

variable {mark : ι → Mark α}

@[simp] theorem level_nil (w : α) : level mark w [] = w := rfl

@[simp] theorem level_cons (w : α) (i : ι) (is : List ι) :
    level mark w (i :: is) = level mark (advance mark w i) is := rfl

@[simp] theorem latest_nil (w : α) : latest mark w [] = none := rfl

theorem level_append (w : α) (is js : List ι) :
    level mark w (is ++ js) = level mark (level mark w is) js := List.foldl_append

theorem latest_append (w : α) (is js : List ι) :
    latest mark w (is ++ js) = (latest mark (level mark w is) js).or (latest mark w is) := by
  induction is generalizing w with
  | nil => simp
  | cons i is ih => simp [latest, ih, Option.or_assoc]

@[simp] theorem passed_nil (w : α) : passed mark w [] = [] := rfl

theorem passed_append (w : α) (is js : List ι) :
    passed mark w (is ++ js) = passed mark w is ++ passed mark (level mark w is) js := by
  induction is generalizing w with
  | nil => simp
  | cons i is ih => simp [passed, ih]

theorem mem_passed {w : α} {is : List ι} {i : ι} :
    i ∈ passed mark w is ↔
      ∃ before after, is = before ++ i :: after ∧ Passes mark w before i := by
  constructor
  · intro h
    induction is generalizing w with
    | nil => simp at h
    | cons j is ih =>
      rw [passed, List.mem_append] at h
      obtain h | h := h
      · split at h
        · rename_i hj
          obtain rfl := List.mem_singleton.mp h
          exact ⟨[],is,rfl,hj⟩
        · simp at h
      · obtain ⟨before,after,rfl,hi⟩ := ih h
        exact ⟨j :: before,after,rfl,hi⟩
  · rintro ⟨before,after,rfl,hi⟩
    rw [passed_append, List.mem_append, passed]
    refine .inr (List.mem_append_left _ ?_)
    have hi' : level mark w before ≤ (mark i).reach := hi
    rw [if_pos hi']
    exact List.mem_singleton_self i

theorem advance_eq_max {w : α} {i : ι} (h : w ≤ (mark i).now) :
    advance mark w i = max w (mark i).stamp := by
  unfold advance
  split
  · rename_i hreach
    exact (max_eq_right (le_min hreach h)).symm
  · rename_i hreach
    exact (max_eq_left ((min_le_left _ _).trans (not_le.mp hreach).le)).symm

/-- While the clock does not run backwards, the watermark is the highest stamp so far. -/
theorem level_le_iff {w b : α} {is : List ι} (hclock : Forward mark w is) :
    level mark w is ≤ b ↔ w ≤ b ∧ ∀ i ∈ is, (mark i).stamp ≤ b := by
  induction is generalizing w with
  | nil => simp
  | cons i is ih =>
    rw [Forward, List.map_cons, List.pairwise_cons, List.pairwise_cons] at hclock
    obtain ⟨hw,hi,his⟩ := hclock
    have hstep := advance_eq_max (hw _ List.mem_cons_self)
    have hle : advance mark w i ≤ (mark i).now := by
      rw [hstep]
      exact max_le (hw _ List.mem_cons_self) (min_le_right _ _)
    have hrest : Forward mark (advance mark w i) is :=
      List.pairwise_cons.mpr ⟨fun t ht => hle.trans (hi t ht),his⟩
    rw [level_cons, ih hrest, hstep, sup_le_iff, List.forall_mem_cons, and_assoc]

theorem Forward.left {w : α} {is js : List ι} (h : Forward mark w (is ++ js)) :
    Forward mark w is := by
  rw [Forward, List.map_append, ← List.cons_append] at h
  exact (List.pairwise_append.mp h).1

@[simp] theorem passes_cons {w : α} {before : List ι} {i j : ι} :
    Passes mark w (j :: before) i ↔ Passes mark (advance mark w j) before i := Iff.rfl

/-- The latest arrival is the one after which none was let through. -/
theorem latest_cases (mark : ι → Mark α) (w : α) (is : List ι) :
    (∃ before i after, is = before ++ i :: after ∧ Passes mark w before i ∧
      latest mark w is = some i ∧
      ∀ mid j rest, after = mid ++ j :: rest → ¬Passes mark w (before ++ i :: mid) j) ∨
    (latest mark w is = none ∧
      ∀ before i after, is = before ++ i :: after → ¬Passes mark w before i) := by
  induction is generalizing w with
  | nil => exact .inr ⟨rfl,by simp⟩
  | cons i is ih =>
    obtain ⟨before,j,after,rfl,hj,hlast,hlater⟩ | ⟨hlast,hnone⟩ := ih (advance mark w i)
    · exact .inl ⟨i :: before,j,after,rfl,hj,by simp [latest, hlast],hlater⟩
    by_cases hi : w ≤ (mark i).reach
    · exact .inl ⟨[],i,is,rfl,hi,by simp [latest, hlast, hi],
        fun mid j rest h => hnone mid j rest h⟩
    · refine .inr ⟨by simp [latest, hlast, hi],fun before j after h => ?_⟩
      cases before with
      | nil =>
        obtain ⟨rfl,-⟩ := List.cons.inj h
        exact hi
      | cons k before =>
        obtain ⟨rfl,hrest⟩ := List.cons.inj h
        exact hnone before j after hrest

/-- Of two places in a list, one comes first or they are the same. -/
theorem split_cases {as₁ as₂ bs₁ bs₂ : List ι} {a b : ι}
    (h : as₁ ++ a :: as₂ = bs₁ ++ b :: bs₂) :
    (∃ mid, as₂ = mid ++ b :: bs₂ ∧ bs₁ = as₁ ++ a :: mid) ∨ a = b ∨
      ∃ mid, bs₂ = mid ++ a :: as₂ ∧ as₁ = bs₁ ++ b :: mid := by
  induction as₁ generalizing bs₁ with
  | nil =>
    cases bs₁ with
    | nil => exact .inr (.inl (List.cons.inj h).1)
    | cons c bs₁ =>
      obtain ⟨rfl,rfl⟩ := List.cons.inj h
      exact .inl ⟨bs₁,rfl,rfl⟩
  | cons c as₁ ih =>
    cases bs₁ with
    | nil =>
      obtain ⟨rfl,rfl⟩ := List.cons.inj h
      exact .inr (.inr ⟨as₁,rfl,rfl⟩)
    | cons d bs₁ =>
      obtain ⟨rfl,hrest⟩ := List.cons.inj h
      obtain ⟨mid,rfl,rfl⟩ | rfl | ⟨mid,rfl,rfl⟩ := ih hrest
      · exact .inl ⟨mid,rfl,rfl⟩
      · exact .inr (.inl rfl)
      · exact .inr (.inr ⟨mid,rfl,rfl⟩)

/-- If an arrival with some property is let through, the latest arrival has it exactly when each
later one without it that is let through is followed by one with it. -/
theorem latest_iff {w : α} {P : ι → Prop} {before after : List ι} {i : ι}
    (hi : Passes mark w before i) (hP : P i) :
    (∃ l, latest mark w (before ++ i :: after) = some l ∧ P l) ↔
      ∀ mid j rest, after = mid ++ j :: rest → Passes mark w (before ++ i :: mid) j → ¬P j →
        ∃ mid' k rest', rest = mid' ++ k :: rest' ∧
          Passes mark w (before ++ i :: mid ++ j :: mid') k ∧ P k := by
  obtain ⟨is₁,l,is₂,hsplit,hl,hlast,hlater⟩ | ⟨-,hnone⟩ :=
    latest_cases mark w (before ++ i :: after)
  · simp only [hlast, Option.some.injEq, exists_eq_left']
    constructor
    · rintro hPl mid j rest rfl hj hPj
      have hsplit' : (before ++ i :: mid) ++ j :: rest = is₁ ++ l :: is₂ := by
        rw [← hsplit]; simp
      obtain ⟨m,rfl,rfl⟩ | rfl | ⟨m,rfl,hm⟩ := split_cases hsplit'
      · exact ⟨m,l,is₂,rfl,hl,hPl⟩
      · exact absurd hPl hPj
      · rw [hm] at hj
        exact absurd hj (hlater m j rest rfl)
    · intro hsettles
      by_contra hPl
      obtain ⟨m,rfl,rfl⟩ | rfl | ⟨m,rfl,rfl⟩ := split_cases hsplit
      · obtain ⟨m',k,rest,rfl,hk,-⟩ := hsettles m l is₂ rfl hl hPl
        exact hlater m' k rest rfl hk
      · exact hPl hP
      · exact hlater m i after rfl hi
  · exact absurd hi (hnone before i after rfl)

end Watermark
