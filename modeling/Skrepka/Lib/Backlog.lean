import Mathlib.Data.Int.Notation
import Mathlib.Data.List.Nodup
import Mathlib.Data.List.Perm.Subperm

/-! A backlog that is worked off in rounds: a round tries the first so many entries, each of which is then
done with or goes back to its place with its counter one higher, and below a limit. Entries may be lost at
any time. -/
namespace Backlog

variable {α ν : Type*} (name : α → ν) (count : α → ℤ) (batch limit : ℕ)

/-- Each entry of the first list is done with, or is in the second one with its counter one higher. -/
inductive Charged : List α → List α → Prop
  | nil : Charged [] []
  | done {x xs ys} (h : Charged xs ys) : Charged (x :: xs) ys
  | again {x y xs ys} (hname : name y = name x) (hcount : count y = count x+1) (hlimit : count y < limit)
      (h : Charged xs ys) : Charged (x :: xs) (y :: ys)

/-- Some rounds, each on a backlog that is not empty, with the names that each has tried, the last first. -/
inductive Rounds (start : List α) : List (List ν) → List α → Prop
  | none : Rounds start [] start
  | lose {log xs ys} (h : Rounds start log xs) (hsub : ys.Sublist xs) : Rounds start log ys
  | round {log xs ys} (h : Rounds start log xs) (hne : xs ≠ [])
      (hcharged : Charged name count limit (xs.take batch) ys) :
      Rounds start ((xs.take batch).map name :: log) (ys ++ xs.drop batch)

/-- A round that is under way: some of its batch have been tried, and the others are pending. -/
def Trying (start : List α) (log : List (List ν)) (tried pending ys : List α) : Prop :=
  ∃ mid again, Rounds name count batch limit start log mid ∧ mid ≠ [] ∧ mid.take batch = tried ++ pending ∧
    Charged name count limit tried again ∧ ys.Sublist (again ++ (pending ++ mid.drop batch))

section
variable {name count limit} {xs ys zs : List α}

theorem Charged.all_done (xs : List α) : Charged name count limit xs [] := by
  induction xs with
  | nil => exact .nil
  | cons x xs ih => exact .done ih

theorem Charged.append (h : Charged name count limit xs ys) {xs' ys' : List α}
    (h' : Charged name count limit xs' ys') : Charged name count limit (xs ++ xs') (ys ++ ys') := by
  induction h with
  | nil => exact h'
  | done _ ih => exact .done ih
  | again hname hcount hlimit _ ih => exact .again hname hcount hlimit ih

theorem Charged.names (h : Charged name count limit xs ys) : (ys.map name).Sublist (xs.map name) := by
  induction h with
  | nil => exact List.Sublist.slnil
  | done _ ih => exact ih.cons _
  | again hname _ _ _ ih =>
    rw [List.map_cons, List.map_cons, hname]
    exact ih.cons_cons _

theorem Charged.length_le (h : Charged name count limit xs ys) : ys.length ≤ xs.length := by
  simpa using h.names.length_le

/-- Where an entry that goes back comes from. -/
theorem Charged.mem (h : Charged name count limit xs ys) {y : α} (hy : y ∈ ys) :
    ∃ x ∈ xs, name y = name x ∧ count y = count x+1 ∧ count y < limit := by
  induction h with
  | nil => cases hy
  | done _ ih =>
    obtain ⟨x,hx,hxy⟩ := ih hy
    exact ⟨x,List.mem_cons_of_mem _ hx,hxy⟩
  | @again x _ _ _ hname hcount hlimit _ ih =>
    obtain rfl | hy := List.mem_cons.mp hy
    · exact ⟨x,List.mem_cons_self,hname,hcount,hlimit⟩
    · obtain ⟨x,hx,hxy⟩ := ih hy
      exact ⟨x,List.mem_cons_of_mem _ hx,hxy⟩

/-- The front of a list is charged to the front. -/
theorem Charged.split (h : Charged name count limit xs ys) (n : ℕ) :
    ∃ front back, ys = front ++ back ∧ Charged name count limit (xs.take n) front ∧
      Charged name count limit (xs.drop n) back := by
  induction h generalizing n with
  | nil => exact ⟨[],[],rfl,by simpa using Charged.nil,by simpa using Charged.nil⟩
  | @done x xs ys h ih =>
    cases n with
    | zero => exact ⟨[],ys,rfl,.nil,.done h⟩
    | succ n =>
      obtain ⟨front,back,rfl,hfront,hback⟩ := ih n
      exact ⟨front,back,rfl,.done hfront,hback⟩
  | @again x y xs ys hname hcount hlimit h ih =>
    cases n with
    | zero => exact ⟨[],y :: ys,rfl,.nil,.again hname hcount hlimit h⟩
    | succ n =>
      obtain ⟨front,back,rfl,hfront,hback⟩ := ih n
      exact ⟨y :: front,back,rfl,.again hname hcount hlimit hfront,hback⟩

variable {batch} {log : List (List ν)}

theorem Rounds.names (h : Rounds name count batch limit xs log ys) :
    (ys.map name).Sublist (xs.map name) := by
  induction h with
  | none => exact List.Sublist.refl _
  | lose _ hsub ih => exact (hsub.map name).trans ih
  | @round _ mid ys _ _ hcharged ih =>
    refine List.Sublist.trans ?_ ih
    rw [List.map_append]
    exact (hcharged.names.append_right _).trans (by
      rw [← List.map_append, List.take_append_drop])

theorem Rounds.nonneg (h : Rounds name count batch limit xs log ys) (hxs : ∀ x ∈ xs, 0 ≤ count x) :
    ∀ y ∈ ys, 0 ≤ count y := by
  induction h with
  | none => exact hxs
  | lose _ hsub ih => exact fun y hy => ih y (hsub.subset hy)
  | round _ _ hcharged ih =>
    intro y hy
    obtain hy | hy := List.mem_append.mp hy
    · obtain ⟨x,hx,-,hcount,-⟩ := hcharged.mem hy
      have := ih x (List.mem_of_mem_take hx)
      omega
    · exact ih y (List.mem_of_mem_drop hy)

/-- A round tries no more than a batch. -/
theorem Rounds.tried (h : Rounds name count batch limit xs log ys) : ∀ v ∈ log, v.length ≤ batch := by
  induction h with
  | none => simp
  | lose _ _ ih => exact ih
  | round _ _ _ ih =>
    intro v hv
    obtain rfl | hv := List.mem_cons.mp hv
    · rw [List.length_map]
      exact List.length_take_le _ _
    · exact ih v hv

/-- What is left of the first batch is in front, and has been tried in every round. -/
theorem Rounds.first_batch (h : Rounds name count batch limit xs log ys) (hxs : ∀ x ∈ xs, 0 ≤ count x) :
    ∃ front back, ys = front ++ back ∧ front.length ≤ batch ∧ back.length ≤ xs.length-batch ∧
      ∀ y ∈ front, (log.length : ℤ) ≤ count y ∧ (log ≠ [] → count y < limit) := by
  induction h with
  | none =>
    exact ⟨xs.take batch,xs.drop batch,(List.take_append_drop _ _).symm,List.length_take_le _ _,
      Nat.le_of_eq List.length_drop,fun y hy => ⟨hxs y (List.mem_of_mem_take hy),by simp⟩⟩
  | lose _ hsub ih =>
    obtain ⟨front,back,rfl,hfront,hback,hcounts⟩ := ih
    obtain ⟨front',back',rfl,hfront',hback'⟩ := List.sublist_append_iff.mp hsub
    exact ⟨front',back',rfl,Nat.le_trans hfront'.length_le hfront,Nat.le_trans hback'.length_le hback,
      fun y hy => hcounts y (hfront'.subset hy)⟩
  | @round log mid ys h _ hcharged ih =>
    obtain ⟨front,back,rfl,hfront,hback,hcounts⟩ := ih
    -- The batch is the front and some of the back.
    have htake : (front ++ back).take batch = front ++ back.take (batch-front.length) := by
      rw [List.take_append, List.take_of_length_le hfront]
    have hdrop : (front ++ back).drop batch = back.drop (batch-front.length) := by
      rw [List.drop_append, List.drop_of_length_le hfront, List.nil_append]
    rw [htake] at hcharged
    obtain ⟨front',back',rfl,hfront',hback'⟩ := hcharged.split front.length
    rw [List.take_left] at hfront'
    rw [List.drop_left] at hback'
    refine ⟨front',back' ++ back.drop (batch-front.length),?_,Nat.le_trans hfront'.length_le hfront,?_,fun y hy => ?_⟩
    · rw [hdrop, List.append_assoc]
    · have := hback'.length_le
      rw [List.length_take] at this
      rw [List.length_append, List.length_drop]
      omega
    · obtain ⟨x,hx,-,hcount,hlimit⟩ := hfront'.mem hy
      have := (hcounts x hx).1
      refine ⟨?_,fun _ => hlimit⟩
      rw [List.length_cons]
      push_cast
      omega

/-- The rounds after some of the first ones. -/
theorem Rounds.after (h : Rounds name count batch limit xs log ys) {n : ℕ} (hn : n ≤ log.length) :
    ∃ first last mid, log = last ++ first ∧ first.length = n ∧ Rounds name count batch limit xs first mid ∧
      Rounds name count batch limit mid last ys := by
  induction h with
  | none => exact ⟨[],[],xs,rfl,(Nat.le_zero.mp hn).symm,.none,.none⟩
  | lose _ hsub ih =>
    obtain ⟨first,last,mid,rfl,hfirst,hbefore,hafter⟩ := ih hn
    exact ⟨first,last,mid,rfl,hfirst,hbefore,hafter.lose hsub⟩
  | @round log mid ys h hne hcharged ih =>
    obtain hle | heq := Nat.le_or_eq_of_le_succ hn
    · obtain ⟨first,last,start,rfl,hfirst,hbefore,hafter⟩ := ih hle
      exact ⟨first,_ :: last,start,rfl,hfirst,hbefore,hafter.round hne hcharged⟩
    · exact ⟨_,[],_,rfl,heq.symm,h.round hne hcharged,.none⟩

/-- As many rounds as the limit leave nothing of the first batch. -/
theorem Rounds.batch_gone (h : Rounds name count batch limit xs log ys) (hxs : ∀ x ∈ xs, 0 ≤ count x)
    (hlimit : 1 ≤ limit) (hlog : log.length = limit) : ys.length ≤ xs.length-batch := by
  obtain ⟨front,back,rfl,-,hback,hcounts⟩ := h.first_batch hxs
  have hfront : front = [] := by
    refine List.eq_nil_iff_forall_not_mem.mpr fun y hy => ?_
    obtain ⟨hle,hlt⟩ := hcounts y hy
    have := hlt (List.ne_nil_of_length_pos (by omega))
    omega
  rw [hfront, List.nil_append]
  exact hback

theorem Rounds.batches_gone (h : Rounds name count batch limit xs log ys) (hxs : ∀ x ∈ xs, 0 ≤ count x)
    (hlimit : 1 ≤ limit) {m : ℕ} (hlog : m*limit ≤ log.length) : ys.length ≤ xs.length-m*batch := by
  induction m generalizing xs log with
  | zero => simpa using h.names.length_le
  | succ m ih =>
    rw [Nat.succ_mul] at hlog ⊢
    obtain ⟨first,last,mid,rfl,hfirst,hbefore,hafter⟩ := h.after (n := limit) (by omega)
    have hgone := hbefore.batch_gone hxs hlimit hfirst
    rw [List.length_append] at hlog
    have := ih hafter (hbefore.nonneg hxs) (by omega)
    omega

/-- Rounds enough for every batch leave nothing. -/
theorem Rounds.drained (h : Rounds name count batch limit xs log ys) (hxs : ∀ x ∈ xs, 0 ≤ count x)
    (hlimit : 1 ≤ limit) {m : ℕ} (hm : xs.length ≤ m*batch) (hlog : m*limit ≤ log.length) : ys = [] := by
  have := h.batches_gone hxs hlimit hlog
  exact List.eq_nil_of_length_eq_zero (by omega)

/-- There are no more rounds than that. -/
theorem Rounds.length_le (h : Rounds name count batch limit xs log ys) (hxs : ∀ x ∈ xs, 0 ≤ count x)
    (hlimit : 1 ≤ limit) {m : ℕ} (hm : xs.length ≤ m*batch) : log.length ≤ m*limit := by
  induction h with
  | none => exact Nat.zero_le _
  | lose _ _ ih => exact ih
  | round h hne _ =>
    by_contra hover
    exact hne (h.drained hxs hlimit hm (by rw [List.length_cons] at hover; omega))

/-- How an entry has fared: it is still there with its counter raised by the tries, or it is gone. -/
def Fared [BEq ν] (name : α → ν) (count : α → ℤ) (limit : ℕ) (tries : List ν) (ys : List α) (x : α) :
    Prop :=
  (∃ y ∈ ys, name y = name x ∧ count y = count x+tries.count (name x) ∧
    (name x ∈ tries → count y < limit)) ∨
  (name x ∉ ys.map name ∧ tries.count (name x) ≤ limit)

theorem Fared.count_le [BEq ν] [LawfulBEq ν] {tries : List ν} {x : α} (h : Fared name count limit tries ys x)
    (hx : 0 ≤ count x) : tries.count (name x) ≤ limit := by
  obtain ⟨y,-,-,hcount,hlt⟩ | ⟨-,hle⟩ := h
  · by_cases hin : name x ∈ tries
    · have := hlt hin
      omega
    · rw [List.count_eq_zero.mpr hin]
      exact Nat.zero_le _
  · exact hle

/-- Every entry is tried no more often than the limit. -/
theorem Rounds.fared [BEq ν] [LawfulBEq ν] (h : Rounds name count batch limit xs log ys)
    (hxs : ∀ x ∈ xs, 0 ≤ count x) (hnames : (xs.map name).Nodup) (hlimit : 1 ≤ limit) {x : α} (hx : x ∈ xs) :
    Fared name count limit log.flatten ys x := by
  induction h with
  | none => exact .inl ⟨x,hx,rfl,by simp,by simp⟩
  | @lose log mid ys h hsub ih =>
    by_cases hgone : name x ∈ ys.map name
    · obtain ⟨y,hy,hname,hcount,hlt⟩ | ⟨hlost,-⟩ := ih
      · obtain ⟨z,hz,hzname⟩ := List.mem_map.mp hgone
        obtain rfl : z = y := List.inj_on_of_nodup_map (hnames.sublist h.names) (hsub.subset hz) hy
          (hzname.trans hname.symm)
        exact .inl ⟨z,hz,hname,hcount,hlt⟩
      · exact absurd ((hsub.map name).subset hgone) hlost
    · exact .inr ⟨hgone,ih.count_le (hxs x hx)⟩
  | @round log mid ys h _ hcharged ih =>
    have hmid : (mid.map name).Nodup := hnames.sublist h.names
    have hsplit : ((mid.take batch).map name ++ (mid.drop batch).map name).Nodup := by
      rw [← List.map_append, List.take_append_drop]
      exact hmid
    obtain ⟨hfirst,-,hdisjoint⟩ := List.nodup_append.mp hsplit
    rw [List.flatten_cons]
    obtain ⟨y,hy,hname,hcount,hlt⟩ | ⟨hgone,hle⟩ := ih
    · by_cases htried : y ∈ mid.take batch
      · have honce : ((mid.take batch).map name).count (name x) = 1 :=
          List.count_eq_one_of_mem hfirst (hname ▸ List.mem_map_of_mem htried)
        by_cases hback : name x ∈ ys.map name
        · obtain ⟨z,hz,hzname⟩ := List.mem_map.mp hback
          obtain ⟨y',hy',hyname,hzcount,hzlimit⟩ := hcharged.mem hz
          obtain rfl : y' = y :=
            List.inj_on_of_nodup_map hfirst hy' htried (by rw [← hyname, hzname, hname])
          refine .inl ⟨z,List.mem_append_left _ hz,hzname,?_,fun _ => hzlimit⟩
          rw [List.count_append, honce, hzcount, hcount]
          push_cast
          omega
        · refine .inr ⟨?_,?_⟩
          · rw [List.map_append, List.mem_append, not_or]
            exact ⟨hback,fun hin => hdisjoint _ (hname ▸ List.mem_map_of_mem htried) _ hin rfl⟩
          · rw [List.count_append, honce]
            by_cases hin : name x ∈ log.flatten
            · have := hlt hin
              have := hxs x hx
              omega
            · rw [List.count_eq_zero.mpr hin]
              exact hlimit
      · have hlater : y ∈ mid.drop batch := by
          rw [← List.take_append_drop batch mid] at hy
          exact (List.mem_append.mp hy).resolve_left htried
        have hnone : name x ∉ (mid.take batch).map name := fun hin =>
          hdisjoint _ hin _ (List.mem_map_of_mem hlater) hname.symm
        refine .inl ⟨y,List.mem_append_right _ hlater,hname,?_,fun hin => hlt ?_⟩
        · rw [List.count_append, List.count_eq_zero.mpr hnone, Nat.zero_add]
          exact hcount
        · exact (List.mem_append.mp hin).resolve_left hnone
    · have hnone : name x ∉ (mid.take batch).map name := fun hin =>
        hgone (((List.take_sublist _ _).map name).subset hin)
      refine .inr ⟨?_,?_⟩
      · rw [List.map_append, List.mem_append, not_or]
        exact ⟨fun hin => hnone (hcharged.names.subset hin),
          fun hin => hgone (((List.drop_sublist _ _).map name).subset hin)⟩
      · rw [List.count_append, List.count_eq_zero.mpr hnone, Nat.zero_add]
        exact hle

theorem Rounds.start (h : Rounds name count batch limit xs log zs) (hne : zs ≠ []) (hsub : ys.Sublist zs) :
    Trying name count batch limit xs log [] (zs.take batch) ys :=
  ⟨zs,[],h,hne,rfl,.nil,by rwa [List.nil_append, List.take_append_drop]⟩

section
variable {tried pending : List α}

theorem Trying.finish (h : Trying name count batch limit xs log tried [] ys) :
    Rounds name count batch limit xs (tried.map name :: log) ys := by
  obtain ⟨mid,again,hrounds,hne,hbatch,hcharged,hsub⟩ := h
  rw [List.append_nil] at hbatch
  rw [← hbatch] at hcharged ⊢
  exact (hrounds.round hne hcharged).lose hsub

theorem Trying.lose (h : Trying name count batch limit xs log tried pending ys) (hsub : zs.Sublist ys) :
    Trying name count batch limit xs log tried pending zs := by
  obtain ⟨mid,again,hrounds,hne,hbatch,hcharged,hys⟩ := h
  exact ⟨mid,again,hrounds,hne,hbatch,hcharged,hsub.trans hys⟩

theorem Trying.tried_le (h : Trying name count batch limit xs log tried pending ys) :
    (tried ++ pending).length ≤ batch := by
  obtain ⟨mid,again,-,-,hbatch,-,-⟩ := h
  rw [← hbatch]
  exact List.length_take_le _ _

/-- The round as if all that is pending were done with. -/
theorem Trying.all_done (h : Trying name count batch limit xs log tried pending ys) :
    ∃ zs, Rounds name count batch limit xs ((tried ++ pending).map name :: log) zs := by
  obtain ⟨mid,again,hrounds,hne,hbatch,-,-⟩ := h
  rw [← hbatch]
  exact ⟨_,hrounds.round hne (Charged.all_done _)⟩

/-- The next answer: the entry that was tried is done with, or goes back charged. -/
theorem Trying.answered {x : α} (h : Trying name count batch limit xs log tried (x :: pending) ys)
    (hnames : (xs.map name).Nodup) {answer : α → Option α} (hothers : ∀ y, name y ≠ name x → answer y = some y)
    (hx : ∀ y ∈ answer x, name y = name x ∧ count y = count x+1 ∧ count y < limit) :
    Trying name count batch limit xs log (tried ++ [x]) pending (ys.filterMap answer) := by
  obtain ⟨mid,again,hrounds,hne,hbatch,hcharged,hsub⟩ := h
  have hmid : ((tried ++ x :: pending ++ mid.drop batch).map name).Nodup := by
    rw [← hbatch, List.take_append_drop]
    exact hnames.sublist hrounds.names
  have hkept : ∀ ys : List α, name x ∉ ys.map name → ys.filterMap answer = ys := by
    intro ys hys
    rw [List.filterMap_congr (g := some) fun y hy => hothers y fun heq => hys (heq ▸ List.mem_map_of_mem hy),
      List.filterMap_some]
  simp only [List.map_append, List.map_cons, List.append_assoc, List.cons_append] at hmid
  obtain ⟨-,hrest,hdisjoint⟩ := List.nodup_append.mp hmid
  have hnot := (List.nodup_cons.mp hrest).1
  have hagain : name x ∉ again.map name := fun hin =>
    hdisjoint _ (hcharged.names.subset hin) _ List.mem_cons_self rfl
  have hsub := hsub.filterMap answer
  rw [List.filterMap_append, hkept again hagain, List.cons_append, List.filterMap_cons] at hsub
  rw [← List.map_append] at hnot
  have hback := hkept (pending ++ mid.drop batch) hnot
  have hbatch' : mid.take batch = (tried ++ [x]) ++ pending := by simpa using hbatch
  cases hanswer : answer x with
  | none =>
    rw [hanswer, hback] at hsub
    refine ⟨mid,again,hrounds,hne,hbatch',?_,hsub⟩
    simpa using hcharged.append (.done .nil)
  | some y =>
    obtain ⟨hname,hcount,hlt⟩ := hx y hanswer
    rw [hanswer, hback] at hsub
    refine ⟨mid,again ++ [y],hrounds,hne,hbatch',hcharged.append (.again hname hcount hlt .nil),?_⟩
    rw [List.append_assoc, List.singleton_append]
    exact hsub

/-- While a round is under way, no entry has been tried more often than the limit. -/
theorem Trying.count_le [BEq ν] [LawfulBEq ν] (h : Trying name count batch limit xs log tried pending ys)
    (hxs : ∀ x ∈ xs, 0 ≤ count x) (hnames : (xs.map name).Nodup) (hlimit : 1 ≤ limit) {t : List α}
    (ht : t.Sublist (tried ++ pending)) {x : α} (hx : x ∈ xs) :
    (t.map name :: log).flatten.count (name x) ≤ limit := by
  obtain ⟨zs,hzs⟩ := h.all_done
  refine Nat.le_trans ?_ ((hzs.fared hxs hnames hlimit hx).count_le (hxs x hx))
  rw [List.flatten_cons, List.flatten_cons]
  exact ((ht.map name).append_right _).count_le _

end

end

end Backlog
