import Mathlib.Data.List.Basic
import Std.Data.TreeMap

/-! Tree maps whose comparison agrees with equality, read through lookups. -/
namespace Maps

variable {α β : Type*} {cmp : α → α → Ordering} [Std.TransCmp cmp] [Std.LawfulEqCmp cmp]
  {t : Std.TreeMap α β cmp}

omit [Std.TransCmp cmp] [Std.LawfulEqCmp cmp] in
theorem values_eq : t.values = t.toList.map Prod.snd := by
  have hfold : t.values = t.foldr (fun _ v vs => v :: vs) [] := rfl
  rw [hfold, Std.TreeMap.foldr_eq_foldr_toList]
  induction t.toList with
  | nil => rfl
  | cons p ps ih => simp [ih]

theorem mem_values {v : β} : v ∈ t.values ↔ ∃ k : α, t[k]? = some v := by
  simp only [values_eq, List.mem_map, Prod.exists, Std.TreeMap.mem_toList_iff_getElem?_eq_some]
  exact ⟨fun ⟨k,w,hk,hw⟩ => ⟨k,hw ▸ hk⟩,fun ⟨k,hk⟩ => ⟨k,v,hk,rfl⟩⟩

theorem getElem?_insert [DecidableEq α] (k a : α) (v : β) :
    (t.insert k v)[a]? = if k = a then some v else t[a]? := by
  simp [Std.TreeMap.getElem?_insert, Std.LawfulEqCmp.compare_eq_iff_eq]

theorem getElem?_erase [DecidableEq α] (k a : α) :
    (t.erase k)[a]? = if k = a then none else t[a]? := by
  simp [Std.TreeMap.getElem?_erase, Std.LawfulEqCmp.compare_eq_iff_eq]

theorem mem_toList {k : α} {v : β} : (k,v) ∈ t.toList ↔ t[k]? = some v :=
  Std.TreeMap.mem_toList_iff_getElem?_eq_some

/-- A fold over the entries, seen from one key: only the entry of that key is felt there. -/
theorem foldl_toList {σ γ : Type*} [DecidableEq α] {f : σ → α × β → σ} (view : σ → γ) {a : α}
    {F : β → γ → γ} (hother : ∀ s k v, k ≠ a → view (f s (k,v)) = view s)
    (hsame : ∀ s v, view (f s (a,v)) = F v (view s)) (s : σ) :
    view (t.toList.foldl f s) = (t[a]?).elim (view s) (fun v => F v (view s)) := by
  have hskip : ∀ (l : List (α × β)) (s : σ), (∀ p ∈ l, p.1 ≠ a) →
      view (l.foldl f s) = view s := by
    intro l
    induction l with
    | nil => exact fun _ _ => rfl
    | cons p l ih =>
      intro s hl
      rw [List.foldl_cons, ih _ fun q hq => hl q (List.mem_cons_of_mem _ hq)]
      exact hother s p.1 p.2 (hl p List.mem_cons_self)
  cases hv : t[a]? with
  | none =>
    refine hskip _ s fun p hp hpa => ?_
    have hmem : t[p.1]? = some p.2 := mem_toList.mp hp
    rw [hpa, hv] at hmem
    exact absurd hmem (by simp)
  | some v =>
    obtain ⟨l₁,l₂,hl⟩ := List.append_of_mem (mem_toList.mpr hv)
    have hkeys := t.distinct_keys_toList
    simp only [Std.LawfulEqCmp.compare_eq_iff_eq, hl, List.pairwise_append, List.pairwise_cons]
      at hkeys
    obtain ⟨-,⟨hafter,-⟩,hbefore⟩ := hkeys
    rw [hl, List.foldl_append, List.foldl_cons,
      hskip l₂ _ fun p hp h => hafter p hp h.symm, hsame,
      hskip l₁ _ fun p hp => hbefore p hp (a,v) (by simp)]
    rfl

/-- What the entries contribute that belongs to one key comes from the entry of that key. -/
theorem filter_flatMap_toList {γ : Type*} [DecidableEq α] {f : α × β → List γ} {owner : γ → α}
    (hf : ∀ p, ∀ c ∈ f p, owner c = p.1) (a : α) :
    (t.toList.flatMap f).filter (fun c => owner c = a) = (t[a]?).elim [] fun v => f (a,v) := by
  have hother : ∀ (cs : List γ) k v, k ≠ a →
      (cs ++ f (k,v)).filter (fun c => owner c = a) = cs.filter (fun c => owner c = a) := by
    intro cs k v hk
    have hnone : (f (k,v)).filter (fun c => owner c = a) = [] := by
      apply List.filter_eq_nil_iff.mpr
      intro c hc
      simpa [hf (k,v) c hc] using hk
    rw [List.filter_append, hnone, List.append_nil]
  have hsame : ∀ (cs : List γ) v,
      (cs ++ f (a,v)).filter (fun c => owner c = a) = cs.filter (fun c => owner c = a) ++ f (a,v) := by
    intro cs v
    have hall : (f (a,v)).filter (fun c => owner c = a) = f (a,v) := by
      apply List.filter_eq_self.mpr
      intro c hc
      simpa using hf (a,v) c hc
    rw [List.filter_append, hall]
  have hfold := foldl_toList (t := t) (f := fun cs p => cs ++ f p) (F := fun v cs => cs ++ f (a,v))
    (fun cs : List γ => cs.filter fun c => owner c = a) hother hsame []
  rw [List.flatMap_eq_foldl, hfold]
  cases t[a]? with
  | none => rfl
  | some v => rfl

end Maps
