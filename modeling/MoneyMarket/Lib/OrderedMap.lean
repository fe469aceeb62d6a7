/-
Maps in insertion order, as association lists: a key keeps its place when its value is replaced.
-/
import Mathlib.Tactic

namespace OrderedMap

variable {κ ν : Type} [DecidableEq κ]

def get : List (κ × ν) → κ → Option ν
  | [], _ => none
  | (k', v) :: m, k => if k' = k then some v else get m k

def set : List (κ × ν) → κ → ν → List (κ × ν)
  | [], k, v => [(k, v)]
  | (k', v') :: m, k, v => if k' = k then (k, v) :: m else (k', v') :: set m k v

/-- A lookup after an update. -/
theorem get_set (m : List (κ × ν)) (k l : κ) (v : ν) : get (set m k v) l = if k = l then some v else get m l := by
  induction m with
  | nil => rfl
  | cons e m ih =>
    obtain ⟨k', v'⟩ := e
    unfold set
    by_cases hk : k' = k
    · subst hk
      rw [if_pos rfl]
      unfold get
      split_ifs <;> rfl
    · rw [if_neg hk]
      unfold get
      rw [ih]
      by_cases hl : k' = l
      · rw [if_pos hl, if_pos hl, if_neg fun h => hk (hl.trans h.symm)]
      · rw [if_neg hl, if_neg hl]

/-- A lookup after every key of a list was set to its own value. -/
theorem get_foldl_set (f : κ → ν) (k : κ) (ks : List κ) (m : List (κ × ν)) :
    get (ks.foldl (fun m k => set m k (f k)) m) k = if k ∈ ks then some (f k) else get m k := by
  induction ks generalizing m with
  | nil => simp
  | cons l ks ih =>
    rw [List.foldl_cons, ih, get_set]
    by_cases hl : l = k
    · subst hl; simp
    · simp [hl, Ne.symm hl]

/-- A lookup once only the keys that meet `p` are kept. -/
theorem get_filter (p : κ → Prop) [DecidablePred p] (m : List (κ × ν)) (k : κ) :
    get (m.filter fun e => decide (p e.1)) k = if p k then get m k else none := by
  induction m with
  | nil => exact (ite_self _).symm
  | cons e m ih =>
    obtain ⟨l, v⟩ := e
    by_cases hl : p l
    · rw [List.filter_cons_of_pos (by simpa using hl)]
      unfold get
      by_cases hlk : l = k
      · subst hlk; rw [if_pos rfl, if_pos rfl, if_pos hl]
      · rw [if_neg hlk, if_neg hlk, ih]
    · rw [List.filter_cons_of_neg (by simpa using hl), ih]
      by_cases hk : p k
      · have hlk : l ≠ k := fun h => hl (h ▸ hk)
        rw [if_pos hk, if_pos hk, get, if_neg hlk]
      · rw [if_neg hk, if_neg hk]

/-- Adding `f i` under the key of each `i` that is not skipped, over the first `n` numbers. -/
theorem get_foldl_add (skip : Nat → Prop) [DecidablePred skip] (key : Nat → κ) (f : Nat → Nat) (l : κ) (n : Nat) :
    (get ((List.range n).foldl
      (fun m i => if skip i then m else set m (key i) ((get m (key i)).getD 0 + f i)) []) l).getD 0 =
      ∑ i ∈ Finset.range n, if key i = l then if skip i then 0 else f i else 0 := by
  induction n with
  | zero => rfl
  | succ n ih =>
    rw [List.range_succ, List.foldl_append, Finset.sum_range_succ, ← ih]
    simp only [List.foldl_cons, List.foldl_nil]
    by_cases hp : skip n
    · rw [if_pos hp, if_pos hp, ite_self]; rfl
    · rw [if_neg hp, if_neg hp, get_set]
      by_cases hl : key n = l
      · rw [if_pos hl, if_pos hl, hl]; rfl
      · rw [if_neg hl, if_neg hl]; rfl

/-! ## Keys and entries -/

/-- A lookup finds something exactly at the keys. -/
theorem isSome_get_iff {m : List (κ × ν)} {k : κ} : (get m k).isSome = true ↔ k ∈ m.map Prod.fst := by
  induction m with
  | nil => simp [get]
  | cons e m ih =>
    obtain ⟨k', v⟩ := e
    rw [get, List.map_cons, List.mem_cons]
    by_cases hk : k' = k
    · simp [hk]
    · rw [if_neg hk, ih, or_iff_right (Ne.symm hk)]

theorem get_eq_none_iff {m : List (κ × ν)} {k : κ} : get m k = none ↔ k ∉ m.map Prod.fst := by
  rw [← isSome_get_iff, Option.not_isSome_iff_eq_none]

theorem mem_of_get {m : List (κ × ν)} {k : κ} {v : ν} (h : get m k = some v) : (k, v) ∈ m := by
  induction m with
  | nil => cases h
  | cons e m ih =>
    obtain ⟨k', v'⟩ := e
    rw [get] at h
    split_ifs at h with hk
    · cases h
      exact hk ▸ List.mem_cons_self
    · exact List.mem_cons_of_mem _ (ih h)

/-- Where no key is twice, an entry is what its key looks up. -/
theorem get_eq_some_iff {m : List (κ × ν)} (hm : (m.map Prod.fst).Nodup) {k : κ} {v : ν} :
    get m k = some v ↔ (k, v) ∈ m := by
  refine ⟨mem_of_get, fun h => ?_⟩
  induction m with
  | nil => cases h
  | cons e m ih =>
    obtain ⟨k', v'⟩ := e
    obtain ⟨hnot, hnodup⟩ := List.nodup_cons.1 hm
    rw [get]
    rcases List.mem_cons.1 h with h | h
    · cases h
      exact if_pos rfl
    · have hk : k' ≠ k := by
        rintro rfl
        exact hnot (List.mem_map.2 ⟨_, h, rfl⟩)
      rw [if_neg hk]
      exact ih hnodup h

/-- After an update an entry is the new one or an old one. -/
theorem mem_set {m : List (κ × ν)} {k : κ} {v : ν} {e : κ × ν} (h : e ∈ set m k v) : e = (k, v) ∨ e ∈ m := by
  induction m with
  | nil => exact .inl (List.mem_singleton.1 h)
  | cons e' m ih =>
    obtain ⟨k', v'⟩ := e'
    rw [set] at h
    split_ifs at h with hk
    · exact (List.mem_cons.1 h).imp_right (List.mem_cons_of_mem _)
    · rcases List.mem_cons.1 h with rfl | h
      · exact .inr List.mem_cons_self
      · exact (ih h).imp_right (List.mem_cons_of_mem _)

theorem keys_set (m : List (κ × ν)) (k : κ) (v : ν) :
    (set m k v).map Prod.fst = if k ∈ m.map Prod.fst then m.map Prod.fst else m.map Prod.fst ++ [k] := by
  induction m with
  | nil => rfl
  | cons e m ih =>
    obtain ⟨k', v'⟩ := e
    rw [set]
    by_cases hk : k' = k
    · subst hk
      simp
    · rw [if_neg hk, List.map_cons, ih]
      simp only [List.map_cons, List.mem_cons, or_iff_right (Ne.symm hk)]
      split_ifs <;> rfl

theorem nodup_set {m : List (κ × ν)} (hm : (m.map Prod.fst).Nodup) (k : κ) (v : ν) :
    ((set m k v).map Prod.fst).Nodup := by
  rw [keys_set]
  split_ifs with hk
  · exact hm
  · rw [List.nodup_append]
    refine ⟨hm, List.nodup_singleton k, fun a ha b hb => ?_⟩
    rw [List.mem_singleton.1 hb]
    exact fun h => hk (h ▸ ha)

end OrderedMap
