/-
The per-controller index. It only ever lists settled requests of its controller, each once
(`IndexSound`), and settlement, cancels and claims by shares also keep it complete. A claim by
assets evicts by the HOLLAR owed: it keeps the index complete when no request it meets owes
nothing (`IndexComplete.draw`).
-/
import MoneyMarket.Queue.Ledger

namespace MoneyMarket

open Evm Relation

structure IndexSound (q : Redemptions) : Prop where
  nodup : ∀ c, (q.settledByController c).Nodup
  sound : ∀ c, ∀ i ∈ q.settledByController c, (q.redemptionQueue i).user = c ∧ 0 < (q.redemptionQueue i).bilSettled

def IndexComplete (q : Redemptions) : Prop :=
  ∀ i, 0 < (q.redemptionQueue i).bilSettled → i ∈ q.settledByController (q.redemptionQueue i).user

/-! ## The end of an index -/

theorem eq_dropLast_append {l : List Nat} {i : Nat} (h : l.getLast? = some i) : l = l.dropLast ++ [i] :=
  (List.dropLast_append_getLast? i h).symm

/-- In an index without repeats the others stay when the last leaves. -/
theorem mem_dropLast_iff {l : List Nat} {i j : Nat} (hn : l.Nodup) (h : l.getLast? = some i) :
    j ∈ l.dropLast ↔ j ∈ l ∧ j ≠ i := by
  rw [eq_dropLast_append h] at hn
  have hi : i ∉ l.dropLast := fun hmem => (List.nodup_append.1 hn).2.2 i hmem i (by simp) rfl
  constructor
  · intro hj
    exact ⟨List.mem_of_mem_dropLast hj, fun e => hi (e ▸ hj)⟩
  · rintro ⟨hj, hne⟩
    rw [eq_dropLast_append h] at hj
    rcases List.mem_append.1 hj with hj | hj
    · exact hj
    · exact absurd (List.mem_singleton.1 hj) hne

namespace IndexSound

variable {q q' : Redemptions}

/-- Indices that shrink, over requests that agree on what is left, stay sound. -/
theorem shrink (h : IndexSound q) (hsub : ∀ c, (q'.settledByController c).Sublist (q.settledByController c))
    (hreq : ∀ c, ∀ i ∈ q'.settledByController c, (q'.redemptionQueue i).user = (q.redemptionQueue i).user ∧
      0 < (q'.redemptionQueue i).bilSettled) : IndexSound q' :=
  ⟨fun c => (h.nodup c).sublist (hsub c),
    fun c i hi => ⟨by rw [(hreq c i hi).1]; exact (h.sound c i ((hsub c).subset hi)).1, (hreq c i hi).2⟩⟩

theorem dropLastOf_sublist (c : Address) (d : Address) :
    (Function.update q.settledByController c (q.settledByController c).dropLast d).Sublist
      (q.settledByController d) := by
  by_cases hd : d = c
  · subst hd; rw [Function.update_self]; exact List.dropLast_sublist _
  · rw [Function.update_of_ne hd]

theorem push (h : IndexSound q) (hl : QueueLedger q) (user : Address) (shares : Nat) :
    IndexSound (q.push user shares) := by
  refine h.shrink (fun c => List.Sublist.refl _) fun c i hi => ?_
  have hs := (h.sound c i hi).2
  have hne : i ≠ q.queueTail := by
    rintro rfl
    rw [hl.blank _ (.inr (le_refl _))] at hs
    exact absurd hs (lt_irrefl 0)
  simp only [Redemptions.push, Function.update_of_ne hne]
  exact ⟨trivial, hs⟩

theorem cancel (h : IndexSound q) (i : Nat) : IndexSound (q.cancelled i) := by
  refine h.shrink (fun c => List.Sublist.refl _) fun c j hj => ?_
  have hs := (h.sound c j hj).2
  simp only [Redemptions.cancelled]
  by_cases hij : j = i
  · subst hij
    rw [Function.update_self, if_neg (by omega)]
    exact ⟨rfl, hs⟩
  · rw [Function.update_of_ne hij]
    exact ⟨rfl, hs⟩

/-- The index a first settle leaves. -/
theorem lockHead_index (b v : Nat) (c : Address) :
    (q.lockHead b v).settledByController c =
      if (q.redemptionQueue q.queueHead).bilSettled = 0 ∧ c = (q.redemptionQueue q.queueHead).user then
        q.settledByController c ++ [q.queueHead]
      else q.settledByController c := by
  simp only [Redemptions.lockHead, QueueStore.lock]
  by_cases h0 : (q.redemptionQueue q.queueHead).bilSettled = 0
  · by_cases hc : c = (q.redemptionQueue q.queueHead).user
    · subst hc; rw [if_pos h0, if_pos ⟨h0, rfl⟩, Function.update_self]
    · rw [if_pos h0, if_neg (fun h => hc h.2), Function.update_of_ne hc]
  · rw [if_neg h0, if_neg (fun h => h0 h.1)]

theorem fill (h : IndexSound q) {rate : Nat} (hf : Fill rate q q') : IndexSound q' := by
  cases hf with
  | pass _ _ => exact ⟨h.nodup, h.sound⟩
  | lock b hlt hu hpos hle =>
    have hout : (q.redemptionQueue q.queueHead).bilSettled = 0 → ∀ c, q.queueHead ∉ q.settledByController c := by
      intro h0 c hmem
      have := (h.sound c _ hmem).2
      omega
    refine ⟨fun c => ?_, fun c i hi => ?_⟩
    · rw [lockHead_index]
      split_ifs with hc
      · exact List.nodup_append.2 ⟨h.nodup c, List.nodup_singleton _, fun a ha b' hb => by
          rw [List.mem_singleton] at hb; subst hb
          exact fun e => hout hc.1 c (e ▸ ha)⟩
      · exact h.nodup c
    · by_cases hih : i = q.queueHead
      · subst hih
        simp only [Redemptions.lockHead, QueueStore.lock, Function.update_self]
        refine ⟨?_, by omega⟩
        rw [lockHead_index] at hi
        split_ifs at hi with hc
        · exact hc.2.symm
        · exact (h.sound c _ hi).1
      · have hi' : i ∈ q.settledByController c := by
          rw [lockHead_index] at hi
          split_ifs at hi with hc
          · exact (List.mem_append.1 hi).resolve_right (fun hm => hih (List.mem_singleton.1 hm))
          · exact hi
        simp only [Redemptions.lockHead, QueueStore.lock, Function.update_of_ne hih]
        exact h.sound c i hi'

theorem draw (h : IndexSound q) (hl : QueueLedger q) {u : ClaimUnit} {c : Address} (hd : Draw u c q q') :
    IndexSound q' := by
  cases hd with
  | evict i hlast hstale =>
    exact h.shrink (dropLastOf_sublist c) fun d j hj => ⟨rfl, (h.sound d j ((dropLastOf_sublist c d).subset hj)).2⟩
  | draw i b v hlast hu hbs hba hvo hall =>
    have hle := hl.settled_le_amount i
    have hsub : ∀ d, ((q.drawn c i b v).settledByController d).Sublist (q.settledByController d) := by
      intro d
      simp only [Redemptions.drawn]
      split_ifs
      · exact dropLastOf_sublist c d
      · exact List.Sublist.refl _
    refine h.shrink hsub fun d j hj => ?_
    obtain ⟨huser, hs⟩ := h.sound d j ((hsub d).subset hj)
    by_cases hij : j = i
    · subst hij
      have hdc : d = c := by rw [← huser, hu]
      subst hdc
      -- the entry has stayed in the index, so not all of it was drawn
      have hkept : ¬ ((q.redemptionQueue j).bilAmount = b ∨ (q.redemptionQueue j).bilSettled = b) := by
        intro hgone
        simp only [Redemptions.drawn, if_pos hgone, Function.update_self] at hj
        exact ((mem_dropLast_iff (h.nodup d) hlast).1 hj).2 rfl
      simp only [Redemptions.drawn, Function.update_self, Request.drawn, if_neg (fun e => hkept (.inl e))]
      exact ⟨trivial, by omega⟩
    · simp only [Redemptions.drawn, Function.update_of_ne hij]
      exact ⟨trivial, hs⟩

/-- Every change of the queue keeps the index sound. -/
theorem move (h : IndexSound q) (hl : QueueLedger q) (hm : QueueMove q q') : IndexSound q' := by
  cases hm with
  | push user shares _ _ => exact h.push hl user shares
  | cancel i _ _ _ => exact h.cancel i
  | fill hf => exact h.fill hf
  | draw hd => exact h.draw hl hd

end IndexSound

/-! ## Completeness -/

namespace IndexComplete

variable {q q' : Redemptions}

theorem push (h : IndexComplete q) (user : Address) (shares : Nat) : IndexComplete (q.push user shares) := by
  intro i hi
  simp only [Redemptions.push] at hi ⊢
  by_cases hit : i = q.queueTail
  · subst hit
    rw [Function.update_self] at hi
    exact absurd hi (lt_irrefl 0)
  · rw [Function.update_of_ne hit] at hi ⊢
    exact h i hi

theorem cancel (h : IndexComplete q) (i : Nat) : IndexComplete (q.cancelled i) := by
  intro j hj
  simp only [Redemptions.cancelled] at hj ⊢
  by_cases hji : j = i
  · subst hji
    rw [Function.update_self] at hj ⊢
    split_ifs at hj ⊢ with h0
    · exact absurd hj (lt_irrefl 0)
    · exact h j hj
  · rw [Function.update_of_ne hji] at hj ⊢
    exact h j hj

theorem fill (h : IndexComplete q) {rate : Nat} (hf : Fill rate q q') : IndexComplete q' := by
  cases hf with
  | pass _ _ => exact h
  | lock b hlt hu hpos hle =>
    intro i hi
    rw [IndexSound.lockHead_index]
    by_cases hih : i = q.queueHead
    · subst hih
      simp only [Redemptions.lockHead, QueueStore.lock, Function.update_self]
      by_cases h0 : (q.redemptionQueue q.queueHead).bilSettled = 0
      · rw [if_pos ⟨h0, trivial⟩]; exact List.mem_append_right _ (List.mem_singleton.2 rfl)
      · rw [if_neg (fun hc => h0 hc.1)]; exact h _ (Nat.pos_of_ne_zero h0)
    · simp only [Redemptions.lockHead, QueueStore.lock, Function.update_of_ne hih] at hi ⊢
      split_ifs
      · exact List.mem_append_left _ (h i hi)
      · exact h i hi

/-- A draw keeps the index complete unless it evicts a request that its unit counts for nothing. -/
theorem draw (h : IndexComplete q) (hs : IndexSound q) (hl : QueueLedger q) {u : ClaimUnit} {c : Address}
    (hd : Draw u c q q')
    (hmet : ∀ i, (q.settledByController c).getLast? = some i → u.counted (q.redemptionQueue i) ≠ 0) :
    IndexComplete q' := by
  cases hd with
  | evict i hlast hstale =>
    rcases hstale with hu | h0
    · exact absurd (hs.sound c i (List.mem_of_getLast? hlast)).1 hu
    · exact absurd h0 (hmet i hlast)
  | draw i b v hlast hu hbs hba hvo hall =>
    have hle := hl.settled_le_amount i
    intro j hj
    by_cases hji : j = i
    · subst hji
      have hleft : 0 < ((q.redemptionQueue j).drawn b v).bilSettled := by
        simpa only [Redemptions.drawn, Function.update_self] using hj
      unfold Request.drawn at hleft
      split_ifs at hleft with ha
      · exact absurd hleft (lt_irrefl 0)
      · have hleft : 0 < (q.redemptionQueue j).bilSettled - b := hleft
        -- shares are left settled, so the entry is not taken out of the index
        have hkept : ¬ ((q.redemptionQueue j).bilAmount = b ∨ (q.redemptionQueue j).bilSettled = b) := by omega
        simp only [Redemptions.drawn, Function.update_self, if_neg hkept, Request.drawn, if_neg ha]
        exact h j (by omega)
    · simp only [Redemptions.drawn, Function.update_of_ne hji] at hj ⊢
      have hmem := h j hj
      split_ifs
      -- only the index of `c` loses an entry, its last
      · by_cases hc : (q.redemptionQueue j).user = c
        · rw [hc] at hmem ⊢
          rw [Function.update_self]
          exact (mem_dropLast_iff (hs.nodup c) hlast).2 ⟨hmem, hji⟩
        · rw [Function.update_of_ne hc]; exact hmem
      · exact hmem

end IndexComplete

end MoneyMarket
