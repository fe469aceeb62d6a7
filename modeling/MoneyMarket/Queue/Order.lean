/-
The order in which a claim draws. A walk goes down its controller's index from the back, so it draws
the oldest requests first exactly when the index has the older ones behind each entry
(`claimWalk_oldest_iff`); what it draws is the greedy allotment of the amount in the order of the
walk (`claimWalk_amounts`). But settlement lists the ids in their order (`IndexAscends`), and then
none is older than an entry behind which there is something to draw (`oldestBehind_iff`).
-/
import MoneyMarket.Lib.Greedy
import MoneyMarket.Queue.Claims

namespace MoneyMarket

open Evm Relation

/-! ## Oldest first -/

/-- A request of `c` with something settled. -/
def Request.SettledFor (c : Address) (request : Request) : Prop := request.user = c ∧ 0 < request.bilSettled

instance (c : Address) (request : Request) : Decidable (request.SettledFor c) :=
  inferInstanceAs (Decidable (_ ∧ _))

/-- A request is touched only after every settled request of `c` with a lower id is drained. -/
def DrawsOldestFirst (u : ClaimUnit) (q : QueueStore) (c : Address) (amount : Nat) : Prop :=
  ∀ r r', ReflTransGen (ClaimRun.Again u c) (.start q c amount) r → ClaimRun.Again u c r r' →
    ∀ j, r'.redemptionQueue j ≠ r.redemptionQueue j → ∀ i < j, ¬ (r.redemptionQueue i).SettledFor c

/-- The settled requests of `c` from the oldest on. -/
def settledIds (q : Redemptions) (c : Address) : List Nat :=
  (List.range q.queueTail).filter fun i => (q.redemptionQueue i).SettledFor c

/-- The amounts a walk of `order` draws of the requests. -/
def ClaimUnit.draws (u : ClaimUnit) (queue : Nat → Request) (order : List Nat) (amount : Nat) : List (Nat × Nat) :=
  Greedy.allot (fun i => u.counted (queue i)) order amount

/-- The shares and the HOLLAR that a draw of `take` of a request is. -/
def ClaimUnit.drawn (u : ClaimUnit) (queue : Nat → Request) (draw : Nat × Nat) : Nat × Nat :=
  let proRata := draw.2 * u.paired (queue draw.1) / u.counted (queue draw.1)
  (u.sharesTake draw.2 proRata, u.hollarTake draw.2 proRata)

/-- What a walk of `order` draws in all. -/
def ClaimUnit.totalDrawn (u : ClaimUnit) (queue : Nat → Request) (order : List Nat) (amount : Nat) : Nat × Nat :=
  ((u.draws queue order amount).map (u.drawn queue)).sum

/-- A claim in the order of the requests: it draws them oldest first, and the shares and the HOLLAR
are those of the oldest requests, whatever the index. -/
structure ClaimsFifo (u : ClaimUnit) (q : Redemptions) (c : Address) (amount shares assets : Nat) : Prop where
  order : DrawsOldestFirst u q.toQueueStore c amount
  drawn : (shares, assets) = u.totalDrawn q.redemptionQueue (settledIds q c) amount

/-- The settled requests of `c` with a lower id than `j` are in the index behind `k`, and hold something
to draw. -/
def OlderBehind (u : ClaimUnit) (q : QueueStore) (c : Address) (k j : Nat) : Prop :=
  ∀ i < j, (q.redemptionQueue i).SettledFor c →
    i ∈ (q.settledByController c).drop (k + 1) ∧ u.counted (q.redemptionQueue i) ≠ 0

/-- Every entry of the index that the claim gets to, and that it can draw on, has the older ones behind
it. -/
def OldestBehind (u : ClaimUnit) (q : QueueStore) (c : Address) (amount : Nat) : Prop :=
  ∀ k j, (q.settledByController c)[k]? = some j → u.counted (q.redemptionQueue j) ≠ 0 →
    (((q.settledByController c).drop (k + 1)).map fun i => u.counted (q.redemptionQueue i)).sum < amount →
    OlderBehind u q c k j

section Walk

variable {u : ClaimUnit} {c : Address} {r r' : ClaimRun} {queue : Nat → Request}

/-! ## What a draw does to a request -/

theorem ClaimUnit.take_eq_min (request : Request) (remaining : Nat) :
    u.take request remaining = min (u.counted request) remaining := by
  unfold ClaimUnit.take
  split_ifs with h
  · exact (Nat.min_eq_left h).symm
  · exact (Nat.min_eq_right (le_of_not_ge h)).symm

@[simp] theorem totalDrawn_zero (order : List Nat) : u.totalDrawn queue order 0 = 0 := by
  simp [ClaimUnit.totalDrawn, ClaimUnit.draws]

theorem totalDrawn_skip {i : Nat} (h : u.counted (queue i) = 0) (order : List Nat) (amount : Nat) :
    u.totalDrawn queue (i :: order) amount = u.totalDrawn queue order amount := by
  have hskip := Greedy.allot_skip (f := fun i => u.counted (queue i)) h order amount
  unfold ClaimUnit.totalDrawn ClaimUnit.draws
  rw [hskip]

theorem totalDrawn_take {i amount : Nat} (h : u.counted (queue i) ≠ 0) (hpos : 0 < amount) (order : List Nat) :
    u.totalDrawn queue (i :: order) amount =
      u.drawn queue (i, u.take (queue i) amount) +
        u.totalDrawn queue order (amount - u.take (queue i) amount) := by
  have htake := Greedy.allot_take (f := fun i => u.counted (queue i)) h hpos.ne' order
  unfold ClaimUnit.totalDrawn ClaimUnit.draws
  rw [htake, List.map_cons, List.sum_cons, ClaimUnit.take_eq_min]

/-- A request that something is drawn on is another one after. -/
theorem Request.drawn_ne {request : Request} {b v : Nat} (h : 0 < b ∨ 0 < v) (hb : b ≤ request.bilSettled)
    (hv : v ≤ request.hollarOwed) : request.drawn b v ≠ request := by
  intro heq
  unfold Request.drawn at heq
  split_ifs at heq
  · have hsettled : request.bilSettled = 0 := by rw [← heq]; rfl
    have howed : request.hollarOwed = 0 := by rw [← heq]; rfl
    omega
  · have hsettled : request.bilSettled - b = request.bilSettled := congrArg Request.bilSettled heq
    have howed : request.hollarOwed - v = request.hollarOwed := congrArg Request.hollarOwed heq
    omega

/-- What is drained is not settled for anyone. -/
theorem Request.drained (request : Request) (v : Nat) :
    ¬ (request.drawn request.bilSettled v).SettledFor c := by
  rintro ⟨-, hpos⟩
  unfold Request.drawn at hpos
  split_ifs at hpos
  · exact absurd hpos (lt_irrefl 0)
  · have : 0 < request.bilSettled - request.bilSettled := hpos
    omega

/-! ## The entry a pass is at -/

section Pass

variable {q : Redemptions} {amount i : Nat}

/-- A walk that has drained what it could of the entries behind it, and drawn their allotment. -/
structure Swept (u : ClaimUnit) (q : Redemptions) (c : Address) (amount : Nat) (r : ClaimRun) : Prop
    extends Walking u q.toQueueStore c amount r where
  settled : 0 < r.remaining → ∀ i, (r.redemptionQueue i).SettledFor c ↔ (q.redemptionQueue i).SettledFor c ∧
    ¬ (i ∈ (q.settledByController c).drop r.j ∧ u.counted (q.redemptionQueue i) ≠ 0)
  amounts : u.totalDrawn q.redemptionQueue (q.settledByController c).reverse amount =
    (r.shares, r.assets) + u.totalDrawn q.redemptionQueue ((q.settledByController c).take r.j).reverse r.remaining

theorem Swept.start (u : ClaimUnit) (q : Redemptions) (c : Address) (amount : Nat) :
    Swept u q c amount (.start q.toQueueStore c amount) := by
  refine ⟨Walking.start u q.toQueueStore c amount, fun _ i => ?_, ?_⟩
  · show (q.redemptionQueue i).SettledFor c ↔
      _ ∧ ¬ (i ∈ (q.settledByController c).drop (q.settledByController c).length ∧ _)
    rw [List.drop_length]
    simp
  · show _ = (0, 0) + u.totalDrawn _ ((q.settledByController c).take (q.settledByController c).length).reverse amount
    rw [List.take_length]
    exact (zero_add _).symm

/-- A pass over an entry without anything to draw leaves it settled. -/
theorem Swept.evict (hs : IndexSound q) (h : Swept u q c amount r) (hrem : 0 < r.remaining)
    (hlast : r.ids.getLast? = some i) (hstale : u.Stale c (r.redemptionQueue i)) :
    Swept u q c amount { r with ids := r.ids.dropLast, j := r.j - 1 } := by
  obtain ⟨-, -, hdrop, htake, -⟩ := h.toWalking.at_last hrem hlast
  have hzero := h.toWalking.nothing_stale hs hrem hlast hstale
  refine ⟨h.toWalking.step hs (.evict i hrem hlast hstale), fun _ k => ?_, ?_⟩
  · rw [h.settled hrem k]
    show _ ↔ _ ∧ ¬ (k ∈ (q.settledByController c).drop (r.j - 1) ∧ _)
    rw [hdrop, List.mem_cons]
    by_cases hk : k = i
    · subst hk
      simp [hzero]
    · simp [hk]
  · rw [h.amounts, htake, totalDrawn_skip hzero]

/-- A pass that draws on an entry adds its draw, and drains it if it goes on. -/
theorem Swept.draw (h : Swept u q c amount r) {take proRata b v : Nat} (hrem : 0 < r.remaining)
    (hlast : r.ids.getLast? = some i) (hstale : ¬ u.Stale c (r.redemptionQueue i))
    (htake : take = u.take (r.redemptionQueue i) r.remaining)
    (hpro : proRata = take * u.paired (r.redemptionQueue i) / u.counted (r.redemptionQueue i))
    (hb : b = u.sharesTake take proRata) (hv : v = u.hollarTake take proRata)
    (hw : Walking u q.toQueueStore c amount r') (hj : r'.j = r.j - 1) (hleft : r'.remaining = r.remaining - take)
    (hqueue : r'.redemptionQueue = Function.update r.redemptionQueue i ((r.redemptionQueue i).drawn b v))
    (hshares : r'.shares = r.shares + b) (hassets : r'.assets = r.assets + v) : Swept u q c amount r' := by
  obtain ⟨-, hget, hdrop, hrest, hi⟩ := h.toWalking.at_last hrem hlast
  have hcounted : u.counted (q.redemptionQueue i) ≠ 0 := by
    rw [← hi]
    exact fun h0 => hstale (.inr h0)
  refine ⟨hw, fun hgo k => ?_, ?_⟩
  · -- the walk goes on, so it has taken all of the entry
    rw [hleft] at hgo
    obtain ⟨-, hall, -⟩ := ClaimUnit.drains (by rw [hi]; exact hcounted) htake hpro hb hv hgo
    rw [hqueue, hj, hdrop, List.mem_cons]
    by_cases hk : k = i
    · subst hk
      rw [Function.update_self, hall]
      exact iff_of_false (Request.drained _ _) fun hout => hout.2 ⟨.inl rfl, hcounted⟩
    · rw [Function.update_of_ne hk, h.settled hrem k]
      simp [hk]
  · have hdrawn : u.drawn q.redemptionQueue (i, u.take (q.redemptionQueue i) r.remaining) = (b, v) := by
      rw [ClaimUnit.drawn, hb, hv, hpro, htake, hi]
    rw [h.amounts, hrest, totalDrawn_take hcounted hrem, hdrawn, hj, hleft, hshares, hassets, htake, hi, ← add_assoc]
    rfl

/-- One pass of the walk. -/
theorem Swept.step (hs : IndexSound q) (h : Swept u q c amount r) (hstep : ClaimStep u c r r') :
    Swept u q c amount r' := by
  have hwalking := h.toWalking.step hs hstep
  cases hstep with
  | evict i hrem hlast hstale => exact h.evict hs hrem hlast hstale
  | draw i take proRata b v hrem hlast hstale htake hpro hb hv _ _ _ =>
    exact h.draw hrem hlast hstale htake hpro hb hv hwalking rfl rfl rfl rfl rfl

/-- The whole walk up to some pass. -/
theorem Swept.run (hs : IndexSound q) (h : ReflTransGen (ClaimRun.Again u c) (.start q.toQueueStore c amount) r) :
    Swept u q c amount r :=
  (run_invariant (fun _ => rfl) (Swept.start u q c amount) (fun _ _ _ hi hstep => hi.step hs hstep) h).2

/-! ## What the passes touch -/

/-- A pass that keeps to the oldest has the older ones behind the entry it can draw on. -/
theorem Swept.older_of_first (h : Swept u q c amount r) (hstep : ClaimStep u c r r') {j : Nat}
    (hfirst : ∀ j, r'.redemptionQueue j ≠ r.redemptionQueue j → ∀ i < j, ¬ (r.redemptionQueue i).SettledFor c)
    (hs : IndexSound q) (hget : (q.settledByController c)[r.j - 1]? = some j)
    (hcounted : u.counted (q.redemptionQueue j) ≠ 0) : OlderBehind u q.toQueueStore c (r.j - 1) j := by
  cases hstep with
  | evict i hrem hlast hstale =>
    obtain ⟨-, hat, -, -, -⟩ := h.toWalking.at_last hrem hlast
    obtain rfl : i = j := Option.some.inj (hat.symm.trans hget)
    exact absurd (h.toWalking.nothing_stale hs hrem hlast hstale) hcounted
  | draw i take proRata b v hrem hlast hstale htake hpro hb hv hbs _ hvo =>
    obtain ⟨hpos, hat, -, -, hi⟩ := h.toWalking.at_last hrem hlast
    obtain rfl : i = j := Option.some.inj (hat.symm.trans hget)
    have htaken : 0 < take := by
      rw [htake, ClaimUnit.take_eq_min, hi]
      exact lt_min (Nat.pos_of_ne_zero hcounted) hrem
    have hdrawn : 0 < b ∨ 0 < v := by
      rw [hb, hv]
      cases u with
      | shares => exact .inl htaken
      | assets => exact .inr htaken
    have hchanged : Function.update r.redemptionQueue i ((r.redemptionQueue i).drawn b v) i ≠ r.redemptionQueue i := by
      rw [Function.update_self]
      exact Request.drawn_ne hdrawn hbs hvo
    intro k hk hsettled
    have hnot := hfirst i hchanged k hk
    rw [h.settled hrem k] at hnot
    rw [Nat.sub_add_cancel hpos]
    exact not_not.1 fun hout => hnot ⟨hsettled, hout⟩

/-- A pass over an index with the older ones behind touches only the oldest. -/
theorem Swept.first_of_older (h : Swept u q c amount r) (hstep : ClaimStep u c r r')
    (hbehind : OldestBehind u q.toQueueStore c amount) {j : Nat}
    (hchanged : r'.redemptionQueue j ≠ r.redemptionQueue j) : ∀ i < j, ¬ (r.redemptionQueue i).SettledFor c := by
  cases hstep with
  | evict i _ _ _ => exact absurd rfl hchanged
  | draw i take proRata b v hrem hlast hstale _ _ _ _ _ _ _ =>
    obtain ⟨hpos, hat, -, -, hi⟩ := h.toWalking.at_last hrem hlast
    obtain rfl : j = i := by
      by_contra hne
      exact hchanged (Function.update_of_ne hne _ _)
    have hcounted : u.counted (q.redemptionQueue j) ≠ 0 := by
      rw [← hi]
      exact fun h0 => hstale (.inr h0)
    have hamount := (h.going hrem).2.2.1
    have holder : OlderBehind u q.toQueueStore c (r.j - 1) j := by
      apply hbehind (r.j - 1) j hat hcounted
      rw [Nat.sub_add_cancel hpos]
      omega
    intro k hk hsettled
    obtain ⟨hleft, hout⟩ := (h.settled hrem k).1 hsettled
    have hin := holder k hk hleft
    rw [Nat.sub_add_cancel hpos] at hin
    exact hout hin

end Pass

end Walk

/-! ## The whole claim -/

section Claim

variable {u : ClaimUnit} {c : Address} {r : ClaimRun} {q : Redemptions} {amount : Nat}

/-- A claim draws the allotment of its amount in the order of its walk. -/
theorem claimWalk_amounts (hs : IndexSound q) (h : claimWalk u q.toQueueStore c amount = .ok r) :
    (r.shares, r.assets) = u.totalDrawn q.redemptionQueue (q.settledByController c).reverse amount := by
  obtain ⟨hrun, hzero⟩ := claimWalk_run h
  rw [(Swept.run hs hrun).amounts, hzero, totalDrawn_zero, add_zero]

/-- On the way to `r`, a walk that keeps to the oldest had the older ones behind each entry. -/
theorem older_of_run (hs : IndexSound q) (hfirst : DrawsOldestFirst u q.toQueueStore c amount)
    (h : ReflTransGen (ClaimRun.Again u c) (.start q.toQueueStore c amount) r) :
    ∀ k j, r.j ≤ k → (q.settledByController c)[k]? = some j → u.counted (q.redemptionQueue j) ≠ 0 →
      OlderBehind u q.toQueueStore c k j := by
  induction h with
  | refl =>
    intro k j hk hget _
    exact absurd (List.getElem?_eq_some_iff.1 hget).1 (not_lt.2 hk)
  | @tail r r' hrun hpass ih =>
    have hswept := Swept.run hs hrun
    have hstep := claimPass_again hswept.atEnd hpass
    intro k j hk hget hcounted
    by_cases hbefore : r.j ≤ k
    · exact ih k j hbefore hget hcounted
    · -- the entry this pass went over
      have hdown := hstep.j_pred
      obtain rfl : k = r.j - 1 := by omega
      exact hswept.older_of_first hstep (hfirst r r' hrun hpass) hs hget hcounted

theorem mem_settledIds {i : Nat} : i ∈ settledIds q c ↔ i < q.queueTail ∧ (q.redemptionQueue i).SettledFor c := by
  simp [settledIds]

theorem sorted_settledIds (q : Redemptions) (c : Address) : (settledIds q c).Pairwise (· < ·) :=
  List.pairwise_lt_range.filter _

/-- Indexed requests are settled ones of their controller, with ids below the tail. -/
theorem index_settledIds (hs : IndexSound q) (hl : QueueLedger q) {i : Nat} (h : i ∈ q.settledByController c) :
    i ∈ settledIds q c := by
  obtain ⟨huser, hpos⟩ := hs.sound c i h
  have hamount : 0 < (q.redemptionQueue i).bilAmount := lt_of_lt_of_le hpos (hl.settled_le_amount i)
  exact mem_settledIds.2 ⟨hl.lt_tail (hl.user_ne_zero hamount), huser, hpos⟩

/-- Where the entry that a walk comes to after `p` is in the list walked. -/
theorem index_of_walk {l p t : List Nat} {j : Nat} (h : l.reverse = p ++ j :: t) :
    l = t.reverse ++ j :: p.reverse ∧ l[t.length]? = some j ∧ l.drop (t.length + 1) = p.reverse := by
  have hl : l = t.reverse ++ j :: p.reverse := by
    rw [← List.reverse_reverse l, h]
    simp
  refine ⟨hl, ?_, ?_⟩
  · rw [hl, List.getElem?_append_right (by simp)]
    simp
  · rw [hl, ← List.length_reverse, List.drop_append]
    simp

/-- The index backwards offers the oldest first. -/
theorem OldestBehind.leastFirst (h : OldestBehind u q.toQueueStore c amount) :
    Greedy.LeastFirst (fun i => u.counted (q.redemptionQueue i)) (q.settledByController c).reverse (settledIds q c)
      amount := by
  intro p j t hsplit hsum hcounted i hi hlt
  obtain ⟨-, hget, hbehind⟩ := index_of_walk hsplit
  have hreach : (((q.settledByController c).drop (t.length + 1)).map fun i =>
      u.counted (q.redemptionQueue i)).sum < amount := by
    rw [hbehind, List.map_reverse, List.sum_reverse]
    exact hsum
  have hin := (h t.length j hget hcounted hreach i hlt (mem_settledIds.1 hi).2).1
  rw [hbehind, List.mem_reverse] at hin
  exact .inl hin

/-- Then the walk draws what the oldest requests have. -/
theorem OldestBehind.totalDrawn_eq (h : OldestBehind u q.toQueueStore c amount) (hs : IndexSound q) (hl : QueueLedger q)
    (hcover : amount ≤ ((q.settledByController c).map fun i => u.counted (q.redemptionQueue i)).sum) :
    u.totalDrawn q.redemptionQueue (q.settledByController c).reverse amount =
      u.totalDrawn q.redemptionQueue (settledIds q c) amount := by
  rw [← List.sum_reverse, ← List.map_reverse] at hcover
  have hnodup : (q.settledByController c).reverse.Nodup := List.nodup_reverse.2 (hs.nodup c)
  have hsettled : ∀ i ∈ (q.settledByController c).reverse, i ∈ settledIds q c := fun i hi =>
    index_settledIds hs hl (List.mem_reverse.1 hi)
  have hallot := Greedy.allot_eq_sorted (sorted_settledIds q c) hnodup hsettled hcover h.leastFirst
  exact congrArg (fun draws => (draws.map (u.drawn q.redemptionQueue)).sum) hallot

/-- A claim goes in the order of the requests exactly when the index has the older ones behind each
entry it gets to. -/
theorem claimWalk_oldest_iff (hs : IndexSound q) (hl : QueueLedger q)
    (h : claimWalk u q.toQueueStore c amount = .ok r) :
    ClaimsFifo u q c amount r.shares r.assets ↔ OldestBehind u q.toQueueStore c amount := by
  obtain ⟨hrun, hzero⟩ := claimWalk_run h
  have hswept := Swept.run hs hrun
  constructor
  · intro hfifo k j hget hcounted hsum
    refine older_of_run hs hfifo.order hrun k j ?_ hget hcounted
    by_contra hbefore
    exact absurd hsum (not_lt.2 (hswept.found hzero (not_le.1 hbefore)))
  · intro hbehind
    constructor
    · intro r r' hrun hpass j hchanged
      have hat := Swept.run hs hrun
      exact hat.first_of_older (claimPass_again hat.atEnd hpass) hbehind hchanged
    · have hcover := hswept.found hzero (Nat.zero_le _)
      rw [List.drop_zero] at hcover
      rw [claimWalk_amounts hs h]
      exact hbehind.totalDrawn_eq hs hl hcover

end Claim

/-! ## The order of the index -/

/-- Ids come into the index in their order, and none is past the head. -/
structure IndexAscends (q : Redemptions) : Prop where
  pairwise : ∀ c, (q.settledByController c).Pairwise (· < ·)
  le_head : ∀ c, ∀ i ∈ q.settledByController c, i ≤ q.queueHead

namespace IndexAscends

variable {q q' : Redemptions}

/-- Indices that shrink, with the head where it was or past it, keep their order. -/
theorem shrink (h : IndexAscends q) (hhead : q.queueHead ≤ q'.queueHead)
    (hsub : ∀ c, (q'.settledByController c).Sublist (q.settledByController c)) : IndexAscends q' :=
  ⟨fun c => (h.pairwise c).sublist (hsub c), fun c i hi => le_trans (h.le_head c i ((hsub c).subset hi)) hhead⟩

theorem fill (h : IndexAscends q) (hs : IndexSound q) {rate : Nat} (hf : Fill rate q q') : IndexAscends q' := by
  cases hf with
  | pass _ _ => exact h.shrink (Nat.le_succ _) fun c => .refl _
  | lock b hlt hu hpos hle =>
    constructor
    · intro c
      rw [IndexSound.lockHead_index]
      split_ifs with hfirst
      · refine List.pairwise_append.2 ⟨h.pairwise c, List.pairwise_singleton _ _, fun i hi j hj => ?_⟩
        rw [List.mem_singleton.1 hj]
        -- an id at the head is settled already
        refine lt_of_le_of_ne (h.le_head c i hi) fun hih => ?_
        have := (hs.sound c i hi).2
        rw [hih, hfirst.1] at this
        exact absurd this (lt_irrefl 0)
      · exact h.pairwise c
    · intro c i hi
      show i ≤ q.queueHead
      rw [IndexSound.lockHead_index] at hi
      split_ifs at hi with hfirst
      · rcases List.mem_append.1 hi with hi | hi
        · exact h.le_head c i hi
        · exact (List.mem_singleton.1 hi).le
      · exact h.le_head c i hi

theorem draw (h : IndexAscends q) {u : ClaimUnit} {c : Address} (hd : Draw u c q q') : IndexAscends q' := by
  cases hd with
  | evict i _ _ => exact h.shrink (le_refl _) (IndexSound.dropLastOf_sublist c)
  | draw i b v _ _ _ _ _ _ =>
    refine h.shrink (le_refl _) fun d => ?_
    simp only [Redemptions.drawn]
    split_ifs
    · exact IndexSound.dropLastOf_sublist c d
    · exact .refl _

/-- Every change of the queue keeps the order. -/
theorem move (h : IndexAscends q) (hs : IndexSound q) (hm : QueueMove q q') : IndexAscends q' := by
  cases hm with
  | push user shares _ _ => exact h.shrink (le_refl _) fun c => .refl _
  | cancel i _ _ _ => exact h.shrink (le_refl _) fun c => .refl _
  | fill hf => exact h.fill hs hf
  | draw hd => exact h.draw hd

/-- The newest entry of the index that a claim can draw on, and nothing to draw behind it. -/
theorem newest_drawable {u : ClaimUnit} {c : Address} {j : Nat} (h : IndexAscends q)
    (hj : j ∈ q.settledByController c) (hcounted : u.counted (q.redemptionQueue j) ≠ 0) :
    ∃ k m, (q.settledByController c)[k]? = some m ∧ j ≤ m ∧ u.counted (q.redemptionQueue m) ≠ 0 ∧
      ∀ i ∈ (q.settledByController c).drop (k + 1), u.counted (q.redemptionQueue i) = 0 := by
  have hfound : ((q.settledByController c).reverse.find? fun i => u.counted (q.redemptionQueue i) ≠ 0).isSome := by
    rw [List.find?_isSome]
    exact ⟨j, List.mem_reverse.2 hj, by simpa using hcounted⟩
  obtain ⟨m, hm⟩ := Option.isSome_iff_exists.1 hfound
  obtain ⟨hdrawable, behind, before, hsplit, hnone⟩ := List.find?_eq_some_iff_append.1 hm
  obtain ⟨hindex, hget, hdrop⟩ := index_of_walk hsplit
  have hbehind : ∀ i ∈ behind, u.counted (q.redemptionQueue i) = 0 := fun i hi => by simpa using hnone i hi
  refine ⟨before.length, m, hget, ?_, by simpa using hdrawable, fun i hi => ?_⟩
  · have hp := h.pairwise c
    rw [hindex] at hp hj
    rcases List.mem_append.1 hj with hj | hj
    · exact ((List.pairwise_append.1 hp).2.2 j hj m (List.mem_cons_self ..)).le
    · rcases List.mem_cons.1 hj with hj | hj
      · exact hj.le
      · exact absurd (hbehind j (List.mem_reverse.1 hj)) hcounted
  · rw [hdrop, List.mem_reverse] at hi
    exact hbehind i hi

end IndexAscends

/-- No settled request of `c` is older than one in its index that the claim can draw on. -/
def OnlyOldest (u : ClaimUnit) (q : QueueStore) (c : Address) : Prop :=
  ∀ j ∈ q.settledByController c, u.counted (q.redemptionQueue j) ≠ 0 →
    ∀ i, (q.redemptionQueue i).SettledFor c → j ≤ i

/-- An index in the order of the ids has older ones behind an entry only when there are none. -/
theorem oldestBehind_iff {u : ClaimUnit} {q : Redemptions} {c : Address} {amount : Nat} (ha : IndexAscends q)
    (hpos : 0 < amount) : OldestBehind u q.toQueueStore c amount ↔ OnlyOldest u q.toQueueStore c := by
  constructor
  · intro hbehind j hj hcounted i hsettled
    obtain ⟨k, m, hget, hjm, hm, hnone⟩ := ha.newest_drawable hj hcounted
    by_contra hij
    have hreach : (((q.settledByController c).drop (k + 1)).map fun i =>
        u.counted (q.redemptionQueue i)).sum < amount := by
      rw [List.sum_eq_zero fun x hx => by obtain ⟨i, hi, rfl⟩ := List.mem_map.1 hx; exact hnone i hi]
      exact hpos
    obtain ⟨hin, hne⟩ := hbehind k m hget hm hreach i (by omega) hsettled
    exact hne (hnone i hin)
  · intro honly k j hget hcounted _ i hij hsettled
    exact absurd (honly j (List.mem_of_getElem? hget) hcounted i hsettled) (not_le.2 hij)

end MoneyMarket
