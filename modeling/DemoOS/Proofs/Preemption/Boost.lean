import DemoOS.Proofs.Preemption.QueueInterrupts

/-!
# `DemoOS.Proofs.Preemption.Boost`: the boost between two statements of a queue operation

`boost_rel` compares two boosts round by round: kernels that a relation `R` holds of stay
related when every round of `boostQueue` keeps it. The relations are those of an unfinished
operation to a sound kernel, which differ in one end of one queue or in the last link of the
first queue. `boost_iff` is the result: what the boost does to the operation at each place.
-/

set_option autoImplicit false

namespace DemoOS

open Support Kernel

variable {k k₂ a b : Kernel} {Q Q₂ : QueueId → List PcbPtr} {q : QueueId} {p r : PcbPtr}
  {level : Nat}

/-! ### Boosts of related kernels -/

/-- One round of the loop over a lower queue. -/
def moveUp (level : Nat) (k : Kernel) (p : PcbPtr) : Kernel :=
  let k := (k.dequeueProcessFrom (.mlQueue level)).1
  { k with queueLevel := Function.update k.queueLevel (k.pcb p).pid 0 }.enqueueProcessTo (.mlQueue 0) p

theorem dequeueProcessFrom_some (h : (k.queues q).head = some p) :
    k.dequeueProcessFrom q = ((k.setQueue q ⟨k.next p,
      if k.next p = none then none else (k.queues q).tail⟩).setLink p none, some p) := by
  simp only [dequeueProcessFrom, h]
  rfl

theorem boostQueue_nil {fuel : Nat} (h : (k.queues (.mlQueue level)).head = none) :
    boostQueue level (fuel + 1) k = some k := by
  unfold boostQueue
  simp only [dequeueProcessFrom, h]

theorem boostQueue_some {fuel : Nat} (h : (k.queues (.mlQueue level)).head = some p) :
    boostQueue level (fuel + 1) k = boostQueue level fuel (moveUp level k p) := by
  rw [moveUp, dequeueProcessFrom_some h]
  conv_lhs => unfold boostQueue
  rw [dequeueProcessFrom_some h]

section Related
variable {R : Kernel → Kernel → Prop}

/-- The rounds over one queue. -/
theorem boostQueue_rel {fuel : Nat}
    (hround : ∀ a b, R a b →
      (a.queues (.mlQueue level)).head = (b.queues (.mlQueue level)).head
        ∧ ∀ p, (b.queues (.mlQueue level)).head = some p →
          R (moveUp level a p) (moveUp level b p))
    (h : R a b) {b₂ : Kernel} (hb : boostQueue level fuel b = some b₂) :
    ∃ a₂, boostQueue level fuel a = some a₂ ∧ R a₂ b₂ := by
  induction fuel generalizing a b with
  | zero => exact nomatch hb
  | succ fuel ih =>
      obtain ⟨hhead, hnext⟩ := hround a b h
      cases hp : (b.queues (.mlQueue level)).head with
      | none =>
          rw [boostQueue_nil hp] at hb
          rw [boostQueue_nil (hhead.trans hp)]
          exact ⟨a, rfl, Option.some.inj hb ▸ h⟩
      | some p =>
          rw [boostQueue_some hp] at hb
          rw [boostQueue_some (hhead.trans hp)]
          exact ih (hnext p hp) hb

/-- The rounds over several queues. -/
theorem boostQueues_rel {fuel : Nat} (levels : List Nat)
    (hround : ∀ level ∈ levels, ∀ a b, R a b →
      (a.queues (.mlQueue level)).head = (b.queues (.mlQueue level)).head
        ∧ ∀ p, (b.queues (.mlQueue level)).head = some p →
          R (moveUp level a p) (moveUp level b p))
    (h : R a b) {b₂ : Kernel}
    (hb : levels.foldlM (fun k q => boostQueue q fuel k) b = some b₂) :
    ∃ a₂, levels.foldlM (fun k q => boostQueue q fuel k) a = some a₂ ∧ R a₂ b₂ := by
  induction levels generalizing a b with
  | nil =>
      obtain rfl : b = b₂ := Option.some.inj hb
      exact ⟨a, rfl, h⟩
  | cons level levels ih =>
      rw [List.foldlM_cons] at hb
      obtain ⟨b₁, hb₁, hb⟩ := Option.bind_eq_some_iff.mp hb
      obtain ⟨a₁, ha₁, h₁⟩ := boostQueue_rel (hround level (.head _)) h hb₁
      rw [List.foldlM_cons, ha₁]
      exact ih (fun level hl => hround level (.tail _ hl)) h₁ hb

/-- The state behind the rounds of a boost. -/
def boosted (k : Kernel) : Kernel :=
  { k with
    queueLevel := fun i => if i < N_PROCESSES then 0 else k.queueLevel i
    mlTicksSinceBoost := 0 }

/-- The rounds of a boost that is due. -/
theorem interrupt_boost {alg : SchedAlgorithm} (h : k.interrupt alg .boost = some k₂) :
    alg = .mlfq ∧ mlPolicyMlfq.boostPeriod ≤ k.mlTicksSinceBoost + 1 ∧ ∃ k₁,
      (List.range' 1 (mlPolicyMlfq.nLevels - 1)).foldlM
          (fun k q => boostQueue q (N_PROCESSES + 1) k)
          { k with mlTicksSinceBoost := k.mlTicksSinceBoost + 1 } = some k₁
        ∧ k₂ = boosted k₁ := by
  rw [interrupt] at h
  split at h
  · next hdue =>
      refine ⟨hdue.1, hdue.2, ?_⟩
      unfold Kernel.boost at h
      dsimp only at h
      rw [if_pos hdue.2] at h
      obtain ⟨k₁, hk₁, hk₂⟩ := Option.bind_eq_some_iff.mp h
      exact ⟨k₁, hk₁, (Option.some.inj hk₂).symm⟩
  · cases h

/-- Two boosts from related kernels. -/
theorem boost_rel {alg : SchedAlgorithm}
    (hround : ∀ level, 0 < level → level < ML_MAX_LEVELS → ∀ a b, R a b →
      (a.queues (.mlQueue level)).head = (b.queues (.mlQueue level)).head
        ∧ ∀ p, (b.queues (.mlQueue level)).head = some p →
          R (moveUp level a p) (moveUp level b p))
    (hticks : a.mlTicksSinceBoost = b.mlTicksSinceBoost)
    (h : R { a with mlTicksSinceBoost := a.mlTicksSinceBoost + 1 }
      { b with mlTicksSinceBoost := b.mlTicksSinceBoost + 1 })
    {b₂ : Kernel} (hb : b.interrupt alg .boost = some b₂) :
    ∃ a₁ b₁, R a₁ b₁ ∧ a.interrupt alg .boost = some (boosted a₁) ∧ b₂ = boosted b₁ := by
  obtain ⟨halg, hdue, b₁, hb₁, rfl⟩ := interrupt_boost hb
  obtain ⟨a₁, ha₁, hR⟩ := boostQueues_rel _ (fun level hl => by
    rw [List.mem_range'_1] at hl
    exact hround level (by omega) (show level < 5 by have : level < 1 + 4 := hl.2; omega)) h hb₁
  refine ⟨a₁, b₁, hR, ?_, rfl⟩
  rw [interrupt, if_pos ⟨halg, hticks ▸ hdue⟩]
  unfold Kernel.boost
  dsimp only
  rw [if_pos (show mlPolicyMlfq.boostPeriod ≤ a.mlTicksSinceBoost + 1 from hticks ▸ hdue), ha₁]
  rfl

end Related

/-! ### The relations -/

section Rounds

theorem moveUp_some (h : (k.queues (.mlQueue level)).head = some p) :
    moveUp level k p =
      { (k.setQueue (.mlQueue level) ⟨k.next p, if k.next p = none then none
          else (k.queues (.mlQueue level)).tail⟩).setLink p none with
        queueLevel := Function.update k.queueLevel (k.pcb p).pid 0 }.enqueueProcessTo
          (.mlQueue 0) p := by
  have hpid : ∀ k' : Kernel, k'.pcb = k.pcb → ((k'.setLink p none).pcb p).pid = (k.pcb p).pid := by
    intro k' hk'
    rw [setLink, modifyPcb_pcb_self, hk']
  rw [moveUp, dequeueProcessFrom_some h]
  dsimp only
  rw [hpid (k.setQueue (.mlQueue level) _) rfl]
  rfl

/-- A round leaves the queues alone that it is not about. -/
theorem moveUp_queues (h : (k.queues (.mlQueue level)).head = some p) (h0 : q ≠ .mlQueue 0)
    (hl : q ≠ .mlQueue level) : (moveUp level k p).queues q = k.queues q := by
  rw [moveUp_some h]
  unfold enqueueProcessTo
  split
  · exact setQueue_queues_of_ne _ _ hl
  · dsimp only
    split
    · exact (setQueue_queues_of_ne _ _ h0).trans (setQueue_queues_of_ne _ _ hl)
    · exact (setQueue_queues_of_ne _ _ h0).trans (setQueue_queues_of_ne _ _ hl)

/-- The ends of a queue that the round is not about. -/
theorem moveUp_setQueue (h : (k.queues (.mlQueue level)).head = some p) (h0 : q ≠ .mlQueue 0)
    (hl : q ≠ .mlQueue level) (y : ProcessQueue) :
    moveUp level (k.setQueue q y) p = (moveUp level k p).setQueue q y := by
  have hqueue : (k.setQueue q y).queues (.mlQueue level) = k.queues (.mlQueue level) :=
    setQueue_queues_of_ne _ _ hl.symm
  rw [moveUp_some h, moveUp_some (hqueue ▸ h), ← setQueue_enqueueProcessTo h0.symm]
  congr 1
  rw [hqueue]
  show ({ ((k.setQueue q y).setQueue (.mlQueue level) _).setLink p none with
    queueLevel := _ } : Kernel) = _
  unfold setQueue setLink modifyPcb
  rw [Function.update_comm hl]
  rfl

/-- A kernel that differs in the tail of a lower queue. -/
theorem moveUp_setTail (h : (k.queues (.mlQueue level)).head = some p) (h0 : q ≠ .mlQueue 0)
    (x : Option PcbPtr) :
    moveUp level (k.setTail q x) p = moveUp level k p
      ∨ moveUp level (k.setTail q x) p = (moveUp level k p).setTail q x := by
  by_cases hl : q = .mlQueue level
  · subst hl
    have hqueue := setTail_queues_self k (.mlQueue level) x
    have hhead : ((k.setTail (.mlQueue level) x).queues (.mlQueue level)).head = some p := by
      rw [hqueue]
      exact h
    rw [moveUp_some h, moveUp_some hhead, setTail_next]
    cases hnext : k.next p with
    | none =>
        -- The queue is empty now, and so is its tail.
        refine Or.inl ?_
        congr 1
        unfold setTail setQueue setLink modifyPcb
        simp only [Function.update_idem]
        rfl
    | some n =>
        refine Or.inr ?_
        rw [hqueue, if_neg nofun, if_neg nofun]
        obtain ⟨c, hc⟩ : ∃ c : Kernel, c = { (k.setQueue (.mlQueue level) ⟨some n,
          (k.queues (.mlQueue level)).tail⟩).setLink p none with
          queueLevel := Function.update k.queueLevel (k.pcb p).pid 0 } := ⟨_, rfl⟩
        have hends : (c.enqueueProcessTo (.mlQueue 0) p).queues (.mlQueue level)
            = ⟨some n, (k.queues (.mlQueue level)).tail⟩ := by
          unfold enqueueProcessTo
          split
          · rw [hc]
            exact setQueue_queues_self ..
          · dsimp only
            split <;>
            · rw [setQueue_queues_of_ne _ _ h0, hc]
              exact setQueue_queues_self ..
        have htail : (c.enqueueProcessTo (.mlQueue 0) p).setTail (.mlQueue level) x
            = (c.setQueue (.mlQueue level) ⟨some n, x⟩).enqueueProcessTo (.mlQueue 0) p := by
          rw [setTail, hends, ← setQueue_enqueueProcessTo h0.symm]
        rw [← hc, htail, hc]
        congr 1
        unfold setTail setQueue setLink modifyPcb
        simp only [Function.update_idem]
  · refine Or.inr ?_
    unfold setTail
    rw [moveUp_setQueue h h0 hl, moveUp_queues h h0 hl]

/-- The insertion behind a tail does not read the head. -/
theorem enqueueProcessTo_setHead (ht : (k.queues q).tail ≠ none) (x : Option PcbPtr) :
    (k.setHead q x).enqueueProcessTo q p = (k.enqueueProcessTo q p).setHead q x
      ∧ ((k.enqueueProcessTo q p).queues q).tail ≠ none := by
  obtain ⟨t, ht⟩ := Option.ne_none_iff_exists'.mp ht
  unfold enqueueProcessTo
  split
  · exact ⟨rfl, by rw [ht]; exact nofun⟩
  · have hk : (((k.setLink p none).setState p .ready).log (.enqueued q p)).queues q = k.queues q := rfl
    have hx : ((((k.setHead q x).setLink p none).setState p .ready).log (.enqueued q p)).queues q
        = ⟨x, (k.queues q).tail⟩ := setHead_queues_self k q x
    dsimp only
    rw [hk, hx, ht]
    dsimp only
    refine ⟨?_, by rw [setQueue_queues_self]; exact nofun⟩
    unfold setHead
    rw [setQueue_queues_self]
    unfold setQueue log setState setLink modifyPcb
    simp only [Function.update_idem]

/-- A kernel that differs in the head of the first queue, which has a tail. -/
theorem moveUp_setHead (h : (k.queues (.mlQueue level)).head = some p) (hlevel : 0 < level)
    (ht : (k.queues (.mlQueue 0)).tail ≠ none) (x : Option PcbPtr) :
    moveUp level (k.setHead (.mlQueue 0) x) p = (moveUp level k p).setHead (.mlQueue 0) x
      ∧ ((moveUp level k p).queues (.mlQueue 0)).tail ≠ none := by
  have hne : QueueId.mlQueue 0 ≠ .mlQueue level := fun he => by
    have := QueueId.mlQueue.inj he
    omega
  have hqueue : (k.setHead (.mlQueue 0) x).queues (.mlQueue level) = k.queues (.mlQueue level) :=
    setHead_queues_of_ne hne.symm
  rw [moveUp_some h, moveUp_some (hqueue ▸ h), hqueue, setHead_next]
  obtain ⟨c, hc⟩ : ∃ c : Kernel, c = { (k.setQueue (.mlQueue level) ⟨k.next p,
    if k.next p = none then none else (k.queues (.mlQueue level)).tail⟩).setLink p none with
    queueLevel := Function.update k.queueLevel (k.pcb p).pid 0 } := ⟨_, rfl⟩
  have hqueue₀ : c.queues (.mlQueue 0) = k.queues (.mlQueue 0) := by
    rw [hc]
    exact setQueue_queues_of_ne _ _ hne
  have hends := enqueueProcessTo_setHead (p := p) (hqueue₀ ▸ ht) x
  rw [← hc]
  have hhead : c.setHead (.mlQueue 0) x
      = c.setQueue (.mlQueue 0) ⟨x, (k.queues (.mlQueue 0)).tail⟩ := by
    rw [setHead, hqueue₀]
  refine ⟨?_, hends.2⟩
  rw [← hends.1, hhead, hc]
  congr 1
  unfold setHead setQueue setLink modifyPcb
  rw [Function.update_comm hne]

/-- The process `r` has been linked behind the last one of the first queue, whose tail does not
know it. -/
def Appending (r : PcbPtr) (L : List PcbPtr) (a b : Kernel) : Prop :=
  L = [] ∧ a = b.setHead (.mlQueue 0) (some r)
    ∨ ∃ t, L.getLast? = some t ∧ a = b.setLink t (some r)

/-- The first round forgets that process. -/
theorem moveUp_appending (hb : b.Linked Q) (hinit : ∀ q, .initProcess ∉ Q q) (hlevel : 0 < level)
    (h : (b.queues (.mlQueue level)).head = some p)
    (hab : Appending r (Q (.mlQueue 0)) a b) : moveUp level a p = moveUp level b p := by
  have hne : QueueId.mlQueue 0 ≠ .mlQueue level := fun he => by
    have := QueueId.mlQueue.inj he
    omega
  obtain ⟨l, hl⟩ : ∃ l, Q (.mlQueue level) = p :: l := by
    rw [(hb.queue _).head_eq] at h
    exact List.head?_eq_some_iff.mp h
  have hp : p ∈ Q (.mlQueue level) := by rw [hl]; exact .head _
  have hpl : p ∉ l := by
    have hnd := hb.nodup (.mlQueue level)
    rw [hl] at hnd
    exact (List.nodup_cons.mp hnd).1
  obtain ⟨c, hc⟩ : ∃ c : Kernel, c = { (b.setQueue (.mlQueue level) ⟨b.next p,
    if b.next p = none then none else (b.queues (.mlQueue level)).tail⟩).setLink p none with
    queueLevel := Function.update b.queueLevel (b.pcb p).pid 0 } := ⟨_, rfl⟩
  have hlinked : c.Linked (Function.update Q (.mlQueue level) l) := by
    obtain ⟨k', hk', hlinked, -⟩ := dequeueProcessFrom_cons hb hl
    rw [dequeueProcessFrom_some h] at hk'
    obtain ⟨rfl, -⟩ := Prod.mk.inj hk'
    rw [hc]
    exact hlinked.congr rfl rfl
  have hfree : ∀ q, p ∉ Function.update Q (.mlQueue level) l q := fun q hq => by
    by_cases he : q = .mlQueue level
    · rw [he, Function.update_self] at hq
      exact hpl hq
    · rw [Function.update_of_ne he] at hq
      exact he (hb.disjoint hq hp)
  have hpinit : p ≠ .initProcess := fun he => hinit _ (he ▸ hp)
  have hzero : Function.update Q (.mlQueue level) l (.mlQueue 0) = Q (.mlQueue 0) :=
    Function.update_of_ne hne _ _
  have hforget : ∀ c' : Kernel, Appending r (Q (.mlQueue 0)) c' c →
      c'.enqueueProcessTo (.mlQueue 0) p = c.enqueueProcessTo (.mlQueue 0) p := fun c' hc' =>
    enqueueProcessTo_forget hlinked (hzero.symm ▸ hc') hpinit hfree
  rw [moveUp_some h, ← hc]
  rcases hab with ⟨hnil, rfl⟩ | ⟨t, ht, rfl⟩
  · have hqueue : (b.setHead (.mlQueue 0) (some r)).queues (.mlQueue level)
        = b.queues (.mlQueue level) := setHead_queues_of_ne hne.symm
    rw [moveUp_some (hqueue ▸ h), hqueue, setHead_next]
    refine hforget _ (Or.inl ⟨hnil, ?_⟩)
    have hqueue₀ : c.queues (.mlQueue 0) = b.queues (.mlQueue 0) := by
      rw [hc]
      exact setQueue_queues_of_ne _ _ hne
    rw [setHead, setHead, hqueue₀, hc]
    unfold setQueue setLink modifyPcb
    rw [Function.update_comm hne]
  · have htp : t ≠ p := fun he =>
      hne (hb.disjoint (he ▸ List.mem_of_getLast? ht) hp)
    have hnext : (b.setLink t (some r)).next p = b.next p := by
      rw [next_setLink, Function.update_of_ne htp.symm]
    have hpid : ((b.setLink t (some r)).pcb p).pid = (b.pcb p).pid := by
      rw [setLink, modifyPcb_pcb_of_ne _ _ htp.symm]
    rw [moveUp_some (k := b.setLink t (some r)) h, hnext, hpid]
    refine hforget _ (Or.inr ⟨t, ht, ?_⟩)
    rw [hc]
    unfold setQueue setLink modifyPcb
    simp only [Function.update_of_ne htp, Function.update_of_ne htp.symm]
    rw [Function.update_comm htp]

end Rounds

/-- A boost from a kernel with another tail in a lower queue. -/
theorem boost_setTail {alg : SchedAlgorithm} (h0 : q ≠ .mlQueue 0) (x : Option PcbPtr)
    (h : k.interrupt alg .boost = some k₂) : ∃ k₂', (k.setTail q x).interrupt alg .boost = some k₂'
      ∧ (k₂' = k₂ ∨ k₂' = k₂.setTail q x) := by
  have hround : ∀ level, 0 < level → level < ML_MAX_LEVELS → ∀ a b : Kernel,
      a = b ∨ a = b.setTail q x →
        (a.queues (.mlQueue level)).head = (b.queues (.mlQueue level)).head
          ∧ ∀ p, (b.queues (.mlQueue level)).head = some p →
            moveUp level a p = moveUp level b p
              ∨ moveUp level a p = (moveUp level b p).setTail q x := by
    rintro level - - a b (rfl | rfl)
    · exact ⟨rfl, fun p _ => Or.inl rfl⟩
    · refine ⟨?_, fun p hp => moveUp_setTail hp h0 x⟩
      by_cases hl : .mlQueue level = q
      · rw [hl, setTail_queues_self]
      · rw [setTail_queues_of_ne hl]
  obtain ⟨a, b, hR, ha, rfl⟩ := boost_rel (R := fun a b => a = b ∨ a = b.setTail q x) hround
    (a := k.setTail q x) (b := k) rfl (Or.inr rfl) h
  refine ⟨boosted a, ha, ?_⟩
  rcases hR with rfl | rfl
  · exact Or.inl rfl
  · exact Or.inr rfl

/-- A boost from a kernel with another head in the first queue, which has a tail. -/
theorem boost_setHead {alg : SchedAlgorithm} (ht : (k.queues (.mlQueue 0)).tail ≠ none)
    (x : Option PcbPtr) (h : k.interrupt alg .boost = some k₂) :
    (k.setHead (.mlQueue 0) x).interrupt alg .boost = some (k₂.setHead (.mlQueue 0) x) := by
  have hround : ∀ level, 0 < level → level < ML_MAX_LEVELS → ∀ a b : Kernel,
      a = b.setHead (.mlQueue 0) x ∧ (b.queues (.mlQueue 0)).tail ≠ none →
        (a.queues (.mlQueue level)).head = (b.queues (.mlQueue level)).head
          ∧ ∀ p, (b.queues (.mlQueue level)).head = some p →
            moveUp level a p = (moveUp level b p).setHead (.mlQueue 0) x
              ∧ ((moveUp level b p).queues (.mlQueue 0)).tail ≠ none := by
    rintro level h0 - a b ⟨rfl, ht⟩
    have hne : QueueId.mlQueue level ≠ .mlQueue 0 := fun he => by
      have := QueueId.mlQueue.inj he
      omega
    refine ⟨?_, fun p hp => moveUp_setHead hp h0 ht x⟩
    rw [setHead_queues_of_ne hne]
  obtain ⟨a, b, ⟨rfl, -⟩, ha, rfl⟩ := boost_rel (R := fun a b => a = b.setHead (.mlQueue 0) x
    ∧ (b.queues (.mlQueue 0)).tail ≠ none) hround (a := k.setHead (.mlQueue 0) x) (b := k) rfl
    ⟨rfl, ht⟩ h
  exact ha

/-- A boost that moves somebody forgets the process that the tail of the first queue does not
know. -/
theorem boost_appending {alg : SchedAlgorithm} {m : Option PcbPtr} (hb : b.Linked Q)
    (hpop : Population b Q m)
    (hab : Appending r (Q (.mlQueue 0)) a b) (hlow : ∃ level, 0 < level ∧ level < ML_MAX_LEVELS
      ∧ Q (.mlQueue level) ≠ []) (h : a.interrupt alg .boost = some k₂) :
    b.interrupt alg .boost = some k₂ := by
  have hround : ∀ level, 0 < level → level < ML_MAX_LEVELS → ∀ b a : Kernel,
      b = a ∨ (∃ Q', b.Linked Q' ∧ (∀ q, .initProcess ∉ Q' q) ∧ Q' (.mlQueue 0) = Q (.mlQueue 0)
          ∧ Appending r (Q (.mlQueue 0)) a b) →
        (b.queues (.mlQueue level)).head = (a.queues (.mlQueue level)).head
          ∧ ∀ p, (a.queues (.mlQueue level)).head = some p →
            (moveUp level b p = moveUp level a p ∨ ∃ Q', (moveUp level b p).Linked Q'
              ∧ (∀ q, .initProcess ∉ Q' q) ∧ Q' (.mlQueue 0) = Q (.mlQueue 0)
              ∧ Appending r (Q (.mlQueue 0)) (moveUp level a p) (moveUp level b p)) := by
    rintro level h0 - b a (rfl | ⟨Q', hb, hinit, hzero, hab⟩)
    · exact ⟨rfl, fun p _ => Or.inl rfl⟩
    · have hne : QueueId.mlQueue level ≠ .mlQueue 0 := fun he => by
        have := QueueId.mlQueue.inj he
        omega
      have hqueue : a.queues (.mlQueue level) = b.queues (.mlQueue level) := by
        rcases hab with ⟨-, rfl⟩ | ⟨t, -, rfl⟩
        · exact setHead_queues_of_ne hne
        · rfl
      rw [hqueue]
      exact ⟨rfl, fun p hp => Or.inl (moveUp_appending hb hinit h0 hp (hzero ▸ hab)).symm⟩
  have hinit : ∀ q, .initProcess ∉ Q q := fun q hq => (hpop.member q _ hq).2.1 rfl
  have hticks : b.mlTicksSinceBoost = a.mlTicksSinceBoost := by
    rcases hab with ⟨-, rfl⟩ | ⟨t, -, rfl⟩ <;> rfl
  obtain ⟨b₁, a₁, hR, hb₂, rfl⟩ := boost_rel hround hticks (Or.inr ⟨Q, hb.congr rfl rfl, hinit, rfl, by
    rcases hab with ⟨hnil, rfl⟩ | ⟨t, ht, rfl⟩
    · exact Or.inl ⟨hnil, rfl⟩
    · exact Or.inr ⟨t, ht, rfl⟩⟩) h
  rcases hR with rfl | ⟨Q', hb₁, -, hzero, -⟩
  · exact hb₂
  · -- Somebody has moved, and the first queue has kept its list.
    obtain ⟨-, Q₂, moved, hh, -, hmoved, hnone, -⟩ := boost_handled hb hpop hb₂
    have hlinked : (boosted b₁).Linked Q' := hb₁.congr rfl rfl
    have hsame := hlinked.walks.unique hh.linked (.mlQueue 0)
    rw [hmoved, hzero] at hsame
    obtain ⟨level, h0, h5, hne⟩ := hlow
    have hnil : moved = [] := by simpa using hsame
    exact absurd (hnone.mp hnil level h0 h5) hne

/-! ### The places -/

/-- A process that has been taken out is still linked in another queue. -/
theorem reachable_kept {k' : Kernel} (hk : k.Linked Q) (hp : p ∈ Q q)
    (hhead : (k'.queues q).head = (k.queues q).head) (hnext : ∀ r, r ≠ p → k'.next r = k.next r)
    (hend : k'.next p = none) : ¬ k'.EachReadyOnce (some p) := by
  rintro ⟨Q', hk', -, hout⟩
  obtain ⟨u, v, hl⟩ := List.append_of_mem hp
  have hqueue := hk.queue q
  rw [hl] at hqueue
  have hpu : p ∉ u := fun hu =>
    (List.nodup_append.mp hqueue.nodup).2.2 p hu p List.mem_cons_self rfl
  obtain ⟨m, hu, hm⟩ := segment_append.mp hqueue.walk
  have hwalk : Segment k'.next (k'.queues q).head (u ++ [p]) none := by
    rw [hhead]
    exact segment_append.mpr ⟨m, hu.congr fun r hr => hnext r (ne_of_mem_of_not_mem hr hpu),
      hm.1, hend⟩
  refine hout p rfl q ?_
  rw [(hk'.queue q).walk.unique hwalk]
  exact List.mem_append_right _ (List.mem_singleton_self p)

section Places
variable {alg : SchedAlgorithm} {m : Option PcbPtr}

/-- Somebody is in a lower queue. -/
def Low (k : Kernel) : Prop :=
  ∃ level, 0 < level ∧ level < ML_MAX_LEVELS ∧ (k.queues (.mlQueue level)).head ≠ none

theorem uses_mlfq (h : SchedAlgorithm.mlfq.Uses q) : ∃ level, level < ML_MAX_LEVELS ∧ q = .mlQueue level := by
  cases q with
  | readyQueue => exact h.elim
  | mlQueue level => exact ⟨level, h, rfl⟩

/-- The boost on sound queues. -/
theorem boost_sound (hk : k.Linked Q) (hpop : Population k Q m)
    (hi : k.interrupt alg .boost = some k₂) :
    ∃ Q₂ moved, Handled k Q none k₂ Q₂ ∧ Population k₂ Q₂ m
      ∧ (∀ level, 0 < level → level < ML_MAX_LEVELS → Q₂ (.mlQueue level) = [])
      ∧ Q₂ (.mlQueue 0) = Q (.mlQueue 0) ++ moved ∧ (moved ≠ [] ↔ Low k)
      ∧ ∀ r ∈ moved, (k₂.pcb r).state = .ready := by
  obtain ⟨-, Q₂, moved, hh, hempty, hmoved, hnone, hready⟩ := boost_handled hk hpop hi
  refine ⟨Q₂, moved, hh, hh.population hpop nofun, hempty, hmoved, ?_, hready⟩
  unfold Low
  rw [Ne, hnone]
  simp only [not_forall, exists_prop]
  refine exists_congr fun level => and_congr_right fun _ => and_congr_right fun _ => not_congr ?_
  exact (hk.queue _).head_eq_none_iff.symm

/-- A boost with nobody in the lower queues. -/
theorem boost_not_low (hlow : ¬ Low k) (hi : k.interrupt alg .boost = some k₂) :
    k₂ = boosted k := by
  refine boost_idle (fun level h0 h5 => ?_) hi
  by_contra hhead
  exact hlow ⟨level, h0, h5, hhead⟩

/-- The tail does not know the process yet: behind a boost that has emptied its queue, or has
appended to it, it becomes the tail of a queue that it is not in. -/
theorem boost_tailBefore (ht : TailBefore k Q q p) (hpop : Population k Q (some p))
    (ho : Outside k Q p) (hlevel : level < ML_MAX_LEVELS) (hq : q = .mlQueue level)
    (hdamage : 0 < level ∨ Low k) (hi : k.interrupt alg .boost = some k₂) :
    ¬ (k₂.setTail q (some p)).EachReadyOnce none := by
  rcases Nat.eq_zero_or_pos level with rfl | h0
  · obtain ⟨k₀, hk₀, -, hform⟩ := ht.forget ho
    have hsame : SameStates k k₀ := by
      rcases hform with ⟨-, rfl⟩ | ⟨t, -, rfl⟩
      · exact ⟨rfl, fun _ => rfl⟩
      · have h := SameStates.setLink k₀ t (some p)
        exact ⟨h.1.symm, fun r => (h.2 r).symm⟩
    obtain ⟨level, h0, h5, hhead⟩ := hdamage.resolve_left (Nat.lt_irrefl 0)
    have hqueues : k.queues (.mlQueue level) = k₀.queues (.mlQueue level) := by
      rcases hform with ⟨-, rfl⟩ | ⟨t, -, rfl⟩
      · refine setHead_queues_of_ne fun he => ?_
        rw [hq] at he
        have := QueueId.mlQueue.inj he
        omega
      · rfl
    have hpop₀ := hpop.same hsame
    have happending : Appending p (Q (.mlQueue 0)) k k₀ := by
      rw [hq] at hform
      exact hform
    have hlist : Q (.mlQueue level) ≠ [] := fun hnil =>
      hhead (by rw [hqueues]; exact (hk₀.queue _).head_eq_none_iff.mpr hnil)
    have hi₀ := boost_appending hk₀ hpop₀ happending ⟨level, h0, h5, hlist⟩ hi
    obtain ⟨Q₂, moved, hh, -⟩ := boost_sound hk₀ hpop₀ hi₀
    refine setTail_wrong hh.linked fun hp => ?_
    rcases hh.only _ _ (List.mem_of_getLast? hp) with ⟨q', hq'⟩ | hnone
    · exact ho.free q' hq'
    · exact nomatch hnone
  · have hne : q ≠ .mlQueue 0 := fun he => by
      rw [hq] at he
      have := QueueId.mlQueue.inj he
      omega
    obtain ⟨k₂', hk₂', hcases⟩ := boost_setTail hne (some p) hi
    obtain ⟨Q₂, moved, hh, -, hempty, -⟩ := boost_sound ht.linked (hpop.append ho q) hk₂'
    have hsame : k₂.setTail q (some p) = k₂'.setTail q (some p) := by
      rcases hcases with rfl | rfl
      · rfl
      · rw [setTail_setTail]
    rw [hsame]
    refine setTail_wrong hh.linked fun hp => ?_
    rw [hq, hempty level h0 hlevel] at hp
    exact nomatch hp

/-- The tail still knows the process that has left the empty queue: a boost that appends to it
links behind that process. -/
theorem boost_stale (hs : TailStale k Q q p) (hnil : Q q = []) (hpop : Population k Q (some p))
    (ho : Outside k Q p) (hlevel : level < ML_MAX_LEVELS) (hq : q = .mlQueue level)
    (hi : k.interrupt alg .boost = some k₂) :
    (k₂.queues q).head = none ∧ ((k₂.setTail q none).Completed (.dequeueClear p)
      ↔ ¬ (level = 0 ∧ Low k)) := by
  have hlinked := hs.linked
  rw [hnil] at hlinked
  have hhead : (k.queues q).head = none := by
    have hqueue := hlinked.queue q
    rw [setTail_queues_self] at hqueue
    exact hqueue.head_eq_none_iff.mpr hnil
  have htail : (k.queues q).tail ≠ none := by rw [hs.tail]; exact nofun
  rcases Nat.eq_zero_or_pos level with rfl | h0
  · by_cases hlow : Low k
    · -- The queue as it is seen from its tail.
      have hlinked' : (k.setHead q (some p)).Linked (Function.update Q q [p]) := by
        refine hlinked.update ?_ (fun q' hq' => ⟨?_, fun _ _ => rfl⟩) fun r hr q' _ => ?_
        · rw [setHead_queues_self, hs.tail]
          exact ⟨⟨rfl, hs.next⟩, rfl, List.nodup_singleton p⟩
        · rw [setHead_queues_of_ne hq', setTail_queues_of_ne hq']
        · obtain rfl := List.mem_singleton.mp hr
          exact ho.free q'
      have hpop' : Population (k.setHead q (some p)) (Function.update Q q [p]) (some p) := by
        refine ⟨fun q' r hr => ?_, fun r hr hne hrp hst => ?_, hpop.init⟩
        · by_cases hq' : q' = q
          · rw [hq', Function.update_self, List.mem_singleton] at hr
            subst hr
            exact ⟨ho.process, ho.notInit, ho.notWaiting⟩
          · rw [Function.update_of_ne hq'] at hr
            exact hpop.member q' r hr
        · obtain ⟨q', hq'⟩ := hpop.ready r hr hne hrp hst
          refine ⟨q', ?_⟩
          have hqq : q' ≠ q := fun he => by
            rw [he, hnil] at hq'
            exact nomatch hq'
          rw [Function.update_of_ne hqq]
          exact hq'
      have hsome := boost_setHead (by rw [← hq]; exact htail) (some p) hi
      have hnone := boost_setHead (by rw [← hq]; exact htail) none hi
      rw [← hq] at hsome hnone
      have hself : k.setHead q none = k := by
        have hends : k.queues q = ⟨none, (k.queues q).tail⟩ := by rw [← hhead]
        unfold setHead setQueue
        rw [← hends, Function.update_eq_self]
      have hhead₂ : (k₂.queues q).head = none := by
        rw [hself, hi] at hnone
        rw [Option.some.inj hnone, setHead_queues_self]
      obtain ⟨Q₂, moved, hh, hpop₂, -, hmoved, hne, hready⟩ := boost_sound hlinked' hpop' hsome
      refine ⟨hhead₂, iff_of_false (fun hdone => ?_) (fun hnot => hnot ⟨rfl, hlow⟩)⟩
      have hlow' : Low (k.setHead q (some p)) := by
        obtain ⟨level, h0, h5, hl⟩ := hlow
        refine ⟨level, h0, h5, ?_⟩
        rw [setHead_queues_of_ne]
        · exact hl
        · rw [hq]
          intro he
          have := QueueId.mlQueue.inj he
          omega
      obtain ⟨r, hr⟩ := List.exists_mem_of_ne_nil _ (hne.mpr hlow')
      rw [← hq, Function.update_self] at hmoved
      have hrq : r ∈ Q₂ q := by rw [hmoved]; exact List.mem_append_right _ hr
      have hpq : p ∈ Q₂ q := by rw [hmoved]; exact List.mem_append_left _ (.head _)
      have hrp : r ≠ p := fun he => by
        have hnd := hh.linked.nodup q
        rw [hmoved, List.singleton_append, List.nodup_cons] at hnd
        exact hnd.1 (he ▸ hr)
      have hwalks : Walks ((k₂.setTail q none).setLink p none) (Function.update Q₂ q []) := by
        refine hh.linked.walks.update ?_ fun q' hq' => ⟨?_, fun t ht => ?_⟩
        · rw [setLink_queues, setTail_queues_self, hhead₂]
          rfl
        · rw [setLink_queues, setTail_queues_of_ne hq', setHead_queues_of_ne hq']
        · have htp : t ≠ p := fun he => hq' (hh.linked.disjoint (he ▸ ht) hpq)
          rw [next_setLink, Function.update_of_ne htp]
          rfl
      refine hwalks.lost (p := r) ((hpop₂.member q r hrq).1 :)
        (hpop₂.member q r hrq).2.1 ?_ (fun he => hrp (Option.some.inj he)) (fun q' hq' => ?_)
        ((completed_returns rfl).mp hdone)
      · rw [(SameStates.setLink (k₂.setTail q none) p none).2 r]
        exact hready r hr
      · by_cases he : q' = q
        · rw [he, Function.update_self] at hq'
          exact nomatch hq'
        · rw [Function.update_of_ne he] at hq'
          exact he (hh.linked.disjoint hq' hrq)
    · rw [boost_not_low hlow hi]
      refine ⟨hhead, iff_of_true ?_ fun h => hlow h.2⟩
      have hsame : SameStates k ((boosted k).setTail q none) := ⟨rfl, fun _ => rfl⟩
      exact QueuePoint.completed_clear rfl (hpop.same hsame) (hlinked.congr rfl rfl)
        (ho.same hsame)
  · have hne : q ≠ .mlQueue 0 := fun he => by
      rw [hq] at he
      have := QueueId.mlQueue.inj he
      omega
    obtain ⟨k₂', hk₂', hcases⟩ := boost_setTail hne none hi
    have hsame : SameStates k (k.setTail q none) := ⟨rfl, fun _ => rfl⟩
    obtain ⟨Q₂, moved, hh, hpop₂, hempty, -⟩ := boost_sound hlinked (hpop.same hsame) hk₂'
    have hends : (k₂'.queues q).head = none ∧ (k₂'.queues q).tail = none := by
      have hqueue := hh.linked.queue q
      rw [hq, hempty level h0 hlevel] at hqueue
      rw [hq]
      exact ⟨hqueue.head_eq, hqueue.tail_eq⟩
    have hback : (k₂.queues q).head = none ∧ k₂.setTail q none = k₂' := by
      rcases hcases with rfl | rfl
      · exact ⟨hends.1, setTail_self hends.2⟩
      · rw [setTail_queues_self] at hends
        exact ⟨hends.1, rfl⟩
    refine ⟨hback.1, iff_of_true ?_ fun h => by have := h.1; omega⟩
    rw [hback.2]
    exact QueuePoint.completed_clear rfl hpop₂ hh.linked (hh.outside (ho.same hsame) nofun)

/-- What the boost does to an unfinished operation. -/
theorem boost_iff {x : QueuePoint} (h : x.At alg k Q) (hi : k.interrupt alg .boost = some k₂) :
    k₂.Completed x ↔ QueueInterrupt.boost.Harmless alg k x := by
  obtain ⟨rfl, -⟩ := interrupt_boost hi
  obtain ⟨hpop, hshape⟩ := h
  have hsound := fun hk : k.Linked Q => boost_sound hk hpop hi
  have happends : ∀ level, QueueInterrupt.boost.Appends .mlfq k (.mlQueue level)
      ↔ level = 0 ∧ Low k := fun level =>
    and_congr_left' ⟨fun he => QueueId.mlQueue.inj he, fun he => congrArg _ he⟩
  have hempties : ∀ level, level < ML_MAX_LEVELS →
      (QueueInterrupt.boost.Empties (.mlQueue level) ↔ 0 < level) := fun level h5 =>
    ⟨fun ⟨l, h0, _, he⟩ => QueueId.mlQueue.inj he ▸ h0, fun h0 => ⟨level, h0, h5, rfl⟩⟩
  have hsorts : ∀ w, ¬ QueueInterrupt.boost.Sorts .mlfq w := fun w hs => by cases hs.1
  cases x with
  | enqueueClear q p =>
      obtain ⟨ha, hk, ho⟩ := hshape
      obtain ⟨Q₂, moved, hh, hpop₂, -⟩ := hsound hk
      exact iff_of_true (QueuePoint.At.completed ⟨hpop₂, ha, hh.linked, hh.outside ho (fun h => by cases h)⟩) trivial
  | enqueueReady q p | enqueueTest q p =>
      obtain ⟨ha, hk, ho, hn⟩ := hshape
      obtain ⟨Q₂, moved, hh, hpop₂, -⟩ := hsound hk
      exact iff_of_true (QueuePoint.At.completed ⟨hpop₂, ha, hh.linked, hh.outside ho (fun h => by cases h),
        (hh.next p ho.free (fun h => by cases h)).trans hn⟩) trivial
  | enqueueHead q p =>
      obtain ⟨ha, hk, ho, hn, hnil⟩ := hshape
      obtain ⟨level, h5, rfl⟩ := uses_mlfq ha.2
      obtain ⟨Q₂, moved, hh, hpop₂, hempty, hmoved, hlow, hready⟩ := hsound hk
      have hn₂ := (hh.next p ho.free (fun h => by cases h)).trans hn
      show _ ↔ ¬ _
      rw [happends]
      by_cases hdamage : level = 0 ∧ Low k
      · refine iff_of_false (fun hdone => ?_) (fun hnot => hnot hdamage)
        obtain ⟨rfl, hlow'⟩ := hdamage
        obtain ⟨r, hr⟩ := List.exists_mem_of_ne_nil _ (hlow.mpr hlow')
        have hrq : r ∈ Q₂ (.mlQueue 0) := by rw [hmoved]; exact List.mem_append_right _ hr
        obtain ⟨hrk, hrne, -⟩ := hpop₂.member _ r hrq
        exact overwritten_lost hh.linked hn₂ ((hh.outside ho (fun h => by cases h)).free _) hrq hrk hrne (hready r hr)
          ((completed_returns rfl).mp ((completed_goto rfl).mp hdone))
      · have hnil₂ : Q₂ (.mlQueue level) = [] := by
          rcases Nat.eq_zero_or_pos level with rfl | h0
          · have hnone : moved = [] := by
              by_contra hne
              exact hdamage ⟨rfl, hlow.mp hne⟩
            rw [hmoved, hnil, hnone]
            rfl
          · exact hempty level h0 h5
        exact iff_of_true (QueuePoint.At.completed ⟨hpop₂, ha, hh.linked, hh.outside ho (fun h => by cases h),
          hn₂, hnil₂⟩) hdamage
  | enqueueLink q p =>
      obtain ⟨ha, hk, ho, hn, hne⟩ := hshape
      obtain ⟨level, h5, rfl⟩ := uses_mlfq ha.2
      obtain ⟨Q₂, moved, hh, hpop₂, hempty, hmoved, -, -⟩ := hsound hk
      show _ ↔ ¬ _
      rw [hempties level h5]
      rcases Nat.eq_zero_or_pos level with rfl | h0
      · have hne₂ : Q₂ (.mlQueue 0) ≠ [] := by
          rw [hmoved]
          exact List.append_ne_nil_of_left_ne_nil hne _
        exact iff_of_true (QueuePoint.At.completed ⟨hpop₂, ha, hh.linked, hh.outside ho (fun h => by cases h),
          (hh.next p ho.free (fun h => by cases h)).trans hn, hne₂⟩) (Nat.lt_irrefl 0)
      · have htail : (k₂.queues (.mlQueue level)).tail = none :=
          (hh.linked.queue _).tail_eq_none_iff.mpr (hempty level h0 h5)
        exact iff_of_false (not_completed (by rw [queueStatement, htail]; rfl)) (not_not_intro h0)
  | enqueueOnlyTail q p | enqueueTail q p =>
      obtain ⟨ha, ho, ht⟩ := hshape
      obtain ⟨level, h5, rfl⟩ := uses_mlfq ha.2
      show _ ↔ ¬ _ ∧ ¬ _
      rw [happends, hempties level h5]
      by_cases hdamage : 0 < level ∨ Low k
      · refine iff_of_false (fun hdone => ?_) fun hnot => ?_
        · exact boost_tailBefore ht hpop ho h5 rfl hdamage hi ((completed_returns rfl).mp hdone)
        · rcases hdamage with h0 | hlow
          · exact hnot.2 h0
          · exact hnot.1 ⟨Nat.eq_zero_of_not_pos hnot.2, hlow⟩
      · obtain ⟨hlevel, hlow⟩ := not_or.mp hdamage
        rw [boost_not_low hlow hi]
        have hsame : SameStates k (boosted k) := ⟨rfl, fun _ => rfl⟩
        refine iff_of_true (QueuePoint.At.completed (Q := Q) ⟨hpop.same hsame, ha, ho.same hsame, ?_⟩)
          ⟨fun h => hlow h.2, hlevel⟩
        exact ⟨ht.linked.congr rfl rfl, ht.tail⟩
  | dequeueTest q =>
      obtain ⟨ha, hk⟩ := hshape
      obtain ⟨Q₂, moved, hh, hpop₂, -⟩ := hsound hk
      exact iff_of_true (QueuePoint.At.completed ⟨hpop₂, ha, hh.linked⟩) trivial
  | dequeueRead q =>
      obtain ⟨ha, hk, hne⟩ := hshape
      obtain ⟨level, h5, rfl⟩ := uses_mlfq ha
      obtain ⟨Q₂, moved, hh, hpop₂, hempty, hmoved, -, -⟩ := hsound hk
      show _ ↔ ¬ _
      rw [hempties level h5]
      rcases Nat.eq_zero_or_pos level with rfl | h0
      · have hne₂ : Q₂ (.mlQueue 0) ≠ [] := by
          rw [hmoved]
          exact List.append_ne_nil_of_left_ne_nil hne _
        exact iff_of_true (QueuePoint.At.completed ⟨hpop₂, ha, hh.linked, hne₂⟩) (Nat.lt_irrefl 0)
      · have hhead : (k₂.queues (.mlQueue level)).head = none :=
          (hh.linked.queue _).head_eq_none_iff.mpr (hempty level h0 h5)
        exact iff_of_false (not_completed (by rw [queueStatement, hhead]; rfl)) (not_not_intro h0)
  | dequeueHead q p =>
      obtain ⟨ha, hk, l, hl⟩ := hshape
      obtain ⟨level, h5, rfl⟩ := uses_mlfq ha
      obtain ⟨Q₂, moved, hh, hpop₂, hempty, hmoved, -, -⟩ := hsound hk
      show _ ↔ ¬ _ ∧ _
      rw [hempties level h5, and_iff_left fun w hs => absurd hs (hsorts w)]
      rcases Nat.eq_zero_or_pos level with rfl | h0
      · have hl₂ : Q₂ (.mlQueue 0) = p :: (l ++ moved) := by rw [hmoved, hl]; rfl
        exact iff_of_true (QueuePoint.At.completed ⟨hpop₂, ha, hh.linked, l ++ moved, hl₂⟩)
          (Nat.lt_irrefl 0)
      · refine iff_of_false (fun hdone => ?_) (not_not_intro h0)
        obtain ⟨q', hq'⟩ := hh.keeps (.mlQueue level) p (by rw [hl]; exact .head _)
        have hne : q' ≠ .mlQueue level := fun he => by
          rw [he, hempty level h0 h5] at hq'
          cases hq'
        have hend := (completed_goto rfl).mp hdone
        obtain ⟨k₃, hk₃⟩ : ∃ k₃, k₃ = k₂.setHead (.mlQueue level) (k₂.pcb p).nextReady := ⟨_, rfl⟩
        have hhead₃ : (k₃.queues q').head = (k₂.queues q').head := by
          rw [hk₃, setHead_queues_of_ne hne]
        have hlost : ∀ k' : Kernel, k'.pcb = k₂.pcb → (k'.queues q').head = (k₂.queues q').head →
            ¬ (k'.setLink p none).EachReadyOnce (some p) := by
          intro k' hpcb hhead
          refine reachable_kept hh.linked hq' hhead (fun r hr => ?_) ?_
          · rw [next_setLink, Function.update_of_ne hr]
            exact congrArg (fun pcb => (pcb r).nextReady) hpcb
          · rw [next_setLink, Function.update_self]
        rw [← hk₃] at hend
        by_cases hhead : (k₃.queues (.mlQueue level)).head = none
        · have hgoto := completed_goto (k := k₃) (x := .dequeueEmpty (.mlQueue level) p)
            (y := .dequeueTail (.mlQueue level) p) (by rw [queueStatement, if_pos hhead])
          refine hlost (k₃.setTail (.mlQueue level) none) (by rw [hk₃]; rfl) ?_
            ((completed_returns rfl).mp ((completed_goto rfl).mp (hgoto.mp hend)))
          rw [setTail_queues_of_ne hne]
          exact hhead₃
        · have hgoto := completed_goto (k := k₃) (x := .dequeueEmpty (.mlQueue level) p)
            (y := .dequeueClear p) (by rw [queueStatement, if_neg hhead])
          exact hlost k₃ (by rw [hk₃]; rfl) hhead₃ ((completed_returns rfl).mp (hgoto.mp hend))
  | dequeueEmpty q p =>
      obtain ⟨ha, ho, hcases⟩ := hshape
      obtain ⟨level, h5, rfl⟩ := uses_mlfq ha
      show _ ↔ (_ → _)
      rw [happends]
      rcases hcases with ⟨hk, hne⟩ | ⟨hnil, hs⟩
      · have hhead : (k.queues (.mlQueue level)).head ≠ none := fun hh =>
          hne ((hk.queue _).head_eq_none_iff.mp hh)
        obtain ⟨Q₂, moved, hh, hpop₂, hempty, hmoved, -, -⟩ := hsound hk
        refine iff_of_true ?_ fun _ => hhead
        rcases Nat.eq_zero_or_pos level with rfl | h0
        · have hne₂ : Q₂ (.mlQueue 0) ≠ [] := by
            rw [hmoved]
            exact List.append_ne_nil_of_left_ne_nil hne _
          exact QueuePoint.At.completed ⟨hpop₂, ha, hh.outside ho (fun h => by cases h), Or.inl ⟨hh.linked, hne₂⟩⟩
        · -- Both ends are clear already.
          have hqueue := hh.linked.queue (.mlQueue level)
          rw [hempty level h0 h5] at hqueue
          have hhead₂ : (k₂.queues (.mlQueue level)).head = none := hqueue.head_eq
          have hgoto := completed_goto (k := k₂) (x := .dequeueEmpty (.mlQueue level) p)
            (y := .dequeueTail (.mlQueue level) p) (by rw [queueStatement, if_pos hhead₂])
          refine hgoto.mpr ((completed_goto rfl).mpr ?_)
          rw [setTail_self (x := none) hqueue.tail_eq]
          exact QueuePoint.completed_clear rfl hpop₂ hh.linked (hh.outside ho (fun h => by cases h))
      · have hhead : (k.queues (.mlQueue level)).head = none := by
          have hqueue := hs.linked.queue (.mlQueue level)
          rw [setTail_queues_self] at hqueue
          exact hqueue.head_eq_none_iff.mpr hnil
        obtain ⟨hhead₂, hdone⟩ := boost_stale hs hnil hpop ho h5 rfl hi
        have hgoto := completed_goto (k := k₂) (x := .dequeueEmpty (.mlQueue level) p)
          (y := .dequeueTail (.mlQueue level) p) (by rw [queueStatement, if_pos hhead₂])
        rw [hgoto, completed_goto rfl, hdone]
        exact ⟨fun hnot h => absurd h hnot, fun himp h => himp h hhead⟩
  | dequeueTail q p =>
      obtain ⟨ha, ho, hnil, hs⟩ := hshape
      obtain ⟨level, h5, rfl⟩ := uses_mlfq ha
      show _ ↔ ¬ _ ∧ _
      rw [happends, and_iff_left hsorts, completed_goto rfl]
      exact (boost_stale hs hnil hpop ho h5 rfl hi).2
  | dequeueClear p | removeClear p =>
      obtain ⟨hk, ho⟩ := hshape
      obtain ⟨Q₂, moved, hh, hpop₂, -⟩ := hsound hk
      exact iff_of_true (QueuePoint.completed_clear rfl hpop₂ hh.linked (hh.outside ho (fun h => by cases h)))
        trivial
  -- MLFQ calls neither `remove_process_from` nor `enqueue_sorted_to`.
  | removeTest | removeHead | removeLink | removeTailTest | removeTail =>
      exact hshape.1.elim (fun h => by cases h) (fun h => by cases h)
  | sortedClear | sortedReady | sortedTest | sortedHead | sortedOnlyTail | sortedFirst
  | sortedFrontLink | sortedFront | sortedStart | sortedLoop | sortedCompare | sortedAdvance
  | sortedLink | sortedBehind | sortedLast | sortedTail => cases hshape.1.1

end Places

end DemoOS
