import DemoOS.Proofs.Fat32.Allocation

/-!
# `DemoOS.Proofs.Fat32.Removal`: a chain is given back

`removeChain_shows` says that `remove_chain` frees the clusters of a chain, and ends. What it leaves
is `Plain.release`, and `Plain.Sound.remove` says that the other chains stay.
-/

set_option autoImplicit false

namespace DemoOS.Fat32

open Support

namespace Plain

variable {p : Plain} {clust i : Nat} {l : List Nat} {before after : List (List Nat)}

/-- The items of the clusters become 0. -/
def erase (p : Plain) (l : List Nat) : Plain := l.foldl (fun p clust => p.put clust 0) p

/-- The volume after some rounds of `remove_chain`. -/
def erased (p : Plain) (l : List Nat) : Plain :=
  { p.erase l with freeCnt := u32 (p.freeCnt + l.length), infoDirty := true }

/-- The volume after `remove_chain`. -/
def release (p : Plain) (l : List Nat) : Plain := (p.erased l).sync

theorem erase_concat (p : Plain) (l : List Nat) (clust : Nat) :
    p.erase (l ++ [clust]) = (p.erase l).put clust 0 := by
  rw [erase, List.foldl_append]
  rfl

/-- The counters play no part in a put. -/
theorem put_counters (freeCnt : Nat) (infoDirty : Bool) (clust val : Nat) :
    ({ p with freeCnt := freeCnt, infoDirty := infoDirty } : Plain).put clust val
      = { p.put clust val with freeCnt := freeCnt, infoDirty := infoDirty } := by
  unfold put
  split <;> rfl

/-- One round of `remove_chain` more. -/
theorem erased_concat (l : List Nat) (clust : Nat) :
    ({ (p.erased l).put clust 0 with freeCnt := u32 ((p.erased l).freeCnt + 1) } : Plain)
      = p.erased (l ++ [clust]) := by
  have hcount : u32 (u32 (p.freeCnt + l.length) + 1) = u32 (p.freeCnt + (l ++ [clust]).length) := by
    rw [List.length_append, List.length_singleton]
    unfold u32
    omega
  unfold erased
  rw [put_counters, erase_concat, ← hcount]

@[simp] theorem erase_geometry (l : List Nat) : (p.erase l).geometry = p.geometry := by
  induction l generalizing p with
  | nil => rfl
  | cons clust l ih => exact ih.trans (put_geometry clust 0)

@[simp] theorem erase_lastUsed (l : List Nat) : (p.erase l).lastUsed = p.lastUsed := by
  induction l generalizing p with
  | nil => rfl
  | cons clust l ih => exact ih.trans (put_lastUsed clust 0)

@[simp] theorem erased_geometry (l : List Nat) : (p.erased l).geometry = p.geometry :=
  erase_geometry l

@[simp] theorem release_geometry (l : List Nat) : (p.release l).geometry = p.geometry :=
  (sync_geometry _).trans (erase_geometry l)

@[simp] theorem release_lastUsed (l : List Nat) : (p.release l).lastUsed = p.lastUsed :=
  (sync_lastUsed _).trans (erase_lastUsed l)

@[simp] theorem release_freeCnt (l : List Nat) :
    (p.release l).freeCnt = u32 (p.freeCnt + l.length) := sync_freeCnt _

theorem erased_same (l : List Nat) :
    SameBut (OffTable p.geometry) (p.erase l) (p.release l) := by
  have hsync := sync_same (p.erased l)
  rw [erased_geometry] at hsync
  exact ⟨hsync.geometry, hsync.sectors⟩

section Erase
variable (hg : p.geometry.Valid) (hl : ∀ k ∈ l, k ∈ p.geometry.clusters)
include hg hl

/-- The cells after some rounds. -/
theorem cell_erase (hi : i ∈ p.geometry.clusters) :
    (p.erase l).cell i = if i ∈ l then .free else p.cell i := by
  induction l generalizing p with
  | nil => rfl
  | cons k l ih =>
      have hk := (Geometry.mem_clusters.mp (hl k List.mem_cons_self)).2
      have htail := ih (p := p.put k 0) (by rwa [put_geometry])
        (fun j hj => by rw [put_geometry]; exact hl j (List.mem_cons_of_mem k hj))
        (by rwa [put_geometry])
      show ((p.put k 0).erase l).cell i = _
      rw [htail, cell_put hg hk (Geometry.mem_clusters.mp hi).2, cellOf_zero]
      by_cases hil : i ∈ l
      · rw [if_pos hil, if_pos (List.mem_cons_of_mem k hil)]
      · rw [if_neg hil]
        simp only [List.mem_cons, hil, or_false]

theorem mirrored_erase (hm : p.Mirrored) : (p.erase l).Mirrored := by
  induction l generalizing p with
  | nil => exact hm
  | cons k l ih =>
      have hk := (Geometry.mem_clusters.mp (hl k List.mem_cons_self)).2
      exact ih (p := p.put k 0) (by rwa [put_geometry])
        (fun j hj => by rw [put_geometry]; exact hl j (List.mem_cons_of_mem k hj))
        (mirrored_put hg hm hk)

theorem erase_off (hi : OffTable p.geometry i) : (p.erase l).sectors i = p.sectors i := by
  induction l generalizing p with
  | nil => rfl
  | cons k l ih =>
      have htail := ih (p := p.put k 0) (by rwa [put_geometry])
        (fun j hj => by rw [put_geometry]; exact hl j (List.mem_cons_of_mem k hj))
        (by rwa [put_geometry])
      exact htail.trans (put_off hg (hl k List.mem_cons_self) hi 0)

theorem cell_release (hi : i ∈ p.geometry.clusters) :
    (p.release l).cell i = if i ∈ l then .free else p.cell i := by
  have hsame := erased_same (p := p) l
  rw [← erase_geometry (p := p) l] at hsame
  rw [hsame.cell (by rwa [erase_geometry])
    (by rw [erase_geometry]; exact (Geometry.mem_clusters.mp hi).2), cell_erase hg hl hi]

/-- Sectors of the data area stay. -/
theorem release_data (hi : p.geometry.dataSect ≤ i) :
    (p.release l).sectors i = p.sectors i := by
  have hactive := hg.active
  have hdata := hg.data
  have hoff := erase_off hg hl (i := i) (.inr hi)
  rw [release, sync_sectors]
  · exact hoff
  · rw [erased_geometry]
    omega

end Erase

/-- A chain is given back. -/
theorem Sound.remove (h : p.Sound (before ++ l :: after)) :
    (p.release l).Sound (before ++ after) := by
  have hself : l ∈ before ++ l :: after := List.mem_append_right _ List.mem_cons_self
  have hl : ∀ k ∈ l, k ∈ p.geometry.clusters := fun k hk =>
    h.chains.inside k (List.mem_flatten_of_mem hself hk)
  have hmirrored : (p.release l).Mirrored := by
    have hsame := erased_same (p := p) l
    rw [← erase_geometry (p := p) l] at hsame
    exact hsame.mirrored (by rw [erase_geometry]; exact h.valid)
      (mirrored_erase h.valid hl h.mirrored)
  have hcursor := Geometry.mem_clusters.mp h.cursor
  have hcount := h.valid.count
  refine ⟨by simpa using h.valid, by simpa using h.cursor, ?_, hmirrored, ?_⟩
  · rw [release_geometry]
    refine h.chains.remove (fun i hi => ?_) fun i hi hil => ?_
    · rw [cell_release h.valid hl (hl i hi), if_pos hi]
    · rw [cell_release h.valid hl hi, if_neg hil]
  · refine informed_sync rfl ?_ (Nat.mod_lt _ (by decide))
    show (p.erase l).lastUsed < 2 ^ 32
    rw [erase_lastUsed]
    omega

/-- The clusters of the chain are free clusters more. -/
theorem Sound.release_free (h : p.Sound (before ++ l :: after)) :
    (p.release l).free = p.free + l.length := by
  have hself : l ∈ before ++ l :: after := List.mem_append_right _ List.mem_cons_self
  have hl : ∀ k ∈ l, k ∈ p.geometry.clusters := fun k hk =>
    h.chains.inside k (List.mem_flatten_of_mem hself hk)
  have hnodup : l.Nodup := (List.nodup_flatten.mp h.chains.nodup).1 l hself
  have hused : ∀ k ∈ l, p.cell k ≠ .free := fun k hk hfree => by
    rcases (h.chains.chain l hself).used hk with hlast | ⟨k', hnext⟩
    · rw [hfree] at hlast
      cases hlast
    · rw [hfree] at hnext
      cases hnext
  unfold free
  rw [release_geometry]
  exact freeCount_release hnodup hl hused
    (fun i hi => by rw [cell_release h.valid hl (hl i hi), if_pos hi])
    fun i hi hil => by rw [cell_release h.valid hl hi, if_neg hil]

end Plain

/-! ### `remove_chain` -/

/-- What the calls in `remove_chain` leave. -/
def Plain.releaseSteps (p : Plain) (l : List Nat) : List Plain :=
  (List.range l.length).flatMap (fun n => (p.erased (l.take n)).putSteps (l.getD n 0) 0)
  ++ [p.release l]

section Remove
variable {F : Faults} {G : Guard} {v : Volume} {p : Plain} {clust : Nat} {l : List Nat}

/-- One round of `remove_chain`. -/
theorem removeRound_shows (h : Shows F G v p) (hg : p.geometry.Valid)
    (hc : clust ∈ p.geometry.clusters)
    (hcell : p.cell clust = .last ∨ ∃ next, p.cell clust = .next next)
    (hG : ∀ q ∈ p.putSteps clust 0, G.holds q.sectors) :
    Ends (removeRound clust) v
      (Sum.elim (fun next v' => p.cell clust = .next next
          ∧ Shows F G v' { p.put clust 0 with freeCnt := u32 (p.freeCnt + 1) })
        fun _ v' => p.cell clust = .last
          ∧ Shows F G v' { p.put clust 0 with freeCnt := u32 (p.freeCnt + 1) })
      (Stopped F G) := by
  have hlt := (Geometry.mem_clusters.mp hc).2
  have hnot : p.cell clust ≠ .free ∧ p.cell clust ≠ .bad ∧ p.cell clust ≠ .broken := by
    rcases hcell with hlast | ⟨next, hnext⟩
    · simp [hlast]
    · simp [hnext]
  simp only [removeRound, ends_bind, ends_ite, ends_throw, ends_modifyFat, ends_pure]
  refine (getFat_cell h hg hc hnot.2.2).mono (fun r v₁ hr => ?_) fun _ _ he => he
  obtain ⟨⟨h₁, -⟩, hread⟩ := hr
  rw [if_neg ?_]
  · refine (putFat_shows h₁ (hg.itemSect_pos hlt) (hg.itemSect1_pos hlt) hG).mono
      (fun _ v₂ h₂ => ?_) fun _ _ he => he
    have hshow : Shows F G { v₂ with fat := { v₂.fat with freeCnt := u32 (v₂.fat.freeCnt + 1) } }
        { p.put clust 0 with freeCnt := u32 (p.freeCnt + 1) } := by
      refine ⟨h₂.geometry, h₂.lastUsed, ?_, h₂.infoDirty, h₂.buffered, h₂.stored, h₂.dirty,
        h₂.faults, h₂.atomic, h₂.guarded, h₂.seen⟩
      rw [h₂.freeCnt, Plain.put_freeCnt]
    obtain ⟨val, flags⟩ := r
    cases flags with
    | free => exact absurd hread.symm hnot.1
    | used => exact ⟨hread.symm, hshow⟩
    | usedLast => exact ⟨hread.symm, hshow⟩
    | bad => exact absurd hread.symm hnot.2.1
  · obtain ⟨val, flags⟩ := r
    rintro (hbad | hfree)
    · exact hnot.2.1 (hread.symm.trans (by simp only at hbad; rw [hbad]; rfl))
    · exact hnot.1 (hread.symm.trans (by simp only at hfree; rw [hfree]; rfl))

/-- Some clusters of the chain are free already. -/
structure Removing (F : Faults) (G : Guard) (p : Plain) (l : List Nat) (clust : Nat)
    (v : Volume) (left : Nat) : Prop where
  split : ∃ done rest, l = done ++ clust :: rest ∧ rest.length = left
    ∧ IsChain p.cell (clust :: rest) ∧ Shows F G v (p.erased done)

/-- `remove_chain` frees the clusters of a chain. -/
theorem removeChain_shows (h : Shows F G v p) (hg : p.geometry.Valid)
    (hchain : IsChain p.cell (clust :: l)) (hl : ∀ k ∈ clust :: l, k ∈ p.geometry.clusters)
    (hnodup : (clust :: l).Nodup) (hfree : p.freeCnt < 2 ^ 32)
    (hG : ∀ q ∈ p.releaseSteps (clust :: l), G.holds q.sectors) :
    Ends (removeChain clust) v
      (fun _ v' => Shows F G v' (p.release (clust :: l)) ∧ Synced v') (Stopped F G) := by
  -- There are more rounds than clusters.
  have hlength : l.length < p.geometry.clustCnt + 2 := by
    have hcard : (clust :: l).toFinset.card ≤ p.geometry.clusters.card :=
      Finset.card_le_card fun k hk => hl k (List.mem_toFinset.mp hk)
    rw [List.toFinset_card_of_nodup hnodup, List.length_cons] at hcard
    have hico : p.geometry.clusters.card = p.geometry.clustCnt - 2 := Nat.card_Ico _ _
    omega
  have hcnt : v.fat.clustCnt = p.geometry.clustCnt := congrArg Geometry.clustCnt h.geometry
  simp only [removeChain, ends_bind, ends_modifyFat, ends_get]
  rw [hcnt]
  have hstart : Shows F G { v with fat := { v.fat with infoDirty := true } } (p.erased []) := by
    refine ⟨h.geometry, h.lastUsed, ?_, rfl, h.buffered, h.stored, h.dirty, h.faults, h.atomic,
      h.guarded, h.seen⟩
    rw [h.freeCnt]
    exact (Nat.mod_eq_of_lt hfree).symm
  have hloop : Ends (loop .endless removeRound (p.geometry.clustCnt + 2) clust)
      { v with fat := { v.fat with infoDirty := true } }
      (fun _ v' => Shows F G v' (p.erased (clust :: l))) (Stopped F G) := by
    refine ends_loop (I := Removing F G p (clust :: l)) (fun k v₁ left hr => ?_)
      ⟨[], l, rfl, rfl, hchain, hstart⟩ hlength
    obtain ⟨done, rest, hsplit, hleft, htail, hshow⟩ := hr
    have hk : k ∈ clust :: l := by rw [hsplit]; simp
    have hdone : ∀ j ∈ done, j ∈ p.geometry.clusters := fun j hj =>
      hl j (by rw [hsplit]; exact List.mem_append_left _ hj)
    have hfresh : k ∉ done := by
      rw [hsplit] at hnodup
      exact fun hj => (List.nodup_append.mp hnodup).2.2 k hj k List.mem_cons_self rfl
    have hcell : (p.erased done).cell k = p.cell k := by
      show (p.erase done).cell k = _
      rw [Plain.cell_erase hg hdone (hl k hk), if_neg hfresh]
    have hsteps : ∀ q ∈ (p.erased done).putSteps k 0, G.holds q.sectors := fun q hq => by
      refine hG q (List.mem_append_left _ (List.mem_flatMap.mpr ⟨done.length, ?_, ?_⟩))
      · rw [List.mem_range, hsplit, List.length_append, List.length_cons]
        omega
      · rw [hsplit, List.take_left, List.getD_append_right _ _ _ _ (Nat.le_refl _), Nat.sub_self]
        exact hq
    refine (removeRound_shows hshow (by simpa using hg) (by simpa using hl k hk) ?_ hsteps).mono
      (fun r v₂ hr => ?_) fun _ _ he => he
    · rw [hcell]
      exact htail.used List.mem_cons_self
    · rw [Plain.erased_concat, hcell] at hr
      cases r with
      | inl next =>
          obtain ⟨hnext, hshow'⟩ := hr
          rcases htail.head with ⟨-, hlast⟩ | ⟨k', rest', heq, hnext', htail'⟩
          · rw [hnext] at hlast
            cases hlast
          · rw [hnext] at hnext'
            cases hnext'
            subst heq
            refine ⟨rest'.length, by rw [← hleft]; exact Nat.lt_succ_self _, done ++ [k], rest',
              ?_, rfl, htail', hshow'⟩
            rw [hsplit, List.append_assoc]
            rfl
      | inr u =>
          obtain ⟨hlast, hshow'⟩ := hr
          rcases htail.head with ⟨hnil, -⟩ | ⟨k', rest', -, hnext, -⟩
          · rw [hnil] at hsplit
            rwa [hsplit]
          · rw [hlast] at hnext
            cases hnext
  refine hloop.mono (fun _ v₁ h₁ => ?_) fun _ _ he => he
  exact syncFs_shows h₁ (by simpa using hg.info)
    (hG _ (List.mem_append_right _ (List.mem_singleton_self _)))

end Remove

end DemoOS.Fat32
