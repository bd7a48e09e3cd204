import DemoOS.Proofs.Fat32.Table
import Mathlib.Order.Interval.Finset.Nat
import Mathlib.Tactic.SplitIfs

/-!
# `DemoOS.Proofs.Fat32.Search`: the search for a free cluster

`findCluster_shows` says which cluster `stretch_chain` chooses, and when there is none. The search
goes round from `last_used`, and `Geometry.distance` is the number of rounds after which it comes
to a cluster. So the loop ends, and every cluster but `last_used` itself is looked at.
-/

set_option autoImplicit false

namespace DemoOS.Fat32

open Support

/-- The clusters that have an item in the FAT. -/
def Geometry.clusters (g : Geometry) : Finset Nat := Finset.Ico 2 g.clustCnt

section Walk
variable {g : Geometry} {start clust i j : Nat}

theorem Geometry.mem_clusters : clust ∈ g.clusters ↔ 2 ≤ clust ∧ clust < g.clustCnt :=
  Finset.mem_Ico

theorem Geometry.Valid.following_eq (h : g.Valid) (hc : clust ∈ g.clusters) :
    g.following clust = if clust + 1 = g.clustCnt then 2 else clust + 1 := by
  have hcount := h.count
  rw [Geometry.mem_clusters] at hc
  have hnext : u32 (clust + 1) = clust + 1 := Nat.mod_eq_of_lt (by omega)
  rw [Geometry.following, hnext]
  split <;> split <;> omega

theorem Geometry.Valid.following_mem (h : g.Valid) (hc : clust ∈ g.clusters) :
    g.following clust ∈ g.clusters := by
  have hcount := h.count
  rw [h.following_eq hc]
  rw [Geometry.mem_clusters] at hc ⊢
  split <;> omega

/-- How many clusters the search goes on from one to the other. -/
def Geometry.distance (g : Geometry) (start clust : Nat) : Nat :=
  if start ≤ clust then clust - start else clust + (g.clustCnt - 2) - start

theorem Geometry.distance_self (g : Geometry) (start : Nat) : g.distance start start = 0 := by
  rw [Geometry.distance, if_pos (Nat.le_refl start), Nat.sub_self]

theorem Geometry.distance_pos (hs : start ∈ g.clusters) (hi : i ∈ g.clusters) :
    0 < g.distance start i ↔ i ≠ start := by
  rw [Geometry.mem_clusters] at hs hi
  unfold Geometry.distance
  split <;> omega

theorem Geometry.distance_le (hs : start ∈ g.clusters) (hi : i ∈ g.clusters) :
    g.distance start i ≤ g.clustCnt - 3 := by
  rw [Geometry.mem_clusters] at hs hi
  unfold Geometry.distance
  split <;> omega

theorem Geometry.distance_inj (hs : start ∈ g.clusters) (hi : i ∈ g.clusters)
    (hj : j ∈ g.clusters) (h : g.distance start i = g.distance start j) : i = j := by
  rw [Geometry.mem_clusters] at hs hi hj
  unfold Geometry.distance at h
  split at h <;> split at h <;> omega

/-- One round of the search. -/
theorem Geometry.Valid.distance_following (h : g.Valid) (hs : start ∈ g.clusters)
    (hc : clust ∈ g.clusters) (hne : g.following clust ≠ start) :
    g.distance start (g.following clust) = g.distance start clust + 1 := by
  rw [h.following_eq hc] at hne ⊢
  rw [Geometry.mem_clusters] at hs hc
  unfold Geometry.distance
  split_ifs at hne ⊢ <;> omega

/-- The search has come round. -/
theorem Geometry.Valid.distance_last (h : g.Valid) (hs : start ∈ g.clusters)
    (hc : clust ∈ g.clusters) (heq : g.following clust = start) :
    g.distance start clust = g.clustCnt - 3 := by
  rw [h.following_eq hc] at heq
  rw [Geometry.mem_clusters] at hs hc
  unfold Geometry.distance
  split at heq <;> split <;> omega

end Walk

section Search
variable {F : Faults} {G : Guard} {v : Volume} {p : Plain} {clust prev : Nat} {flags : Option ClustFlags}

theorem Geometry.Valid.itemSect_pos (h : p.geometry.Valid) (hc : clust < p.geometry.clustCnt) :
    itemSect p.geometry.fatSect0 clust ≠ 0 := by
  have hactive := h.active
  rw [h.itemSect0 hc]
  omega

theorem Geometry.Valid.itemSect1_pos (h : p.geometry.Valid) (hc : clust < p.geometry.clustCnt)
    (hmirror : p.geometry.fatSect1 ≠ 0) : itemSect p.geometry.fatSect1 clust ≠ 0 := by
  rw [h.itemSect1 hc]
  omega

/-- `get_fat` of a cluster whose item has a meaning. -/
theorem getFat_cell (h : Shows F G v p) (hg : p.geometry.Valid)
    (hc : clust ∈ p.geometry.clusters) (hcell : p.cell clust ≠ .broken) :
    Ends (getFat clust) v (fun r v' => Reads F G v p v' ∧ Plain.cellRead r = p.cell clust)
      (Stopped F G) := by
  refine (getFat_shows h (hg.itemSect_pos (Geometry.mem_clusters.mp hc).2)).mono
    (fun r v' hr => ⟨hr.1, Plain.cellRead_eq hr.2⟩) fun e v' he => ?_
  rcases he with hstopped | hbroken
  · exact hstopped
  · exact absurd (Plain.cell_broken hbroken.2) hcell

/-- The items all have a meaning. -/
def Plain.Legible (p : Plain) : Prop := ∀ clust ∈ p.geometry.clusters, p.cell clust ≠ .broken

/-- The search has looked at the clusters up to one. -/
structure Searched (F : Faults) (G : Guard) (v : Volume) (p : Plain) (s : Nat × Option ClustFlags) (v' : Volume)
    (left : Nat) : Prop where
  reads : Reads F G v p v'
  mem : s.1 ∈ p.geometry.clusters
  visited : ∀ i ∈ p.geometry.clusters, 0 < p.geometry.distance p.lastUsed i →
    p.geometry.distance p.lastUsed i ≤ p.geometry.distance p.lastUsed s.1 → p.cell i ≠ .free
  left : left + p.geometry.distance p.lastUsed s.1 = p.geometry.clustCnt

/-- The loop of `stretch_chain`. -/
theorem scan_shows (h : Shows F G v p) (hg : p.geometry.Valid)
    (hcursor : p.lastUsed ∈ p.geometry.clusters) (hlegible : p.Legible) :
    Ends (scan flags) v
      (fun clust v' => Reads F G v p v' ∧ clust ∈ p.geometry.clusters ∧ p.cell clust = .free
        ∧ clust ≠ p.lastUsed)
      fun e v' => Stopped F G e v' ∨ Reads F G v p v' ∧ e = .error .full
        ∧ ∀ i ∈ p.geometry.clusters, i ≠ p.lastUsed → p.cell i ≠ .free := by
  have hcnt : v.fat.clustCnt = p.geometry.clustCnt := congrArg Geometry.clustCnt h.geometry
  simp only [scan, ends_bind, ends_get]
  rw [h.lastUsed, hcnt]
  refine ends_loop (I := Searched F G v p) (n := p.geometry.clustCnt) (fun s v₁ left hs => ?_) ?_
    (Nat.lt_succ_self _)
  · obtain ⟨hread, hmem, hvisited, hleft⟩ := hs
    simp only [scanRound, ends_bind, ends_get, ends_ite, ends_throw, ends_adaptExcept]
    rw [hread.1.geometry, hread.1.lastUsed]
    split
    · -- The search has come round.
      next hround =>
        refine .inr ⟨hread, trivial, fun i hi hne => hvisited i hi ?_ ?_⟩
        · exact (Geometry.distance_pos hcursor hi).mpr hne
        · rw [hg.distance_last hcursor hmem hround]
          exact Geometry.distance_le hcursor hi
    · next hnew =>
        have hnext := hg.following_mem hmem
        have hdist := hg.distance_following hcursor hmem hnew
        have hbound := Geometry.distance_le hcursor hnext
        have hcount := hg.count
        refine (getFat_cell hread.1 hg hnext (hlegible _ hnext)).mono (fun r v₂ hr => ?_)
          fun _ _ he => .inl ⟨.inr ⟨_, rfl⟩, he.faulty, he.guarded⟩
        have hread' := hread.trans hr.1
        split
        · next hfree =>
            exact ⟨hread', hnext, hr.2.symm.trans (Plain.cellRead_free.mpr hfree), hnew⟩
        · next hused =>
            refine ⟨left - 1, by omega, hread', hnext, fun i hi hpos hle => ?_, ?_⟩
            · by_cases hi' : i = p.geometry.following s.1
              · rw [hi', ← hr.2]
                exact fun hfree => hused (Plain.cellRead_free.mp hfree)
              · refine hvisited i hi hpos ?_
                have hne : p.geometry.distance p.lastUsed i
                    ≠ p.geometry.distance p.lastUsed (p.geometry.following s.1) :=
                  fun heq => hi' (Geometry.distance_inj hcursor hi hnext heq)
                simp only at hle
                omega
            · show left - 1 + p.geometry.distance p.lastUsed (p.geometry.following s.1) = _
              omega
  · refine ⟨⟨h, id⟩, hcursor, fun i _ hpos hle => ?_, ?_⟩
    · rw [Geometry.distance_self] at hle
      omega
    · rw [Geometry.distance_self]
      rfl

/-- There is a free cluster for `stretch_chain`: `last_used` counts only where it is the cluster
behind `prev`. -/
def Plain.Room (p : Plain) (prev : Nat) : Prop :=
  ∃ i ∈ p.geometry.clusters, p.cell i = .free
    ∧ (i ≠ p.lastUsed ∨ prev ≠ 0 ∧ i = p.geometry.following prev)

/-- The cluster that `stretch_chain` chooses. -/
theorem findCluster_shows (h : Shows F G v p) (hg : p.geometry.Valid)
    (hcursor : p.lastUsed ∈ p.geometry.clusters) (hlegible : p.Legible)
    (hprev : prev ≠ 0 → prev ∈ p.geometry.clusters) :
    Ends (findCluster prev) v
      (fun clust v' => Reads F G v p v' ∧ clust ∈ p.geometry.clusters ∧ p.cell clust = .free
        ∧ p.Room prev)
      fun e v' => Stopped F G e v' ∨ Reads F G v p v' ∧ e = .error .full ∧ ¬ p.Room prev := by
  simp only [findCluster, ends_ite, ends_bind, ends_get]
  split
  · next hne =>
      have hnext := hg.following_mem (hprev hne)
      rw [h.geometry]
      refine (getFat_cell h hg hnext (hlegible _ hnext)).mono (fun r v₁ hr => ?_)
        fun _ _ he => .inl he
      obtain ⟨hread, hcell⟩ := hr
      split
      · next hfree =>
          have hfree' := hcell.symm.trans (Plain.cellRead_free.mpr hfree)
          exact ⟨hread, hnext, hfree', _, hnext, hfree', .inr ⟨hne, rfl⟩⟩
      · next hused =>
          refine (scan_shows hread.1 hg hcursor hlegible).mono (fun clust v₂ hc => ?_)
            fun e v₂ he => ?_
          · obtain ⟨hread', hc, hfree, hlast⟩ := hc
            exact ⟨hread.trans hread', hc, hfree, clust, hc, hfree, .inl hlast⟩
          · refine he.imp_right fun he => ⟨hread.trans he.1, he.2.1, ?_⟩
            rintro ⟨i, hi, hfree, hlast | ⟨-, rfl⟩⟩
            · exact he.2.2 i hi hlast hfree
            · exact hused (Plain.cellRead_free.mp (hcell.trans hfree))
  · next hzero =>
      refine (scan_shows h hg hcursor hlegible).mono (fun clust v₁ hc => ?_) fun e v₁ he => ?_
      · obtain ⟨hread, hc, hfree, hlast⟩ := hc
        exact ⟨hread, hc, hfree, clust, hc, hfree, .inl hlast⟩
      · refine he.imp_right fun he => ⟨he.1, he.2.1, ?_⟩
        rintro ⟨i, hi, hfree, hlast | ⟨hne, -⟩⟩
        · exact he.2.2 i hi hlast hfree
        · exact hzero hne

end Search

end DemoOS.Fat32
