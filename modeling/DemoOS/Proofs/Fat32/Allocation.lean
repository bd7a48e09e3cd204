import DemoOS.Proofs.Fat32.Search

/-!
# `DemoOS.Proofs.Fat32.Allocation`: cluster chains

What `stretch_chain` and `remove_chain` leave of a volume, as functions on volumes without a
buffer: `Plain.allocate` and `Plain.release`. `stretchChain_shows` and `removeChain_shows` say that
the code computes them, and `Plain.Sound` is what both keep: the clusters are those of disjoint
chains, and free or bad ones, the mirror holds the same, and the information sector is up to date.
-/

set_option autoImplicit false

namespace DemoOS.Fat32

open Support

/-! ### Sectors that play no part -/

namespace Plain

variable {p q : Plain} {clust i : Nat} {chains : List (List Nat)}

/-- The same volume up to the sectors in a set. -/
structure SameBut (s : Nat → Prop) (p q : Plain) : Prop where
  geometry : q.geometry = p.geometry
  sectors : ∀ i, ¬ s i → q.sectors i = p.sectors i

theorem SameBut.entry {s : Nat → Prop} (h : SameBut s p q) {fatSect : Nat}
    (hs : ¬ s (itemSect fatSect clust)) : q.entry fatSect clust = p.entry fatSect clust := by
  unfold Plain.entry
  rw [h.sectors _ hs]

/-- The sectors that hold no part of a FAT. -/
def OffTable (g : Geometry) (i : Nat) : Prop := i = g.infoSect ∨ g.dataSect ≤ i

section Off
variable (hg : p.geometry.Valid) (hc : clust < p.geometry.clustCnt)
include hg hc

theorem not_offTable0 : ¬ OffTable p.geometry (itemSect p.geometry.fatSect0 clust) := by
  have hrow := hg.row hc
  have hdata := hg.data
  have hactive := hg.active
  rw [hg.itemSect0 hc, OffTable]
  omega

theorem not_offTable1 (hmirror : p.geometry.fatSect1 ≠ 0) :
    ¬ OffTable p.geometry (itemSect p.geometry.fatSect1 clust) := by
  have hrow := hg.row hc
  have hdata := hg.data
  have hinfo := (hg.mirror hmirror).1
  rw [hg.itemSect1 hc, OffTable]
  omega

end Off

theorem SameBut.cell (h : SameBut (OffTable p.geometry) p q) (hg : p.geometry.Valid)
    (hc : clust < p.geometry.clustCnt) : q.cell clust = p.cell clust := by
  unfold Plain.cell
  rw [h.geometry, h.entry (not_offTable0 hg hc)]

theorem SameBut.mirrored (h : SameBut (OffTable p.geometry) p q) (hg : p.geometry.Valid)
    (hm : p.Mirrored) : q.Mirrored := by
  intro hmirror clust hc
  rw [h.geometry] at hmirror hc ⊢
  rw [h.entry (not_offTable0 hg hc), h.entry (not_offTable1 hg hc hmirror)]
  exact hm hmirror clust hc

/-! ### The information sector -/

/-- The information sector is up to date. -/
structure Informed (p : Plain) : Prop where
  nextFree : ByteMemory.load (p.sectors p.geometry.infoSect) NEXT_FREE 4 = p.lastUsed
  freeCnt : ByteMemory.load (p.sectors p.geometry.infoSect) FREE_CNT 4 = p.freeCnt

/-- `fat->flags |= FAT_INFO_DIRTY`. -/
def mark (p : Plain) : Plain := { p with infoDirty := true }

@[simp] theorem mark_geometry (p : Plain) : p.mark.geometry = p.geometry := rfl

@[simp] theorem sync_geometry (p : Plain) : p.sync.geometry = p.geometry := by
  unfold sync
  split <;> rfl

@[simp] theorem sync_lastUsed (p : Plain) : p.sync.lastUsed = p.lastUsed := by
  unfold sync
  split <;> rfl

@[simp] theorem sync_freeCnt (p : Plain) : p.sync.freeCnt = p.freeCnt := by
  unfold sync
  split <;> rfl

theorem sync_of_marked (h : p.infoDirty = true) : p.sync = { p.change p.geometry.infoSect
    (putInfo p.lastUsed p.freeCnt) with infoDirty := false } := by
  unfold sync
  rw [if_pos h]

theorem sync_sectors (hi : i ≠ p.geometry.infoSect) : p.sync.sectors i = p.sectors i := by
  unfold sync
  split
  · exact change_of_ne hi _
  · rfl

theorem sync_same (p : Plain) : SameBut (OffTable p.geometry) p p.sync :=
  ⟨sync_geometry p, fun _ hi => sync_sectors fun heq => hi (.inl heq)⟩

/-- `sync_fs` brings the information sector up to date. -/
theorem informed_sync (h : p.infoDirty = true) (hlast : p.lastUsed < 2 ^ 32)
    (hfree : p.freeCnt < 2 ^ 32) : p.sync.Informed := by
  have hsect : p.sync.sectors p.geometry.infoSect
      = putInfo p.lastUsed p.freeCnt (p.sectors p.geometry.infoSect) := by
    rw [sync_of_marked h]
    exact change_self _
  refine ⟨?_, ?_⟩
  · rw [sync_geometry, sync_lastUsed, hsect, putInfo, ByteMemory.storeWord,
      ByteMemory.load_patch_outside (by decide)]
    exact ByteMemory.load_storeWord hlast
  · rw [sync_geometry, sync_freeCnt, hsect, putInfo]
    exact ByteMemory.load_storeWord hfree

/-! ### Sound volumes -/

/-- The FAT consists of disjoint chains, and of free and bad clusters. -/
structure Sound (p : Plain) (chains : List (List Nat)) : Prop where
  valid : p.geometry.Valid
  cursor : p.lastUsed ∈ p.geometry.clusters
  chains : Chains p.cell p.geometry.clusters chains
  mirrored : p.Mirrored
  informed : p.Informed

theorem Sound.legible (h : p.Sound chains) : p.Legible := by
  intro clust hc hbroken
  by_cases hused : clust ∈ chains.flatten
  · obtain ⟨l, hl, hmem⟩ := List.mem_flatten.mp hused
    rcases (h.chains.chain l hl).used hmem with hlast | ⟨k, hnext⟩
    · rw [hbroken] at hlast
      cases hlast
    · rw [hbroken] at hnext
      cases hnext
  · rcases h.chains.rest clust hc hused with hfree | hbad
    · rw [hbroken] at hfree
      cases hfree
    · rw [hbroken] at hbad
      cases hbad

theorem Sound.mark (h : p.Sound chains) : p.mark.Sound chains :=
  ⟨h.valid, h.cursor, h.chains, h.mirrored, h.informed.nextFree, h.informed.freeCnt⟩

/-- The number of free clusters. -/
def free (p : Plain) : Nat := freeCount p.cell p.geometry.clusters

/-! ### A cluster is occupied -/

/-- The FAT after `stretch_chain`. -/
def occupy (p : Plain) (prev clust : Nat) : Plain :=
  if prev ≠ 0 then (p.put clust 0x0fffffff).put prev clust else p.put clust 0x0fffffff

/-- The volume after `stretch_chain`. -/
def allocate (p : Plain) (prev clust : Nat) : Plain :=
  sync { p.mark.occupy prev clust with
    lastUsed := clust
    freeCnt := u32 (p.freeCnt + 2 ^ 32 - 1) }

section Occupy
variable {prev : Nat}

@[simp] theorem occupy_geometry (prev clust : Nat) :
    (p.occupy prev clust).geometry = p.geometry := by
  unfold occupy
  split <;> simp

@[simp] theorem occupy_infoDirty (prev clust : Nat) :
    (p.occupy prev clust).infoDirty = p.infoDirty := by
  unfold occupy
  split <;> simp

@[simp] theorem occupy_freeCnt (prev clust : Nat) :
    (p.occupy prev clust).freeCnt = p.freeCnt := by
  unfold occupy
  split <;> simp

@[simp] theorem allocate_geometry (prev clust : Nat) :
    (p.allocate prev clust).geometry = p.geometry := by
  rw [allocate, sync_geometry]
  exact occupy_geometry prev clust

@[simp] theorem allocate_lastUsed (prev clust : Nat) :
    (p.allocate prev clust).lastUsed = clust := sync_lastUsed _

@[simp] theorem allocate_freeCnt (prev clust : Nat) :
    (p.allocate prev clust).freeCnt = u32 (p.freeCnt + 2 ^ 32 - 1) := sync_freeCnt _

variable (hg : p.geometry.Valid) (hc : clust ∈ p.geometry.clusters)
  (hprev : prev ≠ 0 → prev ∈ p.geometry.clusters)
include hg hc

/-- A put changes no sector outside the FATs. -/
theorem put_off (hi : OffTable p.geometry i) (val : Nat) :
    (p.put clust val).sectors i = p.sectors i := by
  have hlt := (Geometry.mem_clusters.mp hc).2
  refine put_sectors ?_ fun hmirror => ?_
  · rintro rfl
    exact not_offTable0 hg hlt hi
  · rintro rfl
    exact not_offTable1 hg hlt hmirror hi

include hprev

theorem occupy_off (hi : OffTable p.geometry i) :
    (p.occupy prev clust).sectors i = p.sectors i := by
  unfold occupy
  split
  · next hne =>
      have hg' : (p.put clust 0x0fffffff).geometry.Valid := by rwa [put_geometry]
      rw [put_off hg' (by rw [put_geometry]; exact hprev hne) (by rwa [put_geometry]),
        put_off hg hc hi]
  · exact put_off hg hc hi _

/-- The cells after `stretch_chain`. -/
theorem cell_occupy (hne : clust ≠ prev) (hi : i ∈ p.geometry.clusters) :
    (p.occupy prev clust).cell i
      = if i = clust then .last else if prev ≠ 0 ∧ i = prev then .next clust else p.cell i := by
  have hlt := Geometry.mem_clusters.mp hc
  have hilt := (Geometry.mem_clusters.mp hi).2
  have hfirst : (p.put clust 0x0fffffff).cell i = if i = clust then .last else p.cell i := by
    rw [cell_put hg hlt.2 hilt, cellOf_eoc]
  unfold occupy
  split
  · next hp =>
      have hg' : (p.put clust 0x0fffffff).geometry.Valid := by rwa [put_geometry]
      have hplt := (Geometry.mem_clusters.mp (hprev hp)).2
      rw [cell_put hg' (by rwa [put_geometry]) (by rwa [put_geometry]), put_geometry,
        cellOf_link hlt.1 hlt.2 hg.count.2, hfirst]
      by_cases hip : i = prev
      · rw [if_pos hip, if_neg (hip ▸ hne.symm), if_pos ⟨hp, hip⟩]
      · rw [if_neg hip, if_neg (c := prev ≠ 0 ∧ i = prev) fun h => hip h.2]
  · next hp => rw [hfirst, if_neg (c := prev ≠ 0 ∧ i = prev) fun h => hp h.1]

theorem mirrored_occupy (hm : p.Mirrored) : (p.occupy prev clust).Mirrored := by
  have hlt := (Geometry.mem_clusters.mp hc).2
  have hfirst : (p.put clust 0x0fffffff).Mirrored := mirrored_put hg hm hlt
  unfold occupy
  split
  · next hp =>
      refine mirrored_put (by rwa [put_geometry]) hfirst ?_
      rw [put_geometry]
      exact (Geometry.mem_clusters.mp (hprev hp)).2
  · exact hfirst

theorem cell_allocate (hne : clust ≠ prev) (hi : i ∈ p.geometry.clusters) :
    (p.allocate prev clust).cell i
      = if i = clust then .last else if prev ≠ 0 ∧ i = prev then .next clust else p.cell i := by
  have hsync := sync_same { p.mark.occupy prev clust with
    lastUsed := clust
    freeCnt := u32 (p.freeCnt + 2 ^ 32 - 1) }
  rw [allocate, hsync.cell (by simpa using hg)
    (by simpa using (Geometry.mem_clusters.mp hi).2)]
  exact cell_occupy (p := p.mark) hg hc hprev hne hi

/-- Sectors of the data area stay. -/
theorem allocate_data (hi : p.geometry.dataSect ≤ i) :
    (p.allocate prev clust).sectors i = p.sectors i := by
  have hactive := hg.active
  have hdata := hg.data
  rw [allocate, sync_sectors]
  · exact occupy_off (p := p.mark) hg hc hprev (.inr hi)
  · simp only [occupy_geometry]
    show i ≠ p.geometry.infoSect
    omega

theorem allocate_mirrored (hm : p.Mirrored) : (p.allocate prev clust).Mirrored := by
  rw [allocate]
  refine (sync_same _).mirrored (by simpa using hg) ?_
  exact mirrored_occupy (p := p.mark) hg hc hprev hm

omit hprev in
theorem allocate_informed : (p.allocate prev clust).Informed := by
  have hcount := hg.count
  have hlt := (Geometry.mem_clusters.mp hc).2
  refine informed_sync (by simp [mark]) ?_ (Nat.mod_lt _ (by decide))
  show clust < 2 ^ 32
  omega

end Occupy

/-- A chain of one cluster. -/
theorem Sound.create (h : p.Sound chains) (hc : clust ∈ p.geometry.clusters)
    (hfree : p.cell clust = .free) : (p.allocate 0 clust).Sound (chains ++ [[clust]]) := by
  have hne : clust ≠ 0 := by
    rw [Geometry.mem_clusters] at hc
    omega
  have hzero : (0 : Nat) ≠ 0 → 0 ∈ p.geometry.clusters := fun h => absurd rfl h
  have hcell : ∀ i ∈ p.geometry.clusters, (p.allocate 0 clust).cell i
      = if i = clust then .last else p.cell i := fun i hi => by
    rw [cell_allocate h.valid hc hzero hne hi]
    simp
  refine ⟨by simpa using h.valid, by simpa using hc, ?_, allocate_mirrored h.valid hc hzero
    h.mirrored, allocate_informed h.valid hc⟩
  rw [allocate_geometry]
  refine h.chains.create hc hfree ?_ fun i hi hne' => ?_
  · rw [hcell clust hc, if_pos rfl]
  · rw [hcell i hi, if_neg hne']

/-- A cluster behind the last one of a chain. -/
theorem Sound.stretch {before after : List (List Nat)} {l : List Nat} {a : Nat}
    (h : p.Sound (before ++ (l ++ [a]) :: after)) (hc : clust ∈ p.geometry.clusters)
    (hfree : p.cell clust = .free) :
    (p.allocate a clust).Sound (before ++ (l ++ [a, clust]) :: after) := by
  have hself : l ++ [a] ∈ before ++ (l ++ [a]) :: after :=
    List.mem_append_right _ List.mem_cons_self
  have ha : a ∈ p.geometry.clusters :=
    h.chains.inside a (List.mem_flatten_of_mem hself (by simp))
  have hlast := (h.chains.chain _ hself).concat
  have hne : clust ≠ a := by
    rintro rfl
    rw [hfree] at hlast
    cases hlast
  have ha0 : a ≠ 0 := by
    rw [Geometry.mem_clusters] at ha
    omega
  have hcell : ∀ i ∈ p.geometry.clusters, (p.allocate a clust).cell i
      = if i = clust then .last else if i = a then .next clust else p.cell i := fun i hi => by
    rw [cell_allocate h.valid hc (fun _ => ha) hne hi]
    simp [ha0]
  refine ⟨by simpa using h.valid, by simpa using hc, ?_, allocate_mirrored h.valid hc
    (fun _ => ha) h.mirrored, allocate_informed h.valid hc⟩
  rw [allocate_geometry]
  refine h.chains.stretch hc hfree ?_ ?_ fun i hi hi' hia => ?_
  · rw [hcell a ha, if_neg hne.symm, if_pos rfl]
  · rw [hcell clust hc, if_pos rfl]
  · rw [hcell i hi, if_neg hi', if_neg hia]

/-- One free cluster less. -/
theorem Sound.allocate_free {prev : Nat} (h : p.Sound chains) (hc : clust ∈ p.geometry.clusters)
    (hprev : prev ≠ 0 → prev ∈ p.geometry.clusters ∧ p.cell prev ≠ .free)
    (hfree : p.cell clust = .free) : (p.allocate prev clust).free + 1 = p.free := by
  have hne : clust ≠ prev := by
    rintro rfl
    have hc' := (Geometry.mem_clusters.mp hc).1
    exact (hprev (by omega)).2 hfree
  have hcell := fun i hi => cell_allocate (i := i) h.valid hc (fun hp => (hprev hp).1) hne hi
  unfold free
  rw [allocate_geometry]
  refine freeCount_take hc hfree ?_ fun i hi hne' => ?_
  · rw [hcell clust hc, if_pos rfl]
    exact fun hlast => by cases hlast
  · rw [hcell i hi, if_neg hne']
    split
    · next hp =>
        constructor
        · exact fun hnext => by cases hnext
        · exact fun hold => absurd (hp.2 ▸ hold) (hprev hp.1).2
    · rfl

end Plain

/-! ### `stretch_chain` -/

/-- What the calls in `stretch_chain` leave, one after the other. -/
def Plain.allocateSteps (p : Plain) (prev clust : Nat) : List Plain :=
  p.mark.putSteps clust 0x0fffffff
  ++ ((if prev ≠ 0 then (p.mark.put clust 0x0fffffff).putSteps prev clust else [])
    ++ [p.allocate prev clust])

section Stretch
variable {F : Faults} {G : Guard} {v : Volume} {p : Plain} {prev : Nat}

theorem Shows.mark (h : Shows F G v p) :
    Shows F G { v with fat := { v.fat with infoDirty := true } } p.mark :=
  ⟨h.geometry, h.lastUsed, h.freeCnt, rfl, h.buffered, h.stored, h.dirty, h.faults, h.atomic,
    h.guarded, h.seen⟩

/-- `stretch_chain` takes a free cluster, or says that the volume is full. -/
theorem stretchChain_shows (h : Shows F G v p) (hg : p.geometry.Valid)
    (hcursor : p.lastUsed ∈ p.geometry.clusters) (hlegible : p.Legible)
    (hprev : prev ≠ 0 → prev ∈ p.geometry.clusters)
    (hG : ∀ clust ∈ p.geometry.clusters, p.cell clust = .free →
      ∀ q ∈ p.allocateSteps prev clust, G.holds q.sectors) :
    Ends (stretchChain prev) v
      (fun clust v' => Shows F G v' (p.allocate prev clust) ∧ Synced v'
        ∧ clust ∈ p.geometry.clusters ∧ p.cell clust = .free ∧ p.Room prev)
      fun e v' => Stopped F G e v' ∨ Reads F G v p.mark v' ∧ e = .error .full ∧ ¬ p.Room prev := by
  simp only [stretchChain, ends_bind, ends_modifyFat]
  refine (findCluster_shows (p := p.mark) h.mark hg hcursor hlegible hprev).mono
    (fun clust v₁ h₁ => ?_) fun e v₁ he => he
  obtain ⟨⟨h₁, -⟩, hc, hfree, hroom⟩ := h₁
  have hsteps := hG clust hc hfree
  have hpos : ∀ {c : Nat}, c ∈ p.geometry.clusters → itemSect p.geometry.fatSect0 c ≠ 0 :=
    fun hc => hg.itemSect_pos (Geometry.mem_clusters.mp hc).2
  have hpos1 : ∀ {c : Nat}, c ∈ p.geometry.clusters → p.geometry.fatSect1 ≠ 0 →
      itemSect p.geometry.fatSect1 c ≠ 0 :=
    fun hc => hg.itemSect1_pos (Geometry.mem_clusters.mp hc).2
  refine (putFat_shows h₁ (hpos hc) (hpos1 hc)
    fun q hq => hsteps q (List.mem_append_left _ hq)).mono (fun _ v₂ h₂ => ?_)
    fun _ _ he => .inl he
  -- What follows the link.
  have hrest : ∀ v₃, Shows F G v₃ (p.mark.occupy prev clust) →
      Shows F G { v₃ with fat := { v₃.fat with
          lastUsed := clust
          freeCnt := u32 (v₃.fat.freeCnt + 2 ^ 32 - 1) } }
        { p.mark.occupy prev clust with
          lastUsed := clust
          freeCnt := u32 (p.freeCnt + 2 ^ 32 - 1) } := by
    intro v₃ h₃
    refine ⟨h₃.geometry, rfl, ?_, h₃.infoDirty, h₃.buffered, h₃.stored, h₃.dirty, h₃.faults,
      h₃.atomic, h₃.guarded, h₃.seen⟩
    rw [h₃.freeCnt, Plain.occupy_freeCnt]
    rfl
  have hinfo : (p.mark.occupy prev clust).geometry.infoSect ≠ 0 := by
    rw [Plain.occupy_geometry]
    exact hg.info
  have hlast : G.holds (p.allocate prev clust).sectors :=
    hsteps _ (List.mem_append_right _ (List.mem_append_right _ (List.mem_singleton_self _)))
  unfold Plain.allocate at hlast ⊢
  rw [ends_ite]
  by_cases hp : prev ≠ 0
  · rw [if_pos hp]
    have hoccupy : p.mark.occupy prev clust = (p.mark.put clust 0x0fffffff).put prev clust := by
      unfold Plain.occupy
      rw [if_pos hp]
    simp only [ends_bind, ends_modifyFat, ends_pure]
    refine (putFat_shows h₂ ?_ ?_ fun q hq => hsteps q ?_).mono (fun _ v₃ h₃ => ?_)
      fun _ _ he => .inl he
    · rw [Plain.put_geometry]
      exact hpos (hprev hp)
    · rw [Plain.put_geometry]
      exact hpos1 (hprev hp)
    · refine List.mem_append_right _ (List.mem_append_left _ ?_)
      rwa [if_pos hp]
    · rw [← hoccupy] at h₃
      exact (syncFs_shows (hrest v₃ h₃) hinfo hlast).mono
        (fun _ v₄ h₄ => ⟨h₄.1, h₄.2, hc, hfree, hroom⟩) fun _ _ he => .inl he
  · rw [if_neg hp]
    have hoccupy : p.mark.occupy prev clust = p.mark.put clust 0x0fffffff := by
      unfold Plain.occupy
      rw [if_neg hp]
    simp only [ends_bind, ends_modifyFat, ends_pure]
    rw [← hoccupy] at h₂
    exact (syncFs_shows (hrest v₂ h₂) hinfo hlast).mono
      (fun _ v₄ h₄ => ⟨h₄.1, h₄.2, hc, hfree, hroom⟩) fun _ _ he => .inl he

end Stretch

end DemoOS.Fat32
