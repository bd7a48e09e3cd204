import DemoOS.Proofs.Fat32.Removal

/-!
# `DemoOS.Proofs.Fat32.ChainRuns`: runs of the allocator

`ChainRun` is a run of `create_chain`, `stretch_chain` and `remove_chain`, as the callers use them:
a chain is stretched at its last cluster and removed from its first one. `chainRun_standing` says
that after every run the disk itself holds the chains, disjoint and complete, whatever order the
calls come in and however often the volume was full. `chain_calls` says what the next call does.
-/

set_option autoImplicit false

namespace DemoOS.Fat32

open Support

/-- The volume that somebody sees who has the disk only. -/
def onDisk (v : Volume) : Plain where
  geometry := v.fat.toGeometry
  lastUsed := v.fat.lastUsed
  freeCnt := v.fat.freeCnt
  infoDirty := v.fat.infoDirty
  sectors := v.disk.sectors

/-- The disk holds the chains, and the buffer agrees with it. -/
structure Standing (v : Volume) (chains : List (List Nat)) : Prop where
  synced : Synced v
  buffered : v.fat.sect ≠ 0 → v.fat.buf = v.disk.sectors v.fat.sect
  sound : (onDisk v).Sound chains

/-- A run of the allocator, with the chains that its callers hold. Every call works, or says that
the volume is full. -/
inductive ChainRun (v₀ : Volume) (chains₀ : List (List Nat)) : Volume → List (List Nat) → Prop
  | start : ChainRun v₀ chains₀ v₀ chains₀
  | create {v v' : Volume} {chains : List (List Nat)} {clust : Nat}
      (h : ChainRun v₀ chains₀ v chains) (hcall : createChain v = .ok clust v') :
      ChainRun v₀ chains₀ v' (chains ++ [[clust]])
  | createFull {v v' : Volume} {chains : List (List Nat)}
      (h : ChainRun v₀ chains₀ v chains) (hcall : createChain v = .error (.error .full) v') :
      ChainRun v₀ chains₀ v' chains
  | stretch {v v' : Volume} {before after : List (List Nat)} {l : List Nat} {a clust : Nat}
      (h : ChainRun v₀ chains₀ v (before ++ (l ++ [a]) :: after))
      (hcall : stretchChain a v = .ok clust v') :
      ChainRun v₀ chains₀ v' (before ++ (l ++ [a, clust]) :: after)
  | stretchFull {v v' : Volume} {before after : List (List Nat)} {l : List Nat} {a : Nat}
      (h : ChainRun v₀ chains₀ v (before ++ (l ++ [a]) :: after))
      (hcall : stretchChain a v = .error (.error .full) v') :
      ChainRun v₀ chains₀ v' (before ++ (l ++ [a]) :: after)
  | remove {v v' : Volume} {before after : List (List Nat)} {l : List Nat} {a : Nat}
      (h : ChainRun v₀ chains₀ v (before ++ (a :: l) :: after))
      (hcall : removeChain a v = .ok ⟨⟩ v') : ChainRun v₀ chains₀ v' (before ++ after)

/-! ### The disk -/

section Disk
variable {F : Faults} {G : Guard} {v : Volume} {p : Plain} {chains : List (List Nat)}

theorem Shows.onDisk_same (h : Shows F G v p) (hs : Synced v) :
    Plain.SameBut (fun i => i = 0) p (onDisk v) :=
  ⟨h.geometry, fun _ hi => h.disk hs hi⟩

theorem Shows.onDisk_cell (h : Shows F G v p) (hs : Synced v) (hg : p.geometry.Valid) {clust : Nat}
    (hc : clust ∈ p.geometry.clusters) : (onDisk v).cell clust = p.cell clust := by
  have hsame := h.onDisk_same hs
  unfold Plain.cell
  rw [hsame.geometry, hsame.entry (hg.itemSect_pos (Geometry.mem_clusters.mp hc).2)]

theorem Shows.onDisk_free (h : Shows F G v p) (hs : Synced v) (hg : p.geometry.Valid) :
    (onDisk v).free = p.free := by
  unfold Plain.free freeCount
  rw [(h.onDisk_same hs).geometry]
  exact congrArg Finset.card (Finset.filter_congr fun i hi => by rw [h.onDisk_cell hs hg hi])

/-- A synchronized volume is what the disk holds. -/
theorem Shows.standing (h : Shows F G v p) (hs : Synced v) (hsound : p.Sound chains) :
    Standing v chains := by
  have hsame := h.onDisk_same hs
  have hg := hsound.valid
  have hinfo : (onDisk v).sectors p.geometry.infoSect = p.sectors p.geometry.infoSect :=
    hsame.sectors _ hg.info
  refine ⟨hs, fun hsect => ?_, ?_⟩
  · exact (h.buffered hsect).trans (h.disk hs hsect).symm
  · refine ⟨by rw [hsame.geometry]; exact hg, ?_, ?_, fun hmirror clust hc => ?_, ?_, ?_⟩
    · show v.fat.lastUsed ∈ (onDisk v).geometry.clusters
      rw [hsame.geometry, h.lastUsed]
      exact hsound.cursor
    · rw [hsame.geometry]
      exact hsound.chains.congr fun k hk => h.onDisk_cell hs hg hk
    · rw [hsame.geometry] at hmirror hc ⊢
      rw [hsame.entry (hg.itemSect_pos hc), hsame.entry (hg.itemSect1_pos hc hmirror)]
      exact hsound.mirrored hmirror clust hc
    · rw [hsame.geometry, hinfo]
      exact hsound.informed.nextFree.trans h.lastUsed.symm
    · rw [hsame.geometry, hinfo]
      exact hsound.informed.freeCnt.trans h.freeCnt.symm

/-- A standing volume shows what the disk holds. -/
theorem Standing.shows (h : Standing v chains) (hatomic : v.disk.faults.Atomic)
    (hG : G.holds v.disk.sectors) : Shows v.disk.faults G v (onDisk v) := by
  refine ⟨rfl, rfl, rfl, rfl, h.buffered, fun _ _ _ => rfl, fun hdirty => ?_, rfl, hatomic, hG, hG⟩
  rw [show v.fat.bufDirty = false from h.synced] at hdirty
  cases hdirty

end Disk

/-! ### One call -/

section Calls
variable {v v' : Volume} {chains before after : List (List Nat)} {l : List Nat} {a prev : Nat}

/-- The counters agree up to what they differed by before, and the data area is the same. -/
structure Counted (v v' : Volume) : Prop where
  geometry : v'.fat.toGeometry = v.fat.toGeometry
  faults : v'.disk.faults = v.disk.faults
  free : u32 (v'.fat.freeCnt + (onDisk v).free) = u32 (v.fat.freeCnt + (onDisk v').free)
  data : ∀ i, v.fat.dataSect ≤ i → v'.disk.sectors i = v.disk.sectors i

theorem Counted.refl (v : Volume) : Counted v v := ⟨rfl, rfl, rfl, fun _ _ => rfl⟩

theorem Counted.trans {v'' : Volume} (h : Counted v v') (h' : Counted v' v'') : Counted v v'' := by
  have hdata : v'.fat.dataSect = v.fat.dataSect := congrArg Geometry.dataSect h.geometry
  refine ⟨h'.geometry.trans h.geometry, h'.faults.trans h.faults, ?_, fun i hi => ?_⟩
  · have h1 := h.free
    have h2 := h'.free
    unfold u32 at h1 h2 ⊢
    omega
  · rw [h'.data i (by rwa [hdata]), h.data i hi]

/-- Sectors of the data area are not sector 0. -/
theorem Standing.data_pos (h : Standing v chains) {i : Nat} (hi : v.fat.dataSect ≤ i) : i ≠ 0 := by
  have hdata := h.sound.valid.data
  have hactive := h.sound.valid.active
  have hi' : (onDisk v).geometry.dataSect ≤ i := hi
  omega

/-- What a call of `create_chain` or `stretch_chain` leaves. -/
theorem stretchChain_standing (h : Standing v chains) (hatomic : v.disk.faults.Atomic)
    (hprev : prev ≠ 0 → prev ∈ v.fat.clusters ∧ (onDisk v).cell prev ≠ .free)
    (hsound : ∀ clust ∈ v.fat.clusters, (onDisk v).cell clust = .free →
      ∃ chains', ((onDisk v).allocate prev clust).Sound chains') :
    Ends (stretchChain prev) v
      (fun clust v' => clust ∈ v.fat.clusters ∧ (onDisk v).cell clust = .free ∧ Counted v v'
        ∧ (onDisk v).Room prev
        ∧ ∀ chains', ((onDisk v).allocate prev clust).Sound chains' → Standing v' chains')
      fun e v' => Stopped v.disk.faults .any e v' ∨ Standing v' chains ∧ e = .error .full
        ∧ ¬ (onDisk v).Room prev ∧ Counted v v' := by
  have hg := h.sound.valid
  refine (stretchChain_shows (h.shows (G := .any) hatomic trivial) hg h.sound.cursor
    h.sound.legible (fun hp => (hprev hp).1) fun _ _ _ _ _ => trivial).mono
    (fun clust v' hr => ?_) fun e v' he => ?_
  · obtain ⟨hshow, hs, hc, hfree, hroom⟩ := hr
    obtain ⟨chains', hsound'⟩ := hsound clust hc hfree
    refine ⟨hc, hfree, ⟨hshow.geometry.trans (Plain.allocate_geometry prev clust), hshow.faults, ?_,
      fun i hi => ?_⟩, hroom, fun chains'' h'' => hshow.standing hs h''⟩
    · rw [hshow.onDisk_free hs hsound'.valid, hshow.freeCnt, Plain.allocate_freeCnt]
      have hcount := h.sound.allocate_free hc hprev hfree
      show u32 (u32 (v.fat.freeCnt + 2 ^ 32 - 1) + _) = _
      unfold u32
      omega
    · rw [hshow.disk hs (h.data_pos hi)]
      exact Plain.allocate_data hg hc (fun hp => (hprev hp).1) hi
  · refine he.imp_right fun he => ?_
    obtain ⟨⟨hshow, hs⟩, rfl, hfull⟩ := he
    have hsynced := hs h.synced
    refine ⟨hshow.standing hsynced h.sound.mark, rfl, hfull, hshow.geometry, hshow.faults, ?_,
      fun i hi => hshow.disk hsynced (h.data_pos hi)⟩
    rw [hshow.onDisk_free hsynced hg, hshow.freeCnt]
    rfl

/-- A call of `create_chain`. -/
theorem createChain_standing (h : Standing v chains) (hatomic : v.disk.faults.Atomic) :
    Ends createChain v
      (fun clust v' => Standing v' (chains ++ [[clust]]) ∧ clust ∉ chains.flatten
        ∧ (onDisk v).Room 0 ∧ Counted v v')
      fun e v' => Stopped v.disk.faults .any e v' ∨ Standing v' chains ∧ e = .error .full
        ∧ ¬ (onDisk v).Room 0 ∧ Counted v v' := by
  have hcreate : ∀ clust ∈ v.fat.clusters, (onDisk v).cell clust = .free →
      ((onDisk v).allocate 0 clust).Sound (chains ++ [[clust]]) :=
    fun clust hc hfree => h.sound.create hc hfree
  refine (stretchChain_standing h hatomic (fun hp => absurd rfl hp)
    fun clust hc hfree => ⟨_, hcreate clust hc hfree⟩).mono (fun clust v' hr => ?_)
    fun _ _ he => he
  obtain ⟨hc, hfree, hcounted, hroom, hstanding⟩ := hr
  exact ⟨hstanding _ (hcreate clust hc hfree), h.sound.chains.not_mem_of_free hfree, hroom,
    hcounted⟩

/-- The last cluster of a chain. -/
theorem Standing.last (h : Standing v (before ++ (l ++ [a]) :: after)) :
    a ∈ v.fat.clusters ∧ (onDisk v).cell a ≠ .free := by
  have hself : l ++ [a] ∈ before ++ (l ++ [a]) :: after :=
    List.mem_append_right _ List.mem_cons_self
  refine ⟨h.sound.chains.inside a (List.mem_flatten_of_mem hself (by simp)), fun hfree => ?_⟩
  rw [(h.sound.chains.chain _ hself).concat] at hfree
  cases hfree

/-- A call of `stretch_chain` at the end of a chain. -/
theorem stretchChain_chain (h : Standing v (before ++ (l ++ [a]) :: after))
    (hatomic : v.disk.faults.Atomic) :
    Ends (stretchChain a) v
      (fun clust v' => Standing v' (before ++ (l ++ [a, clust]) :: after)
        ∧ clust ∉ (before ++ (l ++ [a]) :: after).flatten ∧ (onDisk v).Room a ∧ Counted v v')
      fun e v' => Stopped v.disk.faults .any e v' ∨
        Standing v' (before ++ (l ++ [a]) :: after) ∧ e = .error .full
          ∧ ¬ (onDisk v).Room a ∧ Counted v v' := by
  refine (stretchChain_standing h hatomic (fun _ => h.last)
    fun clust hc hfree => ⟨_, h.sound.stretch hc hfree⟩).mono (fun clust v' hr => ?_)
    fun _ _ he => he
  obtain ⟨hc, hfree, hcounted, hroom, hstanding⟩ := hr
  exact ⟨hstanding _ (h.sound.stretch hc hfree), h.sound.chains.not_mem_of_free hfree, hroom,
    hcounted⟩

/-- The clusters of a chain. -/
theorem Standing.clusters (h : Standing v (before ++ l :: after)) :
    (∀ k ∈ l, k ∈ v.fat.clusters) ∧ l.Nodup ∧ IsChain (onDisk v).cell l := by
  have hself : l ∈ before ++ l :: after := List.mem_append_right _ List.mem_cons_self
  exact ⟨fun k hk => h.sound.chains.inside k (List.mem_flatten_of_mem hself hk),
    (List.nodup_flatten.mp h.sound.chains.nodup).1 _ hself, h.sound.chains.chain _ hself⟩

theorem Standing.freeCnt_lt (h : Standing v chains) : (onDisk v).freeCnt < 2 ^ 32 := by
  rw [← h.sound.informed.freeCnt]
  exact ByteMemory.load_lt _ _ 4

/-- A call of `remove_chain` at the beginning of a chain fails only where the disk fails. -/
theorem removeChain_chain (h : Standing v (before ++ (a :: l) :: after))
    (hatomic : v.disk.faults.Atomic) :
    Ends (removeChain a) v (fun _ v' => Standing v' (before ++ after) ∧ Counted v v')
      (Stopped v.disk.faults .any) := by
  obtain ⟨hl, hnodup, hchain⟩ := h.clusters
  refine (removeChain_shows (h.shows (G := .any) hatomic trivial) h.sound.valid hchain hl hnodup
    h.freeCnt_lt fun _ _ => trivial).mono (fun _ v' hr => ?_) fun _ _ he => he
  obtain ⟨hshow, hs⟩ := hr
  have hsound := h.sound.remove
  refine ⟨hshow.standing hs hsound, hshow.geometry.trans (Plain.release_geometry _), hshow.faults,
    ?_, fun i hi => ?_⟩
  · rw [hshow.onDisk_free hs hsound.valid, h.sound.release_free, hshow.freeCnt,
      Plain.release_freeCnt]
    show u32 (u32 (v.fat.freeCnt + _) + _) = u32 (v.fat.freeCnt + _)
    unfold u32
    omega
  · rw [hshow.disk hs (h.data_pos hi)]
    exact Plain.release_data h.sound.valid hl hi

end Calls

/-! ### Runs -/

section Runs
variable {v₀ v : Volume} {chains₀ chains : List (List Nat)}

/-- What a run keeps, as long as the calls work. -/
theorem ChainRun.standing (h : ChainRun v₀ chains₀ v chains) (h₀ : Standing v₀ chains₀)
    (hatomic : v₀.disk.faults.Atomic) : Standing v chains ∧ Counted v₀ v := by
  have hmove : ∀ {w : Volume}, Counted v₀ w → w.disk.faults.Atomic := fun hw => by
    rwa [hw.faults]
  induction h with
  | start => exact ⟨h₀, Counted.refl v₀⟩
  | create h hcall ih =>
      have hend := (createChain_standing ih.1 (hmove ih.2)).of_ok hcall
      exact ⟨hend.1, ih.2.trans hend.2.2.2⟩
  | createFull h hcall ih =>
      rcases (createChain_standing ih.1 (hmove ih.2)).of_error hcall with hstopped | hend
      · exact absurd rfl hstopped.ne_full
      · exact ⟨hend.1, ih.2.trans hend.2.2.2⟩
  | stretch h hcall ih =>
      have hend := (stretchChain_chain ih.1 (hmove ih.2)).of_ok hcall
      exact ⟨hend.1, ih.2.trans hend.2.2.2⟩
  | stretchFull h hcall ih =>
      rcases (stretchChain_chain ih.1 (hmove ih.2)).of_error hcall with hstopped | hend
      · exact absurd rfl hstopped.ne_full
      · exact ⟨hend.1, ih.2.trans hend.2.2.2⟩
  | remove h hcall ih =>
      have hend := (removeChain_chain ih.1 (hmove ih.2)).of_ok hcall
      exact ⟨hend.1, ih.2.trans hend.2⟩

/-- On a disk that works, the disk holds the chains of the callers after every run. A new cluster is
in no chain, there is none exactly when there is no room, and every chain can be given back. -/
theorem chainRun_standing (h₀ : Standing v₀ chains₀) (hworking : v₀.disk.faults = .never)
    (h : ChainRun v₀ chains₀ v chains) :
    Standing v chains ∧ Counted v₀ v
    ∧ Ends createChain v (fun clust _ => clust ∉ chains.flatten ∧ (onDisk v).Room 0)
        (fun e _ => e = .error .full ∧ ¬ (onDisk v).Room 0)
    ∧ (∀ before l a after, chains = before ++ (l ++ [a]) :: after →
        Ends (stretchChain a) v (fun clust _ => clust ∉ chains.flatten ∧ (onDisk v).Room a)
          fun e _ => e = .error .full ∧ ¬ (onDisk v).Room a)
    ∧ ∀ before a l after, chains = before ++ (a :: l) :: after →
        Ends (removeChain a) v (fun _ _ => True) fun _ _ => False := by
  have hatomic : v₀.disk.faults.Atomic := hworking ▸ Faults.atomic_never
  obtain ⟨hstanding, hcounted⟩ := h.standing h₀ hatomic
  have hworks : v.disk.faults = .never := hcounted.faults.trans hworking
  have hatomic' : v.disk.faults.Atomic := hworks ▸ Faults.atomic_never
  refine ⟨hstanding, hcounted, ?_, fun before l a after heq => ?_, fun before a l after heq => ?_⟩
  · refine (createChain_standing hstanding hatomic').mono (fun _ _ hr => ⟨hr.2.1, hr.2.2.1⟩)
      fun _ _ he => ?_
    rcases he with hstopped | he
    · exact absurd hworks hstopped.faulty
    · exact ⟨he.2.1, he.2.2.1⟩
  · subst heq
    refine (stretchChain_chain hstanding hatomic').mono (fun _ _ hr => ⟨hr.2.1, hr.2.2.1⟩)
      fun _ _ he => ?_
    rcases he with hstopped | he
    · exact absurd hworks hstopped.faulty
    · exact ⟨he.2.1, he.2.2.1⟩
  · subst heq
    exact (removeChain_chain hstanding hatomic').mono (fun _ _ _ => trivial)
      fun _ _ he => he.faulty hworks

end Runs

/-- A volume of 65534 clusters, all of them free. -/
def blankVolume : Plain where
  geometry :=
    { clustShift := 0, clustMsk := 0, clustCnt := 65536, infoSect := 1, fatSect0 := 32
      fatSect1 := 544, dataSect := 1056, rootClust := 2 }
  lastUsed := 2
  freeCnt := 65533
  infoDirty := false
  sectors := Function.update (fun _ _ => 0) 1 (putInfo 2 65533 fun _ => 0)

/-- A mounted volume with an empty root directory. -/
def emptyVolume : Volume where
  fat :=
    { blankVolume.geometry with
      lastUsed := 2, freeCnt := 65533, sect := 0, buf := fun _ => 0
      bufDirty := false, infoDirty := false }
  disk :=
    { sectors := (blankVolume.put 2 0x0fffffff).sectors
      operations := 0
      faults := .never }

theorem blankVolume_valid : blankVolume.geometry.Valid :=
  ⟨by decide, by decide, by decide, by decide, by decide, by decide, by decide⟩

theorem blankVolume_entry {fatSect clust : Nat} (hne : itemSect fatSect clust ≠ 1) :
    blankVolume.entry fatSect clust = 0 := by
  refine ByteMemory.load_zero fun b _ _ => ?_
  show Function.update (fun _ _ => 0) 1 (putInfo 2 65533 fun _ => 0) (itemSect fatSect clust) b = 0
  rw [Function.update_of_ne hne]

theorem emptyVolume_onDisk : onDisk emptyVolume = blankVolume.put 2 0x0fffffff := by
  rw [Plain.put_of_mirror (by decide)]
  rfl

theorem emptyVolume_standing : Standing emptyVolume [[2]] := by
  have hg := blankVolume_valid
  have hroot : 2 < blankVolume.geometry.clustCnt := by decide
  have hcell : ∀ clust ∈ blankVolume.geometry.clusters, (onDisk emptyVolume).cell clust
      = if clust = 2 then .last else .free := fun clust hc => by
    have hlt := (Geometry.mem_clusters.mp hc).2
    have hentry : blankVolume.entry blankVolume.geometry.fatSect0 clust = 0 := by
      refine blankVolume_entry ?_
      rw [hg.itemSect0 hlt]
      show 32 + clust / 128 ≠ 1
      omega
    have hfree : blankVolume.cell clust = .free := by
      unfold Plain.cell
      rw [hentry]
      rfl
    rw [emptyVolume_onDisk, Plain.cell_put hg hroot hlt, Plain.cellOf_eoc, hfree]
  have hmirrored : blankVolume.Mirrored := fun hmirror clust hc => by
    have h0 : blankVolume.entry blankVolume.geometry.fatSect0 clust = 0 := by
      refine blankVolume_entry ?_
      rw [hg.itemSect0 hc]
      show 32 + clust / 128 ≠ 1
      omega
    have h1 : blankVolume.entry blankVolume.geometry.fatSect1 clust = 0 := by
      refine blankVolume_entry ?_
      rw [hg.itemSect1 hc]
      show 544 + clust / 128 ≠ 1
      omega
    rw [h0, h1]
  refine ⟨rfl, fun h => absurd rfl h, hg, Geometry.mem_clusters.mpr (by decide), ?_, ?_, ?_⟩
  · refine ⟨fun l hl => ?_, fun k hk => ?_, by decide, fun k hk hni => ?_⟩
    · rw [List.mem_singleton.mp hl]
      exact hcell 2 (Geometry.mem_clusters.mpr (by decide))
    · rw [List.mem_singleton.mp hk]
      exact Geometry.mem_clusters.mpr (by decide)
    · have hne : k ≠ 2 := fun heq => hni (List.mem_singleton.mpr heq)
      rw [hcell k hk, if_neg hne]
      exact .inl rfl
  · rw [emptyVolume_onDisk]
    exact Plain.mirrored_put hg hmirrored hroot
  · rw [emptyVolume_onDisk]
    have hsect : (blankVolume.put 2 0x0fffffff).sectors 1 = putInfo 2 65533 fun _ => 0 := by
      exact Plain.put_off hg (Geometry.mem_clusters.mpr (by decide)) (.inl rfl) _
    constructor
    · show ByteMemory.load ((blankVolume.put 2 0x0fffffff).sectors 1) NEXT_FREE 4 = 2
      rw [hsect, putInfo, ByteMemory.storeWord, ByteMemory.load_patch_outside (by decide)]
      exact ByteMemory.load_storeWord (by decide)
    · show ByteMemory.load ((blankVolume.put 2 0x0fffffff).sectors 1) FREE_CNT 4 = 65533
      rw [hsect, putInfo]
      exact ByteMemory.load_storeWord (by decide)

theorem chainRun_standing_first : ∃ v, createChain emptyVolume = .ok 3 v
    ∧ Standing v [[2], [3]] ∧ Ends (removeChain 3) v (fun _ _ => True) fun _ _ => False := by
  obtain ⟨v, hcall⟩ : ∃ v, createChain emptyVolume = .ok 3 v :=
    exists_of_resultOf (by decide +kernel)
  have h := chainRun_standing emptyVolume_standing rfl (.create .start hcall)
  exact ⟨v, hcall, h.1, h.2.2.2.2 [[2]] 3 [] [] rfl⟩

end DemoOS.Fat32
