import DemoOS.Proofs.Fat32.ChainRuns

/-!
# `DemoOS.Proofs.Fat32.PowerLoss`: calls that the disk interrupts

Operations of the disk fail: one of them, or all from some point on, as when the power goes. A
failed write leaves its sector as it was, or writes it. `chainRun_interrupted` says what the first
call that fails leaves on the disk. The other chains are what they were. A cluster may be marked as
used without being in a chain, and a chain that was to be removed may have lost its first clusters.
-/

set_option autoImplicit false

namespace DemoOS.Fat32

open Support

/-! ### The steps of a call -/

namespace Plain

variable {p q : Plain} {clust prev val i : Nat} {chains before after : List (List Nat)}
  {l : List Nat}

/-- The same volume up to items of the FAT. -/
structure Off (p q : Plain) : Prop where
  geometry : q.geometry = p.geometry
  data : ∀ i, p.geometry.dataSect ≤ i → q.sectors i = p.sectors i

theorem Off.trans {r : Plain} (h : Off p q) (h' : Off q r) : Off p r := by
  refine ⟨h'.geometry.trans h.geometry, fun i hi => ?_⟩
  rw [h'.data i (by rwa [h.geometry]), h.data i hi]

section Steps
variable (hg : p.geometry.Valid) (hc : clust ∈ p.geometry.clusters)
include hg hc

theorem off_put (val : Nat) : Off p (p.put clust val) :=
  ⟨put_geometry clust val, fun _ hi => put_off hg hc (.inr hi) val⟩

/-- A change of the mirror does not change the active FAT. -/
theorem cell_mirror (hmirror : p.geometry.fatSect1 ≠ 0) (hi : i ∈ p.geometry.clusters)
    (f : Sector → Sector) :
    (p.change (itemSect p.geometry.fatSect1 clust) f).cell i = p.cell i := by
  unfold cell
  rw [change_geometry, entry_change_of_ne (itemSect_ne hg hmirror
    (Geometry.mem_clusters.mp hi).2 (Geometry.mem_clusters.mp hc).2)]

/-- After each call of `put_fat2` the active FAT is the old one or the new one. -/
theorem putSteps_cell (hq : q ∈ p.putSteps clust val) : Off p q ∧
    ((∀ i ∈ p.geometry.clusters, q.cell i = p.cell i)
      ∨ ∀ i ∈ p.geometry.clusters, q.cell i = (p.put clust val).cell i) := by
  have hdata := hg.data
  have hrow := hg.row (Geometry.mem_clusters.mp hc).2
  rcases List.mem_append.mp hq with hq | hq
  · split at hq
    · next hmirror =>
        rw [List.mem_singleton.mp hq]
        refine ⟨⟨rfl, fun i hi => change_of_ne ?_ _⟩,
          .inl fun i hi => cell_mirror hg hc hmirror hi _⟩
        rw [hg.itemSect1 (Geometry.mem_clusters.mp hc).2]
        omega
    · cases hq
  · rw [List.mem_singleton.mp hq]
    exact ⟨off_put hg hc val, .inr fun _ _ => rfl⟩

/-- After each step of `stretch_chain` the new cluster is free, or used, or in its place. -/
theorem allocateSteps_cell (hprev : prev ≠ 0 → prev ∈ p.geometry.clusters) (hne : clust ≠ prev)
    (hq : q ∈ p.allocateSteps prev clust) : Off p q ∧
    ((∀ i ∈ p.geometry.clusters, q.cell i = p.cell i)
      ∨ (∀ i ∈ p.geometry.clusters, q.cell i = if i = clust then .last else p.cell i)
      ∨ ∀ i ∈ p.geometry.clusters, q.cell i = (p.allocate prev clust).cell i) := by
  have hput : ∀ i ∈ p.geometry.clusters, (p.mark.put clust 0x0fffffff).cell i
      = if i = clust then .last else p.cell i := fun i hi => by
    rw [cell_put (p := p.mark) hg (Geometry.mem_clusters.mp hc).2
      (Geometry.mem_clusters.mp hi).2, cellOf_eoc]
    rfl
  have hmark : Off p p.mark := ⟨rfl, fun _ _ => rfl⟩
  have hoff : Off p (p.mark.put clust 0x0fffffff) :=
    hmark.trans (off_put (p := p.mark) hg hc _)
  rcases List.mem_append.mp hq with hq | hq
  · obtain ⟨hoffq, hcell⟩ := putSteps_cell (p := p.mark) hg hc hq
    refine ⟨hmark.trans hoffq, hcell.imp id fun hnew => .inl fun i hi => ?_⟩
    rw [hnew i hi, hput i hi]
  · rcases List.mem_append.mp hq with hq | hq
    · split at hq
      · next hp =>
          have hg' : (p.mark.put clust 0x0fffffff).geometry.Valid := by rwa [put_geometry]
          have hprev' : prev ∈ (p.mark.put clust 0x0fffffff).geometry.clusters := by
            rw [put_geometry]
            exact hprev hp
          obtain ⟨hoffq, hcell⟩ := putSteps_cell hg' hprev' hq
          refine ⟨hoff.trans hoffq, .inr (hcell.imp (fun hold i hi => ?_) fun hnew i hi => ?_)⟩
          · rw [hold i (by rwa [put_geometry]), hput i hi]
          · have hoccupy := cell_occupy (p := p.mark) hg hc hprev hne hi
            unfold occupy at hoccupy
            rw [if_pos hp] at hoccupy
            rw [hnew i (by rwa [put_geometry]), cell_allocate hg hc hprev hne hi, hoccupy]
            rfl
      · cases hq
    · rw [List.mem_singleton.mp hq]
      exact ⟨⟨allocate_geometry prev clust, fun i hi => allocate_data hg hc hprev hi⟩,
        .inr (.inr fun _ _ => rfl)⟩

end Steps

/-- After each step of `remove_chain` some of the first clusters are free. -/
theorem releaseSteps_cell (hg : p.geometry.Valid) (hl : ∀ k ∈ l, k ∈ p.geometry.clusters)
    (hq : q ∈ p.releaseSteps l) : Off p q ∧
    ∃ n, ∀ i ∈ p.geometry.clusters, q.cell i = if i ∈ l.take n then .free else p.cell i := by
  have htake : ∀ n, ∀ k ∈ l.take n, k ∈ p.geometry.clusters := fun n k hk =>
    hl k (List.mem_of_mem_take hk)
  have herase : ∀ n, ∀ i ∈ p.geometry.clusters, (p.erased (l.take n)).cell i
      = if i ∈ l.take n then .free else p.cell i := fun n i hi => cell_erase hg (htake n) hi
  have hoff : ∀ n, Off p (p.erased (l.take n)) := fun n =>
    ⟨erased_geometry _, fun i hi => erase_off hg (htake n) (.inr hi)⟩
  rcases List.mem_append.mp hq with hq | hq
  · obtain ⟨n, hn, hq⟩ := List.mem_flatMap.mp hq
    have hlt := List.mem_range.mp hn
    have hget : l.getD n 0 = l[n] := by simp [hlt]
    rw [hget] at hq
    have hmem : l[n] ∈ (p.erased (l.take n)).geometry.clusters := by
      rw [erased_geometry]
      exact hl _ (List.getElem_mem hlt)
    obtain ⟨hoffq, hcell⟩ := putSteps_cell (by rwa [erased_geometry]) hmem hq
    rw [erased_geometry] at hcell
    refine ⟨(hoff n).trans hoffq, ?_⟩
    rcases hcell with hold | hnew
    · exact ⟨n, fun i hi => by rw [hold i hi, herase n i hi]⟩
    · refine ⟨n + 1, fun i hi => ?_⟩
      have hput : ((p.erased (l.take n)).put l[n] 0).cell i = (p.erased (l.take (n + 1))).cell i := by
        rw [List.take_add_one, List.getElem?_eq_getElem hlt, Option.toList_some, ← erased_concat]
        rfl
      rw [hnew i hi, hput, herase (n + 1) i hi]
  · rw [List.mem_singleton.mp hq]
    refine ⟨⟨release_geometry l, fun i hi => release_data hg hl hi⟩, l.length, fun i hi => ?_⟩
    rw [cell_release hg hl hi, List.take_length]

end Plain

/-! ### What survives -/

/-- The volume of a disk with other contents. -/
def Plain.stored (p : Plain) (sectors : Nat → Sector) : Plain := { p with sectors := sectors }

/-- The chains that the disk holds, and an untouched data area. -/
structure Survives (p : Plain) (chains : List (List Nat)) (sectors : Nat → Sector) : Prop where
  chains : Chains (p.stored sectors).cell p.geometry.clusters chains
  data : ∀ i, p.geometry.dataSect ≤ i → sectors i = p.sectors i

section Survives
variable {p q : Plain} {chains before after : List (List Nat)} {l : List Nat} {a clust : Nat}

theorem Plain.Off.stored_cell (h : p.Off q) (i : Nat) :
    (p.stored q.sectors).cell i = q.cell i := by
  unfold Plain.cell Plain.entry
  rw [h.geometry]
  rfl

/-- What survives is one of several lists of chains. -/
def survivors (p : Plain) (hg : p.geometry.Valid) (allowed : List (List Nat) → Prop) : Guard where
  holds sectors := ∃ chains, allowed chains ∧ Survives p chains sectors
  congr := by
    rintro s s' heq ⟨chains, hallowed, hchains, hdata⟩
    refine ⟨chains, hallowed, hchains.congr fun k hk => ?_, fun i hi => ?_⟩
    · have hsect := hg.itemSect_pos (Geometry.mem_clusters.mp hk).2
      unfold Plain.cell Plain.entry Plain.stored
      simp only
      rw [heq _ hsect]
    · have hactive := hg.active
      have hd := hg.data
      rw [heq i (by omega), hdata i hi]

theorem Plain.Sound.survives (h : p.Sound chains) : Survives p chains p.sectors :=
  ⟨h.chains, fun _ _ => rfl⟩

/-- The steps of `create_chain`. -/
theorem Plain.Sound.create_survives (h : p.Sound chains) (hc : clust ∈ p.geometry.clusters)
    (hfree : p.cell clust = .free) (hq : q ∈ p.allocateSteps 0 clust) :
    Survives p chains q.sectors ∨ Survives p (chains ++ [[clust]]) q.sectors := by
  have hne : clust ≠ 0 := by
    rw [Geometry.mem_clusters] at hc
    omega
  have hzero : (0 : Nat) ≠ 0 → 0 ∈ p.geometry.clusters := fun h => absurd rfl h
  have hcreate : ∀ {t : Nat → Cell Nat}, (∀ i ∈ p.geometry.clusters,
      t i = if i = clust then .last else p.cell i) →
      Chains t p.geometry.clusters (chains ++ [[clust]]) := fun ht => by
    refine h.chains.create hc hfree ?_ fun i hi hne' => ?_
    · rw [ht clust hc, if_pos rfl]
    · rw [ht i hi, if_neg hne']
  obtain ⟨hoff, hcell⟩ := Plain.allocateSteps_cell h.valid hc hzero hne hq
  rcases hcell with hold | hmarked | hnew
  · exact .inl ⟨h.chains.congr fun i hi => by rw [hoff.stored_cell, hold i hi], hoff.data⟩
  · exact .inr ⟨hcreate fun i hi => by rw [hoff.stored_cell, hmarked i hi], hoff.data⟩
  · refine .inr ⟨hcreate fun i hi => ?_, hoff.data⟩
    rw [hoff.stored_cell, hnew i hi, Plain.cell_allocate h.valid hc hzero hne hi]
    simp

/-- The steps of `stretch_chain`. -/
theorem Plain.Sound.stretch_survives (h : p.Sound (before ++ (l ++ [a]) :: after))
    (ha : a ∈ p.geometry.clusters) (hlast : p.cell a ≠ .free) (hc : clust ∈ p.geometry.clusters)
    (hfree : p.cell clust = .free) (hq : q ∈ p.allocateSteps a clust) :
    Survives p (before ++ (l ++ [a]) :: after) q.sectors
      ∨ Survives p ((before ++ (l ++ [a]) :: after) ++ [[clust]]) q.sectors
      ∨ Survives p (before ++ (l ++ [a, clust]) :: after) q.sectors := by
  have hne : clust ≠ a := by
    rintro rfl
    exact hlast hfree
  obtain ⟨hoff, hcell⟩ := Plain.allocateSteps_cell h.valid hc (fun _ => ha) hne hq
  rcases hcell with hold | hmarked | hnew
  · exact .inl ⟨h.chains.congr fun i hi => by rw [hoff.stored_cell, hold i hi], hoff.data⟩
  · refine .inr (.inl ⟨h.chains.create hc hfree ?_ fun i hi hne' => ?_, hoff.data⟩)
    · rw [hoff.stored_cell, hmarked clust hc, if_pos rfl]
    · rw [hoff.stored_cell, hmarked i hi, if_neg hne']
  · refine .inr (.inr ⟨?_, hoff.data⟩)
    have hsound := (h.stretch hc hfree).chains
    rw [Plain.allocate_geometry] at hsound
    exact hsound.congr fun i hi => by rw [hoff.stored_cell, hnew i hi]

/-- The steps of `remove_chain`. -/
theorem Plain.Sound.remove_survives (h : p.Sound (before ++ l :: after))
    (hl : ∀ k ∈ l, k ∈ p.geometry.clusters) (hq : q ∈ p.releaseSteps l) :
    Survives p (before ++ after) q.sectors
      ∨ ∃ front rest, l = front ++ rest ∧ rest ≠ [] ∧ Survives p (before ++ rest :: after)
        q.sectors := by
  obtain ⟨hoff, n, hcell⟩ := Plain.releaseSteps_cell h.valid hl hq
  have hfree : ∀ i ∈ l.take n, (p.stored q.sectors).cell i = .free := fun i hi => by
    rw [hoff.stored_cell, hcell i (hl i (List.mem_of_mem_take hi)), if_pos hi]
  have hsame : ∀ i ∈ p.geometry.clusters, i ∉ l.take n →
      (p.stored q.sectors).cell i = p.cell i := fun i hi hni => by
    rw [hoff.stored_cell, hcell i hi, if_neg hni]
  by_cases hrest : l.drop n = []
  · have htake : l.take n = l := List.take_of_length_le (List.drop_eq_nil_iff.mp hrest)
    rw [htake] at hfree hsame
    exact .inl ⟨h.chains.remove hfree hsame, hoff.data⟩
  · have hchains := h.chains
    rw [← List.take_append_drop n l] at hchains
    exact .inr ⟨l.take n, l.drop n, (List.take_append_drop n l).symm, hrest,
      hchains.behead hrest hfree hsame, hoff.data⟩

end Survives

/-! ### Calls that fail -/

section Interrupted
variable {v v' : Volume} {chains before after : List (List Nat)} {l : List Nat} {a : Nat} {e : Stop}

/-- The chains after a call of `create_chain` that fails. -/
def CreateLeaves (chains chains' : List (List Nat)) : Prop :=
  chains' = chains ∨ ∃ clust ∉ chains.flatten, chains' = chains ++ [[clust]]

/-- The chains after a call of `stretch_chain` that fails. -/
def StretchLeaves (before : List (List Nat)) (l : List Nat) (a : Nat) (after : List (List Nat))
    (chains' : List (List Nat)) : Prop :=
  CreateLeaves (before ++ (l ++ [a]) :: after) chains'
    ∨ ∃ clust ∉ (before ++ (l ++ [a]) :: after).flatten,
        chains' = before ++ (l ++ [a, clust]) :: after

/-- The chains after a call of `remove_chain` that fails. -/
def RemoveLeaves (before : List (List Nat)) (l : List Nat) (after chains' : List (List Nat)) :
    Prop :=
  chains' = before ++ after
    ∨ ∃ front rest, l = front ++ rest ∧ rest ≠ [] ∧ chains' = before ++ rest :: after

theorem createChain_interrupted (h : Standing v chains) (hatomic : v.disk.faults.Atomic)
    (hcall : createChain v = .error e v') :
    (survivors (onDisk v) h.sound.valid (CreateLeaves chains)).holds v'.disk.sectors := by
  have hshows := h.shows (G := survivors (onDisk v) h.sound.valid (CreateLeaves chains)) hatomic
    ⟨chains, .inl rfl, h.sound.survives⟩
  have hsteps : ∀ clust ∈ v.fat.clusters, (onDisk v).cell clust = .free →
      ∀ q ∈ (onDisk v).allocateSteps 0 clust,
      (survivors (onDisk v) h.sound.valid (CreateLeaves chains)).holds q.sectors := by
    intro clust hc hfree q hq
    have hfresh := h.sound.chains.not_mem_of_free hfree
    rcases h.sound.create_survives hc hfree hq with hold | hnew
    · exact ⟨chains, .inl rfl, hold⟩
    · exact ⟨_, .inr ⟨clust, hfresh, rfl⟩, hnew⟩
  rcases (stretchChain_shows hshows h.sound.valid h.sound.cursor h.sound.legible
    (fun hp => absurd rfl hp) hsteps).of_error hcall with hstopped | hfull
  · exact hstopped.guarded
  · exact hfull.1.1.guarded

theorem stretchChain_interrupted (h : Standing v (before ++ (l ++ [a]) :: after))
    (hatomic : v.disk.faults.Atomic) (hcall : stretchChain a v = .error e v') :
    (survivors (onDisk v) h.sound.valid (StretchLeaves before l a after)).holds
      v'.disk.sectors := by
  have hshows := h.shows
    (G := survivors (onDisk v) h.sound.valid (StretchLeaves before l a after)) hatomic
    ⟨_, .inl (.inl rfl), h.sound.survives⟩
  have hsteps : ∀ clust ∈ v.fat.clusters, (onDisk v).cell clust = .free →
      ∀ q ∈ (onDisk v).allocateSteps a clust, (survivors (onDisk v) h.sound.valid
        (StretchLeaves before l a after)).holds q.sectors := by
    intro clust hc hfree q hq
    have hfresh := h.sound.chains.not_mem_of_free hfree
    rcases h.sound.stretch_survives h.last.1 h.last.2 hc hfree hq with hold | hlost | hnew
    · exact ⟨_, .inl (.inl rfl), hold⟩
    · exact ⟨_, .inl (.inr ⟨clust, hfresh, rfl⟩), hlost⟩
    · exact ⟨_, .inr ⟨clust, hfresh, rfl⟩, hnew⟩
  rcases (stretchChain_shows hshows h.sound.valid h.sound.cursor h.sound.legible
    (fun _ => h.last.1) hsteps).of_error hcall with hstopped | hfull
  · exact hstopped.guarded
  · exact hfull.1.1.guarded

theorem removeChain_interrupted (h : Standing v (before ++ (a :: l) :: after))
    (hatomic : v.disk.faults.Atomic) (hcall : removeChain a v = .error e v') :
    (survivors (onDisk v) h.sound.valid (RemoveLeaves before (a :: l) after)).holds
      v'.disk.sectors := by
  obtain ⟨hl, hnodup, hchain⟩ := h.clusters
  have hshows := h.shows
    (G := survivors (onDisk v) h.sound.valid (RemoveLeaves before (a :: l) after)) hatomic
    ⟨_, .inr ⟨[], a :: l, rfl, List.cons_ne_nil a l, rfl⟩, h.sound.survives⟩
  refine ((removeChain_shows hshows h.sound.valid hchain hl hnodup h.freeCnt_lt
    fun q hq => ?_).of_error hcall).guarded
  rcases h.sound.remove_survives hl hq with hgone | ⟨front, rest, hsplit, hne, hrest⟩
  · exact ⟨_, .inl rfl, hgone⟩
  · exact ⟨_, .inr ⟨front, rest, hsplit, hne, rfl⟩, hrest⟩

end Interrupted

/-- The disk after the first call of a run that fails. No chain but the one of the call is changed,
and no two chains come to share a cluster. -/
theorem chainRun_interrupted {v₀ v : Volume} {chains₀ chains : List (List Nat)}
    (h₀ : Standing v₀ chains₀) (hatomic : v₀.disk.faults.Atomic)
    (h : ChainRun v₀ chains₀ v chains) :
    (∀ e v', createChain v = .error e v' →
      ∃ chains', CreateLeaves chains chains' ∧ Survives (onDisk v) chains' v'.disk.sectors)
    ∧ (∀ before l a after, chains = before ++ (l ++ [a]) :: after →
        ∀ e v', stretchChain a v = .error e v' → ∃ chains', StretchLeaves before l a after chains'
          ∧ Survives (onDisk v) chains' v'.disk.sectors)
    ∧ ∀ before a l after, chains = before ++ (a :: l) :: after →
        ∀ e v', removeChain a v = .error e v' → ∃ chains', RemoveLeaves before (a :: l) after chains'
          ∧ Survives (onDisk v) chains' v'.disk.sectors := by
  obtain ⟨hstanding, hcounted⟩ := h.standing h₀ hatomic
  have hatomic' : v.disk.faults.Atomic := by rwa [hcounted.faults]
  refine ⟨fun e v' hcall => createChain_interrupted hstanding hatomic' hcall, ?_, ?_⟩
  · rintro before l a after rfl e v' hcall
    exact stretchChain_interrupted hstanding hatomic' hcall
  · rintro before a l after rfl e v' hcall
    exact removeChain_interrupted hstanding hatomic' hcall

/-- From the sixth operation on, the disk is gone. -/
def failingVolume : Volume :=
  { emptyVolume with disk := { emptyVolume.disk with faults :=
    ⟨fun n => if n < 6 then none else some fun old _ => old,
      fun n => if n < 6 then none else some fun old _ => old⟩ } }

theorem chainRun_interrupted_create : ∃ v, createChain failingVolume = .error (.error .io) v
    ∧ ∃ chains, CreateLeaves [[2]] chains ∧ Survives (onDisk failingVolume) chains
      v.disk.sectors := by
  have hstanding : Standing failingVolume [[2]] :=
    ⟨emptyVolume_standing.synced, emptyVolume_standing.buffered, emptyVolume_standing.sound⟩
  have hatomic : failingVolume.disk.faults.Atomic := by
    intro n left hleft old new
    change (if n < 6 then none else some fun old _ => old) = some left at hleft
    split at hleft
    · cases hleft
    · rw [← Option.some.inj hleft]
      exact .inl rfl
  obtain ⟨v, hcall⟩ : ∃ v, createChain failingVolume = .error (.error .io) v :=
    exists_of_errorOf (by decide +kernel)
  exact ⟨v, hcall, (chainRun_interrupted hstanding hatomic .start).1 _ v hcall⟩

end DemoOS.Fat32
