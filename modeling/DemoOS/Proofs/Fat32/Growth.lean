import DemoOS.Proofs.Fat32.ChainRuns
import DemoOS.Proofs.Fat32.Cursor
import DemoOS.Proofs.Fat32.Names
import DemoOS.Spec.Directory

/-!
# `DemoOS.Proofs.Fat32.Growth`: a directory becomes longer

`dir_next_stretch` behaves like `dir_next`, and appends a cluster of zeros where that one comes to
the end (`dirNextStretch_shows`). `Grown` is what any number of its calls leave: the directory
keeps its records, the new ones are marks of the end, and the clusters of others stay.
-/

set_option autoImplicit false

namespace DemoOS.Fat32

open Support

/-! ### The sectors of a cluster -/

/-- The sectors of a cluster. -/
def Plain.cluster (p : Plain) (clust n : Nat) : Sector := p.sectors (p.geometry.clustToSect clust + n)

/-- Only the clusters of a list differ. -/
structure SameClusters (p p' : Plain) (s : List Nat) : Prop where
  geometry : p'.geometry = p.geometry
  same : ∀ c ∈ p.geometry.clusters, c ∉ s → ∀ n < 2 ^ p.geometry.clustShift,
    p'.cluster c n = p.cluster c n

section Clusters
variable {p p' p'' : Plain} {s s' l : List Nat} {c c' m n : Nat} {a : Place}

theorem SameClusters.refl (p : Plain) (s : List Nat) : SameClusters p p s :=
  ⟨rfl, fun _ _ _ _ _ => rfl⟩

theorem SameClusters.trans (h : SameClusters p p' s) (h' : SameClusters p' p'' s) :
    SameClusters p p'' s := by
  refine ⟨h'.geometry.trans h.geometry, fun c hc hs n hn => ?_⟩
  rw [h'.same c (by rwa [h.geometry]) hs n (by rwa [h.geometry]), h.same c hc hs n hn]

theorem SameClusters.mono (h : SameClusters p p' s) (hss : ∀ c ∈ s, c ∈ s') :
    SameClusters p p' s' :=
  ⟨h.geometry, fun c hc hs n hn => h.same c hc (fun hs' => hs (hss c hs')) n hn⟩

/-- The sectors of two clusters are different ones. -/
theorem Geometry.Laid.sect_inj {g : Geometry} (h : g.Laid) (hc : c ∈ g.clusters)
    (hc' : c' ∈ g.clusters) (hn : n < 2 ^ g.clustShift) (hm : m < 2 ^ g.clustShift)
    (heq : g.clustToSect c + n = g.clustToSect c' + m) : c = c' ∧ n = m := by
  rw [(h.clustToSect hc).1, (h.clustToSect hc').1] at heq
  rw [Geometry.mem_clusters] at hc hc'
  have hdiv : ∀ {a b : Nat}, b < 2 ^ g.clustShift → (a * 2 ^ g.clustShift + b) / 2 ^ g.clustShift = a :=
    fun {a b} hb => by
      rw [Nat.add_comm, Nat.add_mul_div_right _ _ (Nat.two_pow_pos _), Nat.div_eq_of_lt hb,
        Nat.zero_add]
  have hsum : (c - 2) * 2 ^ g.clustShift + n = (c' - 2) * 2 ^ g.clustShift + m := by omega
  have hquot := congrArg (· / 2 ^ g.clustShift) hsum
  simp only [hdiv hn, hdiv hm] at hquot
  have hcc : c = c' := by omega
  subst hcc
  exact ⟨rfl, by omega⟩

/-- The sector of a place lies in its cluster. -/
theorem Plain.record_placeIn (p : Plain) (c n : Nat) :
    p.record (p.geometry.placeIn c n) = recordAt (p.cluster c (n / 16)) (32 * (n % 16)) := rfl

theorem Plain.record_zero {g : Geometry} (hg : p.geometry = g)
    (hzero : p.cluster c (n / 16) = fun _ => 0) : p.record (g.placeIn c n) = fun _ => 0 := by
  rw [← hg, Plain.record_placeIn, hzero]
  funext b
  unfold recordAt
  split <;> rfl

theorem Geometry.row_lt {g : Geometry} (hn : n < 16 * g.rows) : n / 16 < 2 ^ g.clustShift := by
  have := g.rows_le
  omega

/-- Records in other clusters stay. -/
theorem SameClusters.record (h : SameClusters p p' s) (hl : ∀ c ∈ l, c ∈ p.geometry.clusters ∧ c ∉ s)
    (ha : a ∈ p.geometry.places l) : p'.record a = p.record a := by
  obtain ⟨c, hc, n, hn, rfl⟩ := Geometry.mem_places ha
  have hsame := h.same c (hl c hc).1 (hl c hc).2 (n / 16) (Geometry.row_lt hn)
  rw [Plain.record_placeIn, ← hsame, ← h.geometry, Plain.record_placeIn]

/-- The places of a list of clusters are different ones. -/
theorem Geometry.nodup_places {g : Geometry} (hnodup : l.Nodup) : (g.places l).Nodup := by
  have hin : ∀ c, (g.placesIn c).Nodup := fun c => by
    refine List.nodup_range.map fun n m heq => ?_
    have hsect := congrArg Place.sect heq
    have hidx := congrArg Place.idx heq
    simp only [Geometry.placeIn] at hsect hidx
    omega
  refine List.nodup_flatMap.mpr ⟨fun c _ => hin c, hnodup.imp_of_mem fun {c c'} hc hc' hne => ?_⟩
  rw [Function.onFun, List.disjoint_left]
  intro a ha ha'
  obtain ⟨n, hn, rfl⟩ := List.mem_map.mp ha
  obtain ⟨m, hm, heq⟩ := List.mem_map.mp ha'
  exact hne (congrArg Place.clust heq).symm

/-- Different places of a directory have different records. -/
theorem Geometry.Laid.place_ne {g : Geometry} (h : g.Laid) (hl : ∀ c ∈ l, c ∈ g.clusters)
    {a b : Place} (ha : a ∈ g.places l) (hb : b ∈ g.places l) (hne : a ≠ b) :
    a.sect ≠ b.sect ∨ a.idx ≠ b.idx := by
  obtain ⟨c, hc, n, hn, rfl⟩ := Geometry.mem_places ha
  obtain ⟨c', hc', m, hm, rfl⟩ := Geometry.mem_places hb
  by_contra hboth
  rw [not_or, not_not, not_not] at hboth
  obtain ⟨hsect, hidx⟩ := hboth
  simp only [Geometry.placeIn] at hsect hidx
  obtain ⟨rfl, hrow⟩ := h.sect_inj (hl c hc) (hl c' hc') (Geometry.row_lt hn) (Geometry.row_lt hm)
    hsect
  have hnm : n = m := by omega
  exact hne (by rw [hnm])

/-- The cluster of a place is that of its sector. -/
theorem Geometry.Laid.sectToClust {g : Geometry} (h : g.Laid) (hl : ∀ c ∈ l, c ∈ g.clusters)
    (ha : a ∈ g.places l) : g.sectToClust a.sect = a.clust := by
  obtain ⟨c, hc, n, hn, rfl⟩ := Geometry.mem_places ha
  have hin := hl c hc
  obtain ⟨hsect, hbound⟩ := h.clustToSect hin
  have hrow := Geometry.row_lt hn
  have hsmall := h.small
  have hcount := h.count
  rw [Geometry.mem_clusters] at hin
  show g.sectToClust (g.clustToSect c + n / 16) = c
  have hdiff : u32 (g.clustToSect c + n / 16 + 2 ^ 32 - g.dataSect)
      = (c - 2) * 2 ^ g.clustShift + n / 16 := by
    unfold u32
    omega
  have hquot : ((c - 2) * 2 ^ g.clustShift + n / 16) / 2 ^ g.clustShift = c - 2 := by
    rw [Nat.add_comm, Nat.add_mul_div_right _ _ (Nat.two_pow_pos _), Nat.div_eq_of_lt hrow,
      Nat.zero_add]
  rw [Geometry.sectToClust, hdiff, Nat.shiftRight_eq_div_pow, hquot]
  unfold u32
  omega

end Clusters

/-! ### `clust_clear` -/

/-- Sectors are filled with zeros. -/
def Plain.wipe (p : Plain) (sect n : Nat) : Plain :=
  { p with sectors := fun i => if sect ≤ i ∧ i < sect + n then fun _ => 0 else p.sectors i }

/-- The disk holds the volume, and the buffer holds zeros, whatever sector it is for. -/
structure Blank (v : Volume) (p : Plain) : Prop where
  geometry : v.fat.toGeometry = p.geometry
  lastUsed : v.fat.lastUsed = p.lastUsed
  freeCnt : v.fat.freeCnt = p.freeCnt
  infoDirty : v.fat.infoDirty = p.infoDirty
  buf : v.fat.buf = fun _ => 0
  synced : Synced v
  disk : ∀ i ≠ 0, v.disk.sectors i = p.sectors i
  faults : v.disk.faults = .never

section Clear
variable {v : Volume} {p : Plain} {sect n clust : Nat} {E : Stop → Volume → Prop}

@[simp] theorem Plain.wipe_geometry (p : Plain) (sect n : Nat) :
    (p.wipe sect n).geometry = p.geometry := rfl

theorem Plain.wipe_inside {i : Nat} (hlow : sect ≤ i) (hhigh : i < sect + n) :
    (p.wipe sect n).sectors i = fun _ => 0 := if_pos ⟨hlow, hhigh⟩

theorem Plain.wipe_outside {i : Nat} (hout : i < sect ∨ sect + n ≤ i) :
    (p.wipe sect n).sectors i = p.sectors i := if_neg (by omega)

/-- One sector more. -/
theorem Plain.wipe_succ (p : Plain) (sect n : Nat) :
    (p.wipe sect 1).wipe (sect + 1) n = p.wipe sect (n + 1) := by
  unfold Plain.wipe
  simp only [Plain.mk.injEq, true_and]
  funext i
  by_cases hfirst : i = sect
  · rw [if_neg (by omega), if_pos (by omega), if_pos (by omega)]
  · by_cases hrest : sect + 1 ≤ i ∧ i < sect + 1 + n
    · rw [if_pos hrest, if_pos (by omega)]
    · rw [if_neg hrest, if_neg (by omega), if_neg (by omega)]

/-- The loop of `clust_clear`. -/
theorem clearSectors_blank (h : Blank v p) (hsect : sect ≠ 0) (hbound : sect + n ≤ 2 ^ 32) :
    Ends (clearSectors n sect) v
      (fun _ v' => Blank v' (p.wipe sect n) ∧ (n ≠ 0 → sect ≤ v'.fat.sect
        ∧ v'.fat.sect < sect + n)) E := by
  induction n generalizing v p sect with
  | zero =>
      refine ⟨⟨h.geometry, h.lastUsed, h.freeCnt, h.infoDirty, h.buf, h.synced, fun i hi => ?_,
        h.faults⟩, fun hne => absurd rfl hne⟩
      rw [Plain.wipe_outside (by omega)]
      exact h.disk i hi
  | succ n ih =>
      simp only [clearSectors, ends_bind, ends_modifyFat, syncBuf, ends_get, if_true, ends_opsWrite]
      have hfault : v.disk.faults.write v.disk.operations = none := by rw [h.faults]; rfl
      rw [hfault]
      simp only [outcome, if_true, ends_modifyFat]
      have hone : Blank
          { v with
            fat := { v.fat with bufDirty := false, sect := sect }
            disk := { v.disk with
              operations := v.disk.operations + 1
              sectors := Function.update v.disk.sectors sect v.fat.buf } } (p.wipe sect 1) := by
        refine ⟨h.geometry, h.lastUsed, h.freeCnt, h.infoDirty, h.buf, rfl, fun i hi => ?_, h.faults⟩
        show Function.update v.disk.sectors sect v.fat.buf i = _
        by_cases hat : i = sect
        · rw [hat, Function.update_self, Plain.wipe_inside (by omega) (by omega), h.buf]
        · rw [Function.update_of_ne hat, Plain.wipe_outside (by omega)]
          exact h.disk i hi
      cases n with
      | zero =>
          rw [Nat.zero_add]
          exact ⟨hone, fun _ => ⟨Nat.le_refl _, Nat.lt_succ_self _⟩⟩
      | succ n =>
          have hnext : u32 (sect + 1) = sect + 1 := Nat.mod_eq_of_lt (by omega)
          rw [hnext]
          refine (ih hone (by omega) (by omega)).mono (fun _ v' hr => ?_) fun _ _ he => he
          rw [Plain.wipe_succ] at hr
          obtain ⟨hlow, hhigh⟩ := hr.2 (by omega)
          exact ⟨hr.1, fun _ => ⟨by omega, by omega⟩⟩

/-- `clust_clear` fills a cluster with zeros. -/
theorem clustClear_shows (h : Quiet v p) (hlaid : p.geometry.Laid)
    (hc : clust ∈ p.geometry.clusters) :
    Ends (clustClear clust) v
      (fun _ v' => Quiet v' (p.wipe (p.geometry.clustToSect clust) (2 ^ p.geometry.clustShift))
        ∧ Synced v') E := by
  obtain ⟨hsect, hbound⟩ := hlaid.clustToSect hc
  have hdata := hlaid.data
  have hactive := hlaid.active
  have hpos := Nat.two_pow_pos p.geometry.clustShift
  simp only [clustClear, ends_bind]
  refine (ends_working (syncBuf_shows h)).mono (fun _ v₁ hr => ?_) fun _ _ he => he
  obtain ⟨hshows, hsynced, -⟩ := hr
  simp only [ends_modifyFat, ends_get]
  have hblank : Blank { v₁ with fat := { v₁.fat with buf := fun _ => 0 } } p :=
    ⟨hshows.geometry, hshows.lastUsed, hshows.freeCnt, hshows.infoDirty, rfl, hsynced,
      fun i hi => hshows.disk hsynced hi, hshows.faults⟩
  have hat : v₁.fat.clustToSect clust = p.geometry.clustToSect clust := by rw [hshows.geometry]
  have hcount : 1 <<< v₁.fat.clustShift = 2 ^ p.geometry.clustShift := by
    rw [Nat.shiftLeft_eq, Nat.one_mul, hshows.geometry]
  rw [hat, hcount]
  have hstart : p.geometry.clustToSect clust ≠ 0 := by omega
  have hend : p.geometry.clustToSect clust + 2 ^ p.geometry.clustShift ≤ 2 ^ 32 := by omega
  refine (clearSectors_blank hblank hstart hend).mono (fun _ v₂ hr => ?_) fun _ _ he => he
  obtain ⟨hend, hat⟩ := hr
  refine ⟨⟨hend.geometry, hend.lastUsed, hend.freeCnt, hend.infoDirty, fun _ => ?_,
    fun i hi _ => hend.disk i hi, fun hdirty => ?_, hend.faults, Faults.atomic_never, trivial,
    trivial⟩, hend.synced⟩
  · obtain ⟨hlow, hhigh⟩ := hat hpos.ne'
    rw [hend.buf, Plain.wipe_inside hlow hhigh]
  · rw [show v₂.fat.bufDirty = false from hend.synced] at hdirty
    cases hdirty

/-- What is in the clusters afterwards. -/
theorem Plain.wipe_cluster (p : Plain) (hlaid : p.geometry.Laid) (hc : clust ∈ p.geometry.clusters) :
    SameClusters p (p.wipe (p.geometry.clustToSect clust) (2 ^ p.geometry.clustShift)) [clust]
    ∧ ∀ n < 2 ^ p.geometry.clustShift,
      (p.wipe (p.geometry.clustToSect clust) (2 ^ p.geometry.clustShift)).cluster clust n
        = fun _ => 0 := by
  refine ⟨⟨Plain.wipe_geometry _ _ _, fun c hc' hne n hn => ?_⟩, fun n hn => ?_⟩
  · rw [Plain.cluster, Plain.cluster, Plain.wipe_geometry, Plain.wipe_outside]
    by_contra hin
    obtain ⟨m, hm⟩ := Nat.exists_eq_add_of_le (show p.geometry.clustToSect clust
      ≤ p.geometry.clustToSect c + n by omega)
    have heq := (hlaid.sect_inj hc' hc hn (m := m) (by omega) hm).1
    exact hne (by rw [heq]; exact List.mem_singleton_self _)
  · rw [Plain.cluster, Plain.wipe_geometry]
    exact Plain.wipe_inside (Nat.le_add_right _ _) (Nat.add_lt_add_left hn _)

end Clear

/-! ### `dir_next_stretch` -/

/-- A directory has been stretched by clusters of zeros. -/
structure Grown (before after : List (List Nat)) (p : Plain) (l new : List Nat) (p' : Plain) :
    Prop where
  sound : p'.Sound (before ++ (l ++ new) :: after)
  same : SameClusters p p' new
  zero : ∀ a ∈ p.geometry.places new, p'.record a = fun _ => 0

/-- What belongs to the callers of the functions that walk through directories. -/
structure Aside (w w' : Walk) : Prop where
  names : w'.names = w.names
  path : w'.path = w.path
  loc : w'.loc = w.loc
  fat : w'.dir.fat = w.dir.fat
  sclust : w'.dir.sclust = w.dir.sclust

section Growth
variable {before after : List (List Nat)} {p p' p'' : Plain} {l new : List Nat} {a : Place}
  {done rest : List Place} {w w' w'' : Walk} {es : List (Entry Place)} {clust last : Nat}

theorem Aside.refl (w : Walk) : Aside w w := ⟨rfl, rfl, rfl, rfl, rfl⟩

theorem Aside.trans (h : Aside w w') (h' : Aside w' w'') : Aside w w'' :=
  ⟨h'.names.trans h.names, h'.path.trans h.path, h'.loc.trans h.loc, h'.fat.trans h.fat,
    h'.sclust.trans h.sclust⟩

/-- Another place in the directory. -/
theorem Aside.place (w : Walk) (dir : Dir) (hfat : dir.fat = w.dir.fat)
    (hsclust : dir.sclust = w.dir.sclust) : Aside w { w with dir := dir } :=
  ⟨rfl, rfl, rfl, hfat, hsclust⟩

theorem Walked.aside (h : Walked p w w') : Aside w w' := ⟨h.names, h.path, h.loc, h.fat, h.sclust⟩

theorem Geometry.places_append (g : Geometry) (l new : List Nat) :
    g.places (l ++ new) = g.places l ++ g.places new := List.flatMap_append

theorem Geometry.places_one (g : Geometry) (c : Nat) : g.places [c] = g.placesIn c :=
  List.flatMap_singleton _ _

/-- A directory of a sound volume. -/
theorem Plain.Sound.inDir (h : p.Sound (before ++ l :: after)) (hlaid : p.geometry.Laid) :
    InDir p l ∧ l.Nodup := by
  have hself : l ∈ before ++ l :: after := List.mem_append_right _ List.mem_cons_self
  exact ⟨⟨hlaid, h.chains.chain l hself, fun c hc =>
    h.chains.inside c (List.mem_flatten_of_mem hself hc)⟩, (List.nodup_flatten.mp h.chains.nodup).1 _ hself⟩

/-- A volume with other contents in the data area. -/
theorem Plain.Sound.congr_data {chains : List (List Nat)} (h : p.Sound chains)
    (hgeo : p'.geometry = p.geometry) (hlast : p'.lastUsed = p.lastUsed)
    (hfree : p'.freeCnt = p.freeCnt)
    (hsect : ∀ i < p.geometry.dataSect, p'.sectors i = p.sectors i) : p'.Sound chains := by
  have hinfo : p.geometry.infoSect < p.geometry.dataSect := by
    have hactive := h.valid.active
    have hdata := h.valid.data
    omega
  have hsame : Plain.SameBut (Plain.OffTable p.geometry) p p' :=
    ⟨hgeo, fun i hi => hsect i (by unfold Plain.OffTable at hi; omega)⟩
  refine ⟨by rw [hgeo]; exact h.valid, by rw [hgeo, hlast]; exact h.cursor, ?_,
    hsame.mirrored h.valid h.mirrored, ?_, ?_⟩
  · rw [hgeo]
    exact h.chains.congr fun k hk => hsame.cell h.valid (Geometry.mem_clusters.mp hk).2
  · rw [hgeo, hlast, hsect _ hinfo]
    exact h.informed.nextFree
  · rw [hgeo, hfree, hsect _ hinfo]
    exact h.informed.freeCnt

theorem Plain.Sound.wipe {chains : List (List Nat)} {sect n : Nat} (h : p.Sound chains)
    (hsect : p.geometry.dataSect ≤ sect) : (p.wipe sect n).Sound chains := by
  refine h.congr_data (Plain.wipe_geometry _ _ _) rfl rfl fun i hi => Plain.wipe_outside (.inl ?_)
  exact Nat.lt_of_lt_of_le hi hsect

theorem Grown.refl (h : p.Sound (before ++ l :: after)) : Grown before after p l [] p := by
  refine ⟨?_, SameClusters.refl p [], fun a ha => by cases ha⟩
  rwa [List.append_nil]

theorem Grown.mark (h : Grown before after p l new p') : Grown before after p l new p'.mark :=
  ⟨h.sound.mark, ⟨h.same.geometry, h.same.same⟩, h.zero⟩

/-- The new clusters belong to nobody else. -/
theorem Grown.apart (h : Grown before after p l new p') :
    ∀ c ∈ new, c ∉ l ∧ c ∉ (before ++ after).flatten := by
  have hnodup := h.sound.chains.nodup
  intro c hc
  simp only [List.flatten_append, List.flatten_cons, List.append_assoc, List.nodup_append',
    List.disjoint_left, List.mem_append] at hnodup ⊢
  grind

/-- The records of the directory stay. -/
theorem Grown.record (h : Grown before after p l new p') (hlaid : p.geometry.Laid)
    (ha : a ∈ p.geometry.places l) : p'.record a = p.record a := by
  have hin := (h.sound.inDir (by rw [h.same.geometry]; exact hlaid)).1.inside
  refine h.same.record (fun c hc => ⟨?_, fun hnew => (h.apart c hnew).1 hc⟩) ha
  rw [← h.same.geometry]
  exact hin c (List.mem_append_left _ hc)

/-- The directory lists the same entries. -/
theorem Grown.directory (h : Grown before after p l new p') (hlaid : p.geometry.Laid)
    (hdir : Directory p.record (p.geometry.places l) es) :
    Directory p'.record (p.geometry.places (l ++ new)) es := by
  obtain ⟨used, rest, heq, hentries, hlast⟩ := hdir
  have hold : ∀ k ∈ used ++ rest, p'.record k = p.record k := fun k hk =>
    h.record hlaid (heq ▸ hk)
  refine ⟨used, rest ++ p.geometry.places new, ?_, ?_, fun k hk => ?_⟩
  · rw [Geometry.places_append, heq, List.append_assoc]
  · exact hentries.congr fun k hk => hold k (List.mem_append_left _ hk)
  · cases rest with
    | nil =>
        rw [h.zero k (List.mem_of_mem_head? hk)]
        exact sfnIsLast_zero
    | cons b rest =>
        obtain rfl := Option.some.inj hk
        rw [hold b (List.mem_append_right _ List.mem_cons_self)]
        exact hlast b rfl

/-- A cluster of zeros behind the last one. -/
theorem Grown.append {q : Plain} (hlaid : p.geometry.Laid)
    (hc : clust ∈ p.geometry.clusters) (hq : q.Sound (before ++ (l ++ [clust]) :: after))
    (hgeo : q.geometry = p.geometry)
    (hdata : ∀ i, p.geometry.dataSect ≤ i → q.sectors i = p.sectors i) :
    Grown before after p l [clust]
      (q.wipe (q.geometry.clustToSect clust) (2 ^ q.geometry.clustShift)) := by
  have hqlaid : q.geometry.Laid := by rw [hgeo]; exact hlaid
  have hqc : clust ∈ q.geometry.clusters := by rw [hgeo]; exact hc
  obtain ⟨hsame, hzero⟩ := q.wipe_cluster hqlaid hqc
  have hkept : SameClusters p q [clust] := by
    refine ⟨hgeo, fun c hc' _ n hn => ?_⟩
    rw [Plain.cluster, Plain.cluster, hgeo]
    exact hdata _ (by have := (hlaid.clustToSect hc').1; omega)
  refine ⟨?_, hkept.trans hsame, fun a ha => ?_⟩
  · refine hq.wipe ?_
    have := (hqlaid.clustToSect hqc).1
    omega
  · obtain ⟨c, hc', n, hn, rfl⟩ := Geometry.mem_places ha
    obtain rfl := List.mem_singleton.mp hc'
    rw [← hgeo] at hn ⊢
    exact Plain.record_zero (Plain.wipe_geometry _ _ _) (hzero _ (Geometry.row_lt hn))

/-- First some clusters, and then more. -/
theorem Grown.trans {new' : List Nat} (h : Grown before after p l new p')
    (h' : Grown before after p' (l ++ new) new' p'') (hlaid : p.geometry.Laid) :
    Grown before after p l (new ++ new') p'' := by
  have hgeo := h.same.geometry
  refine ⟨?_, (h.same.mono fun c hc => List.mem_append_left _ hc).trans
    (h'.same.mono fun c hc => List.mem_append_right _ hc), fun a ha => ?_⟩
  · rw [← List.append_assoc]
    exact h'.sound
  · rw [Geometry.places_append] at ha
    rcases List.mem_append.mp ha with ha | ha
    · have hold : a ∈ p'.geometry.places (l ++ new) := by
        rw [hgeo, Geometry.places_append]
        exact List.mem_append_right _ ha
      rw [h'.record (by rw [hgeo]; exact hlaid) hold]
      exact h.zero a ha
    · exact h'.zero a (by rw [hgeo]; exact ha)

/-- The last place lies in the last cluster. -/
theorem Geometry.last_cluster {g : Geometry} (h : g.places l = done ++ [a]) :
    ∃ front, l = front ++ [a.clust] := by
  have hne : l ≠ [] := by
    rintro rfl
    simp [Geometry.places] at h
  obtain ⟨front, c, rfl⟩ : ∃ front c, l = front ++ [c] :=
    ⟨l.dropLast, l.getLast hne, (List.dropLast_append_getLast hne).symm⟩
  have hsome : g.placesIn c ≠ [] := by
    obtain ⟨rest, hrest⟩ := g.placesIn_cons c
    rw [hrest]
    exact List.cons_ne_nil _ _
  rw [Geometry.places_append, Geometry.places_one] at h
  have hlast := congrArg List.getLast? h
  rw [List.getLast?_append_of_ne_nil _ hsome, List.getLast?_concat] at hlast
  obtain ⟨n, -, hn⟩ := List.mem_map.mp (List.mem_of_getLast? hlast)
  exact ⟨front, by rw [← hn]; rfl⟩

/-- `dir_next_stretch` goes to the next place, and makes one where there is none. -/
theorem dirNextStretch_shows (h : Quiet w.volume p') (hgrown : Grown before after p l new p')
    (hlaid : p.geometry.Laid) (hplaces : p.geometry.places (l ++ new) = done ++ a :: rest)
    (hat : w.dir.place = a) :
    Ends dirNextStretch w
      (fun _ w' => ∃ p'' new', Quiet w'.volume p'' ∧ Grown before after p l new' p''
        ∧ (∀ b ∈ p.geometry.places (l ++ new), p''.record b = p'.record b)
        ∧ (∃ rest', p.geometry.places (l ++ new') = done ++ a :: w'.dir.place :: rest')
        ∧ Aside w w')
      fun e w' => e = .error .full ∧ (∃ p'', Quiet w'.volume p'' ∧ Grown before after p l new p'')
        ∧ Aside w w' := by
  have hgeo := hgrown.same.geometry
  have hlaid' : p'.geometry.Laid := by rw [hgeo]; exact hlaid
  obtain ⟨hd, hnodup⟩ := hgrown.sound.inDir hlaid'
  have hplaces' : p'.geometry.places (l ++ new) = done ++ a :: rest := by rw [hgeo]; exact hplaces
  simp only [dirNextStretch, ends_handle]
  refine (hd.next h hplaces' hat).mono (fun _ w' hr => ?_) fun e w' he => ?_
  · obtain ⟨⟨rest', rfl⟩, hwalked⟩ := hr
    exact ⟨p', new, hwalked.shows, hgrown, fun _ _ => rfl, ⟨rest', hplaces⟩, hwalked.aside⟩
  · obtain ⟨rfl, rfl, hwalked, hclust⟩ := he
    simp only [ends_bind, ends_get, ends_onVolume, ne_eq, not_true_eq_false, if_false]
    obtain ⟨front, hlast⟩ := Geometry.last_cluster hplaces
    have hin : a.clust ∈ p'.geometry.clusters := hd.inside _ (by rw [hlast]; simp)
    have hsound := hgrown.sound
    rw [hlast] at hsound
    rw [hclust]
    refine (stretchChain_shows hwalked.shows hlaid'.toValid hgrown.sound.cursor
      hgrown.sound.legible (fun _ => hin) fun _ _ _ _ _ => trivial).mono (fun clust v₁ hr => ?_)
      fun e v₁ he => ?_
    · obtain ⟨hshows, -, hc, hfree, -⟩ := hr
      have hqgeo : (p'.allocate a.clust clust).geometry = p'.geometry :=
        Plain.allocate_geometry a.clust clust
      have hnext : (l ++ new) ++ [clust] = front ++ [a.clust, clust] := by
        rw [hlast, List.append_assoc]
        rfl
      have hone := Grown.append hlaid' hc (hnext ▸ hsound.stretch hc hfree) hqgeo
        fun i hi => Plain.allocate_data hlaid'.toValid hc (fun _ => hin) hi
      have hplace : p'.geometry.placeIn clust 0 = ⟨clust, v₁.fat.clustToSect clust, 0⟩ := by
        rw [Geometry.placeIn_zero, hshows.geometry, hqgeo]
      obtain ⟨rest', hrest⟩ := p.geometry.placesIn_cons clust
      simp only [dirAtClust, ends_bind, ends_get, ends_modifyDir]
      refine (clustClear_shows hshows (by rw [hqgeo]; exact hlaid') (by rw [hqgeo]; exact hc)).mono
        (fun _ v₂ hr => ?_) fun _ _ he => he
      refine ⟨_, _, hr.1, hgrown.trans hone hlaid, fun b hb => ?_, ⟨rest', ?_⟩,
        hwalked.aside.trans ⟨rfl, rfl, rfl, rfl, rfl⟩⟩
      · exact hone.record hlaid' (by rw [hgeo]; exact hb)
      · show _ = done ++ a :: ⟨clust, v₁.fat.clustToSect clust, 0⟩ :: rest'
        rw [← hplace, hgeo, ← List.append_assoc, Geometry.places_append, hplaces, Geometry.places_one,
          hrest]
        simp
    · rcases he with hstopped | ⟨⟨hshows, -⟩, rfl, -⟩
      · exact absurd rfl hstopped.faulty
      · exact ⟨rfl, ⟨_, hshows, hgrown.mark⟩, hwalked.aside.trans ⟨rfl, rfl, rfl, rfl, rfl⟩⟩

end Growth

end DemoOS.Fat32
