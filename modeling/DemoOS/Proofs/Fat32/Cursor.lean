import DemoOS.Libs.Fat32.Directory
import DemoOS.Proofs.Fat32.Removal

/-!
# `DemoOS.Proofs.Fat32.Cursor`: the places of a directory

`dir_next` goes from one place of a directory to the next one. The places are the blocks of a
chain again: `Geometry.step` is its table, and `isChain_places` says that the chain of the clusters
becomes a chain of places.

`dir_next` looks for a new cluster where the number of the sector is a multiple of the size of a
cluster. Of each cluster it visits `Geometry.rows` sectors: all of them where the data area begins
at such a number.
-/

set_option autoImplicit false

namespace DemoOS.Fat32

open Support

/-- A place in a directory. -/
structure Place where
  clust : Nat
  sect : Nat
  idx : Nat
deriving DecidableEq, Repr

def Dir.place (dir : Dir) : Place := ⟨dir.clust, dir.sect, dir.idx⟩

namespace Geometry

/-- What is asked of a volume beside `Valid`: the clusters are a power of two of sectors, and the
sectors have numbers. -/
structure Laid (g : Geometry) : Prop extends g.Valid where
  shift : g.clustShift ≤ 7
  msk : g.clustMsk + 1 = 2 ^ g.clustShift
  area : g.dataSect + (g.clustCnt - 2) * 2 ^ g.clustShift ≤ 2 ^ 32

variable (g : Geometry)

/-- The sectors of a cluster that a directory uses. -/
def rows : Nat := 2 ^ g.clustShift - g.dataSect % 2 ^ g.clustShift

/-- The `n`-th place in a cluster. -/
def placeIn (clust n : Nat) : Place := ⟨clust, g.clustToSect clust + n / 16, 32 * (n % 16)⟩

/-- The places in a cluster. -/
def placesIn (clust : Nat) : List Place := (List.range (16 * g.rows)).map (g.placeIn clust)

/-- The places in the clusters of a chain. -/
def places (l : List Nat) : List Place := l.flatMap g.placesIn

/-- What `dir_next` does at a place. -/
def step (t : Nat → Cell Nat) (a : Place) : Cell Place :=
  if a.idx + 32 < 512 then .next { a with idx := a.idx + 32 }
  else if u32 (a.sect + 1) &&& g.clustMsk ≠ 0 then .next { a with sect := u32 (a.sect + 1), idx := 0 }
  else match t a.clust with
    | .next next => .next ⟨next, g.clustToSect next, 0⟩
    | .last => .last
    | .free => .free
    | .bad => .bad
    | .broken => .broken

variable {g} {clust n : Nat} {t : Nat → Cell Nat} {l : List Nat}

theorem placeIn_zero (clust : Nat) : g.placeIn clust 0 = ⟨clust, g.clustToSect clust, 0⟩ := by
  rw [placeIn, Nat.zero_div, Nat.add_zero, Nat.zero_mod, Nat.mul_zero]

/-- The places in a cluster begin with the first one. -/
theorem placesIn_cons (g : Geometry) (clust : Nat) :
    ∃ rest, g.placesIn clust = g.placeIn clust 0 :: rest := by
  obtain ⟨m, hm⟩ : ∃ m, 16 * g.rows = m + 1 :=
    ⟨16 * g.rows - 1, by have := Nat.mod_lt g.dataSect (Nat.two_pow_pos g.clustShift); unfold rows; omega⟩
  exact ⟨((List.range m).map Nat.succ).map (g.placeIn clust), by
    rw [placesIn, hm, List.range_succ_eq_map, List.map_cons]⟩

theorem Laid.clustToSect (h : g.Laid) (hc : clust ∈ g.clusters) :
    g.clustToSect clust = (clust - 2) * 2 ^ g.clustShift + g.dataSect
      ∧ (clust - 2) * 2 ^ g.clustShift + g.dataSect + 2 ^ g.clustShift ≤ 2 ^ 32 := by
  have hcount := h.count
  have harea := h.area
  rw [mem_clusters] at hc
  have hmul : (clust - 2) * 2 ^ g.clustShift + 2 ^ g.clustShift
      ≤ (g.clustCnt - 2) * 2 ^ g.clustShift := by
    rw [← Nat.succ_mul]
    exact Nat.mul_le_mul_right _ (by omega)
  have hpos : 0 < 2 ^ g.clustShift := Nat.two_pow_pos _
  have hsub : u32 (clust + 2 ^ 32 - 2) = clust - 2 := by
    unfold u32
    omega
  refine ⟨?_, by omega⟩
  rw [Geometry.clustToSect, hsub, Nat.shiftLeft_eq]
  exact Nat.mod_eq_of_lt (by omega)

theorem rows_pos (g : Geometry) : 0 < g.rows := by
  have hlt := Nat.mod_lt g.dataSect (Nat.two_pow_pos g.clustShift)
  unfold rows
  omega

theorem rows_le (g : Geometry) : g.rows ≤ 2 ^ g.clustShift := Nat.sub_le _ _

/-- A directory uses whole clusters exactly where the data area is aligned. -/
theorem rows_eq_iff (g : Geometry) :
    g.rows = 2 ^ g.clustShift ↔ g.dataSect % 2 ^ g.clustShift = 0 := by
  have hlt := Nat.mod_lt g.dataSect (Nat.two_pow_pos g.clustShift)
  unfold rows
  omega

/-- The sector behind row `n` of a cluster. -/
theorem Laid.next_sect (h : g.Laid) (hc : clust ∈ g.clusters) (hn : n < g.rows) :
    u32 (g.clustToSect clust + n + 1) &&& g.clustMsk = 0 ↔ n + 1 = g.rows := by
  obtain ⟨hsect, hbound⟩ := h.clustToSect hc
  have hmsk : g.clustMsk = 2 ^ g.clustShift - 1 := by
    have := h.msk
    omega
  have hlt := Nat.mod_lt g.dataSect (Nat.two_pow_pos g.clustShift)
  have hdvd : 2 ^ g.clustShift ∣ 2 ^ 32 := Nat.pow_dvd_pow 2 (by have := h.shift; omega)
  rw [hmsk, Nat.and_two_pow_sub_one_eq_mod, hsect, u32, Nat.mod_mod_of_dvd _ hdvd]
  have hmod : ((clust - 2) * 2 ^ g.clustShift + g.dataSect + n + 1) % 2 ^ g.clustShift
      = (g.dataSect % 2 ^ g.clustShift + (n + 1)) % 2 ^ g.clustShift := by
    rw [Nat.add_assoc, Nat.add_assoc, Nat.mul_add_mod', Nat.mod_add_mod]
  unfold rows at hn ⊢
  rw [hmod]
  constructor
  · intro hzero
    by_contra hne
    rw [Nat.mod_eq_of_lt (by omega)] at hzero
    omega
  · intro heq
    have hsum : g.dataSect % 2 ^ g.clustShift + (n + 1) = 2 ^ g.clustShift := by omega
    rw [hsum, Nat.mod_self]

/-- The sector of a place. -/
theorem Laid.placeIn_sect (h : g.Laid) (hc : clust ∈ g.clusters) (hn : n < 16 * g.rows) :
    g.dataSect ≤ (g.placeIn clust n).sect ∧ (g.placeIn clust n).sect < 2 ^ 32 := by
  obtain ⟨hsect, hbound⟩ := h.clustToSect hc
  have hrows := g.rows_le
  show g.dataSect ≤ g.clustToSect clust + n / 16 ∧ g.clustToSect clust + n / 16 < 2 ^ 32
  omega

/-- Inside a cluster `dir_next` goes on by one place. -/
theorem Laid.step_placeIn (h : g.Laid) (hc : clust ∈ g.clusters) (hn : n + 1 < 16 * g.rows) :
    g.step t (g.placeIn clust n) = .next (g.placeIn clust (n + 1)) := by
  obtain ⟨hsect, hbound⟩ := h.clustToSect hc
  have hrows := g.rows_le
  unfold step placeIn
  by_cases hidx : 32 * (n % 16) + 32 < 512
  · rw [if_pos hidx]
    have hdiv : (n + 1) / 16 = n / 16 := by omega
    have hmod : 32 * ((n + 1) % 16) = 32 * (n % 16) + 32 := by omega
    rw [hdiv, hmod]
  · have hrow : n / 16 < g.rows := by omega
    have hin : ¬ u32 (g.clustToSect clust + n / 16 + 1) &&& g.clustMsk = 0 := by
      rw [h.next_sect hc hrow]
      omega
    have hu : u32 (g.clustToSect clust + n / 16 + 1) = g.clustToSect clust + (n + 1) / 16 := by
      unfold u32
      omega
    have hmod : 32 * ((n + 1) % 16) = 0 := by omega
    rw [if_neg hidx, if_pos hin, hu, hmod]

/-- Behind the last place of a cluster `dir_next` follows the chain. -/
theorem Laid.step_last (h : g.Laid) (hc : clust ∈ g.clusters) (hn : n + 1 = 16 * g.rows) :
    g.step t (g.placeIn clust n) = match t clust with
      | .next next => .next (g.placeIn next 0)
      | .last => .last
      | .free => .free
      | .bad => .bad
      | .broken => .broken := by
  have hrow : n / 16 < g.rows := by omega
  have hout : u32 (g.clustToSect clust + n / 16 + 1) &&& g.clustMsk = 0 := by
    rw [h.next_sect hc hrow]
    omega
  have hidx : ¬ 32 * (n % 16) + 32 < 512 := by omega
  simp only [placeIn_zero]
  unfold step placeIn
  rw [if_neg hidx, if_neg (not_not.mpr hout)]

/-- The places of a chain are a chain. -/
theorem Laid.isChain_places (h : g.Laid) (hchain : IsChain t l) (hl : ∀ c ∈ l, c ∈ g.clusters) :
    IsChain (g.step t) (g.places l) := by
  obtain ⟨m, hm⟩ : ∃ m, 16 * g.rows = m + 1 :=
    ⟨16 * g.rows - 1, by have := g.rows_pos; omega⟩
  have hplaces : ∀ c, g.placesIn c = (List.range (m + 1)).map (g.placeIn c) := fun c => by
    rw [placesIn, hm]
  induction l with
  | nil => exact hchain
  | cons c l ih =>
      have hc := hl c List.mem_cons_self
      have hinner : ∀ i < m, g.step t (g.placeIn c i) = .next (g.placeIn c (i + 1)) :=
        fun i hi => h.step_placeIn hc (by omega)
      have hlast := h.step_last (t := t) hc hm.symm
      show IsChain (g.step t) (g.placesIn c ++ g.places l)
      rw [hplaces]
      refine IsChain.numbered hinner ?_
      rcases hchain.head with ⟨rfl, hend⟩ | ⟨next, l', rfl, hnext, hrest⟩
      · rw [hend] at hlast
        exact hlast
      · rw [hnext] at hlast
        have htail := ih hrest fun c' hc' => hl c' (List.mem_cons_of_mem c hc')
        have hfront : g.places (next :: l')
            = g.placeIn next 0 :: (((List.range m).map Nat.succ).map (g.placeIn next)
              ++ g.places l') := by
          show g.placesIn next ++ g.places l' = _
          rw [hplaces, List.range_succ_eq_map]
          rfl
        rw [hfront] at htail ⊢
        exact ⟨hlast, htail⟩

theorem mem_places {a : Place} (ha : a ∈ g.places l) :
    ∃ c ∈ l, ∃ n < 16 * g.rows, a = g.placeIn c n := by
  obtain ⟨c, hc, ha⟩ := List.mem_flatMap.mp ha
  obtain ⟨n, hn, rfl⟩ := List.mem_map.mp ha
  exact ⟨c, hc, n, List.mem_range.mp hn, rfl⟩

end Geometry

/-! ### `dir_next` -/

/-- A volume on a disk that works. -/
abbrev Quiet (v : Volume) (p : Plain) : Prop := Shows .never .any v p

/-- What reading a directory leaves. -/
structure Moved (p : Plain) (w w' : Walk) : Prop where
  shows : Quiet w'.volume p
  synced : Synced w.volume → Synced w'.volume
  path : w'.path = w.path
  fat : w'.dir.fat = w.dir.fat
  sclust : w'.dir.sclust = w.dir.sclust

/-- What walking through a directory leaves, apart from the place. -/
structure Walked (p : Plain) (w w' : Walk) : Prop extends Moved p w w' where
  names : w'.names = w.names
  loc : w'.loc = w.loc

section Next
variable {w w' w'' : Walk} {p : Plain} {E : Stop → Walk → Prop}

theorem Moved.refl (h : Quiet w.volume p) : Moved p w w := ⟨h, id, rfl, rfl, rfl⟩

theorem Moved.trans (h : Moved p w w') (h' : Moved p w' w'') : Moved p w w'' :=
  ⟨h'.shows, h'.synced ∘ h.synced, h'.path.trans h.path, h'.fat.trans h.fat,
    h'.sclust.trans h.sclust⟩

theorem Walked.trans (h : Walked p w w') (h' : Walked p w' w'') : Walked p w w'' :=
  ⟨h.toMoved.trans h'.toMoved, h'.names.trans h.names, h'.loc.trans h.loc⟩

@[simp] theorem ends_onVolume {α : Type} {Q : α → Walk → Prop} (c : FatM α) :
    Ends (onVolume c) w Q E ↔ Ends c w.volume (fun a volume => Q a { w with volume := volume })
      fun e volume => E e { w with volume := volume } := ends_within

@[simp] theorem ends_modifyDir {Q : PUnit → Walk → Prop} (f : Dir → Dir) :
    Ends (modifyDir f) w Q E ↔ Q ⟨⟩ { w with dir := f w.dir } := Iff.rfl

@[simp] theorem ends_modifyNames {Q : PUnit → Walk → Prop} (f : Names → Names) :
    Ends (modifyNames f) w Q E ↔ Q ⟨⟩ { w with names := f w.names } := Iff.rfl

/-- `dir_next` goes to the place that follows, or says that there is none. -/
theorem dirNext_shows (h : Quiet w.volume p) (hg : p.geometry.Valid)
    (hc : w.dir.clust ∈ p.geometry.clusters)
    (hstep : p.geometry.step p.cell w.dir.place = .last
      ∨ ∃ b, p.geometry.step p.cell w.dir.place = .next b) :
    Ends dirNext w
      (fun _ w' => p.geometry.step p.cell w.dir.place = .next w'.dir.place ∧ Walked p w w')
      fun e w' => p.geometry.step p.cell w.dir.place = .last ∧ e = .error .eof ∧ Walked p w w'
        ∧ w'.dir.clust = w.dir.clust := by
  have hgeo : w.volume.fat.toGeometry = p.geometry := h.geometry
  simp only [dirNext, ends_bind, ends_get, ends_modifyDir, ends_ite, ends_pure, ends_onVolume,
    ends_throw]
  rw [hgeo]
  split
  · next hidx =>
      refine ⟨?_, ⟨h, id, rfl, rfl, rfl⟩, rfl, rfl⟩
      unfold Geometry.step
      exact if_pos hidx
  · next hidx =>
      have hunfold : p.geometry.step p.cell w.dir.place
          = if u32 (w.dir.sect + 1) &&& p.geometry.clustMsk ≠ 0 then
              .next ⟨w.dir.clust, u32 (w.dir.sect + 1), 0⟩
            else match p.cell w.dir.clust with
              | .next next => .next ⟨next, p.geometry.clustToSect next, 0⟩
              | .last => .last
              | .free => .free
              | .bad => .bad
              | .broken => .broken := by
        unfold Geometry.step
        exact if_neg hidx
      split
      · next hin =>
          refine ⟨?_, ⟨h, id, rfl, rfl, rfl⟩, rfl, rfl⟩
          rw [hunfold, if_pos hin]
          rfl
      · next hout =>
          rw [if_neg hout] at hunfold
          have hcell : p.cell w.dir.clust = .last ∨ ∃ next, p.cell w.dir.clust = .next next := by
            rw [hunfold] at hstep
            cases hcl : p.cell w.dir.clust with
            | last => exact .inl rfl
            | next next => exact .inr ⟨next, rfl⟩
            | free => simp [hcl] at hstep
            | bad => simp [hcl] at hstep
            | broken => simp [hcl] at hstep
          have hlegible : p.cell w.dir.clust ≠ .broken := by
            rcases hcell with hlast | ⟨next, hnext⟩
            · simp [hlast]
            · simp [hnext]
          refine (ends_working (getFat_cell h hg hc hlegible)).mono (fun r v' hr => ?_)
            fun _ _ he => he
          obtain ⟨⟨hshows, hsynced⟩, hread⟩ := hr
          obtain ⟨val, flags⟩ := r
          rcases hcell with hlast | ⟨next, hnext⟩
          · rw [hlast] at hread hunfold
            cases flags with
            | usedLast =>
                exact ⟨hunfold, trivial, ⟨⟨hshows, hsynced, rfl, rfl, rfl⟩, rfl, rfl⟩, trivial⟩
            | free => cases hread
            | used => cases hread
            | bad => cases hread
          · rw [hnext] at hread hunfold
            cases flags with
            | used =>
                cases hread
                simp only [dirAtClust, ends_bind, ends_get, ends_modifyDir, reduceCtorEq, or_self,
                  if_false]
                refine ⟨?_, ⟨hshows, hsynced, rfl, rfl, rfl⟩, rfl, rfl⟩
                rw [hunfold, hshows.geometry]
                rfl
            | free => cases hread
            | usedLast => cases hread
            | bad => cases hread

/-- The clusters of a directory. -/
structure InDir (p : Plain) (l : List Nat) : Prop where
  laid : p.geometry.Laid
  chain : IsChain p.cell l
  inside : ∀ c ∈ l, c ∈ p.geometry.clusters

variable {l : List Nat} {a : Place} {done rest : List Place}

theorem InDir.steps (h : InDir p l) (hplaces : p.geometry.places l = done ++ a :: rest) :
    IsChain (p.geometry.step p.cell) (a :: rest) := by
  have hchain := h.laid.isChain_places h.chain h.inside
  rw [hplaces] at hchain
  exact hchain.suffix (List.cons_ne_nil a rest)

theorem InDir.place (h : InDir p l) (ha : a ∈ p.geometry.places l) :
    a.clust ∈ p.geometry.clusters ∧ p.geometry.dataSect ≤ a.sect ∧ a.sect ≠ 0 := by
  obtain ⟨c, hc, n, hn, rfl⟩ := Geometry.mem_places ha
  have hin := h.inside c hc
  have hsect := h.laid.placeIn_sect hin hn
  have hactive := h.laid.active
  have hdata := h.laid.data
  exact ⟨hin, hsect.1, by omega⟩

/-- `dir_next` in a directory. -/
theorem InDir.next (hd : InDir p l) (h : Quiet w.volume p)
    (hplaces : p.geometry.places l = done ++ a :: rest) (hat : w.dir.place = a) :
    Ends dirNext w (fun _ w' => (∃ rest', rest = w'.dir.place :: rest') ∧ Walked p w w')
      fun e w' => rest = [] ∧ e = .error .eof ∧ Walked p w w' ∧ w'.dir.clust = a.clust := by
  have ha := hd.place (a := a) (by rw [hplaces]; simp)
  have hsteps := hd.steps hplaces
  subst hat
  refine (dirNext_shows h hd.laid.toValid ha.1 (hsteps.used List.mem_cons_self)).mono
    (fun _ w' hr => ?_) fun e w' he => ?_
  · rcases hsteps.head with ⟨-, hlast⟩ | ⟨b, rest', rfl, hnext, -⟩
    · rw [hlast] at hr
      cases hr.1
    · rw [hnext] at hr
      exact ⟨⟨rest', by rw [← Cell.next.inj hr.1]⟩, hr.2⟩
  · rcases hsteps.head with ⟨rfl, -⟩ | ⟨b, rest', -, hnext, -⟩
    · exact ⟨rfl, he.2⟩
    · rw [hnext] at he
      cases he.1

/-! ### The entry at a place -/

/-- The entry at a place. -/
def Plain.record (p : Plain) (a : Place) : Record := recordAt (p.sectors a.sect) a.idx

/-- The sector of the place is in the buffer. -/
def Loaded (w : Walk) : Prop := w.volume.fat.sect = w.dir.sect

/-- `update_buf` at a place of a directory. -/
theorem InDir.update (hd : InDir p l) (h : Quiet w.volume p) (ha : w.dir.place ∈ p.geometry.places l) :
    Ends dirUpdate w (fun _ w' => Walked p w w' ∧ w'.dir = w.dir ∧ Loaded w') E := by
  simp only [dirUpdate, ends_bind, ends_get, ends_onVolume]
  refine (ends_working (updateBuf_shows h (hd.place ha).2.2)).mono (fun _ v' hr => ?_)
    fun _ _ he => he
  exact ⟨⟨⟨hr.1, hr.2.2, rfl, rfl, rfl⟩, rfl, rfl⟩, trivial, hr.2.1⟩

/-- `dir_ptr` points to the entry at the place. -/
theorem InDir.ptr (hd : InDir p l) (h : Quiet w.volume p) (ha : w.dir.place ∈ p.geometry.places l)
    (hloaded : Loaded w) {Q : Record → Walk → Prop} :
    Ends dirPtr w Q E ↔ Q (p.record w.dir.place) w := by
  have hbuf : w.volume.fat.buf = p.sectors w.dir.sect := by
    rw [h.buffered (hloaded.trans_ne (hd.place ha).2.2), hloaded]
  simp only [dirPtr, ends_bind, ends_get, ends_pure, hbuf]
  rfl

end Next

end DemoOS.Fat32
