import DemoOS.Proofs.Fat32.DirRuns

/-!
# `DemoOS.Proofs.Fat32.DirWalk`: a directory is walked through

`dirAdvance_places`: `dir_enter` and `dir_next` come to every place of a directory once, in the
order of `Geometry.places`. On a volume whose data area is not aligned these are not all entries of
its clusters, and what stands in the sectors that are left out is never seen.
-/

set_option autoImplicit false

namespace DemoOS.Fat32

open Support

section Advance
variable {w : Walk} {p : Plain} {before after : List (List Nat)} {l : List Nat} {clust : Nat}
  {done rest : List Place}

/-- `dir_advance` in a directory. -/
theorem InDir.advance (hd : InDir p l) (h : Quiet w.volume p)
    (hplaces : p.geometry.places l = done ++ w.dir.place :: rest) (n : Nat) :
    Ends (dirAdvance n) w
      (fun _ w' => (w.dir.place :: rest)[n]? = some w'.dir.place ∧ Walked p w w')
      fun e w' => e = .error .eof ∧ rest.length < n ∧ Walked p w w' := by
  -- By induction on the steps: each takes the place in front of the rest into what is done.
  induction n generalizing w done rest with
  | zero => exact ⟨rfl, Moved.refl h, rfl, rfl⟩
  | succ n ih =>
      simp only [dirAdvance, ends_bind]
      refine (hd.next h hplaces rfl).mono (fun _ w₁ hr => ?_) fun e w₁ he => ?_
      · obtain ⟨⟨rest, rfl⟩, hwalked⟩ := hr
        have hplaces₁ : p.geometry.places l = (done ++ [w.dir.place]) ++ w₁.dir.place :: rest := by
          rw [hplaces, List.append_assoc]
          rfl
        refine (ih hwalked.shows hplaces₁).mono (fun _ w₂ hr₂ => ?_) fun e w₂ he => ?_
        · exact ⟨hr₂.1, hwalked.trans hr₂.2⟩
        · exact ⟨he.1, Nat.succ_lt_succ he.2.1, hwalked.trans he.2.2⟩
      · obtain ⟨rfl, heof, hwalked, -⟩ := he
        exact ⟨heof, Nat.succ_pos n, hwalked⟩

/-- The sectors of the clusters are all walked through exactly where the data area is aligned. -/
theorem Geometry.places_cover (g : Geometry) (hne : l ≠ []) :
    (∀ c ∈ l, ∀ s < 2 ^ g.clustShift, ∀ i < 16,
        (⟨c, g.clustToSect c + s, 32 * i⟩ : Place) ∈ g.places l)
      ↔ g.dataSect % 2 ^ g.clustShift = 0 := by
  rw [← g.rows_eq_iff]
  constructor
  · intro hall
    obtain ⟨c, l, rfl⟩ := List.exists_cons_of_ne_nil hne
    have hpos := Nat.two_pow_pos g.clustShift
    have hlast := hall c List.mem_cons_self (2 ^ g.clustShift - 1) (by omega) 0 (by omega)
    -- The last row is one of the places, so none is left out.
    obtain ⟨c', -, n, hn, heq⟩ := Geometry.mem_places hlast
    have hclust : c = c' := congrArg Place.clust heq
    have hsect : g.clustToSect c + (2 ^ g.clustShift - 1) = g.clustToSect c' + n / 16 :=
      congrArg Place.sect heq
    rw [hclust] at hsect
    have hle := g.rows_le
    omega
  · intro hrows c hc s hs i hi
    refine List.mem_flatMap.mpr ⟨c, hc, List.mem_map.mpr ⟨16 * s + i, ?_, ?_⟩⟩
    · rw [List.mem_range, hrows]
      omega
    · have hdiv : (16 * s + i) / 16 = s := by omega
      have hmod : (16 * s + i) % 16 = i := by omega
      rw [Geometry.placeIn, hdiv, hmod]

/-- `dir_enter` and `dir_next` visit the places of a directory, one after the other and each once,
and then say that it ends. These are all entries of its clusters exactly where the number of the
first data sector is a multiple of the size of a cluster. -/
theorem dirAdvance_places (h : Quiet w.volume p) (hsound : p.Sound (before ++ (clust :: l) :: after))
    (hlaid : p.geometry.Laid) :
    (∀ n, Ends (dirEnter clust >>= fun _ => dirAdvance n) w
        (fun _ w' => (p.geometry.places (clust :: l))[n]? = some w'.dir.place ∧ Quiet w'.volume p)
        fun e w' => e = .error .eof ∧ (p.geometry.places (clust :: l)).length ≤ n
          ∧ Quiet w'.volume p)
      ∧ (p.geometry.places (clust :: l)).Nodup
      ∧ ((∀ c ∈ clust :: l, ∀ s < 2 ^ p.geometry.clustShift, ∀ i < 16,
          (⟨c, p.geometry.clustToSect c + s, 32 * i⟩ : Place) ∈ p.geometry.places (clust :: l))
        ↔ p.geometry.dataSect % 2 ^ p.geometry.clustShift = 0) := by
  obtain ⟨hd, hnodup⟩ := hsound.inDir hlaid
  refine ⟨fun n => ?_, Geometry.nodup_places hnodup,
    p.geometry.places_cover (List.cons_ne_nil clust l)⟩
  have hroot : clust ≠ 0 := by
    have := Geometry.mem_clusters.mp (hd.inside clust List.mem_cons_self)
    omega
  obtain ⟨c, l', rest, heq, hplaces⟩ := hd.places_cons
  obtain ⟨rfl, rfl⟩ := List.cons.inj heq
  rw [Geometry.placeIn_zero] at hplaces
  simp only [dirEnter, dirAtClust, ends_bind, ends_get, ends_modifyDir]
  rw [if_neg hroot, show w.volume.fat.toGeometry = p.geometry from h.geometry]
  generalize p.geometry.clustToSect clust = sect at hplaces ⊢
  -- `dir_enter` only sets the place, and nothing is done yet.
  have hstart : p.geometry.places (clust :: l) = [] ++ (⟨clust, sect, 0⟩ : Place) :: rest := hplaces
  refine (hd.advance (w := { w with dir := { w.dir with
    sclust := clust, clust := clust, sect := sect, idx := 0 } }) h hstart n).mono
    (fun _ w' hr => ?_) fun e w' he => ?_
  · rw [hplaces]
    exact ⟨hr.1, hr.2.shows⟩
  · rw [hplaces]
    exact ⟨he.1, he.2.1, he.2.2.shows⟩

end Advance

theorem dirAdvance_places_last : Ends (dirEnter 2 >>= fun _ => dirAdvance 16) rootWalk
    (fun _ _ => False) fun e _ => e = .error .eof := by
  have hstanding := emptyVolume_standing
  have hshows : Quiet rootWalk.volume (onDisk emptyVolume) :=
    hstanding.shows (G := .any) Faults.atomic_never trivial
  have hsound : (onDisk emptyVolume).Sound ([] ++ (2 :: []) :: []) := hstanding.sound
  have hall := (dirAdvance_places hshows hsound emptyVolume_laid).1 16
  refine hall.mono (fun _ w' hr => ?_) fun e w' he => he.1
  have hnone : ((onDisk emptyVolume).geometry.places [2])[16]? = none := by
    rw [List.getElem?_eq_none_iff]
    decide +kernel
  rw [hnone] at hr
  cases hr.1

end DemoOS.Fat32
