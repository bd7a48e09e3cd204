import DemoOS.Proofs.Fat32.DirAdd

/-!
# `DemoOS.Proofs.Fat32.DirRuns`: a directory is a list of entries

`dirRun_refines`: every run of `dir_search` and `dir_add` on a directory is a run of the list that
the directory shows, with the same answers. A search finds the first item that matches, an added
item is found from then on, and the clusters of the other files and directories stay.
-/

set_option autoImplicit false

namespace DemoOS.Fat32

open Support

/-! ### Lists of entries -/

/-- An item of a directory, without its place. -/
structure Listed where
  long : Option (List UInt8)
  record : Record

/-- An item without a long name is found by its short one. -/
def Listed.Matches (i : Listed) (name : List UInt8) : Prop :=
  match i.long with
  | some long => long = name
  | none => putSfnName name = sfnName i.record

/-- A call with its answer. A search that finds something answers the entry. -/
inductive DirEvent where
  | found (name : List UInt8) (record : Record)
  | missing (name : List UInt8)
  | added (name : List UInt8) (attr : UInt8) (clust : Nat)
  | full (name : List UInt8)

/-- The item that a call of `dir_add` asks for. -/
structure Listed.IsNew (i : Listed) (name : List UInt8) (attr : UInt8) (clust : Nat) : Prop where
  long : i.long = some name
  short : sfnName i.record = putSfnName name
  attr : sfnAttr i.record = attr
  clust : sfnCluster i.record = clust
  size : sfnSize i.record = 0

/-- What a call does to the list. -/
inductive ListStep : List Listed → DirEvent → List Listed → Prop
  | found {front behind : List Listed} {i : Listed} {name : List UInt8}
      (hfront : ∀ j ∈ front, ¬ j.Matches name) (hi : i.Matches name) :
      ListStep (front ++ i :: behind) (.found name i.record) (front ++ i :: behind)
  | missing {items : List Listed} {name : List UInt8} (hall : ∀ i ∈ items, ¬ i.Matches name) :
      ListStep items (.missing name) items
  | added {front behind : List Listed} {i : Listed} {name : List UInt8} {attr : UInt8} {clust : Nat}
      (hi : i.IsNew name attr clust) :
      ListStep (front ++ behind) (.added name attr clust) (front ++ i :: behind)
  | full {items : List Listed} {name : List UInt8} : ListStep items (.full name) items

/-- A run of the list. -/
inductive ListRun (items₀ : List Listed) : List DirEvent → List Listed → Prop
  | start : ListRun items₀ [] items₀
  | step {events : List DirEvent} {items items' : List Listed} {e : DirEvent}
      (h : ListRun items₀ events items) (hstep : ListStep items e items') :
      ListRun items₀ (events ++ [e]) items'

/-! ### Runs of the code -/

/-- What the callers of `dir_add` pass. -/
structure AddFits (name : List UInt8) (attr : UInt8) (clust : Nat) : Prop where
  pos : 0 < name.length
  short : name.length ≤ 255
  chars : ∀ c ∈ name, NameChar c
  attr : attr ≠ FAT_ATTR_LFN
  clust : clust < 2 ^ 32

/-- A call of `dir_search` or `dir_add` on a directory. -/
inductive DirStep : Walk → DirEvent → Walk → Prop
  | found {w w' : Walk} {name : List UInt8} (hcall : dirSearch name w = .ok ⟨⟩ w') :
      DirStep w (.found name (recordAt w'.volume.fat.buf w'.dir.idx)) w'
  | missing {w w' : Walk} {name : List UInt8}
      (hcall : dirSearch name w = .error (.error .eof) w') : DirStep w (.missing name) w'
  | added {w w' : Walk} {name : List UInt8} {attr : UInt8} {clust : Nat}
      (hfits : AddFits name attr clust) (hcall : dirAdd name attr clust w = .ok ⟨⟩ w') :
      DirStep w (.added name attr clust) w'
  | full {w w' : Walk} {name : List UInt8} {attr : UInt8} {clust : Nat}
      (hfits : AddFits name attr clust)
      (hcall : dirAdd name attr clust w = .error (.error .full) w') : DirStep w (.full name) w'

/-- A run of calls on a directory. -/
inductive DirRun (w₀ : Walk) : List DirEvent → Walk → Prop
  | start : DirRun w₀ [] w₀
  | step {events : List DirEvent} {w w' : Walk} {e : DirEvent} (h : DirRun w₀ events w)
      (hstep : DirStep w e w') : DirRun w₀ (events ++ [e]) w'

/-! ### What a directory shows -/

/-- The items at the places. -/
def listing (p : Plain) (es : List (Entry Place)) : List Listed :=
  es.map fun e => ⟨e.long, p.record e.sfn⟩

/-- The directory shows the items, and the clusters of the other chains hold what they held. -/
def Holds (w : Walk) (before after : List (List Nat)) (kept : Nat → Nat → Sector)
    (items : List Listed) : Prop :=
  ∃ p l es, Quiet w.volume p ∧ p.Sound (before ++ l :: after) ∧ p.geometry.Laid
    ∧ l.head? = some w.dir.sclust ∧ Directory p.record (p.geometry.places l) es
    ∧ listing p es = items
    ∧ ∀ c ∈ (before ++ after).flatten, ∀ n < 2 ^ p.geometry.clustShift, p.cluster c n = kept c n

section Refinement
variable {w w' : Walk} {before after : List (List Nat)} {kept : Nat → Nat → Sector}
  {items : List Listed} {name : List UInt8} {attr : UInt8} {clust : Nat} {p : Plain}

theorem matches_listed (p : Plain) (e : Entry Place) (name : List UInt8) :
    (⟨e.long, p.record e.sfn⟩ : Listed).Matches name ↔ e.Matches p.record name := by
  unfold Listed.Matches Entry.Matches
  cases e.long <;> rfl

/-- A call of `dir_search`. -/
theorem Holds.search (h : Holds w before after kept items) :
    Ends (dirSearch name) w
      (fun _ w' => Holds w' before after kept items
        ∧ ListStep items (.found name (recordAt w'.volume.fat.buf w'.dir.idx)) items)
      fun e w' => e = .error .eof ∧ Holds w' before after kept items
        ∧ ListStep items (.missing name) items := by
  obtain ⟨p, l, es, hshows, hsound, hlaid, hhead, hdir, rfl, hkept⟩ := h
  obtain ⟨hd, hnodup⟩ := hsound.inDir hlaid
  have hnone : ∀ {es' : List (Entry Place)}, (∀ e ∈ es', ¬ e.Matches p.record name) →
      ∀ i ∈ listing p es', ¬ i.Matches name := by
    intro es' hes' i hi
    obtain ⟨e, he, rfl⟩ := List.mem_map.mp hi
    rw [matches_listed]
    exact hes' e he
  have hstays : ∀ {w' : Walk}, Moved p w w' → Holds w' before after kept (listing p es) :=
    fun hmoved => ⟨p, l, es, hmoved.shows, hsound, hlaid, by rw [hmoved.sclust]; exact hhead, hdir,
      rfl, hkept⟩
  -- A search writes nothing, so the volume shows what it showed in both answers.
  refine (hd.search hnodup hhead hshows hdir).mono (fun _ w' hr => ?_) fun e w' he => ?_
  · obtain ⟨skipped, e, later, rfl, hskipped, hmatch, hplace, -, hloaded, hmoved⟩ := hr
    refine ⟨hstays hmoved, ?_⟩
    have hmem := (hdir.mem (e := e) (by simp)).1
    -- The answer is the record in the buffer, which holds the sector of the entry.
    have hsect : w'.volume.fat.sect ≠ 0 := by
      have hpos := (hd.place hmem).2.2
      rw [← hplace] at hpos
      rwa [hloaded]
    have hrecord : recordAt w'.volume.fat.buf w'.dir.idx = p.record e.sfn := by
      rw [hmoved.shows.buffered hsect, hloaded, ← hplace]
      rfl
    rw [hrecord, show listing p (skipped ++ e :: later)
      = listing p skipped ++ ⟨e.long, p.record e.sfn⟩ :: listing p later by simp [listing]]
    exact ListStep.found (i := ⟨e.long, p.record e.sfn⟩) (hnone hskipped)
      ((matches_listed p e name).mpr hmatch)
  · obtain ⟨rfl, hall, hmoved⟩ := he
    exact ⟨rfl, hstays hmoved, .missing (hnone hall)⟩

/-- The clusters of the other chains. -/
theorem Plain.Sound.others {l : List Nat} (h : p.Sound (before ++ l :: after)) :
    ∀ c ∈ (before ++ after).flatten, c ∈ p.geometry.clusters ∧ c ∉ l := by
  intro c hc
  have hnodup := h.chains.nodup
  refine ⟨h.chains.inside c ?_, fun hl => ?_⟩
  · simp only [List.flatten_append, List.flatten_cons, List.mem_append] at hc ⊢
    tauto
  · simp only [List.flatten_append, List.flatten_cons, List.nodup_append',
      List.disjoint_left, List.mem_append] at hnodup hc
    rcases hc with hc | hc
    · exact hnodup.2.2 hc (.inl hl)
    · exact hnodup.2.1.2.2 hl hc

/-- The other chains hold what they held, whatever the clusters of the directory hold now. -/
theorem Plain.Sound.keeps {p' : Plain} {l : List Nat} (h : p'.Sound (before ++ l :: after))
    (hsame : SameClusters p p' l)
    (hkept : ∀ c ∈ (before ++ after).flatten, ∀ n < 2 ^ p.geometry.clustShift,
      p.cluster c n = kept c n) :
    ∀ c ∈ (before ++ after).flatten, ∀ n < 2 ^ p'.geometry.clustShift,
      p'.cluster c n = kept c n := by
  intro c hc n hn
  have hother := h.others c hc
  rw [hsame.geometry] at hn hother
  rw [hsame.same c hother.1 hother.2 n hn]
  exact hkept c hc n hn

/-- A listing depends on the records of the entries only. -/
theorem listing_congr {p' : Plain} {es : List (Entry Place)}
    (h : ∀ e ∈ es, p'.record e.sfn = p.record e.sfn) : listing p' es = listing p es :=
  List.map_congr_left fun e he => by rw [h e he]

/-- A call of `dir_add`. -/
theorem Holds.add (h : Holds w before after kept items) (hfits : AddFits name attr clust) :
    Ends (dirAdd name attr clust) w
      (fun _ w' => ∃ items', Holds w' before after kept items'
        ∧ ListStep items (.added name attr clust) items')
      fun e w' => e = .error .full ∧ Holds w' before after kept items := by
  obtain ⟨p, l, es, hshows, hsound, hlaid, hhead, hdir, rfl, hkept⟩ := h
  have hhead' : ∀ new, (l ++ new).head? = some w.dir.sclust := fun new => by
    cases l with
    | nil => cases hhead
    | cons c l => exact hhead
  refine (dirAdd_shows hshows hsound hlaid hhead hdir hfits.pos hfits.short hfits.chars
    hfits.attr).mono (fun _ w' hr => ?_) fun e w' he => ?_
  · obtain ⟨p', new, es₁, es₂, e, hadded⟩ := hr
    have hgeo := hadded.same.geometry
    obtain rfl := hadded.entries
    obtain ⟨r, hrecord⟩ := hadded.record
    -- The items in front of the new one and behind it keep their records.
    have hold₁ : listing p' es₁ = listing p es₁ :=
      listing_congr fun e he => hadded.kept e (List.mem_append_left _ he)
    have hold₂ : listing p' es₂ = listing p es₂ :=
      listing_congr fun e he => hadded.kept e (List.mem_append_right _ he)
    have hitems : listing p' (es₁ ++ e :: es₂)
        = listing p es₁ ++ ⟨e.long, p'.record e.sfn⟩ :: listing p es₂ := by
      rw [← hold₁, ← hold₂]
      simp [listing]
    have hbefore : listing p (es₁ ++ es₂) = listing p es₁ ++ listing p es₂ := by simp [listing]
    refine ⟨listing p' (es₁ ++ e :: es₂), ⟨p', l ++ new, es₁ ++ e :: es₂, hadded.shows, hadded.sound,
      by rw [hgeo]; exact hlaid, ?_, by rw [hgeo]; exact hadded.directory, rfl,
      hadded.sound.keeps hadded.same hkept⟩, ?_⟩
    · rw [hadded.aside.sclust]
      exact hhead' new
    · rw [hitems, hbefore]
      refine .added ⟨hadded.long, ?_, ?_, ?_, ?_⟩
      · rw [hrecord, sfnName_trim, sfnName_putSfn (putSfnName_length name)]
      · rw [hrecord, sfnAttr_trim, sfnAttr_putSfn]
      · rw [hrecord, sfnCluster_trim, sfnCluster_putSfn hfits.clust]
      · rw [hrecord, sfnSize_trim, sfnSize_putSfn]
  · -- The directory may have grown before the volume was full, which no list shows.
    obtain ⟨rfl, ⟨p', new, hshows', hgrown⟩, haside⟩ := he
    have hgeo := hgrown.same.geometry
    refine ⟨rfl, p', l ++ new, es, hshows', hgrown.sound, by rw [hgeo]; exact hlaid, ?_,
      by rw [hgeo]; exact hgrown.directory hlaid hdir,
      listing_congr fun e he => hgrown.record hlaid (hdir.mem he).1,
      hgrown.sound.keeps (hgrown.same.mono fun c hc => List.mem_append_right _ hc) hkept⟩
    rw [haside.sclust]
    exact hhead' new

/-! ### Runs -/

/-- A call takes no item away. -/
theorem ListStep.keeps {items' : List Listed} {e : DirEvent} (h : ListStep items e items')
    {i : Listed} (hi : i ∈ items) : i ∈ items' := by
  cases h with
  | found => exact hi
  | missing => exact hi
  | added =>
      rcases List.mem_append.mp hi with hi | hi
      · exact List.mem_append_left _ hi
      · exact List.mem_append_right _ (List.mem_cons_of_mem _ hi)
  | full => exact hi

/-- The items of a run. -/
theorem ListRun.keeps {items₀ : List Listed} {events : List DirEvent}
    (h : ListRun items₀ events items) :
    (∀ i ∈ items₀, i ∈ items)
      ∧ ∀ name attr clust, .added name attr clust ∈ events →
          ∃ i ∈ items, i.IsNew name attr clust := by
  induction h with
  | start => exact ⟨fun i hi => hi, fun name attr clust he => absurd he List.not_mem_nil⟩
  | step h hstep ih =>
      refine ⟨fun i hi => hstep.keeps (ih.1 i hi), fun name attr clust he => ?_⟩
      rcases List.mem_append.mp he with he | he
      · obtain ⟨i, hi, hnew⟩ := ih.2 name attr clust he
        exact ⟨i, hstep.keeps hi, hnew⟩
      · obtain rfl := List.mem_singleton.mp he
        cases hstep with
        | added hnew => exact ⟨_, List.mem_append_right _ List.mem_cons_self, hnew⟩

/-- One call. -/
theorem Holds.step {e : DirEvent} (h : Holds w before after kept items) (hstep : DirStep w e w') :
    ∃ items', ListStep items e items' ∧ Holds w' before after kept items' := by
  cases hstep with
  | found hcall =>
      have hend := h.search.of_ok hcall
      exact ⟨items, hend.2, hend.1⟩
  | missing hcall =>
      have hend := h.search.of_error hcall
      exact ⟨items, hend.2.2, hend.2.1⟩
  | added hfits hcall =>
      obtain ⟨items', hholds, hlist⟩ := (h.add hfits).of_ok hcall
      exact ⟨items', hlist, hholds⟩
  | full hfits hcall => exact ⟨items, .full, ((h.add hfits).of_error hcall).2⟩

theorem Holds.run {w₀ : Walk} {items₀ : List Listed} {events : List DirEvent}
    (h₀ : Holds w₀ before after kept items₀) (h : DirRun w₀ events w) :
    ∃ items, ListRun items₀ events items ∧ Holds w before after kept items := by
  -- By induction on the run: the chains around the directory are the same at every step.
  induction h with
  | start => exact ⟨items₀, .start, h₀⟩
  | step h hstep ih =>
      obtain ⟨items, hlist, hholds⟩ := ih
      obtain ⟨items', hnext, hholds'⟩ := hholds.step hstep
      exact ⟨items', .step hlist hnext, hholds'⟩

end Refinement

/-! ### An empty root directory -/

/-- A `Dir` at the root of the empty volume. -/
def rootWalk : Walk where
  volume := emptyVolume
  dir := { fat := true, sclust := 2, clust := 2, sect := 1056, idx := 0 }
  names := { buf := fun _ => 0, len := 0, crc := 0 }
  path := []
  loc := none

theorem emptyVolume_laid : (onDisk emptyVolume).geometry.Laid :=
  ⟨emptyVolume_standing.sound.valid, by decide, by decide, by decide⟩

theorem rootWalk_holds : Holds rootWalk [] [] (fun _ _ _ => 0) [] := by
  have hstanding := emptyVolume_standing
  have hshows : Quiet emptyVolume (onDisk emptyVolume) :=
    hstanding.shows (G := .any) Faults.atomic_never trivial
  -- The sector of the root directory was cleared, so its first record is the mark of the end.
  have hzero : (onDisk emptyVolume).sectors 1056 = fun _ => 0 := by
    rw [emptyVolume_onDisk, Plain.put_off blankVolume_valid (Geometry.mem_clusters.mpr (by decide))
      (.inr (by decide))]
    rfl
  refine ⟨onDisk emptyVolume, [2], [], hshows, hstanding.sound, emptyVolume_laid, rfl, ?_, rfl,
    fun c hc => absurd hc List.not_mem_nil⟩
  obtain ⟨rest, hrest⟩ := (onDisk emptyVolume).geometry.placesIn_cons 2
  rw [Geometry.places_one, hrest, Geometry.placeIn_zero]
  have hsect : (onDisk emptyVolume).geometry.clustToSect 2 = 1056 := by decide
  refine Directory.of_marked ?_
  rw [hsect, Plain.record, hzero]
  exact sfnIsLast_zero

end DemoOS.Fat32
