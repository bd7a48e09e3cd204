import DemoOS.Proofs.Fat32.Cursor
import DemoOS.Proofs.Fat32.Names
import DemoOS.Spec.Directory

/-!
# `DemoOS.Proofs.Fat32.DirSearch`: names are found

`dirSearch_shows`: on a directory with entries, `dir_search` stops at the first entry that matches
the name, and says `FAT_ERR_EOF` when there is none. The long name of an entry is parsed as it was
put together (`InDir.parseName`).
-/

set_option autoImplicit false

namespace DemoOS.Fat32

open Support

variable {p : Plain} {w : Walk} {l : List Nat} {a k : Place} {done tail front : List Place}
  {name : List UInt8} {cnt : Nat} {E : Stop → Walk → Prop}

/-! ### Long names -/

/-- The parts of a name below `cnt` have been put into the globals. -/
structure Collected (name : List UInt8) (cnt : Nat) (n n' : Names) : Prop where
  len : n'.len = n.len + (name.take (13 * cnt)).length
  chars : ∀ i < (name.take (13 * cnt)).length, n'.buf i = name.getD i 0
  beyond : ∀ i, 13 * cnt ≤ i → n'.buf i = n.buf i
  crc : n'.crc = n.crc

theorem Names.add_buf (n : Names) (cnt : Nat) (chars : List UInt8) (i : Nat) :
    (n.add cnt chars).buf i
      = ByteMemory.patch n.buf (13 * cnt) chars.length (fun i => chars.getD i 0) i := rfl

/-- A part comes in front of the other ones. -/
theorem Collected.part {n n' : Names}
    (h : Collected name cnt (n.add cnt ((name.drop (13 * cnt)).take 13)) n') :
    Collected name (cnt + 1) n n' := by
  have hlen : (name.take (13 * (cnt + 1))).length
      = ((name.drop (13 * cnt)).take 13).length + (name.take (13 * cnt)).length := by
    simp only [List.length_take, List.length_drop]
    omega
  refine ⟨?_, fun i hi => ?_, fun i hi => ?_, h.crc⟩
  · rw [h.len, hlen, ← Nat.add_assoc]
    rfl
  · by_cases hlow : i < (name.take (13 * cnt)).length
    · exact h.chars i hlow
    · rw [hlen] at hi
      simp only [List.length_take, List.length_drop] at hi hlow
      have hi' : 13 * cnt ≤ i := by omega
      rw [h.beyond i hi', Names.add_buf,
        ByteMemory.patch_inside (by simp only [List.length_take, List.length_drop]; omega)]
      have hget : (i - 13 * cnt) < 13 := by omega
      simp only [List.getD_eq_getElem?_getD, List.getElem?_take, if_pos hget, List.getElem?_drop]
      rw [Nat.add_sub_cancel' hi']
  · rw [h.beyond i (by omega), Names.add_buf]
    refine ByteMemory.patch_outside (.inr ?_)
    simp only [List.length_take]
    omega

/-- All parts of a name are the name. -/
theorem Collected.whole {n n' : Names} (h : Collected name cnt n n') (hlen : n.len = 0)
    (henough : name.length ≤ 13 * cnt) : n'.name = name ∧ n'.len = name.length := by
  have htake : name.take (13 * cnt) = name := List.take_of_length_le henough
  have hlen' : n'.len = name.length := by rw [h.len, htake, hlen, Nat.zero_add]
  refine ⟨List.ext_getElem (by simp [Names.name, hlen']) fun i hi hi' => ?_, hlen'⟩
  have hchar := h.chars i (by rw [htake]; exact hi')
  simp only [Names.name, List.getElem_map, List.getElem_range]
  rw [hchar]
  exact List.getD_eq_getElem name 0 hi'

/-- The place behind the head of a list. -/
theorem head_append (front : List Place) (k : Place) (tail : List Place) :
    ∃ rest, front ++ k :: tail = front.headD k :: rest := by
  cases front with
  | nil => exact ⟨tail, rfl⟩
  | cons b front => exact ⟨front ++ k :: tail, rfl⟩

/-- The loop of `parse_lfn_name`. -/
theorem InDir.parseFrags (hd : InDir p l)
    (hplaces : p.geometry.places l = done ++ (front ++ k :: tail)) (h : Quiet w.volume p)
    (hat : w.dir.place = front.headD k) (hloaded : Loaded w)
    (hparts : Parts p.record name w.names.crc cnt front) :
    Ends (parseLfnFrags cnt) w
      (fun _ w' => w'.dir.place = k ∧ Loaded w' ∧ Moved p w w' ∧ w'.loc = w.loc
        ∧ Collected name cnt w.names w'.names) E := by
  induction cnt generalizing w front done with
  | zero =>
      rw [show front = [] from hparts] at hat
      refine ⟨hat, hloaded, Moved.refl h, rfl, ?_, fun i hi => ?_, fun _ _ => rfl, rfl⟩
      · simp
      · simp at hi
  | succ cnt ih =>
      obtain ⟨b, front, rfl, hpart, hrest⟩ := hparts
      have hmem : w.dir.place ∈ p.geometry.places l := by
        rw [hplaces, hat]
        simp
      simp only [parseLfnFrags, ends_bind]
      rw [hd.ptr h hmem hloaded]
      have hb : w.dir.place = b := hat
      rw [hb]
      simp only [ends_get, ends_ite, ends_throw, ends_modifyNames, ends_bind]
      rw [if_neg (by rw [not_or, not_not, not_not]; exact ⟨hpart.attr, hpart.crc⟩),
        if_neg hpart.rest, hpart.chars]
      have hplaces' : p.geometry.places l = done ++ b :: (front ++ k :: tail) := hplaces
      let w₁ : Walk := { w with names := w.names.add cnt ((name.drop (13 * cnt)).take 13) }
      refine (hd.next (w := w₁) h hplaces' hb).mono (fun _ w₂ hr => ?_) fun e w₂ he => ?_
      · obtain ⟨⟨rest', hnext⟩, hwalked⟩ := hr
        obtain ⟨rest, hhead⟩ := head_append front k tail
        have hat₂ : w₂.dir.place = front.headD k := by
          rw [hhead] at hnext
          exact (List.cons.inj hnext).1.symm
        have hmem₂ : w₂.dir.place ∈ p.geometry.places l := by
          rw [hplaces', hnext]
          simp
        refine (hd.update hwalked.shows hmem₂).mono (fun _ w₃ hr₃ => ?_) fun _ _ he => he
        obtain ⟨hwalked₃, hdir₃, hloaded₃⟩ := hr₃
        have hall := hwalked.trans hwalked₃
        have hnames : w₃.names = w₁.names := hall.names
        have hplaces₃ : p.geometry.places l = (done ++ [b]) ++ (front ++ k :: tail) := by
          rw [hplaces', List.append_assoc]
          rfl
        refine (ih (w := w₃) hplaces₃ hwalked₃.shows ?_ hloaded₃ ?_).mono (fun _ w₄ hr₄ => ?_) fun _ _ he => he
        · rw [hdir₃]
          exact hat₂
        · rw [hnames]
          exact hrest
        · obtain ⟨hk, hloaded₄, hmoved₄, hloc₄, hcollected⟩ := hr₄
          rw [hnames] at hcollected
          refine ⟨hk, hloaded₄, ?_, hloc₄.trans hall.loc, hcollected.part⟩
          have hmoved : Moved p w w₃ := ⟨hall.shows, hall.synced, hall.path, hall.fat, hall.sclust⟩
          exact hmoved.trans hmoved₄
      · exact absurd he.1 (by simp)

/-- `parse_lfn_name` puts the name together. -/
theorem InDir.parseName (hd : InDir p l)
    (hplaces : p.geometry.places l = done ++ (front ++ k :: tail)) (h : Quiet w.volume p)
    (hat : w.dir.place = front.headD k) {crc : UInt8}
    (hname : LongName p.record name crc front) :
    Ends parseLfnName w
      (fun _ w' => w'.dir.place = k ∧ Loaded w' ∧ Moved p w w' ∧ w'.loc = w.loc
        ∧ w'.names.name = name ∧ w'.names.crc = crc) E := by
  obtain ⟨b, rest, rfl, hhead, hseq⟩ := hname.head
  have hmem : w.dir.place ∈ p.geometry.places l := by
    rw [hplaces, hat]
    simp
  simp only [parseLfnName, ends_bind]
  refine (hd.update h hmem).mono (fun _ w₁ hr => ?_) fun _ _ he => he
  obtain ⟨hwalked, hdir, hloaded⟩ := hr
  have hb : w₁.dir.place = b := by
    rw [hdir]
    exact hat
  rw [hd.ptr hwalked.shows (by rw [hdir]; exact hmem) hloaded, hb]
  obtain ⟨c, front', heq, hpart, -⟩ := hname.parts
  obtain ⟨rfl, rfl⟩ := List.cons.inj heq
  simp only [ends_modifyNames, ends_bind, ends_ite, ends_throw]
  rw [if_neg hhead, if_neg (by rw [hseq]; have := hname.count; omega), hseq]
  let w₂ : Walk := { w₁ with names := { w₁.names with crc := lfnCrc (p.record b), len := 0 } }
  have hparts : Parts p.record name w₂.names.crc (b :: rest).length (b :: rest) := by
    show Parts p.record name (lfnCrc (p.record b)) _ _
    rw [hpart.crc]
    exact hname.parts
  refine (hd.parseFrags (w := w₂) hplaces hwalked.shows hb hloaded hparts).mono
    (fun _ w₃ hr₃ => ?_) fun _ _ he => he
  · obtain ⟨hk, hloaded₃, hmoved₃, hloc₃, hcollected⟩ := hr₃
    obtain ⟨hfull, hlen⟩ := hcollected.whole rfl hname.enough
    simp only [ends_get, ends_pure]
    rw [if_pos (by rw [hlen]; exact hname.length)]
    have hmoved : Moved p w w₂ :=
      ⟨hwalked.shows, hwalked.synced, hwalked.path, hwalked.fat, hwalked.sclust⟩
    refine ⟨hk, hloaded₃, hmoved.trans hmoved₃, hloc₃.trans hwalked.loc, hfull, ?_⟩
    exact hcollected.crc.trans hpart.crc

/-! ### The search -/

/-- The place of a `Loc`. -/
def Place.loc (a : Place) : Loc := ⟨a.sect, a.idx⟩

/-- The entries in front of the place do not match. -/
structure Seeking (p : Plain) (l : List Nat) (es : List (Entry Place)) (name : List UInt8)
    (w₀ : Walk) (_ : PUnit) (w : Walk) (left : Nat) : Prop where
  moved : Moved p w₀ w
  here : ∃ done rest skipped later, p.geometry.places l = done ++ w.dir.place :: rest
    ∧ rest.length = left ∧ es = skipped ++ later ∧ (∀ e ∈ skipped, ¬ e.Matches p.record name)
    ∧ Directory p.record (w.dir.place :: rest) later

/-- What `dir_search` leaves when it has found an entry. -/
def Found (p : Plain) (es : List (Entry Place)) (name : List UInt8) (w₀ w : Walk) : Prop :=
  ∃ skipped e later, es = skipped ++ e :: later ∧ (∀ e ∈ skipped, ¬ e.Matches p.record name)
    ∧ e.Matches p.record name ∧ w.dir.place = e.sfn ∧ w.loc = some e.first.loc ∧ Loaded w
    ∧ Moved p w₀ w

/-- What `dir_search` leaves when there is no entry. -/
def NotFound (p : Plain) (es : List (Entry Place)) (name : List UInt8) (w₀ : Walk) (e : Stop)
    (w : Walk) : Prop :=
  e = .error .eof ∧ (∀ e ∈ es, ¬ e.Matches p.record name) ∧ Moved p w₀ w

section Search
variable {w₀ : Walk} {es skipped later : List (Entry Place)}

/-- The search goes on behind an entry. -/
theorem InDir.goOn (hd : InDir p l) (hplaces : p.geometry.places l = done ++ k :: tail)
    (h : Moved p w₀ w) (hat : w.dir.place = k) (hes : es = skipped ++ later)
    (hskipped : ∀ e ∈ skipped, ¬ e.Matches p.record name) (htail : Directory p.record tail later)
    {left : Nat} (hleft : tail.length ≤ left) :
    Ends (do
        dirNext
        pure (.inl ⟨⟩) : DirM (PUnit ⊕ PUnit)) w
      (Sum.elim (fun u w' => ∃ left' < left, Seeking p l es name w₀ u w' left')
        fun _ w' => Found p es name w₀ w') (NotFound p es name w₀) := by
  simp only [ends_bind, ends_pure]
  refine (hd.next h.shows hplaces hat).mono (fun _ w' hr => ?_) fun e w' he => ?_
  · obtain ⟨⟨rest', rfl⟩, hwalked⟩ := hr
    rw [List.length_cons] at hleft
    refine ⟨rest'.length, hleft, h.trans hwalked.toMoved, done ++ [k], rest',
      skipped, later, ?_, rfl, hes, hskipped, htail⟩
    rw [hplaces, List.append_assoc]
    rfl
  · obtain ⟨rfl, heof, hwalked, -⟩ := he
    rw [Directory.nil_iff] at htail
    rw [htail, List.append_nil] at hes
    exact ⟨heof, hes ▸ hskipped, h.trans hwalked.toMoved⟩

/-- One round of the search. -/
theorem InDir.searchRound (hd : InDir p l) {left : Nat} (hseek : Seeking p l es name w₀ ⟨⟩ w left) :
    Ends (searchRound name ⟨⟩) w
      (Sum.elim (fun u w' => ∃ left' < left, Seeking p l es name w₀ u w' left')
        fun _ w' => Found p es name w₀ w') (NotFound p es name w₀) := by
  obtain ⟨hmoved, done, rest, skipped, later, hplaces, hleft, hes, hskipped, hdir⟩ := hseek
  have hmem : w.dir.place ∈ p.geometry.places l := by
    rw [hplaces]
    simp
  simp only [Fat32.searchRound, ends_bind]
  refine (hd.update hmoved.shows hmem).mono (fun _ w₁ hr => ?_) fun _ _ he => he
  obtain ⟨hwalked, hdir₁, hloaded⟩ := hr
  have hplace : w₁.dir.place = w.dir.place := congrArg Dir.place hdir₁
  have hmoved₁ := hmoved.trans hwalked.toMoved
  rw [hd.ptr hwalked.shows (by rwa [hplace]) hloaded, hplace]
  simp only [ends_ite, ends_throw, ends_bind, ends_modify]
  rcases hdir.cases (List.cons_ne_nil _ _) with ⟨k, tail, hk, hlast, rfl⟩
    | ⟨k, tail, hk, hfree, hnot, htail⟩ | ⟨e, tail, later, hk, rfl, hused, hlfn, hlong, htail⟩
  · -- The mark of the end.
    obtain ⟨rfl, rfl⟩ := List.cons.inj hk
    rw [if_pos hlast]
    rw [List.append_nil] at hes
    exact ⟨rfl, hes ▸ hskipped, hmoved₁⟩
  · -- A free entry.
    obtain ⟨rfl, rfl⟩ := List.cons.inj hk
    rw [if_neg (by rw [hnot]; decide), if_pos hfree]
    have hgo := hd.goOn hplaces hmoved₁ hplace hes hskipped htail hleft.le
    simpa only [ends_bind] using hgo
  · -- An entry that is used.
    have hnotlast : ∀ {r : Record}, sfnIsFree r = false → ¬ sfnIsLast r = true := fun hr => by
      rw [sfnIsLast_of_used hr]
      decide
    have hes' : es = (skipped ++ [e]) ++ later := by rw [hes, List.append_assoc]; rfl
    have hskipped' : ¬ e.Matches p.record name →
        ∀ e' ∈ skipped ++ [e], ¬ e'.Matches p.record name := fun hno e' he' => by
      rcases List.mem_append.mp he' with he' | he'
      · exact hskipped e' he'
      · rwa [List.mem_singleton.mp he']
    let w₂ : Walk := { w₁ with loc := some ⟨w₁.dir.sect, w₁.dir.idx⟩ }
    have hmoved₂ : Moved p w₀ w₂ :=
      ⟨hmoved₁.shows, hmoved₁.synced, hmoved₁.path, hmoved₁.fat, hmoved₁.sclust⟩
    rcases hlong with ⟨hnone, hfront⟩ | ⟨long, hsome, hname⟩
    · -- It has no long name.
      rw [hfront, List.nil_append] at hk
      obtain ⟨hat, rfl⟩ := List.cons.inj hk
      rw [hat, if_neg (hnotlast hused), if_neg (by rw [hused]; decide),
        if_neg (by rw [hlfn]; decide)]
      have hmatches : e.Matches p.record name ↔ putSfnName name = sfnName (p.record e.sfn) := by
        simp only [Entry.Matches, hnone]
      split
      · next hyes =>
          refine ⟨skipped, e, later, hes, hskipped, hmatches.mpr hyes, hplace.trans hat, ?_, hloaded,
            hmoved₂⟩
          have hfirst : e.first = w₁.dir.place := by rw [Entry.first, hfront, hplace, hat]; rfl
          rw [hfirst]
          rfl
      · next hno =>
          have hgo := hd.goOn (w := w₂) hplaces hmoved₂ hplace hes'
            (hskipped' fun hm => hno (hmatches.mp hm)) htail hleft.le
          simpa only [ends_bind] using hgo
    · -- It has a long name.
      have hmatches : e.Matches p.record name ↔ long = name := by
        simp only [Entry.Matches, hsome]
      obtain ⟨b, front, hfront, -⟩ := hname.head
      have hb : w.dir.place = b := by
        rw [hfront] at hk
        exact (List.cons.inj hk).1
      have hpart : IsPart long (getCrc (sfnName (p.record e.sfn))) front.length (p.record b) := by
        have hparts := hname.parts
        rw [hfront] at hparts
        obtain ⟨c, front', heq, hpart, -⟩ := hparts
        rwa [(List.cons.inj heq).1]
      have hfirst : e.first = w₁.dir.place := by rw [Entry.first, hfront, hplace, hb]; rfl
      rw [hb, if_neg (hnotlast hpart.used), if_neg (by rw [hpart.used]; decide),
        if_pos (show sfnIsLfn (p.record b) = true from decide_eq_true hpart.attr)]
      rw [hk] at hplaces
      have hat : w₂.dir.place = e.front.headD e.sfn := by
        rw [hfront]
        exact hplace.trans hb
      refine (hd.parseName (w := w₂) hplaces hmoved₂.shows hat hname).mono (fun _ w₃ hr₃ => ?_)
        fun _ _ he => he
      obtain ⟨hk₃, hloaded₃, hmoved₃, hloc₃, hname₃, hcrc₃⟩ := hr₃
      have hall := hmoved₂.trans hmoved₃
      have hmem₃ : w₃.dir.place ∈ p.geometry.places l := by
        rw [hplaces, hk₃]
        simp
      rw [hd.ptr hmoved₃.shows hmem₃ hloaded₃, hk₃]
      simp only [ends_get]
      rw [if_neg (by simp [hused, hlfn, hcrc₃]), hname₃]
      split
      · next hyes =>
          refine ⟨skipped, e, later, hes, hskipped, hmatches.mpr hyes, hk₃, ?_, hloaded₃, hall⟩
          rw [hloc₃, hfirst]
          rfl
      · next hno =>
          have hplaces' : p.geometry.places l = (done ++ e.front) ++ e.sfn :: tail := by
            rw [hplaces, List.append_assoc]
          have hlength : tail.length ≤ left := by
            have hcount := congrArg List.length hk
            rw [List.length_append, List.length_cons, List.length_cons] at hcount
            omega
          have hgo := hd.goOn hplaces' hall hk₃ hes'
            (hskipped' fun hm => hno (hmatches.mp hm)) htail hlength
          simpa only [ends_bind] using hgo

/-- A volume has no more entries than there are rounds. -/
theorem InDir.length_lt (hd : InDir p l) (hnodup : l.Nodup) :
    (p.geometry.places l).length < p.geometry.rounds := by
  have hcard : l.length ≤ p.geometry.clustCnt := by
    have hle : l.toFinset.card ≤ p.geometry.clusters.card :=
      Finset.card_le_card fun k hk => hd.inside k (List.mem_toFinset.mp hk)
    rw [List.toFinset_card_of_nodup hnodup] at hle
    have hico : p.geometry.clusters.card = p.geometry.clustCnt - 2 := Nat.card_Ico _ _
    omega
  have hlength : (p.geometry.places l).length = l.length * (16 * p.geometry.rows) := by
    rw [Geometry.places, List.length_flatMap]
    simp [Geometry.placesIn]
  have hrows := Nat.mul_le_mul_left 16 p.geometry.rows_le
  have hle : l.length * (16 * p.geometry.rows)
      ≤ (p.geometry.clustCnt + 1) * (16 * 2 ^ p.geometry.clustShift) :=
    Nat.mul_le_mul (by omega) hrows
  rw [hlength, Geometry.rounds, Nat.shiftLeft_eq]
  omega

/-- The first place of a directory. -/
theorem InDir.places_cons (hd : InDir p l) :
    ∃ c l' rest, l = c :: l' ∧ p.geometry.places l = p.geometry.placeIn c 0 :: rest := by
  obtain ⟨c, l', rfl⟩ := List.exists_cons_of_ne_nil hd.chain.ne_nil
  obtain ⟨rest, hrest⟩ := p.geometry.placesIn_cons c
  refine ⟨c, l', rest ++ p.geometry.places l', rfl, ?_⟩
  show p.geometry.placesIn c ++ p.geometry.places l' = _
  rw [hrest]
  rfl

/-- `dir_search` stops at the first entry that matches. -/
theorem InDir.search (hd : InDir p l) (hnodup : l.Nodup) (hhead : l.head? = some w.dir.sclust)
    (h : Quiet w.volume p) (hdir : Directory p.record (p.geometry.places l) es) :
    Ends (dirSearch name) w (fun _ w' => Found p es name w w') (NotFound p es name w) := by
  obtain ⟨c, l', rest, rfl, hplaces⟩ := hd.places_cons
  obtain rfl : c = w.dir.sclust := Option.some.inj hhead
  have hgeo : w.volume.fat.toGeometry = p.geometry := h.geometry
  simp only [dirSearch, dirAtClust, ends_bind, ends_get, ends_modifyDir]
  rw [hgeo]
  have hlength := hd.length_lt hnodup
  rw [hplaces, List.length_cons] at hlength
  rw [Geometry.placeIn_zero] at hplaces
  refine ends_loop (I := Seeking p (w.dir.sclust :: l') es name w) (n := rest.length)
    (fun _ w₁ left hseek => hd.searchRound hseek) ?_ (by omega)
  rw [hplaces] at hdir
  exact ⟨⟨h, id, rfl, rfl, rfl⟩, [], rest, [], es, hplaces, rfl, rfl,
    fun e he => absurd he List.not_mem_nil, hdir⟩

end Search

end DemoOS.Fat32
