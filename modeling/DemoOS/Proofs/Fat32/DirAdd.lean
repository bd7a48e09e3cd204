import DemoOS.Proofs.Fat32.DirSearch
import DemoOS.Proofs.Fat32.Growth

/-!
# `DemoOS.Proofs.Fat32.DirAdd`: an entry is added

`dirAdd_shows`: `dir_add` puts an entry with the name somewhere among the others, which stay as
they are, and makes the directory longer where there is no room. Where the volume is full, the
directory lists what it did.

The loop looks for free records in a row (`roomRound_shows`), and behind the mark of the end every
record counts as one.
-/

set_option autoImplicit false

namespace DemoOS.Fat32

open Support

/-! ### Records are written -/

/-- The entry at a place is written. -/
def Plain.putRecord (p : Plain) (a : Place) (r : Record) : Plain :=
  p.change a.sect fun buf => ByteMemory.patch buf a.idx 32 r

/-- Only records at some places of a directory differ. -/
structure Changed (before after : List (List Nat)) (l : List Nat) (s : List Place) (p p' : Plain) :
    Prop where
  sound : p'.Sound (before ++ l :: after)
  same : SameClusters p p' l
  kept : ∀ b ∈ p.geometry.places l, b ∉ s → p'.record b = p.record b

section Writes
variable {before after : List (List Nat)} {p p' p'' : Plain} {l : List Nat} {s s' : List Place}
  {w : Walk} {a : Place} {r : Record} {E : Stop → Walk → Prop}

theorem Changed.refl (h : p.Sound (before ++ l :: after)) : Changed before after l s p p :=
  ⟨h, SameClusters.refl p l, fun _ _ _ => rfl⟩

theorem Changed.trans (h : Changed before after l s p p') (h' : Changed before after l s' p' p'') :
    Changed before after l (s ++ s') p p'' := by
  refine ⟨h'.sound, h.same.trans h'.same, fun b hb hs => ?_⟩
  rw [List.mem_append, not_or] at hs
  rw [h'.kept b (by rwa [h.same.geometry]) hs.2, h.kept b hb hs.1]

theorem Plain.record_putRecord_self (p : Plain) (a : Place) (r : Record) :
    (p.putRecord a r).record a = trim r := by
  rw [Plain.record, Plain.putRecord, Plain.change_self]
  exact recordAt_patch_self _ _ _

/-- A record of the directory is written. -/
theorem Changed.put (h : p.Sound (before ++ l :: after)) (hlaid : p.geometry.Laid)
    (ha : a ∈ p.geometry.places l) (r : Record) :
    Changed before after l [a] p (p.putRecord a r) := by
  obtain ⟨hd, -⟩ := h.inDir hlaid
  have hdata := (hd.place ha).2.1
  refine ⟨h.congr_data (Plain.change_geometry _) rfl rfl fun i hi => Plain.change_of_ne ?_ _,
    ⟨Plain.change_geometry _, fun c hc hcl n hn => ?_⟩, fun b hb hs => ?_⟩
  · omega
  · rw [Plain.cluster, Plain.cluster]
    refine Plain.change_of_ne ?_ _
    obtain ⟨c', hc', m, hm, rfl⟩ := Geometry.mem_places ha
    intro heq
    -- A cluster with the sector of the place would be one of the directory.
    have hsame := (hlaid.sect_inj hc (hd.inside c' hc') hn (Geometry.row_lt hm) heq).1
    exact hcl (hsame ▸ hc')
  · have hne := hlaid.place_ne hd.inside hb ha fun heq => hs (heq ▸ List.mem_singleton_self a)
    rw [Plain.record, Plain.record, Plain.putRecord]
    by_cases hsect : b.sect = a.sect
    · obtain ⟨c, -, n, -, rfl⟩ := Geometry.mem_places ha
      obtain ⟨c', -, m, -, rfl⟩ := Geometry.mem_places hb
      rw [hsect, Plain.change_self]
      refine recordAt_patch_of_ne ?_ _
      rcases hne with hne | hne
      · exact absurd hsect hne
      · exact hne
    · rw [Plain.change_of_ne hsect]

/-- Assignments to the entry at the place. -/
theorem InDir.put (hd : InDir p l) (h : Quiet w.volume p) (ha : w.dir.place ∈ p.geometry.places l)
    (hloaded : Loaded w) (f : Record → Record) :
    Ends (dirPut f) w
      (fun _ w' => Quiet w'.volume (p.putRecord w.dir.place (f (p.record w.dir.place)))
        ∧ w'.dir = w.dir ∧ Loaded w' ∧ Aside w w') E := by
  have hsect : w.volume.fat.sect ≠ 0 := by
    rw [hloaded]
    exact (hd.place ha).2.2
  simp only [dirPut, ends_bind, ends_get, ends_onVolume]
  refine (changeBuf_shows h _ hsect trivial).mono (fun _ v' hr => ?_) fun _ _ he => he
  obtain ⟨hshows, hat⟩ := hr
  refine ⟨?_, trivial, hat.trans hloaded, rfl, rfl, rfl, rfl, rfl⟩
  have hbuf : p.change v'.fat.sect (fun buf => ByteMemory.patch buf w.dir.idx 32
      (f (recordAt buf w.dir.idx))) = p.putRecord w.dir.place (f (p.record w.dir.place)) := by
    rw [hat, hloaded]
    rfl
  rw [← hbuf, hat]
  exact hshows

/-- A record of the directory is loaded and written. -/
theorem writeRecord_shows (h : Quiet w.volume p) (hsound : p.Sound (before ++ l :: after))
    (hlaid : p.geometry.Laid) (hmem : w.dir.place ∈ p.geometry.places l) (f : Record → Record) :
    Ends dirUpdate w
      (fun _ w₁ => Ends (dirPut f) w₁
        (fun _ w' => ∃ p', Quiet w'.volume p' ∧ Changed before after l [w.dir.place] p p'
          ∧ p'.record w.dir.place = trim (f (p.record w.dir.place))
          ∧ w'.dir.place = w.dir.place ∧ Loaded w' ∧ Aside w w') E) E := by
  obtain ⟨hd, -⟩ := hsound.inDir hlaid
  refine (hd.update h hmem).mono (fun _ w₁ hr => ?_) fun _ _ he => he
  obtain ⟨hwalked, hdir, hloaded⟩ := hr
  have hplace : w₁.dir.place = w.dir.place := congrArg Dir.place hdir
  refine (hd.put hwalked.shows (by rwa [hplace]) hloaded f).mono (fun _ w₂ hr₂ => ?_)
    fun _ _ he => he
  obtain ⟨hshows, hdir₂, hloaded₂, haside⟩ := hr₂
  rw [hplace] at hshows
  exact ⟨_, hshows, Changed.put hsound hlaid hmem _, Plain.record_putRecord_self p _ _,
    (congrArg Dir.place hdir₂).trans hplace, hloaded₂, hwalked.aside.trans haside⟩

/-- The byte `seq` of the part that comes first. -/
theorem lfnHead_spec : ∀ i < 20,
    (LFN_HEAD_MSK ||| UInt8.ofNat (i + 1)) ≠ 0xe5
      ∧ (LFN_HEAD_MSK ||| UInt8.ofNat (i + 1)) &&& LFN_HEAD_MSK ≠ 0
      ∧ ((LFN_HEAD_MSK ||| UInt8.ofNat (i + 1)) &&& LFN_SEQ_MSK).toNat = i + 1 := by decide

theorem lfnRest_spec : ∀ i < 20,
    (0 ||| UInt8.ofNat (i + 1)) ≠ 0xe5
      ∧ ((0 ||| UInt8.ofNat (i + 1)) &&& LFN_SEQ_MSK).toNat = i + 1 := by decide

/-- A byte `seq` does not mark a free entry. -/
theorem lfnSeq_spec {i : Nat} {mask : UInt8} (hi : i < 20) (hmask : mask ∈ [LFN_HEAD_MSK, 0]) :
    mask ||| UInt8.ofNat (i + 1) ≠ 0 ∧ mask ||| UInt8.ofNat (i + 1) ≠ 0xe5 := by
  have hseq : (mask ||| UInt8.ofNat (i + 1)) ≠ 0xe5
      ∧ ((mask ||| UInt8.ofNat (i + 1)) &&& LFN_SEQ_MSK).toNat = i + 1 := by
    rcases List.mem_cons.mp hmask with rfl | hmask
    · exact ⟨(lfnHead_spec i hi).1, (lfnHead_spec i hi).2.2⟩
    · rw [List.mem_singleton.mp hmask]
      exact lfnRest_spec i hi
  refine ⟨fun hzero => ?_, hseq.1⟩
  rw [hzero] at hseq
  exact absurd hseq.2.symm (Nat.succ_ne_zero i)

/-- A part of a name as `dir_add` writes it. -/
theorem isPart_putLfn {name : List UInt8} {mask crc : UInt8} {i : Nat} (hi : i < 20)
    (hmask : mask ∈ [LFN_HEAD_MSK, 0]) (hchars : ∀ c ∈ name, NameChar c) (r : Record) :
    IsPart name crc i
      (trim (putLfn ((name.drop (13 * i)).take 13) (mask ||| UInt8.ofNat (i + 1)) crc r)) := by
  obtain ⟨hzero, hfree⟩ := lfnSeq_spec hi hmask
  have hlen : ((name.drop (13 * i)).take 13).length ≤ 13 := List.length_take_le _ _
  have hpart : ∀ c ∈ (name.drop (13 * i)).take 13, NameChar c := fun c hc =>
    hchars c (List.mem_of_mem_drop (List.mem_of_mem_take hc))
  refine ⟨?_, ?_, ?_, ?_, ?_⟩
  · rw [sfnIsFree_trim, sfnIsFree_putLfn]
    exact decide_eq_false (by rw [not_or]; exact ⟨hzero, hfree⟩)
  · rw [sfnAttr_trim, sfnAttr_putLfn]
  · rw [lfnCrc_trim, lfnCrc_putLfn]
  · rw [fragment_trim, fragment_putLfn hlen hpart]
  · rw [fragment_trim, fragChars_trim, fragment_putLfn hlen hpart]
    exact fragChars_putLfn_end hlen

/-- The loop of `dir_add` over the parts of the name. -/
theorem putLfns_shows {name : List UInt8} {mask crc : UInt8} {n : Nat} {done tail front : List Place}
    {k : Place} (h : Quiet w.volume p) (hsound : p.Sound (before ++ l :: after))
    (hlaid : p.geometry.Laid) (hplaces : p.geometry.places l = done ++ (front ++ k :: tail))
    (hlength : front.length = n) (hat : w.dir.place = front.headD k) (hn : n ≤ 20)
    (hmask : mask ∈ [LFN_HEAD_MSK, 0]) (hchars : ∀ c ∈ name, NameChar c) :
    Ends (putLfns name crc n mask) w
      (fun _ w' => ∃ p', Quiet w'.volume p' ∧ Changed before after l front p p'
        ∧ Parts p'.record name crc n front
        ∧ (∀ b ∈ front.head?, lfnSeq (p'.record b) = mask ||| UInt8.ofNat n)
        ∧ w'.dir.place = k ∧ Aside w w') E := by
  -- By induction on the parts that are left. The code counts down, so the head of `front` is the
  -- part with the highest number, and only the first round has the mark `LFN_HEAD_MSK`.
  induction n generalizing w p front done mask with
  | zero =>
      obtain rfl := List.length_eq_zero_iff.mp hlength
      exact ⟨p, h, Changed.refl hsound, rfl, fun b hb => (by cases hb), hat, Aside.refl w⟩
  | succ n ih =>
      obtain ⟨b, front, rfl⟩ := List.exists_cons_of_length_eq_add_one hlength
      obtain ⟨-, hnodup⟩ := hsound.inDir hlaid
      have hplaces₀ : p.geometry.places l = done ++ b :: (front ++ k :: tail) := hplaces
      have hmem : w.dir.place ∈ p.geometry.places l := by
        rw [hplaces, hat]
        simp
      have hb : w.dir.place = b := hat
      simp only [putLfns, ends_bind]
      refine (writeRecord_shows h hsound hlaid hmem _).mono (fun _ w₁ hr => hr.mono
        (fun _ w₂ hr₂ => ?_) fun _ _ he => he) fun _ _ he => he
      obtain ⟨p₁, hshows, hput, hwritten, hplace, -, haside⟩ := hr₂
      rw [hb] at hput hwritten hplace
      -- The record is written; the rest of the name stands behind it.
      have hgeo := hput.same.geometry
      have hlaid₁ : p₁.geometry.Laid := by rw [hgeo]; exact hlaid
      have hplaces₁ : p₁.geometry.places l = (done ++ [b]) ++ (front ++ k :: tail) := by
        rw [hgeo, hplaces₀, List.append_assoc]
        rfl
      refine ((hput.sound.inDir hlaid₁).1.next hshows (by rw [hgeo]; exact hplaces₀)
        hplace).mono (fun _ w₃ hr₃ => ?_) fun e w₃ he => ?_
      · obtain ⟨⟨rest', hnext⟩, hwalked₃⟩ := hr₃
        obtain ⟨rest, hhead⟩ := head_append front k tail
        have hat₃ : w₃.dir.place = front.headD k := by
          rw [hhead] at hnext
          exact (List.cons.inj hnext).1.symm
        refine (ih hwalked₃.shows hput.sound hlaid₁ hplaces₁ (by simpa using hlength) hat₃ (by omega)
          (by decide)).mono (fun _ w₄ hr₄ => ?_) fun _ _ he => he
        obtain ⟨p₂, hshows₂, hchanged, hparts, -, hk, haside₄⟩ := hr₄
        -- The later parts go to other places, so this one stays.
        have hfront : b ∉ front := by
          have hplaced := Geometry.nodup_places (g := p.geometry) hnodup
          rw [hplaces₀, List.nodup_append'] at hplaced
          have hbehind := (List.nodup_cons.mp hplaced.2.1).1
          exact fun hin => hbehind (List.mem_append_left _ hin)
        have hrecord : p₂.record b = trim (putLfn ((name.drop (13 * n)).take 13)
            (mask ||| UInt8.ofNat (n + 1)) crc (p.record b)) := by
          rw [hchanged.kept b (by rw [hgeo, ← hb]; exact hmem) hfront]
          exact hwritten
        refine ⟨p₂, hshows₂, hput.trans hchanged, ⟨b, front, rfl, ?_, hparts⟩, fun j hj => ?_, hk,
          (haside.trans hwalked₃.aside).trans haside₄⟩
        · rw [hrecord]
          exact isPart_putLfn (by omega) hmask hchars _
        · obtain rfl := Option.some.inj hj
          rw [hrecord, lfnSeq_trim, lfnSeq_putLfn]
      · -- The directory does not end here: the record for the short name is still behind.
        exact absurd he.1 (by simp)

end Writes

/-! ### Room for the entry -/

/-- The loop of `dir_add` stands behind free records in a row. -/
structure Looking (before after : List (List Nat)) (p : Plain) (l : List Nat) (lfns : Nat)
    (w₀ : Walk) (room : Room) (w : Walk) (left : Nat) : Prop where
  here : ∃ p' new done run rest, Quiet w.volume p' ∧ Grown before after p l new p'
    ∧ p.geometry.places (l ++ new) = done ++ (run ++ w.dir.place :: rest)
    ∧ (∀ b ∈ done, sfnIsLast (p'.record b) = false) ∧ Fresh p'.record room.eod run
    ∧ run.length = room.cnt ∧ (∀ b ∈ run.head?, b.sect = room.sect ∧ b.idx = room.idx)
    ∧ left + (done ++ run).length = p.geometry.rounds
  enough : room.cnt ≤ lfns + 1
  aside : Aside w₀ w

/-- What the loop leaves when the volume is full. -/
def NoRoom (before after : List (List Nat)) (p : Plain) (l : List Nat) (w₀ : Walk) (e : Stop)
    (w : Walk) : Prop :=
  e = .error .full ∧ (∃ p' new, Quiet w.volume p' ∧ Grown before after p l new p') ∧ Aside w₀ w

section Looking
variable {before after : List (List Nat)} {p : Plain} {l : List Nat} {lfns : Nat} {w₀ w : Walk}
  {room : Room} {left : Nat}

theorem Fresh.congr {κ : Type} {record record' : κ → Record} {eod : Bool} {run : List κ}
    (h : Fresh record eod run) (heq : ∀ k ∈ run, record' k = record k) :
    Fresh record' eod run := by
  cases eod with
  | false => exact fun k hk => by rw [heq k hk]; exact h k hk
  | true =>
      obtain ⟨front, m, rest, rfl, hfront, hlast⟩ := h
      refine ⟨front, m, rest, rfl, fun k hk => ?_, ?_⟩
      · rw [heq k (List.mem_append_left _ hk)]
        exact hfront k hk
      · rw [heq m (by simp)]
        exact hlast

/-- One record more. -/
theorem Fresh.concat {κ : Type} {record : κ → Record} {eod : Bool} {run : List κ} {k : κ}
    (h : Fresh record eod run) (hk : eod = true ∨ sfnIsFree (record k) = true) :
    Fresh record (eod || sfnIsLast (record k)) (run ++ [k]) := by
  cases eod with
  | true =>
      obtain ⟨front, m, rest, rfl, hfront, hlast⟩ := h
      exact ⟨front, m, rest ++ [k], by simp, hfront, hlast⟩
  | false =>
      have hfree : sfnIsFree (record k) = true := by simpa using hk
      cases hmark : sfnIsLast (record k) with
      | true => exact ⟨run, k, [], rfl, h, hmark⟩
      | false =>
          intro j hj
          rcases List.mem_append.mp hj with hj | hj
          · exact h j hj
          · rw [List.mem_singleton.mp hj]
            exact ⟨hfree, hmark⟩

/-- One round of the search for room. -/
theorem roomRound_shows (hlaid : p.geometry.Laid)
    (hlook : Looking before after p l lfns w₀ room w left) :
    Ends (roomRound lfns room) w
      (Sum.elim (fun room' w' => ∃ left' < left, Looking before after p l lfns w₀ room' w' left')
        fun room' w' => (∃ left', Looking before after p l lfns w₀ room' w' left')
          ∧ room'.cnt = lfns + 1)
      (NoRoom before after p l w₀) := by
  obtain ⟨⟨p', new, done, run, rest, hshows, hgrown, hplaces, hdone, hfresh, hcnt, hhead, hleft⟩,
    henough, haside⟩ := hlook
  have hgeo := hgrown.same.geometry
  have hlaid' : p'.geometry.Laid := by rw [hgeo]; exact hlaid
  obtain ⟨hd, hnodup⟩ := hgrown.sound.inDir hlaid'
  have hmem : w.dir.place ∈ p'.geometry.places (l ++ new) := by
    rw [hgeo, hplaces]
    simp
  unfold roomRound
  split
  · next hmore =>
      have hlength := hd.length_lt hnodup
      rw [hgeo, hplaces, List.length_append, List.length_append, List.length_cons] at hlength
      rw [List.length_append] at hleft
      simp only [ends_bind, ends_get]
      refine (hd.update hshows hmem).mono (fun _ w₁ hr => ?_) fun _ _ he => he
      obtain ⟨hwalked, hdir, hloaded⟩ := hr
      have hplace : w₁.dir.place = w.dir.place := congrArg Dir.place hdir
      rw [hd.ptr hwalked.shows (by rwa [hplace]) hloaded, hplace]
      have hplaces₁ : p.geometry.places (l ++ new) = (done ++ run) ++ w.dir.place :: rest := by
        rw [hplaces, List.append_assoc]
      -- The flags are read before the step, which may make the directory longer.
      refine (dirNextStretch_shows hwalked.shows hgrown hlaid hplaces₁ hplace).mono
        (fun _ w₂ hr₂ => ?_) fun e w₂ he => ?_
      · obtain ⟨p'', new', hshows₂, hgrown₂, hsame, ⟨rest', hplaces₂⟩, haside₂⟩ := hr₂
        have hold : ∀ b ∈ done ++ (run ++ [w.dir.place]), p''.record b = p'.record b :=
          fun b hb => hsame b (by rw [hplaces]; grind)
        have hlast₂ := hold w.dir.place (by simp)
        have haside' := haside.trans (hwalked.aside.trans haside₂)
        have hnext : done ++ run ++ w.dir.place :: w₂.dir.place :: rest'
            = done ++ ((run ++ [w.dir.place]) ++ w₂.dir.place :: rest') := by simp
        rw [hnext] at hplaces₂
        have hleft₂ : left - 1 + (done ++ (run ++ [w.dir.place])).length = p.geometry.rounds := by
          simp only [List.length_append, List.length_singleton]
          omega
        refine ⟨left - 1, by omega, ?_⟩
        split
        · next huse =>
            -- The record goes to the others.
            have hrun : Fresh p''.record (room.eod || sfnIsLast (p'.record w.dir.place))
                (run ++ [w.dir.place]) := by
              rw [← hlast₂]
              exact (hfresh.congr fun k hk => hold k (by simp [hk])).concat (by rw [hlast₂]; exact huse)
            have hdone₂ : ∀ b ∈ done, sfnIsLast (p''.record b) = false := fun b hb => by
              rw [hold b (by simp [hb])]
              exact hdone b hb
            have hlength₂ : (run ++ [w.dir.place]).length = room.cnt + 1 := by simp [hcnt]
            split
            · next hzero =>
                -- The first record of the run: the code keeps its place.
                have hrun₀ : run = [] := List.length_eq_zero_iff.mp (hcnt.trans hzero)
                refine ⟨⟨p'', new', done, run ++ [w.dir.place], rest', hshows₂, hgrown₂, hplaces₂,
                  hdone₂, hrun, hlength₂.trans (by rw [hzero]), fun b hb => ?_, hleft₂⟩, ?_, haside'⟩
                · rw [hrun₀] at hb
                  obtain rfl := Option.some.inj hb
                  exact ⟨(congrArg Place.sect hplace).symm, (congrArg Place.idx hplace).symm⟩
                · show 1 ≤ lfns + 1
                  omega
            · next hsome =>
                refine ⟨⟨p'', new', done, run ++ [w.dir.place], rest', hshows₂, hgrown₂, hplaces₂,
                  hdone₂, hrun, hlength₂, fun b hb => hhead b ?_, hleft₂⟩, ?_, haside'⟩
                · have hne : run ≠ [] := fun heq => hsome (by rw [← hcnt, heq]; rfl)
                  rwa [List.head?_append_of_ne_nil _ hne] at hb
                · show room.cnt + 1 ≤ lfns + 1
                  omega
        · next hnot =>
            -- The record is used, and the search starts again behind it.
            rw [not_or, Bool.not_eq_true, Bool.not_eq_true] at hnot
            obtain ⟨heod, hused⟩ := hnot
            rw [heod] at hfresh
            have hmark := sfnIsLast_of_used hused
            have hnone : ∀ b ∈ done ++ (run ++ [w.dir.place]), sfnIsLast (p''.record b) = false :=
              fun b hb => by
                rw [hold b hb]
                rcases List.mem_append.mp hb with hb | hb
                · exact hdone b hb
                · rcases List.mem_append.mp hb with hb | hb
                  · exact (hfresh b hb).2
                  · rw [List.mem_singleton.mp hb]
                    exact hmark
            refine ⟨⟨p'', new', done ++ (run ++ [w.dir.place]), [], rest', hshows₂, hgrown₂, ?_,
              hnone, ?_, rfl, fun b hb => absurd hb (by simp), ?_⟩, Nat.zero_le _, haside'⟩
            · rw [hplaces₂]
              simp
            · show Fresh p''.record (room.eod || sfnIsLast (p'.record w.dir.place)) []
              rw [heod, hmark]
              exact fun k hk => absurd hk List.not_mem_nil
            · rw [List.append_nil]
              exact hleft₂
      · obtain ⟨hfull, ⟨p'', hend⟩, haside₂⟩ := he
        exact ⟨hfull, ⟨p'', new, hend⟩, haside.trans (hwalked.aside.trans haside₂)⟩
  · next hdoneCnt =>
      -- There are enough records, and the loop is left without a step.
      exact ⟨⟨left, ⟨p', new, done, run, rest, hshows, hgrown, hplaces, hdone, hfresh, hcnt, hhead,
        hleft⟩, henough, haside⟩, by omega⟩

end Looking

/-! ### `dir_add` -/

/-- What `dir_add` leaves of the room. -/
structure Written (before after : List (List Nat)) (p : Plain) (l : List Nat) (name : List UInt8)
    (attr : UInt8) (clust : Nat) (front : List Place) (k : Place) (w : Walk) (p' : Plain) (w' : Walk) :
    Prop where
  shows : Quiet w'.volume p'
  changed : Changed before after l (front ++ [k]) p p'
  entries : Entries p'.record (front ++ [k]) [⟨some name, front, k⟩]
  record : ∃ r, p'.record k = trim (putSfn (putSfnName name) attr clust
    (encodeTimestamp fatGetTimestamp).1 (encodeTimestamp fatGetTimestamp).2 r)
  place : w'.dir.place = k
  loaded : Loaded w'
  aside : Aside w w'

/-- What `dir_add` leaves when it works. -/
structure Added (before after : List (List Nat)) (p : Plain) (l : List Nat)
    (es : List (Entry Place)) (name : List UInt8) (attr : UInt8) (clust : Nat) (w : Walk)
    (p' : Plain) (new : List Nat) (es₁ es₂ : List (Entry Place)) (e : Entry Place) (w' : Walk) :
    Prop where
  shows : Quiet w'.volume p'
  sound : p'.Sound (before ++ (l ++ new) :: after)
  same : SameClusters p p' (l ++ new)
  entries : es = es₁ ++ es₂
  long : e.long = some name
  directory : Directory p'.record (p.geometry.places (l ++ new)) (es₁ ++ e :: es₂)
  kept : ∀ e' ∈ es, p'.record e'.sfn = p.record e'.sfn
  record : ∃ r, p'.record e.sfn = trim (putSfn (putSfnName name) attr clust
    (encodeTimestamp fatGetTimestamp).1 (encodeTimestamp fatGetTimestamp).2 r)
  place : w'.dir.place = e.sfn
  loaded : Loaded w'
  aside : Aside w w'

section Add
variable {before after : List (List Nat)} {p : Plain} {l : List Nat} {w : Walk}
  {es : List (Entry Place)} {name : List UInt8} {attr : UInt8} {clust : Nat} {eod : Bool}
  {E : Stop → Walk → Prop}

/-- The new mark of the end. -/
theorem putEnd_shows (h : Quiet w.volume p) (hsound : p.Sound (before ++ l :: after))
    (hlaid : p.geometry.Laid) (hmem : w.dir.place ∈ p.geometry.places l) :
    Ends (putEnd eod) w
      (fun _ w' => ∃ p', Quiet w'.volume p' ∧ Changed before after l [w.dir.place] p p'
        ∧ (if eod then sfnIsLast (p'.record w.dir.place) = true else p' = p) ∧ Aside w w') E := by
  unfold putEnd
  cases eod with
  | false => exact ⟨p, h, Changed.refl hsound, rfl, Aside.refl w⟩
  | true =>
      simp only [if_true, ends_bind]
      refine (writeRecord_shows h hsound hlaid hmem _).mono (fun _ w₁ hr => hr.mono
        (fun _ w₂ hr₂ => ?_) fun _ _ he => he) fun _ _ he => he
      obtain ⟨p', hshows, hchanged, hrecord, -, -, haside⟩ := hr₂
      refine ⟨p', hshows, hchanged, ?_, haside⟩
      rw [hrecord, sfnIsLast_trim]
      rfl

/-- The entry is written into the room for it. -/
theorem putEntry_shows (attr : UInt8) (clust : Nat) {done tail front : List Place} {k : Place}
    (h : Quiet w.volume p) (hsound : p.Sound (before ++ l :: after)) (hlaid : p.geometry.Laid)
    (hplaces : p.geometry.places l = done ++ (front ++ k :: tail))
    (hlength : front.length = (name.length + 12) / 13) (hat : w.dir.place = front.headD k)
    (hname : 0 < name.length) (hshort : name.length ≤ 255) (hchars : ∀ c ∈ name, NameChar c)
    (hattr : attr ≠ FAT_ATTR_LFN) :
    Ends (do
        putLfns name (getCrc (putSfnName name)) ((name.length + 12) / 13) LFN_HEAD_MSK
        dirUpdate
        dirPut (putSfn (putSfnName name) attr clust (encodeTimestamp fatGetTimestamp).1
          (encodeTimestamp fatGetTimestamp).2)) w
      (fun _ w' => ∃ p', Written before after p l name attr clust front k w p' w') E := by
  have hnodup := Geometry.nodup_places (g := p.geometry) (hsound.inDir hlaid).2
  have hmem : k ∈ p.geometry.places l := by
    rw [hplaces]
    simp
  simp only [ends_bind]
  refine (putLfns_shows h hsound hlaid hplaces hlength hat (by omega) (by decide) hchars).mono
    (fun _ w₁ hr => ?_) fun _ _ he => he
  obtain ⟨p₁, hshows, hchanged, hparts, hseq, hk, haside⟩ := hr
  have hgeo := hchanged.same.geometry
  have hlaid₁ : p₁.geometry.Laid := by rw [hgeo]; exact hlaid
  have hmem₁ : w₁.dir.place ∈ p₁.geometry.places l := by rw [hgeo, hk]; exact hmem
  refine (writeRecord_shows hshows hchanged.sound hlaid₁ hmem₁ _).mono (fun _ w₂ hr => hr.mono
    (fun _ w₃ hr₃ => ?_) fun _ _ he => he) fun _ _ he => he
  obtain ⟨p₂, hshows₃, hput, hrecord, hk₃, hloaded₃, haside₃⟩ := hr₃
  rw [hk] at hput hrecord hk₃
  refine ⟨p₂, hshows₃, hchanged.trans hput, ?_, ⟨_, hrecord⟩, hk₃, hloaded₃,
    haside.trans haside₃⟩
  -- The parts of the name are as they were.
  have hkept : ∀ b ∈ front, p₂.record b = p₁.record b := fun b hb => by
    refine hput.kept b (by rw [hgeo, hplaces]; simp [hb]) fun hbk => ?_
    rw [List.mem_singleton.mp hbk] at hb
    rw [hplaces] at hnodup
    exact (List.nodup_append'.mp (List.nodup_append'.mp hnodup).2.1).2.2 hb List.mem_cons_self
  refine Entries.long ?_ ?_ ?_ .nil
  · rw [hrecord, sfnName_trim, sfnName_putSfn (putSfnName_length name)]
    refine LongName.congr ?_ hkept
    obtain ⟨b, front, rfl⟩ := List.exists_cons_of_length_pos (l := front) (by omega)
    have hb := hseq b rfl
    obtain ⟨n, hn⟩ : ∃ n, (name.length + 12) / 13 = n + 1 := ⟨front.length, hlength.symm⟩
    rw [hn] at hb hparts hlength
    have hn20 : n < 20 := by omega
    refine ⟨⟨b, front, rfl, ?_, ?_⟩, by omega, by omega, hshort, by rw [hlength]; exact hparts⟩
    · rw [hb]
      exact (lfnHead_spec n hn20).2.1
    · rw [hb, hlength]
      exact (lfnHead_spec n hn20).2.2
  · rw [hrecord, sfnIsFree_trim, sfnIsFree_putSfn]
  · rw [hrecord, sfnIsLfn_trim, sfnIsLfn, sfnAttr_putSfn]
    exact decide_eq_false hattr

/-- The directory with the new entry. -/
theorem Written.added {p₁ p₂ p₃ : Plain} {new : List Nat} {done front rest : List Place}
    {k a : Place} {w₂ w₃ : Walk} (h : Written before after p₂ (l ++ new) name attr clust front k w₂ p₃ w₃)
    (hgrown : Grown before after p l new p₁) (hlaid : p.geometry.Laid)
    (hdir : Directory p.record (p.geometry.places l) es)
    (hplaces : p.geometry.places (l ++ new) = done ++ ((front ++ [k]) ++ a :: rest))
    (hdone : ∀ b ∈ done, sfnIsLast (p₁.record b) = false)
    (hfresh : Fresh p₁.record eod (front ++ [k])) (hend : Changed before after (l ++ new) [a] p₁ p₂)
    (hmark : if eod then sfnIsLast (p₂.record a) = true else p₂ = p₁) (haside : Aside w w₂) :
    ∃ es₁ es₂, Added before after p l es name attr clust w p₃ new es₁ es₂ ⟨some name, front, k⟩ w₃ := by
  have hgeo₁ := hgrown.same.geometry
  have hgeo₂ := hend.same.geometry.trans hgeo₁
  have hlaid₁ : p₁.geometry.Laid := by rw [hgeo₁]; exact hlaid
  have hnodup := Geometry.nodup_places (g := p.geometry) (hgrown.sound.inDir hlaid₁).2
  have hall := hgrown.directory hlaid hdir
  rw [hplaces] at hall hnodup
  have hrun := List.nodup_append'.mp hnodup
  have hbehind := List.nodup_append'.mp hrun.2.1
  -- The room splits the entries into those in front of it and those behind it.
  obtain ⟨es₁, es₂, rfl, hes₁, hes₂⟩ := hall.room hdone (by simp) hfresh
  have hfront : ∀ b ∈ done, p₃.record b = p₁.record b := fun b hb => by
    have hin : b ∈ p.geometry.places (l ++ new) := by
      rw [hplaces]
      exact List.mem_append_left _ hb
    have hne : b ∉ [a] := fun hba => by
      rw [List.mem_singleton.mp hba] at hb
      exact hrun.2.2 hb (by simp)
    rw [h.changed.kept b (by rw [hgeo₂]; exact hin)
      fun hbr => hrun.2.2 hb (List.mem_append_left _ hbr),
      hend.kept b (by rw [hgeo₁]; exact hin) hne]
  have hrest : ∀ b ∈ a :: rest, p₃.record b = p₂.record b := fun b hb => by
    refine h.changed.kept b ?_ fun hbr => hbehind.2.2 hbr hb
    rw [hgeo₂, hplaces]
    exact List.mem_append_right _ (List.mem_append_right _ hb)
  have hafter : if eod then sfnIsLast (p₃.record a) = true
      else ∀ b ∈ a :: rest, p₃.record b = p₁.record b := by
    cases eod with
    | true =>
        show sfnIsLast (p₃.record a) = true
        rw [hrest a List.mem_cons_self]
        exact hmark
    | false =>
        intro b hb
        rw [hrest b hb, show p₂ = p₁ from hmark]
  obtain ⟨hdir₃, hkept⟩ := Directory.insert hes₁ hes₂ hfront h.entries hafter
  refine ⟨es₁, es₂, h.shows, h.changed.sound, ?_, rfl, rfl, ?_, fun e he => ?_, h.record, h.place,
    h.loaded, haside.trans h.aside⟩
  · exact ((hgrown.same.mono fun c hc => List.mem_append_right _ hc).trans hend.same).trans
      h.changed.same
  · rw [hplaces]
    exact hdir₃
  · rw [hkept e he, hgrown.record hlaid (hdir.mem he).1]

/-- `dir_add` adds an entry, or says that the volume is full. -/
theorem dirAdd_shows (h : Quiet w.volume p) (hsound : p.Sound (before ++ l :: after))
    (hlaid : p.geometry.Laid) (hhead : l.head? = some w.dir.sclust)
    (hdir : Directory p.record (p.geometry.places l) es) (hname : 0 < name.length)
    (hshort : name.length ≤ 255) (hchars : ∀ c ∈ name, NameChar c) (hattr : attr ≠ FAT_ATTR_LFN) :
    Ends (dirAdd name attr clust) w
      (fun _ w' => ∃ p' new es₁ es₂ e, Added before after p l es name attr clust w p' new es₁ es₂ e w')
      (NoRoom before after p l w) := by
  obtain ⟨hd, -⟩ := hsound.inDir hlaid
  obtain ⟨c, l', rest, rfl, hplaces⟩ := hd.places_cons
  obtain rfl : c = w.dir.sclust := Option.some.inj hhead
  have hgeo : w.volume.fat.toGeometry = p.geometry := h.geometry
  have hroot : w.dir.sclust ≠ 0 := by
    have := Geometry.mem_clusters.mp (hd.inside w.dir.sclust List.mem_cons_self)
    omega
  simp only [dirAdd, dirEnter, dirAtClust, ends_ite, ends_bind, ends_get, ends_modifyDir, ends_throw]
  rw [if_neg (by omega), if_neg hroot, hgeo]
  rw [Geometry.placeIn_zero] at hplaces
  -- The state only matters through the sector of the first place.
  generalize p.geometry.clustToSect w.dir.sclust = sect at hplaces ⊢
  have hstart : Looking before after p (w.dir.sclust :: l') ((name.length + 12) / 13) w
      ⟨0, false, 0, 0⟩ { w with dir := { w.dir with
        sclust := w.dir.sclust, clust := w.dir.sclust, sect := sect, idx := 0 } }
      p.geometry.rounds := by
    refine ⟨⟨p, [], [], [], rest, h, Grown.refl hsound, ?_, ?_, ?_, rfl, ?_, Nat.add_zero _⟩,
      Nat.zero_le _, rfl, rfl, rfl, rfl, rfl⟩
    · rw [List.append_nil, hplaces]
      rfl
    · exact fun b hb => absurd hb List.not_mem_nil
    · exact fun b hb => absurd hb List.not_mem_nil
    · exact fun b hb => absurd hb (by simp)
  refine (ends_loop (I := Looking before after p (w.dir.sclust :: l') ((name.length + 12) / 13) w)
    (fun room w₁ left hlook => roomRound_shows hlaid hlook) hstart
    (Nat.lt_succ_self _)).mono (fun room w₁ hr => ?_) fun _ _ he => he
  obtain ⟨⟨left, ⟨p₁, new, done, run, rest, hshows, hgrown, hplaces₁, hdone, hfresh, hcnt, hfirst,
    -⟩, -, haside⟩, henough⟩ := hr
  have hgeo₁ := hgrown.same.geometry
  have hlaid₁ : p₁.geometry.Laid := by rw [hgeo₁]; exact hlaid
  -- The last record of the room is for the short name.
  have hsome : run ≠ [] := fun heq => by
    rw [heq, henough] at hcnt
    cases hcnt
  obtain ⟨front, k, rfl⟩ : ∃ front k, run = front ++ [k] :=
    ⟨run.dropLast, run.getLast hsome, (List.dropLast_append_getLast hsome).symm⟩
  have hlength : front.length = (name.length + 12) / 13 := by
    rw [List.length_append, henough] at hcnt
    exact Nat.succ.inj hcnt
  refine (putEnd_shows hshows hgrown.sound hlaid₁ (by rw [hgeo₁, hplaces₁]; simp)).mono
    (fun _ w₂ hr => ?_) fun _ _ he => he
  obtain ⟨p₂, hshows₂, hend, hmark, haside₂⟩ := hr
  have hgeo₂ : p₂.geometry = p.geometry := hend.same.geometry.trans hgeo₁
  have hlaid₂ : p₂.geometry.Laid := by rw [hgeo₂]; exact hlaid
  have hplaces₂ : p₂.geometry.places (w.dir.sclust :: l' ++ new)
      = done ++ (front ++ k :: (w₁.dir.place :: rest)) := by
    rw [hgeo₂, hplaces₁, List.append_assoc front]
    rfl
  -- The code only keeps the sector of the first record and finds its cluster again from it.
  have hat : (⟨w₂.volume.fat.sectToClust room.sect, room.sect, room.idx⟩ : Place)
      = front.headD k := by
    have hin : front.headD k ∈ p₂.geometry.places (w.dir.sclust :: l' ++ new) := by
      rw [hplaces₂]
      cases front <;> simp
    obtain ⟨hsect, hidx⟩ := hfirst (front.headD k) (by cases front <;> rfl)
    have hclust := hlaid₂.sectToClust (hend.sound.inDir hlaid₂).1.inside hin
    rw [← hshows₂.geometry, hsect] at hclust
    rw [hclust, ← hsect, ← hidx]
  generalize w₂.volume.fat.sectToClust room.sect = c at hat ⊢
  -- The code goes back to the first record of the room, and only the place changes.
  let w₃ : Walk := { w₂ with dir := { w₂.dir with clust := c, sect := room.sect, idx := room.idx } }
  have hmoved : Aside w₂ w₃ := Aside.place w₂ _ rfl rfl
  have hadded : ∀ (_ : PUnit) w₄, (∃ p', Written before after p₂ (w.dir.sclust :: l' ++ new) name
      attr clust front k w₃ p' w₄) → ∃ p' new es₁ es₂ e,
      Added before after p (w.dir.sclust :: l') es name attr clust w p' new es₁ es₂ e w₄ := by
    rintro - w₄ ⟨p₃, hwritten⟩
    obtain ⟨es₁, es₂, hall⟩ := hwritten.added hgrown hlaid hdir hplaces₁ hdone hfresh hend hmark
      ((haside.trans haside₂).trans hmoved)
    exact ⟨p₃, new, es₁, es₂, _, hall⟩
  have hwrite := (putEntry_shows attr clust (w := w₃)
    (E := NoRoom before after p (w.dir.sclust :: l') w) hshows₂ hend.sound hlaid₂ hplaces₂ hlength
    hat hname hshort hchars hattr).mono hadded fun _ _ he => he
  simpa only [ends_bind] using hwrite

end Add

end DemoOS.Fat32
