import DemoOS.Libs.Fat32.Directory

/-!
# `DemoOS.Spec.Directory`: what a directory lists

A directory is a list of places with a record at each. `Entries` says which entries a part of it
holds, and `Directory` that the rest begins with the mark of the end. An entry has the places of
its long name in front of that of its `Sfn`, or no long name.

Parts of a directory are put together by `Entries.append` and taken apart at a free record by
`Entries.split`.
-/

set_option autoImplicit false

namespace DemoOS.Fat32

variable {κ : Type}

theorem sfnIsFree_of_last {r : Record} (h : sfnIsLast r = true) : sfnIsFree r = true := by
  unfold sfnIsLast at h
  unfold sfnIsFree
  simp_all

theorem sfnIsLast_of_used {r : Record} (h : sfnIsFree r = false) : sfnIsLast r = false := by
  cases hlast : sfnIsLast r with
  | false => rfl
  | true =>
      rw [sfnIsFree_of_last hlast] at h
      cases h

/-- An entry, by its places. -/
structure Entry (κ : Type) where
  long : Option (List UInt8)
  front : List κ
  sfn : κ

/-- The first place. -/
def Entry.first (e : Entry κ) : κ := e.front.headD e.sfn

/-- Part `i` of a long name. -/
structure IsPart (name : List UInt8) (crc : UInt8) (i : Nat) (r : Record) : Prop where
  used : sfnIsFree r = false
  attr : sfnAttr r = FAT_ATTR_LFN
  crc : lfnCrc r = crc
  chars : fragment r = (name.drop (13 * i)).take 13
  rest : (fragChars r)[(fragment r).length]? ≠ some 0xff

variable (record : κ → Record)

/-- The parts of a long name, from part `n - 1` downwards. -/
def Parts (name : List UInt8) (crc : UInt8) : Nat → List κ → Prop
  | 0, l => l = []
  | n + 1, l => ∃ k front, l = k :: front ∧ IsPart name crc n (record k) ∧ Parts name crc n front

/-- The places of a long name. -/
structure LongName (name : List UInt8) (crc : UInt8) (front : List κ) : Prop where
  head : ∃ k rest, front = k :: rest ∧ lfnSeq (record k) &&& LFN_HEAD_MSK ≠ 0
    ∧ (lfnSeq (record k) &&& LFN_SEQ_MSK).toNat = front.length
  count : front.length ≤ 20
  enough : name.length ≤ 13 * front.length
  length : name.length ≤ 255
  parts : Parts record name crc front.length front

/-- The entries of a part of a directory. -/
inductive Entries : List κ → List (Entry κ) → Prop
  | nil : Entries [] []
  | free {k : κ} {l : List κ} {es : List (Entry κ)} (hfree : sfnIsFree (record k) = true)
      (hlast : sfnIsLast (record k) = false) (h : Entries l es) : Entries (k :: l) es
  | short {k : κ} {l : List κ} {es : List (Entry κ)} (hused : sfnIsFree (record k) = false)
      (hlfn : sfnIsLfn (record k) = false) (h : Entries l es) :
      Entries (k :: l) (⟨none, [], k⟩ :: es)
  | long {name : List UInt8} {front : List κ} {k : κ} {l : List κ} {es : List (Entry κ)}
      (hname : LongName record name (getCrc (sfnName (record k))) front)
      (hused : sfnIsFree (record k) = false) (hlfn : sfnIsLfn (record k) = false)
      (h : Entries l es) : Entries (front ++ k :: l) (⟨some name, front, k⟩ :: es)

/-- A directory with its entries. Behind the last one there is a mark, or nothing. -/
structure Directory (l : List κ) (es : List (Entry κ)) : Prop where
  parts : ∃ used rest, l = used ++ rest ∧ Entries record used es
    ∧ ∀ k ∈ rest.head?, sfnIsLast (record k) = true

/-- What `dir_search` compares with. An entry without a long name is found by its short one. -/
def Entry.Matches (e : Entry κ) (name : List UInt8) : Prop :=
  match e.long with
  | some long => long = name
  | none => putSfnName name = sfnName (record e.sfn)

instance (e : Entry κ) (name : List UInt8) : Decidable (e.Matches record name) := by
  unfold Entry.Matches
  cases e.long <;> infer_instance

variable {record} {record' : κ → Record} {l l' : List κ} {es es' : List (Entry κ)} {k : κ}
  {name : List UInt8} {crc : UInt8} {n : Nat}

/-! ### Places and records -/

theorem Parts.congr (h : Parts record name crc n l) (heq : ∀ k ∈ l, record' k = record k) :
    Parts record' name crc n l := by
  induction n generalizing l with
  | zero => exact h
  | succ n ih =>
      obtain ⟨k, front, rfl, hpart, hrest⟩ := h
      refine ⟨k, front, rfl, ?_, ih hrest fun i hi => heq i (List.mem_cons_of_mem k hi)⟩
      rw [heq k List.mem_cons_self]
      exact hpart

theorem Parts.length (h : Parts record name crc n l) : l.length = n := by
  induction n generalizing l with
  | zero => rw [show l = [] from h, List.length_nil]
  | succ n ih =>
      obtain ⟨k, front, rfl, -, hrest⟩ := h
      rw [List.length_cons, ih hrest]

theorem Parts.used (h : Parts record name crc n l) (hk : k ∈ l) : sfnIsFree (record k) = false := by
  induction n generalizing l with
  | zero =>
      rw [show l = [] from h] at hk
      cases hk
  | succ n ih =>
      obtain ⟨b, front, rfl, hpart, hrest⟩ := h
      rcases List.mem_cons.mp hk with rfl | hk
      · exact hpart.used
      · exact ih hrest hk

theorem LongName.congr (h : LongName record name crc l) (heq : ∀ k ∈ l, record' k = record k) :
    LongName record' name crc l := by
  obtain ⟨k, rest, hl, hhead⟩ := h.head
  refine ⟨⟨k, rest, hl, ?_⟩, h.count, h.enough, h.length, h.parts.congr heq⟩
  rw [heq k (hl ▸ List.mem_cons_self)]
  exact hhead

/-- The entries depend on the records of their places only. -/
theorem Entries.congr (h : Entries record l es) (heq : ∀ k ∈ l, record' k = record k) :
    Entries record' l es := by
  induction h with
  | nil => exact .nil
  | free hfree hlast h ih =>
      have hk := heq _ List.mem_cons_self
      exact .free (by rw [hk]; exact hfree) (by rw [hk]; exact hlast)
        (ih fun i hi => heq i (List.mem_cons_of_mem _ hi))
  | short hused hlfn h ih =>
      have hk := heq _ List.mem_cons_self
      exact .short (by rw [hk]; exact hused) (by rw [hk]; exact hlfn)
        (ih fun i hi => heq i (List.mem_cons_of_mem _ hi))
  | long hname hused hlfn h ih =>
      have hk := heq _ (List.mem_append_right _ List.mem_cons_self)
      refine .long ?_ (by rw [hk]; exact hused) (by rw [hk]; exact hlfn)
        (ih fun i hi => heq i (List.mem_append_right _ (List.mem_cons_of_mem _ hi)))
      rw [hk]
      exact hname.congr fun i hi => heq i (List.mem_append_left _ hi)

/-- One part behind the other. -/
theorem Entries.append (h : Entries record l es) (h' : Entries record l' es') :
    Entries record (l ++ l') (es ++ es') := by
  induction h with
  | nil => exact h'
  | free hfree hlast h ih => exact .free hfree hlast ih
  | short hused hlfn h ih => exact .short hused hlfn ih
  | long hname hused hlfn h ih =>
      rw [List.append_assoc]
      exact .long hname hused hlfn ih

/-- Free records hold no entries. -/
theorem Entries.of_free (h : ∀ k ∈ l, sfnIsFree (record k) = true ∧ sfnIsLast (record k) = false) :
    Entries record l [] := by
  induction l with
  | nil => exact .nil
  | cons k l ih =>
      have hk := h k List.mem_cons_self
      exact .free hk.1 hk.2 (ih fun i hi => h i (List.mem_cons_of_mem k hi))

/-- There is no mark among the entries. -/
theorem Entries.not_last (h : Entries record l es) (hk : k ∈ l) : sfnIsLast (record k) = false := by
  induction h with
  | nil => cases hk
  | free hfree hlast h ih =>
      rcases List.mem_cons.mp hk with rfl | hk
      · exact hlast
      · exact ih hk
  | short hu hlfn h ih =>
      rcases List.mem_cons.mp hk with rfl | hk
      · exact sfnIsLast_of_used hu
      · exact ih hk
  | long hname hu hlfn h ih =>
      rcases List.mem_append.mp hk with hk | hk
      · exact sfnIsLast_of_used (hname.parts.used hk)
      · rcases List.mem_cons.mp hk with rfl | hk
        · exact sfnIsLast_of_used hu
        · exact ih hk

/-- The entries on both sides of a free record. -/
theorem Entries.split (h : Entries record (l ++ k :: l') es) (hfree : sfnIsFree (record k) = true) :
    ∃ es₁ es₂, es = es₁ ++ es₂ ∧ Entries record l es₁ ∧ Entries record (k :: l') es₂ := by
  generalize hall : l ++ k :: l' = all at h
  induction h generalizing l with
  | nil => simp at hall
  | @free j m es hjfree hlast h ih =>
      cases l with
      | nil =>
          obtain ⟨rfl, rfl⟩ := List.cons.inj hall
          exact ⟨[], es, rfl, .nil, .free hjfree hlast h⟩
      | cons i l =>
          obtain ⟨rfl, hrest⟩ := List.cons.inj hall
          obtain ⟨es₁, es₂, rfl, h₁, h₂⟩ := ih hrest
          exact ⟨es₁, es₂, rfl, .free hjfree hlast h₁, h₂⟩
  | @short j m es hused hlfn h ih =>
      cases l with
      | nil =>
          obtain ⟨rfl, rfl⟩ := List.cons.inj hall
          rw [hfree] at hused
          cases hused
      | cons i l =>
          obtain ⟨rfl, hrest⟩ := List.cons.inj hall
          obtain ⟨es₁, es₂, rfl, h₁, h₂⟩ := ih hrest
          exact ⟨_ :: es₁, es₂, rfl, .short hused hlfn h₁, h₂⟩
  | @long name front j m es hname hused hlfn h ih =>
      -- The free record lies behind the whole entry.
      rcases List.append_eq_append_iff.mp hall with ⟨mid, hfront, hmid⟩ | ⟨mid, rfl, hmid⟩
      · cases mid with
        | nil =>
            obtain ⟨rfl, -⟩ := List.cons.inj hmid
            rw [hfree] at hused
            cases hused
        | cons i mid =>
            obtain ⟨rfl, -⟩ := List.cons.inj hmid
            have hk := hname.parts.used (k := k) (by rw [hfront]; simp)
            rw [hfree] at hk
            cases hk
      · cases mid with
        | nil =>
            obtain ⟨rfl, -⟩ := List.cons.inj hmid.symm
            rw [hfree] at hused
            cases hused
        | cons i mid =>
            obtain ⟨rfl, hrest⟩ := List.cons.inj hmid
            obtain ⟨es₁, es₂, rfl, h₁, h₂⟩ := ih hrest.symm
            exact ⟨_ :: es₁, es₂, rfl, .long hname hused hlfn h₁, h₂⟩

/-- A free record holds no entry. -/
theorem Entries.drop_free (h : Entries record (k :: l) es) (hfree : sfnIsFree (record k) = true) :
    Entries record l es := by
  generalize hall : k :: l = all at h
  cases h with
  | nil => cases hall
  | free _ _ h =>
      obtain ⟨rfl, rfl⟩ := List.cons.inj hall
      exact h
  | short hused =>
      obtain ⟨rfl, rfl⟩ := List.cons.inj hall
      rw [hfree] at hused
      cases hused
  | @long name front j m es hname hused =>
      cases front with
      | nil =>
          obtain ⟨rfl, rfl⟩ := List.cons.inj hall
          rw [hfree] at hused
          cases hused
      | cons i front =>
          obtain ⟨rfl, rfl⟩ := List.cons.inj hall
          have hk := hname.parts.used (k := k) List.mem_cons_self
          rw [hfree] at hk
          cases hk

/-- The places of an entry are places of the part. -/
theorem Entries.mem (h : Entries record l es) {e : Entry κ} (he : e ∈ es) :
    e.sfn ∈ l ∧ ∀ k ∈ e.front, k ∈ l := by
  induction h with
  | nil => cases he
  | free hfree hlast h ih =>
      have hin := ih he
      exact ⟨List.mem_cons_of_mem _ hin.1, fun k hk => List.mem_cons_of_mem _ (hin.2 k hk)⟩
  | short hused hlfn h ih =>
      rcases List.mem_cons.mp he with rfl | he
      · exact ⟨List.mem_cons_self, fun k hk => by cases hk⟩
      · have hin := ih he
        exact ⟨List.mem_cons_of_mem _ hin.1, fun k hk => List.mem_cons_of_mem _ (hin.2 k hk)⟩
  | long hname hused hlfn h ih =>
      rcases List.mem_cons.mp he with rfl | he
      · exact ⟨List.mem_append_right _ List.mem_cons_self, fun k hk => List.mem_append_left _ hk⟩
      · have hin := ih he
        exact ⟨List.mem_append_right _ (List.mem_cons_of_mem _ hin.1),
          fun k hk => List.mem_append_right _ (List.mem_cons_of_mem _ (hin.2 k hk))⟩

/-! ### Directories -/

theorem Entries.of_nil (h : Entries record l es) (hl : l = []) : es = [] := by
  cases h with
  | nil => rfl
  | free => cases hl
  | short => cases hl
  | long => simp at hl

theorem Directory.nil_iff : Directory record [] es ↔ es = [] := by
  constructor
  · rintro ⟨used, rest, heq, h, -⟩
    exact h.of_nil (List.append_eq_nil_iff.mp heq.symm).1
  · rintro rfl
    exact ⟨[], [], rfl, .nil, fun k hk => by cases hk⟩

/-- How a directory begins. -/
theorem Directory.cases (h : Directory record l es) (hne : l ≠ []) :
    (∃ k tail, l = k :: tail ∧ sfnIsLast (record k) = true ∧ es = [])
    ∨ (∃ k tail, l = k :: tail ∧ sfnIsFree (record k) = true ∧ sfnIsLast (record k) = false
        ∧ Directory record tail es)
    ∨ ∃ e tail es', l = e.front ++ e.sfn :: tail ∧ es = e :: es'
        ∧ sfnIsFree (record e.sfn) = false ∧ sfnIsLfn (record e.sfn) = false
        ∧ (e.long = none ∧ e.front = [] ∨ ∃ long, e.long = some long
          ∧ LongName record long (getCrc (sfnName (record e.sfn))) e.front)
        ∧ Directory record tail es' := by
  obtain ⟨used, rest, rfl, hentries, hlast⟩ := h
  cases hentries with
  | nil =>
      cases rest with
      | nil => exact absurd rfl hne
      | cons k tail => exact .inl ⟨k, tail, rfl, hlast k rfl, rfl⟩
  | @free k l _ hfree hnot h =>
      exact .inr (.inl ⟨k, l ++ rest, rfl, hfree, hnot, l, rest, rfl, h, hlast⟩)
  | @short k l es' hused hlfn h =>
      exact .inr (.inr ⟨⟨none, [], k⟩, l ++ rest, es', rfl, rfl, hused, hlfn, .inl ⟨rfl, rfl⟩,
        l, rest, rfl, h, hlast⟩)
  | @long name front k l es' hname hused hlfn h =>
      exact .inr (.inr ⟨⟨some name, front, k⟩, l ++ rest, es', by simp, rfl, hused, hlfn,
        .inr ⟨name, rfl, hname⟩, l, rest, rfl, h, hlast⟩)

/-- Entries in front of a directory. -/
theorem Entries.directory (h : Entries record l es) (h' : Directory record l' es') :
    Directory record (l ++ l') (es ++ es') := by
  obtain ⟨used, rest, rfl, hentries, hlast⟩ := h'
  exact ⟨l ++ used, rest, by rw [List.append_assoc], h.append hentries, hlast⟩

theorem Directory.congr (h : Directory record l es) (heq : ∀ k ∈ l, record' k = record k) :
    Directory record' l es := by
  obtain ⟨used, rest, rfl, hentries, hlast⟩ := h
  refine ⟨used, rest, rfl, hentries.congr fun k hk => heq k (List.mem_append_left _ hk),
    fun k hk => ?_⟩
  rw [heq k (List.mem_append_right _ (List.mem_of_mem_head? hk))]
  exact hlast k hk

theorem Directory.mem (h : Directory record l es) {e : Entry κ} (he : e ∈ es) :
    e.sfn ∈ l ∧ ∀ k ∈ e.front, k ∈ l := by
  obtain ⟨used, rest, rfl, hentries, -⟩ := h
  have hin := hentries.mem he
  exact ⟨List.mem_append_left _ hin.1, fun k hk => List.mem_append_left _ (hin.2 k hk)⟩

/-- Nothing is listed behind the mark. -/
theorem Directory.marked (h : Directory record (k :: l) es) (hlast : sfnIsLast (record k) = true) :
    es = [] := by
  obtain ⟨used, rest, heq, hentries, -⟩ := h
  cases used with
  | nil => exact hentries.of_nil rfl
  | cons j used =>
      obtain ⟨rfl, -⟩ := List.cons.inj heq
      rw [hentries.not_last List.mem_cons_self] at hlast
      cases hlast

theorem Directory.of_marked (hlast : sfnIsLast (record k) = true) :
    Directory record (k :: l) [] := by
  refine ⟨[], k :: l, rfl, .nil, fun j hj => ?_⟩
  obtain rfl := Option.some.inj hj
  exact hlast

/-- A directory is cut at a free record. -/
theorem Directory.split (h : Directory record (l ++ k :: l') es)
    (hl : ∀ j ∈ l, sfnIsLast (record j) = false) (hfree : sfnIsFree (record k) = true) :
    ∃ es₁ es₂, es = es₁ ++ es₂ ∧ Entries record l es₁ ∧ Directory record (k :: l') es₂ := by
  obtain ⟨used, rest, heq, hentries, hlast⟩ := h
  rcases List.append_eq_append_iff.mp heq with ⟨mid, rfl, hmid⟩ | ⟨mid, rfl, rfl⟩
  · cases mid with
    | nil =>
        rw [List.append_nil] at hentries
        exact ⟨es, [], (List.append_nil es).symm, hentries, [], rest, hmid, .nil, hlast⟩
    | cons j mid =>
        obtain ⟨rfl, rfl⟩ := List.cons.inj hmid
        obtain ⟨es₁, es₂, hes, h₁, h₂⟩ := hentries.split hfree
        exact ⟨es₁, es₂, hes, h₁, k :: mid, rest, rfl, h₂, hlast⟩
  · cases mid with
    | nil =>
        rw [List.append_nil]
        exact ⟨es, [], (List.append_nil es).symm, hentries, [], k :: l', rfl, .nil, hlast⟩
    | cons j mid =>
        have hmark := hl j (List.mem_append_right _ List.mem_cons_self)
        rw [hlast j rfl] at hmark
        cases hmark

/-- Free records in front hold nothing. -/
theorem Directory.drop_free (h : Directory record (l ++ l') es)
    (hl : ∀ k ∈ l, sfnIsFree (record k) = true ∧ sfnIsLast (record k) = false) :
    Directory record l' es := by
  induction l with
  | nil => exact h
  | cons k l ih =>
      refine ih ?_ fun j hj => hl j (List.mem_cons_of_mem k hj)
      obtain ⟨hfree, hnot⟩ := hl k List.mem_cons_self
      obtain ⟨used, rest, heq, hentries, hlast⟩ := h
      cases used with
      | nil =>
          have hmark := hlast k (by rw [← List.nil_append rest, ← heq]; rfl)
          rw [hnot] at hmark
          cases hmark
      | cons j used =>
          obtain ⟨rfl, htail⟩ := List.cons.inj heq
          exact ⟨used, rest, htail, hentries.drop_free hfree, hlast⟩

/-! ### Room for an entry -/

variable (record) in
/-- Records that `dir_add` may use. Behind the mark of the end, all of them. -/
def Fresh (eod : Bool) (run : List κ) : Prop :=
  if eod then ∃ front m rest, run = front ++ m :: rest
      ∧ (∀ k ∈ front, sfnIsFree (record k) = true ∧ sfnIsLast (record k) = false)
      ∧ sfnIsLast (record m) = true
  else ∀ k ∈ run, sfnIsFree (record k) = true ∧ sfnIsLast (record k) = false

/-- What is in front of the room and behind it. -/
theorem Directory.room {eod : Bool} {run : List κ} (h : Directory record (l ++ (run ++ l')) es)
    (hl : ∀ j ∈ l, sfnIsLast (record j) = false) (hne : run ≠ []) (hfresh : Fresh record eod run) :
    ∃ es₁ es₂, es = es₁ ++ es₂ ∧ Entries record l es₁
      ∧ if eod then es₂ = [] else Directory record l' es₂ := by
  obtain ⟨k, run, rfl⟩ := List.exists_cons_of_ne_nil hne
  cases eod with
  | false =>
      have hall : ∀ j ∈ k :: run, sfnIsFree (record j) = true ∧ sfnIsLast (record j) = false :=
        hfresh
      obtain ⟨es₁, es₂, hes, h₁, h₂⟩ := h.split hl (hall k List.mem_cons_self).1
      exact ⟨es₁, es₂, hes, h₁, h₂.drop_free (l := k :: run) hall⟩
  | true =>
      obtain ⟨front, m, rest, heq, hfront, hlast⟩ :
        ∃ front m rest, k :: run = front ++ m :: rest
          ∧ (∀ k ∈ front, sfnIsFree (record k) = true ∧ sfnIsLast (record k) = false)
          ∧ sfnIsLast (record m) = true := hfresh
      have hfree : sfnIsFree (record k) = true := by
        cases front with
        | nil =>
            obtain ⟨rfl, -⟩ := List.cons.inj heq
            exact sfnIsFree_of_last hlast
        | cons j front =>
            obtain ⟨rfl, -⟩ := List.cons.inj heq
            exact (hfront k List.mem_cons_self).1
      obtain ⟨es₁, es₂, hes, h₁, h₂⟩ := h.split hl hfree
      refine ⟨es₁, es₂, hes, h₁, ?_⟩
      have h₂' : Directory record (front ++ (m :: (rest ++ l'))) es₂ := by
        rw [show front ++ m :: (rest ++ l') = (front ++ m :: rest) ++ l' by simp, ← heq]
        exact h₂
      exact (h₂'.drop_free hfront).marked hlast

/-- An entry is written into the room. -/
theorem Directory.insert {eod : Bool} {run : List κ} {e : Entry κ} (hes : Entries record l es)
    (hes' : if eod then es' = [] else Directory record (k :: l') es')
    (hfront : ∀ j ∈ l, record' j = record j) (hentry : Entries record' run [e])
    (hbehind : if eod then sfnIsLast (record' k) = true
      else ∀ j ∈ k :: l', record' j = record j) :
    Directory record' (l ++ (run ++ k :: l')) (es ++ e :: es')
      ∧ ∀ i ∈ es ++ es', record' i.sfn = record i.sfn := by
  have hrest : Directory record' (k :: l') es' ∧ ∀ i ∈ es', record' i.sfn = record i.sfn := by
    cases eod with
    | true =>
        rw [show es' = [] from hes']
        exact ⟨Directory.of_marked hbehind, fun i hi => absurd hi List.not_mem_nil⟩
    | false =>
        have hdir : Directory record (k :: l') es' := hes'
        exact ⟨hdir.congr hbehind, fun i hi => hbehind _ (hdir.mem hi).1⟩
  refine ⟨(hes.congr hfront).directory (hentry.directory hrest.1), fun i hi => ?_⟩
  rcases List.mem_append.mp hi with hi | hi
  · exact hfront _ (hes.mem hi).1
  · exact hrest.2 i hi

end DemoOS.Fat32
