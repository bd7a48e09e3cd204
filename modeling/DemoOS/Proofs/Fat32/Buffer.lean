import DemoOS.Libs.Fat32.Volume

/-!
# `DemoOS.Proofs.Fat32.Buffer`: the volume without its buffer

`Plain` is a volume whose sectors are read and written at once, and `Shows` says that a mounted
volume, with its buffer of one sector, is such a volume. The functions of the buffer leave what it
shows (`syncBuf_shows`, `updateBuf_shows`), a change of the buffer changes one sector
(`changeBuf_shows`), and after `sync_fs` the disk holds what the volume shows (`syncFs_shows`).

The operations of the disk may fail. There is one buffer, so the changes come to the disk in their
order, and a call that fails leaves the disk at one of them. A `Guard` is a property of the disk
that all of them have; it holds after every call, whether the call works or not. Without faults
every call works.

Sector 0 plays a part of its own: `fat_mount` leaves 0 in `sect` while the buffer holds nothing.
-/

set_option autoImplicit false

namespace DemoOS.Fat32

open Support

/-- A volume whose sectors are read and written at once. -/
structure Plain where
  geometry : Geometry
  lastUsed : Nat
  freeCnt : Nat
  infoDirty : Bool
  sectors : Nat → Sector

/-- No operation fails. -/
def Faults.never : Faults := ⟨fun _ => none, fun _ => none⟩

/-- A write that fails writes the whole sector or nothing. -/
def Faults.Atomic (F : Faults) : Prop :=
  ∀ n left, F.write n = some left → ∀ old new, left old new = old ∨ left old new = new

theorem Faults.atomic_never : Faults.never.Atomic := fun _ _ h => by cases h

/-- A property of the contents of a disk, without sector 0. -/
structure Guard where
  holds : (Nat → Sector) → Prop
  congr : ∀ {s s' : Nat → Sector}, (∀ i ≠ 0, s' i = s i) → holds s → holds s'

/-- No property. -/
def Guard.any : Guard := ⟨fun _ => True, fun _ _ => trivial⟩

/-- What a mounted volume is, apart from its buffer. -/
structure Shows (F : Faults) (G : Guard) (v : Volume) (p : Plain) : Prop where
  geometry : v.fat.toGeometry = p.geometry
  lastUsed : v.fat.lastUsed = p.lastUsed
  freeCnt : v.fat.freeCnt = p.freeCnt
  infoDirty : v.fat.infoDirty = p.infoDirty
  buffered : v.fat.sect ≠ 0 → v.fat.buf = p.sectors v.fat.sect
  stored : ∀ i ≠ 0, i ≠ v.fat.sect ∨ v.fat.bufDirty = false → v.disk.sectors i = p.sectors i
  dirty : v.fat.bufDirty = true → v.fat.sect ≠ 0
  faults : v.disk.faults = F
  atomic : F.Atomic
  guarded : G.holds v.disk.sectors
  seen : G.holds p.sectors

/-- A call has failed. The search for a free cluster returns its flags in the place of the error. -/
structure Stopped (F : Faults) (G : Guard) (e : Stop) (v : Volume) : Prop where
  reason : e = .error .io ∨ ∃ flags, e = .flags flags
  faulty : F ≠ .never
  guarded : G.holds v.disk.sectors

variable {F : Faults} {G : Guard} {v : Volume} {p : Plain} {E : Stop → Volume → Prop}

theorem Stopped.ne_full {e : Stop} (h : Stopped F G e v) : e ≠ .error .full := by
  rintro rfl
  rcases h.reason with hio | ⟨flags, hflags⟩
  · cases hio
  · cases hflags

/-- Without faults no call fails. -/
theorem ends_working {α : Type} {c : FatM α} {Q : α → Volume → Prop}
    (h : Ends c v Q (Stopped .never G)) : Ends c v Q E :=
  h.mono (fun _ _ hq => hq) fun _ _ he => absurd rfl he.faulty

/-- The buffer is not dirty. -/
def Synced (v : Volume) : Prop := v.fat.bufDirty = false

/-- The disk of a synchronized volume. -/
theorem Shows.disk (h : Shows F G v p) (hs : Synced v) {i : Nat} (hi : i ≠ 0) :
    v.disk.sectors i = p.sectors i := h.stored i hi (.inr hs)

/-! ### The disk -/

@[simp] theorem ends_opsRead {Q : Sector × Bool → Volume → Prop} (buf : Sector) (sect : Nat) :
    Ends (opsRead buf sect) v Q E
      ↔ Q (outcome (v.disk.faults.read v.disk.operations) buf (v.disk.sectors sect))
        { v with disk := { v.disk with operations := v.disk.operations + 1 } } := Iff.rfl

@[simp] theorem ends_opsWrite {Q : Bool → Volume → Prop} (buf : Sector) (sect : Nat) :
    Ends (opsWrite buf sect) v Q E
      ↔ Q (outcome (v.disk.faults.write v.disk.operations) (v.disk.sectors sect) buf).2
        { v with disk := { v.disk with
          operations := v.disk.operations + 1
          sectors := Function.update v.disk.sectors sect (outcome
            (v.disk.faults.write v.disk.operations) (v.disk.sectors sect) buf).1 } } := Iff.rfl

@[simp] theorem ends_modifyFat {Q : PUnit → Volume → Prop} (f : Fat → Fat) :
    Ends (modifyFat f) v Q E ↔ Q ⟨⟩ { v with fat := f v.fat } := Iff.rfl

/-! ### The buffer -/

/-- The sectors of the volume that is shown, in the place of the disk. -/
theorem Shows.update (h : Shows F G v p) (hsect : v.fat.sect ≠ 0) {i : Nat} (hi : i ≠ 0) :
    Function.update v.disk.sectors v.fat.sect v.fat.buf i = p.sectors i := by
  by_cases hat : i = v.fat.sect
  · rw [hat, Function.update_self, h.buffered hsect]
  · rw [Function.update_of_ne hat]
    exact h.stored i hi (.inl hat)

/-- `sync_buf` leaves what the volume shows. -/
theorem syncBuf_shows (h : Shows F G v p) :
    Ends syncBuf v (fun _ v' => Shows F G v' p ∧ Synced v' ∧ v'.fat.sect = v.fat.sect)
      (Stopped F G) := by
  simp only [syncBuf, ends_bind, ends_get, ends_ite, ends_pure]
  split
  · next hdirty =>
      have hsect := h.dirty hdirty
      rw [ends_opsWrite, h.faults]
      cases hfault : F.write v.disk.operations with
      | none =>
          have hdisk : G.holds (Function.update v.disk.sectors v.fat.sect v.fat.buf) :=
            G.congr (fun i hi => h.update hsect hi) h.seen
          simp only [outcome, if_true, ends_modifyFat]
          exact ⟨⟨h.geometry, h.lastUsed, h.freeCnt, h.infoDirty, h.buffered,
            fun i hi _ => h.update hsect hi, fun hd => (Bool.noConfusion hd), h.faults, h.atomic,
            hdisk, h.seen⟩, rfl, trivial⟩
      | some left =>
          simp only [outcome, Bool.false_eq_true, if_false, ends_throw]
          refine ⟨.inl rfl, ?_, ?_⟩
          · rintro rfl
            cases hfault
          · -- The sector is the old one or the new one.
            rcases h.atomic _ _ hfault (v.disk.sectors v.fat.sect) v.fat.buf with hold | hnew
            · show G.holds (Function.update v.disk.sectors v.fat.sect _)
              rw [hold, Function.update_eq_self]
              exact h.guarded
            · show G.holds (Function.update v.disk.sectors v.fat.sect _)
              rw [hnew]
              exact G.congr (fun i hi => h.update hsect hi) h.seen
  · next hclean =>
      exact ⟨h, Bool.eq_false_of_not_eq_true hclean, trivial⟩

/-- `update_buf` leaves what the volume shows, and the buffer holds the sector. -/
theorem updateBuf_shows (h : Shows F G v p) {sect : Nat} (hsect : sect ≠ 0) :
    Ends (updateBuf sect) v
      (fun _ v' => Shows F G v' p ∧ v'.fat.sect = sect ∧ (Synced v → Synced v'))
      (Stopped F G) := by
  simp only [updateBuf, ends_bind, ends_get, ends_ite, ends_pure]
  split
  · refine (syncBuf_shows h).mono (fun _ v₁ h₁ => ?_) fun _ _ he => he
    obtain ⟨h₁, hsynced, -⟩ := h₁
    rw [ends_opsRead, h₁.faults]
    cases hfault : F.read v₁.disk.operations with
    | none =>
        simp only [outcome, ends_modifyFat, if_true]
        refine ⟨⟨h₁.geometry, h₁.lastUsed, h₁.freeCnt, h₁.infoDirty,
          fun _ => h₁.disk hsynced hsect, fun i hi _ => h₁.disk hsynced hi, fun hd => ?_,
          h₁.faults, h₁.atomic, h₁.guarded, h₁.seen⟩, trivial, fun _ => hsynced⟩
        exact absurd hd (by rw [show v₁.fat.bufDirty = false from hsynced]; decide)
    | some left =>
        simp only [outcome, ends_modifyFat, Bool.false_eq_true, if_false, ends_throw]
        refine ⟨.inl rfl, ?_, h₁.guarded⟩
        rintro rfl
        cases hfault
  · next hsame => exact ⟨h, not_not.mp hsame, id⟩

/-- The sector is changed. -/
def Plain.change (p : Plain) (sect : Nat) (f : Sector → Sector) : Plain :=
  { p with sectors := Function.update p.sectors sect (f (p.sectors sect)) }

/-- A change of the buffer changes the sector in it. -/
theorem changeBuf_shows (h : Shows F G v p) (f : Sector → Sector) (hsect : v.fat.sect ≠ 0)
    (hG : G.holds (p.change v.fat.sect f).sectors) :
    Ends (changeBuf f) v (fun _ v' => Shows F G v' (p.change v.fat.sect f)
      ∧ v'.fat.sect = v.fat.sect) E := by
  simp only [changeBuf, ends_modifyFat, and_true]
  refine ⟨h.geometry, h.lastUsed, h.freeCnt, h.infoDirty, fun _ => ?_, fun i hi hor => ?_,
    fun _ => hsect, h.faults, h.atomic, h.guarded, hG⟩
  · show f v.fat.buf
      = Function.update p.sectors v.fat.sect (f (p.sectors v.fat.sect)) v.fat.sect
    rw [Function.update_self, h.buffered hsect]
  · rcases hor with hne | hfalse
    · show v.disk.sectors i = Function.update p.sectors v.fat.sect (f (p.sectors v.fat.sect)) i
      rw [Function.update_of_ne hne]
      exact h.stored i hi (.inl hne)
    · cases hfalse

/-- A sector is brought into the buffer and changed. -/
theorem updateBuf_changeBuf_shows (h : Shows F G v p) {sect : Nat} (hsect : sect ≠ 0)
    (f : Sector → Sector) (hG : G.holds (p.change sect f).sectors) :
    Ends (updateBuf sect >>= fun _ => changeBuf f) v
      (fun _ v' => Shows F G v' (p.change sect f) ∧ v'.fat.sect = sect) (Stopped F G) := by
  refine (updateBuf_shows h hsect).bind fun _ v₁ h₁ => ?_
  obtain ⟨h₁, rfl, -⟩ := h₁
  exact changeBuf_shows h₁ f hsect hG

/-- The volume after `sync_fs`. -/
def Plain.sync (p : Plain) : Plain :=
  if p.infoDirty then
    { p.change p.geometry.infoSect (putInfo p.lastUsed p.freeCnt) with infoDirty := false }
  else p

/-- `sync_fs` writes everything to the disk. -/
theorem syncFs_shows (h : Shows F G v p) (hinfo : p.geometry.infoSect ≠ 0)
    (hG : G.holds p.sync.sectors) :
    Ends syncFs v (fun _ v' => Shows F G v' p.sync ∧ Synced v') (Stopped F G) := by
  simp only [syncFs, ends_bind, ends_get, ends_ite, ends_pure]
  refine (syncBuf_shows h).mono (fun _ v₁ h₁ => ?_) fun _ _ he => he
  obtain ⟨h₁, hsynced, -⟩ := h₁
  have hflag := h₁.infoDirty
  split
  · next hdirty =>
      rw [hdirty] at hflag
      rw [Plain.sync, if_pos hflag.symm] at hG ⊢
      rw [h₁.geometry]
      refine (updateBuf_shows h₁ hinfo).mono (fun _ v₂ h₂ => ?_) fun _ _ he => he
      obtain ⟨h₂, hsect, -⟩ := h₂
      rw [h₂.lastUsed, h₂.freeCnt]
      refine (changeBuf_shows h₂ _ (hsect ▸ hinfo) (hsect ▸ hG)).mono (fun _ v₃ h₃ => ?_)
        fun _ _ he => he
      refine (syncBuf_shows h₃.1).mono (fun _ v₄ h₄ => ?_) fun _ _ he => he
      obtain ⟨h₄, hsynced₄, -⟩ := h₄
      simp only [ends_modifyFat]
      rw [hsect] at h₄
      exact ⟨⟨h₄.geometry, h₄.lastUsed, h₄.freeCnt, rfl, h₄.buffered, h₄.stored, h₄.dirty,
        h₄.faults, h₄.atomic, h₄.guarded, h₄.seen⟩, hsynced₄⟩
  · next hclean =>
      rw [hflag] at hclean
      rw [Plain.sync, if_neg hclean]
      exact ⟨h₁, hsynced⟩

end DemoOS.Fat32
