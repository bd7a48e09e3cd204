import DemoOS.Proofs.Fat32.Buffer
import DemoOS.Support.ChainTable
import Mathlib.Data.Nat.Bitwise
import Mathlib.Tactic.NormNum

/-!
# `DemoOS.Proofs.Fat32.Table`: the FAT as a table

`Plain.cell` is what the active FAT says of a cluster. `getFat_shows` and `putFat_shows` are the
two functions that read and write an item, and `Plain.cell_put` is the round trip: a put changes
the cell of its own cluster only. The upper nibble of every item stays, and the mirror gets the
same items (`Plain.mirrored_put`).
-/

set_option autoImplicit false

namespace DemoOS.Fat32

open Support

/-! ### Items -/

section Items
variable {buf : Sector} {idx idx' val : Nat}

theorem item_lt (buf : Sector) (idx : Nat) : item buf idx < 2 ^ 32 :=
  ByteMemory.load_lt buf (4 * idx) 4

theorem and_low (x : Nat) : x &&& 0x0fffffff = x % 2 ^ 28 := Nat.and_two_pow_sub_one_eq_mod x 28

/-- The upper nibble. -/
theorem and_nibble {x : Nat} (hx : x < 2 ^ 32) : x &&& 0xf0000000 = x / 2 ^ 28 * 2 ^ 28 := by
  have hmask : (0xf0000000 : Nat) = (2 ^ 4 - 1) * 2 ^ 28 := by norm_num
  have hdiv : x / 2 ^ 28 < 2 ^ 4 := by omega
  rw [hmask]
  refine Nat.eq_of_testBit_eq fun i => ?_
  rw [Nat.testBit_and, Nat.testBit_mul_two_pow, Nat.testBit_mul_two_pow,
    Nat.testBit_two_pow_sub_one, Nat.testBit_div_two_pow]
  by_cases hi : 28 ≤ i
  · by_cases hlow : i - 28 < 4
    · simp [hi, hlow, Nat.sub_add_cancel hi]
    · have hhigh : x.testBit i = false :=
        Nat.testBit_eq_false_of_lt (Nat.lt_of_lt_of_le hx (Nat.pow_le_pow_right (by omega)
          (by omega)))
      simp [hlow, hhigh, Nat.sub_add_cancel hi]
  · simp [hi]

/-- The new item: the old upper nibble, and the value. -/
theorem putItem_value (x val : Nat) (hx : x < 2 ^ 32) :
    (x &&& 0xf0000000) ||| (val &&& 0x0fffffff) = x / 2 ^ 28 * 2 ^ 28 + val % 2 ^ 28 := by
  rw [and_nibble hx, and_low, ← Nat.shiftLeft_eq]
  exact (Nat.shiftLeft_add_eq_or_of_lt (Nat.mod_lt _ (by norm_num)) _).symm

theorem item_putItem_self (buf : Sector) (idx val : Nat) :
    item (putItem idx val buf) idx = item buf idx / 2 ^ 28 * 2 ^ 28 + val % 2 ^ 28 := by
  have hx := item_lt buf idx
  rw [putItem, putItem_value _ _ hx]
  refine ByteMemory.load_storeWord ?_
  have hval : val % 2 ^ 28 < 2 ^ 28 := Nat.mod_lt _ (by norm_num)
  norm_num at hx hval ⊢
  omega

theorem item_putItem_of_ne (hne : idx' ≠ idx) : item (putItem idx val buf) idx' = item buf idx' :=
  ByteMemory.load_patch_outside (by omega)

end Items

/-! ### The geometry -/

/-- The parts of a volume do not overlap. -/
structure Geometry.Valid (g : Geometry) : Prop where
  info : g.infoSect ≠ 0
  active : g.infoSect < g.fatSect0
  mirror : g.fatSect1 ≠ 0 → g.infoSect < g.fatSect1
    ∧ (g.fatSect0 + g.clustCnt / 128 ≤ g.fatSect1 ∨ g.fatSect1 + g.clustCnt / 128 ≤ g.fatSect0)
  whole : g.clustCnt % 128 = 0
  data : g.fatSect0 + g.clustCnt / 128 ≤ g.dataSect ∧ g.fatSect1 + g.clustCnt / 128 ≤ g.dataSect
  small : g.dataSect < 2 ^ 32
  /-- A link is no mark. -/
  count : 2 < g.clustCnt ∧ g.clustCnt ≤ 0x0ffffff7

/-- The sector of a FAT with the item of a cluster. -/
def itemSect (fatSect clust : Nat) : Nat := u32 (fatSect + clust / 128)

section Sectors
variable {g : Geometry} {clust : Nat}

theorem Geometry.Valid.row (h : g.Valid) (hc : clust < g.clustCnt) :
    clust / 128 < g.clustCnt / 128 := by
  have hwhole := h.whole
  omega

theorem Geometry.Valid.itemSect0 (h : g.Valid) (hc : clust < g.clustCnt) :
    itemSect g.fatSect0 clust = g.fatSect0 + clust / 128 := by
  have hrow := h.row hc
  have hdata := h.data
  have hsmall := h.small
  exact Nat.mod_eq_of_lt (by omega)

theorem Geometry.Valid.itemSect1 (h : g.Valid) (hc : clust < g.clustCnt) :
    itemSect g.fatSect1 clust = g.fatSect1 + clust / 128 := by
  have hrow := h.row hc
  have hdata := h.data
  have hsmall := h.small
  exact Nat.mod_eq_of_lt (by omega)

end Sectors

/-! ### Cells -/

namespace Plain

variable (p : Plain)

/-- The item of a cluster in the FAT that begins at a sector. -/
def entry (fatSect clust : Nat) : Nat := item (p.sectors (itemSect fatSect clust)) (clust % 128)

/-- What an item says. -/
def cellOf (clustCnt item : Nat) : Cell Nat :=
  match classify clustCnt item with
  | .ok (_, .free) => .free
  | .ok (val, .used) => .next val
  | .ok (_, .usedLast) => .last
  | .ok (_, .bad) => .bad
  | .error _ => .broken

/-- What the active FAT says of a cluster. -/
def cell (clust : Nat) : Cell Nat :=
  cellOf p.geometry.clustCnt (p.entry p.geometry.fatSect0 clust)

/-- The volume after `put_fat`. -/
def put (clust val : Nat) : Plain :=
  let p := if p.geometry.fatSect1 ≠ 0 then
      p.change (itemSect p.geometry.fatSect1 clust) (putItem (clust % 128) val) else p
  p.change (itemSect p.geometry.fatSect0 clust) (putItem (clust % 128) val)

/-- The two FATs hold the same items, up to the upper nibble. -/
def Mirrored : Prop :=
  p.geometry.fatSect1 ≠ 0 → ∀ clust < p.geometry.clustCnt,
    p.entry p.geometry.fatSect1 clust % 2 ^ 28 = p.entry p.geometry.fatSect0 clust % 2 ^ 28

variable {p} {clust clust' val sect i : Nat}

@[simp] theorem change_geometry (f : Sector → Sector) : (p.change sect f).geometry = p.geometry :=
  rfl

theorem change_self (f : Sector → Sector) :
    (p.change sect f).sectors sect = f (p.sectors sect) := by
  show Function.update p.sectors sect (f (p.sectors sect)) sect = _
  rw [Function.update_self]

theorem change_of_ne (hne : i ≠ sect) (f : Sector → Sector) :
    (p.change sect f).sectors i = p.sectors i := by
  show Function.update p.sectors sect (f (p.sectors sect)) i = _
  rw [Function.update_of_ne hne]

@[simp] theorem put_geometry (clust val : Nat) : (p.put clust val).geometry = p.geometry := by
  unfold put
  split <;> rfl

@[simp] theorem put_lastUsed (clust val : Nat) : (p.put clust val).lastUsed = p.lastUsed := by
  unfold put
  split <;> rfl

@[simp] theorem put_freeCnt (clust val : Nat) : (p.put clust val).freeCnt = p.freeCnt := by
  unfold put
  split <;> rfl

@[simp] theorem put_infoDirty (clust val : Nat) : (p.put clust val).infoDirty = p.infoDirty := by
  unfold put
  split <;> rfl

theorem put_of_mirror (hmirror : p.geometry.fatSect1 ≠ 0) (clust val : Nat) :
    p.put clust val
      = (p.change (itemSect p.geometry.fatSect1 clust) (putItem (clust % 128) val)).change
          (itemSect p.geometry.fatSect0 clust) (putItem (clust % 128) val) := by
  unfold put
  rw [if_pos hmirror]
  rfl

theorem put_of_none (hmirror : ¬ p.geometry.fatSect1 ≠ 0) (clust val : Nat) :
    p.put clust val
      = p.change (itemSect p.geometry.fatSect0 clust) (putItem (clust % 128) val) := by
  unfold put
  rw [if_neg hmirror]

/-- A put changes sectors of the FATs only. -/
theorem put_sectors (h0 : i ≠ itemSect p.geometry.fatSect0 clust)
    (h1 : p.geometry.fatSect1 ≠ 0 → i ≠ itemSect p.geometry.fatSect1 clust) :
    (p.put clust val).sectors i = p.sectors i := by
  by_cases hmirror : p.geometry.fatSect1 ≠ 0
  · rw [put_of_mirror hmirror, change_of_ne h0, change_of_ne (h1 hmirror)]
  · rw [put_of_none hmirror, change_of_ne h0]

/-- The items of a FAT after a change of one of them. -/
theorem entry_change (fatSect : Nat) (hsame : itemSect fatSect clust' = itemSect fatSect clust →
      clust' / 128 = clust / 128) :
    (p.change (itemSect fatSect clust) (putItem (clust % 128) val)).entry fatSect clust'
      = if clust' = clust then p.entry fatSect clust / 2 ^ 28 * 2 ^ 28 + val % 2 ^ 28
        else p.entry fatSect clust' := by
  unfold entry
  by_cases hrow : itemSect fatSect clust' = itemSect fatSect clust
  · rw [hrow, change_self]
    split
    · next heq => rw [heq, item_putItem_self]
    · next hne =>
        have hdiv := hsame hrow
        rw [item_putItem_of_ne (by omega)]
  · rw [change_of_ne hrow, if_neg]
    rintro rfl
    exact hrow rfl

/-- Items in other sectors stay. -/
theorem entry_change_of_ne {fatSect : Nat} (hne : itemSect fatSect clust' ≠ sect)
    (f : Sector → Sector) : (p.change sect f).entry fatSect clust' = p.entry fatSect clust' := by
  unfold entry
  rw [change_of_ne hne]

section Valid
variable (hg : p.geometry.Valid)
include hg

/-- The two FATs have no sector in common. -/
theorem itemSect_ne (hmirror : p.geometry.fatSect1 ≠ 0) (hc : clust < p.geometry.clustCnt)
    (hc' : clust' < p.geometry.clustCnt) :
    itemSect p.geometry.fatSect0 clust ≠ itemSect p.geometry.fatSect1 clust' := by
  rw [hg.itemSect0 hc, hg.itemSect1 hc']
  have hrow := hg.row hc
  have hrow' := hg.row hc'
  have hdisjoint := (hg.mirror hmirror).2
  omega

/-- The items of the active FAT after a put. -/
theorem entry_put (hc : clust < p.geometry.clustCnt) (hc' : clust' < p.geometry.clustCnt) :
    (p.put clust val).entry p.geometry.fatSect0 clust'
      = if clust' = clust then
          p.entry p.geometry.fatSect0 clust / 2 ^ 28 * 2 ^ 28 + val % 2 ^ 28
        else p.entry p.geometry.fatSect0 clust' := by
  have hsame : itemSect p.geometry.fatSect0 clust' = itemSect p.geometry.fatSect0 clust →
      clust' / 128 = clust / 128 := by
    rw [hg.itemSect0 hc, hg.itemSect0 hc']
    omega
  by_cases hmirror : p.geometry.fatSect1 ≠ 0
  · rw [put_of_mirror hmirror, entry_change _ hsame,
      entry_change_of_ne (itemSect_ne hg hmirror hc hc),
      entry_change_of_ne (itemSect_ne hg hmirror hc' hc)]
  · rw [put_of_none hmirror]
    exact entry_change p.geometry.fatSect0 hsame

/-- The items of the mirror after a put. -/
theorem entry_put_mirror (hmirror : p.geometry.fatSect1 ≠ 0) (hc : clust < p.geometry.clustCnt)
    (hc' : clust' < p.geometry.clustCnt) :
    (p.put clust val).entry p.geometry.fatSect1 clust'
      = if clust' = clust then
          p.entry p.geometry.fatSect1 clust / 2 ^ 28 * 2 ^ 28 + val % 2 ^ 28
        else p.entry p.geometry.fatSect1 clust' := by
  have hsame : itemSect p.geometry.fatSect1 clust' = itemSect p.geometry.fatSect1 clust →
      clust' / 128 = clust / 128 := by
    rw [hg.itemSect1 hc, hg.itemSect1 hc']
    omega
  rw [put_of_mirror hmirror, entry_change_of_ne (itemSect_ne hg hmirror hc hc').symm]
  exact entry_change p.geometry.fatSect1 hsame

/-- What the FAT says after a put. -/
theorem cell_put (hc : clust < p.geometry.clustCnt) (hc' : clust' < p.geometry.clustCnt) :
    (p.put clust val).cell clust'
      = if clust' = clust then cellOf p.geometry.clustCnt (val % 2 ^ 28) else p.cell clust' := by
  unfold cell
  rw [put_geometry, entry_put hg hc hc']
  split
  · -- The upper nibble plays no part.
    have hlow : ∀ x y : Nat, x % 2 ^ 28 = y % 2 ^ 28 →
        cellOf p.geometry.clustCnt x = cellOf p.geometry.clustCnt y := by
      intro x y hxy
      unfold cellOf classify
      rw [and_low, and_low, hxy]
    exact hlow _ _ (by omega)
  · rfl

/-- A put keeps the mirror. -/
theorem mirrored_put (h : p.Mirrored) (hc : clust < p.geometry.clustCnt) :
    (p.put clust val).Mirrored := by
  intro hmirror clust' hc'
  rw [put_geometry] at hmirror hc' ⊢
  rw [entry_put hg hc hc', entry_put_mirror hg hmirror hc hc']
  have hsame := h hmirror clust' hc'
  split <;> omega

end Valid

theorem cellOf_zero (clustCnt : Nat) : cellOf clustCnt (0 % 2 ^ 28) = .free := rfl

theorem cellOf_eoc (clustCnt : Nat) : cellOf clustCnt (0x0fffffff % 2 ^ 28) = .last := by
  norm_num [cellOf, classify]

/-- The number of a cluster is a link to it. -/
theorem cellOf_link {clustCnt clust : Nat} (h2 : 2 ≤ clust) (hc : clust < clustCnt)
    (hcount : clustCnt ≤ 0x0ffffff7) : cellOf clustCnt (clust % 2 ^ 28) = .next clust := by
  have hmod : clust % 2 ^ 28 &&& 0x0fffffff = clust := by
    rw [and_low]
    omega
  simp only [cellOf, classify, hmod]
  rw [if_neg (by omega), if_neg (by omega), if_neg (by omega), if_pos ⟨h2, hc⟩]

/-- The cell that `get_fat` describes. -/
def cellRead : Nat × ClustFlags → Cell Nat
  | (_, .free) => .free
  | (val, .used) => .next val
  | (_, .usedLast) => .last
  | (_, .bad) => .bad

theorem cellRead_free {r : Nat × ClustFlags} : cellRead r = .free ↔ r.2 = .free := by
  obtain ⟨val, flags⟩ := r
  cases flags <;> simp [cellRead]

/-- What the flags of an item say. -/
theorem cellRead_eq {r : Nat × ClustFlags} (h : classify p.geometry.clustCnt
      (p.entry p.geometry.fatSect0 clust) = .ok r) : cellRead r = p.cell clust := by
  obtain ⟨val, flags⟩ := r
  simp only [cell, cellOf, h]
  cases flags <;> rfl

theorem cell_broken {e : Stop} (h : classify p.geometry.clustCnt
      (p.entry p.geometry.fatSect0 clust) = .error e) : p.cell clust = .broken := by
  simp only [cell, cellOf, h]

end Plain

/-! ### `get_fat` and `put_fat` -/

/-- What the calls of `put_fat2` leave, one after the other. -/
def Plain.putSteps (p : Plain) (clust val : Nat) : List Plain :=
  (if p.geometry.fatSect1 ≠ 0 then
    [p.change (itemSect p.geometry.fatSect1 clust) (putItem (clust % 128) val)] else [])
  ++ [p.put clust val]

section Functions
variable {F : Faults} {G : Guard} {v : Volume} {p : Plain} {clust val : Nat}

/-- What a command leaves that only reads. -/
def Reads (F : Faults) (G : Guard) (v : Volume) (p : Plain) (v' : Volume) : Prop :=
  Shows F G v' p ∧ (Synced v → Synced v')

theorem Reads.trans {v' v'' : Volume} (h : Reads F G v p v') (h' : Reads F G v' p v'') :
    Reads F G v p v'' := ⟨h'.1, h'.2 ∘ h.2⟩

/-- `get_fat` returns what the item says. -/
theorem getFat_shows (h : Shows F G v p) (hsect : itemSect p.geometry.fatSect0 clust ≠ 0) :
    Ends (getFat clust) v
      (fun r v' => Reads F G v p v' ∧
        classify p.geometry.clustCnt (p.entry p.geometry.fatSect0 clust) = .ok r)
      fun e v' => Stopped F G e v' ∨ Reads F G v p v' ∧
        classify p.geometry.clustCnt (p.entry p.geometry.fatSect0 clust) = .error e := by
  simp only [getFat, ends_bind, ends_get]
  rw [h.geometry]
  refine (updateBuf_shows h hsect).mono (fun _ v₁ h₁ => ?_) fun _ _ he => .inl he
  obtain ⟨h₁, hat, hsynced⟩ := h₁
  have hbuf : v₁.fat.buf = p.sectors (itemSect p.geometry.fatSect0 clust) := by
    rw [h₁.buffered (hat ▸ hsect), hat]
  rw [hbuf, h₁.geometry]
  have hitem : item (p.sectors (itemSect p.geometry.fatSect0 clust)) (clust % 128)
      = p.entry p.geometry.fatSect0 clust := rfl
  rw [hitem]
  cases hc : classify p.geometry.clustCnt (p.entry p.geometry.fatSect0 clust) with
  | ok r => exact ⟨⟨h₁, hsynced⟩, rfl⟩
  | error e => exact .inr ⟨⟨h₁, hsynced⟩, rfl⟩

/-- `put_fat` writes the item to both FATs. -/
theorem putFat_shows (h : Shows F G v p) (h0 : itemSect p.geometry.fatSect0 clust ≠ 0)
    (h1 : p.geometry.fatSect1 ≠ 0 → itemSect p.geometry.fatSect1 clust ≠ 0)
    (hG : ∀ q ∈ p.putSteps clust val, G.holds q.sectors) :
    Ends (putFat clust val) v (fun _ v' => Shows F G v' (p.put clust val)) (Stopped F G) := by
  have hput : G.holds (p.put clust val).sectors :=
    hG _ (List.mem_append_right _ (List.mem_singleton_self _))
  simp only [putFat, ends_bind, ends_get]
  rw [h.geometry, ends_ite]
  split
  · next hmirror =>
      rw [Plain.put_of_mirror hmirror] at hput ⊢
      have hfirst := hG (p.change (itemSect p.geometry.fatSect1 clust)
        (putItem (clust % 128) val)) (by simp [Plain.putSteps, hmirror])
      refine (updateBuf_changeBuf_shows h (h1 hmirror) _ hfirst).bind fun _ v₁ h₁ => ?_
      exact (updateBuf_changeBuf_shows h₁.1 h0 _ hput).mono (fun _ _ h₂ => h₂.1) fun _ _ he => he
  · next hnone =>
      rw [Plain.put_of_none hnone] at hput ⊢
      exact (updateBuf_changeBuf_shows h h0 _ hput).mono (fun _ _ h₂ => h₂.1) fun _ _ he => he

end Functions

end DemoOS.Fat32
