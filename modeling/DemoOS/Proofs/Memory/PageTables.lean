import DemoOS.Libs.Mm
import DemoOS.Support.TableWalk
import Mathlib.Data.Nat.Bitwise

/-!
# `DemoOS.Proofs.Memory.PageTables`: the page tables are a map from page numbers to frames

`map_page` builds a tree of tables in pages that it takes from the allocator. `PageTables` is
its invariant: the pages in `kernel_pages` are fresh, distinct, and form a tree in the sense of
`Support/TableWalk.lean`, whose two updates are what `map_table` and `map_table_entry` do
(`PageTables.mapLevel` and `PageTables.mapTableEntry`). The indices of an address are the digits
of its page number (`pagePath_eq_iff`), so that the walks are a map from page numbers to frames,
and `mapPages_refines` compares it with the list of calls.

The arrays `user_pages` and `kernel_pages` are lists here. The results hold for lists of any
length, and so for the 16 entries that fit into each array.
-/

set_option autoImplicit false

namespace DemoOS

open Support

/-! ### Words and indices -/

section Words

/-- Masking the page bits and the bits from `12 + k` on. -/
theorem and_pageMask (x k : Nat) : x &&& ((2 ^ k - 1) * 2 ^ 12) = x / 2 ^ 12 % 2 ^ k * 2 ^ 12 := by
  refine Nat.eq_of_testBit_eq fun i => ?_
  rw [Nat.testBit_and, Nat.testBit_mul_two_pow, Nat.testBit_mul_two_pow, Nat.testBit_mod_two_pow,
    Nat.testBit_two_pow_sub_one, Nat.testBit_div_two_pow]
  by_cases hi : 12 ≤ i
  · simp only [hi, decide_true, Bool.true_and, Nat.sub_add_cancel hi]
    rw [Bool.and_comm]
  · simp [hi]

theorem and_mmuMask (x : Nat) : x &&& 0xfffffffff000 = x / 4096 % 68719476736 * 4096 :=
  and_pageMask x 36

theorem and_PAGE_MASK (x : Nat) : x &&& PAGE_MASK = x / 4096 % 4503599627370496 * 4096 :=
  and_pageMask x 52

/-- Flags below the page bits of an aligned address. -/
theorem or_flags {a f : Nat} (ha : a % 4096 = 0) (hf : f < 4096) : a ||| f = a + f := by
  have hshift : a = (a / 4096) <<< 12 := by
    rw [Nat.shiftLeft_eq]
    omega
  rw [hshift]
  exact (Nat.shiftLeft_add_eq_or_of_lt (i := 12) hf _).symm

theorem tableIndex_eq (va shift : Nat) : tableIndex va shift = va / 2 ^ shift % 512 := by
  rw [tableIndex, Nat.shiftRight_eq_div_pow]
  exact Nat.and_two_pow_sub_one_eq_mod _ 9

theorem tableIndex_lt (va shift : Nat) : tableIndex va shift < PTRS_PER_TABLE := by
  rw [tableIndex_eq]
  exact Nat.mod_lt _ (by decide)

/-- The index of the virtual address in a table, as an index. -/
def tableSlot (va shift : Nat) : Fin PTRS_PER_TABLE := ⟨tableIndex va shift, tableIndex_lt va shift⟩

/-- The indices of a virtual address, level by level. -/
def pagePath (va : Nat) : List (Fin PTRS_PER_TABLE) :=
  [tableSlot va PGD_SHIFT, tableSlot va PUD_SHIFT, tableSlot va PMD_SHIFT, tableSlot va PAGE_SHIFT]

/-- The page of a virtual address: bits 12 to 47. -/
def pageNumber (va : Nat) : Nat := va / PAGE_SIZE % 2 ^ 36

/-- Four digits to the base 512 make up 36 bits. -/
theorem digits_eq_iff (n n' : Nat) :
    (n / 134217728 % 512 = n' / 134217728 % 512 ∧ n / 262144 % 512 = n' / 262144 % 512
      ∧ n / 512 % 512 = n' / 512 % 512 ∧ n % 512 = n' % 512)
      ↔ n % 68719476736 = n' % 68719476736 := by
  omega

theorem pagePath_length (va : Nat) : (pagePath va).length = 4 := rfl

/-- The indices are the digits of the page number. -/
theorem pagePath_eq_iff {va va' : Nat} :
    pagePath va = pagePath va' ↔ pageNumber va = pageNumber va' := by
  have hshift : ∀ x k : Nat, x / 2 ^ (12 + k) = x / 4096 / 2 ^ k := fun x k => by
    rw [Nat.pow_add, Nat.div_div_eq_div_mul]
  have hdigits := digits_eq_iff (va / 4096) (va' / 4096)
  simp only [pagePath, tableSlot, tableIndex_eq, pageNumber, List.cons.injEq, Fin.mk.injEq,
    and_true]
  rw [show PGD_SHIFT = 12 + 27 from rfl, show PUD_SHIFT = 12 + 18 from rfl,
    show PMD_SHIFT = 12 + 9 from rfl, show PAGE_SHIFT = 12 + 0 from rfl, hshift, hshift, hshift,
    hshift, hshift, hshift, hshift, hshift]
  simpa using hdigits

end Words

namespace Memory

/-! ### Entries of table pages -/

/-- The tables that the MMU finds in the entries of a table. -/
def entries (m : Memory) (t : Nat) (i : Fin PTRS_PER_TABLE) : Option Nat := m.nextTable t i

/-- The walk of the MMU follows the indices of the address. -/
theorem translate_eq (m : Memory) (pgd va : Nat) :
    m.translate pgd va = (tableWalk m.entries pgd (pagePath va)).map (· + va % PAGE_SIZE) := by
  have hentries : ∀ t shift, m.nextTable t (tableIndex va shift) = m.entries t (tableSlot va shift) :=
    fun _ _ => rfl
  simp only [translate, pagePath, tableWalk_cons, tableWalk_nil, hentries, Option.bind_eq_bind,
    Option.map_bind, Function.comp_def, Option.map_some, Option.pure_def]

section Entries
variable {m : Memory} {p q i j v : Nat}

/-- A descriptor as its number. -/
theorem nextTable_eq (m : Memory) (t i : Nat) :
    m.nextTable t i
      = if m.entry t i % 4 = 3 then some (m.entry t i / 4096 % 68719476736 * 4096) else none := by
  simp only [nextTable, and_mmuMask]

theorem pageAddress_eq (p : Nat) : pageAddress p = 4194304 + p * 4096 := rfl

/-- Clearing a page clears its entries, -/
theorem entry_memzero_self (m : Memory) (t : Nat) (hi : i < PTRS_PER_TABLE) :
    (m.memzero t PAGE_SIZE).entry t i = 0 := by
  have hlt : i < 512 := hi
  refine ByteMemory.load_zero fun b hb hb' => ?_
  exact ByteMemory.patch_inside (a := t) (n := 4096) (g := fun _ => 0) ⟨by omega, by omega⟩

/-- and no others. -/
theorem entry_memzero_of_ne (hpq : q ≠ p) (hi : i < PTRS_PER_TABLE) :
    (m.memzero (pageAddress p) PAGE_SIZE).entry (pageAddress q) i = m.entry (pageAddress q) i := by
  have hlt : i < 512 := hi
  refine ByteMemory.load_patch_outside (a := pageAddress p) (n := 4096)
    (c := pageAddress q + 8 * i) (k := 8) ?_
  rw [pageAddress_eq, pageAddress_eq]
  omega

/-- An entry holds 64 bits of what is written to it, -/
theorem entry_setEntry_self (m : Memory) (t i v : Nat) :
    (m.setEntry t i v).entry t i = v % 18446744073709551616 :=
  ByteMemory.load_digits (a := t + 8 * i) (n := 8) fun _ hn => ByteMemory.patch_add hn

/-- and the other entries of the table pages stay. -/
theorem entry_setEntry_of_ne (hi : i < PTRS_PER_TABLE) (hj : j < PTRS_PER_TABLE)
    (hne : q ≠ p ∨ j ≠ i) :
    (m.setEntry (pageAddress p) i v).entry (pageAddress q) j = m.entry (pageAddress q) j := by
  have hi' : i < 512 := hi
  have hj' : j < 512 := hj
  refine ByteMemory.load_patch_outside (a := pageAddress p + 8 * i) (n := 8)
    (c := pageAddress q + 8 * j) (k := 8) ?_
  rw [pageAddress_eq, pageAddress_eq]
  omega

theorem entry_claimPage_of_ne (hpq : q ≠ p) (hi : i < PTRS_PER_TABLE) :
    (m.claimPage p).entry (pageAddress q) i = m.entry (pageAddress q) i :=
  entry_memzero_of_ne (m := m.setPage p true) hpq hi

end Entries

/-! ### The allocator -/

section Allocator
variable {m : Memory} {p q : Nat}

theorem pageAddress_inj (h : pageAddress p = pageAddress q) : p = q := by
  rw [← pageIndex_pageAddress p, h, pageIndex_pageAddress]

/-- The loop of `get_free_page` ends at a free slot. -/
theorem findFreePage_free {fuel i : Nat} (h : m.findFreePage fuel i = some p) :
    p < i + fuel ∧ m.memoryPages p = false := by
  induction fuel generalizing i with
  | zero => exact nomatch h
  | succ fuel ih =>
      rw [findFreePage] at h
      split at h
      · obtain ⟨hlt, hfree⟩ := ih h
        exact ⟨by omega, hfree⟩
      · next hused =>
          rw [← Option.some.inj h]
          exact ⟨by omega, by simpa using hused⟩

/-- `get_free_page` fails, or claims a free page. -/
theorem getFreePage_cases (m : Memory) :
    m.getFreePage = (m, 0) ∨ ∃ p < N_PAGES, m.memoryPages p = false
      ∧ m.getFreePage = (m.claimPage p, pageAddress p) := by
  unfold getFreePage
  cases hfound : m.findFreePage N_PAGES 0 with
  | none => exact Or.inl rfl
  | some p =>
      obtain ⟨hlt, hfree⟩ := findFreePage_free hfound
      exact Or.inr ⟨p, by rwa [Nat.zero_add] at hlt, hfree, rfl⟩

theorem claimPage_memoryPages (m : Memory) (p q : Nat) :
    (m.claimPage p).memoryPages q = true ↔ m.memoryPages q = true ∨ q = p := by
  show Function.update m.memoryPages p true q = true ↔ _
  by_cases hqp : q = p
  · simp [hqp]
  · simp [hqp]

end Allocator

/-! ### The tables of a process -/

/-- The pages in `kernel_pages` were free in `m₀` and hold the page tables of the process, a tree
of four levels below `pgd` whose entries are empty or valid. -/
structure PageTables (m₀ m : Memory) (mm : MmStruct) : Prop where
  fresh : ∀ t ∈ mm.kernelPages, ∃ p < N_PAGES, t = pageAddress p ∧ m₀.memoryPages p = false
  nodup : mm.kernelPages.Nodup
  allocated : ∀ p, m.memoryPages p = true
    ↔ m₀.memoryPages p = true ∨ pageAddress p ∈ mm.kernelPages
  valid : ∀ t ∈ mm.kernelPages, ∀ i : Fin PTRS_PER_TABLE,
    m.entry t i = 0 ∨ m.entry t i % 4 = 3
  tree : IsTree m.entries mm.pgd 4 mm.kernelPages
  /-- `map_table` masks fewer bits than the MMU, which makes no difference above the leaves. -/
  interior : ∀ {π t}, π.length < 3 → tableWalk m.entries mm.pgd π = some t →
    ∀ i : Fin PTRS_PER_TABLE, m.entry t i < 281474976710656

namespace PageTables

variable {m₀ m m' : Memory} {mm mm' : MmStruct} {π : List (Fin PTRS_PER_TABLE)} {t next va : Nat}

theorem pgd_mem (h : PageTables m₀ m mm) : mm.pgd ∈ mm.kernelPages :=
  have hroot : tableWalk m.entries mm.pgd [] = some mm.pgd := tableWalk_nil
  h.tree.mem (by decide) hroot

/-- A page that is free now was free at first, and is none of the tables. -/
theorem free (h : PageTables m₀ m mm) {p : Nat} (hfree : m.memoryPages p = false) :
    m₀.memoryPages p = false ∧ pageAddress p ∉ mm.kernelPages := by
  have hnot := (h.allocated p).not.mp (by rw [hfree]; decide)
  obtain ⟨h₀, hT⟩ := not_or.mp hnot
  exact ⟨by simpa using h₀, hT⟩

/-- What hanging the empty page `p` into entry `i` of the page `s` does to the entries of table
pages. -/
structure LinksTable (m m' : Memory) (s i p : Nat) : Prop where
  self : m'.entry (pageAddress s) i = pageAddress p + 3
  other : ∀ q j, q ≠ p → j < PTRS_PER_TABLE → q ≠ s ∨ j ≠ i →
    m'.entry (pageAddress q) j = m.entry (pageAddress q) j
  empty : ∀ j < PTRS_PER_TABLE, m'.entry (pageAddress p) j = 0

/-- The creation of a table by `map_table`. -/
theorem linksTable (m : Memory) {s i p : Nat} (hi : i < PTRS_PER_TABLE) (hp : p < N_PAGES)
    (hps : p ≠ s) :
    LinksTable m (((m.claimPage p).memzero (pageAddress p) PAGE_SIZE).setEntry (pageAddress s) i
      (pageAddress p ||| MM_TYPE_PAGE_TABLE)) s i p where
  self := by
    have haddress := pageAddress_eq p
    have hpages : p < 257024 := hp
    rw [entry_setEntry_self, or_flags (pageAddress_mod p) (by decide)]
    show (pageAddress p + 3) % 18446744073709551616 = pageAddress p + 3
    omega
  other q j hqp hj hne := by
    rw [entry_setEntry_of_ne hi hj hne, entry_memzero_of_ne hqp hj, entry_claimPage_of_ne hqp hj]
  empty j hj := by
    rw [entry_setEntry_of_ne hi hj (Or.inl hps), entry_memzero_self _ _ hj]

/-- The tables are other pages than a free one. -/
theorem other_page (h : PageTables m₀ m mm) {p q : Nat} (hfree : m.memoryPages p = false)
    (hq : q ∈ mm.kernelPages) : ∃ r, q = pageAddress r ∧ r ≠ p := by
  obtain ⟨r, -, rfl, -⟩ := h.fresh q hq
  exact ⟨r, rfl, fun he => (h.free hfree).2 (he ▸ hq)⟩

/-- The new entry as the MMU sees it. -/
theorem LinksTable.writes {s p : Nat} {i : Fin PTRS_PER_TABLE} (hl : LinksTable m m' s i p)
    (h : PageTables m₀ m mm) (hp : p < N_PAGES) (hfree : m.memoryPages p = false) :
    IsTree.Writes m.entries m'.entries mm.kernelPages (pageAddress s) i (pageAddress p) := by
  have haddress := pageAddress_eq p
  have hpages : p < 257024 := hp
  have hvalid : (pageAddress p + 3) % 4 = 3 := by omega
  have hnext : (pageAddress p + 3) / 4096 % 68719476736 * 4096 = pageAddress p := by omega
  refine ⟨?_, fun q hq j hne => ?_⟩
  · rw [entries, nextTable_eq, hl.self, if_pos hvalid, hnext]
  · obtain ⟨r, rfl, hrp⟩ := h.other_page hfree hq
    have hrs : r ≠ s ∨ (j : Nat) ≠ i :=
      hne.imp (fun h he => h (he ▸ rfl)) fun h he => h (Fin.ext he)
    rw [entries, entries, nextTable_eq, nextTable_eq, hl.other r j hrp j.isLt hrs]

/-- A new table in an empty entry above the last level. -/
theorem addTable (h : PageTables m₀ m mm) {s p : Nat} {i : Fin PTRS_PER_TABLE}
    (hπ : tableWalk m.entries mm.pgd π = some (pageAddress s)) (hlen : π.length < 3)
    (hzero : m.entry (pageAddress s) i = 0) (hp : p < N_PAGES) (hfree : m.memoryPages p = false)
    (hl : LinksTable m m' s i p)
    (hpages : ∀ q, m'.memoryPages q = true ↔ m.memoryPages q = true ∨ q = p) :
    PageTables m₀ m' { mm with kernelPages := mm.kernelPages ++ [pageAddress p] }
      ∧ tableWalk m'.entries mm.pgd (π ++ [i]) = some (pageAddress p)
      ∧ ∀ ρ, ρ.length = 4 → tableWalk m'.entries mm.pgd ρ = tableWalk m.entries mm.pgd ρ := by
  obtain ⟨hfree₀, hpT⟩ := h.free hfree
  have hw := hl.writes h hp hfree
  have hπlen := Nat.lt_succ_of_lt hlen
  have hunused : m.entries (pageAddress s) i = none := by
    rw [entries, nextTable_eq, hzero]
    rfl
  have hnone : ∀ j, m'.entries (pageAddress p) j = none := by
    intro j
    rw [entries, nextTable_eq, hl.empty j j.isLt]
    rfl
  obtain ⟨htree, hend, hfull⟩ := h.tree.addTable hw hπ (Nat.succ_lt_succ hlen) hunused hpT hnone
  -- An entry of an old table is the new one, or what it was.
  have hentry : ∀ r, r ≠ p → ∀ j : Fin PTRS_PER_TABLE,
      m'.entry (pageAddress r) j = pageAddress p + 3
        ∨ m'.entry (pageAddress r) j = m.entry (pageAddress r) j := by
    intro r hrp j
    by_cases hij : r = s ∧ (j : Nat) = i
    · rw [hij.1, hij.2]
      exact Or.inl hl.self
    · exact Or.inr (hl.other r j hrp j.isLt (by omega))
  have haddress := pageAddress_eq p
  have hbound : p < 257024 := hp
  refine ⟨⟨fun q hq => ?_, ?_, fun q => ?_, fun q hq j => ?_, htree, fun {ρ q} hρ hq j => ?_⟩,
    hend, hfull⟩
  · rcases List.mem_append.mp hq with hq | hq
    · exact h.fresh q hq
    · exact ⟨p, hp, List.mem_singleton.mp hq, hfree₀⟩
  · rw [List.nodup_append]
    refine ⟨h.nodup, List.pairwise_singleton _ _, fun q hq r hr he => hpT ?_⟩
    rwa [← List.mem_singleton.mp hr, ← he]
  · have hpq : pageAddress q = pageAddress p ↔ q = p := ⟨pageAddress_inj, fun he => he ▸ rfl⟩
    rw [hpages, h.allocated q, List.mem_append, List.mem_singleton, hpq, or_assoc]
  · rcases List.mem_append.mp hq with hq | hq
    · obtain ⟨r, rfl, hrp⟩ := h.other_page hfree hq
      rcases hentry r hrp j with he | he <;> rw [he]
      · exact Or.inr (by omega)
      · exact h.valid _ hq j
    · rw [List.mem_singleton.mp hq]
      exact Or.inl (hl.empty j j.isLt)
  · rcases List.mem_append.mp (htree.mem (Nat.lt_succ_of_lt hρ) hq) with hqT | hqT
    · obtain ⟨r, rfl, hrp⟩ := h.other_page hfree hqT
      rcases hentry r hrp j with he | he <;> rw [he]
      · omega
      · -- An old table is reached by the path that reached it before.
        refine h.interior hρ ?_ j
        have hold := h.tree.walk_of_not_prefix hw hπ hπlen (Nat.le_of_lt (Nat.lt_succ_of_lt hρ))
          fun hprefix => ?_
        · rw [← hold]
          exact hq
        · obtain ⟨σ, rfl⟩ := hprefix
          rw [h.tree.walk_of_prefix hw hπ hπlen] at hq
          cases σ with
          | nil => exact absurd (pageAddress_inj (Option.some.inj hq)) (Ne.symm hrp)
          | cons j' σ =>
              rw [tableWalk_cons, hnone] at hq
              exact nomatch hq
    · rw [List.mem_singleton.mp hqT, hl.empty j j.isLt]
      decide

/-- `map_table` where the entry is in use, -/
theorem mapLevel_of_entry {shift : Nat} (hused : m.entry t (tableIndex va shift) ≠ 0) :
    m.mapLevel mm t shift va = (m, mm, m.entry t (tableIndex va shift) &&& PAGE_MASK) := by
  simp only [Memory.mapLevel, Memory.mapTable, if_neg hused]
  rfl

/-- and where it is not. -/
theorem mapLevel_of_page {shift a : Nat} {m₁ : Memory} (hzero : m.entry t (tableIndex va shift) = 0)
    (hpage : m.getFreePage = (m₁, a)) :
    m.mapLevel mm t shift va
      = ((m₁.memzero a PAGE_SIZE).setEntry t (tableIndex va shift) (a ||| MM_TYPE_PAGE_TABLE),
        { mm with kernelPages := mm.kernelPages ++ [a] }, a) := by
  simp only [Memory.mapLevel, Memory.mapTable, if_pos hzero, hpage]
  rfl

/-- `map_table` for a level above the last, with the bookkeeping of `map_page`: the table that
it answers with is the next one on the path, and nothing that is mapped changes. -/
theorem mapLevel (h : PageTables m₀ m mm) (hπ : tableWalk m.entries mm.pgd π = some t)
    (hlen : π.length < 3) {shift : Nat} (hrun : m.mapLevel mm t shift va = (m', mm', next))
    (hok : 0 ∉ mm'.kernelPages) :
    PageTables m₀ m' mm' ∧ mm'.pgd = mm.pgd ∧ mm'.userPages = mm.userPages
      ∧ tableWalk m'.entries mm'.pgd (π ++ [tableSlot va shift]) = some next
      ∧ ∀ ρ, ρ.length = 4 → tableWalk m'.entries mm'.pgd ρ = tableWalk m.entries mm.pgd ρ := by
  have htT := h.tree.mem (Nat.lt_succ_of_lt hlen) hπ
  obtain ⟨s, -, rfl, -⟩ := h.fresh t htT
  by_cases hzero : m.entry (pageAddress s) (tableIndex va shift) = 0
  · rcases m.getFreePage_cases with hfail | ⟨p, hp, hfree, hpage⟩
    · -- A failing allocation is recorded as page 0.
      rw [mapLevel_of_page hzero hfail] at hrun
      rw [← (Prod.mk.inj (Prod.mk.inj hrun).2).1] at hok
      exact absurd (List.mem_append_right _ List.mem_cons_self) hok
    · rw [mapLevel_of_page hzero hpage] at hrun
      simp only [Prod.mk.injEq] at hrun
      obtain ⟨rfl, rfl, rfl⟩ := hrun
      have hps : p ≠ s := fun he => (h.free hfree).2 (he ▸ htT)
      obtain ⟨htables, hend, hfull⟩ := h.addTable hπ hlen (i := tableSlot va shift) hzero hp hfree
        (linksTable m (tableIndex_lt va shift) hp hps) (claimPage_memoryPages m p)
      exact ⟨htables, rfl, rfl, hend, hfull⟩
  · rw [mapLevel_of_entry hzero] at hrun
    simp only [Prod.mk.injEq] at hrun
    obtain ⟨rfl, rfl, rfl⟩ := hrun
    refine ⟨h, rfl, rfl, ?_, fun _ _ => rfl⟩
    -- Above the last level the two masks agree.
    have hvalid := (h.valid _ htT (tableSlot va shift)).resolve_left hzero
    have hlow := h.interior hlen hπ (tableSlot va shift)
    have hmask : m.entry (pageAddress s) (tableSlot va shift) / 4096 % 4503599627370496
        = m.entry (pageAddress s) (tableSlot va shift) / 4096 % 68719476736 := by
      omega
    rw [tableWalk_concat, hπ, Option.bind_some, entries, nextTable_eq, if_pos hvalid, ← hmask,
      ← and_PAGE_MASK]
    rfl

/-- `map_table_entry`: the address gets its frame, and nobody else's mapping changes. -/
theorem mapTableEntry (h : PageTables m₀ m mm) (hπ : tableWalk m.entries mm.pgd π = some t)
    (hlen : π.length = 3) {pa : Nat} (haligned : pa % PAGE_SIZE = 0) :
    PageTables m₀ (m.mapTableEntry t va pa) mm
      ∧ tableWalk (m.mapTableEntry t va pa).entries mm.pgd (π ++ [tableSlot va PAGE_SHIFT])
        = some (pa % 281474976710656)
      ∧ ∀ ρ, ρ.length = 4 → ρ ≠ π ++ [tableSlot va PAGE_SHIFT] →
        tableWalk (m.mapTableEntry t va pa).entries mm.pgd ρ = tableWalk m.entries mm.pgd ρ := by
  have hπlen : π.length < 4 := by omega
  have htT := h.tree.mem hπlen hπ
  obtain ⟨s, -, rfl, -⟩ := h.fresh t htT
  obtain ⟨i, hi⟩ : ∃ i, i = tableSlot va PAGE_SHIFT := ⟨_, rfl⟩
  obtain ⟨m', hm'⟩ : ∃ m', m' = m.mapTableEntry (pageAddress s) va pa := ⟨_, rfl⟩
  rw [← hi, ← hm']
  have haligned' : pa % 4096 = 0 := haligned
  have hself : m'.entry (pageAddress s) i = (pa + 1095) % 18446744073709551616 := by
    rw [hm', hi, Memory.mapTableEntry, ← or_flags haligned' (by decide)]
    exact entry_setEntry_self m _ _ _
  have hother : ∀ r (j : Fin PTRS_PER_TABLE), r ≠ s ∨ j ≠ i →
      m'.entry (pageAddress r) j = m.entry (pageAddress r) j := by
    intro r j hne
    rw [hm']
    refine entry_setEntry_of_ne (tableIndex_lt va PAGE_SHIFT) j.isLt (hne.imp id fun h he => h ?_)
    rw [hi]
    exact Fin.ext he
  have hvalid : (pa + 1095) % 18446744073709551616 % 4 = 3 := by omega
  have hw : IsTree.Writes m.entries m'.entries mm.kernelPages (pageAddress s) i
      (pa % 281474976710656) := by
    have hnext : (pa + 1095) % 18446744073709551616 / 4096 % 68719476736 * 4096
        = pa % 281474976710656 := by omega
    refine ⟨?_, fun q hq j hne => ?_⟩
    · rw [entries, nextTable_eq, hself, if_pos hvalid, hnext]
    · obtain ⟨r, -, rfl, -⟩ := h.fresh q hq
      rw [entries, entries, nextTable_eq, nextTable_eq,
        hother r j (hne.imp_left fun h he => h (he ▸ rfl))]
  obtain ⟨htree, hend, hkeep⟩ := h.tree.setLeaf hw hπ (by omega)
  refine ⟨⟨h.fresh, h.nodup, fun q => ?_, fun q hq j => ?_, htree, fun {ρ q} hρ hq j => ?_⟩,
    hend, fun ρ hρ hne => hkeep ρ (Or.inr ⟨hρ, hne⟩)⟩
  · rw [hm']
    exact h.allocated q
  · obtain ⟨r, -, rfl, -⟩ := h.fresh q hq
    by_cases hij : r = s ∧ j = i
    · rw [hij.1, hij.2, hself]
      exact Or.inr hvalid
    · rw [hother r j (not_and_or.mp hij)]
      exact h.valid _ hq j
  · -- The table of the leaf is not above the last level.
    rw [hkeep ρ (Or.inl (Nat.lt_succ_of_lt hρ))] at hq
    have hqT := h.tree.mem (Nat.lt_succ_of_lt hρ) hq
    obtain ⟨r, -, rfl, -⟩ := h.fresh q hqT
    have hrs : r ≠ s := by
      rintro rfl
      rw [h.tree.unique (Nat.lt_succ_of_lt hρ) hπlen hq hπ, hlen] at hρ
      exact Nat.lt_irrefl _ hρ
    rw [hother r j (Or.inl hrs)]
    exact h.interior hρ hq j

theorem pgd_ne_zero (h : PageTables m₀ m mm) : mm.pgd ≠ 0 := by
  obtain ⟨p, -, hp, -⟩ := h.fresh _ h.pgd_mem
  rw [hp]
  exact pageAddress_ne_zero p

end PageTables

/-! ### Calls of `map_page` -/

/-- The walk from `mm.pgd`. A null `pgd` is no table. -/
def walkFrom (m : Memory) (mm : MmStruct) (ρ : List (Fin PTRS_PER_TABLE)) : Option Nat :=
  if mm.pgd = 0 then none else tableWalk m.entries mm.pgd ρ

/-- The process has no tables yet, or its tables are in order. -/
def Mapped (m₀ m : Memory) (mm : MmStruct) : Prop :=
  (mm.pgd = 0 ∧ mm.kernelPages = [] ∧ m.memoryPages = m₀.memoryPages) ∨ PageTables m₀ m mm

section Calls
variable {m₀ m m' : Memory} {mm mm' : MmStruct} {va pa : Nat}

theorem PageTables.walkFrom_eq (h : PageTables m₀ m mm) (ρ : List (Fin PTRS_PER_TABLE)) :
    m.walkFrom mm ρ = tableWalk m.entries mm.pgd ρ := if_neg h.pgd_ne_zero

/-- The tracked tables stay tracked. -/
theorem mapPgd_kernelPages (m : Memory) (mm : MmStruct) :
    mm.kernelPages <+: (m.mapPgd mm).2.kernelPages := by
  unfold mapPgd
  split
  · exact List.prefix_append _ _
  · exact List.prefix_refl _

theorem mapLevel_kernelPages (m : Memory) (mm : MmStruct) (t shift va : Nat) :
    mm.kernelPages <+: (m.mapLevel mm t shift va).2.1.kernelPages := by
  unfold mapLevel
  dsimp only
  split
  · exact List.prefix_append _ _
  · exact List.prefix_refl _

/-- The address is in none of the pages. -/
def OutsidePages (pages : List Nat) (a : Nat) : Prop :=
  ∀ t ∈ pages, a < t ∨ t + PAGE_SIZE ≤ a

theorem OutsidePages.mono {pages pages' : List Nat} {a : Nat} (h : OutsidePages pages' a)
    (hsub : pages ⊆ pages') : OutsidePages pages a :=
  fun t ht => h t (hsub ht)

section Frames
variable {a t : Nat}

theorem memzero_bytes (m : Memory) (ha : a < t ∨ t + PAGE_SIZE ≤ a) :
    (m.memzero t PAGE_SIZE).bytes a = m.bytes a :=
  ByteMemory.patch_outside (g := fun _ => 0) ha

theorem setEntry_bytes (m : Memory) {i v : Nat} (hi : i < PTRS_PER_TABLE)
    (ha : a < t ∨ t + PAGE_SIZE ≤ a) : (m.setEntry t i v).bytes a = m.bytes a := by
  have hi' : i < 512 := hi
  have ha' : a < t ∨ t + 4096 ≤ a := ha
  exact ByteMemory.patch_outside (n := 8) (by omega)

theorem getFreePage_bytes (m : Memory) (ha : a < m.getFreePage.2 ∨ m.getFreePage.2 + PAGE_SIZE ≤ a) :
    m.getFreePage.1.bytes a = m.bytes a := by
  rcases m.getFreePage_cases with hfail | ⟨p, -, -, hpage⟩
  · rw [hfail]
  · rw [hpage] at ha ⊢
    exact memzero_bytes (m.setPage p true) ha

/-- The creation of the PGD writes to the new page. -/
theorem mapPgd_bytes (m : Memory) (mm : MmStruct)
    (ha : OutsidePages (m.mapPgd mm).2.kernelPages a) : (m.mapPgd mm).1.bytes a = m.bytes a := by
  unfold mapPgd at ha ⊢
  split at ha
  · next hpgd =>
      rw [if_pos hpgd]
      have hout := ha m.getFreePage.2 (List.mem_append_right _ List.mem_cons_self)
      exact (memzero_bytes _ hout).trans (getFreePage_bytes m hout)
  · next hpgd => rw [if_neg hpgd]

/-- `map_table` writes to the table and to a new one. -/
theorem mapLevel_bytes (m : Memory) (mm : MmStruct) (shift va : Nat)
    (ht : a < t ∨ t + PAGE_SIZE ≤ a)
    (ha : OutsidePages (m.mapLevel mm t shift va).2.1.kernelPages a) :
    (m.mapLevel mm t shift va).1.bytes a = m.bytes a := by
  by_cases hzero : m.entry t (tableIndex va shift) = 0
  · rw [PageTables.mapLevel_of_page hzero Prod.mk.eta.symm] at ha ⊢
    have hout := ha m.getFreePage.2 (List.mem_append_right _ List.mem_cons_self)
    refine (setEntry_bytes _ (tableIndex_lt va shift) ht).trans ?_
    exact (memzero_bytes _ hout).trans (getFreePage_bytes m hout)
  · rw [PageTables.mapLevel_of_entry hzero]

end Frames

/-- The first call creates the PGD. -/
theorem mapPgd_spec (h : Mapped m₀ m mm) (hrun : m.mapPgd mm = (m', mm'))
    (hok : 0 ∉ mm'.kernelPages) :
    PageTables m₀ m' mm' ∧ mm'.userPages = mm.userPages
      ∧ ∀ ρ, ρ.length = 4 → tableWalk m'.entries mm'.pgd ρ = m.walkFrom mm ρ := by
  rcases h with ⟨hpgd, hnil, hpages⟩ | h
  · rw [mapPgd, if_pos hpgd] at hrun
    rcases m.getFreePage_cases with hfail | ⟨p, hp, hfree, hpage⟩
    · rw [hfail] at hrun
      rw [← (Prod.mk.inj hrun).2] at hok
      exact absurd (List.mem_append_right _ List.mem_cons_self) hok
    · rw [hpage, hnil] at hrun
      simp only [Prod.mk.injEq] at hrun
      obtain ⟨rfl, rfl⟩ := hrun
      have hzero : ∀ i < PTRS_PER_TABLE,
          ((m.claimPage p).memzero (pageAddress p) PAGE_SIZE).entry (pageAddress p) i = 0 :=
        fun i hi => entry_memzero_self _ _ hi
      have hnone : ∀ i, ((m.claimPage p).memzero (pageAddress p) PAGE_SIZE).entries
          (pageAddress p) i = none := fun i => by
        rw [entries, nextTable_eq, hzero i i.isLt]
        rfl
      rw [hpages] at hfree
      have htree : IsTree _ _ 4 _ := IsTree.root_only hnone
      refine ⟨⟨fun t ht => ?_, List.pairwise_singleton _ _, fun q => ?_, fun t ht i => ?_, htree,
        fun {ρ t} hρ ht i => ?_⟩, rfl, fun ρ hρ => ?_⟩
      · exact ⟨p, hp, List.mem_singleton.mp ht, hfree⟩
      · have hpq : pageAddress q ∈ [] ++ [pageAddress p] ↔ q = p :=
          List.mem_singleton.trans ⟨pageAddress_inj, fun he => he ▸ rfl⟩
        rw [hpq, ← hpages]
        exact claimPage_memoryPages m p q
      · rw [List.mem_singleton.mp ht]
        exact Or.inl (hzero i i.isLt)
      · rw [List.mem_singleton.mp (htree.mem (Nat.lt_succ_of_lt hρ) ht), hzero i i.isLt]
        decide
      · rw [walkFrom, if_pos hpgd]
        cases ρ with
        | nil => exact nomatch hρ
        | cons i ρ => rw [tableWalk_cons, hnone, Option.bind_none]
  · rw [mapPgd, if_neg h.pgd_ne_zero] at hrun
    obtain ⟨rfl, rfl⟩ := Prod.mk.inj hrun
    exact ⟨h, rfl, fun ρ _ => (h.walkFrom_eq ρ).symm⟩

/-- One call of `map_page` maps the page of the address, and nothing else. -/
theorem mapPage_spec (h : Mapped m₀ m mm) (haligned : pa % PAGE_SIZE = 0)
    (hrun : m.mapPage mm va pa = (m', mm')) (hok : 0 ∉ mm'.kernelPages) :
    PageTables m₀ m' mm' ∧ mm'.userPages = mm.userPages ++ [⟨pa, va⟩]
      ∧ (∀ ρ, ρ.length = 4 → tableWalk m'.entries mm'.pgd ρ
        = if ρ = pagePath va then some (pa % 281474976710656) else m.walkFrom mm ρ)
      ∧ ∀ a, OutsidePages mm'.kernelPages a → m'.bytes a = m.bytes a := by
  -- The states between the levels.
  obtain ⟨⟨m₁, mm₁⟩, h₁⟩ : ∃ r, m.mapPgd mm = r := ⟨_, rfl⟩
  obtain ⟨⟨m₂, mm₂, pud⟩, h₂⟩ : ∃ r, m₁.mapLevel mm₁ mm₁.pgd PGD_SHIFT va = r := ⟨_, rfl⟩
  obtain ⟨⟨m₃, mm₃, pmd⟩, h₃⟩ : ∃ r, m₂.mapLevel mm₂ pud PUD_SHIFT va = r := ⟨_, rfl⟩
  obtain ⟨⟨m₄, mm₄, pte⟩, h₄⟩ : ∃ r, m₃.mapLevel mm₃ pmd PMD_SHIFT va = r := ⟨_, rfl⟩
  simp only [mapPage, h₁, h₂, h₃, h₄, Prod.mk.injEq] at hrun
  obtain ⟨rfl, rfl⟩ := hrun
  have hok₄ : 0 ∉ mm₄.kernelPages := hok
  have hle₃ : mm₃.kernelPages <+: mm₄.kernelPages := by
    have hle := mapLevel_kernelPages m₃ mm₃ pmd PMD_SHIFT va
    rwa [h₄] at hle
  have hle₂ : mm₂.kernelPages <+: mm₃.kernelPages := by
    have hle := mapLevel_kernelPages m₂ mm₂ pud PUD_SHIFT va
    rwa [h₃] at hle
  have hle₁ : mm₁.kernelPages <+: mm₂.kernelPages := by
    have hle := mapLevel_kernelPages m₁ mm₁ mm₁.pgd PGD_SHIFT va
    rwa [h₂] at hle
  have hok₃ : 0 ∉ mm₃.kernelPages := fun h0 => hok₄ (hle₃.subset h0)
  have hok₂ : 0 ∉ mm₂.kernelPages := fun h0 => hok₃ (hle₂.subset h0)
  have hok₁ : 0 ∉ mm₁.kernelPages := fun h0 => hok₂ (hle₁.subset h0)
  obtain ⟨ht₁, huser₁, hwalk₁⟩ := mapPgd_spec h h₁ hok₁
  have hroot : tableWalk m₁.entries mm₁.pgd [] = some mm₁.pgd := tableWalk_nil
  obtain ⟨ht₂, hpgd₂, huser₂, hpud, hwalk₂⟩ := ht₁.mapLevel hroot (Nat.succ_pos 2) h₂ hok₂
  obtain ⟨ht₃, hpgd₃, huser₃, hpmd, hwalk₃⟩ := ht₂.mapLevel hpud (Nat.succ_lt_succ (Nat.succ_pos 1)) h₃ hok₃
  obtain ⟨ht₄, hpgd₄, huser₄, hpte, hwalk₄⟩ := ht₃.mapLevel hpmd (Nat.lt_succ_self 2) h₄ hok₄
  obtain ⟨ht, hleaf, hkeep⟩ := ht₄.mapTableEntry hpte rfl haligned
  refine ⟨⟨ht.fresh, ht.nodup, ht.allocated, ht.valid, ht.tree, ht.interior⟩, ?_, fun ρ hρ => ?_,
    fun a ha => ?_⟩
  · rw [huser₄, huser₃, huser₂, huser₁]
  · split
    · next hpath =>
        rw [hpath]
        exact hleaf
    · next hpath =>
        rw [← hwalk₁ ρ hρ, ← hwalk₂ ρ hρ, ← hwalk₃ ρ hρ, ← hwalk₄ ρ hρ]
        exact hkeep ρ hρ hpath
  · -- Every level writes to a table of the process and to a new one.
    have ha₃ : OutsidePages mm₃.kernelPages a := ha.mono hle₃.subset
    have ha₂ : OutsidePages mm₂.kernelPages a := ha₃.mono hle₂.subset
    have ha₁ : OutsidePages mm₁.kernelPages a := ha₂.mono hle₁.subset
    have hbytes₁ : m₁.bytes a = m.bytes a := by
      have hb := mapPgd_bytes m mm (a := a)
      rw [h₁] at hb
      exact hb ha₁
    have hbytes₂ : m₂.bytes a = m₁.bytes a := by
      have hb := mapLevel_bytes m₁ mm₁ PGD_SHIFT va (ha₁ _ ht₁.pgd_mem)
      rw [h₂] at hb
      exact hb ha₂
    have hbytes₃ : m₃.bytes a = m₂.bytes a := by
      have hb := mapLevel_bytes m₂ mm₂ PUD_SHIFT va (ha₂ _ (ht₂.tree.mem (Nat.lt_of_sub_eq_succ rfl) hpud))
      rw [h₃] at hb
      exact hb ha₃
    have hbytes₄ : m₄.bytes a = m₃.bytes a := by
      have hb := mapLevel_bytes m₃ mm₃ PMD_SHIFT va (ha₃ _ (ht₃.tree.mem (Nat.lt_of_sub_eq_succ rfl) hpmd))
      rw [h₄] at hb
      exact hb ha
    have hpage := ha _ (ht₄.tree.mem (Nat.lt_of_sub_eq_succ rfl) hpte)
    exact (setEntry_bytes m₄ (tableIndex_lt va PAGE_SHIFT) hpage).trans
      (hbytes₄.trans (hbytes₃.trans (hbytes₂.trans hbytes₁)))

/-- Calls of `map_page` on one process. -/
def mapPages (m : Memory) (mm : MmStruct) (calls : List UserPage) : Memory × MmStruct :=
  calls.foldl (fun s c => s.1.mapPage s.2 c.virtualAddress c.physicalAddress) (m, mm)

theorem mapPages_concat (m : Memory) (mm : MmStruct) (calls : List UserPage) (c : UserPage) :
    m.mapPages mm (calls ++ [c])
      = (m.mapPages mm calls).1.mapPage (m.mapPages mm calls).2 c.virtualAddress
          c.physicalAddress := by
  simp only [mapPages, List.foldl_append, List.foldl_cons, List.foldl_nil]

theorem mapPage_kernelPages (m : Memory) (mm : MmStruct) (va pa : Nat) :
    mm.kernelPages <+: (m.mapPage mm va pa).2.kernelPages := by
  have h₁ := mapPgd_kernelPages m mm
  obtain ⟨⟨m₁, mm₁⟩, heq₁⟩ : ∃ r, m.mapPgd mm = r := ⟨_, rfl⟩
  have h₂ := mapLevel_kernelPages m₁ mm₁ mm₁.pgd PGD_SHIFT va
  obtain ⟨⟨m₂, mm₂, pud⟩, heq₂⟩ : ∃ r, m₁.mapLevel mm₁ mm₁.pgd PGD_SHIFT va = r := ⟨_, rfl⟩
  have h₃ := mapLevel_kernelPages m₂ mm₂ pud PUD_SHIFT va
  obtain ⟨⟨m₃, mm₃, pmd⟩, heq₃⟩ : ∃ r, m₂.mapLevel mm₂ pud PUD_SHIFT va = r := ⟨_, rfl⟩
  have h₄ := mapLevel_kernelPages m₃ mm₃ pmd PMD_SHIFT va
  obtain ⟨⟨m₄, mm₄, pte⟩, heq₄⟩ : ∃ r, m₃.mapLevel mm₃ pmd PMD_SHIFT va = r := ⟨_, rfl⟩
  rw [heq₁] at h₁
  rw [heq₂] at h₂
  rw [heq₃] at h₃
  rw [heq₄] at h₄
  simp only [mapPage, heq₁, heq₂, heq₃, heq₄]
  exact h₁.trans (h₂.trans (h₃.trans h₄))

/-- `map_page` records the mapping. -/
theorem mapPage_userPages (m : Memory) (mm : MmStruct) (va pa : Nat) :
    (m.mapPage mm va pa).2.userPages = mm.userPages ++ [⟨pa, va⟩] := by
  have hlevel : ∀ (m : Memory) (mm : MmStruct) (t shift : Nat),
      (m.mapLevel mm t shift va).2.1.userPages = mm.userPages := by
    intro m mm t shift
    unfold mapLevel
    dsimp only
    split <;> rfl
  have hpgd : (m.mapPgd mm).2.userPages = mm.userPages := by
    unfold mapPgd
    split <;> rfl
  simp only [mapPage, hlevel, hpgd]

/-- The frame of the last call for the page of the address. -/
def lastMapping (calls : List UserPage) (va : Nat) : Option Nat :=
  (calls.reverse.find? fun c => pageNumber c.virtualAddress = pageNumber va).map
    UserPage.physicalAddress

theorem lastMapping_concat (calls : List UserPage) (c : UserPage) (va : Nat) :
    lastMapping (calls ++ [c]) va
      = if pageNumber c.virtualAddress = pageNumber va then some c.physicalAddress
        else lastMapping calls va := by
  rw [lastMapping, List.reverse_append, List.reverse_singleton, List.singleton_append,
    List.find?_cons]
  by_cases hpage : pageNumber c.virtualAddress = pageNumber va
  · rw [decide_eq_true hpage, if_pos hpage]
    rfl
  · rw [decide_eq_false hpage, if_neg hpage]
    rfl

/-- What the calls have done so far. -/
theorem mapPages_spec {calls : List UserPage}
    (haligned : ∀ c ∈ calls, c.physicalAddress % PAGE_SIZE = 0)
    (hok : 0 ∉ (m.mapPages .empty calls).2.kernelPages) :
    Mapped m (m.mapPages .empty calls).1 (m.mapPages .empty calls).2
      ∧ (m.mapPages .empty calls).2.userPages = calls
      ∧ ∀ va, (m.mapPages .empty calls).1.walkFrom (m.mapPages .empty calls).2 (pagePath va)
        = (lastMapping calls va).map (· % 281474976710656) := by
  induction calls using List.reverseRecOn with
  | nil =>
      have hnil : m.mapPages .empty [] = (m, .empty) := List.foldl_nil
      rw [hnil]
      exact ⟨Or.inl ⟨rfl, rfl, rfl⟩, rfl, fun va => if_pos rfl⟩
  | append_singleton calls c ih =>
      rw [mapPages_concat] at hok ⊢
      obtain ⟨hmapped, huser, hwalk⟩ := ih
        (fun c' hc' => haligned c' (List.mem_append_left _ hc'))
        fun h0 => hok ((mapPage_kernelPages _ _ _ _).subset h0)
      obtain ⟨htables, huser', hwalk', -⟩ := mapPage_spec hmapped
        (haligned c (List.mem_append_right _ List.mem_cons_self)) Prod.mk.eta.symm hok
      refine ⟨Or.inr htables, by rw [huser', huser], fun va => ?_⟩
      rw [htables.walkFrom_eq, hwalk' _ (pagePath_length va), hwalk, lastMapping_concat]
      by_cases hpage : pageNumber c.virtualAddress = pageNumber va
      · rw [if_pos (pagePath_eq_iff.mpr hpage.symm), if_pos hpage, Option.map_some]
      · rw [if_neg fun he => hpage (pagePath_eq_iff.mp he).symm, if_neg hpage]

/-- The address that the MMU finds for a virtual address of the process. -/
def translateUser (m : Memory) (mm : MmStruct) (va : Nat) : Option Nat :=
  if mm.pgd = 0 then none else m.translate mm.pgd va

/-- It is the frame that the walk finds, and the offset in the page. -/
theorem translateUser_eq (m : Memory) (mm : MmStruct) (va : Nat) :
    m.translateUser mm va = (m.walkFrom mm (pagePath va)).map (· + va % PAGE_SIZE) := by
  unfold translateUser walkFrom
  split
  · rfl
  · exact translate_eq m mm.pgd va

/-- After any calls of `map_page` on a process without memory map, none of which finds the
memory exhausted, the walk from `mm.pgd` finds the frame of the last call for the page, and no
entry for a page that was never mapped. `kernel_pages` lists the pages that the calls took from
the allocator, each once, and `user_pages` lists the calls. `get_free_page` answers 0 when it
fails and `map_page` records its answers in `kernel_pages`; a descriptor holds 48 bits of a
physical address. -/
theorem mapPages_refines {calls : List UserPage}
    (haligned : ∀ c ∈ calls, c.physicalAddress % PAGE_SIZE = 0)
    (hok : 0 ∉ (m.mapPages .empty calls).2.kernelPages) :
    (∀ va, (m.mapPages .empty calls).1.translateUser (m.mapPages .empty calls).2 va
      = (lastMapping calls va).map fun pa => pa % 2 ^ 48 + va % PAGE_SIZE)
    ∧ (m.mapPages .empty calls).2.kernelPages.Nodup
    ∧ (∀ t, t ∈ (m.mapPages .empty calls).2.kernelPages ↔ ∃ p < N_PAGES, t = pageAddress p
        ∧ m.memoryPages p = false ∧ (m.mapPages .empty calls).1.memoryPages p = true)
    ∧ (∀ p, m.memoryPages p = true → (m.mapPages .empty calls).1.memoryPages p = true)
    ∧ (m.mapPages .empty calls).2.userPages = calls := by
  obtain ⟨hmapped, huser, hwalk⟩ := mapPages_spec haligned hok
  refine ⟨fun va => ?_, ?_, fun t => ?_, fun p hp => ?_, huser⟩
  · rw [translateUser_eq, hwalk va, Option.map_map]
    rfl
  · rcases hmapped with ⟨-, hnil, -⟩ | h
    · rw [hnil]
      exact List.nodup_nil
    · exact h.nodup
  · rcases hmapped with ⟨-, hnil, hpages⟩ | h
    · rw [hnil, hpages]
      refine iff_of_false List.not_mem_nil ?_
      rintro ⟨p, -, -, hfree, hused⟩
      rw [hfree] at hused
      exact nomatch hused
    · constructor
      · intro ht
        obtain ⟨p, hp, rfl, hfree⟩ := h.fresh t ht
        exact ⟨p, hp, rfl, hfree, (h.allocated p).mpr (Or.inr ht)⟩
      · rintro ⟨p, -, rfl, hfree, hused⟩
        refine ((h.allocated p).mp hused).resolve_left ?_
        rw [hfree]
        decide
  · rcases hmapped with ⟨-, -, hpages⟩ | h
    · rw [hpages]
      exact hp
    · exact (h.allocated p).mpr (Or.inl hp)

/-- The first page of the process is mapped twice. -/
theorem mapPages_refines_remapped :
    ((⟨fun _ => false, fun _ => 0⟩ : Memory).mapPages .empty
        [⟨0x5000000, 0⟩, ⟨0x5001000, 0x1000⟩, ⟨0x5002000, 0⟩]).1.translateUser
      ((⟨fun _ => false, fun _ => 0⟩ : Memory).mapPages .empty
        [⟨0x5000000, 0⟩, ⟨0x5001000, 0x1000⟩, ⟨0x5002000, 0⟩]).2 8 = some 0x5002008 :=
  have haligned : ∀ c ∈ ([⟨0x5000000, 0⟩, ⟨0x5001000, 0x1000⟩, ⟨0x5002000, 0⟩] : List UserPage),
      c.physicalAddress % PAGE_SIZE = 0 := by decide +kernel
  ((mapPages_refines haligned (by decide +kernel)).1 8).trans (by decide +kernel)

end Calls

end Memory

end DemoOS
