import DemoOS.Proofs.Memory.CopyCode
import DemoOS.Spec.AddressSpaces

/-!
# `DemoOS.Proofs.Memory.AddressSpaces`: one process and its pages

A process owns its tables and its frames (`Owns`). `UserMap` says that the page tables of a process
agree with `user_pages`, and that the frames are pages of its own. What one process does is an
`Acts`: it may change its own pages and free ones, and take free ones. `Acts.trans` puts steps
together, and `UserMap.bystander` says what they leave to a process with other pages.
-/

set_option autoImplicit false

namespace DemoOS.Memory

open Support

variable {m m' m'' : Memory} {mm mm' mm'' other : MmStruct} {p q va : Nat}

/-! ### Definitions -/

/-- The page is a table or a frame of the process. -/
def Owns (mm : MmStruct) (q : Nat) : Prop :=
  pageAddress q ∈ mm.kernelPages ∨ pageAddress q ∈ mm.userPages.map UserPage.physicalAddress

/-- The page holds the same bytes. -/
def SamePage (m m' : Memory) (q : Nat) : Prop :=
  ∀ o < PAGE_SIZE, m'.bytes (pageAddress q + o) = m.bytes (pageAddress q + o)

/-- The process has the virtual pages from 0 on, in frames of its own, and its tables map them and
nothing else. -/
structure UserMap (m : Memory) (mm : MmStruct) : Prop where
  tables : m.TablesInOrder mm
  bound : mm.userPages.length ≤ 16
  pages : mm.userPages.map UserPage.virtualAddress
    = (List.range mm.userPages.length).map (· * PAGE_SIZE)
  frames : ∀ u ∈ mm.userPages, ∃ q < N_PAGES, u.physicalAddress = pageAddress q
    ∧ m.memoryPages q = true ∧ pageAddress q ∉ mm.kernelPages
  nodup : (mm.userPages.map UserPage.physicalAddress).Nodup
  walk : ∀ va, m.walkFrom mm (pagePath va)
    = (mm.userPages[pageNumber va]?).map UserPage.physicalAddress

/-- A process with the memory map `mm` has gone over to `mm'`. Pages in use that it does not own
are as they were, and so is the memory below the pages. -/
structure Acts (m : Memory) (mm : MmStruct) (m' : Memory) (mm' : MmStruct) : Prop where
  owned : ∀ q, Owns mm' q → Owns mm q ∨ m.memoryPages q = false
  used : ∀ q, m.memoryPages q = true → ¬ Owns mm q → m'.memoryPages q = true
  same : ∀ q, m.memoryPages q = true → ¬ Owns mm q → SamePage m m' q
  low : ∀ a < LOW_MEMORY, m'.bytes a = m.bytes a

/-! ### Steps of one process -/

theorem SamePage.refl (m : Memory) (q : Nat) : SamePage m m q := fun _ _ => rfl

theorem SamePage.trans (h : SamePage m m' q) (h' : SamePage m' m'' q) : SamePage m m'' q :=
  fun o ho => (h' o ho).trans (h o ho)

theorem Acts.refl (m : Memory) (mm : MmStruct) : Acts m mm m mm :=
  ⟨fun _ => .inl, fun _ hq _ => hq, fun q _ _ => .refl m q, fun _ _ => rfl⟩

/-- What was not owned, and in use, is not owned afterwards. -/
theorem Acts.not_owns (h : Acts m mm m' mm') (hused : m.memoryPages q = true) (hq : ¬ Owns mm q) :
    ¬ Owns mm' q := by
  intro hq'
  rcases h.owned q hq' with howns | hfree
  · exact hq howns
  · rw [hused] at hfree
    cases hfree

theorem Acts.trans (h : Acts m mm m' mm') (h' : Acts m' mm' m'' mm'') : Acts m mm m'' mm'' where
  owned q hq := by
    rcases h'.owned q hq with howns | hfree
    · exact h.owned q howns
    · by_cases hown : Owns mm q
      · exact .inl hown
      · refine .inr ?_
        cases hused : m.memoryPages q with
        | false => rfl
        | true =>
            rw [h.used q hused hown] at hfree
            cases hfree
  used q hused hq := h'.used q (h.used q hused hq) (h.not_owns hused hq)
  same q hused hq :=
    (h.same q hused hq).trans (h'.same q (h.used q hused hq) (h.not_owns hused hq))
  low a ha := (h'.low a ha).trans (h.low a ha)

/-- A step of a process with other pages does as little to those of this one. -/
theorem Acts.mono (h : Acts m mm m' mm') (hsub : ∀ q, Owns mm q → Owns other q) (keep : MmStruct)
    (hkeep : ∀ q, Owns keep q → Owns other q ∨ m.memoryPages q = false) :
    Acts m other m' keep where
  owned := hkeep
  used q hused hq := h.used q hused fun hown => hq (hsub q hown)
  same q hused hq := h.same q hused fun hown => hq (hsub q hown)
  low := h.low

/-! ### What others see -/

/-- The tables depend on their own pages only. -/
theorem TablesInOrder.reframe {n : Memory} (h : m.TablesInOrder mm)
    (hused : ∀ q, pageAddress q ∈ mm.kernelPages → n.memoryPages q = true)
    (hsame : ∀ q, pageAddress q ∈ mm.kernelPages → SamePage m n q) :
    n.TablesInOrder mm ∧ ∀ ρ, ρ.length = 4 → n.walkFrom mm ρ = m.walkFrom mm ρ := by
  obtain ⟨m₀, ⟨hpgd, hnil, -⟩ | h⟩ := h
  · refine ⟨⟨n, .inl ⟨hpgd, hnil, rfl⟩⟩, fun ρ _ => ?_⟩
    rw [walkFrom, walkFrom, if_pos hpgd, if_pos hpgd]
  · -- The entries of a table lie in its page.
    have hentry : ∀ t ∈ mm.kernelPages, ∀ i : Fin PTRS_PER_TABLE, n.entry t i = m.entry t i := by
      intro t ht i
      obtain ⟨q, -, rfl, -⟩ := h.fresh t ht
      refine ByteMemory.load_congr fun b hb hb' => ?_
      have hi : (i : Nat) < 512 := i.isLt
      have hbyte := hsame q ht (b - pageAddress q) (show _ < 4096 by omega)
      rwa [show pageAddress q + (b - pageAddress q) = b by omega] at hbyte
    have hentries : ∀ t ∈ mm.kernelPages, ∀ i, n.entries t i = m.entries t i := by
      intro t ht i
      rw [entries, entries, nextTable_eq, nextTable_eq, hentry t ht i]
    obtain ⟨htree, hwalk⟩ := h.tree.congr hentries
    -- All other pages in use count as taken before.
    obtain ⟨m₁, hm₁⟩ : ∃ m₁ : Memory, m₁ = ⟨fun q => n.memoryPages q
        && !decide (pageAddress q ∈ mm.kernelPages), n.bytes⟩ := ⟨_, rfl⟩
    have htables : PageTables m₁ n mm := by
      refine ⟨fun t ht => ?_, h.nodup, fun q => ?_, fun t ht i => ?_, htree,
        fun {ρ t} hρ ht i => ?_⟩
      · obtain ⟨q, hq, rfl, -⟩ := h.fresh t ht
        refine ⟨q, hq, rfl, ?_⟩
        simp [hm₁, ht]
      · by_cases hq : pageAddress q ∈ mm.kernelPages
        · simp [hq, hused q hq]
        · simp [hm₁, hq]
      · rw [hentry t ht i]
        exact h.valid t ht i
      · rw [hwalk ρ (by omega)] at ht
        rw [hentry t (h.tree.mem (by omega) ht) i]
        exact h.interior hρ ht i
    refine ⟨⟨m₁, .inr htables⟩, fun ρ hρ => ?_⟩
    rw [walkFrom, walkFrom, if_neg h.pgd_ne_zero, if_neg h.pgd_ne_zero]
    exact hwalk ρ (Nat.le_of_eq hρ)

/-- The tables and the frames are in use. -/
theorem UserMap.used (h : UserMap m mm) (hq : Owns mm q) : m.memoryPages q = true := by
  rcases hq with hq | hq
  · obtain ⟨m₀, hm₀⟩ := h.tables
    obtain ⟨r, -, heq, hr⟩ := hm₀.table hq
    rwa [pageAddress_inj heq]
  · obtain ⟨u, hu, heq⟩ := List.mem_map.mp hq
    obtain ⟨r, -, hr, hused, -⟩ := h.frames u hu
    rwa [← pageAddress_inj (hr.symm.trans heq)]

/-- The address of a user page's byte. -/
theorem UserMap.userAddress_eq (h : UserMap m mm) (va : Nat) :
    m.userAddress mm va = (mm.userPages[va / PAGE_SIZE]?).map
      fun u => u.physicalAddress + va % PAGE_SIZE := by
  rw [userAddress]
  split
  · next hva =>
      have hpage : pageNumber va = va / PAGE_SIZE := by
        have hva : va < 281474976710656 := hva
        show va / 4096 % 68719476736 = va / 4096
        omega
      rw [translateUser_eq, h.walk va, hpage, Option.map_map]
      rfl
  · next hva =>
      -- The pages are the first sixteen.
      have hbound := h.bound
      have hout : mm.userPages.length ≤ va / PAGE_SIZE := by
        have hva : ¬ va < 281474976710656 := hva
        show _ ≤ va / 4096
        omega
      rw [List.getElem?_eq_none hout]
      rfl

/-- A process whose pages are left alone sees what it saw. -/
theorem UserMap.reframe (h : UserMap m mm) (hused : ∀ q, Owns mm q → m'.memoryPages q = true)
    (hsame : ∀ q, Owns mm q → SamePage m m' q) :
    UserMap m' mm ∧ ∀ va, m'.loadUser mm va = m.loadUser mm va := by
  obtain ⟨htables, hwalk⟩ := h.tables.reframe (fun q hq => hused q (.inl hq))
    fun q hq => hsame q (.inl hq)
  have hmap : UserMap m' mm := by
    refine ⟨htables, h.bound, h.pages, fun u hu => ?_, h.nodup, fun va => ?_⟩
    · obtain ⟨q, hq, heq, -, hnot⟩ := h.frames u hu
      exact ⟨q, hq, heq, hused q (.inr (List.mem_map.mpr ⟨u, hu, heq⟩)), hnot⟩
    · rw [hwalk _ (pagePath_length va)]
      exact h.walk va
  refine ⟨hmap, fun va => ?_⟩
  rw [loadUser, loadUser, hmap.userAddress_eq, h.userAddress_eq]
  cases hu : mm.userPages[va / PAGE_SIZE]? with
  | none => rfl
  | some u =>
      obtain ⟨q, -, heq, -, -⟩ := h.frames u (List.mem_of_getElem? hu)
      have howns : Owns mm q := .inr (List.mem_map.mpr ⟨u, List.mem_of_getElem? hu, heq⟩)
      have hbyte := hsame q howns (va % PAGE_SIZE) (Nat.mod_lt va (by decide))
      simp only [Option.map_some, heq, hbyte]

/-- Another process acts. -/
theorem UserMap.bystander (h : UserMap m other) (ha : Acts m mm m' mm')
    (hother : ∀ q, Owns other q → ¬ Owns mm q) :
    UserMap m' other ∧ (∀ va, m'.loadUser other va = m.loadUser other va)
      ∧ ∀ q, Owns other q → ¬ Owns mm' q := by
  obtain ⟨hmap, hload⟩ := h.reframe (fun q hq => ha.used q (h.used hq) (hother q hq))
    fun q hq => ha.same q (h.used hq) (hother q hq)
  exact ⟨hmap, hload, fun q hq => ha.not_owns (h.used hq) (hother q hq)⟩

/-! ### Single pages -/

/-- Writing to pages that were free at first, or are the process's own. -/
theorem Acts.write {n : Memory} (h : Acts m mm m' mm') (hpages : n.memoryPages = m'.memoryPages)
    (hbytes : ∀ a, n.bytes a ≠ m'.bytes a → ∃ q, (m.memoryPages q = false ∨ Owns mm q)
      ∧ pageAddress q ≤ a ∧ a < pageAddress q + PAGE_SIZE) : Acts m mm n mm' where
  owned := h.owned
  used q hused hq := by
    rw [hpages]
    exact h.used q hused hq
  same q hused hq := by
    refine (h.same q hused hq).trans fun o ho => ?_
    by_contra hne
    obtain ⟨r, hr, hlo, hhi⟩ := hbytes _ hne
    have hqr : q ≠ r := by
      rintro rfl
      rcases hr with hfree | hown
      · rw [hused] at hfree
        cases hfree
      · exact hq hown
    rcases outside_pageAddress hqr ho with hout | hout
    · exact Nat.not_le.mpr hout hlo
    · exact Nat.not_le.mpr hhi hout
  low a ha := by
    refine Eq.trans ?_ (h.low a ha)
    by_contra hne
    obtain ⟨r, -, hlo, -⟩ := hbytes a hne
    have ha : a < 4194304 := ha
    rw [pageAddress_eq] at hlo
    omega

/-- A page that was free at first, or is the process's own, is freed. -/
theorem Acts.release (h : Acts m mm m' mm') (hp : m.memoryPages p = false ∨ Owns mm p) :
    Acts m mm (m'.freePage (pageAddress p)).1 mm' := by
  have hfree : (m'.freePage (pageAddress p)).1
      = (m'.memzero (pageAddress p) PAGE_SIZE).setPage p false := by
    rw [freePage, if_neg (not_not_intro (pageAddress_mod p)), pageIndex_pageAddress]
  have hzero := h.write (n := m'.memzero (pageAddress p) PAGE_SIZE) rfl fun a hne => by
    refine ⟨p, hp, ?_⟩
    by_contra hout
    exact hne (memzero_bytes m' (by omega))
  rw [hfree]
  refine ⟨hzero.owned, fun q hused hq => ?_, hzero.same, hzero.low⟩
  have hqp : q ≠ p := by
    rintro rfl
    rcases hp with hfree | hown
    · rw [hused] at hfree
      cases hfree
    · exact hq hown
  show Function.update m'.memoryPages p false q = true
  rw [Function.update_of_ne hqp]
  exact h.used q hused hq

/-- A free page is claimed. -/
theorem Acts.claim (h : Acts m mm m' mm') (hp : m.memoryPages p = false ∨ Owns mm p) :
    Acts m mm (m'.claimPage p) mm' := by
  have hzero := h.write (n := m'.memzero (pageAddress p) PAGE_SIZE) rfl fun a hne => by
    refine ⟨p, hp, ?_⟩
    by_contra hout
    exact hne (memzero_bytes m' (by omega))
  refine ⟨hzero.owned, fun q hused hq => ?_, hzero.same, hzero.low⟩
  exact (claimPage_memoryPages m' p q).mpr (.inl (h.used q hused hq))

/-- `allocate_kernel_page` takes a free page. -/
theorem takePage_spec {a : Nat} (h : m.takePage = some (m', a)) :
    ∃ p < N_PAGES, a = pageAddress p ∧ m.memoryPages p = false ∧ m' = m.claimPage p := by
  rw [takePage, allocateKernelPage] at h
  rcases m.getFreePage_cases with hfail | ⟨p, hp, hfree, hpage⟩
  · rw [hfail] at h
    simp at h
  · rw [hpage] at h
    simp only [if_neg (pageAddress_ne_zero p), Option.some.injEq, Prod.mk.injEq] at h
    exact ⟨p, hp, h.2.symm, hfree, h.1.symm⟩

/-! ### Allocation -/

/-- What allocation for a process does: it takes free pages, and changes tables and free pages
only. -/
structure Grows (m : Memory) (mm : MmStruct) (m' : Memory) (mm' : MmStruct) : Prop where
  used : ∀ q, m.memoryPages q = true → m'.memoryPages q = true
  tables : ∀ t ∈ mm'.kernelPages, t ∈ mm.kernelPages
    ∨ ∃ q < N_PAGES, t = pageAddress q ∧ m.memoryPages q = false
  frames : ∀ u ∈ mm'.userPages, u ∈ mm.userPages
    ∨ ∃ q < N_PAGES, u.physicalAddress = pageAddress q ∧ m.memoryPages q = false
  same : ∀ q, m.memoryPages q = true → pageAddress q ∉ mm.kernelPages → SamePage m m' q
  low : ∀ a < LOW_MEMORY, m'.bytes a = m.bytes a

theorem Grows.refl (m : Memory) (mm : MmStruct) : Grows m mm m mm :=
  ⟨fun _ hq => hq, fun _ => .inl, fun _ => .inl, fun q _ _ => .refl m q, fun _ _ => rfl⟩

/-- A page that is free now was free before. -/
theorem Grows.free (h : Grows m mm m' mm') (hfree : m'.memoryPages q = false) :
    m.memoryPages q = false := by
  cases hused : m.memoryPages q with
  | false => rfl
  | true =>
      rw [h.used q hused] at hfree
      cases hfree

theorem Grows.not_table (h : Grows m mm m' mm') (hused : m.memoryPages q = true)
    (hq : pageAddress q ∉ mm.kernelPages) : pageAddress q ∉ mm'.kernelPages := by
  intro ht
  rcases h.tables _ ht with ht | ⟨r, -, heq, hfree⟩
  · exact hq ht
  · rw [← pageAddress_inj heq, hused] at hfree
    cases hfree

theorem Grows.trans (h : Grows m mm m' mm') (h' : Grows m' mm' m'' mm'') :
    Grows m mm m'' mm'' where
  used q hq := h'.used q (h.used q hq)
  tables t ht := by
    rcases h'.tables t ht with ht | ⟨q, hq, heq, hfree⟩
    · exact h.tables t ht
    · exact .inr ⟨q, hq, heq, h.free hfree⟩
  frames u hu := by
    rcases h'.frames u hu with hu | ⟨q, hq, heq, hfree⟩
    · exact h.frames u hu
    · exact .inr ⟨q, hq, heq, h.free hfree⟩
  same q hused hq := (h.same q hused hq).trans (h'.same q (h.used q hused) (h.not_table hused hq))
  low a ha := (h'.low a ha).trans (h.low a ha)

theorem Grows.acts (h : Grows m mm m' mm') : Acts m mm m' mm' where
  owned q hq := by
    rcases hq with hq | hq
    · rcases h.tables _ hq with hq | ⟨r, -, heq, hfree⟩
      · exact .inl (.inl hq)
      · exact .inr (pageAddress_inj heq ▸ hfree)
    · obtain ⟨u, hu, heq⟩ := List.mem_map.mp hq
      rcases h.frames u hu with hu | ⟨r, -, hr, hfree⟩
      · exact .inl (.inr (List.mem_map.mpr ⟨u, hu, heq⟩))
      · exact .inr (pageAddress_inj (heq.symm.trans hr) ▸ hfree)
  used q hused _ := h.used q hused
  same q hused hq := h.same q hused fun ht => hq (.inl ht)
  low := h.low

theorem Allocates.grows (h : Allocates m mm va p m' mm') : Grows m mm m' mm' where
  used q hq := (h.used q).mpr (.inl hq)
  tables := h.fresh
  frames u hu := by
    rw [h.userPages] at hu
    rcases List.mem_append.mp hu with hu | hu
    · exact .inl hu
    · rw [List.mem_singleton.mp hu]
      exact .inr ⟨p, h.bound, rfl, h.free⟩
  same q hused hq o ho := by
    obtain ⟨m₀, hm₀⟩ := h.tables
    have hqp : q ≠ p := by
      rintro rfl
      rw [h.free] at hused
      cases hused
    refine h.others _ (hm₀.outside ?_ ho) (outside_pageAddress hqp ho)
    intro ht
    rcases h.fresh _ ht with ht | ⟨r, -, heq, hfree⟩
    · exact hq ht
    · rw [← pageAddress_inj heq, hused] at hfree
      cases hfree
  low a ha := by
    obtain ⟨m₀, hm₀⟩ := h.tables
    have ha : a < 4194304 := ha
    refine h.others a (fun t ht => ?_) (.inl (by rw [pageAddress_eq]; omega))
    obtain ⟨q, -, rfl, -⟩ := hm₀.table ht
    rw [pageAddress_eq]
    exact .inl (by omega)

/-- The next page of a process. -/
theorem UserMap.allocate (h : UserMap m mm) (hlt : mm.userPages.length < 16)
    (ha : Allocates m mm (mm.userPages.length * PAGE_SIZE) p m' mm') : UserMap m' mm' := by
  have hlength : mm'.userPages.length = mm.userPages.length + 1 := by
    rw [ha.userPages, List.length_append, List.length_singleton]
  have hgrows := ha.grows
  refine ⟨ha.tables, by omega, ?_, fun u hu => ?_, ?_, fun va => ?_⟩
  · rw [hlength, ha.userPages, List.map_append, h.pages, List.range_succ, List.map_append]
    rfl
  · rw [ha.userPages] at hu
    rcases List.mem_append.mp hu with hu | hu
    · obtain ⟨q, hq, heq, hused, hnot⟩ := h.frames u hu
      exact ⟨q, hq, heq, hgrows.used q hused, hgrows.not_table hused hnot⟩
    · rw [List.mem_singleton.mp hu]
      exact ⟨p, ha.bound, rfl, (ha.used p).mpr (.inr (.inl rfl)), ha.noTable⟩
  · -- The new frame was free, and the others were in use.
    rw [ha.userPages, List.map_append, List.map_singleton]
    refine List.nodup_append.mpr ⟨h.nodup, List.nodup_singleton _, fun a ha' b hb => ?_⟩
    rw [List.mem_singleton.mp hb]
    rintro rfl
    have hused := h.used (.inr ha')
    rw [ha.free] at hused
    cases hused
  · rw [ha.walk _ (pagePath_length va), h.walk va, ha.userPages]
    have hpath : pagePath va = pagePath (mm.userPages.length * PAGE_SIZE)
        ↔ pageNumber va = mm.userPages.length := by
      rw [pagePath_eq_iff, pageNumber_mul hlt]
    by_cases heq : pageNumber va = mm.userPages.length
    · rw [if_pos (hpath.mpr heq), heq, List.getElem?_concat_length]
      rfl
    · rw [if_neg (hpath.not.mpr heq)]
      rcases Nat.lt_or_gt_of_ne heq with hlt | hgt
      · rw [List.getElem?_append_left hlt]
      · rw [List.getElem?_eq_none (Nat.le_of_lt hgt), List.getElem?_eq_none]
        rw [List.length_append, List.length_singleton]
        exact hgt

end DemoOS.Memory
