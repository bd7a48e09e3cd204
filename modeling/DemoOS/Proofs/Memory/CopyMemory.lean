import DemoOS.Proofs.Memory.AddressSpaces

/-!
# `DemoOS.Proofs.Memory.CopyMemory`: the memory of a child

`copy_virtual_memory` maps and fills one page after the other. `copyVirtualMemory_spec` is by
induction on the pages of the parent that are left: the child has a memory map of its own, pages
that were in use are as they were, and the copies hold the bytes of the parent's pages.
`copyVirtualMemory_loads` reads it as a statement about loads.
-/

set_option autoImplicit false

namespace DemoOS.Memory

variable {m m' : Memory} {mm mm' parent : MmStruct} {q : Nat}

/-- The page is in use, and is no table of the process. -/
def OtherFrame (m : Memory) (mm : MmStruct) (u : UserPage) : Prop :=
  ∃ q < N_PAGES, u.physicalAddress = pageAddress q ∧ m.memoryPages q = true
    ∧ pageAddress q ∉ mm.kernelPages

theorem OtherFrame.grows {u : UserPage} (h : OtherFrame m mm u) (hg : Grows m mm m' mm') :
    OtherFrame m' mm' u := by
  obtain ⟨q, hq, heq, hused, hnot⟩ := h
  exact ⟨q, hq, heq, hg.used q hused, hg.not_table hused hnot⟩

/-- The bytes of such a page stay. -/
theorem OtherFrame.bytes {u : UserPage} (h : OtherFrame m mm u) (hg : Grows m mm m' mm') {o : Nat}
    (ho : o < PAGE_SIZE) : m'.bytes (u.physicalAddress + o) = m.bytes (u.physicalAddress + o) := by
  obtain ⟨q, -, heq, hused, hnot⟩ := h
  rw [heq]
  exact hg.same q hused hnot o ho

theorem UserMap.otherFrame (h : UserMap m mm) {u : UserPage} (hu : u ∈ mm.userPages) :
    OtherFrame m mm u := h.frames u hu

theorem allocateUserPage_kernelPages (m : Memory) (mm : MmStruct) (va : Nat) :
    mm.kernelPages <+: (m.allocateUserPage mm va).2.1.kernelPages := by
  by_cases hpage : m.getFreePage.2 = 0
  · simp only [allocateUserPage, if_pos hpage]
    exact List.prefix_refl _
  · simp only [allocateUserPage, if_neg hpage]
    exact mapPage_kernelPages _ _ _ _

/-- The tables of a process stay its tables. -/
theorem copyVirtualMemory_kernelPages (source : List UserPage) (m : Memory) (mm : MmStruct) :
    mm.kernelPages <+: (copyVirtualMemory source m mm).2.1.kernelPages := by
  induction source generalizing m mm with
  | nil => exact List.prefix_refl _
  | cons page source ih =>
      have hfirst := allocateUserPage_kernelPages m mm page.virtualAddress
      obtain ⟨⟨m₁, mm₁, destination⟩, halloc⟩ :
        ∃ r, m.allocateUserPage mm page.virtualAddress = r := ⟨_, rfl⟩
      rw [halloc] at hfirst
      simp only [copyVirtualMemory, halloc]
      split
      · exact hfirst
      · exact hfirst.trans (ih _ _)

theorem copyVirtualMemory_cons_kernelPages (page : UserPage) (source : List UserPage) (m : Memory)
    (mm : MmStruct) : (m.allocateUserPage mm page.virtualAddress).2.1.kernelPages
      <+: (copyVirtualMemory (page :: source) m mm).2.1.kernelPages := by
  obtain ⟨⟨m₁, mm₁, destination⟩, halloc⟩ :
    ∃ r, m.allocateUserPage mm page.virtualAddress = r := ⟨_, rfl⟩
  simp only [copyVirtualMemory, halloc]
  split
  · exact List.prefix_refl _
  · exact copyVirtualMemory_kernelPages source _ _

/-- The result of a copy: `copies` are the pages of the child behind the ones that it had. -/
structure Copied (source : List UserPage) (m : Memory) (mm : MmStruct)
    (r : Memory × MmStruct × Int) (copies : List UserPage) : Prop where
  map : UserMap r.1 r.2.1
  grows : Grows m mm r.1 r.2.1
  userPages : r.2.1.userPages = mm.userPages ++ copies
  value : (r.2.2 = 0 ∧ copies.length = source.length)
    ∨ (r.2.2 = -1 ∧ copies.length < source.length)
  bytes : ∀ (i : Nat) (u c : UserPage), source[i]? = some u → copies[i]? = some c →
    ∀ o < PAGE_SIZE, r.1.bytes (c.physicalAddress + o) = m.bytes (u.physicalAddress + o)

/-- `copy_virtual_memory`, from the next page of the child on. -/
theorem copyVirtualMemory_spec (source : List UserPage) (h : UserMap m mm)
    (hsource : ∀ u ∈ source, OtherFrame m mm u)
    (hpages : source.map UserPage.virtualAddress
      = (List.range' mm.userPages.length source.length).map (· * PAGE_SIZE))
    (hbound : mm.userPages.length + source.length ≤ 16)
    (hok : 0 ∉ (copyVirtualMemory source m mm).2.1.kernelPages) :
    ∃ copies, Copied source m mm (copyVirtualMemory source m mm) copies := by
  induction source generalizing m mm with
  | nil =>
      refine ⟨[], h, .refl m mm, (List.append_nil _).symm, .inl ⟨rfl, rfl⟩, fun i u c hu => ?_⟩
      simp at hu
  | cons page source ih =>
      have hva : page.virtualAddress = mm.userPages.length * PAGE_SIZE := by
        rw [List.length_cons, List.range'_succ, List.map_cons, List.map_cons] at hpages
        exact (List.cons.inj hpages).1
      have hok₁ : 0 ∉ (m.allocateUserPage mm page.virtualAddress).2.1.kernelPages := fun h0 =>
        hok ((copyVirtualMemory_cons_kernelPages page source m mm).subset h0)
      rw [List.length_cons] at hbound
      rcases allocateUserPage_spec h.tables hok₁ with hfail | ⟨p, m₁, mm₁, halloc, hspec, -⟩
      · -- There is no free page for the frame.
        have hrun : copyVirtualMemory (page :: source) m mm = (m, mm, -1) := by
          simp only [copyVirtualMemory, hfail, if_true]
        rw [hrun]
        refine ⟨[], h, .refl m mm, (List.append_nil _).symm, .inr ⟨rfl, Nat.succ_pos _⟩,
          fun i u c _ hc => ?_⟩
        simp at hc
      · obtain ⟨m₂, hm₂⟩ : ∃ m₂, m₂ = (m₁.memzero (pageAddress p) PAGE_SIZE).memcpy
          (pageAddress p) page.physicalAddress PAGE_SIZE := ⟨_, rfl⟩
        have hrun : copyVirtualMemory (page :: source) m mm = copyVirtualMemory source m₂ mm₁ := by
          simp only [copyVirtualMemory, halloc, if_neg (pageAddress_ne_zero p), hm₂]
        have hfill : Allocates m mm page.virtualAddress p m₂ mm₁ := by
          refine hspec.fill (by rw [hm₂]; rfl) fun a ha => ?_
          rw [hm₂, memcpy_bytes_outside _ ha, memzero_bytes m₁ ha]
        rw [hva] at hfill
        have hgrows := hfill.grows
        have hpage := hsource page List.mem_cons_self
        -- The copy of the first page.
        have hcopy : ∀ o < PAGE_SIZE, m₂.bytes (pageAddress p + o)
            = m.bytes (page.physicalAddress + o) := by
          intro o ho
          have hread := hpage.bytes hspec.grows ho
          obtain ⟨q, -, heq, hused, -⟩ := hpage
          have hqp : q ≠ p := by
            rintro rfl
            rw [hspec.free] at hused
            cases hused
          rw [← hread, hm₂, memcpy_bytes_add _ _ _ ho, heq,
            memzero_bytes m₁ (outside_pageAddress hqp ho)]
        have hlength : mm₁.userPages.length = mm.userPages.length + 1 := by
          rw [hfill.userPages, List.length_append, List.length_singleton]
        have hmap := h.allocate (by omega) hfill
        rw [hrun] at hok ⊢
        obtain ⟨copies, hcopied⟩ := ih hmap
          (fun u hu => (hsource u (List.mem_cons_of_mem _ hu)).grows hgrows)
          (by
            have htail := congrArg List.tail hpages
            rw [hlength]
            simpa [List.range'_succ] using htail)
          (by omega) hok
        refine ⟨⟨pageAddress p, mm.userPages.length * PAGE_SIZE⟩ :: copies, hcopied.map,
          hgrows.trans hcopied.grows, ?_, ?_, ?_⟩
        · rw [hcopied.userPages, hfill.userPages, List.append_assoc]
          rfl
        · have hvalue := hcopied.value
          rw [List.length_cons, List.length_cons]
          omega
        · intro i u c hu hc o ho
          cases i with
          | zero =>
              obtain rfl : page = u := by simpa using hu
              obtain rfl : _ = c := by simpa using hc
              -- Later pages leave the copy alone.
              have hown : OtherFrame m₂ mm₁ ⟨pageAddress p, mm.userPages.length * PAGE_SIZE⟩ :=
                ⟨p, hfill.bound, rfl, (hfill.used p).mpr (.inr (.inl rfl)), hfill.noTable⟩
              exact (hown.bytes hcopied.grows ho).trans (hcopy o ho)
          | succ i =>
              rw [List.getElem?_cons_succ] at hu hc
              rw [hcopied.bytes i u c hu hc o ho]
              exact (hsource u (List.mem_cons_of_mem _ (List.mem_of_getElem? hu))).bytes hgrows ho

/-- A process without memory map. -/
theorem UserMap.empty (m : Memory) : UserMap m .empty where
  tables := ⟨m, .inl ⟨rfl, rfl, rfl⟩⟩
  bound := Nat.zero_le _
  pages := rfl
  frames u hu := absurd hu List.not_mem_nil
  nodup := List.nodup_nil
  walk va := by
    have hnone : (MmStruct.empty).pgd = 0 := rfl
    rw [walkFrom, if_pos hnone]
    rfl

theorem not_owns_empty (q : Nat) : ¬ Owns .empty q := by
  rintro (hq | hq)
  · exact List.not_mem_nil hq
  · exact List.not_mem_nil hq

/-- The pages that a child without memory map gets. -/
theorem UserMap.copy (h : UserMap m parent)
    (hok : 0 ∉ (copyVirtualMemory parent.userPages m .empty).2.1.kernelPages) :
    ∃ copies, Copied parent.userPages m .empty (copyVirtualMemory parent.userPages m .empty)
      copies := by
  refine copyVirtualMemory_spec _ (.empty m) (fun u hu => ?_) ?_ ?_ hok
  · obtain ⟨q, hq, heq, hused, -⟩ := h.frames u hu
    exact ⟨q, hq, heq, hused, List.not_mem_nil⟩
  · rw [h.pages, List.range_eq_range']
    rfl
  · have hbound := h.bound
    show 0 + _ ≤ 16
    omega

/-- A child sees what its parent saw, on the pages that were copied, and nothing else. These are
all of the parent's exactly if the call returns 0. -/
theorem copyVirtualMemory_loads (h : UserMap m parent)
    (hok : 0 ∉ (copyVirtualMemory parent.userPages m .empty).2.1.kernelPages) :
    ∃ r n, copyVirtualMemory parent.userPages m .empty = r ∧ UserMap r.1 r.2.1
      ∧ Grows m .empty r.1 r.2.1 ∧ n ≤ parent.userPages.length
      ∧ (r.2.2 = 0 ↔ n = parent.userPages.length) ∧ (r.2.2 = 0 ∨ r.2.2 = -1)
      ∧ ∀ va, r.1.loadUser r.2.1 va
        = if va / PAGE_SIZE < n then m.loadUser parent va else none := by
  obtain ⟨copies, hcopied⟩ := h.copy hok
  refine ⟨_, copies.length, rfl, hcopied.map, hcopied.grows, ?_, ?_, ?_, fun va => ?_⟩
  · rcases hcopied.value with ⟨-, heq⟩ | ⟨-, hlt⟩ <;> omega
  · rcases hcopied.value with ⟨hvalue, heq⟩ | ⟨hvalue, hlt⟩
    · exact iff_of_true hvalue heq
    · exact iff_of_false (by omega) (by omega)
  · rcases hcopied.value with ⟨hvalue, -⟩ | ⟨hvalue, -⟩
    · exact .inl hvalue
    · exact .inr hvalue
  · have hpages : _ = [] ++ copies := hcopied.userPages
    rw [loadUser, hcopied.map.userAddress_eq, hpages, List.nil_append, loadUser, h.userAddress_eq]
    split
    · next hlt =>
        have hlt' : va / PAGE_SIZE < parent.userPages.length := by
          rcases hcopied.value with ⟨-, heq⟩ | ⟨-, hlt'⟩ <;> omega
        have hbyte := hcopied.bytes _ _ _ (List.getElem?_eq_getElem hlt')
          (List.getElem?_eq_getElem hlt) (va % PAGE_SIZE) (Nat.mod_lt va (by decide))
        rw [List.getElem?_eq_getElem hlt, List.getElem?_eq_getElem hlt']
        exact congrArg some hbyte
    · next hge =>
        rw [List.getElem?_eq_none (Nat.le_of_not_lt hge)]
        rfl

end DemoOS.Memory
