import DemoOS.Libs.Fork
import DemoOS.Proofs.Memory.PageTables

/-!
# `DemoOS.Proofs.Memory.CopyCode`: the image that `copy_code` loads

`copy_code` allocates and maps sixteen pages, one after the other, and fills each of them before
it allocates the next one. `allocateUserPage_spec` says what one allocation does to the page
tables, to the array of pages in use and to the bytes of the memory. From it, `Rounds` collects
what holds after some rounds of the loop, and `Rounds.contents` what the pages contain.
-/

set_option autoImplicit false

namespace DemoOS

open Support

namespace Memory

/-- The process has no page tables yet, or its tables are distinct pages in use that form a
tree. -/
def TablesInOrder (m : Memory) (mm : MmStruct) : Prop := ∃ m₀, Mapped m₀ m mm

/-! ### Pages -/

section Pages
variable {m m' m₀ : Memory} {mm : MmStruct} {p q o : Nat}

theorem pageAddress_lt (hp : p < N_PAGES) : pageAddress p < 281474976710656 := by
  have hp : p < 257024 := hp
  rw [pageAddress_eq]
  omega

/-- A byte of one page is in no other page. -/
theorem outside_pageAddress (hpq : p ≠ q) (ho : o < PAGE_SIZE) :
    pageAddress p + o < pageAddress q ∨ pageAddress q + PAGE_SIZE ≤ pageAddress p + o := by
  have ho : o < 4096 := ho
  rw [pageAddress_eq, pageAddress_eq]
  show _ ∨ 4194304 + q * 4096 + 4096 ≤ _
  omega

/-- A page is claimed empty. -/
theorem claimPage_bytes (m : Memory) (ho : o < PAGE_SIZE) :
    (m.claimPage p).bytes (pageAddress p + o) = 0 := by
  have hpatch : ∀ n : Nat, o < n →
      ByteMemory.patch m.bytes (pageAddress p) n (fun _ => 0) (pageAddress p + o) = 0 :=
    fun n hn => ByteMemory.patch_add hn
  exact hpatch PAGE_SIZE ho

/-- `memcpy` writes the destination, -/
theorem memcpy_bytes_add (m : Memory) (destination source : Nat) {n i : Nat} (hi : i < n) :
    (m.memcpy destination source n).bytes (destination + i) = m.bytes (source + i) := by
  show ByteMemory.patch m.bytes destination n (fun j => m.bytes (source + j)) _ = _
  rw [ByteMemory.patch_add hi]

/-- and nothing else. -/
theorem memcpy_bytes_outside (m : Memory) {destination source n a : Nat}
    (ha : a < destination ∨ destination + n ≤ a) :
    (m.memcpy destination source n).bytes a = m.bytes a := by
  show ByteMemory.patch m.bytes destination n (fun j => m.bytes (source + j)) _ = _
  rw [ByteMemory.patch_outside ha]

/-- The tables of a process are pages in use. -/
theorem Mapped.table (h : Mapped m₀ m mm) {t : Nat} (ht : t ∈ mm.kernelPages) :
    ∃ p < N_PAGES, t = pageAddress p ∧ m.memoryPages p = true := by
  rcases h with ⟨-, hnil, -⟩ | h
  · rw [hnil] at ht
    exact nomatch ht
  · obtain ⟨p, hp, rfl, -⟩ := h.fresh t ht
    exact ⟨p, hp, rfl, (h.allocated p).mpr (Or.inr ht)⟩

/-- The pages in use are those of before and the tables. -/
theorem Mapped.used (h : Mapped m₀ m mm) (q : Nat) :
    m.memoryPages q = true ↔ m₀.memoryPages q = true ∨ pageAddress q ∈ mm.kernelPages := by
  rcases h with ⟨-, hnil, hpages⟩ | h
  · rw [hnil, hpages]
    simp
  · exact h.allocated q

/-- A page that is no table does not meet the tables. -/
theorem Mapped.outside (h : Mapped m₀ m mm) (hp : pageAddress p ∉ mm.kernelPages)
    (ho : o < PAGE_SIZE) : OutsidePages mm.kernelPages (pageAddress p + o) := by
  intro t ht
  obtain ⟨q, -, rfl, -⟩ := h.table ht
  exact outside_pageAddress (fun he => hp (he ▸ ht)) ho

/-- A page that is free is no table. -/
theorem Mapped.free (h : Mapped m₀ m mm) (hfree : m.memoryPages p = false) :
    pageAddress p ∉ mm.kernelPages := by
  intro ht
  obtain ⟨q, -, heq, hused⟩ := h.table ht
  rw [← pageAddress_inj heq, hfree] at hused
  exact nomatch hused

/-- Changes outside the tables, with further pages in use that are none of the tables. -/
theorem Mapped.congr (h : Mapped m₀ m mm) (used : Nat → Prop) [DecidablePred used]
    (hused : ∀ q, used q → pageAddress q ∉ mm.kernelPages)
    (hpages : ∀ q, m'.memoryPages q = true ↔ m.memoryPages q = true ∨ used q)
    (hbytes : ∀ t ∈ mm.kernelPages, ∀ o < PAGE_SIZE, m'.bytes (t + o) = m.bytes (t + o)) :
    (∃ m₀', Mapped m₀' m' mm) ∧ ∀ ρ, ρ.length = 4 → m'.walkFrom mm ρ = m.walkFrom mm ρ := by
  obtain ⟨m₁, hm₁⟩ : ∃ m₁ : Memory,
      m₁ = ⟨fun q => m₀.memoryPages q || decide (used q), m₀.bytes⟩ := ⟨_, rfl⟩
  have hm₁pages : ∀ q, m₁.memoryPages q = true ↔ m₀.memoryPages q = true ∨ used q := by
    intro q
    rw [hm₁]
    simp
  rcases h with ⟨hpgd, hnil, hsame⟩ | h
  · refine ⟨⟨m', Or.inl ⟨hpgd, hnil, rfl⟩⟩, fun ρ _ => ?_⟩
    rw [walkFrom, walkFrom, if_pos hpgd, if_pos hpgd]
  · -- The entries of a table lie in its page.
    have hentry : ∀ t ∈ mm.kernelPages, ∀ i : Fin PTRS_PER_TABLE, m'.entry t i = m.entry t i := by
      intro t ht i
      refine ByteMemory.load_congr fun b hb hb' => ?_
      have hi : (i : Nat) < 512 := i.isLt
      have hin : b - t < 4096 := by omega
      have hbyte := hbytes t ht (b - t) hin
      rwa [show t + (b - t) = b by omega] at hbyte
    have hentries : ∀ t ∈ mm.kernelPages, ∀ i, m'.entries t i = m.entries t i := by
      intro t ht i
      rw [entries, entries, nextTable_eq, nextTable_eq, hentry t ht i]
    obtain ⟨htree, hwalk⟩ := h.tree.congr hentries
    have htables : PageTables m₁ m' mm := by
      refine ⟨fun t ht => ?_, h.nodup, fun q => ?_, fun t ht i => ?_, htree,
        fun {ρ t} hρ ht i => ?_⟩
      · obtain ⟨q, hq, rfl, hfree⟩ := h.fresh t ht
        refine ⟨q, hq, rfl, ?_⟩
        have hnot : ¬ m₁.memoryPages q = true := fun hq' => by
          rcases (hm₁pages q).mp hq' with hq' | hq'
          · rw [hfree] at hq'
            cases hq'
          · exact hused q hq' ht
        simpa using hnot
      · rw [hpages, h.allocated, hm₁pages]
        exact or_right_comm
      · rw [hentry t ht i]
        exact h.valid t ht i
      · rw [hwalk ρ (by omega)] at ht
        rw [hentry t (h.tree.mem (by omega) ht) i]
        exact h.interior hρ ht i
    refine ⟨⟨m₁, Or.inr htables⟩, fun ρ hρ => ?_⟩
    rw [walkFrom, walkFrom, if_neg h.pgd_ne_zero, if_neg h.pgd_ne_zero]
    exact hwalk ρ (Nat.le_of_eq hρ)

end Pages

/-! ### One page -/

/-- What a successful call of `allocate_user_page` for the virtual address `va` does: the frame
is the page `p`. -/
structure Allocates (m : Memory) (mm : MmStruct) (va p : Nat) (m' : Memory) (mm' : MmStruct) :
    Prop where
  bound : p < N_PAGES
  free : m.memoryPages p = false
  tables : m'.TablesInOrder mm'
  noTable : pageAddress p ∉ mm'.kernelPages
  tracked : mm.kernelPages <+: mm'.kernelPages
  fresh : ∀ t ∈ mm'.kernelPages, t ∈ mm.kernelPages
    ∨ ∃ q < N_PAGES, t = pageAddress q ∧ m.memoryPages q = false
  used : ∀ q, m'.memoryPages q = true ↔ m.memoryPages q = true ∨ q = p
    ∨ pageAddress q ∈ mm'.kernelPages
  userPages : mm'.userPages = mm.userPages ++ [⟨pageAddress p, va⟩]
  walk : ∀ ρ, ρ.length = 4 → m'.walkFrom mm' ρ
    = if ρ = pagePath va then some (pageAddress p) else m.walkFrom mm ρ
  others : ∀ a, OutsidePages mm'.kernelPages a →
    a < pageAddress p ∨ pageAddress p + PAGE_SIZE ≤ a → m'.bytes a = m.bytes a

/-- An allocation fails and changes nothing, or maps a free page, which is empty. -/
theorem allocateUserPage_spec {m : Memory} {mm : MmStruct} {va : Nat} (h : m.TablesInOrder mm)
    (hok : 0 ∉ (m.allocateUserPage mm va).2.1.kernelPages) :
    m.allocateUserPage mm va = (m, mm, 0) ∨ ∃ p m' mm',
      m.allocateUserPage mm va = (m', mm', pageAddress p) ∧ Allocates m mm va p m' mm'
        ∧ ∀ o < PAGE_SIZE, m'.bytes (pageAddress p + o) = 0 := by
  obtain ⟨m₀, h⟩ := h
  rcases m.getFreePage_cases with hfail | ⟨p, hp, hfree, hpage⟩
  · left
    simp only [allocateUserPage, hfail, if_true]
  · right
    have hrun : m.allocateUserPage mm va = (((m.claimPage p).mapPage mm va (pageAddress p)).1,
        ((m.claimPage p).mapPage mm va (pageAddress p)).2, pageAddress p) := by
      simp only [allocateUserPage, hpage, if_neg (pageAddress_ne_zero p)]
    obtain ⟨⟨m', mm'⟩, hmap⟩ : ∃ r, (m.claimPage p).mapPage mm va (pageAddress p) = r := ⟨_, rfl⟩
    rw [hrun, hmap] at hok
    have hprefix : mm.kernelPages <+: mm'.kernelPages := by
      have hle := mapPage_kernelPages (m.claimPage p) mm va (pageAddress p)
      rwa [hmap] at hle
    -- Claiming the frame leaves the tables.
    have hclaim : ∀ t ∈ mm.kernelPages, ∀ o < PAGE_SIZE,
        (m.claimPage p).bytes (t + o) = m.bytes (t + o) := by
      intro t ht o ho
      obtain ⟨q, -, rfl, hused⟩ := h.table ht
      have hqp : q ≠ p := by
        rintro rfl
        rw [hfree] at hused
        exact nomatch hused
      exact memzero_bytes (m.setPage p true) (outside_pageAddress hqp ho)
    obtain ⟨⟨m₁, h₁⟩, hwalk₁⟩ := h.congr (· = p)
      (fun q hq => hq ▸ h.free hfree) (claimPage_memoryPages m p) hclaim
    obtain ⟨htables, huser, hwalk, hbytes⟩ := mapPage_spec h₁ (pageAddress_mod p) hmap hok
    have hm' : Mapped m₁ m' mm' := Or.inr htables
    have hfresh : ∀ t ∈ mm'.kernelPages, t ∈ mm.kernelPages
        ∨ ∃ q < N_PAGES, t = pageAddress q ∧ (m.claimPage p).memoryPages q = false := by
      intro t ht
      obtain ⟨q, hq, rfl, hfree₁⟩ := htables.fresh t ht
      cases hclaimed : (m.claimPage p).memoryPages q with
      | false => exact Or.inr ⟨q, hq, rfl, hclaimed⟩
      | true =>
          refine Or.inl (((h₁.used q).mp hclaimed).resolve_left ?_)
          rw [hfree₁]
          decide
    have hclaimed : (m.claimPage p).memoryPages p = true :=
      (claimPage_memoryPages m p p).mpr (Or.inr rfl)
    -- The new tables are other pages than the frame.
    have hnoTable : pageAddress p ∉ mm'.kernelPages := by
      intro ht
      rcases hfresh _ ht with ht | ⟨q, -, heq, hq⟩
      · exact h.free hfree ht
      · rw [← pageAddress_inj heq, hclaimed] at hq
        exact nomatch hq
    refine ⟨p, m', mm', by rw [hrun, hmap], ⟨hp, hfree, ⟨m₁, hm'⟩, hnoTable, hprefix,
      fun t ht => ?_, fun q => ?_, huser, fun ρ hρ => ?_, fun a ha hpa => ?_⟩, fun o ho => ?_⟩
    · refine (hfresh t ht).imp_right ?_
      rintro ⟨q, hq, rfl, hfree₁⟩
      refine ⟨q, hq, rfl, ?_⟩
      have hnot := (claimPage_memoryPages m p q).not.mp (by rw [hfree₁]; decide)
      simpa using (not_or.mp hnot).1
    · have hsub : pageAddress q ∈ mm.kernelPages → pageAddress q ∈ mm'.kernelPages := fun hq =>
        hprefix.subset hq
      rw [hm'.used, ← or_assoc, ← claimPage_memoryPages m p q, h₁.used, or_assoc,
        or_iff_right_of_imp hsub]
    · have hlow := pageAddress_lt hp
      rw [htables.walkFrom_eq, hwalk ρ hρ, Nat.mod_eq_of_lt hlow, hwalk₁ ρ hρ]
    · rw [hbytes a ha]
      exact memzero_bytes (m.setPage p true) hpa
    · rw [hbytes _ (hm'.outside hnoTable ho)]
      exact claimPage_bytes m ho

/-- Writing to the frame afterwards changes nothing else. -/
theorem Allocates.fill {m m₁ m' : Memory} {mm mm' : MmStruct} {va p : Nat}
    (h : Allocates m mm va p m₁ mm') (hpages : m'.memoryPages = m₁.memoryPages)
    (hbytes : ∀ a, a < pageAddress p ∨ pageAddress p + PAGE_SIZE ≤ a → m'.bytes a = m₁.bytes a) :
    Allocates m mm va p m' mm' := by
  obtain ⟨m₀, hm₀⟩ := h.tables
  have htables : ∀ t ∈ mm'.kernelPages, ∀ o < PAGE_SIZE, m'.bytes (t + o) = m₁.bytes (t + o) := by
    intro t ht o ho
    obtain ⟨q, -, rfl, -⟩ := hm₀.table ht
    exact hbytes _ (outside_pageAddress (fun he => h.noTable (he ▸ ht)) ho)
  obtain ⟨hm', hwalk⟩ := hm₀.congr (fun _ => False) (fun _ => False.elim)
    (fun q => by rw [hpages, or_false]) htables
  exact { h with
    tables := hm'
    used := fun q => by rw [hpages]; exact h.used q
    walk := fun ρ hρ => by rw [hwalk ρ hρ]; exact h.walk ρ hρ
    others := fun a ha hpa => by rw [hbytes a hpa]; exact h.others a ha hpa }

/-! ### The loop -/

section Loop
variable {m : Memory} {mm : MmStruct} {buffer size : Nat}

/-- A round in which the allocation succeeds maps a page, copies the next bytes of the buffer
into it and leaves the rest of it empty. -/
theorem copyCodePage_spec {i : Nat} (h : m.TablesInOrder mm) {r : Memory × MmStruct × Nat}
    (hrun : copyCodePage buffer size (m, mm, min size (i * PAGE_SIZE)) i = r)
    (hok : 0 ∉ r.2.1.kernelPages) (hgrown : mm.userPages.length < r.2.1.userPages.length) :
    r.2.2 = min size ((i + 1) * PAGE_SIZE) ∧ ∃ p, Allocates m mm (i * PAGE_SIZE) p r.1 r.2.1
      ∧ ∀ o < PAGE_SIZE,
        (size ≤ i * PAGE_SIZE + o → r.1.bytes (pageAddress p + o) = 0)
        ∧ (i * PAGE_SIZE + o < size → OutsidePages r.2.1.kernelPages (buffer + (i * PAGE_SIZE + o)) →
          buffer + (i * PAGE_SIZE + o) < pageAddress p
            ∨ pageAddress p + PAGE_SIZE ≤ buffer + (i * PAGE_SIZE + o) →
          r.1.bytes (pageAddress p + o) = m.bytes (buffer + (i * PAGE_SIZE + o))) := by
  have hmm : r.2.1 = (m.allocateUserPage mm (i * PAGE_SIZE)).2.1 := by
    rw [← hrun]
    unfold copyCodePage
    dsimp only
    split <;> rfl
  rw [hmm] at hok
  rcases allocateUserPage_spec h hok with hfail | ⟨p, m₁, mm₁, halloc, hspec, hzero⟩
  · -- A failed allocation records no page.
    rw [hmm, hfail] at hgrown
    exact absurd hgrown (Nat.lt_irrefl _)
  · unfold copyCodePage at hrun
    simp only [halloc] at hrun
    by_cases hmore : i * PAGE_SIZE < size
    · have hcopied : min size (i * PAGE_SIZE) = i * PAGE_SIZE := Nat.min_eq_right (Nat.le_of_lt hmore)
      rw [hcopied, if_pos hmore] at hrun
      obtain ⟨count, hcount⟩ : ∃ count, count = if size - i * PAGE_SIZE > PAGE_SIZE then PAGE_SIZE
        else size - i * PAGE_SIZE := ⟨_, rfl⟩
      rw [← hcount] at hrun
      have hle : count ≤ PAGE_SIZE := by
        rw [hcount]
        split <;> omega
      have hnext : i * PAGE_SIZE + count = min size ((i + 1) * PAGE_SIZE) := by
        rw [hcount, Nat.add_mul, Nat.one_mul]
        split <;> omega
      have hpart : ∀ o < PAGE_SIZE, o < count ↔ i * PAGE_SIZE + o < size := by
        intro o ho
        rw [hcount]
        split <;> omega
      subst hrun
      have hcopied : (m₁.memcpy (pageAddress p) (buffer + i * PAGE_SIZE) count).memoryPages
          = m₁.memoryPages := rfl
      have hfill := hspec.fill hcopied fun a ha => memcpy_bytes_outside m₁ (by omega)
      refine ⟨hnext, p, hfill, fun o ho => ⟨fun hend => ?_, fun hin htables hframe => ?_⟩⟩
      · have hbehind : ¬ o < count := (hpart o ho).not.mpr (Nat.not_lt.mpr hend)
        exact (memcpy_bytes_outside m₁ (by omega)).trans (hzero o ho)
      · -- The buffer is where it was before the allocation.
        have hbyte := memcpy_bytes_add m₁ (pageAddress p) (buffer + i * PAGE_SIZE)
          ((hpart o ho).mpr hin)
        rw [Nat.add_assoc] at hbyte
        exact hbyte.trans (hspec.others _ htables hframe)
    · have hcopied : min size (i * PAGE_SIZE) = size := Nat.min_eq_left (Nat.le_of_not_lt hmore)
      rw [hcopied, if_neg (Nat.lt_irrefl size)] at hrun
      subst hrun
      refine ⟨?_, p, hspec, fun o ho => ⟨fun _ => hzero o ho, fun hin => ?_⟩⟩
      · rw [Nat.add_mul]
        show size = min size _
        omega
      · omega

/-- The state after the first `n` rounds. -/
def copyCodeRounds (m : Memory) (mm : MmStruct) (buffer size n : Nat) :
    Memory × MmStruct × Nat :=
  (List.range n).foldl (copyCodePage buffer size) (m, mm, 0)

theorem copyCodeRounds_zero : copyCodeRounds m mm buffer size 0 = (m, mm, 0) := rfl

theorem copyCodeRounds_succ (n : Nat) :
    copyCodeRounds m mm buffer size (n + 1)
      = copyCodePage buffer size (copyCodeRounds m mm buffer size n) n := by
  rw [copyCodeRounds, List.range_succ, List.foldl_append]
  rfl

/-- What holds after `n` rounds without a failure: page `i` of the process is in the frame
`frame i`. -/
structure Rounds (m : Memory) (mm : MmStruct) (n : Nat) (frame : Nat → Nat) (m' : Memory)
    (mm' : MmStruct) : Prop where
  bound : ∀ i < n, frame i < N_PAGES
  free : ∀ i < n, m.memoryPages (frame i) = false
  injective : ∀ i < n, ∀ j < n, frame i = frame j → i = j
  tables : m'.TablesInOrder mm'
  noTable : ∀ i < n, pageAddress (frame i) ∉ mm'.kernelPages
  inUse : ∀ i < n, m'.memoryPages (frame i) = true
  kept : ∀ q, m.memoryPages q = true → m'.memoryPages q = true
  fresh : ∀ t ∈ mm'.kernelPages, t ∈ mm.kernelPages
    ∨ ∃ q < N_PAGES, t = pageAddress q ∧ m.memoryPages q = false
  userPages : mm'.userPages
    = mm.userPages ++ (List.range n).map fun i => ⟨pageAddress (frame i), i * PAGE_SIZE⟩
  mapped : ∀ i < n, m'.walkFrom mm' (pagePath (i * PAGE_SIZE)) = some (pageAddress (frame i))
  unmapped : ∀ ρ, ρ.length = 4 → (∀ i < n, ρ ≠ pagePath (i * PAGE_SIZE)) →
    m'.walkFrom mm' ρ = m.walkFrom mm ρ
  others : ∀ a, OutsidePages mm'.kernelPages a →
    (∀ i < n, a < pageAddress (frame i) ∨ pageAddress (frame i) + PAGE_SIZE ≤ a) →
    m'.bytes a = m.bytes a

theorem Rounds.zero (h : m.TablesInOrder mm) (frame : Nat → Nat) : Rounds m mm 0 frame m mm where
  bound := nofun
  free := nofun
  injective := nofun
  tables := h
  noTable := nofun
  inUse := nofun
  kept _ hq := hq
  fresh _ ht := Or.inl ht
  userPages := (List.append_nil _).symm
  mapped := nofun
  unmapped _ _ _ := rfl
  others _ _ _ := rfl

/-- The pages that the loop maps are the first sixteen. -/
theorem pageNumber_mul {i : Nat} (hi : i < 16) : pageNumber (i * PAGE_SIZE) = i := by
  rw [pageNumber, Nat.mul_div_cancel _ (show 0 < PAGE_SIZE by decide)]
  omega

theorem pagePath_ne {i j : Nat} (hi : i < 16) (hj : j < 16) (hij : i ≠ j) :
    pagePath (i * PAGE_SIZE) ≠ pagePath (j * PAGE_SIZE) := by
  intro h
  have hpages := pagePath_eq_iff.mp h
  rw [pageNumber_mul hi, pageNumber_mul hj] at hpages
  exact hij hpages

/-- An address in one of them has the path of its page. -/
theorem pagePath_pageNumber {va : Nat} (h : pageNumber va < 16) :
    pagePath va = pagePath (pageNumber va * PAGE_SIZE) :=
  pagePath_eq_iff.mpr (pageNumber_mul h).symm

/-- One more round. -/
theorem Rounds.succ {n p : Nat} {frame : Nat → Nat} {m₁ m₂ : Memory} {mm₁ mm₂ : MmStruct}
    (h : Rounds m mm n frame m₁ mm₁) (hn : n < 16)
    (ha : Allocates m₁ mm₁ (n * PAGE_SIZE) p m₂ mm₂) :
    Rounds m mm (n + 1) (Function.update frame n p) m₂ mm₂ := by
  have hself : Function.update frame n p n = p := Function.update_self n p frame
  have hold : ∀ i < n, Function.update frame n p i = frame i := fun i hi =>
    Function.update_of_ne (Nat.ne_of_lt hi) p frame
  have hother : ∀ i < n, frame i ≠ p := by
    rintro i hi rfl
    have hused := h.inUse i hi
    rw [ha.free] at hused
    exact nomatch hused
  have hkept : ∀ q, m₁.memoryPages q = true → m₂.memoryPages q = true := fun q hq =>
    (ha.used q).mpr (Or.inl hq)
  have hcases : ∀ {P : Nat → Nat → Prop}, (∀ i < n, P i (frame i)) → P n p →
      ∀ i < n + 1, P i (Function.update frame n p i) := by
    intro P hP hPn i hi
    rcases Nat.lt_succ_iff_lt_or_eq.mp hi with hi | rfl
    · rw [hold i hi]
      exact hP i hi
    · rw [hself]
      exact hPn
  have hfreeNow : m.memoryPages p = false := by
    cases hp : m.memoryPages p with
    | false => rfl
    | true =>
        have hused := h.kept p hp
        rw [ha.free] at hused
        exact nomatch hused
  exact {
    bound := hcases (P := fun _ q => q < N_PAGES) h.bound ha.bound
    free := hcases (P := fun _ q => m.memoryPages q = false) h.free hfreeNow
    injective := fun i hi j hj heq => by
      rcases Nat.lt_succ_iff_lt_or_eq.mp hi with hi | rfl <;>
        rcases Nat.lt_succ_iff_lt_or_eq.mp hj with hj | rfl
      · rw [hold i hi, hold j hj] at heq
        exact h.injective i hi j hj heq
      · rw [hold i hi, hself] at heq
        exact absurd heq (hother i hi)
      · rw [hold j hj, hself] at heq
        exact absurd heq.symm (hother j hj)
      · rfl
    tables := ha.tables
    noTable := by
      refine hcases (P := fun _ q => pageAddress q ∉ mm₂.kernelPages) (fun i hi ht => ?_) ha.noTable
      rcases ha.fresh _ ht with ht | ⟨q, -, heq, hfree⟩
      · exact h.noTable i hi ht
      · rw [← pageAddress_inj heq, h.inUse i hi] at hfree
        exact nomatch hfree
    inUse := hcases (P := fun _ q => m₂.memoryPages q = true) (fun i hi => hkept _ (h.inUse i hi))
      ((ha.used p).mpr (Or.inr (Or.inl rfl)))
    kept := fun q hq => hkept q (h.kept q hq)
    fresh := fun t ht => by
      rcases ha.fresh t ht with ht | ⟨q, hq, rfl, hfree⟩
      · exact h.fresh t ht
      · refine Or.inr ⟨q, hq, rfl, ?_⟩
        cases hused : m.memoryPages q with
        | false => rfl
        | true =>
            rw [h.kept q hused] at hfree
            exact nomatch hfree
    userPages := by
      have hmap : (List.range n).map (fun i => (⟨pageAddress (Function.update frame n p i),
          i * PAGE_SIZE⟩ : UserPage)) = (List.range n).map fun i =>
            ⟨pageAddress (frame i), i * PAGE_SIZE⟩ :=
        List.map_congr_left fun i hi => by rw [hold i (List.mem_range.mp hi)]
      rw [ha.userPages, h.userPages, List.range_succ, List.map_append, hmap, List.append_assoc,
        List.map_singleton, hself]
    mapped := by
      refine hcases (P := fun i q => m₂.walkFrom mm₂ (pagePath (i * PAGE_SIZE))
        = some (pageAddress q)) (fun i hi => ?_) ?_
      · rw [ha.walk _ (pagePath_length _), if_neg (pagePath_ne (by omega) hn (Nat.ne_of_lt hi))]
        exact h.mapped i hi
      · rw [ha.walk _ (pagePath_length _), if_pos rfl]
    unmapped := fun ρ hρ hne => by
      rw [ha.walk ρ hρ, if_neg (hne n (Nat.lt_succ_self n))]
      exact h.unmapped ρ hρ fun i hi => hne i (Nat.lt_succ_of_lt hi)
    others := fun a htables hframes => by
      have hp := hframes n (Nat.lt_succ_self n)
      rw [hself] at hp
      rw [ha.others a htables hp]
      refine h.others a (htables.mono ha.tracked.subset) fun i hi => ?_
      have hi' := hframes i (Nat.lt_succ_of_lt hi)
      rwa [hold i hi] at hi' }

/-- A round tracks what it allocates. -/
theorem copyCodePage_grows (buffer size : Nat) (r : Memory × MmStruct × Nat) (i : Nat) :
    r.2.1.kernelPages <+: (copyCodePage buffer size r i).2.1.kernelPages
      ∧ (copyCodePage buffer size r i).2.1.userPages.length ≤ r.2.1.userPages.length + 1 := by
  have hmm : (copyCodePage buffer size r i).2.1
      = (r.1.allocateUserPage r.2.1 (i * PAGE_SIZE)).2.1 := by
    unfold copyCodePage
    dsimp only
    split <;> rfl
  rw [hmm]
  by_cases hpage : r.1.getFreePage.2 = 0
  · simp only [allocateUserPage, if_pos hpage]
    exact ⟨List.prefix_refl _, Nat.le_succ _⟩
  · simp only [allocateUserPage, if_neg hpage, mapPage_userPages, List.length_append,
      List.length_singleton]
    exact ⟨mapPage_kernelPages _ _ _ _, Nat.le_refl _⟩

theorem copyCodeRounds_length (m : Memory) (mm : MmStruct) (buffer size n : Nat) :
    (copyCodeRounds m mm buffer size n).2.1.userPages.length ≤ mm.userPages.length + n := by
  induction n with
  | zero =>
      rw [copyCodeRounds_zero]
      exact Nat.le_refl _
  | succ n ih =>
      rw [copyCodeRounds_succ]
      have hgrows := (copyCodePage_grows buffer size (copyCodeRounds m mm buffer size n) n).2
      omega

/-- The buffer lies outside the tables and the frames. -/
def BufferOutside (buffer size n : Nat) (frame : Nat → Nat) (mm : MmStruct) : Prop :=
  ∀ o < size, OutsidePages mm.kernelPages (buffer + o) ∧ ∀ i < n,
    buffer + o < pageAddress (frame i) ∨ pageAddress (frame i) + PAGE_SIZE ≤ buffer + o

/-- The loop, as long as no allocation fails. -/
theorem copyCodeRounds_spec (h : m.TablesInOrder mm) {n : Nat} (hn : n ≤ 16)
    (hok : 0 ∉ (copyCodeRounds m mm buffer size n).2.1.kernelPages)
    (hall : (copyCodeRounds m mm buffer size n).2.1.userPages.length
      = mm.userPages.length + n) :
    (copyCodeRounds m mm buffer size n).2.2 = min size (n * PAGE_SIZE)
      ∧ ∃ frame, Rounds m mm n frame (copyCodeRounds m mm buffer size n).1
          (copyCodeRounds m mm buffer size n).2.1
        ∧ (BufferOutside buffer size n frame (copyCodeRounds m mm buffer size n).2.1 →
          ∀ i < n, ∀ o < PAGE_SIZE,
            (copyCodeRounds m mm buffer size n).1.bytes (pageAddress (frame i) + o)
              = if i * PAGE_SIZE + o < size then m.bytes (buffer + (i * PAGE_SIZE + o))
                else 0) := by
  induction n with
  | zero =>
      refine ⟨?_, fun _ => 0, Rounds.zero h _, nofun⟩
      rw [Nat.zero_mul, Nat.min_zero]
      rfl
  | succ n ih =>
      obtain ⟨r, hr⟩ : ∃ r, copyCodeRounds m mm buffer size n = r := ⟨_, rfl⟩
      obtain ⟨r', hr'⟩ : ∃ r', copyCodePage buffer size r n = r' := ⟨_, rfl⟩
      obtain ⟨htracked, hgrows⟩ := copyCodePage_grows buffer size r n
      have hlen := copyCodeRounds_length m mm buffer size n
      rw [copyCodeRounds_succ, hr, hr'] at hok hall ⊢
      rw [hr] at ih hlen
      rw [hr'] at htracked hgrows
      obtain ⟨hcopied, frame, hrounds, hcontents⟩ := ih (by omega)
        (fun h0 => hok (htracked.subset h0)) (by omega)
      have hstate : r = (r.1, r.2.1, min size (n * PAGE_SIZE)) := by rw [← hcopied]
      rw [hstate] at hr'
      obtain ⟨hcopied', p, halloc, hbytes⟩ := copyCodePage_spec hrounds.tables hr' hok (by omega)
      have hrounds' := hrounds.succ (by omega) halloc
      have hself : Function.update frame n p n = p := Function.update_self n p frame
      have hold : ∀ i < n, Function.update frame n p i = frame i := fun i hi =>
        Function.update_of_ne (Nat.ne_of_lt hi) p frame
      refine ⟨hcopied', _, hrounds', fun hbuffer i hi o ho => ?_⟩
      have hbuffer₀ : BufferOutside buffer size n frame r.2.1 := by
        intro o ho
        obtain ⟨htables, hframes⟩ := hbuffer o ho
        refine ⟨htables.mono htracked.subset, fun i hi => ?_⟩
        have hi' := hframes i (Nat.lt_succ_of_lt hi)
        rwa [hold i hi] at hi'
      rcases Nat.lt_succ_iff_lt_or_eq.mp hi with hi | rfl
      · -- The frames of the earlier rounds stay as they are.
        have hip : frame i ≠ p := by
          intro he
          have hii := hrounds'.injective i (Nat.lt_succ_of_lt hi) n (Nat.lt_succ_self n)
            (by rw [hself, hold i hi, he])
          exact Nat.ne_of_lt hi hii
        obtain ⟨m₀, hm₀⟩ := hrounds'.tables
        have hnoTable := hrounds'.noTable i (Nat.lt_succ_of_lt hi)
        rw [hold i hi] at hnoTable
        rw [hold i hi, halloc.others _ (hm₀.outside hnoTable ho) (outside_pageAddress hip ho)]
        exact hcontents hbuffer₀ i hi o ho
      · rw [hself]
        obtain ⟨hzero, hcopy⟩ := hbytes o ho
        split
        · next hin =>
            obtain ⟨htables, hframes⟩ := hbuffer _ hin
            have hp := hframes i (Nat.lt_succ_self i)
            rw [hself] at hp
            rw [hcopy hin htables hp]
            -- The buffer is as it was before the first round.
            exact hrounds.others _ (hbuffer₀ _ hin).1 (hbuffer₀ _ hin).2
        · next hend => exact hzero (Nat.not_lt.mp hend)

end Loop

/-! ### The image -/

section Image
variable {m : Memory} {mm : MmStruct} {buffer size : Nat}

/-- No call of `get_free_page` in `copy_code` fails: the answer 0 would be recorded as a table, or
the page would be missing from `user_pages`. -/
def EnoughPages (m : Memory) (mm : MmStruct) (buffer size : Nat) : Prop :=
  0 ∉ (m.copyCode mm buffer size).2.kernelPages
    ∧ (m.copyCode mm buffer size).2.userPages.length = mm.userPages.length + 16

instance (m : Memory) (mm : MmStruct) (buffer size : Nat) :
    Decidable (m.EnoughPages mm buffer size) :=
  inferInstanceAs (Decidable (_ ∧ _))

/-- The page is allocated by the call, or it is a page table that the process had before. -/
def TouchedPage (m : Memory) (mm : MmStruct) (buffer size p : Nat) : Prop :=
  m.memoryPages p = false ∧ (m.copyCode mm buffer size).1.memoryPages p = true
    ∨ pageAddress p ∈ mm.kernelPages

/-- What `copy_code` builds for a process without user pages: the virtual pages 0 to 15, and no
others, are mapped to sixteen distinct frames, and the process finds in them the bytes of the
buffer, followed by zeroes. -/
theorem copyCode_loads (htables : m.TablesInOrder mm) (hnone : mm.userPages = [])
    (hold : ∀ va, 16 ≤ pageNumber va → m.translateUser mm va = none)
    (hpages : m.EnoughPages mm buffer size)
    (hbuffer : ∀ p < N_PAGES, m.TouchedPage mm buffer size p →
      buffer + size ≤ pageAddress p ∨ pageAddress p + PAGE_SIZE ≤ buffer) :
    ∃ frame : Nat → Nat,
      (∀ i < 16, frame i < N_PAGES ∧ m.memoryPages (frame i) = false
        ∧ (m.copyCode mm buffer size).1.memoryPages (frame i) = true)
      ∧ (∀ i < 16, ∀ j < 16, frame i = frame j → i = j)
      ∧ (∀ va, (m.copyCode mm buffer size).1.translateUser (m.copyCode mm buffer size).2 va
        = if pageNumber va < 16 then some (pageAddress (frame (pageNumber va)) + va % PAGE_SIZE)
          else none)
      ∧ (∀ o < 16 * PAGE_SIZE, (m.copyCode mm buffer size).1.bytes
          (pageAddress (frame (o / PAGE_SIZE)) + o % PAGE_SIZE)
        = if o < size then m.bytes (buffer + o) else 0)
      ∧ (m.copyCode mm buffer size).2.userPages
        = (List.range 16).map (fun i => ⟨pageAddress (frame i), i * PAGE_SIZE⟩)
      ∧ (m.copyCode mm buffer size).1.TablesInOrder (m.copyCode mm buffer size).2 := by
  obtain ⟨-, frame, hrounds, hcontents⟩ := copyCodeRounds_spec htables (Nat.le_refl 16) hpages.1
    hpages.2
  obtain ⟨r, hr⟩ : ∃ r, m.copyCode mm buffer size = r := ⟨_, rfl⟩
  have hstate : (copyCodeRounds m mm buffer size 16).1 = r.1
      ∧ (copyCodeRounds m mm buffer size 16).2.1 = r.2 := by
    rw [← hr]
    exact ⟨rfl, rfl⟩
  rw [hstate.1, hstate.2] at hrounds hcontents
  unfold TouchedPage at hbuffer
  rw [hr] at hbuffer ⊢
  obtain ⟨m₀, hm₀⟩ := hrounds.tables
  have houtside : BufferOutside buffer size 16 frame r.2 := by
    intro o ho
    refine ⟨fun t ht => ?_, fun i hi => ?_⟩
    · obtain ⟨p, hp, rfl, hused⟩ := hm₀.table ht
      have htouched := hbuffer p hp <| (hrounds.fresh _ ht).symm.imp_left fun ⟨q, _, heq, hfree⟩ =>
        ⟨pageAddress_inj heq ▸ hfree, hused⟩
      omega
    · have htouched := hbuffer _ (hrounds.bound i hi) (Or.inl ⟨hrounds.free i hi, hrounds.inUse i hi⟩)
      omega
  refine ⟨frame, fun i hi => ⟨hrounds.bound i hi, hrounds.free i hi, hrounds.inUse i hi⟩,
    hrounds.injective, fun va => ?_, fun o ho => ?_, ?_, hrounds.tables⟩
  · rw [translateUser_eq]
    split
    · next hlow =>
        rw [pagePath_pageNumber hlow, hrounds.mapped _ hlow]
        rfl
    · next hhigh =>
        -- The pages above 15 are as they were.
        have hkeep := hrounds.unmapped (pagePath va) (pagePath_length va) fun i hi he => by
          have hnumber := pagePath_eq_iff.mp he
          rw [pageNumber_mul hi] at hnumber
          omega
        rw [hkeep, ← translateUser_eq]
        exact hold va (Nat.not_lt.mp hhigh)
  · have hi : o / PAGE_SIZE < 16 := Nat.div_lt_of_lt_mul (by rwa [Nat.mul_comm] at ho)
    have hin := hcontents houtside (o / PAGE_SIZE) hi (o % PAGE_SIZE) (Nat.mod_lt o (by decide))
    rwa [Nat.div_add_mod'] at hin
  · rw [hrounds.userPages, hnone]
    rfl

/-- A program of 5000 bytes in the kernel's image, for a process without page tables. -/
theorem copyCode_loads_program :
    ∃ frame : Nat → Nat, ∀ o < 16 * PAGE_SIZE,
      ((⟨fun _ => false, fun a => UInt8.ofNat a⟩ : Memory).copyCode .empty 0x100000 5000).1.bytes
          (pageAddress (frame (o / PAGE_SIZE)) + o % PAGE_SIZE)
        = if o < 5000 then UInt8.ofNat (0x100000 + o) else 0 := by
  have hfar : ∀ p < N_PAGES, 0x100000 + 5000 ≤ pageAddress p
      ∨ pageAddress p + PAGE_SIZE ≤ 0x100000 := by
    intro p _
    rw [pageAddress_eq]
    omega
  have htables : (⟨fun _ => false, fun a => UInt8.ofNat a⟩ : Memory).TablesInOrder .empty :=
    ⟨_, Or.inl ⟨rfl, rfl, rfl⟩⟩
  have hpages : (⟨fun _ => false, fun a => UInt8.ofNat a⟩ : Memory).EnoughPages .empty 0x100000
      5000 := by decide +kernel
  obtain ⟨frame, -, -, -, hbytes, -⟩ := copyCode_loads htables rfl (fun _ _ => rfl) hpages
    fun p hp _ => hfar p hp
  exact ⟨frame, hbytes⟩

/-- A reset of `user_pages`, as `syscall_exec` does it, leaves the tables. -/
theorem TablesInOrder.forget (h : m.TablesInOrder mm) :
    m.TablesInOrder { mm with userPages := [] } := by
  obtain ⟨m₀, h | h⟩ := h
  · exact ⟨m₀, Or.inl h⟩
  · exact ⟨m₀, Or.inr ⟨h.fresh, h.nodup, h.allocated, h.valid, h.tree, h.interior⟩⟩

/-- A process whose virtual page 0 was mapped before. -/
def remapped : Memory × MmStruct :=
  let r := (⟨fun _ => false, fun _ => 0⟩ : Memory).mapPages .empty [⟨0x5000000, 0⟩]
  (r.1, { r.2 with userPages := [] })

/-- The buffer is the process's own table of the last level, which is no page that the call
allocates. The first round overwrites the entry of page 0 before it copies it, and the second one
that of page 1 afterwards: the process finds neither what the buffer held before the call nor what
it holds behind it. -/
theorem copyCode_of_own_table :
    remapped.1.TablesInOrder remapped.2 ∧ remapped.2.userPages = []
      ∧ (∀ va, 16 ≤ pageNumber va → remapped.1.translateUser remapped.2 va = none)
      ∧ remapped.1.EnoughPages remapped.2 (pageAddress 3) PAGE_SIZE
      ∧ (∀ p < N_PAGES, remapped.1.memoryPages p = false →
        pageAddress 3 + PAGE_SIZE ≤ pageAddress p ∨ pageAddress p + PAGE_SIZE ≤ pageAddress 3)
      ∧ ((remapped.1.copyCode remapped.2 (pageAddress 3) PAGE_SIZE).1.translateUser
          (remapped.1.copyCode remapped.2 (pageAddress 3) PAGE_SIZE).2 1).map
            (remapped.1.copyCode remapped.2 (pageAddress 3) PAGE_SIZE).1.bytes
        ≠ some (remapped.1.bytes (pageAddress 3 + 1))
      ∧ ((remapped.1.copyCode remapped.2 (pageAddress 3) PAGE_SIZE).1.translateUser
          (remapped.1.copyCode remapped.2 (pageAddress 3) PAGE_SIZE).2 9).map
            (remapped.1.copyCode remapped.2 (pageAddress 3) PAGE_SIZE).1.bytes
        ≠ some ((remapped.1.copyCode remapped.2 (pageAddress 3) PAGE_SIZE).1.bytes
            (pageAddress 3 + 9)) := by
  have haligned : ∀ c ∈ ([⟨0x5000000, 0⟩] : List UserPage), c.physicalAddress % PAGE_SIZE = 0 := by
    decide
  obtain ⟨hmapped, -, hwalk⟩ := mapPages_spec (m := ⟨fun _ => false, fun _ => 0⟩) haligned
    (by decide +kernel)
  have hused : remapped.1.memoryPages 3 = true := by decide +kernel
  refine ⟨TablesInOrder.forget ⟨_, hmapped⟩, rfl, fun va hva => ?_, by decide +kernel,
    fun p _ hfree => ?_, by decide +kernel, by decide +kernel⟩
  · have hnone : lastMapping [⟨0x5000000, 0⟩] va = none := by
      have hpage : ¬ pageNumber 0 = pageNumber va := by
        have h0 : pageNumber 0 = 0 := rfl
        omega
      exact (lastMapping_concat [] ⟨0x5000000, 0⟩ va).trans (if_neg hpage)
    have hva' := hwalk va
    rw [hnone] at hva'
    rw [translateUser_eq]
    exact congrArg (Option.map (· + va % PAGE_SIZE)) hva'
  · have hp : p ≠ 3 := by
      rintro rfl
      rw [hused] at hfree
      exact nomatch hfree
    rw [pageAddress_eq, pageAddress_eq]
    show 4194304 + 3 * 4096 + 4096 ≤ _ ∨ _ + 4096 ≤ 4194304 + 3 * 4096
    omega

end Image

end Memory

end DemoOS
