import DemoOS.Proofs.Memory.AddressSpaces

/-!
# `DemoOS.Proofs.Memory.ExecImage`: stores of a process, and a new program

`Sees` says what a process loads. A store of the process changes one byte of it
(`storeUser_sees`), and `putArguments_sees` follows along the arguments. `loadProgram_spec` is what
`copy_code` leaves, from the rounds of its loop. `exec_spec` puts `syscall_exec` together: the
buffer has one page, and the rest of a longer image lies in the free pages behind it.
-/

set_option autoImplicit false

namespace DemoOS.Memory

open Support Spec

variable {m m' : Memory} {mm mm' : MmStruct} {space : Space} {p q va : Nat} {byte : UInt8}

/-- The bytes that a process loads. -/
def Sees (m : Memory) (mm : MmStruct) (space : Space) : Prop := ∀ va, m.loadUser mm va = space va

/-! ### Stores -/

/-- The frame of a virtual address, and the offset in it. -/
theorem UserMap.userAddress_cases (h : UserMap m mm) {a : Nat}
    (ha : m.userAddress mm va = some a) : ∃ q, Owns mm q ∧ a = pageAddress q + va % PAGE_SIZE
      ∧ ∃ u, mm.userPages[va / PAGE_SIZE]? = some u ∧ u.physicalAddress = pageAddress q := by
  rw [h.userAddress_eq] at ha
  obtain ⟨u, hu, rfl⟩ := Option.map_eq_some_iff.mp ha
  obtain ⟨q, -, heq, -, -⟩ := h.frames u (List.mem_of_getElem? hu)
  exact ⟨q, .inr (List.mem_map.mpr ⟨u, List.mem_of_getElem? hu, heq⟩), by rw [heq], u, hu, heq⟩

/-- Two virtual addresses of a process are at two places. -/
theorem UserMap.userAddress_inj (h : UserMap m mm) {va' a : Nat}
    (ha : m.userAddress mm va = some a) (ha' : m.userAddress mm va' = some a) : va = va' := by
  obtain ⟨q, -, heq, u, hu, hq⟩ := h.userAddress_cases ha
  obtain ⟨q', -, heq', u', hu', hq'⟩ := h.userAddress_cases ha'
  have hmod : va % PAGE_SIZE < PAGE_SIZE := Nat.mod_lt va (by decide)
  have hmod' : va' % PAGE_SIZE < PAGE_SIZE := Nat.mod_lt va' (by decide)
  have hsame : q = q' := by
    by_contra hne
    have hout := outside_pageAddress hne hmod
    omega
  subst hsame
  -- A frame is listed once.
  have hpage : va / PAGE_SIZE = va' / PAGE_SIZE := by
    have hmap := congrArg (Option.map UserPage.physicalAddress) hu
    have hmap' := congrArg (Option.map UserPage.physicalAddress) hu'
    rw [← List.getElem?_map, Option.map_some, hq] at hmap
    rw [← List.getElem?_map, Option.map_some, hq'] at hmap'
    have hlt : va / PAGE_SIZE < (mm.userPages.map UserPage.physicalAddress).length :=
      (List.getElem?_eq_some_iff.mp hmap).1
    exact (List.getElem?_inj hlt h.nodup).mp (hmap.trans hmap'.symm)
  have hdiv := Nat.div_add_mod va PAGE_SIZE
  have hdiv' := Nat.div_add_mod va' PAGE_SIZE
  rw [hpage] at hdiv
  omega

/-- A store changes the byte that a load of the address finds. -/
theorem storeUser_sees (h : UserMap m mm) (hsees : Sees m mm space)
    (hrun : m.storeUser mm va byte = some m') :
    UserMap m' mm ∧ Acts m mm m' mm ∧ Sees m' mm (space.store va byte) := by
  obtain ⟨a, ha, rfl⟩ := Option.map_eq_some_iff.mp hrun
  obtain ⟨q, hown, heq, u, hu, hq⟩ := h.userAddress_cases ha
  have hmod : va % PAGE_SIZE < PAGE_SIZE := Nat.mod_lt va (by decide)
  have hbytes : ∀ b, Function.update m.bytes a byte b ≠ m.bytes b → b = a := by
    intro b hb
    by_contra hne
    exact hb (Function.update_of_ne hne byte m.bytes)
  have hacts : Acts m mm { m with bytes := Function.update m.bytes a byte } mm := by
    refine (Acts.refl m mm).write rfl fun b hb => ?_
    rw [hbytes b hb]
    exact ⟨q, .inr hown, by omega, by omega⟩
  -- The frame is none of the tables.
  have htable : ∀ r, pageAddress r ∈ mm.kernelPages →
      SamePage m { m with bytes := Function.update m.bytes a byte } r := by
    intro r hr o ho
    refine Function.update_of_ne ?_ byte m.bytes
    obtain ⟨r', -, heq', -, hnot⟩ := h.frames u (List.mem_of_getElem? hu)
    have hne : q ≠ r := by
      rintro rfl
      rw [← hq, heq'] at hr
      exact hnot hr
    have hout := outside_pageAddress (Ne.symm hne) ho
    omega
  obtain ⟨htables, hwalk⟩ := h.tables.reframe (n := { m with
    bytes := Function.update m.bytes a byte }) (fun r hr => h.used (.inl hr)) htable
  have hmap : UserMap { m with bytes := Function.update m.bytes a byte } mm :=
    ⟨htables, h.bound, h.pages, h.frames, h.nodup, fun va' => by
      rw [hwalk _ (pagePath_length va')]
      exact h.walk va'⟩
  refine ⟨hmap, hacts, fun va' => ?_⟩
  have haddress : ∀ va', ({ m with bytes := Function.update m.bytes a byte } : Memory).userAddress
      mm va' = m.userAddress mm va' := fun va' => by
    rw [hmap.userAddress_eq, h.userAddress_eq]
  rw [loadUser, haddress, Space.store]
  by_cases hva : va' = va
  · subst hva
    rw [ha, Function.update_self]
    exact congrArg some (Function.update_self a byte m.bytes)
  · rw [Function.update_of_ne hva, ← hsees va', loadUser]
    cases ha' : m.userAddress mm va' with
    | none => rfl
    | some a' =>
        have hne : a' ≠ a := fun he => hva (h.userAddress_inj (he ▸ ha') ha)
        exact congrArg some (Function.update_of_ne hne byte m.bytes)

theorem strcpyUser_sees {text : List UInt8} (h : UserMap m mm) (hsees : Sees m mm space)
    (hrun : m.strcpyUser mm va text = some m') :
    UserMap m' mm ∧ Acts m mm m' mm ∧ Sees m' mm (space.storeText va text) := by
  induction text generalizing m va space with
  | nil => exact storeUser_sees h hsees hrun
  | cons byte text ih =>
      obtain ⟨m₁, hstore, hrun⟩ := Option.bind_eq_some_iff.mp hrun
      obtain ⟨hmap, hacts, hsees₁⟩ := storeUser_sees h hsees hstore
      obtain ⟨hmap', hacts', hsees'⟩ := ih hmap hsees₁ hrun
      exact ⟨hmap', hacts.trans hacts', hsees'⟩

theorem putArguments_sees {arguments : List (List UInt8)} {stackPointer : Nat} (h : UserMap m mm)
    (hsees : Sees m mm space) (hrun : m.putArguments mm stackPointer arguments = some m') :
    UserMap m' mm ∧ Acts m mm m' mm ∧ Sees m' mm (space.putArguments stackPointer arguments) := by
  induction arguments generalizing m stackPointer space with
  | nil =>
      obtain rfl := Option.some.inj hrun
      exact ⟨h, .refl m mm, hsees⟩
  | cons argument arguments ih =>
      obtain ⟨m₁, hcopy, hrun⟩ := Option.bind_eq_some_iff.mp hrun
      obtain ⟨hmap, hacts, hsees₁⟩ := strcpyUser_sees h hsees hcopy
      obtain ⟨hmap', hacts', hsees'⟩ := ih hmap hsees₁ hrun
      exact ⟨hmap', hacts.trans hacts', hsees'⟩

/-! ### `copy_code` -/

/-- What `copy_code` leaves for a process whose user pages were freed. -/
theorem loadProgram_spec {buffer size : Nat} (h : m.TablesInOrder mm) (hnone : mm.userPages = [])
    (hold : ∀ va, 16 ≤ pageNumber va → m.walkFrom mm (pagePath va) = none)
    (hrun : m.loadProgram mm buffer size = some (m', mm')) :
    UserMap m' mm' ∧ Grows m mm m' mm'
      ∧ ((∀ o < size, ∀ q, Owns mm' q →
          buffer + o < pageAddress q ∨ pageAddress q + PAGE_SIZE ≤ buffer + o) →
        Sees m' mm' (.program (fun o => m.bytes (buffer + o)) size)) := by
  simp only [loadProgram] at hrun
  split at hrun
  · next hpages =>
      obtain ⟨hr, hmm'⟩ := Prod.mk.inj (Option.some.inj hrun)
      obtain ⟨-, frame, hrounds, hcontents⟩ := copyCodeRounds_spec h (Nat.le_refl 16) hpages.1
        hpages.2
      have hm : (copyCodeRounds m mm buffer size 16).1 = m' := hr
      have hmm : (copyCodeRounds m mm buffer size 16).2.1 = mm' := hmm'
      rw [hm, hmm] at hrounds hcontents
      have huser : mm'.userPages
          = (List.range 16).map fun i => ⟨pageAddress (frame i), i * PAGE_SIZE⟩ := by
        rw [hrounds.userPages, hnone, List.nil_append]
      have hget : ∀ i, mm'.userPages[i]?
          = if i < 16 then some ⟨pageAddress (frame i), i * PAGE_SIZE⟩ else none := by
        intro i
        rw [huser, List.getElem?_map]
        split
        · next hi => rw [List.getElem?_range hi, Option.map_some]
        · next hi => rw [List.getElem?_eq_none (by simpa using hi), Option.map_none]
      have hmap : UserMap m' mm' := by
        refine ⟨hrounds.tables, by simp [huser], ?_, fun u hu => ?_, ?_, fun va => ?_⟩
        · simp [huser]
        · rw [huser] at hu
          obtain ⟨i, hi, rfl⟩ := List.mem_map.mp hu
          have hi := List.mem_range.mp hi
          exact ⟨frame i, hrounds.bound i hi, rfl, hrounds.inUse i hi, hrounds.noTable i hi⟩
        · rw [huser, List.map_map]
          refine List.Nodup.map_on (fun i hi j hj heq => ?_) List.nodup_range
          exact hrounds.injective i (List.mem_range.mp hi) j (List.mem_range.mp hj)
            (pageAddress_inj heq)
        · rw [hget]
          split
          · next hlow => rw [pagePath_pageNumber hlow, hrounds.mapped _ hlow, Option.map_some]
          · next hhigh =>
              rw [hrounds.unmapped (pagePath va) (pagePath_length va) fun i hi he => ?_,
                hold va (Nat.not_lt.mp hhigh), Option.map_none]
              have hnumber := pagePath_eq_iff.mp he
              rw [pageNumber_mul hi] at hnumber
              omega
      have hgrows : Grows m mm m' mm' := by
        obtain ⟨m₀, hm₀⟩ := hrounds.tables
        refine ⟨hrounds.kept, hrounds.fresh, fun u hu => .inr ?_, fun q hused hq o ho => ?_,
          fun a ha => ?_⟩
        · rw [huser] at hu
          obtain ⟨i, hi, rfl⟩ := List.mem_map.mp hu
          have hi := List.mem_range.mp hi
          exact ⟨frame i, hrounds.bound i hi, rfl, hrounds.free i hi⟩
        · refine hrounds.others _ (hm₀.outside (fun ht => ?_) ho) fun i hi => ?_
          · rcases hrounds.fresh _ ht with ht | ⟨r, -, heq, hfree⟩
            · exact hq ht
            · rw [← pageAddress_inj heq, hused] at hfree
              cases hfree
          · refine outside_pageAddress ?_ ho
            rintro rfl
            rw [hrounds.free i hi] at hused
            cases hused
        · have ha : a < 4194304 := ha
          refine hrounds.others a (fun t ht => ?_) fun i _ => .inl (by rw [pageAddress_eq]; omega)
          obtain ⟨q, -, rfl, -⟩ := hm₀.table ht
          rw [pageAddress_eq]
          exact .inl (by omega)
      refine ⟨hmap, hgrows, fun hbuffer va => ?_⟩
      have hown : ∀ i < 16, Owns mm' (frame i) := by
        intro i hi
        refine .inr (List.mem_map.mpr ⟨⟨pageAddress (frame i), i * PAGE_SIZE⟩, ?_, rfl⟩)
        rw [huser]
        exact List.mem_map.mpr ⟨i, List.mem_range.mpr hi, rfl⟩
      have houtside : BufferOutside buffer size 16 frame mm' := by
        obtain ⟨m₀, hm₀⟩ := hrounds.tables
        refine fun o ho => ⟨fun t ht => ?_, fun i hi => hbuffer o ho _ (hown i hi)⟩
        obtain ⟨q, -, rfl, -⟩ := hm₀.table ht
        exact hbuffer o ho q (.inl ht)
      rw [loadUser, hmap.userAddress_eq, hget, Space.program]
      have hpage : va / PAGE_SIZE < 16 ↔ va < 16 * PAGE_SIZE :=
        Nat.div_lt_iff_lt_mul (by decide)
      split
      · next hlow =>
          rw [if_pos (hpage.mp hlow)]
          have hbyte := hcontents houtside _ hlow _ (Nat.mod_lt va (by decide))
          rw [Nat.div_add_mod'] at hbyte
          exact congrArg some hbyte
      · next hhigh =>
          rw [if_neg (hpage.not.mp hhigh)]
          rfl
  · cases hrun

/-! ### `syscall_exec` -/

/-- The pages of the list are freed, and all others stay. -/
theorem freePages_spec (pages : List UserPage)
    (hpages : ∀ u ∈ pages, ∃ q, u.physicalAddress = pageAddress q) (m : Memory) (q : Nat)
    (hq : ∀ u ∈ pages, u.physicalAddress ≠ pageAddress q) :
    (pages.foldl (fun m page => (m.freePage page.physicalAddress).1) m).memoryPages q
        = m.memoryPages q
      ∧ SamePage m (pages.foldl (fun m page => (m.freePage page.physicalAddress).1) m) q := by
  induction pages generalizing m with
  | nil => exact ⟨rfl, .refl m q⟩
  | cons page pages ih =>
      obtain ⟨r, hr⟩ := hpages page List.mem_cons_self
      have hqr : q ≠ r := by
        rintro rfl
        exact hq page List.mem_cons_self hr
      obtain ⟨hused, hsame⟩ := ih (fun u hu => hpages u (List.mem_cons_of_mem _ hu))
        (m.freePage page.physicalAddress).1 fun u hu => hq u (List.mem_cons_of_mem _ hu)
      have hfree : (m.freePage page.physicalAddress).1
          = (m.memzero (pageAddress r) PAGE_SIZE).setPage r false := by
        rw [freePage, hr, if_neg (not_not_intro (pageAddress_mod r)), pageIndex_pageAddress]
      rw [List.foldl_cons, hused, hfree]
      refine ⟨?_, fun o ho => ?_⟩
      · show Function.update m.memoryPages r false q = _
        rw [Function.update_of_ne hqr]
      have hbyte := hsame o ho
      rw [hfree] at hbyte
      exact hbyte.trans (memzero_bytes m (outside_pageAddress hqr ho))

theorem freePages_acts (pages : List UserPage) (keep : MmStruct)
    (hpages : ∀ u ∈ pages, ∃ q, u.physicalAddress = pageAddress q ∧ Owns mm q)
    (h : Acts m mm m' keep) :
    Acts m mm (pages.foldl (fun m page => (m.freePage page.physicalAddress).1) m') keep := by
  induction pages generalizing m' with
  | nil => exact h
  | cons page pages ih =>
      obtain ⟨q, heq, hown⟩ := hpages page List.mem_cons_self
      have hfree := h.release (.inr hown)
      rw [← heq] at hfree
      exact ih (fun u hu => hpages u (List.mem_cons_of_mem _ hu)) hfree

/-- The loop that frees the user pages leaves the tables, and every page that is no frame. -/
theorem freeUserPages_spec (h : UserMap m mm) :
    (m.freeUserPages mm).1.TablesInOrder (m.freeUserPages mm).2
      ∧ (∀ ρ, ρ.length = 4 → (m.freeUserPages mm).1.walkFrom (m.freeUserPages mm).2 ρ
        = m.walkFrom mm ρ)
      ∧ Acts m mm (m.freeUserPages mm).1 (m.freeUserPages mm).2
      ∧ ∀ q, (∀ u ∈ mm.userPages, u.physicalAddress ≠ pageAddress q) →
        (m.freeUserPages mm).1.memoryPages q = m.memoryPages q
          ∧ SamePage m (m.freeUserPages mm).1 q := by
  have hframes : ∀ u ∈ mm.userPages, ∃ q, u.physicalAddress = pageAddress q := fun u hu =>
    (h.frames u hu).imp fun _ hq => hq.2.1
  have hothers := fun q hq => freePages_spec mm.userPages hframes m q hq
  -- A table is no frame.
  have htable : ∀ q, pageAddress q ∈ mm.kernelPages →
      ∀ u ∈ mm.userPages, u.physicalAddress ≠ pageAddress q := by
    intro q hq u hu heq
    obtain ⟨r, -, hr, -, hnot⟩ := h.frames u hu
    rw [← heq, hr] at hq
    exact hnot hq
  obtain ⟨htables, hwalk⟩ := h.tables.reframe (n := (m.freeUserPages mm).1)
    (fun q hq => (hothers q (htable q hq)).1.trans (h.used (.inl hq)))
    fun q hq => (hothers q (htable q hq)).2
  refine ⟨htables.forget, hwalk, ?_, hothers⟩
  refine freePages_acts mm.userPages _ (fun u hu => ?_) ⟨fun q hq => ?_, fun _ hq _ => hq,
    fun q _ _ => .refl m q, fun _ _ => rfl⟩
  · obtain ⟨q, -, heq, -⟩ := h.frames u hu
    exact ⟨q, heq, .inr (List.mem_map.mpr ⟨u, hu, heq⟩)⟩
  · rcases hq with hq | hq
    · exact .inl (.inl hq)
    · exact absurd hq List.not_mem_nil

/-- A page that is free after steps of the kernel was free before. -/
theorem Acts.free (h : Acts m .empty m' .empty) (hfree : m'.memoryPages q = false) :
    m.memoryPages q = false := by
  cases hused : m.memoryPages q with
  | false => rfl
  | true =>
      have hempty : ¬ Owns .empty q := by
        rintro (hq | hq) <;> exact List.not_mem_nil hq
      rw [h.used q hused hempty] at hfree
      cases hfree

/-- The page that a byte of an image is in. -/
theorem pageAddress_add (b o : Nat) :
    pageAddress b + o = pageAddress (b + o / PAGE_SIZE) + o % PAGE_SIZE := by
  rw [pageAddress_eq, pageAddress_eq]
  show _ = _ + (b + o / 4096) * 4096 + o % 4096
  omega

theorem readImage_inside {image : List UInt8} {buffer o : Nat} (ho : o < image.length) :
    (m.readImage buffer image).bytes (buffer + o) = image.getD o 0 := by
  show ByteMemory.patch m.bytes buffer image.length (fun i => image.getD i 0) _ = _
  rw [ByteMemory.patch_add ho]

theorem readImage_outside {image : List UInt8} {buffer a : Nat}
    (ha : a < buffer ∨ buffer + image.length ≤ a) :
    (m.readImage buffer image).bytes a = m.bytes a := by
  show ByteMemory.patch m.bytes buffer image.length (fun i => image.getD i 0) _ = _
  rw [ByteMemory.patch_outside ha]

/-- The pages of the file and of the buffer are free ones, and the image lies at the buffer. -/
structure Opens (m : Memory) (image : List UInt8) (m' : Memory) (f b : Nat) : Prop where
  acts : Acts m .empty m' .empty
  fileFree : m.memoryPages f = false
  bufferFree : m.memoryPages b = false
  ne : f ≠ b
  fileUsed : m'.memoryPages f = true
  bufferUsed : m'.memoryPages b = true
  image : ∀ o < image.length, m'.bytes (pageAddress b + o) = image.getD o 0

theorem openImage_spec {image : List UInt8} {file buffer : Nat}
    (hrun : m.openImage image = some (m', file, buffer))
    (hoverrun : ∀ k, 1 ≤ k → k * PAGE_SIZE < image.length →
      m'.memoryPages (pageIndex buffer + k) = false) :
    ∃ f b, file = pageAddress f ∧ buffer = pageAddress b ∧ Opens m image m' f b := by
  obtain ⟨⟨m₁, a₁⟩, htake₁, hrun⟩ := Option.bind_eq_some_iff.mp hrun
  obtain ⟨⟨m₂, a₂⟩, htake₂, hrun⟩ := Option.bind_eq_some_iff.mp hrun
  obtain ⟨⟨m₃, a₃⟩, htake₃, hrun⟩ := Option.bind_eq_some_iff.mp hrun
  obtain ⟨p₁, -, rfl, hfree₁, hm₁⟩ := takePage_spec htake₁
  obtain ⟨p₂, -, rfl, hfree₂, hm₂⟩ := takePage_spec htake₂
  obtain ⟨p₃, -, rfl, hfree₃, hm₃⟩ := takePage_spec htake₃
  obtain ⟨rfl, hfb⟩ := Prod.mk.inj (Option.some.inj hrun)
  obtain ⟨rfl, rfl⟩ := Prod.mk.inj hfb
  have hacts₁ : Acts m .empty m₁ .empty := hm₁ ▸ (Acts.refl m .empty).claim (.inl hfree₁)
  have hacts₂ : Acts m .empty m₂ .empty := hm₂ ▸ hacts₁.claim (.inl (hacts₁.free hfree₂))
  have hacts₃ : Acts m .empty m₃ .empty := hm₃ ▸ hacts₂.claim (.inl (hacts₂.free hfree₃))
  have hused₁ : m₂.memoryPages p₁ = true := by
    rw [hm₂, claimPage_memoryPages, hm₁, claimPage_memoryPages]
    exact .inl (.inr rfl)
  have hused₃ : ∀ q, m₂.memoryPages q = true → m₃.memoryPages q = true := by
    intro q hq
    rw [hm₃, claimPage_memoryPages]
    exact .inl hq
  refine ⟨p₁, p₃, rfl, rfl, hacts₃.write rfl fun a hne => ?_, hfree₁, hacts₂.free hfree₃, ?_,
    hused₃ p₁ hused₁, ?_, fun o ho => readImage_inside ho⟩
  · -- Every byte of the image is in a page that was free.
    have hin : pageAddress p₃ ≤ a ∧ a < pageAddress p₃ + image.length := by
      by_contra hout
      exact hne (readImage_outside (by omega))
    obtain ⟨o, rfl⟩ : ∃ o, a = pageAddress p₃ + o := ⟨a - pageAddress p₃, by omega⟩
    have hmod : o % PAGE_SIZE < PAGE_SIZE := Nat.mod_lt o (by decide)
    have hpage := pageAddress_add p₃ o
    refine ⟨p₃ + o / PAGE_SIZE, .inl ?_, by omega, by omega⟩
    rcases Nat.eq_zero_or_pos (o / PAGE_SIZE) with hzero | hpos
    · rw [hzero]
      exact hacts₂.free hfree₃
    · have hover := hoverrun (o / PAGE_SIZE) hpos (by
        have hle := Nat.div_mul_le_self o PAGE_SIZE
        omega)
      rw [pageIndex_pageAddress] at hover
      exact hacts₃.free hover
  · rintro rfl
    rw [hused₁] at hfree₃
    cases hfree₃
  · show m₃.memoryPages p₃ = true
    rw [hm₃, claimPage_memoryPages]
    exact .inr rfl

/-- A new program for a process: its image and its arguments, or, where the image has more than
15 pages, what it had. -/
theorem exec_spec {image : List UInt8} {arguments : List (List UInt8)} {r : Memory × Nat × Nat}
    (h : UserMap m mm) (hsees : Sees m mm space)
    (hrun : m.exec mm image arguments = some (m', mm')) (hopen : m.openImage image = some r)
    (hoverrun : AddressSpaces.OverrunFree r.1 m' r.2.2 image.length) :
    UserMap m' mm' ∧ Acts m mm m' mm' ∧ Sees m' mm' (if image.length > PAGE_SIZE * 15 then space
      else (Space.program (fun o => image.getD o 0) image.length).putArguments (16 * PAGE_SIZE)
        arguments) := by
  obtain ⟨m₁, file, buffer⟩ := r
  simp only [exec, hopen, Option.bind_eq_bind, Option.bind_some] at hrun
  obtain ⟨⟨m₃, a⟩, htake, hrest⟩ := Option.bind_eq_some_iff.mp hrun
  obtain ⟨f, b, rfl, rfl, hopens⟩ := openImage_spec hopen fun k hk hlt => (hoverrun k hk hlt).2.1
  obtain ⟨p, -, -, hfree, hm₃⟩ := takePage_spec htake
  -- The file is closed.
  have hacts₂ := hopens.acts.release (.inl hopens.fileFree)
  have hacts₃ : Acts m .empty m₃ .empty := hm₃ ▸ hacts₂.claim (.inl (hacts₂.free hfree))
  have hempty : ∀ q, ¬ Owns .empty q := fun q hq => hq.elim List.not_mem_nil List.not_mem_nil
  obtain ⟨hmap₃, hload₃, -⟩ := h.bystander hacts₃ fun q _ => hempty q
  have hwhole : Acts m mm m₃ mm :=
    hacts₃.mono (fun q hq => absurd hq (hempty q)) mm fun q hq => .inl hq
  split at hrest
  · next hlong =>
      obtain ⟨rfl, rfl⟩ := Prod.mk.inj (Option.some.inj hrest)
      rw [if_pos hlong]
      exact ⟨hmap₃, hwhole, fun va => (hload₃ va).trans (hsees va)⟩
  · next hshort =>
      rw [if_neg hshort]
      obtain ⟨htables, hwalk, hacts₄, hothers⟩ := freeUserPages_spec hmap₃
      obtain ⟨m₄, mm₄, hfreed⟩ : ∃ m₄ mm₄, m₃.freeUserPages mm = (m₄, mm₄) := ⟨_, _, rfl⟩
      have hnone : mm₄.userPages = [] := by
        have huser : (m₃.freeUserPages mm).2.userPages = [] := rfl
        rwa [hfreed] at huser
      rw [hfreed] at htables hwalk hacts₄ hothers hrest
      obtain ⟨⟨m₅, mm₅⟩, hload, hrest⟩ := Option.bind_eq_some_iff.mp hrest
      obtain ⟨m₆, hput, hrest⟩ := Option.bind_eq_some_iff.mp hrest
      obtain ⟨rfl, rfl⟩ := Prod.mk.inj (Option.some.inj hrest)
      have hold : ∀ va, 16 ≤ pageNumber va → m₄.walkFrom mm₄ (pagePath va) = none := by
        intro va hva
        have hbound := hmap₃.bound
        rw [hwalk _ (pagePath_length va), hmap₃.walk va, List.getElem?_eq_none (by omega)]
        rfl
      obtain ⟨hmap₅, hgrows, hprogram⟩ := loadProgram_spec htables hnone hold hload
      have hacts₅ := hacts₄.trans hgrows.acts
      -- The buffer's page is in use until the end, and is not the process's.
      have hclosed : ∀ q, q ≠ f → m₁.memoryPages q = true → m₃.memoryPages q = true := by
        intro q hq hused
        rw [hm₃, claimPage_memoryPages, freePage, if_neg (not_not_intro (pageAddress_mod f)),
          pageIndex_pageAddress]
        refine .inl ?_
        show Function.update m₁.memoryPages f false q = true
        rw [Function.update_of_ne hq]
        exact hused
      have hbuffer₃ := hclosed b hopens.ne.symm hopens.bufferUsed
      have hnotOwn : ∀ {q}, m.memoryPages q = false → ¬ Owns mm q := by
        intro q hq hown
        rw [h.used hown] at hq
        cases hq
      have hbufferNot : ¬ Owns mm₅ b := hacts₅.not_owns hbuffer₃ (hnotOwn hopens.bufferFree)
      -- The pages that the image overruns are free at the end.
      obtain ⟨hmap₆, hacts₆⟩ : UserMap m₆ mm₅ ∧ Acts m₅ mm₅ m₆ mm₅ := by
        obtain ⟨hmap₆, hacts₆, -⟩ := putArguments_sees hmap₅ (fun va => rfl) hput
        exact ⟨hmap₆, hacts₆⟩
      have hpage : ∀ o < image.length, o / PAGE_SIZE = 0 ∨ 1 ≤ o / PAGE_SIZE
          ∧ m₁.memoryPages (b + o / PAGE_SIZE) = false
          ∧ m₆.memoryPages (b + o / PAGE_SIZE) = false := by
        intro o ho
        rcases Nat.eq_zero_or_pos (o / PAGE_SIZE) with hzero | hpos
        · exact .inl hzero
        · have hover := hoverrun (o / PAGE_SIZE) hpos (by
            have hle := Nat.div_mul_le_self o PAGE_SIZE
            omega)
          rw [pageIndex_pageAddress] at hover
          exact .inr ⟨hpos, hover.2⟩
      have hmod : ∀ o, o % PAGE_SIZE < PAGE_SIZE := fun o => Nat.mod_lt o (by decide)
      have hout : ∀ o < image.length, ∀ q, Owns mm₅ q → pageAddress b + o < pageAddress q
          ∨ pageAddress q + PAGE_SIZE ≤ pageAddress b + o := by
        intro o ho q hq
        rw [pageAddress_add b o]
        refine outside_pageAddress ?_ (hmod o)
        rintro rfl
        rcases hpage o ho with hzero | ⟨-, -, hfree₆⟩
        · rw [hzero] at hq
          exact hbufferNot hq
        · rw [hmap₆.used hq] at hfree₆
          cases hfree₆
      have himage : ∀ o < image.length, m₄.bytes (pageAddress b + o) = image.getD o 0 := by
        intro o ho
        have hread := hopens.image o ho
        rw [pageAddress_add b o] at hread ⊢
        -- The page of the byte is none of those that are freed or taken on the way.
        obtain ⟨hfresh, hfile, hp⟩ : m.memoryPages (b + o / PAGE_SIZE) = false
            ∧ b + o / PAGE_SIZE ≠ f ∧ b + o / PAGE_SIZE ≠ p := by
          rcases hpage o ho with hzero | ⟨-, hfree₁, hfree₆⟩
          · rw [hzero]
            refine ⟨hopens.bufferFree, hopens.ne.symm, ?_⟩
            rintro rfl
            rw [freePage, if_neg (not_not_intro (pageAddress_mod f)), pageIndex_pageAddress] at hfree
            have hkept : Function.update m₁.memoryPages f false b = false := hfree
            rw [Function.update_of_ne hopens.ne.symm, hopens.bufferUsed] at hkept
            cases hkept
          · refine ⟨hopens.acts.free hfree₁, ?_, ?_⟩
            · intro heq
              rw [heq, hopens.fileUsed] at hfree₁
              cases hfree₁
            · intro heq
              have hused : m₃.memoryPages p = true := by
                rw [hm₃, claimPage_memoryPages]
                exact .inr rfl
              have hend := (hacts₅.trans hacts₆).used p hused (hnotOwn (hacts₂.free hfree))
              rw [heq, hend] at hfree₆
              cases hfree₆
        have hframe : ∀ u ∈ mm.userPages,
            u.physicalAddress ≠ pageAddress (b + o / PAGE_SIZE) := fun u hu heq =>
          hnotOwn hfresh (.inr (List.mem_map.mpr ⟨u, hu, heq⟩))
        rw [(hothers _ hframe).2 _ (hmod o), hm₃]
        have hclaim := memzero_bytes ((m₁.freePage (pageAddress f)).1.setPage p true)
          (outside_pageAddress hp (hmod o))
        refine hclaim.trans ?_
        show (m₁.freePage (pageAddress f)).1.bytes _ = _
        rw [freePage, if_neg (not_not_intro (pageAddress_mod f))]
        exact (memzero_bytes m₁ (outside_pageAddress hfile (hmod o))).trans hread
      have hprogram₅ : Sees m₅ mm₅ (.program (fun o => image.getD o 0) image.length) := by
        intro va
        rw [hprogram hout va, Space.program, Space.program]
        by_cases hva : va < image.length
        · rw [if_pos hva, if_pos hva, himage va hva]
        · rw [if_neg hva, if_neg hva]
      obtain ⟨-, -, hsees₆⟩ := putArguments_sees hmap₅ hprogram₅ hput
      exact ⟨hmap₆, hwhole.trans (hacts₅.trans hacts₆), hsees₆⟩

end DemoOS.Memory
