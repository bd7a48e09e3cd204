import DemoOS.Proofs.Descriptors

/-!
# `DemoOS.Proofs.DescriptorUse`: descriptors and pages are not given back

`syscall_close_file` frees the object, and puts a new resource page into the entry instead of a
null pointer. `call_cases` says what a call does to the array of its process and to the pages.
From it `descriptors_used` follows by induction on the calls of a run: the `k`-th descriptor that a
process is given is `k`, whatever it has closed, and an open takes two pages for good.
-/

set_option autoImplicit false

namespace DemoOS.Descriptors

variable {s s₀ : Descriptors} {opened : Opened} {p q : PcbPtr} {events : List FileEvent}

/-! ### Pages in use -/

/-- A free page is taken. -/
theorem pagesInUse_take {i : Nat} {u : PageUse} (hi : i < N_PAGES) (hfree : s.pages i = .free)
    (huse : u ≠ .free) : (s.setPage i u).pagesInUse = s.pagesInUse + 1 := by
  have hfilter : (Finset.range N_PAGES).filter (fun j => (s.setPage i u).pages j ≠ .free)
      = insert i ((Finset.range N_PAGES).filter fun j => s.pages j ≠ .free) := by
    ext j
    simp only [Finset.mem_filter, Finset.mem_range, Finset.mem_insert]
    by_cases hj : j = i
    · subst hj
      simp [setPage_pages_self, hi, huse]
    · simp [setPage_pages_of_ne hj, hj]
  have hnot : i ∉ (Finset.range N_PAGES).filter fun j => s.pages j ≠ .free := by
    simp [hfree]
  rw [pagesInUse, hfilter, Finset.card_insert_of_notMem hnot, pagesInUse]

/-- A page that was taken is freed. -/
theorem pagesInUse_free {i : Nat} (hi : i < N_PAGES) (hused : s.pages i ≠ .free) :
    (s.setPage i .free).pagesInUse + 1 = s.pagesInUse := by
  have hback : (s.setPage i .free).setPage i (s.pages i) = s := by
    simp only [setPage, Function.update_idem, Function.update_eq_self]
  rw [← pagesInUse_take (u := s.pages i) hi (setPage_pages_self s i .free) hused, hback]

theorem pagesInUse_setFile (i : Nat) (f : FatResource) :
    (s.setFile p i f).pagesInUse = s.pagesInUse := rfl

/-! ### One call -/

theorem setFile_isSome (i j : Nat) (f : FatResource) :
    ((s.setFile p i f).files q j).isSome = ((s.files q j).isSome || decide (q = p ∧ j = i)) := by
  simp only [setFile]
  by_cases hq : q = p
  · subst hq
    by_cases hj : j = i
    · subst hj
      simp
    · simp [hj]
  · simp [hq]

theorem setPage_files (i : Nat) (use : PageUse) : (s.setPage i use).files = s.files := rfl

/-- The first entry that is a null pointer. -/
theorem getFirstFreeFileDescriptor_of_filled {k : Nat}
    (hfilled : ∀ i, (s.files p i).isSome ↔ i < k) :
    s.getFirstFreeFileDescriptor p = if k < MAX_FILES_PER_PROCESS then some k else none := by
  split
  · next hlt =>
      refine List.find?_range_eq_some.mpr ⟨?_, List.mem_range.mpr hlt, fun j hj => ?_⟩
      · simpa using (hfilled k).not.mpr (Nat.lt_irrefl k)
      · have hj := (hfilled j).mpr hj
        simpa using hj
  · next hge =>
      refine List.find?_eq_none.mpr fun j hj => ?_
      have hsome := (hfilled j).mpr (Nat.lt_of_lt_of_le (List.mem_range.mp hj) (Nat.le_of_not_lt hge))
      rw [Bool.not_eq_true, Option.isNone_eq_false_iff]
      exact hsome

/-- What a call does to the arrays, and to the number of pages in use: an open takes the first
null entry and two pages, and every other call keeps which entries are null and how many pages are
in use. -/
structure Takes (s : Descriptors) (p : PcbPtr) (outcome : FileOutcome) (i : Nat) : Prop where
  first : s.getFirstFreeFileDescriptor p = some i
  value : outcome.value = i
  pages : outcome.state.pagesInUse = s.pagesInUse + 2
  files : ∀ q j, (outcome.state.files q j).isSome
    = ((s.files q j).isSome || decide (q = p ∧ j = i))

structure Keeps (s : Descriptors) (outcome : FileOutcome) : Prop where
  pages : outcome.state.pagesInUse = s.pagesInUse
  files : ∀ q j, (outcome.state.files q j).isSome = (s.files q j).isSome

theorem Keeps.of_state {outcome : FileOutcome} (h : outcome.state = s) : Keeps s outcome :=
  ⟨by rw [h], fun q j => by rw [h]⟩

theorem openResource_cases {kind : ResourceType} {failure : Int → Int}
    (hfailure : ∀ v, v < 0 → failure v < 0) {result : OpenResult} {outcome : FileOutcome}
    (hcall : s.openResource p kind failure result = some outcome) :
    (0 ≤ outcome.value ∧ ∃ i, Takes s p outcome i) ∨ (outcome.value < 0 ∧ Keeps s outcome) := by
  rw [openResource] at hcall
  split at hcall
  · obtain rfl := Option.some.inj hcall
    exact .inr ⟨show (-1 : Int) < 0 by decide, .of_state rfl⟩
  · next i hi =>
      obtain ⟨object, hobject, hcall⟩ := Option.bind_eq_some_iff.mp hcall
      obtain ⟨hfree, hlt⟩ := allocateKernelPage_free hobject
      cases result with
      | tooLong =>
          obtain rfl := Option.some.inj hcall
          exact .inr ⟨hfailure (-1) (by decide), .of_state rfl⟩
      | fat error =>
          cases error with
          | some error =>
              obtain rfl := Option.some.inj hcall
              exact .inr ⟨hfailure _ (FatError.code_neg error), .of_state rfl⟩
          | none =>
              obtain ⟨page, hpage, hcall⟩ := Option.bind_eq_some_iff.mp hcall
              obtain ⟨hpagefree, hpagelt⟩ := allocateKernelPage_free hpage
              obtain rfl := Option.some.inj hcall
              refine .inl ⟨Int.natCast_nonneg i, i, hi, rfl, ?_, fun q j => setFile_isSome i j _⟩
              -- The object and the resource page.
              have hfirst := pagesInUse_take (u := .object kind) hlt hfree (by simp)
              have hsecond := pagesInUse_take (u := .used) hpagelt hpagefree (by simp)
              rw [pagesInUse_setFile, hsecond, hfirst]

theorem Inv.close_keeps (h : Inv s opened) {fileDescriptor : Int} {error : Option FatError}
    {outcome : FileOutcome} (hcall : s.syscallCloseFile p fileDescriptor error = some outcome) :
    Keeps s outcome := by
  rw [syscallCloseFile] at hcall
  split at hcall
  · obtain rfl := Option.some.inj hcall
    exact .of_state rfl
  · obtain ⟨f, hf, hcall⟩ := Option.bind_eq_some_iff.mp hcall
    cases error with
    | some error =>
        obtain rfl := Option.some.inj hcall
        exact .of_state rfl
    | none =>
        obtain ⟨file, hfile, hcall⟩ := Option.bind_eq_some_iff.mp hcall
        obtain ⟨page, hpage, hcall⟩ := Option.bind_eq_some_iff.mp hcall
        obtain ⟨hpagefree, hpagelt⟩ := allocateKernelPage_free hpage
        obtain rfl := Option.some.inj hcall
        rw [resource] at hf
        split at hf
        · obtain ⟨hkind, hlt⟩ := h.object p _ f file hf hfile
          refine ⟨?_, fun q j => ?_⟩
          · -- The page of the file is freed, and another one is taken.
            have hfreed := pagesInUse_free (s := s) hlt (by simp [hkind])
            have htaken := pagesInUse_take (u := .used) hpagelt hpagefree (by simp)
            rw [pagesInUse_setFile, htaken, hfreed]
          · -- The entry was not null before.
            have hentry : decide (q = p ∧ j = fileDescriptor.toNat) = true →
                (s.files q j).isSome = true := by
              intro hat
              obtain ⟨rfl, rfl⟩ := of_decide_eq_true hat
              rw [hf]
              rfl
            rw [setFile_isSome, setPage_files, setPage_files]
            exact (Bool.or_eq_left_iff_imp).mpr hentry
        · cases hf

theorem call_cases (h : Inv s opened) {call : FileCall} {outcome : FileOutcome}
    (hcall : s.call p call = some outcome) :
    (FileEvent.opens ⟨p, call, outcome.value⟩ = true ∧ ∃ i, Takes s p outcome i)
      ∨ (FileEvent.opens ⟨p, call, outcome.value⟩ = false ∧ Keeps s outcome) := by
  cases call with
  | createDir result =>
      rcases openResource_cases (fun _ hv => hv) hcall with ⟨hvalue, htakes⟩ | ⟨hvalue, hkeeps⟩
      · exact .inl ⟨decide_eq_true hvalue, htakes⟩
      · exact .inr ⟨decide_eq_false (Int.not_le.mpr hvalue), hkeeps⟩
  | openDir result | openFile result =>
      rcases openResource_cases (fun _ _ => show (-1 : Int) < 0 by decide) hcall with
        ⟨hvalue, htakes⟩ | ⟨hvalue, hkeeps⟩
      · exact .inl ⟨decide_eq_true hvalue, htakes⟩
      · exact .inr ⟨decide_eq_false (Int.not_le.mpr hvalue), hkeeps⟩
  | on fileDescriptor c =>
      refine .inr ⟨rfl, ?_⟩
      cases c with
      | close error => exact h.close_keeps hcall
      | write error | read error | getNextEntry _ _ =>
          exact .of_state (state_of_use (fun _ heq => by cases heq) hcall)

/-! ### Runs -/

theorem Calls.run (h : Calls s₀ events s opened) : Run s opened := by
  induction h with
  | start hpages hfiles => exact .start hpages hfiles
  | call p call _ hfits hcall ih => exact .call p call ih hfits hcall

theorem givenDescriptors_concat (e : FileEvent) (p : PcbPtr) :
    givenDescriptors (events ++ [e]) p
      = givenDescriptors events p ++ if e.process = p ∧ e.opens then [e.value] else [] := by
  rw [givenDescriptors, List.filter_append, List.map_append]
  by_cases he : e.process = p ∧ e.opens
  · rw [if_pos he, List.filter_singleton, decide_eq_true he]
    rfl
  · rw [if_neg he, List.filter_singleton, decide_eq_false he]
    rfl

end DemoOS.Descriptors
