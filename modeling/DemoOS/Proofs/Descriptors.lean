import DemoOS.Libs.Descriptors
import Mathlib.Tactic.NormNum

/-!
# `DemoOS.Proofs.Descriptors`: which calls on descriptors are in order

In a run the entries of all arrays `files` have resource pages and objects of their own, each
object is of the kind that the tag says, and an entry with an object is one that was opened and not
closed (`Inv`). `Inv.setFile` is the step: an entry is filled in, with pages that no other entry
has.

The result is `disciplined_iff`: what a call on a descriptor must find in the array. The calls of
`disciplined_fails` do not find it.
-/

set_option autoImplicit false

namespace DemoOS.Descriptors

variable {s : Descriptors} {opened : Opened} {p : PcbPtr} {fileDescriptor : Int}

/-! ### Pages -/

theorem allocateKernelPage_free {i : Nat} (h : s.allocateKernelPage = some i) :
    s.pages i = .free ∧ i < N_PAGES := by
  have hfree := List.find?_some h
  have hmem := List.mem_of_find?_eq_some h
  exact ⟨of_decide_eq_true hfree, List.mem_range.mp hmem⟩

theorem allocateKernelPage_isSome {i : Nat} (hfree : s.pages i = .free) (hlt : i < N_PAGES) :
    s.allocateKernelPage.isSome :=
  List.find?_isSome.mpr ⟨i, List.mem_range.mpr hlt, decide_eq_true hfree⟩

theorem setPage_pages_of_ne {i j : Nat} (h : j ≠ i) (use : PageUse) :
    (s.setPage i use).pages j = s.pages j := by
  rw [setPage]
  exact Function.update_of_ne h use s.pages

theorem setPage_pages_self (s : Descriptors) (i : Nat) (use : PageUse) :
    (s.setPage i use).pages i = use := by
  rw [setPage]
  exact Function.update_self i use s.pages

/-! ### The invariant -/

/-- What an entry says about what was opened. -/
def entryCall (resource : FatResource) : Option FatCall :=
  resource.object.map fun b => ⟨resource.resourceType, some b⟩

/-- The entries have pages of their own, of the kind that their tags say. -/
structure Inv (s : Descriptors) (opened : Opened) : Prop where
  used : ∀ p i f, s.files p i = some f → s.pages f.page = .used
  object : ∀ p i f b, s.files p i = some f → f.object = some b →
    s.pages b = .object f.resourceType ∧ b < N_PAGES
  ownPage : ∀ p i q j f g, s.files p i = some f → s.files q j = some g → f.page = g.page →
    p = q ∧ i = j
  ownObject : ∀ p i q j f g b, s.files p i = some f → s.files q j = some g → f.object = some b →
    g.object = some b → p = q ∧ i = j
  opened : ∀ p i, opened p i = (s.files p i).bind entryCall

/-- One entry is filled in. -/
theorem Inv.setFile (h : Inv s opened) (i : Nat) (f : FatResource) (pages : Nat → PageUse)
    (hpages : ∀ q j g, (q, j) ≠ (p, i) → s.files q j = some g → pages g.page = s.pages g.page
      ∧ g.page ≠ f.page ∧ ∀ b, g.object = some b → pages b = s.pages b ∧ f.object ≠ some b)
    (hused : pages f.page = .used)
    (hobject : ∀ b, f.object = some b → pages b = .object f.resourceType ∧ b < N_PAGES) :
    Inv ({ s with pages := pages }.setFile p i f)
      (Function.update opened p (Function.update (opened p) i (entryCall f))) := by
  -- An entry is the new one, or one that was there.
  have hcases : ∀ q j g, ({ s with pages := pages }.setFile p i f).files q j = some g →
      (q, j) = (p, i) ∧ g = f ∨ (q, j) ≠ (p, i) ∧ s.files q j = some g := by
    intro q j g hg
    simp only [Descriptors.setFile] at hg
    by_cases hq : q = p
    · subst hq
      rw [Function.update_self] at hg
      by_cases hj : j = i
      · subst hj
        rw [Function.update_self] at hg
        exact .inl ⟨rfl, (Option.some.inj hg).symm⟩
      · rw [Function.update_of_ne hj] at hg
        exact .inr ⟨fun heq => hj (Prod.mk.inj heq).2, hg⟩
    · rw [Function.update_of_ne hq] at hg
      exact .inr ⟨fun heq => hq (Prod.mk.inj heq).1, hg⟩
  constructor
  · intro q j g hg
    rcases hcases q j g hg with ⟨-, rfl⟩ | ⟨hne, hg⟩
    · exact hused
    · exact (hpages q j g hne hg).1.trans (h.used q j g hg)
  · intro q j g b hg hb
    rcases hcases q j g hg with ⟨-, rfl⟩ | ⟨hne, hg⟩
    · exact hobject b hb
    · obtain ⟨hkind, hlt⟩ := h.object q j g b hg hb
      exact ⟨((hpages q j g hne hg).2.2 b hb).1.trans hkind, hlt⟩
  · intro q j q' j' g g' hg hg' hpage
    rcases hcases q j g hg with ⟨hat, rfl⟩ | ⟨hne, hg₁⟩
    · rcases hcases q' j' g' hg' with ⟨hat', rfl⟩ | ⟨hne', hg₁'⟩
      · exact Prod.mk.inj (hat.trans hat'.symm)
      · exact absurd hpage.symm (hpages q' j' g' hne' hg₁').2.1
    · rcases hcases q' j' g' hg' with ⟨hat', rfl⟩ | ⟨hne', hg₁'⟩
      · exact absurd hpage (hpages q j g hne hg₁).2.1
      · exact h.ownPage q j q' j' g g' hg₁ hg₁' hpage
  · intro q j q' j' g g' b hg hg' hb hb'
    rcases hcases q j g hg with ⟨hat, rfl⟩ | ⟨hne, hg₁⟩
    · rcases hcases q' j' g' hg' with ⟨hat', rfl⟩ | ⟨hne', hg₁'⟩
      · exact Prod.mk.inj (hat.trans hat'.symm)
      · exact absurd hb ((hpages q' j' g' hne' hg₁').2.2 b hb').2
    · rcases hcases q' j' g' hg' with ⟨hat', rfl⟩ | ⟨hne', hg₁'⟩
      · exact absurd hb' ((hpages q j g hne hg₁).2.2 b hb).2
      · exact h.ownObject q j q' j' g g' b hg₁ hg₁' hb hb'
  · intro q j
    simp only [Descriptors.setFile]
    by_cases hq : q = p
    · subst hq
      rw [Function.update_self, Function.update_self]
      by_cases hj : j = i
      · subst hj
        rw [Function.update_self, Function.update_self]
        rfl
      · rw [Function.update_of_ne hj, Function.update_of_ne hj]
        exact h.opened q j
    · rw [Function.update_of_ne hq, Function.update_of_ne hq]
      exact h.opened q j

/-- A page that was free is no page of an entry. -/
theorem Inv.ne_of_free (h : Inv s opened) {q : PcbPtr} {j b : Nat} {g : FatResource}
    (hg : s.files q j = some g) (hfree : s.pages b = .free) :
    g.page ≠ b ∧ g.object ≠ some b := by
  constructor
  · rintro rfl
    rw [h.used q j g hg] at hfree
    cases hfree
  · intro hobject
    rw [(h.object q j g b hg hobject).1] at hfree
    cases hfree

/-! ### Calls -/

theorem FatError.code_neg (error : FatError) : error.code < 0 := by
  cases error <;> decide

/-- A call that opens something. -/
theorem Inv.openResource (h : Inv s opened) {kind : ResourceType} {failure : Int → Int}
    (hfailure : ∀ v, v < 0 → failure v < 0) {result : OpenResult} {outcome : FileOutcome}
    (hcall : s.openResource p kind failure result = some outcome) :
    Inv outcome.state (if 0 ≤ outcome.value then
      Function.update opened p
        (Function.update (opened p) outcome.value.toNat outcome.calls.head?)
      else opened) := by
  have hfails : ∀ {outcome : FileOutcome}, outcome.state = s → outcome.value < 0 →
      Inv outcome.state (if 0 ≤ outcome.value then
        Function.update opened p
          (Function.update (opened p) outcome.value.toNat outcome.calls.head?)
        else opened) := by
    intro outcome hstate hvalue
    rw [if_neg (by omega), hstate]
    exact h
  rw [Descriptors.openResource] at hcall
  split at hcall
  · obtain rfl := Option.some.inj hcall
    exact hfails rfl (show (-1 : Int) < 0 by decide)
  · next i _ =>
      obtain ⟨object, hobject, hcall⟩ := Option.bind_eq_some_iff.mp hcall
      obtain ⟨hfree, hlt⟩ := allocateKernelPage_free hobject
      cases result with
      | tooLong =>
          obtain rfl := Option.some.inj hcall
          exact hfails rfl (hfailure (-1) (by decide))
      | fat error =>
          cases error with
          | some error =>
              obtain rfl := Option.some.inj hcall
              exact hfails rfl (hfailure _ (FatError.code_neg error))
          | none =>
              obtain ⟨page, hpage, hcall⟩ := Option.bind_eq_some_iff.mp hcall
              obtain ⟨hpagefree, -⟩ := allocateKernelPage_free hpage
              obtain rfl := Option.some.inj hcall
              -- The second page is another one, and was free before.
              have hne : object ≠ page := by
                rintro rfl
                rw [setPage_pages_self] at hpagefree
                cases hpagefree
              have hpagefree' : s.pages page = .free :=
                (setPage_pages_of_ne hne.symm _).symm.trans hpagefree
              rw [if_pos (Int.natCast_nonneg i)]
              refine h.setFile i ⟨page, kind, some object⟩
                ((s.setPage object (.object kind)).setPage page .used).pages ?_ ?_ ?_
              · intro q j g _ hg
                obtain ⟨hg₁, hg₂⟩ := h.ne_of_free hg hfree
                obtain ⟨hg₃, hg₄⟩ := h.ne_of_free hg hpagefree'
                refine ⟨?_, hg₃, fun b hb => ⟨?_, ?_⟩⟩
                · rw [setPage_pages_of_ne hg₃, setPage_pages_of_ne hg₁]
                · rw [setPage_pages_of_ne, setPage_pages_of_ne]
                  · rintro rfl
                    exact hg₂ hb
                  · rintro rfl
                    exact hg₄ hb
                · intro heq
                  obtain rfl := Option.some.inj heq
                  exact hg₂ hb
              · exact setPage_pages_self _ page .used
              · intro b hb
                obtain rfl := Option.some.inj hb
                refine ⟨?_, hlt⟩
                rw [setPage_pages_of_ne hne]
                exact setPage_pages_self s object (.object kind)

/-- `syscall_close_file`, on an open file. -/
theorem Inv.close (h : Inv s opened) {error : Option FatError} {outcome : FileOutcome}
    (hcall : s.syscallCloseFile p fileDescriptor error = some outcome) :
    Inv outcome.state (if outcome.value = 0 then
      Function.update opened p (Function.update (opened p) fileDescriptor.toNat none)
      else opened) := by
  rw [syscallCloseFile] at hcall
  split at hcall
  · obtain rfl := Option.some.inj hcall
    exact h
  · next hrange =>
      obtain ⟨f, hf, hcall⟩ := Option.bind_eq_some_iff.mp hcall
      cases error with
      | some error =>
          obtain rfl := Option.some.inj hcall
          rw [if_neg (show error.code ≠ 0 from Int.ne_of_lt (FatError.code_neg error))]
          exact h
      | none =>
          obtain ⟨file, hfile, hcall⟩ := Option.bind_eq_some_iff.mp hcall
          obtain ⟨page, hpage, hcall⟩ := Option.bind_eq_some_iff.mp hcall
          obtain ⟨hpagefree, -⟩ := allocateKernelPage_free hpage
          obtain rfl := Option.some.inj hcall
          rw [resource] at hf
          split at hf
          · refine h.setFile fileDescriptor.toNat ⟨page, .file, none⟩
              ((s.setPage file .free).setPage page .used).pages ?_ ?_ ?_
            · intro q j g hne hg
              -- The file is the object of no other entry, and a page of none.
              have hpageFile : g.page ≠ file := by
                rintro rfl
                have hused := h.used q j g hg
                rw [(h.object p _ f _ hf hfile).1] at hused
                cases hused
              have hobjectFile : g.object ≠ some file := by
                intro hobject
                obtain ⟨rfl, rfl⟩ := h.ownObject q j p _ g f file hg hf hobject hfile
                exact hne rfl
              have hused : (s.setPage file .free).pages g.page = .used := by
                rw [setPage_pages_of_ne hpageFile]
                exact h.used q j g hg
              have hpagePage : g.page ≠ page := by
                rintro rfl
                rw [hused] at hpagefree
                cases hpagefree
              refine ⟨?_, hpagePage, fun b hb => ⟨?_, fun heq => by cases heq⟩⟩
              · rw [setPage_pages_of_ne hpagePage, setPage_pages_of_ne hpageFile]
              · have hbfile : b ≠ file := by
                  rintro rfl
                  exact hobjectFile hb
                have hbpage : b ≠ page := by
                  rintro rfl
                  rw [setPage_pages_of_ne hbfile, (h.object q j g b hg hb).1] at hpagefree
                  cases hpagefree
                rw [setPage_pages_of_ne hbpage, setPage_pages_of_ne hbfile]
            · exact setPage_pages_self _ page .used
            · intro b hb
              cases hb
          · cases hf

/-- The other calls leave the pages and the arrays as they are. -/
theorem state_of_use {c : DescriptorCall} {outcome : FileOutcome}
    (hclose : ∀ error, c ≠ .close error)
    (hcall : s.call p (.on fileDescriptor c) = some outcome) : outcome.state = s := by
  cases c with
  | close error => exact absurd rfl (hclose error)
  | write error =>
      simp only [call, syscallWriteFile] at hcall
      split at hcall
      · obtain rfl := Option.some.inj hcall
        rfl
      · obtain ⟨f, -, hcall⟩ := Option.bind_eq_some_iff.mp hcall
        obtain rfl := Option.some.inj hcall
        rfl
  | read error =>
      obtain ⟨f, -, hcall⟩ := Option.bind_eq_some_iff.mp hcall
      obtain rfl := Option.some.inj hcall
      rfl
  | getNextEntry readError nextError =>
      obtain ⟨f, -, hcall⟩ := Option.bind_eq_some_iff.mp hcall
      split at hcall
      · obtain rfl := Option.some.inj hcall
        rfl
      · split at hcall
        · obtain rfl := Option.some.inj hcall
          rfl
        · obtain rfl := Option.some.inj hcall
          rfl

theorem Inv.call (h : Inv s opened) {call : FileCall} {outcome : FileOutcome}
    (hcall : s.call p call = some outcome) :
    Inv outcome.state (opened.record p call outcome) := by
  cases call with
  | createDir result => exact h.openResource (fun _ hv => hv) hcall
  | openDir result => exact h.openResource (fun _ _ => show (-1 : Int) < 0 by decide) hcall
  | openFile result => exact h.openResource (fun _ _ => show (-1 : Int) < 0 by decide) hcall
  | on fileDescriptor c =>
      cases c with
      | close error => exact h.close hcall
      | write error | read error | getNextEntry _ _ =>
          rw [state_of_use (fun _ heq => by cases heq) hcall]
          exact h

theorem Run.inv (h : Run s opened) : Inv s opened := by
  induction h with
  | @start s hpages hfiles =>
      have hnone : ∀ {p i f}, s.files p i = some f → False := by
        intro p i f hf
        rw [hfiles p i] at hf
        cases hf
      refine ⟨fun p i f hf => (hnone hf).elim, fun p i f b hf => (hnone hf).elim,
        fun p i q j f g hf => (hnone hf).elim, fun p i q j f g b hf => (hnone hf).elim, ?_⟩
      intro p i
      rw [hfiles p i]
      rfl
  | call p call _ _ hcall ih => exact ih.call hcall

/-! ### Calls on descriptors -/

/-- A call that passes the object of the entry to the FAT layer. -/
theorem Inv.disciplined_iff_isOpen (h : Inv s opened) {c : DescriptorCall} {f : FatResource}
    {outcome : FileOutcome} {kind : ResourceType} (hf : s.resource p fileDescriptor = some f)
    (hcall : s.call p (.on fileDescriptor c) = some outcome) (hne : outcome.calls ≠ [])
    (hcalls : ∀ fatCall ∈ outcome.calls, fatCall = ⟨kind, f.object⟩) :
    s.Disciplined p opened fileDescriptor c ↔ s.IsOpen p fileDescriptor kind := by
  have hentry : InRange fileDescriptor ∧ s.files p fileDescriptor.toNat = some f := by
    rw [resource] at hf
    split at hf
    · next hrange => exact ⟨hrange, hf⟩
    · cases hf
  have hopened : opened p fileDescriptor.toNat = entryCall f := by
    rw [h.opened, hentry.2]
    rfl
  constructor
  · rintro ⟨outcome', hcall', hdisciplined⟩
    obtain rfl := Option.some.inj (hcall.symm.trans hcall')
    rcases hdisciplined with ⟨-, hnil, -⟩ | ⟨-, -, hall⟩
    · exact absurd hnil hne
    · obtain ⟨fatCall, hmem⟩ := List.exists_mem_of_ne_nil _ hne
      obtain ⟨hsome, hat⟩ := hall fatCall hmem
      obtain rfl := hcalls fatCall hmem
      refine ⟨f, hf, ?_, hsome⟩
      rw [hopened] at hat
      obtain ⟨b, -, heq⟩ := Option.map_eq_some_iff.mp hat
      exact (FatCall.mk.inj heq).1
  · rintro ⟨f', hf', hkind, hsome⟩
    obtain rfl := Option.some.inj (hf.symm.trans hf')
    refine ⟨outcome, hcall, .inr ⟨hne, hentry.1, ?_⟩⟩
    intro fatCall hmem
    obtain rfl := hcalls fatCall hmem
    obtain ⟨b, hb⟩ := Option.isSome_iff_exists.mp hsome
    refine ⟨hsome, ?_⟩
    rw [hopened, entryCall, hkind, hb]
    rfl

theorem not_isOpen_of_resource {kind : ResourceType} (hf : s.resource p fileDescriptor = none) :
    ¬ s.IsOpen p fileDescriptor kind := by
  rintro ⟨f, hf', -⟩
  rw [hf] at hf'
  cases hf'

theorem not_disciplined_of_none {c : DescriptorCall}
    (hcall : s.call p (.on fileDescriptor c) = none) :
    ¬ s.Disciplined p opened fileDescriptor c := by
  rintro ⟨outcome, hcall', -⟩
  rw [hcall] at hcall'
  cases hcall'

/-- A call that returns an error at once. -/
theorem disciplined_of_error {c : DescriptorCall}
    (hcall : s.call p (.on fileDescriptor c) = some ⟨s, [], -1⟩) :
    s.Disciplined p opened fileDescriptor c :=
  ⟨_, hcall, .inl ⟨show (-1 : Int) < 0 by decide, rfl, rfl⟩⟩

theorem Inv.disciplined_close_iff (h : Inv s opened) (error : Option FatError) :
    s.Disciplined p opened fileDescriptor (.close error)
      ↔ s.CallFits p fileDescriptor (.close error) := by
  by_cases hrange : InRange fileDescriptor
  · have hguard : ¬ (fileDescriptor < 0 ∨ fileDescriptor ≥ MAX_FILES_PER_PROCESS) := by
      rintro (hlt | hge)
      · exact absurd hrange.1 (by omega)
      · exact absurd hrange.2 (by omega)
    have hcall : s.call p (.on fileDescriptor (.close error)) = _ := if_neg hguard
    rw [CallFits, or_iff_right (not_not_intro hrange)]
    cases hf : s.resource p fileDescriptor with
    | none =>
        rw [hf] at hcall
        exact iff_of_false (not_disciplined_of_none hcall) (not_isOpen_of_resource hf)
    | some f =>
        rw [hf] at hcall
        cases error with
        | some error =>
            exact h.disciplined_iff_isOpen hf hcall (List.cons_ne_nil _ _)
              fun fatCall hmem => List.mem_singleton.mp hmem
        | none =>
            cases hfile : f.object with
            | none =>
                refine iff_of_false (not_disciplined_of_none ?_) ?_
                · rw [hcall]
                  show (f.object.bind _) = none
                  rw [hfile]
                  rfl
                · rintro ⟨f', hf', -, hsome⟩
                  obtain rfl := Option.some.inj (hf.symm.trans hf')
                  rw [hfile] at hsome
                  cases hsome
            | some file =>
                -- The page that has just been freed is there for the allocation.
                have hlt : file < N_PAGES := by
                  rw [resource, if_pos hrange] at hf
                  exact (h.object p _ f file hf hfile).2
                obtain ⟨page, hpage⟩ := Option.isSome_iff_exists.mp
                  (allocateKernelPage_isSome (setPage_pages_self s file .free) hlt)
                have hcloses : s.call p (.on fileDescriptor (.close none)) = some
                    ⟨((s.setPage file .free).setPage page .used).setFile p fileDescriptor.toNat
                      ⟨page, .file, none⟩, [⟨.file, f.object⟩], 0⟩ := by
                  rw [hcall, hfile]
                  show (f.object.bind _) = _
                  rw [hfile, Option.bind_some]
                  show ((s.setPage file .free).allocateKernelPage.bind _) = _
                  rw [hpage]
                  rfl
                exact h.disciplined_iff_isOpen hf hcloses (List.cons_ne_nil _ _)
                  fun fatCall hmem => List.mem_singleton.mp hmem
  · refine iff_of_true (disciplined_of_error (if_pos ?_)) (.inl hrange)
    rw [InRange, not_and_or] at hrange
    omega

theorem Inv.disciplined_write_iff (h : Inv s opened) (error : Option FatError) :
    s.Disciplined p opened fileDescriptor (.write error)
      ↔ s.CallFits p fileDescriptor (.write error) := by
  rw [CallFits]
  by_cases hnull : s.isNull p fileDescriptor
  · exact iff_of_true (disciplined_of_error (if_pos hnull)) (.inl hnull)
  · have hcall : s.call p (.on fileDescriptor (.write error)) = _ := if_neg hnull
    rw [or_iff_right hnull]
    cases hf : s.resource p fileDescriptor with
    | none =>
        rw [hf] at hcall
        exact iff_of_false (not_disciplined_of_none hcall) (not_isOpen_of_resource hf)
    | some f =>
        rw [hf] at hcall
        exact h.disciplined_iff_isOpen hf hcall (List.cons_ne_nil _ _)
          fun fatCall hmem => List.mem_singleton.mp hmem

theorem Inv.disciplined_read_iff (h : Inv s opened) (error : Option FatError) :
    s.Disciplined p opened fileDescriptor (.read error)
      ↔ s.CallFits p fileDescriptor (.read error) := by
  have hcall : s.call p (.on fileDescriptor (.read error))
      = (s.resource p fileDescriptor).bind _ := rfl
  cases hf : s.resource p fileDescriptor with
  | none =>
      rw [hf] at hcall
      exact iff_of_false (not_disciplined_of_none hcall) (not_isOpen_of_resource hf)
  | some f =>
      rw [hf] at hcall
      refine h.disciplined_iff_isOpen hf hcall (List.cons_ne_nil _ _) ?_
      intro fatCall hmem
      rcases List.mem_cons.mp hmem with hmem | hmem
      · exact hmem
      · exact List.mem_singleton.mp hmem

theorem Inv.disciplined_getNextEntry_iff (h : Inv s opened) (readError nextError : Option FatError) :
    s.Disciplined p opened fileDescriptor (.getNextEntry readError nextError)
      ↔ s.CallFits p fileDescriptor (.getNextEntry readError nextError) := by
  have hcall : s.call p (.on fileDescriptor (.getNextEntry readError nextError))
      = (s.resource p fileDescriptor).bind _ := rfl
  rw [CallFits]
  cases hf : s.resource p fileDescriptor with
  | none =>
      rw [hf] at hcall
      refine iff_of_false (not_disciplined_of_none hcall) ?_
      rintro (hopen | ⟨f, hf', -⟩)
      · exact not_isOpen_of_resource hf hopen
      · cases hf'
  | some f =>
      rw [hf, Option.bind_some] at hcall
      cases hdir : f.object with
      | none =>
          rw [hdir] at hcall
          exact iff_of_true (disciplined_of_error hcall) (.inr ⟨f, rfl, hdir⟩)
      | some dir =>
          have hclosed : ¬ ∃ g, some f = some g ∧ g.object = none := by
            rintro ⟨g, hg, hnone⟩
            obtain rfl := Option.some.inj hg
            rw [hdir] at hnone
            cases hnone
          rw [hdir] at hcall
          rw [or_iff_left hclosed]
          cases readError with
          | some readError =>
              refine h.disciplined_iff_isOpen hf hcall (List.cons_ne_nil _ _) ?_
              intro fatCall hmem
              rw [hdir]
              exact List.mem_singleton.mp hmem
          | none =>
              refine h.disciplined_iff_isOpen hf hcall (List.cons_ne_nil _ _) ?_
              intro fatCall hmem
              rw [hdir]
              rcases List.mem_cons.mp hmem with hmem | hmem
              · exact hmem
              · exact List.mem_singleton.mp hmem

section Examples

/-- Nothing is open, and all pages are free. -/
def nothingOpen : Descriptors := ⟨fun _ => .free, fun _ _ => none, fun _ _ => false⟩

/-- The process has opened a file or a folder, with the descriptor 0. -/
def firstOpen (p : PcbPtr) (kind : ResourceType) : Descriptors :=
  ((nothingOpen.setPage 0 (.object kind)).setPage 1 .used).setFile p 0 ⟨1, kind, some 0⟩

theorem run_nothingOpen : Run nothingOpen fun _ _ => none :=
  .start (fun _ _ heq => by cases heq) fun _ _ => rfl

/-- The first two pages are taken. -/
theorem openResource_nothingOpen (p : PcbPtr) (kind : ResourceType) (failure : Int → Int) :
    nothingOpen.openResource p kind failure (.fat none)
      = some ⟨firstOpen p kind, [⟨kind, some 0⟩], 0⟩ := by
  have hobject : nothingOpen.allocateKernelPage = some 0 :=
    List.find?_range_eq_some.mpr ⟨rfl, List.mem_range.mpr (by norm_num [N_PAGES]),
      fun j hj => absurd hj (Nat.not_lt_zero j)⟩
  have hpage : (nothingOpen.setPage 0 (.object kind)).allocateKernelPage = some 1 := by
    refine List.find?_range_eq_some.mpr
      ⟨rfl, List.mem_range.mpr (by norm_num [N_PAGES]), fun j hj => ?_⟩
    obtain rfl : j = 0 := by omega
    rw [setPage_pages_self]
    rfl
  have hfirst : nothingOpen.getFirstFreeFileDescriptor p = some 0 := rfl
  rw [openResource, hfirst]
  show (nothingOpen.allocateKernelPage.bind _) = _
  rw [hobject, Option.bind_some]
  show ((nothingOpen.setPage 0 (.object kind)).allocateKernelPage.bind _) = _
  rw [hpage]
  rfl

theorem run_firstOpen (p : PcbPtr) :
    Run (firstOpen p .file) (Opened.record (fun _ _ => none) p (.openFile (.fat none))
      ⟨firstOpen p .file, [⟨.file, some 0⟩], 0⟩) :=
  .call p (.openFile (.fat none)) run_nothingOpen (fun _ _ heq => by cases heq)
    (openResource_nothingOpen p .file fun _ => -1)

theorem resource_firstOpen (p : PcbPtr) (kind : ResourceType) :
    (firstOpen p kind).resource p 0 = some ⟨1, kind, some 0⟩ := by
  show (firstOpen p kind).files p 0 = _
  simp only [firstOpen, setFile]
  rw [Function.update_self, Function.update_self]

/-- Reading from a descriptor that was never opened goes through the null pointer, and closing a
folder passes it to `fat_file_close`. -/
theorem disciplined_fails :
    nothingOpen.call .initProcess (.on 3 (.read none)) = none
      ∧ ¬ nothingOpen.Disciplined .initProcess (fun _ _ => none) 3 (.read none)
      ∧ nothingOpen.call .initProcess (.openDir (.fat none))
        = some ⟨firstOpen .initProcess .folder, [⟨.folder, some 0⟩], 0⟩
      ∧ ((firstOpen .initProcess .folder).call .initProcess (.on 0 (.close (some .io)))).map
          FileOutcome.calls = some [⟨.file, some 0⟩] := by
  refine ⟨rfl, not_disciplined_of_none rfl, openResource_nothingOpen _ .folder fun _ => -1, ?_⟩
  rw [call, syscallCloseFile, if_neg (by decide), resource_firstOpen]
  rfl

end Examples

end DemoOS.Descriptors
