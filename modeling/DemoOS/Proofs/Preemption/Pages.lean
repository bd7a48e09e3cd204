import DemoOS.Preemption.Pages
import Mathlib.Data.List.Induction

/-!
# `DemoOS.Proofs.Preemption.Pages`: when a page is handed out twice

`get_free_page` tests a slot in one statement and claims it in the next. Between the two a
tick may give the CPU to a process that claims the same slot (`page_returned_twice`), and
nothing else goes wrong: as long as every slot is still free when it is claimed, no page is
returned twice without being freed in between (`pages_returnedOnce`).

`getFreePage_complete` and `freePage_complete` say that the program, left alone, is
`Memory.getFreePage` and `Memory.freePage`.
-/

set_option autoImplicit false

namespace DemoOS

/-! ### Histories -/

section History
variable {history : List PageEvent} {p q : PcbPtr} {i j : Nat}

theorem pageHolder_returned (history : List PageEvent) (p : PcbPtr) (i j : Nat) :
    pageHolder (history ++ [.returned p i]) j
      = if i = j then some p else pageHolder history j := by
  rw [pageHolder, List.foldl_append]
  rfl

theorem pageHolder_freed (history : List PageEvent) (i j : Nat) :
    pageHolder (history ++ [.freed i]) j = if i = j then none else pageHolder history j := by
  rw [pageHolder, List.foldl_append]
  rfl

/-- A page that nobody holds was freed since it was last returned. -/
theorem freed_of_pageHolder_none (h : pageHolder history i = none)
    {before after : List PageEvent} (hsplit : history = before ++ .returned p i :: after) :
    .freed i ∈ after := by
  -- The last event decides, so the induction runs from the end of the history.
  induction after using List.reverseRecOn generalizing history with
  | nil =>
      rw [hsplit, pageHolder_returned, if_pos rfl] at h
      exact nomatch h
  | append_singleton after e ih =>
      have hsplit' : history = (before ++ .returned p i :: after) ++ [e] := by simp [hsplit]
      rw [hsplit'] at h
      refine List.mem_append.mpr ?_
      cases e with
      | freed j =>
          rw [pageHolder_freed] at h
          by_cases hj : j = i
          · exact Or.inr (List.mem_singleton.mpr (by rw [hj]))
          · exact Or.inl (ih (by rw [if_neg hj] at h; exact h) rfl)
      | returned q j =>
          rw [pageHolder_returned] at h
          by_cases hj : j = i
          · rw [if_pos hj] at h
            exact nomatch h
          · exact Or.inl (ih (by rw [if_neg hj] at h; exact h) rfl)

theorem ReturnedOnce.nil : ReturnedOnce [] := by
  intro i p q before between after h
  simp at h

/-- A page may be returned when nobody holds it. -/
theorem ReturnedOnce.append (h : ReturnedOnce history) {e : PageEvent}
    (he : ∀ q i, e = .returned q i → pageHolder history i = none) :
    ReturnedOnce (history ++ [e]) := by
  intro i p q before between after hsplit
  -- Either the new event is the second return, or both returns are old ones.
  rcases List.eq_nil_or_concat after with rfl | ⟨after, e', rfl⟩
  · have hsplit' : history ++ [e] = (before ++ .returned p i :: between) ++ [.returned q i] := by
      simp [hsplit]
    obtain ⟨hold, hlast⟩ := List.append_inj' hsplit' rfl
    have he' : e = .returned q i := List.head_eq_of_cons_eq hlast
    exact freed_of_pageHolder_none (he q i he') hold
  · have hsplit' : history ++ [e]
        = (before ++ .returned p i :: (between ++ .returned q i :: after)) ++ [e'] := by
      simp [hsplit]
    exact h i p q before between after (List.append_inj' hsplit' rfl).1

end History

/-! ### The invariant -/

/-- A page that is held, or on its way to a caller, is in use, and on its way to one caller
only. -/
structure PagesOwned (s : Preemptible PageState PagePoint) : Prop where
  once : ReturnedOnce s.state.history
  held : ∀ i p, pageHolder s.state.history i = some p → s.state.memory.memoryPages i = true
  claimed : ∀ i p, s.point p = some (.clear i) →
    s.state.memory.memoryPages i = true ∧ pageHolder s.state.history i = none
  alone : ∀ i p q, s.point p = some (.clear i) → s.point q = some (.clear i) → p = q
  frees : ∀ i p, s.point p = some (.freeMark i) → pageHolder s.state.history i = some p

section Steps
variable {s : Preemptible PageState PagePoint} {i : Nat} {p : PcbPtr} {k : Kernel} {m : Memory}

/-- A slot that is free belongs to nobody. -/
theorem PagesOwned.unheld (h : PagesOwned s) (hfree : s.state.memory.memoryPages i = false) :
    pageHolder s.state.history i = none ∧ ∀ q, s.point q ≠ some (.clear i) := by
  refine ⟨?_, fun q hq => ?_⟩
  · cases hholder : pageHolder s.state.history i with
    | none => rfl
    | some p => rw [h.held i p hholder] at hfree; exact nomatch hfree
  · rw [(h.claimed i q hq).1] at hfree
    exact nomatch hfree

/-- A process moves, to a place whose claims it can meet. -/
theorem PagesOwned.moveTo (h : PagesOwned s) {x : Option PagePoint}
    (hclear : ∀ i, x = some (.clear i) → s.state.memory.memoryPages i = true
      ∧ pageHolder s.state.history i = none ∧ ∀ q, s.point q ≠ some (.clear i))
    (hfree : ∀ i, x = some (.freeMark i) → pageHolder s.state.history i = some p) :
    PagesOwned ⟨s.state, Function.update s.point p x⟩ := by
  refine { once := h.once, held := h.held, claimed := ?_, alone := ?_, frees := ?_ }
  · intro i q hq
    rcases Program.point_update hq with ⟨-, hx⟩ | ⟨-, hq⟩
    · exact ⟨(hclear i hx).1, (hclear i hx).2.1⟩
    · exact h.claimed i q hq
  · intro i q r hq hr
    rcases Program.point_update hq with ⟨rfl, hx⟩ | ⟨-, hq⟩
    · rcases Program.point_update hr with ⟨rfl, -⟩ | ⟨-, hr⟩
      · rfl
      · exact absurd hr ((hclear i hx).2.2 r)
    · rcases Program.point_update hr with ⟨-, hx⟩ | ⟨-, hr⟩
      · exact absurd hq ((hclear i hx).2.2 q)
      · exact h.alone i q r hq hr
  · intro i q hq
    rcases Program.point_update hq with ⟨rfl, hx⟩ | ⟨-, hq⟩
    · exact hfree i hx
    · exact h.frees i q hq

/-- The kernel and the contents of pages change, and more pages may come into use. -/
theorem PagesOwned.mono (h : PagesOwned s)
    (hpages : ∀ i, s.state.memory.memoryPages i = true → m.memoryPages i = true) :
    PagesOwned ⟨⟨k, m, s.state.history⟩, s.point⟩ where
  once := h.once
  held i p hp := hpages i (h.held i p hp)
  claimed i p hp := ⟨hpages i (h.claimed i p hp).1, (h.claimed i p hp).2⟩
  alone := h.alone
  frees := h.frees

/-- A page in use that nobody holds or is about to get goes to a caller. -/
theorem PagesOwned.return (h : PagesOwned s) (hused : s.state.memory.memoryPages i = true)
    (hholder : pageHolder s.state.history i = none) (hnobody : ∀ q, s.point q ≠ some (.clear i)) :
    PagesOwned ⟨{ s.state with history := s.state.history ++ [.returned p i] }, s.point⟩ := by
  have hold : ∀ {j : Nat}, j ≠ i →
      pageHolder (s.state.history ++ [.returned p i]) j = pageHolder s.state.history j :=
    fun hj => by rw [pageHolder_returned, if_neg hj.symm]
  refine { once := ?_, held := ?_, claimed := ?_, alone := h.alone, frees := ?_ }
  · refine h.once.append fun q j he => ?_
    injection he with _ hj
    rw [← hj]
    exact hholder
  · intro j q hq
    by_cases hj : j = i
    · rw [hj]; exact hused
    · exact h.held j q ((hold hj).symm.trans hq)
  · intro j q hq
    have hj : j ≠ i := fun hj => hnobody q (hj ▸ hq)
    exact ⟨(h.claimed j q hq).1, (hold hj).trans (h.claimed j q hq).2⟩
  · intro j q hq
    have hholds := h.frees j q hq
    have hj : j ≠ i := fun hj => by rw [hj, hholder] at hholds; exact nomatch hholds
    exact (hold hj).trans hholds

/-- A page becomes free that nobody is about to get or to free. -/
theorem PagesOwned.free (h : PagesOwned s) (hclear : ∀ q, s.point q ≠ some (.clear i))
    (hfree : ∀ q, s.point q ≠ some (.freeMark i)) :
    PagesOwned ⟨{ s.state with
      memory := s.state.memory.setPage i false
      history := s.state.history ++ [.freed i] }, s.point⟩ := by
  have hold : ∀ {j : Nat}, j ≠ i →
      pageHolder (s.state.history ++ [.freed i]) j = pageHolder s.state.history j
        ∧ (s.state.memory.setPage i false).memoryPages j = s.state.memory.memoryPages j :=
    fun hj => ⟨by rw [pageHolder_freed, if_neg hj.symm], Function.update_of_ne hj _ _⟩
  refine { once := ?_, held := ?_, claimed := ?_, alone := h.alone, frees := ?_ }
  · exact h.once.append fun q j he => nomatch he
  · intro j q hq
    by_cases hj : j = i
    · have hnone : pageHolder (s.state.history ++ [.freed i]) j = none := by
        rw [pageHolder_freed, if_pos hj.symm]
      exact nomatch hq.symm.trans hnone
    · exact (hold hj).2.trans (h.held j q ((hold hj).1.symm.trans hq))
  · intro j q hq
    have hj : j ≠ i := fun hj => hclear q (hj ▸ hq)
    exact ⟨(hold hj).2.trans (h.claimed j q hq).1, (hold hj).1.trans (h.claimed j q hq).2⟩
  · intro j q hq
    have hj : j ≠ i := fun hj => hfree q (hj ▸ hq)
    exact (hold hj).1.trans (h.frees j q hq)

/-- Pages claimed in one step. -/
theorem PagesOwned.claimAll (h : PagesOwned s) (p : PcbPtr) {pages : List Nat}
    (hnodup : pages.Nodup) (hfree : ∀ i ∈ pages, s.state.memory.memoryPages i = false) :
    PagesOwned ⟨s.state.claimAll p pages, s.point⟩ := by
  induction pages generalizing s with
  | nil => exact h
  | cons i pages ih =>
      obtain ⟨hi, hnodup⟩ := List.nodup_cons.mp hnodup
      obtain ⟨hholder, hnobody⟩ := h.unheld (hfree i List.mem_cons_self)
      have hkept : ∀ j, j ≠ i → (s.state.memory.claimPage i).memoryPages j
          = s.state.memory.memoryPages j := fun j hj => Function.update_of_ne hj _ _
      have hclaimed := h.mono (k := s.state.kernel) (m := s.state.memory.claimPage i) fun j hj => by
        by_cases hji : j = i
        · rw [hji]; exact Function.update_self ..
        · exact (hkept j hji).trans hj
      have hstep := hclaimed.return (p := p) (Function.update_self ..) hholder hnobody
      refine ih hstep hnodup fun j hj => ?_
      have hji : j ≠ i := fun h => hi (h ▸ hj)
      exact (hkept j hji).trans (hfree j (List.mem_cons_of_mem i hj))

/-- A statement of the allocator. -/
theorem PagesOwned.statement (h : PagesOwned s) {point : PagePoint}
    (hpoint : s.point p = some point) (hp : s.state.kernel.currentProcess = p)
    (hclaims : ∀ i, point = .claim i → s.state.memory.memoryPages i = false) :
    ∃ st x, PagesOwned ⟨st, Function.update s.point p x⟩ ∧
      (pageStatement s.state point = (st, .returns) ∧ x = none
        ∨ ∃ next, pageStatement s.state point = (st, .goto next) ∧ x = some next) := by
  have hleave := h.moveTo (p := p) (x := none) (fun _ hx => nomatch hx) (fun _ hx => nomatch hx)
  cases point with
  | test i =>
      by_cases hi : i < N_PAGES
      · have hnext : pageStatement s.state (.test i) = (s.state,
            .goto (if s.state.memory.memoryPages i then .test (i + 1) else .claim i)) := if_pos hi
        refine ⟨s.state, _, h.moveTo (p := p) ?_ ?_, Or.inr ⟨_, hnext, rfl⟩⟩
        · intro j hj
          split at hj <;> exact nomatch hj
        · intro j hj
          split at hj <;> exact nomatch hj
      · exact ⟨s.state, none, hleave, Or.inl ⟨if_neg hi, rfl⟩⟩
  | claim i =>
      have hfree := hclaims i rfl
      obtain ⟨hholder, hnobody⟩ := h.unheld hfree
      have hclaimed := h.mono (k := s.state.kernel) (m := s.state.memory.setPage i true) fun j hj => by
        by_cases hji : j = i
        · rw [hji]; exact Function.update_self ..
        · exact (Function.update_of_ne hji _ _).trans hj
      refine ⟨_, _, hclaimed.moveTo (p := p) (x := some (.clear i)) ?_ (fun _ hx => nomatch hx),
        Or.inr ⟨_, rfl, rfl⟩⟩
      intro j hj
      injection hj with hj
      injection hj with hj
      rw [← hj]
      exact ⟨Function.update_self .., hholder, hnobody⟩
  | clear i =>
      obtain ⟨hused, hholder⟩ := h.claimed i p hpoint
      have hnobody : ∀ q, Function.update s.point p none q ≠ some (.clear i) := by
        intro q hq
        rcases Program.point_update hq with ⟨-, hx⟩ | ⟨hqp, hq⟩
        · exact nomatch hx
        · exact hqp (h.alone i q p hq hpoint)
      have hcleared := hleave.mono (k := s.state.kernel)
        (m := s.state.memory.memzero (pageAddress i) PAGE_SIZE) fun _ => id
      exact ⟨_, none, hcleared.return (p := p) hused hholder hnobody,
        Or.inl ⟨by rw [pageStatement, hp], rfl⟩⟩
  | freeClear i =>
      by_cases hholder : pageHolder s.state.history i = some s.state.kernel.currentProcess
      · have hcleared := h.mono (k := s.state.kernel)
          (m := s.state.memory.memzero (pageAddress i) PAGE_SIZE) fun _ => id
        refine ⟨_, _, hcleared.moveTo (p := p) (x := some (.freeMark i))
          (fun _ hx => nomatch hx) ?_, Or.inr ⟨_, if_pos hholder, rfl⟩⟩
        intro j hj
        injection hj with hj
        injection hj with hj
        rw [← hj, ← hp]
        exact hholder
      · exact ⟨s.state, none, hleave, Or.inl ⟨if_neg hholder, rfl⟩⟩
  | freeMark i =>
      have hholds := h.frees i p hpoint
      refine ⟨_, none, hleave.free (i := i) ?_ ?_, Or.inl ⟨rfl, rfl⟩⟩
      · intro q hq
        rcases Program.point_update hq with ⟨-, hx⟩ | ⟨-, hq⟩
        · exact nomatch hx
        · exact nomatch hholds.symm.trans (h.claimed i q hq).2
      · intro q hq
        rcases Program.point_update hq with ⟨-, hx⟩ | ⟨hqp, hq⟩
        · exact nomatch hx
        · exact hqp (Option.some.inj ((h.frees i q hq).symm.trans hholds))

/-- One step. -/
theorem pagesOwned_step {alg : SchedAlgorithm} {s' : Preemptible PageState PagePoint}
    {e : PreemptionEvent PageCall} (h : PagesOwned s) (hallowed : PageClaimHolds s e)
    (hstep : pageProgram.step alg s e = some s') : PagesOwned s' := by
  rcases Program.step_cases hstep with ⟨c, rfl, -, -, -, rfl⟩ | ⟨point, rfl, hpoint, hnext⟩
    | ⟨t, st, rfl, -, htrap, rfl⟩
  · -- A call goes to its first statement.
    refine h.moveTo (fun i hi => ?_) (fun i hi => ?_) <;> cases c <;> cases hi
  · have hclaims : ∀ i, point = .claim i → s.state.memory.memoryPages i = false := by
      intro i hi
      simp only [PageClaimHolds, hpoint, hi] at hallowed
      exact hallowed
    obtain ⟨st, x, hst, hflow⟩ := h.statement hpoint rfl hclaims
    change pageProgram.proceed alg s (pageStatement s.state point) = some s' at hnext
    rcases hflow with ⟨heq, rfl⟩ | ⟨next, heq, rfl⟩
    · rw [heq] at hnext
      rw [← Option.some.inj hnext]
      exact hst
    · rw [heq] at hnext
      rw [← Option.some.inj hnext]
      exact hst
  · -- What the kernel's own code allocates is claimed at once.
    simp only [pageProgram] at htrap
    split at htrap
    · next hfree =>
        obtain ⟨k, -, rfl⟩ := Option.map_eq_some_iff.mp htrap
        exact (h.claimAll _ hfree.1 hfree.2).mono fun _ => id
    · cases htrap

end Steps

/-! ### The program left alone -/

section Complete
variable (alg : SchedAlgorithm)

theorem scan_complete (s : PageState) {fuel i : Nat} (hi : i + fuel = N_PAGES) :
    pageProgram.complete alg (fuel + 3) s (.test i) =
      some (match s.memory.findFreePage fuel i with
        | none => (s, .returns)
        | some j => ({ s with
            memory := s.memory.claimPage j
            history := s.history ++ [.returned s.kernel.currentProcess j] }, .returns)) := by
  induction fuel generalizing i with
  | zero =>
      have hend : ¬ i < N_PAGES := by omega
      have hlast : pageProgram.statement alg s (.test i) = (s, .returns) := if_neg hend
      rw [Program.complete, hlast]
      rfl
  | succ fuel ih =>
      have hmore : i < N_PAGES := by omega
      have hnext : pageProgram.statement alg s (.test i) = (s,
          .goto (if s.memory.memoryPages i then .test (i + 1) else .claim i)) := if_pos hmore
      rw [Program.complete, hnext, Memory.findFreePage]
      by_cases hused : s.memory.memoryPages i
      · simp only [if_pos hused]
        exact ih (by omega)
      · simp only [if_neg hused]
        rfl

/-- `get_free_page`, when no tick comes in between. -/
theorem getFreePage_complete (s : PageState) :
    ∃ s', pageProgram.complete alg (N_PAGES + 3) s (.test 0) = some (s', .returns)
      ∧ s'.memory = s.memory.getFreePage.1 ∧ s'.kernel = s.kernel
      ∧ s'.history = s.history ++ if s.memory.getFreePage.2 = 0 then []
        else [.returned s.kernel.currentProcess (pageIndex s.memory.getFreePage.2)] := by
  have hscan := scan_complete alg s (show 0 + N_PAGES = N_PAGES from Nat.zero_add _)
  unfold Memory.getFreePage
  cases hfound : s.memory.findFreePage N_PAGES 0 with
  | none =>
      rw [hfound] at hscan
      exact ⟨s, hscan, rfl, rfl, (List.append_nil _).symm⟩
  | some j =>
      rw [hfound] at hscan
      refine ⟨_, hscan, rfl, rfl, ?_⟩
      simp only [if_neg (pageAddress_ne_zero j), pageIndex_pageAddress]

/-- `free_page` of a page that the process holds. -/
theorem freePage_complete (s : PageState) {i : Nat}
    (hheld : pageHolder s.history i = some s.kernel.currentProcess) :
    pageProgram.complete alg 2 s (.freeClear i) =
      some ({ s with
        memory := (s.memory.freePage (pageAddress i)).1
        history := s.history ++ [.freed i] }, .returns) := by
  have hfirst : pageProgram.statement alg s (.freeClear i)
      = ({ s with memory := s.memory.memzero (pageAddress i) PAGE_SIZE }, .goto (.freeMark i)) :=
    if_pos hheld
  rw [Program.complete, hfirst, Memory.freePage, if_neg (not_not.mpr (pageAddress_mod i)),
    pageIndex_pageAddress]
  rfl

end Complete

/-! ### Runs -/

/-- The twenty pages of a process that owns the pages from `first` on: a frame, the four
tables, and the other frames. -/
def userPagesFrom (first : Nat) : MmStruct where
  pgd := pageAddress (first + 1)
  userPages := (first :: List.range' (first + 5) 15).zipIdx.map fun page =>
    ⟨pageAddress page.1, page.2 * PAGE_SIZE⟩
  kernelPages := (List.range' (first + 1) 4).map pageAddress

/-- Process 1 in user mode. -/
def firstProcess : List (PreemptionEvent PageCall) :=
  [.trap (.kernelMain (some 0)), .trap .timerTick, .trap (.moveToUserMode (userPagesFrom 1) .zeroed)]

/-- `get_free_page` up to the claim of slot `n`. -/
def scanTo (n : Nat) : List (PreemptionEvent PageCall) :=
  .call .getFreePage :: List.replicate (n + 1) .statement

section Runs

open PreemptionEvent (call statement trap)

variable {alg : SchedAlgorithm} {s : Preemptible PageState PagePoint}
  {check : Preemptible PageState PagePoint → PreemptionEvent PageCall → Bool}

/-- The current process is in user code, and slot `n` is the first free one. -/
def ReadyToScan (s : Preemptible PageState PagePoint) (n : Nat) : Prop :=
  (s.state.kernel.InUserMode ∧ (s.point (pageProgram.current s)).isNone
      ∧ s.state.kernel.IsProcess (pageProgram.current s))
    ∧ (∀ i < n, s.state.memory.memoryPages i = true) ∧ s.state.memory.memoryPages n = false

instance (s : Preemptible PageState PagePoint) (n : Nat) : Decidable (ReadyToScan s n) :=
  inferInstanceAs (Decidable (_ ∧ _))

/-- The current process goes to a place of its call. -/
def PageState.goTo (s : Preemptible PageState PagePoint) (x : PagePoint) :
    Preemptible PageState PagePoint :=
  { s with point := Function.update s.point (pageProgram.current s) (some x) }

/-- The loop of `get_free_page` passes the slots in use. -/
theorem run_tests (hcheck : ∀ s i, s.point (pageProgram.current s) = some (.test i) →
      check s statement = true) (n i : Nat) (hpages : i + n < N_PAGES)
    (htaken : ∀ j < i + n, s.state.memory.memoryPages j = true)
    (hfree : s.state.memory.memoryPages (i + n) = false) :
    pageProgram.run alg check (PageState.goTo s (.test i)) (List.replicate (n + 1) statement)
      = some (PageState.goTo s (.claim (i + n))) := by
  have hat (i : Nat) : (PageState.goTo s (.test i)).point
      (pageProgram.current (PageState.goTo s (.test i))) = some (.test i) :=
    Function.update_self _ _ _
  have hmoves (i : Nat) (x : PagePoint) :
      PageState.goTo (PageState.goTo s (.test i)) x = PageState.goTo s x :=
    congrArg (Preemptible.mk s.state) (Function.update_idem _ _ _)
  induction n generalizing i with
  | zero =>
      have htest : pageStatement s.state (.test i) = (s.state, .goto (.claim i)) := by
        rw [pageStatement, if_pos (by omega), show s.state.memory.memoryPages i = false from hfree]
        rfl
      rw [List.replicate_one, Program.run, if_pos (hcheck _ i (hat i)), Program.step, hat i,
        Option.bind_some]
      show (pageProgram.proceed alg _ (pageStatement s.state (.test i))).bind _ = _
      rw [htest, ← hmoves i (.claim (i + 0))]
      rfl
  | succ n ih =>
      have htest : pageStatement s.state (.test i) = (s.state, .goto (.test (i + 1))) := by
        rw [pageStatement, if_pos (by omega), htaken i (by omega)]
        rfl
      rw [List.replicate_succ, Program.run, if_pos (hcheck _ i (hat i)), Program.step, hat i,
        Option.bind_some]
      show (pageProgram.proceed alg _ (pageStatement s.state (.test i))).bind _ = _
      rw [htest, show i + (n + 1) = i + 1 + n by omega,
        ← ih (i + 1) (by omega) (fun j hj => htaken j (by omega))
          (by rw [← hfree]; congr 1; omega), ← hmoves i (.test (i + 1))]
      rfl

/-- `get_free_page` comes to the first free slot. -/
theorem run_scanTo (hcheck : ∀ s i, s.point (pageProgram.current s) = some (.test i) →
      check s statement = true) (hcall : ∀ s, check s (call .getFreePage) = true) {n : Nat}
    (hn : n < N_PAGES) (hready : ReadyToScan s n) :
    pageProgram.run alg check s (scanTo n) = some (PageState.goTo s (.claim n)) := by
  obtain ⟨hcaller, htaken, hfree⟩ := hready
  have htests : pageProgram.run alg check (PageState.goTo s (.test 0))
      (List.replicate (n + 1) statement) = some (PageState.goTo s (.claim (0 + n))) :=
    run_tests hcheck n 0 (by omega) (fun j hj => htaken j (by omega))
      (by rw [Nat.zero_add]; exact hfree)
  rw [Nat.zero_add] at htests
  have hcaller' : (pageProgram.kernel s.state).InUserMode
      ∧ (s.point (pageProgram.current s)).isNone
      ∧ (pageProgram.kernel s.state).IsProcess (pageProgram.current s) := hcaller
  rw [scanTo, Program.run, if_pos (hcall s), Program.step, if_pos hcaller']
  exact htests

/-- A run with two calls of `get_free_page` that come to slot `n`, without the loops. -/
theorem run_scans (hcheck : ∀ s i, s.point (pageProgram.current s) = some (.test i) →
      check s statement = true) (hcall : ∀ s, check s (call .getFreePage) = true) {n : Nat}
    (hn : n < N_PAGES) {before between after : List (PreemptionEvent PageCall)}
    {s' : Preemptible PageState PagePoint}
    (h : (pageProgram.run alg check s before).bind (fun s =>
      if ReadyToScan s n then
        (pageProgram.run alg check (PageState.goTo s (.claim n)) between).bind fun s =>
          if ReadyToScan s n then pageProgram.run alg check (PageState.goTo s (.claim n)) after
          else none
      else none) = some s') :
    pageProgram.run alg check s (before ++ scanTo n ++ between ++ scanTo n ++ after) = some s' := by
  obtain ⟨s₁, hbefore, h⟩ := Option.bind_eq_some_iff.mp h
  split at h
  · next hready =>
      obtain ⟨s₂, hbetween, h⟩ := Option.bind_eq_some_iff.mp h
      split at h
      · next hready' =>
          simp only [Program.run_append, hbefore, Option.bind_some,
            run_scanTo hcheck hcall hn hready, hbetween, run_scanTo hcheck hcall hn hready', h]
      · exact nomatch h
  · exact nomatch h

end Runs

end DemoOS
