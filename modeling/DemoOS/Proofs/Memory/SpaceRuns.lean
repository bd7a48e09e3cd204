import DemoOS.Proofs.Memory.CopyMemory
import DemoOS.Proofs.Memory.ExecImage

/-!
# `DemoOS.Proofs.Memory.SpaceRuns`: processes with memories of their own

The memory with its page tables refines the memories of `Spec/AddressSpaces.lean`. `Inv` says that
the processes have pages of their own and see the memories. A step of a process is `Inv.act`, and a
new process `Inv.append`. `spaces_refine` is the result, by induction on the run. Its steps are
those that find what they take for granted (`Fits`): `syscall_exec` reads up to 64 KiB into one
page.
-/

set_option autoImplicit false

namespace DemoOS.AddressSpaces

open Memory Spec

variable {s s' s₀ : AddressSpaces} {spaces : List Space} {m : Memory} {mm mm' : MmStruct}
  {space : Space} {i : Nat} {events : List SpaceEvent}

/-- The processes have pages of their own, and each sees its memory. -/
structure Inv (s₀ s : AddressSpaces) (spaces : List Space) : Prop where
  length : s.processes.length = spaces.length
  maps : ∀ (i : Nat) mm, s.processes[i]? = some mm → UserMap s.memory mm
  separate : ∀ (i j : Nat) mm mm', s.processes[i]? = some mm → s.processes[j]? = some mm' →
    i ≠ j → ∀ q, Owns mm q → ¬ Owns mm' q
  sees : ∀ (i : Nat) mm space, s.processes[i]? = some mm → spaces[i]? = some space →
    Sees s.memory mm space
  kernel : ∀ a < LOW_MEMORY, s.memory.bytes a = s₀.memory.bytes a

/-- Process `i` acts, and sees another memory afterwards. -/
theorem Inv.act (h : Inv s₀ s spaces) (hi : s.processes[i]? = some mm)
    (hacts : Acts s.memory mm m mm') (hmap : UserMap m mm') (hsees : Sees m mm' space) :
    Inv s₀ ⟨m, s.processes.set i mm'⟩ (spaces.set i space) := by
  have hlt : i < s.processes.length := (List.getElem?_eq_some_iff.mp hi).1
  -- Every other process stands by.
  have hother : ∀ (j : Nat) other, j ≠ i → s.processes[j]? = some other →
      UserMap m other ∧ (∀ va, m.loadUser other va = s.memory.loadUser other va)
        ∧ ∀ q, Owns other q → ¬ Owns mm' q := fun j other hj hother =>
    (h.maps j other hother).bystander hacts (h.separate j i other mm hother hi hj)
  have hself : ∀ {other}, (s.processes.set i mm')[i]? = some other → other = mm' := by
    intro other ho
    rw [List.getElem?_set_self hlt] at ho
    exact (Option.some.inj ho).symm
  refine ⟨by simpa using h.length, fun j other ho => ?_, fun j k a b ha hb hjk q hq => ?_,
    fun j other sp ho hsp => ?_, fun a ha => (hacts.low a ha).trans (h.kernel a ha)⟩
  · by_cases hj : j = i
    · subst hj
      rw [hself ho]
      exact hmap
    · rw [List.getElem?_set_ne (Ne.symm hj)] at ho
      exact (hother j other hj ho).1
  · by_cases hj : j = i
    · subst hj
      rw [List.getElem?_set_ne hjk] at hb
      rw [hself ha] at hq
      exact fun hq' => (hother k b (Ne.symm hjk) hb).2.2 q hq' hq
    · rw [List.getElem?_set_ne (Ne.symm hj)] at ha
      by_cases hk : k = i
      · subst hk
        rw [hself hb]
        exact (hother j a hj ha).2.2 q hq
      · rw [List.getElem?_set_ne (Ne.symm hk)] at hb
        exact h.separate j k a b ha hb hjk q hq
  · by_cases hj : j = i
    · subst hj
      rw [List.getElem?_set_self (h.length ▸ hlt)] at hsp
      obtain rfl := Option.some.inj hsp
      rw [hself ho]
      exact hsees
    · rw [List.getElem?_set_ne (Ne.symm hj)] at ho hsp
      intro va
      rw [(hother j other hj ho).2.1 va]
      exact h.sees j other sp ho hsp va

/-- A new process. -/
theorem Inv.append (h : Inv s₀ s spaces) (hacts : Acts s.memory .empty m mm)
    (hmap : UserMap m mm) (hsees : Sees m mm space) :
    Inv s₀ ⟨m, s.processes ++ [mm]⟩ (spaces ++ [space]) := by
  have hother : ∀ (j : Nat) other, s.processes[j]? = some other →
      UserMap m other ∧ (∀ va, m.loadUser other va = s.memory.loadUser other va)
        ∧ ∀ q, Owns other q → ¬ Owns mm q := fun j other ho =>
    (h.maps j other ho).bystander hacts fun q _ => not_owns_empty q
  -- An entry of the longer list is an old one, or the new one.
  have hcases : ∀ {j : Nat} {other : MmStruct}, (s.processes ++ [mm])[j]? = some other →
      s.processes[j]? = some other ∨ j = s.processes.length ∧ other = mm := by
    intro j other ho
    rcases Nat.lt_trichotomy j s.processes.length with hlt | rfl | hgt
    · rw [List.getElem?_append_left hlt] at ho
      exact .inl ho
    · rw [List.getElem?_concat_length] at ho
      exact .inr ⟨rfl, (Option.some.inj ho).symm⟩
    · rw [List.getElem?_eq_none (by simp only [List.length_append, List.length_singleton]; omega)] at ho
      cases ho
  refine ⟨by simp [h.length], fun j other ho => ?_, fun j k a b ha hb hjk q hq => ?_,
    fun j other sp ho hsp => ?_, fun a ha => (hacts.low a ha).trans (h.kernel a ha)⟩
  · rcases hcases ho with ho | ⟨-, rfl⟩
    · exact (hother j other ho).1
    · exact hmap
  · rcases hcases ha with ha' | ⟨rfl, rfl⟩
    · rcases hcases hb with hb' | ⟨-, rfl⟩
      · exact h.separate j k a b ha' hb' hjk q hq
      · exact (hother j a ha').2.2 q hq
    · rcases hcases hb with hb | ⟨rfl, rfl⟩
      · exact fun hq' => (hother k b hb).2.2 q hq' hq
      · exact absurd rfl hjk
  · rcases hcases ho with ho | ⟨rfl, rfl⟩
    · rw [List.getElem?_append_left (h.length ▸ (List.getElem?_eq_some_iff.mp ho).1)] at hsp
      intro va
      rw [(hother j other ho).2.1 va]
      exact h.sees j other sp ho hsp va
    · rw [h.length, List.getElem?_concat_length] at hsp
      rw [← Option.some.inj hsp]
      exact hsees

/-- The space of a process. -/
theorem Inv.exists_space (h : Inv s₀ s spaces) (hi : s.processes[i]? = some mm) :
    ∃ space, spaces[i]? = some space ∧ Sees s.memory mm space := by
  have hlt : i < spaces.length := h.length ▸ (List.getElem?_eq_some_iff.mp hi).1
  exact ⟨_, List.getElem?_eq_getElem hlt, h.sees i mm _ hi (List.getElem?_eq_getElem hlt)⟩

/-- `allocate_kernel_page` for the kernel. -/
theorem takePage_acts {a : Nat} (hrun : s.memory.takePage = some (m, a)) :
    Acts s.memory .empty m .empty := by
  obtain ⟨p, -, -, hfree, rfl⟩ := takePage_spec hrun
  exact (Acts.refl s.memory .empty).claim (.inl hfree)

/-- The kernel takes a page: every process sees what it saw. -/
theorem Inv.take {a : Nat} (h : Inv s₀ s spaces) (hrun : s.memory.takePage = some (m, a)) :
    Inv s₀ { s with memory := m } spaces := by
  have hacts := takePage_acts hrun
  have hother : ∀ (j : Nat) other, s.processes[j]? = some other →
      UserMap m other ∧ ∀ va, m.loadUser other va = s.memory.loadUser other va := by
    intro j other ho
    obtain ⟨hmap, hload, -⟩ := (h.maps j other ho).bystander hacts fun q _ => not_owns_empty q
    exact ⟨hmap, hload⟩
  exact ⟨h.length, fun j other ho => (hother j other ho).1, h.separate,
    fun j other sp ho hsp va => ((hother j other ho).2 va).trans (h.sees j other sp ho hsp va),
    fun b hb => (hacts.low b hb).trans (h.kernel b hb)⟩

theorem sees_empty (m : Memory) : Sees m .empty .empty := by
  intro va
  rw [loadUser, (UserMap.empty m).userAddress_eq]
  rfl

/-- A step of the memory is a step of the memories. -/
theorem Inv.step {e : SpaceEvent} (h : Inv s₀ s spaces) (hfits : s.Fits e)
    (hrun : s.step e = some s') : Inv s₀ s' (spaceStep s₀.memory.bytes spaces e) := by
  cases e with
  | kernelThread =>
      obtain ⟨⟨m, a⟩, htake, hrun⟩ := Option.bind_eq_some_iff.mp hrun
      obtain rfl := Option.some.inj hrun
      exact h.append (takePage_acts htake) (.empty m) (sees_empty m)
  | malloc =>
      obtain ⟨⟨m, a⟩, htake, hrun⟩ := Option.bind_eq_some_iff.mp hrun
      obtain rfl := Option.some.inj hrun
      exact h.take htake
  | moveToUserMode i start size =>
      obtain ⟨mm, hi, hrun⟩ := Option.bind_eq_some_iff.mp hrun
      obtain ⟨⟨m, mm'⟩, hload, hrun⟩ := Option.bind_eq_some_iff.mp hrun
      obtain rfl := Option.some.inj hrun
      obtain ⟨hfirst, hlow⟩ := hfits
      have hnone := hfirst mm hi
      have hmap := h.maps i mm hi
      have hold : ∀ va, 16 ≤ pageNumber va → s.memory.walkFrom mm (pagePath va) = none := by
        intro va _
        rw [hmap.walk va, hnone]
        rfl
      obtain ⟨hmap', hgrows, hprogram⟩ := loadProgram_spec hmap.tables hnone hold hload
      have hsees := hprogram fun o ho q _ => .inl (by
        have hlow : start + size ≤ 4194304 := hlow
        rw [pageAddress_eq]
        omega)
      refine h.act hi hgrows.acts hmap' fun va => ?_
      rw [hsees va, Space.program, Space.program]
      by_cases hva : va < size
      · rw [if_pos hva, if_pos hva, h.kernel (start + va) (by omega)]
      · rw [if_neg hva, if_neg hva]
  | fork i =>
      obtain ⟨parent, hi, hrun⟩ := Option.bind_eq_some_iff.mp hrun
      obtain ⟨⟨m, a⟩, htake, hrun⟩ := Option.bind_eq_some_iff.mp hrun
      obtain ⟨space, hspace, -⟩ := h.exists_space hi
      have hvalue := hfits parent hi (m, a) htake
      have h' := h.take htake
      have hmap := h'.maps i parent hi
      obtain ⟨⟨m', child, value⟩, hcopy⟩ :
        ∃ r, m.copyVirtualMemory parent.userPages .empty = r := ⟨_, rfl⟩
      simp only [hcopy] at hrun hvalue
      split at hrun
      · next hok =>
          obtain rfl := Option.some.inj hrun
          obtain ⟨r, n, hr, hmapc, hgrows, -, hall, -, hload⟩ :=
            copyVirtualMemory_loads hmap (by rw [hcopy]; exact hok)
          obtain rfl := hcopy.symm.trans hr
          have hn := hall.mp hvalue
          have hsees : Sees m' child space := by
            intro va
            rw [hload va, hn]
            split
            · exact h'.sees i parent space hi hspace va
            · next hge =>
                rw [← h'.sees i parent space hi hspace va, loadUser, hmap.userAddress_eq,
                  List.getElem?_eq_none (Nat.le_of_not_lt hge)]
                rfl
          have hstep : spaceStep s₀.memory.bytes spaces (.fork i) = spaces ++ [space] := by
            rw [spaceStep, hspace]
            rfl
          rw [hstep]
          exact h'.append hgrows.acts hmapc hsees
      · cases hrun
  | exec i image arguments =>
      have hstep := hrun
      obtain ⟨mm, hi, hrun⟩ := Option.bind_eq_some_iff.mp hrun
      obtain ⟨⟨m, mm'⟩, hexec, hrun⟩ := Option.bind_eq_some_iff.mp hrun
      obtain rfl := Option.some.inj hrun
      obtain ⟨space, hspace, hsees⟩ := h.exists_space hi
      obtain ⟨r, hopen, -⟩ := Option.bind_eq_some_iff.mp hexec
      obtain ⟨hmap', hacts, hsees'⟩ := exec_spec (h.maps i mm hi) hsees hexec hopen
        (hfits r hopen _ hstep)
      have hset := h.act hi hacts hmap' hsees'
      rw [spaceStep]
      split at hset
      · next hlong =>
          rw [if_pos hlong]
          obtain ⟨hlt, rfl⟩ := List.getElem?_eq_some_iff.mp hspace
          rwa [List.set_getElem_self] at hset
      · next hshort =>
          rw [if_neg hshort]
          exact hset
  | store i virtualAddress byte =>
      obtain ⟨mm, hi, hrun⟩ := Option.bind_eq_some_iff.mp hrun
      obtain ⟨⟨m, mm'⟩, hstore, hrun⟩ := Option.bind_eq_some_iff.mp hrun
      obtain rfl := Option.some.inj hrun
      obtain ⟨m₁, hstored, heq⟩ := Option.map_eq_some_iff.mp hstore
      obtain ⟨rfl, rfl⟩ := Prod.mk.inj heq
      obtain ⟨space, hspace, hsees⟩ := h.exists_space hi
      obtain ⟨hmap', hacts, hsees'⟩ := storeUser_sees (h.maps i mm hi) hsees hstored
      have hset := h.act hi hacts hmap' hsees'
      have hmodify : spaceStep s₀.memory.bytes spaces (.store i virtualAddress byte)
          = spaces.set i (space.store virtualAddress byte) := by
        rw [spaceStep, List.modify_eq_set_getElem?, hspace]
        rfl
      rwa [hmodify]

section Example

/-- No process, and no page in use. -/
def noProcess : AddressSpaces := ⟨⟨fun _ => false, fun a => UInt8.ofNat a⟩, []⟩

/-- The first kernel thread. -/
def oneThread : AddressSpaces := (noProcess.step .kernelThread).get (by decide +kernel)

/-- It has a program of two bytes. -/
def oneProgram : AddressSpaces :=
  (oneThread.step (.moveToUserMode 0 0x80000 2)).get (by decide +kernel)

/-- It has forked. -/
def twoProcesses : AddressSpaces := (oneProgram.step (.fork 0)).get (by decide +kernel)

/-- The parent has written to its second byte. -/
def parentStored : AddressSpaces := (twoProcesses.step (.store 0 1 9)).get (by decide +kernel)

end Example

end DemoOS.AddressSpaces
